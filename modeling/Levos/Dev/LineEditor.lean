import Mathlib.Data.List.Infix
import Levos.Dev.TtyInput

/-!
# Canonical line editing

What a terminal with the settings of `termios_init` is for: the bytes that are
typed edit a line, and a line that is completed can be read. `Editor` says so
without buffers and echoes; `nTty_edits_lines` is that the line discipline does
the same, between all reads and writes, as long as the lines and the completed
ones that wait to be read have room.
-/

namespace Levos.Dev

open Levos.Base Levos.Lib

/-! ## The reference editor -/

structure Editor where
  completed : List (List UInt8)
  line : List UInt8
deriving DecidableEq

def Editor.new : Editor := ⟨[], []⟩

/-- Erase takes one byte off the line, word erase the last word and the blank
before it, kill everything; a carriage return is a newline, and that completes
the line. -/
def Editor.type (e : Editor) (byte : UInt8) : Editor :=
  if byte = 0x7F then { e with line := e.line.dropLast }
  else if byte = 0x17 then { e with line := dropWord e.line }
  else if byte = 0x15 then { e with line := [] }
  else if byte = 0x0D ∨ byte = 0x0A then
    { completed := e.completed ++ [e.line ++ [0x0A]], line := [] }
  else { e with line := e.line ++ [byte] }

/-- Only what is typed goes to the editor. -/
def Editor.op (e : Editor) : InputOp → Editor
  | .input _ byte => e.type byte
  | _ => e

def Editor.edit (e : Editor) (ops : List InputOp) : Editor := ops.foldl Editor.op e

def Editor.text (e : Editor) : List UInt8 := e.completed.flatten

/-! ## The line discipline follows it -/

/-- No signal character, no `VEOF`, and no other settings. -/
def PlainOp : InputOp → Prop
  | .input _ byte => plainByte byte
  | .tcsets _ => False
  | _ => True

/-- The terminal has the line of the editor, and what was read and what can be
read are its completed lines. -/
structure Follows (s : TtySystem) (e : Editor) : Prop where
  wf : InputWf s.tty
  termios : s.tty.ttyTermios = termiosInit
  opened : s.tty.view.state = .unknown
  line : s.tty.view.line = e.line
  text : s.given ++ s.tty.view.ready = e.text

variable {s s' : TtySystem} {e : Editor} {op : InputOp} {ops : List InputOp}

theorem systemNew_follows (rb rb' : RingBuffer) (fg : Int)
    (mem mem' : List.Vector UInt8 ptyBufSize) :
    Follows (systemNew rb rb' fg mem mem') Editor.new := by
  obtain ⟨-, -, hcon⟩ := ringBufferNonblock_wf rb' (by decide) mem'.toList_length
  refine ⟨ttyNew_inputWf rb rb' fg mem mem', rfl, rfl, rfl, ?_⟩
  show [] ++ ringContents (ringBufferNonblock rb' mem'.toList ptyBufSize) = []
  rw [hcon]
  rfl

theorem fifoAccepted_all {cap : Nat} {q buf : List UInt8} (h : q.length + buf.length ≤ cap) :
    fifoAccepted cap q buf = buf := by
  rw [fifoAccepted, List.take_of_length_le]
  omega

/-- What a plain byte does to the view, if a completed line has room. -/
theorem InputView.input_plain {v : InputView} {byte : UInt8} (hplain : plainByte byte)
    (hroom : byte = 0x0D ∨ byte = 0x0A → v.ready.length + (v.line.length + 1) ≤ ptyBufSize) :
    v.input termiosInit byte =
      if byte = 0x7F then { v with line := v.line.dropLast }
      else if byte = 0x17 then { v with line := dropWord v.line }
      else if byte = 0x15 then { v with line := [] }
      else if byte = 0x0D ∨ byte = 0x0A then
        { v with ready := v.ready ++ (v.line ++ [0x0A]), line := [] }
      else { v with line := v.line ++ [byte] } := by
  have hcanon : termiosInit.local icanon = true := by decide
  rw [InputView.input, inputKind_default v.line hplain]
  by_cases herase : byte = 0x7F
  · rw [if_pos herase, if_pos herase]
  · rw [if_neg herase, if_neg herase]
    by_cases hword : byte = 0x17
    · rw [if_pos hword, if_pos hword]
    · rw [if_neg hword, if_neg hword]
      by_cases hkill : byte = 0x15
      · rw [if_pos hkill, if_pos hkill]
      · rw [if_neg hkill, if_neg hkill]
        by_cases hnl : byte = 0x0D ∨ byte = 0x0A
        · rw [if_pos hnl, if_pos hnl]
          dsimp only [InputView.push]
          rw [if_pos hcanon, InputView.flush]
          dsimp only
          rw [fifoAccepted_all (by simpa using hroom hnl)]
        · rw [if_neg hnl, if_neg hnl]
          dsimp only [InputView.push]
          rw [if_pos hcanon]

theorem follows_input {mem : Nat → Bool} {byte : UInt8} (h : Follows s e) (hplain : plainByte byte)
    (hstep : inputStep s (.input mem byte) = some s')
    (hfits : (e.type byte).text.length ≤ s'.given.length + ptyBufSize) :
    Follows s' (e.type byte) := by
  obtain ⟨tty, hok, rfl⟩ := inputStep_input hstep
  obtain ⟨hwf, htm, hview⟩ := nTtyWriteInput_ok h.wf hok
  have hlength := congrArg List.length h.text
  rw [List.length_append] at hlength
  have hroom : byte = 0x0D ∨ byte = 0x0A →
      s.tty.view.ready.length + (s.tty.view.line.length + 1) ≤ ptyBufSize := by
    intro hnl
    have hnot : byte ≠ 0x7F ∧ byte ≠ 0x17 ∧ byte ≠ 0x15 := by
      rcases hnl with rfl | rfl <;> decide
    rw [Editor.type, if_neg hnot.1, if_neg hnot.2.1, if_neg hnot.2.2, if_pos hnl] at hfits
    simp only [Editor.text, List.flatten_append, List.flatten_singleton, List.length_append,
      List.length_singleton] at hfits hlength
    rw [h.line]
    omega
  rw [h.termios, InputView.input_plain hplain hroom] at hview
  have htext := h.text
  have hline := h.line
  refine ⟨hwf, htm.trans h.termios, ?_, ?_, ?_⟩
  · show tty.view.state = _
    rw [hview]
    split_ifs <;> exact h.opened
  · show tty.view.line = _
    rw [hview, Editor.type]
    split_ifs <;> simp [hline]
  · show s.given ++ tty.view.ready = _
    rw [hview, Editor.type]
    split_ifs
    case pos => exact htext
    case pos => exact htext
    case pos => exact htext
    case pos =>
      rw [← List.append_assoc, htext, hline]
      simp [Editor.text]
    case neg => exact htext

theorem follows_step (h : Follows s e) (hplain : PlainOp op) (hstep : inputStep s op = some s')
    (hfits : (e.op op).text.length ≤ s'.given.length + ptyBufSize) : Follows s' (e.op op) := by
  cases op with
  | input mem byte => exact follows_input h hplain hstep hfits
  | tcsets tm => exact hplain.elim
  | fwrite mem buf =>
      obtain ⟨tty, hechoed, rfl⟩ := inputStep_fwrite h.wf hstep
      obtain ⟨hwf, htm, hview⟩ := hechoed
      exact ⟨hwf, htm.trans h.termios, hview ▸ h.opened, hview ▸ h.line, hview ▸ h.text⟩
  | fread len =>
      have hopen : s.tty.ttyState ≠ .closed := by
        have := h.opened
        rw [show s.tty.ttyState = .unknown from this]
        decide
      rw [inputStep, if_neg hopen, Option.some.injEq] at hstep
      subst hstep
      exact ⟨h.wf, h.termios, h.opened, h.line, h.text⟩
  | cttyRead len =>
      obtain rfl := Option.some.inj hstep
      exact ⟨h.wf, h.termios, h.opened, h.line, h.text⟩
  | wake len =>
      obtain ⟨-, -, tty, ⟨hwf, htm, hview⟩, rfl⟩ := inputStep_wake h.wf hstep
      refine ⟨hwf, htm.trans h.termios, ?_, ?_, ?_⟩
      · show tty.view.state = _
        rw [hview]
        exact h.opened
      · show tty.view.line = _
        rw [hview]
        exact h.line
      · show (s.given ++ s.tty.view.ready.take len) ++ tty.view.ready = _
        rw [hview, List.append_assoc, List.take_append_drop]
        exact h.text

/-! ## Runs -/

/-- Before each further operation there is room on the line, and after it for
the completed lines that were not read yet. -/
structure LinesFit (s : TtySystem) (e : Editor) (ops : List InputOp) : Prop where
  lines : ∀ pre, pre <+: ops → (e.edit pre).line.length < lineEditingSize
  text : ∀ pre t, pre <+: ops → runSteps inputStep s pre = some t →
    (e.edit pre).text.length ≤ t.given.length + ptyBufSize

theorem LinesFit.tail (h : LinesFit s e (op :: ops)) (hstep : inputStep s op = some s') :
    LinesFit s' (e.op op) ops := by
  refine ⟨fun pre hpre => h.lines (op :: pre) (List.cons_prefix_cons.mpr ⟨rfl, hpre⟩),
    fun pre t hpre hrun => ?_⟩
  refine h.text (op :: pre) t (List.cons_prefix_cons.mpr ⟨rfl, hpre⟩) ?_
  rw [runSteps, hstep]
  exact hrun

theorem LinesFit.head (h : LinesFit s e (op :: ops)) (hstep : inputStep s op = some s') :
    (e.op op).text.length ≤ s'.given.length + ptyBufSize :=
  (h.tail hstep).text [] s' List.nil_prefix rfl

theorem follows_run : ∀ {ops : List InputOp} {s t : TtySystem} {e : Editor}, Follows s e →
    (∀ op ∈ ops, PlainOp op) → LinesFit s e ops → runSteps inputStep s ops = some t →
    Follows t (e.edit ops)
  | [], s, t, e, h, _, _, hrun => by
      rw [runSteps, Option.some.injEq] at hrun
      exact hrun ▸ h
  | op :: ops, s, t, e, h, hplain, hfits, hrun => by
      obtain ⟨s', hstep, hrest⟩ := runSteps_cons_some hrun
      have hnext := follows_step h (hplain op List.mem_cons_self) hstep (hfits.head hstep)
      have hlast : Follows t ((e.op op).edit ops) :=
        follows_run hnext (List.forall_mem_cons.mp hplain).2 (hfits.tail hstep) hrest
      exact hlast

/-- A plain byte with room on the line, and memory for the echoes. -/
theorem inputOk_plain {byte : UInt8} (h : Follows s e) (hplain : plainByte byte)
    (hroom : e.line.length < lineEditingSize) : InputOk (fun _ => true) s.tty byte := by
  have hline : s.tty.lineEditing = e.line := h.line
  unfold InputOk
  rw [h.termios, inputKind_default _ hplain, hline]
  split
  case h_1 hkind => split_ifs at hkind
  case h_2 => trivial
  case h_3 => trivial
  case h_4 => exact .inr rfl
  case h_5 => exact fun _ _ => rfl
  case h_6 => exact fun _ _ => rfl
  case h_7 => exact ⟨fun _ => rfl, hroom⟩
  case h_8 => exact ⟨fun _ => rfl, hroom⟩

/-- While nothing waits in `tty_out` and there is memory for the echoes, all
that is typed goes through. -/
theorem follows_progress : ∀ {ops : List InputOp} {s : TtySystem} {e : Editor}, Follows s e →
    s.tty.ttyOut.size = 0 → (∀ op ∈ ops, PlainOp op) →
    (∀ op ∈ ops, ∃ byte, op = .input (fun _ => true) byte) → LinesFit s e ops →
    ∃ t, runSteps inputStep s ops = some t
  | [], s, _, _, _, _, _, _ => ⟨s, rfl⟩
  | op :: ops, s, e, h, hempty, hplain, htyped, hfits => by
      obtain ⟨byte, rfl⟩ := htyped op List.mem_cons_self
      have hbyte : plainByte byte := hplain _ List.mem_cons_self
      obtain ⟨tty, hok, hquiet⟩ := nTtyWriteInput_quiet h.wf hempty
        (inputOk_plain h hbyte (hfits.lines [] List.nil_prefix))
      obtain ⟨s', hstep, htty⟩ : ∃ s', inputStep s (.input (fun _ => true) byte) = some s' ∧
          s'.tty = tty := by
        rw [inputStep, hok]
        exact ⟨_, rfl, rfl⟩
      have hnext := follows_step h (hplain _ List.mem_cons_self) hstep (hfits.head hstep)
      obtain ⟨t, hrun⟩ := follows_progress hnext (htty ▸ hquiet)
        (List.forall_mem_cons.mp hplain).2 (List.forall_mem_cons.mp htyped).2 (hfits.tail hstep)
      exact ⟨t, by rw [runSteps, hstep]; exact hrun⟩

/-- **Canonical line editing.** In every run of typed bytes, reads and writes from
`tty_new` on, without signal characters and `VEOF`, whose lines stay under 512
bytes and whose completed lines fit into the line buffer until they are read:
what the reads returned and what `n_tty_read_buf` can return are the completed
lines of the editor, in order, and nothing of the line that is being edited. If
all that happens is typing, with memory for the echoes, it all goes through. -/
theorem nTty_edits_lines (rb rb' : RingBuffer) (fg : Int)
    (mem mem' : List.Vector UInt8 ptyBufSize) {ops : List InputOp}
    (hplain : ∀ op ∈ ops, PlainOp op)
    (hfits : LinesFit (systemNew rb rb' fg mem mem') Editor.new ops) :
    (∀ s, runSteps inputStep (systemNew rb rb' fg mem mem') ops = some s →
      ∃ ready, s.given ++ ready = (Editor.new.edit ops).text ∧
        s.tty.lineEditing = (Editor.new.edit ops).line ∧
        ∀ len, if ready = [] then nTtyReadBuf s.tty len = none
          else ∃ tty, nTtyReadBuf s.tty len = some (tty, ready.take len) ∧
            ringContents tty.lineBuffer = ready.drop len) ∧
    ((∀ op ∈ ops, ∃ byte, op = .input (fun _ => true) byte) →
      ∃ s, runSteps inputStep (systemNew rb rb' fg mem mem') ops = some s) := by
  have hnew := systemNew_follows rb rb' fg mem mem'
  refine ⟨fun s hrun => ?_, fun htyped => follows_progress hnew rfl hplain htyped hfits⟩
  obtain ⟨hwf, -, hopen, hline, htext⟩ := follows_run hnew hplain hfits hrun
  refine ⟨s.tty.view.ready, htext, hline, fun len => ?_⟩
  rcases nTtyReadBuf_spec hwf len with ⟨-, hempty, hnone⟩ | ⟨hready, tty, hread, hbecomes⟩
  · rw [if_pos hempty]
    exact hnone
  · rw [hopen] at hready
    have hne : s.tty.view.ready ≠ [] := by
      rcases hready with hclosed | hne
      · cases hclosed
      · exact hne
    rw [if_neg hne]
    exact ⟨tty, hread, congrArg InputView.ready hbecomes.view⟩

/-- `ab`, erase, `c`, carriage return, and the beginning of another line. -/
def typedLine : List InputOp :=
  [0x61, 0x62, 0x7F, 0x63, 0x0D, 0x64].map fun byte => .input (fun _ => true) byte

theorem nTty_edits_typed :
    let rb : RingBuffer := ⟨0, 0, 0, 0, 0, []⟩
    let mem : List.Vector UInt8 ptyBufSize := List.Vector.replicate ptyBufSize 0
    ∃ s, runSteps inputStep (systemNew rb rb 1 mem mem) typedLine = some s ∧
      ∃ ready, s.given ++ ready = [0x61, 0x63, 0x0A] ∧ s.tty.lineEditing = [0x64] := by
  intro rb mem
  have hbytes : ∀ byte ∈ ([0x61, 0x62, 0x7F, 0x63, 0x0D, 0x64] : List UInt8), plainByte byte := by
    simp [plainByte]
  have hplain : ∀ op ∈ typedLine, PlainOp op := by
    intro op hop
    obtain ⟨byte, hbyte, rfl⟩ := List.mem_map.mp hop
    exact hbytes byte hbyte
  have hprefixes : ∀ pre ∈ typedLine.inits, (Editor.new.edit pre).line.length < lineEditingSize ∧
      (Editor.new.edit pre).text.length ≤ ptyBufSize := by decide
  have hfits : LinesFit (systemNew rb rb 1 mem mem) Editor.new typedLine := by
    refine ⟨fun pre hpre => (hprefixes pre ((List.mem_inits _ _).mpr hpre)).1,
      fun pre t hpre _ => ?_⟩
    have := (hprefixes pre ((List.mem_inits _ _).mpr hpre)).2
    omega
  have htyped : ∀ op ∈ typedLine, ∃ byte, op = .input (fun _ => true) byte := by
    intro op hop
    obtain ⟨byte, -, rfl⟩ := List.mem_map.mp hop
    exact ⟨byte, rfl⟩
  obtain ⟨hread, hgoes⟩ := nTty_edits_lines rb rb 1 mem mem hplain hfits
  obtain ⟨s, hrun⟩ := hgoes htyped
  obtain ⟨ready, htext, hline, -⟩ := hread s hrun
  exact ⟨s, hrun, ready, htext, hline⟩

end Levos.Dev
