import Levos.Base.Run
import Levos.Dev.NTty

/-!
# Output of a terminal

A write puts all its bytes into `tty_out` before the device is told to fetch
them, and an echo does the same with its few bytes; the echo of a signal
character tells nobody. While `tty_out` is empty between the operations, a write
that fits goes through at once. `tty_output_progress` says exactly when an
operation comes back with all its output on the device.
-/

namespace Levos.Dev

open Levos.Base Levos.Lib

/-! ## The system -/

/-- What is done to a terminal, with whether there is memory for the bytes the
device fetches. `suspend` and `exit` are the parts of `task_suspend` and
`task_exit` about the controlling terminal. -/
inductive TtyOp : Type where
  | fwrite (mem : Bool) (buf : List UInt8)
  | cttyWrite (mem : Bool) (buf : List UInt8)
  | input (mem : Nat → Bool) (byte : UInt8)
  | tcsets (tm : Termios)
  | tiocspgrp (pgid : Int)
  | suspend (mem : Bool)
  | exit

def ttyStep (tty : TtyDevice) : TtyOp → Option TtyDevice
  | .fwrite mem buf => ((ttyFwrite mem tty buf).map Prod.fst).toOption
  | .cttyWrite mem buf => ((cttyFileWrite mem tty buf).map Prod.fst).toOption
  | .input mem byte => (nTtyWriteInput mem tty byte).toOption
  | .tcsets tm => some { tty with ttyTermios := tm }
  | .tiocspgrp pgid => some { tty with ttyFgProc := pgid }
  | .suspend mem => (interruptOutput mem tty (ringBufferSize tty.ttyOut)).toOption
  | .exit => some (ttyFlushOutput tty)

/-- All output is on the device, in order, and nothing is left. -/
def OutputDone (tty : TtyDevice) : Prop :=
  ringContents tty.ttyOut = [] ∧ tty.device = tty.produced

/-- The operation comes back, and leaves no output behind. -/
def Progresses (tty : TtyDevice) (op : TtyOp) : Prop :=
  ∃ tty', ttyStep tty op = some tty' ∧ OutputDone tty'

/-! ## The condition -/

/-- The characters `VWERASE` takes off a line: the last word and the blank
before it. -/
def wordLength (line : List UInt8) : Nat :=
  min line.length ((line.reverse.takeWhile fun c => c ≠ 0x20).length + 1)

/-- A byte of input is no signal character with an echo, finds memory for its
echo and room on the line. -/
def InputOk (mem : Nat → Bool) (tty : TtyDevice) (byte : UInt8) : Prop :=
  match inputKind tty.ttyTermios tty.lineEditing byte with
  | .signal _ _ => tty.ttyTermios.local echoctl = false
  | .endOfFile => True
  | .ignored => True
  | .erase => tty.lineEditing = [] ∨ mem 0
  | .eraseWord => ∀ i < wordLength tty.lineEditing, mem i
  | .kill => ∀ i < tty.lineEditing.length, mem i
  | .char _ =>
      (echoesChar tty.ttyTermios → mem 0) ∧ tty.lineEditing.length < lineEditingSize
  | .newline =>
      (echoesNewline tty.ttyTermios → mem 0) ∧ tty.lineEditing.length < lineEditingSize

/-- A write fits into the ring buffer, and finds memory. -/
def OpOk (tty : TtyDevice) : TtyOp → Prop
  | .fwrite mem buf => buf.length ≤ ptyBufSize ∧ (mem ∨ buf = [])
  | .cttyWrite mem buf => buf.length ≤ ptyBufSize ∧ (mem ∨ buf = [])
  | .input mem byte => InputOk mem tty byte
  | .tcsets _ => True
  | .tiocspgrp _ => True
  | .suspend _ => True
  | .exit => True

/-! ## The invariant -/

/-- The ring buffers are what `tty_new` made them, the line has its bound, and
what was put out is on the device or waits for it, in order. -/
structure TtyWf (tty : TtyDevice) : Prop where
  out : RingWf tty.ttyOut
  outFlags : tty.ttyOut.flags = 0
  outCapacity : tty.ttyOut.capacity = ptyBufSize
  line : RingWf tty.lineBuffer
  lineFlags : tty.lineBuffer.flags &&& rbFlagNonblock ≠ 0
  editing : tty.lineEditing.length ≤ lineEditingSize
  bytes : tty.produced = tty.device ++ ringContents tty.ttyOut

/-- The input side is as it was. -/
def SameInput (tty tty' : TtyDevice) : Prop :=
  tty'.ttyTermios = tty.ttyTermios ∧ tty'.lineEditing = tty.lineEditing

variable {tty tty' tty'' : TtyDevice}

theorem SameInput.refl (tty : TtyDevice) : SameInput tty tty := ⟨rfl, rfl⟩

theorem SameInput.trans (h : SameInput tty tty') (h' : SameInput tty' tty'') :
    SameInput tty tty'' :=
  ⟨h'.1.trans h.1, h'.2.trans h.2⟩

theorem TtyWf.congr (h : TtyWf tty) (hout : tty'.ttyOut = tty.ttyOut)
    (hline : tty'.lineBuffer = tty.lineBuffer)
    (hediting : tty'.lineEditing.length ≤ lineEditingSize)
    (hbytes : tty'.produced = tty.produced ∧ tty'.device = tty.device) : TtyWf tty' := by
  refine ⟨hout ▸ h.out, hout ▸ h.outFlags, hout ▸ h.outCapacity, hline ▸ h.line,
    hline ▸ h.lineFlags, hediting, ?_⟩
  rw [hbytes.1, hbytes.2, hout]
  exact h.bytes

theorem ttyNew_wf (rb rb' : RingBuffer) (fg : Int) (mem mem' : List.Vector UInt8 ptyBufSize) :
    TtyWf (ttyNew rb rb' fg mem mem') := by
  obtain ⟨hline, hflags, -⟩ := ringBufferNonblock_wf rb' (by decide) mem'.toList_length
  refine ⟨?_, rfl, rfl, hline, hflags, Nat.zero_le _, rfl⟩
  have hpos : 0 < ptyBufSize := by decide
  exact ⟨hpos, mem.toList_length, hpos, hpos, Nat.zero_le _, rfl⟩

theorem contents_nil_iff (tty : TtyDevice) :
    ringContents tty.ttyOut = [] ↔ tty.ttyOut.size = 0 := by
  rw [← List.length_eq_zero_iff, ringContents_length]

/-! ## Output -/

theorem nTtyWriteOutput_room (h : TtyWf tty) (hroom : tty.ttyOut.size < ptyBufSize)
    (byte : UInt8) :
    ∃ tty', nTtyWriteOutput tty byte = .ok tty' ∧ TtyWf tty' ∧ SameInput tty tty' ∧
      tty'.ttyOut.size = tty.ttyOut.size + 1 := by
  obtain ⟨rb, hw, hwf, hflags, hcap, hcon⟩ :=
    ringBufferWrite_room h.out (outputByte tty.ttyTermios byte) (h.outCapacity ▸ hroom)
  refine ⟨{ tty with
    ttyOut := rb
    produced := tty.produced ++ [outputByte tty.ttyTermios byte] }, ?_, ?_, ⟨rfl, rfl⟩, ?_⟩
  · rw [nTtyWriteOutput, hw]
  · refine ⟨hwf, hflags.trans h.outFlags, hcap.trans h.outCapacity, h.line, h.lineFlags, h.editing,
      ?_⟩
    dsimp only
    rw [hcon, h.bytes, List.append_assoc]
  · simpa using congrArg List.length hcon

theorem nTtyWriteOutput_full (h : TtyWf tty) (hfull : tty.ttyOut.size = ptyBufSize)
    (byte : UInt8) : nTtyWriteOutput tty byte = .error .blocks := by
  have hflags : tty.ttyOut.flags &&& rbFlagNonblock = 0 := by
    rw [h.outFlags]
    rfl
  rw [nTtyWriteOutput, ringBufferWrite_full _ hflags (hfull.trans h.outCapacity.symm)]

theorem writeOutputs_room {buf : List UInt8} (h : TtyWf tty)
    (hroom : tty.ttyOut.size + buf.length ≤ ptyBufSize) :
    ∃ tty', writeOutputs tty buf = .ok tty' ∧ TtyWf tty' ∧ SameInput tty tty' ∧
      tty'.ttyOut.size = tty.ttyOut.size + buf.length := by
  induction buf generalizing tty with
  | nil => exact ⟨tty, rfl, h, .refl tty, rfl⟩
  | cons byte buf ih =>
      rw [List.length_cons] at hroom
      obtain ⟨tty₁, hbyte, hwf₁, hsame₁, hsize₁⟩ := nTtyWriteOutput_room h (by omega) byte
      obtain ⟨tty₂, hbuf, hwf₂, hsame₂, hsize₂⟩ := ih hwf₁ (by omega)
      refine ⟨tty₂, ?_, hwf₂, hsame₁.trans hsame₂, by rw [hsize₂, hsize₁, List.length_cons]; omega⟩
      rw [writeOutputs, hbyte]
      exact hbuf

/-- **A write that does not fit** waits for ever. -/
theorem writeOutputs_full {buf : List UInt8} (h : TtyWf tty)
    (hfull : ptyBufSize < tty.ttyOut.size + buf.length) :
    writeOutputs tty buf = .error .blocks := by
  induction buf generalizing tty with
  | nil =>
      have hle := h.out.size_le
      rw [h.outCapacity] at hle
      exact absurd hfull (by rw [List.length_nil]; omega)
  | cons byte buf ih =>
      rw [List.length_cons] at hfull
      rw [writeOutputs]
      by_cases hroom : tty.ttyOut.size < ptyBufSize
      · obtain ⟨tty₁, hbyte, hwf₁, -, hsize₁⟩ := nTtyWriteOutput_room h hroom byte
        rw [hbyte]
        exact ih hwf₁ (by omega)
      · have hle := h.out.size_le
        rw [h.outCapacity] at hle
        rw [nTtyWriteOutput_full h (by omega) byte]
        rfl

theorem interruptOutput_spec (h : TtyWf tty) (mem : Bool) {len : Nat}
    (hlen : len ≤ tty.ttyOut.size) :
    ∃ tty', interruptOutput mem tty len = .ok tty' ∧ TtyWf tty' ∧ SameInput tty tty' ∧
      tty'.ttyOut.size = tty.ttyOut.size - if mem then len else 0 := by
  cases mem with
  | false => exact ⟨tty, rfl, h, .refl tty, rfl⟩
  | true =>
      obtain ⟨rb, kbuf, hr, hwf, hflags, hcap, hkbuf, hcon⟩ := ringBufferRead_enough h.out hlen
      refine ⟨{ tty with ttyOut := rb, device := tty.device ++ kbuf }, ?_, ?_, ⟨rfl, rfl⟩, ?_⟩
      · rw [interruptOutput, hr]
        rfl
      · refine ⟨hwf, hflags.trans h.outFlags, hcap.trans h.outCapacity, h.line, h.lineFlags,
          h.editing, ?_⟩
        dsimp only
        rw [h.bytes, hcon, List.append_assoc]
      · have hsize := congrArg List.length hcon
        rw [ringContents_length, List.length_append, ringContents_length, hkbuf] at hsize
        rw [if_pos rfl, hsize, Nat.add_sub_cancel_left]

/-- **Output that fits** is on the device afterwards, if there is memory. -/
theorem writeAndDrain_room (mem : Bool) (buf : List UInt8) (h : TtyWf tty)
    (hroom : tty.ttyOut.size + buf.length ≤ ptyBufSize) :
    ∃ tty', writeAndDrain mem tty buf = .ok tty' ∧ TtyWf tty' ∧ SameInput tty tty' ∧
      tty'.ttyOut.size = tty.ttyOut.size + if mem then 0 else buf.length := by
  obtain ⟨tty₁, hwrite, hwf₁, hsame₁, hsize₁⟩ := writeOutputs_room h hroom
  obtain ⟨tty₂, hdrain, hwf₂, hsame₂, hsize₂⟩ :=
    interruptOutput_spec hwf₁ mem (show buf.length ≤ tty₁.ttyOut.size by omega)
  refine ⟨tty₂, ?_, hwf₂, hsame₁.trans hsame₂, ?_⟩
  · rw [writeAndDrain, hwrite]
    exact hdrain
  · rw [hsize₂, hsize₁]
    cases mem <;> simp

theorem writeAndDrain_full (mem : Bool) {buf : List UInt8} (h : TtyWf tty)
    (hfull : ptyBufSize < tty.ttyOut.size + buf.length) :
    writeAndDrain mem tty buf = .error .blocks := by
  rw [writeAndDrain, writeOutputs_full h hfull]
  rfl

/-! ## Input -/

theorem nTtyFlush_spec (h : TtyWf tty) :
    ∃ tty', nTtyFlush tty = .ok tty' ∧ TtyWf tty' ∧ tty'.ttyOut = tty.ttyOut := by
  obtain ⟨rb, hw, hwf, hflags, -, -⟩ := ringBufferWrite_spec tty.lineEditing h.line h.lineFlags
  refine ⟨{ tty with lineBuffer := rb, lineEditing := [] }, by rw [nTtyFlush, hw], ?_, rfl⟩
  exact ⟨h.out, h.outFlags, h.outCapacity, hwf, by rw [hflags]; exact h.lineFlags, Nat.zero_le _,
    h.bytes⟩

theorem nTtyPush_room (h : TtyWf tty) (hroom : tty.lineEditing.length < lineEditingSize)
    (byte : UInt8) :
    ∃ tty', nTtyPush tty byte = .ok tty' ∧ TtyWf tty' ∧ tty'.ttyOut = tty.ttyOut := by
  have hpushed : TtyWf { tty with lineEditing := tty.lineEditing ++ [byte] } :=
    h.congr rfl rfl (by simpa using hroom) ⟨rfl, rfl⟩
  rw [nTtyPush, if_pos hroom]
  dsimp only
  split
  · exact nTtyFlush_spec hpushed
  · exact ⟨_, rfl, hpushed, rfl⟩

theorem nTtyPush_full (hfull : ¬ tty.lineEditing.length < lineEditingSize) (byte : UInt8) :
    nTtyPush tty byte = .error .outside := by
  rw [nTtyPush, if_neg hfull]

theorem TtyWf.dropLast (h : TtyWf tty) :
    TtyWf { tty with lineEditing := tty.lineEditing.dropLast } := by
  have hle := h.editing
  refine h.congr rfl rfl ?_ ⟨rfl, rfl⟩
  rw [List.length_dropLast]
  omega

theorem wordLength_concat (line : List UInt8) (c : UInt8) :
    wordLength (line ++ [c]) = if c = 0x20 then 1 else wordLength line + 1 := by
  unfold wordLength
  rw [List.reverse_append, List.reverse_singleton, List.singleton_append, List.takeWhile_cons,
    List.length_append, List.length_singleton]
  by_cases hblank : c = 0x20
  · simp [hblank]
  · rw [if_neg hblank, if_pos (by simpa using hblank), List.length_cons]
    omega

/-- What is still there after a loop of echoes: nothing more exactly if there
was memory for all of them. -/
def EchoesDrained (mem : Nat → Bool) (k n : Nat) (tty tty' : TtyDevice) : Prop :=
  tty.ttyOut.size ≤ tty'.ttyOut.size ∧
    (tty'.ttyOut.size = tty.ttyOut.size ↔ ∀ i < n, mem (k + i))

theorem EchoesDrained.succ {mem : Nat → Bool} {k n : Nat}
    (hfirst : tty'.ttyOut.size = tty.ttyOut.size + if mem k then 0 else 3)
    (hrest : EchoesDrained mem (k + 1) n tty' tty'') :
    EchoesDrained mem k (n + 1) tty tty'' := by
  obtain ⟨hle, hiff⟩ := hrest
  constructor
  · omega
  · constructor
    · intro heq
      have hmem : mem k = true := by
        by_contra hmem
        rw [if_neg hmem] at hfirst
        omega
      rw [if_pos hmem] at hfirst
      intro i hi
      rcases i with - | i
      · exact hmem
      · have hlater := hiff.mp (by omega) i (by omega)
        rwa [Nat.add_right_comm] at hlater
    · intro hall
      have hmem : mem k = true := hall 0 (Nat.succ_pos n)
      rw [if_pos hmem] at hfirst
      have hlater : ∀ i < n, mem (k + 1 + i) := by
        intro i hi
        rw [Nat.add_right_comm]
        exact hall (i + 1) (by omega)
      rw [hiff.mpr hlater, hfirst]
      rfl

theorem echoesDrained_zero (mem : Nat → Bool) (k : Nat) (h : tty'.ttyOut = tty.ttyOut) :
    EchoesDrained mem k 0 tty tty' :=
  ⟨by rw [h], iff_of_true (by rw [h]) fun _ hi => absurd hi (Nat.not_lt_zero _)⟩

theorem eraseWord_spec (mem : Nat → Bool) {n : Nat} (k : Nat) (h : TtyWf tty)
    (hn : tty.lineEditing.length = n) (hroom : tty.ttyOut.size + 3 * n ≤ ptyBufSize) :
    ∃ tty', eraseWord mem n k tty = .ok tty' ∧ TtyWf tty' ∧
      EchoesDrained mem k (wordLength tty.lineEditing) tty tty' := by
  induction n generalizing k tty with
  | zero =>
      refine ⟨tty, rfl, h, ?_⟩
      rw [List.eq_nil_of_length_eq_zero hn]
      exact echoesDrained_zero mem k rfl
  | succ n ih =>
      obtain ⟨line, c, hline⟩ : ∃ line c, tty.lineEditing = line ++ [c] := by
        have hne : tty.lineEditing ≠ [] := List.ne_nil_of_length_eq_add_one hn
        exact ⟨_, _, (List.dropLast_append_getLast hne).symm⟩
      have hbs : bsBlankBs.length = 3 := rfl
      obtain ⟨tty₁, hecho, hwf₁, ⟨-, hsame₁⟩, hsize₁⟩ :=
        writeAndDrain_room (mem k) bsBlankBs h (by omega)
      have hfirst : tty₁.ttyOut.size ≤ tty.ttyOut.size + 3 := by
        rw [hsize₁, hbs]
        split <;> omega
      rw [hbs] at hsize₁
      rw [hline] at hn hsame₁
      rw [List.length_append, List.length_singleton] at hn
      rw [eraseWord, nTtyOutput, hecho, hline, wordLength_concat]
      dsimp only [Except.bind]
      rw [hsame₁, List.getLast?_concat, List.dropLast_concat]
      by_cases hblank : c = 0x20
      · rw [if_pos (congrArg some hblank), if_pos hblank]
        have hdrop := hwf₁.dropLast
        rw [hsame₁, List.dropLast_concat] at hdrop
        exact ⟨_, rfl, hdrop, .succ hsize₁ (echoesDrained_zero mem (k + 1) rfl)⟩
      · rw [if_neg (fun heq => hblank (Option.some.inj heq)), if_neg hblank]
        have hdrop := hwf₁.dropLast
        rw [hsame₁, List.dropLast_concat] at hdrop
        obtain ⟨tty₂, hrest, hwf₂, hdrained⟩ :=
          ih (k + 1) hdrop (by dsimp only; omega) (by dsimp only; omega)
        exact ⟨tty₂, hrest, hwf₂, .succ hsize₁ hdrained⟩

theorem killLine_spec (mem : Nat → Bool) {n : Nat} (k : Nat) (h : TtyWf tty)
    (hroom : tty.ttyOut.size + 3 * n ≤ ptyBufSize) :
    ∃ tty', killLine mem n k tty = .ok tty' ∧ TtyWf tty' ∧ EchoesDrained mem k n tty tty' := by
  induction n generalizing k tty with
  | zero => exact ⟨tty, rfl, h, echoesDrained_zero mem k rfl⟩
  | succ n ih =>
      have hbs : bsBlankBs.length = 3 := rfl
      obtain ⟨tty₁, hecho, hwf₁, -, hsize₁⟩ :=
        writeAndDrain_room (mem k) bsBlankBs h.dropLast (show tty.ttyOut.size + 3 ≤ _ by omega)
      change tty₁.ttyOut.size = tty.ttyOut.size + _ at hsize₁
      have hfirst : tty₁.ttyOut.size ≤ tty.ttyOut.size + 3 := by
        rw [hsize₁, hbs]
        split <;> omega
      rw [hbs] at hsize₁
      obtain ⟨tty₂, hrest, hwf₂, hdrained⟩ := ih (k + 1) hwf₁ (by omega)
      refine ⟨tty₂, ?_, hwf₂, .succ hsize₁ hdrained⟩
      rw [killLine, nTtyOutput, hecho]
      exact hrest

theorem echoByte_spec (mem echoed : Bool) (byte : UInt8) (h : TtyWf tty)
    (hempty : tty.ttyOut.size = 0) :
    ∃ tty', echoByte mem echoed tty byte = .ok tty' ∧ TtyWf tty' ∧ SameInput tty tty' ∧
      (tty'.ttyOut.size = 0 ↔ (echoed → mem)) := by
  cases echoed with
  | false => exact ⟨tty, rfl, h, .refl tty, by simp [hempty]⟩
  | true =>
      have hone : tty.ttyOut.size + [byte].length ≤ ptyBufSize := by
        rw [hempty, List.length_singleton]
        decide
      obtain ⟨tty₁, hecho, hwf₁, hsame₁, hsize₁⟩ := writeAndDrain_room mem [byte] h hone
      refine ⟨tty₁, hecho, hwf₁, hsame₁, ?_⟩
      rw [hsize₁, hempty]
      cases mem <;> simp

/-! ## One operation -/

/-- The operation comes back with nothing left exactly if `ok`. -/
def Outcome (result : Option TtyDevice) (ok : Prop) : Prop :=
  (∃ tty', result = some tty' ∧ TtyWf tty' ∧ (tty'.ttyOut.size = 0 ↔ ok)) ∨ (result = none ∧ ¬ ok)

theorem Outcome.of_ok {result : Except TtyFault TtyDevice} {ok : Prop}
    (h : ∃ tty', result = .ok tty' ∧ TtyWf tty' ∧ (tty'.ttyOut.size = 0 ↔ ok)) :
    Outcome result.toOption ok := by
  obtain ⟨tty', rfl, hrest⟩ := h
  exact .inl ⟨tty', rfl, hrest⟩

/-- A write to an empty ring buffer. -/
theorem write_outcome (mem : Bool) (buf : List UInt8) (h : TtyWf tty)
    (hempty : tty.ttyOut.size = 0) :
    Outcome (writeAndDrain mem tty buf).toOption (buf.length ≤ ptyBufSize ∧ (mem ∨ buf = [])) := by
  by_cases hroom : buf.length ≤ ptyBufSize
  · obtain ⟨tty₁, hwrite, hwf₁, -, hsize₁⟩ := writeAndDrain_room mem buf h (by omega)
    refine .of_ok ⟨tty₁, hwrite, hwf₁, ?_⟩
    rw [hsize₁, hempty]
    cases mem <;> simp [hroom]
  · refine .inr ⟨?_, fun hok => hroom hok.1⟩
    rw [writeAndDrain_full mem h (by omega)]
    rfl

theorem push_outcome {next : TtyDevice → Except TtyFault TtyDevice} {echoed : Prop} (byte : UInt8)
    (h : TtyWf tty') (hsame : SameInput tty tty') (hecho : tty'.ttyOut.size = 0 ↔ echoed)
    (hnext : ∀ t, TtyWf t → ∃ t', next t = .ok t' ∧ TtyWf t' ∧ t'.ttyOut = t.ttyOut) :
    Outcome ((nTtyPush tty' byte).bind next).toOption
      (echoed ∧ tty.lineEditing.length < lineEditingSize) := by
  by_cases hroom : tty.lineEditing.length < lineEditingSize
  · obtain ⟨tty₁, hpush, hwf₁, hout₁⟩ := nTtyPush_room h (by rw [hsame.2]; exact hroom) byte
    obtain ⟨tty₂, hflush, hwf₂, hout₂⟩ := hnext tty₁ hwf₁
    refine .of_ok ⟨tty₂, ?_, hwf₂, ?_⟩
    · rw [hpush]
      exact hflush
    · rw [hout₂, hout₁, hecho]
      exact (and_iff_left hroom).symm
  · refine .inr ⟨?_, fun hok => hroom hok.2⟩
    rw [nTtyPush_full (by rw [hsame.2]; exact hroom) byte]
    rfl

theorem inputKind_endOfFile {tm : Termios} {line : List UInt8} {byte : UInt8}
    (h : inputKind tm line byte = .endOfFile) : line = [] := by
  unfold inputKind at h
  extract_lets byte₁ byte₂ byte₃ byte₄ at h
  clear_value byte₁ byte₂ byte₃ byte₄
  split_ifs at h with _ _ heof
  exact heof.2.2

/-- **A byte of input**, case by case. -/
theorem input_outcome (mem : Nat → Bool) (byte : UInt8) (h : TtyWf tty)
    (hempty : tty.ttyOut.size = 0) :
    Outcome (nTtyWriteInput mem tty byte).toOption (InputOk mem tty byte) := by
  have hline := h.editing
  have hroom : tty.ttyOut.size + 3 * tty.lineEditing.length ≤ ptyBufSize := by
    rw [lineEditingSize] at hline
    rw [ptyBufSize]
    omega
  unfold nTtyWriteInput InputOk
  cases hkind : inputKind tty.ttyTermios tty.lineEditing byte with
  | signal cc signum =>
      -- nobody fetches the echo
      refine .of_ok ?_
      unfold signalChar
      dsimp only
      by_cases hecho : tty.ttyTermios.local echoctl = true
      · rw [if_pos hecho]
        have hthree : tty.ttyOut.size + [0x5E, 0x40 + cc, 0x0A].length ≤ ptyBufSize := by
          rw [hempty, show [0x5E, 0x40 + cc, 0x0A].length = 3 from rfl]
          decide
        obtain ⟨tty₁, hwrite, hwf₁, -, hsize₁⟩ := writeOutputs_room h hthree
        rw [hwrite]
        refine ⟨_, rfl, hwf₁.congr rfl rfl hwf₁.editing ⟨rfl, rfl⟩, ?_⟩
        dsimp only
        rw [hsize₁, hecho]
        simp
      · rw [if_neg hecho]
        refine ⟨_, rfl, h.congr rfl rfl h.editing ⟨rfl, rfl⟩, ?_⟩
        exact iff_of_true hempty (Bool.eq_false_iff.mpr hecho)
  | endOfFile =>
      -- the line is empty, so that there is room
      have hnil := inputKind_endOfFile hkind
      have hclosed : TtyWf { tty with ttyState := .closed } := h.congr rfl rfl hline ⟨rfl, rfl⟩
      have hpush := push_outcome 0x0A hclosed (.refl _) (iff_of_true hempty trivial)
        fun t ht => nTtyFlush_spec ht
      rwa [iff_true_intro (show tty.lineEditing.length < lineEditingSize by rw [hnil]; decide),
        and_self] at hpush
  | ignored => exact .of_ok ⟨tty, rfl, h, iff_of_true hempty trivial⟩
  | erase =>
      dsimp only
      by_cases hnil : tty.lineEditing = []
      · rw [if_pos hnil]
        exact .of_ok ⟨tty, rfl, h, iff_of_true hempty (.inl hnil)⟩
      · rw [if_neg hnil]
        obtain ⟨tty₁, hecho, hwf₁, -, hsize₁⟩ :=
          writeAndDrain_room (mem 0) bsBlankBs h.dropLast (by dsimp only; rw [hempty]; decide)
        refine .of_ok ⟨tty₁, hecho, hwf₁, ?_⟩
        dsimp only at hsize₁
        rw [hsize₁, hempty]
        cases mem 0 <;> simp [hnil, bsBlankBs]
  | eraseWord =>
      obtain ⟨tty₁, herase, hwf₁, -, hdrained⟩ := eraseWord_spec mem 0 h rfl hroom
      refine .of_ok ⟨tty₁, herase, hwf₁, ?_⟩
      simpa [hempty] using hdrained
  | kill =>
      obtain ⟨tty₁, hkill, hwf₁, -, hdrained⟩ := killLine_spec mem 0 h hroom
      refine .of_ok ⟨tty₁, hkill, hwf₁, ?_⟩
      simpa [hempty] using hdrained
  | char byte =>
      obtain ⟨tty₁, hecho, hwf₁, hsame₁, hsize₁⟩ :=
        echoByte_spec (mem 0) (echoesChar tty.ttyTermios) byte h hempty
      dsimp only
      rw [hecho]
      have hpush : Outcome ((nTtyPush tty₁ byte).bind .ok).toOption _ :=
        push_outcome byte hwf₁ hsame₁ hsize₁ fun t ht => ⟨t, rfl, ht, rfl⟩
      have hbind : (nTtyPush tty₁ byte).bind .ok = nTtyPush tty₁ byte := by
        cases nTtyPush tty₁ byte <;> rfl
      rwa [hbind] at hpush
  | newline =>
      obtain ⟨tty₁, hecho, hwf₁, hsame₁, hsize₁⟩ :=
        echoByte_spec (mem 0) (echoesNewline tty.ttyTermios) 0x0A h hempty
      dsimp only
      rw [hecho]
      exact push_outcome 0x0A hwf₁ hsame₁ hsize₁ fun t ht => nTtyFlush_spec ht

theorem op_outcome (h : TtyWf tty) (hempty : tty.ttyOut.size = 0) (op : TtyOp) :
    Outcome (ttyStep tty op) (OpOk tty op) := by
  have hfst : ∀ (r : Except TtyFault TtyDevice) (n : Nat),
      (r.map fun tty => (tty, n)).map Prod.fst = r := by
    rintro (fault | tty) n <;> rfl
  have hstays : ∀ {tty' : TtyDevice}, TtyWf tty' → tty'.ttyOut.size = 0 →
      Outcome (some tty') True := fun hwf hsize => .inl ⟨_, rfl, hwf, iff_of_true hsize trivial⟩
  cases op with
  | fwrite mem buf =>
      rw [ttyStep, ttyFwrite, hfst]
      exact write_outcome mem buf h hempty
  | cttyWrite mem buf =>
      rw [ttyStep, cttyFileWrite, hfst]
      exact write_outcome mem buf h hempty
  | input mem byte => exact input_outcome mem byte h hempty
  | tcsets tm => exact hstays (h.congr rfl rfl h.editing ⟨rfl, rfl⟩) hempty
  | tiocspgrp pgid => exact hstays (h.congr rfl rfl h.editing ⟨rfl, rfl⟩) hempty
  | suspend mem =>
      obtain ⟨tty₁, hdrain, hwf₁, -, hsize₁⟩ := interruptOutput_spec h mem le_rfl
      refine .of_ok ⟨tty₁, hdrain, hwf₁, iff_of_true ?_ trivial⟩
      omega
  | exit =>
      obtain ⟨hwf, hflags, hcap, hcon⟩ := ringBufferFlush_spec h.out
      have hnone := (contents_nil_iff tty).mpr hempty
      refine hstays ⟨hwf, hflags.trans h.outFlags, hcap.trans h.outCapacity, h.line, h.lineFlags,
        h.editing, ?_⟩ rfl
      -- nothing is lost, since nothing was there
      have hbytes := h.bytes
      rw [hnone] at hbytes
      exact hbytes.trans (congrArg (tty.device ++ ·) hcon.symm)

/-! ## All operations -/

/-- Between the operations the output is done. -/
def TtyQuiet (tty : TtyDevice) : Prop := TtyWf tty ∧ tty.ttyOut.size = 0

theorem outputDone_iff (h : TtyWf tty) : OutputDone tty ↔ tty.ttyOut.size = 0 := by
  constructor
  · exact fun hdone => (contents_nil_iff tty).mp hdone.1
  · intro hsize
    have hnone := (contents_nil_iff tty).mpr hsize
    refine ⟨hnone, ?_⟩
    rw [h.bytes, hnone, List.append_nil]

/-- **One operation** on a quiet terminal. -/
theorem progresses_iff (h : TtyQuiet tty) (op : TtyOp) : Progresses tty op ↔ OpOk tty op := by
  rcases op_outcome h.1 h.2 op with ⟨tty', hstep, hwf, hiff⟩ | ⟨hstep, hnot⟩
  · constructor
    · rintro ⟨tty'', hstep', hdone⟩
      obtain rfl := Option.some.inj (hstep.symm.trans hstep')
      exact hiff.mp ((outputDone_iff hwf).mp hdone)
    · exact fun hok => ⟨tty', hstep, (outputDone_iff hwf).mpr (hiff.mpr hok)⟩
  · refine iff_of_false ?_ hnot
    rintro ⟨tty'', hstep', -⟩
    rw [hstep] at hstep'
    cases hstep'

theorem progresses_quiet (h : TtyQuiet tty) {op : TtyOp} (hprog : Progresses tty op)
    (hstep : ttyStep tty op = some tty') : TtyQuiet tty' := by
  obtain ⟨tty₁, hstep₁, hdone⟩ := hprog
  obtain rfl := Option.some.inj (hstep₁.symm.trans hstep)
  rcases op_outcome h.1 h.2 op with ⟨tty₂, hstep₂, hwf, -⟩ | ⟨hnone, -⟩
  · obtain rfl := Option.some.inj (hstep₁.symm.trans hstep₂)
    exact ⟨hwf, (outputDone_iff hwf).mp hdone⟩
  · rw [hstep₁] at hnone
    cases hnone

end Levos.Dev
