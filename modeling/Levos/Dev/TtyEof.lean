import Levos.Dev.TtyInput

/-!
# End of file on a terminal

`VEOF` on an empty line closes the terminal for one read, and also puts a
newline into the line buffer; on a line that is not empty it is a carriage
return. `veof_iff` says when it comes out right all the same: the newline must
find no room.

The terminal stays in canonical mode here.
-/

namespace Levos.Dev

open Levos.Base Levos.Lib

/-! ## What is said of `VEOF` -/

/-- Settings are changed for others of canonical mode only. -/
def canonicalOp : InputOp → Bool
  | .tcsets tm => tm.local icanon
  | _ => true

def canonicalStep (s : TtySystem) (op : InputOp) : Option TtySystem :=
  if canonicalOp op then inputStep s op else none

/-- The byte gets to the test for `VEOF`, and is one. -/
def typesVeof (tty : TtyDevice) (byte : UInt8) : Bool :=
  byte = tty.ttyTermios.cCc vEof ∧ ¬(tty.ttyTermios.local isig ∧
    (byte = tty.ttyTermios.cCc vIntr ∨ byte = tty.ttyTermios.cCc vQuit))

/-- `VEOF` makes the line ready to be read and adds nothing; on an empty line
that is to say that it adds nothing. -/
def EofAddsNothing (s : TtySystem) : InputOp → Prop
  | .input mem byte => typesVeof s.tty byte → ∃ tty, nTtyWriteInput mem s.tty byte = .ok tty ∧
      tty.view.ready = s.tty.view.ready ++ s.tty.view.line ∧ tty.view.line = []
  | _ => True

/-- Every `VEOF` on an empty line has made one read return 0, but for the one
that the next read answers. -/
def EofsAnswered (s : TtySystem) : Prop :=
  s.zeros + (if s.tty.view.state = .closed then 1 else 0) = s.eofs

/-- `VEOF` comes on an empty line when the line buffer is full and none waits to
be answered, or it ends a line that fills the line buffer to the last byte; and
no read that waits is let go without bytes. -/
def EofFits (s : TtySystem) : InputOp → Prop
  | .input _ byte => typesVeof s.tty byte →
      if s.tty.view.line = [] then
        s.tty.view.ready.length = ptyBufSize ∧ s.tty.view.state ≠ .closed
      else
        inputKind s.tty.ttyTermios s.tty.view.line byte = .newline ∧
          s.tty.view.line.length < lineEditingSize ∧
          s.tty.view.ready.length + s.tty.view.line.length = ptyBufSize ∧
          ¬EchoWaits (echoesNewline s.tty.ttyTermios) s.tty
  | .wake len =>
      len ∈ s.waiting → s.tty.view.state = .closed → len ≠ 0 → s.tty.view.ready ≠ []
  | _ => True

/-! ## What a byte does in canonical mode -/

variable {tm : Termios} {v : InputView} {byte : UInt8}

theorem inputKind_eof_iff (hcanon : tm.local icanon = true) (line : List UInt8) :
    inputKind tm line byte = .endOfFile ↔
      (byte = tm.cCc vEof ∧ ¬(tm.local isig ∧ (byte = tm.cCc vIntr ∨ byte = tm.cCc vQuit))) ∧
        line = [] := by
  unfold inputKind
  by_cases hintr : tm.local isig ∧ byte = tm.cCc vIntr
  · rw [if_pos hintr]
    exact iff_of_false (fun h => by cases h) fun h => h.1.2 ⟨hintr.1, .inl hintr.2⟩
  · rw [if_neg hintr]
    by_cases hquit : tm.local isig ∧ byte = tm.cCc vQuit
    · rw [if_pos hquit]
      exact iff_of_false (fun h => by cases h) fun h => h.1.2 ⟨hquit.1, .inr hquit.2⟩
    · rw [if_neg hquit]
      by_cases heof : tm.local icanon ∧ byte = tm.cCc vEof ∧ line = []
      · rw [if_pos heof]
        refine iff_of_true rfl ⟨⟨heof.2.1, ?_⟩, heof.2.2⟩
        rintro ⟨hsig, hb | hb⟩
        · exact hintr ⟨hsig, hb⟩
        · exact hquit ⟨hsig, hb⟩
      · rw [if_neg heof]
        refine iff_of_false ?_ fun h => heof ⟨hcanon, h.1.1, h.2⟩
        extract_lets byte₁ byte₂ byte₃ byte₄
        clear_value byte₁ byte₂ byte₃ byte₄
        split_ifs <;> exact fun h => by cases h

theorem typesEof_iff {tty : TtyDevice} (hcanon : tty.ttyTermios.local icanon = true) :
    typesEof tty byte = true ↔ typesVeof tty byte = true ∧ tty.view.line = [] := by
  rw [typesEof, typesVeof, decide_eq_true_eq, decide_eq_true_eq]
  exact inputKind_eof_iff hcanon tty.lineEditing

/-- Bytes other than `VEOF` on an empty line leave the state alone. -/
theorem InputView.input_state (h : inputKind tm v.line byte ≠ .endOfFile) :
    (v.input tm byte).state = v.state := by
  unfold InputView.input
  cases hkind : inputKind tm v.line byte <;> simp only []
  case endOfFile => exact (h hkind).elim
  case char c =>
    unfold InputView.push
    split <;> rfl
  case newline =>
    unfold InputView.push
    split <;> rfl

/-- In canonical mode only the end of a line makes bytes ready. -/
theorem InputView.input_ready (hcanon : tm.local icanon = true)
    (hline : inputKind tm v.line byte ≠ .newline) (heof : inputKind tm v.line byte ≠ .endOfFile) :
    (v.input tm byte).ready = v.ready := by
  unfold InputView.input
  cases hkind : inputKind tm v.line byte <;> simp only []
  case endOfFile => exact (heof hkind).elim
  case newline => exact (hline hkind).elim
  case char c =>
    unfold InputView.push
    rw [if_pos hcanon]

theorem InputView.input_newline (hcanon : tm.local icanon = true)
    (hkind : inputKind tm v.line byte = .newline) :
    v.input tm byte = { v with
      line := [], ready := v.ready ++ fifoAccepted ptyBufSize v.ready (v.line ++ [0x0A]) } := by
  unfold InputView.input
  rw [hkind]
  dsimp only [InputView.push]
  rw [if_pos hcanon]
  rfl

theorem InputView.input_eof (hcanon : tm.local icanon = true)
    (hkind : inputKind tm v.line byte = .endOfFile) :
    v.input tm byte = ⟨[], v.ready ++ fifoAccepted ptyBufSize v.ready [0x0A], .closed⟩ := by
  unfold InputView.input
  rw [hkind, inputKind_endOfFile hkind]
  dsimp only [InputView.push]
  rw [if_pos hcanon]
  rfl

/-- Exactly the line is accepted, and not the newline behind it, if it fills
what room there is. -/
theorem fifoAccepted_line_iff {q : List UInt8} (hq : q.length ≤ ptyBufSize) (line : List UInt8) :
    fifoAccepted ptyBufSize q (line ++ [0x0A]) = line ↔ q.length + line.length = ptyBufSize := by
  rw [fifoAccepted]
  constructor
  · intro heq
    have hlength := congrArg List.length heq
    rw [List.length_take, List.length_append, List.length_singleton] at hlength
    omega
  · intro heq
    rw [List.length_append, List.length_singleton,
      show min (line.length + 1) (ptyBufSize - q.length) = line.length by omega,
      List.take_left]

/-! ## Where the newline comes through -/

variable {tty : TtyDevice} {mem : Nat → Bool}

theorem nTtyWriteInput_eof_ok (mem : Nat → Bool) (h : InputWf tty)
    (hkind : inputKind tty.ttyTermios tty.lineEditing byte = .endOfFile) :
    ∃ tty', nTtyWriteInput mem tty byte = .ok tty' := by
  unfold nTtyWriteInput
  rw [hkind]
  exact eof_pushes h hkind

theorem nTtyWriteInput_newline_iff (mem : Nat → Bool) (h : InputWf tty)
    (hkind : inputKind tty.ttyTermios tty.lineEditing byte = .newline) :
    (∃ tty', nTtyWriteInput mem tty byte = .ok tty') ↔
      tty.lineEditing.length < lineEditingSize ∧
        ¬EchoWaits (echoesNewline tty.ttyTermios) tty := by
  unfold nTtyWriteInput
  rw [hkind]
  dsimp only
  rcases echoByte_cases (mem 0) (echoesNewline tty.ttyTermios) 0x0A h with
    ⟨hgo, t, ht, hechoed⟩ | ⟨hwait, herror⟩
  · rw [ht, and_iff_left hgo, ← hechoed.editing]
    dsimp only [Except.bind]
    by_cases hroom : t.lineEditing.length < lineEditingSize
    · exact iff_of_true (pushFlush_room hechoed.wf hroom 0x0A) hroom
    · rw [nTtyPush_full hroom]
      refine iff_of_false ?_ hroom
      rintro ⟨_, hok⟩
      cases hok
  · rw [herror]
    refine iff_of_false ?_ fun hgo => hgo.2 hwait
    rintro ⟨_, hok⟩
    cases hok

/-! ## A step of the run -/

variable {s s' : TtySystem}

theorem ready_length_le (h : InputWf tty) : tty.view.ready.length ≤ ptyBufSize := by
  rw [TtyDevice.view, ringContents_length, ← h.lineCapacity]
  exact h.line.size_le

/-- On an empty line nothing is added if the line buffer is full. -/
theorem eof_empty_iff (mem : Nat → Bool) (h : InputWf tty)
    (hcanon : tty.ttyTermios.local icanon = true) (hveof : typesVeof tty byte)
    (hempty : tty.view.line = []) :
    (∃ tty', nTtyWriteInput mem tty byte = .ok tty' ∧
      tty'.view.ready = tty.view.ready ++ tty.view.line ∧ tty'.view.line = []) ↔
      tty.view.ready.length = ptyBufSize := by
  have hkind : inputKind tty.ttyTermios tty.view.line byte = .endOfFile :=
    (inputKind_eof_iff hcanon _).mpr ⟨of_decide_eq_true hveof, hempty⟩
  obtain ⟨t, ht⟩ := nTtyWriteInput_eof_ok mem h hkind
  have hview : t.view =
      ⟨[], tty.view.ready ++ fifoAccepted ptyBufSize tty.view.ready [0x0A], .closed⟩ :=
    (nTtyWriteInput_ok h ht).view.trans (InputView.input_eof hcanon hkind)
  have haccepted := fifoAccepted_line_iff (ready_length_le h) []
  rw [List.nil_append, List.length_nil, Nat.add_zero] at haccepted
  rw [← haccepted, hempty]
  constructor
  · rintro ⟨t', ht', hready, -⟩
    obtain rfl := Except.ok.inj (ht.symm.trans ht')
    rw [hview] at hready
    exact List.append_cancel_left hready
  · intro hnone
    exact ⟨t, ht, by rw [hview, hnone], by rw [hview]⟩

/-- On a line that is not empty nothing is added if the line ends and fills the
line buffer to the last byte. -/
theorem eof_line_iff (mem : Nat → Bool) (byte : UInt8) (h : InputWf tty)
    (hcanon : tty.ttyTermios.local icanon = true) (hline : tty.view.line ≠ []) :
    (∃ tty', nTtyWriteInput mem tty byte = .ok tty' ∧
      tty'.view.ready = tty.view.ready ++ tty.view.line ∧ tty'.view.line = []) ↔
      inputKind tty.ttyTermios tty.view.line byte = .newline ∧
        tty.view.line.length < lineEditingSize ∧
        tty.view.ready.length + tty.view.line.length = ptyBufSize ∧
        ¬EchoWaits (echoesNewline tty.ttyTermios) tty := by
  by_cases hkind : inputKind tty.ttyTermios tty.view.line byte = .newline
  · have hview : ∀ t, nTtyWriteInput mem tty byte = .ok t → t.view = { tty.view with
        line := []
        ready := tty.view.ready ++
          fifoAccepted ptyBufSize tty.view.ready (tty.view.line ++ [0x0A]) } :=
      fun t ht => (nTtyWriteInput_ok h ht).view.trans (InputView.input_newline hcanon hkind)
    have hok := nTtyWriteInput_newline_iff mem h hkind
    have haccepted := fifoAccepted_line_iff (ready_length_le h) tty.view.line
    constructor
    · rintro ⟨t, ht, hready, -⟩
      obtain ⟨hroom, hgo⟩ := hok.mp ⟨t, ht⟩
      rw [hview t ht] at hready
      exact ⟨hkind, hroom, haccepted.mp (List.append_cancel_left hready), hgo⟩
    · rintro ⟨-, hroom, hfills, hgo⟩
      obtain ⟨t, ht⟩ := hok.mpr ⟨hroom, hgo⟩
      exact ⟨t, ht, by rw [hview t ht, haccepted.mpr hfills], by rw [hview t ht]⟩
  · refine iff_of_false ?_ fun hfits => hkind hfits.1
    rintro ⟨t, ht, hready, -⟩
    have heof : inputKind tty.ttyTermios tty.view.line byte ≠ .endOfFile :=
      fun heq => hline (inputKind_endOfFile heq)
    rw [(nTtyWriteInput_ok h ht).view, InputView.input_ready hcanon hkind heof] at hready
    exact hline (List.self_eq_append_right.mp hready)

/-- What the run is known by as long as `VEOF` comes out right. -/
structure EofRight (s : TtySystem) : Prop where
  wf : InputWf s.tty
  canonical : s.tty.ttyTermios.local icanon = true
  answered : EofsAnswered s

theorem canonicalStep_some {op : InputOp} (hstep : canonicalStep s op = some s') :
    canonicalOp op ∧ inputStep s op = some s' := by
  rw [canonicalStep] at hstep
  split at hstep
  case isTrue hop => exact ⟨hop, hstep⟩
  case isFalse => cases hstep

theorem canonicalStep_of {op : InputOp} (hop : canonicalOp op) :
    canonicalStep s op = inputStep s op := if_pos hop

/-- A byte leaves the terminal in canonical mode, and every `VEOF` answered if it
is not a second one. -/
theorem inputStep_answered (h : EofRight s) (hstep : inputStep s (.input mem byte) = some s') :
    s'.tty.ttyTermios.local icanon = true ∧
      (EofsAnswered s' ↔ (typesEof s.tty byte → s.tty.view.state ≠ .closed)) := by
  obtain ⟨tty, hok, rfl⟩ := inputStep_input hstep
  have hbecomes := nTtyWriteInput_ok h.wf hok
  have hanswered := h.answered
  refine ⟨by rw [hbecomes.termios]; exact h.canonical, ?_⟩
  unfold EofsAnswered at hanswered ⊢
  dsimp only
  by_cases heof : typesEof s.tty byte
  · have hkind : inputKind s.tty.ttyTermios s.tty.view.line byte = .endOfFile :=
      of_decide_eq_true heof
    rw [if_pos heof, hbecomes.view, InputView.input_eof h.canonical hkind, if_pos rfl]
    by_cases hclosed : s.tty.view.state = .closed
    · rw [if_pos hclosed] at hanswered
      exact iff_of_false (by omega) fun hopen => hopen heof hclosed
    · rw [if_neg hclosed] at hanswered
      exact iff_of_true (by omega) fun _ => hclosed
  · have hkind : inputKind s.tty.ttyTermios s.tty.view.line byte ≠ .endOfFile :=
      fun hkind => heof (decide_eq_true hkind)
    rw [if_neg heof, hbecomes.view, InputView.input_state hkind]
    exact iff_of_true hanswered fun h' => (heof h').elim

/-- A read that comes back leaves every `VEOF` answered if it is given bytes, or
wants none, or the terminal is open. -/
theorem inputStep_wake_answered {len : Nat} (h : EofRight s)
    (hstep : inputStep s (.wake len) = some s') :
    s'.tty.ttyTermios.local icanon = true ∧
      (EofsAnswered s' ↔ (s.tty.view.state = .closed → len ≠ 0 → s.tty.view.ready ≠ [])) := by
  obtain ⟨-, hready, tty, hbecomes, rfl⟩ := inputStep_wake h.wf hstep
  have hanswered := h.answered
  refine ⟨by rw [hbecomes.termios]; exact h.canonical, ?_⟩
  unfold EofsAnswered at hanswered ⊢
  rw [hbecomes.view]
  dsimp only
  by_cases hnone : s.tty.view.ready.take len = [] ∧ len ≠ 0
  · have hempty := (List.take_eq_nil_iff.mp hnone.1).resolve_left hnone.2
    have hclosed := hready.resolve_right fun hne => hne hempty
    rw [if_pos hnone]
    exact iff_of_false (by omega) fun hgiven => hgiven hclosed hnone.2 hempty
  · rw [if_neg hnone]
    exact iff_of_true hanswered fun _ hlen hempty => hnone ⟨by rw [hempty, List.take_nil], hlen⟩

/-- The other steps leave the terminal in canonical mode and every `VEOF`
answered. -/
theorem canonicalStep_answered {op : InputOp} (h : EofRight s)
    (hstep : canonicalStep s op = some s') (hinput : ∀ mem byte, op ≠ .input mem byte)
    (hwake : ∀ len, op ≠ .wake len) :
    s'.tty.ttyTermios.local icanon = true ∧ EofsAnswered s' := by
  obtain ⟨hop, hstep⟩ := canonicalStep_some hstep
  cases op with
  | input mem byte => exact (hinput mem byte rfl).elim
  | wake len => exact (hwake len rfl).elim
  | tcsets tm =>
      obtain rfl := Option.some.inj hstep
      exact ⟨hop, h.answered⟩
  | fwrite mem buf =>
      obtain ⟨tty, hechoed, rfl⟩ := inputStep_fwrite h.wf hstep
      refine ⟨by rw [hechoed.termios]; exact h.canonical, ?_⟩
      unfold EofsAnswered
      rw [hechoed.view]
      exact h.answered
  | fread len =>
      rw [inputStep] at hstep
      split at hstep
      case isTrue hclosed =>
        obtain rfl := Option.some.inj hstep
        have hanswered := h.answered
        unfold EofsAnswered at hanswered
        rw [if_pos (show s.tty.view.state = .closed from hclosed)] at hanswered
        exact ⟨h.canonical, hanswered⟩
      case isFalse =>
        obtain rfl := Option.some.inj hstep
        exact ⟨h.canonical, h.answered⟩
  | cttyRead len =>
      obtain rfl := Option.some.inj hstep
      exact ⟨h.canonical, h.answered⟩

/-! ## When `VEOF` comes out right -/

/-- `VEOF` adds nothing if it fits; on an empty line the terminal must be open
for it to be answered. -/
theorem eofFits_input_iff (mem : Nat → Bool) (h : EofRight s) :
    EofFits s (.input mem byte) ↔
      EofAddsNothing s (.input mem byte) ∧
        (typesEof s.tty byte → s.tty.view.state ≠ .closed) := by
  unfold EofFits EofAddsNothing
  dsimp only
  by_cases hveof : typesVeof s.tty byte
  · rw [typesEof_iff h.canonical]
    by_cases hline : s.tty.view.line = []
    · have hiff := eof_empty_iff mem h.wf h.canonical hveof hline
      rw [if_pos hline]
      exact ⟨fun hfits => ⟨fun hv => hiff.mpr (hfits hv).1, fun _ => (hfits hveof).2⟩,
        fun hright hv => ⟨hiff.mp (hright.1 hv), hright.2 ⟨hv, hline⟩⟩⟩
    · have hiff := eof_line_iff mem byte h.wf h.canonical hline
      rw [if_neg hline]
      exact ⟨fun hfits => ⟨fun hv => hiff.mpr (hfits hv), fun heof => (hline heof.2).elim⟩,
        fun hright hv => hiff.mp (hright.1 hv)⟩
  · refine iff_of_true (fun hv => (hveof hv).elim) ⟨fun hv => (hveof hv).elim, fun heof => ?_⟩
    exact (hveof ((typesEof_iff h.canonical).mp heof).1).elim

/-- A step that fits adds nothing and leaves every `VEOF` answered. -/
theorem EofRight.step {op : InputOp} (h : EofRight s) (hfits : EofFits s op) :
    EofAddsNothing s op ∧ ∀ s', canonicalStep s op = some s' → EofRight s' := by
  cases op with
  | input mem byte =>
      obtain ⟨hadds, hopen⟩ := (eofFits_input_iff mem h).mp hfits
      refine ⟨hadds, fun s' hs' => ?_⟩
      have hstep := (canonicalStep_some hs').2
      obtain ⟨hcanon, hanswered⟩ := inputStep_answered h hstep
      exact ⟨inputStep_wf h.wf hstep, hcanon, hanswered.mpr hopen⟩
  | wake len =>
      refine ⟨trivial, fun s' hs' => ?_⟩
      have hstep := (canonicalStep_some hs').2
      obtain ⟨hcanon, hanswered⟩ := inputStep_wake_answered h hstep
      obtain ⟨hmem, -, -⟩ := inputStep_wake h.wf hstep
      exact ⟨inputStep_wf h.wf hstep, hcanon, hanswered.mpr (hfits hmem)⟩
  | tcsets tm | fwrite mem buf | fread len | cttyRead len =>
      refine ⟨trivial, fun s' hs' => ?_⟩
      obtain ⟨hcanon, hanswered⟩ := canonicalStep_answered h hs' (fun _ _ hop => by cases hop)
        (fun _ hop => by cases hop)
      exact ⟨inputStep_wf h.wf (canonicalStep_some hs').2, hcanon, hanswered⟩

/-- A step that adds nothing and leaves every `VEOF` answered fits. -/
theorem EofRight.fits {op : InputOp} (h : EofRight s) (hadds : EofAddsNothing s op)
    (hnext : ∀ s', canonicalStep s op = some s' → EofsAnswered s') : EofFits s op := by
  cases op with
  | input mem byte =>
      refine (eofFits_input_iff mem h).mpr ⟨hadds, fun heof => ?_⟩
      obtain ⟨tty, htty⟩ := nTtyWriteInput_eof_ok mem h.wf (of_decide_eq_true heof)
      have hstep : inputStep s (.input mem byte) = some { s with
          tty, eofs := s.eofs + if typesEof s.tty byte then 1 else 0 } := by
        rw [inputStep, htty]
        rfl
      exact (inputStep_answered h hstep).2.mp (hnext _ (by rw [canonicalStep_of rfl, hstep])) heof
  | wake len =>
      intro hmem hclosed
      rcases nTtyReadBuf_spec h.wf len with ⟨hopen, -, -⟩ | ⟨-, tty, htty, -⟩
      · exact (hopen hclosed).elim
      · have hstep : ∃ s', inputStep s (.wake len) = some s' := by
          rw [inputStep, if_pos hmem, htty]
          exact ⟨_, rfl⟩
        obtain ⟨s', hstep⟩ := hstep
        have hanswered := hnext s' (by rw [canonicalStep_of rfl, hstep])
        exact (inputStep_wake_answered h hstep).2.mp hanswered hclosed
  | tcsets tm | fwrite mem buf | fread len | cttyRead len => trivial

end Levos.Dev
