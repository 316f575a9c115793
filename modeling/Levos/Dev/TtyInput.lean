import Mathlib.Data.List.DropRight
import Levos.Dev.TtyOutput

/-!
# Input of a terminal

The other half of a terminal: the bytes that are typed, the line they edit, and
the programs that read. A read first looks at `tty_state` (the read of `/dev/tty`
does not), and then waits in `n_tty_read_buf` until there is something in the
line buffer or the terminal is closed.

An echo changes nothing of the input side, so that a byte of input does to line
and line buffer what `InputView.input` says. `lineEditing_bound_iff` says when
the line keeps its bound.
-/

namespace Levos.Dev

open Levos.Base Levos.Lib

/-! ## The system -/

/-- `n_tty_read_buf`, and the bytes it returns; `none` while it waits. -/
def nTtyReadBuf (tty : TtyDevice) (len : Nat) : Option (TtyDevice × List UInt8) :=
  if tty.ttyState ≠ .closed ∧ ringBufferSize tty.lineBuffer = 0 then none
  else
    (ringBufferRead tty.lineBuffer len).map fun r =>
      ({ tty with lineBuffer := r.1 }, r.2.1.take r.2.2)

/-- A terminal with the reads that wait in `n_tty_read_buf`, by their lengths.
Beside it: the bytes that reads have returned, how many returned 0 for want of
bytes, and how often `VEOF` was typed on an empty line. -/
structure TtySystem where
  tty : TtyDevice
  waiting : List Nat
  given : List UInt8
  zeros : Nat
  eofs : Nat

/-- What happens to a terminal. A read begins (`fread`, or `cttyRead` for
`/dev/tty`) and later comes back (`wake`). -/
inductive InputOp : Type where
  | input (mem : Nat → Bool) (byte : UInt8)
  | tcsets (tm : Termios)
  | fwrite (mem : Bool) (buf : List UInt8)
  | fread (len : Nat)
  | cttyRead (len : Nat)
  | wake (len : Nat)

/-- The byte is `VEOF` on an empty line. -/
def typesEof (tty : TtyDevice) (byte : UInt8) : Bool :=
  inputKind tty.ttyTermios tty.lineEditing byte = .endOfFile

def inputStep (s : TtySystem) : InputOp → Option TtySystem
  | .input mem byte =>
      (nTtyWriteInput mem s.tty byte).toOption.map fun tty =>
        { s with tty, eofs := s.eofs + if typesEof s.tty byte then 1 else 0 }
  | .tcsets tm => some { s with tty := { s.tty with ttyTermios := tm } }
  | .fwrite mem buf =>
      (ttyFwrite mem s.tty buf).toOption.map fun r => { s with tty := r.1 }
  | .fread len =>
      -- `tty_fread`
      if s.tty.ttyState = .closed then
        some { s with tty := { s.tty with ttyState := .unknown }, zeros := s.zeros + 1 }
      else some { s with waiting := len :: s.waiting }
  | .cttyRead len => some { s with waiting := len :: s.waiting }
  | .wake len =>
      if len ∈ s.waiting then
        (nTtyReadBuf s.tty len).map fun r =>
          { s with
            tty := r.1
            waiting := s.waiting.erase len
            given := s.given ++ r.2
            zeros := s.zeros + if r.2 = [] ∧ len ≠ 0 then 1 else 0 }
      else none

/-- A new terminal that nobody reads yet. -/
def systemNew (rb rb' : RingBuffer) (fg : Int) (mem mem' : List.Vector UInt8 ptyBufSize) :
    TtySystem where
  tty := ttyNew rb rb' fg mem mem'
  waiting := []
  given := []
  zeros := 0
  eofs := 0

/-! ## What a byte does to the line -/

/-- The input side of a terminal: the line being edited, the bytes that can be
read, and `tty_state`. -/
structure InputView where
  line : List UInt8
  ready : List UInt8
  state : TtyState
deriving DecidableEq

def TtyDevice.view (tty : TtyDevice) : InputView :=
  ⟨tty.lineEditing, ringContents tty.lineBuffer, tty.ttyState⟩

/-- The line without its last word and the blank before it. -/
def dropWord (line : List UInt8) : List UInt8 := (line.rdropWhile (· ≠ 0x20)).dropLast

/-- The line buffer takes what it has room for. -/
def InputView.flush (v : InputView) : InputView :=
  { v with line := [], ready := v.ready ++ fifoAccepted ptyBufSize v.ready v.line }

def InputView.push (tm : Termios) (v : InputView) (byte : UInt8) : InputView :=
  let v := { v with line := v.line ++ [byte] }
  if tm.local icanon then v else v.flush

/-- What a byte of input does. -/
def InputView.input (tm : Termios) (v : InputView) (byte : UInt8) : InputView :=
  match inputKind tm v.line byte with
  | .signal _ _ => v
  | .endOfFile => (InputView.push tm { v with state := .closed } 0x0A).flush
  | .ignored => v
  | .erase => { v with line := v.line.dropLast }
  | .eraseWord => { v with line := dropWord v.line }
  | .kill => { v with line := [] }
  | .char byte => v.push tm byte
  | .newline => (v.push tm 0x0A).flush

theorem dropWord_concat (line : List UInt8) (c : UInt8) :
    dropWord (line ++ [c]) = if c = 0x20 then line else dropWord line := by
  rw [dropWord, List.rdropWhile_concat]
  by_cases hblank : c = 0x20
  · simp [hblank]
  · simp [hblank, dropWord]

/-! ## The terminal keeps its form -/

/-- The terminal with its line buffer as `n_tty_init` made it. -/
structure InputWf (tty : TtyDevice) : Prop extends TtyWf tty where
  lineCapacity : tty.lineBuffer.capacity = ptyBufSize

variable {tty tty' tty'' : TtyDevice}

theorem ttyNew_inputWf (rb rb' : RingBuffer) (fg : Int) (mem mem' : List.Vector UInt8 ptyBufSize) :
    InputWf (ttyNew rb rb' fg mem mem') :=
  ⟨ttyNew_wf rb rb' fg mem mem', rfl⟩

/-- What an echo leaves as it was. -/
structure Echoed (tty tty' : TtyDevice) : Prop where
  wf : InputWf tty'
  termios : tty'.ttyTermios = tty.ttyTermios
  view : tty'.view = tty.view

theorem Echoed.refl (h : InputWf tty) : Echoed tty tty := ⟨h, rfl, rfl⟩

theorem Echoed.editing (h : Echoed tty tty') : tty'.lineEditing = tty.lineEditing :=
  congrArg InputView.line h.view

theorem writeOutputs_frame {buf : List UInt8} (hok : writeOutputs tty buf = .ok tty') :
    tty'.lineBuffer = tty.lineBuffer ∧ tty'.ttyState = tty.ttyState := by
  induction buf generalizing tty with
  | nil =>
      obtain rfl := Except.ok.inj hok
      exact ⟨rfl, rfl⟩
  | cons byte buf ih =>
      rw [writeOutputs, nTtyWriteOutput] at hok
      cases hw : ringBufferWrite tty.ttyOut [outputByte tty.ttyTermios byte] with
      | none =>
          rw [hw] at hok
          cases hok
      | some r =>
          rw [hw] at hok
          have hrest : writeOutputs { tty with
              ttyOut := r.1, produced := tty.produced ++ [outputByte tty.ttyTermios byte] } buf =
              .ok tty' := hok
          obtain ⟨hbuffer, hstate⟩ := ih hrest
          exact ⟨hbuffer, hstate⟩

theorem interruptOutput_frame {mem : Bool} {len : Nat}
    (hok : interruptOutput mem tty len = .ok tty') :
    tty'.lineBuffer = tty.lineBuffer ∧ tty'.ttyState = tty.ttyState := by
  rw [interruptOutput] at hok
  split at hok
  · obtain rfl := Except.ok.inj hok
    exact ⟨rfl, rfl⟩
  · cases hr : ringBufferRead tty.ttyOut len with
    | none =>
        rw [hr] at hok
        cases hok
    | some r =>
        rw [hr] at hok
        obtain rfl := Except.ok.inj hok
        exact ⟨rfl, rfl⟩

theorem InputWf.echoed (h : InputWf tty) (hwf : TtyWf tty') (hsame : SameInput tty tty')
    (hframe : tty'.lineBuffer = tty.lineBuffer ∧ tty'.ttyState = tty.ttyState) :
    Echoed tty tty' := by
  refine ⟨⟨hwf, hframe.1 ▸ h.lineCapacity⟩, hsame.1, ?_⟩
  rw [TtyDevice.view, TtyDevice.view, hsame.2, hframe.1, hframe.2]

theorem writeOutputs_echoed {buf : List UInt8} (h : InputWf tty)
    (hok : writeOutputs tty buf = .ok tty') : Echoed tty tty' := by
  by_cases hroom : tty.ttyOut.size + buf.length ≤ ptyBufSize
  · obtain ⟨t, ht, hwf, hsame, -⟩ := writeOutputs_room h.toTtyWf hroom
    obtain rfl := Except.ok.inj (ht.symm.trans hok)
    exact h.echoed hwf hsame (writeOutputs_frame hok)
  · rw [writeOutputs_full h.toTtyWf (by omega)] at hok
    cases hok

theorem writeAndDrain_echoed {mem : Bool} {buf : List UInt8} (h : InputWf tty)
    (hok : writeAndDrain mem tty buf = .ok tty') : Echoed tty tty' := by
  by_cases hroom : tty.ttyOut.size + buf.length ≤ ptyBufSize
  · obtain ⟨t, ht, hwf, hsame, -⟩ := writeAndDrain_room mem buf h.toTtyWf hroom
    obtain rfl := Except.ok.inj (ht.symm.trans hok)
    refine h.echoed hwf hsame ?_
    rw [writeAndDrain] at hok
    cases hw : writeOutputs tty buf with
    | error fault =>
        rw [hw] at hok
        cases hok
    | ok t' =>
        rw [hw] at hok
        obtain ⟨hbuffer, hstate⟩ := writeOutputs_frame hw
        obtain ⟨hbuffer', hstate'⟩ := interruptOutput_frame hok
        exact ⟨hbuffer'.trans hbuffer, hstate'.trans hstate⟩
  · rw [writeAndDrain_full mem h.toTtyWf (by omega)] at hok
    cases hok

theorem echoByte_echoed {mem echoed : Bool} {byte : UInt8} (h : InputWf tty)
    (hok : echoByte mem echoed tty byte = .ok tty') : Echoed tty tty' := by
  cases echoed with
  | false =>
      obtain rfl := Except.ok.inj hok
      exact .refl h
  | true => exact writeAndDrain_echoed h hok

/-! ## One byte -/

/-- The terminal has come to this view. -/
structure Becomes (tty tty' : TtyDevice) (v : InputView) : Prop where
  wf : InputWf tty'
  termios : tty'.ttyTermios = tty.ttyTermios
  view : tty'.view = v

theorem Echoed.becomes (h : Echoed tty tty') : Becomes tty tty' tty.view :=
  ⟨h.wf, h.termios, h.view⟩

theorem Echoed.then {v : InputView} (h : Echoed tty tty') (h' : Becomes tty' tty'' v) :
    Becomes tty tty'' v :=
  ⟨h'.wf, h'.termios.trans h.termios, h'.view⟩

/-- A line that got shorter. -/
theorem InputWf.withLine (h : InputWf tty) (line : List UInt8)
    (hline : line.length ≤ lineEditingSize) :
    Becomes tty { tty with lineEditing := line } { tty.view with line } :=
  ⟨⟨h.toTtyWf.congr rfl rfl hline ⟨rfl, rfl⟩, h.lineCapacity⟩, rfl, rfl⟩

/-- State and settings are not part of the form. -/
theorem InputWf.withState (h : InputWf tty) (state : TtyState) (tm : Termios) :
    InputWf { tty with ttyState := state, ttyTermios := tm } :=
  ⟨h.toTtyWf.congr rfl rfl h.editing ⟨rfl, rfl⟩, h.lineCapacity⟩

theorem nTtyFlush_becomes (h : InputWf tty) :
    ∃ tty', nTtyFlush tty = .ok tty' ∧ Becomes tty tty' tty.view.flush ∧
      tty'.ttyOut = tty.ttyOut := by
  obtain ⟨rb, hw, hwf, hflags, hcap, hcon⟩ :=
    ringBufferWrite_spec tty.lineEditing h.line h.lineFlags
  refine ⟨{ tty with lineBuffer := rb, lineEditing := [] }, by rw [nTtyFlush, hw],
    ⟨⟨?_, ?_⟩, rfl, ?_⟩, rfl⟩
  · exact ⟨h.out, h.outFlags, h.outCapacity, hwf, by rw [hflags]; exact h.lineFlags, Nat.zero_le _,
      h.bytes⟩
  · exact hcap.trans h.lineCapacity
  · rw [TtyDevice.view, InputView.flush, TtyDevice.view, hcon, h.lineCapacity, fifoAccepted,
      ringContents_length]

theorem nTtyPush_becomes (h : InputWf tty) (hroom : tty.lineEditing.length < lineEditingSize)
    (byte : UInt8) :
    ∃ tty', nTtyPush tty byte = .ok tty' ∧
      Becomes tty tty' (tty.view.push tty.ttyTermios byte) ∧ tty'.ttyOut = tty.ttyOut := by
  have hpushed := h.withLine (tty.lineEditing ++ [byte]) (by simpa using hroom)
  rw [nTtyPush, if_pos hroom]
  dsimp only
  unfold InputView.push
  cases hcanon : tty.ttyTermios.local icanon with
  | true => exact ⟨_, rfl, hpushed, rfl⟩
  | false =>
      obtain ⟨t, hflush, hbecomes, hout⟩ := nTtyFlush_becomes hpushed.wf
      exact ⟨t, hflush, ⟨hbecomes.wf, hbecomes.termios, hbecomes.view⟩, hout⟩

theorem nTtyPush_ok {byte : UInt8} (h : InputWf tty) (hok : nTtyPush tty byte = .ok tty') :
    Becomes tty tty' (tty.view.push tty.ttyTermios byte) := by
  by_cases hroom : tty.lineEditing.length < lineEditingSize
  · obtain ⟨t, ht, hbecomes, -⟩ := nTtyPush_becomes h hroom byte
    obtain rfl := Except.ok.inj (ht.symm.trans hok)
    exact hbecomes
  · rw [nTtyPush_full hroom] at hok
    cases hok

/-- With room, a byte is pushed and the line flushed. -/
theorem pushFlush_room (h : InputWf tty) (hroom : tty.lineEditing.length < lineEditingSize)
    (byte : UInt8) : ∃ tty', (nTtyPush tty byte).bind nTtyFlush = .ok tty' := by
  obtain ⟨t, ht, hbecomes, -⟩ := nTtyPush_becomes h hroom byte
  obtain ⟨t', ht', -⟩ := nTtyFlush_becomes hbecomes.wf
  exact ⟨t', by rw [ht]; exact ht'⟩

/-- `VEOF` is typed on an empty line, where there is room for its newline. -/
theorem eof_pushes {byte : UInt8} (h : InputWf tty)
    (hkind : inputKind tty.ttyTermios tty.lineEditing byte = .endOfFile) :
    ∃ tty', (nTtyPush { tty with ttyState := .closed } 0x0A).bind nTtyFlush = .ok tty' := by
  refine pushFlush_room (h.withState .closed tty.ttyTermios) ?_ 0x0A
  dsimp only
  rw [inputKind_endOfFile hkind]
  decide

theorem pushFlush_ok {byte : UInt8} (h : InputWf tty)
    (hok : (nTtyPush tty byte).bind nTtyFlush = .ok tty') :
    Becomes tty tty' (tty.view.push tty.ttyTermios byte).flush := by
  cases hp : nTtyPush tty byte with
  | error fault =>
      rw [hp] at hok
      cases hok
  | ok t =>
      rw [hp] at hok
      have hpush := nTtyPush_ok h hp
      obtain ⟨t', ht', hbecomes, -⟩ := nTtyFlush_becomes hpush.wf
      obtain rfl := Except.ok.inj (ht'.symm.trans hok)
      exact ⟨hbecomes.wf, hbecomes.termios.trans hpush.termios, hpush.view ▸ hbecomes.view⟩

theorem eraseWord_becomes {mem : Nat → Bool} {n k : Nat} (h : InputWf tty)
    (hn : tty.lineEditing.length = n) (hok : eraseWord mem n k tty = .ok tty') :
    Becomes tty tty' { tty.view with line := dropWord tty.lineEditing } := by
  induction n generalizing k tty with
  | zero =>
      obtain rfl := Except.ok.inj hok
      have hnil := List.eq_nil_of_length_eq_zero hn
      refine ⟨h, rfl, ?_⟩
      rw [TtyDevice.view, hnil]
      rfl
  | succ n ih =>
      obtain ⟨line, c, hline⟩ : ∃ line c, tty.lineEditing = line ++ [c] := by
        have hne : tty.lineEditing ≠ [] := List.ne_nil_of_length_eq_add_one hn
        exact ⟨_, _, (List.dropLast_append_getLast hne).symm⟩
      have hle := h.editing
      rw [hline, List.length_append, List.length_singleton] at hle hn
      rw [eraseWord] at hok
      cases hecho : nTtyOutput (mem k) tty bsBlankBs with
      | error fault =>
          rw [hecho] at hok
          cases hok
      | ok t =>
          have hechoed := writeAndDrain_echoed h hecho
          have hshort := hechoed.wf.withLine line (by omega)
          rw [hecho] at hok
          dsimp only [Except.bind] at hok
          rw [hechoed.editing, hline, List.getLast?_concat, List.dropLast_concat] at hok
          rw [hline, dropWord_concat]
          by_cases hblank : c = 0x20
          · rw [if_pos (congrArg some hblank)] at hok
            obtain rfl := Except.ok.inj hok
            rw [if_pos hblank]
            exact ⟨hshort.wf, hechoed.termios, by rw [hshort.view, hechoed.view]⟩
          · rw [if_neg fun heq => hblank (Option.some.inj heq)] at hok
            rw [if_neg hblank]
            have hrest := ih hshort.wf (by dsimp only; omega) hok
            refine ⟨hrest.wf, hrest.termios.trans hechoed.termios, ?_⟩
            rw [hrest.view, hshort.view, hechoed.view]

theorem killLine_becomes {mem : Nat → Bool} {n k : Nat} (h : InputWf tty)
    (hn : tty.lineEditing.length = n) (hok : killLine mem n k tty = .ok tty') :
    Becomes tty tty' { tty.view with line := [] } := by
  induction n generalizing k tty with
  | zero =>
      obtain rfl := Except.ok.inj hok
      have hnil := List.eq_nil_of_length_eq_zero hn
      refine ⟨h, rfl, ?_⟩
      rw [TtyDevice.view, hnil]
  | succ n ih =>
      have hle := h.editing
      have hshort := h.withLine tty.lineEditing.dropLast
        (by rw [List.length_dropLast]; omega)
      rw [killLine] at hok
      cases hecho : nTtyOutput (mem k) { tty with lineEditing := tty.lineEditing.dropLast }
          bsBlankBs with
      | error fault =>
          rw [hecho] at hok
          cases hok
      | ok t =>
          rw [hecho] at hok
          have hechoed := writeAndDrain_echoed hshort.wf hecho
          have hlength : t.lineEditing.length = n := by
            rw [hechoed.editing, List.length_dropLast]
            omega
          have hrest := ih hechoed.wf hlength hok
          refine ⟨hrest.wf, (hrest.termios.trans hechoed.termios), ?_⟩
          rw [hrest.view, hechoed.view, hshort.view]

/-- **A byte of input.** Where `n_tty_write_input` comes back, it has done to
line, line buffer and state what `InputView.input` says. -/
theorem nTtyWriteInput_ok {mem : Nat → Bool} {byte : UInt8} (h : InputWf tty)
    (hok : nTtyWriteInput mem tty byte = .ok tty') :
    Becomes tty tty' (tty.view.input tty.ttyTermios byte) := by
  have hline : tty.view.line = tty.lineEditing := rfl
  unfold nTtyWriteInput at hok
  unfold InputView.input
  rw [hline]
  cases hkind : inputKind tty.ttyTermios tty.lineEditing byte <;>
    simp only [hkind] at hok ⊢
  case signal cc signum =>
    rw [signalChar] at hok
    split at hok
    · cases hw : writeOutputs tty [0x5E, 0x40 + cc, 0x0A] with
      | error fault =>
          rw [hw] at hok
          cases hok
      | ok t =>
          rw [hw] at hok
          obtain rfl := Except.ok.inj hok
          obtain ⟨hwf, htermios, hview⟩ := writeOutputs_echoed h hw
          exact ⟨⟨hwf.toTtyWf.congr rfl rfl hwf.editing ⟨rfl, rfl⟩, hwf.lineCapacity⟩, htermios,
            hview⟩
    · obtain rfl := Except.ok.inj hok
      exact ⟨⟨h.toTtyWf.congr rfl rfl h.editing ⟨rfl, rfl⟩, h.lineCapacity⟩, rfl, rfl⟩
  case endOfFile =>
    have hbecomes := pushFlush_ok (h.withState .closed tty.ttyTermios) hok
    exact ⟨hbecomes.wf, hbecomes.termios, hbecomes.view⟩
  case ignored =>
    obtain rfl := Except.ok.inj hok
    exact ⟨h, rfl, rfl⟩
  case erase =>
    split at hok
    case isTrue hnil =>
      obtain rfl := Except.ok.inj hok
      refine ⟨h, rfl, ?_⟩
      rw [TtyDevice.view, hnil]
      rfl
    case isFalse hne =>
      have hle := h.editing
      have hshort := h.withLine tty.lineEditing.dropLast
        (by rw [List.length_dropLast]; omega)
      have hechoed := writeAndDrain_echoed hshort.wf hok
      exact ⟨hechoed.wf, hechoed.termios, hechoed.view.trans hshort.view⟩
  case eraseWord => exact eraseWord_becomes h rfl hok
  case kill => exact killLine_becomes h rfl hok
  case char c =>
    cases hecho : echoByte (mem 0) (echoesChar tty.ttyTermios) tty c with
    | error fault =>
        rw [hecho] at hok
        cases hok
    | ok t =>
        rw [hecho] at hok
        have hechoed := echoByte_echoed h hecho
        have hpush := nTtyPush_ok hechoed.wf hok
        rw [hechoed.view, hechoed.termios] at hpush
        exact hechoed.then hpush
  case newline =>
    cases hecho : echoByte (mem 0) (echoesNewline tty.ttyTermios) tty 0x0A with
    | error fault =>
        rw [hecho] at hok
        cases hok
    | ok t =>
        rw [hecho] at hok
        have hechoed := echoByte_echoed h hecho
        have hpush := pushFlush_ok hechoed.wf hok
        rw [hechoed.view, hechoed.termios] at hpush
        exact hechoed.then hpush

/-! ## The bound of the line -/

/-- An echo of one byte waits for room in `tty_out`. -/
def EchoWaits (echoed : Bool) (tty : TtyDevice) : Prop :=
  echoed ∧ tty.ttyOut.size = ptyBufSize

/-- A byte for the line finds room there, or does not get so far. -/
def InputRoom (tty : TtyDevice) (byte : UInt8) : Prop :=
  match inputKind tty.ttyTermios tty.lineEditing byte with
  | .char _ =>
      tty.lineEditing.length < lineEditingSize ∨ EchoWaits (echoesChar tty.ttyTermios) tty
  | .newline =>
      tty.lineEditing.length < lineEditingSize ∨ EchoWaits (echoesNewline tty.ttyTermios) tty
  | _ => True

/-- Nothing is stored behind the line. -/
def Inside (r : Except TtyFault TtyDevice) : Prop := r ≠ .error .outside

theorem inside_ok (tty : TtyDevice) : Inside (.ok tty) := fun h => by cases h

theorem Inside.bind {r : Except TtyFault TtyDevice} {f : TtyDevice → Except TtyFault TtyDevice}
    (hr : Inside r) (hf : ∀ t, r = .ok t → Inside (f t)) : Inside (r.bind f) := by
  cases r with
  | error fault => exact fun h => hr (congrArg Except.error (Except.error.inj h))
  | ok t => exact hf t rfl

theorem writeOutputs_inside (buf : List UInt8) (h : InputWf tty) :
    Inside (writeOutputs tty buf) := by
  by_cases hroom : tty.ttyOut.size + buf.length ≤ ptyBufSize
  · obtain ⟨t, ht, -⟩ := writeOutputs_room h.toTtyWf hroom
    exact ht ▸ inside_ok t
  · rw [writeOutputs_full h.toTtyWf (by omega)]
    exact fun heq => by cases heq

theorem writeAndDrain_inside (mem : Bool) (buf : List UInt8) (h : InputWf tty) :
    Inside (writeAndDrain mem tty buf) := by
  by_cases hroom : tty.ttyOut.size + buf.length ≤ ptyBufSize
  · obtain ⟨t, ht, -⟩ := writeAndDrain_room mem buf h.toTtyWf hroom
    exact ht ▸ inside_ok t
  · rw [writeAndDrain_full mem h.toTtyWf (by omega)]
    exact fun heq => by cases heq

theorem InputWf.dropLast (h : InputWf tty) :
    InputWf { tty with lineEditing := tty.lineEditing.dropLast } := by
  have hle := h.editing
  exact (h.withLine _ (by rw [List.length_dropLast]; omega)).wf

theorem eraseWord_inside (mem : Nat → Bool) (n k : Nat) (h : InputWf tty) :
    Inside (eraseWord mem n k tty) := by
  induction n generalizing k tty with
  | zero => exact inside_ok tty
  | succ n ih =>
      rw [eraseWord]
      refine (writeAndDrain_inside (mem k) bsBlankBs h).bind fun t ht => ?_
      have hdrop := (writeAndDrain_echoed h ht).wf.dropLast
      dsimp only
      split
      · exact inside_ok _
      · exact ih (k + 1) hdrop

theorem killLine_inside (mem : Nat → Bool) (n k : Nat) (h : InputWf tty) :
    Inside (killLine mem n k tty) := by
  induction n generalizing k tty with
  | zero => exact inside_ok tty
  | succ n ih =>
      rw [killLine]
      refine (writeAndDrain_inside (mem k) bsBlankBs h.dropLast).bind fun t ht => ?_
      exact ih (k + 1) (writeAndDrain_echoed h.dropLast ht).wf

/-- An echo of one byte comes back, or waits. -/
theorem echoByte_cases (mem echoed : Bool) (byte : UInt8) (h : InputWf tty) :
    (¬EchoWaits echoed tty ∧ ∃ t, echoByte mem echoed tty byte = .ok t ∧ Echoed tty t) ∨
      EchoWaits echoed tty ∧ echoByte mem echoed tty byte = .error .blocks := by
  cases echoed with
  | false => exact .inl ⟨fun hw => Bool.false_ne_true hw.1, tty, rfl, .refl h⟩
  | true =>
      have hle := h.out.size_le
      rw [h.outCapacity] at hle
      by_cases hfull : tty.ttyOut.size = ptyBufSize
      · refine .inr ⟨⟨rfl, hfull⟩, ?_⟩
        exact writeAndDrain_full mem h.toTtyWf (by rw [hfull, List.length_singleton]; omega)
      · obtain ⟨t, ht, -⟩ := writeAndDrain_room mem [byte] h.toTtyWf
          (by rw [List.length_singleton]; omega)
        exact .inl ⟨fun hw => hfull hw.2, t, ht, writeAndDrain_echoed h ht⟩

/-- A byte that is echoed and pushed stays inside exactly if there is room, or
the echo waits. -/
theorem echoPush_inside_iff (mem echoed : Bool) (byte : UInt8)
    {next : TtyDevice → Except TtyFault TtyDevice} (hnext : ∀ t, InputWf t → Inside (next t))
    (h : InputWf tty) :
    Inside ((echoByte mem echoed tty byte).bind fun t => (nTtyPush t byte).bind next) ↔
      tty.lineEditing.length < lineEditingSize ∨ EchoWaits echoed tty := by
  rcases echoByte_cases mem echoed byte h with ⟨hgo, t, ht, hechoed⟩ | ⟨hwait, herror⟩
  · rw [ht, or_iff_left hgo]
    dsimp only [Except.bind]
    rw [← hechoed.editing]
    by_cases hroom : t.lineEditing.length < lineEditingSize
    · obtain ⟨t', ht', hbecomes, -⟩ := nTtyPush_becomes hechoed.wf hroom byte
      rw [ht']
      exact iff_of_true (hnext t' hbecomes.wf) hroom
    · rw [nTtyPush_full hroom]
      exact iff_of_false (fun hin => hin rfl) hroom
  · rw [herror]
    exact iff_of_true (fun heq => by cases heq) (.inr hwait)

theorem nTtyFlush_inside (h : InputWf tty) : Inside (nTtyFlush tty) := by
  obtain ⟨t, ht, -⟩ := nTtyFlush_becomes h
  exact ht ▸ inside_ok t

/-- **When a byte of input stays inside the line.** -/
theorem nTtyWriteInput_inside_iff (mem : Nat → Bool) (byte : UInt8) (h : InputWf tty) :
    Inside (nTtyWriteInput mem tty byte) ↔ InputRoom tty byte := by
  unfold nTtyWriteInput InputRoom
  cases hkind : inputKind tty.ttyTermios tty.lineEditing byte <;> simp only []
  case signal cc signum =>
    refine iff_of_true ?_ trivial
    unfold signalChar
    have hin : Inside (if tty.ttyTermios.local echoctl then
        writeOutputs tty [0x5E, 0x40 + cc, 0x0A] else .ok tty) := by
      split
      · exact writeOutputs_inside _ h
      · exact inside_ok tty
    exact hin.bind fun t _ => inside_ok _
  case endOfFile =>
    refine iff_of_true ?_ trivial
    obtain ⟨t, ht⟩ := eof_pushes h hkind
    rw [ht]
    exact inside_ok t
  case ignored => exact iff_of_true (inside_ok tty) trivial
  case erase =>
    refine iff_of_true ?_ trivial
    split
    · exact inside_ok tty
    · exact writeAndDrain_inside _ _ h.dropLast
  case eraseWord => exact iff_of_true (eraseWord_inside mem _ 0 h) trivial
  case kill => exact iff_of_true (killLine_inside mem _ 0 h) trivial
  case char c =>
    have hiff := echoPush_inside_iff (mem 0) (echoesChar tty.ttyTermios) c
      (fun t _ => inside_ok t) h
    have hbind : ∀ t, (nTtyPush t c).bind (fun t => .ok t) = nTtyPush t c := fun t => by
      cases nTtyPush t c <;> rfl
    simpa only [hbind] using hiff
  case newline =>
    exact echoPush_inside_iff (mem 0) (echoesNewline tty.ttyTermios) 0x0A
      (fun t ht => nTtyFlush_inside ht) h

/-! ## The settings of `termios_init` -/

/-- Bytes that `termios_init` makes a signal, or `VEOF`. -/
def plainByte (byte : UInt8) : Bool := byte ∉ [0x18, 0x1C, 0x0B, 0x04]

/-- What a plain byte is for with the settings of `termios_init`. -/
theorem inputKind_default (line : List UInt8) {byte : UInt8} (hplain : plainByte byte) :
    inputKind termiosInit line byte =
      if byte = 0x7F then .erase
      else if byte = 0x17 then .eraseWord
      else if byte = 0x15 then .kill
      else if byte = 0x0D ∨ byte = 0x0A then .newline
      else .char byte := by
  have hflags : termiosInit.local isig = true ∧ termiosInit.local icanon = true ∧
      termiosInit.local echoe = true ∧ termiosInit.local echok = true ∧
      termiosInit.input inlcr = false ∧ termiosInit.input igncr = false ∧
      termiosInit.input icrnl = true ∧ termiosInit.input iuclc = false := by decide
  obtain ⟨h1, h2, h3, h4, h5, h6, h7, h8⟩ := hflags
  have hchars : termiosInit.cCc vIntr = 0x18 ∧ termiosInit.cCc vQuit = 0x1C ∧
      termiosInit.cCc vSusp = 0x0B ∧ termiosInit.cCc vEof = 0x04 ∧
      termiosInit.cCc vErase = 0x7F ∧ termiosInit.cCc vWerase = 0x17 ∧
      termiosInit.cCc vKill = 0x15 := by decide
  obtain ⟨c1, c2, c3, c4, c5, c6, c7⟩ := hchars
  simp only [plainByte, List.mem_cons, List.not_mem_nil, or_false, not_or, decide_eq_true_eq]
    at hplain
  obtain ⟨p1, p2, p3, p4⟩ := hplain
  unfold inputKind
  simp only [h1, h2, h3, h4, h5, h6, h7, h8, c1, c2, c3, c4, c5, c6, c7, p1, p2, p3, p4, true_and,
    false_and, and_false, if_false, not_false_eq_true, Bool.false_eq_true]
  by_cases hcr : byte = 0x0D
  · rw [hcr]
    decide
  · rw [if_neg hcr]
    by_cases hnl : byte = 0x0A
    · rw [hnl]
      decide
    · simp [hcr, hnl]
/-- A byte that meets `InputOk` goes through at once where `tty_out` is empty. -/
theorem nTtyWriteInput_quiet {mem : Nat → Bool} {byte : UInt8} (h : InputWf tty)
    (hempty : tty.ttyOut.size = 0) (hok : InputOk mem tty byte) :
    ∃ tty', nTtyWriteInput mem tty byte = .ok tty' ∧ tty'.ttyOut.size = 0 := by
  rcases input_outcome mem byte h.toTtyWf hempty with ⟨tty', hres, -, hiff⟩ | ⟨-, hnot⟩
  · refine ⟨tty', ?_, hiff.mpr hok⟩
    cases hr : nTtyWriteInput mem tty byte with
    | error fault =>
        rw [hr] at hres
        cases hres
    | ok t =>
        rw [hr] at hres
        rw [Option.some.inj hres]
  · exact (hnot hok).elim

/-! ## The steps -/

/-- A read takes the first bytes of the line buffer; it waits for bytes, or for
the terminal to be closed. -/
theorem nTtyReadBuf_spec (h : InputWf tty) (len : Nat) :
    (tty.view.state ≠ .closed ∧ tty.view.ready = [] ∧ nTtyReadBuf tty len = none) ∨
    ((tty.view.state = .closed ∨ tty.view.ready ≠ []) ∧ ∃ tty',
      nTtyReadBuf tty len = some (tty', tty.view.ready.take len) ∧
        Becomes tty tty' { tty.view with ready := tty.view.ready.drop len }) := by
  have hsize : ringBufferSize tty.lineBuffer = 0 ↔ tty.view.ready = [] := by
    rw [ringBufferSize, ← ringContents_length, List.length_eq_zero_iff]
    rfl
  unfold nTtyReadBuf
  by_cases hwait : tty.ttyState ≠ .closed ∧ ringBufferSize tty.lineBuffer = 0
  · exact .inl ⟨hwait.1, hsize.mp hwait.2, if_pos hwait⟩
  · refine .inr ⟨?_, ?_⟩
    · by_contra hnone
      push Not at hnone
      exact hwait ⟨hnone.1, hsize.mpr hnone.2⟩
    · obtain ⟨rb, hr, hwf, hflags, hcap, hcon⟩ := ringBufferRead_spec len h.line h.lineFlags
      have htake : ∀ l : List UInt8, l.length = tty.lineBuffer.size →
          (l.take (min len tty.lineBuffer.size)).take (min len tty.lineBuffer.size) = l.take len ∧
            l.drop (min len tty.lineBuffer.size) = l.drop len := fun l hl => by
        rw [List.take_take, min_self, ← hl]
        exact ⟨by rw [List.take_eq_take_iff]; omega, by rw [List.drop_eq_drop_iff]; omega⟩
      obtain ⟨htaken, hdropped⟩ := htake _ (ringContents_length tty.lineBuffer)
      refine ⟨{ tty with lineBuffer := rb }, ?_, ⟨⟨?_, hcap.trans h.lineCapacity⟩, rfl, ?_⟩⟩
      · rw [if_neg hwait, hr, Option.map_some]
        exact congrArg some (Prod.ext rfl htaken)
      · exact ⟨h.out, h.outFlags, h.outCapacity, hwf, by rw [hflags]; exact h.lineFlags, h.editing,
          h.bytes⟩
      · rw [TtyDevice.view, hcon, hdropped]
        rfl

variable {s s' : TtySystem}

theorem inputStep_input {mem : Nat → Bool} {byte : UInt8}
    (hstep : inputStep s (.input mem byte) = some s') :
    ∃ tty, nTtyWriteInput mem s.tty byte = .ok tty ∧
      s' = { s with tty, eofs := s.eofs + if typesEof s.tty byte then 1 else 0 } := by
  rw [inputStep, Option.map_eq_some_iff] at hstep
  obtain ⟨tty, htty, rfl⟩ := hstep
  cases hr : nTtyWriteInput mem s.tty byte with
  | error fault =>
      rw [hr] at htty
      cases htty
  | ok t =>
      rw [hr] at htty
      obtain rfl := Option.some.inj htty
      exact ⟨t, rfl, rfl⟩

theorem inputStep_fwrite {mem : Bool} {buf : List UInt8} (h : InputWf s.tty)
    (hstep : inputStep s (.fwrite mem buf) = some s') :
    ∃ tty, Echoed s.tty tty ∧ s' = { s with tty } := by
  rw [inputStep, Option.map_eq_some_iff] at hstep
  obtain ⟨r, hr, rfl⟩ := hstep
  rw [ttyFwrite] at hr
  cases hw : writeAndDrain mem s.tty buf with
  | error fault =>
      rw [hw] at hr
      cases hr
  | ok t =>
      rw [hw] at hr
      obtain rfl := Option.some.inj hr
      exact ⟨t, writeAndDrain_echoed h hw, rfl⟩

theorem inputStep_wake {len : Nat} (h : InputWf s.tty)
    (hstep : inputStep s (.wake len) = some s') :
    len ∈ s.waiting ∧ (s.tty.view.state = .closed ∨ s.tty.view.ready ≠ []) ∧
      ∃ tty, Becomes s.tty tty { s.tty.view with ready := s.tty.view.ready.drop len } ∧
        s' = { s with
          tty
          waiting := s.waiting.erase len
          given := s.given ++ s.tty.view.ready.take len
          zeros := s.zeros + if s.tty.view.ready.take len = [] ∧ len ≠ 0 then 1 else 0 } := by
  rw [inputStep] at hstep
  split at hstep
  case isFalse => cases hstep
  case isTrue hmem =>
    obtain ⟨r, hr, rfl⟩ := Option.map_eq_some_iff.mp hstep
    rcases nTtyReadBuf_spec h len with ⟨-, -, hnone⟩ | ⟨hready, tty, htty, hbecomes⟩
    · rw [hr] at hnone
      cases hnone
    · obtain rfl := Option.some.inj (htty.symm.trans hr)
      exact ⟨hmem, hready, tty, hbecomes, rfl⟩

theorem inputStep_wf {op : InputOp} (h : InputWf s.tty) (hstep : inputStep s op = some s') :
    InputWf s'.tty := by
  cases op with
  | input mem byte =>
      obtain ⟨tty, hok, rfl⟩ := inputStep_input hstep
      exact (nTtyWriteInput_ok h hok).wf
  | tcsets tm =>
      obtain rfl := Option.some.inj hstep
      exact h.withState s.tty.ttyState tm
  | fwrite mem buf =>
      obtain ⟨tty, hechoed, rfl⟩ := inputStep_fwrite h hstep
      exact hechoed.wf
  | fread len =>
      rw [inputStep] at hstep
      split at hstep <;> rw [← Option.some.inj hstep]
      · exact h.withState .unknown s.tty.ttyTermios
      · exact h
  | cttyRead len =>
      obtain rfl := Option.some.inj hstep
      exact h
  | wake len =>
      obtain ⟨-, -, tty, hbecomes, rfl⟩ := inputStep_wake h hstep
      exact hbecomes.wf

/-- The byte is stored inside the line, if it is stored. -/
def StoresInside (s : TtySystem) : InputOp → Prop
  | .input mem byte => Inside (nTtyWriteInput mem s.tty byte)
  | _ => True

/-- A byte that goes to the line finds room there. -/
def LineRoom (s : TtySystem) : InputOp → Prop
  | .input _ byte => InputRoom s.tty byte
  | _ => True

/-- A letter that is typed, with memory for its echo. -/
def typeLetter : InputOp := .input (fun _ => true) 0x61

/-- So many letters fill so much of the line. -/
theorem typeLetter_run : ∀ (n : Nat) {s : TtySystem}, InputWf s.tty → s.tty.ttyOut.size = 0 →
    s.tty.ttyTermios = termiosInit → s.tty.lineEditing.length + n ≤ lineEditingSize →
    ∃ s', runSteps inputStep s (List.replicate n typeLetter) = some s' ∧ InputWf s'.tty ∧
      s'.tty.ttyOut.size = 0 ∧ s'.tty.ttyTermios = termiosInit ∧
      s'.tty.lineEditing.length = s.tty.lineEditing.length + n
  | 0, s, h, hempty, htm, _ => ⟨s, rfl, h, hempty, htm, rfl⟩
  | n + 1, s, h, hempty, htm, hroom => by
      have hkind : inputKind s.tty.ttyTermios s.tty.lineEditing 0x61 = .char 0x61 := by
        rw [htm, inputKind_default _ (by decide)]
        decide
      have hok : InputOk (fun _ => true) s.tty 0x61 := by
        unfold InputOk
        rw [hkind]
        exact ⟨fun _ => rfl, by omega⟩
      obtain ⟨tty, htty, hquiet⟩ := nTtyWriteInput_quiet h hempty hok
      obtain ⟨hwf, htm', hview⟩ := nTtyWriteInput_ok h htty
      have hline : tty.lineEditing = s.tty.lineEditing ++ [0x61] := by
        have hv := congrArg InputView.line hview
        unfold InputView.input at hv
        rw [show s.tty.view.line = s.tty.lineEditing from rfl, hkind, htm] at hv
        exact hv
      have hstep : inputStep s typeLetter = some { s with
          tty, eofs := s.eofs + if typesEof s.tty 0x61 then 1 else 0 } := by
        rw [typeLetter, inputStep, htty]
        rfl
      have hlength : tty.lineEditing.length = s.tty.lineEditing.length + 1 := by
        rw [hline, List.length_append, List.length_singleton]
      obtain ⟨s', hrun, hwf', hquiet', htm'', hlength'⟩ := typeLetter_run n (s := { s with
        tty, eofs := s.eofs + if typesEof s.tty 0x61 then 1 else 0 }) hwf hquiet (htm'.trans htm)
        (by dsimp only; omega)
      refine ⟨s', ?_, hwf', hquiet', htm'', by rw [hlength']; dsimp only; omega⟩
      rw [List.replicate_succ, runSteps, hstep]
      exact hrun

end Levos.Dev
