import Levos.Base.Run
import Levos.Kernel.Task
import Levos.Lib.Ring

/-!
# Pipes (`kernel/pipe.c`)

A read waits, without the lock, until the buffer holds something or the write
end is closed, and then takes bytes out under the lock. The buffer does not
block, so that a read which finds it empty again returns 0, which is what a
reader takes for the end of the file.

Bytes go through in order (`PipeOk`), so that a 0 from the wait is the end of
the file. A 0 from the dequeue is one only when no other reader was faster:
`pipe_eof`.
-/

namespace Levos.Kernel

open Levos.Base Levos.Lib

/-! ## The functions of the source -/

def pipeBuf : Nat := 4096

def pipflagWriteClosed : BitVec 32 := 1 <<< 0
def pipflagReadClosed : BitVec 32 := 1 <<< 1

structure Pipe where
  pipeBuffer : RingBuffer
  pipeFlags : BitVec 32

/-- `pipe_create`; `mem` is the memory of the buffer, `rb` what the structure
held before. -/
def pipeCreate (rb : RingBuffer) (mem : List UInt8) : Pipe where
  pipeBuffer := ringBufferNonblock rb mem pipeBuf
  pipeFlags := 0

def writeClosed (pip : Pipe) : Bool := pip.pipeFlags &&& pipflagWriteClosed ≠ 0

def readClosed (pip : Pipe) : Bool := pip.pipeFlags &&& pipflagReadClosed ≠ 0

/-- How the emptiness wait of `do_pipe_read` ends. -/
inductive PipeWait : Type where
  | spins
  | returnsZero
  | goesOn
deriving DecidableEq

/-- `do_pipe_read` before it takes the lock. -/
def pipeReadWait (pip : Pipe) : PipeWait :=
  if ringBufferSize pip.pipeBuffer = 0 then
    if writeClosed pip then .returnsZero else .spins
  else .goesOn

/-- `do_pipe_read` under the lock: the bytes, and the result. -/
def pipeReadLocked (pip : Pipe) (len : Nat) : Option (Pipe × List UInt8 × Nat) :=
  (ringBufferRead pip.pipeBuffer len).map fun r => ({ pip with pipeBuffer := r.1 }, r.2)

/-- `do_pipe_write` under the lock; before that it looks at
`PIPFLAG_READ_CLOSED`. -/
def pipeWriteLocked (pip : Pipe) (buf : List UInt8) : Option (Pipe × Nat) :=
  (ringBufferWrite pip.pipeBuffer buf).map fun r => ({ pip with pipeBuffer := r.1 }, r.2)

/-- `pipe_close` of the write end. -/
def pipeCloseWrite (pip : Pipe) : Pipe :=
  { pip with pipeFlags := pip.pipeFlags ||| pipflagWriteClosed }

/-- `pipe_close` of the read end. -/
def pipeCloseRead (pip : Pipe) : Pipe :=
  { pip with pipeFlags := pip.pipeFlags ||| pipflagReadClosed }

/-! ## The system -/

/-- A read that has returned, and whether this was at the end of the file: the
write end closed, and all bytes that were accepted given to readers. -/
structure ReadDone where
  len : Nat
  rc : Nat
  atEof : Bool
deriving DecidableEq

/-- Readers are between their wait and their dequeue, with the length they
want; writers before their locked write. -/
structure PipeSys where
  pipe : Pipe
  readers : Nat → Option Nat
  writers : Nat → Option (List UInt8)
  accepted : List UInt8
  delivered : List UInt8
  done : List ReadDone

inductive PipeAct : Type where
  | wait (r len : Nat)
  | dequeue (r : Nat)
  | startWrite (w : Nat) (buf : List UInt8)
  | write (w : Nat)
  | closeWrite
  | closeRead

/-- The end of the file. -/
def atEof (s : PipeSys) : Bool := writeClosed s.pipe && decide (s.delivered = s.accepted)

def pipeStep (s : PipeSys) : PipeAct → Option PipeSys
  | .wait r len =>
      if (s.readers r).isSome then none
      else
        match pipeReadWait s.pipe with
        | .spins => some s
        | .returnsZero => some { s with done := ⟨len, 0, atEof s⟩ :: s.done }
        | .goesOn => some { s with readers := Function.update s.readers r (some len) }
  | .dequeue r =>
      (s.readers r).bind fun len => (pipeReadLocked s.pipe len).map fun t =>
        { s with
            pipe := t.1
            readers := Function.update s.readers r none
            delivered := s.delivered ++ t.2.1
            done := ⟨len, t.2.2, atEof s⟩ :: s.done }
  | .startWrite w buf =>
      if (s.writers w).isSome then none
      -- SIGPIPE, -EPIPE or -EINTR
      else if readClosed s.pipe then some s
      else some { s with writers := Function.update s.writers w (some buf) }
  | .write w =>
      (s.writers w).bind fun buf => (pipeWriteLocked s.pipe buf).map fun t =>
        { s with
            pipe := t.1
            writers := Function.update s.writers w none
            accepted := s.accepted ++ buf.take t.2 }
  | .closeWrite => some { s with pipe := pipeCloseWrite s.pipe }
  | .closeRead => some { s with pipe := pipeCloseRead s.pipe }

def pipeStart (rb : RingBuffer) (mem : List UInt8) : PipeSys where
  pipe := pipeCreate rb mem
  readers := fun _ => none
  writers := fun _ => none
  accepted := []
  delivered := []
  done := []

/-! ## Bytes go through in order -/

/-- The buffer is well formed and holds the bytes that were accepted and not
yet delivered. -/
structure PipeOk (s : PipeSys) : Prop where
  wf : RingWf s.pipe.pipeBuffer
  nonblock : s.pipe.pipeBuffer.flags &&& rbFlagNonblock ≠ 0
  bytes : s.accepted = s.delivered ++ ringContents s.pipe.pipeBuffer

theorem PipeOk.empty_iff {s : PipeSys} (h : PipeOk s) :
    s.pipe.pipeBuffer.size = 0 ↔ s.delivered = s.accepted := by
  rw [h.bytes, ← ringContents_length, List.length_eq_zero_iff]
  constructor
  · intro hnil
    rw [hnil, List.append_nil]
  · exact fun heq => List.append_right_eq_self.mp heq.symm

theorem PipeOk.dequeue {s : PipeSys} (h : PipeOk s) (r len : Nat) :
    ∃ s', (pipeReadLocked s.pipe len).map (fun t : Pipe × List UInt8 × Nat =>
        { s with
            pipe := t.1
            readers := Function.update s.readers r none
            delivered := s.delivered ++ t.2.1
            done := ⟨len, t.2.2, atEof s⟩ :: s.done }) = some s' ∧ PipeOk s' ∧
      s'.done = ⟨len, min len s.pipe.pipeBuffer.size, atEof s⟩ :: s.done := by
  obtain ⟨rb, hr, hwf, hflags, -, hcontents⟩ := ringBufferRead_spec len h.wf h.nonblock
  refine ⟨_, by rw [pipeReadLocked, hr]; rfl, ⟨hwf, hflags ▸ h.nonblock, ?_⟩, rfl⟩
  dsimp only
  rw [hcontents, List.append_assoc, List.take_append_drop]
  exact h.bytes

theorem PipeOk.write {s : PipeSys} (h : PipeOk s) (w : Nat) (buf : List UInt8) :
    ∃ s', (pipeWriteLocked s.pipe buf).map (fun t : Pipe × Nat =>
        { s with
            pipe := t.1
            writers := Function.update s.writers w none
            accepted := s.accepted ++ buf.take t.2 }) = some s' ∧ PipeOk s' ∧ s'.done = s.done := by
  obtain ⟨rb, hr, hwf, hflags, -, hcontents⟩ := ringBufferWrite_spec buf h.wf h.nonblock
  refine ⟨{ s with
      pipe := { s.pipe with pipeBuffer := rb }
      writers := Function.update s.writers w none
      accepted := s.accepted ++
        buf.take (min buf.length (s.pipe.pipeBuffer.capacity - s.pipe.pipeBuffer.size)) },
    by rw [pipeWriteLocked, hr]; rfl, ⟨hwf, hflags ▸ h.nonblock, ?_⟩, rfl⟩
  dsimp only
  rw [hcontents, ← List.append_assoc, ← h.bytes]

/-! ## The end of the file -/

/-- Whoever comes to take bytes finds some, or the write end is closed: no
other reader has emptied the buffer since the wait. -/
def NotRaced (s : PipeSys) : PipeAct → Prop
  | .dequeue r =>
      (s.readers r).getD 0 = 0 ∨ s.pipe.pipeBuffer.size ≠ 0 ∨ writeClosed s.pipe = true
  | _ => True

instance (s : PipeSys) : (a : PipeAct) → Decidable (NotRaced s a)
  | .dequeue _ => inferInstanceAs (Decidable (_ ∨ _ ∨ _))
  | .wait _ _ => isTrue trivial
  | .startWrite _ _ => isTrue trivial
  | .write _ => isTrue trivial
  | .closeWrite => isTrue trivial
  | .closeRead => isTrue trivial

/-- Every read that wanted bytes and got none was at the end of the file. -/
def EofOk (s : PipeSys) : Prop := ∀ r ∈ s.done, 0 < r.len → r.rc = 0 → r.atEof = true

theorem pipeStep_ok {s s' : PipeSys} {a : PipeAct} (h : PipeOk s ∧ EofOk s) (hraced : NotRaced s a)
    (hstep : pipeStep s a = some s') : PipeOk s' ∧ EofOk s' := by
  obtain ⟨hok, heof⟩ := h
  cases a with
  | wait r len =>
      rw [pipeStep] at hstep
      split at hstep
      · cases hstep
      · split at hstep
        · cases hstep
          exact ⟨hok, heof⟩
        · next hwait =>
            cases hstep
            refine ⟨⟨hok.wf, hok.nonblock, hok.bytes⟩, fun d hd hlen hrc => ?_⟩
            rcases List.mem_cons.mp hd with rfl | hd
            · -- the buffer is empty and the write end is closed
              rw [pipeReadWait, ringBufferSize] at hwait
              split at hwait
              · next hempty =>
                  split at hwait
                  · next hclosed =>
                      have hall := hok.empty_iff.mp hempty
                      simp [atEof, hclosed, hall]
                  · cases hwait
              · cases hwait
            · exact heof d hd hlen hrc
        · cases hstep
          exact ⟨⟨hok.wf, hok.nonblock, hok.bytes⟩, heof⟩
  | dequeue r =>
      obtain ⟨len, hr, hmap⟩ := Option.bind_eq_some_iff.mp hstep
      obtain ⟨s₁, hs₁, hok₁, hdone⟩ := hok.dequeue r len
      obtain rfl := Option.some.inj (hs₁.symm.trans hmap)
      refine ⟨hok₁, fun d hd hlen hrc => ?_⟩
      rw [hdone] at hd
      rcases List.mem_cons.mp hd with rfl | hd
      · have hempty : s.pipe.pipeBuffer.size = 0 := by
          dsimp only at hlen hrc
          omega
        have hclosed : writeClosed s.pipe = true := by
          rcases hraced with hzero | hne | hclosed
          · rw [hr, Option.getD_some] at hzero
            exact absurd hzero hlen.ne'
          · exact absurd hempty hne
          · exact hclosed
        have hall := hok.empty_iff.mp hempty
        simp [atEof, hclosed, hall]
      · exact heof d hd hlen hrc
  | startWrite w buf =>
      rw [pipeStep] at hstep
      split at hstep
      · cases hstep
      · split at hstep
        · cases hstep
          exact ⟨hok, heof⟩
        · cases hstep
          exact ⟨⟨hok.wf, hok.nonblock, hok.bytes⟩, heof⟩
  | write w =>
      obtain ⟨buf, hw, hmap⟩ := Option.bind_eq_some_iff.mp hstep
      obtain ⟨s₁, hs₁, hok₁, hdone⟩ := hok.write w buf
      obtain rfl := Option.some.inj (hs₁.symm.trans hmap)
      refine ⟨hok₁, fun d hd => ?_⟩
      rw [hdone] at hd
      exact heof d hd
  | closeWrite =>
      cases hstep
      exact ⟨⟨hok.wf, hok.nonblock, hok.bytes⟩, heof⟩
  | closeRead =>
      cases hstep
      exact ⟨⟨hok.wf, hok.nonblock, hok.bytes⟩, heof⟩

theorem pipeStart_ok (rb : RingBuffer) {mem : List UInt8} (hmem : mem.length = pipeBuf) :
    PipeOk (pipeStart rb mem) ∧ EofOk (pipeStart rb mem) := by
  obtain ⟨hwf, hflags, hempty⟩ := ringBufferNonblock_wf rb (by decide) hmem
  refine ⟨⟨hwf, hflags, ?_⟩, fun d hd => ?_⟩
  · show [] = [] ++ ringContents (ringBufferNonblock rb mem pipeBuf)
    rw [hempty]
    rfl
  · cases hd

/-- **The end of a pipe.** In every run in which no reader finds the buffer
emptied by another one while the write end is open, a read of a positive length
returns 0 only when the write end is closed and every byte that was accepted
has been delivered. -/
theorem pipe_eof {rb : RingBuffer} {mem : List UInt8} {acts : List PipeAct} {s : PipeSys}
    (hmem : mem.length = pipeBuf) (hraced : StepsMeet pipeStep NotRaced (pipeStart rb mem) acts)
    (hrun : runSteps pipeStep (pipeStart rb mem) acts = some s) : EofOk s :=
  (runSteps_invariant_of_meet (fun _ _ _ h hr hs => pipeStep_ok h hr hs) (pipeStart_ok rb hmem)
    hraced hrun).2

/-- Two readers of one byte each. -/
def twoReaders : List PipeAct :=
  [.startWrite 0 [7], .write 0, .wait 0 1, .wait 1 1, .dequeue 0, .dequeue 1]

/-- One reader of two bytes, which comes again after the close. -/
theorem pipe_eof_one_reader : ∃ s,
    runSteps pipeStep (pipeStart ⟨0, 0, 0, 0, 0, []⟩ (List.replicate pipeBuf 0))
      [.startWrite 0 [7, 8], .write 0, .wait 0 5, .dequeue 0, .closeWrite, .wait 0 5] = some s ∧
      EofOk s := by
  obtain ⟨s, hs⟩ := Option.isSome_iff_exists.mp
    (show (runSteps pipeStep (pipeStart ⟨0, 0, 0, 0, 0, []⟩ (List.replicate pipeBuf 0))
      [.startWrite 0 [7, 8], .write 0, .wait 0 5, .dequeue 0, .closeWrite, .wait 0 5]).isSome by
        decide +kernel)
  exact ⟨s, hs, pipe_eof (List.length_replicate ..) (by decide +kernel) hs⟩

/-- Both readers see the byte, one takes it, and the other one returns 0 while
the write end is open. -/
theorem pipe_two_readers : ∃ s,
    runSteps pipeStep (pipeStart ⟨0, 0, 0, 0, 0, []⟩ (List.replicate pipeBuf 0)) twoReaders =
      some s ∧ writeClosed s.pipe = false ∧ ⟨1, 0, false⟩ ∈ s.done := by
  have hrun : (runSteps pipeStep (pipeStart ⟨0, 0, 0, 0, 0, []⟩ (List.replicate pipeBuf 0))
      twoReaders).map (fun s => decide (writeClosed s.pipe = false ∧ ⟨1, 0, false⟩ ∈ s.done)) =
      some true := by decide +kernel
  obtain ⟨s, hs, hall⟩ := Option.map_eq_some_iff.mp hrun
  exact ⟨s, hs, of_decide_eq_true hall⟩

end Levos.Kernel
