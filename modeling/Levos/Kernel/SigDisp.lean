import Levos.Kernel.SigProcs

/-!
# Dispositions of signals (`kernel/signal.c`)

`signal_handlers` has `MAX_SIG` entries, from 0 on, and the loops over it stop
there; the test of a signal number accepts `MAX_SIG` itself. What the source
takes for the entry of that number is the word behind the array, `cwd` of
`struct task`: a handler registered for it replaces the working directory, and
no fork or execve treats it as a disposition.
-/

namespace Levos.Kernel

open Levos.Base

/-! ## What is said of a signal number -/

/-- `signal_is_signum_valid`, with `MIN_SIG` 0. -/
def signalIsSignumValid (signum : Int) : Bool := 0 ≤ signum ∧ signum ≤ maxSig

/-- The task with other fields behind `signal_handlers`. -/
def SigTask.withBehind (task : SigTask) (behind : Nat → SigHandler) : SigTask :=
  { task with signalHandlers := fun i => if i < maxSig then task.signalHandlers i else behind i }

/-- The tasks differ in nothing but the dispositions, and there only in the one
of `signum`. -/
structure OnlyEntry (signum : Nat) (task task' : SigTask) : Prop where
  entries : ∀ i < maxSig, i ≠ signum → task'.signalHandlers i = task.signalHandlers i
  behind : ∀ i, maxSig ≤ i → task'.signalHandlers i = task.signalHandlers i
  fields : { task' with signalHandlers := task.signalHandlers } = task

/-- Every use of the signal keeps to its own entry: registering a handler
changes nothing else, reading gives what the array has, sending and delivering
change no entry and find the disposition there; a fork copies the entry, and an
execve resets it unless it is ignored. -/
structure DispositionRight (task : SigTask) (signum : Nat) : Prop where
  registered : ∀ handler, OnlyEntry signum task (signalRegisterHandler task signum handler)
  read : ∀ behind, signalGetDisp (task.withBehind behind) signum = signalGetDisp task signum
  sent : ∀ serial, (sendSignal task serial signum).1.signalHandlers = task.signalHandlers ∧
    ∀ behind, sendSignal (task.withBehind behind) serial signum =
      ((sendSignal task serial signum).1.withBehind behind, (sendSignal task serial signum).2)
  delivered : ∀ task' signal, signal.id = signum → signalHandle task = some (task', some signal) →
    task'.signalHandlers = task.signalHandlers ∧
      ∀ behind, signalHandle (task.withBehind behind) =
        some (task'.withBehind behind, some signal)
  forked : ∀ child behind,
    (copySignals (taskInit child behind) task).signalHandlers signum = task.signalHandlers signum
  execved : task.signalHandlers signum ≠ .ign →
    (signalResetForExecve task).signalHandlers signum = .dfl

/-! ## Numbers with an entry -/

variable {task task' : SigTask} {signum : Nat}

theorem SigTask.withBehind_entry (behind : Nat → SigHandler) (h : signum < maxSig) :
    (task.withBehind behind).signalHandlers signum = task.signalHandlers signum :=
  if_pos h

theorem signalRegisterHandler_onlyEntry (h : signum < maxSig) (handler : SigHandler) :
    OnlyEntry signum task (signalRegisterHandler task signum handler) := by
  unfold signalRegisterHandler
  split
  · exact ⟨fun _ _ _ => rfl, fun _ _ => rfl, rfl⟩
  · refine ⟨fun i _ hne => Function.update_of_ne hne _ _, fun i hi => ?_, rfl⟩
    exact Function.update_of_ne (show i ≠ signum by omega) _ _

theorem sendSignal_handlers (task : SigTask) (serial signal : Nat) :
    (sendSignal task serial signal).1.signalHandlers = task.signalHandlers := by
  unfold sendSignal
  split_ifs <;> rfl

theorem sendSignal_withBehind (h : signum < maxSig) (serial : Nat) (behind : Nat → SigHandler) :
    sendSignal (task.withBehind behind) serial signum =
      ((sendSignal task serial signum).1.withBehind behind,
        (sendSignal task serial signum).2) := by
  have hdisp : signalGetDisp (task.withBehind behind) signum = signalGetDisp task signum :=
    SigTask.withBehind_entry behind h
  have hfields : (task.withBehind behind).pid = task.pid ∧
      (task.withBehind behind).state = task.state ∧
      (task.withBehind behind).status = task.status := ⟨rfl, rfl, rfl⟩
  unfold sendSignal
  rw [hdisp, hfields.1, hfields.2.1, hfields.2.2]
  split_ifs <;> rfl

theorem defaultSigaction_handlers (task : SigTask) (signal : Signal) :
    (defaultSigaction task signal).signalHandlers = task.signalHandlers := by
  unfold defaultSigaction
  split_ifs <;> rfl

theorem defaultSigaction_withBehind (task : SigTask) (behind : Nat → SigHandler)
    (signal : Signal) :
    defaultSigaction (task.withBehind behind) signal =
      (defaultSigaction task signal).withBehind behind := by
  unfold defaultSigaction
  split_ifs <;> rfl

theorem disposeSignal_handlers (task : SigTask) (signal : Signal) :
    (disposeSignal task signal).signalHandlers = task.signalHandlers := by
  unfold disposeSignal
  split
  · exact defaultSigaction_handlers task signal
  · rfl
  · rfl

theorem disposeSignal_withBehind {signal : Signal} (h : signal.id < maxSig)
    (behind : Nat → SigHandler) :
    disposeSignal (task.withBehind behind) signal =
      (disposeSignal task signal).withBehind behind := by
  unfold disposeSignal
  rw [SigTask.withBehind_entry behind h]
  split
  · exact defaultSigaction_withBehind task behind signal
  · rfl
  · rfl

/-- A signal that the scan takes is disposed of. -/
theorem signalHandle_of_scan {signal : Signal} {pending : List Signal}
    (hidle : task.sigState = .null)
    (hscan : signalScan task.sigMask task.pendingSignals [] = some (.taken signal pending)) :
    signalHandle task =
      some (disposeSignal (takeSignal task signal pending) signal, some signal) := by
  have hproc : ¬signalProcessing task = true := by simp [signalProcessing, hidle]
  rw [signalHandle, if_neg hproc, hscan]
  dsimp only [disposeSignal, takeSignal]
  cases task.signalHandlers signal.id <;> rfl

theorem signalHandle_withBehind {signal : Signal} (hid : signal.id < maxSig)
    (h : signalHandle task = some (task', some signal)) (behind : Nat → SigHandler) :
    signalHandle (task.withBehind behind) = some (task'.withBehind behind, some signal) := by
  obtain ⟨hidle, pre, post, -, -, -, hscan, rfl⟩ := signalHandle_taken h
  have htask : takeSignal (task.withBehind behind) signal (post ++ pre) =
      (takeSignal task signal (post ++ pre)).withBehind behind := rfl
  have hbehind : (task.withBehind behind).sigState = .null := hidle
  rw [signalHandle_of_scan hbehind hscan, htask, disposeSignal_withBehind hid]

theorem dispositionRight_of_lt (h : signum < maxSig) : DispositionRight task signum where
  registered := signalRegisterHandler_onlyEntry h
  read behind := SigTask.withBehind_entry behind h
  sent serial := ⟨sendSignal_handlers task serial signum, sendSignal_withBehind h serial⟩
  delivered task' signal hid htaken := by
    refine ⟨?_, signalHandle_withBehind (hid ▸ h) htaken⟩
    obtain ⟨-, pre, post, -, -, -, -, rfl⟩ := signalHandle_taken htaken
    exact disposeSignal_handlers _ signal
  forked child behind := if_pos h
  execved hign := by
    show (if signum < maxSig then if task.signalHandlers signum = .ign then .ign else .dfl
      else task.signalHandlers signum) = SigHandler.dfl
    rw [if_pos h, if_neg hign]

/-! ## The number behind the array -/

/-- What is behind the array is not a disposition. -/
theorem dispositionRight_lt (h : DispositionRight task signum) : signum < maxSig := by
  by_contra hout
  have hread : ∀ behind : Nat → SigHandler, behind signum = task.signalHandlers signum :=
    fun behind => (if_neg hout).symm.trans (h.read behind)
  have hsame := (hread fun _ => .dfl).trans (hread fun _ => .ign).symm
  cases hsame

/-- **When a disposition is the signal's own.** For every task, the numbers that
`signal_is_signum_valid` accepts are used as they should exactly when they are
below `MAX_SIG`. -/
theorem disposition_iff (task : SigTask) {signum : Int} (hvalid : signalIsSignumValid signum) :
    DispositionRight task signum.toNat ↔ signum ≠ maxSig := by
  have hrange : 0 ≤ signum ∧ signum ≤ maxSig := by simpa [signalIsSignumValid] using hvalid
  constructor
  · intro hright heq
    have hlt := dispositionRight_lt hright
    omega
  · intro hne
    exact dispositionRight_of_lt (by omega)

theorem disposition_sigpwr :
    signalIsSignumValid 30 = true ∧ DispositionRight (taskInit 2 fun _ => .user 0xc0100000) 30 :=
  ⟨by decide, (disposition_iff (taskInit 2 fun _ => .user 0xc0100000)
    (show signalIsSignumValid 30 = true by decide)).mpr (by decide)⟩

/-- Registering a handler for signal 31 writes it over `cwd`. -/
theorem disposition_over_cwd :
    signalIsSignumValid 31 = true ∧
      ¬DispositionRight (taskInit 2 fun _ => .user 0xc0100000) 31 := by
  refine ⟨by decide, fun h => ?_⟩
  have hcwd := (h.registered (.user 0x08048000)).behind 31 (by decide)
  revert hcwd
  decide

end Levos.Kernel
