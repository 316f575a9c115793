import Levos.Base.Run
import Levos.Kernel.Task

/-!
# Signal queueing and delivery (`kernel/signal.c`)

`__send_signal` appends a freshly allocated `struct signal` to the task's
pending list; `signal_handle` scans that list for the first signal the mask
lets through. While scanning it pops blocked signals onto a backup list and
queues them again on both ways out, so that nothing is lost is not a matter
of one line: it is `signalScan_spec`.

A signal instance is named by the order of its `malloc` (`serial`): two
SIGUSR1 in flight are two instances. The register context a handler runs on
is not part of this module; neither is the parent's SIGCHLD that `task_exit`
sends, which goes to another task.
-/

namespace Levos.Kernel

open Levos.Base

/-! ## Data model -/

/-- `struct signal`, with the allocation it came from. -/
structure Signal where
  serial : Nat
  id : Nat
deriving DecidableEq, Repr

inductive SigState : Type where
  | null | handling
deriving DecidableEq, Repr

/-- `SIG_DFL`, `SIG_IGN`, or the address of a user function. -/
inductive SigHandler : Type where
  | dfl | ign | user (addr : BitVec 32)
deriving DecidableEq, Repr

/-- The parts of `struct task`, its `signal_struct` and its owning process
that signal delivery reads or writes. `signalHandlers` is indexed by any
signal number: the array has `MAX_SIG` entries, and for number 31 the source
reads the word behind it. `dead` records that `task_exit` has freed the task. -/
structure SigTask where
  pid : Nat
  state : TaskState
  flags : BitVec 32
  status : ProcessStatus       -- owner->status
  exitCode : Nat               -- owner->exit_code
  pendingSignals : List Signal
  sigState : SigState
  currentSignal : Option Signal
  sigMask : BitVec 64
  signalHandlers : Nat → SigHandler
  dead : Bool

/-! ## The functions of the source -/

def taskHasPendingSignals (task : SigTask) : Bool :=
  -- wait until the current signal finishes
  if task.sigState = .handling then false
  else !task.pendingSignals.isEmpty

def signalProcessing (task : SigTask) : Bool := task.sigState ≠ .null

def signalGetDisp (task : SigTask) (signum : Nat) : SigHandler := task.signalHandlers signum

/-- `sig->sig_mask & (1 << signum)`: the shifted `int` is sign extended to the
64 bits of the mask, and the conjunction is returned as an `int`. -/
def signalIsBlocked (sigMask : BitVec 64) (signum : Nat) : Bool :=
  (sigMask &&& ((1#32 <<< signum).signExtend 64)).truncate 32 ≠ 0

def signalSetMask (task : SigTask) (mask : BitVec 32) : SigTask :=
  { task with sigMask := mask.zeroExtend 64 }

/-- `__send_signal` with `sig` the structure `malloc` returned, `serial` its
number. The result says whether the instance was queued. -/
def sendSignal (task : SigTask) (serial signal : Nat) : SigTask × Bool :=
  -- pid 1 only accepts signals it has explicit handlers for
  if task.pid = 1 ∧ (signalGetDisp task signal = .ign ∨ signalGetDisp task signal = .dfl) then
    (task, false)
  else if task.state = .blocked ∧ task.status = .suspended ∧ signal = sigcont then
    ({ task with
        flags := task.flags &&& ~~~tflagWaited
        status := .none
        state := .preempted }, false)
  else
    let task :=
      if task.state = .sleeping then
        { task with flags := task.flags ||| tflagInterrupted, state := .preempted }
      else task
    ({ task with pendingSignals := task.pendingSignals ++ [⟨serial, signal⟩] }, true)

/-- `task_suspend`, without the terminal and the waiters it wakes. -/
def taskSuspend (task : SigTask) (sig : Nat) : SigTask :=
  { task with status := .suspended, exitCode := sig, state := .blocked }

/-- `do_fatal_signal`: the task ends in `task_exit` (which panics for pids 0
and 1; either way nothing more happens to the task). -/
def doFatalSignal (task : SigTask) (signal : Nat) : SigTask :=
  { task with
      status := .deathBySignal
      exitCode := signal
      currentSignal := none
      state := .zombie
      dead := true }

/-- `free(sig)` and back to accepting signals. -/
def dropCurrent (task : SigTask) : SigTask :=
  { task with currentSignal := none, sigState := .null }

def defaultSigaction (task : SigTask) (sig : Signal) : SigTask :=
  if sig.id = sigcont then dropCurrent task
  else if sig.id = sigchld then dropCurrent task
  else if sig.id = sigstop ∨ sig.id = sigtstp ∨ sig.id = sigttou ∨ sig.id = sigttin then
    taskSuspend (dropCurrent task) sig.id
  else doFatalSignal task sig.id

/-- `while (!list_empty(&backup_list))`: pop from the backup, push to the
pending list. -/
def restoreBackup (pending : List Signal) : List Signal → List Signal
  | [] => pending
  | signal :: backup => restoreBackup (pending ++ [signal]) backup

/-- How the scan of `signal_handle` ends. -/
inductive SigScan : Type where
  | blocked (pending : List Signal)                  -- none taken, list put back
  | taken (signal : Signal) (pending : List Signal)
deriving DecidableEq

/-- The `retry:` loop. An empty pending list would pop the list's own tail
sentinel; the callers test for it. -/
def signalScan (sigMask : BitVec 64) : List Signal → List Signal → Option SigScan
  | [], _ => none
  | signal :: pending, backup =>
      if signalIsBlocked sigMask signal.id then
        if pending.isEmpty then
          some (.blocked (restoreBackup pending (backup ++ [signal])))
        else signalScan sigMask pending (backup ++ [signal])
      else some (.taken signal (restoreBackup pending backup))

/-- `signal_handle`, and the signal it takes, if any. -/
def signalHandle (task : SigTask) : Option (SigTask × Option Signal) :=
  if signalProcessing task then some (task, none)
  else
    match signalScan task.sigMask task.pendingSignals [] with
    | none => none
    | some (.blocked pending) => some ({ task with pendingSignals := pending }, none)
    | some (.taken signal pending) =>
        let task := { task with
          pendingSignals := pending, sigState := .handling, currentSignal := some signal }
        match task.signalHandlers signal.id with
        | .dfl => some (defaultSigaction task signal, some signal)
        | .ign => some (dropCurrent task, some signal)
        | .user _ =>
            -- `do_signal_handle` only prepares the handler's stack
            some (task, some signal)

/-- The part of `ret_from_signal` that concerns signal state; its assertion
needs a current signal. -/
def retFromSignal (task : SigTask) : Option SigTask :=
  if task.currentSignal.isSome then
    some { dropCurrent task with
      flags := (task.flags &&& ~~~tflagProcessingSyscall) ||| tflagNoSignal }
  else none

/-! ## The scan loses nothing -/

theorem restoreBackup_eq : ∀ (backup pending : List Signal),
    restoreBackup pending backup = pending ++ backup
  | [], pending => by simp [restoreBackup]
  | signal :: backup, pending => by
      rw [restoreBackup, restoreBackup_eq backup, List.append_assoc]
      rfl

/-- Every signal of the list is blocked by the mask. -/
def AllBlocked (sigMask : BitVec 64) (signals : List Signal) : Prop :=
  ∀ signal ∈ signals, signalIsBlocked sigMask signal.id = true

/-- What a scan that has already moved `backup` aside can end in: the signals
in front of the taken one are all blocked and go, in order, behind the rest. -/
theorem signalScan_spec (sigMask : BitVec 64) : ∀ (pending backup : List Signal),
    pending ≠ [] →
    (AllBlocked sigMask pending ∧
      signalScan sigMask pending backup = some (.blocked (backup ++ pending))) ∨
    (∃ pre signal post, pending = pre ++ signal :: post ∧ AllBlocked sigMask pre ∧
      signalIsBlocked sigMask signal.id = false ∧
      signalScan sigMask pending backup = some (.taken signal (post ++ (backup ++ pre))))
  | [], _, hne => absurd rfl hne
  | signal :: pending, backup, _ => by
      cases hb : signalIsBlocked sigMask signal.id with
      | false =>
          refine Or.inr ⟨[], signal, pending, rfl, by simp [AllBlocked], hb, ?_⟩
          simp [signalScan, hb, restoreBackup_eq]
      | true =>
          cases pending with
          | nil =>
              refine Or.inl ⟨by simpa [AllBlocked] using hb, ?_⟩
              simp [signalScan, hb, restoreBackup_eq]
          | cons next rest =>
              have hscan : signalScan sigMask (signal :: next :: rest) backup =
                  signalScan sigMask (next :: rest) (backup ++ [signal]) := by
                rw [signalScan]
                simp [hb]
              rw [hscan]
              rcases signalScan_spec sigMask (next :: rest) (backup ++ [signal]) (by simp)
                with ⟨hall, hs⟩ | ⟨pre, taken, post, hsplit, hpre, hfree, hs⟩
              · refine Or.inl ⟨?_, by simpa using hs⟩
                intro x hx
                rcases List.mem_cons.mp hx with rfl | hx
                · exact hb
                · exact hall x hx
              · refine Or.inr ⟨signal :: pre, taken, post, by simp [hsplit], ?_, hfree,
                  by simpa using hs⟩
                intro x hx
                rcases List.mem_cons.mp hx with rfl | hx
                · exact hb
                · exact hpre x hx

/-- The disposition runs after the list is settled: it never touches it. -/
theorem defaultSigaction_pending (task : SigTask) (sig : Signal) :
    (defaultSigaction task sig).pendingSignals = task.pendingSignals := by
  unfold defaultSigaction
  split_ifs <;> rfl

/-- `signal_handle` on a task that is not handling a signal: nothing taken and
nothing moved if all is blocked, else the first unblocked signal. -/
theorem signalHandle_cases {task : SigTask} (hidle : task.sigState = .null)
    (hne : task.pendingSignals ≠ []) :
    (AllBlocked task.sigMask task.pendingSignals ∧ signalHandle task = some (task, none)) ∨
    (∃ task' pre signal post, task.pendingSignals = pre ++ signal :: post ∧
      AllBlocked task.sigMask pre ∧ signalIsBlocked task.sigMask signal.id = false ∧
      signalHandle task = some (task', some signal) ∧
      task'.pendingSignals = post ++ pre) := by
  have hproc : signalProcessing task = false := by simp [signalProcessing, hidle]
  rcases signalScan_spec task.sigMask task.pendingSignals [] hne with
    ⟨hall, hs⟩ | ⟨pre, signal, post, hsplit, hpre, hfree, hs⟩
  · exact Or.inl ⟨hall, by simp [signalHandle, hproc, hs]⟩
  · cases hd : task.signalHandlers signal.id with
    | dfl =>
        exact Or.inr ⟨_, pre, signal, post, hsplit, hpre, hfree,
          by simp [signalHandle, hproc, hs, hd]; rfl,
          by rw [defaultSigaction_pending]⟩
    | ign =>
        exact Or.inr ⟨_, pre, signal, post, hsplit, hpre, hfree,
          by simp [signalHandle, hproc, hs, hd]; rfl, by simp [dropCurrent]⟩
    | user addr =>
        exact Or.inr ⟨_, pre, signal, post, hsplit, hpre, hfree,
          by simp [signalHandle, hproc, hs, hd]; rfl, by simp⟩

/-! ## Runs

The system is one task with two histories: the instances queued so far and
the instances taken so far, both by serial number. -/

structure SigSys where
  task : SigTask
  next : Nat
  queued : List Nat
  taken : List Nat

/-- A step of the run. `elsewhere` is whatever the rest of the kernel does to
the task in between (sleeping, stopping, registering handlers): it changes
none of the signal lists. -/
inductive SigAct : Type where
  | send (signal : Nat)
  | setMask (mask : BitVec 32)
  | handle
  | ret
  | elsewhere (state : TaskState) (flags : BitVec 32) (status : ProcessStatus)
      (handlers : Nat → SigHandler)

def sigStart (task : SigTask) : SigSys := ⟨task, 0, [], []⟩

def serials (signals : List Signal) : List Nat := signals.map Signal.serial

/-- A dead task takes no further step. As in `__reschedule_to`, `signal_handle`
is called only when `task_has_pending_signals` says so. -/
def sigStep (s : SigSys) (act : SigAct) : Option SigSys :=
  if s.task.dead then none
  else
    match act with
    | .send signal =>
        let r := sendSignal s.task s.next signal
        some { s with
          task := r.1
          next := s.next + 1
          queued := if r.2 then s.queued ++ [s.next] else s.queued }
    | .setMask mask => some { s with task := signalSetMask s.task mask }
    | .handle =>
        if taskHasPendingSignals s.task then
          (signalHandle s.task).map fun r =>
            { s with task := r.1, taken := s.taken ++ serials r.2.toList }
        else some s
    | .ret => (retFromSignal s.task).map fun task => { s with task := task }
    | .elsewhere state flags status handlers =>
        some { s with
          task := { s.task with
            state := state, flags := flags, status := status, signalHandlers := handlers } }

/-- Queued instances are the taken ones and the pending ones, each once. -/
structure SigInv (s : SigSys) : Prop where
  perm : s.queued.Perm (s.taken ++ serials s.task.pendingSignals)
  nodup : s.queued.Nodup
  fresh : ∀ q ∈ s.queued, q < s.next

/-- `__send_signal` appends the one instance or changes no list. -/
theorem sendSignal_pending (task : SigTask) (serial signal : Nat) :
    (sendSignal task serial signal).1.pendingSignals =
      if (sendSignal task serial signal).2 then task.pendingSignals ++ [⟨serial, signal⟩]
      else task.pendingSignals := by
  unfold sendSignal
  split_ifs <;> simp_all

theorem sigInv_send {s : SigSys} (hinv : SigInv s) (signal : Nat) :
    SigInv { s with
      task := (sendSignal s.task s.next signal).1
      next := s.next + 1
      queued := if (sendSignal s.task s.next signal).2 then s.queued ++ [s.next]
        else s.queued } := by
  have hpend := sendSignal_pending s.task s.next signal
  cases hq : (sendSignal s.task s.next signal).2 with
  | false =>
      rw [hq] at hpend
      refine ⟨by simpa [hpend] using hinv.perm, by simpa using hinv.nodup, ?_⟩
      intro q hmem
      have := hinv.fresh q (by simpa using hmem)
      show q < s.next + 1
      omega
  | true =>
      rw [hq] at hpend
      refine ⟨?_, ?_, ?_⟩
      · simpa [hpend, serials, ← List.append_assoc] using hinv.perm.append_right [s.next]
      · have hnew : s.next ∉ s.queued := fun h => lt_irrefl _ (hinv.fresh _ h)
        exact List.nodup_append.mpr ⟨hinv.nodup, List.nodup_singleton _,
          fun a ha b hb heq => hnew (List.mem_singleton.mp hb ▸ heq ▸ ha)⟩
      · intro q hmem
        show q < s.next + 1
        rcases List.mem_append.mp hmem with h | h
        · have := hinv.fresh q h
          omega
        · have := List.mem_singleton.mp h
          omega

theorem sigInv_handle {s : SigSys} (hinv : SigInv s)
    (hpending : taskHasPendingSignals s.task = true) {r : SigTask × Option Signal}
    (hr : signalHandle s.task = some r) :
    SigInv { s with task := r.1, taken := s.taken ++ serials r.2.toList } := by
  have hidle : s.task.sigState = .null := by
    cases hst : s.task.sigState with
    | null => rfl
    | handling => simp [taskHasPendingSignals, hst] at hpending
  have hne : s.task.pendingSignals ≠ [] := by
    simpa [taskHasPendingSignals, hidle] using hpending
  refine ⟨?_, hinv.nodup, hinv.fresh⟩
  rcases signalHandle_cases hidle hne with
    ⟨-, hh⟩ | ⟨task', pre, signal, post, hsplit, -, -, hh, hpend⟩
  · cases hh.symm.trans hr
    simpa [serials] using hinv.perm
  · cases hh.symm.trans hr
    -- the taken instance moves from the middle of the list to the history
    refine hinv.perm.trans ?_
    show (s.taken ++ serials s.task.pendingSignals).Perm
      ((s.taken ++ serials [signal]) ++ serials task'.pendingSignals)
    rw [hpend, hsplit, List.append_assoc]
    refine List.Perm.append_left _ ?_
    have hmove : (pre ++ signal :: post).Perm (signal :: (post ++ pre)) :=
      List.perm_append_comm.trans (List.Perm.cons signal (List.Perm.refl _))
    simpa [serials] using hmove.map Signal.serial

theorem sigStep_inv (s : SigSys) (act : SigAct) (s' : SigSys) (hinv : SigInv s)
    (hstep : sigStep s act = some s') : SigInv s' := by
  unfold sigStep at hstep
  split at hstep
  · cases hstep
  · cases act with
    | send signal =>
        cases hstep
        exact sigInv_send hinv signal
    | setMask mask =>
        cases hstep
        exact ⟨hinv.perm, hinv.nodup, hinv.fresh⟩
    | handle =>
        simp only at hstep
        split at hstep
        · obtain ⟨r, hr, rfl⟩ := Option.map_eq_some_iff.mp hstep
          exact sigInv_handle hinv ‹_› hr
        · cases hstep
          exact hinv
    | ret =>
        obtain ⟨task, ht, rfl⟩ := Option.map_eq_some_iff.mp hstep
        unfold retFromSignal at ht
        split at ht
        · cases ht
          exact ⟨hinv.perm, hinv.nodup, hinv.fresh⟩
        · cases ht
    | elsewhere state flags status handlers =>
        cases hstep
        exact ⟨hinv.perm, hinv.nodup, hinv.fresh⟩

theorem sigInv_start {task : SigTask} (h : task.pendingSignals = []) :
    SigInv (sigStart task) :=
  ⟨by simp [sigStart, serials, h], by simp [sigStart], by simp [sigStart]⟩

/-- **Signals are neither lost nor duplicated.** One call of `signal_handle`
on a task not handling a signal takes the first pending signal the mask lets
through, leaves every other one pending, and takes nothing and moves nothing
exactly when all are blocked. Over any run, an instance that was queued has
been taken once or is still pending, never both. -/
theorem signals_conserved :
    (∀ task : SigTask, task.sigState = .null → task.pendingSignals ≠ [] →
      ∃ task' taken, signalHandle task = some (task', taken) ∧
        (AllBlocked task.sigMask task.pendingSignals → taken = none ∧ task' = task) ∧
        (¬ AllBlocked task.sigMask task.pendingSignals →
          ∃ pre signal post, task.pendingSignals = pre ++ signal :: post ∧
            AllBlocked task.sigMask pre ∧ signalIsBlocked task.sigMask signal.id = false ∧
            taken = some signal ∧
            (task.pendingSignals : Multiset Signal) =
              signal ::ₘ (task'.pendingSignals : Multiset Signal))) ∧
    (∀ (task : SigTask) (acts : List SigAct) (s : SigSys), task.pendingSignals = [] →
      runSteps sigStep (sigStart task) acts = some s →
      s.queued.Nodup ∧ s.taken.Nodup ∧ (∀ q ∈ s.taken, q ∈ s.queued) ∧
        ∀ q ∈ s.queued, q ∉ s.taken ↔ q ∈ serials s.task.pendingSignals) := by
  constructor
  · intro task hidle hne
    rcases signalHandle_cases hidle hne with
      ⟨hall, hh⟩ | ⟨task', pre, signal, post, hsplit, hpre, hfree, hh, hpend⟩
    · exact ⟨task, none, hh, fun _ => ⟨rfl, rfl⟩, fun h => absurd hall h⟩
    · refine ⟨task', some signal, hh, ?_, fun _ =>
        ⟨pre, signal, post, hsplit, hpre, hfree, rfl, ?_⟩⟩
      · intro hall
        have := hall signal (by rw [hsplit]; simp)
        rw [hfree] at this
        cases this
      · rw [hsplit, hpend, Multiset.cons_coe, Multiset.coe_eq_coe]
        exact List.perm_append_comm.trans (List.Perm.cons signal (List.Perm.refl _))
  · intro task acts s hempty hrun
    have hinv := runSteps_invariant sigStep_inv (sigInv_start hempty) hrun
    have hboth : (s.taken ++ serials s.task.pendingSignals).Nodup := hinv.perm.nodup hinv.nodup
    obtain ⟨htaken, -, hdisj⟩ := List.nodup_append.mp hboth
    refine ⟨hinv.nodup, htaken, fun q hq => hinv.perm.mem_iff.mpr (by simp [hq]), ?_⟩
    intro q hq
    have hmem := List.mem_append.mp (hinv.perm.mem_iff.mp hq)
    constructor
    · intro hnot
      exact hmem.resolve_left hnot
    · intro hpend htak
      exact hdisj q htak q hpend rfl

/-- SIGUSR1 blocked in front of a deliverable SIGINT, on one task: the second
signal is the one taken, and the first stays. -/
theorem signals_conserved_sigusr1_blocked :
    ∃ task' taken, signalHandle
        ⟨5, .running, 0, .none, 0, [⟨0, 10⟩, ⟨1, 2⟩], .null, none, 1 <<< 10,
          fun _ => .user 0x1000, false⟩ = some (task', taken) ∧
      ∃ signal, taken = some signal ∧
        (([⟨0, 10⟩, ⟨1, 2⟩] : List Signal) : Multiset Signal) =
          signal ::ₘ (task'.pendingSignals : Multiset Signal) := by
  obtain ⟨task', taken, hh, -, hfree⟩ := signals_conserved.1
    ⟨5, .running, 0, .none, 0, [⟨0, 10⟩, ⟨1, 2⟩], .null, none, 1 <<< 10,
      fun _ => .user 0x1000, false⟩ rfl (by simp)
  have hnot : ¬ AllBlocked (1 <<< 10) [⟨0, 10⟩, ⟨1, 2⟩] := by
    intro h
    have := h ⟨1, 2⟩ (by simp)
    revert this
    decide
  obtain ⟨pre, signal, post, -, -, -, ht, hm⟩ := hfree hnot
  exact ⟨task', taken, hh, signal, ht, hm⟩

end Levos.Kernel
