import Levos.Kernel.Signal

/-!
# Tasks that get signals (`kernel/signal.c`, `kernel/syscall.c`, `kernel/sched.c`)

The tasks of the system as far as signals are concerned: they send and mask
signals, register handlers, are scheduled, return from handlers, fork and
execute other programs. `sig_state` and `current_signal` are meant to say
whether a task is inside a handler; the task itself has this in its user
context only, which is `inHandler` here.

A fork copies the user context and makes new signal state; an execve throws
the user context away and keeps the signal state. Outside of handlers this is
right (`handling_agrees`), inside of them it is not.
-/

namespace Levos.Kernel

open Levos.Base

/-! ## The functions of the source -/

/-- The handlers that `signal_init` leaves. Behind the array is what the
structure has there. -/
def signalReset (behind : Nat → SigHandler) : Nat → SigHandler := fun i =>
  if i < maxSig then .dfl else behind i

/-- A task after `__task_init` with its `signal_init`. -/
def taskInit (pid : Nat) (behind : Nat → SigHandler) : SigTask where
  pid := pid
  state := .preempted
  flags := 0
  status := .none
  exitCode := 0
  pendingSignals := []
  sigState := .null
  currentSignal := none
  sigMask := 0
  signalHandlers := signalReset behind
  dead := false

/-- `copy_signals`. -/
def copySignals (dst src : SigTask) : SigTask :=
  { dst with
      signalHandlers := fun i => if i < maxSig then src.signalHandlers i else dst.signalHandlers i
      sigMask := src.sigMask }

/-- `signal_reset_for_execve`. -/
def signalResetForExecve (task : SigTask) : SigTask :=
  { task with signalHandlers := fun i =>
      if i < maxSig then
        if task.signalHandlers i = .ign then .ign else .dfl
      else task.signalHandlers i }

/-- `signal_register_handler`. -/
def signalRegisterHandler (task : SigTask) (signum : Nat) (handler : SigHandler) : SigTask :=
  -- quietly fail
  if signum = sigkill ∨ signum = sigstop then task
  else { task with signalHandlers := Function.update task.signalHandlers signum handler }

/-- `how` of `sys_sigprocmask`. -/
inductive MaskHow : Type where
  | block | unblock | setmask
deriving DecidableEq, Repr

/-- The mask that `sys_sigprocmask` sets, for a `how` that it knows.
`signal_get_mask` is declared without a result, so that `old_mask` is whatever
its caller finds in the register. -/
def sigprocmaskMask (how : MaskHow) (new oldMask : BitVec 32) : BitVec 32 :=
  match how with
  | .block => oldMask ||| new
  | .unblock => oldMask &&& ~~~new
  | .setmask => new

/-- `__reschedule_to`, up to the switch of stacks, and the signal that was
taken. -/
def rescheduleTo (next : SigTask) : Option (SigTask × Option Signal) :=
  let next := { next with state := .running }
  let handled :=
    if next.flags &&& tflagNoSignal = 0 ∧ taskHasPendingSignals next then signalHandle next
    else some (next, none)
  handled.map fun r =>
    if r.1.state = .running then ({ r.1 with flags := r.1.flags &&& ~~~tflagNoSignal }, r.2)
    else r

/-- `task_runnable`, or the task that runs: those that can be switched to. -/
def canRun (task : SigTask) : Bool :=
  task.state = .new || task.state = .preempted || task.state = .running

/-! ## The system -/

structure SigProc where
  task : SigTask
  inHandler : Bool

/-- The tasks by their pids, and the number of the next `struct signal`. -/
structure SigTable where
  procs : Nat → Option SigProc
  next : Nat

/-- A task does something; `none` for the task is its end. -/
def onProc (s : SigTable) (pid : Nat) (f : SigProc → Option (Option SigProc)) : Option SigTable :=
  (s.procs pid).bind fun p => (f p).map fun p' =>
    { procs := Function.update s.procs pid p', next := s.next + 1 }

inductive SigProcAct : Type where
  | kill (pid signal : Nat)
  | sigprocmask (pid : Nat) (how : MaskHow) (new oldMask : BitVec 32)
  | signal (pid signum : Nat) (handler : SigHandler)
  | resched (pid : Nat)
  | preempt (pid : Nat)
  | ret (pid : Nat)
  | fork (pid child : Nat) (behind : Nat → SigHandler)
  | execve (pid : Nat)

/-- The task goes on in a handler when one was registered for the signal. -/
def entersHandler (task : SigTask) (taken : Option Signal) : Bool :=
  match taken with
  | none => false
  | some signal =>
      match task.signalHandlers signal.id with
      | .user _ => true
      | _ => false

/-- The child of a fork: new signal state, the handlers and the mask of the
parent, and its user context. -/
def forkProc (p : SigProc) (child : Nat) (behind : Nat → SigHandler) : SigProc :=
  ⟨copySignals (taskInit child behind) p.task, p.inHandler⟩

/-- The steps. `sys_kill` reaches groups and sessions by several `kill`s; an
`execve` is one that succeeds; `ret` is the fault at the end of a handler. -/
def sigProcStep (s : SigTable) : SigProcAct → Option SigTable
  | .kill pid signal =>
      if signal = 0 ∨ maxSig < signal then some s
      else onProc s pid fun p => some (some { p with task := (sendSignal p.task s.next signal).1 })
  | .sigprocmask pid how new oldMask =>
      onProc s pid fun p =>
        some (some { p with task := signalSetMask p.task (sigprocmaskMask how new oldMask) })
  | .signal pid signum handler =>
      if maxSig < signum then some s
      else onProc s pid fun p =>
        some (some { p with task := signalRegisterHandler p.task signum handler })
  | .resched pid =>
      onProc s pid fun p =>
        if canRun p.task then
          (rescheduleTo p.task).map fun r =>
            if r.1.dead then none else some ⟨r.1, p.inHandler || entersHandler p.task r.2⟩
        else none
  | .preempt pid =>
      onProc s pid fun p =>
        some (some { p with
          task := if p.task.state = .running then { p.task with state := .preempted } else p.task })
  | .ret pid =>
      onProc s pid fun p =>
        if p.inHandler then (retFromSignal p.task).map fun task => some ⟨task, false⟩ else none
  | .fork pid child behind =>
      if (s.procs child).isSome then none
      else
        (s.procs pid).map fun p =>
          { s with procs := Function.update s.procs child (some (forkProc p child behind)) }
  | .execve pid =>
      onProc s pid fun p => some (some ⟨signalResetForExecve p.task, false⟩)

/-- The first task. -/
def sigBoot (pid : Nat) (behind : Nat → SigHandler) : SigTable where
  procs := fun i => if i = pid then some ⟨taskInit pid behind, false⟩ else none
  next := 0

/-! ## What one step does to a task -/

/-- Every task has the property. -/
def AllProcs (I : SigProc → Prop) (s : SigTable) : Prop := ∀ pid p, s.procs pid = some p → I p

theorem AllProcs.update {I : SigProc → Prop} {s : SigTable} (h : AllProcs I s) {pid next : Nat}
    {o : Option SigProc} (ho : ∀ p, o = some p → I p) :
    AllProcs I ⟨Function.update s.procs pid o, next⟩ := by
  intro q p hp
  have hp' : Function.update s.procs pid o q = some p := hp
  by_cases heq : q = pid
  · rw [heq, Function.update_self] at hp'
    exact ho p hp'
  · rw [Function.update_of_ne heq] at hp'
    exact h q p hp'

theorem AllProcs.onProc {I : SigProc → Prop} {s s' : SigTable} (h : AllProcs I s) {pid : Nat}
    {f : SigProc → Option (Option SigProc)} (hs : onProc s pid f = some s')
    (hf : ∀ p, s.procs pid = some p → ∀ p', f p = some (some p') → I p') : AllProcs I s' := by
  obtain ⟨p, hp, hmap⟩ := Option.bind_eq_some_iff.mp hs
  obtain ⟨o, ho, rfl⟩ := Option.map_eq_some_iff.mp hmap
  exact h.update fun p' hp' => hf p hp p' (hp' ▸ ho)

/-- A signal becomes the current one. -/
def takeSignal (task : SigTask) (signal : Signal) (pending : List Signal) : SigTask :=
  { task with pendingSignals := pending, sigState := .handling, currentSignal := some signal }

/-- What then happens, by the disposition. -/
def disposeSignal (task : SigTask) (signal : Signal) : SigTask :=
  match task.signalHandlers signal.id with
  | .dfl => defaultSigaction task signal
  | .ign => dropCurrent task
  | .user _ => task

/-- What `signal_handle` has done when it took a signal. -/
theorem signalHandle_taken {task task' : SigTask} {signal : Signal}
    (h : signalHandle task = some (task', some signal)) :
    task.sigState = .null ∧ ∃ pre post, task.pendingSignals = pre ++ signal :: post ∧
      AllBlocked task.sigMask pre ∧ signalIsBlocked task.sigMask signal.id = false ∧
      signalScan task.sigMask task.pendingSignals [] = some (.taken signal (post ++ pre)) ∧
      task' = disposeSignal (takeSignal task signal (post ++ pre)) signal := by
  rw [signalHandle] at h
  split at h
  · cases h
  · next hproc =>
      have hidle : task.sigState = .null := by simpa [signalProcessing] using hproc
      have hne : task.pendingSignals ≠ [] := by
        intro hnil
        rw [hnil] at h
        cases h
      refine ⟨hidle, ?_⟩
      rcases signalScan_spec task.sigMask task.pendingSignals [] hne with
        ⟨hall, hs⟩ | ⟨pre, taken, post, hsplit, hpre, hfree, hs⟩
      · rw [hs] at h
        cases h
      · rw [List.nil_append] at hs
        rw [hs] at h
        dsimp only at h
        split at h
        · next hd =>
            cases h
            exact ⟨pre, post, hsplit, hpre, hfree, hs, by simp only [disposeSignal, takeSignal, hd]⟩
        · next hd =>
            cases h
            exact ⟨pre, post, hsplit, hpre, hfree, hs, by simp only [disposeSignal, takeSignal, hd]⟩
        · next addr hd =>
            cases h
            exact ⟨pre, post, hsplit, hpre, hfree, hs, by simp only [disposeSignal, takeSignal, hd]⟩

/-- A call that takes no signal changes nothing. -/
theorem signalHandle_none {task task' : SigTask} (h : signalHandle task = some (task', none)) :
    task' = task := by
  by_cases hidle : task.sigState = .null
  · have hne : task.pendingSignals ≠ [] := by
      intro hnil
      rw [signalHandle, hnil] at h
      simp [signalProcessing, hidle, signalScan] at h
    rcases signalHandle_cases hidle hne with ⟨-, hh⟩ | ⟨_, _, _, _, _, _, _, hh, _⟩
    · exact (Prod.mk.inj (Option.some.inj (h.symm.trans hh))).1
    · cases h.symm.trans hh
  · rw [signalHandle, if_pos (by simpa [signalProcessing] using hidle)] at h
    cases h
    rfl

/-- A task with other flags. -/
def setFlags (task : SigTask) (flags : BitVec 32) : SigTask := { task with flags := flags }

/-- What a switch to a task does: nothing but make it run, or what
`signal_handle` did when it took a signal. -/
theorem rescheduleTo_cases {task task' : SigTask} {taken : Option Signal}
    (h : rescheduleTo task = some (task', taken)) :
    (taken = none ∧ ∃ flags, task' = setFlags { task with state := .running } flags) ∨
    ∃ signal task₁ flags, taken = some signal ∧
      signalHandle { task with state := .running } = some (task₁, some signal) ∧
      task' = setFlags task₁ flags := by
  rw [rescheduleTo] at h
  obtain ⟨⟨task₁, o⟩, hh, heq⟩ := Option.map_eq_some_iff.mp h
  have hflags : ∃ flags, task' = setFlags task₁ flags ∧ taken = o := by
    dsimp only at heq
    split at heq
    · cases heq
      exact ⟨_, rfl, rfl⟩
    · cases heq
      exact ⟨task'.flags, rfl, rfl⟩
  obtain ⟨flags, rfl, rfl⟩ := hflags
  dsimp only at hh
  split at hh
  · cases taken with
    | none =>
        obtain rfl := signalHandle_none hh
        exact .inl ⟨rfl, flags, rfl⟩
    | some signal => exact .inr ⟨signal, task₁, flags, rfl, hh, rfl⟩
  · cases hh
    exact .inl ⟨rfl, flags, rfl⟩

/-- The step of a task that is switched to and lives on. -/
theorem resched_some {p p' : SigProc}
    (h : (if canRun p.task then
      (rescheduleTo p.task).map fun r =>
        if r.1.dead then none else some ⟨r.1, p.inHandler || entersHandler p.task r.2⟩
      else none) = some (some p')) :
    ∃ task' taken, rescheduleTo p.task = some (task', taken) ∧ task'.dead = false ∧
      p' = ⟨task', p.inHandler || entersHandler p.task taken⟩ := by
  split at h
  · obtain ⟨⟨task', taken⟩, hr, heq⟩ := Option.map_eq_some_iff.mp h
    dsimp only at heq
    split at heq
    · cases heq
    · next hlive =>
        cases heq
        exact ⟨task', taken, hr, by simpa using hlive, rfl⟩
  · cases h

/-- What an action makes of the task it is about, and a fork of the parent for
the child. A task that ends is not there afterwards. -/
inductive SigProcStep (s : SigTable) : SigProcAct → Nat → SigProc → SigProc → Prop where
  | send {pid signal : Nat} (p : SigProc) :
      SigProcStep s (.kill pid signal) pid p
        { p with task := (sendSignal p.task s.next signal).1 }
  | setMask {pid : Nat} {how : MaskHow} {new oldMask : BitVec 32} (p : SigProc) :
      SigProcStep s (.sigprocmask pid how new oldMask) pid p
        { p with task := signalSetMask p.task (sigprocmaskMask how new oldMask) }
  | register {pid signum : Nat} {handler : SigHandler} (p : SigProc) :
      SigProcStep s (.signal pid signum handler) pid p
        { p with task := signalRegisterHandler p.task signum handler }
  | resched {pid : Nat} (p : SigProc) {task' : SigTask} {taken : Option Signal}
      (hr : rescheduleTo p.task = some (task', taken)) (hlive : task'.dead = false) :
      SigProcStep s (.resched pid) pid p ⟨task', p.inHandler || entersHandler p.task taken⟩
  | preempt {pid : Nat} (p : SigProc) :
      SigProcStep s (.preempt pid) pid p { p with
        task := if p.task.state = .running then { p.task with state := .preempted } else p.task }
  | ret {pid : Nat} (p : SigProc) {task : SigTask} (ht : retFromSignal p.task = some task) :
      SigProcStep s (.ret pid) pid p ⟨task, false⟩
  | fork {pid child : Nat} {behind : Nat → SigHandler} (p : SigProc) :
      SigProcStep s (.fork pid child behind) pid p (forkProc p child behind)
  | execve {pid : Nat} (p : SigProc) :
      SigProcStep s (.execve pid) pid p ⟨signalResetForExecve p.task, false⟩

/-- **One action.** A property of all tasks is kept when what the action makes
of its task has it. -/
theorem AllProcs.step {I : SigProc → Prop} {s s' : SigTable} {a : SigProcAct} (h : AllProcs I s)
    (hstep : sigProcStep s a = some s')
    (hI : ∀ pid p p', s.procs pid = some p → SigProcStep s a pid p p' → I p') : AllProcs I s' := by
  cases a with
  | kill pid signal =>
      rw [sigProcStep] at hstep
      split at hstep
      · cases hstep
        exact h
      · refine h.onProc hstep fun p hp p' hp' => ?_
        cases hp'
        exact hI pid p _ hp (.send p)
  | sigprocmask pid how new oldMask =>
      refine h.onProc hstep fun p hp p' hp' => ?_
      cases hp'
      exact hI pid p _ hp (.setMask p)
  | signal pid signum handler =>
      rw [sigProcStep] at hstep
      split at hstep
      · cases hstep
        exact h
      · refine h.onProc hstep fun p hp p' hp' => ?_
        cases hp'
        exact hI pid p _ hp (.register p)
  | resched pid =>
      refine h.onProc hstep fun p hp p' hp' => ?_
      obtain ⟨task', taken, hr, hlive, rfl⟩ := resched_some hp'
      exact hI pid p _ hp (.resched p hr hlive)
  | preempt pid =>
      refine h.onProc hstep fun p hp p' hp' => ?_
      cases hp'
      exact hI pid p _ hp (.preempt p)
  | ret pid =>
      refine h.onProc hstep fun p hp p' hp' => ?_
      split at hp'
      · obtain ⟨task, ht, heq⟩ := Option.map_eq_some_iff.mp hp'
        cases heq
        exact hI pid p _ hp (.ret p ht)
      · cases hp'
  | fork pid child behind =>
      rw [sigProcStep] at hstep
      split at hstep
      · cases hstep
      · obtain ⟨p, hp, rfl⟩ := Option.map_eq_some_iff.mp hstep
        refine h.update fun p' hp' => ?_
        cases hp'
        exact hI pid p _ hp (.fork p)
  | execve pid =>
      refine h.onProc hstep fun p hp p' hp' => ?_
      cases hp'
      exact hI pid p _ hp (.execve p)

/-! ## Signal state and handlers -/

/-- `sig_state`, `current_signal` and the user context agree. -/
structure HandlingOk (p : SigProc) : Prop where
  state : p.task.sigState = .handling ↔ p.task.currentSignal.isSome = true
  control : p.task.currentSignal.isSome = true ↔ p.inHandler = true

/-- Steps that keep the three. -/
theorem HandlingOk.congr {p p' : SigProc} (h : HandlingOk p)
    (hstate : p'.task.sigState = p.task.sigState)
    (hcurrent : p'.task.currentSignal = p.task.currentSignal)
    (hcontrol : p'.inHandler = p.inHandler) : HandlingOk p' := by
  constructor
  · rw [hstate, hcurrent]
    exact h.state
  · rw [hcurrent, hcontrol]
    exact h.control

/-- A task outside of signals. -/
theorem HandlingOk.idle {p : SigProc} (hstate : p.task.sigState = .null)
    (hcurrent : p.task.currentSignal = none) (hcontrol : p.inHandler = false) : HandlingOk p := by
  constructor
  · rw [hstate, hcurrent]
    decide
  · rw [hcurrent, hcontrol]
    decide

theorem HandlingOk.idle_of_null {p : SigProc} (h : HandlingOk p) (hnull : p.task.sigState = .null) :
    p.task.currentSignal = none ∧ p.inHandler = false := by
  have hnone : ¬ p.task.currentSignal.isSome = true := by
    rw [← h.state, hnull]
    decide
  refine ⟨by simpa using hnone, ?_⟩
  have hout : ¬ p.inHandler = true := fun hin => hnone (h.control.mpr hin)
  simpa using hout

theorem sendSignal_handling (task : SigTask) (serial signal : Nat) :
    (sendSignal task serial signal).1.sigState = task.sigState ∧
      (sendSignal task serial signal).1.currentSignal = task.currentSignal := by
  rw [sendSignal]
  split_ifs <;> exact ⟨rfl, rfl⟩

/-- The default action ends the task or the signal. -/
theorem defaultSigaction_idle {task : SigTask} {sig : Signal}
    (h : (defaultSigaction task sig).dead = false) :
    (defaultSigaction task sig).sigState = .null ∧
      (defaultSigaction task sig).currentSignal = none := by
  unfold defaultSigaction at h ⊢
  split_ifs at h ⊢
  · exact ⟨rfl, rfl⟩
  · exact ⟨rfl, rfl⟩
  · exact ⟨rfl, rfl⟩
  · cases h

theorem HandlingOk.resched {p : SigProc} (h : HandlingOk p) {task' : SigTask}
    {taken : Option Signal} (hr : rescheduleTo p.task = some (task', taken))
    (hlive : task'.dead = false) :
    HandlingOk ⟨task', p.inHandler || entersHandler p.task taken⟩ := by
  rcases rescheduleTo_cases hr with ⟨rfl, flags, rfl⟩ | ⟨signal, task₁, flags, rfl, hh, rfl⟩
  · exact h.congr rfl rfl (Bool.or_false _)
  · obtain ⟨hnull, pre, post, -, -, -, -, heq⟩ := signalHandle_taken hh
    obtain ⟨-, hout⟩ := h.idle_of_null hnull
    have hlive₁ : task₁.dead = false := hlive
    rw [hout, Bool.false_or, entersHandler]
    rw [disposeSignal] at heq
    dsimp only [takeSignal] at heq
    cases hd : p.task.signalHandlers signal.id with
    | dfl =>
        simp only [hd] at heq
        subst heq
        obtain ⟨hstate, hcurrent⟩ := defaultSigaction_idle hlive₁
        exact HandlingOk.idle hstate hcurrent rfl
    | ign =>
        simp only [hd] at heq
        subst heq
        exact HandlingOk.idle rfl rfl rfl
    | user addr =>
        simp only [hd] at heq
        subst heq
        exact ⟨by simp [setFlags], by simp [setFlags]⟩

/-- The task with the pid is inside a handler. -/
def insideHandler (s : SigTable) (pid : Nat) : Bool :=
  match s.procs pid with
  | some p => p.inHandler
  | none => false

theorem insideHandler_of_some {s : SigTable} {pid : Nat} {p : SigProc} (h : s.procs pid = some p) :
    insideHandler s pid = p.inHandler := by
  rw [insideHandler, h]

/-- No task forks or executes another program from inside a handler. -/
def OutsideHandler (s : SigTable) : SigProcAct → Prop
  | .fork pid _ _ => insideHandler s pid = false
  | .execve pid => insideHandler s pid = false
  | _ => True

instance (s : SigTable) : (a : SigProcAct) → Decidable (OutsideHandler s a)
  | .fork pid _ _ => inferInstanceAs (Decidable (insideHandler s pid = false))
  | .execve pid => inferInstanceAs (Decidable (insideHandler s pid = false))
  | .kill _ _ => isTrue trivial
  | .sigprocmask _ _ _ _ => isTrue trivial
  | .signal _ _ _ => isTrue trivial
  | .resched _ => isTrue trivial
  | .preempt _ => isTrue trivial
  | .ret _ => isTrue trivial

theorem sigProcStep_handling {s s' : SigTable} {a : SigProcAct} (h : AllProcs HandlingOk s)
    (hout : OutsideHandler s a) (hstep : sigProcStep s a = some s') : AllProcs HandlingOk s' := by
  refine h.step hstep fun pid p p' hp hchange => ?_
  have hok := h pid p hp
  cases hchange with
  | send =>
      obtain ⟨hstate, hcurrent⟩ := sendSignal_handling p.task s.next _
      exact hok.congr hstate hcurrent rfl
  | setMask => exact hok.congr rfl rfl rfl
  | register =>
      rw [signalRegisterHandler]
      split
      · exact hok
      · exact hok.congr rfl rfl rfl
  | resched _ hr hlive => exact hok.resched hr hlive
  | preempt =>
      apply hok.congr
      · split <;> rfl
      · split <;> rfl
      · rfl
  | ret _ ht =>
      rw [retFromSignal] at ht
      split at ht
      · cases ht
        exact HandlingOk.idle rfl rfl rfl
      · cases ht
  | fork => exact HandlingOk.idle rfl rfl ((insideHandler_of_some hp).symm.trans hout)
  | execve => exact hok.congr rfl rfl (hout.symm.trans (insideHandler_of_some hp))

theorem sigBoot_handling (pid : Nat) (behind : Nat → SigHandler) :
    AllProcs HandlingOk (sigBoot pid behind) := by
  intro q p hp
  rw [sigBoot] at hp
  dsimp only at hp
  split at hp
  · cases hp
    exact HandlingOk.idle rfl rfl rfl
  · cases hp

/-- What the two fields are for: the assertion of `ret_from_signal` holds at
the end of every handler, and after an execve signals are delivered again. -/
structure HandlingSound (s : SigTable) : Prop where
  agrees : AllProcs HandlingOk s
  returns : ∀ pid p, s.procs pid = some p → p.inHandler = true → retFromSignal p.task ≠ none
  execve : ∀ pid s' p', OutsideHandler s (.execve pid) → sigProcStep s (.execve pid) = some s' →
    s'.procs pid = some p' → taskHasPendingSignals p'.task = !p'.task.pendingSignals.isEmpty

theorem handlingSound_of_all {s : SigTable} (h : AllProcs HandlingOk s) : HandlingSound s := by
  constructor
  case agrees => exact h
  case returns =>
    intro pid p hp hin
    rw [retFromSignal, if_pos ((h pid p hp).control.mpr hin)]
    exact Option.some_ne_none _
  case execve =>
    intro pid s' p' hout hstep hp'
    have h' := sigProcStep_handling h hout hstep pid p' hp'
    obtain ⟨p, hp, hmap⟩ := Option.bind_eq_some_iff.mp hstep
    obtain ⟨o, ho, rfl⟩ := Option.map_eq_some_iff.mp hmap
    cases ho
    have heq : some ⟨signalResetForExecve p.task, false⟩ = some p' :=
      (Function.update_self pid _ s.procs).symm.trans hp'
    cases heq
    have hnull : (signalResetForExecve p.task).sigState ≠ .handling := by
      intro hhandling
      have hin := h'.control.mp (h'.state.mp hhandling)
      cases hin
    rw [taskHasPendingSignals, if_neg hnull]

/-- **Signal state and handlers agree.** As long as no task forks or executes
another program from inside a handler, `sig_state` and `current_signal` of
every task say whether it is inside a handler; then no assertion of
`ret_from_signal` fails, and after an execve signals are deliverable. -/
theorem handling_agrees {pid : Nat} {behind : Nat → SigHandler} {acts : List SigProcAct}
    {s : SigTable} (hout : StepsMeet sigProcStep OutsideHandler (sigBoot pid behind) acts)
    (hrun : runSteps sigProcStep (sigBoot pid behind) acts = some s) : HandlingSound s :=
  handlingSound_of_all
    (runSteps_invariant_of_meet (fun _ _ _ h ho hs => sigProcStep_handling h ho hs)
      (sigBoot_handling pid behind) hout hrun)

/-- A task gets SIGUSR1, for which it has a handler. -/
def usr1Delivered : List SigProcAct :=
  [.signal 5 10 (.user 0x1000), .kill 5 10, .resched 5]

/-- A handler that runs and returns, between a fork and an execve. -/
theorem handling_agrees_usr1 : ∃ s, runSteps sigProcStep (sigBoot 5 fun _ => .dfl)
    (.fork 5 6 (fun _ => .dfl) :: usr1Delivered ++ [.ret 5, .execve 5]) = some s ∧
      HandlingSound s := by
  obtain ⟨s, hs⟩ := Option.isSome_iff_exists.mp
    (show (runSteps sigProcStep (sigBoot 5 fun _ => .dfl)
      (.fork 5 6 (fun _ => .dfl) :: usr1Delivered ++ [.ret 5, .execve 5])).isSome by decide +kernel)
  exact ⟨s, hs, handling_agrees (by decide +kernel) hs⟩

/-- From inside a handler: the child of a fork is in the handler and has no
current signal, so that its return panics; and after an execve a task that is
in no handler has a current signal, and its next signal is not delivered. -/
theorem handling_lost_in_handler :
    (∃ s p, runSteps sigProcStep (sigBoot 5 fun _ => .dfl)
        (usr1Delivered ++ [.fork 5 6 fun _ => .dfl]) = some s ∧
      s.procs 6 = some p ∧ p.inHandler = true ∧ p.task.sigState = .null ∧
      retFromSignal p.task = none) ∧
    ∃ s p, runSteps sigProcStep (sigBoot 5 fun _ => .dfl)
        (usr1Delivered ++ [.execve 5, .kill 5 15]) = some s ∧
      s.procs 5 = some p ∧ p.inHandler = false ∧ p.task.sigState = .handling ∧
      p.task.pendingSignals ≠ [] ∧ taskHasPendingSignals p.task = false := by
  constructor
  · have hrun : (runSteps sigProcStep (sigBoot 5 fun _ => .dfl)
        (usr1Delivered ++ [.fork 5 6 fun _ => .dfl])).bind (fun s => (s.procs 6).map fun p =>
          decide (p.inHandler = true ∧ p.task.sigState = .null) && (retFromSignal p.task).isNone) =
        some true := by decide +kernel
    obtain ⟨s, hs, hproc⟩ := Option.bind_eq_some_iff.mp hrun
    obtain ⟨p, hp, hall⟩ := Option.map_eq_some_iff.mp hproc
    rw [Bool.and_eq_true, decide_eq_true_iff, Option.isNone_iff_eq_none] at hall
    exact ⟨s, p, hs, hp, hall.1.1, hall.1.2, hall.2⟩
  · have hrun : (runSteps sigProcStep (sigBoot 5 fun _ => .dfl)
        (usr1Delivered ++ [.execve 5, .kill 5 15])).bind (fun s => (s.procs 5).map fun p =>
          decide (p.inHandler = false ∧ p.task.sigState = .handling ∧ p.task.pendingSignals ≠ [] ∧
            taskHasPendingSignals p.task = false)) = some true := by decide +kernel
    obtain ⟨s, hs, hproc⟩ := Option.bind_eq_some_iff.mp hrun
    obtain ⟨p, hp, hall⟩ := Option.map_eq_some_iff.mp hproc
    exact ⟨s, p, hs, hp, of_decide_eq_true hall⟩

end Levos.Kernel
