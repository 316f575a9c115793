import Levos.Kernel.SigProcs

/-!
# SIGKILL

SIGKILL cannot be caught or ignored: `signal_register_handler` refuses it. It
can be masked, since `sys_sigprocmask` takes every mask as it is, and it can
wait at a stopped task, since only SIGCONT wakes one up. `sigkill_wins` is what
is left of "SIGKILL always wins" when neither happens.
-/

namespace Levos.Kernel

open Levos.Base

/-- A SIGKILL is pending. -/
def killPending (task : SigTask) : Bool := task.pendingSignals.any fun sig => sig.id = sigkill

/-- A signal whose default action stops the task. -/
def isStop (signum : Nat) : Bool :=
  signum = sigstop || signum = sigtstp || signum = sigttou || signum = sigttin

/-- The signal that `signal_handle` finds first stops the task. -/
def stopsFirst (task : SigTask) : Bool :=
  match signalScan task.sigMask task.pendingSignals [] with
  | some (.taken sig _) => isStop sig.id && task.signalHandlers sig.id = .dfl
  | _ => false

/-! ## The invariant -/

structure KillOk (p : SigProc) : Prop where
  disp : p.task.signalHandlers sigkill = .dfl
  mask : signalIsBlocked p.task.sigMask sigkill = false
  alive : p.task.state = .running ∨ p.task.state = .preempted ∨ p.task.state = .blocked
  runs : killPending p.task = true → p.task.state ≠ .blocked

/-- A mask without SIGKILL, SIGKILL only for tasks that are not stopped, and no
stop in front of a pending SIGKILL. -/
def KillUse (s : SigTable) : SigProcAct → Prop
  | .sigprocmask _ how new oldMask =>
      signalIsBlocked ((sigprocmaskMask how new oldMask).zeroExtend 64) sigkill = false
  | .kill pid signal => signal = sigkill →
      ((s.procs pid).all fun p => p.task.pid = 1 || p.task.state ≠ .blocked) = true
  | .resched pid =>
      ((s.procs pid).all fun p => !(killPending p.task && stopsFirst p.task)) = true
  | _ => True

instance (s : SigTable) : (a : SigProcAct) → Decidable (KillUse s a)
  | .sigprocmask _ how new oldMask => inferInstanceAs (Decidable
      (signalIsBlocked ((sigprocmaskMask how new oldMask).zeroExtend 64) sigkill = false))
  | .kill pid signal => inferInstanceAs (Decidable (signal = sigkill →
      ((s.procs pid).all fun p => p.task.pid = 1 || p.task.state ≠ .blocked) = true))
  | .resched pid => inferInstanceAs (Decidable
      (((s.procs pid).all fun p => !(killPending p.task && stopsFirst p.task)) = true))
  | .signal _ _ _ => isTrue trivial
  | .preempt _ => isTrue trivial
  | .ret _ => isTrue trivial
  | .fork _ _ _ => isTrue trivial
  | .execve _ => isTrue trivial

/-- Steps that change neither the list nor the dispositions nor the mask, and
do not block the task. -/
theorem KillOk.congr {p p' : SigProc} (h : KillOk p)
    (hdisp : p'.task.signalHandlers sigkill = p.task.signalHandlers sigkill)
    (hmask : p'.task.sigMask = p.task.sigMask)
    (hpending : p'.task.pendingSignals = p.task.pendingSignals)
    (hstate : p'.task.state = p.task.state ∨ p'.task.state = .running ∨
      p'.task.state = .preempted) : KillOk p' := by
  constructor
  case disp => exact hdisp.trans h.disp
  case mask => exact hmask ▸ h.mask
  case alive =>
    rcases hstate with heq | hrun | hpre
    · exact heq ▸ h.alive
    · exact .inl hrun
    · exact .inr (.inl hpre)
  case runs =>
    intro hkill
    rw [killPending, hpending] at hkill
    rcases hstate with heq | hrun | hpre
    · exact heq ▸ h.runs hkill
    · rw [hrun]
      decide
    · rw [hpre]
      decide

theorem killPending_append (task : SigTask) (sig : Signal) :
    killPending { task with pendingSignals := task.pendingSignals ++ [sig] } =
      (killPending task || decide (sig.id = sigkill)) := by
  simp [killPending]

/-- `__send_signal`. -/
theorem KillOk.send {p : SigProc} (h : KillOk p) (serial signal : Nat)
    (huse : signal = sigkill → p.task.pid = 1 ∨ p.task.state ≠ .blocked) :
    KillOk { p with task := (sendSignal p.task serial signal).1 } := by
  rw [sendSignal]
  split
  · exact h
  · next hinit =>
      split
      · exact h.congr rfl rfl rfl (.inr (.inr rfl))
      · have hsleep : p.task.state ≠ .sleeping := by
          rcases h.alive with heq | heq | heq <;> rw [heq] <;> decide
        rw [if_neg hsleep]
        refine ⟨h.disp, h.mask, h.alive, fun hkill => ?_⟩
        rw [killPending_append, Bool.or_eq_true, decide_eq_true_iff] at hkill
        rcases hkill with hkill | rfl
        · exact h.runs hkill
        · -- pid 1 does not take SIGKILL at all
          refine (huse rfl).resolve_left fun hpid => hinit ⟨hpid, .inr h.disp⟩

/-- The default action stops the task only for stop signals. -/
theorem defaultSigaction_state {task : SigTask} {sig : Signal} (hrun : task.state = .running)
    (hlive : (defaultSigaction task sig).dead = false) :
    (defaultSigaction task sig).state = .running ∨
      (isStop sig.id = true ∧ (defaultSigaction task sig).state = .blocked) := by
  unfold defaultSigaction at hlive ⊢
  split_ifs at hlive ⊢ with hcont hchld hstop
  · exact .inl hrun
  · exact .inl hrun
  · exact .inr ⟨by simpa [isStop, or_assoc] using hstop, rfl⟩
  · cases hlive

theorem defaultSigaction_disp (task : SigTask) (sig : Signal) :
    (defaultSigaction task sig).signalHandlers = task.signalHandlers ∧
      (defaultSigaction task sig).sigMask = task.sigMask := by
  unfold defaultSigaction
  split_ifs <;> exact ⟨rfl, rfl⟩

theorem KillOk.resched {p : SigProc} (h : KillOk p)
    (huse : killPending p.task = true → stopsFirst p.task = false) {task' : SigTask}
    {taken : Option Signal} (hr : rescheduleTo p.task = some (task', taken))
    (hlive : task'.dead = false) (inHandler : Bool) : KillOk ⟨task', inHandler⟩ := by
  rcases rescheduleTo_cases hr with ⟨rfl, flags, rfl⟩ | ⟨sig, task₁, flags, rfl, hh, rfl⟩
  · exact h.congr rfl rfl rfl (.inr (.inl rfl))
  · obtain ⟨-, pre, post, hsplit, -, -, hscan, heq⟩ := signalHandle_taken hh
    dsimp only at hsplit hscan
    have hlive₁ : task₁.dead = false := hlive
    have hstops : stopsFirst p.task = (isStop sig.id && p.task.signalHandlers sig.id = .dfl) := by
      rw [stopsFirst, hscan]
    -- what is pending afterwards was pending before
    have hless : ∀ q : SigProc, q.task.pendingSignals = post ++ pre →
        killPending q.task = true → killPending p.task = true := by
      intro q hq hkill
      rw [killPending, hq, List.any_append, Bool.or_eq_true] at hkill
      rw [killPending, hsplit, List.any_append, List.any_cons, Bool.or_eq_true, Bool.or_eq_true]
      tauto
    have hrunning : ∀ q : SigProc, q.task.signalHandlers = p.task.signalHandlers →
        q.task.sigMask = p.task.sigMask → q.task.state = .running → KillOk q := by
      intro q hdisp hmask hstate
      refine ⟨hdisp ▸ h.disp, hmask ▸ h.mask, .inl hstate, fun _ => ?_⟩
      rw [hstate]
      decide
    rw [disposeSignal] at heq
    dsimp only [takeSignal] at heq
    cases hd : p.task.signalHandlers sig.id with
    | dfl =>
        simp only [hd] at heq
        subst heq
        obtain ⟨hdisp, hmask⟩ := defaultSigaction_disp
          { p.task with state := .running, pendingSignals := post ++ pre, sigState := .handling,
                        currentSignal := some sig } sig
        rcases defaultSigaction_state rfl hlive₁ with hstate | ⟨hstop, hstate⟩
        · exact hrunning _ hdisp hmask hstate
        · refine ⟨(congrFun hdisp _).trans h.disp, ?_, .inr (.inr hstate), fun hkill => ?_⟩
          · exact (congrArg (fun mask => signalIsBlocked mask sigkill) hmask).trans h.mask
          · have hold := hless ⟨_, inHandler⟩ (defaultSigaction_pending _ _) hkill
            have hfirst := huse hold
            rw [hstops, hstop, hd] at hfirst
            simp at hfirst
    | ign =>
        simp only [hd] at heq
        subst heq
        exact hrunning _ rfl rfl rfl
    | user addr =>
        simp only [hd] at heq
        subst heq
        exact hrunning _ rfl rfl rfl

theorem sigProcStep_kill {s s' : SigTable} {a : SigProcAct} (h : AllProcs KillOk s)
    (huse : KillUse s a) (hstep : sigProcStep s a = some s') : AllProcs KillOk s' := by
  refine h.step hstep fun pid p p' hp hchange => ?_
  have hok := h pid p hp
  cases hchange with
  | send =>
      refine hok.send _ _ fun hkill => ?_
      have hall := huse hkill
      rw [hp, Option.all_some] at hall
      simpa using hall
  | setMask => exact ⟨hok.disp, huse, hok.alive, hok.runs⟩
  | register =>
      rw [signalRegisterHandler]
      split
      · exact hok
      · next hne =>
          refine hok.congr ?_ rfl rfl (.inl rfl)
          exact Function.update_of_ne (fun heq => hne (.inl heq.symm)) _ _
  | resched _ hr hlive =>
      refine hok.resched (fun hkill => ?_) hr hlive _
      have hall : ((s.procs pid).all fun p => !(killPending p.task && stopsFirst p.task)) = true :=
        huse
      rw [hp, Option.all_some, hkill] at hall
      simpa using hall
  | preempt =>
      dsimp only
      split
      · exact hok.congr rfl rfl rfl (.inr (.inr rfl))
      · exact hok
  | ret _ ht =>
      rw [retFromSignal] at ht
      split at ht
      · cases ht
        exact hok.congr rfl rfl rfl (.inl rfl)
      · cases ht
  | fork =>
      refine ⟨hok.disp, hok.mask, .inr (.inl rfl), fun hkill => ?_⟩
      cases hkill
  | execve =>
      refine hok.congr ?_ rfl rfl (.inl rfl)
      simp [signalResetForExecve, hok.disp]

theorem sigBoot_kill (pid : Nat) (behind : Nat → SigHandler) :
    AllProcs KillOk (sigBoot pid behind) := by
  intro q p hp
  rw [sigBoot] at hp
  dsimp only at hp
  split at hp
  · cases hp
    have hmask : signalIsBlocked 0 sigkill = false := by decide
    refine ⟨rfl, hmask, .inr (.inl rfl), fun hkill => ?_⟩
    cases hkill
  · cases hp

/-! ## Runs -/

/-- A pending SIGKILL will end the task: the task can run, the signal is not
masked and has its default action, and a `signal_handle` that takes it kills. -/
structure KillWins (task : SigTask) : Prop where
  runnable : canRun task = true
  unmasked : signalIsBlocked task.sigMask sigkill = false
  notCaught : task.signalHandlers sigkill = .dfl
  kills : ∀ task' sig, signalHandle task = some (task', some sig) → sig.id = sigkill →
    task'.dead = true

theorem KillOk.wins {p : SigProc} (h : KillOk p) (hkill : killPending p.task = true) :
    KillWins p.task := by
  constructor
  case runnable =>
    rcases h.alive with heq | heq | heq
    · simp [canRun, heq]
    · simp [canRun, heq]
    · exact absurd heq (h.runs hkill)
  case unmasked => exact h.mask
  case notCaught => exact h.disp
  case kills =>
    intro task' sig hh hid
    obtain ⟨-, pre, post, -, -, -, -, rfl⟩ := signalHandle_taken hh
    have hdisp : (takeSignal p.task sig (post ++ pre)).signalHandlers sig.id = .dfl := by
      rw [hid]
      exact h.disp
    rw [disposeSignal, hdisp]
    dsimp only
    rw [defaultSigaction, hid]
    rfl

/-- **SIGKILL wins** in every run in which no mask has SIGKILL in it, SIGKILL is
not sent to a stopped task, and no task takes a stop signal in front of a
pending SIGKILL. -/
theorem sigkill_wins {pid : Nat} {behind : Nat → SigHandler} {acts : List SigProcAct}
    {s : SigTable} (huse : StepsMeet sigProcStep KillUse (sigBoot pid behind) acts)
    (hrun : runSteps sigProcStep (sigBoot pid behind) acts = some s) :
    ∀ q p, s.procs q = some p → p.task.pid ≠ 1 → killPending p.task = true → KillWins p.task := by
  have h := runSteps_invariant_of_meet (fun _ _ _ hok hu hs => sigProcStep_kill hok hu hs)
    (sigBoot_kill pid behind) huse hrun
  intro q p hp _ hkill
  exact (h q p hp).wins hkill

/-- A child with a handler for SIGTERM that gets SIGTERM and SIGKILL. -/
theorem sigkill_wins_child : ∃ s p,
    runSteps sigProcStep (sigBoot 5 fun _ => .dfl)
      [.signal 5 15 (.user 0x1000), .fork 5 6 fun _ => .dfl, .kill 6 15, .kill 6 9] = some s ∧
      s.procs 6 = some p ∧ killPending p.task = true ∧ KillWins p.task := by
  have hrun : (runSteps sigProcStep (sigBoot 5 fun _ => .dfl)
      [.signal 5 15 (.user 0x1000), .fork 5 6 fun _ => .dfl, .kill 6 15, .kill 6 9]).bind
        (fun s => (s.procs 6).map fun p => decide (p.task.pid ≠ 1) && killPending p.task) =
      some true := by decide +kernel
  obtain ⟨s, hs, hproc⟩ := Option.bind_eq_some_iff.mp hrun
  obtain ⟨p, hp, hall⟩ := Option.map_eq_some_iff.mp hproc
  rw [Bool.and_eq_true, decide_eq_true_iff] at hall
  exact ⟨s, p, hs, hp, hall.2, sigkill_wins (by decide +kernel) hs 6 p hp hall.1 hall.2⟩

/-- A task that masks SIGKILL, and a task that is stopped when it gets it. -/
theorem sigkill_masked_or_stopped :
    (∃ s p, runSteps sigProcStep (sigBoot 5 fun _ => .dfl)
        [.sigprocmask 5 .setmask 0x200 0, .kill 5 9, .resched 5] = some s ∧
      s.procs 5 = some p ∧ p.task.pid = 5 ∧ killPending p.task = true ∧
      signalIsBlocked p.task.sigMask sigkill = true) ∧
    ∃ s p, runSteps sigProcStep (sigBoot 5 fun _ => .dfl)
        [.kill 5 19, .resched 5, .kill 5 9] = some s ∧
      s.procs 5 = some p ∧ p.task.pid = 5 ∧ killPending p.task = true ∧
      canRun p.task = false := by
  constructor
  · have hrun : (runSteps sigProcStep (sigBoot 5 fun _ => .dfl)
        [.sigprocmask 5 .setmask 0x200 0, .kill 5 9, .resched 5]).bind
          (fun s => (s.procs 5).map fun p => decide (p.task.pid = 5 ∧ killPending p.task = true ∧
            signalIsBlocked p.task.sigMask sigkill = true)) = some true := by decide +kernel
    obtain ⟨s, hs, hproc⟩ := Option.bind_eq_some_iff.mp hrun
    obtain ⟨p, hp, hall⟩ := Option.map_eq_some_iff.mp hproc
    exact ⟨s, p, hs, hp, of_decide_eq_true hall⟩
  · have hrun : (runSteps sigProcStep (sigBoot 5 fun _ => .dfl)
        [.kill 5 19, .resched 5, .kill 5 9]).bind
          (fun s => (s.procs 5).map fun p => decide (p.task.pid = 5 ∧ killPending p.task = true ∧
            canRun p.task = false)) = some true := by decide +kernel
    obtain ⟨s, hs, hproc⟩ := Option.bind_eq_some_iff.mp hrun
    obtain ⟨p, hp, hall⟩ := Option.map_eq_some_iff.mp hproc
    exact ⟨s, p, hs, hp, of_decide_eq_true hall⟩

end Levos.Kernel
