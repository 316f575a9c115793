import Levos.Kernel.ProcSteps

/-!
# The window of `sys_waitpid` (`sys_waitpid`, `task_do_wait`, `task_exit`)

`Levos.Kernel.Wait` takes a blocking `sys_waitpid` as one step. The kernel can
be preempted between the check `target->task == NULL` and the call of
`task_do_wait`, so here the call is cut in two: `check` runs it up to the
point where it would block, `enqueue` is `process_add_waiter` together with
`task_block`. Every other step of the process table may come in between.

`waiters_live` says that no task sleeps on an ended process as long as no
process ends inside a window that is open on it; `waiter_on_ended_process` is
the run in which one does.
-/

namespace Levos.Kernel

open Levos.Base

/-! ## The interleaved system -/

/-- `checked p` is the process a call of `p` has found alive and is about to
block on. `asleep p` is the one `p` has called `task_block` for and was not
unblocked from since. -/
structure Race where
  table : Procs
  checked : Nat → Option Nat
  asleep : Nat → Option Nat

inductive RaceAct : Type where
  | act (a : ProcAct)
  | check (p : Nat) (ok : Bool) (pid : Int) (opts : BitVec 32)
  | enqueue (p : Nat)
deriving DecidableEq, Repr

/-- The task whose program the step runs, if it runs one. -/
def actor : ProcAct → Option Nat
  | .fork p | .exit p _ | .waitpid p _ _ _ | .resume p => some p
  | .fatalSignal .. | .stop .. | .cont _ => none

/-- A table after a step: a task that is gone has no call open, and one that is
not blocked any more is not asleep. -/
def settle (r : Race) (s : Procs) : Race :=
  { table := s
    checked := fun p => if (s.tasks p).isSome then r.checked p else none
    asleep := fun p => if (s.tasks p).any fun t => t.state = .blocked then r.asleep p else none }

def raceStep (r : Race) : RaceAct → Option Race
  | .act (.waitpid ..) => none
  | .act a =>
      if ((actor a).bind r.checked).isSome then none
      else (procStep r.table a).map (settle r)
  | .check p ok pid opts =>
      (r.table.tasks p).bind fun t =>
        if taskRunnable t ∧ t.waiting = none ∧ r.checked p = none then
          match waitTarget r.table t ok pid opts with
          | some c => some { r with checked := Function.update r.checked p (some c) }
          | none => (procStep r.table (.waitpid p ok pid opts)).map (settle r)
        else none
  | .enqueue p =>
      (r.table.tasks p).bind fun t =>
        if taskRunnable t then
          (r.checked p).bind fun c =>
            -- a destroyed process is freed memory
            (r.table.procs c).map fun target =>
              let s := processAddWaiter r.table target t
              { table := setTask s { t with state := .blocked, waiting := some target.pid }
                checked := Function.update r.checked p none
                asleep := Function.update r.asleep p (some c) }
        else none

/-- No task is blocked as a waiter on a process whose task pointer is NULL. -/
def WaitersLive (r : Race) : Prop :=
  ∀ p t c, r.table.tasks p = some t → t.state = .blocked → r.asleep p = some c →
    ∃ proc, r.table.procs c = some proc ∧ proc.task = true

/-- No process ends while a call has checked it and not blocked yet. -/
def WindowShut (r : Race) : RaceAct → Prop
  | .act (.exit c _) | .act (.fatalSignal c _) => ∀ p, r.checked p ≠ some c
  | _ => True

/-! ## Processes with a task -/

/-- A process whose task lives stays, and loses no waiter, until its task ends. -/
theorem ProcStep.live_kept {s s' : Procs} {a : ProcAct} (htab : ProcTable s)
    (h : ProcStep s a s') {c : Nat} {proc : Process} (hproc : s.procs c = some proc)
    (hlive : proc.task = true) (hends : ¬ Ends a c) :
    ∃ proc', s'.procs c = some proc' ∧ proc'.task = true ∧
      ∀ w ∈ proc.waiters, w ∈ proc'.waiters := by
  have hsame : ∃ proc', s.procs c = some proc' ∧ proc'.task = true ∧
      ∀ w ∈ proc.waiters, w ∈ proc'.waiters := ⟨proc, hproc, hlive, fun w hw => hw⟩
  have hend : ∀ {p : Nat} {t : Task} {owner₀ : Process} (owner : Process),
      s.procs p = some owner₀ → owner.pid = owner₀.pid → p ≠ c →
      ∃ proc', (endTask s t owner).procs c = some proc' ∧ proc'.task = true ∧
        ∀ w ∈ proc.waiters, w ∈ proc'.waiters := by
    intro p t owner₀ owner howner hpid hpc
    obtain ⟨hopid, -⟩ := htab.proc_pid p owner₀ howner
    have hco : c ≠ owner.pid := fun h => hpc (by rw [h, hpid, hopid])
    simp only [endTask]
    rw [Function.update_of_ne hco]
    exact hsame
  have hset : ∀ {p : Nat} {owner₀ : Process} (owner : Process), s.procs p = some owner₀ →
      owner.pid = owner₀.pid → owner.task = owner₀.task → owner.waiters = owner₀.waiters →
      ∃ proc', Function.update s.procs owner.pid (some owner) c = some proc' ∧
        proc'.task = true ∧ ∀ w ∈ proc.waiters, w ∈ proc'.waiters := by
    intro p owner₀ owner howner hpid htask hws
    obtain ⟨hopid, -⟩ := htab.proc_pid p owner₀ howner
    by_cases hco : c = owner.pid
    · subst hco
      rw [hpid, hopid, howner] at hproc
      obtain rfl := Option.some.inj hproc
      exact ⟨owner, Function.update_self .., htask.trans hlive, fun w hw => hws ▸ hw⟩
    · rw [Function.update_of_ne hco]
      exact hsame
  cases h with
  | fork =>
      have hcle := (htab.proc_pid c proc hproc).2
      rw [sysFork_procs, Function.update_of_ne (by omega)]
      exact hsame
  | exit _ howner => exact hend _ howner rfl hends
  | fatalSignal _ howner => exact hend _ howner rfl hends
  | stop _ howner => exact hset _ howner rfl rfl rfl
  | cont _ howner => exact hset _ howner rfl rfl rfl
  | @waitSleep p pid opts t target =>
      refine ⟨{ proc with
        waiters := if c = target.pid then proc.waiters ++ [t.pid] else proc.waiters
        broken := proc.broken || decide (t.pid ∈ proc.waiters) }, ?_, hlive, ?_⟩
      · simp only [sleepOn, hproc, Option.map_some]
      · intro w hw
        dsimp only
        split
        · exact List.mem_append_left _ hw
        · exact hw
  | @waitCollect p opts t z ht hwait hmem hprocz hppid =>
      have hcz : c ≠ z.pid := by
        rintro rfl
        exact htab.task_live _ proc hproc hlive (htab.zombies_dead _ hmem).1
      obtain ⟨proc', hproc', hrest⟩ := hsame
      exact ⟨proc', by simp [hcz, hproc'], hrest⟩
  | _ => exact hsame

/-- The end of `c` leaves none of its waiters blocked. -/
theorem ProcStep.end_wakes {s s' : Procs} {a : ProcAct} (h : ProcStep s a s')
    {c p : Nat} {proc : Process} (hproc : s.procs c = some proc) (hends : Ends a c)
    (hmem : p ∈ proc.waiters) {t : Task} (ht : s'.tasks p = some t) : t.state = .preempted := by
  have hend : ∀ {te : Task} {owner : Process}, owner.waiters = proc.waiters →
      (endTask s te owner).tasks p = some t → t.state = .preempted := by
    intro te owner hws hp
    simp only [endTask] at hp
    split at hp
    · cases hp
    · obtain ⟨tp, -, rfl⟩ := Option.map_eq_some_iff.mp hp
      exact if_pos (hws ▸ hmem)
  cases h with
  | exit _ howner =>
      obtain rfl := hends
      obtain rfl := Option.some.inj (howner.symm.trans hproc)
      exact hend rfl ht
  | fatalSignal _ howner =>
      obtain rfl := hends
      obtain rfl := Option.some.inj (howner.symm.trans hproc)
      exact hend rfl ht
  | _ => exact absurd hends id

/-! ## The invariant -/

/-- What a call has checked is alive, and so is what a task sleeps on, which
has the sleeper on its list. -/
structure RaceInv (r : Race) : Prop where
  table : ProcTable r.table
  checked_live : ∀ p c, r.checked p = some c →
    ∃ proc, r.table.procs c = some proc ∧ proc.task = true
  asleep_live : ∀ p c, r.asleep p = some c →
    ∃ proc, r.table.procs c = some proc ∧ proc.task = true ∧ p ∈ proc.waiters

theorem settle_inv {r : Race} {s' : Procs} {a : ProcAct} (hinv : RaceInv r)
    (hstep : procStep r.table a = some s')
    (hshut : ∀ p c, Ends a c → r.checked p ≠ some c) : RaceInv (settle r s') := by
  have htab := hinv.table
  have hst := procStep_sound htab hstep
  refine ⟨hst.table htab, ?_, ?_⟩
  · intro p c hc
    simp only [settle] at hc
    split at hc
    · obtain ⟨proc, hproc, hlive⟩ := hinv.checked_live p c hc
      obtain ⟨proc', hproc', hlive', -⟩ :=
        hst.live_kept htab hproc hlive fun hends => hshut p c hends hc
      exact ⟨proc', hproc', hlive'⟩
    · cases hc
  · intro p c hc
    simp only [settle] at hc
    split at hc
    · rename_i hany
      obtain ⟨proc, hproc, hlive, hmem⟩ := hinv.asleep_live p c hc
      obtain ⟨t, ht, hblocked⟩ := (Option.any_eq_true _ _).mp hany
      have hends : ¬ Ends a c := by
        intro hends
        have hwoken := hst.end_wakes hproc hends hmem ht
        rw [hwoken] at hblocked
        exact absurd hblocked (by decide)
      obtain ⟨proc', hproc', hlive', hws⟩ := hst.live_kept htab hproc hlive hends
      exact ⟨proc', hproc', hlive', hws p hmem⟩
    · cases hc

/-- Blocking on a live process. -/
theorem enqueue_inv {r : Race} (hinv : RaceInv r) {p c : Nat} {t : Task} {target : Process}
    (ht : r.table.tasks p = some t) (hproc : r.table.procs c = some target)
    (hlive : target.task = true) :
    RaceInv { table := sleepOn r.table t c
              checked := Function.update r.checked p none
              asleep := Function.update r.asleep p (some c) } := by
  have htab := hinv.table
  have htask := htab.own_task ht
  obtain ⟨hpid, -⟩ := htab.task_pid p t ht
  -- every process is where it was, with at least its old waiters
  have hkept : ∀ d proc, r.table.procs d = some proc → proc.task = true →
      ∃ proc', (sleepOn r.table t c).procs d = some proc' ∧ proc'.task = true ∧
        (∀ w ∈ proc.waiters, w ∈ proc'.waiters) ∧ (d = c → p ∈ proc'.waiters) := by
    intro d proc hd hl
    refine ⟨{ proc with
      waiters := if d = c then proc.waiters ++ [t.pid] else proc.waiters
      broken := proc.broken || decide (t.pid ∈ proc.waiters) }, ?_, hl, ?_, ?_⟩
    · simp only [sleepOn, hd, Option.map_some]
    · intro w hw
      dsimp only
      split
      · exact List.mem_append_left _ hw
      · exact hw
    · intro hdc
      simp [hdc, hpid]
  refine ⟨(tableKept_sleepOn htask).table htab, ?_, ?_⟩
  · intro q d hq
    by_cases hqp : q = p
    · subst hqp
      simp at hq
    · have hq : r.checked q = some d := by simpa [hqp] using hq
      obtain ⟨proc, hd, hl⟩ := hinv.checked_live q d hq
      obtain ⟨proc', hd', hl', -⟩ := hkept d proc hd hl
      exact ⟨proc', hd', hl'⟩
  · intro q d hq
    by_cases hqp : q = p
    · subst hqp
      obtain rfl : c = d := by simpa using hq
      obtain ⟨proc', hd', hl', -, hmem⟩ := hkept c target hproc hlive
      exact ⟨proc', hd', hl', hmem rfl⟩
    · have hq : r.asleep q = some d := by simpa [hqp] using hq
      obtain ⟨proc, hd, hl, hmem⟩ := hinv.asleep_live q d hq
      obtain ⟨proc', hd', hl', hws, -⟩ := hkept d proc hd hl
      exact ⟨proc', hd', hl', hws q hmem⟩

theorem raceStep_inv {r r' : Race} {a : RaceAct} (hinv : RaceInv r) (hshut : WindowShut r a)
    (h : raceStep r a = some r') : RaceInv r' := by
  cases a with
  | act a =>
      have hstep : ∃ s', procStep r.table a = some s' ∧ settle r s' = r' := by
        cases a with
        | waitpid => cases h
        | _ =>
            simp only [raceStep] at h
            split at h
            · cases h
            · exact Option.map_eq_some_iff.mp h
      obtain ⟨s', hs', rfl⟩ := hstep
      refine settle_inv hinv hs' ?_
      intro p c hends
      cases a with
      | exit q e =>
          obtain rfl := hends
          exact hshut p
      | fatalSignal q e =>
          obtain rfl := hends
          exact hshut p
      | _ => exact absurd hends id
  | check p ok pid opts =>
      obtain ⟨t, ht, hact⟩ := Option.bind_eq_some_iff.mp h
      split at hact
      · split at hact
        · rename_i c hc
          cases hact
          refine ⟨hinv.table, ?_, hinv.asleep_live⟩
          intro q d hq
          by_cases hqp : q = p
          · subst hqp
            obtain rfl : c = d := by simpa using hq
            exact waitTarget_live hinv.table ht hc
          · exact hinv.checked_live q d (by simpa [hqp] using hq)
        · obtain ⟨s', hs', rfl⟩ := Option.map_eq_some_iff.mp hact
          exact settle_inv hinv hs' fun _ _ hends => absurd hends id
      · cases hact
  | enqueue p =>
      obtain ⟨t, ht, hact⟩ := Option.bind_eq_some_iff.mp h
      split at hact
      · obtain ⟨c, hc, hact⟩ := Option.bind_eq_some_iff.mp hact
        obtain ⟨target, htarget, rfl⟩ := Option.map_eq_some_iff.mp hact
        obtain ⟨proc, hproc, hlive⟩ := hinv.checked_live p c hc
        obtain rfl : proc = target := Option.some.inj (hproc.symm.trans htarget)
        obtain ⟨rfl, -⟩ := hinv.table.proc_pid c proc hproc
        simp only [sleepOn_eq hproc]
        exact enqueue_inv hinv ht hproc hlive
      · cases hact

/-- **No wake-up is lost while no window is cut.** In every interleaving in
which no process ends between a check of it and the blocking that follows, no
task is blocked as a waiter on a process that has ended. -/
theorem waiters_live (s₀ : Procs) (r : Race) (acts : List RaceAct) (hboot : Booted s₀)
    (hmeet : StepsMeet raceStep WindowShut ⟨s₀, fun _ => none, fun _ => none⟩ acts)
    (hrun : runSteps raceStep ⟨s₀, fun _ => none, fun _ => none⟩ acts = some r) :
    WaitersLive r := by
  have hstart : RaceInv ⟨s₀, fun _ => none, fun _ => none⟩ := by
    refine ⟨hboot.table, ?_, ?_⟩
    · intro p c hc
      cases hc
    · intro p c hc
      cases hc
  have hinv : RaceInv r :=
    runSteps_invariant_of_meet (fun _ _ _ hs hc hstep => raceStep_inv hs hc hstep)
      hstart hmeet hrun
  intro p t c _ _ hc
  obtain ⟨proc, hproc, hlive, -⟩ := hinv.asleep_live p c hc
  exact ⟨proc, hproc, hlive⟩

/-- Init checks its child and blocks before anything else happens. -/
theorem waiters_live_blocked :
    ∃ r, runSteps raceStep ⟨initOnly, fun _ => none, fun _ => none⟩
        [.act (.fork 1), .check 1 true 2 0, .enqueue 1] = some r ∧
      r.asleep 1 = some 2 ∧ (r.table.tasks 1).map (·.state) = some .blocked ∧
      WaitersLive r := by
  have hrun : ((runSteps raceStep ⟨initOnly, fun _ => none, fun _ => none⟩
      [.act (.fork 1), .check 1 true 2 0, .enqueue 1]).map fun r =>
        (r.asleep 1, (r.table.tasks 1).map (·.state))) = some (some 2, some .blocked) := by
    decide +kernel
  obtain ⟨r, hr, hfacts⟩ := Option.map_eq_some_iff.mp hrun
  refine ⟨r, hr, congrArg Prod.fst hfacts, congrArg Prod.snd hfacts,
    waiters_live initOnly r _ initOnly_booted ?_ hr⟩
  exact ⟨trivial, fun _ _ => ⟨trivial, fun _ _ => ⟨trivial, fun _ _ => trivial⟩⟩⟩

/-- The child exits between the check and the blocking: init sleeps on a
process whose task pointer is NULL. -/
theorem waiter_on_ended_process :
    Booted initOnly ∧
    ∃ r, runSteps raceStep ⟨initOnly, fun _ => none, fun _ => none⟩
        [.act (.fork 1), .check 1 true 2 0, .act (.exit 2 14), .enqueue 1] = some r ∧
      (r.table.tasks 1).map (·.state) = some .blocked ∧ r.asleep 1 = some 2 ∧
      (r.table.procs 2).map (fun proc => (proc.task, proc.waiters)) = some (false, [1]) ∧
      ¬ WaitersLive r := by
  have hrun : ((runSteps raceStep ⟨initOnly, fun _ => none, fun _ => none⟩
      [.act (.fork 1), .check 1 true 2 0, .act (.exit 2 14), .enqueue 1]).map fun r =>
        ((r.table.tasks 1).map (·.state), r.asleep 1,
          (r.table.procs 2).map fun proc => (proc.task, proc.waiters))) =
      some (some .blocked, some 2, some (false, [1])) := by
    decide +kernel
  obtain ⟨r, hr, hfacts⟩ := Option.map_eq_some_iff.mp hrun
  simp only [Prod.mk.injEq] at hfacts
  obtain ⟨hblocked, hasleep, hproc⟩ := hfacts
  refine ⟨initOnly_booted, r, hr, hblocked, hasleep, hproc, ?_⟩
  intro hlive
  obtain ⟨t, ht, hstate⟩ := Option.map_eq_some_iff.mp hblocked
  obtain ⟨proc, hp, htask⟩ := hlive 1 t 2 ht hstate hasleep
  rw [hp, Option.map_some, Option.some.injEq, Prod.mk.injEq] at hproc
  rw [htask] at hproc
  exact absurd hproc.1 (by decide)

end Levos.Kernel
