import Levos.Kernel.Wait

/-!
# What one step of the process table can do

`procStep` runs the functions of `Levos.Kernel.Wait`, which rewrite the table
one field at a time. Here every step is described once, as an inductive
relation `ProcStep` whose constructors give the table after the step as a
whole, and `ProcTable`, the invariant all later developments share, is proved
over these constructors.

1. the tables after a wake-up, an end, a stop and a blocking wait;
2. `ProcStep` and `procStep_sound`;
3. `ProcTable` and its preservation.
-/

namespace Levos.Kernel

open Levos.Base

/-! ## Tables after a function of the source -/

/-- Every task and every process is filed under its own pid. -/
def FiledByPid (s : Procs) : Prop :=
  (∀ p t, s.tasks p = some t → t.pid = p) ∧ ∀ p proc, s.procs p = some proc → proc.pid = p

def wake (s : Procs) (ws : List Nat) : Procs :=
  { s with
    tasks := fun p => (s.tasks p).map fun t =>
      { t with state := if p ∈ ws then .preempted else t.state } }

/-- `t` is gone and unlinked from its parent; its process stays behind as a
zombie, unless a stop of it was reported before. -/
def endTask (s : Procs) (t : Task) (owner : Process) : Procs :=
  { s with
    tasks := fun p =>
      if p = t.pid then none
      else (s.tasks p).map fun tp =>
        { tp with
          state := if p ∈ owner.waiters then .preempted else tp.state
          childrenList :=
            if p = t.ppid then tp.childrenList.filter (· ≠ t.pid) else tp.childrenList }
    procs := Function.update s.procs owner.pid
      (if t.flags &&& tflagWaited ≠ 0 then none else some { owner with task := false })
    zombieProcesses :=
      if t.flags &&& tflagWaited ≠ 0 then s.zombieProcesses
      else s.zombieProcesses ++ [owner.pid] }

def stopTask (s : Procs) (t : Task) (owner : Process) : Procs :=
  { s with
    tasks := fun p => (s.tasks p).map fun tp =>
      { tp with
        state :=
          if p = t.pid then .blocked else if p ∈ owner.waiters then .preempted else tp.state }
    procs := Function.update s.procs owner.pid (some owner) }

/-- `t` sleeps on the waiters of `c`. -/
def sleepOn (s : Procs) (t : Task) (c : Nat) : Procs :=
  { s with
    tasks := Function.update s.tasks t.pid
      (some { t with state := .blocked, waiting := some c })
    procs := fun q => (s.procs q).map fun proc =>
      { proc with
        waiters := if q = c then proc.waiters ++ [t.pid] else proc.waiters
        broken := proc.broken || decide (t.pid ∈ proc.waiters) } }

theorem unblockAll_eq : ∀ (ws : List Nat) {s s' : Procs}, FiledByPid s →
    unblockAll s ws = some s' → s' = wake s ws ∧ ∀ w ∈ ws, s.tasks w ≠ none
  | [], s, s', _, h => by
      rw [unblockAll, Option.some.injEq] at h
      subst h
      refine ⟨?_, fun w hw => absurd hw List.not_mem_nil⟩
      simp [wake]
  | w :: ws, s, s', hpid, h => by
      obtain ⟨s₁, h₁, h₂⟩ := Option.bind_eq_some_iff.mp h
      obtain ⟨t, ht, rfl⟩ := Option.map_eq_some_iff.mp h₁
      obtain rfl := hpid.1 w t ht
      have hpid₁ : FiledByPid (setTask s { t with state := .preempted }) := by
        refine ⟨fun p tp hp => ?_, hpid.2⟩
        by_cases hpt : p = t.pid
        · subst hpt
          obtain rfl : { t with state := .preempted } = tp := by simpa [setTask] using hp
          rfl
        · exact hpid.1 p tp (by simpa [setTask, hpt] using hp)
      obtain ⟨rfl, hlive⟩ := unblockAll_eq ws hpid₁ h₂
      constructor
      · simp only [wake, setTask, Procs.mk.injEq, true_and, and_true]
        funext p
        by_cases hpt : p = t.pid
        · subst hpt
          simp [ht]
        · simp [hpt]
      · intro w hw
        rcases List.mem_cons.mp hw with rfl | hw
        · rw [ht]
          exact Option.some_ne_none t
        · intro hnone
          apply hlive w hw
          by_cases hwt : w = t.pid
          · subst hwt
            rw [ht] at hnone
            cases hnone
          · simpa [setTask, hwt] using hnone

/-- `task_unblock_waiters` gets through only a list that is not broken and
whose members are all alive. -/
def Walkable (s : Procs) (owner : Process) : Prop :=
  (owner.waiters = [] ∨ owner.broken = false) ∧ ∀ w ∈ owner.waiters, s.tasks w ≠ none

theorem taskUnblockWaiters_eq {s s' : Procs} {owner : Process} (hpid : FiledByPid s)
    (h : taskUnblockWaiters s owner = some s') :
    s' = wake s owner.waiters ∧ Walkable s owner := by
  rw [taskUnblockWaiters] at h
  split at h
  · rename_i hnil
    cases h
    refine ⟨?_, .inl hnil, ?_⟩
    · simp [wake, hnil]
    · simp [hnil]
  · split at h
    · cases h
    · rename_i hbroken
      obtain ⟨heq, hlive⟩ := unblockAll_eq _ hpid h
      exact ⟨heq, .inr (by simpa using hbroken), hlive⟩

theorem removeChild_tasks {s : Procs} (hpid : ∀ p t, s.tasks p = some t → t.pid = p) (t : Task)
    (p : Nat) :
    (removeChild s t).tasks p = (s.tasks p).map fun tp =>
      { tp with
        childrenList :=
          if p = t.ppid then tp.childrenList.filter (· ≠ t.pid) else tp.childrenList } := by
  unfold removeChild
  split
  · rename_i hnone
    by_cases hp : p = t.ppid
    · subst hp
      simp [hnone]
    · simp [hp]
  · rename_i parent hparent
    have hpp := hpid _ _ hparent
    by_cases hp : p = t.ppid
    · subst hp
      rw [hparent]
      simp [setTask, hpp]
    · simp [setTask, hp, hpp]

theorem removeChild_rest (s : Procs) (t : Task) :
    (removeChild s t).procs = s.procs ∧ (removeChild s t).lastPid = s.lastPid ∧
      (removeChild s t).zombieProcesses = s.zombieProcesses ∧
      (removeChild s t).reports = s.reports := by
  unfold removeChild
  split <;> exact ⟨rfl, rfl, rfl, rfl⟩

theorem Procs.ext_tables {s s' : Procs} (hlast : s.lastPid = s'.lastPid)
    (htasks : ∀ p, s.tasks p = s'.tasks p) (hprocs : ∀ p, s.procs p = s'.procs p)
    (hz : s.zombieProcesses = s'.zombieProcesses) (hr : s.reports = s'.reports) : s = s' := by
  cases s
  cases s'
  simp only [Procs.mk.injEq]
  exact ⟨hlast, funext htasks, funext hprocs, hz, hr⟩

theorem taskExit_eq {s s' : Procs} {t : Task} {owner : Process} (hpid : FiledByPid s)
    (h : taskExit s t owner = some s') :
    s' = endTask s t owner ∧ Walkable s owner ∧ 1 < t.pid := by
  rw [taskExit] at h
  split at h
  · cases h
  · rename_i hnot
    obtain ⟨s₁, h₁, rfl⟩ := Option.map_eq_some_iff.mp h
    obtain ⟨rfl, hwalk⟩ := taskUnblockWaiters_eq hpid h₁
    refine ⟨?_, hwalk, by omega⟩
    have hfiled : ∀ p tp, (wake s owner.waiters).tasks p = some tp → tp.pid = p := by
      intro p tp hp
      obtain ⟨tp₀, htp₀, rfl⟩ := Option.map_eq_some_iff.mp hp
      exact hpid.1 p tp₀ htp₀
    have htasks : ∀ (s₁ : Procs), s₁.tasks = (wake s owner.waiters).tasks → ∀ p,
        Function.update (removeChild s₁ t).tasks t.pid none p = (endTask s t owner).tasks p := by
      intro s₁ hs₁ p
      by_cases hp : p = t.pid
      · subst hp
        simp [endTask]
      · rw [Function.update_of_ne hp, removeChild_tasks (by rw [hs₁]; exact hfiled), hs₁]
        simp [endTask, wake, hp, Function.comp_def]
    by_cases hwaited : t.flags &&& tflagWaited ≠ 0
    · obtain ⟨h1, h2, h3, h4⟩ := removeChild_rest
        (processDestroy (wake s owner.waiters) owner.pid) t
      refine Procs.ext_tables ?_ ?_ ?_ ?_ ?_
      · simp only [if_pos hwaited, h2]
        rfl
      · intro p
        simp only [if_pos hwaited]
        exact htasks (processDestroy (wake s owner.waiters) owner.pid) rfl p
      · intro p
        simp only [if_pos hwaited, h1, endTask]
        rfl
      · simp only [if_pos hwaited, h3, endTask]
        rfl
      · simp only [if_pos hwaited, h4]
        rfl
    · obtain ⟨h1, h2, h3, h4⟩ := removeChild_rest
        { setProcess (wake s owner.waiters) { owner with task := false } with
          zombieProcesses := s.zombieProcesses ++ [owner.pid] } t
      refine Procs.ext_tables ?_ ?_ ?_ ?_ ?_
      · simp only [if_neg hwaited]
        exact h2
      · intro p
        simp only [if_neg hwaited]
        exact htasks { setProcess (wake s owner.waiters) { owner with task := false } with
          zombieProcesses := s.zombieProcesses ++ [owner.pid] } rfl p
      · intro p
        simp only [if_neg hwaited, endTask]
        exact congrFun h1 p
      · simp only [if_neg hwaited, endTask]
        exact h3
      · simp only [if_neg hwaited]
        exact h4

theorem suspendTask_eq {s s' : Procs} {t : Task} {sig : BitVec 32} (hpid : FiledByPid s)
    (h : suspendTask s t sig = some s') :
    ∃ owner, s.procs t.pid = some owner ∧ Walkable s owner ∧
      s' = stopTask s t { owner with exitCode := sig, status := .suspended } := by
  obtain ⟨owner, howner, h⟩ := Option.bind_eq_some_iff.mp h
  obtain ⟨s₁, h₁, h⟩ := Option.bind_eq_some_iff.mp h
  obtain ⟨t₁, ht₁, rfl⟩ := Option.map_eq_some_iff.mp h
  have hpid₁ : FiledByPid (setProcess s { owner with exitCode := sig, status := .suspended }) := by
    refine ⟨hpid.1, fun p proc hp => ?_⟩
    by_cases hpo : p = owner.pid
    · subst hpo
      obtain rfl : { owner with exitCode := sig, status := .suspended } = proc := by
        simpa [setProcess] using hp
      rfl
    · exact hpid.2 p proc (by simpa [setProcess, hpo] using hp)
  obtain ⟨rfl, hwalk⟩ := taskUnblockWaiters_eq hpid₁ h₁
  obtain ⟨t₀, ht₀, rfl⟩ := Option.map_eq_some_iff.mp ht₁
  have hself : t₀.pid = t.pid := hpid.1 _ _ ht₀
  refine ⟨owner, howner, hwalk, Procs.ext_tables rfl (fun p => ?_) (fun p => rfl) rfl rfl⟩
  by_cases hp : p = t.pid
  · subst hp
    have ht₀' : s.tasks t.pid = some t₀ := ht₀
    simp [setTask, stopTask, ht₀', hself]
  · simp [setTask, stopTask, wake, setProcess, hself, hp]

theorem sleepOn_eq {s : Procs} {t : Task} {target : Process}
    (htarget : s.procs target.pid = some target) :
    setTask (processAddWaiter s target t)
      { t with state := .blocked, waiting := some target.pid } = sleepOn s t target.pid := by
  have hadd : processAddWaiter s target t =
      { s with procs := (sleepOn s t target.pid).procs } := by
    unfold processAddWaiter
    simp only [htarget, Option.map_some]
    refine Procs.ext_tables rfl (fun p => rfl) (fun p => ?_) rfl rfl
    have hfield : ∀ proc : Process,
        (if t.pid ∈ proc.waiters then { proc with broken := true } else proc) =
          { proc with broken := proc.broken || decide (t.pid ∈ proc.waiters) } := by
      intro proc
      by_cases hmem : t.pid ∈ proc.waiters
      · simp [hmem]
      · simp [hmem]
    by_cases hp : p = target.pid
    · subst hp
      simp [setProcess, sleepOn, htarget, hfield]
    · simp [setProcess, sleepOn, hp, hfield]
  rw [hadd]
  rfl

/-! ## The steps -/

/-- One step of the table, by what it did. -/
inductive ProcStep (s : Procs) : ProcAct → Procs → Prop
  | fork {p : Nat} {t : Task} (ht : s.tasks p = some t) (hwait : t.waiting = none) :
      ProcStep s (.fork p) (sysFork s t)
  | exit {p : Nat} {t : Task} {owner : Process} {errCode : BitVec 32}
      (ht : s.tasks p = some t) (howner : s.procs p = some owner) (hwait : t.waiting = none)
      (hwalk : Walkable s owner) (hp : 1 < p) :
      ProcStep s (.exit p errCode)
        (endTask s t { owner with exitCode := errCode, status := .exited })
  | fatalSignal {p : Nat} {t : Task} {owner : Process} {signal : BitVec 32}
      (ht : s.tasks p = some t) (howner : s.procs p = some owner)
      (hwalk : Walkable s owner) (hp : 1 < p) :
      ProcStep s (.fatalSignal p signal)
        (endTask s t { owner with exitCode := signal, status := .deathBySignal })
  | stop {p : Nat} {t : Task} {owner : Process} {sig : BitVec 32}
      (ht : s.tasks p = some t) (howner : s.procs p = some owner) (hwalk : Walkable s owner) :
      ProcStep s (.stop p sig)
        (stopTask s t { owner with exitCode := sig, status := .suspended })
  | cont {p : Nat} {t : Task} {owner : Process}
      (ht : s.tasks p = some t) (howner : s.procs p = some owner)
      (hblocked : t.state = .blocked) (hstopped : owner.status = .suspended) :
      ProcStep s (.cont p)
        (setTask (setProcess s { owner with status := .none })
          { t with flags := t.flags &&& ~~~tflagWaited, state := .preempted })
  | contRunning {p : Nat} : ProcStep s (.cont p) s
  | waitUnchanged {p : Nat} {ok : Bool} {pid : Int} {opts : BitVec 32} :
      ProcStep s (.waitpid p ok pid opts) s
  | waitEnded {p pid : Nat} {opts : BitVec 32} {t : Task} {target : Process}
      (ht : s.tasks p = some t) (htarget : schedGetChild s t pid = some target)
      (hdead : target.task = false) :
      ProcStep s (.waitpid p true pid opts) { s with reports := s.reports ++ [(p, pid)] }
  | waitSleep {p pid : Nat} {opts : BitVec 32} {t : Task} {target : Process}
      (ht : s.tasks p = some t) (hwait : t.waiting = none)
      (htarget : schedGetChild s t pid = some target) (hlive : target.task = true)
      (hpid : s.procs target.pid = some target) (hpos : 0 < pid)
      (hopts : opts &&& wnohang = 0) :
      ProcStep s (.waitpid p true pid opts) (sleepOn s t target.pid)
  | waitCollect {p : Nat} {opts : BitVec 32} {t : Task} {proc : Process}
      (ht : s.tasks p = some t) (hwait : t.waiting = none)
      (hz : proc.pid ∈ s.zombieProcesses) (hproc : s.procs proc.pid = some proc)
      (hppid : proc.ppid = p) :
      ProcStep s (.waitpid p true (-1) opts)
        { s with
          procs := Function.update s.procs proc.pid none
          zombieProcesses := s.zombieProcesses.filter (· ≠ proc.pid)
          reports := s.reports ++ [(p, proc.pid)] }
  | waitStopped {p c : Nat} {opts : BitVec 32} {tc : Task} {proc : Process}
      (htc : s.tasks c = some tc) (hproc : s.procs c = some proc)
      (hstopped : proc.status = .suspended) :
      ProcStep s (.waitpid p true (-1) opts) (setTask s { tc with flags := tc.flags ||| tflagWaited })
  | resumeEnded {p c : Nat} {t : Task} {waited : Process}
      (ht : s.tasks p = some t) (hc : t.waiting = some c) (hwaited : s.procs c = some waited)
      (hdead : waited.task = false) :
      ProcStep s (.resume p)
        { setTask s { t with waiting := none } with reports := s.reports ++ [(p, c)] }
  | resumeStopped {p c : Nat} {t tc : Task} {waited : Process}
      (ht : s.tasks p = some t) (hc : t.waiting = some c) (hwaited : s.procs c = some waited)
      (hlive : waited.task = true) (hstopped : waited.status = .suspended)
      (htc : (setTask s { t with waiting := none }).tasks c = some tc) :
      ProcStep s (.resume p)
        (setTask (setTask s { t with waiting := none })
          { tc with flags := tc.flags ||| tflagWaited })

/-! ## The invariant of the table -/

/-- What every step of the table keeps. A live task has its process, which
knows the same parent; children are live; the process of a dead task is marked
so, and a zombie is one. -/
structure ProcTable (s : Procs) : Prop where
  task_pid : ∀ p t, s.tasks p = some t → t.pid = p ∧ p ≤ s.lastPid
  proc_pid : ∀ p proc, s.procs p = some proc → proc.pid = p ∧ p ≤ s.lastPid
  owner_live : ∀ p t, s.tasks p = some t →
    ∃ proc, s.procs p = some proc ∧ proc.ppid = t.ppid ∧ proc.task = true
  task_live : ∀ p proc, s.procs p = some proc → proc.task = true → s.tasks p ≠ none
  children_live : ∀ p t, s.tasks p = some t → ∀ c ∈ t.childrenList,
    ∃ tc, s.tasks c = some tc ∧ tc.ppid = p
  zombies_dead : ∀ z ∈ s.zombieProcesses, s.tasks z = none ∧ z ≤ s.lastPid

theorem ProcTable.filed {s : Procs} (htab : ProcTable s) : FiledByPid s :=
  ⟨fun p t ht => (htab.task_pid p t ht).1, fun p proc hp => (htab.proc_pid p proc hp).1⟩

theorem ProcTable.own_task {s : Procs} (htab : ProcTable s) {p : Nat} {t : Task}
    (ht : s.tasks p = some t) : s.tasks t.pid = some t := by
  rw [(htab.task_pid p t ht).1, ht]

theorem ProcTable.own_process {s : Procs} (htab : ProcTable s) {p : Nat} {proc : Process}
    (hp : s.procs p = some proc) : s.procs proc.pid = some proc := by
  rw [(htab.proc_pid p proc hp).1, hp]

/-- The process found for a child belongs to the caller. -/
theorem schedGetChild_spec {s : Procs} (htab : ProcTable s) {p pid : Nat} {t : Task}
    {target : Process} (ht : s.tasks p = some t) (h : schedGetChild s t pid = some target) :
    target.pid = pid ∧ target.ppid = p ∧ s.procs pid = some target := by
  obtain ⟨hpid, -⟩ := htab.task_pid p t ht
  rw [schedGetChild] at h
  split at h
  · rename_i hmem
    obtain ⟨tc, htc, hpp⟩ := htab.children_live p t ht pid hmem
    obtain ⟨proc, hproc, hppid, -⟩ := htab.owner_live pid tc htc
    obtain rfl : proc = target := Option.some.inj (hproc.symm.trans h)
    exact ⟨(htab.proc_pid pid proc hproc).1, hppid.trans hpp, h⟩
  · obtain ⟨z, hz, hproc⟩ := Option.bind_eq_some_iff.mp h
    have hany := List.find?_some hz
    rw [hproc, Option.any_some, decide_eq_true_eq] at hany
    have hzp := (htab.proc_pid z target hproc).1
    refine ⟨hany.2, hany.1.trans hpid, ?_⟩
    rw [← hany.2, hzp, hproc]

theorem waitSpecific_step {s : Procs} (htab : ProcTable s) {t : Task} {pid : Nat}
    {opts : BitVec 32} {r : Procs × WaitOutcome} (ht : s.tasks t.pid = some t)
    (hwait : t.waiting = none) (hpos : 0 < pid) (h : waitSpecific s t pid opts = some r) :
    ProcStep s (.waitpid t.pid true pid opts) (record t.pid r) := by
  rw [waitSpecific] at h
  split at h
  · cases h
    exact .waitUnchanged
  · rename_i target htarget
    obtain ⟨hpid, -, hproc⟩ := schedGetChild_spec htab ht htarget
    by_cases hlive : target.task = false
    · rw [if_pos hlive] at h
      obtain ⟨w, -, rfl⟩ := Option.map_eq_some_iff.mp h
      exact .waitEnded ht htarget hlive
    · rw [if_neg hlive] at h
      split at h
      · cases h
        exact .waitUnchanged
      · rename_i hopts
        cases h
        have hproc' : s.procs target.pid = some target := by rw [hpid, hproc]
        show ProcStep s _ (setTask (processAddWaiter s target t) _)
        rw [sleepOn_eq hproc']
        exact .waitSleep ht hwait htarget (by simpa using hlive) hproc' hpos (by simpa using hopts)

theorem waitAny_step {s : Procs} (htab : ProcTable s) {t : Task} (opts : BitVec 32)
    (ht : s.tasks t.pid = some t) (hwait : t.waiting = none) :
    ProcStep s (.waitpid t.pid true (-1) opts) (record t.pid (waitAny s t opts)) := by
  unfold waitAny
  split
  · rename_i proc hfind
    obtain ⟨z, hz, hproc⟩ := List.exists_of_findSome?_eq_some hfind
    obtain ⟨hproc, hppid⟩ := Option.filter_eq_some_iff.mp hproc
    obtain rfl : proc.pid = z := (htab.proc_pid z proc hproc).1
    exact .waitCollect ht hwait hz hproc (of_decide_eq_true hppid)
  · split
    · rename_i tc proc hfind
      obtain ⟨c, -, hc⟩ := List.exists_of_findSome?_eq_some hfind
      split at hc
      · rename_i t₁ proc₁ htask hproc
        split at hc
        · rename_i hstop
          cases hc
          exact .waitStopped htask hproc hstop.2
        · cases hc
      · cases hc
    · split
      · exact .waitUnchanged
      · exact .waitUnchanged

theorem taskDoWait_step {s : Procs} (htab : ProcTable s) {t : Task} {c : Nat} {waited : Process}
    {r : Procs × WaitOutcome} (ht : s.tasks t.pid = some t) (hc : t.waiting = some c)
    (hwaited : s.procs c = some waited) (h : taskDoWait s t waited = some r) :
    ProcStep s (.resume t.pid) (record t.pid r) := by
  obtain ⟨rfl, -⟩ := htab.proc_pid c waited hwaited
  simp only [taskDoWait] at h
  by_cases hdead : waited.task = false
  · rw [if_pos hdead] at h
    obtain ⟨w, -, rfl⟩ := Option.map_eq_some_iff.mp h
    exact .resumeEnded ht hc hwaited hdead
  · have hlive : waited.task = true := by simpa using hdead
    rw [if_neg hdead] at h
    split at h
    · rename_i hstop
      cases h
      have hsome : (setTask s { t with waiting := none }).tasks waited.pid ≠ none := by
        by_cases hct : waited.pid = t.pid
        · simp [setTask, hct]
        · simpa [setTask, hct] using htab.task_live _ waited hwaited hlive
      obtain ⟨tc, htc⟩ := Option.ne_none_iff_exists'.mp hsome
      have := ProcStep.resumeStopped ht hc hwaited hlive hstop htc
      simpa only [record, htc] using this
    · cases h

/-- **Every step of the table is one of these.** -/
theorem procStep_sound {s s' : Procs} {a : ProcAct} (htab : ProcTable s)
    (h : procStep s a = some s') : ProcStep s a s' := by
  cases procStep_call h with
  | fork ht hwait => exact .fork ht hwait
  | exit ht hwait howner hexit =>
      obtain ⟨rfl, -⟩ := htab.task_pid _ _ ht
      obtain ⟨rfl, hwalk, hp⟩ := taskExit_eq htab.filed hexit
      exact .exit ht howner hwait hwalk hp
  | fatalSignal ht howner hexit =>
      obtain ⟨rfl, -⟩ := htab.task_pid _ _ ht
      obtain ⟨rfl, hwalk, hp⟩ := taskExit_eq htab.filed hexit
      exact .fatalSignal ht howner hwalk hp
  | stop ht hstop =>
      obtain ⟨rfl, -⟩ := htab.task_pid _ _ ht
      obtain ⟨owner, howner, hwalk, rfl⟩ := suspendTask_eq htab.filed hstop
      exact .stop ht howner hwalk
  | cont ht hcont =>
      obtain ⟨rfl, -⟩ := htab.task_pid _ _ ht
      obtain ⟨owner, howner, rfl⟩ := Option.map_eq_some_iff.mp hcont
      split
      · rename_i hstop
        exact .cont ht howner hstop.1 hstop.2
      · exact .contRunning
  | waitRefused => exact .waitUnchanged
  | waitAny ht hwait =>
      obtain ⟨rfl, -⟩ := htab.task_pid _ _ ht
      exact waitAny_step htab _ ht hwait
  | waitSpecific ht hwait hpos hcall =>
      obtain ⟨rfl, -⟩ := htab.task_pid _ _ ht
      have hstep := waitSpecific_step htab ht hwait (by omega) hcall
      rwa [Int.toNat_of_nonneg hpos.le] at hstep
  | resume ht hc hwaited hcall =>
      obtain ⟨rfl, -⟩ := htab.task_pid _ _ ht
      exact taskDoWait_step htab ht hc hwaited hcall

/-! ## The call that blocks -/

/-- The child a call is going to block on. -/
def waitTarget (s : Procs) (current : Task) (ok : Bool) (pid : Int) (opts : BitVec 32) :
    Option Nat :=
  if ok ∧ 0 < pid then
    (schedGetChild s current pid.toNat).bind fun target =>
      if target.task ∧ opts &&& wnohang = 0 then some target.pid else none
  else none

theorem waitTarget_live {s : Procs} (htab : ProcTable s) {p c : Nat} {t : Task} {ok : Bool}
    {pid : Int} {opts : BitVec 32} (ht : s.tasks p = some t)
    (h : waitTarget s t ok pid opts = some c) :
    ∃ proc, s.procs c = some proc ∧ proc.task = true := by
  rw [waitTarget] at h
  split at h
  · obtain ⟨target, htarget, hsome⟩ := Option.bind_eq_some_iff.mp h
    split at hsome
    · rename_i hlive
      cases hsome
      obtain ⟨hpid, -, hproc⟩ := schedGetChild_spec htab ht htarget
      exact ⟨target, hpid.symm ▸ hproc, hlive.1⟩
    · cases hsome
  · cases h

theorem procStep_blocks {s s' : Procs} (htab : ProcTable s) {p c : Nat} {t : Task} {ok : Bool}
    {pid : Int} {opts : BitVec 32} (ht : s.tasks p = some t)
    (htarget : waitTarget s t ok pid opts = some c)
    (h : procStep s (.waitpid p ok pid opts) = some s') : s' = sleepOn s t c := by
  rw [waitTarget] at htarget
  split at htarget
  · rename_i hok
    obtain ⟨rfl, hpos⟩ : ok = true ∧ 0 < pid := hok
    obtain ⟨target, hchild, hsome⟩ := Option.bind_eq_some_iff.mp htarget
    split at hsome
    · rename_i hlive
      cases hsome
      obtain ⟨hpid, -, hproc⟩ := schedGetChild_spec htab ht hchild
      have hproc' : s.procs target.pid = some target := by rw [hpid, hproc]
      obtain ⟨t₀, ht₀, hact⟩ := Option.bind_eq_some_iff.mp h
      obtain rfl : t = t₀ := Option.some.inj (ht.symm.trans ht₀)
      split at hact
      · obtain ⟨r, hr, rfl⟩ := Option.map_eq_some_iff.mp hact
        rw [sysWaitpid, if_neg (by decide), if_neg (by omega), if_neg (by omega),
          if_neg (by omega), waitSpecific, hchild] at hr
        simp only [hlive.1, hlive.2] at hr
        cases hr
        exact sleepOn_eq hproc'
      · cases hact
    · cases hsome
  · cases htarget

/-! ## Preservation -/

/-- The step neither makes nor ends a task: tasks and processes are rewritten
in place, and only dead processes and zombies may go. -/
structure TableKept (s s' : Procs) : Prop where
  lastPid : s'.lastPid = s.lastPid
  task_from : ∀ p t', s'.tasks p = some t' →
    ∃ t, s.tasks p = some t ∧ t'.pid = t.pid ∧ t'.ppid = t.ppid ∧
      t'.childrenList = t.childrenList
  task_to : ∀ p t, s.tasks p = some t → s'.tasks p ≠ none
  proc_from : ∀ p proc', s'.procs p = some proc' →
    ∃ proc, s.procs p = some proc ∧ proc'.pid = proc.pid ∧ proc'.ppid = proc.ppid ∧
      proc'.task = proc.task
  proc_to : ∀ p proc, s.procs p = some proc → proc.task = true → s'.procs p ≠ none
  zombies : ∀ z ∈ s'.zombieProcesses, z ∈ s.zombieProcesses

theorem TableKept.task_none {s s' : Procs} (hk : TableKept s s') {p : Nat}
    (hp : s.tasks p = none) : s'.tasks p = none := by
  cases h : s'.tasks p with
  | none => rfl
  | some t' =>
      obtain ⟨t, ht, -⟩ := hk.task_from p t' h
      rw [hp] at ht
      cases ht

theorem TableKept.table {s s' : Procs} (hk : TableKept s s') (htab : ProcTable s) :
    ProcTable s' := by
  refine ⟨?_, ?_, ?_, ?_, ?_, ?_⟩
  · intro p t' ht'
    obtain ⟨t, ht, hpid, -⟩ := hk.task_from p t' ht'
    rw [hpid, hk.lastPid]
    exact htab.task_pid p t ht
  · intro p proc' hp'
    obtain ⟨proc, hp, hpid, -⟩ := hk.proc_from p proc' hp'
    rw [hpid, hk.lastPid]
    exact htab.proc_pid p proc hp
  · intro p t' ht'
    obtain ⟨t, ht, -, hppid, -⟩ := hk.task_from p t' ht'
    obtain ⟨proc, hproc, hpp, hlive⟩ := htab.owner_live p t ht
    obtain ⟨proc', hproc'⟩ := Option.ne_none_iff_exists'.mp (hk.proc_to p proc hproc hlive)
    obtain ⟨proc₀, hproc₀, -, hpp', hlive'⟩ := hk.proc_from p proc' hproc'
    obtain rfl : proc = proc₀ := Option.some.inj (hproc.symm.trans hproc₀)
    exact ⟨proc', hproc', by rw [hpp', hpp, hppid], hlive'.trans hlive⟩
  · intro p proc' hp' hlive'
    obtain ⟨proc, hp, -, -, hlive⟩ := hk.proc_from p proc' hp'
    obtain ⟨t, ht⟩ := Option.ne_none_iff_exists'.mp
      (htab.task_live p proc hp (hlive.symm.trans hlive'))
    exact hk.task_to p t ht
  · intro p t' ht' c hc
    obtain ⟨t, ht, -, -, hchildren⟩ := hk.task_from p t' ht'
    obtain ⟨tc, htc, hpp⟩ := htab.children_live p t ht c (hchildren ▸ hc)
    obtain ⟨tc', htc'⟩ := Option.ne_none_iff_exists'.mp (hk.task_to c tc htc)
    obtain ⟨tc₀, htc₀, -, hpp', -⟩ := hk.task_from c tc' htc'
    obtain rfl : tc = tc₀ := Option.some.inj (htc.symm.trans htc₀)
    exact ⟨tc', htc', hpp'.trans hpp⟩
  · intro z hz
    obtain ⟨hdead, hle⟩ := htab.zombies_dead z (hk.zombies z hz)
    exact ⟨hk.task_none hdead, hk.lastPid ▸ hle⟩

/-- Rewriting one task in place. -/
theorem tableKept_setTask {s : Procs} {t t₀ : Task} (h₀ : s.tasks t.pid = some t₀)
    (hpid : t₀.pid = t.pid) (hppid : t.ppid = t₀.ppid)
    (hchildren : t.childrenList = t₀.childrenList) : TableKept s (setTask s t) := by
  refine ⟨rfl, ?_, ?_, fun p proc hp => ⟨proc, hp, rfl, rfl, rfl⟩, ?_, fun z hz => hz⟩
  · intro p t' ht'
    by_cases hp : p = t.pid
    · subst hp
      obtain rfl : t = t' := by simpa [setTask] using ht'
      exact ⟨t₀, h₀, hpid.symm, hppid, hchildren⟩
    · exact ⟨t', by simpa [setTask, hp] using ht', rfl, rfl, rfl⟩
  · intro p tp htp
    by_cases hp : p = t.pid
    · simp [setTask, hp]
    · simp [setTask, hp, htp]
  · intro p proc hp _
    show s.procs p ≠ none
    rw [hp]
    exact Option.some_ne_none proc

theorem TableKept.trans {s s' s'' : Procs} (h : TableKept s s') (h' : TableKept s' s'') :
    TableKept s s'' := by
  refine ⟨h'.lastPid.trans h.lastPid, ?_, ?_, ?_, ?_, fun z hz => h.zombies z (h'.zombies z hz)⟩
  · intro p t'' ht''
    obtain ⟨t', ht', h1, h2, h3⟩ := h'.task_from p t'' ht''
    obtain ⟨t, ht, e1, e2, e3⟩ := h.task_from p t' ht'
    exact ⟨t, ht, h1.trans e1, h2.trans e2, h3.trans e3⟩
  · intro p t ht
    obtain ⟨t', ht'⟩ := Option.ne_none_iff_exists'.mp (h.task_to p t ht)
    exact h'.task_to p t' ht'
  · intro p proc'' hp''
    obtain ⟨proc', hp', h1, h2, h3⟩ := h'.proc_from p proc'' hp''
    obtain ⟨proc, hp, e1, e2, e3⟩ := h.proc_from p proc' hp'
    exact ⟨proc, hp, h1.trans e1, h2.trans e2, h3.trans e3⟩
  · intro p proc hp hlive
    obtain ⟨proc', hp'⟩ := Option.ne_none_iff_exists'.mp (h.proc_to p proc hp hlive)
    obtain ⟨proc₀, hp₀, -, -, hl⟩ := h.proc_from p proc' hp'
    obtain rfl : proc = proc₀ := Option.some.inj (hp.symm.trans hp₀)
    exact h'.proc_to p proc' hp' (hl.trans hlive)

/-- Rewriting one process in place. -/
theorem tableKept_setProcess {s : Procs} {proc₀ : Process} (proc : Process)
    (h₀ : s.procs proc.pid = some proc₀) (hpid : proc₀.pid = proc.pid)
    (hppid : proc.ppid = proc₀.ppid) (htask : proc.task = proc₀.task) :
    TableKept s (setProcess s proc) := by
  refine ⟨rfl, fun p t ht => ⟨t, ht, rfl, rfl, rfl⟩, ?_, ?_, ?_, fun z hz => hz⟩
  · intro p t ht
    show s.tasks p ≠ none
    rw [ht]
    exact Option.some_ne_none t
  · intro p proc' hp'
    by_cases hp : p = proc.pid
    · subst hp
      obtain rfl : proc = proc' := by simpa [setProcess] using hp'
      exact ⟨proc₀, h₀, hpid.symm, hppid, htask⟩
    · exact ⟨proc', by simpa [setProcess, hp] using hp', rfl, rfl, rfl⟩
  · intro p procp hprocp _
    by_cases hp : p = proc.pid
    · simp [setProcess, hp]
    · simp [setProcess, hp, hprocp]

theorem tableKept_stopTask {s : Procs} {t : Task} {owner₀ : Process} (owner : Process)
    (h₀ : s.procs owner.pid = some owner₀) (hpid : owner₀.pid = owner.pid)
    (hppid : owner.ppid = owner₀.ppid) (htask : owner.task = owner₀.task) :
    TableKept s (stopTask s t owner) := by
  have hk := tableKept_setProcess owner h₀ hpid hppid htask
  refine ⟨rfl, ?_, ?_, hk.proc_from, hk.proc_to, fun z hz => hz⟩
  · intro p t' ht'
    obtain ⟨tp, htp, rfl⟩ := Option.map_eq_some_iff.mp ht'
    exact ⟨tp, htp, rfl, rfl, rfl⟩
  · intro p tp htp
    simp [stopTask, htp]

theorem tableKept_sleepOn {s : Procs} {t : Task} {c : Nat} (ht : s.tasks t.pid = some t) :
    TableKept s (sleepOn s t c) := by
  refine ⟨rfl, ?_, ?_, ?_, ?_, fun z hz => hz⟩
  · exact (tableKept_setTask (t := { t with state := .blocked, waiting := some c })
      ht rfl rfl rfl).task_from
  · exact (tableKept_setTask (t := { t with state := .blocked, waiting := some c })
      ht rfl rfl rfl).task_to
  · intro p proc' hp'
    obtain ⟨proc, hp, rfl⟩ := Option.map_eq_some_iff.mp hp'
    exact ⟨proc, hp, rfl, rfl, rfl⟩
  · intro p proc hp _
    simp [sleepOn, hp]

/-- Only the reports changed. -/
theorem tableKept_reports (s : Procs) (reports : List (Nat × Nat)) :
    TableKept s { s with reports := reports } := by
  refine ⟨rfl, fun p t ht => ⟨t, ht, rfl, rfl, rfl⟩, ?_,
    fun p proc hp => ⟨proc, hp, rfl, rfl, rfl⟩, ?_, fun z hz => hz⟩
  · intro p t ht
    show s.tasks p ≠ none
    rw [ht]
    exact Option.some_ne_none t
  · intro p proc hp _
    show s.procs p ≠ none
    rw [hp]
    exact Option.some_ne_none proc

/-- A collected zombie was a dead process. -/
theorem tableKept_collect {s : Procs} (htab : ProcTable s) {z : Nat}
    (hz : z ∈ s.zombieProcesses) (reports : List (Nat × Nat)) :
    TableKept s { s with
      procs := Function.update s.procs z none
      zombieProcesses := s.zombieProcesses.filter (· ≠ z), reports := reports } := by
  refine ⟨rfl, fun p t ht => ⟨t, ht, rfl, rfl, rfl⟩, ?_, ?_, ?_,
    fun w hw => (List.mem_filter.mp hw).1⟩
  · intro p t ht
    show s.tasks p ≠ none
    rw [ht]
    exact Option.some_ne_none t
  · intro p proc hp
    by_cases hpz : p = z
    · subst hpz
      simp at hp
    · exact ⟨proc, by simpa [hpz] using hp, rfl, rfl, rfl⟩
  · intro p proc hp hlive
    have hpz : p ≠ z := by
      rintro rfl
      exact htab.task_live p proc hp hlive (htab.zombies_dead p hz).1
    simp [hpz, hp]

/-- A step that neither forks nor ends a task only rewrites the table. -/
theorem ProcStep.kept {s s' : Procs} {a : ProcAct} (htab : ProcTable s) (h : ProcStep s a s')
    (hfork : ∀ p, a ≠ .fork p) (hexit : ∀ p e, a ≠ .exit p e)
    (hfatal : ∀ p e, a ≠ .fatalSignal p e) : TableKept s s' := by
  cases h with
  | fork => exact absurd rfl (hfork _)
  | exit => exact absurd rfl (hexit _ _)
  | fatalSignal => exact absurd rfl (hfatal _ _)
  | @stop p t owner sig ht howner hwalk =>
      have howner' := htab.own_process howner
      exact tableKept_stopTask { owner with exitCode := sig, status := .suspended }
        howner' rfl rfl rfl
  | @cont p t owner ht howner =>
      have howner' := htab.own_process howner
      have ht' := htab.own_task ht
      have hproc : TableKept s (setProcess s { owner with status := .none }) :=
        tableKept_setProcess { owner with status := .none } howner' rfl rfl rfl
      exact hproc.trans (tableKept_setTask
        (s := setProcess s { owner with status := .none })
        (t := { t with flags := t.flags &&& ~~~tflagWaited, state := .preempted })
        ht' rfl rfl rfl)
  | contRunning => exact tableKept_reports s s.reports
  | waitUnchanged => exact tableKept_reports s s.reports
  | waitEnded => exact tableKept_reports s _
  | waitSleep ht => exact tableKept_sleepOn (htab.own_task ht)
  | waitCollect _ _ hz => exact tableKept_collect htab hz _
  | @waitStopped _ c _ tc _ htc =>
      have htc' := htab.own_task htc
      exact tableKept_setTask (t := { tc with flags := tc.flags ||| tflagWaited })
        htc' rfl rfl rfl
  | @resumeEnded p _ t _ ht =>
      have ht' := htab.own_task ht
      have hk : TableKept s (setTask s { t with waiting := none }) :=
        tableKept_setTask (t := { t with waiting := none }) ht' rfl rfl rfl
      exact hk.trans (tableKept_reports _ _)
  | @resumeStopped p c t tc _ ht _ _ _ _ htc =>
      have ht' := htab.own_task ht
      have hk : TableKept s (setTask s { t with waiting := none }) :=
        tableKept_setTask (t := { t with waiting := none }) ht' rfl rfl rfl
      have htc' := (hk.table htab).own_task htc
      exact hk.trans (tableKept_setTask (t := { tc with flags := tc.flags ||| tflagWaited })
        htc' rfl rfl rfl)

theorem sysFork_procs (s : Procs) (parent : Task) :
    (sysFork s parent).procs = Function.update s.procs (s.lastPid + 1)
      (some { pid := s.lastPid + 1, ppid := parent.pid, task := true, exitCode := 0
              status := .none, waiters := [], broken := false }) := rfl

theorem sysFork_table {s : Procs} (htab : ProcTable s) {parent : Task} {p : Nat}
    (hp : s.tasks p = some parent) : ProcTable (sysFork s parent) := by
  obtain ⟨rfl, hle⟩ := htab.task_pid p parent hp
  have htasks := sysFork_tasks s parent
  have hprocs := sysFork_procs s parent
  have hold : ∀ q t, s.tasks q = some t → ∃ t', (sysFork s parent).tasks q = some t' ∧
      t'.ppid = t.ppid := by
    intro q t hq
    have hqle := (htab.task_pid q t hq).2
    rw [htasks]
    by_cases hqp : q = parent.pid
    · subst hqp
      obtain rfl : parent = t := Option.some.inj (hp.symm.trans hq)
      rw [if_pos rfl]
      exact ⟨_, rfl, rfl⟩
    · rw [if_neg hqp, if_neg (by omega)]
      exact ⟨t, hq, rfl⟩
  -- every task of the new table is the parent, the child, or an old one
  have hcases : ∀ q t, (sysFork s parent).tasks q = some t →
      (q = s.lastPid + 1 ∧ t.pid = q ∧ t.ppid = parent.pid ∧ t.childrenList = []) ∨
      ∃ t₀, s.tasks q = some t₀ ∧ t.pid = t₀.pid ∧ t.ppid = t₀.ppid ∧
        ∀ c ∈ t.childrenList, c ∈ t₀.childrenList ∨ (q = parent.pid ∧ c = s.lastPid + 1) := by
    intro q t hq
    rw [htasks] at hq
    split at hq
    · rename_i hqp
      cases hq
      right
      refine ⟨parent, hqp ▸ hp, rfl, rfl, fun c hc => ?_⟩
      rcases List.mem_append.mp hc with hc | hc
      · exact .inl hc
      · exact .inr ⟨hqp, List.mem_singleton.mp hc⟩
    · split at hq
      · rename_i hqn
        cases hq
        exact .inl ⟨hqn, hqn.symm, rfl, rfl⟩
      · exact .inr ⟨t, hq, rfl, rfl, fun c hc => .inl hc⟩
  have hnew : (sysFork s parent).tasks (s.lastPid + 1) ≠ none := by
    rw [htasks, if_neg (by omega), if_pos rfl]
    exact Option.some_ne_none _
  refine ⟨?_, ?_, ?_, ?_, ?_, ?_⟩
  · intro q t hq
    show t.pid = q ∧ q ≤ s.lastPid + 1
    rcases hcases q t hq with ⟨hqn, hpid, -⟩ | ⟨t₀, ht₀, hpid, -⟩
    · exact ⟨hpid, hqn.le⟩
    · obtain ⟨h1, h2⟩ := htab.task_pid q t₀ ht₀
      exact ⟨hpid.trans h1, by omega⟩
  · intro q proc hq
    show proc.pid = q ∧ q ≤ s.lastPid + 1
    rw [hprocs] at hq
    by_cases hqn : q = s.lastPid + 1
    · subst hqn
      rw [Function.update_self, Option.some.injEq] at hq
      subst hq
      exact ⟨rfl, le_rfl⟩
    · rw [Function.update_of_ne hqn] at hq
      obtain ⟨h1, h2⟩ := htab.proc_pid q proc hq
      exact ⟨h1, by omega⟩
  · intro q t hq
    rw [hprocs]
    rcases hcases q t hq with ⟨rfl, -, hpp, -⟩ | ⟨t₀, ht₀, -, hpp, -⟩
    · exact ⟨_, Function.update_self .., hpp.symm, rfl⟩
    · have hqle := (htab.task_pid q t₀ ht₀).2
      obtain ⟨proc, hproc, hppid, hlive⟩ := htab.owner_live q t₀ ht₀
      rw [Function.update_of_ne (by omega)]
      exact ⟨proc, hproc, hppid.trans hpp.symm, hlive⟩
  · intro q proc hq hlive
    by_cases hqn : q = s.lastPid + 1
    · subst hqn
      exact hnew
    · rw [hprocs, Function.update_of_ne hqn] at hq
      obtain ⟨t, ht⟩ := Option.ne_none_iff_exists'.mp (htab.task_live q proc hq hlive)
      obtain ⟨t', ht', -⟩ := hold q t ht
      rw [ht']
      exact Option.some_ne_none t'
  · intro q t hq c hc
    rcases hcases q t hq with ⟨-, -, -, hnil⟩ | ⟨t₀, ht₀, -, -, hchildren⟩
    · rw [hnil] at hc
      exact absurd hc List.not_mem_nil
    · rcases hchildren c hc with hc | ⟨rfl, rfl⟩
      · obtain ⟨tc, htc, hpp⟩ := htab.children_live q t₀ ht₀ c hc
        obtain ⟨tc', htc', hpp'⟩ := hold c tc htc
        exact ⟨tc', htc', hpp'.trans hpp⟩
      · obtain ⟨tc, htc⟩ := Option.ne_none_iff_exists'.mp hnew
        rcases hcases _ tc htc with ⟨-, -, hpp, -⟩ | ⟨t₁, ht₁, -⟩
        · exact ⟨tc, htc, hpp⟩
        · exact absurd (htab.task_pid _ t₁ ht₁).2 (by omega)
  · intro z hz
    show _ ∧ z ≤ s.lastPid + 1
    obtain ⟨hdead, hzle⟩ := htab.zombies_dead z hz
    have hzp : z ≠ parent.pid := by
      rintro rfl
      rw [hp] at hdead
      cases hdead
    refine ⟨?_, by omega⟩
    rw [htasks, if_neg hzp, if_neg (by omega), hdead]

theorem endTask_table {s : Procs} (htab : ProcTable s) {t : Task} {owner owner₀ : Process}
    (ht : s.tasks t.pid = some t) (howner : s.procs t.pid = some owner₀)
    (hpid : owner.pid = owner₀.pid) : ProcTable (endTask s t owner) := by
  obtain ⟨hopid, -⟩ := htab.proc_pid _ _ howner
  have hown : owner.pid = t.pid := hpid.trans hopid
  have htle := (htab.task_pid _ _ ht).2
  have hlive : ∀ p tp, (endTask s t owner).tasks p = some tp →
      p ≠ t.pid ∧ ∃ tp₀, s.tasks p = some tp₀ ∧ tp.pid = tp₀.pid ∧ tp.ppid = tp₀.ppid ∧
        ∀ c ∈ tp.childrenList, c ∈ tp₀.childrenList ∧ (p = t.ppid → c ≠ t.pid) := by
    intro p tp hp
    simp only [endTask] at hp
    split at hp
    · cases hp
    · rename_i hpt
      obtain ⟨tp₀, htp₀, rfl⟩ := Option.map_eq_some_iff.mp hp
      refine ⟨hpt, tp₀, htp₀, rfl, rfl, fun c hc => ?_⟩
      dsimp only at hc
      split at hc
      · exact ⟨(List.mem_filter.mp hc).1, fun _ => of_decide_eq_true (List.mem_filter.mp hc).2⟩
      · rename_i hpp
        exact ⟨hc, fun h => absurd h hpp⟩
  have hstays : ∀ p tp, s.tasks p = some tp → p ≠ t.pid →
      ∃ tp', (endTask s t owner).tasks p = some tp' ∧ tp'.ppid = tp.ppid := by
    intro p tp hp hpt
    simp only [endTask, if_neg hpt, hp, Option.map_some]
    exact ⟨_, rfl, rfl⟩
  have hprocs : ∀ p proc, (endTask s t owner).procs p = some proc →
      (p = t.pid ∧ proc = { owner with task := false }) ∨ (p ≠ t.pid ∧ s.procs p = some proc) := by
    intro p proc hp
    simp only [endTask] at hp
    by_cases hpt : p = t.pid
    · rw [hpt, ← hown, Function.update_self] at hp
      split at hp
      · cases hp
      · cases hp
        exact .inl ⟨hpt, rfl⟩
    · rw [Function.update_of_ne (hown ▸ hpt)] at hp
      exact .inr ⟨hpt, hp⟩
  refine ⟨?_, ?_, ?_, ?_, ?_, ?_⟩
  · intro p tp hp
    obtain ⟨-, tp₀, htp₀, hpid', -⟩ := hlive p tp hp
    obtain ⟨h1, h2⟩ := htab.task_pid p tp₀ htp₀
    exact ⟨hpid'.trans h1, h2⟩
  · intro p proc hp
    rcases hprocs p proc hp with ⟨rfl, rfl⟩ | ⟨-, hp⟩
    · exact ⟨hown, htle⟩
    · exact htab.proc_pid p proc hp
  · intro p tp hp
    obtain ⟨hpt, tp₀, htp₀, -, hppid, -⟩ := hlive p tp hp
    obtain ⟨proc, hproc, hpp, hl⟩ := htab.owner_live p tp₀ htp₀
    refine ⟨proc, ?_, hpp.trans hppid.symm, hl⟩
    simp only [endTask, hown, Function.update_of_ne hpt, hproc]
  · intro p proc hp hl
    rcases hprocs p proc hp with ⟨-, rfl⟩ | ⟨hpt, hp⟩
    · cases hl
    · obtain ⟨tp, htp⟩ := Option.ne_none_iff_exists'.mp (htab.task_live p proc hp hl)
      obtain ⟨tp', htp', -⟩ := hstays p tp htp hpt
      rw [htp']
      exact Option.some_ne_none tp'
  · intro p tp hp c hc
    obtain ⟨-, tp₀, htp₀, -, -, hchildren⟩ := hlive p tp hp
    obtain ⟨hc₀, hne⟩ := hchildren c hc
    obtain ⟨tc, htc, hpp⟩ := htab.children_live p tp₀ htp₀ c hc₀
    have hct : c ≠ t.pid := by
      rintro rfl
      obtain rfl : t = tc := Option.some.inj (ht.symm.trans htc)
      exact hne hpp.symm rfl
    obtain ⟨tc', htc', hpp'⟩ := hstays c tc htc hct
    exact ⟨tc', htc', hpp'.trans hpp⟩
  · intro z hz
    have hz' : z = t.pid ∨ z ∈ s.zombieProcesses := by
      simp only [endTask, hown] at hz
      split at hz
      · exact .inr hz
      · rcases List.mem_append.mp hz with hz | hz
        · exact .inr hz
        · exact .inl (List.mem_singleton.mp hz)
    rcases hz' with rfl | hz'
    · exact ⟨by simp [endTask], htle⟩
    · obtain ⟨hdead, hzle⟩ := htab.zombies_dead z hz'
      refine ⟨?_, hzle⟩
      simp only [endTask, hdead, Option.map_none, ite_self]

theorem ProcStep.table {s s' : Procs} {a : ProcAct} (htab : ProcTable s)
    (h : ProcStep s a s') : ProcTable s' := by
  have hend : ∀ {p : Nat} {t : Task} {owner owner₀ : Process}, s.tasks p = some t →
      s.procs p = some owner₀ → owner.pid = owner₀.pid → ProcTable (endTask s t owner) := by
    intro p t owner owner₀ ht howner hpid
    obtain ⟨rfl, -⟩ := htab.task_pid p t ht
    exact endTask_table htab ht howner hpid
  have hk := h.kept htab
  cases h with
  | fork ht => exact sysFork_table htab ht
  | exit ht howner => exact hend ht howner rfl
  | fatalSignal ht howner => exact hend ht howner rfl
  | _ => exact (hk (fun _ h => nomatch h) (fun _ _ h => nomatch h) fun _ _ h => nomatch h).table htab

/-! ## The dead and the waiting -/

/-- A pid that was used and has no task any more never gets one again. -/
theorem ProcStep.dead_stays {s s' : Procs} {a : ProcAct} (htab : ProcTable s)
    (h : ProcStep s a s') {c : Nat} (hc : s.tasks c = none) (hle : c ≤ s.lastPid) :
    s'.tasks c = none ∧ c ≤ s'.lastPid := by
  have hk := h.kept htab
  cases h with
  | @fork p t ht =>
      obtain ⟨rfl, -⟩ := htab.task_pid p t ht
      have hne : c ≠ t.pid := by
        rintro rfl
        rw [ht] at hc
        cases hc
      refine ⟨?_, Nat.le_succ_of_le hle⟩
      rw [sysFork_tasks, if_neg hne, if_neg (by omega), hc]
  | exit => exact ⟨by simp only [endTask, hc, Option.map_none, ite_self], hle⟩
  | fatalSignal => exact ⟨by simp only [endTask, hc, Option.map_none, ite_self], hle⟩
  | _ =>
      have hk := hk (fun _ h => nomatch h) (fun _ _ h => nomatch h) fun _ _ h => nomatch h
      exact ⟨hk.task_none hc, hk.lastPid ▸ hle⟩

theorem setTask_some {s : Procs} {t t' : Task} {p : Nat} (hp : (setTask s t).tasks p = some t') :
    (p = t.pid ∧ t' = t) ∨ s.tasks p = some t' := by
  by_cases hpt : p = t.pid
  · exact .inl ⟨hpt, by simpa [setTask, hpt] using hp.symm⟩
  · exact .inr (by simpa [setTask, hpt] using hp)

/-- A task that waits after the step waited before it, or has just gone to
sleep on one of its own children. -/
theorem ProcStep.waits_from {s s' : Procs} {a : ProcAct} (htab : ProcTable s)
    (h : ProcStep s a s') {p c : Nat} {t' : Task} (ht' : s'.tasks p = some t')
    (hc : t'.waiting = some c) :
    (∃ t, s.tasks p = some t ∧ t.waiting = some c) ∨
      ∃ t target, s.tasks p = some t ∧ s' = sleepOn s t c ∧ s.procs c = some target ∧
        target.ppid = p ∧ target.task = true := by
  have hend : ∀ (t : Task) (owner : Process), (endTask s t owner).tasks p = some t' →
      ∃ t, s.tasks p = some t ∧ t.waiting = some c := by
    intro t owner hp
    simp only [endTask] at hp
    split at hp
    · cases hp
    · obtain ⟨tp, htp, rfl⟩ := Option.map_eq_some_iff.mp hp
      exact ⟨tp, htp, hc⟩
  cases h with
  | @fork q t ht =>
      left
      rw [sysFork_tasks] at ht'
      split at ht'
      · rename_i hpq
        cases ht'
        exact ⟨t, hpq ▸ htab.own_task ht, hc⟩
      · split at ht'
        · cases ht'
          cases hc
        · exact ⟨t', ht', hc⟩
  | exit => exact .inl (hend _ _ ht')
  | fatalSignal => exact .inl (hend _ _ ht')
  | stop =>
      left
      obtain ⟨tp, htp, rfl⟩ := Option.map_eq_some_iff.mp ht'
      exact ⟨tp, htp, hc⟩
  | @cont q t owner ht =>
      left
      rcases setTask_some ht' with ⟨rfl, rfl⟩ | hp
      · exact ⟨t, htab.own_task ht, hc⟩
      · exact ⟨t', hp, hc⟩
  | @waitSleep q pid opts t target ht hwait htarget hlive hproc =>
      obtain ⟨hqpid, -⟩ := htab.task_pid q t ht
      obtain ⟨-, hpp, -⟩ := schedGetChild_spec htab ht htarget
      rcases setTask_some
        (t := { t with state := .blocked, waiting := some target.pid }) ht' with
        ⟨rfl, rfl⟩ | hp
      · obtain rfl : target.pid = c := by simpa using hc
        right
        exact ⟨t, target, htab.own_task ht, rfl, hproc, hpp.trans hqpid.symm, hlive⟩
      · exact .inl ⟨t', hp, hc⟩
  | @waitStopped q d opts tc proc htc =>
      left
      rcases setTask_some ht' with ⟨rfl, rfl⟩ | hp
      · exact ⟨tc, htab.own_task htc, hc⟩
      · exact ⟨t', hp, hc⟩
  | @resumeEnded q d t waited ht =>
      left
      rcases setTask_some (t := { t with waiting := none }) ht' with ⟨rfl, rfl⟩ | hp
      · cases hc
      · exact ⟨t', hp, hc⟩
  | @resumeStopped q d t tc waited ht _ _ _ _ htc =>
      left
      have hwake : ∀ t₁, (setTask s { t with waiting := none }).tasks p = some t₁ →
          t₁.waiting = some c → ∃ t, s.tasks p = some t ∧ t.waiting = some c := by
        intro t₁ ht₁ hc₁
        rcases setTask_some (t := { t with waiting := none }) ht₁ with ⟨rfl, rfl⟩ | hp
        · cases hc₁
        · exact ⟨t₁, hp, hc₁⟩
      have htask := htab.own_task ht
      have hk : TableKept s (setTask s { t with waiting := none }) :=
        tableKept_setTask (t := { t with waiting := none }) htask rfl rfl rfl
      rcases setTask_some ht' with ⟨rfl, rfl⟩ | hp
      · exact hwake tc ((hk.table htab).own_task htc) hc
      · exact hwake t' hp hc
  | _ => exact .inl ⟨t', ht', hc⟩

/-- The step is the end of `c`. -/
def Ends (a : ProcAct) (c : Nat) : Prop :=
  match a with
  | .exit p _ | .fatalSignal p _ => p = c
  | _ => False

/-- A task stays until it ends. -/
theorem ProcStep.task_stays {s s' : Procs} {a : ProcAct} (htab : ProcTable s)
    (h : ProcStep s a s') {w : Nat} (hw : s.tasks w ≠ none) (hends : ¬ Ends a w) :
    s'.tasks w ≠ none := by
  have hend : ∀ {p : Nat} {t : Task} {owner : Process}, s.tasks p = some t → p ≠ w →
      (endTask s t owner).tasks w ≠ none := by
    intro p t owner ht hpw
    obtain ⟨rfl, -⟩ := htab.task_pid p t ht
    simpa [endTask, Ne.symm hpw] using hw
  have hk := h.kept htab
  cases h with
  | @fork p t =>
      rw [sysFork_tasks]
      split
      · exact Option.some_ne_none _
      · split
        · exact Option.some_ne_none _
        · exact hw
  | exit ht => exact hend ht hends
  | fatalSignal ht => exact hend ht hends
  | _ =>
      have hk := hk (fun _ h => nomatch h) (fun _ _ h => nomatch h) fun _ _ h => nomatch h
      obtain ⟨t, ht⟩ := Option.ne_none_iff_exists'.mp hw
      exact hk.task_to w t ht

/-- A task that waits goes on waiting until it is resumed or ends. -/
theorem ProcStep.wait_kept {s s' : Procs} {a : ProcAct} (htab : ProcTable s)
    (h : ProcStep s a s') {w c : Nat} {t : Task} (ht : s.tasks w = some t)
    (hc : t.waiting = some c) (hends : ¬ Ends a w) (hresume : a ≠ .resume w) :
    ∃ t', s'.tasks w = some t' ∧ t'.waiting = some c := by
  have hend : ∀ {p : Nat} {tp : Task} {owner : Process}, s.tasks p = some tp → p ≠ w →
      ∃ t', (endTask s tp owner).tasks w = some t' ∧ t'.waiting = some c := by
    intro p tp owner htp hpw
    obtain ⟨rfl, -⟩ := htab.task_pid p tp htp
    simp only [endTask, if_neg (Ne.symm hpw), ht, Option.map_some]
    exact ⟨_, rfl, hc⟩
  have hset : ∀ {u : Procs} {p : Nat} {t₀ : Task} (t₁ : Task), s.tasks p = some t₀ →
      t₁.pid = t₀.pid → t₁.waiting = t₀.waiting → u.tasks = s.tasks →
      ∃ t', (setTask u t₁).tasks w = some t' ∧ t'.waiting = some c := by
    intro u p t₀ t₁ ht₀ hpid hwait hu
    obtain ⟨htpid, -⟩ := htab.task_pid p t₀ ht₀
    by_cases hw : w = t₁.pid
    · refine ⟨t₁, by simp [setTask, hw], ?_⟩
      rw [hw, hpid, htpid, ht₀] at ht
      rw [hwait, Option.some.inj ht, hc]
    · exact ⟨t, by simp [setTask, hw, hu, ht], hc⟩
  -- a task other than the waiting one is rewritten
  have hother : ∀ {u : Procs} (t₁ : Task), w ≠ t₁.pid → u.tasks w = some t →
      ∃ t', (setTask u t₁).tasks w = some t' ∧ t'.waiting = some c :=
    fun t₁ hw hu => ⟨t, by simp [setTask, hw, hu], hc⟩
  cases h with
  | @fork p tp htp hwait =>
      have hwp : w ≠ tp.pid := by
        rintro rfl
        rw [htab.own_task htp, Option.some.injEq] at ht
        rw [← ht, hwait] at hc
        cases hc
      have hle := (htab.task_pid w t ht).2
      rw [sysFork_tasks, if_neg hwp, if_neg (by omega)]
      exact ⟨t, ht, hc⟩
  | exit htp => exact hend htp hends
  | fatalSignal htp => exact hend htp hends
  | stop =>
      simp only [stopTask, ht, Option.map_some]
      exact ⟨_, rfl, hc⟩
  | cont htp => exact hset _ htp rfl rfl rfl
  | @waitSleep p pid opts tp target htp hwait =>
      have hwp : w ≠ tp.pid := by
        rintro rfl
        rw [htab.own_task htp, Option.some.injEq] at ht
        rw [← ht, hwait] at hc
        cases hc
      exact ⟨t, by simp [sleepOn, hwp, ht], hc⟩
  | waitStopped htc => exact hset _ htc rfl rfl rfl
  | @resumeEnded p d tp waited htp =>
      obtain ⟨hpid, -⟩ := htab.task_pid p tp htp
      exact hother _ (fun hw => hresume (by rw [hw, hpid])) ht
  | @resumeStopped p d tp tc waited htp _ _ _ _ htc =>
      obtain ⟨hpid, -⟩ := htab.task_pid p tp htp
      have hwp : w ≠ tp.pid := fun hw => hresume (by rw [hw, hpid])
      have ht₁ : (setTask s { tp with waiting := none }).tasks w = some t := by
        simp [setTask, hwp, ht]
      by_cases hwc : w = tc.pid
      · have htask := htab.own_task htp
        have hk : TableKept s (setTask s { tp with waiting := none }) :=
          tableKept_setTask (t := { tp with waiting := none }) htask rfl rfl rfl
        have htc' := (hk.table htab).own_task htc
        rw [← hwc, ht₁, Option.some.injEq] at htc'
        refine ⟨{ tc with flags := tc.flags ||| tflagWaited }, by simp [setTask, hwc], ?_⟩
        rw [← htc']
        exact hc
      · exact hother { tc with flags := tc.flags ||| tflagWaited } hwc ht₁
  | _ => exact ⟨t, ht, hc⟩

/-! ## The start -/

/-- The machine as it comes up: tasks with their processes, no children, no
zombies, nothing reported, nobody waiting. -/
structure Booted (s : Procs) : Prop where
  fresh : ProcsFresh s
  owner : ∀ p t, s.tasks p = some t →
    ∃ proc, s.procs p = some proc ∧ proc.ppid = t.ppid ∧ proc.task = true
  proc : ∀ p proc, s.procs p = some proc → s.tasks p ≠ none ∧ proc.waiters = []
  waiting : ∀ p t, s.tasks p = some t → t.waiting = none

theorem Booted.table {s : Procs} (h : Booted s) : ProcTable s := by
  obtain ⟨htasks, hprocs, hz, -⟩ := h.fresh
  refine ⟨fun p t ht => ⟨(htasks p t ht).1, (htasks p t ht).2.1⟩, ?_, h.owner,
    fun p proc hp _ => (h.proc p proc hp).1, ?_, ?_⟩
  · intro p proc hp
    obtain ⟨t, ht⟩ := Option.ne_none_iff_exists'.mp (h.proc p proc hp).1
    exact ⟨hprocs p proc hp, (htasks p t ht).2.1⟩
  · intro p t ht c hc
    rw [(htasks p t ht).2.2] at hc
    exact absurd hc List.not_mem_nil
  · simp [hz]

theorem initOnly_booted : Booted initOnly := by
  refine ⟨initOnly_fresh, ?_, ?_, ?_⟩
  · intro p t ht
    simp only [initOnly] at ht
    split at ht
    · rename_i hp
      subst hp
      cases ht
      exact ⟨_, rfl, rfl, rfl⟩
    · cases ht
  · intro p proc hp
    simp only [initOnly] at hp
    split at hp
    · rename_i hp1
      subst hp1
      cases hp
      exact ⟨Option.some_ne_none _, rfl⟩
    · cases hp
  · intro p t ht
    simp only [initOnly] at ht
    split at ht
    · cases ht
      rfl
    · cases ht

end Levos.Kernel
