import Levos.Kernel.ProcSteps

/-!
# Exit statuses (`__task_do_wait`, `task_exit`, `sys_waitpid`)

A process that ended stays on `zombie_processes` until its parent has asked
for it; `TFLAG_WAITED` is the one exception: `task_exit` destroys the process
of a task that carries it. The flag is set when a stop of the task is reported
and cleared by the SIGCONT that ends the stop, so that it should never be seen
by `task_exit`.

A run is recorded together with the terminations that took place in it.
`exit_status_kept` says that no status is lost while no task ends with the
flag set, and `exit_status_lost` is a run that loses one: a stopped task whose
`wait_elem` is still linked to a child it waited for earlier is woken by that
child's exit instead of a SIGCONT.
-/

namespace Levos.Kernel

open Levos.Base

/-! ## The history of a run -/

/-- A termination: whose child it was and the status word it should be
reported with. -/
structure Exit where
  ppid : Nat
  pid : Nat
  wstatus : BitVec 32
deriving DecidableEq, Repr

structure History where
  table : Procs
  exits : List Exit

def exitOf (s : Procs) : ProcAct → List Exit
  | .exit p errCode => ((s.tasks p).map fun t => ⟨t.ppid, p, waitExit errCode⟩).toList
  | .fatalSignal p signal => ((s.tasks p).map fun t => ⟨t.ppid, p, waitSig signal⟩).toList
  | _ => []

def historyStep (h : History) (a : ProcAct) : Option History :=
  (procStep h.table a).map fun s => { table := s, exits := h.exits ++ exitOf h.table a }

/-- A termination not reported yet is what `waitpid` for that child returns, and
nobody waits for a process that was destroyed. -/
def StatusesKept (h : History) : Prop :=
  (∀ e ∈ h.exits, (e.ppid, e.pid) ∉ h.table.reports → ∀ t, h.table.tasks e.ppid = some t →
    ∀ opts, sysWaitpid h.table t true e.pid opts =
      some (h.table, .returned ⟨e.pid, some e.wstatus⟩ (some e.pid))) ∧
  ∀ p t c, h.table.tasks p = some t → t.waiting = some c → h.table.procs c ≠ none

/-- No task ends while `TFLAG_WAITED` is set. -/
def EndsUnwaited (h : History) : ProcAct → Prop
  | .exit p _ | .fatalSignal p _ =>
      ∀ t, h.table.tasks p = some t → t.flags &&& tflagWaited = 0
  | _ => True

/-! ## What steps do to the dead -/

theorem ProcStep.reports_grow {s s' : Procs} {a : ProcAct} (h : ProcStep s a s')
    {e : Nat × Nat} (he : e ∈ s.reports) : e ∈ s'.reports := by
  cases h with
  | waitEnded => exact List.mem_append_left _ he
  | waitCollect => exact List.mem_append_left _ he
  | resumeEnded => exact List.mem_append_left _ he
  | _ => exact he

/-- The fields of a dead process that a report is made from. -/
def SameDeath (proc proc' : Process) : Prop :=
  proc'.ppid = proc.ppid ∧ proc'.task = proc.task ∧ proc'.status = proc.status ∧
    proc'.exitCode = proc.exitCode

theorem SameDeath.refl (proc : Process) : SameDeath proc proc := ⟨rfl, rfl, rfl, rfl⟩

/-- A process rewritten under the pid of a live task is not a dead one. -/
theorem dead_of_update {s : Procs} {p q c : Nat} {t : Task} {proc : Process}
    {new : Option Process} (ht : s.tasks p = some t) (hq : q = p)
    (hproc : s.procs c = some proc) (hdead : s.tasks c = none) :
    Function.update s.procs q new c = some proc := by
  have hcp : c ≠ q := by
    rintro rfl
    rw [hq, ht] at hdead
    cases hdead
  rw [Function.update_of_ne hcp, hproc]

/-- A zombie stays as it is until it is collected and reported to its parent. -/
theorem ProcStep.zombie_kept {s s' : Procs} {a : ProcAct} (htab : ProcTable s)
    (h : ProcStep s a s') {c : Nat} {proc : Process} (hz : c ∈ s.zombieProcesses)
    (hproc : s.procs c = some proc) :
    (c ∈ s'.zombieProcesses ∧ ∃ proc', s'.procs c = some proc' ∧ SameDeath proc proc') ∨
      (proc.ppid, c) ∈ s'.reports := by
  obtain ⟨hdead, hle⟩ := htab.zombies_dead c hz
  have hend : ∀ {p : Nat} {t : Task} {owner₀ : Process} (owner : Process),
      s.tasks p = some t → s.procs p = some owner₀ → owner.pid = owner₀.pid →
      c ∈ (endTask s t owner).zombieProcesses ∧
        ∃ proc', (endTask s t owner).procs c = some proc' ∧ SameDeath proc proc' := by
    intro p t owner₀ owner ht howner hpid
    obtain ⟨hopid, -⟩ := htab.proc_pid p owner₀ howner
    constructor
    · simp only [endTask]
      split
      · exact hz
      · exact List.mem_append_left _ hz
    · exact ⟨proc, dead_of_update ht (hpid.trans hopid) hproc hdead, .refl proc⟩
  cases h with
  | fork ht =>
      left
      refine ⟨hz, proc, ?_, .refl proc⟩
      rw [sysFork_procs, Function.update_of_ne (by omega), hproc]
  | exit ht howner => exact .inl (hend _ ht howner rfl)
  | fatalSignal ht howner => exact .inl (hend _ ht howner rfl)
  | @stop p t owner sig ht howner =>
      obtain ⟨hopid, -⟩ := htab.proc_pid p owner howner
      exact .inl ⟨hz, proc, dead_of_update ht hopid hproc hdead, .refl proc⟩
  | @cont p t owner ht howner =>
      obtain ⟨hopid, -⟩ := htab.proc_pid p owner howner
      exact .inl ⟨hz, proc, dead_of_update ht hopid hproc hdead, .refl proc⟩
  | @waitSleep p pid opts t target =>
      left
      refine ⟨hz, { proc with
        waiters := if c = target.pid then proc.waiters ++ [t.pid] else proc.waiters
        broken := proc.broken || decide (t.pid ∈ proc.waiters) }, ?_, rfl, rfl, rfl, rfl⟩
      simp only [sleepOn, hproc, Option.map_some]
  | @waitCollect p opts t z ht hwait hmem hprocz hppid =>
      by_cases hcz : c = z.pid
      · subst hcz
        obtain rfl : proc = z := Option.some.inj (hproc.symm.trans hprocz)
        right
        rw [hppid]
        exact List.mem_append_right _ (List.mem_singleton_self _)
      · left
        refine ⟨List.mem_filter.mpr ⟨hz, by simpa using hcz⟩, proc, ?_, .refl proc⟩
        simp [hcz, hproc]
  | _ => exact .inl ⟨hz, proc, hproc, .refl proc⟩

/-! ## The invariant -/

/-- A termination is either reported, or still to be read off its zombie. -/
def StatusAt (s : Procs) (e : Exit) : Prop :=
  (e.ppid, e.pid) ∈ s.reports ∨
  (e.pid ∈ s.zombieProcesses ∧ ∃ proc, s.procs e.pid = some proc ∧ proc.ppid = e.ppid ∧
    proc.task = false ∧ deathStatus proc proc.exitCode = some e.wstatus)

structure HistoryInv (h : History) : Prop where
  table : ProcTable h.table
  exits_dead : ∀ e ∈ h.exits, h.table.tasks e.pid = none ∧ 0 < e.pid ∧ e.pid ≤ h.table.lastPid
  exits_kept : ∀ e ∈ h.exits, StatusAt h.table e
  waits_kept : ∀ p t c, h.table.tasks p = some t → t.waiting = some c →
    ∃ proc, h.table.procs c = some proc ∧ proc.ppid = p

theorem deathStatus_same {proc proc' : Process} (h : SameDeath proc proc') :
    deathStatus proc' proc'.exitCode = deathStatus proc proc.exitCode := by
  obtain ⟨-, -, hstatus, hcode⟩ := h
  rw [hcode]
  unfold deathStatus
  rw [hstatus]

theorem ProcStep.status_kept {s s' : Procs} {a : ProcAct} (htab : ProcTable s)
    (h : ProcStep s a s') {e : Exit} (he : StatusAt s e) : StatusAt s' e := by
  rcases he with hrep | ⟨hz, proc, hproc, hppid, hdead, hword⟩
  · exact .inl (h.reports_grow hrep)
  · rcases h.zombie_kept htab hz hproc with ⟨hz', proc', hproc', hsame⟩ | hrep
    · right
      refine ⟨hz', proc', hproc', hsame.1.trans hppid, hsame.2.1.trans hdead, ?_⟩
      rw [deathStatus_same hsame, hword]
    · rw [hppid] at hrep
      exact .inl hrep

/-- The process a task waits for is destroyed by no step whose task, if it
ends, has the flag clear. -/
theorem ProcStep.waited_kept {s s' : Procs} {a : ProcAct} (htab : ProcTable s)
    (h : ProcStep s a s') {exits : List Exit} (hends : EndsUnwaited ⟨s, exits⟩ a)
    {p c : Nat} {t : Task} {proc : Process} (ht : s.tasks p = some t) (hc : t.waiting = some c)
    (hproc : s.procs c = some proc) (hppid : proc.ppid = p) :
    ∃ proc', s'.procs c = some proc' ∧ proc'.ppid = p := by
  have hset : ∀ {q : Nat} {owner₀ : Process} (owner : Process), s.procs q = some owner₀ →
      owner.pid = owner₀.pid → owner.ppid = owner₀.ppid →
      ∃ proc', Function.update s.procs owner.pid (some owner) c = some proc' ∧
        proc'.ppid = p := by
    intro q owner₀ owner howner hpid hpp
    obtain ⟨hopid, -⟩ := htab.proc_pid q owner₀ howner
    by_cases hco : c = owner.pid
    · subst hco
      rw [hpid, hopid, howner] at hproc
      obtain rfl := Option.some.inj hproc
      exact ⟨_, Function.update_self .., hpp.trans hppid⟩
    · rw [Function.update_of_ne hco]
      exact ⟨proc, hproc, hppid⟩
  have hend : ∀ {q : Nat} {tq : Task} {owner₀ : Process} (owner : Process),
      s.procs q = some owner₀ → owner.pid = owner₀.pid → owner.ppid = owner₀.ppid →
      tq.flags &&& tflagWaited = 0 →
      ∃ proc', (endTask s tq owner).procs c = some proc' ∧ proc'.ppid = p := by
    intro q tq owner₀ owner howner hpid hpp hflags
    simp only [endTask, hflags]
    exact hset { owner with task := false } howner hpid hpp
  cases h with
  | fork =>
      have hcle := (htab.proc_pid c proc hproc).2
      refine ⟨proc, ?_, hppid⟩
      rw [sysFork_procs, Function.update_of_ne (by omega), hproc]
  | exit htq howner => exact hend _ howner rfl rfl (hends _ htq)
  | fatalSignal htq howner => exact hend _ howner rfl rfl (hends _ htq)
  | stop _ howner => exact hset _ howner rfl rfl
  | cont _ howner => exact hset _ howner rfl rfl
  | @waitSleep q pid opts tq target =>
      refine ⟨{ proc with
        waiters := if c = target.pid then proc.waiters ++ [tq.pid] else proc.waiters
        broken := proc.broken || decide (tq.pid ∈ proc.waiters) }, ?_, hppid⟩
      simp only [sleepOn, hproc, Option.map_some]
  | @waitCollect q opts tq z htq hwait hmem hprocz hppidz =>
      -- the collector is the parent, and a parent that waits makes no call
      have hcz : c ≠ z.pid := by
        rintro rfl
        obtain rfl : proc = z := Option.some.inj (hproc.symm.trans hprocz)
        obtain rfl : p = q := hppid.symm.trans hppidz
        obtain rfl : t = tq := Option.some.inj (ht.symm.trans htq)
        rw [hwait] at hc
        cases hc
      exact ⟨proc, by simp [hcz, hproc], hppid⟩
  | _ => exact ⟨proc, hproc, hppid⟩

/-- The record of an end is what the new zombie holds. -/
theorem statusAt_endTask {s : Procs} (htab : ProcTable s) {t : Task} {owner₀ : Process}
    (owner : Process) {w : BitVec 32} (ht : s.tasks t.pid = some t)
    (howner : s.procs t.pid = some owner₀) (hpid : owner.pid = owner₀.pid)
    (hppid : owner.ppid = owner₀.ppid) (hflags : t.flags &&& tflagWaited = 0)
    (hword : deathStatus owner owner.exitCode = some w) :
    StatusAt (endTask s t owner) ⟨t.ppid, t.pid, w⟩ := by
  obtain ⟨proc, hproc, hpp, -⟩ := htab.owner_live _ _ ht
  obtain rfl : proc = owner₀ := Option.some.inj (hproc.symm.trans howner)
  obtain ⟨hopid, -⟩ := htab.proc_pid _ _ howner
  have hown : owner.pid = t.pid := hpid.trans hopid
  have hclear : ¬ t.flags &&& tflagWaited ≠ 0 := not_not_intro hflags
  right
  refine ⟨?_, { owner with task := false }, ?_, hppid.trans hpp, rfl, hword⟩
  · simp only [endTask, if_neg hclear]
    exact List.mem_append_right _ (List.mem_singleton.mpr hown.symm)
  · simp only [endTask, if_neg hclear]
    rw [← hown, Function.update_self]

/-- What the step adds to the history is a status that is kept. -/
theorem ProcStep.exitOf_kept {s s' : Procs} {a : ProcAct} (htab : ProcTable s)
    (h : ProcStep s a s') {exits : List Exit} (hends : EndsUnwaited ⟨s, exits⟩ a) :
    ∀ e ∈ exitOf s a, (s'.tasks e.pid = none ∧ 0 < e.pid ∧ e.pid ≤ s'.lastPid) ∧
      StatusAt s' e := by
  intro e he
  cases h with
  | @exit p t owner errCode ht howner hwait hwalk hp =>
      obtain ⟨rfl, hle⟩ := htab.task_pid p t ht
      obtain rfl : e = ⟨t.ppid, t.pid, waitExit errCode⟩ := by simpa [exitOf, ht] using he
      refine ⟨⟨by simp [endTask], Nat.zero_lt_of_lt hp, hle⟩, ?_⟩
      exact statusAt_endTask htab _ ht howner rfl rfl (hends t ht) rfl
  | @fatalSignal p t owner signal ht howner hwalk hp =>
      obtain ⟨rfl, hle⟩ := htab.task_pid p t ht
      obtain rfl : e = ⟨t.ppid, t.pid, waitSig signal⟩ := by simpa [exitOf, ht] using he
      refine ⟨⟨by simp [endTask], Nat.zero_lt_of_lt hp, hle⟩, ?_⟩
      exact statusAt_endTask htab _ ht howner rfl rfl (hends t ht) rfl
  | _ => exact absurd he List.not_mem_nil

theorem historyStep_inv {h h' : History} {a : ProcAct} (hinv : HistoryInv h)
    (hends : EndsUnwaited h a) (hstep : historyStep h a = some h') : HistoryInv h' := by
  obtain ⟨s', hs', rfl⟩ := Option.map_eq_some_iff.mp hstep
  have htab := hinv.table
  have hst := procStep_sound htab hs'
  have hnew := hst.exitOf_kept htab hends
  refine ⟨hst.table htab, ?_, ?_, ?_⟩
  · intro e he
    rcases List.mem_append.mp he with he | he
    · obtain ⟨hdead, hpos, hle⟩ := hinv.exits_dead e he
      obtain ⟨hdead', hle'⟩ := hst.dead_stays htab hdead hle
      exact ⟨hdead', hpos, hle'⟩
    · exact (hnew e he).1
  · intro e he
    rcases List.mem_append.mp he with he | he
    · exact hst.status_kept htab (hinv.exits_kept e he)
    · exact (hnew e he).2
  · intro p t' c ht' hc
    rcases hst.waits_from htab ht' hc with ⟨t, ht, hwait⟩ | ⟨t, target, -, rfl, htarget, hpp, -⟩
    · obtain ⟨proc, hproc, hppid⟩ := hinv.waits_kept p t c ht hwait
      exact hst.waited_kept htab hends ht hwait hproc hppid
    · simp only [sleepOn, htarget, Option.map_some]
      exact ⟨_, rfl, hpp⟩

/-- A dead child is found among the zombies, and its status word is its own. -/
theorem HistoryInv.statuses_kept {h : History} (hinv : HistoryInv h) : StatusesKept h := by
  have htab := hinv.table
  constructor
  · intro e he hunreported t ht opts
    obtain ⟨hdead, hpos, -⟩ := hinv.exits_dead e he
    obtain ⟨htpid, -⟩ := htab.task_pid _ t ht
    rcases hinv.exits_kept e he with hrep | ⟨hz, proc, hproc, hppid, hended, hword⟩
    · exact absurd hrep hunreported
    · have hchild : e.pid ∉ t.childrenList := by
        intro hm
        obtain ⟨tc, htc, -⟩ := htab.children_live _ t ht _ hm
        rw [hdead] at htc
        cases htc
      have hfind : schedGetChild h.table t e.pid = some proc := by
        rw [schedGetChild, if_neg hchild]
        have hsome : (h.table.zombieProcesses.find? fun z => (h.table.procs z).any fun proc =>
            proc.ppid = t.pid ∧ proc.pid = e.pid).isSome := by
          rw [List.find?_isSome]
          refine ⟨e.pid, hz, ?_⟩
          rw [hproc, Option.any_some, decide_eq_true_eq]
          exact ⟨hppid.trans htpid.symm, (htab.proc_pid _ _ hproc).1⟩
        obtain ⟨z, hzfind⟩ := Option.isSome_iff_exists.mp hsome
        rw [hzfind]
        have hmatch := List.find?_some hzfind
        obtain ⟨procz, hprocz, hany⟩ := (Option.any_eq_true _ _).mp hmatch
        have hzpid : procz.pid = e.pid := (of_decide_eq_true hany).2
        rw [(htab.proc_pid z procz hprocz).1] at hzpid
        rw [hzpid]
        exact hproc
      rw [sysWaitpid, if_neg (by decide), if_neg (by omega), if_neg (by omega),
        if_neg (by omega), Int.toNat_natCast, waitSpecific, hfind]
      simp only [if_pos hended, hword, Option.map_some]
  · intro p t c ht hc
    obtain ⟨proc, hproc, -⟩ := hinv.waits_kept p t c ht hc
    rw [hproc]
    exact Option.some_ne_none proc

/-- **No exit status is lost.** In every run in which no task ends with
`TFLAG_WAITED` set, a termination that was not reported yet is what the
parent's `waitpid` returns, and no process is destroyed while a task waits
for it. -/
theorem exit_status_kept (s₀ : Procs) (h : History) (acts : List ProcAct) (hboot : Booted s₀)
    (hmeet : StepsMeet historyStep EndsUnwaited ⟨s₀, []⟩ acts)
    (hrun : runSteps historyStep ⟨s₀, []⟩ acts = some h) : StatusesKept h := by
  have hstart : HistoryInv ⟨s₀, []⟩ := by
    refine ⟨hboot.table, fun e he => absurd he List.not_mem_nil,
      fun e he => absurd he List.not_mem_nil, ?_⟩
    intro p t c ht hc
    rw [hboot.waiting p t ht] at hc
    cases hc
  have hinv : HistoryInv h :=
    runSteps_invariant_of_meet (fun _ _ _ hs hc hstep => historyStep_inv hs hc hstep)
      hstart hmeet hrun
  exact hinv.statuses_kept

instance (h : History) (a : ProcAct) : Decidable (EndsUnwaited h a) :=
  match a with
  | .exit p _ | .fatalSignal p _ =>
      match hp : h.table.tasks p with
      | none => isTrue fun t ht => absurd (hp.symm.trans ht) (Option.some_ne_none t).symm
      | some t₀ =>
          decidable_of_iff (t₀.flags &&& tflagWaited = 0)
            ⟨fun h _ ht => Option.some.inj (hp.symm.trans ht) ▸ h, fun h => h t₀ hp⟩
  | .fork _ | .stop _ _ | .cont _ | .waitpid .. | .resume _ => isTrue trivial

/-- A child is stopped, its stop is reported, it is continued and exits with
code 14: the parent reads 14. -/
theorem exit_status_kept_continued :
    ∃ h, runSteps historyStep ⟨initOnly, []⟩
        [.fork 1, .stop 2 19, .waitpid 1 true (-1) 0, .cont 2, .exit 2 14] = some h ∧
      h.exits = [⟨1, 2, waitExit 14⟩] ∧ h.table.reports = [] ∧ StatusesKept h := by
  have hrun : ((runSteps historyStep ⟨initOnly, []⟩
      [.fork 1, .stop 2 19, .waitpid 1 true (-1) 0, .cont 2, .exit 2 14]).map fun h =>
        (h.exits, h.table.reports)) = some ([⟨1, 2, waitExit 14⟩], []) := by
    decide +kernel
  obtain ⟨h, hh, hlog⟩ := Option.map_eq_some_iff.mp hrun
  refine ⟨h, hh, congrArg Prod.fst hlog, congrArg Prod.snd hlog,
    exit_status_kept initOnly h _ initOnly_booted ?_ hh⟩
  decide +kernel

/-- Task 2 waited for its child 3 and was told of its stop, so that its
`wait_elem` is still linked to 3. It is stopped itself, which its parent is
told, and is set running by the exit of 3. When it exits, the flag is still
set: its parent is answered `-ECHILD`. -/
theorem exit_status_lost :
    Booted initOnly ∧
    ∃ h, runSteps historyStep ⟨initOnly, []⟩
        [.fork 1, .fork 2, .waitpid 2 true 3 0, .stop 3 19, .resume 2, .stop 2 19,
          .waitpid 1 true (-1) 0, .cont 3, .exit 3 0, .exit 2 14] = some h ∧
      ⟨1, 2, waitExit 14⟩ ∈ h.exits ∧ (1, 2) ∉ h.table.reports ∧
      (∃ t, h.table.tasks 1 = some t ∧
        (sysWaitpid h.table t true 2 0).map Prod.snd = some (.returned ⟨-echild, none⟩ none)) ∧
      ¬ StatusesKept h := by
  have hrun : ((runSteps historyStep ⟨initOnly, []⟩
      [.fork 1, .fork 2, .waitpid 2 true 3 0, .stop 3 19, .resume 2, .stop 2 19,
        .waitpid 1 true (-1) 0, .cont 3, .exit 3 0, .exit 2 14]).map fun h =>
        (decide (⟨1, 2, waitExit 14⟩ ∈ h.exits), decide ((1, 2) ∉ h.table.reports),
          (h.table.tasks 1).map fun t => (sysWaitpid h.table t true 2 0).map Prod.snd)) =
      some (true, true, some (some (.returned ⟨-echild, none⟩ none))) := by
    decide +kernel
  obtain ⟨h, hh, hfacts⟩ := Option.map_eq_some_iff.mp hrun
  simp only [Prod.mk.injEq, decide_eq_true_eq] at hfacts
  obtain ⟨hexit, hrep, hwait⟩ := hfacts
  obtain ⟨t, ht, hcall⟩ := Option.map_eq_some_iff.mp hwait
  refine ⟨initOnly_booted, h, hh, hexit, hrep, ⟨t, ht, hcall⟩, ?_⟩
  intro hkept
  have hstatus : sysWaitpid h.table t true 2 0 =
      some (h.table, .returned ⟨2, some (waitExit 14)⟩ (some 2)) := hkept.1 _ hexit hrep t ht 0
  rw [hstatus] at hcall
  cases hcall

end Levos.Kernel
