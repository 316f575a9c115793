import Levos.Kernel.ProcSteps
import Levos.Lib.LinkedList

/-!
# Waiter lists in memory (`process_add_waiter`, `task_unblock_waiters`)

The process table of `Levos.Kernel.Wait` keeps the waiters of a process as a
sequence of pids. In memory they are a doubly linked list between two sentinels
of the process, threaded through the one `wait_elem` each task has, and
`process_add_waiter` is a `list_push_back` that does not ask whether the
element is linked already. This module runs the table and the pointers side by
side.

Nothing takes a `wait_elem` out of a list. `waiters_well_formed` says that the
lists are intact as long as no task blocks or ends while its element is still
in the list of an existing process, and every wait that goes on finds its
process ended; `waiters_self_loop` is a second wait for the same child, after
which the list never ends.
-/

namespace Levos.Kernel

open Levos.Base Levos.Lib ListNode

/-! ## The system -/

structure WaitLists where
  table : Procs
  links : Links ListNode

/-- The pointer writes of a step: `process_create` makes an empty list, and a
wait that blocks pushes the caller's `wait_elem`. -/
def linksAfter (s : WaitLists) : ProcAct → Links ListNode
  | .fork _ => listInit s.links (head (s.table.lastPid + 1)) (tail (s.table.lastPid + 1))
  | .waitpid p ok pid opts =>
      match (s.table.tasks p).bind fun t => waitTarget s.table t ok pid opts with
      | some c => listPushBack s.links (tail c) (elem p)
      | none => s.links
  | _ => s.links

def waitListsStep (s : WaitLists) (a : ProcAct) : Option WaitLists :=
  (procStep s.table a).map fun table => { table := table, links := linksAfter s a }

/-- Every waiters list is a doubly linked list without repetitions of live
tasks, on which a walk stops; no task is in two of them; and on the list of a
process that can still stop or exit are only tasks that wait for it. -/
def WaitersWellFormed (s : WaitLists) : Prop :=
  ∃ waiters : Nat → List Nat,
    (∀ c proc, s.table.procs c = some proc →
      ListAt s.links c (waiters c) ∧ (waiters c).Nodup ∧
      (∀ fuel, (waiters c).length < fuel →
        listWalk s.links (tail c) fuel (s.links.next (head c)) = some ((waiters c).map elem)) ∧
      (∀ w ∈ waiters c, s.table.tasks w ≠ none) ∧
      (proc.task = true → ∀ w ∈ waiters c, ∃ t, s.table.tasks w = some t ∧ t.waiting = some c)) ∧
    ∀ c d, s.table.procs c ≠ none → s.table.procs d ≠ none → c ≠ d →
      ∀ w ∈ waiters c, w ∉ waiters d

/-- The `wait_elem` of `p` is in the list of no existing process. -/
def Unlinked (s : Procs) (p : Nat) : Prop :=
  ∀ c proc, s.procs c = some proc → p ∉ proc.waiters

/-- A task blocks in `waitpid`, and ends, only with its `wait_elem` unlinked;
and a wait goes on only when the process it is for has ended. -/
def NoStaleWaiter (s : WaitLists) : ProcAct → Prop
  | .waitpid p ok pid opts =>
      ∀ t, s.table.tasks p = some t → waitTarget s.table t ok pid opts ≠ none →
        Unlinked s.table p
  | .exit p _ | .fatalSignal p _ => Unlinked s.table p
  | .resume p => ∀ t c waited, s.table.tasks p = some t → t.waiting = some c →
      s.table.procs c = some waited → waited.task = false
  | _ => True

/-! ## The invariant -/

/-- The list in memory is the sequence the table has. -/
structure WaitListsInv (s : WaitLists) : Prop where
  table : ProcTable s.table
  linked : ∀ c proc, s.table.procs c = some proc →
    ListAt s.links c proc.waiters ∧ proc.waiters.Nodup
  members : ∀ c proc, s.table.procs c = some proc → ∀ w ∈ proc.waiters, s.table.tasks w ≠ none
  apart : ∀ c d procc procd, s.table.procs c = some procc → s.table.procs d = some procd →
    c ≠ d → ∀ w ∈ procc.waiters, w ∉ procd.waiters
  waiting : ∀ c proc, s.table.procs c = some proc → proc.task = true → ∀ w ∈ proc.waiters,
    ∃ t, s.table.tasks w = some t ∧ t.waiting = some c

/-- A step that neither forks nor blocks: processes keep their waiters, none
appears, and none comes alive again. -/
def WaitersKept (s s' : Procs) : Prop :=
  ∀ c proc', s'.procs c = some proc' → ∃ proc, s.procs c = some proc ∧
    proc'.waiters = proc.waiters ∧ (proc'.task = true → proc.task = true)

theorem waitersKept_update {s : Procs} (htab : ProcTable s) {q : Nat} {owner₀ : Process}
    (howner : s.procs q = some owner₀) {r : Nat} (hr : r = owner₀.pid) {new : Option Process}
    (hnew : ∀ proc', new = some proc' → proc'.waiters = owner₀.waiters ∧
      (proc'.task = true → owner₀.task = true)) :
    ∀ c proc', Function.update s.procs r new c = some proc' →
      ∃ proc, s.procs c = some proc ∧ proc'.waiters = proc.waiters ∧
        (proc'.task = true → proc.task = true) := by
  intro c proc' hc
  by_cases hcr : c = r
  · subst hcr
    rw [Function.update_self] at hc
    obtain ⟨hws, htask⟩ := hnew proc' hc
    obtain ⟨hopid, -⟩ := htab.proc_pid q owner₀ howner
    exact ⟨owner₀, by rw [hr, hopid, howner], hws, htask⟩
  · rw [Function.update_of_ne hcr] at hc
    exact ⟨proc', hc, rfl, fun h => h⟩

theorem ProcStep.waiters_kept {s s' : Procs} {a : ProcAct} (htab : ProcTable s)
    (h : ProcStep s a s') (hfork : ∀ p, a ≠ .fork p)
    (hwait : ∀ p ok pid opts, a = .waitpid p ok pid opts → ∀ t, s.tasks p = some t →
      waitTarget s t ok pid opts = none) : WaitersKept s s' := by
  have hsame : WaitersKept s s := fun c proc hc => ⟨proc, hc, rfl, fun h => h⟩
  cases h with
  | fork => exact absurd rfl (hfork _)
  | exit _ howner =>
      refine waitersKept_update htab howner rfl ?_
      intro proc' hnew
      split at hnew
      · cases hnew
      · cases hnew
        exact ⟨rfl, fun h => nomatch h⟩
  | fatalSignal _ howner =>
      refine waitersKept_update htab howner rfl ?_
      intro proc' hnew
      split at hnew
      · cases hnew
      · cases hnew
        exact ⟨rfl, fun h => nomatch h⟩
  | stop _ howner =>
      refine waitersKept_update htab howner rfl ?_
      rintro proc' ⟨⟩
      exact ⟨rfl, fun h => h⟩
  | cont _ howner =>
      refine waitersKept_update htab howner rfl ?_
      rintro proc' ⟨⟩
      exact ⟨rfl, fun h => h⟩
  | @waitSleep p pid opts t target ht _ htarget hlive hproc hpos hopts =>
      have hnone := hwait p true pid opts rfl t ht
      rw [waitTarget, if_pos ⟨rfl, by omega⟩, Int.toNat_natCast, htarget, Option.bind_some,
        if_pos ⟨hlive, hopts⟩] at hnone
      cases hnone
  | waitCollect ht hw hz hproc =>
      refine waitersKept_update htab hproc rfl ?_
      rintro proc' ⟨⟩
  | _ => exact hsame

/-- Any step but a fork and a wait that blocks. -/
theorem waitListsInv_kept {s : WaitLists} {a : ProcAct} {table : Procs} (hinv : WaitListsInv s)
    (hst : ProcStep s.table a table) (hkept : WaitersKept s.table table)
    (hends : ∀ w, Ends a w → Unlinked s.table w)
    (hresume : ∀ w t c waited, a = .resume w → s.table.tasks w = some t → t.waiting = some c →
      s.table.procs c = some waited → waited.task = false) :
    WaitListsInv { table := table, links := s.links } := by
  have htab := hinv.table
  refine ⟨hst.table htab, ?_, ?_, ?_, ?_⟩
  · intro c proc' hc
    obtain ⟨proc, hproc, hws, -⟩ := hkept c proc' hc
    rw [hws]
    exact hinv.linked c proc hproc
  · intro c proc' hc w hw
    obtain ⟨proc, hproc, hws, -⟩ := hkept c proc' hc
    rw [hws] at hw
    exact hst.task_stays htab (hinv.members c proc hproc w hw) fun he => hends w he c proc hproc hw
  · intro c d procc' procd' hc hd hcd w hw
    obtain ⟨procc, hprocc, hwsc, -⟩ := hkept c procc' hc
    obtain ⟨procd, hprocd, hwsd, -⟩ := hkept d procd' hd
    rw [hwsc] at hw
    rw [hwsd]
    exact hinv.apart c d procc procd hprocc hprocd hcd w hw
  · intro c proc' hc hlive w hw
    obtain ⟨proc, hproc, hws, htask⟩ := hkept c proc' hc
    rw [hws] at hw
    obtain ⟨t, ht, hwait⟩ := hinv.waiting c proc hproc (htask hlive) w hw
    refine hst.wait_kept htab ht hwait (fun he => hends w he c proc hproc hw) ?_
    intro hres
    have hdead := hresume w t c proc hres ht hwait hproc
    rw [htask hlive] at hdead
    cases hdead

theorem waitListsInv_fork {s : WaitLists} {p : Nat} {t : Task} (hinv : WaitListsInv s)
    (ht : s.table.tasks p = some t) (hwait : t.waiting = none) :
    WaitListsInv
      { table := sysFork s.table t
        links := listInit s.links (head (s.table.lastPid + 1)) (tail (s.table.lastPid + 1)) } := by
  have htab := hinv.table
  have hst : ProcStep s.table (.fork p) (sysFork s.table t) := .fork ht hwait
  -- every process is an old one, or the new one without waiters
  have hcases : ∀ c proc, (sysFork s.table t).procs c = some proc →
      (c = s.table.lastPid + 1 ∧ proc.waiters = []) ∨
        (c ≤ s.table.lastPid ∧ s.table.procs c = some proc) := by
    intro c proc hc
    rw [sysFork_procs] at hc
    by_cases hcn : c = s.table.lastPid + 1
    · left
      rw [hcn, Function.update_self, Option.some.injEq] at hc
      subst hc
      exact ⟨hcn, rfl⟩
    · right
      rw [Function.update_of_ne hcn] at hc
      exact ⟨(htab.proc_pid c proc hc).2, hc⟩
  refine ⟨hst.table htab, ?_, ?_, ?_, ?_⟩
  · intro c proc hc
    rcases hcases c proc hc with ⟨rfl, hnil⟩ | ⟨hle, hold⟩
    · rw [hnil]
      exact ⟨listAt_init _ _, List.nodup_nil⟩
    · obtain ⟨hlist, hnodup⟩ := hinv.linked c proc hold
      exact ⟨hlist.init_other (by omega), hnodup⟩
  · intro c proc hc w hw
    rcases hcases c proc hc with ⟨-, hnil⟩ | ⟨-, hold⟩
    · rw [hnil] at hw
      exact absurd hw List.not_mem_nil
    · exact hst.task_stays htab (hinv.members c proc hold w hw) id
  · intro c d procc procd hc hd hcd w hw
    rcases hcases c procc hc with ⟨-, hnil⟩ | ⟨-, holdc⟩
    · rw [hnil] at hw
      exact absurd hw List.not_mem_nil
    · rcases hcases d procd hd with ⟨-, hnil⟩ | ⟨-, holdd⟩
      · rw [hnil]
        exact List.not_mem_nil
      · exact hinv.apart c d procc procd holdc holdd hcd w hw
  · intro c proc hc hlive w hw
    rcases hcases c proc hc with ⟨-, hnil⟩ | ⟨-, hold⟩
    · rw [hnil] at hw
      exact absurd hw List.not_mem_nil
    · obtain ⟨tw, htw, hwaitw⟩ := hinv.waiting c proc hold hlive w hw
      exact hst.wait_kept htab htw hwaitw id (fun h => nomatch h)

theorem waitListsInv_sleep {s : WaitLists} {p c : Nat} {t : Task} {target : Process}
    (hinv : WaitListsInv s) (ht : s.table.tasks p = some t)
    (htarget : s.table.procs c = some target) (hfree : Unlinked s.table p) :
    WaitListsInv
      { table := sleepOn s.table t c, links := listPushBack s.links (tail c) (elem p) } := by
  have htab := hinv.table
  obtain ⟨hpid, -⟩ := htab.task_pid p t ht
  subst hpid
  obtain ⟨hlist, hnodup⟩ := hinv.linked c target htarget
  have hk : TableKept s.table (sleepOn s.table t c) := tableKept_sleepOn ht
  have hprocs : ∀ d proc', (sleepOn s.table t c).procs d = some proc' →
      ∃ proc, s.table.procs d = some proc ∧ proc'.task = proc.task ∧
        proc'.waiters = if d = c then proc.waiters ++ [t.pid] else proc.waiters := by
    intro d proc' hd
    obtain ⟨proc, hproc, rfl⟩ := Option.map_eq_some_iff.mp hd
    exact ⟨proc, hproc, rfl, rfl⟩
  -- who is on a list now
  have hmem : ∀ d proc' w, (sleepOn s.table t c).procs d = some proc' → w ∈ proc'.waiters →
      (w = t.pid ∧ d = c) ∨
        (w ≠ t.pid ∧ ∃ proc, s.table.procs d = some proc ∧ proc'.task = proc.task ∧
          w ∈ proc.waiters) := by
    intro d proc' w hd hw
    obtain ⟨proc, hproc, htask, hws⟩ := hprocs d proc' hd
    have hne : w ∈ proc.waiters → w ≠ t.pid := by
      rintro hold rfl
      exact hfree d proc hproc hold
    rw [hws] at hw
    split at hw
    · rename_i hdc
      rcases List.mem_append.mp hw with hw | hw
      · exact .inr ⟨hne hw, proc, hproc, htask, hw⟩
      · exact .inl ⟨List.mem_singleton.mp hw, hdc⟩
    · exact .inr ⟨hne hw, proc, hproc, htask, hw⟩
  refine ⟨hk.table htab, ?_, ?_, ?_, ?_⟩
  · intro d proc' hd
    obtain ⟨proc, hproc, -, hws⟩ := hprocs d proc' hd
    have hfresh := hfree d proc hproc
    rw [hws]
    split
    · rename_i hdc
      subst hdc
      obtain rfl : target = proc := Option.some.inj (htarget.symm.trans hproc)
      exact ⟨hlist.push hnodup hfresh, hnodup.append (List.nodup_singleton _) (by simpa using hfresh)⟩
    · rename_i hdc
      obtain ⟨hlistd, hnodupd⟩ := hinv.linked d proc hproc
      exact ⟨hlistd.push_other hlist hdc
        (hinv.apart d c proc target hproc htarget hdc) hfresh, hnodupd⟩
  · intro d proc' hd w hw
    rcases hmem d proc' w hd hw with ⟨rfl, -⟩ | ⟨-, proc, hproc, -, hold⟩
    · exact hk.task_to _ t ht
    · obtain ⟨tw, htw⟩ := Option.ne_none_iff_exists'.mp (hinv.members d proc hproc w hold)
      exact hk.task_to w tw htw
  · intro d e procd' proce' hd he hde w hw hw'
    rcases hmem d procd' w hd hw with ⟨rfl, rfl⟩ | ⟨hne, procd, hprocd, -, hold⟩
    · rcases hmem e proce' _ he hw' with ⟨-, rfl⟩ | ⟨hne, -⟩
      · exact hde rfl
      · exact hne rfl
    · rcases hmem e proce' w he hw' with ⟨rfl, -⟩ | ⟨-, proce, hproce, -, hold'⟩
      · exact hne rfl
      · exact hinv.apart d e procd proce hprocd hproce hde w hold hold'
  · intro d proc' hd hlive w hw
    rcases hmem d proc' w hd hw with ⟨rfl, rfl⟩ | ⟨hne, proc, hproc, htask, hold⟩
    · exact ⟨_, Function.update_self .., rfl⟩
    · obtain ⟨tw, htw, hwait⟩ := hinv.waiting d proc hproc (htask.symm.trans hlive) w hold
      exact ⟨tw, by simp [sleepOn, hne, htw], hwait⟩

theorem waitListsStep_inv {s s' : WaitLists} {a : ProcAct} (hinv : WaitListsInv s)
    (hcond : NoStaleWaiter s a) (h : waitListsStep s a = some s') : WaitListsInv s' := by
  obtain ⟨table, htable, rfl⟩ := Option.map_eq_some_iff.mp h
  have htab := hinv.table
  have hst := procStep_sound htab htable
  have hkept := hst.waiters_kept htab
  cases a with
  | fork p =>
      cases hst with
      | fork ht hwait => exact waitListsInv_fork hinv ht hwait
  | waitpid p ok pid opts =>
      cases htask : s.table.tasks p with
      | none => simp [procStep, htask] at htable
      | some t =>
          cases htarget : waitTarget s.table t ok pid opts with
          | none =>
              have hlinks : linksAfter s (.waitpid p ok pid opts) = s.links := by
                simp [linksAfter, htask, htarget]
              rw [hlinks]
              refine waitListsInv_kept hinv hst (hkept (fun _ h => nomatch h) ?_)
                (fun w he => absurd he id) (fun w t c waited h => nomatch h)
              rintro q ok' pid' opts' ⟨⟩ t' ht'
              rw [htask, Option.some.injEq] at ht'
              rw [← ht', htarget]
          | some c =>
              have hlinks : linksAfter s (.waitpid p ok pid opts) =
                  listPushBack s.links (tail c) (elem p) := by
                simp [linksAfter, htask, htarget]
              obtain rfl := procStep_blocks htab htask htarget htable
              obtain ⟨target, hproc, -⟩ := waitTarget_live htab htask htarget
              rw [hlinks]
              refine waitListsInv_sleep hinv htask hproc (hcond t htask ?_)
              rw [htarget]
              exact Option.some_ne_none c
  | exit p e =>
      refine waitListsInv_kept hinv hst (hkept (fun _ h => nomatch h) (fun _ _ _ _ h => nomatch h))
        ?_ (fun w t c waited h => nomatch h)
      rintro w rfl
      exact hcond
  | fatalSignal p e =>
      refine waitListsInv_kept hinv hst (hkept (fun _ h => nomatch h) (fun _ _ _ _ h => nomatch h))
        ?_ (fun w t c waited h => nomatch h)
      rintro w rfl
      exact hcond
  | stop p sig =>
      exact waitListsInv_kept hinv hst (hkept (fun _ h => nomatch h) (fun _ _ _ _ h => nomatch h))
        (fun w he => absurd he id) (fun w t c waited h => nomatch h)
  | cont p =>
      exact waitListsInv_kept hinv hst (hkept (fun _ h => nomatch h) (fun _ _ _ _ h => nomatch h))
        (fun w he => absurd he id) (fun w t c waited h => nomatch h)
  | resume p =>
      refine waitListsInv_kept hinv hst (hkept (fun _ h => nomatch h) (fun _ _ _ _ h => nomatch h))
        (fun w he => absurd he id) ?_
      rintro w t c waited ⟨⟩ ht hc hwaited
      exact hcond t c waited ht hc hwaited

theorem WaitListsInv.well_formed {s : WaitLists} (hinv : WaitListsInv s) : WaitersWellFormed s := by
  refine ⟨fun c => ((s.table.procs c).map (·.waiters)).getD [], ?_, ?_⟩
  · intro c proc hproc
    obtain ⟨hlist, hnodup⟩ := hinv.linked c proc hproc
    simp only [hproc, Option.map_some, Option.getD_some]
    exact ⟨hlist, hnodup, fun fuel hfuel => hlist.walk hfuel, hinv.members c proc hproc,
      hinv.waiting c proc hproc⟩
  · intro c d hc hd hcd
    obtain ⟨procc, hprocc⟩ := Option.ne_none_iff_exists'.mp hc
    obtain ⟨procd, hprocd⟩ := Option.ne_none_iff_exists'.mp hd
    simp only [hprocc, hprocd, Option.map_some, Option.getD_some]
    exact hinv.apart c d procc procd hprocc hprocd hcd

/-- **Waiter lists stay well formed.** In every run in which tasks block and
end with their `wait_elem` unlinked and waits only go on when the child has
ended, every waiters list is intact and holds each waiter once, no task is on
two lists, and walking the list of a process that stops or exits ends and wakes
only tasks that wait for it. -/
theorem waiters_well_formed (s₀ s : WaitLists) (acts : List ProcAct) (hboot : Booted s₀.table)
    (hlists : ∀ c, s₀.table.procs c ≠ none → ListAt s₀.links c [])
    (hmeet : StepsMeet waitListsStep NoStaleWaiter s₀ acts)
    (hrun : runSteps waitListsStep s₀ acts = some s) : WaitersWellFormed s := by
  have hnil : ∀ c proc, s₀.table.procs c = some proc → proc.waiters = [] :=
    fun c proc hc => (hboot.proc c proc hc).2
  have hstart : WaitListsInv s₀ := by
    refine ⟨hboot.table, ?_, ?_, ?_, ?_⟩
    · intro c proc hc
      rw [hnil c proc hc]
      exact ⟨hlists c (by rw [hc]; exact Option.some_ne_none proc), List.nodup_nil⟩
    · intro c proc hc w hw
      rw [hnil c proc hc] at hw
      exact absurd hw List.not_mem_nil
    · intro c d procc procd hc hd _ w hw
      rw [hnil c procc hc] at hw
      exact absurd hw List.not_mem_nil
    · intro c proc hc _ w hw
      rw [hnil c proc hc] at hw
      exact absurd hw List.not_mem_nil
  have hinv : WaitListsInv s :=
    runSteps_invariant_of_meet (fun _ _ _ hs hc hstep => waitListsStep_inv hs hc hstep)
      hstart hmeet hrun
  exact hinv.well_formed

/-- Init alone, with the empty list `process_create` has made it. -/
def initWaitLists : WaitLists :=
  { table := initOnly, links := listInit ⟨fun n => n, fun n => n⟩ (head 1) (tail 1) }

theorem initWaitLists_lists (c : Nat) (hc : initWaitLists.table.procs c ≠ none) :
    ListAt initWaitLists.links c [] := by
  have h1 : c = 1 := by
    by_contra h
    exact hc (if_neg h)
  subst h1
  exact listAt_init _ _

/-- Init waits for its only child. -/
theorem waiters_well_formed_one :
    ∃ s, runSteps waitListsStep initWaitLists [.fork 1, .waitpid 1 true 2 0] = some s ∧
      s.links.next (head 2) = elem 1 ∧ WaitersWellFormed s := by
  have hrun : ((runSteps waitListsStep initWaitLists
      [.fork 1, .waitpid 1 true 2 0]).map fun s => s.links.next (head 2)) = some (elem 1) := by
    decide +kernel
  obtain ⟨s, hs, hnext⟩ := Option.map_eq_some_iff.mp hrun
  refine ⟨s, hs, hnext, waiters_well_formed initWaitLists s _ initOnly_booted
    initWaitLists_lists ?_ hs⟩
  refine ⟨trivial, fun s₁ h₁ => ⟨?_, fun _ _ => trivial⟩⟩
  -- after the fork every list is empty
  intro _ _ _ c proc hproc
  obtain ⟨table, htable, rfl⟩ := Option.map_eq_some_iff.mp h₁
  cases procStep_sound initOnly_booted.table htable with
  | fork ht =>
      have hproc : (sysFork initOnly _).procs c = some proc := hproc
      rw [sysFork_procs] at hproc
      have hnil : proc.waiters = [] := by
        by_cases hc : c = initOnly.lastPid + 1
        · rw [hc, Function.update_self, Option.some.injEq] at hproc
          rw [← hproc]
        · rw [Function.update_of_ne hc] at hproc
          exact (initOnly_booted.proc c proc hproc).2
      rw [hnil]
      exact List.not_mem_nil

/-- Init waits for its child, is told that it was stopped, and waits for it
again: its `wait_elem` now follows itself in the child's list. -/
theorem waiters_self_loop :
    Booted initWaitLists.table ∧
    (∀ c, initWaitLists.table.procs c ≠ none → ListAt initWaitLists.links c []) ∧
    ∃ s, runSteps waitListsStep initWaitLists
        [.fork 1, .waitpid 1 true 2 0, .stop 2 19, .resume 1, .cont 2, .waitpid 1 true 2 0] =
          some s ∧
      s.links.next (head 2) = elem 1 ∧ s.links.next (elem 1) = elem 1 ∧
      ¬ WaitersWellFormed s := by
  have hrun : ((runSteps waitListsStep initWaitLists
      [.fork 1, .waitpid 1 true 2 0, .stop 2 19, .resume 1, .cont 2, .waitpid 1 true 2 0]).map
        fun s => (s.links.next (head 2), s.links.next (elem 1), (s.table.procs 2).isSome)) =
      some (elem 1, elem 1, true) := by
    decide +kernel
  obtain ⟨s, hs, hfacts⟩ := Option.map_eq_some_iff.mp hrun
  simp only [Prod.mk.injEq] at hfacts
  obtain ⟨hfirst, hloop, hsome⟩ := hfacts
  refine ⟨initOnly_booted, initWaitLists_lists, s, hs, hfirst, hloop, ?_⟩
  rintro ⟨waiters, hlists, -⟩
  obtain ⟨proc, hproc⟩ := Option.isSome_iff_exists.mp hsome
  obtain ⟨-, -, hwalk, -⟩ := hlists 2 proc hproc
  have hends := hwalk _ (Nat.lt_succ_self _)
  rw [hfirst, listWalk_self_loop hloop (by decide)] at hends
  cases hends

end Levos.Kernel
