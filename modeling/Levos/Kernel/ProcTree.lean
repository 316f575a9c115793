import Levos.Kernel.ProcSteps
import Levos.Lib.LinkedList

/-!
# The process tree in memory (`sched_add_child`, `task_exit`)

Every task has a `parent` pointer, a list of children and a `children_elem`
that is linked into the list of its parent. `sys_fork` pushes the child at the
end of that list; `task_exit` removes the element of the task that ends and
frees it, its own list of children included, without giving the children a new
parent.

`process_tree_intact` holds along the runs in which tasks end without live
children. `process_tree_orphan` is a parent that ends before its child.
-/

namespace Levos.Kernel

open Levos.Base Levos.Lib ListNode

/-! ## The system -/

/-- `parent` is the pointer of the task with that pid; tasks the kernel made
itself at boot have none. -/
structure ProcTree where
  table : Procs
  links : Links ListNode
  parent : Nat → Option Nat

/-- `list_remove(&t->children_elem)` follows the pointers of the element; those
of a task that was not forked are NULL. -/
def removable (s : ProcTree) : ProcAct → Bool
  | .exit p _ | .fatalSignal p _ => (s.parent p).isSome
  | _ => true

def childLinks (s : ProcTree) : ProcAct → Links ListNode
  | .fork p =>
      let child := s.table.lastPid + 1
      listPushBack (listInit s.links (head child) (tail child)) (tail p) (elem child)
  | .exit p _ | .fatalSignal p _ => listRemove s.links (elem p)
  | _ => s.links

def childParents (s : ProcTree) : ProcAct → Nat → Option Nat
  | .fork p => Function.update s.parent (s.table.lastPid + 1) (some p)
  | _ => s.parent

def treeStep (s : ProcTree) (a : ProcAct) : Option ProcTree :=
  if removable s a then
    (procStep s.table a).map fun table =>
      { table := table, links := childLinks s a, parent := childParents s a }
  else none

/-- The parent of a forked task is alive and has it in its list of children,
and a list of children holds live tasks with that parent and nothing else. -/
def TreeIntact (s : ProcTree) : Prop :=
  ∃ children : Nat → List Nat,
    (∀ q, s.table.tasks q ≠ none → ListAt s.links q (children q) ∧ (children q).Nodup ∧
      ∀ c ∈ children q, s.table.tasks c ≠ none ∧ s.parent c = some q) ∧
    ∀ p q, s.table.tasks p ≠ none → s.parent p = some q →
      s.table.tasks q ≠ none ∧ p ∈ children q

/-- A task that ends has no live children. -/
def EndsChildless (s : ProcTree) : ProcAct → Prop
  | .exit p _ | .fatalSignal p _ => ∀ t, s.table.tasks p = some t → t.childrenList = []
  | _ => True

/-! ## The invariant -/

structure TreeInv (s : ProcTree) : Prop where
  table : ProcTable s.table
  linked : ∀ q t, s.table.tasks q = some t →
    ListAt s.links q t.childrenList ∧ t.childrenList.Nodup
  children : ∀ q t, s.table.tasks q = some t → ∀ c ∈ t.childrenList, s.parent c = some q
  parents : ∀ p q, s.table.tasks p ≠ none → s.parent p = some q →
    ∃ t, s.table.tasks q = some t ∧ p ∈ t.childrenList
  bound : ∀ p, s.parent p ≠ none → p ≤ s.table.lastPid

/-- A step that neither forks nor ends a task. -/
theorem treeInv_kept {s : ProcTree} {table : Procs} (hinv : TreeInv s)
    (hk : TableKept s.table table) : TreeInv { s with table := table } := by
  refine ⟨hk.table hinv.table, ?_, ?_, ?_, ?_⟩
  · intro q t' ht'
    obtain ⟨t, ht, -, -, hch⟩ := hk.task_from q t' ht'
    rw [hch]
    exact hinv.linked q t ht
  · intro q t' ht' c hc
    obtain ⟨t, ht, -, -, hch⟩ := hk.task_from q t' ht'
    exact hinv.children q t ht c (hch ▸ hc)
  · intro p q hp hparent
    have hp₀ : s.table.tasks p ≠ none := fun h => hp (hk.task_none h)
    obtain ⟨t, ht, hmem⟩ := hinv.parents p q hp₀ hparent
    obtain ⟨t', ht'⟩ := Option.ne_none_iff_exists'.mp (hk.task_to q t ht)
    obtain ⟨t₀, ht₀, -, -, hch⟩ := hk.task_from q t' ht'
    obtain rfl : t = t₀ := Option.some.inj (ht.symm.trans ht₀)
    exact ⟨t', ht', hch ▸ hmem⟩
  · intro p hp
    show p ≤ table.lastPid
    rw [hk.lastPid]
    exact hinv.bound p hp

/-- Two tasks have no child in common. -/
theorem TreeInv.apart {s : ProcTree} (hinv : TreeInv s) {q r : Nat} {tq tr : Task}
    (hq : s.table.tasks q = some tq) (hr : s.table.tasks r = some tr) (hqr : q ≠ r) :
    ∀ c ∈ tq.childrenList, c ∉ tr.childrenList := by
  intro c hc hc'
  have h1 := hinv.children q tq hq c hc
  have h2 := hinv.children r tr hr c hc'
  rw [h1] at h2
  exact hqr (Option.some.inj h2)

theorem treeInv_fork {s : ProcTree} {p : Nat} {t : Task} (hinv : TreeInv s)
    (ht : s.table.tasks p = some t) :
    TreeInv
      { table := sysFork s.table t
        links := childLinks s (.fork p)
        parent := Function.update s.parent (s.table.lastPid + 1) (some p) } := by
  have htab := hinv.table
  obtain ⟨rfl, hple⟩ := htab.task_pid p t ht
  have htasks := sysFork_tasks s.table t
  have hbound : ∀ q tq, s.table.tasks q = some tq → q ≠ s.table.lastPid + 1 := by
    intro q tq hq
    have := (htab.task_pid q tq hq).2
    omega
  have hfresh : ∀ q tq, s.table.tasks q = some tq → s.table.lastPid + 1 ∉ tq.childrenList := by
    intro q tq hq hm
    obtain ⟨tc, htc, -⟩ := htab.children_live q tq hq _ hm
    exact hbound _ tc htc rfl
  -- the list of every old task survives the making of the new, empty one
  have hinit : ∀ q tq, s.table.tasks q = some tq →
      ListAt (listInit s.links (head (s.table.lastPid + 1)) (tail (s.table.lastPid + 1))) q
        tq.childrenList :=
    fun q tq hq => (hinv.linked q tq hq).1.init_other (hbound q tq hq)
  have hparentOf : ∀ c, c ≤ s.table.lastPid →
      Function.update s.parent (s.table.lastPid + 1) (some t.pid) c = s.parent c :=
    fun c hc => Function.update_of_ne (by omega) _ _
  have hchildle : ∀ q tq, s.table.tasks q = some tq → ∀ c ∈ tq.childrenList,
      c ≤ s.table.lastPid := by
    intro q tq hq c hc
    obtain ⟨tc, htc, -⟩ := htab.children_live q tq hq c hc
    exact (htab.task_pid c tc htc).2
  refine ⟨sysFork_table htab ht, ?_, ?_, ?_, ?_⟩
  · intro q tq hq
    rw [htasks] at hq
    show ListAt (listPushBack _ (tail t.pid) (elem (s.table.lastPid + 1))) q tq.childrenList ∧ _
    split at hq
    · rename_i hqp
      cases hq
      have hnodup := (hinv.linked _ t ht).2
      subst hqp
      exact ⟨(hinit _ t ht).push hnodup (hfresh _ t ht),
        hnodup.append (List.nodup_singleton _) (by simpa using hfresh _ t ht)⟩
    · rename_i hqp
      split at hq
      · rename_i hqn
        cases hq
        refine ⟨?_, List.nodup_nil⟩
        subst hqn
        exact (listAt_init s.links _).push_other (hinit _ t ht) hqp
          (fun y hy => absurd hy List.not_mem_nil) List.not_mem_nil
      · exact ⟨(hinit q tq hq).push_other (hinit _ t ht) hqp (hinv.apart hq ht hqp)
          (hfresh q tq hq), (hinv.linked q tq hq).2⟩
  · intro q tq hq c hc
    show Function.update s.parent (s.table.lastPid + 1) (some t.pid) c = some q
    rw [htasks] at hq
    split at hq
    · rename_i hqp
      cases hq
      rcases List.mem_append.mp hc with hc | hc
      · rw [hparentOf c (hchildle _ t ht c hc), hqp]
        exact hinv.children _ t ht c hc
      · rw [List.mem_singleton.mp hc, Function.update_self, hqp]
    · split at hq
      · cases hq
        exact absurd hc List.not_mem_nil
      · rw [hparentOf c (hchildle q tq hq c hc)]
        exact hinv.children q tq hq c hc
  · intro c q hc hparent
    have hparent : Function.update s.parent (s.table.lastPid + 1) (some t.pid) c = some q := hparent
    have hc : (sysFork s.table t).tasks c ≠ none := hc
    by_cases hcn : c = s.table.lastPid + 1
    · rw [hcn, Function.update_self, Option.some.injEq] at hparent
      subst hparent
      refine ⟨{ t with childrenList := t.childrenList ++ [s.table.lastPid + 1] }, ?_, ?_⟩
      · exact (htasks t.pid).trans (if_pos rfl)
      · simp [hcn]
    · rw [Function.update_of_ne hcn] at hparent
      have hc₀ : s.table.tasks c ≠ none := by
        intro hnone
        apply hc
        rw [htasks]
        split
        · rename_i hcp
          rw [hcp, ht] at hnone
          cases hnone
        · exact hnone
      obtain ⟨tq, htq, hmem⟩ := hinv.parents c q hc₀ hparent
      by_cases hqp : q = t.pid
      · subst hqp
        obtain rfl : t = tq := Option.some.inj (ht.symm.trans htq)
        refine ⟨{ t with childrenList := t.childrenList ++ [s.table.lastPid + 1] }, ?_, ?_⟩
        · exact (htasks t.pid).trans (if_pos rfl)
        · exact List.mem_append_left _ hmem
      · refine ⟨tq, ?_, hmem⟩
        show (sysFork s.table t).tasks q = some tq
        rw [htasks, if_neg hqp, if_neg (hbound q tq htq), htq]
  · intro c hc
    show c ≤ s.table.lastPid + 1
    by_cases hcn : c = s.table.lastPid + 1
    · exact hcn.le
    · have hc : s.parent c ≠ none := by simpa [hcn] using hc
      have := hinv.bound c hc
      omega

theorem treeInv_end {s : ProcTree} {t : Task} {owner owner₀ : Process} {q : Nat}
    (hinv : TreeInv s) (ht : s.table.tasks t.pid = some t)
    (howner : s.table.procs t.pid = some owner₀) (hpid : owner.pid = owner₀.pid)
    (hparent : s.parent t.pid = some q) (hchildless : t.childrenList = []) :
    TreeInv
      { table := endTask s.table t owner
        links := listRemove s.links (elem t.pid)
        parent := s.parent } := by
  have htab := hinv.table
  obtain ⟨tq, htq, hmem⟩ := hinv.parents t.pid q (by rw [ht]; exact Option.some_ne_none t) hparent
  obtain ⟨hlistq, hnodupq⟩ := hinv.linked q tq htq
  have hppid : t.ppid = q := by
    obtain ⟨t₀, ht₀, hpp⟩ := htab.children_live q tq htq _ hmem
    obtain rfl : t = t₀ := Option.some.inj (ht.symm.trans ht₀)
    exact hpp
  have hlive : ∀ r tr', (endTask s.table t owner).tasks r = some tr' →
      r ≠ t.pid ∧ ∃ tr, s.table.tasks r = some tr ∧ tr'.childrenList =
        if r = q then tr.childrenList.filter (· ≠ t.pid) else tr.childrenList := by
    intro r tr' hr
    simp only [endTask] at hr
    split at hr
    · cases hr
    · rename_i hrt
      obtain ⟨tr, htr, rfl⟩ := Option.map_eq_some_iff.mp hr
      exact ⟨hrt, tr, htr, by rw [← hppid]⟩
  have hstays : ∀ r tr, s.table.tasks r = some tr → r ≠ t.pid →
      ∃ tr', (endTask s.table t owner).tasks r = some tr' ∧ tr'.childrenList =
        if r = q then tr.childrenList.filter (· ≠ t.pid) else tr.childrenList := by
    intro r tr hr hrt
    simp only [endTask, if_neg hrt, hr, Option.map_some, hppid]
    exact ⟨_, rfl, rfl⟩
  refine ⟨endTask_table htab ht howner hpid, ?_, ?_, ?_, hinv.bound⟩
  · intro r tr' hr
    obtain ⟨-, tr, htr, hch⟩ := hlive r tr' hr
    obtain ⟨hlist, hnodup⟩ := hinv.linked r tr htr
    rw [hch]
    split
    · rename_i hrq
      subst hrq
      obtain rfl : tq = tr := Option.some.inj (htq.symm.trans htr)
      exact ⟨hlist.remove hnodup hmem, hnodup.filter _⟩
    · rename_i hrq
      exact ⟨hlist.remove_other hlistq hnodupq hmem hrq (hinv.apart htr htq hrq), hnodup⟩
  · intro r tr' hr c hc
    obtain ⟨-, tr, htr, hch⟩ := hlive r tr' hr
    refine hinv.children r tr htr c ?_
    rw [hch] at hc
    split at hc
    · exact (List.mem_filter.mp hc).1
    · exact hc
  · intro c r hc hparentc
    obtain ⟨tc', htc'⟩ := Option.ne_none_iff_exists'.mp hc
    obtain ⟨hct, tc, htc, -⟩ := hlive c tc' htc'
    obtain ⟨tr, htr, hmemc⟩ := hinv.parents c r (by rw [htc]; exact Option.some_ne_none tc) hparentc
    have hrt : r ≠ t.pid := by
      rintro rfl
      obtain rfl : t = tr := Option.some.inj (ht.symm.trans htr)
      rw [hchildless] at hmemc
      exact absurd hmemc List.not_mem_nil
    obtain ⟨tr', htr', hch⟩ := hstays r tr htr hrt
    refine ⟨tr', htr', ?_⟩
    rw [hch]
    split
    · exact List.mem_filter.mpr ⟨hmemc, decide_eq_true hct⟩
    · exact hmemc

theorem treeStep_inv {s s' : ProcTree} {a : ProcAct} (hinv : TreeInv s)
    (hcond : EndsChildless s a) (h : treeStep s a = some s') : TreeInv s' := by
  rw [treeStep] at h
  split at h
  · rename_i hrem
    obtain ⟨table, htable, rfl⟩ := Option.map_eq_some_iff.mp h
    have htab := hinv.table
    have hst := procStep_sound htab htable
    have hk := hst.kept htab
    cases a with
    | fork p =>
        cases hst with
        | fork ht => exact treeInv_fork hinv ht
    | exit p e =>
        obtain ⟨q, hq⟩ := Option.isSome_iff_exists.mp hrem
        cases hst with
        | exit ht howner =>
            obtain ⟨rfl, -⟩ := htab.task_pid _ _ ht
            exact treeInv_end hinv ht howner rfl hq (hcond _ ht)
    | fatalSignal p e =>
        obtain ⟨q, hq⟩ := Option.isSome_iff_exists.mp hrem
        cases hst with
        | fatalSignal ht howner =>
            obtain ⟨rfl, -⟩ := htab.task_pid _ _ ht
            exact treeInv_end hinv ht howner rfl hq (hcond _ ht)
    | _ =>
        exact treeInv_kept hinv
          (hk (fun _ h => nomatch h) (fun _ _ h => nomatch h) fun _ _ h => nomatch h)
  · cases h

theorem TreeInv.intact {s : ProcTree} (hinv : TreeInv s) : TreeIntact s := by
  refine ⟨fun q => ((s.table.tasks q).map (·.childrenList)).getD [], ?_, ?_⟩
  · intro q hq
    obtain ⟨t, ht⟩ := Option.ne_none_iff_exists'.mp hq
    obtain ⟨hlist, hnodup⟩ := hinv.linked q t ht
    simp only [ht, Option.map_some, Option.getD_some]
    refine ⟨hlist, hnodup, fun c hc => ⟨?_, hinv.children q t ht c hc⟩⟩
    obtain ⟨tc, htc, -⟩ := hinv.table.children_live q t ht c hc
    rw [htc]
    exact Option.some_ne_none tc
  · intro p q hp hparent
    obtain ⟨t, ht, hmem⟩ := hinv.parents p q hp hparent
    simp only [ht, Option.map_some, Option.getD_some]
    exact ⟨Option.some_ne_none t, hmem⟩

/-- **Process tree integrity.** In every run in which tasks end without live
children, the parent of every forked task is alive, the task is linked in the
list of children of exactly that parent, and no list of children goes through
a task that has ended. -/
theorem process_tree_intact (s₀ s : ProcTree) (acts : List ProcAct) (hboot : Booted s₀.table)
    (hparent : ∀ p, s₀.parent p = none)
    (hlists : ∀ p, s₀.table.tasks p ≠ none → ListAt s₀.links p [])
    (hmeet : StepsMeet treeStep EndsChildless s₀ acts)
    (hrun : runSteps treeStep s₀ acts = some s) : TreeIntact s := by
  have hnil : ∀ q t, s₀.table.tasks q = some t → t.childrenList = [] :=
    fun q t hq => (hboot.fresh.1 q t hq).2.2
  have hstart : TreeInv s₀ := by
    refine ⟨hboot.table, ?_, ?_, ?_, ?_⟩
    · intro q t hq
      rw [hnil q t hq]
      exact ⟨hlists q (by rw [hq]; exact Option.some_ne_none t), List.nodup_nil⟩
    · intro q t hq c hc
      rw [hnil q t hq] at hc
      exact absurd hc List.not_mem_nil
    · intro p q _ hp
      rw [hparent p] at hp
      cases hp
    · intro p hp
      exact absurd (hparent p) hp
  have hinv : TreeInv s :=
    runSteps_invariant_of_meet (fun _ _ _ hs hc hstep => treeStep_inv hs hc hstep)
      hstart hmeet hrun
  exact hinv.intact

instance (s : ProcTree) (a : ProcAct) : Decidable (EndsChildless s a) :=
  match a with
  | .exit p _ | .fatalSignal p _ =>
      match hp : s.table.tasks p with
      | none => isTrue fun t ht => absurd (hp.symm.trans ht) (Option.some_ne_none t).symm
      | some t₀ =>
          decidable_of_iff (t₀.childrenList = [])
            ⟨fun h _ ht => Option.some.inj (hp.symm.trans ht) ▸ h, fun h => h t₀ hp⟩
  | .fork _ | .stop _ _ | .cont _ | .waitpid .. | .resume _ => isTrue trivial

def initTree : ProcTree :=
  { table := initOnly
    links := listInit ⟨fun n => n, fun n => n⟩ (head 1) (tail 1)
    parent := fun _ => none }

theorem initTree_lists (p : Nat) (hp : initTree.table.tasks p ≠ none) :
    ListAt initTree.links p [] := by
  have h1 : p = 1 := by
    by_contra h
    exact hp (if_neg h)
  subst h1
  exact listAt_init _ _

/-- A child and a grandchild, which exit in this order from the leaves up. -/
theorem process_tree_intact_leaves_first :
    ∃ s, runSteps treeStep initTree [.fork 1, .fork 2, .fork 1, .exit 3 0, .exit 2 0] = some s ∧
      s.links.next (head 1) = elem 4 ∧ TreeIntact s := by
  have hrun : ((runSteps treeStep initTree
      [.fork 1, .fork 2, .fork 1, .exit 3 0, .exit 2 0]).map fun s => s.links.next (head 1)) =
        some (elem 4) := by
    decide +kernel
  obtain ⟨s, hs, hnext⟩ := Option.map_eq_some_iff.mp hrun
  refine ⟨s, hs, hnext, process_tree_intact initTree s _ initOnly_booted (fun _ => rfl)
    initTree_lists ?_ hs⟩
  decide +kernel

/-- Task 2 forks 3 and exits: the parent of 3 is a task that is gone. -/
theorem process_tree_orphan :
    Booted initTree.table ∧ (∀ p, initTree.parent p = none) ∧
    (∀ p, initTree.table.tasks p ≠ none → ListAt initTree.links p []) ∧
    ∃ s, runSteps treeStep initTree [.fork 1, .fork 2, .exit 2 0] = some s ∧
      (s.table.tasks 3).isSome ∧ s.parent 3 = some 2 ∧ s.table.tasks 2 = none ∧
      ¬ TreeIntact s := by
  have hrun : ((runSteps treeStep initTree [.fork 1, .fork 2, .exit 2 0]).map fun s =>
      ((s.table.tasks 3).isSome, s.parent 3, (s.table.tasks 2).isNone)) =
        some (true, some 2, true) := by
    decide +kernel
  obtain ⟨s, hs, hfacts⟩ := Option.map_eq_some_iff.mp hrun
  simp only [Prod.mk.injEq, Option.isNone_iff_eq_none] at hfacts
  obtain ⟨hlive, hparent, hdead⟩ := hfacts
  refine ⟨initOnly_booted, fun _ => rfl, initTree_lists, s, hs, hlive, hparent, hdead, ?_⟩
  rintro ⟨children, -, hparents⟩
  exact (hparents 3 2 (Option.isSome_iff_ne_none.mp hlive) hparent).1 hdead

end Levos.Kernel
