import Levos.Kernel.Task
import Levos.Lib.LinkedList

/-!
# The next task to run (`kernel/sched.c`)

`pick_next_task` goes round the list of all tasks from the current one, past
the sentinels, until it meets a task that can run or whose sleep is over. The
loop has no bound of its own; it comes back when there is such a task, and
takes the first one.

What `task_exit` does with a task that is dying is a parameter.
-/

namespace Levos.Kernel

open Levos.Lib

/-! ## The scheduler -/

/-- What `pick_next_task` looks at in a `struct task`. -/
structure SchedTask where
  state : TaskState
  wakeTime : BitVec 32
deriving DecidableEq, Repr

/-- `task_runnable`. -/
def SchedTask.taskRunnable (t : SchedTask) : Bool := t.state = .new ∨ t.state = .preempted

/-- The nodes are the `all_elem` of the tasks, and the two sentinels. -/
structure Sched (N : Type) where
  links : Links N
  tasks : N → SchedTask
  pitTicks : BitVec 32
  taskNeedCleanup : Int
  currentTask : N

section Picking

variable {N : Type} [DecidableEq N] (taskExit : Sched N → N → Option (Sched N)) (head tail : N)

def Sched.setState (s : Sched N) (t : N) (state : TaskState) : Sched N :=
  { s with tasks := Function.update s.tasks t { s.tasks t with state } }

/-- The first loop, from `elem` on. -/
def cleanupTasks : Nat → N → Sched N → Option (Sched N)
  | 0, _, _ => none
  | fuel + 1, elem, s =>
      if elem = tail then some s
      else
        (if (s.tasks elem).state = .dying then taskExit s elem else some s).bind fun s =>
          cleanupTasks fuel (s.links.next elem) s

/-- The loop behind `retry`. -/
def pickFrom : Nat → N → Sched N → Option (N × Sched N)
  | 0, _, _ => none
  | fuel + 1, task, s =>
      let elem := s.links.next task
      let task := if elem = tail then s.links.next head else elem
      if (s.tasks task).state = .dying then (taskExit s task).bind fun s => pickFrom fuel task s
      else if (s.tasks task).state = .sleeping ∧ (s.tasks task).wakeTime ≤ s.pitTicks then
        some (task, s.setState task .preempted)
      else if ¬(s.tasks task).taskRunnable then pickFrom fuel task s
      else some (task, s)

/-- `pick_next_task`; each of its loops takes at most `fuel` rounds. -/
def pickNextTask (fuel : Nat) (s : Sched N) : Option (N × Sched N) :=
  (if s.taskNeedCleanup > 0 then
    (cleanupTasks taskExit tail fuel (s.links.next head) s).map fun s =>
      { s with taskNeedCleanup := 0 }
  else some s).bind fun s => pickFrom taskExit head tail fuel s.currentTask s

/-! ## What is said of the choice -/

/-- The task is new, was preempted, or has slept long enough. -/
def Sched.Eligible (s : Sched N) (t : N) : Prop :=
  (s.tasks t).state = .new ∨ (s.tasks t).state = .preempted ∨
    (s.tasks t).state = .sleeping ∧ (s.tasks t).wakeTime ≤ s.pitTicks

instance (s : Sched N) (t : N) : Decidable (s.Eligible t) :=
  inferInstanceAs (Decidable (_ ∨ _ ∨ _))

/-- The state behind the first loop: only the flag is cleared. -/
def Sched.cleaned (s : Sched N) : Sched N :=
  { s with taskNeedCleanup := if s.taskNeedCleanup > 0 then 0 else s.taskNeedCleanup }

/-- The state behind the call: besides, only a sleeper that was chosen changes
its state. -/
def Sched.picked (s : Sched N) (t : N) : Sched N :=
  if (s.tasks t).state = .sleeping then s.cleaned.setState t .preempted else s.cleaned

/-- The list of all tasks, with the current one in it and none that is dying. -/
structure TaskList (s : Sched N) (tasks : List N) : Prop where
  chain : Chain s.links head tasks tail
  tail : tail ∉ tasks
  current : s.currentTask ∈ tasks
  alive : ∀ t ∈ tasks, (s.tasks t).state ≠ .dying

/-- The tasks in the order they are considered: those behind the current one,
those before it, and the current one. -/
def cyclicOrder (tasks : List N) (current : N) : List N :=
  let before := tasks.takeWhile (· ≠ current)
  (tasks.drop (before.length + 1)) ++ (before ++ [current])

theorem cyclicOrder_split {tasks : List N} {current : N} (h : current ∈ tasks) :
    ∃ pre post, tasks = pre ++ current :: post ∧
      cyclicOrder tasks current = post ++ (pre ++ [current]) := by
  obtain ⟨pre, post, rfl, hpre⟩ := List.eq_append_cons_of_mem h
  have hne : ∀ t ∈ pre, decide (t ≠ current) = true := fun t ht =>
    decide_eq_true fun heq => hpre (heq ▸ ht)
  have htake : (pre ++ current :: post).takeWhile (fun t => decide (t ≠ current)) = pre := by
    rw [List.takeWhile_append_of_pos hne, List.takeWhile_cons_of_neg (by simp), List.append_nil]
  refine ⟨pre, post, rfl, ?_⟩
  rw [cyclicOrder, htake, List.drop_append, List.drop_eq_nil_of_le (by omega), List.nil_append,
    Nat.add_sub_cancel_left, List.drop_one, List.tail_cons]

/-! ## The loops -/

variable {taskExit head tail} {s : Sched N} {tasks : List N}

/-- Without a dying task the first loop only walks. -/
theorem cleanupTasks_alive {a : N} {xs : List N} (h : Chain s.links a xs tail) (htail : tail ∉ xs)
    (halive : ∀ t ∈ xs, (s.tasks t).state ≠ .dying) {fuel : Nat} (hfuel : xs.length < fuel) :
    cleanupTasks taskExit tail fuel (s.links.next a) s = some s := by
  induction xs generalizing a fuel with
  | nil =>
      cases fuel with
      | zero => cases hfuel
      | succ fuel => rw [h.1, cleanupTasks, if_pos rfl]
  | cons x xs ih =>
      obtain ⟨h1, -, h3⟩ := h
      cases fuel with
      | zero => cases hfuel
      | succ fuel =>
          have hx : x ≠ tail := fun heq => htail (heq ▸ List.mem_cons_self)
          rw [h1, cleanupTasks, if_neg hx, if_neg (halive x List.mem_cons_self), Option.bind_some]
          exact ih h3 (fun hm => htail (List.mem_cons_of_mem _ hm))
            (fun t ht => halive t (List.mem_cons_of_mem _ ht)) (Nat.lt_of_succ_lt_succ hfuel)

/-- One round: the next task is taken if it is eligible, and passed over if
not. -/
theorem pickFrom_succ {task next : N} (hnext : cyclicNext s.links head tail task = next)
    (halive : (s.tasks next).state ≠ .dying) (fuel : Nat) :
    pickFrom taskExit head tail (fuel + 1) task s =
      if s.Eligible next then
        some (next, if (s.tasks next).state = .sleeping then s.setState next .preempted else s)
      else pickFrom taskExit head tail fuel next s := by
  rw [pickFrom]
  rw [show (if s.links.next task = tail then s.links.next head else s.links.next task) = next
    from hnext, if_neg halive]
  by_cases hslept : (s.tasks next).state = .sleeping ∧ (s.tasks next).wakeTime ≤ s.pitTicks
  · rw [if_pos hslept, if_pos (show s.Eligible next from .inr (.inr hslept)), if_pos hslept.1]
  · rw [if_neg hslept]
    by_cases hrun : (s.tasks next).taskRunnable
    · have hstate : (s.tasks next).state = .new ∨ (s.tasks next).state = .preempted := by
        simpa [SchedTask.taskRunnable] using hrun
      have hawake : (s.tasks next).state ≠ .sleeping := by
        rcases hstate with hs | hs <;> rw [hs] <;> decide
      have helig : s.Eligible next := by
        rcases hstate with hs | hs
        · exact .inl hs
        · exact .inr (.inl hs)
      rw [if_neg (not_not_intro hrun), if_pos helig, if_neg hawake]
    · rw [if_pos hrun, if_neg]
      rintro (hs | hs | hs)
      · exact hrun (by simp [SchedTask.taskRunnable, hs])
      · exact hrun (by simp [SchedTask.taskRunnable, hs])
      · exact hslept hs

/-- **The loop takes the first eligible task on its way.** -/
theorem pickFrom_walk {task chosen : N} {skipped rest : List N}
    (hwalk : CyclicWalk s.links head tail task (skipped ++ chosen :: rest))
    (halive : ∀ t ∈ skipped ++ [chosen], (s.tasks t).state ≠ .dying)
    (hskipped : ∀ t ∈ skipped, ¬s.Eligible t) (hchosen : s.Eligible chosen) {fuel : Nat}
    (hfuel : skipped.length < fuel) :
    pickFrom taskExit head tail fuel task s =
      some (chosen, if (s.tasks chosen).state = .sleeping then s.setState chosen .preempted
        else s) := by
  induction skipped generalizing task fuel with
  | nil =>
      cases fuel with
      | zero => cases hfuel
      | succ fuel => rw [pickFrom_succ hwalk.1 (halive chosen (by simp)), if_pos hchosen]
  | cons t skipped ih =>
      cases fuel with
      | zero => cases hfuel
      | succ fuel =>
          rw [pickFrom_succ hwalk.1 (halive t (by simp)), if_neg (hskipped t List.mem_cons_self)]
          exact ih hwalk.2 (fun u hu => halive u (List.mem_cons_of_mem _ hu))
            (fun u hu => hskipped u (List.mem_cons_of_mem _ hu)) (Nat.lt_of_succ_lt_succ hfuel)

/-- **The scheduler's choice.** For every list of tasks with the current one in
it, none that is dying and one that is eligible, `pick_next_task` comes back
with the first eligible task behind the current one, going round, and changes
nothing but the state of a sleeper that it chose and the flag. -/
theorem pickNextTask_first (htasks : TaskList head tail s tasks)
    (heligible : ∃ t ∈ tasks, s.Eligible t) :
    ∃ chosen, (cyclicOrder tasks s.currentTask).find? (fun t => s.Eligible t) = some chosen ∧
      ∀ fuel > tasks.length,
        pickNextTask taskExit head tail fuel s = some (chosen, s.picked chosen) := by
  obtain ⟨pre, post, hsplit, horder⟩ := cyclicOrder_split htasks.current
  have hmem : ∀ t, t ∈ cyclicOrder tasks s.currentTask ↔ t ∈ tasks := fun t => by
    rw [horder, hsplit]
    simp only [List.mem_append, List.mem_cons, List.not_mem_nil, or_false]
    tauto
  obtain ⟨chosen, hfind⟩ : ∃ chosen,
      (cyclicOrder tasks s.currentTask).find? (fun t => s.Eligible t) = some chosen := by
    rw [← Option.isSome_iff_exists, List.find?_isSome]
    obtain ⟨t, ht, helig⟩ := heligible
    exact ⟨t, (hmem t).mpr ht, decide_eq_true helig⟩
  refine ⟨chosen, hfind, fun fuel hfuel => ?_⟩
  obtain ⟨hchosen, skipped, rest, hway, hskipped⟩ := List.find?_eq_some_iff_append.mp hfind
  have hwalk : CyclicWalk s.links head tail s.currentTask (skipped ++ chosen :: rest) := by
    rw [← hway, horder]
    exact (hsplit ▸ htasks.chain).cyclicWalk_around (hsplit ▸ htasks.tail)
  have halive : ∀ t ∈ skipped ++ [chosen], (s.tasks t).state ≠ .dying := fun t ht => by
    refine htasks.alive t ((hmem t).mp ?_)
    rw [hway]
    rcases List.mem_append.mp ht with ht | ht
    · exact List.mem_append_left _ ht
    · exact List.mem_append_right _ (List.mem_singleton.mp ht ▸ List.mem_cons_self)
  have hlength : skipped.length < fuel := by
    have hsum := congrArg List.length hway
    rw [horder] at hsum
    rw [hsplit] at hfuel
    simp only [List.length_append, List.length_cons, List.length_nil] at hsum hfuel
    omega
  -- the first loop changes at most the flag, which the second one does not look at
  have hclean : pickNextTask taskExit head tail fuel s =
      pickFrom taskExit head tail fuel s.currentTask s.cleaned := by
    unfold pickNextTask Sched.cleaned
    split
    · rw [cleanupTasks_alive htasks.chain htasks.tail htasks.alive hfuel]
      rfl
    · rfl
  have hskip : ∀ t ∈ skipped, ¬s.cleaned.Eligible t := fun t ht => by
    have hnot : ¬s.Eligible t := by simpa using hskipped t ht
    exact hnot
  have htake : s.cleaned.Eligible chosen := of_decide_eq_true hchosen
  rw [hclean]
  exact pickFrom_walk (s := s.cleaned) hwalk halive hskip htake hlength

end Picking

/-- Three tasks between the sentinels 0 and 1: the second one runs, the third
one sleeps, the first one was preempted. -/
def threeTasks : Sched Nat where
  links := { next := fun n => if n = 0 then 2 else if n = 4 then 1 else n + 1
             prev := fun n => if n = 2 then 0 else if n = 1 then 4 else n - 1 }
  tasks n := if n = 2 then ⟨.preempted, 0⟩ else if n = 3 then ⟨.running, 0⟩ else ⟨.sleeping, 10⟩
  pitTicks := 10
  taskNeedCleanup := 0
  currentTask := 3

/-- The sleeper is behind the current task, and is taken. -/
theorem pickNextTask_sleeper :
    ∃ chosen, (cyclicOrder [2, 3, 4] 3).find? (fun t => threeTasks.Eligible t) = some chosen ∧
      ∀ fuel > 3, pickNextTask (fun _ _ => none) 0 1 fuel threeTasks =
        some (chosen, threeTasks.picked chosen) :=
  pickNextTask_first
    (show TaskList 0 1 threeTasks [2, 3, 4] from
      ⟨⟨rfl, rfl, rfl, rfl, rfl, rfl, rfl, rfl⟩, by decide, by decide, by decide⟩)
    ⟨4, by decide, by decide⟩

end Levos.Kernel
