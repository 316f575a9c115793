import Levos.Base.RoundRobin
import Levos.Kernel.PickTask

/-!
# Waiting for the processor (`kernel/sched.c`)

Who runs next is decided in `reschedule`: on a yield, when the time slice is
used up, and when the current task is gone. Here the scheduler is run: timer
interrupts come, tasks are added, put to sleep, woken and exit, in any order.
A task that could run all the time waits for no more decisions than there are
tasks in front of it and tasks that are added, and each decision is reached.

`task_exit` frees the task and then the scheduler goes on from it, since it is
still `current_task`; its links are read as they were left.
-/

namespace Levos.Kernel

open Levos.Base Levos.Lib

/-- `TIME_SLICE`. -/
def timeSlice : Nat := 15

/-- The scheduler with what `reschedule` and `sched_tick` look at besides. -/
structure Cpu (N : Type) extends Sched N where
  timeRan : N → Nat
  preemptEnabled : Bool

section Scheduling

variable {N : Type} [DecidableEq N]

/-! ## The functions of the source -/

def Cpu.setTask (s : Cpu N) (t : N) (task : SchedTask) : Cpu N :=
  { s with tasks := Function.update s.tasks t task }

def Cpu.taskBlockNoresched (s : Cpu N) (t : N) : Cpu N :=
  s.setTask t { s.tasks t with state := .blocked }

def Cpu.taskSleep (s : Cpu N) (t : N) (ticks : BitVec 32) : Cpu N := s.setTask t ⟨.sleeping, ticks⟩

def Cpu.taskKick (s : Cpu N) (t : N) : Cpu N := s.setTask t ⟨.preempted, 0⟩

/-- `task_unblock`, which panics on the current task. -/
def Cpu.taskUnblock (s : Cpu N) (t : N) : Option (Cpu N) :=
  if t ≠ s.currentTask then some (s.setTask t { s.tasks t with state := .preempted }) else none

/-- `sched_add_rq`. -/
def Cpu.schedAddRq (tail : N) (s : Cpu N) (t : N) : Cpu N :=
  { s with links := listPushBack s.links tail t }

/-- The tasks that are waiting for one that exits, and its parent if that
sleeps. -/
def Sched.wake (s : Sched N) (woken : List N) : Sched N :=
  { s with tasks := fun t =>
      if t ∈ woken then { s.tasks t with state := .preempted } else s.tasks t }

/-- `task_exit`, as far as the scheduler sees it, when there is memory for the
signal to the parent. -/
def Sched.taskExit (pid : N → Nat) (woken : N → List N) (s : Sched N) (t : N) : Option (Sched N) :=
  if pid t = 1 ∨ pid t = 0 then none
  else
    let s := (s.setState t .zombie).wake (woken t)
    some { s with links := listRemove s.links t }

/-- `__reschedule_to`, up to the signals of `next`. -/
def Cpu.rescheduleTo (s : Cpu N) (next : N) : Cpu N :=
  { s.setTask next { s.tasks next with state := .running } with
    timeRan := Function.update s.timeRan next 0
    currentTask := next }

theorem rescheduleTo_timeRan (s : Cpu N) (next : N) : (Cpu.rescheduleTo s next).timeRan next = 0 :=
  Function.update_self ..

theorem rescheduleTo_state (s : Cpu N) (next : N) :
    ((Cpu.rescheduleTo s next).tasks next).state = .running := by
  simp [Cpu.rescheduleTo, Cpu.setTask]

theorem rescheduleTo_other (s : Cpu N) {next t : N} (h : t ≠ next) :
    (Cpu.rescheduleTo s next).tasks t = s.tasks t :=
  Function.update_of_ne h _ _

/-- `if (current_task->state == TASK_RUNNING) current_task->state = TASK_PREEMPTED`. -/
def Cpu.preemptCurrent (s : Cpu N) : Cpu N :=
  if (s.tasks s.currentTask).state = .running then
    s.setTask s.currentTask { s.tasks s.currentTask with state := .preempted }
  else s

section Decisions

variable (pid : N → Nat) (woken : N → List N) (head tail : N) (fuel : Nat)

/-- `next = pick_next_task(); reschedule_to(next)`. -/
def Cpu.pickAndSwitch (s : Cpu N) : Option (Cpu N) :=
  (pickNextTask (Sched.taskExit pid woken) head tail fuel s.toSched).map fun r =>
    Cpu.rescheduleTo { s with toSched := r.2 } r.1

def Cpu.reschedule (s : Cpu N) : Option (Cpu N) :=
  if s.preemptEnabled = false then some (Cpu.rescheduleTo s s.currentTask)
  else Cpu.pickAndSwitch pid woken head tail fuel s.preemptCurrent

def Cpu.schedTick (s : Cpu N) : Option (Cpu N) :=
  let s := { s with
    timeRan := Function.update s.timeRan s.currentTask (s.timeRan s.currentTask + 1) }
  if s.timeRan s.currentTask > timeSlice then Cpu.reschedule pid woken head tail fuel s else some s

def Cpu.pitSchedIrq (s : Cpu N) : Option (Cpu N) :=
  Cpu.schedTick pid woken head tail fuel { s with pitTicks := s.pitTicks + 1 }

/-- `sys_exit`. -/
def Cpu.sysExit (s : Cpu N) : Option (Cpu N) :=
  let s := s.setTask s.currentTask { s.tasks s.currentTask with state := .dying }
  Cpu.reschedule pid woken head tail fuel { s with taskNeedCleanup := s.taskNeedCleanup + 1 }

/-- `do_fatal_signal`, for the current task. -/
def Cpu.doFatalSignal (s : Cpu N) : Option (Cpu N) :=
  (Sched.taskExit pid woken s.toSched s.currentTask).bind fun sched =>
    Cpu.reschedule pid woken head tail fuel { s with toSched := sched }

end Decisions

/-! ## The list of all tasks around the current one -/

/-- The list of all tasks, none of them dying, and the current one among them
and within its time slice. -/
structure RunQueue (head tail : N) where
  cpu : Cpu N
  before : List N
  behind : List N
  chain : Chain cpu.links head (before ++ cpu.currentTask :: behind) tail
  nodup : (head :: (before ++ cpu.currentTask :: behind)).Nodup
  tail_notMem : tail ∉ before ++ cpu.currentTask :: behind
  alive : ∀ t ∈ before ++ cpu.currentTask :: behind, (cpu.tasks t).state ≠ .dying
  slice : cpu.timeRan cpu.currentTask ≤ timeSlice
  cleanup : cpu.taskNeedCleanup = 0

variable {head tail : N}

def RunQueue.tasks (q : RunQueue head tail) : List N := q.before ++ q.cpu.currentTask :: q.behind

/-- The tasks in the order of their turns. -/
def RunQueue.order (q : RunQueue head tail) : List N :=
  q.behind ++ (q.before ++ [q.cpu.currentTask])

omit [DecidableEq N] in
theorem RunQueue.mem_order {q : RunQueue head tail} {t : N} : t ∈ q.order ↔ t ∈ q.tasks := by
  simp only [RunQueue.order, RunQueue.tasks, List.mem_append, List.mem_cons, List.not_mem_nil,
    or_false]
  tauto

/-- The links determine the order. -/
theorem RunQueue.order_of_chain (q : RunQueue head tail) {before behind : List N}
    (h : Chain q.cpu.links head (before ++ q.cpu.currentTask :: behind) tail)
    (htail : tail ∉ before ++ q.cpu.currentTask :: behind) :
    q.order = behind ++ (before ++ [q.cpu.currentTask]) := by
  have hwalk := q.chain.walk q.tail_notMem (Nat.lt_succ_of_le (Nat.le_max_left _
    (before ++ q.cpu.currentTask :: behind).length))
  have hwalk' := h.walk htail (Nat.lt_succ_of_le (Nat.le_max_right q.tasks.length _))
  have hlists : q.before ++ q.cpu.currentTask :: q.behind =
      before ++ q.cpu.currentTask :: behind := Option.some.inj (hwalk.symm.trans hwalk')
  obtain ⟨-, hrest, hdisj⟩ := List.nodup_append.mp (List.nodup_cons.mp q.nodup).2
  have hbefore : q.cpu.currentTask ∉ q.before := fun hm => hdisj _ hm _ List.mem_cons_self rfl
  have hbehind : q.cpu.currentTask ∉ q.behind := (List.nodup_cons.mp hrest).1
  obtain ⟨h1, -, h2⟩ := (List.append_cons_inj_of_notMem hbefore hbehind).mp hlists
  rw [RunQueue.order, h1, h2]

theorem RunQueue.order_eq {q q' : RunQueue head tail} (hlinks : q.cpu.links = q'.cpu.links)
    (hcurrent : q.cpu.currentTask = q'.cpu.currentTask) : q.order = q'.order := by
  have h := q.chain
  have htail := q.tail_notMem
  rw [hlinks, hcurrent] at h
  rw [hcurrent] at htail
  rw [q'.order_of_chain h htail, RunQueue.order, hcurrent]

/-! ## A decision -/

/-- The tasks are `xs ++ ys`, and going round from the current one, which may
be gone, those of `ys` come first. -/
structure Around (head tail : N) (s : Sched N) (xs ys : List N) : Prop where
  chain : Chain s.links head (xs ++ ys) tail
  nodup : (head :: (xs ++ ys)).Nodup
  tail_notMem : tail ∉ xs ++ ys
  alive : ∀ t ∈ xs ++ ys, (s.tasks t).state ≠ .dying
  walk : CyclicWalk s.links head tail s.currentTask (ys ++ xs)

variable {pid : N → Nat} {woken : N → List N} {s : Sched N} {xs ys : List N}

theorem taskRunnable_iff {task : SchedTask} :
    task.taskRunnable = true ↔ task.state = .new ∨ task.state = .preempted := by
  simp [SchedTask.taskRunnable]

omit [DecidableEq N] in
theorem eligible_of_ready {t : N} (h : (s.tasks t).taskRunnable = true) : s.Eligible t := by
  rcases taskRunnable_iff.mp h with h | h
  · exact .inl h
  · exact .inr (.inl h)

theorem RunQueue.around (q : RunQueue head tail) :
    Around head tail q.cpu.toSched (q.before ++ [q.cpu.currentTask]) q.behind := by
  have hlist : (q.before ++ [q.cpu.currentTask]) ++ q.behind =
      q.before ++ q.cpu.currentTask :: q.behind := by simp
  refine ⟨?_, ?_, ?_, ?_, q.chain.cyclicWalk_around q.tail_notMem⟩
  · rw [hlist]
    exact q.chain
  · rw [hlist]
    exact q.nodup
  · rw [hlist]
    exact q.tail_notMem
  · rw [hlist]
    exact q.alive

/-- Only the states of the tasks changed, and none to dying. -/
theorem Around.congr {s' : Sched N} (h : Around head tail s xs ys) (hlinks : s'.links = s.links)
    (hcurrent : s'.currentTask = s.currentTask)
    (halive : ∀ t ∈ xs ++ ys, (s'.tasks t).state ≠ .dying) : Around head tail s' xs ys := by
  refine ⟨?_, h.nodup, h.tail_notMem, halive, ?_⟩
  · rw [hlinks]
    exact h.chain
  · rw [hlinks, hcurrent]
    exact h.walk

/-- The first one in the order that can run is chosen. -/
theorem Around.pickFrom_first (exit : Sched N → N → Option (Sched N))
    (h : Around head tail s xs ys) (helig : ∃ t ∈ xs ++ ys, s.Eligible t) :
    ∃ skipped chosen rest, ys ++ xs = skipped ++ chosen :: rest ∧
      (∀ t ∈ skipped, ¬s.Eligible t) ∧ s.Eligible chosen ∧
      ∀ fuel > (xs ++ ys).length, pickFrom exit head tail fuel s.currentTask s =
        some (chosen, if (s.tasks chosen).state = .sleeping then s.setState chosen .preempted
          else s) := by
  have hmem : ∀ t, t ∈ ys ++ xs ↔ t ∈ xs ++ ys := fun t => by
    rw [List.mem_append, List.mem_append, or_comm]
  obtain ⟨chosen, hfind⟩ : ∃ chosen, (ys ++ xs).find? (fun t => s.Eligible t) = some chosen := by
    rw [← Option.isSome_iff_exists, List.find?_isSome]
    obtain ⟨t, ht, htelig⟩ := helig
    exact ⟨t, (hmem t).mpr ht, decide_eq_true htelig⟩
  obtain ⟨hchosen, skipped, rest, hway, hskipped⟩ := List.find?_eq_some_iff_append.mp hfind
  have hskip : ∀ t ∈ skipped, ¬s.Eligible t := fun t ht => by simpa using hskipped t ht
  refine ⟨skipped, chosen, rest, hway, hskip, of_decide_eq_true hchosen, fun fuel hfuel => ?_⟩
  have halive : ∀ t ∈ skipped ++ [chosen], (s.tasks t).state ≠ .dying := fun t ht => by
    refine h.alive t ((hmem t).mp ?_)
    rw [hway]
    rcases List.mem_append.mp ht with ht | ht
    · exact List.mem_append_left _ ht
    · exact List.mem_append_right _ (List.mem_singleton.mp ht ▸ List.mem_cons_self)
  have hlength : skipped.length < fuel := by
    have hsum := congrArg List.length hway
    simp only [List.length_append, List.length_cons] at hsum hfuel
    omega
  exact pickFrom_walk (hway ▸ h.walk) halive hskip (of_decide_eq_true hchosen) hlength

/-- The state behind a decision for `chosen`. -/
theorem Around.switch {c : Cpu N} {n : Nat} (h : Around head tail s xs ys)
    (hclean : s.taskNeedCleanup = 0) (helig : ∃ t ∈ xs ++ ys, s.Eligible t)
    (hpick : ∀ fuel > n, pickNextTask (Sched.taskExit pid woken) head tail fuel c.toSched =
      pickFrom (Sched.taskExit pid woken) head tail fuel s.currentTask s)
    (hn : (xs ++ ys).length ≤ n) :
    ∃ skipped chosen rest, ∃ q' : RunQueue head tail, ys ++ xs = skipped ++ chosen :: rest ∧
      (∀ t ∈ skipped, ¬s.Eligible t) ∧ s.Eligible chosen ∧
      q'.order = rest ++ (skipped ++ [chosen]) ∧
      q'.cpu.currentTask = chosen ∧ (∀ t, t ≠ chosen → q'.cpu.tasks t = s.tasks t) ∧
      q'.cpu.timeRan chosen = 0 ∧ q'.cpu.preemptEnabled = c.preemptEnabled ∧
      ∀ fuel > n, Cpu.pickAndSwitch pid woken head tail fuel c = some q'.cpu := by
  obtain ⟨skipped, chosen, rest, hway, hskip, hcan, hfrom⟩ :=
    h.pickFrom_first (Sched.taskExit pid woken) helig
  obtain ⟨before, behind, hlist, horder⟩ := circle_serve hway
  have hlinks : (if (s.tasks chosen).state = .sleeping then s.setState chosen .preempted
      else s).links = s.links := by
    split <;> rfl
  have hother : ∀ t, t ≠ chosen → (if (s.tasks chosen).state = .sleeping then
      s.setState chosen .preempted else s).tasks t = s.tasks t := by
    intro t ht
    split
    · exact Function.update_of_ne ht _ _
    · rfl
  have hcleaned : (if (s.tasks chosen).state = .sleeping then s.setState chosen .preempted
      else s).taskNeedCleanup = 0 := by
    split <;> exact hclean
  generalize (if (s.tasks chosen).state = .sleeping then s.setState chosen .preempted
    else s) = s' at hlinks hother hcleaned hfrom
  have hfield : ∀ t, t ≠ chosen → (Cpu.rescheduleTo { c with toSched := s' } chosen).tasks t =
      s.tasks t := fun t ht => (rescheduleTo_other _ ht).trans (hother t ht)
  refine ⟨skipped, chosen, rest,
    { cpu := Cpu.rescheduleTo { c with toSched := s' } chosen
      before := before
      behind := behind
      chain := ?_
      nodup := ?_
      tail_notMem := ?_
      alive := ?_
      slice := ?_
      cleanup := hcleaned }, hway, hskip, hcan, horder, rfl, hfield,
      rescheduleTo_timeRan _ _, rfl, ?_⟩
  · exact hlinks.symm ▸ hlist ▸ h.chain
  · exact hlist ▸ h.nodup
  · exact hlist ▸ h.tail_notMem
  · intro t ht
    by_cases hchosen : t = chosen
    · subst hchosen
      rw [rescheduleTo_state]
      decide
    · rw [hfield t hchosen]
      exact h.alive t (hlist ▸ ht)
  · exact (rescheduleTo_timeRan _ chosen).trans_le (Nat.zero_le _)
  · intro fuel hfuel
    rw [Cpu.pickAndSwitch, hpick fuel hfuel, hfrom fuel (by omega)]
    rfl

/-- Without a dying task only the flag is cleared before the choice. -/
theorem Around.pick_eq {exit : Sched N → N → Option (Sched N)} (h : Around head tail s xs ys)
    {fuel : Nat} (hfuel : fuel > (xs ++ ys).length) :
    pickNextTask exit head tail fuel s = pickFrom exit head tail fuel s.currentTask s.cleaned := by
  unfold pickNextTask Sched.cleaned
  split
  · rw [cleanupTasks_alive h.chain h.tail_notMem h.alive hfuel]
    rfl
  · rfl

/-! ## A task that is gone -/

/-- The first loop up to a task, past others that are alive. -/
theorem cleanupTasks_skip {exit : Sched N → N → Option (Sched N)} {a y : N} {zs : List N}
    (h : Chain s.links a (xs ++ y :: zs) tail) (hxs : tail ∉ xs)
    (halive : ∀ t ∈ xs, (s.tasks t).state ≠ .dying) (fuel : Nat) :
    cleanupTasks exit tail (xs.length + fuel) (s.links.next a) s =
      cleanupTasks exit tail fuel y s := by
  induction xs generalizing a with
  | nil => rw [h.1, List.length_nil, Nat.zero_add]
  | cons x xs ih =>
      obtain ⟨h1, -, h3⟩ := h
      have hx : x ≠ tail := fun heq => hxs (heq ▸ List.mem_cons_self)
      rw [h1, List.length_cons, Nat.add_right_comm, cleanupTasks, if_neg hx,
        if_neg (halive x List.mem_cons_self), Option.bind_some]
      exact ih h3 (fun hm => hxs (List.mem_cons_of_mem _ hm))
        fun t ht => halive t (List.mem_cons_of_mem _ ht)

namespace RunQueue

variable (q : RunQueue head tail)

omit [DecidableEq N] in
theorem prev_ne : q.cpu.currentTask ≠ q.cpu.links.prev q.cpu.currentTask := by
  obtain ⟨hhead, hnodup⟩ := List.nodup_cons.mp q.nodup
  intro heq
  rcases (chain_append.mp q.chain).1.prev_last with hp | hp
  · have hmem : q.cpu.currentTask ∈ q.before ++ q.cpu.currentTask :: q.behind :=
      List.mem_append_right _ List.mem_cons_self
    exact hhead (Eq.subst (motive := fun n => n ∈ q.before ++ q.cpu.currentTask :: q.behind)
      (heq.trans hp) hmem)
  · rw [← heq] at hp
    exact (List.nodup_append.mp hnodup).2.2 _ hp _ List.mem_cons_self rfl

variable {q}

theorem removed_chain (hlinks : s.links = listRemove q.cpu.links q.cpu.currentTask) :
    Chain s.links head (q.before ++ q.behind) tail := by
  rw [hlinks]
  exact q.chain.remove q.nodup q.tail_notMem

/-- The removed task still leads to the one that was behind it. -/
theorem removed_next (hlinks : s.links = listRemove q.cpu.links q.cpu.currentTask) :
    s.links.next q.cpu.currentTask = q.cpu.links.next q.cpu.currentTask := by
  rw [hlinks, listRemove_next, if_neg q.prev_ne]

omit [DecidableEq N] in
theorem removed_nodup : (head :: (q.before ++ q.behind)).Nodup := by
  refine q.nodup.sublist (.cons_cons head ?_)
  exact List.Sublist.append (List.Sublist.refl _) (List.sublist_cons_self _ _)

omit [DecidableEq N] in
theorem removed_tail : tail ∉ q.before ++ q.behind := fun hm => q.tail_notMem <| by
  rcases List.mem_append.mp hm with hm | hm
  · exact List.mem_append_left _ hm
  · exact List.mem_append_right _ (List.mem_cons_of_mem _ hm)

/-- Going round from the removed task. -/
theorem removed_walk (hlinks : s.links = listRemove q.cpu.links q.cpu.currentTask) :
    CyclicWalk s.links head tail q.cpu.currentTask (q.behind ++ q.before) := by
  have hchain := q.removed_chain hlinks
  have htail := q.removed_tail
  have hnext := q.removed_next hlinks
  -- what is behind the removed task is now behind the one that was in front of it
  have hprev : s.links.next (q.cpu.links.prev q.cpu.currentTask) =
      q.cpu.links.next q.cpu.currentTask := by
    rw [hlinks, listRemove_next, if_pos rfl]
  have hstart : ∀ p, cyclicNext s.links head tail q.cpu.currentTask =
      cyclicNext s.links head tail p → ∀ l, CyclicWalk s.links head tail p l →
      CyclicWalk s.links head tail q.cpu.currentTask l := by
    intro p hp l hl
    cases l with
    | nil => trivial
    | cons y l => exact ⟨hp.trans hl.1, hl.2⟩
  obtain ⟨hfront, -⟩ := chain_append.mp q.chain
  rcases List.eq_nil_or_concat q.before with hbefore | ⟨zs, p, hbefore⟩
  · rw [hbefore] at hchain htail hfront ⊢
    rw [List.nil_append] at hchain htail
    rw [hfront.2] at hprev
    rw [List.append_nil]
    rcases List.eq_nil_or_concat q.behind with hbehind | ⟨ws, b, hbehind⟩
    · rw [hbehind]
      trivial
    · rw [List.concat_eq_append] at hbehind
      rw [hbehind] at hchain htail ⊢
      have hround : CyclicWalk s.links head tail b ([] ++ (ws ++ [b])) :=
        Chain.cyclicWalk_around hchain htail
      refine hstart b ?_ _ hround
      have hlast : s.links.next b = tail := (chain_append.mp hchain).2.1
      rw [cyclicNext, cyclicNext, hlast, if_pos rfl, hnext, ← hprev, ite_self]
  · rw [List.concat_eq_append] at hbefore
    rw [hbefore] at hchain htail hfront ⊢
    have hp : q.cpu.links.prev q.cpu.currentTask = p := (chain_append.mp hfront).2.2
    rw [List.append_assoc] at hchain htail
    refine hstart p ?_ _ (Chain.cyclicWalk_around hchain htail)
    rw [hp] at hprev
    rw [cyclicNext, cyclicNext, hnext, hprev]

theorem around_removed (hlinks : s.links = listRemove q.cpu.links q.cpu.currentTask)
    (hcurrent : s.currentTask = q.cpu.currentTask)
    (halive : ∀ t ∈ q.before ++ q.behind, (s.tasks t).state ≠ .dying) :
    Around head tail s q.before q.behind :=
  ⟨q.removed_chain hlinks, q.removed_nodup, q.removed_tail, halive,
    hcurrent.symm ▸ q.removed_walk hlinks⟩

/-- The first loop is the exit of the current task when that is dying. -/
theorem cleanup_removed {exit : Sched N → N → Option (Sched N)}
    (hlinks : s.links = q.cpu.links) (hdying : (s.tasks q.cpu.currentTask).state = .dying)
    (halive : ∀ t ∈ q.before, (s.tasks t).state ≠ .dying)
    (hexit : ∀ s', exit s q.cpu.currentTask = some s' →
      s'.links = listRemove q.cpu.links q.cpu.currentTask ∧
        ∀ t ∈ q.behind, (s'.tasks t).state ≠ .dying) {fuel : Nat} (hfuel : fuel > q.tasks.length) :
    cleanupTasks exit tail fuel (s.links.next head) s = exit s q.cpu.currentTask := by
  have htail := q.tail_notMem
  simp only [List.mem_append, List.mem_cons, not_or] at htail
  obtain ⟨hbefore, hcurrent, hbehind⟩ := htail
  obtain ⟨k, rfl⟩ : ∃ k, fuel = q.before.length + (k + 1) := by
    refine ⟨fuel - q.before.length - 1, ?_⟩
    simp only [RunQueue.tasks, List.length_append, List.length_cons] at hfuel
    omega
  have hk : q.behind.length < k := by
    simp only [RunQueue.tasks, List.length_append, List.length_cons] at hfuel
    omega
  rw [cleanupTasks_skip (hlinks ▸ q.chain) hbefore halive, cleanupTasks,
    if_neg (Ne.symm hcurrent), if_pos hdying]
  cases hgone : exit s q.cpu.currentTask with
  | none => rfl
  | some s' =>
      obtain ⟨hlinks', halive'⟩ := hexit s' hgone
      rw [Option.bind_some, q.removed_next hlinks']
      have hchain := q.removed_chain hlinks'
      obtain ⟨-, hrest⟩ := chain_append.mp q.chain
      cases hys : q.behind with
      | nil =>
          rw [hys] at hrest hk
          obtain ⟨k, rfl⟩ := Nat.exists_eq_succ_of_ne_zero (Nat.ne_of_gt hk)
          rw [hrest.1, cleanupTasks, if_pos rfl]
      | cons y ys =>
          rw [hys] at hrest hk hchain hbehind halive'
          rw [List.mem_cons, not_or] at hbehind
          obtain ⟨k, rfl⟩ := Nat.exists_eq_succ_of_ne_zero (Nat.ne_of_gt (Nat.zero_lt_of_lt hk))
          rw [hrest.1, cleanupTasks, if_neg (Ne.symm hbehind.1),
            if_neg (halive' y List.mem_cons_self), Option.bind_some]
          exact cleanupTasks_alive (chain_append.mp hchain).2 hbehind.2
            (fun t ht => halive' t (List.mem_cons_of_mem _ ht)) (Nat.lt_of_succ_lt_succ hk)

end RunQueue

/-! ## The scheduler runs -/

inductive SchedEvent (N : Type) where
  | yield (next : N)
  | tick (next : Option N)
  | signal (t : N)
  | add (t : N)
  | block (t : N)
  | sleep (t : N) (ticks : BitVec 32)
  | kick (t : N)
  | unblock (t : N)
  | exit (t next : N)
  | fatal (t next : N)

namespace SchedEvent

/-- Who was chosen, in a decision. -/
def next : SchedEvent N → Option N
  | yield c | exit _ c | fatal _ c => some c
  | tick c => c
  | _ => none

def decisions (e : SchedEvent N) : Nat := if e.next.isSome then 1 else 0

def adds : SchedEvent N → Nat
  | add _ => 1
  | _ => 0

def ticks : SchedEvent N → Nat
  | tick _ => 1
  | _ => 0

/-- The current task sends itself a signal, and gets a new time slice. -/
def signals : SchedEvent N → Nat
  | signal _ => 1
  | _ => 0

/-- `t` is not stopped by it, and is not on the processor. -/
def Spares (t : N) : SchedEvent N → Prop
  | block u | sleep u _ | signal u | exit u _ | fatal u _ => u ≠ t
  | _ => True

end SchedEvent

/-- One event; `task_exit` wakes any tasks. -/
inductive SchedStep (pid : N → Nat) : RunQueue head tail → SchedEvent N → RunQueue head tail → Prop
  | yield {q q' : RunQueue head tail} (woken : N → List N)
      (h : Cpu.reschedule pid woken head tail (q.tasks.length + 1) q.cpu = some q'.cpu) :
      SchedStep pid q (.yield q'.cpu.currentTask) q'
  | tick {q q' : RunQueue head tail} (woken : N → List N)
      (hran : q.cpu.timeRan q.cpu.currentTask < timeSlice)
      (h : Cpu.pitSchedIrq pid woken head tail (q.tasks.length + 1) q.cpu = some q'.cpu) :
      SchedStep pid q (.tick none) q'
  | slice {q q' : RunQueue head tail} (woken : N → List N)
      (hran : q.cpu.timeRan q.cpu.currentTask = timeSlice)
      (h : Cpu.pitSchedIrq pid woken head tail (q.tasks.length + 1) q.cpu = some q'.cpu) :
      SchedStep pid q (.tick (some q'.cpu.currentTask)) q'
  | signal {q q' : RunQueue head tail} (h : Cpu.rescheduleTo q.cpu q.cpu.currentTask = q'.cpu) :
      SchedStep pid q (.signal q.cpu.currentTask) q'
  | add {q q' : RunQueue head tail} (t : N) (hnew : t ∉ q.tasks) (hhead : t ≠ head)
      (htail : t ≠ tail) (h : Cpu.schedAddRq tail q.cpu t = q'.cpu) : SchedStep pid q (.add t) q'
  | block {q q' : RunQueue head tail} (t : N) (h : Cpu.taskBlockNoresched q.cpu t = q'.cpu) :
      SchedStep pid q (.block t) q'
  | sleep {q q' : RunQueue head tail} (t : N) (ticks : BitVec 32)
      (h : Cpu.taskSleep q.cpu t ticks = q'.cpu) : SchedStep pid q (.sleep t ticks) q'
  | kick {q q' : RunQueue head tail} (t : N) (h : Cpu.taskKick q.cpu t = q'.cpu) :
      SchedStep pid q (.kick t) q'
  | unblock {q q' : RunQueue head tail} (t : N) (h : Cpu.taskUnblock q.cpu t = some q'.cpu) :
      SchedStep pid q (.unblock t) q'
  | exit {q q' : RunQueue head tail} (woken : N → List N)
      (h : Cpu.sysExit pid woken head tail (q.tasks.length + 1) q.cpu = some q'.cpu) :
      SchedStep pid q (.exit q.cpu.currentTask q'.cpu.currentTask) q'
  | fatal {q q' : RunQueue head tail} (woken : N → List N)
      (h : Cpu.doFatalSignal pid woken head tail (q.tasks.length + 1) q.cpu = some q'.cpu) :
      SchedStep pid q (.fatal q.cpu.currentTask q'.cpu.currentTask) q'

inductive SchedRun (pid : N → Nat) :
    RunQueue head tail → List (SchedEvent N) → RunQueue head tail → Prop
  | nil (q : RunQueue head tail) : SchedRun pid q [] q
  | cons {q q' q'' : RunQueue head tail} {e : SchedEvent N} {es : List (SchedEvent N)}
      (h : SchedStep pid q e q') (hs : SchedRun pid q' es q'') : SchedRun pid q (e :: es) q''

/-- What an event keeps for a task that could run before, and is neither chosen
nor stopped: it still can, the order is changed by turns that it waits for, and
the time slice bounds the timer interrupts. -/
structure Waited (t : N) (q : RunQueue head tail) (e : SchedEvent N) (q' : RunQueue head tail) :
    Prop where
  enabled : q'.cpu.preemptEnabled = true
  ready : (q'.cpu.tasks t).taskRunnable = true
  turns : ∃ turns, Turns q.order turns q'.order ∧ (∀ u ∈ turns, u.Waits t) ∧
    (turns.map Turn.served).sum = e.decisions ∧ (turns.map Turn.joined).sum = e.adds
  slice : e.ticks + q.cpu.timeRan q.cpu.currentTask ≤
    (timeSlice + 1) * (e.decisions + e.signals) + q'.cpu.timeRan q'.cpu.currentTask

variable {q q' : RunQueue head tail} {t : N}

/-- An event without a decision that leaves the links alone. -/
theorem Waited.of_links {e : SchedEvent N} (henabled : q.cpu.preemptEnabled = true)
    (he : e.decisions = 0) (ha : e.adds = 0) (hlinks : q.cpu.links = q'.cpu.links)
    (hcurrent : q.cpu.currentTask = q'.cpu.currentTask)
    (henabled' : q'.cpu.preemptEnabled = q.cpu.preemptEnabled)
    (hready : (q'.cpu.tasks t).taskRunnable = true)
    (hslice : e.ticks + q.cpu.timeRan q.cpu.currentTask ≤
      (timeSlice + 1) * e.signals + q'.cpu.timeRan q'.cpu.currentTask) : Waited t q e q' := by
  refine ⟨henabled'.trans henabled, hready, ⟨[], ?_, by simp, by simp [he], by simp [ha]⟩, ?_⟩
  · rw [RunQueue.order_eq hlinks hcurrent]
    exact .nil _
  · rw [he, Nat.zero_add]
    exact hslice

/-- A decision was made, and the task waits for its turn in `order`. -/
structure Decided (t : N) (order : List N) (q' : RunQueue head tail) : Prop where
  enabled : q'.cpu.preemptEnabled = true
  ready : (q'.cpu.tasks t).taskRunnable = true
  fresh : q'.cpu.timeRan q'.cpu.currentTask = 0
  turn : ∃ turn, TurnStep order turn q'.order ∧ turn.Waits t ∧ turn.served = 1 ∧ turn.joined = 0

/-- **A decision**, in a state `s` from which the order is `ys ++ xs`: it is
reached, and the task waits for its turn. -/
theorem Around.decision {c : Cpu N} {n : Nat} (h : Around head tail s xs ys)
    (hpre : c.preemptEnabled = true) (hclean : s.taskNeedCleanup = 0)
    (hpick : ∀ fuel > n, pickNextTask (Sched.taskExit pid woken) head tail fuel c.toSched =
      pickFrom (Sched.taskExit pid woken) head tail fuel s.currentTask s)
    (hn : (xs ++ ys).length ≤ n) (ht : t ∈ xs ++ ys) (hready : (s.tasks t).taskRunnable = true)
    (hq' : Cpu.pickAndSwitch pid woken head tail (n + 1) c = some q'.cpu)
    (hnext : q'.cpu.currentTask ≠ t) :
    Decided t (ys ++ xs) q' := by
  obtain ⟨skipped, chosen, rest, p, hway, hskip, -, horder, hchosen, hother, hran, henabled,
    hgoes⟩ :=
    h.switch hclean ⟨t, ht, eligible_of_ready hready⟩ hpick hn
  have hcpu : p.cpu = q'.cpu := Option.some.inj ((hgoes _ (Nat.lt_succ_self n)).symm.trans hq')
  rw [RunQueue.order_eq (congrArg (·.links) hcpu) (congrArg (·.currentTask) hcpu)] at horder
  rw [hcpu] at hchosen hother hran henabled
  have htc : t ≠ chosen := fun heq => hnext (hchosen.trans heq.symm)
  refine ⟨henabled.trans hpre, ?_, hchosen.symm ▸ hran, .serve skipped chosen, ?_, ⟨?_, htc⟩,
    rfl, rfl⟩
  · rw [hother t htc]
    exact hready
  · rw [hway, horder]
    exact .serve skipped rest chosen
  · exact fun hm => hskip t hm (eligible_of_ready hready)

/-- A decision when no task is dying. -/
theorem Around.decision_alive {c : Cpu N} {n : Nat} (h : Around head tail c.toSched xs ys)
    (hpre : c.preemptEnabled = true) (hclean : c.taskNeedCleanup = 0)
    (hn : (xs ++ ys).length ≤ n) (ht : t ∈ xs ++ ys) (hready : (c.tasks t).taskRunnable = true)
    (hq' : Cpu.pickAndSwitch pid woken head tail (n + 1) c = some q'.cpu)
    (hnext : q'.cpu.currentTask ≠ t) :
    Decided t (ys ++ xs) q' := by
  have hcleaned : Around head tail c.toSched.cleaned xs ys := h.congr rfl rfl h.alive
  have hflag : c.toSched.cleaned.taskNeedCleanup = 0 := by simp [Sched.cleaned, hclean]
  exact hcleaned.decision hpre hflag (fun fuel hfuel => h.pick_eq (Nat.lt_of_le_of_lt hn hfuel)) hn
    ht hready hq' hnext

theorem preemptCurrent_tasks (c : Cpu N) (u : N) :
    c.preemptCurrent.tasks u = c.tasks u ∨ (c.tasks u).state = .running ∧
      c.preemptCurrent.tasks u = { c.tasks u with state := .preempted } := by
  unfold Cpu.preemptCurrent
  split
  · rename_i hrunning
    by_cases hu : u = c.currentTask
    · subst hu
      exact .inr ⟨hrunning, Function.update_self ..⟩
    · exact .inl (Function.update_of_ne hu _ _)
  · exact .inl rfl

theorem ready_preempt {c : Cpu N} (h : (c.tasks t).taskRunnable = true) :
    (c.preemptCurrent.tasks t).taskRunnable = true := by
  rcases preemptCurrent_tasks c t with hsame | ⟨-, hpre⟩
  · rw [hsame]
    exact h
  · rw [hpre]
    rfl

theorem preemptCurrent_fields (c : Cpu N) :
    c.preemptCurrent.links = c.links ∧ c.preemptCurrent.currentTask = c.currentTask ∧
      c.preemptCurrent.taskNeedCleanup = c.taskNeedCleanup ∧
      c.preemptCurrent.preemptEnabled = c.preemptEnabled := by
  unfold Cpu.preemptCurrent
  split <;> exact ⟨rfl, rfl, rfl, rfl⟩

theorem reschedule_enabled {c : Cpu N} (h : c.preemptEnabled = true) (fuel : Nat) :
    Cpu.reschedule pid woken head tail fuel c =
      Cpu.pickAndSwitch pid woken head tail fuel c.preemptCurrent := by
  rw [Cpu.reschedule, if_neg (by simp [h])]

/-- The state in which `reschedule` decides, with the current task in the list. -/
theorem RunQueue.around_preempt {c : Cpu N} (hlinks : c.links = q.cpu.links)
    (hcurrent : c.currentTask = q.cpu.currentTask) (htasks : c.tasks = q.cpu.tasks) :
    Around head tail c.preemptCurrent.toSched (q.before ++ [q.cpu.currentTask]) q.behind := by
  obtain ⟨hl, hc, -, -⟩ := preemptCurrent_fields c
  refine q.around.congr (hl.trans hlinks) (hc.trans hcurrent) fun u hu => ?_
  have hu' := q.around.alive u hu
  rw [← htasks] at hu'
  rcases preemptCurrent_tasks c u with h | ⟨-, h⟩
  · rw [h]
    exact hu'
  · rw [h]
    simp

/-- **`reschedule`**, with the current task in the list. -/
theorem RunQueue.decision {c : Cpu N} (hlinks : c.links = q.cpu.links)
    (hcurrent : c.currentTask = q.cpu.currentTask) (htasks : c.tasks = q.cpu.tasks)
    (hclean : c.taskNeedCleanup = 0) (henabled : c.preemptEnabled = true) (ht : t ∈ q.tasks)
    (hready : (q.cpu.tasks t).taskRunnable = true)
    (hq' : Cpu.reschedule pid woken head tail (q.tasks.length + 1) c = some q'.cpu)
    (hnext : q'.cpu.currentTask ≠ t) :
    Decided t q.order q' := by
  obtain ⟨-, -, hflag, hpre⟩ := preemptCurrent_fields c
  have hlist : (q.before ++ [q.cpu.currentTask]) ++ q.behind = q.tasks := by
    simp [RunQueue.tasks]
  rw [reschedule_enabled henabled] at hq'
  exact (RunQueue.around_preempt hlinks hcurrent htasks).decision_alive (hpre.trans henabled)
    (hflag.trans hclean) (Nat.le_of_eq (congrArg List.length hlist)) (hlist ▸ ht)
    (ready_preempt (htasks.symm ▸ hready)) hq' hnext

/-- What `task_exit` leaves. -/
theorem taskExit_some {s' : Sched N} (h : Sched.taskExit pid woken s t = some s') :
    s'.links = listRemove s.links t ∧ s'.currentTask = s.currentTask ∧
      s'.taskNeedCleanup = s.taskNeedCleanup ∧ (s'.tasks t).state ≠ .running ∧
      ∀ u, u ≠ t → s'.tasks u = s.tasks u ∨
        s'.tasks u = { s.tasks u with state := .preempted } := by
  rw [Sched.taskExit] at h
  split at h
  · cases h
  · cases h
    refine ⟨rfl, rfl, rfl, ?_, fun u hu => ?_⟩
    · simp only [Sched.wake, Sched.setState, Function.update_self]
      split <;> simp
    · simp only [Sched.wake, Sched.setState, Function.update_of_ne hu]
      split
      · exact .inr rfl
      · exact .inl rfl

/-- The tasks that are left when the current one is gone. -/
theorem RunQueue.around_gone {s' : Sched N} (hlinks : s.links = q.cpu.links)
    (hcurrent : s.currentTask = q.cpu.currentTask)
    (htasks : ∀ u, u ≠ q.cpu.currentTask → s.tasks u = q.cpu.tasks u)
    (h : Sched.taskExit pid woken s q.cpu.currentTask = some s') :
    Around head tail s' q.before q.behind := by
  obtain ⟨hl, hc, -, -, hother⟩ := taskExit_some h
  refine RunQueue.around_removed (hlinks ▸ hl) (hc.trans hcurrent) fun u hu => ?_
  obtain ⟨-, hrest, hdisj⟩ := List.nodup_append.mp (List.nodup_cons.mp q.nodup).2
  have hne : u ≠ q.cpu.currentTask := by
    rcases List.mem_append.mp hu with hb | hb
    · exact hdisj u hb _ List.mem_cons_self
    · exact fun heq => (List.nodup_cons.mp hrest).1 (heq ▸ hb)
  have halive : (s.tasks u).state ≠ .dying := by
    rw [htasks u hne]
    apply q.alive
    rcases List.mem_append.mp hu with hb | hb
    · exact List.mem_append_left _ hb
    · exact List.mem_append_right _ (List.mem_cons_of_mem _ hb)
  rcases hother u hne with h | h
  · rw [h]
    exact halive
  · rw [h]
    simp

theorem ready_gone {s' : Sched N} {u : N} (h : Sched.taskExit pid woken s u = some s') (hne : t ≠ u)
    (hready : (s.tasks t).taskRunnable = true) : (s'.tasks t).taskRunnable = true := by
  obtain ⟨-, -, -, -, hother⟩ := taskExit_some h
  rcases hother t hne with h | h
  · rw [h]
    exact hready
  · rw [h]
    rfl

omit [DecidableEq N] in
theorem RunQueue.mem_gone (ht : t ∈ q.tasks) (hne : t ≠ q.cpu.currentTask) :
    t ∈ q.before ++ q.behind := by
  simpa [RunQueue.tasks, hne] using ht

omit [DecidableEq N] in
theorem RunQueue.gone_length : (q.before ++ q.behind).length ≤ q.tasks.length := by
  simp [RunQueue.tasks]

omit [DecidableEq N] in
/-- The order without the current task. -/
theorem RunQueue.leave_order :
    TurnStep q.order (.leave q.cpu.currentTask) (q.behind ++ q.before) := by
  have h := TurnStep.leave (q.behind ++ q.before) [] q.cpu.currentTask
  rwa [List.append_assoc, List.append_nil] at h

omit [DecidableEq N] in
/-- The current task has not used up more than its time slice. -/
theorem slice_bound (q : RunQueue head tail) {ticks : Nat} (h : ticks ≤ 1) (n : Nat) :
    ticks + q.cpu.timeRan q.cpu.currentTask ≤ (timeSlice + 1) * (1 + n) + 0 := by
  have hslice := q.slice
  have hmul := Nat.le_mul_of_pos_right (timeSlice + 1) (Nat.lt_add_right n Nat.one_pos)
  omega

omit [DecidableEq N] in
/-- From a decision after a time slice or a yield to what the event keeps. -/
theorem Decided.waited {e : SchedEvent N} (h : Decided t q.order q') (he : e.decisions = 1)
    (ha : e.adds = 0) (hticks : e.ticks ≤ 1) : Waited t q e q' := by
  obtain ⟨turn, hstep, hwaits, hserved, hjoined⟩ := h.turn
  refine ⟨h.enabled, h.ready, ⟨[turn], .cons hstep (.nil _), ?_, ?_, ?_⟩, ?_⟩
  · simpa using hwaits
  · simp [he, hserved]
  · simp [ha, hjoined]
  · rw [he, h.fresh]
    exact slice_bound q hticks e.signals

omit [DecidableEq N] in
/-- The same after the exit of the current task. -/
theorem Decided.waited_gone {e : SchedEvent N} (h : Decided t (q.behind ++ q.before) q')
    (hne : t ≠ q.cpu.currentTask) (he : e.decisions = 1) (ha : e.adds = 0) (hticks : e.ticks ≤ 1) :
    Waited t q e q' := by
  obtain ⟨turn, hstep, hwaits, hserved, hjoined⟩ := h.turn
  refine ⟨h.enabled, h.ready,
    ⟨[.leave q.cpu.currentTask, turn], .cons q.leave_order (.cons hstep (.nil _)), ?_, ?_, ?_⟩, ?_⟩
  · simpa using ⟨hne, hwaits⟩
  · rw [List.map_cons, List.map_singleton, List.sum_cons, List.sum_singleton, hserved, he]
    rfl
  · rw [List.map_cons, List.map_singleton, List.sum_cons, List.sum_singleton, hjoined, ha]
    rfl
  · rw [he, h.fresh]
    exact slice_bound q hticks e.signals

theorem pitSchedIrq_tick (hran : q.cpu.timeRan q.cpu.currentTask < timeSlice) (fuel : Nat) :
    Cpu.pitSchedIrq pid woken head tail fuel q.cpu = some { q.cpu with
      pitTicks := q.cpu.pitTicks + 1
      timeRan := Function.update q.cpu.timeRan q.cpu.currentTask
        (q.cpu.timeRan q.cpu.currentTask + 1) } := by
  simp only [Cpu.pitSchedIrq, Cpu.schedTick, Function.update_self]
  rw [if_neg (by omega)]

theorem pitSchedIrq_slice (hran : q.cpu.timeRan q.cpu.currentTask = timeSlice) (fuel : Nat) :
    Cpu.pitSchedIrq pid woken head tail fuel q.cpu =
      Cpu.reschedule pid woken head tail fuel { q.cpu with
        pitTicks := q.cpu.pitTicks + 1
        timeRan := Function.update q.cpu.timeRan q.cpu.currentTask
          (q.cpu.timeRan q.cpu.currentTask + 1) } := by
  simp only [Cpu.pitSchedIrq, Cpu.schedTick, Function.update_self]
  rw [if_pos (by omega)]

/-- `sys_exit` decides among the tasks that are left. -/
theorem sysExit_decided (henabled : q.cpu.preemptEnabled = true) (ht : t ∈ q.tasks)
    (hne : t ≠ q.cpu.currentTask) (hready : (q.cpu.tasks t).taskRunnable = true)
    (h : Cpu.sysExit pid woken head tail (q.tasks.length + 1) q.cpu = some q'.cpu)
    (hnext : q'.cpu.currentTask ≠ t) : Decided t (q.behind ++ q.before) q' := by
  rw [Cpu.sysExit] at h
  dsimp only at h
  generalize hc : ({ q.cpu.setTask q.cpu.currentTask
    { q.cpu.tasks q.cpu.currentTask with state := .dying } with
      taskNeedCleanup := (q.cpu.setTask q.cpu.currentTask
        { q.cpu.tasks q.cpu.currentTask with state := .dying }).taskNeedCleanup + 1 } : Cpu N) = c
    at h
  have hlinks : c.links = q.cpu.links := by rw [← hc]; rfl
  have hcurrent : c.currentTask = q.cpu.currentTask := by rw [← hc]; rfl
  have hpre : c.preemptEnabled = true := by rw [← hc]; exact henabled
  have hflag : c.taskNeedCleanup > 0 := by
    rw [← hc]
    simp [Cpu.setTask, q.cleanup]
  have hdying : (c.tasks q.cpu.currentTask).state = .dying := by
    rw [← hc]
    simp [Cpu.setTask]
  have hother : ∀ u, u ≠ q.cpu.currentTask → c.tasks u = q.cpu.tasks u := by
    intro u hu
    rw [← hc]
    exact Function.update_of_ne hu _ _
  have hstay : c.preemptCurrent = c := by
    rw [Cpu.preemptCurrent, hcurrent, hdying, if_neg (by decide)]
  rw [reschedule_enabled hpre, hstay] at h
  obtain ⟨-, hrest, hdisj⟩ := List.nodup_append.mp (List.nodup_cons.mp q.nodup).2
  have hclean : ∀ fuel > q.tasks.length,
      cleanupTasks (Sched.taskExit pid woken) tail fuel (c.links.next head) c.toSched =
        Sched.taskExit pid woken c.toSched q.cpu.currentTask := by
    intro fuel hfuel
    refine RunQueue.cleanup_removed hlinks hdying ?_ ?_ hfuel
    · intro u hu
      rw [hother u (hdisj u hu _ List.mem_cons_self)]
      exact q.alive u (List.mem_append_left _ hu)
    · intro s' hs'
      have haround := RunQueue.around_gone hlinks hcurrent hother hs'
      exact ⟨hlinks ▸ (taskExit_some hs').1, fun u hu =>
        haround.alive u (List.mem_append_right _ hu)⟩
  cases hgone : Sched.taskExit pid woken c.toSched q.cpu.currentTask with
  | none =>
      rw [Cpu.pickAndSwitch, pickNextTask, if_pos hflag, hclean _ (Nat.lt_succ_self _), hgone] at h
      cases h
  | some s' =>
      have haround := RunQueue.around_gone hlinks hcurrent hother hgone
      have hcleared : Around head tail { s' with taskNeedCleanup := 0 } q.before q.behind :=
        haround.congr rfl rfl haround.alive
      have hready' : (s'.tasks t).taskRunnable = true :=
        ready_gone hgone hne ((hother t hne).symm ▸ hready)
      refine hcleared.decision hpre rfl ?_ q.gone_length (RunQueue.mem_gone ht hne) hready' h hnext
      intro fuel hfuel
      rw [pickNextTask, if_pos hflag, hclean fuel hfuel, hgone]
      rfl

/-- So does a fatal signal. -/
theorem doFatalSignal_decided (henabled : q.cpu.preemptEnabled = true) (ht : t ∈ q.tasks)
    (hne : t ≠ q.cpu.currentTask) (hready : (q.cpu.tasks t).taskRunnable = true)
    (h : Cpu.doFatalSignal pid woken head tail (q.tasks.length + 1) q.cpu = some q'.cpu)
    (hnext : q'.cpu.currentTask ≠ t) : Decided t (q.behind ++ q.before) q' := by
  obtain ⟨s', hgone, h⟩ := Option.bind_eq_some_iff.mp h
  obtain ⟨-, hcurrent, hflag, hstate, -⟩ := taskExit_some hgone
  have hstay : Cpu.preemptCurrent { q.cpu with toSched := s' } = { q.cpu with toSched := s' } := by
    rw [Cpu.preemptCurrent]
    dsimp only
    rw [hcurrent, if_neg hstate]
  rw [reschedule_enabled (by exact henabled), hstay] at h
  have haround := RunQueue.around_gone (q := q) rfl rfl (fun _ _ => rfl) hgone
  exact Around.decision_alive (c := { q.cpu with toSched := s' }) haround henabled
    (hflag.trans q.cleanup) q.gone_length (RunQueue.mem_gone ht hne)
    (ready_gone hgone hne hready) h hnext

/-- Another task is added at the end of the list. -/
theorem schedAddRq_order {u : N} (hnew : u ∉ q.tasks) (hhead : u ≠ head) (htail : u ≠ tail)
    (h : Cpu.schedAddRq tail q.cpu u = q'.cpu) : TurnStep q.order (.join u) q'.order := by
  have hcurrent : q'.cpu.currentTask = q.cpu.currentTask := by rw [← h]; rfl
  have hchain : Chain q'.cpu.links head (q.tasks ++ [u]) tail := by
    rw [← h]
    exact q.chain.push q.nodup q.tail_notMem hhead htail hnew
  have hlist : q.tasks ++ [u] = q.before ++ q'.cpu.currentTask :: (q.behind ++ [u]) := by
    simp [RunQueue.tasks, hcurrent]
  have hnotMem : tail ∉ q.tasks ++ [u] := by
    rw [List.mem_append, List.mem_singleton, not_or]
    exact ⟨q.tail_notMem, Ne.symm htail⟩
  rw [hlist] at hchain hnotMem
  rw [q'.order_of_chain hchain hnotMem, hcurrent, List.append_assoc]
  exact TurnStep.join q.behind (q.before ++ [q.cpu.currentTask]) u

/-- **One event.** -/
theorem SchedStep.waited {e : SchedEvent N} (h : SchedStep pid q e q')
    (henabled : q.cpu.preemptEnabled = true) (ht : t ∈ q.tasks)
    (hready : (q.cpu.tasks t).taskRunnable = true) (hspares : e.Spares t)
    (hnext : e.next ≠ some t) : Waited t q e q' := by
  have hset : ∀ (u : N) (task : SchedTask), q.cpu.setTask u task = q'.cpu → e.next = none →
      e.adds = 0 → e.ticks = 0 → (u = t → task.taskRunnable = true) → Waited t q e q' := by
    intro u task hq' he ha hticks hu
    have hd : e.decisions = 0 := by simp [SchedEvent.decisions, he]
    refine .of_links henabled hd ha ?_ ?_ ?_ ?_ ?_
    · rw [← hq']; rfl
    · rw [← hq']; rfl
    · rw [← hq']; rfl
    · rw [← hq']
      by_cases htu : t = u
      · subst htu
        rw [show (q.cpu.setTask t task).tasks t = task from Function.update_self ..]
        exact hu rfl
      · rw [show (q.cpu.setTask u task).tasks t = q.cpu.tasks t from
          Function.update_of_ne htu _ _]
        exact hready
    · rw [hticks, ← hq', Nat.zero_add]
      exact Nat.le_add_left _ _
  cases h with
  | yield woken h =>
      have hne : q'.cpu.currentTask ≠ t := fun heq => hnext (congrArg some heq)
      exact (RunQueue.decision rfl rfl rfl q.cleanup henabled ht hready h hne).waited rfl rfl
        (Nat.zero_le _)
  | tick woken hran h =>
      rw [pitSchedIrq_tick hran, Option.some.injEq] at h
      refine .of_links henabled rfl rfl ?_ ?_ ?_ ?_ ?_
      · rw [← h]
      · rw [← h]
      · rw [← h]
      · rw [← h]
        exact hready
      · have hran' : q'.cpu.timeRan q'.cpu.currentTask =
            q.cpu.timeRan q.cpu.currentTask + 1 := by
          rw [← h]
          exact Function.update_self ..
        simp only [SchedEvent.ticks, SchedEvent.signals]
        omega
  | slice woken hran h =>
      have hne : q'.cpu.currentTask ≠ t := fun heq => hnext (congrArg some heq)
      rw [pitSchedIrq_slice hran] at h
      have hdecided := RunQueue.decision (c := { q.cpu with
        pitTicks := q.cpu.pitTicks + 1
        timeRan := Function.update q.cpu.timeRan q.cpu.currentTask
          (q.cpu.timeRan q.cpu.currentTask + 1) }) rfl rfl rfl q.cleanup henabled ht hready h hne
      exact hdecided.waited rfl rfl (Nat.le_of_eq rfl)
  | signal h =>
      refine .of_links henabled rfl rfl ?_ ?_ ?_ ?_ ?_
      · rw [← h]; rfl
      · rw [← h]; rfl
      · rw [← h]; rfl
      · rw [← h, rescheduleTo_other _ (Ne.symm hspares)]
        exact hready
      · have hslice := q.slice
        simp only [SchedEvent.ticks, SchedEvent.signals]
        omega
  | add u hnew hhead htail h =>
      have hcurrent : q'.cpu.currentTask = q.cpu.currentTask := by rw [← h]; rfl
      have htu : t ≠ u := fun heq => hnew (heq ▸ ht)
      refine ⟨?_, ?_, ⟨[.join u], .cons (schedAddRq_order hnew hhead htail h) (.nil _), ?_, rfl,
        rfl⟩, ?_⟩
      · rw [← h]
        exact henabled
      · rw [← h]
        exact hready
      · intro turn hturn
        rw [List.mem_singleton.mp hturn]
        exact htu
      · rw [← h]
        simp [Cpu.schedAddRq, SchedEvent.ticks]
  | block u h => exact hset u _ h rfl rfl rfl fun heq => absurd heq hspares
  | sleep u ticks h => exact hset u _ h rfl rfl rfl fun heq => absurd heq hspares
  | kick u h => exact hset u _ h rfl rfl rfl fun _ => rfl
  | unblock u h =>
      rw [Cpu.taskUnblock] at h
      split at h
      · exact hset u _ (Option.some.inj h) rfl rfl rfl fun _ => rfl
      · cases h
  | exit woken h =>
      have hne : q'.cpu.currentTask ≠ t := fun heq => hnext (congrArg some heq)
      have hgone : t ≠ q.cpu.currentTask := Ne.symm hspares
      exact (sysExit_decided henabled ht hgone hready h hne).waited_gone hgone rfl rfl
        (Nat.zero_le _)
  | fatal woken h =>
      have hne : q'.cpu.currentTask ≠ t := fun heq => hnext (congrArg some heq)
      have hgone : t ≠ q.cpu.currentTask := Ne.symm hspares
      exact (doFatalSignal_decided henabled ht hgone hready h hne).waited_gone hgone rfl rfl
        (Nat.zero_le _)

/-- **A decision is reached** while there is a task that can run. -/
theorem reschedule_returns (henabled : q.cpu.preemptEnabled = true) (ht : t ∈ q.tasks)
    (hready : (q.cpu.tasks t).taskRunnable = true) :
    ∃ p : RunQueue head tail, ∀ fuel > q.tasks.length,
      Cpu.reschedule pid woken head tail fuel q.cpu = some p.cpu := by
  have hlist : (q.before ++ [q.cpu.currentTask]) ++ q.behind = q.tasks := by
    simp [RunQueue.tasks]
  have hlength : ((q.before ++ [q.cpu.currentTask]) ++ q.behind).length = q.tasks.length :=
    congrArg List.length hlist
  have haround := RunQueue.around_preempt (q := q) rfl rfl rfl
  have hcleaned : Around head tail q.cpu.preemptCurrent.toSched.cleaned
      (q.before ++ [q.cpu.currentTask]) q.behind := haround.congr rfl rfl haround.alive
  have hflag : q.cpu.preemptCurrent.toSched.cleaned.taskNeedCleanup = 0 := by
    simp [Sched.cleaned, (preemptCurrent_fields q.cpu).2.2.1, q.cleanup]
  have hpick : ∀ fuel > q.tasks.length,
      pickNextTask (Sched.taskExit pid woken) head tail fuel q.cpu.preemptCurrent.toSched =
        pickFrom (Sched.taskExit pid woken) head tail fuel
          q.cpu.preemptCurrent.toSched.cleaned.currentTask q.cpu.preemptCurrent.toSched.cleaned :=
    fun fuel hfuel => haround.pick_eq (hlength ▸ hfuel)
  obtain ⟨-, -, -, p, -, -, -, -, -, -, -, -, hgoes⟩ := hcleaned.switch hflag
    ⟨t, hlist ▸ ht, eligible_of_ready (ready_preempt hready)⟩ hpick (Nat.le_of_eq hlength)
  refine ⟨p, fun fuel hfuel => ?_⟩
  rw [reschedule_enabled henabled]
  exact hgoes fuel hfuel

/-- A run of events in which a task is neither chosen nor stopped. -/
theorem SchedRun.waited {es : List (SchedEvent N)} (hrun : SchedRun pid q es q')
    (henabled : q.cpu.preemptEnabled = true) (ht : t ∈ q.tasks)
    (hready : (q.cpu.tasks t).taskRunnable = true) (hspares : ∀ e ∈ es, e.Spares t)
    (hnext : ∀ e ∈ es, e.next ≠ some t) :
    q'.cpu.preemptEnabled = true ∧ t ∈ q'.tasks ∧ (q'.cpu.tasks t).taskRunnable = true ∧
      q'.order.idxOf t + (es.map SchedEvent.decisions).sum ≤
        q.order.idxOf t + (es.map SchedEvent.adds).sum ∧
      (es.map SchedEvent.ticks).sum + q.cpu.timeRan q.cpu.currentTask ≤
        (timeSlice + 1) * ((es.map SchedEvent.decisions).sum + (es.map SchedEvent.signals).sum) +
          q'.cpu.timeRan q'.cpu.currentTask := by
  induction hrun with
  | nil => exact ⟨henabled, ht, hready, Nat.le_refl _, by simp⟩
  | cons hstep _ ih =>
      have hw := hstep.waited henabled ht hready (hspares _ List.mem_cons_self)
        (hnext _ List.mem_cons_self)
      obtain ⟨turns, hturns, hwaits, hserved, hjoined⟩ := hw.turns
      obtain ⟨hmem, hidx⟩ := hturns.waits hwaits (RunQueue.mem_order.mpr ht)
      obtain ⟨h1, h2, h3, h4, h5⟩ := ih hw.enabled (RunQueue.mem_order.mp hmem) hw.ready
        (fun e he => hspares e (List.mem_cons_of_mem _ he))
        (fun e he => hnext e (List.mem_cons_of_mem _ he))
      rw [hserved, hjoined] at hidx
      have hslice := hw.slice
      simp only [List.map_cons, List.sum_cons, Nat.mul_add] at h5 hslice ⊢
      exact ⟨h1, h2, h3, by omega, by omega⟩

omit [DecidableEq N] in
theorem not_eligible_of_blocked {u : N} (h : (s.tasks u).state = .blocked) : ¬s.Eligible u := by
  unfold Sched.Eligible
  rw [h]
  simp

/-- Going round stays in the list. -/
theorem Around.cyclicNext_mem (h : Around head tail s xs ys) {u : N} (hu : u ∈ xs ++ ys) :
    cyclicNext s.links head tail u ∈ xs ++ ys := by
  obtain ⟨pre, post, hsplit⟩ := List.append_of_mem hu
  have hwalk : CyclicWalk s.links head tail u (post ++ (pre ++ [u])) :=
    (hsplit ▸ h.chain).cyclicWalk_around (hsplit ▸ h.tail_notMem)
  have hmem : ∀ n ∈ post ++ (pre ++ [u]), n ∈ xs ++ ys := by
    intro n hn
    rw [hsplit]
    simp only [List.mem_append, List.mem_cons, List.not_mem_nil, or_false] at hn ⊢
    tauto
  cases hlist : post ++ (pre ++ [u]) with
  | nil => simp at hlist
  | cons y rest =>
      rw [hlist] at hwalk hmem
      exact hwalk.1 ▸ hmem y List.mem_cons_self

/-- From a task of the list the loop goes on for ever when none can run. -/
theorem Around.pickFrom_none (exit : Sched N → N → Option (Sched N))
    (h : Around head tail s xs ys) (hnone : ∀ u ∈ xs ++ ys, ¬s.Eligible u) (fuel : Nat) {u : N}
    (hu : cyclicNext s.links head tail u ∈ xs ++ ys) : pickFrom exit head tail fuel u s = none := by
  induction fuel generalizing u with
  | zero => rfl
  | succ fuel ih =>
      rw [pickFrom_succ rfl (h.alive _ hu), if_neg (hnone _ hu)]
      exact ih (h.cyclicNext_mem hu)

/-- **A decision** never takes a blocked task. -/
theorem RunQueue.decision_blocked {c : Cpu N} (hlinks : c.links = q.cpu.links)
    (hcurrent : c.currentTask = q.cpu.currentTask) (htasks : c.tasks = q.cpu.tasks)
    (hclean : c.taskNeedCleanup = 0) (henabled : c.preemptEnabled = true) (ht : t ∈ q.tasks)
    (hblocked : (q.cpu.tasks t).state = .blocked)
    (hq' : Cpu.reschedule pid woken head tail (q.tasks.length + 1) c = some q'.cpu) :
    q'.cpu.currentTask ≠ t ∧ q'.cpu.preemptEnabled = true ∧ t ∈ q'.tasks ∧
      (q'.cpu.tasks t).state = .blocked := by
  obtain ⟨-, -, hflag, hpre⟩ := preemptCurrent_fields c
  have hlist : (q.before ++ [q.cpu.currentTask]) ++ q.behind = q.tasks := by
    simp [RunQueue.tasks]
  have hlength := congrArg List.length hlist
  have haround := RunQueue.around_preempt hlinks hcurrent htasks
  have hcleaned : Around head tail c.preemptCurrent.toSched.cleaned
      (q.before ++ [q.cpu.currentTask]) q.behind := haround.congr rfl rfl haround.alive
  have hflag' : c.preemptCurrent.toSched.cleaned.taskNeedCleanup = 0 := by
    simp [Sched.cleaned, hflag, hclean]
  have hstate : (c.preemptCurrent.toSched.cleaned.tasks t).state = .blocked := by
    rcases preemptCurrent_tasks c t with h | ⟨h, -⟩
    · exact (congrArg SchedTask.state h).trans (htasks ▸ hblocked)
    · rw [htasks, hblocked] at h
      cases h
  have hpick : ∀ fuel > q.tasks.length,
      pickNextTask (Sched.taskExit pid woken) head tail fuel c.preemptCurrent.toSched =
        pickFrom (Sched.taskExit pid woken) head tail fuel
          c.preemptCurrent.toSched.cleaned.currentTask c.preemptCurrent.toSched.cleaned :=
    fun fuel hfuel => haround.pick_eq (hlength ▸ hfuel)
  rw [reschedule_enabled henabled] at hq'
  by_cases helig : ∃ u ∈ (q.before ++ [q.cpu.currentTask]) ++ q.behind,
      c.preemptCurrent.toSched.cleaned.Eligible u
  · obtain ⟨skipped, chosen, rest, p, hway, -, hchosen, horder, hnow, hother, -, hsame, hgoes⟩ :=
      hcleaned.switch hflag' helig hpick (Nat.le_of_eq hlength)
    have hcpu : p.cpu = q'.cpu :=
      Option.some.inj ((hgoes _ (Nat.lt_succ_self _)).symm.trans hq')
    have hne : t ≠ chosen := by
      rintro rfl
      exact not_eligible_of_blocked hstate hchosen
    have hmem : t ∈ q'.order := by
      rw [← RunQueue.order_eq (congrArg (·.links) hcpu) (congrArg (·.currentTask) hcpu), horder]
      have hold : t ∈ q.behind ++ (q.before ++ [q.cpu.currentTask]) := RunQueue.mem_order.mpr ht
      rw [hway] at hold
      simp only [List.mem_append, List.mem_cons, List.not_mem_nil, or_false] at hold ⊢
      tauto
    rw [hcpu] at hnow hother hsame
    refine ⟨fun heq => hne (heq.symm.trans hnow), hsame.trans (hpre.trans henabled),
      RunQueue.mem_order.mp hmem, ?_⟩
    rw [hother t hne]
    exact hstate
  · have hnone : ∀ u ∈ (q.before ++ [q.cpu.currentTask]) ++ q.behind,
        ¬c.preemptCurrent.toSched.cleaned.Eligible u := fun u hu he => helig ⟨u, hu, he⟩
    have hcurrentMem : c.preemptCurrent.toSched.cleaned.currentTask ∈
        (q.before ++ [q.cpu.currentTask]) ++ q.behind := by
      rw [hlist, show c.preemptCurrent.toSched.cleaned.currentTask = q.cpu.currentTask from
        (preemptCurrent_fields c).2.1.trans hcurrent]
      simp [RunQueue.tasks]
    rw [Cpu.pickAndSwitch, hpick _ (Nat.lt_succ_self _),
      hcleaned.pickFrom_none _ hnone _ (hcleaned.cyclicNext_mem hcurrentMem)] at hq'
    cases hq'

/-- The event is not one that makes `t` run, and nobody exits, which would wake
those that wait for it. -/
def SchedEvent.Leaves (t : N) : SchedEvent N → Prop
  | .signal u | .sleep u _ | .kick u | .unblock u => u ≠ t
  | .exit _ _ | .fatal _ _ => False
  | _ => True

theorem setTask_blocked {c : Cpu N} {u : N} {task : SchedTask}
    (h : (c.tasks t).state = .blocked) (hu : u = t → task.state = .blocked) :
    ((c.setTask u task).tasks t).state = .blocked := by
  by_cases htu : t = u
  · subst htu
    rw [show (c.setTask t task).tasks t = task from Function.update_self ..]
    exact hu rfl
  · rw [show (c.setTask u task).tasks t = c.tasks t from Function.update_of_ne htu _ _]
    exact h

omit [DecidableEq N] in
theorem next_none {e : SchedEvent N} (h : e.next = none) (u : N) : e.next ≠ some u := by
  rw [h]
  simp

/-- **One event** for a task that is blocked. -/
theorem SchedStep.blocked {e : SchedEvent N} (h : SchedStep pid q e q')
    (henabled : q.cpu.preemptEnabled = true) (ht : t ∈ q.tasks)
    (hblocked : (q.cpu.tasks t).state = .blocked) (hleaves : e.Leaves t) :
    e.next ≠ some t ∧ q'.cpu.preemptEnabled = true ∧ t ∈ q'.tasks ∧
      (q'.cpu.tasks t).state = .blocked := by
  have hlinks : ∀ {c : Cpu N}, c = q'.cpu → c.links = q.cpu.links →
      c.currentTask = q.cpu.currentTask → t ∈ q'.tasks := by
    intro c hc hl hcur
    subst hc
    rw [← RunQueue.mem_order, RunQueue.order_eq hl hcur]
    exact RunQueue.mem_order.mpr ht
  have hset : ∀ (u : N) (task : SchedTask), q.cpu.setTask u task = q'.cpu →
      (u = t → task.state = .blocked) → q'.cpu.preemptEnabled = true ∧ t ∈ q'.tasks ∧
        (q'.cpu.tasks t).state = .blocked := by
    intro u task hq' hu
    refine ⟨?_, hlinks hq' rfl rfl, ?_⟩
    · rw [← hq']
      exact henabled
    · rw [← hq']
      exact setTask_blocked hblocked hu
  cases h with
  | yield woken h =>
      obtain ⟨hne, hrest⟩ :=
        RunQueue.decision_blocked rfl rfl rfl q.cleanup henabled ht hblocked h
      exact ⟨fun heq => hne (Option.some.inj heq), hrest⟩
  | tick woken hran h =>
      rw [pitSchedIrq_tick hran, Option.some.injEq] at h
      refine ⟨next_none rfl t, ?_, hlinks h rfl rfl, ?_⟩
      · rw [← h]
        exact henabled
      · rw [← h]
        exact hblocked
  | slice woken hran h =>
      rw [pitSchedIrq_slice hran] at h
      obtain ⟨hne, hrest⟩ := RunQueue.decision_blocked (c := { q.cpu with
        pitTicks := q.cpu.pitTicks + 1
        timeRan := Function.update q.cpu.timeRan q.cpu.currentTask
          (q.cpu.timeRan q.cpu.currentTask + 1) }) rfl rfl rfl q.cleanup henabled ht hblocked h
      exact ⟨fun heq => hne (Option.some.inj heq), hrest⟩
  | signal h =>
      refine ⟨next_none rfl t, ?_, hlinks h rfl rfl, ?_⟩
      · rw [← h]
        exact henabled
      · rw [← h, rescheduleTo_other _ (Ne.symm hleaves)]
        exact hblocked
  | add u hnew hhead htail h =>
      have hmem : t ∈ q'.order := by
        have hturns : Turns q.order [.join u] q'.order :=
          .cons (schedAddRq_order hnew hhead htail h) (.nil _)
        refine (hturns.waits ?_ (RunQueue.mem_order.mpr ht)).1
        intro turn hturn
        rw [List.mem_singleton.mp hturn]
        exact fun heq : t = u => hnew (heq ▸ ht)
      refine ⟨next_none rfl t, ?_, RunQueue.mem_order.mp hmem, ?_⟩
      · rw [← h]
        exact henabled
      · rw [← h]
        exact hblocked
  | block u h => exact ⟨next_none rfl t, hset u _ h fun _ => rfl⟩
  | sleep u ticks h => exact ⟨next_none rfl t, hset u _ h fun heq => absurd heq hleaves⟩
  | kick u h => exact ⟨next_none rfl t, hset u _ h fun heq => absurd heq hleaves⟩
  | unblock u h =>
      rw [Cpu.taskUnblock] at h
      split at h
      · exact ⟨next_none rfl t, hset u _ (Option.some.inj h) fun heq => absurd heq hleaves⟩
      · cases h
  | exit woken h => exact hleaves.elim
  | fatal woken h => exact hleaves.elim

/-- **A blocked task does not run** before somebody wakes it or exits. -/
theorem sched_blocked_waits {es : List (SchedEvent N)} (hrun : SchedRun pid q es q')
    (henabled : q.cpu.preemptEnabled = true) (ht : t ∈ q.tasks)
    (hblocked : (q.cpu.tasks t).state = .blocked) (hleaves : ∀ e ∈ es, e.Leaves t) :
    (∀ e ∈ es, e.next ≠ some t) ∧ (q'.cpu.tasks t).state = .blocked := by
  induction hrun with
  | nil => exact ⟨by simp, hblocked⟩
  | cons hstep _ ih =>
      obtain ⟨hnext, h1, h2, h3⟩ :=
        hstep.blocked henabled ht hblocked (hleaves _ List.mem_cons_self)
      obtain ⟨hrest, hlast⟩ := ih h1 h2 h3 fun e he => hleaves e (List.mem_cons_of_mem _ he)
      refine ⟨fun e he => ?_, hlast⟩
      rcases List.mem_cons.mp he with rfl | he
      · exact hnext
      · exact hrest e he

end Scheduling

/-- Three tasks between the sentinels 0 and 1, of which the first one runs. -/
def threeQueue : RunQueue 0 1 where
  cpu :=
    { links := { next := fun n => if n = 0 then 2 else if n = 4 then 1 else n + 1
                 prev := fun n => if n = 2 then 0 else if n = 1 then 4 else n - 1 }
      tasks := fun n => if n = 2 then ⟨.running, 0⟩ else ⟨.preempted, 0⟩
      pitTicks := 10
      taskNeedCleanup := 0
      currentTask := 2
      timeRan := fun _ => 15
      preemptEnabled := true }
  before := []
  behind := [3, 4]
  chain := ⟨rfl, rfl, rfl, rfl, rfl, rfl, rfl, rfl⟩
  nodup := by decide
  tail_notMem := by decide
  alive := by decide
  slice := Nat.le_refl 15
  cleanup := rfl

/-- The same after a timer interrupt. -/
def threeQueueNext : RunQueue 0 1 where
  cpu := ((Cpu.pitSchedIrq (fun n => n) (fun _ => []) 0 1 4 threeQueue.cpu).getD threeQueue.cpu)
  before := [2]
  behind := [4]
  chain := ⟨rfl, rfl, rfl, rfl, rfl, rfl, rfl, rfl⟩
  nodup := by decide
  tail_notMem := by decide
  alive := by decide
  slice := by decide
  cleanup := rfl

def threeEvents : List (SchedEvent Nat) := [.tick (some 3)]

/-- The third task is blocked. -/
def blockedQueue : RunQueue 0 1 :=
  { threeQueue with
    cpu := Cpu.taskBlockNoresched threeQueue.cpu 4
    chain := threeQueue.chain
    nodup := by decide
    tail_notMem := by decide
    alive := by decide
    slice := Nat.le_refl 15
    cleanup := rfl }

def blockedQueueNext : RunQueue 0 1 where
  cpu := (Cpu.reschedule (fun n => n) (fun _ => []) 0 1 4 blockedQueue.cpu).getD blockedQueue.cpu
  before := [2]
  behind := [4]
  chain := ⟨rfl, rfl, rfl, rfl, rfl, rfl, rfl, rfl⟩
  nodup := by decide
  tail_notMem := by decide
  alive := by decide
  slice := by decide
  cleanup := rfl

theorem sched_blocked_waits_three :
    (∀ e ∈ ([.yield 3] : List (SchedEvent Nat)), e.next ≠ some 4) ∧
      (blockedQueueNext.cpu.tasks 4).state = .blocked :=
  have hstep : SchedStep (fun n => n) blockedQueue (.yield 3) blockedQueueNext :=
    @SchedStep.yield Nat _ 0 1 (fun n => n) blockedQueue blockedQueueNext (fun _ => []) rfl
  sched_blocked_waits (.cons hstep (.nil blockedQueueNext)) rfl (by decide) rfl
    (by simp [SchedEvent.Leaves])

end Levos.Kernel
