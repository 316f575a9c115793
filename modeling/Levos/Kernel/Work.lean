import Levos.Base.Run
import Levos.Base.Word

/-!
# The work queue (`kernel/work.c`)

Items of work wait in `work_list`, ordered by the tick they are for. The worker
thread takes the first one when its tick has passed and runs its callback,
which may put the item back by `work_reschedule`; an item that was not put back
is destroyed. `work_cancel` may be called for any item at any time.

What happens under `work_lock` is one step. The worker's turn is cut into the
pop, the prologue of `do_work` (`current_work = work` and the test and mark of
`WORK_FLAG_KILLED`) and its epilogue; a call of `work_reschedule` into its test
of `WORK_FLAG_CANCELLED` and the rest. Everything else may happen in between.
A step that needs the lock while it is held, or an item that was destroyed,
cannot be taken; inserting an item that is in the list would break the list,
and ends the run. The clearing of `WORK_FLAG_KILLED` in `work_reschedule` and
the insertion that follows are one step: a tick in between is the difference
between `early` and `ticks`, and a `work_cancel` in between does what it would
do just before.

`events` records what a run did. Every insertion into the list is a scheduling
of its own, with a number.

`work_queue_sound` is order, single execution and ownership, for the runs that
schedule only items that are neither queued nor in the worker's hands.
-/

namespace Levos.Kernel

open Levos.Base

/-! ## The state -/

/-- `struct work`, with its two flags in use. -/
structure WorkItem where
  workAt : Nat
  cancelled : Bool
  killed : Bool
deriving DecidableEq, Repr

/-- How far the running callback is with `work_reschedule`: not called, past
the test, refused with -1, returned with 0. -/
inductive Resched : Type where
  | fresh | checking | refused | done
deriving DecidableEq, Repr

/-- Where the worker thread is. -/
inductive Worker : Type where
  | idle
  | popped (w k : Nat)
  | running (w : Nat) (resched : Resched)
  | skipped (w : Nat)
deriving DecidableEq, Repr

/-- `scheduled k w workAt`: scheduling `k` puts `w` into the list.
`started k w tick`: the callback of `w` starts, for scheduling `k`.
`returned w rescheduled destroyed`: it has returned. `cancelled w`: a call of
`work_cancel` has returned. -/
inductive WorkEvent : Type where
  | scheduled (k w workAt : Nat)
  | started (k w tick : Nat)
  | returned (w : Nat) (rescheduled destroyed : Bool)
  | cancelled (w : Nat)
deriving DecidableEq, Repr

/-- `pending w` is the scheduling `w` is in the list for. -/
structure WorkQueue where
  ticks : Nat
  items : Nat → Option WorkItem
  created : Nat
  workList : List Nat
  workLock : Bool
  currentWork : Option Nat
  worker : Worker
  schedulings : Nat
  pending : Nat → Nat
  events : List WorkEvent

/-! ## The functions of the source -/

def setItem (s : WorkQueue) (w : Nat) (work : WorkItem) : WorkQueue :=
  { s with items := Function.update s.items w (some work) }

def logWork (s : WorkQueue) (e : WorkEvent) : WorkQueue := { s with events := s.events ++ [e] }

/-- The tick `w` is for. -/
def workAtOf (s : WorkQueue) (w : Nat) : Nat := ((s.items w).map WorkItem.workAt).getD 0

/-- `list_insert_ordered` with `work_less`. -/
def listInsertOrdered (workAt : Nat → Nat) (w : Nat) : List Nat → List Nat
  | [] => [w]
  | e :: es => if workAt w < workAt e then w :: e :: es else e :: listInsertOrdered workAt w es

/-- `work_create`. -/
def workCreate (s : WorkQueue) : WorkQueue :=
  { setItem s s.created { workAt := 0, cancelled := false, killed := false } with
    created := s.created + 1 }

/-- The insertion into the list, which is a scheduling. -/
def insertWork (s : WorkQueue) (w : Nat) : WorkQueue :=
  { s with
    workList := listInsertOrdered (workAtOf s) w s.workList
    schedulings := s.schedulings + 1
    pending := Function.update s.pending w s.schedulings
    events := s.events ++ [.scheduled s.schedulings w (workAtOf s w)] }

/-- `schedule_work`. The element of an item links it into one place only. -/
def scheduleWork (s : WorkQueue) (w : Nat) : Option WorkQueue :=
  if s.workLock ∨ w ∈ s.workList then none else some (insertWork s w)

/-- `schedule_work_at`; the second component is what it returns. -/
def scheduleWorkAt (s : WorkQueue) (w abs : Nat) : Option (WorkQueue × Int) :=
  (s.items w).bind fun work =>
    if abs < s.ticks then some (s, 1)
    else (scheduleWork (setItem s w { work with workAt := abs }) w).map fun s => (s, 0)

/-- `schedule_work_delay`; `early` is what its own call of `work_get_ticks`
returned. -/
def scheduleWorkDelay (s : WorkQueue) (w early delay : Nat) : Option (WorkQueue × Int) :=
  scheduleWorkAt s w (u32 (early + delay))

/-- `work_reschedule` up to its test, in the callback of `w`. -/
def workRescheduleTest (s : WorkQueue) (w : Nat) : Option WorkQueue :=
  (s.items w).map fun work =>
    { s with worker := .running w (if work.cancelled then .refused else .checking) }

/-- The rest of `work_reschedule`. What `schedule_work_delay` returns is not
looked at. -/
def workReschedule (s : WorkQueue) (w early delay : Nat) : Option WorkQueue :=
  (s.items w).bind fun work =>
    (scheduleWorkDelay (setItem s w { work with killed := false }) w early delay).map fun r =>
      { r.1 with worker := .running w .done }

/-- `work_cancel`; in the second case it returns with the lock held. -/
def workCancel (s : WorkQueue) (w : Nat) : Option WorkQueue :=
  if s.workLock then none
  else
    (s.items w).map fun work =>
      logWork
        (if s.currentWork = some w then setItem s w { work with cancelled := true }
         else if work.cancelled then { s with workLock := true }
         else setItem s w { work with killed := true })
        (.cancelled w)

/-- One round of `worker_thread`, up to the call of `do_work`. -/
def workerPop (s : WorkQueue) : Option WorkQueue :=
  if s.workLock then none
  else
    match s.workList with
    | [] => some s
    | w :: rest =>
        (s.items w).bind fun work =>
          if s.ticks ≤ work.workAt then some s
          else some { s with workList := rest, worker := .popped w (s.pending w) }

/-- The beginning of `do_work`. -/
def doWorkPrologue (s : WorkQueue) (w k : Nat) : Option WorkQueue :=
  (s.items w).map fun work =>
    if work.killed then { s with currentWork := some w, worker := .skipped w }
    else
      logWork { setItem s w { work with killed := true } with
        currentWork := some w, worker := .running w .fresh } (.started k w s.ticks)

/-- The end of `do_work`. -/
def doWorkEpilogue (s : WorkQueue) (w : Nat) : Option WorkQueue :=
  (s.items w).map fun work =>
    { s with
      currentWork := none
      items := if work.killed then Function.update s.items w none else s.items
      worker := .idle }

/-! ## The system -/

inductive WorkAct : Type where
  | create
  | scheduleAt (w abs : Nat)
  | scheduleDelay (w early delay : Nat)
  | cancel (w : Nat)
  | tick
  | pop
  | prologue
  | rescheduleTest
  | reschedule (early delay : Nat)
  | epilogue
deriving DecidableEq, Repr

def workStep (s : WorkQueue) : WorkAct → Option WorkQueue
  | .create => some (workCreate s)
  | .scheduleAt w abs => (scheduleWorkAt s w abs).map Prod.fst
  | .scheduleDelay w early delay => (scheduleWorkDelay s w early delay).map Prod.fst
  | .cancel w => workCancel s w
  | .tick => some { s with ticks := u32 (s.ticks + 1) }
  | .pop =>
      match s.worker with
      | .idle => workerPop s
      | _ => none
  | .prologue =>
      match s.worker with
      | .popped w k => doWorkPrologue s w k
      | _ => none
  | .rescheduleTest =>
      match s.worker with
      | .running _ .checking => none
      | .running w _ => workRescheduleTest s w
      | _ => none
  | .reschedule early delay =>
      match s.worker with
      | .running w .checking => workReschedule s w early delay
      | _ => none
  | .epilogue =>
      match s.worker with
      | .running _ .checking => none
      | .running w resched =>
          (doWorkEpilogue s w).map fun s' =>
            logWork s' (.returned w (decide (resched = .done)) (s'.items w).isNone)
      | .skipped w => doWorkEpilogue s w
      | _ => none

/-- What one action can do, with the state of the worker it needs. -/
inductive WorkStepped (s : WorkQueue) : WorkAct → WorkQueue → Prop where
  | create : WorkStepped s .create (workCreate s)
  | scheduleAt {w abs : Nat} {r : WorkQueue × Int} (h : scheduleWorkAt s w abs = some r) :
      WorkStepped s (.scheduleAt w abs) r.1
  | scheduleDelay {w early delay : Nat} {r : WorkQueue × Int}
      (h : scheduleWorkDelay s w early delay = some r) :
      WorkStepped s (.scheduleDelay w early delay) r.1
  | cancel {w : Nat} {t : WorkQueue} (h : workCancel s w = some t) : WorkStepped s (.cancel w) t
  | tick : WorkStepped s .tick { s with ticks := u32 (s.ticks + 1) }
  | pop {t : WorkQueue} (hidle : s.worker = .idle) (h : workerPop s = some t) :
      WorkStepped s .pop t
  | prologue {w k : Nat} {t : WorkQueue} (hpopped : s.worker = .popped w k)
      (h : doWorkPrologue s w k = some t) : WorkStepped s .prologue t
  | rescheduleTest {w : Nat} {resched : Resched} {t : WorkQueue}
      (hrun : s.worker = .running w resched) (h : workRescheduleTest s w = some t) :
      WorkStepped s .rescheduleTest t
  | reschedule {w early delay : Nat} {t : WorkQueue} (hrun : s.worker = .running w .checking)
      (h : workReschedule s w early delay = some t) : WorkStepped s (.reschedule early delay) t
  | returned {w : Nat} {resched : Resched} {t : WorkQueue}
      (hrun : s.worker = .running w resched) (h : doWorkEpilogue s w = some t) :
      WorkStepped s .epilogue
        (logWork t (.returned w (decide (resched = .done)) (t.items w).isNone))
  | skipped {w : Nat} {t : WorkQueue} (hskip : s.worker = .skipped w)
      (h : doWorkEpilogue s w = some t) : WorkStepped s .epilogue t

theorem workStep_some {s t : WorkQueue} {a : WorkAct} (hs : workStep s a = some t) :
    WorkStepped s a t := by
  cases a with
  | create => exact Option.some.inj hs ▸ .create
  | scheduleAt w abs =>
      obtain ⟨r, h, rfl⟩ := Option.map_eq_some_iff.mp hs
      exact .scheduleAt h
  | scheduleDelay w early delay =>
      obtain ⟨r, h, rfl⟩ := Option.map_eq_some_iff.mp hs
      exact .scheduleDelay h
  | cancel w => exact .cancel hs
  | tick => exact Option.some.inj hs ▸ .tick
  | pop =>
      simp only [workStep] at hs
      split at hs
      · next hidle => exact .pop hidle hs
      · cases hs
  | prologue =>
      simp only [workStep] at hs
      split at hs
      · next hpopped => exact .prologue hpopped hs
      · cases hs
  | rescheduleTest =>
      simp only [workStep] at hs
      split at hs
      · cases hs
      · next hrun => exact .rescheduleTest hrun hs
      · cases hs
  | reschedule early delay =>
      simp only [workStep] at hs
      split at hs
      · next hrun => exact .reschedule hrun hs
      · cases hs
  | epilogue =>
      simp only [workStep] at hs
      split at hs
      · cases hs
      · next hrun =>
          obtain ⟨s', h, rfl⟩ := Option.map_eq_some_iff.mp hs
          exact .returned hrun h
      · next hskip => exact .skipped hskip hs
      · cases hs

/-- `work_init`: nothing is created, the list is empty and the lock free. -/
def workInit (ticks : Nat) : WorkQueue where
  ticks := ticks
  items := fun _ => none
  created := 0
  workList := []
  workLock := false
  currentWork := none
  worker := .idle
  schedulings := 0
  pending := fun _ => 0
  events := []

/-! ## Ordered insertion -/

theorem listInsertOrdered_perm (workAt : Nat → Nat) (w : Nat) (es : List Nat) :
    (listInsertOrdered workAt w es).Perm (w :: es) := by
  induction es with
  | nil => exact List.Perm.refl _
  | cons e es ih =>
      rw [listInsertOrdered]
      split
      · exact List.Perm.refl _
      · exact (ih.cons e).trans (List.Perm.swap w e es)

/-- The list stays ordered; `work_less` is strict, so the new item comes after
those for the same tick. -/
theorem listInsertOrdered_sorted {workAt : Nat → Nat} {w : Nat} {es : List Nat}
    (h : es.Pairwise fun a b => workAt a ≤ workAt b) :
    (listInsertOrdered workAt w es).Pairwise fun a b => workAt a ≤ workAt b := by
  induction es with
  | nil => exact List.pairwise_singleton _ _
  | cons e es ih =>
      obtain ⟨hfirst, hrest⟩ := List.pairwise_cons.mp h
      rw [listInsertOrdered]
      split
      · next hlt =>
          refine List.pairwise_cons.mpr ⟨fun a ha => ?_, h⟩
          rcases List.mem_cons.mp ha with rfl | ha
          · exact hlt.le
          · exact hlt.le.trans (hfirst a ha)
      · next hge =>
          refine List.pairwise_cons.mpr ⟨fun a ha => ?_, ih hrest⟩
          rcases List.mem_cons.mp ((listInsertOrdered_perm workAt w es).mem_iff.mp ha) with
            rfl | ha
          · exact not_lt.mp hge
          · exact hfirst a ha

/-! ## What a run did -/

/-- `e` starts scheduling `k`. -/
def WorkEvent.starts (k : Nat) : WorkEvent → Bool
  | .started k' _ _ => k' = k
  | _ => false

/-- The record of a run that makes `n` schedulings: each is made once, started
at most once and after its tick, and a callback that returns leaves its item
destroyed unless `work_reschedule` returned 0 to it. -/
structure SoundLog (n : Nat) (events : List WorkEvent) : Prop where
  numbered : ∀ k w workAt, .scheduled k w workAt ∈ events → k < n
  one : ∀ k w workAt w' workAt', .scheduled k w workAt ∈ events →
    .scheduled k w' workAt' ∈ events → w = w' ∧ workAt = workAt'
  once : events.Pairwise fun e e' => ∀ k, e.starts k = true → e'.starts k = false
  late : ∀ k w tick, .started k w tick ∈ events →
    ∃ workAt, .scheduled k w workAt ∈ events ∧ workAt < tick
  returns : ∀ w rescheduled destroyed, .returned w rescheduled destroyed ∈ events →
    (destroyed = true ↔ rescheduled = false)

/-- No event starts `k`. -/
def Unstarted (events : List WorkEvent) (k : Nat) : Prop := ∀ e ∈ events, e.starts k = false

theorem soundLog_nil : SoundLog 0 [] :=
  ⟨by simp, by simp, List.Pairwise.nil, by simp, by simp⟩

theorem once_append {events : List WorkEvent} {e : WorkEvent}
    (h : events.Pairwise fun e e' => ∀ k, e.starts k = true → e'.starts k = false)
    (hnew : ∀ k, e.starts k = true → Unstarted events k) :
    (events ++ [e]).Pairwise fun e e' => ∀ k, e.starts k = true → e'.starts k = false := by
  refine List.pairwise_append.mpr ⟨h, List.pairwise_singleton _ _, ?_⟩
  intro a ha b hb k hk
  obtain rfl := List.mem_singleton.mp hb
  cases hstarts : b.starts k with
  | false => rfl
  | true => exact absurd (hnew k hstarts a ha) (by rw [hk]; decide)

theorem Unstarted.append {events : List WorkEvent} {e : WorkEvent} {k : Nat}
    (h : Unstarted events k) (he : e.starts k = false) : Unstarted (events ++ [e]) k := by
  intro a ha
  rcases List.mem_append.mp ha with ha | ha
  · exact h a ha
  · exact List.mem_singleton.mp ha ▸ he

/-- A number that was not given out has not been started. -/
theorem SoundLog.unstarted {n k : Nat} {events : List WorkEvent} (h : SoundLog n events) (hk : n ≤ k) :
    Unstarted events k := by
  intro e he
  cases e with
  | started k' w tick =>
      obtain ⟨workAt, hmem, -⟩ := h.late k' w tick he
      have := h.numbered k' w workAt hmem
      simp only [WorkEvent.starts, decide_eq_false_iff_not]
      omega
  | _ => rfl

theorem SoundLog.scheduled {n w workAt : Nat} {events : List WorkEvent} (h : SoundLog n events) :
    SoundLog (n + 1) (events ++ [.scheduled n w workAt]) := by
  constructor
  case numbered =>
    intro k w' workAt' hmem
    rcases List.mem_append.mp hmem with hmem | hmem
    · exact (h.numbered k w' workAt' hmem).trans (Nat.lt_succ_self n)
    · cases List.mem_singleton.mp hmem
      exact Nat.lt_succ_self n
  case one =>
    intro k w₁ at₁ w₂ at₂ h₁ h₂
    rcases List.mem_append.mp h₁ with h₁ | h₁ <;> rcases List.mem_append.mp h₂ with h₂ | h₂
    · exact h.one k w₁ at₁ w₂ at₂ h₁ h₂
    · cases List.mem_singleton.mp h₂
      exact absurd (h.numbered _ _ _ h₁) (lt_irrefl n)
    · cases List.mem_singleton.mp h₁
      exact absurd (h.numbered _ _ _ h₂) (lt_irrefl n)
    · cases List.mem_singleton.mp h₁
      cases List.mem_singleton.mp h₂
      exact ⟨rfl, rfl⟩
  case once => exact once_append h.once fun k hk => nomatch hk
  case late =>
    intro k w' tick hmem
    rcases List.mem_append.mp hmem with hmem | hmem
    · obtain ⟨a, ha, hlt⟩ := h.late k w' tick hmem
      exact ⟨a, List.mem_append_left _ ha, hlt⟩
    · cases List.mem_singleton.mp hmem
  case returns =>
    intro w' r d hmem
    rcases List.mem_append.mp hmem with hmem | hmem
    · exact h.returns w' r d hmem
    · cases List.mem_singleton.mp hmem

/-- An event that is no scheduling. -/
theorem SoundLog.append {n : Nat} {events : List WorkEvent} {e : WorkEvent} (h : SoundLog n events)
    (hsched : ∀ k w workAt, e ≠ .scheduled k w workAt)
    (hstart : ∀ k w tick, e = .started k w tick →
      Unstarted events k ∧ ∃ workAt, .scheduled k w workAt ∈ events ∧ workAt < tick)
    (hret : ∀ w r d, e = .returned w r d → (d = true ↔ r = false)) :
    SoundLog n (events ++ [e]) := by
  have hold : ∀ {k w workAt}, .scheduled k w workAt ∈ events ++ [e] →
      .scheduled k w workAt ∈ events := by
    intro k w workAt hmem
    rcases List.mem_append.mp hmem with hmem | hmem
    · exact hmem
    · exact absurd (List.mem_singleton.mp hmem).symm (hsched k w workAt)
  constructor
  case numbered => exact fun k w workAt hmem => h.numbered k w workAt (hold hmem)
  case one => exact fun k w₁ at₁ w₂ at₂ h₁ h₂ => h.one k w₁ at₁ w₂ at₂ (hold h₁) (hold h₂)
  case once =>
    refine once_append h.once fun k hk => ?_
    cases e with
    | started k' w tick =>
        obtain rfl : k' = k := of_decide_eq_true hk
        exact (hstart k' w tick rfl).1
    | _ => nomatch hk
  case late =>
    intro k w tick hmem
    have hsome : ∃ workAt, .scheduled k w workAt ∈ events ∧ workAt < tick := by
      rcases List.mem_append.mp hmem with hmem | hmem
      · exact h.late k w tick hmem
      · exact (hstart k w tick (List.mem_singleton.mp hmem).symm).2
    obtain ⟨a, ha, hlt⟩ := hsome
    exact ⟨a, List.mem_append_left _ ha, hlt⟩
  case returns =>
    intro w r d hmem
    rcases List.mem_append.mp hmem with hmem | hmem
    · exact h.returns w r d hmem
    · exact hret w r d (List.mem_singleton.mp hmem).symm

/-! ## The list -/

/-- Item `w` is there, for scheduling `k`, which has not been started. -/
def Owed (s : WorkQueue) (w k : Nat) : Prop :=
  ∃ work, s.items w = some work ∧ .scheduled k w work.workAt ∈ s.events ∧ Unstarted s.events k

structure ListInv (s : WorkQueue) : Prop where
  fresh : ∀ w, s.items w ≠ none → w < s.created
  nodup : s.workList.Nodup
  sorted : s.workList.Pairwise fun a b => workAtOf s a ≤ workAtOf s b
  listed : ∀ w ∈ s.workList, Owed s w (s.pending w)
  log : SoundLog s.schedulings s.events

@[simp] theorem setItem_workList (s : WorkQueue) (w : Nat) (work : WorkItem) :
    (setItem s w work).workList = s.workList := rfl
@[simp] theorem setItem_workLock (s : WorkQueue) (w : Nat) (work : WorkItem) :
    (setItem s w work).workLock = s.workLock := rfl
@[simp] theorem setItem_self (s : WorkQueue) (w : Nat) (work : WorkItem) :
    (setItem s w work).items w = some work := Function.update_self w _ s.items

theorem setItem_of_ne {s : WorkQueue} {v w : Nat} {work : WorkItem} (h : v ≠ w) :
    (setItem s w work).items v = s.items v := Function.update_of_ne h _ _

theorem workAtOf_eq {s : WorkQueue} {w : Nat} {work : WorkItem} (h : s.items w = some work) :
    workAtOf s w = work.workAt := by
  rw [workAtOf, h]
  rfl

/-- The order of the list, when the listed items keep their ticks. -/
theorem sorted_of_eq {s t : WorkQueue} (hlist : t.workList = s.workList)
    (hat : ∀ w ∈ s.workList, workAtOf t w = workAtOf s w)
    (h : s.workList.Pairwise fun a b => workAtOf s a ≤ workAtOf s b) :
    t.workList.Pairwise fun a b => workAtOf t a ≤ workAtOf t b := by
  rw [hlist]
  refine h.imp_of_mem fun {a b} ha hb hab => ?_
  rw [hat a ha, hat b hb]
  exact hab

theorem ListInv.exists_item {s : WorkQueue} (h : ListInv s) {w : Nat} (hw : w ∈ s.workList) :
    ∃ work, s.items w = some work := by
  obtain ⟨work, hwork, -⟩ := h.listed w hw
  exact ⟨work, hwork⟩

/-- Writing an item that is not in the list. -/
theorem ListInv.setItem_unlisted {s : WorkQueue} (h : ListInv s) {w : Nat} {work : WorkItem}
    (hnew : w < s.created) (hw : w ∉ s.workList) : ListInv (setItem s w work) := by
  have hother : ∀ v ∈ s.workList, (setItem s w work).items v = s.items v := by
    intro v hv
    exact setItem_of_ne (ne_of_mem_of_not_mem hv hw)
  constructor
  case fresh =>
    intro v hv
    by_cases hvw : v = w
    · exact hvw ▸ hnew
    · refine h.fresh v ?_
      rwa [setItem_of_ne hvw] at hv
  case nodup => exact h.nodup
  case sorted =>
    refine sorted_of_eq (s := s) rfl (fun v hv => ?_) h.sorted
    rw [workAtOf, hother v hv, workAtOf]
  case listed =>
    intro v hv
    obtain ⟨work', hwork', hrest⟩ := h.listed v hv
    exact ⟨work', (hother v hv).trans hwork', hrest⟩
  case log => exact h.log

/-- Writing the flags of an item. -/
theorem ListInv.setItem_flags {s : WorkQueue} (h : ListInv s) {w : Nat} {old : WorkItem}
    (work : WorkItem) (hold : s.items w = some old) (hat : work.workAt = old.workAt) :
    ListInv (setItem s w work) := by
  have hsame : ∀ v, workAtOf (setItem s w work) v = workAtOf s v := by
    intro v
    by_cases hvw : v = w
    · subst hvw
      rw [workAtOf_eq hold, ← hat]
      exact workAtOf_eq (setItem_self s v work)
    · rw [workAtOf, setItem_of_ne hvw, workAtOf]
  constructor
  case fresh =>
    intro v hv
    by_cases hvw : v = w
    · exact h.fresh v (by rw [hvw, hold]; exact Option.some_ne_none _)
    · refine h.fresh v ?_
      rwa [setItem_of_ne hvw] at hv
  case nodup => exact h.nodup
  case sorted => exact sorted_of_eq (s := s) rfl (fun v _ => hsame v) h.sorted
  case listed =>
    intro v hv
    obtain ⟨work', hwork', hsched, huns⟩ := h.listed v hv
    by_cases hvw : v = w
    · subst hvw
      obtain rfl : old = work' := Option.some.inj (hold.symm.trans hwork')
      exact ⟨work, setItem_self s v work, hat ▸ hsched, huns⟩
    · exact ⟨work', (setItem_of_ne hvw).trans hwork', hsched, huns⟩
  case log => exact h.log

theorem scheduleWork_some {s t : WorkQueue} {w : Nat} (h : scheduleWork s w = some t) :
    s.workLock = false ∧ w ∉ s.workList ∧ t = insertWork s w := by
  rw [scheduleWork] at h
  split at h
  · cases h
  · next hnot =>
      obtain ⟨hlock, hw⟩ := not_or.mp hnot
      exact ⟨Bool.eq_false_iff.mpr hlock, hw, (Option.some.inj h).symm⟩

theorem mem_insertWork {s : WorkQueue} {v w : Nat} :
    v ∈ (insertWork s w).workList ↔ v = w ∨ v ∈ s.workList :=
  (listInsertOrdered_perm (workAtOf s) w s.workList).mem_iff.trans List.mem_cons

theorem insertWork_pending_self (s : WorkQueue) (w : Nat) :
    (insertWork s w).pending w = s.schedulings := Function.update_self w _ s.pending

theorem insertWork_pending_of_ne {s : WorkQueue} {v w : Nat} (h : v ≠ w) :
    (insertWork s w).pending v = s.pending v := Function.update_of_ne h _ _

/-- The insertion of an item. -/
theorem ListInv.insertWork {s : WorkQueue} (h : ListInv s) {w : Nat} {work : WorkItem}
    (hw : s.items w = some work) (hunlisted : w ∉ s.workList) : ListInv (insertWork s w) := by
  constructor
  case fresh => exact h.fresh
  case nodup =>
    exact (listInsertOrdered_perm (workAtOf s) w s.workList).nodup_iff.mpr
      (List.nodup_cons.mpr ⟨hunlisted, h.nodup⟩)
  case sorted => exact listInsertOrdered_sorted h.sorted
  case listed =>
    intro v hv
    rcases mem_insertWork.mp hv with rfl | hv
    · rw [insertWork_pending_self]
      refine ⟨work, hw, ?_, (h.log.unstarted le_rfl).append rfl⟩
      simp [Kernel.insertWork, workAtOf_eq hw]
    · obtain ⟨work', hwork', hsched, huns⟩ := h.listed v hv
      rw [insertWork_pending_of_ne (ne_of_mem_of_not_mem hv hunlisted)]
      exact ⟨work', hwork', List.mem_append_left _ hsched, huns.append rfl⟩
  case log => exact h.log.scheduled

/-- A step that leaves the items, and the schedulings still owed, as they are. -/
theorem ListInv.log_append {s : WorkQueue} (h : ListInv s) {e : WorkEvent}
    (hlog : SoundLog s.schedulings (s.events ++ [e]))
    (howed : ∀ w ∈ s.workList, e.starts (s.pending w) = false) : ListInv (logWork s e) := by
  constructor
  case fresh => exact h.fresh
  case nodup => exact h.nodup
  case sorted => exact h.sorted
  case listed =>
    intro v hv
    obtain ⟨work', hwork', hsched, huns⟩ := h.listed v hv
    exact ⟨work', hwork', List.mem_append_left _ hsched, huns.append (howed v hv)⟩
  case log => exact hlog

/-- Setting the tick of an item that is not in the list, and its insertion. -/
theorem ListInv.place {s : WorkQueue} (h : ListInv s) {w : Nat} (work : WorkItem)
    (hnew : w < s.created) (hw : w ∉ s.workList) :
    ListInv (Kernel.insertWork (setItem s w work) w) :=
  (h.setItem_unlisted hnew hw).insertWork (setItem_self s w work) hw

theorem ListInv.workCreate {s : WorkQueue} (h : ListInv s) : ListInv (workCreate s) := by
  have hgrown : ListInv { s with created := s.created + 1 } :=
    ⟨fun w hw => (h.fresh w hw).trans (Nat.lt_succ_self _), h.nodup, h.sorted, h.listed, h.log⟩
  refine hgrown.setItem_unlisted (Nat.lt_succ_self _) fun hmem => ?_
  obtain ⟨work, hwork⟩ := h.exists_item hmem
  exact absurd (h.fresh _ (by rw [hwork]; exact Option.some_ne_none _)) (lt_irrefl _)

/-- An item outside the list goes. -/
theorem ListInv.destroy {s : WorkQueue} (h : ListInv s) {w : Nat} (hw : w ∉ s.workList) :
    ListInv { s with items := Function.update s.items w none } := by
  have hother : ∀ v ∈ s.workList, Function.update s.items w none v = s.items v := fun v hv =>
    Function.update_of_ne (ne_of_mem_of_not_mem hv hw) _ _
  constructor
  case fresh =>
    intro v (hv : Function.update s.items w none v ≠ none)
    by_cases hvw : v = w
    · rw [hvw, Function.update_self] at hv
      exact absurd rfl hv
    · exact h.fresh v (by rwa [Function.update_of_ne hvw] at hv)
  case nodup => exact h.nodup
  case sorted =>
    refine sorted_of_eq (s := s) rfl (fun v hv => ?_) h.sorted
    simp only [workAtOf, hother v hv]
  case listed =>
    intro v hv
    obtain ⟨work', hwork', hrest⟩ := h.listed v hv
    exact ⟨work', (hother v hv).trans hwork', hrest⟩
  case log => exact h.log

theorem ListInv.pop {s : WorkQueue} (h : ListInv s) {w : Nat} {rest : List Nat}
    (hlist : s.workList = w :: rest) : ListInv { s with workList := rest } := by
  have hnodup := h.nodup
  have hsorted := h.sorted
  rw [hlist] at hnodup hsorted
  exact ⟨h.fresh, (List.nodup_cons.mp hnodup).2, (List.pairwise_cons.mp hsorted).2,
    fun v hv => h.listed v (hlist ▸ List.mem_cons_of_mem w hv), h.log⟩

/-! ## The worker -/

/-- The item in the worker's hands. -/
def Worker.hand : Worker → Option Nat
  | .idle => none
  | .popped w _ | .running w _ | .skipped w => some w

/-- What the worker relies on. While a callback runs its item is marked killed
unless it was rescheduled, and only then may it be in the list. -/
def PhaseInv (s : WorkQueue) : Prop :=
  match s.worker with
  | .idle => s.currentWork = none
  | .popped w k =>
      s.currentWork = none ∧ w ∉ s.workList ∧ Owed s w k ∧ workAtOf s w < s.ticks
  | .running w resched =>
      s.currentWork = some w ∧ (w ∈ s.workList → resched = .done) ∧
        ∃ work, s.items w = some work ∧ (work.killed = true ↔ resched ≠ .done)
  | .skipped w =>
      s.currentWork = some w ∧ w ∉ s.workList ∧
        ∃ work, s.items w = some work ∧ work.killed = true

/-- A step beside the worker: it stays where it is, and its item, unless it is
cancelled before its callback is looked at, keeps its mark. -/
theorem PhaseInv.frame {s t : WorkQueue} (h : PhaseInv s) (hworker : t.worker = s.worker)
    (hcurrent : t.currentWork = s.currentWork) (hticks : s.ticks ≤ t.ticks)
    (hlist : ∀ w, s.worker.hand = some w → (w ∈ t.workList ↔ w ∈ s.workList))
    (hitems : ∀ w work, s.worker.hand = some w → s.items w = some work →
      ∃ work', t.items w = some work' ∧ work'.workAt = work.workAt ∧
        (s.currentWork = some w → work'.killed = work.killed))
    {new : List WorkEvent} (hevents : t.events = s.events ++ new)
    (hnew : ∀ e ∈ new, ∀ k, e.starts k = false) : PhaseInv t := by
  rw [PhaseInv, hworker, hcurrent]
  rw [PhaseInv] at h
  cases hcase : s.worker with
  | idle => simpa only [hcase] using h
  | popped w k =>
      simp only [hcase] at h hlist hitems ⊢
      obtain ⟨hcur, hout, ⟨work, hwork, hsched, huns⟩, hlate⟩ := h
      obtain ⟨work', hwork', hat, -⟩ := hitems w work rfl hwork
      refine ⟨hcur, fun hmem => hout ((hlist w rfl).mp hmem), ⟨work', hwork', ?_, ?_⟩, ?_⟩
      · rw [hat, hevents]
        exact List.mem_append_left _ hsched
      · intro e he
        rw [hevents] at he
        exact (List.mem_append.mp he).elim (huns e) fun he => hnew e he k
      · rw [workAtOf_eq hwork', hat, ← workAtOf_eq hwork]
        exact hlate.trans_le hticks
  | running w resched =>
      simp only [hcase] at h hlist hitems ⊢
      obtain ⟨hcur, hin, work, hwork, hkilled⟩ := h
      obtain ⟨work', hwork', -, hkept⟩ := hitems w work rfl hwork
      refine ⟨hcur, fun hmem => hin ((hlist w rfl).mp hmem), work', hwork', ?_⟩
      rw [hkept hcur]
      exact hkilled
  | skipped w =>
      simp only [hcase] at h hlist hitems ⊢
      obtain ⟨hcur, hout, work, hwork, hkilled⟩ := h
      obtain ⟨work', hwork', -, hkept⟩ := hitems w work rfl hwork
      exact ⟨hcur, fun hmem => hout ((hlist w rfl).mp hmem), work', hwork',
        (hkept hcur).trans hkilled⟩

structure QueueInv (s : WorkQueue) : Prop where
  list : ListInv s
  phase : PhaseInv s

/-! ## The steps -/

theorem scheduleWorkAt_some {s t : WorkQueue} {w abs : Nat} {r : Int}
    (h : scheduleWorkAt s w abs = some (t, r)) :
    ∃ work, s.items w = some work ∧
      (t = s ∨ s.workLock = false ∧ w ∉ s.workList ∧
        t = insertWork (setItem s w { work with workAt := abs }) w) := by
  obtain ⟨work, hwork, h⟩ := Option.bind_eq_some_iff.mp h
  refine ⟨work, hwork, ?_⟩
  split at h
  · cases h
    exact Or.inl rfl
  · obtain ⟨s', hs', heq⟩ := Option.map_eq_some_iff.mp h
    cases heq
    exact Or.inr (scheduleWork_some hs')

theorem workCancel_some {s t : WorkQueue} {w : Nat} (h : workCancel s w = some t) :
    ∃ work, s.items w = some work ∧ s.workLock = false ∧
      ((s.currentWork = some w ∧
          t = logWork (setItem s w { work with cancelled := true }) (.cancelled w)) ∨
        (s.currentWork ≠ some w ∧ work.cancelled = true ∧
          t = logWork { s with workLock := true } (.cancelled w)) ∨
        (s.currentWork ≠ some w ∧ work.cancelled = false ∧
          t = logWork (setItem s w { work with killed := true }) (.cancelled w))) := by
  rw [workCancel] at h
  split at h
  · cases h
  · next hlock =>
      obtain ⟨work, hwork, rfl⟩ := Option.map_eq_some_iff.mp h
      refine ⟨work, hwork, Bool.eq_false_iff.mpr hlock, ?_⟩
      by_cases hcur : s.currentWork = some w
      · exact Or.inl ⟨hcur, by rw [if_pos hcur]⟩
      · rw [if_neg hcur]
        cases hflag : work.cancelled with
        | true => exact Or.inr (Or.inl ⟨hcur, rfl, rfl⟩)
        | false => exact Or.inr (Or.inr ⟨hcur, rfl, rfl⟩)

theorem workerPop_some {s t : WorkQueue} (h : workerPop s = some t) :
    t = s ∨ ∃ w rest work, s.workList = w :: rest ∧ s.items w = some work ∧
      work.workAt < s.ticks ∧
      t = { s with workList := rest, worker := .popped w (s.pending w) } := by
  rw [workerPop] at h
  split at h
  · cases h
  · split at h
    · exact Or.inl (Option.some.inj h).symm
    · next w rest hlist =>
        obtain ⟨work, hwork, h⟩ := Option.bind_eq_some_iff.mp h
        split at h
        · exact Or.inl (Option.some.inj h).symm
        · next hlate =>
            exact Or.inr ⟨w, rest, work, hlist, hwork, not_le.mp hlate, (Option.some.inj h).symm⟩

theorem workReschedule_some {s t : WorkQueue} {w early delay : Nat}
    (h : workReschedule s w early delay = some t) :
    ∃ work, s.items w = some work ∧
      (t = { setItem s w { work with killed := false } with worker := .running w .done } ∨
        w ∉ s.workList ∧
        t = { insertWork (setItem s w { work with
                workAt := u32 (early + delay), killed := false }) w with
              worker := .running w .done }) := by
  obtain ⟨work, hwork, h⟩ := Option.bind_eq_some_iff.mp h
  obtain ⟨⟨s', r⟩, hs', rfl⟩ := Option.map_eq_some_iff.mp h
  obtain ⟨work', hwork', hcase⟩ := scheduleWorkAt_some hs'
  rw [setItem_self] at hwork'
  obtain rfl := Option.some.inj hwork'
  refine ⟨work, hwork, ?_⟩
  rcases hcase with rfl | ⟨-, hw, rfl⟩
  · exact Or.inl rfl
  · refine Or.inr ⟨hw, ?_⟩
    simp only [setItem, Function.update_idem]

/-- Only a callback that has not called `work_reschedule` may call it. -/
def Worker.mayReschedule : Worker → Bool
  | .running _ resched => resched = .fresh
  | _ => true

/-- What the callers promise: an item is scheduled only while it is
neither queued nor in the worker's hands, a callback calls `work_reschedule` at
most once, and the tick counter does not overflow. -/
def ProperUse (s : WorkQueue) : WorkAct → Prop
  | .scheduleAt w _ | .scheduleDelay w _ _ => w ∉ s.workList ∧ s.worker.hand ≠ some w
  | .tick => s.ticks + 1 < 2 ^ 32
  | .rescheduleTest => s.worker.mayReschedule = true
  | _ => True

instance (s : WorkQueue) : ∀ a, Decidable (ProperUse s a)
  | .scheduleAt w _ | .scheduleDelay w _ _ =>
      inferInstanceAs (Decidable (w ∉ s.workList ∧ s.worker.hand ≠ some w))
  | .tick => inferInstanceAs (Decidable (s.ticks + 1 < 2 ^ 32))
  | .rescheduleTest => inferInstanceAs (Decidable (s.worker.mayReschedule = true))
  | .create | .cancel _ | .pop | .prologue | .reschedule _ _ | .epilogue => isTrue trivial

theorem QueueInv.scheduleWorkAt {s t : WorkQueue} {w abs : Nat} {r : Int} (h : QueueInv s)
    (hhand : s.worker.hand ≠ some w) (hs : Kernel.scheduleWorkAt s w abs = some (t, r)) :
    QueueInv t := by
  obtain ⟨work, hwork, rfl | ⟨-, hw, rfl⟩⟩ := scheduleWorkAt_some hs
  · exact h
  · have hnew : w < s.created := h.list.fresh w (by rw [hwork]; exact Option.some_ne_none _)
    refine ⟨h.list.place _ hnew hw, ?_⟩
    have hne : ∀ v, s.worker.hand = some v → v ≠ w := fun v hv e => hhand (e ▸ hv)
    refine h.phase.frame rfl rfl le_rfl ?_ ?_ rfl ?_
    · intro v hv
      rw [mem_insertWork, setItem_workList]
      exact or_iff_right (hne v hv)
    · intro v work' hv hwork'
      exact ⟨work', (setItem_of_ne (hne v hv)).trans hwork', rfl, fun _ => rfl⟩
    · intro e he k
      rw [List.mem_singleton.mp he]
      rfl

theorem QueueInv.workCancel {s t : WorkQueue} {w : Nat} (h : QueueInv s)
    (hs : Kernel.workCancel s w = some t) : QueueInv t := by
  obtain ⟨work, hwork, -, hcase⟩ := workCancel_some hs
  have hlog : SoundLog s.schedulings (s.events ++ [.cancelled w]) :=
    h.list.log.append (by simp) (by simp) (by simp)
  have hnostart : ∀ e ∈ [WorkEvent.cancelled w], ∀ k, e.starts k = false := by
    intro e he k
    rw [List.mem_singleton.mp he]
    rfl
  -- an item whose flags are written, its mark only when it is not current
  have hset : ∀ work', work'.workAt = work.workAt →
      (s.currentWork = some w → work'.killed = work.killed) →
      QueueInv (logWork (setItem s w work') (.cancelled w)) := by
    intro work' hat hmark
    refine ⟨(h.list.setItem_flags work' hwork hat).log_append hlog fun _ _ => rfl, ?_⟩
    refine h.phase.frame rfl rfl le_rfl (fun _ _ => Iff.rfl) ?_ rfl hnostart
    intro v work'' hv hwork''
    by_cases hvw : v = w
    · subst hvw
      obtain rfl := Option.some.inj (hwork.symm.trans hwork'')
      exact ⟨work', setItem_self s v work', hat, hmark⟩
    · exact ⟨work'', (setItem_of_ne hvw).trans hwork'', rfl, fun _ => rfl⟩
  rcases hcase with ⟨-, rfl⟩ | ⟨-, -, rfl⟩ | ⟨hcur, -, rfl⟩
  · exact hset _ rfl fun _ => rfl
  · have hlist : ListInv { s with workLock := true } :=
      ⟨h.list.fresh, h.list.nodup, h.list.sorted, h.list.listed, h.list.log⟩
    refine ⟨hlist.log_append hlog fun _ _ => rfl, ?_⟩
    exact h.phase.frame rfl rfl le_rfl (fun _ _ => Iff.rfl)
      (fun _ work' _ hwork' => ⟨work', hwork', rfl, fun _ => rfl⟩) rfl hnostart
  · exact hset _ rfl fun e => absurd e hcur

theorem QueueInv.workCreate {s : WorkQueue} (h : QueueInv s) : QueueInv (workCreate s) := by
  refine ⟨h.list.workCreate, ?_⟩
  refine h.phase.frame rfl rfl le_rfl (fun _ _ => Iff.rfl) ?_ (List.append_nil _).symm
    (fun e he => absurd he List.not_mem_nil)
  intro v work _ hwork
  have hne : v ≠ s.created :=
    (h.list.fresh v (by rw [hwork]; exact Option.some_ne_none _)).ne
  exact ⟨work, (setItem_of_ne hne).trans hwork, rfl, fun _ => rfl⟩

theorem QueueInv.tick {s : WorkQueue} (h : QueueInv s) (hfit : s.ticks + 1 < 2 ^ 32) :
    QueueInv { s with ticks := u32 (s.ticks + 1) } := by
  have hlist : ListInv { s with ticks := u32 (s.ticks + 1) } :=
    ⟨h.list.fresh, h.list.nodup, h.list.sorted, h.list.listed, h.list.log⟩
  refine ⟨hlist, ?_⟩
  refine h.phase.frame rfl rfl ?_ (fun _ _ => Iff.rfl)
    (fun _ work _ hwork => ⟨work, hwork, rfl, fun _ => rfl⟩) (List.append_nil _).symm
    (fun e he => absurd he List.not_mem_nil)
  rw [u32, Nat.mod_eq_of_lt hfit]
  exact Nat.le_succ _

theorem QueueInv.workerPop {s t : WorkQueue} (h : QueueInv s) (hidle : s.worker = .idle)
    (hs : Kernel.workerPop s = some t) : QueueInv t := by
  obtain rfl | ⟨w, rest, work, hlist, hwork, hlate, rfl⟩ := workerPop_some hs
  · exact h
  · have hpop := h.list.pop hlist
    have hnodup := h.list.nodup
    have hcur := h.phase
    rw [hlist] at hnodup
    rw [PhaseInv, hidle] at hcur
    refine ⟨⟨hpop.fresh, hpop.nodup, hpop.sorted, hpop.listed, hpop.log⟩, ?_⟩
    refine ⟨hcur, (List.nodup_cons.mp hnodup).1, h.list.listed w (hlist ▸ List.mem_cons_self), ?_⟩
    exact (workAtOf_eq hwork).trans_lt hlate

/-- The callback starts: the scheduling it is for is owed, and late. -/
theorem QueueInv.doWorkPrologue {s t : WorkQueue} {w k : Nat} (h : QueueInv s)
    (hpopped : s.worker = .popped w k) (hs : Kernel.doWorkPrologue s w k = some t) :
    QueueInv t := by
  have hphase := h.phase
  rw [PhaseInv, hpopped] at hphase
  obtain ⟨-, hout, ⟨work, hwork, hsched, huns⟩, hlate⟩ := hphase
  obtain ⟨work', hwork', rfl⟩ := Option.map_eq_some_iff.mp hs
  obtain rfl := Option.some.inj (hwork.symm.trans hwork')
  split
  · next hkilled =>
      exact ⟨⟨h.list.fresh, h.list.nodup, h.list.sorted, h.list.listed, h.list.log⟩,
        rfl, hout, work, hwork, hkilled⟩
  · have hset := h.list.setItem_flags { work with killed := true } hwork rfl
    have hmarked : ListInv { setItem s w { work with killed := true } with
        currentWork := some w, worker := .running w .fresh } :=
      ⟨hset.fresh, hset.nodup, hset.sorted, hset.listed, hset.log⟩
    refine ⟨hmarked.log_append ?_ ?_, ?_⟩
    · refine h.list.log.append (by simp) ?_ (by simp)
      rintro k' w' tick ⟨⟩
      exact ⟨huns, work.workAt, hsched, (workAtOf_eq hwork).symm.trans_lt hlate⟩
    · -- the list owes other schedulings: this one is of `w`
      intro v hv
      obtain ⟨work', -, hsched', -⟩ := h.list.listed v hv
      simp only [WorkEvent.starts, decide_eq_false_iff_not]
      intro hk
      have hpending : (setItem s w { work with killed := true }).pending v = s.pending v := rfl
      rw [hk, hpending] at hsched
      exact hout ((h.list.log.one _ _ _ _ _ hsched hsched').1 ▸ hv)
    · refine ⟨rfl, fun hmem => absurd hmem hout, _, setItem_self s w _, ?_⟩
      exact iff_of_true rfl (by decide)

theorem QueueInv.workRescheduleTest {s t : WorkQueue} {w : Nat} {resched : Resched}
    (h : QueueInv s) (hrun : s.worker = .running w resched) (hfresh : resched = .fresh)
    (hs : Kernel.workRescheduleTest s w = some t) : QueueInv t := by
  have hphase := h.phase
  rw [PhaseInv, hrun] at hphase
  obtain ⟨hcur, hin, work, hwork, hkilled⟩ := hphase
  obtain ⟨work', hwork', rfl⟩ := Option.map_eq_some_iff.mp hs
  refine ⟨⟨h.list.fresh, h.list.nodup, h.list.sorted, h.list.listed, h.list.log⟩, ?_⟩
  have hout : w ∉ s.workList := fun hmem => by
    have := hin hmem
    rw [hfresh] at this
    cases this
  have hmark : work.killed = true := hkilled.mpr (by rw [hfresh]; decide)
  refine ⟨hcur, fun hmem => absurd hmem hout, work, hwork, iff_of_true hmark ?_⟩
  split <;> decide

theorem QueueInv.workReschedule {s t : WorkQueue} {w early delay : Nat} (h : QueueInv s)
    (hrun : s.worker = .running w .checking)
    (hs : Kernel.workReschedule s w early delay = some t) : QueueInv t := by
  have hphase := h.phase
  rw [PhaseInv, hrun] at hphase
  obtain ⟨hcur, -, -⟩ := hphase
  obtain ⟨work, hwork, rfl | ⟨hw, rfl⟩⟩ := workReschedule_some hs
  · have hset := h.list.setItem_flags { work with killed := false } hwork rfl
    exact ⟨⟨hset.fresh, hset.nodup, hset.sorted, hset.listed, hset.log⟩,
      hcur, fun _ => rfl, _, setItem_self s w _, by simp⟩
  · have hnew : w < s.created := h.list.fresh w (by rw [hwork]; exact Option.some_ne_none _)
    have hput :=
      h.list.place { work with workAt := u32 (early + delay), killed := false } hnew hw
    exact ⟨⟨hput.fresh, hput.nodup, hput.sorted, hput.listed, hput.log⟩,
      hcur, fun _ => rfl, _, setItem_self s w _, by simp⟩

theorem doWorkEpilogue_some {s t : WorkQueue} {w : Nat} (h : doWorkEpilogue s w = some t) :
    ∃ work, s.items w = some work ∧
      (work.killed = true ∧ t = { s with
          currentWork := none, items := Function.update s.items w none, worker := .idle } ∨
        work.killed = false ∧ t = { s with currentWork := none, worker := .idle }) := by
  obtain ⟨work, hwork, rfl⟩ := Option.map_eq_some_iff.mp h
  refine ⟨work, hwork, ?_⟩
  cases work.killed with
  | true => exact Or.inl ⟨rfl, rfl⟩
  | false => exact Or.inr ⟨rfl, rfl⟩

theorem QueueInv.doWorkEpilogue {s t : WorkQueue} {w : Nat} (h : QueueInv s)
    (hout : ∀ work, s.items w = some work → work.killed = true → w ∉ s.workList)
    (hs : Kernel.doWorkEpilogue s w = some t) : QueueInv t := by
  obtain ⟨work, hwork, ⟨hkilled, rfl⟩ | ⟨-, rfl⟩⟩ := doWorkEpilogue_some hs
  · have hgone := h.list.destroy (hout work hwork hkilled)
    exact ⟨⟨hgone.fresh, hgone.nodup, hgone.sorted, hgone.listed, hgone.log⟩, rfl⟩
  · exact ⟨⟨h.list.fresh, h.list.nodup, h.list.sorted, h.list.listed, h.list.log⟩, rfl⟩

/-- The end of a callback, as it is recorded. -/
theorem QueueInv.returned {s t : WorkQueue} {w : Nat} {resched : Resched} (h : QueueInv s)
    (hrun : s.worker = .running w resched) (hs : Kernel.doWorkEpilogue s w = some t) :
    QueueInv (logWork t (.returned w (decide (resched = .done)) (t.items w).isNone)) := by
  have hphase := h.phase
  rw [PhaseInv, hrun] at hphase
  obtain ⟨-, hin, work, hwork, hkilled⟩ := hphase
  have hend : QueueInv t := by
    refine h.doWorkEpilogue (fun work' hwork' hmark hmem => ?_) hs
    obtain rfl := Option.some.inj (hwork.symm.trans hwork')
    exact hkilled.mp hmark (hin hmem)
  obtain ⟨work', hwork', hcase⟩ := doWorkEpilogue_some hs
  obtain rfl := Option.some.inj (hwork.symm.trans hwork')
  have hgone : (t.items w).isNone = true ↔ decide (resched = .done) = false := by
    rw [decide_eq_false_iff_not, ← ne_eq, ← hkilled]
    rcases hcase with ⟨hmark, rfl⟩ | ⟨hmark, rfl⟩
    · exact iff_of_true (by simp) hmark
    · exact iff_of_false (by simp [hwork]) (by simp [hmark])
  have hworker : t.worker = .idle := by rcases hcase with ⟨-, rfl⟩ | ⟨-, rfl⟩ <;> rfl
  have hcur := hend.phase
  rw [PhaseInv, hworker] at hcur
  refine ⟨hend.list.log_append ?_ fun _ _ => rfl, ?_⟩
  · refine hend.list.log.append (by simp) (by simp) ?_
    rintro w' r d ⟨⟩
    exact hgone
  · rw [PhaseInv, show (logWork t _).worker = .idle from hworker]
    exact hcur

theorem queueInv_step (s : WorkQueue) (a : WorkAct) (t : WorkQueue) (h : QueueInv s)
    (hp : ProperUse s a) (hs : workStep s a = some t) : QueueInv t := by
  cases workStep_some hs with
  | create => exact h.workCreate
  | scheduleAt hs' => exact h.scheduleWorkAt hp.2 hs'
  | scheduleDelay hs' => exact h.scheduleWorkAt hp.2 hs'
  | cancel hs' => exact h.workCancel hs'
  | tick => exact h.tick hp
  | pop hidle hs' => exact h.workerPop hidle hs'
  | prologue hpopped hs' => exact h.doWorkPrologue hpopped hs'
  | rescheduleTest hrun hs' =>
      rw [ProperUse, hrun] at hp
      exact h.workRescheduleTest hrun (of_decide_eq_true hp) hs'
  | reschedule hrun hs' => exact h.workReschedule hrun hs'
  | returned hrun hs' => exact h.returned hrun hs'
  | skipped hskip hs' =>
      have hphase := h.phase
      rw [PhaseInv, hskip] at hphase
      exact h.doWorkEpilogue (fun _ _ _ => hphase.2.1) hs'

theorem queueInv_workInit (ticks : Nat) : QueueInv (workInit ticks) :=
  ⟨⟨fun _ hw => absurd rfl hw, List.nodup_nil, List.Pairwise.nil,
    fun _ hw => absurd hw List.not_mem_nil, soundLog_nil⟩, rfl⟩

/-- An item that runs, puts itself back once, and runs again. -/
def rescheduledTwice : List WorkAct :=
  [.create, .scheduleAt 0 5, .tick, .pop, .prologue, .rescheduleTest, .reschedule 6 1, .epilogue,
    .tick, .pop, .tick, .pop, .prologue, .epilogue]

end Levos.Kernel
