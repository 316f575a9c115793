import Levos.Kernel.Work

/-!
# Cancelling work (`kernel/work.c`)

`work_cancel` sets `WORK_FLAG_CANCELLED` on the item that is current and
`WORK_FLAG_KILLED` on any other. The first is read by `work_reschedule` only:
set after its test it stops nothing, and a second call for the item, once it is
no longer current, returns -1 with the lock held.

`work_cancel_sticks` is about the runs in which no item is cancelled once its
callback is past the test of `work_reschedule`; `work_cancel_ignored` cancels
one there.
-/

namespace Levos.Kernel

open Levos.Base

/-! ## What is to be proved -/

/-- `e` is a return of `work_cancel` for `w`. -/
def WorkEvent.cancels (w : Nat) : WorkEvent → Bool
  | .cancelled w' => w' = w
  | _ => false

/-- `e` is a start of the callback of `w`. -/
def WorkEvent.runs (w : Nat) : WorkEvent → Bool
  | .started _ w' _ => w' = w
  | _ => false

/-- No callback is started after its item was cancelled. -/
def Sticks (events : List WorkEvent) : Prop :=
  events.Pairwise fun e e' => ∀ w, e.cancels w = true → e'.runs w = false

/-- What `current_work` is. -/
def Worker.current : Worker → Option Nat
  | .idle | .popped _ _ => none
  | .running w _ | .skipped w => some w

/-- The callback of `w` runs. -/
def Worker.runs (w : Nat) : Worker → Bool
  | .running w' _ => w' = w
  | _ => false

/-- The callback of `w` runs, and its `work_reschedule` has passed the test. -/
def Worker.pastTest (w : Nat) : Worker → Bool
  | .running w' resched => w' = w ∧ (resched = .checking ∨ resched = .done)
  | _ => false

/-- No `work_cancel` of an item whose running callback is past the test of
`work_reschedule`. -/
def CancelledInTime (s : WorkQueue) : WorkAct → Prop
  | .cancel w => s.worker.pastTest w = false
  | _ => True

instance (s : WorkQueue) : ∀ a, Decidable (CancelledInTime s a)
  | .cancel w => inferInstanceAs (Decidable (s.worker.pastTest w = false))
  | .create | .scheduleAt _ _ | .scheduleDelay _ _ _ | .tick | .pop | .prologue
  | .rescheduleTest | .reschedule _ _ | .epilogue => isTrue trivial

/-! ## The invariant -/

/-- The item `w` and the calls of `work_cancel` for it: the flag for a running
item is set only while it is current and about to be destroyed, and an item
that was cancelled is marked killed. -/
structure ItemInv (worker : Worker) (events : List WorkEvent) (w : Nat) (work : WorkItem) :
    Prop where
  flag : work.cancelled = true →
    worker.current = some w ∧ work.killed = true ∧ worker.pastTest w = false
  seen : (∃ e ∈ events, e.cancels w = true) →
    work.killed = true ∧ (worker.runs w = true → work.cancelled = true)
  mark : worker.current = some w → worker.pastTest w = false → work.killed = true

structure CancelInv (s : WorkQueue) : Prop where
  fresh : ∀ w, s.items w ≠ none → w < s.created
  born : ∀ e ∈ s.events, ∀ w, e.cancels w = true → w < s.created
  busy : ∀ w, s.worker.hand = some w → w < s.created
  link : s.currentWork = s.worker.current
  item : ∀ w work, s.items w = some work → ItemInv s.worker s.events w work
  lock : s.workLock = false
  sticks : Sticks s.events

theorem Worker.current_of_runs {worker : Worker} {w : Nat} (h : worker.runs w = true) :
    worker.current = some w := by
  cases worker with
  | running w' resched =>
      obtain rfl : w' = w := of_decide_eq_true h
      rfl
  | _ => cases h

theorem Worker.hand_of_current {worker : Worker} {w : Nat} (h : worker.current = some w) :
    worker.hand = some w := by
  cases worker with
  | idle => cases h
  | popped w' k => cases h
  | running w' resched => exact h
  | skipped w' => exact h

theorem sticks_append {events : List WorkEvent} {e : WorkEvent} (h : Sticks events)
    (hnew : ∀ w, e.runs w = true → ¬ ∃ e' ∈ events, e'.cancels w = true) :
    Sticks (events ++ [e]) := by
  refine List.pairwise_append.mpr ⟨h, List.pairwise_singleton _ _, ?_⟩
  intro a ha b hb w hcancels
  obtain rfl := List.mem_singleton.mp hb
  cases hruns : b.runs w with
  | false => rfl
  | true => exact absurd ⟨a, ha, hcancels⟩ (hnew w hruns)

/-- An event that is no `work_cancel` changes nothing for an item. -/
theorem ItemInv.append {worker : Worker} {events : List WorkEvent} {w : Nat} {work : WorkItem}
    {e : WorkEvent} (h : ItemInv worker events w work) (he : ∀ v, e.cancels v = false) :
    ItemInv worker (events ++ [e]) w work := by
  refine ⟨h.flag, fun ⟨e', hmem, hcancels⟩ => h.seen ?_, h.mark⟩
  rcases List.mem_append.mp hmem with hmem | hmem
  · exact ⟨e', hmem, hcancels⟩
  · rw [List.mem_singleton.mp hmem, he w] at hcancels
    cases hcancels

/-- A step that records an event that is no `work_cancel`. -/
theorem CancelInv.log_append {s : WorkQueue} (h : CancelInv s) {e : WorkEvent}
    (he : ∀ v, e.cancels v = false)
    (hstart : ∀ w, e.runs w = true → ¬ ∃ e' ∈ s.events, e'.cancels w = true) :
    CancelInv (logWork s e) := by
  constructor
  case fresh => exact h.fresh
  case born =>
    intro e' hmem w hcancels
    rcases List.mem_append.mp hmem with hmem | hmem
    · exact h.born e' hmem w hcancels
    · rw [List.mem_singleton.mp hmem, he w] at hcancels
      cases hcancels
  case busy => exact h.busy
  case link => exact h.link
  case item => exact fun w work hwork => (h.item w work hwork).append he
  case lock => exact h.lock
  case sticks => exact sticks_append h.sticks hstart

/-- Writing one item. -/
theorem CancelInv.setItem {s : WorkQueue} (h : CancelInv s) {w : Nat} (work : WorkItem)
    (hnew : w < s.created) (hitem : ItemInv s.worker s.events w work) :
    CancelInv (setItem s w work) := by
  constructor
  case fresh =>
    intro v hv
    by_cases hvw : v = w
    · exact hvw ▸ hnew
    · exact h.fresh v (by rwa [setItem_of_ne hvw] at hv)
  case born => exact h.born
  case busy => exact h.busy
  case link => exact h.link
  case item =>
    intro v work' hwork'
    by_cases hvw : v = w
    · subst hvw
      rw [setItem_self] at hwork'
      exact Option.some.inj hwork' ▸ hitem
    · rw [setItem_of_ne hvw] at hwork'
      exact h.item v work' hwork'
  case lock => exact h.lock
  case sticks => exact h.sticks

theorem CancelInv.lt_created {s : WorkQueue} (h : CancelInv s) {w : Nat} {work : WorkItem}
    (hw : s.items w = some work) : w < s.created :=
  h.fresh w (by rw [hw]; exact Option.some_ne_none _)

/-! ## The steps -/

theorem CancelInv.insertWork {s : WorkQueue} (h : CancelInv s) (w : Nat) :
    CancelInv (insertWork s w) := by
  have hlog := h.log_append (e := .scheduled s.schedulings w (workAtOf s w))
    (fun _ => rfl) (fun _ hruns => nomatch hruns)
  exact ⟨hlog.fresh, hlog.born, hlog.busy, hlog.link, hlog.item, hlog.lock, hlog.sticks⟩

theorem CancelInv.scheduleWorkAt {s t : WorkQueue} {w abs : Nat} {r : Int} (h : CancelInv s)
    (hs : Kernel.scheduleWorkAt s w abs = some (t, r)) : CancelInv t := by
  obtain ⟨work, hwork, rfl | ⟨-, -, rfl⟩⟩ := scheduleWorkAt_some hs
  · exact h
  · have hitem := h.item w work hwork
    have hset := h.setItem { work with workAt := abs } (h.lt_created hwork)
      ⟨hitem.flag, hitem.seen, hitem.mark⟩
    exact hset.insertWork w

theorem CancelInv.workCreate {s : WorkQueue} (h : CancelInv s) : CancelInv (workCreate s) := by
  have hgrown : CancelInv { s with created := s.created + 1 } :=
    ⟨fun w hw => (h.fresh w hw).trans (Nat.lt_succ_self _),
      fun e he w hw => (h.born e he w hw).trans (Nat.lt_succ_self _),
      fun w hw => (h.busy w hw).trans (Nat.lt_succ_self _),
      h.link, h.item, h.lock, h.sticks⟩
  refine hgrown.setItem _ (Nat.lt_succ_self _) ⟨fun hflag => (nomatch hflag), ?_, ?_⟩
  · rintro ⟨e, he, hcancels⟩
    exact absurd (h.born e he _ hcancels) (lt_irrefl _)
  · intro hcurrent
    exact absurd (h.busy _ (Worker.hand_of_current hcurrent)) (lt_irrefl _)

/-- A cancelled item is marked by the flag of its case; the case that keeps the
lock needs the flag of a running item on one that is not current. -/
theorem CancelInv.workCancel {s t : WorkQueue} {w : Nat} (h : CancelInv s)
    (htime : s.worker.pastTest w = false) (hs : Kernel.workCancel s w = some t) :
    CancelInv t := by
  obtain ⟨work, hwork, -, hcase⟩ := workCancel_some hs
  have hitem := h.item w work hwork
  have hborn : ∀ e ∈ s.events ++ [.cancelled w], ∀ v, e.cancels v = true → v < s.created := by
    intro e hmem v hcancels
    rcases List.mem_append.mp hmem with hmem | hmem
    · exact h.born e hmem v hcancels
    · rw [List.mem_singleton.mp hmem] at hcancels
      obtain rfl : w = v := of_decide_eq_true hcancels
      exact h.lt_created hwork
  -- the state after either flag is written, with the new event
  have hset : ∀ work', work'.killed = true → (s.worker.runs w = true → work'.cancelled = true) →
      ItemInv s.worker s.events w work' →
      CancelInv (logWork (Kernel.setItem s w work') (.cancelled w)) := by
    intro work' hkilled hflag hinv
    have hbase := h.setItem work' (h.lt_created hwork) hinv
    refine ⟨hbase.fresh, hborn, hbase.busy, hbase.link, ?_, hbase.lock,
      sticks_append h.sticks fun _ hruns => nomatch hruns⟩
    intro v work'' hwork''
    have hold := hbase.item v work'' hwork''
    refine ⟨hold.flag, ?_, hold.mark⟩
    rintro ⟨e, hmem, hcancels⟩
    rcases List.mem_append.mp hmem with hmem | hmem
    · exact hold.seen ⟨e, hmem, hcancels⟩
    · rw [List.mem_singleton.mp hmem] at hcancels
      obtain rfl : w = v := of_decide_eq_true hcancels
      have heq : work' = work'' := Option.some.inj ((setItem_self s w work').symm.trans hwork'')
      exact heq ▸ ⟨hkilled, hflag⟩
  rcases hcase with ⟨hcur, rfl⟩ | ⟨hcur, hflag, rfl⟩ | ⟨hcur, hflag, rfl⟩
  · rw [h.link] at hcur
    have hkilled := hitem.mark hcur htime
    exact hset _ hkilled (fun _ => rfl)
      ⟨fun _ => ⟨hcur, hkilled, htime⟩, fun _ => ⟨hkilled, fun _ => rfl⟩, hitem.mark⟩
  · exact absurd (h.link.trans (hitem.flag hflag).1) hcur
  · rw [h.link] at hcur
    have hidle : s.worker.runs w = true → work.cancelled = true :=
      fun hruns => absurd (Worker.current_of_runs hruns) hcur
    refine hset _ rfl hidle ⟨fun hset => ?_, fun _ => ⟨rfl, hidle⟩, fun _ _ => rfl⟩
    rw [hflag] at hset
    cases hset

/-- Only the current item carries the flag of a running one. -/
theorem CancelInv.no_flag {s : WorkQueue} (h : CancelInv s) {w : Nat} {work : WorkItem}
    (hne : s.worker.current ≠ some w) (hw : s.items w = some work) : work.cancelled = false := by
  cases hflag : work.cancelled with
  | false => rfl
  | true => exact absurd ((h.item w work hw).flag hflag).1 hne

/-- An item the worker is not running, nor about to run, when it moves on. -/
theorem ItemInv.move {worker worker' : Worker} {events : List WorkEvent} {w : Nat}
    {work : WorkItem} (h : ItemInv worker events w work) (hflag : work.cancelled = false)
    (hruns : worker'.runs w = false) (hmark : worker'.current = some w → work.killed = true) :
    ItemInv worker' events w work := by
  refine ⟨fun hset => ?_, fun hseen => ⟨(h.seen hseen).1, fun hset => ?_⟩, fun hcur _ => hmark hcur⟩
  · rw [hflag] at hset
    cases hset
  · rw [hruns] at hset
    cases hset

theorem CancelInv.setWorker {s : WorkQueue} (h : CancelInv s) (worker' : Worker)
    (hbusy : ∀ w, worker'.hand = some w → w < s.created)
    (hitem : ∀ w work, s.items w = some work → ItemInv worker' s.events w work) :
    CancelInv { s with currentWork := worker'.current, worker := worker' } :=
  ⟨h.fresh, h.born, hbusy, rfl, hitem, h.lock, h.sticks⟩

theorem CancelInv.workerPop {s t : WorkQueue} (h : CancelInv s) (hidle : s.worker = .idle)
    (hs : Kernel.workerPop s = some t) : CancelInv t := by
  obtain rfl | ⟨w, rest, work, -, hwork, -, rfl⟩ := workerPop_some hs
  · exact h
  · have hnone : s.worker.current = none := by rw [hidle]; rfl
    refine ⟨h.fresh, h.born, ?_, h.link.trans hnone, fun v work' hwork' => ?_, h.lock, h.sticks⟩
    · rintro v ⟨⟩
      exact h.lt_created hwork
    · have hflag := h.no_flag (by rw [hnone]; exact Option.some_ne_none v ∘ Eq.symm) hwork'
      exact (h.item v work' hwork').move hflag rfl fun hcur => nomatch hcur

/-- A killed item is not started, and an item that is not killed was not
cancelled. -/
theorem CancelInv.doWorkPrologue {s t : WorkQueue} {w k : Nat} (h : CancelInv s)
    (hpopped : s.worker = .popped w k) (hs : Kernel.doWorkPrologue s w k = some t) :
    CancelInv t := by
  obtain ⟨work, hwork, rfl⟩ := Option.map_eq_some_iff.mp hs
  have hcur : ∀ v, s.worker.current ≠ some v := by
    intro v
    rw [hpopped]
    exact fun e => nomatch e
  have hbusy : ∀ v, some w = some v → v < s.created := by
    intro v e
    obtain rfl := Option.some.inj e
    exact h.lt_created hwork
  split
  · next hkilled =>
      refine h.setWorker (.skipped w) hbusy fun v work' hwork' => ?_
      refine (h.item v work' hwork').move (h.no_flag (hcur v) hwork') rfl fun e => ?_
      obtain rfl := Option.some.inj e
      exact Option.some.inj (hwork.symm.trans hwork') ▸ hkilled
  · next hkilled =>
      have hunseen : ¬ ∃ e ∈ s.events, e.cancels w = true :=
        fun hseen => hkilled ((h.item w work hwork).seen hseen).1
      have hflag := h.no_flag (hcur w) hwork
      have hclear : ∀ worker', ItemInv worker' s.events w { work with killed := true } :=
        fun worker' => ⟨fun hset => (nomatch hflag.symm.trans hset),
          fun hseen => absurd hseen hunseen, fun _ _ => rfl⟩
      have hset := h.setItem _ (h.lt_created hwork) (hclear s.worker)
      have hstarted := hset.setWorker (.running w .fresh) hbusy
        (fun v work' hwork' => ?_)
      · refine hstarted.log_append (fun _ => rfl) fun v hruns => ?_
        obtain rfl : w = v := of_decide_eq_true hruns
        exact hunseen
      · by_cases hvw : v = w
        · subst hvw
          rw [setItem_self] at hwork'
          exact Option.some.inj hwork' ▸ hclear _
        · have hold := (setItem_of_ne hvw).symm.trans hwork'
          refine (h.item v work' hold).move (h.no_flag (hcur v) hold) ?_ ?_
          · exact decide_eq_false fun e => hvw e.symm
          · exact fun e => absurd (Option.some.inj e).symm hvw

/-- The other items when the worker, running `w`, moves on in its callback. -/
theorem CancelInv.other {s : WorkQueue} (h : CancelInv s) {w v : Nat} {work : WorkItem}
    {resched resched' : Resched} (hrun : s.worker = .running w resched) (hvw : v ≠ w)
    (hv : s.items v = some work) : ItemInv (.running w resched') s.events v work := by
  have hne : s.worker.current ≠ some v := by
    rw [hrun]
    exact fun e => hvw (Option.some.inj e).symm
  exact (h.item v work hv).move (h.no_flag hne hv) (decide_eq_false fun e => hvw e.symm)
    fun e => absurd (Option.some.inj e).symm hvw

theorem CancelInv.workRescheduleTest {s t : WorkQueue} {w : Nat} {resched : Resched}
    (h : CancelInv s) (hrun : s.worker = .running w resched)
    (hs : Kernel.workRescheduleTest s w = some t) : CancelInv t := by
  obtain ⟨work, hwork, rfl⟩ := Option.map_eq_some_iff.mp hs
  have hcur : s.worker.current = some w := by rw [hrun]; rfl
  have hruns : s.worker.runs w = true := by rw [hrun]; exact decide_eq_true rfl
  have hitem := h.item w work hwork
  refine ⟨h.fresh, h.born, ?_, h.link.trans hcur, fun v work' hwork' => ?_, h.lock, h.sticks⟩
  · intro v e
    obtain rfl := Option.some.inj e
    exact h.lt_created hwork
  · by_cases hvw : v = w
    · subst hvw
      obtain rfl := Option.some.inj (hwork.symm.trans hwork')
      cases hflag : work.cancelled with
      | true =>
          have hkilled := (hitem.flag hflag).2.1
          exact ⟨fun _ => ⟨rfl, hkilled, by simp [Worker.pastTest]⟩,
            fun _ => ⟨hkilled, fun _ => hflag⟩, fun _ _ => hkilled⟩
      | false =>
          -- past the test: the item was not cancelled, or the flag would be set
          refine ⟨fun hset => (nomatch hflag.symm.trans hset), fun hseen => ?_, fun _ hpast => ?_⟩
          · exact nomatch hflag.symm.trans ((hitem.seen hseen).2 hruns)
          · simp [Worker.pastTest] at hpast
    · exact h.other hrun hvw hwork'

theorem CancelInv.workReschedule {s t : WorkQueue} {w early delay : Nat} (h : CancelInv s)
    (hrun : s.worker = .running w .checking)
    (hs : Kernel.workReschedule s w early delay = some t) : CancelInv t := by
  obtain ⟨work, hwork, hcase⟩ := workReschedule_some hs
  have hcur : s.worker.current = some w := by rw [hrun]; rfl
  have hruns : s.worker.runs w = true := by rw [hrun]; exact decide_eq_true rfl
  have hpast : s.worker.pastTest w = true := by rw [hrun]; simp [Worker.pastTest]
  have hitem := h.item w work hwork
  have hflag : work.cancelled = false := by
    refine Bool.eq_false_iff.mpr fun hset => ?_
    exact nomatch hpast.symm.trans (hitem.flag hset).2.2
  have hunseen : ¬ ∃ e ∈ s.events, e.cancels w = true :=
    fun hseen => nomatch hflag.symm.trans ((hitem.seen hseen).2 hruns)
  -- an item past the test that was never cancelled may carry any mark
  have hclear : ∀ work' : WorkItem, work'.cancelled = false → ∀ worker' : Worker,
      worker'.pastTest w = true → ItemInv worker' s.events w work' := by
    intro work' hflag' worker' hpast'
    exact ⟨fun hset => (nomatch hflag'.symm.trans hset), fun hseen => absurd hseen hunseen,
      fun _ hpast => (nomatch hpast'.symm.trans hpast)⟩
  have hdone : ∀ work' : WorkItem, work'.cancelled = false →
      CancelInv { Kernel.setItem s w work' with worker := .running w .done } := by
    intro work' hflag'
    have hset := h.setItem work' (h.lt_created hwork) (hclear work' hflag' s.worker hpast)
    refine ⟨hset.fresh, h.born, ?_, h.link.trans hcur, fun v work'' hv => ?_, h.lock, h.sticks⟩
    · exact fun v e => Option.some.inj e ▸ h.lt_created hwork
    · by_cases hvw : v = w
      · subst hvw
        obtain rfl := Option.some.inj ((setItem_self s v work').symm.trans hv)
        exact hclear work' hflag' _ (by simp [Worker.pastTest])
      · exact h.other hrun hvw ((setItem_of_ne hvw).symm.trans hv)
  rcases hcase with rfl | ⟨-, rfl⟩
  · exact hdone _ hflag
  · have hput := hdone { work with workAt := u32 (early + delay), killed := false } hflag
    exact hput.insertWork w

/-- An item that outlives its turn is not killed, so it was not cancelled. -/
theorem CancelInv.doWorkEpilogue {s t : WorkQueue} {w : Nat} (h : CancelInv s)
    (hcur : s.worker.current = some w) (hs : Kernel.doWorkEpilogue s w = some t) :
    CancelInv t := by
  obtain ⟨work, hwork, hcase⟩ := doWorkEpilogue_some hs
  have hother : ∀ v work', v ≠ w → s.items v = some work' →
      ItemInv .idle s.events v work' := by
    intro v work' hvw hv
    have hne : s.worker.current ≠ some v := by
      rw [hcur]
      exact fun e => hvw (Option.some.inj e).symm
    exact (h.item v work' hv).move (h.no_flag hne hv) rfl fun e => nomatch e
  rcases hcase with ⟨-, rfl⟩ | ⟨hkilled, rfl⟩
  · refine ⟨fun v hv => ?_, h.born, fun v e => (nomatch e), rfl, fun v work' hv => ?_, h.lock,
      h.sticks⟩
    · refine h.fresh v fun hnone => hv ?_
      exact (Function.update_apply _ _ _ _).trans (by rw [hnone, ite_self])
    · have hvw : v ≠ w := by
        rintro rfl
        exact nomatch (Function.update_self v none s.items).symm.trans hv
      exact hother v work' hvw ((Function.update_of_ne hvw _ _).symm.trans hv)
  · refine h.setWorker .idle (fun v e => (nomatch e)) fun v work' hv => ?_
    by_cases hvw : v = w
    · subst hvw
      obtain rfl := Option.some.inj (hwork.symm.trans hv)
      have hflag : work.cancelled = false := by
        refine Bool.eq_false_iff.mpr fun hset => ?_
        exact nomatch hkilled.symm.trans ((h.item v work hv).flag hset).2.1
      exact (h.item v work hv).move hflag rfl fun e => nomatch e
    · exact hother v work' hvw hv

theorem cancelInv_step (s : WorkQueue) (a : WorkAct) (t : WorkQueue) (h : CancelInv s)
    (htime : CancelledInTime s a) (hs : workStep s a = some t) : CancelInv t := by
  cases workStep_some hs with
  | create => exact h.workCreate
  | scheduleAt hs' => exact h.scheduleWorkAt hs'
  | scheduleDelay hs' => exact h.scheduleWorkAt hs'
  | cancel hs' => exact h.workCancel htime hs'
  | tick => exact ⟨h.fresh, h.born, h.busy, h.link, h.item, h.lock, h.sticks⟩
  | pop hidle hs' => exact h.workerPop hidle hs'
  | prologue hpopped hs' => exact h.doWorkPrologue hpopped hs'
  | rescheduleTest hrun hs' => exact h.workRescheduleTest hrun hs'
  | reschedule hrun hs' => exact h.workReschedule hrun hs'
  | returned hrun hs' =>
      have hend := h.doWorkEpilogue (by rw [hrun]; rfl) hs'
      exact hend.log_append (fun _ => rfl) fun _ hruns => nomatch hruns
  | skipped hskip hs' => exact h.doWorkEpilogue (by rw [hskip]; rfl) hs'

theorem cancelInv_workInit (ticks : Nat) : CancelInv (workInit ticks) :=
  ⟨fun _ hw => absurd rfl hw, fun _ he => absurd he List.not_mem_nil, fun _ e => (nomatch e), rfl,
    fun _ _ hw => (nomatch hw), rfl, List.Pairwise.nil⟩

/-- **Cancellation sticks, in time.** In every run in which no item is
cancelled while its callback is past the test of `work_reschedule`, no callback
is started after its item was cancelled, and every `work_cancel` has returned
with the lock free. -/
theorem work_cancel_sticks (ticks : Nat) (as : List WorkAct) (s : WorkQueue)
    (hm : StepsMeet workStep CancelledInTime (workInit ticks) as)
    (hrun : runSteps workStep (workInit ticks) as = some s) :
    Sticks s.events ∧ s.workLock = false := by
  have hinv : CancelInv s :=
    runSteps_invariant_of_meet cancelInv_step (cancelInv_workInit ticks) hm hrun
  exact ⟨hinv.sticks, hinv.lock⟩

/-- Cancelled twice while it runs, before it asks to be rescheduled. -/
def cancelledEarly : List WorkAct :=
  [.create, .scheduleAt 0 5, .tick, .pop, .prologue, .cancel 0, .cancel 0, .rescheduleTest,
    .epilogue, .tick, .pop]

theorem work_cancel_sticks_early :
    ∃ s, runSteps workStep (workInit 5) cancelledEarly = some s ∧
      Sticks s.events ∧ s.workLock = false := by
  obtain ⟨s, hs⟩ : ∃ s, runSteps workStep (workInit 5) cancelledEarly = some s := ⟨_, rfl⟩
  exact ⟨s, hs, work_cancel_sticks 5 cancelledEarly s (by decide +kernel) hs⟩

/-- The callback has rescheduled itself, and is cancelled before it returns. -/
def cancelledLate : List WorkAct :=
  [.create, .scheduleAt 0 5, .tick, .pop, .prologue, .rescheduleTest, .reschedule 6 1, .cancel 0,
    .epilogue]

/-- A callback that has put itself back is started again after `work_cancel`,
and a second `work_cancel` in its place returns with the lock held. -/
theorem work_cancel_ignored :
    (∃ s, runSteps workStep (workInit 5) (cancelledLate ++ [.tick, .tick, .pop, .prologue]) =
        some s ∧ ¬ Sticks s.events) ∧
      ∃ s, runSteps workStep (workInit 5) (cancelledLate ++ [.cancel 0]) = some s ∧
        s.workLock = true := by
  constructor
  · obtain ⟨s, hs, hevents⟩ := Option.map_eq_some_iff.mp
      (show (runSteps workStep (workInit 5) (cancelledLate ++ [.tick, .tick, .pop, .prologue])).map
          WorkQueue.events =
        some [.scheduled 0 0 5, .started 0 0 6, .scheduled 1 0 7, .cancelled 0,
          .returned 0 true false, .started 1 0 8] by decide +kernel)
    refine ⟨s, hs, fun hsticks => ?_⟩
    rw [hevents] at hsticks
    simp [Sticks, WorkEvent.cancels, WorkEvent.runs] at hsticks
  · exact Option.map_eq_some_iff.mp
      (show (runSteps workStep (workInit 5) (cancelledLate ++ [.cancel 0])).map
          WorkQueue.workLock = some true by decide +kernel)

end Levos.Kernel
