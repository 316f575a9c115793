import Levos.Kernel.WorkCancel

/-!
# Alarms (`kernel/syscall.c`, `kernel/work.c`)

`sys_alarm` gives the task a new item of work and cancels the one before it,
to which `alarm_work` points from the first call on: also when the worker has
run and destroyed it. With 0 seconds the new item is for the present tick, and
sends the signal.

A run is a sequence of calls of one task, ticks and steps of the worker. Beside
what the source keeps, the state has the time in ticks as a number that does
not wrap and the alarm that is to be pending by the calls so far.
-/

namespace Levos.Kernel

open Levos.Base

/-! ## The functions of the source -/

/-- `alarm` is the time of the latest call with `secs > 0` unless it was
followed by a call with 0 or by its signal; `sent` are the times of the
signals, the latest first. -/
structure AlarmState where
  queue : WorkQueue
  alarmWork : Option Nat
  now : Nat
  alarm : Option Nat
  sent : List Nat

/-- What `sys_alarm` returns for an item of this tick. -/
def alarmRc (workAt ticks : Nat) : Int :=
  let time := (i32 (u32Sub workAt ticks)).tdiv 150
  if time = 0 then 1 else time

/-- The first half of `sys_alarm`. A call that finds `alarm_work` destroyed
uses freed memory, and ends the run. -/
def cancelAlarm (s : AlarmState) : Option (WorkQueue × Int) :=
  match s.alarmWork with
  | none => some (s.queue, 0)
  | some w =>
      (s.queue.items w).bind fun work =>
        (workCancel s.queue w).map fun q => (q, alarmRc work.workAt s.queue.ticks)

/-- The second half: a new item, and its insertion. -/
def armAlarm (q : WorkQueue) (secs : BitVec 32) : Option WorkQueue :=
  (scheduleWorkDelay (workCreate q) q.created q.ticks (u32 (secs.toNat * 150))).map Prod.fst

/-- `sys_alarm`, with `secs` as the unsigned number `alarm` takes. -/
def sysAlarm (s : AlarmState) (secs : BitVec 32) : Option (AlarmState × Int) :=
  (cancelAlarm s).bind fun r =>
    (armAlarm r.1 secs).map fun q =>
      ({ s with
          queue := q
          alarmWork := some r.1.created
          alarm := if secs = 0 then none else some (s.now + 150 * secs.toNat) }, r.2)

/-- The worker is about to call `__deliver_alarm`. -/
def delivers (q : WorkQueue) : Bool :=
  match q.worker with
  | .popped w _ => (q.items w).any fun work => !work.killed
  | _ => false

inductive AlarmAct : Type where
  | call (secs : BitVec 32)
  | tick
  | pop
  | prologue
  | epilogue
deriving DecidableEq, Repr

def alarmStep (s : AlarmState) : AlarmAct → Option AlarmState
  | .call secs => (sysAlarm s secs).map Prod.fst
  | .tick => (workStep s.queue .tick).map fun q => { s with queue := q, now := s.now + 1 }
  | .pop => (workStep s.queue .pop).map fun q => { s with queue := q }
  | .prologue =>
      (workStep s.queue .prologue).map fun q =>
        if delivers s.queue then { s with queue := q, alarm := none, sent := s.now :: s.sent }
        else { s with queue := q }
  | .epilogue => (workStep s.queue .epilogue).map fun q => { s with queue := q }

/-- A task that has not called `alarm`. -/
def alarmInit (now : Nat) : AlarmState :=
  { queue := workInit (u32 now), alarmWork := none, now, alarm := none, sent := [] }

/-! ## What is to be proved -/

/-- The items the worker still has to look at. -/
def queuedItems (q : WorkQueue) : List Nat :=
  match q.worker with
  | .popped w _ => w :: q.workList
  | _ => q.workList

/-- Those of them that were not cancelled. -/
def pendingItems (q : WorkQueue) : List Nat :=
  (queuedItems q).filter fun w => (q.items w).any fun work => !work.killed

/-- The ticks the pending alarms are for. -/
def pendingAt (q : WorkQueue) : List Nat := (pendingItems q).map (workAtOf q)

/-- The seconds left of the alarm, at least 1, and 0 without one. -/
def remaining (s : AlarmState) : Int :=
  match s.alarm with
  | none => 0
  | some due => (max 1 ((due - s.now) / 150) : Nat)

/-- The step goes as it should: at most one alarm is pending after it, a signal
is sent at the expiry of the latest alarm only, and a call consults no
destroyed item, returns the seconds remaining and leaves nothing pending but
the alarm it is for. -/
structure AlarmRight (s : AlarmState) (a : AlarmAct) : Prop where
  one : ∀ s', alarmStep s a = some s' → (pendingItems s'.queue).length ≤ 1
  expiry : ∀ s', alarmStep s a = some s' → s'.sent ≠ s.sent → ∃ due, s.alarm = some due ∧ due < s.now
  live : ∀ secs, a = .call secs → ∀ w, s.alarmWork = some w → s.queue.items w ≠ none
  call : ∀ secs, a = .call secs → ∀ s' rc, sysAlarm s secs = some (s', rc) →
    rc = remaining s ∧
      pendingAt s'.queue = if secs = 0 then [] else [s.queue.ticks + 150 * secs.toNat]

/-- The distance of the alarm fits an `int`, and it is not overdue for a second
or more, up to wraps of the counter. -/
def DueFits (due now : Nat) : Prop :=
  (now ≤ due → due - now < 2 ^ 31) ∧
    (due < now → (now - due) % 2 ^ 32 < 150 ∨ 2 ^ 32 - 300 < (now - due) % 2 ^ 32)

/-- The calls are for at least one second, for a tick the counter can hold,
and come while the alarm before is still waiting. -/
def AlarmUse (s : AlarmState) : AlarmAct → Prop
  | .call secs =>
      secs ≠ 0 ∧ s.queue.ticks + 150 * secs.toNat < 2 ^ 32 ∧
        ∀ w, s.alarmWork = some w →
          w ∈ queuedItems s.queue ∧ ∃ due, s.alarm = some due ∧ DueFits due s.now
  | _ => True

/-! ## The return value -/

/-- The division of C. -/
theorem tdiv_150 (d : Int) :
    (0 ≤ d → d.tdiv 150 = d / 150) ∧ (d < 0 → d.tdiv 150 = -(-d / 150)) := by
  constructor
  · exact fun h => Int.tdiv_eq_ediv_of_nonneg h
  · intro h
    rw [← Int.tdiv_eq_ediv_of_nonneg (by omega), Int.neg_tdiv, Int.neg_neg]

/-- When that is the number of seconds left. -/
theorem alarmRc_iff {due now : Nat} (hepoch : due / 2 ^ 32 ≤ now / 2 ^ 32) :
    alarmRc (u32 due) (u32 now) = ((max 1 ((due - now) / 150) : Nat) : Int) ↔ DueFits due now := by
  rw [alarmRc]
  obtain ⟨d, hd⟩ : ∃ d, d = i32 (u32Sub (u32 due) (u32 now)) := ⟨_, rfl⟩
  have hsub : (now ≤ due → due - now < 2 ^ 31 → d = due - now) ∧
      (now ≤ due → 2 ^ 31 ≤ due - now → d < 0) ∧
      (due < now → (-150 < d ∧ d < 300 ↔
        (now - due) % 2 ^ 32 < 150 ∨ 2 ^ 32 - 300 < (now - due) % 2 ^ 32)) := by
    rw [hd, i32, u32Sub, u32, u32]
    refine ⟨?_, ?_, ?_⟩ <;> split_ifs <;> omega
  obtain ⟨hnear, hfar, hover⟩ := hsub
  obtain ⟨t, ht⟩ : ∃ t, t = d.tdiv 150 := ⟨_, rfl⟩
  obtain ⟨hpos, hneg⟩ := tdiv_150 d
  rw [← ht] at hpos hneg
  rw [← hd, ← ht, DueFits]
  by_cases hdue : now ≤ due
  · by_cases hlt : due - now < 2 ^ 31
    · have hd' := hnear hdue hlt
      have ht' : t = (due - now) / 150 := (hpos (by omega)).trans (by rw [hd'])
      refine ⟨fun _ => ⟨fun _ => hlt, fun h => by omega⟩, fun _ => ?_⟩
      split_ifs <;> omega
    · have ht' := hneg (hfar hdue (by omega))
      refine ⟨fun h => ?_, fun h => (hlt (h.1 hdue)).elim⟩
      split_ifs at h <;> omega
  · have hzero : (due - now) / 150 = 0 := by omega
    have hiff : (if t = 0 then 1 else t) = 1 ↔ -150 < d ∧ d < 300 := by
      rcases Int.lt_or_le d 0 with h | h
      · have := hneg h
        split_ifs <;> omega
      · have := hpos h
        split_ifs <;> omega
    rw [hzero]
    refine ⟨fun h => ⟨fun h' => (hdue h').elim, fun h' => (hover h').mp (hiff.mp h)⟩, fun h => ?_⟩
    exact hiff.mpr ((hover (not_le.mp hdue)).mpr (h.2 (not_le.mp hdue)))

/-! ## The items pending -/

variable {s s' : AlarmState} {q q' : WorkQueue} {w due : Nat} {work : WorkItem} {secs : BitVec 32}

theorem mem_pendingItems : w ∈ pendingItems q ↔
    w ∈ queuedItems q ∧ ∃ work, q.items w = some work ∧ work.killed = false := by
  rw [pendingItems, List.mem_filter, Option.any_eq_true]
  simp only [Bool.not_eq_true']

theorem pendingItems_congr (hqueued : queuedItems q' = queuedItems q)
    (hitems : ∀ w ∈ queuedItems q, q'.items w = q.items w) : pendingItems q' = pendingItems q := by
  rw [pendingItems, pendingItems, hqueued]
  exact List.filter_congr fun w hw => by rw [hitems w hw]

theorem eq_singleton_of_nodup {l : List Nat} (hnodup : l.Nodup) (hmem : ∀ x, x ∈ l ↔ x = w) :
    l = [w] := by
  refine List.perm_singleton.mp ((List.perm_ext_iff_of_nodup hnodup (List.nodup_singleton w)).mpr ?_)
  exact fun x => (hmem x).trans List.mem_singleton.symm

/-- What the queue looks like between the steps. -/
structure AlarmQueue (q : WorkQueue) : Prop where
  cancel : CancelInv q
  nodup : (queuedItems q).Nodup
  live : ∀ w ∈ queuedItems q, q.items w ≠ none
  hand : ∀ w, q.worker.hand = some w → w ∉ q.workList ∧ q.items w ≠ none
  resched : ∀ w r, q.worker = .running w r → r = .fresh

theorem AlarmQueue.created_not_mem (hq : AlarmQueue q) : q.created ∉ queuedItems q := fun h =>
  lt_irrefl _ (hq.cancel.fresh _ (hq.live _ h))

theorem workList_subset {q : WorkQueue} {w : Nat} (h : w ∈ q.workList) : w ∈ queuedItems q := by
  rw [queuedItems]
  split
  · exact List.mem_cons_of_mem _ h
  · exact h

/-- An item of the queue is not the current one, and so has no flag for it. -/
theorem AlarmQueue.not_current (hq : AlarmQueue q) (hw : w ∈ queuedItems q) :
    q.currentWork ≠ some w := by
  rw [hq.cancel.link]
  intro hcur
  have hout := (hq.hand w (Worker.hand_of_current hcur)).1
  cases hworker : q.worker with
  | idle => rw [hworker] at hcur; cases hcur
  | popped v k => rw [hworker] at hcur; cases hcur
  | running v r => rw [queuedItems, hworker] at hw; exact hout hw
  | skipped v => rw [queuedItems, hworker] at hw; exact hout hw

theorem AlarmQueue.not_cancelled (hq : AlarmQueue q) (hw : w ∈ queuedItems q)
    (hwork : q.items w = some work) : work.cancelled = false := by
  by_contra hflag
  have hcur := ((hq.cancel.item w work hwork).flag (by simpa using hflag)).1
  exact hq.not_current hw (hq.cancel.link.trans hcur)

/-! ### The new item -/

/-- The tick `schedule_work_delay` is asked for. -/
def alarmTick (q : WorkQueue) (secs : BitVec 32) : Nat := u32 (q.ticks + u32 (secs.toNat * 150))

def armedQueue (q : WorkQueue) (secs : BitVec 32) : WorkQueue :=
  insertWork (setItem (workCreate q) q.created
    { workAt := alarmTick q secs, cancelled := false, killed := false }) q.created

theorem armAlarm_eq (hq : AlarmQueue q) :
    armAlarm q secs =
      some (if alarmTick q secs < q.ticks then workCreate q else armedQueue q secs) := by
  have hnew : q.created ∉ q.workList := fun h => hq.created_not_mem (workList_subset h)
  have hitem : (workCreate q).items q.created =
      some { workAt := 0, cancelled := false, killed := false } := Function.update_self _ _ _
  rw [armAlarm, scheduleWorkDelay, scheduleWorkAt, hitem, Option.bind_some, ← alarmTick]
  by_cases hlt : alarmTick q secs < (workCreate q).ticks
  · rw [if_pos hlt, if_pos (show alarmTick q secs < q.ticks from hlt)]
    rfl
  · rw [if_neg hlt, if_neg (show ¬alarmTick q secs < q.ticks from hlt), scheduleWork, if_neg]
    · rfl
    · rintro (hlock | hmem)
      · exact Bool.false_ne_true (hq.cancel.lock.symm.trans hlock)
      · exact hnew hmem

theorem AlarmQueue.create (hq : AlarmQueue q) : AlarmQueue (workCreate q) := by
  have hother : ∀ w, w < q.created → (workCreate q).items w = q.items w := fun w hw =>
    setItem_of_ne hw.ne
  refine ⟨hq.cancel.workCreate, hq.nodup, fun w hw => ?_, fun w hw => ?_, hq.resched⟩
  · have hlive := hq.live w hw
    rw [hother w (hq.cancel.fresh w hlive)]
    exact hlive
  · obtain ⟨hout, hlive⟩ := hq.hand w hw
    refine ⟨hout, ?_⟩
    rw [hother w (hq.cancel.fresh w hlive)]
    exact hlive

theorem pendingItems_create (hq : AlarmQueue q) : pendingItems (workCreate q) = pendingItems q :=
  pendingItems_congr rfl fun _ hw => setItem_of_ne (hq.cancel.fresh _ (hq.live _ hw)).ne

theorem armed_item (q : WorkQueue) (secs : BitVec 32) :
    (armedQueue q secs).items q.created =
      some { workAt := alarmTick q secs, cancelled := false, killed := false } :=
  setItem_self _ _ _

theorem armed_item_of_ne (secs : BitVec 32) (h : w ≠ q.created) :
    (armedQueue q secs).items w = q.items w :=
  (setItem_of_ne h).trans (setItem_of_ne h)

theorem armed_perm (q : WorkQueue) (secs : BitVec 32) :
    (armedQueue q secs).workList.Perm (q.created :: q.workList) :=
  listInsertOrdered_perm _ _ _

theorem armed_queued_perm (q : WorkQueue) (secs : BitVec 32) :
    (queuedItems (armedQueue q secs)).Perm (q.created :: queuedItems q) := by
  have hworker : (armedQueue q secs).worker = q.worker := rfl
  have hperm := armed_perm q secs
  cases hcase : q.worker with
  | popped v k =>
      rw [queuedItems, queuedItems, hworker, hcase]
      exact (hperm.cons v).trans (List.Perm.swap _ _ _)
  | idle => rw [queuedItems, queuedItems, hworker, hcase]; exact hperm
  | running v r => rw [queuedItems, queuedItems, hworker, hcase]; exact hperm
  | skipped v => rw [queuedItems, queuedItems, hworker, hcase]; exact hperm

theorem AlarmQueue.arm (hq : AlarmQueue q) (secs : BitVec 32) : AlarmQueue (armedQueue q secs) := by
  have hperm := armed_queued_perm q secs
  have hold : ∀ w, q.items w ≠ none → (armedQueue q secs).items w ≠ none := fun w hw => by
    rwa [armed_item_of_ne secs (hq.cancel.fresh w hw).ne]
  constructor
  case cancel =>
    refine CancelInv.insertWork (hq.create.cancel.setItem _ (Nat.lt_succ_self _) ?_) _
    have hno : q.worker.current ≠ some q.created := fun hcur =>
      lt_irrefl _ (hq.cancel.busy _ (Worker.hand_of_current hcur))
    refine ⟨(fun h => by cases h), fun ⟨e, he, hcancels⟩ => ?_, fun hcur => (hno hcur).elim⟩
    exact absurd (hq.cancel.born e he _ hcancels) (lt_irrefl _)
  case nodup =>
    exact hperm.nodup_iff.mpr (List.nodup_cons.mpr ⟨hq.created_not_mem, hq.nodup⟩)
  case live =>
    intro w hw
    rcases List.mem_cons.mp (hperm.mem_iff.mp hw) with rfl | hw
    · rw [armed_item]
      exact Option.some_ne_none _
    · exact hold w (hq.live w hw)
  case hand =>
    intro w hw
    obtain ⟨hout, hlive⟩ := hq.hand w hw
    refine ⟨fun hmem => ?_, hold w hlive⟩
    rcases List.mem_cons.mp ((armed_perm q secs).mem_iff.mp hmem) with rfl | hmem
    · exact lt_irrefl _ (hq.cancel.fresh _ hlive)
    · exact hout hmem
  case resched => exact hq.resched

theorem pendingItems_arm (hq : AlarmQueue q) (hnone : pendingItems q = []) :
    pendingItems (armedQueue q secs) = [q.created] := by
  refine eq_singleton_of_nodup ((hq.arm secs).nodup.filter _) fun x => ?_
  rw [mem_pendingItems, (armed_queued_perm q secs).mem_iff, List.mem_cons]
  constructor
  · rintro ⟨rfl | hx, work, hwork, hkilled⟩
    · rfl
    · have hne : x ≠ q.created := fun h => hq.created_not_mem (h ▸ hx)
      rw [armed_item_of_ne secs hne] at hwork
      have hmem : x ∈ pendingItems q := mem_pendingItems.mpr ⟨hx, work, hwork, hkilled⟩
      rw [hnone] at hmem
      cases hmem
  · rintro rfl
    exact ⟨.inl rfl, _, armed_item q secs, rfl⟩

theorem pendingAt_arm (hq : AlarmQueue q) (hnone : pendingItems q = []) :
    pendingAt (armedQueue q secs) = [alarmTick q secs] := by
  rw [pendingAt, pendingItems_arm hq hnone, List.map_singleton, workAtOf_eq (armed_item q secs)]

/-! ### The old item -/

/-- The queue after `work_cancel` of a queued item. -/
def killedQueue (q : WorkQueue) (w : Nat) (work : WorkItem) : WorkQueue :=
  logWork (setItem q w { work with killed := true }) (.cancelled w)

theorem workCancel_queued (hq : AlarmQueue q) (hw : w ∈ queuedItems q)
    (hwork : q.items w = some work) : workCancel q w = some (killedQueue q w work) := by
  rw [workCancel, hq.cancel.lock, if_neg Bool.false_ne_true, hwork, Option.map_some,
    if_neg (hq.not_current hw), if_neg (Bool.eq_false_iff.mp (hq.not_cancelled hw hwork))]
  rfl

/-- `work_cancel` of whatever item. -/
theorem AlarmQueue.workCancel (hq : AlarmQueue q) (hcancel : Kernel.workCancel q w = some q') :
    AlarmQueue q' := by
  have htime : q.worker.pastTest w = false := by
    cases hworker : q.worker with
    | running v r => rw [hq.resched v r hworker]; simp [Worker.pastTest]
    | _ => rfl
  have hinv := hq.cancel.workCancel htime hcancel
  have hframe : ∀ work' : WorkItem, ∀ v, q.items v ≠ none → (setItem q w work').items v ≠ none := by
    intro work' v hv
    by_cases hvw : v = w
    · rw [hvw, setItem_self]
      exact Option.some_ne_none _
    · rwa [setItem_of_ne hvw]
  obtain ⟨work, hwork, -, ⟨-, rfl⟩ | ⟨-, -, rfl⟩ | ⟨-, -, rfl⟩⟩ := workCancel_some hcancel
  · exact ⟨hinv, hq.nodup, fun v hv => hframe _ v (hq.live v hv),
      fun v hv => ⟨(hq.hand v hv).1, hframe _ v (hq.hand v hv).2⟩, hq.resched⟩
  · exact ⟨hinv, hq.nodup, hq.live, hq.hand, hq.resched⟩
  · exact ⟨hinv, hq.nodup, fun v hv => hframe _ v (hq.live v hv),
      fun v hv => ⟨(hq.hand v hv).1, hframe _ v (hq.hand v hv).2⟩, hq.resched⟩

/-- Nothing is pending once the one pending item is cancelled. -/
theorem pendingItems_kill (hpend : pendingItems q = [w]) (work : WorkItem) :
    pendingItems (killedQueue q w work) = [] := by
  refine List.eq_nil_iff_forall_not_mem.mpr fun x hx => ?_
  obtain ⟨hqueued, work', hwork', hkilled⟩ := mem_pendingItems.mp hx
  change (setItem q w _).items x = some work' at hwork'
  by_cases hxw : x = w
  · rw [hxw, setItem_self] at hwork'
    rw [← Option.some.inj hwork'] at hkilled
    cases hkilled
  · rw [setItem_of_ne hxw] at hwork'
    have hmem : x ∈ pendingItems q := mem_pendingItems.mpr ⟨hqueued, work', hwork', hkilled⟩
    rw [hpend] at hmem
    exact hxw (List.mem_singleton.mp hmem)

/-! ## The invariant -/

/-- No alarm is pending: `alarm_work`, if set, points to an item that the
worker has taken. -/
structure AlarmDone (s : AlarmState) : Prop where
  pending : pendingItems s.queue = []
  alarm : s.alarm = none
  gone : ∀ w, s.alarmWork = some w → w < s.queue.created ∧ w ∉ queuedItems s.queue

/-- The alarm for `due` is pending. -/
structure AlarmWaiting (s : AlarmState) (w due : Nat) : Prop where
  mine : s.alarmWork = some w
  pending : pendingItems s.queue = [w]
  alarm : s.alarm = some due
  at_due : workAtOf s.queue w = u32 due
  epoch : due / 2 ^ 32 ≤ s.now / 2 ^ 32
  late : ∀ k, s.queue.worker = .popped w k → due < s.now

theorem AlarmWaiting.not_killed (h : AlarmWaiting s w due) :
    w ∈ queuedItems s.queue ∧ ∃ work, s.queue.items w = some work ∧ work.killed = false := by
  refine mem_pendingItems.mp ?_
  rw [h.pending]
  exact List.mem_singleton_self w

theorem AlarmWaiting.mem (h : AlarmWaiting s w due) : w ∈ queuedItems s.queue := h.not_killed.1

structure AlarmInv (s : AlarmState) : Prop where
  queue : AlarmQueue s.queue
  ticks : s.queue.ticks = u32 s.now
  phase : AlarmDone s ∨ ∃ w due, AlarmWaiting s w due

theorem alarmInit_inv (now : Nat) : AlarmInv (alarmInit now) := by
  refine ⟨⟨cancelInv_workInit _, List.nodup_nil, fun _ hw => ?_, (fun _ hw => by cases hw),
    (fun _ _ hw => by cases hw)⟩, rfl, .inl ⟨rfl, rfl, (fun _ hw => by cases hw)⟩⟩
  exact (List.not_mem_nil hw).elim

theorem AlarmInv.pending_le_one (hs : AlarmInv s) : (pendingItems s.queue).length ≤ 1 := by
  rcases hs.phase with hdone | ⟨w, due, hwait⟩
  · rw [hdone.pending]
    exact Nat.zero_le 1
  · rw [hwait.pending]
    exact Nat.le_refl 1

/-! ## The steps of the worker -/

theorem AlarmQueue.tick (hq : AlarmQueue q) (n : Nat) : AlarmQueue { q with ticks := n } :=
  ⟨⟨hq.cancel.fresh, hq.cancel.born, hq.cancel.busy, hq.cancel.link, hq.cancel.item, hq.cancel.lock,
    hq.cancel.sticks⟩, hq.nodup, hq.live, hq.hand, hq.resched⟩

/-- The clock moves on. -/
theorem AlarmInv.tick (hs : AlarmInv s) (hstep : alarmStep s .tick = some s') : AlarmInv s' := by
  rw [alarmStep, workStep, Option.map_some] at hstep
  obtain rfl := Option.some.inj hstep
  refine ⟨hs.queue.tick _, ?_, ?_⟩
  · show u32 (s.queue.ticks + 1) = u32 (s.now + 1)
    rw [hs.ticks, u32, u32, u32, Nat.mod_add_mod]
  rcases hs.phase with hdone | ⟨w, due, hwait⟩
  · exact .inl ⟨hdone.pending, hdone.alarm, hdone.gone⟩
  · exact .inr ⟨w, due, hwait.mine, hwait.pending, hwait.alarm, hwait.at_due,
      hwait.epoch.trans (Nat.div_le_div_right (Nat.le_succ _)),
      fun k hk => (hwait.late k hk).trans (Nat.lt_succ_self _)⟩

/-- A popped item is due. -/
theorem due_lt_now {due now : Nat} (hepoch : due / 2 ^ 32 ≤ now / 2 ^ 32) (hlt : u32 due < u32 now) :
    due < now := by
  rw [u32, u32] at hlt
  omega

theorem AlarmInv.pop (hs : AlarmInv s) (hstep : alarmStep s .pop = some s') : AlarmInv s' := by
  obtain ⟨q, hpop, rfl⟩ := Option.map_eq_some_iff.mp hstep
  have hcancel := cancelInv_step s.queue .pop q hs.queue.cancel trivial hpop
  obtain ⟨hidle, hpop⟩ : s.queue.worker = .idle ∧ workerPop s.queue = some q := by
    cases workStep_some hpop with
    | pop hidle h => exact ⟨hidle, h⟩
  rcases workerPop_some hpop with rfl | ⟨v, rest, work, hlist, hwork, hlate, rfl⟩
  · exact hs
  have hsame : queuedItems { s.queue with
      workList := rest, worker := .popped v (s.queue.pending v) } = queuedItems s.queue := by
    rw [queuedItems, queuedItems, hidle, hlist]
  have hpend := pendingItems_congr hsame fun _ _ => rfl
  have hnodup := hs.queue.nodup
  rw [queuedItems, hidle, hlist] at hnodup
  refine ⟨⟨hcancel, hsame ▸ hs.queue.nodup, fun w hw => hs.queue.live w (hsame ▸ hw), ?_, ?_⟩,
    hs.ticks, ?_⟩
  · intro w hw
    obtain rfl := Option.some.inj hw
    refine ⟨(List.nodup_cons.mp hnodup).1, ?_⟩
    show s.queue.items v ≠ none
    rw [hwork]
    exact Option.some_ne_none _
  · exact fun _ _ hw => by cases hw
  rcases hs.phase with hdone | ⟨w, due, hwait⟩
  · exact .inl ⟨hpend.trans hdone.pending, hdone.alarm,
      fun w hw => ⟨(hdone.gone w hw).1, fun hmem => (hdone.gone w hw).2 (hsame ▸ hmem)⟩⟩
  · refine .inr ⟨w, due, hwait.mine, hpend.trans hwait.pending, hwait.alarm, hwait.at_due,
      hwait.epoch, fun k hk => ?_⟩
    obtain rfl : v = w := by cases hk; rfl
    refine due_lt_now hwait.epoch ?_
    rw [← hs.ticks, ← hwait.at_due, workAtOf_eq hwork]
    exact hlate

/-- The prologue takes `v` off the queue and changes no other item. -/
structure TakesOff (q q' : WorkQueue) (v k : Nat) (work : WorkItem) : Prop where
  popped : q.worker = .popped v k
  item : q.items v = some work
  list : q'.workList = q.workList
  queued : queuedItems q' = q.workList
  other : ∀ x, x ≠ v → q'.items x = q.items x
  self : q'.items v ≠ none
  hand : q'.worker.hand = some v
  resched : ∀ w r, q'.worker = .running w r → r = .fresh
  ticks : q'.ticks = q.ticks
  created : q'.created = q.created

/-- An item that is not killed goes to its callback. -/
theorem prologue_cases (hstep : workStep q .prologue = some q') :
    ∃ v k work, TakesOff q q' v k work ∧ delivers q = !work.killed := by
  cases workStep_some hstep with
  | @prologue v k _ hpopped h =>
      obtain ⟨work, hwork, rfl⟩ := Option.map_eq_some_iff.mp h
      refine ⟨v, k, work, ?_, by rw [delivers, hpopped]; simp [hwork]⟩
      cases hkilled : work.killed with
      | true =>
          exact ⟨hpopped, hwork, rfl, rfl, fun _ _ => rfl,
            by rw [if_pos rfl, hwork]; exact Option.some_ne_none _, rfl,
            (fun _ _ h => by cases h), rfl, rfl⟩
      | false =>
          refine ⟨hpopped, hwork, rfl, rfl, fun x hx => setItem_of_ne hx, ?_, rfl,
            (fun _ _ h => by cases h; rfl), rfl, rfl⟩
          show (setItem q v _).items v ≠ none
          rw [setItem_self]
          exact Option.some_ne_none _

section TakesOff

variable {v k : Nat}

theorem TakesOff.queued_eq (h : TakesOff q q' v k work) : queuedItems q = v :: queuedItems q' := by
  rw [h.queued, queuedItems, h.popped]

theorem TakesOff.not_mem (h : TakesOff q q' v k work) (hq : AlarmQueue q) : v ∉ queuedItems q' := by
  have hnodup := hq.nodup
  rw [h.queued_eq] at hnodup
  exact (List.nodup_cons.mp hnodup).1

theorem TakesOff.keeps (h : TakesOff q q' v k work) (hq : AlarmQueue q) (hcancel : CancelInv q') :
    AlarmQueue q' := by
  have hout := h.not_mem hq
  have hnodup := hq.nodup
  rw [h.queued_eq] at hnodup
  refine ⟨hcancel, (List.nodup_cons.mp hnodup).2, fun x hx => ?_, fun x hx => ?_, h.resched⟩
  · rw [h.other x (ne_of_mem_of_not_mem hx hout)]
    exact hq.live x (h.queued_eq ▸ List.mem_cons_of_mem v hx)
  · obtain rfl : v = x := Option.some.inj (h.hand.symm.trans hx)
    exact ⟨fun hmem => hout (workList_subset hmem), h.self⟩

/-- What was pending is the item taken off, unless it was killed, and what is
pending now. -/
theorem TakesOff.pending (h : TakesOff q q' v k work) (hq : AlarmQueue q) :
    pendingItems q = if work.killed then pendingItems q' else v :: pendingItems q' := by
  have hsame : ((queuedItems q').filter fun w => (q.items w).any fun work => !work.killed) =
      pendingItems q' := by
    refine List.filter_congr fun x hx => ?_
    rw [h.other x (ne_of_mem_of_not_mem hx (h.not_mem hq))]
  rw [pendingItems, h.queued_eq, List.filter_cons, h.item, hsame]
  cases hkilled : work.killed <;> simp [hkilled]

end TakesOff

theorem AlarmInv.prologue (hs : AlarmInv s) (hstep : alarmStep s .prologue = some s') :
    AlarmInv s' ∧ (s'.sent ≠ s.sent → ∃ due, s.alarm = some due ∧ due < s.now) := by
  obtain ⟨q, hpro, rfl⟩ := Option.map_eq_some_iff.mp hstep
  have hcancel := cancelInv_step s.queue .prologue q hs.queue.cancel trivial hpro
  obtain ⟨v, k, work, htakes, hdel⟩ := prologue_cases hpro
  have hqueue := htakes.keeps hs.queue hcancel
  have hpend := htakes.pending hs.queue
  have hticks : q.ticks = u32 s.now := htakes.ticks.trans hs.ticks
  cases hkilled : work.killed with
  | true =>
      rw [hkilled, if_pos rfl] at hpend
      rw [hdel, hkilled, if_neg (by decide)]
      refine ⟨⟨hqueue, hticks, ?_⟩, fun h => (h rfl).elim⟩
      rcases hs.phase with hdone | ⟨w, due, hwait⟩
      · refine .inl ⟨hpend.symm.trans hdone.pending, hdone.alarm, fun w hw => ?_⟩
        obtain ⟨hlt, hout⟩ := hdone.gone w hw
        refine ⟨htakes.created ▸ hlt, fun hmem => hout ?_⟩
        rw [htakes.queued_eq]
        exact List.mem_cons_of_mem v hmem
      · have hne : w ≠ v := by
          rintro rfl
          obtain ⟨-, work', hwork', hnot⟩ := hwait.not_killed
          rw [htakes.item] at hwork'
          rw [← Option.some.inj hwork', hkilled] at hnot
          cases hnot
        refine .inr ⟨w, due, hwait.mine, hpend.symm.trans hwait.pending, hwait.alarm, ?_, hwait.epoch,
          fun k' hk' => ?_⟩
        · rw [← hwait.at_due, workAtOf, workAtOf, htakes.other w hne]
        · have hhand := htakes.hand
          rw [hk'] at hhand
          exact (hne (Option.some.inj hhand)).elim
  | false =>
      rw [hkilled, if_neg Bool.false_ne_true] at hpend
      rw [hdel, hkilled, if_pos (by decide)]
      rcases hs.phase with hdone | ⟨w, due, hwait⟩
      · rw [hdone.pending] at hpend
        cases hpend
      · rw [hwait.pending] at hpend
        obtain ⟨rfl, hnone⟩ := List.cons.inj hpend
        refine ⟨⟨hqueue, hticks, .inl ⟨hnone.symm, rfl, fun x hx => ?_⟩⟩,
          fun _ => ⟨due, hwait.alarm, hwait.late k htakes.popped⟩⟩
        obtain rfl : w = x := Option.some.inj (hwait.mine.symm.trans hx)
        refine ⟨?_, htakes.not_mem hs.queue⟩
        show w < q.created
        rw [htakes.created]
        exact hs.queue.cancel.fresh w (hs.queue.live w hwait.mem)

/-- The epilogue lets go of an item that is not queued. -/
theorem epilogue_frame (hq : AlarmQueue q) (hstep : workStep q .epilogue = some q') :
    queuedItems q' = queuedItems q ∧ q'.workList = q.workList ∧ q'.worker = .idle ∧
      q'.ticks = q.ticks ∧ q'.created = q.created ∧
      ∀ w ∈ queuedItems q, q'.items w = q.items w := by
  have hframe : ∀ v q'', q.worker.hand = some v → queuedItems q = q.workList →
      doWorkEpilogue q v = some q'' →
      queuedItems q'' = queuedItems q ∧ q''.workList = q.workList ∧ q''.worker = .idle ∧
        q''.ticks = q.ticks ∧ q''.created = q.created ∧
        ∀ w ∈ queuedItems q, q''.items w = q.items w := by
    intro v q'' hhand hqueued hend
    obtain ⟨work, hwork, rfl⟩ := Option.map_eq_some_iff.mp hend
    refine ⟨hqueued.symm, rfl, rfl, rfl, rfl, fun w hw => ?_⟩
    rw [hqueued] at hw
    have hne : w ≠ v := fun h => (hq.hand v hhand).1 (h ▸ hw)
    show (if work.killed then Function.update q.items v none else q.items) w = _
    split
    · exact Function.update_of_ne hne _ _
    · rfl
  cases workStep_some hstep with
  | @returned v r q'' hrun hend =>
      exact hframe v q'' (by rw [hrun]; rfl) (by rw [queuedItems, hrun]) hend
  | @skipped v _ hskip hend =>
      exact hframe v q' (by rw [hskip]; rfl) (by rw [queuedItems, hskip]) hend

theorem AlarmInv.epilogue (hs : AlarmInv s) (hstep : alarmStep s .epilogue = some s') : AlarmInv s' := by
  obtain ⟨q, hepi, rfl⟩ := Option.map_eq_some_iff.mp hstep
  have hcancel := cancelInv_step s.queue .epilogue q hs.queue.cancel trivial hepi
  obtain ⟨hqueued, hlist, hidle, hticks, hcreated, hitems⟩ := epilogue_frame hs.queue hepi
  have hpend := pendingItems_congr hqueued hitems
  refine ⟨⟨hcancel, hqueued ▸ hs.queue.nodup, fun w hw => ?_, fun w hw => ?_, fun w r hw => ?_⟩,
    hticks.trans hs.ticks, ?_⟩
  · rw [hqueued] at hw
    rw [hitems w hw]
    exact hs.queue.live w hw
  · rw [hidle] at hw
    cases hw
  · rw [hidle] at hw
    cases hw
  rcases hs.phase with hdone | ⟨w, due, hwait⟩
  · exact .inl ⟨hpend.trans hdone.pending, hdone.alarm,
      fun w hw => ⟨hcreated ▸ (hdone.gone w hw).1, fun hmem => (hdone.gone w hw).2 (hqueued ▸ hmem)⟩⟩
  · refine .inr ⟨w, due, hwait.mine, hpend.trans hwait.pending, hwait.alarm, ?_, hwait.epoch,
      fun k hk => ?_⟩
    · rw [← hwait.at_due, workAtOf, workAtOf, hitems w hwait.mem]
    · have hk' := hidle.symm.trans hk
      cases hk'

/-! ## The calls -/

/-- Whether the new item is in the list as it should be. -/
theorem arm_right_iff (secs : BitVec 32) (hq : AlarmQueue q) (hnone : pendingItems q = []) (hticks : q.ticks < 2 ^ 32) :
    pendingAt (if alarmTick q secs < q.ticks then workCreate q else armedQueue q secs) =
        (if secs = 0 then [] else [q.ticks + 150 * secs.toNat]) ↔
      secs ≠ 0 ∧ q.ticks + 150 * secs.toNat < 2 ^ 32 := by
  have hzero : secs = 0 ↔ secs.toNat = 0 := by
    rw [← BitVec.toNat_inj]
    rfl
  have htick : alarmTick q secs = (q.ticks + 150 * secs.toNat) % 2 ^ 32 := by
    rw [alarmTick, u32, u32, Nat.add_mod_mod, Nat.mul_comm]
  by_cases hlt : alarmTick q secs < q.ticks
  · have hcreate : pendingAt (workCreate q) = [] := by
      rw [pendingAt, pendingItems_create hq, hnone]
      rfl
    rw [if_pos hlt, hcreate]
    constructor
    · intro h
      split at h
      · next h0 => rw [hzero.mp h0] at htick; omega
      · cases h
    · rintro ⟨-, hfit⟩
      rw [Nat.mod_eq_of_lt hfit] at htick
      omega
  · rw [if_neg hlt, pendingAt_arm hq hnone]
    constructor
    · intro h
      split at h
      · cases h
      · next h0 =>
          have heq := (List.cons.inj h).1
          exact ⟨h0, by omega⟩
    · rintro ⟨h0, hfit⟩
      rw [if_neg h0, htick, Nat.mod_eq_of_lt hfit]

theorem pendingItems_armed_le (hq : AlarmQueue q) (hnone : pendingItems q = []) :
    (pendingItems (if alarmTick q secs < q.ticks then workCreate q else armedQueue q secs)).length ≤
      1 := by
  split
  · rw [pendingItems_create hq, hnone]
    exact Nat.zero_le 1
  · rw [pendingItems_arm hq hnone]
    exact Nat.le_refl 1

/-- A call whose first half goes through and leaves nothing pending. -/
theorem sysAlarm_eq (secs : BitVec 32) {rc : Int} (hcancel : cancelAlarm s = some (q, rc))
    (hq : AlarmQueue q) :
    sysAlarm s secs = some ({ s with
      queue := if alarmTick q secs < q.ticks then workCreate q else armedQueue q secs
      alarmWork := some q.created
      alarm := if secs = 0 then none else some (s.now + 150 * secs.toNat) }, rc) := by
  rw [sysAlarm, hcancel, Option.bind_some, armAlarm_eq hq]
  rfl

theorem alarmRight_call_iff {rc : Int} (hcancel : cancelAlarm s = some (q, rc)) (hq : AlarmQueue q)
    (hnone : pendingItems q = []) (hticks : q.ticks = s.queue.ticks) (hlt : s.queue.ticks < 2 ^ 32)
    (hlive : ∀ w, s.alarmWork = some w → s.queue.items w ≠ none) :
    AlarmRight s (.call secs) ↔
      rc = remaining s ∧ secs ≠ 0 ∧ s.queue.ticks + 150 * secs.toNat < 2 ^ 32 := by
  have heq := sysAlarm_eq secs hcancel hq
  have hiff := arm_right_iff secs hq hnone (hticks ▸ hlt)
  rw [hticks] at hiff
  constructor
  · intro h
    obtain ⟨hrc, hat⟩ := h.call secs rfl _ _ heq
    exact ⟨hrc, hiff.mp (by rw [← hticks]; rw [← hticks] at hat; exact hat)⟩
  · rintro ⟨hrc, hok⟩
    have hstep : ∀ s', alarmStep s (.call secs) = some s' → s'.sent = s.sent ∧
        s'.queue = if alarmTick q secs < q.ticks then workCreate q else armedQueue q secs := by
      intro s' h
      rw [alarmStep, heq, Option.map_some] at h
      obtain rfl := Option.some.inj h
      exact ⟨rfl, rfl⟩
    refine ⟨fun s' h => ?_, fun s' h hsent => (hsent (hstep s' h).1).elim, fun _ _ => hlive,
      fun secs' hsecs s' rc' h => ?_⟩
    · rw [(hstep s' h).2]
      exact pendingItems_armed_le hq hnone
    · cases hsecs
      rw [heq] at h
      cases h
      refine ⟨hrc, ?_⟩
      have hat := hiff.mpr hok
      rw [← hticks] at hat ⊢
      exact hat

/-- The first half of a call finds no alarm, one that the worker has taken, or
the pending one. -/
theorem AlarmInv.cancelAlarm_cases (hs : AlarmInv s) :
    (s.alarmWork = none ∧ AlarmDone s ∧ cancelAlarm s = some (s.queue, 0)) ∨
    (∃ w, s.alarmWork = some w ∧ AlarmDone s ∧ w ∉ queuedItems s.queue ∧
      (s.queue.items w = none ∨ ∃ q rc, cancelAlarm s = some (q, rc) ∧ rc ≠ 0 ∧ AlarmQueue q)) ∨
    (∃ w due work, AlarmWaiting s w due ∧ s.queue.items w = some work ∧
      cancelAlarm s = some (killedQueue s.queue w work, alarmRc (u32 due) (u32 s.now))) := by
  rcases hs.phase with hdone | ⟨w, due, hwait⟩
  · cases hmine : s.alarmWork with
    | none => exact .inl ⟨rfl, hdone, by rw [cancelAlarm, hmine]⟩
    | some w =>
        refine .inr (.inl ⟨w, rfl, hdone, (hdone.gone w hmine).2, ?_⟩)
        cases hwork : s.queue.items w with
        | none => exact .inl rfl
        | some work =>
            obtain ⟨q, hq⟩ : ∃ q, workCancel s.queue w = some q := by
              rw [workCancel, hs.queue.cancel.lock, if_neg Bool.false_ne_true, hwork]
              exact ⟨_, rfl⟩
            refine .inr ⟨q, alarmRc work.workAt s.queue.ticks, ?_, ?_, hs.queue.workCancel hq⟩
            · rw [cancelAlarm, hmine]
              simp only [hwork, hq, Option.bind_some, Option.map_some]
            · rw [alarmRc]
              split
              · decide
              · assumption
  · obtain ⟨work, hwork⟩ := Option.ne_none_iff_exists'.mp (hs.queue.live w hwait.mem)
    refine .inr (.inr ⟨w, due, work, hwait, hwork, ?_⟩)
    have hat : work.workAt = u32 due := (workAtOf_eq hwork).symm.trans hwait.at_due
    rw [cancelAlarm, hwait.mine]
    simp only [hwork, workCancel_queued hs.queue hwait.mem hwork, Option.bind_some, Option.map_some,
      hat, hs.ticks]

/-- A call goes right exactly when it is used right. -/
theorem AlarmInv.call_iff (hs : AlarmInv s) :
    AlarmRight s (.call secs) ↔ AlarmUse s (.call secs) := by
  have hlt : s.queue.ticks < 2 ^ 32 := hs.ticks ▸ u32_lt _
  rcases hs.cancelAlarm_cases with ⟨hmine, hdone, hcancel⟩ | ⟨w, hmine, hdone, hout, hcase⟩ |
    ⟨w, due, work, hwait, hwork, hcancel⟩
  · have hno : ∀ w, s.alarmWork ≠ some w := fun w => by rw [hmine]; exact nofun
    rw [alarmRight_call_iff hcancel hs.queue hdone.pending rfl hlt fun w h => (hno w h).elim]
    have hzero : remaining s = 0 := by rw [remaining, hdone.alarm]
    exact ⟨fun h => ⟨h.2.1, h.2.2, fun w h => (hno w h).elim⟩, fun h => ⟨hzero.symm, h.1, h.2.1⟩⟩
  · constructor
    · intro h
      rcases hcase with hnone | ⟨q, rc, hcancel, hrc, hq⟩
      · exact (h.live secs rfl w hmine hnone).elim
      · have hzero := (h.call secs rfl _ _ (sysAlarm_eq secs hcancel hq)).1
        rw [remaining, hdone.alarm] at hzero
        exact (hrc hzero).elim
    · exact fun h => (hout (h.2.2 w hmine).1).elim
  · have hlive : ∀ v, s.alarmWork = some v → s.queue.items v ≠ none := fun v hv => by
      obtain rfl : w = v := Option.some.inj (hwait.mine.symm.trans hv)
      exact hs.queue.live w hwait.mem
    have hrc : alarmRc (u32 due) (u32 s.now) = remaining s ↔ DueFits due s.now := by
      rw [remaining, hwait.alarm]
      exact alarmRc_iff hwait.epoch
    rw [alarmRight_call_iff hcancel (hs.queue.workCancel (workCancel_queued hs.queue hwait.mem hwork))
      (pendingItems_kill hwait.pending work) rfl hlt hlive, hrc]
    constructor
    · rintro ⟨hfit, h0, hroom⟩
      refine ⟨h0, hroom, fun v hv => ?_⟩
      obtain rfl : w = v := Option.some.inj (hwait.mine.symm.trans hv)
      exact ⟨hwait.mem, due, hwait.alarm, hfit⟩
    · rintro ⟨h0, hroom, hwaits⟩
      obtain ⟨-, due', hdue', hfit⟩ := hwaits w hwait.mine
      obtain rfl : due = due' := Option.some.inj (hwait.alarm.symm.trans hdue')
      exact ⟨hfit, h0, hroom⟩

/-- A call that is used right leaves its alarm pending. -/
theorem AlarmInv.call (hs : AlarmInv s) (huse : AlarmUse s (.call secs))
    (hstep : alarmStep s (.call secs) = some s') : AlarmInv s' := by
  obtain ⟨h0, hroom, hwaits⟩ := huse
  obtain ⟨q, rc, hcancel, hq, hnone, hticks⟩ : ∃ q rc, cancelAlarm s = some (q, rc) ∧ AlarmQueue q ∧
      pendingItems q = [] ∧ q.ticks = s.queue.ticks := by
    rcases hs.cancelAlarm_cases with ⟨hmine, hdone, hcancel⟩ | ⟨w, hmine, hdone, hout, hcase⟩ |
      ⟨w, due, work, hwait, hwork, hcancel⟩
    · exact ⟨_, _, hcancel, hs.queue, hdone.pending, rfl⟩
    · exact (hout (hwaits w hmine).1).elim
    · exact ⟨_, _, hcancel, hs.queue.workCancel (workCancel_queued hs.queue hwait.mem hwork),
        pendingItems_kill hwait.pending work, rfl⟩
  have htick : alarmTick q secs = s.queue.ticks + 150 * secs.toNat := by
    rw [alarmTick, hticks, u32, u32, Nat.add_mod_mod, Nat.mul_comm, Nat.mod_eq_of_lt hroom]
  rw [alarmStep, sysAlarm_eq secs hcancel hq, Option.map_some, if_neg (by omega), if_neg h0] at hstep
  obtain rfl := Option.some.inj hstep
  have hnow := hs.ticks
  refine ⟨hq.arm secs, hticks.trans hs.ticks, .inr ⟨q.created, _, rfl, pendingItems_arm hq hnone, rfl,
    ?_, ?_, ?_⟩⟩
  · show workAtOf (armedQueue q secs) q.created = _
    rw [workAtOf_eq (armed_item q secs)]
    show alarmTick q secs = _
    rw [htick, hnow, u32, u32]
    rw [hnow, u32] at hroom
    omega
  · rw [hnow, u32] at hroom
    show (s.now + 150 * secs.toNat) / 2 ^ 32 ≤ s.now / 2 ^ 32
    omega
  · intro k hk
    -- the new item is not the one the worker holds
    have hhand : q.worker.hand = some q.created := by
      rw [show q.worker = _ from hk]
      rfl
    exact absurd (hq.cancel.busy _ hhand) (lt_irrefl _)

/-! ## Runs -/

theorem AlarmInv.step (hs : AlarmInv s) {a : AlarmAct} (huse : AlarmUse s a)
    (hstep : alarmStep s a = some s') : AlarmInv s' := by
  cases a with
  | call secs => exact hs.call huse hstep
  | tick => exact hs.tick hstep
  | pop => exact hs.pop hstep
  | prologue => exact (hs.prologue hstep).1
  | epilogue => exact hs.epilogue hstep

/-- The steps of the clock and of the worker always go right. -/
theorem AlarmInv.right_iff (hs : AlarmInv s) (a : AlarmAct) : AlarmRight s a ↔ AlarmUse s a := by
  cases a with
  | call secs => exact hs.call_iff
  | tick =>
      refine ⟨fun _ => trivial, fun _ => ⟨fun s' h => (hs.tick h).pending_le_one, fun s' h hsent => ?_,
        (fun _ h => by cases h), (fun _ h => by cases h)⟩⟩
      rw [alarmStep, workStep, Option.map_some] at h
      obtain rfl := Option.some.inj h
      exact (hsent rfl).elim
  | pop =>
      refine ⟨fun _ => trivial, fun _ => ⟨fun s' h => (hs.pop h).pending_le_one, fun s' h hsent => ?_,
        (fun _ h => by cases h), (fun _ h => by cases h)⟩⟩
      obtain ⟨q, -, rfl⟩ := Option.map_eq_some_iff.mp h
      exact (hsent rfl).elim
  | prologue =>
      exact ⟨fun _ => trivial, fun _ => ⟨fun s' h => (hs.prologue h).1.pending_le_one,
        fun s' h hsent => (hs.prologue h).2 hsent, (fun _ h => by cases h), (fun _ h => by cases h)⟩⟩
  | epilogue =>
      refine ⟨fun _ => trivial, fun _ => ⟨fun s' h => (hs.epilogue h).pending_le_one,
        fun s' h hsent => ?_, (fun _ h => by cases h), (fun _ h => by cases h)⟩⟩
      obtain ⟨q, -, rfl⟩ := Option.map_eq_some_iff.mp h
      exact (hsent rfl).elim

/-- **When alarms go right.** Whatever the calls, ticks and steps of the
worker, at most one alarm is pending, signals are sent at the expiry of the
latest call only, every call returns the seconds left and consults no destroyed
item, exactly when every call is for at least one second and comes while the
alarm before it, if any, is still waiting. -/
theorem alarm_iff (now : Nat) (as : List AlarmAct) :
    StepsMeet alarmStep AlarmRight (alarmInit now) as ↔
      StepsMeet alarmStep AlarmUse (alarmInit now) as :=
  stepsMeet_congr (fun _ a hs => hs.right_iff a)
    (fun _ a _ hs hright hstep => hs.step ((hs.right_iff a).mp hright) hstep) (alarmInit_inv now)

/-- `alarm(0)` from a task without an alarm: the signal comes at the next
tick. -/
theorem alarm_zero_sends :
    ((runSteps alarmStep (alarmInit 1000) [.call 0, .tick, .pop, .prologue]).map AlarmState.sent) =
        some [1001] ∧
      ¬StepsMeet alarmStep AlarmRight (alarmInit 1000) [.call 0, .tick, .pop, .prologue] := by
  refine ⟨by decide +kernel, ?_⟩
  rintro ⟨hright, -⟩
  have hpend : (sysAlarm (alarmInit 1000) 0).map (fun r => pendingAt r.1.queue) = some [1000] := by
    decide +kernel
  obtain ⟨⟨s', rc⟩, hcall, hat⟩ := Option.map_eq_some_iff.mp hpend
  have hnone := (hright.call 0 rfl s' rc hcall).2
  rw [if_pos rfl, hat] at hnone
  cases hnone

end Levos.Kernel
