import Levos.Kernel.WorkCancel

/-!
# The work queue, seen by its users (`kernel/work.c`)

What a step of the queue leaves of an item it is not about, what it keeps of
the clock and the record, and which steps of the worker can always be taken.
-/

namespace Levos.Kernel

open Levos.Base

/-! ## Where an item is -/

/-- `w` waits in the list, or was taken out for its callback. -/
def Awaited (q : WorkQueue) (w : Nat) : Prop :=
  w ∈ q.workList ∨ ∃ k, q.worker = .popped w k

/-- An item that waits and was not taken out is in the list. -/
theorem Awaited.mem {q : WorkQueue} {w : Nat} (h : Awaited q w)
    (hworker : ∀ k, q.worker ≠ .popped w k) : w ∈ q.workList := by
  rcases h with hmem | ⟨k, hk⟩
  · exact hmem
  · exact absurd hk (hworker k)

/-- An item that the worker has taken out is not in the list. -/
theorem not_awaited_of_hand {q : WorkQueue} (hq : QueueInv q) {w : Nat} {resched : Resched}
    (hrun : q.worker = .running w resched) (hdone : resched ≠ .done) : ¬ Awaited q w := by
  have hphase := hq.phase
  rw [PhaseInv, hrun] at hphase
  rintro (hmem | ⟨k, hk⟩)
  · exact hdone (hphase.2.1 hmem)
  · cases hrun.symm.trans hk

/-- The item in the worker's hands was created. -/
theorem QueueInv.hand_lt {q : WorkQueue} (h : QueueInv q) {w : Nat} (hw : q.worker.hand = some w) :
    w < q.created := by
  have hitem : ∃ work, q.items w = some work := by
    have hphase := h.phase
    rw [PhaseInv] at hphase
    cases hworker : q.worker with
    | idle =>
        rw [hworker] at hw
        cases hw
    | popped v k =>
        rw [hworker] at hw hphase
        obtain rfl := Option.some.inj hw
        obtain ⟨-, -, ⟨work, hwork, -⟩, -⟩ := hphase
        exact ⟨work, hwork⟩
    | running v resched =>
        rw [hworker] at hw hphase
        obtain rfl := Option.some.inj hw
        obtain ⟨-, -, work, hwork, -⟩ := hphase
        exact ⟨work, hwork⟩
    | skipped v =>
        rw [hworker] at hw hphase
        obtain rfl := Option.some.inj hw
        obtain ⟨-, -, work, hwork, -⟩ := hphase
        exact ⟨work, hwork⟩
  obtain ⟨work, hwork⟩ := hitem
  exact h.list.fresh w (by rw [hwork]; exact Option.some_ne_none _)

/-! ## The queue, seen from one item -/

/-- Nothing has happened to `w` but time. -/
structure SameFor (w : Nat) (q q' : WorkQueue) : Prop where
  ticks : q.ticks ≤ q'.ticks
  awaited : Awaited q' w → Awaited q w ∧ workAtOf q' w = workAtOf q w
  running : ∀ resched, q'.worker = .running w resched → q.worker = .running w resched

/-- The action is not about `w`, in the list or in the worker's hands. -/
def Beyond (q : WorkQueue) (w : Nat) : WorkAct → Prop
  | .scheduleAt v _ | .scheduleDelay v _ _ => v ≠ w
  | .prologue => ∀ k, q.worker ≠ .popped w k
  | .rescheduleTest | .reschedule _ _ => ∀ resched, q.worker ≠ .running w resched
  | _ => True

theorem workAtOf_congr {q q' : WorkQueue} {w : Nat} (h : q'.items w = q.items w) :
    workAtOf q' w = workAtOf q w := by
  rw [workAtOf, workAtOf, h]

theorem workAtOf_setItem_of_ne {q : WorkQueue} {v w : Nat} (work : WorkItem) (h : w ≠ v) :
    workAtOf (setItem q v work) w = workAtOf q w := workAtOf_congr (setItem_of_ne h)

/-- Scheduling an item, with the test of the tick. -/
theorem scheduleWorkAt_cases {q q' : WorkQueue} {w abs : Nat} {r : Int}
    (h : scheduleWorkAt q w abs = some (q', r)) :
    ∃ work, q.items w = some work ∧
      (q' = q ∨ q.ticks ≤ abs ∧ w ∉ q.workList ∧
        q' = insertWork (setItem q w { work with workAt := abs }) w) := by
  obtain ⟨work, hwork, h⟩ := Option.bind_eq_some_iff.mp h
  refine ⟨work, hwork, ?_⟩
  split at h
  · cases h
    exact .inl rfl
  · next hlate =>
      obtain ⟨p, hp, heq⟩ := Option.map_eq_some_iff.mp h
      cases heq
      obtain ⟨-, hlist, rfl⟩ := scheduleWork_some hp
      exact .inr ⟨not_lt.mp hlate, hlist, rfl⟩

theorem scheduleWorkAt_ticks {q q' : WorkQueue} {w abs : Nat} {r : Int}
    (h : scheduleWorkAt q w abs = some (q', r)) : q'.ticks = q.ticks ∧ q'.created = q.created := by
  obtain ⟨work, -, rfl | ⟨-, -, rfl⟩⟩ := scheduleWorkAt_cases h
  · exact ⟨rfl, rfl⟩
  · exact ⟨rfl, rfl⟩

theorem scheduleWorkAt_same {q q' : WorkQueue} {v w abs : Nat} {r : Int}
    (h : scheduleWorkAt q v abs = some (q', r)) (hne : v ≠ w) : SameFor w q q' := by
  obtain ⟨work, -, rfl | ⟨-, -, rfl⟩⟩ := scheduleWorkAt_cases h
  · exact ⟨le_rfl, fun hw => ⟨hw, rfl⟩, fun _ hrun => hrun⟩
  · refine ⟨le_rfl, fun hw => ⟨?_, workAtOf_setItem_of_ne _ hne.symm⟩, fun _ hrun => hrun⟩
    rcases hw with hmem | hpopped
    · exact .inl ((mem_insertWork.mp hmem).resolve_left hne.symm)
    · exact .inr hpopped

theorem workReschedule_cases {q q' : WorkQueue} {w early delay : Nat}
    (h : workReschedule q w early delay = some q') :
    ∃ work, q.items w = some work ∧
      (q' = { setItem q w { work with killed := false } with worker := .running w .done } ∨
        q.ticks ≤ u32 (early + delay) ∧
        q' = { insertWork (setItem q w { work with
                workAt := u32 (early + delay), killed := false }) w with
              worker := .running w .done }) := by
  obtain ⟨work, hwork, h⟩ := Option.bind_eq_some_iff.mp h
  obtain ⟨⟨p, r⟩, hp, rfl⟩ := Option.map_eq_some_iff.mp h
  obtain ⟨work', hwork', hcase⟩ := scheduleWorkAt_cases hp
  rw [setItem_self] at hwork'
  obtain rfl := Option.some.inj hwork'
  refine ⟨work, hwork, ?_⟩
  rcases hcase with rfl | ⟨hlate, -, rfl⟩
  · exact .inl rfl
  · refine .inr ⟨hlate, ?_⟩
    simp only [setItem, Function.update_idem]

theorem workReschedule_same {q q' : WorkQueue} {v w early delay : Nat}
    (h : workReschedule q v early delay = some q') (hne : v ≠ w) : SameFor w q q' := by
  obtain ⟨work, -, rfl | ⟨-, rfl⟩⟩ := workReschedule_some h
  · refine ⟨le_rfl, fun hw => ⟨?_, workAtOf_setItem_of_ne _ hne.symm⟩, ?_⟩
    · exact .inl (hw.mem (by rintro k ⟨⟩))
    · rintro resched ⟨⟩
      exact absurd rfl hne
  · refine ⟨le_rfl, fun hw => ⟨?_, workAtOf_setItem_of_ne _ hne.symm⟩, ?_⟩
    · rcases hw with hmem | ⟨k, hk⟩
      · exact .inl ((mem_insertWork.mp hmem).resolve_left hne.symm)
      · cases hk
    · rintro resched ⟨⟩
      exact absurd rfl hne

theorem workCancel_same {q q' : WorkQueue} {v w : Nat} (h : workCancel q v = some q') :
    SameFor w q q' := by
  obtain ⟨work, hwork, -, hcase⟩ := workCancel_some h
  have hset : ∀ work', work'.workAt = work.workAt →
      workAtOf (setItem q v work') w = workAtOf q w := by
    intro work' hat
    by_cases hne : w = v
    · subst hne
      rw [workAtOf_eq (setItem_self q w work'), workAtOf_eq hwork, hat]
    · exact workAtOf_setItem_of_ne _ hne
  rcases hcase with ⟨-, rfl⟩ | ⟨-, -, rfl⟩ | ⟨-, -, rfl⟩
  · exact ⟨le_rfl, fun hw => ⟨hw, hset _ rfl⟩, fun _ hrun => hrun⟩
  · exact ⟨le_rfl, fun hw => ⟨hw, rfl⟩, fun _ hrun => hrun⟩
  · exact ⟨le_rfl, fun hw => ⟨hw, hset _ rfl⟩, fun _ hrun => hrun⟩

/-- An item that its own epilogue destroys is not in the list. -/
theorem doWorkEpilogue_same {q q' : WorkQueue} {v w : Nat}
    (hout : ∀ work, q.items v = some work → work.killed = true → v ∉ q.workList)
    (h : doWorkEpilogue q v = some q') : SameFor w q q' := by
  obtain ⟨work, hwork, ⟨hkilled, rfl⟩ | ⟨-, rfl⟩⟩ := doWorkEpilogue_some h
  · refine ⟨le_rfl, fun hw => ?_, by rintro _ ⟨⟩⟩
    rcases hw with hmem | ⟨k, hk⟩
    · have hne : w ≠ v := by
        rintro rfl
        exact hout work hwork hkilled hmem
      exact ⟨.inl hmem, workAtOf_congr (Function.update_of_ne hne _ _)⟩
    · cases hk
  · refine ⟨le_rfl, fun hw => ⟨?_, rfl⟩, by rintro _ ⟨⟩⟩
    exact .inl (hw.mem (by rintro k ⟨⟩))

theorem WorkStepped.same {q q' : WorkQueue} {a : WorkAct} {w : Nat} (hq : QueueInv q)
    (hp : ProperUse q a) (hw : w < q.created) (hother : Beyond q w a)
    (h : WorkStepped q a q') : SameFor w q q' := by
  cases h with
  | create =>
      refine ⟨le_rfl, fun hw' => ⟨hw', ?_⟩, fun _ hrun => hrun⟩
      exact workAtOf_setItem_of_ne _ hw.ne
  | scheduleAt h => exact scheduleWorkAt_same h hother
  | scheduleDelay h => exact scheduleWorkAt_same h hother
  | cancel h => exact workCancel_same h
  | tick =>
      refine ⟨?_, fun hw' => ⟨hw', rfl⟩, fun _ hrun => hrun⟩
      rw [u32_of_lt hp]
      exact Nat.le_succ _
  | pop hidle h =>
      obtain rfl | ⟨v, rest, work, hlist, -, -, rfl⟩ := workerPop_some h
      · exact ⟨le_rfl, fun hw' => ⟨hw', rfl⟩, fun _ hrun => hrun⟩
      · refine ⟨le_rfl, fun hw' => ⟨.inl ?_, rfl⟩, by rintro _ ⟨⟩⟩
        rw [hlist]
        rcases hw' with hmem | ⟨k, hk⟩
        · exact List.mem_cons_of_mem _ hmem
        · cases hk
          exact List.mem_cons_self
  | @prologue v k _ hpopped h =>
      have hne : w ≠ v := by
        rintro rfl
        exact hother k hpopped
      obtain ⟨work, -, rfl⟩ := Option.map_eq_some_iff.mp h
      split
      · refine ⟨le_rfl, fun hw' => ⟨?_, rfl⟩, by rintro _ ⟨⟩⟩
        exact .inl (hw'.mem (by rintro k ⟨⟩))
      · refine ⟨le_rfl, fun hw' => ⟨?_, workAtOf_setItem_of_ne _ hne⟩, ?_⟩
        · exact .inl (hw'.mem (by rintro k ⟨⟩))
        · rintro resched ⟨⟩
          exact absurd rfl hne
  | @rescheduleTest v resched _ hrun h =>
      obtain ⟨work, -, rfl⟩ := Option.map_eq_some_iff.mp h
      refine ⟨le_rfl, fun hw' => ⟨?_, rfl⟩, ?_⟩
      · exact .inl (hw'.mem (by rintro k ⟨⟩))
      · rintro resched' ⟨⟩
        exact absurd hrun (hother resched)
  | @reschedule v early delay _ hrun h =>
      refine workReschedule_same h ?_
      rintro rfl
      exact hother .checking hrun
  | @returned v resched t hrun h =>
      have hphase := hq.phase
      rw [PhaseInv, hrun] at hphase
      obtain ⟨-, hin, work, hwork, hkilled⟩ := hphase
      have hsame : SameFor w q t := doWorkEpilogue_same (fun work' hwork' hmark hmem => by
        obtain rfl := Option.some.inj (hwork.symm.trans hwork')
        exact hkilled.mp hmark (hin hmem)) h
      exact ⟨hsame.ticks, hsame.awaited, hsame.running⟩
  | @skipped v t hskip h =>
      have hphase := hq.phase
      rw [PhaseInv, hskip] at hphase
      exact doWorkEpilogue_same (fun _ _ _ => hphase.2.1) h

/-! ## What every step keeps -/

/-- A tick that is not before the present one is the sum without a wrap. -/
theorem u32_add_of_le {early delay now : Nat} (hearly : early ≤ now) (hnow : now < 2 ^ 32)
    (hdelay : delay < 2 ^ 32) (hle : now ≤ u32 (early + delay)) :
    u32 (early + delay) = early + delay := by
  rcases lt_or_ge (early + delay) (2 ^ 32) with hlt | hge
  · exact u32_of_lt hlt
  · rw [u32_of_ge hge (by omega)] at hle
    omega

/-- The clock stays within its word, and no item is forgotten. -/
theorem WorkStepped.fits {q q' : WorkQueue} {a : WorkAct} (hp : ProperUse q a)
    (hfits : q.ticks < 2 ^ 32) (h : WorkStepped q a q') :
    q'.ticks < 2 ^ 32 ∧ q.created ≤ q'.created := by
  cases h with
  | create => exact ⟨hfits, Nat.le_succ _⟩
  | scheduleAt h =>
      obtain ⟨hticks, hcreated⟩ := scheduleWorkAt_ticks h
      exact ⟨hticks.trans_lt hfits, hcreated.ge⟩
  | scheduleDelay h =>
      obtain ⟨hticks, hcreated⟩ := scheduleWorkAt_ticks h
      exact ⟨hticks.trans_lt hfits, hcreated.ge⟩
  | cancel h =>
      obtain ⟨work, -, -, ⟨-, rfl⟩ | ⟨-, -, rfl⟩ | ⟨-, -, rfl⟩⟩ := workCancel_some h
      · exact ⟨hfits, le_rfl⟩
      · exact ⟨hfits, le_rfl⟩
      · exact ⟨hfits, le_rfl⟩
  | tick => exact ⟨u32_lt _, le_rfl⟩
  | pop hidle h =>
      obtain rfl | ⟨v, rest, work, -, -, -, rfl⟩ := workerPop_some h
      · exact ⟨hfits, le_rfl⟩
      · exact ⟨hfits, le_rfl⟩
  | prologue hpopped h =>
      obtain ⟨work, -, rfl⟩ := Option.map_eq_some_iff.mp h
      split
      · exact ⟨hfits, le_rfl⟩
      · exact ⟨hfits, le_rfl⟩
  | rescheduleTest hrun h =>
      obtain ⟨work, -, rfl⟩ := Option.map_eq_some_iff.mp h
      exact ⟨hfits, le_rfl⟩
  | reschedule hrun h =>
      obtain ⟨work, -, rfl | ⟨-, rfl⟩⟩ := workReschedule_some h
      · exact ⟨hfits, le_rfl⟩
      · exact ⟨hfits, le_rfl⟩
  | returned hrun h =>
      obtain ⟨work, -, ⟨-, rfl⟩ | ⟨-, rfl⟩⟩ := doWorkEpilogue_some h
      · exact ⟨hfits, le_rfl⟩
      · exact ⟨hfits, le_rfl⟩
  | skipped hskip h =>
      obtain ⟨work, -, ⟨-, rfl⟩ | ⟨-, rfl⟩⟩ := doWorkEpilogue_some h
      · exact ⟨hfits, le_rfl⟩
      · exact ⟨hfits, le_rfl⟩

/-- The record of the queue only grows, by the cancellation if it is one. -/
theorem WorkStepped.events {q q' : WorkQueue} {a : WorkAct} (h : WorkStepped q a q') :
    (∀ e ∈ q.events, e ∈ q'.events) ∧ ∀ w, a = .cancel w → .cancelled w ∈ q'.events := by
  have hkeep : ∀ new, q'.events = q.events ++ new → ∀ e ∈ q.events, e ∈ q'.events := by
    intro new hnew e he
    rw [hnew]
    exact List.mem_append_left _ he
  have hplaced : ∀ {w abs : Nat} {r : WorkQueue × Int}, scheduleWorkAt q w abs = some r →
      ∃ new, r.1.events = q.events ++ new := by
    rintro w abs ⟨p, r⟩ hr
    obtain ⟨work, -, rfl | ⟨-, -, rfl⟩⟩ := scheduleWorkAt_cases hr
    · exact ⟨[], (List.append_nil _).symm⟩
    · exact ⟨_, rfl⟩
  cases h with
  | create => exact ⟨hkeep [] (List.append_nil _).symm, by rintro w ⟨⟩⟩
  | scheduleAt h =>
      obtain ⟨new, hnew⟩ := hplaced h
      exact ⟨hkeep new hnew, by rintro w ⟨⟩⟩
  | scheduleDelay h =>
      obtain ⟨new, hnew⟩ := hplaced h
      exact ⟨hkeep new hnew, by rintro w ⟨⟩⟩
  | cancel h =>
      obtain ⟨work, -, -, ⟨-, rfl⟩ | ⟨-, -, rfl⟩ | ⟨-, -, rfl⟩⟩ := workCancel_some h
      all_goals
        refine ⟨hkeep _ rfl, ?_⟩
        rintro w ⟨⟩
        exact List.mem_append_right _ (List.mem_singleton_self _)
  | tick => exact ⟨hkeep [] (List.append_nil _).symm, by rintro w ⟨⟩⟩
  | pop hidle h =>
      obtain rfl | ⟨v, rest, work, -, -, -, rfl⟩ := workerPop_some h
      all_goals exact ⟨hkeep [] (List.append_nil _).symm, by rintro w ⟨⟩⟩
  | prologue hpopped h =>
      obtain ⟨work, -, rfl⟩ := Option.map_eq_some_iff.mp h
      split
      · exact ⟨fun e he => he, by rintro w ⟨⟩⟩
      · exact ⟨fun e he => List.mem_append_left _ he, by rintro w ⟨⟩⟩
  | rescheduleTest hrun h =>
      obtain ⟨work, -, rfl⟩ := Option.map_eq_some_iff.mp h
      exact ⟨hkeep [] (List.append_nil _).symm, by rintro w ⟨⟩⟩
  | reschedule hrun h =>
      obtain ⟨work, -, rfl | ⟨-, rfl⟩⟩ := workReschedule_some h
      · exact ⟨hkeep [] (List.append_nil _).symm, by rintro w ⟨⟩⟩
      · exact ⟨hkeep _ rfl, by rintro w ⟨⟩⟩
  | returned hrun h =>
      obtain ⟨work, -, ⟨-, rfl⟩ | ⟨-, rfl⟩⟩ := doWorkEpilogue_some h
      all_goals exact ⟨hkeep _ rfl, by rintro w ⟨⟩⟩
  | skipped hskip h =>
      obtain ⟨work, -, ⟨-, rfl⟩ | ⟨-, rfl⟩⟩ := doWorkEpilogue_some h
      all_goals exact ⟨hkeep [] (List.append_nil _).symm, by rintro w ⟨⟩⟩

/-- A callback starts by the prologue, for an item that is not killed. -/
theorem WorkStepped.fresh {q q' : WorkQueue} {a : WorkAct} {w : Nat} (h : WorkStepped q a q')
    (hrun : q'.worker = .running w .fresh) :
    q.worker = .running w .fresh ∧ a ≠ .prologue ∨
      a = .prologue ∧ ∃ work, q.items w = some work ∧ work.killed = false := by
  have hplaced : ∀ {v abs : Nat} {r : WorkQueue × Int}, scheduleWorkAt q v abs = some r →
      r.1.worker = q.worker := by
    rintro v abs ⟨p, r⟩ hr
    obtain ⟨work, -, rfl | ⟨-, -, rfl⟩⟩ := scheduleWorkAt_cases hr
    · rfl
    · rfl
  cases h with
  | create => exact .inl ⟨hrun, by rintro ⟨⟩⟩
  | scheduleAt h => exact .inl ⟨(hplaced h).symm.trans hrun, by rintro ⟨⟩⟩
  | scheduleDelay h => exact .inl ⟨(hplaced h).symm.trans hrun, by rintro ⟨⟩⟩
  | cancel h =>
      obtain ⟨work, -, -, ⟨-, rfl⟩ | ⟨-, -, rfl⟩ | ⟨-, -, rfl⟩⟩ := workCancel_some h
      all_goals exact .inl ⟨hrun, by rintro ⟨⟩⟩
  | tick => exact .inl ⟨hrun, by rintro ⟨⟩⟩
  | pop hidle h =>
      obtain rfl | ⟨v, rest, work, -, -, -, rfl⟩ := workerPop_some h
      · exact .inl ⟨hrun, by rintro ⟨⟩⟩
      · cases hrun
  | @prologue v k _ hpopped h =>
      obtain ⟨work, hwork, rfl⟩ := Option.map_eq_some_iff.mp h
      cases hkilled : work.killed with
      | true =>
          rw [if_pos hkilled] at hrun
          cases hrun
      | false =>
          rw [if_neg (by simp [hkilled])] at hrun
          cases hrun
          exact .inr ⟨rfl, work, hwork, hkilled⟩
  | rescheduleTest hrun' h =>
      obtain ⟨work, -, rfl⟩ := Option.map_eq_some_iff.mp h
      cases hflag : work.cancelled with
      | true =>
          simp only [hflag] at hrun
          cases hrun
      | false =>
          simp only [hflag] at hrun
          cases hrun
  | reschedule hrun' h =>
      obtain ⟨work, -, rfl | ⟨-, rfl⟩⟩ := workReschedule_some h
      · cases hrun
      · cases hrun
  | returned hrun' h =>
      obtain ⟨work, -, ⟨-, rfl⟩ | ⟨-, rfl⟩⟩ := doWorkEpilogue_some h
      · cases hrun
      · cases hrun
  | skipped hskip h =>
      obtain ⟨work, -, ⟨-, rfl⟩ | ⟨-, rfl⟩⟩ := doWorkEpilogue_some h
      · cases hrun
      · cases hrun

/-! ## Steps that can be taken -/

theorem workerPop_total {q : WorkQueue} (h : ListInv q) (hlock : q.workLock = false) :
    ∃ q', workerPop q = some q' := by
  rw [workerPop, if_neg (by simp [hlock])]
  split
  · exact ⟨_, rfl⟩
  · next w rest hlist =>
      obtain ⟨work, hwork⟩ := h.exists_item (w := w) (by rw [hlist]; exact List.mem_cons_self)
      rw [hwork, Option.bind_some]
      split
      · exact ⟨_, rfl⟩
      · exact ⟨_, rfl⟩

theorem workReschedule_total {q : WorkQueue} {w : Nat} {work : WorkItem} (hwork : q.items w = some work)
    (hlock : q.workLock = false) (hout : w ∉ q.workList) (early delay : Nat) :
    ∃ q', workReschedule q w early delay = some q' := by
  rw [workReschedule, hwork, Option.bind_some, scheduleWorkDelay, scheduleWorkAt, setItem_self,
    Option.bind_some]
  split
  · exact ⟨_, rfl⟩
  · rw [scheduleWork, if_neg]
    · exact ⟨_, rfl⟩
    · simp [hlock, hout]

theorem doWorkEpilogue_total {q : WorkQueue} {w : Nat} {work : WorkItem}
    (hwork : q.items w = some work) : ∃ q', doWorkEpilogue q w = some q' := by
  rw [doWorkEpilogue, hwork]
  exact ⟨_, rfl⟩

/-- The end of a callback that is not inside `work_reschedule`. -/
theorem epilogue_total {q : WorkQueue} {w : Nat} {resched : Resched} {work : WorkItem}
    (hrun : q.worker = .running w resched) (hwork : q.items w = some work)
    (hresched : resched ≠ .checking) : ∃ q', workStep q .epilogue = some q' := by
  obtain ⟨q', hq'⟩ := doWorkEpilogue_total hwork
  cases resched with
  | checking => exact absurd rfl hresched
  | fresh => simp [workStep, hrun, hq']
  | refused => simp [workStep, hrun, hq']
  | done => simp [workStep, hrun, hq']

end Levos.Kernel
