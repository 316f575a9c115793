import Levos.Net.Retransmit

/-!
# Retransmission is sound (`net/packet.c`)

The invariant of every run: where an item waits, its tick is at least the delay
after the last try; its descriptor counts the tries that are left, and is there
whenever the callback uses it.
-/

namespace Levos.Net

open Levos.Base Levos.Kernel

/-! ## The invariant -/

/-- Where the callback is with `work_reschedule`, by its phase. -/
def PhaseFits : RetransPhase → Resched → Prop
  | .entry, resched | .ended, resched => resched = .fresh
  | .again, resched => resched ≠ .done
  | .clock _, resched => resched = .checking ∨ resched = .done

/-- The descriptor of a call that has not failed. -/
structure DescOk (call : RetransCall) (tries failures : Nat) (d : RetransDesc) : Prop where
  ni : d.ni = call.ni
  pkt : d.pkt = call.pkt
  delay : d.delay = call.delay
  left : d.triesLeft = call.maxtries - tries
  pos : 0 < call.maxtries → 0 < d.triesLeft
  failures : failures = 0

/-- The ticks of `w` so far, from the call on. -/
def ticksOf (call : RetransCall) (w : Nat) (log : List RetransEvent) : List Nat :=
  call.since :: triesOf w log

structure ItemKept (s : RetransState) (w : Nat) (call : RetransCall) : Prop where
  apart : (ticksOf call w s.log).Pairwise fun a b => a + intU32 call.delay < b
  past : ∀ a ∈ ticksOf call w s.log, a ≤ s.queue.ticks
  live : ∀ d, s.desc w = some d →
    DescOk call (triesOf w s.log).length (failuresOf w s.log) d
  dead : s.desc w = none →
    (triesOf w s.log).length = call.maxtries ∧ failuresOf w s.log = 1
  awaited : Awaited s.queue w → s.desc w ≠ none ∧
    ∀ a ∈ ticksOf call w s.log, a + intU32 call.delay ≤ workAtOf s.queue w
  phase : ∀ resched, s.queue.worker = .running w resched →
    PhaseFits s.phase resched ∧ (s.phase ≠ .ended → s.desc w ≠ none)
  entry : ∀ resched, s.queue.worker = .running w resched → s.phase = .entry →
    ∀ a ∈ ticksOf call w s.log, a + intU32 call.delay < s.queue.ticks
  clock : ∀ resched now, s.queue.worker = .running w resched → s.phase = .clock now →
    now ≤ s.queue.ticks ∧ ∀ a ∈ ticksOf call w s.log, a ≤ now

structure RetransInv (s : RetransState) : Prop where
  queue : QueueInv s.queue
  fits : s.queue.ticks < 2 ^ 32
  fresh : ∀ w, s.calls w ≠ none → w < s.queue.created
  item : ∀ w call, s.calls w = some call → ItemKept s w call
  ofCall : ∀ e ∈ s.log, e.OfCall s.calls

/-! ## What each step keeps -/

theorem ItemKept.frame {s t : RetransState} {w : Nat} {call : RetransCall} (h : ItemKept s w call)
    (hsame : SameFor w s.queue t.queue) (hdesc : t.desc w = s.desc w)
    (htries : triesOf w t.log = triesOf w s.log)
    (hfailures : failuresOf w t.log = failuresOf w s.log)
    (hphase : ∀ resched, s.queue.worker = .running w resched → t.phase = s.phase) :
    ItemKept t w call := by
  have hticks : ticksOf call w t.log = ticksOf call w s.log := congrArg (call.since :: ·) htries
  constructor
  case apart => exact hticks ▸ h.apart
  case past => exact fun a ha => (h.past a (hticks ▸ ha)).trans hsame.ticks
  case live =>
    intro d hd
    rw [htries, hfailures]
    exact h.live d (hdesc ▸ hd)
  case dead =>
    intro hd
    rw [htries, hfailures]
    exact h.dead (hdesc ▸ hd)
  case awaited =>
    intro hw
    obtain ⟨hw', hat⟩ := hsame.awaited hw
    rw [hdesc, hticks, hat]
    exact h.awaited hw'
  case phase =>
    intro resched hrun
    have hrun' := hsame.running resched hrun
    rw [hdesc, hphase resched hrun']
    exact h.phase resched hrun'
  case entry =>
    intro resched hrun hentry a ha
    have hrun' := hsame.running resched hrun
    rw [hphase resched hrun'] at hentry
    exact (h.entry resched hrun' hentry a (hticks ▸ ha)).trans_le hsame.ticks
  case clock =>
    intro resched now hrun hclock
    have hrun' := hsame.running resched hrun
    rw [hphase resched hrun'] at hclock
    obtain ⟨hnow, hle⟩ := h.clock resched now hrun' hclock
    rw [hticks]
    exact ⟨hnow.trans hsame.ticks, hle⟩

/-- The callback starts. -/
theorem ItemKept.prologue {s : RetransState} {q : WorkQueue} {w k : Nat} {call : RetransCall}
    (h : ItemKept s w call) (hq : QueueInv s.queue) (hpopped : s.queue.worker = .popped w k)
    (hs : doWorkPrologue s.queue w k = some q) :
    ItemKept { s with queue := q, phase := .entry } w call := by
  have hphase := hq.phase
  rw [PhaseInv, hpopped] at hphase
  obtain ⟨-, hout, -, hlate⟩ := hphase
  obtain ⟨hdesc, hat⟩ := h.awaited (.inr ⟨k, hpopped⟩)
  obtain ⟨work, hwork, rfl⟩ := Option.map_eq_some_iff.mp hs
  split
  · refine ⟨h.apart, h.past, h.live, h.dead, fun hw => ?_, ?_, ?_, ?_⟩
    · rcases hw with hmem | ⟨k, hk⟩
      · exact absurd hmem hout
      · cases hk
    · rintro _ ⟨⟩
    · rintro _ ⟨⟩
    · rintro _ _ ⟨⟩
  · refine ⟨h.apart, h.past, h.live, h.dead, fun hw => ?_, ?_, ?_, ?_⟩
    · rcases hw with hmem | ⟨k, hk⟩
      · exact absurd hmem hout
      · cases hk
    · rintro resched ⟨⟩
      exact ⟨rfl, fun _ => hdesc⟩
    · exact fun _ _ _ a ha => (hat a ha).trans_lt hlate
    · rintro _ _ _ ⟨⟩

/-- The test of `work_reschedule`. -/
theorem ItemKept.rescheduleTest {s : RetransState} {q : WorkQueue} {w : Nat} {resched : Resched}
    {call : RetransCall} (h : ItemKept s w call) (hq : QueueInv s.queue)
    (hrun : s.queue.worker = .running w resched) (hfresh : resched = .fresh)
    (hphase : s.phase = .again) (hs : workRescheduleTest s.queue w = some q) :
    ItemKept { s with queue := q } w call := by
  obtain ⟨work, -, rfl⟩ := Option.map_eq_some_iff.mp hs
  have hout : ¬ Awaited s.queue w := not_awaited_of_hand hq hrun (by rw [hfresh]; decide)
  refine ⟨h.apart, h.past, h.live, h.dead, fun hw => ?_, ?_, ?_, ?_⟩
  · exact absurd (.inl (hw.mem (by rintro k ⟨⟩))) hout
  · rintro resched' ⟨⟩
    refine ⟨?_, (h.phase resched hrun).2⟩
    rw [show ({ s with queue := _ } : RetransState).phase = .again from hphase, PhaseFits]
    split <;> decide
  · intro _ _ hentry
    cases hphase.symm.trans hentry
  · intro _ _ _ hclock
    cases hphase.symm.trans hclock

theorem intU32_lt (x : Int) : intU32 x < 2 ^ 32 := by
  rw [intU32]
  omega

/-- The item is put back: the clock was read after the last try. -/
theorem ItemKept.reschedule {s : RetransState} {q : WorkQueue} {w early : Nat}
    {call : RetransCall} (h : ItemKept s w call) (hq : QueueInv s.queue)
    (hfits : s.queue.ticks < 2 ^ 32) (hrun : s.queue.worker = .running w .checking)
    (hphase : s.phase = .clock early)
    (hs : workReschedule s.queue w early (intU32 call.delay) = some q) :
    ItemKept { s with queue := q } w call := by
  have hout : ¬ Awaited s.queue w := not_awaited_of_hand hq hrun (by decide)
  obtain ⟨hnow, hle⟩ := h.clock .checking early hrun hphase
  have hdesc := (h.phase .checking hrun).2 (by rw [hphase]; rintro ⟨⟩)
  -- what does not depend on the list
  have hrest : ∀ p : WorkQueue, p.ticks = s.queue.ticks → p.worker = .running w .done →
      (Awaited p w → s.desc w ≠ none ∧
        ∀ a ∈ ticksOf call w s.log, a + intU32 call.delay ≤ workAtOf p w) →
      ItemKept { s with queue := p } w call := by
    intro p hticks hworker hawaited
    refine ⟨h.apart, fun a ha => (h.past a ha).trans_eq hticks.symm, h.live, h.dead, hawaited,
      fun resched hrun' => ?_, fun _ _ hentry => ?_, fun resched now _ hclock => ?_⟩
    · cases hworker.symm.trans hrun'
      refine ⟨?_, fun _ => hdesc⟩
      rw [show ({ s with queue := p } : RetransState).phase = .clock early from hphase]
      exact .inr rfl
    · cases hphase.symm.trans hentry
    · obtain ⟨hnow', hle'⟩ := h.clock .checking now hrun hclock
      exact ⟨hnow'.trans_eq hticks.symm, hle'⟩
  obtain ⟨work, -, rfl | ⟨hlate, rfl⟩⟩ := workReschedule_cases hs
  · exact hrest _ rfl rfl fun hw => absurd (.inl (hw.mem (by rintro k ⟨⟩))) hout
  · refine hrest _ rfl rfl fun _ => ⟨hdesc, fun a ha => ?_⟩
    refine le_of_le_of_eq ?_ (workAtOf_eq (setItem_self s.queue w _)).symm
    show a + intU32 call.delay ≤ u32 (early + intU32 call.delay)
    rw [u32_add_of_le hnow hfits (intU32_lt _) hlate]
    exact Nat.add_le_add_right (hle a ha) _

/-- One more try, after the delay. -/
theorem ItemKept.tried {s : RetransState} {w : Nat} {call : RetransCall} (h : ItemKept s w call)
    (hrun : s.queue.worker = .running w .fresh) (hphase : s.phase = .entry)
    (new : List RetransEvent) (hnew : triesOf w new = [s.queue.ticks]) :
    ((ticksOf call w (s.log ++ new)).Pairwise fun a b => a + intU32 call.delay < b) ∧
      ∀ a ∈ ticksOf call w (s.log ++ new), a ≤ s.queue.ticks := by
  have happend : ticksOf call w (s.log ++ new) = ticksOf call w s.log ++ [s.queue.ticks] := by
    simp [ticksOf, triesOf_append, hnew]
  rw [happend]
  constructor
  · refine List.pairwise_append.mpr ⟨h.apart, List.pairwise_singleton _ _, fun a ha b hb => ?_⟩
    obtain rfl := List.mem_singleton.mp hb
    exact h.entry .fresh hrun hphase a ha
  · intro a ha
    rcases List.mem_append.mp ha with ha | ha
    · exact h.past a ha
    · exact (List.mem_singleton.mp ha).le

theorem ItemKept.sentLast {s : RetransState} {w : Nat} {call : RetransCall} {d : RetransDesc}
    (h : ItemKept s w call) (hq : QueueInv s.queue) (hrun : s.queue.worker = .running w .fresh)
    (hphase : s.phase = .entry) (hd : s.desc w = some d) (hleft : d.triesLeft - 1 = 0) :
    ItemKept { s with
      desc := Function.update s.desc w none
      phase := .ended
      log := s.log ++ [.sent w d.ni d.pkt s.queue.ticks, .failed w d.ni d.pkt] } w call := by
  have hlive := h.live d hd
  obtain ⟨hapart, hpast⟩ := h.tried hrun hphase
    [.sent w d.ni d.pkt s.queue.ticks, .failed w d.ni d.pkt] (by simp)
  refine ⟨hapart, hpast, fun d' hd' => ?_, fun _ => ⟨?_, ?_⟩, fun hw => ?_, ?_, ?_, ?_⟩
  · cases (Function.update_self w none s.desc).symm.trans hd'
  · have hlen := hlive.left
    simp only [triesOf_append, triesOf_sent_self, triesOf_failed, triesOf_nil, List.length_append,
      List.length_singleton]
    omega
  · simp [failuresOf_append, hlive.failures]
  · exact absurd hw (not_awaited_of_hand hq hrun (by decide))
  · intro resched hrun'
    cases hrun.symm.trans hrun'
    exact ⟨rfl, fun hover => absurd rfl hover⟩
  · rintro _ _ ⟨⟩
  · rintro _ _ _ ⟨⟩

theorem ItemKept.sent {s : RetransState} {w : Nat} {call : RetransCall} {d : RetransDesc}
    (h : ItemKept s w call) (hq : QueueInv s.queue) (hrun : s.queue.worker = .running w .fresh)
    (hphase : s.phase = .entry) (hd : s.desc w = some d) (hleft : d.triesLeft - 1 ≠ 0) :
    ItemKept { s with
      desc := Function.update s.desc w (some { d with triesLeft := d.triesLeft - 1 })
      phase := .again
      log := s.log ++ [.sent w d.ni d.pkt s.queue.ticks] } w call := by
  have hlive := h.live d hd
  obtain ⟨hapart, hpast⟩ := h.tried hrun hphase [.sent w d.ni d.pkt s.queue.ticks] (by simp)
  have hself := Function.update_self w (some { d with triesLeft := d.triesLeft - 1 }) s.desc
  refine ⟨hapart, hpast, fun d' hd' => ?_, fun hd' => ?_, fun hw => ?_, ?_, ?_, ?_⟩
  · obtain rfl := Option.some.inj (hself.symm.trans hd')
    refine ⟨hlive.ni, hlive.pkt, hlive.delay, ?_, fun hpos => ?_, ?_⟩
    · have hlen := hlive.left
      simp only [triesOf_append, triesOf_sent_self, triesOf_nil, List.length_append,
        List.length_singleton]
      omega
    · have := hlive.pos hpos
      show 0 < d.triesLeft - 1
      omega
    · simp [failuresOf_append, hlive.failures]
  · cases hself.symm.trans hd'
  · exact absurd hw (not_awaited_of_hand hq hrun (by decide))
  · intro resched hrun'
    cases hrun.symm.trans hrun'
    refine ⟨by rw [PhaseFits]; decide, fun _ hd' => ?_⟩
    cases hself.symm.trans hd'
  · rintro _ _ ⟨⟩
  · rintro _ _ _ ⟨⟩

/-- A send of `w` and the other retransmissions. -/
theorem ItemKept.other {s : RetransState} {v w : Nat} {call : RetransCall} (h : ItemKept s v call)
    (hrun : s.queue.worker = .running w .fresh) (hne : v ≠ w) (d : Option RetransDesc)
    (phase : RetransPhase) {new : List RetransEvent} (htries : triesOf v new = [])
    (hfailures : failuresOf v new = 0) :
    ItemKept { s with
      desc := Function.update s.desc w d
      phase := phase
      log := s.log ++ new } v call := by
  refine h.frame ⟨le_rfl, fun hw => ⟨hw, rfl⟩, fun _ hrun' => hrun'⟩
    (Function.update_of_ne hne _ _) ?_ ?_ fun resched hrun' => ?_
  · rw [triesOf_append, htries, List.append_nil]
  · rw [failuresOf_append, hfailures, Nat.add_zero]
  · cases hrun.symm.trans hrun'
    exact absurd rfl hne

/-- A step of the queue. -/
theorem ItemKept.work {s : RetransState} {q : WorkQueue} {a : WorkAct} {w : Nat}
    {call : RetransCall} (h : ItemKept s w call) (hinv : QueueInv s.queue)
    (hfits : s.queue.ticks < 2 ^ 32) (hp : ProperUse s.queue a) (hw : w < s.queue.created)
    (hcall : s.calls w = some call) (hfollows : follows s a = true)
    (hs : workStep s.queue a = some q) :
    ItemKept { s with
      queue := q
      phase := if a = .prologue then .entry else s.phase
      log := s.log ++ cancelNote s a } w call := by
  have hstep := workStep_some hs
  have hframe : Beyond s.queue w a → ItemKept { s with
      queue := q
      phase := if a = .prologue then .entry else s.phase
      log := s.log ++ cancelNote s a } w call := by
    intro hbeyond
    obtain ⟨htries, hfailures⟩ := triesOf_cancelNote s w a
    refine h.frame (WorkStepped.same hinv hp hw hbeyond hstep) rfl ?_ ?_ fun resched hrun => if_neg ?_
    · rw [triesOf_append, htries, List.append_nil]
    · rw [failuresOf_append, hfailures, Nat.add_zero]
    · rintro rfl
      cases hstep with
      | prologue hpopped => cases hrun.symm.trans hpopped
  have hothers : ∀ v, (s.calls v).isNone = true → v ≠ w := by
    rintro v hnone rfl
    rw [hcall] at hnone
    cases hnone
  cases hstep with
  | scheduleAt => exact hframe (hothers _ hfollows)
  | scheduleDelay => exact hframe (hothers _ hfollows)
  | @prologue v k _ hpopped hpro =>
      by_cases hv : v = w
      · subst hv
        simpa [cancelNote] using h.prologue hinv hpopped hpro
      · refine hframe fun k' hk' => ?_
        cases hpopped.symm.trans hk'
        exact hv rfl
  | @rescheduleTest v resched _ hrun htest =>
      by_cases hv : v = w
      · subst hv
        have hours : s.phase = .again ∧ resched = .fresh := by
          simpa [follows, runningCall_eq hrun hcall] using hfollows
        simpa [cancelNote] using h.rescheduleTest hinv hrun hours.2 hours.1 htest
      · refine hframe fun resched' hrun' => ?_
        cases hrun.symm.trans hrun'
        exact hv rfl
  | @reschedule v early delay _ hrun hresched =>
      by_cases hv : v = w
      · subst hv
        have hours : s.phase = .clock early ∧ ∃ d, s.desc v = some d ∧ intU32 d.delay = delay := by
          simpa [follows, runningCall_eq hrun hcall, Option.any_eq_true] using hfollows
        obtain ⟨hphase, d, hd, rfl⟩ := hours
        rw [(h.live d hd).delay] at hresched
        simpa [cancelNote] using h.reschedule hinv hfits hrun hphase hresched
      · refine hframe fun resched' hrun' => ?_
        cases hrun.symm.trans hrun'
        exact hv rfl
  | create => exact hframe trivial
  | cancel => exact hframe trivial
  | tick => exact hframe trivial
  | pop => exact hframe trivial
  | returned => exact hframe trivial
  | skipped => exact hframe trivial

/-- A new retransmission: its item is new, and waits only if its tick was not
yet past. -/
theorem itemKept_schedule {s : RetransState} {q : WorkQueue} {early : Nat} {delay rc : Int}
    (h : RetransInv s) (hearly : early ≤ s.queue.ticks) (ni pkt : Nat) (maxtries : Int)
    (hs : scheduleWorkDelay (workCreate s.queue) s.queue.created early (intU32 delay) = some (q, rc)) :
    ItemKept { s with
      queue := q
      desc := Function.update s.desc s.queue.created (some ⟨ni, pkt, maxtries, delay⟩)
      calls := Function.update s.calls s.queue.created (some ⟨ni, pkt, maxtries, delay, early⟩) }
      s.queue.created ⟨ni, pkt, maxtries, delay, early⟩ := by
  have hnone : s.calls s.queue.created = none := by
    by_contra hne
    exact lt_irrefl _ (h.fresh _ hne)
  have hself := Function.update_self s.queue.created
    (some (⟨ni, pkt, maxtries, delay⟩ : RetransDesc)) s.desc
  obtain ⟨htries, hfailures⟩ := triesOf_eq_nil h.ofCall hnone
  have hticks : ticksOf ⟨ni, pkt, maxtries, delay, early⟩ s.queue.created s.log = [early] :=
    congrArg (early :: ·) htries
  have hhand : s.queue.worker.hand ≠ some s.queue.created :=
    fun hhand => lt_irrefl _ (QueueInv.hand_lt h.queue hhand)
  have hout : ¬ Awaited s.queue s.queue.created := by
    rintro (hmem | ⟨k, hk⟩)
    · obtain ⟨work, hwork⟩ := h.queue.list.exists_item hmem
      exact lt_irrefl _ (h.queue.list.fresh _ (by rw [hwork]; exact Option.some_ne_none _))
    · exact hhand (by rw [hk]; rfl)
  have hrest : q.ticks = s.queue.ticks → q.worker = s.queue.worker →
      (Awaited q s.queue.created →
        early + intU32 delay ≤ workAtOf q s.queue.created) →
      ItemKept { s with
        queue := q
        desc := Function.update s.desc s.queue.created (some ⟨ni, pkt, maxtries, delay⟩)
        calls := Function.update s.calls s.queue.created (some ⟨ni, pkt, maxtries, delay, early⟩) }
        s.queue.created ⟨ni, pkt, maxtries, delay, early⟩ := by
    intro hclock hworker hwait
    have hidle : ∀ resched, q.worker ≠ .running s.queue.created resched := by
      intro resched hrun
      exact hhand (by rw [← hworker, hrun]; rfl)
    constructor
    case apart =>
      dsimp only
      rw [hticks]
      exact List.pairwise_singleton _ _
    case past =>
      dsimp only
      rw [hticks, hclock]
      rintro a ha
      exact (List.mem_singleton.mp ha).trans_le hearly
    case live =>
      intro d hd
      obtain rfl := Option.some.inj (hself.symm.trans hd)
      dsimp only
      rw [htries, hfailures]
      exact ⟨rfl, rfl, rfl, (sub_zero maxtries).symm, id, rfl⟩
    case dead =>
      intro hd
      cases hself.symm.trans hd
    case awaited =>
      intro hw
      refine ⟨fun hd => ?_, fun a ha => ?_⟩
      · cases hself.symm.trans hd
      · dsimp only at ha
        rw [hticks] at ha
        rw [List.mem_singleton.mp ha]
        exact hwait hw
    case phase => exact fun resched hrun => absurd hrun (hidle resched)
    case entry => exact fun resched hrun => absurd hrun (hidle resched)
    case clock => exact fun resched _ hrun => absurd hrun (hidle resched)
  obtain ⟨work, -, rfl | ⟨hlate, -, rfl⟩⟩ := scheduleWorkAt_cases hs
  · exact hrest rfl rfl fun hw => absurd hw hout
  · refine hrest rfl rfl fun _ => ?_
    refine le_of_le_of_eq ?_ (workAtOf_eq (setItem_self (workCreate s.queue) s.queue.created _)).symm
    exact (u32_add_of_le hearly h.fits (intU32_lt _) hlate).ge

/-- The events of a send are of its call. -/
theorem RetransInv.ofCall_append {s : RetransState} (h : RetransInv s) {w : Nat} {call : RetransCall}
    {d : RetransDesc} (hcall : s.calls w = some call) (hd : s.desc w = some d)
    {new : List RetransEvent}
    (hnew : ∀ e ∈ new, (∃ tick, e = .sent w d.ni d.pkt tick) ∨ e = .failed w d.ni d.pkt) :
    ∀ e ∈ s.log ++ new, e.OfCall s.calls := by
  have hlive := (h.item w call hcall).live d hd
  intro e he
  rcases List.mem_append.mp he with he | he
  · exact h.ofCall e he
  · rcases hnew e he with ⟨tick, rfl⟩ | rfl
    · exact ⟨call, hcall, hlive.ni.symm, hlive.pkt.symm⟩
    · exact ⟨call, hcall, hlive.ni.symm, hlive.pkt.symm⟩

theorem retransInv_step (s : RetransState) (a : RetransAct) (t : RetransState) (h : RetransInv s)
    (hu : RetransUse s a) (hs : retransStep s a = some t) : RetransInv t := by
  cases retransStep_some hs with
  | @schedule ni pkt maxtries delay early r hearly hr =>
      have hnew := itemKept_schedule h hearly ni pkt maxtries hr
      have hmk := h.queue.workCreate
      have hhand : (workCreate s.queue).worker.hand ≠ some s.queue.created :=
        fun hhand => lt_irrefl _ (QueueInv.hand_lt h.queue hhand)
      obtain ⟨hticks, hcreated⟩ := scheduleWorkAt_ticks hr
      have hnone : s.calls s.queue.created = none := by
        by_contra hne
        exact lt_irrefl _ (h.fresh _ hne)
      constructor
      case queue => exact hmk.scheduleWorkAt hhand hr
      case fits => exact hticks.trans_lt h.fits
      case fresh =>
        intro w hw
        refine lt_of_lt_of_eq ?_ hcreated.symm
        by_cases hne : w = s.queue.created
        · exact hne ▸ Nat.lt_succ_self _
        · exact (h.fresh w ((Function.update_of_ne hne _ s.calls).symm.trans_ne hw)).trans
            (Nat.lt_succ_self _)
      case item =>
        intro w call hcall
        by_cases hne : w = s.queue.created
        · subst hne
          obtain rfl := Option.some.inj ((Function.update_self _ _ s.calls).symm.trans hcall)
          exact hnew
        · have hold := (Function.update_of_ne hne _ s.calls).symm.trans hcall
          have hw : w < s.queue.created := h.fresh w (by rw [hold]; exact Option.some_ne_none _)
          have hmade := WorkStepped.same h.queue (a := .create) trivial hw trivial .create
          have hplaced := scheduleWorkAt_same hr fun e => hne e.symm
          refine (h.item w call hold).frame ⟨hmade.ticks.trans hplaced.ticks, fun hwait => ?_, ?_⟩
            (Function.update_of_ne hne _ _) rfl rfl fun _ _ => rfl
          · obtain ⟨hwait', hat⟩ := hplaced.awaited hwait
            obtain ⟨hwait'', hat'⟩ := hmade.awaited hwait'
            exact ⟨hwait'', hat.trans hat'⟩
          · exact fun resched hrun => hmade.running resched (hplaced.running resched hrun)
      case ofCall =>
        -- the calls there were keep their items
        have hkeep : ∀ w call, s.calls w = some call → Function.update s.calls s.queue.created
            (some ⟨ni, pkt, maxtries, delay, early⟩) w = some call := by
          intro w call hcall
          refine (Function.update_of_ne ?_ _ _).trans hcall
          rintro rfl
          cases hnone.symm.trans hcall
        intro e he
        have hold := h.ofCall e he
        cases e with
        | sent w ni' pkt' tick =>
            obtain ⟨call, hcall, hof⟩ := hold
            exact ⟨call, hkeep w call hcall, hof⟩
        | failed w ni' pkt' =>
            obtain ⟨call, hcall, hof⟩ := hold
            exact ⟨call, hkeep w call hcall, hof⟩
        | cancelled w u => trivial
  | @sentLast w call d hrun hcall hphase hd hleft =>
      refine ⟨h.queue, h.fits, h.fresh, fun v call' hcall' => ?_,
        h.ofCall_append hcall hd (by simp)⟩
      by_cases hne : v = w
      · subst hne
        exact (h.item v call' hcall').sentLast h.queue hrun hphase hd hleft
      · refine (h.item v call' hcall').other hrun hne none .ended ?_ ?_
        · rw [triesOf_sent_of_ne (Ne.symm hne), triesOf_failed, triesOf_nil]
        · rw [failuresOf_sent, failuresOf_failed_of_ne (Ne.symm hne), failuresOf_nil]
  | @sent w call d hrun hcall hphase hd hleft =>
      refine ⟨h.queue, h.fits, h.fresh, fun v call' hcall' => ?_,
        h.ofCall_append hcall hd (by simp)⟩
      by_cases hne : v = w
      · subst hne
        exact (h.item v call' hcall').sent h.queue hrun hphase hd hleft
      · refine (h.item v call' hcall').other hrun hne _ .again ?_ ?_
        · rw [triesOf_sent_of_ne (Ne.symm hne), triesOf_nil]
        · rw [failuresOf_sent, failuresOf_nil]
  | @readClock w call hrun hcall hphase =>
      refine ⟨h.queue, h.fits, h.fresh, fun v call' hcall' => ?_, h.ofCall⟩
      have hitem := h.item v call' hcall'
      refine ⟨hitem.apart, hitem.past, hitem.live, hitem.dead, hitem.awaited, fun resched hrun' => ?_,
        ?_, ?_⟩
      · cases hrun.symm.trans hrun'
        refine ⟨.inl rfl, fun _ => (hitem.phase .checking hrun').2 ?_⟩
        rw [hphase]
        rintro ⟨⟩
      · rintro _ _ ⟨⟩
      · rintro _ now _ ⟨⟩
        exact ⟨le_rfl, hitem.past⟩
  | @work a q hfollows hq =>
      have hu' : ProperUse s.queue a := hu
      obtain ⟨hfits, hcreated⟩ := WorkStepped.fits hu' h.fits (workStep_some hq)
      refine ⟨queueInv_step _ _ _ h.queue hu' hq, hfits, fun w hw => (h.fresh w hw).trans_le hcreated,
        fun w call hcall => ?_, fun e he => ?_⟩
      · have hw := h.fresh w (by rw [hcall]; exact Option.some_ne_none _)
        exact (h.item w call hcall).work h.queue h.fits hu' hw hcall hfollows hq
      · rcases List.mem_append.mp he with he | he
        · exact h.ofCall e he
        · exact ofCall_cancelNote s s.calls a e he

theorem retransInv_init {ticks : Nat} (h : ticks < 2 ^ 32) : RetransInv (retransInit ticks) where
  queue := queueInv_workInit ticks
  fits := h
  fresh := fun _ hw => absurd rfl hw
  item := by rintro _ _ ⟨⟩
  ofCall := fun _ he => absurd he List.not_mem_nil

/-! ## The worker goes on -/

/-- The worker has a step it may take. -/
def WorkerGoesOn (s : RetransState) : Prop :=
  ∃ a t, a.byWorker = true ∧ RetransUse s a ∧ retransStep s a = some t

theorem goesOn_work {s : RetransState} {a : WorkAct} {q : WorkQueue}
    (hq : workStep s.queue a = some q) (hfollows : follows s a = true)
    (hworker : (RetransAct.work a).byWorker = true) (hp : ProperUse s.queue a) : WorkerGoesOn s := by
  refine ⟨.work a, ?_⟩
  rw [retransStep, if_pos hfollows, hq]
  exact ⟨_, hworker, hp, rfl⟩

/-- The worker in a callback of another user of the queue. -/
theorem goesOn_foreign {s : RetransState} {w : Nat} {resched : Resched} {work : WorkItem}
    (hlock : s.queue.workLock = false) (hrun : s.queue.worker = .running w resched)
    (hnone : s.calls w = none) (hwork : s.queue.items w = some work)
    (hin : w ∈ s.queue.workList → resched = .done) : WorkerGoesOn s := by
  have hrunning : runningCall s = none := by simp [runningCall, hrun, hnone]
  by_cases hresched : resched = .checking
  · subst hresched
    have hout : w ∉ s.queue.workList := fun hmem => absurd (hin hmem) (by decide)
    obtain ⟨q, hq⟩ := workReschedule_total hwork hlock hout 0 0
    have hstep : workStep s.queue (.reschedule 0 0) = some q := by simp [workStep, hrun, hq]
    exact goesOn_work hstep (by simp [follows, hrunning]) rfl trivial
  · obtain ⟨q, hq⟩ := epilogue_total hrun hwork hresched
    exact goesOn_work hq (by simp [follows, hrunning]) rfl trivial

/-- The worker in `do_packet_retransmit`, by phase. -/
theorem ItemKept.goesOn {s : RetransState} {w : Nat} {resched : Resched} {work : WorkItem}
    {call : RetransCall} (h : ItemKept s w call) (hlock : s.queue.workLock = false)
    (hrun : s.queue.worker = .running w resched) (hcall : s.calls w = some call)
    (hwork : s.queue.items w = some work)
    (hin : w ∈ s.queue.workList → resched = .done) : WorkerGoesOn s := by
  have hrunning := runningCall_eq hrun hcall
  obtain ⟨hfits, hlive⟩ := h.phase resched hrun
  have hepilogue : resched ≠ .checking → follows s .epilogue = true → WorkerGoesOn s := by
    intro hresched hfollows
    obtain ⟨q, hq⟩ := epilogue_total hrun hwork hresched
    exact goesOn_work hq hfollows rfl trivial
  cases hphase : s.phase with
  | entry =>
      rw [hphase, PhaseFits] at hfits
      subst hfits
      obtain ⟨d, hd⟩ := Option.ne_none_iff_exists'.mp (hlive (by rw [hphase]; rintro ⟨⟩))
      refine ⟨.resend, ?_⟩
      simp [RetransAct.byWorker, RetransUse, retransStep, hrunning, hphase, doPacketRetransmit, hd]
  | again =>
      rw [hphase, PhaseFits] at hfits
      cases resched with
      | fresh =>
          have hstep : ∃ q, workStep s.queue .rescheduleTest = some q := by
            simp [workStep, hrun, workRescheduleTest, hwork]
          obtain ⟨q, hq⟩ := hstep
          exact goesOn_work hq (by simp [follows, hrunning, hphase]) rfl
            (by simp [ProperUse, hrun, Worker.mayReschedule])
      | checking =>
          refine ⟨.readClock, ?_⟩
          simp [RetransAct.byWorker, RetransUse, retransStep, hrunning, hphase]
      | refused => exact hepilogue (by decide) (by simp [follows, hrunning])
      | done => exact absurd rfl hfits
  | clock now =>
      rw [hphase, PhaseFits] at hfits
      rcases hfits with rfl | rfl
      · obtain ⟨d, hd⟩ := Option.ne_none_iff_exists'.mp (hlive (by rw [hphase]; rintro ⟨⟩))
        have hout : w ∉ s.queue.workList := fun hmem => absurd (hin hmem) (by decide)
        obtain ⟨q, hq⟩ := workReschedule_total hwork hlock hout now (intU32 d.delay)
        have hstep : workStep s.queue (.reschedule now (intU32 d.delay)) = some q := by
          simp [workStep, hrun, hq]
        exact goesOn_work hstep (by simp [follows, hrunning, hphase, hd]) rfl trivial
      · exact hepilogue (by decide) (by simp [follows, hrunning])
  | ended =>
      rw [hphase, PhaseFits] at hfits
      subst hfits
      exact hepilogue (by decide) (by simp [follows, hrunning, hphase])

/-- While the lock is free the worker can always go on: it never meets an item
or a descriptor that was freed. -/
theorem RetransInv.goesOn {s : RetransState} (h : RetransInv s) (hlock : s.queue.workLock = false) :
    WorkerGoesOn s := by
  have hphase := h.queue.phase
  rw [PhaseInv] at hphase
  cases hworker : s.queue.worker with
  | idle =>
      obtain ⟨q, hq⟩ := workerPop_total h.queue.list hlock
      have hstep : workStep s.queue .pop = some q := by simp [workStep, hworker, hq]
      exact goesOn_work hstep rfl rfl trivial
  | popped w k =>
      simp only [hworker] at hphase
      obtain ⟨-, -, ⟨work, hwork, -⟩, -⟩ := hphase
      have hpro : ∃ q, workStep s.queue .prologue = some q := by
        rw [workStep, hworker]
        simp only [doWorkPrologue, hwork]
        exact ⟨_, rfl⟩
      obtain ⟨q, hq⟩ := hpro
      exact goesOn_work hq rfl rfl trivial
  | running w resched =>
      simp only [hworker] at hphase
      obtain ⟨-, hin, work, hwork, -⟩ := hphase
      cases hcall : s.calls w with
      | none => exact goesOn_foreign hlock hworker hcall hwork hin
      | some call => exact (h.item w call hcall).goesOn hlock hworker hcall hwork hin
  | skipped w =>
      simp only [hworker] at hphase
      obtain ⟨-, -, work, hwork, -⟩ := hphase
      obtain ⟨q, hq⟩ := doWorkEpilogue_total hwork
      have hstep : workStep s.queue .epilogue = some q := by simp [workStep, hworker, hq]
      exact goesOn_work hstep (by simp [follows, runningCall, hworker]) rfl trivial

/-! ## The result -/

theorem ItemKept.kept {s : RetransState} {w : Nat} {call : RetransCall} (h : ItemKept s w call) :
    CallKept s w call := by
  cases hd : s.desc w with
  | none =>
      obtain ⟨hlen, hfailures⟩ := h.dead hd
      refine ⟨h.apart, fun _ => hlen.le, fun _ => ?_, iff_of_true hd hfailures⟩
      rw [if_pos hlen]
      exact hfailures
  | some d =>
      have hlive := h.live d hd
      have hlen : 0 < call.maxtries → ((triesOf w s.log).length : Int) < call.maxtries := by
        intro hpos
        have := hlive.pos hpos
        rw [hlive.left] at this
        exact sub_pos.mp this
      refine ⟨h.apart, fun hpos => (hlen hpos).le, fun hpos => ?_, iff_of_false ?_ ?_⟩
      · rw [if_neg (hlen hpos).ne]
        exact hlive.failures
      · rw [hd]
        exact Option.some_ne_none d
      · rw [hlive.failures]
        decide

/-- Two tries, three ticks apart, and the failure. -/
def retriedTwice : List RetransAct :=
  [.schedule 0 7 2 3 5] ++ List.replicate 4 (.work .tick) ++
    [.work .pop, .work .prologue, .resend, .work .rescheduleTest, .readClock,
      .work (.reschedule 9 3), .work .epilogue] ++ List.replicate 4 (.work .tick) ++
    [.work .pop, .work .prologue, .resend, .work .epilogue]

end Levos.Net
