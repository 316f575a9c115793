import Levos.Net.Retransmit

/-!
# Cancelling a retransmission (`net/packet.c`, `kernel/work.c`)

`work_cancel` marks the item; a callback that is about to send when it returns
still sends. What else may follow is nothing, if the cancellation comes before
the callback is past the test of `work_reschedule`.
-/

namespace Levos.Net

open Levos.Base Levos.Kernel

/-- `work_cancel` comes before the callback is past the test of
`work_reschedule`. -/
def RetransInTime (s : RetransState) : RetransAct → Prop
  | .work a => CancelledInTime s.queue a
  | _ => True

instance (s : RetransState) : ∀ a, Decidable (RetransInTime s a)
  | .work a => inferInstanceAs (Decidable (CancelledInTime s.queue a))
  | .schedule _ _ _ _ _ | .resend | .readClock => isTrue trivial

/-- Nothing is sent or reported for `w`. -/
def Quiet (w : Nat) (log : List RetransEvent) : Prop :=
  triesOf w log = [] ∧ failuresOf w log = 0

/-- What may follow a cancellation: nothing, or the one send that was under way
and the failure if it was the last. -/
def Stopped (w : Nat) (cancelledUnderWay : Bool) (after : List RetransEvent) : Prop :=
  Quiet w after ∨ cancelledUnderWay = true ∧ (triesOf w after).length = 1 ∧ failuresOf w after ≤ 1

/-- After the cancellation `w` is stopped; only a send that was under way then
may still be ahead. -/
structure StopInv (s : RetransState) : Prop where
  queue : CancelInv s.queue
  seen : ∀ w u, .cancelled w u ∈ s.log → ∃ e ∈ s.queue.events, e.cancels w = true
  stopped : ∀ w u l₁ l₂, s.log = l₁ ++ .cancelled w u :: l₂ →
    Stopped w u l₂ ∧ (underWay s w = true → u = true ∧ Quiet w l₂)

theorem underWay_iff {s : RetransState} {w : Nat} :
    underWay s w = true ↔
      s.queue.worker = .running w .fresh ∧ s.calls w ≠ none ∧ s.phase = .entry := by
  rw [underWay, decide_eq_true_iff]
  constructor
  · rintro ⟨hrunning, hphase⟩
    obtain ⟨hrun, call, hcall⟩ := runningCall_some hrunning
    exact ⟨hrun, by rw [hcall]; exact Option.some_ne_none _, hphase⟩
  · rintro ⟨hrun, hcalls, hphase⟩
    obtain ⟨call, hcall⟩ := Option.ne_none_iff_exists'.mp hcalls
    exact ⟨runningCall_eq hrun hcall, hphase⟩

theorem Quiet.append {w : Nat} {l₁ l₂ : List RetransEvent} (h₁ : Quiet w l₁) (h₂ : Quiet w l₂) :
    Quiet w (l₁ ++ l₂) :=
  ⟨by rw [triesOf_append, h₁.1, h₂.1]; rfl, by rw [failuresOf_append, h₁.2, h₂.2]⟩

theorem Stopped.append {w : Nat} {u : Bool} {l₁ l₂ : List RetransEvent} (h₁ : Stopped w u l₁)
    (h₂ : Quiet w l₂) : Stopped w u (l₁ ++ l₂) := by
  rcases h₁ with hquiet | ⟨hu, hlen, hfailures⟩
  · exact .inl (hquiet.append h₂)
  · refine .inr ⟨hu, ?_, ?_⟩
    · rw [triesOf_append, h₂.1, List.append_nil]
      exact hlen
    · rw [failuresOf_append, h₂.2]
      exact hfailures

/-- A cancellation in a longer log is in the part before, or in the new one. -/
theorem split_append {α : Type} {l new l₁ l₂ : List α} {e : α} (h : l ++ new = l₁ ++ e :: l₂) :
    (∃ l', l₂ = l' ++ new ∧ l = l₁ ++ e :: l') ∨ e ∈ new ∧ ∃ l', new = l' ++ e :: l₂ := by
  rcases List.append_eq_append_iff.mp h with ⟨l', hl, hnew⟩ | ⟨l', hl, hrest⟩
  · exact .inr ⟨hnew ▸ List.mem_append_right _ List.mem_cons_self, l', hnew⟩
  · cases l' with
    | nil =>
        obtain rfl : e :: l₂ = new := hrest
        exact .inr ⟨List.mem_cons_self, [], rfl⟩
    | cons x l' =>
        obtain ⟨rfl, htail⟩ := List.cons.inj hrest
        exact .inl ⟨l', htail, hl⟩

/-- A step that adds no cancellation and nothing for a cancelled item, and
starts no cancelled callback. -/
theorem StopInv.frame {s t : RetransState} (h : StopInv s) (hqueue : CancelInv t.queue)
    (hevents : ∀ e ∈ s.queue.events, e ∈ t.queue.events) {new : List RetransEvent}
    (hlog : t.log = s.log ++ new) (hnew : ∀ w u, .cancelled w u ∉ new)
    (hquiet : ∀ w u, .cancelled w u ∈ s.log → Quiet w new)
    (hway : ∀ w u, .cancelled w u ∈ s.log → underWay t w = true → underWay s w = true) :
    StopInv t := by
  refine ⟨hqueue, fun w u hmem => ?_, fun w u l₁ l₂ hsplit => ?_⟩
  · rw [hlog] at hmem
    obtain ⟨e, he, hcancels⟩ := h.seen w u ((List.mem_append.mp hmem).resolve_right (hnew w u))
    exact ⟨e, hevents e he, hcancels⟩
  · rw [hlog] at hsplit
    obtain ⟨l', rfl, hold⟩ := (split_append hsplit).resolve_right fun hin => hnew w u hin.1
    have hmem : .cancelled w u ∈ s.log := hold ▸ List.mem_append_right _ List.mem_cons_self
    obtain ⟨hstopped, hstart⟩ := h.stopped w u l₁ l' hold
    refine ⟨hstopped.append (hquiet w u hmem), fun hunder => ?_⟩
    obtain ⟨hu, hquiet'⟩ := hstart (hway w u hmem hunder)
    exact ⟨hu, hquiet'.append (hquiet w u hmem)⟩

/-- A send: what was under way is now done. -/
theorem StopInv.send {s t : RetransState} {w : Nat} (h : StopInv s) (hunder : underWay s w = true)
    (hqueue : t.queue = s.queue) (hphase : t.phase ≠ .entry) {new : List RetransEvent}
    (hlog : t.log = s.log ++ new) (hnew : ∀ v u, .cancelled v u ∉ new)
    (hself : (triesOf w new).length = 1 ∧ failuresOf w new ≤ 1) (hothers : ∀ v, v ≠ w → Quiet v new) :
    StopInv t := by
  have hpast : ∀ v, underWay t v ≠ true := fun v hv => hphase (underWay_iff.mp hv).2.2
  refine ⟨hqueue ▸ h.queue, fun v u hmem => ?_, fun v u l₁ l₂ hsplit => ⟨?_, fun hv => ?_⟩⟩
  · rw [hlog] at hmem
    rw [hqueue]
    exact h.seen v u ((List.mem_append.mp hmem).resolve_right (hnew v u))
  · rw [hlog] at hsplit
    obtain ⟨l', rfl, hold⟩ := (split_append hsplit).resolve_right fun hin => hnew v u hin.1
    obtain ⟨hstopped, hstart⟩ := h.stopped v u l₁ l' hold
    by_cases hv : v = w
    · subst hv
      obtain ⟨hu, htries, hfailures⟩ := hstart hunder
      refine .inr ⟨hu, ?_, ?_⟩
      · rw [triesOf_append, htries]
        exact hself.1
      · rw [failuresOf_append, hfailures, Nat.zero_add]
        exact hself.2
    · exact hstopped.append (hothers v hv)
  · exact absurd hv (hpast v)

/-- `work_cancel`. -/
theorem StopInv.cancel {s t : RetransState} {w : Nat} (h : StopInv s) (hqueue : CancelInv t.queue)
    (hevents : ∀ e ∈ s.queue.events, e ∈ t.queue.events) (hnote : .cancelled w ∈ t.queue.events)
    (hlog : t.log = s.log ++ [.cancelled w (underWay s w)])
    (hway : ∀ v, underWay t v = true → underWay s v = true) : StopInv t := by
  refine ⟨hqueue, fun v u hmem => ?_, fun v u l₁ l₂ hsplit => ?_⟩
  · rw [hlog] at hmem
    rcases List.mem_append.mp hmem with hmem | hmem
    · obtain ⟨e, he, hcancels⟩ := h.seen v u hmem
      exact ⟨e, hevents e he, hcancels⟩
    · cases List.mem_singleton.mp hmem
      exact ⟨_, hnote, decide_eq_true rfl⟩
  · rw [hlog] at hsplit
    rcases split_append hsplit with ⟨l', rfl, hold⟩ | ⟨hmem, l', hnew⟩
    · have hquiet : Quiet v [.cancelled w (underWay s w)] := ⟨rfl, rfl⟩
      obtain ⟨hstopped, hstart⟩ := h.stopped v u l₁ l' hold
      refine ⟨hstopped.append hquiet, fun hunder => ?_⟩
      obtain ⟨hu, hquiet'⟩ := hstart (hway v hunder)
      exact ⟨hu, hquiet'.append hquiet⟩
    · cases List.mem_singleton.mp hmem
      obtain ⟨-, htail⟩ := List.append_eq_singleton_iff.mp hnew.symm |>.resolve_right (by simp)
      obtain rfl := (List.cons_eq_cons.mp htail).2
      exact ⟨.inl ⟨rfl, rfl⟩, fun hunder => ⟨hway w hunder, rfl, rfl⟩⟩

theorem stopInv_step (s : RetransState) (a : RetransAct) (t : RetransState) (h : StopInv s)
    (htime : RetransInTime s a) (hs : retransStep s a = some t) : StopInv t := by
  cases retransStep_some hs with
  | @schedule ni pkt maxtries delay early r hearly hr =>
      have hqueue : CancelInv r.1 := h.queue.workCreate.scheduleWorkAt hr
      obtain ⟨work, -, hcase⟩ := scheduleWorkAt_cases hr
      have hsame : r.1.worker = s.queue.worker ∧ ∀ e ∈ s.queue.events, e ∈ r.1.events := by
        rcases hcase with heq | ⟨-, -, heq⟩
        · rw [heq]
          exact ⟨rfl, fun e he => he⟩
        · rw [heq]
          exact ⟨rfl, fun e he => List.mem_append_left _ he⟩
      refine h.frame hqueue hsame.2 (List.append_nil _).symm (by simp) (fun _ _ _ => ⟨rfl, rfl⟩)
        fun w u _ hunder => ?_
      obtain ⟨hrun, hcalls, hphase⟩ := underWay_iff.mp hunder
      have hrun' := hsame.1.symm.trans hrun
      have hne : w ≠ s.queue.created := (h.queue.busy w (by rw [hrun']; rfl)).ne
      exact underWay_iff.mpr
        ⟨hrun', (Function.update_of_ne hne _ s.calls).symm.trans_ne hcalls, hphase⟩
  | @sentLast w call d hrun hcall hphase hd hleft =>
      have hunder : underWay s w = true :=
        underWay_iff.mpr ⟨hrun, by rw [hcall]; exact Option.some_ne_none _, hphase⟩
      refine h.send hunder rfl (by rintro ⟨⟩) rfl (by simp) (by simp) fun v hv => ?_
      rw [Quiet, triesOf_sent_of_ne (Ne.symm hv), failuresOf_sent,
        failuresOf_failed_of_ne (Ne.symm hv)]
      exact ⟨rfl, rfl⟩
  | @sent w call d hrun hcall hphase hd hleft =>
      have hunder : underWay s w = true :=
        underWay_iff.mpr ⟨hrun, by rw [hcall]; exact Option.some_ne_none _, hphase⟩
      refine h.send hunder rfl (by rintro ⟨⟩) rfl (by simp) (by simp) fun v hv => ?_
      rw [Quiet, triesOf_sent_of_ne (Ne.symm hv), failuresOf_sent]
      exact ⟨rfl, rfl⟩
  | @readClock w call hrun hcall hphase =>
      refine h.frame h.queue (fun _ he => he) (List.append_nil _).symm (by simp)
        (fun _ _ _ => ⟨rfl, rfl⟩) fun v u _ hunder => ?_
      cases (underWay_iff.mp hunder).2.2
  | @work a q hfollows hq =>
      have hstep := workStep_some hq
      have hqueue : CancelInv q := cancelInv_step _ _ _ h.queue htime hq
      obtain ⟨hevents, hnote⟩ := WorkStepped.events hstep
      -- a callback that is under way was so before, or starts now and was not killed
      have hway : ∀ v, underWay { s with
          queue := q
          phase := if a = .prologue then .entry else s.phase
          log := s.log ++ cancelNote s a } v = true →
          underWay s v = true ∨
            a = .prologue ∧ ∃ work, s.queue.items v = some work ∧ work.killed = false := by
        intro v hunder
        obtain ⟨hrun, hcalls, hphase⟩ := underWay_iff.mp hunder
        rcases WorkStepped.fresh hstep hrun with ⟨hrun', hne⟩ | hstart
        · dsimp only at hphase
          rw [if_neg hne] at hphase
          exact .inl (underWay_iff.mpr ⟨hrun', hcalls, hphase⟩)
        · exact .inr hstart
      by_cases hcancel : ∃ w, a = .cancel w
      · obtain ⟨w, rfl⟩ := hcancel
        refine h.cancel hqueue hevents (hnote w rfl) rfl fun v hunder => ?_
        refine (hway v hunder).resolve_right ?_
        rintro ⟨⟨⟩, -⟩
      · have hnone : cancelNote s a = [] := by
          cases a with
          | cancel w => exact absurd ⟨w, rfl⟩ hcancel
          | _ => rfl
        refine h.frame hqueue hevents rfl (by simp [hnone])
          (fun _ _ _ => by rw [hnone]; exact ⟨rfl, rfl⟩) fun v u hmem hunder => ?_
        refine (hway v hunder).resolve_right ?_
        rintro ⟨-, work, hwork, hkilled⟩
        have hmark := ((h.queue.item v work hwork).seen (h.seen v u hmem)).1
        rw [hkilled] at hmark
        cases hmark

theorem stopInv_init (ticks : Nat) : StopInv (retransInit ticks) :=
  ⟨cancelInv_workInit ticks, fun _ _ hmem => absurd hmem List.not_mem_nil,
    fun _ _ _ _ hsplit => absurd hsplit.symm (by simp [retransInit])⟩

/-- **Cancellation stops retransmission.** In every run in which items are
cancelled before their callback is past the test of `work_reschedule`: once
`work_cancel` has returned for a packet, it is not sent again and no failure is
reported, but for the one send that was under way. -/
theorem retransmission_stops {ticks : Nat} {as : List RetransAct} {s : RetransState}
    (hm : StepsMeet retransStep RetransInTime (retransInit ticks) as)
    (hrun : runSteps retransStep (retransInit ticks) as = some s) {w : Nat} {u : Bool}
    {before after : List RetransEvent} (hlog : s.log = before ++ .cancelled w u :: after) :
    Stopped w u after ∧ s.queue.workLock = false := by
  have hinv : StopInv s :=
    runSteps_invariant_of_meet stopInv_step (stopInv_init ticks) hm hrun
  exact ⟨(hinv.stopped w u before after hlog).1, hinv.queue.lock⟩

/-- Cancelled as the second try begins, and once more. -/
def cancelledSecond : List RetransAct :=
  [.schedule 0 7 10 3 5] ++ List.replicate 4 (.work .tick) ++
    [.work .pop, .work .prologue, .resend, .work .rescheduleTest, .readClock,
      .work (.reschedule 9 3), .work .epilogue] ++ List.replicate 4 (.work .tick) ++
    [.work .pop, .work .prologue, .work (.cancel 0), .resend, .work (.cancel 0),
      .work .rescheduleTest, .work .epilogue] ++ List.replicate 9 (.work .tick) ++ [.work .pop]

theorem retransmission_stops_second :
    ∃ s, runSteps retransStep (retransInit 5) cancelledSecond = some s ∧
      Stopped 0 true [.sent 0 0 7 13, .cancelled 0 false] ∧ s.queue.workLock = false := by
  obtain ⟨s, hs, hlog⟩ := Option.map_eq_some_iff.mp
    (show (runSteps retransStep (retransInit 5) cancelledSecond).map RetransState.log =
      some [.sent 0 0 7 9, .cancelled 0 true, .sent 0 0 7 13, .cancelled 0 false] by decide +kernel)
  have hsplit : s.log = [.sent 0 0 7 9] ++ .cancelled 0 true :: [.sent 0 0 7 13, .cancelled 0 false] :=
    hlog
  exact ⟨s, hs, retransmission_stops (by decide +kernel) hs hsplit⟩

end Levos.Net
