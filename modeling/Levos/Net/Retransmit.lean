import Levos.Kernel.WorkFrames

/-!
# Retransmission (`net/packet.c`, `kernel/work.c`)

`packet_schedule_retransmission` gives a packet an item of work, whose callback
`do_packet_retransmit` sends the packet again and puts the item back until no
tries are left. The queue is that of `Kernel.Work`, shared with every other
user of it; cancellation may come at any time.

The callback is cut where others may come in between: the send with the count
of the tries, the test of `work_reschedule`, the reading of the clock, the
insertion. A step that uses a descriptor or an item that was freed cannot be
taken.
-/

namespace Levos.Net

open Levos.Base Levos.Kernel

/-! ## The state -/

/-- `struct packet_retransmission_descriptor`. -/
structure RetransDesc where
  ni : Nat
  pkt : Nat
  triesLeft : Int
  delay : Int
deriving DecidableEq, Repr

/-- What `packet_schedule_retransmission` was called with, and the tick its
delay counts from. -/
structure RetransCall where
  ni : Nat
  pkt : Nat
  maxtries : Int
  delay : Int
  since : Nat
deriving DecidableEq, Repr

/-- How far `do_packet_retransmit` is: about to send, sent with tries left, in
`schedule_work_delay` with the tick it read, or back from the failure. -/
inductive RetransPhase : Type where
  | entry | again | clock (now : Nat) | ended
deriving DecidableEq, Repr

/-- What is done for the item `w`. `underWay`: its callback was about to send
when `work_cancel` returned. -/
inductive RetransEvent : Type where
  | sent (w ni pkt tick : Nat)
  | failed (w ni pkt : Nat)
  | cancelled (w : Nat) (underWay : Bool)
deriving DecidableEq, Repr

/-- `desc w` is what `work_aux` of `w` points to, while it is allocated;
`calls w` is there if `work_func` of `w` is `do_packet_retransmit`. -/
structure RetransState where
  queue : WorkQueue
  desc : Nat → Option RetransDesc
  calls : Nat → Option RetransCall
  phase : RetransPhase
  log : List RetransEvent

/-! ## The functions of the source -/

/-- An `int` passed as `uint32_t`. -/
def intU32 (x : Int) : Nat := (x % 2 ^ 32).toNat

/-- `packet_schedule_retransmission`, with memory for the descriptor and the
item; `early` is the tick `schedule_work_delay` has read. -/
def packetScheduleRetransmission (s : RetransState) (ni pkt : Nat) (maxtries delay : Int)
    (early : Nat) : Option RetransState :=
  (scheduleWorkDelay (workCreate s.queue) s.queue.created early (intU32 delay)).map fun r =>
    { s with
      queue := r.1
      desc := Function.update s.desc s.queue.created (some ⟨ni, pkt, maxtries, delay⟩)
      calls := Function.update s.calls s.queue.created (some ⟨ni, pkt, maxtries, delay, early⟩) }

/-- `do_packet_retransmit` up to `work_reschedule`, with
`handle_failed_transmission`. -/
def doPacketRetransmit (s : RetransState) (w : Nat) : Option RetransState :=
  (s.desc w).map fun d =>
    if d.triesLeft - 1 = 0 then
      { s with
        desc := Function.update s.desc w none
        phase := .ended
        log := s.log ++ [.sent w d.ni d.pkt s.queue.ticks, .failed w d.ni d.pkt] }
    else
      { s with
        desc := Function.update s.desc w (some { d with triesLeft := d.triesLeft - 1 })
        phase := .again
        log := s.log ++ [.sent w d.ni d.pkt s.queue.ticks] }

/-! ## The system -/

inductive RetransAct : Type where
  | schedule (ni pkt : Nat) (maxtries delay : Int) (early : Nat)
  | resend
  | readClock
  | work (a : WorkAct)
deriving DecidableEq, Repr

/-- The retransmission that the worker runs, and how far it is with
`work_reschedule`. -/
def runningCall (s : RetransState) : Option (Nat × Resched) :=
  match s.queue.worker with
  | .running w resched => if s.calls w = none then none else some (w, resched)
  | _ => none

/-- `do_packet_retransmit` of `w` is about to send. -/
def underWay (s : RetransState) (w : Nat) : Bool :=
  runningCall s = some (w, .fresh) ∧ s.phase = .entry

/-- The steps of the queue that follow the code: the item of a retransmission
is scheduled by its own callback only, and that one calls
`work_reschedule(desc->delay)` once, after a send that leaves tries. -/
def follows (s : RetransState) (a : WorkAct) : Bool :=
  match a, runningCall s with
  | .scheduleAt w _, _ => (s.calls w).isNone
  | .scheduleDelay w _ _, _ => (s.calls w).isNone
  | .rescheduleTest, some (_, resched) => s.phase = .again ∧ resched = .fresh
  | .reschedule early delay, some (w, _) =>
      s.phase = .clock early ∧ (s.desc w).any fun d => intU32 d.delay = delay
  | .epilogue, some (_, resched) => s.phase = .ended ∨ resched = .refused ∨ resched = .done
  | _, _ => true

/-- What a step of the queue adds to the log. -/
def cancelNote (s : RetransState) : WorkAct → List RetransEvent
  | .cancel w => [.cancelled w (underWay s w)]
  | _ => []

def retransStep (s : RetransState) : RetransAct → Option RetransState
  | .schedule ni pkt maxtries delay early =>
      if early ≤ s.queue.ticks then packetScheduleRetransmission s ni pkt maxtries delay early
      else none
  | .resend =>
      match runningCall s with
      | some (w, .fresh) => if s.phase = .entry then doPacketRetransmit s w else none
      | _ => none
  | .readClock =>
      match runningCall s with
      | some (_, .checking) =>
          if s.phase = .again then some { s with phase := .clock s.queue.ticks } else none
      | _ => none
  | .work a =>
      if follows s a then
        (workStep s.queue a).map fun q =>
          { s with
            queue := q
            phase := if a = .prologue then .entry else s.phase
            log := s.log ++ cancelNote s a }
      else none

/-- `work_init` at some tick. -/
def retransInit (ticks : Nat) : RetransState where
  queue := workInit ticks
  desc := fun _ => none
  calls := fun _ => none
  phase := .entry
  log := []

/-- The other users of the queue use it properly. -/
def RetransUse (s : RetransState) : RetransAct → Prop
  | .work a => ProperUse s.queue a
  | _ => True

instance (s : RetransState) : ∀ a, Decidable (RetransUse s a)
  | .work a => inferInstanceAs (Decidable (ProperUse s.queue a))
  | .schedule _ _ _ _ _ | .resend | .readClock => isTrue trivial

/-- A step of the worker thread. -/
def RetransAct.byWorker : RetransAct → Bool
  | .resend | .readClock => true
  | .work .pop | .work .prologue | .work .rescheduleTest | .work (.reschedule _ _)
  | .work .epilogue => true
  | _ => false

/-! ## What is to be proved -/

/-- The ticks at which the packet of `w` was sent again. -/
def triesOf (w : Nat) (log : List RetransEvent) : List Nat :=
  log.filterMap fun
    | .sent v _ _ tick => if v = w then some tick else none
    | _ => none

/-- How often the failure of `w` was reported. -/
def failuresOf (w : Nat) (log : List RetransEvent) : Nat :=
  log.countP fun
    | .failed v _ _ => v = w
    | _ => false

/-- `e` is of the packet and the interface of the call for its item. -/
def RetransEvent.OfCall (calls : Nat → Option RetransCall) : RetransEvent → Prop
  | .sent w ni pkt _ | .failed w ni pkt =>
      ∃ call, calls w = some call ∧ call.ni = ni ∧ call.pkt = pkt
  | .cancelled _ _ => True

/-- A call is carried out: the tries are more than the delay apart and no more
than asked for, the failure is reported once, with the last of them, and then
the descriptor is gone. -/
structure CallKept (s : RetransState) (w : Nat) (call : RetransCall) : Prop where
  apart : (call.since :: triesOf w s.log).Pairwise fun a b => a + intU32 call.delay < b
  bound : 0 < call.maxtries → (triesOf w s.log).length ≤ call.maxtries
  reported : 0 < call.maxtries →
    failuresOf w s.log = if (triesOf w s.log).length = call.maxtries then 1 else 0
  freed : s.desc w = none ↔ failuresOf w s.log = 1

/-! ## The log -/

theorem triesOf_append (w : Nat) (l₁ l₂ : List RetransEvent) :
    triesOf w (l₁ ++ l₂) = triesOf w l₁ ++ triesOf w l₂ := List.filterMap_append

theorem failuresOf_append (w : Nat) (l₁ l₂ : List RetransEvent) :
    failuresOf w (l₁ ++ l₂) = failuresOf w l₁ + failuresOf w l₂ := List.countP_append

@[simp] theorem triesOf_nil (w : Nat) : triesOf w [] = [] := rfl

@[simp] theorem failuresOf_nil (w : Nat) : failuresOf w [] = 0 := rfl

@[simp] theorem triesOf_sent_self (w ni pkt tick : Nat) (l : List RetransEvent) :
    triesOf w (.sent w ni pkt tick :: l) = tick :: triesOf w l := by
  simp [triesOf]

theorem triesOf_sent_of_ne {v w : Nat} (h : w ≠ v) (ni pkt tick : Nat) (l : List RetransEvent) :
    triesOf v (.sent w ni pkt tick :: l) = triesOf v l := by
  simp [triesOf, h]

@[simp] theorem triesOf_failed (v w ni pkt : Nat) (l : List RetransEvent) :
    triesOf v (.failed w ni pkt :: l) = triesOf v l := rfl

@[simp] theorem triesOf_cancelled (v w : Nat) (u : Bool) (l : List RetransEvent) :
    triesOf v (.cancelled w u :: l) = triesOf v l := rfl

@[simp] theorem failuresOf_sent (v w ni pkt tick : Nat) (l : List RetransEvent) :
    failuresOf v (.sent w ni pkt tick :: l) = failuresOf v l := by
  simp [failuresOf]

@[simp] theorem failuresOf_cancelled (v w : Nat) (u : Bool) (l : List RetransEvent) :
    failuresOf v (.cancelled w u :: l) = failuresOf v l := by
  simp [failuresOf]

@[simp] theorem failuresOf_failed_self (w ni pkt : Nat) (l : List RetransEvent) :
    failuresOf w (.failed w ni pkt :: l) = failuresOf w l + 1 := by
  simp [failuresOf]

theorem failuresOf_failed_of_ne {v w : Nat} (h : w ≠ v) (ni pkt : Nat) (l : List RetransEvent) :
    failuresOf v (.failed w ni pkt :: l) = failuresOf v l := by
  simp [failuresOf, h]

/-- An event of an item is of a call for it. -/
theorem triesOf_eq_nil {calls : Nat → Option RetransCall} {log : List RetransEvent} {w : Nat}
    (h : ∀ e ∈ log, e.OfCall calls) (hw : calls w = none) :
    triesOf w log = [] ∧ failuresOf w log = 0 := by
  induction log with
  | nil => exact ⟨rfl, rfl⟩
  | cons e log ih =>
      obtain ⟨htries, hfailures⟩ := ih fun e' he' => h e' (List.mem_cons_of_mem _ he')
      have he := h e List.mem_cons_self
      cases e with
      | sent v ni pkt tick =>
          obtain ⟨call, hcall, -⟩ := he
          have hne : v ≠ w := by
            rintro rfl
            rw [hw] at hcall
            cases hcall
          rw [triesOf_sent_of_ne hne, failuresOf_sent]
          exact ⟨htries, hfailures⟩
      | failed v ni pkt =>
          obtain ⟨call, hcall, -⟩ := he
          have hne : v ≠ w := by
            rintro rfl
            rw [hw] at hcall
            cases hcall
          rw [triesOf_failed, failuresOf_failed_of_ne hne]
          exact ⟨htries, hfailures⟩
      | cancelled v u =>
          rw [triesOf_cancelled, failuresOf_cancelled]
          exact ⟨htries, hfailures⟩

theorem triesOf_cancelNote (s : RetransState) (w : Nat) (a : WorkAct) :
    triesOf w (cancelNote s a) = [] ∧ failuresOf w (cancelNote s a) = 0 := by
  cases a <;> exact ⟨rfl, rfl⟩

theorem ofCall_cancelNote (s : RetransState) (calls : Nat → Option RetransCall) (a : WorkAct) :
    ∀ e ∈ cancelNote s a, e.OfCall calls := by
  intro e he
  cases a with
  | cancel w =>
      obtain rfl := List.mem_singleton.mp he
      trivial
  | _ => cases he

/-! ## What one step can do -/

theorem runningCall_some {s : RetransState} {w : Nat} {resched : Resched}
    (h : runningCall s = some (w, resched)) :
    s.queue.worker = .running w resched ∧ ∃ call, s.calls w = some call := by
  rw [runningCall] at h
  split at h
  · next hrun =>
      split at h
      · cases h
      · next hcall =>
          cases h
          exact ⟨hrun, Option.ne_none_iff_exists'.mp hcall⟩
  · cases h

theorem runningCall_eq {s : RetransState} {w : Nat} {resched : Resched} {call : RetransCall}
    (hrun : s.queue.worker = .running w resched) (hcall : s.calls w = some call) :
    runningCall s = some (w, resched) := by
  simp [runningCall, hrun, hcall]

inductive RetransStepped (s : RetransState) : RetransAct → RetransState → Prop where
  | schedule {ni pkt : Nat} {maxtries delay : Int} {early : Nat} {r : WorkQueue × Int}
      (hearly : early ≤ s.queue.ticks)
      (h : scheduleWorkDelay (workCreate s.queue) s.queue.created early (intU32 delay) = some r) :
      RetransStepped s (.schedule ni pkt maxtries delay early)
        { s with
          queue := r.1
          desc := Function.update s.desc s.queue.created (some ⟨ni, pkt, maxtries, delay⟩)
          calls := Function.update s.calls s.queue.created
            (some ⟨ni, pkt, maxtries, delay, early⟩) }
  | sentLast {w : Nat} {call : RetransCall} {d : RetransDesc}
      (hrun : s.queue.worker = .running w .fresh) (hcall : s.calls w = some call)
      (hphase : s.phase = .entry) (hd : s.desc w = some d) (hleft : d.triesLeft - 1 = 0) :
      RetransStepped s .resend
        { s with
          desc := Function.update s.desc w none
          phase := .ended
          log := s.log ++ [.sent w d.ni d.pkt s.queue.ticks, .failed w d.ni d.pkt] }
  | sent {w : Nat} {call : RetransCall} {d : RetransDesc}
      (hrun : s.queue.worker = .running w .fresh) (hcall : s.calls w = some call)
      (hphase : s.phase = .entry) (hd : s.desc w = some d) (hleft : d.triesLeft - 1 ≠ 0) :
      RetransStepped s .resend
        { s with
          desc := Function.update s.desc w (some { d with triesLeft := d.triesLeft - 1 })
          phase := .again
          log := s.log ++ [.sent w d.ni d.pkt s.queue.ticks] }
  | readClock {w : Nat} {call : RetransCall} (hrun : s.queue.worker = .running w .checking)
      (hcall : s.calls w = some call) (hphase : s.phase = .again) :
      RetransStepped s .readClock { s with phase := .clock s.queue.ticks }
  | work {a : WorkAct} {q : WorkQueue} (hfollows : follows s a = true)
      (h : workStep s.queue a = some q) :
      RetransStepped s (.work a)
        { s with
          queue := q
          phase := if a = .prologue then .entry else s.phase
          log := s.log ++ cancelNote s a }

theorem retransStep_some {s t : RetransState} {a : RetransAct} (hs : retransStep s a = some t) :
    RetransStepped s a t := by
  cases a with
  | schedule ni pkt maxtries delay early =>
      rw [retransStep] at hs
      split at hs
      · next hearly =>
          obtain ⟨r, h, rfl⟩ := Option.map_eq_some_iff.mp hs
          exact .schedule hearly h
      · cases hs
  | resend =>
      simp only [retransStep] at hs
      split at hs
      · next w hrunning =>
          obtain ⟨hrun, call, hcall⟩ := runningCall_some hrunning
          split at hs
          · next hphase =>
              obtain ⟨d, hd, rfl⟩ := Option.map_eq_some_iff.mp hs
              split
              · next hleft => exact .sentLast hrun hcall hphase hd hleft
              · next hleft => exact .sent hrun hcall hphase hd hleft
          · cases hs
      · cases hs
  | readClock =>
      simp only [retransStep] at hs
      split at hs
      · next w hrunning =>
          obtain ⟨hrun, call, hcall⟩ := runningCall_some hrunning
          split at hs
          · next hphase =>
              obtain rfl := Option.some.inj hs
              exact .readClock hrun hcall hphase
          · cases hs
      · cases hs
  | work a =>
      rw [retransStep] at hs
      split at hs
      · next hfollows =>
          obtain ⟨q, h, rfl⟩ := Option.map_eq_some_iff.mp hs
          exact .work hfollows h
      · cases hs

end Levos.Net
