import Levos.Lib.LinkedList
import Mathlib.Logic.Relation

/-!
# The queue of received frames (`net/packet.c`)

The interrupt handler of the card puts a descriptor at the end of a list, and
a thread takes them from its front. They share a spinlock. There is one
processor, so the handler runs between two steps of the thread, from its start
to its end; the removal of `list_pop_front` is two writes.

What is said here is about the lock of the list; the heap has its own.

The frames are handled in the order in which they came, each of them once. A
handler that comes while the thread holds the lock waits for a thread that
cannot go on.
-/

namespace Levos.Net

open Levos.Lib

/-- `struct packet_desc`. -/
structure PacketDesc where
  pdata : BitVec 32
  plen : BitVec 32
  ni : BitVec 32
deriving DecidableEq, Repr

/-- Where the thread is in its loop. -/
inductive ThreadPc (N : Type) where
  | check
  | lock
  | front
  | setNext (e : N)
  | setPrev (e : N)
  | unlock (e : N)
  | handle (e : N)

/-- The list is between two sentinels. `live` are the descriptors that are not
freed, `spins` says that the handler waits for the lock, `pushed` and `handled`
are what was queued and what `handle_packet` was called with so far. -/
structure PacketQueue (N : Type) where
  links : Links N
  desc : N → PacketDesc
  live : List N
  locked : Bool
  pc : ThreadPc N
  spins : Bool
  pushed : List PacketDesc
  handled : List PacketDesc

section Queue

variable {N : Type} [DecidableEq N] (head tail : N)

/-! ## The functions of the source -/

/-- The start of `packet_processor_thread`. -/
def packetInit (links : Links N) (desc : N → PacketDesc) : PacketQueue N where
  links := listInit links head tail
  desc := desc
  live := []
  locked := false
  pc := .check
  spins := false
  pushed := []
  handled := []

/-- One step of the loop in `packet_processor_thread`; `mem` says whether
`handle_packet` gets its memory, without which it does not free the descriptor. -/
def threadStep (s : PacketQueue N) (mem : Bool) : PacketQueue N :=
  match s.pc with
  | .check => if s.links.next head = tail then s else { s with pc := .lock }
  | .lock => if s.locked then s else { s with locked := true, pc := .front }
  | .front => { s with pc := .setNext (s.links.next head) }
  | .setNext e =>
      { s with links := s.links.setNext (s.links.prev e) (s.links.next e), pc := .setPrev e }
  | .setPrev e =>
      { s with links := s.links.setPrev (s.links.next e) (s.links.prev e), pc := .unlock e }
  | .unlock e => { s with locked := false, pc := .handle e }
  | .handle e =>
      { s with
        handled := s.handled ++ [s.desc e]
        live := if mem then s.live.erase e else s.live
        pc := .check }

/-- `packet_push_queue`, with the descriptor that `malloc` returns. -/
def packetPushQueue (s : PacketQueue N) (new : Option N) (packet : PacketDesc) : PacketQueue N :=
  match new with
  | none => s
  | some e =>
      let s := { s with desc := Function.update s.desc e packet, live := e :: s.live }
      if s.locked then { s with spins := true }
      else { s with links := listPushBack s.links tail e, pushed := s.pushed ++ [packet] }

/-- The thread goes on, or there is an interrupt, unless the handler of the last
one still waits. -/
inductive PacketStep : PacketQueue N → PacketQueue N → Prop
  | thread {s : PacketQueue N} (mem : Bool) (h : s.spins = false) :
      PacketStep s (threadStep head tail s mem)
  | interrupt {s : PacketQueue N} (new : Option N) (packet : PacketDesc) (h : s.spins = false)
      (hnew : ∀ e ∈ new, e ∉ s.live ∧ e ≠ head ∧ e ≠ tail) :
      PacketStep s (packetPushQueue tail s new packet)

/-! ## The invariant -/

/-- The thread has the lock. -/
def ThreadPc.holds : ThreadPc N → Bool
  | .check | .lock | .handle _ => false
  | .front | .setNext _ | .setPrev _ | .unlock _ => true

/-- The descriptors in the list are `xs`; `hand` is the one that the thread is
taking out of it, or has. -/
def PacketQueue.Shape (s : PacketQueue N) (hand xs : List N) : Prop :=
  match s.pc with
  | .check => hand = [] ∧ Chain s.links head xs tail
  | .lock | .front => hand = [] ∧ xs ≠ [] ∧ Chain s.links head xs tail
  | .setNext e => hand = [e] ∧ Chain s.links head (e :: xs) tail
  | .setPrev e => hand = [e] ∧ ∃ m : Links N, Chain m head (e :: xs) tail ∧
      s.links = m.setNext (m.prev e) (m.next e)
  | .unlock e | .handle e => hand = [e] ∧ Chain s.links head xs tail

structure PacketInv (s : PacketQueue N) (hand xs : List N) : Prop where
  locked : s.locked = s.pc.holds
  live : ∀ e ∈ hand ++ xs, e ∈ s.live
  nodup : (hand ++ xs).Nodup
  head_notMem : head ∉ s.live
  tail_notMem : tail ∉ s.live
  order : s.pushed = s.handled ++ (hand ++ xs).map s.desc
  shape : s.Shape head tail hand xs

variable {head tail} {s s' : PacketQueue N} {hand xs : List N}

theorem packetInit_inv (links : Links N) (desc : N → PacketDesc) :
    PacketInv head tail (packetInit head tail links desc) [] [] where
  locked := rfl
  live := by simp
  nodup := List.nodup_nil
  head_notMem := List.not_mem_nil
  tail_notMem := List.not_mem_nil
  order := rfl
  shape := ⟨rfl, listInit_chain links head tail⟩

theorem packetPushQueue_locked (h : s.locked = true) (e : N) (packet : PacketDesc) :
    packetPushQueue tail s (some e) packet = { s with
      desc := Function.update s.desc e packet
      live := e :: s.live
      spins := true } := by
  simp [packetPushQueue, h]

theorem packetPushQueue_free (h : s.locked = false) (e : N) (packet : PacketDesc) :
    packetPushQueue tail s (some e) packet = { s with
      desc := Function.update s.desc e packet
      live := e :: s.live
      links := listPushBack s.links tail e
      pushed := s.pushed ++ [packet] } := by
  simp [packetPushQueue, h]

namespace PacketInv

/-- The sentinels and the list, without repetitions. -/
theorem chain_nodup (h : PacketInv head tail s hand xs) : (head :: xs).Nodup :=
  List.nodup_cons.mpr ⟨fun hm => h.head_notMem (h.live head (List.mem_append_right _ hm)),
    (List.nodup_append.mp h.nodup).2.1⟩

theorem tail_notMem_list (h : PacketInv head tail s hand xs) : tail ∉ xs :=
  fun hm => h.tail_notMem (h.live tail (List.mem_append_right _ hm))

/-- **A step of the thread.** -/
theorem thread (h : PacketInv head tail s hand xs) (mem : Bool) :
    ∃ hand' xs', PacketInv head tail (threadStep head tail s mem) hand' xs' := by
  have hshape := h.shape
  have hlocked := h.locked
  unfold PacketQueue.Shape at hshape
  unfold threadStep
  cases hpc : s.pc with
  | check =>
      rw [hpc] at hshape hlocked
      obtain ⟨rfl, hchain⟩ := hshape
      by_cases hempty : s.links.next head = tail
      · rw [if_pos hempty]
        exact ⟨[], xs, h⟩
      · rw [if_neg hempty]
        have hne : xs ≠ [] := by
          rintro rfl
          exact hempty hchain.1
        exact ⟨[], xs, hlocked, h.live, h.nodup, h.head_notMem, h.tail_notMem, h.order,
          rfl, hne, hchain⟩
  | lock =>
      rw [hpc] at hshape hlocked
      rw [show s.locked = false from hlocked]
      exact ⟨hand, xs, rfl, h.live, h.nodup, h.head_notMem, h.tail_notMem, h.order, hshape⟩
  | front =>
      rw [hpc] at hshape hlocked
      obtain ⟨rfl, hne, hchain⟩ := hshape
      obtain ⟨e, ys, rfl⟩ := List.exists_cons_of_ne_nil hne
      exact ⟨[e], ys, hlocked, h.live, h.nodup, h.head_notMem, h.tail_notMem, h.order,
        congrArg (fun n => [n]) hchain.1.symm, hchain.1.symm ▸ hchain⟩
  | setNext e =>
      rw [hpc] at hshape hlocked
      obtain ⟨rfl, hchain⟩ := hshape
      exact ⟨[e], xs, hlocked, h.live, h.nodup, h.head_notMem, h.tail_notMem, h.order,
        rfl, s.links, hchain, rfl⟩
  | setPrev e =>
      rw [hpc] at hshape hlocked
      obtain ⟨rfl, m, hchain, hlinks⟩ := hshape
      have hwhole : ∀ n, n ∈ e :: xs → n ∈ s.live := fun n hn => h.live n hn
      have hremoved : Chain (listRemove m e) head ([] ++ xs) tail :=
        Chain.remove hchain
          (List.nodup_cons.mpr ⟨fun hm => h.head_notMem (hwhole head hm), h.nodup⟩)
          (fun hm => h.tail_notMem (hwhole tail hm))
      have hwrite : s.links.setPrev (s.links.next e) (s.links.prev e) = listRemove m e := by
        rw [hlinks]
        rfl
      refine ⟨[e], xs, hlocked, h.live, h.nodup, h.head_notMem, h.tail_notMem, h.order, rfl, ?_⟩
      change Chain (s.links.setPrev (s.links.next e) (s.links.prev e)) head xs tail
      rw [hwrite]
      exact hremoved
  | unlock e =>
      rw [hpc] at hshape
      exact ⟨hand, xs, rfl, h.live, h.nodup, h.head_notMem, h.tail_notMem, h.order, hshape⟩
  | handle e =>
      rw [hpc] at hshape hlocked
      obtain ⟨rfl, hchain⟩ := hshape
      have hlive : ∀ n, n ≠ e → n ∈ s.live → n ∈ if mem then s.live.erase e else s.live := by
        intro n hne hn
        split
        · exact (List.mem_erase_of_ne hne).mpr hn
        · exact hn
      have hsub : ∀ n, n ∉ s.live → n ∉ if mem then s.live.erase e else s.live := by
        intro n hn
        split
        · exact fun hm => hn (List.mem_of_mem_erase hm)
        · exact hn
      obtain ⟨he, hxs⟩ := List.nodup_cons.mp h.nodup
      refine ⟨[], xs, hlocked, ?_, hxs, hsub head h.head_notMem, hsub tail h.tail_notMem, ?_, rfl,
        hchain⟩
      · exact fun n hn => hlive n (fun heq => he (heq ▸ hn))
          (h.live n (List.mem_append_right _ hn))
      · rw [h.order]
        simp

/-- **An interrupt.** -/
theorem interrupt (h : PacketInv head tail s hand xs) {new : Option N}
    (hnew : ∀ e ∈ new, e ∉ s.live ∧ e ≠ head ∧ e ≠ tail) (packet : PacketDesc) :
    ∃ xs', PacketInv head tail (packetPushQueue tail s new packet) hand xs' := by
  cases new with
  | none => exact ⟨xs, h⟩
  | some e =>
      obtain ⟨he, hhead, htail⟩ := hnew e rfl
      have hmap : (hand ++ xs).map (Function.update s.desc e packet) = (hand ++ xs).map s.desc :=
        List.map_congr_left fun n hn =>
          Function.update_of_ne (fun heq : n = e => he (heq ▸ h.live n hn)) ..
      have hlive : ∀ n ∈ hand ++ xs, n ∈ e :: s.live := fun n hn =>
        List.mem_cons_of_mem _ (h.live n hn)
      have hends : ∀ n, n ∉ s.live → e ≠ n → n ∉ e :: s.live := fun n hn hne hm =>
        (List.mem_cons.mp hm).elim (fun heq => hne heq.symm) hn
      cases hlocked : s.locked with
      | true =>
          rw [packetPushQueue_locked hlocked]
          exact ⟨xs, h.locked, hlive, h.nodup, hends head h.head_notMem hhead,
            hends tail h.tail_notMem htail, h.order.trans (congrArg _ hmap.symm), h.shape⟩
      | false =>
          rw [packetPushQueue_free hlocked]
          have hfree : s.pc.holds = false := h.locked.symm.trans hlocked
          have hexs : e ∉ hand ++ xs := fun hm => he (h.live e hm)
          have hpush : Chain s.links head xs tail →
              Chain (listPushBack s.links tail e) head (xs ++ [e]) tail := fun hchain =>
            hchain.push h.chain_nodup h.tail_notMem_list hhead htail
              fun hm => hexs (List.mem_append_right _ hm)
          refine ⟨xs ++ [e], h.locked, ?_, ?_, hends head h.head_notMem hhead,
            hends tail h.tail_notMem htail, ?_, ?_⟩
          · intro n hn
            rw [← List.append_assoc] at hn
            rcases List.mem_append.mp hn with hn | hn
            · exact hlive n hn
            · rw [List.mem_singleton.mp hn]
              exact List.mem_cons_self
          · rw [← List.append_assoc]
            exact List.nodup_append.mpr ⟨h.nodup, List.nodup_singleton e, fun n hn u hu heq =>
              hexs (List.mem_singleton.mp hu ▸ heq ▸ hn)⟩
          · dsimp only
            rw [← List.append_assoc, List.map_append, hmap, h.order]
            simp
          · have hshape := h.shape
            unfold PacketQueue.Shape at hshape ⊢
            cases hpc : s.pc with
            | check =>
                rw [hpc] at hshape
                exact ⟨hshape.1, hpush hshape.2⟩
            | lock =>
                rw [hpc] at hshape
                exact ⟨hshape.1, by simp, hpush hshape.2.2⟩
            | handle u =>
                rw [hpc] at hshape
                exact ⟨hshape.1, hpush hshape.2⟩
            | front =>
                rw [hpc] at hfree
                cases hfree
            | setNext u =>
                rw [hpc] at hfree
                cases hfree
            | setPrev u =>
                rw [hpc] at hfree
                cases hfree
            | unlock u =>
                rw [hpc] at hfree
                cases hfree

theorem step (h : PacketInv head tail s hand xs) (hstep : PacketStep head tail s s') :
    ∃ hand' xs', PacketInv head tail s' hand' xs' := by
  cases hstep with
  | thread mem _ => exact h.thread mem
  | interrupt new packet _ hnew => exact ⟨hand, h.interrupt hnew packet⟩

end PacketInv

/-- The states the queue can be in. -/
def PacketReached (head tail : N) (s : PacketQueue N) : Prop :=
  ∃ links desc, Relation.ReflTransGen (PacketStep head tail) (packetInit head tail links desc) s

/-- **In every state that is reached, by any interleaving.** -/
theorem PacketReached.inv (h : PacketReached head tail s) :
    ∃ hand xs, PacketInv head tail s hand xs := by
  obtain ⟨links, desc, hrun⟩ := h
  induction hrun with
  | refl => exact ⟨[], [], packetInit_inv links desc⟩
  | tail _ hstep ih =>
      obtain ⟨hand, xs, hinv⟩ := ih
      exact hinv.step hstep

/-! ## The thread catches up -/

/-- How far the thread is in a round of its loop. -/
def ThreadPc.stage : ThreadPc N → Nat
  | .check => 0
  | .lock => 1
  | .front => 2
  | .setNext _ => 3
  | .setPrev _ => 4
  | .unlock _ => 5
  | .handle _ => 6

/-- The steps that the thread has made for frames, seven for each. -/
def PacketQueue.steps (s : PacketQueue N) : Nat := 7 * s.handled.length + s.pc.stage

namespace PacketInv

theorem length_eq (h : PacketInv head tail s hand xs) :
    s.pushed.length = s.handled.length + (hand ++ xs).length := by
  rw [h.order, List.length_append, List.length_map]

/-- Outside of the test there is a frame under way. -/
theorem stage_le (h : PacketInv head tail s hand xs) :
    s.pc.stage = 0 ∨ s.pc.stage ≤ 6 ∧ 1 ≤ (hand ++ xs).length := by
  have hshape := h.shape
  unfold PacketQueue.Shape at hshape
  cases hpc : s.pc with
  | check => exact .inl rfl
  | lock | front =>
      rw [hpc] at hshape
      refine .inr ⟨by simp [ThreadPc.stage], ?_⟩
      rw [hshape.1, List.nil_append]
      exact List.length_pos_of_ne_nil hshape.2.1
  | setNext e | setPrev e | unlock e | handle e =>
      rw [hpc] at hshape
      refine .inr ⟨by simp [ThreadPc.stage], ?_⟩
      rw [hshape.1]
      simp

/-- There is nothing left to handle. -/
theorem handled_eq (h : PacketInv head tail s hand xs) (hsteps : 7 * s.pushed.length ≤ s.steps) :
    s.handled = s.pushed := by
  have hlength := h.length_eq
  have hnil : (hand ++ xs).length = 0 := by
    unfold PacketQueue.steps at hsteps
    rcases h.stage_le with hs | ⟨hs, hone⟩
    · omega
    · omega
  rw [h.order, List.length_eq_zero_iff.mp hnil, List.map_nil, List.append_nil]

/-- A step of the thread brings a frame on, or finds the list empty. -/
theorem thread_steps (h : PacketInv head tail s hand xs) (mem : Bool) :
    (threadStep head tail s mem).pushed = s.pushed ∧
      ((threadStep head tail s mem).steps = s.steps + 1 ∨
        s.handled = s.pushed ∧ threadStep head tail s mem = s) := by
  have hshape := h.shape
  have hlocked := h.locked
  unfold PacketQueue.Shape at hshape
  unfold threadStep PacketQueue.steps
  cases hpc : s.pc with
  | check =>
      rw [hpc] at hshape
      obtain ⟨rfl, hchain⟩ := hshape
      by_cases hempty : s.links.next head = tail
      · have hxs : xs = [] := by
          cases xs with
          | nil => rfl
          | cons x xs =>
              have hx : x = tail := hchain.1.symm.trans hempty
              exact absurd (hx ▸ List.mem_cons_self) h.tail_notMem_list
        rw [if_pos hempty]
        refine ⟨rfl, .inr ⟨?_, rfl⟩⟩
        rw [h.order, hxs]
        simp
      · rw [if_neg hempty]
        exact ⟨rfl, .inl rfl⟩
  | lock =>
      rw [hpc] at hlocked
      rw [show s.locked = false from hlocked]
      exact ⟨rfl, .inl rfl⟩
  | front => exact ⟨rfl, .inl rfl⟩
  | setNext e => exact ⟨rfl, .inl rfl⟩
  | setPrev e => exact ⟨rfl, .inl rfl⟩
  | unlock e => exact ⟨rfl, .inl rfl⟩
  | handle e =>
      refine ⟨rfl, .inl ?_⟩
      simp only [List.length_append, List.length_singleton, ThreadPc.stage]
      omega

/-- The thread alone. -/
theorem thread_run (h : PacketInv head tail s hand xs) (mems : List Bool) :
    ∃ hand' xs', PacketInv head tail (mems.foldl (threadStep head tail) s) hand' xs' ∧
      (mems.foldl (threadStep head tail) s).pushed = s.pushed ∧
      (s.steps + mems.length ≤ (mems.foldl (threadStep head tail) s).steps ∨
        7 * s.pushed.length ≤ (mems.foldl (threadStep head tail) s).steps) := by
  induction mems generalizing s hand xs with
  | nil => exact ⟨hand, xs, h, rfl, .inl (Nat.le_refl _)⟩
  | cons mem mems ih =>
      obtain ⟨hand', xs', h'⟩ := h.thread mem
      obtain ⟨hand'', xs'', hinv, hpushed, hsteps⟩ := ih h'
      obtain ⟨hsame, hstep⟩ := h.thread_steps mem
      rw [hsame] at hpushed hsteps
      refine ⟨hand'', xs'', hinv, hpushed, ?_⟩
      rw [List.foldl_cons, List.length_cons]
      rcases hstep with hstep | ⟨hall, hidle⟩
      · rw [hstep] at hsteps
        rcases hsteps with hsteps | hsteps
        · left
          omega
        · exact .inr hsteps
      · rw [hidle] at hsteps ⊢
        right
        rcases hsteps with hsteps | hsteps
        · have hlow : 7 * s.pushed.length ≤ s.steps := by
            rw [PacketQueue.steps, hall]
            exact Nat.le_add_right _ _
          omega
        · exact hsteps

end PacketInv

/-- **The queue between the interrupt handler and the thread.** In every state
the frames handled are the first of those queued, in their order. The thread
alone handles the rest within seven steps for each. An interrupt waits for the
lock exactly when the thread holds it, and then nothing goes on. -/
theorem packet_queue_in_order (h : PacketReached head tail s) :
    s.handled <+: s.pushed ∧
      (∀ mems : List Bool, 7 * (s.pushed.length - s.handled.length) ≤ mems.length →
        (mems.foldl (threadStep head tail) s).handled = s.pushed) ∧
      (s.spins = false → ∀ (e : N) (packet : PacketDesc),
        (packetPushQueue tail s (some e) packet).spins = true ↔ s.pc.holds = true) ∧
      (s.spins = true → ∀ s', ¬PacketStep head tail s s') := by
  obtain ⟨hand, xs, hinv⟩ := h.inv
  refine ⟨⟨(hand ++ xs).map s.desc, hinv.order.symm⟩, ?_, ?_, ?_⟩
  · intro mems hmems
    obtain ⟨hand', xs', hinv', hpushed, hsteps⟩ := hinv.thread_run mems
    rw [← hpushed]
    apply hinv'.handled_eq
    rw [hpushed]
    rcases hsteps with hsteps | hsteps
    · have hlow : 7 * s.handled.length ≤ s.steps := Nat.le_add_right _ _
      have hlength := hinv.length_eq
      omega
    · exact hsteps
  · intro hspins e packet
    rw [← hinv.locked]
    cases hlocked : s.locked with
    | true => simp [packetPushQueue_locked hlocked]
    | false => simp [packetPushQueue_free hlocked, hspins]
  · intro hspins s' hstep
    cases hstep with
    | thread mem hfree => simp [hspins] at hfree
    | interrupt new packet hfree _ => simp [hspins] at hfree

end Queue

/-- A frame has come. -/
def oneFrame : PacketQueue Nat :=
  packetPushQueue 1 (packetInit 0 1 ⟨fun n => n, fun n => n⟩ fun _ => ⟨0, 0, 0⟩) (some 2)
    ⟨4096, 60, 1⟩

theorem packet_queue_in_order_one :
    oneFrame.handled <+: oneFrame.pushed ∧
      (∀ mems : List Bool, 7 * (oneFrame.pushed.length - oneFrame.handled.length) ≤ mems.length →
        (mems.foldl (threadStep 0 1) oneFrame).handled = oneFrame.pushed) ∧
      (oneFrame.spins = false → ∀ (e : Nat) (packet : PacketDesc),
        (packetPushQueue 1 oneFrame (some e) packet).spins = true ↔ oneFrame.pc.holds = true) ∧
      (oneFrame.spins = true → ∀ s', ¬PacketStep 0 1 oneFrame s') :=
  packet_queue_in_order ⟨_, _, .single (.interrupt (some 2) ⟨4096, 60, 1⟩ rfl (by decide))⟩

end Levos.Net
