import Mathlib.Tactic

/-!
# Doubly linked lists (`lib/list.c`)

Nodes carry a `prev` and a `next` pointer; a list is two sentinels and the
nodes between them. `Chain m a xs b` says that following `next` from `a` visits
`xs` and arrives at `b`, and that following `prev` from `b` goes back the same
way. The functions of the source are given as the pointer writes they make, in
the order they make them, and each has one lemma saying what it does to the
chain it is meant for and one saying which chains it leaves alone.
-/

namespace Levos.Lib

variable {N : Type}

/-! ## Memory and the functions of the source -/

structure Links (N : Type) where
  prev : N → N
  next : N → N

section Pointers

variable [DecidableEq N]

def Links.setPrev (m : Links N) (n p : N) : Links N :=
  { m with prev := Function.update m.prev n p }

def Links.setNext (m : Links N) (n p : N) : Links N :=
  { m with next := Function.update m.next n p }

def listInit (m : Links N) (head tail : N) : Links N :=
  (m.setNext head tail).setPrev tail head

/-- `elem->prev = before->prev; elem->next = before; before->prev->next = elem;
before->prev = elem`. -/
def listInsert (m : Links N) (before elem : N) : Links N :=
  let m := m.setPrev elem (m.prev before)
  let m := m.setNext elem before
  let m := m.setNext (m.prev before) elem
  m.setPrev before elem

def listPushBack (m : Links N) (tail elem : N) : Links N := listInsert m tail elem

def listRemove (m : Links N) (elem : N) : Links N :=
  let m := m.setNext (m.prev elem) (m.next elem)
  m.setPrev (m.next elem) (m.prev elem)

/-- `list_foreach_raw` from `e` on: the nodes visited, if the walk arrives at
the tail within so many steps. -/
def listWalk (m : Links N) (tail : N) : Nat → N → Option (List N)
  | 0, _ => none
  | fuel + 1, e =>
      if e = tail then some []
      else (listWalk m tail fuel (m.next e)).map (e :: ·)

end Pointers

/-! ## Chains -/

def Chain (m : Links N) : N → List N → N → Prop
  | a, [], b => m.next a = b ∧ m.prev b = a
  | a, x :: xs, b => m.next a = x ∧ m.prev x = a ∧ Chain m x xs b

theorem chain_append {m : Links N} {a b y : N} {xs ys : List N} :
    Chain m a (xs ++ y :: ys) b ↔ Chain m a xs y ∧ Chain m y ys b := by
  induction xs generalizing a with
  | nil => simp only [List.nil_append, Chain, and_assoc]
  | cons x xs ih => simp only [List.cons_append, Chain, ih, and_assoc]

/-- A chain is read through the `next` of all but its last node and the `prev`
of all but its first. -/
theorem Chain.congr {m m' : Links N} {a b : N} {xs : List N} (h : Chain m a xs b)
    (hnext : ∀ n, n = a ∨ n ∈ xs → m'.next n = m.next n)
    (hprev : ∀ n, n = b ∨ n ∈ xs → m'.prev n = m.prev n) : Chain m' a xs b := by
  induction xs generalizing a with
  | nil =>
      obtain ⟨h1, h2⟩ := h
      exact ⟨(hnext a (.inl rfl)).trans h1, (hprev b (.inl rfl)).trans h2⟩
  | cons x xs ih =>
      obtain ⟨h1, h2, h3⟩ := h
      refine ⟨(hnext a (.inl rfl)).trans h1, ?_, ih h3 ?_ ?_⟩
      · exact (hprev x (.inr List.mem_cons_self)).trans h2
      · rintro n (rfl | hn)
        · exact hnext n (.inr List.mem_cons_self)
        · exact hnext n (.inr (List.mem_cons_of_mem _ hn))
      · rintro n (rfl | hn)
        · exact hprev n (.inl rfl)
        · exact hprev n (.inr (List.mem_cons_of_mem _ hn))

/-- The node before the end of a chain. -/
theorem Chain.prev_last {m : Links N} {a b : N} {xs : List N} (h : Chain m a xs b) :
    m.prev b = a ∨ m.prev b ∈ xs := by
  induction xs generalizing a with
  | nil => exact .inl h.2
  | cons x xs ih =>
      rcases ih h.2.2 with hb | hb
      · exact .inr (hb ▸ List.mem_cons_self)
      · exact .inr (List.mem_cons_of_mem _ hb)

/-- The node after the start of a chain. -/
theorem Chain.next_first {m : Links N} {a b : N} {xs : List N} (h : Chain m a xs b) :
    m.next a = b ∨ m.next a ∈ xs := by
  cases xs with
  | nil => exact .inl h.1
  | cons x xs =>
      right
      rw [h.1]
      exact List.mem_cons_self

/-- A chain can be led to another end node. -/
theorem Chain.retarget {m m' : Links N} {a b e : N} {xs : List N} (h : Chain m a xs b)
    (hnodup : (a :: xs).Nodup) (hlast : m'.next (m.prev b) = e) (hback : m'.prev e = m.prev b)
    (hnext : ∀ n, n = a ∨ n ∈ xs → n ≠ m.prev b → m'.next n = m.next n)
    (hprev : ∀ n ∈ xs, m'.prev n = m.prev n) : Chain m' a xs e := by
  induction xs generalizing a with
  | nil =>
      obtain ⟨-, h2⟩ := h
      rw [h2] at hlast hback
      exact ⟨hlast, hback⟩
  | cons x xs ih =>
      obtain ⟨h1, h2, h3⟩ := h
      obtain ⟨ha, hnodup⟩ := List.nodup_cons.mp hnodup
      have hmem : m.prev b ∈ x :: xs := by
        rcases h3.prev_last with hb | hb
        · rw [hb]
          exact List.mem_cons_self
        · exact List.mem_cons_of_mem _ hb
      refine ⟨?_, ?_, ih h3 hnodup ?_ ?_⟩
      · exact (hnext a (.inl rfl) fun hab => ha (hab ▸ hmem)).trans h1
      · exact (hprev x List.mem_cons_self).trans h2
      · rintro n (rfl | hn) hne
        · exact hnext n (.inr List.mem_cons_self) hne
        · exact hnext n (.inr (List.mem_cons_of_mem _ hn)) hne
      · exact fun n hn => hprev n (List.mem_cons_of_mem _ hn)

section Operations

variable [DecidableEq N]

/-- A walk along a chain visits it, and stops. -/
theorem Chain.walk {m : Links N} {a b : N} {xs : List N} (h : Chain m a xs b) (hb : b ∉ xs)
    {fuel : Nat} (hfuel : xs.length < fuel) : listWalk m b fuel (m.next a) = some xs := by
  induction xs generalizing a fuel with
  | nil =>
      cases fuel with
      | zero => cases hfuel
      | succ fuel => rw [h.1, listWalk, if_pos rfl]
  | cons x xs ih =>
      obtain ⟨h1, -, h3⟩ := h
      have hbx : x ≠ b := fun hx => hb (hx ▸ List.mem_cons_self)
      have hbxs : b ∉ xs := fun hm => hb (List.mem_cons_of_mem _ hm)
      cases fuel with
      | zero => cases hfuel
      | succ fuel =>
          rw [h1, listWalk, if_neg hbx, ih h3 hbxs (Nat.lt_of_succ_lt_succ hfuel)]
          rfl

/-- A node that follows itself is never left. -/
theorem listWalk_self_loop {m : Links N} {tail n : N} (hloop : m.next n = n) (hne : n ≠ tail)
    (fuel : Nat) : listWalk m tail fuel n = none := by
  induction fuel with
  | zero => rfl
  | succ fuel ih => rw [listWalk, if_neg hne, hloop, ih, Option.map_none]

/-! ## Going round -/

/-- The node after `n`, with the first one after the last. -/
def cyclicNext (m : Links N) (head tail n : N) : N :=
  if m.next n = tail then m.next head else m.next n

/-- Going round from `a` visits `ys`. -/
def CyclicWalk (m : Links N) (head tail : N) : N → List N → Prop
  | _, [] => True
  | a, y :: ys => cyclicNext m head tail a = y ∧ CyclicWalk m head tail y ys

theorem Chain.cyclicWalk {m : Links N} {head tail a b : N} {xs : List N} (h : Chain m a xs b)
    (hxs : tail ∉ xs) (hb : b ≠ tail) : CyclicWalk m head tail a (xs ++ [b]) := by
  induction xs generalizing a with
  | nil => exact ⟨(if_neg (h.1.symm ▸ hb)).trans h.1, trivial⟩
  | cons x xs ih =>
      obtain ⟨h1, -, h3⟩ := h
      have hx : x ≠ tail := fun heq => hxs (heq ▸ List.mem_cons_self)
      exact ⟨(if_neg (h1.symm ▸ hx)).trans h1, ih h3 fun hm => hxs (List.mem_cons_of_mem _ hm)⟩

/-- From a node to the end, and on from the first node. -/
theorem Chain.cyclicWalk_wrap {m : Links N} {head tail a b : N} {xs ys : List N}
    (hend : Chain m a xs tail) (hxs : tail ∉ xs) (hstart : Chain m head ys b) (hys : tail ∉ ys)
    (hb : b ≠ tail) : CyclicWalk m head tail a (xs ++ (ys ++ [b])) := by
  induction xs generalizing a with
  | nil =>
      have hround : CyclicWalk m head tail head (ys ++ [b]) := hstart.cyclicWalk hys hb
      have hnext : cyclicNext m head tail a = cyclicNext m head tail head := by
        rw [cyclicNext, if_pos hend.1, cyclicNext]
        split <;> rfl
      rw [List.nil_append]
      cases hyb : ys ++ [b] with
      | nil => trivial
      | cons y rest =>
          rw [hyb] at hround
          exact ⟨hnext.trans hround.1, hround.2⟩
  | cons x xs ih =>
      obtain ⟨h1, -, h3⟩ := hend
      have hx : x ≠ tail := fun heq => hxs (heq ▸ List.mem_cons_self)
      exact ⟨(if_neg (h1.symm ▸ hx)).trans h1, ih h3 fun hm => hxs (List.mem_cons_of_mem _ hm)⟩

/-- **Once around the list.** From a node of the list, going round visits what
is behind it, then what is before it, and then the node itself. -/
theorem Chain.cyclicWalk_around {m : Links N} {head tail x : N} {pre post : List N}
    (h : Chain m head (pre ++ x :: post) tail) (htail : tail ∉ pre ++ x :: post) :
    CyclicWalk m head tail x (post ++ (pre ++ [x])) := by
  obtain ⟨hstart, hend⟩ := chain_append.mp h
  simp only [List.mem_append, List.mem_cons, not_or] at htail
  obtain ⟨hpre, hx, hpost⟩ := htail
  exact hend.cyclicWalk_wrap hpost hstart hpre (Ne.symm hx)

/-! ## The operations on chains -/

theorem listInit_chain (m : Links N) (head tail : N) :
    Chain (listInit m head tail) head [] tail := by
  simp [listInit, Chain, Links.setNext, Links.setPrev]

theorem listInit_next {m : Links N} {head tail n : N} (h : n ≠ head) :
    (listInit m head tail).next n = m.next n := by
  simp [listInit, Links.setNext, Links.setPrev, h]

theorem listInit_prev {m : Links N} {head tail n : N} (h : n ≠ tail) :
    (listInit m head tail).prev n = m.prev n := by
  simp [listInit, Links.setNext, Links.setPrev, h]

theorem listInsert_next {m : Links N} {before elem n : N} (hne : elem ≠ before) :
    (listInsert m before elem).next n =
      if n = m.prev before then elem else if n = elem then before else m.next n := by
  have hprev : Function.update m.prev elem (m.prev before) before = m.prev before :=
    Function.update_of_ne hne.symm _ _
  simp only [listInsert, Links.setPrev, Links.setNext, hprev, Function.update_apply]

theorem listInsert_prev {m : Links N} {before elem n : N} :
    (listInsert m before elem).prev n =
      if n = before then elem else if n = elem then m.prev before else m.prev n := by
  simp only [listInsert, Links.setPrev, Links.setNext, Function.update_apply]

theorem listRemove_next {m : Links N} {elem n : N} :
    (listRemove m elem).next n = if n = m.prev elem then m.next elem else m.next n := by
  simp only [listRemove, Links.setPrev, Links.setNext, Function.update_apply]

/-- The second write finds the right node when the list does not loop. -/
theorem listRemove_prev {m : Links N} {elem n : N} (hne : elem ≠ m.prev elem) :
    (listRemove m elem).prev n = if n = m.next elem then m.prev elem else m.prev n := by
  simp only [listRemove, Links.setPrev, Links.setNext, Function.update_apply, if_neg hne]

/-- **Insertion at the end.** -/
theorem Chain.push {m : Links N} {a b e : N} {xs : List N} (h : Chain m a xs b)
    (hnodup : (a :: xs).Nodup) (hb : b ∉ xs) (hea : e ≠ a) (heb : e ≠ b) (he : e ∉ xs) :
    Chain (listPushBack m b e) a (xs ++ [e]) b := by
  have hlast : m.prev b ≠ e := by
    rintro rfl
    rcases h.prev_last with hp | hp
    · exact hea hp
    · exact he hp
  rw [chain_append]
  constructor
  · refine h.retarget hnodup ?_ ?_ ?_ ?_
    · rw [listPushBack, listInsert_next heb, if_pos rfl]
    · rw [listPushBack, listInsert_prev, if_neg heb, if_pos rfl]
    · rintro n hn hne
      have hne' : n ≠ e := by
        rintro rfl
        rcases hn with hn | hn
        · exact hea hn
        · exact he hn
      rw [listPushBack, listInsert_next heb, if_neg hne, if_neg hne']
    · intro n hn
      have hnb : n ≠ b := fun hnb => hb (hnb ▸ hn)
      have hne : n ≠ e := fun hne => he (hne ▸ hn)
      rw [listPushBack, listInsert_prev, if_neg hnb, if_neg hne]
  · constructor
    · rw [listPushBack, listInsert_next heb, if_neg hlast.symm, if_pos rfl]
    · rw [listPushBack, listInsert_prev, if_pos rfl]

/-- An insertion at the end of one list leaves a chain that shares no node with
it alone. -/
theorem Chain.push_other {m : Links N} {a b c d e : N} {xs ys : List N} (h : Chain m c ys d)
    (hlist : Chain m a xs b) (hdisj : ∀ n, n = c ∨ n = d ∨ n ∈ ys → n ≠ a ∧ n ≠ b ∧ n ∉ xs)
    (hec : e ≠ c) (hed : e ≠ d) (he : e ∉ ys) (heb : e ≠ b) :
    Chain (listPushBack m b e) c ys d := by
  refine h.congr ?_ ?_
  · intro n hn
    have hn' : n = c ∨ n = d ∨ n ∈ ys := hn.imp_right .inr
    have hlast : n ≠ m.prev b := by
      rintro rfl
      obtain ⟨hna, -, hnxs⟩ := hdisj _ hn'
      rcases hlist.prev_last with hp | hp
      · exact hna hp
      · exact hnxs hp
    have hne : n ≠ e := by
      rintro rfl
      rcases hn with hn | hn
      · exact hec hn
      · exact he hn
    rw [listPushBack, listInsert_next heb, if_neg hlast, if_neg hne]
  · intro n hn
    have hn' : n = c ∨ n = d ∨ n ∈ ys := .inr hn
    have hne : n ≠ e := by
      rintro rfl
      rcases hn with hn | hn
      · exact hed hn
      · exact he hn
    rw [listPushBack, listInsert_prev, if_neg (hdisj n hn').2.1, if_neg hne]

/-- **Removal.** -/
theorem Chain.remove {m : Links N} {a b e : N} {xs ys : List N} (h : Chain m a (xs ++ e :: ys) b)
    (hnodup : (a :: (xs ++ e :: ys)).Nodup) (hb : b ∉ xs ++ e :: ys) :
    Chain (listRemove m e) a (xs ++ ys) b := by
  obtain ⟨h1, h2⟩ := chain_append.mp h
  have hfirst : (a :: xs).Nodup :=
    hnodup.sublist (.cons_cons a (List.sublist_append_left xs _))
  have hsplit := List.nodup_cons.mp hnodup
  obtain ⟨hxs, heys, hdisj⟩ := List.nodup_append.mp hsplit.2
  have hex : e ∉ xs := fun hm => hdisj e hm e List.mem_cons_self rfl
  have hea : a ≠ e := fun hae => hsplit.1 (hae ▸ by simp)
  have hprev : e ≠ m.prev e := by
    intro he
    rcases h1.prev_last with hp | hp
    · exact hea (hp.symm.trans he.symm)
    · exact hex (he ▸ hp)
  have hback : ∀ n, n = a ∨ n ∈ xs → n ≠ m.prev e →
      (listRemove m e).next n = m.next n := by
    intro n _ hn
    rw [listRemove_next, if_neg hn]
  -- up to the removed node the chain is led on to its successor
  have hlead : ∀ c, m.next e = c → c ∉ xs → Chain (listRemove m e) a xs c := by
    intro c hc hcxs
    refine h1.retarget hfirst ?_ ?_ hback ?_
    · rw [listRemove_next, if_pos rfl, hc]
    · rw [listRemove_prev hprev, if_pos hc.symm]
    · intro n hn
      rw [listRemove_prev hprev, if_neg (by rintro rfl; exact hcxs (hc ▸ hn))]
  cases ys with
  | nil =>
      rw [List.append_nil]
      exact hlead b h2.1 fun hm => hb (List.mem_append_left _ hm)
  | cons y ys =>
      obtain ⟨hey, hye, h3⟩ := h2
      have hyxs : y ∉ xs := fun hm => hdisj y hm y (by simp) rfl
      have hyys : y ∉ ys := (List.nodup_cons.mp (List.nodup_cons.mp heys).2).1
      refine chain_append.mpr ⟨hlead y hey hyxs, h3.congr ?_ ?_⟩
      · intro n hn
        have hn' : n ∈ e :: y :: ys := by
          rcases hn with rfl | hn
          · simp
          · simp [hn]
        have hne : n ≠ m.prev e := by
          rintro rfl
          rcases h1.prev_last with hp | hp
          · exact hsplit.1 (hp ▸ List.mem_append_right _ hn')
          · exact hdisj _ hp _ hn' rfl
        rw [listRemove_next, if_neg hne]
      · intro n hn
        have hny : n ≠ m.next e := by
          rw [hey]
          rintro rfl
          rcases hn with rfl | hn
          · exact hb (by simp)
          · exact hyys hn
        rw [listRemove_prev hprev, if_neg hny]

/-- A removal leaves a chain that shares no node with the list alone. -/
theorem Chain.remove_other {m : Links N} {a b c d e : N} {xs ys zs : List N} (h : Chain m c zs d)
    (hlist : Chain m a (xs ++ e :: ys) b) (hea : a ≠ e) (hex : e ∉ xs)
    (hdisj : ∀ n, n = c ∨ n = d ∨ n ∈ zs → n ≠ a ∧ n ≠ b ∧ n ∉ xs ∧ n ∉ ys) :
    Chain (listRemove m e) c zs d := by
  obtain ⟨h1, h2⟩ := chain_append.mp hlist
  have hprev : e ≠ m.prev e := by
    intro he
    rcases h1.prev_last with hp | hp
    · exact hea (hp.symm.trans he.symm)
    · exact hex (he ▸ hp)
  refine h.congr ?_ ?_
  · intro n hn
    obtain ⟨hna, -, hnxs, -⟩ := hdisj n (hn.imp_right .inr)
    have hne : n ≠ m.prev e := by
      rintro rfl
      rcases h1.prev_last with hp | hp
      · exact hna hp
      · exact hnxs hp
    rw [listRemove_next, if_neg hne]
  · intro n hn
    obtain ⟨-, hnb, -, hnys⟩ := hdisj n (.inr hn)
    have hne : n ≠ m.next e := by
      rintro rfl
      rcases h2.next_first with hp | hp
      · exact hnb hp
      · exact hnys hp
    rw [listRemove_prev hprev, if_neg hne]

end Operations

/-! ## Lists by number -/

/-- The sentinels of list `l`, and the list element embedded in object `e`. -/
inductive ListNode : Type where
  | head (l : Nat)
  | tail (l : Nat)
  | elem (e : Nat)
deriving DecidableEq, Repr

open ListNode

/-- List `l` holds the objects `xs`, in this order. -/
def ListAt (m : Links ListNode) (l : Nat) (xs : List Nat) : Prop :=
  Chain m (head l) (xs.map elem) (tail l)

theorem elem_injective : Function.Injective elem := fun _ _ h => ListNode.elem.inj h

theorem elem_mem_map {e : Nat} {xs : List Nat} : elem e ∈ xs.map elem ↔ e ∈ xs :=
  List.mem_map_of_injective elem_injective

theorem head_not_mem {l : Nat} {xs : List Nat} : head l ∉ xs.map elem := by
  simp

theorem tail_not_mem {l : Nat} {xs : List Nat} : tail l ∉ xs.map elem := by
  simp

theorem nodup_map_elem {l : Nat} {xs : List Nat} (h : xs.Nodup) :
    (head l :: xs.map elem).Nodup :=
  List.nodup_cons.mpr ⟨head_not_mem, h.map elem_injective⟩

/-- The nodes of two lists without a common object. -/
theorem list_nodes_apart {l l' : Nat} {xs ys : List Nat} (hl : l' ≠ l)
    (hdisj : ∀ y ∈ ys, y ∉ xs) {n : ListNode} (hn : n = head l' ∨ n = tail l' ∨ n ∈ ys.map elem) :
    n ≠ head l ∧ n ≠ tail l ∧ n ∉ xs.map elem := by
  rcases hn with rfl | rfl | hn
  · exact ⟨by simpa using hl, by simp, by simp⟩
  · exact ⟨by simp, by simpa using hl, by simp⟩
  · obtain ⟨y, hy, rfl⟩ := List.mem_map.mp hn
    refine ⟨by simp, by simp, ?_⟩
    rw [elem_mem_map]
    exact hdisj y hy

theorem ListAt.walk {m : Links ListNode} {l : Nat} {xs : List Nat} (h : ListAt m l xs)
    {fuel : Nat} (hfuel : xs.length < fuel) :
    listWalk m (tail l) fuel (m.next (head l)) = some (xs.map elem) :=
  Chain.walk h tail_not_mem (by simpa using hfuel)

theorem listAt_init (m : Links ListNode) (l : Nat) :
    ListAt (listInit m (head l) (tail l)) l [] :=
  listInit_chain m _ _

theorem ListAt.init_other {m : Links ListNode} {l l' : Nat} {ys : List Nat} (h : ListAt m l' ys)
    (hl : l' ≠ l) : ListAt (listInit m (head l) (tail l)) l' ys := by
  refine Chain.congr h ?_ ?_
  · intro n hn
    refine listInit_next ?_
    rcases hn with rfl | hn
    · simpa using hl
    · rintro rfl
      exact head_not_mem hn
  · intro n hn
    refine listInit_prev ?_
    rcases hn with rfl | hn
    · simpa using hl
    · rintro rfl
      exact tail_not_mem hn

theorem ListAt.push {m : Links ListNode} {l e : Nat} {xs : List Nat} (h : ListAt m l xs)
    (hnodup : xs.Nodup) (he : e ∉ xs) :
    ListAt (listPushBack m (tail l) (elem e)) l (xs ++ [e]) := by
  have := Chain.push h (nodup_map_elem hnodup) tail_not_mem (e := elem e)
    (by simp) (by simp) (by rwa [elem_mem_map])
  simpa [ListAt] using this

theorem ListAt.push_other {m : Links ListNode} {l l' e : Nat} {xs ys : List Nat}
    (h : ListAt m l' ys) (hlist : ListAt m l xs) (hl : l' ≠ l) (hdisj : ∀ y ∈ ys, y ∉ xs)
    (he : e ∉ ys) : ListAt (listPushBack m (tail l) (elem e)) l' ys := by
  refine Chain.push_other h hlist ?_ (by simp) (by simp) (by rwa [elem_mem_map]) (by simp)
  exact fun n hn => list_nodes_apart hl hdisj hn

/-- Where an object of a list without repetitions stands. -/
theorem split_at_mem {e : Nat} {xs : List Nat} (hnodup : xs.Nodup) (he : e ∈ xs) :
    ∃ as bs, xs = as ++ e :: bs ∧ e ∉ as ∧ xs.filter (· ≠ e) = as ++ bs := by
  obtain ⟨as, bs, rfl⟩ := List.append_of_mem he
  obtain ⟨-, heb, hdisj⟩ := List.nodup_append.mp hnodup
  have hea : e ∉ as := fun hm => hdisj e hm e List.mem_cons_self rfl
  have heb' : e ∉ bs := (List.nodup_cons.mp heb).1
  refine ⟨as, bs, rfl, hea, ?_⟩
  have has : as.filter (· ≠ e) = as :=
    List.filter_eq_self.mpr fun x hx => decide_eq_true fun h => hea (h ▸ hx)
  have hbs : bs.filter (· ≠ e) = bs :=
    List.filter_eq_self.mpr fun x hx => decide_eq_true fun h => heb' (h ▸ hx)
  rw [List.filter_append, List.filter_cons_of_neg (by simp), has, hbs]

theorem ListAt.remove {m : Links ListNode} {l e : Nat} {xs : List Nat} (h : ListAt m l xs)
    (hnodup : xs.Nodup) (he : e ∈ xs) :
    ListAt (listRemove m (elem e)) l (xs.filter (· ≠ e)) := by
  obtain ⟨as, bs, rfl, -, hfilter⟩ := split_at_mem hnodup he
  rw [hfilter]
  have hmap : (as ++ e :: bs).map elem = as.map elem ++ elem e :: bs.map elem := by simp
  have hchain : Chain m (head l) (as.map elem ++ elem e :: bs.map elem) (tail l) := hmap ▸ h
  have := hchain.remove (hmap ▸ nodup_map_elem hnodup) (hmap ▸ tail_not_mem)
  simpa [ListAt] using this

theorem ListAt.remove_other {m : Links ListNode} {l l' e : Nat} {xs ys : List Nat}
    (h : ListAt m l' ys) (hlist : ListAt m l xs) (hnodup : xs.Nodup) (he : e ∈ xs) (hl : l' ≠ l)
    (hdisj : ∀ y ∈ ys, y ∉ xs) : ListAt (listRemove m (elem e)) l' ys := by
  obtain ⟨as, bs, rfl, hea, -⟩ := split_at_mem hnodup he
  have hmap : (as ++ e :: bs).map elem = as.map elem ++ elem e :: bs.map elem := by simp
  have hchain : Chain m (head l) (as.map elem ++ elem e :: bs.map elem) (tail l) := hmap ▸ hlist
  refine Chain.remove_other h hchain (by simp) (by rwa [elem_mem_map]) ?_
  intro n hn
  obtain ⟨h1, h2, h3⟩ := list_nodes_apart hl hdisj hn
  rw [hmap] at h3
  exact ⟨h1, h2, fun hm => h3 (List.mem_append_left _ hm),
    fun hm => h3 (List.mem_append_right _ (List.mem_cons_of_mem _ hm))⟩

end Levos.Lib
