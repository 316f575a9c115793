import Levos.Lib.ListSort

/-!
# Walks that change a list (`lib/list.c`)

Ordered insertion, `list_unique` with the list its duplicates go to, and
`list_reverse`, on the pointers. Sorting and `list_unique` together leave the
first element of each rank; inserting the elements of a list in order, one by
one, gives the list that `list_sort` makes of it.
-/

namespace Levos.Lib

variable {N : Type}

/-! ## The functions of the source -/

section Pointers

variable [DecidableEq N]

/-- The `for` loop of `list_insert_ordered`. -/
def orderedPlace (less : N → N → Bool) (elem tail : N) (m : Links N) : Nat → N → Option N
  | 0, _ => none
  | fuel + 1, e =>
      if e = tail then some e
      else if less elem e then some e
      else orderedPlace less elem tail m fuel (m.next e)

/-- `list_insert_ordered`. -/
def insertOrdered (less : N → N → Bool) (head tail : N) (bound : Nat) (m : Links N) (elem : N) :
    Option (Links N) :=
  (orderedPlace less elem tail m bound (m.next head)).map fun e => listInsert m e elem

/-- `list_push_back` to the list of the duplicates, when there is one. -/
def pushDuplicate (duplicates : Option N) (m : Links N) (elem : N) : Links N :=
  match duplicates with
  | none => m
  | some tail => listPushBack m tail elem

def uniqueLoop (less : N → N → Bool) (tail : N) (duplicates : Option N) :
    Nat → Links N → N → Option (Links N)
  | 0, _, _ => none
  | fuel + 1, m, elem =>
      let next := m.next elem
      if next = tail then some m
      else if !less elem next && !less next elem then
        uniqueLoop less tail duplicates fuel (pushDuplicate duplicates (listRemove m next) next) elem
      else uniqueLoop less tail duplicates fuel m next

def listUnique (less : N → N → Bool) (head tail : N) (duplicates : Option N) (bound : Nat)
    (m : Links N) : Option (Links N) :=
  if m.next head = tail then some m
  else uniqueLoop less tail duplicates bound m (m.next head)

/-- `swap (&e->prev, &e->next)`. -/
def swapElem (m : Links N) (e : N) : Links N :=
  (m.setPrev e (m.next e)).setNext e (m.prev e)

def reverseLoop (tail : N) : Nat → Links N → N → Option (Links N)
  | 0, _, _ => none
  | fuel + 1, m, e =>
      if e = tail then some m
      else
        let m := swapElem m e
        reverseLoop tail fuel m (m.prev e)

/-- The two swaps behind the loop of `list_reverse`. -/
def swapEnds (m : Links N) (head tail : N) : Links N :=
  let m := (m.setNext head (m.prev tail)).setPrev tail (m.next head)
  let front := m.next head
  let back := m.prev tail
  (m.setPrev front (m.next back)).setNext back (m.prev front)

def listReverse (head tail : N) (bound : Nat) (m : Links N) : Option (Links N) :=
  if m.next head = tail then some m
  else (reverseLoop tail bound m (m.next head)).map fun m => swapEnds m head tail

end Pointers

/-! ## Insertion at any place -/

section Inserting

variable [DecidableEq N]

theorem Chain.insert {m : Links N} {a b e : N} {pre post : List N}
    (h : Chain m a (pre ++ post) b) (hnodup : (a :: (pre ++ post)).Nodup)
    (hb : b ∉ a :: (pre ++ post)) (he : e ∉ a :: (pre ++ post)) (heb : e ≠ b) :
    Chain (listInsert m (post.headD b) e) a (pre ++ e :: post) b ∧
      Relinked m (listInsert m (post.headD b) e) a (pre ++ e :: post) b := by
  obtain ⟨hpre, hpost⟩ := chain_append_iff.mp h
  have hd := headD_mem_or (b := b) post
  set d := post.headD b with hdef
  have hq := hpre.prev_last
  simp only [List.nodup_cons, List.nodup_append, List.mem_append, List.mem_cons, not_or]
    at hnodup hb he
  have hed : e ≠ d := by grind
  have hnext : ∀ n, (listInsert m d e).next n =
      if n = m.prev d then e else if n = e then d else m.next n := fun n => listInsert_next hed
  have hprev : ∀ n, (listInsert m d e).prev n =
      if n = d then e else if n = e then m.prev d else m.prev n := fun n => listInsert_prev
  have hchain1 : Chain (listInsert m d e) a pre e := by
    apply hpre.retarget
    · simp; grind
    · rw [hnext, if_pos rfl]
    · rw [hprev, if_neg hed, if_pos rfl]
    · intro n hn hne
      rw [hnext, if_neg hne, if_neg (by grind)]
    · intro n hn
      rw [hprev, if_neg (by grind), if_neg (by grind)]
  have hchain2 : Chain (listInsert m d e) e [] d := by
    constructor
    · rw [hnext, if_neg (by grind), if_pos rfl]
    · rw [hprev, if_pos rfl]
  have hchain3 : ∀ z zs, post = z :: zs → Chain (listInsert m d e) z zs b := by
    intro z zs hz
    apply (hpost z zs hz).congr
    · intro n hn
      rw [hnext, if_neg (by grind), if_neg (by grind)]
    · intro n hn
      rw [hprev, if_neg (by grind), if_neg (by grind)]
  refine ⟨?_, ?_, ?_⟩
  · rw [chain_append]
    exact ⟨hchain1, (@chain_append_iff _ _ _ _ [] _).mpr ⟨hchain2, hchain3⟩⟩
  · intro n hna hn
    rw [hnext, if_neg (by grind), if_neg (by grind)]
  · intro n hnb hn
    rw [hprev, if_neg (by grind), if_neg (by grind)]

theorem orderedPlace_chain (less : N → N → Bool) (elem : N) {m : Links N} {a b : N} {xs : List N}
    (h : Chain m a xs b) (hb : b ∉ xs) {fuel : Nat} (hfuel : xs.length < fuel) :
    orderedPlace less elem b m fuel (m.next a) =
      some ((xs.dropWhile fun e => !less elem e).headD b) := by
  induction xs generalizing a fuel with
  | nil =>
      cases fuel with
      | zero => cases hfuel
      | succ fuel => rw [h.1, orderedPlace, if_pos rfl]; rfl
  | cons x xs ih =>
      obtain ⟨h1, -, h3⟩ := h
      have hxb : x ≠ b := fun hx => hb (hx ▸ List.mem_cons_self)
      cases fuel with
      | zero => cases hfuel
      | succ fuel =>
          rw [h1, orderedPlace, if_neg hxb, List.dropWhile_cons]
          cases hless : less elem x with
          | true => simp
          | false =>
              rw [if_neg (by simp), if_pos (by rfl)]
              exact ih h3 (fun hm => hb (List.mem_cons_of_mem _ hm)) (Nat.lt_of_succ_lt_succ hfuel)

end Inserting

/-- Where `list_insert_ordered` puts an element: behind those it is not less
than, up to the first it is less than. -/
def insertAt (less : N → N → Bool) (elem : N) (xs : List N) : List N :=
  (xs.takeWhile fun e => !less elem e) ++ elem :: xs.dropWhile fun e => !less elem e

theorem insertAt_perm (less : N → N → Bool) (elem : N) (xs : List N) :
    (insertAt less elem xs).Perm (elem :: xs) := by
  have h : xs = (xs.takeWhile fun e => !less elem e) ++ xs.dropWhile fun e => !less elem e :=
    List.takeWhile_append_dropWhile.symm
  conv_rhs => rw [h]
  exact List.perm_middle

theorem insertOrdered_chain [DecidableEq N] (less : N → N → Bool) {m : Links N} {head tail e : N}
    {xs : List N} (h : Chain m head xs tail) (hnodup : (head :: xs).Nodup)
    (htail : tail ∉ head :: xs) (he : e ∉ head :: xs) (het : e ≠ tail) {bound : Nat}
    (hbound : xs.length < bound) :
    ∃ m', insertOrdered less head tail bound m e = some m' ∧
      Chain m' head (insertAt less e xs) tail ∧
      Relinked m m' head (insertAt less e xs) tail := by
  have hsplit : (xs.takeWhile fun x => !less e x) ++ (xs.dropWhile fun x => !less e x) = xs :=
    List.takeWhile_append_dropWhile
  have hplace := orderedPlace_chain less e h (by grind) hbound
  rw [← hsplit] at h hnodup htail he
  obtain ⟨hchain, hre⟩ := h.insert hnodup htail he het
  exact ⟨_, by rw [insertOrdered, hplace]; rfl, hchain, hre⟩

/-! ## Ordered insertion of a whole list -/

section Ordered

variable {less : N → N → Bool}

/-- Inserting one element is merging with a run of one. -/
theorem insertAt_eq_mergeRuns (e : N) (xs : List N) :
    insertAt less e xs = mergeRuns less xs [e] := by
  induction xs with
  | nil => rw [nil_mergeRuns]; rfl
  | cons x xs ih =>
      cases hless : less e x with
      | false =>
          rw [mergeRuns_cons_keep hless, ← ih]
          simp [insertAt, hless]
      | true =>
          rw [mergeRuns_cons_move hless, mergeRuns_nil]
          simp [insertAt, hless]

/-- What has been inserted so far stays nondecreasing. -/
theorem insertAt_sorted {e : N} {xs : List N} (hord : WeakOrder less (e :: xs))
    (h : Sorted less xs) : Sorted less (insertAt less e xs) := by
  rw [insertAt_eq_mergeRuns]
  exact mergeRuns_sorted (hord.mono (by simp; grind)) h (List.pairwise_singleton _ e)

/-- The new element goes behind those of its rank. -/
theorem insertAt_filter {c e : N} {xs : List N} (hord : WeakOrder less (c :: e :: xs))
    (h : Sorted less xs) :
    (insertAt less e xs).filter (sameRank less c) =
      xs.filter (sameRank less c) ++ [e].filter (sameRank less c) := by
  rw [insertAt_eq_mergeRuns]
  exact mergeRuns_filter (hord.mono (by simp; grind)) h (List.pairwise_singleton _ e)

theorem sameRank_self {xs : List N} (hord : WeakOrder less xs) {x : N} (hx : x ∈ xs) :
    sameRank less x x = true := by
  simp [sameRank, hord.irrefl hx]

/-- A nondecreasing list is known from its elements of each rank. -/
theorem sorted_unique {xs ys : List N} (hord : WeakOrder less xs) (hperm : ys.Perm xs)
    (hxs : Sorted less xs) (hys : Sorted less ys)
    (hrank : ∀ c ∈ xs, ys.filter (sameRank less c) = xs.filter (sameRank less c)) : ys = xs := by
  induction xs generalizing ys with
  | nil => exact hperm.eq_nil
  | cons x xs ih =>
      cases ys with
      | nil => cases hperm.symm.eq_nil
      | cons y ys =>
          obtain ⟨hx, hxs'⟩ := List.pairwise_cons.mp hxs
          obtain ⟨hy, hys'⟩ := List.pairwise_cons.mp hys
          -- both first elements are least, so they have one rank
          have hyx : less y x = false := by
            rcases List.mem_cons.mp (hperm.mem_iff.mp List.mem_cons_self) with rfl | hm
            · exact hord.irrefl List.mem_cons_self
            · exact hx y hm
          have hxy : less x y = false := by
            rcases List.mem_cons.mp (hperm.mem_iff.mpr List.mem_cons_self) with rfl | hm
            · exact hord.irrefl List.mem_cons_self
            · exact hy x hm
          have hfirst := hrank x List.mem_cons_self
          rw [List.filter_cons_of_pos (by simp [sameRank, hxy, hyx]),
            List.filter_cons_of_pos (sameRank_self hord List.mem_cons_self)] at hfirst
          obtain ⟨rfl, -⟩ := List.cons.inj hfirst
          rw [ih (hord.mono fun n hn => List.mem_cons_of_mem _ hn) hperm.cons_inv hxs' hys' ?_]
          intro c hc
          have hcons := hrank c (List.mem_cons_of_mem _ hc)
          simp only [List.filter_cons] at hcons
          split at hcons
          · exact (List.cons.inj hcons).2
          · exact hcons

/-- The elements inserted one by one. -/
def insertAll (less : N → N → Bool) (es : List N) : List N :=
  es.foldl (fun xs e => insertAt less e xs) []

theorem insertAll_concat (es : List N) (e : N) :
    insertAll less (es ++ [e]) = insertAt less e (insertAll less es) := by
  simp [insertAll]

theorem insertAll_perm (less : N → N → Bool) (es : List N) : (insertAll less es).Perm es := by
  induction es using List.reverseRecOn with
  | nil => exact .refl _
  | append_singleton es e ih =>
      rw [insertAll_concat]
      have hswap : (e :: es).Perm (es ++ [e]) := (List.perm_append_singleton e es).symm
      exact (insertAt_perm less e _).trans ((ih.cons e).trans hswap)

theorem insertAll_spec {all es : List N} (hord : WeakOrder less all) (hsub : ∀ n ∈ es, n ∈ all) :
    Sorted less (insertAll less es) ∧
      ∀ c ∈ all, (insertAll less es).filter (sameRank less c) = es.filter (sameRank less c) := by
  induction es using List.reverseRecOn with
  | nil => exact ⟨.nil, fun _ _ => rfl⟩
  | append_singleton es e ih =>
      have hes : ∀ n ∈ es, n ∈ all := fun n hn => hsub n (by simp [hn])
      have he : e ∈ all := hsub e (by simp)
      obtain ⟨hsorted, hrank⟩ := ih hes
      have hmem : ∀ n ∈ insertAll less es, n ∈ all :=
        fun n hn => hes n ((insertAll_perm less es).mem_iff.mp hn)
      rw [insertAll_concat]
      refine ⟨?_, ?_⟩
      · exact insertAt_sorted (hord.mono (by simp; grind)) hsorted
      · intro c hc
        rw [insertAt_filter (hord.mono (by simp; grind)) hsorted, hrank c hc, List.filter_append]

end Ordered

section Building

variable [DecidableEq N]

/-- `list_insert_ordered`, one element after the other. -/
def insertOrderedAll (less : N → N → Bool) (head tail : N) (bound : Nat) (m : Links N)
    (es : List N) : Option (Links N) :=
  es.foldlM (fun m e => insertOrdered less head tail bound m e) m

theorem insertOrderedAll_chain (less : N → N → Bool) {m : Links N} {head tail : N} {es : List N}
    (h : Chain m head [] tail) (hnodup : (head :: es).Nodup) (htail : tail ∉ head :: es)
    {bound : Nat} (hbound : es.length < bound) :
    ∃ m', insertOrderedAll less head tail bound m es = some m' ∧
      Chain m' head (insertAll less es) tail := by
  induction es using List.reverseRecOn with
  | nil => exact ⟨m, rfl, h⟩
  | append_singleton es e ih =>
      simp only [List.length_append, List.length_singleton] at hbound
      have hsub : (head :: es).Nodup := hnodup.sublist (by simp)
      obtain ⟨m1, hm1, hchain⟩ := ih hsub (by grind) (by omega)
      have hperm := insertAll_perm less es
      have hmem : ∀ n, n ∈ insertAll less es ↔ n ∈ es := fun n => hperm.mem_iff
      obtain ⟨m2, hm2, hchain2, -⟩ := insertOrdered_chain less hchain (e := e)
        ((hperm.cons head).nodup_iff.mpr hsub) (by simp [hmem]; grind) (by simp [hmem]; grind)
        (by grind) (hperm.length_eq ▸ (by omega : es.length < bound))
      refine ⟨m2, ?_, insertAll_concat es e ▸ hchain2⟩
      rw [insertOrderedAll, List.foldlM_append, ← insertOrderedAll, hm1]
      simpa using hm2

/-- **One list, two ways.** Inserting elements in order, one by one, gives the
list that `list_sort` makes of them. -/
theorem listSort_eq_insertOrdered (less : N → N → Bool) (m m' : Links N)
    {head tail head' tail' : N} {es : List N} (hnodup : (head :: es).Nodup)
    (htail : tail ∉ head :: es) (hnodup' : (head' :: es).Nodup) (htail' : tail' ∉ head' :: es)
    (hord : WeakOrder less es) {bound passes : Nat} (hbound : es.length < bound)
    (hpasses : Nat.clog 2 es.length < passes) :
    ∃ n n' ys, listSort less head tail bound passes (pushAll m head tail es) = some n ∧
      insertOrderedAll less head' tail' bound (listInit m' head' tail') es = some n' ∧
      Chain n head ys tail ∧ Chain n' head' ys tail' := by
  have h := pushAll_chain m hnodup htail
  have h' := listInit_chain m' head' tail'
  obtain ⟨n, ys, hn, hchain, hsorted, hperm, hrank, -⟩ :=
    listSort_chain h hnodup htail hord hbound (passes_enough hpasses)
  obtain ⟨n', hn', hchain'⟩ := insertOrderedAll_chain less h' hnodup' htail' hbound
  obtain ⟨hsorted', hrank'⟩ := insertAll_spec hord (fun _ he => he)
  have heq : ys = insertAll less es := by
    apply sorted_unique (hord.mono fun n hn => (insertAll_perm less es).mem_iff.mp hn)
      (hperm.trans (insertAll_perm less es).symm) hsorted' hsorted
    intro c hc
    have hces := (insertAll_perm less es).mem_iff.mp hc
    rw [hrank c hces, hrank' c hces]
  exact ⟨n, n', ys, hn, hn', hchain, heq ▸ hchain'⟩

/-- Two lists with the sentinels `0`, `9` and `1`, `8`. -/
theorem listSort_eq_insertOrdered_pairs :
    ∃ n n' ys, listSort (fun x y => decide (x / 2 < y / 2)) 0 9 5 3
          (pushAll ⟨id, id⟩ 0 9 [7, 4, 6, 5]) = some n ∧
      insertOrderedAll (fun x y => decide (x / 2 < y / 2)) 1 8 5 (listInit ⟨id, id⟩ 1 8)
          [7, 4, 6, 5] = some n' ∧
      Chain n 0 ys 9 ∧ Chain n' 1 ys 8 :=
  listSort_eq_insertOrdered _ _ _ (by decide) (by decide) (by decide) (by decide)
    (weakOrder_of_key (fun x => x / 2) _) (by decide) (by norm_num)

end Building

/-! ## Duplicates -/

/-- What `list_unique` leaves behind the element it compares with. -/
def keptOf (less : N → N → Bool) : N → List N → List N
  | _, [] => []
  | x, y :: ys => if sameRank less x y then keptOf less x ys else y :: keptOf less y ys

/-- What `list_unique` takes out, in the order it does. -/
def droppedOf (less : N → N → Bool) : N → List N → List N
  | _, [] => []
  | x, y :: ys => if sameRank less x y then y :: droppedOf less x ys else droppedOf less y ys

section Unique

variable {less : N → N → Bool}

theorem kept_dropped_perm (x : N) (ys : List N) :
    (keptOf less x ys ++ droppedOf less x ys).Perm ys := by
  induction ys generalizing x with
  | nil => exact .refl _
  | cons y ys ih =>
      rw [keptOf, droppedOf]
      split
      · exact List.perm_middle.trans ((ih x).cons y)
      · exact (ih y).cons y

theorem mem_of_mem_keptOf {x n : N} {ys : List N} (h : n ∈ keptOf less x ys) : n ∈ ys :=
  (kept_dropped_perm x ys).mem_iff.mp (List.mem_append_left _ h)

/-- A neighbour of another rank is greater. -/
theorem less_of_not_sameRank {x y : N} (hle : less y x = false) (h : sameRank less x y = false) :
    less x y = true := by
  simpa [sameRank, hle] using h

/-- In a nondecreasing list, what is kept is strictly increasing. -/
theorem keptOf_increasing {x : N} {ys : List N} (hord : WeakOrder less (x :: ys))
    (h : Sorted less (x :: ys)) : (x :: keptOf less x ys).Pairwise fun a b => less a b = true := by
  induction ys generalizing x with
  | nil => exact List.pairwise_singleton _ x
  | cons y ys ih =>
      obtain ⟨hx, hys⟩ := List.pairwise_cons.mp h
      obtain ⟨hy, -⟩ := List.pairwise_cons.mp hys
      rw [keptOf]
      cases hsame : sameRank less x y with
      | true => exact ih (hord.mono (by simp; grind)) (h.sublist (by simp))
      | false =>
          have hxy := less_of_not_sameRank (hx y List.mem_cons_self) hsame
          refine .cons ?_ (ih (hord.mono (by simp; grind)) hys)
          intro z hz
          rcases List.mem_cons.mp hz with rfl | hz
          · exact hxy
          · have hzys := mem_of_mem_keptOf hz
            by_contra hxz
            have hback := hord.trans y (by simp) z (by simp [hzys]) x (by simp) (hy z hzys)
              (by simpa using hxz)
            rw [hxy] at hback
            cases hback

/-- Two elements of one rank have the same relation to any third. -/
theorem sameRank_congr {c x y : N} (hord : WeakOrder less [c, x, y])
    (hxy : sameRank less x y = true) : sameRank less c x = sameRank less c y := by
  simp only [sameRank, Bool.and_eq_true, Bool.not_eq_true'] at hxy
  have h1 := hord.trans c (by simp) x (by simp) y (by simp)
  have h2 := hord.trans y (by simp) x (by simp) c (by simp)
  have h3 := hord.trans c (by simp) y (by simp) x (by simp)
  have h4 := hord.trans x (by simp) y (by simp) c (by simp)
  simp only [sameRank]
  grind

/-- Behind a greater neighbour there is no element of the rank any more. -/
theorem filter_behind_greater {c x y : N} {ys : List N} (hord : WeakOrder less (c :: x :: y :: ys))
    (h : Sorted less (y :: ys)) (hcx : sameRank less c x = true) (hxy : less x y = true) :
    (y :: ys).filter (sameRank less c) = [] := by
  rw [List.filter_eq_nil_iff]
  intro z hz hcz
  simp only [sameRank, Bool.and_eq_true, Bool.not_eq_true'] at hcx hcz
  have hmem : z ∈ c :: x :: y :: ys := List.mem_cons_of_mem _ (List.mem_cons_of_mem _ hz)
  have hyz : less z y = false := by
    rcases List.mem_cons.mp hz with rfl | hz
    · exact hord.irrefl hmem
    · exact (List.pairwise_cons.mp h).1 z hz
  have hyc := hord.trans y (by simp) z hmem c (by simp) hyz hcz.1
  have hyx := hord.trans y (by simp) c (by simp) x (by simp) hyc hcx.2
  rw [hxy] at hyx
  cases hyx

/-- Of each rank the first element is kept, and the others go. -/
theorem kept_filter {x c : N} {ys : List N} (hord : WeakOrder less (c :: x :: ys))
    (h : Sorted less (x :: ys)) :
    (x :: keptOf less x ys).filter (sameRank less c) =
        ((x :: ys).filter (sameRank less c)).take 1 ∧
      (droppedOf less x ys).filter (sameRank less c) =
        ((x :: ys).filter (sameRank less c)).drop 1 := by
  induction ys generalizing x with
  | nil => cases hc : sameRank less c x <;> simp [keptOf, droppedOf, hc]
  | cons y ys ih =>
      obtain ⟨hx, hys⟩ := List.pairwise_cons.mp h
      rw [keptOf, droppedOf]
      cases hsame : sameRank less x y with
      | true =>
          have hxys : Sorted less (x :: ys) :=
            .cons (fun z hz => hx z (List.mem_cons_of_mem _ hz)) (List.pairwise_cons.mp hys).2
          obtain ⟨ih1, ih2⟩ := ih (hord.mono (by simp; grind)) hxys
          have hcy : sameRank less c x = sameRank less c y :=
            sameRank_congr (hord.mono (by simp)) hsame
          cases hc : sameRank less c x with
          | true => simpa [List.filter_cons, hc, hcy ▸ hc] using And.intro ih1 ih2
          | false => simpa [List.filter_cons, hc, hcy ▸ hc] using And.intro ih1 ih2
      | false =>
          obtain ⟨ih1, ih2⟩ := ih (hord.mono (by simp; grind)) hys
          have hxy := less_of_not_sameRank (hx y List.mem_cons_self) hsame
          cases hc : sameRank less c x with
          | true =>
              have hnone := filter_behind_greater (hord.mono (by simp)) hys hc hxy
              rw [hnone] at ih1 ih2
              rw [if_neg (by simp), if_neg (by simp), List.filter_cons_of_pos hc, ih1,
                List.filter_cons_of_pos hc, hnone, ih2]
              exact ⟨rfl, rfl⟩
          | false =>
              have hskip : ∀ zs, (x :: zs).filter (sameRank less c) =
                  zs.filter (sameRank less c) := fun zs => List.filter_cons_of_neg (by simp [hc])
              rw [if_neg (by simp), if_neg (by simp), hskip, hskip]
              exact ⟨ih1, ih2⟩

end Unique

/-- A node that goes to the duplicates is one of the nodes still. -/
theorem duplicate_perm (a c x y : N) (pre ys ds : List N) :
    (a :: (pre ++ x :: ys) ++ c :: (ds ++ [y])).Perm
      (a :: ((pre ++ [x]) ++ y :: ys) ++ c :: ds) := by
  simp only [List.append_assoc, List.cons_append, List.nil_append, List.perm_cons,
    List.perm_append_left_iff]
  have hlast : (c :: (ds ++ [y])).Perm (y :: c :: ds) := List.perm_append_singleton y (c :: ds)
  exact (hlast.append_left ys).trans List.perm_middle

section UniquePointers

variable [DecidableEq N]

theorem uniqueLoop_end {less : N → N → Bool} {tail elem : N} {duplicates : Option N} {fuel : Nat}
    {m : Links N} (h : m.next elem = tail) :
    uniqueLoop less tail duplicates (fuel + 1) m elem = some m :=
  if_pos h

theorem uniqueLoop_drop {less : N → N → Bool} {tail elem next : N} {duplicates : Option N}
    {fuel : Nat} {m : Links N} (h : m.next elem = next) (ht : next ≠ tail)
    (hsame : sameRank less elem next = true) :
    uniqueLoop less tail duplicates (fuel + 1) m elem =
      uniqueLoop less tail duplicates fuel
        (pushDuplicate duplicates (listRemove m next) next) elem := by
  rw [uniqueLoop, h, if_neg ht]
  exact if_pos hsame

theorem uniqueLoop_keep {less : N → N → Bool} {tail elem next : N} {duplicates : Option N}
    {fuel : Nat} {m : Links N} (h : m.next elem = next) (ht : next ≠ tail)
    (hsame : sameRank less elem next = false) :
    uniqueLoop less tail duplicates (fuel + 1) m elem =
      uniqueLoop less tail duplicates fuel m next := by
  rw [uniqueLoop, h, if_neg ht]
  exact if_neg (by rw [sameRank] at hsame; simp [hsame])

/-- The loop of `list_unique`, with the list `c .. d` for the duplicates. -/
theorem uniqueLoop_chain (less : N → N → Bool) {m : Links N} {a b c d x : N}
    {pre ys ds : List N} (h : Chain m a (pre ++ x :: ys) b) (hdup : Chain m c ds d)
    (hnodup : (a :: (pre ++ x :: ys) ++ c :: ds).Nodup)
    (hb : b ∉ a :: (pre ++ x :: ys) ++ c :: ds) (hd : d ∉ a :: (pre ++ x :: ys) ++ c :: ds)
    (hbd : b ≠ d) {fuel : Nat} (hfuel : ys.length < fuel) :
    ∃ m', uniqueLoop less b (some d) fuel m x = some m' ∧
      Chain m' a (pre ++ x :: keptOf less x ys) b ∧
      Chain m' c (ds ++ droppedOf less x ys) d := by
  induction ys generalizing m pre ds x fuel with
  | nil =>
      cases fuel with
      | zero => cases hfuel
      | succ fuel =>
          obtain ⟨-, hx⟩ := chain_append.mp h
          exact ⟨m, uniqueLoop_end hx.1, h, by simpa [droppedOf] using hdup⟩
  | cons y ys ih =>
      cases fuel with
      | zero => cases hfuel
      | succ fuel =>
          have hfuel' : ys.length < fuel := Nat.lt_of_succ_lt_succ hfuel
          obtain ⟨-, hx⟩ := chain_append.mp h
          have hyb : y ≠ b := by grind
          rw [keptOf, droppedOf]
          have hassoc : pre ++ x :: y :: ys = (pre ++ [x]) ++ y :: ys := by simp
          cases hsame : sameRank less x y with
          | true =>
              rw [hassoc] at h hnodup hb hd
              have hmain := h.remove (by grind) (by grind)
              have hdup' := hdup.remove_other h (by grind) (by grind) (by grind)
              have hmain' := hmain.push_other hdup' (e := y) (by grind) (by grind) (by grind)
                (by grind) (by grind)
              have hpush := hdup'.push (e := y) (by grind) (by grind) (by grind) (by grind)
                (by grind)
              have happ : (pre ++ [x]) ++ ys = pre ++ x :: ys := by simp
              rw [happ] at hmain'
              have hperm := duplicate_perm a c x y pre ys ds
              obtain ⟨m', hm', hchain, hchain'⟩ := ih hmain' hpush (hperm.nodup_iff.mpr hnodup)
                (fun hm => hb (hperm.mem_iff.mp hm)) (fun hm => hd (hperm.mem_iff.mp hm)) hfuel'
              refine ⟨m', ?_, hchain, by simpa using hchain'⟩
              rw [uniqueLoop_drop hx.1 hyb hsame]
              exact hm'
          | false =>
              rw [hassoc] at h hnodup hb hd
              obtain ⟨m', hm', hchain, hchain'⟩ := ih h hdup hnodup hb hd hfuel'
              refine ⟨m', ?_, by simpa using hchain, hchain'⟩
              rw [uniqueLoop_keep hx.1 hyb hsame]
              exact hm'

/-- **Sort and unique.** Sorting a list and taking out its duplicates leaves a
strictly increasing list of the first element of each rank; the list for the
duplicates gets all others, those of one rank in the order they had. -/
theorem listSort_listUnique (less : N → N → Bool) {m : Links N} {head tail dhead dtail : N}
    {xs ds : List N} (h : Chain m head xs tail) (hdup : Chain m dhead ds dtail)
    (hnodup : (head :: xs ++ dhead :: ds).Nodup) (htail : tail ∉ head :: xs ++ dhead :: ds)
    (hdtail : dtail ∉ head :: xs ++ dhead :: ds) (htails : tail ≠ dtail)
    (hord : WeakOrder less xs) {bound passes : Nat} (hbound : xs.length < bound)
    (hpasses : Nat.clog 2 xs.length < passes) :
    ∃ m' kept dropped,
      ((listSort less head tail bound passes m).bind
        (listUnique less head tail (some dtail) bound)) = some m' ∧
      Chain m' head kept tail ∧ Chain m' dhead (ds ++ dropped) dtail ∧
      (kept ++ dropped).Perm xs ∧ kept.Pairwise (fun a b => less a b = true) ∧
      ∀ c ∈ xs, kept.filter (sameRank less c) = (xs.filter (sameRank less c)).take 1 ∧
        dropped.filter (sameRank less c) = (xs.filter (sameRank less c)).drop 1 := by
  obtain ⟨m1, ys, hm1, hchain, hsorted, hperm, hrank, hre⟩ :=
    listSort_sorts less h (by grind) (by grind) hord hbound hpasses
  have hdup1 : Chain m1 dhead ds dtail := hre.other hdup (by grind) (by grind)
  have hmem : ∀ n, n ∈ ys ↔ n ∈ xs := fun n => hperm.mem_iff
  rw [hm1, Option.bind_some, listUnique]
  cases ys with
  | nil =>
      obtain rfl := hperm.symm.eq_nil
      rw [if_pos hchain.1]
      exact ⟨m1, [], [], rfl, hchain, by simpa using hdup1, .refl _, .nil, fun c hc => by cases hc⟩
  | cons y ys =>
      have hordy : WeakOrder less (y :: ys) := hord.mono fun n hn => (hmem n).mp hn
      have hyt : y ≠ tail := by
        have := (hmem y).mp List.mem_cons_self
        grind
      have hnodup' : (head :: ([] ++ y :: ys) ++ dhead :: ds).Nodup :=
        ((hperm.cons head).append_right _).nodup_iff.mpr hnodup
      have hlen := hperm.length_eq
      rw [List.length_cons] at hlen
      obtain ⟨m2, hm2, hmain, hdup2⟩ := uniqueLoop_chain less
        (show Chain m1 head ([] ++ y :: ys) tail from hchain) hdup1 hnodup' (by grind) (by grind)
        htails (by omega : ys.length < bound)
      refine ⟨m2, y :: keptOf less y ys, droppedOf less y ys, ?_, hmain, hdup2, ?_,
        keptOf_increasing hordy hsorted, ?_⟩
      · rw [hchain.1, if_neg hyt, hm2]
      · exact ((kept_dropped_perm y ys).cons y).trans hperm
      · intro c hc
        have hcy : WeakOrder less (c :: y :: ys) := hord.mono (by simp; grind)
        rw [← hrank c hc]
        exact kept_filter hcy hsorted

/-- One list of four elements in two ranks, and an empty one behind it. -/
theorem listSort_listUnique_pairs :
    ∃ m' kept dropped,
      ((listSort (fun x y => decide (x / 2 < y / 2)) 0 9 5 3
          (pushAll (listInit ⟨id, id⟩ 1 8) 0 9 [7, 4, 6, 5])).bind
        (listUnique (fun x y => decide (x / 2 < y / 2)) 0 9 (some 8) 5)) = some m' ∧
      Chain m' 0 kept 9 ∧ Chain m' 1 ([] ++ dropped) 8 ∧
      (kept ++ dropped).Perm [7, 4, 6, 5] ∧
      kept.Pairwise (fun a b => decide (a / 2 < b / 2) = true) ∧
      ∀ c ∈ [7, 4, 6, 5],
        kept.filter (sameRank (fun x y => decide (x / 2 < y / 2)) c) =
            ([7, 4, 6, 5].filter (sameRank (fun x y => decide (x / 2 < y / 2)) c)).take 1 ∧
          dropped.filter (sameRank (fun x y => decide (x / 2 < y / 2)) c) =
            ([7, 4, 6, 5].filter (sameRank (fun x y => decide (x / 2 < y / 2)) c)).drop 1 :=
  listSort_listUnique _ (pushAll_chain _ (by decide) (by decide))
    (show Chain (pushAll (listInit ⟨id, id⟩ 1 8) 0 9 [7, 4, 6, 5]) 1 [] 8 from ⟨rfl, rfl⟩)
    (by decide) (by decide) (by decide) (by decide) (weakOrder_of_key (fun x => x / 2) _)
    (by decide) (by norm_num)

end UniquePointers

/-! ## Reversal -/

/-- The links read the other way. -/
def Links.flip (m : Links N) : Links N := { prev := m.next, next := m.prev }

theorem Chain.flip {m : Links N} {a b : N} {xs : List N} (h : Chain m a xs b) :
    Chain m.flip b xs.reverse a := by
  induction xs generalizing a with
  | nil => exact ⟨h.2, h.1⟩
  | cons x xs ih =>
      rw [List.reverse_cons, chain_append]
      exact ⟨ih h.2.2, h.2.1, h.1⟩

section Reversing

variable [DecidableEq N]

theorem swapElem_next {m : Links N} {e n : N} :
    (swapElem m e).next n = if n = e then m.prev e else m.next n := by
  simp [swapElem, Links.setPrev, Links.setNext, Function.update_apply]

theorem swapElem_prev {m : Links N} {e n : N} :
    (swapElem m e).prev n = if n = e then m.next e else m.prev n := by
  simp [swapElem, Links.setPrev, Links.setNext, Function.update_apply]

/-- The loop turns the links of the elements, and of nothing else. The links it
follows are those of a memory `m` before any of them is turned. -/
theorem reverseLoop_chain {m m1 : Links N} {a b : N} {xs : List N} (h : Chain m a xs b)
    (hnodup : xs.Nodup) (hb : b ∉ xs) (hsame : ∀ n ∈ xs, m1.next n = m.next n ∧ m1.prev n = m.prev n)
    {fuel : Nat} (hfuel : xs.length < fuel) :
    ∃ m', reverseLoop b fuel m1 (xs.headD b) = some m' ∧
      (∀ n ∈ xs, m'.next n = m.prev n ∧ m'.prev n = m.next n) ∧
      ∀ n, n ∉ xs → m'.next n = m1.next n ∧ m'.prev n = m1.prev n := by
  induction xs generalizing a m1 fuel with
  | nil =>
      cases fuel with
      | zero => cases hfuel
      | succ fuel => exact ⟨m1, if_pos rfl, by simp, fun _ _ => ⟨rfl, rfl⟩⟩
  | cons x xs ih =>
      cases fuel with
      | zero => cases hfuel
      | succ fuel =>
          obtain ⟨-, -, hx⟩ := h
          obtain ⟨hxxs, hnodup'⟩ := List.nodup_cons.mp hnodup
          have hxb : x ≠ b := fun heq => hb (heq ▸ List.mem_cons_self)
          obtain ⟨hx1, hx2⟩ := hsame x List.mem_cons_self
          have hrest : ∀ n ∈ xs, (swapElem m1 x).next n = m.next n ∧
              (swapElem m1 x).prev n = m.prev n := by
            intro n hn
            have hne : n ≠ x := fun heq => hxxs (heq ▸ hn)
            rw [swapElem_next, swapElem_prev, if_neg hne, if_neg hne]
            exact hsame n (List.mem_cons_of_mem _ hn)
          obtain ⟨m', hm', hturned, hkept⟩ := ih hx hnodup'
            (fun hm => hb (List.mem_cons_of_mem _ hm)) hrest (Nat.lt_of_succ_lt_succ hfuel)
          refine ⟨m', ?_, ?_, ?_⟩
          · rw [List.headD_cons, reverseLoop, if_neg hxb]
            simp only [swapElem_prev, if_pos, hx1, hx.next_headD]
            exact hm'
          · intro n hn
            rcases List.mem_cons.mp hn with rfl | hn
            · obtain ⟨h1, h2⟩ := hkept n hxxs
              rw [h1, h2, swapElem_next, swapElem_prev, if_pos rfl, if_pos rfl]
              exact ⟨hx2, hx1⟩
            · exact hturned n hn
          · intro n hn
            obtain ⟨hne, hnxs⟩ : n ≠ x ∧ n ∉ xs := by simpa using hn
            obtain ⟨h1, h2⟩ := hkept n hnxs
            rw [h1, h2, swapElem_next, swapElem_prev, if_neg hne, if_neg hne]
            exact ⟨rfl, rfl⟩

/-- What the two swaps write, where the first and the last element are not the
sentinels. -/
theorem swapEnds_next {m : Links N} {head tail n : N} (hlast : m.prev tail ≠ tail) :
    (swapEnds m head tail).next n =
      if n = m.next head then m.prev (m.prev tail) else if n = head then m.prev tail
      else m.next n := by
  simp [swapEnds, Links.setPrev, Links.setNext, Function.update_apply, hlast]

theorem swapEnds_prev {m : Links N} {head tail n : N} (hfirst : m.next head ≠ head) :
    (swapEnds m head tail).prev n =
      if n = m.prev tail then m.next (m.next head) else if n = tail then m.next head
      else m.prev n := by
  simp [swapEnds, Links.setPrev, Links.setNext, Function.update_apply, hfirst]

/-- **Reversal.** -/
theorem listReverse_chain {m : Links N} {head tail : N} {xs : List N} (h : Chain m head xs tail)
    (hnodup : (head :: xs).Nodup) (htail : tail ∉ head :: xs) {bound : Nat}
    (hbound : xs.length < bound) :
    ∃ m', listReverse head tail bound m = some m' ∧ Chain m' head xs.reverse tail ∧
      Relinked m m' head xs tail := by
  rcases eq_or_ne xs [] with rfl | hne
  · exact ⟨m, if_pos h.1, h, .refl _ _ _ _⟩
  · obtain ⟨hhead, hnodup'⟩ := List.nodup_cons.mp hnodup
    have hxs : tail ∉ xs := fun hm => htail (List.mem_cons_of_mem _ hm)
    have hfirst : m.next head ∈ xs := by
      cases xs with
      | nil => exact absurd rfl hne
      | cons x xs => exact h.1 ▸ List.mem_cons_self
    have hlast : m.prev tail ∈ xs := by
      rcases h.prev_last with hp | hp
      · rw [← hp, h.next_prev] at hfirst
        exact absurd hfirst hxs
      · exact hp
    have hft : m.next head ≠ tail := fun heq => hxs (heq ▸ hfirst)
    have hlt : m.prev tail ≠ tail := fun heq => hxs (heq ▸ hlast)
    have hfh : m.next head ≠ head := fun heq => hhead (heq ▸ hfirst)
    obtain ⟨m1, hm1, hturned, hkept⟩ := reverseLoop_chain h hnodup' hxs (fun _ _ => ⟨rfl, rfl⟩)
      hbound
    obtain ⟨hh1, hh2⟩ := hkept head hhead
    obtain ⟨ht1, ht2⟩ := hkept tail hxs
    -- the memory behind the loop, the ends turned as well
    have hnext : ∀ n, (swapEnds m1 head tail).next n =
        if n = m.next head then tail else if n = head then m.prev tail else m1.next n := by
      intro n
      rw [swapEnds_next (ht2 ▸ hlt), hh1, ht2, (hturned _ hlast).2, h.next_prev]
    have hprev : ∀ n, (swapEnds m1 head tail).prev n =
        if n = m.prev tail then head else if n = tail then m.next head else m1.prev n := by
      intro n
      rw [swapEnds_prev (hh1 ▸ hfh), hh1, ht2, (hturned _ hfirst).1, h.prev_next]
    refine ⟨swapEnds m1 head tail, ?_, ?_, ?_, ?_⟩
    · rw [listReverse, if_neg hft, h.next_headD, hm1]
      rfl
    · have hflip := h.flip
      cases hr : xs.reverse with
      | nil => exact absurd (List.reverse_eq_nil_iff.mp hr) hne
      | cons z zs =>
          rw [hr] at hflip
          obtain ⟨hz, -, hzs⟩ := hflip
          have hmem : ∀ n, n ∈ z :: zs ↔ n ∈ xs := fun n => by rw [← hr, List.mem_reverse]
          have hnd : (z :: zs).Nodup := hr ▸ List.nodup_reverse.mpr hnodup'
          have hz : m.prev tail = z := hz
          refine ⟨?_, ?_, hzs.retarget hnd ?_ ?_ ?_ ?_⟩
          · rw [hnext, if_neg hfh.symm, if_pos rfl, hz]
          · rw [hprev, if_pos hz.symm]
          · exact (hnext _).trans (if_pos rfl)
          · rw [hprev, if_neg hlt.symm, if_pos rfl]
            rfl
          · intro n hn (hne' : n ≠ m.next head)
            have hnx : n ∈ xs := (hmem n).mp (List.mem_cons.mpr hn)
            have hnh : n ≠ head := fun heq => hhead (heq ▸ hnx)
            rw [hnext, if_neg hne', if_neg hnh]
            exact (hturned n hnx).1
          · intro n hn
            have hnx : n ∈ xs := (hmem n).mp (List.mem_cons_of_mem _ hn)
            have hnl : n ≠ m.prev tail := fun heq => (List.nodup_cons.mp hnd).1 (hz ▸ heq ▸ hn)
            have hnt : n ≠ tail := fun heq => hxs (heq ▸ hnx)
            rw [hprev, if_neg hnl, if_neg hnt]
            exact (hturned n hnx).2
    · intro n hnh hn
      have hnf : n ≠ m.next head := fun heq => hn (heq ▸ hfirst)
      rw [hnext, if_neg hnf, if_neg hnh]
      exact (hkept n hn).1
    · intro n hnt hn
      have hnl : n ≠ m.prev tail := fun heq => hn (heq ▸ hlast)
      rw [hprev, if_neg hnl, if_neg hnt]
      exact (hkept n hn).2

theorem listReverse_chain_three :
    ∃ m', listReverse 0 9 4 (pushAll ⟨id, id⟩ 0 9 [7, 4, 6]) = some m' ∧
      Chain m' 0 [6, 4, 7] 9 ∧ Relinked (pushAll ⟨id, id⟩ 0 9 [7, 4, 6]) m' 0 [7, 4, 6] 9 :=
  listReverse_chain (pushAll_chain _ (by decide) (by decide)) (by decide) (by decide) (by decide)

end Reversing

end Levos.Lib
