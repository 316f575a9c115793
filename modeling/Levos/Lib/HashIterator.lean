import Levos.Lib.HashLinks

/-!
# Going over a hash table (`lib/hash.c`)

`hash_first` and `hash_next` on the pointers: the loop the header recommends
visits every element of the table once, and ends. With the runs of
`Levos.Lib.HashLinks` this is the whole of what the users of a table rely on.
-/

namespace Levos.Lib

open ListNode

/-! ## The functions of the source -/

/-- `struct hash_iterator`; no element is the null pointer. -/
structure HashIterator where
  bucket : Nat
  elem : Option ListNode

/-- The iterator starts on the sentinel in front of the first bucket. -/
def hashFirst (t : HashMem) : HashIterator :=
  { bucket := t.buckets, elem := some (head t.buckets) }

/-- The loop of `hash_next`: past the ends of buckets. -/
def skipBuckets (t : HashMem) : Nat → Nat → ListNode → Option HashIterator
  | 0, _, _ => none
  | fuel + 1, bucket, e =>
      if e = tail bucket then
        if bucket + 1 ≥ t.buckets + t.bucketCnt then some { bucket := bucket + 1, elem := none }
        else skipBuckets t fuel (bucket + 1) (t.links.next (head (bucket + 1)))
      else some { bucket := bucket, elem := some e }

def hashNext (bound : Nat) (t : HashMem) (i : HashIterator) : Option HashIterator :=
  i.elem.bind fun e => skipBuckets t bound i.bucket (t.links.next e)

/-- `while (hash_next (&i)) .. hash_cur (&i) ..`: the elements it is run for. -/
def hashVisit (bound : Nat) (t : HashMem) : Nat → HashIterator → Option (List Nat)
  | 0, _ => none
  | fuel + 1, i => do
      let i ← hashNext bound t i
      match i.elem with
      | none => some []
      | some cur => do
          let e ← hashElem cur
          let es ← hashVisit bound t fuel i
          some (e :: es)

/-! ## The visits -/

variable {t : HashMem} {h : HashTable Nat}

/-- What the chains behind the `i`-th hold. -/
def later (h : HashTable Nat) (i : Nat) : List Nat :=
  (List.range' (i + 1) (h.bucketCnt - (i + 1))).flatMap h.buckets

theorem later_succ {i : Nat} (hi : i + 1 < h.bucketCnt) :
    later h i = h.buckets (i + 1) ++ later h (i + 1) := by
  have hcnt : h.bucketCnt - (i + 1) = (h.bucketCnt - (i + 1 + 1)) + 1 := by omega
  rw [later, hcnt, List.range'_succ, List.flatMap_cons, later]

theorem later_last {i : Nat} (hi : ¬ i + 1 < h.bucketCnt) : later h i = [] := by
  have hcnt : h.bucketCnt - (i + 1) = 0 := by omega
  rw [later, hcnt]
  rfl

/-- A place in a bucket, with the elements `es` still to come. -/
structure StandsBefore (t : HashMem) (h : HashTable Nat) (i : HashIterator) (a : ListNode)
    (es : List Nat) : Prop where
  elem : i.elem = some a
  rest : ∃ j xs, j < h.bucketCnt ∧ i.bucket = t.buckets + j ∧
    Chain t.links a (xs.map ListNode.elem) (tail (t.buckets + j)) ∧ xs ++ later h j = es

/-- `hash_next` goes to the next element, or past the last bucket. -/
theorem hashNext_spec (hl : Linked t h) {bound : Nat} (hbound : h.bucketCnt < bound)
    {i : HashIterator} {a : ListNode} {es : List Nat} (hs : StandsBefore t h i a es) :
    ∃ it, hashNext bound t i = some it ∧
      ((es = [] ∧ it.elem = none) ∨
        ∃ e rest, es = e :: rest ∧ StandsBefore t h it (elem e) rest) := by
  obtain ⟨hel, j, xs, hj, hb, hc, rfl⟩ := hs
  rw [hashNext, hel, Option.bind_some, hb]
  clear hel hb
  have hfuel : h.bucketCnt - j < bound := by omega
  clear hbound
  induction bound generalizing j a xs with
  | zero => omega
  | succ fuel ih =>
      cases xs with
      | nil =>
          rw [hc.1, skipBuckets, if_pos rfl]
          by_cases hlast : j + 1 < h.bucketCnt
          · have hmore : ¬ t.buckets + j + 1 ≥ t.buckets + t.bucketCnt := by
              rw [hl.bucketCnt]
              omega
            have hin : InArray t.buckets t.bucketCnt (t.buckets + (j + 1)) :=
              ⟨by omega, by rw [hl.bucketCnt]; omega⟩
            have hnext := hl.lists.chain hin
            rw [Nat.add_sub_cancel_left] at hnext
            rw [if_neg hmore, List.nil_append, later_succ hlast]
            exact ih _ _ hlast hnext (by omega)
          · have hend : t.buckets + j + 1 ≥ t.buckets + t.bucketCnt := by
              rw [hl.bucketCnt]
              omega
            exact ⟨_, if_pos hend, .inl ⟨later_last hlast, rfl⟩⟩
      | cons x xs =>
          obtain ⟨h1, -, h3⟩ := hc
          rw [h1, skipBuckets, if_neg (by simp)]
          exact ⟨_, rfl, .inr ⟨x, xs ++ later h j, rfl, rfl, j, xs, hj, rfl, h3, rfl⟩⟩

theorem hashVisit_end {bound fuel : Nat} {i it : HashIterator} (hn : hashNext bound t i = some it)
    (he : it.elem = none) : hashVisit bound t (fuel + 1) i = some [] := by
  simp [hashVisit, hn, he]

theorem hashVisit_elem {bound fuel e : Nat} {es : List Nat} {i it : HashIterator}
    (hn : hashNext bound t i = some it) (he : it.elem = some (elem e))
    (hv : hashVisit bound t fuel it = some es) :
    hashVisit bound t (fuel + 1) i = some (e :: es) := by
  simp [hashVisit, hn, he, hashElem, hv]

/-- From such a place on, the loop visits what is to come, and ends. -/
theorem hashVisit_rest (hl : Linked t h) {bound : Nat} (hbound : h.bucketCnt < bound)
    {i : HashIterator} {a : ListNode} {es : List Nat} (hs : StandsBefore t h i a es) {fuel : Nat}
    (hfuel : es.length < fuel) : hashVisit bound t fuel i = some es := by
  induction es generalizing i a fuel with
  | nil =>
      obtain ⟨it, hn, ⟨-, he⟩ | ⟨e, rest, hcons, -⟩⟩ := hashNext_spec hl hbound hs
      · cases fuel with
        | zero => cases hfuel
        | succ fuel => exact hashVisit_end hn he
      · cases hcons
  | cons x es ih =>
      obtain ⟨it, hn, ⟨hnil, -⟩ | ⟨e, rest, hcons, hs'⟩⟩ := hashNext_spec hl hbound hs
      · cases hnil
      · obtain ⟨rfl, rfl⟩ := List.cons.inj hcons
        cases fuel with
        | zero => cases hfuel
        | succ fuel =>
            exact hashVisit_elem hn hs'.elem (ih hs' (Nat.lt_of_succ_lt_succ hfuel))

/-- The loop over a table visits its elements in the order of the chains. -/
theorem Linked.visit (hl : Linked t h) (hok : TableOk h) {bound : Nat}
    (hbound : h.bucketCnt < bound) {fuel : Nat} (hfuel : h.inOrder.length < fuel) :
    hashVisit bound t fuel (hashFirst t) = some h.inOrder := by
  have hpos := Nat.pos_of_isPowerOfTwo hok.pow
  have hin : InArray t.buckets t.bucketCnt (t.buckets + 0) := ⟨by omega, by rw [hl.bucketCnt]; omega⟩
  have hchain := hl.lists.chain hin
  rw [Nat.add_sub_cancel_left] at hchain
  have horder : h.inOrder = h.buckets 0 ++ later h 0 := by
    have hcnt : h.bucketCnt = (h.bucketCnt - (0 + 1)) + 1 := by omega
    rw [HashTable.inOrder, later, List.range_eq_range', hcnt, List.range'_succ, List.flatMap_cons]
    simp
  refine hashVisit_rest hl hbound (a := head t.buckets) ⟨rfl, 0, h.buckets 0, hpos, rfl, ?_, ?_⟩
    hfuel
  · exact hchain
  · exact horder.symm

/-- **The table in memory is a finite map.** From `hash_init` on, any calls in any
order come to an end and answer as a partial function from keys to elements
does, wherever `malloc` puts the arrays and whenever it fails; going over the
table then meets every binding of that function once. -/
theorem hashRunAt_is_map {K : Type} [DecidableEq K] {key : Nat → K} (m : Links ListNode)
    (buckets : Nat) (hash : Nat → BitVec 32) (less : Nat → Nat → Bool)
    (hirr : ∀ e, less e e = false) (hk : KeyedBy (hashInit hash less) key)
    {destructor : Links ListNode → Nat → Links ListNode} (hd : DestructorOk destructor)
    {malloc : HashMem → Nat → Option Nat} (hmalloc : ∀ t, MallocOk (malloc t) t) {bound : Nat}
    {ops : List (HashOp Nat)} (hbound : ops.length < bound) :
    ∃ outs t es,
      hashRunAt hash less destructor bound malloc (hashInitAt m buckets) ops = some (outs, t) ∧
      outs = (mapRun key (fun _ => none) ops).1 ∧
      hashVisit (t.bucketCnt + 1) t (t.elemCnt + 1) (hashFirst t) = some es ∧
      es.Nodup ∧ (∀ e, e ∈ es ↔ (mapRun key (fun _ => none) ops).2 (key e) = some e) ∧
      t.elemCnt = es.length := by
  have hl := hashInitAt_linked m buckets hash less
  have hr := hashInit_represents hash less hirr hk
  obtain ⟨t, calls, hrun, hops, hl'⟩ := hl.run hr hd hmalloc
    (by rw [hashInit, Nat.zero_add]; exact hbound)
  obtain ⟨houts, hr'⟩ := hr.run calls
  rw [hops] at houts hr'
  obtain ⟨hnodup, hmem, hsize⟩ := hr'.inOrder
  refine ⟨_, t, _, hrun, houts, hl'.visit hr'.tableOk ?_ ?_, hnodup, hmem, ?_⟩
  · rw [hl'.bucketCnt]
    exact Nat.lt_succ_self _
  · rw [hl'.elemCnt, ← hsize]
    exact Nat.lt_succ_self _
  · rw [hl'.elemCnt]
    exact hsize

/-- Elements with their last digit for a key; every array behind the one before. -/
theorem hashRunAt_is_map_digits :
    ∃ outs t es,
      hashRunAt (fun e => BitVec.ofNat 32 (e % 10)) (fun x e => decide (x % 10 < e % 10))
          (fun m _ => m) 6 (fun t _ => some (t.buckets + t.bucketCnt)) (hashInitAt ⟨id, id⟩ 0)
          [.insert 11, .insert 25, .insert 31, .replace 21, .delete 5] = some (outs, t) ∧
      outs = (mapRun (· % 10) (fun _ : Nat => none)
          [.insert 11, .insert 25, .insert 31, .replace 21, .delete 5]).1 ∧
      hashVisit (t.bucketCnt + 1) t (t.elemCnt + 1) (hashFirst t) = some es ∧
      es.Nodup ∧
      (∀ e, e ∈ es ↔ (mapRun (· % 10) (fun _ : Nat => none)
          [.insert 11, .insert 25, .insert 31, .replace 21, .delete 5]).2 (e % 10) = some e) ∧
      t.elemCnt = es.length :=
  hashRunAt_is_map ⟨id, id⟩ 0 _ _ (by simp)
    ⟨fun x e => by simp [HashTable.same, hashInit, Nat.le_antisymm_iff, and_comm],
      fun _ _ h => congrArg (BitVec.ofNat 32) h⟩
    (fun _ _ _ _ => ⟨rfl, rfl⟩)
    (fun t n b hb l hin hold => by
      obtain rfl := Option.some.inj hb
      exact absurd hin.1 (not_le.mpr hold.2))
    (by decide)

end Levos.Lib
