import Mathlib.Tactic
import Mathlib.Algebra.BigOperators.Group.Finset.Basic
import Mathlib.Algebra.Order.BigOperators.Group.Finset
import Mathlib.Data.Nat.Bitwise

/-!
# Hash tables (`lib/hash.c`)

Chains of elements, found by a hash and a comparison the user supplies. The
elements are the addresses of the structures a `struct hash_elem` lies in,
with what the callbacks read there. The number of buckets follows the number
of elements; `contents`, the elements of all chains together, does not see
it. Every operation has one lemma about `contents`.
-/

namespace Levos.Lib

variable {E : Type}

/-! ## The functions of the source -/

/-- `struct hash`; a bucket is the list of its elements, first element first. -/
structure HashTable (E : Type) where
  elemCnt : Nat
  bucketCnt : Nat
  buckets : Nat → List E
  hash : E → BitVec 32
  less : E → E → Bool

def hashInit (hash : E → BitVec 32) (less : E → E → Bool) : HashTable E :=
  { elemCnt := 0, bucketCnt := 4, buckets := fun _ => [], hash, less }

def fnv32Prime : BitVec 32 := 16777619
def fnv32Basis : BitVec 32 := 2166136261

def hashBytes (buf : List (BitVec 8)) : BitVec 32 :=
  buf.foldl (fun hash b => hash * fnv32Prime ^^^ b.zeroExtend 32) fnv32Basis

/-- The four bytes of the integer, low byte first. -/
def hashInt (i : BitVec 32) : BitVec 32 :=
  hashBytes [i.extractLsb' 0 8, i.extractLsb' 8 8, i.extractLsb' 16 8, i.extractLsb' 24 8]

/-- The index of the bucket. -/
def findBucket (h : HashTable E) (e : E) : Nat := (h.hash e).toNat &&& (h.bucketCnt - 1)

/-- Neither is less than the other: what the table takes for equal. -/
def HashTable.same (h : HashTable E) (x e : E) : Bool := !h.less x e && !h.less e x

def findElem (h : HashTable E) (bucket : Nat) (e : E) : Option E :=
  (h.buckets bucket).find? fun hi => h.same hi e

def insertElem (h : HashTable E) (bucket : Nat) (e : E) : HashTable E :=
  { h with elemCnt := h.elemCnt + 1,
           buckets := Function.update h.buckets bucket (e :: h.buckets bucket) }

/-- The element is unlinked from the chain it is in. -/
def removeElem [DecidableEq E] (h : HashTable E) (e : E) : HashTable E :=
  { h with elemCnt := h.elemCnt - 1, buckets := fun i => (h.buckets i).erase e }

def turnOffLeast1bit (x : Nat) : Nat := x &&& (x - 1)

def isPowerOf2 (x : Nat) : Bool := x ≠ 0 && turnOffLeast1bit x = 0

/-- `while (!is_power_of_2(n)) n = turn_off_least_1bit(n)`; each turn makes
`n` smaller. -/
def powerOf2Loop : Nat → Nat → Nat
  | 0, n => n
  | fuel + 1, n => if isPowerOf2 n then n else powerOf2Loop fuel (turnOffLeast1bit n)

def bestElemsPerBucket : Nat := 2

/-- The number of buckets `rehash` wants. -/
def newBucketCnt (elemCnt : Nat) : Nat :=
  let n := elemCnt / bestElemsPerBucket
  let n := if n < 4 then 4 else n
  powerOf2Loop n n

/-- One element goes to the front of its new bucket. -/
def moveElem (h : HashTable E) (e : E) : HashTable E :=
  { h with buckets := Function.update h.buckets (findBucket h e) (e :: h.buckets (findBucket h e)) }

/-- `ok` says whether the new buckets could be allocated. -/
def rehash (ok : Bool) (h : HashTable E) : HashTable E :=
  let n := newBucketCnt h.elemCnt
  if n = h.bucketCnt then h
  else if !ok then h
  else
    (List.range h.bucketCnt).foldl (fun new i => (h.buckets i).foldl moveElem new)
      { h with bucketCnt := n, buckets := fun _ => [] }

/-- `none` is the null pointer: the element has been inserted. -/
def hashInsert (ok : Bool) (h : HashTable E) (new : E) : Option E × HashTable E :=
  let bucket := findBucket h new
  match findElem h bucket new with
  | none => (none, rehash ok (insertElem h bucket new))
  | some old => (some old, rehash ok h)

def hashFind (h : HashTable E) (e : E) : Option E := findElem h (findBucket h e) e

def hashDelete [DecidableEq E] (ok : Bool) (h : HashTable E) (e : E) : Option E × HashTable E :=
  match findElem h (findBucket h e) e with
  | some found => (some found, rehash ok (removeElem h found))
  | none => (none, h)

/-! ## Powers of two -/

theorem turnOffLeast1bit_lt {x : Nat} (hx : x ≠ 0) : turnOffLeast1bit x < x :=
  lt_of_le_of_lt Nat.and_le_right (by omega)

theorem isPowerOf2_iff {x : Nat} : isPowerOf2 x = true ↔ x.isPowerOfTwo := by
  rw [isPowerOf2, turnOffLeast1bit]
  simp [← Nat.ne_zero_and_sub_one_eq_zero_iff_isPowerOfTwo]

theorem powerOf2Loop_isPowerOfTwo {fuel n : Nat} (hn : n ≠ 0) (hfuel : n ≤ fuel) :
    (powerOf2Loop fuel n).isPowerOfTwo := by
  induction fuel generalizing n with
  | zero => omega
  | succ fuel ih =>
      rw [powerOf2Loop]
      by_cases hp : isPowerOf2 n = true
      · rw [if_pos hp]
        exact isPowerOf2_iff.mp hp
      · rw [if_neg hp]
        have hne : turnOffLeast1bit n ≠ 0 := fun h0 => hp (by simp [isPowerOf2, hn, h0])
        have hlt := turnOffLeast1bit_lt hn
        exact ih hne (by omega)

theorem newBucketCnt_isPowerOfTwo (n : Nat) : (newBucketCnt n).isPowerOfTwo := by
  rw [newBucketCnt]
  refine powerOf2Loop_isPowerOfTwo ?_ le_rfl
  split <;> omega

/-- The table starts with the four buckets that up to fifteen elements need. -/
theorem newBucketCnt_of_lt {n : Nat} (h : n < 16) : newBucketCnt n = 4 := by
  interval_cases n <;> rfl

/-! ## Contents -/

/-- The elements of all chains. -/
def HashTable.contents (h : HashTable E) : Multiset E :=
  ∑ i ∈ Finset.range h.bucketCnt, (h.buckets i : Multiset E)

/-- Every element is in the chain its hash picks, in a table with a power of
two of chains. -/
structure Placed (h : HashTable E) : Prop where
  pow : h.bucketCnt.isPowerOfTwo
  place : ∀ {i e}, e ∈ h.buckets i → i = findBucket h e

theorem findBucket_lt {h : HashTable E} (hpow : h.bucketCnt.isPowerOfTwo) (e : E) :
    findBucket h e < h.bucketCnt := by
  have hpos := Nat.pos_of_isPowerOfTwo hpow
  exact lt_of_le_of_lt Nat.and_le_right (by omega)

theorem Placed.mem {h : HashTable E} (hp : Placed h) {e : E} :
    e ∈ h.contents ↔ e ∈ h.buckets (findBucket h e) := by
  rw [HashTable.contents, Multiset.mem_sum]
  constructor
  · rintro ⟨i, -, hi⟩
    exact hp.place hi ▸ hi
  · exact fun he => ⟨_, Finset.mem_range.mpr (findBucket_lt hp.pow e), he⟩

/-- Replacing one chain. -/
theorem contents_update {h : HashTable E} {i : Nat} (hi : i < h.bucketCnt) (l : List E) :
    ({ h with buckets := Function.update h.buckets i l }).contents + (h.buckets i : Multiset E) =
      h.contents + (l : Multiset E) := by
  have hmem : i ∈ Finset.range h.bucketCnt := Finset.mem_range.mpr hi
  have hnew := Finset.add_sum_erase (Finset.range h.bucketCnt)
    (fun j => (Function.update h.buckets i l j : Multiset E)) hmem
  have hold := Finset.add_sum_erase (Finset.range h.bucketCnt)
    (fun j => (h.buckets j : Multiset E)) hmem
  have hrest : ∑ j ∈ (Finset.range h.bucketCnt).erase i,
      (Function.update h.buckets i l j : Multiset E) =
        ∑ j ∈ (Finset.range h.bucketCnt).erase i, (h.buckets j : Multiset E) :=
    Finset.sum_congr rfl fun j hj => by
      rw [Function.update_of_ne (Finset.ne_of_mem_erase hj)]
  simp only [Function.update_self] at hnew
  rw [HashTable.contents, HashTable.contents]
  dsimp only
  rw [← hnew, ← hold, hrest]
  abel

theorem contents_push {h : HashTable E} {i : Nat} (hi : i < h.bucketCnt) (e : E) :
    ({ h with buckets := Function.update h.buckets i (e :: h.buckets i) }).contents =
      e ::ₘ h.contents := by
  have hup := contents_update hi (e :: h.buckets i)
  rw [← Multiset.cons_coe, Multiset.add_cons, ← Multiset.cons_add] at hup
  exact add_right_cancel hup

/-! ## Moving the elements -/

theorem Placed.move {h : HashTable E} (hp : Placed h) (e : E) :
    Placed (moveElem h e) ∧ (moveElem h e).contents = e ::ₘ h.contents := by
  refine ⟨⟨hp.pow, fun {i x} hx => ?_⟩, contents_push (findBucket_lt hp.pow e) e⟩
  by_cases hi : i = findBucket h e
  · subst hi
    simp only [moveElem, Function.update_self, List.mem_cons] at hx
    rcases hx with rfl | hx
    · rfl
    · exact hp.place hx
  · simp only [moveElem, Function.update_of_ne hi] at hx
    exact hp.place hx

/-- What `rehash` leaves alone. -/
structure SameUse (h h' : HashTable E) : Prop where
  elemCnt : h'.elemCnt = h.elemCnt
  hash : h'.hash = h.hash
  less : h'.less = h.less

theorem SameUse.refl (h : HashTable E) : SameUse h h := ⟨rfl, rfl, rfl⟩

theorem moveAll {h : HashTable E} (hp : Placed h) (l : List E) :
    let h' := l.foldl moveElem h
    Placed h' ∧ h'.contents = (l : Multiset E) + h.contents ∧ SameUse h h' := by
  induction l generalizing h with
  | nil => exact ⟨hp, (zero_add _).symm, .refl h⟩
  | cons e l ih =>
      obtain ⟨hp1, hc1⟩ := hp.move e
      obtain ⟨hp2, hc2, hs⟩ := ih hp1
      refine ⟨hp2, ?_, ⟨hs.elemCnt, hs.hash, hs.less⟩⟩
      rw [List.foldl_cons, hc2, hc1, ← Multiset.cons_coe, Multiset.add_cons, Multiset.cons_add]

/-- The chains `0 .. n - 1` of an old table go into a new one. -/
theorem moveChains {h : HashTable E} (hp : Placed h) (chains : Nat → List E) (n : Nat) :
    let h' := (List.range n).foldl (fun new i => (chains i).foldl moveElem new) h
    Placed h' ∧ h'.contents = (∑ i ∈ Finset.range n, (chains i : Multiset E)) + h.contents ∧
      SameUse h h' := by
  induction n with
  | zero => exact ⟨hp, (zero_add _).symm, .refl h⟩
  | succ n ih =>
      obtain ⟨hp1, hc1, hs1⟩ := ih
      obtain ⟨hp2, hc2, hs2⟩ := moveAll hp1 (chains n)
      rw [List.range_succ, List.foldl_append]
      refine ⟨hp2, ?_, ⟨hs2.elemCnt.trans hs1.elemCnt, hs2.hash.trans hs1.hash,
        hs2.less.trans hs1.less⟩⟩
      rw [List.foldl_cons, List.foldl_nil, hc2, hc1, Finset.sum_range_succ]
      abel

/-- A table without elements. -/
theorem placed_empty {h : HashTable E} (hpow : h.bucketCnt.isPowerOfTwo)
    (hempty : ∀ i, h.buckets i = []) : Placed h ∧ h.contents = 0 := by
  refine ⟨⟨hpow, fun {i e} he => ?_⟩, ?_⟩
  · rw [hempty] at he
    cases he
  · exact Finset.sum_eq_zero fun i _ => by rw [hempty, Multiset.coe_nil]

theorem rehash_placed (ok : Bool) {h : HashTable E} (hp : Placed h) :
    Placed (rehash ok h) ∧ (rehash ok h).contents = h.contents ∧ SameUse h (rehash ok h) := by
  rw [rehash]
  by_cases hn : newBucketCnt h.elemCnt = h.bucketCnt
  · rw [if_pos hn]
    exact ⟨hp, rfl, .refl h⟩
  cases ok with
  | false =>
      rw [if_neg hn]
      exact ⟨hp, rfl, .refl h⟩
  | true =>
      rw [if_neg hn]
      obtain ⟨hp0, hc0⟩ := placed_empty
        (h := { h with bucketCnt := newBucketCnt h.elemCnt, buckets := fun _ => [] })
        (newBucketCnt_isPowerOfTwo _) fun _ => rfl
      obtain ⟨hp1, hc1, hs1⟩ := moveChains hp0 h.buckets h.bucketCnt
      refine ⟨hp1, ?_, ⟨hs1.elemCnt, hs1.hash, hs1.less⟩⟩
      rw [hc0, add_zero] at hc1
      exact hc1

/-- A table whose number of buckets suits its number of elements keeps its
chains. -/
theorem rehash_of_eq (ok : Bool) {h : HashTable E} (hn : newBucketCnt h.elemCnt = h.bucketCnt) :
    rehash ok h = h := by
  rw [rehash, if_pos hn]

/-! ## The operations -/

/-- A table in use: what it holds is in its chains once, and counted. -/
structure TableOk (h : HashTable E) : Prop extends Placed h where
  irrefl : ∀ e, h.less e e = false
  nodup : h.contents.Nodup
  count : h.elemCnt = Multiset.card h.contents

theorem hashInit_ok (hash : E → BitVec 32) (less : E → E → Bool) (hirr : ∀ e, less e e = false) :
    TableOk (hashInit hash less) ∧ (hashInit hash less).contents = 0 := by
  obtain ⟨hp, hc⟩ := placed_empty (h := hashInit hash less)
    (show Nat.isPowerOfTwo 4 from ⟨2, rfl⟩) fun _ => rfl
  refine ⟨⟨hp, hirr, ?_, ?_⟩, hc⟩
  · rw [hc]
    exact Multiset.nodup_zero
  · rw [hc]
    rfl

theorem TableOk.same_self {h : HashTable E} (hok : TableOk h) (e : E) : h.same e e = true := by
  rw [HashTable.same, hok.irrefl]
  rfl

theorem findElem_some {h : HashTable E} {i : Nat} {e x : E} (hx : findElem h i e = some x) :
    x ∈ h.buckets i ∧ h.same x e = true :=
  ⟨List.mem_of_find?_eq_some hx, List.find?_some (p := fun hi => h.same hi e) hx⟩

/-- What is found is in the table, in the same chain, and taken for equal. -/
theorem TableOk.find_some {h : HashTable E} (hok : TableOk h) {e x : E}
    (hx : hashFind h e = some x) :
    x ∈ h.contents ∧ findBucket h x = findBucket h e ∧ h.same x e = true := by
  obtain ⟨hmem, hsame⟩ := findElem_some hx
  have hb := hok.place hmem
  refine ⟨hok.mem.mpr ?_, hb.symm, hsame⟩
  exact hb ▸ hmem

theorem TableOk.find_none {h : HashTable E} (hok : TableOk h) {e : E} :
    hashFind h e = none ↔
      ∀ x ∈ h.contents, findBucket h x = findBucket h e → h.same x e = false := by
  rw [hashFind, findElem, List.find?_eq_none]
  constructor
  · intro hnone x hx hb
    have := hnone x (hb ▸ hok.mem.mp hx)
    simpa using this
  · intro hall x hx
    have hb := (hok.place hx).symm
    have := hall x (hok.mem.mpr (hb ▸ hx)) hb
    simp [this]

theorem TableOk.rehash (ok : Bool) {h : HashTable E} (hok : TableOk h) :
    TableOk (rehash ok h) ∧ (Lib.rehash ok h).contents = h.contents := by
  obtain ⟨hp, hc, hs⟩ := rehash_placed ok hok.toPlaced
  refine ⟨⟨hp, fun e => ?_, hc ▸ hok.nodup, ?_⟩, hc⟩
  · rw [hs.less]
    exact hok.irrefl e
  · rw [hs.elemCnt, hc]
    exact hok.count

/-- An element the table finds nothing equal to goes in. -/
theorem TableOk.insert_none {h : HashTable E} (hok : TableOk h) (ok : Bool) {e : E}
    (hnone : hashFind h e = none) :
    hashInsert ok h e = (none, Lib.rehash ok (insertElem h (findBucket h e) e)) ∧
      TableOk (hashInsert ok h e).2 ∧ (hashInsert ok h e).2.contents = e ::ₘ h.contents := by
  have heq : hashInsert ok h e = (none, Lib.rehash ok (insertElem h (findBucket h e) e)) := by
    rw [hashFind] at hnone
    rw [hashInsert]
    simp only [hnone]
  have hfresh : e ∉ h.contents := fun hmem => by
    have := hok.find_none.mp hnone e hmem rfl
    rw [hok.same_self] at this
    cases this
  obtain ⟨hp, hc⟩ := hok.toPlaced.move e
  have hcins : (insertElem h (findBucket h e) e).contents = e ::ₘ h.contents := hc
  have hins : TableOk (insertElem h (findBucket h e) e) := by
    refine ⟨⟨hp.pow, hp.place⟩, hok.irrefl, ?_, ?_⟩
    · rw [hcins]
      exact Multiset.nodup_cons.mpr ⟨hfresh, hok.nodup⟩
    · rw [hcins, Multiset.card_cons, ← hok.count]
      rfl
  obtain ⟨hok', hc'⟩ := hins.rehash ok
  rw [heq]
  exact ⟨rfl, hok', hc'.trans hcins⟩

/-- An element the table has an equal of stays out. -/
theorem TableOk.insert_some {h : HashTable E} (hok : TableOk h) (ok : Bool) {e x : E}
    (hx : hashFind h e = some x) :
    hashInsert ok h e = (some x, Lib.rehash ok h) ∧
      TableOk (hashInsert ok h e).2 ∧ (hashInsert ok h e).2.contents = h.contents := by
  have heq : hashInsert ok h e = (some x, Lib.rehash ok h) := by
    rw [hashFind] at hx
    rw [hashInsert]
    simp only [hx]
  rw [heq]
  exact ⟨rfl, hok.rehash ok⟩

section Removing

variable [DecidableEq E]

theorem TableOk.remove {h : HashTable E} (hok : TableOk h) {x : E} (hx : x ∈ h.contents) :
    TableOk (removeElem h x) ∧ (removeElem h x).contents = h.contents.erase x := by
  have hmem := hok.mem.mp hx
  have hbuckets : (removeElem h x).buckets =
      Function.update h.buckets (findBucket h x) ((h.buckets (findBucket h x)).erase x) := by
    ext1 i
    by_cases hi : i = findBucket h x
    · subst hi
      rw [Function.update_self, removeElem]
    · rw [Function.update_of_ne hi]
      exact List.erase_of_not_mem fun hin => hi (hok.place hin)
  have hc : (removeElem h x).contents = h.contents.erase x := by
    have hup := contents_update (findBucket_lt hok.pow x) ((h.buckets (findBucket h x)).erase x)
    rw [← hbuckets] at hup
    have hcons : (h.buckets (findBucket h x) : Multiset E) =
        x ::ₘ ((h.buckets (findBucket h x)).erase x : Multiset E) := by
      rw [← Multiset.coe_erase, Multiset.cons_erase hmem]
    rw [hcons, Multiset.add_cons, ← Multiset.cons_add] at hup
    have := add_right_cancel hup
    rw [← this, Multiset.erase_cons_head]
    rfl
  refine ⟨⟨⟨hok.pow, fun {i e} he => hok.place (List.mem_of_mem_erase he)⟩, hok.irrefl, ?_, ?_⟩, hc⟩
  · rw [hc]
    exact hok.nodup.erase x
  · rw [hc, Multiset.card_erase_of_mem hx, ← hok.count]
    rfl

theorem TableOk.delete_some {h : HashTable E} (hok : TableOk h) (ok : Bool) {e x : E}
    (hx : hashFind h e = some x) :
    hashDelete ok h e = (some x, Lib.rehash ok (removeElem h x)) ∧
      TableOk (hashDelete ok h e).2 ∧ (hashDelete ok h e).2.contents = h.contents.erase x := by
  have heq : hashDelete ok h e = (some x, Lib.rehash ok (removeElem h x)) := by
    rw [hashFind] at hx
    rw [hashDelete]
    simp only [hx]
  obtain ⟨hrem, hc⟩ := hok.remove (hok.find_some hx).1
  obtain ⟨hok', hc'⟩ := hrem.rehash ok
  rw [heq]
  exact ⟨rfl, hok', hc'.trans hc⟩

theorem hashDelete_none {h : HashTable E} (ok : Bool) {e : E} (hnone : hashFind h e = none) :
    hashDelete ok h e = (none, h) := by
  rw [hashFind] at hnone
  rw [hashDelete]
  simp only [hnone]

end Removing

/-! ## Tables with keys -/

/-- Comparison and hash follow a key of the elements. -/
structure KeyedBy {K : Type} (h : HashTable E) (key : E → K) : Prop where
  same : ∀ x e, h.same x e = true ↔ key x = key e
  hash : ∀ x e, key x = key e → h.hash x = h.hash e

theorem KeyedBy.congr {K : Type} {key : E → K} {h h' : HashTable E} (hk : KeyedBy h key)
    (hhash : h'.hash = h.hash) (hless : h'.less = h.less) : KeyedBy h' key := by
  refine ⟨fun x e => ?_, fun x e hkey => ?_⟩
  · rw [HashTable.same, hless]
    exact hk.same x e
  · rw [hhash]
    exact hk.hash x e hkey

section Keys

variable {K : Type} {key : E → K} {h : HashTable E}

theorem TableOk.find_key (hok : TableOk h) (hk : KeyedBy h key) {e x : E}
    (hx : hashFind h e = some x) : x ∈ h.contents ∧ key x = key e := by
  obtain ⟨hmem, -, hsame⟩ := hok.find_some hx
  exact ⟨hmem, (hk.same x e).mp hsame⟩

/-- Nothing is found exactly when no element has the key. -/
theorem TableOk.find_none_key (hok : TableOk h) (hk : KeyedBy h key) {e : E} :
    hashFind h e = none ↔ ∀ x ∈ h.contents, key x ≠ key e := by
  rw [hok.find_none]
  constructor
  · intro hnone x hx hkey
    have hb : findBucket h x = findBucket h e := by
      rw [findBucket, findBucket, hk.hash x e hkey]
    have := hnone x hx hb
    rw [(hk.same x e).mpr hkey] at this
    cases this
  · intro hall x hx _
    exact Bool.eq_false_iff.mpr fun hsame => hall x hx ((hk.same x e).mp hsame)

theorem TableOk.insert_keyed (hok : TableOk h) (hk : KeyedBy h key) (ok : Bool) (e : E) :
    KeyedBy (hashInsert ok h e).2 key := by
  cases hfind : hashFind h e with
  | none =>
      rw [(hok.insert_none ok hfind).1]
      obtain ⟨hp, -⟩ := hok.toPlaced.move e
      have hins : Placed (insertElem h (findBucket h e) e) := ⟨hp.pow, hp.place⟩
      obtain ⟨-, -, hs⟩ := rehash_placed ok hins
      exact hk.congr hs.hash hs.less
  | some x =>
      rw [(hok.insert_some ok hfind).1]
      obtain ⟨-, -, hs⟩ := rehash_placed ok hok.toPlaced
      exact hk.congr hs.hash hs.less

theorem TableOk.delete_keyed [DecidableEq E] (hok : TableOk h) (hk : KeyedBy h key) (ok : Bool)
    (e : E) : KeyedBy (hashDelete ok h e).2 key := by
  cases hfind : hashFind h e with
  | none =>
      rw [hashDelete_none ok hfind]
      exact hk
  | some x =>
      rw [(hok.delete_some ok hfind).1]
      obtain ⟨hrem, -⟩ := hok.remove (hok.find_some hfind).1
      obtain ⟨-, -, hs⟩ := rehash_placed ok hrem.toPlaced
      exact hk.congr hs.hash hs.less

end Keys

end Levos.Lib
