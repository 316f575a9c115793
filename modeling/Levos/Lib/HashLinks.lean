import Levos.Lib.HashMap
import Levos.Lib.ListFamily

/-!
# Hash tables on the pointers (`lib/hash.c`)

The table as it lies in memory: an array of lists by number, and the elements
linked into them. Every function of the source is given as the walks and the
pointer writes it makes, and refines the function of the same name on chains of
elements. A list and a table element have one address, that of the object.
-/

namespace Levos.Lib

open ListNode

/-! ## The functions of the source -/

/-- `struct hash` in a memory of lists; `buckets` is the number of the first
list of the array. The callbacks are those of the table. -/
structure HashMem where
  elemCnt : Nat
  bucketCnt : Nat
  buckets : Nat
  links : Links ListNode

/-- `list_elem_to_hash_elem`; a sentinel lies in no element. -/
def hashElem : ListNode → Option Nat
  | .elem e => some e
  | .head _ => none
  | .tail _ => none

section Source

variable (hash : Nat → BitVec 32) (less : Nat → Nat → Bool)

def findBucketAt (t : HashMem) (e : Nat) : Nat :=
  t.buckets + ((hash e).toNat &&& (t.bucketCnt - 1))

/-- The loop of `find_elem` from list element `i` on. -/
def findElemFrom (m : Links ListNode) (bucket e : Nat) : Nat → ListNode → Option (Option Nat)
  | 0, _ => none
  | fuel + 1, i =>
      if i = tail bucket then some none
      else (hashElem i).bind fun hi =>
        if !less hi e && !less e hi then some (some hi)
        else findElemFrom m bucket e fuel (m.next i)

def findElemAt (bound : Nat) (t : HashMem) (bucket e : Nat) : Option (Option Nat) :=
  findElemFrom less t.links bucket e bound (t.links.next (head bucket))

def insertElemAt (t : HashMem) (bucket e : Nat) : HashMem :=
  { t with elemCnt := t.elemCnt + 1, links := listPushFront t.links bucket e }

def removeElemAt (t : HashMem) (e : Nat) : HashMem :=
  { t with elemCnt := t.elemCnt - 1, links := listRemove t.links (elem e) }

/-- The loop of `rehash` over one of the old buckets, from `i` on. -/
def moveBucketFrom (oldBucket : Nat) : Nat → ListNode → HashMem → Option HashMem
  | 0, _, _ => none
  | fuel + 1, i, t =>
      if i = tail oldBucket then some t
      else (hashElem i).bind fun e =>
        let newBucket := findBucketAt hash t e
        let next := t.links.next i
        moveBucketFrom oldBucket fuel next
          { t with links := listPushFront (listRemove t.links i) newBucket e }

/-- `list_init` on every list of an array. -/
def initBuckets (m : Links ListNode) (buckets : Nat) : Nat → Links ListNode
  | 0 => m
  | n + 1 =>
      let m := initBuckets m buckets n
      listInit m (head (buckets + n)) (tail (buckets + n))

/-- The old buckets up to the `n`-th. -/
def moveBuckets (bound oldBuckets : Nat) : Nat → HashMem → Option HashMem
  | 0, t => some t
  | n + 1, t => do
      let t ← moveBuckets bound oldBuckets n t
      moveBucketFrom hash (oldBuckets + n) bound (t.links.next (head (oldBuckets + n))) t

/-- `malloc n` is where an array of `n` lists is put, if it is. -/
def rehashAt (bound : Nat) (malloc : Nat → Option Nat) (t : HashMem) : Option HashMem :=
  let n := newBucketCnt t.elemCnt
  if n = t.bucketCnt then some t
  else
    match malloc n with
    | none => some t
    | some buckets =>
        moveBuckets hash bound t.buckets t.bucketCnt
          { t with bucketCnt := n, buckets := buckets, links := initBuckets t.links buckets n }

def hashInsertAt (bound : Nat) (malloc : Nat → Option Nat) (t : HashMem) (new : Nat) :
    Option (Option Nat × HashMem) := do
  let bucket := findBucketAt hash t new
  let old ← findElemAt less bound t bucket new
  let t ← rehashAt hash bound malloc
    (if old = none then insertElemAt t bucket new else t)
  some (old, t)

def hashReplaceAt (bound : Nat) (malloc : Nat → Option Nat) (t : HashMem) (new : Nat) :
    Option (Option Nat × HashMem) := do
  let bucket := findBucketAt hash t new
  let old ← findElemAt less bound t bucket new
  let t := old.elim t fun old => removeElemAt t old
  let t ← rehashAt hash bound malloc (insertElemAt t bucket new)
  some (old, t)

def hashFindAt (bound : Nat) (t : HashMem) (e : Nat) : Option (Option Nat) :=
  findElemAt less bound t (findBucketAt hash t e) e

def hashDeleteAt (bound : Nat) (malloc : Nat → Option Nat) (t : HashMem) (e : Nat) :
    Option (Option Nat × HashMem) := do
  let found ← findElemAt less bound t (findBucketAt hash t e) e
  let t ← found.elim (some t) fun found => rehashAt hash bound malloc (removeElemAt t found)
  some (found, t)

end Source

/-- `while (!list_empty (bucket))`, with what the destructor does to the memory. -/
def destroyBucket (destructor : Links ListNode → Nat → Links ListNode) (bucket : Nat) :
    Nat → Links ListNode → Option (List Nat × Links ListNode)
  | 0, _ => none
  | fuel + 1, m =>
      let front := m.next (head bucket)
      if front = tail bucket then some ([], m)
      else (hashElem front).bind fun e =>
        (destroyBucket destructor bucket fuel (destructor (listRemove m front) e)).map
          fun (es, m) => (e :: es, m)

/-- `hash_clear` on the first `n` buckets, with the elements the destructor gets. -/
def clearBuckets (destructor : Links ListNode → Nat → Links ListNode) (bound buckets : Nat) :
    Nat → Links ListNode → Option (List Nat × Links ListNode)
  | 0, m => some ([], m)
  | n + 1, m => do
      let (es, m) ← clearBuckets destructor bound buckets n m
      let (es', m) ← destroyBucket destructor (buckets + n) bound m
      some (es ++ es', listInit m (head (buckets + n)) (tail (buckets + n)))

def hashClearAt (destructor : Links ListNode → Nat → Links ListNode) (bound : Nat)
    (t : HashMem) : Option (List Nat × HashMem) :=
  (clearBuckets destructor bound t.buckets t.bucketCnt t.links).map
    fun (es, m) => (es, { t with elemCnt := 0, links := m })

/-- `hash_init`, its array put at `buckets`. -/
def hashInitAt (m : Links ListNode) (buckets : Nat) : HashMem :=
  { elemCnt := 0, bucketCnt := 4, buckets := buckets, links := initBuckets m buckets 4 }

/-- One call of a user, with the answers of `malloc` and the destructor of the
table. -/
def hashStepAt (hash : Nat → BitVec 32) (less : Nat → Nat → Bool)
    (destructor : Links ListNode → Nat → Links ListNode) (bound : Nat)
    (malloc : HashMem → Nat → Option Nat) (t : HashMem) :
    HashOp Nat → Option (Option Nat × HashMem)
  | .insert e => hashInsertAt hash less bound (malloc t) t e
  | .replace e => hashReplaceAt hash less bound (malloc t) t e
  | .delete e => hashDeleteAt hash less bound (malloc t) t e
  | .find e => (hashFindAt hash less bound t e).map fun found => (found, t)
  | .clear => (hashClearAt destructor bound t).map fun (_, t) => (none, t)

def hashRunAt (hash : Nat → BitVec 32) (less : Nat → Nat → Bool)
    (destructor : Links ListNode → Nat → Links ListNode) (bound : Nat)
    (malloc : HashMem → Nat → Option Nat) :
    HashMem → List (HashOp Nat) → Option (List (Option Nat) × HashMem)
  | t, [] => some ([], t)
  | t, op :: ops => do
      let (out, t) ← hashStepAt hash less destructor bound malloc t op
      let (outs, t) ← hashRunAt hash less destructor bound malloc t ops
      some (out :: outs, t)

/-! ## The table in memory -/

/-- The lists of an array of `n`. -/
def InArray (buckets n l : Nat) : Prop := buckets ≤ l ∧ l < buckets + n

/-- The chains of `h` are the lists of the array. -/
structure Linked (t : HashMem) (h : HashTable Nat) : Prop where
  elemCnt : t.elemCnt = h.elemCnt
  bucketCnt : t.bucketCnt = h.bucketCnt
  lists : ListsAt t.links (InArray t.buckets t.bucketCnt) fun l => h.buckets (l - t.buckets)

variable {t : HashMem} {h : HashTable Nat}

theorem findBucketAt_eq (hl : t.bucketCnt = h.bucketCnt) (e : Nat) :
    findBucketAt h.hash t e = t.buckets + findBucket h e := by
  rw [findBucketAt, hl, findBucket]

theorem findBucketAt_inArray (hl : t.bucketCnt = h.bucketCnt) (hpow : h.bucketCnt.isPowerOfTwo)
    (e : Nat) : InArray t.buckets t.bucketCnt (findBucketAt h.hash t e) := by
  have hlt := findBucket_lt hpow e
  rw [findBucketAt_eq hl, hl]
  exact ⟨Nat.le_add_right _ _, Nat.add_lt_add_left hlt _⟩

theorem findElemFrom_chain (less : Nat → Nat → Bool) {m : Links ListNode} {a : ListNode}
    {bucket e : Nat} {xs : List Nat} (hc : Chain m a (xs.map elem) (tail bucket)) {fuel : Nat}
    (hfuel : xs.length < fuel) :
    findElemFrom less m bucket e fuel (m.next a) =
      some (xs.find? fun hi => !less hi e && !less e hi) := by
  induction xs generalizing a fuel with
  | nil =>
      cases fuel with
      | zero => cases hfuel
      | succ fuel => rw [hc.1, findElemFrom, if_pos rfl]; rfl
  | cons x xs ih =>
      cases fuel with
      | zero => cases hfuel
      | succ fuel =>
          obtain ⟨h1, -, h3⟩ := hc
          rw [h1, findElemFrom, if_neg (by simp), hashElem, Option.bind_some, List.find?_cons]
          cases hsame : !less x e && !less e x with
          | true => rw [if_pos rfl]
          | false =>
              rw [if_neg (by simp)]
              exact ih h3 (Nat.lt_of_succ_lt_succ hfuel)

/-- No chain is longer than the table. -/
theorem TableOk.bucket_length_le (hok : TableOk h) {i : Nat} (hi : i < h.bucketCnt) :
    (h.buckets i).length ≤ h.elemCnt := by
  have hle : (h.buckets i : Multiset Nat) ≤ h.contents :=
    Finset.single_le_sum (f := fun i => (h.buckets i : Multiset Nat))
      (fun _ _ => Multiset.zero_le _) (Finset.mem_range.mpr hi)
  rw [hok.count]
  exact Multiset.card_le_card hle

theorem Linked.find (hl : Linked t h) (hok : TableOk h) {bound : Nat} (hbound : h.elemCnt < bound)
    (e : Nat) :
    findElemAt h.less bound t (findBucketAt h.hash t e) e =
      some (findElem h (findBucket h e) e) := by
  have hchain := hl.lists.chain (findBucketAt_inArray hl.bucketCnt hok.pow e)
  have hlen := hok.bucket_length_le (findBucket_lt hok.pow e)
  rw [findElemAt, findElemFrom_chain h.less hchain]
  · rw [findBucketAt_eq hl.bucketCnt, Nat.add_sub_cancel_left]
    rfl
  · rw [findBucketAt_eq hl.bucketCnt, Nat.add_sub_cancel_left]
    omega

/-- A list of the array by number, and a chain of the table by index. -/
theorem bucket_update {buckets n l : Nat} (hin : InArray buckets n l) (bs : Nat → List Nat)
    {i : Nat} (xs : List Nat) :
    Function.update bs i xs (l - buckets) =
      Function.update (fun k => bs (k - buckets)) (buckets + i) xs l := by
  have hiff : l - buckets = i ↔ l = buckets + i := by
    have := hin.1
    omega
  simp only [Function.update_apply, hiff]

theorem Linked.insert (hl : Linked t h) (hok : TableOk h) {e : Nat} (he : e ∉ h.contents) :
    Linked (insertElemAt t (findBucketAt h.hash t e) e) (insertElem h (findBucket h e) e) := by
  have hout : ∀ l, InArray t.buckets t.bucketCnt l → e ∉ h.buckets (l - t.buckets) := by
    intro l _ hm
    have hplace := hok.place hm
    exact he (hok.mem.mpr (hplace ▸ hm))
  have hpush := hl.lists.pushFront (findBucketAt_inArray hl.bucketCnt hok.pow e) hout
  refine ⟨congrArg (· + 1) hl.elemCnt, hl.bucketCnt, hpush.congr fun l hin => ?_⟩
  rw [findBucketAt_eq hl.bucketCnt, Nat.add_sub_cancel_left]
  exact bucket_update hin h.buckets _

theorem Linked.remove (hl : Linked t h) (hok : TableOk h) {e : Nat} (he : e ∈ h.contents) :
    Linked (removeElemAt t e) (removeElem h e) := by
  have hmem := hok.mem.mp he
  have hrem := hl.lists.remove (findBucketAt_inArray hl.bucketCnt hok.pow e)
    (by rwa [findBucketAt_eq hl.bucketCnt, Nat.add_sub_cancel_left] : e ∈ _)
  refine ⟨congrArg (· - 1) hl.elemCnt, hl.bucketCnt, hrem.congr fun l hin => ?_⟩
  exact ((hl.lists.nodup hin).erase_eq_filter e).trans
    (List.filter_congr fun x _ => by rw [Bool.eq_iff_iff]; simp)

/-! ## Rehashing -/

theorem initBuckets_lists {m : Links ListNode} {S : Nat → Prop} {bs : Nat → List Nat}
    (hm : ListsAt m S bs) {base n : Nat} (hfree : ∀ l, InArray base n l → ¬ S l) :
    ∃ bs', ListsAt (initBuckets m base n) (fun l => S l ∨ InArray base n l) bs' ∧
      (∀ l, InArray base n l → bs' l = []) ∧ ∀ l, ¬ InArray base n l → bs' l = bs l := by
  induction n with
  | zero =>
      have hnone : ∀ l, ¬ InArray base 0 l := fun l hl => by
        have := hl.1.trans_lt hl.2
        omega
      exact ⟨bs, hm.forget fun l hl => hl.resolve_right (hnone l),
        fun l hl => absurd hl (hnone l), fun _ _ => rfl⟩
  | succ n ih =>
      have hsub : ∀ l, InArray base n l → InArray base (n + 1) l := fun l hl =>
        ⟨hl.1, by have := hl.2; omega⟩
      have hlast : InArray base (n + 1) (base + n) := ⟨by omega, by omega⟩
      have hcases : ∀ l, InArray base (n + 1) l → InArray base n l ∨ l = base + n := by
        rintro l ⟨h1, h2⟩
        by_cases hl : l = base + n
        · exact .inr hl
        · exact .inl ⟨h1, by omega⟩
      obtain ⟨bs', hm', hempty, hsame⟩ := ih fun l hl => hfree l (hsub l hl)
      have hfresh : ¬ (S (base + n) ∨ InArray base n (base + n)) := by
        rintro (hS | hin)
        · exact hfree _ hlast hS
        · exact absurd hin.2 (by omega)
      refine ⟨Function.update bs' (base + n) [], (hm'.init hfresh).forget ?_, ?_, ?_⟩
      · rintro l (hS | hin)
        · exact .inl (.inl hS)
        · exact (hcases l hin).imp_left .inr
      · intro l hin
        rw [Function.update_apply]
        split
        · rfl
        · rename_i hne
          exact hempty l ((hcases l hin).resolve_right hne)
      · intro l hout
        rw [Function.update_of_ne (fun heq => hout (by rw [heq]; exact hlast))]
        exact hsame l fun hin => hout (hsub l hin)

/-- The old bucket goes over to the new ones, element by element. -/
theorem moveBucketFrom_lists {S : Nat → Prop} {bs : Nat → List Nat} {old : Nat}
    {xs : List Nat} {g : HashTable Nat} (hm : ListsAt t.links S bs)
    (hnew : ∀ l, InArray t.buckets t.bucketCnt l → S l) (hcnt : t.bucketCnt = g.bucketCnt)
    (hpow : g.bucketCnt.isPowerOfTwo) (hold : S old) (hout : ¬ InArray t.buckets t.bucketCnt old)
    (hxs : bs old = xs) (hg : ∀ i < g.bucketCnt, bs (t.buckets + i) = g.buckets i)
    {fuel : Nat} (hfuel : xs.length < fuel) :
    ∃ t' bs', moveBucketFrom g.hash old fuel (t.links.next (head old)) t = some t' ∧
      t'.elemCnt = t.elemCnt ∧ t'.bucketCnt = t.bucketCnt ∧ t'.buckets = t.buckets ∧
      ListsAt t'.links S bs' ∧
      (∀ i < g.bucketCnt, bs' (t.buckets + i) = (xs.foldl moveElem g).buckets i) ∧
      ∀ l, l ≠ old → ¬ InArray t.buckets t.bucketCnt l → bs' l = bs l := by
  induction xs generalizing t bs g fuel with
  | nil =>
      have hc := hm.chain hold
      rw [hxs] at hc
      cases fuel with
      | zero => cases hfuel
      | succ fuel =>
          refine ⟨t, bs, ?_, rfl, rfl, rfl, hm, hg, fun _ _ _ => rfl⟩
          rw [moveBucketFrom, if_pos hc.1]
  | cons x xs ih =>
      have hc := hm.chain hold
      rw [hxs] at hc
      obtain ⟨h1, -, h3⟩ := hc
      cases fuel with
      | zero => cases hfuel
      | succ fuel =>
          have hin : InArray t.buckets t.bucketCnt (findBucketAt g.hash t x) :=
            findBucketAt_inArray hcnt hpow x
          have hne : old ≠ findBucketAt g.hash t x := fun heq => hout (by rwa [← heq] at hin)
          have hmove := hm.move hold (hnew _ hin) hne hxs
          have hxs1 : Function.update (Function.update bs old xs) (findBucketAt g.hash t x)
              (x :: bs (findBucketAt g.hash t x)) old = xs := by
            rw [Function.update_of_ne hne, Function.update_self]
          have hg1 : ∀ i < g.bucketCnt,
              Function.update (Function.update bs old xs) (findBucketAt g.hash t x)
                (x :: bs (findBucketAt g.hash t x)) (t.buckets + i) = (moveElem g x).buckets i := by
            intro i hi
            have hini : InArray t.buckets t.bucketCnt (t.buckets + i) := ⟨by omega, by omega⟩
            have hiold : t.buckets + i ≠ old := fun heq => hout (by rwa [heq] at hini)
            have hlt := findBucket_lt hpow x
            rw [findBucketAt_eq hcnt, Function.update_apply, Function.update_of_ne hiold, moveElem,
              hg _ hlt, hg i hi]
            simp only [Function.update_apply, Nat.add_left_cancel_iff]
          -- the next element is read before the links of this one change
          have hnext : t.links.next (elem x) = (listPushFront (listRemove t.links (elem x))
              (findBucketAt g.hash t x) x).next (head old) := by
            have hc1 := hmove.chain hold
            rw [hxs1] at hc1
            exact h3.next_headD.trans hc1.next_headD.symm
          let t1 : HashMem :=
            { t with
              links := listPushFront (listRemove t.links (elem x)) (findBucketAt g.hash t x) x }
          obtain ⟨t', bs', hrun, hec, hbc, hb, hm', hg', hrest⟩ :=
            ih (t := t1) (g := moveElem g x) hmove hnew hcnt hpow hout hxs1 hg1
              (Nat.lt_of_succ_lt_succ hfuel)
          refine ⟨t', bs', ?_, hec, hbc, hb, hm', hg', ?_⟩
          · rw [h1, moveBucketFrom, if_neg (by simp), hashElem, Option.bind_some, hnext]
            exact hrun
          · intro l hl hlout
            have hlb : l ≠ findBucketAt g.hash t x := fun heq => hlout (by rwa [heq])
            rw [hrest l hl hlout, Function.update_of_ne hlb, Function.update_of_ne hl]

/-- The old buckets up to the `n`-th, in a table whose new array has been filled
with nothing yet. -/
theorem moveBuckets_lists {S : Nat → Prop} {bs : Nat → List Nat} {oldBuckets n : Nat}
    {g : HashTable Nat} (hm : ListsAt t.links S bs)
    (hnew : ∀ l, InArray t.buckets t.bucketCnt l → S l) (hcnt : t.bucketCnt = g.bucketCnt)
    (hpow : g.bucketCnt.isPowerOfTwo) (hold : ∀ l, InArray oldBuckets n l → S l)
    (hapart : ∀ l, InArray oldBuckets n l → ¬ InArray t.buckets t.bucketCnt l)
    (hg : ∀ i < g.bucketCnt, bs (t.buckets + i) = g.buckets i) {bound : Nat}
    (hbound : ∀ i < n, (bs (oldBuckets + i)).length < bound) :
    ∃ t' bs', moveBuckets g.hash bound oldBuckets n t = some t' ∧
      t'.elemCnt = t.elemCnt ∧ t'.bucketCnt = t.bucketCnt ∧ t'.buckets = t.buckets ∧
      ListsAt t'.links S bs' ∧
      (∀ i < g.bucketCnt, bs' (t.buckets + i) =
        ((List.range n).foldl (fun new i => (bs (oldBuckets + i)).foldl moveElem new) g).buckets i) ∧
      ∀ l, ¬ InArray oldBuckets n l → ¬ InArray t.buckets t.bucketCnt l → bs' l = bs l := by
  induction n with
  | zero =>
      exact ⟨t, bs, rfl, rfl, rfl, rfl, hm, hg, fun _ _ _ => rfl⟩
  | succ n ih =>
      have hsub : ∀ l, InArray oldBuckets n l → InArray oldBuckets (n + 1) l := fun l hl =>
        ⟨hl.1, by have := hl.2; omega⟩
      have hlast : InArray oldBuckets (n + 1) (oldBuckets + n) := ⟨by omega, by omega⟩
      have hnot : ¬ InArray oldBuckets n (oldBuckets + n) := fun hin => absurd hin.2 (by omega)
      obtain ⟨t1, bs1, hrun1, hec1, hbc1, hb1, hm1, hg1, hrest1⟩ :=
        ih (fun l hl => hold l (hsub l hl)) (fun l hl => hapart l (hsub l hl))
          fun i hi => hbound i (by omega)
      have hxs1 : bs1 (oldBuckets + n) = bs (oldBuckets + n) :=
        hrest1 _ hnot (hapart _ hlast)
      have hin1 : ∀ l, InArray t1.buckets t1.bucketCnt l ↔ InArray t.buckets t.bucketCnt l := by
        rw [hb1, hbc1]
        exact fun _ => .rfl
      obtain ⟨hcnt1, ⟨-, hhash1, -⟩⟩ := moveChains_same g (fun i => bs (oldBuckets + i)) n
      obtain ⟨t2, bs2, hrun2, hec2, hbc2, hb2, hm2, hg2, hrest2⟩ :=
        moveBucketFrom_lists hm1 (fun l hl => hnew l ((hin1 l).mp hl))
          (hbc1.trans (hcnt.trans hcnt1.symm)) (by rwa [hcnt1]) (hold _ hlast)
          (fun hin => hapart _ hlast ((hin1 _).mp hin)) hxs1
          (fun i hi => by rw [hb1]; exact hg1 i (by rwa [hcnt1] at hi))
          (hbound n (Nat.lt_succ_self n))
      rw [hhash1] at hrun2
      rw [hcnt1, hb1] at hg2
      refine ⟨t2, bs2, ?_, hec2.trans hec1, hbc2.trans hbc1, hb2.trans hb1, hm2, ?_, ?_⟩
      · rw [moveBuckets, hrun1]
        exact hrun2
      · rw [List.range_succ, List.foldl_append]
        exact hg2
      · intro l hl hlout
        have hlast' : l ≠ oldBuckets + n := fun heq => hl (by rwa [heq])
        rw [hrest2 l hlast' fun hin => hlout ((hin1 l).mp hin)]
        exact hrest1 l (fun hin => hl (hsub l hin)) hlout

theorem rehashAt_same {bound : Nat} {malloc : Nat → Option Nat} {hash : Nat → BitVec 32}
    (hn : newBucketCnt t.elemCnt = t.bucketCnt) : rehashAt hash bound malloc t = some t :=
  if_pos hn

theorem rehashAt_none {bound : Nat} {malloc : Nat → Option Nat} {hash : Nat → BitVec 32}
    (hm : malloc (newBucketCnt t.elemCnt) = none) : rehashAt hash bound malloc t = some t := by
  simp [rehashAt, hm]

theorem rehashAt_some {bound b : Nat} {malloc : Nat → Option Nat} {hash : Nat → BitVec 32}
    (hn : newBucketCnt t.elemCnt ≠ t.bucketCnt)
    (hm : malloc (newBucketCnt t.elemCnt) = some b) :
    rehashAt hash bound malloc t =
      moveBuckets hash bound t.buckets t.bucketCnt
        { t with
          bucketCnt := newBucketCnt t.elemCnt
          buckets := b
          links := initBuckets t.links b (newBucketCnt t.elemCnt) } := by
  simp [rehashAt, hn, hm]

theorem rehash_some (hn : newBucketCnt h.elemCnt ≠ h.bucketCnt) :
    rehash true h =
      (List.range h.bucketCnt).foldl (fun new i => (h.buckets i).foldl moveElem new)
        { h with bucketCnt := newBucketCnt h.elemCnt, buckets := fun _ => [] } := by
  simp [rehash, hn]

/-- A new array is put where the one in use is not. -/
def MallocOk (malloc : Nat → Option Nat) (t : HashMem) : Prop :=
  ∀ n b, malloc n = some b → ∀ l, InArray b n l → ¬ InArray t.buckets t.bucketCnt l

/-- **Rehashing on the pointers** does what it does on the chains. -/
theorem Linked.rehash (hl : Linked t h) (hok : TableOk h) {bound : Nat}
    (hbound : h.elemCnt < bound) {malloc : Nat → Option Nat} (hmalloc : MallocOk malloc t) :
    ∃ t' ok, rehashAt h.hash bound malloc t = some t' ∧ Linked t' (rehash ok h) := by
  by_cases hn : newBucketCnt h.elemCnt = h.bucketCnt
  · exact ⟨t, false, rehashAt_same (by rw [hl.elemCnt, hl.bucketCnt, hn]),
      (Lib.rehash_none h).symm ▸ hl⟩
  have hnt : newBucketCnt t.elemCnt ≠ t.bucketCnt := by rwa [hl.elemCnt, hl.bucketCnt]
  have ht0 : newBucketCnt t.elemCnt = newBucketCnt h.elemCnt := by rw [hl.elemCnt]
  cases hb0 : malloc (newBucketCnt t.elemCnt) with
  | none => exact ⟨t, false, rehashAt_none hb0, (Lib.rehash_none h).symm ▸ hl⟩
  | some b =>
      have hfree := hmalloc _ b hb0
      rw [ht0] at hfree
      obtain ⟨bs, hm, hempty, hsame⟩ := initBuckets_lists hl.lists hfree
      have hold : ∀ i < t.bucketCnt, bs (t.buckets + i) = h.buckets i := by
        intro i hi
        have hin : InArray t.buckets t.bucketCnt (t.buckets + i) := ⟨by omega, by omega⟩
        rw [hsame _ fun hnew => hfree _ hnew hin, Nat.add_sub_cancel_left]
      have hlen : ∀ i < t.bucketCnt, (bs (t.buckets + i)).length < bound := by
        intro i hi
        rw [hold i hi]
        exact lt_of_le_of_lt (hok.bucket_length_le (hl.bucketCnt ▸ hi)) hbound
      let t0 : HashMem :=
        { t with
          bucketCnt := newBucketCnt h.elemCnt
          buckets := b
          links := initBuckets t.links b (newBucketCnt h.elemCnt) }
      let g0 : HashTable Nat :=
        { h with bucketCnt := newBucketCnt h.elemCnt, buckets := fun _ => [] }
      have hapart : ∀ l, InArray t.buckets t.bucketCnt l → ¬ InArray t0.buckets t0.bucketCnt l :=
        fun l hin hnew => hfree l hnew hin
      obtain ⟨t', bs', hrun, hec, hbc, hb, hm', hg, -⟩ :=
        moveBuckets_lists (t := t0) (g := g0) hm (fun l hl => .inr hl) rfl
          (newBucketCnt_isPowerOfTwo _) (fun l hl => .inl hl) hapart
          (fun i hi => hempty _ ⟨by simp [t0], by simpa [t0] using hi⟩) hlen
      have hfold : (List.range t.bucketCnt).foldl
            (fun new i => (bs (t.buckets + i)).foldl moveElem new) g0 =
          Lib.rehash true h := by
        rw [Lib.rehash_some hn, hl.bucketCnt]
        apply List.foldl_ext
        intro new i hi
        rw [hold i (hl.bucketCnt ▸ List.mem_range.mp hi)]
      obtain ⟨-, -, hs⟩ := rehash_placed true hok.toPlaced
      have hcnt : (Lib.rehash true h).bucketCnt = newBucketCnt h.elemCnt := by
        rw [← hfold]
        exact (moveChains_same g0 _ _).1
      rw [hfold] at hg
      refine ⟨t', true, ?_, hec.trans (hl.elemCnt.trans hs.elemCnt.symm), hbc.trans hcnt.symm, ?_⟩
      · rw [rehashAt_some hnt hb0, ht0]
        exact hrun
      · rw [hbc, hb]
        refine (hm'.forget fun l hin => .inr hin).congr fun l hin => ?_
        have hlt : l - t0.buckets < g0.bucketCnt := by
          have h1 := hin.1
          have h2 := hin.2
          simp only [t0, g0] at h1 h2 ⊢
          omega
        rw [← hg _ hlt, Nat.add_sub_cancel' hin.1]

/-! ## The operations -/

theorem Linked.hashInsert (hl : Linked t h) (hok : TableOk h) {bound : Nat}
    (hbound : h.elemCnt + 1 < bound) {malloc : Nat → Option Nat} (hmalloc : MallocOk malloc t)
    (e : Nat) :
    ∃ t' ok, hashInsertAt h.hash h.less bound malloc t e = some ((hashInsert ok h e).1, t') ∧
      Linked t' (hashInsert ok h e).2 := by
  have hfind := hl.find hok (Nat.lt_of_succ_lt hbound) e
  cases hf : hashFind h e with
  | none =>
      have hins := hl.insert hok (hok.not_mem_of_find_none hf)
      have hokins := hok.insertElem hf
      obtain ⟨t', ok, hre, hl'⟩ := hins.rehash hokins hbound hmalloc
      replace hre : rehashAt h.hash bound malloc
        (insertElemAt t (findBucketAt h.hash t e) e) = some t' := hre
      rw [hashFind] at hf
      refine ⟨t', ok, ?_, ?_⟩
      · simp only [hashInsertAt, Option.bind_eq_bind, hfind, hf, Option.bind_some, if_true, hre,
          Lib.hashInsert]
      · simp only [Lib.hashInsert, hf]
        exact hl'
  | some x =>
      obtain ⟨t', ok, hre, hl'⟩ := hl.rehash hok (Nat.lt_of_succ_lt hbound) hmalloc
      rw [hashFind] at hf
      refine ⟨t', ok, ?_, ?_⟩
      · simp only [hashInsertAt, Option.bind_eq_bind, hfind, hf, Option.bind_some,
          Lib.hashInsert, reduceCtorEq, if_false, hre]
      · simp only [Lib.hashInsert, hf]
        exact hl'

theorem Linked.hashFind (hl : Linked t h) (hok : TableOk h) {bound : Nat}
    (hbound : h.elemCnt < bound) (e : Nat) :
    hashFindAt h.hash h.less bound t e = some (hashFind h e) :=
  hl.find hok hbound e

theorem Linked.hashDelete (hl : Linked t h) (hok : TableOk h) {bound : Nat}
    (hbound : h.elemCnt < bound) {malloc : Nat → Option Nat} (hmalloc : MallocOk malloc t)
    (e : Nat) :
    ∃ t' ok, hashDeleteAt h.hash h.less bound malloc t e = some ((hashDelete ok h e).1, t') ∧
      Linked t' (hashDelete ok h e).2 := by
  have hfind := hl.find hok hbound e
  cases hf : Lib.hashFind h e with
  | none =>
      refine ⟨t, false, ?_, ?_⟩
      · rw [hashDelete_none false hf]
        rw [Lib.hashFind] at hf
        simp [hashDeleteAt, hfind, hf]
      · rw [hashDelete_none false hf]
        exact hl
  | some x =>
      obtain ⟨hx, -⟩ := hok.find_some hf
      have hrem := hl.remove hok hx
      obtain ⟨hokrem, -⟩ := hok.remove hx
      have hle : (removeElem h x).elemCnt < bound := lt_of_le_of_lt (Nat.sub_le _ _) hbound
      obtain ⟨t', ok, hre, hl'⟩ := hrem.rehash hokrem hle hmalloc
      replace hre : rehashAt h.hash bound malloc (removeElemAt t x) = some t' := hre
      obtain ⟨heq, -⟩ := hok.delete_some ok hf
      rw [Lib.hashFind] at hf
      refine ⟨t', ok, ?_, ?_⟩
      · rw [heq]
        simp [hashDeleteAt, hfind, hf, hre]
      · rw [heq]
        exact hl'

theorem Linked.hashReplace (hl : Linked t h) (hok : TableOk h) {bound : Nat}
    (hbound : h.elemCnt + 1 < bound) {malloc : Nat → Option Nat} (hmalloc : MallocOk malloc t)
    {e : Nat} (hnone : ∀ x, Lib.hashFind h e = some x → Lib.hashFind (removeElem h x) e = none) :
    ∃ t' ok, hashReplaceAt h.hash h.less bound malloc t e = some ((hashReplace ok h e).1, t') ∧
      Linked t' (hashReplace ok h e).2 := by
  have hfind := hl.find hok (Nat.lt_of_succ_lt hbound) e
  cases hf : Lib.hashFind h e with
  | none =>
      have hins := hl.insert hok (hok.not_mem_of_find_none hf)
      obtain ⟨t', ok, hre, hl'⟩ := hins.rehash (hok.insertElem hf) hbound hmalloc
      replace hre : rehashAt h.hash bound malloc
        (insertElemAt t (findBucketAt h.hash t e) e) = some t' := hre
      rw [Lib.hashFind] at hf
      refine ⟨t', ok, ?_, ?_⟩
      · simp [hashReplaceAt, hfind, hf, hre, Lib.hashReplace]
      · simp only [Lib.hashReplace, hf]
        exact hl'
  | some x =>
      obtain ⟨hx, -⟩ := hok.find_some hf
      have hrem := hl.remove hok hx
      obtain ⟨hokrem, -⟩ := hok.remove hx
      have hnone' := hnone x hf
      have hins := hrem.insert hokrem (hokrem.not_mem_of_find_none hnone')
      have hle : (removeElem h x).elemCnt ≤ h.elemCnt := Nat.sub_le _ _
      have hle' : (insertElem (removeElem h x) (findBucket (removeElem h x) e) e).elemCnt < bound :=
        lt_of_le_of_lt (Nat.succ_le_succ hle) hbound
      obtain ⟨t', ok, hre, hl'⟩ := hins.rehash (hokrem.insertElem hnone') hle' hmalloc
      replace hre : rehashAt h.hash bound malloc
        (insertElemAt (removeElemAt t x) (findBucketAt h.hash t e) e) = some t' := hre
      rw [Lib.hashFind] at hf
      refine ⟨t', ok, ?_, ?_⟩
      · simp [hashReplaceAt, hfind, hf, hre, Lib.hashReplace]
      · simp only [Lib.hashReplace, hf]
        exact hl'

/-! ## Clearing -/

/-- A destructor writes the links of its element at most: the element is not in
a list any more when it is called. -/
def DestructorOk (destructor : Links ListNode → Nat → Links ListNode) : Prop :=
  ∀ m e n, n ≠ elem e →
    (destructor m e).next n = m.next n ∧ (destructor m e).prev n = m.prev n

theorem ListsAt.destroy {m : Links ListNode} {S : Nat → Prop} {bs : Nat → List Nat}
    (hm : ListsAt m S bs) {destructor : Links ListNode → Nat → Links ListNode}
    (hd : DestructorOk destructor) {e : Nat} (he : ∀ l, S l → e ∉ bs l) :
    ListsAt (destructor m e) S bs := by
  refine ⟨fun {l} hl => ?_, hm.nodup, hm.apart⟩
  have hne : ∀ n, n = head l ∨ n = tail l ∨ n ∈ (bs l).map elem → n ≠ elem e := by
    rintro n (rfl | rfl | hn) heq
    · cases heq
    · cases heq
    · rw [heq, elem_mem_map] at hn
      exact he l hl hn
  apply Chain.congr (hm.chain hl)
  · exact fun n hn => (hd m e n (hne n (hn.imp_right .inr))).1
  · exact fun n hn => (hd m e n (hne n (.inr hn))).2

/-- The destructor gets the elements of a bucket, front first. -/
theorem destroyBucket_lists {m : Links ListNode} {S : Nat → Prop} {bs : Nat → List Nat}
    (hm : ListsAt m S bs) {destructor : Links ListNode → Nat → Links ListNode}
    (hd : DestructorOk destructor) {l : Nat} (hl : S l) {xs : List Nat} (hxs : bs l = xs)
    {fuel : Nat} (hfuel : xs.length < fuel) :
    ∃ m', destroyBucket destructor l fuel m = some (xs, m') ∧
      ListsAt m' S (Function.update bs l []) := by
  induction xs generalizing m bs fuel with
  | nil =>
      have hc := hm.chain hl
      rw [hxs] at hc
      cases fuel with
      | zero => cases hfuel
      | succ fuel =>
          refine ⟨m, ?_, ?_⟩
          · rw [destroyBucket, if_pos hc.1]
          · rwa [← hxs, Function.update_eq_self]
  | cons x xs ih =>
      have hc := hm.chain hl
      rw [hxs] at hc
      have hmem : x ∈ bs l := by simp [hxs]
      have hnodup := List.nodup_cons.mp (hxs ▸ hm.nodup hl)
      have hrem := (hm.remove hl hmem).destroy hd (e := x) (by simp)
      cases fuel with
      | zero => cases hfuel
      | succ fuel =>
          obtain ⟨m', hrun, hm'⟩ := ih hrem
            (by rw [hxs, List.filter_cons_of_neg (by simp), filter_ne_of_not_mem hnodup.1])
            (Nat.lt_of_succ_lt_succ hfuel)
          refine ⟨m', ?_, hm'.congr fun k hk => ?_⟩
          · have hfront : m.next (head l) = elem x := hc.1
            simp [destroyBucket, hfront, hashElem, hrun]
          · simp only [Function.update_apply]
            split
            · rfl
            · rename_i hkl
              exact (filter_ne_of_not_mem (hm.apart hl hk (Ne.symm hkl) x hmem)).symm

theorem clearBuckets_lists {m : Links ListNode} {S : Nat → Prop} {bs : Nat → List Nat}
    (hm : ListsAt m S bs) {destructor : Links ListNode → Nat → Links ListNode}
    (hd : DestructorOk destructor) {base n : Nat} (hS : ∀ l, InArray base n l → S l) {bound : Nat}
    (hbound : ∀ i < n, (bs (base + i)).length < bound) :
    ∃ m' bs', clearBuckets destructor bound base n m =
        some ((List.range n).flatMap fun i => bs (base + i), m') ∧
      ListsAt m' S bs' ∧ (∀ l, InArray base n l → bs' l = []) ∧
      ∀ l, ¬ InArray base n l → bs' l = bs l := by
  induction n with
  | zero =>
      exact ⟨m, bs, rfl, hm, fun l hl => absurd (hl.1.trans_lt hl.2) (by omega), fun _ _ => rfl⟩
  | succ n ih =>
      have hsub : ∀ l, InArray base n l → InArray base (n + 1) l := fun l hl =>
        ⟨hl.1, by have := hl.2; omega⟩
      have hlast : InArray base (n + 1) (base + n) := ⟨by omega, by omega⟩
      have hnot : ¬ InArray base n (base + n) := fun hin => absurd hin.2 (by omega)
      obtain ⟨m1, bs1, hrun1, hm1, hempty1, hrest1⟩ :=
        ih (fun l hl => hS l (hsub l hl)) fun i hi => hbound i (by omega)
      have hxs : bs1 (base + n) = bs (base + n) := hrest1 _ hnot
      obtain ⟨m2, hrun2, hm2⟩ := destroyBucket_lists hm1 hd (hS _ hlast) hxs
        (hbound n (Nat.lt_succ_self n))
      refine ⟨_, _, ?_, hm2.reinit (l := base + n), ?_, ?_⟩
      · simp [clearBuckets, hrun1, hrun2, List.range_succ]
      · intro l hin
        simp only [Function.update_apply]
        split
        · rfl
        · rename_i hl
          exact hempty1 l ⟨hin.1, by have := hin.2; omega⟩
      · intro l hl
        have hne : l ≠ base + n := fun heq => hl (by rwa [heq])
        rw [Function.update_of_ne hne, Function.update_of_ne hne]
        exact hrest1 l fun hin => hl (hsub l hin)

/-- **Clearing on the pointers.** The destructor gets every element once, in the
order of the chains, and the lists are empty. -/
theorem Linked.hashClear (hl : Linked t h) (hok : TableOk h)
    {destructor : Links ListNode → Nat → Links ListNode} (hd : DestructorOk destructor)
    {bound : Nat} (hbound : h.elemCnt < bound) :
    ∃ t', hashClearAt destructor bound t = some ((hashClear h).1, t') ∧
      Linked t' (hashClear h).2 := by
  have hlen : ∀ i < t.bucketCnt, (h.buckets (t.buckets + i - t.buckets)).length < bound := by
    intro i hi
    rw [Nat.add_sub_cancel_left]
    exact lt_of_le_of_lt (hok.bucket_length_le (hl.bucketCnt ▸ hi)) hbound
  obtain ⟨m', bs', hrun, hm', hempty, -⟩ := clearBuckets_lists hl.lists hd (fun l hl => hl) hlen
  refine ⟨{ t with elemCnt := 0, links := m' }, ?_, rfl, hl.bucketCnt, hm'.congr fun l hin => ?_⟩
  · have hrun' : clearBuckets destructor bound t.buckets t.bucketCnt t.links =
        some ((Lib.hashClear h).1, m') := by
      rw [hrun]
      simp [Lib.hashClear, hl.bucketCnt]
    rw [hashClearAt, hrun']
    rfl
  · have hlt : l - t.buckets < h.bucketCnt := by
      obtain ⟨h1, h2⟩ : t.buckets ≤ l ∧ l < t.buckets + t.bucketCnt := hin
      have h3 := hl.bucketCnt
      omega
    rw [hempty l hin]
    exact if_pos hlt

/-! ## Runs on the pointers -/

theorem hashInitAt_linked (m : Links ListNode) (buckets : Nat) (hash : Nat → BitVec 32)
    (less : Nat → Nat → Bool) : Linked (hashInitAt m buckets) (hashInit hash less) := by
  have hnone : ListsAt m (fun _ => False) fun _ => [] := ⟨False.elim, False.elim, False.elim⟩
  obtain ⟨bs, hm, hempty, -⟩ := initBuckets_lists hnone (fun _ _ => id : ∀ l, InArray buckets 4 l → ¬ False)
  exact ⟨rfl, rfl, (hm.forget fun l hl => .inr hl).congr fun l hl => (hempty l hl).symm⟩

/-- One call on the pointers is the call on the chains, with rehashing ended as
the answer of `malloc` has it. -/
theorem Linked.step {K : Type} [DecidableEq K] {key : Nat → K} {f : K → Option Nat} (hl : Linked t h)
    (hr : Represents h key f) {destructor : Links ListNode → Nat → Links ListNode}
    (hd : DestructorOk destructor) {malloc : HashMem → Nat → Option Nat}
    (hmalloc : ∀ t, MallocOk (malloc t) t) {bound : Nat} (hbound : h.elemCnt + 1 < bound)
    (op : HashOp Nat) :
    ∃ t' ok, hashStepAt h.hash h.less destructor bound malloc t op =
        some ((hashStep h ok op).1, t') ∧
      Linked t' (hashStep h ok op).2 := by
  cases op with
  | insert e => exact hl.hashInsert hr.tableOk hbound (hmalloc t) e
  | replace e =>
      refine hl.hashReplace hr.tableOk hbound (hmalloc t) fun x hx => ?_
      obtain ⟨hmem, hkey⟩ := (hr.mem (key e) x).mp ((hr.find e).symm.trans hx)
      have hrem := (hr.remove hmem).find e
      rwa [hkey, Function.update_self] at hrem
  | delete e => exact hl.hashDelete hr.tableOk (Nat.lt_of_succ_lt hbound) (hmalloc t) e
  | find e =>
      refine ⟨t, false, ?_, hl⟩
      rw [hashStepAt, hl.hashFind hr.tableOk (Nat.lt_of_succ_lt hbound)]
      rfl
  | clear =>
      obtain ⟨t', hrun, hl'⟩ := hl.hashClear hr.tableOk hd (Nat.lt_of_succ_lt hbound)
      refine ⟨t', false, ?_, hl'⟩
      rw [hashStepAt, hrun]
      rfl

/-- A run of calls on the pointers is a run on the chains. -/
theorem Linked.run {K : Type} [DecidableEq K] {key : Nat → K} {f : K → Option Nat}
    (hl : Linked t h) (hr : Represents h key f)
    {destructor : Links ListNode → Nat → Links ListNode} (hd : DestructorOk destructor)
    {malloc : HashMem → Nat → Option Nat} (hmalloc : ∀ t, MallocOk (malloc t) t) {bound : Nat}
    {ops : List (HashOp Nat)} (hbound : h.elemCnt + ops.length < bound) :
    ∃ t' calls, hashRunAt h.hash h.less destructor bound malloc t ops =
        some ((hashRun h calls).1, t') ∧
      calls.map Prod.fst = ops ∧ Linked t' (hashRun h calls).2 := by
  induction ops generalizing t h f with
  | nil => exact ⟨t, [], rfl, rfl, hl⟩
  | cons op ops ih =>
      rw [List.length_cons] at hbound
      have hbound0 : h.elemCnt + 1 < bound := by omega
      obtain ⟨t1, ok, hstep, hl1⟩ := hl.step hr hd hmalloc hbound0 op
      obtain ⟨-, hr1⟩ := hr.step ok op
      obtain ⟨hhash, hless, hcnt⟩ := hashStep_same h ok op
      have hbound1 : (hashStep h ok op).2.elemCnt + ops.length < bound := by omega
      obtain ⟨t2, calls, hrun, hops, hl2⟩ := ih hl1 hr1 hbound1
      rw [hhash, hless] at hrun
      refine ⟨t2, (op, ok) :: calls, ?_, by rw [List.map_cons, hops], hl2⟩
      rw [hashRunAt, hstep]
      simp [hrun, hashRun]

end Levos.Lib
