import Levos.Lib.HashTable

/-!
# Hash tables as finite maps (`lib/hash.c`)

`hash_replace` and `hash_clear`, and what a table is for: under keys that hash
and comparison follow, any run of calls answers as a partial function from keys
to elements does, whatever rehashing does and however its allocations end.
-/

namespace Levos.Lib

variable {E K : Type}

/-! ## The functions of the source -/

/-- The element goes in, and an equal one that is in the table goes out first. -/
def hashReplace [DecidableEq E] (ok : Bool) (h : HashTable E) (new : E) :
    Option E × HashTable E :=
  let bucket := findBucket h new
  match findElem h bucket new with
  | some old => (some old, rehash ok (insertElem (removeElem h old) bucket new))
  | none => (none, rehash ok (insertElem h bucket new))

/-- The elements in the order the destructor gets them, and the table behind it. -/
def hashClear (h : HashTable E) : List E × HashTable E :=
  ((List.range h.bucketCnt).flatMap h.buckets,
    { h with elemCnt := 0, buckets := fun i => if i < h.bucketCnt then [] else h.buckets i })

def hashSize (h : HashTable E) : Nat := h.elemCnt

def hashEmpty (h : HashTable E) : Bool := h.elemCnt = 0

/-! ## One operation -/

theorem rehash_none (h : HashTable E) : rehash false h = h := by
  simp [rehash]

theorem moveElems_same (g : HashTable E) (xs : List E) :
    (xs.foldl moveElem g).bucketCnt = g.bucketCnt ∧ SameUse g (xs.foldl moveElem g) := by
  induction xs generalizing g with
  | nil => exact ⟨rfl, .refl g⟩
  | cons x xs ih =>
      obtain ⟨hcnt, hs⟩ := ih (moveElem g x)
      exact ⟨hcnt, hs.elemCnt, hs.hash, hs.less⟩

theorem moveChains_same (g : HashTable E) (chains : Nat → List E) (n : Nat) :
    let g' := (List.range n).foldl (fun new i => (chains i).foldl moveElem new) g
    g'.bucketCnt = g.bucketCnt ∧ SameUse g g' := by
  induction n with
  | zero => exact ⟨rfl, .refl g⟩
  | succ n ih =>
      rw [List.range_succ, List.foldl_append]
      obtain ⟨hcnt, hs⟩ := moveElems_same
        ((List.range n).foldl (fun new i => (chains i).foldl moveElem new) g) (chains n)
      obtain ⟨hcnt', hs'⟩ := ih
      exact ⟨hcnt.trans hcnt', hs.elemCnt.trans hs'.elemCnt, hs.hash.trans hs'.hash,
        hs.less.trans hs'.less⟩

theorem rehash_same (ok : Bool) (h : HashTable E) : SameUse h (rehash ok h) := by
  rw [rehash]
  split
  · exact .refl h
  · split
    · exact .refl h
    · obtain ⟨-, hs⟩ := moveChains_same
        { h with bucketCnt := newBucketCnt h.elemCnt, buckets := fun _ => [] } h.buckets h.bucketCnt
      exact ⟨hs.elemCnt, hs.hash, hs.less⟩

/-- What is not found is not in the table. -/
theorem TableOk.not_mem_of_find_none {h : HashTable E} (hok : TableOk h) {e : E}
    (hf : hashFind h e = none) : e ∉ h.contents := fun hmem => by
  have hself := hok.find_none.mp hf e hmem rfl
  rw [hok.same_self] at hself
  cases hself

/-- The table before the rehashing of `hash_insert`. -/
theorem TableOk.insertElem {h : HashTable E} (hok : TableOk h) {e : E}
    (hf : hashFind h e = none) : TableOk (insertElem h (findBucket h e) e) := by
  obtain ⟨heq, hok', -⟩ := hok.insert_none false hf
  rwa [heq, rehash_none] at hok'

/-- The chains hold the map `f`. -/
structure Represents (h : HashTable E) (key : E → K) (f : K → Option E) : Prop extends
    TableOk h, KeyedBy h key where
  mem : ∀ k e, f k = some e ↔ e ∈ h.contents ∧ key e = k

variable {key : E → K} {h : HashTable E} {f : K → Option E}

theorem Represents.tableOk (hr : Represents h key f) : TableOk h := hr.toTableOk

theorem Represents.keyedBy (hr : Represents h key f) : KeyedBy h key := hr.toKeyedBy

/-- A search answers with what the map has for the key. -/
theorem Represents.find (hr : Represents h key f) (e : E) : hashFind h e = f (key e) := by
  cases hfind : hashFind h e with
  | some x =>
      obtain ⟨hx, hkey⟩ := hr.tableOk.find_key hr.keyedBy hfind
      exact ((hr.mem (key e) x).mpr ⟨hx, hkey⟩).symm
  | none =>
      have hall := (hr.tableOk.find_none_key hr.keyedBy).mp hfind
      cases hf : f (key e) with
      | none => rfl
      | some x =>
          obtain ⟨hx, hkey⟩ := (hr.mem (key e) x).mp hf
          exact absurd hkey (hall x hx)

theorem hashInit_represents (hash : E → BitVec 32) (less : E → E → Bool)
    (hirr : ∀ e, less e e = false) (hk : KeyedBy (hashInit hash less) key) :
    Represents (hashInit hash less) key fun _ => none := by
  obtain ⟨hok, hc⟩ := hashInit_ok hash less hirr
  refine { toTableOk := hok, toKeyedBy := hk, mem := fun k e => ?_ }
  simp [hc]

theorem Represents.rehash (hr : Represents h key f) (ok : Bool) :
    Represents (rehash ok h) key f := by
  obtain ⟨hok, hc⟩ := hr.tableOk.rehash ok
  obtain ⟨-, -, hs⟩ := rehash_placed ok hr.toPlaced
  exact { toTableOk := hok, toKeyedBy := hr.keyedBy.congr hs.hash hs.less,
          mem := fun k e => by rw [hc]; exact hr.mem k e }

/-- An element whose key the table has stays out. -/
theorem Represents.insert_old (hr : Represents h key f) (ok : Bool) {e x : E}
    (hx : f (key e) = some x) :
    (hashInsert ok h e).1 = some x ∧ Represents (hashInsert ok h e).2 key f := by
  obtain ⟨heq, -⟩ := hr.tableOk.insert_some ok ((hr.find e).trans hx)
  rw [heq]
  exact ⟨rfl, hr.rehash ok⟩

section Updates

variable [DecidableEq K]

/-- An element with a new key goes in. -/
theorem Represents.insert_new (hr : Represents h key f) (ok : Bool) {e : E}
    (hnone : f (key e) = none) :
    (hashInsert ok h e).1 = none ∧
      Represents (hashInsert ok h e).2 key (Function.update f (key e) (some e)) := by
  obtain ⟨heq, hok, hc⟩ := hr.tableOk.insert_none ok ((hr.find e).trans hnone)
  have hkeyed := hr.tableOk.insert_keyed hr.keyedBy ok e
  refine ⟨congrArg Prod.fst heq,
    { toTableOk := hok, toKeyedBy := hkeyed, mem := fun k x => ?_ }⟩
  rw [hc, Multiset.mem_cons, Function.update_apply]
  split
  · rename_i hk
    subst hk
    constructor
    · intro hx
      obtain rfl := Option.some.inj hx
      exact ⟨.inl rfl, rfl⟩
    · rintro ⟨rfl | hmem, hkey⟩
      · rfl
      · rw [(hr.mem (key e) x).mpr ⟨hmem, hkey⟩] at hnone
        cases hnone
  · rename_i hk
    rw [hr.mem]
    constructor
    · rintro ⟨hmem, rfl⟩
      exact ⟨.inr hmem, rfl⟩
    · rintro ⟨rfl | hmem, hkey⟩
      · exact absurd hkey.symm hk
      · exact ⟨hmem, hkey⟩

variable [DecidableEq E]

/-- One element is unlinked. -/
theorem Represents.remove (hr : Represents h key f) {x : E} (hx : x ∈ h.contents) :
    Represents (removeElem h x) key (Function.update f (key x) none) := by
  obtain ⟨hok, hc⟩ := hr.tableOk.remove hx
  refine { toTableOk := hok, toKeyedBy := hr.keyedBy.congr rfl rfl, mem := fun k e => ?_ }
  have hfx := (hr.mem (key x) x).mpr ⟨hx, rfl⟩
  rw [hc, Multiset.Nodup.mem_erase_iff hr.nodup, Function.update_apply]
  split
  · rename_i hk
    subst hk
    constructor
    · intro h0
      cases h0
    · rintro ⟨⟨hne, hmem⟩, hkey⟩
      have hfe := (hr.mem (key x) e).mpr ⟨hmem, hkey⟩
      exact absurd (Option.some.inj (hfe.symm.trans hfx)) hne
  · rename_i hk
    rw [hr.mem]
    constructor
    · rintro ⟨hmem, rfl⟩
      exact ⟨⟨fun heq => hk (heq ▸ rfl), hmem⟩, rfl⟩
    · rintro ⟨⟨-, hmem⟩, hkey⟩
      exact ⟨hmem, hkey⟩

theorem hashReplace_none (ok : Bool) {e : E} (hnone : hashFind h e = none) :
    hashReplace ok h e = (none, (hashInsert ok h e).2) := by
  rw [hashFind] at hnone
  simp only [hashReplace, hashInsert, hnone]

theorem hashReplace_some (ok : Bool) {e x : E} (hx : hashFind h e = some x)
    (hnone : hashFind (removeElem h x) e = none) :
    hashReplace ok h e = (some x, (hashInsert ok (removeElem h x) e).2) := by
  rw [hashFind] at hx hnone
  simp only [hashReplace, hashInsert, hx, hnone]
  rfl

theorem Represents.replace (hr : Represents h key f) (ok : Bool) (e : E) :
    (hashReplace ok h e).1 = f (key e) ∧
      Represents (hashReplace ok h e).2 key (Function.update f (key e) (some e)) := by
  cases hf : f (key e) with
  | none =>
      rw [hashReplace_none ok ((hr.find e).trans hf)]
      exact ⟨rfl, (hr.insert_new ok hf).2⟩
  | some x =>
      obtain ⟨hx, hkey⟩ := (hr.mem (key e) x).mp hf
      have hrem := hr.remove hx
      rw [hkey] at hrem
      have hnone : Function.update f (key e) none (key e) = none := Function.update_self _ _ _
      rw [hashReplace_some ok ((hr.find e).trans hf) ((hrem.find e).trans hnone)]
      have hins := (hrem.insert_new ok hnone).2
      rw [Function.update_idem] at hins
      exact ⟨rfl, hins⟩

theorem Represents.delete (hr : Represents h key f) (ok : Bool) (e : E) :
    (hashDelete ok h e).1 = f (key e) ∧
      Represents (hashDelete ok h e).2 key (Function.update f (key e) none) := by
  cases hf : f (key e) with
  | none =>
      rw [hashDelete_none ok ((hr.find e).trans hf)]
      refine ⟨rfl, ?_⟩
      rwa [← hf, Function.update_eq_self]
  | some x =>
      obtain ⟨hx, hkey⟩ := (hr.mem (key e) x).mp hf
      have hrem := hr.remove hx
      rw [hkey] at hrem
      rw [(hr.tableOk.delete_some ok ((hr.find e).trans hf)).1]
      exact ⟨rfl, hrem.rehash ok⟩

end Updates

/-! ## Visiting every element -/

theorem flatMap_buckets (h : HashTable E) (n : Nat) :
    (((List.range n).flatMap h.buckets : List E) : Multiset E) =
      ∑ i ∈ Finset.range n, (h.buckets i : Multiset E) := by
  induction n with
  | zero => rfl
  | succ n ih =>
      rw [List.range_succ, List.flatMap_append, Finset.sum_range_succ, ← ih]
      simp

/-- The destructor gets what the table held, each element once, and the table is
empty. -/
theorem Represents.clear (hr : Represents h key f) :
    ((hashClear h).1 : Multiset E) = h.contents ∧
      Represents (hashClear h).2 key fun _ => none := by
  refine ⟨flatMap_buckets h h.bucketCnt, ?_⟩
  have hempty : ∀ i, (hashClear h).2.buckets i = [] := by
    intro i
    simp only [hashClear]
    split
    · rfl
    · rename_i hi
      refine List.eq_nil_iff_forall_not_mem.mpr fun e he => hi ?_
      rw [hr.place he]
      exact findBucket_lt hr.pow e
  obtain ⟨hp, hc⟩ := placed_empty (h := (hashClear h).2) hr.pow hempty
  refine { toPlaced := hp, irrefl := hr.irrefl, nodup := ?_, count := ?_,
           toKeyedBy := hr.keyedBy.congr rfl rfl, mem := fun k e => ?_ }
  · rw [hc]
    exact Multiset.nodup_zero
  · rw [hc]
    rfl
  · simp [hc]

/-! ## Runs -/

/-- The calls of the users; each comes with what becomes of the allocation that
its rehashing may ask for. -/
inductive HashOp (E : Type) : Type where
  | insert (e : E)
  | replace (e : E)
  | delete (e : E)
  | find (e : E)
  | clear

def hashStep [DecidableEq E] (h : HashTable E) (ok : Bool) : HashOp E → Option E × HashTable E
  | .insert e => hashInsert ok h e
  | .replace e => hashReplace ok h e
  | .delete e => hashDelete ok h e
  | .find e => (hashFind h e, h)
  | .clear => (none, (hashClear h).2)

def hashRun [DecidableEq E] : HashTable E → List (HashOp E × Bool) → List (Option E) × HashTable E
  | h, [] => ([], h)
  | h, (op, ok) :: ops =>
      let (out, h) := hashStep h ok op
      let (outs, h) := hashRun h ops
      (out :: outs, h)

/-- A call keeps the callbacks, and adds one element at most. -/
theorem hashStep_same [DecidableEq E] (h : HashTable E) (ok : Bool) (op : HashOp E) :
    (hashStep h ok op).2.hash = h.hash ∧ (hashStep h ok op).2.less = h.less ∧
      (hashStep h ok op).2.elemCnt ≤ h.elemCnt + 1 := by
  have hre : ∀ g : HashTable E, g.hash = h.hash → g.less = h.less → g.elemCnt ≤ h.elemCnt + 1 →
      (rehash ok g).hash = h.hash ∧ (rehash ok g).less = h.less ∧
        (rehash ok g).elemCnt ≤ h.elemCnt + 1 := by
    intro g h1 h2 h3
    have hs := rehash_same ok g
    exact ⟨hs.hash.trans h1, hs.less.trans h2, hs.elemCnt ▸ h3⟩
  cases op with
  | insert e =>
      rw [hashStep, hashInsert]
      cases findElem h (findBucket h e) e with
      | none => exact hre _ rfl rfl le_rfl
      | some x => exact hre _ rfl rfl (Nat.le_succ _)
  | replace e =>
      rw [hashStep, hashReplace]
      cases findElem h (findBucket h e) e with
      | none => exact hre _ rfl rfl le_rfl
      | some x => exact hre _ rfl rfl (Nat.succ_le_succ (Nat.sub_le _ _))
  | delete e =>
      rw [hashStep, hashDelete]
      cases findElem h (findBucket h e) e with
      | none => exact ⟨rfl, rfl, Nat.le_succ _⟩
      | some x => exact hre _ rfl rfl ((Nat.sub_le _ _).trans (Nat.le_succ _))
  | find e => exact ⟨rfl, rfl, Nat.le_succ _⟩
  | clear => exact ⟨rfl, rfl, Nat.zero_le _⟩

/-- The calls on a partial function. -/
def mapStep [DecidableEq K] (key : E → K) (f : K → Option E) :
    HashOp E → Option E × (K → Option E)
  | .insert e =>
      (f (key e), if f (key e) = none then Function.update f (key e) (some e) else f)
  | .replace e => (f (key e), Function.update f (key e) (some e))
  | .delete e => (f (key e), Function.update f (key e) none)
  | .find e => (f (key e), f)
  | .clear => (none, fun _ => none)

def mapRun [DecidableEq K] (key : E → K) :
    (K → Option E) → List (HashOp E) → List (Option E) × (K → Option E)
  | f, [] => ([], f)
  | f, op :: ops =>
      let (out, f) := mapStep key f op
      let (outs, f) := mapRun key f ops
      (out :: outs, f)

/-- The elements of all chains, first chain first. -/
def HashTable.inOrder (h : HashTable E) : List E := (List.range h.bucketCnt).flatMap h.buckets

/-- Going over the chains meets every binding of the map once. -/
theorem Represents.inOrder (hr : Represents h key f) :
    h.inOrder.Nodup ∧ (∀ e, e ∈ h.inOrder ↔ f (key e) = some e) ∧
      hashSize h = h.inOrder.length := by
  have hcoe : (h.inOrder : Multiset E) = h.contents := flatMap_buckets h h.bucketCnt
  refine ⟨?_, ?_, ?_⟩
  · rw [← Multiset.coe_nodup, hcoe]
    exact hr.nodup
  · intro e
    rw [← Multiset.mem_coe, hcoe, hr.mem]
    simp
  · rw [← Multiset.coe_card, hcoe]
    exact hr.count

section Running

variable [DecidableEq E] [DecidableEq K]

theorem Represents.step (hr : Represents h key f) (ok : Bool) (op : HashOp E) :
    (hashStep h ok op).1 = (mapStep key f op).1 ∧
      Represents (hashStep h ok op).2 key (mapStep key f op).2 := by
  cases op with
  | insert e =>
      rw [hashStep, mapStep]
      cases hf : f (key e) with
      | none =>
          rw [if_pos rfl]
          exact hr.insert_new ok hf
      | some x =>
          rw [if_neg (by simp)]
          exact hr.insert_old ok hf
  | replace e => exact hr.replace ok e
  | delete e => exact hr.delete ok e
  | find e => exact ⟨hr.find e, hr⟩
  | clear => exact ⟨rfl, hr.clear.2⟩

theorem Represents.run (hr : Represents h key f) (ops : List (HashOp E × Bool)) :
    (hashRun h ops).1 = (mapRun key f (ops.map Prod.fst)).1 ∧
      Represents (hashRun h ops).2 key (mapRun key f (ops.map Prod.fst)).2 := by
  induction ops generalizing h f with
  | nil => exact ⟨rfl, hr⟩
  | cons op ops ih =>
      obtain ⟨hout, hr'⟩ := hr.step op.2 op.1
      obtain ⟨houts, hrun⟩ := ih hr'
      exact ⟨congrArg₂ List.cons hout houts, hrun⟩

end Running

end Levos.Lib
