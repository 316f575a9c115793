import Levos.Base.OnesSum

/-!
# Lists lying in a buffer

What a buffer holds from some place on, and which stores leave it there.
-/

namespace Levos.Base

variable {α : Type*}

/-- The elements of `l` lie in the buffer from `i` on. -/
def HoldsAt (b : Nat → α) (i : Nat) (l : List α) : Prop := ∀ j (h : j < l.length), b (i + j) = l[j]

variable {b c : Nat → α} {i k : Nat} {l l' : List α}

@[simp] theorem holdsAt_nil (b : Nat → α) (i : Nat) : HoldsAt b i [] := fun j h => by cases h

theorem holdsAt_append :
    HoldsAt b i (l ++ l') ↔ HoldsAt b i l ∧ HoldsAt b (i + l.length) l' := by
  constructor
  · intro h
    refine ⟨fun j hj => ?_, fun j hj => ?_⟩
    · have := h j (by rw [List.length_append]; omega)
      rwa [List.getElem_append_left hj] at this
    · have := h (l.length + j) (by rw [List.length_append]; omega)
      rw [List.getElem_append_right (by omega)] at this
      simpa [Nat.add_assoc] using this
  · rintro ⟨h, h'⟩ j hj
    rw [List.length_append] at hj
    by_cases hlt : j < l.length
    · rw [List.getElem_append_left hlt, h j hlt]
    · rw [List.getElem_append_right (by omega), ← h' (j - l.length) (by omega)]
      congr 1
      omega

theorem holdsAt_cons {x : α} : HoldsAt b i (x :: l) ↔ b i = x ∧ HoldsAt b (i + 1) l := by
  rw [← List.singleton_append, holdsAt_append]
  refine and_congr_left fun _ => ?_
  constructor
  · exact fun h => h 0 Nat.one_pos
  · rintro rfl j hj
    rw [List.length_singleton, Nat.lt_one_iff] at hj
    subst hj
    rfl

theorem HoldsAt.congr (h : HoldsAt b i l) (hc : ∀ j, i ≤ j → j < i + l.length → c j = b j) :
    HoldsAt c i l := fun j hj => by
  rw [hc _ (by omega) (by omega), h j hj]

theorem holdsAt_shift : HoldsAt (fun j => b (k + j)) i l ↔ HoldsAt b (k + i) l := by
  simp only [HoldsAt, Nat.add_assoc]

/-- Two lists of one length at one place are the same. -/
theorem HoldsAt.unique (h : HoldsAt b i l) (h' : HoldsAt b i l') (hlen : l.length = l'.length) :
    l = l' :=
  List.ext_getElem hlen fun j hj hj' => by rw [← h j hj, ← h' j hj']

/-! ## Stores -/

theorem holdsAt_putList (b : Nat → α) (i : Nat) (l : List α) : HoldsAt (putList b i l) i l :=
  fun _ hj => putList_add hj

/-- A store elsewhere. -/
theorem HoldsAt.putList (h : HoldsAt b i l) (hd : i + l.length ≤ k ∨ k + l'.length ≤ i) :
    HoldsAt (putList b k l') i l := by
  apply h.congr
  intro j hij hj
  rcases hd with hlt | hle
  · exact if_neg (by omega)
  · exact putList_of_le (by omega)

theorem holdsAt_putList_iff (hd : i + l.length ≤ k ∨ k + l'.length ≤ i) :
    HoldsAt (putList b k l') i l ↔ HoldsAt b i l := by
  refine ⟨fun h => h.congr fun j hij hj => ?_, fun h => h.putList hd⟩
  rcases hd with hlt | hle
  · exact (if_neg (by omega)).symm
  · exact (putList_of_le (by omega)).symm

theorem putList_singleton (b : Nat → α) (i : Nat) (x : α) :
    putList b i [x] = Function.update b i x := by
  rw [putList_cons, putList_nil]

/-- Two stores side by side are one. -/
theorem putList_append (b : Nat → α) (l l' : List α) (h : k = i + l.length) :
    putList (putList b i l) k l' = putList b i (l ++ l') := by
  subst h
  induction l generalizing b i with
  | nil => rw [putList_nil, List.nil_append, List.length_nil, Nat.add_zero]
  | cons x l ih =>
      rw [putList_cons, List.cons_append, putList_cons, ← ih, List.length_cons]
      congr 1
      omega

theorem HoldsAt.update (h : HoldsAt b i l) {x : α} (hd : k < i ∨ i + l.length ≤ k) :
    HoldsAt (Function.update b k x) i l := by
  apply h.congr
  intro j hij hj
  exact Function.update_of_ne (by omega : j ≠ k) x b

/-- A store into a list that lies there. -/
theorem HoldsAt.store (l₁ l₂ l₃ : List α) (h : HoldsAt b i (l₁ ++ l₂ ++ l₃))
    (hlen : l.length = l₂.length) :
    HoldsAt (Base.putList b (i + l₁.length) l) i (l₁ ++ l ++ l₃) := by
  rw [holdsAt_append, holdsAt_append] at h ⊢
  obtain ⟨⟨h₁, -⟩, h₃⟩ := h
  refine ⟨⟨h₁.putList (.inl le_rfl), holdsAt_putList _ _ _⟩, ?_⟩
  rw [List.length_append] at h₃ ⊢
  rw [hlen]
  exact h₃.putList (.inr (by omega))

/-! ## The memory as a list -/

theorem holdsAt_iff_memBytes {mem : Nat → UInt8} {a : Nat} {bytes : List UInt8} :
    HoldsAt mem a bytes ↔ memBytes mem a bytes.length = bytes := by
  constructor
  · intro h
    refine List.ext_getElem (memBytes_length _ _ _) fun j hj hj' => ?_
    simpa [memBytes] using h j hj'
  · intro h j hj
    have hget : (memBytes mem a bytes.length)[j]? = bytes[j]? := by rw [h]
    simpa [memBytes, hj] using hget

/-- A buffer that starts like another one. -/
theorem HoldsAt.of_memBytes {mem mem' : Nat → UInt8} {n : Nat} {bytes : List UInt8}
    (h : HoldsAt mem i bytes) (hm : HoldsAt mem' 0 (memBytes mem 0 n))
    (hle : i + bytes.length ≤ n) : HoldsAt mem' i bytes := by
  refine h.congr fun j _ hj => ?_
  have := hm j (by rw [memBytes_length]; omega)
  simpa [memBytes] using this

end Levos.Base
