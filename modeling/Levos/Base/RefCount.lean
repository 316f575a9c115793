import Mathlib.Data.Finset.Card
import Mathlib.Tactic

/-!
# Counted references

Slots that point to objects, and a count kept with every object. `Counted`
says that no object is pointed to by more slots than its count admits; the
lemmas say what writing a slot and moving a count do to it, whatever the
order in which a program does the two. `Counted.last` is what a program that
disposes of an object when its count reaches zero relies on.
-/

namespace Levos.Base

variable {σ φ : Type} [DecidableEq σ] [DecidableEq φ]

/-- The slots of `dom` that point to `f`. -/
def holders (dom : Finset σ) (hold : σ → Option φ) (f : φ) : Finset σ :=
  dom.filter fun x => hold x = some f

def Counted (dom : Finset σ) (hold : σ → Option φ) (refc : φ → Int) : Prop :=
  ∀ f, ((holders dom hold f).card : Int) ≤ refc f

variable {dom : Finset σ} {hold : σ → Option φ} {refc : φ → Int}

omit [DecidableEq σ] in
theorem mem_holders {f : φ} {x : σ} :
    x ∈ holders dom hold f ↔ x ∈ dom ∧ hold x = some f := by
  simp [holders]

theorem holders_clear (x : σ) (f : φ) :
    holders dom (Function.update hold x none) f = (holders dom hold f).erase x := by
  ext y
  rw [Finset.mem_erase, mem_holders, mem_holders]
  by_cases hy : y = x
  · simp [hy]
  · simp [hy]

theorem holders_set {x : σ} (hx : x ∈ dom) (f g : φ) :
    holders dom (Function.update hold x (some f)) g =
      if g = f then insert x (holders dom hold g) else (holders dom hold g).erase x := by
  ext y
  by_cases hg : g = f
  · subst hg
    rw [if_pos rfl, Finset.mem_insert, mem_holders, mem_holders]
    by_cases hy : y = x
    · simp [hy, hx]
    · simp [hy]
  · rw [if_neg hg, Finset.mem_erase, mem_holders, mem_holders]
    by_cases hy : y = x
    · simp [hy, Ne.symm hg]
    · simp [hy]

/-- Clearing a slot. -/
theorem Counted.clear (h : Counted dom hold refc) (x : σ) :
    Counted dom (Function.update hold x none) refc := by
  intro f
  have hle : ((holders dom hold f).erase x).card ≤ (holders dom hold f).card :=
    Finset.card_le_card (Finset.erase_subset _ _)
  have := h f
  rw [holders_clear]
  omega

/-- Pointing a slot to an object that can take one more reference. -/
theorem Counted.set (h : Counted dom hold refc) {x : σ} (hx : x ∈ dom) {f : φ}
    (hf : ((holders dom hold f).card : Int) + 1 ≤ refc f) :
    Counted dom (Function.update hold x (some f)) refc := by
  intro g
  rw [holders_set hx]
  split
  · rename_i hg
    subst hg
    have := Finset.card_insert_le x (holders dom hold g)
    omega
  · have hle : ((holders dom hold g).erase x).card ≤ (holders dom hold g).card :=
      Finset.card_le_card (Finset.erase_subset _ _)
    have := h g
    omega

omit [DecidableEq σ] in
/-- Raising a count. -/
theorem Counted.raise (h : Counted dom hold refc) (f : φ) :
    Counted dom hold (Function.update refc f (refc f + 1)) := by
  intro g
  have := h g
  by_cases hg : g = f
  · subst hg
    simp only [Function.update_self]
    omega
  · simpa [hg] using this

/-- Clearing a slot and lowering the count of what it pointed to. -/
theorem Counted.release (h : Counted dom hold refc) {x : σ} (hx : x ∈ dom) {f : φ}
    (hf : hold x = some f) :
    Counted dom (Function.update hold x none) (Function.update refc f (refc f - 1)) := by
  intro g
  by_cases hg : g = f
  · subst hg
    have hmem : x ∈ holders dom hold g := mem_holders.mpr ⟨hx, hf⟩
    have hpos := Finset.card_pos.mpr ⟨x, hmem⟩
    have := h g
    rw [holders_clear, Finset.card_erase_of_mem hmem]
    simp only [Function.update_self]
    omega
  · simpa [hg] using h.clear x g

omit [DecidableEq σ] in
/-- The count reaches zero only with the last slot. -/
theorem Counted.last (h : Counted dom hold refc) {x : σ} (hx : x ∈ dom) {f : φ}
    (hf : hold x = some f) (hlast : refc f - 1 = 0) : holders dom hold f = {x} := by
  have hmem : x ∈ holders dom hold f := mem_holders.mpr ⟨hx, hf⟩
  have hone : (holders dom hold f).card ≤ 1 := by
    have := h f
    omega
  refine Finset.eq_singleton_iff_unique_mem.mpr ⟨hmem, fun y hy => ?_⟩
  exact Finset.card_le_one.mp hone y hy x hmem

omit [DecidableEq σ] in
/-- New slots that point nowhere change no set of holders. -/
theorem holders_grow {dom' : Finset σ} (hsub : dom ⊆ dom')
    (hnew : ∀ x ∈ dom', x ∉ dom → hold x = none) (f : φ) :
    holders dom' hold f = holders dom hold f := by
  ext x
  rw [mem_holders, mem_holders]
  constructor
  · rintro ⟨hx, hf⟩
    by_cases hd : x ∈ dom
    · exact ⟨hd, hf⟩
    · rw [hnew x hx hd] at hf
      cases hf
  · rintro ⟨hx, hf⟩
    exact ⟨hsub hx, hf⟩

end Levos.Base
