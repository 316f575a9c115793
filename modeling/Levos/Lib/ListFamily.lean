import Levos.Lib.ListWalks

/-!
# Many lists in one memory

The lists with the numbers `S`, pairwise without a common element. Every
operation on one of them has one lemma, which says at once what becomes of all
of them.
-/

namespace Levos.Lib

open ListNode

def listPushFront (m : Links ListNode) (l e : Nat) : Links ListNode :=
  listInsert m (m.next (head l)) (elem e)

structure ListsAt (m : Links ListNode) (S : Nat → Prop) (bs : Nat → List Nat) : Prop where
  chain : ∀ {l}, S l → ListAt m l (bs l)
  nodup : ∀ {l}, S l → (bs l).Nodup
  apart : ∀ {l l'}, S l → S l' → l ≠ l' → ∀ e ∈ bs l, e ∉ bs l'

variable {m : Links ListNode} {S : Nat → Prop} {bs : Nat → List Nat}

theorem filter_ne_of_not_mem {x : Nat} {ys : List Nat} (hx : x ∉ ys) :
    ys.filter (· ≠ x) = ys :=
  List.filter_eq_self.mpr fun y hy => decide_eq_true fun heq : y = x => hx (by rwa [← heq])

/-- Lists that are not looked at any more. -/
theorem ListsAt.forget (h : ListsAt m S bs) {S' : Nat → Prop} (hsub : ∀ l, S' l → S l) :
    ListsAt m S' bs :=
  ⟨fun hl => h.chain (hsub _ hl), fun hl => h.nodup (hsub _ hl),
    fun hl hl' => h.apart (hsub _ hl) (hsub _ hl')⟩

theorem ListsAt.congr (h : ListsAt m S bs) {cs : Nat → List Nat} (heq : ∀ l, S l → cs l = bs l) :
    ListsAt m S cs := by
  refine ⟨fun hl => ?_, fun hl => ?_, fun hl hl' => ?_⟩
  · rw [heq _ hl]
    exact h.chain hl
  · rw [heq _ hl]
    exact h.nodup hl
  · rw [heq _ hl, heq _ hl']
    exact h.apart hl hl'

/-- A new empty list. -/
theorem ListsAt.init (h : ListsAt m S bs) {l : Nat} (hl : ¬ S l) :
    ListsAt (listInit m (head l) (tail l)) (fun k => S k ∨ k = l) (Function.update bs l []) := by
  have hold : ∀ {k}, S k → Function.update bs l [] k = bs k := fun hk =>
    Function.update_of_ne (fun heq => hl (by rwa [← heq])) _ _
  have hnew : Function.update bs l [] l = [] := Function.update_self _ _ _
  refine ⟨?_, ?_, ?_⟩
  · rintro k (hk | rfl)
    · rw [hold hk]
      exact (h.chain hk).init_other fun heq => hl (heq ▸ hk)
    · rw [hnew]
      exact listAt_init m k
  · rintro k (hk | rfl)
    · rw [hold hk]
      exact h.nodup hk
    · rw [hnew]
      exact .nil
  · rintro k k' (hk | rfl) (hk' | rfl) hne e he
    · rw [hold hk] at he
      rw [hold hk']
      exact h.apart hk hk' hne e he
    · rw [hnew]
      exact List.not_mem_nil
    · rw [hnew] at he
      cases he
    · exact absurd rfl hne

/-- A list is emptied by writing its sentinels only. -/
theorem ListsAt.reinit (h : ListsAt m S bs) {l : Nat} :
    ListsAt (listInit m (head l) (tail l)) S (Function.update bs l []) := by
  have hrest : ListsAt m (fun k => S k ∧ k ≠ l) bs := h.forget fun _ hk => hk.1
  have hinit := hrest.init (l := l) fun hk => hk.2 rfl
  refine hinit.forget fun k hk => ?_
  by_cases hkl : k = l
  · exact .inr hkl
  · exact .inl ⟨hk, hkl⟩

/-- An element that is in no list goes to the front of one. -/
theorem ListsAt.pushFront (h : ListsAt m S bs) {l e : Nat} (hl : S l)
    (he : ∀ k, S k → e ∉ bs k) :
    ListsAt (listPushFront m l e) S (Function.update bs l (e :: bs l)) := by
  have hold : ∀ {k}, k ≠ l → Function.update bs l (e :: bs l) k = bs k := fun hk =>
    Function.update_of_ne hk _ _
  have hnew : Function.update bs l (e :: bs l) l = e :: bs l := Function.update_self _ _ _
  have hnext : m.next (head l) = ((bs l).map elem).headD (tail l) := (h.chain hl).next_headD
  obtain ⟨hchain, hre⟩ := Chain.insert (e := elem e)
    (show Chain m (head l) ([] ++ (bs l).map elem) (tail l) from h.chain hl)
    (nodup_map_elem (h.nodup hl)) (by simp) (by simpa [elem_mem_map] using he l hl) (by simp)
  rw [← hnext] at hchain hre
  refine ⟨?_, ?_, ?_⟩
  · intro k hk
    by_cases hkl : k = l
    · subst hkl
      rw [hnew]
      exact hchain
    · rw [hold hkl]
      have hdisj : ∀ x ∈ bs k, x ∉ e :: bs l := by
        intro x hx hm
        rcases List.mem_cons.mp hm with rfl | hm
        · exact he k hk hx
        · exact h.apart hk hl hkl x hx hm
      refine hre.other (h.chain hk) ?_ ?_
      · intro n hn
        obtain ⟨h1, -, h3⟩ := list_nodes_apart hkl hdisj (hn.imp_right .inr)
        exact ⟨h1, h3⟩
      · intro n hn
        obtain ⟨-, h2, h3⟩ := list_nodes_apart hkl hdisj (.inr hn)
        exact ⟨h2, h3⟩
  · intro k hk
    by_cases hkl : k = l
    · subst hkl
      rw [hnew]
      exact List.nodup_cons.mpr ⟨he k hk, h.nodup hk⟩
    · rw [hold hkl]
      exact h.nodup hk
  · intro k k' hk hk' hne x hx
    by_cases hkl : k = l
    · subst hkl
      rw [hnew] at hx
      rw [hold (Ne.symm hne)]
      rcases List.mem_cons.mp hx with rfl | hx
      · exact he k' hk'
      · exact h.apart hk hk' hne x hx
    · rw [hold hkl] at hx
      by_cases hkl' : k' = l
      · subst hkl'
        rw [hnew]
        rintro hm
        rcases List.mem_cons.mp hm with rfl | hm
        · exact he k hk hx
        · exact h.apart hk hk' hne x hx hm
      · rw [hold hkl']
        exact h.apart hk hk' hne x hx

/-- An element of one of the lists is unlinked; the others do not have it. -/
theorem ListsAt.remove (h : ListsAt m S bs) {l e : Nat} (hl : S l) (he : e ∈ bs l) :
    ListsAt (listRemove m (elem e)) S fun k => (bs k).filter (· ≠ e) := by
  refine ⟨?_, ?_, ?_⟩
  · intro k hk
    by_cases hkl : k = l
    · subst hkl
      exact (h.chain hk).remove (h.nodup hk) he
    · have hek : e ∉ bs k := h.apart hl hk (Ne.symm hkl) e he
      rw [filter_ne_of_not_mem hek]
      exact (h.chain hk).remove_other (h.chain hl) (h.nodup hl) he hkl (h.apart hk hl hkl)
  · intro k hk
    exact (h.nodup hk).filter _
  · intro k k' hk hk' hne x hx hm
    exact h.apart hk hk' hne x (List.mem_of_mem_filter hx) (List.mem_of_mem_filter hm)

/-- The first element of one list goes to the front of another. -/
theorem ListsAt.move (h : ListsAt m S bs) {l l' x : Nat} {xs : List Nat} (hl : S l) (hl' : S l')
    (hne : l ≠ l') (hx : bs l = x :: xs) :
    ListsAt (listPushFront (listRemove m (elem x)) l' x) S
      (Function.update (Function.update bs l xs) l' (x :: bs l')) := by
  have hmem : x ∈ bs l := by simp [hx]
  have hrem := h.remove hl hmem
  have hout : ∀ k, S k → x ∉ (bs k).filter (· ≠ x) := by simp
  have hpush := hrem.pushFront hl' hout
  refine hpush.congr fun k hk => ?_
  have hkeep : ∀ k, S k → k ≠ l → (bs k).filter (· ≠ x) = bs k := by
    intro k hk hkl
    exact filter_ne_of_not_mem (h.apart hl hk (Ne.symm hkl) x hmem)
  simp only [Function.update_apply]
  by_cases hkl' : k = l'
  · rw [if_pos hkl', if_pos hkl', hkeep l' hl' (Ne.symm hne)]
  · rw [if_neg hkl', if_neg hkl']
    by_cases hkl : k = l
    · subst hkl
      have hnodup := List.nodup_cons.mp (hx ▸ h.nodup hl)
      rw [if_pos rfl, hx, List.filter_cons_of_neg (by simp), filter_ne_of_not_mem hnodup.1]
    · rw [if_neg hkl, hkeep k hk hkl]

end Levos.Lib
