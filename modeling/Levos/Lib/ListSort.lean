import Levos.Lib.LinkedList

/-!
# Sorting a list in place (`lib/list.c`)

`list_sort` is a natural merge sort on the pointers themselves: a pass looks
for two neighbouring runs of nondecreasing elements and merges the second one
into the first, by moving nodes, until the list is one run. What a pass does to
the list of the nodes is `SortPass`; the pointers follow it.
-/

namespace Levos.Lib

variable {N : Type}

/-! ## The functions of the source -/

section Pointers

variable [DecidableEq N]

/-- `first` to the node before `last` go in front of `before`. -/
def listSplice (m : Links N) (before first last : N) : Links N :=
  if first = last then m
  else
    let last := m.prev last
    let m := m.setNext (m.prev first) (m.next last)
    let m := m.setPrev (m.next last) (m.prev first)
    let m := m.setPrev first (m.prev before)
    let m := m.setNext last before
    let m := m.setNext (m.prev before) first
    m.setPrev before last

/-- `do a = list_next (a) while (a != b && !less (a, list_prev (a)))`. -/
def findEndOfRun (less : N → N → Bool) (m : Links N) (b : N) : Nat → N → Option N
  | 0, _ => none
  | fuel + 1, a =>
      let a := m.next a
      if a ≠ b ∧ !less a (m.prev a) then findEndOfRun less m b fuel a else some a

def inplaceMerge (less : N → N → Bool) (b1 : N) : Nat → Links N → N → N → Option (Links N)
  | 0, _, _, _ => none
  | fuel + 1, m, a0, a1b0 =>
      if a0 ≠ a1b0 ∧ a1b0 ≠ b1 then
        if !less a1b0 a0 then inplaceMerge less b1 fuel m (m.next a0) a1b0
        else
          let a1b0 := m.next a1b0
          inplaceMerge less b1 fuel (listSplice m a0 (m.prev a1b0) a1b0) a0 a1b0
      else some m

/-- The `for` loop of `list_sort` from `a0` on, with `output_run_cnt`. The same
bound serves its turns and the loops inside. -/
def sortLoop (less : N → N → Bool) (tail : N) (bound : Nat) :
    Nat → Links N → N → Nat → Option (Links N × Nat)
  | 0, _, _, _ => none
  | fuel + 1, m, a0, runCnt =>
      if a0 = tail then some (m, runCnt)
      else do
        let a1b0 ← findEndOfRun less m tail bound a0
        if a1b0 = tail then some (m, runCnt + 1)
        else do
          let b1 ← findEndOfRun less m tail bound a1b0
          let m ← inplaceMerge less b1 bound m a0 a1b0
          sortLoop less tail bound fuel m b1 (runCnt + 1)

/-- `do .. while (output_run_cnt > 1)`, with a bound on the passes. -/
def listSort (less : N → N → Bool) (head tail : N) (bound : Nat) :
    Nat → Links N → Option (Links N)
  | 0, _ => none
  | passes + 1, m => do
      let (m, runCnt) ← sortLoop less tail bound bound m (m.next head) 0
      if runCnt > 1 then listSort less head tail bound passes m else some m

end Pointers

/-! ## Pieces of a list -/

/-- The links of the nodes of a list were written, and no others. -/
structure Relinked (m m' : Links N) (a : N) (xs : List N) (b : N) : Prop where
  next : ∀ n, n ≠ a → n ∉ xs → m'.next n = m.next n
  prev : ∀ n, n ≠ b → n ∉ xs → m'.prev n = m.prev n

theorem Relinked.refl (m : Links N) (a : N) (xs : List N) (b : N) : Relinked m m a xs b :=
  ⟨fun _ _ _ => rfl, fun _ _ _ => rfl⟩

theorem Relinked.trans {m m' m'' : Links N} {a b : N} {xs ys : List N}
    (h : Relinked m m' a xs b) (h' : Relinked m' m'' a ys b) (hmem : ∀ n, n ∈ ys → n ∈ xs) :
    Relinked m m'' a xs b := by
  constructor
  · intro n ha hn
    exact (h'.next n ha fun hy => hn (hmem n hy)).trans (h.next n ha hn)
  · intro n hb hn
    exact (h'.prev n hb fun hy => hn (hmem n hy)).trans (h.prev n hb hn)

/-- A list that shares no node with the rewritten one is as it was. -/
theorem Relinked.other {m m' : Links N} {a b c d : N} {xs ys : List N}
    (h : Relinked m m' a xs b) (hys : Chain m c ys d)
    (hnext : ∀ n, n = c ∨ n ∈ ys → n ≠ a ∧ n ∉ xs)
    (hprev : ∀ n, n = d ∨ n ∈ ys → n ≠ b ∧ n ∉ xs) : Chain m' c ys d := by
  apply hys.congr
  · intro n hn
    obtain ⟨ha, hx⟩ := hnext n hn
    exact h.next n ha hx
  · intro n hn
    obtain ⟨hb, hx⟩ := hprev n hn
    exact h.prev n hb hx

/-- The node a list starts with, or the end behind it. -/
theorem Chain.next_headD {m : Links N} {a b : N} {xs : List N} (h : Chain m a xs b) :
    m.next a = xs.headD b := by
  cases xs with
  | nil => exact h.1
  | cons x xs => exact h.1

/-- A list in two pieces, the second one possibly empty. -/
theorem chain_append_iff {m : Links N} {a b : N} {xs ys : List N} :
    Chain m a (xs ++ ys) b ↔
      Chain m a xs (ys.headD b) ∧ ∀ z zs, ys = z :: zs → Chain m z zs b := by
  cases ys with
  | nil => simp
  | cons y ys =>
      rw [chain_append]
      constructor
      · rintro ⟨h1, h2⟩
        refine ⟨h1, ?_⟩
        rintro z zs heq
        obtain ⟨rfl, rfl⟩ := List.cons.inj heq
        exact h2
      · rintro ⟨h1, h2⟩
        exact ⟨h1, h2 y ys rfl⟩

/-- The end of a list is behind the node before it. -/
theorem Chain.next_prev {m : Links N} {a b : N} {xs : List N} (h : Chain m a xs b) :
    m.next (m.prev b) = b := by
  induction xs generalizing a with
  | nil => rw [h.2, h.1]
  | cons x xs ih => exact ih h.2.2

/-- The start of a list is in front of the node behind it. -/
theorem Chain.prev_next {m : Links N} {a b : N} {xs : List N} (h : Chain m a xs b) :
    m.prev (m.next a) = a := by
  cases xs with
  | nil => rw [h.1, h.2]
  | cons x xs => rw [h.1, h.2.1]

theorem headD_mem_or {b : N} (xs : List N) : xs.headD b = b ∨ xs.headD b ∈ xs := by
  cases xs with
  | nil => exact .inl rfl
  | cons x xs => exact .inr List.mem_cons_self

/-! ## Moving a piece to an earlier place -/

section Splicing

variable [DecidableEq N]

theorem listSplice_next {m : Links N} {c s d n : N} (hsd : s ≠ d) (hcd : c ≠ m.next (m.prev d))
    (hcs : c ≠ s) :
    (listSplice m c s d).next n =
      if n = m.prev c then s else if n = m.prev d then c
      else if n = m.prev s then m.next (m.prev d) else m.next n := by
  have hd : Function.update m.next (m.prev s) (m.next (m.prev d)) (m.prev d) =
      m.next (m.prev d) := by
    rw [Function.update_apply, ite_eq_right_iff]
    exact fun _ => rfl
  simp only [listSplice, if_neg hsd, Links.setNext, Links.setPrev, hd,
    Function.update_of_ne hcs, Function.update_of_ne hcd, Function.update_apply]

theorem listSplice_prev {m : Links N} {c s d n : N} (hsd : s ≠ d) (hcd : c ≠ m.next (m.prev d)) :
    (listSplice m c s d).prev n =
      if n = c then m.prev d else if n = s then m.prev c
      else if n = m.next (m.prev d) then m.prev s else m.prev n := by
  have hd : Function.update m.next (m.prev s) (m.next (m.prev d)) (m.prev d) =
      m.next (m.prev d) := by
    rw [Function.update_apply, ite_eq_right_iff]
    exact fun _ => rfl
  simp only [listSplice, if_neg hsd, Links.setNext, Links.setPrev, hd,
    Function.update_of_ne hcd, Function.update_apply]

/-- **Splicing.** The piece from `s` on goes in front of the piece from `c` on. -/
theorem Chain.splice {m : Links N} {a b c s : N} {pre mid seg post : List N}
    (h : Chain m a (pre ++ (c :: mid ++ (s :: seg ++ post))) b)
    (hnodup : (a :: (pre ++ (c :: mid ++ (s :: seg ++ post)))).Nodup)
    (hb : b ∉ a :: (pre ++ (c :: mid ++ (s :: seg ++ post)))) :
    Chain (listSplice m c s (post.headD b)) a (pre ++ (s :: seg ++ (c :: mid ++ post))) b ∧
      Relinked m (listSplice m c s (post.headD b)) a
        (pre ++ (c :: mid ++ (s :: seg ++ post))) b := by
  obtain ⟨hpre, h⟩ := chain_append_iff.mp h
  have hcmid := h c _ rfl
  obtain ⟨hmid, hcmid⟩ := chain_append_iff.mp hcmid
  have hsseg := hcmid s _ rfl
  obtain ⟨hseg, hpost⟩ := chain_append_iff.mp hsseg
  simp only [List.cons_append, List.headD_cons] at hpre hmid
  set d := post.headD b with hd
  have hdmem : d = b ∨ d ∈ post := headD_mem_or post
  have hld : m.next (m.prev d) = d := hseg.next_prev
  -- the last nodes of the three pieces
  have hq := hpre.prev_last
  have hp := hmid.prev_last
  have hl := hseg.prev_last
  simp only [List.nodup_cons, List.nodup_append, List.mem_append, List.mem_cons, not_or,
    List.cons_append] at hnodup hb
  have hsd : s ≠ d := by grind
  have hcd : c ≠ m.next (m.prev d) := by grind
  have hcs : c ≠ s := by grind
  have hnext := fun n => listSplice_next (n := n) hsd hcd hcs
  have hprev := fun n => listSplice_prev (n := n) hsd hcd
  rw [hld] at hnext hprev
  set m' := listSplice m c s d with hm'
  have hchain1 : Chain m' a pre s := by
    apply hpre.retarget
    · simp; grind
    · rw [hnext, if_pos rfl]
    · rw [hprev, if_neg hcs.symm, if_pos rfl]
    · intro n hn hne
      rw [hnext, if_neg hne, if_neg (by grind), if_neg (by grind)]
    · intro n hn
      rw [hprev, if_neg (by grind), if_neg (by grind), if_neg (by grind)]
  have hchain2 : Chain m' s seg c := by
    apply hseg.retarget
    · simp; grind
    · rw [hnext, if_neg (by grind), if_pos rfl]
    · rw [hprev, if_pos rfl]
    · intro n hn hne
      rw [hnext, if_neg (by grind), if_neg hne, if_neg (by grind)]
    · intro n hn
      rw [hprev, if_neg (by grind), if_neg (by grind), if_neg (by grind)]
  have hchain3 : Chain m' c mid d := by
    apply hmid.retarget
    · simp; grind
    · rw [hnext, if_neg (by grind), if_neg (by grind), if_pos rfl]
    · rw [hprev, if_neg (by grind), if_neg (by grind), if_pos rfl]
    · intro n hn hne
      rw [hnext, if_neg (by grind), if_neg (by grind), if_neg hne]
    · intro n hn
      rw [hprev, if_neg (by grind), if_neg (by grind), if_neg (by grind)]
  have hchain4 : ∀ z zs, post = z :: zs → Chain m' z zs b := by
    intro z zs hz
    apply (hpost z zs hz).congr
    · intro n hn
      rw [hnext, if_neg (by grind), if_neg (by grind), if_neg (by grind)]
    · intro n hn
      rw [hprev, if_neg (by grind), if_neg (by grind), if_neg (by grind)]
  refine ⟨?_, ?_, ?_⟩
  · simp only [List.cons_append]
    rw [chain_append, chain_append]
    exact ⟨hchain1, hchain2, chain_append_iff.mpr ⟨hchain3, hchain4⟩⟩
  · intro n hna hn
    rw [hnext, if_neg (by grind), if_neg (by grind), if_neg (by grind)]
  · intro n hnb hn
    rw [hprev, if_neg (by grind), if_neg (by grind), if_neg (by grind)]

end Splicing

/-! ## Merging two runs -/

/-- The merge of the source: the first run goes first unless the second one has
less. -/
def mergeRuns (less : N → N → Bool) (xs ys : List N) : List N :=
  xs.merge ys fun x y => !less y x

theorem mergeRuns_cons_keep {less : N → N → Bool} {x y : N} {xs ys : List N}
    (h : less y x = false) :
    mergeRuns less (x :: xs) (y :: ys) = x :: mergeRuns less xs (y :: ys) :=
  List.cons_merge_cons_pos _ _ _ (by simp [h])

theorem mergeRuns_cons_move {less : N → N → Bool} {x y : N} {xs ys : List N}
    (h : less y x = true) :
    mergeRuns less (x :: xs) (y :: ys) = y :: mergeRuns less (x :: xs) ys :=
  List.cons_merge_cons_neg _ _ _ (by simp [h])

section Merging

variable [DecidableEq N]

theorem inplaceMerge_done {less : N → N → Bool} {b1 a0 a1b0 : N} {fuel : Nat} {m : Links N}
    (h : a0 = a1b0 ∨ a1b0 = b1) : inplaceMerge less b1 (fuel + 1) m a0 a1b0 = some m :=
  if_neg fun ⟨h1, h2⟩ => h.elim h1 h2

theorem inplaceMerge_keep {less : N → N → Bool} {b1 a0 a1b0 : N} (fuel : Nat) (m : Links N)
    (h1 : a0 ≠ a1b0) (h2 : a1b0 ≠ b1) (hless : less a1b0 a0 = false) :
    inplaceMerge less b1 (fuel + 1) m a0 a1b0 =
      inplaceMerge less b1 fuel m (m.next a0) a1b0 := by
  rw [inplaceMerge, if_pos ⟨h1, h2⟩, if_pos (by rw [hless]; rfl)]

theorem inplaceMerge_move {less : N → N → Bool} {b1 a0 a1b0 : N} (fuel : Nat) (m : Links N)
    (h1 : a0 ≠ a1b0) (h2 : a1b0 ≠ b1) (hless : less a1b0 a0 = true) :
    inplaceMerge less b1 (fuel + 1) m a0 a1b0 =
      inplaceMerge less b1 fuel (listSplice m a0 (m.prev (m.next a1b0)) (m.next a1b0)) a0
        (m.next a1b0) := by
  rw [inplaceMerge, if_pos ⟨h1, h2⟩, if_neg (by rw [hless]; decide)]

/-- **Merging in place.** The two runs in the middle of a list are merged, by
moving nodes of the second one. -/
theorem inplaceMerge_chain (less : N → N → Bool) {a b : N} {post : List N} {fuel : Nat}
    {m : Links N} {pre as bs : List N} (h : Chain m a (pre ++ (as ++ (bs ++ post))) b)
    (hnodup : (a :: (pre ++ (as ++ (bs ++ post)))).Nodup)
    (hb : b ∉ a :: (pre ++ (as ++ (bs ++ post)))) (hfuel : as.length + bs.length < fuel) :
    ∃ m', inplaceMerge less (post.headD b) fuel m ((as ++ (bs ++ post)).headD b)
        ((bs ++ post).headD b) = some m' ∧
      Chain m' a (pre ++ (mergeRuns less as bs ++ post)) b ∧
      Relinked m m' a (pre ++ (as ++ (bs ++ post))) b := by
  induction fuel generalizing m pre as bs with
  | zero => cases hfuel
  | succ fuel ih =>
      cases as with
      | nil =>
          refine ⟨m, inplaceMerge_done (.inl rfl), ?_, .refl _ _ _ _⟩
          simpa [mergeRuns] using h
      | cons x as =>
      cases bs with
      | nil =>
          refine ⟨m, inplaceMerge_done (.inr rfl), ?_, .refl _ _ _ _⟩
          simpa [mergeRuns] using h
      | cons y bs =>
          have hxy : x ≠ y := by grind
          have hyb : y ≠ post.headD b := by
            have := headD_mem_or (b := b) post
            grind
          have hx : Chain m x (as ++ (y :: bs ++ post)) b := (chain_append_iff.mp h).2 x _ rfl
          have hy : Chain m y (bs ++ post) b := (chain_append_iff.mp hx).2 y _ rfl
          simp only [List.length_cons] at hfuel
          cases hless : less y x with
          | false =>
              have hstep := inplaceMerge_keep fuel m hxy hyb hless
              have hpre : pre ++ (x :: as ++ (y :: bs ++ post)) =
                  (pre ++ [x]) ++ (as ++ (y :: bs ++ post)) := by simp
              rw [hpre] at h hnodup hb ⊢
              obtain ⟨m', hm', hchain, hre⟩ :=
                ih h hnodup hb (by simp only [List.length_cons]; omega)
              refine ⟨m', ?_, ?_, hre⟩
              · rw [← hm', ← hx.next_headD]
                exact hstep
              · rw [mergeRuns_cons_keep hless]
                simpa using hchain
          | true =>
              have hstep := inplaceMerge_move fuel m hxy hyb hless
              obtain ⟨hchain, hre⟩ :
                  Chain (listSplice m x y ((bs ++ post).headD b)) a
                      (pre ++ ([y] ++ (x :: as ++ (bs ++ post)))) b ∧
                    Relinked m (listSplice m x y ((bs ++ post).headD b)) a
                      (pre ++ (x :: as ++ ([y] ++ (bs ++ post)))) b :=
                Chain.splice h hnodup hb
              rw [hy.prev_next, hy.next_headD] at hstep
              have hpre : pre ++ ([y] ++ (x :: as ++ (bs ++ post))) =
                  (pre ++ [y]) ++ (x :: as ++ (bs ++ post)) := by simp
              have hperm : (pre ++ ([y] ++ (x :: as ++ (bs ++ post)))).Perm
                  (pre ++ (x :: as ++ (y :: bs ++ post))) := by
                apply List.Perm.append_left
                simpa using (@List.perm_middle _ y (x :: as) (bs ++ post)).symm
              have hmem : ∀ n, n ∈ (pre ++ [y]) ++ (x :: as ++ (bs ++ post)) →
                  n ∈ pre ++ (x :: as ++ (y :: bs ++ post)) :=
                fun n hn => hperm.mem_iff.mp (hpre ▸ hn)
              rw [hpre] at hchain hperm
              obtain ⟨m', hm', hchain', hre'⟩ := ih hchain
                ((hperm.cons a).nodup_iff.mpr hnodup) (fun hm => hb ((hperm.cons a).mem_iff.mp hm))
                (by simp only [List.length_cons]; omega)
              refine ⟨m', hstep.trans hm', ?_, hre.trans hre' hmem⟩
              rw [mergeRuns_cons_move hless]
              simpa using hchain'

end Merging

/-! ## Runs -/

/-- Neighbours are in nondecreasing order. -/
def Run (less : N → N → Bool) (xs : List N) : Prop :=
  xs.IsChain fun x y => less y x = false

/-- What the run that starts with `a` takes of the nodes behind it. -/
def runBehind (less : N → N → Bool) : N → List N → List N
  | _, [] => []
  | a, x :: xs => if less x a then [] else x :: runBehind less x xs

def afterRun (less : N → N → Bool) : N → List N → List N
  | _, [] => []
  | a, x :: xs => if less x a then x :: xs else afterRun less x xs

theorem runBehind_append (less : N → N → Bool) (a : N) (xs : List N) :
    runBehind less a xs ++ afterRun less a xs = xs := by
  induction xs generalizing a with
  | nil => rfl
  | cons x xs ih =>
      rw [runBehind, afterRun]
      split
      · rfl
      · rw [List.cons_append, ih]

theorem runBehind_run (less : N → N → Bool) (a : N) (xs : List N) :
    Run less (a :: runBehind less a xs) := by
  induction xs generalizing a with
  | nil => exact .singleton a
  | cons x xs ih =>
      rw [runBehind]
      split
      · exact .singleton a
      · rename_i hless
        exact .cons_cons (by simpa using hless) (ih x)

theorem findEndOfRun_chain [DecidableEq N] (less : N → N → Bool) {m : Links N} {a b : N}
    {xs : List N} (h : Chain m a xs b) (hb : b ∉ xs) {fuel : Nat} (hfuel : xs.length < fuel) :
    findEndOfRun less m b fuel a = some ((afterRun less a xs).headD b) := by
  induction xs generalizing a fuel with
  | nil =>
      cases fuel with
      | zero => cases hfuel
      | succ fuel => simp [findEndOfRun, h.1, afterRun]
  | cons x xs ih =>
      obtain ⟨h1, h2, h3⟩ := h
      have hxb : x ≠ b := fun hx => hb (hx ▸ List.mem_cons_self)
      cases fuel with
      | zero => cases hfuel
      | succ fuel =>
          rw [findEndOfRun, afterRun]
          simp only [h1, h2]
          cases hless : less x a with
          | true => simp
          | false =>
              rw [if_pos ⟨hxb, by simp⟩, if_neg (by simp)]
              exact ih h3 (fun hm => hb (List.mem_cons_of_mem _ hm)) (Nat.lt_of_succ_lt_succ hfuel)

/-- The places where a node is less than the one before it. -/
def descents (less : N → N → Bool) : List N → Nat
  | [] => 0
  | [_] => 0
  | x :: y :: xs => (if less y x then 1 else 0) + descents less (y :: xs)

theorem descents_eq_zero {less : N → N → Bool} {xs : List N} :
    descents less xs = 0 ↔ Run less xs := by
  induction xs with
  | nil => simp [descents, Run]
  | cons x xs ih =>
      cases xs with
      | nil => simp [descents, Run]
      | cons y xs =>
          rw [descents, Run, List.isChain_cons_cons, Nat.add_eq_zero_iff, ih, Run]
          simp

theorem descents_lt_length {less : N → N → Bool} {xs : List N} (h : xs ≠ []) :
    descents less xs < xs.length := by
  induction xs with
  | nil => exact absurd rfl h
  | cons x xs ih =>
      cases xs with
      | nil => simp [descents]
      | cons y xs =>
          have := ih (by simp)
          rw [descents, List.length_cons]
          split <;> omega

/-- As many passes as the length asks for are enough for the runs. -/
theorem passes_enough {less : N → N → Bool} {xs : List N} {passes : Nat}
    (h : Nat.clog 2 xs.length < passes) : Nat.clog 2 (descents less xs + 1) < passes := by
  rcases eq_or_ne xs [] with rfl | hne
  · simpa [descents] using h
  · exact lt_of_le_of_lt (Nat.clog_mono_right 2 (descents_lt_length hne)) h

theorem descents_append (less : N → N → Bool) (xs ys : List N) :
    descents less xs + descents less ys ≤ descents less (xs ++ ys) ∧
      descents less (xs ++ ys) ≤ descents less xs + 1 + descents less ys := by
  induction xs with
  | nil => simp [descents]
  | cons x xs ih =>
      cases xs with
      | nil =>
          cases ys with
          | nil => simp [descents]
          | cons y ys =>
              simp only [List.cons_append, List.nil_append, descents]
              split <;> omega
      | cons y xs =>
          simp only [List.cons_append, descents] at ih ⊢
          omega

/-- A run ends where the next node is less. -/
theorem descents_afterRun {less : N → N → Bool} {a x : N} {xs ys : List N}
    (h : afterRun less a xs = x :: ys) :
    descents less (a :: xs) = 1 + descents less (x :: ys) := by
  induction xs generalizing a with
  | nil => cases h
  | cons z xs ih =>
      rw [afterRun] at h
      rw [descents]
      cases hless : less z a with
      | true =>
          rw [hless, if_pos rfl] at h
          rw [if_pos rfl, h]
      | false =>
          rw [hless, if_neg (by simp)] at h
          rw [ih h]
          simp

/-! ## A pass -/

/-- What one pass makes of the list, and the number of runs it puts out. -/
inductive SortPass (less : N → N → Bool) : List N → List N → Nat → Prop
  | done : SortPass less [] [] 0
  | last {a xs} : afterRun less a xs = [] → SortPass less (a :: xs) (a :: xs) 1
  | merge {a b xs rest ys zs k} : afterRun less a xs = b :: rest →
      afterRun less b rest = ys → SortPass less ys zs k →
      SortPass less (a :: xs)
        (mergeRuns less (a :: runBehind less a xs) (b :: runBehind less b rest) ++ zs) (k + 1)

/-- The two runs of a turn, and what is left for the turns after it. -/
theorem cons_eq_runs {less : N → N → Bool} {a b : N} {xs rest : List N}
    (h : afterRun less a xs = b :: rest) :
    a :: xs = (a :: runBehind less a xs) ++
      ((b :: runBehind less b rest) ++ afterRun less b rest) := by
  rw [List.cons_append, List.cons_append, runBehind_append, ← h, runBehind_append]

theorem SortPass.perm {less : N → N → Bool} {xs ys : List N} {k : Nat}
    (h : SortPass less xs ys k) : ys.Perm xs := by
  induction h with
  | done => exact .refl _
  | last _ => exact .refl _
  | merge h1 h2 _ ih =>
      rw [cons_eq_runs h1, h2, ← List.append_assoc]
      exact (List.merge_perm_append _).append ih

/-- A pass puts out half as many runs as it finds. -/
theorem SortPass.runs_le {less : N → N → Bool} {xs ys : List N} {k : Nat}
    (h : SortPass less xs ys k) : 2 * k ≤ descents less xs + 2 := by
  induction h with
  | done => simp
  | last _ => simp
  | @merge a b xs rest ys zs k h1 h2 hpass ih =>
      rw [descents_afterRun h1]
      cases ys with
      | nil =>
          cases hpass
          omega
      | cons y ys =>
          rw [descents_afterRun h2]
          omega

/-! ## Orders -/

/-- What the callers promise of `less` on the elements of a list. -/
structure WeakOrder (less : N → N → Bool) (xs : List N) : Prop where
  asymm : ∀ x ∈ xs, ∀ y ∈ xs, less x y = true → less y x = false
  trans : ∀ x ∈ xs, ∀ y ∈ xs, ∀ z ∈ xs,
    less y x = false → less z y = false → less z x = false

/-- Comparing keys is such an order. -/
theorem weakOrder_of_key (key : N → Nat) (xs : List N) :
    WeakOrder (fun x y => decide (key x < key y)) xs := by
  constructor
  · intro x _ y _ h
    simp only [decide_eq_true_eq, decide_eq_false_iff_not] at h ⊢
    omega
  · intro x _ y _ z _ hxy hyz
    simp only [decide_eq_false_iff_not] at hxy hyz ⊢
    omega

/-- Nondecreasing from any node to any later one. -/
def Sorted (less : N → N → Bool) (xs : List N) : Prop :=
  xs.Pairwise fun x y => less y x = false

/-- Two elements the order does not tell apart. -/
def sameRank (less : N → N → Bool) (x y : N) : Bool := !less x y && !less y x

section Ordered

variable {less : N → N → Bool}

theorem WeakOrder.mono {xs ys : List N} (h : WeakOrder less xs) (hsub : ∀ n ∈ ys, n ∈ xs) :
    WeakOrder less ys :=
  ⟨fun x hx y hy => h.asymm x (hsub x hx) y (hsub y hy),
    fun x hx y hy z hz => h.trans x (hsub x hx) y (hsub y hy) z (hsub z hz)⟩

theorem WeakOrder.irrefl {xs : List N} (h : WeakOrder less xs) {x : N} (hx : x ∈ xs) :
    less x x = false := by
  cases hless : less x x with
  | false => rfl
  | true => exact hless.symm.trans (h.asymm x hx x hx hless)

theorem Run.sorted {xs : List N} (hrun : Run less xs) (h : WeakOrder less xs) :
    Sorted less xs := by
  induction xs with
  | nil => exact .nil
  | cons x xs ih =>
      have htail : Sorted less xs := ih hrun.tail (h.mono fun n hn => List.mem_cons_of_mem _ hn)
      refine .cons ?_ htail
      intro z hz
      cases xs with
      | nil => cases hz
      | cons y xs =>
          have hxy : less y x = false := (List.isChain_cons_cons.mp hrun).1
          rcases List.mem_cons.mp hz with rfl | hz'
          · exact hxy
          · have hyz : less z y = false := (List.pairwise_cons.mp htail).1 z hz'
            exact h.trans x (by simp) y (by simp) z (by simp [hz']) hxy hyz

theorem mergeRuns_mem {xs ys : List N} {n : N} : n ∈ mergeRuns less xs ys ↔ n ∈ xs ∨ n ∈ ys :=
  List.mem_merge

theorem mergeRuns_nil (xs : List N) : mergeRuns less xs [] = xs := List.merge_right xs

theorem nil_mergeRuns (ys : List N) : mergeRuns less [] ys = ys := List.nil_merge ys

/-- Two nondecreasing runs give a nondecreasing one. -/
theorem mergeRuns_sorted {xs ys : List N} (h : WeakOrder less (xs ++ ys))
    (hxs : Sorted less xs) (hys : Sorted less ys) : Sorted less (mergeRuns less xs ys) := by
  induction xs generalizing ys with
  | nil => rwa [nil_mergeRuns]
  | cons x xs ihx =>
      induction ys with
      | nil => rwa [mergeRuns_nil]
      | cons y ys ihy =>
          obtain ⟨hx, hxs'⟩ := List.pairwise_cons.mp hxs
          obtain ⟨hy, hys'⟩ := List.pairwise_cons.mp hys
          cases hless : less y x with
          | false =>
              rw [mergeRuns_cons_keep hless]
              refine .cons ?_ (ihx (h.mono (by simp; grind)) hxs' hys)
              intro z hz
              rcases mergeRuns_mem.mp hz with hz | hz
              · exact hx z hz
              · rcases List.mem_cons.mp hz with rfl | hz
                · exact hless
                · exact h.trans x (by simp) y (by simp) z (by simp [hz]) hless (hy z hz)
          | true =>
              have hback : less x y = false := h.asymm y (by simp) x (by simp) hless
              rw [mergeRuns_cons_move hless]
              refine .cons ?_ (ihy (h.mono (by simp; grind)) hys')
              intro z hz
              rcases mergeRuns_mem.mp hz with hz | hz
              · rcases List.mem_cons.mp hz with rfl | hz
                · exact hback
                · exact h.trans y (by simp) x (by simp) z (by simp [hz]) hback (hx z hz)
              · exact hy z hz

/-- Elements of one rank keep their order: those of the first run stay in front. -/
theorem mergeRuns_filter {xs ys : List N} {c : N} (h : WeakOrder less (c :: (xs ++ ys)))
    (hxs : Sorted less xs) (hys : Sorted less ys) :
    (mergeRuns less xs ys).filter (sameRank less c) =
      xs.filter (sameRank less c) ++ ys.filter (sameRank less c) := by
  induction xs generalizing ys with
  | nil => rw [nil_mergeRuns]; rfl
  | cons x xs ihx =>
      induction ys with
      | nil => rw [mergeRuns_nil]; simp
      | cons y ys ihy =>
          obtain ⟨hx, hxs'⟩ := List.pairwise_cons.mp hxs
          obtain ⟨hy, hys'⟩ := List.pairwise_cons.mp hys
          cases hless : less y x with
          | false =>
              rw [mergeRuns_cons_keep hless, List.filter_cons, List.filter_cons,
                ihx (h.mono (by simp; grind)) hxs' hys]
              split <;> simp
          | true =>
              rw [mergeRuns_cons_move hless, List.filter_cons,
                ihy (h.mono (by simp; grind)) hys', List.filter_cons (x := y)]
              split
              · rename_i hyc
                -- nothing of the first run has the rank of a node that overtakes it
                have hnone : (x :: xs).filter (sameRank less c) = [] := by
                  rw [List.filter_eq_nil_iff]
                  intro w hw hwc
                  simp only [sameRank, Bool.and_eq_true, Bool.not_eq_true'] at hyc hwc
                  have hxw : less w x = false := by
                    rcases List.mem_cons.mp hw with rfl | hw
                    · exact h.irrefl (by simp)
                    · exact hx w hw
                  have hmem : w ∈ c :: (x :: xs ++ y :: ys) := by
                    rcases List.mem_cons.mp hw with rfl | hw <;> simp [*]
                  have hxc := h.trans x (by simp) w hmem c (by simp) hxw hwc.1
                  have hxy := h.trans x (by simp) c (by simp) y (by simp) hxc hyc.2
                  rw [hless] at hxy
                  cases hxy
                rw [hnone]
                rfl
              · rfl

/-- The runs of a turn are in order. -/
theorem runs_sorted {a b : N} {xs rest ys : List N} (hord : WeakOrder less (a :: xs))
    (h1 : afterRun less a xs = b :: rest) (h2 : afterRun less b rest = ys) :
    Sorted less (mergeRuns less (a :: runBehind less a xs) (b :: runBehind less b rest)) := by
  have hpieces : a :: xs = (a :: runBehind less a xs) ++ ((b :: runBehind less b rest) ++ ys) :=
    h2 ▸ cons_eq_runs h1
  rw [hpieces] at hord
  apply mergeRuns_sorted (hord.mono (by simp; grind))
  · exact (runBehind_run less a xs).sorted (hord.mono (by simp; grind))
  · exact (runBehind_run less b rest).sorted (hord.mono (by simp; grind))

/-- A pass puts out no more runs than it counts. -/
theorem SortPass.descents_le {xs ys : List N} {k : Nat} (h : SortPass less xs ys k)
    (hord : WeakOrder less xs) : descents less ys ≤ k - 1 := by
  induction h with
  | done => simp [descents]
  | @last a xs h1 =>
      have hxs : runBehind less a xs = xs := by
        have := runBehind_append less a xs
        rwa [h1, List.append_nil] at this
      have hrun := runBehind_run less a xs
      rw [hxs] at hrun
      simp [descents_eq_zero.mpr hrun]
  | @merge a b xs rest ys zs k h1 h2 hpass ih =>
      have hmem : ∀ n ∈ ys, n ∈ a :: xs := by
        rw [cons_eq_runs h1, h2]
        simp; grind
      have hrun : Run less (mergeRuns less (a :: runBehind less a xs) (b :: runBehind less b rest)) :=
        (runs_sorted hord h1 h2).isChain
      rw [← descents_eq_zero] at hrun
      have happ := (descents_append less (mergeRuns less (a :: runBehind less a xs)
        (b :: runBehind less b rest)) zs).2
      have hzs := ih (hord.mono hmem)
      cases k with
      | zero =>
          cases hpass
          rw [List.append_nil, hrun]
      | succ k => omega

/-- Elements of one rank keep their order. -/
theorem SortPass.filter {xs ys : List N} {k : Nat} {c : N} (h : SortPass less xs ys k)
    (hord : WeakOrder less (c :: xs)) :
    ys.filter (sameRank less c) = xs.filter (sameRank less c) := by
  induction h with
  | done => rfl
  | last _ => rfl
  | @merge a b xs rest ys zs k h1 h2 hpass ih =>
      have hpieces : a :: xs = (a :: runBehind less a xs) ++
          ((b :: runBehind less b rest) ++ ys) := h2 ▸ cons_eq_runs h1
      rw [hpieces] at hord ⊢
      have hxs : Sorted less (a :: runBehind less a xs) :=
        (runBehind_run less a xs).sorted (hord.mono (by simp; grind))
      have hys : Sorted less (b :: runBehind less b rest) :=
        (runBehind_run less b rest).sorted (hord.mono (by simp; grind))
      have hmerge := mergeRuns_filter (c := c) (hord.mono (by simp; grind)) hxs hys
      rw [List.filter_append, hmerge, ih (hord.mono (by simp; grind))]
      simp only [List.filter_append, List.append_assoc]

end Ordered

/-! ## The passes on the pointers -/

/-- A turn moves nodes, and loses none. -/
theorem turn_perm (less : N → N → Bool) (pre as bs post : List N) :
    ((pre ++ mergeRuns less as bs) ++ post).Perm (pre ++ (as ++ (bs ++ post))) := by
  rw [List.append_assoc, ← List.append_assoc as]
  exact ((List.merge_perm_append _).append_right _).append_left pre

section Passes

variable [DecidableEq N]

theorem sortLoop_tail {less : N → N → Bool} {tail : N} {bound fuel : Nat} {m : Links N}
    {runCnt : Nat} : sortLoop less tail bound (fuel + 1) m tail runCnt = some (m, runCnt) :=
  if_pos rfl

theorem sortLoop_last {less : N → N → Bool} {tail a0 : N} {bound fuel : Nat} {m : Links N}
    {runCnt : Nat} (ha : a0 ≠ tail) (h : findEndOfRun less m tail bound a0 = some tail) :
    sortLoop less tail bound (fuel + 1) m a0 runCnt = some (m, runCnt + 1) := by
  simp [sortLoop, ha, h]

theorem sortLoop_merge {less : N → N → Bool} {tail a0 a1b0 b1 : N} {bound fuel : Nat}
    {m m' : Links N} {runCnt : Nat} (ha : a0 ≠ tail)
    (h1 : findEndOfRun less m tail bound a0 = some a1b0) (hb : a1b0 ≠ tail)
    (h2 : findEndOfRun less m tail bound a1b0 = some b1)
    (h3 : inplaceMerge less b1 bound m a0 a1b0 = some m') :
    sortLoop less tail bound (fuel + 1) m a0 runCnt =
      sortLoop less tail bound fuel m' b1 (runCnt + 1) := by
  simp [sortLoop, ha, h1, hb, h2, h3]

/-- **One pass** over the part of the list from `xs` on. -/
theorem sortLoop_chain (less : N → N → Bool) {a b : N} {bound fuel : Nat} (runCnt : Nat)
    {m : Links N} {pre xs : List N} (h : Chain m a (pre ++ xs) b) (hnodup : (a :: (pre ++ xs)).Nodup)
    (hb : b ∉ a :: (pre ++ xs)) (hbound : xs.length < bound) (hfuel : xs.length < fuel) :
    ∃ m' ys k, sortLoop less b bound fuel m (xs.headD b) runCnt = some (m', runCnt + k) ∧
      SortPass less xs ys k ∧ Chain m' a (pre ++ ys) b ∧ Relinked m m' a (pre ++ xs) b := by
  induction fuel generalizing m pre xs runCnt with
  | zero => cases hfuel
  | succ fuel ih =>
      cases xs with
      | nil => exact ⟨m, [], 0, sortLoop_tail, .done, h, .refl _ _ _ _⟩
      | cons x xs =>
          have hx : x ≠ b := by grind
          have hchain : Chain m x xs b := (chain_append_iff.mp h).2 x _ rfl
          have hfind := findEndOfRun_chain less hchain (by grind)
            (Nat.lt_of_succ_lt hbound : xs.length < bound)
          cases hrest : afterRun less x xs with
          | nil =>
              rw [hrest] at hfind
              exact ⟨m, x :: xs, 1, sortLoop_last hx hfind, .last hrest, h, .refl _ _ _ _⟩
          | cons y rest =>
              rw [hrest] at hfind
              have hpieces := cons_eq_runs hrest
              have hlen := congrArg List.length hpieces
              simp only [List.length_cons, List.length_append] at hlen hbound hfuel
              rw [hpieces] at h hnodup hb
              have hy : y ≠ b := by grind
              have hfirst : Chain m x (runBehind less x xs ++
                  (y :: runBehind less y rest ++ afterRun less y rest)) b :=
                (chain_append_iff.mp h).2 x _ rfl
              have hsecond : Chain m y (runBehind less y rest ++ afterRun less y rest) b :=
                (chain_append_iff.mp hfirst).2 y _ rfl
              have hrestlen := congrArg List.length (runBehind_append less y rest)
              rw [List.length_append] at hrestlen
              rw [runBehind_append] at hsecond
              have hbrest : b ∉ rest := by
                rw [← runBehind_append less y rest]
                grind
              have hfind2 := findEndOfRun_chain less hsecond hbrest
                (by omega : rest.length < bound)
              have hbound' : (x :: runBehind less x xs).length +
                  (y :: runBehind less y rest).length < bound := by
                simp only [List.length_cons]
                omega
              obtain ⟨m1, hm1, hchain1, hre1⟩ := inplaceMerge_chain less h hnodup hb hbound'
              have hperm := turn_perm less pre (x :: runBehind less x xs)
                (y :: runBehind less y rest) (afterRun less y rest)
              rw [← List.append_assoc] at hchain1
              obtain ⟨m2, zs, k, hm2, hpass, hchain2, hre2⟩ := ih (runCnt + 1) hchain1
                ((hperm.cons a).nodup_iff.mpr hnodup)
                (fun hm => hb ((hperm.cons a).mem_iff.mp hm)) (by omega) (by omega)
              refine ⟨m2, _, k + 1, ?_, .merge hrest rfl hpass, ?_, ?_⟩
              · rw [List.headD_cons, sortLoop_merge hx hfind hy hfind2 hm1, hm2, Nat.add_assoc,
                  Nat.add_comm 1]
              · rwa [← List.append_assoc]
              · rw [hpieces]
                exact hre1.trans hre2 fun n hn => hperm.mem_iff.mp hn

theorem listSort_once {less : N → N → Bool} {head tail : N} {bound passes runCnt : Nat}
    {m m' : Links N} (h : sortLoop less tail bound bound m (m.next head) 0 = some (m', runCnt)) :
    listSort less head tail bound (passes + 1) m =
      if runCnt > 1 then listSort less head tail bound passes m' else some m' := by
  simp [listSort, h]

/-- The passes, with the number of runs they start from. -/
theorem listSort_chain {less : N → N → Bool} {head tail : N} {bound passes : Nat} {m : Links N}
    {xs : List N} (h : Chain m head xs tail) (hnodup : (head :: xs).Nodup)
    (htail : tail ∉ head :: xs) (hord : WeakOrder less xs) (hbound : xs.length < bound)
    (hpasses : Nat.clog 2 (descents less xs + 1) < passes) :
    ∃ m' ys, listSort less head tail bound passes m = some m' ∧ Chain m' head ys tail ∧
      Sorted less ys ∧ ys.Perm xs ∧
      (∀ c ∈ xs, ys.filter (sameRank less c) = xs.filter (sameRank less c)) ∧
      Relinked m m' head xs tail := by
  induction passes generalizing m xs with
  | zero => cases hpasses
  | succ passes ih =>
      have hloop := sortLoop_chain less 0 (show Chain m head ([] ++ xs) tail from h)
        hnodup htail hbound hbound
      simp only [List.nil_append] at hloop
      obtain ⟨m1, ys, k, hm1, hpass, hchain, hre⟩ := hloop
      rw [← h.next_headD, Nat.zero_add] at hm1
      have hruns := hpass.runs_le
      have hdesc := hpass.descents_le hord
      have hperm := hpass.perm
      have hord' : WeakOrder less ys := hord.mono fun n hn => hperm.mem_iff.mp hn
      have hrank : ∀ c ∈ xs, ys.filter (sameRank less c) = xs.filter (sameRank less c) :=
        fun c hc => hpass.filter (hord.mono (by simp [hc]))
      rw [listSort_once hm1]
      by_cases hk : k > 1
      · -- the number of runs is halved
        have hclog : Nat.clog 2 (descents less xs + 1) =
            Nat.clog 2 ((descents less xs + 1 + 2 - 1) / 2) + 1 :=
          Nat.clog_of_one_lt (by decide) (by omega)
        have hmono : Nat.clog 2 (descents less ys + 1) ≤
            Nat.clog 2 ((descents less xs + 1 + 2 - 1) / 2) :=
          Nat.clog_mono_right 2 (by omega)
        obtain ⟨m2, zs, hm2, hchain2, hsorted, hperm2, hrank2, hre2⟩ :=
          ih hchain ((hperm.cons head).nodup_iff.mpr hnodup)
            (fun hm => htail ((hperm.cons head).mem_iff.mp hm)) hord'
            (hperm.length_eq ▸ hbound) (by omega)
        refine ⟨m2, zs, ?_, hchain2, hsorted, hperm2.trans hperm, ?_, ?_⟩
        · rw [if_pos hk, hm2]
        · intro c hc
          rw [hrank2 c (hperm.mem_iff.mpr hc), hrank c hc]
        · exact hre.trans hre2 fun n hn => hperm.mem_iff.mp hn
      · have hrun : Run less ys := descents_eq_zero.mp (by omega)
        exact ⟨m1, ys, if_neg hk, hchain, hrun.sorted hord', hperm, hrank, hre⟩

/-- A list that was filled from the back. -/
def pushAll (m : Links N) (head tail : N) (es : List N) : Links N :=
  es.foldl (fun m e => listPushBack m tail e) (listInit m head tail)

theorem pushAll_chain (m : Links N) {head tail : N} {es : List N} (hnodup : (head :: es).Nodup)
    (htail : tail ∉ head :: es) : Chain (pushAll m head tail es) head es tail := by
  induction es using List.reverseRecOn with
  | nil => exact listInit_chain m head tail
  | append_singleton es e ih =>
      have hsub : (head :: es).Nodup := hnodup.sublist (by simp)
      have hchain := ih hsub (by grind)
      rw [pushAll, List.foldl_append]
      exact hchain.push hsub (by grind) (by grind) (by grind) (by grind)

/-- **Sorting.** For an order on the elements, `list_sort` ends, after at most
`⌈log₂ n⌉ + 1` passes, with a list of the same elements, nondecreasing, and with
elements of one rank in the order they had; no link outside the list is written. -/
theorem listSort_sorts (less : N → N → Bool) {head tail : N} {bound passes : Nat} {m : Links N}
    {xs : List N} (h : Chain m head xs tail) (hnodup : (head :: xs).Nodup)
    (htail : tail ∉ head :: xs) (hord : WeakOrder less xs) (hbound : xs.length < bound)
    (hpasses : Nat.clog 2 xs.length < passes) :
    ∃ m' ys, listSort less head tail bound passes m = some m' ∧ Chain m' head ys tail ∧
      Sorted less ys ∧ ys.Perm xs ∧
      (∀ c ∈ xs, ys.filter (sameRank less c) = xs.filter (sameRank less c)) ∧
      Relinked m m' head xs tail := by
  exact listSort_chain h hnodup htail hord hbound (passes_enough hpasses)

/-- Two ranks of two elements each. -/
theorem listSort_sorts_pairs :
    ∃ m' ys, listSort (fun x y => decide (x / 2 < y / 2)) 0 9 5 3
          (pushAll ⟨id, id⟩ 0 9 [7, 4, 6, 5]) = some m' ∧ Chain m' 0 ys 9 ∧
      Sorted (fun x y => decide (x / 2 < y / 2)) ys ∧ ys.Perm [7, 4, 6, 5] ∧
      (∀ c ∈ [7, 4, 6, 5], ys.filter (sameRank (fun x y => decide (x / 2 < y / 2)) c) =
        [7, 4, 6, 5].filter (sameRank (fun x y => decide (x / 2 < y / 2)) c)) ∧
      Relinked (pushAll ⟨id, id⟩ 0 9 [7, 4, 6, 5]) m' 0 [7, 4, 6, 5] 9 :=
  listSort_sorts _ (pushAll_chain _ (by decide) (by decide)) (by decide) (by decide)
    (weakOrder_of_key (fun x => x / 2) _) (by decide) (by norm_num)

example :
    (listSort (fun x y => decide (x / 2 < y / 2)) 0 9 5 3
      (pushAll ⟨id, id⟩ 0 9 [7, 4, 6, 5])).bind (fun m => listWalk m 9 5 (m.next 0)) =
        some [4, 5, 7, 6] := by
  decide +kernel

end Passes

end Levos.Lib
