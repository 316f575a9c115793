import Mathlib.Data.List.TakeWhile
import Mathlib.Tactic

/-!
# Tokens

The non-empty pieces of a list between separators, and lists that are made of
tokens with a separator before each.
-/

namespace Levos.Base

variable {α : Type*} {p : α → Bool} {sep : α} {s w skip : List α}
  {ts : List (List α)}

/-- The non-empty pieces between the elements with `p`. -/
def tokens (p : α → Bool) (s : List α) : List (List α) := (s.splitOnP p).filter (· ≠ [])

/-- A token: not empty, and without a separator. -/
def IsToken (p : α → Bool) (w : List α) : Prop := w ≠ [] ∧ ∀ c ∈ w, p c = false

@[simp] theorem tokens_nil : tokens p [] = [] := rfl

theorem tokens_append_cons (s : List α) (hsep : p sep) (rest : List α) :
    tokens p (s ++ sep :: rest) = tokens p s ++ tokens p rest := by
  rw [tokens, List.splitOnP_append_cons _ _ hsep, List.filter_append]
  rfl

theorem tokens_cons (hsep : p sep) (rest : List α) : tokens p (sep :: rest) = tokens p rest :=
  tokens_append_cons [] hsep rest

/-- Separators at the start. -/
theorem tokens_skip (hskip : ∀ c ∈ skip, p c) (s : List α) :
    tokens p (skip ++ s) = tokens p s := by
  induction skip with
  | nil => rfl
  | cons c skip ih =>
      rw [List.forall_mem_cons] at hskip
      rw [List.cons_append, tokens_cons hskip.1, ih hskip.2]

theorem tokens_seps (hskip : ∀ c ∈ skip, p c) : tokens p skip = [] := by
  have h := tokens_skip hskip []
  rwa [List.append_nil] at h

theorem IsToken.tokens_eq (hw : IsToken p w) : tokens p w = [w] := by
  rw [tokens, List.splitOnP_eq_singleton hw.2, List.filter_cons_of_pos (by simpa using hw.1),
    List.filter_nil]

/-- The first token, and what is behind it. -/
theorem IsToken.tokens_append (hw : IsToken p w) (hsep : p sep) (rest : List α) :
    tokens p (w ++ sep :: rest) = w :: tokens p rest := by
  rw [tokens_append_cons w hsep, hw.tokens_eq, List.singleton_append]

/-- What is no separator begins a token, which goes up to a separator or to the
end. -/
theorem exists_token {y : α} (hy : p y = false) (b : List α) :
    ∃ v, IsToken p v ∧ (y :: b = v ∨ ∃ sep rest, p sep ∧ y :: b = v ++ sep :: rest) := by
  have hsplit : (y :: b).takeWhile (!p ·) ++ (y :: b).dropWhile (!p ·) = y :: b :=
    List.takeWhile_append_dropWhile
  have htoken : IsToken p ((y :: b).takeWhile (!p ·)) := by
    refine ⟨?_, fun c hc => by simpa using List.mem_takeWhile_imp hc⟩
    rw [List.takeWhile_cons_of_pos (by simpa using hy)]
    exact List.cons_ne_nil _ _
  refine ⟨_, htoken, ?_⟩
  rcases hend : (y :: b).dropWhile (!p ·) with _ | ⟨sep, rest⟩
  · rw [hend, List.append_nil] at hsplit
    exact .inl hsplit.symm
  · have hsep := List.head_dropWhile_not (!p ·) (l := y :: b)
      (by rw [hend]; exact List.cons_ne_nil _ _)
    rw [hend] at hsplit
    exact .inr ⟨sep, rest, by simpa [hend] using hsep, hsplit.symm⟩

/-- A list is separators only, or has a first token. -/
theorem tokens_cases (p : α → Bool) (s : List α) :
    (∀ c ∈ s, p c) ∨ ∃ skip w, (∀ c ∈ skip, p c) ∧ IsToken p w ∧
      (s = skip ++ w ∨ ∃ sep rest, p sep ∧ s = skip ++ (w ++ sep :: rest)) := by
  have hskip : ∀ c ∈ s.takeWhile p, p c := fun c hc => List.mem_takeWhile_imp hc
  have hs : s.takeWhile p ++ s.dropWhile p = s := List.takeWhile_append_dropWhile
  rcases hrest : s.dropWhile p with _ | ⟨c, s'⟩
  · rw [hrest, List.append_nil] at hs
    exact .inl (hs ▸ hskip)
  · have hc : p c = false := by
      have hhead := List.head_dropWhile_not p (l := s) (by rw [hrest]; exact List.cons_ne_nil _ _)
      simpa [hrest] using hhead
    rw [hrest] at hs
    obtain ⟨w, hw, heq | ⟨sep, rest, hsep, heq⟩⟩ := exists_token hc s'
    · exact .inr ⟨_, w, hskip, hw, .inl (by rw [← heq, hs])⟩
    · exact .inr ⟨_, w, hskip, hw, .inr ⟨sep, rest, hsep, by rw [← heq, hs]⟩⟩

/-- Tokens are tokens. -/
theorem isToken_of_mem (hw : w ∈ tokens p s) : IsToken p w ∧ ∀ c ∈ w, c ∈ s := by
  induction hn : s.length using Nat.strongRecOn generalizing s with
  | _ n ih =>
    subst hn
    rcases tokens_cases p s with hseps | ⟨skip, w', hskip, htoken, rfl | ⟨sep, rest, hsep, rfl⟩⟩
    · rw [tokens_seps hseps] at hw
      exact absurd hw List.not_mem_nil
    · rw [tokens_skip hskip, htoken.tokens_eq] at hw
      obtain rfl := List.mem_singleton.mp hw
      exact ⟨htoken, fun c hc => List.mem_append_right _ hc⟩
    · rw [tokens_skip hskip, htoken.tokens_append hsep] at hw
      rcases List.mem_cons.mp hw with rfl | hw
      · exact ⟨htoken, fun c hc => List.mem_append_right _ (List.mem_append_left _ hc)⟩
      · obtain ⟨h, hmem⟩ := ih rest.length (by simp; omega) hw rfl
        exact ⟨h, fun c hc => by simp [hmem c hc]⟩

theorem not_mem_of_mem_splitOnP (hw : w ∈ s.splitOnP p) : ∀ c ∈ w, p c = false := by
  induction s generalizing w with
  | nil =>
      obtain rfl := List.mem_singleton.mp hw
      exact fun c hc => absurd hc List.not_mem_nil
  | cons a s ih =>
      rw [List.splitOnP_cons_eq_if_modifyHead] at hw
      split at hw
      · rcases List.mem_cons.mp hw with rfl | hw
        · exact fun c hc => absurd hc List.not_mem_nil
        · exact ih hw
      · next ha =>
        obtain ⟨hd, tl, hsplit⟩ := List.exists_cons_of_ne_nil (List.splitOnP_ne_nil p s)
        rw [hsplit] at ih hw
        rcases List.mem_cons.mp hw with rfl | hw
        · rw [List.forall_mem_cons]
          exact ⟨by simpa using ha, ih List.mem_cons_self⟩
        · exact ih (List.mem_cons_of_mem _ hw)

/-- Tokens with a separator before each. -/
def joinTokens (sep : α) (ts : List (List α)) : List α := ts.flatMap fun t => sep :: t

theorem joinTokens_cons (sep : α) (t : List α) (ts : List (List α)) :
    joinTokens sep (t :: ts) = sep :: (t ++ joinTokens sep ts) := rfl

theorem tokens_joinTokens (hsep : p sep) (hts : ∀ t ∈ ts, IsToken p t) :
    tokens p (joinTokens sep ts) = ts := by
  induction ts with
  | nil => rfl
  | cons t ts ih =>
      rw [List.forall_mem_cons] at hts
      rw [joinTokens_cons, tokens_cons hsep]
      cases ts with
      | nil =>
          rw [show joinTokens sep [] = [] from rfl, List.append_nil, hts.1.tokens_eq]
      | cons t' ts =>
          have hrest := ih hts.2
          rw [joinTokens_cons, tokens_cons hsep] at hrest
          rw [joinTokens_cons, hts.1.tokens_append hsep, hrest]

/-! ## Cuts -/

/-- There is a separator where the two lists meet, or one of them is empty. -/
def CutAt (p : α → Bool) (a b : List α) : Prop :=
  ∀ x ∈ a.getLast?, ∀ y ∈ b.head?, p x ∨ p y

theorem CutAt.tokens_append {a b : List α} (h : CutAt p a b) :
    tokens p (a ++ b) = tokens p a ++ tokens p b := by
  rcases b with _ | ⟨y, b⟩
  · rw [List.append_nil, tokens_nil, List.append_nil]
  · rcases List.eq_nil_or_concat a with rfl | ⟨a, x, rfl⟩
    · rfl
    · rcases h x (by simp) y rfl with hx | hy
      · rw [List.concat_eq_append, List.append_assoc, List.singleton_append,
          tokens_append_cons a hx, tokens_append_cons a hx, tokens_nil, List.append_nil]
      · rw [tokens_append_cons _ hy, tokens_cons hy]

/-- A token that goes on is another one. -/
theorem IsToken.not_prefix (hw : IsToken p w) {y : α} (hy : p y = false) (b : List α) :
    ¬ [w] <+: tokens p (w ++ y :: b) := by
  obtain ⟨v, hv, hb⟩ := exists_token hy b
  have hlong : IsToken p (w ++ v) := by
    refine ⟨List.append_ne_nil_of_left_ne_nil hw.1 v, ?_⟩
    rw [List.forall_mem_append]
    exact ⟨hw.2, hv.2⟩
  have hfirst : ∃ ts, tokens p (w ++ y :: b) = (w ++ v) :: ts := by
    rcases hb with heq | ⟨sep, rest, hsep, heq⟩
    · exact ⟨[], by rw [heq, hlong.tokens_eq]⟩
    · exact ⟨_, by rw [heq, ← List.append_assoc, hlong.tokens_append hsep]⟩
  obtain ⟨ts, hts⟩ := hfirst
  rw [hts, List.cons_prefix_cons]
  rintro ⟨heq, -⟩
  exact hv.1 (List.append_right_eq_self.mp heq.symm)

/-- The tokens of the first part are tokens of the whole only at a cut. -/
theorem cutAt_iff {a b : List α} : CutAt p a b ↔ tokens p a <+: tokens p (a ++ b) := by
  constructor
  · intro h
    rw [h.tokens_append]
    exact List.prefix_append _ _
  · intro h x hx y hy
    rw [Option.mem_def] at hx hy
    obtain ⟨b, rfl⟩ := List.head?_eq_some_iff.mp hy
    by_contra hboth
    rw [not_or, Bool.not_eq_true, Bool.not_eq_true] at hboth
    induction hn : a.length using Nat.strongRecOn generalizing a with
    | _ n ih =>
      subst hn
      rcases tokens_cases p a with hseps | ⟨skip, w, hskip, hw, rfl | ⟨sep, rest, hsep, rfl⟩⟩
      · have hpx := hseps x (List.mem_of_getLast? hx)
        rw [hboth.1] at hpx
        cases hpx
      · rw [List.append_assoc, tokens_skip hskip, tokens_skip hskip, hw.tokens_eq] at h
        exact hw.not_prefix hboth.2 b h
      · rw [List.append_assoc, List.append_assoc, List.cons_append, tokens_skip hskip,
          tokens_skip hskip, hw.tokens_append hsep, hw.tokens_append hsep,
          List.cons_prefix_cons] at h
        rw [← List.append_assoc, List.getLast?_append] at hx
        rcases rest with _ | ⟨c, rest⟩
        · obtain rfl : sep = x := Option.some.inj hx
          rw [hboth.1] at hsep
          cases hsep
        · refine ih _ ?_ ?_ h.2 rfl
          · simp
            omega
          · rw [List.getLast?_cons_cons] at hx
            rw [List.getLast?_eq_some_getLast (List.cons_ne_nil c rest), Option.some_or] at hx
            rw [List.getLast?_eq_some_getLast (List.cons_ne_nil c rest), hx]

end Levos.Base
