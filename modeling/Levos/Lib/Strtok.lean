import Levos.Base.Tokens

/-!
# `strtok_r` (`lib/string.c`)

Buffers with strings in them. A load or a store behind the end of a buffer is
`none`. `strtok_r` puts a zero byte at the end of each token, and remembers
where to go on; over a string it gives its tokens, one after the other.
-/

namespace Levos.Lib

open Levos.Base

/-! ## Buffers -/

/-- The string at an index of a buffer, up to its zero byte. -/
def bufString (buf : List UInt8) (i : Nat) : Option (List UInt8) :=
  let s := (buf.drop i).takeWhile (· ≠ 0)
  if i + s.length < buf.length then some s else none

/-- `memcpy` of some bytes to an index of a buffer. -/
def storeBytes (buf : List UInt8) (i : Nat) (bytes : List UInt8) : Option (List UInt8) :=
  if i + bytes.length ≤ buf.length then
    some (buf.take i ++ bytes ++ buf.drop (i + bytes.length))
  else none

/-! ## The functions of the source -/

variable (delimiters : List UInt8)

/-- `strchr (delimiters, c)` finds something; every string has a zero byte. -/
def strchr (c : UInt8) : Bool := c = 0 || c ∈ delimiters

/-- The loop over delimiters: the index of the first byte that is none, or of
the zero byte. -/
def strtokSkip : List UInt8 → Nat → Option Nat
  | [], _ => none
  | c :: cs, s => if strchr delimiters c ∧ c ≠ 0 then strtokSkip cs (s + 1) else some s

/-- The loop over other bytes. -/
def strtokEnd : List UInt8 → Nat → Option Nat
  | [], _ => none
  | c :: cs, s => if strchr delimiters c then some s else strtokEnd cs (s + 1)

/-- What a call gives: the index of the token, or a null pointer, and what it
leaves in `save_ptr` and in the buffer. -/
structure StrtokResult where
  token : Option Nat
  save : Nat
  buf : List UInt8

/-- `strtok_r` from index `s` of a buffer on. -/
def strtokR (buf : List UInt8) (s : Nat) : Option StrtokResult :=
  (strtokSkip delimiters (buf.drop s) s).bind fun s =>
    if buf[s]? = some 0 then some ⟨none, s, buf⟩
    else
      (strtokEnd delimiters (buf.drop s) s).map fun e =>
        if buf[e]? = some 0 then ⟨some s, e, buf⟩ else ⟨some s, e + 1, buf.set e 0⟩

/-- The loop around the calls: `f` is what is done with the string of a token.
There are at most `fuel` of them. -/
def strtokLoop {β : Type*} (f : β → List UInt8 → β) : Nat → List UInt8 → Nat → β → Option β
  | 0, _, _, _ => none
  | fuel + 1, buf, s, acc =>
      (strtokR delimiters buf s).bind fun r =>
        match r.token with
        | none => some acc
        | some q =>
            (bufString r.buf q).bind fun t => strtokLoop f fuel r.buf r.save (f acc t)

/-! ## Loads and stores -/

section Buffers

variable {pre s post bytes : List UInt8}

theorem bufString_eq (hs : ∀ c ∈ s, c ≠ 0) :
    bufString (pre ++ (s ++ 0 :: post)) pre.length = some s := by
  have htake : (s ++ 0 :: post).takeWhile (· ≠ 0) = s := by
    rw [List.takeWhile_append_of_pos (by simpa using hs), List.takeWhile_cons_of_neg (by simp),
      List.append_nil]
  rw [bufString, List.drop_left, htake, if_pos (by simp)]

theorem storeBytes_eq {old : List UInt8} (hlen : old.length = bytes.length) :
    storeBytes (pre ++ (old ++ post)) pre.length bytes = some (pre ++ (bytes ++ post)) := by
  rw [storeBytes, if_pos (by simp; omega), List.take_left, ← hlen, ← List.length_append,
    ← List.append_assoc, List.drop_left, List.append_assoc]

end Buffers

/-! ## Tokens -/

section Tokens

variable {delimiters} {pre skip w s rest post : List UInt8} {c : UInt8}

theorem strtokSkip_eq (hskip : ∀ a ∈ skip, a ∈ delimiters ∧ a ≠ 0) (hc : c ∉ delimiters ∨ c = 0)
    (i : Nat) : strtokSkip delimiters (skip ++ c :: rest) i = some (i + skip.length) := by
  induction skip generalizing i with
  | nil =>
      refine if_neg fun h => ?_
      rcases hc with hc | hc
      · simp_all [strchr]
      · exact h.2 hc
  | cons a skip ih =>
      rw [List.forall_mem_cons] at hskip
      rw [List.cons_append, strtokSkip, if_pos, ih hskip.2, List.length_cons, Nat.add_right_comm,
        Nat.add_assoc]
      exact ⟨by simpa [strchr] using Or.inr hskip.1.1, hskip.1.2⟩

theorem strtokEnd_eq (hw : ∀ a ∈ w, a ∉ delimiters ∧ a ≠ 0) (hc : c ∈ delimiters ∨ c = 0)
    (i : Nat) : strtokEnd delimiters (w ++ c :: rest) i = some (i + w.length) := by
  induction w generalizing i with
  | nil => exact if_pos (by simpa [strchr] using hc.symm)
  | cons a w ih =>
      rw [List.forall_mem_cons] at hw
      rw [List.cons_append, strtokEnd, if_neg, ih hw.2, List.length_cons, Nat.add_right_comm,
        Nat.add_assoc]
      simpa [strchr] using hw.1.symm

/-- There are only delimiters. -/
theorem strtokR_none (hskip : ∀ a ∈ skip, a ∈ delimiters ∧ a ≠ 0) :
    strtokR delimiters (pre ++ (skip ++ 0 :: post)) pre.length =
      some ⟨none, pre.length + skip.length, pre ++ (skip ++ 0 :: post)⟩ := by
  have hend : (pre ++ (skip ++ 0 :: post))[pre.length + skip.length]? = some 0 := by
    rw [List.getElem?_append_right (Nat.le_add_right _ _), Nat.add_sub_cancel_left,
      List.getElem?_append_right le_rfl, Nat.sub_self]
    rfl
  rw [strtokR, List.drop_left, strtokSkip_eq hskip (.inr rfl), Option.bind_some, if_pos hend]

/-- The first token, which ends at a delimiter or at the end of the string. -/
theorem strtokR_token (hskip : ∀ a ∈ skip, a ∈ delimiters ∧ a ≠ 0)
    (hw : ∀ a ∈ w, a ∉ delimiters ∧ a ≠ 0) (hne : w ≠ []) (hc : c ∈ delimiters ∨ c = 0) :
    strtokR delimiters (pre ++ (skip ++ (w ++ c :: rest))) pre.length =
      some ⟨some (pre ++ skip).length,
        (pre ++ skip ++ w).length + if c = 0 then 0 else 1, pre ++ skip ++ (w ++ 0 :: rest)⟩ := by
  obtain ⟨a, w', rfl⟩ := List.exists_cons_of_ne_nil hne
  obtain ⟨ha, ha0⟩ := hw a List.mem_cons_self
  have hassoc : pre ++ (skip ++ (a :: w' ++ c :: rest)) = pre ++ skip ++ (a :: w' ++ c :: rest) :=
    (List.append_assoc _ _ _).symm
  have hstart : (pre ++ skip ++ (a :: w' ++ c :: rest))[(pre ++ skip).length]? = some a := by
    rw [List.getElem?_append_right le_rfl, Nat.sub_self]
    rfl
  have hend : (pre ++ skip ++ (a :: w' ++ c :: rest))[(pre ++ skip ++ a :: w').length]? =
      some c := by
    rw [← List.append_assoc, List.getElem?_append_right le_rfl, Nat.sub_self]
    rfl
  have hset : (pre ++ skip ++ (a :: w' ++ c :: rest)).set (pre ++ skip ++ a :: w').length 0 =
      pre ++ skip ++ (a :: w' ++ 0 :: rest) := by
    rw [← List.append_assoc, List.set_append_right _ _ le_rfl, Nat.sub_self, List.append_assoc]
    rfl
  have hskipped : strtokSkip delimiters (skip ++ (a :: w' ++ c :: rest)) pre.length =
      some (pre.length + skip.length) := strtokSkip_eq hskip (.inl ha) _
  rw [strtokR, List.drop_left, hskipped, Option.bind_some, ← List.length_append, hassoc,
    if_neg (by rw [hstart]; simpa using ha0), List.drop_left, strtokEnd_eq hw hc, Option.map_some,
    ← List.length_append, hend, hset]
  by_cases h0 : c = 0
  · subst h0
    rw [if_pos rfl, if_pos rfl]
    rfl
  · rw [if_neg (by simpa using h0), if_neg h0]

/-- One round of the loop. -/
theorem strtokLoop_token {β : Type*} (f : β → List UInt8 → β)
    (hskip : ∀ a ∈ skip, a ∈ delimiters ∧ a ≠ 0) (hw : ∀ a ∈ w, a ∉ delimiters ∧ a ≠ 0)
    (hne : w ≠ []) (hc : c ∈ delimiters ∨ c = 0) (fuel : Nat) (acc : β) :
    strtokLoop delimiters f (fuel + 1) (pre ++ (skip ++ (w ++ c :: rest))) pre.length acc =
      strtokLoop delimiters f fuel (pre ++ skip ++ (w ++ 0 :: rest))
        ((pre ++ skip ++ w).length + if c = 0 then 0 else 1) (f acc w) := by
  rw [strtokLoop, strtokR_token hskip hw hne hc, Option.bind_some]
  dsimp only
  rw [bufString_eq fun a ha => (hw a ha).2, Option.bind_some]

/-- **The tokens of a string**, from the calls of `strtok_r`. -/
theorem strtokLoop_eq {β : Type*} (f : β → List UInt8 → β) (hs : ∀ a ∈ s, a ≠ 0) {fuel : Nat}
    (hfuel : s.length < fuel) (acc : β) :
    strtokLoop delimiters f fuel (pre ++ (s ++ 0 :: post)) pre.length acc =
      some ((tokens (· ∈ delimiters) s).foldl f acc) := by
  induction fuel generalizing pre s acc with
  | zero => exact absurd hfuel (Nat.not_lt_zero _)
  | succ fuel ih =>
      rcases tokens_cases (· ∈ delimiters) s with
        hseps | ⟨skip, w, hskip, hw, rfl | ⟨c, rest, hc, rfl⟩⟩
      · rw [strtokLoop, strtokR_none fun a ha => ⟨by simpa using hseps a ha, hs a ha⟩,
          tokens_seps hseps]
        rfl
      · -- the string ends behind the token
        rw [List.forall_mem_append] at hs
        have hpos := List.length_pos_of_ne_nil hw.1
        rw [List.length_append] at hfuel
        rw [List.append_assoc, strtokLoop_token f
          (fun a ha => ⟨by simpa using hskip a ha, hs.1 a ha⟩)
          (fun a ha => ⟨by simpa using hw.2 a ha, hs.2 a ha⟩) hw.1 (.inr rfl), if_pos rfl,
          Nat.add_zero, ← List.append_assoc, tokens_skip hskip, hw.tokens_eq]
        exact ih (s := []) (by simp) (by simp; omega) (f acc w)
      · rw [List.forall_mem_append, List.forall_mem_append, List.forall_mem_cons] at hs
        rw [List.length_append, List.length_append, List.length_cons] at hfuel
        have hbuf : pre ++ skip ++ (w ++ 0 :: (rest ++ 0 :: post)) =
            pre ++ skip ++ w ++ [0] ++ (rest ++ 0 :: post) := by
          simp only [List.append_assoc, List.singleton_append]
        rw [List.append_assoc, List.append_assoc, List.cons_append, strtokLoop_token f
          (fun a ha => ⟨by simpa using hskip a ha, hs.1 a ha⟩)
          (fun a ha => ⟨by simpa using hw.2 a ha, hs.2.1 a ha⟩) hw.1
          (.inl (by simpa using hc)), if_neg hs.2.2.1, hbuf, tokens_skip hskip,
          hw.tokens_append hc, List.foldl_cons]
        have hindex : (pre ++ skip ++ w).length + 1 = (pre ++ skip ++ w ++ [0]).length := by
          simp only [List.length_append, List.length_singleton]
        rw [hindex]
        exact ih hs.2.2.2 (by omega) (f acc w)

end Tokens

end Levos.Lib
