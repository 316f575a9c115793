import Levos.Lib.CString
import Levos.Mm.HeapSound

/-!
# Taking `argv` and `envp` over (`kernel/syscall.c`)

`copy_array_from_user` counts the strings, takes one block of the heap for all
of them and one for the pointers, and packs the strings one behind the other.
`copyArrayFromUser_spec` says what is in the two blocks, and that neither the
memory of the user nor any other block has changed.
-/

namespace Levos.Kernel.Args

open Levos.Base Levos.Lib Levos.Mm

/-! ## The function of the source -/

/-- The first loop: the number of pointers, and `len`. -/
def countArray (mem : Nat → UInt8) (ptr : Nat) : Nat → Nat → Nat → Option (Nat × Nat)
  | 0, _, _ => none
  | fuel + 1, c, len =>
      if entry mem ptr c = 0 then some (c, len)
      else
        (strlen mem (entry mem ptr c)).bind fun n =>
          countArray mem ptr fuel (c + 1) (u32 (len + (n + 2)))

/-- The second loop, with `left` strings to go. -/
def copyStrings (ptr buf arr : Nat) :
    Nat → Nat → Nat → (Nat → UInt8) → Option (Nat → UInt8)
  | 0, _, _, mem => some mem
  | left + 1, i, sofar, mem =>
      (strlen mem (entry mem ptr i)).bind fun n =>
        let copied := memcpy mem (buf + sofar) (entry mem ptr i) (n + 1)
        copyStrings ptr buf arr left (i + 1) (sofar + (n + 1))
          (put32 copied (arr + 4 * i) (buf + sofar))

/-- `copy_array_from_user`. There is no result where a loop does not end or
`malloc` panics, which it does instead of returning NULL. -/
def copyArrayFromUser (junk junk' : Nat → UInt8) (h : Liballoc) (ptr : Nat) :
    Option (Nat × Liballoc) :=
  match countArray h.mem ptr (2 ^ 32) 0 0 with
  | none => none
  | some (c, len) =>
      match naMalloc junk h len defaultAlignment with
      | some (some buf) =>
          match naMalloc junk' buf.heap (u32 ((c + 1) * 4)) defaultAlignment with
          | some (some arr) =>
              (copyStrings ptr buf.ptr arr.ptr c 0 0
                (clearBytes arr.heap.mem arr.ptr (u32 ((c + 1) * 4)))).map fun mem =>
                  (arr.ptr, { arr.heap with mem := mem })
          | _ => none
      | _ => none

/-! ## Places -/

/-- Where string `i` is put, packed behind those before it. -/
def place (base : Nat) (strs : List CString) (i : Nat) : Nat := base + sizes (strs.take i)

@[simp] theorem place_zero (base : Nat) (strs : List CString) : place base strs 0 = base := rfl

theorem place_length (base : Nat) (strs : List CString) :
    place base strs strs.length = base + sizes strs := by
  rw [place, List.take_length]

theorem place_succ (base : Nat) (strs : List CString) {i : Nat} (hi : i < strs.length) :
    place base strs (i + 1) = place base strs i + strs[i].size := by
  rw [place, place, List.take_succ_eq_append_getElem hi, sizes_append, Nat.add_assoc]
  rfl

theorem place_mono (base : Nat) (strs : List CString) {i j : Nat} (h : i ≤ j) :
    place base strs i ≤ place base strs j := by
  have hsplit := sizes_append ((strs.take j).take i) ((strs.take j).drop i)
  rw [List.take_append_drop, List.take_take, Nat.min_eq_left h] at hsplit
  rw [place, place]
  omega

/-- A string ends before the next one and within all of them. -/
theorem place_end (base : Nat) (strs : List CString) {i j : Nat} (hi : i < strs.length)
    (hij : i < j) : place base strs i + strs[i].size ≤ place base strs j := by
  rw [← place_succ base strs hi]
  exact place_mono base strs hij

theorem place_bounds (base : Nat) (strs : List CString) {i : Nat} (hi : i < strs.length) :
    base ≤ place base strs i ∧ place base strs i + strs[i].size ≤ base + sizes strs := by
  constructor
  · exact place_mono base strs (Nat.zero_le i)
  · rw [← place_length]
    exact place_end base strs hi hi

/-! ## The arrays of the user -/

/-- The array and its strings lie below an address. -/
structure ArrayBelow (mem : Nat → UInt8) (limit ptr : Nat) (strs : List CString) : Prop
    extends ArrayAt mem ptr strs where
  cells : ptr + 4 * (strs.length + 1) ≤ limit
  ends : ∀ i (h : i < strs.length), entry mem ptr i + strs[i].size ≤ limit

theorem ArrayBelow.congr {mem mem' : Nat → UInt8} {limit ptr : Nat} {strs : List CString}
    (h : ArrayBelow mem limit ptr strs) (heq : ∀ a < limit, mem' a = mem a) :
    ArrayBelow mem' limit ptr strs := by
  have hcells := h.cells
  have hentry : ∀ i ≤ strs.length, entry mem' ptr i = entry mem ptr i := by
    intro i hi
    exact entry_congr fun k hk => heq _ (by omega)
  refine ⟨⟨fun i hi => ?_, ?_⟩, hcells, fun i hi => ?_⟩
  · have hend := h.ends i hi
    rw [hentry i hi.le]
    exact ⟨(h.string i hi).1, (h.string i hi).2.congr fun k hk => heq _ (by omega)⟩
  · rw [hentry _ le_rfl]
    exact h.null
  · rw [hentry i hi.le]
    exact h.ends i hi

/-- The pointers are counted, and the bytes of the strings with one more for
each. -/
theorem countArray_eq {mem : Nat → UInt8} {ptr : Nat} {strs : List CString}
    (h : ArrayAt mem ptr strs) :
    ∀ {fuel c len : Nat}, c ≤ strs.length → strs.length < fuel + c →
      len + sizes (strs.drop c) + (strs.length - c) < 2 ^ 32 →
      countArray mem ptr fuel c len =
        some (strs.length, len + sizes (strs.drop c) + (strs.length - c))
  | 0, c, len, hc, hfuel, _ => by omega
  | fuel + 1, c, len, hc, hfuel, hlen => by
      rw [countArray]
      rcases Nat.lt_or_eq_of_le hc with hlt | rfl
      · obtain ⟨hne, hstr⟩ := h.string c hlt
        have hdrop := sizes_drop strs hlt
        have hsize : strs[c].size = strs[c].bytes.length + 1 := rfl
        rw [if_neg hne, strlen_eq hstr (by omega), Option.bind_some, u32_of_lt (by omega),
          countArray_eq h (show c + 1 ≤ strs.length from hlt) (by omega) (by omega)]
        congr 2
        omega
      · rw [if_pos h.null, List.drop_length, sizes_nil, Nat.sub_self]
        rfl

/-! ## The copies -/

/-- The first `i` strings are copied: their pointers and bytes are in place. -/
def Copied (mem : Nat → UInt8) (buf arr : Nat) (strs : List CString) (i : Nat) : Prop :=
  ∀ j (h : j < strs.length), j < i →
    entry mem arr j = place buf strs j ∧ StringAt mem (place buf strs j) strs[j]

/-- One string more. -/
theorem Copied.step {mem : Nat → UInt8} {limit ptr buf arr : Nat} {strs : List CString} {i : Nat}
    (h : Copied mem buf arr strs i) (huser : ArrayBelow mem limit ptr strs) (hi : i < strs.length)
    (hsep : buf + sizes strs ≤ arr ∨ arr + 4 * (strs.length + 1) ≤ buf)
    (hword : buf + sizes strs < 2 ^ 32) :
    Copied (put32 (memcpy mem (place buf strs i) (entry mem ptr i) strs[i].size) (arr + 4 * i)
      (place buf strs i)) buf arr strs (i + 1) := by
  have hb := place_bounds buf strs hi
  intro j hj hlt
  have hbj := place_bounds buf strs hj
  rcases Nat.lt_or_eq_of_le (Nat.le_of_lt_succ hlt) with hji | rfl
  · obtain ⟨hentry, hstr⟩ := h j hj hji
    have hend := place_end buf strs hj hji
    constructor
    · rw [entry_put32_of_ne _ _ _ hji.ne, ← hentry]
      exact entry_congr fun k hk => memcpy_of_out (by omega)
    · refine hstr.congr fun k hk => ?_
      rw [put32_of_ne (by omega), memcpy_of_out (by omega)]
  · constructor
    · exact entry_put32 _ _ _ (by omega)
    · have hmoved : StringAt (memcpy mem (place buf strs j) (entry mem ptr j) strs[j].size)
          (place buf strs j) strs[j] := (huser.string j hj).2.memcpy
      exact hmoved.congr fun k hk => put32_of_ne (by omega)

/-- **The copying loop.** Outside the two blocks nothing changes. -/
theorem copyStrings_spec {limit ptr buf arr : Nat} {strs : List CString}
    (hbuf : limit ≤ buf) (harr : limit ≤ arr)
    (hsep : buf + sizes strs ≤ arr ∨ arr + 4 * (strs.length + 1) ≤ buf)
    (hword : buf + sizes strs < 2 ^ 32) :
    ∀ {left i : Nat} {mem : Nat → UInt8}, i + left = strs.length →
      ArrayBelow mem limit ptr strs → Copied mem buf arr strs i →
      ∃ mem', copyStrings ptr buf arr left i (sizes (strs.take i)) mem = some mem' ∧
        Copied mem' buf arr strs strs.length ∧
        ∀ a, a < buf ∨ buf + sizes strs ≤ a → a < arr ∨ arr + 4 * strs.length ≤ a →
          mem' a = mem a
  | 0, i, mem, hi, _, hcopied => ⟨mem, rfl, by rwa [← hi], fun _ _ _ => rfl⟩
  | left + 1, i, mem, hi, huser, hcopied => by
      have hlt : i < strs.length := by omega
      have hb := place_bounds buf strs hlt
      have hsize : strs[i].size = strs[i].bytes.length + 1 := rfl
      have hstep := hcopied.step huser hlt hsep hword
      set mem₁ := put32 (memcpy mem (place buf strs i) (entry mem ptr i) strs[i].size)
        (arr + 4 * i) (place buf strs i) with hmem₁
      have hframe : ∀ a, a < buf ∨ buf + sizes strs ≤ a → a < arr ∨ arr + 4 * strs.length ≤ a →
          mem₁ a = mem a := by
        intro a hout hout'
        rw [hmem₁, put32_of_ne (by omega), memcpy_of_out (by omega)]
      have huser₁ : ArrayBelow mem₁ limit ptr strs :=
        huser.congr fun a ha => hframe a (.inl (by omega)) (.inl (by omega))
      obtain ⟨mem', hrun, hdone, hrest⟩ :=
        copyStrings_spec hbuf harr hsep hword (show i + 1 + left = strs.length by omega) huser₁
          hstep
      refine ⟨mem', ?_, hdone, fun a ha ha' => (hrest a ha ha').trans (hframe a ha ha')⟩
      rw [copyStrings, strlen_eq (huser.string i hlt).2 (by omega), Option.bind_some, ← hrun]
      have hsum : sizes (strs.take (i + 1)) = sizes (strs.take i) + strs[i].size := by
        have := place_succ 0 strs hlt
        rw [place, place] at this
        omega
      rw [hsum]
      rfl

/-! ## The blocks -/

/-- What `copy_array_from_user` leaves: a block `b` with the strings, and a
block `a` with the pointers. -/
structure CopyMade (s : HeapState) (strs : List CString) (arr : Nat) (h' : Liballoc)
    (b a : HeapBlock) : Prop where
  ok : HeapOk ⟨h', a :: b :: s.live⟩
  ptr : a.ptr = arr
  pointers : a.req = 4 * (strs.length + 1)
  strings : sizes strs ≤ b.req
  copied : Copied h'.mem b.ptr arr strs strs.length
  null : entry h'.mem arr strs.length = 0
  kept : ∀ b' ∈ s.live, ∀ i < b'.req, h'.mem (b'.ptr + i) = s.heap.mem (b'.ptr + i)
  user : ∀ x < heapStart, h'.mem x = s.heap.mem x

/-- **`copy_array_from_user`**, when it returns, has made a copy. -/
theorem copyArrayFromUser_spec {s : HeapState} (hs : HeapOk s) {junk junk' : Nat → UInt8}
    {ptr arr : Nat} {h' : Liballoc} {strs : List CString}
    (huser : ArrayBelow s.heap.mem heapStart ptr strs) (hsmall : sizes strs < 2 ^ 28)
    (hcopy : copyArrayFromUser junk junk' s.heap ptr = some (arr, h')) :
    ∃ b a, CopyMade s strs arr h' b a := by
  have hcount := length_le_sizes strs
  have hlen : countArray s.heap.mem ptr (2 ^ 32) 0 0 =
      some (strs.length, sizes strs + strs.length) := by
    rw [countArray_eq huser.toArrayAt (Nat.zero_le _) (by omega) (by rw [List.drop_zero]; omega),
      List.drop_zero, Nat.zero_add, Nat.sub_zero]
  rw [copyArrayFromUser, hlen] at hcopy
  dsimp only at hcopy
  rw [u32_of_lt (x := (strs.length + 1) * 4) (by omega)] at hcopy
  split at hcopy
  swap
  · cases hcopy
  rename_i buf hbuf
  obtain ⟨b, hbptr, hbreq, hok₁, hkept₁, huser₁⟩ := malloc_step hs (by omega) hbuf
  split at hcopy
  swap
  · cases hcopy
  rename_i arrAlloc harr
  obtain ⟨a, haptr, hareq, hok₂, hkept₂, huser₂⟩ :=
    malloc_step (s := ⟨buf.heap, b :: s.live⟩) hok₁ (by omega) harr
  have hb := heapOk_bounds hok₂ (b := b) (by simp)
  have ha := heapOk_bounds hok₂ (b := a) (by simp)
  have hdisj : ∀ b' ∈ b :: s.live,
      a.ptr + a.req ≤ b'.ptr ∨ b'.ptr + b'.req ≤ a.ptr := (List.pairwise_cons.mp hok₂.sound.disjoint).1
  have hdisjb : ∀ b' ∈ s.live, b.ptr + b.req ≤ b'.ptr ∨ b'.ptr + b'.req ≤ b.ptr :=
    (List.pairwise_cons.mp (List.pairwise_cons.mp hok₂.sound.disjoint).2).1
  have hab := hdisj b List.mem_cons_self
  rw [← haptr, ← hbptr] at hcopy
  set mem₀ := clearBytes arrAlloc.heap.mem a.ptr ((strs.length + 1) * 4) with hmem₀
  have hclear : ∀ x, x < a.ptr ∨ a.ptr + a.req ≤ x → mem₀ x = arrAlloc.heap.mem x := by
    intro x hx
    rw [hmem₀, clearBytes, if_neg (by omega)]
  have hbelow : ArrayBelow mem₀ heapStart ptr strs := by
    refine huser.congr fun x hx => ?_
    rw [hclear x (.inl (by omega)), huser₂ x hx]
    exact huser₁ x hx
  obtain ⟨mem', hrun, hcopied, hframe⟩ := copyStrings_spec hb.1 ha.1 (by omega) (by omega)
    (show 0 + strs.length = strs.length from Nat.zero_add _) hbelow
    fun j _ hj => absurd hj (Nat.not_lt_zero j)
  have hrun : copyStrings ptr b.ptr a.ptr strs.length 0 0 mem₀ = some mem' := hrun
  rw [hrun] at hcopy
  obtain ⟨rfl, rfl⟩ := Prod.mk.inj (Option.some.inj hcopy)
  -- the stores go to the two blocks, first the strings and then the pointers
  have hout : ∀ x, x < b.ptr ∨ b.ptr + b.req ≤ x → x < a.ptr ∨ a.ptr + a.req ≤ x →
      mem' x = arrAlloc.heap.mem x := by
    intro x hx hx'
    rw [hframe x (by omega) (by omega), hclear x hx']
  have hnull : entry mem₀ a.ptr strs.length = 0 :=
    entry_zero fun k hk => if_pos ⟨by omega, by omega⟩
  refine ⟨b, a, ?_, rfl, by omega, by omega, hcopied, ?_, ?_, ?_⟩
  · set mid : Nat → UInt8 := fun x =>
      if b.ptr ≤ x ∧ x < b.ptr + b.req then mem' x else arrAlloc.heap.mem x with hmid
    have hok₃ := heapOk_store hok₂ (b := b) (by simp) mid fun x hx => if_neg (by omega)
    refine heapOk_store hok₃ (b := a) (by simp) mem' fun x hx => ?_
    show mem' x = mid x
    rw [hmid]
    dsimp only
    split
    · rfl
    · exact hout x (by omega) hx
  · rw [← hnull]
    exact entry_congr fun k hk => hframe _ (by omega) (by omega)
  · intro b' hb' i hi
    have h₁ := hdisj b' (List.mem_cons_of_mem b hb')
    have h₂ := hdisjb b' hb'
    show mem' (b'.ptr + i) = s.heap.mem (b'.ptr + i)
    rw [hout _ (by omega) (by omega), ← hkept₁ b' hb' i hi]
    exact hkept₂ b' (List.mem_cons_of_mem b hb') i hi
  · intro x hx
    show mem' x = s.heap.mem x
    rw [hout x (.inl (by omega)) (.inl (by omega)), huser₂ x hx]
    exact huser₁ x hx

end Levos.Kernel.Args
