import Levos.Base.Intervals
import Levos.Kernel.ArgsCopy

/-!
# The stack a program starts with (`kernel/binfmt_elf.c`)

`do_args_stack` pushes the strings, with the pointers in the kernel's arrays
turned to where each one went, then the pointers, then the four words `main`
is entered with. A step of it moves the stack pointer down and leaves what is
above alone (`Grown`), so that what was pushed is there at the end.
`args_round_trip` puts it together with `copy_array_from_user`.
-/

namespace Levos.Kernel.Args

open Levos.Base Levos.Lib Levos.Mm

/-! ## The function of the source -/

/-- The memory, and the variable `stack`. -/
abbrev ArgsState : Type := (Nat → UInt8) × Nat

/-- `for (n = 0; arr[n] != NULL; n ++)`. -/
def countPointers (mem : Nat → UInt8) (arr : Nat) : Nat → Nat → Option Nat
  | 0, _ => none
  | fuel + 1, n => if entry mem arr n = 0 then some n else countPointers mem arr fuel (n + 1)

/-- Pushing the first `i` strings of an array, the last one first. -/
def pushStrings (arr : Nat) : Nat → ArgsState → Option ArgsState
  | 0, st => some st
  | i + 1, (mem, stack) =>
      (strlen mem (entry mem arr i)).bind fun n =>
        let stack := u32Sub stack (n + 1)
        pushStrings arr i
          (put32 (memcpy mem stack (entry mem arr i) (n + 1)) (arr + 4 * i) stack, stack)

/-- `while (stack % 4 != 0)`; it ends after three rounds at most. -/
def alignStack : Nat → ArgsState → ArgsState
  | 0, st => st
  | rounds + 1, (mem, stack) =>
      if stack % 4 ≠ 0 then
        alignStack rounds (Function.update mem (u32Sub stack 1) 0, u32Sub stack 1)
      else (mem, stack)

/-- `*(uint32_t *)(stack -= 4) = v`. -/
def pushWord (st : ArgsState) (v : Nat) : ArgsState :=
  (put32 st.1 (u32Sub st.2 4) v, u32Sub st.2 4)

/-- Pushing the first `i` pointers of an array, the last one first. -/
def pushEntries (arr : Nat) : Nat → ArgsState → ArgsState
  | 0, st => st
  | i + 1, st => pushEntries arr i (pushWord st (entry st.1 arr i))

/-- `do_args_stack`. -/
def doArgsStack (mem : Nat → UInt8) (stack argvp envp : Nat) : Option ArgsState :=
  (countPointers mem envp (2 ^ 32) 0).bind fun envc =>
    (countPointers mem argvp (2 ^ 32) 0).bind fun argc =>
      (pushStrings envp envc (mem, stack)).bind fun st =>
        (pushStrings argvp argc (alignStack 3 st)).map fun st =>
          let st := pushEntries envp envc (pushWord (alignStack 3 st) 0)
          let envp := st.2
          let st := pushEntries argvp argc (pushWord st 0)
          let argvp := st.2
          pushWord (pushWord (pushWord (pushWord st envp) argvp) argc) 0xBADC0FEE

/-! ## What the program is to find -/

/-- The cells of an array of `n` pointers and the null pointer. -/
def cells (arr n : Nat) : List (Nat × Nat) :=
  (List.range (n + 1)).map fun i => (arr + 4 * i, 4)

/-- The strings of an array, as addresses with sizes. -/
def extents (mem : Nat → UInt8) (arr : Nat) (strs : List CString) : List (Nat × Nat) :=
  strs.mapIdx fun i s => (entry mem arr i, s.size)

/-- All that is on the stack: the return slot, `argc`, `argv` and `envp`, the
two arrays, and the strings. -/
def pieces (mem : Nat → UInt8) (sp : Nat) (argv envp : List CString) : List (Nat × Nat) :=
  [(sp, 4), (sp + 4, 4), (sp + 8, 4), (sp + 12, 4)] ++
    cells (le32 mem (sp + 8)) argv.length ++ cells (le32 mem (sp + 12)) envp.length ++
    extents mem (le32 mem (sp + 8)) argv ++ extents mem (le32 mem (sp + 12)) envp

/-- The stack of a program with these arguments. -/
structure StackHolds (mem : Nat → UInt8) (sp : Nat) (argv envp : List CString) : Prop where
  ret : le32 mem sp = 0xBADC0FEE
  argc : le32 mem (sp + 4) = argv.length
  argvArray : ArrayAt mem (le32 mem (sp + 8)) argv
  envpArray : ArrayAt mem (le32 mem (sp + 12)) envp
  aligned : sp % 4 = 0
  disjoint : (pieces mem sp argv envp).Pairwise fun p q => p.1 + p.2 ≤ q.1 ∨ q.1 + q.2 ≤ p.1
  below : ∀ p ∈ pieces mem sp argv envp, sp ≤ p.1 ∧ p.1 + p.2 ≤ virtBase

/-- The bytes that are pushed. -/
def argsSize (argv envp : List CString) : Nat :=
  (sizes envp + 3) / 4 * 4 + (sizes argv + 3) / 4 * 4 + 4 * (envp.length + 1) +
    4 * (argv.length + 1) + 16

/-! ## One step down -/

/-- A step of `do_args_stack`: the stack has grown, and what was on it is still
there. -/
structure Grown (st st' : ArgsState) : Prop where
  down : st'.2 ≤ st.2
  kept : ∀ a, st.2 ≤ a → a < virtBase → st'.1 a = st.1 a

theorem Grown.trans {st st' st'' : ArgsState} (h : Grown st st') (h' : Grown st' st'') :
    Grown st st'' :=
  ⟨h'.down.trans h.down, fun a ha hb => (h'.kept a (h.down.trans ha) hb).trans (h.kept a ha hb)⟩

theorem pushWord_stack (st : ArgsState) (v : Nat) (h : 4 ≤ st.2) (hw : st.2 < 2 ^ 32) :
    (pushWord st v).2 = st.2 - 4 := u32Sub_of_le h hw

theorem pushWord_of_ne {st : ArgsState} {v a : Nat} (h : 4 ≤ st.2) (hw : st.2 < 2 ^ 32)
    (ha : a < st.2 - 4 ∨ st.2 ≤ a) : (pushWord st v).1 a = st.1 a := by
  refine put32_of_ne ?_
  rw [u32Sub_of_le h hw]
  omega

theorem pushWord_read {st : ArgsState} {v : Nat} (hv : v < 2 ^ 32) :
    le32 (pushWord st v).1 (pushWord st v).2 = v := le32_put32 _ _ hv

/-- A word goes on the stack. -/
theorem pushWord_spec (st : ArgsState) {v : Nat} (hv : v < 2 ^ 32) (h : 4 ≤ st.2)
    (hw : st.2 < 2 ^ 32) :
    Grown st (pushWord st v) ∧ (pushWord st v).2 = st.2 - 4 ∧
      le32 (pushWord st v).1 (pushWord st v).2 = v := by
  have hstack := pushWord_stack st v h hw
  exact ⟨⟨by omega, fun _ ha _ => pushWord_of_ne h hw (.inr ha)⟩, hstack, pushWord_read hv⟩

theorem alignStack_spec (rounds : Nat) :
    ∀ (mem : Nat → UInt8) (stack : Nat), stack % 4 ≤ rounds → stack < 2 ^ 32 →
      (alignStack rounds (mem, stack)).2 = stack / 4 * 4 ∧
        ∀ a, a < stack / 4 * 4 ∨ stack ≤ a → (alignStack rounds (mem, stack)).1 a = mem a := by
  induction rounds with
  | zero =>
      intro mem stack hmod _
      exact ⟨by rw [alignStack]; omega, fun a _ => rfl⟩
  | succ rounds ih =>
      intro mem stack hmod hw
      rw [alignStack]
      split
      · have hdown : u32Sub stack 1 = stack - 1 := u32Sub_of_le (by omega) hw
        obtain ⟨hstack, hframe⟩ := ih (Function.update mem (u32Sub stack 1) 0) (u32Sub stack 1)
          (by omega) (by omega)
        refine ⟨by rw [hstack]; omega, fun a ha => ?_⟩
        rw [hframe a (by omega), Function.update_of_ne (by omega)]
      · exact ⟨by dsimp only; omega, fun _ _ => rfl⟩

theorem pushEntries_spec {arr : Nat} (harr : virtBase ≤ arr) (i : Nat) :
    ∀ st : ArgsState, 4 * i ≤ st.2 → st.2 ≤ virtBase →
      (pushEntries arr i st).2 = st.2 - 4 * i ∧
        (∀ j < i, entry (pushEntries arr i st).1 (st.2 - 4 * i) j = entry st.1 arr j) ∧
        ∀ a, a < st.2 - 4 * i ∨ st.2 ≤ a → (pushEntries arr i st).1 a = st.1 a := by
  induction i with
  | zero =>
      intro st _ _
      exact ⟨rfl, fun j hj => absurd hj (Nat.not_lt_zero j), fun _ _ => rfl⟩
  | succ i ih =>
      intro st hroom htop
      have hbase : virtBase < 2 ^ 32 := by decide
      have hstack := pushWord_stack st (entry st.1 arr i) (by omega) (by omega)
      set st₁ := pushWord st (entry st.1 arr i) with hst₁
      obtain ⟨hdown, hread, hframe⟩ := ih st₁ (by omega) (by omega)
      have hkeep : ∀ a, a < st.2 - 4 ∨ st.2 ≤ a → st₁.1 a = st.1 a :=
        fun a ha => pushWord_of_ne (by omega) (by omega) ha
      rw [pushEntries, ← hst₁]
      have hlow : st₁.2 - 4 * i = st.2 - 4 * (i + 1) := by omega
      rw [hlow] at hdown hread hframe
      refine ⟨hdown, fun j hj => ?_, fun a ha => ?_⟩
      · rcases Nat.lt_or_eq_of_le (Nat.le_of_lt_succ hj) with hlt | rfl
        · rw [hread j hlt]
          exact entry_congr fun k hk => hkeep _ (by omega)
        · have htopcell : entry (pushEntries arr j st₁).1 (st.2 - 4 * (j + 1)) j =
              le32 st₁.1 st₁.2 := by
            have hpos : st₁.2 = st.2 - 4 * (j + 1) + 4 * j := by omega
            rw [entry, ← hpos]
            exact le32_congr fun k hk => hframe _ (by omega)
          rw [htopcell]
          exact pushWord_read (le32_lt _ _)
      · rw [hframe a (by omega), hkeep a (by omega)]

theorem Grown.le32 {st st' : ArgsState} (h : Grown st st') {a : Nat} (ha : st.2 ≤ a)
    (hb : a + 4 ≤ virtBase) : le32 st'.1 a = le32 st.1 a :=
  le32_congr fun k hk => h.kept _ (by omega) (by omega)

theorem Grown.entry {st st' : ArgsState} (h : Grown st st') {arr i : Nat} (ha : st.2 ≤ arr)
    (hb : arr + 4 * (i + 1) ≤ virtBase) : entry st'.1 arr i = entry st.1 arr i :=
  h.le32 (by omega) (by omega)

theorem Grown.stringAt {st st' : ArgsState} (h : Grown st st') {p : Nat} {s : CString}
    (hs : StringAt st.1 p s) (hp : st.2 ≤ p) (hb : p + s.size ≤ virtBase) :
    StringAt st'.1 p s :=
  hs.congr fun k hk => h.kept _ (by omega) (by omega)

/-! ## Pushing the pointers -/

/-- The state after the strings, down to the end. -/
def pushRest (st : ArgsState) (argvp argc envp envc : Nat) : ArgsState :=
  let st := pushEntries envp envc (pushWord st 0)
  let envp := st.2
  let st := pushEntries argvp argc (pushWord st 0)
  let argvp := st.2
  pushWord (pushWord (pushWord (pushWord st envp) argvp) argc) 0xBADC0FEE

/-- A null pointer and the pointers before it, copied from an array of the
kernel. -/
theorem pushArray (st : ArgsState) {arr : Nat} (n : Nat) (harr : virtBase ≤ arr)
    (hroom : 4 * (n + 1) ≤ st.2) (htop : st.2 ≤ virtBase) :
    Grown st (pushEntries arr n (pushWord st 0)) ∧
      (pushEntries arr n (pushWord st 0)).2 = st.2 - 4 * (n + 1) ∧
      (∀ j < n, entry (pushEntries arr n (pushWord st 0)).1 (st.2 - 4 * (n + 1)) j =
        entry st.1 arr j) ∧
      entry (pushEntries arr n (pushWord st 0)).1 (st.2 - 4 * (n + 1)) n = 0 ∧
      ∀ a, virtBase ≤ a → (pushEntries arr n (pushWord st 0)).1 a = st.1 a := by
  have hbase : virtBase < 2 ^ 32 := by decide
  have hword := pushWord_stack st 0 (by omega) (by omega)
  have hkeep : ∀ a, a < st.2 - 4 ∨ st.2 ≤ a → (pushWord st 0).1 a = st.1 a :=
    fun a ha => pushWord_of_ne (by omega) (by omega) ha
  have hnull : le32 (pushWord st 0).1 (pushWord st 0).2 = 0 := pushWord_read (by omega)
  obtain ⟨hdown, hread, hframe⟩ := pushEntries_spec harr n (pushWord st 0) (by omega)
    (by omega)
  have hlow : (pushWord st 0).2 - 4 * n = st.2 - 4 * (n + 1) := by omega
  rw [hlow] at hdown hread hframe
  refine ⟨⟨by omega, fun a ha _ => ?_⟩, hdown, fun j hj => ?_, ?_, fun a ha => ?_⟩
  · rw [hframe a (by omega), hkeep a (by omega)]
  · rw [hread j hj]
    exact entry_congr fun k hk => hkeep _ (by omega)
  · refine Eq.trans ?_ hnull
    rw [Lib.entry, show st.2 - 4 * (n + 1) + 4 * n = (pushWord st 0).2 by omega]
    exact le32_congr fun k hk => hframe _ (by omega)
  · rw [hframe a (by omega), hkeep a (by omega)]

/-- The words below the strings. -/
structure RestPushed (st st' : ArgsState) (argvp argc envp envc : Nat) : Prop where
  grown : Grown st st'
  sp : st'.2 = st.2 - 4 * (envc + 1) - 4 * (argc + 1) - 16
  ret : le32 st'.1 st'.2 = 0xBADC0FEE
  count : le32 st'.1 (st'.2 + 4) = argc
  argvWord : le32 st'.1 (st'.2 + 8) = st'.2 + 16
  envpWord : le32 st'.1 (st'.2 + 12) = st'.2 + 16 + 4 * (argc + 1)
  argvEntry : ∀ j < argc, entry st'.1 (st'.2 + 16) j = entry st.1 argvp j
  argvNull : entry st'.1 (st'.2 + 16) argc = 0
  envpEntry : ∀ j < envc, entry st'.1 (st'.2 + 16 + 4 * (argc + 1)) j = entry st.1 envp j
  envpNull : entry st'.1 (st'.2 + 16 + 4 * (argc + 1)) envc = 0

theorem pushRest_spec (st : ArgsState) {argvp envp : Nat} (argc envc : Nat)
    (hargvp : virtBase ≤ argvp) (henvp : virtBase ≤ envp)
    (hroom : 4 * (envc + 1) + 4 * (argc + 1) + 16 ≤ st.2)
    (htop : st.2 ≤ virtBase) :
    RestPushed st (pushRest st argvp argc envp envc) argvp argc envp envc := by
  have hbase : virtBase < 2 ^ 32 := by decide
  obtain ⟨hgrown₁, hsp₁, hread₁, hnull₁, hkernel₁⟩ := pushArray st envc henvp (by omega) htop
  set st₁ := pushEntries envp envc (pushWord st 0) with hst₁
  obtain ⟨hgrown₂, hsp₂, hread₂, hnull₂, -⟩ := pushArray st₁ argc hargvp (by omega)
    (by omega)
  set st₂ := pushEntries argvp argc (pushWord st₁ 0) with hst₂
  obtain ⟨h₃, hsp₃, hread₃⟩ := pushWord_spec st₂ (v := st₁.2) (by omega) (by omega) (by omega)
  set st₃ := pushWord st₂ st₁.2 with hst₃
  obtain ⟨h₄, hsp₄, hread₄⟩ := pushWord_spec st₃ (v := st₂.2) (by omega) (by omega) (by omega)
  set st₄ := pushWord st₃ st₂.2 with hst₄
  obtain ⟨h₅, hsp₅, hread₅⟩ := pushWord_spec st₄ (v := argc) (by omega) (by omega) (by omega)
  set st₅ := pushWord st₄ argc with hst₅
  obtain ⟨h₆, hsp₆, hread₆⟩ := pushWord_spec st₅ (v := 0xBADC0FEE) (by decide) (by omega)
    (by omega)
  have hend : pushRest st argvp argc envp envc = pushWord st₅ 0xBADC0FEE := rfl
  rw [hend]
  set st₆ := pushWord st₅ 0xBADC0FEE with hst₆
  have hlast := h₅.trans h₆
  have hfour := h₄.trans hlast
  have htwo := h₃.trans hfour
  have hone := hgrown₂.trans htwo
  have e₂ : st₆.2 + 16 = st₁.2 - 4 * (argc + 1) := by omega
  have e₁ : st₆.2 + 16 + 4 * (argc + 1) = st.2 - 4 * (envc + 1) := by omega
  refine ⟨hgrown₁.trans hone, by omega, hread₆, ?_, ?_, ?_, ?_, ?_, ?_, ?_⟩
  · rw [← hread₅, show st₅.2 = st₆.2 + 4 by omega]
    exact h₆.le32 (by omega) (by omega)
  · rw [show st₆.2 + 8 = st₄.2 by omega, hlast.le32 le_rfl (by omega), hread₄]
    omega
  · rw [show st₆.2 + 12 = st₃.2 by omega, hfour.le32 le_rfl (by omega), hread₃]
    omega
  · intro j hj
    rw [e₂, htwo.entry (by omega) (by omega), hread₂ j hj]
    exact entry_congr fun k hk => hkernel₁ _ (by omega)
  · rw [e₂, htwo.entry (by omega) (by omega)]
    exact hnull₂
  · intro j hj
    rw [e₁, hone.entry (by omega) (by omega)]
    exact hread₁ j hj
  · rw [e₁, hone.entry (by omega) (by omega)]
    exact hnull₁

/-! ## Pushing the strings -/

/-- The first `i` strings are still where the kernel's array points, clear of
the cells of the array. -/
def Waiting (mem : Nat → UInt8) (arr : Nat) (strs : List CString) (i : Nat) : Prop :=
  ∀ j (h : j < strs.length), j < i → virtBase ≤ entry mem arr j ∧
    (entry mem arr j + strs[j].size ≤ arr ∨ arr + 4 * strs.length ≤ entry mem arr j) ∧
    StringAt mem (entry mem arr j) strs[j]

/-- The strings from `i` on are on the stack, packed above `base`, and the
array points there. -/
def Pushed (mem : Nat → UInt8) (base arr : Nat) (strs : List CString) (i : Nat) : Prop :=
  ∀ j (h : j < strs.length), i ≤ j →
    entry mem arr j = place base strs j ∧ StringAt mem (place base strs j) strs[j]

section
variable {base arr : Nat} {strs : List CString}

/-- The string `i` is pushed and its pointer turned. -/
theorem push_string (harr : virtBase ≤ arr) (htop : base + sizes strs ≤ virtBase)
    {mem : Nat → UInt8} {i : Nat} (hi : i < strs.length) (hwait : Waiting mem arr strs (i + 1))
    (hpushed : Pushed mem base arr strs (i + 1)) :
    Waiting (put32 (memcpy mem (place base strs i) (entry mem arr i) strs[i].size) (arr + 4 * i)
        (place base strs i)) arr strs i ∧
      Pushed (put32 (memcpy mem (place base strs i) (entry mem arr i) strs[i].size) (arr + 4 * i)
        (place base strs i)) base arr strs i := by
  have hbase : virtBase < 2 ^ 32 := by decide
  have hb := place_bounds base strs hi
  have hread : ∀ a, virtBase ≤ a → memcpy mem (place base strs i) (entry mem arr i)
      strs[i].size a = mem a := fun a ha => memcpy_of_out (by omega)
  have hentry : ∀ j, j ≠ i → entry (put32 (memcpy mem (place base strs i) (entry mem arr i)
      strs[i].size) (arr + 4 * i) (place base strs i)) arr j = entry mem arr j := by
    intro j hj
    rw [entry_put32_of_ne _ _ _ hj]
    exact entry_congr fun k hk => hread _ (by omega)
  constructor
  · intro j hj hlt
    obtain ⟨hhigh, hapart, hstr⟩ := hwait j hj (by omega)
    rw [hentry j hlt.ne]
    refine ⟨hhigh, hapart, hstr.congr fun k hk => ?_⟩
    rw [put32_of_ne (by omega), hread _ (by omega)]
  · intro j hj hle
    have hbj := place_bounds base strs hj
    rcases Nat.lt_or_eq_of_le hle with hlt | rfl
    · obtain ⟨hptr, hstr⟩ := hpushed j hj hlt
      have hend := place_end base strs hi hlt
      rw [hentry j hlt.ne']
      refine ⟨hptr, hstr.congr fun k hk => ?_⟩
      rw [put32_of_ne (by omega), memcpy_of_out (by omega)]
    · have hmoved : StringAt (memcpy mem (place base strs i) (entry mem arr i) strs[i].size)
          (place base strs i) strs[i] := (hwait i hi (Nat.lt_succ_self i)).2.2.memcpy
      refine ⟨entry_put32 _ _ _ (by omega), hmoved.congr fun k hk => put32_of_ne (by omega)⟩

theorem pushStrings_spec (harr : virtBase ≤ arr) (htop : base + sizes strs ≤ virtBase) (i : Nat) :
    ∀ {mem : Nat → UInt8}, i ≤ strs.length → Waiting mem arr strs i →
      Pushed mem base arr strs i →
      ∃ mem', pushStrings arr i (mem, place base strs i) = some (mem', base) ∧
        Pushed mem' base arr strs 0 ∧
        ∀ a, a < base ∨ base + sizes strs ≤ a → a < arr ∨ arr + 4 * strs.length ≤ a →
          mem' a = mem a := by
  induction i with
  | zero => exact fun {mem} _ _ hpushed => ⟨mem, rfl, hpushed, fun _ _ _ => rfl⟩
  | succ i ih =>
      intro mem hi hwait hpushed
      have hbase : virtBase < 2 ^ 32 := by decide
      have hb := place_bounds base strs hi
      have hnext := place_succ base strs hi
      have hsize : strs[i].size = strs[i].bytes.length + 1 := rfl
      obtain ⟨hwait₁, hpushed₁⟩ := push_string harr htop hi hwait hpushed
      have hstr := (hwait i hi (Nat.lt_succ_self i)).2.2
      obtain ⟨mem', hrun, hdone, hframe⟩ := ih (Nat.le_of_succ_le hi) hwait₁ hpushed₁
      have hdown : u32Sub (place base strs (i + 1)) strs[i].size = place base strs i := by
        rw [hnext, u32Sub_of_le (by omega) (by omega), Nat.add_sub_cancel]
      refine ⟨mem', ?_, hdone, fun a ha ha' => ?_⟩
      · rw [pushStrings, strlen_eq hstr (by omega), Option.bind_some]
        dsimp only
        rw [← hsize, hdown]
        exact hrun
      · rw [hframe a ha ha', put32_of_ne (by omega), memcpy_of_out (by omega)]

end

theorem countPointers_eq {mem : Nat → UInt8} {arr : Nat} {strs : List CString}
    (h : ArrayAt mem arr strs) :
    ∀ {fuel n : Nat}, n ≤ strs.length → strs.length < fuel + n →
      countPointers mem arr fuel n = some strs.length
  | 0, n, hn, hfuel => by omega
  | fuel + 1, n, hn, hfuel => by
      rw [countPointers]
      rcases Nat.lt_or_eq_of_le hn with hlt | rfl
      · rw [if_neg (h.string n hlt).1]
        exact countPointers_eq h (show n + 1 ≤ strs.length from hlt) (by omega)
      · rw [if_pos h.null]

/-! ## The pieces -/

theorem cells_laid (arr n : Nat) : Laid Prod.fst (fun p => p.1 + p.2) (cells arr n) ∧
    ∀ p ∈ cells arr n, arr ≤ p.1 ∧ p.1 + p.2 ≤ arr + 4 * (n + 1) := by
  constructor
  · rw [Laid, cells, List.pairwise_map]
    refine List.pairwise_lt_range.imp fun {i j} hlt => ?_
    dsimp only
    omega
  · intro p hp
    obtain ⟨i, hi, rfl⟩ := List.mem_map.mp hp
    have := List.mem_range.mp hi
    dsimp only
    omega

/-- Strings packed above `base`, where the array says. -/
theorem extents_laid {mem : Nat → UInt8} {base arr : Nat} {strs : List CString}
    (h : ∀ j < strs.length, entry mem arr j = place base strs j) :
    Laid Prod.fst (fun p => p.1 + p.2) (extents mem arr strs) ∧
      ∀ p ∈ extents mem arr strs, base ≤ p.1 ∧ p.1 + p.2 ≤ base + sizes strs := by
  constructor
  · rw [Laid, extents, List.pairwise_iff_getElem]
    intro i j hi hj hij
    rw [List.length_mapIdx] at hi hj
    simp only [List.getElem_mapIdx]
    rw [h i hi, h j hj]
    exact place_end base strs hi hij
  · intro p hp
    obtain ⟨i, hi, rfl⟩ := List.mem_mapIdx.mp hp
    dsimp only
    rw [h i hi]
    exact place_bounds base strs hi

/-- The pieces follow one another, from the return slot up. -/
theorem pieces_laid {mem : Nat → UInt8} {sp a₀ e₀ : Nat} {argv env : List CString}
    (hargv : le32 mem (sp + 8) = sp + 16)
    (henv : le32 mem (sp + 12) = sp + 16 + 4 * (argv.length + 1))
    (hargEntry : ∀ j < argv.length, entry mem (sp + 16) j = place a₀ argv j)
    (henvEntry : ∀ j < env.length,
      entry mem (sp + 16 + 4 * (argv.length + 1)) j = place e₀ env j)
    (ha : sp + 16 + 4 * (argv.length + 1) + 4 * (env.length + 1) ≤ a₀)
    (he : a₀ + sizes argv ≤ e₀) :
    Laid Prod.fst (fun p => p.1 + p.2) (pieces mem sp argv env) ∧
      ∀ p ∈ pieces mem sp argv env, sp ≤ p.1 ∧ p.1 + p.2 ≤ e₀ + sizes env := by
  rw [pieces, hargv, henv]
  have hslots : Laid Prod.fst (fun p => p.1 + p.2)
        [(sp, 4), (sp + 4, 4), (sp + 8, 4), (sp + 12, 4)] ∧
      ∀ p ∈ [(sp, 4), (sp + 4, 4), (sp + 8, 4), (sp + 12, 4)],
        sp ≤ p.1 ∧ p.1 + p.2 ≤ sp + 16 := by
    refine ⟨by simp [Laid], fun p hp => ?_⟩
    simp only [List.mem_cons, List.not_mem_nil, or_false] at hp
    rcases hp with rfl | rfl | rfl | rfl <;> dsimp only <;> omega
  -- each piece begins behind all that is in front of it
  have hargCells := laid_append hslots (cells_laid (sp + 16) argv.length)
    (by omega) le_rfl (by omega)
  have henvCells := laid_append hargCells
    (cells_laid (sp + 16 + 4 * (argv.length + 1)) env.length) (by omega) le_rfl (by omega)
  have hargStrs := laid_append henvCells (extents_laid hargEntry) (by omega) ha (by omega)
  exact laid_append hargStrs (extents_laid henvEntry) (by omega) he (by omega)

/-! ## The whole stack -/

/-- An array of the kernel, with the strings clear of its cells. -/
structure KernelArray (mem : Nat → UInt8) (arr : Nat) (strs : List CString) : Prop
    extends ArrayAt mem arr strs where
  above : virtBase ≤ arr
  waiting : Waiting mem arr strs strs.length

/-- Turning the pointers of one array leaves another one alone. -/
structure ClearOf (mem : Nat → UInt8) (arr : Nat) (strs : List CString) (other n : Nat) :
    Prop where
  cells : arr + 4 * (strs.length + 1) ≤ other ∨ other + 4 * n ≤ arr
  strings : ∀ j (h : j < strs.length),
    entry mem arr j + strs[j].size ≤ other ∨ other + 4 * n ≤ entry mem arr j

/-- The two rounds of strings with the alignment between them. -/
theorem strings_pushed {mem : Nat → UInt8} {argvp envp : Nat} {argv env : List CString}
    (hargv : KernelArray mem argvp argv) (henvp : KernelArray mem envp env)
    (hclear : ClearOf mem argvp argv envp env.length)
    (hfit : argsSize argv env ≤ virtBase) :
    ∃ m₁ m₃, pushStrings envp env.length (mem, virtBase) = some (m₁, virtBase - sizes env) ∧
      pushStrings argvp argv.length (alignStack 3 (m₁, virtBase - sizes env)) =
        some (m₃, (virtBase - sizes env) / 4 * 4 - sizes argv) ∧
      Pushed m₃ (virtBase - sizes env) envp env 0 ∧
      Pushed m₃ ((virtBase - sizes env) / 4 * 4 - sizes argv) argvp argv 0 := by
  have hbase : virtBase = 0xC0000000 := rfl
  rw [argsSize] at hfit
  set e₀ := virtBase - sizes env with he₀
  obtain ⟨m₁, hrun₁, hpushed₁, hframe₁⟩ := pushStrings_spec henvp.above
    (show e₀ + sizes env ≤ virtBase by omega) env.length le_rfl henvp.waiting
    fun j hj hle => absurd hj (by omega)
  rw [place_length, show e₀ + sizes env = virtBase by omega] at hrun₁
  obtain ⟨hstack₂, hframe₂⟩ := alignStack_spec 3 m₁ e₀ (by omega) (by omega)
  set st₂ := alignStack 3 (m₁, e₀) with hst₂
  have habove := hargv.above
  have hkernel : ∀ a, virtBase ≤ a → (a < envp ∨ envp + 4 * env.length ≤ a) →
      st₂.1 a = mem a := by
    intro a ha hout
    rw [hframe₂ a (by omega), hframe₁ a (by omega) hout]
  have hcells := hclear.cells
  have hentry : ∀ j < argv.length, entry st₂.1 argvp j = entry mem argvp j := by
    intro j hj
    exact entry_congr fun k hk => hkernel _ (by omega) (by omega)
  have hwait : Waiting st₂.1 argvp argv argv.length := by
    intro j hj hlt
    obtain ⟨hhigh, hapart, hstr⟩ := hargv.waiting j hj hlt
    have hout := hclear.strings j hj
    rw [hentry j hj]
    exact ⟨hhigh, hapart, hstr.congr fun k hk => hkernel _ (by omega) (by omega)⟩
  set a₀ := e₀ / 4 * 4 - sizes argv with ha₀
  obtain ⟨m₃, hrun₃, hpushed₃, hframe₃⟩ := pushStrings_spec hargv.above
    (show a₀ + sizes argv ≤ virtBase by omega) argv.length le_rfl hwait
    fun j hj hle => absurd hj (by omega)
  rw [place_length, show a₀ + sizes argv = st₂.2 by omega] at hrun₃
  refine ⟨m₁, m₃, hrun₁, hrun₃, ?_, hpushed₃⟩
  -- the environment stays above, and its array outside the other's cells
  intro j hj hle
  have hb := place_bounds e₀ env hj
  obtain ⟨hptr, hstr⟩ := hpushed₁ j hj hle
  have habove' := henvp.above
  constructor
  · rw [← hptr]
    refine entry_congr fun k hk => ?_
    rw [hframe₃ _ (by omega) (by omega), hframe₂ _ (by omega)]
  · refine hstr.congr fun k hk => ?_
    rw [hframe₃ _ (by omega) (by omega), hframe₂ _ (by omega)]

/-- **`do_args_stack`** from `VIRT_BASE`, on arrays of the kernel. -/
theorem doArgsStack_spec {mem : Nat → UInt8} {argvp envp : Nat} {argv env : List CString}
    (hargv : KernelArray mem argvp argv) (henvp : KernelArray mem envp env)
    (hclear : ClearOf mem argvp argv envp env.length)
    (hfit : argsSize argv env ≤ virtBase) :
    ∃ st, doArgsStack mem virtBase argvp envp = some st ∧
      st.2 = virtBase - argsSize argv env ∧ StackHolds st.1 st.2 argv env := by
  have hbase : virtBase = 0xC0000000 := rfl
  have hargc := length_le_sizes argv
  have henvc := length_le_sizes env
  obtain ⟨m₁, m₃, hrun₁, hrun₃, henvPushed, hargPushed⟩ := strings_pushed hargv henvp hclear hfit
  rw [argsSize] at hfit
  set e₀ := virtBase - sizes env with he₀
  set a₀ := e₀ / 4 * 4 - sizes argv with ha₀
  obtain ⟨hstack₄, hframe₄⟩ := alignStack_spec 3 m₃ a₀ (by omega) (by omega)
  have hgrown₄ : Grown (m₃, a₀) (alignStack 3 (m₃, a₀)) :=
    ⟨by rw [hstack₄]; dsimp only; omega, fun a ha _ => hframe₄ a (.inr ha)⟩
  set st₄ := alignStack 3 (m₃, a₀) with hst₄
  have hrest := pushRest_spec st₄ argv.length env.length hargv.above henvp.above (by omega)
    (by omega)
  set st := pushRest st₄ argvp argv.length envp env.length with hst
  have hgrown := hgrown₄.trans hrest.grown
  have hsp := hrest.sp
  have habove := hargv.above
  have habove' := henvp.above
  have hargEntry : ∀ j < argv.length, entry st.1 (st.2 + 16) j = place a₀ argv j := by
    intro j hj
    rw [hrest.argvEntry j hj, ← (hargPushed j hj (Nat.zero_le j)).1]
    exact entry_congr fun k hk => hframe₄ _ (by omega)
  have henvEntry : ∀ j < env.length,
      entry st.1 (st.2 + 16 + 4 * (argv.length + 1)) j = place e₀ env j := by
    intro j hj
    rw [hrest.envpEntry j hj, ← (henvPushed j hj (Nat.zero_le j)).1]
    exact entry_congr fun k hk => hframe₄ _ (by omega)
  have hpieces := pieces_laid hrest.argvWord hrest.envpWord hargEntry henvEntry (by omega)
    (by omega)
  refine ⟨st, ?_, by rw [argsSize]; omega, ?_⟩
  · rw [doArgsStack, countPointers_eq henvp.toArrayAt (Nat.zero_le _) (by omega),
      Option.bind_some, countPointers_eq hargv.toArrayAt (Nat.zero_le _) (by omega),
      Option.bind_some, hrun₁, Option.bind_some, hrun₃]
    rfl
  · constructor
    case ret => exact hrest.ret
    case argc => exact hrest.count
    case argvArray =>
      rw [hrest.argvWord]
      refine ⟨fun j hj => ?_, hrest.argvNull⟩
      have hb := place_bounds a₀ argv hj
      rw [hargEntry j hj]
      exact ⟨by omega, hgrown.stringAt (hargPushed j hj (Nat.zero_le j)).2 hb.1 (by omega)⟩
    case envpArray =>
      rw [hrest.envpWord]
      refine ⟨fun j hj => ?_, hrest.envpNull⟩
      have hb := place_bounds e₀ env hj
      rw [henvEntry j hj]
      refine ⟨by omega, hgrown.stringAt (henvPushed j hj (Nat.zero_le j)).2 ?_ (by omega)⟩
      dsimp only
      omega
    case aligned => omega
    case disjoint => exact hpieces.1.imp fun h => .inl h
    case below =>
      intro p hp
      have := hpieces.2 p hp
      omega

/-! ## The round trip -/

/-- In a memory that still has the bytes of its two blocks, a copy is an array
of the kernel. -/
theorem CopyMade.kernelArray {s : HeapState} {strs : List CString} {arr : Nat} {h' : Liballoc}
    {b a : HeapBlock} (hm : CopyMade s strs arr h' b a) {mem : Nat → UInt8}
    (hb : ∀ i < b.req, mem (b.ptr + i) = h'.mem (b.ptr + i))
    (ha : ∀ i < a.req, mem (a.ptr + i) = h'.mem (a.ptr + i)) :
    KernelArray mem arr strs ∧ ∀ j < strs.length, entry mem arr j = place b.ptr strs j := by
  have hstart : virtBase ≤ heapStart := by decide
  have hbounds := heapOk_bounds hm.ok (b := b) (by simp)
  have habounds := heapOk_bounds hm.ok (b := a) (by simp)
  have hdisj := (List.pairwise_cons.mp hm.ok.sound.disjoint).1 b List.mem_cons_self
  have hptr := hm.ptr
  have hpointers := hm.pointers
  have hstrings := hm.strings
  have hread : ∀ j ≤ strs.length, entry mem arr j = entry h'.mem arr j := by
    intro j hj
    refine entry_congr fun k hk => ?_
    rw [← hptr, Nat.add_assoc]
    exact ha _ (by omega)
  have hentry : ∀ j < strs.length, entry mem arr j = place b.ptr strs j := by
    intro j hj
    rw [hread j hj.le]
    exact (hm.copied j hj hj).1
  have hstr : ∀ j (hj : j < strs.length), StringAt mem (place b.ptr strs j) strs[j] := by
    intro j hj
    have hp := place_bounds b.ptr strs hj
    refine (hm.copied j hj hj).2.congr fun k hk => ?_
    rw [show place b.ptr strs j + k = b.ptr + (place b.ptr strs j - b.ptr + k) by omega]
    exact hb _ (by omega)
  refine ⟨⟨⟨fun j hj => ?_, ?_⟩, by omega, fun j hj _ => ?_⟩, hentry⟩
  · have hp := place_bounds b.ptr strs hj
    have hpos : virtBase = 0xC0000000 := rfl
    rw [hentry j hj]
    exact ⟨by omega, hstr j hj⟩
  · rw [hread _ le_rfl]
    exact hm.null
  · have hp := place_bounds b.ptr strs hj
    rw [hentry j hj]
    exact ⟨by omega, by omega, hstr j hj⟩

/-- **Argument passing.** Whatever the two arrays of strings, if they fit the
stack and the copies were made, then `do_args_stack` from `VIRT_BASE` makes a
stack with the same strings, in any memory that still has the four blocks. -/
theorem args_round_trip {s : HeapState} (hs : HeapOk s) {uArgv uEnvp : Nat}
    {argv envp : List CString} (hargv : ArrayBelow s.heap.mem virtBase uArgv argv)
    (henvp : ArrayBelow s.heap.mem virtBase uEnvp envp)
    (hfit : argsSize argv envp ≤ virtBase - stackVma.start)
    {junk₁ junk₂ junk₃ junk₄ : Nat → UInt8} {argvp envpp : Nat} {h₁ h₂ : Liballoc}
    (hcopyArgv : copyArrayFromUser junk₁ junk₂ s.heap uArgv = some (argvp, h₁))
    (hcopyEnvp : copyArrayFromUser junk₃ junk₄ h₁ uEnvp = some (envpp, h₂)) :
    ∃ blocks, HeapOk ⟨h₂, blocks ++ s.live⟩ ∧
      ∀ mem, (∀ b ∈ blocks, ∀ i < b.req, mem (b.ptr + i) = h₂.mem (b.ptr + i)) →
        ∃ st, doArgsStack mem virtBase argvp envpp = some st ∧ stackVma.start ≤ st.2 ∧
          StackHolds st.1 st.2 argv envp := by
  have hroom : virtBase - stackVma.start = 4096000 := by decide
  have hstart : virtBase ≤ heapStart := by decide
  have hsum := hfit
  rw [hroom, argsSize] at hsum
  have hlift : ∀ {mem : Nat → UInt8} {ptr : Nat} {strs : List CString},
      ArrayBelow mem virtBase ptr strs → ArrayBelow mem heapStart ptr strs :=
    fun h => ⟨h.toArrayAt, h.cells.trans hstart, fun i hi => (h.ends i hi).trans hstart⟩
  obtain ⟨b₁, a₁, hmade₁⟩ := copyArrayFromUser_spec hs (hlift hargv) (by omega) hcopyArgv
  have henvp₁ : ArrayBelow h₁.mem heapStart uEnvp envp := (hlift henvp).congr hmade₁.user
  obtain ⟨b₂, a₂, hmade₂⟩ := copyArrayFromUser_spec (s := ⟨h₁, a₁ :: b₁ :: s.live⟩) hmade₁.ok
    henvp₁ (by omega) hcopyEnvp
  refine ⟨[a₂, b₂, a₁, b₁], hmade₂.ok, fun mem hkept => ?_⟩
  simp only [List.mem_cons, List.not_mem_nil, or_false, forall_eq_or_imp, forall_eq] at hkept
  obtain ⟨ha₂, hb₂, ha₁, hb₁⟩ := hkept
  obtain ⟨hkernel₁, hentry₁⟩ := hmade₁.kernelArray
    (fun i hi => (hb₁ i hi).trans (hmade₂.kept b₁ (by simp) i hi))
    (fun i hi => (ha₁ i hi).trans (hmade₂.kept a₁ (by simp) i hi))
  obtain ⟨hkernel₂, -⟩ := hmade₂.kernelArray hb₂ ha₂
  have hdisj := (List.pairwise_cons.mp hmade₂.ok.sound.disjoint).1
  have haa := hdisj a₁ (by simp)
  have hab := hdisj b₁ (by simp)
  have hclear : ClearOf mem argvp argv envpp envp.length := by
    rw [← hmade₁.ptr, ← hmade₂.ptr]
    have hp₁ := hmade₁.pointers
    have hp₂ := hmade₂.pointers
    refine ⟨by omega, fun j hj => ?_⟩
    have hp := place_bounds b₁.ptr argv hj
    have hstrings := hmade₁.strings
    rw [hmade₁.ptr, hentry₁ j hj]
    omega
  obtain ⟨st, hrun, hsp, hholds⟩ := doArgsStack_spec hkernel₁ hkernel₂ hclear (by omega)
  refine ⟨st, hrun, ?_, hholds⟩
  rw [hsp]
  omega

/-- User memory with a pointer to "a" at 0x1000 and null pointers behind it. -/
def oneArgument : Nat → UInt8 := fun a =>
  if a = 0x1001 then 0x20 else if a = 0x2000 then 0x61 else 0

def letterA : CString := ⟨[0x61], by simp⟩

theorem args_round_trip_one : ∃ argvp envpp h₁ h₂ st,
    copyArrayFromUser (fun _ => 1) (fun _ => 2) (heapInit oneArgument).heap 0x1000 =
        some (argvp, h₁) ∧
      copyArrayFromUser (fun _ => 3) (fun _ => 4) h₁ 0x1004 = some (envpp, h₂) ∧
      doArgsStack h₂.mem virtBase argvp envpp = some st ∧ StackHolds st.1 st.2 [letterA] [] := by
  obtain ⟨⟨envpp, h₂⟩, hboth⟩ := Option.isSome_iff_exists.mp
    (show ((copyArrayFromUser (fun _ => 1) (fun _ => 2) (heapInit oneArgument).heap 0x1000).bind
      fun r => copyArrayFromUser (fun _ => 3) (fun _ => 4) r.2 0x1004).isSome by decide +kernel)
  obtain ⟨⟨argvp, h₁⟩, hargv, henvp⟩ := Option.bind_eq_some_iff.mp hboth
  have hentry : entry oneArgument 0x1000 0 = 0x2000 := by decide
  have huser : ArrayBelow oneArgument virtBase 0x1000 [letterA] := by
    refine ⟨⟨fun i hi => ?_, by decide⟩, by decide, fun i hi => ?_⟩
    · obtain rfl : i = 0 := by simpa using hi
      rw [hentry]
      refine ⟨by decide, fun k hk => ?_⟩
      have hk : k < 2 := hk
      interval_cases k <;> rfl
    · obtain rfl : i = 0 := by simpa using hi
      rw [hentry]
      show 0x2000 + letterA.size ≤ virtBase
      decide
  have hempty : ArrayBelow oneArgument virtBase 0x1004 [] :=
    ⟨⟨fun i hi => absurd hi (Nat.not_lt_zero i), by decide⟩, by decide,
      fun i hi => absurd hi (Nat.not_lt_zero i)⟩
  obtain ⟨blocks, -, hstack⟩ := args_round_trip (heapInit_ok oneArgument) huser hempty
    (by decide) hargv henvp
  obtain ⟨st, hrun, -, hholds⟩ := hstack h₂.mem fun _ _ _ _ => rfl
  exact ⟨argvp, envpp, h₁, h₂, st, hargv, henvp, hrun, hholds⟩

end Levos.Kernel.Args
