import Levos.Kernel.Sbrk

/-!
# The bounds of the program break (`kernel/syscall.c`)

`load_elf` reserves 128 MiB from `base_brk` on for the break. `sys_sbrk` looks
at neither bound: it moves `logical_brk` by every increment but 0, and its
`-ENOMEM` is behind the last `return`. `break_safe_iff` says which sequences of
calls stay in the area all the same.
-/

namespace Levos.Kernel

open Levos.Base Levos.Mm

variable (A : Allocators) (fault : FaultOutcome)

/-- A call, with an increment of either sign. -/
def brkStep (t : Program) (incr : BitVec 32) : Option Program :=
  (sysSbrk A fault t incr.toInt).map Prod.snd

/-! ## Requests -/

/-- Where the break goes, before it wraps around: behind the mapped pages, the
block begins at a page. -/
def askedBreak (t : Program) (incr : Int) : Int :=
  if 0 < incr ∧ t.actualBrk ≤ u32 (t.logicalBrk + incr.toNat) then
    (((t.logicalBrk + 4095) / 4096 * 4096 : Nat) : Int) + incr
  else t.logicalBrk + incr

/-- The break is in the area that `load_elf` reserves. -/
def Bounded (t : Program) : Prop :=
  t.baseBrk ≤ t.logicalBrk ∧ t.logicalBrk ≤ t.baseBrk + 128 * 1024 * 1024

/-- The request asks for a break in the area, and in the address space. -/
def InRange (t : Program) (incr : BitVec 32) : Prop :=
  t.baseBrk ≤ askedBreak t incr.toInt ∧
    askedBreak t incr.toInt ≤ t.baseBrk + 128 * 1024 * 1024 ∧ askedBreak t incr.toInt < 2 ^ 32

instance (t : Program) (incr : BitVec 32) : Decidable (InRange t incr) :=
  inferInstanceAs (Decidable (_ ∧ _))

/-- The call returns an error, and changes nothing. -/
def Refused (t : Program) (incr : BitVec 32) : Prop :=
  ∃ ret, sysSbrk A fault t incr.toInt = some (ret, t) ∧ -4095 ≤ i32 ret ∧ i32 ret < 0

/-- Over a sequence of calls, the break stays in its area and the requests that
would leave it are refused. -/
def BreakSafe (t : Program) (incrs : List (BitVec 32)) : Prop :=
  RunRight (brkStep A fault) Bounded (fun t incr => ¬InRange t incr → Refused A fault t incr) t
    incrs

/-! ## One call -/

variable {A} {fault}

/-- The loop moves `actual_brk` only. -/
theorem growActual_keeps {fuel : Nat} : ∀ {t t' : Program}, growActual A fuel t = some t' →
    t'.baseBrk = t.baseBrk ∧ t'.logicalBrk = t.logicalBrk := by
  induction fuel with
  | zero =>
      intro t t' h
      cases h
  | succ fuel ih =>
      intro t t' h
      rw [growActual] at h
      split at h
      · obtain ⟨t₁, hpage, h⟩ := Option.bind_eq_some_iff.mp h
        obtain ⟨phys, -, hpage⟩ := Option.bind_eq_some_iff.mp hpage
        obtain ⟨mem, -, rfl⟩ := Option.map_eq_some_iff.mp hpage
        exact ih (t := { t with mem := mem, actualBrk := u32 (t.actualBrk + 0x1000) }) h
      · obtain rfl := Option.some.inj h
        exact ⟨rfl, rfl⟩

/-- **What a call does to the break**: it moves it to where it is asked to, as
a word. -/
theorem sysSbrk_break {t t' : Program} {incr : Int} {ret : Nat} (hword : t.logicalBrk < 2 ^ 32)
    (hlo : -2 ^ 31 ≤ incr) (hhi : incr < 2 ^ 31) (h : sysSbrk A fault t incr = some (ret, t')) :
    t'.baseBrk = t.baseBrk ∧ (t'.logicalBrk : Int) = askedBreak t incr % 2 ^ 32 := by
  unfold sysSbrk at h
  unfold askedBreak
  split at h
  · obtain ⟨-, rfl⟩ := Prod.mk.inj (Option.some.inj h)
    refine ⟨rfl, ?_⟩
    rw [if_neg (by omega)]
    omega
  · rename_i hne
    split at h
    · cases h
    · split at h
      · rename_i hneg
        obtain ⟨-, rfl⟩ := Prod.mk.inj (Option.some.inj h)
        refine ⟨rfl, ?_⟩
        rw [if_neg (by omega)]
        show ((u32Sub t.logicalBrk (-incr).toNat : Nat) : Int) = _
        rw [u32Sub]
        omega
      · rename_i hpos
        split at h
        · rename_i hfast
          obtain ⟨mem, -, heq⟩ := Option.map_eq_some_iff.mp h
          obtain ⟨-, rfl⟩ := Prod.mk.inj heq
          refine ⟨rfl, ?_⟩
          rw [if_neg (by omega)]
          show ((u32 (t.logicalBrk + incr.toNat) : Nat) : Int) = _
          rw [u32]
          omega
        · rename_i hslow
          obtain ⟨t₁, hgrow, h⟩ := Option.bind_eq_some_iff.mp h
          obtain ⟨mem, -, heq⟩ := Option.map_eq_some_iff.mp h
          obtain ⟨-, rfl⟩ := Prod.mk.inj heq
          obtain ⟨hbase, hlogical⟩ := growActual_keeps hgrow
          refine ⟨hbase, ?_⟩
          rw [if_pos ⟨by omega, not_lt.mp hslow⟩]
          show (t₁.logicalBrk : Int) = _
          rw [hlogical]
          show ((u32 (t.logicalBrk +
            (u32Sub (pgRndUp t.logicalBrk) t.logicalBrk + incr.toNat)) : Nat) : Int) = _
          rw [u32, u32Sub, pgRndUp, u32]
          omega

/-- A request that is not 0 moves the break. -/
theorem askedBreak_moves {t : Program} {incr : Int} (hlo : -2 ^ 31 ≤ incr)
    (hhi : incr < 2 ^ 31) (hne : incr ≠ 0) :
    askedBreak t incr % 2 ^ 32 ≠ t.logicalBrk := by
  unfold askedBreak
  split
  · omega
  · omega

/-- The break is in its area, and a word. -/
def BrkOk (t : Program) : Prop := Bounded t ∧ t.logicalBrk < 2 ^ 32

/-- No request that would leave the area is refused. -/
theorem refused_inRange {t : Program} {incr : BitVec 32} (ht : BrkOk t)
    (h : Refused A fault t incr) : InRange t incr := by
  obtain ⟨ret, hcall, -⟩ := h
  have hlo := BitVec.le_toInt incr
  have hhi := BitVec.toInt_lt (x := incr)
  have hsame := (sysSbrk_break ht.2 hlo hhi hcall).2
  have hzero : incr.toInt = 0 := by
    by_contra hne
    exact askedBreak_moves hlo hhi hne hsame.symm
  have hasked : askedBreak t incr.toInt = t.logicalBrk := by
    rw [hzero, askedBreak, if_neg (by omega), Int.add_zero]
  obtain ⟨⟨hbase, harea⟩, hword⟩ := ht
  rw [InRange, hasked]
  omega

theorem brkStep_brkOk {t t' : Program} {incr : BitVec 32} (ht : BrkOk t) (hin : InRange t incr)
    (h : brkStep A fault t incr = some t') : BrkOk t' := by
  obtain ⟨⟨ret, t₁⟩, hcall, rfl⟩ := Option.map_eq_some_iff.mp h
  obtain ⟨hbase, hbreak⟩ :=
    sysSbrk_break ht.2 (BitVec.le_toInt incr) (BitVec.toInt_lt (x := incr)) hcall
  obtain ⟨hlo, harea, hword⟩ := hin
  rw [Int.emod_eq_of_lt (by omega) hword] at hbreak
  show (t₁.baseBrk ≤ t₁.logicalBrk ∧ t₁.logicalBrk ≤ t₁.baseBrk + 128 * 1024 * 1024) ∧
    t₁.logicalBrk < 2 ^ 32
  omega

/-! ## Runs -/

theorem setBrk_brkOk (t : Program) (lastPage : Nat) : BrkOk (setBrk t lastPage) := by
  have hword : pgRndUp lastPage < 2 ^ 32 := by
    have := u32_lt (lastPage + 4095)
    rw [pgRndUp]
    omega
  exact ⟨⟨le_rfl, Nat.le_add_right _ _⟩, hword⟩

variable (A) (fault)

/-- **Bounds of the break.** From `load_elf` on, the break stays in its area,
with every other request refused, exactly when there is no other request. -/
theorem break_safe_iff (t : Program) (lastPage : Nat) (incrs : List (BitVec 32)) :
    BreakSafe A fault (setBrk t lastPage) incrs ↔
      StepsMeet (brkStep A fault) InRange (setBrk t lastPage) incrs := by
  refine runRight_iff_stepsMeet (J := BrkOk) (fun _ ht => ht.1) ?_ ?_ (setBrk_brkOk t lastPage)
  · intro t incr ht hin
    exact ⟨fun hout => absurd hin hout, fun t' => brkStep_brkOk ht hin⟩
  · intro t incr ht hrefused _
    by_contra hout
    exact hout (refused_inRange ht (hrefused hout))

/-- A program gives back a page it does not have: the break goes below its
area, and the call returns the old one. -/
theorem break_safe_shrink :
    ¬BreakSafe firstFit noReturn (setBrk bootProgram 0x804F123) [-4096] := by
  intro h
  have hrun : runSteps (brkStep firstFit noReturn) (setBrk bootProgram 0x804F123) [-4096] =
      some { setBrk bootProgram 0x804F123 with logicalBrk := 0x804F000 } := rfl
  have hbounded := (h.states _ _ List.prefix_rfl hrun).1
  revert hbounded
  decide

end Levos.Kernel
