import Levos.Base.Run
import Levos.Mm.Directories

/-!
# The program break (`kernel/syscall.c`, `kernel/binfmt_elf.c`)

`sys_sbrk` keeps two pointers: the next block begins at `logical_brk`, and the
pages are mapped up to `actual_brk`. A block that ends inside the last page is
handed out at once; for another one `logical_brk` is rounded up to a page and
pages are mapped behind `actual_brk` until the block fits.

`sbrk_growth` says what a program gets from a sequence of calls that grow the
break: blocks one behind the other, mapped and cleared.
-/

namespace Levos.Kernel

open Levos.Base Levos.Mm

variable (A : Allocators)

/-! ## The functions of the source -/

/-- What `sys_sbrk` works on: the memory, `current_task->mm`, and the break
pointers in `bstate`. -/
structure Program where
  mem : Memory
  mm : BitVec 32
  baseBrk : Nat
  logicalBrk : Nat
  actualBrk : Nat

/-- `load_elf`, where it sets the break pointers. -/
def setBrk (t : Program) (lastPage : Nat) : Program :=
  { t with
    actualBrk := pgRndUp lastPage, logicalBrk := pgRndUp lastPage, baseBrk := pgRndUp lastPage }

/-- What a page fault at the store of a byte leads to: the memory after the
store, or no return. -/
abbrev FaultOutcome : Type := Memory → BitVec 32 → Nat → Option Memory

/-- `memset(addr, 0, n)` by the kernel, on user memory. -/
def memsetZero (fault : FaultOutcome) (mm : BitVec 32) : Nat → Nat → Memory → Option Memory
  | _, 0, s => some s
  | addr, n + 1, s =>
      match walk s mm (.kernel false) true addr with
      | some f => memsetZero fault mm (u32 (addr + 1)) n (pokeFrame s f (addr % 4096) 0)
      | none => (fault s mm addr).bind (memsetZero fault mm (u32 (addr + 1)) n)

/-- One round of the loop of `sys_sbrk`. -/
def growPage (t : Program) : Option Program :=
  (A.palloc t.mem).bind fun phys =>
    (mapPage A t.mem t.mm phys t.actualBrk 1).map fun mem =>
      { t with mem := mem, actualBrk := u32 (t.actualBrk + 0x1000) }

/-- The loop; `none` also where it has not ended after `fuel` rounds. -/
def growActual : Nat → Program → Option Program
  | 0, _ => none
  | fuel + 1, t =>
      if t.logicalBrk > t.actualBrk then (growPage A t).bind (growActual fuel) else some t

/-- More rounds than there are pages. -/
def brkRounds : Nat := 2 ^ 20 + 1

/-- `sys_sbrk`: what it returns, as a word, and the program after it. There is
no result where it panics. -/
def sysSbrk (fault : FaultOutcome) (t : Program) (incr : Int) : Option (Nat × Program) :=
  if incr = 0 then some (t.logicalBrk, t)
  else if incr = 0x37214000 then none
  else if incr < 0 then
    some (t.logicalBrk, { t with logicalBrk := u32Sub t.logicalBrk (-incr).toNat })
  else if u32 (t.logicalBrk + incr.toNat) < t.actualBrk then
    (memsetZero fault t.mm t.logicalBrk incr.toNat t.mem).map fun mem =>
      (t.logicalBrk, { t with mem := mem, logicalBrk := u32 (t.logicalBrk + incr.toNat) })
  else
    let ret := pgRndUp t.logicalBrk
    let logical := u32 (t.logicalBrk + (u32Sub ret t.logicalBrk + incr.toNat))
    (growActual A brkRounds { t with logicalBrk := logical }).bind fun t =>
      (memsetZero fault t.mm ret incr.toNat t.mem).map fun mem => (ret, { t with mem := mem })

/-! ## Calls that grow the break -/

/-- A program, and the blocks it got, as addresses and lengths, the last one
first. -/
structure SbrkRun where
  prog : Program
  blocks : List (Nat × Nat)

/-- The new break stays in the address space. -/
def NoWrap (t : Program) (incr : Nat) : Prop :=
  t.logicalBrk + incr < t.actualBrk ∨ (t.logicalBrk + 4095) / 4096 * 4096 + incr < 2 ^ 32

instance (t : Program) (incr : Nat) : Decidable (NoWrap t incr) :=
  inferInstanceAs (Decidable (_ ∨ _))

/-- A call with a positive increment. -/
def sbrkStep (fault : FaultOutcome) (r : SbrkRun) (incr : BitVec 32) : Option SbrkRun :=
  if 0 < incr.toInt ∧ NoWrap r.prog incr.toInt.toNat then
    (sysSbrk A fault r.prog incr.toInt).map fun res =>
      ⟨res.2, (res.1, incr.toInt.toNat) :: r.blocks⟩
  else none

/-- The pages that the rounds of the loop ask for are there. -/
def PagesLeft : Nat → Program → Prop
  | 0, _ => True
  | fuel + 1, t => t.actualBrk < t.logicalBrk →
      (A.palloc t.mem).isSome ∧
      (t.mem.heap t.mm (pdeIndex t.actualBrk) = 0 → (A.naMalloc t.mem).isSome) ∧
      ∀ t', growPage A t = some t' → PagesLeft fuel t'

/-- A call that has to succeed: the increment is positive and not the one
`sys_sbrk` panics on, and the block fits in the mapped pages, or there are pages
to map and `actual_brk` can lie behind the last one. -/
structure Serviceable (t : Program) (incr : BitVec 32) : Prop where
  pos : 0 < incr.toInt
  allowed : incr.toInt ≠ 0x37214000
  room : t.logicalBrk + incr.toInt.toNat < t.actualBrk ∨
    (t.logicalBrk + 4095) / 4096 * 4096 + incr.toInt.toNat ≤ 2 ^ 32 - 4096 ∧
    PagesLeft A brkRounds
      { t with logicalBrk := (t.logicalBrk + 4095) / 4096 * 4096 + incr.toInt.toNat }

/-- What the kernel reads at an address of the program. -/
def byteAt (s : Memory) (mm : BitVec 32) (a : Nat) : Option UInt8 :=
  (walk s mm (.kernel false) false a).map fun f => s.frames f (a % 4096)

/-- The blocks lie one behind the other in the mapped pages from `base` on, and
the last one is all zeros. -/
structure SbrkSound (base : Nat) (r : SbrkRun) : Prop where
  base : r.prog.baseBrk = base
  aligned : r.prog.actualBrk % 4096 = 0
  le : r.prog.logicalBrk ≤ r.prog.actualBrk
  increasing : r.blocks.Pairwise fun b b' => b'.1 + b'.2 ≤ b.1
  inside : ∀ b ∈ r.blocks, r.prog.baseBrk ≤ b.1 ∧ b.1 + b.2 ≤ r.prog.actualBrk
  mapped : ∀ a, r.prog.baseBrk ≤ a → a < r.prog.actualBrk →
    pageMapped r.prog.mem r.prog.mm a = true ∧ (byteAt r.prog.mem r.prog.mm a).isSome
  zero : ∀ b ∈ r.blocks.head?, ∀ a, b.1 ≤ a → a < b.1 + b.2 →
    byteAt r.prog.mem r.prog.mm a = some 0

/-! ## Translation -/

theorem walk_congr_heap {s s' : Memory} (h : s'.heap = s.heap) (pgd : BitVec 32) (mode : Mode)
    (write : Bool) (a : Nat) : walk s' pgd mode write a = walk s pgd mode write a := by
  unfold walk
  rw [h]

theorem walk_congr_page (s : Memory) (pgd : BitVec 32) (mode : Mode) (write : Bool) {a b : Nat}
    (h : a / 4096 = b / 4096) : walk s pgd mode write a = walk s pgd mode write b := by
  unfold walk
  rw [pdeIndex_eq, pdeIndex_eq, pteIndex, pteIndex, h]

theorem entryAllows_read {p : PageEntry} (h : entryAllows (.kernel false) true p = true) :
    entryAllows (.kernel false) false p = true := by
  unfold entryAllows at h ⊢
  simp only [Bool.not_true, Bool.false_or, Bool.and_eq_true] at h
  simp [h.1.1]

/-- What may be written may be read. -/
theorem walk_read {s : Memory} {pgd f : BitVec 32} {a : Nat}
    (h : walk s pgd (.kernel false) true a = some f) :
    walk s pgd (.kernel false) false a = some f := by
  rw [walk_eq] at h ⊢
  split at h
  · rename_i hboth
    obtain ⟨hdir, hentry⟩ := (Bool.and_eq_true _ _).mp hboth
    rw [entryAllows_read hdir, entryAllows_read hentry]
    exact h
  · cases h

/-- A page that can be written to is one `page_mapped` reports. -/
theorem pageMapped_of_walk {s : Memory} {pgd f : BitVec 32} {a : Nat} {mode : Mode} {write : Bool}
    (h : walk s pgd mode write a = some f) : pageMapped s pgd a = true := by
  rw [walk_eq] at h
  split at h
  · rename_i hboth
    have hentry := ((Bool.and_eq_true _ _).mp hboth).2
    rw [pageMapped_eq, decide_eq_true_eq]
    intro hzero
    rw [hzero, entryAllows_zero] at hentry
    cases hentry
  · cases h

/-! ## memset -/

/-- Where all pages are mapped writable, `memset` clears its bytes and leaves
the tables as they are. -/
theorem memsetZero_spec (fault : FaultOutcome) (mm : BitVec 32) {n : Nat} :
    ∀ {p : Nat} {s : Memory}, p + n < 2 ^ 32 →
    (∀ a, p ≤ a → a < p + n → (walk s mm (.kernel false) true a).isSome) →
    ∃ s', memsetZero fault mm p n s = some s' ∧ s'.heap = s.heap ∧ s'.heapUsed = s.heapUsed ∧
      (∀ f off, s.frames f off = 0 → s'.frames f off = 0) ∧
      ∀ a, p ≤ a → a < p + n → byteAt s' mm a = some 0 := by
  induction n with
  | zero =>
      intro p s _ _
      exact ⟨s, rfl, rfl, rfl, fun _ _ h => h, fun a hle hlt => absurd hlt (by omega)⟩
  | succ n ih =>
      intro p s hend hmapped
      obtain ⟨f, hf⟩ := Option.isSome_iff_exists.mp (hmapped p le_rfl (by omega))
      have hrest : ∀ a, p + 1 ≤ a → a < p + 1 + n →
          (walk (pokeFrame s f (p % 4096) 0) mm (.kernel false) true a).isSome := by
        intro a hle hlt
        have hsame : walk (pokeFrame s f (p % 4096) 0) mm (.kernel false) true a =
            walk s mm (.kernel false) true a := walk_congr_heap rfl ..
        rw [hsame]
        exact hmapped a (by omega) (by omega)
      obtain ⟨s', hrun, hheap, hused, hkeep, hzero⟩ := ih (by omega) hrest
      have hpoked : (pokeFrame s f (p % 4096) 0).frames f (p % 4096) = 0 := by
        simp [pokeFrame]
      refine ⟨s', ?_, hheap, hused, ?_, ?_⟩
      · rw [memsetZero, hf, u32_of_lt (by omega)]
        exact hrun
      · intro g off hold
        apply hkeep
        by_cases hg : g = f
        · by_cases hoff : off = p % 4096
          · rw [hg, hoff]
            exact hpoked
          · simp [pokeFrame, hg, hoff, ← hold]
        · simp [pokeFrame, hg, hold]
      · intro a hle hlt
        rcases Nat.eq_or_lt_of_le hle with rfl | hlt'
        · have hwalk : walk s' mm (.kernel false) false p = some f := by
            have hsame : walk s' mm (.kernel false) false p = walk s mm (.kernel false) false p :=
              walk_congr_heap hheap ..
            rw [hsame]
            exact walk_read hf
          rw [byteAt, hwalk, Option.map_some, hkeep f _ hpoked]
        · exact hzero a hlt' (by omega)

/-! ## The loop -/

variable {A} {fault : FaultOutcome}

/-- A page was mapped at `actual_brk`. -/
structure PageGrown (t t' : Program) : Prop where
  mm : t'.mm = t.mm
  base : t'.baseBrk = t.baseBrk
  logical : t'.logicalBrk = t.logicalBrk
  actual : t'.actualBrk = u32 (t.actualBrk + 0x1000)
  dir : DirOk t'.mem t.mm
  slots : SlotsOk t'.mem t.mm
  kept : ∀ a < 2 ^ 32, a / 4096 ≠ t.actualBrk / 4096 → ∀ mode write,
    walk t'.mem t.mm mode write a = walk t.mem t.mm mode write a
  mapped : ∀ a, a / 4096 = t.actualBrk / 4096 → (walk t'.mem t.mm (.kernel false) true a).isSome

theorem growPage_grown {t t' : Program} (hdir : DirOk t.mem t.mm) (hslots : SlotsOk t.mem t.mm)
    (hlt : t.actualBrk < 2 ^ 32) (h : growPage A t = some t') : PageGrown t t' := by
  obtain ⟨phys, hphys, h⟩ := Option.bind_eq_some_iff.mp h
  obtain ⟨mem, hmap, rfl⟩ := Option.map_eq_some_iff.mp h
  have hword : ∀ a < 2 ^ 32, (BitVec.ofNat 32 a).toNat = a := fun a ha =>
    (BitVec.toNat_ofNat a 32).trans (Nat.mod_eq_of_lt ha)
  have hw : EntryWritten t.mem mem t.mm (BitVec.ofNat 32 t.actualBrk)
      (createPte phys (permOf true) 1) := by
    apply hdir.written_of_mapPage
    rw [hword _ hlt]
    exact hmap
  have hslots' : SlotsOk mem t.mm := hw.slotsOk hslots
  refine ⟨rfl, rfl, rfl, rfl, hw.ok, hslots', ?_, ?_⟩
  · intro a ha hpage mode write
    have hne : pageNumber (BitVec.ofNat 32 a) ≠ pageNumber (BitVec.ofNat 32 t.actualBrk) := by
      intro heq
      have hval : (BitVec.ofNat 32 a).toNat / 4096 = (BitVec.ofNat 32 t.actualBrk).toNat / 4096 :=
        congrArg Fin.val heq
      rw [hword a ha, hword _ hlt] at hval
      exact hpage hval
    have hkept := hw.walk_kept hne mode write
    rw [hword a ha] at hkept
    exact hkept
  · intro a hpage
    have hentry := hw.entries (BitVec.ofNat 32 t.actualBrk)
    rw [if_pos rfl, hword _ hlt, createPte_permOf] at hentry
    have hpde : mem.heap t.mm (pdeIndex t.actualBrk) ≠ 0 := by
      intro hzero
      rw [entryAt, if_pos hzero] at hentry
      exact ne_zero_of_present (ptePresent_createPde_permOf phys true) hentry.symm
    have hdirent := hslots' _ (by rw [← hword _ hlt]; exact pdeIndex_lt_dir _) hpde
    rw [walk_congr_page mem t.mm _ _ hpage, walk_eq, hentry, hdirent,
      entryAllows_createPde_permOf]
    rfl

/-- The loop mapped pages from the old `actual_brk` on, until the break lay
below. -/
structure Grown (t t' : Program) : Prop where
  mm : t'.mm = t.mm
  base : t'.baseBrk = t.baseBrk
  logical : t'.logicalBrk = t.logicalBrk
  dir : DirOk t'.mem t.mm
  slots : SlotsOk t'.mem t.mm
  aligned : t'.actualBrk % 4096 = 0
  word : t'.actualBrk ≤ 2 ^ 32 - 4096
  le : t.logicalBrk ≤ t'.actualBrk
  up : t.actualBrk ≤ t'.actualBrk
  kept : ∀ a < t.actualBrk, ∀ mode write,
    walk t'.mem t.mm mode write a = walk t.mem t.mm mode write a
  mapped : ∀ a, t.actualBrk ≤ a → a < t'.actualBrk →
    (walk t'.mem t.mm (.kernel false) true a).isSome

theorem growActual_grown {fuel : Nat} : ∀ {t t' : Program}, DirOk t.mem t.mm →
    SlotsOk t.mem t.mm → t.actualBrk % 4096 = 0 → t.actualBrk ≤ 2 ^ 32 - 4096 →
    t.logicalBrk ≤ 2 ^ 32 - 4096 → growActual A fuel t = some t' → Grown t t' := by
  induction fuel with
  | zero =>
      intro t t' _ _ _ _ _ h
      cases h
  | succ fuel ih =>
      intro t t' hdir hslots haligned hword hlogical h
      rw [growActual] at h
      split at h
      · rename_i hmore
        obtain ⟨t₁, hpage, h⟩ := Option.bind_eq_some_iff.mp h
        have hg := growPage_grown hdir hslots (by omega) hpage
        have hactual : t₁.actualBrk = t.actualBrk + 4096 := by
          rw [hg.actual, u32_of_lt (by omega)]
        have hrest : Grown t₁ t' := by
          apply ih _ _ _ _ _ h
          · rw [hg.mm]
            exact hg.dir
          · rw [hg.mm]
            exact hg.slots
          · omega
          · omega
          · rw [hg.logical]
            exact hlogical
        have hmm := hg.mm
        refine ⟨hrest.mm.trans hmm, hrest.base.trans hg.base, hrest.logical.trans hg.logical,
          hmm ▸ hrest.dir, hmm ▸ hrest.slots, hrest.aligned, hrest.word,
          hg.logical ▸ hrest.le, ?_, ?_, ?_⟩
        · have := hrest.up
          omega
        · intro a ha mode write
          rw [← hg.kept a (by omega) (by omega) mode write, ← hmm]
          exact hrest.kept a (by omega) mode write
        · intro a hle hlt
          by_cases hfirst : a < t₁.actualBrk
          · -- the page of this round stays mapped in the later ones
            have hmapped := hg.mapped a (by omega)
            rw [← hmm] at hmapped ⊢
            rw [hrest.kept a hfirst]
            exact hmapped
          · rw [← hmm]
            exact hrest.mapped a (by omega) hlt
      · rename_i hdone
        obtain rfl := Option.some.inj h
        exact ⟨rfl, rfl, rfl, hdir, hslots, haligned, hword, not_lt.mp hdone, le_rfl,
          fun _ _ _ _ => rfl, fun a hle hlt => absurd hlt (not_lt.mpr hle)⟩

/-- Where the break lies in the last page of the address space, `actual_brk`
never gets behind it. -/
theorem growActual_word {fuel : Nat} : ∀ {t t' : Program}, t.actualBrk % 4096 = 0 →
    t.actualBrk ≤ 2 ^ 32 - 4096 → growActual A fuel t = some t' →
    t.logicalBrk ≤ 2 ^ 32 - 4096 := by
  induction fuel with
  | zero =>
      intro t t' _ _ h
      cases h
  | succ fuel ih =>
      intro t t' haligned hword h
      rw [growActual] at h
      split at h
      · obtain ⟨t₁, hpage, h⟩ := Option.bind_eq_some_iff.mp h
        obtain ⟨phys, -, hpage⟩ := Option.bind_eq_some_iff.mp hpage
        obtain ⟨mem, -, rfl⟩ := Option.map_eq_some_iff.mp hpage
        have hnext : u32 (t.actualBrk + 0x1000) % 4096 = 0 ∧
            u32 (t.actualBrk + 0x1000) ≤ 2 ^ 32 - 4096 := by
          rw [u32]
          omega
        exact ih (t := { t with mem := mem, actualBrk := u32 (t.actualBrk + 0x1000) })
          hnext.1 hnext.2 h
      · rename_i hdone
        exact (not_lt.mp hdone).trans hword

/-- With pages to map, the loop ends. -/
theorem growActual_ends {fuel : Nat} : ∀ {t : Program}, t.logicalBrk ≤ 2 ^ 32 - 4096 →
    t.actualBrk % 4096 = 0 → t.actualBrk ≤ 2 ^ 32 - 4096 →
    t.logicalBrk ≤ t.actualBrk + fuel * 4096 → PagesLeft A (fuel + 1) t →
    (growActual A (fuel + 1) t).isSome := by
  induction fuel with
  | zero =>
      intro t _ _ _ hfuel _
      rw [growActual, if_neg (by omega)]
      rfl
  | succ fuel ih =>
      intro t hlogical haligned hword hfuel hleft
      rw [growActual]
      split
      · rename_i hmore
        obtain ⟨hframe, htable, hnext⟩ := hleft hmore
        obtain ⟨phys, hphys⟩ := Option.isSome_iff_exists.mp hframe
        have hmap : (mapPage A t.mem t.mm phys t.actualBrk 1).isSome := by
          unfold mapPage
          dsimp only
          split
          · rfl
          · rename_i hfree
            obtain ⟨table, hmade⟩ := Option.isSome_iff_exists.mp (htable (not_not.mp hfree))
            rw [naMallocPage, hmade]
            rfl
        obtain ⟨mem, hmem⟩ := Option.isSome_iff_exists.mp hmap
        have hgrow : growPage A t =
            some { t with mem := mem, actualBrk := u32 (t.actualBrk + 0x1000) } := by
          rw [growPage, hphys, Option.bind_some, hmem]
          rfl
        have hactual : u32 (t.actualBrk + 0x1000) = t.actualBrk + 4096 := u32_of_lt (by omega)
        rw [hgrow, Option.bind_some]
        exact ih (t := { t with mem := mem, actualBrk := u32 (t.actualBrk + 0x1000) }) hlogical
          (by dsimp only; omega) (by dsimp only; omega) (by dsimp only; omega) (hnext _ hgrow)
      · rfl

/-! ## The invariant -/

/-- The break lies in its mapped pages. -/
structure BrkInv (t : Program) : Prop where
  dir : DirOk t.mem t.mm
  slots : SlotsOk t.mem t.mm
  aligned : t.actualBrk % 4096 = 0
  word : t.actualBrk ≤ 2 ^ 32 - 4096
  base : t.baseBrk ≤ t.logicalBrk
  le : t.logicalBrk ≤ t.actualBrk
  mapped : ∀ a, t.baseBrk ≤ a → a < t.actualBrk →
    (walk t.mem t.mm (.kernel false) true a).isSome

theorem setBrk_inv {t : Program} (hdir : DirOk t.mem t.mm) (hslots : SlotsOk t.mem t.mm)
    (lastPage : Nat) : BrkInv (setBrk t lastPage) := by
  have hrnd : pgRndUp lastPage % 4096 = 0 ∧ pgRndUp lastPage ≤ 2 ^ 32 - 4096 := by
    have := u32_lt (lastPage + 4095)
    rw [pgRndUp]
    omega
  exact ⟨hdir, hslots, hrnd.1, hrnd.2, le_rfl, le_rfl,
    fun a hle hlt => absurd hlt (not_lt.mpr hle)⟩

/-- What a call with a positive increment does. -/
structure BlockMade (t t' : Program) (ret incr : Nat) : Prop where
  inv : BrkInv t'
  base : t'.baseBrk = t.baseBrk
  start : t.logicalBrk ≤ ret
  stop : t'.logicalBrk = ret + incr
  up : t.actualBrk ≤ t'.actualBrk
  zero : ∀ a, ret ≤ a → a < ret + incr → byteAt t'.mem t'.mm a = some 0

theorem BrkInv.of_memset {t : Program} (ht : BrkInv t) {mem : Memory}
    (hheap : mem.heap = t.mem.heap) (hused : mem.heapUsed = t.mem.heapUsed) :
    BrkInv { t with mem := mem } := by
  refine ⟨⟨?_, ?_, ?_, ?_⟩, ?_, ht.aligned, ht.word, ht.base, ht.le, ?_⟩
  · rw [hused]
    exact ht.dir.used
  · rw [hheap]
    exact ht.dir.addr
  · rw [hheap, hused]
    exact ht.dir.tables
  · rw [hheap]
    exact ht.dir.distinct
  · unfold SlotsOk
    rw [hheap]
    exact ht.slots
  · intro a hle hlt
    rw [walk_congr_heap hheap]
    exact ht.mapped a hle hlt

theorem BrkInv.of_grown {t t' : Program} (ht : BrkInv t) {logical : Nat}
    (hle : t.logicalBrk ≤ logical) (hg : Grown { t with logicalBrk := logical } t') :
    BrkInv t' := by
  have hmm : t'.mm = t.mm := hg.mm
  have hbase : t'.baseBrk = t.baseBrk := hg.base
  have hlogical : t'.logicalBrk = logical := hg.logical
  have hin : logical ≤ t'.actualBrk := hg.le
  have hold := ht.base
  refine ⟨hmm ▸ hg.dir, hmm ▸ hg.slots, hg.aligned, hg.word, by omega, by omega, ?_⟩
  intro a hlo hhi
  rw [hmm]
  by_cases hbelow : a < t.actualBrk
  · have hkept : walk t'.mem t.mm (.kernel false) true a = walk t.mem t.mm (.kernel false) true a :=
      hg.kept a hbelow (.kernel false) true
    rw [hkept]
    exact ht.mapped a (by omega) hbelow
  · exact hg.mapped a (not_lt.mp hbelow) hhi

/-- The new break, after rounding. -/
theorem slow_logical (logical incr : Nat) (hwrap : (logical + 4095) / 4096 * 4096 + incr < 2 ^ 32) :
    pgRndUp logical = (logical + 4095) / 4096 * 4096 ∧
      u32 (logical + (u32Sub (pgRndUp logical) logical + incr)) = pgRndUp logical + incr := by
  have hup : pgRndUp logical = (logical + 4095) / 4096 * 4096 := by
    rw [pgRndUp, u32]
    omega
  refine ⟨hup, ?_⟩
  rw [u32Sub_of_le (by omega) (by omega), u32_of_lt (by omega)]
  omega

/-- **Clearing.** A `memset` inside the mapped pages ends, and keeps the
invariant. -/
theorem BrkInv.cleared (fault : FaultOutcome) {t : Program} (ht : BrkInv t) {p n : Nat}
    (hlo : t.baseBrk ≤ p) (hhi : p + n ≤ t.actualBrk) :
    ∃ mem, memsetZero fault t.mm p n t.mem = some mem ∧ BrkInv { t with mem := mem } ∧
      ∀ a, p ≤ a → a < p + n → byteAt mem t.mm a = some 0 := by
  have hword := ht.word
  obtain ⟨mem, hset, hheap, hused, -, hzero⟩ := memsetZero_spec fault t.mm (s := t.mem)
    (p := p) (n := n) (by omega) fun a hle hlt => ht.mapped a (by omega) (by omega)
  exact ⟨mem, hset, ht.of_memset hheap hused, hzero⟩

/-- **Growing.** The loop keeps the invariant. -/
theorem BrkInv.grown {t t' : Program} (ht : BrkInv t) {logical : Nat}
    (hle : t.logicalBrk ≤ logical)
    (h : growActual A brkRounds { t with logicalBrk := logical } = some t') :
    BrkInv t' ∧ Grown { t with logicalBrk := logical } t' := by
  have hnew : logical ≤ 2 ^ 32 - 4096 :=
    growActual_word (t := { t with logicalBrk := logical }) ht.aligned ht.word h
  have hg : Grown { t with logicalBrk := logical } t' :=
    growActual_grown (t := { t with logicalBrk := logical }) ht.dir ht.slots ht.aligned ht.word
      hnew h
  exact ⟨ht.of_grown hle hg, hg⟩

/-! ## One call -/

/-- The block ends inside the last page. -/
theorem sysSbrk_fast (fault : FaultOutcome) {t : Program} {incr : Nat} (hpos : 0 < incr)
    (hallowed : (incr : Int) ≠ 0x37214000) (hword : t.actualBrk ≤ 2 ^ 32 - 4096)
    (hfast : t.logicalBrk + incr < t.actualBrk) :
    sysSbrk A fault t incr =
      (memsetZero fault t.mm t.logicalBrk incr t.mem).map fun mem =>
        (t.logicalBrk, { t with mem := mem, logicalBrk := t.logicalBrk + incr }) := by
  rw [sysSbrk, if_neg (by omega), if_neg hallowed, if_neg (by omega), Int.toNat_natCast,
    u32_of_lt (by omega), if_pos hfast]

/-- It does not, and begins at a page. -/
theorem sysSbrk_slow (fault : FaultOutcome) {t : Program} {incr : Nat} (hpos : 0 < incr)
    (hallowed : (incr : Int) ≠ 0x37214000) (hfast : ¬t.logicalBrk + incr < t.actualBrk)
    (hend : (t.logicalBrk + 4095) / 4096 * 4096 + incr < 2 ^ 32) :
    sysSbrk A fault t incr =
      (growActual A brkRounds { t with logicalBrk := pgRndUp t.logicalBrk + incr }).bind fun t' =>
        (memsetZero fault t'.mm (pgRndUp t.logicalBrk) incr t'.mem).map fun mem =>
          (pgRndUp t.logicalBrk, { t' with mem := mem }) := by
  rw [sysSbrk, if_neg (by omega), if_neg hallowed, if_neg (by omega), Int.toNat_natCast,
    u32_of_lt (by omega), if_neg hfast]
  dsimp only
  rw [(slow_logical t.logicalBrk incr hend).2]

/-- **One call.** -/
theorem sysSbrk_made {t t' : Program} {incr ret : Nat} (ht : BrkInv t) (hpos : 0 < incr)
    (hwrap : NoWrap t incr) (h : sysSbrk A fault t incr = some (ret, t')) :
    BlockMade t t' ret incr := by
  have hle := ht.le
  have hword := ht.word
  have hbase := ht.base
  have hallowed : (incr : Int) ≠ 0x37214000 := by
    intro heq
    rw [sysSbrk, if_neg (by omega), if_pos heq] at h
    cases h
  by_cases hfast : t.logicalBrk + incr < t.actualBrk
  · have hmoved : BrkInv { t with logicalBrk := t.logicalBrk + incr } :=
      ⟨ht.dir, ht.slots, ht.aligned, hword, hbase.trans (Nat.le_add_right _ _), hfast.le,
        ht.mapped⟩
    obtain ⟨mem, hset, hinv, hzero⟩ := hmoved.cleared fault hbase hfast.le
    have hset : memsetZero fault t.mm t.logicalBrk incr t.mem = some mem := hset
    rw [sysSbrk_fast fault hpos hallowed hword hfast, hset] at h
    obtain ⟨rfl, rfl⟩ := Prod.mk.inj (Option.some.inj h)
    exact ⟨hinv, rfl, le_rfl, rfl, le_rfl, hzero⟩
  · have hend := hwrap.resolve_left hfast
    obtain ⟨hret, -⟩ := slow_logical t.logicalBrk incr (by omega)
    rw [sysSbrk_slow fault hpos hallowed hfast (by omega)] at h
    obtain ⟨t₁, hgrow, h⟩ := Option.bind_eq_some_iff.mp h
    obtain ⟨hinv, hg⟩ := ht.grown (by omega) hgrow
    have hl : t₁.logicalBrk = pgRndUp t.logicalBrk + incr := hg.logical
    have hin : pgRndUp t.logicalBrk + incr ≤ t₁.actualBrk := hg.le
    have hb : t₁.baseBrk = t.baseBrk := hg.base
    obtain ⟨mem, hset, hinv', hzero⟩ := hinv.cleared fault (p := pgRndUp t.logicalBrk)
      (by omega) hin
    rw [hset] at h
    obtain ⟨rfl, rfl⟩ := Prod.mk.inj (Option.some.inj h)
    exact ⟨hinv', hb, by omega, hl, hg.up, hzero⟩

/-- A call that has to succeed does. -/
theorem sysSbrk_serviced (fault : FaultOutcome) {t : Program} {incr : BitVec 32} (ht : BrkInv t)
    (h : Serviceable A t incr) : (sysSbrk A fault t incr.toInt).isSome := by
  obtain ⟨hpos, hallowed, hroom⟩ := h
  obtain ⟨n, hn⟩ := Int.eq_ofNat_of_zero_le hpos.le
  rw [hn, Int.toNat_natCast] at hroom
  rw [hn] at hpos hallowed ⊢
  have hle := ht.le
  have hword := ht.word
  have hbase := ht.base
  by_cases hfast : t.logicalBrk + n < t.actualBrk
  · obtain ⟨mem, hset, -⟩ := ht.cleared fault hbase hfast.le
    rw [sysSbrk_fast fault (by omega) hallowed hword hfast, hset]
    rfl
  · obtain ⟨hend, hleft⟩ := hroom.resolve_left hfast
    obtain ⟨hret, -⟩ := slow_logical t.logicalBrk n (by omega)
    rw [← hret] at hleft
    have hnew : pgRndUp t.logicalBrk + n ≤ 2 ^ 32 - 4096 := by omega
    have hreach : pgRndUp t.logicalBrk + n ≤ t.actualBrk + 2 ^ 20 * 4096 := by omega
    have hends : (growActual A brkRounds
        { t with logicalBrk := pgRndUp t.logicalBrk + n }).isSome :=
      growActual_ends (t := { t with logicalBrk := pgRndUp t.logicalBrk + n })
        hnew ht.aligned hword hreach hleft
    obtain ⟨t₁, hgrow⟩ := Option.isSome_iff_exists.mp hends
    obtain ⟨hinv, hg⟩ := ht.grown (by omega) hgrow
    have hin : pgRndUp t.logicalBrk + n ≤ t₁.actualBrk := hg.le
    have hb : t₁.baseBrk = t.baseBrk := hg.base
    obtain ⟨mem, hset, -⟩ := hinv.cleared fault (p := pgRndUp t.logicalBrk) (by omega) hin
    rw [sysSbrk_slow fault (by omega) hallowed hfast (by omega), hgrow, Option.bind_some, hset]
    rfl

/-! ## Runs -/

/-- The blocks end at the break. -/
structure BlocksInv (base : Nat) (r : SbrkRun) : Prop where
  prog : BrkInv r.prog
  base : r.prog.baseBrk = base
  increasing : r.blocks.Pairwise fun b b' => b'.1 + b'.2 ≤ b.1
  inside : ∀ b ∈ r.blocks, r.prog.baseBrk ≤ b.1 ∧ b.1 + b.2 ≤ r.prog.logicalBrk
  zero : ∀ b ∈ r.blocks.head?, ∀ a, b.1 ≤ a → a < b.1 + b.2 →
    byteAt r.prog.mem r.prog.mm a = some 0

theorem sbrkStep_blocksInv {base : Nat} {r r' : SbrkRun} {incr : BitVec 32}
    (hr : BlocksInv base r) (h : sbrkStep A fault r incr = some r') : BlocksInv base r' := by
  unfold sbrkStep at h
  split at h
  · rename_i hcall
    obtain ⟨res, hres, rfl⟩ := Option.map_eq_some_iff.mp h
    obtain ⟨ret, t'⟩ := res
    have hint : incr.toInt = (incr.toInt.toNat : Int) := (Int.toNat_of_nonneg hcall.1.le).symm
    have hpos : 0 < incr.toInt.toNat := Int.lt_toNat.mpr hcall.1
    rw [hint] at hres
    have hmade := sysSbrk_made hr.prog hpos hcall.2 hres
    have hstart := hmade.start
    have hstop := hmade.stop
    have hold := hr.prog.base
    have hbase : t'.baseBrk = r.prog.baseBrk := hmade.base
    refine ⟨hmade.inv, hbase.trans hr.base, List.pairwise_cons.mpr ⟨?_, hr.increasing⟩, ?_, ?_⟩
    · intro b hb
      exact (hr.inside b hb).2.trans hstart
    · intro b hb
      rcases List.mem_cons.mp hb with rfl | hb
      · exact ⟨hbase.le.trans (hold.trans hstart), hstop.ge⟩
      · have := hr.inside b hb
        show t'.baseBrk ≤ b.1 ∧ b.1 + b.2 ≤ t'.logicalBrk
        omega
    · intro b hb
      obtain rfl := Option.some.inj hb
      exact hmade.zero
  · cases h

theorem BlocksInv.sound {base : Nat} {r : SbrkRun} (h : BlocksInv base r) : SbrkSound base r := by
  refine ⟨h.base, h.prog.aligned, h.prog.le, h.increasing, ?_, ?_, h.zero⟩
  · intro b hb
    have hb' := h.inside b hb
    exact ⟨hb'.1, hb'.2.trans h.prog.le⟩
  · intro a hlo hhi
    obtain ⟨f, hf⟩ := Option.isSome_iff_exists.mp (h.prog.mapped a hlo hhi)
    refine ⟨pageMapped_of_walk hf, ?_⟩
    rw [byteAt, walk_read hf]
    rfl

variable (A) (fault : FaultOutcome)

/-- **Growth of the break.** From `load_elf` on, calls with positive increments
give blocks of zeros, one behind the other in mapped pages; while there are
pages, they return. The directory is any that the kernel makes
(`directories_ok`). -/
theorem sbrk_growth (t : Program) (hdir : DirOk t.mem t.mm) (hslots : SlotsOk t.mem t.mm)
    (lastPage : Nat) (incrs : List (BitVec 32)) (r : SbrkRun)
    (h : runSteps (sbrkStep A fault) ⟨setBrk t lastPage, []⟩ incrs = some r) :
    SbrkSound (pgRndUp lastPage) r ∧
      ∀ incr, Serviceable A r.prog incr → (sbrkStep A fault r incr).isSome := by
  have hstart : BlocksInv (pgRndUp lastPage) ⟨setBrk t lastPage, []⟩ :=
    ⟨setBrk_inv hdir hslots lastPage, rfl, List.Pairwise.nil,
      fun b hb => absurd hb List.not_mem_nil, fun b hb => absurd hb (Option.not_mem_none b)⟩
  have hrun : BlocksInv (pgRndUp lastPage) r :=
    runSteps_invariant (fun _ _ _ hs hstep => sbrkStep_blocksInv hs hstep) hstart h
  refine ⟨hrun.sound, fun incr hserve => ?_⟩
  have hnowrap : NoWrap r.prog incr.toInt.toNat := by
    rcases hserve.room with hin | ⟨hend, -⟩
    · exact Or.inl hin
    · exact Or.inr (by omega)
  rw [sbrkStep, if_pos ⟨hserve.pos, hnowrap⟩, Option.isSome_map]
  exact sysSbrk_serviced fault hrun.prog hserve

theorem pagesLeft_done {t : Program} (h : t.logicalBrk ≤ t.actualBrk) (fuel : Nat) :
    PagesLeft A fuel t := by
  cases fuel with
  | zero => trivial
  | succ fuel => exact fun hmore => absurd hmore (not_lt.mpr h)

/-- A program that has the boot directory, and nothing mapped. -/
def bootProgram : Program where
  mem := pagingInit.mem
  mm := pagingInit.kernelPgd
  baseBrk := 0
  logicalBrk := 0
  actualBrk := 0

/-- No fault is served. -/
def noReturn : FaultOutcome := fun _ _ _ => none

/-- The first 100 bytes. -/
theorem sbrk_growth_first :
    ∃ r, runSteps (sbrkStep firstFit noReturn) ⟨setBrk bootProgram 0x8049234, []⟩ [100] = some r ∧
      SbrkSound 0x804A000 r := by
  have hfree : FrameFree pagingInit.mem 0x1001000 := by
    intro pid t addr htask
    cases htask
  have hserve : Serviceable firstFit (setBrk bootProgram 0x8049234) 100 := by
    refine ⟨by decide, by decide, Or.inr ⟨by decide, fun _ => ⟨?_, fun _ => by decide +kernel, ?_⟩⟩⟩
    · have hpalloc : firstFit.palloc pagingInit.mem = some 0x1001000 := if_pos hfree
      exact Option.isSome_iff_exists.mpr ⟨_, hpalloc⟩
    · intro t' h
      apply pagesLeft_done
      obtain ⟨phys, -, h⟩ := Option.bind_eq_some_iff.mp h
      obtain ⟨mem, -, rfl⟩ := Option.map_eq_some_iff.mp h
      show ((setBrk bootProgram 0x8049234).logicalBrk + 4095) / 4096 * 4096 +
        (100 : BitVec 32).toInt.toNat ≤ u32 ((setBrk bootProgram 0x8049234).actualBrk + 0x1000)
      decide
  have hinv := setBrk_inv (t := bootProgram) pagingInit_dirOk pagingInit_slotsOk 0x8049234
  obtain ⟨res, hres⟩ := Option.isSome_iff_exists.mp (sysSbrk_serviced noReturn hinv hserve)
  have hrun : runSteps (sbrkStep firstFit noReturn) ⟨setBrk bootProgram 0x8049234, []⟩ [100] =
      some ⟨res.2, [(res.1, 100)]⟩ := by
    rw [runSteps, sbrkStep, if_pos (by decide), hres]
    rfl
  exact ⟨_, hrun, (sbrk_growth firstFit noReturn bootProgram pagingInit_dirOk
    pagingInit_slotsOk 0x8049234 [100] _ hrun).1⟩

end Levos.Kernel
