import Levos.Base.Run
import Levos.Lib.Bitmap
import Mathlib.Order.CompletePartialOrder

/-!
# The page allocator (`mm/palloc.c`)

Runs of frames are carved, first fit, from one bitmap and given back to it.
`palloc_sound` says what holds after any sequence of allocations and frees: the
runs that are out are aligned, disjoint and inside the range above 14 MiB, and
`palloc_get_free` counts what is left.
-/

namespace Levos.Mm

open Levos.Base Levos.Lib

/-! ## The functions of the source -/

def pallocMarkAddress (b : Bitmap) (ptr : Nat) : Bitmap := bitmapMark b (ptr / 4096)

/-- `palloc_free_pages`, with the address as an `int`; `none` is the panic. -/
def pallocFreePages (b : Bitmap) (addr num : Nat) : Option Bitmap :=
  if (i32 addr).tmod 4096 = 0 then
    some (bitmapSetMultiple b ((i32 addr).tdiv 4096 % 2 ^ 32).toNat num false)
  else none

/-- `palloc_get_pages`; `none` is the panic. -/
def pallocGetPages (b : Bitmap) (num : Nat) : Option (Nat × Bitmap) :=
  match bitmapScanAndFlip b 0 num false with
  | (some pg, b) => some (u32 (pg * 4096), b)
  | (none, _) => none

def pallocGetFree (b : Bitmap) : Nat := bitmapCount b 0 b.bitCnt false

/-- `sizeof(palloc_bitmap_bits)`. -/
def pallocBitmapSize : Nat := 8192

/-- The end of the memory that `palloc_init` marks. -/
def pallocReserved : Nat := 14 * 1024 * 1024

/-- `palloc_init`, on whatever is in and behind `palloc_bitmap_bits`. -/
def pallocInit (bits : Nat → UInt8) : Bitmap :=
  (List.range (pallocReserved / 4096)).foldl (fun b i => pallocMarkAddress b (4096 * i))
    { bitCnt := pallocBitmapSize * 8, bits := fun i => if i < pallocBitmapSize then 0 else bits i }

/-! ## Runs of the system -/

/-- What `palloc_get_pages(num)` returned, not yet freed. -/
structure PageRun where
  addr : Nat
  num : Nat
deriving DecidableEq, Repr

/-- The bitmap, and the runs that are out, the last one first. -/
structure PallocState where
  bitmap : Bitmap
  live : List PageRun

inductive PallocOp : Type where
  | getPages (num : Nat)
  | freePages (r : PageRun)

/-- A call for pages, and the return of a run that is out. -/
def pallocStep (s : PallocState) : PallocOp → Option PallocState
  | .getPages num =>
      if 0 < num then
        (pallocGetPages s.bitmap num).map fun r => ⟨r.2, ⟨r.1, num⟩ :: s.live⟩
      else none
  | .freePages r =>
      if r ∈ s.live then
        (pallocFreePages s.bitmap r.addr r.num).map fun b => ⟨b, s.live.erase r⟩
      else none

/-- The bytes of a run. -/
def PageRun.bytes (r : PageRun) : Set Nat := Set.Ico r.addr (r.addr + 4096 * r.num)

/-- The runs that are out are aligned, disjoint and in range, and
`palloc_get_free` counts down from `initial`. -/
structure PallocSound (initial : Nat) (s : PallocState) : Prop where
  aligned : ∀ r ∈ s.live, r.addr % 4096 = 0
  disjoint : s.live.Pairwise fun r r' => Disjoint r.bytes r'.bytes
  above : ∀ r ∈ s.live, pallocReserved ≤ r.addr
  inside : ∀ r ∈ s.live, r.addr + 4096 * r.num ≤ 4096 * s.bitmap.bitCnt
  free : pallocGetFree s.bitmap + (s.live.map PageRun.num).sum = initial

/-! ## The invariant -/

/-- The bits of a run. -/
def PageRun.slots (r : PageRun) : SlotRun := ⟨r.addr / 4096, r.num⟩

/-- The bits set are the reserved ones and those of the runs that are out. -/
structure PallocOk (s : PallocState) : Prop where
  bitCnt : s.bitmap.bitCnt = pallocBitmapSize * 8
  carved : Carved (bitOf s.bitmap.bits) (pallocReserved / 4096) (pallocBitmapSize * 8)
    (s.live.map PageRun.slots)
  aligned : ∀ r ∈ s.live, r.addr % 4096 = 0

/-- Marking the first addresses sets a run of bits. -/
theorem pallocInit_eq (bits : Nat → UInt8) :
    pallocInit bits = bitmapSetMultiple
      { bitCnt := pallocBitmapSize * 8, bits := fun i => if i < pallocBitmapSize then 0 else bits i }
      0 (pallocReserved / 4096) true := by
  have hmark : (fun (b : Bitmap) i => pallocMarkAddress b (4096 * i)) =
      fun b i => bitmapSet b (0 + i) true := by
    ext1 b
    ext1 i
    rw [pallocMarkAddress, Nat.mul_div_cancel_left i (by decide), Nat.zero_add, bitmapSet,
      if_pos rfl]
  rw [pallocInit, hmark]
  rfl

theorem bitOf_pallocInit (bits : Nat → UInt8) {i : Nat} (hi : i < pallocBitmapSize * 8) :
    bitOf (pallocInit bits).bits i = decide (i < pallocReserved / 4096) := by
  rw [pallocInit_eq, bitOf_bitmapSetMultiple]
  have hbyte : i / 8 < pallocBitmapSize := by omega
  have hzero : bitOf (fun i => if i < pallocBitmapSize then 0 else bits i) i = false := by
    unfold bitOf
    dsimp only
    rw [if_pos hbyte]
    exact Nat.zero_testBit _
  rw [hzero]
  by_cases hlow : i < pallocReserved / 4096
  · rw [if_pos ⟨Nat.zero_le i, by omega⟩, decide_eq_true hlow]
  · rw [if_neg (by omega), decide_eq_false hlow]

theorem pallocInit_ok (bits : Nat → UInt8) : PallocOk ⟨pallocInit bits, []⟩ := by
  refine ⟨?_, ⟨?_, List.Pairwise.nil, ?_⟩, ?_⟩
  · rw [pallocInit_eq, bitmapSetMultiple_bitCnt]
  · intro i hi
    rw [bitOf_pallocInit bits hi, decide_eq_true_eq]
    simp
  · intro r hr
    cases hr
  · intro r hr
    cases hr

/-- `palloc_get_pages` returns a run of frames that were free. -/
theorem pallocGetPages_some {b b' : Bitmap} {num addr : Nat}
    (hcnt : b.bitCnt = pallocBitmapSize * 8) (hnum : 0 < num)
    (h : pallocGetPages b num = some (addr, b')) :
    addr % 4096 = 0 ∧ addr / 4096 + num ≤ pallocBitmapSize * 8 ∧
      (∀ i, SlotRun.Covers ⟨addr / 4096, num⟩ i → bitOf b.bits i = false) ∧
      b' = bitmapSetMultiple b (addr / 4096) num true := by
  have hsize : pallocBitmapSize * 8 = 65536 := rfl
  unfold pallocGetPages at h
  split at h
  next pg b₁ hscan =>
    obtain ⟨rfl, rfl⟩ := Prod.mk.inj (Option.some.inj h)
    obtain ⟨hfits, hclear, rfl⟩ := bitmapScanAndFlip_run hscan
    rw [u32_of_lt (by omega), Nat.mul_div_cancel pg (by decide)]
    exact ⟨Nat.mul_mod_left pg 4096, by omega, fun i hi => hclear i hi.1 hi.2, rfl⟩
  next => cases h

/-- The first run of frames that are all free is the one that is taken. -/
theorem pallocGetPages_first {b : Bitmap} {num idx : Nat} (hcnt : b.bitCnt = pallocBitmapSize * 8)
    (hfits : idx + num ≤ pallocBitmapSize * 8)
    (hclear : ∀ i, idx ≤ i → i < idx + num → bitOf b.bits i = false)
    (hbefore : ∀ j < idx, ∃ i, j ≤ i ∧ i < j + num ∧ bitOf b.bits i = true) :
    pallocGetPages b num = some (idx * 4096, bitmapSetMultiple b idx num true) := by
  have hsize : pallocBitmapSize * 8 = 65536 := rfl
  rw [pallocGetPages, bitmapScanAndFlip_first (hcnt ▸ hfits) hclear hbefore]
  dsimp only
  rw [u32_of_lt (by omega)]

/-- `palloc_free_pages` finds the bits of a run that is out. -/
theorem pallocFreePages_eq (b : Bitmap) {addr : Nat} (num : Nat) (haligned : addr % 4096 = 0)
    (hlow : addr < 2 ^ 31) :
    pallocFreePages b addr num = some (bitmapSetMultiple b (addr / 4096) num false) := by
  have hint : i32 addr = (addr : Int) := if_pos hlow
  have hmod : (addr : Int).tmod 4096 = ((addr % 4096 : Nat) : Int) := rfl
  have hdiv : (addr : Int).tdiv 4096 = ((addr / 4096 : Nat) : Int) := rfl
  have hindex : (((addr / 4096 : Nat) : Int) % 2 ^ 32).toNat = addr / 4096 := by omega
  rw [pallocFreePages, hint, hmod, haligned, if_pos Nat.cast_zero, hdiv, hindex]

theorem pallocStep_ok {s s' : PallocState} {op : PallocOp} (hs : PallocOk s)
    (h : pallocStep s op = some s') : PallocOk s' := by
  cases op with
  | getPages num =>
      rw [pallocStep] at h
      split at h
      · rename_i hnum
        obtain ⟨⟨addr, b⟩, hget, rfl⟩ := Option.map_eq_some_iff.mp h
        obtain ⟨haligned, hfits, hfree, rfl⟩ := pallocGetPages_some hs.bitCnt hnum hget
        refine ⟨?_, ?_, ?_⟩
        · rw [bitmapSetMultiple_bitCnt]
          exact hs.bitCnt
        · rw [bitmapSetMultiple_run]
          exact hs.carved.take hnum hfits hfree
        · intro r hr
          rcases List.mem_cons.mp hr with rfl | hr
          · exact haligned
          · exact hs.aligned r hr
      · cases h
  | freePages r =>
      rw [pallocStep] at h
      split at h
      · rename_i hr
        obtain ⟨b, hfree, rfl⟩ := Option.map_eq_some_iff.mp h
        obtain ⟨-, hhi⟩ := hs.carved.within _ (List.mem_map_of_mem hr)
        have hsize : pallocBitmapSize * 8 = 65536 := rfl
        have hlow : r.addr < 2 ^ 31 := by
          have hle : r.addr / 4096 + r.num ≤ pallocBitmapSize * 8 := hhi
          omega
        rw [pallocFreePages_eq _ _ (hs.aligned r hr) hlow] at hfree
        obtain rfl := Option.some.inj hfree
        refine ⟨?_, ?_, ?_⟩
        · rw [bitmapSetMultiple_bitCnt]
          exact hs.bitCnt
        · -- the runs that stay are those behind the one that goes
          have hperm := (List.perm_cons_erase hr).map PageRun.slots
          rw [bitmapSetMultiple_run]
          exact (hs.carved.perm hperm).tail
        · exact fun r' hr' => hs.aligned r' (List.mem_of_mem_erase hr')
      · cases h

/-! ## Soundness -/

theorem PageRun.slots_apart {r r' : PageRun} (hr : r.addr % 4096 = 0) (hr' : r'.addr % 4096 = 0)
    (h : r.slots.Apart r'.slots) : Disjoint r.bytes r'.bytes := by
  rw [Set.disjoint_left]
  intro a ha ha'
  obtain ⟨hlo, hhi⟩ := ha
  obtain ⟨hlo', hhi'⟩ := ha'
  have hin : r.slots.Covers (a / 4096) := by
    constructor
    · change r.addr / 4096 ≤ a / 4096
      omega
    · change a / 4096 < r.addr / 4096 + r.num
      omega
  apply h (a / 4096) hin
  constructor
  · change r'.addr / 4096 ≤ a / 4096
    omega
  · change a / 4096 < r'.addr / 4096 + r'.num
    omega

theorem PallocOk.sound {s : PallocState} (hs : PallocOk s) (bits : Nat → UInt8) :
    PallocSound (pallocGetFree (pallocInit bits)) s := by
  have hwithin : ∀ r ∈ s.live, pallocReserved / 4096 ≤ r.addr / 4096 ∧
      r.addr / 4096 + r.num ≤ pallocBitmapSize * 8 := fun r hr =>
    hs.carved.within r.slots (List.mem_map_of_mem hr)
  have hcount : ∀ {t : PallocState}, PallocOk t →
      pallocGetFree t.bitmap + (t.live.map PageRun.num).sum =
        pallocBitmapSize * 8 - pallocReserved / 4096 := by
    intro t ht
    have hfree := ht.carved.freeSlots_add (by decide)
    rw [List.map_map] at hfree
    rw [pallocGetFree, ht.bitCnt, bitmapCount_free]
    exact hfree
  refine ⟨hs.aligned, ?_, ?_, ?_, ?_⟩
  · have hapart := List.pairwise_map.mp hs.carved.apart
    apply hapart.imp_of_mem
    intro r r' hr hr' h
    exact PageRun.slots_apart (hs.aligned r hr) (hs.aligned r' hr') h
  · intro r hr
    have hle := (hwithin r hr).1
    have hreserved : pallocReserved = 3584 * 4096 := rfl
    omega
  · intro r hr
    have hle := (hwithin r hr).2
    have haligned := hs.aligned r hr
    rw [hs.bitCnt]
    omega
  · have hinit := hcount (pallocInit_ok bits)
    dsimp only at hinit
    rw [List.map_nil, List.sum_nil, Nat.add_zero] at hinit
    rw [hcount hs, hinit]

/-- **The page allocator is sound.** After any sequence of allocations that
return and frees of runs that are out, the runs that are out are page aligned,
pairwise disjoint, at or above 14 MiB and inside the range of the bitmap, and
`palloc_get_free` has gone down by their pages. -/
theorem palloc_sound (bits : Nat → UInt8) (ops : List PallocOp) (s : PallocState)
    (hrun : runSteps pallocStep ⟨pallocInit bits, []⟩ ops = some s) :
    PallocSound (pallocGetFree (pallocInit bits)) s := by
  have hok : PallocOk s :=
    runSteps_invariant (fun _ _ _ hs h => pallocStep_ok hs h) (pallocInit_ok bits) hrun
  exact hok.sound bits

/-- Three frames, one more, and the three given back. -/
theorem palloc_sound_three : ∃ s,
    runSteps pallocStep ⟨pallocInit fun _ => 0xFF, []⟩
      [.getPages 3, .getPages 1, .freePages ⟨pallocReserved, 3⟩] = some s ∧
    s.live = [⟨pallocReserved + 3 * 4096, 1⟩] ∧
    PallocSound (pallocGetFree (pallocInit fun _ => 0xFF)) s := by
  have hsize : pallocBitmapSize * 8 = 65536 := rfl
  have hreserved : pallocReserved / 4096 = 3584 := rfl
  have hinit : ∀ i < 65536, bitOf (pallocInit fun _ => 0xFF).bits i = decide (i < 3584) :=
    fun i hi => bitOf_pallocInit _ hi
  have hcnt := (pallocInit_ok fun _ => 0xFF).bitCnt
  dsimp only at hcnt
  generalize hb : pallocInit (fun _ => 0xFF) = b at hinit hcnt
  have hthree : pallocGetPages b 3 = some (3584 * 4096, bitmapSetMultiple b 3584 3 true) := by
    apply pallocGetPages_first hcnt (by decide)
    · intro i hle hlt
      rw [hinit i (by omega), decide_eq_false (by omega)]
    · intro j hj
      exact ⟨j, le_rfl, by omega, by rw [hinit j (by omega), decide_eq_true hj]⟩
  have hone : pallocGetPages (bitmapSetMultiple b 3584 3 true) 1 = some (3587 * 4096,
      bitmapSetMultiple (bitmapSetMultiple b 3584 3 true) 3587 1 true) := by
    apply pallocGetPages_first (by rw [bitmapSetMultiple_bitCnt, hcnt]) (by decide)
    · intro i hle hlt
      rw [bitOf_bitmapSetMultiple, if_neg (by omega), hinit i (by omega),
        decide_eq_false (by omega)]
    · intro j hj
      refine ⟨j, le_rfl, by omega, ?_⟩
      rw [bitOf_bitmapSetMultiple]
      by_cases hlow : j < 3584
      · rw [if_neg (by omega), hinit j (by omega), decide_eq_true hlow]
      · rw [if_pos (by omega)]
  have hstep₁ : pallocStep ⟨b, []⟩ (.getPages 3) =
      some ⟨bitmapSetMultiple b 3584 3 true, [⟨pallocReserved, 3⟩]⟩ := by
    rw [pallocStep, if_pos (by decide), hthree]
    rfl
  have hstep₂ : pallocStep ⟨bitmapSetMultiple b 3584 3 true, [⟨pallocReserved, 3⟩]⟩
      (.getPages 1) = some ⟨bitmapSetMultiple (bitmapSetMultiple b 3584 3 true) 3587 1 true,
        [⟨pallocReserved + 3 * 4096, 1⟩, ⟨pallocReserved, 3⟩]⟩ := by
    rw [pallocStep, if_pos (by decide), hone]
    rfl
  have hstep₃ : pallocStep ⟨bitmapSetMultiple (bitmapSetMultiple b 3584 3 true) 3587 1 true,
      [⟨pallocReserved + 3 * 4096, 1⟩, ⟨pallocReserved, 3⟩]⟩ (.freePages ⟨pallocReserved, 3⟩) =
      some ⟨bitmapSetMultiple (bitmapSetMultiple (bitmapSetMultiple b 3584 3 true) 3587 1 true)
        (pallocReserved / 4096) 3 false, [⟨pallocReserved + 3 * 4096, 1⟩]⟩ := by
    rw [pallocStep, if_pos (List.mem_cons_of_mem _ List.mem_cons_self),
      pallocFreePages_eq _ _ (by decide) (by decide)]
    rfl
  have hrun : runSteps pallocStep ⟨b, []⟩
      [.getPages 3, .getPages 1, .freePages ⟨pallocReserved, 3⟩] =
      some ⟨bitmapSetMultiple (bitmapSetMultiple (bitmapSetMultiple b 3584 3 true) 3587 1 true)
        (pallocReserved / 4096) 3 false, [⟨pallocReserved + 3 * 4096, 1⟩]⟩ := by
    rw [runSteps, hstep₁, Option.bind_some, runSteps, hstep₂, Option.bind_some, runSteps, hstep₃,
      Option.bind_some, runSteps]
  subst hb
  exact ⟨_, hrun, rfl, palloc_sound _ _ _ hrun⟩

end Levos.Mm
