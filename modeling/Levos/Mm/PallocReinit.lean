import Levos.Mm.HeapSound
import Levos.Mm.Palloc

/-!
# The hand-over of the page allocator (`mm/palloc.c`, `lib/bitmap.c`)

The early bitmap covers 256 MiB. `palloc_reinit` makes one for the memory there
is and copies the early one into it, all 8192 bytes, whatever the size of the
new one. With less memory than the early bitmap covers, the copy goes on behind
the new bitmap into the heap.

`palloc_reinit_iff` says for which sizes of memory the hand-over is right.
-/

namespace Levos.Mm

open Levos.Base Levos.Lib

/-! ## The functions of the source -/

/-- `sizeof(struct bitmap)`. -/
def sizeofBitmap : Nat := 8

/-- `malloc`, without a result where it panics. -/
def malloc (junk : Nat → UInt8) (h : Liballoc) (size : Nat) : Option Allocation :=
  (naMalloc junk h size defaultAlignment).join

/-- The words of a bitmap in memory, from `bits` on. -/
def bitmapAt (mem : Nat → UInt8) (bits cnt : Nat) : Bitmap := ⟨cnt, fun i => mem (bits + i)⟩

/-- They are put back. -/
def storeBitmap (mem : Nat → UInt8) (bits : Nat) (b : Bitmap) : Nat → UInt8 := fun a =>
  if bits ≤ a then b.bits (a - bits) else mem a

/-- What `palloc_reinit` leaves: the heap, with the two blocks of the bitmap in
it, and where it wrote to, as addresses and lengths. -/
structure Reinit where
  heap : Liballoc
  bitmap : Nat
  block : Nat
  stores : List (Nat × Nat)

/-- `palloc_bitmap->bit_cnt`. -/
def Reinit.bitCnt (r : Reinit) : Int := i32 (le32 r.heap.mem r.bitmap)

/-- `palloc_bitmap->bits`. -/
def Reinit.bits (r : Reinit) : Nat := le32 r.heap.mem (r.bitmap + 4)

/-- Whether a frame is taken. -/
def Reinit.test (r : Reinit) (i : Nat) : Bool :=
  bitmapTest (bitmapAt r.heap.mem r.bits r.bitCnt.toNat) i

/-- `bitmap_create`. `bitmap_set_all` goes over no bits where `bit_cnt` is
negative. -/
def bitmapCreate (junk junk' : Nat → UInt8) (h : Liballoc) (bitCnt : Int) : Option Reinit :=
  (malloc junk h sizeofBitmap).bind fun b =>
    let mem := put32 b.heap.mem b.ptr (bitCnt % 2 ^ 32).toNat
    (malloc junk' { b.heap with mem := mem } (byteCnt bitCnt)).map fun bits =>
      let mem := put32 bits.heap.mem (b.ptr + 4) bits.ptr
      let all := bitmapSetAll (bitmapAt mem bits.ptr bitCnt.toNat) false
      { heap := { bits.heap with mem := storeBitmap mem bits.ptr all }
        bitmap := b.ptr
        block := bits.ptr
        stores := (b.ptr, 4) :: (b.ptr + 4, 4) ::
          (List.range bitCnt.toNat).map fun i => (bits.ptr + 4 * elemIdx i, 4) }

/-- The `memcpy` of the early bitmap, `palloc_bitmap_bits`, into the new one. -/
def Reinit.copyEarly (r : Reinit) (earlyBits : Nat → UInt8) : Reinit :=
  let mem : Nat → UInt8 := fun a =>
    if r.bits ≤ a ∧ a < r.bits + pallocBitmapSize then earlyBits (a - r.bits) else r.heap.mem a
  { r with
    heap := { r.heap with mem := mem }
    stores := (r.bits, pallocBitmapSize) :: r.stores }

/-- `palloc_reinit`; the memory size is the `int` from `arch_get_total_ram`. -/
def pallocReinit (junk junk' : Nat → UInt8) (h : Liballoc) (earlyBits : Nat → UInt8) (ram : Int) :
    Option Reinit :=
  (bitmapCreate junk junk' h (ram.tdiv 4096)).map fun r => r.copyEarly earlyBits

/-! ## What the hand-over is for -/

/-- The bytes written to are those of one block. -/
def StoreIn (ptr len : Nat) (st : Nat × Nat) : Prop := ptr ≤ st.1 ∧ st.1 + st.2 ≤ ptr + len

/-- The bitmap has a bit for each frame of RAM and no other; what the early
bitmap covers is as it was, the rest is free; and nothing but the new bitmap
was written to. -/
structure HandedOver (earlyBits : Nat → UInt8) (ram : Int) (r : Reinit) : Prop where
  frames : ∀ i : Nat, (i : Int) < r.bitCnt ↔ 4096 * ((i : Int) + 1) ≤ ram
  kept : ∀ i : Nat, (i : Int) < r.bitCnt → i < pallocBitmapSize * 8 →
    r.test i = bitOf earlyBits i
  free : ∀ i : Nat, (i : Int) < r.bitCnt → pallocBitmapSize * 8 ≤ i → r.test i = false
  inside : ∀ st ∈ r.stores, StoreIn r.bitmap sizeofBitmap st ∨
    StoreIn r.block (byteCnt (ram.tdiv 4096)) st

/-- The heap has room for the two blocks of the bitmap. -/
def RoomForBitmap (junk junk' : Nat → UInt8) (h : Liballoc) (ram : Int) : Prop :=
  ∃ b, malloc junk h sizeofBitmap = some b ∧
    let mem := put32 b.heap.mem b.ptr (ram.tdiv 4096 % 2 ^ 32).toNat
    (malloc junk' { b.heap with mem := mem } (byteCnt (ram.tdiv 4096))).isSome

/-! ## The two blocks -/

theorem malloc_eq_some {junk : Nat → UInt8} {h : Liballoc} {size : Nat} {a : Allocation} :
    malloc junk h size = some a ↔ naMalloc junk h size defaultAlignment = some (some a) :=
  Option.join_eq_some_iff

section

variable {s : HeapState} {junk junk' earlyBits : Nat → UInt8} {bitCnt ram : Int} {r : Reinit}

/-- What `bitmap_create` returns, with the memory before the bits are set. -/
structure Created (bitCnt : Int) (mem : Nat → UInt8) (r : Reinit) : Prop where
  room : heapStart ≤ r.block ∧ r.block + byteCnt bitCnt ≤ heapStart + 2048 * 4096
  apart : r.bitmap + sizeofBitmap ≤ r.block ∨ r.block + byteCnt bitCnt ≤ r.bitmap
  cnt : le32 mem r.bitmap = (bitCnt % 2 ^ 32).toNat
  ptr : le32 mem (r.bitmap + 4) = r.block
  mem : r.heap.mem = storeBitmap mem r.block
    (bitmapSetAll (bitmapAt mem r.block bitCnt.toNat) false)
  stores : r.stores = (r.bitmap, 4) :: (r.bitmap + 4, 4) ::
    (List.range bitCnt.toNat).map fun i => (r.block + 4 * elemIdx i, 4)

theorem bitmapCreate_some (hs : HeapOk s) (hsmall : byteCnt bitCnt < 2 ^ 31)
    (h : bitmapCreate junk junk' s.heap bitCnt = some r) : ∃ mem, Created bitCnt mem r := by
  obtain ⟨b, hb, h⟩ := Option.bind_eq_some_iff.mp h
  obtain ⟨bits, hbits, rfl⟩ := Option.map_eq_some_iff.mp h
  obtain ⟨blk, hptr, hreq, hok, -, -⟩ := malloc_step hs (by decide) (malloc_eq_some.mp hb)
  have hreq : blk.req = 8 := hreq
  have hok₁ := heapOk_store hok List.mem_cons_self (put32 b.heap.mem b.ptr (bitCnt % 2 ^ 32).toNat)
    fun a ha => put32_of_ne (by omega)
  obtain ⟨blk', hptr', hreq', hok₂, hkept, -⟩ := malloc_step hok₁ hsmall (malloc_eq_some.mp hbits)
  have hroom := heapOk_pages hok₂ List.mem_cons_self
  have hdisj := (List.pairwise_cons.mp hok₂.sound.disjoint).1 blk List.mem_cons_self
  have hend : heapStart + 2048 * 4096 < 2 ^ 32 := by decide
  rw [hptr', hreq'] at hroom hdisj
  rw [hptr, hreq] at hdisj
  refine ⟨put32 bits.heap.mem (b.ptr + 4) bits.ptr, hroom, hdisj.symm, ?_, ?_, rfl, rfl⟩
  · have hword : le32 (put32 bits.heap.mem (b.ptr + 4) bits.ptr) b.ptr =
        le32 (put32 b.heap.mem b.ptr (bitCnt % 2 ^ 32).toNat) b.ptr := by
      apply le32_congr
      intro k hk
      rw [put32_of_ne (by omega)]
      have hbyte := hkept blk List.mem_cons_self k (by omega)
      rw [hptr] at hbyte
      exact hbyte
    rw [hword]
    exact le32_put32 _ _ (by omega)
  · exact le32_put32 _ _ (by omega)

/-- Setting the bits does not reach behind the words. -/
theorem Created.outside {mem : Nat → UInt8} (hc : Created bitCnt mem r) {n : Nat}
    (hn : bitCnt = n) (hlt : n < 2 ^ 31) {a : Nat}
    (ha : a < r.block ∨ r.block + byteCnt bitCnt ≤ a) : r.heap.mem a = mem a := by
  have hbytes := byteCnt_of_nonneg hlt
  rw [hn] at ha
  rw [hc.mem, storeBitmap]
  split
  · rename_i hle
    rw [bitmapSetAll, bitmapSetMultiple_bytes]
    · show mem (r.block + (a - r.block)) = mem a
      rw [show r.block + (a - r.block) = a by omega]
    · show 0 + bitCnt.toNat ≤ 8 * (a - r.block)
      rw [hn, Int.toNat_natCast]
      omega
  · rfl

theorem Created.free {mem : Nat → UInt8} (hc : Created bitCnt mem r) {n : Nat}
    (hn : bitCnt = n) {i : Nat} (hi : i < n) :
    bitOf (fun k => r.heap.mem (r.block + k)) i = false := by
  have hmem : (fun k => r.heap.mem (r.block + k)) =
      (bitmapSetAll (bitmapAt mem r.block bitCnt.toNat) false).bits := by
    ext1 k
    rw [hc.mem, storeBitmap, if_pos (Nat.le_add_right _ _), Nat.add_sub_cancel_left]
  rw [hmem, bitmapSetAll, bitOf_bitmapSetMultiple, if_pos]
  refine ⟨Nat.zero_le i, ?_⟩
  show i < 0 + bitCnt.toNat
  rw [hn, Int.toNat_natCast]
  omega

/-! ## When the hand-over is right -/

/-- The copy of 8192 bytes has to fit. -/
theorem HandedOver.fits {r' : Reinit} (h : HandedOver earlyBits ram r')
    (hstore : (r.bits, pallocBitmapSize) ∈ r'.stores) :
    pallocBitmapSize ≤ byteCnt (ram.tdiv 4096) := by
  rcases h.inside _ hstore with ⟨hlo, hhi⟩ | ⟨hlo, hhi⟩
  · have hsize : pallocBitmapSize = 8192 := rfl
    have hstruct : sizeofBitmap = 8 := rfl
    dsimp only at hlo hhi
    omega
  · dsimp only at hlo hhi
    omega

/-- With memory for 65505 frames the copy fits, and with a negative size there
is no room for the words. -/
theorem enough_of_fits (hs : HeapOk s) (hlo : -2 ^ 31 ≤ ram) (hhi : ram < 2 ^ 31)
    (h : bitmapCreate junk junk' s.heap (ram.tdiv 4096) = some r)
    (hfits : pallocBitmapSize ≤ byteCnt (ram.tdiv 4096)) : 65505 * 4096 ≤ ram := by
  have hsize : pallocBitmapSize = 8192 := rfl
  rcases le_or_gt 0 ram with hpos | hneg
  · obtain ⟨n, rfl⟩ := Int.eq_ofNat_of_zero_le hpos
    have hdiv : ((n : Int).tdiv 4096) = ((n / 4096 : Nat) : Int) := rfl
    rw [hdiv, byteCnt_of_nonneg (by omega)] at hfits
    omega
  · obtain ⟨n, hn⟩ := Int.eq_ofNat_of_zero_le (show 0 ≤ -ram by omega)
    have hdiv : ram.tdiv 4096 = -((n / 4096 : Nat) : Int) := by
      rw [show ram = -(n : Int) by omega, Int.neg_tdiv]
      rfl
    rw [hdiv] at hfits h
    rcases Nat.eq_zero_or_pos (n / 4096) with hzero | hq
    · rw [hzero] at hfits
      exact absurd hfits (by decide)
    · have hbytes := byteCnt_of_neg hq (by omega)
      obtain ⟨mem, hc⟩ := bitmapCreate_some hs (by omega) h
      have hroom := hc.room
      have hstart : heapStart = 0xC0400000 := rfl
      omega

theorem created_handedOver {mem : Nat → UInt8} (hram : 65505 * 4096 ≤ ram) (hhi : ram < 2 ^ 31)
    (hc : Created (ram.tdiv 4096) mem r) :
    HandedOver earlyBits ram (r.copyEarly earlyBits) := by
  obtain ⟨n, rfl⟩ := Int.eq_ofNat_of_zero_le (show 0 ≤ ram by omega)
  have hdiv : ((n : Int).tdiv 4096) = ((n / 4096 : Nat) : Int) := rfl
  have hsize : pallocBitmapSize = 8192 := rfl
  have hbytes := byteCnt_of_nonneg (n := n / 4096) (by omega)
  have hout : ∀ a, a < r.block ∨ r.block + byteCnt ((n : Int).tdiv 4096) ≤ a →
      r.heap.mem a = mem a := fun a ha => hc.outside hdiv (by omega) ha
  have hfree : ∀ i < n / 4096, bitOf (fun k => r.heap.mem (r.block + k)) i = false :=
    fun i hi => hc.free hdiv hi
  have hapart := hc.apart
  have hstruct : sizeofBitmap = 8 := rfl
  rw [hdiv] at hout hapart
  -- the fields of the structure are where they were put
  have hptr : r.bits = r.block := by
    rw [Reinit.bits, ← hc.ptr]
    exact le32_congr fun k hk => hout _ (by omega)
  have hcnt : le32 r.heap.mem r.bitmap = n / 4096 := by
    have hword : le32 r.heap.mem r.bitmap = le32 mem r.bitmap :=
      le32_congr fun k hk => hout _ (by omega)
    rw [hword, hc.cnt, hdiv]
    omega
  rw [Reinit.copyEarly, hptr]
  dsimp only
  set mem' : Nat → UInt8 := fun a =>
    if r.block ≤ a ∧ a < r.block + pallocBitmapSize then earlyBits (a - r.block)
    else r.heap.mem a with hmem'
  have hmem : ∀ a, a < r.block ∨ r.block + 4 * ((n / 4096 + 31) / 32) ≤ a →
      mem' a = r.heap.mem a := fun a ha => if_neg (by omega)
  set r' : Reinit := { r with
    heap := { r.heap with mem := mem' }
    stores := (r.block, pallocBitmapSize) :: r.stores } with hr'
  have hcnt' : r'.bitCnt = ((n / 4096 : Nat) : Int) := by
    have hword : le32 mem' r.bitmap = le32 r.heap.mem r.bitmap :=
      le32_congr fun k hk => hmem _ (by omega)
    show i32 (le32 mem' r.bitmap) = _
    rw [hword, hcnt, i32, if_pos (by omega)]
  have hptr' : r'.bits = r.block := by
    have hword : le32 mem' (r.bitmap + 4) = le32 r.heap.mem (r.bitmap + 4) :=
      le32_congr fun k hk => hmem _ (by omega)
    show le32 mem' (r.bitmap + 4) = _
    rw [hword]
    exact hptr
  have htest : ∀ i, r'.test i = bitOf (fun k => mem' (r.block + k)) i := by
    intro i
    rw [Reinit.test, bitmapTest_eq, hptr']
    rfl
  refine ⟨?_, ?_, ?_, ?_⟩
  · intro i
    rw [hcnt']
    constructor
    · intro hi
      omega
    · intro hi
      omega
  · intro i _ hi
    have hbyte : i / 8 < pallocBitmapSize := by omega
    rw [htest, bitOf, bitOf]
    show ((if r.block ≤ r.block + i / 8 ∧ r.block + i / 8 < r.block + pallocBitmapSize then
      earlyBits (r.block + i / 8 - r.block) else _) : UInt8).toNat.testBit (i % 8) = _
    rw [if_pos ⟨by omega, by omega⟩, Nat.add_sub_cancel_left]
  · intro i hi hlow
    rw [hcnt'] at hi
    rw [htest, ← hfree i (by omega), bitOf, bitOf]
    show ((if r.block ≤ r.block + i / 8 ∧ r.block + i / 8 < r.block + pallocBitmapSize then
      earlyBits (r.block + i / 8 - r.block) else _) : UInt8).toNat.testBit (i % 8) = _
    rw [if_neg (by omega)]
  · intro st hst
    rcases List.mem_cons.mp hst with rfl | hst
    · right
      refine ⟨le_rfl, ?_⟩
      show r.block + pallocBitmapSize ≤ r.block + byteCnt ((n / 4096 : Nat) : Int)
      omega
    · have hst : st ∈ r.stores := hst
      rw [hc.stores] at hst
      rcases List.mem_cons.mp hst with rfl | hst
      · exact .inl ⟨le_rfl, by change r.bitmap + 4 ≤ r.bitmap + 8; omega⟩
      · rcases List.mem_cons.mp hst with rfl | hst
        · refine .inl ⟨?_, le_rfl⟩
          show r.bitmap ≤ r.bitmap + 4
          omega
        · right
          obtain ⟨i, hi, rfl⟩ := List.mem_map.mp hst
          have hi : i < n / 4096 := List.mem_range.mp hi
          refine ⟨Nat.le_add_right _ _, ?_⟩
          show r.block + 4 * elemIdx i + 4 ≤ r.block + byteCnt ((n / 4096 : Nat) : Int)
          rw [elemIdx, elemBits]
          omega

/-- **The hand-over.** For every heap, every early bitmap and every `int` as
the memory size, `palloc_reinit` makes a bitmap that says of each frame of RAM
what the early one said, has the others free and no more, and writes to nothing
else, exactly when there is memory for 65505 frames, not quite 256 MiB, and
room for the bitmap in the heap. -/
theorem palloc_reinit_iff (s : HeapState) (hs : HeapOk s) (junk junk' earlyBits : Nat → UInt8)
    (ram : Int) (hlo : -2 ^ 31 ≤ ram) (hhi : ram < 2 ^ 31) :
    (∃ r, pallocReinit junk junk' s.heap earlyBits ram = some r ∧ HandedOver earlyBits ram r) ↔
      65505 * 4096 ≤ ram ∧ RoomForBitmap junk junk' s.heap ram := by
  constructor
  · rintro ⟨r', hrun, hdone⟩
    obtain ⟨r, hcreate, rfl⟩ := Option.map_eq_some_iff.mp hrun
    have hfits := hdone.fits (r := r) List.mem_cons_self
    refine ⟨enough_of_fits hs hlo hhi hcreate hfits, ?_⟩
    obtain ⟨b, hb, hrest⟩ := Option.bind_eq_some_iff.mp hcreate
    obtain ⟨bits, hbits, -⟩ := Option.map_eq_some_iff.mp hrest
    exact ⟨b, hb, Option.isSome_iff_exists.mpr ⟨bits, hbits⟩⟩
  · rintro ⟨hram, b, hb, hroom⟩
    obtain ⟨bits, hbits⟩ := Option.isSome_iff_exists.mp hroom
    obtain ⟨n, rfl⟩ := Int.eq_ofNat_of_zero_le (show 0 ≤ ram by omega)
    have hdiv : ((n : Int).tdiv 4096) = ((n / 4096 : Nat) : Int) := rfl
    have hbytes := byteCnt_of_nonneg (n := n / 4096) (by omega)
    obtain ⟨r, hcreate⟩ : ∃ r, bitmapCreate junk junk' s.heap ((n : Int).tdiv 4096) = some r := by
      rw [bitmapCreate, hb, Option.bind_some]
      dsimp only
      rw [hbits]
      exact ⟨_, rfl⟩
    obtain ⟨mem, hc⟩ := bitmapCreate_some hs (by rw [hdiv]; omega) hcreate
    refine ⟨_, ?_, created_handedOver hram hhi hc⟩
    rw [pallocReinit, hcreate]
    rfl

end

/-- 256 MiB, on a heap that was not used before. -/
theorem palloc_reinit_256_mib : ∃ r,
    pallocReinit (fun _ => 1) (fun _ => 2) (heapInit fun _ => 0).heap (pallocInit fun _ => 0).bits
      (256 * 1024 * 1024) = some r ∧
    HandedOver (pallocInit fun _ => 0).bits (256 * 1024 * 1024) r := by
  refine (palloc_reinit_iff (heapInit fun _ => 0) (heapInit_ok _) (fun _ => 1) (fun _ => 2)
    (pallocInit fun _ => 0).bits (256 * 1024 * 1024) (by decide) (by decide)).mpr
    ⟨by decide, ?_⟩
  have hroom : ((malloc (fun _ => 1) (heapInit fun _ => 0).heap sizeofBitmap).bind fun b =>
      let mem := put32 b.heap.mem b.ptr
        ((256 * 1024 * 1024 : Int).tdiv 4096 % 2 ^ 32).toNat
      malloc (fun _ => 2) { b.heap with mem := mem }
        (byteCnt ((256 * 1024 * 1024 : Int).tdiv 4096))).isSome := by decide +kernel
  obtain ⟨bits, hbits⟩ := Option.isSome_iff_exists.mp hroom
  obtain ⟨b, hb, hbits⟩ := Option.bind_eq_some_iff.mp hbits
  exact ⟨b, hb, Option.isSome_iff_exists.mpr ⟨bits, hbits⟩⟩

/-- With 16 MiB the new bitmap has 512 bytes, and 8192 are copied to it. -/
theorem palloc_reinit_16_mib : ∃ r,
    pallocReinit (fun _ => 1) (fun _ => 2) (heapInit fun _ => 0).heap (pallocInit fun _ => 0).bits
      (16 * 1024 * 1024) = some r ∧
    byteCnt ((16 * 1024 * 1024 : Int).tdiv 4096) = 512 ∧ (∃ ptr, (ptr, 8192) ∈ r.stores) ∧
    ¬HandedOver (pallocInit fun _ => 0).bits (16 * 1024 * 1024) r := by
  have hcreate : (bitmapCreate (fun _ => 1) (fun _ => 2) (heapInit fun _ => 0).heap
      ((16 * 1024 * 1024 : Int).tdiv 4096)).isSome := by decide +kernel
  obtain ⟨r, hr⟩ := Option.isSome_iff_exists.mp hcreate
  have hstore : (r.bits, pallocBitmapSize) ∈
      (r.copyEarly (pallocInit fun _ => 0).bits).stores := List.mem_cons_self
  refine ⟨r.copyEarly (pallocInit fun _ => 0).bits, ?_, by decide, ⟨_, hstore⟩, ?_⟩
  · rw [pallocReinit, hr]
    rfl
  · intro hdone
    exact absurd (hdone.fits hstore) (by decide)

end Levos.Mm
