import Levos.Base.Word
import Levos.Kernel.Task

/-!
# Virtual memory areas (`mm/vma.c`, `mm/mapping.c`)

The ordered list of areas of a task, and what `vma_load` puts into a page
when it is touched for the first time: zeros, overlaid by the part of the
backing file that `mapping_load` reads.

Addresses, lengths and file offsets are `uint32_t`, written as numbers below
`2^32` with the reductions of `Levos.Base.Word` where the source's arithmetic
can wrap. A backing file is its content: a read returns the bytes from the
position on, up to the end of the file.
-/

namespace Levos.Mm

open Levos.Base

/-! ## Rounding -/

/-- `PG_RND_DOWN`. -/
def pgRndDown (a : Nat) : Nat := a / 4096 * 4096

/-- `PG_RND_UP`: the sum is taken in `uint32_t`. -/
def pgRndUp (a : Nat) : Nat := u32 (a + 4095) / 4096 * 4096

def virtBase : Nat := 0xC0000000

/-! ## Areas -/

def vmaAnonymous : BitVec 32 := 1 <<< 0
def vmaGrowsdown : BitVec 32 := 1 <<< 1
def vmaStack : BitVec 32 := vmaGrowsdown
def vmaWriteable : BitVec 32 := 1 <<< 2
def vmaReserved : BitVec 32 := 1 <<< 6

/-- `struct vm_area`; `mapping` is the content of the backing file. -/
structure VmArea where
  start : Nat
  offset : Nat
  stop : Nat
  mappingOffset : Nat
  mappingLength : Nat
  mapping : Option (List UInt8)
  flags : BitVec 32
deriving DecidableEq, Repr

def vmAreaLess (a b : VmArea) : Bool := a.start < b.start

def vmAreaCheckOverlap (a b : VmArea) : Bool := a.stop > b.start

/-- `list_insert_ordered`: the elements before and behind the place. -/
def insertPoint (vma : VmArea) (areas : List VmArea) : List VmArea × List VmArea :=
  (areas.takeWhile fun e => ¬ vmAreaLess vma e, areas.dropWhile fun e => ¬ vmAreaLess vma e)

/-- `vm_area_overlaps`, on the neighbours of the place. -/
def vmAreaOverlaps (vma : VmArea) (before after : List VmArea) : Bool :=
  (before.getLast?.any fun other => vmAreaCheckOverlap other vma) ||
    (after.head?.any fun other => vmAreaCheckOverlap vma other)

/-- `vm_area_create_insert`; `ok` is whether `calloc` succeeds. The outer
`none` is the panic on an area of less than a page, the inner one NULL. -/
def vmAreaCreateInsert (ok : Bool) (vma : VmArea) (areas : List VmArea) :
    Option (Option (List VmArea)) :=
  if ¬ u32 (vma.start + 4096) ≤ vma.stop then none
  else if ¬ ok then some none
  else
    let place := insertPoint vma areas
    if vmAreaOverlaps vma place.1 place.2 then some none
    else some (some (place.1 ++ vma :: place.2))

/-- `vma_init`: the stack area. -/
def stackVma : VmArea :=
  { start := virtBase - 0x1000 * 1000, offset := 0, stop := virtBase, mappingOffset := 0
    mappingLength := 0, mapping := none, flags := vmaWriteable ||| vmaStack }

def vmaFind (areas : List VmArea) (addr : Nat) : Option VmArea :=
  areas.find? fun vma => vma.start ≤ addr ∧ addr < vma.stop

/-! ## Paging in -/

/-- The file's read operation: the bytes from `pos` on, up to the end. -/
def fileRead (content : List UInt8) (pos len : Nat) : List UInt8 := (content.drop pos).take len

/-- The bytes of a page, by their place in it. -/
abbrev Page : Type := Nat → UInt8

/-- A buffer after `got` was stored at its start. -/
def overlay (got : List UInt8) (buf : Page) : Page := fun j => got.getD j (buf j)

def zeroPage : Page := fun _ => 0

/-- The page `mapping_load` makes. -/
def mappingLoad (content : List UInt8) (offset maxLen : Nat) : Page :=
  if maxLen ≠ 0 then overlay (fileRead content offset maxLen) zeroPage else zeroPage

/-- `max_len` in `vma_load`: the difference is a `uint32_t` that becomes an
`int`, clamped to one page. -/
def vmaMaxLen (readBytes offset : Nat) : Nat :=
  let maxLen := i32 (u32Sub readBytes offset)
  if maxLen < 0 then 0 else if maxLen > 0x1000 then 0x1000 else maxLen.toNat

/-- The page `vma_load` makes, and whether it is left writable: only the
branch through the file takes write access away. -/
def vmaLoad (vma : VmArea) (addr : Nat) : Page × Bool :=
  let offset := u32Sub addr vma.start
  let mapBegin := u32 (vma.mappingOffset + offset)
  let mapEnd := u32 (vma.mappingOffset + vma.mappingLength)
  match vma.mapping with
  | some content =>
      if mapBegin ≥ pgRndUp mapEnd then (zeroPage, true)
      else
        (mappingLoad content mapBegin (vmaMaxLen vma.mappingLength offset),
          vma.flags &&& vmaWriteable ≠ 0)
  | none => (zeroPage, true)

/-- `vma_handle_pagefault`: the page to map at the page of the address; `none`
is the return value 1. -/
def vmaHandlePagefault (areas : List VmArea) (reqAddr : Nat) : Option (Page × Bool) :=
  (vmaFind areas (pgRndDown reqAddr)).bind fun vma =>
    if vma.flags &&& vmaReserved ≠ 0 then none else some (vmaLoad vma (pgRndDown reqAddr))

/-! ## Basic facts -/

theorem pgRndDown_le (a : Nat) : pgRndDown a ≤ a := Nat.div_mul_le_self a 4096

theorem pgRndDown_add_mod (a : Nat) : pgRndDown a + a % 4096 = a := by
  rw [pgRndDown]
  omega

theorem pgRndDown_mod (a : Nat) : pgRndDown a % 4096 = 0 := by
  rw [pgRndDown]
  omega

/-- Without a wrap, rounding up is the least page boundary at or above. -/
theorem pgRndUp_spec {a : Nat} (h : a + 4095 < 2 ^ 32) :
    a ≤ pgRndUp a ∧ pgRndUp a < a + 4096 ∧ pgRndUp a % 4096 = 0 := by
  rw [pgRndUp, u32_of_lt h]
  omega

theorem mem_vmAreaCreateInsert {ok : Bool} {vma : VmArea} {areas areas' : List VmArea}
    (h : vmAreaCreateInsert ok vma areas = some (some areas')) :
    ∀ v, v ∈ areas' ↔ v = vma ∨ v ∈ areas := by
  unfold vmAreaCreateInsert at h
  split at h
  · cases h
  split at h
  · cases h
  dsimp only at h
  split at h
  · cases h
  have heq := Option.some.inj (Option.some.inj h)
  intro v
  rw [← heq, insertPoint, List.mem_append, List.mem_cons]
  have hsplit : v ∈ areas ↔ v ∈ (areas.takeWhile fun e => ¬ vmAreaLess vma e) ∨
      v ∈ (areas.dropWhile fun e => ¬ vmAreaLess vma e) := by
    rw [← List.mem_append, List.takeWhile_append_dropWhile]
  rw [hsplit]
  exact or_left_comm

/-- The byte at `j` of a page read from a file. -/
theorem mappingLoad_apply (content : List UInt8) (offset maxLen j : Nat) :
    mappingLoad content offset maxLen j =
      if j < maxLen then content.getD (offset + j) 0 else 0 := by
  rw [mappingLoad]
  by_cases hm : maxLen = 0
  · rw [if_neg (not_not_intro hm), if_neg (by omega)]
    rfl
  · rw [if_pos hm, overlay, fileRead]
    simp only [zeroPage, List.getD_eq_getElem?_getD, List.getElem?_take, List.getElem?_drop]
    split <;> rfl

end Levos.Mm
