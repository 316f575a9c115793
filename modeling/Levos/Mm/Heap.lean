import Levos.Base.Packed
import Levos.Base.Run
import Levos.Lib.Bitmap
import Levos.Mm.Vma

/-!
# The kernel heap (`mm/heap.c`)

`liballoc` takes runs of pages ("majors") from a bitmap and cuts them into
allocations ("minors"), each behind a header of its own. A minor with an
alignment has the returned pointer somewhere inside, and before it the word
from which `UNALIGN` finds the minor again.

The headers are records here. The order of the minors in a major, and of the
majors, is that of their `next` pointers; `block` of a minor is the major it is
listed in, and `magic` is right where there is a minor. The headers lie in the
same memory as everything else: a call that writes to headers leaves something
else in their bytes (`writeHeaders`, with `junk` for what is written there), so
that a header over someone's bytes would be noticed.
-/

namespace Levos.Mm

open Levos.Base Levos.Lib

/-! ## The state -/

/-- `sizeof(struct liballoc_major)`. -/
def sizeofMajor : Nat := 24

/-- `sizeof(struct liballoc_minor)`. -/
def sizeofMinor : Nat := 28

/-- `ALIGN_INFO`. -/
def alignInfo : Nat := 64

/-- `l_pageSize` and `l_pageCount`. -/
def heapPageSize : Nat := 4096
def heapPageCount : Nat := 16

/-- `DEFAULT_ALIGNMENT`. -/
def defaultAlignment : Nat := 16

/-- The address of the first page of the heap. -/
def heapStart : Nat := virtBase + 4 * 1024 * 1024

structure LiballocMinor where
  addr : Nat
  size : Nat
  reqSize : Nat
deriving DecidableEq, Repr

structure LiballocMajor where
  addr : Nat
  pages : Nat
  size : Nat
  usage : Nat
  minors : List LiballocMinor
deriving DecidableEq, Repr

/-- `majors` is the list from `l_memRoot` on, `bestBet` the address in
`l_bestBet`. -/
structure Liballoc where
  mem : Nat → UInt8
  heapBitmap : Bitmap
  majors : List LiballocMajor
  bestBet : Option Nat

/-! ## Pages -/

def liballocAlloc (b : Bitmap) (pages : Nat) : Option (Nat × Bitmap) :=
  match bitmapScanAndFlip b 0 pages false with
  | (some pg, b) => some (u32 (heapStart + pg * heapPageSize), b)
  | (none, _) => none

def liballocFree (b : Bitmap) (ptr pages : Nat) : Bitmap :=
  bitmapSetMultiple b (u32Sub ptr heapStart / heapPageSize) pages false

def allocateNewPage (b : Bitmap) (size : Nat) : Option (LiballocMajor × Bitmap) :=
  let st := u32 (u32 (size + sizeofMajor) + sizeofMinor)
  let st := if st % heapPageSize = 0 then st / heapPageSize else st / heapPageSize + 1
  let st := if st < heapPageCount then heapPageCount else st
  (liballocAlloc b st).map fun r =>
    ({ addr := r.1, pages := st, size := u32 (st * heapPageSize), usage := sizeofMajor,
       minors := [] }, r.2)

/-! ## Headers in memory -/

/-- The byte belongs to the header of a major or of a minor. -/
def headerByte (majors : List LiballocMajor) (a : Nat) : Bool :=
  majors.any fun maj =>
    decide (maj.addr ≤ a ∧ a < maj.addr + sizeofMajor) ||
      maj.minors.any fun min => decide (min.addr ≤ a ∧ a < min.addr + sizeofMinor)

/-- Headers are written; what their bytes are then is not followed. -/
def writeHeaders (junk : Nat → UInt8) (majors : List LiballocMajor) (mem : Nat → UInt8) :
    Nat → UInt8 := fun a => if headerByte majors a then junk a else mem a

/-- `memset(p, 0, n)`. -/
def clearBytes (mem : Nat → UInt8) (p n : Nat) : Nat → UInt8 := fun a =>
  if p ≤ a ∧ a < p + n then 0 else mem a

/-- `liballoc_memcpy`. -/
def liballocMemcpy (mem : Nat → UInt8) (dest src n : Nat) : Nat → UInt8 := fun a =>
  if dest ≤ a ∧ a < dest + n then mem (src + (a - dest)) else mem a

/-! ## Alignment -/

/-- `ALIGN`: the pointer, and the memory with the shift stored before it. -/
def alignPtr (align ptr : Nat) (mem : Nat → UInt8) : Nat × (Nat → UInt8) :=
  if 1 < align then
    let ptr := u32 (ptr + alignInfo)
    let diff := ptr &&& (align - 1)
    let diff := if diff ≠ 0 then align - diff else diff
    let ptr := if diff ≠ 0 then u32 (ptr + diff) else ptr
    (ptr, put32 mem (u32Sub ptr alignInfo) (u32 (diff + alignInfo)))
  else (ptr, mem)

/-- `UNALIGN`. -/
def unalignPtr (align ptr : Nat) (mem : Nat → UInt8) : Nat :=
  if 1 < align then
    let diff := le32 mem (u32Sub ptr alignInfo)
    if diff < u32 (align + alignInfo) then u32Sub ptr diff else ptr
  else ptr

/-! ## Finding a place -/

/-- A place in a major: the address of the new minor, whether the block is
cleared there, and the minors with it. -/
structure Place where
  addr : Nat
  cleared : Bool
  minors : List LiballocMinor

/-- CASE 4: behind one of the minors, before the next one or before the end of
the major. The block behind the last one (CASE 4.1) is not cleared. -/
def placeBehind (end_ size reqSize : Nat) : List LiballocMinor → Option Place
  | [] => none
  | [min] =>
      let diff := u32Sub (u32Sub (u32Sub end_ min.addr) sizeofMinor) min.size
      if u32 (size + sizeofMinor) ≤ diff then
        let addr := u32 (min.addr + sizeofMinor + min.size)
        some ⟨addr, false, [min, ⟨addr, size, reqSize⟩]⟩
      else none
  | min :: next :: rest =>
      let diff := u32Sub (u32Sub (u32Sub next.addr min.addr) sizeofMinor) min.size
      if u32 (size + sizeofMinor) ≤ diff then
        let addr := u32 (min.addr + sizeofMinor + min.size)
        some ⟨addr, true, min :: ⟨addr, size, reqSize⟩ :: next :: rest⟩
      else
        (placeBehind end_ size reqSize (next :: rest)).map fun p =>
          { p with minors := min :: p.minors }

/-- CASES 2 to 4. -/
def placeMinor (maj : LiballocMajor) (size reqSize : Nat) : Option Place :=
  let addr := u32 (maj.addr + sizeofMajor)
  match maj.minors with
  | [] => some ⟨addr, true, [⟨addr, size, reqSize⟩]⟩
  | first :: rest =>
      let diff := u32Sub (u32Sub first.addr maj.addr) sizeofMajor
      if u32 (size + sizeofMinor) ≤ diff then
        some ⟨addr, true, ⟨addr, size, reqSize⟩ :: first :: rest⟩
      else placeBehind (u32 (maj.addr + maj.size)) size reqSize (first :: rest)

/-- The major with the new minor in it. -/
def takePlace (h : Liballoc) (i : Nat) (maj : LiballocMajor) (size : Nat) (p : Place) : Liballoc :=
  { h with majors := h.majors.set i { maj with
      minors := p.minors, usage := u32 (maj.usage + u32 (size + sizeofMinor)) } }

/-- CASES 2 to 5, in major `i`; `next` goes on with the loop. -/
def tryMajor (size reqSize : Nat) (next : Liballoc → Nat → Bool → Option (Option (Liballoc × Place)))
    (h : Liballoc) (i : Nat) (maj : LiballocMajor) (startedBet : Bool) :
    Option (Option (Liballoc × Place)) :=
  match placeMinor maj size reqSize with
  | some p => some (some (takePlace h i maj size p, p))
  | none =>
      if i + 1 < h.majors.length then next h (i + 1) startedBet
      else if startedBet then next h 0 false
      else
        match allocateNewPage h.heapBitmap size with
        | none => some none
        | some (new, b) =>
            next { h with heapBitmap := b, majors := h.majors ++ [new] } (i + 1) false

/-- The loop of `__na_malloc` over the majors, at major `i`. The outer `none`
is a loop that goes on for more than `fuel` rounds, the inner one a return of
NULL. -/
def mallocLoop (size reqSize : Nat) :
    Nat → Liballoc → Nat → Bool → Nat → Option (Option (Liballoc × Place))
  | 0, _, _, _, _ => none
  | fuel + 1, h, i, startedBet, bestSize =>
      match h.majors[i]? with
      | none => some none
      | some maj =>
          let diff := u32Sub maj.size maj.usage
          let h := if bestSize < diff then { h with bestBet := some maj.addr } else h
          let bestSize := max bestSize diff
          let next := fun h i startedBet => mallocLoop size reqSize fuel h i startedBet bestSize
          if diff < u32 (size + sizeofMinor) then
            -- CASE 1
            if i + 1 < h.majors.length then next h (i + 1) startedBet
            else if startedBet then next h 0 false
            else
              match allocateNewPage h.heapBitmap size with
              | none => some none
              | some (new, b) =>
                  tryMajor size reqSize next
                    { h with heapBitmap := b, majors := h.majors ++ [new] } (i + 1) new false
          else tryMajor size reqSize next h i maj startedBet

/-- One round, at a major block. -/
theorem mallocLoop_some {h h₂ : Liballoc} {i : Nat} {maj : LiballocMajor} {bestSize : Nat}
    (hi : h.majors[i]? = some maj)
    (hh₂ : h₂ = if bestSize < u32Sub maj.size maj.usage then { h with bestBet := some maj.addr }
      else h) (size reqSize fuel : Nat) (startedBet : Bool) :
    mallocLoop size reqSize (fuel + 1) h i startedBet bestSize =
      if u32Sub maj.size maj.usage < u32 (size + sizeofMinor) then
        if i + 1 < h₂.majors.length then
          mallocLoop size reqSize fuel h₂ (i + 1) startedBet
            (max bestSize (u32Sub maj.size maj.usage))
        else if startedBet then
          mallocLoop size reqSize fuel h₂ 0 false (max bestSize (u32Sub maj.size maj.usage))
        else
          match allocateNewPage h₂.heapBitmap size with
          | none => some none
          | some (new, b) =>
              tryMajor size reqSize (fun h i startedBet => mallocLoop size reqSize fuel h i
                startedBet (max bestSize (u32Sub maj.size maj.usage)))
                { h₂ with heapBitmap := b, majors := h₂.majors ++ [new] } (i + 1) new false
      else
        tryMajor size reqSize (fun h i startedBet => mallocLoop size reqSize fuel h i
          startedBet (max bestSize (u32Sub maj.size maj.usage))) h₂ i maj startedBet := by
  subst hh₂
  conv_lhs => unfold mallocLoop
  rw [hi]

/-- Where the loop starts, and `bestSize`. -/
def startAt (h : Liballoc) (size : Nat) : Nat × Bool × Nat :=
  match h.bestBet with
  | none => (0, false, 0)
  | some bet =>
      let i := h.majors.findIdx fun maj => maj.addr == bet
      match h.majors[i]? with
      | none => (0, false, 0)
      | some maj =>
          let bestSize := u32Sub maj.size maj.usage
          if u32 (size + sizeofMinor) < bestSize then (i, true, bestSize) else (0, false, bestSize)

/-- The rounds after which the loop has ended. -/
def loopRounds (h : Liballoc) : Nat := 2 * h.majors.length + 3

/-! ## The functions of the source -/

/-- What an allocation returns; `minor` is the address of its minor. -/
structure Allocation where
  ptr : Nat
  minor : Nat
  heap : Liballoc

/-- `__na_malloc` for a size that is not 0, with room for the alignment in it.
The outer `none` is a search that does not end, the inner one a return of
NULL. -/
def naMallocSized (junk : Nat → UInt8) (h : Liballoc) (reqSize align size : Nat) :
    Option (Option Allocation) :=
  let root : Option Liballoc :=
    if h.majors = [] then
      (allocateNewPage h.heapBitmap size).map fun r =>
        { h with majors := [r.1], heapBitmap := r.2 }
    else some h
  match root with
  | none => some none
  | some h =>
      let start := startAt h size
      (mallocLoop size reqSize (loopRounds h) h start.1 start.2.1 start.2.2).map fun r =>
        r.map fun t =>
          let mem := writeHeaders junk t.1.majors t.1.mem
          let aligned := alignPtr align (u32 (t.2.addr + sizeofMinor)) mem
          let mem := if t.2.cleared then clearBytes aligned.2 aligned.1 reqSize else aligned.2
          ⟨aligned.1, t.2.addr, { t.1 with mem := mem }⟩

/-- The size of the minor for a request. -/
def paddedSize (reqSize align : Nat) : Nat :=
  if 1 < align then u32 (reqSize + u32 (align + alignInfo)) else reqSize

/-- The alignment a block is made with: a request for nothing, without
alignment, is served by `malloc(1)`. -/
def ownAlign (reqSize align : Nat) : Nat :=
  if paddedSize reqSize align = 0 then defaultAlignment else align

/-- `na_malloc`, up to the panic on NULL. -/
def naMalloc (junk : Nat → UInt8) (h : Liballoc) (reqSize align : Nat) :
    Option (Option Allocation) :=
  if paddedSize reqSize align = 0 then
    naMallocSized junk h 1 defaultAlignment (paddedSize 1 defaultAlignment)
  else naMallocSized junk h reqSize align (paddedSize reqSize align)

/-- The major whose list has a minor at an address. -/
def majorOf (majors : List LiballocMajor) (min : Nat) : Nat :=
  majors.findIdx fun maj => maj.minors.any fun m => m.addr == min

/-- The rest of `na_free`, once the minor and its major are found. -/
def freeMinor (junk : Nat → UInt8) (h : Liballoc) (i : Nat) (maj : LiballocMajor)
    (min : LiballocMinor) : Liballoc :=
  let maj := { maj with
    usage := u32Sub maj.usage (u32 (min.size + sizeofMinor))
    minors := maj.minors.filter fun m => m.addr != min.addr }
  let mem := writeHeaders junk h.majors h.mem
  if maj.minors = [] then
    { mem := mem
      heapBitmap := liballocFree h.heapBitmap maj.addr maj.pages
      majors := h.majors.eraseIdx i
      bestBet := if h.bestBet = some maj.addr then none else h.bestBet }
  else
    let majors := h.majors.set i maj
    let bestBet := h.bestBet.map fun bet =>
      match majors.find? fun m => m.addr == bet with
      | none => bet
      | some best =>
          if i32 (u32Sub best.size best.usage) < i32 (u32Sub maj.size maj.usage) then maj.addr
          else bet
    { h with mem := mem, majors := majors, bestBet := bestBet }

/-- `na_free`. Where there is no minor the code gives up. -/
def naFree (junk : Nat → UInt8) (h : Liballoc) (align ptr : Nat) : Liballoc :=
  if ptr = 0 then h
  else
    let min := u32Sub (unalignPtr align ptr h.mem) sizeofMinor
    let i := majorOf h.majors min
    match h.majors[i]? with
    | none => h
    | some maj =>
        match maj.minors.find? fun m => m.addr == min with
        | none => h
        | some m => freeMinor junk h i maj m

/-- A new `req_size` in the header of a minor. -/
def setReqSize (majors : List LiballocMajor) (min size : Nat) : List LiballocMajor :=
  majors.map fun maj => { maj with
    minors := maj.minors.map fun m => if m.addr = min then { m with reqSize := size } else m }

/-- `na_realloc`, up to the panic; a null pointer is given by 0. -/
def naRealloc (junk junk' : Nat → UInt8) (h : Liballoc) (align p size : Nat) :
    Option (Option Allocation) :=
  if size = 0 then some (some ⟨0, 0, naFree junk h defaultAlignment p⟩)
  else if p = 0 then naMalloc junk h size defaultAlignment
  else
    let min := u32Sub (unalignPtr align p h.mem) sizeofMinor
    match h.majors[majorOf h.majors min]? with
    | none => some (some ⟨0, 0, h⟩)
    | some maj =>
        match maj.minors.find? fun m => m.addr == min with
        | none => some (some ⟨0, 0, h⟩)
        | some m =>
            if size ≤ m.reqSize then
              some (some ⟨p, min, { h with
                mem := writeHeaders junk h.majors h.mem
                majors := setReqSize h.majors min size }⟩)
            else
              (naMalloc junk h size defaultAlignment).map fun r => r.map fun a =>
                let copied := { a.heap with mem := liballocMemcpy a.heap.mem a.ptr p m.reqSize }
                { a with heap := naFree junk' copied defaultAlignment p }

/-! ## The system -/

/-- A block in use: the pointer, the bytes that were asked for, and the
alignment and the address of its minor. -/
structure HeapBlock where
  ptr : Nat
  req : Nat
  align : Nat
  minor : Nat
deriving DecidableEq, Repr

structure HeapState where
  heap : Liballoc
  live : List HeapBlock

/-- A user writes only to the bytes it asked for. -/
inductive HeapAct : Type where
  | malloc (reqSize align : Nat) (junk : Nat → UInt8)
  | free (b : HeapBlock) (junk : Nat → UInt8)
  | realloc (b : HeapBlock) (size : Nat) (junk junk' : Nat → UInt8)
  | write (b : HeapBlock) (off : Nat) (byte : UInt8)

def heapStep (s : HeapState) : HeapAct → Option HeapState
  | .malloc reqSize align junk =>
      match naMalloc junk s.heap reqSize align with
      | some (some a) =>
          some ⟨a.heap, ⟨a.ptr, reqSize, ownAlign reqSize align, a.minor⟩ :: s.live⟩
      | _ => none
  | .free b junk =>
      if b ∈ s.live then some ⟨naFree junk s.heap b.align b.ptr, s.live.erase b⟩ else none
  | .realloc b size junk junk' =>
      if b ∈ s.live ∧ b.align = defaultAlignment then
        match naRealloc junk junk' s.heap defaultAlignment b.ptr size with
        | some (some a) =>
            some ⟨a.heap, if size = 0 then s.live.erase b
              else ⟨a.ptr, size, defaultAlignment, a.minor⟩ :: s.live.erase b⟩
        | _ => none
      else none
  | .write b off byte =>
      if b ∈ s.live ∧ off < b.req then
        some { s with heap := { s.heap with
          mem := Function.update s.heap.mem (b.ptr + off) byte } }
      else none

/-- `heap_init`. -/
def heapInit (mem : Nat → UInt8) : HeapState where
  heap := { mem := mem, heapBitmap := ⟨2048, fun _ => 0⟩, majors := [], bestBet := none }
  live := []

end Levos.Mm
