import Levos.Mm.HeapLayout

/-!
# Blocks in use

Every block that is in use has a minor of its own and lies in the bytes behind
that minor's header; the word before an aligned block leads back to the minor.
`HeapOk` says so of a state. A call adds a block (`HeapOk.add`), takes one away
(`HeapOk.drop`) or makes one smaller (`HeapOk.shrink`); `na_realloc` to a bigger
size is an allocation, a copy and a free.
-/

namespace Levos.Mm

open Levos.Base Levos.Lib

/-! ## Alignment -/

/-- `ALIGN` moves the pointer by less than `align`, and stores the shift. -/
theorem alignPtr_spec {k : Nat} (ptr : Nat) (hk : 0 < k) (mem : Nat → UInt8)
    (hfit : ptr + (2 ^ k + alignInfo) < 2 ^ 32) :
    ∃ d < 2 ^ k, alignPtr (2 ^ k) ptr mem =
        (ptr + alignInfo + d, put32 mem (ptr + d) (d + alignInfo)) ∧
      2 ^ k ∣ ptr + alignInfo + d := by
  have hone : 1 < 2 ^ k := Nat.one_lt_two_pow hk.ne'
  have hmod : (ptr + alignInfo) % 2 ^ k < 2 ^ k := Nat.mod_lt _ (by omega)
  have hsum := Nat.div_add_mod (ptr + alignInfo) (2 ^ k)
  rw [alignPtr, if_pos hone]
  dsimp only
  rw [u32_of_lt (by omega), Nat.and_two_pow_sub_one_eq_mod]
  by_cases hzero : (ptr + alignInfo) % 2 ^ k = 0
  · refine ⟨0, by omega, ?_, Nat.dvd_of_mod_eq_zero hzero⟩
    simp only [hzero, ne_eq, not_true_eq_false, if_false]
    rw [u32Sub_of_le (by omega) (by omega), u32_of_lt (by omega), Nat.add_sub_cancel]
    rfl
  · have hpos : ¬ 2 ^ k - (ptr + alignInfo) % 2 ^ k = 0 := by omega
    refine ⟨2 ^ k - (ptr + alignInfo) % 2 ^ k, by omega, ?_, ?_⟩
    · simp only [hzero, ne_eq, not_false_eq_true, if_true, hpos]
      rw [u32_of_lt (x := ptr + alignInfo + _) (by omega), u32Sub_of_le (by omega) (by omega),
        u32_of_lt (by omega)]
      congr 2
      omega
    · refine ⟨(ptr + alignInfo) / 2 ^ k + 1, ?_⟩
      rw [Nat.mul_succ]
      omega

/-! ## A block in its minor -/

/-- The bytes behind the header of a minor. -/
def Payload (m : LiballocMinor) (a : Nat) : Prop :=
  m.addr + sizeofMinor ≤ a ∧ a < m.addr + m.len

/-- Where a block lies in its minor. -/
structure InMinor (m : LiballocMinor) (b : HeapBlock) : Prop where
  req : b.req ≤ m.reqSize
  aligned : b.align ∣ b.ptr
  shifted : 1 < b.align → m.addr + sizeofMinor + alignInfo ≤ b.ptr ∧
    b.ptr < m.addr + sizeofMinor + alignInfo + b.align
  plain : b.align ≤ 1 → b.ptr = m.addr + sizeofMinor
  room : b.ptr + m.reqSize ≤ m.addr + m.len
  small : b.align + alignInfo < 2 ^ 32

/-- The word from which `UNALIGN` finds the minor. -/
def WordOk (mem : Nat → UInt8) (m : LiballocMinor) (b : HeapBlock) : Prop :=
  1 < b.align → le32 mem (b.ptr - alignInfo) = b.ptr - (m.addr + sizeofMinor)

section Block

variable {m : LiballocMinor} {b : HeapBlock} {mem mem' : Nat → UInt8}

theorem InMinor.start (h : InMinor m b) : m.addr + sizeofMinor ≤ b.ptr := by
  rcases Nat.lt_or_ge 1 b.align with hone | hone
  · have := (h.shifted hone).1
    omega
  · exact (h.plain hone).ge

/-- The bytes of the user are behind the header. -/
theorem InMinor.payload (h : InMinor m b) {i : Nat} (hi : i < m.reqSize) :
    Payload m (b.ptr + i) := by
  have := h.start
  have := h.room
  exact ⟨by omega, by omega⟩

/-- The word stays where the bytes before the block stay. -/
theorem WordOk.congr (hw : WordOk mem m b) (h : InMinor m b)
    (heq : ∀ a, Payload m a → a < b.ptr → mem' a = mem a) : WordOk mem' m b := by
  intro hone
  rw [← hw hone]
  have hshift := (h.shifted hone).1
  have hroom := h.room
  have hinfo : alignInfo = 64 := rfl
  apply le32_congr
  intro i hi
  exact heq _ ⟨by omega, by omega⟩ (by omega)

/-- `UNALIGN` recovers the minor. -/
theorem InMinor.unalign (h : InMinor m b) (hw : WordOk mem m b) (hhi : m.addr + m.len < 2 ^ 32) :
    unalignPtr b.align b.ptr mem = m.addr + sizeofMinor := by
  have hroom := h.room
  rw [unalignPtr]
  split
  · next hone =>
      obtain ⟨hlo, hlt⟩ := h.shifted hone
      dsimp only
      rw [u32Sub_of_le (by omega) (by omega), hw hone, u32_of_lt h.small, if_pos (by omega),
        u32Sub_of_le (by omega) (by omega)]
      omega
  · next hone => exact h.plain (by omega)

end Block

/-! ## Allocation -/

/-- The bytes a minor needs for a request. -/
def needed (reqSize align : Nat) : Nat :=
  if 1 < align then reqSize + (align + alignInfo) else reqSize

/-- A block `b` was put into a new minor `m`; the bytes of all other minors are
as before. -/
structure Allocated (m : LiballocMinor) (b : HeapBlock) (h h' : Liballoc) : Prop where
  layout : LayoutOk h'
  minors : (allMinors h'.majors).Perm (m :: allMinors h.majors)
  minor : b.minor = m.addr
  block : InMinor m b
  word : WordOk h'.mem m b
  kept : ∀ m' ∈ allMinors h.majors, ∀ x, Payload m' x → h'.mem x = h.mem x

/-- Bytes of one minor are no bytes of another. -/
theorem MinorsApart.not_payload {m m' : LiballocMinor} (h : MinorsApart m m') {a : Nat}
    (ha : Payload m' a) : ¬ Payload m a := by
  rintro ⟨hlo, hhi⟩
  obtain ⟨hlo', hhi'⟩ := ha
  rcases h with h | h <;> omega

theorem writeHeaders_of_payload {junk mem : Nat → UInt8} {h : Liballoc} (hl : LayoutOk h)
    {m : LiballocMinor} (hm : m ∈ allMinors h.majors) {a : Nat} (ha : Payload m a) :
    writeHeaders junk h.majors mem a = mem a := by
  rw [writeHeaders, hl.payload hm ha.1 ha.2]
  rfl

theorem clearIf_of_out {mem : Nat → UInt8} {cleared : Bool} {p n a : Nat}
    (h : a < p ∨ p + n ≤ a) : (if cleared then clearBytes mem p n else mem) a = mem a := by
  split
  · rw [clearBytes, if_neg (by omega)]
  · rfl

/-- The new minor overlaps none of the others. -/
theorem Found.apart {size reqSize : Nat} {h h' : Liballoc} {p : Place}
    (hf : Found size reqSize h h' p) {m : LiballocMinor} (hm : m ∈ allMinors h.majors) :
    MinorsApart ⟨p.addr, size, reqSize⟩ m := by
  have hpair := (hf.minors.pairwise_iff fun h => Or.symm h).mp hf.layout.minors_pairwise
  exact (List.pairwise_cons.mp hpair).1 m hm

/-- The pointer that `ALIGN` makes in a new minor. -/
theorem alignPtr_block {k size reqSize : Nat} (addr : Nat) (mem : Nat → UInt8)
    (hneed : needed reqSize (2 ^ k) ≤ size) (hhi : addr + sizeofMinor + size < 2 ^ 32)
    (hsmall : 2 ^ k + alignInfo < 2 ^ 32) :
    InMinor ⟨addr, size, reqSize⟩
        ⟨(alignPtr (2 ^ k) (addr + sizeofMinor) mem).1, reqSize, 2 ^ k, addr⟩ ∧
      WordOk (alignPtr (2 ^ k) (addr + sizeofMinor) mem).2 ⟨addr, size, reqSize⟩
        ⟨(alignPtr (2 ^ k) (addr + sizeofMinor) mem).1, reqSize, 2 ^ k, addr⟩ ∧
      ∀ x, ¬ Payload ⟨addr, size, reqSize⟩ x →
        (alignPtr (2 ^ k) (addr + sizeofMinor) mem).2 x = mem x := by
  have hlen : (⟨addr, size, reqSize⟩ : LiballocMinor).len = size + sizeofMinor := rfl
  have hinfo : alignInfo = 64 := rfl
  rcases Nat.eq_zero_or_pos k with rfl | hk
  · have hneed' : reqSize ≤ size := hneed
    have hptr : alignPtr (2 ^ 0) (addr + sizeofMinor) mem = (addr + sizeofMinor, mem) := rfl
    rw [hptr]
    refine ⟨⟨le_rfl, one_dvd _, fun h => absurd h (lt_irrefl _), fun _ => rfl, ?_, hsmall⟩,
      fun h => absurd h (lt_irrefl _), fun x _ => rfl⟩
    dsimp only
    omega
  · have hone : 1 < 2 ^ k := Nat.one_lt_two_pow hk.ne'
    rw [needed, if_pos hone] at hneed
    obtain ⟨d, hd, heq, hdvd⟩ := alignPtr_spec (addr + sizeofMinor) hk mem (by omega)
    rw [heq]
    refine ⟨⟨le_rfl, hdvd, fun _ => ?_, fun h => absurd hone (by dsimp only at h; omega), ?_,
      hsmall⟩, fun _ => ?_, fun x hx => ?_⟩
    · dsimp only
      omega
    · dsimp only
      omega
    · dsimp only
      rw [show addr + sizeofMinor + alignInfo + d - alignInfo = addr + sizeofMinor + d by omega,
        le32_put32 _ _ (by omega)]
      omega
    · dsimp only
      apply put32_of_ne
      by_contra hin
      exact hx ⟨by dsimp only; omega, by rw [hlen]; dsimp only; omega⟩

/-- The heap in which the search starts. -/
theorem root_spec {h h₀ : Liballoc} {size : Nat} (hl : LayoutOk h)
    (hfit : size + sizeofMajor + sizeofMinor < 2 ^ 32)
    (hroot : (if h.majors = [] then
      (allocateNewPage h.heapBitmap size).map fun r =>
        { h with majors := [r.1], heapBitmap := r.2 }
      else some h) = some h₀) :
    LayoutOk h₀ ∧ h₀.mem = h.mem ∧ allMinors h₀.majors = allMinors h.majors := by
  split at hroot
  · next hnil =>
      obtain ⟨⟨new, b⟩, hnew, rfl⟩ := Option.map_eq_some_iff.mp hroot
      have hfresh := allocateNewPage_spec hl.bits hfit hnew
      have hl₀ := hl.append hfresh
      have hminors : allMinors (h.majors ++ [new]) = _ := allMinors_append_empty hfresh.empty
      rw [hnil, List.nil_append] at hl₀ hminors
      exact ⟨hl₀, rfl, hminors.trans (congrArg allMinors hnil.symm)⟩
  · obtain rfl := Option.some.inj hroot
    exact ⟨hl, rfl, rfl⟩

theorem naMallocSized_ends {junk : Nat → UInt8} {h : Liballoc} {reqSize align size : Nat}
    (hl : LayoutOk h) (hfit : size + sizeofMajor + sizeofMinor < 2 ^ 32) :
    (naMallocSized junk h reqSize align size).isSome := by
  rw [naMallocSized]
  dsimp only
  split
  · rfl
  · next h₀ hroot =>
      obtain ⟨hl₀, -, -⟩ := root_spec hl hfit hroot
      rw [Option.isSome_map]
      apply mallocLoop_ends hfit hl₀
      rw [roundsLeft, loopRounds]
      split <;> omega

/-- A block that was made: the place that was found, aligned and cleared. -/
theorem naMallocSized_place {junk : Nat → UInt8} {h : Liballoc} {align reqSize size : Nat}
    {a : Allocation} (hl : LayoutOk h) (hfit : size + sizeofMajor + sizeofMinor < 2 ^ 32)
    (ha : naMallocSized junk h reqSize align size = some (some a)) :
    ∃ h' p aligned, Found size reqSize h h' p ∧
      aligned = alignPtr align (p.addr + sizeofMinor) (writeHeaders junk h'.majors h'.mem) ∧
      a = ⟨aligned.1, p.addr, { h' with
        mem := if p.cleared then clearBytes aligned.2 aligned.1 reqSize else aligned.2 }⟩ ∧
      heapStart ≤ p.addr ∧ p.addr + (size + sizeofMinor) < 2 ^ 32 := by
  rw [naMallocSized] at ha
  dsimp only at ha
  split at ha
  · cases ha
  · next h₀ hroot =>
      obtain ⟨hl₀, hmem₀, hminors₀⟩ := root_spec hl hfit hroot
      obtain ⟨r, hloop, hr⟩ := Option.map_eq_some_iff.mp ha
      obtain ⟨⟨h', p⟩, rfl, rfl⟩ := Option.map_eq_some_iff.mp hr
      have hfound := (mallocLoop_spec hfit hl₀ hloop).of_same hmem₀ hminors₀
      have hnew : ⟨p.addr, size, reqSize⟩ ∈ allMinors h'.majors :=
        hfound.minors.mem_iff.mpr List.mem_cons_self
      have hlo : heapStart ≤ p.addr := (hfound.layout.minor_lt hnew).1
      have hhi : p.addr + (size + sizeofMinor) < 2 ^ 32 := (hfound.layout.minor_lt hnew).2
      refine ⟨h', p, _, hfound, rfl, ?_, hlo, hhi⟩
      rw [u32_of_lt (show p.addr + sizeofMinor < 2 ^ 32 by omega)]

theorem naMallocSized_spec {junk : Nat → UInt8} {h : Liballoc} {k reqSize size : Nat}
    {a : Allocation} (hl : LayoutOk h) (hfit : size + sizeofMajor + sizeofMinor < 2 ^ 32)
    (hneed : needed reqSize (2 ^ k) ≤ size) (hsmall : 2 ^ k + alignInfo < 2 ^ 32)
    (ha : naMallocSized junk h reqSize (2 ^ k) size = some (some a)) :
    Allocated ⟨a.minor, size, reqSize⟩ ⟨a.ptr, reqSize, 2 ^ k, a.minor⟩ h a.heap := by
  obtain ⟨h', p, aligned, hfound, haligned, rfl, -, hhi⟩ := naMallocSized_place hl hfit ha
  obtain ⟨hin, hword, hout⟩ := alignPtr_block p.addr
    (writeHeaders junk h'.majors h'.mem) hneed (by omega) hsmall
  rw [← haligned] at hin hword hout
  refine ⟨hfound.layout.withMem _, hfound.minors, rfl, hin, ?_, ?_⟩
  · -- the block is cleared behind its word
    exact hword.congr hin fun x _ hlt => clearIf_of_out (.inl hlt)
  · intro m hm x hx
    have hold : m ∈ allMinors h'.majors := hfound.minors.mem_iff.mpr (List.mem_cons_of_mem _ hm)
    have hapart : MinorsApart ⟨p.addr, size, reqSize⟩ m := hfound.apart hm
    have hnot : ¬ Payload ⟨p.addr, size, reqSize⟩ x := hapart.not_payload hx
    have hclear : x < aligned.1 ∨ aligned.1 + reqSize ≤ x := by
      by_contra hboth
      have := hin.payload (i := x - aligned.1) (by dsimp only; omega)
      rw [show aligned.1 + (x - aligned.1) = x by omega] at this
      exact hnot this
    dsimp only
    rw [clearIf_of_out hclear, hout x hnot, writeHeaders_of_payload hfound.layout hold hx,
      hfound.mem]

/-- Below the heap nothing is written. -/
theorem naMallocSized_below {junk : Nat → UInt8} {h : Liballoc} {k reqSize size : Nat}
    {a : Allocation} (hl : LayoutOk h) (hfit : size + sizeofMajor + sizeofMinor < 2 ^ 32)
    (hneed : needed reqSize (2 ^ k) ≤ size) (hsmall : 2 ^ k + alignInfo < 2 ^ 32)
    (ha : naMallocSized junk h reqSize (2 ^ k) size = some (some a)) {x : Nat}
    (hx : x < heapStart) : a.heap.mem x = h.mem x := by
  obtain ⟨h', p, aligned, hfound, haligned, rfl, hlo, hhi⟩ := naMallocSized_place hl hfit ha
  obtain ⟨hin, -, hout⟩ := alignPtr_block p.addr
    (writeHeaders junk h'.majors h'.mem) hneed (by omega) hsmall
  rw [← haligned] at hin hout
  have hstart := hin.start
  dsimp only at hstart ⊢
  rw [clearIf_of_out (.inl (by omega)), hout x fun hpay => by
      have := hpay.1
      dsimp only at this
      omega,
    writeHeaders, hfound.layout.header_below hx, hfound.mem]
  rfl

/-- The same block, seen by a user that asked for less. -/
theorem Allocated.ask_less {m : LiballocMinor} {b : HeapBlock} {h h' : Liballoc}
    (ha : Allocated m b h h') {req : Nat} (hle : req ≤ b.req) :
    Allocated m { b with req := req } h h' := by
  have hb := ha.block
  exact ⟨ha.layout, ha.minors, ha.minor,
    ⟨hle.trans hb.req, hb.aligned, hb.shifted, hb.plain, hb.room, hb.small⟩, ha.word, ha.kept⟩

/-- The arguments of a request, without a wrap of its sizes. -/
structure Request (reqSize align : Nat) : Prop where
  power : ∃ k < 31, align = 2 ^ k
  fits : needed reqSize align + sizeofMajor + sizeofMinor < 2 ^ 32

theorem Request.padded {reqSize align : Nat} (h : Request reqSize align) :
    paddedSize reqSize align = needed reqSize align := by
  have hfits := h.fits
  rw [needed] at hfits
  rw [paddedSize, needed]
  split
  · next hone =>
      rw [if_pos hone] at hfits
      have hinner : u32 (align + alignInfo) = align + alignInfo := u32_of_lt (by omega)
      rw [hinner, u32_of_lt (by omega)]
  · rfl

/-- The one byte for a request of nothing. -/
theorem request_one : Request 1 defaultAlignment := ⟨⟨4, by decide, rfl⟩, by decide⟩

theorem naMallocSized_request {junk : Nat → UInt8} {h : Liballoc} {reqSize align : Nat}
    {a : Allocation} (hl : LayoutOk h) (hr : Request reqSize align)
    (ha : naMallocSized junk h reqSize align (paddedSize reqSize align) = some (some a)) :
    Allocated ⟨a.minor, needed reqSize align, reqSize⟩ ⟨a.ptr, reqSize, align, a.minor⟩
      h a.heap := by
  rw [hr.padded] at ha
  obtain ⟨⟨k, hk, rfl⟩, hfits⟩ := hr
  have hpow : 2 ^ k ≤ 2 ^ 30 := Nat.pow_le_pow_right (by decide) (by omega)
  have hinfo : alignInfo = 64 := rfl
  exact naMallocSized_spec hl hfits le_rfl (by omega) ha

/-- **`na_malloc`** puts a block into a new minor. -/
theorem naMalloc_spec {junk : Nat → UInt8} {h : Liballoc} {reqSize align : Nat} {a : Allocation}
    (hl : LayoutOk h) (hr : Request reqSize align)
    (ha : naMalloc junk h reqSize align = some (some a)) :
    ∃ m, Allocated m ⟨a.ptr, reqSize, ownAlign reqSize align, a.minor⟩ h a.heap := by
  rw [naMalloc] at ha
  rw [ownAlign]
  split at ha
  · next hzero =>
      rw [if_pos hzero]
      have hle : reqSize ≤ 1 := by
        rw [hr.padded, needed] at hzero
        split at hzero <;> omega
      exact ⟨_, (naMallocSized_request hl request_one ha).ask_less hle⟩
  · next hzero =>
      rw [if_neg hzero]
      exact ⟨_, naMallocSized_request hl hr ha⟩

theorem naMalloc_below {junk : Nat → UInt8} {h : Liballoc} {reqSize align : Nat} {a : Allocation}
    (hl : LayoutOk h) (hr : Request reqSize align)
    (ha : naMalloc junk h reqSize align = some (some a)) {x : Nat} (hx : x < heapStart) :
    a.heap.mem x = h.mem x := by
  have hinfo : alignInfo = 64 := rfl
  rw [naMalloc] at ha
  split at ha
  · rw [request_one.padded] at ha
    exact naMallocSized_below hl request_one.fits le_rfl (k := 4) (by decide) ha hx
  · rw [hr.padded] at ha
    obtain ⟨⟨k, hk, rfl⟩, hfits⟩ := hr
    have hpow : 2 ^ k ≤ 2 ^ 30 := Nat.pow_le_pow_right (by decide) (by omega)
    exact naMallocSized_below hl hfits le_rfl (by omega) ha hx

/-- `na_malloc` returns. -/
theorem naMalloc_ends {junk : Nat → UInt8} {h : Liballoc} {reqSize align : Nat} (hl : LayoutOk h)
    (hr : Request reqSize align) : (naMalloc junk h reqSize align).isSome := by
  rw [naMalloc]
  split
  · exact naMallocSized_ends hl (request_one.padded ▸ request_one.fits)
  · exact naMallocSized_ends hl (hr.padded ▸ hr.fits)

/-! ## Free -/

/-- A minor is taken away; the bytes of all minors are as before. -/
structure Freed (m : LiballocMinor) (h h' : Liballoc) : Prop where
  layout : LayoutOk h'
  minors : (allMinors h.majors).Perm (m :: allMinors h'.majors)
  kept : ∀ m' ∈ allMinors h.majors, ∀ x, Payload m' x → h'.mem x = h.mem x

/-- Minors with the same address are the same. -/
theorem LayoutOk.minor_eq {h : Liballoc} (hl : LayoutOk h) {m m' : LiballocMinor}
    (hm : m ∈ allMinors h.majors) (hm' : m' ∈ allMinors h.majors) (haddr : m.addr = m'.addr) :
    m = m' := by
  rcases hl.minors_apart hm hm' with heq | hapart
  · exact heq
  · have hlen : m.len = m.size + 28 := rfl
    have hlen' : m'.len = m'.size + 28 := rfl
    rcases hapart with hapart | hapart <;> omega

/-- The major and the minor that an address leads to. -/
theorem LayoutOk.find {h : Liballoc} (hl : LayoutOk h) {m : LiballocMinor}
    (hm : m ∈ allMinors h.majors) :
    ∃ maj, h.majors[majorOf h.majors m.addr]? = some maj ∧ m ∈ maj.minors ∧
      maj.minors.find? (fun m' => m'.addr == m.addr) = some m := by
  obtain ⟨maj₀, hmaj₀, hm₀⟩ := mem_allMinors.mp hm
  have hex : ∃ maj ∈ h.majors, (maj.minors.any fun m' => m'.addr == m.addr) = true :=
    ⟨maj₀, hmaj₀, List.any_eq_true.mpr ⟨m, hm₀, beq_self_eq_true _⟩⟩
  have hlt := List.findIdx_lt_length_of_exists hex
  refine ⟨h.majors[majorOf h.majors m.addr], List.getElem?_eq_getElem hlt, ?_⟩
  have hany := List.findIdx_getElem (w := hlt)
  obtain ⟨m', hm', haddr⟩ := List.any_eq_true.mp hany
  have hmaj : h.majors[majorOf h.majors m.addr] ∈ h.majors := List.getElem_mem _
  have hsame : ∀ m', m' ∈ h.majors[majorOf h.majors m.addr].minors → m'.addr = m.addr → m' = m :=
    fun m' hm' heq => hl.minor_eq (mem_allMinors.mpr ⟨_, hmaj, hm'⟩) hm heq
  refine ⟨hsame m' hm' (eq_of_beq haddr) ▸ hm', ?_⟩
  have hsome : (h.majors[majorOf h.majors m.addr].minors.find? fun m' =>
      m'.addr == m.addr).isSome := List.find?_isSome.mpr ⟨m', hm', haddr⟩
  obtain ⟨m₂, hfind⟩ := Option.isSome_iff_exists.mp hsome
  have hbeq := List.find?_some hfind
  rw [hfind, hsame m₂ (List.mem_of_find?_eq_some hfind) (eq_of_beq hbeq)]

/-- The minors of a major without one of them. -/
theorem filter_minors {b : Bitmap} {maj : LiballocMajor} (h : MajorOk b maj) {m : LiballocMinor}
    (hm : m ∈ maj.minors) :
    maj.minors.Perm (m :: maj.minors.filter fun m' => m'.addr != m.addr) := by
  have hpair := Packed.pairwise h.minors
  obtain ⟨l₁, l₂, heq⟩ := List.append_of_mem hm
  have hlen : m.len = m.size + 28 := rfl
  rw [heq] at hpair ⊢
  obtain ⟨-, hcons, hcross⟩ := List.pairwise_append.mp hpair
  have hl₁ : l₁.filter (fun m' => m'.addr != m.addr) = l₁ := by
    rw [List.filter_eq_self]
    intro m' hm'
    have hle := hcross m' hm' m List.mem_cons_self
    have hlen' : m'.len = m'.size + 28 := rfl
    exact bne_iff_ne.mpr (by omega)
  have hl₂ : l₂.filter (fun m' => m'.addr != m.addr) = l₂ := by
    rw [List.filter_eq_self]
    intro m' hm'
    have hle := (List.pairwise_cons.mp hcons).1 m' hm'
    exact bne_iff_ne.mpr (by omega)
  rw [List.filter_append, List.filter_cons, if_neg (by simp), hl₁, hl₂]
  exact List.perm_middle

/-- The major without the minor. -/
theorem MajorOk.free {b : Bitmap} {maj : LiballocMajor} (h : MajorOk b maj) {m : LiballocMinor}
    (hm : m ∈ maj.minors) :
    MajorOk b { maj with
      usage := u32Sub maj.usage (u32 (m.size + sizeofMinor))
      minors := maj.minors.filter fun m' => m'.addr != m.addr } := by
  have hsum : (maj.minors.map LiballocMinor.len).sum = m.len +
      ((maj.minors.filter fun m' => m'.addr != m.addr).map LiballocMinor.len).sum := by
    rw [((filter_minors h hm).map LiballocMinor.len).sum_eq, List.map_cons, List.sum_cons]
  have hle := h.usage_le
  have husage := h.usage
  have hbounds := h.bounds
  have hstart : heapStart + 2048 * 4096 < 2 ^ 32 := by decide
  have hlen : m.len = m.size + sizeofMinor := rfl
  refine ⟨h.place, h.size, Packed.sublist h.minors List.filter_sublist, ?_⟩
  dsimp only
  rw [← hlen, u32_of_lt (by omega), u32Sub_of_le (by omega) (by omega)]
  omega

/-- The pages of a major are given back. -/
theorem LayoutOk.remove {h : Liballoc} (hl : LayoutOk h) {l₁ l₂ : List LiballocMajor}
    {maj : LiballocMajor} (heq : h.majors = l₁ ++ maj :: l₂) (mem : Nat → UInt8) :
    LayoutOk
      { mem := mem
        heapBitmap := liballocFree h.heapBitmap maj.addr maj.pages
        majors := l₁ ++ l₂
        bestBet := if h.bestBet = some maj.addr then none else h.bestBet } := by
  have hmem : ∀ m, m ∈ l₁ ++ l₂ → m ∈ h.majors := by
    intro m hm
    rw [heq, List.mem_append, List.mem_cons]
    rw [List.mem_append] at hm
    tauto
  have hmaj := hl.each maj (heq ▸ List.mem_append_right _ List.mem_cons_self)
  have hpair := (List.perm_middle.pairwise_iff fun h => Or.symm h).mp (heq ▸ hl.apart)
  obtain ⟨hapart, hrest⟩ := List.pairwise_cons.mp hpair
  constructor
  case bits => exact (bitmapSetMultiple_bitCnt _ _ _ _).trans hl.bits
  case each =>
    intro m hm
    have hm' := hl.each m (hmem m hm)
    obtain ⟨pg, hpg, hfit, -⟩ := hmaj.place
    obtain ⟨pg', hpg', hfit', hset⟩ := hm'.place
    refine ⟨⟨pg', hpg', hfit', fun i hi hlt => ?_⟩, hm'.size, hm'.minors, hm'.usage⟩
    have hat : u32Sub maj.addr heapStart / heapPageSize = pg := by
      have hbounds := hmaj.bounds
      have hstart : heapStart + 2048 * 4096 < 2 ^ 32 := by decide
      rw [u32Sub_of_le hbounds.1 (by omega), hpg, Nat.add_sub_cancel_left]
      exact Nat.mul_div_cancel _ (by decide)
    rw [liballocFree, hat, bitOf_bitmapSetMultiple, if_neg, hset i hi hlt]
    -- the page is one of another major
    rintro ⟨hge, hlt'⟩
    have hover : Apart maj m := hapart m hm
    rw [Apart, hmaj.size, hm'.size, hpg, hpg', heapPageSize] at hover
    omega
  case apart => exact hrest
  case bet =>
    intro a ha
    dsimp only at ha
    split at ha
    · cases ha
    · next hne =>
        obtain ⟨m, hm, rfl⟩ := hl.bet a ha
        rw [heq, List.mem_append, List.mem_cons] at hm
        rcases hm with hm | rfl | hm
        · exact ⟨m, List.mem_append_left _ hm, rfl⟩
        · exact absurd ha hne
        · exact ⟨m, List.mem_append_right _ hm, rfl⟩

/-- The best bet after a free is one of the majors. -/
theorem LayoutOk.rebet {h : Liballoc} (hl : LayoutOk h) {maj : LiballocMajor}
    (hmaj : maj ∈ h.majors) {next : Nat → Nat} (hnext : ∀ bet, next bet = bet ∨ next bet = maj.addr) :
    LayoutOk { h with bestBet := h.bestBet.map next } := by
  refine ⟨hl.bits, hl.each, hl.apart, fun a ha => ?_⟩
  obtain ⟨bet, hbet, rfl⟩ := Option.map_eq_some_iff.mp ha
  rcases hnext bet with heq | heq
  · rw [heq]
    exact hl.bet bet hbet
  · rw [heq]
    exact ⟨maj, hmaj, rfl⟩

theorem freeMinor_spec {junk : Nat → UInt8} {h : Liballoc} (hl : LayoutOk h) {i : Nat}
    {maj : LiballocMajor} (hi : h.majors[i]? = some maj) {m : LiballocMinor}
    (hm : m ∈ maj.minors) : Freed m h (freeMinor junk h i maj m) := by
  obtain ⟨l₁, l₂, heq, hset, herase⟩ := split_at hi
  have hok := hl.each maj (List.mem_of_getElem? hi)
  have hperm := filter_minors hok hm
  have hfree := hok.free hm
  have hall : (allMinors h.majors).Perm (m :: (allMinors l₁ ++
      ((maj.minors.filter fun m' => m'.addr != m.addr) ++ allMinors l₂))) := by
    rw [heq]
    simp only [allMinors, List.flatMap_append, List.flatMap_cons]
    exact ((hperm.append_right _).append_left _).trans List.perm_middle
  have hkept : ∀ m' ∈ allMinors h.majors, ∀ x, Payload m' x →
      writeHeaders junk h.majors h.mem x = h.mem x :=
    fun m' hm' x hx => writeHeaders_of_payload hl hm' hx
  rw [freeMinor]
  dsimp only
  split
  · next hnil =>
      refine ⟨herase ▸ hl.remove heq _, ?_, hkept⟩
      dsimp only
      rw [herase]
      rw [hnil, List.nil_append] at hall
      simpa only [allMinors, List.flatMap_append] using hall
  · refine ⟨?_, ?_, hkept⟩
    · have hrep : LayoutOk { h with majors := l₁ ++ { maj with
          usage := u32Sub maj.usage (u32 (m.size + sizeofMinor))
          minors := maj.minors.filter fun m' => m'.addr != m.addr } :: l₂ } :=
        hl.replace heq rfl rfl hfree
      rw [hset]
      refine (hrep.withMem _).rebet
        (List.mem_append_right _ List.mem_cons_self) fun bet => ?_
      split
      · exact .inl rfl
      · split
        · exact .inr rfl
        · exact .inl rfl
    · dsimp only
      rw [hset]
      simpa only [allMinors, List.flatMap_append, List.flatMap_cons] using hall

theorem LayoutOk.ptr_ne_zero {h : Liballoc} (hl : LayoutOk h) {m : LiballocMinor}
    (hm : m ∈ allMinors h.majors) {b : HeapBlock} (hb : InMinor m b) : b.ptr ≠ 0 := by
  have hlo := (hl.minor_lt hm).1
  have hstart := hb.start
  have hpos : 0 < heapStart := by decide
  omega

/-- **`na_free`** takes the minor of the block away. -/
theorem naFree_spec (junk : Nat → UInt8) {h : Liballoc} (hl : LayoutOk h) {m : LiballocMinor}
    (hm : m ∈ allMinors h.majors) {b : HeapBlock} (hb : InMinor m b) (hw : WordOk h.mem m b) :
    Freed m h (naFree junk h b.align b.ptr) := by
  obtain ⟨hlo, hhi⟩ := hl.minor_lt hm
  have hptr := hl.ptr_ne_zero hm hb
  obtain ⟨maj, hi, hin, hfind⟩ := hl.find hm
  have hlen : m.len = m.size + sizeofMinor := rfl
  rw [naFree, if_neg hptr, hb.unalign hw hhi]
  dsimp only
  rw [u32Sub_of_le (by omega) (by omega), Nat.add_sub_cancel, hi]
  dsimp only
  rw [hfind]
  exact freeMinor_spec hl hi hin

/-! ## Smaller blocks -/

/-- The minor with a new `req_size`. -/
def shrinkMinor (min size : Nat) (m : LiballocMinor) : LiballocMinor :=
  if m.addr = min then { m with reqSize := size } else m

theorem shrinkMinor_addr (min size : Nat) (m : LiballocMinor) :
    (shrinkMinor min size m).addr = m.addr := by
  rw [shrinkMinor]
  split <;> rfl

theorem shrinkMinor_len (min size : Nat) (m : LiballocMinor) :
    (shrinkMinor min size m).len = m.len := by
  rw [shrinkMinor]
  split <;> rfl

theorem allMinors_setReqSize (majors : List LiballocMajor) (min size : Nat) :
    allMinors (setReqSize majors min size) = (allMinors majors).map (shrinkMinor min size) := by
  simp only [allMinors, setReqSize, List.flatMap_map, List.map_flatMap]
  rfl

theorem LayoutOk.setReqSize {h : Liballoc} (hl : LayoutOk h) (min size : Nat) :
    LayoutOk { h with majors := setReqSize h.majors min size } := by
  constructor
  case bits => exact hl.bits
  case each =>
    intro maj hmaj
    obtain ⟨maj, hold, rfl⟩ := List.mem_map.mp hmaj
    have hok := hl.each maj hold
    refine ⟨hok.place, hok.size, ?_, ?_⟩
    · exact Packed.map (shrinkMinor_addr min size) (shrinkMinor_len min size) hok.minors
    · show maj.usage = sizeofMajor + ((maj.minors.map (shrinkMinor min size)).map _).sum
      rw [List.map_map, hok.usage]
      congr 3
      funext m
      exact (shrinkMinor_len min size m).symm
  case apart => exact List.pairwise_map.mpr hl.apart
  case bet =>
    intro a ha
    obtain ⟨maj, hmaj, haddr⟩ := hl.bet a ha
    exact ⟨_, List.mem_map_of_mem hmaj, haddr⟩

/-! ## The blocks of a state -/

/-- The minors are those of the blocks in use, and each block lies in its
minor. -/
structure HeapOk (s : HeapState) : Prop where
  layout : LayoutOk s.heap
  minors : (s.live.map HeapBlock.minor).Perm ((allMinors s.heap.majors).map LiballocMinor.addr)
  blocks : ∀ b ∈ s.live, ∀ m ∈ allMinors s.heap.majors, m.addr = b.minor →
    InMinor m b ∧ WordOk s.heap.mem m b

section State

variable {s : HeapState} {b : HeapBlock} {m : LiballocMinor} {h' : Liballoc}

theorem HeapOk.minor (hs : HeapOk s) (hb : b ∈ s.live) :
    ∃ m ∈ allMinors s.heap.majors, m.addr = b.minor ∧ InMinor m b ∧ WordOk s.heap.mem m b := by
  have hmem : b.minor ∈ (allMinors s.heap.majors).map LiballocMinor.addr :=
    hs.minors.mem_iff.mp (List.mem_map_of_mem hb)
  obtain ⟨m, hm, haddr⟩ := List.mem_map.mp hmem
  exact ⟨m, hm, haddr, hs.blocks b hb m hm haddr⟩

/-- No two blocks share a minor. -/
theorem HeapOk.distinct (hs : HeapOk s) : s.live.Pairwise fun b b' => b.minor ≠ b'.minor := by
  have hnodup : ((allMinors s.heap.majors).map LiballocMinor.addr).Nodup := by
    rw [List.Nodup, List.pairwise_map]
    refine hs.layout.minors_pairwise.imp fun {m m'} hapart heq => ?_
    have hlen : m.len = m.size + 28 := rfl
    have hlen' : m'.len = m'.size + 28 := rfl
    rcases hapart with hapart | hapart <;> omega
  have hlive := hs.minors.nodup_iff.mpr hnodup
  exact List.pairwise_map.mp hlive

theorem HeapOk.erase_ne (hs : HeapOk s) (hb : b ∈ s.live) {b' : HeapBlock}
    (hb' : b' ∈ s.live.erase b) : b.minor ≠ b'.minor := by
  have hpair := (List.perm_cons_erase hb).pairwise hs.distinct fun h => h.symm
  exact (List.pairwise_cons.mp hpair).1 b' hb'

theorem HeapOk.eq_of_minor (hs : HeapOk s) {b' : HeapBlock} (hb : b ∈ s.live) (hb' : b' ∈ s.live)
    (heq : b.minor = b'.minor) : b = b' := by
  by_contra hne
  have hin : b' ∈ s.live.erase b := (List.mem_erase_of_ne fun h => hne h.symm).mpr hb'
  exact hs.erase_ne hb hin heq

/-- One block more. -/
theorem HeapOk.add (hs : HeapOk s) (ha : Allocated m b s.heap h') :
    HeapOk ⟨h', b :: s.live⟩ := by
  have hmem : ∀ m', m' ∈ allMinors h'.majors ↔ m' = m ∨ m' ∈ allMinors s.heap.majors := by
    intro m'
    rw [ha.minors.mem_iff, List.mem_cons]
  constructor
  case layout => exact ha.layout
  case minors =>
    rw [List.map_cons, ha.minor]
    exact (hs.minors.cons _).trans (ha.minors.map LiballocMinor.addr).symm
  case blocks =>
    intro b' hb' m' hm' haddr
    rcases List.mem_cons.mp hb' with rfl | hb'
    · have heq : m' = m :=
        ha.layout.minor_eq hm' ((hmem m).mpr (.inl rfl)) (haddr.trans ha.minor)
      exact heq ▸ ⟨ha.block, ha.word⟩
    · obtain ⟨m₀, hm₀, haddr₀, hin, hword⟩ := hs.minor hb'
      have heq : m' = m₀ :=
        ha.layout.minor_eq hm' ((hmem m₀).mpr (.inr hm₀)) (haddr.trans haddr₀.symm)
      rw [heq]
      exact ⟨hin, hword.congr hin fun a hp _ => ha.kept m₀ hm₀ a hp⟩

/-- One block less. -/
theorem HeapOk.drop (hs : HeapOk s) (hb : b ∈ s.live) (haddr : m.addr = b.minor)
    (hf : Freed m s.heap h') : HeapOk ⟨h', s.live.erase b⟩ := by
  constructor
  case layout => exact hf.layout
  case minors =>
    have hlive := (List.perm_cons_erase hb).map HeapBlock.minor
    have hall := hf.minors.map LiballocMinor.addr
    rw [List.map_cons] at hlive hall
    have hboth := (hlive.symm.trans hs.minors).trans hall
    rw [haddr] at hboth
    exact hboth.cons_inv
  case blocks =>
    intro b' hb' m' hm' haddr'
    have hold : m' ∈ allMinors s.heap.majors :=
      hf.minors.mem_iff.mpr (List.mem_cons_of_mem _ hm')
    obtain ⟨hin, hword⟩ := hs.blocks b' (List.mem_of_mem_erase hb') m' hold haddr'
    exact ⟨hin, hword.congr hin fun a hp _ => hf.kept m' hold a hp⟩

/-- Bytes of a block are written. -/
theorem HeapOk.write (hs : HeapOk s) (hb : b ∈ s.live) (hm : m ∈ allMinors s.heap.majors)
    (haddr : m.addr = b.minor) (mem : Nat → UInt8)
    (heq : ∀ a, a < b.ptr ∨ b.ptr + m.reqSize ≤ a → mem a = s.heap.mem a) :
    HeapOk { s with heap := { s.heap with mem := mem } } := by
  have hinb := (hs.blocks b hb m hm haddr).1
  constructor
  case layout => exact hs.layout.withMem mem
  case minors => exact hs.minors
  case blocks =>
    intro b' hb' m' hm' haddr'
    obtain ⟨hin, hword⟩ := hs.blocks b' hb' m' hm' haddr'
    refine ⟨hin, hword.congr hin fun a hp hlt => heq a ?_⟩
    rcases hs.layout.minors_apart hm hm' with rfl | hapart
    · -- the block itself: its word is before the bytes
      obtain rfl := hs.eq_of_minor hb hb' (haddr.symm.trans haddr')
      exact .inl hlt
    · by_contra hbytes
      have hpay := hinb.payload (i := a - b.ptr) (by omega)
      rw [show b.ptr + (a - b.ptr) = a by omega] at hpay
      exact hapart.not_payload hp hpay

/-- A block gets smaller. -/
theorem HeapOk.shrink (hs : HeapOk s) (hb : b ∈ s.live) (hm : m ∈ allMinors s.heap.majors)
    (haddr : m.addr = b.minor) {size : Nat} (hsize : size ≤ m.reqSize) (junk : Nat → UInt8) :
    HeapOk ⟨{ s.heap with
        mem := writeHeaders junk s.heap.majors s.heap.mem
        majors := setReqSize s.heap.majors b.minor size }, { b with req := size } :: s.live.erase b⟩ := by
  constructor
  case layout => exact (hs.layout.setReqSize b.minor size).withMem _
  case minors =>
    have hmap : (allMinors (setReqSize s.heap.majors b.minor size)).map LiballocMinor.addr =
        (allMinors s.heap.majors).map LiballocMinor.addr := by
      rw [allMinors_setReqSize, List.map_map]
      exact List.map_congr_left fun m _ => shrinkMinor_addr b.minor size m
    rw [hmap]
    exact ((List.perm_cons_erase hb).map HeapBlock.minor).symm.trans hs.minors
  case blocks =>
    intro b' hb' m' hm' haddr'
    rw [allMinors_setReqSize] at hm'
    obtain ⟨m₀, hm₀, rfl⟩ := List.mem_map.mp hm'
    rw [shrinkMinor_addr] at haddr'
    have hkept : ∀ a, Payload m₀ a → writeHeaders junk s.heap.majors s.heap.mem a = s.heap.mem a :=
      fun a hp => writeHeaders_of_payload hs.layout hm₀ hp
    rcases List.mem_cons.mp hb' with rfl | hb'
    · obtain rfl := hs.layout.minor_eq hm hm₀ (haddr.trans haddr'.symm)
      obtain ⟨hin, hword⟩ := hs.blocks b hb m hm haddr
      have hroom := hin.room
      rw [shrinkMinor, if_pos haddr]
      have hin' : InMinor { m with reqSize := size } { b with req := size } := by
        refine ⟨le_rfl, hin.aligned, hin.shifted, hin.plain, ?_, hin.small⟩
        show b.ptr + size ≤ m.addr + m.len
        omega
      have hword' : WordOk s.heap.mem { m with reqSize := size } { b with req := size } := hword
      exact ⟨hin', hword'.congr hin' fun a hp _ => hkept a hp⟩
    · have hne := hs.erase_ne hb hb'
      rw [shrinkMinor, if_neg (fun h => hne (h.symm.trans haddr'))]
      obtain ⟨hin, hword⟩ := hs.blocks b' (List.mem_of_mem_erase hb') m₀ hm₀ haddr'
      exact ⟨hin, hword.congr hin fun a hp _ => hkept a hp⟩

end State

/-! ## `na_realloc` -/

theorem ownAlign_default (size : Nat) :
    ownAlign size defaultAlignment = defaultAlignment := by
  rw [ownAlign]
  split <;> rfl

theorem liballocMemcpy_of_out {mem : Nat → UInt8} {dest src n a : Nat}
    (h : a < dest ∨ dest + n ≤ a) : liballocMemcpy mem dest src n a = mem a :=
  if_neg (by omega)

theorem liballocMemcpy_of_in (mem : Nat → UInt8) (dest src : Nat) {n i : Nat} (hi : i < n) :
    liballocMemcpy mem dest src n (dest + i) = mem (src + i) := by
  rw [liballocMemcpy, if_pos (by omega), Nat.add_sub_cancel_left]

/-- A block becomes one of another size, with the same bytes. -/
structure Moved (s : HeapState) (b : HeapBlock) (size : Nat) (a : Allocation) : Prop where
  ok : HeapOk ⟨a.heap, ⟨a.ptr, size, defaultAlignment, a.minor⟩ :: s.live.erase b⟩
  bytes : ∀ i < min b.req size, a.heap.mem (a.ptr + i) = s.heap.mem (b.ptr + i)

/-- The way of `na_realloc` to a bigger block: allocate, copy, free. -/
theorem HeapOk.grow {s : HeapState} (hs : HeapOk s) {b : HeapBlock} (hb : b ∈ s.live)
    (halign : b.align = defaultAlignment) {m : LiballocMinor}
    (hm : m ∈ allMinors s.heap.majors) (haddr : m.addr = b.minor) {size : Nat}
    (hsize : m.reqSize < size) (hr : Request size defaultAlignment) {junk junk' : Nat → UInt8}
    {a : Allocation} (ha : naMalloc junk s.heap size defaultAlignment = some (some a)) :
    Moved s b size ⟨a.ptr, a.minor, naFree junk'
      { a.heap with mem := liballocMemcpy a.heap.mem a.ptr b.ptr m.reqSize }
      defaultAlignment b.ptr⟩ := by
  obtain ⟨m₁, halloc⟩ := naMalloc_spec hs.layout hr ha
  rw [ownAlign_default] at halloc
  have hadded := hs.add halloc
  have hm₁ : m₁ ∈ allMinors a.heap.majors := halloc.minors.mem_iff.mpr List.mem_cons_self
  have hold : m ∈ allMinors a.heap.majors :=
    halloc.minors.mem_iff.mpr (List.mem_cons_of_mem _ hm)
  have hreq : size ≤ m₁.reqSize := halloc.block.req
  have hcopied := hadded.write List.mem_cons_self hm₁ halloc.minor.symm
    (liballocMemcpy a.heap.mem a.ptr b.ptr m.reqSize)
    fun x hx => liballocMemcpy_of_out (by dsimp only at hx; omega)
  have hlive : b ∈ (⟨a.ptr, size, defaultAlignment, a.minor⟩ :: s.live : List HeapBlock) :=
    List.mem_cons_of_mem _ hb
  obtain ⟨hin, hword⟩ := hcopied.blocks b hlive m hold haddr
  have hfreed := naFree_spec junk' hcopied.layout hold hin hword
  rw [halign] at hfreed
  have hne : (⟨a.ptr, size, defaultAlignment, a.minor⟩ : HeapBlock) ≠ b := by
    intro heq
    exact (List.pairwise_cons.mp hadded.distinct).1 b hb (congrArg HeapBlock.minor heq)
  constructor
  case ok =>
    have hdropped := hcopied.drop hlive haddr hfreed
    dsimp only at hdropped
    rwa [List.erase_cons_tail (by simpa using hne)] at hdropped
  case bytes =>
    intro i hi
    have hib : i < m.reqSize := lt_of_lt_of_le (lt_min_iff.mp hi).1 hin.req
    have hnew : Payload m₁ (a.ptr + i) := halloc.block.payload (by omega)
    calc (naFree junk' { a.heap with mem := liballocMemcpy a.heap.mem a.ptr b.ptr m.reqSize }
            defaultAlignment b.ptr).mem (a.ptr + i)
        = liballocMemcpy a.heap.mem a.ptr b.ptr m.reqSize (a.ptr + i) := hfreed.kept m₁ hm₁ _ hnew
      _ = a.heap.mem (b.ptr + i) := liballocMemcpy_of_in _ _ _ hib
      _ = s.heap.mem (b.ptr + i) := halloc.kept m hm _ (hin.payload hib)

/-- **`na_realloc`** to a size that is not 0. -/
theorem naRealloc_spec {s : HeapState} (hs : HeapOk s) {b : HeapBlock} (hb : b ∈ s.live)
    (halign : b.align = defaultAlignment) {size : Nat} (hzero : size ≠ 0)
    (hr : Request size defaultAlignment) {junk junk' : Nat → UInt8} {a : Allocation}
    (ha : naRealloc junk junk' s.heap defaultAlignment b.ptr size = some (some a)) :
    Moved s b size a := by
  obtain ⟨m, hm, haddr, hin, hword⟩ := hs.minor hb
  obtain ⟨hlo, hhi⟩ := hs.layout.minor_lt hm
  have hptr : b.ptr ≠ 0 := hs.layout.ptr_ne_zero hm hin
  obtain ⟨maj, hi, hmem, hfind⟩ := hs.layout.find hm
  have hlen : m.len = m.size + sizeofMinor := rfl
  have hun := hin.unalign hword hhi
  rw [halign] at hun
  have hmin : u32Sub (m.addr + sizeofMinor) sizeofMinor = m.addr := by
    rw [u32Sub_of_le (by omega) (by omega), Nat.add_sub_cancel]
  rw [naRealloc, if_neg hzero, if_neg hptr, hun] at ha
  dsimp only at ha
  rw [hmin, hi] at ha
  dsimp only at ha
  rw [hfind] at ha
  dsimp only at ha
  split at ha
  · next hle =>
      obtain rfl := Option.some.inj (Option.some.inj ha)
      constructor
      case ok =>
        have hshrunk := hs.shrink hb hm haddr hle junk
        rwa [halign, ← haddr] at hshrunk
      case bytes =>
        intro i hi
        have hib : i < m.reqSize := lt_of_lt_of_le (lt_min_iff.mp hi).1 hin.req
        exact writeHeaders_of_payload hs.layout hm (hin.payload hib)
  · next hle =>
      obtain ⟨r, hr', heq⟩ := Option.map_eq_some_iff.mp ha
      obtain ⟨a₀, rfl, rfl⟩ := Option.map_eq_some_iff.mp heq
      exact hs.grow hb halign hm haddr (by omega) hr hr'

/-! ## Blocks of `malloc` -/

/-- A store to a block keeps the heap in order. -/
theorem heapOk_store {s : HeapState} (hs : HeapOk s) {b : HeapBlock} (hb : b ∈ s.live)
    (mem : Nat → UInt8)
    (heq : ∀ a, a < b.ptr ∨ b.ptr + b.req ≤ a → mem a = s.heap.mem a) :
    HeapOk { s with heap := { s.heap with mem := mem } } := by
  obtain ⟨m, hm, haddr, hin, -⟩ := hs.minor hb
  have hreq := hin.req
  exact hs.write hb hm haddr mem fun a ha => heq a (by omega)

/-- A block lies in the pages of the heap. -/
theorem heapOk_pages {s : HeapState} (hs : HeapOk s) {b : HeapBlock} (hb : b ∈ s.live) :
    heapStart ≤ b.ptr ∧ b.ptr + b.req ≤ heapStart + 2048 * 4096 := by
  obtain ⟨m, hm, -, hin, -⟩ := hs.minor hb
  obtain ⟨maj, hmaj, hm⟩ := mem_allMinors.mp hm
  have hmajor := (hs.layout.each maj hmaj).minor hm
  have hbounds := (hs.layout.each maj hmaj).bounds
  have hstart := hin.start
  have hroom := hin.room
  have hreq := hin.req
  exact ⟨by omega, by omega⟩

/-- A block lies in the heap, in 32 bits. -/
theorem heapOk_bounds {s : HeapState} (hs : HeapOk s) {b : HeapBlock} (hb : b ∈ s.live) :
    heapStart ≤ b.ptr ∧ b.ptr + b.req < 2 ^ 32 := by
  have hpages := heapOk_pages hs hb
  have hend : heapStart + 2048 * 4096 < 2 ^ 32 := by decide
  exact ⟨hpages.1, by omega⟩

theorem request_of_lt {size : Nat} (h : size < 2 ^ 31) : Request size defaultAlignment := by
  refine ⟨⟨4, by decide, rfl⟩, ?_⟩
  have hneed : needed size defaultAlignment = size + 80 := rfl
  rw [hneed, sizeofMajor, sizeofMinor]
  omega

/-- `malloc` adds a block; the other blocks and the user's memory keep their
bytes. -/
theorem malloc_step {s : HeapState} (hs : HeapOk s) {junk : Nat → UInt8} {size : Nat}
    {a : Allocation} (hsize : size < 2 ^ 31)
    (ha : naMalloc junk s.heap size defaultAlignment = some (some a)) :
    ∃ b : HeapBlock, b.ptr = a.ptr ∧ b.req = size ∧ HeapOk ⟨a.heap, b :: s.live⟩ ∧
      (∀ b' ∈ s.live, ∀ i < b'.req, a.heap.mem (b'.ptr + i) = s.heap.mem (b'.ptr + i)) ∧
      ∀ x < heapStart, a.heap.mem x = s.heap.mem x := by
  have hr := request_of_lt hsize
  obtain ⟨m, halloc⟩ := naMalloc_spec hs.layout hr ha
  refine ⟨_, rfl, rfl, hs.add halloc, ?_, fun x hx => naMalloc_below hs.layout hr ha hx⟩
  intro b' hb' i hi
  obtain ⟨m', hm', -, hin, -⟩ := hs.minor hb'
  exact halloc.kept m' hm' _ (hin.payload (hi.trans_le hin.req))

/-! ## Runs -/

instance (reqSize align : Nat) : Decidable (Request reqSize align) :=
  decidable_of_iff ((∃ k < 31, align = 2 ^ k) ∧
      needed reqSize align + sizeofMajor + sizeofMinor < 2 ^ 32)
    ⟨fun h => ⟨h.1, h.2⟩, fun h => ⟨h.power, h.fits⟩⟩

/-- The calls whose alignment is a power of two and whose sizes do not wrap. -/
def HeapUse (_ : HeapState) : HeapAct → Prop
  | .malloc reqSize align _ => Request reqSize align
  | .realloc _ size _ _ => Request size defaultAlignment
  | .free _ _ => True
  | .write _ _ _ => True

instance (s : HeapState) : (a : HeapAct) → Decidable (HeapUse s a)
  | .malloc reqSize align _ => inferInstanceAs (Decidable (Request reqSize align))
  | .realloc _ size _ _ => inferInstanceAs (Decidable (Request size defaultAlignment))
  | .free _ _ => isTrue trivial
  | .write _ _ _ => isTrue trivial

theorem heapInit_ok (mem : Nat → UInt8) : HeapOk (heapInit mem) := by
  constructor
  case layout =>
    refine ⟨rfl, ?_, List.Pairwise.nil, ?_⟩
    · intro maj hmaj
      cases hmaj
    · intro a ha
      cases ha
  case minors => exact List.Perm.nil
  case blocks =>
    intro b hb
    cases hb

theorem HeapOk.free {s : HeapState} (hs : HeapOk s) {b : HeapBlock} (hb : b ∈ s.live)
    (junk : Nat → UInt8) : HeapOk ⟨naFree junk s.heap b.align b.ptr, s.live.erase b⟩ := by
  obtain ⟨m, hm, haddr, hin, hword⟩ := hs.minor hb
  exact hs.drop hb haddr (naFree_spec junk hs.layout hm hin hword)

/-- Every step keeps the blocks in their minors. -/
theorem heapStep_ok {s s' : HeapState} {a : HeapAct} (hs : HeapOk s) (huse : HeapUse s a)
    (hstep : heapStep s a = some s') : HeapOk s' := by
  cases a with
  | malloc reqSize align junk =>
      rw [heapStep] at hstep
      split at hstep
      · next a ha =>
          cases hstep
          obtain ⟨m, halloc⟩ := naMalloc_spec hs.layout huse ha
          exact hs.add halloc
      · cases hstep
  | free b junk =>
      rw [heapStep] at hstep
      split at hstep
      · next hb =>
          cases hstep
          exact hs.free hb junk
      · cases hstep
  | realloc b size junk junk' =>
      rw [heapStep] at hstep
      split at hstep
      · next hb =>
          split at hstep
          · next a ha =>
              cases hstep
              by_cases hzero : size = 0
              · rw [naRealloc, if_pos hzero] at ha
                obtain rfl := Option.some.inj (Option.some.inj ha)
                rw [if_pos hzero, ← hb.2]
                exact hs.free hb.1 junk
              · rw [if_neg hzero]
                exact (naRealloc_spec hs hb.1 hb.2 hzero huse ha).ok
          · cases hstep
      · cases hstep
  | write b off byte =>
      rw [heapStep] at hstep
      split at hstep
      · next hb =>
          cases hstep
          obtain ⟨m, hm, haddr, hin, -⟩ := hs.minor hb.1
          have hreq := hin.req
          refine hs.write hb.1 hm haddr _ fun x hx => ?_
          exact Function.update_of_ne (by omega) _ _
      · cases hstep

/-! ## What a user can rely on -/

/-- The blocks, minors and majors of a state. -/
structure HeapSound (s : HeapState) : Prop where
  disjoint : s.live.Pairwise fun b b' => b.ptr + b.req ≤ b'.ptr ∨ b'.ptr + b'.req ≤ b.ptr
  inside : ∀ b ∈ s.live, ∃ maj ∈ s.heap.majors, ∃ m ∈ maj.minors, m.addr = b.minor ∧
    m.addr + sizeofMinor ≤ b.ptr ∧ b.ptr + b.req ≤ m.addr + sizeofMinor + m.size
  own : s.live.Pairwise fun b b' => b.minor ≠ b'.minor
  sorted : ∀ maj ∈ s.heap.majors,
    maj.minors.Pairwise fun m m' => m.addr + sizeofMinor + m.size ≤ m'.addr
  within : ∀ maj ∈ s.heap.majors, ∀ m ∈ maj.minors,
    maj.addr + sizeofMajor ≤ m.addr ∧ m.addr + sizeofMinor + m.size ≤ maj.addr + maj.size
  majors : s.heap.majors.Pairwise fun maj maj' =>
    maj.addr + maj.size ≤ maj'.addr ∨ maj'.addr + maj'.size ≤ maj.addr
  pages : ∀ maj ∈ s.heap.majors, maj.size = maj.pages * heapPageSize ∧
    ∃ pg, maj.addr = heapStart + pg * heapPageSize ∧ pg + maj.pages ≤ s.heap.heapBitmap.bitCnt ∧
      ∀ i, pg ≤ i → i < pg + maj.pages → bitOf s.heap.heapBitmap.bits i = true
  usage : ∀ maj ∈ s.heap.majors,
    maj.usage = sizeofMajor + (maj.minors.map fun m => m.size + sizeofMinor).sum
  aligned : ∀ b ∈ s.live, b.align ∣ b.ptr
  unalign : ∀ b ∈ s.live, unalignPtr b.align b.ptr s.heap.mem = b.minor + sizeofMinor

theorem HeapOk.sound {s : HeapState} (hs : HeapOk s) : HeapSound s := by
  have hl := hs.layout
  constructor
  case disjoint =>
    refine hs.distinct.imp_of_mem fun {b b'} hb hb' hne => ?_
    obtain ⟨m, hm, haddr, hin, -⟩ := hs.minor hb
    obtain ⟨m', hm', haddr', hin', -⟩ := hs.minor hb'
    have hmm : m ≠ m' := by
      rintro rfl
      exact hne (haddr.symm.trans haddr')
    have hstart := hin.start
    have hstart' := hin'.start
    have hroom := hin.room
    have hroom' := hin'.room
    have hreq := hin.req
    have hreq' := hin'.req
    rcases (hl.minors_apart hm hm').resolve_left hmm with hapart | hapart
    · exact .inl (by omega)
    · exact .inr (by omega)
  case inside =>
    intro b hb
    obtain ⟨m, hm, haddr, hin, -⟩ := hs.minor hb
    obtain ⟨maj, hmaj, hmin⟩ := mem_allMinors.mp hm
    have hroom := hin.room
    have hreq := hin.req
    have hlen : m.len = m.size + sizeofMinor := rfl
    exact ⟨maj, hmaj, m, hmin, haddr, hin.start, by omega⟩
  case own => exact hs.distinct
  case sorted =>
    intro maj hmaj
    refine (Packed.pairwise (hl.each maj hmaj).minors).imp fun {m m'} hle => ?_
    have hlen : m.len = m.size + sizeofMinor := rfl
    omega
  case within =>
    intro maj hmaj m hm
    have hin := (hl.each maj hmaj).minor hm
    have hlen : m.len = m.size + sizeofMinor := rfl
    exact ⟨hin.1, by omega⟩
  case majors => exact hl.apart
  case pages =>
    intro maj hmaj
    obtain ⟨pg, hpg, hfit, hset⟩ := (hl.each maj hmaj).place
    exact ⟨(hl.each maj hmaj).size, pg, hpg, hl.bits ▸ hfit, hset⟩
  case usage => exact fun maj hmaj => (hl.each maj hmaj).usage
  case aligned =>
    intro b hb
    obtain ⟨m, -, -, hin, -⟩ := hs.minor hb
    exact hin.aligned
  case unalign =>
    intro b hb
    obtain ⟨m, hm, haddr, hin, hword⟩ := hs.minor hb
    rw [hin.unalign hword (hl.minor_lt hm).2, haddr]

/-- A pointer that `na_malloc` returns has the alignment that was asked for. -/
def MallocAligned (s : HeapState) : Prop :=
  ∀ reqSize align junk a, HeapUse s (.malloc reqSize align junk) →
    naMalloc junk s.heap reqSize align = some (some a) → align ∣ a.ptr

/-- `na_realloc` keeps the bytes that both blocks have. -/
def ReallocKeeps (s : HeapState) : Prop :=
  ∀ b size junk junk' s', size ≠ 0 → HeapUse s (.realloc b size junk junk') →
    heapStep s (.realloc b size junk junk') = some s' →
    ∃ b', s'.live = b' :: s.live.erase b ∧ b'.req = size ∧
      ∀ i < min b.req size, s'.heap.mem (b'.ptr + i) = s.heap.mem (b.ptr + i)

/-- No search for a place goes on for ever. -/
def SearchEnds (s : HeapState) : Prop :=
  (∀ reqSize align junk, HeapUse s (.malloc reqSize align junk) →
    naMalloc junk s.heap reqSize align ≠ none) ∧
  (∀ b ∈ s.live, ∀ size junk junk', b.align = defaultAlignment →
    HeapUse s (.realloc b size junk junk') →
    naRealloc junk junk' s.heap defaultAlignment b.ptr size ≠ none)

theorem HeapOk.mallocAligned {s : HeapState} (hs : HeapOk s) : MallocAligned s := by
  intro reqSize align junk a huse ha
  obtain ⟨m, halloc⟩ := naMalloc_spec hs.layout huse ha
  have haligned : ownAlign reqSize align ∣ a.ptr := halloc.block.aligned
  rw [ownAlign] at haligned
  split at haligned
  · next hzero =>
      -- only a request without alignment needs no bytes
      have hone : align = 1 := by
        obtain ⟨k, -, hpow⟩ := Request.power huse
        have hpos : 0 < align := hpow ▸ Nat.two_pow_pos k
        rw [Request.padded huse, needed] at hzero
        split at hzero <;> omega
      rw [hone]
      exact one_dvd _
  · exact haligned

theorem HeapOk.reallocKeeps {s : HeapState} (hs : HeapOk s) : ReallocKeeps s := by
  intro b size junk junk' s' hzero huse hstep
  rw [heapStep] at hstep
  split at hstep
  · next hb =>
      split at hstep
      · next a ha =>
          cases hstep
          have hmoved := naRealloc_spec hs hb.1 hb.2 hzero huse ha
          exact ⟨⟨a.ptr, size, defaultAlignment, a.minor⟩, rfl, rfl, hmoved.bytes⟩
      · cases hstep
  · cases hstep

theorem HeapOk.searchEnds {s : HeapState} (hs : HeapOk s) : SearchEnds s := by
  constructor
  · intro reqSize align junk huse
    exact Option.isSome_iff_ne_none.mp (naMalloc_ends hs.layout huse)
  · intro b hb size junk junk' halign huse
    rw [naRealloc]
    split
    · exact Option.some_ne_none _
    · split
      · exact Option.isSome_iff_ne_none.mp (naMalloc_ends hs.layout huse)
      · dsimp only
        split
        · exact Option.some_ne_none _
        · split
          · exact Option.some_ne_none _
          · split
            · exact Option.some_ne_none _
            · rw [ne_eq, Option.map_eq_none_iff]
              exact Option.isSome_iff_ne_none.mp (naMalloc_ends hs.layout huse)

/-- **The kernel heap.** After every sequence of allocations, frees and
reallocations, with writes only to the bytes that were asked for, no two blocks
overlap and each lies in a minor of its own, the minors are packed into majors
and these into marked pages; pointers are aligned and lead back to their minors;
`na_realloc` keeps the bytes, and every search ends. -/
theorem heap_sound {mem : Nat → UInt8} {acts : List HeapAct} {s : HeapState}
    (huse : StepsMeet heapStep HeapUse (heapInit mem) acts)
    (hrun : runSteps heapStep (heapInit mem) acts = some s) :
    HeapSound s ∧ MallocAligned s ∧ ReallocKeeps s ∧ SearchEnds s := by
  have hs : HeapOk s :=
    runSteps_invariant_of_meet (fun _ _ _ hok hu h => heapStep_ok hok hu h) (heapInit_ok mem)
      huse hrun
  exact ⟨hs.sound, hs.mallocAligned, hs.reallocKeeps, hs.searchEnds⟩

/-- Two blocks, one of them page-aligned; a byte is written to the first, which
then grows. -/
theorem heap_sound_two_blocks : ∃ s,
    runSteps heapStep (heapInit fun _ => 0) [.malloc 10 16 fun _ => 1, .malloc 5 4096 fun _ => 2,
      .write ⟨heapStart + 128, 10, 16, heapStart + 24⟩ 9 7,
      .realloc ⟨heapStart + 128, 10, 16, heapStart + 24⟩ 100 (fun _ => 3) fun _ => 4] = some s ∧
      HeapSound s := by
  obtain ⟨s, hs⟩ := Option.isSome_iff_exists.mp
    (show (runSteps heapStep (heapInit fun _ => 0) [.malloc 10 16 fun _ => 1,
      .malloc 5 4096 fun _ => 2,
      .write ⟨heapStart + 128, 10, 16, heapStart + 24⟩ 9 7,
      .realloc ⟨heapStart + 128, 10, 16, heapStart + 24⟩ 100 (fun _ => 3) fun _ => 4]).isSome by
        decide +kernel)
  exact ⟨s, hs, (heap_sound (by decide +kernel) hs).1⟩

end Levos.Mm
