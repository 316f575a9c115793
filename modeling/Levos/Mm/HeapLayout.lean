import Levos.Mm.Heap

/-!
# Majors and minors

The layout of the heap: every major is a run of pages that the bitmap has
marked, its minors are packed behind its header, and `usage` counts them.
`LayoutOk` is kept by the search for a place (`mallocLoop_spec`), and the
search ends (`mallocLoop_ends`).
-/

namespace Levos.Mm

open Levos.Base Levos.Lib

/-! ## The layout -/

/-- A minor with its header. -/
def LiballocMinor.len (m : LiballocMinor) : Nat := m.size + sizeofMinor

/-- The minors are packed between the header and the end of the major. -/
def PackedIn (lo hi : Nat) (minors : List LiballocMinor) : Prop :=
  Packed LiballocMinor.addr LiballocMinor.len hi lo minors

structure MajorOk (b : Bitmap) (maj : LiballocMajor) : Prop where
  place : ∃ pg, maj.addr = heapStart + pg * heapPageSize ∧ pg + maj.pages ≤ 2048 ∧
    ∀ i, pg ≤ i → i < pg + maj.pages → bitOf b.bits i = true
  size : maj.size = maj.pages * heapPageSize
  minors : PackedIn (maj.addr + sizeofMajor) (maj.addr + maj.size) maj.minors
  usage : maj.usage = sizeofMajor + (maj.minors.map LiballocMinor.len).sum

/-- Two majors do not overlap. -/
def Apart (m m' : LiballocMajor) : Prop :=
  m.addr + m.size ≤ m'.addr ∨ m'.addr + m'.size ≤ m.addr

instance : Std.Symm Apart := ⟨fun _ _ => Or.symm⟩

structure LayoutOk (h : Liballoc) : Prop where
  bits : h.heapBitmap.bitCnt = 2048
  each : ∀ maj ∈ h.majors, MajorOk h.heapBitmap maj
  apart : h.majors.Pairwise Apart
  bet : ∀ a, h.bestBet = some a → ∃ maj ∈ h.majors, maj.addr = a

/-- All minors. -/
def allMinors (majors : List LiballocMajor) : List LiballocMinor :=
  majors.flatMap LiballocMajor.minors

theorem mem_allMinors {majors : List LiballocMajor} {m : LiballocMinor} :
    m ∈ allMinors majors ↔ ∃ maj ∈ majors, m ∈ maj.minors := List.mem_flatMap

/-- The addresses of a major are those of the heap. -/
theorem MajorOk.bounds {b : Bitmap} {maj : LiballocMajor} (h : MajorOk b maj) :
    heapStart ≤ maj.addr ∧ maj.addr + maj.size ≤ heapStart + 2048 * 4096 := by
  obtain ⟨pg, hpg, hfit, -⟩ := h.place
  have hsize := h.size
  rw [heapPageSize] at hpg hsize
  rw [hpg, hsize]
  omega

theorem MajorOk.header {b : Bitmap} {maj : LiballocMajor} (h : MajorOk b maj) :
    sizeofMajor ≤ maj.size := by
  have := Packed.bounds h.minors
  omega

/-- A minor lies in its major, behind the header. -/
theorem MajorOk.minor {b : Bitmap} {maj : LiballocMajor} (h : MajorOk b maj) {m : LiballocMinor}
    (hm : m ∈ maj.minors) :
    maj.addr + sizeofMajor ≤ m.addr ∧ m.addr + m.len ≤ maj.addr + maj.size :=
  Packed.mem h.minors hm

theorem MajorOk.usage_le {b : Bitmap} {maj : LiballocMajor} (h : MajorOk b maj) :
    maj.usage ≤ maj.size := by
  have hsum := Packed.sum_le h.minors
  have husage := h.usage
  omega

theorem MajorOk.mono {b b' : Bitmap} {maj : LiballocMajor} (h : MajorOk b maj)
    (hbits : ∀ i, bitOf b.bits i = true → bitOf b'.bits i = true) : MajorOk b' maj := by
  obtain ⟨pg, hpg, hfit, hset⟩ := h.place
  exact ⟨⟨pg, hpg, hfit, fun i hi hlt => hbits i (hset i hi hlt)⟩, h.size, h.minors, h.usage⟩

theorem LayoutOk.eq_or_apart {h : Liballoc} (hl : LayoutOk h) {m m' : LiballocMajor}
    (hm : m ∈ h.majors) (hm' : m' ∈ h.majors) : m = m' ∨ Apart m m' := by
  by_cases heq : m = m'
  · exact .inl heq
  · exact .inr (hl.apart.forall hm hm' heq)

/-- Two minors, with their headers, do not overlap. -/
def MinorsApart (m m' : LiballocMinor) : Prop :=
  m.addr + m.len ≤ m'.addr ∨ m'.addr + m'.len ≤ m.addr

instance : Std.Symm MinorsApart := ⟨fun _ _ => Or.symm⟩

theorem LayoutOk.minors_pairwise {h : Liballoc} (hl : LayoutOk h) :
    (allMinors h.majors).Pairwise MinorsApart := by
  refine List.pairwise_flatMap.mpr ⟨fun maj hmaj => ?_, ?_⟩
  · exact (Packed.pairwise (hl.each maj hmaj).minors).imp Or.inl
  · refine hl.apart.imp_of_mem fun {maj maj'} hmaj hmaj' hapart m hm m' hm' => ?_
    have hin := (hl.each maj hmaj).minor hm
    have hin' := (hl.each maj' hmaj').minor hm'
    rcases hapart with hapart | hapart
    · exact .inl (by omega)
    · exact .inr (by omega)

/-- Two minors are the same or do not overlap. -/
theorem LayoutOk.minors_apart {h : Liballoc} (hl : LayoutOk h) {m m' : LiballocMinor}
    (hm : m ∈ allMinors h.majors) (hm' : m' ∈ allMinors h.majors) :
    m = m' ∨ MinorsApart m m' := by
  by_cases heq : m = m'
  · exact .inl heq
  · exact .inr (hl.minors_pairwise.forall hm hm' heq)

theorem LayoutOk.minor_lt {h : Liballoc} (hl : LayoutOk h) {m : LiballocMinor}
    (hm : m ∈ allMinors h.majors) : heapStart ≤ m.addr ∧ m.addr + m.len < 2 ^ 32 := by
  obtain ⟨maj, hmaj, hm⟩ := mem_allMinors.mp hm
  have hin := (hl.each maj hmaj).minor hm
  have hbounds := (hl.each maj hmaj).bounds
  have hstart : heapStart + 2048 * 4096 < 2 ^ 32 := by decide
  exact ⟨by omega, by omega⟩

theorem LayoutOk.withMem {h : Liballoc} (hl : LayoutOk h) (mem : Nat → UInt8) :
    LayoutOk { h with mem := mem } := ⟨hl.bits, hl.each, hl.apart, hl.bet⟩

/-- Headers lie in the heap. -/
theorem LayoutOk.header_below {h : Liballoc} (hl : LayoutOk h) {a : Nat} (ha : a < heapStart) :
    headerByte h.majors a = false := by
  rw [Bool.eq_false_iff]
  intro hheader
  obtain ⟨maj, hmaj, hcase⟩ := List.any_eq_true.mp hheader
  have hlo := (hl.each maj hmaj).bounds.1
  rcases Bool.or_eq_true _ _ ▸ hcase with hcase | hcase
  · have := (of_decide_eq_true hcase).1
    omega
  · obtain ⟨m, hm, hin⟩ := List.any_eq_true.mp hcase
    have := (of_decide_eq_true hin).1
    have := ((hl.each maj hmaj).minor hm).1
    omega

/-- The bytes behind a minor's header belong to no header. -/
theorem LayoutOk.payload {h : Liballoc} (hl : LayoutOk h) {m : LiballocMinor}
    (hm : m ∈ allMinors h.majors) {a : Nat} (hlo : m.addr + sizeofMinor ≤ a)
    (hhi : a < m.addr + m.len) : headerByte h.majors a = false := by
  rw [Bool.eq_false_iff]
  intro hheader
  obtain ⟨maj, hmaj, hcase⟩ := List.any_eq_true.mp hheader
  obtain ⟨maj₀, hmaj₀, hm₀⟩ := mem_allMinors.mp hm
  rcases Bool.or_eq_true _ _ ▸ hcase with hcase | hcase
  · obtain ⟨hge, hlt⟩ := of_decide_eq_true hcase
    have hin := (hl.each maj₀ hmaj₀).minor hm₀
    have hhdr := (hl.each maj hmaj).header
    rcases hl.eq_or_apart hmaj₀ hmaj with rfl | hapart
    · omega
    · rcases hapart with hapart | hapart <;> omega
  · obtain ⟨m', hm', hcase⟩ := List.any_eq_true.mp hcase
    obtain ⟨hge, hlt⟩ := of_decide_eq_true hcase
    have hlen : sizeofMinor ≤ m'.len := Nat.le_add_left _ _
    rcases hl.minors_apart hm (mem_allMinors.mpr ⟨maj, hmaj, hm'⟩) with rfl | hapart
    · omega
    · rcases hapart with hapart | hapart <;> omega

/-! ## A new minor -/

/-- The minors with one more between them. -/
structure Placed (lo hi size reqSize : Nat) (minors : List LiballocMinor) (p : Place) : Prop where
  packed : PackedIn lo hi p.minors
  perm : p.minors.Perm (⟨p.addr, size, reqSize⟩ :: minors)

/-- The gap behind a minor, as the code computes it. -/
theorem gap_eq {hi : Nat} {min : LiballocMinor} (h : min.addr + min.len ≤ hi) (hhi : hi < 2 ^ 32) :
    u32Sub (u32Sub (u32Sub hi min.addr) sizeofMinor) min.size = hi - (min.addr + min.len) := by
  rw [LiballocMinor.len, sizeofMinor] at *
  simp only [u32Sub]
  omega

theorem placeBehind_spec {hi size reqSize : Nat} (hhi : hi < 2 ^ 32)
    (hfit : size + sizeofMinor < 2 ^ 32) {minors : List LiballocMinor} {lo : Nat} {p : Place}
    (h : PackedIn lo hi minors) (hp : placeBehind hi size reqSize minors = some p) :
    Placed lo hi size reqSize minors p := by
  induction minors generalizing lo p with
  | nil => cases hp
  | cons min rest ih =>
      have hmin := Packed.mem h List.mem_cons_self
      have hlen : min.len = min.size + sizeofMinor := rfl
      cases rest with
      | nil =>
          rw [placeBehind] at hp
          dsimp only at hp
          rw [gap_eq hmin.2 hhi, u32_of_lt hfit] at hp
          split at hp
          · next hroom =>
              rw [u32_of_lt (by omega)] at hp
              cases hp
              refine ⟨⟨h.1, ?_, ?_⟩, List.Perm.swap _ _ _⟩
              · show min.addr + min.len ≤ min.addr + sizeofMinor + min.size
                omega
              · show min.addr + sizeofMinor + min.size + (size + sizeofMinor) ≤ hi
                omega
          · cases hp
      | cons next rest =>
          have hnext := Packed.mem h.2 List.mem_cons_self
          have hgap : min.addr + min.len ≤ next.addr := h.2.1
          rw [placeBehind] at hp
          dsimp only at hp
          rw [gap_eq hgap (by omega), u32_of_lt hfit] at hp
          split at hp
          · next hroom =>
              rw [u32_of_lt (by omega)] at hp
              cases hp
              refine ⟨⟨h.1, ?_, ?_, h.2.2⟩, List.Perm.swap _ _ _⟩
              · show min.addr + min.len ≤ min.addr + sizeofMinor + min.size
                omega
              · show min.addr + sizeofMinor + min.size + (size + sizeofMinor) ≤ next.addr
                omega
          · obtain ⟨p', hp', rfl⟩ := Option.map_eq_some_iff.mp hp
            have hrest := ih h.2 hp'
            exact ⟨⟨h.1, hrest.packed⟩,
              (hrest.perm.cons min).trans (List.Perm.swap _ _ _)⟩

theorem placeMinor_spec {b : Bitmap} {maj : LiballocMajor} {size reqSize : Nat} {p : Place}
    (h : MajorOk b maj) (hfit : size + sizeofMinor < 2 ^ 32)
    (hroom : maj.minors = [] → maj.addr + sizeofMajor + (size + sizeofMinor) ≤ maj.addr + maj.size)
    (hp : placeMinor maj size reqSize = some p) :
    Placed (maj.addr + sizeofMajor) (maj.addr + maj.size) size reqSize maj.minors p := by
  have hbounds := h.bounds
  have hstart : heapStart + 2048 * 4096 < 2 ^ 32 := by decide
  have hhdr := h.header
  have hpacked := h.minors
  rw [placeMinor] at hp
  dsimp only at hp
  rw [u32_of_lt (by omega)] at hp
  split at hp
  · next hnil =>
      cases hp
      rw [hnil]
      exact ⟨⟨le_rfl, hroom hnil⟩, List.Perm.refl _⟩
  · next first rest hcons =>
      rw [hcons] at hpacked ⊢
      have hfirst := Packed.mem hpacked List.mem_cons_self
      have hdiff : u32Sub (u32Sub first.addr maj.addr) sizeofMajor =
          first.addr - (maj.addr + sizeofMajor) := by
        rw [u32Sub_of_le (a := first.addr) (by omega) (by omega),
          u32Sub_of_le (by omega) (by omega)]
        omega
      rw [hdiff, u32_of_lt hfit] at hp
      split at hp
      · next hgap =>
          cases hp
          refine ⟨⟨le_rfl, ?_, hpacked.2⟩, List.Perm.refl _⟩
          show maj.addr + sizeofMajor + (size + sizeofMinor) ≤ first.addr
          omega
      · rw [u32_of_lt (by omega)] at hp
        exact placeBehind_spec (by omega) hfit hpacked hp

/-- The major with the new minor. -/
theorem MajorOk.take {b : Bitmap} {maj : LiballocMajor} (h : MajorOk b maj) {size reqSize : Nat}
    {p : Place} (hfit : size + sizeofMinor < 2 ^ 32)
    (hp : Placed (maj.addr + sizeofMajor) (maj.addr + maj.size) size reqSize maj.minors p) :
    MajorOk b { maj with
      minors := p.minors, usage := u32 (maj.usage + u32 (size + sizeofMinor)) } := by
  have hsum : (p.minors.map LiballocMinor.len).sum =
      size + sizeofMinor + (maj.minors.map LiballocMinor.len).sum := by
    rw [(hp.perm.map LiballocMinor.len).sum_eq, List.map_cons, List.sum_cons]
    rfl
  have hle := Packed.sum_le hp.packed
  have hbounds := h.bounds
  have hstart : heapStart + 2048 * 4096 < 2 ^ 32 := by decide
  refine ⟨h.place, h.size, hp.packed, ?_⟩
  dsimp only
  rw [u32_of_lt hfit, hsum, h.usage, u32_of_lt (by omega)]
  omega

/-! ## A new major -/

/-- A fresh major that holds a minor of the size. -/
structure FreshMajor (b b' : Bitmap) (size : Nat) (new : LiballocMajor) : Prop where
  ok : MajorOk b' new
  empty : new.minors = []
  room : sizeofMajor + (size + sizeofMinor) ≤ new.size
  bits : b'.bitCnt = b.bitCnt
  grows : ∀ i, bitOf b.bits i = true → bitOf b'.bits i = true
  apart : ∀ maj, MajorOk b maj → Apart maj new

theorem allocateNewPage_spec {b b' : Bitmap} {size : Nat} {new : LiballocMajor}
    (hbits : b.bitCnt = 2048) (hfit : size + sizeofMajor + sizeofMinor < 2 ^ 32)
    (h : allocateNewPage b size = some (new, b')) : FreshMajor b b' size new := by
  have hstart : heapStart + 2048 * 4096 < 2 ^ 32 := by decide
  have hin : u32 (size + sizeofMajor) = size + sizeofMajor := u32_of_lt (by omega)
  rw [allocateNewPage, hin, u32_of_lt hfit] at h
  clear hin
  have hpage : heapPageSize = 4096 := rfl
  generalize hst : (if (if (size + sizeofMajor + sizeofMinor) % heapPageSize = 0 then
      (size + sizeofMajor + sizeofMinor) / heapPageSize
      else (size + sizeofMajor + sizeofMinor) / heapPageSize + 1) < heapPageCount then heapPageCount
    else if (size + sizeofMajor + sizeofMinor) % heapPageSize = 0 then
      (size + sizeofMajor + sizeofMinor) / heapPageSize
      else (size + sizeofMajor + sizeofMinor) / heapPageSize + 1) = st at h
  have hneed : size + sizeofMajor + sizeofMinor ≤ st * 4096 ∧ 0 < st := by
    rw [heapPageSize, heapPageCount] at hst
    subst hst
    split_ifs <;> omega
  obtain ⟨⟨addr, b₁⟩, halloc, heq⟩ := Option.map_eq_some_iff.mp h
  cases heq
  rw [liballocAlloc] at halloc
  split at halloc
  · next pg b₁ hscan =>
      cases halloc
      obtain ⟨hrun, hclear, rfl⟩ := bitmapScanAndFlip_run hscan
      rw [hbits] at hrun
      have haddr : heapStart + pg * heapPageSize < 2 ^ 32 :=
        lt_of_le_of_lt (Nat.add_le_add_left (Nat.mul_le_mul_right _ (by omega)) _) hstart
      have hbytes : st * heapPageSize < 2 ^ 32 :=
        lt_of_le_of_lt (Nat.mul_le_mul_right _ (show st ≤ 2048 by omega)) (by decide)
      rw [u32_of_lt haddr, u32_of_lt hbytes]
      constructor
      case ok =>
        refine ⟨⟨pg, rfl, hrun, fun i hi hlt => ?_⟩, rfl, ?_, rfl⟩
        · rw [bitOf_bitmapSetMultiple, if_pos ⟨hi, hlt⟩]
        · show heapStart + pg * heapPageSize + sizeofMajor ≤ heapStart + pg * heapPageSize + st * heapPageSize
          rw [hpage]
          omega
      case empty => rfl
      case room =>
        show sizeofMajor + (size + sizeofMinor) ≤ st * heapPageSize
        rw [hpage]
        omega
      case bits => exact bitmapSetMultiple_bitCnt _ _ _ _
      case grows =>
        intro i hi
        rw [bitOf_bitmapSetMultiple, hi, ite_self]
      case apart =>
        -- the pages of the other major are marked, those of the new one were clear
        intro maj hmaj
        obtain ⟨pg', hpg', -, hset⟩ := hmaj.place
        have hpages : 0 < maj.pages := by
          have hhdr := hmaj.header
          rw [hmaj.size, sizeofMajor, heapPageSize] at hhdr
          omega
        have hsize := hmaj.size
        rw [hpage] at hpg' hsize
        rw [Apart, hpg', hsize, hpage]
        by_contra hover
        rw [not_or, not_le, not_le] at hover
        dsimp only at hover
        have hboth : ∃ i, pg ≤ i ∧ i < pg + st ∧ pg' ≤ i ∧ i < pg' + maj.pages :=
          ⟨max pg pg', by omega, by omega, by omega, by omega⟩
        obtain ⟨i, h₁, h₂, h₃, h₄⟩ := hboth
        exact Bool.false_ne_true ((hclear i h₁ h₂).symm.trans (hset i h₃ h₄))
  · cases halloc

theorem LayoutOk.append {h : Liballoc} (hl : LayoutOk h) {b : Bitmap} {size : Nat}
    {new : LiballocMajor} (hnew : FreshMajor h.heapBitmap b size new) :
    LayoutOk { h with heapBitmap := b, majors := h.majors ++ [new] } := by
  constructor
  case bits => exact hnew.bits.trans hl.bits
  case each =>
    intro maj hmaj
    rcases List.mem_append.mp hmaj with hmaj | hmaj
    · exact (hl.each maj hmaj).mono hnew.grows
    · exact List.mem_singleton.mp hmaj ▸ hnew.ok
  case apart =>
    refine List.pairwise_append.mpr ⟨hl.apart, List.pairwise_singleton _ _, ?_⟩
    intro maj hmaj maj' hmaj'
    exact List.mem_singleton.mp hmaj' ▸ hnew.apart maj (hl.each maj hmaj)
  case bet =>
    intro a ha
    obtain ⟨maj, hmaj, haddr⟩ := hl.bet a ha
    exact ⟨maj, List.mem_append_left _ hmaj, haddr⟩

theorem allMinors_append_empty {majors : List LiballocMajor} {new : LiballocMajor}
    (h : new.minors = []) : allMinors (majors ++ [new]) = allMinors majors := by
  simp [allMinors, h]

/-! ## Replacing a major -/

/-- A list around the element at an index. -/
theorem split_at {α : Type} {l : List α} {i : Nat} {a : α} (h : l[i]? = some a) :
    ∃ l₁ l₂, l = l₁ ++ a :: l₂ ∧ (∀ b, l.set i b = l₁ ++ b :: l₂) ∧ l.eraseIdx i = l₁ ++ l₂ := by
  induction l generalizing i with
  | nil => cases h
  | cons x l ih =>
      cases i with
      | zero =>
          obtain rfl := Option.some.inj h
          exact ⟨[], l, rfl, fun _ => rfl, rfl⟩
      | succ i =>
          obtain ⟨l₁, l₂, heq, hset, herase⟩ := ih h
          refine ⟨x :: l₁, l₂, by rw [heq]; rfl, fun b => ?_, ?_⟩
          · rw [List.set_cons_succ, hset]
            rfl
          · rw [List.eraseIdx_cons_succ, herase]
            rfl

/-- A major is replaced by one in the same pages. -/
theorem LayoutOk.replace {h : Liballoc} (hl : LayoutOk h) {l₁ l₂ : List LiballocMajor}
    {maj maj' : LiballocMajor} (heq : h.majors = l₁ ++ maj :: l₂) (haddr : maj'.addr = maj.addr)
    (hsize : maj'.size = maj.size) (hok : MajorOk h.heapBitmap maj') :
    LayoutOk { h with majors := l₁ ++ maj' :: l₂ } := by
  have hmem : ∀ m, m ∈ l₁ ∨ m ∈ l₂ → m ∈ h.majors := by
    intro m hm
    rw [heq, List.mem_append, List.mem_cons]
    tauto
  constructor
  case bits => exact hl.bits
  case each =>
    intro m hm
    rcases List.mem_append.mp hm with hm | hm
    · exact hl.each m (hmem m (.inl hm))
    · rcases List.mem_cons.mp hm with rfl | hm
      · exact hok
      · exact hl.each m (hmem m (.inr hm))
  case apart =>
    have hapart := hl.apart
    rw [heq, List.pairwise_append, List.pairwise_cons] at hapart
    obtain ⟨h₁, ⟨h₂, h₃⟩, h₄⟩ := hapart
    refine List.pairwise_append.mpr ⟨h₁, List.pairwise_cons.mpr ⟨fun m hm => ?_, h₃⟩, ?_⟩
    · have := h₂ m hm
      rw [Apart] at this ⊢
      rwa [haddr, hsize]
    · intro m hm m' hm'
      rcases List.mem_cons.mp hm' with rfl | hm'
      · have := h₄ m hm maj List.mem_cons_self
        rw [Apart] at this ⊢
        rwa [haddr, hsize]
      · exact h₄ m hm m' (List.mem_cons_of_mem _ hm')
  case bet =>
    intro a ha
    obtain ⟨m, hm, hma⟩ := hl.bet a ha
    rw [heq, List.mem_append, List.mem_cons] at hm
    rcases hm with hm | rfl | hm
    · exact ⟨m, List.mem_append_left _ hm, hma⟩
    · exact ⟨maj', List.mem_append_right _ List.mem_cons_self, haddr.trans hma⟩
    · exact ⟨m, List.mem_append_right _ (List.mem_cons_of_mem _ hm), hma⟩


/-! ## The search -/

/-- A search that has found a place: the layout has one minor more. -/
structure Found (size reqSize : Nat) (h h' : Liballoc) (p : Place) : Prop where
  layout : LayoutOk h'
  mem : h'.mem = h.mem
  minors : (allMinors h'.majors).Perm (⟨p.addr, size, reqSize⟩ :: allMinors h.majors)

section Search

variable {size reqSize : Nat}

/-- The search may have gone on from a heap with the same minors. -/
theorem Found.of_same {h₀ h h' : Liballoc} {p : Place} (hf : Found size reqSize h₀ h' p)
    (hmem : h₀.mem = h.mem) (hminors : allMinors h₀.majors = allMinors h.majors) :
    Found size reqSize h h' p :=
  ⟨hf.layout, hf.mem.trans hmem, hminors ▸ hf.minors⟩

/-- A search that goes on is right where the rest of it is. -/
def NextOk (size reqSize : Nat)
    (next : Liballoc → Nat → Bool → Option (Option (Liballoc × Place))) : Prop :=
  ∀ {h i startedBet h' p}, LayoutOk h → next h i startedBet = some (some (h', p)) →
    Found size reqSize h h' p

theorem takePlace_spec {h : Liballoc} (hl : LayoutOk h) {i : Nat} {maj : LiballocMajor}
    (hi : h.majors[i]? = some maj) (hfit : size + sizeofMinor < 2 ^ 32) {p : Place}
    (hp : Placed (maj.addr + sizeofMajor) (maj.addr + maj.size) size reqSize maj.minors p) :
    Found size reqSize h (takePlace h i maj size p) p := by
  obtain ⟨l₁, l₂, heq, hset, -⟩ := split_at hi
  have hmaj : maj ∈ h.majors := List.mem_of_getElem? hi
  rw [takePlace, hset]
  refine ⟨hl.replace heq rfl rfl ((hl.each maj hmaj).take hfit hp), rfl, ?_⟩
  show (allMinors (l₁ ++ _ :: l₂)).Perm _
  rw [heq]
  simp only [allMinors, List.flatMap_append, List.flatMap_cons]
  exact ((hp.perm.append_right _).append_left _).trans List.perm_middle

theorem tryMajor_spec {next : Liballoc → Nat → Bool → Option (Option (Liballoc × Place))}
    (hnext : NextOk size reqSize next) (hfit : size + sizeofMajor + sizeofMinor < 2 ^ 32)
    {h h' : Liballoc} {i : Nat} {maj : LiballocMajor} {startedBet : Bool} {p : Place}
    (hl : LayoutOk h) (hi : h.majors[i]? = some maj)
    (hroom : maj.minors = [] → sizeofMajor + (size + sizeofMinor) ≤ maj.size)
    (hp : tryMajor size reqSize next h i maj startedBet = some (some (h', p))) :
    Found size reqSize h h' p := by
  have hmaj : maj ∈ h.majors := List.mem_of_getElem? hi
  rw [tryMajor] at hp
  split at hp
  · next p' hplace =>
      cases hp
      have hplaced := placeMinor_spec (hl.each maj hmaj) (by omega)
        (fun hnil => by have := hroom hnil; omega) hplace
      exact takePlace_spec hl hi (by omega) hplaced
  · split at hp
    · exact hnext hl hp
    · split at hp
      · exact hnext hl hp
      · split at hp
        · cases hp
        · next new b hnew =>
            have hfresh := allocateNewPage_spec hl.bits hfit hnew
            exact (hnext (hl.append hfresh) hp).of_same rfl (allMinors_append_empty hfresh.empty)

/-- The best bet changes to a major of the heap. -/
theorem LayoutOk.setBet {h : Liballoc} (hl : LayoutOk h) {maj : LiballocMajor}
    (hmaj : maj ∈ h.majors) (c : Prop) [Decidable c] :
    LayoutOk (if c then { h with bestBet := some maj.addr } else h) := by
  split
  · refine ⟨hl.bits, hl.each, hl.apart, fun a ha => ?_⟩
    exact ⟨maj, hmaj, Option.some.inj ha⟩
  · exact hl

/-- **The search keeps the layout.** A place that it finds is a new minor in
one of the majors, all other minors are where they were. -/
theorem mallocLoop_spec (hfit : size + sizeofMajor + sizeofMinor < 2 ^ 32) {fuel bestSize : Nat} :
    NextOk size reqSize fun h i startedBet =>
      mallocLoop size reqSize fuel h i startedBet bestSize := by
  induction fuel generalizing bestSize with
  | zero =>
      intro h i startedBet h' p _ hp
      cases hp
  | succ fuel ih =>
      intro h i startedBet h' p hl hp
      beta_reduce at hp
      unfold mallocLoop at hp
      split at hp
      · cases hp
      · next maj hi =>
          have hmaj : maj ∈ h.majors := List.mem_of_getElem? hi
          have hbet := hl.setBet hmaj (bestSize < u32Sub maj.size maj.usage)
          dsimp only at hp
          generalize hh₀ : (if bestSize < u32Sub maj.size maj.usage then
            { h with bestBet := some maj.addr } else h) = h₀ at hp hbet
          have hmajors : h₀.majors = h.majors := by
            subst hh₀
            split <;> rfl
          have hmem : h₀.mem = h.mem := by
            subst hh₀
            split <;> rfl
          refine Found.of_same ?_ hmem (congrArg allMinors hmajors)
          split at hp
          · split at hp
            · exact ih hbet hp
            · split at hp
              · exact ih hbet hp
              · split at hp
                · cases hp
                · next hlast _ new b hnew =>
                    have hfresh := allocateNewPage_spec hbet.bits hfit hnew
                    have hlen : i < h₀.majors.length :=
                      hmajors ▸ (List.getElem?_eq_some_iff.mp hi).1
                    have hat : (h₀.majors ++ [new])[i + 1]? = some new := by
                      rw [show i + 1 = h₀.majors.length by omega, List.getElem?_concat_length]
                    exact (tryMajor_spec ih hfit (hbet.append hfresh) hat (fun _ => hfresh.room)
                      hp).of_same rfl (allMinors_append_empty hfresh.empty)
          · next hdiff =>
              refine tryMajor_spec ih hfit hbet (hmajors ▸ hi) (fun hnil => ?_) hp
              have husage := (hl.each maj hmaj).usage
              have hle := (hl.each maj hmaj).usage_le
              have hbounds := (hl.each maj hmaj).bounds
              have hstart : heapStart + 2048 * 4096 < 2 ^ 32 := by decide
              rw [hnil, List.map_nil, List.sum_nil] at husage
              rw [u32_of_lt (by omega), u32Sub_of_le hle (by omega)] at hdiff
              omega

/-! ## The search ends -/

/-- The rounds that are left at major `i`: to the end of the list, once more
through all of it after a start at the best bet, and one in a new major. -/
def roundsLeft (h : Liballoc) (i : Nat) (startedBet : Bool) : Nat :=
  (if startedBet then h.majors.length else 0) + (h.majors.length - i) + 1

/-- A major without minors takes the minor. -/
theorem tryMajor_empty {next : Liballoc → Nat → Bool → Option (Option (Liballoc × Place))}
    {h : Liballoc} {i : Nat} {maj : LiballocMajor} {startedBet : Bool} (hnil : maj.minors = []) :
    (tryMajor size reqSize next h i maj startedBet).isSome := by
  rw [tryMajor, placeMinor, hnil]
  rfl

/-- The round in a major made for the request is the last one. -/
theorem mallocLoop_fresh {b b' : Bitmap} {h : Liballoc} {i bestSize fuel : Nat}
    {startedBet : Bool} {new : LiballocMajor} (hi : h.majors[i]? = some new)
    (hfresh : FreshMajor b b' size new) :
    (mallocLoop size reqSize (fuel + 1) h i startedBet bestSize).isSome := by
  have husage := hfresh.ok.usage
  have hbounds := hfresh.ok.bounds
  have hroom := hfresh.room
  have hstart : heapStart + 2048 * 4096 < 2 ^ 32 := by decide
  rw [hfresh.empty, List.map_nil, List.sum_nil] at husage
  have hdiff : ¬ u32Sub new.size new.usage < u32 (size + sizeofMinor) := by
    rw [u32_of_lt (by omega), u32Sub_of_le (by omega) (by omega)]
    omega
  unfold mallocLoop
  rw [hi]
  dsimp only
  rw [if_neg hdiff]
  exact tryMajor_empty hfresh.empty

theorem tryMajor_ends {fuel bestSize : Nat} {h : Liballoc} {i : Nat} {maj : LiballocMajor}
    {startedBet : Bool} (hl : LayoutOk h) (hi : i < h.majors.length)
    (hfit : size + sizeofMajor + sizeofMinor < 2 ^ 32) (hfuel : 0 < fuel)
    (hnext : i + 1 < h.majors.length →
      (mallocLoop size reqSize fuel h (i + 1) startedBet bestSize).isSome)
    (hagain : startedBet = true → (mallocLoop size reqSize fuel h 0 false bestSize).isSome) :
    (tryMajor size reqSize (fun h i startedBet =>
      mallocLoop size reqSize fuel h i startedBet bestSize) h i maj startedBet).isSome := by
  rw [tryMajor]
  split
  · rfl
  · split
    · next hmore => exact hnext hmore
    · split
      · next hbet => exact hagain hbet
      · split
        · rfl
        · next hlast _ new b hnew =>
            have hfresh := allocateNewPage_spec hl.bits hfit hnew
            obtain ⟨fuel, rfl⟩ := Nat.exists_eq_succ_of_ne_zero hfuel.ne'
            have hat : (h.majors ++ [new])[i + 1]? = some new := by
              rw [show i + 1 = h.majors.length by omega, List.getElem?_concat_length]
            exact mallocLoop_fresh hat hfresh

/-- **The search ends**, in a place or in NULL. -/
theorem mallocLoop_ends (hfit : size + sizeofMajor + sizeofMinor < 2 ^ 32) {fuel : Nat} :
    ∀ {h : Liballoc} {i : Nat} {startedBet : Bool} {bestSize : Nat}, LayoutOk h →
      roundsLeft h i startedBet ≤ fuel →
      (mallocLoop size reqSize fuel h i startedBet bestSize).isSome := by
  induction fuel with
  | zero =>
      intro h i startedBet bestSize _ hfuel
      rw [roundsLeft] at hfuel
      omega
  | succ fuel ih =>
      intro h i startedBet bestSize hl hfuel
      unfold mallocLoop
      split
      · rfl
      · next maj hi =>
          have hmaj : maj ∈ h.majors := List.mem_of_getElem? hi
          have hlt : i < h.majors.length := (List.getElem?_eq_some_iff.mp hi).1
          have hbet := hl.setBet hmaj (bestSize < u32Sub maj.size maj.usage)
          dsimp only
          generalize hh₀ : (if bestSize < u32Sub maj.size maj.usage then
            { h with bestBet := some maj.addr } else h) = h₀ at hbet ⊢
          have hmajors : h₀.majors = h.majors := by
            subst hh₀
            split <;> rfl
          have hpos : 0 < fuel := by
            rw [roundsLeft] at hfuel
            omega
          have hnext : ∀ {best}, i + 1 < h₀.majors.length →
              (mallocLoop size reqSize fuel h₀ (i + 1) startedBet best).isSome := by
            intro best hmore
            apply ih hbet
            rw [roundsLeft] at hfuel ⊢
            rw [hmajors] at hmore ⊢
            omega
          have hagain : ∀ {best}, startedBet = true →
              (mallocLoop size reqSize fuel h₀ 0 false best).isSome := by
            rintro best rfl
            apply ih hbet
            rw [roundsLeft] at hfuel ⊢
            rw [hmajors]
            simp only [if_true, Bool.false_eq_true, if_false] at hfuel ⊢
            omega
          split
          · split
            · next hmore => exact hnext hmore
            · split
              · next hstarted => exact hagain hstarted
              · split
                · rfl
                · next new b hnew =>
                    exact tryMajor_empty (allocateNewPage_spec hbet.bits hfit hnew).empty
          · exact tryMajor_ends hbet (hmajors ▸ hlt) hfit hpos hnext hagain

end Search

end Levos.Mm
