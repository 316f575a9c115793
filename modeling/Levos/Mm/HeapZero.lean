import Levos.Mm.HeapSound

/-!
# Fresh kernel memory

`__na_malloc` clears the bytes it returns in front of the minors of a major
(CASE 3), between two of them (CASE 4.2) and in a major without any (CASE 2),
but not behind the last one (CASE 4.1). `fresh_memory_zero_iff` says exactly
when a request gets cleared memory: when the first major, in the order of the
search, that has room for it has the room in one of the former places.
-/

namespace Levos.Mm

open Levos.Base Levos.Lib

/-- Whatever the memory held before, the bytes asked for are zero. -/
def FreshZero (h : Liballoc) (reqSize align : Nat) : Prop :=
  ∀ mem junk a, naMalloc junk { h with mem := mem } reqSize align = some (some a) →
    ∀ i < reqSize, a.heap.mem (a.ptr + i) = 0

/-! ## Room in a major -/

/-- The lengths of the gaps in front of the minors, the first one from `lo` on. -/
def gapsBefore : Nat → List LiballocMinor → List Nat
  | _, [] => []
  | lo, min :: rest => (min.addr - lo) :: gapsBefore (min.addr + min.len) rest

/-- Where the last minor ends. -/
def lastEnd : Nat → List LiballocMinor → Nat
  | lo, [] => lo
  | _, min :: rest => lastEnd (min.addr + min.len) rest

/-- `need` bytes are free before a minor, or there is no minor. -/
def RoomInside (need : Nat) (maj : LiballocMajor) : Prop :=
  maj.minors = [] ∨ ∃ g ∈ gapsBefore (maj.addr + sizeofMajor) maj.minors, need ≤ g

/-- `need` bytes are free behind the last minor. -/
def RoomBehind (need : Nat) (maj : LiballocMajor) : Prop :=
  need ≤ maj.addr + maj.size - lastEnd (maj.addr + sizeofMajor) maj.minors

instance (need : Nat) (maj : LiballocMajor) : Decidable (RoomInside need maj) :=
  inferInstanceAs (Decidable (_ ∨ _))

instance (need : Nat) (maj : LiballocMajor) : Decidable (RoomBehind need maj) :=
  inferInstanceAs (Decidable (_ ≤ _))

/-- The major takes a minor of `need` bytes. -/
def HasRoom (need : Nat) (maj : LiballocMajor) : Prop :=
  need ≤ maj.size - maj.usage ∧ (RoomInside need maj ∨ RoomBehind need maj)

instance (need : Nat) (maj : LiballocMajor) : Decidable (HasRoom need maj) :=
  inferInstanceAs (Decidable (_ ∧ _))

/-- The majors in the order of the search: from the best bet on and then all,
if it has more than the bytes needed, else all. -/
def searchOrder (h : Liballoc) (size : Nat) : List LiballocMajor :=
  h.majors.drop (startAt h size).1 ++ if (startAt h size).2.1 then h.majors else []

/-- What a minor of a request takes. -/
def minorBytes (size : Nat) : Nat := u32 (size + sizeofMinor)

/-- The first major with room has it in front of one of its minors. -/
def FirstRoomInside (h : Liballoc) (size : Nat) : Prop :=
  ∀ maj, (searchOrder h size).find? (fun maj => HasRoom (minorBytes size) maj) = some maj →
    RoomInside (minorBytes size) maj

/-! ## One major -/

/-- CASE 4 takes the first gap behind a minor that is large enough; only the
one behind the last minor is not cleared. -/
theorem placeBehind_room {hi : Nat} (size reqSize : Nat) (hhi : hi < 2 ^ 32)
    (min : LiballocMinor) (rest : List LiballocMinor) {lo : Nat} (h : PackedIn lo hi (min :: rest)) :
    ((∃ g ∈ gapsBefore (min.addr + min.len) rest, minorBytes size ≤ g) →
      ∃ p, placeBehind hi size reqSize (min :: rest) = some p ∧ p.cleared = true) ∧
    ((¬∃ g ∈ gapsBefore (min.addr + min.len) rest, minorBytes size ≤ g) →
      (minorBytes size ≤ hi - lastEnd (min.addr + min.len) rest →
        ∃ p, placeBehind hi size reqSize (min :: rest) = some p ∧ p.cleared = false) ∧
      (¬minorBytes size ≤ hi - lastEnd (min.addr + min.len) rest →
        placeBehind hi size reqSize (min :: rest) = none)) := by
  induction rest generalizing min lo with
  | nil =>
      have hin := Packed.mem h (List.mem_singleton_self min)
      rw [placeBehind, gap_eq hin.2 hhi]
      simp only [gapsBefore, lastEnd, List.not_mem_nil, false_and, exists_false, false_imp_iff,
        not_false_eq_true, true_imp_iff, true_and]
      constructor
      · intro hroom
        exact ⟨_, if_pos hroom, rfl⟩
      · exact fun hroom => if_neg hroom
  | cons next rest ih =>
      have hnext : PackedIn (min.addr + min.len) hi (next :: rest) := h.2
      have hle : min.addr + min.len ≤ next.addr := hnext.1
      have hlt : next.addr < 2 ^ 32 := by
        have := (Packed.mem hnext List.mem_cons_self).2
        omega
      obtain ⟨hinside, houtside⟩ := ih next hnext
      rw [placeBehind, gap_eq hle hlt]
      simp only [gapsBefore, lastEnd, List.mem_cons, exists_eq_or_imp]
      by_cases hgap : minorBytes size ≤ next.addr - (min.addr + min.len)
      · rw [if_pos (show u32 (size + sizeofMinor) ≤ _ from hgap)]
        exact ⟨fun _ => ⟨_, rfl, rfl⟩, fun hnot => absurd (Or.inl hgap) hnot⟩
      · rw [if_neg (show ¬u32 (size + sizeofMinor) ≤ _ from hgap)]
        constructor
        · rintro (hroom | hroom)
          · exact absurd hroom hgap
          · obtain ⟨p, hp, hcleared⟩ := hinside hroom
            exact ⟨{ p with minors := min :: p.minors }, by rw [hp]; rfl, hcleared⟩
        · intro hnot
          obtain ⟨hbehind, hnone⟩ := houtside fun hroom => hnot (.inr hroom)
          constructor
          · intro hroom
            obtain ⟨p, hp, hcleared⟩ := hbehind hroom
            exact ⟨{ p with minors := min :: p.minors }, by rw [hp]; rfl, hcleared⟩
          · intro hroom
            rw [hnone hroom]
            rfl

/-- CASES 2 to 4: a place is found exactly where there is room, and is cleared
exactly where the room is in front of a minor. -/
theorem placeMinor_room {b : Bitmap} {maj : LiballocMajor} (h : MajorOk b maj)
    (size reqSize : Nat) :
    (RoomInside (minorBytes size) maj →
      ∃ p, placeMinor maj size reqSize = some p ∧ p.cleared = true) ∧
    (¬RoomInside (minorBytes size) maj →
      (RoomBehind (minorBytes size) maj →
        ∃ p, placeMinor maj size reqSize = some p ∧ p.cleared = false) ∧
      (¬RoomBehind (minorBytes size) maj → placeMinor maj size reqSize = none)) := by
  have hbounds := h.bounds
  have hstart : heapStart + 2048 * 4096 < 2 ^ 32 := by decide
  have hpacked := h.minors
  unfold placeMinor RoomInside RoomBehind
  cases hminors : maj.minors with
  | nil => exact ⟨fun _ => ⟨_, rfl, rfl⟩, fun hnot => absurd (Or.inl rfl) hnot⟩
  | cons first rest =>
      rw [hminors] at hpacked
      have hle : maj.addr + sizeofMajor ≤ first.addr := hpacked.1
      have hin := Packed.mem hpacked List.mem_cons_self
      have hgap : u32Sub (u32Sub first.addr maj.addr) sizeofMajor =
          first.addr - (maj.addr + sizeofMajor) := by
        have hinner : u32Sub first.addr maj.addr = first.addr - maj.addr :=
          u32Sub_of_le (by omega) (by omega)
        rw [hinner, u32Sub_of_le (by omega) (by omega), Nat.sub_sub]
      have hend : u32 (maj.addr + maj.size) = maj.addr + maj.size := u32_of_lt (by omega)
      obtain ⟨hinside, houtside⟩ :=
        placeBehind_room size reqSize (by omega) first rest hpacked
      dsimp only
      rw [hgap, hend]
      simp only [gapsBefore, lastEnd, List.mem_cons, exists_eq_or_imp, reduceCtorEq, false_or]
      by_cases hfront : minorBytes size ≤ first.addr - (maj.addr + sizeofMajor)
      · rw [if_pos (show u32 (size + sizeofMinor) ≤ _ from hfront)]
        exact ⟨fun _ => ⟨_, rfl, rfl⟩, fun hnot => absurd (Or.inl hfront) hnot⟩
      · rw [if_neg (show ¬u32 (size + sizeofMinor) ≤ _ from hfront)]
        constructor
        · rintro (hroom | hroom)
          · exact absurd hroom hfront
          · exact hinside hroom
        · exact fun hnot => houtside fun hroom => hnot (.inr hroom)

/-! ## The search -/

section Search

variable {size reqSize : Nat}

theorem allocateNewPage_empty {b b' : Bitmap} {new : LiballocMajor}
    (h : allocateNewPage b size = some (new, b')) : new.minors = [] := by
  unfold allocateNewPage at h
  obtain ⟨r, -, heq⟩ := Option.map_eq_some_iff.mp h
  exact (Prod.mk.inj heq).1 ▸ rfl

/-- CASE 2 is cleared. -/
theorem tryMajor_empty_cleared
    {next : Liballoc → Nat → Bool → Option (Option (Liballoc × Place))} {h h' : Liballoc}
    {i : Nat} {maj : LiballocMajor} {startedBet : Bool} {p : Place} (hnil : maj.minors = [])
    (hp : tryMajor size reqSize next h i maj startedBet = some (some (h', p))) :
    p.cleared = true := by
  unfold tryMajor placeMinor at hp
  rw [hnil] at hp
  cases hp
  rfl

/-- A search that has come to a major without minors, at the end of the list
and for the last time, finds cleared memory. -/
theorem mallocLoop_last_cleared {fuel i bestSize : Nat} {h h' : Liballoc} {new : LiballocMajor}
    {p : Place} (hi : h.majors[i]? = some new) (hnil : new.minors = [])
    (hlast : ¬i + 1 < h.majors.length)
    (hp : mallocLoop size reqSize fuel h i false bestSize = some (some (h', p))) :
    p.cleared = true := by
  cases fuel with
  | zero => cases hp
  | succ fuel =>
      unfold mallocLoop at hp
      rw [hi] at hp
      dsimp only at hp
      have hmajors : ∀ c : Prop, [Decidable c] →
          (if c then { h with bestBet := some new.addr } else h).majors = h.majors := by
        intro c _
        split <;> rfl
      split at hp
      · rw [hmajors, if_neg hlast, if_neg (by decide)] at hp
        split at hp
        · cases hp
        · rename_i hnew
          exact tryMajor_empty_cleared (allocateNewPage_empty hnew) hp
      · exact tryMajor_empty_cleared hnil hp

/-- The majors a search at `i` has before it. -/
def stillToTry (h : Liballoc) (i : Nat) (startedBet : Bool) : List LiballocMajor :=
  h.majors.drop i ++ if startedBet then h.majors else []

/-- What the search comes to: the first major with room, with the memory as it
was, else a new one. -/
def SearchResult (size : Nat) (mem : Nat → UInt8) (r : Option (Option (Liballoc × Place))) :
    Option LiballocMajor → Prop
  | some maj => ∃ h' p, r = some (some (h', p)) ∧ h'.mem = mem ∧
      (p.cleared = true ↔ RoomInside (minorBytes size) maj)
  | none => ∀ h' p, r = some (some (h', p)) → p.cleared = true

section Round

variable {fuel i bestSize : Nat} {h : Liballoc} {maj : LiballocMajor} {startedBet : Bool}

/-- The free bytes of a major, as the code computes them. -/
theorem freeBytes_eq (hl : LayoutOk h) (hi : h.majors[i]? = some maj) :
    u32Sub maj.size maj.usage = maj.size - maj.usage := by
  have hok := hl.each maj (List.mem_of_getElem? hi)
  have hbounds := hok.bounds
  have hstart : heapStart + 2048 * 4096 < 2 ^ 32 := by decide
  exact u32Sub_of_le hok.usage_le (by omega)

theorem tryMajor_room {next : Liballoc → Nat → Bool → Option (Option (Liballoc × Place))}
    {b : Bitmap} (hok : MajorOk b maj) (hroom : HasRoom (minorBytes size) maj)
    {mem : Nat → UInt8} (hmem : h.mem = mem) :
    SearchResult size mem (tryMajor size reqSize next h i maj startedBet) (some maj) := by
  obtain ⟨hinside, houtside⟩ := placeMinor_room hok size reqSize
  unfold tryMajor
  by_cases hin : RoomInside (minorBytes size) maj
  · obtain ⟨p, hp, hcleared⟩ := hinside hin
    rw [hp]
    exact ⟨_, p, rfl, hmem, iff_of_true hcleared hin⟩
  · obtain ⟨p, hp, hcleared⟩ := (houtside hin).1 (hroom.2.resolve_left hin)
    rw [hp]
    exact ⟨_, p, rfl, hmem, iff_of_false (by rw [hcleared]; exact Bool.false_ne_true) hin⟩

/-- A round in a major with room is the last one. -/
theorem mallocLoop_takes (hl : LayoutOk h) (hi : h.majors[i]? = some maj)
    (hroom : HasRoom (minorBytes size) maj) :
    SearchResult size h.mem (mallocLoop size reqSize (fuel + 1) h i startedBet bestSize)
      (some maj) := by
  unfold mallocLoop
  rw [hi]
  dsimp only
  rw [freeBytes_eq hl hi, if_neg (show ¬maj.size - maj.usage < u32 (size + sizeofMinor) from
    Nat.not_lt.mpr hroom.1)]
  refine tryMajor_room (hl.each maj (List.mem_of_getElem? hi)) hroom ?_
  split <;> rfl

/-- Where the loop goes from a major without room, in CASE 1 and CASE 5 alike. -/
theorem mallocLoop_skips (reqSize fuel bestSize : Nat) (startedBet : Bool) (hl : LayoutOk h)
    (hi : h.majors[i]? = some maj)
    (hroom : ¬HasRoom (minorBytes size) maj) :
    ∃ h₂ best, LayoutOk h₂ ∧ h₂.majors = h.majors ∧ h₂.mem = h.mem ∧
      (i + 1 < h.majors.length →
        mallocLoop size reqSize (fuel + 1) h i startedBet bestSize =
          mallocLoop size reqSize fuel h₂ (i + 1) startedBet best) ∧
      (¬i + 1 < h.majors.length → startedBet = true →
        mallocLoop size reqSize (fuel + 1) h i startedBet bestSize =
          mallocLoop size reqSize fuel h₂ 0 false best) ∧
      (¬i + 1 < h.majors.length → startedBet = false →
        SearchResult size h.mem
          (mallocLoop size reqSize (fuel + 1) h i startedBet bestSize) none) := by
  have hmem : maj ∈ h.majors := List.mem_of_getElem? hi
  set h₂ := if bestSize < u32Sub maj.size maj.usage then { h with bestBet := some maj.addr }
    else h with hh₂
  have hmajors : h₂.majors = h.majors := by
    rw [hh₂]
    split <;> rfl
  have hkept : h₂.mem = h.mem := by
    rw [hh₂]
    split <;> rfl
  refine ⟨h₂, max bestSize (u32Sub maj.size maj.usage), hl.setBet hmem _, hmajors, hkept, ?_⟩
  rw [mallocLoop_some hi hh₂, freeBytes_eq hl hi, hmajors]
  by_cases hfree : maj.size - maj.usage < minorBytes size
  · rw [if_pos (show maj.size - maj.usage < u32 (size + sizeofMinor) from hfree)]
    refine ⟨fun hmore => if_pos hmore, fun hlast hbet => ?_, fun hlast hbet => ?_⟩
    · rw [if_neg hlast, if_pos hbet]
    · rw [if_neg hlast, hbet, if_neg (by decide)]
      intro h' p hp
      split at hp
      · cases hp
      · rename_i hnew
        exact tryMajor_empty_cleared (allocateNewPage_empty hnew) hp
  · have hnone : placeMinor maj size reqSize = none := by
      have hno : ¬RoomInside (minorBytes size) maj ∧ ¬RoomBehind (minorBytes size) maj := by
        rw [← not_or]
        exact fun hroom' => hroom ⟨Nat.le_of_not_lt hfree, hroom'⟩
      exact ((placeMinor_room (hl.each maj hmem) size reqSize).2 hno.1).2 hno.2
    rw [if_neg (show ¬maj.size - maj.usage < u32 (size + sizeofMinor) from hfree), tryMajor,
      hnone, hmajors]
    dsimp only
    refine ⟨fun hmore => if_pos hmore, fun hlast hbet => ?_, fun hlast hbet => ?_⟩
    · rw [if_neg hlast, if_pos hbet]
    · rw [if_neg hlast, hbet, if_neg (by decide)]
      intro h' p hp
      split at hp
      · cases hp
      · rename_i new b hnew
        have hin : i < h.majors.length := (List.getElem?_eq_some_iff.mp hi).1
        have hend : i + 1 = h.majors.length := by omega
        refine mallocLoop_last_cleared ?_ (allocateNewPage_empty hnew) ?_ hp
        · simp [hend]
        · simp only [List.length_append, List.length_singleton]
          omega

end Round

/-- **The search.** It takes the first major that has room. -/
theorem mallocLoop_found : ∀ {fuel : Nat} {h : Liballoc} {i : Nat} {startedBet : Bool}
    {bestSize : Nat}, LayoutOk h → i < h.majors.length →
    (stillToTry h i startedBet).length ≤ fuel →
    SearchResult size h.mem (mallocLoop size reqSize fuel h i startedBet bestSize)
      ((stillToTry h i startedBet).find? fun maj => HasRoom (minorBytes size) maj) := by
  intro fuel
  induction fuel with
  | zero =>
      intro h i startedBet bestSize hl hi hfuel
      rw [stillToTry, List.length_append, List.length_drop] at hfuel
      omega
  | succ fuel ih =>
      intro h i startedBet bestSize hl hi hfuel
      have hget : h.majors[i]? = some h.majors[i] := List.getElem?_eq_getElem hi
      have hcons : stillToTry h i startedBet =
          h.majors[i] :: stillToTry h (i + 1) startedBet := by
        rw [stillToTry, stillToTry, List.drop_eq_getElem_cons hi, List.cons_append]
      rw [hcons, List.length_cons] at hfuel
      by_cases hroom : HasRoom (minorBytes size) h.majors[i]
      · rw [hcons, List.find?_cons_of_pos (by simpa using hroom)]
        exact mallocLoop_takes hl hget hroom
      · rw [hcons, List.find?_cons_of_neg (by simpa using hroom)]
        obtain ⟨h₂, best, hl₂, hmajors, hkept, hmore, hagain, hnew⟩ :=
          mallocLoop_skips reqSize fuel bestSize startedBet hl hget hroom
        have hsame : ∀ j bet, stillToTry h₂ j bet = stillToTry h j bet := by
          intro j bet
          rw [stillToTry, hmajors, stillToTry]
        by_cases hlt : i + 1 < h.majors.length
        · rw [hmore hlt, ← hsame, ← hkept]
          exact ih hl₂ (hmajors ▸ hlt) (by rw [hsame]; omega)
        · have hnil : h.majors.drop (i + 1) = [] := List.drop_eq_nil_of_le (by omega)
          cases hbet : startedBet with
          | true =>
              have hall : stillToTry h (i + 1) true = stillToTry h 0 false := by
                simp [stillToTry, hnil]
              rw [hbet] at hagain hfuel
              rw [hagain hlt rfl, hall, ← hsame, ← hkept]
              exact ih hl₂ (hmajors ▸ (by omega)) (by rw [hsame, ← hall]; omega)
          | false =>
              have hnone : stillToTry h (i + 1) false = [] := by simp [stillToTry, hnil]
              rw [hbet] at hnew
              rw [hnone]
              exact hnew hlt rfl

end Search

/-! ## The request -/

theorem startAt_lt {h : Liballoc} (hne : h.majors ≠ []) (size : Nat) :
    (startAt h size).1 < h.majors.length := by
  have hpos : 0 < h.majors.length := List.length_pos_iff.mpr hne
  unfold startAt
  split
  · exact hpos
  dsimp only
  split
  · exact hpos
  · rename_i hget
    split
    · exact (List.getElem?_eq_some_iff.mp hget).1
    · exact hpos

theorem searchOrder_length {h : Liballoc} (size : Nat) :
    (searchOrder h size).length ≤ loopRounds h := by
  rw [searchOrder, List.length_append, List.length_drop, loopRounds]
  split
  · omega
  · rw [List.length_nil]
    omega

/-- The search as `__na_malloc` starts it, in a heap with majors. -/
theorem search_found {h : Liballoc} (hl : LayoutOk h) (hne : h.majors ≠ []) (size reqSize : Nat) :
    SearchResult size h.mem
      (mallocLoop size reqSize (loopRounds h) h (startAt h size).1 (startAt h size).2.1
        (startAt h size).2.2)
      ((searchOrder h size).find? fun maj => HasRoom (minorBytes size) maj) :=
  mallocLoop_found hl (startAt_lt hne size) (searchOrder_length size)

/-- `ALIGN` stores one word, before the pointer it makes. -/
theorem alignPtr_word {align : Nat} (halign : 1 < align) (ptr : Nat) (mem : Nat → UInt8) :
    ∃ q w, q < 2 ^ 32 ∧ alignPtr align ptr mem = (q, put32 mem (u32Sub q alignInfo) w) := by
  unfold alignPtr
  rw [if_pos halign]
  refine ⟨_, _, ?_, rfl⟩
  split_ifs <;> exact u32_lt _

/-- So the byte at the pointer is not touched. -/
theorem alignPtr_at (align ptr : Nat) (mem : Nat → UInt8) :
    (alignPtr align ptr mem).2 (alignPtr align ptr mem).1 = mem (alignPtr align ptr mem).1 := by
  by_cases halign : 1 < align
  · obtain ⟨q, w, hq, heq⟩ := alignPtr_word halign ptr mem
    rw [heq]
    apply put32_of_ne
    rw [u32Sub, show alignInfo = 64 from rfl]
    omega
  · rw [alignPtr, if_neg halign]

/-- What a found place gives: cleared bytes, or those that were there. -/
def allocateAt (junk : Nat → UInt8) (reqSize align : Nat) (t : Liballoc × Place) : Allocation :=
  let mem := writeHeaders junk t.1.majors t.1.mem
  let aligned := alignPtr align (u32 (t.2.addr + sizeofMinor)) mem
  let mem := if t.2.cleared then clearBytes aligned.2 aligned.1 reqSize else aligned.2
  ⟨aligned.1, t.2.addr, { t.1 with mem := mem }⟩

theorem allocateAt_cleared {junk : Nat → UInt8} {reqSize align : Nat} {t : Liballoc × Place}
    (h : t.2.cleared = true) : ∀ i < reqSize, (allocateAt junk reqSize align t).heap.mem
      ((allocateAt junk reqSize align t).ptr + i) = 0 := by
  intro i hi
  simp only [allocateAt, h, if_true]
  rw [clearBytes, if_pos (by omega)]

theorem allocateAt_dirty {junk : Nat → UInt8} {reqSize align : Nat} {t : Liballoc × Place}
    (h : t.2.cleared = false) :
    (allocateAt junk reqSize align t).heap.mem (allocateAt junk reqSize align t).ptr =
      writeHeaders junk t.1.majors t.1.mem (allocateAt junk reqSize align t).ptr := by
  simp only [allocateAt, h]
  exact alignPtr_at _ _ _

/-- In a heap with majors, `__na_malloc` allocates where the search ends. -/
theorem naMallocSized_eq {junk : Nat → UInt8} {h : Liballoc} (hne : h.majors ≠ [])
    (reqSize align size : Nat) :
    naMallocSized junk h reqSize align size =
      (mallocLoop size reqSize (loopRounds h) h (startAt h size).1 (startAt h size).2.1
        (startAt h size).2.2).map fun r => r.map (allocateAt junk reqSize align) := by
  unfold naMallocSized
  rw [if_neg hne]
  rfl

/-- The first request of all gets a new major. -/
theorem naMallocSized_first {junk : Nat → UInt8} {h : Liballoc} (hl : LayoutOk h)
    (hnil : h.majors = []) {reqSize align size : Nat} {a : Allocation}
    (ha : naMallocSized junk h reqSize align size = some (some a)) :
    ∀ i < reqSize, a.heap.mem (a.ptr + i) = 0 := by
  have hbet : h.bestBet = none := by
    rw [Option.eq_none_iff_forall_not_mem]
    intro bet hbet
    obtain ⟨maj, hmaj, -⟩ := hl.bet bet hbet
    rw [hnil] at hmaj
    cases hmaj
  unfold naMallocSized at ha
  rw [if_pos hnil] at ha
  dsimp only at ha
  split at ha
  · cases ha
  · rename_i h₀ hroot
    obtain ⟨⟨new, b⟩, hnew, rfl⟩ := Option.map_eq_some_iff.mp hroot
    obtain ⟨r, hr, hmap⟩ := Option.map_eq_some_iff.mp ha
    obtain ⟨t, rfl, rfl⟩ := Option.map_eq_some_iff.mp hmap
    have hstart : startAt { h with majors := [new], heapBitmap := b } size = (0, false, 0) := by
      rw [startAt, hbet]
    rw [hstart] at hr
    have hcleared : t.2.cleared = true :=
      mallocLoop_last_cleared rfl (allocateNewPage_empty hnew) (by simp) hr
    exact allocateAt_cleared hcleared

/-- What `__na_malloc` returns, by the first major with room. -/
theorem naMallocSized_found {h : Liballoc} (hl : LayoutOk h) (hne : h.majors ≠ [])
    (junk : Nat → UInt8) (reqSize align size : Nat) :
    match (searchOrder h size).find? fun maj => HasRoom (minorBytes size) maj with
    | some maj => ∃ t, naMallocSized junk h reqSize align size =
        some (some (allocateAt junk reqSize align t)) ∧ t.1.mem = h.mem ∧
        (t.2.cleared = true ↔ RoomInside (minorBytes size) maj)
    | none => ∀ a, naMallocSized junk h reqSize align size = some (some a) →
        ∀ i < reqSize, a.heap.mem (a.ptr + i) = 0 := by
  have hresult := search_found hl hne size reqSize
  rw [naMallocSized_eq hne]
  cases hfind : (searchOrder h size).find? fun maj => HasRoom (minorBytes size) maj with
  | some maj =>
      rw [hfind] at hresult
      obtain ⟨h', p, hr, hmem, hcleared⟩ := hresult
      exact ⟨(h', p), by rw [hr]; rfl, hmem, hcleared⟩
  | none =>
      rw [hfind] at hresult
      intro a ha
      obtain ⟨r, hr, hmap⟩ := Option.map_eq_some_iff.mp ha
      obtain ⟨t, rfl, rfl⟩ := Option.map_eq_some_iff.mp hmap
      exact allocateAt_cleared (hresult t.1 t.2 hr)

/-- **Fresh memory.** For every heap, the bytes a request gets are zero whatever
the memory held exactly when it asks for none, or when the first major in the
order of the search that has room for it has it in front of a minor. Without
such a major a new one is made, and cleared. -/
theorem fresh_memory_zero_iff {h : Liballoc} (hl : LayoutOk h) {reqSize align : Nat}
    (hsize : reqSize + (align + alignInfo) < 2 ^ 32) :
    FreshZero h reqSize align ↔
      reqSize = 0 ∨ FirstRoomInside h (paddedSize reqSize align) := by
  by_cases hzero : reqSize = 0
  · refine iff_of_true ?_ (.inl hzero)
    intro mem junk a _ i hi
    omega
  rw [or_iff_right hzero]
  have hpad : paddedSize reqSize align ≠ 0 := by
    unfold paddedSize
    split
    · have hword : u32 (align + alignInfo) = align + alignInfo := u32_of_lt (by omega)
      rw [hword, u32_of_lt (by omega)]
      omega
    · exact hzero
  unfold FreshZero FirstRoomInside
  simp only [naMalloc, if_neg hpad]
  by_cases hnil : h.majors = []
  · have horder : searchOrder h (paddedSize reqSize align) = [] := by
      simp [searchOrder, hnil]
    refine iff_of_true ?_ (by simp [horder])
    exact fun mem junk a ha => naMallocSized_first (hl.withMem mem) hnil ha
  have hfound := fun mem junk =>
    naMallocSized_found (hl.withMem mem) hnil junk reqSize align (paddedSize reqSize align)
  -- the search does not look at the memory
  have horder : ∀ mem, searchOrder { h with mem := mem } (paddedSize reqSize align) =
      searchOrder h (paddedSize reqSize align) := fun _ => rfl
  simp only [horder] at hfound
  cases hfind : (searchOrder h (paddedSize reqSize align)).find? fun maj =>
      HasRoom (minorBytes (paddedSize reqSize align)) maj with
  | none =>
      rw [hfind] at hfound
      refine iff_of_true ?_ (by simp)
      exact fun mem junk a ha => hfound mem junk a ha
  | some maj =>
      rw [hfind] at hfound
      simp only [Option.some.injEq, forall_eq']
      constructor
      · intro hfresh
        by_contra hin
        obtain ⟨t, ht, hmem, hcleared⟩ := hfound (fun _ => 0xFF) fun _ => 0xFF
        have hdirty : t.2.cleared = false := by
          rw [← Bool.not_eq_true, hcleared]
          exact hin
        have hbyte := hfresh _ _ _ ht 0 (Nat.pos_of_ne_zero hzero)
        rw [Nat.add_zero, allocateAt_dirty hdirty, writeHeaders, hmem] at hbyte
        have hff : (0xFF : UInt8) = 0 := by
          split at hbyte <;> exact hbyte
        exact absurd hff (by decide)
      · intro hin mem junk a ha
        obtain ⟨t, ht, -, hcleared⟩ := hfound mem junk
        rw [ht] at ha
        cases ha
        exact allocateAt_cleared (hcleared.mpr hin)

/-- Of two blocks the second is written to and given back. -/
def dirtyRun : List HeapAct :=
  [.malloc 32 16 fun _ => 1, .malloc 8 16 fun _ => 1,
    .write ⟨heapStart + 256, 8, 16, heapStart + 164⟩ 0 0xFF,
    .free ⟨heapStart + 256, 8, 16, heapStart + 164⟩ fun _ => 1]

theorem dirtyRun_values :
    StepsMeet heapStep HeapUse (heapInit fun _ => 0) dirtyRun ∧
      ((runSteps heapStep (heapInit fun _ => 0) dirtyRun).bind fun s =>
        (naMalloc (fun _ => 1) s.heap 8 16).bind fun r => r.map fun a => a.heap.mem a.ptr) =
          some 0xFF := by
  decide +kernel

/-- A new block in its place has its old byte: it is behind the last minor. -/
theorem fresh_memory_dirty : ∃ s a,
    runSteps heapStep (heapInit fun _ => 0) dirtyRun = some s ∧
      naMalloc (fun _ => 1) s.heap 8 16 = some (some a) ∧ a.heap.mem (a.ptr + 0) = 0xFF ∧
      ¬FreshZero s.heap 8 16 := by
  obtain ⟨s, hs, h⟩ := Option.bind_eq_some_iff.mp dirtyRun_values.2
  obtain ⟨r, hr, h⟩ := Option.bind_eq_some_iff.mp h
  obtain ⟨a, rfl, hbyte⟩ := Option.map_eq_some_iff.mp h
  refine ⟨s, a, hs, hr, hbyte, fun hfresh => ?_⟩
  have hzero := hfresh s.heap.mem (fun _ => 1) a hr 0 (by decide)
  rw [Nat.add_zero, hbyte] at hzero
  exact absurd hzero (by decide)

/-- In that heap the only major has room for it behind its last minor alone. -/
theorem fresh_memory_zero_iff_dirtyRun : ∃ s,
    runSteps heapStep (heapInit fun _ => 0) dirtyRun = some s ∧
      (FreshZero s.heap 8 16 ↔ 8 = 0 ∨ FirstRoomInside s.heap (paddedSize 8 16)) := by
  obtain ⟨s, hs, -⟩ := Option.bind_eq_some_iff.mp dirtyRun_values.2
  have hok : HeapOk s :=
    runSteps_invariant_of_meet (fun _ _ _ hok hu h => heapStep_ok hok hu h) (heapInit_ok _)
      dirtyRun_values.1 hs
  exact ⟨s, hs, fresh_memory_zero_iff hok.layout (by decide)⟩

end Levos.Mm
