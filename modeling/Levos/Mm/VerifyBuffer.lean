import Levos.Mm.ForkStatus

/-!
# Validation of user buffers (`kernel/syscall.c`, `mm/page.c`)

System calls check a pointer from user space before they follow it:
`verify_buffer` for a buffer of a given size, `verify_buffer_string` for a
string, byte by byte where it has to. Both first let `vma_try_prefault` bring
in the pages that have an area.

Two things go wrong. The loop over a buffer that starts inside a page steps
from the start of the buffer, not of the page, and can step over the last page;
and `ptr + size` is computed in 32 bits. `size_t` is an `int` here.
`user_buffers_sound` says for which arguments the two functions are right whatever the page tables hold.
-/

namespace Levos.Mm

open Levos.Base

variable (A : Allocators)

/-! ## The functions of the source -/

/-- The loop `for (i = 0; i < sz; i += 0x1000)` of `__verify_buffer`, from `i`
on; `i` and `sz` are `int`s, and `i` wraps around. `none` where the loop has not
ended after `fuel` rounds. -/
def checkPages (mapped : Nat → Bool) (start sz : Nat) : Nat → Nat → Option Int
  | 0, _ => none
  | fuel + 1, i =>
      if i32 i < i32 sz then
        if ¬ mapped (u32 (start + i)) then some 1
        else checkPages mapped start sz fuel (u32 (i + 0x1000))
      else some 0

/-- More rounds than `i` has values. -/
def pageRounds : Nat := 2 ^ 20 + 1

/-- `__verify_buffer`, with what `page_mapped_curr` answers. -/
def verifyPages (mapped : Nat → Bool) (start sz : Nat) : Option Int :=
  if start > virtBase ∨ u32 (start + sz) > virtBase then some 1
  else if start < 4096 then some 1
  else if start % 0x1000 = 0 then checkPages mapped start sz pageRounds 0
  else
    let thisPage := pgRndDown start
    let nextPage := pgRndDown (u32 (start + sz))
    if thisPage = nextPage then if mapped start then some 0 else some 1
    else checkPages mapped start sz pageRounds 0

/-- `verify_buffer`. -/
def verifyBuffer (s : Memory) (pid p sz : Nat) : Option (Int × Memory) :=
  (s.tasks pid).bind fun t =>
    if p > virtBase ∨ u32 (p + sz) > virtBase then some (1, s)
    else
      (memStep A s (.prefault pid p sz)).bind fun s =>
        (verifyPages (pageMapped s t.mm) p sz).map fun r => (r, s)

/-- A load by the kernel: a fault leads to a second attempt, and a fault in
that one is not served. -/
def kernelLoad (s : Memory) (pid : Nat) (goesOn : Bool) (addr : Nat) : Option (UInt8 × Memory) :=
  (access A s pid (.kernel goesOn) none addr).bind fun r =>
    if r.2 then (readByte r.1 pid addr).map fun c => (c, r.1)
    else
      (access A r.1 pid (.kernel goesOn) none addr).bind fun r =>
        if r.2 then (readByte r.1 pid addr).map fun c => (c, r.1) else none

/-- A character of the string; `kernel` is the kernel's own memory. -/
def loadChar (kernel : Nat → UInt8) (s : Memory) (pid : Nat) (goesOn : Bool) (addr : Nat) :
    Option (UInt8 × Memory) :=
  if virtBase ≤ addr then some (kernel addr, s) else kernelLoad A s pid goesOn addr

/-- The loop of `verify_buffer_string`, from `p[i]` on, with `n` rounds to go. -/
def verifyChars (kernel : Nat → UInt8) (goesOn : Bool) (pid p : Nat) :
    Nat → Nat → Memory → Option (Int × Memory)
  | _, 0, s => some (1, s)
  | i, n + 1, s =>
      (loadChar A kernel s pid goesOn (u32 (p + i))).bind fun (c, s) =>
        if c = 0 then some (0, s)
        else
          (verifyBuffer A s pid (u32 (p + i + 1)) 0).bind fun (r, s) =>
            if r ≠ 0 then some (1, s) else verifyChars kernel goesOn pid p (i + 1) n s

/-- `verify_buffer_string`. -/
def verifyBufferString (kernel : Nat → UInt8) (goesOn : Bool) (s : Memory)
    (pid string max : Nat) : Option (Int × Memory) :=
  (verifyBuffer A s pid string max).bind fun (r, s) =>
    if r = 0 then some (0, s)
    else
      (verifyBuffer A s pid string 0).bind fun (r, s) =>
        if r ≠ 0 then some (1, s) else verifyChars A kernel goesOn pid string 0 (i32 max).toNat s

/-! ## What the two are for -/

/-- The address lies below `VIRT_BASE` in a page that `page_mapped` reports. -/
def UserMapped (s : Memory) (pid a : Nat) : Prop :=
  a < virtBase ∧ ∃ t, s.tasks pid = some t ∧ pageMapped s t.mm a = true

/-- Whatever the memory, a buffer that is accepted lies in mapped user pages. -/
def BufferSound (p sz : Nat) : Prop :=
  ∀ s pid s', verifyBuffer A s pid p sz = some (0, s') →
    ∀ a : Nat, p ≤ a → (a : Int) < p + i32 sz → UserMapped s' pid a

/-- The byte at an address, in user or in kernel memory. -/
def charAt (kernel : Nat → UInt8) (s : Memory) (pid addr : Nat) : Option UInt8 :=
  if virtBase ≤ addr then some (kernel addr) else readByte s pid addr

/-- Byte `i` belongs to the string: it is one of the first `max`, and none
before it is the terminating NUL. -/
def InString (kernel : Nat → UInt8) (s : Memory) (pid string : Nat) (max : Int) (i : Nat) :
    Prop :=
  (i : Int) < max ∧ ∀ j < i, charAt kernel s pid (string + j) ≠ some 0

/-- Whatever the memory, a string that is accepted lies in mapped user pages. -/
def StringSound (goesOn : Bool) (string max : Nat) : Prop :=
  ∀ kernel s pid s', TablesOk s →
    verifyBufferString A kernel goesOn s pid string max = some (0, s') →
      ∀ i, InString kernel s' pid string (i32 max) i → UserMapped s' pid (string + i)

/-! ## The arguments they are right for -/

/-- The last page of the buffer has no `p + i` in it, `i` a multiple of the
page size below `sz`. -/
def LastPageMissed (p sz : Nat) : Prop := 0 < sz ∧ (sz + 4095) / 4096 * 4096 < p % 4096 + sz

/-- The two ends lie in one page, of which the first is not the start. -/
def OnePage (p sz : Nat) : Prop := p % 4096 ≠ 0 ∧ pgRndDown p = pgRndDown (u32 (p + sz))

instance (p sz : Nat) : Decidable (OnePage p sz) := inferInstanceAs (Decidable (_ ∧ _))

/-- The loop over the pages never ends when all are mapped. -/
def Endless (p sz : Nat) : Prop := 0x7FFFF000 < i32 sz ∧ ¬OnePage p sz

/-- The buffer starts in user memory, and `p + sz` looks like it. -/
def Admitted (p sz : Nat) : Prop := 4096 ≤ p ∧ p ≤ virtBase ∧ u32 (p + sz) ≤ virtBase

/-- The buffer is empty or refused at once, or its check never ends, or it
neither wraps around nor has its last page missed. -/
def BufferShape (p sz : Nat) : Prop :=
  i32 sz ≤ 0 ∨ ¬Admitted p sz ∨ Endless p sz ∨ (p + sz < 2 ^ 32 ∧ ¬LastPageMissed p sz)

/-- The string does not start in user memory, or its first `max` bytes stay in
it, and the loop over their pages never ends or does not miss the last one. -/
def StringShape (string : Nat) (max : Int) : Prop :=
  string < 4096 ∨ virtBase < string ∨
    (string + max.toNat ≤ virtBase ∧
      (0x7FFFF000 < max ∨ ¬LastPageMissed string max.toNat))

/-! ## The loop over the pages -/

section Pages

variable {mapped : Nat → Bool} {p start sz : Nat}

theorem i32_of_lt {x : Nat} (hx : x < 2 ^ 31) : i32 x = x := if_pos hx

theorem i32_lt {x : Nat} (hx : x < 2 ^ 32) : i32 x < 2 ^ 31 := by
  rw [i32]
  split
  · omega
  · omega

theorem i32_of_pos {x : Nat} (hx : x < 2 ^ 32) (hpos : 0 < i32 x) : x < 2 ^ 31 ∧ i32 x = x := by
  rw [i32] at hpos ⊢
  split_ifs at hpos ⊢ with hlt
  · exact ⟨hlt, rfl⟩
  · omega

/-- The loop ends with success only if all pages it steps on are mapped. -/
theorem checkPages_zero {fuel j : Nat} (hsz : i32 sz ≤ 0x7FFFF000)
    (h : checkPages mapped start sz fuel (4096 * j) = some 0) :
    ∀ k : Nat, j ≤ k → 4096 * (k : Int) < i32 sz → mapped (u32 (start + 4096 * k)) = true := by
  induction fuel generalizing j with
  | zero => cases h
  | succ fuel ih =>
      intro k hjk hk
      have hj : i32 (4096 * j) = 4096 * j := i32_of_lt (by omega)
      rw [checkPages, if_pos (by omega : i32 (4096 * j) < i32 sz)] at h
      split at h
      · cases h
      · rename_i hmapped
        rcases eq_or_lt_of_le hjk with rfl | hlt
        · simpa using hmapped
        · have hnext : u32 (4096 * j + 0x1000) = 4096 * (j + 1) := u32_of_lt (by omega)
          rw [hnext] at h
          exact ih h k hlt hk

/-- Where `i` wraps around before it reaches the size, the loop does not end
with success. -/
theorem checkPages_endless {fuel i : Nat} (hsz : 0x7FFFF000 < i32 sz) (hi : i < 2 ^ 32)
    (haligned : i % 4096 = 0) : checkPages mapped start sz fuel i ≠ some 0 := by
  induction fuel generalizing i with
  | zero => simp [checkPages]
  | succ fuel ih =>
      have hless : i32 i < i32 sz := by
        rw [i32]
        split
        · omega
        · omega
      rw [checkPages, if_pos hless]
      split
      · simp
      · refine ih (u32_lt _) ?_
        rw [u32]
        omega

theorem checkPages_success {fuel j : Nat} (hsz : i32 sz ≤ 0x7FFFF000)
    (hmapped : ∀ k : Nat, 4096 * (k : Int) < i32 sz → mapped (u32 (start + 4096 * k)) = true)
    (hj : j ≤ ((i32 sz).toNat + 4095) / 4096) (hfuel : ((i32 sz).toNat + 4095) / 4096 < j + fuel) :
    checkPages mapped start sz fuel (4096 * j) = some 0 := by
  induction fuel generalizing j with
  | zero => omega
  | succ fuel ih =>
      have hindex : i32 (4096 * j) = 4096 * j := i32_of_lt (by omega)
      rw [checkPages]
      by_cases hlt : i32 (4096 * j) < i32 sz
      · have hnext : u32 (4096 * j + 0x1000) = 4096 * (j + 1) := u32_of_lt (by omega)
        rw [if_pos hlt, if_neg (by simp [hmapped j (hindex ▸ hlt)]), hnext]
        exact ih (by omega) (by omega)
      · rw [if_neg hlt]

/-- A page that is not mapped is found, however large the size. -/
theorem checkPages_failure {fuel j k : Nat} (hsz : sz < 2 ^ 32) (hk : 4096 * (k : Int) < i32 sz)
    (hmapped : mapped (u32 (start + 4096 * k)) = false) (hjk : j ≤ k) (hfuel : k < j + fuel) :
    checkPages mapped start sz fuel (4096 * j) = some 1 := by
  have hbound := i32_lt hsz
  induction fuel generalizing j with
  | zero => omega
  | succ fuel ih =>
      have hindex : i32 (4096 * j) = 4096 * j := i32_of_lt (by omega)
      rw [checkPages, if_pos (by omega : i32 (4096 * j) < i32 sz)]
      split
      · rfl
      · rename_i hj
        have hlt : j < k := by
          rcases eq_or_lt_of_le hjk with rfl | hlt
          · rw [hmapped] at hj
            exact absurd Bool.false_ne_true hj
          · exact hlt
        have hnext : u32 (4096 * j + 0x1000) = 4096 * (j + 1) := u32_of_lt (by omega)
        rw [hnext]
        exact ih hlt (by omega)

/-- `pageRounds` is enough: a check that has not ended by then never does. -/
theorem checkPages_none (hsz : sz < 2 ^ 32)
    (h : checkPages mapped start sz pageRounds 0 = none) :
    0x7FFFF000 < i32 sz ∧
      ∀ k : Nat, 4096 * (k : Int) < i32 sz → mapped (u32 (start + 4096 * k)) = true := by
  have hbound := i32_lt hsz
  have hall : ∀ k : Nat, 4096 * (k : Int) < i32 sz →
      mapped (u32 (start + 4096 * k)) = true := by
    intro k hk
    by_contra hnot
    rw [Bool.not_eq_true] at hnot
    have hfail : checkPages mapped start sz pageRounds (4096 * 0) = some 1 :=
      checkPages_failure hsz hk hnot (Nat.zero_le k) (by rw [pageRounds]; omega)
    rw [Nat.mul_zero, h] at hfail
    cases hfail
  refine ⟨?_, hall⟩
  by_contra hle
  have hok : checkPages mapped start sz pageRounds (4096 * 0) = some 0 :=
    checkPages_success (not_lt.mp hle) hall (Nat.zero_le _) (by rw [pageRounds]; omega)
  rw [Nat.mul_zero, h] at hok
  cases hok

/-- `__verify_buffer` on a buffer it does not refuse at once. -/
theorem verifyPages_admitted (hadm : Admitted p sz) :
    verifyPages mapped p sz =
      if OnePage p sz then if mapped p then some 0 else some 1
      else checkPages mapped p sz pageRounds 0 := by
  obtain ⟨hlow, hp, hsum⟩ := hadm
  unfold verifyPages
  rw [if_neg (by omega), if_neg (not_lt.mpr hlow)]
  by_cases halign : p % 4096 = 0
  · have hone : ¬OnePage p sz := fun h => h.1 halign
    rw [if_pos halign, if_neg hone]
  · by_cases hsame : pgRndDown p = pgRndDown (u32 (p + sz))
    · have hone : OnePage p sz := ⟨halign, hsame⟩
      rw [if_neg halign, if_pos hone]
      exact if_pos hsame
    · have hone : ¬OnePage p sz := fun h => hsame h.2
      rw [if_neg halign, if_neg hone]
      exact if_neg hsame

theorem verifyPages_refused (hnot : ¬Admitted p sz) : verifyPages mapped p sz = some 1 := by
  unfold verifyPages
  by_cases hhigh : p > virtBase ∨ u32 (p + sz) > virtBase
  · exact if_pos hhigh
  · rw [if_neg hhigh]
    refine if_pos ?_
    by_contra hlow
    exact hnot ⟨not_lt.mp hlow, by omega, by omega⟩

/-- What `__verify_buffer` has seen when it succeeds. -/
theorem verifyPages_zero (h : verifyPages mapped p sz = some 0) :
    Admitted p sz ∧ ¬Endless p sz ∧ (OnePage p sz → mapped p = true) ∧
      (¬OnePage p sz → ∀ k : Nat, 4096 * (k : Int) < i32 sz →
        mapped (u32 (p + 4096 * k)) = true) := by
  by_cases hadm : Admitted p sz
  · rw [verifyPages_admitted hadm] at h
    by_cases hone : OnePage p sz
    · rw [if_pos hone] at h
      refine ⟨hadm, fun hend => hend.2 hone, fun _ => ?_, fun hnot => absurd hone hnot⟩
      by_contra hnot
      rw [if_neg hnot] at h
      cases h
    · rw [if_neg hone] at h
      have hsz : i32 sz ≤ 0x7FFFF000 := by
        by_contra hlt
        exact checkPages_endless (not_le.mp hlt) (by norm_num) rfl h
      refine ⟨hadm, fun hend => absurd hend.1 (not_lt.mpr hsz), fun h => absurd h hone,
        fun _ k hk => ?_⟩
      exact checkPages_zero hsz (j := 0) h k (Nat.zero_le k) hk
  · rw [verifyPages_refused hadm] at h
    cases h

/-- When it does succeed. -/
theorem verifyPages_success (hadm : Admitted p sz) (hend : ¬Endless p sz)
    (hone : OnePage p sz → mapped p = true)
    (hall : ¬OnePage p sz → ∀ k : Nat, 4096 * (k : Int) < i32 sz →
      mapped (u32 (p + 4096 * k)) = true) :
    verifyPages mapped p sz = some 0 := by
  rw [verifyPages_admitted hadm]
  by_cases h : OnePage p sz
  · rw [if_pos h, if_pos (hone h)]
  · rw [if_neg h]
    have hsz : i32 sz ≤ 0x7FFFF000 := by
      by_contra hlt
      exact hend ⟨not_le.mp hlt, h⟩
    have hok : checkPages mapped p sz pageRounds (4096 * 0) = some 0 :=
      checkPages_success hsz (hall h) (Nat.zero_le _) (by rw [pageRounds]; omega)
    exact hok

/-- Without a wrap and with its last page seen, a buffer that passes is seen
page by page. -/
theorem page_seen {a : Nat} (hadm : Admitted p sz) (hwrap : p + sz < 2 ^ 32)
    (hlast : ¬LastPageMissed p sz) (hpa : p ≤ a) (ha : a < p + sz) :
    (OnePage p sz → p / 4096 = a / 4096) ∧
      (¬OnePage p sz → ∃ k, 4096 * k < sz ∧ u32 (p + 4096 * k) / 4096 = a / 4096) := by
  obtain ⟨-, -, hsum⟩ := hadm
  rw [u32_of_lt hwrap] at hsum
  have hsum' : p + sz ≤ 0xC0000000 := hsum
  constructor
  · rintro ⟨-, hone⟩
    rw [u32_of_lt hwrap, pgRndDown, pgRndDown] at hone
    omega
  · intro _
    refine ⟨a / 4096 - p / 4096, ?_, ?_⟩
    · by_contra hge
      refine hlast ⟨by omega, ?_⟩
      omega
    · rw [u32_of_lt (by omega)]
      omega

end Pages

/-! ## `verify_buffer` -/

section Buffers

variable {A} {s s' : Memory} {pid p sz : Nat} {t : TaskMm}

theorem mapPage_tasks {pgd phys perm : BitVec 32} {addr : Nat}
    (h : mapPage A s pgd phys addr perm = some s') : s'.tasks = s.tasks := by
  unfold mapPage at h
  dsimp only at h
  split at h
  · cases h
    rfl
  · obtain ⟨⟨pgt, s₁⟩, hmalloc, rfl⟩ := Option.map_eq_some_iff.mp h
    obtain ⟨-, rfl⟩ := naMallocPage_some hmalloc
    rfl

theorem loadPage_tasks {vma : VmArea} {addr : Nat} (h : loadPage A s pid t vma addr = some s') :
    s'.tasks = s.tasks := by
  unfold loadPage at h
  obtain ⟨phys, -, h⟩ := Option.bind_eq_some_iff.mp h
  obtain ⟨s₁, hmap, h⟩ := Option.bind_eq_some_iff.mp h
  have htasks := mapPage_tasks hmap
  dsimp only at h
  split at h
  · cases h
    exact htasks
  · obtain ⟨⟨a, i⟩, -, rfl⟩ := Option.map_eq_some_iff.mp h
    exact htasks

theorem vmaTryPrefault_tasks {n base : Nat} (h : vmaTryPrefault A pid t base n s = some s') :
    s'.tasks = s.tasks := by
  induction n generalizing base s with
  | zero => exact Option.some.inj h ▸ rfl
  | succ n ih =>
      unfold vmaTryPrefault at h
      split at h
      · cases h
      · split at h
        · split at h
          · obtain ⟨s₁, hload, h⟩ := Option.bind_eq_some_iff.mp h
            exact (ih h).trans (loadPage_tasks hload)
          · exact ih h
        · exact ih h

theorem prefault_tasks {addr len : Nat} (h : memStep A s (.prefault pid addr len) = some s') :
    s'.tasks = s.tasks := by
  obtain ⟨t, -, h⟩ := Option.bind_eq_some_iff.mp h
  exact vmaTryPrefault_tasks h

/-- What `verify_buffer` does, with either result. -/
theorem verifyBuffer_some {r : Int} (h : verifyBuffer A s pid p sz = some (r, s')) :
    ∃ t, s.tasks pid = some t ∧
      (r = 1 ∧ s' = s ∨
        memStep A s (.prefault pid p sz) = some s' ∧
          verifyPages (pageMapped s' t.mm) p sz = some r) := by
  unfold verifyBuffer at h
  obtain ⟨t, ht, h⟩ := Option.bind_eq_some_iff.mp h
  refine ⟨t, ht, ?_⟩
  split at h
  · cases h
    exact .inl ⟨rfl, rfl⟩
  · obtain ⟨s₁, hpre, h⟩ := Option.bind_eq_some_iff.mp h
    obtain ⟨r', hpages, heq⟩ := Option.map_eq_some_iff.mp h
    cases heq
    exact .inr ⟨hpre, hpages⟩

theorem pageMapped_congr (s : Memory) (pgd : BitVec 32) {a b : Nat} (h : a / 4096 = b / 4096) :
    pageMapped s pgd a = pageMapped s pgd b := by
  rw [pageMapped_eq, pageMapped_eq, entryAt_congr s pgd h]

theorem bufferSound_of_shape (hsz : sz < 2 ^ 32) (hshape : BufferShape p sz) :
    BufferSound A p sz := by
  intro s pid s' h a hpa ha
  have hpos : 0 < i32 sz := by omega
  obtain ⟨hsz', hint⟩ := i32_of_pos hsz hpos
  obtain ⟨t, ht, hcase⟩ := verifyBuffer_some h
  rcases hcase with ⟨hone, -⟩ | ⟨hpre, hpages⟩
  · cases hone
  obtain ⟨hadm, hend, hfirst, hall⟩ := verifyPages_zero hpages
  rcases hshape with hempty | hnot | hbad | ⟨hwrap, hlast⟩
  · exact absurd hpos (not_lt.mpr hempty)
  · exact absurd hadm hnot
  · exact absurd hbad hend
  have ha' : a < p + sz := by omega
  obtain ⟨hseenOne, hseenAll⟩ := page_seen hadm hwrap hlast hpa ha'
  have hsum := hadm.2.2
  rw [u32_of_lt hwrap] at hsum
  refine ⟨lt_of_lt_of_le ha' hsum, t, (prefault_tasks hpre).symm ▸ ht, ?_⟩
  by_cases hone : OnePage p sz
  · rw [← pageMapped_congr s' t.mm (hseenOne hone)]
    exact hfirst hone
  · obtain ⟨k, hk, hpage⟩ := hseenAll hone
    rw [← pageMapped_congr s' t.mm hpage]
    exact hall hone k (by omega)

end Buffers

/-! ## A memory with given pages -/

section Given

/-- The table for index `i` of the directory. -/
def pageTable (i : Nat) : BitVec 32 := BitVec.ofNat 32 (0xC1000000 + 4096 * i)

/-- One task without areas, whose mapped pages are the given ones. -/
def pagesMemory (mapped : Nat → Bool) : Memory where
  heap a i :=
    if a = 0xC0401000 then createPde (kv2p (pageTable i)) 1 1
    else if mapped (1024 * ((a.toNat - 0xC1000000) / 4096) + i) then createPte 0x1000000 1 1
    else 0
  heapUsed := 0xC0401000 :: (List.range 768).map pageTable
  frames _ _ := 7
  tasks p := if p = 1 then some ⟨0xC0401000, [], 0, 0⟩ else none
  history := []

variable {mapped : Nat → Bool}

theorem pageTable_toNat {i : Nat} (hi : i < 1024) :
    (pageTable i).toNat = 0xC1000000 + 4096 * i := by
  rw [pageTable, BitVec.toNat_ofNat]
  exact Nat.mod_eq_of_lt (by omega)

theorem entryAddr_pageTable {i : Nat} (hi : i < 1024) : entryAddr (pageTable i) = pageTable i := by
  refine BitVec.eq_of_toNat_eq ?_
  rw [entryAddr_toNat, pageTable_toNat hi]
  omega

theorem pageTable_ne_dir {i : Nat} (hi : i < 1024) : pageTable i ≠ 0xC0401000 := by
  intro heq
  have hnat := congrArg BitVec.toNat heq
  rw [pageTable_toNat hi, show (0xC0401000 : BitVec 32).toNat = 0xC0401000 from rfl] at hnat
  omega

theorem pagesMemory_dir (i : Nat) :
    (pagesMemory mapped).heap 0xC0401000 i = createPde (kv2p (pageTable i)) 1 1 := rfl

theorem pagesMemory_tableOf {i : Nat} (hi : i < 1024) :
    tableOf ((pagesMemory mapped).heap 0xC0401000 i) = pageTable i := by
  rw [pagesMemory_dir, tableOf_createPde (entryAddr_pageTable hi)]

/-- The entry of an address is there exactly where its page is given. -/
theorem pagesMemory_entryAt {a : Nat} (ha : a < 2 ^ 32) :
    entryAt (pagesMemory mapped) 0xC0401000 a =
      if mapped (a / 4096) then createPte 0x1000000 1 1 else 0 := by
  have hi : pdeIndex a < 1024 := by
    rw [pdeIndex]
    omega
  have hpage : 1024 * ((0xC1000000 + 4096 * pdeIndex a - 0xC1000000) / 4096) + pteIndex a =
      a / 4096 := by
    rw [pdeIndex_eq, pteIndex]
    omega
  rw [entryAt, if_neg (pagesMemory_dir _ ▸ createPde_ne_zero _), pagesMemory_tableOf hi]
  simp only [pagesMemory, if_neg (pageTable_ne_dir hi), pageTable_toNat hi, hpage]

theorem createPte_ne_zero (f : BitVec 32) : createPte f 1 1 ≠ 0 :=
  ne_zero_of_present (ptePresent_createPte f)

theorem pagesMemory_pageMapped {a : Nat} (ha : a < 2 ^ 32) :
    pageMapped (pagesMemory mapped) 0xC0401000 a = mapped (a / 4096) := by
  rw [pageMapped_eq, pagesMemory_entryAt ha]
  cases mapped (a / 4096) with
  | false => simp
  | true => simpa using createPte_ne_zero 0x1000000

theorem pagesMemory_task {q : Nat} {t : TaskMm} (h : (pagesMemory mapped).tasks q = some t) :
    q = 1 ∧ t = ⟨0xC0401000, [], 0, 0⟩ := by
  simp only [pagesMemory] at h
  split at h
  · rename_i hq
    exact ⟨hq, (Option.some.inj h).symm⟩
  · cases h

theorem pagesMemory_pageOf {o : Nat × Option Nat} {a : BitVec 32}
    (h : pageOf (pagesMemory mapped) o = some a) :
    (o = (1, none) ∧ a = 0xC0401000) ∨ ∃ i < 768, o = (1, some i) ∧ a = pageTable i := by
  obtain ⟨p, o⟩ := o
  cases o with
  | none =>
      obtain ⟨t, ht, rfl⟩ := Option.map_eq_some_iff.mp h
      obtain ⟨rfl, rfl⟩ := pagesMemory_task ht
      exact .inl ⟨rfl, rfl⟩
  | some i =>
      obtain ⟨t, ht, htab⟩ := Option.bind_eq_some_iff.mp h
      obtain ⟨rfl, rfl⟩ := pagesMemory_task ht
      dsimp only at htab
      split at htab
      · rename_i hi
        rw [pagesMemory_tableOf (by omega), Option.some.injEq] at htab
        exact .inr ⟨i, hi.1, rfl, htab.symm⟩
      · cases htab

theorem pagesMemory_tables : TablesOk (pagesMemory mapped) := by
  refine ⟨?_, ?_, ?_⟩
  · intro o a h
    rcases pagesMemory_pageOf h with ⟨-, rfl⟩ | ⟨i, hi, -, rfl⟩
    · exact List.mem_cons_self
    · exact List.mem_cons_of_mem _ (List.mem_map_of_mem (List.mem_range.mpr hi))
  · intro o o' a h h'
    rcases pagesMemory_pageOf h with ⟨rfl, rfl⟩ | ⟨i, hi, rfl, rfl⟩
    · rcases pagesMemory_pageOf h' with ⟨rfl, -⟩ | ⟨i, hi, -, heq⟩
      · rfl
      · exact absurd heq.symm (pageTable_ne_dir (by omega))
    · rcases pagesMemory_pageOf h' with ⟨-, heq⟩ | ⟨j, hj, rfl, heq⟩
      · exact absurd heq (pageTable_ne_dir (by omega))
      · have hnat := congrArg BitVec.toNat heq
        rw [pageTable_toNat (by omega), pageTable_toNat (by omega)] at hnat
        rw [show i = j by omega]
  · intro p t i ht hi _
    obtain ⟨rfl, rfl⟩ := pagesMemory_task ht
    rw [pagesMemory_dir]
    refine entryAddr_createPde_ne_zero (entryAddr_pageTable (by omega)) ?_
    rw [pageTable_toNat (by omega), virtBase]
    omega

/-- Nothing is paged in for a task without areas. -/
theorem vmaTryPrefault_nil {A : Allocators} {s : Memory} {pid : Nat} {t : TaskMm}
    (hareas : t.areas = []) {n base : Nat} (hbase : base + 4096 * n ≤ virtBase) :
    vmaTryPrefault A pid t base n s = some s := by
  induction n generalizing base with
  | zero => rfl
  | succ n ih =>
      have hnext := ih (show base + 4096 + 4096 * n ≤ virtBase by omega)
      rw [vmaTryPrefault, if_neg (by omega), hareas]
      split
      · exact hnext
      · exact hnext

/-- The pages `vma_try_prefault` looks at for a buffer that is not refused are
user pages. -/
theorem prefault_below {p sz : Nat} (hp : p ≤ virtBase) (hsum : u32 (p + sz) ≤ virtBase) :
    pgRndDown p + 4096 * ((pgRndUp (u32 (p + sz)) - pgRndDown p) / 4096) ≤ virtBase := by
  rw [virtBase] at *
  rw [pgRndUp, u32_of_lt (by omega : u32 (p + sz) + 4095 < 2 ^ 32), pgRndDown]
  omega

theorem verifyBuffer_pagesMemory {A : Allocators} {p sz : Nat} (hp : p ≤ virtBase)
    (hsum : u32 (p + sz) ≤ virtBase) :
    verifyBuffer A (pagesMemory mapped) 1 p sz =
      (verifyPages (pageMapped (pagesMemory mapped) 0xC0401000) p sz).map
        fun r => (r, pagesMemory mapped) := by
  have hpre : memStep A (pagesMemory mapped) (.prefault 1 p sz) = some (pagesMemory mapped) :=
    vmaTryPrefault_nil rfl (prefault_below hp hsum)
  have ht : (pagesMemory mapped).tasks 1 = some ⟨0xC0401000, [], 0, 0⟩ := rfl
  unfold verifyBuffer
  rw [ht, Option.bind_some, if_neg (by omega), hpre]
  rfl

theorem pagesMemory_readByte {a : Nat} (ha : a < 2 ^ 32) :
    readByte (pagesMemory mapped) 1 a = if mapped (a / 4096) then some 7 else none := by
  have ht : (pagesMemory mapped).tasks 1 = some ⟨0xC0401000, [], 0, 0⟩ := rfl
  rw [readByte, ht, Option.bind_some, pagesMemory_entryAt ha]
  cases mapped (a / 4096) with
  | false => rfl
  | true =>
      show (if ptePresent (createPte 0x1000000 1 1) = true then some (7 : UInt8) else none) = _
      rw [if_pos (ptePresent_createPte _), if_pos rfl]

theorem pagesMemory_userMapped {a : Nat} (ha : a < 2 ^ 32) :
    UserMapped (pagesMemory mapped) 1 a ↔ a < virtBase ∧ mapped (a / 4096) = true := by
  have ht : (pagesMemory mapped).tasks 1 = some ⟨0xC0401000, [], 0, 0⟩ := rfl
  rw [UserMapped, ht]
  simp only [Option.some.injEq, exists_eq_left', pagesMemory_pageMapped ha]

/-- All pages but the last one of a buffer. -/
def allButLast (p sz : Nat) (page : Nat) : Bool := page ≠ (p + sz - 1) / 4096

/-- A buffer whose last page is missed passes without it. -/
theorem verifyBuffer_missed {A : Allocators} {p sz : Nat} (hadm : Admitted p sz)
    (hwrap : p + sz < 2 ^ 32) (hint : 0 < i32 sz) (hend : ¬Endless p sz)
    (hmiss : LastPageMissed p sz) :
    verifyBuffer A (pagesMemory (allButLast p sz)) 1 p sz =
      some (0, pagesMemory (allButLast p sz)) := by
  obtain ⟨hpos, hlast⟩ := hmiss
  have hsum : p + sz ≤ 0xC0000000 := u32_of_lt hwrap ▸ hadm.2.2
  obtain ⟨hsz, hval⟩ := i32_of_pos (by omega : sz < 2 ^ 32) hint
  have hone : ¬OnePage p sz := by
    rintro ⟨-, hsame⟩
    rw [u32_of_lt hwrap, pgRndDown, pgRndDown] at hsame
    omega
  have hpages : verifyPages (pageMapped (pagesMemory (allButLast p sz)) 0xC0401000) p sz =
      some 0 := by
    refine verifyPages_success hadm hend (fun h => absurd h hone) fun _ k hk => ?_
    · rw [u32_of_lt (by omega), pagesMemory_pageMapped (by omega), allButLast, decide_eq_true_eq]
      omega
  rw [verifyBuffer_pagesMemory hadm.2.1 hadm.2.2, hpages]
  rfl

/-- The condition is needed: where it fails, some memory lets the buffer pass. -/
theorem bufferShape_of_sound {A : Allocators} {p sz : Nat} (hsz : sz < 2 ^ 32)
    (h : BufferSound A p sz) : BufferShape p sz := by
  by_contra hnot
  simp only [BufferShape, not_or, not_and, not_not, not_le] at hnot
  obtain ⟨hint, hadm, hend, hmiss⟩ := hnot
  obtain ⟨hsz', hval⟩ := i32_of_pos hsz hint
  have hp : p ≤ 0xC0000000 := hadm.2.1
  by_cases hwrap : p + sz < 2 ^ 32
  · have hlast := hmiss hwrap
    have hsum : p + sz ≤ 0xC0000000 := u32_of_lt hwrap ▸ hadm.2.2
    have hpos := hlast.1
    have hmapped := h _ 1 _ (verifyBuffer_missed hadm hwrap hint hend hlast) (p + sz - 1) (by omega)
      (by omega)
    rw [pagesMemory_userMapped (by omega), allButLast] at hmapped
    simp at hmapped
  · -- everything is mapped, and the buffer reaches the kernel
    have hpages : verifyPages (pageMapped (pagesMemory fun _ => true) 0xC0401000) p sz =
        some 0 := by
      refine verifyPages_success hadm hend (fun _ => ?_) fun _ k _ => ?_
      · exact pagesMemory_pageMapped (by omega)
      · exact pagesMemory_pageMapped (u32_lt _)
    have hok : verifyBuffer A (pagesMemory fun _ => true) 1 p sz =
        some (0, pagesMemory fun _ => true) := by
      rw [verifyBuffer_pagesMemory hadm.2.1 hadm.2.2, hpages]
      rfl
    have hmapped := (h _ 1 _ hok virtBase hadm.2.1 (by rw [virtBase]; omega)).1
    exact lt_irrefl _ hmapped

end Given

/-! ## Pages stay mapped -/

section Strings

variable {A} {s s' s'' : Memory} {pid : Nat} {t : TaskMm}

/-- The tables stay in order, and no user page of the task is lost. -/
structure KeepsMapped (s s' : Memory) (pid : Nat) : Prop where
  ok : TablesOk s'
  tasks : s'.tasks = s.tasks
  mapped : ∀ a, UserMapped s pid a → UserMapped s' pid a

theorem KeepsMapped.refl (hs : TablesOk s) : KeepsMapped s s pid := ⟨hs, rfl, fun _ h => h⟩

theorem KeepsMapped.trans (h : KeepsMapped s s' pid) (h' : KeepsMapped s' s'' pid) :
    KeepsMapped s s'' pid :=
  ⟨h'.ok, h'.tasks.trans h.tasks, fun a ha => h'.mapped a (h.mapped a ha)⟩

theorem userMapped_iff {a : Nat} (ht : s.tasks pid = some t) :
    UserMapped s pid a ↔ a < virtBase ∧ entryAt s t.mm a ≠ 0 := by
  rw [UserMapped, ht]
  simp only [Option.some.injEq, exists_eq_left', pageMapped_eq, decide_eq_true_eq]

/-- An entry that is set to something leaves the pages mapped. -/
theorem EntrySet.keeps {page : Nat} {e : PageEntry} (h : EntrySet s s' pid page e) (he : e ≠ 0)
    (ht : s.tasks pid = some t) : KeepsMapped s s' pid := by
  refine ⟨h.ok, h.tasks, fun a ha => ?_⟩
  rw [userMapped_iff ht] at ha
  rw [userMapped_iff (h.tasks ▸ ht)]
  refine ⟨ha.1, ?_⟩
  rw [h.entry pid t a ht ha.1]
  split
  · exact he
  · exact ha.2

theorem loadPage_keeps (hs : TablesOk s) (ht : s.tasks pid = some t) {addr : Nat}
    (haddr : addr < virtBase) {vma : VmArea} (h : loadPage A s pid t vma addr = some s') :
    KeepsMapped s s' pid := by
  unfold loadPage at h
  obtain ⟨phys, hphys, h⟩ := Option.bind_eq_some_iff.mp h
  obtain ⟨s₁, hmap, h⟩ := Option.bind_eq_some_iff.mp h
  have hset := mapPage_entrySet hs ht haddr hmap
  obtain ⟨hok, -⟩ := hset.fill ht haddr (A.palloc_aligned s phys hphys) (vmaLoad vma addr).1
  have hok' := tablesOk_record hok (.mapped pid (addr / 4096) (vmaLoad vma addr).1)
  have hkept := hset.keeps (createPte_ne_zero phys) ht
  dsimp only at h
  generalize hs₂ : record (fillPage s₁ t.mm addr (vmaLoad vma addr).1)
    (.mapped pid (addr / 4096) (vmaLoad vma addr).1) = s₂ at h hok'
  -- the content and the record are not in the tables
  have hentries : ∀ m a, entryAt s₂ m a = entryAt s₁ m a := by
    intro m a
    rw [← hs₂]
    rfl
  have htasks : s₂.tasks = s₁.tasks := by
    rw [← hs₂]
    rfl
  have ht₂ : s₂.tasks pid = some t := by rw [htasks, hkept.tasks, ht]
  have hfilled : KeepsMapped s s₂ pid := by
    refine hkept.trans ⟨hok', htasks, fun a ha => ?_⟩
    rw [userMapped_iff (htasks ▸ ht₂)] at ha
    rwa [userMapped_iff ht₂, hentries]
  split at h
  · cases h
    exact hfilled
  · unfold markReadOnlyAt at h
    rw [getPageFromPgd_eq hok' ht₂ haddr] at h
    by_cases hpde : s₂.heap t.mm (pdeIndex addr) = 0
    · rw [if_pos hpde] at h
      cases h
    · rw [if_neg hpde, Option.map_some] at h
      rw [← Option.some.inj h]
      have hentry : s₂.heap (tableOf (s₂.heap t.mm (pdeIndex addr))) (pteIndex addr) =
          createPte phys 1 1 := by
        have hnew := hset.entry pid t addr ht haddr
        rw [if_pos ⟨rfl, rfl⟩, ← hentries, entryAt, if_neg hpde] at hnew
        exact hnew
      refine hfilled.trans ((setEntry_entrySet hok' ht₂ haddr hpde _).keeps ?_ ht₂)
      rw [hentry]
      refine ne_zero_of_present ?_
      rw [ptePresent_pteMarkReadOnly]
      exact ptePresent_createPte phys

theorem vmaTryPrefault_keeps {n base : Nat} (hs : TablesOk s) (ht : s.tasks pid = some t)
    (h : vmaTryPrefault A pid t base n s = some s') : KeepsMapped s s' pid := by
  induction n generalizing base s with
  | zero =>
      cases h
      exact KeepsMapped.refl hs
  | succ n ih =>
      unfold vmaTryPrefault at h
      split at h
      · cases h
      · rename_i hbase
        split at h
        · split at h
          · obtain ⟨s₁, hload, h⟩ := Option.bind_eq_some_iff.mp h
            have hkept := loadPage_keeps hs ht (not_le.mp hbase) hload
            exact hkept.trans (ih hkept.ok (hkept.tasks.symm ▸ ht) h)
          · exact ih hs ht h
        · exact ih hs ht h

theorem verifyBuffer_keeps {p sz : Nat} {r : Int} (hs : TablesOk s)
    (h : verifyBuffer A s pid p sz = some (r, s')) : KeepsMapped s s' pid := by
  obtain ⟨t, ht, hcase⟩ := verifyBuffer_some h
  rcases hcase with ⟨-, rfl⟩ | ⟨hpre, -⟩
  · exact KeepsMapped.refl hs
  · obtain ⟨u, hu, hpre⟩ := Option.bind_eq_some_iff.mp hpre
    exact vmaTryPrefault_keeps hs hu hpre

theorem handleMissing_keeps {addr : Nat} (hs : TablesOk s) (ht : s.tasks pid = some t)
    (haddr : addr < virtBase) (h : handleMissing A s pid t addr = some s') :
    KeepsMapped s s' pid := by
  unfold handleMissing at h
  obtain ⟨vma, -, h⟩ := Option.bind_eq_some_iff.mp h
  split at h
  · cases h
  · exact loadPage_keeps hs ht (pgRndDown_lt_virtBase haddr) h

/-- A load that faults is no write, so nothing is copied. -/
theorem handlePagefault_keeps {addr : Nat} {goesOn : Bool} (hs : TablesOk s)
    (ht : s.tasks pid = some t) (haddr : addr < virtBase)
    (h : handlePagefault A s pid t (.kernel goesOn) false addr = some s') :
    KeepsMapped s s' pid := by
  unfold handlePagefault at h
  dsimp only at h
  rw [if_neg (by simp)] at h
  obtain ⟨s₁, hkernel, h⟩ := Option.bind_eq_some_iff.mp h
  have hkept : KeepsMapped s s₁ pid := by
    unfold doKernelPagefault at hkernel
    split at hkernel
    · exact handleMissing_keeps hs ht haddr hkernel
    · cases hkernel
  split at h
  · refine hkept.trans ?_
    unfold doUserPagefault at h
    split at h
    · cases h
    split at h
    · exact handleMissing_keeps hkept.ok (hkept.tasks.symm ▸ ht) haddr h
    · cases h
  · cases h
    exact hkept

theorem access_keeps {addr : Nat} {goesOn done : Bool} (hs : TablesOk s)
    (h : access A s pid (.kernel goesOn) none addr = some (s', done)) :
    KeepsMapped s s' pid := by
  unfold access at h
  obtain ⟨t, ht, h⟩ := Option.bind_eq_some_iff.mp h
  split at h
  · cases h
  · rename_i haddr
    split at h
    · cases h
      exact KeepsMapped.refl hs
    · obtain ⟨s₁, hfault, heq⟩ := Option.map_eq_some_iff.mp h
      cases heq
      exact handlePagefault_keeps hs ht (not_le.mp haddr) hfault

/-- What a load gives is what is there afterwards. -/
theorem kernelLoad_some {addr : Nat} {goesOn : Bool} {c : UInt8} (hs : TablesOk s)
    (h : kernelLoad A s pid goesOn addr = some (c, s')) :
    KeepsMapped s s' pid ∧ readByte s' pid addr = some c := by
  unfold kernelLoad at h
  obtain ⟨⟨s₁, done⟩, hacc, h⟩ := Option.bind_eq_some_iff.mp h
  have hkept := access_keeps hs hacc
  split at h
  · obtain ⟨c', hread, heq⟩ := Option.map_eq_some_iff.mp h
    cases heq
    exact ⟨hkept, hread⟩
  · obtain ⟨⟨s₂, done₂⟩, hacc₂, h⟩ := Option.bind_eq_some_iff.mp h
    split at h
    · obtain ⟨c', hread, heq⟩ := Option.map_eq_some_iff.mp h
      cases heq
      exact ⟨hkept.trans (access_keeps hkept.ok hacc₂), hread⟩
    · cases h

theorem userMapped_of_readByte {addr : Nat} {c : UInt8} (haddr : addr < virtBase)
    (h : readByte s pid addr = some c) : UserMapped s pid addr := by
  unfold readByte at h
  obtain ⟨t, ht, h⟩ := Option.bind_eq_some_iff.mp h
  rw [userMapped_iff ht]
  refine ⟨haddr, ?_⟩
  split at h
  · rename_i hpresent
    exact ne_zero_of_present hpresent
  · cases h

/-! ## `verify_buffer_string` -/

variable {kernel : Nat → UInt8} {goesOn : Bool}

/-- The loop ends with success at a NUL, and every byte up to it is mapped:
it has been read, and what is mapped stays so. -/
theorem verifyChars_zero {p n i : Nat} (hs : TablesOk s) (hp : p + i + n ≤ virtBase)
    (hseen : ∀ j < i, UserMapped s pid (p + j))
    (h : verifyChars A kernel goesOn pid p i n s = some (0, s')) :
    ∃ k < i + n, charAt kernel s' pid (p + k) = some 0 ∧
      ∀ j ≤ k, UserMapped s' pid (p + j) := by
  induction n generalizing i s with
  | zero => cases h
  | succ n ih =>
      rw [verifyChars] at h
      have haddr : p + i < virtBase := by omega
      have hvirt : virtBase = 0xC0000000 := rfl
      have hnot : ¬virtBase ≤ p + i := not_le.mpr haddr
      rw [u32_of_lt (by omega), loadChar, if_neg hnot] at h
      obtain ⟨⟨c, s₁⟩, hload, h⟩ := Option.bind_eq_some_iff.mp h
      obtain ⟨hkept, hread⟩ := kernelLoad_some hs hload
      have hseen₁ : ∀ j ≤ i, UserMapped s₁ pid (p + j) := by
        intro j hj
        rcases eq_or_lt_of_le hj with rfl | hlt
        · exact userMapped_of_readByte haddr hread
        · exact hkept.mapped _ (hseen j hlt)
      dsimp only at h
      split at h
      · rename_i hc
        cases h
        refine ⟨i, by omega, ?_, hseen₁⟩
        rw [charAt, if_neg hnot, hread, hc]
      · obtain ⟨⟨r, s₂⟩, hverify, h⟩ := Option.bind_eq_some_iff.mp h
        have hkept₂ := verifyBuffer_keeps hkept.ok hverify
        dsimp only at h
        split at h
        · cases h
        · obtain ⟨k, hk, hnul, hall⟩ := ih hkept₂.ok (by omega)
            (fun j hj => hkept₂.mapped _ (hseen₁ j (Nat.lt_succ_iff.mp hj))) h
          exact ⟨k, by omega, hnul, hall⟩

theorem admitted_of_zero {p sz : Nat} (h : verifyBuffer A s pid p sz = some (0, s')) :
    Admitted p sz := by
  obtain ⟨t, -, hcase⟩ := verifyBuffer_some h
  rcases hcase with ⟨hone, -⟩ | ⟨-, hpages⟩
  · cases hone
  · exact (verifyPages_zero hpages).1

/-- So long a buffer does not lie in one page. -/
theorem endless_of_long {p sz : Nat} (hsz : sz < 2 ^ 31) (hwrap : p + sz < 2 ^ 32)
    (hlong : 0x7FFFF000 < i32 sz) : Endless p sz := by
  refine ⟨hlong, ?_⟩
  rintro ⟨-, hsame⟩
  rw [i32_of_lt hsz] at hlong
  rw [u32_of_lt hwrap, pgRndDown, pgRndDown] at hsame
  omega

theorem stringSound_of_shape {string max : Nat} (hmax : max < 2 ^ 32)
    (hshape : StringShape string (i32 max)) : StringSound A goesOn string max := by
  intro kernel s pid s' hs h i hi
  have hpos : 0 < i32 max := lt_of_le_of_lt (Int.natCast_nonneg i) hi.1
  obtain ⟨hmax', heq⟩ := i32_of_pos hmax hpos
  have hnat : (i32 max).toNat = max := by rw [heq, Int.toNat_natCast]
  have hlt : i < max := by
    have := hi.1
    omega
  unfold StringShape at hshape
  rw [hnat] at hshape
  unfold verifyBufferString at h
  obtain ⟨⟨r, s₁⟩, hfirst, h⟩ := Option.bind_eq_some_iff.mp h
  dsimp only at h
  split at h
  · rename_i hr
    cases h
    subst hr
    have hadm := admitted_of_zero hfirst
    have hsound : BufferShape string max := by
      rcases hshape with hlow | hhigh | ⟨hend, hlast⟩
      · exact absurd hadm.1 (not_le.mpr hlow)
      · exact absurd hadm.2.1 (not_le.mpr hhigh)
      · have hwrap : string + max < 2 ^ 32 := lt_of_le_of_lt hend (by decide)
        rcases hlast with hlong | hlast
        · exact .inr (.inr (.inl (endless_of_long (by omega) hwrap hlong)))
        · exact .inr (.inr (.inr ⟨hwrap, hlast⟩))
    exact bufferSound_of_shape hmax hsound s pid s' hfirst (string + i) (by omega) (by omega)
  · obtain ⟨⟨r₂, s₂⟩, hsecond, h⟩ := Option.bind_eq_some_iff.mp h
    dsimp only at h
    split at h
    · cases h
    · rename_i hr₂
      rw [not_not] at hr₂
      subst hr₂
      have hadm := admitted_of_zero hsecond
      have hend : string + max ≤ virtBase := by
        rcases hshape with hlow | hhigh | ⟨hend, -⟩
        · exact absurd hadm.1 (not_le.mpr hlow)
        · exact absurd hadm.2.1 (not_le.mpr hhigh)
        · exact hend
      rw [hnat] at h
      have hkept := (verifyBuffer_keeps hs hfirst).trans
        (verifyBuffer_keeps (verifyBuffer_keeps hs hfirst).ok hsecond)
      obtain ⟨k, -, hnul, hall⟩ := verifyChars_zero hkept.ok (by omega)
        (fun j hj => absurd hj (Nat.not_lt_zero j)) h
      -- the string ends at the NUL
      refine hall i ?_
      by_contra hlt
      exact hi.2 k (not_le.mp hlt) hnul

end Strings

/-! ## Strings that should not pass -/

section Reach

variable {A} {goesOn : Bool}

/-- All user pages and no other. -/
def userPages (page : Nat) : Bool := page < 0xC0000

/-- No byte of a given memory is a NUL. -/
theorem pagesMemory_charAt {mapped : Nat → Bool} {a : Nat} (ha : a < virtBase)
    (kernel : Nat → UInt8) : charAt kernel (pagesMemory mapped) 1 a ≠ some 0 := by
  rw [charAt, if_neg (not_le.mpr ha), pagesMemory_readByte (ha.trans (by decide))]
  split
  · decide
  · simp

theorem kernelLoad_userPages {a : Nat} (ha : a < virtBase) :
    kernelLoad A (pagesMemory userPages) 1 goesOn a = some (7, pagesMemory userPages) := by
  have hlt : a < 0xC0000000 := ha
  have ht : (pagesMemory userPages).tasks 1 = some ⟨0xC0401000, [], 0, 0⟩ := rfl
  have hi : pdeIndex a < 1024 := by
    rw [pdeIndex]
    omega
  have hmapped : userPages (a / 4096) = true := by
    rw [userPages, decide_eq_true_eq]
    omega
  -- both entries on the way are present
  have hentry : entryAt (pagesMemory userPages) 0xC0401000 a = createPte 0x1000000 1 1 := by
    rw [pagesMemory_entryAt (by omega), if_pos hmapped]
  rw [entryAt, if_neg (pagesMemory_dir _ ▸ createPde_ne_zero _)] at hentry
  have hallow : ∀ f, entryAllows (.kernel goesOn) false (createPte f 1 1) = true := by
    intro f
    rw [entryAllows, ptePresent_createPte]
    rfl
  have hwalk : walk (pagesMemory userPages) 0xC0401000 (.kernel goesOn) false a =
      some (entryAddr (createPte 0x1000000 1 1)) := by
    unfold walk
    dsimp only
    rw [hentry, pagesMemory_dir, createPde_eq_createPte, hallow, hallow]
    rfl
  have hacc : access A (pagesMemory userPages) 1 (.kernel goesOn) none a =
      some (pagesMemory userPages, true) := by
    unfold access
    rw [ht, Option.bind_some, if_neg (not_le.mpr ha)]
    dsimp only [Option.isSome_none]
    rw [hwalk]
  unfold kernelLoad
  rw [hacc, Option.bind_some, if_pos rfl, pagesMemory_readByte (by omega), if_pos hmapped]
  rfl

/-- A single position below or at `VIRT_BASE` passes. -/
theorem verifyBuffer_userPages {p : Nat} (hlow : 4096 ≤ p) (hp : p ≤ virtBase) :
    verifyBuffer A (pagesMemory userPages) 1 p 0 = some (0, pagesMemory userPages) := by
  have hlt : p ≤ 0xC0000000 := hp
  have hsum : u32 (p + 0) = p := u32_of_lt (by omega)
  have hpages : verifyPages (pageMapped (pagesMemory userPages) 0xC0401000) p 0 = some 0 := by
    refine verifyPages_success ⟨hlow, hp, hsum.symm ▸ hp⟩ (fun hend => ?_) (fun hone => ?_)
      fun _ k hk => absurd hk (by rw [i32_of_lt (by norm_num)]; omega)
    · exact absurd hend.1 (by rw [i32_of_lt (by norm_num)]; norm_num)
    · have halign := hone.1
      rw [pagesMemory_pageMapped (by omega), userPages, decide_eq_true_eq]
      omega
  rw [verifyBuffer_pagesMemory hp (hsum.symm ▸ hp), hpages]
  rfl

/-- With no NUL before, the loop reads on to `VIRT_BASE` and finds one there. -/
theorem verifyChars_reaches {p n i : Nat} (hlow : 4096 ≤ p) (hi : p + i ≤ virtBase)
    (hn : virtBase < p + i + n) :
    verifyChars A (fun _ => 0) goesOn 1 p i n (pagesMemory userPages) =
      some (0, pagesMemory userPages) := by
  have hvirt : virtBase = 0xC0000000 := rfl
  induction n generalizing i with
  | zero => omega
  | succ n ih =>
      rw [verifyChars, u32_of_lt (by omega), loadChar]
      rcases eq_or_lt_of_le hi with heq | hlt
      · rw [if_pos heq.ge]
        rfl
      · rw [if_neg (not_le.mpr hlt), kernelLoad_userPages hlt, Option.bind_some]
        dsimp only
        rw [if_neg (by decide), u32_of_lt (by omega),
          verifyBuffer_userPages (by omega) (by omega), Option.bind_some]
        dsimp only
        rw [if_neg (not_not_intro rfl)]
        exact ih (by omega) (by omega)

/-- A size that reaches beyond user memory does not pass as a whole. -/
theorem verifyBuffer_beyond {p sz : Nat} (hp : p ≤ virtBase) (hsz : sz < 2 ^ 31)
    (hend : virtBase < p + sz) :
    verifyBuffer A (pagesMemory userPages) 1 p sz = some (1, pagesMemory userPages) := by
  have hvirt : virtBase = 0xC0000000 := rfl
  have hint : i32 sz = sz := i32_of_lt hsz
  by_cases hsum : u32 (p + sz) ≤ virtBase
  · -- the sum wraps, and the first kernel page is found not to be mapped
    have hwrap : 2 ^ 32 ≤ p + sz := by
      by_contra hlt
      rw [u32_of_lt (not_le.mp hlt)] at hsum
      omega
    have hpages : verifyPages (pageMapped (pagesMemory userPages) 0xC0401000) p sz = some 1 := by
      by_cases hadm : Admitted p sz
      · have hone : ¬OnePage p sz := by
          rintro ⟨-, hsame⟩
          rw [u32_of_ge hwrap (by omega), pgRndDown, pgRndDown] at hsame
          omega
        rw [verifyPages_admitted hadm, if_neg hone]
        have hfail : checkPages (pageMapped (pagesMemory userPages) 0xC0401000) p sz pageRounds
            (4096 * 0) = some 1 := by
          refine checkPages_failure (k := (virtBase - p + 4095) / 4096) (by omega) (by omega) ?_
            (Nat.zero_le _) (by rw [pageRounds]; omega)
          rw [u32_of_lt (by omega), pagesMemory_pageMapped (by omega), userPages,
            decide_eq_false_iff_not]
          omega
        exact hfail
      · exact verifyPages_refused hadm
    rw [verifyBuffer_pagesMemory hp hsum, hpages]
    rfl
  · have ht : (pagesMemory userPages).tasks 1 = some ⟨0xC0401000, [], 0, 0⟩ := rfl
    unfold verifyBuffer
    rw [ht, Option.bind_some, if_pos (.inr (not_le.mp hsum))]

theorem stringShape_of_sound {string max : Nat} (hmax : max < 2 ^ 32)
    (h : StringSound A goesOn string max) : StringShape string (i32 max) := by
  by_contra hnot
  simp only [StringShape, not_or, not_lt] at hnot
  obtain ⟨hlow, hhigh, hnot⟩ := hnot
  have hvirt : virtBase = 0xC0000000 := rfl
  have hpos : 0 < i32 max := by
    by_contra hle
    refine hnot ?_
    rw [Int.toNat_of_nonpos (not_lt.mp hle)]
    exact ⟨hhigh, .inr fun hmiss => absurd hmiss.1 (lt_irrefl 0)⟩
  obtain ⟨hmax', heq⟩ := i32_of_pos hmax hpos
  have hnat : (i32 max).toNat = max := by rw [heq, Int.toNat_natCast]
  rw [hnat] at hnot
  have hmaxpos : 0 < max := by
    rw [heq] at hpos
    omega
  by_cases hend : string + max ≤ virtBase
  · have hmiss : LastPageMissed string max := by
      by_contra hlast
      exact hnot ⟨hend, .inr hlast⟩
    have hshort : ¬Endless string max := fun hlong => hnot ⟨hend, .inl hlong.1⟩
    have hwrap : string + max < 2 ^ 32 := by omega
    have hadm : Admitted string max := ⟨hlow, hhigh, (u32_of_lt hwrap).symm ▸ hend⟩
    have hok : verifyBufferString A (fun _ => 0) goesOn (pagesMemory (allButLast string max)) 1
        string max = some (0, pagesMemory (allButLast string max)) := by
      unfold verifyBufferString
      rw [verifyBuffer_missed hadm hwrap hpos hshort hmiss]
      rfl
    have hmapped := h _ _ 1 _ pagesMemory_tables hok (max - 1)
      ⟨by omega, fun j hj => pagesMemory_charAt (by omega) _⟩
    rw [pagesMemory_userMapped (by omega), allButLast, decide_eq_true_eq] at hmapped
    exact hmapped.2 (by rw [Nat.add_sub_assoc hmaxpos])
  · have hok : verifyBufferString A (fun _ => 0) goesOn (pagesMemory userPages) 1 string max =
        some (0, pagesMemory userPages) := by
      unfold verifyBufferString
      rw [verifyBuffer_beyond hhigh hmax' (not_le.mp hend), Option.bind_some]
      dsimp only
      rw [if_neg (by decide), verifyBuffer_userPages hlow hhigh, Option.bind_some]
      dsimp only
      rw [if_neg (not_not_intro rfl), hnat]
      exact verifyChars_reaches hlow hhigh (not_le.mp hend)
    have hmapped := h _ _ 1 _ pagesMemory_tables hok (virtBase - string)
      ⟨by omega, fun j hj => pagesMemory_charAt (by omega) _⟩
    have hbelow := hmapped.1
    omega

end Reach

/-! ## The result -/

/-- **Validation is sound for these arguments and no others.** Whatever the
page tables, areas and memory hold: a buffer that `verify_buffer` accepts lies
in mapped user pages exactly if it is empty or refused at once, or its check
never ends, or `p + sz` does not wrap and the last page is not missed; a string
that `verify_buffer_string` accepts does exactly if it does not start in user
memory, or its first `max` bytes stay there and their last page is not missed,
or the check of them never ends. -/
theorem user_buffers_sound (goesOn : Bool) :
    (∀ p sz : BitVec 32, BufferSound A p.toNat sz.toNat ↔ BufferShape p.toNat sz.toNat) ∧
    ∀ string max : BitVec 32, StringSound A goesOn string.toNat max.toNat ↔
      StringShape string.toNat (i32 max.toNat) :=
  ⟨fun _ sz => ⟨bufferShape_of_sound sz.isLt, bufferSound_of_shape sz.isLt⟩,
    fun _ max => ⟨stringShape_of_sound max.isLt, stringSound_of_shape max.isLt⟩⟩

/-- Two bytes across the end of the only page that is mapped are accepted. -/
theorem user_buffers_two_bytes : ¬BufferSound firstFit 0x8000FFF 2 := by
  intro h
  have hrun : ((verifyBuffer firstFit firstPage 1 0x8000FFF 2).map fun r =>
      (r.1, pageMapped r.2 0xC0401000 0x8001000)) = some (0, false) := by
    decide +kernel
  obtain ⟨⟨r, s'⟩, hok, heq⟩ := Option.map_eq_some_iff.mp hrun
  obtain ⟨rfl, hunmapped⟩ := Prod.mk.inj heq
  obtain ⟨-, t, ht, hmapped⟩ := h firstPage 1 s' hok 0x8001000 (by decide) (by decide)
  obtain ⟨u, -, hcase⟩ := verifyBuffer_some hok
  have htasks : s'.tasks = firstPage.tasks := by
    rcases hcase with ⟨hone, -⟩ | ⟨hpre, -⟩
    · cases hone
    · exact prefault_tasks hpre
  rw [htasks] at ht
  rw [(firstPage_task ht).2, hunmapped] at hmapped
  cases hmapped

end Levos.Mm
