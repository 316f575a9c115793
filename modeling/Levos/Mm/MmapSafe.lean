import Levos.Kernel.FileTable
import Levos.Mm.Mapping

/-!
# Requests to `sys_mmap` (`mm/vma.c`, `kernel/syscall.c`)

Every field of the argument comes from user space. `sys_mmap` checks where the
argument lies and which file it names, `do_mmap` that the length is not zero;
the assertion of `vm_area_create_insert` and the sums below it see the rest
unchecked. `mmap_safe_iff` says which requests are served well, and
`sys_mmap_short_panics` that one page too little stops the kernel.
-/

namespace Levos.Mm

open Levos.Base Levos.Kernel

def mapAnonymous : BitVec 32 := 1 <<< 3

/-- `struct mmap_arg_struct`; addresses and lengths are 32 bits wide. -/
structure MmapArgStruct where
  addr : Nat
  len : Nat
  prot : BitVec 32
  flags : BitVec 32
  fd : Int
  offset : Nat
  addr_lt : addr < 2 ^ 32
  len_lt : len < 2 ^ 32

/-- The areas of a task: in order, with neighbours apart, in 32-bit words. -/
structure AreaList where
  areas : List VmArea
  ok : AreasOk areas
  words : ∀ a ∈ areas, a.start < 2 ^ 32 ∧ a.stop < 2 ^ 32

/-! ## The functions of the source -/

/-- `do_mmap` on the list of areas; `ok` is whether `calloc` succeeds. The
result is the address or the error, `none` the panic of the insertion. -/
def doMmapAreas (ok : Bool) (areas : List VmArea) (addr len : Nat) (prot flags : BitVec 32)
    (f : Option (List UInt8)) (offset : Nat) : Option (Int × List VmArea) :=
  match mmapAddr areas addr len flags with
  | .error e => some (e, areas)
  | .ok base =>
      (vmAreaCreateInsert ok (applyProt prot flags
        (vmaSetMapping (mmapArea base len) f offset len)) areas).map fun r =>
          match r with
          | none => (-enomem, areas)
          | some areas' => (base, areas')

/-- The file `sys_mmap` hands on. -/
def mmapFile (fileTable : Fin fdMax → Option (List UInt8)) (arg : MmapArgStruct) :
    Except Int (Option (List UInt8)) :=
  if arg.flags &&& mapAnonymous = 0 then
    if h : 0 ≤ arg.fd ∧ arg.fd.toNat < fdMax then
      match fileTable ⟨arg.fd.toNat, h.2⟩ with
      | none => .error (-ebadf)
      | some content => .ok (some content)
    else .error (-ebadf)
  else .ok none

/-- What `sys_mmap` finds around it: the answer of `verify_buffer` on the
argument, the open files, and whether memory for an area is left. -/
structure MmapEnv where
  badBuffer : Bool
  fileTable : Fin fdMax → Option (List UInt8)
  ok : Bool

/-- `sys_mmap`. The cast of its result keeps the bits, so an address stays the
number it is. -/
def sysMmap (env : MmapEnv) (areas : List VmArea) (arg : MmapArgStruct) :
    Option (Int × List VmArea) :=
  if env.badBuffer then some (-efault, areas)
  else
    match mmapFile env.fileTable arg with
    | .error e => some (e, areas)
    | .ok f => doMmapAreas env.ok areas arg.addr arg.len arg.prot arg.flags f arg.offset

/-- On the areas, the call is `doMmap`, which follows the mappings. -/
theorem doMmap_areas (s : VmState) (p : Nat) (f : Option (List UInt8)) (addr len : Nat)
    (prot flags : BitVec 32) (offset : Nat) :
    ((doMmap s p f addr len prot flags offset).map fun r => (r.1, r.2.areas p)) =
      doMmapAreas true (s.areas p) addr len prot flags f offset := by
  unfold doMmap doMmapAreas
  cases mmapAddr (s.areas p) addr len flags with
  | error e => rfl
  | ok base =>
      dsimp only
      rw [← createArea_areas]
      cases createArea s p (applyProt prot flags
          (vmaSetMapping (mmapArea base len) f offset len)) with
      | none => rfl
      | some made => cases made <;> rfl

/-! ## What a request is owed -/

/-- The request passes the checks before `do_mmap` and comes to the address
`base`. -/
def ComesTo (env : MmapEnv) (areas : List VmArea) (arg : MmapArgStruct) (base : Nat) : Prop :=
  env.badBuffer = false ∧ (∃ f, mmapFile env.fileTable arg = .ok f) ∧
    mmapAddr areas arg.addr arg.len arg.flags = .ok base

/-- No difference of the search and no sum of the insertion wraps. -/
def NoWrap (env : MmapEnv) (areas : List VmArea) (arg : MmapArgStruct) : Prop :=
  areas.IsChain (fun a b => a.stop ≤ b.start) ∧
    ∀ base, ComesTo env areas arg base → base + arg.len < 2 ^ 32 ∧ base + 4096 < 2 ^ 32

/-- The request was served: an error and the list as it was, or the start of a
new area below `VIRT_BASE` that covers what was asked for. -/
def Served (areas : List VmArea) (arg : MmapArgStruct) (ret : Int) (areas' : List VmArea) :
    Prop :=
  (ret < 0 ∧ areas' = areas) ∨
    ∃ before vma after, areas = before ++ after ∧ areas' = before ++ vma :: after ∧
      ret = vma.start ∧ vma.start < vma.stop ∧ vma.stop ≤ virtBase ∧
      vma.start + arg.len ≤ vma.stop ∧ (arg.flags &&& mapFixed ≠ 0 → vma.start = arg.addr)

def MmapSafe (env : MmapEnv) (areas : List VmArea) (arg : MmapArgStruct) : Prop :=
  NoWrap env areas arg ∧
    ∃ ret areas', sysMmap env areas arg = some (ret, areas') ∧ Served areas arg ret areas'

/-- Where the request goes: to the address it names, or behind the first area
with a gap wider than it. -/
def GoesTo (areas : List VmArea) (arg : MmapArgStruct) (base : Nat) : Prop :=
  arg.len ≠ 0 ∧
    if arg.flags &&& mapFixed ≠ 0 then base = arg.addr ∧ base ≠ 0
    else ∃ before x y after, areas = before ++ x :: y :: after ∧ base = x.stop ∧
      arg.len < y.start - x.stop ∧ (before ++ [x]).IsChain fun a b => b.start - a.stop ≤ arg.len

/-- The checks before `do_mmap`: a readable argument, and an open file unless
the mapping is anonymous. -/
def Accepted (env : MmapEnv) (arg : MmapArgStruct) : Prop :=
  env.badBuffer = false ∧ (arg.flags &&& mapAnonymous = 0 →
    ∃ i : Fin fdMax, arg.fd = i ∧ (env.fileTable i).isSome)

/-- An area starts between the ends, or holds the first address. -/
def Taken (areas : List VmArea) (start stop : Nat) : Prop :=
  ∃ a ∈ areas, start ∈ a.range ∨ a.start ∈ Set.Ioo start stop

instance (areas : List VmArea) (start stop : Nat) : Decidable (Taken areas start stop) :=
  inferInstanceAs (Decidable (∃ a ∈ areas, (a.start ≤ start ∧ start < a.stop) ∨
    (start < a.start ∧ a.start < stop)))

/-- The requests that are served well: at least a page long and ending in the
address space, below `VIRT_BASE` unless the insertion refuses them anyway. -/
def MmapFits (env : MmapEnv) (areas : List VmArea) (arg : MmapArgStruct) : Prop :=
  Accepted env arg → ∀ base, GoesTo areas arg base →
    4096 ≤ arg.len ∧ base + arg.len < 2 ^ 32 ∧
      (base + arg.len ≤ virtBase ∨ env.ok = false ∨ Taken areas base (base + arg.len))

/-! ## Ordered lists -/

/-- Sorted with neighbours apart, the areas lie one behind the other, also
where the end of one has wrapped. -/
theorem AreasOk.laid {areas : List VmArea} (h : AreasOk areas) :
    Laid VmArea.start VmArea.stop areas := by
  obtain ⟨hsorted, hapart, -⟩ := h
  induction areas with
  | nil => exact List.Pairwise.nil
  | cons a areas ih =>
      obtain ⟨ha, hrest⟩ := List.pairwise_cons.mp hsorted
      refine List.pairwise_cons.mpr ⟨?_, ih hrest (List.isChain_cons.mp hapart).2⟩
      cases areas with
      | nil => simp
      | cons b areas =>
          have hab : a.stop ≤ b.start := (List.isChain_cons_cons.mp hapart).1
          intro c hc
          rcases List.mem_cons.mp hc with rfl | hc
          · exact hab
          · exact hab.trans ((List.pairwise_cons.mp hrest).1 c hc)

/-- The two neighbours of its place know whether an area fits. -/
theorem AreasOk.overlaps_iff {areas : List VmArea} (h : AreasOk areas) (vma : VmArea) :
    vmAreaOverlaps vma (insertPoint vma areas).1 (insertPoint vma areas).2 = true ↔
      Taken areas vma.start vma.stop := by
  have happ := insertPoint_append vma areas
  have hlaid := happ.symm ▸ h.laid
  have hsorted := happ.symm ▸ h.sorted
  obtain ⟨hbefore, hafter, -⟩ := List.pairwise_append.mp hsorted
  have hbehind : ∀ a ∈ (insertPoint vma areas).2, vma.start < a.start :=
    insertPoint_after h.sorted
  rw [← Bool.not_eq_false, vmAreaOverlaps_eq_false, Taken, not_iff_comm]
  push Not
  constructor
  · intro hfree
    constructor
    · intro a ha
      have hmem := List.mem_of_getLast? ha
      by_contra hgt
      exact (hfree a (happ ▸ List.mem_append_left _ hmem)).1
        ⟨insertPoint_before a hmem, not_le.mp hgt⟩
    · intro a ha
      have hmem := List.mem_of_mem_head? ha
      by_contra hgt
      exact (hfree a (happ ▸ List.mem_append_right _ hmem)).2 ⟨hbehind a hmem, not_le.mp hgt⟩
  · rintro ⟨hlast, hhead⟩ a ha
    rw [← happ] at ha
    rcases List.mem_append.mp ha with ha | ha
    · -- before the place: what the last one does not reach, none reaches
      have hstop : a.stop ≤ vma.start := by
        obtain ⟨init, z, hz⟩ := (List.eq_nil_or_concat' _).resolve_left (List.ne_nil_of_mem ha)
        have hlt : z.stop ≤ vma.start := hlast z (by rw [hz]; simp)
        have hbeforeLaid := (List.pairwise_append.mp hlaid).1
        rw [hz] at ha hbeforeLaid
        rcases List.mem_append.mp ha with ha | ha
        · have hle : a.stop ≤ z.start :=
            (List.pairwise_append.mp hbeforeLaid).2.2 a ha z (List.mem_singleton_self z)
          exact hle.trans (insertPoint_before z (by rw [hz]; simp))
        · rw [List.mem_singleton.mp ha]
          exact hlt
      have hstart := insertPoint_before a ha
      exact ⟨fun hin => absurd hin.2 (not_lt.mpr hstop),
        fun hin => absurd hin.1 (not_lt.mpr hstart)⟩
    · -- behind it: the first one starts where the area has ended
      have hstop : vma.stop ≤ a.start := by
        cases hrest : (insertPoint vma areas).2 with
        | nil =>
            rw [hrest] at ha
            cases ha
        | cons b rest =>
            have hb : vma.stop ≤ b.start := hhead b (by rw [hrest]; rfl)
            rw [hrest] at ha hafter
            rcases List.mem_cons.mp ha with rfl | ha
            · exact hb
            · exact hb.trans ((List.pairwise_cons.mp hafter).1 a ha)
      exact ⟨fun hin => absurd hin.1 (not_le.mpr (hbehind a ha)),
        fun hin => absurd hin.2 (not_lt.mpr hstop)⟩

/-- **Insertion into an ordered list.** It panics on an area that looks
shorter than a page, and returns NULL where memory is short or the place is
taken. -/
theorem AreasOk.create_insert {areas : List VmArea} (h : AreasOk areas) (ok : Bool)
    (vma : VmArea) :
    vmAreaCreateInsert ok vma areas =
      if ¬u32 (vma.start + 4096) ≤ vma.stop then none
      else if ok = false ∨ Taken areas vma.start vma.stop then some none
      else some (some ((insertPoint vma areas).1 ++ vma :: (insertPoint vma areas).2)) := by
  have hover := h.overlaps_iff vma
  rw [vmAreaCreateInsert]
  refine if_congr Iff.rfl rfl ?_
  cases ok with
  | false => rw [if_pos (by decide), if_pos (.inl rfl)]
  | true =>
      rw [if_neg (by decide)]
      dsimp only
      by_cases htaken : Taken areas vma.start vma.stop
      · rw [if_pos (hover.mpr htaken), if_pos (.inr htaken)]
      · rw [if_neg (fun h => htaken (hover.mp h)), if_neg]
        rintro (h | h)
        · cases h
        · exact htaken h

/-! ## The address of a request -/

/-- A gap wider than a request ends the search before -1 could be returned. -/
theorem vmaFindFreeRegion_iff (l : AreaList) (len base : Nat) :
    (vmaFindFreeRegion l.areas len = base ∧ base ≠ noRegion) ↔
      ∃ before x y after, l.areas = before ++ x :: y :: after ∧ base = x.stop ∧
        len < y.start - x.stop ∧
        (before ++ [x]).IsChain fun a b => b.start - a.stop ≤ len := by
  have hgap : ∀ before x y after, l.areas = before ++ x :: y :: after →
      (WiderThan len x y ↔ len < y.start - x.stop) ∧
        ((before ++ [x]).IsChain (fun a b => ¬WiderThan len a b) ↔
          (before ++ [x]).IsChain fun a b => b.start - a.stop ≤ len) := by
    intro before x y after heq
    have hsplit : l.areas = (before ++ [x]) ++ y :: after := by simp [heq]
    have hchain := l.ok.apart
    rw [hsplit, List.isChain_append] at hchain
    have hy := (l.words y (by simp [heq])).1
    constructor
    · exact VmaList.widerThan_iff (hchain.2.2 x (by simp) y (by simp)) hy
    · refine VmaList.chain_widerThan_iff hchain.1 fun a ha => (l.words a ?_).1
      rw [hsplit]
      exact List.mem_append_left _ ha
  rw [vmaFindFreeRegion_eq]
  constructor
  · rintro ⟨hfound, hne⟩
    cases hfirst : firstGap (WiderThan len) l.areas with
    | none =>
        rw [hfirst] at hfound
        exact absurd hfound.symm hne
    | some x =>
        rw [hfirst] at hfound
        obtain ⟨before, y, after, heq, hwide, hchain⟩ := firstGap_eq_some.mp hfirst
        obtain ⟨hw, hc⟩ := hgap before x y after heq
        exact ⟨before, x, y, after, heq, hfound.symm, hw.mp hwide, hc.mp hchain⟩
  · rintro ⟨before, x, y, after, heq, rfl, hlt, hchain⟩
    obtain ⟨hw, hc⟩ := hgap before x y after heq
    rw [firstGap_eq_some.mpr ⟨before, y, after, heq, hw.mpr hlt, hc.mpr hchain⟩]
    refine ⟨rfl, ?_⟩
    have := (l.words y (by simp [heq])).1
    rw [noRegion]
    omega

theorem mmapAddr_eq_ok (l : AreaList) (arg : MmapArgStruct) (base : Nat) :
    mmapAddr l.areas arg.addr arg.len arg.flags = .ok base ↔ GoesTo l.areas arg base := by
  rw [mmapAddr, GoesTo]
  by_cases hlen : arg.len = 0
  · simp only [hlen, ite_true, ne_eq, not_true_eq_false, false_and, iff_false]
    split <;> simp
  by_cases hfixed : arg.flags &&& mapFixed = 0
  · rw [if_neg (by simp [hfixed]), if_neg hlen, if_neg (not_not_intro hfixed),
      if_neg (not_not_intro hfixed), ← vmaFindFreeRegion_iff]
    by_cases hno : vmaFindFreeRegion l.areas arg.len = noRegion
    · rw [if_pos hno, hno]
      simp only [reduceCtorEq, false_iff, not_and]
      rintro _ rfl hne
      exact hne rfl
    · rw [if_neg hno, Except.ok.injEq]
      constructor
      · rintro rfl
        exact ⟨hlen, rfl, hno⟩
      · exact fun h => h.2.1
  · have hfixed : arg.flags &&& mapFixed ≠ 0 := hfixed
    by_cases haddr : arg.addr = 0
    · rw [if_pos ⟨hfixed, haddr⟩, if_pos hfixed, haddr]
      simp only [reduceCtorEq, false_iff, not_and]
      exact fun _ h hne => hne h
    · rw [if_neg (fun h => haddr h.2), if_neg hlen, if_pos hfixed, if_pos hfixed,
        Except.ok.injEq]
      constructor
      · rintro rfl
        exact ⟨hlen, rfl, haddr⟩
      · exact fun h => h.2.1.symm

theorem mmapAddr_error {areas : List VmArea} {addr len : Nat} {flags : BitVec 32} {e : Int}
    (h : mmapAddr areas addr len flags = .error e) : e < 0 := by
  unfold mmapAddr at h
  split_ifs at h <;> cases h <;> decide

theorem mmapFile_error {fileTable : Fin fdMax → Option (List UInt8)} {arg : MmapArgStruct}
    {e : Int} (h : mmapFile fileTable arg = .error e) : e < 0 := by
  unfold mmapFile at h
  split_ifs at h
  · split at h
    · cases h
      decide
    · cases h
  · cases h
    decide

theorem accepted_iff (env : MmapEnv) (arg : MmapArgStruct) :
    Accepted env arg ↔ env.badBuffer = false ∧ ∃ f, mmapFile env.fileTable arg = .ok f := by
  rw [Accepted]
  refine and_congr_right fun _ => ?_
  unfold mmapFile
  by_cases hanon : arg.flags &&& mapAnonymous = 0
  · simp only [hanon, ite_true, forall_const]
    by_cases hfd : 0 ≤ arg.fd ∧ arg.fd.toNat < fdMax
    · rw [dif_pos hfd]
      have hint : arg.fd = ((⟨arg.fd.toNat, hfd.2⟩ : Fin fdMax) : Nat) := by
        simp [hfd.1]
      constructor
      · rintro ⟨i, hi, hopen⟩
        have : i = ⟨arg.fd.toNat, hfd.2⟩ := Fin.ext (by simp [hi])
        rw [← this]
        obtain ⟨content, hc⟩ := Option.isSome_iff_exists.mp hopen
        exact ⟨some content, by rw [hc]⟩
      · rintro ⟨f, hf⟩
        refine ⟨_, hint, ?_⟩
        cases hc : env.fileTable ⟨arg.fd.toNat, hfd.2⟩ with
        | none =>
            rw [hc] at hf
            cases hf
        | some content => rfl
    · rw [dif_neg hfd]
      simp only [reduceCtorEq, exists_false, iff_false]
      rintro ⟨i, hi, -⟩
      refine hfd ⟨by omega, ?_⟩
      rw [hi, Int.toNat_natCast]
      exact i.isLt
  · rw [if_neg hanon]
    exact iff_of_true (fun h => absurd h hanon) ⟨none, rfl⟩

theorem comesTo_iff (env : MmapEnv) (l : AreaList) (arg : MmapArgStruct) (base : Nat) :
    ComesTo env l.areas arg base ↔ Accepted env arg ∧ GoesTo l.areas arg base := by
  rw [ComesTo, accepted_iff, mmapAddr_eq_ok, and_assoc]

/-! ## Which requests are safe -/

/-- The area a request creates. -/
def requestArea (arg : MmapArgStruct) (f : Option (List UInt8)) (base : Nat) : VmArea :=
  applyProt arg.prot arg.flags (vmaSetMapping (mmapArea base arg.len) f arg.offset arg.len)

@[simp] theorem requestArea_start (arg : MmapArgStruct) (f : Option (List UInt8)) (base : Nat) :
    (requestArea arg f base).start = base :=
  (vmaSetMapping_range (mmapArea base arg.len) f arg.offset arg.len).1

@[simp] theorem requestArea_stop (arg : MmapArgStruct) (f : Option (List UInt8)) (base : Nat) :
    (requestArea arg f base).stop = u32 (base + arg.len) :=
  (vmaSetMapping_range (mmapArea base arg.len) f arg.offset arg.len).2

/-- What a request does that comes to an address. -/
theorem sysMmap_comesTo {env : MmapEnv} {areas : List VmArea} {arg : MmapArgStruct} {base : Nat}
    (h : ComesTo env areas arg base) :
    ∃ f, sysMmap env areas arg =
      (vmAreaCreateInsert env.ok (requestArea arg f base) areas).map fun r =>
        (r.elim (-enomem) fun _ => (base : Int), r.getD areas) := by
  obtain ⟨hbuf, ⟨f, hf⟩, haddr⟩ := h
  refine ⟨f, ?_⟩
  rw [sysMmap, if_neg (by simp [hbuf]), hf]
  dsimp only
  rw [doMmapAreas, haddr]
  dsimp only
  rw [requestArea]
  refine congrFun (congrArg Option.map ?_) _
  funext r
  cases r <;> rfl

/-- A request that comes to no address is refused. -/
theorem sysMmap_refused {env : MmapEnv} {areas : List VmArea} {arg : MmapArgStruct}
    (h : ∀ base, ¬ComesTo env areas arg base) :
    ∃ e < 0, sysMmap env areas arg = some (e, areas) := by
  rw [sysMmap]
  cases hbuf : env.badBuffer with
  | true => exact ⟨-efault, by decide, rfl⟩
  | false =>
      cases hf : mmapFile env.fileTable arg with
      | error e => exact ⟨e, mmapFile_error hf, rfl⟩
      | ok f =>
          cases haddr : mmapAddr areas arg.addr arg.len arg.flags with
          | error e =>
              refine ⟨e, mmapAddr_error haddr, ?_⟩
              simp [doMmapAreas, haddr]
          | ok base => exact absurd ⟨hbuf, ⟨f, hf⟩, haddr⟩ (h base)

/-- The insertion of a request that ends in the address space. -/
theorem insert_request {ok : Bool} (l : AreaList) {arg : MmapArgStruct} {base : Nat}
    (f : Option (List UInt8)) (hlen : 4096 ≤ arg.len) (hend : base + arg.len < 2 ^ 32) :
    vmAreaCreateInsert ok (requestArea arg f base) l.areas =
      if ok = false ∨ Taken l.areas base (base + arg.len) then some none
      else some (some ((insertPoint (requestArea arg f base) l.areas).1 ++
        requestArea arg f base :: (insertPoint (requestArea arg f base) l.areas).2)) := by
  rw [l.ok.create_insert, if_neg, requestArea_start, requestArea_stop, u32_of_lt hend]
  rw [requestArea_start, requestArea_stop, u32_of_lt hend, u32_of_lt (by omega)]
  omega

/-- **Requests.** `sys_mmap` serves a request well exactly when it is at least
a page long, ends in the address space, and ends below `VIRT_BASE` or is
refused by the insertion. -/
theorem mmap_safe_iff (env : MmapEnv) (l : AreaList) (arg : MmapArgStruct) :
    MmapSafe env l.areas arg ↔ MmapFits env l.areas arg := by
  constructor
  · rintro ⟨⟨-, hsums⟩, ret, areas', hrun, hserved⟩ hadm base hgoes
    have hcomes := (comesTo_iff env l arg base).mpr ⟨hadm, hgoes⟩
    obtain ⟨hend, hpage⟩ := hsums base hcomes
    obtain ⟨f, hf⟩ := sysMmap_comesTo hcomes
    have hlen : 4096 ≤ arg.len := by
      by_contra hshort
      rw [hf, vmAreaCreateInsert, if_pos] at hrun
      · cases hrun
      · rw [requestArea_start, requestArea_stop, u32_of_lt hpage, u32_of_lt hend]
        omega
    refine ⟨hlen, hend, ?_⟩
    by_cases hrefused : env.ok = false ∨ Taken l.areas base (base + arg.len)
    · exact .inr hrefused
    · left
      rw [hf, insert_request l f hlen hend, if_neg hrefused] at hrun
      have hret : (base : Int) = ret := congrArg Prod.fst (Option.some.inj hrun)
      rcases hserved with ⟨hneg, -⟩ | ⟨_, vma, _, -, -, hstart, -, hstop, hcover, -⟩
      · omega
      · omega
  · intro hfits
    refine ⟨⟨l.ok.apart, ?_⟩, ?_⟩
    · intro base hcomes
      obtain ⟨hadm, hgoes⟩ := (comesTo_iff env l arg base).mp hcomes
      obtain ⟨hlen, hend, -⟩ := hfits hadm base hgoes
      exact ⟨hend, by omega⟩
    · by_cases hcomes : ∃ base, ComesTo env l.areas arg base
      · obtain ⟨base, hcomes⟩ := hcomes
        obtain ⟨hadm, hgoes⟩ := (comesTo_iff env l arg base).mp hcomes
        obtain ⟨hlen, hend, hbelow⟩ := hfits hadm base hgoes
        obtain ⟨f, hf⟩ := sysMmap_comesTo hcomes
        rw [insert_request l f hlen hend] at hf
        by_cases hrefused : env.ok = false ∨ Taken l.areas base (base + arg.len)
        · rw [if_pos hrefused] at hf
          exact ⟨-enomem, l.areas, hf, .inl ⟨by decide, rfl⟩⟩
        · rw [if_neg hrefused] at hf
          refine ⟨base, _, hf, .inr ⟨_, requestArea arg f base, _,
            (insertPoint_append _ _).symm, rfl, ?_⟩⟩
          rw [requestArea_start, requestArea_stop, u32_of_lt hend]
          have hbase : base + arg.len ≤ virtBase := by tauto
          refine ⟨rfl, by omega, hbase, le_rfl, fun hfixed => ?_⟩
          have hplace := hgoes.2
          rw [if_pos hfixed] at hplace
          exact hplace.1
      · push Not at hcomes
        obtain ⟨e, he, hrun⟩ := sysMmap_refused hcomes
        exact ⟨e, l.areas, hrun, .inl ⟨he, rfl⟩⟩

/-- The list of a new task. -/
def stackOnly : AreaList :=
  ⟨[stackVma], ⟨by simp, by simp, by decide⟩, by decide⟩

/-- A fixed anonymous mapping of `len` bytes at 0x1000. -/
def anonymousAt (len : Nat) (h : len < 2 ^ 32) : MmapArgStruct :=
  { addr := 0x1000, len := len, prot := protWrite, flags := mapFixed ||| mapAnonymous
    fd := -1, offset := 0, addr_lt := by decide, len_lt := h }

def plainEnv : MmapEnv := ⟨false, fun _ => none, true⟩

/-- One byte at 0x1000 runs into the assertion. -/
theorem sys_mmap_short_panics :
    sysMmap plainEnv stackOnly.areas (anonymousAt 1 (by decide)) = none ∧
      ¬MmapSafe plainEnv stackOnly.areas (anonymousAt 1 (by decide)) := by
  have hpanic : sysMmap plainEnv stackOnly.areas (anonymousAt 1 (by decide)) = none := by
    decide +kernel
  refine ⟨hpanic, ?_⟩
  rintro ⟨-, ret, areas', hrun, -⟩
  rw [hpanic] at hrun
  cases hrun

end Levos.Mm
