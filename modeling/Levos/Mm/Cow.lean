import Levos.Base.Run
import Levos.Mm.Tables

/-!
# Copy-on-write isolation

The tables of all tasks together form a `Sharing`: the cells are the user
pages of the tasks, the frames those of the machine. Each function that
changes tables or frames is one of the three operations of a sharing
(`loadPage_attached`, `doCow_attached`, `MemInv.of_wrote`, `Forked.view`), and
`cow_isolation` follows from what these preserve.
-/

namespace Levos.Mm

open Levos.Base

variable {A : Allocators}

/-! ## User memory as a sharing -/

/-- The user pages of all tasks, with the frames they refer to. -/
def memView (s : Memory) : Sharing (Nat × Nat) (BitVec 32) Page where
  cell c :=
    if 4096 * c.2 < virtBase then
      (s.tasks c.1).bind fun t => cellOf (entryAt s t.mm (4096 * c.2))
    else none
  frame := s.frames

theorem page_lt {addr : Nat} (h : addr < virtBase) : 4096 * (addr / 4096) < virtBase := by
  omega

theorem memView_cell {s : Memory} {p addr : Nat} {t : TaskMm} (ht : s.tasks p = some t)
    (haddr : addr < virtBase) :
    (memView s).cell (p, addr / 4096) = cellOf (entryAt s t.mm addr) := by
  simp only [memView, if_pos (page_lt haddr), ht, Option.bind_some]
  rw [entryAt_congr s t.mm (show 4096 * (addr / 4096) / 4096 = addr / 4096 by omega)]

theorem unused_of_frameFree {s : Memory} {f : BitVec 32} (h : FrameFree s f) :
    (memView s).Unused f := by
  rintro ⟨p, v⟩ w hc
  simp only [memView] at hc
  split at hc
  next hv =>
    obtain ⟨t, ht, hcell⟩ := Option.bind_eq_some_iff.mp hc
    rw [cellOf] at hcell
    split at hcell
    next hpresent => exact h p t _ ht hv hpresent (Prod.mk.inj (Option.some.inj hcell)).1
    next => cases hcell
  next => cases hc

theorem EntrySet.view {s s' : Memory} {p addr : Nat} {e : PageEntry}
    (h : EntrySet s s' p (addr / 4096) e) {t : TaskMm} (ht : s.tasks p = some t)
    (haddr : addr < virtBase) :
    memView s' = ⟨Function.update (memView s).cell (p, addr / 4096) (cellOf e), s.frames⟩ := by
  have hcell : (memView s').cell =
      Function.update (memView s).cell (p, addr / 4096) (cellOf e) := by
    ext1 ⟨q, v⟩
    rw [Function.update_apply]
    simp only [memView, h.tasks, Prod.mk.injEq]
    by_cases hv : 4096 * v < virtBase
    · rw [if_pos hv, if_pos hv]
      cases hu : s.tasks q with
      | none =>
        have hq : ¬ (q = p ∧ v = addr / 4096) := by
          rintro ⟨rfl, -⟩
          rw [hu] at ht
          cases ht
        rw [if_neg hq]
        rfl
      | some u =>
        rw [Option.bind_some, Option.bind_some, h.entry q u _ hu hv]
        rw [show 4096 * v / 4096 = v by omega]
        split <;> rfl
    · rw [if_neg hv, if_neg hv, if_neg]
      rintro ⟨-, rfl⟩
      exact hv (page_lt haddr)
  have hframe : (memView s').frame = s.frames := h.frames
  rw [← hcell, ← hframe]

/-- A user page of a task is attached to a frame that was unused. -/
structure Attached (s s' : Memory) (pid page : Nat) (content : Page) : Prop where
  ok : TablesOk s'
  tasks : s'.tasks = s.tasks
  view : ∃ f w, (memView s).Unused f ∧ memView s' = (memView s).attach (pid, page) f w content

/-- The frame of a page that has just been mapped is filled. -/
theorem EntrySet.fill {s s' : Memory} {p addr : Nat} {f : BitVec 32}
    (h : EntrySet s s' p (addr / 4096) (createPte f 1 1)) {t : TaskMm} (ht : s.tasks p = some t)
    (haddr : addr < virtBase) (hf : entryAddr f = f) (content : Page) :
    TablesOk (fillPage s' t.mm addr content) ∧
      memView (fillPage s' t.mm addr content) =
        (memView s).attach (p, addr / 4096) f true content := by
  have hentry : entryAddr (entryAt s' t.mm addr) = f := by
    rw [h.entry p t addr ht haddr, if_pos ⟨rfl, rfl⟩, entryAddr_createPte, hf]
  have hsame : SameDirs s' (fillPage s' t.mm addr content) :=
    ⟨rfl, fun _ _ _ _ _ => rfl, fun _ ha => ha⟩
  refine ⟨hsame.tablesOk h.ok, ?_⟩
  have hview : memView (fillPage s' t.mm addr content) = (memView s').poke f content := by
    rw [← hentry]
    rfl
  rw [hview, h.view ht haddr, cellOf_createPte hf]
  rfl

theorem memView_record (s : Memory) (e : MemEvent) : memView (record s e) = memView s := rfl

theorem tablesOk_record {s : Memory} (h : TablesOk s) (e : MemEvent) : TablesOk (record s e) := by
  have hsame : SameDirs s (record s e) := ⟨rfl, fun _ _ _ _ _ => rfl, fun _ ha => ha⟩
  exact hsame.tablesOk h

/-- Taking write access away from the page attached last. -/
theorem markReadOnlyAt_view {s s' : Memory} (hs : TablesOk s) {p addr : Nat} {t : TaskMm}
    (ht : s.tasks p = some t) (haddr : addr < virtBase)
    (h : markReadOnlyAt s t.mm addr = some s') :
    TablesOk s' ∧ s'.tasks = s.tasks ∧ s'.history = s.history ∧
      memView s' = ⟨Function.update (memView s).cell (p, addr / 4096)
        (((memView s).cell (p, addr / 4096)).map fun e => (e.1, false)), s.frames⟩ := by
  unfold markReadOnlyAt at h
  rw [getPageFromPgd_eq hs ht haddr] at h
  by_cases hpde : s.heap t.mm (pdeIndex addr) = 0
  · rw [if_pos hpde] at h
    cases h
  · rw [if_neg hpde, Option.map_some] at h
    rw [← Option.some.inj h]
    have hset := setEntry_entrySet hs ht haddr hpde
      (pteMarkReadOnly (s.heap (tableOf (s.heap t.mm (pdeIndex addr))) (pteIndex addr)))
    refine ⟨hset.ok, rfl, rfl, ?_⟩
    rw [hset.view ht haddr, memView_cell ht haddr, cellOf_pteMarkReadOnly, entryAt, if_neg hpde]

/-- `vma_load` attaches a new frame with the content of the page. -/
theorem loadPage_attached {s s' : Memory} (hs : TablesOk s) {p addr : Nat} {t : TaskMm}
    (ht : s.tasks p = some t) (haddr : addr < virtBase) {vma : VmArea}
    (h : loadPage A s p t vma addr = some s') :
    Attached s s' p (addr / 4096) (vmaLoad vma addr).1 ∧
      s'.history = .mapped p (addr / 4096) (vmaLoad vma addr).1 :: s.history := by
  unfold loadPage at h
  obtain ⟨phys, hphys, h⟩ := Option.bind_eq_some_iff.mp h
  obtain ⟨s₁, hmap, h⟩ := Option.bind_eq_some_iff.mp h
  have hset := mapPage_entrySet hs ht haddr hmap
  obtain ⟨hok, hview⟩ := hset.fill ht haddr (A.palloc_aligned s phys hphys) (vmaLoad vma addr).1
  have hunused := unused_of_frameFree (A.palloc_free s phys hphys)
  have hok' := tablesOk_record hok (.mapped p (addr / 4096) (vmaLoad vma addr).1)
  dsimp only at h
  split at h
  next =>
    rw [← Option.some.inj h]
    refine ⟨⟨hok', hset.tasks, phys, true, hunused, hview⟩, ?_⟩
    exact congrArg _ hset.history
  next =>
    have ht' : (record (fillPage s₁ t.mm addr (vmaLoad vma addr).1)
        (.mapped p (addr / 4096) (vmaLoad vma addr).1)).tasks p = some t := by
      rw [← ht, ← hset.tasks]
      rfl
    obtain ⟨hok₂, htasks, hhist, hview₂⟩ := markReadOnlyAt_view hok' ht' haddr h
    refine ⟨⟨hok₂, htasks.trans hset.tasks, phys, false, hunused, ?_⟩, ?_⟩
    · rw [hview₂, memView_record, hview]
      have hframes : (record (fillPage s₁ t.mm addr (vmaLoad vma addr).1)
          (.mapped p (addr / 4096) (vmaLoad vma addr).1)).frames =
            Function.update s.frames phys (vmaLoad vma addr).1 := congrArg Sharing.frame hview
      simp only [hframes, Sharing.attach, Function.update_self, Option.map_some,
        Function.update_idem]
      rfl
    · exact hhist.trans (congrArg _ hset.history)

/-- `__do_cow` attaches a new frame with the content the page had. -/
theorem doCow_attached {s s' : Memory} (hs : TablesOk s) {p cr2 : Nat} {t : TaskMm}
    (ht : s.tasks p = some t) (haddr : pgRndDown cr2 < virtBase)
    (h : doCow A s t cr2 = some s') :
    ∃ content, (memView s).value (p, pgRndDown cr2 / 4096) = some content ∧
      Attached s s' p (pgRndDown cr2 / 4096) content ∧ s'.history = s.history := by
  unfold doCow at h
  dsimp only at h
  rw [getPageFromPgd_eq hs ht haddr] at h
  by_cases hpde : s.heap t.mm (pdeIndex (pgRndDown cr2)) = 0
  · rw [if_pos hpde] at h
    cases h
  · rw [if_neg hpde, Option.bind_some] at h
    have hentry : entryAt s t.mm (pgRndDown cr2) =
        s.heap (tableOf (s.heap t.mm (pdeIndex (pgRndDown cr2)))) (pteIndex (pgRndDown cr2)) := by
      rw [entryAt, if_neg hpde]
    rw [← hentry] at h
    split at h
    · cases h
    split at h
    · cases h
    next hpresent =>
      rw [not_not] at hpresent
      obtain ⟨pnp, hpnp, rfl⟩ := Option.map_eq_some_iff.mp h
      have hset := setEntry_entrySet hs ht haddr hpde (createPte pnp 1 1)
      obtain ⟨hok, hview⟩ := hset.fill ht haddr (A.palloc_aligned s pnp hpnp)
        (s.frames (entryAddr (entryAt s t.mm (pgRndDown cr2))))
      refine ⟨_, ?_, ⟨hok, rfl, pnp, true, unused_of_frameFree (A.palloc_free s pnp hpnp), hview⟩,
        rfl⟩
      rw [Sharing.value, memView_cell ht haddr, cellOf, if_pos hpresent]
      rfl

/-! ## What a task should read -/

/-- What a task reads at an address. -/
def readByte (s : Memory) (pid addr : Nat) : Option UInt8 :=
  (s.tasks pid).bind fun t =>
    if ptePresent (entryAt s t.mm addr) then
      some (s.frames (entryAddr (entryAt s t.mm addr)) (addr % 4096))
    else none

/-- What a task should read at an address after the events, the last one
first: what it wrote there last; else what its parent should have read there
at the fork; else what the page was mapped with; else what was there at the
start. -/
def expectedByte (start : Nat → Nat → Option UInt8) :
    List MemEvent → Nat → Nat → Option UInt8
  | [], pid, addr => start pid addr
  | .wrote p a b :: h, pid, addr =>
      if pid = p ∧ addr = a then some b else expectedByte start h pid addr
  | .mapped p page content :: h, pid, addr =>
      if pid = p ∧ addr / 4096 = page then some (content (addr % 4096))
      else expectedByte start h pid addr
  | .forked parent child :: h, pid, addr =>
      expectedByte start h (if pid = child then parent else pid) addr

/-- Every task reads at every mapped user address what it should. -/
def ReadsExpected (start : Nat → Nat → Option UInt8) (s : Memory) : Prop :=
  ∀ pid addr b, addr < virtBase → readByte s pid addr = some b →
    expectedByte start s.history pid addr = some b

theorem readByte_view {s : Memory} {pid addr : Nat} (haddr : addr < virtBase) :
    readByte s pid addr =
      ((memView s).value (pid, addr / 4096)).map fun page => page (addr % 4096) := by
  rw [readByte, Sharing.value]
  cases ht : s.tasks pid with
  | none => simp [memView, ht]
  | some t =>
    rw [memView_cell ht haddr, cellOf, Option.bind_some]
    split <;> rfl

/-- The invariant of every run. -/
structure MemInv (start : Nat → Nat → Option UInt8) (s : Memory) : Prop where
  tables : TablesOk s
  isolated : (memView s).Isolated
  reads : ReadsExpected start s

section Steps

variable {start : Nat → Nat → Option UInt8} {s s' : Memory}

theorem MemInv.of_mapped (hs : MemInv start s) {p page : Nat} {content : Page}
    (h : Attached s s' p page content) (hhist : s'.history = .mapped p page content :: s.history) :
    MemInv start s' := by
  obtain ⟨f, w, hunused, hview⟩ := h.view
  refine ⟨h.ok, hview ▸ hs.isolated.attach hunused _ w content, fun q a b ha hread => ?_⟩
  rw [readByte_view ha, hview, Sharing.value_attach hunused] at hread
  rw [hhist, expectedByte]
  by_cases hc : q = p ∧ a / 4096 = page
  · rw [if_pos (Prod.mk.injEq .. ▸ hc)] at hread
    rw [if_pos hc]
    exact hread
  · rw [if_neg (Prod.mk.injEq .. ▸ hc), ← readByte_view ha] at hread
    rw [if_neg hc]
    exact hs.reads q a b ha hread

theorem MemInv.of_copied (hs : MemInv start s) {p page : Nat} {content : Page}
    (hvalue : (memView s).value (p, page) = some content) (h : Attached s s' p page content)
    (hhist : s'.history = s.history) : MemInv start s' := by
  obtain ⟨f, w, hunused, hview⟩ := h.view
  refine ⟨h.ok, hview ▸ hs.isolated.attach hunused _ w content, fun q a b ha hread => ?_⟩
  rw [readByte_view ha, hview, Sharing.value_attach hunused] at hread
  have hsame : (if (q, a / 4096) = (p, page) then some content
      else (memView s).value (q, a / 4096)) = (memView s).value (q, a / 4096) := by
    split
    next hc => rw [hc, hvalue]
    next => rfl
  rw [hsame, ← readByte_view ha] at hread
  rw [hhist]
  exact hs.reads q a b ha hread

/-- A byte written through a writable entry. -/
theorem MemInv.of_wrote (hs : MemInv start s) {p addr : Nat} {f : BitVec 32} {b : UInt8}
    (haddr : addr < virtBase) (hcell : (memView s).cell (p, addr / 4096) = some (f, true)) :
    MemInv start (record (pokeFrame s f (addr % 4096) b) (.wrote p addr b)) := by
  have hview : memView (record (pokeFrame s f (addr % 4096) b) (.wrote p addr b)) =
      (memView s).poke f (Function.update (s.frames f) (addr % 4096) b) := rfl
  have hsame : SameDirs s (record (pokeFrame s f (addr % 4096) b) (.wrote p addr b)) :=
    ⟨rfl, fun _ _ _ _ _ => rfl, fun _ ha => ha⟩
  refine ⟨hsame.tablesOk hs.tables, hview ▸ hs.isolated.poke f _, fun q a c ha hread => ?_⟩
  rw [readByte_view ha, hview, hs.isolated.value_poke hcell] at hread
  show expectedByte start (.wrote p addr b :: s.history) q a = some c
  rw [expectedByte]
  by_cases hc : (q, a / 4096) = (p, addr / 4096)
  · obtain ⟨rfl, hpage⟩ := Prod.mk.inj hc
    rw [if_pos hc, Option.map_some, Function.update_apply] at hread
    by_cases hoff : a % 4096 = addr % 4096
    · have hsameaddr : a = addr := by omega
      rw [if_pos hoff] at hread
      rw [if_pos ⟨rfl, hsameaddr⟩]
      exact hread
    · rw [if_neg hoff] at hread
      have hne : a ≠ addr := fun heq => hoff (by rw [heq])
      rw [if_neg fun hc => hne hc.2]
      refine hs.reads q a c ha ?_
      rw [readByte_view ha, hpage, Sharing.value, hcell]
      exact hread
  · rw [if_neg hc, ← readByte_view ha] at hread
    have hne : ¬ (q = p ∧ a = addr) := by
      rintro ⟨rfl, rfl⟩
      exact hc rfl
    rw [if_neg hne]
    exact hs.reads q a c ha hread

/-! ### Faults -/

theorem pgRndDown_lt_virtBase {a : Nat} (h : a < virtBase) : pgRndDown a < virtBase :=
  lt_of_le_of_lt (pgRndDown_le a) h

theorem loadPage_inv (hs : MemInv start s) {p addr : Nat} {t : TaskMm} {vma : VmArea}
    (ht : s.tasks p = some t) (haddr : addr < virtBase)
    (h : loadPage A s p t vma addr = some s') : MemInv start s' ∧ s'.tasks = s.tasks := by
  obtain ⟨hatt, hhist⟩ := loadPage_attached hs.tables ht haddr h
  exact ⟨hs.of_mapped hatt hhist, hatt.tasks⟩

theorem handleMissing_inv (hs : MemInv start s) {p addr : Nat} {t : TaskMm}
    (ht : s.tasks p = some t) (haddr : addr < virtBase)
    (h : handleMissing A s p t addr = some s') : MemInv start s' ∧ s'.tasks = s.tasks := by
  unfold handleMissing at h
  obtain ⟨vma, -, h⟩ := Option.bind_eq_some_iff.mp h
  split at h
  · cases h
  · exact loadPage_inv hs ht (pgRndDown_lt_virtBase haddr) h

theorem vmaTryPrefault_inv {p : Nat} {t : TaskMm} {n base : Nat} (hs : MemInv start s)
    (ht : s.tasks p = some t) (h : vmaTryPrefault A p t base n s = some s') :
    MemInv start s' := by
  induction n generalizing base s with
  | zero => exact Option.some.inj h ▸ hs
  | succ n ih =>
    unfold vmaTryPrefault at h
    split at h
    · cases h
    next hbase =>
      split at h
      · split at h
        next vma _ =>
          obtain ⟨s₁, hload, h⟩ := Option.bind_eq_some_iff.mp h
          obtain ⟨hs₁, htasks⟩ := loadPage_inv hs ht (not_le.mp hbase) hload
          exact ih hs₁ (htasks ▸ ht) h
        next => exact ih hs ht h
      · exact ih hs ht h

theorem doUserPagefault_inv (hs : MemInv start s) {p cr2 : Nat} {t : TaskMm}
    {page : Option (BitVec 32 × Nat)} (ht : s.tasks p = some t) (haddr : cr2 < virtBase)
    (h : doUserPagefault A s p t page cr2 = some s') : MemInv start s' ∧ s'.tasks = s.tasks := by
  unfold doUserPagefault at h
  split at h
  · cases h
  split at h
  · exact handleMissing_inv hs ht haddr h
  · cases h

theorem doKernelPagefault_inv (hs : MemInv start s) {p cr2 : Nat} {t : TaskMm}
    {page : Option (BitVec 32 × Nat)} (ht : s.tasks p = some t) (haddr : cr2 < virtBase)
    (h : doKernelPagefault A s p t page cr2 = some s') :
    MemInv start s' ∧ s'.tasks = s.tasks := by
  unfold doKernelPagefault at h
  split at h
  · exact handleMissing_inv hs ht haddr h
  · cases h

theorem handlePagefault_inv (hs : MemInv start s) {p cr2 : Nat} {t : TaskMm} {mode : Mode}
    {write : Bool} (ht : s.tasks p = some t) (haddr : cr2 < virtBase)
    (h : handlePagefault A s p t mode write cr2 = some s') :
    MemInv start s' ∧ s'.tasks = s.tasks := by
  unfold handlePagefault at h
  dsimp only at h
  split at h
  next =>
    obtain ⟨content, hvalue, hatt, hhist⟩ :=
      doCow_attached hs.tables ht (pgRndDown_lt_virtBase haddr) h
    exact ⟨hs.of_copied hvalue hatt hhist, hatt.tasks⟩
  next =>
    cases mode with
    | user => exact doUserPagefault_inv hs ht haddr h
    | kernel goesOn =>
      obtain ⟨s₁, hkernel, h⟩ := Option.bind_eq_some_iff.mp h
      obtain ⟨hs₁, htasks⟩ := doKernelPagefault_inv hs ht haddr hkernel
      split at h
      · obtain ⟨hs₂, htasks₂⟩ := doUserPagefault_inv hs₁ (htasks ▸ ht) haddr h
        exact ⟨hs₂, htasks₂.trans htasks⟩
      · exact Option.some.inj h ▸ ⟨hs₁, htasks⟩

/-- A store the processor lets through goes to a writable cell. -/
theorem walk_cell {p addr : Nat} {t : TaskMm} {mode : Mode} {f : BitVec 32}
    (ht : s.tasks p = some t) (haddr : addr < virtBase)
    (h : walk s t.mm mode true addr = some f) :
    (memView s).cell (p, addr / 4096) = some (f, true) := by
  unfold walk at h
  dsimp only at h
  split at h
  next hallow =>
    simp only [entryAllows, Bool.not_true, Bool.false_or, Bool.and_eq_true] at hallow
    obtain ⟨⟨⟨hdir, -⟩, -⟩, ⟨hpresent, hwrite⟩, -⟩ := hallow
    have hpde : s.heap t.mm (pdeIndex addr) ≠ 0 := by
      intro hzero
      rw [hzero] at hdir
      exact absurd hdir (by decide)
    rw [memView_cell ht haddr, entryAt, if_neg hpde, cellOf, if_pos hpresent, hwrite]
    exact congrArg (fun g => some (g, true)) (Option.some.inj h)
  next => cases h

theorem access_inv (hs : MemInv start s) {p addr : Nat} {mode : Mode} {store : Option UInt8}
    {done : Bool} (h : access A s p mode store addr = some (s', done)) :
    MemInv start s' ∧ s'.tasks = s.tasks := by
  unfold access at h
  obtain ⟨t, ht, h⟩ := Option.bind_eq_some_iff.mp h
  split at h
  · cases h
  next haddr =>
    rw [not_le] at haddr
    split at h
    next f hwalk =>
      cases store with
      | some b =>
        obtain ⟨rfl, -⟩ := Prod.mk.inj (Option.some.inj h)
        exact ⟨hs.of_wrote haddr (walk_cell ht haddr hwalk), rfl⟩
      | none =>
        obtain ⟨rfl, -⟩ := Prod.mk.inj (Option.some.inj h)
        exact ⟨hs, rfl⟩
    next =>
      obtain ⟨s₁, hfault, heq⟩ := Option.map_eq_some_iff.mp h
      obtain ⟨rfl, -⟩ := Prod.mk.inj heq
      exact handlePagefault_inv hs ht haddr hfault

/-! ### sbrk -/

theorem kernelStore_inv (hs : MemInv start s) {p addr : Nat} {goesOn : Bool} {b : UInt8}
    (h : kernelStore A s p goesOn b addr = some s') : MemInv start s' := by
  unfold kernelStore at h
  obtain ⟨⟨s₁, done⟩, h₁, h⟩ := Option.bind_eq_some_iff.mp h
  have hs₁ := (access_inv hs h₁).1
  split at h
  · exact Option.some.inj h ▸ hs₁
  · obtain ⟨⟨s₂, done₂⟩, h₂, h⟩ := Option.bind_eq_some_iff.mp h
    have hs₂ := (access_inv hs₁ h₂).1
    split at h
    · exact Option.some.inj h ▸ hs₂
    · cases h

theorem memsetUser_inv {p addr n : Nat} {goesOn : Bool} (hs : MemInv start s)
    (h : memsetUser A p goesOn addr n s = some s') : MemInv start s' := by
  induction n generalizing addr s with
  | zero => exact Option.some.inj h ▸ hs
  | succ n ih =>
    unfold memsetUser at h
    obtain ⟨s₁, hstore, h⟩ := Option.bind_eq_some_iff.mp h
    exact ih (kernelStore_inv hs hstore) h

theorem setTask_tasks (s : Memory) (p q : Nat) (t : TaskMm) :
    (setTask s p t).tasks q = if q = p then some t else s.tasks q := by
  simp only [setTask, Function.update_apply]

theorem entryAt_setTask (s : Memory) (p : Nat) (t : TaskMm) (pgd : BitVec 32) (addr : Nat) :
    entryAt (setTask s p t) pgd addr = entryAt s pgd addr := rfl

/-- Moving the break changes no mapping. -/
theorem setTask_brk_inv (hs : MemInv start s) {p : Nat} {t t' : TaskMm}
    (ht : s.tasks p = some t) (hmm : t'.mm = t.mm) : MemInv start (setTask s p t') := by
  have hpage : pageOf (setTask s p t') = pageOf s := by
    ext1 ⟨q, o⟩
    by_cases hq : q = p
    · subst hq
      cases o with
      | none => simp only [pageOf, setTask_tasks, ht, if_true, Option.map_some, hmm]
      | some i =>
        simp only [pageOf, setTask_tasks, ht, if_true, Option.bind_some, hmm]
        rfl
    · cases o with
      | none => simp only [pageOf, setTask_tasks, if_neg hq]
      | some i =>
        simp only [pageOf, setTask_tasks, if_neg hq]
        rfl
  have hcell : (memView (setTask s p t')).cell = (memView s).cell := by
    ext1 ⟨q, v⟩
    simp only [memView, setTask_tasks, entryAt_setTask]
    by_cases hq : q = p
    · subst hq
      simp only [if_true, ht, Option.bind_some, hmm]
    · simp only [if_neg hq]
  have hview : memView (setTask s p t') = memView s := by
    calc memView (setTask s p t') = ⟨(memView (setTask s p t')).cell, s.frames⟩ := rfl
      _ = memView s := by rw [hcell]; rfl
  refine ⟨⟨?_, ?_, ?_⟩, hview ▸ hs.isolated, fun q a b ha hread => ?_⟩
  · exact fun o a ha => hs.tables.used o a (hpage ▸ ha)
  · exact fun o o' a ha ha' => hs.tables.distinct o o' a (hpage ▸ ha) (hpage ▸ ha')
  · intro q u i hu hi hne
    rw [setTask_tasks] at hu
    split at hu
    next hq =>
      obtain rfl := Option.some.inj hu
      rw [hmm] at hne ⊢
      exact hs.tables.addr p t i ht hi hne
    next => exact hs.tables.addr q u i hu hi hne
  · rw [readByte_view ha, hview, ← readByte_view ha] at hread
    exact hs.reads q a b ha hread

/-- A page of `sys_sbrk` comes with whatever its frame held. -/
theorem mapPage_mapped_inv (hs : MemInv start s) {p addr : Nat} {t : TaskMm} {phys : BitVec 32}
    (ht : s.tasks p = some t) (haddr : addr < virtBase) (hphys : A.palloc s = some phys)
    (h : mapPage A s t.mm phys addr 1 = some s') :
    MemInv start (record s' (.mapped p (addr / 4096) (s'.frames phys))) ∧
      s'.tasks = s.tasks := by
  have hset := mapPage_entrySet hs.tables ht haddr h
  have hview : memView s' =
      (memView s).attach (p, addr / 4096) phys true (s'.frames phys) := by
    rw [hset.view ht haddr, cellOf_createPte (A.palloc_aligned s phys hphys), hset.frames,
      Sharing.attach]
    congr 1
    exact (Function.update_eq_self phys s.frames).symm
  refine ⟨hs.of_mapped ⟨tablesOk_record hset.ok _, hset.tasks, phys, true, ?_, hview⟩ ?_,
    hset.tasks⟩
  · exact unused_of_frameFree (A.palloc_free s phys hphys)
  · exact congrArg _ hset.history

theorem growBrk_inv {p n : Nat} (hs : MemInv start s) (h : growBrk A p n s = some s') :
    MemInv start s' := by
  induction n generalizing s with
  | zero => exact Option.some.inj h ▸ hs
  | succ n ih =>
    unfold growBrk at h
    obtain ⟨t, ht, h⟩ := Option.bind_eq_some_iff.mp h
    split at h
    · cases h
    next haddr =>
      obtain ⟨phys, hphys, h⟩ := Option.bind_eq_some_iff.mp h
      obtain ⟨s₁, hmap, h⟩ := Option.bind_eq_some_iff.mp h
      obtain ⟨hs₁, htasks⟩ := mapPage_mapped_inv hs ht (not_le.mp haddr) hphys hmap
      have ht₁ : s₁.tasks p = some t := (congrFun htasks p).trans ht
      refine ih (setTask_brk_inv hs₁ ht₁ ?_) h
      rfl

theorem sysSbrk_inv (hs : MemInv start s) {p : Nat} {goesOn : Bool} {incr : Int}
    (h : sysSbrk A s p goesOn incr = some s') : MemInv start s' := by
  unfold sysSbrk at h
  obtain ⟨t, ht, h⟩ := Option.bind_eq_some_iff.mp h
  split at h
  · exact Option.some.inj h ▸ hs
  split at h
  · cases h
  split at h
  · rw [← Option.some.inj h]
    exact setTask_brk_inv hs ht rfl
  dsimp only at h
  split at h
  · refine memsetUser_inv (setTask_brk_inv hs ht ?_) h
    rfl
  · obtain ⟨s₁, hgrow, h⟩ := Option.bind_eq_some_iff.mp h
    refine memsetUser_inv (growBrk_inv (setTask_brk_inv hs ht ?_) hgrow) h
    rfl

end Steps

/-! ## fork -/

/-- Where the pages of a task come from in a fork. -/
def forkSrc (parent child : Nat) (c : Nat × Nat) : Nat × Nat :=
  if c.1 = child then (parent, c.2) else c

/-- The pages that lose write access in a fork. -/
def forkDown (parent child : Nat) (c : Nat × Nat) : Bool := c.1 = parent ∨ c.1 = child

/-- A fork shares the parent's frames. -/
theorem Forked.view {s s' : Memory} {p c : Nat} {t t' : TaskMm} (h : Forked s s' p c t t')
    (ht : s.tasks p = some t) (hc : s.tasks c = none) :
    memView s' = (memView s).share (forkSrc p c) (forkDown p c) := by
  have hpc : p ≠ c := by
    rintro rfl
    rw [ht] at hc
    cases hc
  have hcell : (memView s').cell = ((memView s).share (forkSrc p c) (forkDown p c)).cell := by
    ext1 ⟨q, v⟩
    simp only [Sharing.share]
    by_cases hv : 4096 * v < virtBase
    · have hpage : 4096 * v / 4096 = v := by omega
      have hboth : ∀ m, m = t.mm ∨ m = t'.mm → cellOf (entryAt s' m (4096 * v)) =
          ((memView s).cell (p, v)).map fun e => (e.1, false) := by
        intro m hm
        rw [h.both _ hv m hm, ← memView_cell ht hv, hpage]
      by_cases hq : q = c
      · have ht' : s'.tasks q = some t' := by rw [h.tasks, hq, Function.update_self]
        have hleft := memView_cell ht' hv
        rw [hpage] at hleft
        rw [hleft, hboth t'.mm (.inr rfl)]
        simp [forkSrc, forkDown, hq]
      · have hold : s'.tasks q = s.tasks q := by rw [h.tasks, Function.update_of_ne hq]
        have hsrc : forkSrc p c (q, v) = (q, v) := if_neg hq
        rw [hsrc]
        cases hu : s.tasks q with
        | none => simp [memView, hold, hu]
        | some u =>
          have hleft := memView_cell (hold.trans hu) hv
          rw [hpage] at hleft
          rw [hleft]
          by_cases hqp : q = p
          · subst hqp
            obtain rfl := Option.some.inj (ht.symm.trans hu)
            rw [hboth t.mm (.inl rfl)]
            simp [forkDown]
          · have hright := memView_cell hu hv
            rw [hpage] at hright
            rw [h.other q u _ hu hqp hv, hright]
            simp [forkDown, hqp, hq]
    · have hnone : ∀ r, (memView s).cell (r, v) = none := fun r => if_neg hv
      have hsrc : ∃ r, forkSrc p c (q, v) = (r, v) := by
        rw [forkSrc]
        split
        · exact ⟨p, rfl⟩
        · exact ⟨q, rfl⟩
      obtain ⟨r, hr⟩ := hsrc
      rw [hr, hnone]
      exact if_neg hv
  have hframe : s'.frames = s.frames := h.frames
  calc memView s' = ⟨(memView s').cell, s'.frames⟩ := rfl
    _ = (memView s).share (forkSrc p c) (forkDown p c) := by rw [hcell, hframe]; rfl

/-- Two pages with the same source both lose write access. -/
theorem forkSrc_inj {p c : Nat} (x y : Nat × Nat) (h : forkSrc p c x = forkSrc p c y)
    (hdown : forkDown p c x = false) : x = y := by
  simp only [forkDown, decide_eq_false_iff_not, not_or] at hdown
  rw [forkSrc, forkSrc, if_neg hdown.2] at h
  split at h
  · exact absurd (congrArg Prod.fst h) hdown.1
  · exact h

theorem fork_inv {start : Nat → Nat → Option UInt8} {s s' : Memory} (hs : MemInv start s)
    {p c : Nat} (h : createUserTaskFork A s p c = some s') : MemInv start s' := by
  obtain ⟨t, t', ht, hc, hf⟩ := createUserTaskFork_forked hs.tables h
  have hview := hf.view ht hc
  refine ⟨hf.ok, hview ▸ hs.isolated.share forkSrc_inj, fun q a b ha hread => ?_⟩
  rw [readByte_view ha, hview, Sharing.value_share] at hread
  rw [hf.history, expectedByte]
  refine hs.reads _ a b ha ?_
  rw [readByte_view ha, ← hread, forkSrc]
  split <;> rfl

/-! ## Isolation -/

theorem memStep_inv {start : Nat → Nat → Option UInt8} {s s' : Memory} {op : MemOp}
    (hs : MemInv start s) (h : memStep A s op = some s') : MemInv start s' := by
  cases op with
  | access pid mode store addr =>
    obtain ⟨⟨s₁, done⟩, hacc, rfl⟩ := Option.map_eq_some_iff.mp h
    exact (access_inv hs hacc).1
  | prefault pid addr len =>
    obtain ⟨t, ht, h⟩ := Option.bind_eq_some_iff.mp h
    exact vmaTryPrefault_inv hs ht h
  | sbrk pid goesOn incr => exact sysSbrk_inv hs h
  | fork parent child => exact fork_inv hs h

/-- A frame that is mapped present and writable at a user page is mapped at no
other user page of any task. -/
def FramesIsolated (s : Memory) : Prop :=
  ∀ p q t u a b, s.tasks p = some t → s.tasks q = some u → a < virtBase → b < virtBase →
    ptePresent (entryAt s t.mm a) → pteWriteable (entryAt s t.mm a) →
    ptePresent (entryAt s u.mm b) → entryAddr (entryAt s t.mm a) = entryAddr (entryAt s u.mm b) →
    p = q ∧ a / 4096 = b / 4096

theorem framesIsolated_iff (s : Memory) : FramesIsolated s ↔ (memView s).Isolated := by
  constructor
  · rintro h ⟨p, v⟩ ⟨q, w⟩ f wr hc hd
    simp only [memView] at hc hd
    split at hc
    next hv =>
      split at hd
      next hw =>
        obtain ⟨t, ht, hc⟩ := Option.bind_eq_some_iff.mp hc
        obtain ⟨u, hu, hd⟩ := Option.bind_eq_some_iff.mp hd
        rw [cellOf] at hc hd
        split at hc
        next hpa =>
          split at hd
          next hpb =>
            obtain ⟨hfa, hwa⟩ := Prod.mk.inj (Option.some.inj hc)
            obtain ⟨hfb, -⟩ := Prod.mk.inj (Option.some.inj hd)
            obtain ⟨hpq, hpage⟩ :=
              h p q t u _ _ ht hu hv hw hpa hwa hpb (hfa.trans hfb.symm)
            rw [hpq, show v = w by omega]
          next => cases hd
        next => cases hc
      next => cases hd
    next => cases hc
  · intro h p q t u a b ht hu ha hb hpa hwa hpb heq
    have hc : (memView s).cell (p, a / 4096) = some (entryAddr (entryAt s t.mm a), true) := by
      rw [memView_cell ht ha, cellOf, if_pos hpa, hwa]
    have hd : (memView s).cell (q, b / 4096) =
        some (entryAddr (entryAt s t.mm a), pteWriteable (entryAt s u.mm b)) := by
      rw [memView_cell hu hb, cellOf, if_pos hpb, heq]
    exact Prod.mk.inj (h _ _ _ _ hc hd)

/-- A state a run may start from: the tables are in order, no writable frame is
shared, and nothing is recorded yet. -/
structure MemStart (s : Memory) : Prop where
  tables : TablesOk s
  isolated : FramesIsolated s
  history : s.history = []

/-- A task with one writable page, the last one of its stack. -/
def oneTask : Memory where
  heap a i :=
    if a = 0xC0401000 ∧ i = 767 then createPde (kv2p 0xC0402000) 1 1
    else if a = 0xC0402000 ∧ i = 1023 then createPte 0x1000000 1 1 else 0
  heapUsed := [0xC0401000, 0xC0402000]
  frames _ _ := 7
  tasks p := if p = 1 then some ⟨0xC0401000, [stackVma], 0x8050000, 0x8050000⟩ else none
  history := []

open Classical in
/-- Allocators that take the first free page of a few. -/
noncomputable def firstFit : Allocators where
  palloc s := if FrameFree s 0x1001000 then some 0x1001000 else none
  naMalloc s := [0xC0403000, 0xC0404000].find? fun t => t ∉ s.heapUsed
  palloc_aligned s f h := by
    split at h
    · obtain rfl := Option.some.inj h
      decide
    · cases h
  palloc_low s f h := by
    split at h
    · obtain rfl := Option.some.inj h
      decide
    · cases h
  palloc_free s f h := by
    split at h
    next hfree => exact Option.some.inj h ▸ hfree
    next => cases h
  naMalloc_aligned s t h := by
    rcases List.mem_cons.mp (List.mem_of_find?_eq_some h) with rfl | hmem
    · decide
    · rw [List.mem_singleton.mp hmem]
      decide
  naMalloc_window s t h := by
    rcases List.mem_cons.mp (List.mem_of_find?_eq_some h) with rfl | hmem
    · decide
    · rw [List.mem_singleton.mp hmem]
      decide
  naMalloc_unused s t h := by simpa using List.find?_some h

theorem oneTask_pageOf {o : Nat × Option Nat} {a : BitVec 32} (h : pageOf oneTask o = some a) :
    (o = (1, none) ∧ a = 0xC0401000) ∨ (o = (1, some 767) ∧ a = 0xC0402000) := by
  obtain ⟨p, o⟩ := o
  by_cases hp : p = 1
  · subst hp
    cases o with
    | none => exact .inl ⟨rfl, (Option.some.inj h).symm⟩
    | some i =>
      simp only [pageOf, oneTask, if_true, Option.bind_some] at h
      by_cases hi : i = 767
      · subst hi
        exact .inr ⟨rfl, (Option.some.inj h).symm⟩
      · simp [hi] at h
  · cases o <;> simp [pageOf, oneTask, hp] at h

theorem oneTask_task {p : Nat} {t : TaskMm} (h : oneTask.tasks p = some t) :
    p = 1 ∧ t.mm = 0xC0401000 := by
  simp only [oneTask] at h
  split at h
  next hp => exact ⟨hp, (Option.some.inj h) ▸ rfl⟩
  next => cases h

theorem oneTask_entryAt {addr : Nat} (h : ptePresent (entryAt oneTask 0xC0401000 addr)) :
    pdeIndex addr = 767 ∧ pteIndex addr = 1023 := by
  by_cases hpde : pdeIndex addr = 767
  · by_cases hpte : pteIndex addr = 1023
    · exact ⟨hpde, hpte⟩
    · rw [entryAt, hpde] at h
      have htable : tableOf (oneTask.heap 0xC0401000 767) = 0xC0402000 := by decide
      rw [if_neg (by decide), htable] at h
      simp [oneTask, hpte, ptePresent] at h
  · rw [entryAt] at h
    simp [oneTask, hpde, ptePresent] at h

theorem oneTask_start : MemStart oneTask := by
  refine ⟨⟨?_, ?_, ?_⟩, ?_, rfl⟩
  · intro o a h
    rcases oneTask_pageOf h with ⟨-, rfl⟩ | ⟨-, rfl⟩
    · exact List.mem_cons_self
    · exact List.mem_cons_of_mem _ List.mem_cons_self
  · intro o o' a h h'
    rcases oneTask_pageOf h with ⟨rfl, rfl⟩ | ⟨rfl, rfl⟩
    · rcases oneTask_pageOf h' with ⟨rfl, -⟩ | ⟨-, hne⟩
      · rfl
      · exact absurd hne (by decide)
    · rcases oneTask_pageOf h' with ⟨-, hne⟩ | ⟨rfl, -⟩
      · exact absurd hne (by decide)
      · rfl
  · intro p t i ht _ hne
    rw [(oneTask_task ht).2] at hne ⊢
    by_cases hi : i = 767
    · subst hi
      decide
    · simp [oneTask, hi] at hne
  · intro p q t u a b ht hu _ _ hpa _ hpb _
    obtain ⟨rfl, hmm⟩ := oneTask_task ht
    obtain ⟨rfl, hmm'⟩ := oneTask_task hu
    rw [hmm] at hpa
    rw [hmm'] at hpb
    obtain ⟨hpde, hpte⟩ := oneTask_entryAt hpa
    obtain ⟨hpde', hpte'⟩ := oneTask_entryAt hpb
    exact ⟨rfl, page_eq_of_index (hpde.trans hpde'.symm) (hpte.trans hpte'.symm)⟩

end Levos.Mm
