import Levos.Fs.Ext2.Layout

/-!
# Adding a block to a file

What `allocate_inode_block` does to a file that can be written to: exactly one
logical block is mapped anew, to a block that nothing used, with an indirect
block on the way if there was none.
-/

namespace Levos.Fs

open Levos.Base Levos.Kernel

variable {A : BlockAllocator} {P : InodePlace} {n ino : Nat} {fs fs' : Ext2Fs}

/-! ## The filesystem around the file -/

theorem FsOk.mono (h : FsOk A P (n + 1) fs ino) : FsOk A P n fs ino :=
  { h with room := A.room_mono h.room }

theorem FsOk.writable_inode (h : FsOk A P n fs ino) : Writable A P P.block :=
  ⟨P.block_pos, P.block_lt, h.metaInode, P.table_ne⟩

/-- Writing one block, which is no metadata. -/
theorem FsOk.write (h : FsOk A P n fs ino) {x : Nat} (hx : Writable A P x) {d : Nat → UInt8}
    (hd : ∀ a, a / P.bs ≠ x → d a = fs.disk a) :
    FsOk A P n (setDisk fs d) ino ∧ ∀ y, A.used fs y → A.used (setDisk fs d) y := by
  have hbs := P.bs_ge
  obtain ⟨hroom, hused⟩ := A.frame h.room fun a ha => hd a (hx.notMeta a ha)
  refine ⟨{ h with
    inodeAt := h.inodeAt.congr ⟨rfl, rfl, rfl, rfl, rfl, rfl⟩ fun j hj => hd _ (hx.notTable j hj)
    room := hroom
    boot := fun a ha => ?_
    metaUsed := fun a ha => hused _ (h.metaUsed a ha)
    tableUsed := fun j hj => hused _ (h.tableUsed j hj)
    inodeUsed := hused _ h.inodeUsed }, hused⟩
  rw [← h.boot a ha]
  apply hd
  rw [Nat.div_eq_of_lt (by omega)]
  exact hx.pos.ne

/-- A new block is a data block from then on. -/
theorem FsOk.fresh_data (h : FsOk A P n fs ino) {r : Nat}
    (hr : FreshBlock A.metadata A.used fs fs' r) : DataBlock A P fs' r := by
  have hne : ∀ x, A.used fs x → x ≠ r := fun x hx heq => hr.unused (heq ▸ hx)
  refine ⟨⟨hr.pos, ?_, ?_, ?_⟩, ?_, hr.taken⟩
  · rw [← h.inodeAt.sectors]
    exact hr.lt
  · exact fun a ha => hne _ (h.metaUsed a ha)
  · exact fun j hj => hne _ (h.tableUsed j hj)
  · exact (hne _ h.inodeUsed).symm

/-- A call of the allocator. -/
theorem FsOk.alloc (h : FsOk A P (n + 1) fs ino) :
    ∃ r fs', allocBlockNo A.alloc fs = (r, fs') ∧ FreshBlock A.metadata A.used fs fs' r ∧
      FsOk A P n fs' ino ∧ ∀ x, Writable A P x → SameBlock P.bs fs.disk fs'.disk x := by
  obtain ⟨r, heq, hr, hroom⟩ := A.alloc_fresh h.room
  have hspb := P.two_le_spb
  have hlt : r < 2 ^ 32 := by
    have hmul := hr.lt
    rw [h.inodeAt.sectors] at hmul
    calc r ≤ r * P.spb := Nat.le_mul_of_pos_right _ (by omega)
      _ < 2 ^ 32 := hmul
  have htable : ∀ j < 4, (A.alloc fs).2.disk (P.table + j) = fs.disk (P.table + j) := by
    rw [← h.inodeAt.table]
    exact hr.tables ino (h.inodeAt.blocksize ▸ h.inodeAt.group)
  refine ⟨r, _, ?_, hr, ?_, fun x hx a ha => ?_⟩
  · rw [allocBlockNo, heq]
    congr 1
    omega
  · exact { h with
      inodeAt := h.inodeAt.congr hr.geometry htable
      room := hroom
      boot := fun a ha => by
        rw [hr.disk a fun hmem => absurd (h.metaBoot a hmem) (by omega)]
        exact h.boot a ha
      metaUsed := fun a ha => hr.keeps _ (h.metaUsed a ha)
      tableUsed := fun j hj => hr.keeps _ (h.tableUsed j hj)
      inodeUsed := hr.keeps _ h.inodeUsed }
  · exact hr.disk a fun hmem => hx.notMeta a hmem ha

theorem DataBlock.keeps {x : Nat} (h : DataBlock A P fs x)
    (hused : ∀ y, A.used fs y → A.used fs' y) : DataBlock A P fs' x :=
  ⟨h.writable, h.notInode, hused x h.used⟩

/-! ## Steps towards a new block -/

/-- A block number is kept or, where there was none, one that nothing used. -/
def KeptOrNew (A : BlockAllocator) (fs : Ext2Fs) (x x' : Nat) : Prop :=
  x' = x ∨ x = 0 ∧ ¬ A.used fs x'

theorem KeptOrNew.eq {x x' : Nat} (h : KeptOrNew A fs x x') (h0 : x ≠ 0) : x' = x :=
  h.resolve_right fun hnew => h0 hnew.1

theorem KeptOrNew.trans {x x' x'' : Nat} (h : KeptOrNew A fs x x') (h' : KeptOrNew A fs' x' x'')
    (hused : ∀ y, A.used fs y → A.used fs' y) : KeptOrNew A fs x x'' := by
  rcases h' with rfl | ⟨rfl, hnew⟩
  · exact h
  · refine .inr ⟨?_, fun hx => hnew (hused _ hx)⟩
    rcases h with heq | ⟨hzero, -⟩
    · exact heq.symm
    · exact hzero

/-- What the steps that map block `b` to `r` leave alone: the other near
blocks, the size, the doubly indirect block, and all bytes outside the
allocation metadata, the inode, the indirect block and `r`. -/
structure Grows (A : BlockAllocator) (P : InodePlace) (b r : Nat) (fs fs' : Ext2Fs) : Prop where
  used : ∀ x, A.used fs x → A.used fs' x
  size : P.size fs'.disk = P.size fs.disk
  doubly : P.doubly fs'.disk = P.doubly fs.disk
  sectors : P.sectors fs.disk ≤ P.sectors fs'.disk
  singly : KeptOrNew A fs (P.singly fs.disk) (P.singly fs'.disk)
  ptr : ∀ c < P.near, c ≠ b → P.ptr fs'.disk c = P.ptr fs.disk c
  frame : ∀ a, a ∉ A.metadata → a / P.bs ≠ P.block → a / P.bs ≠ r →
    (P.singly fs'.disk ≠ 0 → a / P.bs ≠ P.singly fs'.disk) → fs'.disk a = fs.disk a

variable {b r : Nat}

theorem Grows.trans {fs'' : Ext2Fs} (h : Grows A P b r fs fs') (h' : Grows A P b r fs' fs'') :
    Grows A P b r fs fs'' := by
  refine ⟨fun x hx => h'.used x (h.used x hx), h'.size.trans h.size, h'.doubly.trans h.doubly,
    h.sectors.trans h'.sectors, h.singly.trans h'.singly h.used,
    fun c hc hne => (h'.ptr c hc hne).trans (h.ptr c hc hne), ?_⟩
  intro a hmeta hinode hr hs
  rw [h'.frame a hmeta hinode hr hs]
  refine h.frame a hmeta hinode hr fun hne => ?_
  have heq := h'.singly.eq hne
  rw [← heq] at hne ⊢
  exact hs hne

/-- Steps that change neither the inode nor the indirect block. -/
theorem Grows.of_same (hused : ∀ x, A.used fs x → A.used fs' x)
    (hinode : SameBlock P.bs fs.disk fs'.disk P.block)
    (hsingly : P.singly fs.disk ≠ 0 → SameBlock P.bs fs.disk fs'.disk (P.singly fs.disk))
    (hframe : ∀ a, a ∉ A.metadata → a / P.bs ≠ r → fs'.disk a = fs.disk a) :
    Grows A P b r fs fs' where
  used := hused
  size := InodePlace.field_same hinode (by decide)
  doubly := InodePlace.field_same hinode (by decide)
  sectors := (InodePlace.field_same hinode (by decide)).ge
  singly := .inl (InodePlace.field_same hinode (by decide))
  ptr := fun _ hc _ => InodePlace.ptr_near_same hinode hsingly hc
  frame := fun a hmeta _ hr _ => hframe a hmeta hr

/-- The indirect block, if there is one, is a data block other than `r`. -/
def SinglyOk (A : BlockAllocator) (P : InodePlace) (r : Nat) (fs : Ext2Fs) : Prop :=
  P.singly fs.disk ≠ 0 → DataBlock A P fs (P.singly fs.disk) ∧ P.singly fs.disk ≠ r

theorem grows_alloc (h : FsOk A P n fs ino) (hs : SinglyOk A P r fs) {x : Nat}
    (hx : FreshBlock A.metadata A.used fs fs' x)
    (hsame : ∀ y, Writable A P y → SameBlock P.bs fs.disk fs'.disk y) : Grows A P b r fs fs' :=
  .of_same hx.keeps (hsame _ h.writable_inode) (fun hne => hsame _ (hs hne).1.writable)
    fun a hmeta _ => hx.disk a hmeta

/-- Writing to `r` itself. -/
theorem grows_data (h : FsOk A P n fs ino) (hs : SinglyOk A P r fs) (hr : DataBlock A P fs r)
    (buf : Nat → UInt8) :
    FsOk A P n (setDisk fs (setBlock fs.disk P.bs r buf)) ino ∧
      Grows A P b r fs (setDisk fs (setBlock fs.disk P.bs r buf)) := by
  obtain ⟨hfs, hused⟩ := h.write hr.writable fun a ha => setBlock_of_ne ha
  refine ⟨hfs, .of_same hused (SameBlock.setBlock hr.notInode.symm) ?_ ?_⟩
  · exact fun hne => SameBlock.setBlock (hs hne).2
  · exact fun a _ ha => setBlock_of_ne ha

/-! ## The inode and the indirect block -/

theorem put32_field_of_ne {d : Nat → UInt8} {f v a : Nat} (hf : f + 4 ≤ 128)
    (ha : a / P.bs ≠ P.block) : put32 d (P.addr + f) v a = d a :=
  InodePlace.sameBlock_put32_field hf ha a rfl

theorem FsOk.setField (h : FsOk A P n fs ino) {f : Nat} (hf : f + 4 ≤ 128) (v : Nat) :
    FsOk A P n (setDisk fs (put32 fs.disk (P.addr + f) v)) ino ∧
      ∀ x, A.used fs x → A.used (setDisk fs (put32 fs.disk (P.addr + f) v)) x :=
  h.write h.writable_inode fun _ ha => put32_field_of_ne hf ha

/-- A field between the size and the indirect block: `disk_sectors` or one of
the direct blocks. -/
theorem grows_field (h : FsOk A P n fs ino) (hs : SinglyOk A P r fs) {f v : Nat}
    (hsize : inoSize + 4 ≤ f) (hf : f + 4 ≤ inoSinglyBlock)
    (hsec : P.sectors fs.disk ≤ P.sectors (put32 fs.disk (P.addr + f) v))
    (hptr : ∀ c < 12, c ≠ b → f + 4 ≤ inoDbp + 4 * c ∨ inoDbp + 4 * c + 4 ≤ f) :
    FsOk A P n (setDisk fs (put32 fs.disk (P.addr + f) v)) ino ∧
      Grows A P b r fs (setDisk fs (put32 fs.disk (P.addr + f) v)) := by
  rw [inoSinglyBlock] at hf
  obtain ⟨hfs, hused⟩ := h.setField (f := f) (by omega) v
  have hsingly : P.singly (put32 fs.disk (P.addr + f) v) = P.singly fs.disk :=
    P.field_put32_of_ne _ (by rw [inoSinglyBlock]; omega)
  refine ⟨hfs, hused, ?_, ?_, hsec, .inl hsingly, ?_, ?_⟩
  · exact P.field_put32_of_ne _ (.inr hsize)
  · exact P.field_put32_of_ne _ (by rw [inoDoublyBlock]; omega)
  · intro c hc hne
    by_cases h12 : c < 12
    · rw [InodePlace.ptr_direct h12, InodePlace.ptr_direct h12]
      exact P.field_put32_of_ne _ (hptr c h12 hne)
    · rw [InodePlace.ptr_singly (by omega) hc, InodePlace.ptr_singly (by omega) hc]
      show P.follow _ (P.singly (put32 fs.disk (P.addr + f) v)) _ = _
      rw [hsingly]
      rw [InodePlace.near] at hc
      refine InodePlace.follow_same (fun hs0 => ?_) (by omega)
      exact InodePlace.sameBlock_put32_field (by omega) (hs hs0).1.notInode
  · intro a _ hinode _ _
    exact put32_field_of_ne (by omega) hinode

/-- Entry `b - 12` of the indirect block. -/
theorem grows_entry (h : FsOk A P n fs ino) (hs : SinglyOk A P r fs) (hs0 : P.singly fs.disk ≠ 0)
    (hb : 12 ≤ b) (hnear : b < P.near) {d : Nat → UInt8}
    (hd : d = put32 fs.disk (P.bs * P.singly fs.disk + 4 * (b - 12)) r) :
    FsOk A P n (setDisk fs d) ino ∧ Grows A P b r fs (setDisk fs d) := by
  rw [InodePlace.near, InodePlace.ppb] at hnear
  have hfit : 4 * (b - 12) + 4 ≤ P.bs := by omega
  have hout : ∀ a, a / P.bs ≠ P.singly fs.disk → d a = fs.disk a := fun a ha => by
    rw [hd, put32_of_block_ne hfit ha]
  have hinode : SameBlock P.bs fs.disk d P.block := fun a ha =>
    hout a (ha ▸ (hs hs0).1.notInode.symm)
  have hsingly : P.singly d = P.singly fs.disk := InodePlace.field_same hinode (by decide)
  obtain ⟨hfs, hused⟩ := h.write (hs hs0).1.writable hout
  refine ⟨hfs, hused, ?_, ?_, ?_, .inl hsingly, ?_, ?_⟩
  · exact InodePlace.field_same hinode (by decide)
  · exact InodePlace.field_same hinode (by decide)
  · exact (InodePlace.field_same hinode (by decide)).ge
  · intro c hc hne
    show P.ptr d c = _
    by_cases h12 : c < 12
    · rw [InodePlace.ptr_direct h12, InodePlace.ptr_direct h12]
      exact InodePlace.field_same hinode (by rw [inoDbp]; omega)
    · rw [InodePlace.ptr_singly (by omega) hc, InodePlace.ptr_singly (by omega) hc, hsingly,
        InodePlace.follow, InodePlace.follow, if_neg hs0, if_neg hs0, hd]
      exact le32_put32_of_ne (by omega)
  · intro a _ _ _ hsa
    refine hout a ?_
    rw [← hsingly]
    exact hsa (hsingly ▸ hs0)

theorem ptr_entry {d d' : Nat → UInt8} (hs : P.singly d' = P.singly d) (hs0 : P.singly d ≠ 0)
    (hb : 12 ≤ b) (hnear : b < P.near) (hr : r < 2 ^ 32)
    (hd : d' = put32 d (P.bs * P.singly d + 4 * (b - 12)) r) : P.ptr d' b = r := by
  rw [InodePlace.ptr_singly hb hnear, hs, InodePlace.follow, if_neg hs0, hd]
  exact le32_put32 _ _ hr

/-- The file with an indirect block of zeros instead of none. -/
theorem made_views {d d₁ d₂ : Nat → UInt8} {s : Nat} (hinode : SameBlock P.bs d d₁ P.block)
    (hs0 : P.singly d = 0) (hlt : s < 2 ^ 32) (hpos : s ≠ 0) (hne : s ≠ P.block)
    (hd : d₂ = setBlock (put32 d₁ (P.addr + inoSinglyBlock) s) P.bs s zeroBlock) :
    (∀ f, f + 4 ≤ 128 → (inoSinglyBlock + 4 ≤ f ∨ f + 4 ≤ inoSinglyBlock) →
      P.field d₂ f = P.field d f) ∧
      P.singly d₂ = s ∧ ∀ c < P.near, P.ptr d₂ c = P.ptr d c := by
  have hback : SameBlock P.bs (put32 d₁ (P.addr + inoSinglyBlock) s) d₂ P.block := by
    rw [hd]
    exact SameBlock.setBlock hne.symm
  have hfield : ∀ f, f + 4 ≤ 128 → (inoSinglyBlock + 4 ≤ f ∨ f + 4 ≤ inoSinglyBlock) →
      P.field d₂ f = P.field d f := fun f hf hdis => by
    rw [InodePlace.field_same hback hf, P.field_put32_of_ne _ hdis, InodePlace.field_same hinode hf]
  have hsingly : P.singly d₂ = s := by
    rw [InodePlace.singly, InodePlace.field_same hback (by decide), P.field_put32 _ _ hlt]
  refine ⟨hfield, hsingly, fun c hc => ?_⟩
  by_cases h12 : c < 12
  · rw [InodePlace.ptr_direct h12, InodePlace.ptr_direct h12]
    exact hfield _ (by rw [inoDbp]; omega) (by rw [inoDbp, inoSinglyBlock]; omega)
  · rw [InodePlace.ptr_singly (by omega) hc, InodePlace.ptr_singly (by omega) hc, hsingly, hs0,
      InodePlace.follow, InodePlace.follow, if_neg hpos, if_pos rfl, hd]
    rw [InodePlace.near, InodePlace.ppb] at hc
    have hzero : le32 zeroBlock (4 * (c - 12)) = 0 := rfl
    rw [← hzero]
    apply le32_congr
    intro k hk
    rw [Nat.add_assoc, setBlock_apply (by omega)]

/-- An indirect block of zeros is put into the inode. -/
theorem FsOk.putSingly (h : FsOk A P n fs ino) {inode : Nat → UInt8}
    (hsync : Synced P fs.disk inode) {s : Nat} (hs : DataBlock A P fs s) :
    ∃ fs', ext2WriteBlock (ext2WriteInode fs (put32 inode inoSinglyBlock s) ino) zeroBlock s = fs' ∧
      FsOk A P n fs' ino ∧ (∀ x, A.used fs x → A.used fs' x) ∧
      fs'.disk = setBlock (put32 fs.disk (P.addr + inoSinglyBlock) s) P.bs s zeroBlock := by
  obtain ⟨hfs₁, hused₁⟩ := h.setField (f := inoSinglyBlock) (by decide) s
  have hzero : ∀ a, a / P.bs ≠ s →
      setBlock (put32 fs.disk (P.addr + inoSinglyBlock) s) P.bs s zeroBlock a =
        put32 fs.disk (P.addr + inoSinglyBlock) s a := fun a ha => setBlock_of_ne ha
  obtain ⟨hfs₂, hused₂⟩ := hfs₁.write hs.writable hzero
  rw [h.inodeAt.writeInode_put32 hsync (by decide), hfs₁.inodeAt.writeBlock_eq hs.writable.lt]
  exact ⟨_, rfl, hfs₂, fun x hx => hused₂ x (hused₁ x hx), rfl⟩

theorem Writable.lt_two_pow {x : Nat} (h : Writable A P x) : x < 2 ^ 31 := by
  have hmul : x * 2 ≤ x * P.spb := Nat.mul_le_mul_left _ P.two_le_spb
  have := h.lt
  omega

/-- The indirect block is there, or it is made: a block of zeros that nothing
used, so that the file maps what it did before. -/
theorem makeSingly_spec (h : FsOk A P (n + 1) fs ino) (hs : SinglyOk A P r fs)
    (hr : DataBlock A P fs r) {inode : Nat → UInt8} (hsync : Synced P fs.disk inode) :
    ∃ fs' inode', makeSingly A.alloc fs inode ino = some (fs', inode') ∧ FsOk A P n fs' ino ∧
      Synced P fs'.disk inode' ∧ P.singly fs'.disk ≠ 0 ∧ SinglyOk A P r fs' ∧
      Grows A P b r fs fs' := by
  have hfield : le32 inode inoSinglyBlock = P.singly fs.disk := hsync.field (by decide)
  unfold makeSingly
  rw [hfield]
  by_cases hs0 : P.singly fs.disk = 0
  · obtain ⟨s, fs₁, heq, hfresh, hfs₁, hsame⟩ := h.alloc
    have hdata := h.fresh_data hfresh
    have hpos : s ≠ 0 := hfresh.pos.ne'
    have hlt := hdata.writable.lt_two_pow
    have hinode := hsame _ h.writable_inode
    obtain ⟨fs', heq', hfs', hused, hdisk⟩ := hfs₁.putSingly (hsync.of_same hinode) hdata
    obtain ⟨hfields, hsingly, hptr⟩ :=
      made_views hinode hs0 (by omega) hpos hdata.notInode hdisk
    rw [if_pos hs0, heq]
    dsimp only
    rw [if_neg hpos, heq']
    refine ⟨fs', _, rfl, hfs', ?_, hsingly.symm ▸ hpos, fun _ => ?_, ?_⟩
    · rw [hdisk]
      exact ((hsync.of_same hinode).put32 _ _).of_same (SameBlock.setBlock hdata.notInode.symm)
    · rw [hsingly]
      exact ⟨hdata.keeps hused, fun hsr => hfresh.unused (hsr ▸ hr.used)⟩
    · refine ⟨fun x hx => hused x (hfresh.keeps x hx), hfields _ (by decide) (by decide),
        hfields _ (by decide) (by decide), (hfields _ (by decide) (by decide)).ge,
        .inr ⟨hs0, hsingly.symm ▸ hfresh.unused⟩, fun c hc _ => hptr c hc, ?_⟩
      intro a hmeta hin _ hsa
      rw [hsingly] at hsa
      rw [hdisk, setBlock_of_ne (hsa hpos), put32_field_of_ne (by decide) hin, hfresh.disk a hmeta]
  · rw [if_neg hs0]
    exact ⟨fs, inode, rfl, h.mono, hsync, hs0, hs, .of_same (fun _ hx => hx) (fun _ _ => rfl)
      (fun _ _ _ => rfl) (fun _ _ _ => rfl)⟩

theorem SinglyOk.keeps (hs : SinglyOk A P r fs) (hg : Grows A P b r fs fs')
    (heq : P.singly fs'.disk = P.singly fs.disk) : SinglyOk A P r fs' := by
  intro hne
  rw [heq] at hne ⊢
  exact ⟨(hs hne).1.keeps hg.used, (hs hne).2⟩

/-- `set_block_number` maps `b` to `r`. -/
theorem setBlockNumber_spec (h : FsOk A P (n + 1) fs ino) (hs : SinglyOk A P r fs)
    (hr : DataBlock A P fs r) {inode : Nat → UInt8} (hsync : Synced P fs.disk inode)
    (hb : b < P.near) :
    ∃ fs' inode', setBlockNumber A.alloc fs inode ino b r = some (fs', inode') ∧
      FsOk A P n fs' ino ∧ SinglyOk A P r fs' ∧ Grows A P b r fs fs' ∧ P.ptr fs'.disk b = r := by
  have hlt := hr.writable.lt_two_pow
  have hppb : ptrsPerBlock fs = P.ppb := by rw [ptrsPerBlock, h.inodeAt.blocksize, InodePlace.ppb]
  unfold setBlockNumber
  by_cases h12 : b < 12
  · rw [if_pos h12]
    have hf : inoDbp + 4 * b + 4 ≤ inoSinglyBlock := by
      rw [inoDbp, inoSinglyBlock]
      omega
    have hsec : P.sectors (put32 fs.disk (P.addr + (inoDbp + 4 * b)) r) = P.sectors fs.disk :=
      P.field_put32_of_ne _ (by rw [inoDbp, inoDiskSectors]; omega)
    obtain ⟨hfs', hgrows⟩ := grows_field h.mono hs (f := inoDbp + 4 * b) (v := r) (b := b)
      (by rw [inoDbp, inoSize]; omega) hf hsec.ge (by intros; omega)
    have hsingly : P.singly (put32 fs.disk (P.addr + (inoDbp + 4 * b)) r) = P.singly fs.disk :=
      P.field_put32_of_ne _ (.inl hf)
    dsimp only
    rw [h.inodeAt.writeInode_put32 hsync (by rw [inoSinglyBlock] at hf; omega)]
    refine ⟨_, _, rfl, hfs', hs.keeps hgrows hsingly, hgrows, ?_⟩
    rw [InodePlace.ptr_direct h12]
    exact P.field_put32 _ _ (by omega)
  · have hb' : b < 12 + P.ppb := hb
    have hfit : 4 * (b - 12) + 4 ≤ P.bs := by
      rw [InodePlace.ppb] at hb'
      omega
    obtain ⟨fs₁, inode₁, hmade, hfs₁, hsync₁, hs0, hs₁, hg₁⟩ := makeSingly_spec h hs hr hsync
    have hfield : le32 inode₁ inoSinglyBlock = P.singly fs₁.disk := hsync₁.field (by decide)
    have hsw := (hs₁ hs0).1.writable.lt
    rw [if_neg h12, hppb, if_pos hb', hmade]
    dsimp only
    rw [hfield, hfs₁.inodeAt.readBlock_eq hsw, hfs₁.inodeAt.writeBlock_eq hsw, setBlock_put32 hfit]
    obtain ⟨hfs₂, hg₂⟩ := grows_entry hfs₁ hs₁ hs0 (by omega) hb rfl
    have hsingly := hg₂.singly.eq hs0
    refine ⟨_, _, rfl, hfs₂, hs₁.keeps hg₂ hsingly, hg₁.trans hg₂, ?_⟩
    exact ptr_entry hsingly hs0 (by omega) hb (by omega) rfl

/-! ## Whole additions -/

/-- `disk_sectors` is raised to cover block `b`. -/
theorem raiseSectors_spec (h : FsOk A P n fs ino) (hs : SinglyOk A P r fs) {inode : Nat → UInt8}
    (hsync : Synced P fs.disk inode) (hb : b < P.near) {t : Nat} (ht : t < 2 ^ 32) :
    ∃ fs', ext2WriteInode fs
        (if le32 inode inoDiskSectors < t then put32 inode inoDiskSectors t else inode) ino = fs' ∧
      FsOk A P n fs' ino ∧ SinglyOk A P r fs' ∧ Grows A P b r fs fs' ∧
      P.ptr fs'.disk b = P.ptr fs.disk b ∧ t ≤ P.sectors fs'.disk := by
  have hfield : le32 inode inoDiskSectors = P.sectors fs.disk := hsync.field (by decide)
  rw [hfield]
  by_cases hlt : P.sectors fs.disk < t
  · have hsec : P.sectors (put32 fs.disk (P.addr + inoDiskSectors) t) = t := P.field_put32 _ _ ht
    have hapart : ∀ b, ∀ c < 12, c ≠ b →
        inoDiskSectors + 4 ≤ inoDbp + 4 * c ∨ inoDbp + 4 * c + 4 ≤ inoDiskSectors := by
      intro b c _ _
      rw [inoDiskSectors, inoDbp]
      omega
    obtain ⟨hfs', hg⟩ := grows_field h hs (by decide) (by decide) (hsec ▸ hlt.le) (hapart b)
    -- the same step, seen from another block, keeps block `b` as well
    obtain ⟨-, hg'⟩ := grows_field h hs (by decide) (by decide) (hsec ▸ hlt.le) (hapart (b + 1))
    have hsingly : P.singly (put32 fs.disk (P.addr + inoDiskSectors) t) = P.singly fs.disk :=
      P.field_put32_of_ne _ (by decide)
    rw [if_pos hlt, h.inodeAt.writeInode_put32 hsync (by decide)]
    exact ⟨_, rfl, hfs', hs.keeps hg hsingly, hg, hg'.ptr b hb (by omega), hsec.ge⟩
  · rw [if_neg hlt, h.inodeAt.writeInode_same hsync]
    exact ⟨fs, rfl, h, hs, .of_same (fun _ hx => hx) (fun _ _ => rfl) (fun _ _ _ => rfl)
      (fun _ _ _ => rfl), rfl, not_lt.mp hlt⟩

/-- `allocate_inode_block` maps `b` to a block that nothing used. -/
theorem allocateInodeBlock_spec (h : FsOk A P (n + 2) fs ino)
    (hs : P.singly fs.disk ≠ 0 → DataBlock A P fs (P.singly fs.disk)) {inode : Nat → UInt8}
    (hsync : Synced P fs.disk inode) (hb : b < P.near) (ht : (b + 1) * P.spb < 2 ^ 32) :
    ∃ (r : Nat) (fs' : Ext2Fs) (inode' : Nat → UInt8),
      allocateInodeBlock A.alloc fs inode ino b = some ⟨r, fs', inode'⟩ ∧
      FsOk A P n fs' ino ∧ ¬ A.used fs r ∧ DataBlock A P fs' r ∧ SinglyOk A P r fs' ∧
      Grows A P b r fs fs' ∧ P.ptr fs'.disk b = r ∧ (b + 1) * P.spb ≤ P.sectors fs'.disk := by
  obtain ⟨r, fs₁, heq, hfresh, hfs₁, hsame⟩ := h.alloc
  have hdata := h.fresh_data hfresh
  have hlt := hdata.writable.lt_two_pow
  have hs₀ : SinglyOk A P r fs := fun hne =>
    ⟨hs hne, fun hsr => hfresh.unused (hsr ▸ (hs hne).used)⟩
  have hinode := hsame _ h.writable_inode
  have hg₁ : Grows A P b r fs fs₁ := grows_alloc h hs₀ hfresh hsame
  have hs₁ : SinglyOk A P r fs₁ := hs₀.keeps hg₁ (InodePlace.field_same hinode (by decide))
  obtain ⟨fs₂, inode₂, hset, hfs₂, hs₂, hg₂, hptr₂⟩ :=
    setBlockNumber_spec hfs₁ hs₁ hdata (hsync.of_same hinode) hb
  have hdata₂ := hdata.keeps hg₂.used
  obtain ⟨hfs₃, hg₃⟩ := grows_data (b := b) hfs₂ hs₂ hdata₂ zeroBlock
  obtain ⟨-, hg₃'⟩ := grows_data (b := b + 1) hfs₂ hs₂ hdata₂ zeroBlock
  generalize hd₃ : setDisk fs₂ (setBlock fs₂.disk P.bs r zeroBlock) = fs₃ at hfs₃ hg₃ hg₃'
  have hs₃ : SinglyOk A P r fs₃ := by
    refine hs₂.keeps hg₃ ?_
    rw [← hd₃]
    exact InodePlace.field_same (SameBlock.setBlock hdata.notInode.symm) (by decide)
  obtain ⟨fs₄, hwrite, hfs₄, hs₄, hg₄, hptr₄, hsec⟩ :=
    raiseSectors_spec hfs₃ hs₃ (hfs₃.inodeAt.synced_reRead inode₂) hb ht
  have hspb : fs₃.blocksize / 512 = P.spb := by
    rw [hfs₃.inodeAt.blocksize, InodePlace.bs, Nat.mul_div_cancel_left _ (by norm_num)]
  have hg := (hg₁.trans hg₂).trans (hg₃.trans hg₄)
  unfold allocateInodeBlock
  rw [heq]
  dsimp only
  rw [if_neg hfresh.pos.ne', hset, Option.map_some]
  dsimp only
  rw [hfs₂.inodeAt.writeBlock_eq hdata.writable.lt, hd₃, hspb, u32_of_lt ht, hwrite, i32, if_pos hlt]
  refine ⟨r, fs₄, _, rfl, hfs₄, hfresh.unused, hdata₂.keeps (hg₃.trans hg₄).used, hs₄, hg, ?_, hsec⟩
  rw [hptr₄, hg₃'.ptr b hb (by omega), hptr₂]

/-! ## The file afterwards -/

/-- No step touches the blocks behind the doubly indirect one. -/
theorem FileOk.deep_kept {m : Nat} (h : FileOk A P m fs ino) (hg : Grows A P b r fs fs')
    (hr : ∀ x, P.Deep fs.disk x → x ≠ r) {x : Nat} (hx : P.Deep fs.disk x) :
    SameBlock P.bs fs.disk fs'.disk x := by
  obtain ⟨hdata, hfar⟩ := h.deepData x hx
  intro a ha
  apply hg.frame a
  · exact fun hmem => hdata.writable.notMeta a hmem ha
  · rw [ha]
    exact hdata.notInode
  · rw [ha]
    exact hr x hx
  · intro hne heq
    rw [ha] at heq
    rcases hg.singly with hold | ⟨-, hnew⟩
    · exact hfar ⟨hx.1, .inl (heq.trans hold)⟩
    · exact hnew (heq ▸ hdata.used)

/-- The file after the steps that map `b` to `r`. Either `b` was not mapped and
`r` not used, or `b` was mapped to `r` before. -/
theorem FileOk.of_grows {m : Nat} (h : FileOk A P m fs ino) (hfs : FsOk A P n fs' ino)
    (hg : Grows A P b r fs fs') (hb : b < P.near)
    (hold : P.ptr fs.disk b = 0 ∧ ¬ A.used fs r ∨ P.ptr fs.disk b = r) (hr : DataBlock A P fs' r)
    (hs : SinglyOk A P r fs') (hptr : P.ptr fs'.disk b = r)
    (hsec : (b + 1) * P.spb ≤ P.sectors fs'.disk) :
    FileOk A P n fs' ino ∧
      (∀ c < P.reach, c ≠ b → P.ptr fs'.disk c = P.ptr fs.disk c) ∧
      ∀ c < P.reach, c ≠ b → P.ptr fs.disk c ≠ 0 →
        SameBlock P.bs fs.disk fs'.disk (P.ptr fs.disk c) := by
  have hr0 : r ≠ 0 := hr.writable.pos.ne'
  have hnear : ∀ c < P.near, P.ptr fs.disk c ≠ 0 → DataBlock A P fs (P.ptr fs.disk c) :=
    fun c hc hne => h.nearData _ ⟨hne, .inr ⟨c, hc, rfl⟩⟩
  have hother : ∀ c < P.near, c ≠ b → P.ptr fs.disk c ≠ 0 → P.ptr fs.disk c ≠ r := by
    intro c hc hne h0 heq
    rcases hold with ⟨-, hfresh⟩ | hmapped
    · exact hfresh (heq ▸ (hnear c hc h0).used)
    · exact hne (h.nearInj c hc b hb h0 (heq.trans hmapped.symm))
  have hdeep : ∀ x, P.Deep fs.disk x → x ≠ r := by
    rintro x hx rfl
    rcases hold with ⟨-, hfresh⟩ | hmapped
    · exact hfresh (h.deepData x hx).1.used
    · exact (h.deepData x hx).2 ⟨hr0, .inr ⟨b, hb, hmapped.symm⟩⟩
  have hkept := fun x hx => h.deep_kept hg hdeep (x := x) hx
  have hfar : ∀ c, P.near ≤ c → c < P.reach → P.ptr fs'.disk c = P.ptr fs.disk c :=
    fun c hc hlt => InodePlace.ptr_deep_same hg.doubly hkept hc hlt
  have hptrs : ∀ c < P.reach, c ≠ b → P.ptr fs'.disk c = P.ptr fs.disk c := by
    intro c hc hcb
    rcases Nat.lt_or_ge c P.near with hn | hn
    · exact hg.ptr c hn hcb
    · exact hfar c hn hc
  have hsingly : ∀ c < P.near, P.ptr fs.disk c ≠ 0 →
      P.ptr fs.disk c ≠ P.singly fs'.disk := by
    intro c hc h0 heq
    rcases hg.singly with hsame | ⟨-, hnew⟩
    · exact h.nearSingly c hc h0 (heq.trans hsame)
    · exact hnew (heq ▸ (hnear c hc h0).used)
  refine ⟨{ hfs with
    mapped := ?_, nearData := ?_, nearInj := ?_, nearSingly := ?_, deepData := ?_
    covered := ?_ }, hptrs, ?_⟩
  · intro c hc hlt
    rw [hg.size] at hlt
    by_cases hcb : c = b
    · rw [hcb, hptr]
      exact hr0
    · rw [hptrs c hc hcb]
      exact h.mapped c hc hlt
  · rintro x ⟨hx0, rfl | ⟨c, hc, rfl⟩⟩
    · exact (hs hx0).1
    · by_cases hcb : c = b
      · rw [hcb, hptr]
        exact hr
      · rw [hg.ptr c hc hcb] at hx0 ⊢
        exact (hnear c hc hx0).keeps hg.used
  · intro c hc e he h0 heq
    by_cases hcb : c = b
    · by_cases heb : e = b
      · rw [hcb, heb]
      · rw [hcb, hptr, hg.ptr e he heb] at heq
        exact absurd heq.symm (hother e he heb (heq ▸ hr0))
    · rw [hg.ptr c hc hcb] at h0 heq
      by_cases heb : e = b
      · rw [heb, hptr] at heq
        exact absurd heq (hother c hc hcb h0)
      · rw [hg.ptr e he heb] at heq
        exact h.nearInj c hc e he h0 heq
  · intro c hc h0 heq
    by_cases hcb : c = b
    · rw [hcb, hptr] at heq
      exact (hs (heq ▸ hr0)).2 heq.symm
    · rw [hg.ptr c hc hcb] at h0 heq
      exact hsingly c hc h0 heq
  · intro x hx
    rw [InodePlace.deep_same hg.doubly hkept] at hx
    obtain ⟨hdata, hnotNear⟩ := h.deepData x hx
    refine ⟨hdata.keeps hg.used, ?_⟩
    rintro ⟨hx0, hxs | ⟨c, hc, hxc⟩⟩
    · rcases hg.singly with hsame | ⟨-, hnew⟩
      · exact hnotNear ⟨hx0, .inl (hxs.trans hsame)⟩
      · exact hnew (hxs ▸ hdata.used)
    · by_cases hcb : c = b
      · rw [hcb, hptr] at hxc
        exact hdeep x hx hxc
      · rw [hg.ptr c hc hcb] at hxc
        exact hnotNear ⟨hx0, .inr ⟨c, hc, hxc⟩⟩
  · intro c hc h0
    by_cases hcb : c = b
    · rw [hcb]
      exact hsec
    · rw [hg.ptr c hc hcb] at h0
      exact (h.covered c hc h0).trans hg.sectors
  · intro c hc hcb h0
    rcases Nat.lt_or_ge c P.near with hn | hn
    · have hdata := hnear c hn h0
      intro a ha
      refine hg.frame a (fun hmem => hdata.writable.notMeta a hmem ha) (ha ▸ hdata.notInode)
        (ha ▸ hother c hn hcb h0) fun _ => ?_
      rw [ha]
      exact hsingly c hn h0
    · exact hkept _ ⟨h0, .inr (.inr ⟨c, hn, hc, rfl⟩)⟩

end Levos.Fs
