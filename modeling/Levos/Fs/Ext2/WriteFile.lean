import Levos.Fs.Ext2.File
import Levos.Fs.Ext2.Grow

/-!
# `ext2_write_file` writes the caller's bytes

The blocks of a write are taken one after the other: `writeOneBlock_spec` says
what one of them does, `Wrote` is what a part of the write has done to the
file, and it composes over adjacent parts (`Wrote.trans`).
-/

namespace Levos.Fs

open Levos.Base Levos.Kernel

variable {A : BlockAllocator} {P : InodePlace} {n ino b : Nat} {fs fs' : Ext2Fs}

/-! ## Reading or creating a block -/

theorem FileOk.ptr_lt (h : FileOk A P n fs ino) (hb : b < P.near) : P.ptr fs.disk b < 2 ^ 31 := by
  by_cases h0 : P.ptr fs.disk b = 0
  · rw [h0]
    norm_num
  · exact (h.nearData _ ⟨h0, .inr ⟨b, hb, rfl⟩⟩).writable.lt_two_pow

/-- `ext2_inode_get_block`, when all blocks before are mapped. Without an
indirect block it reads the boot block. -/
theorem ext2InodeGetBlock_eq (h : FileOk A P n fs ino) (hb : b < P.near)
    (hbelow : ∀ c < b, P.ptr fs.disk c ≠ 0) {inode : Nat → UInt8}
    (hsync : Synced P fs.disk inode) : ext2InodeGetBlock fs inode b = P.ptr fs.disk b := by
  have hlt := h.ptr_lt hb
  have hb' : b < 12 + P.ppb := hb
  have hppb : ptrsPerBlock fs = P.ppb := by
    rw [ptrsPerBlock, h.inodeAt.blocksize, InodePlace.ppb]
  have hi32 : i32 (P.ptr fs.disk b) = P.ptr fs.disk b := by
    rw [i32, if_pos hlt]
  unfold ext2InodeGetBlock
  by_cases h12 : b < 12
  · rw [if_pos h12, hsync.field (by rw [inoDbp]; omega), ← InodePlace.ptr_direct h12, hi32]
  · have hfield : le32 inode inoSinglyBlock = P.singly fs.disk := hsync.field (by decide)
    have hptr := InodePlace.ptr_singly (d := fs.disk) (by omega : 12 ≤ b) hb
    rw [if_neg h12, hppb, if_pos hb', hfield, ← hi32]
    congr 1
    by_cases hs0 : P.singly fs.disk = 0
    · -- block 12 is the first one behind the missing indirect block
      have hb12 : b = 12 := by
        by_contra hne
        apply hbelow 12 (by omega)
        rw [InodePlace.ptr_singly le_rfl (by omega), hs0, InodePlace.follow, if_pos rfl]
      have hboot : le32 (fun j => fs.disk (P.bs * 0 + j)) (4 * (12 - 12)) = le32 zeroBlock 0 := by
        apply le32_congr
        intro k hk
        rw [h.boot _ (by omega), zeroBlock]
      rw [hptr, hs0, InodePlace.follow, if_pos rfl, h.inodeAt.readBlock_eq (by norm_num), hb12,
        hboot]
      rfl
    · have hdata := h.nearData _ ⟨hs0, .inl rfl⟩
      rw [hptr, InodePlace.follow, if_neg hs0, h.inodeAt.readBlock_eq hdata.writable.lt]
      exact le32_congr fun k _ => by rw [Nat.add_assoc]

/-- `ext2_inode_add_block` adds just the block it is asked for. -/
theorem ext2InodeAddBlock_eq (h : FileOk A P n fs ino) (hb : b ≤ P.near)
    (hbelow : ∀ c < b, P.ptr fs.disk c ≠ 0) {inode : Nat → UInt8}
    (hsync : Synced P fs.disk inode) :
    ext2InodeAddBlock A.alloc fs b ino inode = allocateInodeBlock A.alloc fs inode ino b := by
  have hspb := P.two_le_spb
  have hfield : le32 inode inoDiskSectors = P.sectors fs.disk := hsync.field (by decide)
  have hsize : fs.blocksize / 512 = P.spb := by
    rw [h.inodeAt.blocksize, InodePlace.bs, Nat.mul_div_cancel_left _ (by norm_num)]
  have hcover : b ≤ P.sectors fs.disk / P.spb := by
    rw [Nat.le_div_iff_mul_le (by omega)]
    rcases b with _ | b
    · rw [Nat.zero_mul]
      exact Nat.zero_le _
    · exact h.covered b (by omega) (hbelow b (by omega))
  unfold ext2InodeAddBlock
  dsimp only
  rw [hfield, hsize, Nat.sub_eq_zero_of_le (by omega), addBlocks, Option.bind_some]

/-- What reading or creating block `b` gives: the block behind it, in a file
that can be written to, and its bytes if it was there before. -/
structure GotBlock (A : BlockAllocator) (P : InodePlace) (n ino b r : Nat) (fs fs' : Ext2Fs)
    (buf : Nat → UInt8) : Prop where
  fsOk : FsOk A P n fs' ino
  grows : Grows A P b r fs fs'
  data : DataBlock A P fs' r
  singly : SinglyOk A P r fs'
  ptr : P.ptr fs'.disk b = r
  covered : (b + 1) * P.spb ≤ P.sectors fs'.disk
  old : P.ptr fs.disk b = 0 ∧ ¬ A.used fs r ∨ P.ptr fs.disk b = r
  bytes : P.ptr fs.disk b ≠ 0 → ∀ j < P.bs, buf j = fs.disk (P.bs * r + j)

theorem ext2InodeReadOrCreate_spec (h : FileOk A P (n + 2) fs ino) (hb : b < P.near)
    (hbelow : ∀ c < b, P.ptr fs.disk c ≠ 0) (ht : (b + 1) * P.spb < 2 ^ 32)
    (inode buf : Nat → UInt8) :
    ∃ (r : Nat) (fs' : Ext2Fs) (inode' buf' : Nat → UInt8),
      ext2InodeReadOrCreate A.alloc fs ino inode b buf = some (⟨r, fs', inode'⟩, buf') ∧
      GotBlock A P n ino b r fs fs' buf' := by
  have hsync := h.inodeAt.synced_reRead inode
  have hsingly : P.singly fs.disk ≠ 0 → DataBlock A P fs (P.singly fs.disk) := fun hs0 =>
    h.nearData _ ⟨hs0, .inl rfl⟩
  unfold ext2InodeReadOrCreate
  dsimp only
  rw [ext2InodeGetBlock_eq h hb hbelow hsync]
  by_cases h0 : P.ptr fs.disk b = 0
  · obtain ⟨r, fs', inode', heq, hfs, hfresh, hdata, hs, hg, hptr, hsec⟩ :=
      allocateInodeBlock_spec h.toFsOk hsingly hsync hb ht
    rw [h0, if_pos (by norm_num), ext2InodeAddBlock_eq h hb.le hbelow hsync, heq, Option.map_some]
    exact ⟨r, fs', inode', buf, rfl, hfs, hg, hdata, hs, hptr, hsec, .inl ⟨h0, hfresh⟩,
      fun hne => absurd h0 hne⟩
  · have hdata := h.nearData _ ⟨h0, .inr ⟨b, hb, rfl⟩⟩
    have hne : P.singly fs.disk ≠ 0 → DataBlock A P fs (P.singly fs.disk) ∧
        P.singly fs.disk ≠ P.ptr fs.disk b := fun hs0 =>
      ⟨hsingly hs0, (h.nearSingly b hb h0).symm⟩
    rw [if_neg (by omega), Int.toNat_natCast]
    refine ⟨_, fs, _, _, rfl, h.toFsOk.mono.mono, ?_, hdata, hne, rfl, h.covered b hb h0, .inr rfl,
      fun _ j hj => ?_⟩
    · exact .of_same (fun _ hx => hx) (fun _ _ => rfl) (fun _ _ _ => rfl) (fun _ _ _ => rfl)
    · rw [h.inodeAt.blocksize, writeBytes_of_mem (by omega), Nat.sub_zero,
        h.inodeAt.readBlock_eq hdata.writable.lt]

/-! ## Parts of a write -/

/-- What a part of a write did: the bytes `lo ≤ o < hi` of the file are `data`,
and the other bytes are as before; each block is kept or, where there was none,
one that nothing used; and outside the file, its inode and the allocation
metadata no byte of the disk has changed. -/
structure Wrote (A : BlockAllocator) (P : InodePlace) (fs fs' : Ext2Fs) (lo hi : Nat)
    (data : Nat → UInt8) : Prop where
  used : ∀ x, A.used fs x → A.used fs' x
  size : P.size fs'.disk = P.size fs.disk
  bound : hi ≤ P.bs * P.near
  ptr : ∀ c < P.reach, KeptOrNew A fs (P.ptr fs.disk c) (P.ptr fs'.disk c)
  singly : KeptOrNew A fs (P.singly fs.disk) (P.singly fs'.disk)
  mapped : ∀ o, lo ≤ o → o < hi → P.ptr fs'.disk (o / P.bs) ≠ 0
  inside : ∀ o, lo ≤ o → o < hi → P.byte fs'.disk o = data o
  outside : ∀ o, o / P.bs < P.reach → P.ptr fs.disk (o / P.bs) ≠ 0 → o < lo ∨ hi ≤ o →
    P.byte fs'.disk o = P.byte fs.disk o
  frame : ∀ a, a ∉ A.metadata → a / P.bs ≠ P.block → ¬ P.Near fs'.disk (a / P.bs) →
    fs'.disk a = fs.disk a

variable {lo mid hi : Nat} {data : Nat → UInt8}

theorem InodePlace.near_le_reach (P : InodePlace) : P.near ≤ P.reach := Nat.le_add_right _ _

theorem Wrote.block_lt (h : Wrote A P fs fs' lo hi data) {o : Nat} (ho : o < hi) :
    o / P.bs < P.near := Nat.div_lt_of_lt_mul (lt_of_lt_of_le ho h.bound)

theorem Wrote.near_kept (h : Wrote A P fs fs' lo hi data) {x : Nat} (hx : P.Near fs.disk x) :
    P.Near fs'.disk x := by
  obtain ⟨hx0, rfl | ⟨c, hc, rfl⟩⟩ := hx
  · exact ⟨hx0, .inl (h.singly.eq hx0).symm⟩
  · exact ⟨hx0, .inr ⟨c, hc, ((h.ptr c (hc.trans_le P.near_le_reach)).eq hx0).symm⟩⟩

/-- Nothing is written yet. -/
theorem Wrote.refl (hlo : lo ≤ P.bs * P.near) : Wrote A P fs fs lo lo data :=
  ⟨fun _ hx => hx, rfl, hlo, fun _ _ => .inl rfl, .inl rfl, fun _ h h' => absurd h' h.not_gt,
    fun _ h h' => absurd h' h.not_gt, fun _ _ _ _ => rfl, fun _ _ _ _ => rfl⟩

/-- Two parts, one after the other. -/
theorem Wrote.trans {fs'' : Ext2Fs} (h : Wrote A P fs fs' lo mid data)
    (h' : Wrote A P fs' fs'' mid hi data) (hle : lo ≤ mid) (hle' : mid ≤ hi) :
    Wrote A P fs fs'' lo hi data := by
  have hreach := P.near_le_reach
  refine ⟨fun x hx => h'.used x (h.used x hx), h'.size.trans h.size, h'.bound,
    fun c hc => (h.ptr c hc).trans (h'.ptr c hc) h.used, h.singly.trans h'.singly h.used,
    ?_, ?_, ?_, ?_⟩
  · intro o hlo hhi
    rcases Nat.lt_or_ge o mid with hmid | hmid
    · have h0 := h.mapped o hlo hmid
      rw [(h'.ptr _ ((h.block_lt hmid).trans_le hreach)).eq h0]
      exact h0
    · exact h'.mapped o hmid hhi
  · intro o hlo hhi
    rcases Nat.lt_or_ge o mid with hmid | hmid
    · rw [h'.outside o ((h.block_lt hmid).trans_le hreach) (h.mapped o hlo hmid) (.inl hmid)]
      exact h.inside o hlo hmid
    · exact h'.inside o hmid hhi
  · intro o hreach h0 hout
    have h0' : P.ptr fs'.disk (o / P.bs) ≠ 0 := by
      rw [(h.ptr _ hreach).eq h0]
      exact h0
    rw [h'.outside o hreach h0' (by omega), h.outside o hreach h0 (by omega)]
  · intro a hmeta hinode hnear
    rw [h'.frame a hmeta hinode hnear]
    exact h.frame a hmeta hinode fun hx => hnear (h'.near_kept hx)

/-! ## One block -/

/-- The bytes of block `b` that are written. -/
theorem mem_block {bs dst len o : Nat} (hfit : dst + len ≤ bs) (hlo : bs * b + dst ≤ o)
    (hhi : o < bs * b + (dst + len)) : o / bs = b ∧ dst ≤ o % bs ∧ o % bs < dst + len := by
  obtain ⟨k, rfl⟩ := Nat.exists_eq_add_of_le (Nat.le_of_add_right_le hlo)
  rw [block_div (by omega), block_mod (by omega)]
  omega

/-- The block that was read or created, with some of its bytes replaced. -/
theorem GotBlock.wrote {m r dst len : Nat} {fs₁ : Ext2Fs} {buf₁ buf₂ : Nat → UInt8}
    (hgot : GotBlock A P n ino b r fs fs₁ buf₁) (h : FileOk A P m fs ino) (hb : b < P.near)
    (hfit : dst + len ≤ P.bs) (hin : ∀ j < len, buf₂ (dst + j) = data (P.bs * b + (dst + j)))
    (hout : ∀ j, j < dst ∨ dst + len ≤ j → buf₂ j = buf₁ j)
    (hfs' : fs' = setDisk fs₁ (setBlock fs₁.disk P.bs r buf₂)) :
    FileOk A P n fs' ino ∧
      Wrote A P fs fs' (P.bs * b + dst) (P.bs * b + (dst + len)) data := by
  have hreach := P.near_le_reach
  have hbs := P.bs_ge
  have hr0 : r ≠ 0 := hgot.data.writable.pos.ne'
  obtain ⟨hok, hg₂⟩ := grows_data (b := b) hgot.fsOk hgot.singly hgot.data buf₂
  -- seen from another block, the write keeps block `b` as well
  obtain ⟨-, hg₂'⟩ := grows_data (b := b + 1) hgot.fsOk hgot.singly hgot.data buf₂
  have hblock : ∀ j < P.bs, fs'.disk (P.bs * r + j) = buf₂ j := fun j hj => by
    rw [hfs']
    exact setBlock_apply hj
  have hsingly : P.singly fs'.disk = P.singly fs₁.disk := by
    rw [hfs']
    exact InodePlace.field_same (SameBlock.setBlock hgot.data.notInode.symm) (by decide)
  rw [← hfs'] at hok hg₂ hg₂'
  have hg := hgot.grows.trans hg₂
  have hptr : P.ptr fs'.disk b = r := (hg₂'.ptr b hb (by omega)).trans hgot.ptr
  obtain ⟨hfile, hptrs, hblocks⟩ := h.of_grows hok hg hb hgot.old (hgot.data.keeps hg₂.used)
    (hgot.singly.keeps hg₂ hsingly) hptr (hgot.covered.trans hg₂.sectors)
  refine ⟨hfile, hg.used, hg.size, ?_, ?_, hg.singly, ?_, ?_, ?_, ?_⟩
  · calc P.bs * b + (dst + len) ≤ P.bs * b + P.bs := by omega
      _ = P.bs * (b + 1) := by ring
      _ ≤ P.bs * P.near := Nat.mul_le_mul_left _ hb
  · intro c hc
    by_cases hcb : c = b
    · rw [hcb, hptr]
      rcases hgot.old with ⟨hzero, hfresh⟩ | hold
      · exact .inr ⟨hzero, hfresh⟩
      · exact .inl hold.symm
    · exact .inl (hptrs c hc hcb)
  · intro o hlo hhi
    rw [(mem_block hfit hlo hhi).1, hptr]
    exact hr0
  · intro o hlo hhi
    obtain ⟨hdiv, hdst, hlen⟩ := mem_block hfit hlo hhi
    have hsplit := Nat.div_add_mod o P.bs
    rw [hdiv] at hsplit
    rw [InodePlace.byte, hdiv, hptr, hblock _ (by omega)]
    obtain ⟨j, hj⟩ := Nat.exists_eq_add_of_le hdst
    rw [hj, hin j (by omega), ← hj, hsplit]
  · intro o ho h0 hno
    by_cases hcb : o / P.bs = b
    · -- the block was there, and its other bytes went through the buffer
      have hold : P.ptr fs.disk b = r := hgot.old.resolve_left fun hnew => h0 (hcb ▸ hnew.1)
      have hsplit := Nat.div_add_mod o P.bs
      have hmod : o % P.bs < P.bs := Nat.mod_lt _ (by omega)
      rw [hcb] at hsplit h0
      rw [InodePlace.byte, InodePlace.byte, hcb, hptr, hold, hblock _ hmod, hout _ (by omega),
        hgot.bytes h0 _ hmod]
    · rw [InodePlace.byte, InodePlace.byte, hptrs _ ho hcb]
      exact (hblocks _ ho hcb h0).byte (Nat.mod_lt _ (by omega))
  · intro a hmeta hinode hnear
    refine hg.frame a hmeta hinode (fun har => ?_) fun hs0 has => ?_
    · exact hnear ⟨har ▸ hr0, .inr ⟨b, hb, har.trans hptr.symm⟩⟩
    · exact hnear ⟨has ▸ hs0, .inl has⟩

/-- One block of a write. -/
theorem writeOneBlock_spec {st : WriteState} (h : FileOk A P (n + 2) st.fs ino) (hb : b < P.near)
    (hbelow : ∀ c < b, P.ptr st.fs.disk c ≠ 0) (ht : (b + 1) * P.spb < 2 ^ 32)
    {dst src len : Nat} (hfit : dst + len ≤ P.bs) (buf data : Nat → UInt8)
    (hsrc : ∀ j < len, buf (src + j) = data (P.bs * b + (dst + j))) :
    ∃ st', writeOneBlock A.alloc ino buf st b dst src len = some (.inr st') ∧
      FileOk A P n st'.fs ino ∧ st'.total = st.total + len ∧
      Wrote A P st.fs st'.fs (P.bs * b + dst) (P.bs * b + (dst + len)) data := by
  obtain ⟨r, fs₁, inode₁, buf₁, heq, hgot⟩ :=
    ext2InodeReadOrCreate_spec h hb hbelow ht st.inode st.buffer
  have hin : ∀ j < len, writeBytes buf₁ dst len (fun j => buf (src + j)) (dst + j) =
      data (P.bs * b + (dst + j)) := fun j hj => by
    rw [writeBytes_of_mem (by omega), Nat.add_sub_cancel_left, hsrc j hj]
  obtain ⟨hfile, hwrote⟩ :=
    hgot.wrote h hb hfit hin (fun j hj => writeBytes_of_not_mem hj) rfl
  unfold writeOneBlock
  rw [heq, Option.map_some]
  dsimp only
  rw [if_neg (by omega), Int.toNat_natCast,
    hgot.fsOk.inodeAt.writeBlock_eq hgot.data.writable.lt]
  exact ⟨_, rfl, hfile, rfl, hwrote⟩

/-! ## All blocks -/

theorem FileOk.mono (h : FileOk A P (n + 1) fs ino) : FileOk A P n fs ino :=
  { h with toFsOk := h.toFsOk.mono }

/-- Below what is written, every block is mapped. -/
theorem FileOk.ptr_mapped (h : FileOk A P n fs' ino) (hw : Wrote A P fs fs' lo hi data)
    (hlo : lo ≤ P.size fs'.disk) {c : Nat} (hc : P.bs * c < hi) : P.ptr fs'.disk c ≠ 0 := by
  have hpos : 0 < P.bs := lt_of_lt_of_le (by norm_num) P.bs_ge
  have hnear : c < P.near := Nat.lt_of_mul_lt_mul_left (hc.trans_le hw.bound)
  rcases Nat.lt_or_ge (P.bs * c) lo with hbelow | habove
  · exact h.mapped c (hnear.trans_le P.near_le_reach) (hbelow.trans_le hlo)
  · have hmapped := hw.mapped _ habove hc
    rw [Nat.mul_div_cancel_left _ hpos] at hmapped
    exact hmapped

/-- A block number below the last one fits a sector number. -/
theorem sector_lt (hend : P.bs * b < 2 ^ 31) : (b + 1) * P.spb < 2 ^ 32 := by
  have hsize := P.size_lt
  have hmul : P.bs * b = 512 * (b * P.spb) := by
    rw [InodePlace.bs]
    ring
  rw [Nat.add_mul, Nat.one_mul]
  omega

section Blocks

variable {fpos : Nat} {buf : Nat → UInt8}

/-- Where a write from `fpos` has got to: `lo` is the next byte of the file. -/
structure WrittenTo (A : BlockAllocator) (P : InodePlace) (n ino fpos lo : Nat)
    (buf : Nat → UInt8) (fs : Ext2Fs) (st : WriteState) : Prop where
  file : FileOk A P n st.fs ino
  wrote : Wrote A P fs st.fs fpos lo fun o => buf (o - fpos)
  total : st.total + fpos = lo
  size : fpos ≤ P.size st.fs.disk

/-- The next block of a write. -/
theorem WrittenTo.next {st : WriteState} {dst src len : Nat}
    (h : WrittenTo A P (n + 2) ino fpos lo buf fs st) (hlo : P.bs * b + dst = lo)
    (hsrc : src + fpos = lo) (hfit : dst + len ≤ P.bs) (hb : b < P.near)
    (hend : P.bs * b < 2 ^ 31) :
    ∃ st', writeOneBlock A.alloc ino buf st b dst src len = some (.inr st') ∧
      WrittenTo A P n ino fpos (lo + len) buf fs st' := by
  have hpos : 0 < P.bs := lt_of_lt_of_le (by norm_num) P.bs_ge
  have hbelow : ∀ c < b, P.ptr st.fs.disk c ≠ 0 := by
    intro c hc
    have hmul : P.bs * c < P.bs * b := Nat.mul_lt_mul_of_pos_left hc hpos
    exact h.file.ptr_mapped h.wrote h.size (by omega)
  have hdata : ∀ j < len, buf (src + j) = buf (P.bs * b + (dst + j) - fpos) := by
    intro j _
    congr 1
    omega
  obtain ⟨st', heq, hfile, htotal, hwrote⟩ :=
    writeOneBlock_spec h.file hb hbelow (sector_lt hend) hfit buf (fun o => buf (o - fpos)) hdata
  rw [← Nat.add_assoc, hlo] at hwrote
  have htot := h.total
  refine ⟨st', heq, hfile, h.wrote.trans hwrote (by omega) (by omega), by omega, ?_⟩
  rw [hwrote.size]
  exact h.size

/-- The whole blocks after the first one. -/
theorem writeLoop_spec {e : Nat} (he : e ≤ P.near)
    (hend : P.bs * e < 2 ^ 31) :
    ∀ (m k : Nat) (st : WriteState), 0 < k → fpos / P.bs + k + m = e →
      WrittenTo A P (n + 2 * m) ino fpos (P.bs * (fpos / P.bs + k)) buf fs st →
      ∃ st', writeLoop A.alloc ino P.bs (fpos / P.bs) (fpos % P.bs) buf k m st = some (.inr st') ∧
        WrittenTo A P n ino fpos (P.bs * e) buf fs st' := by
  intro m
  induction m with
  | zero =>
    intro k st _ hk h
    rw [Nat.add_zero] at hk
    exact ⟨st, rfl, hk ▸ h⟩
  | succ m ih =>
    intro k st hk0 hk h
    have hbs := P.bs_ge
    have hmod : fpos % P.bs < P.bs := Nat.mod_lt _ (by omega)
    have hsplit := Nat.div_add_mod fpos P.bs
    have hmul : P.bs * (fpos / P.bs + k) = P.bs * (fpos / P.bs) + P.bs * k := Nat.mul_add _ _ _
    have hone : P.bs * 1 ≤ P.bs * k := Nat.mul_le_mul_left _ hk0
    have hle : P.bs * (fpos / P.bs + k) ≤ P.bs * e := Nat.mul_le_mul_left _ (by omega)
    have hsrc : P.bs * k - fpos % P.bs + fpos = P.bs * (fpos / P.bs + k) := by omega
    obtain ⟨st₁, heq₁, h₁⟩ :=
      h.next (Nat.add_zero _) hsrc (Nat.zero_add P.bs).le (by omega) (by omega)
    have hnext : P.bs * (fpos / P.bs + k) + P.bs = P.bs * (fpos / P.bs + (k + 1)) := by ring
    rw [hnext] at h₁
    obtain ⟨st', heq', h'⟩ := ih (k + 1) st₁ (Nat.succ_pos k) (by omega) h₁
    refine ⟨st', ?_, h'⟩
    rw [writeLoop, if_neg hk0.ne', heq₁]
    exact heq'

/-- All blocks of a write. -/
theorem writeBlocks_spec {count : Nat} (hcount : 0 < count) (hend : fpos + count < 2 ^ 31)
    (hnear : fpos + count ≤ P.bs * P.near) {st : WriteState}
    (h : WrittenTo A P (n + 2 * ((fpos + count) / P.bs - fpos / P.bs + 1)) ino fpos fpos buf fs st) :
    ∃ st', writeBlocks A.alloc ino P.bs fpos (fpos + count) buf st = some (.inr st') ∧
      WrittenTo A P n ino fpos (fpos + count) buf fs st' := by
  have hbs := P.bs_ge
  have hmod : fpos % P.bs < P.bs := Nat.mod_lt _ (by omega)
  have hmod' : (fpos + count) % P.bs < P.bs := Nat.mod_lt _ (by omega)
  have hsplit := Nat.div_add_mod fpos P.bs
  have hsplit' := Nat.div_add_mod (fpos + count) P.bs
  have hle : fpos / P.bs ≤ (fpos + count) / P.bs := Nat.div_le_div_right (Nat.le_add_right _ _)
  unfold writeBlocks
  dsimp only
  by_cases hone : fpos / P.bs = (fpos + count) / P.bs
  · -- the write stays in one block
    rw [if_pos hone]
    rw [← hone] at hsplit'
    rw [← hone, Nat.sub_self] at h
    have hb : fpos / P.bs < P.near := Nat.div_lt_of_lt_mul (by omega)
    have hfit : fpos % P.bs + (fpos + count - fpos) ≤ P.bs := by omega
    obtain ⟨st', heq, h'⟩ := h.next hsplit (Nat.zero_add _) hfit hb (by omega)
    rw [Nat.add_sub_cancel_left] at heq h' ⊢
    exact ⟨st', heq, h'⟩
  · rw [if_neg hone]
    obtain ⟨m, hm⟩ := Nat.exists_eq_add_of_le (Nat.succ_le_of_lt (lt_of_le_of_ne hle hone))
    have hblocks : (fpos + count) / P.bs - fpos / P.bs = m + 1 := by omega
    have hsum : (fpos + count) / P.bs = fpos / P.bs + (m + 1) := by omega
    have hmul : P.bs * ((fpos + count) / P.bs) = P.bs * (fpos / P.bs) + P.bs * (m + 1) := by
      rw [hsum, Nat.mul_add]
    have hmul' : P.bs * (m + 1) = P.bs * m + P.bs := Nat.mul_succ _ _
    have hfar : (fpos + count) / P.bs ≤ P.near := Nat.div_le_of_le_mul hnear
    rw [hblocks] at h ⊢
    have hfirst : fpos % P.bs + (P.bs - fpos % P.bs) ≤ P.bs := by omega
    rw [show n + 2 * (m + 1 + 1) = n + 2 + 2 * m + 2 by ring] at h
    obtain ⟨st₁, heq₁, h₁⟩ := h.next hsplit (Nat.zero_add _) hfirst (by omega) (by omega)
    rw [show fpos + (P.bs - fpos % P.bs) = P.bs * (fpos / P.bs + 1) by rw [Nat.mul_succ]; omega] at h₁
    obtain ⟨st₂, heq₂, h₂⟩ := writeLoop_spec hfar (by omega) m 1 st₁ Nat.one_pos (by omega) h₁
    rw [writeLoop, if_pos rfl, heq₁, Option.bind_some]
    dsimp only
    rw [heq₂, Option.bind_some]
    have hsize : fpos + count - (fpos + count) / P.bs * P.bs = (fpos + count) % P.bs := by
      rw [Nat.mul_comm]
      omega
    rw [hsize]
    dsimp only
    by_cases hlast : (fpos + count) % P.bs = 0
    · rw [if_neg (not_not_intro hlast)]
      rw [hlast, Nat.add_zero] at hsplit'
      rw [hsplit'] at h₂
      exact ⟨st₂, rfl, { h₂ with file := h₂.file.mono.mono }⟩
    · rw [if_pos hlast]
      have hsrc : P.bs * (m + 1) - fpos % P.bs + fpos = P.bs * ((fpos + count) / P.bs) := by omega
      have hb : (fpos + count) / P.bs < P.near := by
        have hlt : P.bs * ((fpos + count) / P.bs) < P.bs * P.near := by omega
        exact Nat.lt_of_mul_lt_mul_left hlt
      have hfit : 0 + (fpos + count) % P.bs ≤ P.bs := by omega
      obtain ⟨st', heq', h'⟩ := h₂.next (Nat.add_zero _) hsrc hfit hb (by omega)
      rw [hsplit'] at h'
      exact ⟨st', heq', h'⟩

end Blocks

/-! ## The size -/

/-- The file with another size. -/
theorem FileOk.setSize (h : FileOk A P n fs ino) {v : Nat} (hv : v < 2 ^ 32)
    (hmapped : ∀ c < P.reach, P.bs * c < v → P.ptr fs.disk c ≠ 0)
    (hfs' : fs' = setDisk fs (put32 fs.disk (P.addr + inoSize) v)) :
    FileOk A P n fs' ino ∧ (∀ x, A.used fs x → A.used fs' x) ∧ P.size fs'.disk = v ∧
      (∀ x, P.Near fs'.disk x ↔ P.Near fs.disk x) ∧ P.singly fs'.disk = P.singly fs.disk ∧
      (∀ c < P.reach, P.ptr fs'.disk c = P.ptr fs.disk c) ∧
      ∀ a, a / P.bs ≠ P.block → fs'.disk a = fs.disk a := by
  have hdisk : fs'.disk = put32 fs.disk (P.addr + inoSize) v := by rw [hfs', setDisk]
  have hout : ∀ a, a / P.bs ≠ P.block → fs'.disk a = fs.disk a := fun a ha => by
    rw [hdisk]
    exact put32_field_of_ne (by decide) ha
  have hfield : ∀ f, inoSize + 4 ≤ f → P.field fs'.disk f = P.field fs.disk f := fun f hf => by
    rw [hdisk]
    exact P.field_put32_of_ne _ (.inl hf)
  have hsize : P.size fs'.disk = v := by
    rw [hdisk]
    exact P.field_put32 _ _ hv
  have hsingly : P.singly fs'.disk = P.singly fs.disk := hfield _ (by decide)
  have hsame : ∀ x, x ≠ P.block → SameBlock P.bs fs.disk fs'.disk x := fun x hx a ha =>
    hout a (ha ▸ hx)
  have hdeep : ∀ x, P.Deep fs.disk x → SameBlock P.bs fs.disk fs'.disk x := fun x hx =>
    hsame x (h.deepData x hx).1.notInode
  have hdoubly : P.doubly fs'.disk = P.doubly fs.disk := hfield _ (by decide)
  have hptr : ∀ c < P.reach, P.ptr fs'.disk c = P.ptr fs.disk c := by
    intro c hc
    rcases Nat.lt_or_ge c P.near with hn | hn
    · by_cases h12 : c < 12
      · rw [InodePlace.ptr_direct h12, InodePlace.ptr_direct h12]
        exact hfield _ (by rw [inoSize, inoDbp]; omega)
      · rw [InodePlace.ptr_singly (by omega) hn, InodePlace.ptr_singly (by omega) hn, hsingly]
        rw [InodePlace.near] at hn
        refine InodePlace.follow_same (fun hs0 => hsame _ ?_) (by omega)
        exact (h.nearData _ ⟨hs0, .inl rfl⟩).notInode
    · exact InodePlace.ptr_deep_same hdoubly hdeep hn hc
  have hnearPtr : ∀ c < P.near, P.ptr fs'.disk c = P.ptr fs.disk c := fun c hc =>
    hptr c (hc.trans_le P.near_le_reach)
  have hnear : ∀ x, P.Near fs'.disk x ↔ P.Near fs.disk x := by
    intro x
    rw [InodePlace.Near, InodePlace.Near, hsingly]
    refine and_congr_right fun _ => or_congr_right (exists_congr fun c => ?_)
    exact and_congr_right fun hc => by rw [hnearPtr c hc]
  obtain ⟨hok, hused⟩ := h.toFsOk.setField (f := inoSize) (by decide) v
  rw [← hfs'] at hok hused
  refine ⟨{ hok with
    mapped := ?_, nearData := ?_, nearInj := ?_, nearSingly := ?_, deepData := ?_
    covered := ?_ }, hused, hsize, hnear, hsingly, hptr, hout⟩
  · intro c hc hlt
    rw [hsize] at hlt
    rw [hptr c hc]
    exact hmapped c hc hlt
  · intro x hx
    exact (h.nearData x ((hnear x).mp hx)).keeps hused
  · intro c hc e he h0 heq
    rw [hnearPtr c hc] at h0 heq
    rw [hnearPtr e he] at heq
    exact h.nearInj c hc e he h0 heq
  · intro c hc h0
    rw [hnearPtr c hc] at h0 ⊢
    rw [hsingly]
    exact h.nearSingly c hc h0
  · intro x hx
    rw [InodePlace.deep_same hdoubly hdeep] at hx
    rw [hnear]
    exact ⟨(h.deepData x hx).1.keeps hused, (h.deepData x hx).2⟩
  · intro c hc h0
    rw [hnearPtr c hc] at h0
    have hsec : P.sectors fs'.disk = P.sectors fs.disk := hfield _ (by decide)
    rw [hsec]
    exact h.covered c hc h0

/-! ## A whole write -/

/-- What a write of `count` bytes at `pos` did to the file and to the disk. -/
structure FileWritten (A : BlockAllocator) (P : InodePlace) (fs fs' : Ext2Fs) (pos count : Nat)
    (buf : Nat → UInt8) : Prop where
  size : P.size fs'.disk = max (P.size fs.disk) (pos + count)
  content : ∀ o < P.size fs'.disk, o / P.bs < P.reach → P.byte fs'.disk o =
    if pos ≤ o ∧ o < pos + count then buf (o - pos) else P.byte fs.disk o
  used : ∀ x, A.used fs x → A.used fs' x
  blocks : ∀ c < P.reach, KeptOrNew A fs (P.ptr fs.disk c) (P.ptr fs'.disk c)
  singly : KeptOrNew A fs (P.singly fs.disk) (P.singly fs'.disk)
  frame : ∀ a, a ∉ A.metadata → a / P.bs ≠ P.block → ¬ P.Near fs'.disk (a / P.bs) →
    fs'.disk a = fs.disk a

theorem FileOk.ptr_ne_block (h : FileOk A P n fs ino) {c : Nat} (hc : c < P.reach)
    (h0 : P.ptr fs.disk c ≠ 0) : P.ptr fs.disk c ≠ P.block := by
  rcases Nat.lt_or_ge c P.near with hn | hn
  · exact (h.nearData _ ⟨h0, .inr ⟨c, hn, rfl⟩⟩).notInode
  · exact (h.deepData _ ⟨h0, .inr (.inr ⟨c, hn, hc, rfl⟩)⟩).1.notInode

section Done

variable {fpos count m : Nat} {buf : Nat → UInt8} {st : WriteState}

/-- The file has the new bytes before its size is set. -/
theorem WrittenTo.content (hw : WrittenTo A P n ino fpos (fpos + count) buf fs st)
    (h : FileOk A P m fs ino) {o : Nat} (ho : o < max (P.size fs.disk) (fpos + count))
    (hreach : o / P.bs < P.reach) :
    P.ptr st.fs.disk (o / P.bs) ≠ 0 ∧ P.byte st.fs.disk o =
      if fpos ≤ o ∧ o < fpos + count then buf (o - fpos) else P.byte fs.disk o := by
  by_cases hin : fpos ≤ o ∧ o < fpos + count
  · rw [if_pos hin]
    exact ⟨hw.wrote.mapped o hin.1 hin.2, hw.wrote.inside o hin.1 hin.2⟩
  · have hsize : fpos ≤ P.size fs.disk := hw.wrote.size ▸ hw.size
    have h0 : P.ptr fs.disk (o / P.bs) ≠ 0 := by
      have hle : P.bs * (o / P.bs) ≤ o := Nat.mul_div_le _ _
      exact h.mapped _ hreach (by omega)
    rw [if_neg hin, (hw.wrote.ptr _ hreach).eq h0]
    exact ⟨h0, hw.wrote.outside o hreach h0 (by omega)⟩

/-- The end of `ext2_write_file`. -/
theorem writeDone_spec (hw : WrittenTo A P n ino fpos (fpos + count) buf fs st)
    (h : FileOk A P m fs ino) (hend : fpos + count < 2 ^ 31) {f : Ext2File} (hf : f.fpos = fpos) :
    ∃ (fs' : Ext2Fs) (f' : Ext2File),
      writeDone ino (fpos + count) f st = ((count : Int), fs', f') ∧
      FileOk A P n fs' ino ∧ FileWritten A P fs fs' fpos count buf ∧
      f'.fpos = fpos + count ∧ f'.inodeNo = f.inodeNo := by
  have hsync := hw.file.inodeAt.synced_reRead st.inode
  have hfield : le32 (reReadInode st.fs st.inode ino) inoSize = P.size st.fs.disk :=
    hsync.field (by decide)
  have htotal : st.total = count := by
    have := hw.total
    omega
  unfold writeDone
  dsimp only
  rw [hfield, htotal, hw.wrote.size]
  by_cases hgrow : fpos + count > P.size fs.disk
  · have hmapped : ∀ c < P.reach, P.bs * c < fpos + count → P.ptr st.fs.disk c ≠ 0 :=
      fun c _ hc => hw.file.ptr_mapped hw.wrote hw.size hc
    rw [if_pos hgrow, hw.file.inodeAt.writeInode_put32 hsync (by decide)]
    generalize hfs' : setDisk st.fs (put32 st.fs.disk (P.addr + inoSize) (fpos + count)) = fs'
    obtain ⟨hfile, hused, hsize, hnear, hsingly, hptr, hout⟩ :=
      hw.file.setSize (by omega) hmapped hfs'.symm
    have hmax : max (P.size fs.disk) (fpos + count) = fpos + count := max_eq_right hgrow.le
    refine ⟨fs', _, rfl, hfile, ⟨hsize.trans hmax.symm, ?_, ?_, ?_, ?_, ?_⟩, by rw [hf], rfl⟩
    · intro o ho hreach
      rw [hsize, ← hmax] at ho
      obtain ⟨h0, hbyte⟩ := hw.content h ho hreach
      have hbs := P.bs_ge
      rw [← hbyte, InodePlace.byte, InodePlace.byte, hptr _ hreach]
      apply hout
      rw [block_div (Nat.mod_lt _ (by omega))]
      exact hw.file.ptr_ne_block hreach h0
    · exact fun x hx => hused x (hw.wrote.used x hx)
    · intro c hc
      rw [hptr c hc]
      exact hw.wrote.ptr c hc
    · rw [hsingly]
      exact hw.wrote.singly
    · intro a hmeta hinode hfar
      rw [hnear] at hfar
      rw [hout a hinode, hw.wrote.frame a hmeta hinode hfar]
  · rw [if_neg hgrow]
    have hmax : max (P.size fs.disk) (fpos + count) = P.size fs.disk := max_eq_left (by omega)
    refine ⟨_, _, rfl, hw.file, ⟨?_, ?_, hw.wrote.used, hw.wrote.ptr, hw.wrote.singly,
      hw.wrote.frame⟩, by rw [hf], rfl⟩
    · exact hw.wrote.size.trans hmax.symm
    · intro o ho hreach
      rw [hw.wrote.size, ← hmax] at ho
      exact (hw.content h ho hreach).2

/-- One call of `ext2_write_file`. -/
theorem ext2WriteFile_spec {f : Ext2File} {junk : Nat → Nat → UInt8} (hino : 0 < f.inodeNo)
    (h : FileOk A P (n + 2 * ((f.fpos + count) / P.bs - f.fpos / P.bs + 1)) fs f.inodeNo.toNat)
    (hpos : f.fpos ≤ P.size fs.disk) (hcount : 0 < count) (hend : f.fpos + count < 2 ^ 31)
    (hnear : f.fpos + count ≤ P.bs * P.near) :
    ∃ (fs' : Ext2Fs) (f' : Ext2File),
      ext2WriteFile A.alloc junk fs f buf count = some ((count : Int), fs', f') ∧
      FileOk A P n fs' f.inodeNo.toNat ∧ FileWritten A P fs fs' f.fpos count buf ∧
      f'.fpos = f.fpos + count ∧ f'.inodeNo = f.inodeNo := by
  have hread : ∃ inode, ext2ReadInode fs (junk 0) f.inodeNo.toNat = some inode := by
    rw [ext2ReadInode, if_neg h.inodeAt.inoPos]
    exact ⟨_, rfl⟩
  obtain ⟨inode, hread⟩ := hread
  have hstart : WrittenTo A P (n + 2 * ((f.fpos + count) / P.bs - f.fpos / P.bs + 1))
      f.inodeNo.toNat f.fpos f.fpos buf fs ⟨fs, inode, junk 1, 0⟩ :=
    ⟨h, .refl (by omega), Nat.zero_add _, hpos⟩
  obtain ⟨st, heq, hw⟩ := writeBlocks_spec hcount hend hnear hstart
  obtain ⟨fs', f', hdone, hfile, hwritten, hrest⟩ := writeDone_spec hw h hend rfl
  refine ⟨fs', f', ?_, hfile, hwritten, hrest⟩
  unfold ext2WriteFile
  rw [if_neg hcount.ne', if_neg (by omega)]
  dsimp only
  rw [hread]
  dsimp only
  rw [h.inodeAt.blocksize, u32_of_lt (by omega), heq, Option.map_some]
  dsimp only
  rw [hdone]

end Done

end Levos.Fs
