import Levos.Fs.Ext2.WriteFile

/-!
# What a write leaves alone in the inode table

Eight and more inodes share a block. `ext2_write_inode` reads this block,
changes one inode in it and writes it back, so that the inodes beside it are
what they were: `Beside` says so of a step, and `ext2WriteFile_alone` of a whole
`ext2_write_file`.
-/

namespace Levos.Fs

open Levos.Base Levos.Kernel

/-- The bytes beside the inode in its block are what they were. -/
def Beside (A : BlockAllocator) (P : InodePlace) (fs fs' : Ext2Fs) : Prop :=
  ∀ a, a ∉ A.metadata → a / P.bs = P.block → (a < P.addr ∨ P.addr + P.inodesize ≤ a) →
    fs'.disk a = fs.disk a

variable {A : BlockAllocator} {P : InodePlace} {n ino b r : Nat} {fs fs' fs'' : Ext2Fs}
  {inode inode' buf : Nat → UInt8}

/-! ## Single steps -/

theorem Beside.refl (A : BlockAllocator) (P : InodePlace) (fs : Ext2Fs) : Beside A P fs fs :=
  fun _ _ _ _ => rfl

theorem Beside.trans (h : Beside A P fs fs') (h' : Beside A P fs' fs'') : Beside A P fs fs'' := by
  intro a hmeta hin hout
  rw [h' a hmeta hin hout, h a hmeta hin hout]

theorem FreshBlock.beside (h : FreshBlock A.metadata A.used fs fs' r) : Beside A P fs fs' :=
  fun a hmeta _ _ => h.disk a hmeta

theorem InodeAt.writeInode_beside (h : InodeAt P fs ino) (buf : Nat → UInt8) :
    Beside A P fs (ext2WriteInode fs buf ino) := by
  intro a _ _ hout
  rw [h.writeInode_eq]
  exact writeBytes_of_not_mem hout

/-- The inode is where it was. -/
theorem InodeAt.writeInode (h : InodeAt P fs ino) (buf : Nat → UInt8) :
    InodeAt P (ext2WriteInode fs buf ino) ino := by
  rw [h.writeInode_eq]
  refine h.congr ⟨rfl, rfl, rfl, rfl, rfl, rfl⟩ fun j hj => ?_
  apply writeBytes_of_not_mem
  by_contra hin
  rw [not_or, not_lt, not_le] at hin
  exact P.table_ne j hj (InodePlace.div_of_mem hin.1 hin.2)

theorem InodeAt.writeBlock_beside (h : InodeAt P fs ino) {x : Nat} (hx : x * P.spb < 2 ^ 32)
    (hne : x ≠ P.block) (buf : Nat → UInt8) : Beside A P fs (ext2WriteBlock fs buf x) := by
  intro a _ hin _
  rw [h.writeBlock_eq hx]
  exact setBlock_of_ne (hin ▸ hne.symm)

theorem DataBlock.write_beside {x : Nat} (h : DataBlock A P fs x) (hat : InodeAt P fs' ino)
    (buf : Nat → UInt8) : Beside A P fs' (ext2WriteBlock fs' buf x) :=
  hat.writeBlock_beside h.writable.lt h.notInode buf

/-! ## Adding a block -/

theorem makeSingly_beside (h : FsOk A P (n + 1) fs ino)
    (hrun : makeSingly A.alloc fs inode ino = some (fs', inode')) : Beside A P fs fs' := by
  unfold makeSingly at hrun
  split at hrun
  · obtain ⟨s, fs₁, heq, hfresh, hfs₁, -⟩ := h.alloc
    have hdata := h.fresh_data hfresh
    rw [heq] at hrun
    dsimp only at hrun
    rw [if_neg hfresh.pos.ne'] at hrun
    obtain ⟨rfl, -⟩ := Prod.mk.inj (Option.some.inj hrun)
    exact hfresh.beside.trans ((hfs₁.inodeAt.writeInode_beside _).trans
      (hdata.write_beside (hfs₁.inodeAt.writeInode _) _))
  · obtain ⟨rfl, -⟩ := Prod.mk.inj (Option.some.inj hrun)
    exact Beside.refl A P fs

theorem setBlockNumber_beside (h : FsOk A P (n + 1) fs ino) (hs : SinglyOk A P r fs)
    (hr : DataBlock A P fs r) (hsync : Synced P fs.disk inode) (hb : b < P.near)
    (hrun : setBlockNumber A.alloc fs inode ino b r = some (fs', inode')) : Beside A P fs fs' := by
  have hppb : ptrsPerBlock fs = P.ppb := by rw [ptrsPerBlock, h.inodeAt.blocksize, InodePlace.ppb]
  have hb' : b < 12 + P.ppb := hb
  unfold setBlockNumber at hrun
  by_cases h12 : b < 12
  · rw [if_pos h12] at hrun
    obtain ⟨rfl, -⟩ := Prod.mk.inj (Option.some.inj hrun)
    exact h.inodeAt.writeInode_beside _
  · obtain ⟨fs₁, inode₁, hmade, hfs₁, hsync₁, hs0, hs₁, -⟩ :=
      makeSingly_spec (b := b) h hs hr hsync
    have hfield : le32 inode₁ inoSinglyBlock = P.singly fs₁.disk := hsync₁.field (by decide)
    rw [if_neg h12, hppb, if_pos hb', hmade] at hrun
    dsimp only at hrun
    rw [hfield] at hrun
    obtain ⟨rfl, -⟩ := Prod.mk.inj (Option.some.inj hrun)
    exact (makeSingly_beside h hmade).trans ((hs₁ hs0).1.write_beside hfs₁.inodeAt _)

theorem allocateInodeBlock_beside (h : FsOk A P (n + 2) fs ino)
    (hs : P.singly fs.disk ≠ 0 → DataBlock A P fs (P.singly fs.disk))
    (hsync : Synced P fs.disk inode) (hb : b < P.near) {res : BlockResult}
    (hrun : allocateInodeBlock A.alloc fs inode ino b = some res) : Beside A P fs res.fs := by
  obtain ⟨r, fs₁, heq, hfresh, hfs₁, hsame⟩ := h.alloc
  have hdata := h.fresh_data hfresh
  have hinode := hsame _ h.writable_inode
  have hs₁ : SinglyOk A P r fs₁ := by
    intro hne
    have hsingly : P.singly fs₁.disk = P.singly fs.disk := InodePlace.field_same hinode (by decide)
    rw [hsingly] at hne ⊢
    exact ⟨(hs hne).keeps hfresh.keeps, fun hsr => hfresh.unused (hsr ▸ (hs hne).used)⟩
  obtain ⟨fs₂, inode₂, hset, hfs₂, -, -, -⟩ :=
    setBlockNumber_spec hfs₁ hs₁ hdata (hsync.of_same hinode) hb
  have hbeside := setBlockNumber_beside hfs₁ hs₁ hdata (hsync.of_same hinode) hb hset
  have hfs₃ : FsOk A P n (setDisk fs₂ (setBlock fs₂.disk P.bs r zeroBlock)) ino :=
    (hfs₂.write hdata.writable fun a ha => setBlock_of_ne ha).1
  unfold allocateInodeBlock at hrun
  rw [heq] at hrun
  dsimp only at hrun
  rw [if_neg hfresh.pos.ne', hset, Option.map_some] at hrun
  dsimp only at hrun
  obtain rfl := Option.some.inj hrun
  refine hfresh.beside.trans (hbeside.trans ((hdata.write_beside hfs₂.inodeAt zeroBlock).trans ?_))
  refine InodeAt.writeInode_beside ?_ _
  rw [hfs₂.inodeAt.writeBlock_eq hdata.writable.lt]
  exact hfs₃.inodeAt

theorem ext2InodeReadOrCreate_beside (h : FileOk A P (n + 2) fs ino) (hb : b < P.near)
    (hbelow : ∀ c < b, P.ptr fs.disk c ≠ 0) {res : BlockResult × (Nat → UInt8)}
    (hrun : ext2InodeReadOrCreate A.alloc fs ino inode b buf = some res) :
    Beside A P fs res.1.fs := by
  have hsync := h.inodeAt.synced_reRead inode
  have hsingly : P.singly fs.disk ≠ 0 → DataBlock A P fs (P.singly fs.disk) := fun hs0 =>
    h.nearData _ ⟨hs0, .inl rfl⟩
  unfold ext2InodeReadOrCreate at hrun
  dsimp only at hrun
  split at hrun
  · rw [ext2InodeAddBlock_eq h hb.le hbelow hsync] at hrun
    obtain ⟨res', hadd, rfl⟩ := Option.map_eq_some_iff.mp hrun
    exact allocateInodeBlock_beside h.toFsOk hsingly hsync hb hadd
  · obtain rfl := Option.some.inj hrun
    exact Beside.refl A P fs

/-! ## The parts of a write -/

/-- What every part of a write leaves alone: the bytes beside the inode, and
the doubly indirect block. -/
structure LeavesAlone (A : BlockAllocator) (P : InodePlace) (fs fs' : Ext2Fs) : Prop where
  beside : Beside A P fs fs'
  doubly : P.doubly fs'.disk = P.doubly fs.disk

theorem LeavesAlone.refl (A : BlockAllocator) (P : InodePlace) (fs : Ext2Fs) :
    LeavesAlone A P fs fs := ⟨Beside.refl A P fs, rfl⟩

theorem LeavesAlone.trans (h : LeavesAlone A P fs fs') (h' : LeavesAlone A P fs' fs'') :
    LeavesAlone A P fs fs'' := ⟨h.beside.trans h'.beside, h'.doubly.trans h.doubly⟩

theorem writeOneBlock_alone {st st' : WriteState} (h : FileOk A P (n + 2) st.fs ino)
    (hb : b < P.near) (hbelow : ∀ c < b, P.ptr st.fs.disk c ≠ 0) (ht : (b + 1) * P.spb < 2 ^ 32)
    {dst src len : Nat}
    (hrun : writeOneBlock A.alloc ino buf st b dst src len = some (.inr st')) :
    LeavesAlone A P st.fs st'.fs := by
  obtain ⟨r, fs₁, inode₁, buf₁, heq, hgot⟩ :=
    ext2InodeReadOrCreate_spec h hb hbelow ht st.inode st.buffer
  have halone := ext2InodeReadOrCreate_beside h hb hbelow heq
  unfold writeOneBlock at hrun
  rw [heq, Option.map_some] at hrun
  dsimp only at hrun
  rw [if_neg (by omega), Int.toNat_natCast] at hrun
  obtain rfl := Sum.inr.inj (Option.some.inj hrun)
  refine ⟨halone.trans (hgot.data.write_beside hgot.fsOk.inodeAt _), ?_⟩
  rw [hgot.fsOk.inodeAt.writeBlock_eq hgot.data.writable.lt, ← hgot.grows.doubly]
  exact InodePlace.field_same (SameBlock.setBlock hgot.data.notInode.symm) (by decide)

section Blocks

variable {fpos lo : Nat} {st st' : WriteState}

/-- The next part, as in `WrittenTo.next`. -/
theorem WrittenTo.next_alone {dst src len : Nat} (h : WrittenTo A P (n + 2) ino fpos lo buf fs st)
    (hlo : P.bs * b + dst = lo) (hb : b < P.near) (hend : P.bs * b < 2 ^ 31)
    (hrun : writeOneBlock A.alloc ino buf st b dst src len = some (.inr st')) :
    LeavesAlone A P st.fs st'.fs := by
  have hpos : 0 < P.bs := lt_of_lt_of_le (by norm_num) P.bs_ge
  refine writeOneBlock_alone h.file hb (fun c hc => ?_) (sector_lt hend) hrun
  have hmul : P.bs * c < P.bs * b := Nat.mul_lt_mul_of_pos_left hc hpos
  exact h.file.ptr_mapped h.wrote h.size (by omega)

theorem writeLoop_alone {e : Nat} (he : e ≤ P.near) (hend : P.bs * e < 2 ^ 31) :
    ∀ (m k : Nat) (st : WriteState), 0 < k → fpos / P.bs + k + m = e →
      WrittenTo A P (n + 2 * m) ino fpos (P.bs * (fpos / P.bs + k)) buf fs st →
      ∀ st', writeLoop A.alloc ino P.bs (fpos / P.bs) (fpos % P.bs) buf k m st = some (.inr st') →
        LeavesAlone A P st.fs st'.fs := by
  intro m
  induction m with
  | zero =>
    intro k st _ _ _ st' hrun
    obtain rfl := Sum.inr.inj (Option.some.inj hrun)
    exact LeavesAlone.refl A P st.fs
  | succ m ih =>
    intro k st hk0 hk h st' hrun
    have hbs := P.bs_ge
    have hmod : fpos % P.bs < P.bs := Nat.mod_lt _ (by omega)
    have hsplit := Nat.div_add_mod fpos P.bs
    have hmul : P.bs * (fpos / P.bs + k) = P.bs * (fpos / P.bs) + P.bs * k := Nat.mul_add _ _ _
    have hone : P.bs * 1 ≤ P.bs * k := Nat.mul_le_mul_left _ hk0
    have hle : P.bs * (fpos / P.bs + k) ≤ P.bs * e := Nat.mul_le_mul_left _ (by omega)
    have hsrc : P.bs * k - fpos % P.bs + fpos = P.bs * (fpos / P.bs + k) := by omega
    obtain ⟨st₁, heq₁, h₁⟩ :=
      h.next (Nat.add_zero _) hsrc (Nat.zero_add P.bs).le (by omega) (by omega)
    have hnext : P.bs * (fpos / P.bs + k) + P.bs = P.bs * (fpos / P.bs + (k + 1)) := by ring
    rw [hnext] at h₁
    have halone := h.next_alone (Nat.add_zero _) (by omega) (by omega) heq₁
    rw [writeLoop, if_neg hk0.ne', heq₁] at hrun
    exact halone.trans (ih (k + 1) st₁ (Nat.succ_pos k) (by omega) h₁ st' hrun)

theorem writeBlocks_alone {count : Nat} (hcount : 0 < count) (hend : fpos + count < 2 ^ 31)
    (hnear : fpos + count ≤ P.bs * P.near)
    (h : WrittenTo A P (n + 2 * ((fpos + count) / P.bs - fpos / P.bs + 1)) ino fpos fpos buf fs st)
    (hrun : writeBlocks A.alloc ino P.bs fpos (fpos + count) buf st = some (.inr st')) :
    LeavesAlone A P st.fs st'.fs := by
  have hbs := P.bs_ge
  have hmod : fpos % P.bs < P.bs := Nat.mod_lt _ (by omega)
  have hmod' : (fpos + count) % P.bs < P.bs := Nat.mod_lt _ (by omega)
  have hsplit := Nat.div_add_mod fpos P.bs
  have hsplit' := Nat.div_add_mod (fpos + count) P.bs
  have hle : fpos / P.bs ≤ (fpos + count) / P.bs := Nat.div_le_div_right (Nat.le_add_right _ _)
  unfold writeBlocks at hrun
  dsimp only at hrun
  by_cases hone : fpos / P.bs = (fpos + count) / P.bs
  · rw [if_pos hone] at hrun
    rw [← hone, Nat.sub_self] at h
    have hb : fpos / P.bs < P.near := Nat.div_lt_of_lt_mul (by omega)
    exact h.next_alone hsplit hb (by omega) hrun
  · rw [if_neg hone] at hrun
    obtain ⟨m, hm⟩ := Nat.exists_eq_add_of_le (Nat.succ_le_of_lt (lt_of_le_of_ne hle hone))
    have hblocks : (fpos + count) / P.bs - fpos / P.bs = m + 1 := by omega
    have hsum : (fpos + count) / P.bs = fpos / P.bs + (m + 1) := by omega
    have hmul : P.bs * ((fpos + count) / P.bs) = P.bs * (fpos / P.bs) + P.bs * (m + 1) := by
      rw [hsum, Nat.mul_add]
    have hmul' : P.bs * (m + 1) = P.bs * m + P.bs := Nat.mul_succ _ _
    have hfar : (fpos + count) / P.bs ≤ P.near := Nat.div_le_of_le_mul hnear
    rw [hblocks] at h hrun
    have hfirst : fpos % P.bs + (P.bs - fpos % P.bs) ≤ P.bs := by omega
    rw [show n + 2 * (m + 1 + 1) = n + 2 + 2 * m + 2 by ring] at h
    obtain ⟨st₁, heq₁, h₁⟩ := h.next hsplit (Nat.zero_add _) hfirst (by omega) (by omega)
    have halone₁ := h.next_alone hsplit (by omega) (by omega) heq₁
    rw [show fpos + (P.bs - fpos % P.bs) = P.bs * (fpos / P.bs + 1) by rw [Nat.mul_succ]; omega] at h₁
    obtain ⟨st₂, heq₂, h₂⟩ := writeLoop_spec hfar (by omega) m 1 st₁ Nat.one_pos (by omega) h₁
    have halone₂ :=
      writeLoop_alone hfar (by omega) m 1 st₁ Nat.one_pos (by omega) h₁ st₂ heq₂
    rw [writeLoop, if_pos rfl, heq₁, Option.bind_some] at hrun
    dsimp only at hrun
    rw [heq₂, Option.bind_some] at hrun
    dsimp only at hrun
    split at hrun
    · have hb : (fpos + count) / P.bs < P.near := by
        have hlast : (fpos + count) % P.bs ≠ 0 := by
          have hmulc := Nat.mul_comm ((fpos + count) / P.bs) P.bs
          omega
        have hlt : P.bs * ((fpos + count) / P.bs) < P.bs * P.near := by omega
        exact Nat.lt_of_mul_lt_mul_left hlt
      exact halone₁.trans (halone₂.trans
        (h₂.next_alone (Nat.add_zero _) hb (by omega) hrun))
    · obtain rfl := Sum.inr.inj (Option.some.inj hrun)
      exact halone₁.trans halone₂

end Blocks

/-! ## A whole write -/

theorem writeDone_alone {fileEnd : Nat} {st : WriteState} (h : InodeAt P st.fs ino) (f : Ext2File) :
    LeavesAlone A P st.fs (writeDone ino fileEnd f st).2.1 := by
  have hsync := h.synced_reRead st.inode
  unfold writeDone
  dsimp only
  split
  · refine ⟨h.writeInode_beside _, ?_⟩
    rw [h.writeInode_put32 hsync (by decide)]
    exact P.field_put32_of_ne _ (by decide)
  · exact LeavesAlone.refl A P st.fs

/-- **The inodes beside it.** A write changes no byte of the block of its inode
but those of the inode, and of these not the doubly indirect block. -/
theorem ext2WriteFile_alone {f f' : Ext2File} {junk : Nat → Nat → UInt8} {count : Nat} {ret : Int}
    (hino : 0 < f.inodeNo)
    (h : FileOk A P (n + 2 * ((f.fpos + count) / P.bs - f.fpos / P.bs + 1)) fs f.inodeNo.toNat)
    (hpos : f.fpos ≤ P.size fs.disk) (hcount : 0 < count) (hend : f.fpos + count < 2 ^ 31)
    (hnear : f.fpos + count ≤ P.bs * P.near)
    (hrun : ext2WriteFile A.alloc junk fs f buf count = some (ret, fs', f')) :
    LeavesAlone A P fs fs' := by
  obtain ⟨inode, hread⟩ : ∃ inode, ext2ReadInode fs (junk 0) f.inodeNo.toNat = some inode := by
    rw [ext2ReadInode, if_neg h.inodeAt.inoPos]
    exact ⟨_, rfl⟩
  have hstart : WrittenTo A P (n + 2 * ((f.fpos + count) / P.bs - f.fpos / P.bs + 1))
      f.inodeNo.toNat f.fpos f.fpos buf fs ⟨fs, inode, junk 1, 0⟩ :=
    ⟨h, .refl (by omega), Nat.zero_add _, hpos⟩
  obtain ⟨st, heq, hw⟩ := writeBlocks_spec hcount hend hnear hstart
  have hblocks := writeBlocks_alone hcount hend hnear hstart heq
  unfold ext2WriteFile at hrun
  rw [if_neg hcount.ne', if_neg (by omega)] at hrun
  dsimp only at hrun
  rw [hread] at hrun
  dsimp only at hrun
  rw [h.inodeAt.blocksize, u32_of_lt (by omega), heq, Option.map_some] at hrun
  have hfs' : (writeDone f.inodeNo.toNat (f.fpos + count) f st).2.1 = fs' :=
    congrArg (fun r => r.2.1) (Option.some.inj hrun)
  rw [← hfs']
  exact hblocks.trans (writeDone_alone hw.file.inodeAt f)

end Levos.Fs
