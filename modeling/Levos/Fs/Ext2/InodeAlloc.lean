import Levos.Fs.Ext2.BlockAlloc

/-!
# `ext2_alloc_inode` keeps its promise

What the code for directories relies on: a call gives the number of a free
inode and takes it, or fails, when there is none, and changes nothing. On the
filesystems on which `ext2_alloc_block` is a `BlockAllocator`,
`ext2_alloc_inode` is an `InodeAllocator` beside it, with the same metadata.
-/

namespace Levos.Fs

open Levos.Base Levos.Kernel

/-- What a call does when it gives inode `k`. -/
structure FreshInode (A : BlockAllocator) (free : Ext2Fs → Nat → Prop) (fs fs' : Ext2Fs) (k : Nat) :
    Prop where
  was : free fs k
  taken : ¬ free fs' k
  others : ∀ l, free fs' l → free fs l
  used : ∀ x, A.used fs x → A.used fs' x
  geometry : SameGeometry fs fs'
  disk : ∀ a, a ∉ A.metadata → fs'.disk a = fs.disk a
  tables : ∀ ino, 32 * ((ino - 1) / le32 fs.sb sbInodesInBlockgroup) + 32 ≤ fs.blocksize →
    ∀ j < 4, fs'.disk (tableField fs ino + j) = fs.disk (tableField fs ino + j)
  changed : fs'.disk ≠ fs.disk

/-- `ext2_alloc_inode` as the code for directories relies on it. -/
structure InodeAllocator (A : BlockAllocator) where
  alloc : Ext2Fs → Int × Ext2Fs
  free : Ext2Fs → Nat → Prop
  alloc_fresh : ∀ {n fs}, A.room n fs →
    ((alloc fs).1 < 0 ∧ (alloc fs).2 = fs ∧ ∀ k, ¬ free fs k) ∨
      ∃ k : Nat, (alloc fs).1 = k ∧ FreshInode A free fs (alloc fs).2 k ∧ A.room n (alloc fs).2
  frame : ∀ {n fs d}, A.room n fs → (∀ a ∈ A.metadata, d a = fs.disk a) →
    ∀ k, free (setDisk fs d) k ↔ free fs k

/-- An inode whose bit is clear. -/
def FreeInode (fs : Ext2Fs) (k : Nat) : Prop :=
  ∃ g bit, g < fs.numberOfBgs ∧ bit < perGroup fs .inode ∧ k = g * perGroup fs .inode + bit + 1 ∧
    groupBit fs .inode g bit = false

/-- The allocator with memory for its buffers. -/
def allocInode (fs : Ext2Fs) : Int × Ext2Fs := (ext2AllocInode (fun _ => true) fs).getD (-1, fs)

variable {groups n g bit : Nat} {fs fs₀ fs' : Ext2Fs}

/-- The block bitmaps are not the inode bitmaps. -/
theorem Allocated.freeBlock_inode (hA : Allocated .inode g bit fs fs')
    (hc : Ext2Consistent groups fs) (hg : g < groups) (hbit : bit < perGroup fs .inode) {x : Nat}
    (hx : FreeBlock fs' x) : FreeBlock fs x := by
  obtain ⟨g', bit', hg', hbit', rfl, hclear⟩ := hx
  rw [hA.numberOfBgs] at hg'
  rw [hA.perGroup_eq hc hg hbit] at hbit' ⊢
  rw [hA.groupBit_eq hc hg hbit .block (hg'.trans_le hc.number) (hbit'.trans_le (hc.bits _)),
    Bool.or_eq_false_iff] at hclear
  exact ⟨g', bit', hg', hbit', rfl, hclear.1⟩

theorem Allocated.freeBlocks_inode (hA : Allocated .inode g bit fs fs')
    (hc : Ext2Consistent groups fs) (hg : g < groups) (hbit : bit < perGroup fs .inode) :
    freeBlocks fs' = freeBlocks fs := by
  rw [freeBlocks, freeBlocks, hA.numberOfBgs]
  refine Finset.sum_congr rfl fun x hx => ?_
  exact hA.groupCounter_of_ne hc hg hbit ((Finset.mem_range.mp hx).trans_le hc.number) (by simp)

theorem Allocated.freeInode (hA : Allocated .inode g bit fs fs') (hc : Ext2Consistent groups fs)
    (hg : g < groups) (hbit : bit < perGroup fs .inode) {k : Nat} (hk : FreeInode fs' k) :
    FreeInode fs k ∧ k ≠ g * perGroup fs .inode + bit + 1 := by
  obtain ⟨g', bit', hg', hbit', rfl, hclear⟩ := hk
  rw [hA.numberOfBgs] at hg'
  rw [hA.perGroup_eq hc hg hbit] at hbit' ⊢
  rw [hA.groupBit_eq hc hg hbit .inode (hg'.trans_le hc.number) (hbit'.trans_le (hc.bits _)),
    Bool.or_eq_false_iff, decide_eq_false_iff_not] at hclear
  refine ⟨⟨g', bit', hg', hbit', rfl, hclear.1⟩, fun heq => hclear.2 ?_⟩
  obtain ⟨rfl, rfl⟩ := id_inj hbit' hbit (by exact_mod_cast heq)
  exact ⟨rfl, rfl, rfl⟩

/-- A counter counts one less, so the disk is another one. -/
theorem Allocated.disk_ne {k : AllocKind} (hA : Allocated k g bit fs fs') : fs'.disk ≠ fs.disk := by
  intro heq
  have hcounter := hA.counter
  rw [groupCounter, groupCounter, heq] at hcounter
  omega

theorem allocInode_spec (h : AllocRoom groups fs₀ n fs) :
    ((allocInode fs).1 < 0 ∧ (allocInode fs).2 = fs ∧ ∀ k, ¬ FreeInode fs k) ∨
      ∃ k : Nat, (allocInode fs).1 = k ∧
        FreshInode (ext2BlockAllocator groups fs₀) FreeInode fs (allocInode fs).2 k ∧
        AllocRoom groups fs₀ n (allocInode fs).2 := by
  have hc := h.consistent
  obtain ⟨r, fs', heq, hout, hfull⟩ := ext2Alloc_spec hc .inode fun _ => true
  have hmount := allocLoop_mount heq
  rw [allocInode, ext2AllocInode, heq, Option.getD_some]
  rcases hout with ⟨hneg, rfl⟩ | ⟨g, bit, hg, hbit, hclear, rfl, hA⟩
  · refine .inl ⟨hneg, rfl, ?_⟩
    rintro k ⟨g, bit, hg, hbit, -, hclear⟩
    have hzero := hfull (fun _ => rfl) hneg g hg
    rw [hc.counter _ g (hg.trans_le hc.number)] at hzero
    have hpos : 0 < clearBits (groupBit fs' .inode g) (perGroup fs' .inode) :=
      clearBits_pos.mpr ⟨bit, hbit, hclear⟩
    omega
  · have hgg : g < groups := hg.trans_le hc.number
    have hkept := h.kept hA hgg hbit hclear hmount
    refine .inr ⟨g * perGroup fs .inode + bit + 1, by push_cast; rfl, ?_, ?_⟩
    · exact ⟨⟨g, bit, hg, hbit, rfl, hclear⟩,
        fun hfree => (hA.freeInode hc hgg hbit hfree).2 rfl,
        fun l hl => (hA.freeInode hc hgg hbit hl).1,
        fun x hx hfree => hx (hA.freeBlock_inode hc hgg hbit hfree),
        hkept.geometry, hkept.disk, hkept.tables, hA.disk_ne⟩
    · refine hkept.room n ?_
      rw [hA.freeBlocks_inode hc hgg hbit]
      exact h.free

/-- `ext2_alloc_inode` on the filesystems with the bitmaps of `fs₀`. -/
def ext2InodeAllocator (groups : Nat) (fs₀ : Ext2Fs) :
    InodeAllocator (ext2BlockAllocator groups fs₀) where
  alloc := allocInode
  free := FreeInode
  alloc_fresh := allocInode_spec
  frame := by
    intro n fs d h hd k
    change ∀ a ∈ allocMetadata groups fs₀, d a = fs.disk a at hd
    rw [← h.metadata_eq] at hd
    have hc := h.consistent
    have hper : perGroup (setDisk fs d) .inode = perGroup fs .inode := sbField_frame hd (by decide)
    refine exists_congr fun g => exists_congr fun bit => and_congr_right fun hg => ?_
    rw [hper]
    refine and_congr_right fun hbit => and_congr_right fun _ => ?_
    rw [groupBit_frame hc hd .inode (hg.trans_le hc.number) (hbit.trans_le (hc.bits _))]

end Levos.Fs
