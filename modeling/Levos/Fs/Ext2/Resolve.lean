import Levos.Fs.Ext2.ReadFile

/-!
# Four ways to a block (`fs/ext2/inode.c`, `fs/ext2/file.c`)

`ext2_inode_get_block`, `ext2_file_read_block`, `ext2_write_file_block` and
`set_block_number` each compute anew where the number of a logical block is
kept: in the inode, or in entry `i` of index block `t`. Index block 0 is the
singly indirect one, and index block `t + 1` has its number in entry `t` of the
doubly indirect one.
-/

namespace Levos.Fs

open Levos.Base Levos.Kernel

/-- `ext2_write_file_block`; `none` is the panic on triply indirect blocks. -/
def ext2WriteFileBlock (fs : Ext2Fs) (inode : Nat → UInt8) (b : Nat) (buf : Nat → UInt8) :
    Option (Int × Ext2Fs) :=
  let p := ptrsPerBlock fs
  if b < 12 then some (0, ext2WriteBlock fs buf (le32 inode (inoDbp + 4 * b)))
  else if b < 12 + p then
    some (0, ext2WriteBlock fs buf (tableEntry fs (le32 inode inoSinglyBlock) (b - 12)))
  else if b < 12 + p + p * p then
    let B := b - 12 - p
    let C := B / p
    let D := B - C * p
    let nblock := tableEntry fs (le32 inode inoDoublyBlock) C
    some (0, ext2WriteBlock fs buf (tableEntry fs nblock D))
  else none

/-! ## Slots -/

/-- A place for a block number: one of the twelve in the inode, or an entry of
an index block. -/
inductive Slot where
  | inode (i : Nat)
  | block (x i : Nat)

namespace Slot

/-- The block number that is there. -/
def value (fs : Ext2Fs) (inode : Nat → UInt8) : Slot → Nat
  | .inode i => le32 inode (inoDbp + 4 * i)
  | .block x i => tableEntry fs x i

/-- Store a block number there. -/
def assign (fs : Ext2Fs) (inode : Nat → UInt8) (ino rblock : Nat) :
    Slot → Ext2Fs × (Nat → UInt8)
  | .inode i =>
      let inode := put32 inode (inoDbp + 4 * i) rblock
      (ext2WriteInode fs inode ino, inode)
  | .block x i => (ext2WriteBlock fs (put32 (ext2ReadBlock fs x) (4 * i) rblock) x, inode)

end Slot

/-- The field of the inode through which index block `t` is found. -/
def indexRoot (inode : Nat → UInt8) (t : Nat) : Nat :=
  if t = 0 then le32 inode inoSinglyBlock else le32 inode inoDoublyBlock

/-- The number of index block `t`. -/
def indexBlock (fs : Ext2Fs) (inode : Nat → UInt8) (t : Nat) : Nat :=
  if t = 0 then le32 inode inoSinglyBlock else tableEntry fs (le32 inode inoDoublyBlock) (t - 1)

/-- The slot of a logical block. -/
def slotOf (fs : Ext2Fs) (inode : Nat → UInt8) (b : Nat) : Slot :=
  if b < 12 then .inode b
  else .block (indexBlock fs inode ((b - 12) / ptrsPerBlock fs)) ((b - 12) % ptrsPerBlock fs)

/-- `ext2_inode_get_block` finds a block. -/
def Resolved (fs : Ext2Fs) (inode : Nat → UInt8) (b : Nat) : Prop :=
  b < 12 + ptrsPerBlock fs + ptrsPerBlock fs * ptrsPerBlock fs ∧ 0 < ext2InodeGetBlock fs inode b

/-- The four functions agree on a logical block: what is read and what is
written is the block that `ext2_inode_get_block` finds, and the slot that is
assigned is the one with its number, without any change beside it. -/
structure ResolversAgree (fs : Ext2Fs) (inode : Nat → UInt8) (b : Nat) : Prop where
  slot : ((slotOf fs inode b).value fs inode : Int) = ext2InodeGetBlock fs inode b
  read : ∀ (ino : Int) (buf : Nat → UInt8), 0 ≤ ino → ext2FileReadBlock fs ino inode buf b =
    (0, writeBytes buf 0 fs.blocksize (ext2ReadBlock fs (ext2InodeGetBlock fs inode b).toNat))
  write : ∀ buf : Nat → UInt8, ext2WriteFileBlock fs inode b buf =
    some (0, ext2WriteBlock fs buf (ext2InodeGetBlock fs inode b).toNat)
  set : ∀ (alloc : Ext2Fs → Int × Ext2Fs) (ino rblock : Nat),
    setBlockNumber alloc fs inode ino b rblock =
      some ((slotOf fs inode b).assign fs inode ino rblock)

/-- An index block that leads to a block. -/
def TableUsed (fs : Ext2Fs) (inode : Nat → UInt8) (t : Nat) : Prop :=
  (t ≠ 0 → indexBlock fs inode t ≠ 0) ∧
    ∃ i < ptrsPerBlock fs, 0 < i32 (tableEntry fs (indexBlock fs inode t) i)

/-- No block is found through block 0 in the place of an indirect block that
the inode does not have, and no index block is used twice. -/
structure IndexBlocksOk (fs : Ext2Fs) (inode : Nat → UInt8) : Prop where
  root : ∀ t ≤ ptrsPerBlock fs, TableUsed fs inode t → indexRoot inode t ≠ 0
  apart : ∀ t ≤ ptrsPerBlock fs, ∀ u ≤ ptrsPerBlock fs, TableUsed fs inode t →
    TableUsed fs inode u → indexBlock fs inode t = indexBlock fs inode u → t = u

/-! ## Blocks and slots -/

section Slots

variable {fs : Ext2Fs} {inode : Nat → UInt8} {b : Nat}

theorem table_le (h12 : 12 ≤ b)
    (hb : b < 12 + ptrsPerBlock fs + ptrsPerBlock fs * ptrsPerBlock fs) :
    0 < ptrsPerBlock fs ∧ (b - 12) / ptrsPerBlock fs ≤ ptrsPerBlock fs := by
  have hpos : 0 < ptrsPerBlock fs := by
    by_contra h0
    rw [Nat.eq_zero_of_not_pos h0] at hb
    omega
  refine ⟨hpos, ?_⟩
  rw [← Nat.lt_succ_iff, Nat.div_lt_iff_lt_mul hpos, Nat.succ_mul]
  omega

/-- Behind the direct and the singly indirect blocks. -/
theorem table_doubly (h12 : 12 ≤ b)
    (hb : b < 12 + ptrsPerBlock fs + ptrsPerBlock fs * ptrsPerBlock fs)
    (hn : ¬ b < 12 + ptrsPerBlock fs) :
    (b - 12) / ptrsPerBlock fs ≠ 0 ∧
      (b - 12 - ptrsPerBlock fs) / ptrsPerBlock fs = (b - 12) / ptrsPerBlock fs - 1 ∧
      (b - 12 - ptrsPerBlock fs) % ptrsPerBlock fs = (b - 12) % ptrsPerBlock fs := by
  have hpos := (table_le h12 hb).1
  have hle : ptrsPerBlock fs ≤ b - 12 := by omega
  rw [Nat.div_eq_sub_div hpos hle, Nat.mod_eq_sub_mod hle]
  exact ⟨Nat.succ_ne_zero _, (Nat.add_sub_cancel _ _).symm, rfl⟩

theorem slotOf_value (hb : b < 12 + ptrsPerBlock fs + ptrsPerBlock fs * ptrsPerBlock fs) :
    (slotOf fs inode b).value fs inode = rawBlock fs inode b := by
  rw [slotOf, rawBlock, logicalBlock]
  by_cases h12 : b < 12
  · rw [if_pos h12, if_pos h12]
    rfl
  rw [if_neg h12, if_neg h12]
  by_cases hn : b < 12 + ptrsPerBlock fs
  · have hlt : b - 12 < ptrsPerBlock fs := by omega
    rw [if_pos hn, indexPath_one, Nat.div_eq_of_lt hlt, Nat.mod_eq_of_lt hlt]
    rfl
  · obtain ⟨ht, hdiv, hmod⟩ := table_doubly (not_lt.mp h12) hb hn
    rw [if_neg hn, if_pos hb, indexPath_two, hdiv, hmod, indexBlock, if_neg ht]
    rfl

theorem getBlock_table (h12 : 12 ≤ b)
    (hb : b < 12 + ptrsPerBlock fs + ptrsPerBlock fs * ptrsPerBlock fs) :
    ext2InodeGetBlock fs inode b =
      if (b - 12) / ptrsPerBlock fs ≠ 0 ∧ indexBlock fs inode ((b - 12) / ptrsPerBlock fs) = 0 then
        -1
      else i32 ((slotOf fs inode b).value fs inode) := by
  rw [slotOf, if_neg (not_lt.mpr h12)]
  unfold ext2InodeGetBlock
  dsimp only
  rw [if_neg (not_lt.mpr h12)]
  by_cases hn : b < 12 + ptrsPerBlock fs
  · have hlt : b - 12 < ptrsPerBlock fs := by omega
    rw [if_pos hn, Nat.div_eq_of_lt hlt, Nat.mod_eq_of_lt hlt, if_neg (fun h => h.1 rfl)]
    rfl
  · obtain ⟨ht, hdiv, hmod⟩ := table_doubly h12 hb hn
    rw [if_neg hn, if_pos hb, hdiv, hmod, indexBlock, if_neg ht]
    simp only [ne_eq, ht, not_false_eq_true, true_and]
    rfl

theorem Slot.value_lt (s : Slot) : s.value fs inode < 2 ^ 32 := by
  cases s with
  | inode i => exact le32_lt _ _
  | block x i => exact le32_lt _ _

/-- What `ext2_inode_get_block` finds is in the slot. -/
theorem Resolved.value (h : Resolved fs inode b) :
    ext2InodeGetBlock fs inode b = (slotOf fs inode b).value fs inode := by
  have hpos := h.2
  by_cases h12 : b < 12
  · have hget : ext2InodeGetBlock fs inode b = i32 ((slotOf fs inode b).value fs inode) := by
      rw [ext2InodeGetBlock, slotOf, if_pos h12, if_pos h12]
      rfl
    rw [hget] at hpos ⊢
    exact i32_of_pos (Slot.value_lt _) hpos
  · rw [getBlock_table (not_lt.mp h12) h.1] at hpos ⊢
    split at hpos
    · exact absurd hpos (by norm_num)
    · next hmiss =>
        rw [if_neg hmiss]
        exact i32_of_pos (Slot.value_lt _) hpos

/-- A block behind the first twelve is found through its index block. -/
theorem resolved_iff (h12 : 12 ≤ b)
    (hb : b < 12 + ptrsPerBlock fs + ptrsPerBlock fs * ptrsPerBlock fs) :
    Resolved fs inode b ↔
      ((b - 12) / ptrsPerBlock fs ≠ 0 → indexBlock fs inode ((b - 12) / ptrsPerBlock fs) ≠ 0) ∧
        0 < i32 (tableEntry fs (indexBlock fs inode ((b - 12) / ptrsPerBlock fs))
          ((b - 12) % ptrsPerBlock fs)) := by
  have hslot : (slotOf fs inode b).value fs inode =
      tableEntry fs (indexBlock fs inode ((b - 12) / ptrsPerBlock fs))
        ((b - 12) % ptrsPerBlock fs) := by
    rw [slotOf, if_neg (not_lt.mpr h12)]
    rfl
  rw [Resolved, and_iff_right hb, getBlock_table h12 hb, hslot]
  split
  · next hmiss => exact iff_of_false (by norm_num) fun h => h.1 hmiss.1 hmiss.2
  · next hmiss => exact (and_iff_right fun ht h0 => hmiss ⟨ht, h0⟩).symm

theorem Resolved.used (h : Resolved fs inode b) (h12 : 12 ≤ b) :
    TableUsed fs inode ((b - 12) / ptrsPerBlock fs) := by
  obtain ⟨hmiss, hentry⟩ := (resolved_iff h12 h.1).mp h
  exact ⟨hmiss, _, Nat.mod_lt _ (table_le h12 h.1).1, hentry⟩

/-- The logical block of an entry of an index block. -/
theorem resolved_entry (inode : Nat → UInt8) {t i : Nat} (ht : t ≤ ptrsPerBlock fs)
    (hi : i < ptrsPerBlock fs) :
    (Resolved fs inode (12 + (ptrsPerBlock fs * t + i)) ↔
      (t ≠ 0 → indexBlock fs inode t ≠ 0) ∧ 0 < i32 (tableEntry fs (indexBlock fs inode t) i)) ∧
    slotOf fs inode (12 + (ptrsPerBlock fs * t + i)) = .block (indexBlock fs inode t) i := by
  have hle := Nat.mul_le_mul_left (ptrsPerBlock fs) ht
  have hres : Resolved fs inode (12 + (ptrsPerBlock fs * t + i)) ↔ _ :=
    resolved_iff (Nat.le_add_right _ _) (by omega)
  rw [Nat.add_sub_cancel_left, block_div hi, block_mod hi] at hres
  refine ⟨hres, ?_⟩
  rw [slotOf, if_neg (by omega), Nat.add_sub_cancel_left, block_div hi, block_mod hi]

/-! ## Where they agree -/

theorem ext2WriteFileBlock_eq (buf : Nat → UInt8)
    (hb : b < 12 + ptrsPerBlock fs + ptrsPerBlock fs * ptrsPerBlock fs) :
    ext2WriteFileBlock fs inode b buf = some (0, ext2WriteBlock fs buf (rawBlock fs inode b)) := by
  unfold ext2WriteFileBlock rawBlock logicalBlock
  dsimp only
  split_ifs
  · rfl
  · rw [indexPath_one]
    rfl
  · rw [indexPath_two, ← Nat.mod_eq_sub_div_mul]
    rfl

/-- With the index blocks there, nothing is allocated on the way. -/
theorem setBlockNumber_eq (h : Resolved fs inode b)
    (hroot : 12 ≤ b → indexRoot inode ((b - 12) / ptrsPerBlock fs) ≠ 0)
    (alloc : Ext2Fs → Int × Ext2Fs) (ino rblock : Nat) :
    setBlockNumber alloc fs inode ino b rblock =
      some ((slotOf fs inode b).assign fs inode ino rblock) := by
  unfold setBlockNumber
  dsimp only
  rw [slotOf]
  by_cases h12 : b < 12
  · rw [if_pos h12, if_pos h12]
    rfl
  have hroot := hroot (not_lt.mp h12)
  rw [if_neg h12, if_neg h12]
  by_cases hn : b < 12 + ptrsPerBlock fs
  · have hlt : b - 12 < ptrsPerBlock fs := by omega
    rw [Nat.div_eq_of_lt hlt, indexRoot, if_pos rfl] at hroot
    have hmake : makeSingly alloc fs inode ino = some (fs, inode) := if_neg hroot
    rw [if_pos hn, hmake, Nat.div_eq_of_lt hlt, Nat.mod_eq_of_lt hlt]
    rfl
  · obtain ⟨ht, hdiv, hmod⟩ := table_doubly (not_lt.mp h12) h.1 hn
    have hnext := ((resolved_iff (not_lt.mp h12) h.1).mp h).1 ht
    rw [indexRoot, if_neg ht] at hroot
    rw [indexBlock, if_neg ht] at hnext ⊢
    have hnext' : le32 (ext2ReadBlock fs (le32 inode inoDoublyBlock))
        (4 * ((b - 12) / ptrsPerBlock fs - 1)) ≠ 0 := hnext
    rw [if_neg hn, if_pos h.1, hdiv, hmod, if_neg hroot]
    dsimp only
    rw [if_neg hnext']
    rfl

/-- Where an indirect block is missing, `set_block_number` makes one. -/
theorem setBlockNumber_makes (h12 : 12 ≤ b)
    (hb : b < 12 + ptrsPerBlock fs + ptrsPerBlock fs * ptrsPerBlock fs)
    (hroot : indexRoot inode ((b - 12) / ptrsPerBlock fs) = 0) :
    (setBlockNumber (fun fs => (1, fs)) fs inode 1 b 0).map
      (fun r => indexRoot r.2 ((b - 12) / ptrsPerBlock fs)) = some 1 := by
  have hone : allocBlockNo (fun fs => (1, fs)) fs = (1, fs) := rfl
  unfold setBlockNumber
  dsimp only
  rw [if_neg (not_lt.mpr h12)]
  by_cases hn : b < 12 + ptrsPerBlock fs
  · have hlt : b - 12 < ptrsPerBlock fs := by omega
    rw [Nat.div_eq_of_lt hlt, indexRoot, if_pos rfl] at hroot
    rw [if_pos hn, makeSingly, if_pos hroot, hone, Nat.div_eq_of_lt hlt]
    exact congrArg some (le32_put32 _ _ (by norm_num))
  · obtain ⟨ht, -, -⟩ := table_doubly h12 hb hn
    rw [indexRoot, if_neg ht] at hroot
    have hfield : le32 (put32 inode inoDoublyBlock 1) inoDoublyBlock = 1 :=
      le32_put32 _ _ (by norm_num)
    have hmade : ∀ inode', le32 inode' inoDoublyBlock = 1 →
        indexRoot inode' ((b - 12) / ptrsPerBlock fs) = 1 := fun inode' h => by
      rw [indexRoot, if_neg ht, h]
    rw [if_neg hn, if_pos hb, if_pos hroot, hone]
    dsimp only
    rw [if_neg one_ne_zero]
    dsimp only
    split_ifs
    all_goals exact congrArg some (hmade _ hfield)

theorem resolversAgree_iff (h : Resolved fs inode b) :
    ResolversAgree fs inode b ↔ (12 ≤ b → indexRoot inode ((b - 12) / ptrsPerBlock fs) ≠ 0) := by
  have hvalue := h.value
  constructor
  · intro hagree h12 hroot
    have hmakes := setBlockNumber_makes h12 h.1 hroot
    rw [hagree.set, slotOf, if_neg (not_lt.mpr h12)] at hmakes
    have hzero : indexRoot inode ((b - 12) / ptrsPerBlock fs) = 1 := Option.some.inj hmakes
    exact absurd (hroot.symm.trans hzero) (by norm_num)
  · intro hroot
    refine ⟨hvalue.symm, fun ino buf hino => ?_, fun buf => ?_, setBlockNumber_eq h hroot⟩
    · rw [hvalue, Int.toNat_natCast, slotOf_value h.1]
      exact ext2FileReadBlock_eq hino (Nat.lt_add_right _ h.1)
    · rw [hvalue, Int.toNat_natCast, slotOf_value h.1]
      exact ext2WriteFileBlock_eq buf h.1

/-- **The four ways.** For all blocks that `ext2_inode_get_block` finds, the
four functions agree and the slots are different, exactly when none of them is
found through block 0 and no index block is used twice. -/
theorem resolvers_agree_iff (fs : Ext2Fs) (inode : Nat → UInt8) :
    ((∀ b, Resolved fs inode b → ResolversAgree fs inode b) ∧
      ∀ b c, Resolved fs inode b → Resolved fs inode c → slotOf fs inode b = slotOf fs inode c →
        b = c) ↔ IndexBlocksOk fs inode := by
  constructor
  · rintro ⟨hagree, hslots⟩
    refine ⟨fun t ht hused => ?_, fun t ht u hu hused hused' heq => ?_⟩
    · obtain ⟨hmiss, i, hi, hentry⟩ := hused
      have hres := (resolved_entry inode ht hi).1.mpr ⟨hmiss, hentry⟩
      have hroot := (resolversAgree_iff hres).mp (hagree _ hres) (Nat.le_add_right _ _)
      rwa [Nat.add_sub_cancel_left, block_div hi] at hroot
    · -- an entry of the shared block has two logical blocks
      obtain ⟨hmiss, i, hi, hentry⟩ := hused
      obtain ⟨hres, hslot⟩ := resolved_entry inode ht hi
      obtain ⟨hres', hslot'⟩ := resolved_entry inode hu hi
      have hsame := hslots _ _ (hres.mpr ⟨hmiss, hentry⟩)
        (hres'.mpr ⟨hused'.1, by rwa [← heq]⟩) (by rw [hslot, hslot', heq])
      exact Nat.eq_of_mul_eq_mul_left (Nat.zero_lt_of_lt hi) (by omega)
  · intro h
    refine ⟨fun b hres => (resolversAgree_iff hres).mpr fun h12 => ?_, fun b c hb hc heq => ?_⟩
    · exact h.root _ (table_le h12 hres.1).2 (hres.used h12)
    · rw [slotOf, slotOf] at heq
      split_ifs at heq with hb12 hc12 hc12
      · exact Slot.inode.inj heq
      · obtain ⟨hblock, hentry⟩ := Slot.block.inj heq
        rw [not_lt] at hb12 hc12
        have htable := h.apart _ (table_le hb12 hb.1).2 _ (table_le hc12 hc.1).2 (hb.used hb12)
          (hc.used hc12) hblock
        have hsplit := Nat.div_add_mod (b - 12) (ptrsPerBlock fs)
        have hsplit' := Nat.div_add_mod (c - 12) (ptrsPerBlock fs)
        rw [htable, hentry] at hsplit
        omega

end Slots

/-- A boot block that is not empty. -/
def bootFs : Ext2Fs := { tinyFs with disk := fun a => if a = 0 then 6 else 0 }

/-- An inode without any block: block 12 is found to be block 6, which is read
and written, and yet `set_block_number` makes a singly indirect block. -/
theorem resolvers_disagree :
    ext2InodeGetBlock bootFs zeroBlock 12 = 6 ∧
      ext2WriteFileBlock bootFs zeroBlock 12 zeroBlock =
        some (0, ext2WriteBlock bootFs zeroBlock 6) ∧
      Resolved bootFs zeroBlock 12 ∧ ¬ ResolversAgree bootFs zeroBlock 12 := by
  have hget : ext2InodeGetBlock bootFs zeroBlock 12 = 6 := by decide
  have hraw : rawBlock bootFs zeroBlock 12 = 6 := by decide
  have hres : Resolved bootFs zeroBlock 12 := ⟨by decide, by rw [hget]; norm_num⟩
  have hwrite : ext2WriteFileBlock bootFs zeroBlock 12 zeroBlock = _ :=
    ext2WriteFileBlock_eq zeroBlock hres.1
  rw [hraw] at hwrite
  refine ⟨hget, hwrite, hres, fun hagree => ?_⟩
  have hmakes : (setBlockNumber (fun fs => (1, fs)) bootFs zeroBlock 1 12 0).map _ = some 1 :=
    setBlockNumber_makes le_rfl hres.1 (by decide)
  rw [hagree.set, slotOf, if_neg (by norm_num)] at hmakes
  have hzero : indexRoot zeroBlock ((12 - 12) / ptrsPerBlock bootFs) = 1 := Option.some.inj hmakes
  exact absurd hzero (by decide)

end Levos.Fs
