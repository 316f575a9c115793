import Levos.Base.ByteStore
import Levos.Fs.Ext2.DirPlace
import Levos.Fs.Ext2.InodeBeside
import Levos.Fs.Ext2.ReadFile
import Levos.Fs.Ext2.WriteBack

/-!
# A file as its list of bytes (`fs/ext2/file.c`)

`InodePlace.bytes` is what a file on the disk is for those who read and write
it. A read gives a part of it, a write puts one in, `ext2_truncate_file` makes
it empty, and steps that leave the inode and the blocks of a file alone leave
its bytes alone (`FileOk.unchanged`).
-/

namespace Levos.Fs

open Levos.Base Levos.Kernel

namespace InodePlace

/-- The bytes of the file. -/
def bytes (P : InodePlace) (d : Nat → UInt8) : List UInt8 := (List.range (P.size d)).map (P.byte d)

/-- The blocks of a file, those with block numbers among them. -/
def Owns (P : InodePlace) (d : Nat → UInt8) (x : Nat) : Prop := P.Near d x ∨ P.Deep d x

variable {P : InodePlace} {d d' : Nat → UInt8}

@[simp] theorem bytes_length : (P.bytes d).length = P.size d := by
  rw [bytes, List.length_map, List.length_range]

theorem bytes_getElem? {o : Nat} (h : o < P.size d) : (P.bytes d)[o]? = some (P.byte d o) := by
  rw [bytes, List.getElem?_map, List.getElem?_range h, Option.map_some]

theorem bytes_congr (hsize : P.size d' = P.size d) (h : ∀ o < P.size d, P.byte d' o = P.byte d o) :
    P.bytes d' = P.bytes d := by
  rw [bytes, bytes, hsize]
  exact List.map_congr_left fun o ho => h o (List.mem_range.mp ho)

theorem ptr_owned {b : Nat} (hb : b < P.reach) (h0 : P.ptr d b ≠ 0) : P.Owns d (P.ptr d b) := by
  rcases Nat.lt_or_ge b P.near with hn | hn
  · exact .inl ⟨h0, .inr ⟨b, hn, rfl⟩⟩
  · exact .inr ⟨h0, .inr (.inr ⟨b, hn, hb, rfl⟩)⟩

end InodePlace

variable {A : BlockAllocator} {P : InodePlace} {n m ino : Nat} {fs fs' : Ext2Fs}

theorem FileOk.owned (h : FileOk A P n fs ino) {x : Nat} (hx : P.Owns fs.disk x) :
    DataBlock A P fs x := by
  rcases hx with hx | hx
  · exact h.nearData x hx
  · exact (h.deepData x hx).1

/-! ## What leaves a file alone -/

section Unchanged

variable {d d' : Nat → UInt8}

theorem InodePlace.field_bytes (h : ∀ j < P.inodesize, d' (P.addr + j) = d (P.addr + j)) {f : Nat}
    (hf : f + 4 ≤ 128) : P.field d' f = P.field d f := by
  have hsize := P.inodesize_le
  refine le32_congr fun k hk => ?_
  rw [Nat.add_assoc]
  exact h _ (by omega)

theorem InodePlace.ptr_unchanged (h : ∀ j < P.inodesize, d' (P.addr + j) = d (P.addr + j))
    (hblocks : ∀ x, P.Owns d x → SameBlock P.bs d d' x) {b : Nat} (hb : b < P.reach) :
    P.ptr d' b = P.ptr d b := by
  rcases Nat.lt_or_ge b P.near with hn | hn
  · by_cases h12 : b < 12
    · rw [ptr_direct h12, ptr_direct h12, field_bytes h (by rw [inoDbp]; omega)]
    · have hsingly : P.singly d' = P.singly d := field_bytes h (by decide)
      rw [near] at hn
      rw [ptr_singly (by omega) hn, ptr_singly (by omega) hn, hsingly]
      exact follow_same (fun hs0 => hblocks _ (.inl ⟨hs0, .inl rfl⟩)) (by omega)
  · exact ptr_deep_same (field_bytes h (by decide)) (fun x hx => hblocks x (.inr hx)) hn hb

theorem InodePlace.owns_unchanged (h : ∀ j < P.inodesize, d' (P.addr + j) = d (P.addr + j))
    (hblocks : ∀ x, P.Owns d x → SameBlock P.bs d d' x) (x : Nat) :
    (P.Near d' x ↔ P.Near d x) ∧ (P.Deep d' x ↔ P.Deep d x) := by
  have hsingly : P.singly d' = P.singly d := field_bytes h (by decide)
  have hreach := P.near_le_reach
  refine ⟨?_, deep_same (field_bytes h (by decide)) (fun y hy => hblocks y (.inr hy)) x⟩
  rw [Near, Near, hsingly]
  refine and_congr_right fun _ => or_congr_right (exists_congr fun c => ?_)
  exact and_congr_right fun hc => by rw [ptr_unchanged h hblocks (hc.trans_le hreach)]

/-- **Left alone.** Steps that keep the inode and the blocks of a file keep the
file, with its bytes and its blocks. -/
theorem FileOk.unchanged (h : FileOk A P m fs ino) (hfs : FsOk A P n fs' ino)
    (hused : ∀ x, A.used fs x → A.used fs' x)
    (hinode : ∀ j < P.inodesize, fs'.disk (P.addr + j) = fs.disk (P.addr + j))
    (hblocks : ∀ x, P.Owns fs.disk x → SameBlock P.bs fs.disk fs'.disk x) :
    FileOk A P n fs' ino ∧ P.size fs'.disk = P.size fs.disk ∧
      (P.size fs.disk ≤ P.bs * P.reach → P.bytes fs'.disk = P.bytes fs.disk) ∧
      ∀ x, P.Owns fs'.disk x ↔ P.Owns fs.disk x := by
  have hreach := P.near_le_reach
  have hpos : 0 < P.bs := lt_of_lt_of_le (by norm_num) P.bs_ge
  have hsize : P.size fs'.disk = P.size fs.disk := InodePlace.field_bytes hinode (by decide)
  have hsectors : P.sectors fs'.disk = P.sectors fs.disk :=
    InodePlace.field_bytes hinode (by decide)
  have hsingly : P.singly fs'.disk = P.singly fs.disk := InodePlace.field_bytes hinode (by decide)
  have hptr : ∀ b < P.reach, P.ptr fs'.disk b = P.ptr fs.disk b := fun b hb =>
    InodePlace.ptr_unchanged hinode hblocks hb
  have howns := InodePlace.owns_unchanged hinode hblocks
  refine ⟨{ hfs with
    mapped := ?_, nearData := ?_, nearInj := ?_, nearSingly := ?_, deepData := ?_
    covered := ?_ }, hsize, fun hle => InodePlace.bytes_congr hsize fun o ho => ?_, fun x => ?_⟩
  · intro b hb hlt
    rw [hsize] at hlt
    rw [hptr b hb]
    exact h.mapped b hb hlt
  · intro x hx
    exact (h.nearData x ((howns x).1.mp hx)).keeps hused
  · intro b hb c hc h0 heq
    rw [hptr b (hb.trans_le hreach)] at h0 heq
    rw [hptr c (hc.trans_le hreach)] at heq
    exact h.nearInj b hb c hc h0 heq
  · intro b hb h0
    rw [hptr b (hb.trans_le hreach)] at h0 ⊢
    rw [hsingly]
    exact h.nearSingly b hb h0
  · intro x hx
    obtain ⟨hdata, hnear⟩ := h.deepData x ((howns x).2.mp hx)
    exact ⟨hdata.keeps hused, fun hx' => hnear ((howns x).1.mp hx')⟩
  · intro b hb h0
    rw [hptr b (hb.trans_le hreach)] at h0
    rw [hsectors]
    exact h.covered b hb h0
  · have hb : o / P.bs < P.reach := Nat.div_lt_of_lt_mul (ho.trans_le hle)
    have h0 : P.ptr fs.disk (o / P.bs) ≠ 0 :=
      h.mapped _ hb ((Nat.mul_div_le _ _).trans_lt ho)
    rw [InodePlace.byte, InodePlace.byte, hptr _ hb]
    exact (hblocks _ (InodePlace.ptr_owned hb h0)).byte (Nat.mod_lt _ hpos)
  · rw [InodePlace.Owns, InodePlace.Owns, (howns x).1, (howns x).2]

end Unchanged

/-! ## Writing -/

/-- A write puts its bytes into those of the file. -/
theorem FileWritten.bytes {pos count : Nat} {buf : Nat → UInt8}
    (h : FileWritten A P fs fs' pos count buf) (hpos : pos ≤ P.size fs.disk)
    (hle : P.size fs'.disk ≤ P.bs * P.reach) :
    P.bytes fs'.disk = overwrite (P.bytes fs.disk) ((List.range count).map buf) pos := by
  have hlen : (overwrite (P.bytes fs.disk) ((List.range count).map buf) pos).length =
      P.size fs'.disk := by
    rw [overwrite_length (by rw [InodePlace.bytes_length]; exact hpos), h.size]
    simp
  refine List.ext_getElem? fun o => ?_
  by_cases ho : o < P.size fs'.disk
  · have hb : o / P.bs < P.reach := Nat.div_lt_of_lt_mul (ho.trans_le hle)
    rw [InodePlace.bytes_getElem? ho, h.content o ho hb]
    split
    next hin =>
      rw [overwrite_inside (by simpa using hpos) hin.1 (by simpa using hin.2), List.getElem?_map,
        List.getElem?_range (by omega), Option.map_some]
    next hout =>
      rw [h.size] at ho
      rw [overwrite_outside (by simpa using hpos) (by simp; omega),
        InodePlace.bytes_getElem? (by omega)]
  · rw [List.getElem?_eq_none (by rw [InodePlace.bytes_length]; omega),
      List.getElem?_eq_none (by rw [hlen]; omega)]

/-! ## Reading -/

theorem FileOk.follow_eq (h : FileOk A P n fs ino) {x : Nat} (hx : x ≠ 0 → P.Owns fs.disk x)
    (k : Nat) : follow (tableEntry fs) x k = P.follow fs.disk x k := by
  rw [follow, InodePlace.follow]
  split
  · rfl
  next h0 =>
    rw [tableEntry, h.inodeAt.readBlock_eq (h.owned (hx h0)).writable.lt]
    exact le32_congr fun j _ => by rw [Nat.add_assoc]

/-- The code finds the blocks of the file. -/
theorem FileOk.ext2Block_eq (h : FileOk A P n fs ino) {inode : Nat → UInt8}
    (hsync : Synced P fs.disk inode) {b : Nat} (hb : b < P.reach) :
    ext2Block fs inode b = P.ptr fs.disk b := by
  have hppb : ptrsPerBlock fs = P.ppb := by rw [ptrsPerBlock, h.inodeAt.blocksize, InodePlace.ppb]
  have hnear : P.near = 12 + P.ppb := rfl
  have hreach : P.reach = P.near + P.ppb * P.ppb := rfl
  rw [ext2Block, logicalBlock, hppb, InodePlace.ptr]
  by_cases h12 : b < 12
  · rw [if_pos h12, if_pos h12, hsync.field (by rw [inoDbp]; omega)]
  rw [if_neg h12, if_neg h12]
  by_cases hn : b < P.near
  · have hsingly : le32 inode inoSinglyBlock = P.singly fs.disk := hsync.field (by decide)
    rw [if_pos (hnear ▸ hn), if_pos hn, hsingly, indexPath_one, descend, List.foldl_cons,
      List.foldl_nil, h.follow_eq fun hs0 => .inl ⟨hs0, .inl rfl⟩]
  · have hdoubly : le32 inode inoDoublyBlock = P.doubly fs.disk := hsync.field (by decide)
    have hlt : b - P.near < P.ppb * P.ppb := by omega
    have hc : (b - P.near) / P.ppb < P.ppb := Nat.div_lt_of_lt_mul hlt
    rw [if_neg (hnear ▸ hn), if_neg hn, if_pos (by omega), hdoubly, Nat.sub_sub, ← hnear,
      indexPath_two, descend, List.foldl_cons, List.foldl_cons, List.foldl_nil,
      h.follow_eq fun hd0 => .inr ⟨hd0, .inl rfl⟩,
      h.follow_eq fun hc0 => .inr ⟨hc0, .inr (.inl ⟨_, hc, rfl⟩)⟩]

/-- A byte as the code reads it. -/
theorem FileOk.fileByte_eq (h : FileOk A P n fs ino) {inode : Nat → UInt8}
    (hsync : Synced P fs.disk inode) {o : Nat} (ho : o < P.size fs.disk)
    (hle : P.size fs.disk ≤ P.bs * P.reach) : fileByte fs inode o = P.byte fs.disk o := by
  have hb : o / P.bs < P.reach := Nat.div_lt_of_lt_mul (ho.trans_le hle)
  have h0 : P.ptr fs.disk (o / P.bs) ≠ 0 := h.mapped _ hb ((Nat.mul_div_le _ _).trans_lt ho)
  rw [fileByte, h.inodeAt.blocksize, h.ext2Block_eq hsync hb, blockByte, if_neg h0,
    h.inodeAt.readBlock_eq (h.owned (InodePlace.ptr_owned hb h0)).writable.lt, InodePlace.byte]

theorem FileOk.mapped_all (h : FileOk A P n fs ino) {inode : Nat → UInt8}
    (hsync : Synced P fs.disk inode) (hle : P.size fs.disk ≤ P.bs * P.reach) :
    Mapped fs inode (blockCount fs (P.size fs.disk)) := by
  have hpos : 0 < P.bs := lt_of_lt_of_le (by norm_num) P.bs_ge
  have hppb : ptrsPerBlock fs = P.ppb := by rw [ptrsPerBlock, h.inodeAt.blocksize, InodePlace.ppb]
  have hcount : blockCount fs (P.size fs.disk) ≤ P.reach := by
    rw [blockCount, h.inodeAt.blocksize, ← Nat.lt_succ_iff, Nat.div_lt_iff_lt_mul hpos,
      Nat.succ_mul, Nat.mul_comm P.reach]
    omega
  refine ⟨by rw [hppb]; exact hcount, fun b hb => ?_⟩
  rw [h.ext2Block_eq hsync (hb.trans_le hcount)]
  refine h.mapped b (hb.trans_le hcount) ?_
  rw [blockCount, h.inodeAt.blocksize, Nat.lt_iff_add_one_le, Nat.le_div_iff_mul_le hpos,
    Nat.succ_mul, Nat.mul_comm b] at hb
  omega

/-- A read returns the bytes of the file that are at the position. -/
theorem ext2ReadFile_spec {f : Ext2File} (h : FileOk A P n fs f.inodeNo.toNat) (hino : 0 ≤ f.inodeNo)
    (hle : P.size fs.disk ≤ P.bs * P.reach) (junk : Nat → Nat → UInt8) (buf : Nat → UInt8)
    {count : Nat} (hover : f.fpos + count < 2 ^ 31) :
    ∃ out, ext2ReadFile junk fs f buf count =
        some (((((P.bytes fs.disk).drop f.fpos).take count).length : Int), out,
          { f with fpos := f.fpos + (((P.bytes fs.disk).drop f.fpos).take count).length }) ∧
      (List.range (((P.bytes fs.disk).drop f.fpos).take count).length).map out =
        ((P.bytes fs.disk).drop f.fpos).take count := by
  have hlen : (((P.bytes fs.disk).drop f.fpos).take count).length =
      min count (P.size fs.disk - f.fpos) := by simp
  have hpos : 0 < fs.blocksize := by
    rw [h.inodeAt.blocksize]
    exact lt_of_lt_of_le (by norm_num) P.bs_ge
  have hsync := h.inodeAt.synced_reRead (junk 0)
  have hsize : le32 (reReadInode fs (junk 0) f.inodeNo.toNat) inoSize = P.size fs.disk :=
    hsync.field (by decide)
  by_cases hnone : count = 0 ∨ P.size fs.disk ≤ f.fpos
  · -- nothing to read
    have hzero : (((P.bytes fs.disk).drop f.fpos).take count).length = 0 := by omega
    refine ⟨buf, ?_, ?_⟩
    · rw [hzero, ext2ReadFile, if_neg (not_lt.mpr hino)]
      by_cases h0 : count = 0
      · rw [if_pos h0]
        rfl
      · rw [if_neg h0]
        dsimp only
        rw [hsize, if_pos (by omega)]
        rfl
    · rw [hzero, List.length_eq_zero_iff.mp hzero]
      rfl
  rw [not_or, not_le] at hnone
  obtain ⟨st, hblocks, hst⟩ := readBlocks_spec (junk 1) buf hpos hino (h.mapped_all hsync hle)
    (by omega : f.fpos < min (f.fpos + count) (P.size fs.disk)) (Nat.min_le_right _ _)
  have hn : min (f.fpos + count) (P.size fs.disk) - f.fpos =
      (((P.bytes fs.disk).drop f.fpos).take count).length := by omega
  refine ⟨st.out, ?_, ?_⟩
  · rw [ext2ReadFile, if_neg hnone.1, if_neg (not_lt.mpr hino)]
    dsimp only
    rw [hsize, if_neg (by omega), u32_of_lt (by omega), hblocks, Option.map_some, hst.total, hn]
  · refine List.ext_getElem (by simp) fun k hk hk' => ?_
    have hread := hst.bytes k
    rw [if_pos (by omega), h.fileByte_eq hsync (by omega) hle] at hread
    have hbyte := InodePlace.bytes_getElem? (P := P) (d := fs.disk) (o := f.fpos + k) (by omega)
    rw [List.getElem_map, List.getElem_range, hread, List.getElem_take, List.getElem_drop]
    exact (List.getElem_eq_iff _).mpr hbyte |>.symm

/-! ## Emptying -/

/-- The fields that `ext2_truncate_file` sets to 0, in its order. -/
def truncatedFields : List Nat :=
  [inoSize, inoDiskSectors] ++ (List.range 12).map (fun i => inoDbp + 4 * i) ++
    [inoSinglyBlock, inoDoublyBlock, inoTriplyBlock]

/-- Fields set to 0, `base` bytes into a buffer. -/
def zeroFields (base : Nat) (fields : List Nat) (d : Nat → UInt8) : Nat → UInt8 :=
  fields.foldl (fun d f => put32 d (base + f) 0) d

/-- `ext2_truncate_file`; `junk` is what the buffer for the inode holds. -/
def ext2TruncateFile (junk : Nat → UInt8) (fs : Ext2Fs) (f : Ext2File) (size : Int) :
    Int × Ext2Fs × Ext2File :=
  if size ≠ 0 then (-erofs, fs, f)
  else
    let inode := zeroFields 0 truncatedFields (reReadInode fs junk (inoOf f.inodeNo))
    (0, ext2WriteInode fs inode (inoOf f.inodeNo), { f with length := 0, fpos := 0 })

theorem zeroFields_cons (base f : Nat) (fields : List Nat) (d : Nat → UInt8) :
    zeroFields base (f :: fields) d = zeroFields base fields (put32 d (base + f) 0) := rfl

theorem put32_zero {d : Nat → UInt8} {i j : Nat} (h : i ≤ j) (h' : j < i + 4) :
    put32 d i 0 j = 0 := by
  obtain ⟨k, rfl⟩ := Nat.exists_eq_add_of_le h
  have hk : k < 4 := by omega
  interval_cases k <;> simp [put32, put16]

theorem zeroFields_of_zero {base j : Nat} {fields : List Nat} {d : Nat → UInt8} (h : d j = 0) :
    zeroFields base fields d j = 0 := by
  induction fields generalizing d with
  | nil => exact h
  | cons f fields ih =>
    rw [zeroFields_cons]
    refine ih ?_
    by_cases hin : base + f ≤ j ∧ j < base + f + 4
    · exact put32_zero hin.1 hin.2
    · rw [put32_of_ne (by omega), h]

theorem zeroFields_mem {base f j : Nat} {fields : List Nat} (hf : f ∈ fields) (hj : j < 4)
    (d : Nat → UInt8) : zeroFields base fields d (base + f + j) = 0 := by
  induction fields generalizing d with
  | nil => cases hf
  | cons g fields ih =>
    rw [zeroFields_cons]
    rcases List.mem_cons.mp hf with rfl | hf
    · exact zeroFields_of_zero (put32_zero (Nat.le_add_right _ _) (by omega))
    · exact ih hf _

theorem zeroFields_outside {base a : Nat} {fields : List Nat} (hfields : ∀ f ∈ fields, f + 4 ≤ 128)
    (ha : a < base ∨ base + 128 ≤ a) (d : Nat → UInt8) : zeroFields base fields d a = d a := by
  induction fields generalizing d with
  | nil => rfl
  | cons f fields ih =>
    have hf := hfields f List.mem_cons_self
    exact (ih (fun g hg => hfields g (List.mem_cons_of_mem _ hg)) _).trans (put32_of_ne (by omega))

theorem Synced.zeroFields {d inode : Nat → UInt8} (hs : Synced P d inode) (fields : List Nat) :
    Synced P (zeroFields P.addr fields d) (Levos.Fs.zeroFields 0 fields inode) := by
  induction fields generalizing d inode with
  | nil => exact hs
  | cons f fields ih =>
    rw [zeroFields_cons, zeroFields_cons, Nat.zero_add]
    exact ih (hs.put32 f 0)

theorem truncatedFields_le : ∀ f ∈ truncatedFields, f + 4 ≤ 128 := by decide

/-- A file without blocks owns none. -/
theorem InodePlace.not_owns {d : Nat → UInt8} (hdirect : ∀ c < 12, P.field d (inoDbp + 4 * c) = 0)
    (hsingly : P.singly d = 0) (hdoubly : P.doubly d = 0) (x : Nat) : ¬ P.Owns d x := by
  have hptr : ∀ c, P.ptr d c = 0 := by
    intro c
    rw [ptr, hsingly, hdoubly]
    split
    next hc => exact hdirect c hc
    next => split <;> rfl
  rintro (⟨hx0, rfl | ⟨c, -, rfl⟩⟩ | ⟨hx0, rfl | ⟨c, -, rfl⟩ | ⟨c, -, -, rfl⟩⟩)
  · exact hx0 hsingly
  · exact hx0 (hptr c)
  · exact hx0 hdoubly
  · exact hx0 (by rw [hdoubly]; rfl)
  · exact hx0 (hptr c)

/-- `ext2_truncate_file` makes the file empty and changes nothing but its
inode. -/
theorem ext2TruncateFile_spec {f : Ext2File} (h : FileOk A P n fs f.inodeNo.toNat)
    (hino : 0 < f.inodeNo) (hlt : f.inodeNo < 2 ^ 32) (junk : Nat → UInt8) :
    ∃ fs', ext2TruncateFile junk fs f 0 = (0, fs', { f with length := 0, fpos := 0 }) ∧
      FileOk A P n fs' f.inodeNo.toNat ∧ P.size fs'.disk = 0 ∧ (∀ x, ¬ P.Owns fs'.disk x) ∧
      (∀ x, A.used fs x → A.used fs' x) ∧
      ∀ a, (a < P.addr ∨ P.addr + P.inodesize ≤ a) → fs'.disk a = fs.disk a := by
  have hsize := P.inodesize_le
  have hno : inoOf f.inodeNo = f.inodeNo.toNat := by
    rw [inoOf]
    omega
  have hout : ∀ a, (a < P.addr ∨ P.addr + P.inodesize ≤ a) →
      zeroFields P.addr truncatedFields fs.disk a = fs.disk a := fun a ha =>
    zeroFields_outside truncatedFields_le (by omega) fs.disk
  have hzero : ∀ f ∈ truncatedFields, P.field (zeroFields P.addr truncatedFields fs.disk) f = 0 := by
    intro f hf
    have hbytes : le32 (zeroFields P.addr truncatedFields fs.disk) (P.addr + f) =
        le32 zeroBlock 0 := le32_congr fun j hj => zeroFields_mem hf hj fs.disk
    exact hbytes
  have hdirect : ∀ c < 12,
      P.field (zeroFields P.addr truncatedFields fs.disk) (inoDbp + 4 * c) = 0 := fun c hc =>
    hzero _ (List.mem_append_left _ (List.mem_append_right _
      (List.mem_map.mpr ⟨c, List.mem_range.mpr hc, rfl⟩)))
  obtain ⟨hfs, hused⟩ := h.toFsOk.write h.toFsOk.writable_inode
    (d := zeroFields P.addr truncatedFields fs.disk) fun a ha => hout a (by
      by_contra hin
      rw [not_or, not_lt, not_le] at hin
      exact ha (InodePlace.div_of_mem hin.1 hin.2))
  refine ⟨setDisk fs (zeroFields P.addr truncatedFields fs.disk), ?_, ?_, ?_, ?_, hused, hout⟩
  · rw [ext2TruncateFile, if_neg (by simp), hno]
    dsimp only
    rw [h.inodeAt.writeInode_synced ((h.inodeAt.synced_reRead junk).zeroFields _) hout]
  · exact hfs.emptyFile (hzero _ (by decide)) hdirect (hzero _ (by decide)) (hzero _ (by decide))
  · exact hzero _ (by decide)
  · exact InodePlace.not_owns hdirect (hzero _ (by decide)) (hzero _ (by decide))

end Levos.Fs
