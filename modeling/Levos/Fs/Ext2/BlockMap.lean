import Levos.Base.Run
import Levos.Fs.Ext2.WriteBack

/-!
# The block map of an inode (`fs/ext2/inode.c`)

`set_block_number` and `allocate_inode_block` build the map from the logical
blocks of an inode to blocks of the disk, with index blocks made on the way;
`ext2_inode_get_block` reads it back.

Two things go wrong. The singly indirect block is cleared when it is made, the
doubly indirect block and the blocks behind it are not, so that what their
last owner left in them is read as block numbers, and written to. And an index
block that is missing is read all the same, as block 0: the boot block, with
the superblock behind it when blocks are larger than a kibibyte.

* `ext2_block_map_kept`: on a filesystem with blocks of one kibibyte and an
  empty boot block, in every run that is given clean blocks for these index
  blocks, the map is what was last set, and the blocks of others are left
  alone;
* `ext2_block_map_recycled`: a run that is given used ones.

`index` numbers the index blocks, `home` says where the entry of a logical
block is, and `got` is the map as the bytes of the disk have it.
-/

namespace Levos.Fs

open Levos.Base Levos.Kernel

/-! ## The map on a disk -/

namespace InodePlace

variable (P : InodePlace) (d : Nat → UInt8)

/-- The index blocks: the singly indirect one, the doubly indirect one, and
those behind it; 0 when there is none. -/
def index : Nat → Nat
  | 0 => P.singly d
  | 1 => P.doubly d
  | c + 2 => P.follow d (P.doubly d) c

/-- The index block and the entry for a logical block from 12 on. -/
def home (b : Nat) : Nat × Nat :=
  if b < P.near then (0, b - 12) else ((b - P.near) / P.ppb + 2, (b - P.near) % P.ppb)

/-- Entry `k` of index block `i`; what stands for a missing block is what
`ext2_inode_get_block` makes of it. -/
def entry (i k : Nat) : Int :=
  if P.index d i = 0 then (if i = 0 then 0 else -1)
  else i32 (le32 d (P.bs * P.index d i + 4 * k))

/-- The block behind a logical block, as `ext2_inode_get_block` returns it. -/
def got (b : Nat) : Int :=
  if b < 12 then i32 (P.field d (inoDbp + 4 * b)) else P.entry d (P.home b).1 (P.home b).2

variable {P d} {d' : Nat → UInt8}

theorem ppb_pos (P : InodePlace) : 0 < P.ppb := by
  have := P.bs_ge
  rw [ppb]
  omega

theorem four_ppb_le (P : InodePlace) {k : Nat} (hk : k < P.ppb) : 4 * k + 4 ≤ P.bs := by
  rw [ppb] at hk
  omega

theorem home_spec {b : Nat} (hb : 12 ≤ b) (hr : b < P.reach) :
    (P.home b).1 < P.ppb + 2 ∧ (P.home b).1 ≠ 1 ∧ (P.home b).2 < P.ppb := by
  have hpos := P.ppb_pos
  rw [home]
  split
  next hn =>
    rw [near] at hn
    exact ⟨Nat.succ_pos _, Nat.zero_ne_one, by omega⟩
  next hn =>
    have hlt : b - P.near < P.ppb * P.ppb := by
      rw [reach] at hr
      omega
    have hc := Nat.div_lt_of_lt_mul hlt
    exact ⟨Nat.add_lt_add_right hc 2, Nat.succ_succ_ne_one _, Nat.mod_lt _ hpos⟩

theorem home_inj {b c : Nat} (hb : 12 ≤ b) (hc : 12 ≤ c) (h : P.home b = P.home c) : b = c := by
  rw [home, home] at h
  split at h
  next hbn =>
    split at h
    next =>
      have := (Prod.mk.inj h).2
      omega
    next => exact absurd (Prod.mk.inj h).1.symm (Nat.succ_ne_zero _)
  next hbn =>
    split at h
    next => exact absurd (Prod.mk.inj h).1 (Nat.succ_ne_zero _)
    next hcn =>
      obtain ⟨hdiv, hmod⟩ := Prod.mk.inj h
      have hsub : b - P.near = c - P.near := by
        rw [← Nat.div_add_mod (b - P.near) P.ppb, ← Nat.div_add_mod (c - P.near) P.ppb, hmod,
          Nat.add_right_cancel hdiv]
      omega

/-! ## What a step does to the map -/

/-- The logical block has a place on the disk. -/
def Present (P : InodePlace) (d : Nat → UInt8) (b : Nat) : Prop :=
  b < 12 ∨ P.index d (P.home b).1 ≠ 0

/-- The other logical blocks are as before; those without a place may get one,
with what the index block for it had there. -/
def KeptExcept (P : InodePlace) (Z : Int → Prop) (b : Nat) (d d' : Nat → UInt8) : Prop :=
  ∀ c < P.reach, c ≠ b →
    P.got d' c = P.got d c ∧ (P.Present d' c ↔ P.Present d c) ∨
      ¬ P.Present d c ∧ Z (P.got d' c)

theorem KeptExcept.trans {Z : Int → Prop} {b : Nat} {d'' : Nat → UInt8}
    (h : P.KeptExcept Z b d d') (h' : P.KeptExcept Z b d' d'') : P.KeptExcept Z b d d'' := by
  intro c hc hne
  rcases h c hc hne with ⟨heq, hp⟩ | ⟨hp, hz⟩
  · rcases h' c hc hne with ⟨heq', hp'⟩ | ⟨hp', hz'⟩
    · exact .inl ⟨heq'.trans heq, hp'.trans hp⟩
    · exact .inr ⟨fun h => hp' (hp.mpr h), hz'⟩
  · rcases h' c hc hne with ⟨heq', -⟩ | ⟨-, hz'⟩
    · exact .inr ⟨hp, heq' ▸ hz⟩
    · exact .inr ⟨hp, hz'⟩

theorem present_congr {b : Nat} (hr : b < P.reach)
    (hindex : ∀ i < P.ppb + 2, i ≠ 1 → P.index d' i = P.index d i) :
    P.Present d' b ↔ P.Present d b := by
  refine or_congr_right' fun h12 => ?_
  obtain ⟨hi, hi1, -⟩ := home_spec (not_lt.mp h12) hr
  rw [hindex _ hi hi1]

/-- An entry is read from its index block. -/
theorem entry_same {i k : Nat} (hindex : P.index d' i = P.index d i)
    (hsame : P.index d i ≠ 0 → SameBlock P.bs d d' (P.index d i)) (hk : k < P.ppb) :
    P.entry d' i k = P.entry d i k := by
  rw [entry, entry, hindex]
  split
  · rfl
  · next h0 => rw [(hsame h0).le32 (P.four_ppb_le hk)]

/-- An index block is the singly or the doubly indirect one, or one of those
that the latter names. -/
theorem forall_index {n : Nat} {Q : Nat → Prop} (singly : Q 0) (doubly : Q 1)
    (entry : ∀ c < n, Q (c + 2)) : ∀ j < n + 2, Q j := by
  intro j hj
  rcases j with _ | _ | c
  · exact singly
  · exact doubly
  · exact entry c (by omega)

theorem index_same (hinode : SameBlock P.bs d d' P.block)
    (hdoubly : P.doubly d ≠ 0 → SameBlock P.bs d d' (P.doubly d)) {i : Nat} (hi : i < P.ppb + 2) :
    P.index d' i = P.index d i := by
  have heq : P.doubly d' = P.doubly d := field_same hinode (by decide)
  have hall : ∀ j < P.ppb + 2, P.index d' j = P.index d j := by
    refine forall_index (field_same hinode (by decide)) heq fun c hc => ?_
    rw [index, index, heq]
    exact follow_same hdoubly hc
  exact hall i hi

theorem got_direct {b : Nat} (hb : b < 12) : P.got d b = i32 (P.field d (inoDbp + 4 * b)) :=
  if_pos hb

theorem got_indirect {b : Nat} (hb : 12 ≤ b) :
    P.got d b = P.entry d (P.home b).1 (P.home b).2 := if_neg (not_lt.mpr hb)

/-- Nothing of the map changes. -/
theorem got_same (hinode : SameBlock P.bs d d' P.block)
    (hsame : ∀ i < P.ppb + 2, P.index d i ≠ 0 → SameBlock P.bs d d' (P.index d i)) {b : Nat}
    (hb : b < P.reach) : P.got d' b = P.got d b := by
  by_cases h12 : b < 12
  · rw [got_direct h12, got_direct h12, field_same hinode (by rw [inoDbp]; omega)]
  · obtain ⟨hi, -, hk⟩ := home_spec (not_lt.mp h12) hb
    rw [got_indirect (not_lt.mp h12), got_indirect (not_lt.mp h12)]
    exact entry_same (index_same hinode (hsame 1 (by omega)) hi) (hsame _ hi) hk

/-- A field of the inode in front of the index blocks. -/
theorem index_field {f v : Nat} (hf : f + 4 ≤ inoSinglyBlock)
    (hdata : P.doubly d ≠ 0 → P.doubly d ≠ P.block) {i : Nat} (hi : i < P.ppb + 2) :
    P.index (put32 d (P.addr + f) v) i = P.index d i := by
  rw [inoSinglyBlock] at hf
  have heq : P.doubly (put32 d (P.addr + f) v) = P.doubly d :=
    P.field_put32_of_ne _ (by rw [inoDoublyBlock]; omega)
  have hsingly : P.singly (put32 d (P.addr + f) v) = P.singly d :=
    P.field_put32_of_ne _ (by rw [inoSinglyBlock]; omega)
  have hall : ∀ j < P.ppb + 2, P.index (put32 d (P.addr + f) v) j = P.index d j := by
    refine forall_index hsingly heq fun c hc => ?_
    rw [index, index, heq]
    exact follow_same (fun h0 => sameBlock_put32_field (by omega) (hdata h0)) hc
  exact hall i hi

/-- A new index block: the entries in it are those of no block, except for the
one that is to be set. -/
theorem keptExcept_made {Z : Int → Prop} {b i : Nat} (hb : 12 ≤ b) (hold : P.index d i = 0)
    (hindex : ∀ j < P.ppb + 2, j ≠ i → P.index d' j = P.index d j)
    (hdirect : ∀ c < 12, P.field d' (inoDbp + 4 * c) = P.field d (inoDbp + 4 * c))
    (hsame : ∀ j < P.ppb + 2, j ≠ i → j ≠ 1 → P.index d j ≠ 0 →
      SameBlock P.bs d d' (P.index d j))
    (hnew : i ≠ 1 → ∀ k < P.ppb, (i, k) ≠ P.home b → Z (P.entry d' i k)) :
    P.KeptExcept Z b d d' := by
  intro c hc hne
  by_cases h12 : c < 12
  · rw [got_direct h12, got_direct h12, hdirect c h12]
    exact .inl ⟨rfl, iff_of_true (.inl h12) (.inl h12)⟩
  · obtain ⟨hi, hi1, hk⟩ := home_spec (not_lt.mp h12) hc
    rw [got_indirect (not_lt.mp h12), got_indirect (not_lt.mp h12)]
    by_cases hci : (P.home c).1 = i
    · refine .inr ⟨?_, ?_⟩
      · rintro (hlt | hne)
        · exact h12 hlt
        · exact hne (hci ▸ hold)
      · rw [hci]
        refine hnew (hci ▸ hi1) _ hk fun heq => hne ?_
        refine home_inj (P := P) (not_lt.mp h12) hb ?_
        rw [← heq, ← hci]
    · refine .inl ⟨entry_same (hindex _ hi hci) (hsame _ hi hci hi1) hk, ?_⟩
      rw [Present, Present, hindex _ hi hci]

end InodePlace

/-! ## The invariant -/

variable {A : BlockAllocator} {P : InodePlace} {n m ino b : Nat} {fs fs' : Ext2Fs}
  {keep : Nat → Prop} {Z : Int → Prop}

/-- The index blocks are data blocks, pairwise different, and none of those in
`keep`, which are in use. -/
structure MapShape (A : BlockAllocator) (P : InodePlace) (keep : Nat → Prop) (n : Nat)
    (fs : Ext2Fs) (ino : Nat) : Prop extends FsOk A P n fs ino where
  data : ∀ i < P.ppb + 2, P.index fs.disk i ≠ 0 →
    DataBlock A P fs (P.index fs.disk i) ∧ ¬ keep (P.index fs.disk i)
  inj : ∀ i < P.ppb + 2, ∀ j < P.ppb + 2, P.index fs.disk i ≠ 0 →
    P.index fs.disk i = P.index fs.disk j → i = j
  keepUsed : ∀ x, keep x → A.used fs x

/-- The bytes of the blocks in `keep`, apart from the allocation metadata and
the inode, are as before. -/
def KeptBytes (A : BlockAllocator) (P : InodePlace) (keep : Nat → Prop) (d d' : Nat → UInt8) :
    Prop :=
  ∀ a, keep (a / P.bs) → a ∉ A.metadata → (a < P.addr ∨ P.addr + 128 ≤ a) → d' a = d a

theorem KeptBytes.trans {d d' d'' : Nat → UInt8} (h : KeptBytes A P keep d d')
    (h' : KeptBytes A P keep d' d'') : KeptBytes A P keep d d'' :=
  fun a hk hm ha => (h' a hk hm ha).trans (h a hk hm ha)

/-- One step of a call: the shape, the blocks in use, the kept bytes, the size
and the sectors of the inode, and the blocks that are not in use afterwards. -/
structure MapStepOk (A : BlockAllocator) (P : InodePlace) (keep : Nat → Prop) (n : Nat)
    (fs fs' : Ext2Fs) (ino : Nat) : Prop where
  shape : MapShape A P keep n fs' ino
  used : ∀ x, A.used fs x → A.used fs' x
  bytes : KeptBytes A P keep fs.disk fs'.disk
  size : P.size fs'.disk = P.size fs.disk
  sectors : P.sectors fs.disk ≤ P.sectors fs'.disk
  free : ∀ x, ¬ A.used fs' x → SameBlock P.bs fs.disk fs'.disk x

theorem MapStepOk.trans {fs'' : Ext2Fs} (h : MapStepOk A P keep m fs fs' ino)
    (h' : MapStepOk A P keep n fs' fs'' ino) : MapStepOk A P keep n fs fs'' ino :=
  ⟨h'.shape, fun x hx => h'.used x (h.used x hx), h.bytes.trans h'.bytes, h'.size.trans h.size,
    h.sectors.trans h'.sectors,
    fun x hx => (h.free x fun hu => hx (h'.used x hu)).trans (h'.free x hx)⟩

theorem MapStepOk.refl (h : MapShape A P keep n fs ino) : MapStepOk A P keep n fs fs ino :=
  ⟨h, fun _ hx => hx, fun _ _ _ _ => rfl, rfl, le_rfl, fun _ _ _ _ => rfl⟩

/-- What changes is metadata or in use. -/
theorem FsOk.free_same (h : FsOk A P n fs ino) (hused : ∀ x, A.used fs x → A.used fs' x)
    (hout : ∀ a, a ∉ A.metadata → ¬ A.used fs' (a / P.bs) → fs'.disk a = fs.disk a) (x : Nat)
    (hx : ¬ A.used fs' x) : SameBlock P.bs fs.disk fs'.disk x := by
  rintro a rfl
  exact hout a (fun hmem => hx (hused _ (h.metaUsed a hmem))) hx

theorem MapShape.mono (h : MapShape A P keep (n + 1) fs ino) : MapShape A P keep n fs ino :=
  { h with room := A.room_mono h.room }

/-- The index blocks stay where they are. -/
theorem MapShape.same (h : MapShape A P keep m fs ino) (hfs : FsOk A P n fs' ino)
    (hused : ∀ x, A.used fs x → A.used fs' x)
    (hindex : ∀ i < P.ppb + 2, P.index fs'.disk i = P.index fs.disk i) :
    MapShape A P keep n fs' ino := by
  refine { hfs with data := ?_, inj := ?_, keepUsed := fun x hx => hused x (h.keepUsed x hx) }
  · intro i hi h0
    rw [hindex i hi] at h0 ⊢
    exact ⟨(h.data i hi h0).1.keeps hused, (h.data i hi h0).2⟩
  · intro i hi j hj h0 heq
    rw [hindex i hi] at h0 heq
    rw [hindex j hj] at heq
    exact h.inj i hi j hj h0 heq

/-- One index block more, which was not in use. -/
theorem MapShape.made (h : MapShape A P keep m fs ino) (hfs : FsOk A P n fs' ino)
    (hused : ∀ x, A.used fs x → A.used fs' x) {i x : Nat}
    (hindex : ∀ j < P.ppb + 2, j ≠ i → P.index fs'.disk j = P.index fs.disk j)
    (hi : P.index fs'.disk i = x) (hnew : ¬ A.used fs x) (hx : DataBlock A P fs' x) :
    MapShape A P keep n fs' ino := by
  have hne : ∀ j < P.ppb + 2, P.index fs.disk j ≠ 0 → P.index fs.disk j ≠ x :=
    fun j hj h0 heq => hnew (heq ▸ (h.data j hj h0).1.used)
  refine { hfs with data := ?_, inj := ?_, keepUsed := fun x hx => hused x (h.keepUsed x hx) }
  · intro j hj h0
    by_cases hji : j = i
    · rw [hji, hi]
      exact ⟨hx, fun hk => hnew (h.keepUsed x hk)⟩
    · rw [hindex j hj hji] at h0 ⊢
      exact ⟨(h.data j hj h0).1.keeps hused, (h.data j hj h0).2⟩
  · intro j hj k hk h0 heq
    by_cases hji : j = i
    · by_cases hki : k = i
      · rw [hji, hki]
      · rw [hji, hi] at h0 heq
        rw [hindex k hk hki] at heq
        exact absurd heq.symm (hne k hk (heq ▸ h0))
    · rw [hindex j hj hji] at h0 heq
      by_cases hki : k = i
      · rw [hki, hi] at heq
        exact absurd heq (hne j hj h0)
      · rw [hindex k hk hki] at heq
        exact h.inj j hj k hk h0 heq

/-! ## Reading the map -/

/-- `ext2_inode_get_block` reads the map, on a filesystem with blocks of one
kibibyte: a missing index block is the boot block, which is empty. -/
theorem MapShape.getBlock_eq (h : MapShape A P keep n fs ino) (hspb : P.spb = 2)
    {inode : Nat → UInt8} (hsync : Synced P fs.disk inode) (hb : b < P.reach) :
    ext2InodeGetBlock fs inode b = P.got fs.disk b := by
  have hppb : ptrsPerBlock fs = P.ppb := by
    rw [ptrsPerBlock, h.inodeAt.blocksize, InodePlace.ppb]
  have hbs : P.bs = 1024 := by rw [InodePlace.bs, hspb]
  have hboot : ∀ k < P.ppb, le32 (ext2ReadBlock fs 0) (4 * k) = 0 := by
    intro k hk
    have hfit := P.four_ppb_le hk
    rw [h.inodeAt.readBlock_eq (by norm_num)]
    calc le32 (fun j => fs.disk (P.bs * 0 + j)) (4 * k) = le32 zeroBlock 0 :=
          le32_congr fun j hj => by rw [h.boot _ (by omega), zeroBlock]
      _ = 0 := rfl
  have hread : ∀ i < P.ppb + 2, P.index fs.disk i ≠ 0 → ∀ k,
      le32 (ext2ReadBlock fs (P.index fs.disk i)) (4 * k) =
        le32 fs.disk (P.bs * P.index fs.disk i + 4 * k) := by
    intro i hi h0 k
    rw [h.inodeAt.readBlock_eq (h.data i hi h0).1.writable.lt]
    exact le32_congr fun j _ => by rw [Nat.add_assoc]
  unfold ext2InodeGetBlock
  rw [hppb]
  by_cases h12 : b < 12
  · rw [if_pos h12, InodePlace.got_direct h12, hsync.field (by rw [inoDbp]; omega)]
  · have hhome := InodePlace.home_spec (not_lt.mp h12) hb
    rw [if_neg h12, InodePlace.got_indirect (not_lt.mp h12)]
    by_cases hnear : b < 12 + P.ppb
    · have heq : P.home b = (0, b - 12) := if_pos hnear
      rw [if_pos hnear, heq, hsync.field (by decide), InodePlace.entry]
      rw [heq] at hhome
      split
      · next h0 =>
          have hzero : P.field fs.disk inoSinglyBlock = 0 := h0
          rw [hzero, hboot _ hhome.2.2]
          rfl
      · next h0 => exact congrArg i32 (hread 0 (by omega) h0 _)
    · have heq : P.home b = ((b - P.near) / P.ppb + 2, (b - P.near) % P.ppb) := if_neg hnear
      have hsub : b - 12 - P.ppb = b - P.near := by rw [InodePlace.near]; omega
      have hreach : b < 12 + P.ppb + P.ppb * P.ppb := hb
      rw [if_neg hnear, if_pos hreach, heq, hsub, hsync.field (by decide), InodePlace.entry]
      rw [heq] at hhome
      have hc : (b - P.near) / P.ppb < P.ppb := by
        have := hhome.1
        omega
      -- what the doubly indirect block, or the boot block, has for the next one
      have hnext : le32 (ext2ReadBlock fs (P.field fs.disk inoDoublyBlock))
          (4 * ((b - P.near) / P.ppb)) = P.index fs.disk ((b - P.near) / P.ppb + 2) := by
        rw [InodePlace.index, InodePlace.follow]
        split
        · next h0 => rw [show P.field fs.disk inoDoublyBlock = 0 from h0, hboot _ hc]
        · next h0 => exact hread 1 (by omega) h0 _
      dsimp only
      rw [hnext]
      split
      · rw [if_neg (Nat.succ_ne_zero _)]
      · next h0 => exact congrArg i32 (hread _ hhome.1 h0 _)

/-! ## Steps of the calls -/

theorem MapShape.keptExcept_same (h : MapShape A P keep n fs ino) {d : Nat → UInt8}
    (hsame : ∀ x, Writable A P x → SameBlock P.bs fs.disk d x) : P.KeptExcept Z b fs.disk d :=
  fun _ hc _ => .inl ⟨InodePlace.got_same (hsame _ h.writable_inode)
    (fun i hi h0 => hsame _ (h.data i hi h0).1.writable) hc,
    InodePlace.present_congr hc fun _ hi _ => InodePlace.index_same (hsame _ h.writable_inode)
      (fun h0 => hsame _ (h.data 1 (by omega) h0).1.writable) hi⟩

/-- A call of the allocator. -/
theorem MapShape.alloc (h : MapShape A P keep (n + 1) fs ino) :
    ∃ r fs', allocBlockNo A.alloc fs = (r, fs') ∧ FreshBlock A.metadata A.used fs fs' r ∧
      MapStepOk A P keep n fs fs' ino ∧
      ∀ x, Writable A P x → SameBlock P.bs fs.disk fs'.disk x := by
  obtain ⟨r, fs', heq, hr, hfs', hsame⟩ := h.toFsOk.alloc
  refine ⟨r, fs', heq, hr, ⟨?_, hr.keeps, fun a _ hm _ => hr.disk a hm, ?_, ?_, ?_⟩, hsame⟩
  · refine h.same hfs' hr.keeps fun i hi => ?_
    exact InodePlace.index_same (hsame _ h.writable_inode)
      (fun h0 => hsame _ (h.data 1 (by omega) h0).1.writable) hi
  · exact InodePlace.field_same (hsame _ h.writable_inode) (by decide)
  · exact (InodePlace.field_same (hsame _ h.writable_inode) (by decide)).ge
  · exact h.toFsOk.free_same hr.keeps fun a hm _ => hr.disk a hm

/-- A field of the inode between the size and the index blocks. -/
theorem MapShape.setField (h : MapShape A P keep n fs ino) {f v : Nat}
    (hf : f + 4 ≤ inoSinglyBlock) (hsize : inoSize + 4 ≤ f)
    (hsec : P.sectors fs.disk ≤ P.sectors (put32 fs.disk (P.addr + f) v)) :
    MapStepOk A P keep n fs (setDisk fs (put32 fs.disk (P.addr + f) v)) ino ∧
      (∀ i < P.ppb + 2, P.index (put32 fs.disk (P.addr + f) v) i = P.index fs.disk i) ∧
      ∀ c < P.reach, (c < 12 → f + 4 ≤ inoDbp + 4 * c ∨ inoDbp + 4 * c + 4 ≤ f) →
        P.got (put32 fs.disk (P.addr + f) v) c = P.got fs.disk c := by
  have hlt : f + 4 ≤ 128 := hf.trans (by decide)
  obtain ⟨hfs, hused⟩ := h.toFsOk.setField hlt v
  have hindex : ∀ i < P.ppb + 2, P.index (put32 fs.disk (P.addr + f) v) i = P.index fs.disk i :=
    fun i hi => InodePlace.index_field hf (fun h0 => (h.data 1 (by omega) h0).1.notInode) hi
  refine ⟨⟨h.same hfs hused hindex, hused, fun a _ _ ha => put32_of_ne (by omega),
    P.field_put32_of_ne _ (.inr hsize), hsec, ?_⟩, hindex, ?_⟩
  · refine h.toFsOk.free_same hused fun a _ hfree => put32_field_of_ne hlt fun heq => hfree ?_
    exact heq ▸ hused _ h.inodeUsed
  intro c hc hapart
  by_cases h12 : c < 12
  · rw [InodePlace.got_direct h12, InodePlace.got_direct h12, P.field_put32_of_ne _ (hapart h12)]
  · obtain ⟨hi, -, hk⟩ := InodePlace.home_spec (not_lt.mp h12) hc
    rw [InodePlace.got_indirect (not_lt.mp h12), InodePlace.got_indirect (not_lt.mp h12)]
    refine InodePlace.entry_same (hindex _ hi) (fun h0 => ?_) hk
    exact InodePlace.sameBlock_put32_field hlt (h.data _ hi h0).1.notInode

/-- An entry of an index block, other than the doubly indirect one. -/
theorem MapShape.setEntry (h : MapShape A P keep n fs ino) (hb : 12 ≤ b) (hr : b < P.reach)
    (h0 : P.index fs.disk (P.home b).1 ≠ 0) {v : Nat} (hv : v < 2 ^ 32) {d : Nat → UInt8}
    (hd : d = put32 fs.disk (P.bs * P.index fs.disk (P.home b).1 + 4 * (P.home b).2) v) :
    MapStepOk A P keep n fs (setDisk fs d) ino ∧ SameBlock P.bs fs.disk d P.block ∧
      P.KeptExcept Z b fs.disk d ∧ P.got d b = i32 v ∧ P.Present d b := by
  obtain ⟨hi, hi1, hk⟩ := InodePlace.home_spec hb hr
  have hfit := P.four_ppb_le hk
  obtain ⟨hdata, hkeep⟩ := h.data _ hi h0
  have hout : ∀ a, a / P.bs ≠ P.index fs.disk (P.home b).1 → d a = fs.disk a := fun a ha => by
    rw [hd, put32_of_block_ne hfit ha]
  have hother : ∀ x, x ≠ P.index fs.disk (P.home b).1 → SameBlock P.bs fs.disk d x :=
    fun x hx a ha => hout a (ha ▸ hx)
  have hinode := hother _ hdata.notInode.symm
  have hindex : ∀ i < P.ppb + 2, P.index d i = P.index fs.disk i := by
    refine fun i hi' => InodePlace.index_same hinode (fun hne => hother _ fun heq => ?_) hi'
    exact hi1 (h.inj 1 (by omega) _ hi hne heq).symm
  obtain ⟨hfs, hused⟩ := h.toFsOk.write hdata.writable hout
  refine ⟨⟨h.same hfs hused hindex, hused, ?_, InodePlace.field_same hinode (by decide),
    (InodePlace.field_same hinode (by decide)).ge, ?_⟩, hinode, ?_, ?_, .inr (hindex _ hi ▸ h0)⟩
  · exact fun a hka _ _ => hout a fun heq => hkeep (heq ▸ hka)
  · exact h.toFsOk.free_same hused fun a _ hfree => hout a fun heq =>
      hfree (heq ▸ hused _ hdata.used)
  · intro c hc hne
    refine .inl ⟨?_, InodePlace.present_congr hc fun i hi _ => hindex i hi⟩
    by_cases h12 : c < 12
    · rw [InodePlace.got_direct h12, InodePlace.got_direct h12,
        InodePlace.field_same hinode (by rw [inoDbp]; omega)]
    · obtain ⟨hi', -, hk'⟩ := InodePlace.home_spec (not_lt.mp h12) hc
      rw [InodePlace.got_indirect (not_lt.mp h12), InodePlace.got_indirect (not_lt.mp h12)]
      by_cases hsame : (P.home c).1 = (P.home b).1
      · -- another entry of the same block
        have hne' : (P.home c).2 ≠ (P.home b).2 := fun heq =>
          hne (InodePlace.home_inj (P := P) (not_lt.mp h12) hb (Prod.ext hsame heq))
        rw [InodePlace.entry, InodePlace.entry, hindex _ hi', hsame, if_neg h0, if_neg h0, hd,
          le32_put32_of_ne (by omega)]
      · refine InodePlace.entry_same (hindex _ hi') (fun hc0 => hother _ fun heq => ?_) hk'
        exact hsame (h.inj _ hi' _ hi hc0 heq)
  · rw [InodePlace.got_indirect hb, InodePlace.entry, hindex _ hi, if_neg h0, hd, le32_put32 _ _ hv]

/-- A data block that is not in use yet is none of the index blocks. -/
theorem MapShape.index_ne (h : MapShape A P keep n fs ino) {x : Nat} (hx : ¬ A.used fs x) {i : Nat}
    (hi : i < P.ppb + 2) (h0 : P.index fs.disk i ≠ 0) : P.index fs.disk i ≠ x :=
  fun heq => hx (heq ▸ (h.data i hi h0).1.used)

/-- The singly indirect block is there, or it is made, of zeros. -/
theorem makeSingly_map (h : MapShape A P keep (n + if P.singly fs.disk = 0 then 1 else 0) fs ino)
    {inode : Nat → UInt8} (hsync : Synced P fs.disk inode) (hb : 12 ≤ b) (hz : Z 0) :
    ∃ fs' inode', makeSingly A.alloc fs inode ino = some (fs', inode') ∧
      MapStepOk A P keep n fs fs' ino ∧ Synced P fs'.disk inode' ∧
      P.KeptExcept Z b fs.disk fs'.disk ∧ P.singly fs'.disk ≠ 0 := by
  have hfield : le32 inode inoSinglyBlock = P.singly fs.disk := hsync.field (by decide)
  unfold makeSingly
  rw [hfield]
  by_cases hs0 : P.singly fs.disk = 0
  · rw [if_pos hs0] at h ⊢
    obtain ⟨s, fs₁, heq, hfresh, hok₁, hsame⟩ := h.alloc
    have hdata := h.toFsOk.fresh_data hfresh
    have hpos : s ≠ 0 := hfresh.pos.ne'
    have hlt := hdata.writable.lt_two_pow
    have hinode := hsame _ h.writable_inode
    obtain ⟨fs', heq', hfs', hused, hdisk⟩ :=
      hok₁.shape.toFsOk.putSingly (hsync.of_same hinode) hdata
    obtain ⟨hfields, hsingly, -⟩ :=
      made_views hinode hs0 (by omega) hpos hdata.notInode hdisk
    have hblock : ∀ j < P.ppb + 2, P.index fs.disk j ≠ 0 →
        SameBlock P.bs fs.disk fs'.disk (P.index fs.disk j) := by
      intro j hj h0 a ha
      have hj' := (h.data j hj h0).1
      rw [hdisk, setBlock_of_ne (ha ▸ h.index_ne hfresh.unused hj h0),
        put32_field_of_ne (by decide) (ha ▸ hj'.notInode)]
      exact hsame _ hj'.writable a ha
    have hindex : ∀ j < P.ppb + 2, j ≠ 0 → P.index fs'.disk j = P.index fs.disk j := by
      have hdoubly : P.doubly fs'.disk = P.doubly fs.disk := hfields _ (by decide) (by decide)
      refine InodePlace.forall_index (fun h0 => absurd rfl h0) (fun _ => hdoubly) fun c hc _ => ?_
      rw [InodePlace.index, InodePlace.index, hdoubly]
      exact InodePlace.follow_same (hblock 1 (by omega)) hc
    have hall : ∀ x, A.used fs x → A.used fs' x := fun x hx => hused x (hfresh.keeps x hx)
    rw [heq]
    dsimp only
    rw [if_neg hpos, heq']
    refine ⟨fs', _, rfl, ⟨?_, hall, ?_, hfields _ (by decide) (by decide),
      (hfields _ (by decide) (by decide)).ge, ?_⟩, ?_, ?_, hsingly.symm ▸ hpos⟩
    · exact h.made (i := 0) hfs' hall hindex hsingly hfresh.unused (hdata.keeps hused)
    · intro a hk hm ha
      have hne : a / P.bs ≠ s := fun e => hfresh.unused (e ▸ h.keepUsed _ hk)
      rw [hdisk, setBlock_of_ne hne, put32_of_ne (by rw [inoSinglyBlock]; omega), hfresh.disk a hm]
    · refine h.toFsOk.free_same hall fun a hm hfree => ?_
      have hne : a / P.bs ≠ s := fun e => hfree (e ▸ hused _ hfresh.taken)
      rw [hdisk, setBlock_of_ne hne, put32_field_of_ne (by decide) fun e =>
        hfree (e ▸ hall _ h.inodeUsed), hfresh.disk a hm]
    · rw [hdisk]
      exact ((hsync.of_same hinode).put32 _ _).of_same (SameBlock.setBlock hdata.notInode.symm)
    · refine InodePlace.keptExcept_made (i := 0) hb hs0 hindex ?_ (fun j hj _ _ => hblock j hj) ?_
      · exact fun c hc => hfields _ (by rw [inoDbp]; omega) (by rw [inoDbp, inoSinglyBlock]; omega)
      · intro _ k hk _
        have hfit := P.four_ppb_le hk
        have hzero : le32 fs'.disk (P.bs * s + 4 * k) = 0 := by
          rw [hdisk]
          calc le32 _ (P.bs * s + 4 * k) = le32 zeroBlock 0 :=
                le32_congr fun j hj => by rw [Nat.add_assoc, setBlock_apply (by omega)]; rfl
            _ = 0 := rfl
        rw [InodePlace.entry, show P.index fs'.disk 0 = s from hsingly, if_neg hpos, hzero]
        exact hz
  · rw [if_neg hs0] at h ⊢
    exact ⟨fs, inode, rfl, .refl h, hsync, fun _ _ _ => .inl ⟨rfl, Iff.rfl⟩, hs0⟩

/-- The doubly indirect block is there, or it is made; as it was found. -/
def makeDoubly (alloc : Ext2Fs → Int × Ext2Fs) (fs : Ext2Fs) (inode : Nat → UInt8) (ino : Nat) :
    Option (Ext2Fs × (Nat → UInt8)) :=
  if le32 inode inoDoublyBlock = 0 then
    let r := allocBlockNo alloc fs
    if r.1 = 0 then none
    else
      let inode := put32 inode inoDoublyBlock r.1
      some (ext2WriteInode r.2 inode ino, inode)
  else some (fs, inode)

/-- The words of a block. -/
def ZeroWords (P : InodePlace) (d : Nat → UInt8) (x : Nat) : Prop :=
  ∀ k < P.ppb, le32 d (P.bs * x + 4 * k) = 0

theorem makeDoubly_map (h : MapShape A P keep (n + if P.doubly fs.disk = 0 then 1 else 0) fs ino)
    {inode : Nat → UInt8} (hsync : Synced P fs.disk inode) (hb : 12 ≤ b)
    (hclean : P.doubly fs.disk = 0 → ZeroWords P fs.disk (allocBlockNo A.alloc fs).1) :
    ∃ fs' inode', makeDoubly A.alloc fs inode ino = some (fs', inode') ∧
      MapStepOk A P keep n fs fs' ino ∧ Synced P fs'.disk inode' ∧
      P.KeptExcept Z b fs.disk fs'.disk ∧ P.doubly fs'.disk ≠ 0 ∧
      ∀ c < P.ppb, P.index fs'.disk (c + 2) = P.index fs.disk (c + 2) := by
  have hfield : le32 inode inoDoublyBlock = P.doubly fs.disk := hsync.field (by decide)
  unfold makeDoubly
  rw [hfield]
  by_cases hs0 : P.doubly fs.disk = 0
  · rw [if_pos hs0] at h ⊢
    replace hclean := hclean hs0
    obtain ⟨s, fs₁, heq, hfresh, hok₁, hsame⟩ := h.alloc
    rw [heq] at hclean ⊢
    have hdata := h.toFsOk.fresh_data hfresh
    have hpos : s ≠ 0 := hfresh.pos.ne'
    have hlt := hdata.writable.lt_two_pow
    have hinode := hsame _ h.writable_inode
    obtain ⟨hfs', hused⟩ := hok₁.shape.toFsOk.setField (f := inoDoublyBlock) (by decide) s
    have hwrite := hok₁.shape.inodeAt.writeInode_put32 (hsync.of_same hinode)
      (f := inoDoublyBlock) (by decide) s
    dsimp only at hclean ⊢
    rw [if_neg hpos, hwrite]
    generalize hd : put32 fs₁.disk (P.addr + inoDoublyBlock) s = d' at hfs' hused ⊢
    have hblock : ∀ x, Writable A P x → x ≠ P.block → SameBlock P.bs fs.disk d' x := by
      intro x hx hne a ha
      rw [← hd, put32_field_of_ne (by decide) (ha ▸ hne)]
      exact hsame x hx a ha
    have hfields : ∀ f, f + 4 ≤ inoDoublyBlock → P.field d' f = P.field fs.disk f := by
      intro f hf
      rw [← hd, P.field_put32_of_ne _ (.inr hf), InodePlace.field_same hinode (by
        rw [inoDoublyBlock] at hf
        omega)]
    have hdoubly : P.doubly d' = s := by
      rw [← hd]
      exact P.field_put32 _ _ (by omega)
    have hzero : ZeroWords P d' s := by
      intro k hk
      rw [← hclean k hk]
      exact (hblock s hdata.writable hdata.notInode).le32 (P.four_ppb_le hk)
    have hindex : ∀ j < P.ppb + 2, j ≠ 1 → P.index d' j = P.index fs.disk j := by
      refine InodePlace.forall_index (fun _ => hfields _ (by decide)) (fun h1 => absurd rfl h1)
        fun c hc _ => ?_
      rw [InodePlace.index, InodePlace.index, hs0, hdoubly, InodePlace.follow,
        InodePlace.follow, if_neg hpos, if_pos rfl]
      exact hzero c hc
    have hall : ∀ x, A.used fs x → A.used (setDisk fs₁ d') x :=
      fun x hx => hused x (hfresh.keeps x hx)
    refine ⟨_, _, rfl, ⟨?_, hall, ?_, hfields _ (by decide), (hfields _ (by decide)).ge, ?_⟩, ?_, ?_,
      hdoubly.symm ▸ hpos, ?_⟩
    · exact h.made (i := 1) hfs' hall hindex hdoubly hfresh.unused (hdata.keeps hused)
    · intro a hk hm ha
      show d' a = _
      rw [← hd, put32_of_ne (by rw [inoDoublyBlock]; omega), hfresh.disk a hm]
    · refine h.toFsOk.free_same hall fun a hm hfree => ?_
      show d' a = _
      rw [← hd, put32_field_of_ne (by decide) fun e => hfree (e ▸ hall _ h.inodeUsed),
        hfresh.disk a hm]
    · show Synced P d' _
      rw [← hd]
      exact (hsync.of_same hinode).put32 _ _
    · refine InodePlace.keptExcept_made (i := 1) hb hs0 hindex ?_ (fun j hj _ _ h0 => ?_) ?_
      · exact fun c hc => hfields _ (by rw [inoDbp, inoDoublyBlock]; omega)
      · exact hblock _ (h.data j hj h0).1.writable (h.data j hj h0).1.notInode
      · exact fun h1 => absurd rfl h1
    · exact fun c hc => hindex (c + 2) (by omega) (by omega)
  · rw [if_neg hs0] at h ⊢
    exact ⟨fs, inode, rfl, .refl h, hsync, fun _ _ _ => .inl ⟨rfl, Iff.rfl⟩, hs0, fun _ _ => rfl⟩

/-- Storing a field in a block that was read before a change elsewhere. -/
theorem setBlock_put32_of_same {d₀ d : Nat → UInt8} {bs x o v : Nat} (h : SameBlock bs d₀ d x)
    (ho : o + 4 ≤ bs) :
    setBlock d bs x (put32 (fun j => d₀ (bs * x + j)) o v) = put32 d (bs * x + o) v := by
  funext a
  by_cases ha : a / bs = x
  · obtain ⟨k, hk, rfl⟩ : ∃ k < bs, a = bs * x + k :=
      ⟨a % bs, Nat.mod_lt _ (by omega), by rw [← ha, Nat.div_add_mod]⟩
    rw [setBlock_apply hk]
    exact put32_shift (h.byte hk).symm _ _
  · rw [setBlock_of_ne ha, put32_of_block_ne ho ha]

/-- A new block behind the doubly indirect one. -/
theorem MapShape.putSecond (h : MapShape A P keep m fs ino) {fs₁ : Ext2Fs} {r : Nat}
    (hfresh : FreshBlock A.metadata A.used fs fs₁ r) (hok : MapStepOk A P keep n fs fs₁ ino)
    (hsame : ∀ x, Writable A P x → SameBlock P.bs fs.disk fs₁.disk x) (hd0 : P.doubly fs.disk ≠ 0)
    {c : Nat} (hc : c < P.ppb) (hold : P.index fs.disk (c + 2) = 0) (hb : 12 ≤ b)
    (hclean : ∀ k < P.ppb, (c + 2, k) ≠ P.home b → Z (i32 (le32 fs.disk (P.bs * r + 4 * k))))
    {d : Nat → UInt8} (hd : d = put32 fs₁.disk (P.bs * P.doubly fs.disk + 4 * c) r) :
    MapStepOk A P keep n fs (setDisk fs₁ d) ino ∧ SameBlock P.bs fs.disk d P.block ∧
      P.KeptExcept Z b fs.disk d ∧ P.index d (c + 2) = r := by
  have hdata := h.toFsOk.fresh_data hfresh
  have hpos : r ≠ 0 := hfresh.pos.ne'
  have hlt := hdata.writable.lt_two_pow
  have hfit := P.four_ppb_le hc
  obtain ⟨hdbl, hkeep⟩ : DataBlock A P fs (P.doubly fs.disk) ∧ ¬ keep (P.doubly fs.disk) :=
    h.data 1 (by omega) hd0
  have hout : ∀ a, a / P.bs ≠ P.doubly fs.disk → d a = fs₁.disk a := fun a ha => by
    rw [hd, put32_of_block_ne hfit ha]
  have hblock : ∀ x, Writable A P x → x ≠ P.doubly fs.disk → SameBlock P.bs fs.disk d x :=
    fun x hx hne a ha => (hout a (ha ▸ hne)).trans (hsame x hx a ha)
  have hinode := hblock _ h.writable_inode hdbl.notInode.symm
  have hdoubly : P.doubly d = P.doubly fs.disk := InodePlace.field_same hinode (by decide)
  have hnew : P.index d (c + 2) = r := by
    rw [InodePlace.index, hdoubly, InodePlace.follow, if_neg hd0, hd, le32_put32 _ _ (by omega)]
  have hindex : ∀ j < P.ppb + 2, j ≠ c + 2 → P.index d j = P.index fs.disk j := by
    have hsingly : P.singly d = P.singly fs.disk := InodePlace.field_same hinode (by decide)
    refine InodePlace.forall_index (fun _ => hsingly) (fun _ => hdoubly) fun e he hec => ?_
    have hapart : 4 * c + 4 ≤ 4 * e ∨ 4 * e + 4 ≤ 4 * c := by omega
    rw [InodePlace.index, InodePlace.index, hdoubly, InodePlace.follow, InodePlace.follow,
      if_neg hd0, if_neg hd0, hd, le32_put32_of_ne (by omega)]
    exact (hsame _ hdbl.writable).le32 (P.four_ppb_le he)
  obtain ⟨hfs', hused⟩ := hok.shape.toFsOk.write hdbl.writable hout
  have hall : ∀ x, A.used fs x → A.used (setDisk fs₁ d) x := fun x hx => hused x (hfresh.keeps x hx)
  refine ⟨⟨?_, hall, ?_, InodePlace.field_same hinode (by decide),
    (InodePlace.field_same hinode (by decide)).ge, ?_⟩, hinode, ?_, hnew⟩
  · exact h.made hfs' hall hindex hnew hfresh.unused (hdata.keeps hused)
  · intro a hk hm _
    exact (hout a fun e => hkeep (e ▸ hk)).trans (hfresh.disk a hm)
  · exact h.toFsOk.free_same hall fun a hm hfree =>
      (hout a fun e => hfree (e ▸ hall _ hdbl.used)).trans (hfresh.disk a hm)
  · refine InodePlace.keptExcept_made hb hold hindex ?_ (fun j hj _ hj1 h0 => ?_) ?_
    · exact fun e he => InodePlace.field_same hinode (by rw [inoDbp]; omega)
    · refine hblock _ (h.data j hj h0).1.writable fun heq => hj1 ?_
      exact h.inj j hj 1 (by omega) h0 heq
    · intro _ k hk hne
      have hrd : r ≠ P.doubly fs.disk := fun e => hfresh.unused (e ▸ hdbl.used)
      rw [InodePlace.entry, hnew, if_neg hpos,
        (hblock r hdata.writable hrd).le32 (P.four_ppb_le hk)]
      exact hclean k hk hne

/-- What the code does behind the doubly indirect block. -/
theorem setBlockNumber_deep (alloc : Ext2Fs → Int × Ext2Fs) {inode : Nat → UInt8} {v : Nat}
    (h : InodeAt P fs ino) (hb : P.near ≤ b) (hr : b < P.reach) :
    setBlockNumber alloc fs inode ino b v =
      match makeDoubly alloc fs inode ino with
      | none => some ((allocBlockNo alloc fs).2, inode)
      | some (fs, inode) =>
          let tmp := ext2ReadBlock fs (le32 inode inoDoublyBlock)
          if le32 tmp (4 * ((b - P.near) / P.ppb)) = 0 then
            let r := allocBlockNo alloc fs
            if r.1 = 0 then some (r.2, inode)
            else
              let tmp := put32 tmp (4 * ((b - P.near) / P.ppb)) r.1
              let fs := ext2WriteBlock r.2 tmp (le32 inode inoDoublyBlock)
              let tmp := put32 (ext2ReadBlock fs r.1) (4 * ((b - P.near) % P.ppb)) v
              some (ext2WriteBlock fs tmp r.1, inode)
          else
            let nblock := le32 tmp (4 * ((b - P.near) / P.ppb))
            let tmp := put32 (ext2ReadBlock fs nblock) (4 * ((b - P.near) % P.ppb)) v
            some (ext2WriteBlock fs tmp nblock, inode) := by
  have hppb : ptrsPerBlock fs = P.ppb := by rw [ptrsPerBlock, h.blocksize, InodePlace.ppb]
  have hnear : 12 + P.ppb ≤ b := hb
  have hreach : b < 12 + P.ppb + P.ppb * P.ppb := hr
  have hsub : b - 12 - P.ppb = b - P.near := by rw [InodePlace.near]; omega
  unfold setBlockNumber
  rw [hppb]
  dsimp only
  rw [if_neg (by omega), if_neg (by omega), if_pos hreach, hsub]
  rfl

/-- What the blocks hold that a call is given for index blocks that are not
cleared: zeros for the doubly indirect block, and `Z` for the block behind it,
except for the entry that is to be set. -/
def CleanWith (Z : Int → Prop) (A : BlockAllocator) (P : InodePlace) (fs : Ext2Fs)
    (inode : Nat → UInt8) (ino b : Nat) : Prop :=
  P.near ≤ b →
    (P.doubly fs.disk = 0 → ZeroWords P fs.disk (allocBlockNo A.alloc fs).1) ∧
    (P.index fs.disk ((b - P.near) / P.ppb + 2) = 0 →
      ∀ fs₁ inode₁, makeDoubly A.alloc fs inode ino = some (fs₁, inode₁) →
        ∀ k < P.ppb, k ≠ (b - P.near) % P.ppb →
          Z (i32 (le32 fs₁.disk (P.bs * (allocBlockNo A.alloc fs₁).1 + 4 * k))))

/-- What `ext2_inode_get_block` returns where there is no block. -/
def NoBlock (x : Int) : Prop := x ≤ 0

/-- The blocks a call is given for index blocks that are not cleared hold no
block numbers. -/
def CleanFor (A : BlockAllocator) (P : InodePlace) (fs : Ext2Fs) (inode : Nat → UInt8)
    (ino b : Nat) : Prop := CleanWith NoBlock A P fs inode ino b

/-- The blocks that `set_block_number` allocates. -/
def InodePlace.needs (P : InodePlace) (d : Nat → UInt8) (b : Nat) : Nat :=
  if b < 12 then 0
  else if b < P.near then if P.singly d = 0 then 1 else 0
  else (if P.doubly d = 0 then 1 else 0) +
    if P.index d ((b - P.near) / P.ppb + 2) = 0 then 1 else 0

/-- What a call that sets block `b` to `v` leaves. -/
structure SetTo (A : BlockAllocator) (P : InodePlace) (keep : Nat → Prop) (Z : Int → Prop)
    (n ino b v : Nat) (fs fs' : Ext2Fs) (inode' : Nat → UInt8) : Prop
    extends MapStepOk A P keep n fs fs' ino where
  sync : Synced P fs'.disk inode'
  others : P.KeptExcept Z b fs.disk fs'.disk
  target : P.got fs'.disk b = i32 v
  present : P.Present fs'.disk b

variable {inode : Nat → UInt8} {v : Nat}

theorem setBlockNumber_direct (h : MapShape A P keep n fs ino) (hsync : Synced P fs.disk inode)
    (hb : b < 12) (hv : v < 2 ^ 32) :
    ∃ fs' inode', setBlockNumber A.alloc fs inode ino b v = some (fs', inode') ∧
      SetTo A P keep Z n ino b v fs fs' inode' := by
  have hf : inoDbp + 4 * b + 4 ≤ inoSinglyBlock := by
    rw [inoDbp, inoSinglyBlock]
    omega
  obtain ⟨hok, hindex, hgot⟩ := h.setField (v := v) hf (by rw [inoSize, inoDbp]; omega)
    (P.field_put32_of_ne _ (by rw [inoDiskSectors, inoDbp]; omega)).ge
  unfold setBlockNumber
  dsimp only
  rw [if_pos hb, h.inodeAt.writeInode_put32 hsync (hf.trans (by decide))]
  refine ⟨_, _, rfl, ⟨hok, hsync.put32 _ _, fun c hc hne => .inl ⟨?_, ?_⟩, ?_, .inl hb⟩⟩
  · exact hgot c hc fun _ => by omega
  · exact InodePlace.present_congr hc fun i hi _ => hindex i hi
  · rw [InodePlace.got_direct hb]
    exact congrArg i32 (P.field_put32 _ _ hv)

/-- The entry of `b`, once its index block is there. -/
theorem MapShape.writeEntry (Z : Int → Prop) (h : MapShape A P keep n fs ino) (hsync : Synced P fs.disk inode)
    (hb : 12 ≤ b) (hr : b < P.reach) (h0 : P.index fs.disk (P.home b).1 ≠ 0) (hv : v < 2 ^ 32) :
    SetTo A P keep Z n ino b v fs
      (ext2WriteBlock fs (put32 (ext2ReadBlock fs (P.index fs.disk (P.home b).1))
        (4 * (P.home b).2) v) (P.index fs.disk (P.home b).1)) inode := by
  obtain ⟨hi, -, hk⟩ := InodePlace.home_spec hb hr
  have hlt := (h.data _ hi h0).1.writable.lt
  rw [h.inodeAt.readBlock_eq hlt, h.inodeAt.writeBlock_eq hlt, setBlock_put32 (P.four_ppb_le hk)]
  obtain ⟨hok, hinode, hothers, htarget, hpresent⟩ := h.setEntry hb hr h0 hv rfl
  exact ⟨hok, hsync.of_same hinode, hothers, htarget, hpresent⟩

theorem SetTo.after {fs₁ : Ext2Fs} {inode' : Nat → UInt8} (hok : MapStepOk A P keep m fs fs₁ ino)
    (hothers : P.KeptExcept Z b fs.disk fs₁.disk) (h : SetTo A P keep Z n ino b v fs₁ fs' inode') :
    SetTo A P keep Z n ino b v fs fs' inode' :=
  ⟨hok.trans h.toMapStepOk, h.sync, hothers.trans h.others, h.target, h.present⟩

theorem setBlockNumber_singly
    (h : MapShape A P keep (n + if P.singly fs.disk = 0 then 1 else 0) fs ino)
    (hsync : Synced P fs.disk inode) (hb : 12 ≤ b) (hnear : b < P.near) (hv : v < 2 ^ 32)
    (hz : Z 0) :
    ∃ fs' inode', setBlockNumber A.alloc fs inode ino b v = some (fs', inode') ∧
      SetTo A P keep Z n ino b v fs fs' inode' := by
  have hppb : ptrsPerBlock fs = P.ppb := by rw [ptrsPerBlock, h.inodeAt.blocksize, InodePlace.ppb]
  have hnear' : b < 12 + P.ppb := hnear
  have hhome : P.home b = (0, b - 12) := if_pos hnear
  obtain ⟨fs₁, inode₁, hmade, hok₁, hsync₁, hothers₁, hs0⟩ := makeSingly_map h hsync hb hz
  have hset := hok₁.shape.writeEntry Z hsync₁ hb (hnear.trans_le P.near_le_reach)
    (by rw [hhome]; exact hs0) hv
  unfold setBlockNumber
  dsimp only
  rw [if_neg (not_lt.mpr hb), hppb, if_pos hnear', hmade]
  dsimp only
  rw [hsync₁.field (by decide)]
  rw [hhome] at hset
  exact ⟨_, _, rfl, .after hok₁ hothers₁ hset⟩

/-- The part of `set_block_number` behind the doubly indirect block. -/
theorem MapShape.setDeep (hb : P.near ≤ b) (hr : b < P.reach)
    (h : MapShape A P keep
      (n + if P.index fs.disk ((b - P.near) / P.ppb + 2) = 0 then 1 else 0) fs ino)
    (hsync : Synced P fs.disk inode) (hv : v < 2 ^ 32) (hd0 : P.doubly fs.disk ≠ 0)
    (hclean : P.index fs.disk ((b - P.near) / P.ppb + 2) = 0 →
      ∀ k < P.ppb, k ≠ (b - P.near) % P.ppb →
        Z (i32 (le32 fs.disk (P.bs * (allocBlockNo A.alloc fs).1 + 4 * k))))
    (hmade : makeDoubly A.alloc fs inode ino = some (fs, inode)) :
    ∃ fs' inode', setBlockNumber A.alloc fs inode ino b v = some (fs', inode') ∧
      SetTo A P keep Z n ino b v fs fs' inode' := by
  have h12 : 12 ≤ b := (Nat.le_add_right _ _).trans hb
  have hhome : P.home b = ((b - P.near) / P.ppb + 2, (b - P.near) % P.ppb) :=
    if_neg (not_lt.mpr hb)
  obtain ⟨hi, -, hk⟩ := InodePlace.home_spec h12 hr
  rw [hhome] at hi hk
  have hc : (b - P.near) / P.ppb < P.ppb := Nat.lt_of_add_lt_add_right hi
  have hdbl : DataBlock A P fs (P.doubly fs.disk) := (h.data 1 (by omega) hd0).1
  have hnext : le32 (ext2ReadBlock fs (P.doubly fs.disk)) (4 * ((b - P.near) / P.ppb)) =
      P.index fs.disk ((b - P.near) / P.ppb + 2) := by
    rw [InodePlace.index, InodePlace.follow, if_neg hd0,
      h.inodeAt.readBlock_eq hdbl.writable.lt]
    exact le32_congr fun j _ => by rw [Nat.add_assoc]
  have hfield : le32 inode inoDoublyBlock = P.doubly fs.disk := hsync.field (by decide)
  rw [setBlockNumber_deep A.alloc h.inodeAt hb hr, hmade]
  dsimp only
  rw [hfield, hnext]
  by_cases h0 : P.index fs.disk ((b - P.near) / P.ppb + 2) = 0
  · rw [if_pos h0] at h ⊢
    replace hclean := hclean h0
    obtain ⟨r, fs₁, heq, hfresh, hok₁, hsame⟩ := h.alloc
    rw [heq] at hclean ⊢
    obtain ⟨hok₂, hinode, hothers, hnew⟩ := h.putSecond hfresh hok₁ hsame hd0 hc h0 h12
      (fun k hk hne => hclean k hk fun e => hne (by rw [hhome, e])) rfl
    have hpos : r ≠ 0 := hfresh.pos.ne'
    dsimp only
    rw [if_neg hpos, h.inodeAt.readBlock_eq hdbl.writable.lt,
      hok₁.shape.inodeAt.writeBlock_eq hdbl.writable.lt,
      setBlock_put32_of_same (hsame _ hdbl.writable) (P.four_ppb_le hc)]
    have hset := hok₂.shape.writeEntry Z (hsync.of_same hinode) h12 hr
      (by rw [hhome]; exact hnew.symm ▸ hpos) hv
    rw [hhome] at hset
    have hnew' : P.index (setDisk fs₁ (put32 fs₁.disk (P.bs * P.doubly fs.disk +
        4 * ((b - P.near) / P.ppb)) r)).disk ((b - P.near) / P.ppb + 2) = r := hnew
    rw [hnew'] at hset
    exact ⟨_, _, rfl, .after hok₂ hothers hset⟩
  · rw [if_neg h0] at h ⊢
    have hset := h.writeEntry Z hsync h12 hr (by rw [hhome]; exact h0) hv
    rw [hhome] at hset
    exact ⟨_, _, rfl, hset⟩

theorem setBlockNumber_map (h : MapShape A P keep (n + P.needs fs.disk b) fs ino)
    (hsync : Synced P fs.disk inode) (hr : b < P.reach) (hv : v < 2 ^ 32) (hz : Z 0)
    (hclean : CleanWith Z A P fs inode ino b) :
    ∃ fs' inode', setBlockNumber A.alloc fs inode ino b v = some (fs', inode') ∧
      SetTo A P keep Z n ino b v fs fs' inode' := by
  rw [InodePlace.needs] at h
  by_cases h12 : b < 12
  · rw [if_pos h12] at h
    exact setBlockNumber_direct h hsync h12 hv
  · rw [if_neg h12] at h
    by_cases hnear : b < P.near
    · rw [if_pos hnear] at h
      exact setBlockNumber_singly h hsync (not_lt.mp h12) hnear hv hz
    · rw [if_neg hnear] at h
      replace hnear := not_lt.mp hnear
      obtain ⟨hclean₁, hclean₂⟩ := hclean hnear
      obtain ⟨hi, -, -⟩ := InodePlace.home_spec (not_lt.mp h12) hr
      have hhome : P.home b = ((b - P.near) / P.ppb + 2, (b - P.near) % P.ppb) :=
        if_neg (not_lt.mpr hnear)
      rw [hhome] at hi
      rw [Nat.add_comm (ite _ _ _), ← Nat.add_assoc] at h
      obtain ⟨fs₁, inode₁, hmade, hok₁, hsync₁, hothers₁, hd0, hindex⟩ :=
        makeDoubly_map h hsync (not_lt.mp h12) hclean₁
      have hshape := hok₁.shape
      rw [← hindex _ (Nat.lt_of_add_lt_add_right hi)] at hshape hclean₂
      have hagain : makeDoubly A.alloc fs₁ inode₁ ino = some (fs₁, inode₁) := by
        rw [makeDoubly, hsync₁.field (by decide)]
        exact if_neg hd0
      obtain ⟨fs', inode', hset, hto⟩ := MapShape.setDeep hnear hr hshape hsync₁ hv hd0
        (fun h0 => hclean₂ h0 fs₁ inode₁ hmade) hagain
      refine ⟨fs', inode', ?_, .after hok₁ hothers₁ hto⟩
      rw [setBlockNumber_deep A.alloc hshape.inodeAt hnear hr, hagain] at hset
      rw [setBlockNumber_deep A.alloc h.inodeAt hnear hr, hmade]
      exact hset

/-! ## `allocate_inode_block` -/

/-- The index blocks and all logical blocks are as before. -/
def SameMap (P : InodePlace) (d d' : Nat → UInt8) : Prop :=
  (∀ i < P.ppb + 2, P.index d' i = P.index d i) ∧ ∀ c < P.reach, P.got d' c = P.got d c

theorem SetTo.sameMap {fs'' : Ext2Fs} {inode' inode'' : Nat → UInt8}
    (h : SetTo A P keep Z m ino b v fs fs' inode') (hok : MapStepOk A P keep n fs' fs'' ino)
    (hsync : Synced P fs''.disk inode'') (hsame : SameMap P fs'.disk fs''.disk)
    (hr : b < P.reach) : SetTo A P keep Z n ino b v fs fs'' inode'' := by
  have hpresent : ∀ c < P.reach, (P.Present fs''.disk c ↔ P.Present fs'.disk c) :=
    fun c hc => InodePlace.present_congr hc fun i hi _ => hsame.1 i hi
  exact ⟨h.toMapStepOk.trans hok, hsync,
    h.others.trans fun c hc _ => .inl ⟨hsame.2 c hc, hpresent c hc⟩,
    (hsame.2 b hr).trans h.target, (hpresent b hr).mpr h.present⟩

theorem MapStepOk.weaken {keep' : Nat → Prop} (h : MapStepOk A P keep' n fs fs' ino)
    (hsub : ∀ x, keep x → keep' x) : MapStepOk A P keep n fs fs' ino := by
  refine ⟨{ h.shape with data := fun i hi h0 => ?_, keepUsed := ?_ }, h.used, ?_, h.size, h.sectors,
    h.free⟩
  · exact ⟨(h.shape.data i hi h0).1, fun hk => (h.shape.data i hi h0).2 (hsub _ hk)⟩
  · exact fun x hx => h.shape.keepUsed x (hsub x hx)
  · exact fun a hk => h.bytes a (hsub _ hk)

/-- Clearing a block outside the map. -/
theorem MapShape.clear {keep' : Nat → Prop} {r : Nat} (h : MapShape A P keep' n fs ino)
    (hr : DataBlock A P fs r) (hkeep : keep' r) :
    MapStepOk A P (fun x => keep' x ∧ x ≠ r) n fs
        (setDisk fs (setBlock fs.disk P.bs r zeroBlock)) ino ∧
      SameMap P fs.disk (setBlock fs.disk P.bs r zeroBlock) := by
  have hinode : SameBlock P.bs fs.disk (setBlock fs.disk P.bs r zeroBlock) P.block :=
    SameBlock.setBlock hr.notInode.symm
  have hsame : ∀ i < P.ppb + 2, P.index fs.disk i ≠ 0 →
      SameBlock P.bs fs.disk (setBlock fs.disk P.bs r zeroBlock) (P.index fs.disk i) :=
    fun i hi h0 => SameBlock.setBlock fun heq => (h.data i hi h0).2 (heq ▸ hkeep)
  obtain ⟨hfs, hused⟩ := h.toFsOk.write hr.writable fun a ha => setBlock_of_ne ha
  have hindex := fun i (hi : i < P.ppb + 2) => InodePlace.index_same hinode (hsame 1 (by omega)) hi
  have hshape : MapShape A P keep' n (setDisk fs (setBlock fs.disk P.bs r zeroBlock)) ino :=
    h.same hfs hused hindex
  refine ⟨⟨?_, hused, fun a hk _ _ => setBlock_of_ne hk.2, InodePlace.field_same hinode (by decide),
    (InodePlace.field_same hinode (by decide)).ge, ?_⟩, ?_⟩
  · exact ((MapStepOk.refl hshape).weaken fun x hx => hx.1).shape
  · exact h.toFsOk.free_same hused fun a _ hfree => setBlock_of_ne fun heq =>
      hfree (heq ▸ hused _ hr.used)
  · exact ⟨hindex, fun c hc => InodePlace.got_same hinode hsame hc⟩

/-- `disk_sectors` is raised, or it is large enough. -/
theorem MapShape.raiseSectors (h : MapShape A P keep n fs ino) (hsync : Synced P fs.disk inode)
    {t : Nat} (ht : t < 2 ^ 32) :
    ∃ inode', (if le32 inode inoDiskSectors < t then put32 inode inoDiskSectors t else inode) =
        inode' ∧ MapStepOk A P keep n fs (ext2WriteInode fs inode' ino) ino ∧
      Synced P (ext2WriteInode fs inode' ino).disk inode' ∧
      SameMap P fs.disk (ext2WriteInode fs inode' ino).disk ∧
      t ≤ P.sectors (ext2WriteInode fs inode' ino).disk ∧
      ∀ a, a / P.bs ≠ P.block → (ext2WriteInode fs inode' ino).disk a = fs.disk a := by
  have hfield : le32 inode inoDiskSectors = P.sectors fs.disk := hsync.field (by decide)
  split
  next hlt =>
    refine ⟨_, rfl, ?_⟩
    rw [h.inodeAt.writeInode_put32 hsync (by decide)]
    have hnew : P.sectors (put32 fs.disk (P.addr + inoDiskSectors) t) = t := P.field_put32 _ _ ht
    obtain ⟨hok, hindex, hgot⟩ := h.setField (f := inoDiskSectors) (v := t) (by decide) (by decide)
      (by rw [hnew, ← hfield]; exact hlt.le)
    refine ⟨hok, hsync.put32 _ _, ⟨hindex, fun c hc => hgot c hc fun _ => ?_⟩, hnew.ge, fun a ha => ?_⟩
    · rw [inoDiskSectors, inoDbp]
      omega
    · exact put32_field_of_ne (by decide) ha
  next hle =>
    refine ⟨_, rfl, ?_⟩
    rw [h.inodeAt.writeInode_same hsync]
    exact ⟨.refl h, hsync, ⟨fun _ _ => rfl, fun _ _ => rfl⟩, hfield ▸ not_lt.mp hle, fun _ _ => rfl⟩

theorem InodePlace.needs_same {d d' : Nat → UInt8}
    (hindex : ∀ i < P.ppb + 2, P.index d' i = P.index d i) (hr : b < P.reach) :
    P.needs d' b = P.needs d b := by
  have hsingly : P.singly d' = P.singly d := hindex 0 (by omega)
  have hdoubly : P.doubly d' = P.doubly d := hindex 1 (by omega)
  rw [needs, needs, hsingly, hdoubly]
  split
  · rfl
  · next h12 =>
      split
      · rfl
      · next hnear =>
          obtain ⟨hi, -, -⟩ := home_spec (not_lt.mp h12) hr
          rw [home, if_neg hnear] at hi
          rw [hindex _ hi]

/-- What `allocate_inode_block` leaves: the block is set to a new one, of zeros,
and the sectors cover it. -/
structure NewBlockAt (A : BlockAllocator) (P : InodePlace) (keep : Nat → Prop) (Z : Int → Prop)
    (n ino b r : Nat) (fs : Ext2Fs) (res : BlockResult) : Prop
    extends SetTo A P keep Z n ino b r fs res.fs res.inode where
  ret : res.ret = i32 r
  fresh : ¬ A.used fs r
  data : DataBlock A P res.fs r
  apart : ∀ i < P.ppb + 2, P.index res.fs.disk i ≠ 0 → P.index res.fs.disk i ≠ r
  zero : ∀ j < P.bs, res.fs.disk (P.bs * r + j) = 0
  covered : (b + 1) * P.spb < 2 ^ 32 → (b + 1) * P.spb ≤ P.sectors res.fs.disk

/-- The new block is set under protection of its own, so that it is none of the
index blocks made on the way. -/
theorem allocateInodeBlock_map (h : MapShape A P keep (n + P.needs fs.disk b + 1) fs ino)
    (hsync : Synced P fs.disk inode) (hr : b < P.reach) (hz : Z 0)
    (hclean : CleanWith Z A P (allocBlockNo A.alloc fs).2 inode ino b) :
    ∃ res r, allocateInodeBlock A.alloc fs inode ino b = some res ∧
      NewBlockAt A P keep Z n ino b r fs res := by
  obtain ⟨r, fs₁, heq, hfresh, hok₁, hsame⟩ := h.alloc
  rw [heq] at hclean
  dsimp only at hclean
  have hdata := h.toFsOk.fresh_data hfresh
  have hlt := hdata.writable.lt_two_pow
  have hinode := hsame _ h.writable_inode
  have hindex : ∀ i < P.ppb + 2, P.index fs₁.disk i = P.index fs.disk i :=
    fun i hi => InodePlace.index_same hinode
      (fun h0 => hsame _ (h.data 1 (by omega) h0).1.writable) hi
  have hshape₁ : MapShape A P (fun x => keep x ∨ x = r) (n + P.needs fs.disk b) fs₁ ino := by
    refine { hok₁.shape with data := fun i hi h0 => ⟨(hok₁.shape.data i hi h0).1, ?_⟩
                             keepUsed := ?_ }
    · rintro (hk | heq)
      · exact (hok₁.shape.data i hi h0).2 hk
      · rw [hindex i hi] at h0 heq
        exact h.index_ne hfresh.unused hi h0 heq
    · rintro x (hk | rfl)
      · exact hok₁.shape.keepUsed x hk
      · exact hfresh.taken
  rw [← InodePlace.needs_same hindex hr] at hshape₁
  obtain ⟨fs₂, inode₂, hset, hto⟩ :=
    setBlockNumber_map hshape₁ (hsync.of_same hinode) hr (v := r) (by omega) hz hclean
  obtain ⟨hok₃, hsame₃⟩ := hto.shape.clear (hdata.keeps hto.used) (.inr rfl)
  have hkeep : ∀ x, keep x → (keep x ∨ x = r) ∧ x ≠ r := fun x hx =>
    ⟨.inl hx, fun e => hfresh.unused (e ▸ h.keepUsed x hx)⟩
  replace hok₃ := hok₃.weaken hkeep
  obtain ⟨inode₄, hraise, hok₄, hsync₄, hsame₄, hcovered, hout⟩ := hok₃.shape.raiseSectors
    (hok₃.shape.inodeAt.synced_reRead inode₂) (u32_lt ((b + 1) * (fs₂.blocksize / 512)))
  have hdata₄ := (hdata.keeps hto.used).keeps hok₃.used |>.keeps hok₄.used
  have hspb : fs₂.blocksize / 512 = P.spb := by
    rw [hto.shape.inodeAt.blocksize, InodePlace.bs, Nat.mul_div_cancel_left _ (by norm_num)]
  unfold allocateInodeBlock
  rw [heq]
  dsimp only
  rw [if_neg hfresh.pos.ne', hset, Option.map_some]
  dsimp only
  rw [hto.shape.inodeAt.writeBlock_eq hdata.writable.lt]
  rw [show (setDisk fs₂ (setBlock fs₂.disk P.bs r zeroBlock)).blocksize = fs₂.blocksize from rfl,
    hraise]
  have hto' : SetTo A P keep Z n ino b r fs fs₂ inode₂ := by
    refine .after hok₁ (h.keptExcept_same hsame) ?_
    exact ⟨hto.toMapStepOk.weaken fun x hx => .inl hx, hto.sync, hto.others, hto.target,
      hto.present⟩
  have hclear := hto'.sameMap hok₃ (hok₃.shape.inodeAt.synced_reRead inode₂) hsame₃ hr
  refine ⟨_, r, rfl, hclear.sameMap hok₄ hsync₄ hsame₄ hr, rfl, hfresh.unused, hdata₄, ?_, ?_, ?_⟩
  · intro i hi h0
    have hsame₂ := (hsame₄.1 i hi).trans (hsame₃.1 i hi)
    rw [hsame₂] at h0 ⊢
    exact fun e => (hto.shape.data i hi h0).2 (.inr e)
  · intro j hj
    rw [hout _ (by rw [block_div hj]; exact hdata.notInode)]
    exact setBlock_apply hj
  · intro hfits
    rw [hspb, u32_of_lt hfits] at hcovered
    exact hcovered

/-! ## Sequences of calls -/

/-- A filesystem and the caller's copy of an inode; `last` is what each logical
block was last set to. -/
structure MapState where
  fs : Ext2Fs
  inode : Nat → UInt8
  last : Nat → Option Int

/-- `set_block_number` and `allocate_inode_block`. -/
inductive MapAct : Type where
  | set (iblock : Nat) (rblock : UInt32)
  | allocate (block : Nat)
deriving DecidableEq, Repr

def mapStep (alloc : Ext2Fs → Int × Ext2Fs) (ino : Nat) (s : MapState) : MapAct → Option MapState
  | .set iblock rblock =>
      (setBlockNumber alloc s.fs s.inode ino iblock rblock.toNat).map fun t =>
        ⟨t.1, t.2, Function.update s.last iblock (some (i32 rblock.toNat))⟩
  | .allocate block =>
      (allocateInodeBlock alloc s.fs s.inode ino block).map fun t =>
        ⟨t.fs, t.inode, Function.update s.last block (some t.ret)⟩

/-- The allocations of a call succeed, and the blocks it is given for index
blocks that are not cleared are clean. -/
def ServedClean (A : BlockAllocator) (P : InodePlace) (ino : Nat) (s : MapState) : MapAct → Prop
  | .set iblock _ =>
      A.room (P.needs s.fs.disk iblock) s.fs ∧ CleanFor A P s.fs s.inode ino iblock
  | .allocate block =>
      A.room (P.needs s.fs.disk block + 1) s.fs ∧
        CleanFor A P (allocBlockNo A.alloc s.fs).2 s.inode ino block

/-- The map is what was last set. -/
def MapKept (P : InodePlace) (s : MapState) : Prop :=
  ∀ b < P.reach, match s.last b with
    | some x => ext2InodeGetBlock s.fs s.inode b = x
    | none => ext2InodeGetBlock s.fs s.inode b ≤ 0

/-- An inode without blocks. -/
structure EmptyInode (P : InodePlace) (d : Nat → UInt8) : Prop where
  direct : ∀ c < 12, P.field d (inoDbp + 4 * c) = 0
  singly : P.singly d = 0
  doubly : P.doubly d = 0

/-- The state of a run that began on the disk `d`, with the blocks `keep` in
use. -/
structure MapInv (A : BlockAllocator) (P : InodePlace) (ino : Nat) (keep : Nat → Prop)
    (d : Nat → UInt8) (s : MapState) : Prop where
  shape : MapShape A P keep 0 s.fs ino
  sync : Synced P s.fs.disk s.inode
  map : ∀ b < P.reach, match s.last b with
    | some x => P.got s.fs.disk b = x ∧ P.Present s.fs.disk b
    | none => P.got s.fs.disk b ≤ 0
  bytes : KeptBytes A P keep d s.fs.disk

theorem MapInv.setTo {d : Nat → UInt8} {s : MapState} (h : MapInv A P ino keep d s)
    {inode' : Nat → UInt8} (hto : SetTo A P keep NoBlock 0 ino b v s.fs fs' inode') :
    MapInv A P ino keep d ⟨fs', inode', Function.update s.last b (some (i32 v))⟩ := by
  refine ⟨hto.shape, hto.sync, fun c hc => ?_, h.bytes.trans hto.bytes⟩
  dsimp only
  by_cases hcb : c = b
  · rw [hcb, Function.update_self]
    exact ⟨hto.target, hto.present⟩
  · rw [Function.update_of_ne hcb]
    have hold := h.map c hc
    rcases hto.others c hc hcb with ⟨heq, hp⟩ | ⟨hp, hle⟩
    · rw [heq]
      cases hlast : s.last c with
      | none => simpa only [hlast] using hold
      | some x =>
          rw [hlast] at hold
          exact ⟨hold.1, hp.mpr hold.2⟩
    · cases hlast : s.last c with
      | none => exact hle
      | some x =>
          rw [hlast] at hold
          exact absurd hold.2 hp

/-- Triply indirect blocks end in a panic. -/
theorem setBlockNumber_panic (alloc : Ext2Fs → Int × Ext2Fs) (h : InodeAt P fs ino)
    (hr : P.reach ≤ b) : setBlockNumber alloc fs inode ino b v = none := by
  have hppb : ptrsPerBlock fs = P.ppb := by rw [ptrsPerBlock, h.blocksize, InodePlace.ppb]
  have hreach : 12 + P.ppb + P.ppb * P.ppb ≤ b := hr
  have hnear : 12 + P.ppb ≤ b := (Nat.le_add_right _ _).trans hreach
  have h12 : 12 ≤ b := (Nat.le_add_right _ _).trans hnear
  unfold setBlockNumber
  rw [hppb]
  dsimp only
  rw [if_neg (not_lt.mpr h12), if_neg (not_lt.mpr hnear), if_neg (not_lt.mpr hreach)]

theorem mapStep_inv {d : Nat → UInt8} (s : MapState) (a : MapAct) (t : MapState)
    (h : MapInv A P ino keep d s) (hclean : ServedClean A P ino s a)
    (hs : mapStep A.alloc ino s a = some t) : MapInv A P ino keep d t := by
  have hz : NoBlock 0 := le_refl (0 : Int)
  cases a with
  | set iblock rblock =>
      obtain ⟨hroom, hfor⟩ := hclean
      have hshape : MapShape A P keep (0 + P.needs s.fs.disk iblock) s.fs ino :=
        { h.shape with room := (Nat.zero_add _).symm ▸ hroom }
      obtain ⟨⟨fs', inode'⟩, hset, rfl⟩ := Option.map_eq_some_iff.mp hs
      rcases Nat.lt_or_ge iblock P.reach with hr | hr
      · obtain ⟨fs₁, inode₁, heq, hto⟩ :=
          setBlockNumber_map hshape h.sync hr rblock.toNat_lt hz hfor
        rw [heq] at hset
        obtain ⟨rfl, rfl⟩ := Prod.mk.inj (Option.some.inj hset)
        exact h.setTo hto
      · rw [setBlockNumber_panic A.alloc hshape.inodeAt hr] at hset
        cases hset
  | allocate block =>
      obtain ⟨hroom, hfor⟩ := hclean
      have hshape : MapShape A P keep (0 + P.needs s.fs.disk block + 1) s.fs ino :=
        { h.shape with room := (Nat.zero_add (P.needs s.fs.disk block)).symm ▸ hroom }
      obtain ⟨res, hres, rfl⟩ := Option.map_eq_some_iff.mp hs
      rcases Nat.lt_or_ge block P.reach with hr | hr
      · obtain ⟨res', r, heq, hnew⟩ := allocateInodeBlock_map hshape h.sync hr hz hfor
        rw [heq] at hres
        obtain rfl := Option.some.inj hres
        rw [hnew.ret]
        exact h.setTo hnew.toSetTo
      · obtain ⟨r, fs₁, heq, hfresh, hok, -⟩ := hshape.alloc
        rw [allocateInodeBlock, heq] at hres
        dsimp only at hres
        rw [if_neg hfresh.pos.ne', setBlockNumber_panic A.alloc hok.shape.inodeAt hr] at hres
        cases hres

/-- An inode without blocks, before the first call. -/
theorem EmptyInode.inv {d : Nat → UInt8} (h : FsOk A P 0 fs ino) (he : EmptyInode P fs.disk)
    (hsync : Synced P fs.disk inode) (hd : d = fs.disk) :
    MapInv A P ino (A.used fs) d ⟨fs, inode, fun _ => none⟩ := by
  have hindex : ∀ i, P.index fs.disk i = 0 := by
    intro i
    match i with
    | 0 => exact he.singly
    | 1 => exact he.doubly
    | c + 2 => rw [InodePlace.index, he.doubly, InodePlace.follow, if_pos rfl]
  refine ⟨{ h with data := ?_, inj := ?_, keepUsed := fun _ hx => hx }, hsync, ?_, ?_⟩
  · exact fun i _ h0 => absurd (hindex i) h0
  · exact fun i _ j _ h0 => absurd (hindex i) h0
  · intro b _
    show P.got fs.disk b ≤ 0
    rw [InodePlace.got]
    split
    · next hb => rw [he.direct b hb]; decide
    · rw [InodePlace.entry, if_pos (hindex _)]
      split <;> decide
  · exact fun a _ _ _ => by rw [hd]

/-- **The block map is what was set.** On a filesystem with blocks of one
kibibyte and an empty boot block, take an inode without blocks and any sequence
of `set_block_number` and `allocate_inode_block` calls whose allocations
succeed, and which are given blocks without stray numbers in them for the
doubly indirect block and those behind it. Then `ext2_inode_get_block` returns
for every logical block what it was last set to, and for one that was never set
a value that is no block; and in the blocks that were in use before, every byte
outside the allocation metadata and the inode itself is unchanged. -/
theorem ext2_block_map_kept {as : List MapAct} {s : MapState} (hfs : FsOk A P 0 fs ino)
    (hspb : P.spb = 2) (hempty : EmptyInode P fs.disk) (hsync : Synced P fs.disk inode)
    (hclean : StepsMeet (mapStep A.alloc ino) (ServedClean A P ino) ⟨fs, inode, fun _ => none⟩ as)
    (hrun : runSteps (mapStep A.alloc ino) ⟨fs, inode, fun _ => none⟩ as = some s) :
    MapKept P s ∧ KeptBytes A P (A.used fs) fs.disk s.fs.disk := by
  have hinv : MapInv A P ino (A.used fs) fs.disk s :=
    runSteps_invariant_of_meet mapStep_inv (hempty.inv hfs hsync rfl) hclean hrun
  refine ⟨fun b hb => ?_, hinv.bytes⟩
  rw [hinv.shape.getBlock_eq hspb hinv.sync hb]
  have hmap := hinv.map b hb
  cases hlast : s.last b with
  | none => simpa only [hlast] using hmap
  | some x =>
      rw [hlast] at hmap
      exact hmap.1

/-! ## A small filesystem -/

/-- The caller's copy of inode 3. -/
def tableInode (d : Nat → UInt8) : Nat → UInt8 := fun j => d (tablePlace.addr + j)

/-- The first block behind the doubly indirect one is set. -/
def deepSet : List MapAct := [.set 268 77]

theorem tableFs_empty : EmptyInode tablePlace tableFs.disk := by
  obtain ⟨-, -, -, -, -, -, -, hdirect, hsingly, hdoubly⟩ := tableFs_values
  exact ⟨hdirect, hsingly, hdoubly⟩

/-- Block 6 is the next one, and all blocks that the call is given are of
zeros. -/
theorem deepSet_values :
    ((allocBlockNo allocBlock tableFs).1 = 6 ∧
      ∀ k < 256, le32 tableFs.disk (1024 * 6 + 4 * k) = 0) ∧
    ((makeDoubly allocBlock tableFs (tableInode tableFs.disk) 3).all fun r =>
      (List.range 256).all fun k =>
        le32 r.1.disk (1024 * (allocBlockNo allocBlock r.1).1 + 4 * k) == 0) = true ∧
    tablePlace.needs tableFs.disk 268 = 2 ∧
    (runSteps (mapStep allocBlock 3) ⟨tableFs, tableInode tableFs.disk, fun _ => none⟩
      deepSet).isSome = true := by
  refine ⟨⟨?_, ?_⟩, ?_, ?_, ?_⟩ <;> decide +kernel

theorem tableFs_clean : CleanFor (ext2BlockAllocator 1 tableFs) tablePlace tableFs
    (tableInode tableFs.disk) 3 268 := by
  obtain ⟨⟨hr, hzero⟩, heval, -, -⟩ := deepSet_values
  refine fun _ => ⟨fun _ => ?_, fun _ fs₁ inode₁ hmade => ?_⟩
  · show ZeroWords tablePlace tableFs.disk (allocBlockNo allocBlock tableFs).1
    rw [hr]
    exact hzero
  · rw [show makeDoubly allocBlock tableFs (tableInode tableFs.disk) 3 = some (fs₁, inode₁) from
      hmade] at heval
    intro k hk _
    have hword := beq_iff_eq.mp (List.all_eq_true.mp heval k (List.mem_range.mpr hk))
    exact (congrArg i32 hword).le.trans (by decide)

theorem ext2_block_map_kept_deep :
    ∃ s, runSteps (mapStep (ext2BlockAllocator 1 tableFs).alloc 3)
        ⟨tableFs, tableInode tableFs.disk, fun _ => none⟩ deepSet = some s ∧
      MapKept tablePlace s ∧
      KeptBytes (ext2BlockAllocator 1 tableFs) tablePlace
        ((ext2BlockAllocator 1 tableFs).used tableFs) tableFs.disk s.fs.disk := by
  have hroom : (ext2BlockAllocator 1 tableFs).room 2 tableFs :=
    { tableFs_fsOk.room with free := (by decide : 2 ≤ 10).trans tableFs_fsOk.room.free }
  obtain ⟨-, -, hneeds, hsome⟩ := deepSet_values
  obtain ⟨s, hs⟩ := Option.isSome_iff_exists.mp hsome
  have hmeet : StepsMeet (mapStep (ext2BlockAllocator 1 tableFs).alloc 3)
      (ServedClean (ext2BlockAllocator 1 tableFs) tablePlace 3)
      ⟨tableFs, tableInode tableFs.disk, fun _ => none⟩ deepSet :=
    ⟨⟨hneeds.symm ▸ hroom, tableFs_clean⟩, fun _ _ => trivial⟩
  exact ⟨s, hs, ext2_block_map_kept (A := ext2BlockAllocator 1 tableFs) (P := tablePlace)
    { tableFs_fsOk with room := { hroom with free := Nat.zero_le _ } } rfl tableFs_empty
    (fun _ _ => rfl) hmeet hs⟩

/-! ## Recycled blocks -/

/-- Blocks 6 and 7, which are free, as a file left them: 10 and 99 where the
numbers of blocks would be. Block 10 is in use. -/
def recycledDisk : Nat → UInt8 :=
  put32 (put32 tableFs.disk (1024 * 6 + 4 * 1) 10) (1024 * 7 + 4 * 5) 99

def recycledFs : Ext2Fs := setDisk tableFs recycledDisk

theorem recycledFs_fsOk : FsOk (ext2BlockAllocator 1 tableFs) tablePlace 10 recycledFs 3 := by
  have hfree : ∀ x, 5 < x → x < 16 → Writable (ext2BlockAllocator 1 tableFs) tablePlace x := by
    intro x hx hlt
    refine ⟨by omega, ?_, fun a ha => ?_, fun j hj => ?_⟩
    · show x * 2 < 2 ^ 32
      omega
    · have := tableFs_metadata ha
      show a / 1024 ≠ x
      omega
    · show (2056 + j) / 1024 ≠ x
      omega
  have h₁ := (tableFs_fsOk.write (hfree 6 (by decide) (by decide))
    (d := put32 tableFs.disk (1024 * 6 + 4 * 1) 10)
    fun a ha => put32_of_block_ne (by decide) ha).1
  exact (h₁.write (hfree 7 (by decide) (by decide)) (d := recycledDisk)
    fun a ha => put32_of_block_ne (by decide) ha).1

/-- On an empty inode one call makes block 273 appear, which was never set; and
the call after it, for block 524, writes to block 10, which another file
uses. -/
theorem ext2_block_map_recycled :
    FsOk (ext2BlockAllocator 1 tableFs) tablePlace 10 recycledFs 3 ∧
      EmptyInode tablePlace recycledFs.disk ∧
      (∃ s, runSteps (mapStep allocBlock 3) ⟨recycledFs, tableInode recycledDisk, fun _ => none⟩
          [.set 268 77] = some s ∧ s.last 273 = none ∧ ext2InodeGetBlock s.fs s.inode 273 = 99) ∧
      ∃ s, runSteps (mapStep allocBlock 3) ⟨recycledFs, tableInode recycledDisk, fun _ => none⟩
          [.set 268 77, .set 524 88] = some s ∧
        groupBit recycledFs .block 0 9 = true ∧
        recycledFs.disk (1024 * 10) = 0 ∧ s.fs.disk (1024 * 10) = 88 := by
  refine ⟨recycledFs_fsOk, ?_, ?_, ?_⟩
  · exact ⟨by decide +kernel, by decide +kernel, by decide +kernel⟩
  · obtain ⟨s, hs, hres⟩ := Option.map_eq_some_iff.mp (show (runSteps (mapStep allocBlock 3)
      ⟨recycledFs, tableInode recycledDisk, fun _ => none⟩ [.set 268 77]).map
        (fun s => (s.last 273, ext2InodeGetBlock s.fs s.inode 273)) = some (none, 99) by
      decide +kernel)
    obtain ⟨hlast, hget⟩ := Prod.mk.inj hres
    exact ⟨s, hs, hlast, hget⟩
  · obtain ⟨s, hs, hbyte⟩ := Option.map_eq_some_iff.mp (show (runSteps (mapStep allocBlock 3)
      ⟨recycledFs, tableInode recycledDisk, fun _ => none⟩ [.set 268 77, .set 524 88]).map
        (fun s => s.fs.disk (1024 * 10)) = some 88 by decide +kernel)
    exact ⟨s, hs, by decide +kernel, by decide +kernel, hbyte⟩

end Levos.Fs
