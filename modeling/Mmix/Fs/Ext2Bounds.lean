import Mmix.Fs.Ext2Holes

/-!
# The arithmetic of the ext2 driver

Which superblocks and inodes the driver handles without a division by zero, an
access outside of a block or a group table too small for what is read into it.
Nothing of this is tested when a disk is mounted; the condition found here is
exact when the rest of the disk is arbitrary.
-/

namespace Mmix.Fs

open Bool

variable {fs : Ext2} {d : Device} {inode : Ext2Inode}

/-! ### The group table -/

/-- Where block `j` of the group table goes fits into its buffer. -/
def Fits (blockSize room j : Nat) : Prop := j * blockSize % wrap32 + blockSize ≤ room

theorem readBlocks_ok {bs start room : Nat} (left : Nat) : ∀ (i : Nat) (table : Buffer),
    (∀ j, i ≤ j → j < i + left → Fits bs room j) →
    (readBlocks d bs start room left i table).ok = true := by
  induction left with
  | zero =>
    intro i table hfits
    rfl
  | succ left ih =>
    intro i table hfits
    rw [readBlocks, Checked.ok_bind, Checked.ok_check, and_eq_true]
    constructor
    · exact decide_eq_true (hfits i (Nat.le_refl i) (by omega))
    · cases readBlock d bs ((start + i) % wrap32) with
      | none => rfl
      | some buf => exact ih (i + 1) _ fun j hi hj => hfits j (by omega) (by omega)

/-- A disk that answers is read to the end of the table. -/
theorem readBlocks_serves (hd : d.Serves) {bs start room : Nat} (left : Nat) :
    ∀ (i : Nat) (table : Buffer),
      (∃ table', (readBlocks d bs start room left i table).val = some table') ∧
      ((readBlocks d bs start room left i table).ok = true →
        ∀ j, i ≤ j → j < i + left → Fits bs room j) := by
  induction left with
  | zero =>
    intro i table
    exact ⟨⟨table, rfl⟩, fun _ j hi hj => absurd hj (by omega)⟩
  | succ left ih =>
    intro i table
    rw [readBlocks, readBlock_of_serves hd, Checked.val_bind, Checked.ok_bind, Checked.ok_check,
      and_eq_true]
    obtain ⟨hval, hfits⟩ := ih (i + 1) _
    refine ⟨hval, fun hok j hi hj => ?_⟩
    rcases Nat.eq_or_lt_of_le hi with rfl | hi
    · have hfit := of_decide_eq_true hok.1
      exact hfit
    · exact hfits hok.2 j hi (by omega)

theorem Superblock.blockSize_dvd (sb : Superblock) (h0 : sb.blockSize ≠ 0) :
    sb.blockSize ∣ wrap32 := by
  have hpow : 1024 * 2 ^ (sb.logBlockSize % 32) = 2 ^ (10 + sb.logBlockSize % 32) := by
    rw [Nat.pow_add]
  have hlow : 10 + sb.logBlockSize % 32 < 32 := by
    by_contra hhigh
    apply h0
    rw [Superblock.blockSize, hpow]
    exact Nat.mod_eq_zero_of_dvd (Nat.pow_dvd_pow 2 (by omega))
  rw [Superblock.blockSize, hpow, Nat.mod_eq_of_lt (Nat.pow_lt_pow_right (by decide) hlow)]
  exact Nat.pow_dvd_pow 2 (by omega)

/-- The table is written inside of its buffer exactly if its size does not wrap. -/
theorem Superblock.fits_iff (sb : Superblock) (h0 : sb.blockSize ≠ 0) :
    (∀ j, 0 ≤ j → j < 0 + sb.bgdBlocks → Fits sb.blockSize sb.bgdAlloc j) ↔
      sb.bgdBlocks * sb.blockSize < wrap32 := by
  have hpos := Nat.pos_of_ne_zero h0
  constructor
  · intro hfits
    by_contra hwrap
    -- The first block that does not fit is the one at the wrapped end.
    obtain ⟨j, hj⟩ : sb.blockSize ∣ sb.bgdAlloc :=
      (Nat.dvd_mod_iff (sb.blockSize_dvd h0)).mpr (Nat.dvd_mul_left _ _)
    have halloc : sb.bgdAlloc < wrap32 := Nat.mod_lt _ (by decide)
    rw [Nat.mul_comm] at hj
    have hlt : j < sb.bgdBlocks := by
      apply Nat.lt_of_mul_lt_mul_right (a := sb.blockSize)
      omega
    have hfit := hfits j (Nat.zero_le j) (by omega)
    rw [Fits, ← hj, Nat.mod_eq_of_lt halloc] at hfit
    omega
  · intro hsmall j _ hj
    have hnext : (j + 1) * sb.blockSize ≤ sb.bgdBlocks * sb.blockSize :=
      Nat.mul_le_mul_right _ (by omega)
    rw [Nat.succ_mul] at hnext
    rw [Fits, Superblock.bgdAlloc, Nat.mod_eq_of_lt hsmall, Nat.mod_eq_of_lt (by omega)]
    exact hnext

/-! ### Inodes -/

/-- Every inode of a group lies inside of one block. -/
def InodesInside (inodesPerGroup inodeSize blockSize : Nat) : Prop :=
  ∀ i < inodesPerGroup, i * inodeSize % blockSize + inodeBytes ≤ blockSize

instance (inodesPerGroup inodeSize blockSize : Nat) :
    Decidable (InodesInside inodesPerGroup inodeSize blockSize) :=
  inferInstanceAs (Decidable (∀ i < inodesPerGroup, _))

theorem readInode_ok (hfs : fs.Sized) (hper : fs.inodesPerGroup ≠ 0)
    (hinside : InodesInside fs.inodesPerGroup fs.inodeSize fs.blockSize) (ino : Nat) :
    (readInode fs d ino).ok = true := by
  have hpos : fs.blockSize ≠ 0 := Nat.pos_iff_ne_zero.mp hfs.pos
  have hfit := hinside ((ino - 1) % fs.inodesPerGroup) (Nat.mod_lt _ (Nat.pos_of_ne_zero hper))
  rw [readInode]
  simp only [Checked.ok_ite, Checked.ok_bind, Checked.ok_check, Checked.ok_pure, hper, hpos,
    ne_eq, not_false_eq_true, decide_true, Bool.true_and]
  generalize readBlock d fs.blockSize _ = answer
  cases answer with
  | none => simp
  | some buf => simp [hfit]

/-- Where the disk answers, the inodes of the first group show whether all lie inside. -/
theorem of_readInode_ok (hd : d.Serves) (hfs : fs.Sized) (hgroups : 0 < fs.bgdCount)
    (hper : fs.inodesPerGroup < wrap32)
    (hok : ∀ ino < wrap32, (readInode fs d ino).ok = true) :
    fs.inodesPerGroup ≠ 0 ∧ InodesInside fs.inodesPerGroup fs.inodeSize fs.blockSize := by
  constructor
  · intro h0
    have hone := hok 1 (by decide)
    rw [readInode, if_neg (by decide), Checked.ok_bind, Checked.ok_check, h0] at hone
    cases hone
  · intro i hi
    have hread := hok (i + 1) (by omega)
    rw [readInode, if_neg (Nat.succ_ne_zero i)] at hread
    simp only [Nat.add_sub_cancel, Nat.div_eq_of_lt hi, Nat.mod_eq_of_lt hi, Checked.ok_bind,
      Nat.not_le.mpr hgroups, if_false, kmalloc_of_serves hd hfs, if_true,
      readBlock_of_serves hd, Checked.ok_check, and_eq_true] at hread
    have hfit := of_decide_eq_true hread.2.2.1
    exact hfit

/-! ### The blocks of a file -/

theorem readPointer_ok {block index : Nat} (hi : 4 * index + 4 ≤ fs.blockSize) :
    (readPointer fs d block index).ok = true := by
  rw [readPointer, Checked.ok_ite]
  cases readBlock d fs.blockSize block with
  | none => simp
  | some buf => simp [hi]

/-- The number of blocks that the pointers of an inode reach. -/
def Ext2.reach (fs : Ext2) : Nat :=
  12 + fs.blockSize / 4 + fs.blockSize / 4 * (fs.blockSize / 4)

theorem getInodeBlock_ok (hfs : fs.Sized) {logical : Nat} (hl : logical < fs.reach) :
    (getInodeBlock fs d inode logical).ok = true := by
  have hp := hfs.pointers
  have hbs := hfs.pos
  have hp0 : 0 < fs.blockSize / 4 := by omega
  rw [Ext2.reach] at hl
  rw [getInodeBlock]
  by_cases hdirect : logical < 12
  · rw [if_pos hdirect]
    rfl
  · rw [if_neg hdirect]
    by_cases hsingle : logical - 12 < fs.blockSize / 4
    · rw [if_pos hsingle]
      exact readPointer_ok (by omega)
    · rw [if_neg hsingle]
      have hhigh : (logical - 12 - fs.blockSize / 4) / (fs.blockSize / 4) < fs.blockSize / 4 :=
        Nat.div_lt_of_lt_mul (by omega)
      have hlow : (logical - 12 - fs.blockSize / 4) % (fs.blockSize / 4) < fs.blockSize / 4 :=
        Nat.mod_lt _ hp0
      simp only [Checked.ok_bind, Checked.ok_check, Checked.ok_ite, Checked.ok_pure]
      rw [readPointer_ok (by omega), readPointer_ok (by omega)]
      simp [Nat.pos_iff_ne_zero.mp hp0]

theorem of_getInodeBlock_ok (hd : d.Serves) (hfs : fs.Sized) {logical : Nat}
    (hok : (getInodeBlock fs d inode logical).ok = true) : logical < fs.reach := by
  by_contra hfar
  have hp := hfs.pointers
  have hbs := hfs.pos
  have hp0 : 0 < fs.blockSize / 4 := by omega
  rw [Ext2.reach] at hfar
  have hhigh : fs.blockSize / 4 ≤ (logical - 12 - fs.blockSize / 4) / (fs.blockSize / 4) :=
    (Nat.le_div_iff_mul_le hp0).mpr (by omega)
  rw [getInodeBlock, if_neg (by omega), if_neg (by omega)] at hok
  simp only [Checked.ok_bind, and_eq_true] at hok
  have hpointer := hok.2.1
  rw [readPointer, if_pos (kmalloc_of_serves hd hfs), readBlock_of_serves hd] at hpointer
  simp only [Checked.ok_bind, Checked.ok_check, and_eq_true, decide_eq_true_eq] at hpointer
  omega

/-! ### The bytes of a file -/

/-- One pass of the loop of `read_inode_data`. -/
theorem readDataLoop_ok_succ (hfs : fs.Sized) (d : Device) (inode : Ext2Inode)
    (passes offset : Nat) {count : Nat} (h0 : count ≠ 0) :
    ∃ toCopy, 0 < toCopy ∧ toCopy ≤ count ∧
      (∀ j < toCopy, (offset + j) / fs.blockSize = offset / fs.blockSize) ∧
      ((getInodeBlock fs d inode (offset / fs.blockSize % wrap32)).ok = true →
        (readDataLoop fs d inode passes (offset + toCopy) (count - toCopy)).ok = true →
        (readDataLoop fs d inode (passes + 1) offset count).ok = true) ∧
      (d.Serves → (readDataLoop fs d inode (passes + 1) offset count).ok = true →
        (getInodeBlock fs d inode (offset / fs.blockSize % wrap32)).ok = true ∧
        (readDataLoop fs d inode passes (offset + toCopy) (count - toCopy)).ok = true) := by
  have hmod : offset % fs.blockSize < fs.blockSize := Nat.mod_lt _ hfs.pos
  refine ⟨min (fs.blockSize - offset % fs.blockSize) count, by omega, by omega,
    fun j hj => (block_add (by omega)).1, ?_, ?_⟩
  · intro hblock hrest
    rw [readDataLoop, if_neg h0]
    simp only [Checked.ok_bind, Checked.ok_check, Checked.ok_ite, hblock, hrest]
    have hfit : offset % fs.blockSize + min (fs.blockSize - offset % fs.blockSize) count ≤
        fs.blockSize := by omega
    generalize readBlock d fs.blockSize _ = answer
    cases answer with
    | none => simp [Nat.pos_iff_ne_zero.mp hfs.pos]
    | some buf => simp [Nat.pos_iff_ne_zero.mp hfs.pos, hfit, hrest]
  · intro hd hok
    rw [readDataLoop, if_neg h0] at hok
    simp only [Checked.ok_bind, Checked.ok_ite, kmalloc_of_serves hd hfs, if_true,
      readBlock_of_serves hd, and_eq_true] at hok
    refine ⟨hok.2.1, ?_⟩
    have hlast := hok.2.2
    by_cases hhole : (getInodeBlock fs d inode (offset / fs.blockSize % wrap32)).val = 0
    · rw [if_pos hhole] at hlast
      simp only [and_eq_true] at hlast
      exact hlast.1
    · rw [if_neg hhole] at hlast
      simp only [and_eq_true] at hlast
      exact hlast.2.1

theorem readDataLoop_ok (hfs : fs.Sized) (passes : Nat) : ∀ offset count,
    (∀ pos, offset ≤ pos → pos < offset + count → pos / fs.blockSize < fs.reach) →
    (readDataLoop fs d inode passes offset count).ok = true := by
  induction passes with
  | zero =>
    intro offset count hreach
    rfl
  | succ passes ih =>
    intro offset count hreach
    by_cases h0 : count = 0
    · subst h0
      rfl
    · obtain ⟨toCopy, hpos, hle, -, hstep, -⟩ :=
        readDataLoop_ok_succ hfs d inode passes offset h0
      apply hstep
      · have hblock := hreach offset (Nat.le_refl offset) (by omega)
        exact getInodeBlock_ok hfs (Nat.lt_of_le_of_lt (Nat.mod_le _ _) hblock)
      · exact ih _ _ fun pos hlow hhigh => hreach pos (by omega) (by omega)

/-- Where the disk answers, every block of the request is looked up. -/
theorem of_readDataLoop_ok (hd : d.Serves) (hfs : fs.Sized) (passes : Nat) : ∀ offset count,
    count ≤ passes → (readDataLoop fs d inode passes offset count).ok = true →
    ∀ pos, offset ≤ pos → pos < offset + count → pos / fs.blockSize % wrap32 < fs.reach := by
  induction passes with
  | zero =>
    intro offset count hc hok pos hlow hhigh
    omega
  | succ passes ih =>
    intro offset count hc hok pos hlow hhigh
    obtain ⟨toCopy, hpos, hle, hsame, -, hstep⟩ :=
      readDataLoop_ok_succ hfs d inode passes offset (show count ≠ 0 by omega)
    obtain ⟨hblock, hrest⟩ := hstep hd hok
    by_cases hfirst : pos < offset + toCopy
    · have hdiv := hsame (pos - offset) (by omega)
      rw [Nat.add_sub_cancel' hlow] at hdiv
      rw [hdiv]
      exact of_getInodeBlock_ok hd hfs hblock
    · exact ih _ _ (by omega) hrest pos (by omega) (by omega)

theorem readInodeData_ok (hfs : fs.Sized) (hsize : inode.size < wrap32)
    (hreach : (inode.size - 1) / fs.blockSize < fs.reach) {offset : Nat} (ho : offset ≤ inode.size)
    (count : Nat) : (readInodeData fs d inode offset count).ok = true := by
  have hlow : offset % wrap32 = offset := Nat.mod_eq_of_lt (Nat.lt_of_le_of_lt ho hsize)
  rw [readInodeData, hlow]
  by_cases hend : inode.size ≤ offset
  · rw [if_pos hend]
    rfl
  · rw [if_neg hend]
    apply readDataLoop_ok hfs
    intro pos hpos hlt
    have hinside : pos ≤ inode.size - 1 := by
      split at hlt <;> omega
    exact Nat.lt_of_le_of_lt (Nat.div_le_div_right hinside) hreach

theorem of_readInodeData_ok (hd : d.Serves) (hfs : fs.Sized) (hsize : inode.size < wrap32)
    (hok : (readInodeData fs d inode 0 inode.size).ok = true) :
    (inode.size - 1) / fs.blockSize < fs.reach := by
  by_cases h0 : inode.size = 0
  · rw [h0, Nat.zero_sub, Nat.zero_div, Ext2.reach]
    omega
  · rw [readInodeData, Nat.zero_mod, Nat.zero_add, if_neg (Nat.lt_irrefl _),
      if_neg (by omega)] at hok
    have hlast := of_readDataLoop_ok hd hfs _ _ _ (Nat.le_refl _) hok (inode.size - 1)
      (Nat.zero_le _) (by omega)
    have hsmall := Nat.div_le_self (inode.size - 1) fs.blockSize
    rwa [Nat.mod_eq_of_lt (by omega)] at hlast

/-! ### Superblocks -/

/-- The disk holds the given superblock. -/
def Device.HasSuperblock (d : Device) (sb : Buffer) : Prop :=
  ∀ i < 1024, d.sector (2 + i / 512) (i % 512) = sb i

/-- The driver keeps to its buffers and does not divide by zero on any disk with the given
superblock, whatever else the disk holds and whichever requests fail: at the mount, for every
number of an inode, and for every read at an offset in a file with the given inode. -/
structure ArithmeticSafe (sb inode : Buffer) : Prop where
  mount : ∀ d : Device, d.HasSuperblock sb → (ext2Mount d).ok = true
  inodes : ∀ (d : Device) (fs : Ext2), d.HasSuperblock sb → (ext2Mount d).val = some fs →
    ∀ ino < wrap32, (readInode fs d ino).ok = true
  data : ∀ (d : Device) (fs : Ext2), d.HasSuperblock sb → (ext2Mount d).val = some fs →
    ∀ offset count, offset ≤ (readInodeFields inode 0).size →
      (readInodeData fs d (readInodeFields inode 0) offset count).ok = true

/-- The superblock gives numbers that the driver can compute with, and a file of the given
size is not longer than its pointers reach. The mount fails without harm if the size of the
group table wraps to zero. -/
structure Superblock.Sound (sb : Superblock) (size : Nat) : Prop where
  group : sb.blocksPerGroup ≠ 0
  block : sb.blockSize ≠ 0
  table : sb.bgdAlloc ≠ 0 → sb.bgdBlocks * sb.blockSize < wrap32
  perGroup : sb.bgdAlloc ≠ 0 → sb.inodesPerGroup ≠ 0
  inside : sb.bgdAlloc ≠ 0 → InodesInside sb.inodesPerGroup sb.inodeBytes sb.blockSize
  reach : sb.bgdAlloc ≠ 0 → (size - 1) / sb.blockSize <
    12 + sb.blockSize / 4 + sb.blockSize / 4 * (sb.blockSize / 4)

theorem readSuperblock_congr {buf buf' : Buffer} (h : ∀ i < 1024, buf i = buf' i) :
    readSuperblock buf = readSuperblock buf' := by
  simp (disch := decide) only [readSuperblock, le32, le16, h]

/-- What `ext2_read_superblock` makes of a disk. -/
theorem ext2ReadSuperblock_cases {sb : Buffer} (hsb : d.HasSuperblock sb)
    (hmagic : (readSuperblock sb).magic = ext2SuperMagic) :
    (¬ d.Serves ∧ ext2ReadSuperblock d = pure none) ∨
      ((ext2ReadSuperblock d).val = some (readSuperblock sb) ∧
        (ext2ReadSuperblock d).ok = decide ((readSuperblock sb).blocksPerGroup ≠ 0)) := by
  rw [ext2ReadSuperblock]
  by_cases hheap : d.kmalloc 1024 = true
  · rw [if_pos hheap, Device.readSectors]
    by_cases hdisk : d.readable 2 2 = true
    · right
      rw [if_pos hdisk]
      have hread : readSuperblock (fun i => if i < 2 * 512 then d.sector (2 + i / 512) (i % 512)
          else d.stray i) = readSuperblock sb :=
        readSuperblock_congr fun i hi => by rw [if_pos hi, hsb i hi]
      simp [hread, hmagic]
    · left
      rw [if_neg hdisk]
      exact ⟨fun hd => hdisk (hd.disk 2 2), rfl⟩
  · left
    rw [if_neg hheap]
    exact ⟨fun hd => hheap (hd.heap 1024), rfl⟩

/-- The file system mounted from a disk with a given superblock. -/
theorem mounted_of_hasSuperblock {sb : Buffer} (hsb : d.HasSuperblock sb)
    (hmagic : (readSuperblock sb).magic = ext2SuperMagic) (hmount : (ext2Mount d).val = some fs) :
    (readSuperblock sb).bgdAlloc ≠ 0 ∧ ∃ table, fs = (readSuperblock sb).mounted table := by
  obtain ⟨sb', table, hread, htable, rfl⟩ := ext2Mount_eq_some hmount
  have hsame : sb' = readSuperblock sb := by
    rcases ext2ReadSuperblock_cases hsb hmagic with ⟨-, hnone⟩ | ⟨hsome, -⟩
    · rw [hnone] at hread
      cases hread
    · exact Option.some.inj (hread.symm.trans hsome)
  subst hsame
  refine ⟨fun h0 => ?_, table, rfl⟩
  have hheap := ext2ReadBgd_eq_some htable
  rw [h0] at hheap
  cases hheap

theorem ext2ReadBgd_ok {sb : Superblock} {size : Nat} (h : sb.Sound size) :
    (ext2ReadBgd d sb).ok = true := by
  rw [ext2ReadBgd, Checked.ok_bind, Checked.ok_check, and_eq_true, Checked.ok_ite]
  refine ⟨decide_eq_true h.block, ?_⟩
  by_cases hheap : d.kmalloc sb.bgdAlloc = true
  · rw [if_pos hheap]
    have halloc : sb.bgdAlloc ≠ 0 := by
      intro h0
      rw [h0] at hheap
      cases hheap
    exact readBlocks_ok _ _ _ ((sb.fits_iff h.block).mpr (h.table halloc))
  · rw [if_neg hheap]
    rfl

theorem ext2Mount_ok (d : Device) : (ext2Mount d).ok = ((ext2ReadSuperblock d).ok &&
    ((ext2ReadSuperblock d).val.elim true fun sb => (ext2ReadBgd d sb).ok)) := by
  rw [ext2Mount, Checked.ok_bind]
  cases (ext2ReadSuperblock d).val with
  | none => rfl
  | some sb =>
    rw [Checked.ok_bind]
    cases (ext2ReadBgd d sb).val with
    | none => simp
    | some table => simp

theorem Superblock.Sound.safe {sb inode : Buffer}
    (hmagic : (readSuperblock sb).magic = ext2SuperMagic)
    (h : (readSuperblock sb).Sound (readInodeFields inode 0).size) : ArithmeticSafe sb inode where
  mount d hsb := by
    rw [ext2Mount_ok]
    rcases ext2ReadSuperblock_cases hsb hmagic with ⟨-, hnone⟩ | ⟨hval, hok⟩
    · rw [hnone, Checked.ok_pure, Checked.val_pure, Option.elim_none, Bool.true_and]
    · rw [hval, hok, Option.elim_some, ext2ReadBgd_ok h, Bool.and_true]
      exact decide_eq_true h.group
  inodes d fs hsb hmount ino _ := by
    have hfs := ext2Mount_sized hmount
    obtain ⟨halloc, table, rfl⟩ := mounted_of_hasSuperblock hsb hmagic hmount
    exact readInode_ok hfs (h.perGroup halloc) (h.inside halloc) ino
  data d fs hsb hmount offset count ho := by
    have hfs := ext2Mount_sized hmount
    obtain ⟨halloc, table, rfl⟩ := mounted_of_hasSuperblock hsb hmagic hmount
    exact readInodeData_ok hfs (le32_lt inode 4) (h.reach halloc) ho count

/-- A disk with a given superblock and zeros, on which every request succeeds. -/
def diskOf (sb : Buffer) : Device where
  sector n i := if n < 2 then 0 else sb ((n - 2) * 512 + i)
  readable _ _ := true
  heap _ := true
  stray _ := 0

theorem diskOf_serves (sb : Buffer) : (diskOf sb).Serves := ⟨fun _ _ => rfl, fun _ => rfl⟩

theorem diskOf_hasSuperblock (sb : Buffer) : (diskOf sb).HasSuperblock sb := by
  intro i _
  show (if 2 + i / 512 < 2 then 0 else sb ((2 + i / 512 - 2) * 512 + i % 512)) = sb i
  rw [if_neg (by omega), Nat.add_sub_cancel_left, Nat.mul_comm, Nat.div_add_mod]

theorem of_ext2ReadBgd_ok (hd : d.Serves) {sb : Superblock}
    (hok : (ext2ReadBgd d sb).ok = true) :
    sb.blockSize ≠ 0 ∧ (sb.bgdAlloc ≠ 0 → sb.bgdBlocks * sb.blockSize < wrap32 ∧
      ∃ table, (ext2ReadBgd d sb).val = some table) := by
  rw [ext2ReadBgd, Checked.ok_bind, Checked.ok_check, and_eq_true, decide_eq_true_eq,
    Checked.ok_ite] at hok
  obtain ⟨hblock, hblocks⟩ := hok
  refine ⟨hblock, fun halloc => ?_⟩
  have hheap : d.kmalloc sb.bgdAlloc = true := by
    simp [Device.kmalloc, hd.heap, halloc]
  rw [if_pos hheap] at hblocks
  obtain ⟨hval, hfits⟩ := readBlocks_serves hd sb.bgdBlocks 0 d.stray
  rw [ext2ReadBgd, Checked.val_bind, Checked.val_ite, if_pos hheap]
  exact ⟨(sb.fits_iff hblock).mp (hfits hblocks), hval⟩

/-- A disk that answers is mounted, and everything that is checked on the way holds. -/
theorem of_ext2Mount_ok (hd : d.Serves) {sb : Buffer} (hsb : d.HasSuperblock sb)
    (hmagic : (readSuperblock sb).magic = ext2SuperMagic) (hok : (ext2Mount d).ok = true) :
    (readSuperblock sb).blocksPerGroup ≠ 0 ∧ (readSuperblock sb).blockSize ≠ 0 ∧
      ((readSuperblock sb).bgdAlloc ≠ 0 →
        (readSuperblock sb).bgdBlocks * (readSuperblock sb).blockSize < wrap32 ∧
        ∃ table, (ext2Mount d).val = some ((readSuperblock sb).mounted table)) := by
  rcases ext2ReadSuperblock_cases hsb hmagic with ⟨hnot, -⟩ | ⟨hval, hsuper⟩
  · exact absurd hd hnot
  · rw [ext2Mount_ok, hval, hsuper, Option.elim_some, and_eq_true, decide_eq_true_eq] at hok
    obtain ⟨hblock, htable⟩ := of_ext2ReadBgd_ok hd hok.2
    refine ⟨hok.1, hblock, fun halloc => ?_⟩
    obtain ⟨hfits, table, hread⟩ := htable halloc
    rw [ext2Mount_val, hval, Option.bind_some, hread]
    exact ⟨hfits, table, rfl⟩

theorem Superblock.bgdCount_pos (sb : Superblock) (halloc : sb.bgdAlloc ≠ 0) :
    0 < sb.bgdCount := by
  by_contra hzero
  apply halloc
  have hcount : sb.bgdCount = 0 := by omega
  rw [Superblock.bgdAlloc, Superblock.bgdBlocks, hcount, Nat.zero_mul, Nat.zero_add]
  by_cases hbs : sb.blockSize = 0
  · rw [hbs]
    rfl
  · rw [Nat.div_eq_of_lt (by omega), Nat.zero_mod, Nat.zero_mul]
    rfl

theorem ArithmeticSafe.sound {sb inode : Buffer}
    (hmagic : (readSuperblock sb).magic = ext2SuperMagic) (h : ArithmeticSafe sb inode) :
    (readSuperblock sb).Sound (readInodeFields inode 0).size := by
  have hd := diskOf_serves sb
  have hsb := diskOf_hasSuperblock sb
  obtain ⟨hgroup, hblock, hmounted⟩ := of_ext2Mount_ok hd hsb hmagic (h.mount _ hsb)
  have hrest (halloc : (readSuperblock sb).bgdAlloc ≠ 0) :
      ((readSuperblock sb).inodesPerGroup ≠ 0 ∧ InodesInside (readSuperblock sb).inodesPerGroup
        (readSuperblock sb).inodeBytes (readSuperblock sb).blockSize) ∧
      ((readInodeFields inode 0).size - 1) / (readSuperblock sb).blockSize <
        12 + (readSuperblock sb).blockSize / 4 +
          (readSuperblock sb).blockSize / 4 * ((readSuperblock sb).blockSize / 4) := by
    obtain ⟨-, table, hmount⟩ := hmounted halloc
    have hfs := ext2Mount_sized hmount
    constructor
    · exact of_readInode_ok hd hfs (Superblock.bgdCount_pos _ halloc) (le32_lt sb 40)
        (h.inodes _ _ hsb hmount)
    · exact of_readInodeData_ok hd hfs (le32_lt inode 4)
        (h.data _ _ hsb hmount 0 _ (Nat.zero_le _))
  exact ⟨hgroup, hblock, fun halloc => (hmounted halloc).1, fun halloc => (hrest halloc).1.1,
    fun halloc => (hrest halloc).1.2, fun halloc => (hrest halloc).2⟩

theorem ext2_arithmetic_safe_iff (sb inode : Buffer)
    (hmagic : (readSuperblock sb).magic = ext2SuperMagic) :
    ArithmeticSafe sb inode ↔ (readSuperblock sb).Sound (readInodeFields inode 0).size :=
  ⟨ArithmeticSafe.sound hmagic, Superblock.Sound.safe hmagic⟩

/-- A superblock of one group of eight blocks of 1024 bytes and eight inodes. -/
def smallSuper : Buffer := fun i =>
  if i = 4 ∨ i = 32 ∨ i = 40 then 8 else if i = 56 then 0x53 else if i = 57 then 0xEF else 0

theorem ext2_arithmetic_safe_smallSuper : ArithmeticSafe smallSuper emptyInode :=
  (ext2_arithmetic_safe_iff smallSuper emptyInode (by decide +kernel)).mpr
    ⟨by decide, by decide, fun _ => by decide, fun _ => by decide, fun _ => by decide +kernel,
      fun _ => by decide +kernel⟩

/-- A superblock with no blocks in a group, and an inode of a file of 128 MiB. -/
theorem ext2_arithmetic_fails :
    (∃ sb inode, (readSuperblock sb).magic = ext2SuperMagic ∧
      (ext2Mount (diskOf sb)).ok = false ∧ ¬ ArithmeticSafe sb inode) ∧
    ∃ inode, (readInodeFields inode 0).size = 2 ^ 27 ∧ ¬ ArithmeticSafe smallSuper inode := by
  constructor
  · refine ⟨fun i => if i = 56 then 0x53 else if i = 57 then 0xEF else 0, emptyInode,
      by decide +kernel, by decide +kernel, fun h => ?_⟩
    exact (h.sound (by decide +kernel)).group (by decide +kernel)
  · refine ⟨fun i => if i = 7 then 8 else 0, by decide +kernel, fun h => ?_⟩
    exact absurd ((h.sound (by decide +kernel)).reach (by decide +kernel)) (by decide +kernel)

end Mmix.Fs
