import Mmix.Fs.Ext2

/-!
# Block devices and partitions

The table of `blockdev.c` as `ahci_init` fills it, and `partition.c` on top of
it. The drives and the heap are arbitrary. A read through the table is a call
of a callback, which for a partition is another read through the table: the
number of nested calls is an argument, and a read that does not return within
it is none.
-/

namespace Mmix.Fs

open List

abbrev DevName := List UInt8

/-- The callback of a device: that of a drive or that of a partition. -/
inductive Reader where
  | ahciReadSectors
  | partReadCb

structure Blockdev where
  name : DevName
  devId : Nat
  sectors : Nat
  read : Reader

structure PartInfo where
  parentName : DevName
  partNum : Nat
  lbaOffset : Nat
  totalSectors : Nat
  type : UInt8

structure Storage where
  devices : List Blockdev
  parts : List PartInfo

/-- A request to the drive at a port. -/
structure Request where
  port : Nat
  lba : Nat
  count : Nat

/-- What a read returns, what it puts into the buffer, and the requests it makes. -/
structure Reply where
  rc : Int
  buf : Buffer
  requests : List Request

/-- The answers of the drives. -/
abbrev Drive := Request → Int × Buffer

/-- The reply to a request that is passed to its drive. -/
def Drive.reply (drive : Drive) (r : Request) : Reply := ⟨(drive r).1, (drive r).2, [r]⟩

abbrev blockdevMax : Nat := 16

abbrev blockdevNameMax : Nat := 16

/-- `blockdev_register`. -/
def blockdevRegister (devices : List Blockdev) (name : DevName) (devId sectors : Nat)
    (read : Reader) : List Blockdev :=
  if blockdevMax ≤ devices.length then devices
  else devices ++ [⟨name.take (blockdevNameMax - 1), devId, sectors, read⟩]

/-- `blockdev_get`. -/
def blockdevGet (devices : List Blockdev) (name : DevName) : Option Blockdev :=
  devices.find? (·.name == name)

/-- `blockdev_read`, with the callbacks `ahci_read_sectors` and `part_read_cb`. -/
def blockdevRead (st : Storage) (drive : Drive) : Nat → DevName → Nat → Nat → Option Reply
  | 0, _, _, _ => none
  | depth + 1, name, lba, count =>
    match blockdevGet st.devices name with
    | none => some ⟨-1, fun _ => 0, []⟩
    | some d =>
      match d.read with
      | .ahciReadSectors => some (Drive.reply drive ⟨d.devId, lba, count⟩)
      | .partReadCb =>
        match st.parts[d.devId]? with
        | none => some ⟨-1, fun _ => 0, []⟩
        | some pi =>
          blockdevRead st drive depth pi.parentName ((pi.lbaOffset + lba) % 2 ^ 64) count

/-- The name `sd` and a letter of the drive at a port. -/
def diskName (p : Nat) : DevName := [0x73, 0x64, UInt8.ofNat (0x61 + p)]

/-- The registrations at the end of `ahci_init`. -/
def ahciRegister (active : Nat → Bool) : List Blockdev :=
  (List.range 32).foldl (fun devices p =>
    if active p then blockdevRegister devices (diskName p) p 2097152 .ahciReadSectors
    else devices) []

/-- `snprintf` of `"%s%d"` into 16 bytes. -/
def partName (parent : DevName) (num : Nat) : DevName :=
  (parent ++ (Nat.toDigits 10 num).map fun c => UInt8.ofNat c.toNat).take 15

def PartInfo.name (pi : PartInfo) : DevName := partName pi.parentName pi.partNum

/-- An entry of the table of a master boot record. -/
def mbrEntry (mbr : Buffer) (bd : Blockdev) (i : Nat) : PartInfo where
  parentName := bd.name.take 15
  partNum := i + 1
  lbaOffset := le32 mbr (446 + 16 * i + 8)
  totalSectors := le32 mbr (446 + 16 * i + 12)
  type := mbr (446 + 16 * i + 4)

/-- The loop of `partition_init` over the entries of a table. -/
def scanEntry (mbr : Buffer) (bd : Blockdev) (st : Storage) (i : Nat) : Storage :=
  let pi := mbrEntry mbr bd i
  if 32 ≤ st.parts.length then st
  else if pi.type = 0 ∨ pi.totalSectors = 0 then st
  else
    { devices := blockdevRegister st.devices (partName bd.name (i + 1)) st.parts.length
        pi.totalSectors .partReadCb
      parts := st.parts ++ [pi] }

/-- The loop of `partition_init` over the devices; `heap` says whether `kmalloc` has a
buffer for a device. -/
def scanDevice (drive : Drive) (heap : Nat → Bool) (depth : Nat) (st : Storage) (d : Nat) :
    Storage :=
  match st.devices[d]? with
  | none => st
  | some bd =>
    if !heap d then st
    else
      match blockdevRead st drive depth bd.name 0 1 with
      | none => st
      | some reply =>
        if reply.rc ≠ 1 then st
        else if reply.buf 510 ≠ 0x55 ∨ reply.buf 511 ≠ 0xAA then st
        else (List.range 4).foldl (scanEntry reply.buf bd) st

/-- `partition_init`. -/
def partitionInit (drive : Drive) (heap : Nat → Bool) (depth : Nat) (devices : List Blockdev) :
    Storage :=
  (List.range devices.length).foldl (scanDevice drive heap depth) ⟨devices, []⟩

/-- `partition_read_sectors`. -/
def partitionReadSectors (st : Storage) (drive : Drive) (depth : Nat) (name : DevName)
    (lba count : Nat) : Option Reply :=
  match st.parts.find? (·.name == name) with
  | some pi => blockdevRead st drive depth pi.parentName ((pi.lbaOffset + lba) % 2 ^ 64) count
  | none => blockdevRead st drive depth name lba count

/-- The reply to a read of a partition requests sectors of the partition only, and is an
error if the read asks for others. -/
structure PartInfo.Within (pi : PartInfo) (lba count : Nat) (reply : Reply) : Prop where
  inside : ∀ r ∈ reply.requests, ∀ i < r.count, pi.lbaOffset ≤ (r.lba + i) % 2 ^ 64 ∧
    (r.lba + i) % 2 ^ 64 < pi.lbaOffset + pi.totalSectors
  refused : (∃ i < count, pi.totalSectors ≤ lba + i) → reply.rc = -1

/-- Both ways to read a partition return and stay in it. -/
def Storage.Confined (st : Storage) (drive : Drive) (depth : Nat) (pi : PartInfo)
    (lba count : Nat) : Prop :=
  (∃ reply, partitionReadSectors st drive depth pi.name lba count = some reply ∧
    pi.Within lba count reply) ∧
  ∃ reply, blockdevRead st drive depth pi.name lba count = some reply ∧
    pi.Within lba count reply

/-! ### Names -/

/-- In a list with different keys, the first member with the key of a member is that
member. -/
theorem find?_key {α β : Type*} [BEq β] [LawfulBEq β] {f : α → β} {l : List α}
    (hl : (l.map f).Nodup) {x : α} (hx : x ∈ l) : l.find? (f · == f x) = some x := by
  cases hfind : l.find? (f · == f x) with
  | none =>
    have hne := find?_eq_none.mp hfind x hx
    simp at hne
  | some y =>
    have hy := mem_of_find?_eq_some hfind
    have hkey : f y = f x := by simpa using find?_some hfind
    rw [inj_on_of_nodup_map hl hy hx hkey]

theorem diskName_inj {p q : Nat} (hp : p < 32) (hq : q < 32) (h : diskName p = diskName q) :
    p = q := by
  simp only [diskName, cons.injEq, and_true, true_and] at h
  have hnat := congrArg UInt8.toNat h
  rw [UInt8.toNat_ofNat', UInt8.toNat_ofNat'] at hnat
  omega

theorem partName_diskName {i : Nat} (hi : i < 4) (p : Nat) :
    partName (diskName p) (i + 1) = diskName p ++ [UInt8.ofNat (0x31 + i)] := by
  match i, hi with
  | 0, _ => rfl
  | 1, _ => rfl
  | 2, _ => rfl
  | 3, _ => rfl

theorem partName_inj {p q i j : Nat} (hp : p < 32) (hq : q < 32) (hi : i < 4) (hj : j < 4)
    (h : partName (diskName p) (i + 1) = partName (diskName q) (j + 1)) : p = q ∧ i = j := by
  rw [partName_diskName hi, partName_diskName hj] at h
  obtain ⟨hdisk, hdigit⟩ := append_inj' h rfl
  have hnat := congrArg UInt8.toNat (cons.inj hdigit).1
  rw [UInt8.toNat_ofNat', UInt8.toNat_ofNat'] at hnat
  exact ⟨diskName_inj hp hq hdisk, by omega⟩

/-! ### The drives -/

/-- The device of the drive at a port. -/
def disk (p : Nat) : Blockdev := ⟨diskName p, p, 2097152, .ahciReadSectors⟩

theorem blockdevRegister_take (l : List Blockdev) (name : DevName) (devId sectors : Nat)
    (read : Reader) : blockdevRegister (l.take blockdevMax) name devId sectors read =
      (l ++ [Blockdev.mk (name.take 15) devId sectors read]).take blockdevMax := by
  by_cases hfull : blockdevMax ≤ l.length
  · rw [blockdevRegister, if_pos (by rw [length_take]; exact Nat.le_min.mpr ⟨Nat.le_refl _, hfull⟩),
      take_append_of_le_length hfull]
  · have hlt := Nat.lt_of_not_le hfull
    have hlen : (l ++ [Blockdev.mk (name.take 15) devId sectors read]).length ≤ blockdevMax := by
      rw [length_append]
      exact hlt
    rw [take_of_length_le (Nat.le_of_lt hlt), blockdevRegister, if_neg hfull]
    exact (take_of_length_le hlen).symm

theorem foldl_register (active : Nat → Bool) (ps : List Nat) (l : List Blockdev) :
    ps.foldl (fun devices p =>
        if active p then blockdevRegister devices (diskName p) p 2097152 .ahciReadSectors
        else devices) (l.take blockdevMax) =
      (l ++ (ps.filter active).map disk).take blockdevMax := by
  induction ps generalizing l with
  | nil => rw [foldl_nil, filter_nil, map_nil, append_nil]
  | cons p ps ih =>
    rw [foldl_cons]
    by_cases hp : active p = true
    · rw [if_pos hp, blockdevRegister_take, ih, filter_cons_of_pos hp, map_cons,
        append_assoc]
      rfl
    · rw [if_neg hp, ih, filter_cons_of_neg hp]

theorem ahciRegister_eq (active : Nat → Bool) :
    ahciRegister active = (((range 32).filter active).map disk).take blockdevMax := by
  have h := foldl_register active (range 32) []
  rwa [take_nil, nil_append] at h

/-- The table of the drives: at most 16 of them, with different names. -/
structure Disks (raw : List Blockdev) : Prop where
  length : raw.length ≤ blockdevMax
  disk : ∀ d ∈ raw, ∃ p < 32, d = disk p
  nodup : (raw.map (·.name)).Nodup

theorem disks_ahciRegister (active : Nat → Bool) : Disks (ahciRegister active) where
  length := by
    rw [ahciRegister_eq, length_take]
    exact Nat.min_le_left _ _
  disk d hd := by
    rw [ahciRegister_eq] at hd
    obtain ⟨p, hp, rfl⟩ := mem_map.mp (mem_of_mem_take hd)
    exact ⟨p, mem_range.mp (mem_of_mem_filter hp), rfl⟩
  nodup := by
    have hsub : (ahciRegister active).Sublist ((range 32).map disk) := by
      rw [ahciRegister_eq]
      exact (take_sublist _ _).trans (filter_sublist.map disk)
    apply (hsub.map _).nodup
    rw [map_map]
    apply nodup_range.map_on
    intro p hp q hq h
    exact diskName_inj (mem_range.mp hp) (mem_range.mp hq) h

/-! ### The partitions -/

/-- The entry of a table, if it is in use. -/
def entryParts (mbr : Buffer) (bd : Blockdev) (i : Nat) : List PartInfo :=
  let pi := mbrEntry mbr bd i
  if pi.type = 0 ∨ pi.totalSectors = 0 then [] else [pi]

/-- The partitions of a drive. -/
def diskParts (drive : Drive) (heap : Nat → Bool) (d : Nat) (bd : Blockdev) : List PartInfo :=
  let answer := drive ⟨bd.devId, 0, 1⟩
  if heap d ∧ answer.1 = 1 ∧ answer.2 510 = 0x55 ∧ answer.2 511 = 0xAA then
    (List.range 4).flatMap (entryParts answer.2 bd)
  else []

/-- The devices of partitions. -/
def partDevices (ps : List PartInfo) : List Blockdev :=
  ps.zipIdx.map fun x => ⟨x.1.name, x.2, x.1.totalSectors, .partReadCb⟩

/-- The tables after some partitions were found on the drives: both are cut off at
their sizes. -/
structure Storage.Holds (raw : List Blockdev) (st : Storage) (ps : List PartInfo) : Prop where
  parts : st.parts = ps.take 32
  devices : st.devices = (raw ++ partDevices (ps.take 32)).take blockdevMax

section Scan

variable {raw : List Blockdev} {st : Storage} {ps : List PartInfo}

theorem Storage.Holds.scanEntry (h : st.Holds raw ps) (mbr : Buffer) {bd : Blockdev}
    (hbd : bd.name.length ≤ 15) (i : Nat) :
    (scanEntry mbr bd st i).Holds raw (ps ++ entryParts mbr bd i) := by
  by_cases hunused : (mbrEntry mbr bd i).type = 0 ∨ (mbrEntry mbr bd i).totalSectors = 0
  · rw [entryParts, if_pos hunused, append_nil]
    simp only [Fs.scanEntry, if_pos hunused, ite_self]
    exact h
  · rw [entryParts, if_neg hunused]
    by_cases hfull : 32 ≤ st.parts.length
    · have hlen : 32 ≤ ps.length := by
        rw [h.parts, length_take] at hfull
        omega
      simp only [Fs.scanEntry, if_pos hfull]
      constructor
      · rw [h.parts, take_append_of_le_length hlen]
      · rw [h.devices, take_append_of_le_length hlen]
    · have hlen : ps.length < 32 := by
        rw [h.parts, length_take] at hfull
        omega
      have hps : ps.take 32 = ps := take_of_length_le (Nat.le_of_lt hlen)
      have hnext : (ps ++ [mbrEntry mbr bd i]).take 32 = ps ++ [mbrEntry mbr bd i] :=
        take_of_length_le (by rw [length_append]; exact hlen)
      have hname : partName bd.name (i + 1) = (mbrEntry mbr bd i).name := by
        rw [PartInfo.name, mbrEntry, take_of_length_le hbd]
      have hcut : (mbrEntry mbr bd i).name.take 15 = (mbrEntry mbr bd i).name := by
        rw [PartInfo.name, partName, take_take, Nat.min_self]
      simp only [Fs.scanEntry, if_neg hfull, if_neg hunused]
      constructor
      · rw [hnext, h.parts, hps]
      · rw [hnext, h.devices, h.parts, hps, blockdevRegister_take, hname, hcut, append_assoc,
          partDevices, partDevices, zipIdx_append, map_append]
        simp only [zipIdx_cons, zipIdx_nil, map_cons, map_nil, Nat.zero_add]

theorem Storage.Holds.scanTable (h : st.Holds raw ps) (mbr : Buffer) {bd : Blockdev}
    (hbd : bd.name.length ≤ 15) (is : List Nat) :
    (is.foldl (Fs.scanEntry mbr bd) st).Holds raw (ps ++ is.flatMap (entryParts mbr bd)) := by
  induction is generalizing st ps with
  | nil => rwa [foldl_nil, flatMap_nil, append_nil]
  | cons i is ih =>
    rw [foldl_cons, flatMap_cons, ← append_assoc]
    exact ih (h.scanEntry mbr hbd i)

/-- A drive is found under its name. -/
theorem Storage.Holds.get_disk (h : st.Holds raw ps) (hraw : Disks raw) {bd : Blockdev}
    (hbd : bd ∈ raw) : blockdevGet st.devices bd.name = some bd := by
  rw [blockdevGet, h.devices, take_append, take_of_length_le hraw.length,
    find?_append, find?_key hraw.nodup hbd]
  rfl

theorem Storage.Holds.read_disk (h : st.Holds raw ps) (hraw : Disks raw) {bd : Blockdev}
    (hbd : bd ∈ raw) (drive : Drive) (depth lba count : Nat) :
    blockdevRead st drive (depth + 1) bd.name lba count =
      some (Drive.reply drive ⟨bd.devId, lba, count⟩) := by
  obtain ⟨p, -, rfl⟩ := hraw.disk bd hbd
  rw [blockdevRead, h.get_disk hraw hbd]
  rfl

theorem Storage.Holds.scanDevice (h : st.Holds raw ps) (hraw : Disks raw) (drive : Drive)
    (heap : Nat → Bool) (depth : Nat) {d : Nat} {bd : Blockdev} (hd : raw[d]? = some bd) :
    (scanDevice drive heap (depth + 1) st d).Holds raw (ps ++ diskParts drive heap d bd) := by
  have hbd : bd ∈ raw := List.mem_of_getElem? hd
  have hlt : d < raw.length := (List.getElem?_eq_some_iff.mp hd).1
  have hget : st.devices[d]? = some bd := by
    rw [h.devices, getElem?_take_of_lt (Nat.lt_of_lt_of_le hlt hraw.length),
      getElem?_append_left hlt, hd]
  have hname : bd.name.length ≤ 15 := by
    obtain ⟨p, -, rfl⟩ := hraw.disk bd hbd
    exact show 3 ≤ 15 by decide
  simp only [Fs.scanDevice, hget, h.read_disk hraw hbd, diskParts, Drive.reply]
  by_cases hheap : heap d = true
  · rw [if_neg (by simp [hheap])]
    by_cases hrc : (drive ⟨bd.devId, 0, 1⟩).1 = 1
    · rw [if_neg (not_not.mpr hrc)]
      by_cases hsig : (drive ⟨bd.devId, 0, 1⟩).2 510 = 0x55 ∧ (drive ⟨bd.devId, 0, 1⟩).2 511 = 0xAA
      · rw [if_neg (by simp [hsig.1, hsig.2]), if_pos ⟨hheap, hrc, hsig⟩]
        exact h.scanTable _ hname _
      · rw [if_pos (Decidable.not_and_iff_not_or_not.mp hsig), if_neg (fun hall => hsig hall.2.2),
          append_nil]
        exact h
    · rw [if_pos hrc, if_neg (fun hall => hrc hall.2.1), append_nil]
      exact h
  · rw [if_pos (by simpa using hheap), if_neg (fun hall => hheap hall.1), append_nil]
    exact h

end Scan

/-- The partitions of the first drives of a table. -/
def foundParts (drive : Drive) (heap : Nat → Bool) (raw : List Blockdev) (n : Nat) :
    List PartInfo :=
  (List.range n).flatMap fun d => raw[d]?.toList.flatMap (diskParts drive heap d)

theorem holds_scan {raw : List Blockdev} (hraw : Disks raw) (drive : Drive) (heap : Nat → Bool)
    (depth : Nat) {n : Nat} (hn : n ≤ raw.length) :
    ((range n).foldl (scanDevice drive heap (depth + 1)) ⟨raw, []⟩).Holds raw
      (foundParts drive heap raw n) := by
  induction n with
  | zero =>
    constructor
    · rfl
    · show raw = (raw ++ []).take blockdevMax
      rw [append_nil, take_of_length_le hraw.length]
  | succ n ih =>
    have hget : raw[n]? = some raw[n] := getElem?_eq_getElem hn
    rw [foundParts, range_succ, foldl_append, flatMap_append, flatMap_singleton,
      hget, Option.toList_some, flatMap_singleton, foldl_cons, foldl_nil]
    exact (ih (Nat.le_of_lt hn)).scanDevice hraw drive heap depth hget

/-! ### The names of the partitions -/

/-- A partition of the drive at a port. -/
structure PartInfo.On (pi : PartInfo) (p i : Nat) : Prop where
  parentName : pi.parentName = diskName p
  partNum : pi.partNum = i + 1
  num : i < 4
  lbaOffset : pi.lbaOffset < 2 ^ 32
  totalSectors : pi.totalSectors < 2 ^ 32

theorem PartInfo.On.name_eq {pi : PartInfo} {p i : Nat} (h : pi.On p i) :
    pi.name = partName (diskName p) (i + 1) := by
  rw [PartInfo.name, h.parentName, h.partNum]

theorem on_of_mem_entryParts {mbr : Buffer} {p i : Nat} (hi : i < 4) {pi : PartInfo}
    (h : pi ∈ entryParts mbr (disk p) i) : pi.On p i := by
  simp only [entryParts, mem_ite_nil_left, mem_singleton] at h
  obtain ⟨-, rfl⟩ := h
  exact ⟨rfl, rfl, hi, le32_lt _ _, le32_lt _ _⟩

theorem on_of_mem_diskParts {drive : Drive} {heap : Nat → Bool} {d p : Nat} {pi : PartInfo}
    (h : pi ∈ diskParts drive heap d (disk p)) : ∃ i, pi.On p i := by
  simp only [diskParts, mem_ite_nil_right, mem_flatMap, mem_range] at h
  obtain ⟨-, i, hi, hmem⟩ := h
  exact ⟨i, on_of_mem_entryParts hi hmem⟩

theorem on_of_mem_foundParts {raw : List Blockdev} (hraw : Disks raw) {drive : Drive}
    {heap : Nat → Bool} {n : Nat} {pi : PartInfo} (h : pi ∈ foundParts drive heap raw n) :
    ∃ p i, p < 32 ∧ disk p ∈ raw ∧ pi.On p i := by
  simp only [foundParts, mem_flatMap, Option.mem_toList] at h
  obtain ⟨d, -, bd, hbd, hmem⟩ := h
  have hraw' := mem_of_getElem? hbd
  obtain ⟨p, hp, rfl⟩ := hraw.disk bd hraw'
  obtain ⟨i, hi⟩ := on_of_mem_diskParts hmem
  exact ⟨p, i, hp, hraw', hi⟩

theorem nodup_entryParts (mbr : Buffer) {p : Nat} (hp : p < 32) :
    (((range 4).flatMap (entryParts mbr (disk p))).map PartInfo.name).Nodup := by
  rw [map_flatMap, nodup_flatMap]
  constructor
  · intro i _
    rw [entryParts]
    split
    · exact nodup_nil
    · exact nodup_singleton _
  · apply nodup_range.imp_of_mem
    intro i j hi hj hne x hx hy
    obtain ⟨a, ha, rfl⟩ := mem_map.mp hx
    obtain ⟨b, hb, hab⟩ := mem_map.mp hy
    have hai := on_of_mem_entryParts (mem_range.mp hi) ha
    have hbj := on_of_mem_entryParts (mem_range.mp hj) hb
    rw [hai.name_eq, hbj.name_eq] at hab
    exact hne (partName_inj hp hp hbj.num hai.num hab).2.symm

theorem nodup_diskParts (drive : Drive) (heap : Nat → Bool) (d : Nat) {p : Nat} (hp : p < 32) :
    ((diskParts drive heap d (disk p)).map PartInfo.name).Nodup := by
  simp only [diskParts]
  split
  · exact nodup_entryParts _ hp
  · exact nodup_nil

/-- No two partitions have one name. -/
theorem nodup_foundParts {raw : List Blockdev} (hraw : Disks raw) (drive : Drive)
    (heap : Nat → Bool) (n : Nat) :
    ((foundParts drive heap raw n).map PartInfo.name).Nodup := by
  rw [foundParts, map_flatMap, nodup_flatMap]
  constructor
  · intro d _
    cases hbd : raw[d]? with
    | none => exact nodup_nil
    | some bd =>
      obtain ⟨p, hp, rfl⟩ := hraw.disk bd (mem_of_getElem? hbd)
      rw [Option.toList_some, flatMap_singleton]
      exact nodup_diskParts drive heap d hp
  · apply nodup_range.imp
    intro d e hne x hx hy
    simp only [mem_map, mem_flatMap, Option.mem_toList] at hx hy
    obtain ⟨a, ⟨bd, hbd, ha⟩, rfl⟩ := hx
    obtain ⟨b, ⟨be, hbe, hb⟩, hab⟩ := hy
    obtain ⟨p, hp, rfl⟩ := hraw.disk bd (mem_of_getElem? hbd)
    obtain ⟨q, hq, rfl⟩ := hraw.disk be (mem_of_getElem? hbe)
    obtain ⟨i, hai⟩ := on_of_mem_diskParts ha
    obtain ⟨j, hbj⟩ := on_of_mem_diskParts hb
    rw [hai.name_eq, hbj.name_eq] at hab
    obtain ⟨rfl, -⟩ := partName_inj hq hp hbj.num hai.num hab
    -- The drives of one name have one place in the table.
    apply hne
    have hnodup : raw.Nodup := List.Nodup.of_map _ hraw.nodup
    obtain ⟨_, hgetd⟩ := List.getElem?_eq_some_iff.mp hbd
    obtain ⟨_, hgete⟩ := List.getElem?_eq_some_iff.mp hbe
    exact hnodup.getElem_inj_iff.mp (hgetd.trans hgete.symm)

/-! ### Reads -/

theorem PartInfo.within_error (pi : PartInfo) (lba count : Nat) (buf : Buffer) :
    pi.Within lba count ⟨-1, buf, []⟩ :=
  ⟨fun _ hr => absurd hr not_mem_nil, fun _ => rfl⟩

/-- A read that is passed on stays in the partition if it asks for no sector behind it. -/
theorem PartInfo.On.within_iff {pi : PartInfo} {p i : Nat} (h : pi.On p i) {lba : Nat}
    (hlba : lba < 2 ^ 64) (drive : Drive) (count port : Nat) :
    pi.Within lba count (drive.reply ⟨port, (pi.lbaOffset + lba) % 2 ^ 64, count⟩) ↔
      count = 0 ∨ lba + count ≤ pi.totalSectors := by
  have hoff := h.lbaOffset
  have htot := h.totalSectors
  constructor
  · intro hw
    have hin := hw.inside _ (mem_singleton.mpr rfl)
    by_contra hcond
    have hpos : 0 < count := by omega
    have hfirst := hin 0 hpos
    simp only at hin hfirst
    have hlt : lba < pi.totalSectors := by omega
    have hlast := hin (pi.totalSectors - lba) (by omega)
    omega
  · intro hcond
    constructor
    · intro r hr k hk
      obtain rfl := mem_singleton.mp hr
      simp only at hk ⊢
      omega
    · rintro ⟨k, hk, hbehind⟩
      omega

section Read

variable {raw : List Blockdev} {st : Storage} {ps : List PartInfo} {pi : PartInfo}

theorem Storage.Holds.get_part (h : st.Holds raw ps) (hraw : Disks raw)
    (hon : ∀ pi ∈ ps, ∃ p i, p < 32 ∧ disk p ∈ raw ∧ pi.On p i)
    (hps : (ps.map PartInfo.name).Nodup) (hpi : pi ∈ st.parts) {d : Blockdev}
    (hget : blockdevGet st.devices pi.name = some d) :
    d.read = .partReadCb ∧ st.parts[d.devId]? = some pi := by
  have hname : d.name = pi.name := by simpa using find?_some hget
  have hmem := mem_of_find?_eq_some hget
  rw [h.devices] at hmem
  rw [h.parts] at hpi ⊢
  rcases mem_append.mp (mem_of_mem_take hmem) with hdisk | hpart
  · obtain ⟨q, hq, rfl⟩ := hraw.disk d hdisk
    obtain ⟨p, i, hp, -, hpi⟩ := hon pi (mem_of_mem_take hpi)
    rw [hpi.name_eq, partName_diskName hpi.num] at hname
    have hlen : 3 = 4 := congrArg length hname
    exact absurd hlen (by decide)
  · rw [partDevices, mem_map] at hpart
    obtain ⟨⟨x, k⟩, hx, rfl⟩ := hpart
    have hxk := mem_zipIdx_iff_getElem?.mp hx
    have hxps := mem_of_mem_take (mem_of_getElem? hxk)
    have hsame := inj_on_of_nodup_map hps hxps (mem_of_mem_take hpi) hname
    exact ⟨rfl, hsame ▸ hxk⟩

/-- Both ways to read a partition pass the read on to its drive. -/
theorem Storage.Holds.confined_iff (h : st.Holds raw ps) (hraw : Disks raw)
    (hon : ∀ pi ∈ ps, ∃ p i, p < 32 ∧ disk p ∈ raw ∧ pi.On p i)
    (hps : (ps.map PartInfo.name).Nodup) (hpi : pi ∈ st.parts) (drive : Drive) (depth : Nat)
    {lba : Nat} (hlba : lba < 2 ^ 64) (count : Nat) :
    st.Confined drive (depth + 2) pi lba count ↔ count = 0 ∨ lba + count ≤ pi.totalSectors := by
  obtain ⟨p, i, hp, hdisk, hpart⟩ := hon pi (mem_of_mem_take (h.parts ▸ hpi))
  let reply := Drive.reply drive ⟨p, (pi.lbaOffset + lba) % 2 ^ 64, count⟩
  have hwithin : pi.Within lba count reply ↔ _ := hpart.within_iff hlba drive count p
  have hread : ∀ depth, blockdevRead st drive (depth + 1) pi.parentName
      ((pi.lbaOffset + lba) % 2 ^ 64) count = some reply := by
    intro depth
    rw [hpart.parentName]
    exact h.read_disk hraw hdisk drive depth _ count
  have hfind : st.parts.find? (·.name == pi.name) = some pi := by
    apply find?_key (f := PartInfo.name) ?_ hpi
    rw [h.parts]
    exact ((take_sublist 32 ps).map _).nodup hps
  have hsectors : partitionReadSectors st drive (depth + 2) pi.name lba count = some reply := by
    simp only [partitionReadSectors, hfind]
    exact hread (depth + 1)
  rw [← hwithin]
  constructor
  · rintro ⟨⟨reply', hreply, hin⟩, -⟩
    obtain rfl := Option.some.inj (hsectors.symm.trans hreply)
    exact hin
  · intro hin
    refine ⟨⟨reply, hsectors, hin⟩, ?_⟩
    cases hget : blockdevGet st.devices pi.name with
    | none =>
      refine ⟨_, ?_, pi.within_error lba count (fun _ => 0)⟩
      simp only [blockdevRead, hget]
    | some d =>
      obtain ⟨hcb, hparts⟩ := h.get_part hraw hon hps hpi hget
      refine ⟨reply, ?_, hin⟩
      rw [blockdevRead, hget]
      simp only [hcb, hparts]
      exact hread depth

end Read

theorem confined_iff_of_mem (active : Nat → Bool) (drive drive' : Drive) (heap : Nat → Bool)
    (depth depth' : Nat) {pi : PartInfo}
    (hpi : pi ∈ (partitionInit drive heap (depth + 1) (ahciRegister active)).parts) {lba : Nat}
    (hlba : lba < 2 ^ 64) (count : Nat) :
    (partitionInit drive heap (depth + 1) (ahciRegister active)).Confined drive' (depth' + 2) pi
      lba count ↔ count = 0 ∨ lba + count ≤ pi.totalSectors := by
  have hraw := disks_ahciRegister active
  have hholds := holds_scan hraw drive heap depth (Nat.le_refl _)
  exact hholds.confined_iff hraw (fun _ hmem => on_of_mem_foundParts hraw hmem)
    (nodup_foundParts hraw drive heap _) hpi drive' depth' hlba count

/-- A read through a partition stays in it exactly if it asks for nothing behind its
end. -/
theorem partition_reads_confined_iff (active : Nat → Bool) (drive drive' : Drive)
    (heap : Nat → Bool) {depth depth' : Nat} (hdepth : 1 ≤ depth) (hdepth' : 2 ≤ depth')
    {pi : PartInfo} (hpi : pi ∈ (partitionInit drive heap depth (ahciRegister active)).parts)
    {lba : Nat} (hlba : lba < 2 ^ 64) (count : Nat) :
    (partitionInit drive heap depth (ahciRegister active)).Confined drive' depth' pi lba count ↔
      count = 0 ∨ lba + count ≤ pi.totalSectors := by
  obtain ⟨depth, rfl⟩ := Nat.exists_eq_add_of_le' hdepth
  obtain ⟨depth', rfl⟩ := Nat.exists_eq_add_of_le' hdepth'
  exact confined_iff_of_mem active drive drive' heap depth depth' hpi hlba count

/-- A drive whose second sector is a partition. -/
def smallDrive : Drive := fun _ =>
  (1, fun n =>
    if n = 450 then 0x83
    else if n = 454 ∨ n = 458 then 1
    else if n = 510 then 0x55
    else if n = 511 then 0xAA
    else 0)

def smallPart : PartInfo := ⟨diskName 0, 1, 1, 1, 0x83⟩

def smallStorage : Storage :=
  partitionInit smallDrive (fun _ => true) 1 (ahciRegister fun p => p == 0)

theorem smallPart_mem : smallPart ∈ smallStorage.parts := by
  have hparts : smallStorage.parts = [smallPart] := rfl
  rw [hparts]
  exact mem_singleton.mpr rfl

theorem partition_reads_smallPart : smallPart ∈ smallStorage.parts ∧
    smallStorage.Confined smallDrive 2 smallPart 0 1 :=
  ⟨smallPart_mem, (partition_reads_confined_iff (fun p => p == 0) smallDrive smallDrive
    (fun _ => true) (Nat.le_refl 1) (Nat.le_refl 2) smallPart_mem (by decide) 1).mpr
    (Or.inr (by decide))⟩

/-- The second sector of a partition of one sector is read from the drive. -/
theorem partition_read_escapes : smallPart ∈ smallStorage.parts ∧
    ¬ smallStorage.Confined smallDrive 2 smallPart 1 1 := by
  refine ⟨smallPart_mem, fun hconf => ?_⟩
  have hcond := (confined_iff_of_mem (fun p => p == 0) smallDrive smallDrive (fun _ => true) 0 0
    smallPart_mem (show 1 < 2 ^ 64 by decide) 1).mp hconf
  exact absurd hcond (by decide)

end Mmix.Fs
