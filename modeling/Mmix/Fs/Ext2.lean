import Mmix.Lib.Checked
import Mmix.Fs.Vfs

/-!
# The ext2 driver

The read-only driver of `ext2.c` over an arbitrary disk. Numbers of the type
`uint32_t` are reduced where the source's arithmetic wraps. Divisions by a
value from the disk and reads and writes at computed places of a buffer are
checked; what lies behind a buffer on the heap is arbitrary. Whether a request
to the disk or to `kmalloc` succeeds depends on the request only: the driver
frees every buffer before it asks for the next.
-/

namespace Mmix.Fs

open Checked

/-- The disk behind `partition_read_sectors`, and the heap. -/
structure Device where
  /-- The bytes of a sector. -/
  sector : Nat → Nat → UInt8
  /-- Whether a request for so many sectors from a sector on is served. -/
  readable : Nat → Nat → Bool
  /-- Whether `kmalloc` has a block of a size. -/
  heap : Nat → Bool
  /-- What is read at an offset behind the end of a buffer. -/
  stray : Nat → UInt8

/-- A buffer, from its first byte on. -/
abbrev Buffer := Nat → UInt8

abbrev wrap32 : Nat := 2 ^ 32

/-- A little-endian field of two bytes. -/
def le16 (buf : Buffer) (pos : Nat) : Nat := (buf pos).toNat + (buf (pos + 1)).toNat * 256

/-- A little-endian field of four bytes. -/
def le32 (buf : Buffer) (pos : Nat) : Nat := le16 buf pos + le16 buf (pos + 2) * 65536

theorem le16_lt (buf : Buffer) (pos : Nat) : le16 buf pos < 65536 := by
  have hlow := (buf pos).toNat_lt
  have hhigh := (buf (pos + 1)).toNat_lt
  rw [le16]
  omega

theorem le32_lt (buf : Buffer) (pos : Nat) : le32 buf pos < 2 ^ 32 := by
  have hlow := le16_lt buf pos
  have hhigh := le16_lt buf (pos + 2)
  rw [le32]
  omega

/-- `partition_read_sectors`, when it returns the number of sectors asked for. -/
def Device.readSectors (d : Device) (lba count : Nat) : Option Buffer :=
  if d.readable lba count then
    some fun i => if i < count * 512 then d.sector (lba + i / 512) (i % 512) else d.stray i
  else none

/-- Whether `kmalloc` returns a block. -/
def Device.kmalloc (d : Device) (size : Nat) : Bool := size != 0 && d.heap size

/-- The state of the mounted file system. -/
structure Ext2 where
  blockSize : Nat
  inodesPerGroup : Nat
  inodeSize : Nat
  bgdCount : Nat
  bgd : Buffer

/-- The fields of an inode that the driver uses. -/
structure Ext2Inode where
  mode : Nat
  size : Nat
  block : Nat → Nat

/-- `sizeof(struct ext2_inode)`. -/
abbrev inodeBytes : Nat := 128

/-- `sizeof(struct ext2_bgd)`. -/
abbrev bgdBytes : Nat := 32

/-- `EXT2_SUPER_MAGIC`. -/
abbrev ext2SuperMagic : Nat := 0xEF53

/-- `EXT2_ROOT_INO`. -/
abbrev ext2RootIno : Nat := 2

/-! ### Mounting -/

/-- The fields of `struct ext2_superblock` that the driver uses. -/
structure Superblock where
  blocksCount : Nat
  firstDataBlock : Nat
  logBlockSize : Nat
  blocksPerGroup : Nat
  inodesPerGroup : Nat
  magic : Nat
  inodeSize : Nat

def readSuperblock (buf : Buffer) : Superblock where
  blocksCount := le32 buf 4
  firstDataBlock := le32 buf 20
  logBlockSize := le32 buf 24
  blocksPerGroup := le32 buf 32
  inodesPerGroup := le32 buf 40
  magic := le16 buf 56
  inodeSize := le16 buf 88

/-- `1024u << s_log_block_size`; the shift of the processor uses the low five
bits of the count. -/
def Superblock.blockSize (sb : Superblock) : Nat := 1024 * 2 ^ (sb.logBlockSize % 32) % wrap32

def Superblock.inodeBytes (sb : Superblock) : Nat := if sb.inodeSize = 0 then 128 else sb.inodeSize

def Superblock.bgdCount (sb : Superblock) : Nat :=
  ((wrap32 - 1) + sb.blocksCount + sb.blocksPerGroup) % wrap32 / sb.blocksPerGroup

/-- `bgd_blocks`, computed in the type `size_t`. -/
def Superblock.bgdBlocks (sb : Superblock) : Nat :=
  (sb.bgdCount * bgdBytes + sb.blockSize - 1) / sb.blockSize % wrap32

/-- The argument of `kmalloc` for the group table, computed in `uint32_t`. -/
def Superblock.bgdAlloc (sb : Superblock) : Nat := sb.bgdBlocks * sb.blockSize % wrap32

/-- `ext2_read_superblock`. -/
def ext2ReadSuperblock (d : Device) : Checked (Option Superblock) :=
  if d.kmalloc 1024 then
    match d.readSectors 2 2 with
    | none => pure none
    | some buf =>
      let sb := readSuperblock buf
      if sb.magic ≠ ext2SuperMagic then pure none
      else do
        check (sb.blocksPerGroup ≠ 0)
        pure (some sb)
  else pure none

/-- `read_block`. -/
def readBlock (d : Device) (blockSize block : Nat) : Option Buffer :=
  d.readSectors (block * (blockSize / 512)) (blockSize / 512)

/-- Copy a block into a larger buffer. -/
def Buffer.paste (table : Buffer) (pos len : Nat) (buf : Buffer) : Buffer :=
  fun j => if pos ≤ j ∧ j < pos + len then buf (j - pos) else table j

/-- The loop of `read_blocks` from block `i` on, into a buffer of `room` bytes. -/
def readBlocks (d : Device) (blockSize start room : Nat) :
    Nat → Nat → Buffer → Checked (Option Buffer)
  | 0, _, table => pure (some table)
  | left + 1, i, table => do
      check (i * blockSize % wrap32 + blockSize ≤ room)
      match readBlock d blockSize ((start + i) % wrap32) with
      | none => pure none
      | some buf =>
        readBlocks d blockSize start room left (i + 1)
          (table.paste (i * blockSize % wrap32) blockSize buf)

/-- `ext2_read_bgd`. -/
def ext2ReadBgd (d : Device) (sb : Superblock) : Checked (Option Buffer) := do
  check (sb.blockSize ≠ 0)
  if d.kmalloc sb.bgdAlloc then
    readBlocks d sb.blockSize ((sb.firstDataBlock + 1) % wrap32) sb.bgdAlloc sb.bgdBlocks 0 d.stray
  else pure none

/-- `ext2_mount`, when nothing is mounted yet. -/
def ext2Mount (d : Device) : Checked (Option Ext2) := do
  match ← ext2ReadSuperblock d with
  | none => pure none
  | some sb =>
    match ← ext2ReadBgd d sb with
    | none => pure none
    | some bgd =>
      pure (some {
        blockSize := sb.blockSize
        inodesPerGroup := sb.inodesPerGroup
        inodeSize := sb.inodeBytes
        bgdCount := sb.bgdCount
        bgd := bgd })

/-! ### Inodes and their blocks -/

def readInodeFields (buf : Buffer) (pos : Nat) : Ext2Inode where
  mode := le16 buf pos
  size := le32 buf (pos + 4)
  block := fun i => le32 buf (pos + 40 + 4 * i)

/-- `read_inode`. -/
def readInode (fs : Ext2) (d : Device) (inodeNo : Nat) : Checked (Option Ext2Inode) :=
  if inodeNo = 0 then pure none
  else do
    check (fs.inodesPerGroup ≠ 0)
    let group := (inodeNo - 1) / fs.inodesPerGroup
    let index := (inodeNo - 1) % fs.inodesPerGroup
    if fs.bgdCount ≤ group then pure none
    else do
      let inodeTableBlock := le32 fs.bgd (group * bgdBytes + 8)
      let offset := index * fs.inodeSize
      check (fs.blockSize ≠ 0)
      let blockInTable := offset / fs.blockSize % wrap32
      let offInBlock := offset % fs.blockSize
      if d.kmalloc fs.blockSize then
        match readBlock d fs.blockSize ((inodeTableBlock + blockInTable) % wrap32) with
        | none => pure none
        | some buf => do
            check (offInBlock + inodeBytes ≤ fs.blockSize)
            pure (some (readInodeFields buf offInBlock))
      else pure none

/-- A word of a block that `get_inode_block` reads: 0 if there is no buffer or
the disk does not answer. -/
def readPointer (fs : Ext2) (d : Device) (block index : Nat) : Checked Nat :=
  if d.kmalloc fs.blockSize then
    match readBlock d fs.blockSize block with
    | none => pure 0
    | some buf => do
        check (4 * index + 4 ≤ fs.blockSize)
        pure (le32 buf (4 * index))
  else pure 0

/-- `get_inode_block`. -/
def getInodeBlock (fs : Ext2) (d : Device) (inode : Ext2Inode) (logical : Nat) : Checked Nat :=
  let ptrsPerBlock := fs.blockSize / 4
  if logical < 12 then pure (inode.block logical)
  else
    let logical := logical - 12
    if logical < ptrsPerBlock then readPointer fs d (inode.block 12) logical
    else do
      let logical := logical - ptrsPerBlock
      check (ptrsPerBlock ≠ 0)
      let nextBlock ← readPointer fs d (inode.block 13) (logical / ptrsPerBlock)
      if nextBlock = 0 then pure 0
      else readPointer fs d nextBlock (logical % ptrsPerBlock)

/-- The loop of `read_inode_data`: the bytes copied. Each pass copies at least
one byte when the block size is not zero. -/
def readDataLoop (fs : Ext2) (d : Device) (inode : Ext2Inode) :
    Nat → Nat → Nat → Checked (List UInt8)
  | 0, _, _ => pure []
  | passes + 1, offset, count =>
    if count = 0 then pure []
    else do
      check (fs.blockSize ≠ 0)
      let blockNum := offset / fs.blockSize % wrap32
      let offInBlock := offset % fs.blockSize
      let toCopy := min (fs.blockSize - offInBlock) count
      let physBlock ← getInodeBlock fs d inode blockNum
      if physBlock = 0 then do
        let rest ← readDataLoop fs d inode passes (offset + toCopy) (count - toCopy)
        pure (List.replicate toCopy 0 ++ rest)
      else if d.kmalloc fs.blockSize then
        match readBlock d fs.blockSize physBlock with
        | none => pure []
        | some buf => do
            check (offInBlock + toCopy ≤ fs.blockSize)
            let rest ← readDataLoop fs d inode passes (offset + toCopy) (count - toCopy)
            pure ((List.range toCopy).map (fun i => buf (offInBlock + i)) ++ rest)
      else pure []

/-- `read_inode_data`: the bytes copied, as many as it returns. -/
def readInodeData (fs : Ext2) (d : Device) (inode : Ext2Inode) (offset count : Nat) :
    Checked (List UInt8) :=
  if inode.size ≤ offset % wrap32 then pure []
  else
    let count := if inode.size < offset + count then inode.size - offset % wrap32 else count
    readDataLoop fs d inode count offset count

end Mmix.Fs
