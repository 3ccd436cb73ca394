import Mmix.Fs.Ext2
import Mmix.Fs.Initrd
import Mmix.Lib.Cursor

/-!
# Directories of an ext2 file system

The walks over the entries of a directory move on by the field `rec_len` of
the disk. They end exactly when they come to no entry, other than the one they
look for, whose `rec_len` is zero.
-/

namespace Mmix.Fs

open Split Checked

/-- `sizeof(struct ext2_dirent)`, without the name. -/
abbrev direntBytes : Nat := 8

/-- `struct ext2_dirent`. -/
structure Dirent where
  inode : Nat
  recLen : Nat
  nameLen : Nat
  fileType : UInt8

/-- The fields of an entry's eight bytes. -/
def readDirent (bytes : List UInt8) : Dirent where
  inode := le32 (fun i => bytes.getD i 0) 0
  recLen := le16 (fun i => bytes.getD i 0) 4
  nameLen := (bytes.getD 6 0).toNat
  fileType := bytes.getD 7 0

/-- The entry at an offset below the size of the directory, if it can be read. -/
def direntAt (fs : Ext2) (d : Device) (dinode : Ext2Inode) (offset : Nat) : Option Dirent :=
  if offset < dinode.size then
    let bytes := (readInodeData fs d dinode offset direntBytes).val
    if bytes.length = direntBytes then some (readDirent bytes) else none
  else none

/-- The name of an entry, if it can be read. -/
def direntName (fs : Ext2) (d : Device) (dinode : Ext2Inode) (offset : Nat) (ent : Dirent) :
    Option CStr :=
  let bytes := (readInodeData fs d dinode (offset + direntBytes) ent.nameLen).val
  if bytes.length = ent.nameLen then some (cstr bytes) else none

/-- `EXT2_S_IFDIR` under `EXT2_S_IFMT`. -/
def Ext2Inode.isDir (inode : Ext2Inode) : Bool := inode.mode / 4096 % 16 = 4

/-- The loop of `dir_lookup_callback`: the inode and type of the entry with a
name, none if there is none, and nothing when the passes do not suffice. -/
def dirLookupLoop (fs : Ext2) (d : Device) (dinode : Ext2Inode) (name : CStr) :
    Nat → Nat → Option (Option (Nat × UInt8))
  | 0, _ => none
  | passes + 1, offset =>
    match direntAt fs d dinode offset with
    | none => some none
    | some ent =>
      if ent.inode = 0 then dirLookupLoop fs d dinode name passes (offset + ent.recLen)
      else
        match direntName fs d dinode offset ent with
        | none => some none
        | some found =>
          if found = name then some (some (ent.inode, ent.fileType))
          else dirLookupLoop fs d dinode name passes (offset + ent.recLen)

/-- `dir_lookup_callback`. -/
def dirLookupCallback (passes : Nat) (fs : Ext2) (d : Device) (dirIno : Nat) (name : CStr) :
    Option (Option (Nat × UInt8)) :=
  match (readInode fs d dirIno).val with
  | none => some none
  | some dinode => if dinode.isDir then dirLookupLoop fs d dinode name passes 0 else some none

/-- The loop of `resolve_path`. -/
def resolvePathLoop (passes : Nat) (fs : Ext2) (d : Device) : Nat → Nat → CStr → Option Nat
  | 0, currentIno, _ => some currentIno
  | turns + 1, currentIno, path =>
    match scan slash 255 (path.dropWhile (· = slash)) with
    | (component, rest) =>
      if component = [] then some currentIno
      else if component = ascii "." then resolvePathLoop passes fs d turns currentIno rest
      else if component = ascii ".." then
        match (readInode fs d currentIno).val with
        | none => some 0
        | some _ => resolvePathLoop passes fs d turns ext2RootIno rest
      else
        match dirLookupCallback passes fs d currentIno component with
        | none => none
        | some none => some 0
        | some (some (ino, _)) => resolvePathLoop passes fs d turns ino rest

/-- `resolve_path`: 0 on failure. -/
def resolvePath (passes : Nat) (fs : Ext2) (d : Device) (path : CStr) : Option Nat :=
  if path.head? = some slash then
    resolvePathLoop passes fs d path.length ext2RootIno (path.drop 1)
  else some 0

/-- The first loop of `ext2_list_dir_internal`. -/
def countLoop (fs : Ext2) (d : Device) (dinode : Ext2Inode) : Nat → Nat → Nat → Option Nat
  | 0, _, _ => none
  | passes + 1, off, count =>
    match direntAt fs d dinode off with
    | none => some count
    | some ent =>
      countLoop fs d dinode passes (off + ent.recLen)
        (if ent.inode ≠ 0 then count + 1 else count)

/-- `struct ext2_dir_entry`. -/
structure Ext2DirEntry where
  name : CStr
  inodeNo : Nat
  fileType : UInt8

/-- The name a listing records: at most 63 bytes, and whatever the block of the
listing held where the disk did not deliver. -/
def listedName (fs : Ext2) (d : Device) (dinode : Ext2Inode) (off : Nat) (ent : Dirent) : CStr :=
  let nlen := min ent.nameLen 63
  let bytes := (readInodeData fs d dinode (off + direntBytes) nlen).val
  cstr ((List.range nlen).map fun i => bytes.getD i (d.stray i))

/-- The second loop of `ext2_list_dir_internal`, with the number of entries it
may still fill in. -/
def fillLoop (fs : Ext2) (d : Device) (dinode : Ext2Inode) :
    Nat → Nat → Nat → Option (List Ext2DirEntry)
  | 0, _, _ => none
  | passes + 1, off, room =>
    if room = 0 then some []
    else
      match direntAt fs d dinode off with
      | none => some []
      | some ent =>
        if ent.inode = 0 then fillLoop fs d dinode passes (off + ent.recLen) room
        else
          (fillLoop fs d dinode passes (off + ent.recLen) (room - 1)).map fun rest =>
            { name := listedName fs d dinode off ent
              inodeNo := ent.inode
              fileType := ent.fileType } :: rest

/-- `sizeof(struct ext2_dir_entry)`. -/
abbrev dirEntryBytes : Nat := 72

/-- `ext2_list_dir_internal` behind `resolve_path`. -/
def listInode (passes : Nat) (fs : Ext2) (d : Device) (ino : Nat) :
    Option (Option (List Ext2DirEntry)) :=
  if ino = 0 then some none
  else
    match (readInode fs d ino).val with
    | none => some none
    | some dinode =>
      if dinode.isDir then
        match countLoop fs d dinode passes 0 0 with
        | none => none
        | some count =>
          if d.kmalloc (count * dirEntryBytes) then
            (fillLoop fs d dinode passes 0 count).map some
          else some none
      else some none

/-- `ext2_list_dir_internal`: the entries, none on failure, and nothing when the
passes do not suffice. -/
def ext2ListDirInternal (passes : Nat) (fs : Ext2) (d : Device) (path : CStr) :
    Option (Option (List Ext2DirEntry)) :=
  (resolvePath passes fs d path).bind (listInode passes fs d)

end Mmix.Fs
