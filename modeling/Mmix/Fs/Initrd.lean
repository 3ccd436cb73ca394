import Mmix.Fs.Create

/-!
# Loading the initial ramdisk

`vfs_load_initrd` walks over the headers of a tar archive. An archive is the
list of its bytes, and the loader's pointer is the part of the list from there
on. The C strings of a header end at the first NUL, wherever that is.
-/

namespace Mmix.Fs

open Split

/-- `TAR_BLOCK`. -/
abbrev tarBlock : Nat := 512

/-- `tar_parse_octal`. -/
def tarParseOctal (val : Nat) : List UInt8 → Nat
  | [] => val
  | ch :: rest => if 48 ≤ ch ∧ ch ≤ 55 then tarParseOctal (val * 8 + (ch - 48).toNat) rest else val

/-- The string at the head of some bytes. -/
def cstr (bytes : List UInt8) : CStr := bytes.takeWhile (· ≠ 0)

/-- `tar_parse_octal(hdr->size, 12)`. -/
def tarSize (hdr : List UInt8) : Nat := tarParseOctal 0 ((hdr.drop 124).take 12)

/-- `hdr->typeflag`. -/
def tarTypeflag (hdr : List UInt8) : UInt8 := hdr.getD 156 0

/-- `hdr->name` behind a leading `./`. -/
def tarName (hdr : List UInt8) : CStr :=
  if hdr.take 2 = ascii "./" then cstr (hdr.drop 2) else cstr hdr

/-- How far the next header is away. -/
def tarAdvance (fileSize : Nat) : Nat :=
  tarBlock + (fileSize + tarBlock - 1) / tarBlock * tarBlock

/-- `kmalloc` for the contents of a file: it refuses a size of zero. -/
def Vfs.kmalloc (s : Vfs) (size : Nat) : Bool × Vfs :=
  if size = 0 then (false, s) else (s.grants s.allocs, { s with allocs := s.allocs + 1 })

/-- The end of the branch for regular files. -/
def loadFile (s : Vfs) (parentDir : NodePtr) (filename : CStr) (fileSize : Nat)
    (dataStart : List UInt8) : Vfs :=
  match vfsCreateNode s filename .file with
  | (none, s) => s
  | (some file, s) =>
    match s.kmalloc fileSize with
    | (false, s) => s
    | (true, s) =>
      (s.set file { s.node file with
        data := dataStart.take fileSize, size := fileSize }).link parentDir file

/-- The directory part and the file name of a path: the cut at `strrchr`. -/
def splitPath (path : CStr) : CStr × CStr :=
  match cutLast slash path with
  | some (dirs, filename) => (dirs, filename)
  | none => ([], path)

/-- One pass through the loop of `vfs_load_initrd`, without the advance. -/
def loadEntry (s : Vfs) (root : NodePtr) (hdr : List UInt8) : Bool × Vfs :=
  let name := tarName hdr
  let path := name.take (vfsMaxPath - 1)
  if name = [] then (true, s)
  else if tarTypeflag hdr = 53 ∨ name.getLast? = some slash then
    match vfsEnsurePath s root (if path.getLast? = some slash then path.dropLast else path) with
    | (none, s) => (false, s)
    | (some _, s) => (true, s)
  else if tarTypeflag hdr = 48 ∨ tarTypeflag hdr = 0 then
    -- Without a separator the parent is the root, which is also what
    -- `vfs_ensure_path` returns for an empty path.
    match vfsEnsurePath s root (splitPath path).1 with
    | (none, s) => (false, s)
    | (some parentDir, s) =>
      (true, loadFile s parentDir (splitPath path).2 (tarSize hdr) (hdr.drop tarBlock))
  else (true, s)

/-- The loop of `vfs_load_initrd`. Each pass moves on by at least a block. -/
def loadLoop : Nat → Vfs → NodePtr → List UInt8 → Bool × Vfs
  | 0, s, _, _ => (true, s)
  | passes + 1, s, root, ptr =>
    if ptr.length < tarBlock ∨ ptr.head? = some 0 then (true, s)
    else
      match loadEntry s root ptr with
      | (false, s) => (false, s)
      | (true, s) => loadLoop passes s root (ptr.drop (tarAdvance (tarSize ptr)))

/-- `vfs_load_initrd`. -/
def vfsLoadInitrd (s : Vfs) (archive : List UInt8) : Bool × Vfs :=
  let s := if s.root = none then vfsInit s else s
  match s.root with
  | none => (false, s)
  | some root => loadLoop archive.length s root archive

/-- The node of a file that was loaded. -/
def fileNode (filename : CStr) (fileSize : Nat) (dataStart : List UInt8) : VfsNode :=
  { newNode filename .file with data := dataStart.take fileSize, size := fileSize }

/-- A node was allocated and not linked in. -/
def Vfs.leaked (s : Vfs) (node : VfsNode) : Vfs := s.asked.set (.heap s.allocs) node

theorem Vfs.set_set (s : Vfs) (p : NodePtr) (node node' : VfsNode) :
    (s.set p node).set p node' = s.set p node' := by
  simp only [Vfs.set, Function.update_idem]

variable {s : Vfs} {parentDir : NodePtr} {filename : CStr} {fileSize : Nat}
  {dataStart : List UInt8}

theorem vfsCreateNode_of_grant (hg : s.grants s.allocs) (name : CStr) (type : VfsType) :
    vfsCreateNode s name type = (some (.heap s.allocs), s.leaked (newNode name type)) := by
  rw [vfsCreateNode, if_pos hg]
  rfl

/-- With the memory granted a file that is not empty is linked in. -/
theorem loadFile_of_grants (h0 : fileSize ≠ 0) (hg : s.grants s.allocs)
    (hg' : s.grants (s.allocs + 1)) :
    loadFile s parentDir filename fileSize dataStart =
      (s.added parentDir (fileNode filename fileSize dataStart)).asked := by
  have hmem : (s.leaked (newNode filename .file)).kmalloc fileSize =
      (true, (s.leaked (newNode filename .file)).asked) := by
    rw [Vfs.kmalloc, if_neg h0]
    exact Prod.ext hg' rfl
  have hself : (s.leaked (newNode filename .file)).asked.node (.heap s.allocs) =
      newNode filename .file := by
    change (Vfs.set _ _ _).node _ = _
    rw [Vfs.set_node, if_pos rfl]
  have hset : (s.leaked (newNode filename .file)).asked.set (.heap s.allocs)
      (fileNode filename fileSize dataStart) =
        (s.leaked (fileNode filename fileSize dataStart)).asked := by
    change Vfs.asked (Vfs.set (Vfs.set _ _ _) _ _) = _
    rw [Vfs.set_set]
    rfl
  rw [loadFile, vfsCreateNode_of_grant hg]
  dsimp only
  rw [hmem]
  dsimp only
  rw [hself]
  exact congrArg (fun u => Vfs.link u parentDir (.heap s.allocs)) hset

/-- Without a file the tree only loses memory. -/
theorem loadFile_cases (s : Vfs) (parentDir : NodePtr) (filename : CStr) (fileSize : Nat)
    (dataStart : List UInt8) :
    loadFile s parentDir filename fileSize dataStart =
        (s.added parentDir (fileNode filename fileSize dataStart)).asked ∨
      loadFile s parentDir filename fileSize dataStart ∈
        [s.asked, s.leaked (newNode filename .file),
          (s.leaked (newNode filename .file)).asked] := by
  by_cases hg : s.grants s.allocs
  · by_cases h0 : fileSize = 0
    · have hload : loadFile s parentDir filename fileSize dataStart =
          s.leaked (newNode filename .file) := by
        rw [loadFile, vfsCreateNode_of_grant hg]
        simp only [Vfs.kmalloc, if_pos h0]
      simp [hload]
    · by_cases hg' : s.grants (s.allocs + 1)
      · exact Or.inl (loadFile_of_grants h0 hg hg')
      · have hmem : (s.leaked (newNode filename .file)).kmalloc fileSize =
            (false, (s.leaked (newNode filename .file)).asked) := by
          rw [Vfs.kmalloc, if_neg h0]
          exact Prod.ext (Bool.eq_false_iff.mpr hg') rfl
        have hload : loadFile s parentDir filename fileSize dataStart =
            (s.leaked (newNode filename .file)).asked := by
          rw [loadFile, vfsCreateNode_of_grant hg]
          simp only [hmem]
        simp [hload]
  · have hload : loadFile s parentDir filename fileSize dataStart = s.asked := by
      rw [loadFile, vfsCreateNode, if_neg hg]
      rfl
    simp [hload]

end Mmix.Fs
