import Mmix.Lib.Split

/-!
# The virtual file system

The tree of `vfs.c` with the nodes that `procfs.c` makes in it. A node is
reached through a pointer, either of a block that `kcalloc` returned or into
the pool of `procfs.c`, and the sibling chain of a directory is the list of its
children, newest first. Strings are the bytes before their NUL. Whether an
allocation succeeds is left to an oracle.
-/

namespace Mmix.Fs

open Split

/-- The bytes of a C string. -/
abbrev CStr := List UInt8

instance : LawfulBEq CStr := inferInstance

/-- A string literal of the source. -/
def ascii (text : String) : CStr := text.toList.map fun ch => ch.toNat.toUInt8

def slash : UInt8 := 47

/-- `VFS_MAX_PATH`. -/
abbrev vfsMaxPath : Nat := 256

/-- `VFS_MAX_NAME`. -/
abbrev vfsMaxName : Nat := 64

/-- `vfs_type_t`. -/
inductive VfsType where
  | file
  | directory
  | chardev
  | procfs
  deriving DecidableEq, Repr

/-- Where a node lives: in a block of the heap or in procfs's pool. -/
inductive NodePtr where
  | heap (n : Nat)
  | pool (i : Nat)
  deriving DecidableEq, Repr

/-- `vfs_node_t`. The field `data` of the source holds the contents of a file
and, in a procfs node, the number `(pid << 8) | kind`; here these are two
fields. -/
structure VfsNode where
  name : CStr
  type : VfsType
  data : List UInt8 := []
  payload : Nat := 0
  size : Nat := 0
  parent : Option NodePtr := none
  children : List NodePtr := []

/-- The global state of `vfs.c` and `procfs.c`. The `n`-th request to the
allocator succeeds when `grants n`. -/
structure Vfs where
  root : Option NodePtr
  node : NodePtr → VfsNode
  poolUsed : Nat
  allocs : Nat
  grants : Nat → Bool

/-- Before `vfs_init`. -/
def Vfs.blank (grants : Nat → Bool) : Vfs where
  root := none
  node := fun _ => { name := [], type := .file }
  poolUsed := 0
  allocs := 0
  grants := grants

/-- Write one node. -/
def Vfs.set (s : Vfs) (p : NodePtr) (n : VfsNode) : Vfs :=
  { s with node := Function.update s.node p n }

/-- The result of the search loops over a sibling chain with `strcmp`. -/
def Vfs.childNamed (s : Vfs) (p : NodePtr) (name : CStr) : Option NodePtr :=
  (s.node p).children.find? fun c => (s.node c).name = name

/-- Put a node in front of the children of another:
`n->parent = p; n->next_sibling = p->children; p->children = n`. -/
def Vfs.link (s : Vfs) (p n : NodePtr) : Vfs :=
  let s := s.set n { s.node n with parent := some p }
  s.set p { s.node p with children := n :: (s.node p).children }

/-- `vfs_create_node`. -/
def vfsCreateNode (s : Vfs) (name : CStr) (type : VfsType) : Option NodePtr × Vfs :=
  let asked := { s with allocs := s.allocs + 1 }
  if s.grants s.allocs then
    (some (.heap s.allocs),
      asked.set (.heap s.allocs) { name := name.take (vfsMaxName - 1), type := type })
  else (none, asked)

/-- The tail of the functions that make a node: create it and link it in. -/
def createChild (s : Vfs) (parent : NodePtr) (name : CStr) (type : VfsType) :
    Option NodePtr × Vfs :=
  match vfsCreateNode s name type with
  | (none, s) => (none, s)
  | (some n, s) => (some n, s.link parent n)

/-- `vfs_get_or_create_dir`. -/
def vfsGetOrCreateDir (s : Vfs) (parent : NodePtr) (name : CStr) : Option NodePtr × Vfs :=
  match s.childNamed parent name with
  | some child => (some child, s)
  | none => createChild s parent name .directory

/-- The body of the loop of `vfs_ensure_path` for one token. -/
def ensureToken (s : Vfs) (current : NodePtr) (token : CStr) : Option NodePtr × Vfs :=
  if token = [] then (some current, s) else vfsGetOrCreateDir s current token

/-- The loop of `vfs_ensure_path`. Its passes are bounded by the length of the
string, since each consumes a separator. -/
def ensureLoop : Nat → Vfs → NodePtr → CStr → Option NodePtr × Vfs
  | 0, s, current, token => ensureToken s current token
  | passes + 1, s, current, token =>
    match cut slash token with
    | none => ensureToken s current token
    | some (name, rest) =>
      match ensureToken s current name with
      | (none, s) => (none, s)
      | (some current, s) => ensureLoop passes s current rest

/-- `vfs_ensure_path`. -/
def vfsEnsurePath (s : Vfs) (start : NodePtr) (path : CStr) : Option NodePtr × Vfs :=
  ensureLoop path.length s start path

/-- The second half of `vfs_create_file`. -/
def createFileIn (s : Vfs) (parent : NodePtr) (name : CStr) : Option NodePtr × Vfs :=
  match s.childNamed parent name with
  | some c => (some c, s)
  | none => createChild s parent name .file

/-- `vfs_create_file`. -/
def vfsCreateFile (s : Vfs) (path : CStr) : Option NodePtr × Vfs :=
  match s.root with
  | none => (none, s)
  | some root =>
    if path.head? = some slash then
      match cutLast slash (path.take (vfsMaxPath - 1)) with
      | none => (none, s)
      | some (before, name) =>
        if before = [] then createFileIn s root name
        else
          match vfsEnsurePath s root (before.drop 1) with
          | (none, s) => (none, s)
          | (some parent, s) => createFileIn s parent name
    else (none, s)

/-! ### procfs -/

/-- `PROCFS_POOL`. -/
abbrev procfsPool : Nat := 32

abbrev pfMeminfo : Nat := 1

abbrev pfUptime : Nat := 2

abbrev pfStat : Nat := 3

abbrev pfStatus : Nat := 4

abbrev pfCmdline : Nat := 5

/-- `make_node` of `procfs.c`. -/
def makeNode (s : Vfs) (dir : NodePtr) (name : CStr) (payload : Nat) : Option NodePtr × Vfs :=
  if procfsPool ≤ s.poolUsed then (none, s)
  else
    let n := NodePtr.pool s.poolUsed
    let made := { s with poolUsed := s.poolUsed + 1 }.set n
      { name := name.take (vfsMaxName - 1), type := .procfs, payload := payload }
    (some n, made.link dir n)

/-- `procfs_mount`. -/
def procfsMount (s : Vfs) (rootNode : NodePtr) : Vfs :=
  let s := (makeNode s rootNode (ascii "meminfo") pfMeminfo).2
  let s := (makeNode s rootNode (ascii "uptime") pfUptime).2
  (makeNode s rootNode (ascii "stat") pfStat).2

/-- The names under `/proc` that are not process numbers. -/
def procfsNames : List CStr := [ascii "meminfo", ascii "uptime", ascii "stat"]

/-- The loop of `procfs_resolve` that reads a decimal number. -/
def procfsPid : Nat → CStr → Option Nat
  | pid, [] => some pid
  | pid, ch :: rest =>
    if ch < 48 ∨ 57 < ch then none
    else procfsPid ((pid * 10 + (ch - 48).toNat) % 2 ^ 32) rest

/-- `procfs_resolve`. A process with the given number exists when `live`. -/
def procfsResolve (live : Nat → Bool) (s : Vfs) (dir : NodePtr) (component : CStr) :
    Option NodePtr × Vfs :=
  let base := (s.node dir).payload
  if base % 256 = pfStatus ∨ base % 256 = pfCmdline then
    if component = ascii "cmdline" then
      (some dir, s.set dir { s.node dir with
        name := ascii "cmdline", payload := base / 256 * 256 + pfCmdline })
    else if component = ascii "status" then (some dir, s)
    else (none, s)
  else if component ∈ procfsNames then (s.childNamed dir component, s)
  else
    match procfsPid 0 component with
    | none => (none, s)
    | some pid =>
      if pid = 0 ∨ live pid = false then (none, s)
      else makeNode s dir (ascii "status") (pid * 256 % 2 ^ 32 + pfStatus)

/-! ### Lookup -/

/-- The body of the loop of `vfs_resolve` for a non-empty component. -/
def resolveStep (live : Nat → Bool) (s : Vfs) (current : NodePtr) (component : CStr) :
    Option NodePtr × Vfs :=
  if (s.node current).type = .procfs then procfsResolve live s current component
  else (s.childNamed current component, s)

/-- The loop of `vfs_resolve`. Each pass consumes at least one byte. -/
def resolveLoop (live : Nat → Bool) : Nat → Vfs → NodePtr → CStr → Option NodePtr × Vfs
  | 0, s, current, _ => (some current, s)
  | passes + 1, s, current, p =>
    if p = [] then (some current, s)
    else
      match scan slash (vfsMaxName - 1) p with
      | (component, rest) =>
        if component = [] then resolveLoop live passes s current (skip slash rest)
        else
          match resolveStep live s current component with
          | (none, s) => (none, s)
          | (some found, s) => resolveLoop live passes s found (skip slash rest)

/-- `vfs_resolve`. -/
def vfsResolve (live : Nat → Bool) (s : Vfs) (path : CStr) : Option NodePtr × Vfs :=
  match s.root with
  | none => (none, s)
  | some root =>
    if path.head? = some slash then resolveLoop live path.length s root (path.drop 1)
    else (none, s)

/-! ### Mounting, opening and reading -/

/-- `vfs_init`. -/
def vfsInit (s : Vfs) : Vfs :=
  match vfsCreateNode s [slash] .directory with
  | (root, s) => { s with root := root }

/-- `vfs_mount_dev`. -/
def vfsMountDev (live : Nat → Bool) (s : Vfs) (name : CStr) : Vfs :=
  match vfsResolve live s (ascii "/dev") with
  | (some devdir, s) => (createChild s devdir name .chardev).2
  | (none, s) =>
    match vfsResolve live s (ascii "/") with
    | (none, s) => s
    | (some root, s) =>
      match createChild s root (ascii "dev") .directory with
      | (none, s) => s
      | (some devdir, s) => (createChild s devdir name .chardev).2

/-- `vfs_mount_procfs`. -/
def vfsMountProcfs (live : Nat → Bool) (s : Vfs) : Vfs :=
  match vfsResolve live s (ascii "/") with
  | (none, s) => s
  | (some root, s) =>
    match createChild s root (ascii "proc") .procfs with
    | (none, s) => s
    | (some n, s) => procfsMount s n

/-- The type check of `sys_open`: all but directories can be opened. -/
def openCheck : Option NodePtr × Vfs → Option NodePtr × Vfs
  | (none, s) => (none, s)
  | (some n, s) => if (s.node n).type = .directory then (none, s) else (some n, s)

/-- The part of `sys_open` before the descriptor is taken: the node to open. -/
def sysOpenNode (live : Nat → Bool) (s : Vfs) (path : CStr) (create : Bool) :
    Option NodePtr × Vfs :=
  let resolved := vfsResolve live s path
  openCheck <|
    if create ∧ ¬ ∃ n ∈ resolved.1, (resolved.2.node n).type = .file then
      vfsCreateFile resolved.2 path
    else resolved

/-- `vfs_read`: the return value and the bytes copied. The content of a procfs
node comes from `procfsRead`. -/
def vfsRead (procfsRead : VfsNode → Nat → Nat → Int × List UInt8) (s : Vfs)
    (node : Option NodePtr) (size offset : Nat) : Int × List UInt8 :=
  match node with
  | none => (-1, [])
  | some p =>
    let n := s.node p
    match n.type with
    | .procfs => procfsRead n size offset
    | .directory | .chardev => (-1, [])
    | .file =>
      if n.size ≤ offset then (0, [])
      else
        let toRead := min size (n.size - offset)
        ((BitVec.ofNat 32 toRead).toInt, (n.data.drop offset).take toRead)

/-- The numbers that `(int)` keeps. -/
theorem toInt_ofNat_iff (n : Nat) : (BitVec.ofNat 32 n).toInt = n ↔ n < 2 ^ 31 := by
  simp only [BitVec.toInt, BitVec.toNat_ofNat]
  split
  · omega
  · omega

theorem toInt_ofNat_of_lt {n : Nat} (h : n < 2 ^ 31) : (BitVec.ofNat 32 n).toInt = n :=
  (toInt_ofNat_iff n).mpr h

end Mmix.Fs
