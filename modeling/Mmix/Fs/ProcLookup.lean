import Mmix.Fs.ProcStat
import Mmix.Fs.Shape

/-!
# Lookups of processes under `/proc`

A lookup of `/proc/<pid>/status` takes a node from a pool of 32 that is never refilled, and
the node holds the process number in 24 bits. The number itself is read with 32 bits. How the
lookup ends therefore depends on the lookups before it and on the size of the number.
-/

namespace Mmix.Fs

open Proc Split List

/-! ### procfs stays mounted -/

/-- The node of `/proc` is in place. -/
structure Vfs.Mounted (s : Vfs) (root proc : NodePtr) : Prop where
  linked : s.Linked
  isRoot : s.root = some root
  rootType : (s.node root).type ≠ .procfs
  found : s.childNamed root (ascii "proc") = some proc
  type : (s.node proc).type = .procfs
  payload : (s.node proc).payload = 0

section Mounted

variable {live : Nat → Bool} {s s' : Vfs} {root proc p : NodePtr} {c : CStr} {cs : List CStr}

theorem Vfs.Mounted.born_root (h : s.Mounted root proc) : s.Born root :=
  (h.linked.root root h.isRoot).1

theorem Vfs.Mounted.born_proc (h : s.Mounted root proc) : s.Born proc :=
  h.linked.born root proc (Vfs.mem_of_childNamed h.found).1

theorem Vfs.Mounted.not_ofProcess (h : s.Mounted root proc) : ¬ (s.node proc).ofProcess := by
  rw [VfsNode.ofProcess, h.payload]
  decide

theorem Vfs.Mounted.renamed (h : s.Mounted root proc) (hproc : (s.node p).ofProcess) :
    (s.renamed p).Mounted root proc := by
  have hne : proc ≠ p := by
    rintro rfl
    exact h.not_ofProcess hproc
  have htypes := Vfs.renamed_field VfsNode.type (fun _ _ _ => rfl) s p
  constructor
  case linked => exact h.linked.renamed hproc
  case isRoot => exact h.isRoot
  case rootType => exact fun ht => h.rootType ((htypes root).symm.trans ht)
  case found => exact (h.linked.childNamed_renamed hproc h.rootType _).trans h.found
  case type => exact (htypes proc).trans h.type
  case payload =>
    rw [Vfs.renamed, Vfs.set_node, if_neg hne]
    exact h.payload

theorem Vfs.Mounted.pooled (h : s.Mounted root proc) (hp : s.Born p)
    (htype : (s.node p).type = .procfs) (name : CStr) (payload : Nat) :
    (s.pooled p name payload).Mounted root proc := by
  have hroot : ¬ (root = p ∧ (poolNode name payload).name = ascii "proc") := fun hin =>
    h.rootType (hin.1 ▸ htype)
  constructor
  case linked => exact h.linked.pooled hp htype _ _
  case isRoot => exact h.isRoot
  case rootType =>
    rw [Vfs.pooled, s.hands_pool.node_insert_of_born hp h.born_root]
    exact h.rootType
  case found =>
    rw [Vfs.pooled, s.hands_pool.childNamed_insert h.linked hp rfl h.born_root, if_neg hroot]
    exact h.found
  case type =>
    rw [Vfs.pooled, s.hands_pool.node_insert_of_born hp h.born_proc]
    exact h.type
  case payload =>
    rw [Vfs.pooled, s.hands_pool.node_insert_of_born hp h.born_proc]
    exact h.payload

/-- A lookup of one component leaves `/proc` in place. -/
theorem Vfs.Mounted.finds {r : Option NodePtr} (h : s.Mounted root proc) (hp : s.Born p)
    (hfinds : s.Finds live p c r s') : s'.Mounted root proc := by
  cases hfinds with
  | search => exact h
  | status => exact h
  | fails => exact h
  | cmdline htype hproc => exact h.renamed hproc
  | process htype => exact h.pooled hp htype _ _

theorem Vfs.Mounted.walk (h : s.Mounted root proc) (hp : s.Born p) :
    (walk live s p cs).2.Mounted root proc := by
  induction cs generalizing s p with
  | nil => exact h
  | cons c cs ih =>
    have hfinds := resolveStep_finds live s p c
    rw [Fs.walk]
    generalize resolveStep live s p c = r at hfinds
    obtain ⟨found, s'⟩ := r
    have h' : s'.Mounted root proc := h.finds hp hfinds
    cases found with
    | none => exact h'
    | some m => exact ih h' ((hfinds.linked h.linked hp).2 m rfl)

/-- A call of `vfs_resolve` leaves `/proc` in place. -/
theorem Vfs.Mounted.resolve (h : s.Mounted root proc) (path : CStr) :
    (vfsResolve live s path).2.Mounted root proc := by
  by_cases habs : path.head? = some slash
  · rw [vfsResolve_eq_walk h.isRoot habs]
    exact h.walk h.born_root
  · rw [vfsResolve, h.isRoot]
    dsimp only
    rw [if_neg habs]
    exact h

/-- Any number of calls of `vfs_resolve`, each with the tasks that live at that time. -/
def Vfs.afterLookups (s : Vfs) (history : List ((Nat → Bool) × CStr)) : Vfs :=
  history.foldl (fun s call => (vfsResolve call.1 s call.2).2) s

theorem Vfs.Mounted.afterLookups (h : s.Mounted root proc)
    (history : List ((Nat → Bool) × CStr)) : (s.afterLookups history).Mounted root proc := by
  induction history generalizing s with
  | nil => exact h
  | cons call history ih => exact ih (h.resolve call.2)

theorem Vfs.Mounted.makeNode (h : s.Mounted root proc) (name : CStr) (payload : Nat) :
    (makeNode s proc name payload).2.Mounted root proc := by
  rw [Fs.makeNode]
  split
  · exact h
  · exact h.pooled h.born_proc h.type name payload

/-- `vfs_mount_procfs` mounts procfs if there is memory for its node. -/
theorem mounted_vfsMountProcfs (hs : s.Linked) (hroot : s.root = some root)
    (htype : (s.node root).type ≠ .procfs) (hgrant : s.grants s.allocs = true) :
    (vfsMountProcfs live s).Mounted root (.heap s.allocs) := by
  have hborn := (hs.root root hroot).1
  have hne : NodePtr.heap s.allocs ≠ root := (s.hands_heap.ne hborn).symm
  have hadded : (s.added root (newNode (ascii "proc") .procfs)).Mounted root (.heap s.allocs) := by
    constructor
    case linked => exact s.hands_heap.linked hs hborn rfl (fun _ _ => rfl) (fun _ hi => nomatch hi)
    case isRoot => exact hroot
    case rootType =>
      rw [Vfs.added, s.hands_heap.node_insert_of_born hborn hborn]
      exact htype
    case found =>
      rw [Vfs.added, s.hands_heap.childNamed_insert hs hborn rfl hborn, if_pos ⟨rfl, rfl⟩]
    case type =>
      rw [Vfs.added, s.hands_heap.node_insert hborn, if_neg hne, if_pos rfl]
      rfl
    case payload =>
      rw [Vfs.added, s.hands_heap.node_insert hborn, if_neg hne, if_pos rfl]
      rfl
  have hmade : createChild s root (ascii "proc") .procfs =
      (some (.heap s.allocs), s.added root (newNode (ascii "proc") .procfs)) := by
    rw [createChild, vfsCreateNode, if_pos hgrant]
    rfl
  rw [vfsMountProcfs, vfsResolve_root hroot]
  dsimp only
  rw [hmade]
  exact ((hadded.makeNode _ _).makeNode _ _).makeNode _ _

end Mounted

/-! ### The number in a path -/

/-- A string of decimal digits. -/
def IsDecimal (digits : CStr) : Prop := digits ≠ [] ∧ ∀ ch ∈ digits, 48 ≤ ch ∧ ch ≤ 57

/-- The number that a string of digits continues. -/
def decimalFrom (start : Nat) (digits : CStr) : Nat :=
  digits.foldl (fun v ch => v * 10 + (ch - 48).toNat) start

/-- The number that a string of digits stands for. -/
def decimalValue (digits : CStr) : Nat := decimalFrom 0 digits

/-- The path of the status file of a process. -/
def statusPath (digits : CStr) : CStr := ascii "/proc/" ++ digits ++ ascii "/status"

section Digits

variable {digits : CStr}

theorem decimalFrom_mod (start : Nat) (digits : CStr) :
    decimalFrom (start % 2 ^ 32) digits % 2 ^ 32 = decimalFrom start digits % 2 ^ 32 := by
  induction digits generalizing start with
  | nil => exact Nat.mod_mod _ _
  | cons ch digits ih =>
    show decimalFrom (start % 2 ^ 32 * 10 + (ch - 48).toNat) digits % 2 ^ 32 =
      decimalFrom (start * 10 + (ch - 48).toNat) digits % 2 ^ 32
    rw [← ih (start % 2 ^ 32 * 10 + _), ← ih (start * 10 + _)]
    congr 2
    omega

/-- The loop of `procfs_resolve` keeps the lowest 32 bits of the number. -/
theorem procfsPid_eq (h : ∀ ch ∈ digits, 48 ≤ ch ∧ ch ≤ 57) {start : Nat} (hs : start < 2 ^ 32) :
    procfsPid start digits = some (decimalFrom start digits % 2 ^ 32) := by
  induction digits generalizing start with
  | nil => exact congrArg some (Nat.mod_eq_of_lt hs).symm
  | cons ch digits ih =>
    have hch := h ch (mem_cons_self ..)
    have hdigit : ¬ (ch < 48 ∨ 57 < ch) := 
      not_or_intro (UInt8.not_lt.mpr hch.1) (UInt8.not_lt.mpr hch.2)
    rw [procfsPid, if_neg hdigit, ih (fun c hc => h c (mem_cons_of_mem _ hc))
      (Nat.mod_lt _ (by decide)), decimalFrom_mod]
    rfl

theorem IsDecimal.not_mem {ch : UInt8} (h : IsDecimal digits) (hch : ch < 48 ∨ 57 < ch) :
    ch ∉ digits := by
  intro hmem
  have hrange := h.2 ch hmem
  rcases hch with hlow | hhigh
  · exact UInt8.not_lt.mpr hrange.1 hlow
  · exact UInt8.not_lt.mpr hrange.2 hhigh

theorem IsDecimal.not_name (h : IsDecimal digits) : digits ∉ procfsNames := by
  have hletter : (116 : UInt8) ∉ digits ∧ (109 : UInt8) ∉ digits :=
    ⟨h.not_mem (by decide), h.not_mem (by decide)⟩
  intro hmem
  have hall : ∀ name ∈ procfsNames, (116 : UInt8) ∈ name ∨ (109 : UInt8) ∈ name := by decide
  rcases hall digits hmem with hin | hin
  · exact hletter.1 hin
  · exact hletter.2 hin

theorem scanned_statusPath (h : IsDecimal digits) (hlen : digits.length ≤ vfsMaxName - 1) :
    scanned (statusPath digits) = [ascii "proc", digits, ascii "status"] := by
  have hslash : slash ∉ digits := h.not_mem (by decide)
  have hproc : pieces slash (vfsMaxName - 1) (ascii "proc") = [ascii "proc"] :=
    pieces_of_short (by decide) (by decide)
  have hstatus : pieces slash (vfsMaxName - 1) (ascii "status") = [ascii "status"] :=
    pieces_of_short (by decide) (by decide)
  have hdigits : pieces slash (vfsMaxName - 1) digits = [digits] := by
    rw [pieces_of_short hslash hlen, if_neg h.1]
  have hpath : statusPath digits =
      slash :: (ascii "proc" ++ slash :: (digits ++ slash :: ascii "status")) := by
    simp [statusPath, ascii, slash]
  rw [scanned, hpath, pieces_cons_self, pieces_append_cons, pieces_append_cons, hproc, hdigits,
    hstatus]
  rfl

end Digits

/-! ### The lookup -/

section Lookup

variable {live : Nat → Bool} {s : Vfs} {root proc : NodePtr} {digits : CStr}

/-- The tree after the lookup of a process. -/
def Vfs.withStatus (s : Vfs) (proc : NodePtr) (pid : Nat) : Vfs :=
  s.pooled proc (ascii "status") (pid * 256 % 2 ^ 32 + pfStatus)

theorem Vfs.Mounted.node_withStatus (h : s.Mounted root proc) (pid : Nat) :
    (s.withStatus proc pid).node (.pool s.poolUsed) =
      { poolNode (ascii "status") (pid * 256 % 2 ^ 32 + pfStatus) with parent := some proc } := by
  rw [Vfs.withStatus, Vfs.pooled, s.hands_pool.node_insert h.born_proc,
    if_neg (s.hands_pool.ne h.born_proc).symm, if_pos rfl]

theorem Vfs.Mounted.resolveStep_fails {pid : Nat} (h : s.Mounted root proc)
    (hdec : IsDecimal digits) (hpid : procfsPid 0 digits = some pid)
    (hfails : pid = 0 ∨ live pid = false ∨ procfsPool ≤ s.poolUsed) :
    resolveStep live s proc digits = (none, s) := by
  have hproc := h.not_ofProcess
  rw [VfsNode.ofProcess] at hproc
  rw [resolveStep, if_pos h.type, procfsResolve, if_neg hproc, if_neg hdec.not_name, hpid]
  dsimp only
  split
  · rfl
  · next hlive =>
    have hfull : procfsPool ≤ s.poolUsed := by
      rcases hfails with hzero | hdead | hfull
      · exact absurd (.inl hzero) hlive
      · exact absurd (.inr hdead) hlive
      · exact hfull
    rw [Fs.makeNode, if_pos hfull]

/-- How a lookup of a status file ends. -/
theorem Vfs.Mounted.resolve_status (h : s.Mounted root proc) (hdec : IsDecimal digits)
    (hlen : digits.length ≤ vfsMaxName - 1) :
    vfsResolve live s (statusPath digits) =
      let pid := decimalValue digits % 2 ^ 32
      if pid = 0 ∨ live pid = false ∨ procfsPool ≤ s.poolUsed then (none, s)
      else (some (.pool s.poolUsed), s.withStatus proc pid) := by
  have habs : (statusPath digits).head? = some slash := rfl
  have hfirst : resolveStep live s root (ascii "proc") = (some proc, s) := by
    rw [resolveStep, if_neg h.rootType, h.found]
  have hpid : procfsPid 0 digits = some (decimalValue digits % 2 ^ 32) :=
    procfsPid_eq hdec.2 (by decide)
  rw [vfsResolve_eq_walk h.isRoot habs, scanned_statusPath hdec hlen, Fs.walk, hfirst]
  dsimp only
  split
  · next hfails =>
    rw [Fs.walk, h.resolveStep_fails hdec hpid hfails]
  · next hgoes =>
    simp only [not_or] at hgoes
    obtain ⟨hzero, hlive, hroom⟩ := hgoes
    have hmade : s.Finds live proc digits (some (.pool s.poolUsed))
        (s.withStatus proc (decimalValue digits % 2 ^ 32)) :=
      .process h.type h.not_ofProcess hdec.not_name hpid (not_or_intro hzero hlive) hroom
    have hnode := h.node_withStatus (decimalValue digits % 2 ^ 32)
    have hstatus : (s.withStatus proc (decimalValue digits % 2 ^ 32)).Finds live
        (.pool s.poolUsed) (ascii "status") (some (.pool s.poolUsed))
        (s.withStatus proc (decimalValue digits % 2 ^ 32)) := by
      apply Vfs.Finds.status
      · rw [hnode]
        rfl
      · rw [hnode]
        left
        show (decimalValue digits % 2 ^ 32 * 256 % 2 ^ 32 + 4) % 256 = 4
        omega
      · rfl
    rw [Fs.walk, hmade.resolveStep_eq]
    dsimp only
    rw [Fs.walk, hstatus.resolveStep_eq]
    rfl

end Lookup

/-! ### The text of a status file -/

/-- The text of the status file of a task. -/
def statusText (t : ProcTask) : CStr :=
  ascii "Name:   " ++ (t.name ++ (ascii "\nPid:    " ++ (signedText t.pid.toInt ++
    (ascii "\nPPid:   " ++ (signedText t.parentPid.toInt ++ (ascii "\nPgId:   " ++
      (signedText t.pgid.toInt ++ (ascii "\nState:  " ++ ([t.stateChar] ++ [10])))))))))

section Text

variable {fmt text lit : CStr} {args : List EmitArg}

theorem Formats.literal (hlit : 37 ∉ lit) (h : Formats fmt args text) :
    Formats (lit ++ fmt) args (lit ++ text) := by
  induction lit with
  | nil => exact h
  | cons ch lit ih =>
    obtain ⟨hch, hlit⟩ := ne_and_not_mem_of_not_mem_cons hlit
    exact .plain hch.symm (ih hlit)

theorem formats_status (t : ProcTask) :
    Formats (ascii "Name:   %s\nPid:    %d\nPPid:   %d\nPgId:   %d\nState:  %c\n")
      [.str t.name, .num t.pid.toInt, .num t.parentPid.toInt, .num t.pgid.toInt,
        .chr t.stateChar] (statusText t) := by
  have hformat : ascii "Name:   %s\nPid:    %d\nPPid:   %d\nPgId:   %d\nState:  %c\n" =
      ascii "Name:   " ++ 37 :: 115 :: (ascii "\nPid:    " ++ 37 :: 100 ::
        (ascii "\nPPid:   " ++ 37 :: 100 :: (ascii "\nPgId:   " ++ 37 :: 100 ::
          (ascii "\nState:  " ++ 37 :: 99 :: [10])))) := by decide
  rw [hformat]
  apply Formats.literal (by decide)
  apply Formats.string
  apply Formats.literal (by decide)
  apply Formats.int
  apply Formats.literal (by decide)
  apply Formats.int
  apply Formats.literal (by decide)
  apply Formats.int
  apply Formats.literal (by decide)
  apply Formats.char
  exact Formats.plain (by decide) Formats.done

theorem statusText_ne_nul (t : ProcTask) : ∀ ch ∈ statusText t, ch ≠ 0 := by
  have hlit : ∀ lit ∈ [ascii "Name:   ", ascii "\nPid:    ", ascii "\nPPid:   ",
      ascii "\nPgId:   ", ascii "\nState:  "], ∀ ch ∈ lit, ch ≠ 0 := by decide +kernel
  intro ch hch
  simp only [statusText, mem_append, mem_singleton] at hch
  rcases hch with h | h | h | h | h | h | h | h | h | rfl | rfl
  · exact hlit _ (by simp) ch h
  · exact t.name_bytes ch h
  · exact hlit _ (by simp) ch h
  · exact signedText_ne_nul _ ch h
  · exact hlit _ (by simp) ch h
  · exact signedText_ne_nul _ ch h
  · exact hlit _ (by simp) ch h
  · exact signedText_ne_nul _ ch h
  · exact hlit _ (by simp) ch h
  · exact stateChar_ne_nul t
  · decide

theorem length_statusText (t : ProcTask) : (statusText t).length ≤ 110 := by
  have hpid := length_signedText t.pid
  have hppid := length_signedText t.parentPid
  have hpgid := length_signedText t.pgid
  have hname := t.name_length
  have hlits : (ascii "Name:   ").length = 8 ∧ (ascii "\nPid:    ").length = 9 ∧
      (ascii "\nPPid:   ").length = 9 ∧ (ascii "\nPgId:   ").length = 9 ∧
      (ascii "\nState:  ").length = 9 := by decide
  obtain ⟨h₁, h₂, h₃, h₄, h₅⟩ := hlits
  simp only [statusText, length_append, length_singleton, h₁, h₂, h₃, h₄, h₅]
  omega

theorem contentOf_status (t : ProcTask) :
    (contentOf (ascii "Name:   %s\nPid:    %d\nPPid:   %d\nPgId:   %d\nState:  %c\n")
      [.str t.name, .num t.pid.toInt, .num t.parentPid.toInt, .num t.pgid.toInt,
        .chr t.stateChar]).val = some (statusText t) := by
  have hlen := length_statusText t
  have htext := (formats_status t).emit_eq (Nat.le_trans hlen (by decide))
    (show (statusText t).length ≤ contentSize - 1 from Nat.le_trans hlen (by decide))
    (statusText_ne_nul t)
  exact congrArg some htext

/-! The process number can be read off the text. -/

theorem decimalText_injective {m n : Nat} (h : decimalText m = decimalText n) : m = n := by
  have hvalue : ∀ k, Nat.ofDigits 10 ((decimalText k).reverse.map fun ch => ch.toNat - 48) = k := by
    intro k
    have hdigits : (decimalText k).reverse.map (fun ch => ch.toNat - 48) =
        if k = 0 then [0] else Nat.digits 10 k := by
      rw [decimalText, reverse_reverse, map_map]
      refine (map_congr_left fun d hd => ?_).trans (map_id _)
      have hlt := digit_lt hd
      interval_cases d <;> rfl
    rw [hdigits]
    split
    · next hzero =>
      rw [hzero]
      rfl
    · exact Nat.ofDigits_digits 10 k
  rw [← hvalue m, h, hvalue]

theorem signedText_injective {v w : Int} (h : signedText v = signedText w) : v = w := by
  have hminus : ∀ n, (45 : UInt8) ∉ decimalText n := fun n hmem =>
    absurd (decimalText_digits n 45 hmem).1 (by decide)
  have hsign : ∀ u : Int, u < 0 ↔ (45 : UInt8) ∈ signedText u := by
    intro u
    rw [signedText, mem_append]
    split
    · next hneg => exact iff_of_true hneg (.inl (mem_singleton.mpr rfl))
    · next hpos => exact iff_of_false hpos (not_or_intro not_mem_nil (hminus _))
  have hsame : v < 0 ↔ w < 0 := by rw [hsign, hsign, h]
  rw [signedText, signedText, if_congr hsame rfl rfl] at h
  have habs := decimalText_injective (append_cancel_left h)
  omega

/-- A text is cut at its last space in one way only. -/
theorem cut_at_space {a a' b b' : CStr} (hb : 32 ∉ b) (hb' : 32 ∉ b')
    (h : a ++ 32 :: b = a' ++ 32 :: b') : a = a' ∧ b = b' := by
  have hcut := congrArg (cutLast 32) h
  rw [cutLast_append_cons a hb, cutLast_append_cons a' hb'] at hcut
  exact Prod.mk.inj (Option.some.inj hcut)

theorem space_notMem_signedText (v : Int) : 32 ∉ signedText v := fun hmem =>
  absurd (signedText_range v 32 hmem) (by decide)

/-- The text of a status file tells the process number, whatever the name. -/
theorem pid_eq_of_statusText {t u : ProcTask} (h : statusText t = statusText u) :
    t.pid = u.pid := by
  have hform : ∀ t : ProcTask, statusText t =
      ((((((ascii "Name:   " ++ t.name ++ ascii "\nPid:   ") ++ 32 :: signedText t.pid.toInt) ++
        ascii "\nPPid:  ") ++ 32 :: signedText t.parentPid.toInt) ++ ascii "\nPgId:  ") ++
          32 :: signedText t.pgid.toInt) ++ (ascii "\nState:  " ++ [t.stateChar, 10]) := by
    intro t
    simp [statusText, ascii]
  rw [hform, hform] at h
  have hstate : (ascii "\nState:  " ++ [t.stateChar, 10]).length =
      (ascii "\nState:  " ++ [u.stateChar, 10]).length := rfl
  have hpgid := (cut_at_space (space_notMem_signedText _) (space_notMem_signedText _)
    (append_inj' h hstate).1).1
  have hppid := (cut_at_space (space_notMem_signedText _) (space_notMem_signedText _)
    (append_cancel_right hpgid)).1
  have hpid := (cut_at_space (space_notMem_signedText _) (space_notMem_signedText _)
    (append_cancel_right hppid)).2
  exact BitVec.eq_of_toInt_eq (signedText_injective hpid)

end Text

/-! ### What a lookup promises -/

/-- A number is the process number of a task in use. -/
def TaskTable.Has (tasks : TaskTable) (v : Nat) : Prop :=
  0 < v ∧ ∃ t ∈ usedTasks tasks.slots, t.pid.toInt = v

/-- The numbers for which `sched_find_pid` finds a task, after the cast to `int`. -/
def TaskTable.live (tasks : TaskTable) (pid : Nat) : Bool :=
  (tasks.schedFindPid (BitVec.ofNat 32 pid)).isSome

/-- Reading a node yields the status of a task with the given process number. -/
def Reports (info : ProcInfo) (node : VfsNode) (v : Nat) : Prop :=
  ∃ t ∈ usedTasks info.tasks.slots, t.pid.toInt = v ∧
    procfsRead info node contentSize 0 = (((statusText t).length : Int), statusText t)

/-- The lookup of a status file succeeds exactly for the number of a task in use, and the node
reports that number. -/
structure StatusLookup (info : ProcInfo) (s : Vfs) (digits : CStr) : Prop where
  found : (vfsResolve info.tasks.live s (statusPath digits)).1.isSome ↔
    info.tasks.Has (decimalValue digits)
  reports : ∀ n, (vfsResolve info.tasks.live s (statusPath digits)).1 = some n →
    Reports info ((vfsResolve info.tasks.live s (statusPath digits)).2.node n)
      (decimalValue digits)

section Promise

variable {info : ProcInfo} {tasks : TaskTable} {s : Vfs} {root proc : NodePtr} {digits : CStr}
  {node : VfsNode} {t : ProcTask} {v : Nat}

theorem mem_of_schedFindPid {pid : BitVec 32} (h : tasks.schedFindPid pid = some t) :
    t ∈ usedTasks tasks.slots ∧ t.pid = pid := by
  have hfound : t.state ≠ .free ∧ t.pid = pid := by simpa using find?_some h
  exact ⟨mem_filter.mpr ⟨mem_of_find?_eq_some h, by simpa using hfound.1⟩, hfound.2⟩

theorem live_of_mem (ht : t ∈ usedTasks tasks.slots) (hpid : t.pid = BitVec.ofNat 32 v) :
    tasks.live v = true := by
  obtain ⟨hmem, hused⟩ := mem_filter.mp ht
  rw [TaskTable.live, TaskTable.schedFindPid, find?_isSome]
  exact ⟨t, hmem, by simpa [hpid] using hused⟩

/-- Process numbers of tasks are below 2³¹. -/
theorem TaskTable.Has.lt (h : tasks.Has v) : v < 2 ^ 31 := by
  obtain ⟨_, t, _, hpid⟩ := h
  have := t.pid.toInt_lt
  omega

/-- Below 2³¹ the tasks in use are those that `sched_find_pid` finds. -/
theorem has_iff_live (hv : v < 2 ^ 31) : tasks.Has v ↔ 0 < v ∧ tasks.live v = true := by
  refine and_congr_right fun _ => ⟨?_, ?_⟩
  · rintro ⟨t, ht, hpid⟩
    apply live_of_mem ht
    apply BitVec.eq_of_toInt_eq
    rw [hpid, toInt_ofNat_of_lt hv]
  · intro hlive
    obtain ⟨t, hfind⟩ := Option.isSome_iff_exists.mp hlive
    obtain ⟨ht, hpid⟩ := mem_of_schedFindPid hfind
    exact ⟨t, ht, by rw [hpid, toInt_ofNat_of_lt hv]⟩

/-- The node of a lookup keeps 24 bits of the process number. -/
theorem Vfs.Mounted.content_withStatus (h : s.Mounted root proc) (v : Nat) :
    (procfsContent info ((s.withStatus proc v).node (.pool s.poolUsed))).val =
      (info.tasks.schedFindPid (BitVec.ofNat 32 (v % 2 ^ 24))).map statusText := by
  have hpayload : ((s.withStatus proc v).node (.pool s.poolUsed)).payload % 2 ^ 32 =
      v % 2 ^ 24 * 256 + 4 := by
    rw [h.node_withStatus]
    show (v * 256 % 2 ^ 32 + 4) % 2 ^ 32 = _
    omega
  have hkind : (v % 2 ^ 24 * 256 + 4) % 256 = 4 := by omega
  have hpid : (v % 2 ^ 24 * 256 + 4) / 256 = v % 2 ^ 24 := by omega
  rw [procfsContent, hpayload, hkind, hpid]
  cases info.tasks.schedFindPid (BitVec.ofNat 32 (v % 2 ^ 24)) with
  | none => rfl
  | some t => exact contentOf_status t

theorem read_statusText (h : (procfsContent info node).val = some (statusText t)) :
    procfsRead info node contentSize 0 = (((statusText t).length : Int), statusText t) := by
  have hlen := length_statusText t
  have hwhole : (statusText t).take contentSize = statusText t :=
    take_of_length_le (Nat.le_trans hlen (by decide))
  rw [procfsRead_eq h (Nat.lt_of_le_of_lt hlen (by decide)), drop_zero, hwhole]

/-- The node reports the right number exactly if the number has at most 24 bits. -/
theorem Vfs.Mounted.reports_iff (h : s.Mounted root proc) (hhas : info.tasks.Has v) :
    Reports info ((s.withStatus proc v).node (.pool s.poolUsed)) v ↔ v < 2 ^ 24 := by
  have hcontent : (procfsContent info ((s.withStatus proc v).node (.pool s.poolUsed))).val =
      (info.tasks.schedFindPid (BitVec.ofNat 32 (v % 2 ^ 24))).map statusText :=
    h.content_withStatus v
  constructor
  · rintro ⟨t, ht, hpid, hread⟩
    cases hfind : info.tasks.schedFindPid (BitVec.ofNat 32 (v % 2 ^ 24)) with
    | none =>
      rw [hfind] at hcontent
      rw [procfsRead, hcontent] at hread
      have hfails : (-1 : Int) = (statusText t).length := congrArg Prod.fst hread
      omega
    | some u =>
      rw [hfind] at hcontent
      rw [read_statusText hcontent] at hread
      have hsame := pid_eq_of_statusText (congrArg Prod.snd hread)
      rw [← hsame, (mem_of_schedFindPid hfind).2,
        toInt_ofNat_of_lt (Nat.lt_of_lt_of_le (Nat.mod_lt _ (by decide)) (by decide))] at hpid
      omega
  · intro hsmall
    obtain ⟨t, hfind⟩ := Option.isSome_iff_exists.mp ((has_iff_live hhas.lt).mp hhas).2
    obtain ⟨ht, hpid⟩ := mem_of_schedFindPid hfind
    rw [Nat.mod_eq_of_lt hsmall, hfind] at hcontent
    exact ⟨t, ht, by rw [hpid, toInt_ofNat_of_lt hhas.lt], read_statusText hcontent⟩

/-- What a lookup needs: a free node and a number of at most 24 bits for a task in use, and for
a number beyond the range of `int` that its lowest 32 bits are not mistaken for a task. -/
structure ProcLookupClear (info : ProcInfo) (s : Vfs) (v : Nat) : Prop where
  room : info.tasks.Has v → s.poolUsed < procfsPool
  narrow : info.tasks.Has v → v < 2 ^ 24
  wraps : 2 ^ 31 ≤ v → s.poolUsed < procfsPool →
    v % 2 ^ 32 = 0 ∨ info.tasks.live (v % 2 ^ 32) = false

/-- The lookup finds the right numbers exactly if there is room and nothing wraps. -/
theorem Vfs.Mounted.found_iff (h : s.Mounted root proc) (hdec : IsDecimal digits)
    (hlen : digits.length ≤ vfsMaxName - 1) :
    ((vfsResolve info.tasks.live s (statusPath digits)).1.isSome ↔
        info.tasks.Has (decimalValue digits)) ↔
      (info.tasks.Has (decimalValue digits) → s.poolUsed < procfsPool) ∧
        (2 ^ 31 ≤ decimalValue digits → s.poolUsed < procfsPool →
          decimalValue digits % 2 ^ 32 = 0 ∨
            info.tasks.live (decimalValue digits % 2 ^ 32) = false) := by
  have hsome : (vfsResolve info.tasks.live s (statusPath digits)).1.isSome ↔
      ¬ (decimalValue digits % 2 ^ 32 = 0 ∨
        info.tasks.live (decimalValue digits % 2 ^ 32) = false ∨ procfsPool ≤ s.poolUsed) := by
    rw [h.resolve_status hdec hlen]
    dsimp only
    split
    · next hfails => exact iff_of_false Bool.false_ne_true (not_not_intro hfails)
    · next hgoes => exact iff_of_true rfl hgoes
  rw [hsome]
  by_cases hsmall : decimalValue digits < 2 ^ 31
  · have hhas : info.tasks.Has (decimalValue digits) ↔
        0 < decimalValue digits ∧ info.tasks.live (decimalValue digits) = true :=
      has_iff_live hsmall
    have hrange : ¬ 2 ^ 31 ≤ decimalValue digits := Nat.not_le_of_gt hsmall
    have hgoes : ¬ (decimalValue digits = 0 ∨ info.tasks.live (decimalValue digits) = false ∨
        procfsPool ≤ s.poolUsed) ↔
        info.tasks.Has (decimalValue digits) ∧ s.poolUsed < procfsPool := by
      rw [hhas, not_or, not_or, Bool.not_eq_false, Nat.not_le, and_assoc, Nat.pos_iff_ne_zero]
    rw [Nat.mod_eq_of_lt (Nat.lt_trans hsmall (by decide)), hgoes, and_iff_left_iff_imp,
      and_iff_left fun h => absurd h hrange]
  · have hhas : ¬ info.tasks.Has (decimalValue digits) := fun hhas => hsmall hhas.lt
    have hrange : 2 ^ 31 ≤ decimalValue digits := Nat.le_of_not_lt hsmall
    simp only [hhas, iff_false, not_not, false_imp_iff, true_and, hrange, true_imp_iff]
    rw [← Nat.not_lt, ← or_assoc, or_comm, imp_iff_not_or]

/-- After any lookups, the lookup of a status file keeps its promise exactly if it is clear. -/
theorem Vfs.Mounted.statusLookup_iff (h : s.Mounted root proc) (hdec : IsDecimal digits)
    (hlen : digits.length ≤ vfsMaxName - 1) :
    StatusLookup info s digits ↔ ProcLookupClear info s (decimalValue digits) := by
  have hreport : ∀ n, info.tasks.Has (decimalValue digits) →
      (vfsResolve info.tasks.live s (statusPath digits)).1 = some n →
      (Reports info ((vfsResolve info.tasks.live s (statusPath digits)).2.node n)
        (decimalValue digits) ↔ decimalValue digits < 2 ^ 24) := by
    intro n hhas hn
    have hmod : decimalValue digits % 2 ^ 32 = decimalValue digits :=
      Nat.mod_eq_of_lt (Nat.lt_trans hhas.lt (by decide))
    rw [h.resolve_status hdec hlen] at hn ⊢
    dsimp only at hn ⊢
    split at hn
    · cases hn
    · next hgoes =>
      cases hn
      rw [if_neg hgoes, hmod]
      exact h.reports_iff hhas
  constructor
  · intro hlook
    obtain ⟨hroom, hwraps⟩ := (h.found_iff hdec hlen).mp hlook.found
    refine ⟨hroom, fun hhas => ?_, hwraps⟩
    obtain ⟨n, hn⟩ := Option.isSome_iff_exists.mp (hlook.found.mpr hhas)
    exact (hreport n hhas hn).mp (hlook.reports n hn)
  · intro hclear
    have hiff := (h.found_iff hdec hlen).mpr ⟨hclear.room, hclear.wraps⟩
    refine ⟨hiff, fun n hn => ?_⟩
    have hhas := hiff.mp (Option.isSome_iff_exists.mpr ⟨n, hn⟩)
    exact (hreport n hhas hn).mpr (hclear.narrow hhas)

end Promise

/-- From the mount of procfs on and after any lookups, `/proc/<pid>/status` is found exactly for
the tasks in use and reports their number, exactly if the lookup is clear. -/
theorem proc_status_lookup_iff (live : Nat → Bool) (s : Vfs) (root : NodePtr) (hs : s.Linked)
    (hroot : s.root = some root) (htype : (s.node root).type ≠ .procfs)
    (hgrant : s.grants s.allocs = true) (history : List ((Nat → Bool) × CStr)) (info : ProcInfo)
    (digits : CStr) (hdec : IsDecimal digits) (hlen : digits.length ≤ 63) :
    StatusLookup info ((vfsMountProcfs live s).afterLookups history) digits ↔
      ProcLookupClear info ((vfsMountProcfs live s).afterLookups history) (decimalValue digits) :=
  ((mounted_vfsMountProcfs hs hroot htype hgrant).afterLookups history).statusLookup_iff hdec hlen

/-- The file system right after `vfs_init`. -/
def initVfs : Vfs := vfsInit (Vfs.blank fun _ => true)

theorem initVfs_linked : initVfs.Linked := vfsInit_linked (Vfs.blank_linked _)

/-- The second lookup of a process finds it. -/
theorem proc_status_lookup_second :
    StatusLookup ⟨0, 0, 0, tableOf 2⟩ ((vfsMountProcfs (fun _ => false) initVfs).afterLookups
      [((tableOf 2).live, statusPath (ascii "1000"))]) (ascii "1001") := by
  have hvalue : decimalValue (ascii "1001") = 1001 := by decide
  refine (proc_status_lookup_iff _ initVfs (.heap 0) initVfs_linked rfl (by decide) rfl _ _ _
    ⟨by decide, by decide +kernel⟩ (by decide)).mpr ?_
  rw [hvalue]
  exact ⟨fun _ => by decide +kernel, fun _ => by decide, fun h => absurd h (by decide)⟩

/-- After 29 lookups the pool is used up, and a task in use is not found. -/
theorem proc_lookup_pool_used_up :
    ∃ history : List ((Nat → Bool) × CStr),
      ¬ StatusLookup ⟨0, 0, 0, tableOf 2⟩
        ((vfsMountProcfs (fun _ => false) initVfs).afterLookups history) (ascii "1000") := by
  have hmounted : (vfsMountProcfs (fun _ => false) initVfs).Mounted (.heap 0) (.heap 1) :=
    mounted_vfsMountProcfs initVfs_linked rfl (by decide) rfl
  have hvalue : decimalValue (ascii "1000") = 1000 := by decide
  have hhas : (tableOf 2).Has (decimalValue (ascii "1000")) := by
    rw [hvalue]
    refine ⟨by decide, namedTask .ready 1000, ?_, rfl⟩
    apply List.mem_filter.mpr
    exact ⟨List.mem_map.mpr ⟨0, by decide, rfl⟩, by decide⟩
  have hused : ((vfsMountProcfs (fun _ => false) initVfs).afterLookups
      (List.replicate 29 ((tableOf 2).live, statusPath (ascii "1000")))).poolUsed = 32 := by
    decide +kernel
  refine ⟨List.replicate 29 ((tableOf 2).live, statusPath (ascii "1000")), fun h => ?_⟩
  have hclear := ((hmounted.afterLookups _).statusLookup_iff
    ⟨by decide, by decide +kernel⟩ (by decide)).mp h
  have hroom := hclear.room hhas
  rw [hused] at hroom
  exact Nat.lt_irrefl _ hroom

end Mmix.Fs
