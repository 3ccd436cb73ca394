import Mmix.Sys.System

/-!
# Output redirection of the shell

`apply_redirects` of `sh.c` with the functions of `libc.c` it calls, and the
writes of the command to its standard output. The calls of the shell are
dispatched one after the other for the current task.
-/

namespace Mmix.User

open Mm Fs Proc Kernel Net Sys List Function Option

/-- A system call of the current task: its result and the state after it. -/
def syscall (nic : Nic) (path : CStr) (create : Bool) (c : Call) (st : System) :
    Option (Int × System) :=
  let a := st.answer nic { event := .resume, path := path, create := create } c
  (dispatch st.kernel a.1).map fun k => (k.cur.rax, ⟨k, a.2.1, a.2.2⟩)

/-- `open`. -/
def openRead (nic : Nic) (path : CStr) : System → Option (Int × System) :=
  syscall nic path false (.openFile false none false 0)

/-- `open_append`. -/
def openAppend (nic : Nic) (path : CStr) : System → Option (Int × System) :=
  syscall nic path false (.openFile false none true 0)

/-- `open_create`. -/
def openCreate (nic : Nic) (path : CStr) : System → Option (Int × System) :=
  syscall nic path true (.openFile false none false 0)

/-- `dup2`. -/
def dup2 (nic : Nic) (oldfd newfd : Int) : System → Option (Int × System) :=
  syscall nic [] false (.dup2 (BitVec.ofInt 64 oldfd) (BitVec.ofInt 64 newfd))

/-- `close`. -/
def close (nic : Nic) (fd : Int) : System → Option (Int × System) :=
  syscall nic [] false (.close (BitVec.ofInt 64 fd))

/-- `write`. -/
def write (nic : Nic) (fd : Int) (buf : List UInt8) : System → Option (Int × System) :=
  syscall nic [] false (.write (BitVec.ofInt 64 fd) false buf 0)

/-- The redirections of the output, `>` and `>>`. -/
inductive Redirect where
  | create (file : CStr)
  | append (file : CStr)

/-- The redirections of a `struct stage`. -/
structure Stage where
  redirIn : Option CStr
  redirOut : Option Redirect

/-- One branch of `apply_redirects`, with the result of the open; the shell exits when it
failed. -/
def redirect (nic : Nic) (opened : Option (Int × System)) (fd : Int) : Option System :=
  match opened with
  | none => none
  | some (new, st) =>
    if new < 0 then none
    else
      match dup2 nic new fd st with
      | none => none
      | some (_, st) => (close nic new st).map Prod.snd

/-- The first branch of `apply_redirects`. -/
def redirectIn (nic : Nic) (stage : Stage) (st : System) : Option System :=
  match stage.redirIn with
  | none => some st
  | some file => redirect nic (openRead nic file st) 0

/-- `apply_redirects`; none when the shell exits. -/
def applyRedirects (nic : Nic) (stage : Stage) (st : System) : Option System :=
  match redirectIn nic stage st with
  | none => none
  | some st =>
    match stage.redirOut with
    | none => some st
    | some (.create file) => redirect nic (openCreate nic file st) 1
    | some (.append file) => redirect nic (openAppend nic file st) 1

/-- Writes to descriptor 1, if all of them succeed; the kernel refuses to write nothing. -/
def writeAll (nic : Nic) : List (List UInt8) → System → Option System
  | [], st => some st
  | buf :: bufs, st =>
    match write nic 1 buf st with
    | none => none
    | some (r, st) => if buf = [] ∨ r = buf.length then writeAll nic bufs st else none

/-! ### Descriptors -/

section Descriptors

variable {k : Kernel}

theorem toInt_fd (fd : Fd) : toInt (BitVec.ofInt 64 (fd.val : Int)) = (fd.val : Int) := by
  revert fd
  decide

theorem fdIndex_fd (fd : Fd) : fdIndex (fd.val : Int) = some fd := by
  revert fd
  decide

theorem fdGet_fd {t : Task} {fd : Fd} (h : (t.fds fd).InUse) :
    fdGet t (fd.val : Int) = some fd := by
  rw [fdGet, fdIndex_fd]
  exact if_pos h

theorem fdGet_free {t : Task} {fd : Fd} (h : ¬ (t.fds fd).InUse) :
    fdGet t (fd.val : Int) = none := by
  rw [fdGet, fdIndex_fd]
  exact if_neg h

/-- A descriptor of a node. -/
def nodeFile (node : Node) (pos : Word) : File := { File.zero with node := some node, pos := pos }

theorem nodeFile_inUse (node : Node) (pos : Word) : (nodeFile node pos).InUse := fun h => nomatch h.1

/-- A descriptor of a node is neither a pipe nor a console. -/
theorem nodeFile_stream (node : Node) (pos : Word) :
    (nodeFile node pos).isWr = false ∧ (nodeFile node pos).flags &&& fdfConsoleOut = 0 := by
  have hflags : (nodeFile node pos).flags = 0 := rfl
  rw [File.isWr, hflags]
  decide

theorem sysOpen_fds {node : Node} (hdir : node.kind ≠ .directory) {fd : Fd}
    (hfd : fdAlloc k.cur = some fd) (append : Bool) (size : Word) :
    (sysOpen k false (some node) append size).cur.rax = fd.val ∧
      (sysOpen k false (some node) append size).cur.fds =
        update k.cur.fds fd (nodeFile node (if append then size else 0)) := by
  have heq : sysOpen k false (some node) append size = (k.modCur fun t =>
      t.setFd fd (nodeFile node (if append then size else 0))).finish fd.val := by
    rw [sysOpen, if_neg hdir, hfd]
    rfl
  rw [heq, finish_cur, modCur_cur]
  exact ⟨rfl, rfl⟩

theorem fdPut_cur_fds (fd : Fd) :
    (fdPut k k.current fd).cur.fds = update k.cur.fds fd File.zero := by
  have hdrift : Drift True k (fdPut k k.current fd) := fdPut_drift _ _
  rw [Kernel.cur, hdrift.current]
  exact fdPut_fds _ fd

theorem sysClose_fds {fd : Fd} (h : (k.cur.fds fd).InUse) :
    (sysClose k (BitVec.ofInt 64 (fd.val : Int))).cur.fds =
      update k.cur.fds fd File.zero := by
  rw [sysClose, toInt_fd, fdGet_fd h, finish_cur]
  exact fdPut_cur_fds fd

theorem sysDup2_fds {old : Fd} (h : (k.cur.fds old).InUse) (new : Fd) :
    (sysDup2 k (BitVec.ofInt 64 (old.val : Int)) (BitVec.ofInt 64 (new.val : Int))).cur.fds =
      update k.cur.fds new (k.cur.fds old) := by
  rw [sysDup2, doDup2, toInt_fd, toInt_fd, fdGet_fd h, fdIndex_fd]
  by_cases hne : old = new
  · subst hne
    simp only [if_true, finish_cur, update_eq_self]
  simp only [if_neg hne]
  -- The old descriptor is cleared first, if it was open.
  generalize hput : (if (k.cur.fds new).InUse then fdPut k k.current new else k) = k₁
  have hfds : k₁.cur.fds old = k.cur.fds old ∧
      ∀ f, update k₁.cur.fds new f = update k.cur.fds new f := by
    subst hput
    split
    · rw [fdPut_cur_fds]
      exact ⟨update_of_ne hne _ _, fun f => update_idem _ _ _⟩
    · exact ⟨rfl, fun _ => rfl⟩
  have htasks : ∀ f, (fdRef (k₁.modCur fun t => t.setFd new f) f).cur =
      (k₁.modCur fun t => t.setFd new f).cur := by
    intro f
    have hcur : (fdRef (k₁.modCur fun t => t.setFd new f) f).current = k₁.current := by
      rw [fdRef]
      split
      · rfl
      · rw [pipeAddRef]
        split
        · rfl
        · rfl
    rw [Kernel.cur, fdRef_tasks, hcur]
    rfl
  rw [finish_cur, htasks, modCur_cur, hfds.1]
  exact hfds.2 _

theorem vfsDone_rax (fd : Fd) (result : Int) : (vfsDone k fd result).cur.rax = result := by
  rw [vfsDone]
  split
  · exact finish_rax result
  · exact finish_rax result

theorem vfsDone_fds {fd : Fd} {result : Int} (h : 0 < result) :
    (vfsDone k fd result).cur.fds = update k.cur.fds fd
      { k.cur.fds fd with pos := (k.cur.fds fd).pos + BitVec.ofInt 64 result } := by
  rw [vfsDone, if_pos h, finish_cur, modCur_cur]
  rfl

end Descriptors

/-! ### Opening -/

section Opening

variable {nic : Nic} {st st' : System} {path : CStr} {p : NodePtr} {vfs : Vfs}

theorem syscall_eq {create : Bool} {c c' : Call} {net : NetState} {k : Kernel}
    (hanswer : st.answer nic { event := .resume, path := path, create := create } c =
      (c', vfs, net)) (hdispatch : dispatch st.kernel c' = some k) :
    syscall nic path create c st = some (k.cur.rax, ⟨k, vfs, net⟩) := by
  rw [syscall, hanswer, hdispatch]
  rfl

/-- The shell opens a regular file. -/
theorem open_some (nic : Nic) {create : Bool}
    (hopen : sysOpenNode st.live st.vfs path create = (some p, vfs))
    (htype : (vfs.node p).type = .file) {fd : Fd} (hfd : fdAlloc st.kernel.cur = some fd)
    (append : Bool) :
    ∃ st₁, syscall nic path create (.openFile false none append 0) st = some ((fd.val : Int), st₁) ∧
      st₁.vfs = vfs ∧ st₁.kernel.cur.fds = update st.kernel.cur.fds fd
        (nodeFile ⟨nodeAddr p, .file⟩
          (if append then BitVec.ofNat 64 (vfs.node p).size else 0)) := by
  have hkind : nodeKind vfs p = .file := by rw [nodeKind, htype]
  have hanswer : st.answer nic { event := .resume, path := path, create := create }
      (.openFile false none append 0) = (.openFile false (some ⟨nodeAddr p, nodeKind vfs p⟩) append
        (BitVec.ofNat 64 (vfs.node p).size), vfs, st.net) := by
    rw [System.answer, hopen]
  have hdir : (⟨nodeAddr p, .file⟩ : Node).kind ≠ .directory := nofun
  obtain ⟨hrax, hfds⟩ := sysOpen_fds hdir hfd append (BitVec.ofNat 64 (vfs.node p).size)
  rw [hkind] at hanswer
  refine ⟨⟨sysOpen st.kernel false (some ⟨nodeAddr p, .file⟩) append
    (BitVec.ofNat 64 (vfs.node p).size), vfs, st.net⟩, ?_, rfl, hfds⟩
  rw [syscall_eq hanswer rfl, hrax]

/-- The shell exits when there is nothing to open. -/
theorem open_none (nic : Nic) {create : Bool}
    (hopen : (sysOpenNode st.live st.vfs path create).1 = none)
    (append : Bool) (fd : Int) :
    redirect nic (syscall nic path create (.openFile false none append 0) st) fd = none := by
  have hanswer : st.answer nic { event := .resume, path := path, create := create }
      (.openFile false none append 0) =
        (.openFile false none append 0, (sysOpenNode st.live st.vfs path create).2, st.net) := by
    rw [System.answer]
    generalize sysOpenNode st.live st.vfs path create = r at hopen
    obtain ⟨found, vfs⟩ := r
    obtain rfl : found = none := hopen
    rfl
  have hneg : (sysOpen st.kernel false none append 0).cur.rax < 0 := by
    have hrax : (sysOpen st.kernel false none append 0).cur.rax = -1 := finish_rax (-1)
    rw [hrax]
    decide
  rw [syscall_eq hanswer rfl, redirect]
  exact if_pos hneg

theorem dup2_eq (old new : Fd) : dup2 nic old.val new.val st =
    some ((sysDup2 st.kernel (BitVec.ofInt 64 old.val) (BitVec.ofInt 64 new.val)).cur.rax,
      { st with kernel := sysDup2 st.kernel (BitVec.ofInt 64 old.val) (BitVec.ofInt 64 new.val) }) :=
  rfl

theorem close_eq (fd : Fd) : close nic fd.val st =
    some ((sysClose st.kernel (BitVec.ofInt 64 fd.val)).cur.rax,
      { st with kernel := sysClose st.kernel (BitVec.ofInt 64 fd.val) }) :=
  rfl

/-- `dup2` and `close` move an open descriptor to descriptor 1, unless it is that one. -/
theorem redirect_some (nic : Nic) {fd : Fd} (hused : (st.kernel.cur.fds fd).InUse) :
    ∃ st₁, redirect nic (some ((fd.val : Int), st)) 1 = some st₁ ∧ st₁.vfs = st.vfs ∧
      st₁.kernel.cur.fds 1 = if fd = 1 then File.zero else st.kernel.cur.fds fd := by
  have hpos : ¬ (fd.val : Int) < 0 := Int.not_lt.mpr (Int.natCast_nonneg _)
  have hdup : dup2 nic fd.val 1 st = _ := dup2_eq fd 1
  have hfds := sysDup2_fds hused 1
  rw [redirect, if_neg hpos, hdup]
  refine ⟨_, congrArg (Option.map Prod.snd) (close_eq fd), rfl, ?_⟩
  have hused' : (update st.kernel.cur.fds 1 (st.kernel.cur.fds fd) fd).InUse := by
    rw [update_apply]
    split
    · exact hused
    · exact hused
  rw [← hfds] at hused'
  rw [sysClose_fds hused', hfds, update_apply, update_self]
  split
  · next heq => rw [if_pos heq.symm]
  · next heq => rw [if_neg (Ne.symm heq)]

end Opening

/-! ### Writing -/

section Writing

variable {nic : Nic} {st st' : System} {p : NodePtr} {content buf : List UInt8} {pos : Nat} {r : Int}

/-- Descriptor 1 stands at a position of a file. -/
structure Stands (st : System) (p : NodePtr) (content : List UInt8) (pos : Nat) : Prop where
  file : st.vfs.FileIs p content
  fd : st.kernel.cur.fds 1 = nodeFile ⟨nodeAddr p, .file⟩ (BitVec.ofNat 64 pos)
  le : pos ≤ content.length

theorem fdGet_one (h : (st.kernel.cur.fds 1).InUse) :
    fdGet st.kernel.cur (toInt (BitVec.ofInt 64 1)) = some 1 := fdGet_fd h

theorem Stands.inUse (h : Stands st p content pos) : (st.kernel.cur.fds 1).InUse := by
  rw [h.fd]
  exact nodeFile_inUse _ _

theorem Stands.target (h : Stands st p content pos) (hpos : pos < 2 ^ 64) :
    st.writeTarget (BitVec.ofInt 64 1) = .file p pos := by
  obtain ⟨hwr, hout⟩ := nodeFile_stream ⟨nodeAddr p, .file⟩ (BitVec.ofNat 64 pos)
  have hplace : Target.file (nodePtr (nodeAddr p)) (BitVec.ofNat 64 pos).toNat = .file p pos := by
    rw [nodePtr_nodeAddr, BitVec.toNat_ofNat, Nat.mod_eq_of_lt hpos]
  rw [System.writeTarget, System.target, fdGet_one h.inUse, ← hplace]
  simp only [h.fd]
  exact if_neg (by rw [hwr, hout]; decide)

theorem Stands.dispatch (h : Stands st p content pos) (hbuf : buf ≠ []) (result : Int) :
    sysWrite st.kernel (BitVec.ofInt 64 1) false buf result = vfsDone st.kernel 1 result := by
  obtain ⟨hwr, hout⟩ := nodeFile_stream ⟨nodeAddr p, .file⟩ (BitVec.ofNat 64 pos)
  have hsome : (nodeFile ⟨nodeAddr p, .file⟩ (BitVec.ofNat 64 pos)).node ≠ none := nofun
  rw [sysWrite, fdGet_one h.inUse]
  simp only [h.fd]
  rw [if_neg (by simp [hbuf])]
  show (if _ then _ else if _ then _ else if _ then _ else _) = _
  rw [if_neg (by rw [hwr]; decide), if_neg (not_not.mpr hout), if_neg hsome]

theorem write_empty (hused : (st.kernel.cur.fds 1).InUse) :
    write nic 1 [] st = some (-1, { st with kernel := st.kernel.finish (-1) }) := by
  have hsys : sysWrite st.kernel (BitVec.ofInt 64 1) false [] 0 = st.kernel.finish (-1) := by
    rw [sysWrite, fdGet_one hused]
    exact if_pos (Or.inr rfl)
  have hrax : (st.kernel.finish (-1)).cur.rax = -1 := finish_rax (-1)
  have hanswer : st.answer nic { event := .resume, path := [], create := false }
      (.write (BitVec.ofInt 64 1) false [] 0) =
        (.write (BitVec.ofInt 64 1) false [] 0, st.vfs, st.net) := rfl
  rw [write, syscall_eq hanswer (congrArg some hsys), hrax]

/-- A write that succeeds puts its bytes at the position and moves it. -/
theorem Stands.write (h : Stands st p content pos) (hbuf : buf ≠ [])
    (hbound : pos + buf.length < 2 ^ 64) (hwrite : User.write nic 1 buf st = some (r, st'))
    (hr : r = buf.length) : Stands st' p (overwrite content pos buf) (pos + buf.length) := by
  have hlen : 0 < buf.length := length_pos_iff.mpr hbuf
  have hanswer : st.answer nic { event := .resume, path := [], create := false }
      (.write (BitVec.ofInt 64 1) false buf 0) =
        (.write (BitVec.ofInt 64 1) false buf (vfsWrite st.vfs (some p) buf pos).1,
          (vfsWrite st.vfs (some p) buf pos).2, st.net) := by
    rw [System.answer, if_neg hbuf, h.target (by omega)]
  have hsys := syscall_eq hanswer (congrArg some (h.dispatch hbuf _))
  obtain ⟨rfl, rfl⟩ : _ ∧ _ := by
    simpa only [some.injEq, Prod.mk.injEq] using hsys.symm.trans hwrite
  rw [vfsDone_rax] at hr
  rcases h.file.write hbound with ⟨-, hfile⟩ | ⟨hfail, -⟩
  · refine ⟨hfile, ?_, ?_⟩
    · have hmove : BitVec.ofNat 64 pos + BitVec.ofInt 64 (buf.length : Int) =
          BitVec.ofNat 64 (pos + buf.length) := by
        rw [BitVec.ofInt_natCast, BitVec.ofNat_add]
      rw [vfsDone_fds (by rw [hr]; exact Int.natCast_pos.mpr hlen), update_self, h.fd, hr,
        ← hmove]
      rfl
    · rw [length_overwrite]
      exact Nat.le_max_right _ _
  · omega

theorem overwrite_nil (h : pos ≤ content.length) : overwrite content pos [] = content := by
  rw [overwrite_inside h, append_nil, length_nil, Nat.add_zero, take_append_drop]

/-- The writes of a command are one write of its whole output. -/
theorem Stands.writeAll {bufs : List (List UInt8)} (h : Stands st p content pos)
    (hbound : pos + bufs.flatten.length < 2 ^ 64) (hwrite : User.writeAll nic bufs st = some st') :
    st'.vfs.FileIs p (overwrite content pos bufs.flatten) := by
  induction bufs generalizing st content pos with
  | nil =>
    cases hwrite
    rw [flatten_nil, overwrite_nil h.le]
    exact h.file
  | cons buf bufs ih =>
    rw [flatten_cons, length_append, ← Nat.add_assoc] at hbound
    rw [User.writeAll] at hwrite
    cases hbuf : User.write nic 1 buf st with
    | none =>
      rw [hbuf] at hwrite
      cases hwrite
    | some result =>
      obtain ⟨r, st₁⟩ := result
      rw [hbuf] at hwrite
      by_cases hnil : buf = []
      · subst hnil
        rw [write_empty h.inUse] at hbuf
        obtain ⟨rfl, rfl⟩ : _ ∧ _ := by
          simpa only [some.injEq, Prod.mk.injEq] using hbuf
        have hkeep : Stands { st with kernel := st.kernel.finish (-1) } p content pos :=
          ⟨h.file, by rw [finish_cur]; exact h.fd, h.le⟩
        exact ih hkeep (by simpa using hbound) (by simpa using hwrite)
      · have hr : r = buf.length ∧ User.writeAll nic bufs st₁ = some st' := by
          simpa only [hnil, false_or, ite_none_right_eq_some] using hwrite
        have hnext := h.write hnil (by omega) hbuf hr.1
        rw [flatten_cons, ← overwrite_overwrite h.le]
        exact ih hnext hbound hr.2

theorem write_closed (h : st.kernel.cur.fds 1 = File.zero) :
    write nic 1 buf st = some (-1, { st with kernel := st.kernel.finish (-1) }) := by
  have hfree : fdGet st.kernel.cur (toInt (BitVec.ofInt 64 1)) = none := by
    have hzero : ¬ (st.kernel.cur.fds 1).InUse := by
      rw [h]
      decide
    exact fdGet_free hzero
  have hanswer : st.answer nic { event := .resume, path := [], create := false }
      (.write (BitVec.ofInt 64 1) false buf 0) =
        (.write (BitVec.ofInt 64 1) false buf 0, st.vfs, st.net) := by
    rw [System.answer, System.writeTarget, System.target, hfree, ite_self]
  have hsys : sysWrite st.kernel (BitVec.ofInt 64 1) false buf 0 = st.kernel.finish (-1) := by
    rw [sysWrite, hfree]
  have hrax : (st.kernel.finish (-1)).cur.rax = -1 := finish_rax (-1)
  rw [write, syscall_eq hanswer (congrArg some hsys), hrax]

/-- A command whose output is closed writes nothing. -/
theorem closed_writeAll {bufs : List (List UInt8)} (h : st.kernel.cur.fds 1 = File.zero)
    (hwrite : User.writeAll nic bufs st = some st') : bufs.flatten = [] ∧ st'.vfs = st.vfs := by
  induction bufs generalizing st with
  | nil =>
    cases hwrite
    exact ⟨rfl, rfl⟩
  | cons buf bufs ih =>
    rw [User.writeAll, write_closed h] at hwrite
    have hneg : ¬ (-1 : Int) = buf.length := by omega
    obtain ⟨hnil, hrest⟩ : buf = [] ∧ User.writeAll nic bufs
        { st with kernel := st.kernel.finish (-1) } = some st' := by
      simpa only [hneg, or_false, ite_none_right_eq_some] using hwrite
    have hkeep : (st.kernel.finish (-1)).cur.fds 1 = File.zero := by
      rw [finish_cur]
      exact h
    obtain ⟨hflat, hvfs⟩ := @ih { st with kernel := st.kernel.finish (-1) } hkeep hrest
    rw [flatten_cons, hnil, hflat]
    exact ⟨rfl, hvfs⟩

end Writing

/-! ### Redirection -/

/-- The node is a regular file. -/
def Regular (vfs : Vfs) (p : NodePtr) : Prop :=
  (∃ m < vfs.allocs, p = .heap m) ∧ (vfs.node p).type = .file

section Redirection

variable {nic : Nic} {st : System} {file : CStr} {p : NodePtr} {vfs : Vfs} {fd : Fd}

/-- What is written after a redirection to a regular file ends up in it, from its first
byte or from its end on. -/
theorem redirect_file (append : Bool) {create : Bool} (hfiled : st.vfs.Filed)
    (hopen : sysOpenNode st.live st.vfs file create = (some p, vfs)) (hreg : Regular vfs p)
    (hfd : fdAlloc st.kernel.cur = some fd) :
    ∃ st₁, redirect nic (syscall nic file create (.openFile false none append 0) st) 1 = some st₁ ∧
      ∀ bufs st₂, writeAll nic bufs st₁ = some st₂ →
        (st.vfs.node p).data.length + bufs.flatten.length < 2 ^ 64 →
        st₂.vfs.FileIs p (overwrite (st.vfs.node p).data
          (if append then (st.vfs.node p).data.length else 0) bufs.flatten) := by
  have hstores := @sysOpenNode_stores st.live st.vfs file create
  rw [hopen] at hstores
  have hfile := hfiled.fileIs hstores hreg.1 hreg.2
  obtain ⟨st₁, hcall, hvfs, hfds⟩ := open_some nic hopen hreg.2 hfd append
  have hnew : st₁.kernel.cur.fds fd = nodeFile ⟨nodeAddr p, .file⟩
      (BitVec.ofNat 64 (if append then (st.vfs.node p).data.length else 0)) := by
    rw [hfds, update_self, hfile.size]
    cases append <;> rfl
  obtain ⟨st₂, hredir, hvfs₂, hone⟩ := redirect_some nic
    (show (st₁.kernel.cur.fds fd).InUse by rw [hnew]; exact nodeFile_inUse _ _)
  rw [← hvfs, ← hvfs₂] at hfile
  have hle : (if append then (st.vfs.node p).data.length else 0) ≤ (st.vfs.node p).data.length := by
    split
    · exact Nat.le_refl _
    · exact Nat.zero_le _
  refine ⟨st₂, hcall ▸ hredir, fun bufs st₃ hwrite hbound => ?_⟩
  by_cases hfd1 : fd = 1
  · rw [if_pos hfd1] at hone
    obtain ⟨hflat, hsame⟩ := closed_writeAll hone hwrite
    rw [hflat, overwrite_nil hle, hsame]
    exact hfile
  · rw [if_neg hfd1, hnew] at hone
    exact Stands.writeAll ⟨hfile, hone, hle⟩ (by omega) hwrite

theorem overwrite_start_iff (old s : List UInt8) :
    overwrite old 0 s = s ↔ old.length ≤ s.length := by
  rw [overwrite_inside (Nat.zero_le _), take_zero, nil_append, Nat.zero_add,
    append_right_eq_self, drop_eq_nil_iff]

/-- The shell appends to a file what its command writes. -/
def Appends (nic : Nic) (stage : Stage) (st₀ st : System) (file : CStr) : Prop :=
  ∃ st₁, applyRedirects nic stage st₀ = some st₁ ∧
    ∀ p, (vfsResolve st.live st.vfs file).1 = some p → ∀ bufs st₂, writeAll nic bufs st₁ = some st₂ →
      (st.vfs.node p).data.length + bufs.flatten.length < 2 ^ 64 →
      (st₂.vfs.node p).data = (st.vfs.node p).data ++ bufs.flatten

theorem sysOpenNode_of_resolve (hres : vfsResolve st.live st.vfs file = (some p, vfs))
    (hreg : Regular vfs p) : sysOpenNode st.live st.vfs file false = (some p, vfs) := by
  have hdir : (vfs.node p).type ≠ .directory := by
    rw [hreg.2]
    exact nofun
  rw [sysOpenNode, if_neg (fun h => nomatch h.1), hres, openCheck, if_neg hdir]

theorem sysOpenNode_absent (hres : (vfsResolve st.live st.vfs file).1 = none) :
    (sysOpenNode st.live st.vfs file false).1 = none := by
  rw [sysOpenNode, if_neg (fun h => nomatch h.1)]
  generalize vfsResolve st.live st.vfs file = r at hres
  obtain ⟨found, t⟩ := r
  obtain rfl : found = none := hres
  rfl

end Redirection

/-- After `> file` the file is what the command wrote exactly if it was not longer before;
`>> file` appends to the file exactly if it exists. -/
theorem redirect_output_iff (nic : Nic) {stage : Stage} {st₀ st : System}
    (hin : redirectIn nic stage st₀ = some st) (hfiled : st.vfs.Filed) {fd : Fd}
    (hfd : fdAlloc st.kernel.cur = some fd) :
    (∀ file p vfs, stage.redirOut = some (.create file) →
      sysOpenNode st.live st.vfs file true = (some p, vfs) → Regular vfs p →
      ∃ st₁, applyRedirects nic stage st₀ = some st₁ ∧
        ∀ bufs st₂, writeAll nic bufs st₁ = some st₂ →
          (st.vfs.node p).data.length + bufs.flatten.length < 2 ^ 64 →
          ((st₂.vfs.node p).data = bufs.flatten ↔
            (st.vfs.node p).data.length ≤ bufs.flatten.length)) ∧
    ∀ file, stage.redirOut = some (.append file) →
      ((vfsResolve st.live st.vfs file).1 = none ∨
        ∃ p vfs, vfsResolve st.live st.vfs file = (some p, vfs) ∧ Regular vfs p) →
      (Appends nic stage st₀ st file ↔ (vfsResolve st.live st.vfs file).1 ≠ none) := by
  constructor
  · intro file p vfs hout hopen hreg
    have happly : applyRedirects nic stage st₀ = redirect nic (openCreate nic file st) 1 := by
      rw [applyRedirects, hin, hout]
    obtain ⟨st₁, hredir, hwrites⟩ := redirect_file false hfiled hopen hreg hfd
    refine ⟨st₁, happly.trans hredir, fun bufs st₂ hwrite hbound => ?_⟩
    rw [(hwrites bufs st₂ hwrite hbound).data]
    exact overwrite_start_iff _ _
  · intro file hout htarget
    have happly : applyRedirects nic stage st₀ = redirect nic (openAppend nic file st) 1 := by
      rw [applyRedirects, hin, hout]
    constructor
    · rintro ⟨st₁, hsome, -⟩ hnone
      have hfail := open_none nic (sysOpenNode_absent hnone) true 1
      rw [happly] at hsome
      exact nomatch hfail.symm.trans hsome
    · intro hsome
      obtain ⟨p, vfs, hres, hreg⟩ := htarget.resolve_left hsome
      have hopen := sysOpenNode_of_resolve hres hreg
      obtain ⟨st₁, hredir, hwrites⟩ := redirect_file true hfiled hopen hreg hfd
      refine ⟨st₁, happly.trans hredir, fun q hq bufs st₂ hwrite hbound => ?_⟩
      obtain rfl : p = q := by
        rw [hres] at hq
        exact Option.some.inj hq
      rw [(hwrites bufs st₂ hwrite hbound).data]
      exact overwrite_end _ _

/-- A file system whose file `/f` holds two bytes. -/
def twoBytes : Vfs := (vfsWrite oneFile (some (.heap 1)) [97, 98] 0).2

theorem twoBytes_filed : twoBytes.Filed :=
  oneFile_filed.write oneFile_fileIs (by decide)

/-- The redirections `> /f` and `>> /g`. -/
def intoF : Stage := ⟨none, some (.create (ascii "/f"))⟩

def ontoG : Stage := ⟨none, some (.append (ascii "/g"))⟩

theorem redirect_output_twoBytes : ∃ k₀ st₁,
    boot smallVm (some smallProgram) (some smallProgram) = some k₀ ∧
    applyRedirects smallNic intoF ⟨k₀, twoBytes, netInit smallNic⟩ = some st₁ ∧
    ∀ bufs st₂, writeAll smallNic bufs st₁ = some st₂ → 2 + bufs.flatten.length < 2 ^ 64 →
      ((st₂.vfs.node (.heap 1)).data = bufs.flatten ↔ 2 ≤ bufs.flatten.length) := by
  have hboot : ∃ k₀, boot smallVm (some smallProgram) (some smallProgram) = some k₀ ∧
      fdAlloc k₀.cur = some 3 := by
    decide +kernel
  obtain ⟨k₀, hboot, hfd⟩ := hboot
  have hopen : ∀ live, sysOpenNode live twoBytes (ascii "/f") true = (some (.heap 1), twoBytes) :=
    fun _ => rfl
  have hin : redirectIn smallNic intoF ⟨k₀, twoBytes, netInit smallNic⟩ = some _ := rfl
  obtain ⟨st₁, happly, hwrites⟩ := (redirect_output_iff smallNic hin twoBytes_filed hfd).1 _ _ _ rfl
    (hopen _) ⟨⟨1, by decide, rfl⟩, rfl⟩
  exact ⟨k₀, st₁, hboot, happly, hwrites⟩

/-- The command writes one byte. After `> /f` the second byte of the old file is still there,
and `>> /g` makes the shell exit. -/
theorem redirect_keeps_tail : ∃ k₀,
    boot smallVm (some smallProgram) (some smallProgram) = some k₀ ∧
    (∃ st₁, applyRedirects smallNic intoF ⟨k₀, twoBytes, netInit smallNic⟩ = some st₁ ∧
      ∃ st₂, writeAll smallNic [[120]] st₁ = some st₂ ∧ (st₂.vfs.node (.heap 1)).data = [120, 98]) ∧
    (vfsResolve (fun _ => false) twoBytes (ascii "/g")).1 = none ∧
    (applyRedirects smallNic ontoG ⟨k₀, twoBytes, netInit smallNic⟩).isNone := by
  decide +kernel

end Mmix.User
