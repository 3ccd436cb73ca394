import Mmix.Fs.OpenEffect
import Mmix.Sys.System

/-!
# Opens that fail

`sys_open` changes the tree before it knows that it will succeed: the lookup may make a node in
procfs, and `O_CREATE` makes directories and the file, before memory runs out, the type of the
node is checked or a descriptor is looked for. A failed open leaves all of this behind.
-/

namespace Mmix.Sys

open Mm Fs Proc Kernel Net

/-- `sys_open` of the current task. A null pointer is no path. -/
def System.sysOpen (st : System) (path : Option CStr) (create append : Bool) : System :=
  match path with
  | none => { st with kernel := Sys.sysOpen st.kernel true none append 0 }
  | some path =>
    match sysOpenNode st.live st.vfs path create with
    | (none, vfs) => { st with kernel := Sys.sysOpen st.kernel false none append 0, vfs := vfs }
    | (some p, vfs) =>
      { st with
        kernel := Sys.sysOpen st.kernel false (some ⟨nodeAddr p, nodeKind vfs p⟩) append
          (BitVec.ofNat 64 (vfs.node p).size)
        vfs := vfs }

/-- A failed call leaves the tree and the descriptors of the caller as they were. -/
def FailsClean (st st' : System) : Prop :=
  st'.kernel.cur.rax = -1 →
    st.vfs.SameTree st'.vfs ∧ st'.kernel.cur.fds = st.kernel.cur.fds

/-- An open that touches nothing, or one with a free descriptor for a node that can be opened. -/
def OpenClear (st : System) (path : Option CStr) (create : Bool) : Prop :=
  ∀ name root, path = some name → st.vfs.root = some root → name.head? = some slash →
    st.vfs.Untouched st.live root name create ∨
      (fdAlloc st.kernel.cur).isSome ∧ st.vfs.Openable st.live root name create

section Open

variable {k : Kernel} {st : System} {create append : Bool} {path : CStr}

/-- The call as it is dispatched is the function above. -/
theorem dispatch_sysOpen (nic : Nic) (name : Option CStr) (a : Call × Vfs × NetState)
    (ha : a = st.answer nic { event := .resume, path := name.getD [], create := create }
      (.openFile name.isNone none append 0)) :
    (dispatch st.kernel a.1).map (fun k => (⟨k, a.2.1, a.2.2⟩ : System)) =
      some (st.sysOpen name create append) := by
  subst ha
  cases name with
  | none => rfl
  | some path =>
    simp only [System.sysOpen, System.answer, Option.isNone_some, Option.getD_some]
    cases sysOpenNode st.live st.vfs path create with
    | mk found vfs =>
      cases found with
      | none => rfl
      | some p => rfl

/-- A call that returns without a descriptor. -/
theorem finish_failed : (k.finish (-1)).cur.rax = -1 ∧ (k.finish (-1)).cur.fds = k.cur.fds :=
  ⟨finish_rax _, by rw [finish_cur]⟩

/-- With a node that can be opened only the descriptor may be missing. -/
theorem sysOpen_rax_iff {node : Node} (hdir : node.kind ≠ .directory) (size : Word) :
    (Sys.sysOpen k false (some node) append size).cur.rax = -1 ↔ fdAlloc k.cur = none := by
  simp only [Sys.sysOpen, if_neg hdir]
  cases fdAlloc k.cur with
  | none => exact iff_of_true finish_failed.1 rfl
  | some fd =>
    refine iff_of_false ?_ nofun
    simp only [finish_rax]
    omega

theorem sysOpen_fds_of_none (h : fdAlloc k.cur = none) (node : Option Node) (size : Word) :
    (Sys.sysOpen k false node append size).cur.fds = k.cur.fds := by
  cases node with
  | none => exact finish_failed.2
  | some node =>
    simp only [Sys.sysOpen, h]
    split
    · exact finish_failed.2
    · exact finish_failed.2

theorem nodeKind_ne_directory {vfs : Vfs} {p : NodePtr} (h : (vfs.node p).type ≠ .directory) :
    nodeKind vfs p ≠ .directory := by
  rw [nodeKind]
  cases htype : (vfs.node p).type with
  | directory => exact absurd htype h
  | file => exact nofun
  | procfs => exact nofun
  | chardev =>
    simp only
    split
    · exact nofun
    · exact nofun

/-- When `sys_open` fails, and what it leaves then. -/
theorem sysOpen_failed_iff :
    ((st.sysOpen (some path) create append).kernel.cur.rax = -1 ↔
      ¬ ((fdAlloc st.kernel.cur).isSome ∧
        (sysOpenNode st.live st.vfs path create).1.isSome)) ∧
      ((st.sysOpen (some path) create append).kernel.cur.rax = -1 →
        (st.sysOpen (some path) create append).kernel.cur.fds = st.kernel.cur.fds) ∧
      (st.sysOpen (some path) create append).vfs = (sysOpenNode st.live st.vfs path create).2 := by
  have htype : ∀ p, (sysOpenNode st.live st.vfs path create).1 = some p →
      ((sysOpenNode st.live st.vfs path create).2.node p).type ≠ .directory :=
    fun p hp => openCheck_type _ hp
  simp only [System.sysOpen]
  cases hopen : sysOpenNode st.live st.vfs path create with
  | mk found vfs =>
    rw [hopen] at htype
    cases found with
    | none =>
      exact ⟨iff_of_true finish_failed.1 (fun h => nomatch h.2), fun _ => finish_failed.2, rfl⟩
    | some p =>
      have hkind := nodeKind_ne_directory (htype p rfl)
      refine ⟨?_, fun hfail => ?_, rfl⟩
      · rw [sysOpen_rax_iff hkind]
        simp
      · exact sysOpen_fds_of_none ((sysOpen_rax_iff hkind _).mp hfail) _ _

/-- A failed open changes nothing exactly if it touches nothing, or does not fail. -/
theorem open_fails_clean_iff (st : System) (path : Option CStr) (create append : Bool)
    (hs : st.vfs.Linked) :
    FailsClean st (st.sysOpen path create append) ↔ OpenClear st path create := by
  cases path with
  | none =>
    refine iff_of_true (fun _ => ⟨⟨rfl, rfl, rfl⟩, finish_failed.2⟩) ?_
    intro name root hname
    cases hname
  | some path =>
    obtain ⟨hfails, hfds, hvfs⟩ := @sysOpen_failed_iff st create append path
    have hclean : FailsClean st (st.sysOpen (some path) create append) ↔
        st.vfs.SameTree (sysOpenNode st.live st.vfs path create).2 ∨
          (fdAlloc st.kernel.cur).isSome ∧
            (sysOpenNode st.live st.vfs path create).1.isSome := by
      rw [FailsClean, hvfs, or_iff_not_imp_right, ← hfails]
      exact forall_congr' fun hfail => and_iff_left (hfds hfail)
    rw [hclean]
    by_cases hrel : st.vfs.root = none ∨ path.head? ≠ some slash
    · rw [sysOpenNode_relative hrel]
      refine iff_of_true (.inl ⟨rfl, rfl, rfl⟩) fun name root hname hroot habs => ?_
      cases hname
      rcases hrel with hnone | hnot
      · rw [hnone] at hroot
        cases hroot
      · exact absurd habs hnot
    · obtain ⟨hsome, habs⟩ := not_or.mp hrel
      obtain ⟨root, hroot⟩ := Option.ne_none_iff_exists'.mp hsome
      have habs : path.head? = some slash := not_not.mp habs
      rw [sysOpenNode_sameTree_iff hs hroot habs, sysOpenNode_isSome_iff hs hroot habs]
      constructor
      · intro hclear name root' hname hroot' _
        cases hname
        obtain rfl := Option.some.inj (hroot.symm.trans hroot')
        exact hclear
      · exact fun hclear => hclear path root rfl hroot habs

/-- A process opens a file that is not there. -/
theorem open_fails_clean_absent : ∃ k₀,
    boot smallVm (some smallProgram) (some smallProgram) = some k₀ ∧
    (System.sysOpen ⟨k₀, freshVfs, netInit smallNic⟩ (some (ascii "/g")) false
      false).kernel.cur.rax = -1 ∧
    FailsClean ⟨k₀, freshVfs, netInit smallNic⟩
      (System.sysOpen ⟨k₀, freshVfs, netInit smallNic⟩ (some (ascii "/g")) false false) := by
  have hrun : ∃ k₀, boot smallVm (some smallProgram) (some smallProgram) = some k₀ ∧
      (System.sysOpen ⟨k₀, freshVfs, netInit smallNic⟩ (some (ascii "/g")) false
        false).kernel.cur.rax = -1 := by
    decide +kernel
  obtain ⟨k₀, hboot, hfail⟩ := hrun
  have hlinked : freshVfs.Linked := vfsInit_linked (Vfs.blank_linked _)
  refine ⟨k₀, hboot, hfail, (open_fails_clean_iff _ _ _ _ hlinked).mpr ?_⟩
  intro name root _ _ _
  refine .inl ⟨?_, fun hcreate => nomatch hcreate⟩
  exact still_of_no_procfs freshVfs_type root _

/-- A file system after `vfs_init` with memory for one more node. -/
def scarceVfs : Vfs := vfsInit (Vfs.blank fun n => decide (n < 2))

/-- Creating `/a/b` fails for want of memory and leaves the directory `/a`. -/
theorem open_leaves_directory : ∃ k₀,
    boot smallVm (some smallProgram) (some smallProgram) = some k₀ ∧ scarceVfs.Linked ∧
    ¬ FailsClean ⟨k₀, scarceVfs, netInit smallNic⟩
      (System.sysOpen ⟨k₀, scarceVfs, netInit smallNic⟩ (some (ascii "/a/b")) true false) := by
  have hrun : ∃ k₀, boot smallVm (some smallProgram) (some smallProgram) = some k₀ ∧
      (System.sysOpen ⟨k₀, scarceVfs, netInit smallNic⟩ (some (ascii "/a/b")) true
        false).kernel.cur.rax = -1 ∧
      ((System.sysOpen ⟨k₀, scarceVfs, netInit smallNic⟩ (some (ascii "/a/b")) true
        false).vfs.node (.heap 0)).children = [.heap 1] := by
    decide +kernel
  obtain ⟨k₀, hboot, hfail, hkids⟩ := hrun
  refine ⟨k₀, hboot, vfsInit_linked (Vfs.blank_linked _), fun hclean => ?_⟩
  have hsame := (hclean hfail).1.node
  rw [hsame] at hkids
  cases hkids

end Open

end Mmix.Sys
