import Mmix.Fs.Tree

/-!
# The contents of files

`vfs_write`, and the fact that nothing but a write to it changes the type or
the contents of a node in the heap: looking a path up and creating nodes only
touch names, links and new nodes.
-/

namespace Mmix.Fs

open Split List

/-- Put bytes into a block; a gap in front of them is filled with zeros. -/
def overwrite (data : List UInt8) (offset : Nat) (buf : List UInt8) : List UInt8 :=
  data.take offset ++ List.replicate (offset - data.length) 0 ++ buf ++
    data.drop (offset + buf.length)

/-- `vfs_write`. A larger block is asked for when the file grows. -/
def vfsWrite (s : Vfs) (node : Option NodePtr) (buf : List UInt8) (offset : Nat) : Int × Vfs :=
  match node with
  | none => (-1, s)
  | some p =>
    let n := s.node p
    if n.type ≠ .file then (-1, s)
    else
      let size := (offset + buf.length) % 2 ^ 64
      let result := (BitVec.ofNat 32 buf.length).toInt
      if n.size < size then
        if s.grants s.allocs then
          (result, s.asked.set p
            { n with data := overwrite (n.data.take n.size) offset buf, size := size })
        else (-1, s.asked)
      else (result, s.set p { n with data := overwrite n.data offset buf })

theorem overwrite_inside {data : List UInt8} {offset : Nat} (h : offset ≤ data.length)
    (buf : List UInt8) :
    overwrite data offset buf = data.take offset ++ buf ++ data.drop (offset + buf.length) := by
  rw [overwrite, Nat.sub_eq_zero_of_le h, replicate_zero, append_nil]

theorem overwrite_end (data buf : List UInt8) : overwrite data data.length buf = data ++ buf := by
  rw [overwrite_inside (Nat.le_refl _), take_length,
    drop_of_length_le (Nat.le_add_right _ _), append_nil]

/-! ### What is kept -/

/-- What a file holds. -/
def VfsNode.stored (n : VfsNode) : VfsType × List UInt8 × Nat := (n.type, n.data, n.size)

/-- The node has no contents. -/
def VfsNode.Empty (n : VfsNode) : Prop := n.data = [] ∧ n.size = 0

theorem VfsNode.Empty.of_stored {n n' : VfsNode} (h : n.Empty) (heq : n'.stored = n.stored) :
    n'.Empty := by
  simp only [VfsNode.stored, Prod.mk.injEq] at heq
  exact ⟨heq.2.1.trans h.1, heq.2.2.trans h.2⟩

/-- The nodes of the heap keep what they hold, and new ones are empty. -/
structure Vfs.Stores (s t : Vfs) : Prop where
  allocs : s.allocs ≤ t.allocs
  stored : ∀ m < s.allocs, (t.node (.heap m)).stored = (s.node (.heap m)).stored
  empty : ∀ m, s.allocs ≤ m → (s.node (.heap m)).Empty → (t.node (.heap m)).Empty

section Stores

variable {s t u : Vfs} {live : Nat → Bool}

theorem Vfs.Stores.refl (s : Vfs) : s.Stores s := ⟨Nat.le_refl _, fun _ _ => rfl, fun _ _ h => h⟩

theorem Vfs.Stores.trans (h : s.Stores t) (h' : t.Stores u) : s.Stores u := by
  refine ⟨Nat.le_trans h.allocs h'.allocs, fun m hm => ?_, fun m hm hempty => ?_⟩
  · exact (h'.stored m (Nat.lt_of_lt_of_le hm h.allocs)).trans (h.stored m hm)
  · have hmid := h.empty m hm hempty
    rcases Nat.lt_or_ge m t.allocs with hlt | hge
    · exact hmid.of_stored (h'.stored m hlt)
    · exact h'.empty m hge hmid

theorem Vfs.stores_asked (s : Vfs) : s.Stores s.asked :=
  ⟨Nat.le_succ _, fun _ _ => rfl, fun _ _ h => h⟩

/-- A node may be written when it keeps what it holds. -/
theorem Vfs.stores_set (s : Vfs) {p : NodePtr} {n : VfsNode} (h : n.stored = (s.node p).stored) :
    s.Stores (s.set p n) := by
  have hsame : ∀ m, ((s.set p n).node (.heap m)).stored = (s.node (.heap m)).stored := by
    intro m
    rw [Vfs.set_node]
    split
    · next heq => rw [h, heq]
    · rfl
  exact ⟨Nat.le_refl _, fun m _ => hsame m, fun m _ hempty => hempty.of_stored (hsame m)⟩

theorem Vfs.stores_link (s : Vfs) (p n : NodePtr) : s.Stores (s.link p n) := by
  have hchild : s.Stores (s.set n { s.node n with parent := some p }) :=
    s.stores_set rfl
  apply hchild.trans
  exact Vfs.stores_set _ rfl

theorem vfsCreateNode_stores (s : Vfs) (name : CStr) (type : VfsType) :
    s.Stores (vfsCreateNode s name type).2 := by
  rw [vfsCreateNode]
  split
  · refine ⟨Nat.le_succ _, fun m hm => ?_, fun m _ hempty => ?_⟩
    · rw [Vfs.set_node, if_neg fun heq => Nat.ne_of_lt hm (NodePtr.heap.inj heq)]
    · rw [Vfs.set_node]
      split
      · exact ⟨rfl, rfl⟩
      · exact hempty
  · exact s.stores_asked

theorem vfsInit_stores (s : Vfs) : s.Stores (vfsInit s) := by
  have hroot := vfsCreateNode_stores s [slash] .directory
  exact ⟨hroot.allocs, hroot.stored, hroot.empty⟩

theorem createChild_stores (s : Vfs) (p : NodePtr) (name : CStr) (type : VfsType) :
    s.Stores (createChild s p name type).2 := by
  have hnode := vfsCreateNode_stores s name type
  rw [createChild]
  generalize vfsCreateNode s name type = r at hnode
  obtain ⟨made, t⟩ := r
  cases made with
  | none => exact hnode
  | some n => exact hnode.trans (t.stores_link p n)

theorem vfsGetOrCreateDir_stores (s : Vfs) (p : NodePtr) (name : CStr) :
    s.Stores (vfsGetOrCreateDir s p name).2 := by
  rw [vfsGetOrCreateDir]
  cases s.childNamed p name with
  | some child => exact .refl s
  | none => exact createChild_stores s p name _

theorem ensureToken_stores (s : Vfs) (p : NodePtr) (token : CStr) :
    s.Stores (ensureToken s p token).2 := by
  rw [ensureToken]
  split
  · exact .refl s
  · exact vfsGetOrCreateDir_stores s p token

theorem ensureLoop_stores (passes : Nat) (s : Vfs) (p : NodePtr) (token : CStr) :
    s.Stores (ensureLoop passes s p token).2 := by
  induction passes generalizing s p token with
  | zero => exact ensureToken_stores s p token
  | succ passes ih =>
    rw [ensureLoop]
    cases cut slash token with
    | none => exact ensureToken_stores s p token
    | some pieces =>
      have htoken := ensureToken_stores s p pieces.1
      simp only
      generalize ensureToken s p pieces.1 = r at htoken
      obtain ⟨found, t⟩ := r
      cases found with
      | none => exact htoken
      | some current => exact htoken.trans (ih t current pieces.2)

theorem createFileIn_stores (s : Vfs) (p : NodePtr) (name : CStr) :
    s.Stores (createFileIn s p name).2 := by
  rw [createFileIn]
  cases s.childNamed p name with
  | some child => exact .refl s
  | none => exact createChild_stores s p name _

theorem vfsCreateFile_stores (s : Vfs) (path : CStr) : s.Stores (vfsCreateFile s path).2 := by
  rw [vfsCreateFile]
  cases s.root with
  | none => exact .refl s
  | some root =>
    simp only
    split
    · cases cutLast slash (path.take (vfsMaxPath - 1)) with
      | none => exact .refl s
      | some pieces =>
        simp only
        split
        · exact createFileIn_stores s root pieces.2
        · have hpath := ensureLoop_stores (pieces.1.drop 1).length s root (pieces.1.drop 1)
          rw [vfsEnsurePath]
          generalize ensureLoop _ s root (pieces.1.drop 1) = r at hpath
          obtain ⟨found, t⟩ := r
          cases found with
          | none => exact hpath
          | some parent => exact hpath.trans (createFileIn_stores t parent pieces.2)
    · exact .refl s

theorem makeNode_stores (s : Vfs) (dir : NodePtr) (name : CStr) (payload : Nat) :
    s.Stores (makeNode s dir name payload).2 := by
  rw [makeNode]
  split
  · exact .refl s
  · have hnew : s.Stores ({ s with poolUsed := s.poolUsed + 1 }.set (.pool s.poolUsed)
        { name := name.take (vfsMaxName - 1), type := .procfs, payload := payload }) := by
      have hsame : ∀ m, ({ s with poolUsed := s.poolUsed + 1 }.set (.pool s.poolUsed)
          { name := name.take (vfsMaxName - 1), type := .procfs, payload := payload }).node
            (.heap m) = s.node (.heap m) := by
        intro m
        rw [Vfs.set_node, if_neg nofun]
      refine ⟨Nat.le_refl _, fun m _ => ?_, fun m _ hempty => ?_⟩
      · rw [hsame]
      · rwa [hsame]
    exact hnew.trans (Vfs.stores_link _ dir _)

theorem procfsResolve_stores (s : Vfs) (dir : NodePtr) (component : CStr) :
    s.Stores (procfsResolve live s dir component).2 := by
  rw [procfsResolve]
  simp only
  split
  · split
    · exact s.stores_set rfl
    · split
      · exact .refl s
      · exact .refl s
  · split
    · exact .refl s
    · cases procfsPid 0 component with
      | none => exact .refl s
      | some pid =>
        simp only
        split
        · exact .refl s
        · exact makeNode_stores s dir _ _

theorem resolveStep_stores (s : Vfs) (current : NodePtr) (component : CStr) :
    s.Stores (resolveStep live s current component).2 := by
  rw [resolveStep]
  split
  · exact procfsResolve_stores s current component
  · exact .refl s

theorem resolveLoop_stores (passes : Nat) (s : Vfs) (current : NodePtr) (path : CStr) :
    s.Stores (resolveLoop live passes s current path).2 := by
  induction passes generalizing s current path with
  | zero => exact .refl s
  | succ passes ih =>
    rw [resolveLoop]
    split
    · exact .refl s
    · simp only
      split
      · exact ih s current _
      · have hstep := @resolveStep_stores live s current
          (scan slash (vfsMaxName - 1) path).1
        generalize resolveStep live s current (scan slash (vfsMaxName - 1) path).1 = r at hstep
        obtain ⟨found, t⟩ := r
        cases found with
        | none => exact hstep
        | some next => exact hstep.trans (ih t next _)

theorem vfsResolve_stores (s : Vfs) (path : CStr) : s.Stores (vfsResolve live s path).2 := by
  rw [vfsResolve]
  cases s.root with
  | none => exact .refl s
  | some root =>
    simp only
    split
    · exact resolveLoop_stores _ s root _
    · exact .refl s

theorem openCheck_stores {r : Option NodePtr × Vfs} (h : s.Stores r.2) :
    s.Stores (openCheck r).2 := by
  obtain ⟨found, t⟩ := r
  cases found with
  | none => exact h
  | some n =>
    rw [openCheck]
    split
    · exact h
    · exact h

theorem sysOpenNode_stores (s : Vfs) (path : CStr) (create : Bool) :
    s.Stores (sysOpenNode live s path create).2 := by
  have hresolve := @vfsResolve_stores live s path
  apply openCheck_stores
  split
  · exact hresolve.trans (vfsCreateFile_stores _ path)
  · exact hresolve

end Stores

/-! ### Files -/

/-- The node is a file of the heap with the given contents. -/
structure Vfs.FileIs (s : Vfs) (p : NodePtr) (content : List UInt8) : Prop where
  heap : ∃ m < s.allocs, p = .heap m
  type : (s.node p).type = .file
  data : (s.node p).data = content
  size : (s.node p).size = content.length

section Files

variable {s t : Vfs} {p q : NodePtr} {content buf : List UInt8} {offset : Nat}

theorem Vfs.FileIs.of_stored (h : s.FileIs p content) (hallocs : s.allocs ≤ t.allocs)
    (hstored : (t.node p).stored = (s.node p).stored) : t.FileIs p content := by
  obtain ⟨m, hm, hp⟩ := h.heap
  obtain ⟨htype, hdata, hsize⟩ : _ ∧ _ ∧ _ := by
    simpa only [VfsNode.stored, Prod.mk.injEq] using hstored
  exact ⟨⟨m, Nat.lt_of_lt_of_le hm hallocs, hp⟩, htype.trans h.type, hdata.trans h.data,
    hsize.trans h.size⟩

theorem Vfs.FileIs.stores (h : s.FileIs p content) (hst : s.Stores t) : t.FileIs p content := by
  obtain ⟨m, hm, hp⟩ := h.heap
  exact h.of_stored hst.allocs (hp ▸ hst.stored m hm)

theorem length_overwrite :
    (overwrite content offset buf).length = max content.length (offset + buf.length) := by
  simp only [overwrite, length_append, length_take, length_replicate,
    length_drop]
  omega

theorem Vfs.FileIs.set (h : s.FileIs p content) (h' : s.allocs ≤ t.allocs) {n : VfsNode}
    {new : List UInt8} (htype : n.type = .file) (hdata : n.data = new)
    (hsize : n.size = new.length) : (t.set p n).FileIs p new := by
  obtain ⟨m, hm, hp⟩ := h.heap
  have hnode : (t.set p n).node p = n := by rw [Vfs.set_node, if_pos rfl]
  refine ⟨⟨m, Nat.lt_of_lt_of_le hm h', hp⟩, ?_, ?_, ?_⟩
  · rw [hnode, htype]
  · rw [hnode, hdata]
  · rw [hnode, hsize]

/-- A write to a file. -/
theorem Vfs.FileIs.write (h : s.FileIs p content) (hbound : offset + buf.length < 2 ^ 64) :
    (vfsWrite s (some p) buf offset).1 = (BitVec.ofNat 32 buf.length).toInt ∧
        (vfsWrite s (some p) buf offset).2.FileIs p (overwrite content offset buf) ∨
      (vfsWrite s (some p) buf offset).1 = -1 ∧
        (vfsWrite s (some p) buf offset).2.FileIs p content := by
  have hlen : (overwrite content offset buf).length = _ := length_overwrite
  simp only [vfsWrite, h.type, ne_eq, not_true_eq_false, if_false, Nat.mod_eq_of_lt hbound, h.data,
    h.size, take_length]
  by_cases hgrow : content.length < offset + buf.length
  · rw [if_pos hgrow]
    cases s.grants s.allocs with
    | true =>
      left
      have hle : s.allocs ≤ s.asked.allocs := Nat.le_succ _
      exact ⟨rfl, h.set hle rfl rfl (by rw [hlen, Nat.max_eq_right (Nat.le_of_lt hgrow)])⟩
    | false => exact Or.inr ⟨rfl, h.stores s.stores_asked⟩
  · rw [if_neg hgrow]
    left
    exact ⟨rfl, h.set (Nat.le_refl _) rfl rfl
      (by rw [hlen, Nat.max_eq_left (Nat.le_of_not_lt hgrow)])⟩

/-- The sizes of nodes are those of their contents, and nodes not yet allocated are empty. -/
structure Vfs.Filed (s : Vfs) : Prop where
  sized : ∀ m < s.allocs, (s.node (.heap m)).size = (s.node (.heap m)).data.length
  empty : ∀ m, s.allocs ≤ m → (s.node (.heap m)).Empty

theorem Vfs.blank_filed (grants : Nat → Bool) : (Vfs.blank grants).Filed :=
  ⟨fun _ hm => absurd hm (Nat.not_lt_zero _), fun _ _ => ⟨rfl, rfl⟩⟩

/-- A regular file holds what it held before, or nothing if it is new. -/
theorem Vfs.Filed.fileIs (h : s.Filed) (hst : s.Stores t) (hp : ∃ m < t.allocs, p = .heap m)
    (htype : (t.node p).type = .file) : t.FileIs p (s.node p).data := by
  obtain ⟨m, hm, rfl⟩ := hp
  rcases Nat.lt_or_ge m s.allocs with hlt | hge
  · have hstored := hst.stored m hlt
    simp only [VfsNode.stored, Prod.mk.injEq] at hstored
    exact ⟨⟨m, hm, rfl⟩, htype, hstored.2.1, hstored.2.2.trans (h.sized m hlt)⟩
  · have hold := h.empty m hge
    have hnew := hst.empty m hge hold
    refine ⟨⟨m, hm, rfl⟩, htype, hnew.1.trans hold.1.symm, ?_⟩
    rw [hnew.2, hold.1]
    rfl

theorem Vfs.Filed.stores (h : s.Filed) (hst : s.Stores t) : t.Filed := by
  constructor
  · intro m _
    rcases Nat.lt_or_ge m s.allocs with hlt | hge
    · have hstored := hst.stored m hlt
      simp only [VfsNode.stored, Prod.mk.injEq] at hstored
      rw [hstored.2.1, hstored.2.2]
      exact h.sized m hlt
    · have hnew := hst.empty m hge (h.empty m hge)
      rw [hnew.1, hnew.2]
      rfl
  · intro m hm
    have hge := Nat.le_trans hst.allocs hm
    exact hst.empty m hge (h.empty m hge)

/-- Writes that follow one another are one write. -/
theorem overwrite_overwrite (h : offset ≤ content.length) (a b : List UInt8) :
    overwrite (overwrite content offset a) (offset + a.length) b =
      overwrite content offset (a ++ b) := by
  have hlen : (content.take offset).length = offset := by
    rw [length_take, Nat.min_eq_left h]
  have hle : offset + a.length ≤ (overwrite content offset a).length := by
    rw [length_overwrite]
    exact Nat.le_max_right _ _
  have hfront : (content.take offset ++ a).length = offset + a.length := by
    rw [length_append, hlen]
  rw [overwrite_inside hle, overwrite_inside h, overwrite_inside h,
    take_append_of_le_length (Nat.le_of_eq hfront.symm), take_of_length_le (Nat.le_of_eq hfront),
    ← drop_drop, drop_append_of_le_length (Nat.le_of_eq hfront.symm),
    drop_of_length_le (Nat.le_of_eq hfront), nil_append, drop_drop, length_append,
    append_assoc, append_assoc, append_assoc, Nat.add_assoc, append_assoc]

theorem vfsWrite_allocs (s : Vfs) (q : NodePtr) (buf : List UInt8) (offset : Nat) :
    s.allocs ≤ (vfsWrite s (some q) buf offset).2.allocs := by
  simp only [vfsWrite]
  split
  · exact Nat.le_refl _
  · split
    · split
      · exact Nat.le_succ _
      · exact Nat.le_succ _
    · exact Nat.le_refl _

/-- A write changes one node only. -/
theorem vfsWrite_node (s : Vfs) (hq : q ≠ p) (buf : List UInt8) (offset : Nat) :
    (vfsWrite s (some q) buf offset).2.node p = s.node p := by
  simp only [vfsWrite]
  split
  · rfl
  · split
    · split
      · rw [Vfs.set_node, if_neg hq.symm]
        rfl
      · rfl
    · rw [Vfs.set_node, if_neg hq.symm]

/-- A write to another file. -/
theorem Vfs.FileIs.write_other (h : s.FileIs p content) (hq : q ≠ p) :
    (vfsWrite s (some q) buf offset).2.FileIs p content :=
  h.of_stored (vfsWrite_allocs s q buf offset) (by rw [vfsWrite_node s hq])

theorem Vfs.Filed.write (h : s.Filed) (hfile : s.FileIs p content)
    (hbound : offset + buf.length < 2 ^ 64) : (vfsWrite s (some p) buf offset).2.Filed := by
  have hallocs := vfsWrite_allocs s p buf offset
  constructor
  · intro m _
    by_cases hp : p = .heap m
    · rw [← hp]
      rcases hfile.write hbound with ⟨-, hnew⟩ | ⟨-, hnew⟩
      · rw [hnew.size, hnew.data]
      · rw [hnew.size, hnew.data]
    · rw [vfsWrite_node s hp]
      rcases Nat.lt_or_ge m s.allocs with hlt | hge
      · exact h.sized m hlt
      · rw [(h.empty m hge).1, (h.empty m hge).2]
        rfl
  · intro m hm
    have hge := Nat.le_trans hallocs hm
    obtain ⟨n, hn, hp⟩ := hfile.heap
    have hne : p ≠ .heap m := by
      rw [hp]
      exact fun heq => absurd (NodePtr.heap.inj heq) (by omega)
    rw [vfsWrite_node s hne]
    exact h.empty m hge

end Files

/-- A file system with the empty file `/f`. -/
def oneFile : Vfs := (vfsCreateFile (vfsInit (Vfs.blank fun _ => true)) (ascii "/f")).2

theorem oneFile_filed : oneFile.Filed :=
  ((Vfs.blank_filed _).stores (vfsInit_stores _)).stores (vfsCreateFile_stores _ _)

theorem oneFile_fileIs : oneFile.FileIs (.heap 1) [] := ⟨⟨1, by decide, rfl⟩, rfl, rfl, rfl⟩

end Mmix.Fs
