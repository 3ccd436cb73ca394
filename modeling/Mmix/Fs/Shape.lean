import Mmix.Fs.Initrd
import Mmix.Lib.Run

/-!
# Which nodes have children

The routines that build the tree take whatever node already has the wanted
name for a directory. Runs in which no creation passes through a regular file
or a device keep the children below directories and procfs nodes; a run that
creates `/f` and then `/f/g` does not.
-/

namespace Mmix.Fs

open Split

variable {live : Nat → Bool} {s s' t : Vfs} {p f n root : NodePtr} {node : VfsNode} {name c : CStr}
  {cs ds : List CStr}

/-- Regular files and devices. -/
def VfsType.IsLeaf (type : VfsType) : Prop := type = .file ∨ type = .chardev

instance (type : VfsType) : Decidable type.IsLeaf := inferInstanceAs (Decidable (_ ∨ _))

/-- Only directories have children, and a child's parent is the node whose
chain holds it. -/
def Vfs.Proper (s : Vfs) : Prop :=
  (∀ p, (s.node p).type.IsLeaf → (s.node p).children = []) ∧
    ∀ p, ∀ c ∈ (s.node p).children, (s.node c).parent = some p

/-- A tree below a directory in which leaves have no children. -/
structure Vfs.Shaped (s : Vfs) : Prop extends s.Linked where
  childless : ∀ p, (s.node p).type.IsLeaf → (s.node p).children = []
  rootDir : ∀ r, s.root = some r → (s.node r).type = .directory

theorem Vfs.Shaped.proper (hs : s.Shaped) : s.Proper := ⟨hs.childless, hs.parent⟩

/-! ### Single changes -/

theorem Vfs.Shaped.insert (hs : s.Shaped) (h : s.Hands t f) (hp : s.Born p)
    (hleaf : ¬ (s.node p).type.IsLeaf) (hnode : node.children = [])
    (hlinked : ((t.set f node).link p f).Linked) : ((t.set f node).link p f).Shaped where
  toLinked := hlinked
  childless := by
    intro x hx
    rw [h.children_insert hp hnode]
    rw [h.node_insert hp] at hx
    split
    · next he =>
      rw [if_pos he] at hx
      exact absurd hx hleaf
    · next hxp =>
      split
      · rfl
      · next hxf =>
        rw [if_neg hxp, if_neg hxf] at hx
        exact hs.childless x hx
  rootDir := by
    intro r hr
    have hr' : s.root = some r := h.root ▸ hr
    rw [h.node_insert_of_born hp (hs.root r hr').1]
    exact hs.rootDir r hr'

theorem Vfs.Shaped.added (hs : s.Shaped) (hp : s.Born p) (hleaf : ¬ (s.node p).type.IsLeaf)
    (hnode : node.children = []) (hload : node.payload = 0) : (s.added p node).Shaped :=
  hs.insert s.hands_heap hp hleaf hnode (hs.toLinked.added hp hnode hload)

theorem Vfs.Shaped.asked (hs : s.Shaped) : s.asked.Shaped where
  toLinked := hs.toLinked.asked
  childless := hs.childless
  rootDir := hs.rootDir

/-- A fresh node that is not linked in. -/
theorem Vfs.Shaped.set (hs : s.Shaped) (h : s.Hands t f) (hnode : node.children = [])
    (hload : ∀ k, f = .heap k → node.payload = 0) : (t.set f node).Shaped where
  toLinked := h.set_linked hs.toLinked hnode hload
  childless := by
    intro x hx
    rw [Vfs.set_node, h.node] at hx ⊢
    split
    · exact hnode
    · next hne => exact hs.childless x (by rwa [if_neg hne] at hx)
  rootDir := by
    intro r hr
    have hr' : s.root = some r := h.root ▸ hr
    rw [Vfs.set_node, if_neg (h.ne (hs.root r hr').1), h.node]
    exact hs.rootDir r hr'

theorem Vfs.Finds.shaped {r : Option NodePtr} (h : s.Finds live p c r s') (hs : s.Shaped)
    (hp : s.Born p) : s'.Shaped := by
  have hlinked := (h.linked hs.toLinked hp).1
  cases h with
  | search => exact hs
  | status => exact hs
  | fails => exact hs
  | process htype =>
    exact hs.insert s.hands_pool hp (by simp [htype, VfsType.IsLeaf]) rfl hlinked
  | cmdline htype hof =>
    have htypes := Vfs.renamed_field VfsNode.type (fun _ _ _ => rfl) s p
    have hkids := Vfs.renamed_field VfsNode.children (fun _ _ _ => rfl) s p
    exact {
      toLinked := hlinked
      childless := fun x hx => (hkids x).trans (hs.childless x (htypes x ▸ hx))
      rootDir := fun r hr => (htypes r).trans (hs.rootDir r hr) }

theorem Vfs.Finds.root_eq {r : Option NodePtr} (h : s.Finds live p c r s') : s'.root = s.root := by
  cases h <;> rfl

/-! ### Lookup and creation -/

theorem walk_shaped (hs : s.Shaped) (hp : s.Born p) (cs : List CStr) :
    (walk live s p cs).2.Shaped ∧ (walk live s p cs).2.root = s.root := by
  induction cs generalizing s p with
  | nil => exact ⟨hs, rfl⟩
  | cons c cs ih =>
    have hfinds := resolveStep_finds live s p c
    rw [walk]
    generalize resolveStep live s p c = r at hfinds
    obtain ⟨found, s'⟩ := r
    have hs' := hfinds.shaped hs hp
    cases found with
    | none => exact ⟨hs', hfinds.root_eq⟩
    | some m =>
      obtain ⟨hlast, hroot⟩ := ih hs' ((hfinds.linked hs.toLinked hp).2 m rfl)
      exact ⟨hlast, hroot.trans hfinds.root_eq⟩

theorem vfsResolve_shaped (hs : s.Shaped) (path : CStr) :
    (vfsResolve live s path).2.Shaped ∧ (vfsResolve live s path).2.root = s.root := by
  cases hroot : s.root with
  | none => simp [vfsResolve, hroot, hs]
  | some root =>
    by_cases habs : path.head? = some slash
    · rw [vfsResolve_eq_walk hroot habs, ← hroot]
      exact walk_shaped hs (hs.root root hroot).1 _
    · simp [vfsResolve, hroot, habs, hs]

/-- The result of a creating function: a tree of the right shape and, if there
is one, a node below which further names may be created. -/
structure Vfs.Makes (s : Vfs) (ds : List CStr) (r : Option NodePtr × Vfs) : Prop where
  shaped : r.2.Shaped
  root : r.2.root = s.root
  born : ∀ n, r.1 = some n → r.2.Born n
  avoids : ∀ n, r.1 = some n → r.2.Avoids VfsType.IsLeaf n ds

theorem Vfs.Makes.fail (ht : t.Shaped) (hroot : t.root = s.root) : s.Makes ds (none, t) where
  shaped := ht
  root := hroot
  born := fun _ h => nomatch h
  avoids := fun _ h => nomatch h

theorem createChild_makes (hs : s.Shaped) (hp : s.Born p) (hleaf : ¬ (s.node p).type.IsLeaf)
    (name : CStr) (type : VfsType) (hds : type.IsLeaf → ds = []) :
    s.Makes ds (createChild s p name type) := by
  obtain hfail | hmade := createChild_cases s p name type
  · rw [hfail]
    exact .fail hs.asked rfl
  · rw [hmade]
    have hnode : (s.added p (newNode name type)).node (.heap s.allocs) =
        { newNode name type with parent := some p } := by
      rw [Vfs.added, s.hands_heap.node_insert hp, if_neg (s.hands_heap.ne hp).symm, if_pos rfl]
    refine ⟨hs.added hp hleaf rfl rfl, rfl, fun n hn => ?_, fun n hn => ?_⟩
    · cases hn
      exact (s.hands_heap.born _).mpr (Or.inr rfl)
    · cases hn
      by_cases htype : type.IsLeaf
      · rw [hds htype]
        exact Vfs.avoids_nil
      · exact Vfs.avoids_of_leaf (by rw [hnode]; rfl) (by rw [hnode]; exact htype) ds

theorem getOrCreate_makes (hs : s.Shaped) (hp : s.Born p)
    (havoid : s.Avoids VfsType.IsLeaf p (name :: ds)) (type : VfsType)
    (hds : type.IsLeaf → ds = []) : s.Makes ds (getOrCreate s p name type) := by
  rw [getOrCreate]
  cases hc : s.childNamed p name with
  | none => exact createChild_makes hs hp havoid.here name type hds
  | some c =>
    refine ⟨hs, rfl, fun n hn => ?_, fun n hn => ?_⟩
    · cases hn
      exact hs.toLinked.born p c (Vfs.mem_of_childNamed hc).1
    · cases hn
      exact havoid.child hc

theorem ensure_makes (hs : s.Shaped) (hp : s.Born p)
    (havoid : s.Avoids VfsType.IsLeaf p (cs ++ ds)) : s.Makes ds (ensure s p cs) := by
  induction cs generalizing s p with
  | nil =>
    refine ⟨hs, rfl, fun n hn => ?_, fun n hn => ?_⟩
    · exact Option.some.inj hn ▸ hp
    · exact Option.some.inj hn ▸ havoid
  | cons c cs ih =>
    have hstep : s.Makes (cs ++ ds) (vfsGetOrCreateDir s p c) :=
      getOrCreate_makes hs hp havoid .directory (fun h => by simp [VfsType.IsLeaf] at h)
    rw [ensure]
    generalize vfsGetOrCreateDir s p c = r at hstep
    obtain ⟨found, t⟩ := r
    cases found with
    | none => exact .fail hstep.shaped hstep.root
    | some m =>
      have hrest := ih hstep.shaped (hstep.born m rfl) (hstep.avoids m rfl)
      exact { hrest with root := hrest.root.trans hstep.root }

theorem createIn_makes (hs : s.Shaped) (hroot : s.Born root)
    (havoid : s.Avoids VfsType.IsLeaf root (cs ++ [name])) :
    s.Makes [] (createIn s root cs name) := by
  have hdirs := ensure_makes hs hroot havoid
  rw [createIn]
  generalize ensure s root cs = r at hdirs
  obtain ⟨found, t⟩ := r
  cases found with
  | none => exact .fail hdirs.shaped hdirs.root
  | some parent =>
    have hfile : t.Makes [] (createFileIn t parent name) :=
      getOrCreate_makes hdirs.shaped (hdirs.born parent rfl) (hdirs.avoids parent rfl) .file
        (fun _ => rfl)
    exact { hfile with root := hfile.root.trans hdirs.root }

/-- The names `vfs_create_file` looks up or creates. -/
def creationNames (path : CStr) : List CStr :=
  match cutLast slash (path.take (vfsMaxPath - 1)) with
  | some (before, name) => components slash before ++ [name]
  | none => []

theorem vfsCreateFile_shaped (hs : s.Shaped) (path : CStr)
    (havoid : ∀ root, s.root = some root → s.Avoids VfsType.IsLeaf root (creationNames path)) :
    (vfsCreateFile s path).2.Shaped := by
  cases hroot : s.root with
  | none => simpa [vfsCreateFile, hroot] using hs
  | some root =>
    by_cases habs : path.head? = some slash
    · obtain ⟨before, name, hcut, hno, heq⟩ := vfsCreateFile_eq habs
      have hnames : creationNames path = components slash before ++ [name] := by
        rw [creationNames, hcut, cutLast_append_cons before hno]
      have := havoid root hroot
      rw [hnames] at this
      rw [heq s root hroot]
      exact (createIn_makes hs (hs.root root hroot).1 this).shaped
    · simpa [vfsCreateFile, hroot, habs] using hs

/-! ### Mounting -/

theorem vfsResolve_root (hroot : s.root = some root) :
    vfsResolve live s (ascii "/") = (some root, s) := by
  rw [vfsResolve, hroot]
  rfl

/-- `vfs_resolve` on a path of one component. -/
theorem vfsResolve_top (hs : s.Shaped) (hroot : s.root = some root) {path : CStr}
    (habs : path.head? = some slash) (hpath : components slash path = [c])
    (hlen : c.length ≤ vfsMaxName - 1) :
    vfsResolve live s path = (s.lookup root [c], s) := by
  have hscan : scanned path = [c] := by
    rw [← hpath]
    exact pieces_eq_components (by simpa [hpath] using hlen)
  rw [vfsResolve_eq_walk hroot habs, hscan]
  apply walk_eq_lookup
  exact Vfs.avoids_cons (by simp [hs.rootDir root hroot]) fun _ _ => Vfs.avoids_nil

theorem rootDir_not_leaf (hs : s.Shaped) (hroot : s.root = some root) :
    ¬ (s.node root).type.IsLeaf := by
  simp [hs.rootDir root hroot, VfsType.IsLeaf]

theorem vfsMountDev_shaped (hs : s.Shaped) (name : CStr)
    (havoid : ∀ root, s.root = some root →
      s.Avoids VfsType.IsLeaf root [ascii "dev", name]) :
    (vfsMountDev live s name).Shaped := by
  cases hroot : s.root with
  | none => simpa [vfsMountDev, vfsResolve, hroot] using hs
  | some root =>
    have hdev : vfsResolve live s (ascii "/dev") = (s.lookup root [ascii "dev"], s) :=
      vfsResolve_top hs hroot (by decide) (by decide) (by decide)
    have hborn := (hs.root root hroot).1
    rw [vfsMountDev, hdev]
    cases hlook : s.lookup root [ascii "dev"] with
    | some devdir =>
      have hc : s.childNamed root (ascii "dev") = some devdir := by
        obtain ⟨c, hc, hcd⟩ := Option.bind_eq_some_iff.mp hlook
        exact hc.trans hcd
      have hleaf := ((havoid root hroot).child hc).here
      have hdir := hs.toLinked.lookup_born hborn hlook
      exact (createChild_makes hs hdir hleaf name .chardev (fun _ => rfl)).shaped
    | none =>
      simp only [vfsResolve_root hroot]
      have hmake : s.Makes [name] (createChild s root (ascii "dev") .directory) :=
        createChild_makes hs hborn (rootDir_not_leaf hs hroot) _ _
          (fun h => by simp [VfsType.IsLeaf] at h)
      generalize createChild s root (ascii "dev") .directory = r at hmake
      obtain ⟨found, t⟩ := r
      cases found with
      | none => exact hmake.shaped
      | some devdir =>
        exact (createChild_makes hmake.shaped (hmake.born devdir rfl)
          (hmake.avoids devdir rfl).here name .chardev (fun _ => rfl)).shaped

/-- `make_node` below a procfs node. -/
theorem makeNode_shaped (hs : s.Shaped) (hp : s.Born p) (htype : (s.node p).type = .procfs)
    (name : CStr) (payload : Nat) :
    (makeNode s p name payload).2.Shaped ∧ (makeNode s p name payload).2.Born p ∧
      ((makeNode s p name payload).2.node p).type = .procfs := by
  rw [makeNode]
  split
  · exact ⟨hs, hp, htype⟩
  · refine ⟨?_, (s.hands_pool.born p).mpr (Or.inl hp), ?_⟩
    · exact hs.insert s.hands_pool hp (by simp [htype, VfsType.IsLeaf]) rfl
        (hs.toLinked.pooled hp htype name payload)
    · change ((Vfs.link _ _ _).node p).type = _
      rw [s.hands_pool.node_insert_of_born hp hp]
      exact htype

theorem vfsMountProcfs_shaped (hs : s.Shaped) : (vfsMountProcfs live s).Shaped := by
  cases hroot : s.root with
  | none => simpa [vfsMountProcfs, vfsResolve, hroot] using hs
  | some root =>
    have hborn := (hs.root root hroot).1
    rw [vfsMountProcfs, vfsResolve_root hroot]
    dsimp only
    obtain hfail | hmade := createChild_cases s root (ascii "proc") .procfs
    · rw [hfail]
      exact hs.asked
    · rw [hmade]
      have hnode : ((s.added root (newNode (ascii "proc") .procfs)).node
          (.heap s.allocs)).type = .procfs := by
        rw [Vfs.added, s.hands_heap.node_insert hborn, if_neg (s.hands_heap.ne hborn).symm,
          if_pos rfl]
        rfl
      have h₀ : (s.added root (newNode (ascii "proc") .procfs)).Shaped :=
        hs.added hborn (rootDir_not_leaf hs hroot) rfl rfl
      obtain ⟨h₁, hb₁, ht₁⟩ := makeNode_shaped h₀
        ((s.hands_heap.born _).mpr (Or.inr rfl)) hnode (ascii "meminfo") pfMeminfo
      obtain ⟨h₂, hb₂, ht₂⟩ := makeNode_shaped h₁ hb₁ ht₁ (ascii "uptime") pfUptime
      exact (makeNode_shaped h₂ hb₂ ht₂ (ascii "stat") pfStat).1

/-! ### Loading -/

/-- The names one header of the archive has created. -/
def entryNames (hdr : List UInt8) : List CStr :=
  let name := tarName hdr
  let path := name.take (vfsMaxPath - 1)
  if name = [] then []
  else if tarTypeflag hdr = 53 ∨ name.getLast? = some slash then
    components slash (if path.getLast? = some slash then path.dropLast else path)
  else if tarTypeflag hdr = 48 ∨ tarTypeflag hdr = 0 then
    components slash (splitPath path).1 ++ [(splitPath path).2]
  else []

theorem vfsEnsurePath_eq (s : Vfs) (p : NodePtr) (path : CStr) :
    vfsEnsurePath s p path = ensure s p (components slash path) :=
  ensureLoop_eq_ensure _ s p path (Nat.le_refl _)

theorem loadFile_shaped (hs : s.Shaped) (hp : s.Born p) (hleaf : ¬ (s.node p).type.IsLeaf)
    (filename : CStr) (fileSize : Nat) (dataStart : List UInt8) :
    (loadFile s p filename fileSize dataStart).Shaped ∧
      (loadFile s p filename fileSize dataStart).root = s.root := by
  have hleak : (s.leaked (newNode filename .file)).Shaped :=
    hs.set s.hands_heap rfl (fun _ _ => rfl)
  obtain hload | hload := loadFile_cases s p filename fileSize dataStart
  · rw [hload]
    exact ⟨(hs.added hp hleaf rfl rfl).asked, rfl⟩
  · simp only [List.mem_cons, List.not_mem_nil, or_false] at hload
    rcases hload with hload | hload | hload <;> rw [hload]
    · exact ⟨hs.asked, rfl⟩
    · exact ⟨hleak, rfl⟩
    · exact ⟨hleak.asked, rfl⟩

theorem loadEntry_shaped (hs : s.Shaped) (hroot : s.Born root) (hdr : List UInt8)
    (havoid : s.Avoids VfsType.IsLeaf root (entryNames hdr)) :
    (loadEntry s root hdr).2.Shaped ∧ (loadEntry s root hdr).2.root = s.root := by
  rw [entryNames] at havoid
  rw [loadEntry]
  split
  · exact ⟨hs, rfl⟩
  · next hname =>
    rw [if_neg hname] at havoid
    split
    · next hdir =>
      rw [if_pos hdir] at havoid
      rw [vfsEnsurePath_eq]
      rw [← List.append_nil (components slash _)] at havoid
      have hmake := ensure_makes hs hroot havoid
      generalize ensure s root _ = r at hmake
      obtain ⟨found, t⟩ := r
      cases found with
      | none => exact ⟨hmake.shaped, hmake.root⟩
      | some m => exact ⟨hmake.shaped, hmake.root⟩
    · next hdir =>
      rw [if_neg hdir] at havoid
      split
      · next hfile =>
        rw [if_pos hfile] at havoid
        rw [vfsEnsurePath_eq]
        have hmake := ensure_makes hs hroot havoid
        generalize ensure s root _ = r at hmake
        obtain ⟨found, t⟩ := r
        cases found with
        | none => exact ⟨hmake.shaped, hmake.root⟩
        | some parent =>
          obtain ⟨hload, hsame⟩ := loadFile_shaped hmake.shaped (hmake.born parent rfl)
            (hmake.avoids parent rfl).here (splitPath ((tarName hdr).take (vfsMaxPath - 1))).2
            (tarSize hdr) (hdr.drop tarBlock)
          exact ⟨hload, hsame.trans hmake.root⟩
      · exact ⟨hs, rfl⟩

/-- No header of the archive creates something inside a file or a device that
is in the tree when its turn comes. -/
def LoadsClear : Nat → Vfs → NodePtr → List UInt8 → Prop
  | 0, _, _, _ => True
  | passes + 1, s, root, ptr =>
    (ptr.length < tarBlock ∨ ptr.head? = some 0) ∨
      s.Avoids VfsType.IsLeaf root (entryNames ptr) ∧
        LoadsClear passes (loadEntry s root ptr).2 root (ptr.drop (tarAdvance (tarSize ptr)))

theorem loadLoop_shaped (passes : Nat) (hs : s.Shaped) (hroot : s.root = some root)
    (ptr : List UInt8) (hclear : LoadsClear passes s root ptr) :
    (loadLoop passes s root ptr).2.Shaped := by
  induction passes generalizing s ptr with
  | zero => exact hs
  | succ passes ih =>
    rw [loadLoop]
    split
    · exact hs
    · next hgo =>
      obtain ⟨havoid, hrest⟩ := hclear.resolve_left hgo
      obtain ⟨hs', hroot'⟩ := loadEntry_shaped hs (hs.root root hroot).1 ptr havoid
      generalize loadEntry s root ptr = r at hs' hroot' hrest
      obtain ⟨ok, t⟩ := r
      cases ok with
      | false => exact hs'
      | true => exact ih hs' (hroot'.trans hroot) _ hrest

theorem vfsInit_shaped (hs : s.Shaped) : (vfsInit s).Shaped := by
  have hlinked := vfsInit_linked hs.toLinked
  rw [vfsInit, vfsCreateNode] at hlinked ⊢
  by_cases hg : s.grants s.allocs
  · rw [if_pos hg] at hlinked ⊢
    have hset : (s.asked.set (.heap s.allocs) (newNode [slash] .directory)).Shaped :=
      hs.set s.hands_heap rfl (fun _ _ => rfl)
    refine { toLinked := hlinked, childless := hset.childless, rootDir := fun r hr => ?_ }
    cases hr
    change (Vfs.node (Vfs.set _ _ _) _).type = _
    rw [Vfs.set_node, if_pos rfl]
  · rw [if_neg hg] at hlinked ⊢
    exact { toLinked := hlinked, childless := hs.childless, rootDir := fun r hr => by cases hr }

/-- The calls that change the tree. A call that looks up a path sees the
processes that are `live`. -/
inductive VfsCall where
  | loadInitrd (archive : List UInt8)
  | mountDev (live : Nat → Bool) (name : CStr)
  | mountProcfs (live : Nat → Bool)
  | sysOpen (live : Nat → Bool) (path : CStr) (create : Bool)

/-- The tree after a call. -/
def Vfs.call (s : Vfs) : VfsCall → Option Vfs
  | .loadInitrd archive => some (vfsLoadInitrd s archive).2
  | .mountDev live name => some (vfsMountDev live s name)
  | .mountProcfs live => some (vfsMountProcfs live s)
  | .sysOpen live path create => some (sysOpenNode live s path create).2

/-- Whatever the call creates, it does not go through a regular file or a
device to get there. -/
def Vfs.ClearCall (s : Vfs) : VfsCall → Prop
  | .loadInitrd archive =>
    let s := if s.root = none then vfsInit s else s
    ∀ root, s.root = some root → LoadsClear archive.length s root archive
  | .mountDev _ name =>
    ∀ root, s.root = some root → s.Avoids VfsType.IsLeaf root [ascii "dev", name]
  | .mountProcfs _ => True
  | .sysOpen live path create =>
    create → ∀ root, s.root = some root →
      (vfsResolve live s path).2.Avoids VfsType.IsLeaf root (creationNames path)

theorem openCheck_snd (r : Option NodePtr × Vfs) : (openCheck r).2 = r.2 := by
  obtain ⟨found, t⟩ := r
  cases found with
  | none => rfl
  | some n =>
    rw [openCheck]
    split
    · rfl
    · rfl

theorem sysOpenNode_shaped (hs : s.Shaped) (path : CStr) (create : Bool)
    (havoid : create → ∀ root, s.root = some root →
      (vfsResolve live s path).2.Avoids VfsType.IsLeaf root (creationNames path)) :
    (sysOpenNode live s path create).2.Shaped := by
  obtain ⟨hres, hroot⟩ := vfsResolve_shaped hs path
  rw [sysOpenNode, openCheck_snd]
  split
  · next hcreate =>
    apply vfsCreateFile_shaped hres path
    intro root hr
    exact havoid hcreate.1 root (hroot.symm.trans hr)
  · exact hres

theorem Vfs.Shaped.call (hs : s.Shaped) {e : VfsCall} (hclear : s.ClearCall e)
    (h : s.call e = some s') : s'.Shaped := by
  cases e with
  | loadInitrd archive =>
    cases h
    have hs' : (if s.root = none then vfsInit s else s).Shaped := by
      split
      · exact vfsInit_shaped hs
      · exact hs
    have hclear' : ∀ root, (if s.root = none then vfsInit s else s).root = some root →
        LoadsClear archive.length (if s.root = none then vfsInit s else s) root archive := hclear
    rw [vfsLoadInitrd]
    generalize (if s.root = none then vfsInit s else s) = t at hs' hclear'
    cases hroot : t.root with
    | none => exact hs'
    | some root => exact loadLoop_shaped _ hs' hroot archive (hclear' root hroot)
  | mountDev live name =>
    cases h
    exact vfsMountDev_shaped hs name hclear
  | mountProcfs live =>
    cases h
    exact vfsMountProcfs_shaped hs
  | sysOpen live path create =>
    cases h
    exact sysOpenNode_shaped hs path create hclear

theorem Vfs.blank_shaped (grants : Nat → Bool) : (Vfs.blank grants).Shaped where
  toLinked := Vfs.blank_linked grants
  childless := fun _ _ => rfl
  rootDir := fun _ hr => nomatch hr

/-- In a run whose creations pass through directories and procfs only, files
and devices never have children. -/
theorem only_directories_have_children (grants : Nat → Bool) (calls : List VfsCall) (s : Vfs)
    (hclear : Run.Along Vfs.call Vfs.ClearCall (vfsInit (Vfs.blank grants)) calls)
    (hrun : Run.run Vfs.call (vfsInit (Vfs.blank grants)) calls = some s) : s.Proper := by
  have hs : s.Shaped :=
    Run.invariant_along (fun _ _ _ h hc hstep => Vfs.Shaped.call h hc hstep)
      (vfsInit_shaped (Vfs.blank_shaped grants)) hclear hrun
  exact hs.proper

/-- The tree after creating a file and then procfs. -/
def fileThenProc : Vfs :=
  vfsMountProcfs (fun _ => false) (sysOpenNode (fun _ => false) freshVfs (ascii "/a/b") true).2

theorem only_directories_have_children_fileThenProc : fileThenProc.Proper := by
  refine only_directories_have_children (fun _ => true)
    [.sysOpen (fun _ => false) (ascii "/a/b") true, .mountProcfs fun _ => false] fileThenProc
    ⟨fun _ root hr => ?_, fun _ _ => ⟨trivial, fun _ _ => trivial⟩⟩ rfl
  have hres : (vfsResolve (fun _ => false) freshVfs (ascii "/a/b")).2 = freshVfs := rfl
  cases hr
  change ((vfsResolve (fun _ => false) freshVfs (ascii "/a/b")).2).Avoids _ _ _
  rw [hres]
  exact Vfs.avoids_of_leaf (freshVfs_children _) (by decide) _

/-- Opening `/f` and then `/f/g` with `O_CREATE` puts a child below a regular
file. -/
theorem sysOpen_child_of_file :
    ∃ s, Run.run Vfs.call (vfsInit (Vfs.blank fun _ => true))
        [.sysOpen (fun _ => false) (ascii "/f") true,
          .sysOpen (fun _ => false) (ascii "/f/g") true] = some s ∧
      (s.node (.heap 1)).type = .file ∧ (s.node (.heap 1)).children = [.heap 2] ∧
      ¬ s.Proper := by
  have htype : (((sysOpenNode (fun _ => false) (sysOpenNode (fun _ => false) freshVfs (ascii "/f")
      true).2 (ascii "/f/g") true).2).node (.heap 1)).type = .file := by decide
  have hkids : (((sysOpenNode (fun _ => false) (sysOpenNode (fun _ => false) freshVfs (ascii "/f")
      true).2 (ascii "/f/g") true).2).node (.heap 1)).children = [.heap 2] := by decide
  refine ⟨_, rfl, htype, hkids, fun h => ?_⟩
  exact absurd (hkids.symm.trans (h.1 (.heap 1) (Or.inl htype))) (by decide)

end Mmix.Fs
