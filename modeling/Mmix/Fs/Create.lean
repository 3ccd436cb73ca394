import Mmix.Fs.Procfs

/-!
# Creating files

`vfs_create_file` cuts its path at the last separator and `vfs_ensure_path` the
part before it at every separator, while `vfs_resolve` scans with a bounded
buffer. Both come down to the components of the path. Creation adds nodes
under names that were free, so what was found before is still found.
-/

namespace Mmix.Fs

open Split List

variable {live : Nat → Bool} {s s' t : Vfs} {p root n m : NodePtr} {name path : CStr}
  {cs : List CStr}

/-! ### The functions on components -/

/-- `vfs_ensure_path` on the components already cut. -/
def ensure : Vfs → NodePtr → List CStr → Option NodePtr × Vfs
  | s, current, [] => (some current, s)
  | s, current, c :: cs =>
    match vfsGetOrCreateDir s current c with
    | (none, s) => (none, s)
    | (some found, s) => ensure s found cs

theorem ensureToken_eq_ensure {token : CStr} (htoken : slash ∉ token) (s : Vfs) (p : NodePtr) :
    ensureToken s p token = ensure s p (components slash token) := by
  rw [components_of_notMem htoken, ensureToken]
  by_cases h : token = []
  · rw [if_pos h, if_pos h]
    rfl
  · rw [if_neg h, if_neg h, ensure]
    split
    · next h => exact h
    · next h => exact h

theorem ensure_append (s : Vfs) (p : NodePtr) (cs ds : List CStr) :
    ensure s p (cs ++ ds) =
      match ensure s p cs with
      | (none, s) => (none, s)
      | (some found, s) => ensure s found ds := by
  induction cs generalizing s p with
  | nil => rfl
  | cons c cs ih =>
    rw [cons_append, ensure, ensure]
    cases vfsGetOrCreateDir s p c with
    | mk found s' =>
      cases found with
      | none => rfl
      | some m => exact ih s' m

theorem ensureLoop_eq_ensure (passes : Nat) (s : Vfs) (p : NodePtr) (token : CStr)
    (hlen : token.length ≤ passes) :
    ensureLoop passes s p token = ensure s p (components slash token) := by
  induction passes generalizing s p token with
  | zero =>
    obtain rfl := eq_nil_of_length_eq_zero (Nat.le_zero.mp hlen)
    rfl
  | succ passes ih =>
    rw [ensureLoop]
    cases hcut : cut slash token with
    | none => exact ensureToken_eq_ensure (cut_eq_none.mp hcut) s p
    | some r =>
      obtain ⟨name, rest⟩ := r
      obtain ⟨rfl, hno⟩ := cut_eq_some.mp hcut
      have hrest : rest.length ≤ passes := by
        simp only [length_append, length_cons] at hlen
        omega
      simp only [components_append_cons, ensure_append, ensureToken_eq_ensure hno]
      cases ensure s p (components slash name) with
      | mk found s' =>
        cases found with
        | none => rfl
        | some m => exact ih s' m rest hrest

/-- `vfs_create_file` on a path already cut at its last separator. -/
def createIn (s : Vfs) (root : NodePtr) (dirs : List CStr) (name : CStr) : Option NodePtr × Vfs :=
  match ensure s root dirs with
  | (none, s) => (none, s)
  | (some parent, s) => createFileIn s parent name

/-- How `vfs_create_file` cuts an absolute path. -/
theorem vfsCreateFile_eq (habs : path.head? = some slash) :
    ∃ before name, path.take (vfsMaxPath - 1) = before ++ slash :: name ∧ slash ∉ name ∧
      ∀ s root, s.root = some root →
        vfsCreateFile s path = createIn s root (components slash before) name := by
  cases hlast : cutLast slash (path.take (vfsMaxPath - 1)) with
  | none =>
    refine absurd ?_ (cutLast_eq_none.mp hlast)
    apply mem_of_mem_head?
    rw [head?_take]
    simpa using habs
  | some r =>
    obtain ⟨before, name⟩ := r
    obtain ⟨hcut, hname⟩ := cutLast_eq_some hlast
    refine ⟨before, name, hcut, hname, fun s root hroot => ?_⟩
    simp only [vfsCreateFile, hroot, if_pos habs, hlast]
    cases before with
    | nil => rfl
    | cons ch rest =>
      have hch : ch = slash := by
        have hhead := congrArg head? hcut
        rw [head?_take] at hhead
        simpa [habs] using hhead.symm
      have hens : vfsEnsurePath s root ((ch :: rest).drop 1) =
          ensure s root (components slash (ch :: rest)) := by
        rw [hch, components_cons_self]
        exact ensureLoop_eq_ensure _ s root rest (Nat.le_refl _)
      simp only [if_neg (cons_ne_nil ch rest), hens]
      rfl

/-! ### What creation keeps -/

/-- The tree with a fresh node linked in. -/
def Vfs.added (s : Vfs) (p : NodePtr) (node : VfsNode) : Vfs :=
  (s.asked.set (.heap s.allocs) node).link p (.heap s.allocs)

/-- The node `vfs_create_node` makes. -/
def newNode (name : CStr) (type : VfsType) : VfsNode :=
  { name := name.take (vfsMaxName - 1), type := type }

theorem createChild_cases (s : Vfs) (p : NodePtr) (name : CStr) (type : VfsType) :
    createChild s p name type = (none, s.asked) ∨
      createChild s p name type = (some (.heap s.allocs), s.added p (newNode name type)) := by
  rw [createChild, vfsCreateNode]
  by_cases hg : s.grants s.allocs
  · right
    rw [if_pos hg]
    rfl
  · left
    rw [if_neg hg]
    rfl

/-- A name that was free hides nothing. -/
theorem Vfs.Linked.kept_added (hs : s.Linked) (hp : s.Born p) {node : VfsNode}
    (hnode : node.children = []) (hfree : s.childNamed p node.name = none)
    (htype : (s.node p).type ≠ .procfs) : s.Kept (s.added p node) where
  born := fun x hx => (s.hands_heap.born x).mpr (Or.inl hx)
  root := rfl
  pool := rfl
  node := fun x hx => s.hands_heap.node_insert_of_born hp hx
  procfs := by
    intro x hx hproc
    have hxp : x ≠ p := fun he => htype (he ▸ hproc)
    rw [Vfs.added, s.hands_heap.children_insert hp hnode, if_neg hxp,
      if_neg (s.hands_heap.ne hx)]
  found := by
    intro x name m hx hm
    rw [Vfs.added, s.hands_heap.childNamed_insert hs hp hnode hx, if_neg]
    · exact hm
    · rintro ⟨rfl, rfl⟩
      rw [hfree] at hm
      cases hm

theorem Vfs.Linked.added (hs : s.Linked) (hp : s.Born p) {node : VfsNode}
    (hnode : node.children = []) (hload : node.payload = 0) : (s.added p node).Linked :=
  s.hands_heap.linked hs hp hnode (fun _ _ => hload) (fun _ h => nomatch h)

theorem Vfs.Distinct.added (hd : s.Distinct) (hs : s.Linked) (hp : s.Born p) {node : VfsNode}
    (hnode : node.children = []) (hfree : s.childNamed p node.name = none) :
    (s.added p node).Distinct := by
  have hnames : ∀ x, ((s.node x).children.map fun c => ((s.added p node).node c).name) =
      (s.node x).children.map fun c => (s.node c).name := by
    intro x
    apply map_congr_left
    intro c hc
    rw [Vfs.added, s.hands_heap.node_insert_of_born hp (hs.born x c hc)]
  intro x
  rw [Vfs.added, s.hands_heap.children_insert hp hnode]
  split
  · have hf : ((s.added p node).node (.heap s.allocs)).name = node.name := by
      rw [Vfs.added, s.hands_heap.node_insert hp, if_neg (s.hands_heap.ne hp).symm, if_pos rfl]
    change (map (fun c => ((s.added p node).node c).name) _).Nodup
    rw [map_cons, hnames, hf, nodup_cons]
    refine ⟨?_, hd p⟩
    rintro hmem
    obtain ⟨c, hc, hname⟩ := mem_map.mp hmem
    exact Vfs.childNamed_eq_none.mp hfree c hc hname
  · split
    · exact nodup_nil
    · change (map (fun c => ((s.added p node).node c).name) _).Nodup
      rw [hnames]
      exact hd x

/-- The common shape of `vfs_get_or_create_dir` and the end of
`vfs_create_file`. -/
def getOrCreate (s : Vfs) (p : NodePtr) (name : CStr) (type : VfsType) : Option NodePtr × Vfs :=
  match s.childNamed p name with
  | some c => (some c, s)
  | none => createChild s p name type

theorem vfsGetOrCreateDir_eq (s : Vfs) (p : NodePtr) (name : CStr) :
    vfsGetOrCreateDir s p name = getOrCreate s p name .directory := rfl

/-- The names lead from `p` to `n` in `s'`, a tree in which all that `s` has is
still found. -/
structure Vfs.Gives (s : Vfs) (p : NodePtr) (cs : List CStr) (n : NodePtr) (s' : Vfs) :
    Prop where
  linked : s'.Linked
  distinct : s'.Distinct
  kept : s.Kept s'
  found : s'.lookup p cs = some n
  outside : s'.OutsideProc p cs

theorem getOrCreate_gives (hs : s.Linked) (hd : s.Distinct) (hp : s.Born p)
    (hproc : (s.node p).type ≠ .procfs) (hname : name.length ≤ vfsMaxName - 1)
    {type : VfsType} (h : getOrCreate s p name type = (some n, s')) :
    s.Gives p [name] n s' ∧
      (s.childNamed p name = some n ∧ s' = s ∨
        (s'.node n).type = type ∧ (s'.node n).children = []) := by
  rw [getOrCreate] at h
  cases hc : s.childNamed p name with
  | some c =>
    rw [hc] at h
    obtain ⟨hcn, rfl⟩ := Prod.mk.inj h
    have hfound : s.lookup p [name] = some n := by
      rw [Vfs.lookup_cons, hc, hcn]
      rfl
    exact ⟨⟨hs, hd, .refl s, hfound, Vfs.avoids_cons hproc fun _ _ => Vfs.avoids_nil⟩,
      Or.inl ⟨hcn, rfl⟩⟩
  | none =>
    rw [hc] at h
    obtain hfail | hmade := createChild_cases s p name type
    · rw [hfail] at h
      cases h
    · rw [hmade] at h
      obtain ⟨hn, rfl⟩ := Prod.mk.inj h
      cases hn
      have hnew : (newNode name type).name = name := take_of_length_le hname
      have hfree : s.childNamed p (newNode name type).name = none := by rw [hnew, hc]
      have hfound : (s.added p (newNode name type)).childNamed p name = some (.heap s.allocs) := by
        rw [Vfs.added, s.hands_heap.childNamed_insert hs hp rfl hp, if_pos ⟨rfl, hnew⟩]
      have hnode : (s.added p (newNode name type)).node (.heap s.allocs) =
          { newNode name type with parent := some p } := by
        rw [Vfs.added, s.hands_heap.node_insert hp, if_neg (s.hands_heap.ne hp).symm, if_pos rfl]
      have hkept : s.Kept (s.added p (newNode name type)) :=
        hs.kept_added hp rfl hfree hproc
      refine ⟨⟨hs.added hp rfl rfl, hd.added hs hp rfl hfree, hkept, ?_, ?_⟩,
        Or.inr ⟨by rw [hnode]; rfl, by rw [hnode]; rfl⟩⟩
      · rw [Vfs.lookup_cons, hfound]
        rfl
      · exact Vfs.avoids_cons ((hkept.type hp).trans_ne hproc) fun _ _ => Vfs.avoids_nil

/-- A node without children leads nowhere. -/
theorem Vfs.avoids_of_leaf {bad : VfsType → Prop} (hkids : (s.node p).children = [])
    (htype : ¬ bad (s.node p).type) (cs : List CStr) : s.Avoids bad p cs := by
  cases cs with
  | nil => exact Vfs.avoids_nil
  | cons c cs =>
    refine Vfs.avoids_cons htype fun x hx => ?_
    obtain ⟨hmem, _⟩ := Vfs.mem_of_childNamed hx
    rw [hkids] at hmem
    cases hmem

theorem Vfs.Gives.trans {u : Vfs} {ds : List CStr} (h : s.Gives p cs n t) (h' : t.Gives n ds m u)
    (hp : t.Born p) : s.Gives p (cs ++ ds) m u where
  linked := h'.linked
  distinct := h'.distinct
  kept := h.kept.trans h'.kept
  found := by
    rw [Vfs.lookup_append, h'.kept.lookup h.linked hp h.found]
    exact h'.found
  outside := (h'.kept.avoids h.linked hp h.found h.outside).append
    (h'.kept.lookup h.linked hp h.found) h'.outside

theorem ensure_gives (hs : s.Linked) (hd : s.Distinct) (hp : s.Born p)
    (hlen : ∀ c ∈ cs, c.length ≤ vfsMaxName - 1) (hproc : s.OutsideProc p (cs ++ [name]))
    (h : ensure s p cs = (some n, s')) :
    s.Gives p cs n s' ∧ s'.OutsideProc n [name] := by
  induction cs generalizing s p with
  | nil =>
    obtain ⟨hn, rfl⟩ := Prod.mk.inj h
    cases hn
    exact ⟨⟨hs, hd, .refl s, rfl, Vfs.avoids_nil⟩, hproc⟩
  | cons c cs ih =>
    rw [ensure, vfsGetOrCreateDir_eq] at h
    cases hstep : getOrCreate s p c .directory with
    | mk found t =>
      rw [hstep] at h
      cases found with
      | none => cases h
      | some m =>
        obtain ⟨hgive, hnew⟩ := getOrCreate_gives hs hd hp hproc.here
          (hlen c mem_cons_self) hstep
        have hpt : t.Born p := hgive.kept.born p hp
        have hout : t.OutsideProc m (cs ++ [name]) := by
          rcases hnew with ⟨hc, rfl⟩ | ⟨htype, hkids⟩
          · exact hproc.child hc
          · exact Vfs.avoids_of_leaf hkids (by simp [htype]) _
        obtain ⟨hrest, hlast⟩ := ih hgive.linked hgive.distinct
          (hgive.linked.lookup_born hpt hgive.found)
          (fun d hd => hlen d (mem_cons_of_mem c hd)) hout h
        exact ⟨hgive.trans hrest hpt, hlast⟩

/-- On names that are all there `vfs_ensure_path` does nothing. -/
theorem ensure_of_lookup (h : s.lookup p cs = some n) : ensure s p cs = (some n, s) := by
  induction cs generalizing p with
  | nil =>
    cases h
    rfl
  | cons c cs ih =>
    obtain ⟨m, hm, hrest⟩ := Option.bind_eq_some_iff.mp h
    simp only [ensure, vfsGetOrCreateDir, hm]
    exact ih hrest

theorem createIn_gives (hs : s.Linked) (hd : s.Distinct) (hroot : s.Born root)
    (hlen : ∀ c ∈ cs ++ [name], c.length ≤ vfsMaxName - 1)
    (hproc : s.OutsideProc root (cs ++ [name])) (h : createIn s root cs name = (some n, s')) :
    s.Gives root (cs ++ [name]) n s' := by
  rw [createIn] at h
  cases hens : ensure s root cs with
  | mk found t =>
    rw [hens] at h
    cases found with
    | none => cases h
    | some parent =>
      obtain ⟨hdirs, hout⟩ := ensure_gives hs hd hroot
        (fun c hc => hlen c (mem_append_left _ hc)) hproc hens
      have hrt : t.Born root := hdirs.kept.born root hroot
      obtain ⟨hfile, _⟩ := getOrCreate_gives hdirs.linked hdirs.distinct
        (hdirs.linked.lookup_born hrt hdirs.found) hout.here
        (hlen name (mem_append_right _ (mem_singleton_self name))) h
      exact hdirs.trans hfile hrt

/-- Creating and resolving a path agree, and creation takes nothing away. -/
theorem vfsCreateFile_agrees (live : Nat → Bool) (s s' : Vfs) (root n : NodePtr) (path : CStr)
    (hroot : s.root = some root) (hs : s.Linked) (hd : s.Distinct)
    (habs : path.head? = some slash) (hlen : path.length ≤ vfsMaxPath - 1)
    (hlast : path.getLast? ≠ some slash)
    (hcomp : ∀ c ∈ components slash path, c.length ≤ vfsMaxName - 1)
    (hproc : s.OutsideProc root (components slash path))
    (hcreate : vfsCreateFile s path = (some n, s')) :
    vfsResolve live s' path = (some n, s') ∧ s'.Distinct ∧
      vfsCreateFile s' path = (some n, s') ∧
      ∀ other m, (vfsResolve live s other).1 = some m → (vfsResolve live s' other).1 = some m := by
  obtain ⟨before, name, hcut, hno, heq⟩ := vfsCreateFile_eq habs
  rw [List.take_of_length_le hlen] at hcut
  have hname : name ≠ [] := by
    rintro rfl
    exact hlast (by simp [hcut])
  have hparts : components slash path = components slash before ++ [name] := by
    rw [hcut, components_append_cons, components_of_notMem hno, if_neg hname]
  rw [hparts] at hcomp hproc
  rw [heq s root hroot] at hcreate
  have hborn := (hs.root root hroot).1
  have hgive := createIn_gives hs hd hborn hcomp hproc hcreate
  have hroot' : s'.root = some root := hgive.kept.root.trans hroot
  refine ⟨?_, hgive.distinct, ?_, fun other m hm => ?_⟩
  · have hscan : scanned path = components slash before ++ [name] := by
      rw [← hparts]
      exact pieces_eq_components (hparts ▸ hcomp)
    rw [vfsResolve_eq_walk hroot' habs, hscan, walk_eq_lookup hgive.outside, hgive.found]
  · obtain ⟨parent, hparent, hfile⟩ := Option.bind_eq_some_iff.mp
      ((Vfs.lookup_append s' root _ [name]).symm.trans hgive.found)
    obtain ⟨c, hc, hcn⟩ := Option.bind_eq_some_iff.mp hfile
    cases hcn
    simp only [heq s' root hroot', createIn, ensure_of_lookup hparent, createFileIn, hc]
  · by_cases hother : other.head? = some slash
    · rw [vfsResolve_eq_walk hroot hother] at hm
      rw [vfsResolve_eq_walk hroot' hother]
      exact walk_kept hgive.kept hs hgive.linked hborn hm
    · simp [vfsResolve, hroot, hother] at hm

/-- The file system right after `vfs_init`. -/
def freshVfs : Vfs := vfsInit (Vfs.blank fun _ => true)

theorem freshVfs_children (p : NodePtr) : (freshVfs.node p).children = [] := by
  change ((Vfs.set _ _ _).node p).children = []
  rw [Vfs.set_node]
  split
  · rfl
  · rfl

theorem freshVfs_type (p : NodePtr) : (freshVfs.node p).type ≠ .procfs := by
  change ((Vfs.set _ _ _).node p).type ≠ _
  rw [Vfs.set_node]
  split
  · exact nofun
  · exact nofun

theorem freshVfs_distinct : freshVfs.Distinct := by
  intro p
  rw [freshVfs_children]
  exact nodup_nil

theorem vfsCreateFile_agrees_freshVfs :
    vfsResolve (fun _ => false) (vfsCreateFile freshVfs (ascii "/a//b")).2 (ascii "/a//b") =
        (some (.heap 2), (vfsCreateFile freshVfs (ascii "/a//b")).2) ∧
      (vfsCreateFile freshVfs (ascii "/a//b")).2.Distinct ∧
      vfsCreateFile (vfsCreateFile freshVfs (ascii "/a//b")).2 (ascii "/a//b") =
        (some (.heap 2), (vfsCreateFile freshVfs (ascii "/a//b")).2) ∧
      ∀ other m, (vfsResolve (fun _ => false) freshVfs other).1 = some m →
        (vfsResolve (fun _ => false) (vfsCreateFile freshVfs (ascii "/a//b")).2 other).1 = some m :=
  vfsCreateFile_agrees (fun _ => false) freshVfs _ (.heap 0) (.heap 2) (ascii "/a//b") rfl
    (vfsInit_linked (Vfs.blank_linked _)) freshVfs_distinct (by decide) (by decide) (by decide)
    (by decide) (Vfs.avoids_of_leaf (freshVfs_children _) (freshVfs_type _) _)
    (Prod.ext (by decide) rfl)

end Mmix.Fs
