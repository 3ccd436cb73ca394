import Mmix.Fs.LookupEffect

/-!
# What opening a path does to the tree

`sys_open` looks its path up, and with `O_CREATE` makes what is missing on the way to a file. A
creation changes the tree with the first node it gets from the allocator, and nothing is undone
when a later step fails.
-/

namespace Mmix.Fs

open Split

/-- The number of components that have to be created. -/
def Vfs.missing (s : Vfs) : NodePtr → List CStr → Nat
  | _, [] => 0
  | p, c :: cs =>
    match s.childNamed p c with
    | some n => s.missing n cs
    | none => cs.length + 1

/-- The components that `vfs_create_file` goes through. -/
def created (path : CStr) : List CStr :=
  match cutLast slash (path.take (vfsMaxPath - 1)) with
  | some (before, name) => components slash before ++ [name]
  | none => []

/-- The lookup finds a file, so that `O_CREATE` has nothing to do. -/
def Vfs.FileAt (live : Nat → Bool) (s : Vfs) (path : CStr) : Prop :=
  ∃ n ∈ (vfsResolve live s path).1, ((vfsResolve live s path).2.node n).type = .file

instance (live : Nat → Bool) (s : Vfs) (path : CStr) : Decidable (s.FileAt live path) :=
  inferInstanceAs (Decidable (∃ n ∈ _, _))

/-- The lookup makes and renames nothing, and there is nothing to create, or no memory for it. -/
def Vfs.Untouched (live : Nat → Bool) (s : Vfs) (root : NodePtr) (path : CStr) (create : Bool) :
    Prop :=
  s.Still live root (scanned path) ∧ (create = true → ¬ s.FileAt live path →
    s.missing root (created path) = 0 ∨ s.grants s.allocs = false)

/-- What the path names can be opened: the node that is found, or, where a file has to be created,
one that is no directory or for all of whose missing components there is memory. -/
def Vfs.Openable (live : Nat → Bool) (s : Vfs) (root : NodePtr) (path : CStr) (create : Bool) :
    Prop :=
  let t := (vfsResolve live s path).2
  if create = true ∧ ¬ s.FileAt live path then
    (∀ i < t.missing root (created path), t.grants (t.allocs + i) = true) ∧
      ∀ n, t.lookup root (created path) = some n → (t.node n).type ≠ .directory
  else ∃ n, (vfsResolve live s path).1 = some n ∧ (t.node n).type ≠ .directory

section Create

variable {s t u : Vfs} {p n : NodePtr} {name : CStr} {cs dirs : List CStr} {type : VfsType}

theorem missing_of_found {c : CStr} (h : s.childNamed p c = some n) :
    s.missing p (c :: cs) = s.missing n cs := by
  rw [Vfs.missing, h]

theorem missing_of_free {c : CStr} (h : s.childNamed p c = none) :
    s.missing p (c :: cs) = cs.length + 1 := by
  rw [Vfs.missing, h]

theorem missing_eq_zero_iff : s.missing p cs = 0 ↔ ∃ n, s.lookup p cs = some n := by
  induction cs generalizing p with
  | nil => exact iff_of_true rfl ⟨p, rfl⟩
  | cons c cs ih =>
    rw [Vfs.lookup_cons]
    cases hc : s.childNamed p c with
    | none =>
      rw [missing_of_free hc]
      exact iff_of_false (Nat.succ_ne_zero _) fun ⟨n, hn⟩ => by cases hn
    | some m =>
      rw [missing_of_found hc]
      exact ih

theorem missing_ne_zero (h : s.lookup p cs = none) : s.missing p cs ≠ 0 := by
  intro hzero
  obtain ⟨n, hn⟩ := missing_eq_zero_iff.mp hzero
  rw [h] at hn
  cases hn

/-- What a creation keeps. -/
structure Vfs.Grows (s t : Vfs) : Prop where
  linked : t.Linked
  root : t.root = s.root
  pool : t.poolUsed = s.poolUsed
  allocs : s.allocs ≤ t.allocs
  label : ∀ x, s.Born x →
    ((t.node x).name, (t.node x).payload) = ((s.node x).name, (s.node x).payload)
  children : ∀ x, s.Born x → (s.node x).children ⊆ (t.node x).children

theorem Vfs.Grows.born (h : s.Grows t) {x : NodePtr} (hx : s.Born x) : t.Born x := by
  cases x with
  | heap k => exact Nat.lt_of_lt_of_le hx h.allocs
  | pool i => exact Nat.lt_of_lt_of_eq hx h.pool.symm

theorem Vfs.Grows.refl (hs : s.Linked) : s.Grows s :=
  ⟨hs, rfl, rfl, Nat.le_refl _, fun _ _ => rfl, fun _ _ => List.Subset.refl _⟩

theorem Vfs.Grows.trans (h : s.Grows t) (h' : t.Grows u) : s.Grows u where
  linked := h'.linked
  root := h'.root.trans h.root
  pool := h'.pool.trans h.pool
  allocs := Nat.le_trans h.allocs h'.allocs
  label := fun x hx => (h'.label x (h.born hx)).trans (h.label x hx)
  children := fun x hx => List.Subset.trans (h.children x hx) (h'.children x (h.born hx))

theorem Vfs.Linked.grows_asked (hs : s.Linked) : s.Grows s.asked :=
  ⟨hs.asked, rfl, rfl, Nat.le_succ _, fun _ _ => rfl, fun _ _ => List.Subset.refl _⟩

theorem Vfs.Linked.grows_added (hs : s.Linked) (hp : s.Born p) :
    s.Grows (s.added p (newNode name type)) where
  linked := hs.added hp rfl rfl
  root := rfl
  pool := rfl
  allocs := Nat.le_succ _
  label := fun x hx => by
    rw [Vfs.added, s.hands_heap.node_insert_of_born hp hx]
  children := fun x hx => by
    rw [Vfs.added, s.hands_heap.children_insert hp rfl]
    split
    · next he => exact he ▸ List.subset_cons_self ..
    · rw [if_neg (s.hands_heap.ne hx)]
      exact List.Subset.refl _

theorem getOrCreate_found (h : s.childNamed p name = some n) :
    getOrCreate s p name type = (some n, s) := by
  rw [getOrCreate, h]

theorem getOrCreate_refused (h : s.childNamed p name = none) (hg : s.grants s.allocs = false) :
    getOrCreate s p name type = (none, s.asked) := by
  rw [getOrCreate, h]
  simp only [createChild, vfsCreateNode, hg]
  rfl

theorem getOrCreate_made (h : s.childNamed p name = none) (hg : s.grants s.allocs = true) :
    getOrCreate s p name type = (some (.heap s.allocs), s.added p (newNode name type)) := by
  rw [getOrCreate, h]
  simp only [createChild, vfsCreateNode, if_pos hg]
  rfl

theorem createIn_cons (c : CStr) : createIn s p (c :: dirs) name =
    match getOrCreate s p c .directory with
    | (none, s) => (none, s)
    | (some m, s) => createIn s m dirs name := by
  rw [createIn, ensure, vfsGetOrCreateDir_eq]
  cases getOrCreate s p c .directory with
  | mk found s' =>
    cases found with
    | none => rfl
    | some m => rfl

theorem createIn_of_lookup (h : s.lookup p (dirs ++ [name]) = some n) :
    createIn s p dirs name = (some n, s) := by
  obtain ⟨parent, hparent, hfile⟩ := Option.bind_eq_some_iff.mp
    ((Vfs.lookup_append s p dirs [name]).symm.trans h)
  obtain ⟨c, hc, hcn⟩ := Option.bind_eq_some_iff.mp hfile
  cases hcn
  rw [createIn, ensure_of_lookup hparent]
  exact getOrCreate_found hc

/-- The first request is refused. -/
theorem createIn_refused (h : s.lookup p (dirs ++ [name]) = none)
    (hg : s.grants s.allocs = false) : createIn s p dirs name = (none, s.asked) := by
  induction dirs generalizing p with
  | nil =>
    have hfree : s.childNamed p name = none := by
      cases hc : s.childNamed p name with
      | none => rfl
      | some m =>
        rw [List.nil_append, Vfs.lookup_cons, hc] at h
        cases h
    exact getOrCreate_refused hfree hg
  | cons c dirs ih =>
    rw [createIn_cons]
    cases hc : s.childNamed p c with
    | none => rw [getOrCreate_refused hc hg]
    | some m =>
      rw [List.cons_append, Vfs.lookup_cons, hc] at h
      rw [getOrCreate_found hc]
      exact ih h

/-- A node with a fresh child. -/
theorem added_child (hp : s.Born p) (node : VfsNode) (hnode : node.children = []) :
    .heap s.allocs ∈ ((s.added p node).node p).children := by
  rw [Vfs.added, s.hands_heap.children_insert hp hnode, if_pos rfl]
  exact List.mem_cons_self

theorem added_fresh (hp : s.Born p) (node : VfsNode) :
    (s.added p node).node (.heap s.allocs) = { node with parent := some p } := by
  rw [Vfs.added, s.hands_heap.node_insert hp, if_neg (s.hands_heap.ne hp).symm, if_pos rfl]

theorem added_born (p : NodePtr) (node : VfsNode) : (s.added p node).Born (.heap s.allocs) :=
  Nat.lt_succ_self _

/-- The course of a creation: nodes are kept, the first one that is granted stays, and the file is
there exactly if all of them are granted. -/
structure Created (s : Vfs) (p : NodePtr) (cs : List CStr) (r : Option NodePtr × Vfs) : Prop where
  grows : s.Grows r.2
  first : s.missing p cs ≠ 0 → s.grants s.allocs = true →
    ∃ x, .heap s.allocs ∈ (r.2.node x).children
  made : s.missing p cs ≠ 0 → ((∃ n, r.1 = some n) ↔
    ∀ i < s.missing p cs, s.grants (s.allocs + i) = true)
  file : s.missing p cs ≠ 0 → ∀ n, r.1 = some n → (r.2.node n).type = .file

/-- Nothing is missing. -/
theorem created_of_found (hs : s.Linked) (h : s.missing p cs = 0) :
    Created s p cs (some n, s) where
  grows := .refl hs
  first := fun hne => absurd h hne
  made := fun hne => absurd h hne
  file := fun hne => absurd h hne

theorem created_of_refused (hs : s.Linked) (hg : s.grants s.allocs = false) :
    Created s p cs (none, s.asked) where
  grows := hs.grows_asked
  first := fun _ hg' => by
    rw [hg] at hg'
    cases hg'
  made := fun hne => by
    refine iff_of_false (fun ⟨n, hn⟩ => by cases hn) fun hall => ?_
    have hfirst := hall 0 (Nat.pos_of_ne_zero hne)
    rw [Nat.add_zero, hg] at hfirst
    cases hfirst
  file := fun _ n hn => by cases hn

/-- A component is made, and the rest below it. -/
theorem created_of_made {c : CStr} {r : Option NodePtr × Vfs} (hs : s.Linked) (hp : s.Born p)
    (hc : s.childNamed p c = none) (hg : s.grants s.allocs = true) (hcs : cs ≠ [])
    (h : Created (s.added p (newNode c .directory)) (.heap s.allocs) cs r) :
    Created s p (c :: cs) r := by
  have hfresh := added_fresh hp (newNode c .directory)
  have hgrows : s.Grows (s.added p (newNode c .directory)) := hs.grows_added hp
  -- Nothing is below a new node.
  have hbelow : (s.added p (newNode c .directory)).missing (.heap s.allocs) cs = cs.length := by
    cases cs with
    | nil => exact absurd rfl hcs
    | cons d cs =>
      apply missing_of_free
      rw [Vfs.childNamed, hfresh]
      rfl
  have hpos : (s.added p (newNode c .directory)).missing (.heap s.allocs) cs ≠ 0 := by
    rw [hbelow]
    exact fun hlen => hcs (List.eq_nil_of_length_eq_zero hlen)
  refine ⟨hgrows.trans h.grows, fun _ _ => ?_, fun _ => ?_, fun _ => h.file hpos⟩
  · have hchild := added_child hp (newNode c .directory) rfl
    exact ⟨p, h.grows.children p (hgrows.born hp) hchild⟩
  · rw [h.made hpos, hbelow, missing_of_free hc]
    constructor
    · intro hall i hi
      cases i with
      | zero => exact hg
      | succ i =>
        have hgrant := hall i (Nat.lt_of_succ_lt_succ hi)
        rwa [show s.allocs + (i + 1) = s.allocs + 1 + i by omega]
    · intro hall i hi
      have hgrant := hall (i + 1) (Nat.succ_lt_succ hi)
      rwa [show s.allocs + (i + 1) = s.allocs + 1 + i by omega] at hgrant

theorem createIn_created (hs : s.Linked) (hp : s.Born p) :
    Created s p (dirs ++ [name]) (createIn s p dirs name) := by
  induction dirs generalizing s p with
  | nil =>
    change Created s p [name] (getOrCreate s p name .file)
    cases hc : s.childNamed p name with
    | some n =>
      rw [getOrCreate_found hc]
      exact created_of_found hs (missing_of_found hc)
    | none =>
      cases hg : s.grants s.allocs with
      | false =>
        rw [getOrCreate_refused hc hg]
        exact created_of_refused hs hg
      | true =>
        rw [getOrCreate_made hc hg]
        refine ⟨hs.grows_added hp, fun _ _ => ⟨p, added_child hp _ rfl⟩, fun _ => ?_, ?_⟩
        · refine iff_of_true ⟨_, rfl⟩ fun i hi => ?_
          rw [missing_of_free hc, List.length_nil] at hi
          obtain rfl : i = 0 := Nat.lt_one_iff.mp hi
          exact hg
        · rintro _ _ ⟨⟩
          simp only [added_fresh hp]
          rfl
  | cons c dirs ih =>
    rw [createIn_cons, List.cons_append]
    cases hc : s.childNamed p c with
    | some m =>
      have hrest := ih hs (hs.born p m (Vfs.mem_of_childNamed hc).1)
      rw [getOrCreate_found hc]
      have hmissing : s.missing p (c :: (dirs ++ [name])) = s.missing m (dirs ++ [name]) :=
        missing_of_found hc
      exact ⟨hrest.grows, hmissing ▸ hrest.first, hmissing ▸ hrest.made,
        hmissing ▸ hrest.file⟩
    | none =>
      cases hg : s.grants s.allocs with
      | false =>
        rw [getOrCreate_refused hc hg]
        exact created_of_refused hs hg
      | true =>
        rw [getOrCreate_made hc hg]
        have hne : dirs ++ [name] ≠ [] := List.append_ne_nil_of_right_ne_nil _ nofun
        refine created_of_made hs hp hc hg hne ?_
        exact ih (hs.added hp rfl rfl) (added_born p _)

end Create

section Open

variable {live : Nat → Bool} {s t : Vfs} {root : NodePtr} {path : CStr} {create : Bool}

theorem vfsCreateFile_createIn (habs : path.head? = some slash) :
    ∃ dirs name, created path = dirs ++ [name] ∧
      ∀ t root, t.root = some root → vfsCreateFile t path = createIn t root dirs name := by
  obtain ⟨before, name, hcut, hname, heq⟩ := vfsCreateFile_eq habs
  refine ⟨components slash before, name, ?_, heq⟩
  rw [created, hcut, cutLast_append_cons before hname]

theorem openCheck_isSome (r : Option NodePtr × Vfs) :
    (openCheck r).1.isSome ↔ ∃ n, r.1 = some n ∧ (r.2.node n).type ≠ .directory := by
  obtain ⟨found, t⟩ := r
  cases found with
  | none => simp [openCheck]
  | some n =>
    by_cases hdir : (t.node n).type = .directory
    · simp [openCheck, hdir]
    · simp [openCheck, hdir]

/-- No directory is opened. -/
theorem openCheck_type (r : Option NodePtr × Vfs) {n : NodePtr} (h : (openCheck r).1 = some n) :
    ((openCheck r).2.node n).type ≠ .directory := by
  obtain ⟨found, t⟩ := r
  cases found with
  | none => cases h
  | some m =>
    by_cases hdir : (t.node m).type = .directory
    · rw [openCheck, if_pos hdir] at h
      cases h
    · rw [openCheck, if_neg hdir] at h ⊢
      cases h
      exact hdir

theorem sysOpenNode_eq : sysOpenNode live s path create =
    openCheck (if create = true ∧ ¬ s.FileAt live path then
        vfsCreateFile (vfsResolve live s path).2 path
      else vfsResolve live s path) := rfl

/-- Without a root or for a relative path nothing happens. -/
theorem sysOpenNode_relative (h : s.root = none ∨ path.head? ≠ some slash) :
    sysOpenNode live s path create = (none, s) := by
  have hresolve : vfsResolve live s path = (none, s) := by
    rw [vfsResolve]
    cases hroot : s.root with
    | none => rfl
    | some root => exact if_neg (h.resolve_left (hroot ▸ Option.some_ne_none root))
  have hcreate : vfsCreateFile s path = (none, s) := by
    rw [vfsCreateFile]
    cases hroot : s.root with
    | none => rfl
    | some root => exact if_neg (h.resolve_left (hroot ▸ Option.some_ne_none root))
  rw [sysOpenNode]
  simp only [hresolve, hcreate, ite_self]
  rfl

theorem Vfs.Looks.born (h : s.Looks t) {x : NodePtr} (hx : s.Born x) : t.Born x := by
  cases x with
  | heap k => exact Nat.lt_of_lt_of_eq hx h.allocs.symm
  | pool i => exact Nat.lt_of_lt_of_le hx h.pool

theorem Vfs.Marked.grows {u : Vfs} (h : s.Marked t) (hlooks : s.Looks t) (h' : t.Grows u) :
    s.Marked u := by
  rcases h with hpool | ⟨x, hx, hne⟩
  · exact .inl (h'.pool.symm ▸ hpool)
  · exact .inr ⟨x, hx, by rwa [h'.label x (hlooks.born hx)]⟩

/-- A granted node is seen in the tree. -/
theorem Created.not_sameTree {p : NodePtr} {cs : List CStr} {r : Option NodePtr × Vfs}
    (hs : s.Linked) (h : Created s p cs r) (hmissing : s.missing p cs ≠ 0)
    (hg : s.grants s.allocs = true) : ¬ s.SameTree r.2 := by
  intro hsame
  obtain ⟨x, hx⟩ := h.first hmissing hg
  rw [hsame.node] at hx
  exact Nat.lt_irrefl _ (hs.born x _ hx)

/-- A creation changes nothing exactly if there is nothing to create or no memory for it. -/
theorem createIn_sameTree_iff {dirs : List CStr} {name : CStr} (hs : s.Linked)
    (hp : s.Born root) : s.SameTree (createIn s root dirs name).2 ↔
      s.missing root (dirs ++ [name]) = 0 ∨ s.grants s.allocs = false := by
  have hcreated : Created s root (dirs ++ [name]) (createIn s root dirs name) :=
    createIn_created hs hp
  constructor
  · intro hsame
    by_contra hnot
    rw [not_or, Bool.not_eq_false] at hnot
    exact hcreated.not_sameTree hs hnot.1 hnot.2 hsame
  · intro h
    cases hfound : s.lookup root (dirs ++ [name]) with
    | some n =>
      rw [createIn_of_lookup hfound]
      exact ⟨rfl, rfl, rfl⟩
    | none =>
      rw [createIn_refused hfound (h.resolve_left (missing_ne_zero hfound))]
      exact ⟨rfl, rfl, rfl⟩

/-- A creation gives a node that can be opened. -/
theorem createIn_openable_iff {dirs : List CStr} {name : CStr} (hs : s.Linked)
    (hp : s.Born root) : (∃ n, (createIn s root dirs name).1 = some n ∧
        ((createIn s root dirs name).2.node n).type ≠ .directory) ↔
      (∀ i < s.missing root (dirs ++ [name]), s.grants (s.allocs + i) = true) ∧
        ∀ n, s.lookup root (dirs ++ [name]) = some n → (s.node n).type ≠ .directory := by
  have hcreated : Created s root (dirs ++ [name]) (createIn s root dirs name) :=
    createIn_created hs hp
  cases hfound : s.lookup root (dirs ++ [name]) with
  | some n =>
    have hzero : s.missing root (dirs ++ [name]) = 0 := missing_eq_zero_iff.mpr ⟨n, hfound⟩
    rw [createIn_of_lookup hfound, hzero]
    simp
  | none =>
    have hmissing := missing_ne_zero hfound
    rw [← hcreated.made hmissing, and_iff_left (fun n hn => by cases hn)]
    refine exists_congr fun n => and_iff_left_of_imp fun hn => ?_
    rw [hcreated.file hmissing n hn]
    exact nofun

variable (hs : s.Linked) (hroot : s.root = some root) (habs : path.head? = some slash)
include hs hroot habs

theorem resolve_looks : s.Looks (vfsResolve live s path).2 := by
  rw [vfsResolve_eq_walk hroot habs]
  exact walk_looks hs (hs.root root hroot).1 _

theorem resolve_sameTree_iff :
    s.SameTree (vfsResolve live s path).2 ↔ s.Still live root (scanned path) := by
  rw [vfsResolve_eq_walk hroot habs]
  constructor
  · intro hsame
    by_contra hmoves
    exact (walk_marked hs (hs.root root hroot).1 hmoves).not_sameTree hsame
  · intro hstill
    rw [walk_of_still hstill]
    exact ⟨rfl, rfl, rfl⟩

/-- Opening a path leaves the tree as it is exactly if nothing is made, renamed or created. -/
theorem sysOpenNode_sameTree_iff :
    s.SameTree (sysOpenNode live s path create).2 ↔ s.Untouched live root path create := by
  have hstill := @resolve_sameTree_iff live s root path hs hroot habs
  have hlooks := @resolve_looks live s root path hs hroot habs
  have hborn := (hs.root root hroot).1
  rw [sysOpenNode_eq, openCheck_snd, Vfs.Untouched]
  by_cases hcreate : create = true ∧ ¬ s.FileAt live path
  · obtain ⟨dirs, name, hparts, heq⟩ := vfsCreateFile_createIn habs
    rw [if_pos hcreate, heq _ root (hlooks.root.trans hroot), hparts]
    constructor
    · intro hsame
      have hquiet : s.Still live root (scanned path) := by
        by_contra hmoves
        have hmarked : s.Marked (vfsResolve live s path).2 := by
          rw [vfsResolve_eq_walk hroot habs]
          exact walk_marked hs hborn hmoves
        have hcreated := @createIn_created _ _ name dirs hlooks.linked (hlooks.born hborn)
        exact (hmarked.grows hlooks hcreated.grows).not_sameTree hsame
      rw [vfsResolve_eq_walk hroot habs, walk_of_still hquiet] at hsame
      exact ⟨hquiet, fun _ _ => (createIn_sameTree_iff hs hborn).mp hsame⟩
    · rintro ⟨hquiet, hnothing⟩
      rw [vfsResolve_eq_walk hroot habs, walk_of_still hquiet]
      exact (createIn_sameTree_iff hs hborn).mpr (hnothing hcreate.1 hcreate.2)
  · rw [if_neg hcreate, hstill]
    exact (and_iff_left fun hc hfile => absurd ⟨hc, hfile⟩ hcreate).symm

/-- Opening a path gives a node exactly if there is one or it can be made. -/
theorem sysOpenNode_isSome_iff :
    (sysOpenNode live s path create).1.isSome ↔ s.Openable live root path create := by
  have hlooks := @resolve_looks live s root path hs hroot habs
  have hborn := hlooks.born (hs.root root hroot).1
  rw [sysOpenNode_eq, openCheck_isSome, Vfs.Openable]
  by_cases hcreate : create = true ∧ ¬ s.FileAt live path
  · obtain ⟨dirs, name, hparts, heq⟩ := vfsCreateFile_createIn habs
    simp only [if_pos hcreate, heq _ root (hlooks.root.trans hroot), hparts]
    exact createIn_openable_iff hlooks.linked hborn
  · simp only [if_neg hcreate]

end Open

end Mmix.Fs
