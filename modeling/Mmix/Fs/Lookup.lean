import Mmix.Fs.Vfs

/-!
# Path lookup

`vfs_resolve` reads a path through a buffer of 63 bytes and descends one
buffer at a time. The relation `Descends` is the lookup it stands for: from
node to child by exact names. The two agree on every path whose components fit
the buffer; a longer component is looked up piece by piece.
-/

namespace Mmix.Fs

open Split List Option

variable {live : Nat → Bool} {s : Vfs} {p root n : NodePtr} {path : CStr} {cs : List CStr}

/-- What a path is to the scanner of `vfs_resolve`. -/
def scanned (path : CStr) : List CStr := pieces slash (vfsMaxName - 1) path

/-- The loop of `vfs_resolve` on the components already cut. -/
def walk (live : Nat → Bool) : Vfs → NodePtr → List CStr → Option NodePtr × Vfs
  | s, current, [] => (some current, s)
  | s, current, c :: cs =>
    match resolveStep live s current c with
    | (none, s) => (none, s)
    | (some found, s) => walk live s found cs

theorem resolveLoop_eq_walk (passes : Nat) (s : Vfs) (current : NodePtr) (rest : CStr)
    (hlen : rest.length ≤ passes) :
    resolveLoop live passes s current rest = walk live s current (scanned rest) := by
  induction passes generalizing s current rest with
  | zero =>
    obtain rfl := eq_nil_of_length_eq_zero (Nat.le_zero.mp hlen)
    rfl
  | succ passes ih =>
    by_cases hrest : rest = []
    · subst hrest
      rfl
    · have hlt : (skip slash (scan slash (vfsMaxName - 1) rest).2).length < rest.length :=
        length_skip_scan_lt (by decide) hrest
      have hnext : ∀ s current,
          resolveLoop live passes s current (skip slash (scan slash (vfsMaxName - 1) rest).2) =
            walk live s current (scanned (skip slash (scan slash (vfsMaxName - 1) rest).2)) :=
        fun s current => ih s current _ (by omega)
      rw [scanned, pieces_scan (by decide), resolveLoop, if_neg hrest]
      generalize scan slash (vfsMaxName - 1) rest = r at hnext ⊢
      obtain ⟨component, rest'⟩ := r
      by_cases hc : component = []
      · dsimp only
        rw [if_pos hc, if_pos hc]
        exact hnext s current
      · simp only [if_neg hc, singleton_append, walk]
        cases hstep : resolveStep live s current component with
        | mk found s' =>
          cases found with
          | none => rfl
          | some m => exact hnext s' m

theorem vfsResolve_eq_walk (hroot : s.root = some root) (habs : path.head? = some slash) :
    vfsResolve live s path = walk live s root (scanned path) := by
  cases path with
  | nil => cases habs
  | cons ch rest =>
    cases habs
    have hscan : scanned (slash :: rest) = scanned rest := by
      rw [scanned, pieces, components_cons_self]
      rfl
    rw [hscan, vfsResolve, hroot]
    exact resolveLoop_eq_walk _ s root rest (Nat.le_succ _)

/-! ### Descending by name -/

/-- Search child by child through the sibling chains. -/
def Vfs.lookup (s : Vfs) : NodePtr → List CStr → Option NodePtr
  | p, [] => some p
  | p, c :: cs => (s.childNamed p c).bind fun n => s.lookup n cs

/-- The node a list of names leads to, from child to child. -/
inductive Vfs.Descends (s : Vfs) : NodePtr → List CStr → NodePtr → Prop where
  | here (p : NodePtr) : Descends s p [] p
  | child {p c n : NodePtr} {name : CStr} {cs : List CStr} (hc : c ∈ (s.node p).children)
      (hname : (s.node c).name = name) (rest : Descends s c cs n) : Descends s p (name :: cs) n

/-- The children of a node have different names. -/
def Vfs.Distinct (s : Vfs) : Prop :=
  ∀ p, ((s.node p).children.map fun c => (s.node c).name).Nodup

/-- Names fit the field `name`. -/
def Vfs.ShortNames (s : Vfs) : Prop :=
  ∀ p, ∀ c ∈ (s.node p).children, (s.node c).name.length ≤ vfsMaxName - 1

/-- No name of the list is looked up in a node of certain types. -/
def Vfs.Avoids (s : Vfs) (bad : VfsType → Prop) (p : NodePtr) (cs : List CStr) : Prop :=
  ∀ front name back n, cs = front ++ name :: back → s.lookup p front = some n →
    ¬ bad (s.node n).type

/-- No name of the list is looked up in a procfs node. -/
abbrev Vfs.OutsideProc (s : Vfs) (p : NodePtr) (cs : List CStr) : Prop :=
  s.Avoids (· = .procfs) p cs

@[simp] theorem Vfs.lookup_nil (s : Vfs) (p : NodePtr) : s.lookup p [] = some p := rfl

theorem Vfs.lookup_cons (s : Vfs) (p : NodePtr) (c : CStr) (cs : List CStr) :
    s.lookup p (c :: cs) = (s.childNamed p c).bind fun n => s.lookup n cs := rfl

theorem Vfs.lookup_append (s : Vfs) (p : NodePtr) (cs ds : List CStr) :
    s.lookup p (cs ++ ds) = (s.lookup p cs).bind fun n => s.lookup n ds := by
  induction cs generalizing p with
  | nil => rfl
  | cons c cs ih => simp only [cons_append, Vfs.lookup_cons, ih, bind_assoc]

theorem Vfs.mem_of_childNamed {name : CStr} {c : NodePtr} (h : s.childNamed p name = some c) :
    c ∈ (s.node p).children ∧ (s.node c).name = name :=
  ⟨mem_of_find?_eq_some h, by simpa using find?_some h⟩

theorem Vfs.childNamed_eq_none {name : CStr} :
    s.childNamed p name = none ↔ ∀ c ∈ (s.node p).children, (s.node c).name ≠ name := by
  simp [Vfs.childNamed]

theorem Vfs.Distinct.childNamed_iff (hd : s.Distinct) {name : CStr} {c : NodePtr} :
    s.childNamed p name = some c ↔ c ∈ (s.node p).children ∧ (s.node c).name = name := by
  constructor
  · exact Vfs.mem_of_childNamed
  · rintro ⟨hmem, rfl⟩
    cases hfind : s.childNamed p (s.node c).name with
    | none => exact absurd rfl (Vfs.childNamed_eq_none.mp hfind c hmem)
    | some d =>
      obtain ⟨hd', hname⟩ := Vfs.mem_of_childNamed hfind
      rw [inj_on_of_nodup_map (hd p) hd' hmem hname]

theorem Vfs.Distinct.lookup_iff (hd : s.Distinct) :
    s.lookup p cs = some n ↔ s.Descends p cs n := by
  constructor
  · intro h
    induction cs generalizing p with
    | nil =>
      obtain rfl := some.inj h
      exact .here p
    | cons name cs ih =>
      obtain ⟨c, hc, hrest⟩ := bind_eq_some_iff.mp h
      obtain ⟨hmem, hname⟩ := Vfs.mem_of_childNamed hc
      exact .child hmem hname (ih hrest)
  · intro h
    induction h with
    | here p => rfl
    | child hmem hname _ ih =>
      exact bind_eq_some_iff.mpr ⟨_, hd.childNamed_iff.mpr ⟨hmem, hname⟩, ih⟩

theorem Vfs.Avoids.here {bad : VfsType → Prop} {name : CStr} (h : s.Avoids bad p (name :: cs)) :
    ¬ bad (s.node p).type :=
  h [] name cs p rfl rfl

theorem Vfs.Avoids.child {bad : VfsType → Prop} {name : CStr} {c : NodePtr}
    (h : s.Avoids bad p (name :: cs)) (hc : s.childNamed p name = some c) : s.Avoids bad c cs := by
  intro front x back m hcs hm
  apply h (name :: front) x back m (congrArg (name :: ·) hcs)
  exact bind_eq_some_iff.mpr ⟨c, hc, hm⟩

theorem Vfs.avoids_nil {bad : VfsType → Prop} : s.Avoids bad p [] :=
  fun _ _ _ _ h => by simp at h

theorem Vfs.avoids_cons {bad : VfsType → Prop} {name : CStr} (h : ¬ bad (s.node p).type)
    (hrest : ∀ c, s.childNamed p name = some c → s.Avoids bad c cs) :
    s.Avoids bad p (name :: cs) := by
  intro front x back m hcs hm
  cases front with
  | nil => exact some.inj hm ▸ h
  | cons y front =>
    obtain ⟨rfl, hback⟩ := cons.inj hcs
    obtain ⟨c, hc, hm⟩ := bind_eq_some_iff.mp hm
    exact hrest c hc front x back m hback hm

theorem Vfs.Avoids.append {bad : VfsType → Prop} {ds : List CStr} (h : s.Avoids bad p cs)
    (hn : s.lookup p cs = some n) (h' : s.Avoids bad n ds) : s.Avoids bad p (cs ++ ds) := by
  induction cs generalizing p with
  | nil => exact some.inj hn ▸ h'
  | cons c cs ih =>
    obtain ⟨m, hm, hrest⟩ := bind_eq_some_iff.mp hn
    refine Vfs.avoids_cons h.here fun x hx => ?_
    obtain rfl := some.inj (hm.symm.trans hx)
    exact ih (h.child hm) hrest

/-- Outside procfs a walk changes nothing and ends where the search does. -/
theorem walk_eq_lookup (hp : s.OutsideProc p cs) : walk live s p cs = (s.lookup p cs, s) := by
  induction cs generalizing p with
  | nil => rfl
  | cons name cs ih =>
    have hstep : resolveStep live s p name = (s.childNamed p name, s) := if_neg hp.here
    cases hc : s.childNamed p name with
    | none => simp only [walk, hstep, hc, Vfs.lookup_cons, bind_none]
    | some c =>
      simp only [walk, hstep, hc, Vfs.lookup_cons, bind_some]
      exact ih (hp.child hc)

theorem Vfs.Descends.length_le (hs : s.ShortNames) (h : s.Descends p cs n) :
    ∀ c ∈ cs, c.length ≤ vfsMaxName - 1 := by
  induction h with
  | here p => simp
  | child hc hname _ ih =>
    intro c hmem
    rcases mem_cons.mp hmem with rfl | hmem
    · exact hname ▸ hs _ _ hc
    · exact ih c hmem

/-- `vfs_resolve` is the lookup by components exactly when every component fits
the buffer or the pieces of the path lead nowhere. -/
theorem vfsResolve_iff_descends (live : Nat → Bool) (s : Vfs) (root : NodePtr) (path : CStr)
    (hroot : s.root = some root) (habs : path.head? = some slash) (hd : s.Distinct)
    (hs : s.ShortNames) (hp : s.OutsideProc root (scanned path)) :
    (∀ n, (vfsResolve live s path).1 = some n ↔ s.Descends root (components slash path) n) ↔
      (∀ c ∈ components slash path, c.length ≤ vfsMaxName - 1) ∨
        ∀ n, ¬ s.Descends root (scanned path) n := by
  have hresolve : ∀ n, (vfsResolve live s path).1 = some n ↔ s.Descends root (scanned path) n := by
    intro n
    rw [vfsResolve_eq_walk hroot habs, walk_eq_lookup hp]
    exact hd.lookup_iff
  simp only [hresolve]
  by_cases hshort : ∀ c ∈ components slash path, c.length ≤ vfsMaxName - 1
  · have heq : scanned path = components slash path := pieces_eq_components hshort
    rw [heq]
    exact iff_of_true (fun n => Iff.rfl) (Or.inl hshort)
  · -- A component that does not fit names no node.
    have hno : ∀ n, ¬ s.Descends root (components slash path) n :=
      fun n h => hshort (h.length_le hs)
    constructor
    · intro h
      exact Or.inr fun n hn => hno n ((h n).mp hn)
    · rintro (h | h) n
      · exact absurd h hshort
      · exact iff_of_false (h n) (hno n)

/-- A directory with a name of 63 bytes that holds a file `b`. -/
def deepTree : Vfs :=
  { Vfs.blank fun _ => true with
    root := some (.heap 0)
    node := fun
      | .heap 0 => { name := [slash], type := .directory, children := [.heap 1] }
      | .heap 1 => { name := List.replicate 63 97, type := .directory, children := [.heap 2] }
      | .heap 2 => { name := [98], type := .file }
      | _ => { name := [], type := .file } }

theorem deepTree_distinct : deepTree.Distinct
  | .heap 0 | .heap 1 => nodup_singleton _
  | .heap 2 | .heap (_ + 3) | .pool _ => nodup_nil

theorem deepTree_shortNames : deepTree.ShortNames := by
  intro p
  match p with
  | .heap 0 | .heap 1 => decide
  | .heap 2 | .heap (_ + 3) | .pool _ => exact fun _ h => nomatch h

theorem deepTree_outsideProc (p : NodePtr) (cs : List CStr) : deepTree.OutsideProc p cs := by
  intro front name back n _ _
  match n with
  | .heap 0 | .heap 1 | .heap 2 | .heap (_ + 3) | .pool _ => exact nofun

/-- A component of 64 bytes, the name of the directory and `b`, leads to the
file in it. -/
theorem vfsResolve_long_component :
    deepTree.root = some (.heap 0) ∧ deepTree.Distinct ∧ deepTree.ShortNames ∧
      deepTree.OutsideProc (.heap 0) (scanned (slash :: (List.replicate 63 97 ++ [98]))) ∧
      components slash (slash :: (List.replicate 63 97 ++ [98])) =
        [List.replicate 63 97 ++ [98]] ∧
      (vfsResolve (fun _ => false) deepTree (slash :: (List.replicate 63 97 ++ [98]))).1 =
        some (.heap 2) ∧
      ¬ deepTree.Descends (.heap 0) [List.replicate 63 97 ++ [98]] (.heap 2) := by
  refine ⟨rfl, deepTree_distinct, deepTree_shortNames, deepTree_outsideProc _ _, by decide,
    by decide, fun h => ?_⟩
  exact absurd (h.length_le deepTree_shortNames _ List.mem_cons_self) (by decide)

theorem vfsResolve_iff_descends_deepTree :
    (∀ n, (vfsResolve (fun _ => false) deepTree (slash :: List.replicate 63 97)).1 = some n ↔
        deepTree.Descends (.heap 0) (components slash (slash :: List.replicate 63 97)) n) ↔
      (∀ c ∈ components slash (slash :: List.replicate 63 97), c.length ≤ vfsMaxName - 1) ∨
        ∀ n, ¬ deepTree.Descends (.heap 0) (scanned (slash :: List.replicate 63 97)) n :=
  vfsResolve_iff_descends (fun _ => false) deepTree (.heap 0) _ rfl rfl deepTree_distinct
    deepTree_shortNames (deepTree_outsideProc _ _)

end Mmix.Fs
