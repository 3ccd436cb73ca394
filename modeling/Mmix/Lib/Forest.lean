import Mathlib

/-!
# Forests of tables stored in a memory

A memory holds one word for every cell address and index, and a word may
point to a further cell. Cells are reached from a root by a path of indices.
A format fixes the pointer decoding, the indices a path may start with, and
the number of table levels; what lies one level below the last table is a
leaf. Separation says that no table is reached twice and that no leaf is a
table, so one written word changes the cells below that word and no others.
-/

namespace Mmix.Forest

open List

variable {F I W : Type*}

/-- The cell reached from a root by following a path of indices. -/
def node (child : W → Option F) (mem : F → I → W) : F → List I → Option F
  | root, [] => some root
  | root, i :: path => (child (mem root i)).bind fun next => node child mem next path

@[simp] theorem node_nil (child : W → Option F) (mem : F → I → W) (root : F) :
    node child mem root [] = some root := rfl

theorem node_cons (child : W → Option F) (mem : F → I → W) (root : F) (i : I)
    (path : List I) : node child mem root (i :: path) =
      (child (mem root i)).bind fun next => node child mem next path := rfl

theorem node_append (child : W → Option F) (mem : F → I → W) (root : F)
    (path rest : List I) : node child mem root (path ++ rest) =
      (node child mem root path).bind fun next => node child mem next rest := by
  induction path generalizing root with
  | nil => rfl
  | cons i path ih =>
    simp only [cons_append, node_cons]
    cases child (mem root i) with
    | none => rfl
    | some next => exact ih next

theorem node_concat (child : W → Option F) (mem : F → I → W) (root : F)
    (path : List I) (i : I) : node child mem root (path ++ [i]) =
      (node child mem root path).bind fun next => child (mem next i) := by
  rw [node_append]
  congr 1
  funext next
  simp [node_cons]

/-- Memories that agree on the words a path reads lead it to the same cell. -/
theorem node_eq_of_words {child : W → Option F} {mem mem' : F → I → W} {root : F}
    {path : List I} (h : ∀ p i f, p ++ [i] <+: path → node child mem root p = some f →
      mem' f i = mem f i) :
    node child mem' root path = node child mem root path := by
  induction path using reverseRecOn with
  | nil => rfl
  | append_singleton path i ih =>
    rw [node_concat, node_concat,
      ih fun p j f hp => h p j f (hp.trans (prefix_append path [i]))]
    cases hn : node child mem root path with
    | none => rfl
    | some f => simp [h path i f prefix_rfl hn]

/-- How words point to cells, how paths start, and how many table levels lie
below a root. -/
structure Format (F I W : Type*) where
  child : W → Option F
  top : Set I
  depth : Nat

/-- A path admitted by a format starts with one of its top indices. -/
def Admissible (fmt : Format F I W) (path : List I) : Prop :=
  ∀ i ∈ path.head?, i ∈ fmt.top

theorem admissible_nil (fmt : Format F I W) : Admissible fmt [] := by
  simp [Admissible]

theorem Admissible.init {fmt : Format F I W} {path rest : List I}
    (h : Admissible fmt (path ++ rest)) : Admissible fmt path := by
  cases path with
  | nil => exact admissible_nil fmt
  | cons i path => simpa [Admissible] using h

theorem Admissible.extend {fmt : Format F I W} {path : List I} (rest : List I)
    (hne : path ≠ []) (h : Admissible fmt path) : Admissible fmt (path ++ rest) := by
  cases path with
  | nil => exact absurd rfl hne
  | cons i path => simpa [Admissible] using h

/-- The cell at an admitted path of a root, down to a number of levels. -/
structure Reach (fmt : Format F I W) (roots : Set F) (mem : F → I → W) (levels : Nat)
    (root : F) (path : List I) (f : F) : Prop where
  mem_roots : root ∈ roots
  admissible : Admissible fmt path
  length_le : path.length ≤ levels
  at_path : node fmt.child mem root path = some f

/-- A table is a cell at most `depth` levels below its root. -/
abbrev Table (fmt : Format F I W) (roots : Set F) (mem : F → I → W) :
    F → List I → F → Prop := Reach fmt roots mem fmt.depth

/-- A leaf lies exactly one level below the last table level. -/
structure Leaf (fmt : Format F I W) (roots : Set F) (mem : F → I → W)
    (root : F) (path : List I) (f : F) : Prop where
  mem_roots : root ∈ roots
  admissible : Admissible fmt path
  length_eq : path.length = fmt.depth + 1
  at_path : node fmt.child mem root path = some f

theorem Leaf.reach {fmt : Format F I W} {roots : Set F} {mem : F → I → W} {root path f}
    (h : Leaf fmt roots mem root path f) : Reach fmt roots mem (fmt.depth + 1) root path f :=
  ⟨h.mem_roots, h.admissible, h.length_eq.le, h.at_path⟩

theorem Reach.weaken {fmt : Format F I W} {roots : Set F} {mem : F → I → W} {levels levels' : Nat}
    {root path f} (h : Reach fmt roots mem levels root path f) (hl : levels ≤ levels') :
    Reach fmt roots mem levels' root path f :=
  ⟨h.mem_roots, h.admissible, h.length_le.trans hl, h.at_path⟩

theorem Reach.of_mem {fmt : Format F I W} {roots roots' : Set F} {mem : F → I → W} {levels : Nat}
    {root path f} (h : Reach fmt roots mem levels root path f) (hr : root ∈ roots') :
    Reach fmt roots' mem levels root path f :=
  ⟨hr, h.admissible, h.length_le, h.at_path⟩

theorem Leaf.of_mem {fmt : Format F I W} {roots roots' : Set F} {mem : F → I → W}
    {root path f} (h : Leaf fmt roots mem root path f) (hr : root ∈ roots') :
    Leaf fmt roots' mem root path f :=
  ⟨hr, h.admissible, h.length_eq, h.at_path⟩

theorem Reach.table_or_leaf {fmt : Format F I W} {roots : Set F} {mem : F → I → W}
    {root path f} (h : Reach fmt roots mem (fmt.depth + 1) root path f) :
    Table fmt roots mem root path f ∨ Leaf fmt roots mem root path f := by
  by_cases hl : path.length ≤ fmt.depth
  · exact Or.inl ⟨h.mem_roots, h.admissible, hl, h.at_path⟩
  · exact Or.inr ⟨h.mem_roots, h.admissible, by have := h.length_le; omega, h.at_path⟩

/-- Every table has one root and one path, and no leaf is a table. -/
structure Separated (fmt : Format F I W) (roots : Set F) (mem : F → I → W) : Prop where
  table_unique : ∀ {r p r' p' f}, Table fmt roots mem r p f →
    Table fmt roots mem r' p' f → r = r' ∧ p = p'
  leaf_ne_table : ∀ {r p r' p' f}, Table fmt roots mem r p f →
    ¬ Leaf fmt roots mem r' p' f

section Agreement

variable {fmt : Format F I W} {roots : Set F} {mem mem' : F → I → W}

/-- Memories that agree on every table have the same cells everywhere. -/
theorem node_eq_of_agree (hagree : ∀ r p f, Table fmt roots mem r p f → mem' f = mem f)
    {r : F} (hr : r ∈ roots) {path : List I} (ha : Admissible fmt path)
    (hl : path.length ≤ fmt.depth + 1) :
    node fmt.child mem' r path = node fmt.child mem r path := by
  apply node_eq_of_words
  rintro p i f ⟨rest, rfl⟩ hn
  have hlen : p.length ≤ fmt.depth := by
    simp only [length_append, length_singleton] at hl
    omega
  rw [hagree r p f ⟨hr, ha.init.init, hlen, hn⟩]

theorem Reach.of_node_eq {levels : Nat} {roots' : Set F} {r p f}
    (h : Reach fmt roots mem levels r p f) (hr : r ∈ roots')
    (heq : node fmt.child mem' r p = node fmt.child mem r p) :
    Reach fmt roots' mem' levels r p f :=
  ⟨hr, h.admissible, h.length_le, heq.trans h.at_path⟩

/-- Equal cells at every admitted path make the reached cells equal. -/
theorem reach_congr
    (heq : ∀ r ∈ roots, ∀ p, Admissible fmt p → p.length ≤ fmt.depth + 1 →
      node fmt.child mem' r p = node fmt.child mem r p)
    {levels : Nat} (hl : levels ≤ fmt.depth + 1) (r : F) (p : List I) (f : F) :
    Reach fmt roots mem' levels r p f ↔ Reach fmt roots mem levels r p f := by
  constructor
  · intro h
    exact h.of_node_eq h.mem_roots
      (heq r h.mem_roots p h.admissible (h.length_le.trans hl)).symm
  · intro h
    exact h.of_node_eq h.mem_roots
      (heq r h.mem_roots p h.admissible (h.length_le.trans hl))

theorem leaf_congr
    (heq : ∀ r ∈ roots, ∀ p, Admissible fmt p → p.length ≤ fmt.depth + 1 →
      node fmt.child mem' r p = node fmt.child mem r p) (r : F) (p : List I) (f : F) :
    Leaf fmt roots mem' r p f ↔ Leaf fmt roots mem r p f := by
  constructor
  · intro h
    exact ⟨h.mem_roots, h.admissible, h.length_eq,
      (heq r h.mem_roots p h.admissible h.length_eq.le).symm.trans h.at_path⟩
  · intro h
    exact ⟨h.mem_roots, h.admissible, h.length_eq,
      (heq r h.mem_roots p h.admissible h.length_eq.le).trans h.at_path⟩

theorem Separated.congr (h : Separated fmt roots mem)
    (heq : ∀ r ∈ roots, ∀ p, Admissible fmt p → p.length ≤ fmt.depth + 1 →
      node fmt.child mem' r p = node fmt.child mem r p) :
    Separated fmt roots mem' where
  table_unique := fun h₁ h₂ => h.table_unique
    ((reach_congr heq (Nat.le_succ _) _ _ _).mp h₁)
    ((reach_congr heq (Nat.le_succ _) _ _ _).mp h₂)
  leaf_ne_table := fun h₁ h₂ => h.leaf_ne_table
    ((reach_congr heq (Nat.le_succ _) _ _ _).mp h₁) ((leaf_congr heq _ _ _).mp h₂)

theorem Separated.mono {roots' : Set F} (h : Separated fmt roots mem)
    (hsub : roots' ⊆ roots) : Separated fmt roots' mem where
  table_unique := fun h₁ h₂ => h.table_unique (h₁.of_mem (hsub h₁.mem_roots))
    (h₂.of_mem (hsub h₂.mem_roots))
  leaf_ne_table := fun h₁ h₂ => h.leaf_ne_table (h₁.of_mem (hsub h₁.mem_roots))
    (h₂.of_mem (hsub h₂.mem_roots))

end Agreement

section Writing

variable [DecidableEq F] [DecidableEq I]

/-- Replace one word of a memory. -/
def setCell (mem : F → I → W) (f : F) (i : I) (w : W) : F → I → W :=
  fun g j => if g = f ∧ j = i then w else mem g j

@[simp] theorem setCell_same (mem : F → I → W) (f : F) (i : I) (w : W) :
    setCell mem f i w f i = w := by
  simp [setCell]

theorem setCell_of_ne (mem : F → I → W) {f g : F} {i j : I} (w : W)
    (h : ¬ (g = f ∧ j = i)) : setCell mem f i w g j = mem g j :=
  if_neg h

theorem setCell_row_of_ne (mem : F → I → W) {f g : F} (i : I) (w : W) (h : g ≠ f) :
    setCell mem f i w g = mem g :=
  funext fun _ => if_neg fun hg => h hg.1

variable {fmt : Format F I W} {roots : Set F} {mem : F → I → W}

/-- Writing one word of a table leaves every path that does not pass through
that word at the same cell. -/
theorem node_setCell_elsewhere (hsep : Separated fmt roots mem) {r : F} {q : List I}
    {g : F} (hg : Table fmt roots mem r q g) (i : I) (w : W) {r' : F} (hr' : r' ∈ roots)
    {path : List I} (ha : Admissible fmt path) (hl : path.length ≤ fmt.depth + 1)
    (hnot : ¬ (r' = r ∧ q ++ [i] <+: path)) :
    node fmt.child (setCell mem g i w) r' path = node fmt.child mem r' path := by
  induction path using reverseRecOn with
  | nil => rfl
  | append_singleton path j ih =>
    have hlen : path.length ≤ fmt.depth := by simpa using hl
    have hnot' : ¬ (r' = r ∧ q ++ [i] <+: path) := fun h =>
      hnot ⟨h.1, h.2.trans (prefix_append path [j])⟩
    rw [node_concat, node_concat, ih ha.init (by omega) hnot']
    cases hn : node fmt.child mem r' path with
    | none => rfl
    | some f =>
      -- The last word read is the written one only on the excluded path.
      have hcell : ¬ (f = g ∧ j = i) := by
        rintro ⟨rfl, rfl⟩
        obtain ⟨hroot, hpath⟩ := hsep.table_unique hg ⟨hr', ha.init, hlen, hn⟩
        subst hpath
        exact hnot ⟨hroot.symm, prefix_rfl⟩
      simp [setCell_of_ne mem w hcell]

/-- Below a written word the cells are those below the word's new target. -/
theorem node_setCell_below (hsep : Separated fmt roots mem) {r : F} {q : List I}
    {g : F} (hg : Table fmt roots mem r q g) (i : I) (w : W) (rest : List I) :
    node fmt.child (setCell mem g i w) r (q ++ i :: rest) =
      (fmt.child w).bind fun next => node fmt.child (setCell mem g i w) next rest := by
  have hq : node fmt.child (setCell mem g i w) r q = some g := by
    rw [node_setCell_elsewhere hsep hg i w hg.mem_roots hg.admissible
      (hg.length_le.trans (Nat.le_succ _)), hg.at_path]
    rintro ⟨-, hp⟩
    have := hp.length_le
    simp only [length_append, length_singleton] at this
    omega
  rw [node_append, hq]
  simp [node_cons]

/-- A word written into a last-level table changes the leaf at its own path. -/
theorem node_setCell_last (hsep : Separated fmt roots mem) {r : F} {q : List I}
    {g : F} (hg : Table fmt roots mem r q g) (hq : q.length = fmt.depth) (i : I) (w : W)
    {r' : F} (hr' : r' ∈ roots) {path : List I} (ha : Admissible fmt path)
    (hl : path.length ≤ fmt.depth + 1) :
    node fmt.child (setCell mem g i w) r' path =
      if r' = r ∧ path = q ++ [i] then fmt.child w else node fmt.child mem r' path := by
  by_cases hp : r' = r ∧ path = q ++ [i]
  · obtain ⟨rfl, rfl⟩ := hp
    rw [if_pos ⟨rfl, rfl⟩, node_setCell_below hsep hg i w []]
    simp
  · rw [if_neg hp]
    apply node_setCell_elsewhere hsep hg i w hr' ha hl
    rintro ⟨hroot, hpre⟩
    apply hp
    refine ⟨hroot, (hpre.eq_of_length_le ?_).symm⟩
    simp only [length_append, length_singleton, hq]
    exact hl

/-- Linking an empty cell under an absent word adds exactly that cell. -/
theorem node_setCell_link (hsep : Separated fmt roots mem) {r : F} {q : List I}
    {g : F} (hg : Table fmt roots mem r q g) {i : I} {w : W} {f : F}
    (habsent : fmt.child (mem g i) = none) (hw : fmt.child w = some f) (hfg : f ≠ g)
    (hempty : ∀ j, fmt.child (mem f j) = none)
    {r' : F} (hr' : r' ∈ roots) {path : List I} (ha : Admissible fmt path)
    (hl : path.length ≤ fmt.depth + 1) :
    node fmt.child (setCell mem g i w) r' path =
      if r' = r ∧ path = q ++ [i] then some f else node fmt.child mem r' path := by
  by_cases hpre : r' = r ∧ q ++ [i] <+: path
  · obtain ⟨rfl, rest, rfl⟩ := hpre
    have hnew : node fmt.child (setCell mem g i w) r' (q ++ i :: rest) =
        node fmt.child (setCell mem g i w) f rest := by
      rw [node_setCell_below hsep hg i w rest, hw]
      rfl
    have hold : node fmt.child mem r' (q ++ i :: rest) = none := by
      rw [node_append, hg.at_path]
      simp [node_cons, habsent]
    rw [append_assoc, singleton_append, hnew]
    cases rest with
    | nil => simp
    | cons j rest =>
      have hne : ¬ (r' = r' ∧ q ++ i :: j :: rest = q ++ [i]) := by simp
      rw [if_neg hne, hold, node_cons, setCell_row_of_ne mem i w hfg, hempty]
      rfl
  · rw [node_setCell_elsewhere hsep hg i w hr' ha hl hpre, if_neg]
    rintro ⟨hroot, rfl⟩
    exact hpre ⟨hroot, prefix_rfl⟩

end Writing

end Mmix.Forest
