import Mmix.Mm.Mapping

/-!
# Counting the references to a frame

The leaf entries that map a frame, over all address spaces, and how their
number changes when one leaf entry is written.
-/

namespace Mmix.Mm

open Forest Set

/-- The present user-half leaf entries that map a frame, each named by its
address space and its page path. -/
def leafPtes (roots : Set Nat) (mem : PhysMem) (f : Nat) : Set (Nat × List Idx) :=
  {x | Leaf userFormat roots mem x.1 x.2 f}

/-- The number of leaf entries that map a frame. -/
noncomputable def leafCount (roots : Set Nat) (mem : PhysMem) (f : Nat) : Nat :=
  (leafPtes roots mem f).ncard

/-- Every counter of the reference table is the number of leaf entries. -/
def RefsExact (roots : Set Nat) (s : Vm) : Prop :=
  ∀ f < s.refsPages, (s.refs f).toNat = leafCount roots s.mem f

section Count

variable {roots : Set Nat} {mem mem' : PhysMem} {x : Nat × List Idx} {f : Nat}

theorem mem_leafPtes : x ∈ leafPtes roots mem f ↔ Leaf userFormat roots mem x.1 x.2 f := Iff.rfl

theorem leafPtes_finite (hR : roots.Finite) (mem : PhysMem) (f : Nat) :
    (leafPtes roots mem f).Finite := by
  refine (hR.prod (List.finite_length_eq Idx 4)).subset ?_
  rintro ⟨r, p⟩ h
  exact ⟨h.mem_roots, h.length_eq⟩

theorem leafCount_eq_zero (h : ∀ r p, ¬ Leaf userFormat roots mem r p f) :
    leafCount roots mem f = 0 := by
  have hempty : leafPtes roots mem f = ∅ := eq_empty_of_forall_notMem fun x hx => h _ _ hx
  rw [leafCount, hempty, ncard_empty]

theorem leafCount_pos (hR : roots.Finite) {r : Nat} {p : List Idx}
    (h : Leaf userFormat roots mem r p f) : 0 < leafCount roots mem f :=
  (ncard_pos (leafPtes_finite hR mem f)).mpr ⟨(r, p), h⟩

theorem leafCount_congr (h : ∀ r p, Leaf userFormat roots mem' r p f ↔
    Leaf userFormat roots mem r p f) : leafCount roots mem' f = leafCount roots mem f := by
  have : leafPtes roots mem' f = leafPtes roots mem f := ext fun x => h x.1 x.2
  rw [leafCount, leafCount, this]

/-- One leaf entry was written: the leaves elsewhere are the same. -/
structure LeafWrite (roots : Set Nat) (mem mem' : PhysMem) (x : Nat × List Idx)
    (f' : Option Nat) : Prop where
  here : ∀ f, Leaf userFormat roots mem' x.1 x.2 f ↔ f' = some f
  elsewhere : ∀ r p, (r, p) ≠ x → ∀ f, Leaf userFormat roots mem' r p f ↔
    Leaf userFormat roots mem r p f

theorem LeafWrite.of_node {f' : Option Nat} (hr : x.1 ∈ roots)
    (ha : Admissible userFormat x.2) (hl : x.2.length = 4)
    (hnode : ∀ r ∈ roots, ∀ p, Admissible userFormat p → p.length = 4 →
      node child mem' r p = if r = x.1 ∧ p = x.2 then f' else node child mem r p) :
    LeafWrite roots mem mem' x f' := by
  constructor
  · intro f
    have hx := hnode x.1 hr x.2 ha hl
    rw [if_pos ⟨rfl, rfl⟩] at hx
    exact ⟨fun h => hx.symm.trans h.at_path, fun h => ⟨hr, ha, hl, hx.trans h⟩⟩
  · intro r p hne f
    have hnot : ¬ (r = x.1 ∧ p = x.2) := fun h => hne (Prod.ext h.1 h.2)
    constructor
    · intro h
      have heq := hnode r h.mem_roots p h.admissible h.length_eq
      rw [if_neg hnot] at heq
      exact ⟨h.mem_roots, h.admissible, h.length_eq, heq.symm.trans h.at_path⟩
    · intro h
      have heq := hnode r h.mem_roots p h.admissible h.length_eq
      rw [if_neg hnot] at heq
      exact ⟨h.mem_roots, h.admissible, h.length_eq, heq.trans h.at_path⟩

/-- The new target gains the written entry. -/
theorem LeafWrite.count_gain (hR : roots.Finite) {f' : Option Nat}
    (h : LeafWrite roots mem mem' x f') (hnew : f' = some f)
    (hold : ¬ Leaf userFormat roots mem x.1 x.2 f) :
    leafCount roots mem' f = leafCount roots mem f + 1 := by
  have hset : leafPtes roots mem' f = insert x (leafPtes roots mem f) := by
    ext y
    by_cases hy : y = x
    · subst hy
      simp only [mem_leafPtes, mem_insert_iff, true_or, iff_true]
      exact (h.here f).mpr hnew
    · simp only [mem_insert_iff, hy, false_or, mem_leafPtes]
      exact h.elsewhere y.1 y.2 hy f
  have hnot : x ∉ leafPtes roots mem f := hold
  rw [leafCount, hset, ncard_insert_of_notMem hnot (leafPtes_finite hR mem f), leafCount]

/-- The old target loses the written entry. -/
theorem LeafWrite.count_loss (hR : roots.Finite) {f' : Option Nat}
    (h : LeafWrite roots mem mem' x f') (hnew : f' ≠ some f)
    (hold : Leaf userFormat roots mem x.1 x.2 f) :
    leafCount roots mem' f + 1 = leafCount roots mem f := by
  have hset : leafPtes roots mem' f = leafPtes roots mem f \ {x} := by
    ext y
    by_cases hy : y = x
    · subst hy
      simp only [mem_leafPtes, mem_sdiff, mem_singleton_iff, not_true_eq_false,
        and_false, iff_false]
      exact fun hleaf => hnew ((h.here f).mp hleaf)
    · simp only [mem_leafPtes, mem_sdiff, mem_singleton_iff, hy, not_false_eq_true,
        and_true]
      exact h.elsewhere y.1 y.2 hy f
  rw [leafCount, hset, leafCount]
  exact ncard_sdiff_singleton_add_one hold (leafPtes_finite hR mem f)

/-- Every other frame keeps its entries. -/
theorem LeafWrite.count_same {f' : Option Nat} (h : LeafWrite roots mem mem' x f')
    (hnew : f' ≠ some f) (hold : ¬ Leaf userFormat roots mem x.1 x.2 f) :
    leafCount roots mem' f = leafCount roots mem f := by
  apply leafCount_congr
  intro r p
  by_cases hx : (r, p) = x
  · subst hx
    exact ⟨fun hl => absurd ((h.here f).mp hl) hnew, fun hl => absurd hl hold⟩
  · exact h.elsewhere r p hx f

end Count

end Mmix.Mm
