import Mmix.Lib.Walk
import Mmix.Mm.OwnedOps

/-!
# Taking an address space apart

`pmap_destroy` walks the user half of a tree and gives back every page and
every table, without writing to memory. So it is a fold over the list of the
frames that the walk visits, and its effect is read off that list.
-/

namespace Mmix.Mm

open Forest List

variable {K E R : Set Nat} {s s' : Vm}

/-- What happens to one visited frame: a page below the last table level loses
a reference, a table is freed. -/
def giveBack (level : Nat) (s : Vm) (x : List Idx × Nat) : Vm :=
  if x.1.length = level + 1 then destroyLeaf s (physOf x.2) else freeFrame s x.2

/-- The frames below a table in the order in which they are given back. -/
abbrev visited (mem : PhysMem) (level table : Nat) (entries : List Idx) : List (List Idx × Nat) :=
  postorder child mem (List.finRange 512) level table entries

theorem destroyLeaf_mem (s : Vm) (pa : Word) : (destroyLeaf s pa).mem = s.mem :=
  (Releases.destroyLeaf (Set.mem_univ (frameOf pa))).mem

theorem giveBack_mem (level : Nat) (s : Vm) (x : List Idx × Nat) :
    (giveBack level s x).mem = s.mem := by
  unfold giveBack
  split
  · exact destroyLeaf_mem s _
  · rfl

theorem foldl_giveBack_mem (level : Nat) (xs : List (List Idx × Nat)) (s : Vm) :
    (xs.foldl (giveBack level) s).mem = s.mem := by
  induction xs generalizing s with
  | nil => rfl
  | cons x xs ih => exact (ih _).trans (giveBack_mem level s x)

/-- A loop over entries whose body agrees with the walk on unchanged memory. -/
theorem foldl_visit {level table : Nat} {mem : PhysMem} {below : Nat → List (List Idx × Nat)}
    {body : Vm → Idx → Vm}
    (hbody : ∀ s i, s.mem = mem →
      body s i = (visit child mem below table i).foldl (giveBack level) s)
    (entries : List Idx) (s : Vm) (hs : s.mem = mem) : entries.foldl body s =
      (entries.flatMap (visit child mem below table)).foldl (giveBack level) s := by
  rw [foldl_flatMap]
  induction entries generalizing s with
  | nil => rfl
  | cons i entries ih =>
    rw [foldl_cons, foldl_cons, hbody s i hs]
    exact ih _ ((foldl_giveBack_mem level _ s).trans hs)

/-- The loops of `pmap_destroy` go through the visited frames. -/
theorem destroyLevel_eq (level table : Nat) (entries : List Idx) (s : Vm) :
    destroyLevel level table entries s =
      (visited s.mem level table entries).foldl (giveBack level) s := by
  induction level generalizing table entries s with
  | zero =>
    refine foldl_visit (fun s₁ i hs => ?_) entries s rfl
    dsimp only
    unfold visit
    rw [← hs]
    by_cases hp : s₁.mem table i &&& ptePresent = 0
    · rw [if_pos hp, child_eq_none.mpr hp]
      rfl
    · rw [if_neg hp, child_eq_some hp, and_pteAddrMask_eq]
      rfl
  | succ level ih =>
    refine foldl_visit (fun s₁ i hs => ?_) entries s rfl
    dsimp only
    unfold visit
    rw [← hs]
    by_cases hp : s₁.mem table i &&& ptePresent = 0
    · rw [if_pos hp, child_eq_none.mpr hp]
      rfl
    · rw [if_neg hp, child_eq_some hp, ih]
      simp only [foldl_append, foldl_map, foldl_cons, foldl_nil]
      have hcons : (fun s (x : List Idx × Nat) => giveBack (level + 1) s (i :: x.1, x.2)) =
          giveBack level := by
        funext s x
        simp only [giveBack, length_cons, Nat.add_right_cancel_iff]
      rw [hcons]
      simp only [giveBack, length_singleton, if_neg (show ¬ (1 = level + 1 + 1) by omega)]

theorem pmapDestroy_eq (s : Vm) (pml4Phys : Word) :
    pmapDestroy s pml4Phys = freeFrame
      ((visited s.mem 3 (frameOf pml4Phys) userEntries).foldl (giveBack 3) s)
      (frameOf pml4Phys) := by
  unfold pmapDestroy
  rw [destroyLevel_eq]

theorem mem_userEntries {i : Idx} : i ∈ userEntries ↔ i ∈ userFormat.top := by
  simp [userEntries, userFormat]

/-- The frames that `pmap_destroy` visits are those below its root. -/
theorem mem_visited {r : Nat} (hr : r ∈ R) {p : List Idx} {f : Nat} :
    (p, f) ∈ visited s.mem 3 r userEntries ↔ p ≠ [] ∧ Reach userFormat R s.mem 4 r p f := by
  rw [visited, mem_postorder mem_finRange]
  constructor
  · rintro ⟨⟨i, hi, hp⟩, hl, hn⟩
    refine ⟨?_, hr, fun j hj => ?_, hl, hn⟩
    · rintro rfl
      cases hp
    · rw [hp] at hj
      cases hj
      exact mem_userEntries.mp hi
  · rintro ⟨hne, hreach⟩
    obtain ⟨i, q, rfl⟩ := exists_cons_of_ne_nil hne
    refine ⟨⟨i, mem_userEntries.mpr (hreach.admissible i rfl), rfl⟩, hreach.length_le, ?_⟩
    exact hreach.at_path

/-- Giving back a list of pages and of tables without references. -/
theorem foldl_giveBack_releases {D : Set Nat} {xs : List (List Idx × Nat)}
    (hx : ∀ x ∈ xs, x.2 ∈ D ∧ x.2 < 2 ^ 40 ∧ (x.1.length ≠ 4 → s.refs x.2 = 0)) :
    Releases D s (xs.foldl (giveBack 3) s) := by
  induction xs generalizing s with
  | nil => exact Releases.refl D s
  | cons x xs ih =>
    obtain ⟨hD, hlt, hz⟩ := hx x mem_cons_self
    have hone : Releases D s (giveBack 3 s x) := by
      unfold giveBack
      by_cases hl : x.1.length = 4
      · rw [if_pos hl]
        exact Releases.destroyLeaf (by rw [frameOf_physOf hlt]; exact hD)
      · rw [if_neg hl]
        exact Releases.freeFrame hD (hz hl)
    refine hone.trans (ih fun y hy => ?_)
    obtain ⟨hD', hlt', hz'⟩ := hx y (mem_cons_of_mem x hy)
    exact ⟨hD', hlt', fun hl => hone.zero y.2 (hz' hl)⟩

namespace Owned

/-- The frames of an address space are given back, and the others keep theirs. -/
theorem pmapDestroy {pml4Phys : Word} (h : Owned K E R s) (hr : frameOf pml4Phys ∈ R) :
    Owned K E (R \ {frameOf pml4Phys}) (pmapDestroy s pml4Phys) := by
  have hrel : Releases {f | ∃ p, Reach userFormat R s.mem 4 (frameOf pml4Phys) p f} s
      (Mm.pmapDestroy s pml4Phys) := by
    rw [pmapDestroy_eq]
    have hfold := @foldl_giveBack_releases s
      {f | ∃ p, Reach userFormat R s.mem 4 (frameOf pml4Phys) p f}
      (visited s.mem 3 (frameOf pml4Phys) userEntries) fun x hx => by
        obtain ⟨hne, hreach⟩ := (mem_visited hr).mp hx
        refine ⟨⟨x.1, hreach⟩, node_lt hne hreach.at_path, fun hl => ?_⟩
        have hle : x.1.length ≤ 3 := by
          have := hreach.length_le
          omega
        exact h.table_refs ⟨hr, hreach.admissible, hle, hreach.at_path⟩
    have hroot := h.table_refs (root_table hr)
    exact hfold.trans (Releases.freeFrame ⟨[], (root_table hr).weaken (by decide)⟩
      (hfold.zero _ hroot))
  refine h.of_releases hrel Set.sdiff_subset ?_
  rintro f ⟨p, hp⟩
  refine ⟨fun r q hq => ?_, fun hK => (h.held f hK).2.1 _ _ hp⟩
  -- The same frame below another root contradicts separation.
  have hq' : Reach userFormat R s.mem 4 r q f := hq.of_mem hq.mem_roots.1
  refine hq.mem_roots.2 ?_
  rcases hp.table_or_leaf with ht | hl
  · rcases hq'.table_or_leaf with ht' | hl'
    · exact (h.separated.table_unique ht' ht).1
    · exact absurd hl' (h.separated.leaf_ne_table ht)
  · rcases hq'.table_or_leaf with ht' | hl'
    · exact absurd hl (h.separated.leaf_ne_table ht')
    · exact (h.single hl' hl).1

end Owned

end Mmix.Mm
