import Mmix.Lib.Forest

/-!
# Walks through a forest

A nested loop over the entries of a table visits every cell below it, the
cells below an entry before the entry itself. The walk is listed with the
path of every cell, so that no cell is listed twice unless two paths lead to
it.
-/

namespace Mmix.Forest

open List

variable {F I W : Type*}

section Definition

variable (child : W → Option F) (mem : F → I → W)

/-- The cells at and below one entry, given the walk below its target. -/
def visit (below : F → List (List I × F)) (table : F) (i : I) : List (List I × F) :=
  match child (mem table i) with
  | none => []
  | some f => (below f).map (fun x => (i :: x.1, x.2)) ++ [([i], f)]

/-- The cells below the given entries of a table, with their paths. The tables
below are visited at all their entries. -/
def postorder (all : List I) : Nat → F → List I → List (List I × F)
  | 0, table, entries => entries.flatMap (visit child mem (fun _ => []) table)
  | level + 1, table, entries =>
    entries.flatMap (visit child mem (fun f => postorder all level f all) table)

end Definition

variable {child : W → Option F} {mem : F → I → W} {all : List I}

theorem mem_visit {below : F → List (List I × F)} {table : F} {i : I} {p : List I} {f : F} :
    (p, f) ∈ visit child mem below table i ↔ ∃ g, child (mem table i) = some g ∧
      ((p = [i] ∧ f = g) ∨ ∃ q, p = i :: q ∧ (q, f) ∈ below g) := by
  unfold visit
  cases child (mem table i) with
  | none => simp
  | some g =>
    constructor
    · intro hx
      refine ⟨g, rfl, ?_⟩
      rcases mem_append.mp hx with hx | hx
      · obtain ⟨⟨q, f'⟩, hq, heq⟩ := mem_map.mp hx
        cases heq
        exact Or.inr ⟨q, rfl, hq⟩
      · exact Or.inl (Prod.mk.inj (mem_singleton.mp hx))
    · rintro ⟨g', hg, hx⟩
      cases hg
      apply mem_append.mpr
      rcases hx with ⟨rfl, rfl⟩ | ⟨q, rfl, hq⟩
      · exact Or.inr (mem_singleton_self _)
      · exact Or.inl (mem_map.mpr ⟨(q, f), hq, rfl⟩)

/-- Every visited cell lies at a path through one of the entries. -/
theorem postorder_head {level : Nat} {table : F} {entries : List I} {p : List I} {f : F}
    (h : (p, f) ∈ postorder child mem all level table entries) :
    ∃ i ∈ entries, p.head? = some i := by
  have key {below : F → List (List I × F)}
      (hx : (p, f) ∈ entries.flatMap (visit child mem below table)) :
      ∃ i ∈ entries, p.head? = some i := by
    obtain ⟨i, hi, hx⟩ := mem_flatMap.mp hx
    obtain ⟨g, -, ⟨rfl, -⟩ | ⟨q, rfl, -⟩⟩ := mem_visit.mp hx
    · exact ⟨i, hi, rfl⟩
    · exact ⟨i, hi, rfl⟩
  cases level with
  | zero => exact key h
  | succ level => exact key h

/-- The walk visits the cells at the paths through the given entries. -/
theorem mem_postorder (hall : ∀ i, i ∈ all) {level : Nat} {table : F} {entries : List I}
    {p : List I} {f : F} : (p, f) ∈ postorder child mem all level table entries ↔
      (∃ i ∈ entries, p.head? = some i) ∧ p.length ≤ level + 1 ∧
        node child mem table p = some f := by
  induction level generalizing table entries p f with
  | zero =>
    constructor
    · intro h
      obtain ⟨i, hi, hx⟩ := mem_flatMap.mp h
      obtain ⟨g, hc, ⟨rfl, rfl⟩ | ⟨q, -, hq⟩⟩ := mem_visit.mp hx
      · exact ⟨⟨i, hi, rfl⟩, le_rfl, by rw [node_cons, hc]; rfl⟩
      · cases hq
    · rintro ⟨⟨i, hi, hp⟩, hl, hn⟩
      obtain ⟨q, rfl⟩ := head?_eq_some_iff.mp hp
      obtain rfl : q = [] := length_eq_zero_iff.mp (Nat.le_zero.mp (Nat.le_of_succ_le_succ hl))
      rw [node_cons, Option.bind_eq_some_iff] at hn
      obtain ⟨g, hc, hg⟩ := hn
      exact mem_flatMap.mpr
        ⟨i, hi, mem_visit.mpr ⟨g, hc, Or.inl ⟨rfl, (Option.some.inj hg).symm⟩⟩⟩
  | succ level ih =>
    constructor
    · intro h
      obtain ⟨i, hi, hx⟩ := mem_flatMap.mp h
      obtain ⟨g, hc, ⟨rfl, rfl⟩ | ⟨q, rfl, hq⟩⟩ := mem_visit.mp hx
      · exact ⟨⟨i, hi, rfl⟩, Nat.succ_le_succ (Nat.zero_le _), by rw [node_cons, hc]; rfl⟩
      · obtain ⟨-, hl, hn⟩ := ih.mp hq
        exact ⟨⟨i, hi, rfl⟩, Nat.succ_le_succ hl, by rw [node_cons, hc]; exact hn⟩
    · rintro ⟨⟨i, hi, hp⟩, hl, hn⟩
      obtain ⟨q, rfl⟩ := head?_eq_some_iff.mp hp
      rw [node_cons, Option.bind_eq_some_iff] at hn
      obtain ⟨g, hc, hg⟩ := hn
      refine mem_flatMap.mpr ⟨i, hi, mem_visit.mpr ⟨g, hc, ?_⟩⟩
      cases q with
      | nil => exact Or.inl ⟨rfl, (Option.some.inj hg).symm⟩
      | cons j q =>
        refine Or.inr ⟨j :: q, rfl, ih.mpr ⟨⟨j, hall j, rfl⟩, ?_, hg⟩⟩
        exact Nat.le_of_succ_le_succ hl

/-- No path is visited twice. -/
theorem nodup_postorder (hall : all.Nodup) {level : Nat} {table : F} {entries : List I}
    (he : entries.Nodup) :
    ((postorder child mem all level table entries).map Prod.fst).Nodup := by
  -- The paths below different entries differ in their first index.
  have key {below : F → List (List I × F)} {table : F} {entries : List I} (he : entries.Nodup)
      (hne : ∀ g f, ([], f) ∉ below g) (hb : ∀ g, ((below g).map Prod.fst).Nodup) :
      ((entries.flatMap (visit child mem below table)).map Prod.fst).Nodup := by
    rw [map_flatMap, nodup_flatMap]
    refine ⟨fun i _ => ?_, he.imp fun {i j} hij => ?_⟩
    · unfold visit
      cases child (mem table i) with
      | none => exact nodup_nil
      | some g =>
        rw [map_append, nodup_append, map_map]
        refine ⟨?_, nodup_singleton _, ?_⟩
        · have := (hb g).map (cons_injective (a := i))
          rwa [map_map] at this
        · rintro p hp _ hq rfl
          obtain ⟨⟨q, f⟩, hx, hxp⟩ := mem_map.mp hp
          rw [mem_singleton.mp hq] at hxp
          obtain rfl := (cons.inj hxp).2
          exact hne g f hx
    · intro p hp hq
      obtain ⟨⟨q, f⟩, hx, rfl⟩ := mem_map.mp hp
      obtain ⟨⟨q', f'⟩, hx', hqq⟩ := mem_map.mp hq
      obtain rfl : q' = q := hqq
      have hhead {i : I} {f : F} (h : (q', f) ∈ visit child mem below table i) :
          q'.head? = some i := by
        obtain ⟨g, -, ⟨rfl, -⟩ | ⟨r, rfl, -⟩⟩ := mem_visit.mp h
        · rfl
        · rfl
      exact hij (Option.some.inj ((hhead hx).symm.trans (hhead hx')))
  induction level generalizing table entries with
  | zero => exact key he (fun _ _ h => by cases h) fun _ => nodup_nil
  | succ level ih =>
    refine key he (fun g f h => ?_) fun g => ih hall
    obtain ⟨i, -, hi⟩ := postorder_head h
    cases hi

end Mmix.Forest
