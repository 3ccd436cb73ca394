import Mathlib

/-!
# Segments that tile address ranges

Items occupy segments of an address line. A list of items tiles a range when
each item starts where the one before it stops, from the first address of the
range to the last. A layout is a list of ranges tiled one after the other by
consecutive parts of one item list.
-/

namespace Mmix.Tiling

open List

variable {β : Type*}

/-- A segment of addresses. -/
structure Span where
  start : Nat
  stop : Nat
  deriving DecidableEq, Repr

/-- No address lies in both spans. -/
def Span.Apart (a b : Span) : Prop := a.stop ≤ b.start ∨ b.stop ≤ a.start

instance (a b : Span) : Decidable (a.Apart b) := inferInstanceAs (Decidable (_ ∨ _))

/-- All addresses of the first span lie in the second. -/
def Span.Within (a b : Span) : Prop := b.start ≤ a.start ∧ a.stop ≤ b.stop

instance (a b : Span) : Decidable (a.Within b) := inferInstanceAs (Decidable (_ ∧ _))

theorem Span.Apart.symm {a b : Span} (h : a.Apart b) : b.Apart a := Or.symm h

theorem Span.Apart.mono {a a' b b' : Span} (h : a.Apart b) (ha : a'.Within a)
    (hb : b'.Within b) : a'.Apart b' := by
  unfold Apart Within at *
  omega

theorem Span.Within.trans {a b c : Span} (h : a.Within b) (h' : b.Within c) : a.Within c :=
  ⟨h'.1.trans h.1, h.2.trans h'.2⟩

/-- Spans that are not empty and have no common address are apart. -/
theorem Span.apart_of_disjoint {a b : Span} (ha : a.start < a.stop) (hb : b.start < b.stop)
    (h : ∀ x, a.start ≤ x → x < a.stop → ¬ (b.start ≤ x ∧ x < b.stop)) : a.Apart b := by
  by_contra hnot
  simp only [Apart, not_or, not_le] at hnot
  rcases Nat.le_total a.start b.start with hle | hle
  · exact h b.start hle hnot.1 ⟨Nat.le_refl _, hb⟩
  · exact h a.start (Nat.le_refl _) ha ⟨hle, hnot.2⟩

/-- Items that are apart stay so when one of them is cut into pieces. -/
theorem pairwise_apart_replace {span : β → Span} {pre post mid : List β} {b : β}
    (h : (pre ++ b :: post).Pairwise fun x y => (span x).Apart (span y))
    (hmid : mid.Pairwise fun x y => (span x).Apart (span y))
    (hin : ∀ x ∈ mid, (span x).Within (span b)) :
    (pre ++ mid ++ post).Pairwise fun x y => (span x).Apart (span y) := by
  obtain ⟨hpre, hrest, hcross⟩ := pairwise_append.mp h
  obtain ⟨hb, hpost⟩ := pairwise_cons.mp hrest
  have hself (x : β) : (span x).Within (span x) := ⟨Nat.le_refl _, Nat.le_refl _⟩
  rw [append_assoc]
  refine pairwise_append.mpr ⟨hpre, pairwise_append.mpr ⟨hmid, hpost, ?_⟩, ?_⟩
  · intro x hx y hy
    exact (hb y hy).mono (hin x hx) (hself y)
  · intro x hx y hy
    rcases mem_append.mp hy with hy | hy
    · exact (hcross x hx b mem_cons_self).mono (hself x) (hin y hy)
    · exact hcross x hx y (mem_cons_of_mem _ hy)

/-- The items cover the addresses from `a` to `c` in order and without gaps. -/
def Tiles (span : β → Span) : Nat → List β → Nat → Prop
  | a, [], c => a = c
  | a, b :: bs, c => (span b).start = a ∧ a ≤ (span b).stop ∧ Tiles span (span b).stop bs c

/-- Consecutive parts of the item list tile the given ranges. -/
inductive Layout (span : β → Span) : List Span → List β → Prop
  | nil : Layout span [] []
  | cons {r : Span} {rs : List Span} {bs rest : List β} (hne : bs ≠ [])
      (htiles : Tiles span r.start bs r.stop) (hrest : Layout span rs rest) :
      Layout span (r :: rs) (bs ++ rest)

section Tiles

variable {span : β → Span} {a c : Nat} {bs : List β}

theorem Tiles.le (h : Tiles span a bs c) : a ≤ c := by
  induction bs generalizing a with
  | nil => exact Nat.le_of_eq h
  | cons b bs ih => exact h.2.1.trans (ih h.2.2)

theorem tiles_append {bs' : List β} :
    Tiles span a (bs ++ bs') c ↔ ∃ m, Tiles span a bs m ∧ Tiles span m bs' c := by
  induction bs generalizing a with
  | nil => simp [Tiles]
  | cons b bs ih =>
    simp only [cons_append, Tiles, ih]
    constructor
    · rintro ⟨h₁, h₂, m, h₃, h₄⟩
      exact ⟨m, ⟨h₁, h₂, h₃⟩, h₄⟩
    · rintro ⟨m, ⟨h₁, h₂, h₃⟩, h₄⟩
      exact ⟨h₁, h₂, m, h₃, h₄⟩

theorem Tiles.map {f : β → β} (hf : ∀ b, span (f b) = span b) (h : Tiles span a bs c) :
    Tiles span a (bs.map f) c := by
  induction bs generalizing a with
  | nil => exact h
  | cons b bs ih =>
    simp only [map_cons, Tiles, hf]
    exact ⟨h.1, h.2.1, ih h.2.2⟩

theorem Tiles.within (h : Tiles span a bs c) {b : β} (hb : b ∈ bs) :
    (span b).Within ⟨a, c⟩ := by
  induction bs generalizing a with
  | nil => cases hb
  | cons b' bs ih =>
    obtain ⟨hs, hle, hrest⟩ := h
    rcases mem_cons.mp hb with rfl | hb
    · exact ⟨hs.ge, hrest.le⟩
    · have := ih hrest hb
      exact ⟨hle.trans this.1, this.2⟩

theorem Tiles.pairwise_apart (h : Tiles span a bs c) :
    bs.Pairwise fun b b' => (span b).Apart (span b') := by
  induction bs generalizing a with
  | nil => exact List.Pairwise.nil
  | cons b bs ih =>
    refine pairwise_cons.mpr ⟨fun b' hb' => ?_, ih h.2.2⟩
    exact Or.inl (h.2.2.within hb').1

end Tiles

section Layout

variable {span : β → Span} {rs : List Span} {bs : List β}

/-- Every item lies within one of the ranges. -/
theorem Layout.within (h : Layout span rs bs) {b : β} (hb : b ∈ bs) :
    ∃ r ∈ rs, (span b).Within r := by
  induction h with
  | nil => cases hb
  | cons _ htiles _ ih =>
    rcases mem_append.mp hb with hb | hb
    · exact ⟨_, mem_cons_self, htiles.within hb⟩
    · obtain ⟨r, hr, hw⟩ := ih hb
      exact ⟨r, mem_cons_of_mem _ hr, hw⟩

/-- Items of a layout over separate ranges are pairwise apart. -/
theorem Layout.pairwise_apart (h : Layout span rs bs) (hrs : rs.Pairwise Span.Apart) :
    bs.Pairwise fun b b' => (span b).Apart (span b') := by
  induction h with
  | nil => exact List.Pairwise.nil
  | cons _ htiles hrest ih =>
    obtain ⟨hr, hrs⟩ := pairwise_cons.mp hrs
    refine pairwise_append.mpr ⟨htiles.pairwise_apart, ih hrs, ?_⟩
    intro b hb b' hb'
    obtain ⟨r', hr', hw⟩ := hrest.within hb'
    exact (hr r' hr').mono (htiles.within hb) hw

/-- Changing items without moving them keeps the layout. -/
theorem Layout.map {f : β → β} (hf : ∀ b, span (f b) = span b) (h : Layout span rs bs) :
    Layout span rs (bs.map f) := by
  induction h with
  | nil => exact Layout.nil
  | cons hne htiles _ ih =>
    rw [map_append]
    exact Layout.cons (by simpa using hne) (htiles.map hf) ih

/-- A new range covered by one item extends the layout. -/
theorem Layout.snoc (h : Layout span rs bs) {b : β} (hb : (span b).start ≤ (span b).stop) :
    Layout span (rs ++ [span b]) (bs ++ [b]) := by
  induction h with
  | nil =>
    have htiles : Tiles span (span b).start [b] (span b).stop := ⟨rfl, hb, rfl⟩
    simpa using Layout.cons (cons_ne_nil b []) htiles Layout.nil
  | cons hne htiles _ ih =>
    rw [append_assoc]
    exact Layout.cons hne htiles ih

/-- One item may be replaced by items that tile its span. -/
theorem Layout.replace {pre post mid : List β} {b : β}
    (h : Layout span rs (pre ++ b :: post)) (hne : mid ≠ [])
    (hmid : Tiles span (span b).start mid (span b).stop) :
    Layout span rs (pre ++ mid ++ post) := by
  generalize hbs : pre ++ b :: post = bs at h
  induction h generalizing pre with
  | nil => simp at hbs
  | @cons r rs seg rest hseg htiles hrest ih =>
    -- The replaced item is in the first part or in one of the later parts.
    rcases append_eq_append_iff.mp hbs with ⟨as, hsegs, htail⟩ | ⟨as, hpre, htail⟩
    · cases as with
      | nil =>
        simp only [append_nil] at hsegs
        simp only [nil_append] at htail
        have := @ih [] htail
        rw [hsegs] at hseg htiles
        rw [append_assoc]
        exact Layout.cons hseg htiles (by simpa using this)
      | cons b' as =>
        obtain ⟨rfl, rfl⟩ := cons.inj htail
        rw [hsegs] at htiles
        obtain ⟨m, h₁, hb, hle, h₂⟩ := tiles_append.mp htiles
        subst hb
        have htiles' : Tiles span r.start (pre ++ mid ++ as) r.stop :=
          tiles_append.mpr ⟨_, tiles_append.mpr ⟨_, h₁, hmid⟩, h₂⟩
        have hne' : pre ++ mid ++ as ≠ [] := by simp [hne]
        have heq : pre ++ mid ++ (as ++ rest) = pre ++ mid ++ as ++ rest := by simp
        exact heq ▸ Layout.cons hne' htiles' hrest
    · have := ih htail.symm
      rw [hpre, append_assoc, append_assoc]
      exact Layout.cons hseg htiles (by simpa using this)

end Layout

end Mmix.Tiling
