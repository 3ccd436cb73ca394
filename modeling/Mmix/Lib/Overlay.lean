import Mathlib

/-!
# Writing lists into a view of memory

A view says what can be read at each address. Writing a list at an address
overlays the view; a list that is shown stays shown under a write that does not
touch it.
-/

namespace Mmix.Overlay

open List

variable {α : Type*}

/-- The view after a list has been written from an address on. -/
def overlay (start : Nat) (xs : List α) (view : Nat → Option α) (a : Nat) : Option α :=
  if start ≤ a ∧ a < start + xs.length then xs[a - start]? else view a

/-- The list can be read from the address on. -/
def Shows (view : Nat → Option α) (start : Nat) (xs : List α) : Prop :=
  ∀ i < xs.length, view (start + i) = xs[i]?

variable {start : Nat} {xs ys : List α} {view view' : Nat → Option α}

theorem overlay_inside {i : Nat} (hi : i < xs.length) :
    overlay start xs view (start + i) = xs[i]? := by
  rw [overlay, if_pos ⟨Nat.le_add_right _ _, Nat.add_lt_add_left hi start⟩,
    Nat.add_sub_cancel_left]

theorem overlay_outside {a : Nat} (h : a < start ∨ start + xs.length ≤ a) :
    overlay start xs view a = view a :=
  if_neg fun hc => by omega

@[simp] theorem overlay_nil : overlay start [] view = view :=
  funext fun _ => overlay_outside (by simp only [length_nil]; omega)

theorem overlay_singleton (x : α) (a : Nat) :
    overlay start [x] view a = if a = start then some x else view a := by
  by_cases ha : a = start
  · have hin : start ≤ a ∧ a < start + [x].length := by
      simp only [length_singleton]
      omega
    rw [if_pos ha, overlay, if_pos hin, ha, Nat.sub_self]
    rfl
  · rw [if_neg ha]
    exact overlay_outside (by simp only [length_singleton]; omega)

/-- Two writes one behind the other are one write. -/
theorem overlay_append (start : Nat) (xs ys : List α) (view : Nat → Option α) :
    overlay (start + xs.length) ys (overlay start xs view) = overlay start (xs ++ ys) view := by
  ext1 a
  simp only [overlay, length_append]
  by_cases hys : start + xs.length ≤ a ∧ a < start + xs.length + ys.length
  · rw [if_pos hys, if_pos (by omega), getElem?_append_right (by omega), Nat.sub_sub]
  · rw [if_neg hys]
    by_cases hxs : start ≤ a ∧ a < start + xs.length
    · rw [if_pos hxs, if_pos (by omega), getElem?_append_left (by omega)]
    · rw [if_neg hxs, if_neg (by omega)]

/-- The same with the second part written first. -/
theorem overlay_append_below (start : Nat) (xs ys : List α) (view : Nat → Option α) :
    overlay start xs (overlay (start + xs.length) ys view) = overlay start (xs ++ ys) view := by
  rw [← overlay_append]
  ext1 a
  simp only [overlay]
  by_cases hxs : start ≤ a ∧ a < start + xs.length
  · rw [if_pos hxs, if_neg (by omega), if_pos hxs]
  · rw [if_neg hxs, if_neg hxs]

theorem overlay_congr {a : Nat} (h : view' a = view a) :
    overlay start xs view' a = overlay start xs view a := by
  rw [overlay, overlay, h]

/-- The view after several lists have been written. -/
def overlays (pieces : List (Nat × List α)) (view : Nat → Option α) : Nat → Option α :=
  pieces.foldl (fun view piece => overlay piece.1 piece.2 view) view

theorem overlays_concat (pieces : List (Nat × List α)) (piece : Nat × List α) :
    overlays (pieces ++ [piece]) view = overlay piece.1 piece.2 (overlays pieces view) := by
  rw [overlays, foldl_append]
  rfl

theorem overlays_congr {pieces : List (Nat × List α)} {a : Nat} (h : view' a = view a) :
    overlays pieces view' a = overlays pieces view a := by
  induction pieces using reverseRecOn with
  | nil => exact h
  | append_singleton pieces piece ih =>
    rw [overlays_concat, overlays_concat]
    exact overlay_congr ih

theorem overlays_outside {pieces : List (Nat × List α)} {a : Nat}
    (h : ∀ piece ∈ pieces, a < piece.1 ∨ piece.1 + piece.2.length ≤ a) :
    overlays pieces view a = view a := by
  induction pieces using reverseRecOn with
  | nil => rfl
  | append_singleton pieces piece ih =>
    rw [overlays_concat, overlay_outside (h piece (by simp))]
    exact ih fun q hq => h q (mem_append_left _ hq)

/-- A written list can be read where all other ones lie elsewhere. -/
theorem overlays_inside {pieces : List (Nat × List α)} {piece : Nat × List α} {i : Nat}
    (hmem : piece ∈ pieces) (hi : i < piece.2.length)
    (hapart : ∀ other ∈ pieces, other = piece ∨
      piece.1 + i < other.1 ∨ other.1 + other.2.length ≤ piece.1 + i) :
    overlays pieces view (piece.1 + i) = piece.2[i]? := by
  induction pieces using reverseRecOn with
  | nil => cases hmem
  | append_singleton pieces last ih =>
    rw [overlays_concat]
    rcases hapart last (by simp) with rfl | hout
    · exact overlay_inside hi
    · rw [overlay_outside hout]
      refine ih ?_ fun other hother => hapart other (mem_append_left _ hother)
      rcases mem_append.mp hmem with hin | hin
      · exact hin
      · -- The last list lies elsewhere, so it is not the one in question.
        obtain rfl := mem_singleton.mp hin
        omega

theorem shows_overlay : Shows (overlay start xs view) start xs :=
  fun _ hi => overlay_inside hi

/-- A write elsewhere leaves a shown list as it is. -/
theorem Shows.overlay {start' : Nat} (h : Shows view start xs)
    (hapart : start + xs.length ≤ start' ∨ start' + ys.length ≤ start) :
    Shows (overlay start' ys view) start xs := by
  intro i hi
  rw [overlay_outside (by omega)]
  exact h i hi

theorem Shows.left (h : Shows view start (xs ++ ys)) : Shows view start xs := by
  intro i hi
  rw [h i (by simp only [length_append]; omega), getElem?_append_left hi]

theorem Shows.right (h : Shows view start (xs ++ ys)) : Shows view (start + xs.length) ys := by
  intro i hi
  rw [Nat.add_assoc, h (xs.length + i) (by simp only [length_append]; omega),
    getElem?_append_right (by omega), Nat.add_sub_cancel_left]

theorem Shows.congr (h : Shows view start xs)
    (heq : ∀ i < xs.length, view' (start + i) = view (start + i)) : Shows view' start xs :=
  fun i hi => (heq i hi).trans (h i hi)

end Mmix.Overlay
