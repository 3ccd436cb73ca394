import Mathlib

/-!
# Cursors

A loop that moves a position along until it stops. When the position never
goes back and every move starts below a bound, the loop ends exactly when it
comes to no position that moves to itself.
-/

namespace Mmix.Cursor

variable {next : Nat → Option Nat} {a b fuel : Nat}

/-- The positions the loop comes to. -/
abbrev Reaches (next : Nat → Option Nat) : Nat → Nat → Prop :=
  Relation.ReflTransGen fun a b => next a = some b

/-- The loop ends within a number of passes. -/
def StopsIn (next : Nat → Option Nat) : Nat → Nat → Prop
  | 0, _ => False
  | fuel + 1, a =>
    match next a with
    | none => True
    | some b => StopsIn next fuel b

theorem stopsIn_of_none (h : next a = none) : StopsIn next (fuel + 1) a := by
  rw [StopsIn, h]
  trivial

theorem stopsIn_of_some (h : next a = some b) :
    StopsIn next (fuel + 1) a ↔ StopsIn next fuel b := by
  rw [StopsIn, h]

theorem StopsIn.mono {fuel' : Nat} (h : StopsIn next fuel a) (hle : fuel ≤ fuel') :
    StopsIn next fuel' a := by
  induction fuel generalizing a fuel' with
  | zero => exact h.elim
  | succ fuel ih =>
    obtain ⟨k, rfl⟩ := Nat.exists_eq_add_of_le hle
    rw [Nat.add_right_comm]
    cases hnext : next a with
    | none => exact stopsIn_of_none hnext
    | some b =>
      rw [stopsIn_of_some hnext] at h ⊢
      exact ih h (Nat.le_add_right fuel k)

theorem not_stopsIn_of_fixed (h : next a = some a) (fuel : Nat) : ¬ StopsIn next fuel a := by
  induction fuel with
  | zero => exact fun hs => hs
  | succ fuel ih => exact fun hs => ih ((stopsIn_of_some h).mp hs)

theorem not_stopsIn_of_reaches (hr : Reaches next a b) (hb : next b = some b) (fuel : Nat) :
    ¬ StopsIn next fuel a := by
  intro hs
  have hall : ∀ {a b : Nat}, Reaches next a b → ∀ fuel, StopsIn next fuel a →
      ∃ fuel, StopsIn next fuel b := by
    intro a b hr
    induction hr with
    | refl => exact fun fuel h => ⟨fuel, h⟩
    | tail _ hnext ih =>
      intro fuel h
      obtain ⟨k, hk⟩ := ih fuel h
      cases k with
      | zero => exact hk.elim
      | succ k => exact ⟨k, (stopsIn_of_some hnext).mp hk⟩
  obtain ⟨k, hk⟩ := hall hr fuel hs
  exact not_stopsIn_of_fixed hb k hk

/-- The loop ends exactly when it comes to no position that moves to itself. -/
theorem stops_iff (size : Nat) (hmono : ∀ a b, next a = some b → a ≤ b)
    (hbound : ∀ a b, next a = some b → a < size) (a : Nat) :
    (∃ fuel, StopsIn next fuel a) ↔ ∀ b, Reaches next a b → next b ≠ some b := by
  constructor
  · rintro ⟨fuel, hs⟩ b hr hb
    exact not_stopsIn_of_reaches hr hb fuel hs
  · intro hfree
    -- The distance to the bound decreases.
    have hdist : ∀ dist a, size - a ≤ dist → (∀ b, Reaches next a b → next b ≠ some b) →
        StopsIn next (dist + 1) a := by
      intro dist
      induction dist with
      | zero =>
        intro a hle _
        cases hnext : next a with
        | none => exact stopsIn_of_none hnext
        | some b => exact absurd (hbound a b hnext) (by omega)
      | succ dist ih =>
        intro a hle hfree
        cases hnext : next a with
        | none => exact stopsIn_of_none hnext
        | some b =>
          have hab := hmono a b hnext
          have hne : a ≠ b := fun he => hfree a .refl (he ▸ hnext)
          have hlt := hbound a b hnext
          rw [stopsIn_of_some hnext]
          exact ih b (by omega) fun c hc => hfree c (.head hnext hc)
    exact ⟨_, hdist _ a (Nat.le_refl _) hfree⟩

end Mmix.Cursor
