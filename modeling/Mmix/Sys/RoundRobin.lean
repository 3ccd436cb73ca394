import Mmix.Sys.Edits

/-!
# Round-robin progress

`sched_yield` looks for a runnable task from the slot after the current one
on. The task it finds is not farther away than any task that is ready, so the
cyclic distance from the current slot to a ready task gets smaller with every
call, whatever happens to the other tasks between the calls.
-/

namespace Mmix.Sys

open Mm Fs Proc Kernel

variable {k k' : Kernel} {t : Slot}

/-- The number of places from one slot forward to another one. -/
def slotDistance (c t : Slot) : Nat := (t.val + 64 - c.val) % 64

theorem slotDistance_lt (c t : Slot) : slotDistance c t < 64 := Nat.mod_lt _ (by decide)

theorem slotDistance_pos {c : Slot} (h : t ≠ c) : 0 < slotDistance c t := by
  have hne : t.val ≠ c.val := fun heq => h (Fin.ext heq)
  simp only [slotDistance]
  omega

theorem slotAfter_slotDistance (c t : Slot) : slotAfter c (slotDistance c t) = t := by
  apply Fin.ext
  simp only [slotAfter, slotDistance]
  omega

/-- Going forward by some places makes the distance smaller by as many. -/
theorem slotDistance_slotAfter {c : Slot} {d : Nat} (hd : d ≤ slotDistance c t) :
    slotDistance (slotAfter c d) t = slotDistance c t - d := by
  simp only [slotAfter, slotDistance] at hd ⊢
  omega

/-- The search stops at a runnable task at the latest. -/
theorem pickNext_le (hrun : (k.tasks t).Runnable) (hne : t ≠ k.current) :
    ∃ d, 0 < d ∧ d ≤ slotDistance k.current t ∧ pickNext k = slotAfter k.current d := by
  have hpos := slotDistance_pos hne
  have hlt := slotDistance_lt k.current t
  have hmem : slotDistance k.current t ∈ List.range' 1 64 := by
    rw [List.mem_range'_1]
    omega
  have hfound : (k.tasks (slotAfter k.current (slotDistance k.current t))).Runnable := by
    rwa [slotAfter_slotDistance]
  cases hfind : (List.range' 1 64).find? fun i => (k.tasks (slotAfter k.current i)).Runnable with
  | none =>
    have := List.find?_eq_none.mp hfind _ hmem
    exact absurd (decide_eq_true hfound) this
  | some d =>
    obtain ⟨-, hd, hfirst⟩ := List.find?_range'_eq_some.mp hfind
    rw [List.mem_range'_1] at hd
    refine ⟨d, hd.1, ?_, by rw [pickNext, hfind]⟩
    by_contra hlate
    have := hfirst _ hpos (Nat.lt_of_not_le hlate)
    rw [decide_eq_true hfound] at this
    cases this

/-- A call brings a ready task nearer to the CPU. -/
theorem slotDistance_schedYield (hready : (k.tasks t).state = .ready) (hne : t ≠ k.current) :
    slotDistance (schedYield k).current t < slotDistance k.current t := by
  obtain ⟨d, hpos, hle, hnext⟩ := pickNext_le (Or.inl hready) hne
  rw [schedYield_current, hnext, slotDistance_slotAfter hle]
  exact Nat.sub_lt (Nat.lt_of_lt_of_le hpos hle) hpos

/-- The task has been ready since a first state, and `sched_yield` was called
a number of times. Between the calls anything may happen but a change of the
current task. -/
inductive Waited (t : Slot) : Nat → Kernel → Kernel → Prop
  | start (k : Kernel) (hne : t ≠ k.current) (hready : (k.tasks t).state = .ready) :
      Waited t 0 k k
  | other {n : Nat} {k k₁ : Kernel} (k₂ : Kernel) (h : Waited t n k k₁)
      (hcur : k₂.current = k₁.current) (hready : (k₂.tasks t).state = .ready) : Waited t n k k₂
  | yield {n : Nat} {k k₁ : Kernel} (h : Waited t n k k₁) (hne : t ≠ (schedYield k₁).current)
      (hready : ((schedYield k₁).tasks t).state = .ready) : Waited t (n + 1) k (schedYield k₁)

namespace Waited

theorem ready {n : Nat} (h : Waited t n k k') : (k'.tasks t).state = .ready := by
  cases h <;> assumption

theorem ne_current {n : Nat} (h : Waited t n k k') : t ≠ k'.current := by
  induction h with
  | start k hne hready => exact hne
  | other k₂ h hcur hready ih => exact hcur ▸ ih
  | yield h hne hready ih => exact hne

/-- Each call has brought the task nearer. -/
theorem distance {n : Nat} (h : Waited t n k k') :
    slotDistance k'.current t + n ≤ slotDistance k.current t := by
  induction h with
  | start k hne hready => exact Nat.le_refl _
  | other k₂ h hcur hready ih => exact hcur ▸ ih
  | yield h hne hready ih =>
    have := slotDistance_schedYield h.ready h.ne_current
    omega

end Waited

/-- A move changes the current task only by a call of `sched_yield`, after a
change of the current task alone. -/
theorem Move.current {P : Policy} (h : Move P k k') :
    k'.current = k.current ∨ ∃ f : Task → Task, k' = schedYield (k.modCur f) := by
  cases h with
  | change h => exact Or.inl h.globals.2.2
  | turn h =>
    cases h with
    | yield =>
      right
      refine ⟨id, congrArg schedYield ?_⟩
      simp only [modCur, modTask, setTask, id_eq, Function.update_eq_self]
    | block f => exact Or.inr ⟨f, rfl⟩
    | die status => exact Or.inl (OnlyTables.markZombie _ _).current
    | terminate status =>
      exact Or.inl ((OnlyTables.markZombie _ _).trans (OnlyTables.fdsRelease _)).current
    | kill i =>
      exact Or.inl ((OnlyTables.setTask _ _).trans (OnlyTables.killParked _)).current
    | reap h i =>
      exact Or.inl ((OnlyTables.fdsRelease _).trans (OnlyTables.setTask _ _)).current
    | _ => exact Or.inl rfl

/-- The moves of the machine are among the things that may happen while the
task waits. -/
theorem Waited.move {P : Policy} {n : Nat} {k₁ k₂ : Kernel} (h : Waited t n k k₁)
    (hm : Move P k₁ k₂) (hne : k₂.current ≠ t) (hready : (k₂.tasks t).state = .ready) :
    Waited t n k k₂ ∨ Waited t (n + 1) k k₂ := by
  rcases hm.current with hcur | ⟨f, rfl⟩
  · exact Or.inl (h.other k₂ hcur hready)
  · right
    have hsame : (k₁.modCur f).tasks t = k₁.tasks t := Function.update_of_ne h.ne_current ..
    have hmid : Waited t n k (k₁.modCur f) := by
      apply h.other
      · rfl
      · rw [hsame]
        exact h.ready
    exact hmid.yield hne.symm hready

/-- A call of `sched_yield` makes a ready task current or brings it nearer, so
it becomes current at the 63rd call at the latest. This covers the runs of the
machine, whose steps consist of moves. -/
theorem round_robin_progress (t : Slot) :
    (∀ k : Kernel, t ≠ k.current → (k.tasks t).state = .ready →
      (schedYield k).current = t ∨
        slotDistance (schedYield k).current t < slotDistance k.current t) ∧
    (∀ (n : Nat) (k k' : Kernel), Waited t n k k' →
      n < 63 ∧ (n = 62 → (schedYield k').current = t)) ∧
    ∀ (n : Nat) (k k₁ k₂ : Kernel), Waited t n k k₁ → Move Policy.any k₁ k₂ →
      k₂.current = t ∨ (k₂.tasks t).state ≠ .ready ∨ Waited t n k k₂ ∨ Waited t (n + 1) k k₂ := by
  refine ⟨fun k hne hready => Or.inr (slotDistance_schedYield hready hne), ?_, ?_⟩
  · intro n k k' h
    have hlt := slotDistance_lt k.current t
    have hpos := slotDistance_pos h.ne_current
    have hdist := h.distance
    refine ⟨by omega, fun hn => ?_⟩
    have hnext := slotDistance_schedYield h.ready h.ne_current
    by_contra hne
    have := slotDistance_pos (Ne.symm hne)
    omega
  · intro n k k₁ k₂ h hm
    by_cases hcur : k₂.current = t
    · exact Or.inl hcur
    · by_cases hready : (k₂.tasks t).state = .ready
      · exact Or.inr (Or.inr (h.move hm hcur hready))
      · exact Or.inr (Or.inl hready)

end Mmix.Sys
