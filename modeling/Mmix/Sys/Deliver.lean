import Mmix.Sys.Signal

/-!
# Which signal is delivered

`deliver_signals` takes the pending signals from the lowest upwards. Those that
are ignored, or harmless by default, are dropped; the first other one ends the
task or leads to its handler, and the signals above it stay pending.
-/

namespace Mmix.Sys

open Proc Kernel Stack List BitVec

/-- The signal is pending, and it ends the task or has a handler. -/
def acts (t : Task) (sig : Sig) : Bool :=
  t.sigPending.getLsbD sig && t.sigHandler sig != sigIgn &&
    (t.sigHandler sig != sigDfl || fatalSig sig)

/-- The signals below a number are no longer pending. -/
def keepFrom (n : Nat) (t : Task) : Task := { t with sigPending := t.sigPending >>> n <<< n }

/-- The purpose of `deliver_signals`: the lowest signal that acts is served. -/
def delivery (k : Kernel) (m : Memory) : Delivery × Kernel × Memory :=
  match (finRange 32).find? (acts k.cur) with
  | none => (.nothing, k.modCur (keepFrom 32), m)
  | some sig =>
    let handler := k.cur.sigHandler sig
    if handler = sigDfl then (.terminated, terminateCurrent (k.modCur (keepFrom sig)) sig, m)
    else
      let frame := (k.cpu.rsp - 64) &&& ~~~0xF
      let k' := k.modCur (keepFrom (sig + 1))
      (.handler frame, { k' with cpu := { k.cpu with rip := handler, rsp := frame + 16 } },
        putFrame m frame k.cpu)

variable {k : Kernel} {m : Memory} {t t' : Task} {n : Nat}

theorem find_sig {p : Sig → Bool} {sig : Sig} :
    (finRange 32).find? p = some sig ↔ p sig = true ∧ ∀ i < sig, p i = false := by
  rw [← Fin.find?_eq_find?_finRange, Fin.find?_eq_some_iff]

theorem getLsbD_keepFrom (i : Sig) :
    (keepFrom n t).sigPending.getLsbD i = (t.sigPending.getLsbD i && decide (n ≤ i)) := by
  by_cases h : n ≤ i <;> simp [keepFrom, h, i.isLt, Nat.not_lt.mpr, not_le.mp]

theorem getLsbD_clearSig (sig i : Sig) :
    (clearSig t sig).sigPending.getLsbD i = (t.sigPending.getLsbD i && decide (i.val ≠ sig)) := by
  change (t.sigPending &&& ~~~(1#32 <<< sig.val)).getLsbD i = _
  rw [← twoPow_eq, getLsbD_and, getLsbD_not, getLsbD_twoPow]
  grind

theorem ext_pending (hrest : { t with sigPending := t'.sigPending } = t')
    (h : ∀ i : Sig, t.sigPending.getLsbD i = t'.sigPending.getLsbD i) : t = t' := by
  rw [← hrest, ← eq_of_getLsbD_eq fun i hi => h ⟨i, hi⟩]

theorem keepFrom_eq {n' : Nat} (hle : n ≤ n')
    (h : ∀ i : Sig, n ≤ i → i < n' → t.sigPending.getLsbD i = false) :
    keepFrom n t = keepFrom n' t := by
  refine ext_pending rfl fun i => ?_
  rw [getLsbD_keepFrom, getLsbD_keepFrom]
  by_cases hi : n ≤ i ∧ i < n'
  · rw [h i hi.1 hi.2]
    rfl
  · rw [decide_eq_decide.mpr (by omega : n ≤ i ↔ n' ≤ i)]

theorem clearSig_keepFrom (sig : Sig) : clearSig (keepFrom sig t) sig = keepFrom (sig + 1) t := by
  refine ext_pending rfl fun i => ?_
  rw [getLsbD_clearSig, getLsbD_keepFrom, getLsbD_keepFrom, Bool.and_assoc, ← Bool.decide_and]
  rw [decide_eq_decide.mpr (by omega : sig.val ≤ i ∧ i.val ≠ sig ↔ sig.val + 1 ≤ i)]

theorem setTask_modCur (f : Task → Task) :
    (k.setTask k.current t).modCur f = k.setTask k.current (f t) := by
  simp only [Kernel.modCur, modTask, setTask, Function.update_self, Function.update_idem]

/-- The loop with the signals below `n` behind it, none of which acts. -/
theorem deliverFrames_from {fuel : Nat} (hfuel : 33 ≤ fuel + n) (hn : n ≤ 32)
    (hbelow : ∀ i : Sig, i < n → acts k.cur i = false) :
    deliverFrames fuel (k.setTask k.current (keepFrom n k.cur)) m = delivery k m := by
  induction fuel generalizing n with
  | zero => omega
  | succ fuel ih =>
    -- What is no longer pending does not act, whether it is above `n` or behind.
    have hskip (i : Sig) (h : (keepFrom n k.cur).sigPending.getLsbD i = false) :
        acts k.cur i = false ∧ (n ≤ i → k.cur.sigPending.getLsbD i = false) := by
      by_cases hi : n ≤ i
      · rw [getLsbD_keepFrom, decide_eq_true hi, Bool.and_true] at h
        rw [acts, h]
        exact ⟨rfl, fun _ => rfl⟩
      · exact ⟨hbelow i (not_le.mp hi), fun h => absurd h hi⟩
    have hcur : (k.setTask k.current (keepFrom n k.cur)).cur = keepFrom n k.cur :=
      Function.update_self ..
    unfold deliverFrames
    rw [hcur]
    cases hlow : lowestSig (keepFrom n k.cur).sigPending with
    | none =>
      have hclear (i : Sig) :=
        hskip i (Bool.eq_false_iff.mpr (find?_eq_none.mp hlow i (mem_finRange i)))
      have hnone : (finRange 32).find? (acts k.cur) = none :=
        find?_eq_none.mpr fun i _ => Bool.eq_false_iff.mp (hclear i).1
      rw [delivery, hnone, keepFrom_eq hn fun i hi _ => (hclear i).2 hi]
      rfl
    | some sig =>
      obtain ⟨hsig, hlt⟩ := find_sig.mp hlow
      rw [getLsbD_keepFrom, Bool.and_eq_true, decide_eq_true_eq] at hsig
      obtain ⟨hbit, hle⟩ := hsig
      have hclear (i : Sig) (hi : i < sig) := hskip i (hlt i hi)
      have hkeep := keepFrom_eq hle fun i hi hi' => (hclear i hi').2 hi
      dsimp only
      rw [setTask_modCur, hkeep, clearSig_keepFrom]
      change ite (k.cur.sigHandler sig = sigIgn) _ (ite (k.cur.sigHandler sig = sigDfl) _ _) = _
      cases hacts : acts k.cur sig with
      | true =>
        rw [delivery, find_sig.mpr ⟨hacts, fun i hi => (hclear i hi).1⟩]
        simp only [acts, Bool.and_eq_true, Bool.or_eq_true, bne_iff_ne] at hacts
        rw [if_neg hacts.1.2]
        by_cases hdfl : k.cur.sigHandler sig = sigDfl
        · simp only [hdfl, hacts.2.resolve_left (absurd hdfl), if_true]
          rfl
        · simp only [hdfl, if_false]
          rfl
      | false =>
        have hrest := ih (n := sig + 1) (by omega) sig.isLt fun i hi => by
          rcases Nat.lt_succ_iff_lt_or_eq.mp hi with hi | hi
          · exact (hclear i hi).1
          · exact Fin.ext hi ▸ hacts
        rw [hrest, ite_eq_left_iff]
        intro hign
        simp only [acts, hbit, bne_iff_ne.mpr hign, Bool.true_and, Bool.or_eq_false_iff,
          bne_eq_false_iff_eq] at hacts
        simp only [hacts, if_true, Bool.false_eq_true, if_false]

/-- However many signals are pending, the loop ends within 33 rounds and has
then served the lowest signal that acts; only ignored and harmless ones below it
are lost. -/
theorem deliverFrames_serves_lowest (k : Kernel) (m : Memory) (rounds : Nat) :
    deliverFrames (33 + rounds) k m = delivery k m := by
  have htask : keepFrom 0 k.cur = k.cur := ext_pending rfl fun i => by
    rw [getLsbD_keepFrom, decide_eq_true (Nat.zero_le _), Bool.and_true]
  have hall : k.setTask k.current (keepFrom 0 k.cur) = k := by
    rw [htask]
    exact congrArg (fun tasks => { k with tasks := tasks }) (Function.update_eq_self ..)
  calc deliverFrames (33 + rounds) k m
    _ = deliverFrames (33 + rounds) (k.setTask k.current (keepFrom 0 k.cur)) m := by rw [hall]
    _ = delivery k m := deliverFrames_from (by omega) (Nat.zero_le _) nofun

end Mmix.Sys
