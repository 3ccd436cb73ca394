import Mmix.Lib.Checked

/-!
# The integer square root of `gfx_fill_circle`

`isqrt` finds the root bit by bit, from the largest power of four that is not
above its argument. The variables are unbounded here; every value the loops
compute is checked to be an `int`.
-/

namespace Mmix.Drivers.Isqrt

/-- The values of an `int`. -/
abbrev IsInt (x : Int) : Prop := -2 ^ 31 ≤ x ∧ x < 2 ^ 31

/-- The first loop: `bit` goes down to a power of four that is not above `v`. -/
def startBit (v : Int) : Nat → Int → Option Int
  | 0, _ => none
  | rounds + 1, bit => if v < bit then startBit v rounds (bit >>> (2 : Nat)) else some bit

/-- The second loop. -/
def rootLoop : Nat → Int → Int → Int → Checked (Option Int)
  | 0, _, _, _ => pure none
  | rounds + 1, v, res, bit =>
    if bit ≠ 0 then do
      Checked.check (IsInt (res + bit))
      if res + bit ≤ v then do
        Checked.check (IsInt (v - (res + bit)) ∧ IsInt ((res >>> (1 : Nat)) + bit))
        rootLoop rounds (v - (res + bit)) ((res >>> (1 : Nat)) + bit) (bit >>> (2 : Nat))
      else rootLoop rounds v (res >>> (1 : Nat)) (bit >>> (2 : Nat))
    else pure (some res)

/-- `isqrt`, with a bound on the rounds of each loop; nothing if a loop needs more. -/
def isqrt (rounds : Nat) (v : Int) : Checked (Option Int) :=
  match startBit v rounds (2 ^ 30) with
  | none => pure none
  | some bit => rootLoop rounds v 0 bit

/-- The power of four below `4 ^ m`; zero behind the last one. -/
def bitBelow (m : Nat) : Int := 4 ^ m / 4

theorem bitBelow_succ (m : Nat) : bitBelow (m + 1) = 4 ^ m := by
  rw [bitBelow, pow_succ]
  exact Int.mul_ediv_cancel _ (by decide)

theorem bitBelow_shift (m : Nat) : (4 ^ m : Int) >>> (2 : Nat) = bitBelow m :=
  Int.shiftRight_eq_div_pow ..

/-- The first loop ends with the power of four that the root starts from. -/
theorem startBit_eq {v : Int} (hv : 0 ≤ v) (m extra : Nat) (hm : v < 4 ^ m) :
    ∃ k ≤ m, startBit v (m + 1 + extra) (bitBelow m) = some (bitBelow k) ∧ v < 4 ^ k := by
  induction m with
  | zero =>
    have hzero : bitBelow 0 = 0 := rfl
    refine ⟨0, Nat.le_refl 0, ?_, hm⟩
    rw [Nat.zero_add, Nat.add_comm, startBit, if_neg (by omega)]
  | succ m ih =>
    rw [show m + 1 + 1 + extra = m + 1 + extra + 1 by omega, startBit]
    by_cases hlt : v < bitBelow (m + 1)
    · rw [if_pos hlt]
      rw [bitBelow_succ] at hlt
      rw [bitBelow_succ, bitBelow_shift]
      obtain ⟨k, hk, hstart, hbound⟩ := ih hlt
      exact ⟨k, by omega, hstart, hbound⟩
    · rw [if_neg hlt]
      exact ⟨m + 1, Nat.le_refl _, rfl, hm⟩

/-- The variables of the second loop when the bits of the root from `2 ^ m` on are
known: the root so far is `a * 2 ^ m`. -/
structure Partial (v₀ : Int) (m : Nat) (a v res : Int) : Prop where
  nonneg : 0 ≤ a
  rest : v = v₀ - (a * 2 ^ m) * (a * 2 ^ m)
  res_eq : res = a * 2 ^ m * 2 ^ m
  low : (a * 2 ^ m) * (a * 2 ^ m) ≤ v₀
  high : v₀ < ((a + 1) * 2 ^ m) * ((a + 1) * 2 ^ m)

namespace Partial

variable {v₀ a v res : Int} {m : Nat}

theorem four_pow (m : Nat) : (4 : Int) ^ m = 2 ^ m * 2 ^ m := by
  rw [← mul_pow]
  norm_num

/-- What is compared with the rest is an `int`. -/
theorem sum_lt (h : Partial v₀ (m + 1) a v res) (hv : v₀ < 2 ^ 31) (hm : m ≤ 15) :
    0 ≤ res ∧ res + 4 ^ m < 2 ^ 31 := by
  have hpow : (4 : Int) ^ m ≤ 4 ^ 15 := pow_le_pow_right₀ (by decide) hm
  have hpos : (0 : Int) < 4 ^ m := by positivity
  have hsucc : (2 : Int) ^ (m + 1) * 2 ^ (m + 1) = 4 * 4 ^ m := by
    rw [← four_pow, pow_succ, mul_comm]
  have hres : res = a * (4 * 4 ^ m) := by rw [h.res_eq, mul_assoc, hsucc]
  have hlow : a * a * (4 * 4 ^ m) ≤ v₀ := by
    rw [← hsucc, mul_mul_mul_comm]
    exact h.low
  have ha := h.nonneg
  rw [hres]
  refine ⟨by positivity, ?_⟩
  rcases lt_or_ge a 2 with hsmall | hlarge
  · rcases lt_or_ge a 1 with hzero | hone
    · rw [show a = 0 by omega, zero_mul, zero_add]
      omega
    · obtain rfl : a = 1 := by omega
      -- The first bit of the root is below `2 ^ 16`.
      have hm : m ≤ 14 := by
        by_contra hlast
        rw [show m = 15 by omega] at hlow
        omega
      have : (4 : Int) ^ m ≤ 4 ^ 14 := pow_le_pow_right₀ (by decide) hm
      omega
  · -- From two on, the square is larger than the sum.
    have : (a + 1) * (4 * 4 ^ m) ≤ a * a * (4 * 4 ^ m) :=
      mul_le_mul_of_nonneg_right (by nlinarith) (by positivity)
    nlinarith

/-- `res` halved belongs to the next bit. -/
theorem half (h : Partial v₀ (m + 1) a v res) :
    res >>> (1 : Nat) = 2 * a * 2 ^ m * 2 ^ m := by
  have hres : res = 2 * a * 2 ^ m * 2 ^ m * 2 := by
    rw [h.res_eq, pow_succ]
    ring
  rw [hres, Int.shiftRight_eq_div_pow]
  exact Int.mul_ediv_cancel _ (by decide)

/-- The square of the root with the next bit in it. -/
theorem square_next (h : Partial v₀ (m + 1) a v res) :
    ((2 * a + 1) * 2 ^ m) * ((2 * a + 1) * 2 ^ m) = v₀ - v + (res + 4 ^ m) := by
  rw [h.rest, h.res_eq, four_pow, pow_succ]
  ring

/-- One round settles one more bit. -/
theorem accept (h : Partial v₀ (m + 1) a v res) (hle : res + 4 ^ m ≤ v) :
    Partial v₀ m (2 * a + 1) (v - (res + 4 ^ m)) ((res >>> (1 : Nat)) + 4 ^ m) := by
  refine ⟨by have := h.nonneg; omega, ?_, ?_, ?_, ?_⟩
  · rw [h.square_next]
    ring
  · rw [h.half, four_pow]
    ring
  · rw [h.square_next]
    omega
  · have := h.high
    rwa [show (2 * a + 1 + 1) * 2 ^ m = (a + 1) * 2 ^ (m + 1) by rw [pow_succ]; ring]

theorem reject (h : Partial v₀ (m + 1) a v res) (hlt : ¬ res + 4 ^ m ≤ v) :
    Partial v₀ m (2 * a) v (res >>> (1 : Nat)) := by
  have hroot : 2 * a * 2 ^ m = a * 2 ^ (m + 1) := by rw [pow_succ]; ring
  refine ⟨by have := h.nonneg; omega, ?_, h.half, ?_, ?_⟩
  · rw [hroot, h.rest]
  · rw [hroot]
    exact h.low
  · rw [h.square_next]
    omega

end Partial

/-- The second loop ends with the root, and all it computes are `int`s. -/
theorem rootLoop_eq {v₀ a v res : Int} (m extra : Nat) (hv₀ : v₀ < 2 ^ 31) (hm : m ≤ 16)
    (h : Partial v₀ m a v res) :
    ∃ root, rootLoop (m + 1 + extra) v res (bitBelow m) = ⟨some root, true⟩ ∧
      root * root ≤ v₀ ∧ v₀ < (root + 1) * (root + 1) := by
  induction m generalizing a v res with
  | zero =>
    have hroot : res = a := by rw [h.res_eq]; ring
    refine ⟨a, ?_, by simpa using h.low, by simpa using h.high⟩
    rw [Nat.zero_add, Nat.add_comm, rootLoop, if_neg (by decide), hroot]
    rfl
  | succ m ih =>
    obtain ⟨hres, hsum⟩ := h.sum_lt hv₀ (by omega)
    have hpos : (0 : Int) < 4 ^ m := by positivity
    have hhalf : res >>> (1 : Nat) = res / 2 := Int.shiftRight_eq_div_pow ..
    have hrest : v ≤ v₀ := by
      have := h.rest
      have := mul_self_nonneg (a * 2 ^ (m + 1))
      omega
    rw [show m + 1 + 1 + extra = m + 1 + extra + 1 by omega, rootLoop, bitBelow_succ,
      if_pos hpos.ne', bitBelow_shift]
    by_cases hle : res + 4 ^ m ≤ v
    · obtain ⟨root, hloop, hbounds⟩ := ih (by omega) (h.accept hle)
      refine ⟨root, ?_, hbounds⟩
      rw [if_pos hle, hloop]
      have hint : IsInt (res + 4 ^ m) := by constructor <;> omega
      have hnew : IsInt (v - (res + 4 ^ m)) ∧ IsInt ((res >>> (1 : Nat)) + 4 ^ m) := by
        rw [hhalf]
        refine ⟨⟨?_, ?_⟩, ?_, ?_⟩ <;> omega
      simp only [Bind.bind, Checked.check, decide_eq_true hint, decide_eq_true hnew, Bool.and_self]
    · obtain ⟨root, hloop, hbounds⟩ := ih (by omega) (h.reject hle)
      refine ⟨root, ?_, hbounds⟩
      rw [if_neg hle, hloop]
      have hint : IsInt (res + 4 ^ m) := by constructor <;> omega
      simp only [Bind.bind, Checked.check, decide_eq_true hint, Bool.and_self]

/-- `isqrt` returns the root of every `int` that is not negative, and no value on
the way leaves the range of `int`. -/
theorem isqrt_root (v : Int) (h0 : 0 ≤ v) (hv : v < 2 ^ 31) (rounds : Nat) (hr : 17 ≤ rounds) :
    ∃ root, isqrt rounds v = ⟨some root, true⟩ ∧ root * root ≤ v ∧
      v < (root + 1) * (root + 1) := by
  obtain ⟨extra, rfl⟩ := Nat.exists_eq_add_of_le hr
  obtain ⟨m, hm, hstart, hbound⟩ := startBit_eq h0 16 extra (hv.trans (by norm_num))
  have hpart : Partial v m 0 v 0 := by
    refine ⟨Int.le_refl 0, by ring, by ring, by simpa using h0, ?_⟩
    rwa [zero_add, one_mul, ← Partial.four_pow]
  obtain ⟨root, hloop, hroot⟩ := rootLoop_eq m (16 - m + extra) hv hm hpart
  refine ⟨root, ?_, hroot⟩
  rw [show m + 1 + (16 - m + extra) = 17 + extra by omega] at hloop
  unfold isqrt
  rw [show (2 : Int) ^ 30 = bitBelow 16 by norm_num [bitBelow], hstart]
  exact hloop

theorem isqrt_root_ten : ∃ root, isqrt 17 10 = ⟨some root, true⟩ ∧ root * root ≤ 10 ∧
    10 < (root + 1) * (root + 1) :=
  isqrt_root 10 (by decide) (by decide) 17 (by decide)

end Mmix.Drivers.Isqrt
