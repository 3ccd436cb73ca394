import Mathlib

/-!
# Copying and filling memory

`memcpy` and `memset` take a path of whole words where the pointers are aligned
and finish byte by byte; `memmove` picks the direction in which no byte is
overwritten before it has been read.
-/

namespace Mmix.Klib

/-- Memory, byte by byte. -/
abbrev Mem := Nat → UInt8

/-- The word at an address, its lowest byte first. -/
def loadWord (m : Mem) (a : Nat) : BitVec 64 :=
  BitVec.ofNat 64 (Nat.ofDigits 256 ((List.range 8).map fun j => (m (a + j)).toNat))

/-- Store a word at an address. -/
def storeWord (m : Mem) (a : Nat) (w : BitVec 64) : Mem := fun x =>
  if a ≤ x ∧ x < a + 8 then UInt8.ofNat (w.toNat / 256 ^ (x - a)) else m x

/-- The loop `while (n--) *d++ = *s++`. -/
def copyUp : Nat → Nat → Nat → Mem → Mem
  | 0, _, _, m => m
  | n + 1, d, s, m => copyUp n (d + 1) (s + 1) (Function.update m d (m s))

/-- The loop `while (n--) *--d = *--s`. -/
def copyDown : Nat → Nat → Nat → Mem → Mem
  | 0, _, _, m => m
  | n + 1, d, s, m => copyDown n (d - 1) (s - 1) (Function.update m (d - 1) (m (s - 1)))

/-- The loop `while (n--) *p++ = (uint8_t)c`. -/
def fillUp (byte : UInt8) : Nat → Nat → Mem → Mem
  | 0, _, m => m
  | n + 1, p, m => fillUp byte n (p + 1) (Function.update m p byte)

/-- The loop `d64[i] = s64[i]`. -/
def copyWords (d s words : Nat) (m : Mem) : Mem :=
  (List.range words).foldl (fun m i => storeWord m (d + 8 * i) (loadWord m (s + 8 * i))) m

/-- The loop `p64[i] = fill`. -/
def fillWords (fill : BitVec 64) (p words : Nat) (m : Mem) : Mem :=
  (List.range words).foldl (fun m i => storeWord m (p + 8 * i) fill) m

/-- `memcpy`: the pointer it returns, and the memory. -/
def memcpy (m : Mem) (dest src n : Nat) : Nat × Mem :=
  if 8 ≤ n ∧ dest &&& 7 = 0 ∧ src &&& 7 = 0 then
    let words := n / 8
    let m := copyWords dest src words m
    (dest, copyUp (n &&& 7) (dest + words * 8) (src + words * 8) m)
  else (dest, copyUp n dest src m)

/-- The byte in each byte of a word. -/
def replicated (byte : UInt8) : BitVec 64 :=
  let fill := byte.toBitVec.setWidth 64
  let fill := fill ||| fill <<< 8
  let fill := fill ||| fill <<< 16
  fill ||| fill <<< 32

/-- `memset`. -/
def memset (m : Mem) (s : Nat) (c : BitVec 32) (n : Nat) : Nat × Mem :=
  let byte := UInt8.ofBitVec (c.setWidth 8)
  if 8 ≤ n ∧ s &&& 7 = 0 then
    let words := n / 8
    (s, fillUp byte (n &&& 7) (s + words * 8) (fillWords (replicated byte) s words m))
  else (s, fillUp byte n s m)

/-- `memmove`. -/
def memmove (m : Mem) (dest src n : Nat) : Nat × Mem :=
  if dest = src ∨ n = 0 then (dest, m)
  else if dest < src then (dest, copyUp n dest src m)
  else (dest, copyDown n (dest + n) (src + n) m)

/-! ### Copies at once -/

section Copies

variable {m : Mem} {d s n k j : Nat}

/-- The memory after all bytes have been copied at once. -/
def copied (m : Mem) (d s n : Nat) : Mem := fun x =>
  if d ≤ x ∧ x < d + n then m (s + (x - d)) else m x

@[simp] theorem copied_zero (m : Mem) (d s : Nat) : copied m d s 0 = m :=
  funext fun _ => if_neg (by omega)

theorem copied_self (m : Mem) (d n : Nat) : copied m d d n = m := by
  ext1 x
  unfold copied
  split
  · congr 1
    omega
  · rfl

theorem update_eq_copied (m : Mem) (d s : Nat) : Function.update m d (m s) = copied m d s 1 := by
  ext1 x
  unfold copied
  by_cases hx : x = d
  · rw [if_pos (by omega), hx, Function.update_self, Nat.sub_self, Nat.add_zero]
  · rw [if_neg (by omega), Function.update_of_ne hx]

/-- The lower part first: nothing of the upper part's source is overwritten. -/
theorem copied_up (h : d ≤ s ∨ s + (k + j) ≤ d) :
    copied (copied m d s k) (d + k) (s + k) j = copied m d s (k + j) := by
  ext1 x
  unfold copied
  by_cases hup : d + k ≤ x ∧ x < d + k + j
  · rw [if_pos hup, if_neg (by omega), if_pos (by omega)]
    congr 1
    omega
  · rw [if_neg hup]
    by_cases hlow : d ≤ x ∧ x < d + k
    · rw [if_pos hlow, if_pos (by omega)]
    · rw [if_neg hlow, if_neg (by omega)]

/-- The upper part first. -/
theorem copied_down (h : s ≤ d) :
    copied (copied m (d + j) (s + j) k) d s j = copied m d s (j + k) := by
  ext1 x
  unfold copied
  by_cases hlow : d ≤ x ∧ x < d + j
  · rw [if_pos hlow, if_neg (by omega), if_pos (by omega)]
  · rw [if_neg hlow]
    by_cases hup : d + j ≤ x ∧ x < d + j + k
    · rw [if_pos hup, if_pos (by omega)]
      congr 1
      omega
    · rw [if_neg hup, if_neg (by omega)]

theorem copyUp_eq (h : d ≤ s ∨ s + n ≤ d) : copyUp n d s m = copied m d s n := by
  induction n generalizing d s m with
  | zero => exact (copied_zero m d s).symm
  | succ n ih =>
    rw [copyUp, ih (by omega), update_eq_copied, copied_up (by omega), Nat.add_comm]

theorem copyDown_eq (h : s ≤ d) : copyDown n (d + n) (s + n) m = copied m d s n := by
  induction n generalizing m with
  | zero => exact (copied_zero m d s).symm
  | succ n ih =>
    rw [copyDown, Nat.add_succ_sub_one, Nat.add_succ_sub_one, ih, update_eq_copied, copied_down h]

/-- The digits of a number are found by division. -/
theorem ofDigits_div_mod (l : List Nat) (hl : ∀ x ∈ l, x < 256) (j : Nat) :
    Nat.ofDigits 256 l / 256 ^ j % 256 = l.getD j 0 := by
  induction l generalizing j with
  | nil => simp
  | cons x l ih =>
    have hx := hl x List.mem_cons_self
    rw [Nat.ofDigits_cons]
    cases j with
    | zero => simp [Nat.mod_eq_of_lt hx]
    | succ j =>
      rw [Nat.pow_succ', ← Nat.div_div_eq_div_mul, Nat.add_mul_div_left _ _ (by decide),
        Nat.div_eq_of_lt hx, Nat.zero_add]
      exact ih (fun y hy => hl y (List.mem_cons_of_mem x hy)) j

/-- A word loaded and stored is eight bytes copied. -/
theorem storeWord_loadWord (m : Mem) (a b : Nat) : storeWord m a (loadWord m b) = copied m a b 8 := by
  have hbytes : ∀ x ∈ (List.range 8).map fun j => (m (b + j)).toNat, x < 256 := by
    intro x hx
    obtain ⟨j, -, rfl⟩ := List.mem_map.mp hx
    exact (m (b + j)).toNat_lt
  have hlt := Nat.ofDigits_lt_base_pow_length (by decide) hbytes
  have hword : (loadWord m b).toNat =
      Nat.ofDigits 256 ((List.range 8).map fun j => (m (b + j)).toNat) := by
    rw [loadWord, BitVec.toNat_ofNat]
    exact Nat.mod_eq_of_lt (by simpa using hlt)
  ext1 x
  unfold storeWord copied
  split
  next hx =>
    apply UInt8.toNat_inj.mp
    rw [UInt8.toNat_ofNat', hword, ofDigits_div_mod _ hbytes,
      List.getD_eq_getElem _ _ (by simp; omega)]
    simp
  next => rfl

theorem copyWords_eq (h : d + n ≤ s ∨ s + n ≤ d) {words : Nat} (hw : 8 * words ≤ n) :
    copyWords d s words m = copied m d s (8 * words) := by
  induction words with
  | zero => exact (copied_zero m d s).symm
  | succ words ih =>
    unfold copyWords at ih ⊢
    rw [List.range_succ, List.foldl_append, ih (by omega)]
    exact (storeWord_loadWord _ _ _).trans (copied_up (by omega))

end Copies

/-! ### Fills at once -/

section Fills

variable {m : Mem} {p n k j : Nat} {byte : UInt8}

/-- The memory after all bytes have been filled at once. -/
def filled (m : Mem) (p : Nat) (byte : UInt8) (n : Nat) : Mem := fun x =>
  if p ≤ x ∧ x < p + n then byte else m x

@[simp] theorem filled_zero (m : Mem) (p : Nat) (byte : UInt8) : filled m p byte 0 = m :=
  funext fun _ => if_neg (by omega)

theorem filled_filled : filled (filled m p byte k) (p + k) byte j = filled m p byte (k + j) := by
  ext1 x
  unfold filled
  by_cases hall : p ≤ x ∧ x < p + (k + j)
  · rw [if_pos hall]
    split
    · rfl
    · rw [if_pos (by omega)]
  · rw [if_neg (by omega), if_neg (by omega), if_neg hall]

theorem fillUp_eq : fillUp byte n p m = filled m p byte n := by
  induction n generalizing p m with
  | zero => exact (filled_zero m p byte).symm
  | succ n ih =>
    have hone : Function.update m p byte = filled m p byte 1 := by
      ext1 x
      unfold filled
      by_cases hx : x = p
      · rw [if_pos (by omega), hx, Function.update_self]
      · rw [if_neg (by omega), Function.update_of_ne hx]
    rw [fillUp, ih, hone, filled_filled, Nat.add_comm]

theorem byte_replicated (byte : UInt8) {i : Nat} (hi : i < 8) :
    UInt8.ofNat ((replicated byte).toNat / 256 ^ i) = byte := by
  have hall : ∀ b : Fin 256, ∀ i : Fin 8,
      UInt8.ofNat ((replicated (UInt8.ofNat b)).toNat / 256 ^ i.val) = UInt8.ofNat b := by
    decide +kernel
  have hbyte := hall ⟨byte.toNat, byte.toNat_lt⟩ ⟨i, hi⟩
  rwa [UInt8.ofNat_toNat] at hbyte

theorem fillWords_eq {words : Nat} :
    fillWords (replicated byte) p words m = filled m p byte (8 * words) := by
  induction words with
  | zero => exact (filled_zero m p byte).symm
  | succ words ih =>
    unfold fillWords at ih ⊢
    have hword (m : Mem) (a : Nat) : storeWord m a (replicated byte) = filled m a byte 8 := by
      ext1 x
      unfold storeWord filled
      split
      next hx => exact byte_replicated byte (by omega)
      next => rfl
    rw [List.range_succ, List.foldl_append, ih]
    exact (hword _ _).trans filled_filled

end Fills

/-! ### The functions -/

section Functions

variable {m m' : Mem} {d s n : Nat}

/-- The region at `d` holds what the region at `s` held, and nothing else has
changed. -/
structure Copies (m m' : Mem) (d s n : Nat) : Prop where
  inside : ∀ i < n, m' (d + i) = m (s + i)
  outside : ∀ x, x < d ∨ d + n ≤ x → m' x = m x

/-- The region holds the byte throughout, and nothing else has changed. -/
structure Fills (m m' : Mem) (p : Nat) (byte : UInt8) (n : Nat) : Prop where
  inside : ∀ i < n, m' (p + i) = byte
  outside : ∀ x, x < p ∨ p + n ≤ x → m' x = m x

theorem copies_copied (m : Mem) (d s n : Nat) : Copies m (copied m d s n) d s n where
  inside i hi := by
    rw [copied, if_pos (by omega), Nat.add_sub_cancel_left]
  outside x hx := if_neg (by omega)

theorem fills_filled (m : Mem) (p : Nat) (byte : UInt8) (n : Nat) :
    Fills m (filled m p byte n) p byte n where
  inside i hi := if_pos (by omega)
  outside x hx := if_neg (by omega)

theorem and_seven (n : Nat) : n &&& 7 = n % 8 := Nat.and_two_pow_sub_one_eq_mod n 3

theorem memcpy_eq (h : d + n ≤ s ∨ s + n ≤ d) : memcpy m d s n = (d, copied m d s n) := by
  unfold memcpy
  split
  · dsimp only
    rw [copyWords_eq h (by omega), Nat.mul_comm (n / 8) 8, and_seven, copyUp_eq (by omega),
      copied_up (by omega), Nat.div_add_mod]
  · rw [copyUp_eq (by omega)]

theorem memset_eq (c : BitVec 32) :
    memset m d c n = (d, filled m d (UInt8.ofBitVec (c.setWidth 8)) n) := by
  unfold memset
  dsimp only
  split
  · rw [fillWords_eq, Nat.mul_comm (n / 8) 8, and_seven, fillUp_eq, filled_filled,
      Nat.div_add_mod]
  · rw [fillUp_eq]

/-- `memcpy` between regions that do not overlap copies all bytes and `memset`
fills all bytes, whichever path the alignment selects, and neither touches any
other byte. -/
theorem memcpy_memset_exact (m : Mem) (d s n : Nat) (c : BitVec 32) :
    (d + n ≤ s ∨ s + n ≤ d → (memcpy m d s n).1 = d ∧ Copies m (memcpy m d s n).2 d s n) ∧
      (memset m d c n).1 = d ∧
      Fills m (memset m d c n).2 d (UInt8.ofBitVec (c.setWidth 8)) n := by
  refine ⟨fun h => ?_, ?_⟩
  · rw [memcpy_eq h]
    exact ⟨rfl, copies_copied m d s n⟩
  · rw [memset_eq]
    exact ⟨rfl, fills_filled m d _ n⟩

/-- Two words and three bytes, copied from 0 to 24. -/
theorem memcpy_two_words : Copies UInt8.ofNat (memcpy UInt8.ofNat 24 0 19).2 24 0 19 :=
  ((memcpy_memset_exact UInt8.ofNat 24 0 19 0).1 (by decide)).2

theorem memmove_eq : memmove m d s n = (d, copied m d s n) := by
  unfold memmove
  split
  next h =>
    rcases h with rfl | rfl
    · rw [copied_self]
    · rw [copied_zero]
  next =>
    split
    · rw [copyUp_eq (by omega)]
    · rw [copyDown_eq (by omega)]

/-- `memmove` copies what the source held before, however the regions overlap. -/
theorem memmove_exact (m : Mem) (d s n : Nat) :
    (memmove m d s n).1 = d ∧ Copies m (memmove m d s n).2 d s n := by
  rw [memmove_eq]
  exact ⟨rfl, copies_copied m d s n⟩

end Functions

end Mmix.Klib
