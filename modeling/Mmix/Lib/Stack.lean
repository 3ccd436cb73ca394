import Mathlib

/-!
# Words on a stack in byte memory

Byte memory with 64-bit addresses that wrap around, and words in it with the
lowest byte first. A word is read back from where it was stored, and a store
elsewhere leaves it alone. Words pushed one after the other are found below the
old stack pointer.
-/

namespace Mmix.Stack

open List

abbrev Memory := BitVec 64 → UInt8

/-- Store bytes from an address on. -/
def putBytes (m : Memory) (a : BitVec 64) (bytes : List UInt8) : Memory :=
  fun x => bytes.getD (x - a).toNat (m x)

/-- The bytes of a word, the lowest one first. -/
def bytesOf (w : BitVec 64) : List UInt8 :=
  (List.range 8).map fun j => UInt8.ofNat (w.toNat / 256 ^ j)

def putWord (m : Memory) (a w : BitVec 64) : Memory := putBytes m a (bytesOf w)

/-- The bytes from an address on. -/
def getBytes (m : Memory) (a : BitVec 64) (n : Nat) : List UInt8 :=
  (List.range n).map fun j => m (a + BitVec.ofNat 64 j)

/-- The word at an address. -/
def getWord (m : Memory) (a : BitVec 64) : BitVec 64 :=
  BitVec.ofNat 64 (Nat.ofDigits 256 ((getBytes m a 8).map UInt8.toNat))

/-- Push words below a stack pointer, the first one first. -/
def pushAll : List (BitVec 64) → BitVec 64 → Memory → Memory
  | [], _, m => m
  | w :: ws, sp, m => pushAll ws (sp - 8) (putWord m (sp - 8) w)

variable {m m' : Memory} {a b sp w : BitVec 64} {bytes : List UInt8}

@[simp] theorem length_bytesOf (w : BitVec 64) : (bytesOf w).length = 8 := by
  rw [bytesOf, length_map, length_range]

@[simp] theorem length_getBytes (m : Memory) (a : BitVec 64) (n : Nat) :
    (getBytes m a n).length = n := by
  rw [getBytes, length_map, length_range]

section Stores

theorem offset_add {d j : Nat} (hd : (a - b).toNat = d) (h : d + j < 2 ^ 64) :
    (a + BitVec.ofNat 64 j - b).toNat = d + j := by
  have hsum : a + BitVec.ofNat 64 j - b = a - b + BitVec.ofNat 64 j := by
    rw [BitVec.sub_eq_add_neg, BitVec.sub_eq_add_neg, BitVec.add_assoc, BitVec.add_assoc,
      BitVec.add_comm (BitVec.ofNat 64 j)]
  rw [hsum, BitVec.toNat_add, hd, BitVec.toNat_ofNat, Nat.add_mod_mod, Nat.mod_eq_of_lt h]

/-- Bytes elsewhere keep what they hold. -/
theorem getBytes_putBytes_of_le {n : Nat} (hlow : bytes.length ≤ (a - b).toNat)
    (hhigh : (a - b).toNat + n ≤ 2 ^ 64) :
    getBytes (putBytes m b bytes) a n = getBytes m a n := by
  apply map_congr_left
  intro j hj
  have hjn : j < n := mem_range.mp hj
  rw [putBytes, offset_add rfl (by omega)]
  exact getD_eq_default _ _ (by omega)

/-- Bytes are read back from where they were stored. -/
theorem getBytes_putBytes (h : bytes.length ≤ 2 ^ 64) :
    getBytes (putBytes m a bytes) a bytes.length = bytes := by
  apply ext_getElem
  · exact length_getBytes _ _ _
  · intro j hj hj'
    have hself : (a - a).toNat = 0 := by rw [BitVec.sub_self, BitVec.toNat_zero]
    simp only [getBytes, getElem_map, getElem_range, putBytes]
    rw [offset_add hself (by omega), Nat.zero_add]
    exact getD_eq_getElem _ _ hj'

theorem getWord_putBytes_of_le (hlow : bytes.length ≤ (a - b).toNat)
    (hhigh : (a - b).toNat + 8 ≤ 2 ^ 64) : getWord (putBytes m b bytes) a = getWord m a := by
  rw [getWord, getBytes_putBytes_of_le hlow hhigh, getWord]

theorem getWord_putWord_of_le (hlow : 8 ≤ (a - b).toNat) (hhigh : (a - b).toNat + 8 ≤ 2 ^ 64) :
    getWord (putWord m b w) a = getWord m a :=
  getWord_putBytes_of_le (by rwa [length_bytesOf]) hhigh

/-- The digits of a number give back its lower part. -/
theorem ofDigits_range (n x : Nat) :
    Nat.ofDigits 256 ((range n).map fun j => x / 256 ^ j % 256) = x % 256 ^ n := by
  induction n generalizing x with
  | zero => rw [pow_zero, Nat.mod_one]; rfl
  | succ n ih =>
    have hdiv (j : Nat) : x / 256 ^ (j + 1) = x / 256 / 256 ^ j := by
      rw [Nat.div_div_eq_div_mul, Nat.pow_succ']
    rw [range_succ_eq_map, map_cons, map_map, Nat.ofDigits_cons]
    simp only [Function.comp_def, Nat.succ_eq_add_one, hdiv, ih, pow_zero, Nat.div_one]
    rw [Nat.pow_succ', Nat.mod_mul]

/-- A word is read back from where it was stored. -/
theorem getWord_putWord (m : Memory) (a w : BitVec 64) : getWord (putWord m a w) a = w := by
  have hbytes : getBytes (putWord m a w) a 8 = bytesOf w := by
    have h : getBytes (putBytes m a (bytesOf w)) a (bytesOf w).length = bytesOf w :=
      getBytes_putBytes (by simp)
    rwa [length_bytesOf] at h
  have hdigits : (bytesOf w).map UInt8.toNat =
      (range 8).map fun j => w.toNat / 256 ^ j % 256 := by
    rw [bytesOf, map_map]
    rfl
  rw [getWord, hbytes, hdigits, ofDigits_range]
  apply BitVec.eq_of_toNat_eq
  rw [BitVec.toNat_ofNat, show 256 ^ 8 = 2 ^ 64 by decide, Nat.mod_mod]
  exact Nat.mod_eq_of_lt w.isLt

/-- The lowest byte of the word at an address is the byte there. -/
theorem getWord_mod (m : Memory) (a : BitVec 64) : (getWord m a).toNat % 256 = (m a).toNat := by
  have hfirst : (getBytes m a 8).map UInt8.toNat =
      (m a).toNat :: (getBytes m (a + 1) 7).map UInt8.toNat := by
    simp [getBytes, range_succ_eq_map, BitVec.add_assoc]
  rw [getWord, hfirst, Nat.ofDigits_cons, BitVec.toNat_ofNat,
    Nat.mod_mod_of_dvd _ (by decide), Nat.add_mul_mod_self_left]
  exact Nat.mod_eq_of_lt (m a).toNat_lt

end Stores

section Pushes

variable {ws : List (BitVec 64)}

/-- Pushing leaves the words from the stack pointer up alone. -/
theorem getWord_pushAll_of_le (h : (a - sp).toNat + 8 + 8 * ws.length ≤ 2 ^ 64) :
    getWord (pushAll ws sp m) a = getWord m a := by
  induction ws generalizing sp m with
  | nil => rfl
  | cons w ws ih =>
    rw [length_cons] at h
    have hd : (a - (sp - 8)).toNat = (a - sp).toNat + 8 := by
      bv_omega
    rw [pushAll, ih (by omega)]
    exact getWord_putWord_of_le (by omega) (by omega)

/-- The pushed words are found below the old stack pointer. -/
theorem getWord_pushAll {i : Nat} (h : 8 * ws.length ≤ 2 ^ 64) (hw : ws[i]? = some w) :
    getWord (pushAll ws sp m) (sp - BitVec.ofNat 64 (8 * (i + 1))) = w := by
  induction ws generalizing sp m i with
  | nil => cases hw
  | cons v ws ih =>
    rw [length_cons] at h
    rw [pushAll]
    cases i with
    | zero =>
      cases hw
      have htop : (sp - BitVec.ofNat 64 (8 * (0 + 1)) - (sp - 8)).toNat = 0 := by
        rw [show BitVec.ofNat 64 (8 * (0 + 1)) = 8 from rfl, BitVec.sub_self, BitVec.toNat_zero]
      rw [getWord_pushAll_of_le (by omega)]
      exact getWord_putWord _ _ _
    | succ i =>
      have hdown : sp - BitVec.ofNat 64 (8 * (i + 1 + 1)) =
          sp - 8 - BitVec.ofNat 64 (8 * (i + 1)) := by
        rw [BitVec.sub_sub, Nat.mul_add 8 (i + 1) 1, Nat.add_comm, BitVec.ofNat_add]
        rfl
      rw [hdown]
      exact ih (by omega) hw

end Pushes

end Mmix.Stack
