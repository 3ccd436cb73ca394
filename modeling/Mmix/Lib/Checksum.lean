import Mathlib
/-!
# The Internet checksum

The checksum of a sequence of bytes is the complement of the sum of its 16-bit
words, where a carry out of the sum is added at its low end. A number below
`2 ^ 16` is the sum of words exactly when it has their remainder modulo
`2 ^ 16 - 1` and is zero only if they all are.
-/

namespace Mmix.Checksum

open List

/-- Addition of 16-bit words with the carry added at the low end. -/
def carryAdd (a b : Nat) : Nat := if a + b < 65536 then a + b else a + b - 65535

/-- The words of a sequence of bytes; a last single byte is a high one. -/
def words : List UInt8 → List Nat
  | high :: low :: rest => (high.toNat * 256 + low.toNat) :: words rest
  | [high] => [high.toNat * 256]
  | [] => []

/-- The sum of words. -/
def onesSum (ws : List Nat) : Nat := ws.foldl carryAdd 0

/-- The checksum of a sequence of bytes. -/
def checksum (bytes : List UInt8) : Nat := 65535 - onesSum (words bytes)

/-- A checksum in two bytes, the high one first. -/
def field (n : Nat) : List UInt8 := [UInt8.ofNat (n / 256), UInt8.ofNat (n % 256)]

theorem length_field (n : Nat) : (field n).length = 2 := rfl

/-- A number is another one with its carries added at the low end. -/
structure Folds (s x : Nat) : Prop where
  lt : x < 65536
  mod : x % 65535 = s % 65535
  zero : x = 0 ↔ s = 0

theorem Folds.unique {s x y : Nat} (hx : Folds s x) (hy : Folds s y) : x = y := by
  have := hx.lt
  have := hy.lt
  have := hx.mod
  have := hy.mod
  have := hx.zero
  have := hy.zero
  omega

theorem folds_zero : Folds 0 0 := ⟨by decide, rfl, Iff.rfl⟩

theorem Folds.carryAdd {s x w : Nat} (h : Folds s x) (hw : w < 65536) :
    Folds (s + w) (carryAdd x w) := by
  have hlt := h.lt
  have hmod := h.mod
  have hzero := h.zero
  rw [Checksum.carryAdd]
  constructor <;> split <;> omega

theorem words_lt (bytes : List UInt8) : ∀ w ∈ words bytes, w < 65536 := by
  induction bytes using words.induct with
  | case1 high low rest ih =>
    have hh := high.toNat_lt
    have hl := low.toNat_lt
    intro w hw
    rcases mem_cons.mp hw with rfl | hw
    · omega
    · exact ih w hw
  | case2 high =>
    have hh := high.toNat_lt
    intro w hw
    rw [mem_singleton.mp hw]
    omega
  | case3 => exact fun w hw => absurd hw not_mem_nil

theorem folds_foldl {ws : List Nat} (hws : ∀ w ∈ ws, w < 65536) {s x : Nat} (h : Folds s x) :
    Folds (s + ws.sum) (ws.foldl carryAdd x) := by
  induction ws generalizing s x with
  | nil => exact h
  | cons w ws ih =>
    rw [sum_cons, ← Nat.add_assoc]
    exact ih (fun w hw => hws w (mem_cons_of_mem _ hw))
      (h.carryAdd (hws w mem_cons_self))

/-- The sum of the words of a sequence. -/
theorem folds_onesSum (bytes : List UInt8) : Folds (words bytes).sum (onesSum (words bytes)) := by
  have h := folds_foldl (words_lt bytes) folds_zero
  rwa [Nat.zero_add] at h

/-- The words of a sequence together with its checksum add up to all ones. -/
theorem Folds.complement {s x : Nat} (h : Folds s x) : Folds (s + (65535 - x)) 65535 := by
  have hlt := h.lt
  have hmod := h.mod
  have hzero := h.zero
  constructor <;> omega

theorem words_append {a : List UInt8} (ha : a.length % 2 = 0) (b : List UInt8) :
    words (a ++ b) = words a ++ words b := by
  induction a using words.induct with
  | case1 high low rest ih =>
    simp only [length_cons] at ha
    simp only [cons_append, words, ih (by omega)]
  | case2 high => simp at ha
  | case3 => rfl

theorem words_field {n : Nat} (h : n < 65536) : words (field n) = [n] := by
  have hbytes : (UInt8.ofNat (n / 256)).toNat * 256 + (UInt8.ofNat (n % 256)).toNat = n := by
    rw [UInt8.toNat_ofNat', UInt8.toNat_ofNat']
    omega
  simp only [field, words, hbytes]

/-- A sequence in which the checksum is filled in has the sum of all ones. -/
theorem onesSum_filled {a : List UInt8} (ha : a.length % 2 = 0) (b : List UInt8) :
    onesSum (words (a ++ field (checksum (a ++ [0, 0] ++ b)) ++ b)) = 65535 := by
  have hblank : (words (a ++ [0, 0] ++ b)).sum = (words a).sum + (words b).sum := by
    rw [append_assoc, words_append ha, words_append (by rfl), sum_append]
    simp [words]
  have hsum := (folds_onesSum (a ++ [0, 0] ++ b)).complement
  have hfilled : (words (a ++ field (checksum (a ++ [0, 0] ++ b)) ++ b)).sum =
      (words (a ++ [0, 0] ++ b)).sum + (65535 - onesSum (words (a ++ [0, 0] ++ b))) := by
    have hlt : checksum (a ++ [0, 0] ++ b) < 65536 := by
      rw [checksum]
      omega
    rw [hblank, append_assoc, words_append ha, words_append (by rw [length_field]), words_field hlt,
      sum_append, sum_append, sum_singleton, checksum]
    omega
  exact (hfilled ▸ folds_onesSum _).unique hsum

theorem sum_words_le (bytes : List UInt8) : (words bytes).sum ≤ 65535 * bytes.length := by
  induction bytes using words.induct with
  | case1 high low rest ih =>
    have hh := high.toNat_lt
    have hl := low.toNat_lt
    simp only [words, sum_cons, length_cons]
    omega
  | case2 high =>
    have hh := high.toNat_lt
    simp only [words, sum_cons, sum_nil, length_cons, length_nil]
    omega
  | case3 => exact Nat.le_refl 0

end Mmix.Checksum
