import Mmix.Net.Echo

/-!
# The law of `ip_checksum`

Up to the length of the largest packet the sum of `ip_checksum` stays within its
32 bits and two rounds add the carries. The result is the complement of the
one's-complement sum, so a sequence that contains its own checksum sums up to
zero.
-/

namespace Mmix.Net

open Checksum List

/-- One round of the loop that adds the carries. -/
def foldRound (sum : Nat) : Nat := (sum &&& 0xFFFF) + (sum >>> 16)

/-- Store a 16-bit value with its high byte first. -/
def putBe16 (s : List UInt8) (i : Nat) (v : BitVec 16) : List UInt8 :=
  (s.set i (UInt8.ofNat (v >>> 8).toNat)).set (i + 1) (UInt8.ofNat v.toNat)

section Sums

theorem foldRound_eq (sum : Nat) : foldRound sum = sum % 65536 + sum / 65536 := by
  rw [foldRound, Nat.shiftRight_eq_div_pow, Nat.and_two_pow_sub_one_eq_mod sum 16]

theorem foldCarries_of_lt {sum : Nat} (h : sum < 65536) : foldCarries sum = sum := by
  rw [foldCarries, dif_neg]
  rw [Nat.shiftRight_eq_div_pow]
  omega

theorem foldCarries_of_le {sum : Nat} (h : 65536 ≤ sum) :
    foldCarries sum = foldCarries (foldRound sum) := by
  rw [foldCarries, dif_pos]
  · rfl
  · rw [Nat.shiftRight_eq_div_pow]
    omega

/-- Below `2 ^ 31` the carries are added in two rounds. -/
theorem foldCarries_rounds {sum : Nat} (h : sum < 2 ^ 31) :
    ∃ n ≤ 2, foldRound^[n] sum < 65536 ∧ foldCarries sum = foldRound^[n] sum := by
  by_cases h0 : sum < 65536
  · exact ⟨0, by decide, h0, foldCarries_of_lt h0⟩
  · have hfirst := foldCarries_of_le (Nat.le_of_not_lt h0)
    by_cases h1 : foldRound sum < 65536
    · exact ⟨1, by decide, h1, hfirst.trans (foldCarries_of_lt h1)⟩
    · have hsecond := foldCarries_of_le (Nat.le_of_not_lt h1)
      have h2 : foldRound (foldRound sum) < 65536 := by
        rw [foldRound_eq sum] at h1 ⊢
        rw [foldRound_eq]
        omega
      exact ⟨2, by decide, h2, hfirst.trans (hsecond.trans (foldCarries_of_lt h2))⟩

/-- The words of a sequence add up to less than its length would allow. -/
theorem sum_words_two (bytes : List UInt8) :
    2 * (words bytes).sum ≤ 65535 * (bytes.length + 1) := by
  induction bytes using words.induct with
  | case1 high low rest ih =>
    have hh := high.toNat_lt
    have hl := low.toNat_lt
    simp only [words, sum_cons, length_cons]
    omega
  | case2 high =>
    have hh := high.toNat_lt
    simp only [words, sum_cons, sum_nil, length_cons, length_nil]
    omega
  | case3 => decide

theorem sum_words_lt {bytes : List UInt8} (h : bytes.length ≤ 65535) :
    (words bytes).sum < 2 ^ 31 := by
  have hle := sum_words_two bytes
  omega

/-- The accumulator holds the sum itself. -/
theorem checksumLoop_exact {bytes : List UInt8} (h : bytes.length ≤ 65535) :
    checksumLoop bytes 0 = (words bytes).sum := by
  have hlt := sum_words_lt h
  rw [checksumLoop_eq bytes 0 (by omega), Nat.zero_add]

end Sums

section Filled

/-- The bytes of a 16-bit value are the field of its number. -/
theorem putBe16_append (a b : List UInt8) (v : BitVec 16) :
    putBe16 (a ++ [0, 0] ++ b) a.length v = a ++ field v.toNat ++ b := by
  have hhigh : (v >>> 8).toNat = v.toNat / 256 := by
    rw [BitVec.toNat_ushiftRight, Nat.shiftRight_eq_div_pow]
  have hlow : UInt8.ofNat v.toNat = UInt8.ofNat (v.toNat % 256) := by
    apply UInt8.toNat_inj.mp
    rw [UInt8.toNat_ofNat', UInt8.toNat_ofNat', Nat.mod_mod]
  rw [putBe16, hhigh, hlow, field, append_assoc, append_assoc,
    set_append_right _ _ (Nat.le_refl _), set_append_right _ _ (Nat.le_succ _)]
  simp

/-- A sequence with two zero bytes at a place. -/
theorem eq_append_zeros {s : List UInt8} {i : Nat} (h0 : s[i]? = some 0)
    (h1 : s[i + 1]? = some 0) :
    s = s.take i ++ [0, 0] ++ s.drop (i + 2) ∧ (s.take i).length = i := by
  obtain ⟨hi, hget⟩ := List.getElem?_eq_some_iff.mp h0
  obtain ⟨hi', hget'⟩ := List.getElem?_eq_some_iff.mp h1
  constructor
  · calc s = s.take i ++ s.drop i := (take_append_drop i s).symm
      _ = s.take i ++ (0 :: 0 :: s.drop (i + 2)) := by
          rw [drop_eq_getElem_cons hi, drop_eq_getElem_cons hi', hget, hget']
      _ = s.take i ++ [0, 0] ++ s.drop (i + 2) := by
          rw [append_assoc, cons_append, cons_append, nil_append]
  · rw [length_take, Nat.min_eq_left (Nat.le_of_lt hi)]

theorem toNat_ipChecksum {p : List UInt8} (h : p.length ≤ 65536) :
    (ipChecksum p).toNat = checksum p := by
  rw [ipChecksum_eq h, BitVec.toNat_ofNat, Nat.mod_eq_of_lt]
  rw [checksum]
  omega

end Filled

/-- The checksum is the complement of the one's-complement sum of the words, no
step of its computation overflows, and a sequence into which it is written at an
even place checks as zero. -/
theorem ip_checksum_law :
    (∀ (s : List UInt8) (i : Nat), s.length % 2 = 0 → s.length ≤ 65534 → i % 2 = 0 →
      s[i]? = some 0 → s[i + 1]? = some 0 → ipChecksum (putBe16 s i (ipChecksum s)) = 0) ∧
    ∀ s : List UInt8, s.length ≤ 65535 →
      ipChecksum s = ~~~ BitVec.ofNat 16 (onesSum (words s)) ∧
      (∀ k, checksumLoop (s.take k) 0 = (words (s.take k)).sum ∧
        (words (s.take k)).sum < 2 ^ 32) ∧
      ∃ n ≤ 2, foldRound^[n] (checksumLoop s 0) < 65536 ∧
        foldCarries (checksumLoop s 0) = foldRound^[n] (checksumLoop s 0) := by
  constructor
  · intro s i _ hlen heven h0 h1
    obtain ⟨hs, hi⟩ := eq_append_zeros h0 h1
    have hroom : i + 1 < s.length := (List.getElem?_eq_some_iff.mp h1).1
    have hsum := ipChecksum_filled (a := s.take i) (b := s.drop (i + 2)) (by rwa [hi]) (by
      rw [hi, List.length_drop]
      omega)
    rw [← hs, ← toNat_ipChecksum (by omega)] at hsum
    have hput := putBe16_append (s.take i) (s.drop (i + 2)) (ipChecksum s)
    rw [← hs, hi] at hput
    rw [hput]
    exact hsum
  · intro s hlen
    refine ⟨?_, fun k => ?_, ?_⟩
    · have hlt := (folds_onesSum s).lt
      apply BitVec.eq_of_toNat_eq
      rw [toNat_ipChecksum (by omega), BitVec.toNat_not, BitVec.toNat_ofNat, checksum,
        Nat.mod_eq_of_lt hlt]
    · have hk : (s.take k).length ≤ 65535 := Nat.le_trans (List.length_take_le' k s) hlen
      have hlt := sum_words_lt hk
      exact ⟨checksumLoop_exact hk, by omega⟩
    · rw [checksumLoop_exact hlen]
      exact foldCarries_rounds (sum_words_lt hlen)

theorem ip_checksum_law_four :
    ipChecksum (putBe16 [0x45, 0xFF, 0, 0] 2 (ipChecksum [0x45, 0xFF, 0, 0])) = 0 :=
  ip_checksum_law.1 [0x45, 0xFF, 0, 0] 2 rfl (by decide) rfl rfl rfl

end Mmix.Net
