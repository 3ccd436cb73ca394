import Mmix.Lib.Decimal
import Mmix.Net.Netdev

/-!
# Dotted addresses

An address is written as four groups of one to three decimal digits with single
dots between them. `parse_ipv4_strict` of `net.c` finds the groups in one pass
over a buffer of known length. It accepts exactly the addresses and stays inside
the buffer.
-/

namespace Mmix.Net

open Decimal List Option

/-- Digits that complete a group of which some digits have been read. -/
structure Completes (val digits : Nat) (g : List UInt8) : Prop where
  digit : ∀ c ∈ g, IsDigit c
  pos : 0 < digits + g.length
  short : digits + g.length ≤ 3
  octet : digitsValue val g ≤ 255

/-- A group: one to three digits of a value of at most 255. -/
abbrev IsOctet (g : List UInt8) : Prop := Completes 0 0 g

/-- The text of an address. -/
def IsAddress (s : List UInt8) (ip : BitVec 32) : Prop :=
  ∃ a b c d, IsOctet a ∧ IsOctet b ∧ IsOctet c ∧ IsOctet d ∧
    s = a ++ [46] ++ b ++ [46] ++ c ++ [46] ++ d ∧
    ip.toNat = digitsValue 0 a * 2 ^ 24 + digitsValue 0 b * 2 ^ 16 + digitsValue 0 c * 2 ^ 8 +
      digitsValue 0 d

/-- The octets of an address, the highest one first. -/
def combine (octets : List Nat) : BitVec 32 :=
  BitVec.ofNat 32 (octets.foldl (fun ip octet => ip * 256 + octet) 0)

/-- The shifts with which both parsers put the octets together. -/
def packOctets (octets : List Nat) : BitVec 32 :=
  (BitVec.ofNat 32 (octets.getD 0 0) <<< 24) ||| (BitVec.ofNat 32 (octets.getD 1 0) <<< 16) |||
    (BitVec.ofNat 32 (octets.getD 2 0) <<< 8) ||| BitVec.ofNat 32 (octets.getD 3 0)

/-- One pass over a text, with the octets found so far and the value and number
of digits of the group that is being read. -/
def scanOctets : List UInt8 → List Nat → Nat → Nat → Option (List Nat)
  | [], octets, val, digits =>
    if octets.length ≠ 3 ∨ digits = 0 then none else some (octets ++ [val])
  | c :: rest, octets, val, digits =>
    if IsDigit c then
      if 3 < digits + 1 then none
      else if 255 < val * 10 + (c.toNat - 48) then none
      else scanOctets rest octets (val * 10 + (c.toNat - 48)) (digits + 1)
    else if c = 46 then
      if digits = 0 ∨ 3 ≤ octets.length then none
      else scanOctets rest (octets ++ [val]) 0 0
    else none

/-! ### The pass finds the groups -/

section Scan

variable {val digits : Nat} {c : UInt8} {g rest : List UInt8} {octets os : List Nat}

theorem completes_cons : Completes val digits (c :: g) ↔
    IsDigit c ∧ digits + 1 ≤ 3 ∧ val * 10 + (c.toNat - 48) ≤ 255 ∧
      Completes (val * 10 + (c.toNat - 48)) (digits + 1) g := by
  constructor
  · intro h
    have hshort := h.short
    have hle := le_digitsValue (val * 10 + (c.toNat - 48)) g
    rw [length_cons] at hshort
    refine ⟨h.digit c mem_cons_self, by omega, Nat.le_trans hle h.octet, ?_⟩
    exact ⟨fun x hx => h.digit x (mem_cons_of_mem c hx), by omega, by omega, h.octet⟩
  · rintro ⟨hdigit, -, -, h⟩
    have hshort := h.short
    refine ⟨fun x hx => ?_, ?_, ?_, h.octet⟩
    · cases mem_cons.mp hx with
      | inl heq => exact heq ▸ hdigit
      | inr hmem => exact h.digit x hmem
    · rw [length_cons]
      omega
    · rw [length_cons]
      omega

theorem completes_nil (hval : val ≤ 255) (hdigits : digits ≤ 3) :
    Completes val digits [] ↔ 0 < digits :=
  ⟨fun h => h.pos, fun h => ⟨nofun, h, hdigits, hval⟩⟩

theorem splitOn_dot (rest : List UInt8) :
    (46 :: rest).splitOn 46 = [] :: rest.splitOn (46 : UInt8) := by
  rw [splitOn, splitOnP_cons_eq_if_modifyHead]
  rfl

theorem splitOn_other (hc : c ≠ 46) (rest : List UInt8) :
    (c :: rest).splitOn 46 = (rest.splitOn 46).modifyHead (c :: ·) := by
  rw [splitOn, splitOnP_cons_eq_if_modifyHead, if_neg (by simpa using hc)]
  rfl

/-- The octets of groups, of which the first one completes the group being read. -/
def Found (octets : List Nat) (val digits : Nat) : List (List UInt8) → List Nat → Prop
  | [], _ => False
  | g :: gs, os => Completes val digits g ∧ (∀ x ∈ gs, IsOctet x) ∧ octets.length + gs.length = 3 ∧
      os = octets ++ digitsValue val g :: gs.map (digitsValue 0)

variable {gs : List (List UInt8)}

theorem found_end (hval : val ≤ 255) (hdigits : digits ≤ 3) :
    Found octets val digits [[]] os ↔
      ¬ (octets.length ≠ 3 ∨ digits = 0) ∧ octets ++ [val] = os := by
  constructor
  · rintro ⟨hg, -, hlen, rfl⟩
    have hpos := (completes_nil hval hdigits).mp hg
    rw [length_nil] at hlen
    exact ⟨by omega, rfl⟩
  · rintro ⟨hend, rfl⟩
    refine ⟨(completes_nil hval hdigits).mpr (by omega), nofun, ?_, rfl⟩
    rw [length_nil]
    omega

theorem found_digit (hc : IsDigit c) : Found octets val digits ((c :: g) :: gs) os ↔
    digits + 1 ≤ 3 ∧ val * 10 + (c.toNat - 48) ≤ 255 ∧
      Found octets (val * 10 + (c.toNat - 48)) (digits + 1) (g :: gs) os := by
  constructor
  · rintro ⟨hg, hrest⟩
    obtain ⟨-, hshort, hval, hg⟩ := completes_cons.mp hg
    exact ⟨hshort, hval, hg, hrest⟩
  · rintro ⟨hshort, hval, hg, hrest⟩
    exact ⟨completes_cons.mpr ⟨hc, hshort, hval, hg⟩, hrest⟩

theorem found_dot (hval : val ≤ 255) (hdigits : digits ≤ 3) :
    Found octets val digits ([] :: g :: gs) os ↔
      ¬ (digits = 0 ∨ 3 ≤ octets.length) ∧ Found (octets ++ [val]) 0 0 (g :: gs) os := by
  simp only [Found, completes_nil hval hdigits, forall_mem_cons, length_cons,
    length_append, length_nil, append_assoc, map_cons, singleton_append]
  constructor
  · rintro ⟨hpos, ⟨hg, hgs⟩, hlen, hos⟩
    exact ⟨by omega, hg, hgs, by omega, hos⟩
  · rintro ⟨hmore, hg, hgs, hlen, hos⟩
    exact ⟨by omega, ⟨hg, hgs⟩, by omega, hos⟩

theorem not_found (hc : ¬ IsDigit c) : ¬ Found octets val digits ((c :: g) :: gs) os :=
  fun h => hc (completes_cons.mp h.1).1

/-- The pass finds the octets between the dots. -/
theorem scanOctets_iff (hval : val ≤ 255) (hdigits : digits ≤ 3) :
    scanOctets rest octets val digits = some os ↔
      Found octets val digits (rest.splitOn 46) os := by
  induction rest generalizing octets val digits with
  | nil =>
    rw [splitOn_nil, found_end hval hdigits, scanOctets, ite_none_left_eq_some,
      some.injEq]
  | cons c rest ih =>
    obtain ⟨g, gs, hsplit⟩ := exists_cons_of_ne_nil (splitOn_ne_nil 46 rest)
    by_cases hdigit : IsDigit c
    · have hc : c ≠ 46 := by
        rintro rfl
        exact absurd hdigit (by decide)
      rw [splitOn_other hc, hsplit, modifyHead_cons, found_digit hdigit, scanOctets,
        if_pos hdigit, ite_none_left_eq_some, ite_none_left_eq_some, Nat.not_lt,
        Nat.not_lt]
      refine and_congr_right fun hshort => and_congr_right fun hle => ?_
      rw [ih hle hshort, hsplit]
    · by_cases hc : c = 46
      · rw [hc, splitOn_dot, hsplit, found_dot hval hdigits, scanOctets,
          if_neg (by decide), if_pos rfl, ite_none_left_eq_some]
        refine and_congr_right fun _ => ?_
        rw [ih (by decide) (by decide), hsplit]
      · rw [splitOn_other hc, hsplit, modifyHead_cons, scanOctets, if_neg hdigit, if_neg hc]
        exact iff_of_false nofun (not_found hdigit)

end Scan

/-! ### Addresses -/

section Addresses

variable {s : List UInt8} {ip : BitVec 32}

theorem toNat_combine {v₀ v₁ v₂ v₃ : Nat} (h₀ : v₀ ≤ 255) (h₁ : v₁ ≤ 255) (h₂ : v₂ ≤ 255)
    (h₃ : v₃ ≤ 255) :
    (combine [v₀, v₁, v₂, v₃]).toNat = v₀ * 2 ^ 24 + v₁ * 2 ^ 16 + v₂ * 2 ^ 8 + v₃ := by
  simp only [combine, foldl_cons, foldl_nil, BitVec.toNat_ofNat]
  omega

theorem not_dot_mem {g : List UInt8} (h : IsOctet g) : (46 : UInt8) ∉ g :=
  fun hmem => absurd (h.digit 46 hmem) (by decide)

theorem splitOn_groups {a b c d : List UInt8} (ha : IsOctet a) (hb : IsOctet b) (hc : IsOctet c)
    (hd : IsOctet d) :
    (a ++ [46] ++ b ++ [46] ++ c ++ [46] ++ d).splitOn 46 = [a, b, c, d] := by
  have hjoin : a ++ [46] ++ b ++ [46] ++ c ++ [46] ++ d = [46].intercalate [a, b, c, d] := by
    simp [intercalate]
  rw [hjoin]
  apply splitOn_intercalate
  · simp only [forall_mem_cons]
    exact ⟨not_dot_mem ha, not_dot_mem hb, not_dot_mem hc, not_dot_mem hd, nofun⟩
  · exact cons_ne_nil _ _

theorem found_four {l : List (List UInt8)} {os : List Nat} (h : Found [] 0 0 l os) :
    ∃ a b c d, l = [a, b, c, d] ∧ IsOctet a ∧ IsOctet b ∧ IsOctet c ∧ IsOctet d ∧
      os = [digitsValue 0 a, digitsValue 0 b, digitsValue 0 c, digitsValue 0 d] := by
  match l, h with
  | [a, b, c, d], ⟨ha, hrest, _, hos⟩ =>
    simp only [forall_mem_cons] at hrest
    exact ⟨a, b, c, d, rfl, ha, hrest.1, hrest.2.1, hrest.2.2.1, hos⟩

/-- The pass accepts the addresses. -/
theorem scanOctets_address :
    (scanOctets s [] 0 0).map combine = some ip ↔ IsAddress s ip := by
  simp only [map_eq_some_iff, scanOctets_iff (Nat.zero_le 255) (Nat.zero_le 3)]
  constructor
  · rintro ⟨os, hfound, rfl⟩
    obtain ⟨a, b, c, d, hsplit, ha, hb, hc, hd, rfl⟩ := found_four hfound
    refine ⟨a, b, c, d, ha, hb, hc, hd, ?_, ?_⟩
    · have hjoin : [(46 : UInt8)].intercalate (s.splitOn 46) = s :=
        intercalate_splitOn (46 : UInt8)
      rw [hsplit] at hjoin
      rw [← hjoin]
      simp [intercalate]
    · exact toNat_combine ha.octet hb.octet hc.octet hd.octet
  · rintro ⟨a, b, c, d, ha, hb, hc, hd, rfl, hip⟩
    refine ⟨[digitsValue 0 a, digitsValue 0 b, digitsValue 0 c, digitsValue 0 d], ?_, ?_⟩
    · rw [splitOn_groups ha hb hc hd]
      refine ⟨ha, ?_, rfl, rfl⟩
      simp only [forall_mem_cons]
      exact ⟨hb, hc, hd, nofun⟩
    · apply BitVec.eq_of_toNat_eq
      rw [toNat_combine ha.octet hb.octet hc.octet hd.octet, hip]

theorem IsAddress.length (h : IsAddress s ip) : 0 < s.length ∧ s.length ≤ 15 := by
  obtain ⟨a, b, c, d, ha, hb, hc, hd, rfl, -⟩ := h
  have hlena := ha.short
  have hlenb := hb.short
  have hlenc := hc.short
  have hlend := hd.short
  simp only [length_append, length_singleton]
  omega

end Addresses

/-! ### `parse_ipv4_strict` -/

section Strict

/-- The loop of `parse_ipv4_strict` as the source has it: over a buffer in memory,
with the positions that it reads. Each round that goes on advances `i`, so the
loop has left before it runs out of the `n` rounds. -/
def strictLoop (s : Nat → UInt8) (n : Nat) :
    Nat → Nat → List Nat → Nat → Nat → List Nat × Option (List Nat)
  | 0, _, _, _, _ => ([], none)
  | rounds + 1, i, octets, val, digits =>
    -- The first condition reads `s[i]` only if `i < n`, the second one always.
    let first := if i < n then [i] else []
    if i < n ∧ IsDigit (s i) then
      let val := val * 10 + ((s i).toNat - 48)
      if 3 < digits + 1 then (first, none)
      else if 255 < val then (first, none)
      else if i + 1 < n then
        let r := strictLoop s n rounds (i + 1) octets val (digits + 1)
        (first ++ r.1, r.2)
      else if octets.length ≠ 3 then (first, none)
      else (first, some (octets ++ [val]))
    else if s i = 46 ∧ octets.length < 3 ∧ 0 < digits then
      if n ≤ i + 1 then (first ++ [i], none)
      else
        let r := strictLoop s n rounds (i + 1) (octets ++ [val]) 0 0
        (first ++ [i] ++ r.1, r.2)
    else (first ++ [i], none)

/-- `parse_ipv4_strict`, with the positions that it reads. -/
def parseIpv4At (s : Nat → UInt8) (n : Nat) : List Nat × Option (BitVec 32) :=
  if n = 0 ∨ 15 < n then ([], none)
  else
    let r := strictLoop s n n 0 [] 0 0
    (r.1, r.2.map packOctets)

/-- The bytes of a buffer from a position on. -/
def bufferText (s : Nat → UInt8) : Nat → Nat → List UInt8
  | _, 0 => []
  | i, k + 1 => s i :: bufferText s (i + 1) k

variable {s : Nat → UInt8} {n : Nat}

theorem length_bufferText (s : Nat → UInt8) (i k : Nat) : (bufferText s i k).length = k := by
  induction k generalizing i with
  | zero => rfl
  | succ k ih => rw [bufferText, length_cons, ih]

/-- The loop over a text goes the way of the loop over a buffer. -/
theorem strictLoop_snd {rounds i : Nat} (hn : i + rounds = n) (octets : List Nat)
    (val digits : Nat) :
    (strictLoop s n rounds i octets val digits).2 =
      parseOctets (bufferText s i rounds) octets val digits := by
  induction rounds generalizing i octets val digits with
  | zero => rfl
  | succ rounds ih =>
    have hin : i < n := by omega
    have hgo := ih (i := i + 1) (by omega)
    have hrest : bufferText s (i + 1) rounds ≠ [] ↔ i + 1 < n := by
      rw [← length_pos_iff, length_bufferText]
      omega
    have hlast : bufferText s (i + 1) rounds = [] ↔ n ≤ i + 1 := by
      rw [← Nat.not_lt, ← hrest, ne_eq, not_not]
    rw [bufferText, strictLoop, parseOctets]
    simp only [hin, true_and, hrest, hlast]
    split
    · split
      · rfl
      · split
        · rfl
        · split
          · exact hgo octets _ _
          · split <;> rfl
    · split
      · split
        · rfl
        · exact hgo _ 0 0
      · rfl

/-- The loop accepts what the pass accepts. At the end of the text it has just
read a digit, or it has refused the dot. -/
theorem parseOctets_eq_scan {s : List UInt8} (hs : s ≠ []) (octets : List Nat)
    (val digits : Nat) : parseOctets s octets val digits = scanOctets s octets val digits := by
  induction s generalizing octets val digits with
  | nil => exact absurd rfl hs
  | cons c rest ih =>
    rw [parseOctets, scanOctets]
    by_cases hdigit : IsDigit c
    · rw [if_pos hdigit, if_pos hdigit]
      dsimp only
      by_cases hrest : rest = []
      · subst hrest
        simp only [ne_eq, not_true_eq_false, if_false, scanOctets, Nat.succ_ne_zero, or_false]
      · simp only [ne_eq, hrest, not_false_eq_true, if_true, ih hrest]
    · rw [if_neg hdigit, if_neg hdigit]
      by_cases hdot : c = 46
      · by_cases hopen : digits = 0 ∨ 3 ≤ octets.length
        · rw [if_pos hdot, if_pos hopen, if_neg (by omega)]
        · rw [if_pos hdot, if_neg hopen, if_pos ⟨hdot, by omega, by omega⟩]
          by_cases hrest : rest = []
          · rw [if_pos hrest, hrest, scanOctets, if_pos (Or.inr rfl)]
          · rw [if_neg hrest, ih hrest]
      · rw [if_neg hdot, if_neg fun h => hdot h.1]

/-- The loop reads inside the buffer. -/
theorem strictLoop_reads {rounds i : Nat} (hn : i + rounds = n) (octets : List Nat)
    (val digits : Nat) : ∀ j ∈ (strictLoop s n rounds i octets val digits).1, j < n := by
  induction rounds generalizing i octets val digits with
  | zero => exact nofun
  | succ rounds ih =>
    have hin : i < n := by omega
    have hfirst : ∀ j ∈ [i], j < n := fun j hj => mem_singleton.mp hj ▸ hin
    have hgo (octets : List Nat) (val digits : Nat) :
        ∀ j ∈ (strictLoop s n rounds (i + 1) octets val digits).1, j < n :=
      ih (by omega) octets val digits
    unfold strictLoop
    simp only [if_pos hin]
    split
    · split
      · exact hfirst
      · split
        · exact hfirst
        · split
          · exact forall_mem_append.mpr ⟨hfirst, hgo _ _ _⟩
          · split <;> exact hfirst
    · have htwice : ∀ j ∈ [i] ++ [i], j < n := forall_mem_append.mpr ⟨hfirst, hfirst⟩
      split
      · split
        · exact htwice
        · exact forall_mem_append.mpr ⟨htwice, hgo _ _ _⟩
      · exact htwice

theorem toNat_shifted {v k : Nat} (h : v ≤ 255) (hk : k ≤ 24) :
    (BitVec.ofNat 32 v <<< k).toNat = v <<< k := by
  have hlt : v <<< k < 2 ^ 32 := by
    rw [Nat.shiftLeft_eq]
    calc v * 2 ^ k ≤ 255 * 2 ^ k := Nat.mul_le_mul_right _ h
      _ ≤ 255 * 2 ^ 24 := Nat.mul_le_mul_left _ (Nat.pow_le_pow_right (by decide) hk)
      _ < 2 ^ 32 := by decide
  have hv : v % 2 ^ 32 = v := Nat.mod_eq_of_lt (by omega)
  rw [BitVec.toNat_shiftLeft, BitVec.toNat_ofNat, hv, Nat.mod_eq_of_lt hlt]

/-- The shifts of four octets make up their address. -/
theorem or_shifts {v₀ v₁ v₂ v₃ : Nat} (h₀ : v₀ ≤ 255) (h₁ : v₁ ≤ 255) (h₂ : v₂ ≤ 255)
    (h₃ : v₃ ≤ 255) :
    (BitVec.ofNat 32 v₀ <<< 24) ||| (BitVec.ofNat 32 v₁ <<< 16) ||| (BitVec.ofNat 32 v₂ <<< 8) |||
      BitVec.ofNat 32 v₃ = combine [v₀, v₁, v₂, v₃] := by
  have hjoin (high k low : Nat) (hlow : low ≤ 255) :
      (high <<< (k + 8)) ||| (low <<< k) = (high * 256 + low) <<< k := by
    rw [Nat.add_comm k 8, Nat.shiftLeft_add, ← Nat.shiftLeft_or_distrib,
      ← Nat.shiftLeft_add_eq_or_of_lt (by omega), Nat.shiftLeft_eq high]
  have h3 : BitVec.ofNat 32 v₃ = BitVec.ofNat 32 v₃ <<< 0 := by rw [BitVec.shiftLeft_zero]
  apply BitVec.eq_of_toNat_eq
  rw [h3, BitVec.toNat_or, BitVec.toNat_or, BitVec.toNat_or, toNat_shifted h₀ (by decide),
    toNat_shifted h₁ (by decide), toNat_shifted h₂ (by decide), toNat_shifted h₃ (by decide),
    hjoin v₀ 16 v₁ h₁, hjoin _ 8 v₂ h₂, hjoin _ 0 v₃ h₃, Nat.shiftLeft_zero,
    toNat_combine h₀ h₁ h₂ h₃]
  omega

/-- The octets that the pass finds are put together without loss. -/
theorem packOctets_scan {s : List UInt8} {os : List Nat} (h : scanOctets s [] 0 0 = some os) :
    packOctets os = combine os := by
  rw [scanOctets_iff (Nat.zero_le 255) (Nat.zero_le 3)] at h
  obtain ⟨a, b, c, d, -, ha, hb, hc, hd, rfl⟩ := found_four h
  exact or_shifts ha.octet hb.octet hc.octet hd.octet

/-- On a text `parse_ipv4_strict` accepts the addresses. -/
theorem parseIpv4Strict_iff (s : List UInt8) (ip : BitVec 32) :
    parseIpv4Strict s = some ip ↔ IsAddress s ip := by
  unfold parseIpv4Strict
  by_cases hn : s.length = 0 ∨ 15 < s.length
  · rw [if_pos hn]
    refine iff_of_false nofun fun h => ?_
    have hlen := h.length
    omega
  · have hs : s ≠ [] := fun h => hn (Or.inl (length_eq_zero_iff.mpr h))
    rw [if_neg hn, parseOctets_eq_scan hs, ← scanOctets_address]
    rfl

/-- The buffer is parsed as the text that it holds. -/
theorem parseIpv4At_snd (s : Nat → UInt8) (n : Nat) :
    (parseIpv4At s n).2 = parseIpv4Strict (bufferText s 0 n) := by
  unfold parseIpv4At parseIpv4Strict
  rw [length_bufferText]
  split
  · rfl
  · next hn =>
    have hs : bufferText s 0 n ≠ [] := by
      rw [← length_pos_iff, length_bufferText]
      omega
    dsimp only
    rw [strictLoop_snd (Nat.zero_add n)]
    cases hscan : parseOctets (bufferText s 0 n) [] 0 0 with
    | none => rfl
    | some os =>
      rw [parseOctets_eq_scan hs] at hscan
      exact congrArg some (packOctets_scan hscan)

theorem parseIpv4At_reads (s : Nat → UInt8) (n : Nat) : ∀ i ∈ (parseIpv4At s n).1, i < n := by
  unfold parseIpv4At
  split
  · exact nofun
  · exact strictLoop_reads (Nat.zero_add n) [] 0 0

end Strict

end Mmix.Net
