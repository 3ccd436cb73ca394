import Mmix.Fs.Vfs

/-!
# The `base64` program

The encoder and the decoder of `base64.c` as functions of the bytes on their
standard input. The encoder collects three bytes and writes four characters,
with a line feed after every 76 of them and at the end; the decoder ignores
everything but the 64 characters of the alphabet.
-/

namespace Mmix.User

open Fs List

/-- `b64_table`. -/
def b64Table : List UInt8 :=
  ascii "ABCDEFGHIJKLMNOPQRSTUVWXYZabcdefghijklmnopqrstuvwxyz0123456789+/"

abbrev lineFeed : UInt8 := 10

/-- The character of a value below 64. -/
def b64Char (i : Nat) : UInt8 := b64Table.getD i 0

/-- The four characters of three bytes. -/
def encodeThree (in0 in1 in2 : Nat) : List UInt8 :=
  [b64Char (in0 >>> 2), b64Char (((in0 &&& 0x03) <<< 4) ||| (in1 >>> 4)),
    b64Char (((in1 &&& 0x0F) <<< 2) ||| (in2 >>> 6)), b64Char (in2 &&& 0x3F)]

/-- The end of `encode_stream`, with the bytes left over and the column. -/
def encodeEnd : List UInt8 → Nat → List UInt8
  | [in0], _ =>
    [b64Char (in0.toNat >>> 2), b64Char ((in0.toNat &&& 0x03) <<< 4), 61, 61] ++ [lineFeed]
  | [in0, in1], _ =>
    [b64Char (in0.toNat >>> 2),
      b64Char (((in0.toNat &&& 0x03) <<< 4) ||| (in1.toNat >>> 4)),
      b64Char ((in1.toNat &&& 0x0F) <<< 2), 61] ++ [lineFeed]
  | _, col => if col ≠ 0 then [lineFeed] else []

/-- The loop of `encode_stream`, with the bytes collected and the column. -/
def encodeLoop : List UInt8 → List UInt8 → Nat → List UInt8
  | [], pending, col => encodeEnd pending col
  | c :: rest, pending, col =>
    match pending with
    | [in0, in1] =>
      encodeThree in0.toNat in1.toNat c.toNat ++
        if 76 ≤ col + 4 then [lineFeed] ++ encodeLoop rest [] 0
        else encodeLoop rest [] (col + 4)
    | pending => encodeLoop rest (pending ++ [c]) col

/-- `encode_stream`: what is written for what is read. -/
def encodeStream (input : List UInt8) : List UInt8 := encodeLoop input [] 0

/-- `b64_val`, with nothing for -1. -/
def b64Val (c : UInt8) : Option Nat :=
  if 65 ≤ c ∧ c ≤ 90 then some (c.toNat - 65)
  else if 97 ≤ c ∧ c ≤ 122 then some (c.toNat - 97 + 26)
  else if 48 ≤ c ∧ c ≤ 57 then some (c.toNat - 48 + 52)
  else if c = 43 then some 62
  else if c = 47 then some 63
  else none

/-- The end of `decode_stream`, with the values left over. -/
def decodeEnd : List Nat → List UInt8
  | [v0, v1] =>
    let acc := (v0 <<< 18) ||| (v1 <<< 12)
    [UInt8.ofNat (acc >>> 16)]
  | [v0, v1, v2] =>
    let acc := (v0 <<< 18) ||| (v1 <<< 12) ||| (v2 <<< 6)
    [UInt8.ofNat (acc >>> 16), UInt8.ofNat (acc >>> 8)]
  | _ => []

/-- The bytes of four values. -/
def decodeFour (v0 v1 v2 v3 : Nat) : List UInt8 :=
  let acc := (v0 <<< 18) ||| (v1 <<< 12) ||| (v2 <<< 6) ||| v3
  [UInt8.ofNat (acc >>> 16), UInt8.ofNat (acc >>> 8), UInt8.ofNat acc]

/-- The loop of `decode_stream`, with the values collected. -/
def decodeLoop : List UInt8 → List Nat → List UInt8
  | [], vals => decodeEnd vals
  | c :: rest, vals =>
    match b64Val c with
    | none => decodeLoop rest vals
    | some v =>
      match vals with
      | [v0, v1, v2] => decodeFour v0 v1 v2 v ++ decodeLoop rest []
      | vals => decodeLoop rest (vals ++ [v])

/-- `decode_stream`: what is written for what is read. -/
def decodeStream (input : List UInt8) : List UInt8 := decodeLoop input []

/-! ### Six bits at a time -/

/-- The values of a byte sequence cut into six bits each, with zeros behind. -/
def sextets : List UInt8 → List Nat
  | a :: b :: c :: rest =>
    [a.toNat / 4, a.toNat % 4 * 16 + b.toNat / 16, b.toNat % 16 * 4 + c.toNat / 64,
      c.toNat % 64] ++ sextets rest
  | [a, b] => [a.toNat / 4, a.toNat % 4 * 16 + b.toNat / 16, b.toNat % 16 * 4]
  | [a] => [a.toNat / 4, a.toNat % 4 * 16]
  | [] => []

theorem b64Val_b64Char {i : Nat} (h : i < 64) : b64Val (b64Char i) = some i := by
  have hall : ∀ i : Fin 64, b64Val (b64Char i) = some i.val := by decide +kernel
  exact hall ⟨i, h⟩

theorem first_value (a : Nat) : a >>> 2 = a / 4 := Nat.shiftRight_eq_div_pow a 2

theorem second_value (a : Nat) {b : Nat} (hb : b < 256) :
    ((a &&& 0x03) <<< 4) ||| (b >>> 4) = a % 4 * 16 + b / 16 := by
  rw [← Nat.shiftLeft_add_eq_or_of_lt (by rw [Nat.shiftRight_eq_div_pow]; omega),
    Nat.shiftLeft_eq, Nat.shiftRight_eq_div_pow, Nat.and_two_pow_sub_one_eq_mod a 2]

theorem third_value (b : Nat) {c : Nat} (hc : c < 256) :
    ((b &&& 0x0F) <<< 2) ||| (c >>> 6) = b % 16 * 4 + c / 64 := by
  rw [← Nat.shiftLeft_add_eq_or_of_lt (by rw [Nat.shiftRight_eq_div_pow]; omega),
    Nat.shiftLeft_eq, Nat.shiftRight_eq_div_pow, Nat.and_two_pow_sub_one_eq_mod b 4]

theorem fourth_value (c : Nat) : c &&& 0x3F = c % 64 := Nat.and_two_pow_sub_one_eq_mod c 6

theorem encodeThree_values (a b c : UInt8) :
    (encodeThree a.toNat b.toNat c.toNat).filterMap b64Val = sextets [a, b, c] := by
  have ha := a.toNat_lt
  have hb := b.toNat_lt
  have hc := c.toNat_lt
  rw [encodeThree, first_value, second_value _ hb, third_value _ hc, fourth_value]
  simp only [filterMap_cons, filterMap_nil]
  rw [b64Val_b64Char (by omega), b64Val_b64Char (by omega), b64Val_b64Char (by omega),
    b64Val_b64Char (by omega)]
  rfl

theorem encodeEnd_values {pending : List UInt8} (col : Nat) (h : pending.length < 3) :
    (encodeEnd pending col).filterMap b64Val = sextets pending := by
  match pending, h with
  | [], _ =>
    rw [encodeEnd]
    · split <;> decide
    · rintro _ ⟨⟩
    · rintro _ _ ⟨⟩
  | [a], _ =>
    have ha := a.toNat_lt
    have hlow : (a.toNat &&& 0x03) <<< 4 = a.toNat % 4 * 16 := by
      rw [Nat.shiftLeft_eq, Nat.and_two_pow_sub_one_eq_mod a.toNat 2]
    have hpad : b64Val 61 = none := by decide
    have hline : b64Val lineFeed = none := by decide
    rw [encodeEnd, first_value, hlow]
    simp only [cons_append, nil_append, filterMap_cons, filterMap_nil,
      hpad, hline]
    rw [b64Val_b64Char (by omega), b64Val_b64Char (by omega)]
    rfl
  | [a, b], _ =>
    have ha := a.toNat_lt
    have hb := b.toNat_lt
    have hlow : (b.toNat &&& 0x0F) <<< 2 = b.toNat % 16 * 4 := by
      rw [Nat.shiftLeft_eq, Nat.and_two_pow_sub_one_eq_mod b.toNat 4]
    have hpad : b64Val 61 = none := by decide
    have hline : b64Val lineFeed = none := by decide
    rw [encodeEnd, first_value, second_value _ hb, hlow]
    simp only [cons_append, nil_append, filterMap_cons, filterMap_nil,
      hpad, hline]
    rw [b64Val_b64Char (by omega), b64Val_b64Char (by omega), b64Val_b64Char (by omega)]
    rfl

/-- The characters of the output stand for the values of the input. -/
theorem encodeLoop_values (input : List UInt8) {pending : List UInt8} (col : Nat)
    (h : pending.length < 3) :
    (encodeLoop input pending col).filterMap b64Val = sextets (pending ++ input) := by
  induction input generalizing pending col with
  | nil => rw [encodeLoop, encodeEnd_values col h, append_nil]
  | cons c rest ih =>
    have hline : b64Val lineFeed = none := by decide
    match pending, h with
    | [], _ =>
      rw [encodeLoop, ih col (by simp)]
      · rfl
      · rintro _ _ ⟨⟩
    | [a], _ =>
      rw [encodeLoop, ih col (by simp)]
      · rfl
      · rintro _ _ ⟨⟩
    | [a, b], _ =>
      have hrest : (if 76 ≤ col + 4 then [lineFeed] ++ encodeLoop rest [] 0
          else encodeLoop rest [] (col + 4)).filterMap b64Val = sextets rest := by
        split
        · rw [filterMap_append, ih 0 (by decide)]
          simp only [filterMap_cons, hline, filterMap_nil, nil_append]
        · exact ih (col + 4) (by decide)
      rw [encodeLoop, filterMap_append, encodeThree_values, hrest]
      rfl

/-! ### Decoding -/

/-- The loop of `decode_stream` on the values of the characters it uses. -/
def decodeValues : List Nat → List Nat → List UInt8
  | [], vals => decodeEnd vals
  | v :: rest, vals =>
    match vals with
    | [v0, v1, v2] => decodeFour v0 v1 v2 v ++ decodeValues rest []
    | vals => decodeValues rest (vals ++ [v])

theorem decodeLoop_eq (input : List UInt8) (vals : List Nat) :
    decodeLoop input vals = decodeValues (input.filterMap b64Val) vals := by
  induction input generalizing vals with
  | nil => rfl
  | cons c rest ih =>
    rw [decodeLoop, filterMap_cons]
    cases b64Val c with
    | none => exact ih vals
    | some v =>
      dsimp only
      split
      · rw [ih]
        rfl
      · rw [ih, decodeValues]
        assumption

/-- The accumulator of the decoder. -/
theorem acc_eq (v0 : Nat) {v1 v2 v3 : Nat} (h1 : v1 < 64) (h2 : v2 < 64) (h3 : v3 < 64) :
    (v0 <<< 18) ||| (v1 <<< 12) ||| (v2 <<< 6) ||| v3 =
      v0 * 262144 + v1 * 4096 + v2 * 64 + v3 := by
  have e1 : (v0 <<< 18) ||| (v1 <<< 12) = (v0 * 64 + v1) <<< 12 := by
    rw [← Nat.shiftLeft_add_eq_or_of_lt (by rw [Nat.shiftLeft_eq]; omega)]
    simp only [Nat.shiftLeft_eq]
    omega
  have e2 : ((v0 * 64 + v1) <<< 12) ||| (v2 <<< 6) = ((v0 * 64 + v1) * 64 + v2) <<< 6 := by
    rw [← Nat.shiftLeft_add_eq_or_of_lt (by rw [Nat.shiftLeft_eq]; omega)]
    simp only [Nat.shiftLeft_eq]
    omega
  rw [e1, e2, ← Nat.shiftLeft_add_eq_or_of_lt (by omega), Nat.shiftLeft_eq]
  omega

theorem ofNat_eq {n : Nat} {a : UInt8} (h : n % 256 = a.toNat) : UInt8.ofNat n = a := by
  apply UInt8.toNat_inj.mp
  rw [UInt8.toNat_ofNat']
  exact h

/-- Four values that were cut from three bytes. -/
theorem decodeFour_sextets (a b c : UInt8) :
    decodeFour (a.toNat / 4) (a.toNat % 4 * 16 + b.toNat / 16)
      (b.toNat % 16 * 4 + c.toNat / 64) (c.toNat % 64) = [a, b, c] := by
  have ha := a.toNat_lt
  have hb := b.toNat_lt
  have hc := c.toNat_lt
  rw [decodeFour, acc_eq (a.toNat / 4) (by omega) (by omega) (by omega)]
  rw [ofNat_eq (a := a) (by rw [Nat.shiftRight_eq_div_pow]; omega),
    ofNat_eq (a := b) (by rw [Nat.shiftRight_eq_div_pow]; omega), ofNat_eq (a := c) (by omega)]

/-- The values left over from one or two bytes. -/
theorem decodeEnd_sextets (a b : UInt8) :
    decodeEnd (sextets [a]) = [a] ∧ decodeEnd (sextets [a, b]) = [a, b] := by
  have ha := a.toNat_lt
  have hb := b.toNat_lt
  have hone := acc_eq (a.toNat / 4) (by omega : a.toNat % 4 * 16 < 64) (by decide : 0 < 64)
    (by decide : 0 < 64)
  have htwo := acc_eq (a.toNat / 4) (by omega : a.toNat % 4 * 16 + b.toNat / 16 < 64)
    (by omega : b.toNat % 16 * 4 < 64) (by decide : 0 < 64)
  simp only [Nat.zero_shiftLeft, Nat.or_zero] at hone htwo
  constructor
  · simp only [sextets, decodeEnd, hone]
    rw [ofNat_eq (a := a) (by rw [Nat.shiftRight_eq_div_pow]; omega)]
  · simp only [sextets, decodeEnd, htwo]
    rw [ofNat_eq (a := a) (by rw [Nat.shiftRight_eq_div_pow]; omega),
      ofNat_eq (a := b) (by rw [Nat.shiftRight_eq_div_pow]; omega)]

/-- Decoding undoes the cut into values. -/
theorem decodeValues_sextets (s : List UInt8) : decodeValues (sextets s) [] = s := by
  induction s using sextets.induct with
  | case1 a b c rest ih =>
    have hstep : decodeValues (sextets (a :: b :: c :: rest)) [] =
        decodeFour (a.toNat / 4) (a.toNat % 4 * 16 + b.toNat / 16)
          (b.toNat % 16 * 4 + c.toNat / 64) (c.toNat % 64) ++ decodeValues (sextets rest) [] :=
      rfl
    rw [hstep, decodeFour_sextets, ih]
    rfl
  | case2 a b => exact (decodeEnd_sextets a b).2
  | case3 a => exact (decodeEnd_sextets a a).1
  | case4 => rfl

/-! ### Lines -/

/-- The lines of a text are at most 76 characters long, where the first one has
some characters already. -/
def Narrow : Nat → List UInt8 → Prop
  | col, [] => col ≤ 76
  | col, c :: rest => if c = lineFeed then col ≤ 76 ∧ Narrow 0 rest else Narrow (col + 1) rest

/-- The text behind a given one, both together, is empty or ends in a single
line feed. -/
def EndsOnce (before out : List UInt8) : Prop :=
  before ++ out = [] ∨ ∃ body x, x ≠ lineFeed ∧ before ++ out = body ++ [x, lineFeed]

theorem Narrow.le {col : Nat} {out : List UInt8} (h : Narrow col out) : col ≤ 76 := by
  induction out generalizing col with
  | nil => exact h
  | cons c rest ih =>
    rw [Narrow] at h
    split at h
    · exact h.1
    · exact Nat.le_of_succ_le (ih h)

theorem Narrow.of_prefix {col : Nat} {line out : List UInt8} (h : Narrow col out)
    (hline : line <+: out) (hno : lineFeed ∉ line) : col + line.length ≤ 76 := by
  induction out generalizing col line with
  | nil =>
    obtain rfl := prefix_nil.mp hline
    exact h
  | cons c rest ih =>
    cases line with
    | nil => exact h.le
    | cons c' line =>
      obtain ⟨rfl, hrest⟩ := cons_prefix_cons.mp hline
      rw [mem_cons, not_or] at hno
      rw [Narrow, if_neg (Ne.symm hno.1)] at h
      have := ih h hrest hno.2
      rw [length_cons]
      omega

/-- No line of the text is longer than 76 characters. -/
theorem Narrow.segment {col : Nat} {line out : List UInt8} (h : Narrow col out)
    (hline : line <:+: out) (hno : lineFeed ∉ line) : line.length ≤ 76 := by
  induction out generalizing col with
  | nil =>
    obtain rfl := infix_nil.mp hline
    exact Nat.zero_le _
  | cons c rest ih =>
    rcases infix_cons_iff.mp hline with hpre | hrest
    · exact Nat.le_trans (Nat.le_add_left _ _) (h.of_prefix hpre hno)
    · rw [Narrow] at h
      split at h
      · exact ih h.2 hrest
      · exact ih h hrest

theorem b64Char_ne {i : Nat} (h : i < 64) : b64Char i ≠ lineFeed := by
  have hall : ∀ i : Fin 64, b64Char i ≠ lineFeed := by decide +kernel
  exact hall ⟨i, h⟩

/-- Four characters that are not line feeds stay on their line. -/
theorem narrow_four {x0 x1 x2 x3 : UInt8} {col : Nat} {out : List UInt8}
    (h0 : x0 ≠ lineFeed) (h1 : x1 ≠ lineFeed) (h2 : x2 ≠ lineFeed) (h3 : x3 ≠ lineFeed) :
    Narrow col ([x0, x1, x2, x3] ++ out) ↔ Narrow (col + 4) out := by
  simp only [cons_append, nil_append, Narrow, if_neg h0, if_neg h1, if_neg h2, if_neg h3]

theorem encodeThree_ne (a b c : UInt8) : ∃ x0 x1 x2 x3,
    encodeThree a.toNat b.toNat c.toNat = [x0, x1, x2, x3] ∧
      x0 ≠ lineFeed ∧ x1 ≠ lineFeed ∧ x2 ≠ lineFeed ∧ x3 ≠ lineFeed := by
  have ha := a.toNat_lt
  have hb := b.toNat_lt
  have hc := c.toNat_lt
  rw [encodeThree, first_value, second_value _ hb, third_value _ hc, fourth_value]
  exact ⟨_, _, _, _, rfl, b64Char_ne (by omega), b64Char_ne (by omega), b64Char_ne (by omega),
    b64Char_ne (by omega)⟩

/-- The end of the output is a line feed, behind four more characters if there
are bytes left over. -/
theorem encodeEnd_cases {pending : List UInt8} (col : Nat) (h : pending.length < 3) :
    (pending = [] ∧ encodeEnd pending col = if col ≠ 0 then [lineFeed] else []) ∨
      ∃ x0 x1 x2 x3, encodeEnd pending col = [x0, x1, x2, x3] ++ [lineFeed] ∧
        x0 ≠ lineFeed ∧ x1 ≠ lineFeed ∧ x2 ≠ lineFeed ∧ x3 ≠ lineFeed := by
  match pending, h with
  | [], _ =>
    refine Or.inl ⟨rfl, ?_⟩
    rw [encodeEnd]
    · rintro _ ⟨⟩
    · rintro _ _ ⟨⟩
  | [a], _ =>
    have ha := a.toNat_lt
    refine Or.inr ⟨_, _, _, _, rfl, b64Char_ne ?_, b64Char_ne ?_, by decide, by decide⟩
    · rw [first_value]
      omega
    · rw [Nat.shiftLeft_eq, Nat.and_two_pow_sub_one_eq_mod a.toNat 2]
      omega
  | [a, b], _ =>
    have ha := a.toNat_lt
    have hb := b.toNat_lt
    refine Or.inr ⟨_, _, _, _, rfl, b64Char_ne ?_, b64Char_ne ?_, b64Char_ne ?_, by decide⟩
    · rw [first_value]
      omega
    · rw [second_value _ hb]
      omega
    · rw [Nat.shiftLeft_eq, Nat.and_two_pow_sub_one_eq_mod b.toNat 4]
      omega

theorem encodeEnd_narrow {pending : List UInt8} {col : Nat} (h : pending.length < 3)
    (hcol : col ≤ 72) : Narrow col (encodeEnd pending col) := by
  rcases encodeEnd_cases col h with ⟨-, heq⟩ | ⟨x0, x1, x2, x3, heq, h0, h1, h2, h3⟩
  · rw [heq]
    split
    · exact ⟨by omega, Nat.zero_le _⟩
    · exact Nat.le_trans hcol (by decide)
  · rw [heq, narrow_four h0 h1 h2 h3]
    exact ⟨by omega, Nat.zero_le _⟩

/-- The column stays a multiple of four below 76. -/
theorem encodeLoop_narrow (input : List UInt8) {pending : List UInt8} {col : Nat}
    (h : pending.length < 3) (hcol : col ≤ 72) (h4 : col % 4 = 0) :
    Narrow col (encodeLoop input pending col) := by
  induction input generalizing pending col with
  | nil => exact encodeEnd_narrow h hcol
  | cons c rest ih =>
    match pending, h with
    | [], _ =>
      rw [encodeLoop]
      · exact ih (by simp) hcol h4
      · rintro _ _ ⟨⟩
    | [a], _ =>
      rw [encodeLoop]
      · exact ih (by simp) hcol h4
      · rintro _ _ ⟨⟩
    | [a, b], _ =>
      obtain ⟨x0, x1, x2, x3, heq, h0, h1, h2, h3⟩ := encodeThree_ne a b c
      rw [encodeLoop, heq, narrow_four h0 h1 h2 h3]
      split
      · exact ⟨by omega, ih (by decide) (by decide) rfl⟩
      · exact ih (by decide) (by omega) (by omega)

/-! ### The last line feed -/

theorem endsOnce_of_suffix {before out : List UInt8} {x : UInt8} (hx : x ≠ lineFeed)
    (h : [x, lineFeed] <:+ out) : EndsOnce before out := by
  obtain ⟨body, rfl⟩ := h
  exact Or.inr ⟨before ++ body, x, hx, (append_assoc ..).symm⟩

/-- A text that ends in a single line feed also does so behind another one. -/
theorem EndsOnce.behind {mid out : List UInt8} (h : EndsOnce mid out) (hmid : mid ≠ [])
    (before more : List UInt8) : EndsOnce before (more ++ (mid ++ out)) := by
  rcases h with hnil | ⟨body, x, hx, heq⟩
  · exact absurd (append_eq_nil_iff.mp hnil).1 hmid
  · apply endsOnce_of_suffix hx
    rw [heq, ← append_assoc]
    exact suffix_append _ _

theorem encodeEnd_endsOnce {pending : List UInt8} {col : Nat} {y : UInt8}
    (h : pending.length < 3) (hy : y ≠ lineFeed) :
    EndsOnce (if col = 0 then [] else [y]) (encodeEnd pending col) := by
  rcases encodeEnd_cases col h with ⟨-, heq⟩ | ⟨x0, x1, x2, x3, heq, -, -, -, h3⟩
  · rw [heq]
    by_cases hcol : col = 0
    · exact Or.inl (by simp [hcol])
    · exact Or.inr ⟨[], y, hy, by simp [hcol]⟩
  · rw [heq]
    exact endsOnce_of_suffix h3 ⟨[x0, x1, x2], rfl⟩

/-- With a character of the line, or none at its start, in front. -/
theorem encodeLoop_endsOnce (input : List UInt8) {pending : List UInt8} {col : Nat} {y : UInt8}
    (h : pending.length < 3) (hy : y ≠ lineFeed) :
    EndsOnce (if col = 0 then [] else [y]) (encodeLoop input pending col) := by
  induction input generalizing pending col y with
  | nil => exact encodeEnd_endsOnce h hy
  | cons c rest ih =>
    match pending, h with
    | [], _ =>
      rw [encodeLoop]
      · exact ih (by simp) hy
      · rintro _ _ ⟨⟩
    | [a], _ =>
      rw [encodeLoop]
      · exact ih (by simp) hy
      · rintro _ _ ⟨⟩
    | [a, b], _ =>
      obtain ⟨x0, x1, x2, x3, heq, -, -, -, h3⟩ := encodeThree_ne a b c
      rw [encodeLoop, heq]
      generalize (if col = 0 then [] else [y]) = before
      split
      · have hrest := @ih [] 0 y (by decide) hy
        rw [if_pos rfl] at hrest
        rcases hrest with hnil | ⟨body, x, hx, hout⟩
        · rw [nil_append] at hnil
          rw [hnil]
          exact endsOnce_of_suffix h3 ⟨[x0, x1, x2], rfl⟩
        · rw [nil_append] at hout
          rw [hout]
          exact endsOnce_of_suffix hx ⟨[x0, x1, x2, x3, lineFeed] ++ body, by simp⟩
      · have hrest := @ih [] (col + 4) x3 (by decide) h3
        rw [if_neg (Nat.succ_ne_zero _)] at hrest
        exact hrest.behind (cons_ne_nil _ _) before [x0, x1, x2]

/-- What the encoder writes decodes to what it read. It has no more than 76
characters between two line feeds, and is empty or ends in a single line feed. -/
theorem base64_round_trip (s : List UInt8) :
    decodeStream (encodeStream s) = s ∧
      (∀ line, line <:+: encodeStream s → lineFeed ∉ line → line.length ≤ 76) ∧
      (encodeStream s = [] ∨
        ∃ body x, x ≠ lineFeed ∧ encodeStream s = body ++ [x, lineFeed]) := by
  refine ⟨?_, ?_, ?_⟩
  · rw [decodeStream, decodeLoop_eq, encodeStream, encodeLoop_values s 0 (by decide),
      List.nil_append, decodeValues_sextets]
  · intro line hline hno
    exact (encodeLoop_narrow s (by decide) (by decide) rfl).segment hline hno
  · have hend := @encodeLoop_endsOnce s [] 0 65 (by decide) (by decide)
    rw [if_pos rfl] at hend
    exact hend

example : encodeStream (ascii "Man!") = ascii "TWFuIQ==" ++ [lineFeed] := by decide +kernel

end Mmix.User
