import Mmix.Lib.Sha256

/-!
# The `sha256` program

The program of `sha256.c` reads its input in pieces of at most 128 bytes,
collects them in a buffer of two blocks and hashes the buffer whenever it is
full. At the end it pads what is left and hashes the one or two blocks of it.
The buffer is the list of the bytes in use; the others are never read.
-/

namespace Mmix.User

open Sha256 List

/-- The table `K`. -/
def shaK : List W32 := [
    0x428a2f98, 0x71374491, 0xb5c0fbcf, 0xe9b5dba5,
    0x3956c25b, 0x59f111f1, 0x923f82a4, 0xab1c5ed5,
    0xd807aa98, 0x12835b01, 0x243185be, 0x550c7dc3,
    0x72be5d74, 0x80deb1fe, 0x9bdc06a7, 0xc19bf174,
    0xe49b69c1, 0xefbe4786, 0x0fc19dc6, 0x240ca1cc,
    0x2de92c6f, 0x4a7484aa, 0x5cb0a9dc, 0x76f988da,
    0x983e5152, 0xa831c66d, 0xb00327c8, 0xbf597fc7,
    0xc6e00bf3, 0xd5a79147, 0x06ca6351, 0x14292967,
    0x27b70a85, 0x2e1b2138, 0x4d2c6dfc, 0x53380d13,
    0x650a7354, 0x766a0abb, 0x81c2c92e, 0x92722c85,
    0xa2bfe8a1, 0xa81a664b, 0xc24b8b70, 0xc76c51a3,
    0xd192e819, 0xd6990624, 0xf40e3585, 0x106aa070,
    0x19a4c116, 0x1e376c08, 0x2748774c, 0x34b0bcb5,
    0x391c0cb3, 0x4ed8aa4a, 0x5b9cca4f, 0x682e6ff3,
    0x748f82ee, 0x78a5636f, 0x84c87814, 0x8cc70208,
    0x90befffa, 0xa4506ceb, 0xbef9a3f7, 0xc67178f2]

/-- The initial value of `H`. -/
def shaH : Words :=
  ⟨0x6a09e667, 0xbb67ae85, 0x3c6ef372, 0xa54ff53a, 0x510e527f, 0x9b05688c, 0x1f83d9ab,
    0x5be0cd19⟩

/-- `ROTR`. -/
def rotr (x : W32) (n : Nat) : W32 := (x >>> n) ||| (x <<< (32 - n))

/-- A byte of the data as an `uint32_t`. -/
def dataByte (data : List UInt8) (i : Nat) : W32 := (data.getD i 0).toBitVec.setWidth 32

/-- The first loop of `sha_block`. -/
def loadWords (data : List UInt8) : List W32 :=
  (List.range 16).map fun i =>
    (dataByte data (i * 4) <<< 24) ||| (dataByte data (i * 4 + 1) <<< 16) |||
      (dataByte data (i * 4 + 2) <<< 8) ||| dataByte data (i * 4 + 3)

/-- The second loop of `sha_block`, which fills in a number of further words. -/
def extendWords : Nat → List W32 → List W32
  | 0, w => w
  | n + 1, w =>
    let i := w.length
    let w15 := w.getD (i - 15) 0
    let w2 := w.getD (i - 2) 0
    let s0 := rotr w15 7 ^^^ rotr w15 18 ^^^ (w15 >>> 3)
    let s1 := rotr w2 17 ^^^ rotr w2 19 ^^^ (w2 >>> 10)
    extendWords n (w ++ [w.getD (i - 16) 0 + s0 + w.getD (i - 7) 0 + s1])

/-- The body of the third loop of `sha_block`. -/
def shaRound (w : List W32) (v : Words) (i : Nat) : Words :=
  let s1 := rotr v.e 6 ^^^ rotr v.e 11 ^^^ rotr v.e 25
  let ch := (v.e &&& v.f) ^^^ (~~~v.e &&& v.g)
  let t1 := v.h + s1 + ch + shaK.getD i 0 + w.getD i 0
  let s0 := rotr v.a 2 ^^^ rotr v.a 13 ^^^ rotr v.a 22
  let maj := (v.a &&& v.b) ^^^ (v.a &&& v.c) ^^^ (v.b &&& v.c)
  let t2 := s0 + maj
  { h := v.g, g := v.f, f := v.e, e := v.d + t1, d := v.c, c := v.b, b := v.a, a := t1 + t2 }

/-- `sha_block`. -/
def shaBlock (hash : Words) (data : List UInt8) : Words :=
  let w := extendWords 48 (loadWords data)
  let v := (List.range 64).foldl (shaRound w) hash
  ⟨hash.a + v.a, hash.b + v.b, hash.c + v.c, hash.d + v.d, hash.e + v.e, hash.f + v.f,
    hash.g + v.g, hash.h + v.h⟩

/-- The static variables: `H`, and the `pend` bytes of `pending`. -/
structure Hasher where
  hash : Words
  pending : List UInt8

/-- `sizeof(pending)`. -/
abbrev pendingBytes : Nat := 128

/-- Hash a full buffer. -/
def Hasher.flush (s : Hasher) : Hasher where
  hash := shaBlock (shaBlock s.hash (s.pending.take 64)) (s.pending.drop 64)
  pending := []

/-- The loop of `feed`; a pass takes at least one byte. -/
def feedLoop : Nat → Hasher → List UInt8 → Hasher
  | 0, s, _ => s
  | passes + 1, s, data =>
    if data = [] then s
    else
      let take := min data.length (pendingBytes - s.pending.length)
      let s := { s with pending := s.pending ++ data.take take }
      feedLoop passes (if s.pending.length = pendingBytes then s.flush else s) (data.drop take)

/-- `feed`. -/
def feed (s : Hasher) (data : List UInt8) : Hasher := feedLoop data.length s data

/-- The loop that pads to 56 bytes modulo 64. -/
def padLoop : Nat → Hasher → Hasher
  | 0, s => s
  | passes + 1, s =>
    if s.pending.length % 64 ≠ 56 then
      if s.pending.length = pendingBytes then padLoop passes s.flush
      else padLoop passes { s with pending := s.pending ++ [0] }
    else s

/-- The loop that appends the length. -/
def appendLength (bits : BitVec 64) (s : Hasher) : Hasher :=
  (List.range 8).reverse.foldl
    (fun s i => { s with pending := s.pending ++ [UInt8.ofNat (bits >>> (i * 8)).toNat] }) s

/-- The loop over the last blocks. -/
def lastBlocks : Nat → Words → List UInt8 → Words
  | 0, hash, _ => hash
  | passes + 1, hash, pending =>
    if pending = [] then hash
    else lastBlocks passes (shaBlock hash (pending.take 64)) (pending.drop 64)

/-- `main` between the opening of the file and the output: the state `H` after
the pieces that `read` returns one after the other. -/
def shaMain (pieces : List (List UInt8)) : Words :=
  let total := (pieces.map List.length).sum
  let s := pieces.foldl feed ⟨shaH, []⟩
  let bits : BitVec 64 := BitVec.ofNat 64 total * 8
  let s := padLoop 65 { s with pending := s.pending ++ [0x80] }
  let s := appendLength bits s
  lastBlocks s.pending.length s.hash s.pending

/-! ### One block -/

theorem rotr_eq (x : W32) {n : Nat} (h : n < 32) : rotr x n = x.rotateRight n := by
  rw [rotr, BitVec.rotateRight_def, Nat.mod_eq_of_lt h]

theorem toNat_setWidth_shiftLeft (b : BitVec 8) {n : Nat} (hn : n ≤ 24) :
    (b.setWidth 32 <<< n).toNat = b.toNat <<< n := by
  rw [BitVec.toNat_shiftLeft, BitVec.toNat_setWidth_of_le (by decide)]
  apply Nat.mod_eq_of_lt
  rw [Nat.shiftLeft_eq]
  calc b.toNat * 2 ^ n < 2 ^ 8 * 2 ^ n :=
        Nat.mul_lt_mul_of_pos_right b.isLt (Nat.two_pow_pos n)
    _ ≤ 2 ^ 8 * 2 ^ 24 := Nat.mul_le_mul_left _ (Nat.pow_le_pow_right (by decide) hn)
    _ = 2 ^ 32 := rfl

/-- Four bytes shifted to their places are the word they stand for. -/
theorem shifted_bytes (b0 b1 b2 b3 : BitVec 8) :
    (b0.setWidth 32 <<< 24) ||| (b1.setWidth 32 <<< 16) ||| (b2.setWidth 32 <<< 8) |||
      b3.setWidth 32 = b0 ++ b1 ++ b2 ++ b3 := by
  apply BitVec.eq_of_toNat_eq
  simp only [BitVec.toNat_or, toNat_setWidth_shiftLeft _ (by decide : 24 ≤ 24),
    toNat_setWidth_shiftLeft _ (by decide : 16 ≤ 24),
    toNat_setWidth_shiftLeft _ (by decide : 8 ≤ 24),
    BitVec.toNat_setWidth_of_le (by decide : 8 ≤ 32), BitVec.toNat_append,
    Nat.shiftLeft_or_distrib, ← Nat.shiftLeft_add]

variable {data : List UInt8}

/-- The words of a list are those of the message schedule, as far as it goes. -/
def Scheduled (data : List UInt8) (w : List W32) : Prop :=
  ∀ t < w.length, w.getD t 0 = schedule data t

theorem loadWords_scheduled (data : List UInt8) : Scheduled data (loadWords data) := by
  intro t ht
  have ht16 : t < 16 := by simpa [loadWords] using ht
  rw [loadWords, getD_eq_getElem _ _ (by simpa [loadWords] using ht), getElem_map,
    getElem_range, schedule, if_pos ht16, blockWord, Nat.mul_comm t 4]
  exact shifted_bytes _ _ _ _

theorem Scheduled.concat {w : List W32} (h : Scheduled data w) {x : W32}
    (hx : x = schedule data w.length) : Scheduled data (w ++ [x]) := by
  intro t ht
  by_cases hlt : t < w.length
  · rw [getD_append _ _ _ _ hlt]
    exact h t hlt
  · have heq : t = w.length := by
      rw [length_append, length_singleton] at ht
      omega
    subst heq
    rw [getD_append_right _ _ _ _ (Nat.le_refl _), Nat.sub_self]
    exact hx

/-- Each further word follows the recurrence of the schedule. -/
theorem extendWords_scheduled (n : Nat) {w : List W32} (h16 : 16 ≤ w.length)
    (h : Scheduled data w) :
    Scheduled data (extendWords n w) ∧ (extendWords n w).length = w.length + n := by
  induction n generalizing w with
  | zero => exact ⟨h, rfl⟩
  | succ n ih =>
    rw [extendWords]
    have hnext := h.concat (x := w.getD (w.length - 16) 0 +
        (rotr (w.getD (w.length - 15) 0) 7 ^^^ rotr (w.getD (w.length - 15) 0) 18 ^^^
          (w.getD (w.length - 15) 0 >>> 3)) + w.getD (w.length - 7) 0 +
        (rotr (w.getD (w.length - 2) 0) 17 ^^^ rotr (w.getD (w.length - 2) 0) 19 ^^^
          (w.getD (w.length - 2) 0 >>> 10))) (by
      rw [schedule, if_neg (by omega), h _ (by omega), h _ (by omega), h _ (by omega),
        h _ (by omega), rotr_eq _ (by decide), rotr_eq _ (by decide), rotr_eq _ (by decide),
        rotr_eq _ (by decide), ← smallSigma0, ← smallSigma1]
      ac_rfl)
    obtain ⟨hsched, hlen⟩ := ih (by rw [length_append]; omega) hnext
    refine ⟨hsched, ?_⟩
    rw [hlen, length_append, length_singleton]
    omega

theorem shaK_eq : ∀ t < 64, shaK.getD t 0 = K t := by decide +kernel

theorem shaH_eq : shaH = initial := by decide +kernel

theorem shaRound_eq {w : List W32} (h : Scheduled data w) (hw : w.length = 64) (v : Words)
    {t : Nat} (ht : t < 64) : shaRound w v t = round (K t) (schedule data t) v := by
  rw [shaRound, shaK_eq t ht, h t (by omega), rotr_eq _ (by decide), rotr_eq _ (by decide),
    rotr_eq _ (by decide), rotr_eq _ (by decide), rotr_eq _ (by decide), rotr_eq _ (by decide)]
  rfl

theorem foldl_shaRound {w : List W32} (h : Scheduled data w) (hw : w.length = 64) (v : Words)
    {n : Nat} (hn : n ≤ 64) : (range n).foldl (shaRound w) v = rounds data v n := by
  induction n with
  | zero => rfl
  | succ n ih =>
    rw [range_succ, foldl_append, ih (by omega), rounds, ← shaRound_eq h hw _ (by omega)]
    rfl

/-- `sha_block` is the compression function. -/
theorem shaBlock_eq (hash : Words) (data : List UInt8) :
    shaBlock hash data = compress hash data := by
  have hload : (loadWords data).length = 16 := by simp [loadWords]
  obtain ⟨hsched, hlen⟩ :=
    extendWords_scheduled 48 (Nat.le_of_eq hload.symm) (loadWords_scheduled data)
  rw [hload] at hlen
  rw [shaBlock, foldl_shaRound hsched hlen hash (Nat.le_refl 64)]
  rfl

/-! ### The buffer -/

/-- The hasher has taken in a sequence of bytes: it has hashed whole blocks of
them and holds the others in its buffer. -/
structure Holds (s : Hasher) (m : List UInt8) : Prop where
  split : ∃ done, m = done ++ s.pending ∧ done.length % 64 = 0 ∧ s.hash = absorb initial done
  room : s.pending.length ≤ pendingBytes

variable {s : Hasher} {m : List UInt8}

theorem Holds.length_mod (h : Holds s m) : m.length % 64 = s.pending.length % 64 := by
  obtain ⟨done, hm, hdone, -⟩ := h.split
  rw [hm, length_append]
  omega

theorem Holds.push (h : Holds s m) {l : List UInt8}
    (hroom : s.pending.length + l.length ≤ pendingBytes) :
    Holds { s with pending := s.pending ++ l } (m ++ l) := by
  obtain ⟨done, hm, hdone, hhash⟩ := h.split
  refine ⟨⟨done, ?_, hdone, hhash⟩, ?_⟩
  · rw [hm, append_assoc]
  · rw [length_append]
    exact hroom

/-- A full buffer is two blocks. -/
theorem Holds.flush (h : Holds s m) (hfull : s.pending.length = pendingBytes) :
    Holds s.flush m := by
  obtain ⟨done, hm, hdone, hhash⟩ := h.split
  have h128 : s.pending.length = 128 := hfull
  refine ⟨⟨m, (append_nil m).symm, ?_, ?_⟩, Nat.zero_le _⟩
  · rw [hm, length_append, h128]
    omega
  · have hfirst : (s.pending.take 64).length = 64 := by
      rw [length_take, h128]
      rfl
    have hsecond : (s.pending.drop 64).length = 64 := by
      rw [length_drop, h128]
    calc s.flush.hash
        = compress (compress s.hash (s.pending.take 64)) (s.pending.drop 64) := by
          rw [Hasher.flush, shaBlock_eq, shaBlock_eq]
      _ = absorb (absorb s.hash (s.pending.take 64)) (s.pending.drop 64) := by
          rw [absorb_block hfirst, absorb_block hsecond]
      _ = absorb s.hash s.pending := by
          rw [← absorb_append (by rw [hfirst]), take_append_drop]
      _ = absorb initial m := by
          rw [hhash, ← absorb_append hdone, ← hm]

/-- Each pass of `feed` moves as many bytes into the buffer as fit. -/
theorem feedLoop_holds (passes : Nat) {data : List UInt8} (h : Holds s m)
    (hroom : s.pending.length < pendingBytes) (hpasses : data.length ≤ passes) :
    Holds (feedLoop passes s data) (m ++ data) ∧
      (feedLoop passes s data).pending.length < pendingBytes := by
  induction passes generalizing s m data with
  | zero =>
    obtain rfl := eq_nil_of_length_eq_zero (Nat.le_zero.mp hpasses)
    exact ⟨(append_nil m).symm ▸ h, hroom⟩
  | succ passes ih =>
    rw [feedLoop]
    by_cases hdata : data = []
    · subst hdata
      rw [if_pos rfl, append_nil]
      exact ⟨h, hroom⟩
    rw [if_neg hdata]
    have hpos := length_pos_iff.mpr hdata
    generalize htake : min data.length (pendingBytes - s.pending.length) = take
    have hlen : (data.take take).length = take := by
      rw [length_take]
      omega
    have hpush := h.push (l := data.take take) (by omega)
    have hrest : (data.drop take).length ≤ passes := by
      rw [length_drop]
      omega
    have hm : m ++ data = m ++ data.take take ++ data.drop take := by
      rw [append_assoc, take_append_drop]
    rw [hm]
    dsimp only
    by_cases hfull : (s.pending ++ data.take take).length = pendingBytes
    · rw [if_pos hfull]
      exact ih (hpush.flush hfull) (by decide : 0 < pendingBytes) hrest
    · rw [if_neg hfull]
      have hle := hpush.room
      exact ih hpush (Nat.lt_of_le_of_ne hle hfull) hrest

theorem feeds_hold (pieces : List (List UInt8)) (h : Holds s m)
    (hroom : s.pending.length < pendingBytes) :
    Holds (pieces.foldl feed s) (m ++ pieces.flatten) ∧
      (pieces.foldl feed s).pending.length < pendingBytes := by
  induction pieces generalizing s m with
  | nil => exact ⟨(append_nil m).symm ▸ h, hroom⟩
  | cons piece pieces ih =>
    obtain ⟨hfeed, hless⟩ := feedLoop_holds piece.length h hroom (Nat.le_refl _)
    rw [flatten_cons, ← append_assoc]
    exact ih hfeed hless

/-! ### The end -/

/-- The zeros up to 56 bytes modulo 64 behind a number of bytes. -/
def zerosTo56 (len : Nat) : Nat := (120 - len % 64) % 64

/-- The padding loop takes a pass for each zero, and one more if the buffer
fills up on the way. -/
theorem padLoop_holds (passes : Nat) (h : Holds s m)
    (hpasses : zerosTo56 s.pending.length + (if 120 < s.pending.length then 1 else 0) ≤ passes) :
    Holds (padLoop passes s) (m ++ replicate (zerosTo56 s.pending.length) 0) ∧
      (padLoop passes s).pending.length % 64 = 56 := by
  have hroom := h.room
  induction passes generalizing s m with
  | zero =>
    simp only [zerosTo56] at hpasses ⊢
    have hzero : (120 - s.pending.length % 64) % 64 = 0 := by omega
    rw [hzero]
    exact ⟨(append_nil m).symm ▸ h, by rw [padLoop]; omega⟩
  | succ passes ih =>
    rw [padLoop]
    by_cases h56 : s.pending.length % 64 ≠ 56
    · rw [if_pos h56]
      by_cases hfull : s.pending.length = pendingBytes
      · rw [if_pos hfull]
        have hzeros : zerosTo56 s.pending.length = zerosTo56 s.flush.pending.length := by
          rw [hfull]
          rfl
        rw [hzeros] at hpasses ⊢
        have h128 : s.pending.length = 128 := hfull
        refine ih (h.flush hfull) ?_ (Nat.zero_le _)
        rw [if_pos (by omega)] at hpasses
        have hnone : (if 120 < s.flush.pending.length then 1 else 0) = 0 := rfl
        rw [hnone]
        omega
      · rw [if_neg hfull]
        have hpush := h.push (l := [0]) (by rw [length_singleton]; omega)
        have hlen : (s.pending ++ [0]).length = s.pending.length + 1 := length_append
        have hzeros : zerosTo56 s.pending.length = zerosTo56 (s.pending.length + 1) + 1 := by
          simp only [zerosTo56]
          omega
        have hm : m ++ replicate (zerosTo56 s.pending.length) 0 =
            m ++ [0] ++ replicate (zerosTo56 (s.pending.length + 1)) 0 := by
          rw [hzeros, replicate_succ, append_assoc]
          rfl
        rw [hm, ← hlen]
        refine ih hpush ?_ hpush.room
        dsimp only
        rw [hlen]
        split at hpasses <;> split <;> omega
    · rw [if_neg h56]
      have hzero : zerosTo56 s.pending.length = 0 := by
        simp only [zerosTo56]
        omega
      rw [hzero]
      exact ⟨(append_nil m).symm ▸ h, not_not.mp h56⟩

theorem foldl_push (f : Nat → UInt8) (l : List Nat) (s : Hasher) :
    l.foldl (fun s i => { s with pending := s.pending ++ [f i] }) s =
      { s with pending := s.pending ++ l.map f } := by
  induction l generalizing s with
  | nil => rw [foldl_nil, map_nil, append_nil]
  | cons i l ih => rw [foldl_cons, ih, map_cons, append_assoc, singleton_append]

theorem appendLength_eq (bits : BitVec 64) (s : Hasher) :
    appendLength bits s = { s with pending := s.pending ++ bytes64 bits.toNat } := by
  have hbyte : ∀ i, (bits >>> (i * 8)).toNat = bits.toNat / 256 ^ i := by
    intro i
    rw [BitVec.toNat_ushiftRight, Nat.shiftRight_eq_div_pow, Nat.mul_comm, Nat.pow_mul]
  rw [appendLength, foldl_push]
  simp only [hbyte]
  rfl

theorem lastBlocks_eq (passes : Nat) (hash : Words) {pending : List UInt8}
    (h64 : pending.length % 64 = 0) (hpasses : pending.length ≤ passes) :
    lastBlocks passes hash pending = absorb hash pending := by
  induction passes generalizing hash pending with
  | zero =>
    obtain rfl := eq_nil_of_length_eq_zero (Nat.le_zero.mp hpasses)
    rfl
  | succ passes ih =>
    rw [lastBlocks]
    by_cases hnil : pending = []
    · subst hnil
      rfl
    · have hpos := length_pos_iff.mpr hnil
      have hblock : (pending.take 64).length = 64 := by
        rw [length_take]
        omega
      have hrest : (pending.drop 64).length = pending.length - 64 := length_drop
      rw [if_neg hnil, ih _ (by omega) (by omega), shaBlock_eq, ← absorb_block hblock,
        ← absorb_append (by rw [hblock]), take_append_drop]

/-- The program computes the digest of its input, in whatever pieces it comes. -/
theorem shaMain_eq_digest (pieces : List (List UInt8)) (hlen : pieces.flatten.length < 2 ^ 61) :
    shaMain pieces = digest pieces.flatten := by
  have hstart : Holds ⟨shaH, []⟩ [] := ⟨⟨[], rfl, rfl, shaH_eq⟩, Nat.zero_le _⟩
  obtain ⟨hfed, hroom⟩ := feeds_hold pieces hstart (by decide : 0 < pendingBytes)
  rw [List.nil_append] at hfed
  rw [shaMain]
  generalize pieces.foldl feed ⟨shaH, []⟩ = s at *
  have hone := hfed.push (l := [0x80]) hroom
  have h128 : s.pending.length < 128 := hroom
  have hone' : (s.pending ++ [0x80]).length = s.pending.length + 1 := List.length_append
  obtain ⟨hpad, h56⟩ := padLoop_holds 65 hone (by
    dsimp only
    rw [hone', zerosTo56]
    split <;> omega)
  dsimp only at hpad ⊢
  rw [hone'] at hpad
  generalize padLoop 65 { s with pending := s.pending ++ [0x80] } = s' at *
  have hbits : (BitVec.ofNat 64 (pieces.map List.length).sum * 8).toNat =
      8 * pieces.flatten.length := by
    have h8 : (8 : BitVec 64).toNat = 8 := rfl
    rw [BitVec.toNat_mul, BitVec.toNat_ofNat, ← List.length_flatten, h8]
    omega
  have hzeros : zerosTo56 (s.pending.length + 1) = (119 - pieces.flatten.length % 64) % 64 := by
    have hmod := hfed.length_mod
    rw [zerosTo56]
    omega
  obtain ⟨done, hdone, hdone64, hhash⟩ := hpad.split
  have hlast : (s'.pending ++ bytes64 (8 * pieces.flatten.length)).length % 64 = 0 := by
    have h8 : (bytes64 (8 * pieces.flatten.length)).length = 8 := by simp [bytes64]
    rw [List.length_append, h8]
    omega
  rw [appendLength_eq, hbits]
  dsimp only
  rw [lastBlocks_eq _ _ hlast (Nat.le_refl _), hhash, ← absorb_append hdone64,
    ← List.append_assoc, ← hdone, digest, padding, hzeros]
  simp only [List.append_assoc, List.cons_append, List.nil_append]

/-- The message of three bytes, read in two pieces. -/
theorem shaMain_abc : [[97], [98, 99]].flatten.length < 2 ^ 61 ∧
    shaMain [[97], [98, 99]] = digest [97, 98, 99] :=
  ⟨by decide, shaMain_eq_digest [[97], [98, 99]] (by decide)⟩

end Mmix.User
