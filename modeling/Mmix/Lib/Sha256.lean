import Mathlib

/-!
# SHA-256

The hash function of FIPS 180-4 on sequences of bytes: the constants, the
logical functions, the message schedule, the compression function, the padding
and the digest.
-/

namespace Mmix.Sha256

open List

/-- A word of 32 bits. -/
abbrev W32 := BitVec 32

/-! ### Constants -/

/-- The first 64 prime numbers. -/
def primes : List Nat :=
  [2, 3, 5, 7, 11, 13, 17, 19, 23, 29, 31, 37, 41, 43, 47, 53, 59, 61, 67, 71, 73, 79, 83, 89,
    97, 101, 103, 107, 109, 113, 127, 131, 137, 139, 149, 151, 157, 163, 167, 173, 179, 181, 191,
    193, 197, 199, 211, 223, 227, 229, 233, 239, 241, 251, 257, 263, 269, 271, 277, 281, 283,
    293, 307, 311]

/-- The first 32 bits of the fractional part of the `k`-th root of the `i`-th
prime number. -/
def fractionBits (k i : Nat) : W32 :=
  BitVec.ofNat 32 (Nat.nthRoot k (primes.getD i 0 * 2 ^ (32 * k)))

/-- The constants of the rounds. -/
def K (t : Nat) : W32 := fractionBits 3 t

/-- Eight words: a hash value, or the working variables of a round. -/
structure Words where
  a : W32
  b : W32
  c : W32
  d : W32
  e : W32
  f : W32
  g : W32
  h : W32
  deriving DecidableEq

/-- The initial hash value. -/
def initial : Words where
  a := fractionBits 2 0
  b := fractionBits 2 1
  c := fractionBits 2 2
  d := fractionBits 2 3
  e := fractionBits 2 4
  f := fractionBits 2 5
  g := fractionBits 2 6
  h := fractionBits 2 7

/-! ### Functions -/

def ch (x y z : W32) : W32 := (x &&& y) ^^^ (~~~x &&& z)

def maj (x y z : W32) : W32 := (x &&& y) ^^^ (x &&& z) ^^^ (y &&& z)

def bigSigma0 (x : W32) : W32 := x.rotateRight 2 ^^^ x.rotateRight 13 ^^^ x.rotateRight 22

def bigSigma1 (x : W32) : W32 := x.rotateRight 6 ^^^ x.rotateRight 11 ^^^ x.rotateRight 25

def smallSigma0 (x : W32) : W32 := x.rotateRight 7 ^^^ x.rotateRight 18 ^^^ (x >>> 3)

def smallSigma1 (x : W32) : W32 := x.rotateRight 17 ^^^ x.rotateRight 19 ^^^ (x >>> 10)

/-! ### Compression -/

/-- A word of a block, its bytes in the order of their significance. -/
def blockWord (block : List UInt8) (t : Nat) : W32 :=
  (block.getD (4 * t) 0).toBitVec ++ (block.getD (4 * t + 1) 0).toBitVec ++
    (block.getD (4 * t + 2) 0).toBitVec ++ (block.getD (4 * t + 3) 0).toBitVec

/-- The message schedule. -/
def schedule (block : List UInt8) (t : Nat) : W32 :=
  if t < 16 then blockWord block t
  else smallSigma1 (schedule block (t - 2)) + schedule block (t - 7) +
    smallSigma0 (schedule block (t - 15)) + schedule block (t - 16)

/-- One round on the working variables. -/
def round (k w : W32) (v : Words) : Words :=
  let t1 := v.h + bigSigma1 v.e + ch v.e v.f v.g + k + w
  let t2 := bigSigma0 v.a + maj v.a v.b v.c
  ⟨t1 + t2, v.a, v.b, v.c, v.d + t1, v.e, v.f, v.g⟩

/-- The working variables after a number of rounds. -/
def rounds (block : List UInt8) (v : Words) : Nat → Words
  | 0 => v
  | t + 1 => round (K t) (schedule block t) (rounds block v t)

def Words.add (v v' : Words) : Words :=
  ⟨v.a + v'.a, v.b + v'.b, v.c + v'.c, v.d + v'.d, v.e + v'.e, v.f + v'.f, v.g + v'.g,
    v.h + v'.h⟩

/-- The hash value after a block. -/
def compress (hash : Words) (block : List UInt8) : Words := hash.add (rounds block hash 64)

/-! ### The digest -/

/-- The 64 bits of a number, in bytes of decreasing significance. -/
def bytes64 (n : Nat) : List UInt8 :=
  (List.range 8).map fun i => UInt8.ofNat (n / 256 ^ (7 - i))

/-- The padding of a message of a number of bytes: a bit 1, zeros up to 448 bits
modulo 512, and the number of bits. -/
def padding (len : Nat) : List UInt8 :=
  0x80 :: List.replicate ((119 - len % 64) % 64) 0 ++ bytes64 (8 * len)

/-- The whole blocks of a sequence of bytes. -/
def blocks (l : List UInt8) : List (List UInt8) :=
  (List.range (l.length / 64)).map fun i => (l.drop (64 * i)).take 64

/-- The hash value after the blocks of a sequence. -/
def absorb (hash : Words) (l : List UInt8) : Words := (blocks l).foldl compress hash

/-- The digest of a message. -/
def digest (message : List UInt8) : Words :=
  absorb initial (message ++ padding message.length)

/-- The blocks of a sequence of whole blocks and what follows it. -/
theorem blocks_append {a : List UInt8} (ha : a.length % 64 = 0) (b : List UInt8) :
    blocks (a ++ b) = blocks a ++ blocks b := by
  have hcount : (a ++ b).length / 64 = a.length / 64 + b.length / 64 := by
    rw [length_append]
    omega
  rw [blocks, hcount, range_add, map_append, map_map]
  congr 1
  · apply map_congr_left
    intro i hi
    have hlt := mem_range.mp hi
    rw [drop_append_of_le_length (by omega), take_append_of_le_length]
    rw [length_drop]
    omega
  · apply map_congr_left
    intro i _
    have hdrop : 64 * (a.length / 64 + i) = a.length + 64 * i := by omega
    rw [Function.comp_apply, hdrop, drop_length_add_append]

theorem absorb_append {a : List UInt8} (ha : a.length % 64 = 0) (hash : Words) (b : List UInt8) :
    absorb hash (a ++ b) = absorb (absorb hash a) b := by
  rw [absorb, blocks_append ha, foldl_append]
  rfl

/-- A single block. -/
theorem absorb_block {a : List UInt8} (ha : a.length = 64) (hash : Words) :
    absorb hash a = compress hash a := by
  have hone : blocks a = [a] := by
    rw [blocks, ha]
    exact congrArg (fun l => [l]) (take_of_length_le (Nat.le_of_eq ha))
  rw [absorb, hone]
  rfl

end Mmix.Sha256
