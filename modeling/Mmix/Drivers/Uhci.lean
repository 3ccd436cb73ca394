import Mathlib

/-!
# Tokens of the UHCI driver

A transfer descriptor holds the identifier of a packet, the address and endpoint
of the device, the data toggle and the length in one word. `uhci.c` gives the
toggle bit 23, which lies inside the bits 31 to 21 of the length.
-/

namespace Mmix.Drivers

/-- `TOKEN`. -/
def token (pid addr ep toggle maxlen : BitVec 32) : BitVec 32 :=
  pid ||| ((addr &&& 0x7F) <<< 8) ||| ((ep &&& 0xF) <<< 15) ||| ((toggle &&& 1) <<< 23) |||
    (((maxlen - 1) &&& 0x7FF) <<< 21)

/-- The arguments of a token, each in the range of its field. -/
@[ext] structure Transfer where
  pid : Nat
  addr : Nat
  ep : Nat
  toggle : Nat
  maxlen : Nat
  pid_lt : pid < 256
  addr_lt : addr < 128
  ep_lt : ep < 16
  toggle_lt : toggle < 2
  maxlen_pos : 0 < maxlen
  maxlen_le : maxlen ≤ 1280

def Transfer.token (t : Transfer) : BitVec 32 :=
  Drivers.token (BitVec.ofNat 32 t.pid) (BitVec.ofNat 32 t.addr) (BitVec.ofNat 32 t.ep)
    (BitVec.ofNat 32 t.toggle) (BitVec.ofNat 32 t.maxlen)

/-- The fields of a token at the places that `uhci.c` documents. -/
def tokenPid (w : BitVec 32) : Nat := (w &&& 0xFF).toNat

def tokenAddr (w : BitVec 32) : Nat := ((w >>> 8) &&& 0x7F).toNat

def tokenEp (w : BitVec 32) : Nat := ((w >>> 15) &&& 0xF).toNat

def tokenToggle (w : BitVec 32) : Nat := ((w >>> 23) &&& 1).toNat

def tokenMaxlen (w : BitVec 32) : Nat := ((w >>> 21) &&& 0x7FF).toNat + 1

/-- The token gives back its arguments, field by field, and no other arguments
give the same token. -/
structure Transfer.Lossless (t : Transfer) : Prop where
  pid : tokenPid t.token = t.pid
  addr : tokenAddr t.token = t.addr
  ep : tokenEp t.token = t.ep
  toggle : tokenToggle t.token = t.toggle
  maxlen : tokenMaxlen t.token = t.maxlen
  unique : ∀ t' : Transfer, t'.token = t.token → t' = t

/-- The upper eleven bits, in which toggle and length share a bit. -/
def Transfer.upper (t : Transfer) : Nat := (t.toggle <<< 2) ||| (t.maxlen - 1)

section Words

/-- A masked and shifted field as a number. -/
theorem toNat_field {x n k : Nat} (hx : x < 2 ^ n) (hn : n + k ≤ 32) :
    ((BitVec.ofNat 32 x &&& BitVec.ofNat 32 (2 ^ n - 1)) <<< k).toNat = x <<< k := by
  have hpow : 2 ^ n ≤ 2 ^ 32 := Nat.pow_le_pow_right (by decide) (by omega)
  have hmask : x &&& (2 ^ n - 1) = x := by
    rw [Nat.and_two_pow_sub_one_eq_mod, Nat.mod_eq_of_lt hx]
  have hshift : x <<< k < 2 ^ 32 := by
    rw [Nat.shiftLeft_eq]
    calc x * 2 ^ k < 2 ^ n * 2 ^ k := Nat.mul_lt_mul_of_pos_right hx (Nat.two_pow_pos k)
      _ = 2 ^ (n + k) := (Nat.pow_add 2 n k).symm
      _ ≤ 2 ^ 32 := Nat.pow_le_pow_right (by decide) hn
  have hx32 : x % 2 ^ 32 = x := Nat.mod_eq_of_lt (by omega)
  have hmask32 : (2 ^ n - 1) % 2 ^ 32 = 2 ^ n - 1 := Nat.mod_eq_of_lt (by omega)
  rw [BitVec.toNat_shiftLeft, BitVec.toNat_and, BitVec.toNat_ofNat, BitVec.toNat_ofNat, hx32,
    hmask32, hmask, Nat.mod_eq_of_lt hshift]

/-- The token as a number. -/
theorem toNat_token (t : Transfer) : t.token.toNat =
    t.upper * 2 ^ 21 + (t.ep * 2 ^ 15 + (t.addr * 2 ^ 8 + t.pid)) := by
  have hpid := t.pid_lt
  have haddr := t.addr_lt
  have hep := t.ep_lt
  have hpos := t.maxlen_pos
  have hle := t.maxlen_le
  have hp : (BitVec.ofNat 32 t.pid).toNat = t.pid := by
    rw [BitVec.toNat_ofNat, Nat.mod_eq_of_lt (by omega)]
  have ha := toNat_field (x := t.addr) (n := 7) (k := 8) haddr (by decide)
  have he := toNat_field (x := t.ep) (n := 4) (k := 15) hep (by decide)
  have ht := toNat_field (x := t.toggle) (n := 1) (k := 23) t.toggle_lt (by decide)
  have hm := toNat_field (x := t.maxlen - 1) (n := 11) (k := 21) (by omega) (by decide)
  have hlen : BitVec.ofNat 32 t.maxlen - 1 = BitVec.ofNat 32 (t.maxlen - 1) := by bv_omega
  have hlow : t.pid ||| (t.addr <<< 8) = t.addr * 2 ^ 8 + t.pid := by
    rw [Nat.or_comm, ← Nat.shiftLeft_add_eq_or_of_lt hpid, Nat.shiftLeft_eq]
  have hmid : (t.addr * 2 ^ 8 + t.pid) ||| (t.ep <<< 15) =
      t.ep * 2 ^ 15 + (t.addr * 2 ^ 8 + t.pid) := by
    rw [Nat.or_comm, ← Nat.shiftLeft_add_eq_or_of_lt (by omega), Nat.shiftLeft_eq]
  have hhigh : (t.toggle <<< 23) ||| ((t.maxlen - 1) <<< 21) = t.upper <<< 21 := by
    rw [Transfer.upper, Nat.shiftLeft_or_distrib, ← Nat.shiftLeft_add]
  calc t.token.toNat
      = t.pid ||| (t.addr <<< 8) ||| (t.ep <<< 15) ||| (t.toggle <<< 23) |||
          ((t.maxlen - 1) <<< 21) := by
        rw [Transfer.token, token, hlen, BitVec.toNat_or, BitVec.toNat_or, BitVec.toNat_or,
          BitVec.toNat_or, hp]
        exact congr (congrArg _ (congr (congrArg _ (congr (congrArg _ (congrArg _ ha)) he)) ht)) hm
    _ = (t.ep * 2 ^ 15 + (t.addr * 2 ^ 8 + t.pid)) ||| (t.upper <<< 21) := by
        rw [hlow, hmid, Nat.or_assoc, hhigh]
    _ = t.upper * 2 ^ 21 + (t.ep * 2 ^ 15 + (t.addr * 2 ^ 8 + t.pid)) := by
        rw [Nat.or_comm, ← Nat.shiftLeft_add_eq_or_of_lt (by omega), Nat.shiftLeft_eq]

/-- A field of a word as a number. -/
theorem toNat_extract (w : BitVec 32) {n k : Nat} (hn : n ≤ 31) :
    ((w >>> k) &&& BitVec.ofNat 32 (2 ^ n - 1)).toNat = w.toNat / 2 ^ k % 2 ^ n := by
  have hpow : 2 ^ n < 2 ^ 32 := Nat.pow_lt_pow_right (by decide) (by omega)
  rw [BitVec.toNat_and, BitVec.toNat_ushiftRight, BitVec.toNat_ofNat,
    Nat.mod_eq_of_lt (by omega), Nat.and_two_pow_sub_one_eq_mod, Nat.shiftRight_eq_div_pow]

/-- The bit that toggle and length share is set if either sets it. -/
theorem upper_eq (t : Transfer) : t.upper =
    if t.toggle = 1 ∧ (t.maxlen - 1) / 4 % 2 = 0 then t.maxlen - 1 + 4 else t.maxlen - 1 := by
  have htoggle := t.toggle_lt
  have hor (m : Nat) : 4 ||| m = if m / 4 % 2 = 0 then m + 4 else m := by
    have hdiv : (4 ||| m) / 8 = m / 8 := by
      have h := Nat.or_div_two_pow (a := 4) (b := m) (n := 3)
      rwa [show 4 / 2 ^ 3 = 0 from rfl, Nat.zero_or] at h
    have hmod : (4 ||| m) % 8 = 4 ||| (m % 8) := Nat.or_mod_two_pow (n := 3)
    have hlow : m % 8 < 8 := Nat.mod_lt m (by decide)
    have hbit : 4 ||| (m % 8) = if m % 8 / 4 = 0 then m % 8 + 4 else m % 8 := by
      interval_cases m % 8 <;> rfl
    rw [hbit] at hmod
    split <;> split at hmod <;> omega
  unfold Transfer.upper
  obtain h0 | h1 : t.toggle = 0 ∨ t.toggle = 1 := by omega
  · rw [h0, Nat.zero_shiftLeft, Nat.zero_or, if_neg (fun h => absurd h.1 (by decide))]
  · rw [h1, show 1 <<< 2 = 4 from rfl, hor]
    simp only [true_and]

end Words

section Fields

variable (t : Transfer)

theorem upper_lt : t.upper < 2048 := by
  have hle := t.maxlen_le
  have hpos := t.maxlen_pos
  rw [upper_eq]
  split <;> omega

theorem tokenPid_token : tokenPid t.token = t.pid := by
  have h := toNat_extract t.token (n := 8) (k := 0) (by decide)
  have hpid := t.pid_lt
  rw [BitVec.ushiftRight_zero, toNat_token] at h
  exact h.trans (by omega)

theorem tokenAddr_token : tokenAddr t.token = t.addr := by
  have h := toNat_extract t.token (n := 7) (k := 8) (by decide)
  have hpid := t.pid_lt
  have haddr := t.addr_lt
  rw [toNat_token] at h
  exact h.trans (by omega)

theorem tokenEp_token : tokenEp t.token = t.ep := by
  have h := toNat_extract t.token (n := 4) (k := 15) (by decide)
  have hpid := t.pid_lt
  have haddr := t.addr_lt
  have hep := t.ep_lt
  rw [toNat_token] at h
  exact h.trans (by omega)

theorem tokenMaxlen_token : tokenMaxlen t.token = t.upper + 1 := by
  have h := toNat_extract t.token (n := 11) (k := 21) (by decide)
  have hpid := t.pid_lt
  have haddr := t.addr_lt
  have hep := t.ep_lt
  have hupper := upper_lt t
  rw [toNat_token] at h
  exact congrArg (· + 1) (h.trans (by omega))

theorem tokenToggle_token : tokenToggle t.token = t.upper / 4 % 2 := by
  have h := toNat_extract t.token (n := 1) (k := 23) (by decide)
  have hpid := t.pid_lt
  have haddr := t.addr_lt
  have hep := t.ep_lt
  rw [toNat_token] at h
  exact h.trans (by omega)

end Fields

/-- A token is lossless exactly when neither toggle nor length sets the bit that
they share. -/
theorem token_lossless_iff (t : Transfer) :
    t.Lossless ↔ t.toggle = 0 ∧ (t.maxlen - 1) / 4 % 2 = 0 := by
  have hpos := t.maxlen_pos
  have htoggle := t.toggle_lt
  constructor
  · intro h
    have hread := h.toggle
    have hlen := h.maxlen
    rw [tokenToggle_token] at hread
    rw [tokenMaxlen_token] at hlen
    have hbit : (t.maxlen - 1) / 4 % 2 = t.toggle := by
      rw [← hread, show t.upper = t.maxlen - 1 by omega]
    by_contra hset
    -- Both set the shared bit: without the toggle the token is the same.
    have hone : t.toggle = 1 := by omega
    let t' : Transfer := { t with toggle := 0, toggle_lt := by decide }
    have hupper : t'.upper = t.upper := by
      rw [upper_eq, upper_eq, if_neg (fun hc => absurd hc.1 Nat.zero_ne_one), if_neg (by omega)]
    have hsame : t'.token = t.token := by
      apply BitVec.eq_of_toNat_eq
      rw [toNat_token, toNat_token, hupper]
    have hne : t'.toggle = t.toggle := congrArg Transfer.toggle (h.unique t' hsame)
    exact Nat.zero_ne_one (hne.trans hone)
  · rintro ⟨hzero, hbit⟩
    have hupper : t.upper = t.maxlen - 1 := by
      rw [upper_eq, if_neg (by omega)]
    refine ⟨tokenPid_token t, tokenAddr_token t, tokenEp_token t, ?_, ?_, fun t' h => ?_⟩
    · rw [tokenToggle_token, hupper, hbit, hzero]
    · rw [tokenMaxlen_token, hupper]
      omega
    · have hmax : t'.upper + 1 = t.upper + 1 := by
        rw [← tokenMaxlen_token, ← tokenMaxlen_token, h]
      have hpos' := t'.maxlen_pos
      have htoggle' := t'.toggle_lt
      rw [upper_eq t', hupper] at hmax
      ext
      · rw [← tokenPid_token, ← tokenPid_token t, h]
      · rw [← tokenAddr_token, ← tokenAddr_token t, h]
      · rw [← tokenEp_token, ← tokenEp_token t, h]
      · split at hmax <;> omega
      · split at hmax <;> omega

/-- The SETUP packet with which `uhci_ctrl` starts, at address zero. -/
def setupPhase : Transfer :=
  ⟨0x2D, 0, 0, 0, 8, by decide, by decide, by decide, by decide, by decide, by decide⟩

/-- It reads as a packet with the other toggle. -/
theorem token_setup_ambiguous : ¬ ∀ t : Transfer, t.Lossless := by
  intro h
  have htoggle := (h setupPhase).toggle
  exact absurd htoggle (by decide)

end Mmix.Drivers
