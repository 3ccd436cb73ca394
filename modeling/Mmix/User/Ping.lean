import Mmix.Net.Address

/-!
# `ping` and the kernel

The program `ping` parses its argument, prints the address into a command and
writes the command to `/dev/net`. Its parser and that of the kernel accept the
same texts, and the kernel reads the address that the program has printed.
-/

namespace Mmix.User

open Net Decimal List
open Fs (ascii)

/-- The loop of `parse_ip`. A text ends in front of its NUL. -/
def parseIpLoop : List UInt8 → List Nat → Nat → Nat → Option (List Nat)
  | [], oct, val, digits => if oct.length ≠ 3 ∨ digits = 0 then none else some (oct ++ [val])
  | c :: rest, oct, val, digits =>
    if c = 0 then
      if oct.length ≠ 3 ∨ digits = 0 then none else some (oct ++ [val])
    else if 48 ≤ c ∧ c ≤ 57 then
      let val := val * 10 + (c.toNat - 48)
      if 3 < digits + 1 then none
      else if 255 < val then none
      else parseIpLoop rest oct val (digits + 1)
    else if c = 46 then
      if digits = 0 ∨ 3 ≤ oct.length then none else parseIpLoop rest (oct ++ [val]) 0 0
    else none

/-- `parse_ip`. -/
def parseIp (s : List UInt8) : Option (BitVec 32) := (parseIpLoop s [] 0 0).map packOctets

/-- The loop of `main` that fills `rev`, the last digit first. -/
def revDigits (oct : Nat) : List UInt8 :=
  if _h : 0 < oct then UInt8.ofNat (48 + oct % 10) :: revDigits (oct / 10) else []
termination_by oct

/-- What `main` prints for an octet. -/
def octetText (oct : Nat) : List UInt8 :=
  if oct = 0 then [48] else (revDigits oct).reverse

/-- The command that `main` writes. -/
def pingCommand (ip : BitVec 32) : List UInt8 :=
  ascii "ping " ++ (List.range 4).flatMap fun k =>
    octetText ((ip >>> (24 - 8 * k)) &&& 0xFF).toNat ++ if k < 3 then [46] else []

/-! ### Parsing -/

section Parsing

theorem parseIpLoop_eq_scan {s : List UInt8} (hs : 0 ∉ s) (oct : List Nat) (val digits : Nat) :
    parseIpLoop s oct val digits = scanOctets s oct val digits := by
  induction s generalizing oct val digits with
  | nil => rfl
  | cons c rest ih =>
    have hc : c ≠ 0 := fun h => hs (h ▸ mem_cons_self)
    have hrest : 0 ∉ rest := fun h => hs (mem_cons_of_mem c h)
    simp only [parseIpLoop, scanOctets, if_neg hc, ih hrest]

theorem parseIp_iff {s : List UInt8} (hs : 0 ∉ s) (ip : BitVec 32) :
    parseIp s = some ip ↔ IsAddress s ip := by
  rw [parseIp, parseIpLoop_eq_scan hs, ← scanOctets_address]
  cases hscan : scanOctets s [] 0 0 with
  | none => rfl
  | some os => rw [Option.map_some, Option.map_some, packOctets_scan hscan]

theorem bufferText_getD (s pre : List UInt8) :
    bufferText (fun i => (pre ++ s).getD i 0) pre.length s.length = s := by
  induction s generalizing pre with
  | nil => rfl
  | cons c rest ih =>
    have hrest := ih (pre ++ [c])
    rw [append_assoc, length_append, length_singleton] at hrest
    have hfirst : (pre ++ c :: rest).getD pre.length 0 = c := by
      simp [getD_eq_getElem?_getD]
    exact congr (congrArg cons hfirst) hrest

end Parsing

/-- The kernel accepts exactly the addresses in the bytes it is given and reads
no other byte, and `ping` accepts the same texts with the same values. -/
theorem ipv4_parsers_agree :
    (∀ (s : Nat → UInt8) (n : Nat),
      (∀ ip, (parseIpv4At s n).2 = some ip ↔ IsAddress (bufferText s 0 n) ip) ∧
        ∀ i ∈ (parseIpv4At s n).1, i < n) ∧
    ∀ s : List UInt8, 0 ∉ s → parseIp s = (parseIpv4At (fun i => s.getD i 0) s.length).2 := by
  constructor
  · intro s n
    constructor
    · intro ip
      rw [parseIpv4At_snd]
      exact parseIpv4Strict_iff _ ip
    · exact parseIpv4At_reads s n
  · intro s hs
    have htext : bufferText (fun i => s.getD i 0) 0 s.length = s := bufferText_getD s []
    rw [parseIpv4At_snd, htext]
    apply Option.ext
    intro ip
    rw [parseIp_iff hs, parseIpv4Strict_iff]

theorem ipv4_parsers_agree_loopback :
    parseIp (ascii "127.0.0.1") =
      (parseIpv4At (fun i => (ascii "127.0.0.1").getD i 0) (ascii "127.0.0.1").length).2 :=
  ipv4_parsers_agree.2 (ascii "127.0.0.1") (by decide)

example : parseIp (ascii "127.0.0.1") = some 0x7F000001 := by decide

/-! ### Printing -/

section Printing

variable {oct : Nat}

theorem revDigits_pos (h : 0 < oct) :
    revDigits oct = UInt8.ofNat (48 + oct % 10) :: revDigits (oct / 10) := by
  rw [revDigits, dif_pos h]

theorem revDigits_zero : revDigits 0 = [] := by
  rw [revDigits, dif_neg (Nat.lt_irrefl 0)]

/-- A digit and its character. -/
theorem digit_char (n : Nat) :
    IsDigit (UInt8.ofNat (48 + n % 10)) ∧ (UInt8.ofNat (48 + n % 10)).toNat - 48 = n % 10 := by
  have hlt : n % 10 < 10 := Nat.mod_lt n (by decide)
  have hval : (UInt8.ofNat (48 + n % 10)).toNat = 48 + n % 10 := by
    rw [UInt8.toNat_ofNat', Nat.mod_eq_of_lt (by omega)]
  refine ⟨⟨UInt8.le_iff_toNat_le.mpr ?_, UInt8.le_iff_toNat_le.mpr ?_⟩, by omega⟩
  · rw [hval]
    exact Nat.le_add_right 48 _
  · rw [hval]
    exact Nat.add_le_add_left (Nat.le_of_lt_succ hlt) 48

theorem revDigits_digits (oct : Nat) : ∀ c ∈ revDigits oct, IsDigit c := by
  induction oct using Nat.strongRecOn with
  | ind oct ih =>
    by_cases h : 0 < oct
    · rw [revDigits_pos h]
      exact forall_mem_cons.mpr ⟨(digit_char oct).1, ih (oct / 10) (by omega)⟩
    · rw [Nat.eq_zero_of_not_pos h, revDigits_zero]
      exact nofun

/-- The digits in their order denote the number. -/
theorem digitsValue_revDigits (oct : Nat) : digitsValue 0 (revDigits oct).reverse = oct := by
  induction oct using Nat.strongRecOn with
  | ind oct ih =>
    by_cases h : 0 < oct
    · rw [revDigits_pos h, reverse_cons, digitsValue_concat, ih (oct / 10) (by omega),
        (digit_char oct).2]
      omega
    · rw [Nat.eq_zero_of_not_pos h, revDigits_zero]
      rfl

theorem length_revDigits {k : Nat} (h : oct < 10 ^ k) : (revDigits oct).length ≤ k := by
  induction k generalizing oct with
  | zero =>
    rw [Nat.pow_zero, Nat.lt_one_iff] at h
    rw [h, revDigits_zero]
    exact Nat.le_refl 0
  | succ k ih =>
    by_cases hpos : 0 < oct
    · rw [Nat.pow_succ] at h
      rw [revDigits_pos hpos, length_cons]
      exact Nat.succ_le_succ (ih (by omega))
    · rw [Nat.eq_zero_of_not_pos hpos, revDigits_zero]
      exact Nat.zero_le _

/-- What is printed for an octet is a group of its value. -/
theorem octetText_octet (h : oct ≤ 255) :
    IsOctet (octetText oct) ∧ digitsValue 0 (octetText oct) = oct := by
  unfold octetText
  by_cases h0 : oct = 0
  · rw [if_pos h0, h0]
    refine ⟨⟨fun c hc => ?_, by decide, by decide, by decide⟩, rfl⟩
    obtain rfl := mem_singleton.mp hc
    decide
  · rw [if_neg h0]
    have hlen : (revDigits oct).length ≤ 3 := length_revDigits (by omega)
    have hpos : 0 < (revDigits oct).length := by
      rw [revDigits_pos (by omega), length_cons]
      exact Nat.succ_pos _
    refine ⟨⟨fun c hc => revDigits_digits oct c (mem_reverse.mp hc), ?_, ?_, ?_⟩,
      digitsValue_revDigits oct⟩
    · rw [length_reverse]
      omega
    · rw [length_reverse]
      omega
    · rw [digitsValue_revDigits]
      exact h

/-- The octet of an address that is printed in a round. -/
def octetAt (ip : BitVec 32) (k : Nat) : Nat := ((ip >>> (24 - 8 * k)) &&& 0xFF).toNat

theorem octetAt_le (ip : BitVec 32) (k : Nat) : octetAt ip k ≤ 255 := by
  rw [octetAt, toNat_octet]
  exact Nat.le_of_lt_succ (Nat.mod_lt _ (by decide))

theorem pingCommand_eq (ip : BitVec 32) : pingCommand ip =
    ascii "ping " ++ (octetText (octetAt ip 0) ++ [46] ++ octetText (octetAt ip 1) ++ [46] ++
      octetText (octetAt ip 2) ++ [46] ++ octetText (octetAt ip 3)) := by
  simp [pingCommand, octetAt, range_succ]

/-- The printed address. -/
theorem isAddress_printed (ip : BitVec 32) :
    IsAddress (octetText (octetAt ip 0) ++ [46] ++ octetText (octetAt ip 1) ++ [46] ++
      octetText (octetAt ip 2) ++ [46] ++ octetText (octetAt ip 3)) ip := by
  have h (k : Nat) := octetText_octet (octetAt_le ip k)
  refine ⟨_, _, _, _, (h 0).1, (h 1).1, (h 2).1, (h 3).1, rfl, ?_⟩
  have hlt := ip.isLt
  rw [(h 0).2, (h 1).2, (h 2).2, (h 3).2]
  simp only [octetAt, toNat_octet]
  omega

/-- An address ends in a digit, which is no end of a line. -/
theorem stripLine_address {s : List UInt8} {ip : BitVec 32} (h : IsAddress s ip)
    (pre : List UInt8) : stripLine (pre ++ s) = pre ++ s := by
  obtain ⟨a, b, c, d, -, -, -, hd, rfl, -⟩ := h
  have hne : d ≠ [] := length_pos_iff.mp (by simpa using hd.pos)
  obtain ⟨init, last, rfl⟩ : ∃ init last, d = init ++ [last] :=
    ⟨d.dropLast, d.getLast hne, (dropLast_append_getLast hne).symm⟩
  have hlast : ¬ (last = 10 ∨ last = 13) := by
    have hdigit := hd.digit last (by simp)
    rintro (rfl | rfl)
    · exact absurd hdigit (by decide)
    · exact absurd hdigit (by decide)
  have hrev : (pre ++ (a ++ [46] ++ b ++ [46] ++ c ++ [46] ++ (init ++ [last]))).reverse =
      last :: (pre ++ (a ++ [46] ++ b ++ [46] ++ c ++ [46] ++ init)).reverse := by
    simp
  rw [stripLine, hrev, dropWhile_cons_of_neg (by simpa using hlast), ← hrev,
    reverse_reverse]

end Printing

section Writing

theorem parseCommand_ping (ip : BitVec 32) : parseCommand (pingCommand ip) = some (.ping ip) := by
  have haddr := isAddress_printed ip
  rw [pingCommand_eq]
  generalize octetText (octetAt ip 0) ++ [46] ++ octetText (octetAt ip 1) ++ [46] ++
    octetText (octetAt ip 2) ++ [46] ++ octetText (octetAt ip 3) = s at haddr
  have hlen := haddr.length
  have hping : (ascii "ping ").length = 5 := rfl
  have hstatus : ascii "ping " ++ s ≠ ascii "status" := by
    intro h
    have hfirst : (112 : UInt8) = 115 := Option.some.inj (congrArg (fun l => l[0]?) h)
    exact absurd hfirst (by decide)
  have hdrop : (ascii "ping " ++ s).drop 5 = s := rfl
  rw [parseCommand, stripLine_address haddr, if_neg hstatus, if_pos, hdrop,
    (parseIpv4Strict_iff s ip).mpr haddr]
  · rfl
  · rw [length_append, hping]
    exact ⟨by omega, rfl⟩

theorem length_pingCommand (ip : BitVec 32) : (pingCommand ip).length ≤ 20 := by
  have hlen := (isAddress_printed ip).length
  rw [pingCommand_eq, length_append, show (ascii "ping ").length = 5 from rfl]
  omega

end Writing

/-- For every address the command of `ping` fits into its buffer, and a device
without a pending command takes it as a request to that address. -/
theorem ping_command_understood (nic : Nic) (pid : BitVec 32) (net : NetState) (ip : BitVec 32)
    (hnic : nic.present = true) (hinit : net.inited = true) (hidle : net.resultState ≠ .pending) :
    (pingCommand ip).length ≤ 24 ∧
      netdevWrite nic pid (pingCommand ip) net =
        (((pingCommand ip).length : Int), { net with
          openOwner := pid, cmd := .ping, resultState := .pending, resultAddr := ip }) := by
  have hlen := length_pingCommand ip
  refine ⟨by omega, ?_⟩
  have hne : pingCommand ip ≠ [] := by
    rw [pingCommand_eq]
    exact List.cons_ne_nil _ _
  have hstrip : stripLine (pingCommand ip) = pingCommand ip := by
    rw [pingCommand_eq]
    exact stripLine_address (isAddress_printed ip) _
  rw [netdevWrite, if_neg hne, if_neg (by simp [hnic, hinit]), if_neg fun h => hidle h.2,
    parseCommand_ping, hstrip]
  exact if_neg fun h => hidle h.1

theorem ping_command_gateway :
    (pingCommand 0x0A000202).length ≤ 24 ∧
      netdevWrite smallNic 1 (pingCommand 0x0A000202) (netInit smallNic) =
        (((pingCommand 0x0A000202).length : Int), { netInit smallNic with
          openOwner := 1, cmd := .ping, resultState := .pending, resultAddr := 0x0A000202 }) :=
  ping_command_understood smallNic 1 (netInit smallNic) 0x0A000202 rfl rfl (by decide)

end Mmix.User
