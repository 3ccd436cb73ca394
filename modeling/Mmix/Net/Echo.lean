import Mmix.Lib.Checksum

/-!
# Echo requests and replies

The frames of `ping` in `net.c`. A frame is the list of its bytes in the order
of transmission; a field of two bytes that is stored by the little-endian
processor is turned around by `be16` first.
-/

namespace Mmix.Net

open Checksum

/-- A hardware address. -/
structure Mac where
  m0 : UInt8
  m1 : UInt8
  m2 : UInt8
  m3 : UInt8
  m4 : UInt8
  m5 : UInt8

def Mac.bytes (m : Mac) : List UInt8 := [m.m0, m.m1, m.m2, m.m3, m.m4, m.m5]

/-- The address and the hardware address of this machine. -/
structure Station where
  ip : BitVec 32
  mac : Mac

/-- `be16`. -/
def be16 (v : BitVec 16) : BitVec 16 := (v <<< 8) ||| (v >>> 8)

/-- An `uint16_t` in memory. -/
def store16 (v : BitVec 16) : List UInt8 := [UInt8.ofNat v.toNat, UInt8.ofNat (v >>> 8).toNat]

/-- `octets_from_ip`. -/
def octetsFromIp (ip : BitVec 32) : List UInt8 :=
  [UInt8.ofNat (ip >>> 24).toNat, UInt8.ofNat (ip >>> 16).toNat, UInt8.ofNat (ip >>> 8).toNat,
    UInt8.ofNat ip.toNat]

/-- The loop of `ip_checksum` with the last odd byte. -/
def checksumLoop : List UInt8 → Nat → Nat
  | high :: low :: rest, sum =>
    checksumLoop rest ((sum + ((high.toNat <<< 8) ||| low.toNat)) % 2 ^ 32)
  | [last], sum => (sum + (last.toNat <<< 8)) % 2 ^ 32
  | [], sum => sum

/-- The loop of `ip_checksum` that adds the carries. -/
def foldCarries (sum : Nat) : Nat :=
  if _h : sum >>> 16 ≠ 0 then foldCarries ((sum &&& 0xFFFF) + (sum >>> 16)) else sum
termination_by sum
decreasing_by
  rw [Nat.shiftRight_eq_div_pow] at *
  rw [Nat.and_two_pow_sub_one_eq_mod sum 16]
  omega

/-- `ip_checksum`. -/
def ipChecksum (p : List UInt8) : BitVec 16 :=
  BitVec.ofNat 16 ((2 ^ 32 - 1 - foldCarries (checksumLoop p 0)) &&& 0xFFFF)

/-- `mac_valid`. -/
def macValid (m : List UInt8) : Bool := (m.any (· ≠ 0)) && (m.any (· ≠ 0xFF))

/-- `ip_eq`, on the bytes at a place. -/
def ipEq (a : BitVec 32) (f : List UInt8) (i : Nat) : Bool :=
  ((a >>> 24) &&& 0xFF).toNat = (f.getD i 0).toNat ∧
    ((a >>> 16) &&& 0xFF).toNat = (f.getD (i + 1) 0).toNat ∧
    ((a >>> 8) &&& 0xFF).toNat = (f.getD (i + 2) 0).toNat ∧
    (a &&& 0xFF).toNat = (f.getD (i + 3) 0).toNat

/-- A field of two bytes, the high one first. -/
def field16 (f : List UInt8) (i : Nat) : BitVec 16 :=
  BitVec.ofNat 16 (((f.getD i 0).toNat <<< 8) ||| (f.getD (i + 1) 0).toNat)

/-- `ethertype_of`. -/
def ethertypeOf (f : List UInt8) : BitVec 16 := field16 f 12

abbrev pingPayload : Nat := 24

/-- `PING_ID`. -/
abbrev pingId : BitVec 16 := 0x4D58

/-- The payload of a request. -/
def payloadBytes : List UInt8 := (List.range pingPayload).map fun i => UInt8.ofNat (65 + i % 26)

/-- An echo message, with its checksum field. -/
def echoMessage (type : UInt8) (csum seq : BitVec 16) : List UInt8 :=
  [type, 0, UInt8.ofNat (csum >>> 8).toNat, UInt8.ofNat (csum &&& 0xFF).toNat,
    UInt8.ofNat (pingId >>> 8).toNat, UInt8.ofNat (pingId &&& 0xFF).toNat,
    UInt8.ofNat (seq >>> 8).toNat, UInt8.ofNat (seq &&& 0xFF).toNat] ++ payloadBytes

/-- `icmp_build_echo`. -/
def icmpBuildEcho (seq : BitVec 16) : List UInt8 :=
  echoMessage 8 (ipChecksum (echoMessage 8 0 seq)) seq

/-- The header of `ipv4_build_echo_frame`, with the field `hdr_csum_be`. -/
def ipHeader (csum : BitVec 16) (src dst : BitVec 32) (seq : BitVec 16) : List UInt8 :=
  [0x45, 0] ++ store16 (be16 52) ++ store16 (be16 seq) ++ store16 (be16 0x4000) ++ [64, 1] ++
    store16 csum ++ octetsFromIp src ++ octetsFromIp dst

/-- `ipv4_build_echo_frame`. -/
def ipv4BuildEchoFrame (me : Station) (dmac : Mac) (dstIp : BitVec 32) (seq : BitVec 16) :
    List UInt8 :=
  dmac.bytes ++ me.mac.bytes ++ store16 (be16 0x0800) ++
    ipHeader (be16 (ipChecksum (ipHeader 0 me.ip dstIp seq))) me.ip dstIp seq ++
    icmpBuildEcho seq

/-- `ipv4_reply_ok`. The payload is compared if one is given. -/
def ipv4ReplyOk (me : Station) (f : List UInt8) (flen : Nat) (peerIp : BitVec 32)
    (seq : BitVec 16) (payload : Option Nat) : Bool :=
  let ip := f.drop 14
  let icmp := ip.drop 20
  let total := (field16 ip 2).toNat
  let flagsFrag := field16 ip 6
  if flen < 14 + 20 + 8 then false
  else if ethertypeOf f ≠ 0x0800 then false
  else if ip.getD 0 0 ≠ 0x45 then false
  else if ip.getD 9 0 ≠ 1 then false
  else if total < 20 + 8 then false
  else if flen - 14 < total then false
  else if total ≠ 8 + pingPayload + 20 then false
  else if flagsFrag &&& 0x1FFF ≠ 0 then false
  else if flagsFrag &&& 0x2000 ≠ 0 then false
  else if ipChecksum (ip.take 20) ≠ 0 then false
  else if !ipEq peerIp ip 12 then false
  else if !ipEq me.ip ip 16 then false
  else if total - 20 ≠ 8 + pingPayload then false
  else if icmp.getD 0 0 ≠ 0 ∨ icmp.getD 1 0 ≠ 0 then false
  else if icmp.getD 4 0 ≠ UInt8.ofNat (pingId >>> 8).toNat ∨
      icmp.getD 5 0 ≠ UInt8.ofNat (pingId &&& 0xFF).toNat then false
  else if field16 icmp 6 ≠ seq then false
  else if ipChecksum (icmp.take (total - 20)) ≠ 0 then false
  else if payload.any fun len => 0 < len ∧
      (len ≠ pingPayload ∨ (icmp.drop 8).take pingPayload ≠ payloadBytes) then false
  else if f.take 6 ≠ me.mac.bytes then false
  else macValid ((f.drop 6).take 6)

/-- The answer to a request: the addresses change places, the type becomes that
of a reply, and both checksums are computed anew. -/
def replyTo (f : List UInt8) : List UInt8 :=
  let header (csum : List UInt8) := (f.drop 14).take 10 ++ csum ++ (f.drop 30).take 4 ++
    (f.drop 26).take 4
  let message (csum : List UInt8) := [0, (f.drop 35).headD 0] ++ csum ++ f.drop 38
  (f.drop 6).take 6 ++ f.take 6 ++ (f.drop 12).take 2 ++
    header (field (checksum (header [0, 0]))) ++ message (field (checksum (message [0, 0])))

/-! ### The checksum -/

theorem folds_foldCarries (s : Nat) : Folds s (foldCarries s) := by
  induction s using foldCarries.induct with
  | case1 s h ih =>
    rw [foldCarries, dif_pos h]
    rw [Nat.shiftRight_eq_div_pow] at h ih ⊢
    rw [Nat.and_two_pow_sub_one_eq_mod s 16] at ih ⊢
    have hlt := ih.lt
    have hmod := ih.mod
    have hzero := ih.zero
    constructor <;> omega
  | case2 s h =>
    rw [foldCarries, dif_neg h]
    rw [Nat.shiftRight_eq_div_pow] at h
    exact ⟨by omega, rfl, Iff.rfl⟩

theorem checksumLoop_eq (p : List UInt8) (sum : Nat) (h : sum + (words p).sum < 2 ^ 32) :
    checksumLoop p sum = sum + (words p).sum := by
  induction p using words.induct generalizing sum with
  | case1 high low rest ih =>
    have hl := low.toNat_lt
    have hword : (high.toNat <<< 8) ||| low.toNat = high.toNat * 256 + low.toNat := by
      rw [← Nat.shiftLeft_add_eq_or_of_lt hl, Nat.shiftLeft_eq]
    simp only [words, List.sum_cons] at h ⊢
    have hwrap : (sum + (high.toNat * 256 + low.toNat)) % 2 ^ 32 =
        sum + (high.toNat * 256 + low.toNat) := by omega
    rw [checksumLoop, hword, hwrap, ih _ (by omega)]
    omega
  | case2 high =>
    simp only [words, List.sum_cons, List.sum_nil] at h ⊢
    rw [checksumLoop, Nat.shiftLeft_eq]
    omega
  | case3 => rfl

/-- `ip_checksum` is the standard checksum on sequences of the size of a frame. -/
theorem ipChecksum_eq {p : List UInt8} (h : p.length ≤ 65536) :
    ipChecksum p = BitVec.ofNat 16 (checksum p) := by
  have hle := sum_words_le p
  have hfolds := folds_foldCarries (words p).sum
  have hsame := hfolds.unique (folds_onesSum p)
  have hlt := hfolds.lt
  rw [ipChecksum, checksumLoop_eq p 0 (by omega), Nat.zero_add, ← hsame.symm,
    Nat.and_two_pow_sub_one_eq_mod _ 16, checksum]
  congr 1
  omega

/-! ### What is accepted -/

/-- The conditions of `ipv4_reply_ok`. -/
structure Accepted (me : Station) (f : List UInt8) (flen : Nat) (peerIp : BitVec 32)
    (seq : BitVec 16) (payload : Option Nat) : Prop where
  ethertype : ethertypeOf f = 0x0800
  version : (f.drop 14).getD 0 0 = 0x45
  proto : (f.drop 14).getD 9 0 = 1
  total : (field16 (f.drop 14) 2).toNat = 52
  fits : 66 ≤ flen
  offset : field16 (f.drop 14) 6 &&& 0x1FFF = 0
  more : field16 (f.drop 14) 6 &&& 0x2000 = 0
  header : ipChecksum ((f.drop 14).take 20) = 0
  peer : ipEq peerIp (f.drop 14) 12
  self : ipEq me.ip (f.drop 14) 16
  type : ((f.drop 14).drop 20).getD 0 0 = 0
  code : ((f.drop 14).drop 20).getD 1 0 = 0
  id : ((f.drop 14).drop 20).getD 4 0 = UInt8.ofNat (pingId >>> 8).toNat ∧
    ((f.drop 14).drop 20).getD 5 0 = UInt8.ofNat (pingId &&& 0xFF).toNat
  seq : field16 ((f.drop 14).drop 20) 6 = seq
  message : ipChecksum (((f.drop 14).drop 20).take 32) = 0
  payload : ∀ len ∈ payload, 0 < len →
    len = pingPayload ∧ (((f.drop 14).drop 20).drop 8).take pingPayload = payloadBytes
  dmac : f.take 6 = me.mac.bytes
  smac : macValid ((f.drop 6).take 6)

variable {me : Station} {f : List UInt8} {flen : Nat} {peerIp : BitVec 32} {seq : BitVec 16}
  {payload : Option Nat}

theorem ipv4ReplyOk_iff : ipv4ReplyOk me f flen peerIp seq payload = true ↔
    Accepted me f flen peerIp seq payload := by
  have hpayload : ¬ payload.any (fun len => 0 < len ∧ (len ≠ pingPayload ∨
        (((f.drop 14).drop 20).drop 8).take pingPayload ≠ payloadBytes)) = true ↔
      ∀ len ∈ payload, 0 < len → len = pingPayload ∧
        (((f.drop 14).drop 20).drop 8).take pingPayload = payloadBytes := by
    cases payload with
    | none => simp
    | some len => simp
  simp only [ipv4ReplyOk, Bool.if_false_left, Bool.and_eq_true, Bool.not_eq_true',
    decide_eq_false_iff_not, ne_eq, not_not, not_or, Bool.not_eq_false, hpayload]
  constructor
  · rintro ⟨-, heth, hver, hproto, -, hfits, htotal, hoff, hmore, hhead, hpeer, hself, -,
      ⟨htype, hcode⟩, hid, hseq, hmsg, hpay, hdmac, hsmac⟩
    rw [htotal] at hfits hmsg
    exact ⟨heth, hver, hproto, htotal, by simp only [pingPayload] at hfits; omega, hoff, hmore,
      hhead, hpeer, hself, htype, hcode, hid, hseq, hmsg, hpay, hdmac, hsmac⟩
  · rintro ⟨heth, hver, hproto, htotal, hfits, hoff, hmore, hhead, hpeer, hself, htype, hcode,
      hid, hseq, hmsg, hpay, hdmac, hsmac⟩
    rw [htotal]
    exact ⟨by omega, heth, hver, hproto, by decide, by omega, rfl, hoff, hmore, hhead, hpeer,
      hself, rfl, ⟨htype, hcode⟩, hid, hseq, hmsg, hpay, hdmac, hsmac⟩

theorem toNat_octet (a : BitVec 32) (n : Nat) :
    ((a >>> n) &&& 0xFF).toNat = a.toNat / 2 ^ n % 256 := by
  have hmask : (0xFF : BitVec 32).toNat = 2 ^ 8 - 1 := rfl
  rw [BitVec.toNat_and, hmask, Nat.and_two_pow_sub_one_eq_mod, BitVec.toNat_ushiftRight,
    Nat.shiftRight_eq_div_pow]

theorem ipEq_iff {a : BitVec 32} {i : Nat} : ipEq a f i ↔
    a.toNat / 2 ^ 24 % 256 = (f.getD i 0).toNat ∧
      a.toNat / 2 ^ 16 % 256 = (f.getD (i + 1) 0).toNat ∧
      a.toNat / 2 ^ 8 % 256 = (f.getD (i + 2) 0).toNat ∧
      a.toNat % 256 = (f.getD (i + 3) 0).toNat := by
  have hlow : (a &&& 0xFF).toNat = a.toNat % 256 := by
    have h := toNat_octet a 0
    rwa [BitVec.ushiftRight_zero, Nat.pow_zero, Nat.div_one] at h
  simp only [ipEq, toNat_octet, hlow, decide_eq_true_eq]

/-- The bytes of an address decide it. -/
theorem ipEq_inj {a b : BitVec 32} {i : Nat} (ha : ipEq a f i) (hb : ipEq b f i) : a = b := by
  rw [ipEq_iff] at ha hb
  have hlta := a.isLt
  have hltb := b.isLt
  apply BitVec.eq_of_toNat_eq
  omega

/-! ### The reply -/

/-- The header in front of its checksum. -/
def headerStart (seq : BitVec 16) : List UInt8 :=
  [0x45, 0] ++ store16 (be16 52) ++ store16 (be16 seq) ++ store16 (be16 0x4000) ++ [64, 1]

theorem length_headerStart (seq : BitVec 16) : (headerStart seq).length = 10 := rfl

/-- The header of a reply and its message with given checksums. -/
def replyHeader (csum : List UInt8) (src dst : BitVec 32) (seq : BitVec 16) : List UInt8 :=
  headerStart seq ++ csum ++ (octetsFromIp src ++ octetsFromIp dst)

def replyMessage (csum : List UInt8) (seq : BitVec 16) : List UInt8 :=
  [0, 0] ++ csum ++ (echoMessage 0 0 seq).drop 4

/-- The answer to a request, field by field. -/
theorem replyTo_request (me : Station) (mac : Mac) (ip : BitVec 32) (seq : BitVec 16) :
    replyTo (ipv4BuildEchoFrame me mac ip seq) =
      me.mac.bytes ++ mac.bytes ++ store16 (be16 0x0800) ++
        (replyHeader (field (checksum (replyHeader [0, 0] ip me.ip seq))) ip me.ip seq ++
        replyMessage (field (checksum (replyMessage [0, 0] seq))) seq) := by
  rfl

theorem field16_seq (n : Nat) (seq : BitVec 16) :
    field16 (replyMessage (field n) seq) 6 = seq := by
  have hlow : (seq &&& 0xFF).toNat = seq.toNat % 256 := by
    have hmask : (0xFF : BitVec 16).toNat = 2 ^ 8 - 1 := rfl
    rw [BitVec.toNat_and, hmask, Nat.and_two_pow_sub_one_eq_mod]
  have hlt := seq.isLt
  have hbytes : field16 (replyMessage (field n) seq) 6 =
      BitVec.ofNat 16 (((UInt8.ofNat (seq >>> 8).toNat).toNat <<< 8) |||
        (UInt8.ofNat (seq &&& 0xFF).toNat).toNat) := rfl
  rw [hbytes, ← Nat.shiftLeft_add_eq_or_of_lt (UInt8.toNat_lt _), Nat.shiftLeft_eq,
    UInt8.toNat_ofNat', UInt8.toNat_ofNat', hlow, BitVec.toNat_ushiftRight,
    Nat.shiftRight_eq_div_pow]
  apply BitVec.eq_of_toNat_eq
  rw [BitVec.toNat_ofNat]
  omega

theorem ipEq_octets {a : BitVec 32} {f : List UInt8} {i : Nat}
    (h : (f.drop i).take 4 = octetsFromIp a) : ipEq a f i := by
  have hget : ∀ j < 4, f.getD (i + j) 0 = (octetsFromIp a).getD j 0 := by
    intro j hj
    rw [← h]
    simp [List.getD_eq_getElem?_getD, hj]
  have h0 := hget 0 (by decide)
  have h1 := hget 1 (by decide)
  have h2 := hget 2 (by decide)
  have h3 := hget 3 (by decide)
  rw [ipEq_iff, ← Nat.add_zero i, h0, h1, h2, h3]
  simp only [octetsFromIp, List.getD_cons_zero, List.getD_cons_succ, UInt8.toNat_ofNat',
    BitVec.toNat_ushiftRight, Nat.shiftRight_eq_div_pow, and_self]

theorem ipChecksum_filled {a b : List UInt8} (ha : a.length % 2 = 0)
    (hlen : a.length + 2 + b.length ≤ 65536) :
    ipChecksum (a ++ field (checksum (a ++ [0, 0] ++ b)) ++ b) = 0 := by
  have hbound : (a ++ field (checksum (a ++ [0, 0] ++ b)) ++ b).length ≤ 65536 := by
    rwa [List.length_append, List.length_append, length_field]
  rw [ipChecksum_eq hbound, checksum, onesSum_filled ha]
  rfl

/-- The answer to a request is accepted from its receiver. -/
theorem reply_accepted (me : Station) {mac : Mac} (hmac : macValid mac.bytes) (ip : BitVec 32)
    (seq : BitVec 16) {payload : Option Nat} (hpay : ∀ len ∈ payload, len = 0 ∨ len = pingPayload) :
    Accepted me (replyTo (ipv4BuildEchoFrame me mac ip seq)) 66 ip seq payload := by
  rw [replyTo_request]
  exact {
    ethertype := show field16 (store16 (be16 0x0800)) 0 = 0x0800 by decide
    version := rfl
    proto := rfl
    total := show (field16 (store16 (be16 52)) 0).toNat = 52 by decide
    fits := Nat.le_refl 66
    offset := show field16 (store16 (be16 0x4000)) 0 &&& 0x1FFF = 0 by decide
    more := show field16 (store16 (be16 0x4000)) 0 &&& 0x2000 = 0 by decide
    header := ipChecksum_filled (a := headerStart seq)
      (b := octetsFromIp ip ++ octetsFromIp me.ip) (by rw [length_headerStart]) (show 20 ≤ 65536 by decide)
    peer := ipEq_octets rfl
    self := ipEq_octets rfl
    type := rfl
    code := rfl
    id := ⟨rfl, rfl⟩
    seq := field16_seq _ seq
    message := ipChecksum_filled (a := [0, 0]) (b := (echoMessage 0 0 seq).drop 4) rfl
      (show 32 ≤ 65536 by decide)
    payload := fun len hlen hpos => ⟨(hpay len hlen).resolve_left (Nat.ne_of_gt hpos), rfl⟩
    dmac := rfl
    smac := hmac }

/-- A request is no reply. -/
theorem request_not_accepted (me you : Station) (mac : Mac) (ip peer : BitVec 32)
    (seq seq' : BitVec 16) (flen : Nat) (payload : Option Nat) :
    ¬ Accepted you (ipv4BuildEchoFrame me mac ip seq) flen peer seq' payload := by
  intro h
  have htype : (8 : UInt8) = 0 := h.type
  exact absurd htype (by decide)

/-- Builder and checker of echo frames agree: the answer to a request is accepted
for its receiver and number, a request never is, and an accepted frame is the
answer of one peer to one number. -/
theorem echo_reply_agrees :
    (∀ (me : Station) (mac : Mac) (ip : BitVec 32) (seq : BitVec 16) (payload : Option Nat),
      macValid mac.bytes → (∀ len ∈ payload, len = 0 ∨ len = pingPayload) →
        ipv4ReplyOk me (replyTo (ipv4BuildEchoFrame me mac ip seq))
          (ipv4BuildEchoFrame me mac ip seq).length ip seq payload = true) ∧
    (∀ (me you : Station) (mac : Mac) (ip peer : BitVec 32) (seq seq' : BitVec 16) (flen : Nat)
      (payload : Option Nat),
        ipv4ReplyOk you (ipv4BuildEchoFrame me mac ip seq) flen peer seq' payload = false) ∧
    ∀ (me : Station) (f : List UInt8) (flen flen' : Nat) (peer peer' : BitVec 32)
      (seq seq' : BitVec 16) (payload payload' : Option Nat),
        ipv4ReplyOk me f flen peer seq payload = true →
          ipv4ReplyOk me f flen' peer' seq' payload' = true → peer' = peer ∧ seq' = seq := by
  refine ⟨?_, ?_, ?_⟩
  · intro me mac ip seq payload hmac hpay
    rw [ipv4ReplyOk_iff]
    exact reply_accepted me hmac ip seq hpay
  · intro me you mac ip peer seq seq' flen payload
    rw [← Bool.not_eq_true, ipv4ReplyOk_iff]
    exact request_not_accepted me you mac ip peer seq seq' flen payload
  · intro me f flen flen' peer peer' seq seq' payload payload' h h'
    rw [ipv4ReplyOk_iff] at h h'
    exact ⟨ipEq_inj h'.peer h.peer, h'.seq.symm.trans h.seq⟩

/-- A station whose neighbour has address 10.0.2.2. -/
def stationA : Station := ⟨0x0A00020F#32, ⟨0x52, 0x54, 0, 0x12, 0x34, 0x56⟩⟩

def macB : Mac := ⟨0x52, 0x55, 10, 0, 2, 2⟩

theorem echo_reply_stationA : macValid macB.bytes = true ∧
    ipv4ReplyOk stationA (replyTo (ipv4BuildEchoFrame stationA macB 0x0A000202 1)) 66 0x0A000202
      1 (some 24) = true :=
  ⟨by decide, echo_reply_agrees.1 stationA macB 0x0A000202 1 (some 24) (by decide) (by decide)⟩

end Mmix.Net
