import Mmix.Lib.Run

/-!
# The receive ring of the network card

The card completes descriptors in ring order, and `e1000_poll` consumes them one at a
time. The driver keeps one bit across polls, set while it is inside a frame that
occupies several descriptors.
-/

namespace Mmix.Net

open List

/-- `E1000_RX_RING`. -/
abbrev rxRingSize : Nat := 32

/-- `E1000_RX_BUF`. -/
abbrev rxBufSize : Nat := 2048

/-- `E1000_RXD_STAT_DD`. -/
def rxdStatDd : BitVec 8 := 1

/-- `E1000_RXD_STAT_EOP`. -/
def rxdStatEop : BitVec 8 := 2

/-- The error bits that the driver checks: CE, SE, SEQ, CXE and RXE. -/
def rxdErrors : BitVec 8 := 0x97

/-- The fields of `struct e1000_rx_desc` that the driver reads. -/
structure RxDesc where
  length : BitVec 16
  status : BitVec 8
  errors : BitVec 8

namespace RxDesc

/-- A descriptor that the card has not filled. -/
def clear : RxDesc := ⟨0, 0, 0⟩

def isDone (d : RxDesc) : Bool := d.status &&& rxdStatDd != 0

def eop (d : RxDesc) : Bool := d.status &&& rxdStatEop != 0

/-- The length and the error bits of a frame that is handed on. -/
def good (d : RxDesc) (cap : Nat) : Bool :=
  d.length.toNat != 0 && decide (d.length.toNat ≤ rxBufSize) && decide (d.length.toNat ≤ cap) &&
    d.errors &&& rxdErrors == 0

end RxDesc

/-- The receive side of the driver: its variables, the ring and the buffers in memory,
and the tail register of the card. -/
structure E1000 where
  nicUp : Bool
  rxRing : Nat → RxDesc
  rxBufs : Nat → UInt8
  rxNext : Nat
  rxDiscard : Bool
  rdt : Nat

/-- `e1000_setup_rx`, after which the card is up. -/
def e1000SetupRx (bufs : Nat → UInt8) : E1000 where
  nicUp := true
  rxRing := fun _ => .clear
  rxBufs := bufs
  rxNext := 0
  rxDiscard := false
  rdt := rxRingSize - 1

/-- The poll gets as far as consuming a descriptor. -/
def pollConsumes (s : E1000) (bufNull : Bool) (cap : Nat) : Bool :=
  s.nicUp && !bufNull && cap != 0 && (s.rxRing s.rxNext).isDone

/-- `e1000_poll`: its result, the bytes copied to the buffer, and the state after it. -/
def e1000Poll (s : E1000) (bufNull : Bool) (cap : Nat) : Int × List UInt8 × E1000 :=
  if !s.nicUp || bufNull || cap == 0 then (-1, [], s)
  else
    let d := s.rxRing s.rxNext
    if !d.isDone then (0, [], s)
    else
      let ok := !s.rxDiscard && d.eop && d.good cap
      let consumed := s.rxNext
      let s' := { s with
        rxDiscard := !d.eop
        rxRing := Function.update s.rxRing consumed .clear
        rxNext := (s.rxNext + 1) % rxRingSize
        rdt := consumed }
      if ok then
        (d.length.toNat,
          (List.range d.length.toNat).map fun j => s.rxBufs (consumed * rxBufSize + j), s')
      else (0, [], s')

/-- What the card writes when it completes a descriptor. -/
structure Completion where
  desc : RxDesc
  bytes : Nat → UInt8
  isDone : desc.isDone = true

/-- The bytes of the frame. -/
def Completion.frame (c : Completion) : List UInt8 :=
  (List.range c.desc.length.toNat).map c.bytes

/-- The driver and the card, with the descriptors completed so far, the capacities of
the polls that consumed one, and the frames that polls returned. -/
structure NicSystem where
  driver : E1000
  arrived : List Completion
  caps : List Nat
  frames : List (List UInt8)

/-- The card completes a descriptor, or the driver polls. -/
inductive NicEvent where
  | complete (c : Completion)
  | poll (bufNull : Bool) (cap : Nat)

namespace NicSystem

/-- The card writes a descriptor and its buffer. -/
def fill (s : E1000) (slot : Nat) (c : Completion) : E1000 :=
  { s with
    rxRing := Function.update s.rxRing slot c.desc
    rxBufs := fun a =>
      if a / rxBufSize = slot then c.bytes (a % rxBufSize) else s.rxBufs a }

/-- One event. The card fills the descriptors in order, and only those that the driver
has returned. -/
def step (s : NicSystem) : NicEvent → Option NicSystem
  | .complete c =>
    if s.arrived.length < s.caps.length + rxRingSize then
      some { s with
        driver := fill s.driver (s.arrived.length % rxRingSize) c
        arrived := s.arrived ++ [c] }
    else none
  | .poll bufNull cap =>
    let r := e1000Poll s.driver bufNull cap
    some { s with
      driver := r.2.2
      caps := if pollConsumes s.driver bufNull cap then s.caps ++ [cap] else s.caps
      frames := if 0 < r.1 then s.frames ++ [r.2.1] else s.frames }

/-- The card after its initialisation. -/
def start (bufs : Nat → UInt8) : NicSystem := ⟨e1000SetupRx bufs, [], [], []⟩

/-- A frame begins with the descriptor at the given position. -/
def begins (arrived : List Completion) (i : Nat) : Bool :=
  i == 0 || (arrived[i - 1]?).any fun c => c.desc.eop

/-- The frame that occupies the descriptor at a position alone and is fit to be handed to
a poll of the given capacity. -/
def frameAt (arrived : List Completion) (caps : List Nat) (i : Nat) : Option (List UInt8) :=
  match arrived[i]?, caps[i]? with
  | some c, some cap =>
    if begins arrived i && c.desc.eop && c.desc.good cap then some c.frame else none
  | _, _ => none

/-- The frames that the consumed descriptors hold, in the order of their arrival. -/
def delivered (arrived : List Completion) (caps : List Nat) : List (List UInt8) :=
  (List.range caps.length).filterMap (frameAt arrived caps)

section Frames

variable {arrived : List Completion} {caps : List Nat} {c : Completion} {i cap : Nat}

/-- A new arrival does not change where earlier frames begin. -/
theorem begins_append (hi : i ≤ arrived.length) :
    begins (arrived ++ [c]) i = begins arrived i := by
  unfold begins
  by_cases h0 : i = 0
  · rw [h0]
    rfl
  · rw [getElem?_append_left (by omega)]

theorem frameAt_arrive (hi : i < arrived.length) :
    frameAt (arrived ++ [c]) caps i = frameAt arrived caps i := by
  rw [frameAt, frameAt, begins_append hi.le, getElem?_append_left hi]

/-- What the card completes later does not matter for what was consumed. -/
theorem delivered_arrive (hle : caps.length ≤ arrived.length) :
    delivered (arrived ++ [c]) caps = delivered arrived caps := by
  apply filterMap_congr
  intro i hi
  exact frameAt_arrive ((mem_range.mp hi).trans_le hle)

theorem frameAt_consume (hi : i < caps.length) :
    frameAt arrived (caps ++ [cap]) i = frameAt arrived caps i := by
  rw [frameAt, frameAt, getElem?_append_left hi]

/-- Consuming a descriptor adds its frame, if it holds one. -/
theorem delivered_consume : delivered arrived (caps ++ [cap]) =
    delivered arrived caps ++ (frameAt arrived (caps ++ [cap]) caps.length).toList := by
  have hold : (range caps.length).filterMap (frameAt arrived (caps ++ [cap])) =
      delivered arrived caps := by
    apply filterMap_congr
    intro i hi
    exact frameAt_consume (mem_range.mp hi)
  rw [delivered, length_append, length_singleton, range_succ,
    filterMap_append, hold]
  apply congrArg (delivered arrived caps ++ ·)
  cases h : frameAt arrived (caps ++ [cap]) caps.length with
  | none => rw [filterMap_cons_none h]; rfl
  | some frame => rw [filterMap_cons_some h]; rfl

/-- The frame of the descriptor that is consumed next. -/
theorem frameAt_next (hc : arrived[caps.length]? = some c) :
    frameAt arrived (caps ++ [cap]) caps.length =
      if begins arrived caps.length && c.desc.eop && c.desc.good cap then some c.frame
      else none := by
  rw [frameAt, hc, getElem?_append_right le_rfl, Nat.sub_self, getElem?_cons_zero]

end Frames

section Ring

/-- Two positions less than a ring apart share a slot only if they are equal. -/
theorem slot_inj {i j n : Nat} (hi : n ≤ i) (hi' : i < n + rxRingSize) (hj : n ≤ j)
    (hj' : j < n + rxRingSize) (h : i % rxRingSize = j % rxRingSize) : i = j := by
  unfold rxRingSize at *
  omega

/-- The ring holds the completed descriptors that are not consumed yet, and no others. -/
structure Inv (s : NicSystem) : Prop where
  up : s.driver.nicUp = true
  consumed_le : s.caps.length ≤ s.arrived.length
  room : s.arrived.length ≤ s.caps.length + rxRingSize
  next : s.driver.rxNext = s.caps.length % rxRingSize
  discard : s.driver.rxDiscard = !begins s.arrived s.caps.length
  slots : ∀ i c, s.caps.length ≤ i → s.arrived[i]? = some c →
    s.driver.rxRing (i % rxRingSize) = c.desc ∧
      ∀ j < rxBufSize, s.driver.rxBufs (i % rxRingSize * rxBufSize + j) = c.bytes j
  empty : ∀ i, s.arrived.length ≤ i → i < s.caps.length + rxRingSize →
    (s.driver.rxRing (i % rxRingSize)).isDone = false
  frames : s.frames = delivered s.arrived s.caps

theorem inv_start (bufs : Nat → UInt8) : Inv (start bufs) where
  up := rfl
  consumed_le := le_rfl
  room := Nat.zero_le _
  next := rfl
  discard := rfl
  slots := fun _ _ _ h => by cases h
  empty := fun _ _ _ => (by decide : RxDesc.clear.isDone = false)
  frames := rfl

variable {s : NicSystem}

/-- The card completes a descriptor that the driver has returned. -/
theorem Inv.complete (h : Inv s) (c : Completion)
    (hroom : s.arrived.length < s.caps.length + rxRingSize) :
    Inv { s with
      driver := fill s.driver (s.arrived.length % rxRingSize) c
      arrived := s.arrived ++ [c] } := by
  have hlen : (s.arrived ++ [c]).length = s.arrived.length + 1 := by
    rw [length_append, length_singleton]
  refine { h with
    consumed_le := by rw [hlen]; exact h.consumed_le.trans (Nat.le_succ _)
    room := by rw [hlen]; exact hroom
    discard := by rw [begins_append h.consumed_le]; exact h.discard
    slots := fun i d hi hd => ?_
    empty := fun i hi hi' => ?_
    frames := by rw [delivered_arrive h.consumed_le]; exact h.frames }
  · rcases Nat.lt_or_ge i s.arrived.length with hlt | hge
    · -- A descriptor that was there before has a slot of its own.
      rw [getElem?_append_left hlt] at hd
      have hne : i % rxRingSize ≠ s.arrived.length % rxRingSize := fun heq =>
        absurd (slot_inj hi (hlt.trans hroom) h.consumed_le hroom heq) (Nat.ne_of_lt hlt)
      obtain ⟨hdesc, hbytes⟩ := h.slots i d hi hd
      refine ⟨(Function.update_of_ne hne _ _).trans hdesc, fun j hj => ?_⟩
      have hslot : (i % rxRingSize * rxBufSize + j) / rxBufSize = i % rxRingSize := by
        unfold rxBufSize at *
        omega
      exact (if_neg (by rw [hslot]; exact hne)).trans (hbytes j hj)
    · rw [List.getElem?_append_right hge] at hd
      obtain ⟨hpos, rfl⟩ := List.getElem?_eq_some_iff.mp hd
      obtain rfl : i = s.arrived.length := by
        rw [length_singleton] at hpos
        omega
      refine ⟨(Function.update_self ..).trans (by simp), fun j hj => ?_⟩
      have hslot : (s.arrived.length % rxRingSize * rxBufSize + j) / rxBufSize =
          s.arrived.length % rxRingSize := by
        unfold rxBufSize at *
        omega
      have hofs : (s.arrived.length % rxRingSize * rxBufSize + j) % rxBufSize = j := by
        unfold rxBufSize at *
        omega
      refine (if_pos hslot).trans ?_
      rw [hofs]
      simp
  · rw [hlen] at hi
    have hne : i % rxRingSize ≠ s.arrived.length % rxRingSize := fun heq =>
      absurd (slot_inj (h.consumed_le.trans (Nat.le_of_succ_le hi)) hi' h.consumed_le hroom heq)
        (Nat.ne_of_gt hi)
    change (Function.update s.driver.rxRing _ c.desc (i % rxRingSize)).isDone = false
    rw [Function.update_of_ne hne]
    exact h.empty i (Nat.le_of_succ_le hi) hi'

end Ring

section Poll

/-- The driver after it has consumed the descriptor at `rx_next`. -/
def consumed (s : E1000) : E1000 :=
  { s with
    rxDiscard := !(s.rxRing s.rxNext).eop
    rxRing := Function.update s.rxRing s.rxNext .clear
    rxNext := (s.rxNext + 1) % rxRingSize
    rdt := s.rxNext }

/-- A poll that consumes nothing changes nothing and returns no frame. -/
theorem e1000Poll_idle {s : E1000} {bufNull : Bool} {cap : Nat}
    (h : pollConsumes s bufNull cap = false) :
    (e1000Poll s bufNull cap).1 ≤ 0 ∧ (e1000Poll s bufNull cap).2.2 = s := by
  unfold e1000Poll
  by_cases hargs : (!s.nicUp || bufNull || cap == 0) = true
  · rw [if_pos hargs]
    exact ⟨Int.negSucc_le_zero 0, rfl⟩
  · rw [if_neg hargs]
    have hdone : (s.rxRing s.rxNext).isDone = false := by
      simp only [pollConsumes, Bool.and_eq_false_iff] at h
      simp only [Bool.or_eq_true, not_or] at hargs
      simp_all
    dsimp only
    rw [hdone]
    exact ⟨le_rfl, rfl⟩

/-- A poll that consumes a descriptor hands on its frame if it is whole and good. -/
theorem e1000Poll_consume {s : E1000} {bufNull : Bool} {cap : Nat}
    (h : pollConsumes s bufNull cap = true) : e1000Poll s bufNull cap =
      if !s.rxDiscard && (s.rxRing s.rxNext).eop && (s.rxRing s.rxNext).good cap then
        (((s.rxRing s.rxNext).length.toNat : Int),
          (range (s.rxRing s.rxNext).length.toNat).map
            fun j => s.rxBufs (s.rxNext * rxBufSize + j), consumed s)
      else (0, [], consumed s) := by
  simp only [pollConsumes, Bool.and_eq_true] at h
  obtain ⟨⟨⟨hup, hbuf⟩, hcap⟩, hdone⟩ := h
  have hargs : (!s.nicUp || bufNull || cap == 0) = false := by simp_all
  rw [e1000Poll, hargs]
  dsimp only
  rw [hdone]
  rfl

variable {s : NicSystem} {bufNull : Bool} {cap : Nat} {c : Completion}

/-- The next descriptor to be consumed is the oldest one that was completed. -/
theorem Inv.consumes_iff (h : Inv s) (hcap : 0 < cap) :
    pollConsumes s.driver false cap = true ↔ s.caps.length < s.arrived.length := by
  have hconsumes : pollConsumes s.driver false cap =
      (s.driver.rxRing (s.caps.length % rxRingSize)).isDone := by
    rw [pollConsumes, h.up, h.next]
    simp [Nat.ne_of_gt hcap]
  rw [hconsumes]
  constructor
  · intro hdone
    by_contra hge
    rw [h.empty s.caps.length (Nat.le_of_not_lt hge) (Nat.lt_add_of_pos_right (by decide))] at hdone
    cases hdone
  · intro hlt
    obtain ⟨hdesc, -⟩ := h.slots _ _ le_rfl (getElem?_eq_getElem hlt)
    rw [hdesc]
    exact (s.arrived[s.caps.length]).isDone

theorem consumes_of_poll (h : pollConsumes s.driver bufNull cap = true) :
    bufNull = false ∧ 0 < cap := by
  simp only [pollConsumes, Bool.and_eq_true, Bool.not_eq_true', bne_iff_ne] at h
  exact ⟨h.1.1.2, Nat.pos_of_ne_zero h.1.2⟩

/-- What a poll returns for the oldest completed descriptor. -/
theorem Inv.poll_result (h : Inv s) (hc : s.arrived[s.caps.length]? = some c)
    (hconsumes : pollConsumes s.driver bufNull cap = true) :
    (if 0 < (e1000Poll s.driver bufNull cap).1 then
        s.frames ++ [(e1000Poll s.driver bufNull cap).2.1] else s.frames) =
      s.frames ++ (frameAt s.arrived (s.caps ++ [cap]) s.caps.length).toList := by
  obtain ⟨hdesc, hbytes⟩ := h.slots _ _ le_rfl hc
  rw [frameAt_next hc, e1000Poll_consume hconsumes, h.discard, Bool.not_not, h.next, hdesc]
  by_cases hok : (begins s.arrived s.caps.length && c.desc.eop && c.desc.good cap) = true
  · have hlen : c.desc.length.toNat ≠ 0 ∧ c.desc.length.toNat ≤ rxBufSize := by
      simp only [RxDesc.good, Bool.and_eq_true, bne_iff_ne, decide_eq_true_eq] at hok
      exact ⟨hok.2.1.1.1, hok.2.1.1.2⟩
    have hframe : ((range c.desc.length.toNat).map fun j =>
        s.driver.rxBufs (s.caps.length % rxRingSize * rxBufSize + j)) = c.frame := by
      apply map_congr_left
      intro j hj
      exact hbytes j ((mem_range.mp hj).trans_le hlen.2)
    rw [if_pos hok, if_pos hok, if_pos (by dsimp only; omega), hframe]
    rfl
  · rw [if_neg hok, if_neg hok, if_neg (lt_irrefl (0 : Int))]
    exact (append_nil _).symm

/-- A poll consumes the oldest completed descriptor. -/
theorem Inv.consume (h : Inv s) (hc : s.arrived[s.caps.length]? = some c) :
    Inv { s with
      driver := consumed s.driver
      caps := s.caps ++ [cap]
      frames := s.frames ++ (frameAt s.arrived (s.caps ++ [cap]) s.caps.length).toList } := by
  have hlt : s.caps.length < s.arrived.length := (List.getElem?_eq_some_iff.mp hc).1
  have hlen : (s.caps ++ [cap]).length = s.caps.length + 1 := by
    rw [length_append, length_singleton]
  have hroom := h.room
  obtain ⟨hdesc, -⟩ := h.slots _ _ le_rfl hc
  refine ⟨h.up, ?_, ?_, ?_, ?_, fun i d hi hd => ?_, fun i hi hi' => ?_, ?_⟩
  · rw [hlen]
    exact hlt
  · rw [hlen]
    exact hroom.trans (by omega)
  · rw [hlen]
    change (s.driver.rxNext + 1) % rxRingSize = _
    rw [h.next, Nat.mod_add_mod]
  · rw [hlen]
    change (!(s.driver.rxRing s.driver.rxNext).eop) = _
    rw [h.next, hdesc, begins, Nat.add_sub_cancel, hc]
    simp
  · rw [hlen] at hi
    have hbound : i < s.arrived.length := (List.getElem?_eq_some_iff.mp hd).1
    have hne : i % rxRingSize ≠ s.driver.rxNext := by
      rw [h.next]
      exact fun heq => absurd (slot_inj (Nat.le_of_succ_le hi) (hbound.trans_le hroom) le_rfl
        (by omega) heq) (Nat.ne_of_gt hi)
    obtain ⟨hold, hbytes⟩ := h.slots i d (Nat.le_of_succ_le hi) hd
    exact ⟨(Function.update_of_ne hne _ _).trans hold, hbytes⟩
  · change (Function.update s.driver.rxRing _ RxDesc.clear (i % rxRingSize)).isDone = false
    by_cases hslot : i % rxRingSize = s.driver.rxNext
    · rw [hslot, Function.update_self]
      decide
    · rw [Function.update_of_ne hslot]
      refine h.empty i hi ?_
      rw [hlen] at hi'
      -- The last slot of the longer window is the one that was just cleared.
      by_contra hge
      obtain rfl : i = s.caps.length + rxRingSize := by omega
      rw [Nat.add_mod_right, h.next] at hslot
      exact hslot rfl
  · rw [delivered_consume, h.frames]

end Poll

/-- Every event keeps the ring in order. -/
theorem Inv.step {s s' : NicSystem} {e : NicEvent} (h : Inv s) (he : step s e = some s') :
    Inv s' := by
  cases e with
  | complete c =>
    obtain ⟨hroom, heq⟩ := Option.ite_none_right_eq_some.mp he
    cases heq
    exact h.complete c hroom
  | poll bufNull cap =>
    cases he
    cases hconsumes : pollConsumes s.driver bufNull cap with
    | false =>
      obtain ⟨hresult, hsame⟩ := e1000Poll_idle hconsumes
      rw [hsame, if_neg Bool.false_ne_true, if_neg (not_lt.mpr hresult)]
      exact h
    | true =>
      obtain ⟨rfl, hcap⟩ := consumes_of_poll hconsumes
      have hlt := (h.consumes_iff hcap).mp hconsumes
      have hc := getElem?_eq_getElem hlt
      have hdriver : (e1000Poll s.driver false cap).2.2 = consumed s.driver := by
        rw [e1000Poll_consume hconsumes]
        split <;> rfl
      rw [hdriver, h.poll_result hc hconsumes]
      exact h.consume hc

/-- In every run the frames that polls return are those that occupy one descriptor alone
and are good, in the order of arrival; `rx_next` counts the consumed descriptors, and a
poll consumes one whenever one is complete. -/
theorem e1000_delivers_good_frames {bufs : Nat → UInt8} {es : List NicEvent} {s : NicSystem}
    (hrun : Run.run step (start bufs) es = some s) :
    s.frames = delivered s.arrived s.caps ∧
      s.driver.rxNext = s.caps.length % rxRingSize ∧
      ∀ cap > 0, pollConsumes s.driver false cap = true ↔
        s.caps.length < s.arrived.length := by
  have h : Inv s := Run.invariant (fun _ _ _ h he => Inv.step h he) (inv_start bufs) hrun
  exact ⟨h.frames, h.next, fun _ hcap => h.consumes_iff hcap⟩

/-- A descriptor with four bytes, the last one of its frame or not. -/
def fourBytes (last : Bool) : Completion where
  desc := ⟨4, if last then 3 else 1, 0⟩
  bytes := fun j => UInt8.ofNat j
  isDone := by cases last <;> decide

/-- Of a frame in two descriptors and a frame in one, only the second is returned. -/
theorem e1000_delivers_second_frame : ∃ s,
    Run.run step (start fun _ => 0) [.complete (fourBytes false), .complete (fourBytes true),
      .complete (fourBytes true), .poll false 64, .poll false 64, .poll false 64] = some s ∧
    s.frames = [[0, 1, 2, 3]] ∧ s.frames = delivered s.arrived s.caps ∧
    s.driver.rxNext = s.caps.length % rxRingSize := by
  have hrun : (Run.run step (start fun _ => 0) [.complete (fourBytes false),
      .complete (fourBytes true), .complete (fourBytes true), .poll false 64, .poll false 64,
      .poll false 64]).map frames = some [[0, 1, 2, 3]] := by
    decide +kernel
  obtain ⟨s, hs, hframes⟩ := Option.map_eq_some_iff.mp hrun
  obtain ⟨hdelivered, hnext, -⟩ := e1000_delivers_good_frames hs
  exact ⟨s, hs, hframes, hdelivered, hnext⟩

end NicSystem

end Mmix.Net
