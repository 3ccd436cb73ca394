import Mmix.Lib.Run
import Mmix.Fs.Vfs
import Mmix.Net.Echo

/-!
# The device `/dev/net`

The command protocol of `net.c`: a process writes a command and reads the
line that answers it. The state is one global record for all processes. What
the network does with a request is left to an oracle.
-/

namespace Mmix.Net

open Fs (ascii)

/-- `CMD_NONE`, `CMD_PING` and `CMD_STATUS`. -/
inductive NetCmd where
  | none
  | ping
  | status
  deriving DecidableEq, Repr

/-- `RES_NONE`, `RES_PENDING` and `RES_READY`. -/
inductive ResState where
  | none
  | pending
  | ready
  deriving DecidableEq, Repr

/-- The global record of `net.c`, without the fields that are never read. The text of
`result_buf` is given by the bytes before its NUL. -/
structure NetState where
  inited : Bool
  ip : BitVec 32
  gw : BitVec 32
  mask : BitVec 32
  openOwner : BitVec 32
  seqNext : BitVec 16
  cmd : NetCmd
  resultState : ResState
  resultAddr : BitVec 32
  resultOff : Nat
  resultBuf : List UInt8
  deriving DecidableEq

/-- The network card. -/
structure Nic where
  present : Bool
  mac : Mac

/-- How the exchange of a `ping` ends. -/
inductive PingOutcome where
  | arpTimeout
  | txFail
  | timeout
  | reply
  deriving DecidableEq, Repr

/-- The statuses of `cmd_ping_run`. -/
inductive PingStatus where
  | ok
  | netDown
  | arpTimeout
  | txFail
  | timeout
  deriving DecidableEq, Repr

/-- `net_init`. -/
def netInit (nic : Nic) : NetState where
  inited := nic.present
  ip := 0x0A00020F
  gw := 0x0A000202
  mask := 0xFFFFFF00
  openOwner := 0
  seqNext := 1
  cmd := .none
  resultState := .none
  resultAddr := 0
  resultOff := 0
  resultBuf := []

/-! ### Lines -/

/-- `"%u"`. -/
def decimal (n : Nat) : List UInt8 := (Nat.toDigits 10 n).map fun c => UInt8.ofNat c.toNat

/-- `"%x"`. -/
def hex (n : Nat) : List UInt8 := (Nat.toDigits 16 n).map fun c => UInt8.ofNat c.toNat

/-- `"%u.%u.%u.%u"` of an address. -/
def dotted (ip : BitVec 32) : List UInt8 :=
  decimal ((ip >>> 24) &&& 0xFF).toNat ++ ascii "." ++ decimal ((ip >>> 16) &&& 0xFF).toNat ++
    ascii "." ++ decimal ((ip >>> 8) &&& 0xFF).toNat ++ ascii "." ++ decimal (ip &&& 0xFF).toNat

/-- `"%x:%x:%x:%x:%x:%x"` of a hardware address. -/
def macText (mac : Mac) : List UInt8 :=
  hex mac.m0.toNat ++ ascii ":" ++ hex mac.m1.toNat ++ ascii ":" ++ hex mac.m2.toNat ++
    ascii ":" ++ hex mac.m3.toNat ++ ascii ":" ++ hex mac.m4.toNat ++ ascii ":" ++
    hex mac.m5.toNat

/-- `cmd_status_render` into the 192 bytes of a line. -/
def cmdStatusRender (nic : Nic) (net : NetState) : List UInt8 :=
  (ascii "net: " ++ (if net.inited then ascii "up" else ascii "down") ++ ascii "\nip " ++
    dotted net.ip ++ ascii "/" ++ dotted net.mask ++ ascii " gw " ++ dotted net.gw ++
    ascii "\nmac " ++ macText nic.mac ++ ascii "\nlink " ++
    (if nic.present then ascii "present" else ascii "absent") ++
    ascii " static (no DHCP)\n").take 191

/-- `cmd_ping_run`: the status, the number of the request and the state. -/
def cmdPingRun (nic : Nic) (outcome : PingOutcome) (net : NetState) :
    PingStatus × BitVec 16 × NetState :=
  if !nic.present then (.netDown, 0, net)
  else
    let seq := if net.seqNext = 0 then 1 else net.seqNext
    match outcome with
    | .arpTimeout => (.arpTimeout, 0, net)
    | .txFail => (.txFail, 0, { net with seqNext := seq + 1 })
    | .timeout => (.timeout, 0, { net with seqNext := seq + 1 })
    | .reply => (.ok, seq, { net with seqNext := seq + 1 })

/-- The line that `netdev_read` prints for a `ping`. -/
def pingLine (addr : BitVec 32) (status : PingStatus) (seq : BitVec 16) : List UInt8 :=
  match status with
  | .ok => ascii "reply from " ++ dotted addr ++ ascii " seq=" ++ decimal seq.toNat ++ ascii "\n"
  | .netDown => ascii "net down\n"
  | .arpTimeout => ascii "no arp reply from " ++ dotted addr ++ ascii "\n"
  | .txFail => ascii "tx error\n"
  | .timeout => ascii "timeout " ++ dotted addr ++ ascii "\n"

/-! ### The calls -/

/-- The loop of `parse_ipv4_strict`, with the octets read so far. -/
def parseOctets : List UInt8 → List Nat → Nat → Nat → Option (List Nat)
  | [], _, _, _ => none
  | c :: rest, octets, val, digits =>
    if 48 ≤ c ∧ c ≤ 57 then
      let val := val * 10 + (c.toNat - 48)
      if 3 < digits + 1 then none
      else if 255 < val then none
      else if rest ≠ [] then parseOctets rest octets val (digits + 1)
      else if octets.length ≠ 3 then none
      else some (octets ++ [val])
    else if c = 46 ∧ octets.length < 3 ∧ 0 < digits then
      if rest = [] then none else parseOctets rest (octets ++ [val]) 0 0
    else none

/-- `parse_ipv4_strict`. -/
def parseIpv4Strict (s : List UInt8) : Option (BitVec 32) :=
  if s.length = 0 ∨ 15 < s.length then none
  else
    (parseOctets s [] 0 0).map fun octets =>
      BitVec.ofNat 32 (octets.foldl (fun ip octet => ip * 256 + octet) 0)

/-- The loop that drops the end of the line. -/
def stripLine (buf : List UInt8) : List UInt8 :=
  (buf.reverse.dropWhile fun c => c = 10 ∨ c = 13).reverse

/-- A command as it is written. -/
inductive Command where
  | status
  | ping (addr : BitVec 32)
  deriving DecidableEq, Repr

/-- The command in a buffer. -/
def parseCommand (buf : List UInt8) : Option Command :=
  let line := stripLine buf
  if line = ascii "status" then some .status
  else if 5 < line.length ∧ line.take 5 = ascii "ping " then
    (parseIpv4Strict (line.drop 5)).map .ping
  else none

/-- Take a command. -/
def NetState.accept (net : NetState) (pid : BitVec 32) : Command → NetState
  | .status => { net with openOwner := pid, cmd := .status, resultState := .pending }
  | .ping addr =>
    { net with openOwner := pid, cmd := .ping, resultState := .pending, resultAddr := addr }

/-- `netdev_write` by a process. -/
def netdevWrite (nic : Nic) (pid : BitVec 32) (buf : List UInt8) (net : NetState) :
    Int × NetState :=
  if buf = [] then (-1, net)
  else if !net.inited || !nic.present then (-1, net)
  else if net.cmd ≠ .none ∧ net.resultState = .pending then
    (if net.openOwner ≠ pid then -1 else 0, net)
  else
    match parseCommand buf with
    | none => (-1, net)
    | some c =>
      if net.resultState = .pending ∧ net.openOwner ≠ pid then (-1, net)
      else ((stripLine buf).length, net.accept pid c)

/-- The line of the pending command and the state after it was run. -/
def NetState.execute (nic : Nic) (outcome : PingOutcome) (net : NetState) :
    List UInt8 × NetState :=
  if net.cmd = .status then (cmdStatusRender nic net, net)
  else
    let (status, seq, net) := cmdPingRun nic outcome net
    (pingLine net.resultAddr status seq, net)

/-- `netdev_read` by a process: the return value, the bytes copied and the state. -/
def netdevRead (nic : Nic) (pid : BitVec 32) (n : Nat) (outcome : PingOutcome)
    (net : NetState) : Int × List UInt8 × NetState :=
  if n = 0 then (-1, [], net)
  else if !net.inited then (-1, [], net)
  else if net.openOwner ≠ pid then (-1, [], net)
  else if net.resultState = .ready then
    let rest := net.resultBuf.drop net.resultOff
    if net.resultBuf.length ≤ net.resultOff then
      (0, [], { net with resultState := .none, cmd := .none, resultOff := 0, resultBuf := [] })
    else
      ((rest.take n).length, rest.take n,
        { net with resultOff := net.resultOff + (rest.take n).length })
  else if net.resultState ≠ .pending ∨ net.cmd = .none then (0, [], net)
  else
    let (line, net) := net.execute nic outcome
    ((line.take n).length, line.take n,
      { net with
        cmd := .none
        resultState := .ready
        resultOff := (line.take n).length
        resultBuf := line })

/-- A call of the device. -/
inductive NetCall where
  | write (buf : List UInt8)
  | read (n : Nat) (outcome : PingOutcome)

/-- A call of a process. -/
structure NetOp where
  pid : BitVec 32
  call : NetCall

/-- The state after a call. -/
def netStep (nic : Nic) (net : NetState) (op : NetOp) : NetState :=
  match op.call with
  | .write buf => (netdevWrite nic op.pid buf net).2
  | .read n outcome => (netdevRead nic op.pid n outcome net).2.2

/-! ### The answer to a command -/

/-- The line that answers a command when it is run. -/
def Command.line (nic : Nic) (outcome : PingOutcome) (net : NetState) : Command → List UInt8
  | .status => cmdStatusRender nic net
  | .ping addr =>
    let r := cmdPingRun nic outcome net
    pingLine addr r.1 r.2.1

/-- A process that reads on receives the answer to its command in pieces and then a zero:
`rest` is what is left of the answer, once the command was run. After the zero, or when it
writes again, nothing more is asked. -/
def Served (nic : Nic) (pid : BitVec 32) (c : Command) :
    Option (List UInt8) → NetState → List NetOp → Prop
  | _, _, [] => True
  | rest, net, op :: ops =>
    if op.pid = pid then
      match op.call with
      | .write _ => True
      | .read n outcome =>
        let line := rest.getD (c.line nic outcome net)
        let r := netdevRead nic pid n outcome net
        if n = 0 then Served nic pid c rest r.2.2 ops
        else if line = [] then r.1 = 0 ∧ r.2.1 = []
        else
          r.1 = r.2.1.length ∧ r.2.1 ≠ [] ∧ r.2.1 <+: line ∧
            Served nic pid c (some (line.drop r.2.1.length)) r.2.2 ops
    else Served nic pid c rest (netStep nic net op) ops

instance decidableServed (nic : Nic) (pid : BitVec 32) (c : Command) :
    ∀ rest net ops, Decidable (Served nic pid c rest net ops)
  | _, _, [] => isTrue trivial
  | rest, net, ⟨q, .write buf⟩ :: ops =>
    have := decidableServed nic pid c rest (netStep nic net ⟨q, .write buf⟩) ops
    inferInstanceAs (Decidable (if q = pid then True
      else Served nic pid c rest (netStep nic net ⟨q, .write buf⟩) ops))
  | rest, net, ⟨q, .read n outcome⟩ :: ops =>
    have := fun rest net => decidableServed nic pid c rest net ops
    inferInstanceAs (Decidable (if q = pid then
        if n = 0 then Served nic pid c rest (netdevRead nic pid n outcome net).2.2 ops
        else if rest.getD (c.line nic outcome net) = [] then
          (netdevRead nic pid n outcome net).1 = 0 ∧ (netdevRead nic pid n outcome net).2.1 = []
        else
          (netdevRead nic pid n outcome net).1 = (netdevRead nic pid n outcome net).2.1.length ∧
            (netdevRead nic pid n outcome net).2.1 ≠ [] ∧
            (netdevRead nic pid n outcome net).2.1 <+: rest.getD (c.line nic outcome net) ∧
            Served nic pid c (some ((rest.getD (c.line nic outcome net)).drop
              (netdevRead nic pid n outcome net).2.1.length))
              (netdevRead nic pid n outcome net).2.2 ops
      else Served nic pid c rest (netStep nic net ⟨q, .read n outcome⟩) ops))

/-- No other process writes a command while a result is there to be read. -/
def NoTakeover (net : NetState) (op : NetOp) : Prop :=
  op.pid ≠ net.openOwner → net.resultState = .ready →
    ∀ buf, op.call = .write buf → parseCommand buf = none

/-- The command of a process waits to be run. -/
structure NetState.Waits (net : NetState) (pid : BitVec 32) (c : Command) : Prop where
  inited : net.inited = true
  owner : net.openOwner = pid
  pending : net.resultState = .pending
  cmd : net.cmd ≠ .none
  line : ∀ nic outcome, (net.execute nic outcome).1 = c.line nic outcome net

/-- The rest of an answer is there for a process. -/
structure NetState.Offers (net : NetState) (pid : BitVec 32) (rest : List UInt8) : Prop where
  inited : net.inited = true
  owner : net.openOwner = pid
  ready : net.resultState = .ready
  rest : net.resultBuf.drop net.resultOff = rest

section Answer

variable {nic : Nic} {net : NetState} {pid : BitVec 32} {c : Command} {rest : List UInt8}
  {op : NetOp}

theorem cmdPingRun_frame (nic : Nic) (outcome : PingOutcome) (net : NetState) :
    (cmdPingRun nic outcome net).2.2.inited = net.inited ∧
      (cmdPingRun nic outcome net).2.2.openOwner = net.openOwner ∧
      (cmdPingRun nic outcome net).2.2.resultAddr = net.resultAddr := by
  rw [cmdPingRun]
  split
  · exact ⟨rfl, rfl, rfl⟩
  · cases outcome <;> exact ⟨rfl, rfl, rfl⟩

theorem execute_frame (nic : Nic) (outcome : PingOutcome) (net : NetState) :
    (net.execute nic outcome).2.inited = net.inited ∧
      (net.execute nic outcome).2.openOwner = net.openOwner := by
  have hping := cmdPingRun_frame nic outcome net
  rw [NetState.execute]
  split
  · exact ⟨rfl, rfl⟩
  · exact ⟨hping.1, hping.2.1⟩

theorem waits_accept (hinit : net.inited = true) (pid : BitVec 32) (c : Command) :
    (net.accept pid c).Waits pid c := by
  cases c with
  | status => exact ⟨hinit, rfl, rfl, nofun, fun _ _ => rfl⟩
  | ping addr =>
    refine ⟨hinit, rfl, rfl, nofun, fun nic outcome => ?_⟩
    have hframe := cmdPingRun_frame nic outcome (net.accept pid (.ping addr))
    exact congrArg (pingLine · _ _) hframe.2.2

theorem NetState.Waits.other (h : net.Waits pid c) (hop : op.pid ≠ pid) :
    netStep nic net op = net := by
  have howner : net.openOwner ≠ op.pid := h.owner ▸ hop.symm
  rw [netStep]
  cases op.call with
  | write buf =>
    simp only [netdevWrite, if_pos (show net.cmd ≠ .none ∧ net.resultState = .pending from
      ⟨h.cmd, h.pending⟩)]
    split <;> [rfl; (split <;> rfl)]
  | read n outcome =>
    simp only [netdevRead, if_pos howner, ite_self]

theorem NetState.Offers.other (h : net.Offers pid rest) (hop : op.pid ≠ pid)
    (hcond : NoTakeover net op) : netStep nic net op = net := by
  have howner : net.openOwner ≠ op.pid := h.owner ▸ hop.symm
  have hready : ¬ (net.cmd ≠ .none ∧ net.resultState = .pending) := by
    rw [h.ready]
    exact fun hc => nomatch hc.2
  rw [netStep]
  cases hcall : op.call with
  | write buf =>
    simp only [netdevWrite, if_neg hready, hcond howner.symm h.ready buf hcall, ite_self]
  | read n outcome =>
    simp only [netdevRead, if_pos howner, ite_self]

theorem drop_length_take {α : Type*} (l : List α) (n : Nat) : l.drop (l.take n).length = l.drop n := by
  rw [List.length_take]
  rcases Nat.le_total n l.length with hle | hle
  · rw [Nat.min_eq_left hle]
  · rw [Nat.min_eq_right hle, List.drop_length, List.drop_of_length_le hle]

/-- A read of at most `n` bytes gets the next piece of a line. -/
structure Handed (pid : BitVec 32) (line : List UInt8) (n : Nat)
    (r : Int × List UInt8 × NetState) : Prop where
  count : r.1 = r.2.1.length
  bytes : r.2.1 = line.take n
  offers : r.2.2.Offers pid (line.drop n)

theorem NetState.Waits.read (h : net.Waits pid c) (nic : Nic) {n : Nat} (hn : n ≠ 0)
    (outcome : PingOutcome) :
    Handed pid (c.line nic outcome net) n (netdevRead nic pid n outcome net) := by
  have hframe := execute_frame nic outcome net
  have hready : net.resultState ≠ .ready := by
    rw [h.pending]
    exact nofun
  rw [netdevRead, if_neg hn, if_neg (by simp [h.inited]), if_neg (not_not.mpr h.owner),
    if_neg hready, if_neg (by simp [h.pending, h.cmd]), ← h.line nic outcome]
  exact ⟨rfl, rfl, ⟨hframe.1.trans h.inited, hframe.2.trans h.owner, rfl, drop_length_take _ n⟩⟩

theorem NetState.Offers.read (h : net.Offers pid rest) (nic : Nic) {n : Nat} (hn : n ≠ 0)
    (hrest : rest ≠ []) (outcome : PingOutcome) :
    Handed pid rest n (netdevRead nic pid n outcome net) := by
  have hoff : ¬ net.resultBuf.length ≤ net.resultOff := by
    rw [← List.drop_eq_nil_iff, h.rest]
    exact hrest
  rw [netdevRead, if_neg hn, if_neg (by simp [h.inited]), if_neg (not_not.mpr h.owner),
    if_pos h.ready, if_neg hoff, h.rest]
  refine ⟨rfl, rfl, ⟨h.inited, h.owner, h.ready, ?_⟩⟩
  rw [← List.drop_drop, h.rest, drop_length_take]

theorem NetState.Offers.read_end (h : net.Offers pid []) (nic : Nic) {n : Nat} (hn : n ≠ 0)
    (outcome : PingOutcome) :
    (netdevRead nic pid n outcome net).1 = 0 ∧ (netdevRead nic pid n outcome net).2.1 = [] := by
  have hoff : net.resultBuf.length ≤ net.resultOff := List.drop_eq_nil_iff.mp h.rest
  rw [netdevRead, if_neg hn, if_neg (by simp [h.inited]), if_neg (not_not.mpr h.owner),
    if_pos h.ready, if_pos hoff]
  exact ⟨rfl, rfl⟩

/-- The runs of the device in which no result is overwritten. -/
abbrev Undisturbed (nic : Nic) (net : NetState) (ops : List NetOp) : Prop :=
  Run.Along (fun net op => some (netStep nic net op)) NoTakeover net ops

/-- A piece of a line is served, if the rest is. -/
theorem Handed.served {line : List UInt8} {n : Nat} {r : Int × List UInt8 × NetState}
    (h : Handed pid line n r) (hn : n ≠ 0) (hline : line ≠ []) {ops : List NetOp}
    (hrest : Served nic pid c (some (line.drop n)) r.2.2 ops) :
    r.1 = r.2.1.length ∧ r.2.1 ≠ [] ∧ r.2.1 <+: line ∧
      Served nic pid c (some (line.drop r.2.1.length)) r.2.2 ops := by
  have hne : r.2.1 ≠ [] := by
    rw [h.bytes, Ne, List.take_eq_nil_iff]
    exact fun hor => hor.elim hn hline
  have hdrop : line.drop r.2.1.length = line.drop n := by rw [h.bytes, drop_length_take]
  exact ⟨h.count, hne, h.bytes ▸ List.take_prefix n line, hdrop ▸ hrest⟩

/-- What is left of an answer is served. -/
theorem NetState.Offers.served (h : net.Offers pid rest) {ops : List NetOp}
    (hcond : Undisturbed nic net ops) : Served nic pid c (some rest) net ops := by
  induction ops generalizing net rest with
  | nil => trivial
  | cons op ops ih =>
    have hnext : Undisturbed nic (netStep nic net op) ops := hcond.2 _ rfl
    rw [Served]
    by_cases hpid : op.pid = pid
    · rw [if_pos hpid]
      rw [netStep, hpid] at hnext
      cases hcall : op.call with
      | write buf => trivial
      | read n outcome =>
        simp only [hcall] at hnext
        simp only [Option.getD_some]
        by_cases hn : n = 0
        · subst hn
          rw [if_pos rfl]
          exact ih h hnext
        · rw [if_neg hn]
          by_cases hrest : rest = []
          · subst hrest
            rw [if_pos rfl]
            exact h.read_end nic hn outcome
          · rw [if_neg hrest]
            have hread := h.read nic hn hrest outcome
            exact hread.served hn hrest (ih hread.offers hnext)
    · rw [if_neg hpid]
      rw [h.other hpid hcond.1] at hnext ⊢
      exact ih h hnext

/-- The lines are not empty. -/
theorem Command.line_ne_nil (nic : Nic) (outcome : PingOutcome) (net : NetState) (c : Command) :
    c.line nic outcome net ≠ [] := by
  cases c with
  | status => exact nofun
  | ping addr =>
    simp only [Command.line]
    cases (cmdPingRun nic outcome net).1 <;> exact nofun

/-- A command that waits is answered. -/
theorem NetState.Waits.served (h : net.Waits pid c) {ops : List NetOp}
    (hcond : Undisturbed nic net ops) : Served nic pid c none net ops := by
  induction ops generalizing net with
  | nil => trivial
  | cons op ops ih =>
    have hnext : Undisturbed nic (netStep nic net op) ops := hcond.2 _ rfl
    rw [Served]
    by_cases hpid : op.pid = pid
    · rw [if_pos hpid]
      rw [netStep, hpid] at hnext
      cases hcall : op.call with
      | write buf => trivial
      | read n outcome =>
        simp only [hcall] at hnext
        simp only [Option.getD_none]
        by_cases hn : n = 0
        · subst hn
          rw [if_pos rfl]
          exact ih h hnext
        · rw [if_neg hn, if_neg (c.line_ne_nil nic outcome net)]
          have hread := h.read nic hn outcome
          exact hread.served hn (c.line_ne_nil nic outcome net) (hread.offers.served hnext)
    · rw [if_neg hpid]
      rw [h.other hpid] at hnext ⊢
      exact ih h hnext

/-- What `netdev_write` does when it takes a command. -/
theorem netdevWrite_accepted {buf : List UInt8} (h : 0 < (netdevWrite nic pid buf net).1) :
    net.inited = true ∧ ∃ c, parseCommand buf = some c ∧
      (netdevWrite nic pid buf net).2 = net.accept pid c := by
  have hneg : ¬ (0 : Int) < -1 := by decide
  rw [netdevWrite] at h ⊢
  by_cases hbuf : buf = []
  · rw [if_pos hbuf] at h
    exact absurd h hneg
  by_cases hup : (!net.inited || !nic.present) = true
  · rw [if_neg hbuf, if_pos hup] at h
    exact absurd h hneg
  by_cases hbusy : net.cmd ≠ .none ∧ net.resultState = .pending
  · rw [if_neg hbuf, if_neg hup, if_pos hbusy] at h
    split at h
    · exact absurd h hneg
    · exact absurd h (Int.lt_irrefl 0)
  rw [if_neg hbuf, if_neg hup, if_neg hbusy] at h ⊢
  refine ⟨by simpa using (not_or.mp (mt (Bool.or_eq_true _ _).mpr hup)).1, ?_⟩
  cases hparse : parseCommand buf with
  | none =>
    simp only [hparse] at h
    exact absurd h hneg
  | some c =>
    simp only [hparse] at h ⊢
    by_cases hown : net.resultState = .pending ∧ net.openOwner ≠ pid
    · rw [if_pos hown] at h
      exact absurd h hneg
    · exact ⟨c, rfl, by rw [if_neg hown]⟩

end Answer

/-- The device answers the process that asked, in every run in which no other process
writes a command while a result is there to be read. -/
theorem netdev_answers_owner (nic : Nic) (net : NetState) (pid : BitVec 32) (buf : List UInt8)
    (c : Command) (ops : List NetOp) (hcmd : parseCommand buf = some c)
    (haccepted : 0 < (netdevWrite nic pid buf net).1)
    (hcond : Run.Along (fun net op => some (netStep nic net op)) NoTakeover
      (netdevWrite nic pid buf net).2 ops) :
    Served nic pid c none (netdevWrite nic pid buf net).2 ops := by
  obtain ⟨hinit, c', hparse, hnet⟩ := netdevWrite_accepted haccepted
  obtain rfl : c' = c := Option.some.inj (hparse.symm.trans hcmd)
  rw [hnet] at hcond ⊢
  exact (waits_accept hinit pid c').served hcond

/-- The card of the machine. -/
def smallNic : Nic := ⟨true, ⟨0x52, 0x54, 0, 0x12, 0x34, 0x56⟩⟩

/-- The owner reads three bytes of its line; another process asks; the owner reads on. -/
def takeover : List NetOp :=
  [⟨1, .read 3 .reply⟩, ⟨2, .write (ascii "status")⟩, ⟨1, .read 3 .reply⟩]

theorem netdev_answers_smallNic :
    0 < (netdevWrite smallNic 1 (ascii "status") (netInit smallNic)).1 ∧
      Served smallNic 1 .status none
        (netdevWrite smallNic 1 (ascii "status") (netInit smallNic)).2
        [⟨1, .read 3 .reply⟩, ⟨2, .read 3 .reply⟩, ⟨1, .read 3 .reply⟩] := by
  have haccepted : 0 < (netdevWrite smallNic 1 (ascii "status") (netInit smallNic)).1 := by decide
  refine ⟨haccepted, netdev_answers_owner smallNic (netInit smallNic) 1 (ascii "status") .status _
    (by decide) haccepted ?_⟩
  refine ⟨nofun, fun _ _ => ⟨nofun, fun _ _ => ⟨nofun, fun _ _ => trivial⟩⟩⟩

/-- The owner of a result loses it to a command of another process. -/
theorem netdev_takeover :
    0 < (netdevWrite smallNic 1 (ascii "status") (netInit smallNic)).1 ∧
      ¬ Served smallNic 1 .status none
        (netdevWrite smallNic 1 (ascii "status") (netInit smallNic)).2 takeover := by
  refine ⟨by decide, ?_⟩
  decide

end Mmix.Net
