import Mmix.Fs.Content
import Mmix.Net.Netdev
import Mmix.Sys.Boot

/-!
# The kernel with its files and `/dev/net`

The machine leaves open what a path resolves to and what input and output
through a file or a device gives. Here these come from the file system and from
the state of `net.c`: when a call of `sys_open`, `sys_read` or `sys_write` is
dispatched, its missing arguments are filled in. The path of an open, its flag
`O_CREATE` and the course of a `ping` come with the event. Devices other than
`/dev/net`, and `procfs`, stay open.
-/

namespace Mmix.Sys

open Mm Fs Proc Kernel Net

/-- The state of the machine, of `vfs.c` and of `net.c`. -/
structure System where
  kernel : Kernel
  vfs : Vfs
  net : NetState

/-- An event, with what an open and a `ping` need from outside. -/
structure Input where
  event : Event
  path : CStr := []
  create : Bool := false
  outcome : PingOutcome := .reply

/-- The address of a node. -/
def nodeAddr : NodePtr → Nat
  | .heap n => 2 * n
  | .pool i => 2 * i + 1

/-- The node at an address. -/
def nodePtr (addr : Nat) : NodePtr :=
  if addr % 2 = 0 then .heap (addr / 2) else .pool (addr / 2)

theorem nodePtr_nodeAddr (p : NodePtr) : nodePtr (nodeAddr p) = p := by
  cases p with
  | heap n =>
    rw [nodePtr, nodeAddr, if_pos (Nat.mul_mod_right 2 n), Nat.mul_div_cancel_left n (by decide)]
  | pool i =>
    have hodd : (2 * i + 1) % 2 ≠ 0 := by omega
    have hhalf : (2 * i + 1) / 2 = i := by omega
    rw [nodePtr, nodeAddr, if_neg hodd, hhalf]

/-- The kind of a node; the device `console` reads the keyboard. -/
def nodeKind (s : Vfs) (p : NodePtr) : NodeKind :=
  match (s.node p).type with
  | .file => .file
  | .directory => .directory
  | .procfs => .procfs
  | .chardev => if (s.node p).name = ascii "console" then .console else .chardev

/-- What is behind a descriptor: a file at a position, `/dev/net`, or anything else. -/
inductive Target where
  | file (p : NodePtr) (pos : Nat)
  | net
  | other

namespace System

variable (st : System)

/-- The processes that `procfs` shows. -/
def live (pid : Nat) : Bool := (schedFindPid st.kernel (BitVec.ofNat 32 pid).toInt).isSome

/-- The target of the descriptor of an input or output call; `stream` says whether the
descriptor is a pipe or a console instead, and `dynamic` whether `procfs` answers. -/
def target (fd : Word) (stream : File → Bool) (dynamic : Bool) : Target :=
  match fdGet st.kernel.cur (toInt fd) with
  | none => .other
  | some fd =>
    let f := st.kernel.cur.fds fd
    match f.node with
    | none => .other
    | some node =>
      let p := nodePtr node.addr
      match node.kind with
      | .console => .other
      | .chardev => if (st.vfs.node p).name = ascii "net" then .net else .other
      | .procfs => if dynamic || stream f then .other else .file p f.pos.toNat
      | .file | .directory => if stream f then .other else .file p f.pos.toNat

/-- The target of `sys_write`. -/
def writeTarget (fd : Word) : Target :=
  st.target fd (fun f => f.isWr || (f.flags &&& fdfConsoleOut != 0)) false

/-- The target of `sys_read`. -/
def readTarget (fd : Word) : Target :=
  st.target fd (fun f => f.isRd || (f.flags &&& fdfConsoleIn != 0)) true

/-- The process that makes a call, as `net.c` records it. -/
def caller : BitVec 32 := BitVec.ofInt 32 st.kernel.cur.pid

/-- Fill in what a call obtains from the file system and from `/dev/net`. -/
def answer (nic : Nic) (inp : Input) : Call → Call × Vfs × NetState
  | .openFile false _ append _ =>
    match sysOpenNode st.live st.vfs inp.path inp.create with
    | (none, vfs) => (.openFile false none append 0, vfs, st.net)
    | (some p, vfs) =>
      (.openFile false (some ⟨nodeAddr p, nodeKind vfs p⟩) append
        (BitVec.ofNat 64 (vfs.node p).size), vfs, st.net)
  | .write fd false data result =>
    if data = [] then (.write fd false data result, st.vfs, st.net)
    else
      match st.writeTarget fd with
      | .file p pos =>
        let r := vfsWrite st.vfs (some p) data pos
        (.write fd false data r.1, r.2, st.net)
      | .net =>
        let r := netdevWrite nic st.caller data st.net
        (.write fd false data r.1, st.vfs, r.2)
      | .other => (.write fd false data result, st.vfs, st.net)
  | .read fd false count result =>
    match st.readTarget fd with
    | .file p pos =>
      let r := vfsRead (fun _ _ _ => (result, [])) st.vfs (some p) count.toNat pos
      (.read fd false count r.1, st.vfs, st.net)
    | .net =>
      let r := netdevRead nic st.caller count.toNat inp.outcome st.net
      (.read fd false count r.1, st.vfs, r.2.2)
    | .other => (.read fd false count result, st.vfs, st.net)
  | c => (c, st.vfs, st.net)

/-- The call that the step dispatches. -/
def dispatched (inp : Input) : Option Call :=
  match inp.event, st.kernel.cur.cont with
  | .resume, .dispatch c => some c
  | _, _ => none

/-- The state in which the call that is dispatched has its arguments. -/
def prepare (nic : Nic) (inp : Input) : System :=
  match st.dispatched inp with
  | none => st
  | some c =>
    let a := st.answer nic inp c
    ⟨st.kernel.goto (.dispatch a.1), a.2.1, a.2.2⟩

/-- One step of the system. -/
def step (nic : Nic) (inp : Input) : Option System :=
  (Sys.step (st.prepare nic inp).kernel inp.event).map fun k =>
    { st.prepare nic inp with kernel := k }

variable {st} {nic : Nic} {inp : Input} {st' : System}

theorem dispatched_some {c : Call} (h : st.dispatched inp = some c) :
    inp.event = .resume ∧ st.kernel.cur.cont = .dispatch c := by
  rw [dispatched] at h
  split at h
  · next hevent hcont => exact ⟨hevent, Option.some.inj h ▸ hcont⟩
  · cases h

theorem prepare_some {c : Call} (h : st.dispatched inp = some c) :
    st.prepare nic inp = ⟨st.kernel.goto (.dispatch (st.answer nic inp c).1),
      (st.answer nic inp c).2.1, (st.answer nic inp c).2.2⟩ := by
  rw [prepare, h]

theorem prepare_none (h : st.dispatched inp = none) : st.prepare nic inp = st := by
  rw [prepare, h]

theorem step_eq_some (h : st.step nic inp = some st') :
    Sys.step (st.prepare nic inp).kernel inp.event = some st'.kernel ∧
      st'.vfs = (st.prepare nic inp).vfs ∧ st'.net = (st.prepare nic inp).net := by
  obtain ⟨k, hk, rfl⟩ := Option.map_eq_some_iff.mp h
  exact ⟨hk, rfl, rfl⟩

end System

/-- A call with a path. -/
def callAt (path : CStr) (c : Call) : List Input :=
  (call c).map fun e => { event := e, path := path }

end Mmix.Sys
