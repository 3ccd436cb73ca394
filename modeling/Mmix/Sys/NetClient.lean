import Mmix.Sys.Life
import Mmix.Sys.System

/-!
# The owner of a command of `/dev/net`

While a command is pending, only the process that wrote it can go on with the
device. `net.c` does not learn of the end of a process, so the device is stuck
when the owner ends before it reads. In runs that spare the owner it is always
a live task.
-/

namespace Mmix.Sys

open Mm Fs Proc Kernel Net

/-- A process with the given number, as `net.c` records it, is there and not a zombie. -/
def ProcessLives (owner : BitVec 32) (k : Kernel) : Prop :=
  ∃ i, (k.tasks i).state ≠ .free ∧ (k.tasks i).zombie = false ∧
    BitVec.ofInt 32 (k.tasks i).pid = owner

instance (owner : BitVec 32) (k : Kernel) : Decidable (ProcessLives owner k) :=
  inferInstanceAs (Decidable (∃ _, _))

/-- A command waits to be run. -/
def Busy (net : NetState) : Prop :=
  net.resultState = .pending ∧ net.cmd ≠ .none

instance (net : NetState) : Decidable (Busy net) := inferInstanceAs (Decidable (_ ∧ _))

/-- The event ends the task in a slot: by `sys_exit`, by a fault, by a signal it delivers or
by `SIGKILL`. -/
def Ends (k : Kernel) (e : Event) (i : Slot) : Prop :=
  i = k.current ∧ (exits k e = true ∨ Terminates k e) ∨ killTarget k e = some i

instance (k : Kernel) (e : Event) (i : Slot) : Decidable (Ends k e i) :=
  inferInstanceAs (Decidable (_ ∨ _))

/-- The owner of a pending command lives. -/
def System.OwnerLives (st : System) : Prop := Busy st.net → ProcessLives st.net.openOwner st.kernel

instance (st : System) : Decidable st.OwnerLives := inferInstanceAs (Decidable (_ → _))

/-- The step does not end the owner of a pending command, and no zombie writes. -/
structure System.Spares (st : System) (inp : Input) : Prop where
  owner : Busy st.net → ∀ i, Ends st.kernel inp.event i →
    BitVec.ofInt 32 (st.kernel.tasks i).pid ≠ st.net.openOwner
  writer : ∀ fd bufNull data result, st.dispatched inp = some (.write fd bufNull data result) →
    st.kernel.cur.zombie = false

/-- The call writes. -/
def writes : Call → Bool
  | .write _ _ _ _ => true
  | _ => false

instance (st : System) (inp : Input) : Decidable (st.Spares inp) :=
  decidable_of_iff ((Busy st.net → ∀ i, Ends st.kernel inp.event i →
      BitVec.ofInt 32 (st.kernel.tasks i).pid ≠ st.net.openOwner) ∧
      ∀ c ∈ st.dispatched inp, writes c = true → st.kernel.cur.zombie = false) <| by
    constructor
    · rintro ⟨howner, hwriter⟩
      exact ⟨howner, fun fd bufNull data result hc => hwriter _ hc rfl⟩
    · intro h
      refine ⟨h.owner, fun c hc hw => ?_⟩
      cases c with
      | write fd bufNull data result => exact h.writer fd bufNull data result hc
      | _ => cases hw

/-- The policy under which a process does not end. -/
def sparing (owner : BitVec 32) : Policy :=
  { Policy.any with
    exit := fun t => BitVec.ofInt 32 t.pid ≠ owner
    term := fun pid _ => BitVec.ofInt 32 pid ≠ owner
    kill := fun t => BitVec.ofInt 32 t.pid ≠ owner }

section Owner

variable {k k' : Kernel} {owner : BitVec 32} {st st' : System} {nic : Nic} {inp : Input}

/-- A move that spares a process leaves it alive. -/
theorem ProcessLives.move (hs : Sane k) (h : ProcessLives owner k) (hm : Move (sparing owner) k k') :
    ProcessLives owner k' := by
  obtain ⟨i, hlive, hz, hpid⟩ := h
  cases hm.life hs i with
  | kept hk hzombie =>
    exact ⟨i, fun hf => hlive (hk.free_iff.mp hf), hzombie.trans hz, by rw [hk.pid, hpid]⟩
  | died _ hend => rcases hend with hexit | hterm | hkill <;> contradiction
  | born hfree => exact absurd hfree hlive
  | reaped hzombie => exact absurd (hz.symm.trans hzombie) (by decide)

theorem ProcessLives.moves (hs : Sane k) (h : ProcessLives owner k) (hm : Moves (sparing owner) k k') :
    ProcessLives owner k' :=
  moves_invariant (fun _ _ hs h hm => h.move hs hm) hs h hm

/-- An event that does not end the process is allowed. -/
theorem allowed_sparing {e : Event}
    (h : ∀ i, Ends k e i → BitVec.ofInt 32 (k.tasks i).pid ≠ owner) :
    Allowed (sparing owner) k e :=
  { allowed_any k e with
    exit := fun hx => h k.current (Or.inl ⟨rfl, Or.inl hx⟩)
    term := fun hx => h k.current (Or.inl ⟨rfl, Or.inr hx⟩)
    kill := fun i hx => h i (Or.inr hx) }

theorem ProcessLives.step (hs : Sane k) (h : ProcessLives owner k) {e : Event}
    (hends : ∀ i, Ends k e i → BitVec.ofInt 32 (k.tasks i).pid ≠ owner)
    (he : Sys.step k e = some k') : ProcessLives owner k' :=
  h.moves hs (step_moves hs (allowed_sparing hends) he)

/-- The calls that the file system and `/dev/net` answer. -/
def usesFiles : Call → Bool
  | .openFile _ _ _ _ => true
  | .write _ _ _ _ => true
  | .read _ _ _ _ => true
  | _ => false

theorem goto_self {c : Cont} (h : k.cur.cont = c) : k.goto c = k := by
  subst h
  have hsame : ({ k.cur with cont := k.cur.cont } : Task) = k.cur := rfl
  show { k with tasks := Function.update k.tasks k.current k.cur } = k
  rw [Kernel.cur, Function.update_eq_self]

theorem System.usesFiles_answer (st : System) (nic : Nic) (inp : Input) {c : Call}
    (hio : usesFiles c = true) : usesFiles (st.answer nic inp c).1 = true := by
  cases c with
  | openFile pathNull node append size =>
    cases pathNull with
    | true => rfl
    | false =>
      rw [answer]
      obtain ⟨found, vfs⟩ := sysOpenNode st.live st.vfs inp.path inp.create
      cases found with
      | none => rfl
      | some p => rfl
  | write fd bufNull data result =>
    cases bufNull with
    | true => rfl
    | false =>
      rw [answer]
      split
      · rfl
      · cases st.writeTarget fd with
        | file => rfl
        | net => rfl
        | other => rfl
  | read fd bufNull count result =>
    cases bufNull with
    | true => rfl
    | false =>
      rw [answer]
      cases st.readTarget fd with
      | file => rfl
      | net => rfl
      | other => rfl
  | _ => cases hio

/-- What a step prepares: nothing, or a call of input and output. -/
theorem System.prepare_cases (st : System) (nic : Nic) (inp : Input) :
    st.prepare nic inp = st ∨ ∃ c c', st.dispatched inp = some c ∧
      usesFiles c = true ∧ usesFiles c' = true ∧
      (st.prepare nic inp).kernel = st.kernel.goto (.dispatch c') := by
  cases hc : st.dispatched inp with
  | none => exact Or.inl (prepare_none hc)
  | some c =>
    rw [prepare_some hc]
    cases hio : usesFiles c with
    | true =>
      exact Or.inr ⟨c, (st.answer nic inp c).1, rfl, hio, st.usesFiles_answer nic inp hio, rfl⟩
    | false =>
      have hanswer : st.answer nic inp c = (c, st.vfs, st.net) := by
        cases c with
        | openFile => cases hio
        | write => cases hio
        | read => cases hio
        | _ => rfl
      left
      rw [hanswer, goto_self (dispatched_some hc).2]

/-- A call of input and output ends no task. -/
theorem not_ends_of_usesFiles {c : Call} (hio : usesFiles c = true) (i : Slot) :
    ¬ Ends (k.goto (.dispatch c)) .resume i := by
  have hcont : (k.goto (.dispatch c)).cur.cont = .dispatch c := goto_cont _
  rintro (⟨-, hexit | hterm⟩ | hkill)
  · simp only [exits, hcont] at hexit
    cases c <;> contradiction
  · simp only [Terminates, hcont] at hterm
    cases c <;> contradiction
  · simp only [killTarget, hcont] at hkill
    cases c <;> contradiction

theorem ProcessLives.goto (h : ProcessLives owner k) (c : Cont) : ProcessLives owner (k.goto c) := by
  obtain ⟨i, hlive, hz, hpid⟩ := h
  have hsame : ((k.goto c).tasks i).state = (k.tasks i).state ∧
      ((k.goto c).tasks i).zombie = (k.tasks i).zombie ∧
      ((k.goto c).tasks i).pid = (k.tasks i).pid := by
    by_cases hi : i = k.current
    · subst hi
      rw [show (k.goto c).tasks k.current = { k.cur with cont := c } from Function.update_self ..]
      exact ⟨rfl, rfl, rfl⟩
    · rw [show (k.goto c).tasks i = k.tasks i from Function.update_of_ne hi ..]
      exact ⟨rfl, rfl, rfl⟩
  exact ⟨i, hsame.1 ▸ hlive, hsame.2.1.trans hz, by rw [hsame.2.2, hpid]⟩

theorem netdevWrite_cases (nic : Nic) (pid : BitVec 32) (buf : List UInt8) (net : NetState) :
    (netdevWrite nic pid buf net).2 = net ∨ (netdevWrite nic pid buf net).2.openOwner = pid := by
  rw [netdevWrite]
  split
  · exact Or.inl rfl
  · split
    · exact Or.inl rfl
    · split
      · exact Or.inl rfl
      · cases parseCommand buf with
        | none => exact Or.inl rfl
        | some c =>
          dsimp only
          split
          · exact Or.inl rfl
          · cases c with
            | status => exact Or.inr rfl
            | ping => exact Or.inr rfl

theorem not_busy_of_ne {net : NetState} (h : net.resultState ≠ .pending) : ¬ Busy net :=
  fun hbusy => h hbusy.1

theorem netdevRead_cases (nic : Nic) (pid : BitVec 32) (n : Nat) (outcome : PingOutcome)
    (net : NetState) : (netdevRead nic pid n outcome net).2.2 = net ∨
      ¬ Busy (netdevRead nic pid n outcome net).2.2 := by
  rw [netdevRead]
  split
  · exact Or.inl rfl
  · split
    · exact Or.inl rfl
    · split
      · exact Or.inl rfl
      · split
        · next hready =>
          dsimp only
          split
          · exact Or.inr (not_busy_of_ne (show ResState.none ≠ .pending by decide))
          · refine Or.inr (not_busy_of_ne ?_)
            show net.resultState ≠ .pending
            rw [hready]
            decide
        · split
          · exact Or.inl rfl
          · exact Or.inr (not_busy_of_ne (show ResState.ready ≠ .pending by decide))

/-- A command is pending after the preparation of a step if it was before, or if the
current task writes it. -/
theorem System.prepare_net (st : System) (nic : Nic) (inp : Input) :
    (st.prepare nic inp).net = st.net ∨ ¬ Busy (st.prepare nic inp).net ∨
      (st.prepare nic inp).net.openOwner = st.caller ∧
        ∃ fd bufNull data result, st.dispatched inp = some (.write fd bufNull data result) := by
  cases hc : st.dispatched inp with
  | none =>
    rw [prepare_none hc]
    exact Or.inl rfl
  | some c =>
    rw [prepare_some hc]
    dsimp only
    cases c with
    | openFile pathNull node append size =>
      left
      cases pathNull with
      | true => rfl
      | false =>
        rw [answer]
        obtain ⟨found, vfs⟩ := sysOpenNode st.live st.vfs inp.path inp.create
        cases found with
        | none => rfl
        | some p => rfl
    | write fd bufNull data result =>
      cases bufNull with
      | true => exact Or.inl rfl
      | false =>
        rw [answer]
        split
        · exact Or.inl rfl
        · cases st.writeTarget fd with
          | file => exact Or.inl rfl
          | other => exact Or.inl rfl
          | net =>
            rcases netdevWrite_cases nic st.caller data st.net with hsame | howner
            · exact Or.inl hsame
            · exact Or.inr (Or.inr ⟨howner, fd, false, data, result, rfl⟩)
    | read fd bufNull count result =>
      cases bufNull with
      | true => exact Or.inl rfl
      | false =>
        rw [answer]
        cases st.readTarget fd with
        | file => exact Or.inl rfl
        | other => exact Or.inl rfl
        | net =>
          rcases netdevRead_cases nic st.caller count.toNat inp.outcome st.net with h | h
          · exact Or.inl h
          · exact Or.inr (Or.inl h)
    | _ => exact Or.inl rfl

/-- Preparing a call keeps the task table in order. -/
theorem System.prepare_sane (hs : Sane st.kernel) (nic : Nic) (inp : Input) :
    Sane (st.prepare nic inp).kernel := by
  rcases st.prepare_cases nic inp with hsame | ⟨c, c', hc, -, -, hk⟩
  · rwa [hsame]
  · rw [hk]
    have hcur : st.kernel.current ≠ 0 := by
      apply hs.current_ne_zero
      rw [(dispatched_some hc).2]
      exact fun h => h.elim nofun nofun
    exact hs.moves (goto_moves (P := Policy.any) ⟨hcur, trivial⟩ rfl)

/-- One step keeps the owner of a pending command alive. -/
theorem System.OwnerLives_step (hs : Sane st.kernel) (h : st.OwnerLives) (hspare : st.Spares inp)
    (hstep : st.step nic inp = some st') : st'.OwnerLives := by
  obtain ⟨hk, -, hnet⟩ := step_eq_some hstep
  intro hbusy
  rw [hnet] at hbusy ⊢
  -- The owner is there when the call is dispatched, and the step spares it.
  have halive : ProcessLives (st.prepare nic inp).net.openOwner st.kernel := by
    rcases st.prepare_net nic inp with hsame | hidle | ⟨howner, fd, bufNull, data, result, hc⟩
    · rw [hsame] at hbusy ⊢
      exact h hbusy
    · exact absurd hbusy hidle
    · rw [howner]
      exact ⟨st.kernel.current, hs.cur_live, hspare.writer fd bufNull data result hc, rfl⟩
  rcases st.prepare_cases nic inp with hsame | ⟨c, c', hc, -, hio, hkernel⟩
  · rw [hsame] at hk hbusy halive ⊢
    exact halive.step hs (hspare.owner hbusy) hk
  · have hsane := prepare_sane hs nic inp
    rw [(dispatched_some hc).1] at hk
    rw [hkernel] at hk hsane
    exact (halive.goto _).step hsane (fun i hends => absurd hends (not_ends_of_usesFiles hio i)) hk

theorem System.step_sane (hs : Sane st.kernel) (hstep : st.step nic inp = some st') :
    Sane st'.kernel :=
  (prepare_sane hs nic inp).step (step_eq_some hstep).1

end Owner

/-- In every run from boot that spares the owners of pending commands, the process recorded
as the owner of a pending command is a live task and no zombie. -/
theorem net_owner_lives {vm : Vm} {init rudod : Option FileData} {k₀ : Kernel}
    (hboot : boot vm init rudod = some k₀) (vfs : Vfs) (nic : Nic) {inps : List Input}
    {st : System}
    (hcond : Run.Along (System.step · nic) System.Spares ⟨k₀, vfs, netInit nic⟩ inps)
    (hrun : Run.run (System.step · nic) ⟨k₀, vfs, netInit nic⟩ inps = some st) :
    st.OwnerLives := by
  have hstart : Sane k₀ ∧ System.OwnerLives ⟨k₀, vfs, netInit nic⟩ :=
    ⟨(boot_started hboot).sane, fun hbusy => nomatch hbusy.1⟩
  have hinv : ∀ st inp st', Sane st.kernel ∧ System.OwnerLives st → System.Spares st inp →
      System.step st nic inp = some st' → Sane st'.kernel ∧ System.OwnerLives st' := by
    intro st inp st' h hspare hstep
    exact ⟨System.step_sane h.1 hstep, System.OwnerLives_step h.1 h.2 hspare hstep⟩
  exact (Run.invariant_along (I := fun st => Sane st.kernel ∧ System.OwnerLives st) hinv hstart
    hcond hrun).2

/-- A file system with the device `/dev/net`. -/
def netFs : Vfs := vfsMountDev (fun _ => false) (vfsInit (Vfs.blank fun _ => true)) (ascii "net")

/-- A process opens `/dev/net` and asks for the status. -/
def askStatus : List Input :=
  { event := .resume } :: callAt (ascii "/dev/net") (.openFile false none false 0) ++
    callAt [] (.write 3 false (ascii "status") 0)

theorem net_owner_lives_askStatus : ∃ k₀ st,
    boot smallVm (some smallProgram) (some smallProgram) = some k₀ ∧
    Run.run (System.step · smallNic) ⟨k₀, netFs, netInit smallNic⟩ askStatus = some st ∧
    Busy st.net ∧ st.OwnerLives := by
  have hrun : ∃ k₀, boot smallVm (some smallProgram) (some smallProgram) = some k₀ ∧
      Run.Along (System.step · smallNic) System.Spares ⟨k₀, netFs, netInit smallNic⟩ askStatus ∧
      ∃ st, Run.run (System.step · smallNic) ⟨k₀, netFs, netInit smallNic⟩ askStatus = some st ∧
        Busy st.net := by
    decide +kernel
  obtain ⟨k₀, hboot, hcond, st, hrun, hbusy⟩ := hrun
  exact ⟨k₀, st, hboot, hrun, hbusy, net_owner_lives hboot netFs smallNic hcond hrun⟩

/-- The process exits before it reads the answer: its command stays pending for ever. -/
theorem net_owner_exits : ∃ k₀, boot smallVm (some smallProgram) (some smallProgram) = some k₀ ∧
    ∃ st, Run.run (System.step · smallNic) ⟨k₀, netFs, netInit smallNic⟩
        (askStatus ++ callAt [] (.exit 0)) = some st ∧
      Busy st.net ∧ ¬ st.OwnerLives := by
  decide +kernel

end Mmix.Sys
