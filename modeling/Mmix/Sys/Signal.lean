import Mmix.Sys.Context
import Mmix.Mm.PageTable
import Mmix.Lib.Stack

/-!
# The signal frame and the way back

`deliver_signals` writes a frame onto the user stack: the interrupted `rip` and
`rsp`, and behind them the instructions that call `sys_sigreturn`. The handler
starts with its stack pointer at those instructions, so that they are what its
`ret` takes for the return address. Once control is at them nevertheless,
`syscall_entry` pushes the registers over the frame before `sys_sigreturn` reads
it.
-/

namespace Mmix.Sys

open Mm Fs Proc Kernel Stack

/-- The user registers that a system call reads; `rip` is the address of the
next instruction. -/
structure UserRegs where
  rip : Word
  rsp : Word
  rflags : Word
  rax : Word
  rcx : Word
  r11 : Word
  rdi : Word
  rsi : Word
  rdx : Word
  r10 : Word
  r8 : Word
  r9 : Word

/-- The `syscall` instruction. -/
def UserRegs.syscall (u : UserRegs) : UserRegs := { u with rcx := u.rip, r11 := u.rflags }

/-- The `ret` instruction. -/
def UserRegs.ret (u : UserRegs) (m : Memory) : UserRegs :=
  { u with rip := getWord m u.rsp, rsp := u.rsp + 8 }

/-- `syscall_entry` up to the switch of stacks: it pushes eight registers onto
the user stack and stores the user context. -/
def syscallEntry (u : UserRegs) (m : Memory) : UserCtx × Memory :=
  let m := pushAll [u.rcx, u.r11, u.rdi, u.rsi, u.rdx, u.r10, u.r8, u.r9] u.rsp m
  let rsp := u.rsp - 64
  (⟨u.rcx, rsp + 64, getWord m (rsp + 48)⟩, m)

/-- `SYS_SIGRETURN`. -/
def sysSigreturnNumber : Word := 12

/-- `sigret_code`: `mov eax, SYS_SIGRETURN` and `syscall`. -/
def sigretCode : List UInt8 := [0xB8, 0x0C, 0x00, 0x00, 0x00, 0x0F, 0x05]

/-- How `deliver_signals` ends. -/
inductive Delivery where
  | nothing
  | handler (frame : Word)
  | terminated
  deriving DecidableEq

/-- The signal frame in user memory. -/
def putFrame (m : Memory) (frame : Word) (saved : UserCtx) : Memory :=
  let m := putWord m (frame + 0) saved.rip
  let m := putWord m (frame + 8) saved.rsp
  putBytes m (frame + 16) sigretCode

/-- `deliver_signals` with the user memory that it writes. -/
def deliverFrames : Nat → Kernel → Memory → Delivery × Kernel × Memory
  | 0, k, m => (.nothing, k, m)
  | fuel + 1, k, m =>
    match lowestSig k.cur.sigPending with
    | none => (.nothing, k, m)
    | some sig =>
      let handler := k.cur.sigHandler sig
      if handler = sigIgn then deliverFrames fuel (k.modCur fun t => clearSig t sig) m
      else if handler = sigDfl then
        if fatalSig sig then (.terminated, terminateCurrent k sig, m)
        else deliverFrames fuel (k.modCur fun t => clearSig t sig) m
      else
        let frame := (k.cpu.rsp - 64) &&& ~~~0xF
        let m := putFrame m frame k.cpu
        let k := k.modCur fun t => clearSig t sig
        (.handler frame, { k with cpu := { k.cpu with rip := handler, rsp := frame + 16 } }, m)

/-- `syscall_handler` up to the preemption point. -/
def handlerEntry (k : Kernel) (m : Memory) : Delivery × Kernel × Memory :=
  if k.cur.sigPending = 0 then (.nothing, k, m) else deliverFrames 33 k m

/-- The `syscall` instruction of the current task, up to the preemption point. -/
def syscallTrap (k : Kernel) (u : UserRegs) (m : Memory) : Delivery × Kernel × Memory :=
  let entry := syscallEntry u.syscall m
  handlerEntry { k with cpu := entry.1, intr := false } entry.2

/-- `sys_sigreturn` with the user memory that it reads. -/
def sigreturnFrom (k : Kernel) (m : Memory) : Kernel :=
  sysSigreturn k (getWord m (k.cpu.rsp - 16)) (getWord m (k.cpu.rsp - 8))

/-- Execute the trampoline at `rip`. There is no result when other bytes are
found there or the task is terminated on the way. -/
def runTrampoline (k : Kernel) (u : UserRegs) (m : Memory) : Option Kernel :=
  if getBytes m u.rip sigretCode.length = sigretCode then
    match syscallTrap k { u with rax := sysSigreturnNumber, rip := u.rip + 7 } m with
    | (.terminated, _, _) => none
    | (_, k, m) => some (sigreturnFrom k m)
  else none

section Delivering

/-- The frames are written beside what the machine does. -/
theorem deliverLoop_eq_frames (fuel : Nat) (k : Kernel) (m : Memory) :
    deliverLoop fuel k =
      ((deliverFrames fuel k m).1 != .terminated, (deliverFrames fuel k m).2.1) := by
  induction fuel generalizing k with
  | zero => rfl
  | succ fuel ih =>
    unfold deliverLoop deliverFrames
    cases lowestSig k.cur.sigPending with
    | none => rfl
    | some sig =>
      dsimp only
      split
      · exact ih _
      · split
        · split
          · rfl
          · exact ih _
        · rfl

/-- The machine takes a system call up to the same point. -/
theorem syscallEnter_eq_entry (k : Kernel) (m : Memory) (c : Call) :
    syscallEnter k c =
      if (handlerEntry k m).1 = .terminated then (handlerEntry k m).2.1
      else preempt (handlerEntry k m).2.1 (.dispatch c) := by
  unfold syscallEnter handlerEntry
  by_cases hs : k.cur.sigPending = 0
  · rw [if_pos hs, if_pos hs]
    exact (if_neg nofun).symm
  · rw [if_neg hs, if_neg hs, deliverSignals, deliverLoop_eq_frames 33 k m]
    by_cases ht : (deliverFrames 33 k m).1 = .terminated
    · simp only [ht, bne_self_eq_false, if_true]
    · have hgo : ((deliverFrames 33 k m).1 != .terminated) = true := by simpa using ht
      simp only [hgo, if_neg ht]

/-- What `deliver_signals` does to the context and to user memory. -/
def Delivers (c : UserCtx) (m : Memory) : Delivery × Kernel × Memory → Prop
  | (.nothing, k', m') => k'.cpu = c ∧ m' = m
  | (.handler frame, k', m') =>
    frame = ((c.rsp - 64) &&& ~~~0xF) ∧ k'.cpu.rsp = frame + 16 ∧ m' = putFrame m frame c
  | (.terminated, _, _) => True

theorem deliverFrames_delivers (fuel : Nat) (k : Kernel) (m : Memory) :
    Delivers k.cpu m (deliverFrames fuel k m) := by
  induction fuel generalizing k with
  | zero => exact ⟨rfl, rfl⟩
  | succ fuel ih =>
    unfold deliverFrames
    cases lowestSig k.cur.sigPending with
    | none => exact ⟨rfl, rfl⟩
    | some sig =>
      dsimp only
      split
      · exact ih (k.modCur fun t => clearSig t sig)
      · split
        · split
          · trivial
          · exact ih (k.modCur fun t => clearSig t sig)
        · exact ⟨rfl, rfl, rfl⟩

theorem handlerEntry_delivers (k : Kernel) (m : Memory) :
    Delivers k.cpu m (handlerEntry k m) := by
  unfold handlerEntry
  split
  · exact ⟨rfl, rfl⟩
  · exact deliverFrames_delivers 33 k m

end Delivering

section Entry

/-- The context that `syscall_entry` stores. -/
theorem syscallEntry_ctx (u : UserRegs) (m : Memory) :
    (syscallEntry u m).1 = ⟨u.rcx, u.rsp, u.r11⟩ := by
  have hflags : u.rsp - 64 + 48 = u.rsp - BitVec.ofNat 64 (8 * (1 + 1)) := by bv_omega
  rw [syscallEntry]
  dsimp only
  rw [BitVec.sub_add_cancel, hflags, getWord_pushAll (Nat.le_of_ble_eq_true rfl) rfl]

/-- The return address lies right below the user stack. -/
theorem syscallEntry_rcx (u : UserRegs) (m : Memory) :
    getWord (syscallEntry u m).2 (u.rsp - 8) = u.rcx :=
  getWord_pushAll (i := 0) (Nat.le_of_ble_eq_true rfl) rfl

theorem syscallTrap_delivers (k : Kernel) (u : UserRegs) (m : Memory) :
    Delivers ⟨u.rip, u.rsp, u.rflags⟩ (syscallEntry u.syscall m).2 (syscallTrap k u m) := by
  have hctx : (syscallEntry u.syscall m).1 = ⟨u.rip, u.rsp, u.rflags⟩ := syscallEntry_ctx _ m
  rw [← hctx]
  exact handlerEntry_delivers { k with cpu := (syscallEntry u.syscall m).1, intr := false } _

end Entry

section Frames

theorem getWord_frame_rsp (m : Memory) (frame : Word) (c : UserCtx) :
    getWord (putFrame m frame c) (frame + 8) = c.rsp := by
  have hcode : (frame + 8 - (frame + 16)).toNat = 2 ^ 64 - 8 := by bv_omega
  rw [putFrame, getWord_putBytes_of_le (by rw [hcode]; decide) (by rw [hcode]; decide)]
  exact getWord_putWord _ _ _

theorem getBytes_frame_code (m : Memory) (frame : Word) (c : UserCtx) :
    getBytes (putFrame m frame c) (frame + 16) sigretCode.length = sigretCode :=
  getBytes_putBytes (by decide)

/-- The frame lies well below the stack pointer that it saves. -/
theorem frame_below {rsp frame : Word} (h : frame = ((rsp - 64) &&& ~~~0xF)) {d : Nat}
    (hd : d < 64) : frame + BitVec.ofNat 64 d ≠ rsp := by
  have hframe : frame.toNat = (rsp - 64).toNat / 16 * 16 := by rw [h, toNat_and_not_15]
  intro heq
  have hrsp : rsp - 64 = frame - BitVec.ofNat 64 (64 - d) := by
    rw [← heq]
    bv_omega
  rw [hrsp] at hframe
  bv_omega

end Frames

section Return

variable {k k' : Kernel} {u : UserRegs} {m : Memory} {frame : Word}

/-- After the trampoline the stack pointer is the address behind the trampoline,
or the trampoline's own when another signal was delivered at its call. -/
theorem runTrampoline_rsp (h : runTrampoline k u m = some k') :
    k'.cpu.rsp = u.rip + 7 ∨ k'.cpu.rsp = u.rsp := by
  have hcases := syscallTrap_delivers k
    { u with rax := sysSigreturnNumber, rip := u.rip + 7 } m
  unfold runTrampoline at h
  split at h
  · cases hd : syscallTrap k { u with rax := sysSigreturnNumber, rip := u.rip + 7 } m with
    | mk d rest =>
      obtain ⟨k₁, m₁⟩ := rest
      rw [hd] at h hcases
      cases d with
      | terminated => cases h
      | nothing =>
        obtain ⟨hcpu, hmem⟩ := hcases
        cases h
        left
        change getWord m₁ (k₁.cpu.rsp - 8) = u.rip + 7
        rw [hcpu, hmem]
        exact syscallEntry_rcx (UserRegs.syscall { u with
          rax := sysSigreturnNumber, rip := u.rip + 7 }) m
      | handler f =>
        obtain ⟨-, hcpu, hmem⟩ := hcases
        cases h
        right
        change getWord m₁ (k₁.cpu.rsp - 8) = u.rsp
        have hslot : f + 16 - 8 = f + 8 := by bv_omega
        rw [hcpu, hmem, hslot]
        exact getWord_frame_rsp _ f _
  · cases h

theorem code_of_runTrampoline (h : runTrampoline k u m = some k') :
    getBytes m u.rip sigretCode.length = sigretCode := by
  unfold runTrampoline at h
  split at h
  next hcode => exact hcode
  next => cases h

/-- The first bytes of the trampoline are no address of the trampoline. -/
theorem getWord_code_ne {frame rsp : Word} (hframe : frame = ((rsp - 64) &&& ~~~0xF))
    (hcode : getBytes m (frame + 16) sigretCode.length = sigretCode) :
    getWord m (frame + 16) ≠ frame + 16 := by
  have hfirst : m (frame + 16) = 0xB8 := by
    have h0 := congrArg (fun l => l[0]?) hcode
    simpa [getBytes, sigretCode] using h0
  have halign : frame.toNat = (rsp - 64).toNat / 16 * 16 := by rw [hframe, toNat_and_not_15]
  have hlow : (getWord m (frame + 16)).toNat % 256 = 0xB8 := by
    rw [getWord_mod, hfirst]
    rfl
  intro heq
  rw [heq] at hlow
  bv_omega

/-- The moment of the handler's `ret`: the registers and the user memory, and the
kernel that the trampoline will call. -/
structure AtRet where
  regs : UserRegs
  mem : Memory
  kernel : Kernel

/-- The handler returns with the stack pointer with which it was entered, and
control runs the trampoline. -/
structure HandlerReturns (k : Kernel) (u : UserRegs) (m : Memory) (frame : Word) (x : AtRet)
    (k' : Kernel) : Prop where
  balanced : x.regs.rsp = (syscallTrap k u m).2.1.cpu.rsp
  trampoline : runTrampoline x.kernel { x.regs.ret x.mem with rip := frame + 16 } x.mem = some k'

/-- User mode goes on behind the interrupted system call, with its value. -/
structure Resumes (u : UserRegs) (value : Int) (k' : Kernel) : Prop where
  rip : k'.cpu.rip = u.rip
  rsp : k'.cpu.rsp = u.rsp
  rax : k'.cur.rax = value

theorem syscallTrap_handler (h : (syscallTrap k u m).1 = .handler frame) :
    frame = ((u.rsp - 64) &&& ~~~0xF) ∧ (syscallTrap k u m).2.1.cpu.rsp = frame + 16 ∧
      getBytes (syscallTrap k u m).2.2 (frame + 16) sigretCode.length = sigretCode := by
  have hd := syscallTrap_delivers k u m
  generalize syscallTrap k u m = r at h hd
  obtain ⟨d, k₁, m₁⟩ := r
  cases h
  obtain ⟨hframe, hcpu, hmem⟩ := hd
  refine ⟨hframe, hcpu, ?_⟩
  change getBytes m₁ (frame + 16) sigretCode.length = sigretCode
  rw [hmem]
  exact getBytes_frame_code _ frame _

theorem runTrampoline_quiet (hquiet : k.cur.sigPending = 0)
    (hcode : getBytes m u.rip sigretCode.length = sigretCode) :
    ∃ k', runTrampoline k u m = some k' := by
  have htrap (v : UserRegs) : syscallTrap k v m =
      (.nothing, { k with cpu := (syscallEntry v.syscall m).1, intr := false },
        (syscallEntry v.syscall m).2) :=
    if_pos hquiet
  unfold runTrampoline
  rw [if_pos hcode, htrap]
  exact ⟨_, rfl⟩

/-- A handler that returns at once gets to the trampoline's call. -/
theorem exists_returns (h : (syscallTrap k u m).1 = .handler frame) :
    ∃ x k', HandlerReturns k u m frame x k' := by
  obtain ⟨-, hcpu, hcode⟩ := syscallTrap_handler h
  have hquiet : (k.modCur fun t => { t with sigPending := 0 }).cur.sigPending = 0 :=
    congrArg Task.sigPending (modCur_cur fun t => { t with sigPending := 0 })
  let atRet : UserRegs := { u with rsp := frame + 16 }
  obtain ⟨k', hk'⟩ := runTrampoline_quiet hquiet
    (u := { atRet.ret (syscallTrap k u m).2.2 with rip := frame + 16 }) hcode
  exact ⟨⟨atRet, _, _⟩, k', hcpu.symm, hk'⟩

/-- Whenever a handler is entered at a system call, it may return to the
trampoline, and in no case does it get there by its own `ret`, nor does the
interrupted program go on where it was. -/
theorem signal_never_transparent (h : (syscallTrap k u m).1 = .handler frame) :
    (∃ x k', HandlerReturns k u m frame x k') ∧
      ∀ x k', HandlerReturns k u m frame x k' →
        (x.regs.ret x.mem).rip ≠ frame + 16 ∧ ∀ value, ¬ Resumes u value k' := by
  obtain ⟨hframe, hcpu, -⟩ := syscallTrap_handler h
  refine ⟨exists_returns h, fun x k' hx => ?_⟩
  have hbal : x.regs.rsp = frame + 16 := hx.balanced.trans hcpu
  constructor
  · have hcode := code_of_runTrampoline hx.trampoline
    change getWord x.mem x.regs.rsp ≠ frame + 16
    rw [hbal]
    exact getWord_code_ne hframe hcode
  · intro value hres
    cases runTrampoline_rsp hx.trampoline with
    | inl hbehind =>
      have heq : frame + 16 + 7 = u.rsp := hbehind.symm.trans hres.rsp
      rw [BitVec.add_assoc] at heq
      exact frame_below (d := 23) hframe (by decide) heq
    | inr hown =>
      have heq : x.regs.rsp + 8 = u.rsp := hown.symm.trans hres.rsp
      rw [hbal, BitVec.add_assoc] at heq
      exact frame_below (d := 24) hframe (by decide) heq

/-- A task that has a handler for `SIGINT`, which is pending. -/
def handling : Kernel where
  vm := smallVm
  tasks := fun _ => { Task.zero with sigPending := 4, sigHandler := fun _ => 0x401000 }
  current := 1
  nextPid := 2
  initPid := 1
  pipes := fun _ => none
  cpu := ⟨0, 0, 0⟩
  intr := true
  resched := false
  fgPgid := 1
  kbBuf := []
  rudo := ⟨0, 0, false, 0⟩
  rudoFault := 0

/-- The registers at a `getpid` in the program at `0x400000`. -/
def atGetpid : UserRegs where
  rip := 0x400107
  rsp := 0x7000
  rflags := 0x202
  rax := 5
  rcx := 0
  r11 := 0
  rdi := 0
  rsi := 0
  rdx := 0
  r10 := 0
  r8 := 0
  r9 := 0

theorem signal_never_transparent_getpid :
    (syscallTrap handling atGetpid fun _ => 0).1 = .handler 0x6FC0 ∧
      ∀ x k', HandlerReturns handling atGetpid (fun _ => 0) 0x6FC0 x k' →
        ∀ value, ¬ Resumes atGetpid value k' :=
  have h : (syscallTrap handling atGetpid fun _ => 0).1 = .handler 0x6FC0 := by decide +kernel
  ⟨h, fun x k' hx => ((signal_never_transparent h).2 x k' hx).2⟩

/-- A handler that returns at once, when no further signal is pending. -/
def atOnce : AtRet where
  regs := { atGetpid with rip := 0x401000, rsp := 0x6FD0 }
  mem := (syscallTrap handling atGetpid fun _ => 0).2.2
  kernel := handling.modCur fun t => { t with sigPending := 0 }

/-- The program goes on at its flags, on a stack inside the trampoline. -/
theorem signal_resumes_elsewhere :
    ¬ ∀ k u m frame x k' value, (syscallTrap k u m).1 = .handler frame →
      HandlerReturns k u m frame x k' → Resumes u value k' := by
  intro hall
  have hentered : (syscallTrap handling atGetpid fun _ => 0).1 = .handler 0x6FC0 := by
    decide +kernel
  have hrsp : (syscallTrap handling atGetpid fun _ => 0).2.1.cpu.rsp = 0x6FD0 := by
    decide +kernel
  have hrun : (runTrampoline atOnce.kernel
      { atOnce.regs.ret atOnce.mem with rip := 0x6FD0 } atOnce.mem).map
        (fun k => (k.cpu.rip, k.cpu.rsp)) = some (0x202, 0x6FD7) := by
    decide +kernel
  obtain ⟨k', hk', hctx⟩ := Option.map_eq_some_iff.mp hrun
  have hres := hall handling atGetpid _ 0x6FC0 atOnce k' 0 hentered ⟨hrsp.symm, hk'⟩
  have hwrong : k'.cpu.rsp = 0x6FD7 := congrArg Prod.snd hctx
  rw [hres.rsp] at hwrong
  exact absurd hwrong (by decide)

end Return

end Mmix.Sys
