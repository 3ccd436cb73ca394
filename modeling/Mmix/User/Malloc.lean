import Mmix.Sys.Boot

/-!
# `malloc` of the C library

The allocator of `libc.c` moves a pointer through pages that it obtains from
the kernel. `raw_syscall1` passes its argument in the register of the first
parameter of a system call, while the length is the second parameter of
`sys_mmap`, so that the kernel is asked for no page at all.
-/

namespace Mmix.User

open Mm Proc Sys

/-- The registers of a system call. -/
structure SyscallRegs where
  rax : Word
  rdi : Word
  rsi : Word
  rdx : Word
  r10 : Word
  r8 : Word
  r9 : Word

/-- `SYS_MMAP`. -/
def sysMmapNumber : Word := 14

/-- `raw_syscall3`, in front of the `syscall` instruction. The registers of the
other parameters are what they were. -/
def rawSyscall3 (n a b c : Word) (before : SyscallRegs) : SyscallRegs :=
  { before with rax := n, rdi := a, rsi := b, rdx := c }

/-- `raw_syscall1`. -/
def rawSyscall1 (n a : Word) (before : SyscallRegs) : SyscallRegs := rawSyscall3 n a 0 0 before

/-- `syscall_entry` hands the registers to `syscall_handler` as `a1` to `a6`,
and `sys_mmap` takes its length from `a2`. -/
def mmapEntry (k : Kernel) (r : SyscallRegs) : Kernel := sysMmap k r.rsi

/-- The static variables of the allocator. -/
structure Libc where
  mpBase : Word
  mpPtr : Word
  mpEnd : Word

/-- The library of a program that has just been loaded. -/
def Libc.fresh : Libc := ⟨0, 0, 0⟩

/-- `malloc`, with 0 for `NULL`. -/
def malloc (before : SyscallRegs) (lib : Libc) (k : Kernel) (n : Word) : Word × Libc × Kernel :=
  let n := (n + 15) &&& ~~~15
  let n := if n = 0 then 16 else n
  if lib.mpEnd < lib.mpPtr + n then
    let need := (n + 4095) &&& ~~~4095
    let k := mmapEntry k (rawSyscall1 sysMmapNumber need before)
    let p := k.cur.rax
    if p < 0 then (0, lib, k)
    else
      let base : Word := BitVec.ofInt 64 p
      (base, ⟨base, base + n, base + need⟩, k)
  else (lib.mpPtr, { lib with mpPtr := lib.mpPtr + n }, k)

/-- The results of a sequence of calls, and the kernel after them. -/
def mallocs (before : SyscallRegs) : Libc → Kernel → List Word → List Word × Kernel
  | _, k, [] => ([], k)
  | lib, k, n :: ns =>
    match malloc before lib k n with
    | (p, lib, k) =>
      match mallocs before lib k ns with
      | (ps, k) => (p :: ps, k)

/-- Every call returns an aligned pointer to bytes that are mapped and belong to
no other result. -/
structure Works (ns : List Word) (results : List Word × Kernel) : Prop where
  some : ∀ p ∈ results.1, p ≠ 0
  aligned : ∀ p ∈ results.1, p.toNat % 16 = 0
  mapped : ∀ b ∈ results.1.zip ns, ∀ i < b.2.toNat,
    pmapResolve results.2.vm results.2.cur.pml4Phys (b.1 + BitVec.ofNat 64 i) ≠ 0
  disjoint : (results.1.zip ns).Pairwise fun b b' => ∀ i < b.2.toNat, ∀ j < b'.2.toNat,
    b.1 + BitVec.ofNat 64 i ≠ b'.1 + BitVec.ofNat 64 j

variable (before : SyscallRegs) (k : Kernel)

/-- The kernel refuses the request, whatever its length. -/
theorem mmapEntry_rawSyscall1 (n need : Word) :
    mmapEntry k (rawSyscall1 n need before) = k.finish (-1) := by
  rw [mmapEntry, sysMmap]
  exact if_pos rfl

/-- A fresh library asks the kernel for memory and stays fresh. -/
theorem malloc_fresh (n : Word) :
    malloc before .fresh k n = (0, .fresh, k.finish (-1)) := by
  have hpos : Libc.fresh.mpEnd < Libc.fresh.mpPtr +
      if (n + 15) &&& ~~~15 = 0 then 16 else (n + 15) &&& ~~~15 := by
    split
    · decide
    case isFalse h =>
      have hzero : Libc.fresh.mpPtr + ((n + 15) &&& ~~~15) = (n + 15) &&& ~~~15 :=
        BitVec.zero_add _
      rw [hzero]
      exact BitVec.lt_def.mpr (Nat.pos_of_ne_zero fun h0 => h (BitVec.eq_of_toNat_eq h0))
  rw [malloc]
  dsimp only
  rw [if_pos hpos, mmapEntry_rawSyscall1, finish_rax]
  rfl

/-- No call of a program ever returns memory. -/
theorem mallocs_fresh (ns : List Word) :
    (mallocs before .fresh k ns).1 = List.replicate ns.length 0 := by
  induction ns generalizing k with
  | nil => rfl
  | cons n ns ih =>
    rw [mallocs, malloc_fresh]
    exact congrArg (List.cons 0) (ih _)

/-- There is no sequence of requests, in no state of the kernel, that `malloc`
serves: every call returns `NULL`. -/
theorem malloc_never_works (n : Word) (ns : List Word) :
    ¬ Works (n :: ns) (mallocs before .fresh k (n :: ns)) ∧
      ∀ p ∈ (mallocs before .fresh k (n :: ns)).1, p = 0 := by
  rw [mallocs_fresh]
  have hall : ∀ p ∈ List.replicate (n :: ns).length (0 : Word), p = 0 :=
    fun _ hp => List.eq_of_mem_replicate hp
  refine ⟨fun hworks => ?_, hall⟩
  have hsome := hworks.some
  rw [mallocs_fresh] at hsome
  exact hsome 0 List.mem_cons_self rfl

/-- The first process of the booted machine asks for 16 bytes. -/
theorem malloc_fails_after_boot : ∃ k,
    boot smallVm (some smallProgram) (some smallProgram) = some k ∧
      ¬ Works [16] (mallocs ⟨0, 0, 0, 0, 0, 0, 0⟩ .fresh k [16]) := by
  have hboot : (boot smallVm (some smallProgram) (some smallProgram)).isSome := by decide +kernel
  obtain ⟨k, hk⟩ := Option.isSome_iff_exists.mp hboot
  refine ⟨k, hk, fun hworks => ?_⟩
  have hsome := hworks.some
  rw [mallocs_fresh] at hsome
  exact hsome 0 List.mem_cons_self rfl

end Mmix.User
