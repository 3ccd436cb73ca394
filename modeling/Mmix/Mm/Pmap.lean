import Mmix.Lib.Forest
import Mmix.Mm.Pmm

/-!
# Page tables

The functions of `pmap.c` over physical memory. The higher-half direct map
makes every frame addressable, so a pointer into it is represented by the
frame and the word index it denotes. A frame holds 512 words of 64 bits.
-/

namespace Mmix.Mm

abbrev Word := BitVec 64

/-- The index of a word in a frame, and of an entry in a table. -/
abbrev Idx := Fin 512

abbrev PhysMem := Nat → Idx → Word

/-- `PTE_PRESENT`. -/
def ptePresent : Word := 0x001

/-- `PTE_WRITE`. -/
def pteWrite : Word := 0x002

/-- `PTE_USER`. -/
def pteUser : Word := 0x004

/-- `PTE_NOCACHE`. -/
def pteNocache : Word := 0x010

/-- `PTE_COW`. -/
def pteCow : Word := 0x200

/-- `PTE_ADDR_MASK`. -/
def pteAddrMask : Word := 0x000FFFFFFFFFF000

/-- The memory state of the kernel: the frame allocator, the contents of
physical memory, the frame reference counts of `pmap.c` (`refsPages` is zero
while `refs` is null), and the page-table base registers. The page frames of
usable RAM are those of the boot memory map. -/
structure Vm where
  pmm : Pmm
  mem : PhysMem
  refs : Nat → BitVec 32
  refsPages : Nat
  cr3 : Word
  kernelPml4 : Word
  usable : Nat → Bool

/-- The frame that contains a physical address. -/
def frameOf (phys : Word) : Nat := phys.toNat / pageSize

/-- The physical address of a frame. -/
def physOf (page : Nat) : Word := BitVec.ofNat 64 (page * pageSize)

/-- The frame a table entry points to. -/
def target (entry : Word) : Nat := frameOf (entry &&& pteAddrMask)

/-- A present entry points to its target frame. -/
def child (entry : Word) : Option Nat :=
  if entry &&& ptePresent = 0 then none else some (target entry)

namespace Vm

/-- Store one word of a frame. -/
def setEntry (s : Vm) (table : Nat) (i : Idx) (entry : Word) : Vm :=
  { s with mem := Forest.setCell s.mem table i entry }

/-- Replace the whole content of a frame. -/
def setFrame (s : Vm) (page : Nat) (row : Idx → Word) : Vm :=
  { s with mem := fun f => if f = page then row else s.mem f }

theorem setFrame_self (s : Vm) (page : Nat) (row : Idx → Word) :
    (s.setFrame page row).mem page = row :=
  if_pos rfl

theorem setFrame_of_ne (s : Vm) {page f : Nat} (row : Idx → Word) (h : f ≠ page) :
    (s.setFrame page row).mem f = s.mem f :=
  if_neg h

theorem setFrame_mem (s : Vm) (page : Nat) : s.setFrame page (s.mem page) = s := by
  have hmem : (fun f => if f = page then s.mem page else s.mem f) = s.mem := by
    funext f
    split
    next h => rw [h]
    next => rfl
  unfold setFrame
  rw [hmem]

theorem setFrame_setFrame (s : Vm) (page : Nat) (row row' : Idx → Word) :
    (s.setFrame page row).setFrame page row' = s.setFrame page row' := by
  have hmem : (fun f => if f = page then row' else if f = page then row else s.mem f) =
      fun f => if f = page then row' else s.mem f := by
    funext f
    split <;> rfl
  unfold setFrame
  dsimp only
  rw [hmem]

theorem setEntry_eq_setFrame (s : Vm) (table : Nat) (i : Idx) (entry : Word) :
    s.setEntry table i entry = s.setFrame table ((s.setEntry table i entry).mem table) := by
  have hmem : (fun f => if f = table then (s.setEntry table i entry).mem table else s.mem f) =
      (s.setEntry table i entry).mem := by
    funext f
    split
    next h => rw [h]
    next h => exact (Forest.setCell_row_of_ne _ _ _ h).symm
  unfold setFrame
  rw [hmem]
  rfl

/-- `memset(page, 0, PAGE_SIZE)`. -/
def zeroFrame (s : Vm) (page : Nat) : Vm := s.setFrame page fun _ => 0

/-- All that is neither memory nor allocator. -/
def ctl (s : Vm) : (Nat → BitVec 32) × Nat × Word × Word × (Nat → Bool) :=
  (s.refs, s.refsPages, s.cr3, s.kernelPml4, s.usable)

end Vm

/-- `ref_valid`. -/
def refValid (s : Vm) (phys : Word) : Prop := frameOf phys < s.refsPages

instance (s : Vm) (phys : Word) : Decidable (refValid s phys) :=
  inferInstanceAs (Decidable (_ < _))

/-- `frame_ref_inc`. -/
def frameRefInc (s : Vm) (phys : Word) : Vm :=
  if refValid s phys then
    { s with refs := Function.update s.refs (frameOf phys) (s.refs (frameOf phys) + 1) }
  else s

/-- `frame_ref_dec`: true when the last reference is gone. -/
def frameRefDec (s : Vm) (phys : Word) : Bool × Vm :=
  if refValid s phys then
    let s := if 0 < s.refs (frameOf phys) then
        { s with refs := Function.update s.refs (frameOf phys) (s.refs (frameOf phys) - 1) }
      else s
    (s.refs (frameOf phys) == 0, s)
  else (false, s)

/-- `pmm_alloc(1)` on the whole state. -/
def allocFrame (s : Vm) : Option Nat × Vm :=
  match pmmAlloc 1 s.pmm with
  | (page, pmm) => (page, { s with pmm := pmm })

/-- `pmm_free(page, 1)` on the whole state. -/
def freeFrame (s : Vm) (page : Nat) : Vm := { s with pmm := pmmFree page 1 s.pmm }

/-- `pmap_create`: the lower half is empty and the upper half is that of the
address space in use. Zero is the failure value. -/
def pmapCreate (s : Vm) : Word × Vm :=
  match allocFrame s with
  | (none, s) => (0, s)
  | (some page, s) =>
    let old := s.zeroFrame page |>.mem (target s.cr3)
    (physOf page, s.setFrame page fun i => if i.val < 256 then 0 else old i)

/-- `table_alloc`. Zero is the failure value. -/
def tableAlloc (s : Vm) : Word × Vm :=
  match allocFrame s with
  | (none, s) => (0, s)
  | (some page, s) => (physOf page, s.zeroFrame page)

/-- `idx`: nine bits of the virtual address for each level. -/
def idx (va : Word) (level : Nat) : Idx :=
  ⟨((va >>> (12 + level * 9)) &&& 0x1FF).toNat, by
    rw [BitVec.toNat_and]
    exact Nat.lt_of_le_of_lt Nat.and_le_right (by decide)⟩

/-- The descent of `pmap_map` from a table at the given level, allocating the
missing tables. The result is the last-level table, or none after a failed
allocation. -/
def pmapMapWalk (va flags : Word) : Nat → Nat → Vm → Option Nat × Vm
  | 0, table, s => (some table, s)
  | level + 1, table, s =>
    let entry := s.mem table (idx va (level + 1))
    if entry &&& ptePresent = 0 then
      match tableAlloc s with
      | (nextPhys, s) =>
        if nextPhys = 0 then (none, s)
        else
          let entry := nextPhys ||| ptePresent ||| pteWrite ||| flags
          let s := s.setEntry table (idx va (level + 1)) entry
          pmapMapWalk va flags level (target entry) s
    else pmapMapWalk va flags level (target entry) s

/-- `pmap_map`. -/
def pmapMap (s : Vm) (pml4Phys va pa flags : Word) : Vm :=
  match pmapMapWalk va flags 3 (frameOf pml4Phys) s with
  | (none, s) => s
  | (some table, s) =>
    s.setEntry table (idx va 0) ((pa &&& pteAddrMask) ||| ptePresent ||| flags)

/-- The descent of `pmap_pte` from a table at the given level. -/
def pmapPteWalk (mem : PhysMem) (va : Word) : Nat → Nat → Option Nat
  | 0, table => some table
  | level + 1, table =>
    let entry := mem table (idx va (level + 1))
    if entry &&& ptePresent = 0 then none
    else pmapPteWalk mem va level (target entry)

/-- `pmap_pte`: the table and index that hold the leaf entry. -/
def pmapPte (s : Vm) (pml4Phys va : Word) : Option (Nat × Idx) :=
  (pmapPteWalk s.mem va 3 (frameOf pml4Phys)).map fun table => (table, idx va 0)

/-- `pmap_resolve`. -/
def pmapResolve (s : Vm) (pml4Phys va : Word) : Word :=
  match pmapPte s pml4Phys va with
  | none => 0
  | some (table, i) =>
    let leaf := s.mem table i
    if leaf &&& ptePresent = 0 then 0 else (leaf &&& pteAddrMask) ||| (va &&& 0xFFF)

/-- `pmap_unmap`. The invalidated translation cache is not modelled. -/
def pmapUnmap (s : Vm) (pml4Phys va : Word) : Vm :=
  match pmapPte s pml4Phys va with
  | none => s
  | some (table, i) => s.setEntry table i 0

/-- A counted loop that a failing body leaves early. -/
def forIdx (body : Idx → Vm → Bool × Vm) : List Idx → Vm → Bool × Vm
  | [], s => (true, s)
  | i :: rest, s =>
    match body i s with
    | (false, s) => (false, s)
    | (true, s) => forIdx body rest s

/-- The body of the innermost loop of `pmap_fork`: an eager private copy. -/
def forkPage (childPml4 va pte : Word) (s : Vm) : Bool × Vm :=
  let pa := pte &&& pteAddrMask
  let flags := pte &&& ~~~(pteAddrMask ||| pteWrite ||| pteCow)
  match allocFrame s with
  | (none, s) => (false, s)
  | (some frame, s) =>
    let s := s.setFrame frame (s.mem (frameOf pa))
    let s := frameRefInc s (physOf frame)
    (true, pmapMap s childPml4 va (physOf frame) (flags ||| pteWrite))

/-- The nested loops of `pmap_fork` below one parent table. The address bits of
the indices chosen so far are in `va`. -/
def forkLevel (childPml4 : Word) : Nat → Nat → Word → List Idx → Vm → Bool × Vm
  | 0, table, va, entries, s =>
    forIdx (fun i s =>
      let pte := s.mem table i
      if pte &&& ptePresent = 0 then (true, s)
      else forkPage childPml4 (va ||| (BitVec.ofNat 64 i.val <<< 12)) pte s) entries s
  | level + 1, table, va, entries, s =>
    forIdx (fun i s =>
      let entry := s.mem table i
      if entry &&& ptePresent = 0 then (true, s)
      else
        forkLevel childPml4 level (target entry)
          (va ||| (BitVec.ofNat 64 i.val <<< (12 + (level + 1) * 9)))
          (List.finRange 512) s) entries s

/-- The entries of the user half of a top-level table. -/
def userEntries : List Idx := (List.finRange 512).filter fun i => i.val < 256

/-- `pmap_fork`. Zero is the failure value; nothing is undone on failure. -/
def pmapFork (s : Vm) (parent : Word) : Word × Vm :=
  match pmapCreate s with
  | (childPml4, s) =>
    if childPml4 = 0 then (0, s)
    else
      match forkLevel childPml4 3 (frameOf parent) 0 userEntries s with
      | (false, s) => (0, s)
      | (true, s) => (childPml4, s)

/-- One leaf of `pmap_destroy`: drop the reference and free the last one. -/
def destroyLeaf (s : Vm) (pa : Word) : Vm :=
  match frameRefDec s pa with
  | (true, s) => freeFrame s (frameOf pa)
  | (false, s) => s

/-- The nested loops of `pmap_destroy` below one table. -/
def destroyLevel : Nat → Nat → List Idx → Vm → Vm
  | 0, table, entries, s =>
    entries.foldl (fun s i =>
      let pte := s.mem table i
      if pte &&& ptePresent = 0 then s else destroyLeaf s (pte &&& pteAddrMask)) s
  | level + 1, table, entries, s =>
    entries.foldl (fun s i =>
      let entry := s.mem table i
      if entry &&& ptePresent = 0 then s
      else freeFrame (destroyLevel level (target entry) (List.finRange 512) s)
        (target entry)) s

/-- `pmap_destroy`. -/
def pmapDestroy (s : Vm) (pml4Phys : Word) : Vm :=
  freeFrame (destroyLevel 3 (frameOf pml4Phys) userEntries s) (frameOf pml4Phys)

/-- `USER_STACK_TOP_VA`. -/
def userStackTopVa : Word := 0x70000000

/-- `USER_STACK_MAX_SIZE`. -/
def userStackMaxSize : Word := 8 * 1024 * 1024

/-- `pmap_handle_fault` for a current task with the given top-level table. -/
def pmapHandleFault (s : Vm) (pml4Phys va errCode : Word) : Bool × Vm :=
  if pml4Phys = 0 then (false, s)
  else if errCode &&& 1 = 0 then
    -- Automatic stack growth below the mapped region.
    if errCode &&& 4 ≠ 0 ∧ va < userStackTopVa ∧ userStackTopVa - userStackMaxSize ≤ va then
      let aligned := va &&& ~~~0xFFF
      if pmapResolve s pml4Phys aligned ≠ 0 then (false, s)
      else
        match allocFrame s with
        | (none, s) => (false, s)
        | (some frame, s) =>
          let s := s.zeroFrame frame
          (true, pmapMap s pml4Phys aligned (physOf frame) (pteUser ||| pteWrite))
    else (false, s)
  else if errCode &&& 2 ≠ 0 then
    -- Copy-on-write break.
    match pmapPte s pml4Phys va with
    | none => (false, s)
    | some (table, i) =>
      let pte := s.mem table i
      if pte &&& pteCow = 0 then (false, s)
      else
        let pa := pte &&& pteAddrMask
        let flags := pte &&& (pteUser ||| pteNocache)
        if refValid s pa ∧ 1 < s.refs (frameOf pa) then
          let s := { s with
            refs := Function.update s.refs (frameOf pa) (s.refs (frameOf pa) - 1) }
          match allocFrame s with
          | (none, s) => (false, s)
          | (some frame, s) =>
            let s := s.setFrame frame (s.mem (frameOf pa))
            let s := { s with refs := Function.update s.refs frame 1 }
            (true, s.setEntry table i (physOf frame ||| ptePresent ||| pteWrite ||| flags))
        else (true, s.setEntry table i ((pte ||| pteWrite) &&& ~~~pteCow))
  else (false, s)

end Mmix.Mm
