import Mmix.Lib.Run
import Mmix.Lib.Tiling
import Mmix.Mm.Pmm

/-!
# Kernel heap

The first-fit allocator of `kheap.c`. The chain of `next` pointers from
`heap_start` is a list of blocks, each with the address and the fields of its
header; `prev` is never read. Payload bytes are kept apart from the headers,
so the list is exact as long as no header is overwritten. Sizes are 64-bit and
wrap. Where `pmm_alloc` places a page run is an input.
-/

namespace Mmix.Mm

open Tiling

/-- `sizeof(struct heap_block)`, a packed struct. -/
def headerSize : Nat := 29

/-- `HEAP_MIN_SPLIT`. -/
def heapMinSplit : Nat := 64

/-- `HEAP_INITIAL_PAGES`. -/
def heapInitialPages : Nat := 16

/-- The number of values of a `size_t`. -/
def sizeMod : Nat := 2 ^ 64

/-- `struct heap_block` with its address. -/
structure HeapBlock where
  addr : Nat
  size : Nat
  free : Bool
  deriving DecidableEq, Repr

/-- The header and the payload of a block. -/
def HeapBlock.span (b : HeapBlock) : Span := ⟨b.addr, b.addr + headerSize + b.size⟩

/-- The header of a block. -/
def HeapBlock.header (b : HeapBlock) : Span := ⟨b.addr, b.addr + headerSize⟩

/-- The pointer to the payload of a block. -/
def HeapBlock.ptr (b : HeapBlock) : Nat := b.addr + headerSize

/-- The heap: its blocks in list order, the page runs obtained by
`heap_expand`, and the payload bytes. -/
structure Heap where
  blocks : List HeapBlock
  runs : List Span
  mem : Nat → UInt8

/-- The number of pages `heap_expand` asks for. -/
def expandPages (minSize : Nat) : Nat :=
  let pages := (minSize + pageSize - 1) % sizeMod / pageSize
  if pages < 4 then 4 else pages

/-- `heap_expand`, given what `pmm_alloc` returns. -/
def heapExpand (h : Heap) (minSize : Nat) : Option Nat → Bool × Heap
  | none => (false, h)
  | some newPages =>
    let pages := expandPages minSize
    let block := { addr := newPages, size := pages * pageSize - headerSize, free := true }
    (true, { h with
      blocks := h.blocks ++ [block]
      runs := h.runs ++ [⟨newPages, newPages + pages * pageSize⟩] })

/-- `heap_coalesce`: after a merge the walk moves past the absorbed block. -/
def heapCoalesce : List HeapBlock → List HeapBlock
  | [] => []
  | [b] => [b]
  | b :: next :: rest =>
    if b.free ∧ next.free then
      { b with size := (b.size + headerSize + next.size) % sizeMod } :: heapCoalesce rest
    else b :: heapCoalesce (next :: rest)

/-- The blocks that `heap_coalesce` absorbs into the block before them. -/
def heapAbsorbed : List HeapBlock → List HeapBlock
  | [] => []
  | [_] => []
  | b :: next :: rest =>
    if b.free ∧ next.free then next :: heapAbsorbed rest else heapAbsorbed (next :: rest)

/-- The 16-byte alignment in `kmalloc`. -/
def alignSize (size : Nat) : Nat := (size + 15) % sizeMod / 16 * 16

/-- The search loop of `kmalloc` with the split of the block it finds. -/
def kmallocSearch (size : Nat) : List HeapBlock → Option (Nat × List HeapBlock)
  | [] => none
  | b :: rest =>
    if b.free ∧ size ≤ b.size then
      if (size + headerSize + heapMinSplit) % sizeMod < b.size then
        some (b.ptr, { b with size := size, free := false } ::
          { addr := b.addr + headerSize + size
            size := (b.size - size + sizeMod - headerSize) % sizeMod
            free := true } :: rest)
      else some (b.ptr, { b with free := false } :: rest)
    else (kmallocSearch size rest).map fun r => (r.1, b :: r.2)

/-- `kmalloc`. The first argument lists the results of the calls of `pmm_alloc`
made on the way, a missing one being null. -/
def kmalloc : List (Option Nat) → Heap → Nat → Option Nat × Heap
  | places, h, size =>
    if size = 0 then (none, h)
    else
      let size := alignSize size
      match kmallocSearch size h.blocks with
      | some (ptr, blocks) => (some ptr, { h with blocks := blocks })
      | none =>
        match places with
        | [] => (none, h)
        | place :: places =>
          match heapExpand h size place with
          | (false, h) => (none, h)
          | (true, h) => kmalloc places h size

/-- `memset(ptr, 0, size)` on payload bytes. -/
def heapZero (h : Heap) (ptr size : Nat) : Heap :=
  { h with mem := fun a => if ptr ≤ a ∧ a < ptr + size then 0 else h.mem a }

/-- `memcpy(dst, src, size)` on payload bytes. -/
def heapCopy (h : Heap) (dst src size : Nat) : Heap :=
  { h with mem := fun a => if dst ≤ a ∧ a < dst + size then h.mem (src + (a - dst)) else h.mem a }

/-- `kcalloc`. -/
def kcalloc (places : List (Option Nat)) (h : Heap) (count size : Nat) : Option Nat × Heap :=
  let total := count * size % sizeMod
  match kmalloc places h total with
  | (none, h) => (none, h)
  | (some ptr, h) => (some ptr, heapZero h ptr total)

/-- The block whose payload a pointer names. A pointer to anything else fails
the check of `HEAP_MAGIC`. -/
def blockOf (h : Heap) (ptr : Nat) : Option HeapBlock := h.blocks.find? fun b => b.ptr == ptr

/-- Mark the block of a pointer free. -/
def markFree (ptr : Nat) (blocks : List HeapBlock) : List HeapBlock :=
  blocks.map fun b => if b.ptr = ptr then { b with free := true } else b

/-- `kfree`. Address 0 is the null pointer. -/
def kfree (h : Heap) (ptr : Nat) : Heap :=
  if ptr = 0 then h
  else
    match blockOf h ptr with
    | none => h
    | some _ => { h with blocks := heapCoalesce (markFree ptr h.blocks) }

/-- `krealloc`. -/
def krealloc (places : List (Option Nat)) (h : Heap) (ptr size : Nat) : Option Nat × Heap :=
  if ptr = 0 then kmalloc places h size
  else if size = 0 then (none, kfree h ptr)
  else
    match blockOf h ptr with
    | none => (none, h)
    | some block =>
      if size ≤ block.size then (some ptr, h)
      else
        match kmalloc places h size with
        | (none, h) => (none, h)
        | (some newPtr, h) => (some newPtr, kfree (heapCopy h newPtr ptr block.size) ptr)

/-- `heap_init`. A failure only prints a message. -/
def heapInit (place : Option Nat) : Heap :=
  (heapExpand ⟨[], [], fun _ => 0⟩ (heapInitialPages * pageSize) place).2

end Mmix.Mm
