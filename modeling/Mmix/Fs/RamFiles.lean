import Mmix.Fs.Content
import Mmix.Fs.WriteBounds
import Mmix.Mm.HeapRealloc

/-!
# Files in memory as byte arrays

`vfs_read` and `vfs_write` on nodes of type `VFS_FILE`, over flat memory and an allocator of which
only the contract is known: the block that `krealloc` returns is large enough, shares no address
with the block of anything else, and holds the bytes of the old one. What lies behind them in the
block is left over from earlier use. The abstract files are sequences of bytes, and a step of the
code is compared with the step of the sequences.
-/

namespace Mmix.Fs

open Mm Tiling List

variable {ν : Type*}

/-- What a `krealloc` that succeeds returns: the pointer, the size of its block, and memory as it
is then. -/
structure Grant where
  ptr : Nat
  size : Nat
  mem : Nat → UInt8

/-- Memory, the sizes of the blocks in use by their pointers, and the nodes of type `VFS_FILE`. -/
structure RamDisk (ν : Type*) where
  mem : Nat → UInt8
  blocks : Nat → Option Nat
  file : ν → RamFile

/-- The bytes of a write. -/
structure WriteBuffer where
  bytes : List UInt8
  short : bytes.length < 2 ^ 31

/-- A call on a file. A write comes with the answer of `krealloc`, should it ask. -/
inductive RamCall (ν : Type*) where
  | write (node : ν) (buf : WriteBuffer) (offset : BitVec 64) (granted : Option Grant)
  | read (node : ν) (count offset : BitVec 64)

/-- The end of a write, as `vfs_write` computes it. -/
def WriteBuffer.stop (buf : WriteBuffer) (offset : BitVec 64) : BitVec 64 :=
  offset + BitVec.ofNat 64 buf.bytes.length

theorem WriteBuffer.toNat_length (buf : WriteBuffer) :
    (BitVec.ofNat 64 buf.bytes.length).toNat = buf.bytes.length := by
  rw [BitVec.toNat_ofNat]
  exact Nat.mod_eq_of_lt (Nat.lt_trans buf.short (by decide))

namespace RamDisk

variable [DecidableEq ν]

/-- The gap between the old end and the offset is cleared, and the node gets the new block. -/
def grow (s : RamDisk ν) (node : ν) (offset stop : Nat) (g : Grant) : RamDisk ν where
  mem := fun a =>
    if g.ptr + (s.file node).size ≤ a ∧ a < g.ptr + offset then 0 else g.mem a
  blocks := fun p =>
    if p = g.ptr then some g.size else if p = (s.file node).data then none else s.blocks p
  file := Function.update s.file node ⟨g.ptr, stop⟩

/-- The `memcpy` of `vfs_write`. -/
def store (s : RamDisk ν) (node : ν) (buf : WriteBuffer) (offset : BitVec 64) : RamDisk ν :=
  { s with
    mem := storeBytes s.mem ((s.file node).at offset) buf.bytes.length fun i => buf.bytes.getD i 0 }

/-- `vfs_write` on a node of type `VFS_FILE`. -/
def vfsWrite (s : RamDisk ν) (node : ν) (buf : WriteBuffer) (offset : BitVec 64)
    (granted : Option Grant) : Int × RamDisk ν :=
  if (s.file node).size < (buf.stop offset).toNat then
    match granted with
    | none => (-1, s)
    | some g => (intOf buf.bytes.length,
        (s.grow node offset.toNat (buf.stop offset).toNat g).store node buf offset)
  else (intOf buf.bytes.length, s.store node buf offset)

/-- `vfs_read` on a node of type `VFS_FILE`. -/
def vfsRead (s : RamDisk ν) (node : ν) (count offset : BitVec 64) : Int × List UInt8 :=
  if (s.file node).size ≤ offset.toNat then (0, [])
  else
    let toRead := min count.toNat ((s.file node).size - offset.toNat)
    (intOf toRead, (List.range toRead).map fun i => s.mem (((s.file node).at offset + i) % sizeMod))

/-- The return value of a call, the bytes it copies out, and what it leaves. -/
def call (s : RamDisk ν) : RamCall ν → (Int × List UInt8) × RamDisk ν
  | .write node buf offset granted =>
    (((s.vfsWrite node buf offset granted).1, []), (s.vfsWrite node buf offset granted).2)
  | .read node count offset => (s.vfsRead node count offset, s)

/-- What can be read of a node. -/
def content (s : RamDisk ν) (node : ν) : List UInt8 :=
  (List.range (s.file node).size).map fun k => s.mem ((s.file node).data + k)

end RamDisk

/-- The calls on sequences of bytes. -/
inductive ArrayStep [DecidableEq ν] (a : ν → List UInt8) :
    RamCall ν → Int × List UInt8 → (ν → List UInt8) → Prop where
  | write (node buf offset granted) : ArrayStep a (.write node buf offset granted)
      (buf.bytes.length, []) (Function.update a node (overwrite (a node) offset.toNat buf.bytes))
  | refuse (node buf offset granted) : ArrayStep a (.write node buf offset granted) (-1, []) a
  | read (node count offset) : ArrayStep a (.read node count offset)
      ((((a node).drop offset.toNat).take count.toNat).length,
        ((a node).drop offset.toNat).take count.toNat) a

namespace RamDisk

/-- A call does what it does on sequences, and one that is refused changes no node. -/
structure Matches [DecidableEq ν] (s : RamDisk ν) (e : RamCall ν) : Prop where
  arrays : ArrayStep s.content e (s.call e).1 (s.call e).2.content
  refused : (s.call e).1.1 = -1 → (s.call e).2.file = s.file

/-- The contract of `krealloc` for a pointer and a size. -/
structure Fair (s : RamDisk ν) (old n : Nat) (g : Grant) : Prop where
  ptr : g.ptr ≠ 0
  size : n ≤ g.size
  bound : g.ptr + g.size ≤ sizeMod
  apart : ∀ q m, s.blocks q = some m → q ≠ old →
    q ≠ g.ptr ∧ Span.Apart ⟨g.ptr, g.ptr + g.size⟩ ⟨q, q + m⟩
  copied : ∀ m, s.blocks old = some m → ∀ i < m, i < g.size → g.mem (g.ptr + i) = s.mem (old + i)
  kept : ∀ q m, s.blocks q = some m → q ≠ old → ∀ i < m, g.mem (q + i) = s.mem (q + i)

/-- The allocator keeps to its contract in a call. -/
def FairCall (s : RamDisk ν) : RamCall ν → Prop
  | .write node buf offset granted => (s.file node).size < (buf.stop offset).toNat →
      ∀ g ∈ granted, s.Fair (s.file node).data (buf.stop offset).toNat g
  | .read _ _ _ => True

/-- The end of a write does not wrap, or the block for the wrapped end is refused. The number of
bytes read is an `int`. -/
def Clear (s : RamDisk ν) : RamCall ν → Prop
  | .write node buf offset granted => offset.toNat + buf.bytes.length < sizeMod ∨
      ((s.file node).size < (buf.stop offset).toNat ∧ granted = none)
  | .read node count offset => min count.toNat ((s.file node).size - offset.toNat) < 2 ^ 31

/-- Blocks lie apart in the address space, and each node that has one has it alone. -/
structure Valid (s : RamDisk ν) : Prop where
  null : s.blocks 0 = none
  bound : ∀ p n, s.blocks p = some n → p + n ≤ sizeMod
  apart : ∀ p n q m, s.blocks p = some n → s.blocks q = some m → p ≠ q →
    Span.Apart ⟨p, p + n⟩ ⟨q, q + m⟩
  held : ∀ i, (s.file i).data = 0 ∧ (s.file i).size = 0 ∨
    ∃ n, s.blocks (s.file i).data = some n ∧ (s.file i).size ≤ n
  own : ∀ i j, i ≠ j → (s.file i).data = (s.file j).data → (s.file i).data = 0

section Bytes

variable {mem : Nat → UInt8} {x n a : Nat} {bytes : Nat → UInt8}

/-- A copy that does not leave the address space. -/
theorem storeBytes_apply (hx : x + n ≤ sizeMod) (ha : a < sizeMod) :
    storeBytes mem (x % sizeMod) n bytes a =
      if x ≤ a ∧ a < x + n then bytes (a - x) else mem a := by
  rw [storeBytes]
  by_cases hin : x ≤ a ∧ a < x + n
  · have hpos : (a + sizeMod - x % sizeMod) % sizeMod = a - x := by
      unfold sizeMod at *
      omega
    rw [hpos, if_pos (by omega), if_pos hin]
  · have hout : ¬ (a + sizeMod - x % sizeMod) % sizeMod < n := by
      unfold sizeMod at *
      omega
    rw [if_neg hout, if_neg hin]

/-- A byte of the overwritten sequence. -/
theorem getD_overwrite (data : List UInt8) (offset : Nat) (buf : List UInt8) (k : Nat) :
    (overwrite data offset buf).getD k 0 =
      if offset ≤ k ∧ k < offset + buf.length then buf.getD (k - offset) 0 else data.getD k 0 := by
  have hfront : (data.take offset ++ replicate (offset - data.length) 0).length = offset := by
    simp only [length_append, length_take, length_replicate]
    omega
  simp only [overwrite, getD_eq_getElem?_getD]
  rw [append_assoc]
  rcases Nat.lt_or_ge k offset with hk | hk
  · rw [getElem?_append_left (by rw [hfront]; exact hk), if_neg (by omega)]
    grind
  · rw [getElem?_append_right (by rw [hfront]; exact hk), hfront]
    rcases Nat.lt_or_ge k (offset + buf.length) with hin | hin
    · rw [getElem?_append_left (by omega), if_pos ⟨hk, hin⟩]
    · rw [getElem?_append_right (by omega), getElem?_drop, if_neg (by omega)]
      congr 2
      omega

theorem ext_getD {l l' : List UInt8} (hlen : l.length = l'.length)
    (h : ∀ k < l.length, l.getD k 0 = l'.getD k 0) : l = l' := by
  apply ext_getElem hlen
  intro k hk hk'
  have := h k hk
  rwa [getD_eq_getElem _ _ hk, getD_eq_getElem _ _ hk'] at this

/-- What a sequence holds behind the offset does not matter if the write covers it. -/
theorem overwrite_congr {data data' : List UInt8} {offset : Nat} {buf : List UInt8}
    (hlen : data.length ≤ offset + buf.length) (hlen' : data'.length ≤ offset + buf.length)
    (h : ∀ k < offset, data.getD k 0 = data'.getD k 0) :
    overwrite data offset buf = overwrite data' offset buf := by
  apply ext_getD
  · rw [length_overwrite, length_overwrite, Nat.max_eq_right hlen, Nat.max_eq_right hlen']
  · intro k hk
    rw [length_overwrite, Nat.max_eq_right hlen] at hk
    rw [getD_overwrite, getD_overwrite]
    split
    · rfl
    · exact h k (by omega)

end Bytes

section Content

variable {s t : RamDisk ν} {i node : ν} {k : Nat}

@[simp] theorem length_content : (s.content i).length = (s.file i).size := by
  rw [content, length_map, length_range]

theorem getD_content (hk : k < (s.file i).size) :
    (s.content i).getD k 0 = s.mem ((s.file i).data + k) := by
  rw [getD_eq_getElem _ _ (by rwa [length_content])]
  simp only [content, getElem_map, getElem_range]

theorem content_congr (hfile : t.file i = s.file i)
    (hmem : ∀ k < (s.file i).size, t.mem ((s.file i).data + k) = s.mem ((s.file i).data + k)) :
    t.content i = s.content i := by
  rw [content, content, hfile]
  apply map_congr_left
  intro k hk
  exact hmem k (mem_range.mp hk)

end Content

section Blocks

variable {s : RamDisk ν} {i j node : ν} {n p offset stop : Nat} {g : Grant}

theorem Valid.ne_zero (h : s.Valid) (hp : s.blocks p = some n) : p ≠ 0 := by
  rintro rfl
  rw [h.null] at hp
  cases hp

/-- No other node has the block of a node. -/
theorem Valid.data_ne (h : s.Valid) (hne : i ≠ j) (hp : s.blocks (s.file i).data = some n) :
    (s.file i).data ≠ (s.file j).data := fun heq => h.ne_zero hp (h.own i j hne heq)

theorem Valid.size_lt (h : s.Valid) (i : ν) : (s.file i).size < sizeMod := by
  rcases h.held i with ⟨-, hsize⟩ | ⟨n, hp, hle⟩
  · rw [hsize]
    decide
  · have hpos := Nat.pos_of_ne_zero (h.ne_zero hp)
    have hbound := h.bound _ n hp
    omega

variable [DecidableEq ν]

theorem grow_blocks : (s.grow node offset stop g).blocks p = some n ↔
    p = g.ptr ∧ g.size = n ∨ p ≠ g.ptr ∧ p ≠ (s.file node).data ∧ s.blocks p = some n := by
  rw [grow]
  by_cases hptr : p = g.ptr
  · simp [hptr]
  · by_cases hold : p = (s.file node).data
    · simp [hold]
    · simp [hptr, hold]

theorem grow_file_self : (s.grow node offset stop g).file node = ⟨g.ptr, stop⟩ :=
  Function.update_self ..

theorem grow_file_of_ne (hne : i ≠ node) : (s.grow node offset stop g).file i = s.file i :=
  Function.update_of_ne hne ..

/-- A node with the new block, and the others with theirs. -/
theorem Valid.grow (h : s.Valid) (hg : s.Fair (s.file node).data stop g) :
    (s.grow node offset stop g).Valid where
  null := by
    apply Option.eq_none_iff_forall_ne_some.mpr
    intro n hn
    rcases grow_blocks.mp hn with ⟨hptr, -⟩ | ⟨-, -, hp⟩
    · exact hg.ptr hptr.symm
    · exact h.ne_zero hp rfl
  bound := by
    intro p n hp
    rcases grow_blocks.mp hp with ⟨rfl, rfl⟩ | ⟨-, -, hp⟩
    · exact hg.bound
    · exact h.bound p n hp
  apart := by
    intro p n q m hp hq hne
    rcases grow_blocks.mp hp with ⟨rfl, rfl⟩ | ⟨-, hold, hp⟩
    · rcases grow_blocks.mp hq with ⟨rfl, -⟩ | ⟨-, hold, hq⟩
      · exact absurd rfl hne
      · exact (hg.apart q m hq hold).2
    · rcases grow_blocks.mp hq with ⟨rfl, rfl⟩ | ⟨-, -, hq⟩
      · exact (hg.apart p n hp hold).2.symm
      · exact h.apart p n q m hp hq hne
  held := by
    intro i
    by_cases hi : i = node
    · subst hi
      rw [grow_file_self]
      exact .inr ⟨g.size, grow_blocks.mpr (.inl ⟨rfl, rfl⟩), hg.size⟩
    · rw [grow_file_of_ne hi]
      refine (h.held i).imp_right fun ⟨n, hp, hle⟩ => ⟨n, grow_blocks.mpr (.inr ?_), hle⟩
      have hold := h.data_ne hi hp
      exact ⟨(hg.apart _ n hp hold).1, hold, hp⟩
  own := by
    -- No other node points to the new block.
    have hfresh : ∀ j, j ≠ node → (s.file j).data ≠ g.ptr := by
      intro j hj heq
      rcases h.held j with ⟨hzero, -⟩ | ⟨n, hp, -⟩
      · exact hg.ptr (heq.symm.trans hzero)
      · exact (hg.apart _ n hp (h.data_ne hj hp)).1 heq
    intro i j hne heq
    by_cases hi : i = node
    · subst hi
      rw [grow_file_self, grow_file_of_ne hne.symm] at heq
      exact absurd heq.symm (hfresh j hne.symm)
    · by_cases hj : j = node
      · subst hj
        rw [grow_file_self, grow_file_of_ne hi] at heq
        exact absurd heq (hfresh i hi)
      · rw [grow_file_of_ne hi, grow_file_of_ne hj] at heq
        rw [grow_file_of_ne hi]
        exact h.own i j hne heq

end Blocks

section Heap

variable [DecidableEq ν] {s : RamDisk ν} {node : ν} {buf : WriteBuffer} {offset : BitVec 64}
  {places : List (Option Nat)} {h h' : Heap} {ptr n : Nat}

/-- The answer of the `krealloc` of the kernel. -/
def grantOf (places : List (Option Nat)) (h : Heap) (ptr n : Nat) : Option Grant :=
  (krealloc places h ptr n).1.map fun q =>
    ⟨q, ((blockOf (krealloc places h ptr n).2 q).map HeapBlock.size).getD 0,
      (krealloc places h ptr n).2.mem⟩

theorem kmalloc_none_mem (hk : kmalloc places h n = (none, h')) : h'.mem = h.mem := by
  obtain ⟨more, -, -, ⟨-, rfl⟩ | ⟨_, _, hsome, -⟩⟩ := kmalloc_cases hk
  · rfl
  · cases hsome

theorem krealloc_none_mem (hk : krealloc places h ptr n = (none, h')) : h'.mem = h.mem := by
  unfold krealloc at hk
  split at hk
  · exact kmalloc_none_mem hk
  split at hk
  · obtain rfl := (Prod.mk.inj hk).2
    exact kfree_mem h ptr
  split at hk
  · rw [(Prod.mk.inj hk).2]
  split at hk
  · cases hk
  split at hk
  · rename_i hmalloc
    rw [← (Prod.mk.inj hk).2]
    exact kmalloc_none_mem hmalloc
  · cases hk

/-- The cleared gap, with and without the check of `vfs_write`. -/
theorem gap_mem {q size off a : Nat} :
    (if size < off then heapZero h (q + size) (off - size) else h).mem a =
      if q + size ≤ a ∧ a < q + off then 0 else h.mem a := by
  by_cases hgap : size < off
  · rw [if_pos hgap, heapZero]
    refine if_congr ?_ rfl rfl
    omega
  · rw [if_neg hgap, if_neg (by omega)]

/-- A write over the heap of the kernel is the write with the answer of its `krealloc`. -/
theorem vfsWriteHeap_eq (hmem : s.mem = h.mem) (r : WriteOutcome)
    (hr : r = vfsWriteHeap places h (s.file node) offset (BitVec.ofNat 64 buf.bytes.length)
      fun i => buf.bytes.getD i 0) (w : Int × RamDisk ν)
    (hw : w = s.vfsWrite node buf offset
      (grantOf places h (s.file node).data (buf.stop offset).toNat)) :
    w.1 = r.ret ∧ w.2.mem = r.heap.mem ∧ w.2.file node = r.file := by
  subst hr hw
  unfold vfsWriteHeap vfsWrite grantOf
  rw [← WriteBuffer.stop]
  by_cases hgrow : (s.file node).size < (buf.stop offset).toNat
  · simp only [if_pos hgrow]
    cases hk : krealloc places h (s.file node).data (buf.stop offset).toNat with
    | mk q h' =>
      cases q with
      | none => exact ⟨rfl, hmem.trans (krealloc_none_mem hk).symm, rfl⟩
      | some q =>
        refine ⟨?_, ?_, Function.update_self ..⟩
        · simp only [Option.map_some, storeAt, WriteBuffer.toNat_length]
        · have hgap : (fun a => if q + (s.file node).size ≤ a ∧ a < q + offset.toNat then 0
              else h'.mem a) = (if (s.file node).size < offset.toNat then
                heapZero h' (q + (s.file node).size) (offset.toNat - (s.file node).size)
              else h').mem := funext fun a => gap_mem.symm
          simp only [Option.map_some, store, storeAt, grow, hgap, WriteBuffer.toNat_length,
            Function.update_self]
  · simp only [if_neg hgrow, storeAt, store, hmem, WriteBuffer.toNat_length, and_self]

end Heap

end RamDisk

end Mmix.Fs
