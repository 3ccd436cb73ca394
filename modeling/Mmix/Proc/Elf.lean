import Mmix.Mm.Pmap

/-!
# Program loader

The functions of `elf.c`. A file is its size and its bytes; what lies behind
the end of the file is arbitrary, since the loader does not check offsets.
Strings are lists of bytes without their terminating zero.
-/

namespace Mmix.Proc

open Mm

/-- The contents of a regular file. -/
structure FileData where
  size : Nat
  data : Nat → UInt8

/-- A little-endian number of the given number of bytes. -/
def readLe (data : Nat → UInt8) (offset : Nat) : Nat → Nat
  | 0 => 0
  | n + 1 => (data offset).toNat + 256 * readLe data (offset + 1) n

/-- The fields of `Elf64_Ehdr` that the loader reads. -/
structure Ehdr where
  magic : Nat
  eType : Nat
  machine : Nat
  entry : Word
  phoff : Nat
  phnum : Nat

/-- `sizeof(Elf64_Ehdr)`. -/
def ehdrSize : Nat := 64

def readEhdr (data : Nat → UInt8) : Ehdr where
  magic := readLe data 0 4
  eType := readLe data 16 2
  machine := readLe data 18 2
  entry := BitVec.ofNat 64 (readLe data 24 8)
  phoff := readLe data 32 8
  phnum := readLe data 56 2

/-- The fields of `Elf64_Phdr` that the loader reads. -/
structure Phdr where
  pType : Nat
  offset : Nat
  vaddr : Word
  filesz : Nat
  memsz : Nat

/-- `sizeof(Elf64_Phdr)`. -/
def phdrSize : Nat := 56

def readPhdr (data : Nat → UInt8) (base : Nat) : Phdr where
  pType := readLe data base 4
  offset := readLe data (base + 8) 8
  vaddr := BitVec.ofNat 64 (readLe data (base + 16) 8)
  filesz := readLe data (base + 32) 8
  memsz := readLe data (base + 40) 8

/-- `ELF_MAGIC_VAL`. -/
def elfMagicVal : Nat := 0x464C457F

/-- `ELF_EXEC`. -/
def elfExec : Nat := 2

/-- `ELF_X86_64`. -/
def elfX8664 : Nat := 62

/-- `PT_LOAD`. -/
def ptLoad : Nat := 1

/-- `USER_STACK_TOP`. -/
def userStackTop : Word := 0x70000000

/-- `USER_STACK_PAGES`. -/
def userStackPages : Nat := 16

/-- `EXEC_MAX_ARGS`. -/
def execMaxArgs : Nat := 32

/-- `EXEC_MAX_ARG_LEN`. -/
def execMaxArgLen : Nat := 256

/-- Replace one byte of a word. -/
def setByte (w : Word) (j : Nat) (byte : UInt8) : Word :=
  (w &&& ~~~((0xFF : Word) <<< (8 * j))) ||| (byte.toBitVec.setWidth 64 <<< (8 * j))

theorem word_lt (a : Nat) : a % pageSize / 8 < 512 := by
  unfold pageSize
  omega

/-- Store one byte at a physical address. -/
def writeByte (s : Vm) (phys : Word) (byte : UInt8) : Vm :=
  let i : Idx := ⟨phys.toNat % pageSize / 8, word_lt phys.toNat⟩
  s.setEntry (frameOf phys) i (setByte (s.mem (frameOf phys) i) (phys.toNat % 8) byte)

/-- `memcpy` to a physical address. -/
def writeBytes : List UInt8 → Word → Vm → Vm
  | [], _, s => s
  | byte :: bytes, phys, s => writeBytes bytes (phys + 1) (writeByte s phys byte)

/-- The loop that `map_zeroed_range`, `sys_mmap` and `sys_brk` share: map fresh
zeroed pages from an address on, until the allocator fails. -/
def mapFresh (pml4 : Word) : Nat → Word → Vm → Bool × Vm
  | 0, _, s => (true, s)
  | pages + 1, va, s =>
    match allocFrame s with
    | (none, s) => (false, s)
    | (some frame, s) =>
      mapFresh pml4 pages (va + 0x1000)
        (pmapMap (s.zeroFrame frame) pml4 va (physOf frame) (pteUser ||| pteWrite))

/-- `map_zeroed_range`. -/
def mapZeroedRange (pml4 va : Word) (bytes : Nat) (s : Vm) : Bool × Vm :=
  mapFresh pml4 ((bytes + pageSize - 1) % 2 ^ 64 / pageSize) va s

/-- The number of bytes from an address to the end of its page. -/
def pageRoom (va : Word) : Nat := pageSize - va.toNat % pageSize

/-- The loop of `copy_to_va`; every round copies at least one byte. -/
def copyToVaLoop (pml4 : Word) : Nat → Word → List UInt8 → Vm → Bool × Vm
  | 0, _, _, s => (true, s)
  | fuel + 1, cur, bytes, s =>
    if bytes = [] then (true, s)
    else
      let pa := pmapResolve s pml4 (cur &&& ~~~0xFFF)
      if pa = 0 then (false, s)
      else
        let chunk := min bytes.length (pageRoom cur)
        copyToVaLoop pml4 fuel (cur + BitVec.ofNat 64 chunk) (bytes.drop chunk)
          (writeBytes (bytes.take chunk) (pa + (cur &&& 0xFFF)) s)

/-- `copy_to_va`. -/
def copyToVa (pml4 va : Word) (bytes : List UInt8) (s : Vm) : Bool × Vm :=
  copyToVaLoop pml4 bytes.length va bytes s

/-- The little-endian bytes of a word. -/
def wordBytes (w : Word) : List UInt8 :=
  (List.range 8).map fun j => UInt8.ofBitVec ((w >>> (8 * j)).setWidth 8)

/-- The loop of `build_user_stack` that copies the strings, last one first. The
result is the stack pointer and the addresses in order. -/
def copyStrings (pml4 : Word) : List (List UInt8) → Word → List Word → Vm →
    Option (Word × List Word) × Vm
  | [], sp, addrs, s => (some (sp, addrs), s)
  | arg :: args, sp, addrs, s =>
    let len := min (arg.length + 1) execMaxArgLen
    let sp := sp - BitVec.ofNat 64 len
    match copyToVa pml4 sp ((arg ++ [0]).take len) s with
    | (false, s) => (none, s)
    | (true, s) => copyStrings pml4 args sp (sp :: addrs) s

/-- `build_user_stack`. Zero is the failure value. -/
def buildUserStack (pml4 : Word) (argv : List (List UInt8)) (s : Vm) : Word × Vm :=
  match mapZeroedRange pml4 (userStackTop - BitVec.ofNat 64 (userStackPages * pageSize))
      (userStackPages * pageSize) s with
  | (false, s) => (0, s)
  | (true, s) =>
    let args := argv.take execMaxArgs
    match copyStrings pml4 args.reverse userStackTop [] s with
    | (none, s) => (0, s)
    | (some (sp, addrs), s) =>
      let sp := sp &&& ~~~0xF
      let vec := addrs ++ [0, 0]
      let sp := (sp - BitVec.ofNat 64 (vec.length * 8)) &&& ~~~0xF
      match copyToVa pml4 sp (vec.flatMap wordBytes) s with
      | (false, s) => (0, s)
      | (true, s) =>
        let sp := sp - 8
        match copyToVa pml4 sp (wordBytes (BitVec.ofNat 64 args.length)) s with
        | (false, s) => (0, s)
        | (true, s) => (sp, s)

/-- `struct exec_image`. -/
structure ExecImage where
  pml4Phys : Word
  entry : Word
  userRsp : Word
  brkBase : Word

/-- The loop of `exec_build_image` that maps the segments; the results are
whether it succeeded and the end of the image. -/
def mapSegments (pml4 : Word) : List Phdr → Word → Vm → Bool × Word × Vm
  | [], imageEnd, s => (true, imageEnd, s)
  | ph :: phs, imageEnd, s =>
    let segEnd := ph.vaddr + BitVec.ofNat 64 ph.memsz
    let imageEnd := if imageEnd < segEnd then segEnd else imageEnd
    match mapZeroedRange pml4 ph.vaddr ph.memsz s with
    | (false, s) => (false, imageEnd, s)
    | (true, s) => mapSegments pml4 phs imageEnd s

/-- The copy loop for one segment; an unmapped address resolves to physical
address zero. -/
def fillSegment (pml4 : Word) (data : Nat → UInt8) (ph : Phdr) : Nat → Nat → Vm → Vm
  | 0, _, s => s
  | fuel + 1, done, s =>
    if ph.filesz ≤ done then s
    else
      let va := ph.vaddr + BitVec.ofNat 64 done
      let pa := pmapResolve s pml4 va
      let chunk := min (ph.filesz - done) (pageRoom va)
      let bytes := (List.range chunk).map fun j => data (ph.offset + done + j)
      fillSegment pml4 data ph fuel (done + chunk) (writeBytes bytes pa s)

/-- The program headers of type `PT_LOAD`. -/
def loadHeaders (data : Nat → UInt8) : List Phdr :=
  let ehdr := readEhdr data
  ((List.range ehdr.phnum).map fun i => readPhdr data (ehdr.phoff + i * phdrSize)).filter
    fun ph => ph.pType = ptLoad

/-- The header check of `exec_build_image`. -/
def elfOk (file : FileData) : Bool :=
  let ehdr := readEhdr file.data
  decide (ehdrSize ≤ file.size) && ehdr.magic == elfMagicVal && ehdr.eType == elfExec &&
    ehdr.machine == elfX8664

/-- `exec_build_image`, given what `vfs_resolve` found. -/
def execBuildImage (file : Option FileData) (argv : List (List UInt8)) (s : Vm) :
    Option ExecImage × Vm :=
  match file with
  | none => (none, s)
  | some file =>
    if elfOk file = false then (none, s)
    else
      match pmapCreate s with
      | (pml4, s) =>
        if pml4 = 0 then (none, s)
        else
          let phdrs := loadHeaders file.data
          match mapSegments pml4 phdrs 0 s with
          | (false, _, s) => (none, pmapDestroy s pml4)
          | (true, imageEnd, s) =>
            if phdrs = [] then (none, pmapDestroy s pml4)
            else
              let s := phdrs.foldl
                (fun s ph => fillSegment pml4 file.data ph ph.filesz 0 s) s
              match buildUserStack pml4 argv s with
              | (rsp, s) =>
                if rsp = 0 then (none, pmapDestroy s pml4)
                else
                  (some
                    { pml4Phys := pml4
                      entry := (readEhdr file.data).entry
                      userRsp := rsp
                      brkBase := (imageEnd + 0xFFF) &&& ~~~0xFFF }, s)

end Mmix.Proc
