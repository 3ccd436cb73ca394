import Mmix.Fs.Initrd

/-!
# What the loader of the ramdisk reads

The reads of `vfs_load_initrd` are recorded by their offsets in the archive, in the order of
the source: the octal field and the start of a header lie in its block, `strlen` reads up to
the first NUL behind the start of the name, `strncpy` at most 255 bytes, and `memcpy` as many
as the header says. A string that has no NUL in the archive is read at least at the offset of
its end; what is read after that is not recorded.
-/

namespace Mmix.Fs

open Split List

/-- The offsets of `tar_parse_octal`, from offset `i` on. -/
def octalReads : Nat → List UInt8 → List Nat
  | _, [] => []
  | i, ch :: rest => i :: if 48 ≤ ch ∧ ch ≤ 55 then octalReads (i + 1) rest else []

/-- The offsets of `strlen` on the string from `start` on. -/
def strlenReads (start : Nat) (bytes : List UInt8) : List Nat :=
  (List.range ((cstr bytes).length + 1)).map (start + ·)

/-- The offsets of `strncpy` on the string from `start` on. -/
def strncpyReads (start n : Nat) (bytes : List UInt8) : List Nat :=
  (List.range (min n ((cstr bytes).length + 1))).map (start + ·)

/-- The offsets of `memcpy`. -/
def memcpyReads (start n : Nat) : List Nat := (List.range n).map (start + ·)

/-- The bytes in front of the name that the loader skips. -/
def nameSkip (hdr : List UInt8) : Nat := if hdr.take 2 = ascii "./" then 2 else 0

/-- The header of a directory: the type says so, or the name ends with a separator. -/
def IsDirHeader (hdr : List UInt8) : Prop :=
  tarTypeflag hdr = 53 ∨ (tarName hdr).getLast? = some slash

instance (hdr : List UInt8) : Decidable (IsDirHeader hdr) := inferInstanceAs (Decidable (_ ∨ _))

/-- The header of a regular file. -/
def IsFileHeader (hdr : List UInt8) : Prop := tarTypeflag hdr = 48 ∨ tarTypeflag hdr = 0

instance (hdr : List UInt8) : Decidable (IsFileHeader hdr) := inferInstanceAs (Decidable (_ ∨ _))

/-- Whether the contents of a file are copied: the directories on its path are there, and there
is memory for its node and its contents. -/
def copies (s : Vfs) (root : NodePtr) (hdr : List UInt8) : Bool :=
  match vfsEnsurePath s root (splitPath ((tarName hdr).take (vfsMaxPath - 1))).1 with
  | (none, _) => false
  | (some _, s) =>
    match vfsCreateNode s (splitPath ((tarName hdr).take (vfsMaxPath - 1))).2 .file with
    | (none, _) => false
    | (some _, s) => (s.kmalloc (tarSize hdr)).1

/-- The offsets read in one pass of the loop, behind the test of `name[0]`. -/
def entryReads (s : Vfs) (root : NodePtr) (hdr : List UInt8) : List Nat :=
  let skip := nameSkip hdr
  let string := hdr.drop skip
  octalReads 124 ((hdr.drop 124).take 12) ++
    0 :: (if hdr.head? = some 46 then [1] else []) ++ skip ::
      if tarName hdr = [] then []
      else
        156 :: (if tarTypeflag hdr = 53 then []
            else strlenReads skip string ++ [skip + (tarName hdr).length - 1]) ++
          if IsDirHeader hdr then strncpyReads skip (vfsMaxPath - 1) string
          else if IsFileHeader hdr then
            strncpyReads skip (vfsMaxPath - 1) string ++
              if copies s root hdr then memcpyReads tarBlock (tarSize hdr) else []
          else []

/-- The offsets read by the loop, when its pointer is at offset `base`. -/
def loadReads : Nat → Vfs → NodePtr → List UInt8 → Nat → List Nat
  | 0, _, _, _, _ => []
  | passes + 1, s, root, ptr, base =>
    if ptr.length < tarBlock then []
    else
      base :: if ptr.head? = some 0 then []
        else
          (entryReads s root ptr).map (base + ·) ++
            if (loadEntry s root ptr).1 then
              loadReads passes (loadEntry s root ptr).2 root
                (ptr.drop (tarAdvance (tarSize ptr))) (base + tarAdvance (tarSize ptr))
            else []

/-- The offsets that `vfs_load_initrd` reads. -/
def initrdReads (s : Vfs) (archive : List UInt8) : List Nat :=
  let s := if s.root = none then vfsInit s else s
  match s.root with
  | none => []
  | some root => loadReads archive.length s root archive 0

/-- The reads of one pass that the header does not bound stay in the archive: there is a NUL
behind the start of a name whose length is taken, and a file that is copied is not longer than
the rest. -/
structure EntryInside (s : Vfs) (root : NodePtr) (hdr : List UInt8) : Prop where
  name : tarName hdr ≠ [] → tarTypeflag hdr ≠ 53 → 0 ∈ hdr.drop (nameSkip hdr)
  data : tarName hdr ≠ [] → ¬ IsDirHeader hdr → IsFileHeader hdr → copies s root hdr = true →
    tarBlock + tarSize hdr ≤ hdr.length

/-- Every header that the loop comes to keeps its reads in the archive. -/
def LoadInside : Nat → Vfs → NodePtr → List UInt8 → Prop
  | 0, _, _, _ => True
  | passes + 1, s, root, ptr =>
    tarBlock ≤ ptr.length → ptr.head? ≠ some 0 →
      EntryInside s root ptr ∧ ((loadEntry s root ptr).1 = true →
        LoadInside passes (loadEntry s root ptr).2 root (ptr.drop (tarAdvance (tarSize ptr))))

/-- The same for the whole archive. -/
def ArchiveInside (s : Vfs) (archive : List UInt8) : Prop :=
  ∀ root, (if s.root = none then vfsInit s else s).root = some root →
    LoadInside archive.length (if s.root = none then vfsInit s else s) root archive

section Entry

variable {s : Vfs} {root : NodePtr} {hdr : List UInt8} {base size : Nat}

theorem octalReads_lt {i : Nat} {bytes : List UInt8} :
    ∀ o ∈ octalReads i bytes, o < i + bytes.length := by
  induction bytes generalizing i with
  | nil => exact fun _ h => nomatch h
  | cons ch rest ih =>
    intro o ho
    rw [octalReads] at ho
    rcases mem_cons.mp ho with rfl | ho
    · simp
    · split at ho
      · have := ih o ho
        rw [length_cons]
        omega
      · cases ho

/-- Offsets in a row are inside exactly if the last one is. -/
theorem forall_offsets_lt {start n : Nat} :
    (∀ o ∈ (range n).map (start + ·), o < size) ↔ n = 0 ∨ start + n ≤ size := by
  simp only [forall_mem_map, mem_range]
  constructor
  · intro h
    cases n with
    | zero => exact .inl rfl
    | succ n => exact .inr (h n (Nat.lt_succ_self n))
  · rintro (rfl | hle) j hj
    · cases hj
    · omega

theorem length_cstr_lt_iff {bytes : List UInt8} :
    (cstr bytes).length < bytes.length ↔ 0 ∈ bytes := by
  induction bytes with
  | nil => exact iff_of_false (Nat.lt_irrefl _) not_mem_nil
  | cons ch rest ih =>
    rw [cstr, takeWhile_cons]
    by_cases hch : ch = 0
    · simp [hch]
    · have hne : (0 : UInt8) ≠ ch := fun h => hch h.symm
      simp only [hch, ne_eq, not_false_eq_true, decide_true, if_true, length_cons,
        Nat.add_lt_add_iff_right, mem_cons, hne, false_or]
      exact ih

theorem tarName_eq (hdr : List UInt8) : tarName hdr = cstr (hdr.drop (nameSkip hdr)) := by
  rw [tarName, nameSkip]
  split <;> rfl

theorem nameSkip_le (hdr : List UInt8) : nameSkip hdr ≤ 2 := by
  rw [nameSkip]
  split <;> decide

/-- `strlen` stays inside exactly if there is a NUL. -/
theorem strlenReads_inside (hskip : base ≤ hdr.length) :
    (∀ o ∈ strlenReads base (hdr.drop base), o < hdr.length) ↔ 0 ∈ hdr.drop base := by
  have hlen : (hdr.drop base).length = hdr.length - base := length_drop
  rw [strlenReads, forall_offsets_lt, ← length_cstr_lt_iff]
  omega

theorem strncpyReads_inside (hblock : tarBlock ≤ hdr.length) :
    ∀ o ∈ strncpyReads (nameSkip hdr) (vfsMaxPath - 1) (hdr.drop (nameSkip hdr)),
      o < hdr.length := by
  have hskip := nameSkip_le hdr
  have hmin := Nat.min_le_left (vfsMaxPath - 1)
    ((cstr (hdr.drop (nameSkip hdr))).length + 1)
  rw [strncpyReads, forall_offsets_lt]
  unfold vfsMaxPath at hmin ⊢
  unfold tarBlock at hblock
  omega

/-- The copies of a pass stay inside exactly if the contents that are copied do. -/
theorem copyReads_inside_iff (hblock : tarBlock ≤ hdr.length) :
    (∀ o ∈ (if IsDirHeader hdr then
          strncpyReads (nameSkip hdr) (vfsMaxPath - 1) (hdr.drop (nameSkip hdr))
        else if IsFileHeader hdr then
          strncpyReads (nameSkip hdr) (vfsMaxPath - 1) (hdr.drop (nameSkip hdr)) ++
            if copies s root hdr then memcpyReads tarBlock (tarSize hdr) else []
        else []), o < hdr.length) ↔
      (¬ IsDirHeader hdr → IsFileHeader hdr → copies s root hdr = true →
        tarBlock + tarSize hdr ≤ hdr.length) := by
  have hcopy := strncpyReads_inside hblock
  have hmem : (∀ o ∈ memcpyReads tarBlock (tarSize hdr), o < hdr.length) ↔
      tarBlock + tarSize hdr ≤ hdr.length := by
    rw [memcpyReads, forall_offsets_lt]
    unfold tarBlock at hblock ⊢
    omega
  by_cases hdir : IsDirHeader hdr
  · rw [if_pos hdir]
    exact iff_of_true hcopy fun h => absurd hdir h
  rw [if_neg hdir]
  by_cases hfile : IsFileHeader hdr
  · rw [if_pos hfile, forall_mem_append, and_iff_right hcopy]
    by_cases hcopies : copies s root hdr = true
    · rw [if_pos hcopies, hmem]
      exact ⟨fun h _ _ _ => h, fun h => h hdir hfile hcopies⟩
    · rw [if_neg hcopies]
      exact iff_of_true (fun _ h => nomatch h) fun _ _ h => absurd h hcopies
  · rw [if_neg hfile]
    exact iff_of_true (fun _ h => nomatch h) fun _ h => absurd h hfile

/-- The reads of the length of the name stay inside exactly if it is not taken or there is a
NUL. -/
theorem lengthReads_inside_iff (hblock : tarBlock ≤ hdr.length) (hname : tarName hdr ≠ []) :
    (∀ o ∈ (if tarTypeflag hdr = 53 then []
        else strlenReads (nameSkip hdr) (hdr.drop (nameSkip hdr)) ++
          [nameSkip hdr + (tarName hdr).length - 1]), o < hdr.length) ↔
      (tarTypeflag hdr ≠ 53 → 0 ∈ hdr.drop (nameSkip hdr)) := by
  have hskip : nameSkip hdr ≤ hdr.length :=
    Nat.le_trans (nameSkip_le hdr) (Nat.le_trans (by decide) hblock)
  by_cases htype : tarTypeflag hdr = 53
  · rw [if_pos htype]
    exact iff_of_true (fun _ h => nomatch h) fun h => absurd htype h
  rw [if_neg htype, forall_mem_append, strlenReads_inside hskip]
  constructor
  · exact fun h _ => h.1
  · intro h
    refine ⟨h htype, fun o ho => ?_⟩
    have hlen := length_cstr_lt_iff.mpr (h htype)
    have hpos := length_pos_of_ne_nil hname
    rw [mem_singleton.mp ho]
    rw [length_drop, ← tarName_eq] at hlen
    omega

/-- The reads of one pass stay inside exactly if those that the header does not bound do. -/
theorem entryReads_inside_iff (hblock : tarBlock ≤ hdr.length) :
    (∀ o ∈ entryReads s root hdr, o < hdr.length) ↔ EntryInside s root hdr := by
  have hskip := nameSkip_le hdr
  have h512 : 512 ≤ hdr.length := hblock
  have hoctal : ∀ o ∈ octalReads 124 ((hdr.drop 124).take 12), o < hdr.length := by
    intro o ho
    have hlt := octalReads_lt o ho
    have hlen : ((hdr.drop 124).take 12).length ≤ 12 := length_take_le _ _
    omega
  have hdot : ∀ o ∈ (if hdr.head? = some 46 then [1] else []), o < hdr.length := by
    intro o ho
    split at ho
    · rw [mem_singleton.mp ho]
      omega
    · cases ho
  have hhead : 0 < hdr.length ∧ nameSkip hdr < hdr.length ∧ 156 < hdr.length := by omega
  rw [entryReads]
  simp only [forall_mem_append, forall_mem_cons]
  rw [and_iff_right ⟨hoctal, hhead.1, hdot⟩, and_iff_right hhead.2.1]
  by_cases hname : tarName hdr = []
  · rw [if_pos hname]
    refine iff_of_true (fun _ h => nomatch h) ⟨fun h => absurd hname h, fun h => absurd hname h⟩
  · rw [if_neg hname, forall_mem_append, forall_mem_cons, and_iff_right hhead.2.2,
      lengthReads_inside_iff hblock hname, copyReads_inside_iff hblock]
    constructor
    · exact fun h => ⟨fun _ => h.1, fun _ => h.2⟩
    · exact fun h => ⟨h.name hname, h.data hname⟩

theorem loadReads_nil (passes : Nat) (s : Vfs) (root : NodePtr) (base : Nat) :
    loadReads passes s root [] base = [] := by
  cases passes <;> rfl

theorem loadInside_nil (passes : Nat) (s : Vfs) (root : NodePtr) :
    LoadInside passes s root [] := by
  cases passes with
  | zero => trivial
  | succ passes => exact fun h => absurd h (by decide)

/-- The reads of the loop stay inside exactly if each header it comes to keeps them there. -/
theorem loadReads_inside_iff {passes : Nat} {ptr : List UInt8} :
    (∀ o ∈ loadReads passes s root ptr base, o < base + ptr.length) ↔
      LoadInside passes s root ptr := by
  induction passes generalizing s ptr base with
  | zero => exact iff_of_true (fun _ h => nomatch h) trivial
  | succ passes ih =>
    rw [loadReads, LoadInside]
    by_cases hshort : ptr.length < tarBlock
    · rw [if_pos hshort]
      exact iff_of_true (fun _ h => nomatch h) fun h => absurd hshort (Nat.not_lt.mpr h)
    have hblock : tarBlock ≤ ptr.length := Nat.le_of_not_lt hshort
    have hpos : base < base + ptr.length := by
      unfold tarBlock at hblock
      omega
    rw [if_neg hshort, forall_mem_cons, and_iff_right hpos]
    by_cases hend : ptr.head? = some 0
    · rw [if_pos hend]
      exact iff_of_true (fun _ h => nomatch h) fun _ h => absurd hend h
    rw [if_neg hend, forall_mem_append]
    have hentry : (∀ o ∈ (entryReads s root ptr).map (base + ·), o < base + ptr.length) ↔
        EntryInside s root ptr := by
      rw [← entryReads_inside_iff hblock, forall_mem_map]
      exact forall₂_congr fun o _ => Nat.add_lt_add_iff_left
    have hrest : (∀ o ∈ (if (loadEntry s root ptr).1 then
          loadReads passes (loadEntry s root ptr).2 root
            (ptr.drop (tarAdvance (tarSize ptr))) (base + tarAdvance (tarSize ptr))
          else []), o < base + ptr.length) ↔ ((loadEntry s root ptr).1 = true →
        LoadInside passes (loadEntry s root ptr).2 root
          (ptr.drop (tarAdvance (tarSize ptr)))) := by
      by_cases hgoes : (loadEntry s root ptr).1 = true
      · rw [if_pos hgoes, forall_prop_of_true hgoes]
        by_cases hover : tarAdvance (tarSize ptr) ≤ ptr.length
        · have hsum : base + tarAdvance (tarSize ptr) +
              (ptr.drop (tarAdvance (tarSize ptr))).length = base + ptr.length := by
            rw [length_drop, Nat.add_assoc, Nat.add_sub_cancel' hover]
          rw [← hsum]
          exact ih
        · -- The next header would begin behind the end.
          rw [drop_of_length_le (Nat.le_of_not_le hover), loadReads_nil]
          exact iff_of_true (fun _ h => nomatch h) (loadInside_nil ..)
      · rw [if_neg hgoes]
        exact iff_of_true (fun _ h => nomatch h) fun h => absurd h hgoes
    rw [hentry, hrest]
    exact ⟨fun h _ _ => h, fun h => h hblock hend⟩

end Entry

/-- The loader stays inside of the archive exactly if every header it comes to has a NUL behind
the start of a name whose length is taken, and no file that is copied is longer than the rest. -/
theorem initrd_reads_inside_iff (s : Vfs) (archive : List UInt8) :
    (∀ o ∈ initrdReads s archive, o < archive.length) ↔ ArchiveInside s archive := by
  rw [initrdReads, ArchiveInside]
  cases hroot : (if s.root = none then vfsInit s else s).root with
  | none => exact iff_of_true (fun _ h => nomatch h) fun _ h => nomatch h
  | some root =>
    dsimp only
    rw [← Nat.zero_add archive.length, loadReads_inside_iff, Nat.zero_add]
    constructor
    · rintro h _ ⟨⟩
      exact h
    · exact fun h => h root rfl

/-- An archive of one header, for a file of one byte that is not there. -/
def cutArchive : List UInt8 :=
  ascii "a" ++ List.replicate 123 0 ++ ascii "00000000001" ++ List.replicate 21 0 ++ [48] ++
    List.replicate 355 0

/-- The byte behind the archive is copied. -/
theorem initrd_reads_behind_archive :
    cutArchive.length = 512 ∧ 512 ∈ initrdReads (Vfs.blank fun _ => true) cutArchive := by
  decide +kernel

end Mmix.Fs
