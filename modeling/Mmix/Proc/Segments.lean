import Mmix.Proc.Argv

/-!
# Loading the segments of a program

`exec_build_image` maps the pages of all segments and then copies the contents of
the file through the mapping. The number of pages is counted from the length of a
segment alone, so a segment that does not start at a page boundary may reach into one
page more than was counted. The segments are loaded faithfully exactly where every
page they reach was counted for one of them.
-/

namespace Mmix.Proc

open Mm Forest Overlay Tiling List

/-- The bytes of a segment that the file holds, from a position on. -/
def fileBytes (data : Nat → UInt8) (ph : Phdr) (done : Nat) : List UInt8 :=
  (List.range (ph.filesz - done)).map fun j => data (ph.offset + done + j)

section Fill

variable {s : Vm} {pml4 : Word} {data : Nat → UInt8} {ph : Phdr}

theorem fileBytes_length (data : Nat → UInt8) (ph : Phdr) (done : Nat) :
    (fileBytes data ph done).length = ph.filesz - done := by
  rw [fileBytes, length_map, length_range]

theorem fileBytes_getElem {i : Nat} (hi : i < ph.filesz) :
    (fileBytes data ph 0)[i]? = some (data (ph.offset + i)) := by
  rw [fileBytes, Nat.sub_zero, getElem?_map, getElem?_range hi]
  rfl

/-- The bytes of one round and those of the rounds after it. -/
theorem fileBytes_split {done chunk : Nat} (h : done + chunk ≤ ph.filesz) :
    ((range chunk).map fun j => data (ph.offset + done + j)) ++
      fileBytes data ph (done + chunk) = fileBytes data ph done := by
  have hsum : ph.filesz - done = chunk + (ph.filesz - (done + chunk)) := by omega
  rw [fileBytes, fileBytes, hsum, range_add, map_append, map_map]
  congr 1
  refine map_congr_left fun j _ => ?_
  simp only [Function.comp_apply, Nat.add_assoc]

/-- One round of the copy loop. -/
theorem fillSegment_succ (fuel : Nat) {done : Nat} (hdone : done < ph.filesz) :
    fillSegment pml4 data ph (fuel + 1) done s =
      fillSegment pml4 data ph fuel
        (done + min (ph.filesz - done) (pageRoom (ph.vaddr + BitVec.ofNat 64 done)))
        (writeBytes ((range (min (ph.filesz - done)
            (pageRoom (ph.vaddr + BitVec.ofNat 64 done)))).map fun j =>
              data (ph.offset + done + j))
          (pmapResolve s pml4 (ph.vaddr + BitVec.ofNat 64 done)) s) := by
  rw [fillSegment, if_neg (by omega)]

theorem pageRoom_pos (va : Word) : 0 < pageRoom va := by
  unfold pageRoom pageSize
  omega

/-- Bytes written through a user address change no table, also where nothing is mapped
and they go to physical address 0. -/
theorem sameTree_writeResolved {va : Word} {bytes : List UInt8}
    (hsep : Separated userFormat {frameOf pml4} s.mem)
    (hzero : ∀ p, ¬ Table userFormat {frameOf pml4} s.mem (frameOf pml4) p 0) (hva : UserVa va)
    (hroom : bytes.length ≤ pageRoom va) :
    SameTree pml4 s (writeBytes bytes (pmapResolve s pml4 va) s) := by
  unfold pageRoom pageSize at hroom
  cases hp : pageAt s pml4 va with
  | none =>
    rw [resolve_of_none hp]
    exact sameTree_writeBytes (by have : (0 : Word).toNat = 0 := rfl; omega) hzero
  | some f =>
    have hpa := resolve_of_pageAt hp
    have hframe : frameOf (pmapResolve s pml4 va) = f := by
      unfold frameOf pageSize
      omega
    refine sameTree_writeBytes (by omega) fun p ht => ?_
    rw [hframe] at ht
    exact hsep.leaf_ne_table ht ((leaf_iff_pageAt hva).mpr hp)

/-- The loop changes no table. -/
theorem fillSegment_sameTree {fuel done : Nat}
    (hsep : Separated userFormat {frameOf pml4} s.mem)
    (hzero : ∀ p, ¬ Table userFormat {frameOf pml4} s.mem (frameOf pml4) p 0)
    (hend : ph.vaddr.toNat + ph.filesz ≤ 2 ^ 47) :
    SameTree pml4 s (fillSegment pml4 data ph fuel done s) := by
  induction fuel generalizing done s with
  | zero => exact SameTree.refl pml4 s
  | succ fuel ih =>
    by_cases hdone : ph.filesz ≤ done
    · rw [fillSegment, if_pos hdone]
      exact SameTree.refl pml4 s
    · rw [fillSegment_succ fuel (by omega)]
      have hto := toNat_add_ofNat (show ph.vaddr.toNat + done < 2 ^ 64 by omega)
      have huser : UserVa (ph.vaddr + BitVec.ofNat 64 done) := userVa_of_lt (by omega)
      have hone := sameTree_writeResolved hsep hzero huser
        (show ((range (min (ph.filesz - done)
          (pageRoom (ph.vaddr + BitVec.ofNat 64 done)))).map fun j =>
            data (ph.offset + done + j)).length ≤ _ by
          rw [length_map, length_range]
          exact Nat.min_le_right _ _)
      refine hone.trans (ih (hone.separated hsep) fun p ht => hzero p ?_)
      exact (reach_congr hone.node_eq (by decide) _ _ _).mp ht

/-- Through pages of its own the loop copies all bytes that the file holds. -/
theorem fillSegment_writes {fuel done : Nat}
    (hsep : Separated userFormat {frameOf pml4} s.mem) (hfuel : ph.filesz ≤ done + fuel)
    (hend : ph.vaddr.toNat + ph.filesz ≤ 2 ^ 47)
    (howns : ∀ i < ph.filesz, Owns s pml4 (ph.vaddr + BitVec.ofNat 64 i)) :
    Writes pml4 (ph.vaddr.toNat + done) (fileBytes data ph done) s
      (fillSegment pml4 data ph fuel done s) := by
  have hnil : ∀ {done}, ph.filesz ≤ done → fileBytes data ph done = [] := by
    intro done hle
    rw [fileBytes, Nat.sub_eq_zero_of_le hle]
    rfl
  induction fuel generalizing done s with
  | zero =>
    rw [hnil (show ph.filesz ≤ done from hfuel)]
    exact Writes.refl _ _ _
  | succ fuel ih =>
    by_cases hdone : ph.filesz ≤ done
    · rw [fillSegment, if_pos hdone, hnil hdone]
      exact Writes.refl _ _ _
    · rw [fillSegment_succ fuel (by omega)]
      obtain ⟨hsole, f, hf, hp⟩ := howns done (by omega)
      have hto := toNat_add_ofNat (show ph.vaddr.toNat + done < 2 ^ 64 by omega)
      have hpos := pageRoom_pos (ph.vaddr + BitVec.ofNat 64 done)
      have hone := writes_page hsep (by omega) hp hf hsole
        (show ((range (min (ph.filesz - done)
          (pageRoom (ph.vaddr + BitVec.ofNat 64 done)))).map fun j =>
            data (ph.offset + done + j)).length ≤ _ by
          rw [length_map, length_range]
          exact Nat.min_le_right _ _)
      generalize hc : min (ph.filesz - done) (pageRoom (ph.vaddr + BitVec.ofNat 64 done)) = chunk
        at hone
      rw [hto] at hone
      have hrest := ih (hone.separated hsep) (show ph.filesz ≤ done + chunk + fuel by omega)
        fun i hi => hone.owns (userVa_of_lt (by rw [toNat_add_ofNat (by omega)]; omega))
          (howns i hi)
      rw [← fileBytes_split (show done + chunk ≤ ph.filesz by omega)]
      refine hone.trans ?_
      rwa [length_map, length_range, Nat.add_assoc]

/-- The loop over all segments changes no table. -/
theorem fills_sameTree {phs : List Phdr} (hsep : Separated userFormat {frameOf pml4} s.mem)
    (hzero : ∀ p, ¬ Table userFormat {frameOf pml4} s.mem (frameOf pml4) p 0)
    (hend : ∀ ph ∈ phs, ph.vaddr.toNat + ph.filesz ≤ 2 ^ 47) :
    SameTree pml4 s (phs.foldl (fun s ph => fillSegment pml4 data ph ph.filesz 0 s) s) := by
  induction phs generalizing s with
  | nil => exact SameTree.refl pml4 s
  | cons ph phs ih =>
    have hone : SameTree pml4 s (fillSegment pml4 data ph ph.filesz 0 s) :=
      fillSegment_sameTree hsep hzero (hend ph mem_cons_self)
    refine hone.trans (ih (hone.separated hsep) (fun p ht => hzero p ?_)
      fun ph' hph' => hend ph' (mem_cons_of_mem ph hph'))
    exact (reach_congr hone.node_eq (by decide) _ _ _).mp ht

/-- The segments as lists to be written. -/
def filePieces (data : Nat → UInt8) (phs : List Phdr) : List (Nat × List UInt8) :=
  phs.map fun ph => (ph.vaddr.toNat, fileBytes data ph 0)

/-- Through pages of their own all segments are copied. -/
theorem fills_view {phs : List Phdr} (hsep : Separated userFormat {frameOf pml4} s.mem)
    (hend : ∀ ph ∈ phs, ph.vaddr.toNat + ph.filesz ≤ 2 ^ 47)
    (howns : ∀ ph ∈ phs, ∀ i < ph.filesz, Owns s pml4 (ph.vaddr + BitVec.ofNat 64 i))
    {a : Nat} (ha : a < 2 ^ 47) :
    userByte (phs.foldl (fun s ph => fillSegment pml4 data ph ph.filesz 0 s) s) pml4 a =
      overlays (filePieces data phs) (userByte s pml4) a := by
  induction phs generalizing s with
  | nil => rfl
  | cons ph phs ih =>
    have hone : Writes pml4 (ph.vaddr.toNat + 0) (fileBytes data ph 0) s
        (fillSegment pml4 data ph ph.filesz 0 s) :=
      fillSegment_writes hsep (Nat.le_add_left _ _) (hend ph mem_cons_self)
        (howns ph mem_cons_self)
    rw [Nat.add_zero] at hone
    rw [foldl_cons, ih (hone.separated hsep)
      (fun ph' h => hend ph' (mem_cons_of_mem ph h)) fun ph' h i hi => ?_]
    · exact overlays_congr (hone.view a ha)
    · have hmem := mem_cons_of_mem ph h
      have hle := hend ph' hmem
      refine hone.owns (userVa_of_lt ?_) (howns ph' hmem i hi)
      rw [toNat_add_ofNat (by omega)]
      omega

end Fill

section Untouched

variable {s₀ s : Vm} {D : Set (List Idx)} {pml4 va : Word}

/-- Mapping fresh pages leaves the other pages where they are. -/
theorem Mapped.pageAt_eq (h : Mapped s₀ (frameOf pml4) D s) (hva : UserVa va)
    (hD : pagePath va ∉ D) : pageAt s pml4 va = pageAt s₀ pml4 va := by
  ext f
  rw [← leaf_iff_pageAt hva, ← leaf_iff_pageAt hva]
  exact h.old hD

/-- What can be read there stays. -/
theorem Mapped.userByte_eq (h : Mapped s₀ (frameOf pml4) D s)
    (hsep : Separated userFormat {frameOf pml4} s₀.mem) (hfree : FreeApart {frameOf pml4} s₀)
    {a : Nat} (ha : a < 2 ^ 47) (hD : pagePath (BitVec.ofNat 64 a) ∉ D) :
    userByte s pml4 a = userByte s₀ pml4 a := by
  have huser : UserVa (BitVec.ofNat 64 a) := userVa_of_lt (by rw [BitVec.toNat_ofNat]; omega)
  have hpage := h.pageAt_eq huser hD
  have hres : pmapResolve s pml4 (BitVec.ofNat 64 a) = pmapResolve s₀ pml4 (BitVec.ofNat 64 a) :=
    pmapResolve_congr hpage
  simp only [userByte, hres]
  cases hp : pageAt s₀ pml4 (BitVec.ofNat 64 a) with
  | none => rw [resolve_of_none hp, if_pos rfl, if_pos rfl]
  | some f =>
    have hleaf := (leaf_iff_pageAt huser).mpr hp
    have hrow : s.mem f = s₀.mem f := h.kept f (fun hc => hfree.apart f hc _ _ hleaf.reach)
      fun p ht => hsep.leaf_ne_table ht hleaf
    have hframe : (pmapResolve s₀ pml4 (BitVec.ofNat 64 a)).toNat / pageSize = f := by
      rw [resolve_of_pageAt hp]
      unfold pageSize
      omega
    rw [byteAt, byteAt, hframe, hrow]

/-- A fresh page reads as zero, and belongs to the address alone. -/
theorem Mapped.userByte_fresh (h : Mapped s₀ (frameOf pml4) D s) (hzero : ¬ s₀.pmm.Free 0)
    {a : Nat} (ha : a < 2 ^ 47) (hD : pagePath (BitVec.ofNat 64 a) ∈ D) :
    userByte s pml4 a = some 0 ∧ Owns s pml4 (BitVec.ofNat 64 a) := by
  have huser : UserVa (BitVec.ofNat 64 a) := userVa_of_lt (by rw [BitVec.toNat_ofNat]; omega)
  obtain ⟨f, hleaf, hfresh, hrow⟩ := h.page _ hD
  have hp := (leaf_iff_pageAt huser).mp hleaf
  have hf : f ≠ 0 := by
    rintro rfl
    exact hzero hfresh
  have hpa := resolve_of_pageAt hp
  have hframe : (pmapResolve s pml4 (BitVec.ofNat 64 a)).toNat / pageSize = f := by
    rw [hpa]
    unfold pageSize
    omega
  have hne : pmapResolve s pml4 (BitVec.ofNat 64 a) ≠ 0 := by
    intro hz
    rw [hz] at hpa
    have : (0 : Word).toNat = 0 := rfl
    omega
  refine ⟨?_, sole_of_mapped h huser hD, f, hf, hp⟩
  simp only [userByte]
  rw [if_neg hne, byteAt, hframe, hrow, getByte_zero]

/-- The arguments are written above the segments only. -/
theorem StackWritten.userByte_below {sp : Word} {args : List (List UInt8)} {addrs : List Word}
    {strings vector : Nat} {s₁ s₂ s₃ s' : Vm}
    (h : StackWritten pml4 sp args addrs strings vector s s₁ s₂ s₃ s')
    (hsep : Separated userFormat {frameOf pml4} s.mem) (hfree : FreeApart {frameOf pml4} s)
    {a : Nat} (ha : a < 0x6FFF0000) : userByte s' pml4 a = userByte s pml4 a := by
  have hto : (BitVec.ofNat 64 a).toNat = a := by
    rw [BitVec.toNat_ofNat]
    omega
  have hout : pagePath (BitVec.ofNat 64 a) ∉ rangePaths stackBase 16 := by
    rw [mem_stack_iff (by omega) 16 le_rfl, hto]
    omega
  rw [← h.stack.userByte_eq hsep hfree (by omega) hout]
  have hvend := h.vector_end
  have hcend := h.argc_end
  have hlow := h.low
  rw [h.argc_written.view a (by omega), overlay_outside (by omega),
    h.vector_written.view a (by omega), overlay_outside (by omega),
    h.strings_written.view a (by omega), overlay_outside (by omega)]

end Untouched

section Map

variable {s₀ s s' : Vm} {r : Nat} {D : Set (List Idx)} {pml4 va : Word}

/-- The number of pages that are counted for a segment. -/
def segPages (ph : Phdr) : Nat := (ph.memsz + 4095) / 4096

/-- The places of the pages that are counted for the segments. -/
def segPaths (phs : List Phdr) : Set (List Idx) :=
  {p | ∃ ph ∈ phs, p ∈ rangePaths ph.vaddr (segPages ph)}

theorem segPaths_nil : segPaths [] = ∅ :=
  Set.eq_empty_of_forall_notMem fun _ hp => not_mem_nil hp.choose_spec.1

theorem segPaths_cons (ph : Phdr) (phs : List Phdr) :
    segPaths (ph :: phs) = rangePaths ph.vaddr (segPages ph) ∪ segPaths phs := by
  ext p
  constructor
  · rintro ⟨ph', hmem, hp⟩
    rcases mem_cons.mp hmem with rfl | hmem
    · exact Or.inl hp
    · exact Or.inr ⟨ph', hmem, hp⟩
  · rintro (hp | ⟨ph', hmem, hp⟩)
    · exact ⟨ph, mem_cons_self, hp⟩
    · exact ⟨ph', mem_cons_of_mem ph hmem, hp⟩

theorem mapFresh_of_full (hfull : ∀ f, ¬ s.pmm.Free f) (pages : Nat) :
    mapFresh pml4 pages va s = (decide (pages = 0), s) := by
  cases pages with
  | zero => rfl
  | succ pages =>
    obtain ⟨s₁, hs₁⟩ := (allocFrame_none_iff s).mpr hfull
    rw [mapFresh, hs₁, allocFrame_none hs₁]
    rfl

theorem mapZeroedRange_eq {ph : Phdr} (hend : ph.vaddr.toNat + ph.memsz ≤ 0x6FFF0000) :
    mapZeroedRange pml4 ph.vaddr ph.memsz s = mapFresh pml4 (segPages ph) ph.vaddr s := by
  have hmod : (ph.memsz + pageSize - 1) % 2 ^ 64 / pageSize = segPages ph := by
    unfold pageSize segPages
    omega
  rw [mapZeroedRange, hmod]

theorem mapSegments_of_full {phs : List Phdr} {e e' : Word} (hfull : ∀ f, ¬ s.pmm.Free f)
    (hend : ∀ ph ∈ phs, ph.vaddr.toNat + ph.memsz ≤ 0x6FFF0000)
    (hrun : mapSegments pml4 phs e s = (true, e', s')) : s' = s := by
  induction phs generalizing e with
  | nil => exact (Prod.mk.inj (Prod.mk.inj hrun).2).2.symm
  | cons ph phs ih =>
    simp only [mapSegments, mapZeroedRange_eq (hend ph mem_cons_self),
      mapFresh_of_full hfull] at hrun
    cases hz : decide (segPages ph = 0) with
    | false =>
      rw [hz] at hrun
      cases hrun
    | true =>
      rw [hz] at hrun
      exact ih (fun ph' h => hend ph' (mem_cons_of_mem ph h)) hrun

/-- The loop over the segments maps all counted pages, or no page is left. -/
theorem mapSegments_mapped {phs : List Phdr} {e e' : Word} (h : Mapped s₀ r D s)
    (hr : frameOf pml4 = r) (hend : ∀ ph ∈ phs, ph.vaddr.toNat + ph.memsz ≤ 0x6FFF0000)
    (hrun : mapSegments pml4 phs e s = (true, e', s')) :
    Mapped s₀ r (D ∪ segPaths phs) s' ∨ ∀ f, ¬ s'.pmm.Free f := by
  induction phs generalizing e s D with
  | nil =>
    obtain rfl := (Prod.mk.inj (Prod.mk.inj hrun).2).2
    left
    rwa [segPaths_nil, Set.union_empty]
  | cons ph phs ih =>
    have hfirst := hend ph mem_cons_self
    have hrest : ∀ ph' ∈ phs, ph'.vaddr.toNat + ph'.memsz ≤ 0x6FFF0000 :=
      fun ph' h => hend ph' (mem_cons_of_mem ph h)
    simp only [mapSegments, mapZeroedRange_eq hfirst] at hrun
    cases hmap : mapFresh pml4 (segPages ph) ph.vaddr s with
    | mk ok s₁ =>
      rw [hmap] at hrun
      cases ok with
      | false => cases hrun
      | true =>
        have hrange : UserRange ph.vaddr (segPages ph) :=
          userRange_of_le (by unfold segPages; omega)
        rcases mapFresh_mapped h hr hrange hmap with ⟨-, hm⟩ | ⟨n, -, -, hfull, -⟩
        · rw [segPaths_cons, ← Set.union_assoc]
          exact ih hm hrest hrun
        · right
          rw [mapSegments_of_full hfull hrest hrun]
          exact hfull

end Map

section Exec

variable {s s' : Vm} {file : FileData} {argv : List (List UInt8)} {img : ExecImage}

/-- The steps of a successful `exec_build_image`. -/
theorem execBuildImage_some (hrun : execBuildImage (some file) argv s = (some img, s')) :
    ∃ s₁ imageEnd s₂, pmapCreate s = (img.pml4Phys, s₁) ∧ img.pml4Phys ≠ 0 ∧
      mapSegments img.pml4Phys (loadHeaders file.data) 0 s₁ = (true, imageEnd, s₂) ∧
      buildUserStack img.pml4Phys argv ((loadHeaders file.data).foldl
        (fun s ph => fillSegment img.pml4Phys file.data ph ph.filesz 0 s) s₂) =
          (img.userRsp, s') ∧ img.userRsp ≠ 0 := by
  unfold execBuildImage at hrun
  dsimp only at hrun
  split at hrun
  · cases hrun
  · cases hc : pmapCreate s with
    | mk pml4 s₁ =>
      rw [hc] at hrun
      dsimp only at hrun
      split at hrun
      · cases hrun
      next hpml4 =>
        cases hm : mapSegments pml4 (loadHeaders file.data) 0 s₁ with
        | mk ok rest =>
          obtain ⟨imageEnd, s₂⟩ := rest
          rw [hm] at hrun
          cases ok with
          | false => cases hrun
          | true =>
            dsimp only at hrun
            split at hrun
            · cases hrun
            · cases hb : buildUserStack pml4 argv ((loadHeaders file.data).foldl
                  (fun s ph => fillSegment pml4 file.data ph ph.filesz 0 s) s₂) with
              | mk rsp s₃ =>
                rw [hb] at hrun
                dsimp only at hrun
                split at hrun
                · cases hrun
                next hrsp =>
                  obtain ⟨himg, rfl⟩ := Prod.mk.inj hrun
                  cases himg
                  exact ⟨s₁, imageEnd, s₂, rfl, hpml4, hm, hb, hrsp⟩

/-- The addresses of a segment. -/
def segSpan (ph : Phdr) : Span := ⟨ph.vaddr.toNat, ph.vaddr.toNat + ph.memsz⟩

/-- A well-formed executable: the headers and the contents of the segments lie in the
file, and the segments lie below the stack and apart from each other. -/
structure WellFormedElf (file : FileData) : Prop where
  headers : (readEhdr file.data).phoff + (readEhdr file.data).phnum * phdrSize ≤ file.size
  contents : ∀ ph ∈ loadHeaders file.data, ph.offset + ph.filesz ≤ file.size
  sizes : ∀ ph ∈ loadHeaders file.data, ph.filesz ≤ ph.memsz
  below : ∀ ph ∈ loadHeaders file.data, (segSpan ph).Within ⟨0, stackBase.toNat⟩
  congruent : ∀ ph ∈ loadHeaders file.data, ph.vaddr.toNat % pageSize = ph.offset % pageSize
  apart : (loadHeaders file.data).Pairwise fun ph ph' => (segSpan ph).Apart (segSpan ph')

/-- Every address of every segment is mapped and reads as the file says. -/
def SegmentsLoaded (s : Vm) (pml4 : Word) (file : FileData) : Prop :=
  ∀ ph ∈ loadHeaders file.data, ∀ i < ph.memsz,
    userByte s pml4 (ph.vaddr.toNat + i) =
      some (if i < ph.filesz then file.data (ph.offset + i) else 0)

/-- Every page that a segment reaches is counted for one of the segments. -/
def PagesCounted (phs : List Phdr) : Prop :=
  ∀ ph ∈ phs, ∀ i < ph.memsz, ∃ ph' ∈ phs,
    ph'.vaddr.toNat / 4096 ≤ (ph.vaddr.toNat + i) / 4096 ∧
      (ph.vaddr.toNat + i) / 4096 < ph'.vaddr.toNat / 4096 + segPages ph'

instance (phs : List Phdr) : Decidable (PagesCounted phs) :=
  inferInstanceAs (Decidable (∀ ph ∈ phs, ∀ i < ph.memsz, ∃ ph' ∈ phs, _ ∧ _))

theorem WellFormedElf.end_le (h : WellFormedElf file) :
    ∀ ph ∈ loadHeaders file.data, ph.vaddr.toNat + ph.memsz ≤ 0x6FFF0000 :=
  fun ph hph => (h.below ph hph).2

/-- The places of the counted pages, by addresses. -/
theorem mem_segPaths {phs : List Phdr} {a : Nat}
    (hend : ∀ ph ∈ phs, ph.vaddr.toNat + ph.memsz ≤ 0x6FFF0000) (ha : a < 2 ^ 47) :
    pagePath (BitVec.ofNat 64 a) ∈ segPaths phs ↔ ∃ ph ∈ phs,
      ph.vaddr.toNat / 4096 ≤ a / 4096 ∧ a / 4096 < ph.vaddr.toNat / 4096 + segPages ph := by
  have hto : (BitVec.ofNat 64 a).toNat = a := by
    rw [BitVec.toNat_ofNat]
    omega
  have hiff : ∀ ph ∈ phs, (pagePath (BitVec.ofNat 64 a) ∈ rangePaths ph.vaddr (segPages ph) ↔
      ph.vaddr.toNat / 4096 ≤ a / 4096 ∧ a / 4096 < ph.vaddr.toNat / 4096 + segPages ph) := by
    intro ph hph
    have := hend ph hph
    rw [mem_rangePaths (by unfold segPages; omega) (by omega), hto]
  constructor
  · rintro ⟨ph, hph, hp⟩
    exact ⟨ph, hph, (hiff ph hph).mp hp⟩
  · rintro ⟨ph, hph, hp⟩
    exact ⟨ph, hph, (hiff ph hph).mpr hp⟩

/-- What a successful `exec_build_image` has done to the new address space below its
stack: the counted pages are mapped, and then the segments are copied. -/
structure ImageBuilt (file : FileData) (pml4 : Word) (s₁ s₂ s₃ s' : Vm) : Prop where
  bare : ∀ va, UserVa va → pageAt s₁ pml4 va = none
  zero_used : ¬ s₁.pmm.Free 0
  segments : Mapped s₁ (frameOf pml4) (segPaths (loadHeaders file.data)) s₂
  filled : s₃ = (loadHeaders file.data).foldl
    (fun s ph => fillSegment pml4 file.data ph ph.filesz 0 s) s₂
  tree : SameTree pml4 s₂ s₃
  below : ∀ a < 0x6FFF0000, userByte s' pml4 a = userByte s₃ pml4 a

/-- The copies take no page from the allocator. -/
theorem writeBytes_pmm (bytes : List UInt8) (phys : Word) (s : Vm) :
    (writeBytes bytes phys s).pmm = s.pmm := by
  induction bytes generalizing phys s with
  | nil => rfl
  | cons byte bytes ih => exact ih (phys + 1) (writeByte s phys byte)

theorem fillSegment_pmm (pml4 : Word) (data : Nat → UInt8) (ph : Phdr) (fuel done : Nat) (s : Vm) :
    (fillSegment pml4 data ph fuel done s).pmm = s.pmm := by
  induction fuel generalizing done s with
  | zero => rfl
  | succ fuel ih =>
    by_cases hdone : ph.filesz ≤ done
    · rw [fillSegment, if_pos hdone]
    · rw [fillSegment_succ fuel (by omega), ih, writeBytes_pmm]

theorem fills_pmm (pml4 : Word) (data : Nat → UInt8) (phs : List Phdr) (s : Vm) :
    (phs.foldl (fun s ph => fillSegment pml4 data ph ph.filesz 0 s) s).pmm = s.pmm := by
  induction phs generalizing s with
  | nil => rfl
  | cons ph phs ih => exact (ih _).trans (fillSegment_pmm pml4 data ph ph.filesz 0 s)

/-- Without a free page no stack is built. -/
theorem buildUserStack_of_full {pml4 : Word} (hfull : ∀ f, ¬ s.pmm.Free f) :
    (buildUserStack pml4 argv s).1 = 0 := by
  have hmap : mapZeroedRange pml4 (userStackTop - BitVec.ofNat 64 (userStackPages * pageSize))
      (userStackPages * pageSize) s = (false, s) := mapFresh_of_full hfull 16
  rw [buildUserStack, hmap]

/-- A new address space: its root is not frame 0, and nothing is mapped. -/
theorem pmapCreate_bare {pml4 : Word} {s₁ : Vm} (htotal : s.pmm.totalPages ≤ 2 ^ 40)
    (hcreate : pmapCreate s = (pml4, s₁)) (hpml4 : pml4 ≠ 0) :
    Separated userFormat {frameOf pml4} s₁.mem ∧ FreeApart {frameOf pml4} s₁ ∧
      ¬ s₁.pmm.Free 0 ∧
      ∀ {levels p f}, Reach userFormat {frameOf pml4} s₁.mem levels (frameOf pml4) p f →
        p = [] ∧ f ≠ 0 := by
  obtain ⟨page, hpage, hg, honly⟩ := Grown.pmapCreate htotal hcreate hpml4
  have hne : page ≠ 0 := by
    rintro rfl
    unfold pmapCreate at hcreate
    cases halloc : allocFrame s with
    | mk got s₂ =>
      rw [halloc] at hcreate
      cases got with
      | none => exact hpml4 (Prod.mk.inj hcreate).1.symm
      | some got =>
        have hlt : got < 2 ^ 40 := (allocFrame_some halloc).1.1.trans_le htotal
        obtain ⟨rfl, -⟩ := Prod.mk.inj hcreate
        rw [frameOf_physOf hlt] at hpage
        exact hpml4 ((physOf_eq_zero hlt).mpr hpage)
  subst hpage
  refine ⟨hg.separated, hg.freeApart, hg.zero, fun {levels p f} h => ?_⟩
  obtain rfl := honly h
  obtain rfl := Option.some.inj h.at_path
  exact ⟨rfl, hne⟩

theorem SameTree.freeApart {pml4 : Word} (h : SameTree pml4 s s')
    (hfree : FreeApart {frameOf pml4} s) : FreeApart {frameOf pml4} s' := by
  refine ⟨by rw [h.pmm]; exact hfree.total_le, fun f hf r p hp => ?_⟩
  rw [h.pmm] at hf
  exact hfree.apart f hf r p ((reach_congr h.node_eq le_rfl r p f).mp hp)

theorem execBuildImage_built (hwf : WellFormedElf file) (htotal : s.pmm.totalPages ≤ 2 ^ 40)
    (hrun : execBuildImage (some file) argv s = (some img, s')) :
    ∃ s₁ s₂ s₃, ImageBuilt file img.pml4Phys s₁ s₂ s₃ s' := by
  obtain ⟨s₁, imageEnd, s₂, hcreate, hpml4, hmap, hstack, hrsp⟩ := execBuildImage_some hrun
  generalize img.pml4Phys = pml4 at *
  obtain ⟨hsep, hfree, hzero, honly⟩ := pmapCreate_bare htotal hcreate hpml4
  have hbare : ∀ va, UserVa va → pageAt s₁ pml4 va = none := by
    intro va hva
    cases hp : pageAt s₁ pml4 va with
    | none => rfl
    | some f =>
      have hleaf := (leaf_iff_pageAt hva).mpr hp
      have hlen := hleaf.length_eq
      rw [(honly hleaf.reach).1] at hlen
      cases hlen
  have hend := hwf.end_le
  rcases mapSegments_mapped (Mapped.refl hsep hfree) rfl hend hmap with hm | hfull
  · rw [Set.empty_union] at hm
    have htable : ∀ p, ¬ Table userFormat {frameOf pml4} s₂.mem (frameOf pml4) p 0 := by
      intro p ht
      rcases hm.newTable ht with ht | hc
      · exact (honly ht).2 rfl
      · exact hzero hc
    have hfile : ∀ ph ∈ loadHeaders file.data, ph.vaddr.toNat + ph.filesz ≤ 2 ^ 47 := by
      intro ph hph
      have := hwf.sizes ph hph
      have := hend ph hph
      omega
    have htree : SameTree pml4 s₂ ((loadHeaders file.data).foldl
        (fun s ph => fillSegment pml4 file.data ph ph.filesz 0 s) s₂) :=
      fills_sameTree hm.separated htable hfile
    have hempty : ∀ va : Word, stackBase.toNat ≤ va.toNat → va.toNat < userStackTop.toNat →
        pageAt ((loadHeaders file.data).foldl
          (fun s ph => fillSegment pml4 file.data ph ph.filesz 0 s) s₂) pml4 va = none := by
      intro va hlow hhigh
      rw [stackBase_toNat] at hlow
      rw [userStackTop_toNat] at hhigh
      have huser : UserVa va := userVa_of_lt (by omega)
      rw [htree.pageAt huser, hm.pageAt_eq huser, hbare va huser]
      have hva : va = BitVec.ofNat 64 va.toNat :=
        BitVec.eq_of_toNat_eq (by rw [BitVec.toNat_ofNat]; omega)
      rw [hva, mem_segPaths hend (by omega)]
      rintro ⟨ph, hph, -, hlt⟩
      have := hend ph hph
      unfold segPages at hlt
      omega
    obtain ⟨addrs, strings, vector, t₁, t₂, t₃, hw⟩ := buildUserStack_written
      (htree.separated hm.separated) (htree.freeApart hm.freeApart) hempty hstack hrsp
    exact ⟨s₁, s₂, _, hbare, hzero, hm, rfl, htree, fun a ha =>
      hw.userByte_below (htree.separated hm.separated) (htree.freeApart hm.freeApart) ha⟩
  · refine absurd ((congrArg Prod.fst hstack).symm.trans ?_) hrsp
    refine buildUserStack_of_full fun f => ?_
    rw [fills_pmm]
    exact hfull f

namespace ImageBuilt

variable {pml4 : Word} {s₁ s₂ s₃ : Vm}

/-- Where a byte can be read below the stack, a page was counted. -/
theorem mem_of_userByte (h : ImageBuilt file pml4 s₁ s₂ s₃ s') {a : Nat} {byte : UInt8}
    (ha : a < 0x6FFF0000) (hbyte : userByte s' pml4 a = some byte) :
    pagePath (BitVec.ofNat 64 a) ∈ segPaths (loadHeaders file.data) := by
  have huser : UserVa (BitVec.ofNat 64 a) := userVa_of_lt (by rw [BitVec.toNat_ofNat]; omega)
  by_contra hout
  have hnone : pageAt s₃ pml4 (BitVec.ofNat 64 a) = none := by
    rw [h.tree.pageAt huser, h.segments.pageAt_eq huser hout, h.bare _ huser]
  rw [h.below a ha, userByte, resolve_of_none hnone] at hbyte
  cases hbyte

/-- Below the stack the memory shows the segments over zeros, if their pages are
counted. -/
theorem view (h : ImageBuilt file pml4 s₁ s₂ s₃ s') (hwf : WellFormedElf file)
    (hcount : PagesCounted (loadHeaders file.data)) {ph : Phdr}
    (hph : ph ∈ loadHeaders file.data) {i : Nat} (hi : i < ph.memsz) :
    userByte s' pml4 (ph.vaddr.toNat + i) =
      overlays (filePieces file.data (loadHeaders file.data)) (fun _ => some 0)
        (ph.vaddr.toNat + i) := by
  have hfresh : ∀ ph' ∈ loadHeaders file.data, ∀ j < ph'.memsz,
      userByte s₂ pml4 (ph'.vaddr.toNat + j) = some 0 ∧
        Owns s₂ pml4 (BitVec.ofNat 64 (ph'.vaddr.toNat + j)) := by
    intro ph' hph' j hj
    have hle := hwf.end_le ph' hph'
    refine h.segments.userByte_fresh h.zero_used (by omega) ?_
    exact (mem_segPaths hwf.end_le (by omega)).mpr (hcount ph' hph' j hj)
  have hle := hwf.end_le ph hph
  rw [h.below _ (by omega), h.filled, fills_view h.segments.separated (fun ph' hph' => ?_)
    (fun ph' hph' j hj => ?_) (by omega)]
  · exact overlays_congr (hfresh ph hph i hi).1
  · have := hwf.sizes ph' hph'
    have := hwf.end_le ph' hph'
    omega
  · have hsize := hwf.sizes ph' hph'
    have hle' := hwf.end_le ph' hph'
    have hva : ph'.vaddr + BitVec.ofNat 64 j = BitVec.ofNat 64 (ph'.vaddr.toNat + j) := by
      apply BitVec.eq_of_toNat_eq
      rw [toNat_add_ofNat (by omega), BitVec.toNat_ofNat]
      omega
    rw [hva]
    exact (hfresh ph' hph' j (by omega)).2

end ImageBuilt

/-- Of two segments at one address, both are the same. -/
theorem WellFormedElf.eq_or_outside (h : WellFormedElf file) {ph ph' : Phdr}
    (hph : ph ∈ loadHeaders file.data) (hph' : ph' ∈ loadHeaders file.data) {i : Nat}
    (hi : i < ph.memsz) : ph' = ph ∨ ph.vaddr.toNat + i < ph'.vaddr.toNat ∨
      ph'.vaddr.toNat + ph'.memsz ≤ ph.vaddr.toNat + i := by
  by_cases hne : ph' = ph
  · exact Or.inl hne
  · have : Std.Symm fun ph ph' : Phdr => (segSpan ph).Apart (segSpan ph') :=
      ⟨fun _ _ => Span.Apart.symm⟩
    have hapart := h.apart.forall hph' hph hne
    unfold Span.Apart segSpan at hapart
    dsimp only at hapart
    omega

/-- The segments of a well-formed program are loaded faithfully exactly where every
page they reach is counted for one of them. -/
theorem segments_loaded_iff (hwf : WellFormedElf file) (htotal : s.pmm.totalPages ≤ 2 ^ 40)
    (hrun : execBuildImage (some file) argv s = (some img, s')) :
    SegmentsLoaded s' img.pml4Phys file ↔ PagesCounted (loadHeaders file.data) := by
  obtain ⟨s₁, s₂, s₃, h⟩ := execBuildImage_built hwf htotal hrun
  constructor
  · intro hload ph hph i hi
    have hle := hwf.end_le ph hph
    exact (mem_segPaths hwf.end_le (by omega)).mp
      (h.mem_of_userByte (by omega) (hload ph hph i hi))
  · intro hcount ph hph i hi
    rw [h.view hwf hcount hph hi]
    by_cases hfile : i < ph.filesz
    · -- The contents of the file are written by this segment alone.
      have hmem : (ph.vaddr.toNat, fileBytes file.data ph 0) ∈
          filePieces file.data (loadHeaders file.data) := List.mem_map_of_mem hph
      have hlen : i < (fileBytes file.data ph 0).length := by
        rw [fileBytes_length]
        exact hfile
      rw [if_pos hfile, overlays_inside hmem hlen fun piece hpiece => ?_, fileBytes_getElem hfile]
      obtain ⟨ph', hph', rfl⟩ := List.mem_map.mp hpiece
      have hsize := hwf.sizes ph' hph'
      rw [fileBytes_length]
      rcases hwf.eq_or_outside hph hph' hi with rfl | hout
      · exact Or.inl rfl
      · exact Or.inr (by omega)
    · rw [if_neg hfile]
      refine overlays_outside fun piece hpiece => ?_
      obtain ⟨ph', hph', rfl⟩ := List.mem_map.mp hpiece
      have hsize := hwf.sizes ph' hph'
      rw [fileBytes_length]
      rcases hwf.eq_or_outside hph hph' hi with rfl | hout
      · omega
      · omega

/-- The bytes of a number, the lowest one first. -/
def leBytes : Nat → Nat → List UInt8
  | 0, _ => []
  | n + 1, value => UInt8.ofNat value :: leBytes n (value / 256)

/-- A file with one segment of two bytes. -/
def twoByteElf (offset vaddr : Nat) : FileData where
  size := 0x1100
  data := fun i => (leBytes 4 elfMagicVal ++ leBytes 12 0 ++ leBytes 2 elfExec ++
    leBytes 2 elfX8664 ++ leBytes 4 0 ++ leBytes 8 vaddr ++ leBytes 8 ehdrSize ++ leBytes 16 0 ++
    leBytes 2 1 ++ leBytes 6 0 ++ leBytes 4 ptLoad ++ leBytes 4 0 ++ leBytes 8 offset ++
    leBytes 8 vaddr ++ leBytes 8 0 ++ leBytes 8 2 ++ leBytes 8 2 ++ leBytes 8 pageSize).getD i 7

/-- Loading a two-byte segment into the memory of `bareSpace`. -/
abbrev loadTwoBytes (offset vaddr : Nat) : Option ExecImage × Vm :=
  execBuildImage (some (twoByteElf offset vaddr)) [] (bareSpace 64)

theorem segments_loaded_two_bytes : ∃ img,
    (loadTwoBytes 0 0x400000).1 = some img ∧
      SegmentsLoaded (loadTwoBytes 0 0x400000).2 img.pml4Phys (twoByteElf 0 0x400000) := by
  obtain ⟨img, himg⟩ := Option.isSome_iff_exists.mp
    (show (loadTwoBytes 0 0x400000).1.isSome by decide +kernel)
  have hwf : WellFormedElf (twoByteElf 0 0x400000) :=
    { headers := by decide +kernel
      contents := by decide +kernel
      sizes := by decide +kernel
      below := by decide +kernel
      congruent := by decide +kernel
      apart := by decide +kernel }
  exact ⟨img, himg, (segments_loaded_iff hwf (by decide) (Prod.ext himg rfl)).mpr
    (by decide +kernel)⟩

/-- Two bytes across a page boundary: one page is counted, and the second byte is not
mapped. -/
theorem segment_loses_last_page : WellFormedElf (twoByteElf 0xFFF 0x400FFF) ∧
    ∃ img, (loadTwoBytes 0xFFF 0x400FFF).1 = some img ∧
      ¬ SegmentsLoaded (loadTwoBytes 0xFFF 0x400FFF).2 img.pml4Phys
        (twoByteElf 0xFFF 0x400FFF) := by
  refine ⟨⟨by decide +kernel, by decide +kernel, by decide +kernel, by decide +kernel,
    by decide +kernel, by decide +kernel⟩, ?_⟩
  have hlost : ∃ ph ∈ loadHeaders (twoByteElf 0xFFF 0x400FFF).data, ∃ i < ph.memsz,
      ((loadTwoBytes 0xFFF 0x400FFF).1.map fun img =>
        userByte (loadTwoBytes 0xFFF 0x400FFF).2 img.pml4Phys (ph.vaddr.toNat + i)) =
          some none := by decide +kernel
  obtain ⟨ph, hph, i, hi, hnone⟩ := hlost
  obtain ⟨img, himg, hbyte⟩ := Option.map_eq_some_iff.mp hnone
  refine ⟨img, himg, fun hload => ?_⟩
  have := (hload ph hph i hi).symm.trans hbyte
  cases this

end Exec

end Mmix.Proc
