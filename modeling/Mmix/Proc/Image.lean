import Mmix.Mm.Fork
import Mmix.Proc.Elf

/-!
# Images and the ownership of frames

The loader maps fresh pages into a new address space and copies bytes to
them. As long as the segments lie in the user half, the frames of all other
address spaces are left alone.
-/

namespace Mmix.Proc

open Mm Forest List

variable {K E R : Set Nat} {s : Vm} {pml4 va : Word}

/-- The pages of a range of user addresses. -/
def UserRange (va : Word) (pages : Nat) : Prop := ∀ j < pages, UserVa (va + BitVec.ofNat 64 (j * 4096))

/-- The pages behind the first one. -/
theorem add_page (va : Word) (j : Nat) : va + BitVec.ofNat 64 ((j + 1) * 4096) =
    va + 0x1000 + BitVec.ofNat 64 (j * 4096) := by
  have hofs : BitVec.ofNat 64 ((j + 1) * 4096) = 0x1000 + BitVec.ofNat 64 (j * 4096) := by
    rw [Nat.add_mul, Nat.add_comm, BitVec.ofNat_add]
    rfl
  rw [hofs, BitVec.add_assoc]

/-- What holds at all pages of a range holds at the first one and at those of
the rest. -/
theorem forall_pages_succ {Q : Word → Prop} {va : Word} {pages : Nat}
    (h : ∀ j < pages + 1, Q (va + BitVec.ofNat 64 (j * 4096))) :
    Q va ∧ ∀ j < pages, Q (va + 0x1000 + BitVec.ofNat 64 (j * 4096)) := by
  constructor
  · have h0 := h 0 (by omega)
    rwa [Nat.zero_mul, BitVec.add_zero] at h0
  · intro j hj
    have hnext := h (j + 1) (by omega)
    rwa [add_page] at hnext

/-- A range that ends below the upper half. -/
theorem userRange_of_le {pages : Nat} (h : va.toNat + pages * 4096 ≤ 2 ^ 47 + 4095) :
    UserRange va pages := by
  intro j hj
  have hlt : va.toNat + j * 4096 < 2 ^ 47 := by omega
  apply userVa_of_lt
  rw [BitVec.toNat_add, BitVec.toNat_ofNat]
  omega

/-- The loop that maps fresh pages, on a space whose pages are not counted. -/
theorem owned_mapFresh {pages : Nat} (h : Owned K E R s) (hr : frameOf pml4 ∈ R)
    (hE : frameOf pml4 ∈ E → pages = 0) (hva : UserRange va pages) :
    Owned K E R (mapFresh pml4 pages va s).2 := by
  induction pages generalizing va s with
  | zero => exact h
  | succ pages ih =>
    unfold mapFresh
    cases halloc : allocFrame s with
    | mk page s₁ =>
      cases page with
      | none =>
        rw [allocFrame_none halloc]
        exact h
      | some page =>
        obtain ⟨hfirst, hrest⟩ := forall_pages_succ hva
        have hE' : frameOf pml4 ∉ E := fun hc => Nat.succ_ne_zero pages (hE hc)
        exact ih (h.map_fresh halloc _ hr hE' hfirst (by decide))
          (fun hc => absurd hc hE') hrest

/-- Bytes that stay in one frame change only that frame. -/
theorem writeBytes_eq (bytes : List UInt8) (phys : Word) (s : Vm)
    (hroom : phys.toNat % 4096 + bytes.length ≤ 4096) :
    ∃ row, writeBytes bytes phys s = s.setFrame (frameOf phys) row := by
  induction bytes generalizing phys s with
  | nil => exact ⟨_, (s.setFrame_mem (frameOf phys)).symm⟩
  | cons byte bytes ih =>
    obtain ⟨row, hrow⟩ : ∃ row, writeByte s phys byte = s.setFrame (frameOf phys) row :=
      ⟨_, s.setEntry_eq_setFrame (frameOf phys) _ _⟩
    unfold writeBytes
    rw [hrow]
    cases bytes with
    | nil => exact ⟨row, rfl⟩
    | cons next bytes =>
      have hlt := phys.isLt
      simp only [length_cons] at hroom
      have hnext : (phys + 1).toNat = phys.toNat + 1 := by
        rw [BitVec.toNat_add]
        have : (1 : Word).toNat = 1 := rfl
        omega
      have hframe : frameOf (phys + 1) = frameOf phys := by
        unfold frameOf pageSize
        rw [hnext]
        omega
      obtain ⟨row', hrow'⟩ := ih (phys + 1) (s.setFrame (frameOf phys) row) (by
        simp only [length_cons]
        omega)
      rw [hframe, Vm.setFrame_setFrame] at hrow'
      exact ⟨row', hrow'⟩

/-- Bytes written to a frame that is no table. -/
theorem owned_writeBytes {bytes : List UInt8} {phys : Word} (h : Owned K E R s)
    (hroom : phys.toNat % 4096 + bytes.length ≤ 4096)
    (hf : ∀ r p, ¬ Table userFormat R s.mem r p (frameOf phys)) :
    Owned K E R (writeBytes bytes phys s) := by
  obtain ⟨row, hrow⟩ := writeBytes_eq bytes phys s hroom
  rw [hrow]
  exact h.setFrame hf row

/-- Bytes written through a user address, up to the end of its page. -/
theorem owned_writeResolved {bytes : List UInt8} (h : Owned K E R s) (hr : frameOf pml4 ∈ R)
    (hva : UserVa va) (hroom : bytes.length ≤ pageRoom va) :
    Owned K E R (writeBytes bytes (pmapResolve s pml4 va) s) := by
  refine owned_writeBytes h ?_ (h.resolve_not_table hr hva)
  unfold pageRoom pageSize at hroom
  by_cases hz : pmapResolve s pml4 va = 0
  · rw [hz]
    have : (0 : Word).toNat = 0 := rfl
    omega
  · have := (Owned.pmapResolve_mod hz).1
    omega

/-- The address that `copy_to_va` writes to is the resolved one. -/
theorem resolve_aligned_add (s : Vm) (pml4 cur : Word)
    (hz : pmapResolve s pml4 (cur &&& ~~~0xFFF) ≠ 0) :
    pmapResolve s pml4 (cur &&& ~~~0xFFF) + (cur &&& 0xFFF) = pmapResolve s pml4 cur := by
  rw [pmapResolve_eq, pagePath_aligned] at hz ⊢
  rw [pmapResolve_eq]
  cases hn : node child s.mem (frameOf pml4) (pagePath cur) with
  | none =>
    rw [hn] at hz
    exact absurd rfl hz
  | some f =>
    have hf : f < 2 ^ 40 := node_lt (by simp [pagePath]) hn
    have hlow : cur &&& ~~~0xFFF &&& 0xFFF = 0#64 := by
      rw [BitVec.and_assoc, show (~~~0xFFF &&& 0xFFF : Word) = 0#64 by decide, BitVec.and_zero]
    dsimp only
    apply BitVec.eq_of_toNat_eq
    rw [hlow, BitVec.or_zero, Owned.resolved_toNat hf, BitVec.toNat_add, physOf_toNat hf,
      toNat_and_pageMask]
    omega

theorem owned_copyToVaLoop {fuel : Nat} {bytes : List UInt8} (h : Owned K E R s)
    (hr : frameOf pml4 ∈ R) (hva : va.toNat + bytes.length ≤ 2 ^ 47) :
    Owned K E R (copyToVaLoop pml4 fuel va bytes s).2 := by
  induction fuel generalizing va bytes s with
  | zero => exact h
  | succ fuel ih =>
    unfold copyToVaLoop
    split
    · exact h
    next hne =>
      have hlen : 0 < bytes.length := length_pos_iff.mpr hne
      dsimp only
      split
      · exact h
      next hz =>
        rw [resolve_aligned_add s pml4 va hz]
        have huser : UserVa va := userVa_of_lt (by omega)
        have hchunk := Nat.min_le_left bytes.length (pageRoom va)
        generalize hc : min bytes.length (pageRoom va) = chunk at hchunk
        refine ih (owned_writeResolved h hr huser ?_) ?_
        · rw [length_take, ← hc]
          omega
        · rw [length_drop, BitVec.toNat_add, BitVec.toNat_ofNat]
          have := va.isLt
          omega

/-- The strings of the argument vector go below the top of the stack. -/
theorem owned_copyStrings {args : List (List UInt8)} {addrs : List Word} {sp : Word}
    (h : Owned K E R s) (hr : frameOf pml4 ∈ R) (hlow : args.length * execMaxArgLen ≤ sp.toNat)
    (hhigh : sp.toNat ≤ 2 ^ 47) :
    Owned K E R (copyStrings pml4 args sp addrs s).2 ∧
      ∀ sp' addrs', (copyStrings pml4 args sp addrs s).1 = some (sp', addrs') →
        sp'.toNat ≤ sp.toNat ∧ sp.toNat ≤ sp'.toNat + args.length * execMaxArgLen ∧
          addrs'.length = addrs.length + args.length := by
  induction args generalizing sp addrs s with
  | nil =>
    refine ⟨h, fun sp' addrs' he => ?_⟩
    cases he
    exact ⟨le_rfl, Nat.le_add_right _ _, rfl⟩
  | cons arg args ih =>
    have hmin := Nat.min_le_right (arg.length + 1) execMaxArgLen
    unfold copyStrings
    dsimp only
    generalize hlen : min (arg.length + 1) execMaxArgLen = len at hmin
    rw [length_cons, Nat.add_mul, Nat.one_mul] at hlow
    have hsp : (sp - BitVec.ofNat 64 len).toNat = sp.toNat - len := by
      rw [BitVec.toNat_sub, BitVec.toNat_ofNat]
      have := sp.isLt
      simp only [execMaxArgLen] at hmin hlow
      omega
    have hcopy : Owned K E R (copyToVa pml4 (sp - BitVec.ofNat 64 len)
        ((arg ++ [0]).take len) s).2 := by
      refine owned_copyToVaLoop h hr ?_
      rw [hsp, length_take]
      omega
    cases hc : copyToVa pml4 (sp - BitVec.ofNat 64 len) ((arg ++ [0]).take len) s with
    | mk ok s₁ =>
      rw [hc] at hcopy
      cases ok with
      | false => exact ⟨hcopy, fun sp' addrs' he => by cases he⟩
      | true =>
        obtain ⟨hs, hres⟩ := @ih s₁ ((sp - BitVec.ofNat 64 len) :: addrs)
          (sp - BitVec.ofNat 64 len) hcopy (by rw [hsp]; omega) (by rw [hsp]; omega)
        refine ⟨hs, fun sp' addrs' he => ?_⟩
        obtain ⟨h₁, h₂, h₃⟩ := hres sp' addrs' he
        rw [hsp] at h₁ h₂
        rw [length_cons] at h₃
        simp only [length_cons, Nat.add_mul, Nat.one_mul]
        omega

/-- A segment that lies in the user half. -/
def UserSegment (ph : Phdr) : Prop := ph.vaddr.toNat + max ph.memsz ph.filesz ≤ 2 ^ 47

instance (ph : Phdr) : Decidable (UserSegment ph) := inferInstanceAs (Decidable (_ ≤ _))

theorem owned_mapZeroedRange {bytes : Nat} (h : Owned K E R s) (hr : frameOf pml4 ∈ R)
    (hE : frameOf pml4 ∉ E) (hva : va.toNat + bytes ≤ 2 ^ 47) :
    Owned K E R (mapZeroedRange pml4 va bytes s).2 := by
  refine owned_mapFresh h hr (fun hc => absurd hc hE) (userRange_of_le ?_)
  unfold pageSize
  have := Nat.div_mul_le_self ((bytes + 4096 - 1) % 2 ^ 64) 4096
  have := Nat.mod_le (bytes + 4096 - 1) (2 ^ 64)
  omega

theorem owned_mapSegments {phs : List Phdr} (imageEnd : Word) (h : Owned K E R s)
    (hr : frameOf pml4 ∈ R) (hE : frameOf pml4 ∉ E) (hseg : ∀ ph ∈ phs, UserSegment ph) :
    Owned K E R (mapSegments pml4 phs imageEnd s).2.2 := by
  induction phs generalizing imageEnd s with
  | nil => exact h
  | cons ph phs ih =>
    have hph : ph.vaddr.toNat + max ph.memsz ph.filesz ≤ 2 ^ 47 := hseg ph mem_cons_self
    have hmap : Owned K E R (mapZeroedRange pml4 ph.vaddr ph.memsz s).2 :=
      owned_mapZeroedRange h hr hE (by omega)
    unfold mapSegments
    dsimp only
    cases hm : mapZeroedRange pml4 ph.vaddr ph.memsz s with
    | mk ok s₁ =>
      rw [hm] at hmap
      cases ok with
      | false => exact hmap
      | true => exact ih _ hmap fun ph' hp => hseg ph' (mem_cons_of_mem ph hp)

theorem owned_fillSegment {data : Nat → UInt8} {ph : Phdr} {fuel done : Nat} (h : Owned K E R s)
    (hr : frameOf pml4 ∈ R) (hseg : UserSegment ph) :
    Owned K E R (fillSegment pml4 data ph fuel done s) := by
  induction fuel generalizing done s with
  | zero => exact h
  | succ fuel ih =>
    unfold fillSegment
    split
    · exact h
    next hdone =>
      refine ih (owned_writeResolved h hr (userVa_of_lt ?_) ?_)
      · unfold UserSegment at hseg
        rw [BitVec.toNat_add, BitVec.toNat_ofNat]
        omega
      · rw [length_map, length_range]
        exact Nat.min_le_right _ _

theorem owned_fillSegments (data : Nat → UInt8) {phs : List Phdr} (h : Owned K E R s)
    (hr : frameOf pml4 ∈ R) (hseg : ∀ ph ∈ phs, UserSegment ph) :
    Owned K E R (phs.foldl (fun s ph => fillSegment pml4 data ph ph.filesz 0 s) s) := by
  induction phs generalizing s with
  | nil => exact h
  | cons ph phs ih =>
    exact ih (owned_fillSegment h hr (hseg ph mem_cons_self))
      fun ph' hp => hseg ph' (mem_cons_of_mem ph hp)

theorem wordBytes_length (w : Word) : (wordBytes w).length = 8 := by
  simp [wordBytes]

theorem argvBytes_length (vec : List Word) : (vec.flatMap wordBytes).length = vec.length * 8 := by
  simp [length_flatMap, wordBytes_length]

/-- The initial stack of a new image. -/
theorem owned_buildUserStack (argv : List (List UInt8)) (h : Owned K E R s)
    (hr : frameOf pml4 ∈ R) (hE : frameOf pml4 ∉ E) :
    Owned K E R (buildUserStack pml4 argv s).2 := by
  have hmap : Owned K E R (mapZeroedRange pml4
      (userStackTop - BitVec.ofNat 64 (userStackPages * pageSize)) (userStackPages * pageSize) s).2 :=
    owned_mapZeroedRange h hr hE (by decide)
  unfold buildUserStack
  cases hm : mapZeroedRange pml4 (userStackTop - BitVec.ofNat 64 (userStackPages * pageSize))
      (userStackPages * pageSize) s with
  | mk ok s₁ =>
    rw [hm] at hmap
    cases ok with
    | false => exact hmap
    | true =>
      have hargs : (argv.take execMaxArgs).reverse.length ≤ 32 := by
        rw [length_reverse, length_take]
        exact Nat.min_le_left _ _
      have htop : userStackTop.toNat = 0x70000000 := rfl
      obtain ⟨hstr, hsp⟩ := @owned_copyStrings K E R s₁ pml4 (argv.take execMaxArgs).reverse []
        userStackTop hmap hr (by simp only [execMaxArgLen]; omega) (by omega)
      dsimp only
      cases hc : copyStrings pml4 (argv.take execMaxArgs).reverse userStackTop [] s₁ with
      | mk res s₂ =>
        rw [hc] at hstr hsp
        cases res with
        | none => exact hstr
        | some res =>
          obtain ⟨sp, addrs⟩ := res
          obtain ⟨hle, hge, hlen⟩ := hsp sp addrs rfl
          simp only [length_reverse, length_nil, execMaxArgLen] at hargs hge hlen
          rw [htop] at hle hge
          dsimp only
          have hn : (addrs ++ [0, 0] : List Word).length ≤ 34 := by
            rw [length_append]
            simp only [length_cons, length_nil]
            omega
          generalize (addrs ++ [0, 0] : List Word) = vec at hn
          have hdown : (sp &&& ~~~0xF).toNat ≤ sp.toNat ∧
              sp.toNat < (sp &&& ~~~0xF).toNat + 16 := by
            rw [toNat_and_not_15]
            omega
          generalize sp &&& ~~~0xF = sp₁ at hdown
          have hsub : (sp₁ - BitVec.ofNat 64 (vec.length * 8)).toNat =
              sp₁.toNat - vec.length * 8 := by
            rw [BitVec.toNat_sub, BitVec.toNat_ofNat]
            omega
          have hdown₂ := toNat_and_not_15 (sp₁ - BitVec.ofNat 64 (vec.length * 8))
          rw [hsub] at hdown₂
          generalize (sp₁ - BitVec.ofNat 64 (vec.length * 8)) &&& ~~~0xF = sp₂ at hdown₂
          have hvec : Owned K E R (copyToVa pml4 sp₂ (vec.flatMap wordBytes) s₂).2 := by
            refine owned_copyToVaLoop hstr hr ?_
            rw [argvBytes_length]
            omega
          cases hv : copyToVa pml4 sp₂ (vec.flatMap wordBytes) s₂ with
          | mk ok s₃ =>
            rw [hv] at hvec
            cases ok with
            | false => exact hvec
            | true =>
              have hargc : Owned K E R (copyToVa pml4 (sp₂ - 8)
                  (wordBytes (BitVec.ofNat 64 (argv.take execMaxArgs).length)) s₃).2 := by
                refine owned_copyToVaLoop hvec hr ?_
                rw [wordBytes_length, BitVec.toNat_sub]
                have : (8 : Word).toNat = 8 := rfl
                omega
              dsimp only
              cases hw : copyToVa pml4 (sp₂ - 8)
                  (wordBytes (BitVec.ofNat 64 (argv.take execMaxArgs).length)) s₃ with
              | mk ok s₄ =>
                rw [hw] at hargc
                cases ok with
                | false => exact hargc
                | true => exact hargc

/-- `exec_build_image` fails, or makes an address space apart from the others. -/
theorem owned_execBuildImage {file : Option FileData} (argv : List (List UInt8))
    (h : Owned K E R s) (hE : E ⊆ R)
    (hseg : ∀ f, file = some f → ∀ ph ∈ loadHeaders f.data, UserSegment ph) :
    ((execBuildImage file argv s).1 = none ∧ Owned K E R (execBuildImage file argv s).2) ∨
      ∃ img, (execBuildImage file argv s).1 = some img ∧ img.pml4Phys ≠ 0 ∧
        frameOf img.pml4Phys ∉ R ∧ frameOf img.pml4Phys ∉ K ∧
        Owned K E (insert (frameOf img.pml4Phys) R) (execBuildImage file argv s).2 := by
  unfold execBuildImage
  cases file with
  | none => exact Or.inl ⟨rfl, h⟩
  | some file =>
    dsimp only
    by_cases hok : elfOk file = false
    · rw [if_pos hok]
      exact Or.inl ⟨rfl, h⟩
    rw [if_neg hok]
    have hcreate := h.pmapCreate
    cases hc : pmapCreate s with
    | mk pml4 s₁ =>
      rw [hc] at hcreate
      rcases hcreate with ⟨h0, hs⟩ | ⟨h0, hR, hK, hs⟩
      · dsimp only at h0 ⊢
        rw [if_pos h0]
        exact Or.inl ⟨rfl, hs⟩
      dsimp only at h0 hR hK hs ⊢
      rw [if_neg h0]
      have hr : frameOf pml4 ∈ insert (frameOf pml4) R := Set.mem_insert _ _
      have hnE : frameOf pml4 ∉ E := fun hc => hR (hE hc)
      have hph := hseg file rfl
      -- A failure takes the half-built image apart again.
      have hundo {s' : Vm} (hs' : Owned K E (insert (frameOf pml4) R) s') :
          Owned K E R (pmapDestroy s' pml4) := by
        refine (hs'.pmapDestroy hr).mono subset_rfl subset_rfl fun r hr' => ?_
        refine ⟨Set.mem_insert_of_mem _ hr', ?_⟩
        rintro rfl
        exact hR hr'
      have hsegs := owned_mapSegments 0 hs hr hnE hph
      cases hm : mapSegments pml4 (loadHeaders file.data) 0 s₁ with
      | mk ok rest =>
        obtain ⟨imageEnd, s₂⟩ := rest
        rw [hm] at hsegs
        cases ok with
        | false => exact Or.inl ⟨rfl, hundo hsegs⟩
        | true =>
          dsimp only
          by_cases hnil : loadHeaders file.data = []
          · rw [if_pos hnil]
            exact Or.inl ⟨rfl, hundo hsegs⟩
          rw [if_neg hnil]
          have hfill := owned_fillSegments file.data hsegs hr hph
          have hstack := owned_buildUserStack argv hfill hr hnE
          cases hb : buildUserStack pml4 argv ((loadHeaders file.data).foldl
              (fun s ph => fillSegment pml4 file.data ph ph.filesz 0 s) s₂) with
          | mk rsp s₃ =>
            rw [hb] at hstack
            dsimp only
            by_cases hrsp : rsp = 0
            · rw [if_pos hrsp]
              exact Or.inl ⟨rfl, hundo hstack⟩
            · rw [if_neg hrsp]
              exact Or.inr ⟨_, rfl, h0, hR, hK, hstack⟩

end Mmix.Proc
