import Mmix.Proc.Image
import Mmix.Mm.ForkCopy
import Mmix.Lib.Overlay

/-!
# The bytes of user memory

What can be read through `pmap_resolve`, and how the copies of `elf.c` change it.
A copy that goes through pages mapped nowhere else overlays the user memory at the
address it was made for, and changes no table.
-/

namespace Mmix.Proc

open Mm Forest Overlay BitVec

/-- One byte of a word. -/
def getByte (w : Word) (j : Nat) : UInt8 := UInt8.ofBitVec ((w >>> (8 * j)).setWidth 8)

/-- The byte at a physical address. -/
def byteAt (s : Vm) (a : Nat) : UInt8 :=
  getByte (s.mem (a / pageSize) ⟨a % pageSize / 8, word_lt a⟩) (a % 8)

/-- The byte at a user address, as found through `pmap_resolve`. -/
def userByte (s : Vm) (pml4 : Word) (a : Nat) : Option UInt8 :=
  let pa := pmapResolve s pml4 (BitVec.ofNat 64 a)
  if pa = 0 then none else some (byteAt s pa.toNat)

section Physical

theorem getLsbD_ff (k : Nat) : getLsbD (0xFF : Word) k = decide (k < 8) := by
  rw [show (0xFF : Word) = (allOnes 8).setWidth 64 from rfl, getLsbD_setWidth,
    getLsbD_allOnes]
  by_cases hk : k < 8
  · simp only [hk, decide_true, Bool.and_true, decide_eq_true_eq]
    omega
  · simp only [hk, decide_false, Bool.and_false]

/-- The bits of a word after one of its bytes has been replaced. -/
theorem getLsbD_setByte (w : Word) {j k : Nat} (hk : k < 64) (byte : UInt8) :
    (setByte w j byte).getLsbD k =
      if 8 * j ≤ k ∧ k < 8 * j + 8 then byte.toBitVec.getLsbD (k - 8 * j) else w.getLsbD k := by
  simp only [setByte, getLsbD_or, getLsbD_and, getLsbD_not,
    getLsbD_shiftLeft, getLsbD_ff, getLsbD_setWidth]
  by_cases hin : 8 * j ≤ k ∧ k < 8 * j + 8
  · have hlow : ¬ k < 8 * j := by omega
    have hhigh : k - 8 * j < 8 := by omega
    have hofs : k - 8 * j < 64 := by omega
    simp [hin, hk, hlow, hhigh, hofs]
  · rw [if_neg hin]
    by_cases hlow : k < 8 * j
    · simp [hk, hlow]
    · have hhigh : ¬ k - 8 * j < 8 := by omega
      have hbyte : byte.toBitVec.getLsbD (k - 8 * j) = false :=
        getLsbD_of_ge _ _ (by omega)
      simp [hk, hlow, hhigh, hbyte]

theorem getLsbD_getByte (w : Word) {j i : Nat} (hi : i < 8) :
    (getByte w j).toBitVec.getLsbD i = w.getLsbD (8 * j + i) := by
  simp [getByte, getLsbD_ushiftRight, hi]

theorem getByte_setByte (w : Word) {j j' : Nat} (hj' : j' < 8) (byte : UInt8) :
    getByte (setByte w j byte) j' = if j' = j then byte else getByte w j' := by
  apply UInt8.toBitVec_inj.mp
  apply eq_of_getLsbD_eq
  intro i hi
  rw [getLsbD_getByte _ hi, getLsbD_setByte _ (by omega)]
  by_cases h : j' = j
  · rw [if_pos h, if_pos (by omega), h, Nat.add_sub_cancel_left]
  · rw [if_neg h, if_neg (by omega), getLsbD_getByte _ hi]

theorem getByte_zero (j : Nat) : getByte 0 j = 0 := by
  change UInt8.ofBitVec ((0#64 >>> (8 * j)).setWidth 8) = 0
  rw [zero_ushiftRight]
  rfl

theorem byteAt_writeByte (s : Vm) (phys : Word) (byte : UInt8) (a : Nat) :
    byteAt (writeByte s phys byte) a = if a = phys.toNat then byte else byteAt s a := by
  have hlt : a % 8 < 8 := Nat.mod_lt a (by decide)
  simp only [byteAt, writeByte, Vm.setEntry, setCell, frameOf, Fin.mk.injEq, pageSize]
  by_cases hword : a / 4096 = phys.toNat / 4096 ∧ a % 4096 / 8 = phys.toNat % 4096 / 8
  · rw [if_pos hword, getByte_setByte _ hlt]
    by_cases ha : a = phys.toNat
    · rw [if_pos ha, if_pos (congrArg (· % 8) ha)]
    · rw [if_neg ha, if_neg (by omega), ← hword.1]
      simp only [hword.2]
  · rw [if_neg hword, if_neg]
    rintro rfl
    exact hword ⟨rfl, rfl⟩

/-- `memcpy` overlays the physical memory. -/
theorem byteAt_writeBytes (bytes : List UInt8) (phys : Word) (s : Vm)
    (hend : phys.toNat + bytes.length ≤ 2 ^ 64) :
    (fun a => some (byteAt (writeBytes bytes phys s) a)) =
      overlay phys.toNat bytes fun a => some (byteAt s a) := by
  induction bytes generalizing phys s with
  | nil =>
    rw [overlay_nil]
    rfl
  | cons byte bytes ih =>
    have hone : (fun a => some (byteAt (writeByte s phys byte) a)) =
        overlay phys.toNat [byte] fun a => some (byteAt s a) := by
      ext1 a
      rw [byteAt_writeByte, overlay_singleton, apply_ite some]
    unfold writeBytes
    cases bytes with
    | nil => exact hone
    | cons next bytes =>
      simp only [List.length_cons] at hend
      have hnext : (phys + 1).toNat = phys.toNat + 1 := by
        rw [toNat_add]
        have : (1 : Word).toNat = 1 := rfl
        omega
      rw [ih (phys + 1) _ (by rw [hnext]; simp only [List.length_cons]; omega), hone, hnext]
      exact overlay_append phys.toNat [byte] (next :: bytes) _

end Physical

section User

variable {s s' s'' : Vm} {pml4 va : Word} {f : Nat} {bytes : List UInt8}

/-- The page at an address is mapped at no other one. -/
def Sole (s : Vm) (pml4 va : Word) : Prop :=
  ∀ va', UserVa va' → ∀ f, pageAt s pml4 va = some f → pageAt s pml4 va' = some f →
    pagePath va' = pagePath va

/-- The page is not the one in frame 0, and is mapped at no other address. -/
def Owns (s : Vm) (pml4 va : Word) : Prop :=
  Sole s pml4 va ∧ ∃ f, f ≠ 0 ∧ pageAt s pml4 va = some f

/-- The tables and mapped pages, and the allocator, are the same. -/
structure SameTree (pml4 : Word) (s s' : Vm) : Prop where
  nodes : ∀ p, Admissible userFormat p → p.length ≤ 4 →
    node child s'.mem (frameOf pml4) p = node child s.mem (frameOf pml4) p
  pmm : s'.pmm = s.pmm

/-- The bytes have been written from a user address on, and nothing else that the
address space shows has changed. -/
structure Writes (pml4 : Word) (start : Nat) (bytes : List UInt8) (s s' : Vm) : Prop
    extends SameTree pml4 s s' where
  view : ∀ a < 2 ^ 47, userByte s' pml4 a = overlay start bytes (userByte s pml4) a

/-- An address a little further on, as a number. -/
theorem toNat_add_ofNat {n : Nat} (h : va.toNat + n < 2 ^ 64) :
    (va + BitVec.ofNat 64 n).toNat = va.toNat + n := by
  rw [BitVec.toNat_add, BitVec.toNat_ofNat]
  omega

namespace SameTree

theorem refl (pml4 : Word) (s : Vm) : SameTree pml4 s s := ⟨fun _ _ _ => rfl, rfl⟩

theorem trans (h : SameTree pml4 s s') (h' : SameTree pml4 s' s'') : SameTree pml4 s s'' :=
  ⟨fun p ha hl => (h'.nodes p ha hl).trans (h.nodes p ha hl), h'.pmm.trans h.pmm⟩

theorem pageAt (h : SameTree pml4 s s') (hva : UserVa va) :
    pageAt s' pml4 va = pageAt s pml4 va :=
  h.nodes _ (admissible_pagePath hva) (pagePath_length va).le

theorem sole (h : SameTree pml4 s s') (hva : UserVa va) (hs : Sole s pml4 va) :
    Sole s' pml4 va := by
  intro va' hva' f hf hf'
  rw [h.pageAt hva] at hf
  rw [h.pageAt hva'] at hf'
  exact hs va' hva' f hf hf'

theorem owns (h : SameTree pml4 s s') (hva : UserVa va) (ho : Owns s pml4 va) :
    Owns s' pml4 va := by
  refine ⟨h.sole hva ho.1, ?_⟩
  rw [h.pageAt hva]
  exact ho.2

theorem node_eq (h : SameTree pml4 s s') : ∀ r ∈ ({frameOf pml4} : Set Nat), ∀ p,
    Admissible userFormat p → p.length ≤ userFormat.depth + 1 →
      node userFormat.child s'.mem r p = node userFormat.child s.mem r p := by
  intro r hr p ha hl
  obtain rfl : r = frameOf pml4 := hr
  exact h.nodes p ha hl

theorem separated (h : SameTree pml4 s s') (hsep : Separated userFormat {frameOf pml4} s.mem) :
    Separated userFormat {frameOf pml4} s'.mem :=
  hsep.congr h.node_eq

end SameTree

theorem Writes.refl (pml4 : Word) (start : Nat) (s : Vm) : Writes pml4 start [] s s where
  toSameTree := SameTree.refl pml4 s
  view := fun _ _ => by rw [overlay_nil]

theorem Writes.trans {start : Nat} {xs ys : List UInt8} (h : Writes pml4 start xs s s')
    (h' : Writes pml4 (start + xs.length) ys s' s'') : Writes pml4 start (xs ++ ys) s s'' where
  toSameTree := h.toSameTree.trans h'.toSameTree
  view := by
    intro a ha
    rw [h'.view a ha, ← overlay_append]
    exact overlay_congr (h.view a ha)

/-- The same with the second part written first. -/
theorem Writes.trans_below {start : Nat} {xs ys : List UInt8}
    (h : Writes pml4 (start + xs.length) ys s s') (h' : Writes pml4 start xs s' s'') :
    Writes pml4 start (xs ++ ys) s s'' where
  toSameTree := h.toSameTree.trans h'.toSameTree
  view := by
    intro a ha
    rw [h'.view a ha, ← overlay_append_below]
    exact overlay_congr (h.view a ha)

/-- What was written can be read. -/
theorem Writes.shows {start : Nat} (h : Writes pml4 start bytes s s')
    (hend : start + bytes.length ≤ 2 ^ 47) : Shows (userByte s' pml4) start bytes :=
  shows_overlay.congr fun i hi => h.view (start + i) (by omega)

/-- What could be read elsewhere can still be read. -/
theorem Writes.keeps {start a : Nat} {xs : List UInt8} (h : Writes pml4 start bytes s s')
    (hx : Shows (userByte s pml4) a xs) (hend : a + xs.length ≤ 2 ^ 47)
    (hapart : a + xs.length ≤ start ∨ start + bytes.length ≤ a) :
    Shows (userByte s' pml4) a xs :=
  (hx.overlay hapart).congr fun i hi => h.view (a + i) (by omega)

/-- The physical address of a mapped user address. -/
theorem resolve_of_pageAt (h : pageAt s pml4 va = some f) :
    (pmapResolve s pml4 va).toNat = f * 4096 + va.toNat % 4096 := by
  have hlt : f < 2 ^ 40 := node_lt (by simp [pagePath]) h
  rw [pmapResolve_eq, show node child s.mem (frameOf pml4) (pagePath va) = some f from h]
  exact Owned.resolved_toNat hlt va

theorem resolve_of_none (h : Mm.pageAt s pml4 va = none) : pmapResolve s pml4 va = 0 := by
  rw [pmapResolve_eq, show node child s.mem (frameOf pml4) (pagePath va) = none from h]

/-- Bytes written into one frame that is no table. -/
theorem sameTree_writeBytes {phys : Word} (hroom : phys.toNat % 4096 + bytes.length ≤ 4096)
    (hnot : ∀ p, ¬ Table userFormat {frameOf pml4} s.mem (frameOf pml4) p (frameOf phys)) :
    SameTree pml4 s (writeBytes bytes phys s) := by
  obtain ⟨row, hrow⟩ := writeBytes_eq bytes phys s hroom
  refine ⟨fun p ha hl => ?_, by rw [hrow]; rfl⟩
  refine node_eq_of_agree (fun r q g ht => ?_) (Set.mem_singleton _) ha hl
  obtain rfl : r = frameOf pml4 := ht.mem_roots
  rw [hrow]
  refine if_neg ?_
  rintro rfl
  exact hnot q ht

/-- Bytes written into one page that is mapped nowhere else. -/
theorem writes_page (hsep : Separated userFormat {frameOf pml4} s.mem) (hva : va.toNat < 2 ^ 47)
    (hpage : pageAt s pml4 va = some f) (hf : f ≠ 0) (hsole : Sole s pml4 va)
    (hroom : bytes.length ≤ pageRoom va) :
    Writes pml4 va.toNat bytes s (writeBytes bytes (pmapResolve s pml4 va) s) := by
  have hlt : f < 2 ^ 40 := node_lt (by simp [pagePath]) hpage
  have hpa := resolve_of_pageAt hpage
  unfold pageRoom pageSize at hroom
  have hframe : frameOf (pmapResolve s pml4 va) = f := by
    unfold frameOf pageSize
    omega
  have hleaf := (leaf_iff_pageAt (userVa_of_lt hva)).mpr hpage
  have htree : SameTree pml4 s (writeBytes bytes (pmapResolve s pml4 va) s) := by
    refine sameTree_writeBytes (by omega) fun p ht => ?_
    rw [hframe] at ht
    exact hsep.leaf_ne_table ht hleaf
  refine ⟨htree, fun a ha => ?_⟩
  have hto : (BitVec.ofNat 64 a).toNat = a := by
    rw [BitVec.toNat_ofNat]
    omega
  have huser : UserVa (BitVec.ofNat 64 a) := userVa_of_lt (by omega)
  have hres : pmapResolve (writeBytes bytes (pmapResolve s pml4 va) s) pml4 (BitVec.ofNat 64 a) =
      pmapResolve s pml4 (BitVec.ofNat 64 a) :=
    pmapResolve_congr (htree.pageAt huser)
  have hbyte : ∀ b, some (byteAt (writeBytes bytes (pmapResolve s pml4 va) s) b) =
      overlay (pmapResolve s pml4 va).toNat bytes (fun c => some (byteAt s c)) b :=
    congrFun (byteAt_writeBytes bytes (pmapResolve s pml4 va) s (by omega))
  have hsame : pagePath (BitVec.ofNat 64 a) = pagePath va ↔ a / 4096 = va.toNat / 4096 := by
    rw [pagePath_eq_iff (by omega) (by omega), hto]
  have hview : userByte (writeBytes bytes (pmapResolve s pml4 va) s) pml4 a =
      if pmapResolve s pml4 (BitVec.ofNat 64 a) = 0 then none else
        overlay (pmapResolve s pml4 va).toNat bytes (fun c => some (byteAt s c))
          (pmapResolve s pml4 (BitVec.ofNat 64 a)).toNat := by
    simp only [userByte, hres, hbyte]
  rw [hview]
  cases hg : pageAt s pml4 (BitVec.ofNat 64 a) with
  | none =>
    have hout : a < va.toNat ∨ va.toNat + bytes.length ≤ a := by
      by_contra hin
      have hpath := hsame.mpr (by omega)
      rw [pageAt, hpath, show node child s.mem (frameOf pml4) (pagePath va) = some f from hpage]
        at hg
      cases hg
    rw [overlay_outside hout, userByte, resolve_of_none hg]
    rfl
  | some g =>
    have hga := resolve_of_pageAt hg
    rw [hto] at hga
    by_cases hin : va.toNat ≤ a ∧ a < va.toNat + bytes.length
    · have hpath := hsame.mpr (by omega)
      obtain rfl : f = g := by
        rw [pageAt, hpath] at hg
        exact Option.some.inj (hpage.symm.trans hg)
      have hne : pmapResolve s pml4 (BitVec.ofNat 64 a) ≠ 0 := by
        intro hz
        rw [hz] at hga
        have : (0 : Word).toNat = 0 := rfl
        omega
      rw [if_neg hne, overlay, overlay, if_pos (by omega), if_pos hin]
      congr 1
      omega
    · have hout : (pmapResolve s pml4 (BitVec.ofNat 64 a)).toNat < (pmapResolve s pml4 va).toNat ∨
          (pmapResolve s pml4 va).toNat + bytes.length ≤
            (pmapResolve s pml4 (BitVec.ofNat 64 a)).toNat := by
        by_contra hc
        have hfg : g = f := by omega
        subst hfg
        have := hsame.mp (hsole _ huser g hpage hg)
        omega
      rw [overlay_outside hout, overlay_outside (by omega)]
      rfl

/-- The test of `copy_to_va` finds a page, and not the one in frame 0. -/
theorem pageAt_of_resolve (hz : pmapResolve s pml4 (va &&& ~~~0xFFF) ≠ 0) :
    ∃ f, pageAt s pml4 va = some f ∧ f ≠ 0 := by
  cases hn : pageAt s pml4 (va &&& ~~~0xFFF) with
  | none => exact absurd (resolve_of_none hn) hz
  | some f =>
    have hto := resolve_of_pageAt hn
    refine ⟨f, by rwa [pageAt, pagePath_aligned] at hn, ?_⟩
    rintro rfl
    have hlow : (va &&& ~~~0xFFF).toNat % 4096 = 0 := by
      rw [toNat_pageDown]
      omega
    exact hz (eq_of_toNat_eq (by rw [hto, hlow]; rfl))

/-- `copy_to_va` writes all its bytes when it succeeds. -/
theorem copyToVaLoop_writes {fuel : Nat} (hsep : Separated userFormat {frameOf pml4} s.mem)
    (hfuel : bytes.length ≤ fuel) (hend : va.toNat + bytes.length ≤ 2 ^ 47)
    (hsole : ∀ i < bytes.length, Sole s pml4 (va + BitVec.ofNat 64 i))
    (hrun : copyToVaLoop pml4 fuel va bytes s = (true, s')) :
    Writes pml4 va.toNat bytes s s' := by
  induction fuel generalizing va bytes s with
  | zero =>
    obtain rfl : bytes = [] := List.length_eq_zero_iff.mp (Nat.le_zero.mp hfuel)
    obtain ⟨-, rfl⟩ := Prod.mk.inj hrun
    exact Writes.refl _ _ _
  | succ fuel ih =>
    unfold copyToVaLoop at hrun
    split at hrun
    · next hnil =>
      subst hnil
      obtain ⟨-, rfl⟩ := Prod.mk.inj hrun
      exact Writes.refl _ _ _
    next hne =>
      have hlen : 0 < bytes.length := List.length_pos_iff.mpr hne
      dsimp only at hrun
      split at hrun
      · cases hrun
      next hz =>
        rw [resolve_aligned_add s pml4 va hz] at hrun
        obtain ⟨f, hpage, hf⟩ := pageAt_of_resolve hz
        have hroom : 0 < pageRoom va := by
          unfold pageRoom pageSize
          omega
        have hle := Nat.min_le_left bytes.length (pageRoom va)
        have hpos : 0 < min bytes.length (pageRoom va) := Nat.lt_min.mpr ⟨hlen, hroom⟩
        have hfirst : Sole s pml4 va := by
          have h0 := hsole 0 hlen
          rwa [BitVec.add_zero] at h0
        have hfit : (bytes.take (min bytes.length (pageRoom va))).length ≤ pageRoom va := by
          rw [List.length_take]
          omega
        have hone := writes_page hsep (by omega) hpage hf hfirst hfit
        generalize hc : min bytes.length (pageRoom va) = chunk at hle hpos hone hrun
        have hto := toNat_add_ofNat (show va.toNat + chunk < 2 ^ 64 by omega)
        have hrest := ih (hone.separated hsep) (by rw [List.length_drop]; omega)
          (by rw [List.length_drop, hto]; omega) (fun i hi => ?_) hrun
        · rw [hto] at hrest
          have hall := hone.trans (by rwa [List.length_take, Nat.min_eq_left hle])
          rwa [List.take_append_drop] at hall
        · rw [List.length_drop] at hi
          rw [add_assoc, ← ofNat_add]
          refine hone.sole (userVa_of_lt ?_) (hsole (chunk + i) (by omega))
          rw [toNat_add_ofNat (by omega)]
          omega

theorem copyToVa_writes (hsep : Separated userFormat {frameOf pml4} s.mem)
    (hend : va.toNat + bytes.length ≤ 2 ^ 47)
    (hsole : ∀ i < bytes.length, Sole s pml4 (va + BitVec.ofNat 64 i))
    (hrun : copyToVa pml4 va bytes s = (true, s')) : Writes pml4 va.toNat bytes s s' :=
  copyToVaLoop_writes hsep le_rfl hend hsole hrun

end User

end Mmix.Proc
