import Mmix.Mm.Pmap

/-!
# Entries, indices and paths

The bit-level facts about page-table entries and virtual addresses, and the
reading of `pmap_pte` and `pmap_resolve` as walks in a forest of tables.
-/

namespace Mmix.Mm

open Forest BitVec Option

/-- The address bits of an entry are those from bit 12 to bit 51. -/
theorem getLsbD_pteAddrMask (i : Nat) :
    pteAddrMask.getLsbD i = (decide (12 ≤ i) && decide (i < 52)) := by
  by_cases hi : i < 64
  · interval_cases i <;> decide
  · have h : pteAddrMask.getLsbD i = false := getLsbD_of_ge _ _ (by omega)
    have hi' : ¬ i < 52 := by omega
    simp [h, hi']

theorem and_pteAddrMask_lt (w : Word) : (w &&& pteAddrMask).toNat < 2 ^ 52 := by
  rw [toNat_and]
  exact Nat.lt_of_le_of_lt Nat.and_le_right (by decide)

theorem and_pteAddrMask_mod (w : Word) : (w &&& pteAddrMask).toNat % 4096 = 0 := by
  apply Nat.eq_of_testBit_eq
  intro i
  rw [show (4096 : Nat) = 2 ^ 12 by norm_num, Nat.testBit_mod_two_pow, Nat.zero_testBit]
  by_cases hi : i < 12
  · have hmask : (w &&& pteAddrMask).toNat.testBit i = false := by
      rw [testBit_toNat, getLsbD_and, getLsbD_pteAddrMask]
      simp [show ¬ 12 ≤ i by omega]
    rw [hmask, Bool.and_false]
  · rw [decide_eq_false hi, Bool.false_and]

/-- The frame number of an entry fits in forty bits. -/
theorem target_lt (w : Word) : target w < 2 ^ 40 := by
  have h := and_pteAddrMask_lt w
  unfold target frameOf pageSize
  omega

theorem physOf_toNat {page : Nat} (h : page < 2 ^ 40) : (physOf page).toNat = page * 4096 := by
  unfold physOf pageSize
  rw [toNat_ofNat]
  omega

theorem frameOf_physOf {page : Nat} (h : page < 2 ^ 40) : frameOf (physOf page) = page := by
  unfold frameOf pageSize
  rw [physOf_toNat h]
  omega

theorem physOf_eq_zero {page : Nat} (h : page < 2 ^ 40) : physOf page = 0 ↔ page = 0 := by
  rw [← toNat_inj, physOf_toNat h]
  simp

/-- The masked entry is the physical address of its target. -/
theorem and_pteAddrMask_eq (w : Word) : w &&& pteAddrMask = physOf (target w) := by
  rw [← toNat_inj, physOf_toNat (target_lt w)]
  have h := and_pteAddrMask_mod w
  unfold target frameOf pageSize
  omega

theorem physOf_and_pteAddrMask {page : Nat} (h : page < 2 ^ 40) :
    physOf page &&& pteAddrMask = physOf page := by
  apply eq_of_getLsbD_eq
  intro i hi
  rw [getLsbD_and, getLsbD_pteAddrMask, ← testBit_toNat, physOf_toNat h,
    show page * 4096 = page <<< 12 by rw [Nat.shiftLeft_eq], Nat.testBit_shiftLeft]
  by_cases h12 : 12 ≤ i
  · by_cases h52 : i < 52
    · simp [h12, h52]
    · have hbit : page.testBit (i - 12) = false :=
        Nat.testBit_lt_two_pow (h.trans_le (Nat.pow_le_pow_right (by norm_num) (by omega)))
      simp [h12, hbit]
  · simp [h12]

theorem target_physOf {page : Nat} (h : page < 2 ^ 40) : target (physOf page) = page := by
  unfold target
  rw [physOf_and_pteAddrMask h, frameOf_physOf h]

/-- Bits outside the address mask do not change the target. -/
theorem target_or (w : Word) {flags : Word} (hf : flags &&& pteAddrMask = 0) :
    target (w ||| flags) = target w := by
  unfold target
  congr 1
  apply eq_of_getLsbD_eq
  intro i hi
  have hbit : (flags &&& pteAddrMask).getLsbD i = false := by rw [hf]; simp
  rw [getLsbD_and] at hbit
  simp only [getLsbD_and, getLsbD_or, Bool.and_or_distrib_right, hbit,
    Bool.or_false]

theorem or_ptePresent_and (w flags : Word) :
    (w ||| ptePresent ||| flags) &&& ptePresent ≠ 0 := by
  intro h
  have hbit : ((w ||| ptePresent ||| flags) &&& ptePresent).getLsbD 0 = false := by
    rw [h]; simp
  simp [ptePresent] at hbit

@[simp] theorem child_zero : child 0 = none := by
  simp [child]

theorem child_eq_some {w : Word} (h : w &&& ptePresent ≠ 0) : child w = some (target w) :=
  if_neg h

theorem child_eq_none {w : Word} : child w = none ↔ w &&& ptePresent = 0 := by
  constructor
  · intro h
    by_contra hp
    rw [child_eq_some hp] at h
    cases h
  · exact fun h => if_pos h

theorem child_lt {w : Word} {f : Nat} (h : child w = some f) : f < 2 ^ 40 := by
  unfold child at h
  split at h
  · cases h
  · exact some.inj h ▸ target_lt w

/-- Every frame below a root is the target of an entry. -/
theorem node_lt {mem : PhysMem} {r : Nat} {p : List Idx} {f : Nat} (hne : p ≠ [])
    (hn : node child mem r p = some f) : f < 2 ^ 40 := by
  obtain ⟨q, i, rfl⟩ := (List.eq_nil_or_concat' p).resolve_left hne
  rw [node_concat, bind_eq_some_iff] at hn
  obtain ⟨t, -, hc⟩ := hn
  exact child_lt hc

/-- The entry `pmap_map` writes for a new table points to that table. -/
theorem child_table_entry {page : Nat} (h : page < 2 ^ 40) {flags : Word}
    (hf : flags &&& pteAddrMask = 0) :
    child (physOf page ||| ptePresent ||| pteWrite ||| flags) = some page := by
  have hp : (physOf page ||| ptePresent ||| pteWrite ||| flags) &&& ptePresent ≠ 0 := by
    rw [or_assoc (physOf page ||| ptePresent)]
    exact or_ptePresent_and _ _
  rw [child_eq_some hp, target_or _ hf, target_or _ (by decide), target_or _ (by decide),
    target_physOf h]

/-- The entry `pmap_map` writes for a page points to the page's frame. -/
theorem child_leaf_entry (pa : Word) {flags : Word} (hf : flags &&& pteAddrMask = 0) :
    child ((pa &&& pteAddrMask) ||| ptePresent ||| flags) = some (target pa) := by
  rw [child_eq_some (or_ptePresent_and _ _), target_or _ hf, target_or _ (by decide),
    and_pteAddrMask_eq, target_physOf (target_lt pa)]

/-- Clearing the low bits of a word rounds it down. -/
theorem toNat_and_not {m : Word} {k : Nat}
    (hm : ∀ j : Fin 64, (~~~m).getLsbD j.val = decide (k ≤ j.val)) (w : Word) :
    (w &&& ~~~m).toNat = w.toNat / 2 ^ k * 2 ^ k := by
  have hshift : w &&& ~~~m = (w >>> k) <<< k := by
    apply eq_of_getLsbD_eq
    intro i hi
    rw [getLsbD_and, hm ⟨i, hi⟩, getLsbD_shiftLeft, getLsbD_ushiftRight]
    by_cases hk : k ≤ i
    · simp [hk, hi, Nat.add_sub_cancel' hk]
    · simp [hk]
  have hlt := w.isLt
  have hle : w.toNat / 2 ^ k * 2 ^ k ≤ w.toNat := Nat.div_mul_le_self _ _
  rw [hshift, toNat_shiftLeft, toNat_ushiftRight, Nat.shiftRight_eq_div_pow,
    Nat.shiftLeft_eq, Nat.mod_eq_of_lt (by omega)]

theorem toNat_and_pageMask (va : Word) : (va &&& 0xFFF).toNat = va.toNat % 4096 := by
  rw [toNat_and]
  exact Nat.and_two_pow_sub_one_eq_mod va.toNat 12

theorem toNat_pageDown (w : Word) : (w &&& ~~~0xFFF).toNat = w.toNat / 4096 * 4096 :=
  toNat_and_not (k := 12) (by decide) w

theorem toNat_and_not_15 (w : Word) : (w &&& ~~~0xF).toNat = w.toNat / 16 * 16 :=
  toNat_and_not (k := 4) (by decide) w

/-- The index of a level as a quotient of the address. -/
theorem idx_val (va : Word) (level : Nat) :
    (idx va level).val = va.toNat / 2 ^ (12 + level * 9) % 512 := by
  change ((va >>> (12 + level * 9)) &&& 0x1FF).toNat = _
  rw [toNat_and, toNat_ushiftRight, Nat.shiftRight_eq_div_pow]
  exact Nat.and_two_pow_sub_one_eq_mod _ 9

/-- The table indices of an address, from the given level down to level one. -/
def tablePath (va : Word) : Nat → List Idx
  | 0 => []
  | level + 1 => idx va (level + 1) :: tablePath va level

/-- The full path of an address, down to its page. -/
def pagePath (va : Word) : List Idx := tablePath va 3 ++ [idx va 0]

theorem tablePath_length (va : Word) (level : Nat) : (tablePath va level).length = level := by
  induction level with
  | zero => rfl
  | succ level ih => simp [tablePath, ih]

theorem pagePath_length (va : Word) : (pagePath va).length = 4 := by
  simp [pagePath, tablePath_length]

/-- The four-level format of the user half of an address space. -/
def userFormat : Format Nat Idx Word where
  child := child
  top := {i | i.val < 256}
  depth := 3

@[simp] theorem userFormat_child : userFormat.child = child := rfl

@[simp] theorem userFormat_depth : userFormat.depth = 3 := rfl

/-- An address whose walk starts in the user half of the top-level table. -/
def UserVa (va : Word) : Prop := (idx va 3).val < 256

instance (va : Word) : Decidable (UserVa va) := inferInstanceAs (Decidable (_ < _))

theorem userVa_of_lt {va : Word} (h : va.toNat < 2 ^ 47) : UserVa va := by
  unfold UserVa
  rw [idx_val]
  omega

theorem admissible_pagePath {va : Word} (h : UserVa va) :
    Admissible userFormat (pagePath va) := by
  intro i hi
  simp only [pagePath, tablePath, List.cons_append, List.head?_cons, mem_def,
    some.injEq] at hi
  subst hi
  exact h

/-- The index of a level as a digit of the page number. -/
theorem idx_val_page (va : Word) (level : Nat) :
    (idx va level).val = va.toNat / 4096 / 512 ^ level % 512 := by
  rw [idx_val, Nat.div_div_eq_div_mul, Nat.pow_add, Nat.mul_comm level, Nat.pow_mul]

/-- Two addresses below `2^48` have one path exactly when they share a page. -/
theorem pagePath_eq_iff {va va' : Word} (h : va.toNat < 2 ^ 48) (h' : va'.toNat < 2 ^ 48) :
    pagePath va = pagePath va' ↔ va.toNat / 4096 = va'.toNat / 4096 := by
  have hn : va.toNat / 4096 < 2 ^ 36 := by omega
  have hn' : va'.toNat / 4096 < 2 ^ 36 := by omega
  simp only [pagePath, tablePath, List.cons_append, List.nil_append, List.cons.injEq,
    and_true, Fin.ext_iff, idx_val_page]
  generalize va.toNat / 4096 = n at *
  generalize va'.toNat / 4096 = n' at *
  norm_num
  omega

theorem pmapPteWalk_eq (mem : PhysMem) (va : Word) (level table : Nat) :
    pmapPteWalk mem va level table = node child mem table (tablePath va level) := by
  induction level generalizing table with
  | zero => rfl
  | succ level ih =>
    simp only [pmapPteWalk, tablePath, node_cons]
    by_cases hp : mem table (idx va (level + 1)) &&& ptePresent = 0
    · rw [if_pos hp, child_eq_none.mpr hp]
      rfl
    · rw [if_neg hp, child_eq_some hp, ih]
      rfl

/-- `pmap_resolve` returns the frame at the page's path with the page offset. -/
theorem pmapResolve_eq (s : Vm) (pml4Phys va : Word) :
    pmapResolve s pml4Phys va =
      match node child s.mem (frameOf pml4Phys) (pagePath va) with
      | none => 0
      | some f => physOf f ||| (va &&& 0xFFF) := by
  unfold pmapResolve pmapPte
  rw [pmapPteWalk_eq, pagePath, node_concat]
  cases node child s.mem (frameOf pml4Phys) (tablePath va 3) with
  | none => rfl
  | some table =>
    simp only [map_some, bind_some]
    by_cases hp : s.mem table (idx va 0) &&& ptePresent = 0
    · rw [if_pos hp, child_eq_none.mpr hp]
    · rw [if_neg hp, child_eq_some hp, and_pteAddrMask_eq]

end Mmix.Mm
