import Mmix.Mm.Destroy

/-!
# New address spaces

`pmap_create` takes a frame for an empty user half, and `pmap_fork` fills it
with copies of the pages of another address space.
-/

namespace Mmix.Mm

open Forest

variable {K E R : Set Nat} {s s' : Vm}

namespace Owned

/-- Nothing lies below a root whose user half is empty. -/
theorem reach_empty {r : Nat} {R' : Set Nat} (hrow : ∀ i : Idx, i.val < 256 → child (s.mem r i) = none)
    {levels : Nat} {p : List Idx} {f : Nat} (hr : Reach userFormat R' s.mem levels r p f) :
    p = [] ∧ f = r := by
  cases p with
  | nil => exact ⟨rfl, (Option.some.inj hr.at_path).symm⟩
  | cons i q =>
    have hi : i.val < 256 := hr.admissible i rfl
    have hn := hr.at_path
    rw [node_cons, userFormat_child, hrow i hi] at hn
    cases hn

/-- A held frame becomes the root of an empty address space. -/
theorem add_root {r : Nat} (h : Owned (insert r K) E R s) (hK : r ∉ K) (h0 : r ≠ 0)
    (hrow : ∀ i : Idx, i.val < 256 → child (s.mem r i) = none) : Owned K E (insert r R) s := by
  obtain ⟨hused, hun, hz⟩ := h.held r (Set.mem_insert _ _)
  have hR : r ∉ R := fun hr => hun r [] ((root_table hr).weaken (by decide))
  -- A cell of the larger forest is the new root, or a cell of the old forest.
  have hcases {levels r' p f} (hl : levels ≤ 4)
      (hr : Reach userFormat (insert r R) s.mem levels r' p f) :
      (r' = r ∧ p = [] ∧ f = r) ∨ (Reach userFormat R s.mem levels r' p f ∧ f ≠ r) := by
    rcases hr.mem_roots with rfl | hr'
    · exact Or.inl ⟨rfl, reach_empty hrow hr⟩
    · have hr'' := hr.of_mem hr'
      refine Or.inr ⟨hr'', ?_⟩
      rintro rfl
      exact hun _ _ (hr''.weaken hl)
  have hleaf {r' p f} (hl : Leaf userFormat (insert r R) s.mem r' p f) :
      Leaf userFormat R s.mem r' p f := by
    rcases hcases le_rfl hl.reach with ⟨-, rfl, -⟩ | ⟨hr, -⟩
    · cases hl.length_eq
    · exact hl.of_mem hr.mem_roots
  refine ⟨⟨fun h₁ h₂ => ?_, fun h₁ h₂ => ?_⟩, ⟨h.freeApart.total_le, fun f hf r' p hr => ?_⟩,
    fun h₁ h₂ => h.single (hleaf h₁) (hleaf h₂), fun ht => ?_, h.free_refs, fun ht => ?_,
    fun f hf => ?_, fun hl hr hlt => h.counted (hleaf hl) hr hlt⟩
  · rcases hcases (by decide) h₁ with ⟨rfl, rfl, rfl⟩ | ⟨h₁, hne⟩
    · rcases hcases (by decide) h₂ with ⟨rfl, rfl, -⟩ | ⟨-, hne⟩
      · exact ⟨rfl, rfl⟩
      · exact absurd rfl hne
    · rcases hcases (by decide) h₂ with ⟨-, -, rfl⟩ | ⟨h₂, -⟩
      · exact absurd rfl hne
      · exact h.separated.table_unique h₁ h₂
  · rcases hcases (by decide) h₁ with ⟨-, -, rfl⟩ | ⟨h₁, -⟩
    · exact hun _ _ (hleaf h₂).reach
    · exact h.separated.leaf_ne_table h₁ (hleaf h₂)
  · rcases hcases le_rfl hr with ⟨-, -, rfl⟩ | ⟨hr, -⟩
    · exact hused hf
    · exact h.freeApart.apart f hf r' p hr
  · rcases hcases (by decide) ht with ⟨-, -, h0'⟩ | ⟨ht, -⟩
    · exact h0 h0'.symm
    · exact h.nonzero ht
  · rcases hcases (by decide) ht with ⟨-, -, rfl⟩ | ⟨ht, -⟩
    · exact hz
    · exact h.table_refs ht
  · obtain ⟨hused', hun', hz'⟩ := h.held f (Set.mem_insert_of_mem r hf)
    refine ⟨hused', fun r' p hr => ?_, hz'⟩
    rcases hcases le_rfl hr with ⟨-, -, rfl⟩ | ⟨hr, -⟩
    · exact hK hf
    · exact hun' r' p hr

/-- `pmap_create` fails, or makes an empty address space. -/
theorem pmapCreate (h : Owned K E R s) :
    ((pmapCreate s).1 = 0 ∧ Owned K E R (pmapCreate s).2) ∨
      ((pmapCreate s).1 ≠ 0 ∧ frameOf (Mm.pmapCreate s).1 ∉ R ∧ frameOf (Mm.pmapCreate s).1 ∉ K ∧
        Owned K E (insert (frameOf (Mm.pmapCreate s).1) R) (Mm.pmapCreate s).2) := by
  cases halloc : allocFrame s with
  | mk page s₁ =>
    cases page with
    | none =>
      have hc : Mm.pmapCreate s = (0, s₁) := by
        unfold Mm.pmapCreate
        rw [halloc]
      rw [hc, allocFrame_none halloc]
      exact Or.inl ⟨rfl, h⟩
    | some page =>
      have hlt := h.alloc_lt halloc
      obtain ⟨row, hrow, hc⟩ : ∃ row : Idx → Word, (∀ i : Idx, i.val < 256 → row i = 0) ∧
          Mm.pmapCreate s = (physOf page, s₁.setFrame page row) := by
        unfold Mm.pmapCreate
        rw [halloc]
        exact ⟨_, fun i hi => if_pos hi, rfl⟩
      have hs := h.alloc halloc row
      rw [hc]
      by_cases h0 : page = 0
      · exact Or.inl ⟨(physOf_eq_zero hlt).mpr h0,
          hs.mono (Set.subset_insert _ _) subset_rfl subset_rfl⟩
      · refine Or.inr ⟨fun hz => h0 ((physOf_eq_zero hlt).mp hz), ?_⟩
        rw [frameOf_physOf hlt]
        have hK := h.alloc_not_held halloc
        refine ⟨fun hr => ?_, hK, hs.add_root hK h0 fun i hi => ?_⟩
        · obtain ⟨-, hun, -⟩ := hs.held page (Set.mem_insert _ _)
          exact hun page [] ((root_table hr).weaken (by decide))
        · rw [Vm.setFrame_self, hrow i hi, child_zero]

end Owned

section Addresses

/-- The number whose digits to base 512 are the indices of a path. -/
def pathNat (q : List Idx) : Nat := q.foldl (fun n i => n * 512 + i.val) 0

theorem pathNat_concat (q : List Idx) (i : Idx) : pathNat (q ++ [i]) = pathNat q * 512 + i.val := by
  simp [pathNat]

theorem pathNat_lt (q : List Idx) : pathNat q < 512 ^ q.length := by
  induction q using List.reverseRecOn with
  | nil => decide
  | append_singleton q i ih =>
    rw [pathNat_concat, List.length_append, List.length_singleton, pow_succ]
    have := i.isLt
    omega

/-- Adding the index of the next level to an address. -/
theorem or_index_toNat {va : Word} {q : List Idx} {level : Nat} (hl : level + q.length = 3)
    (hva : va.toNat = pathNat q * 2 ^ (12 + (level + 1) * 9)) (i : Idx) :
    (va ||| (BitVec.ofNat 64 i.val <<< (12 + level * 9))).toNat =
      pathNat (q ++ [i]) * 2 ^ (12 + level * 9) := by
  have hi := i.isLt
  have hshift : (BitVec.ofNat 64 i.val <<< (12 + level * 9)).toNat = i.val * 2 ^ (12 + level * 9) := by
    have hlt : i.val * 2 ^ (12 + level * 9) < 2 ^ 64 := by
      calc i.val * 2 ^ (12 + level * 9) < 2 ^ 9 * 2 ^ (12 + level * 9) :=
            Nat.mul_lt_mul_of_pos_right hi (by positivity)
        _ = 2 ^ (9 + (12 + level * 9)) := (pow_add 2 9 _).symm
        _ ≤ 2 ^ 64 := Nat.pow_le_pow_right (by decide) (by omega)
    rw [BitVec.toNat_shiftLeft, BitVec.toNat_ofNat, Nat.shiftLeft_eq,
      Nat.mod_eq_of_lt (by omega : i.val < 2 ^ 64), Nat.mod_eq_of_lt hlt]
  have hlow : i.val * 2 ^ (12 + level * 9) < 2 ^ (12 + (level + 1) * 9) := by
    calc i.val * 2 ^ (12 + level * 9) < 2 ^ 9 * 2 ^ (12 + level * 9) :=
          Nat.mul_lt_mul_of_pos_right hi (by positivity)
      _ = 2 ^ (12 + (level + 1) * 9) := by
          rw [← pow_add]
          congr 1
          omega
  rw [BitVec.toNat_or, hshift, hva, ← Nat.shiftLeft_eq (pathNat q),
    ← Nat.shiftLeft_add_eq_or_of_lt hlow, Nat.shiftLeft_eq, pathNat_concat]
  have hpow : 2 ^ (12 + (level + 1) * 9) = 512 * 2 ^ (12 + level * 9) := by
    rw [show 12 + (level + 1) * 9 = 9 + (12 + level * 9) by omega, pow_add]
    norm_num
  rw [hpow, Nat.add_mul, Nat.mul_assoc]

/-- The address of a path of four indices. -/
theorem pagePath_of_pathNat {va : Word} {p : List Idx} (hp : p.length = 4)
    (hva : va.toNat = pathNat p * 2 ^ 12) : pagePath va = p := by
  obtain ⟨a, b, c, d, rfl⟩ : ∃ a b c d, p = [a, b, c, d] := by
    rcases p with _ | ⟨a, _ | ⟨b, _ | ⟨c, _ | ⟨d, _ | ⟨e, p⟩⟩⟩⟩⟩ <;> simp at hp
    exact ⟨a, b, c, d, rfl⟩
  have ha := a.isLt
  have hb := b.isLt
  have hc := c.isLt
  have hd := d.isLt
  have hn : va.toNat / 4096 = ((a.val * 512 + b.val) * 512 + c.val) * 512 + d.val := by
    rw [hva]
    simp only [pathNat, List.foldl_cons, List.foldl_nil]
    omega
  simp only [pagePath, tablePath, List.cons_append, List.nil_append, List.cons.injEq,
    and_true, Fin.ext_iff, idx_val_page, hn]
  norm_num
  omega

theorem userVa_iff_admissible {va : Word} : UserVa va ↔ Admissible userFormat (pagePath va) := by
  refine ⟨admissible_pagePath, fun h => ?_⟩
  exact h (idx va 3) rfl

end Addresses

section Loops

/-- A loop over any list that a failing body leaves early. -/
theorem forIdx_invariant {Q : Vm → Prop} {body : Idx → Vm → Bool × Vm} {entries : List Idx}
    (hbody : ∀ i ∈ entries, ∀ s, Q s → Q (body i s).2) (hs : Q s) :
    Q (forIdx body entries s).2 := by
  induction entries generalizing s with
  | nil => exact hs
  | cons i entries ih =>
    have hi := hbody i List.mem_cons_self s hs
    unfold forIdx
    cases hb : body i s with
    | mk ok s₁ =>
      rw [hb] at hi
      cases ok with
      | false => exact hi
      | true => exact ih (fun j hj => hbody j (List.mem_cons_of_mem i hj)) hi

/-- What copying one page keeps is kept by the loops of `pmap_fork`. -/
theorem forkLevel_invariant {Q : Vm → Prop} {childPml4 : Word}
    (hpage : ∀ va pte s, UserVa va → Q s → Q (forkPage childPml4 va pte s).2)
    (level table : Nat) (va : Word) {q : List Idx} (entries : List Idx)
    (hl : level + q.length = 3) (hva : va.toNat = pathNat q * 2 ^ (12 + (level + 1) * 9))
    (hadm : ∀ i ∈ entries, Admissible userFormat (q ++ [i])) (hs : Q s) :
    Q (forkLevel childPml4 level table va entries s).2 := by
  induction level generalizing table va q entries s with
  | zero =>
    refine forIdx_invariant (fun i hi s hs => ?_) hs
    dsimp only
    split
    · exact hs
    · refine hpage _ _ s ?_ hs
      have hp := pagePath_of_pathNat (p := q ++ [i]) (by simp; omega) (or_index_toNat hl hva i)
      rw [userVa_iff_admissible, hp]
      exact hadm i hi
  | succ level ih =>
    refine forIdx_invariant (fun i hi s hs => ?_) hs
    dsimp only
    split
    · exact hs
    · refine ih _ _ (q := q ++ [i]) _ (by simp; omega) (or_index_toNat hl hva i) (fun j _ => ?_) hs
      exact (hadm i hi).extend [j] (by simp)

end Loops

section Fork

/-- The flags of a copied entry hold no address bits. -/
theorem forkFlags_and_pteAddrMask (pte : Word) :
    ((pte &&& ~~~(pteAddrMask ||| pteWrite ||| pteCow)) ||| pteWrite) &&& pteAddrMask = 0 := by
  have hmask : ~~~(pteAddrMask ||| pteWrite ||| pteCow) &&& pteAddrMask = 0#64 := by decide
  have hwrite : pteWrite &&& pteAddrMask = 0#64 := by decide
  rw [BitVec.and_or_distrib_right, BitVec.and_assoc, hmask, hwrite, BitVec.and_zero]
  rfl

/-- Copying a page into an address space. -/
theorem Owned.forkPage {childPml4 va : Word} (h : Owned K E R s) (hr : frameOf childPml4 ∈ R)
    (hva : UserVa va) (pte : Word) : Owned K E R (forkPage childPml4 va pte s).2 := by
  unfold Mm.forkPage
  cases halloc : allocFrame s with
  | mk page s₁ =>
    cases page with
    | none =>
      rw [allocFrame_none halloc]
      exact h
    | some page => exact h.map_counted halloc _ hr hva (forkFlags_and_pteAddrMask pte)

/-- `pmap_fork` fails, or makes an address space of counted pages. -/
theorem Owned.pmapFork (h : Owned K E R s) (parent : Word) :
    ((pmapFork s parent).1 = 0 ∧ Owned K E R (pmapFork s parent).2) ∨
      ((pmapFork s parent).1 ≠ 0 ∧ frameOf (pmapFork s parent).1 ∉ R ∧
        frameOf (pmapFork s parent).1 ∉ K ∧
        Owned K E (insert (frameOf (pmapFork s parent).1) R) (pmapFork s parent).2) := by
  unfold Mm.pmapFork
  cases hc : Mm.pmapCreate s with
  | mk childPml4 s₁ =>
    have hcreate := h.pmapCreate
    rw [hc] at hcreate
    rcases hcreate with ⟨h0, hs⟩ | ⟨h0, hR, hK, hs⟩
    · left
      dsimp only at h0 ⊢
      rw [if_pos h0]
      exact ⟨rfl, hs⟩
    · dsimp only at h0 hR hK hs ⊢
      rw [if_neg h0]
      have hfork := forkLevel_invariant (q := [])
        (fun va pte s hva hs => hs.forkPage (Set.mem_insert _ _) hva pte) 3 (frameOf parent) 0
        userEntries rfl rfl
        (fun i hi j hj => by
          cases hj
          exact mem_userEntries.mp hi) hs
      cases hf : forkLevel childPml4 3 (frameOf parent) 0 userEntries s₁ with
      | mk ok s₂ =>
        rw [hf] at hfork
        cases ok with
        | false => exact Or.inl ⟨rfl, hfork.mono subset_rfl subset_rfl (Set.subset_insert _ _)⟩
        | true => exact Or.inr ⟨h0, hR, hK, hfork⟩

end Fork

end Mmix.Mm
