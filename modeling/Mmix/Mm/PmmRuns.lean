import Mmix.Mm.PmmInit
import Mmix.Lib.Run

/-!
# Histories of the physical memory manager

Any sequence of allocations and frees after `pmm_init`. The counter of free
pages stays exact. If only blocks are freed that are held, the held blocks are
disjoint, and giving all of them back leads to the state after `pmm_init`.
-/

namespace Mmix.Mm

open List

/-- The calls of the memory manager. -/
inductive PmmOp where
  | alloc (pages : Nat)
  | allocDma (pages : Nat)
  | free (start pages : Nat)

/-- One call. A block to be freed lies in the range of the bitmap. -/
def pmmStep (s : Pmm) : PmmOp → Option Pmm
  | .alloc pages => some (pmmAlloc pages s).2
  | .allocDma pages => some (pmmAllocDma pages s).2
  | .free start pages =>
    if start + pages ≤ s.totalPages then some (pmmFree start pages s) else none

/-- The first page of a block and the number of its pages. -/
abbrev Block := Nat × Nat

/-- The page belongs to the block. -/
def Block.Has (b : Block) (page : Nat) : Prop := b.1 ≤ page ∧ page < b.1 + b.2

/-- The blocks have no page in common. -/
def Block.Apart (b b' : Block) : Prop := ∀ page, ¬ (Block.Has b page ∧ Block.Has b' page)

/-- The memory manager and the blocks that its callers hold. -/
structure Holding where
  pmm : Pmm
  held : List Block

/-- The outcome of an allocation. -/
def Holding.take (h : Holding) (pages : Nat) : Option Nat × Pmm → Holding
  | (none, s) => ⟨s, h.held⟩
  | (some start, s) => ⟨s, (start, pages) :: h.held⟩

/-- One call of a caller that frees only what is held. -/
def Holding.step (h : Holding) : PmmOp → Option Holding
  | .alloc pages => some (h.take pages (pmmAlloc pages h.pmm))
  | .allocDma pages => some (h.take pages (pmmAllocDma pages h.pmm))
  | .free start pages =>
    if (start, pages) ∈ h.held then
      some ⟨pmmFree start pages h.pmm, h.held.erase (start, pages)⟩
    else none

section Calls

variable {s s' : Pmm} {limit pages page start : Nat}

/-- An allocation takes the pages of the block out of the free ones. -/
theorem freeSet_alloc (h : pmmAllocBelow limit pages s = (some page, s')) :
    s'.freeSet = s.freeSet \ Finset.Ico page (page + pages) := by
  obtain ⟨-, -, -, htotal, hbits⟩ := pmmAllocBelow_some h
  ext p
  simp only [Pmm.mem_freeSet, Pmm.Free, Finset.mem_sdiff, Finset.mem_Ico, htotal, hbits]
  by_cases hp : page ≤ p ∧ p < page + pages
  · simp [hp]
  · simp [hp]

theorem freePages_alloc (h : pmmAllocBelow limit pages s = (some page, s')) :
    s'.freePages = s.freePages - BitVec.ofNat 64 pages := by
  unfold pmmAllocBelow at h
  split at h
  · cases h
  · split at h
    · cases h
    · obtain ⟨-, rfl⟩ := Prod.mk.inj h
      simp only [foldl_bitmapSet]

/-- Both allocators count the pages that they take. -/
theorem Pmm.excess_alloc (hlimit : limit ≤ s.totalPages) (pages : Nat) :
    (pmmAllocBelow limit pages s).2.excess = s.excess := by
  cases hres : pmmAllocBelow limit pages s with
  | mk r s' =>
    cases r with
    | none => rw [pmmAllocBelow_none hres]
    | some page =>
      obtain ⟨-, hle, hclear, -, -⟩ := pmmAllocBelow_some hres
      have hsub : Finset.Ico page (page + pages) ⊆ s.freeSet := by
        intro p hp
        obtain ⟨hlo, hhi⟩ := Finset.mem_Ico.mp hp
        exact Pmm.mem_freeSet.mpr ⟨by omega, hclear p hlo hhi⟩
      have hcard : s.freeSet.card = s'.freeSet.card + pages := by
        have hdiff := Finset.card_sdiff_add_card_eq_card hsub
        rw [Nat.card_Ico, Nat.add_sub_cancel_left] at hdiff
        rw [freeSet_alloc hres, hdiff]
      unfold Pmm.excess
      rw [freePages_alloc hres, hcard, BitVec.ofNat_add]
      generalize BitVec.ofNat 64 s'.freeSet.card = n
      generalize BitVec.ofNat 64 pages = m
      bv_omega

/-- Freeing counts the pages that it clears, also where it stops at a double free. -/
theorem Pmm.excess_free (hin : ∀ p, start ≤ p → p < start + pages → p < s.totalPages) :
    (pmmFree start pages s).excess = s.excess := by
  induction pages generalizing start s with
  | zero => rfl
  | succ pages ih =>
    unfold pmmFree
    split
    · rfl
    next hset =>
      have hstart := hin start (Nat.le_refl _) (by omega)
      rw [← Pmm.excess_clear hstart (Bool.eq_true_of_not_eq_false hset)]
      refine ih fun p hp hp' => ?_
      exact hin p (by omega) (by omega)

theorem Pmm.Counted.alloc (hc : s.Counted) (hlimit : limit ≤ s.totalPages) (pages : Nat) :
    (pmmAllocBelow limit pages s).2.Counted :=
  Pmm.counted_iff.mpr ((Pmm.excess_alloc hlimit pages).trans (Pmm.counted_iff.mp hc))

theorem Pmm.Counted.free (hc : s.Counted)
    (hin : ∀ p, start ≤ p → p < start + pages → p < s.totalPages) :
    (pmmFree start pages s).Counted :=
  Pmm.counted_iff.mpr ((Pmm.excess_free hin).trans (Pmm.counted_iff.mp hc))

/-- A block all of whose pages are in use is freed as a whole. -/
theorem pmmFree_bitmap (hset : ∀ p, start ≤ p → p < start + pages → s.bitmap p = true) (p : Nat) :
    (pmmFree start pages s).bitmap p = false ↔
      s.bitmap p = false ∨ start ≤ p ∧ p < start + pages := by
  induction pages generalizing start s with
  | zero =>
    refine ⟨Or.inl, fun h => h.elim id fun h => ?_⟩
    omega
  | succ pages ih =>
    have hstart := hset start (Nat.le_refl _) (by omega)
    unfold pmmFree
    rw [if_neg (fun h => absurd (hstart.symm.trans h) (by decide))]
    rw [ih fun q hq hq' => ?_]
    · simp only [Pmm.bitmapClear]
      by_cases hp : p = start
      · subst hp
        simp
      · rw [Function.update_of_ne hp]
        refine or_congr_right ?_
        omega
    · have hne : q ≠ start := by omega
      simp only [Pmm.bitmapClear, Function.update_of_ne hne]
      exact hset q (by omega) (by omega)

end Calls

section Runs

/-- One call keeps the counter exact. -/
theorem Pmm.Counted.step {s s' : Pmm} {op : PmmOp} (hc : s.Counted)
    (h : pmmStep s op = some s') : s'.Counted := by
  cases op with
  | alloc pages =>
    cases h
    exact hc.alloc (Nat.le_refl _) _
  | allocDma pages =>
    cases h
    exact hc.alloc (Nat.min_le_right _ _) _
  | free start pages =>
    obtain ⟨hin, heq⟩ := Option.ite_none_right_eq_some.mp h
    cases heq
    exact hc.free fun p _ hp => by omega

theorem pmmStep_totalPages {s s' : Pmm} {op : PmmOp} (h : pmmStep s op = some s') :
    s'.totalPages = s.totalPages := by
  have halloc (limit pages : Nat) : (pmmAllocBelow limit pages s).2.totalPages = s.totalPages := by
    cases hres : pmmAllocBelow limit pages s with
    | mk r s₁ =>
      cases r with
      | none => rw [pmmAllocBelow_none hres]
      | some page => exact (pmmAllocBelow_some hres).2.2.2.1
  cases op with
  | alloc pages =>
    cases h
    exact halloc _ _
  | allocDma pages =>
    cases h
    exact halloc _ _
  | free start pages =>
    obtain ⟨-, heq⟩ := Option.ite_none_right_eq_some.mp h
    cases heq
    exact (pmmFree_frame start pages s).1

/-- The books of the callers agree with the bitmap: the pages that were free after
`pmm_init` are free or held, each by one block. -/
structure Balanced (s₀ : Pmm) (h : Holding) : Prop where
  total : h.pmm.totalPages = s₀.totalPages
  counted : h.pmm.Counted
  apart : h.held.Pairwise Block.Apart
  fresh : ∀ b ∈ h.held, ∀ p, Block.Has b p → s₀.Free p
  bits : ∀ p, h.pmm.bitmap p = false ↔ s₀.bitmap p = false ∧ ∀ b ∈ h.held, ¬ Block.Has b p

variable {s₀ : Pmm} {h h' : Holding}

theorem Balanced.alloc (hb : Balanced s₀ h) {limit : Nat} (pages : Nat)
    (hlimit : limit ≤ h.pmm.totalPages) :
    Balanced s₀ (h.take pages (pmmAllocBelow limit pages h.pmm)) := by
  have hcounted := hb.counted.alloc hlimit pages
  cases hres : pmmAllocBelow limit pages h.pmm with
  | mk r s' =>
    rw [hres] at hcounted
    cases r with
    | none =>
      obtain rfl := pmmAllocBelow_none hres
      exact hb
    | some page =>
      obtain ⟨-, hle, hclear, htotal, hbits⟩ := pmmAllocBelow_some hres
      have hnew (p : Nat) (hp : Block.Has (page, pages) p) :=
        (hb.bits p).mp (hclear p hp.1 hp.2)
      refine ⟨htotal.trans hb.total, hcounted, pairwise_cons.mpr ⟨?_, hb.apart⟩, ?_, ?_⟩
      · exact fun b hmem p hp => (hnew p hp.1).2 b hmem hp.2
      · intro b hmem p hp
        rcases mem_cons.mp hmem with rfl | hmem
        · refine ⟨?_, (hnew p hp).1⟩
          have hlt : p < page + pages := hp.2
          rw [← hb.total]
          omega
        · exact hb.fresh b hmem p hp
      · intro p
        show s'.bitmap p = false ↔
          s₀.bitmap p = false ∧ ∀ b ∈ (page, pages) :: h.held, ¬ Block.Has b p
        rw [hbits, forall_mem_cons]
        dsimp only
        by_cases hp : page ≤ p ∧ p < page + pages
        · rw [if_pos hp]
          exact ⟨fun hf => Bool.noConfusion hf, fun hf => absurd hp hf.2.1⟩
        · rw [if_neg hp, hb.bits p]
          exact and_congr_right fun _ => ⟨fun hf => ⟨hp, hf⟩, And.right⟩

theorem Balanced.free (hb : Balanced s₀ h) {b : Block} (hmem : b ∈ h.held) :
    Balanced s₀ ⟨pmmFree b.1 b.2 h.pmm, h.held.erase b⟩ := by
  -- All pages of the block are marked, since they were free and are held now.
  have hset (p : Nat) (hlo : b.1 ≤ p) (hhi : p < b.1 + b.2) : h.pmm.bitmap p = true :=
    Bool.eq_true_of_not_eq_false fun hf => ((hb.bits p).mp hf).2 b hmem ⟨hlo, hhi⟩
  have hperm := perm_cons_erase hmem
  have hapart : (b :: h.held.erase b).Pairwise Block.Apart :=
    hb.apart.perm hperm fun hab p hp => hab p hp.symm
  obtain ⟨hfirst, hrest⟩ := pairwise_cons.mp hapart
  refine ⟨(pmmFree_frame b.1 b.2 h.pmm).1.trans hb.total, hb.counted.free fun p hlo hhi => ?_,
    hrest, ?_, ?_⟩
  · rw [hb.total]
    exact (hb.fresh b hmem p ⟨hlo, hhi⟩).1
  · exact fun b' hb' => hb.fresh b' (mem_of_mem_erase hb')
  · intro p
    show (pmmFree b.1 b.2 h.pmm).bitmap p = false ↔ _
    rw [pmmFree_bitmap hset, hb.bits p]
    constructor
    · rintro (⟨hclear, hnone⟩ | hp)
      · exact ⟨hclear, fun b' hb' => hnone b' (mem_of_mem_erase hb')⟩
      · exact ⟨(hb.fresh b hmem p hp).2, fun b' hb' hp' => hfirst b' hb' p ⟨hp, hp'⟩⟩
    · rintro ⟨hclear, hnone⟩
      by_cases hp : Block.Has b p
      · exact Or.inr hp
      · refine Or.inl ⟨hclear, fun b' hb' => ?_⟩
        rcases mem_cons.mp (hperm.mem_iff.mp hb') with rfl | hrest'
        · exact hp
        · exact hnone b' hrest'

theorem Balanced.step (hb : Balanced s₀ h) {op : PmmOp} (he : h.step op = some h') :
    Balanced s₀ h' := by
  cases op with
  | alloc pages =>
    cases he
    exact hb.alloc pages (Nat.le_refl _)
  | allocDma pages =>
    cases he
    exact hb.alloc pages (Nat.min_le_right _ _)
  | free start pages =>
    obtain ⟨hmem, heq⟩ := Option.ite_none_right_eq_some.mp he
    cases heq
    exact hb.free hmem

theorem Balanced.refl {s : Pmm} (hc : s.Counted) : Balanced s ⟨s, []⟩ :=
  ⟨rfl, hc, List.Pairwise.nil, fun _ hb => absurd hb not_mem_nil, fun _ => by simp⟩

/-- With nothing held the state is the one after `pmm_init`. -/
theorem Balanced.pmm_eq (hb : Balanced s₀ h) (hc : s₀.Counted) (hnone : h.held = []) :
    h.pmm = s₀ := by
  have hbits : h.pmm.bitmap = s₀.bitmap := by
    funext p
    have hp := hb.bits p
    rw [hnone] at hp
    cases hbit : s₀.bitmap p with
    | false => exact hp.mpr ⟨hbit, fun _ hb => absurd hb not_mem_nil⟩
    | true =>
      refine Bool.eq_true_of_not_eq_false fun hf => ?_
      exact absurd (hbit.symm.trans (hp.mp hf).1) (by decide)
  have hset : h.pmm.freeSet = s₀.freeSet := by
    unfold Pmm.freeSet
    rw [hbits, hb.total]
  have hcount : h.pmm.freePages = s₀.freePages := by rw [hb.counted, hset, hc]
  calc h.pmm = ⟨h.pmm.bitmap, h.pmm.totalPages, h.pmm.freePages⟩ := rfl
    _ = s₀ := by rw [hbits, hb.total, hcount]

/-- Freeing all held blocks, in any order. -/
theorem Balanced.free_all (hb : Balanced s₀ h) (hc : s₀.Counted) {blocks : List Block}
    (hperm : blocks.Perm h.held) :
    blocks.foldl (fun s b => pmmFree b.1 b.2 s) h.pmm = s₀ := by
  induction blocks generalizing h with
  | nil => exact hb.pmm_eq hc (perm_nil.mp hperm.symm)
  | cons b blocks ih =>
    have hmem : b ∈ h.held := hperm.mem_iff.mp mem_cons_self
    have hrest : blocks.Perm (h.held.erase b) := by
      have := hperm.erase b
      rwa [erase_cons_head] at this
    exact ih (hb.free hmem) hrest

/-- The memory manager over whole runs: after `pmm_init` on any memory map and any
calls, the counter is the number of clear bits; and if only held blocks are
freed, the held ones are disjoint, made of usable pages outside the bitmap, and
freeing all of them restores the state after `pmm_init`. -/
theorem pmm_runs_balanced {entries : List MemmapEntry} {s₀ : Pmm} (hv : ValidMemmap entries)
    (hi : pmmInit entries = some s₀) :
    (∀ ops s, Run.run pmmStep s₀ ops = some s → s.freePages.toNat = s.freeSet.card) ∧
    ∀ ops h, Run.run Holding.step ⟨s₀, []⟩ ops = some h →
      h.held.Pairwise Block.Apart ∧
      (∀ b ∈ h.held, ∀ p, Block.Has b p → UsablePage entries p ∧ ¬ BitmapPage entries p) ∧
      ∀ blocks : List Block, blocks.Perm h.held →
        blocks.foldl (fun s b => pmmFree b.1 b.2 s) h.pmm = s₀ := by
  obtain ⟨hc, htotal, hbits⟩ := pmmInit_spec hv hi
  constructor
  · intro ops s hrun
    have hinv : s.Counted ∧ s.totalPages = s₀.totalPages := by
      refine Run.invariant (I := fun s => s.Counted ∧ s.totalPages = s₀.totalPages)
        (fun s op s' h he => ⟨h.1.step he, (pmmStep_totalPages he).trans h.2⟩) ⟨hc, rfl⟩ hrun
    rw [hinv.1, BitVec.toNat_ofNat, Nat.mod_eq_of_lt]
    have hle := s.card_freeSet_le
    have htop := (memmapTop entries).isLt
    rw [hinv.2, htotal] at hle
    exact lt_of_le_of_lt (hle.trans (Nat.div_le_self _ _)) htop
  · intro ops h hrun
    have hb : Balanced s₀ h := Run.invariant (fun _ _ _ hb he => hb.step he) (.refl hc) hrun
    refine ⟨hb.apart, fun b hmem p hp => ?_, fun blocks hperm => hb.free_all hc hperm⟩
    obtain ⟨husable, -, hbitmap⟩ := (hbits p).mp (hb.fresh b hmem p hp).2
    exact ⟨husable, hbitmap⟩

/-- A memory map with four usable pages and a reserved entry. -/
def smallMap : List MemmapEntry := [⟨0, 0x1000, 1⟩, ⟨0x1000, 0x4000, 0⟩]

theorem smallMap_valid : ValidMemmap smallMap := by
  constructor
  · decide
  · decide
  · decide
  · refine pairwise_cons.mpr ⟨fun e he _ addr h => ?_, pairwise_singleton _ _⟩
    obtain rfl := mem_singleton.mp he
    have h₁ : addr < 0x1000 := h.1.2
    have h₂ : 0x1000 ≤ addr := h.2.1
    omega

theorem pmm_runs_balanced_smallMap : ∃ s₀ h, pmmInit smallMap = some s₀ ∧
    Run.run Holding.step ⟨s₀, []⟩ [.alloc 2, .allocDma 1] = some h ∧
    h.held = [(4, 1), (2, 2)] ∧ h.held.Pairwise Block.Apart ∧
    pmmFree 4 1 (pmmFree 2 2 h.pmm) = s₀ := by
  obtain ⟨s₀, hi, h, hrun, hheld⟩ : ∃ s₀, pmmInit smallMap = some s₀ ∧
      ∃ h, Run.run Holding.step ⟨s₀, []⟩ [.alloc 2, .allocDma 1] = some h ∧
      h.held = [(4, 1), (2, 2)] := by
    decide +kernel
  obtain ⟨hapart, -, hall⟩ := (pmm_runs_balanced smallMap_valid hi).2 _ h hrun
  refine ⟨s₀, h, hi, hrun, hheld, hapart, hall [(2, 2), (4, 1)] ?_⟩
  rw [hheld]
  exact List.Perm.swap _ _ _

end Runs

end Mmix.Mm
