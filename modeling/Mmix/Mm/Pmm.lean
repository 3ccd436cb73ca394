import Mathlib

/-!
# Physical memory manager

The bitmap allocator of `pmm.c`. A set bit marks a used page. The source
returns pointers into the higher-half direct map; here a block is named by
the number of its first page, and `none` is the null pointer.
-/

namespace Mmix.Mm

/-- `PAGE_SIZE`. -/
def pageSize : Nat := 4096

/-- The static state of `pmm.c` after `pmm_init`. -/
structure Pmm where
  bitmap : Nat → Bool
  totalPages : Nat
  freePages : BitVec 64

namespace Pmm

def bitmapSet (s : Pmm) (page : Nat) : Pmm :=
  { s with bitmap := Function.update s.bitmap page true }

def bitmapClear (s : Pmm) (page : Nat) : Pmm :=
  { s with bitmap := Function.update s.bitmap page false }

abbrev bitmapTest (s : Pmm) (page : Nat) : Bool := s.bitmap page

/-- A page the allocator may hand out. -/
def Free (s : Pmm) (page : Nat) : Prop :=
  page < s.totalPages ∧ s.bitmap page = false

end Pmm

/-- The search loop shared by both allocators: `left` pages remain to be
looked at from page `i`, and the last `consecutive` pages seen were clear. -/
def pmmScan (s : Pmm) (pages : Nat) : Nat → Nat → Nat → Nat → Option Nat
  | 0, _, _, _ => none
  | left + 1, i, consecutive, start =>
    if s.bitmapTest i = false then
      let start := if consecutive = 0 then i else start
      let consecutive := consecutive + 1
      if consecutive = pages then some start
      else pmmScan s pages left (i + 1) consecutive start
    else pmmScan s pages left (i + 1) 0 start

/-- First-fit allocation among the pages below a limit. -/
def pmmAllocBelow (limit pages : Nat) (s : Pmm) : Option Nat × Pmm :=
  if pages = 0 then (none, s)
  else
    match pmmScan s pages limit 0 0 0 with
    | none => (none, s)
    | some start =>
      let marked := (List.range pages).foldl (fun s j => s.bitmapSet (start + j)) s
      (some start, { marked with freePages := marked.freePages - BitVec.ofNat 64 pages })

/-- `pmm_alloc`. -/
def pmmAlloc (pages : Nat) (s : Pmm) : Option Nat × Pmm :=
  pmmAllocBelow s.totalPages pages s

/-- `pmm_alloc_dma`: the same search, below 4 GiB only. -/
def pmmAllocDma (pages : Nat) (s : Pmm) : Option Nat × Pmm :=
  pmmAllocBelow (min (4 * 1024 * 1024 * 1024 / pageSize) s.totalPages) pages s

/-- `pmm_free`: stops with a warning at the first page that is already free. -/
def pmmFree (start : Nat) : Nat → Pmm → Pmm
  | 0, s => s
  | pages + 1, s =>
    if s.bitmapTest start = false then s
    else
      let s := s.bitmapClear start
      pmmFree (start + 1) pages { s with freePages := s.freePages + 1 }

section Spec

/-- A run of clear pages below a limit. -/
def ClearRun (s : Pmm) (limit pages page : Nat) : Prop :=
  page + pages ≤ limit ∧ ∀ p, page ≤ p → p < page + pages → s.bitmap p = false

/-- What the search knows at page `i`: the clear pages right before it are the
`consecutive` last ones, and no run ends before it. -/
structure Scanned (s : Pmm) (pages i consecutive start : Nat) : Prop where
  short : consecutive < pages
  start_add : consecutive = 0 ∨ start + consecutive = i
  clear : ∀ p, i ≤ p + consecutive → p < i → s.bitmap p = false
  border : ∀ p, p + consecutive + 1 = i → s.bitmap p = true
  none_before : ∀ page, ¬ ClearRun s i pages page

variable {s : Pmm} {pages i consecutive start page : Nat}

theorem Scanned.zero (hpages : 0 < pages) : Scanned s pages 0 0 0 where
  short := hpages
  start_add := Or.inl rfl
  clear := by omega
  border := by omega
  none_before := by
    rintro page ⟨hle, -⟩
    omega

/-- A used page ends the run. -/
theorem Scanned.used (h : Scanned s pages i consecutive start) (hset : s.bitmap i = true) :
    Scanned s pages (i + 1) 0 start where
  short := Nat.zero_lt_of_lt h.short
  start_add := Or.inl rfl
  clear := by omega
  border p hp := by
    obtain rfl : p = i := by omega
    exact hset
  none_before := by
    rintro page ⟨hle, hclear⟩
    by_cases hend : page + pages ≤ i
    · exact h.none_before page ⟨hend, hclear⟩
    · -- The run would contain page `i`.
      have hshort := h.short
      have hi := hclear i (by omega) (by omega)
      rw [hset] at hi
      cases hi

/-- A run that ends with the clear page `i` starts behind the last used page. -/
theorem Scanned.run_start (h : Scanned s pages i consecutive start)
    (hrun : ClearRun s (i + 1) pages page) : page + pages = i + 1 ∧ i ≤ page + consecutive := by
  obtain ⟨hle, hclear⟩ := hrun
  have hend : page + pages = i + 1 := by
    by_contra hne
    exact h.none_before page ⟨by omega, hclear⟩
  refine ⟨hend, ?_⟩
  by_contra hlt
  have hused := h.border (i - consecutive - 1) (by omega)
  rw [hclear _ (by omega) (by omega)] at hused
  cases hused

theorem Scanned.clear_succ (h : Scanned s pages i consecutive start)
    (hclear : s.bitmap i = false) :
    ∀ p, i + 1 ≤ p + (consecutive + 1) → p < i + 1 → s.bitmap p = false := by
  intro p hp hp'
  by_cases hpi : p = i
  · exact hpi ▸ hclear
  · exact h.clear p (by omega) (by omega)

theorem Scanned.start_succ (h : Scanned s pages i consecutive start) :
    (if consecutive = 0 then i else start) + (consecutive + 1) = i + 1 := by
  have hstart := h.start_add
  split <;> omega

/-- A clear page makes the run longer. -/
theorem Scanned.grow (h : Scanned s pages i consecutive start) (hclear : s.bitmap i = false)
    (hne : consecutive + 1 ≠ pages) :
    Scanned s pages (i + 1) (consecutive + 1) (if consecutive = 0 then i else start) where
  short := by
    have := h.short
    omega
  start_add := Or.inr h.start_succ
  clear := h.clear_succ hclear
  border p hp := h.border p (by omega)
  none_before := by
    intro page hrun
    have hshort := h.short
    obtain ⟨hend, hstart⟩ := h.run_start hrun
    omega

/-- The run that the search completes is the lowest one. -/
theorem Scanned.complete (h : Scanned s pages i consecutive start) (hclear : s.bitmap i = false)
    (heq : consecutive + 1 = pages) {limit : Nat} (hlimit : i < limit) :
    IsLeast {page | ClearRun s limit pages page} (if consecutive = 0 then i else start) := by
  have hstart := h.start_succ
  constructor
  · refine ⟨by omega, fun p hp hp' => ?_⟩
    exact h.clear_succ hclear p (by omega) (by omega)
  · rintro page ⟨-, hrun⟩
    by_contra hlt
    exact h.none_before page ⟨by omega, hrun⟩

/-- The search returns the lowest run below its limit, and nothing only if
there is none. -/
theorem pmmScan_spec {left : Nat} (h : Scanned s pages i consecutive start) :
    (∀ page, pmmScan s pages left i consecutive start = some page →
      IsLeast {page | ClearRun s (i + left) pages page} page) ∧
    (pmmScan s pages left i consecutive start = none →
      ∀ page, ¬ ClearRun s (i + left) pages page) := by
  induction left generalizing i consecutive start with
  | zero => exact ⟨by simp [pmmScan], fun _ => h.none_before⟩
  | succ left ih =>
    simp only [pmmScan, Pmm.bitmapTest]
    rw [Nat.add_comm left 1, ← Nat.add_assoc]
    by_cases hclear : s.bitmap i = false
    · rw [if_pos hclear]
      by_cases heq : consecutive + 1 = pages
      · rw [if_pos heq]
        refine ⟨fun page hpage => ?_, fun hnone => absurd hnone (Option.some_ne_none _)⟩
        cases hpage
        exact h.complete hclear heq (by omega)
      · rw [if_neg heq]
        exact ih (h.grow hclear heq)
    · rw [if_neg hclear]
      exact ih (h.used (Bool.of_not_eq_false hclear))

theorem pmmScan_zero_spec {limit : Nat} (hpages : 0 < pages) :
    (∀ page, pmmScan s pages limit 0 0 0 = some page →
      IsLeast {page | ClearRun s limit pages page} page) ∧
    (pmmScan s pages limit 0 0 0 = none → ∀ page, ¬ ClearRun s limit pages page) := by
  have hspec := @pmmScan_spec s pages 0 0 0 limit (Scanned.zero hpages)
  rwa [Nat.zero_add] at hspec

theorem foldl_bitmapSet (s : Pmm) (start pages : Nat) :
    (List.range pages).foldl (fun s j => s.bitmapSet (start + j)) s =
      { s with bitmap := fun p => if start ≤ p ∧ p < start + pages then true else s.bitmap p } := by
  induction pages with
  | zero =>
    have hfun : (fun p => if start ≤ p ∧ p < start + 0 then true else s.bitmap p) =
        s.bitmap := by
      funext p
      rw [if_neg (by omega)]
    simp only [List.range_zero, List.foldl_nil, hfun]
  | succ pages ih =>
    rw [List.range_succ, List.foldl_append, ih]
    simp only [List.foldl_cons, List.foldl_nil, Pmm.bitmapSet, Pmm.mk.injEq, and_self,
      and_true]
    funext p
    by_cases hp : p = start + pages
    · subst hp
      simp
    · rw [Function.update_of_ne hp]
      have : (start ≤ p ∧ p < start + pages) ↔ (start ≤ p ∧ p < start + (pages + 1)) := by
        omega
      simp only [this]

/-- What a successful allocation does: the lowest run of free pages becomes used. -/
theorem pmmAllocBelow_lowest {limit : Nat} {s' : Pmm}
    (h : pmmAllocBelow limit pages s = (some page, s')) :
    0 < pages ∧ IsLeast {page | ClearRun s limit pages page} page ∧
      s' = { s with
        bitmap := fun p => if page ≤ p ∧ p < page + pages then true else s.bitmap p
        freePages := s.freePages - BitVec.ofNat 64 pages } := by
  unfold pmmAllocBelow at h
  split at h
  · cases h
  · rename_i hpages
    split at h
    · cases h
    · rename_i start hscan
      have hleast := (pmmScan_zero_spec (Nat.pos_of_ne_zero hpages)).1 start hscan
      simp only [foldl_bitmapSet] at h
      obtain ⟨hstart, hs'⟩ := Prod.mk.inj h
      cases hstart
      exact ⟨Nat.pos_of_ne_zero hpages, hleast, hs'.symm⟩

theorem pmmAllocBelow_some {limit pages page : Nat} {s s' : Pmm}
    (h : pmmAllocBelow limit pages s = (some page, s')) :
    0 < pages ∧ page + pages ≤ limit ∧
      (∀ p, page ≤ p → p < page + pages → s.bitmap p = false) ∧
      s'.totalPages = s.totalPages ∧
      s'.bitmap = fun p => if page ≤ p ∧ p < page + pages then true else s.bitmap p := by
  obtain ⟨hpages, ⟨⟨hle, hclear⟩, -⟩, rfl⟩ := pmmAllocBelow_lowest h
  exact ⟨hpages, hle, hclear, rfl, rfl⟩

theorem pmmAllocBelow_none {limit pages : Nat} {s s' : Pmm}
    (h : pmmAllocBelow limit pages s = (none, s')) : s' = s := by
  unfold pmmAllocBelow at h
  split at h
  · exact (Prod.mk.inj h).2.symm
  · split at h
    · exact (Prod.mk.inj h).2.symm
    · cases h

/-- A single page comes from the free pages and is the only one to change. -/
theorem pmmAlloc_one_some {page : Nat} {s s' : Pmm} (h : pmmAlloc 1 s = (some page, s')) :
    s.Free page ∧ s'.totalPages = s.totalPages ∧
      s'.bitmap = Function.update s.bitmap page true := by
  obtain ⟨-, hle, hclear, htotal, hbits⟩ := pmmAllocBelow_some h
  refine ⟨⟨by omega, hclear page (Nat.le_refl _) (by omega)⟩, htotal, ?_⟩
  rw [hbits]
  funext p
  by_cases hp : p = page
  · subst hp
    simp
  · rw [Function.update_of_ne hp, if_neg (by omega)]

theorem pmmAlloc_none {pages : Nat} {s s' : Pmm} (h : pmmAlloc pages s = (none, s')) :
    s' = s := pmmAllocBelow_none h

/-- An allocation fails exactly if there is no run. -/
theorem pmmAllocBelow_none_iff {limit : Nat} (hpages : 0 < pages) :
    (pmmAllocBelow limit pages s).1 = none ↔ ∀ page, ¬ ClearRun s limit pages page := by
  constructor
  · intro h
    apply (pmmScan_zero_spec hpages).2
    rw [pmmAllocBelow, if_neg (Nat.ne_of_gt hpages)] at h
    split at h
    · assumption
    · cases h
  · intro h
    cases halloc : pmmAllocBelow limit pages s with
    | mk page s' =>
      cases page with
      | none => rfl
      | some page => exact absurd (pmmAllocBelow_lowest halloc).2.1.1 (h page)

theorem clearRun_one : ClearRun s s.totalPages 1 page ↔ s.Free page := by
  constructor
  · rintro ⟨hle, hclear⟩
    exact ⟨hle, hclear page (Nat.le_refl _) (Nat.lt_succ_self _)⟩
  · rintro ⟨hlt, hclear⟩
    refine ⟨hlt, fun p hp hp' => ?_⟩
    obtain rfl : p = page := by omega
    exact hclear

/-- A single page is refused exactly when no page is free. -/
theorem pmmAlloc_one_none_iff (s : Pmm) : (pmmAlloc 1 s).1 = none ↔ ∀ page, ¬ s.Free page := by
  rw [pmmAlloc, pmmAllocBelow_none_iff Nat.one_pos]
  simp only [clearRun_one]

/-- First-fit allocation below a limit: it fails exactly if there is no run of
clear pages, and takes the lowest one otherwise. -/
structure FirstFit (limit pages : Nat) (s : Pmm) (result : Option Nat × Pmm) : Prop where
  none_iff : result.1 = none ↔ ¬ ∃ page, ClearRun s limit pages page
  refused : result.1 = none → result.2 = s
  lowest : ∀ page, result.1 = some page → IsLeast {page | ClearRun s limit pages page} page
  marked : ∀ page, result.1 = some page → ∀ p,
    result.2.bitmap p = (decide (page ≤ p ∧ p < page + pages) || s.bitmap p)
  counted : ∀ page, result.1 = some page →
    result.2.freePages = s.freePages - BitVec.ofNat 64 pages
  total : result.2.totalPages = s.totalPages

theorem firstFit_below (limit : Nat) (s : Pmm) (hpages : 1 ≤ pages) :
    FirstFit limit pages s (pmmAllocBelow limit pages s) := by
  cases halloc : pmmAllocBelow limit pages s with
  | mk page s' =>
    have hnone := @pmmAllocBelow_none_iff s pages limit hpages
    rw [halloc, ← not_exists] at hnone
    cases page with
    | none =>
      obtain rfl := pmmAllocBelow_none halloc
      exact ⟨hnone, fun _ => rfl, by simp, by simp, by simp, rfl⟩
    | some page =>
      obtain ⟨-, hleast, rfl⟩ := pmmAllocBelow_lowest halloc
      refine ⟨hnone, by simp, ?_, ?_, ?_, rfl⟩
      · rintro _ ⟨⟩
        exact hleast
      · rintro _ ⟨⟩ p
        dsimp only
        split <;> simp_all
      · rintro _ ⟨⟩
        rfl

/-- Both allocators are first fit, and what `pmm_alloc_dma` returns lies below
4 GiB. -/
theorem pmm_first_fit (s : Pmm) (pages : Nat) (hpages : 1 ≤ pages) :
    FirstFit s.totalPages pages s (pmmAlloc pages s) ∧
      FirstFit (min s.totalPages (2 ^ 20)) pages s (pmmAllocDma pages s) ∧
      ∀ page, (pmmAllocDma pages s).1 = some page →
        (page + pages) * pageSize ≤ 4 * 1024 * 1024 * 1024 := by
  have hdma : FirstFit (min s.totalPages (2 ^ 20)) pages s (pmmAllocDma pages s) := by
    rw [Nat.min_comm]
    exact firstFit_below _ s hpages
  refine ⟨firstFit_below _ s hpages, hdma, fun page hpage => ?_⟩
  obtain ⟨⟨hle, -⟩, -⟩ := hdma.lowest page hpage
  simp only [pageSize]
  omega

/-- Of six pages the first and the third are in use: a run of two starts at the fourth. -/
theorem pmm_first_fit_six_pages :
    (pmmAlloc 2 ⟨fun p => p == 0 || p == 2, 6, 4⟩).1 = some 3 ∧
      FirstFit 6 2 ⟨fun p => p == 0 || p == 2, 6, 4⟩
        (pmmAlloc 2 ⟨fun p => p == 0 || p == 2, 6, 4⟩) :=
  ⟨by decide, (pmm_first_fit ⟨fun p => p == 0 || p == 2, 6, 4⟩ 2 (by decide)).1⟩

/-- Freeing keeps the size and touches no page outside the freed block. -/
theorem pmmFree_frame (start pages : Nat) (s : Pmm) :
    (pmmFree start pages s).totalPages = s.totalPages ∧
      ∀ p, ¬ (start ≤ p ∧ p < start + pages) →
        (pmmFree start pages s).bitmap p = s.bitmap p := by
  induction pages generalizing start s with
  | zero => simp [pmmFree]
  | succ pages ih =>
    unfold pmmFree
    split
    · simp
    · obtain ⟨htotal, hbits⟩ := ih (start + 1)
        { s.bitmapClear start with freePages := (s.bitmapClear start).freePages + 1 }
      refine ⟨htotal, fun p hp => ?_⟩
      rw [hbits p (by omega)]
      have hne : p ≠ start := by omega
      simp [Pmm.bitmapClear, hne]

theorem pmmFree_one (page : Nat) (s : Pmm) :
    (pmmFree page 1 s).bitmap = Function.update s.bitmap page false := by
  unfold pmmFree
  split
  · rename_i hclear
    rw [show s.bitmap = Function.update s.bitmap page (s.bitmap page) by simp]
    simp only [Pmm.bitmapTest] at hclear
    simp [hclear]
  · simp [pmmFree, Pmm.bitmapClear]

end Spec

end Mmix.Mm
