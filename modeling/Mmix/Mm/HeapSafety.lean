import Mmix.Mm.HeapShape

/-!
# Safety of the kernel heap

Callers hold allocations and free or resize only those they hold. In every
run that merges no block with the first block of a page run, live allocations
lie in separate used blocks.
-/

namespace Mmix.Mm

open Tiling List Option

/-- The heap and the allocations its callers hold, each with the size that
was asked for. -/
structure HeapSystem where
  heap : Heap
  live : List (Nat × Nat)

/-- A call of the allocator, with the results of `pmm_alloc` it will see. -/
inductive HeapEvent where
  | kmalloc (size : BitVec 64) (places : List (Option Nat))
  | kcalloc (count size : BitVec 64) (places : List (Option Nat))
  | krealloc (ptr : Nat) (size : BitVec 64) (places : List (Option Nat))
  | kfree (ptr : Nat)

/-- The bytes of an allocation. -/
def allocSpan (a : Nat × Nat) : Span := ⟨a.1, a.1 + a.2⟩

/-- The allocations without the one at a pointer. -/
def release (ptr : Nat) (live : List (Nat × Nat)) : List (Nat × Nat) :=
  live.filter fun a => a.1 ≠ ptr

/-- The allocations after a call that returned a pointer or null. -/
def acquire (r : Option Nat) (size : Nat) (live : List (Nat × Nat)) : List (Nat × Nat) :=
  match r with
  | none => live
  | some ptr => (ptr, size) :: live

namespace HeapSystem

/-- A call that is possible only for placements `pmm_alloc` can return. -/
def commit (h : Heap) (live : List (Nat × Nat)) : Option HeapSystem :=
  if RunsOk h.runs then some ⟨h, live⟩ else none

/-- A pointer that a caller may free or resize. -/
def Owned (s : HeapSystem) (ptr : Nat) : Prop := ptr = 0 ∨ ptr ∈ s.live.map Prod.fst

instance (s : HeapSystem) (ptr : Nat) : Decidable (s.Owned ptr) :=
  inferInstanceAs (Decidable (_ ∨ _))

/-- The allocations after `krealloc`: null leaves the old one in place unless
the size was zero. -/
def resized (r : Option Nat) (ptr size : Nat) (live : List (Nat × Nat)) : List (Nat × Nat) :=
  match r with
  | some newPtr => (newPtr, size) :: release ptr live
  | none => if size = 0 then release ptr live else live

def step (s : HeapSystem) : HeapEvent → Option HeapSystem
  | .kmalloc size places =>
    match Mm.kmalloc places s.heap size.toNat with
    | (r, h) => commit h (acquire r size.toNat s.live)
  | .kcalloc count size places =>
    match Mm.kcalloc places s.heap count.toNat size.toNat with
    | (r, h) => commit h (acquire r (count.toNat * size.toNat) s.live)
  | .krealloc ptr size places =>
    if s.Owned ptr then
      match Mm.krealloc places s.heap ptr size.toNat with
      | (r, h) => commit h (resized r ptr size.toNat s.live)
    else none
  | .kfree ptr =>
    if s.Owned ptr then commit (Mm.kfree s.heap ptr) (release ptr s.live) else none

/-- The heap after `heap_init`, with nothing allocated. -/
def boot (place : Option Nat) : HeapSystem := ⟨heapInit place, []⟩

/-- Live allocations are pairwise disjoint, avoid all headers and lie each in
one page run. -/
structure Safe (s : HeapSystem) : Prop where
  disjoint : s.live.Pairwise fun a b => (allocSpan a).Apart (allocSpan b)
  headers : ∀ a ∈ s.live, ∀ b ∈ s.heap.blocks, (allocSpan a).Apart b.header
  inside : ∀ a ∈ s.live, ∃ r ∈ s.heap.runs, (allocSpan a).Within r

/-- Every live allocation has a used block of its own that is large enough. -/
structure Inv (s : HeapSystem) : Prop where
  shape : HeapShape s.heap
  backed : ∀ a ∈ s.live, ∃ b ∈ s.heap.blocks, b.free = false ∧ b.ptr = a.1 ∧ a.2 ≤ b.size
  distinct : (s.live.map Prod.fst).Nodup

/-- The requested sizes do not wrap, and a block is never merged with the first
block of a page run. -/
def Careful (s : HeapSystem) : HeapEvent → Prop
  | .kmalloc size _ => size.toNat ≤ sizeMod - 16
  | .kcalloc count size _ => count.toNat * size.toNat ≤ sizeMod - 16
  | .krealloc ptr size places =>
    size.toNat ≤ sizeMod - 16 ∧
      (ptr ≠ 0 → size.toNat = 0 → FreeKeepsRuns s.heap ptr) ∧
      ∀ b ∈ blockOf s.heap ptr, b.size < size.toNat →
        (Mm.kmalloc places s.heap size.toNat).1.isSome →
        FreeKeepsRuns (Mm.kmalloc places s.heap size.toNat).2 ptr
  | .kfree ptr => ptr ≠ 0 → FreeKeepsRuns s.heap ptr

instance (s : HeapSystem) : (e : HeapEvent) → Decidable (s.Careful e)
  | .kmalloc size _ => inferInstanceAs (Decidable (size.toNat ≤ sizeMod - 16))
  | .kcalloc count size _ =>
    inferInstanceAs (Decidable (count.toNat * size.toNat ≤ sizeMod - 16))
  | .krealloc _ _ _ => inferInstanceAs (Decidable (_ ∧ (_ → _ → _) ∧ ∀ b ∈ _, _ → _ → _))
  | .kfree ptr => inferInstanceAs (Decidable (ptr ≠ 0 → FreeKeepsRuns s.heap ptr))

section Step

variable {s : HeapSystem}

theorem Inv.safe (hi : s.Inv) : s.Safe := by
  have hin : ∀ a ∈ s.live, ∀ b ∈ s.heap.blocks, b.ptr = a.1 → a.2 ≤ b.size →
      (allocSpan a).Within b.span ∧ (allocSpan a).Apart b.header := by
    intro a _ b _ hptr hle
    simp only [allocSpan, Span.Within, Span.Apart, HeapBlock.span, HeapBlock.header,
      HeapBlock.ptr] at *
    omega
  refine ⟨?_, ?_, ?_⟩
  · have hnodup : s.live.Pairwise fun a b => a.1 ≠ b.1 := pairwise_map.mp hi.distinct
    refine hnodup.imp_of_mem fun {a a'} ha ha' hne => ?_
    obtain ⟨b, hb, -, hptr, hle⟩ := hi.backed a ha
    obtain ⟨b', hb', -, hptr', hle'⟩ := hi.backed a' ha'
    have hbb : b ≠ b' := by
      rintro rfl
      exact hne (hptr.symm.trans hptr')
    exact (hi.shape.apart hb hb' hbb).mono (hin a ha b hb hptr hle).1
      (hin a' ha' b' hb' hptr' hle').1
  · intro a ha c hc
    obtain ⟨b, hb, -, hptr, hle⟩ := hi.backed a ha
    by_cases hbc : b = c
    · exact hbc ▸ (hin a ha b hb hptr hle).2
    · refine (hi.shape.apart hb hc hbc).mono (hin a ha b hb hptr hle).1 ?_
      simp only [Span.Within, HeapBlock.header, HeapBlock.span]
      omega
  · intro a ha
    obtain ⟨b, hb, -, hptr, hle⟩ := hi.backed a ha
    obtain ⟨r, hr, hw⟩ := hi.shape.layout.within hb
    exact ⟨r, hr, (hin a ha b hb hptr hle).1.trans hw⟩

theorem commit_some {h : Heap} {live : List (Nat × Nat)} {s' : HeapSystem}
    (hc : commit h live = some s') : RunsOk h.runs ∧ s' = ⟨h, live⟩ := by
  obtain ⟨hruns, heq⟩ := ite_none_right_eq_some.mp hc
  exact ⟨hruns, (some.inj heq).symm⟩

theorem mem_release {ptr : Nat} {live : List (Nat × Nat)} {a : Nat × Nat} :
    a ∈ release ptr live ↔ a ∈ live ∧ a.1 ≠ ptr := by
  simp [release]

theorem nodup_release {ptr : Nat} {live : List (Nat × Nat)}
    (h : (live.map Prod.fst).Nodup) : ((release ptr live).map Prod.fst).Nodup :=
  h.sublist (filter_sublist.map _)

/-- An allocation keeps the invariant. -/
theorem Inv.kmalloc (hi : s.Inv) {places : List (Option Nat)} {size req : Nat}
    {r : Option Nat} {h : Heap} (hk : Mm.kmalloc places s.heap size = (r, h))
    (hruns : RunsOk h.runs) (hreq : req ≤ alignSize size) :
    Inv ⟨h, acquire r req s.live⟩ := by
  obtain ⟨hshape, hkept, hnew⟩ := kmalloc_spec hk hi.shape hruns
  have hold : ∀ a ∈ s.live, ∃ b ∈ h.blocks, b.free = false ∧ b.ptr = a.1 ∧ a.2 ≤ b.size := by
    intro a ha
    obtain ⟨b, hb, hused, hspec⟩ := hi.backed a ha
    exact ⟨b, hkept b hb hused, hused, hspec⟩
  cases r with
  | none => exact ⟨hshape, hold, hi.distinct⟩
  | some ptr =>
    obtain ⟨⟨b, hb, hused, hptr, hle⟩, hfresh⟩ := hnew ptr rfl
    refine ⟨hshape, ?_, ?_⟩
    · intro a ha
      rcases mem_cons.mp ha with rfl | ha
      · exact ⟨b, hb, hused, hptr, hreq.trans hle⟩
      · exact hold a ha
    · refine nodup_cons.mpr ⟨?_, hi.distinct⟩
      rintro hmem
      obtain ⟨a, ha, hfst⟩ := mem_map.mp hmem
      obtain ⟨b', hb', hused', hptr', -⟩ := hi.backed a ha
      exact hfresh b' hb' hused' (hptr'.trans hfst)

/-- A release that merges nothing over the start of a run keeps the invariant. -/
theorem Inv.kfree (hi : s.Inv) {ptr : Nat} (hkeep : ptr ≠ 0 → FreeKeepsRuns s.heap ptr) :
    Inv ⟨Mm.kfree s.heap ptr, release ptr s.live⟩ := by
  have hshape : HeapShape (Mm.kfree s.heap ptr) := by
    by_cases hz : ptr = 0
    · simp only [Mm.kfree, hz, if_true]
      exact hi.shape
    · exact kfree_shape hi.shape (hkeep hz)
  refine ⟨hshape, ?_, nodup_release hi.distinct⟩
  intro a ha
  obtain ⟨hlive, hne⟩ := mem_release.mp ha
  obtain ⟨b, hb, hused, hptr, hle⟩ := hi.backed a hlive
  exact ⟨b, kfree_used hb hused (hptr ▸ hne), hused, hptr, hle⟩

theorem Inv.ptr_ne_zero (hi : s.Inv) {a : Nat × Nat} (ha : a ∈ s.live) : a.1 ≠ 0 := by
  obtain ⟨b, -, -, hptr, -⟩ := hi.backed a ha
  simp only [HeapBlock.ptr, headerSize] at hptr
  omega

theorem Inv.release_zero (hi : s.Inv) : release 0 s.live = s.live := by
  apply filter_eq_self.mpr
  intro a ha
  simpa using hi.ptr_ne_zero ha

theorem blockOf_spec {h : Heap} {ptr : Nat} {b : HeapBlock} (hb : blockOf h ptr = some b) :
    b ∈ h.blocks ∧ b.ptr = ptr :=
  ⟨mem_of_find?_eq_some hb, by simpa using find?_some hb⟩

/-- A live pointer names its used block. -/
theorem Inv.blockOf_live (hi : s.Inv) {ptr : Nat} (hp : ptr ∈ s.live.map Prod.fst) :
    ∃ b, blockOf s.heap ptr = some b ∧ b.free = false := by
  obtain ⟨a, ha, rfl⟩ := mem_map.mp hp
  obtain ⟨b, hb, hused, hptr, -⟩ := hi.backed a ha
  cases hf : blockOf s.heap a.1 with
  | none => exact absurd (by simp [hptr]) (find?_eq_none.mp hf b hb)
  | some b' =>
    obtain ⟨hb', hptr'⟩ := blockOf_spec hf
    obtain rfl := hi.shape.ptr_inj hb hb' (hptr.trans hptr'.symm)
    exact ⟨b, rfl, hused⟩

theorem Inv.krealloc (hi : s.Inv) {places : List (Option Nat)} {ptr size : Nat}
    {r : Option Nat} {h : Heap} (hown : s.Owned ptr)
    (hk : Mm.krealloc places s.heap ptr size = (r, h)) (hruns : RunsOk h.runs)
    (hsize : size ≤ sizeMod - 16) (hzero : ptr ≠ 0 → size = 0 → FreeKeepsRuns s.heap ptr)
    (hmove : ∀ b ∈ blockOf s.heap ptr, b.size < size →
      (Mm.kmalloc places s.heap size).1.isSome →
      FreeKeepsRuns (Mm.kmalloc places s.heap size).2 ptr) :
    Inv ⟨h, resized r ptr size s.live⟩ := by
  unfold Mm.krealloc at hk
  by_cases hnull : ptr = 0
  · rw [if_pos hnull] at hk
    have hres : resized r ptr size s.live = acquire r size s.live := by
      subst hnull
      cases r with
      | none => simp [resized, acquire, hi.release_zero]
      | some newPtr => simp [resized, acquire, hi.release_zero]
    rw [hres]
    exact hi.kmalloc hk hruns (le_alignSize hsize)
  rw [if_neg hnull] at hk
  by_cases hz : size = 0
  · rw [if_pos hz] at hk
    cases hk
    simp only [resized, hz, if_true]
    exact hi.kfree fun hne => hzero hne hz
  rw [if_neg hz] at hk
  have hlive := hown.resolve_left hnull
  obtain ⟨b, hblock, hused⟩ := hi.blockOf_live hlive
  obtain ⟨hb, hptr⟩ := blockOf_spec hblock
  simp only [hblock] at hk
  by_cases hfit : size ≤ b.size
  · -- The block is large enough and stays where it is.
    rw [if_pos hfit] at hk
    cases hk
    refine ⟨hi.shape, ?_, nodup_cons.mpr ⟨?_, nodup_release hi.distinct⟩⟩
    · intro a ha
      rcases mem_cons.mp ha with rfl | ha
      · exact ⟨b, hb, hused, hptr, hfit⟩
      · exact hi.backed a (mem_release.mp ha).1
    · intro hmem
      obtain ⟨a, ha, hfst⟩ := mem_map.mp hmem
      exact (mem_release.mp ha).2 hfst
  rw [if_neg hfit] at hk
  cases hm : Mm.kmalloc places s.heap size with
  | mk r₁ h₁ =>
    cases r₁ with
    | none =>
      simp only [hm] at hk
      cases hk
      simp only [resized, if_neg hz]
      exact hi.kmalloc hm hruns (le_alignSize hsize)
    | some newPtr =>
      simp only [hm] at hk
      cases hk
      have hkeep : FreeKeepsRuns h₁ ptr := by
        have := hmove b hblock (Nat.lt_of_not_le hfit)
        rw [hm] at this
        exact this rfl
      have hruns₁ : RunsOk h₁.runs := by rwa [kfree_runs] at hruns
      have hi₁ := hi.kmalloc hm hruns₁ (le_alignSize hsize)
      have hi₂ : Inv ⟨heapCopy h₁ newPtr ptr b.size, (newPtr, size) :: s.live⟩ :=
        ⟨⟨hi₁.shape.layout, hi₁.shape.runs⟩, hi₁.backed, hi₁.distinct⟩
      have hne : newPtr ≠ ptr := by
        rintro rfl
        exact (nodup_cons.mp hi₁.distinct).1 hlive
      have hrel : release ptr ((newPtr, size) :: s.live) =
          (newPtr, size) :: release ptr s.live := by
        simp [release, hne]
      have := hi₂.kfree fun _ => hkeep
      rwa [hrel] at this

/-- Every careful call keeps the invariant. -/
theorem inv_step (s : HeapSystem) (e : HeapEvent) (s' : HeapSystem) (hi : s.Inv)
    (hcare : s.Careful e) (hstep : s.step e = some s') : s'.Inv := by
  cases e with
  | kmalloc size places =>
    obtain ⟨hruns, rfl⟩ := commit_some hstep
    exact hi.kmalloc rfl hruns (le_alignSize hcare)
  | kcalloc count size places =>
    obtain ⟨hruns, rfl⟩ := commit_some hstep
    have htotal : count.toNat * size.toNat % sizeMod = count.toNat * size.toNat := by
      apply Nat.mod_eq_of_lt
      simp only [Careful, sizeMod] at hcare ⊢
      omega
    simp only [htotal] at hruns ⊢
    cases hm : Mm.kmalloc places s.heap (count.toNat * size.toNat) with
    | mk r h =>
      rw [hm] at hruns
      cases r with
      | none => exact hi.kmalloc hm hruns (le_alignSize hcare)
      | some ptr =>
        have := hi.kmalloc hm hruns (le_alignSize hcare)
        exact ⟨⟨this.shape.layout, this.shape.runs⟩, this.backed, this.distinct⟩
  | krealloc ptr size places =>
    obtain ⟨hown, hstep⟩ := ite_none_right_eq_some.mp hstep
    obtain ⟨hruns, rfl⟩ := commit_some hstep
    exact hi.krealloc hown rfl hruns hcare.1 hcare.2.1 hcare.2.2
  | kfree ptr =>
    obtain ⟨-, hstep⟩ := ite_none_right_eq_some.mp hstep
    obtain ⟨-, rfl⟩ := commit_some hstep
    exact hi.kfree hcare

theorem inv_boot {place : Option Nat} (hruns : RunsOk (boot place).heap.runs) :
    (boot place).Inv := by
  refine ⟨?_, fun a ha => absurd ha not_mem_nil, nodup_nil⟩
  cases place with
  | none => exact ⟨Layout.nil, hruns⟩
  | some base =>
    have hempty : HeapShape ⟨[], [], fun _ => 0⟩ :=
      ⟨Layout.nil, List.Pairwise.nil, fun r hr => absurd hr not_mem_nil⟩
    have hexpand : (boot (some base)).heap =
        Heap.grown ⟨[], [], fun _ => 0⟩ [newBlock (heapInitialPages * pageSize) base] :=
      congrArg Prod.snd (heapExpand_some _ _ base)
    rw [hexpand] at hruns ⊢
    exact hempty.grown hruns

/-- The heap is safe in every run in which requested sizes do not wrap and no
free merges a block with the first block of a page run. -/
theorem heap_safe_of_careful {place : Option Nat} (hruns : RunsOk (boot place).heap.runs)
    {es : List HeapEvent} (hcare : Run.Along step Careful (boot place) es) {s : HeapSystem}
    (hrun : Run.run step (boot place) es = some s) : s.Safe :=
  (Run.invariant_along inv_step (inv_boot hruns) hcare hrun).safe

/-- Two runs that do not touch: an allocation, one that needs a second run, and
the release of the first. -/
theorem heap_safe_of_careful_two_runs : ∃ s : HeapSystem,
    Run.run step (boot (some 0x10000))
      [.kmalloc 65504 [], .kmalloc 100 [some 0x100000], .kfree 0x1001d] = some s ∧ s.Safe := by
  obtain ⟨s, hs⟩ := Option.isSome_iff_exists.mp (show (Run.run step (boot (some 0x10000))
      [.kmalloc 65504 [], .kmalloc 100 [some 0x100000], .kfree 0x1001d]).isSome = true by
    decide +kernel)
  exact ⟨s, hs, heap_safe_of_careful (by decide) (by decide +kernel) hs⟩

/-- Freeing the neighbours of a run boundary merges them although the runs do
not touch, and the next allocation reaches past the end of the first run. -/
theorem heap_unsafe_across_runs : ∃ s : HeapSystem,
    RunsOk (boot (some 0x10000)).heap.runs ∧
    Run.run step (boot (some 0x10000))
      [.kmalloc 65504 [], .kmalloc 100 [some 0x100000], .kfree 0x1001d, .kfree 0x10001d,
        .kmalloc 65600 []] = some s ∧ ¬ s.Safe := by
  have hrun : (Run.run step (boot (some 0x10000))
      [.kmalloc 65504 [], .kmalloc 100 [some 0x100000], .kfree 0x1001d, .kfree 0x10001d,
        .kmalloc 65600 []]).map (fun s => (s.live, s.heap.runs)) =
      some ([(0x1001d, 65600)], [⟨0x10000, 0x20000⟩, ⟨0x100000, 0x104000⟩]) := by
    decide +kernel
  obtain ⟨s, hs, heq⟩ := Option.map_eq_some_iff.mp hrun
  obtain ⟨hlive, hruns⟩ := Prod.mk.inj heq
  refine ⟨s, by decide, hs, fun hsafe => ?_⟩
  have hin := hsafe.inside (0x1001d, 65600) (by simp [hlive])
  rw [hruns] at hin
  exact absurd hin (by decide)

end Step

end HeapSystem

end Mmix.Mm
