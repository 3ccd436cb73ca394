import Mmix.Mm.Kheap

/-!
# Merging free blocks

`heap_coalesce` walks the list once and moves past a block as soon as it has
absorbed the next one. A block freed between two free blocks is absorbed by the
first of them, and the second one is then never compared with it.
-/

namespace Mmix.Mm

open List

variable {a b c : HeapBlock} {bs pre post : List HeapBlock}

/-- No two neighbours in the list are both free. -/
def NoFreePair (bs : List HeapBlock) : Prop :=
  bs.IsChain fun a b => ¬ (a.free = true ∧ b.free = true)

/-- No two neighbours in the list that touch in memory are both free. -/
def Coalesced (bs : List HeapBlock) : Prop :=
  bs.IsChain fun a b => ¬ (a.free = true ∧ b.free = true ∧ a.addr + headerSize + a.size = b.addr)

theorem NoFreePair.coalesced (h : NoFreePair bs) : Coalesced bs :=
  List.IsChain.imp (fun _ _ hab hc => hab ⟨hc.1, hc.2.1⟩) h

/-- The block with the next one absorbed. -/
def HeapBlock.absorb (a b : HeapBlock) : HeapBlock :=
  { a with size := (a.size + headerSize + b.size) % sizeMod }

theorem heapCoalesce_append_of_noFreePair (h : NoFreePair (pre ++ [a])) :
    heapCoalesce (pre ++ a :: post) = pre ++ heapCoalesce (a :: post) := by
  induction pre with
  | nil => rfl
  | cons x pre ih =>
    cases pre with
    | nil =>
      have hx := (isChain_cons_cons.mp h).1
      exact if_neg hx
    | cons y pre =>
      obtain ⟨hx, hrest⟩ := isChain_cons_cons.mp h
      have hstep : heapCoalesce (x :: y :: (pre ++ a :: post)) =
          x :: heapCoalesce (y :: (pre ++ a :: post)) := if_neg hx
      exact hstep.trans (congrArg (x :: ·) (ih hrest))

theorem heapCoalesce_of_noFreePair (h : NoFreePair bs) : heapCoalesce bs = bs := by
  rcases eq_nil_or_concat' bs with rfl | ⟨pre, a, rfl⟩
  · rfl
  · exact heapCoalesce_append_of_noFreePair h

/-- Freeing marks one block. -/
theorem markFree_append (hnd : ((pre ++ b :: post).map HeapBlock.addr).Nodup) :
    markFree b.ptr (pre ++ b :: post) = pre ++ { b with free := true } :: post := by
  have hother : ∀ x ∈ pre ++ post, x.ptr ≠ b.ptr := by
    intro x hx hptr
    have haddr : x.addr = b.addr := Nat.add_right_cancel hptr
    rw [map_append, map_cons, nodup_middle, ← map_append,
      nodup_cons] at hnd
    exact hnd.1 (haddr ▸ mem_map_of_mem hx)
  have hkeep : ∀ l ⊆ pre ++ post,
      l.map (fun x => if x.ptr = b.ptr then { x with free := true } else x) = l := by
    intro l hl
    refine (map_congr_left fun x hx => ?_).trans (map_id l)
    exact if_neg (hother x (hl hx))
  rw [markFree, map_append, map_cons, if_pos rfl,
    hkeep pre (subset_append_left _ _), hkeep post (subset_append_right _ _)]

theorem kfree_blocks {h : Heap} (hb : h.blocks = pre ++ b :: post)
    (hnd : (h.blocks.map HeapBlock.addr).Nodup) :
    (kfree h b.ptr).blocks = heapCoalesce (pre ++ { b with free := true } :: post) := by
  have hptr : b.ptr ≠ 0 := by
    unfold HeapBlock.ptr headerSize
    omega
  have hfound : (blockOf h b.ptr).isSome := by
    rw [blockOf, find?_isSome]
    exact ⟨b, hb ▸ mem_append_right pre mem_cons_self, beq_self_eq_true _⟩
  obtain ⟨found, hfound⟩ := Option.isSome_iff_exists.mp hfound
  rw [kfree, if_neg hptr, hfound]
  dsimp only
  rw [hb] at hnd ⊢
  rw [markFree_append hnd]

/-- The freed block and what follows it. -/
theorem coalesced_from_freed (hfree : b.free = true) (hpost : NoFreePair post) :
    Coalesced (heapCoalesce (b :: post)) ∧
      ∃ size rest, heapCoalesce (b :: post) = { b with size := size } :: rest := by
  cases post with
  | nil => exact ⟨isChain_singleton _, b.size, [], rfl⟩
  | cons c post =>
    by_cases hc : c.free = true
    · have heq : heapCoalesce (b :: c :: post) = b.absorb c :: heapCoalesce post :=
        if_pos ⟨hfree, hc⟩
      have hrest : NoFreePair post := hpost.tail
      rw [heq, heapCoalesce_of_noFreePair hrest]
      refine ⟨?_, _, _, rfl⟩
      -- The block behind the absorbed one is in use.
      cases post with
      | nil => exact isChain_singleton _
      | cons d post =>
        obtain ⟨hcd, hrest⟩ := isChain_cons_cons.mp hpost
        refine isChain_cons_cons.mpr ⟨fun hbad => hcd ⟨hc, hbad.2.1⟩, ?_⟩
        exact NoFreePair.coalesced hrest
    · have heq : heapCoalesce (b :: c :: post) = b :: heapCoalesce (c :: post) :=
        if_neg fun hbc => hc hbc.2
      rw [heq, heapCoalesce_of_noFreePair hpost]
      refine ⟨?_, b.size, _, rfl⟩
      exact isChain_cons_cons.mpr ⟨fun hbad => hc hbad.2.1, hpost.coalesced⟩

/-- Both neighbours of the block are free, and the first one touches the second
once it has absorbed the block. -/
def Wedged (bs : List HeapBlock) (b : HeapBlock) : Prop :=
  ∃ pre a c post, bs = pre ++ a :: b :: c :: post ∧ a.free = true ∧ c.free = true ∧
    a.addr + headerSize + (a.absorb b).size = c.addr

theorem wedged_append (hnd : ((pre ++ b :: post).map HeapBlock.addr).Nodup) :
    Wedged (pre ++ b :: post) b ↔ ∃ pre' a c post', pre = pre' ++ [a] ∧ post = c :: post' ∧
      a.free = true ∧ c.free = true ∧ a.addr + headerSize + (a.absorb b).size = c.addr := by
  have hout := nodup_middle.mp (List.Nodup.of_map _ hnd)
  have hpre : b ∉ pre := fun hb => (nodup_cons.mp hout).1 (mem_append_left _ hb)
  have hpost : b ∉ post := fun hb => (nodup_cons.mp hout).1 (mem_append_right _ hb)
  constructor
  · rintro ⟨pre', a, c, post', heq, hrest⟩
    rw [show pre' ++ a :: b :: c :: post' = (pre' ++ [a]) ++ b :: c :: post' by simp] at heq
    obtain ⟨h₁, -, h₂⟩ := (append_cons_inj_of_notMem hpre hpost).mp heq
    exact ⟨pre', a, c, post', h₁, h₂, hrest⟩
  · rintro ⟨pre', a, c, post', rfl, rfl, hrest⟩
    exact ⟨pre', a, c, post', by simp, hrest⟩

/-- The neighbour before a block only matters by whether it is free. -/
theorem NoFreePair.concat_congr (h : NoFreePair (pre ++ [a])) (hfree : b.free = a.free) :
    NoFreePair (pre ++ [b]) := by
  obtain ⟨hpre, -, hlast⟩ := isChain_append.mp h
  refine isChain_append.mpr ⟨hpre, isChain_singleton _, fun x hx y hy => ?_⟩
  obtain rfl : b = y := Option.some.inj hy
  rw [hfree]
  exact hlast x hx a rfl

/-- A free block before the freed one absorbs it. -/
theorem coalesced_after_free (hpre : NoFreePair (pre ++ [a])) (ha : a.free = true)
    (hb : b.free = true) (hpost : NoFreePair post) :
    Coalesced (heapCoalesce (pre ++ a :: b :: post)) ↔
      ¬ ∃ c post', post = c :: post' ∧ c.free = true ∧
        a.addr + headerSize + (a.absorb b).size = c.addr := by
  have hmerge : heapCoalesce (a :: b :: post) = a.absorb b :: heapCoalesce post := if_pos ⟨ha, hb⟩
  have hpre' : NoFreePair (pre ++ [a.absorb b]) := hpre.concat_congr rfl
  rw [heapCoalesce_append_of_noFreePair hpre, hmerge, heapCoalesce_of_noFreePair hpost]
  cases post with
  | nil => exact iff_of_true hpre'.coalesced fun ⟨_, _, hc, _⟩ => by cases hc
  | cons c post =>
    unfold Coalesced
    rw [isChain_append_cons_cons]
    constructor
    · rintro ⟨-, hgap, -⟩ ⟨c', post', hc, hfree, htouch⟩
      cases hc
      exact hgap ⟨ha, hfree, htouch⟩
    · intro hgap
      exact ⟨hpre'.coalesced, fun hbad => hgap ⟨c, post, rfl, hbad.2⟩, hpost.coalesced⟩

/-- After `kfree` of a block no two free neighbours touch, exactly if the block was
not wedged between two free ones. -/
theorem kfree_coalesces_iff (h : Heap) (b : HeapBlock)
    (hnd : (h.blocks.map HeapBlock.addr).Nodup) (hpair : NoFreePair h.blocks)
    (hb : b ∈ h.blocks) :
    Coalesced (kfree h b.ptr).blocks ↔ ¬ Wedged h.blocks b := by
  obtain ⟨pre, post, heq⟩ := List.append_of_mem hb
  rw [kfree_blocks heq hnd]
  rw [heq] at hnd hpair ⊢
  rw [wedged_append hnd]
  have hpost : NoFreePair post := (List.isChain_split.mp hpair).2.tail
  obtain ⟨hfrom, size, rest, hshape⟩ := coalesced_from_freed (b := { b with free := true }) rfl hpost
  rcases List.eq_nil_or_concat' pre with rfl | ⟨pre, a, rfl⟩
  · refine iff_of_true hfrom ?_
    rintro ⟨pre', a, c, post', hnil, -⟩
    simp at hnil
  · have hpre : NoFreePair (pre ++ [a]) := hpair.left_of_append
    rw [List.append_assoc, List.singleton_append]
    by_cases ha : a.free = true
    · rw [coalesced_after_free hpre ha rfl hpost]
      refine not_congr ⟨?_, ?_⟩
      · rintro ⟨c, post', hc, hrest⟩
        exact ⟨pre, a, c, post', rfl, hc, ha, hrest⟩
      · rintro ⟨pre', a', c, post', hpre', hc, -, hrest⟩
        obtain ⟨-, rfl⟩ := List.append_inj' hpre' rfl |>.imp_right List.singleton_inj.mp
        exact ⟨c, post', hc, hrest⟩
    · refine iff_of_true ?_ ?_
      · have hkeep : heapCoalesce (a :: { b with free := true } :: post) =
            a :: heapCoalesce ({ b with free := true } :: post) := if_neg fun hab => ha hab.1
        rw [heapCoalesce_append_of_noFreePair hpre, hkeep, hshape]
        rw [hshape] at hfrom
        exact List.isChain_append_cons_cons.mpr
          ⟨hpre.coalesced, fun hbad => ha hbad.1, hfrom⟩
      · rintro ⟨pre', a', c, post', hpre', -, ha', -⟩
        obtain ⟨-, rfl⟩ := List.append_inj' hpre' rfl |>.imp_right List.singleton_inj.mp
        exact ha ha'

/-- A free block and one in use, of 64 bytes each, with others behind them. -/
def freeThenUsed (rest : List HeapBlock) : Heap where
  blocks := ⟨0, 35, true⟩ :: ⟨64, 35, false⟩ :: rest
  runs := [⟨0, 192⟩]
  mem := fun _ => 0

theorem kfree_coalesces_last : Coalesced (kfree (freeThenUsed []) 93).blocks := by
  refine (kfree_coalesces_iff (freeThenUsed []) ⟨64, 35, false⟩ (by decide)
    (by simp [NoFreePair, freeThenUsed]) (by decide)).mpr ?_
  rintro ⟨pre, a, c, post, heq, -⟩
  have hlength := congrArg List.length heq
  simp [freeThenUsed] at hlength
  omega

/-- The block in use is freed, and the last block stays apart from the merged one. -/
theorem kfree_leaves_free_pair : NoFreePair (freeThenUsed [⟨128, 35, true⟩]).blocks ∧
    ¬ Coalesced (kfree (freeThenUsed [⟨128, 35, true⟩]) 93).blocks := by
  constructor
  · simp [NoFreePair, freeThenUsed]
  · have hblocks : (kfree (freeThenUsed [⟨128, 35, true⟩]) 93).blocks =
        [⟨0, 99, true⟩, ⟨128, 35, true⟩] := by decide
    rw [hblocks]
    simp [Coalesced, headerSize]

end Mmix.Mm
