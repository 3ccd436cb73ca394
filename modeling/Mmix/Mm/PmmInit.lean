import Mmix.Mm.Pmm

/-!
# Building the bitmap

`pmm_init` marks all pages as used, clears the pages of the usable entries of
the memory map, and then reserves the pages of the bitmap itself. The counter of
free pages is kept apart from the bits; it is shown to count the clear ones.
-/

namespace Mmix.Mm

/-- `struct limine_memmap_entry`. -/
structure MemmapEntry where
  base : BitVec 64
  length : BitVec 64
  type : BitVec 64

/-- `LIMINE_MEMMAP_USABLE`. -/
def limineMemmapUsable : BitVec 64 := 0

namespace MemmapEntry

/-- The entry describes memory that may be used. -/
def Usable (e : MemmapEntry) : Prop := e.type = limineMemmapUsable

instance (e : MemmapEntry) : Decidable e.Usable := inferInstanceAs (Decidable (_ = _))

def startPage (e : MemmapEntry) : Nat := e.base.toNat / pageSize

def pageCount (e : MemmapEntry) : Nat := e.length.toNat / pageSize

/-- The page belongs to the entry. -/
def Holds (e : MemmapEntry) (page : Nat) : Prop :=
  e.startPage ≤ page ∧ page < e.startPage + e.pageCount

end MemmapEntry

/-- The loop that finds the end of the highest entry. -/
def memmapTop (entries : List MemmapEntry) : BitVec 64 :=
  entries.foldl (fun top e => if top < e.base + e.length then e.base + e.length else top) 0

/-- `bitmap_size`, in bytes. -/
def bitmapSize (totalPages : Nat) : Nat := (totalPages + 7) / 8

/-- The number of pages that the bitmap occupies. -/
def bitmapPages (totalPages : Nat) : Nat := (bitmapSize totalPages + pageSize - 1) / pageSize

/-- The first usable entry with room for the bitmap. -/
def bitmapEntry (entries : List MemmapEntry) (totalPages : Nat) : Option MemmapEntry :=
  entries.find? fun e => e.Usable ∧ bitmapSize totalPages ≤ e.length.toNat

/-- The loop that frees the pages of one entry. -/
def clearPages (start : Nat) : Nat → Pmm → Pmm
  | 0, s => s
  | pages + 1, s =>
    clearPages (start + 1) pages
      (if start < s.totalPages then
        { s.bitmapClear start with freePages := s.freePages + 1 }
      else s)

/-- The loop over the usable entries. -/
def clearUsable (entries : List MemmapEntry) (s : Pmm) : Pmm :=
  entries.foldl (fun s e => if e.Usable then clearPages e.startPage e.pageCount s else s) s

/-- The loop that reserves the pages of the bitmap. -/
def reservePages (start : Nat) : Nat → Pmm → Pmm
  | 0, s => s
  | pages + 1, s =>
    reservePages (start + 1) pages
      (if s.bitmapTest start = false then
        { s.bitmapSet start with freePages := s.freePages - 1 }
      else s)

/-- `pmm_init`. Without an entry that has room for the bitmap there is no memory
manager. -/
def pmmInit (entries : List MemmapEntry) : Option Pmm :=
  let totalPages := (memmapTop entries).toNat / pageSize
  match bitmapEntry entries totalPages with
  | none => none
  | some e =>
    let s := clearUsable entries ⟨fun _ => true, totalPages, 0⟩
    some (reservePages e.startPage (bitmapPages totalPages) s)

section Counting

variable {s s' : Pmm} {page : Nat}

/-- The clear pages below the end of memory. -/
def Pmm.freeSet (s : Pmm) : Finset Nat :=
  (Finset.range s.totalPages).filter fun p => s.bitmap p = false

theorem Pmm.mem_freeSet : page ∈ s.freeSet ↔ s.Free page := by
  simp [Pmm.freeSet, Pmm.Free]

/-- The counter holds the number of clear pages. -/
def Pmm.Counted (s : Pmm) : Prop := s.freePages = BitVec.ofNat 64 s.freeSet.card

theorem Pmm.card_freeSet_le (s : Pmm) : s.freeSet.card ≤ s.totalPages :=
  (Finset.card_filter_le _ _).trans_eq (Finset.card_range _)

theorem Pmm.freeSet_clear (h : page < s.totalPages) (n : BitVec 64) :
    Pmm.freeSet { s.bitmapClear page with freePages := n } = insert page s.freeSet := by
  ext p
  simp only [Pmm.mem_freeSet, Pmm.Free, Pmm.bitmapClear, Finset.mem_insert]
  by_cases hp : p = page
  · subst hp
    simp [h]
  · simp [hp]

theorem Pmm.freeSet_set (n : BitVec 64) :
    Pmm.freeSet { s.bitmapSet page with freePages := n } = s.freeSet.erase page := by
  ext p
  simp only [Pmm.mem_freeSet, Pmm.Free, Pmm.bitmapSet, Finset.mem_erase]
  by_cases hp : p = page
  · subst hp
    simp
  · simp [hp]

/-- How far the counter is ahead of the clear pages. -/
def Pmm.excess (s : Pmm) : BitVec 64 := s.freePages - BitVec.ofNat 64 s.freeSet.card

theorem Pmm.counted_iff : s.Counted ↔ s.excess = 0 := by
  unfold Pmm.Counted Pmm.excess
  generalize BitVec.ofNat 64 s.freeSet.card = n
  bv_omega

/-- Clearing a set bit counts one more free page. -/
theorem Pmm.excess_clear (hp : page < s.totalPages) (hset : s.bitmap page = true) :
    Pmm.excess { s.bitmapClear page with freePages := s.freePages + 1 } = s.excess := by
  have hnot : page ∉ s.freeSet := by
    rw [Pmm.mem_freeSet]
    exact fun hf => absurd (hset.symm.trans hf.2) (by decide)
  unfold Pmm.excess
  rw [Pmm.freeSet_clear hp, Finset.card_insert_of_notMem hnot, BitVec.ofNat_add]
  generalize BitVec.ofNat 64 s.freeSet.card = n
  bv_omega

/-- Setting a clear bit counts one free page less. -/
theorem Pmm.excess_set (hf : s.Free page) :
    Pmm.excess { s.bitmapSet page with freePages := s.freePages - 1 } = s.excess := by
  have hmem := Pmm.mem_freeSet.mpr hf
  have hpos : s.freeSet.card = s.freeSet.card - 1 + 1 :=
    (Nat.succ_pred_eq_of_pos (Finset.card_pos.mpr ⟨page, hmem⟩)).symm
  unfold Pmm.excess
  rw [Pmm.freeSet_set, Finset.card_erase_of_mem hmem]
  nth_rewrite 2 [hpos]
  rw [BitVec.ofNat_add]
  generalize BitVec.ofNat 64 (s.freeSet.card - 1) = n
  bv_omega

theorem Pmm.Counted.clear (h : s.Counted) (hp : page < s.totalPages)
    (hset : s.bitmap page = true) :
    Pmm.Counted { s.bitmapClear page with freePages := s.freePages + 1 } :=
  Pmm.counted_iff.mpr ((Pmm.excess_clear hp hset).trans (Pmm.counted_iff.mp h))

theorem Pmm.Counted.set (h : s.Counted) (hf : s.Free page) :
    Pmm.Counted { s.bitmapSet page with freePages := s.freePages - 1 } :=
  Pmm.counted_iff.mpr ((Pmm.excess_set hf).trans (Pmm.counted_iff.mp h))

end Counting

section Loops

variable {s : Pmm} {start pages : Nat}

/-- The loop over one entry, on pages that are all marked as used. -/
theorem clearPages_spec (start pages : Nat) (hc : s.Counted)
    (hset : ∀ p, start ≤ p → p < start + pages → s.bitmap p = true) :
    (clearPages start pages s).Counted ∧ (clearPages start pages s).totalPages = s.totalPages ∧
      ∀ p, (clearPages start pages s).bitmap p = false ↔
        s.bitmap p = false ∨ start ≤ p ∧ p < start + pages ∧ p < s.totalPages := by
  induction pages generalizing start s with
  | zero =>
    refine ⟨hc, rfl, fun p => ⟨Or.inl, fun h => h.elim id fun h => ?_⟩⟩
    omega
  | succ pages ih =>
    unfold clearPages
    by_cases hlt : start < s.totalPages
    · rw [if_pos hlt]
      have hstart := hset start (Nat.le_refl _) (by omega)
      obtain ⟨hc', htotal, hbits⟩ := ih (start + 1) (hc.clear hlt hstart)
        (fun p hp hp' => by
          have hne : p ≠ start := by omega
          simp only [Pmm.bitmapClear, Function.update_of_ne hne]
          exact hset p (by omega) (by omega))
      refine ⟨hc', htotal, fun p => (hbits p).trans ?_⟩
      simp only [Pmm.bitmapClear]
      by_cases hp : p = start
      · subst hp
        simp [hlt]
      · rw [Function.update_of_ne hp]
        have : start + 1 ≤ p ↔ start ≤ p := by omega
        rw [this, show start + 1 + pages = start + (pages + 1) by omega]
    · rw [if_neg hlt]
      obtain ⟨hc', htotal, hbits⟩ := ih (start + 1) hc
        (fun p hp hp' => hset p (by omega) (by omega))
      refine ⟨hc', htotal, fun p => (hbits p).trans (or_congr_right ?_)⟩
      omega

/-- The loop that reserves pages. -/
theorem reservePages_spec (start pages : Nat) (hc : s.Counted)
    (hin : ∀ p, s.bitmap p = false → p < s.totalPages) :
    (reservePages start pages s).Counted ∧
      (reservePages start pages s).totalPages = s.totalPages ∧
      ∀ p, (reservePages start pages s).bitmap p = false ↔
        s.bitmap p = false ∧ ¬ (start ≤ p ∧ p < start + pages) := by
  induction pages generalizing start s with
  | zero =>
    refine ⟨hc, rfl, fun p => ⟨fun h => ⟨h, ?_⟩, And.left⟩⟩
    omega
  | succ pages ih =>
    unfold reservePages
    by_cases hclear : s.bitmap start = false
    · rw [if_pos hclear]
      have hbit (p : Nat) : (s.bitmapSet start).bitmap p = false ↔
          s.bitmap p = false ∧ p ≠ start := by
        simp only [Pmm.bitmapSet]
        by_cases hp : p = start
        · subst hp
          simp
        · simp [hp]
      obtain ⟨hc', htotal, hbits⟩ := ih (start + 1) (hc.set ⟨hin start hclear, hclear⟩)
        fun p hp => hin p ((hbit p).mp hp).1
      refine ⟨hc', htotal, fun p => (hbits p).trans ?_⟩
      refine (and_congr_left' (hbit p)).trans ?_
      rw [and_assoc]
      refine and_congr_right fun _ => ?_
      omega
    · rw [if_neg hclear]
      obtain ⟨hc', htotal, hbits⟩ := ih (start + 1) hc hin
      refine ⟨hc', htotal, fun p => (hbits p).trans (and_congr_right fun hp => ?_)⟩
      have hne : p ≠ start := fun h => hclear (h ▸ hp)
      omega

end Loops

section Init

/-- The entry covers the byte at the address. -/
def MemmapEntry.Covers (e : MemmapEntry) (addr : Nat) : Prop :=
  e.base.toNat ≤ addr ∧ addr < e.base.toNat + e.length.toNat

/-- What the boot protocol promises of the usable entries: they are made of whole
pages, end below the top of the address space and overlap no other entry. -/
structure ValidMemmap (entries : List MemmapEntry) : Prop where
  aligned : ∀ e ∈ entries, e.Usable → pageSize ∣ e.base.toNat ∧ pageSize ∣ e.length.toNat
  nonempty : ∀ e ∈ entries, e.Usable → e.length ≠ 0
  fits : ∀ e ∈ entries, e.Usable → e.base.toNat + e.length.toNat < 2 ^ 64
  apart : entries.Pairwise fun e e' => e.Usable ∨ e'.Usable → ∀ addr,
    ¬ (e.Covers addr ∧ e'.Covers addr)

/-- A page of an aligned entry lies in it with its first byte. -/
theorem MemmapEntry.Holds.covers {e : MemmapEntry} {page : Nat} (h : e.Holds page)
    (hb : pageSize ∣ e.base.toNat) (hl : pageSize ∣ e.length.toNat) :
    e.Covers (page * pageSize) := by
  obtain ⟨b, hb⟩ := hb
  obtain ⟨l, hl⟩ := hl
  unfold Holds startPage pageCount at h
  rw [hb, hl, Nat.mul_div_cancel_left _ (by decide), Nat.mul_div_cancel_left _ (by decide)] at h
  unfold Covers
  rw [hb, hl]
  unfold pageSize
  omega

/-- The page belongs to a usable entry. -/
def UsablePage (entries : List MemmapEntry) (page : Nat) : Prop :=
  ∃ e ∈ entries, e.Usable ∧ e.Holds page

theorem UsablePage.cons_iff {e : MemmapEntry} {es : List MemmapEntry} {page : Nat} :
    UsablePage (e :: es) page ↔ e.Usable ∧ e.Holds page ∨ UsablePage es page := by
  simp [UsablePage]

/-- The loop over the entries clears exactly the usable pages. -/
theorem clearUsable_spec {entries : List MemmapEntry} {s : Pmm} (hc : s.Counted)
    (haligned : ∀ e ∈ entries, e.Usable → pageSize ∣ e.base.toNat ∧ pageSize ∣ e.length.toNat)
    (hapart : entries.Pairwise fun e e' => e.Usable ∨ e'.Usable → ∀ addr,
      ¬ (e.Covers addr ∧ e'.Covers addr))
    (hset : ∀ p, UsablePage entries p → s.bitmap p = true) :
    (clearUsable entries s).Counted ∧ (clearUsable entries s).totalPages = s.totalPages ∧
      ∀ p, (clearUsable entries s).bitmap p = false ↔
        s.bitmap p = false ∨ UsablePage entries p ∧ p < s.totalPages := by
  induction entries generalizing s with
  | nil => exact ⟨hc, rfl, fun p => by simp [clearUsable, UsablePage]⟩
  | cons e es ih =>
    obtain ⟨hfirst, hrest⟩ := List.pairwise_cons.mp hapart
    have haligned' := fun e' he' => haligned e' (List.mem_cons_of_mem e he')
    have hstep : clearUsable (e :: es) s =
        clearUsable es (if e.Usable then clearPages e.startPage e.pageCount s else s) := rfl
    rw [hstep]
    by_cases hu : e.Usable
    · rw [if_pos hu]
      obtain ⟨hc₁, htotal₁, hbits₁⟩ := clearPages_spec e.startPage
        e.pageCount hc fun p hp hp' =>
          hset p (UsablePage.cons_iff.mpr (Or.inl ⟨hu, hp, hp'⟩))
      -- No page of a later usable entry has been cleared.
      have hset₁ (p : Nat) (hp : UsablePage es p) :
          (clearPages e.startPage e.pageCount s).bitmap p = true := by
        refine Bool.eq_true_of_not_eq_false fun hf => ?_
        rcases (hbits₁ p).mp hf with hold | ⟨hlo, hhi, -⟩
        · exact absurd (hold.symm.trans (hset p (UsablePage.cons_iff.mpr (Or.inr hp)))) (by decide)
        · obtain ⟨e', he', hu', hh'⟩ := hp
          obtain ⟨hb, hl⟩ := haligned e List.mem_cons_self hu
          obtain ⟨hb', hl'⟩ := haligned' e' he' hu'
          exact hfirst e' he' (Or.inl hu) (p * pageSize)
            ⟨MemmapEntry.Holds.covers ⟨hlo, hhi⟩ hb hl, hh'.covers hb' hl'⟩
      obtain ⟨hc', htotal', hbits'⟩ := ih hc₁ haligned' hrest hset₁
      refine ⟨hc', htotal'.trans htotal₁, fun p => (hbits' p).trans ?_⟩
      rw [hbits₁ p, htotal₁, UsablePage.cons_iff]
      simp only [MemmapEntry.Holds, hu, true_and]
      tauto
    · rw [if_neg hu]
      obtain ⟨hc', htotal', hbits'⟩ := ih hc haligned' hrest fun p hp =>
        hset p (UsablePage.cons_iff.mpr (Or.inr hp))
      refine ⟨hc', htotal', fun p => (hbits' p).trans ?_⟩
      rw [UsablePage.cons_iff]
      simp [hu]

/-- The page is one of those that hold the bitmap. -/
def BitmapPage (entries : List MemmapEntry) (page : Nat) : Prop :=
  ∃ e ∈ bitmapEntry entries ((memmapTop entries).toNat / pageSize), e.startPage ≤ page ∧
    page < e.startPage + bitmapPages ((memmapTop entries).toNat / pageSize)

/-- What `pmm_init` leaves: the usable pages below the end of memory are free,
but for those of the bitmap, and they are counted. -/
theorem pmmInit_spec {entries : List MemmapEntry} (hv : ValidMemmap entries) {s : Pmm}
    (h : pmmInit entries = some s) :
    s.Counted ∧ s.totalPages = (memmapTop entries).toNat / pageSize ∧
      ∀ p, s.bitmap p = false ↔
        UsablePage entries p ∧ p < s.totalPages ∧ ¬ BitmapPage entries p := by
  unfold pmmInit at h
  dsimp only at h
  split at h
  · cases h
  next e he =>
    cases h
    have hnone : Pmm.Counted ⟨fun _ => true, (memmapTop entries).toNat / pageSize, 0⟩ := by
      simp [Pmm.Counted, Pmm.freeSet]
    obtain ⟨hc, htotal, hbits⟩ := clearUsable_spec hnone hv.aligned hv.apart fun _ _ => rfl
    obtain ⟨hc', htotal', hbits'⟩ := reservePages_spec e.startPage
      (bitmapPages ((memmapTop entries).toNat / pageSize)) hc fun p hp => by
        rw [htotal]
        exact ((hbits p).mp hp).elim (fun h => Bool.noConfusion h) And.right
    refine ⟨hc', htotal'.trans htotal, fun p => (hbits' p).trans ?_⟩
    have hpage : BitmapPage entries p ↔ e.startPage ≤ p ∧
        p < e.startPage + bitmapPages ((memmapTop entries).toNat / pageSize) := by
      simp [BitmapPage, he]
    rw [hbits p, hpage, htotal', htotal]
    simp [and_assoc]

end Init

end Mmix.Mm
