import Mathlib

/-!
# Cutting a list at a separator

The components of a list are the non-empty stretches between its separators.
Three ways to come at them are related here: cutting at the first separator,
cutting at the last one, and scanning with a buffer of bounded length, which
cuts a component that does not fit into pieces.
-/

namespace Mmix.Split

open List

variable {α : Type*} [DecidableEq α]

/-- The text before and after the first separator. -/
def cut (sep : α) : List α → Option (List α × List α)
  | [] => none
  | x :: xs => if x = sep then some ([], xs) else (cut sep xs).map fun r => (x :: r.1, r.2)

/-- The text before and after the last separator. -/
def cutLast (sep : α) : List α → Option (List α × List α)
  | [] => none
  | x :: xs =>
    match cutLast sep xs with
    | some (before, after) => some (x :: before, after)
    | none => if x = sep then some ([], xs) else none

/-- The longest stretch of at most `n` elements up to a separator, and the rest. -/
def scan (sep : α) : Nat → List α → List α × List α
  | 0, l => ([], l)
  | _ + 1, [] => ([], [])
  | n + 1, x :: xs =>
    if x = sep then ([], x :: xs) else (x :: (scan sep n xs).1, (scan sep n xs).2)

/-- Step over one separator. -/
def skip (sep : α) : List α → List α
  | [] => []
  | x :: xs => if x = sep then xs else x :: xs

/-- The non-empty stretches between separators. -/
def components (sep : α) (l : List α) : List (List α) :=
  (l.splitOn sep).filter (· ≠ [])

/-- A list in pieces of `n` elements, the last one possibly shorter. -/
def chunks (n : Nat) (l : List α) : List (List α) :=
  if n = 0 ∨ l.length ≤ n then [l] else l.take n :: chunks n (l.drop n)
termination_by l.length
decreasing_by
  simp only [List.length_drop]
  omega

/-- The components with those longer than `n` cut in pieces of `n`. -/
def pieces (sep : α) (n : Nat) (l : List α) : List (List α) :=
  (components sep l).flatMap (chunks n)

variable {sep : α} {n : Nat} {l before after : List α}

theorem cut_eq_some : cut sep l = some (before, after) ↔
    l = before ++ sep :: after ∧ sep ∉ before := by
  induction l generalizing before with
  | nil => simp [cut]
  | cons x xs ih =>
    by_cases hx : x = sep
    · subst hx
      cases before <;> simp [cut]
      grind
    · cases before with
      | nil => simp [cut, hx]
      | cons b before =>
        simp only [cut, if_neg hx, Option.map_eq_some_iff, Prod.exists, Prod.mk.injEq,
          cons.injEq, cons_append, mem_cons, not_or]
        constructor
        · rintro ⟨_, _, hcut, ⟨rfl, rfl⟩, rfl⟩
          obtain ⟨hxs, hb⟩ := ih.mp hcut
          exact ⟨⟨rfl, hxs⟩, Ne.symm hx, hb⟩
        · rintro ⟨⟨rfl, hxs⟩, _, hb⟩
          exact ⟨before, after, ih.mpr ⟨hxs, hb⟩, ⟨rfl, rfl⟩, rfl⟩

theorem cut_eq_none : cut sep l = none ↔ sep ∉ l := by
  induction l with
  | nil => simp [cut]
  | cons x xs ih =>
    by_cases hx : x = sep
    · simp [cut, hx]
    · simp [cut, hx, ih, Ne.symm hx]

theorem cutLast_eq_none : cutLast sep l = none ↔ sep ∉ l := by
  induction l with
  | nil => simp [cutLast]
  | cons x xs ih =>
    cases hxs : cutLast sep xs with
    | none => simp [cutLast, hxs, ih.mp hxs, eq_comm]
    | some r =>
      have hmem : sep ∈ xs := by
        by_contra hno
        rw [ih.mpr hno] at hxs
        cases hxs
      simp [cutLast, hxs, hmem]

theorem cutLast_eq_some (h : cutLast sep l = some (before, after)) :
    l = before ++ sep :: after ∧ sep ∉ after := by
  induction l generalizing before with
  | nil => cases h
  | cons x xs ih =>
    rw [cutLast] at h
    cases hxs : cutLast sep xs with
    | some r =>
      rw [hxs] at h
      cases h
      obtain ⟨hl, hno⟩ := ih hxs
      exact ⟨congrArg (x :: ·) hl, hno⟩
    | none =>
      rw [hxs] at h
      obtain ⟨hx, hr⟩ := Option.ite_none_right_eq_some.mp h
      obtain ⟨rfl, rfl⟩ := Prod.mk.inj (Option.some.inj hr)
      exact ⟨congrArg (· :: xs) hx, cutLast_eq_none.mp hxs⟩

theorem cutLast_append_cons (before : List α) (h : sep ∉ after) :
    cutLast sep (before ++ sep :: after) = some (before, after) := by
  induction before with
  | nil => simp [cutLast, cutLast_eq_none.mpr h]
  | cons x before ih => rw [cons_append, cutLast, ih]

@[simp] theorem components_nil : components sep [] = [] := by
  simp [components]

theorem splitOn_append_cons (sep : α) (a b : List α) :
    (a ++ sep :: b).splitOn sep = a.splitOn sep ++ b.splitOn sep :=
  splitOnP_append_cons a b (beq_self_eq_true sep)

theorem splitOn_of_notMem (h : sep ∉ l) : l.splitOn sep = [l] := by
  apply splitOnP_eq_singleton
  intro x hx
  exact beq_eq_false_iff_ne.mpr fun he => h (he ▸ hx)

theorem splitOn_of_cut (h : cut sep l = some (before, after)) :
    l.splitOn sep = before :: after.splitOn sep := by
  obtain ⟨rfl, hbefore⟩ := cut_eq_some.mp h
  rw [splitOn_append_cons, splitOn_of_notMem hbefore, singleton_append]

theorem length_of_cut (h : cut sep l = some (before, after)) : after.length < l.length := by
  rw [(cut_eq_some.mp h).1, length_append, length_cons]
  omega

/-- Induction over the stretches between separators. -/
theorem cut_induction (sep : α) {motive : List α → Prop} (last : ∀ l, sep ∉ l → motive l)
    (step : ∀ before after, sep ∉ before → motive after → motive (before ++ sep :: after))
    (l : List α) : motive l := by
  induction hn : l.length using Nat.strong_induction_on generalizing l with
  | _ n ih =>
    cases hcut : cut sep l with
    | none => exact last l (cut_eq_none.mp hcut)
    | some r =>
      obtain ⟨hl, hbefore⟩ := cut_eq_some.mp hcut
      have hlt := length_of_cut hcut
      rw [hl]
      exact step r.1 r.2 hbefore (ih r.2.length (by omega) r.2 rfl)

theorem components_append_cons (sep : α) (a b : List α) :
    components sep (a ++ sep :: b) = components sep a ++ components sep b := by
  rw [components, splitOn_append_cons, filter_append]
  rfl

@[simp] theorem components_cons_self (b : List α) :
    components sep (sep :: b) = components sep b :=
  components_append_cons sep [] b

theorem components_of_notMem (h : sep ∉ l) : components sep l = if l = [] then [] else [l] := by
  simp [components, splitOn_of_notMem h, filter_cons]

omit [DecidableEq α] in
theorem chunks_of_le (h : l.length ≤ n) : chunks n l = [l] := by
  rw [chunks, if_pos (Or.inr h)]

omit [DecidableEq α] in
theorem chunks_append (a b : List α) (ha : a ≠ []) (hb : b ≠ []) :
    chunks a.length (a ++ b) = a :: chunks a.length b := by
  have hpos := length_pos_of_ne_nil ha
  have hrest := length_pos_of_ne_nil hb
  rw [chunks, if_neg (by simp only [length_append]; omega), take_left, drop_left]

theorem pieces_eq_components (h : ∀ c ∈ components sep l, c.length ≤ n) :
    pieces sep n l = components sep l := by
  have hone : ∀ cs : List (List α), (∀ c ∈ cs, c.length ≤ n) → cs.flatMap (chunks n) = cs := by
    intro cs hcs
    induction cs with
    | nil => rfl
    | cons c cs ih =>
      rw [flatMap_cons, chunks_of_le (hcs c mem_cons_self),
        ih fun d hd => hcs d (mem_cons_of_mem c hd)]
      rfl
  exact hone _ h

/-- What a bounded scan returns: it stops at the end, at a separator, or when
the buffer is full. -/
theorem scan_spec (sep : α) (n : Nat) (l : List α) :
    l = (scan sep n l).1 ++ (scan sep n l).2 ∧ sep ∉ (scan sep n l).1 ∧
      (scan sep n l).1.length ≤ n ∧
      ((scan sep n l).2 = [] ∨ (scan sep n l).2.head? = some sep ∨
        (scan sep n l).1.length = n) := by
  induction n generalizing l with
  | zero => simp [scan]
  | succ n ih =>
    cases l with
    | nil => simp [scan]
    | cons x xs =>
      by_cases hx : x = sep
      · simp [scan, hx]
      · obtain ⟨hl, hno, hlen, hend⟩ := ih xs
        simp only [scan, if_neg hx, length_cons]
        refine ⟨congrArg (x :: ·) hl, ?_, by omega, by simpa using hend⟩
        exact not_mem_cons_of_ne_of_not_mem (Ne.symm hx) hno

theorem pieces_append_cons (sep : α) (n : Nat) (a b : List α) :
    pieces sep n (a ++ sep :: b) = pieces sep n a ++ pieces sep n b := by
  simp only [pieces, components_append_cons, flatMap_append]

theorem pieces_of_notMem (h : sep ∉ l) (hne : l ≠ []) : pieces sep n l = chunks n l := by
  simp [pieces, components_of_notMem h, hne]

theorem pieces_of_short (h : sep ∉ l) (hlen : l.length ≤ n) :
    pieces sep n l = if l = [] then [] else [l] := by
  by_cases hl : l = []
  · simp [hl, pieces]
  · rw [pieces_of_notMem h hl, chunks_of_le hlen, if_neg hl]

/-- A full buffer is a piece of its own. -/
theorem pieces_full {a b : List α} (ha : sep ∉ a) (hne : a ≠ []) (hb : b.head? ≠ some sep)
    (hb' : b ≠ []) : pieces sep a.length (a ++ b) = a :: pieces sep a.length b := by
  cases hcut : cut sep b with
  | none =>
    have hno := cut_eq_none.mp hcut
    have hab : sep ∉ a ++ b := by simp [ha, hno]
    rw [pieces_of_notMem hab (by simp [hne]), pieces_of_notMem hno hb',
      chunks_append a b hne hb']
  | some r =>
    obtain ⟨d, r⟩ := r
    obtain ⟨rfl, hno⟩ := cut_eq_some.mp hcut
    have hd : d ≠ [] := by
      intro hd
      simp [hd] at hb
    have had : sep ∉ a ++ d := by simp [ha, hno]
    rw [← append_assoc, pieces_append_cons, pieces_append_cons,
      pieces_of_notMem had (by simp [hne]), pieces_of_notMem hno hd,
      chunks_append a d hne hd, cons_append]

/-- Scanning with a buffer of `n` elements yields the pieces one by one. -/
theorem pieces_scan (hn : 0 < n) (l : List α) :
    pieces sep n l = (if (scan sep n l).1 = [] then [] else [(scan sep n l).1]) ++
      pieces sep n (skip sep (scan sep n l).2) := by
  obtain ⟨hl, hno, hlen, hend⟩ := scan_spec sep n l
  generalize (scan sep n l).1 = c at *
  generalize (scan sep n l).2 = r at *
  subst hl
  cases r with
  | nil =>
    rw [append_nil, pieces_of_short hno hlen]
    simp [skip, pieces]
  | cons x r =>
    by_cases hx : x = sep
    · rw [hx, pieces_append_cons, pieces_of_short hno hlen, skip, if_pos rfl]
    · have hfull : c.length = n := by simpa [hx] using hend
      have hc : c ≠ [] := ne_nil_of_length_pos (hfull ▸ hn)
      rw [if_neg hc, skip, if_neg hx, ← hfull]
      exact pieces_full hno hc (by simpa using hx) (cons_ne_nil x r)

theorem pieces_cons_self (sep : α) (n : Nat) (l : List α) :
    pieces sep n (sep :: l) = pieces sep n l := by
  rw [pieces, components_cons_self, pieces]

theorem pieces_skip (sep : α) (n : Nat) (l : List α) :
    pieces sep n (skip sep l) = pieces sep n l := by
  cases l with
  | nil => rfl
  | cons x l =>
    by_cases hx : x = sep
    · rw [skip, if_pos hx, hx, pieces_cons_self]
    · rw [skip, if_neg hx]

/-- Separators in front do not matter. -/
theorem pieces_dropWhile (sep : α) (n : Nat) (l : List α) :
    pieces sep n (l.dropWhile (· = sep)) = pieces sep n l := by
  induction l with
  | nil => rfl
  | cons x l ih =>
    by_cases hx : x = sep
    · rw [dropWhile_cons_of_pos (by simpa using hx), ih, hx, pieces_cons_self]
    · rw [dropWhile_cons_of_neg (by simpa using hx)]

/-- Behind the separators in front a scan finds nothing only at the end. -/
theorem scan_dropWhile_eq_nil (hn : 0 < n) (l : List α) :
    (scan sep n (l.dropWhile (· = sep))).1 = [] ↔ l.dropWhile (· = sep) = [] := by
  obtain ⟨n, rfl⟩ := Nat.exists_eq_add_of_lt hn
  induction l with
  | nil => simp [scan]
  | cons x l ih =>
    by_cases hx : x = sep
    · rwa [dropWhile_cons_of_pos (by simpa using hx)]
    · rw [dropWhile_cons_of_neg (by simpa using hx)]
      simp [scan, hx]

/-- A scan and the step over the separator consume something. -/
theorem length_skip_scan_lt (hn : 0 < n) (hl : l ≠ []) :
    (skip sep (scan sep n l).2).length < l.length := by
  obtain ⟨n, rfl⟩ := Nat.exists_eq_add_of_lt hn
  cases l with
  | nil => exact absurd rfl hl
  | cons x xs =>
    have hskip : ∀ r : List α, (skip sep r).length ≤ r.length := by
      intro r
      cases r with
      | nil => exact Nat.le_refl 0
      | cons y r =>
        rw [skip]
        split <;> simp
    by_cases hx : x = sep
    · simp [scan, hx, skip]
    · have hrest := congrArg length (scan_spec sep n xs).1
      simp only [length_append] at hrest
      have := hskip (scan sep n xs).2
      simp only [Nat.zero_add, scan, if_neg hx, length_cons]
      omega

end Mmix.Split
