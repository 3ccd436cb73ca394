import Mmix.Fs.Vfs

/-!
# The lines that grep prints

`grep` collects a line in an array of 512 bytes and searches it with `strstr`. A line that
does not fit is searched in pieces of 511 characters, and the character that finds the array
full is dropped.
-/

namespace Mmix.User.Grep

open Fs Split List

/-- The inner loop of `strstr`: whether it ends at the NUL of the needle. -/
def matchesAt : CStr → CStr → Bool
  | _, [] => true
  | [], _ :: _ => false
  | h :: hay, n :: needle => if h = n then matchesAt hay needle else false

/-- The outer loop of `strstr`. -/
def strstrLoop (needle : CStr) : CStr → Option CStr
  | [] => none
  | c :: hay => if matchesAt (c :: hay) needle then some (c :: hay) else strstrLoop needle hay

/-- `strstr`. -/
def strstr (hay needle : CStr) : Option CStr :=
  if needle = [] then some hay else strstrLoop needle hay

/-- `LINE_MAX_LEN` of grep. -/
abbrev grepMax : Nat := 512

/-- The output for the characters in `line`, which end at the first NUL. -/
def flush (pat line : CStr) : List UInt8 :=
  let text := line.takeWhile (· ≠ 0)
  if strstr text pat ≠ none then text ++ [10] else []

/-- The loop over the input, with the characters in `line`, and what follows it. -/
def grepLoop (pat : CStr) : List UInt8 → CStr → List UInt8
  | [], line => if line ≠ [] then flush pat line else []
  | c :: input, line =>
    if c = 10 ∨ grepMax ≤ line.length + 1 then flush pat line ++ grepLoop pat input []
    else grepLoop pat input (line ++ [c])

/-- `main` with a pattern: the output for an input. -/
def grep (pat : CStr) (input : List UInt8) : List UInt8 := grepLoop pat input []

/-- The lines that contain the pattern, each with a newline. -/
def matchingLines (pat : CStr) (input : List UInt8) : List UInt8 :=
  ((input.splitOn 10).filter (pat <:+: ·)).flatMap (· ++ [10])

section Search

theorem matchesAt_iff (hay needle : CStr) : matchesAt hay needle ↔ needle <+: hay := by
  induction hay, needle using matchesAt.induct with
  | case1 hay => simp [matchesAt]
  | case2 n needle => simp [matchesAt]
  | case3 hay n needle ih => simp [matchesAt, ih, cons_prefix_cons]
  | case4 h hay n needle hne => simp [matchesAt, hne, cons_prefix_cons, Ne.symm hne]

theorem strstr_iff {needle : CStr} (hne : needle ≠ []) (hay : CStr) :
    strstr hay needle ≠ none ↔ needle <:+: hay := by
  rw [strstr, if_neg hne]
  induction hay with
  | nil => simp [strstrLoop, hne]
  | cons c hay ih =>
    rw [strstrLoop, infix_cons_iff, ← ih, ← matchesAt_iff]
    split <;> simp_all

end Search

section Lines

variable {pat line text : CStr}

theorem flush_eq (hpat : pat ≠ []) (hnul : 0 ∉ line) :
    flush pat line = if pat <:+: line then line ++ [10] else [] := by
  have hall : line.takeWhile (· ≠ 0) = line :=
    takeWhile_eq_self_iff.mpr fun c hc => by simpa using fun h : c = 0 => hnul (h ▸ hc)
  rw [flush, hall]
  simp only [strstr_iff hpat]

/-- The output for the rest of a line, up to the newline or the end of the input. -/
def lineOut (pat : CStr) : CStr → CStr → List UInt8
  | line, [] => flush pat line
  | line, c :: text =>
    if grepMax ≤ line.length + 1 then flush pat line ++ lineOut pat [] text
    else lineOut pat (line ++ [c]) text

theorem grepLoop_newline (htext : 10 ∉ text) (input line : List UInt8) :
    grepLoop pat (text ++ 10 :: input) line = lineOut pat line text ++ grepLoop pat input [] := by
  induction text generalizing line with
  | nil => rw [nil_append, grepLoop, if_pos (Or.inl rfl), lineOut]
  | cons c text ih =>
    rw [mem_cons, not_or] at htext
    obtain ⟨hc, htext⟩ := htext
    rw [cons_append, grepLoop, lineOut]
    simp only [Ne.symm hc, false_or]
    split
    · rw [ih htext, append_assoc]
    · exact ih htext _

theorem grepLoop_end (hpat : pat ≠ []) (htext : 10 ∉ text) (line : List UInt8) :
    grepLoop pat text line = lineOut pat line text := by
  induction text generalizing line with
  | nil =>
    rw [grepLoop, lineOut]
    split
    · rfl
    · next hline =>
      rw [not_not.mp hline, flush_eq hpat not_mem_nil, if_neg (mt infix_nil.mp hpat)]
  | cons c text ih =>
    rw [mem_cons, not_or] at htext
    obtain ⟨hc, htext⟩ := htext
    rw [grepLoop, lineOut]
    simp only [Ne.symm hc, false_or]
    split
    · rw [ih htext]
    · exact ih htext _

/-- The output is made line by line. -/
theorem grep_eq (hpat : pat ≠ []) (input : List UInt8) :
    grep pat input = (input.splitOn 10).flatMap (lineOut pat []) := by
  unfold grep
  induction input using cut_induction (10 : UInt8) with
  | last text h => rw [splitOn_of_notMem h, flatMap_singleton, grepLoop_end hpat h]
  | step text rest h ih =>
    rw [splitOn_append_cons, splitOn_of_notMem h, grepLoop_newline h, ih, flatMap_append,
      flatMap_singleton]

/-- A line that fits is searched whole. -/
theorem lineOut_short (h : line.length + text.length < grepMax) :
    lineOut pat line text = flush pat (line ++ text) := by
  induction text generalizing line with
  | nil => rw [lineOut, append_nil]
  | cons c text ih =>
    rw [length_cons] at h
    rw [lineOut, if_neg (by omega), ih (by rw [length_append, length_singleton]; omega),
      append_assoc, singleton_append]

/-- The pieces of a line without the pattern do not have it. -/
theorem lineOut_nil (hpat : pat ≠ []) (hnul : 0 ∉ line ++ text) (h : ¬ pat <:+: line ++ text) :
    lineOut pat line text = [] := by
  induction text generalizing line with
  | nil =>
    rw [append_nil] at h hnul
    rw [lineOut, flush_eq hpat hnul, if_neg h]
  | cons c text ih =>
    rw [lineOut]
    split
    · have hfirst : line <:+: line ++ c :: text := (prefix_append line _).isInfix
      have hrest : [] ++ text <:+: line ++ c :: text :=
        ((suffix_cons c text).trans (suffix_append line _)).isInfix
      rw [flush_eq hpat fun h0 => hnul (hfirst.subset h0), if_neg fun hp => h (hp.trans hfirst),
        ih (fun h0 => hnul (hrest.subset h0)) (fun hp => h (hp.trans hrest))]
      rfl
    · have hcons : line ++ c :: text = line ++ [c] ++ text := by simp
      rw [hcons] at h hnul
      exact ih hnul h

/-- An output that is empty or has a newline among its first 512 characters. -/
def Short (out : List UInt8) : Prop :=
  out = [] ∨ ∃ first rest, out = first ++ 10 :: rest ∧ first.length < grepMax

theorem Short.append {out out' : List UInt8} (h : Short out) (h' : Short out') :
    Short (out ++ out') := by
  rcases h with rfl | ⟨first, rest, rfl, hlen⟩
  · exact h'
  · exact .inr ⟨first, rest ++ out', by simp, hlen⟩

theorem short_flush (h : line.length < grepMax) : Short (flush pat line) := by
  unfold flush
  dsimp only
  split
  · exact .inr ⟨_, [], rfl, (takeWhile_sublist _).length_le.trans_lt h⟩
  · exact .inl rfl

theorem short_lineOut (h : line.length < grepMax) (text : CStr) :
    Short (lineOut pat line text) := by
  induction text generalizing line with
  | nil => exact short_flush h
  | cons c text ih =>
    rw [lineOut]
    split
    · exact (short_flush h).append (ih (by decide))
    · next hroom =>
      exact ih (by rw [length_append, length_singleton]; omega)

theorem short_lines (lines : List CStr) : Short (lines.flatMap (lineOut pat [])) := by
  induction lines with
  | nil => exact .inl rfl
  | cons text lines ih => exact (short_lineOut (by decide) text).append ih

/-- A long line is never printed. -/
theorem short_ne {out rest : List UInt8} (h : Short out) (htext : 10 ∉ text)
    (hlong : grepMax ≤ text.length) : out ≠ text ++ 10 :: rest := by
  rintro rfl
  rcases h with hnil | ⟨first, rest', heq, hlen⟩
  · simp at hnil
  · have hchar : (text ++ 10 :: rest)[first.length]? = some 10 := by
      rw [heq, getElem?_append_right (Nat.le_refl _), Nat.sub_self, getElem?_cons_zero]
    rw [getElem?_append_left (by omega)] at hchar
    exact htext (mem_of_getElem? hchar)

/-- The outputs agree exactly when every line with the pattern fits. -/
theorem lines_agree_iff (hpat : pat ≠ []) {lines : List CStr}
    (hlines : ∀ text ∈ lines, 10 ∉ text ∧ 0 ∉ text) :
    lines.flatMap (lineOut pat []) = (lines.filter (pat <:+: ·)).flatMap (· ++ [10]) ↔
      ∀ text ∈ lines, pat <:+: text → text.length < grepMax := by
  induction lines with
  | nil => simp
  | cons text lines ih =>
    obtain ⟨⟨hnewline, hnul⟩, hlines⟩ := forall_mem_cons.mp hlines
    rw [flatMap_cons, forall_mem_cons, ← ih hlines]
    by_cases hmatch : pat <:+: text
    · rw [filter_cons_of_pos (by simpa using hmatch), flatMap_cons]
      simp only [hmatch, forall_const]
      by_cases hfits : text.length < grepMax
      · rw [lineOut_short (by simpa using hfits), nil_append, flush_eq hpat hnul,
          if_pos hmatch, append_cancel_left_eq]
        exact (and_iff_right hfits).symm
      · refine iff_of_false ?_ fun h => hfits h.1
        rw [append_assoc]
        exact short_ne ((short_lineOut (by decide) text).append (short_lines lines)) hnewline
          (Nat.le_of_not_lt hfits)
    · have hnone : lineOut pat [] text = [] := lineOut_nil hpat hnul hmatch
      rw [hnone, filter_cons_of_neg (by simpa using hmatch)]
      simp [hmatch]

end Lines

/-- For an input without NUL bytes the matching lines are printed exactly when each of them has
less than 512 characters. -/
theorem grep_matching_iff {pat : CStr} (hpat : pat ≠ []) {input : List UInt8} (hnul : 0 ∉ input) :
    grep pat input = matchingLines pat input ↔
      ∀ line ∈ input.splitOn 10, pat <:+: line → line.length ≤ 511 := by
  have hlines : ∀ line ∈ input.splitOn 10, 10 ∉ line ∧ 0 ∉ line := by
    induction input using cut_induction (10 : UInt8) with
    | last line h =>
      rw [splitOn_of_notMem h]
      exact List.forall_mem_singleton.mpr ⟨h, hnul⟩
    | step line rest h ih =>
      rw [List.mem_append, not_or] at hnul
      rw [splitOn_append_cons, splitOn_of_notMem h]
      exact List.forall_mem_cons.mpr ⟨⟨h, hnul.1⟩, ih fun h0 => hnul.2 (List.mem_cons_of_mem _ h0)⟩
  rw [grep_eq hpat, matchingLines, lines_agree_iff hpat hlines]
  exact forall₂_congr fun line _ => imp_congr_right fun _ => Nat.lt_succ_iff

theorem grep_matching_two_lines :
    grep (ascii "b") (ascii "abc\nxyz\n") = matchingLines (ascii "b") (ascii "abc\nxyz\n") :=
  (grep_matching_iff (by decide) (by decide)).mpr (by decide)

/-- The pattern is the character that is dropped. -/
theorem grep_drops_match :
    grep (ascii "b") (List.replicate 511 97 ++ [98]) = [] ∧
      matchingLines (ascii "b") (List.replicate 511 97 ++ [98]) =
        List.replicate 511 97 ++ [98, 10] := by
  decide +kernel

end Mmix.User.Grep
