import Mmix.Fs.Vfs

/-!
# The command line of the shell

A line is cut at the bars into at most four stages, a stage at the blanks into at most
fifteen words, and the words of a stage are sorted into arguments and redirections. All of
it is done in place: an argument is a pointer into the line. A word is therefore modelled as
its characters together with their positions, so that equal words at different places differ.
-/

namespace Mmix.User.Shell

open Fs Split List

/-- Characters and the places where they lie. -/
abbrev Word := List (UInt8 × Nat)

/-- The string at a pointer. -/
def Word.text (w : Word) : CStr := w.map Prod.fst

/-- `struct stage`; a redirection is its type and its file, none for type 0. -/
structure Stage where
  argv : List Word
  redirIn : Option (Nat × Word)
  redirOut : Option (Nat × Word)

/-- `readline` with the characters that `read` yields: the line when a newline arrives. A
`char` is signed, so that the bytes from 128 on are less than 32. -/
def readline (max : Nat) : List UInt8 → CStr → Option CStr
  | [], _ => none
  | c :: keys, buf =>
    if c = 10 then some buf
    else if c = 8 ∨ c = 127 then readline max keys buf.dropLast
    else if c = 13 then readline max keys buf
    else if c < 32 ∨ 128 ≤ c then readline max keys buf
    else if buf.length + 1 < max then readline max keys (buf ++ [c])
    else readline max keys buf

/-- `split_pipeline`, with the number of stages that may still be opened. -/
def splitPipeline : Nat → CStr → List CStr
  | 0, line => [line]
  | room + 1, line =>
    match cut 124 line with
    | none => [line]
    | some (raw, rest) => raw :: splitPipeline room rest

/-- A space or a tab. -/
def isBlank (c : UInt8 × Nat) : Bool := c.1 = 32 ∨ c.1 = 9

/-- `tokenize`, with the number of words that still fit into `argv`. -/
def tokenize : Nat → Word → List Word
  | 0, _ => []
  | room + 1, s =>
    match s.dropWhile isBlank with
    | [] => []
    | c :: s =>
      (c :: s.takeWhile (!isBlank ·)) :: tokenize room ((s.dropWhile (!isBlank ·)).drop 1)

/-- The loop of `parse_redirects`. -/
def parseRedirects : List Word → Stage → Stage
  | [], st => st
  | [w], st => { st with argv := st.argv ++ [w] }
  | w :: file :: ws, st =>
    if w.text = ascii ">" then parseRedirects ws { st with redirOut := some (1, file) }
    else if w.text = ascii ">>" then parseRedirects ws { st with redirOut := some (2, file) }
    else if w.text = ascii "<" then parseRedirects ws { st with redirIn := some (3, file) }
    else parseRedirects (file :: ws) { st with argv := st.argv ++ [w] }

/-- The stages that `run_pipeline` makes of a line. -/
def parseLine (line : CStr) : List Stage :=
  (splitPipeline 3 line).map fun raw =>
    parseRedirects (tokenize 15 raw.zipIdx) ⟨[], none, none⟩

/-! ### The words of a stage -/

/-- The stretches between blanks. -/
def wordsOf (s : Word) : List Word := (s.splitOnP isBlank).filter (!·.isEmpty)

section Words

variable {s w : Word} {c : UInt8 × Nat}

theorem wordsOf_append_cons (s w : Word) (hc : isBlank c) :
    wordsOf (w ++ c :: s) = wordsOf w ++ wordsOf s := by
  rw [wordsOf, splitOnP_append_cons w s hc, filter_append]
  rfl

theorem wordsOf_dropWhile (s : Word) : wordsOf (s.dropWhile isBlank) = wordsOf s := by
  induction s with
  | nil => rfl
  | cons c s ih =>
    by_cases hc : isBlank c
    · rw [dropWhile_cons_of_pos hc, ih]
      exact (wordsOf_append_cons s [] hc).symm
    · rw [dropWhile_cons_of_neg hc]

theorem wordsOf_word (hne : w ≠ []) (hw : ∀ c ∈ w, isBlank c = false) : wordsOf w = [w] := by
  rw [wordsOf, splitOnP_eq_singleton hw]
  simp [hne]

theorem head_of_dropWhile {p : UInt8 × Nat → Bool} (h : s.dropWhile p = c :: w) :
    p c = false := by
  have hne : s.dropWhile p ≠ [] := by simp [h]
  simpa [h] using head_dropWhile_not p hne

/-- The first word and the rest behind the blank that ends it. -/
theorem wordsOf_cons (hc : isBlank c = false) (s : Word) :
    wordsOf (c :: s) =
      (c :: s.takeWhile (!isBlank ·)) :: wordsOf ((s.dropWhile (!isBlank ·)).drop 1) := by
  have hfirst : ∀ d ∈ c :: s.takeWhile (!isBlank ·), isBlank d = false := by
    intro d hd
    rcases mem_cons.mp hd with rfl | hd
    · exact hc
    · simpa using mem_takeWhile_imp hd
  have hword := wordsOf_word (cons_ne_nil _ _) hfirst
  conv_lhs => rw [← takeWhile_append_dropWhile (p := (!isBlank ·)) (l := s)]
  rcases hrest : s.dropWhile (!isBlank ·) with _ | ⟨b, rest⟩
  · rw [append_nil, hword]
    rfl
  · have hb : isBlank b := by simpa using head_of_dropWhile hrest
    rw [← cons_append, wordsOf_append_cons rest _ hb, hword]
    rfl

/-- The tokenizer finds the words from the first one on, as far as there is room. -/
theorem tokenize_eq (room : Nat) (s : Word) : tokenize room s = (wordsOf s).take room := by
  induction room generalizing s with
  | zero => rw [tokenize, take_zero]
  | succ room ih =>
    rw [tokenize, ← wordsOf_dropWhile s]
    cases hs : s.dropWhile isBlank with
    | nil => rfl
    | cons c rest =>
      rw [wordsOf_cons (head_of_dropWhile hs), take_succ_cons, ← ih]

theorem flatten_tokenize (room : Nat) (s : Word) : (tokenize room s).flatten.Sublist s := by
  induction room generalizing s with
  | zero => exact nil_sublist s
  | succ room ih =>
    rw [tokenize]
    refine List.Sublist.trans ?_ (dropWhile_sublist isBlank)
    cases s.dropWhile isBlank with
    | nil => exact List.Sublist.refl _
    | cons c rest =>
      rw [flatten_cons, cons_append]
      refine List.Sublist.cons_cons c ?_
      conv_rhs => rw [← takeWhile_append_dropWhile (p := (!isBlank ·)) (l := rest)]
      exact ((ih _).trans (drop_sublist 1 _)).append_left _

/-- No two words of a stage are the same, as they lie at different places. -/
theorem nodup_wordsOf (raw : CStr) : (wordsOf raw.zipIdx).Nodup := by
  have hsub := flatten_tokenize (wordsOf raw.zipIdx).length raw.zipIdx
  rw [tokenize_eq, take_length] at hsub
  have hplaces : (raw.zipIdx.map Prod.snd).Nodup := by
    rw [zipIdx_map_snd]
    exact nodup_range'
  have hdisjoint := (nodup_flatten.mp ((hplaces.of_map _).sublist hsub)).2
  refine hdisjoint.imp_of_mem fun {v w} hv _ hvw heq => ?_
  have hempty : v.isEmpty = false := by simpa using (mem_filter.mp hv).2
  subst heq
  cases v with
  | nil => cases hempty
  | cons c v => exact hvw mem_cons_self mem_cons_self

end Words

/-! ### The stages of a line -/

section Stages

variable {ws : List Word} {st : Stage}

/-- The words of a stage in order, as arguments or as pairs of an operator and a file. Of
the pairs for one direction the last one counts. -/
inductive Reads : List Word → Stage → Prop where
  | done : Reads [] ⟨[], none, none⟩
  | arg (w : Word) {ws : List Word} {st : Stage} (h : Reads ws st) :
      Reads (w :: ws) { st with argv := w :: st.argv }
  | output {op : Word} (file : Word) {type : Nat} {ws : List Word} {st : Stage}
      (hop : op.text = ascii ">" ∧ type = 1 ∨ op.text = ascii ">>" ∧ type = 2)
      (h : Reads ws st) :
      Reads (op :: file :: ws) { st with redirOut := st.redirOut.or (some (type, file)) }
  | input {op : Word} (file : Word) {ws : List Word} {st : Stage}
      (hop : op.text = ascii "<") (h : Reads ws st) :
      Reads (op :: file :: ws) { st with redirIn := st.redirIn.or (some (3, file)) }

/-- What a stage holds. -/
def Stage.words (st : Stage) : List Word :=
  st.argv ++ (st.redirIn.toList ++ st.redirOut.toList).map Prod.snd

theorem Reads.subset (h : Reads ws st) : ∀ w ∈ st.words, w ∈ ws := by
  induction h with
  | done => exact fun _ hw => hw
  | arg v _ ih => grind [Stage.words]
  | @output _ _ _ _ st _ _ ih => cases hout : st.redirOut <;> grind [Stage.words]
  | @input _ _ _ st _ _ ih => cases hin : st.redirIn <;> grind [Stage.words]

theorem Reads.last (h : Reads ws st) : ∀ w ∈ ws.getLast?, w ∈ st.words := by
  induction h with
  | done => simp
  | @arg v ws st _ ih => cases ws <;> grind [Stage.words]
  | @output _ _ _ ws st _ h ih =>
    cases ws with
    | nil =>
      cases h
      simp [Stage.words]
    | cons v ws => cases hout : st.redirOut <;> grind [Stage.words]
  | @input _ _ ws st _ h ih =>
    cases ws with
    | nil =>
      cases h
      simp [Stage.words]
    | cons v ws => cases hin : st.redirIn <;> grind [Stage.words]

/-- The loop reads the words on top of what it has. -/
theorem parseRedirects_reads (ws : List Word) (acc : Stage) :
    ∃ st, Reads ws st ∧ parseRedirects ws acc =
      ⟨acc.argv ++ st.argv, st.redirIn.or acc.redirIn, st.redirOut.or acc.redirOut⟩ := by
  induction ws, acc using parseRedirects.induct with
  | case1 acc => exact ⟨_, .done, by simp [parseRedirects]⟩
  | case2 w acc => exact ⟨_, .arg w .done, by simp [parseRedirects]⟩
  | case3 w file ws acc hop ih =>
    obtain ⟨st, hst, heq⟩ := ih
    refine ⟨_, .output file (.inl ⟨hop, rfl⟩) hst, ?_⟩
    rw [parseRedirects, if_pos hop, heq, Option.or_assoc]
    rfl
  | case4 w file ws acc hop hop' ih =>
    obtain ⟨st, hst, heq⟩ := ih
    refine ⟨_, .output file (.inr ⟨hop', rfl⟩) hst, ?_⟩
    rw [parseRedirects, if_neg hop, if_pos hop', heq, Option.or_assoc]
    rfl
  | case5 w file ws acc hop hop' hin ih =>
    obtain ⟨st, hst, heq⟩ := ih
    refine ⟨_, .input file hin hst, ?_⟩
    rw [parseRedirects, if_neg hop, if_neg hop', if_pos hin, heq, Option.or_assoc]
    rfl
  | case6 w file ws acc hop hop' hin ih =>
    obtain ⟨st, hst, heq⟩ := ih
    refine ⟨_, .arg w hst, ?_⟩
    rw [parseRedirects, if_neg hop, if_neg hop', if_neg hin, heq, append_assoc]
    rfl

/-- A stage is read from its first fifteen words, hence from all of them only if there are no
others. -/
theorem reads_tokenize_iff (raw : CStr) :
    Reads (wordsOf raw.zipIdx) (parseRedirects (tokenize 15 raw.zipIdx) ⟨[], none, none⟩) ↔
      (wordsOf raw.zipIdx).length ≤ 15 := by
  obtain ⟨st, hst, heq⟩ := parseRedirects_reads (tokenize 15 raw.zipIdx) ⟨[], none, none⟩
  simp only [nil_append, Option.or_none] at heq
  rw [heq]
  rw [tokenize_eq] at hst
  constructor
  · intro hall
    by_contra hlong
    have hne : wordsOf raw.zipIdx ≠ [] := by
      intro hnil
      simp [hnil] at hlong
    have hlast := hst.subset _ (hall.last _ (getLast?_eq_getLast_of_ne_nil hne))
    obtain ⟨i, hi, hget⟩ := mem_take_iff_getElem.mp hlast
    rw [getLast_eq_getElem] at hget
    have := (nodup_wordsOf raw).getElem_inj_iff.mp hget
    omega
  · intro hshort
    rwa [take_of_length_le hshort] at hst

theorem length_splitPipeline (room : Nat) (line : CStr) :
    (splitPipeline room line).length ≤ room + 1 := by
  induction room generalizing line with
  | zero => exact Nat.le_refl 1
  | succ room ih =>
    rw [splitPipeline]
    split
    · exact Nat.le_add_left 1 _
    · exact Nat.succ_le_succ (ih _)

/-- The stages are the stretches between the bars when there is one for each. -/
theorem splitPipeline_eq {room : Nat} {line : CStr} (h : line.count 124 ≤ room) :
    splitPipeline room line = line.splitOn 124 := by
  induction room generalizing line with
  | zero => rw [splitPipeline, splitOn_of_notMem (count_eq_zero.mp (Nat.le_zero.mp h))]
  | succ room ih =>
    rw [splitPipeline]
    cases hcut : cut 124 line with
    | none => exact (splitOn_of_notMem (cut_eq_none.mp hcut)).symm
    | some r =>
      have hcount : r.2.count 124 ≤ room := by
        rw [(cut_eq_some.mp hcut).1, count_append, count_cons_self] at h
        omega
      rw [splitOn_of_cut hcut]
      exact congrArg (_ :: ·) (ih hcount)

theorem length_splitOn (line : CStr) : (line.splitOn 124).length = line.count 124 + 1 := by
  induction line using cut_induction (124 : UInt8) with
  | last line h => rw [splitOn_of_notMem h, count_eq_zero_of_not_mem h, length_singleton]
  | step raw rest h ih =>
    rw [splitOn_append_cons, splitOn_of_notMem h, count_append, count_cons_self,
      count_eq_zero_of_not_mem h, length_append, ih, length_singleton]
    omega

end Stages

/-- Every bar separates two stages, and every word between two bars is an argument of its
stage or part of a redirection. -/
def LosesNothing (line : CStr) : Prop :=
  List.Forall₂ (fun raw st => Reads (wordsOf raw.zipIdx) st) (line.splitOn 124) (parseLine line)

/-- Nothing of a line is lost exactly when it has at most three bars and at most fifteen words
between two of them. -/
theorem loses_nothing_iff (line : CStr) :
    LosesNothing line ↔ line.count 124 ≤ 3 ∧
      ∀ raw ∈ line.splitOn 124, (wordsOf raw.zipIdx).length ≤ 15 := by
  have hstages (h : line.count 124 ≤ 3) :
      LosesNothing line ↔ ∀ raw ∈ line.splitOn 124, (wordsOf raw.zipIdx).length ≤ 15 := by
    rw [LosesNothing, parseLine, splitPipeline_eq h, List.forall₂_map_right_iff,
      List.forall₂_same]
    exact forall₂_congr fun raw _ => reads_tokenize_iff raw
  constructor
  · intro h
    have hlen := h.length_eq
    have hroom := length_splitPipeline 3 line
    rw [length_splitOn, parseLine, List.length_map] at hlen
    have hbars : line.count 124 ≤ 3 := by omega
    exact ⟨hbars, (hstages hbars).mp h⟩
  · rintro ⟨hbars, hwords⟩
    exact (hstages hbars).mpr hwords

/-- The last bar of this line stays in the fourth stage. -/
theorem fourth_bar_dropped :
    (ascii "a|b|c|d|e").length ≤ 255 ∧ ¬ LosesNothing (ascii "a|b|c|d|e") :=
  ⟨by decide, fun h => absurd h.length_eq (by decide)⟩

/-! ### The path of a command -/

/-- The bytes that `memcpy` writes, with their places in the destination. -/
def memcpyWrites (dst : Nat) (src : List UInt8) : List (UInt8 × Nat) := src.zipIdx dst

/-- What `exec_external` writes into `path` for a command. -/
def pathWrites (cmd : CStr) : List (UInt8 × Nat) :=
  if cmd.head? = some 47 then []
  else memcpyWrites 0 (ascii "/bin/") ++ memcpyWrites 5 (cmd ++ [0])

/-- `LINE_MAX_LEN`, the size of `path`. -/
abbrev lineMaxLen : Nat := 256

/-- No command of a line is written behind the end of `path`. -/
def StaysInPath (line : CStr) : Prop :=
  ∀ st ∈ parseLine line, ∀ cmd ∈ st.argv.head?, ∀ w ∈ pathWrites cmd.text, w.2 < lineMaxLen

theorem pathWrites_lt_iff (cmd : CStr) :
    (∀ w ∈ pathWrites cmd, w.2 < lineMaxLen) ↔ cmd.head? = some 47 ∨ cmd.length ≤ 250 := by
  unfold pathWrites
  split
  · next hroot => simp [hroot]
  · next hroot =>
    simp only [hroot, false_or, memcpyWrites, lineMaxLen]
    constructor
    · intro h
      have hnul : (0, 5 + cmd.length) ∈ (cmd ++ [0]).zipIdx 5 :=
        mk_add_mem_zipIdx_iff_getElem?.mpr (by simp)
      have hlast := h _ (mem_append_right _ hnul)
      omega
    · intro hlen w hw
      rcases mem_append.mp hw with hw | hw
      · have := (mem_zipIdx hw).2.1
        exact this.trans (by decide)
      · have := (mem_zipIdx hw).2.1
        rw [length_append, length_singleton] at this
        omega

/-- A line is safe exactly when each of its commands is an absolute path or has at most 250
characters. -/
theorem stays_in_path_iff (line : CStr) : StaysInPath line ↔
    ∀ st ∈ parseLine line, ∀ cmd ∈ st.argv.head?,
      cmd.text.head? = some 47 ∨ cmd.text.length ≤ 250 :=
  forall₂_congr fun _ _ => forall₂_congr fun cmd _ => pathWrites_lt_iff cmd.text

/-- A line that is one long word. -/
theorem long_command_overflows :
    readline lineMaxLen (List.replicate 255 97 ++ [10]) [] = some (List.replicate 255 97) ∧
      ¬ StaysInPath (List.replicate 255 97) := by
  constructor
  · decide +kernel
  · unfold StaysInPath
    decide +kernel

end Mmix.User.Shell
