import Mmix.Fs.ProcRead

/-!
# The lines of `/proc/stat`

A line of `/proc/stat` has at most 70 bytes, and the loop goes on only while at least 128 are
left, so that every line is written whole and inside of the buffer. The tasks after the point
at which the loop ends are missing.
-/

namespace Mmix.Fs

open Proc List

/-- The line of a task. -/
def statLine (t : ProcTask) : CStr :=
  signedText t.pid.toInt ++ 32 :: (signedText t.parentPid.toInt ++ 32 ::
    (signedText t.pgid.toInt ++ 32 :: ([t.stateChar] ++ 32 :: (t.name ++ [10]))))

/-- The tasks among some slots that have a line. -/
def usedTasks (slots : List ProcTask) : List ProcTask := slots.filter (·.state ≠ .free)

/-- The lines of some tasks, one after the other. -/
def statLines (ts : List ProcTask) : CStr := ts.flatMap statLine

section Stat

variable {t : ProcTask} {ts : List ProcTask} {content : List UInt8}

theorem formats_stat (t : ProcTask) : Formats (ascii "%d %d %d %c %s\n")
    [.num t.pid.toInt, .num t.parentPid.toInt, .num t.pgid.toInt, .chr t.stateChar, .str t.name]
    (statLine t) := by
  have hformat : ascii "%d %d %d %c %s\n" =
      [37, 100, 32, 37, 100, 32, 37, 100, 32, 37, 99, 32, 37, 115, 10] := by decide
  rw [hformat]
  apply Formats.int
  apply Formats.plain (by decide)
  apply Formats.int
  apply Formats.plain (by decide)
  apply Formats.int
  apply Formats.plain (by decide)
  apply Formats.char
  apply Formats.plain (by decide)
  apply Formats.string
  exact Formats.plain (by decide) Formats.done

theorem stateChar_ne_nul (t : ProcTask) : t.stateChar ≠ 0 := by
  unfold ProcTask.stateChar
  split
  · decide
  split
  · decide
  split <;> decide

theorem statLine_ne_nul (t : ProcTask) : ∀ ch ∈ statLine t, ch ≠ 0 := by
  intro ch hch
  simp only [statLine, mem_append, mem_cons, not_mem_nil, or_false] at hch
  rcases hch with h | rfl | h | rfl | h | rfl | rfl | rfl | h | rfl
  · exact signedText_ne_nul _ ch h
  · decide
  · exact signedText_ne_nul _ ch h
  · decide
  · exact signedText_ne_nul _ ch h
  · decide
  · exact stateChar_ne_nul t
  · decide
  · exact t.name_bytes ch h
  · decide

/-- A line has at most 70 bytes. -/
theorem length_statLine (t : ProcTask) : (statLine t).length ≤ 70 := by
  have hpid := length_signedText t.pid
  have hppid := length_signedText t.parentPid
  have hpgid := length_signedText t.pgid
  have hname := t.name_length
  simp only [statLine, length_append, length_cons, length_nil]
  omega

theorem emitStat_eq {cap : Nat} (hcap : 70 ≤ cap) (t : ProcTask) : emitStat cap t = statLine t :=
  have hlen := length_statLine t
  (formats_stat t).emit_eq (Nat.le_trans hlen (by decide)) (Nat.le_trans hlen hcap)
    (statLine_ne_nul t)

theorem length_statLine_pos (t : ProcTask) : 0 < (statLine t).length := by
  simp only [statLine, length_append, length_cons]
  omega

theorem contentRoom_eq {len : Nat} (h : len ≤ 896) : contentRoom len = 1023 - len := by
  unfold contentRoom contentSize
  omega

theorem usedTasks_free (h : t.state = .free) : usedTasks (t :: ts) = usedTasks ts := by
  simp [usedTasks, h]

theorem usedTasks_used (h : t.state ≠ .free) : usedTasks (t :: ts) = t :: usedTasks ts := by
  simp [usedTasks, h]

/-- One pass of the loop over a slot in use, while `content` is not nearly full: the line is
written whole and inside of `content`. -/
theorem statLoop_used (hused : t.state ≠ .free) (hlen : content.length ≤ 896) :
    (statLoop (t :: ts) content).val =
        (if 896 < (content ++ statLine t).length then content ++ statLine t
          else (statLoop ts (content ++ statLine t)).val) ∧
      (statLoop (t :: ts) content).ok =
        (if 896 < (content ++ statLine t).length then true
          else (statLoop ts (content ++ statLine t)).ok) := by
  have hcap : 70 ≤ contentRoom content.length := by
    rw [contentRoom_eq hlen]
    omega
  have hline := length_statLine t
  have hinside : content.length + (statLine t).length ≤ contentSize := by
    unfold contentSize
    omega
  rw [statLoop, if_neg hused, emitStat_eq hcap]
  constructor
  · rw [Checked.val_bind, Checked.val_ite]
    rfl
  · rw [Checked.ok_bind, Checked.ok_check, decide_eq_true hinside, Bool.true_and, Checked.ok_ite]
    rfl

/-- No line is written outside of `content`. -/
theorem statLoop_ok (hlen : content.length ≤ 896) : (statLoop ts content).ok = true := by
  induction ts generalizing content with
  | nil => rfl
  | cons t ts ih =>
    by_cases hfree : t.state = .free
    · rw [statLoop, if_pos hfree]
      exact ih hlen
    · rw [(statLoop_used hfree hlen).2]
      split
      · rfl
      · next hroom => exact ih (Nat.le_of_not_lt hroom)

theorem statLines_eq_nil : statLines ts = [] ↔ ts = [] := by
  cases ts with
  | nil => simp [statLines]
  | cons t ts =>
    have hpos := length_statLine_pos t
    refine iff_of_false (fun h => ?_) (cons_ne_nil _ _)
    rw [statLines, flatMap_cons, append_eq_nil_iff] at h
    rw [h.1] at hpos
    cases hpos

/-- The loop writes all lines exactly if `content` is not nearly full before the last one. -/
theorem statLoop_lists_iff (hlen : content.length ≤ 896) :
    (statLoop ts content).val = content ++ statLines (usedTasks ts) ↔
      content.length + (statLines (usedTasks ts).dropLast).length ≤ 896 := by
  induction ts generalizing content with
  | nil => exact iff_of_true (append_nil content).symm hlen
  | cons t ts ih =>
    by_cases hfree : t.state = .free
    · rw [statLoop, if_pos hfree, usedTasks_free hfree]
      exact ih hlen
    rw [(statLoop_used hfree hlen).1, usedTasks_used hfree]
    have hsplit : content ++ statLines (t :: usedTasks ts) =
        content ++ statLine t ++ statLines (usedTasks ts) := by
      rw [statLines, flatMap_cons, append_assoc]
      rfl
    rw [hsplit]
    by_cases hlast : usedTasks ts = []
    · -- The line of the last task.
      rw [hlast]
      refine iff_of_true ?_ hlen
      split
      · exact (append_nil _).symm
      · next hroom =>
        have hrest := (ih (Nat.le_of_not_lt hroom)).mpr
        rw [hlast] at hrest
        exact hrest (Nat.le_of_not_lt hroom)
    · have hdrop : content.length + (statLines (t :: usedTasks ts).dropLast).length =
          (content ++ statLine t).length + (statLines (usedTasks ts).dropLast).length := by
        rw [dropLast_cons_of_ne_nil hlast, statLines, flatMap_cons, length_append,
          length_append, Nat.add_assoc]
        rfl
      rw [hdrop]
      split
      · next hfull =>
        refine iff_of_false (fun h => ?_) (by omega)
        exact hlast (statLines_eq_nil.mp (self_eq_append_right.mp h))
      · next hroom => exact ih (Nat.le_of_not_lt hroom)

theorem length_statLoop (hlen : content.length ≤ 896) :
    (statLoop ts content).val.length ≤ 966 := by
  induction ts generalizing content with
  | nil => exact Nat.le_trans hlen (by decide)
  | cons t ts ih =>
    by_cases hfree : t.state = .free
    · rw [statLoop, if_pos hfree]
      exact ih hlen
    · rw [(statLoop_used hfree hlen).1]
      split
      · have hline := length_statLine t
        rw [length_append]
        omega
      · next hroom => exact ih (Nat.le_of_not_lt hroom)

end Stat

/-! ### Reading the file -/

/-- Reads of the given sizes one after the other, each from where the one before ended. -/
def readInTurn (read : Nat → Nat → Int × List UInt8) : List Nat → Nat → List UInt8
  | [], _ => []
  | size :: sizes, offset =>
    (read size offset).2 ++ readInTurn read sizes (offset + (read size offset).1.toNat)

/-- Reading `/proc/stat` to its end yields one line for each task in use, in the order of the
slots, and `procfs_read` writes only inside of `content`. -/
structure StatComplete (info : ProcInfo) (node : VfsNode) : Prop where
  inside : (procfsContent info node).ok = true
  lists : ∀ sizes,
    (procfsRead info node 1 (readInTurn (procfsRead info node) sizes 0).length).1 = 0 →
    readInTurn (procfsRead info node) sizes 0 = statLines (usedTasks info.tasks.slots)

section Read

variable {info : ProcInfo} {node : VfsNode} {content : List UInt8}

theorem procfsContent_stat (hnode : node.payload = pfStat) :
    (procfsContent info node).val = some (statLoop info.tasks.slots []).val ∧
      (procfsContent info node).ok = (statLoop info.tasks.slots []).ok := by
  unfold procfsContent
  rw [hnode]
  exact ⟨rfl, Bool.and_true _⟩

theorem intOf_small {n : Nat} (h : n < 2 ^ 31) : intOf n = n := toInt_ofNat_of_lt h

theorem procfsRead_eq (hcontent : (procfsContent info node).val = some content)
    (hlen : content.length < 2 ^ 31) (size offset : Nat) :
    procfsRead info node size offset =
      ((((content.drop offset).take size).length : Int), (content.drop offset).take size) := by
  rw [procfsRead, hcontent]
  dsimp only
  split
  · next hend =>
    rw [drop_of_length_le hend]
    simp
  · have hmin : min (content.length - offset) size < 2 ^ 31 :=
      Nat.lt_of_le_of_lt (Nat.min_le_left _ _)
        (Nat.lt_of_le_of_lt (Nat.sub_le _ _) hlen)
    have htake : (content.drop offset).take (min (content.length - offset) size) =
        (content.drop offset).take size := by
      rw [Nat.min_comm, ← length_drop, ← take_eq_take_min]
    rw [intOf_small hmin, htake, length_take, length_drop, Nat.min_comm]

/-- What reads in turn have fetched. -/
theorem readInTurn_eq (hcontent : (procfsContent info node).val = some content)
    (hlen : content.length < 2 ^ 31) (sizes : List Nat) (offset : Nat) :
    readInTurn (procfsRead info node) sizes offset = (content.drop offset).take sizes.sum := by
  induction sizes generalizing offset with
  | nil => exact take_zero.symm
  | cons size sizes ih =>
    rw [readInTurn, ih, procfsRead_eq hcontent hlen, sum_cons, take_add,
      drop_drop]
    dsimp only
    apply congrArg
    rw [Int.toNat_natCast, length_take, length_drop]
    by_cases hend : size ≤ content.length - offset
    · rw [Nat.min_eq_left hend]
    · -- Both reads begin at or behind the end.
      rw [drop_of_length_le (by omega), drop_of_length_le (by omega)]

/-- Reading to the end yields the whole content, whatever the sizes of the reads. -/
theorem reads_whole_iff (hcontent : (procfsContent info node).val = some content)
    (hlen : content.length < 2 ^ 31) (expected : List UInt8) :
    (∀ sizes, (procfsRead info node 1
        (readInTurn (procfsRead info node) sizes 0).length).1 = 0 →
      readInTurn (procfsRead info node) sizes 0 = expected) ↔ content = expected := by
  simp only [readInTurn_eq hcontent hlen, procfsRead_eq hcontent hlen, drop_zero]
  constructor
  · intro h
    have hall : content.take [content.length].sum = content := by simp
    have hread := h [content.length]
    rw [hall, drop_length] at hread
    exact hread rfl
  · rintro rfl sizes hend
    apply take_of_length_le
    by_contra hmore
    have hmore : sizes.sum < content.length := Nat.lt_of_not_le hmore
    rw [length_take, length_take, length_drop, Nat.min_eq_left hmore.le] at hend
    omega

/-- The lines that reading to the end yields. -/
theorem stat_lists_iff (hnode : node.payload = pfStat) :
    (∀ sizes, (procfsRead info node 1
        (readInTurn (procfsRead info node) sizes 0).length).1 = 0 →
      readInTurn (procfsRead info node) sizes 0 = statLines (usedTasks info.tasks.slots)) ↔
      (statLines (usedTasks info.tasks.slots).dropLast).length ≤ 896 := by
  have hempty : ([] : List UInt8).length ≤ 896 := by decide
  have hlen : (statLoop info.tasks.slots []).val.length < 2 ^ 31 :=
    Nat.lt_of_le_of_lt (length_statLoop hempty) (by decide)
  have hlists : (statLoop info.tasks.slots []).val = statLines (usedTasks info.tasks.slots) ↔
      (statLines (usedTasks info.tasks.slots).dropLast).length ≤ 896 := by
    simpa using statLoop_lists_iff hempty
  exact (reads_whole_iff (procfsContent_stat hnode).1 hlen _).trans hlists

/-- `/proc/stat` is complete exactly if the lines of all tasks but the last take at most 896
bytes. -/
theorem stat_complete_iff (info : ProcInfo) (node : VfsNode) (hnode : node.payload = pfStat) :
    StatComplete info node ↔
      (statLines (usedTasks info.tasks.slots).dropLast).length ≤ 896 := by
  constructor
  · intro h
    exact (stat_lists_iff hnode).mp h.lists
  · intro h
    refine ⟨?_, (stat_lists_iff hnode).mpr h⟩
    rw [(procfsContent_stat hnode).2]
    exact statLoop_ok (by decide)

end Read

/-- A slot with the given process number and a name of 31 letters. -/
def namedTask (state : TaskState) (pid : BitVec 32) : ProcTask where
  pid := pid
  parentPid := 1
  pgid := pid
  state := state
  zombie := false
  name := List.replicate 31 97
  name_length := by decide
  name_bytes := by decide +kernel

/-- A table whose first slots are in use. -/
def tableOf (used : Nat) : TaskTable where
  slots := (List.range procSlots).map fun i =>
    namedTask (if i < used then .ready else .free) (BitVec.ofNat 32 (1000 + i))
  length_slots := by rw [List.length_map, List.length_range]

/-- The node that `procfs_mount` makes for `/proc/stat`. -/
def statNode : VfsNode := { name := ascii "stat", type := .procfs, payload := pfStat }

/-- Two tasks are listed. -/
theorem stat_complete_two_tasks :
    StatComplete ⟨0, 0, 0, tableOf 2⟩ statNode :=
  (stat_complete_iff _ _ rfl).mpr (by decide +kernel)

/-- Of 25 tasks with long names some are missing. -/
theorem stat_misses_tasks :
    ∃ tasks : TaskTable, ¬ StatComplete ⟨0, 0, 0, tasks⟩ statNode := by
  refine ⟨tableOf 25, fun h => ?_⟩
  have hfits := (stat_lists_iff rfl).mp h.lists
  revert hfits
  decide +kernel

end Mmix.Fs
