import Mmix.Fs.Vfs
import Mmix.Lib.Checked
import Mmix.Proc.Task

/-!
# The contents of procfs

`procfs_read` makes the text of a node anew at each call, in a buffer of 1024 bytes on the
stack. The text is put together by `emit`, a small formatter with a buffer of its own that
cuts what does not fit. For `/proc/stat` the lines of the tasks are appended one by one, and
the loop ends early when less than 128 bytes are left.
-/

namespace Mmix.Fs

open Proc List

/-! ### The formatter -/

/-- An argument after the format. -/
inductive EmitArg where
  | str (s : CStr)
  | chr (c : UInt8)
  | num (v : Int)
  deriving DecidableEq, Repr

/-- The size of `tmp` without the byte for the NUL. -/
abbrev emitRoom : Nat := 255

/-- Append to `tmp` while there is room. -/
def emitPut (tmp text : List UInt8) : List UInt8 := tmp ++ text.take (emitRoom - tmp.length)

/-- The loop that fills `num`, lowest digit first. -/
def emitDigits : Nat → Int → List UInt8
  | 0, _ => []
  | room + 1, v =>
    UInt8.ofInt (48 + v.tmod 10) :: if v.tdiv 10 = 0 then [] else emitDigits room (v.tdiv 10)

/-- A `long` without its sign; the least one is its own negative. -/
def longAbs (v : Int) : Int := if v < 0 then (-v).bmod (2 ^ 64) else v

/-- The branches for the letter after a percent sign: `tmp` and the arguments that are left. -/
def emitSpec (letter : UInt8) (args : List EmitArg) (tmp : List UInt8) :
    List UInt8 × List EmitArg :=
  match args with
  | .str s :: args => if letter = 115 then (emitPut tmp s, args) else (tmp, .str s :: args)
  | .chr c :: args => if letter = 99 then (tmp ++ [c], args) else (tmp, .chr c :: args)
  | .num v :: args =>
    if letter = 100 ∨ letter = 117 then
      let tmp := if v < 0 then tmp ++ [45] else tmp
      (emitPut tmp (emitDigits 24 (longAbs v)).reverse, args)
    else (tmp, .num v :: args)
  | [] => (tmp, [])

/-- The loop of `emit` over the format. -/
def emitLoop : CStr → List EmitArg → List UInt8 → List UInt8
  | [], _, tmp => tmp
  | [ch], _, tmp => if emitRoom ≤ tmp.length ∨ ch = 37 then tmp else tmp ++ [ch]
  | ch :: letter :: fmt, args, tmp =>
    if emitRoom ≤ tmp.length then tmp
    else if ch = 37 then
      emitLoop fmt (emitSpec letter args tmp).2 (emitSpec letter args tmp).1
    else emitLoop (letter :: fmt) args (tmp ++ [ch])

/-- `emit`: the bytes written to the destination. -/
def emit (cap : Nat) (fmt : CStr) (args : List EmitArg) : List UInt8 :=
  ((emitLoop fmt args []).takeWhile (· ≠ 0)).take cap

/-! ### Tasks -/

/-- The fields of `task_t` that procfs shows. The name is a string in a field of 32 bytes. -/
structure ProcTask where
  pid : BitVec 32
  parentPid : BitVec 32
  pgid : BitVec 32
  state : TaskState
  zombie : Bool
  name : CStr
  name_length : name.length ≤ 31
  name_bytes : ∀ ch ∈ name, ch ≠ 0

/-- `MAX_TASKS`. -/
abbrev procSlots : Nat := 64

/-- The task table, slot by slot. -/
structure TaskTable where
  slots : List ProcTask
  length_slots : slots.length = procSlots

/-- `sched_find_pid`. -/
def TaskTable.schedFindPid (tasks : TaskTable) (pid : BitVec 32) : Option ProcTask :=
  tasks.slots.find? fun t => t.state ≠ .free ∧ t.pid = pid

/-- The letter for the state of a task. -/
def ProcTask.stateChar (t : ProcTask) : UInt8 :=
  if t.zombie then 90
  else if t.state = .running then 82
  else if t.state = .ready then 82
  else 83

/-! ### procfs_read -/

/-- What procfs reads from the rest of the kernel. -/
structure ProcInfo where
  usableBytes : BitVec 64
  freePages : BitVec 64
  uptimeTicks : BitVec 64
  tasks : TaskTable

/-- The size of `content`. -/
abbrev contentSize : Nat := 1024

/-- The line that `procfs_read` formats for a task in `/proc/stat`. -/
def emitStat (cap : Nat) (t : ProcTask) : List UInt8 :=
  emit cap (ascii "%d %d %d %c %s\n")
    [.num t.pid.toInt, .num t.parentPid.toInt, .num t.pgid.toInt, .chr t.stateChar, .str t.name]

/-- `sizeof(content) - 1 - len`, in `size_t`. -/
def contentRoom (len : Nat) : Nat := (2 ^ 64 + (contentSize - 1) - len) % 2 ^ 64

/-- The loop over the slots, with `content` as written so far. Each write is checked to lie in
`content`. -/
def statLoop : List ProcTask → List UInt8 → Checked (List UInt8)
  | [], content => pure content
  | t :: ts, content =>
    if t.state = .free then statLoop ts content
    else do
      let line := emitStat (contentRoom content.length) t
      Checked.check (content.length + line.length ≤ contentSize)
      if contentSize - 128 < (content ++ line).length then pure (content ++ line)
      else statLoop ts (content ++ line)

/-- One call of `emit` into `content`. -/
def contentOf (fmt : CStr) (args : List EmitArg) : Checked (Option (List UInt8)) := do
  let text := emit (contentSize - 1) fmt args
  Checked.check (text.length ≤ contentSize)
  pure (some text)

/-- The part of `procfs_read` that fills `content`; nothing for the exits with -1. -/
def procfsContent (info : ProcInfo) (node : VfsNode) : Checked (Option (List UInt8)) :=
  let payload := node.payload % 2 ^ 32
  let kind := payload % 256
  let pid := payload / 256
  if kind = pfMeminfo then
    contentOf (ascii "Total:  %u kB\nFree:    %u kB\n")
      [.num (info.usableBytes / 1024).toInt, .num (info.freePages * 4096 / 1024).toInt]
  else if kind = pfUptime then
    contentOf (ascii "%u.%u\n")
      [.num (info.uptimeTicks / 50).toInt, .num (info.uptimeTicks % 50 * 2).toInt]
  else if kind = pfStat then do
    let content ← statLoop info.tasks.slots []
    pure (some content)
  else if kind = pfStatus ∨ kind = pfCmdline then
    match info.tasks.schedFindPid (BitVec.ofNat 32 pid) with
    | none => pure none
    | some t =>
      if kind = pfCmdline then contentOf (ascii "%s\n") [.str t.name]
      else
        contentOf (ascii "Name:   %s\nPid:    %d\nPPid:   %d\nPgId:   %d\nState:  %c\n")
          [.str t.name, .num t.pid.toInt, .num t.parentPid.toInt, .num t.pgid.toInt,
            .chr t.stateChar]
  else pure none

/-- `procfs_read`: the return value and the bytes copied. -/
def procfsRead (info : ProcInfo) (node : VfsNode) (size offset : Nat) : Int × List UInt8 :=
  match (procfsContent info node).val with
  | none => (-1, [])
  | some content =>
    if content.length ≤ offset then (0, [])
    else
      let n := min (content.length - offset) size
      (intOf n, (content.drop offset).take n)

/-! ### What the formatter writes -/

/-- A number in decimal, highest digit first. -/
def decimalText (n : Nat) : CStr :=
  ((if n = 0 then [0] else Nat.digits 10 n).map fun d => UInt8.ofNat (48 + d)).reverse

/-- A number in decimal with its sign. -/
def signedText (v : Int) : CStr := (if v < 0 then [45] else []) ++ decimalText v.natAbs

/-- The text of an argument. -/
def EmitArg.text : EmitArg → CStr
  | .str s => s
  | .chr c => [c]
  | .num v => signedText v

/-- A letter that fits the type of an argument. -/
def EmitArg.takes : EmitArg → UInt8 → Prop
  | .str _, letter => letter = 115
  | .chr _, letter => letter = 99
  | .num _, letter => letter = 100 ∨ letter = 117

/-- A number and its negative are `long`s. -/
def EmitArg.fits : EmitArg → Prop
  | .num v => v.natAbs < 2 ^ 63
  | _ => True

/-- A format and its arguments as the text they stand for. -/
inductive Formats : CStr → List EmitArg → CStr → Prop where
  | done : Formats [] [] []
  | plain {ch : UInt8} {fmt : CStr} {args : List EmitArg} {text : CStr} (hch : ch ≠ 37)
      (h : Formats fmt args text) : Formats (ch :: fmt) args (ch :: text)
  | spec {letter : UInt8} {fmt : CStr} {arg : EmitArg} {args : List EmitArg} {text : CStr}
      (hletter : arg.takes letter) (hfits : arg.fits) (h : Formats fmt args text) :
      Formats (37 :: letter :: fmt) (arg :: args) (arg.text ++ text)

section Emit

variable {fmt text tmp : CStr} {args : List EmitArg} {arg : EmitArg} {letter : UInt8}

theorem ofInt_digit (n : Nat) :
    UInt8.ofInt (48 + (n : Int).tmod 10) = UInt8.ofNat (48 + n % 10) := by
  show UInt8.ofNat ((48 + ((n % 10 : Nat) : Int)) % 2 ^ 8).toNat = _
  congr 1
  omega

/-- The digits of a number in the order in which `num` is filled. -/
theorem emitDigits_eq {room n : Nat} (hroom : 0 < room) (hn : n < 10 ^ room) :
    emitDigits room n =
      (if n = 0 then [0] else Nat.digits 10 n).map fun d => UInt8.ofNat (48 + d) := by
  induction room generalizing n with
  | zero => cases hroom
  | succ room ih =>
    have hnext : (n : Int).tdiv 10 = (n / 10 : Nat) := rfl
    rw [emitDigits, ofInt_digit, hnext]
    split
    · next hlow =>
      have hlt : n < 10 := by omega
      by_cases hzero : n = 0
      · subst hzero
        rfl
      · rw [if_neg hzero, Nat.digits_of_lt 10 n hzero hlt, Nat.mod_eq_of_lt hlt]
        rfl
    · next hhigh =>
      have hpos : 0 < n := by omega
      have hne : n / 10 ≠ 0 := by omega
      have hdiv : n / 10 < 10 ^ room := Nat.div_lt_of_lt_mul (by rwa [Nat.pow_succ'] at hn)
      have hroom' : 0 < room := by
        cases room with
        | zero => omega
        | succ _ => exact Nat.succ_pos _
      rw [ih hroom' hdiv, if_neg hne, if_neg (Nat.ne_of_gt hpos),
        Nat.digits_def' (by decide) hpos]
      rfl

theorem emitPut_eq (h : tmp.length + text.length ≤ emitRoom) : emitPut tmp text = tmp ++ text := by
  rw [emitPut, take_of_length_le (Nat.le_sub_of_add_le' h)]

theorem longAbs_eq {v : Int} (h : v.natAbs < 2 ^ 63) : longAbs v = v.natAbs := by
  unfold longAbs
  split
  · rw [Int.bmod_eq_of_le (by omega) (by omega)]
    omega
  · omega

theorem reverse_emitDigits {v : Int} (h : v.natAbs < 2 ^ 63) :
    (emitDigits 24 (longAbs v)).reverse = decimalText v.natAbs := by
  rw [longAbs_eq h, emitDigits_eq (by decide) (h.trans (by decide))]
  rfl

theorem emitSpec_eq {rest : List EmitArg} (hletter : arg.takes letter) (hfits : arg.fits)
    (hroom : tmp.length + arg.text.length ≤ emitRoom) :
    emitSpec letter (arg :: rest) tmp = (tmp ++ arg.text, rest) := by
  cases arg with
  | str s =>
    have hput : emitPut tmp s = tmp ++ s := emitPut_eq hroom
    rw [emitSpec, if_pos (show letter = 115 from hletter), hput]
    rfl
  | chr c =>
    rw [emitSpec, if_pos (show letter = 99 from hletter)]
    rfl
  | num v =>
    have hsign : (if v < 0 then tmp ++ [45] else tmp) = tmp ++ (if v < 0 then [45] else []) := by
      split
      · rfl
      · exact (append_nil tmp).symm
    have hput : (tmp ++ if v < 0 then [45] else []).length + (decimalText v.natAbs).length ≤
        emitRoom := by
      rw [length_append, Nat.add_assoc, ← length_append]
      exact hroom
    rw [emitSpec, if_pos (show letter = 100 ∨ letter = 117 from hletter)]
    dsimp only
    rw [reverse_emitDigits hfits, hsign, emitPut_eq hput, append_assoc]
    rfl

/-- A text that fits `tmp` is written whole. -/
theorem Formats.emitLoop_eq (h : Formats fmt args text)
    (hroom : tmp.length + text.length ≤ emitRoom) : emitLoop fmt args tmp = tmp ++ text := by
  induction h generalizing tmp with
  | done => rw [emitLoop, append_nil]
  | @plain ch fmt args text hch h ih =>
    have hshort : ¬ emitRoom ≤ tmp.length := by
      rw [length_cons] at hroom
      omega
    have hrest : (tmp ++ [ch]).length + text.length ≤ emitRoom := by
      rw [length_append]
      rw [length_cons] at hroom
      simp only [length_singleton]
      omega
    have hcons : tmp ++ ch :: text = tmp ++ [ch] ++ text := by simp
    rw [hcons, ← ih hrest]
    cases fmt with
    | nil =>
      have hlast : emitLoop [ch] args tmp = tmp ++ [ch] := if_neg (not_or_intro hshort hch)
      rw [hlast, emitLoop]
    | cons letter fmt => rw [emitLoop, if_neg hshort, if_neg hch]
  | @spec letter fmt arg args text hletter hfits h ih =>
    rw [length_append] at hroom
    have hspec : emitSpec letter (arg :: args) tmp = (tmp ++ arg.text, args) :=
      emitSpec_eq hletter hfits (by omega)
    have hrest : (tmp ++ arg.text).length + text.length ≤ emitRoom := by
      rw [length_append]
      omega
    rw [emitLoop, hspec]
    by_cases hfull : emitRoom ≤ tmp.length
    · have htext : arg.text = [] ∧ text = [] := by
        constructor <;> apply eq_nil_of_length_eq_zero <;> omega
      rw [if_pos hfull, htext.1, htext.2, append_nil, append_nil]
    · rw [if_neg hfull, if_pos rfl, ih hrest, append_assoc]

/-- A text without NUL bytes that fits both buffers. -/
theorem Formats.emit_eq {cap : Nat} (h : Formats fmt args text) (hroom : text.length ≤ emitRoom)
    (hcap : text.length ≤ cap) (hnul : ∀ ch ∈ text, ch ≠ 0) : emit cap fmt args = text := by
  have hloop : emitLoop fmt args [] = text := h.emitLoop_eq (by simpa using hroom)
  have hall : text.takeWhile (· ≠ 0) = text :=
    takeWhile_eq_self_iff.mpr fun ch hch => by simpa using hnul ch hch
  rw [emit, hloop, hall, take_of_length_le hcap]

theorem digit_lt {n d : Nat} (hd : d ∈ if n = 0 then [0] else Nat.digits 10 n) : d < 10 := by
  split at hd
  · rw [mem_singleton.mp hd]
    decide
  · exact Nat.digits_lt_base (by decide) hd

/-- The bytes of a number are digits. -/
theorem decimalText_digits (n : Nat) : ∀ ch ∈ decimalText n, 48 ≤ ch ∧ ch ≤ 57 := by
  intro ch hch
  obtain ⟨d, hd, rfl⟩ := mem_map.mp (mem_reverse.mp hch)
  have hlt := digit_lt hd
  interval_cases d <;> decide

/-- The bytes of a number with its sign are not below a minus. -/
theorem signedText_range (v : Int) : ∀ ch ∈ signedText v, 45 ≤ ch := by
  intro ch hch
  rcases mem_append.mp hch with hsign | hdigit
  · split at hsign
    · rw [mem_singleton.mp hsign]
      exact UInt8.le_refl _
    · cases hsign
  · exact UInt8.le_trans (by decide) (decimalText_digits _ ch hdigit).1

theorem signedText_ne_nul (v : Int) : ∀ ch ∈ signedText v, ch ≠ 0 := by
  rintro ch hch rfl
  exact absurd (signedText_range v 0 hch) (by decide)

theorem length_signedText_le {v : Int} {k : Nat} (hk : 0 < k) (h : v.natAbs < 10 ^ k) :
    (signedText v).length ≤ k + 1 := by
  have hdigits : (decimalText v.natAbs).length ≤ k := by
    rw [decimalText, length_reverse, length_map]
    split
    · exact hk
    · exact Nat.digits_length_le_iff (by decide) _ |>.mpr h
  have hsign : (if v < 0 then [(45 : UInt8)] else []).length ≤ 1 := by split <;> decide
  rw [signedText, length_append]
  omega

/-- A C `int` has at most eleven characters. -/
theorem length_signedText (v : BitVec 32) : (signedText v.toInt).length ≤ 11 := by
  have := v.toInt_lt
  have := v.le_toInt
  exact length_signedText_le (by decide) (by omega)

theorem fits_num (v : BitVec 32) : (EmitArg.num v.toInt).fits := by
  have := v.toInt_lt
  have := v.le_toInt
  show v.toInt.natAbs < 2 ^ 63
  omega

theorem Formats.int (v : BitVec 32) (h : Formats fmt args text) :
    Formats (37 :: 100 :: fmt) (.num v.toInt :: args) (signedText v.toInt ++ text) :=
  .spec (show EmitArg.takes (.num _) 100 from .inl rfl) (fits_num v) h

theorem Formats.char (c : UInt8) (h : Formats fmt args text) :
    Formats (37 :: 99 :: fmt) (.chr c :: args) ([c] ++ text) :=
  .spec (show EmitArg.takes (.chr c) 99 from rfl) trivial h

theorem Formats.string (s : CStr) (h : Formats fmt args text) :
    Formats (37 :: 115 :: fmt) (.str s :: args) (s ++ text) :=
  .spec (show EmitArg.takes (.str s) 115 from rfl) trivial h

end Emit

end Mmix.Fs
