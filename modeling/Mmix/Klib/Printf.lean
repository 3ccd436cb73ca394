import Mmix.Fs.ProcRead

/-!
# Formatted output into a buffer

`vsnprintf_mini` hands every character to `fmt_put`, which drops what does not
fit, and closes the text with a NUL. What is dropped has no influence on the
characters that follow, so a short buffer holds the beginning of the text that a
long one would hold.
-/

namespace Mmix.Klib

open Fs List

/-- An argument: what `va_arg` yields when it is read as a string, null included,
and the word that it yields when it is read as an integer. -/
structure VaArg where
  text : Option CStr
  word : BitVec 64

/-- `struct fmt_buf`, with the bytes at `out`. -/
structure FmtBuf where
  out : Nat → UInt8
  cap : Nat
  o : Nat

/-- `fmt_put`. -/
def fmtPut (b : FmtBuf) (c : UInt8) : FmtBuf :=
  if b.o + 1 < b.cap then { b with out := Function.update b.out b.o c, o := b.o + 1 } else b

/-- The loop that fills `num` for `%x`. -/
def hexDigits : Nat → Nat → List UInt8
  | 0, _ => []
  | room + 1, v =>
    (ascii "0123456789abcdef").getD (v &&& 0xF) 0 ::
      if v >>> 4 = 0 then [] else hexDigits room (v >>> 4)

/-- A signed argument, with `l` or without. -/
def VaArg.signed (arg : VaArg) (longmod : Bool) : Int :=
  if longmod then arg.word.toInt else (arg.word.setWidth 32).toInt

/-- An unsigned argument. -/
def VaArg.unsigned (arg : VaArg) (longmod : Bool) : Nat :=
  if longmod then arg.word.toNat else (arg.word.setWidth 32).toNat

/-- The cases of the `switch`: the characters put, and how many arguments they use. -/
def conversion (longmod : Bool) (letter : UInt8) (arg : VaArg) : List UInt8 × Nat :=
  if letter = 115 then (arg.text.getD (ascii "(null)"), 1)
  else if letter = 100 then
    let v := arg.signed longmod
    ((if v < 0 then [45] else []) ++ (emitDigits 24 (longAbs v)).reverse, 1)
  else if letter = 117 then ((emitDigits 24 (arg.unsigned longmod)).reverse, 1)
  else if letter = 120 then ((hexDigits 24 (arg.unsigned longmod)).reverse, 1)
  else if letter = 99 then ([UInt8.ofBitVec (arg.word.setWidth 8)], 1)
  else if letter = 37 then ([37], 0)
  else ([37, letter], 0)

/-- The loop over the format, between directives or behind a percent sign and the
letters `l` read so far. Nothing for a format that ends inside of a directive: the
loop then reads on behind its end. -/
def formatLoop (args : Nat → VaArg) : CStr → Option Bool → Nat → FmtBuf → Option FmtBuf
  | [], none, _, b => some b
  | [], some _, _, _ => none
  | ch :: fmt, none, used, b =>
    if ch = 37 then formatLoop args fmt (some false) used b
    else formatLoop args fmt none used (fmtPut b ch)
  | ch :: fmt, some longmod, used, b =>
    if ch = 108 then formatLoop args fmt (some true) used b
    else
      let (text, uses) := conversion longmod ch (args used)
      formatLoop args fmt none (used + uses) (text.foldl fmtPut b)

/-- `vsnprintf_mini`: the bytes at `out` afterwards. -/
def vsnprintfMini (out : Nat → UInt8) (cap : Nat) (fmt : CStr) (args : Nat → VaArg) :
    Option (Nat → UInt8) :=
  if cap = 0 then some out
  else (formatLoop args fmt none 0 ⟨out, cap, 0⟩).map fun b => Function.update b.out b.o 0

/-- The formats that do not end inside of a directive. -/
inductive Complete : CStr → Prop where
  | done : Complete []
  | plain {ch : UInt8} {fmt : CStr} (hch : ch ≠ 37) (h : Complete fmt) : Complete (ch :: fmt)
  | directive (ls : Nat) {letter : UInt8} {fmt : CStr} (hletter : letter ≠ 108)
      (h : Complete fmt) : Complete (37 :: (List.replicate ls 108 ++ letter :: fmt))

/-- The bytes after a text has been written from the first one on. -/
def written (out : Nat → UInt8) (text : List UInt8) : Nat → UInt8 := fun i => text.getD i (out i)

section Truncation

variable {out : Nat → UInt8} {cap : Nat} {text : List UInt8} {b : FmtBuf}

/-- The buffer holds as much of the text as there is room for. -/
structure Holds (out : Nat → UInt8) (cap : Nat) (text : List UInt8) (b : FmtBuf) : Prop where
  cap_eq : b.cap = cap
  o_eq : b.o = (text.take (cap - 1)).length
  out_eq : b.out = written out (text.take (cap - 1))

theorem written_concat (out : Nat → UInt8) (text : List UInt8) (c : UInt8) :
    written out (text ++ [c]) = Function.update (written out text) text.length c := by
  ext1 i
  unfold written
  by_cases hi : i = text.length
  · rw [hi, Function.update_self]
    simp
  · rw [Function.update_of_ne hi]
    rcases Nat.lt_or_gt_of_ne hi with hlt | hgt
    · simp [getD_eq_getElem?_getD, getElem?_append_left hlt]
    · rw [getD_eq_default _ _ (by simp; omega), getD_eq_default _ _ (by omega)]

theorem Holds.put (h : Holds out cap text b) (c : UInt8) :
    Holds out cap (text ++ [c]) (fmtPut b c) := by
  obtain ⟨hcap, ho, hout⟩ := h
  rw [length_take] at ho
  unfold fmtPut
  by_cases hroom : text.length < cap - 1
  · have hall : text.take (cap - 1) = text := take_of_length_le (by omega)
    have hnew : (text ++ [c]).take (cap - 1) = text ++ [c] :=
      take_of_length_le (by simp; omega)
    rw [hall] at hout
    have hlen : b.o = text.length := by omega
    rw [if_pos (by omega)]
    refine ⟨hcap, ?_, ?_⟩
    · rw [hnew, length_append, length_singleton, hlen]
    · rw [hnew, written_concat, hout, hlen]
  · have hold : (text ++ [c]).take (cap - 1) = text.take (cap - 1) :=
      take_append_of_le_length (by omega)
    rw [if_neg (by omega)]
    exact ⟨hcap, by rw [hold, length_take, ho], by rw [hold, hout]⟩

theorem Holds.puts (h : Holds out cap text b) (cs : List UInt8) :
    Holds out cap (text ++ cs) (cs.foldl fmtPut b) := by
  induction cs generalizing text b with
  | nil => rwa [append_nil]
  | cons c cs ih =>
    have hrest := ih (h.put c)
    rwa [append_assoc] at hrest

/-- The letters `l` only set the flag. -/
theorem formatLoop_longs (args : Nat → VaArg) (ls : Nat) (fmt : CStr) (longmod : Bool)
    (used : Nat) (b : FmtBuf) :
    formatLoop args (replicate ls 108 ++ fmt) (some longmod) used b =
      formatLoop args fmt (some (longmod || ls != 0)) used b := by
  induction ls generalizing longmod with
  | zero => simp
  | succ ls ih =>
    rw [replicate_succ, cons_append, formatLoop, if_pos rfl, ih]
    simp

/-- The loop puts the same characters into every buffer. -/
theorem formatLoop_holds {fmt : CStr} (hfmt : Complete fmt) (args : Nat → VaArg) (used : Nat) :
    ∃ rest, ∀ {out cap text b}, Holds out cap text b →
      ∃ b', formatLoop args fmt none used b = some b' ∧ Holds out cap (text ++ rest) b' := by
  induction hfmt generalizing used with
  | done => exact ⟨[], fun h => ⟨_, rfl, by rwa [append_nil]⟩⟩
  | @plain ch fmt hch _ ih =>
    obtain ⟨rest, hrest⟩ := ih used
    refine ⟨ch :: rest, fun {out cap text b} h => ?_⟩
    obtain ⟨b', hloop, hb'⟩ := hrest (h.put ch)
    rw [formatLoop, if_neg hch]
    exact ⟨b', hloop, by rwa [append_assoc] at hb'⟩
  | @directive ls letter fmt hletter _ ih =>
    obtain ⟨rest, hrest⟩ := ih (used + (conversion (false || ls != 0) letter (args used)).2)
    refine ⟨(conversion (false || ls != 0) letter (args used)).1 ++ rest,
      fun {out cap text b} h => ?_⟩
    obtain ⟨b', hloop, hb'⟩ :=
      hrest (h.puts (conversion (false || ls != 0) letter (args used)).1)
    rw [formatLoop, if_pos rfl, formatLoop_longs, formatLoop, if_neg hletter]
    exact ⟨b', hloop, by rwa [append_assoc] at hb'⟩

/-- Any buffer holds what there is room for, when the loop puts a text. -/
theorem vsnprintfMini_holds {fmt : CStr} {args : Nat → VaArg}
    (hloop : ∀ {out cap b}, Holds out cap [] b →
      ∃ b', formatLoop args fmt none 0 b = some b' ∧ Holds out cap text b')
    (out : Nat → UInt8) (cap : Nat) (hcap : 1 ≤ cap) :
    vsnprintfMini out cap fmt args = some (written out (text.take (cap - 1) ++ [0])) := by
  have hstart : Holds out cap [] ⟨out, cap, 0⟩ := ⟨rfl, by simp, by rw [take_nil]; rfl⟩
  obtain ⟨b, hrun, hb⟩ := hloop hstart
  rw [vsnprintfMini, if_neg (by omega), hrun, Option.map_some, hb.out_eq, hb.o_eq, written_concat]

end Truncation

/-- The text is what every buffer that is long enough holds afterwards. -/
def Renders (fmt : CStr) (args : Nat → VaArg) (text : List UInt8) : Prop :=
  ∀ out cap, text.length < cap → vsnprintfMini out cap fmt args = some (written out (text ++ [0]))

/-- A buffer of any size holds the beginning of the full text and a NUL, and no
byte behind it is written. -/
theorem vsnprintf_truncates {fmt : CStr} (hfmt : Complete fmt) (args : Nat → VaArg) :
    ∃ text, Renders fmt args text ∧ ∀ out cap, 1 ≤ cap →
      ∃ out', vsnprintfMini out cap fmt args = some out' ∧
        out' = written out (text.take (min (cap - 1) text.length) ++ [0]) ∧
        ∀ i, cap ≤ i → out' i = out i := by
  obtain ⟨text, htext⟩ := formatLoop_holds hfmt args 0
  have hrun := vsnprintfMini_holds fun h => by simpa using htext h
  refine ⟨text, fun out cap hcap => ?_, fun out cap hcap => ⟨_, hrun out cap hcap, ?_, ?_⟩⟩
  · rw [hrun out cap (by omega), List.take_of_length_le (by omega)]
  · rw [List.take_eq_take_min]
  · intro i hi
    exact List.getD_eq_default _ _ (by simp; omega)

theorem vsnprintf_truncates_hex : ∃ text, Renders (ascii "0x%lx") (fun _ => ⟨none, 255⟩) text ∧
    ∀ out cap, 1 ≤ cap →
      ∃ out', vsnprintfMini out cap (ascii "0x%lx") (fun _ => ⟨none, 255⟩) = some out' ∧
        out' = written out (text.take (min (cap - 1) text.length) ++ [0]) ∧
        ∀ i, cap ≤ i → out' i = out i :=
  vsnprintf_truncates (.plain (by decide) (.plain (by decide)
    (@Complete.directive 1 120 [] (by decide) .done))) _

end Mmix.Klib
