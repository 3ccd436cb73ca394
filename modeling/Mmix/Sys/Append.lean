import Mmix.Sys.System

/-!
# Writes at the end of a file

`sys_open` with `O_APPEND` places a new descriptor at the end the file has at
that moment, and `sys_write` writes where the descriptor stands. A file grows by
the buffers that are written to it as long as each descriptor still stands at the
end when it is used.
-/

namespace Mmix.Sys

open Mm Fs Proc Kernel Net

namespace System

/-- The write to a file that a call makes: the file, the position and the buffer. -/
def callWrite (st : System) : Call → Option (NodePtr × Nat × List UInt8)
  | .write fd false data _ =>
    if data = [] then none
    else
      match st.writeTarget fd with
      | .file p pos => some (p, pos, data)
      | _ => none
  | _ => none

/-- The write to a file that the step makes. -/
def fileWrite (st : System) (inp : Input) : Option (NodePtr × Nat × List UInt8) :=
  (st.dispatched inp).bind st.callWrite

/-- The buffer that the step writes to a file with success. -/
def written (st : System) (p : NodePtr) (inp : Input) : List UInt8 :=
  match st.fileWrite inp with
  | none => []
  | some (q, pos, data) =>
    if q = p ∧ 0 < (vfsWrite st.vfs (some q) data pos).1 then data else []

/-- The buffers that the steps of a run write to a file with success, one behind the
other. -/
def allWritten (nic : Nic) (p : NodePtr) : System → List Input → List UInt8
  | _, [] => []
  | st, inp :: inps =>
    st.written p inp ++
      match st.step nic inp with
      | none => []
      | some st' => allWritten nic p st' inps

/-- A write to the file is made at its end, and its size fits the types of the source. -/
def AtEnd (p : NodePtr) (st : System) (inp : Input) : Prop :=
  ∀ pos data, st.fileWrite inp = some (p, pos, data) →
    pos = (st.vfs.node p).size ∧ data.length < 2 ^ 31 ∧ pos + data.length < 2 ^ 64

instance (p : NodePtr) (st : System) (inp : Input) : Decidable (AtEnd p st inp) :=
  decidable_of_iff (∀ w ∈ st.fileWrite inp, w.1 = p → w.2.1 = (st.vfs.node p).size ∧
      w.2.2.length < 2 ^ 31 ∧ w.2.1 + w.2.2.length < 2 ^ 64)
    ⟨fun h pos data hw => h (p, pos, data) hw rfl, fun h w hw hp => h w.2.1 w.2.2 (hp ▸ hw)⟩

end System

section Step

variable {st st' : System} {nic : Nic} {inp : Input} {p : NodePtr} {content : List UInt8}

theorem System.answer_vfs (st : System) (nic : Nic) (inp : Input) (c : Call) :
    (∃ q pos data, st.callWrite c = some (q, pos, data) ∧
      (st.answer nic inp c).2.1 = (vfsWrite st.vfs (some q) data pos).2) ∨
    st.callWrite c = none ∧ st.vfs.Stores (st.answer nic inp c).2.1 := by
  cases c with
  | openFile pathNull node append size =>
    refine Or.inr ⟨rfl, ?_⟩
    cases pathNull with
    | true => exact .refl _
    | false =>
      have hopen := @sysOpenNode_stores st.live st.vfs inp.path inp.create
      rw [answer]
      generalize sysOpenNode st.live st.vfs inp.path inp.create = r at hopen
      obtain ⟨found, vfs⟩ := r
      cases found with
      | none => exact hopen
      | some n => exact hopen
  | write fd bufNull data result =>
    cases bufNull with
    | true => exact Or.inr ⟨rfl, .refl _⟩
    | false =>
      rw [callWrite, answer]
      by_cases hdata : data = []
      · rw [if_pos hdata, if_pos hdata]
        exact Or.inr ⟨rfl, .refl _⟩
      · rw [if_neg hdata, if_neg hdata]
        cases st.writeTarget fd with
        | file q pos => exact Or.inl ⟨q, pos, data, rfl, rfl⟩
        | net => exact Or.inr ⟨rfl, .refl _⟩
        | other => exact Or.inr ⟨rfl, .refl _⟩
  | read fd bufNull count result =>
    refine Or.inr ⟨rfl, ?_⟩
    cases bufNull with
    | true => exact .refl _
    | false =>
      rw [answer]
      cases st.readTarget fd with
      | file q pos => exact .refl _
      | net => exact .refl _
      | other => exact .refl _
  | _ => exact Or.inr ⟨rfl, .refl _⟩

/-- What a step does to the file system: a write, or nothing that changes a file. -/
theorem System.prepare_vfs (st : System) (nic : Nic) (inp : Input) :
    (∃ q pos data, st.fileWrite inp = some (q, pos, data) ∧
      (st.prepare nic inp).vfs = (vfsWrite st.vfs (some q) data pos).2) ∨
    st.fileWrite inp = none ∧ st.vfs.Stores (st.prepare nic inp).vfs := by
  cases hc : st.dispatched inp with
  | none =>
    rw [prepare_none hc, fileWrite, hc]
    exact Or.inr ⟨rfl, .refl _⟩
  | some c =>
    rw [prepare_some hc, fileWrite, hc]
    exact st.answer_vfs nic inp c

theorem System.fileWrite_data {q : NodePtr} {pos : Nat} {data : List UInt8}
    (h : st.fileWrite inp = some (q, pos, data)) : data ≠ [] := by
  obtain ⟨c, -, hc⟩ := Option.bind_eq_some_iff.mp h
  rw [callWrite.eq_def] at hc
  split at hc
  · split at hc
    · cases hc
    · next hne =>
      split at hc
      · cases hc
        exact hne
      · cases hc
  · cases hc

theorem System.written_some {q : NodePtr} {pos : Nat} {data : List UInt8}
    (h : st.fileWrite inp = some (q, pos, data)) (p : NodePtr) :
    st.written p inp =
      if q = p ∧ 0 < (vfsWrite st.vfs (some q) data pos).1 then data else [] := by
  rw [written, h]

/-- A write at the end of the file. -/
theorem System.FileIs_atEnd (h : st.vfs.FileIs p content) {data : List UInt8} (hdata : data ≠ [])
    (hlen : data.length < 2 ^ 31) (hbound : content.length + data.length < 2 ^ 64) :
    (vfsWrite st.vfs (some p) data content.length).2.FileIs p (content ++
      if p = p ∧ 0 < (vfsWrite st.vfs (some p) data content.length).1 then data else []) := by
  rcases h.write hbound with ⟨hr, hfile⟩ | ⟨hr, hfile⟩
  · have hpos : 0 < (vfsWrite st.vfs (some p) data content.length).1 := by
      rw [hr, toInt_ofNat_of_lt hlen]
      exact Int.natCast_pos.mpr (List.length_pos_iff.mpr hdata)
    rw [if_pos ⟨rfl, hpos⟩]
    rwa [overwrite_end] at hfile
  · have hneg : ¬ 0 < (vfsWrite st.vfs (some p) data content.length).1 := by
      rw [hr]
      decide
    rw [if_neg (fun hc => hneg hc.2), List.append_nil]
    exact hfile

/-- One step: the file grows by what is written to it. -/
theorem System.FileIs_step (h : st.vfs.FileIs p content) (hcond : AtEnd p st inp)
    (hstep : st.step nic inp = some st') :
    st'.vfs.FileIs p (content ++ st.written p inp) := by
  rw [(step_eq_some hstep).2.1]
  rcases st.prepare_vfs nic inp with ⟨q, pos, data, hwrite, hvfs⟩ | ⟨hwrite, hstores⟩
  · rw [hvfs, written_some hwrite]
    by_cases hq : q = p
    · subst hq
      obtain ⟨hpos, hlen, hbound⟩ := hcond pos data hwrite
      rw [h.size] at hpos
      subst hpos
      exact FileIs_atEnd h (fileWrite_data hwrite) hlen hbound
    · rw [if_neg (fun hc => hq hc.1), List.append_nil]
      exact h.write_other hq
  · rw [written, hwrite, List.append_nil]
    exact h.stores hstores

end Step

/-- In every run in which each write to a file is made at its end, the file holds what it
held at first and then all buffers written to it, in the order of the writes. -/
theorem append_keeps_all (nic : Nic) {p : NodePtr} {content : List UInt8} {st st' : System}
    {inps : List Input} (h : st.vfs.FileIs p content)
    (hcond : Run.Along (System.step · nic) (System.AtEnd p) st inps)
    (hrun : Run.run (System.step · nic) st inps = some st') :
    st'.vfs.FileIs p (content ++ st.allWritten nic p inps) := by
  induction inps generalizing st content with
  | nil =>
    cases hrun
    rw [System.allWritten, List.append_nil]
    exact h
  | cons inp inps ih =>
    obtain ⟨st₁, hstep, hrest⟩ := Run.run_cons hrun
    have hstep' : st.step nic inp = some st₁ := hstep
    have hnext := ih (System.FileIs_step h hcond.1 hstep) (hcond.2 st₁ hstep) hrest
    rw [System.allWritten, hstep']
    rwa [List.append_assoc] at hnext

/-- An open with `O_APPEND`. -/
def openAppend (path : CStr) : List Input := callAt path (.openFile false none true 0)

/-- A process opens a file for appending and writes to it twice. -/
def appendTwice : List Input :=
  { event := .resume } :: openAppend (ascii "/f") ++ callAt [] (.write 3 false [65] 0) ++
    callAt [] (.write 3 false [66] 0)

/-- A process opens a file for appending twice and writes to both descriptors. -/
def appendBoth : List Input :=
  { event := .resume } :: openAppend (ascii "/f") ++ openAppend (ascii "/f") ++
    callAt [] (.write 3 false [65] 0) ++ callAt [] (.write 4 false [66] 0)

theorem append_keeps_all_appendTwice : ∃ k₀ st',
    boot smallVm (some smallProgram) (some smallProgram) = some k₀ ∧
    Run.run (System.step · smallNic) ⟨k₀, oneFile, netInit smallNic⟩ appendTwice = some st' ∧
    st'.vfs.FileIs (.heap 1) ([] ++
      System.allWritten smallNic (.heap 1) ⟨k₀, oneFile, netInit smallNic⟩ appendTwice) := by
  have hrun : ∃ k₀, boot smallVm (some smallProgram) (some smallProgram) = some k₀ ∧
      Run.Along (System.step · smallNic) (System.AtEnd (.heap 1))
        ⟨k₀, oneFile, netInit smallNic⟩ appendTwice ∧
      ∃ st', Run.run (System.step · smallNic) ⟨k₀, oneFile, netInit smallNic⟩ appendTwice =
        some st' ∧ (st'.vfs.node (.heap 1)).data = [65, 66] := by
    decide +kernel
  obtain ⟨k₀, hboot, hcond, st', hrun, -⟩ := hrun
  exact ⟨k₀, st', hboot, hrun, append_keeps_all smallNic oneFile_fileIs hcond hrun⟩

/-- Of two descriptors opened for appending, the second overwrites what the first wrote. -/
theorem append_overwrites : ∃ k₀,
    boot smallVm (some smallProgram) (some smallProgram) = some k₀ ∧
    System.allWritten smallNic (.heap 1) ⟨k₀, oneFile, netInit smallNic⟩ appendBoth = [65, 66] ∧
    ∃ st', Run.run (System.step · smallNic) ⟨k₀, oneFile, netInit smallNic⟩ appendBoth =
      some st' ∧ (oneFile.node (.heap 1)).data = [] ∧ (st'.vfs.node (.heap 1)).data = [66] := by
  decide +kernel

end Mmix.Sys
