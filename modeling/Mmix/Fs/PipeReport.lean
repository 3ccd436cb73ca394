import Mmix.Fs.Pipe

/-!
# What `pipe_write` reports

A call of `pipe_write` may block several times before all its bytes are in the
pipe. Both error exits of its loop return -1, whatever has been inserted
before, and the count that a complete call returns is cast to `int`. The calls
on a pipe are run together with a record of what each of them has inserted and
returned.
-/

namespace Mmix.Fs

open Option

/-- What a pass of `pipe_write` returns, if it ends the call. -/
def WriteStep.result (done : Nat) : WriteStep → Option Int
  | .finished => some (intOf done)
  | .epipe => some (-1)
  | .abort => some (-1)
  | .copied _ => none
  | .park => none

/-- A pipe with its callers, the number of bytes that the last `pipe_write` of
each caller has inserted, and what it has returned. -/
structure Metered where
  sys : PipeSystem
  sent : Nat → Nat
  result : Nat → Option Int

namespace Metered

/-- The record of a caller. -/
def note (s : Metered) (sys : PipeSystem) (id sent : Nat) (result : Option Int) : Metered where
  sys := sys
  sent := Function.update s.sent id sent
  result := Function.update s.result id result

/-- One event, with the growth of the pipe counted for the writer that makes
the pass. -/
def step (s : Metered) (e : PipeEvent) : Option Metered :=
  (s.sys.step e).map fun sys =>
    match e with
    | .callRead _ _ => { s with sys := sys }
    | .callWrite id _ => s.note sys id 0 none
    | .pass id sigAbort =>
      match s.sys.calls id with
      | .write data done =>
        s.note sys id (s.sent id + (sys.pipe.len - s.sys.pipe.len))
          ((pipeWriteStep s.sys.pipe (data.drop done) sigAbort).1.result done)
      | _ => { s with sys := sys }
    | .setEnds _ _ => { s with sys := sys }

/-- A pipe in any state, with no call in progress and nothing returned yet. -/
structure Start (s : Metered) : Prop where
  idle : ∀ id, s.sys.calls id = .idle
  result : ∀ id, s.result id = none

/-- Each call that has returned reported what it inserted: a count is the
number of bytes, and -1 means none. -/
def Reports (s : Metered) : Prop :=
  ∀ id r, s.result id = some r → (0 ≤ r → (s.sent id : Int) = r) ∧ (r = -1 → s.sent id = 0)

/-- The count is read correctly from an `int`, or as an error other than -1. -/
def FitsInt (count : Nat) : Prop := count < 2 ^ 31 ∨ intOf count < -1

instance (count : Nat) : Decidable (FitsInt count) := inferInstanceAs (Decidable (_ ∨ _))

/-- A pass of `pipe_write` does not find the pipe without readers or a signal
after a part of the bytes was inserted, and a complete count fits. -/
def UncutPass (p : Pipe) (sigAbort : Bool) : PipeCall → Prop
  | .write data done =>
    (done < data.length → done = 0 ∨ p.readers ≠ 0 ∧ sigAbort = false) ∧
      (data.length ≤ done → FitsInt done)
  | .read _ => True
  | .idle => True

instance (p : Pipe) (sigAbort : Bool) : ∀ c, Decidable (UncutPass p sigAbort c)
  | .write _ _ => inferInstanceAs (Decidable (_ ∧ _))
  | .read _ => isTrue trivial
  | .idle => isTrue trivial

/-- No call of `pipe_write` is cut short by the event. -/
def Uncut (s : Metered) : PipeEvent → Prop
  | .pass id sigAbort => UncutPass s.sys.pipe sigAbort (s.sys.calls id)
  | .callRead _ _ => True
  | .callWrite _ _ => True
  | .setEnds _ _ => True

instance (s : Metered) : ∀ e, Decidable (s.Uncut e)
  | .pass id sigAbort =>
    inferInstanceAs (Decidable (UncutPass s.sys.pipe sigAbort (s.sys.calls id)))
  | .callRead _ _ => isTrue trivial
  | .callWrite _ _ => isTrue trivial
  | .setEnds _ _ => isTrue trivial

/-- The loop variable of each writer counts what it has inserted. -/
def Counts (s : Metered) : Prop :=
  ∀ id data done, s.sys.calls id = .write data done → done = s.sent id

variable {s s' : Metered} {e : PipeEvent}

/-- How a pass of `pipe_write` ends, with what it finds and inserts. -/
theorem pipeWriteStep_cases (p : Pipe) (rest : List UInt8) (sigAbort : Bool) :
    (rest = [] ∧ pipeWriteStep p rest sigAbort = (.finished, p)) ∨
    (rest ≠ [] ∧ ¬ (p.readers ≠ 0 ∧ sigAbort = false) ∧ ∃ w, pipeWriteStep p rest sigAbort = (w, p) ∧
      (w = .epipe ∨ w = .abort)) ∨
    (rest ≠ [] ∧ p.readers ≠ 0 ∧ sigAbort = false ∧ (pipeWriteStep p rest sigAbort = (.park, p) ∨
      ∃ count p', pipeWriteStep p rest sigAbort = (.copied count, p') ∧
        p'.len = p.len + count)) := by
  unfold pipeWriteStep
  split
  next hrest => exact Or.inl ⟨hrest, rfl⟩
  next hrest =>
    right
    split
    next hrd => exact Or.inl ⟨hrest, fun h => h.1 hrd, .epipe, rfl, Or.inl rfl⟩
    next hrd =>
      split
      next hsig =>
        have hcut : ¬ (p.readers ≠ 0 ∧ sigAbort = false) := fun h => Bool.false_ne_true (h.2 ▸ hsig)
        exact Or.inl ⟨hrest, hcut, .abort, rfl, Or.inr rfl⟩
      next hsig =>
        right
        refine ⟨hrest, hrd, Bool.eq_false_of_not_eq_true hsig, ?_⟩
        split
        next => exact Or.inr ⟨_, _, rfl, (pipeCopyIn_count rest).1⟩
        next => exact Or.inl rfl

theorem setCall_write {sys : PipeSystem} {id id' : Nat} {c : PipeCall} {data : List UInt8}
    {done : Nat} (h : (sys.setCall id c).calls id' = .write data done) :
    id' = id ∧ c = .write data done ∨ id' ≠ id ∧ sys.calls id' = .write data done := by
  by_cases hid : id' = id
  · subst hid
    simp only [PipeSystem.setCall, Function.update_self] at h
    exact Or.inl ⟨rfl, h⟩
  · simp only [PipeSystem.setCall, Function.update_of_ne hid] at h
    exact Or.inr ⟨hid, h⟩

/-- A pass of a reader leaves the writers where they are. -/
theorem readPass_calls {sys : PipeSystem} {id n id' : Nat} {sigAbort : Bool} {data : List UInt8}
    {done : Nat} (h : (sys.readPass id n sigAbort).calls id' = .write data done) :
    sys.calls id' = .write data done := by
  simp only [PipeSystem.readPass] at h
  split at h
  · exact h
  · rcases setCall_write h with ⟨-, hidle⟩ | ⟨-, hcall⟩
    · cases hidle
    · exact hcall

/-- The events that do not concern a writer, the start of a call of
`pipe_write`, and a pass of one. -/
theorem step_cases (h : s.step e = some s') :
    (s'.sent = s.sent ∧ s'.result = s.result ∧ s.Uncut e ∧
      ∀ id data done, s'.sys.calls id = .write data done → s.sys.calls id = .write data done) ∨
    (∃ id data, e = .callWrite id data ∧
      s' = s.note (s.sys.setCall id (.write data 0)) id 0 none) ∨
    ∃ id sigAbort data done, e = .pass id sigAbort ∧ s.sys.calls id = .write data done ∧
      s' = s.note (s.sys.writePass id data done sigAbort) id
        (s.sent id + ((s.sys.writePass id data done sigAbort).pipe.len - s.sys.pipe.len))
        ((pipeWriteStep s.sys.pipe (data.drop done) sigAbort).1.result done) := by
  obtain ⟨sys, hsys, rfl⟩ := map_eq_some_iff.mp h
  cases e with
  | callRead id n =>
    obtain ⟨-, heq⟩ := ite_none_right_eq_some.mp hsys
    cases heq
    refine Or.inl ⟨rfl, rfl, trivial, fun id' data done hcall => ?_⟩
    rcases setCall_write hcall with ⟨-, hread⟩ | ⟨-, hcall⟩
    · cases hread
    · exact hcall
  | callWrite id data =>
    obtain ⟨-, heq⟩ := ite_none_right_eq_some.mp hsys
    cases heq
    exact Or.inr (Or.inl ⟨id, data, rfl, rfl⟩)
  | setEnds readers writers =>
    cases hsys
    exact Or.inl ⟨rfl, rfl, trivial, fun _ _ _ hcall => hcall⟩
  | pass id sigAbort =>
    simp only [PipeSystem.step] at hsys
    cases hcall : s.sys.calls id with
    | idle =>
      rw [hcall] at hsys
      cases hsys
    | read n =>
      rw [hcall] at hsys
      cases hsys
      dsimp only
      rw [hcall]
      have huncut : s.Uncut (.pass id sigAbort) := by simp only [Uncut, hcall, UncutPass]
      exact Or.inl ⟨rfl, rfl, huncut, fun id' data done hcall' => readPass_calls hcall'⟩
    | write data done =>
      rw [hcall] at hsys
      cases hsys
      dsimp only
      rw [hcall]
      exact Or.inr (Or.inr ⟨id, sigAbort, data, done, rfl, hcall, rfl⟩)

theorem reports_note (h : s.Reports) (sys : PipeSystem) (id sent : Nat) (result : Option Int) :
    (s.note sys id sent result).Reports ↔
      ∀ r, result = some r → (0 ≤ r → (sent : Int) = r) ∧ (r = -1 → sent = 0) := by
  constructor
  · intro hnote r hr
    simpa [note] using hnote id r (by simpa [note] using hr)
  · intro hid id' r hr
    by_cases heq : id' = id
    · subst heq
      simp only [note, Function.update_self] at hr ⊢
      exact hid r hr
    · simp only [note, Function.update_of_ne heq] at hr ⊢
      exact h id' r hr

theorem fitsInt_iff (count : Nat) : FitsInt count ↔
    (0 ≤ intOf count → (count : Int) = intOf count) ∧ (intOf count = -1 → count = 0) := by
  simp only [FitsInt, intOf, BitVec.toInt_eq_toNat_cond, BitVec.toNat_ofNat]
  split <;> omega

/-- What a pass of a writer does: it completes the call, fails, or goes on,
having counted what it inserted. -/
theorem writePass_cases (sys : PipeSystem) (id : Nat) (data : List UInt8) (done : Nat)
    (sigAbort : Bool) (hcall : sys.calls id = .write data done) :
    (data.length ≤ done ∧
      sys.writePass id data done sigAbort = sys.setCall id .idle ∧
      (pipeWriteStep sys.pipe (data.drop done) sigAbort).1.result done = some (intOf done)) ∨
    (done < data.length ∧ ¬ (sys.pipe.readers ≠ 0 ∧ sigAbort = false) ∧
      sys.writePass id data done sigAbort = sys.setCall id .idle ∧
      (pipeWriteStep sys.pipe (data.drop done) sigAbort).1.result done = some (-1)) ∨
    (done < data.length ∧ sys.pipe.readers ≠ 0 ∧ sigAbort = false ∧
      (pipeWriteStep sys.pipe (data.drop done) sigAbort).1.result done = none ∧
      (sys.writePass id data done sigAbort).calls = Function.update sys.calls id (.write data
        (done + ((sys.writePass id data done sigAbort).pipe.len - sys.pipe.len)))) := by
  rcases pipeWriteStep_cases sys.pipe (data.drop done) sigAbort with
    ⟨hrest, hw⟩ | ⟨hrest, hcut, w, hw, hwe⟩ | ⟨hrest, hrd, hsig, hw | ⟨count, p', hw, hlen⟩⟩
  · left
    refine ⟨List.drop_eq_nil_iff.mp hrest, ?_, by rw [hw]; rfl⟩
    simp only [PipeSystem.writePass, hw, WriteStep.bytes, List.append_nil]
  · right; left
    refine ⟨Nat.lt_of_not_le fun h => hrest (List.drop_eq_nil_iff.mpr h), hcut, ?_, ?_⟩
    · rcases hwe with rfl | rfl <;>
        simp only [PipeSystem.writePass, hw, WriteStep.bytes, List.append_nil]
    · rcases hwe with rfl | rfl <;> rw [hw] <;> rfl
  · right; right
    refine ⟨Nat.lt_of_not_le fun h => hrest (List.drop_eq_nil_iff.mpr h), hrd, hsig,
      by rw [hw]; rfl, ?_⟩
    simp only [PipeSystem.writePass, hw, Nat.sub_self, Nat.add_zero]
    rw [← hcall, Function.update_eq_self]
  · right; right
    refine ⟨Nat.lt_of_not_le fun h => hrest (List.drop_eq_nil_iff.mpr h), hrd, hsig,
      by rw [hw]; rfl, ?_⟩
    simp only [PipeSystem.writePass, hw, PipeSystem.setCall, hlen, Nat.add_sub_cancel_left]

/-- A new record of a caller keeps the counts if it agrees with its call. -/
theorem Counts.note (h : s.Counts) {sys : PipeSystem} {id sent : Nat} {c : PipeCall}
    {result : Option Int} (hcalls : sys.calls = Function.update s.sys.calls id c)
    (hc : ∀ data done, c = .write data done → done = sent) : (s.note sys id sent result).Counts := by
  intro id' data done hcall
  simp only [Metered.note, hcalls] at hcall ⊢
  by_cases hid : id' = id
  · subst hid
    rw [Function.update_self] at hcall ⊢
    exact hc data done hcall
  · rw [Function.update_of_ne hid] at hcall ⊢
    exact h id' data done hcall

/-- Each step counts on. -/
theorem Counts.step (h : s.Counts) (hstep : s.step e = some s') : s'.Counts := by
  rcases step_cases hstep with ⟨hsent, -, -, hcalls⟩ | ⟨id, data, rfl, rfl⟩ |
    ⟨id, sigAbort, data, done, rfl, hcall, rfl⟩
  · intro id data done hcall
    rw [hsent]
    exact h id data done (hcalls id data done hcall)
  · refine h.note rfl fun data' done' heq => ?_
    cases heq
    rfl
  · have hdone := h id data done hcall
    rcases writePass_cases s.sys id data done sigAbort hcall with
      ⟨-, hsys, -⟩ | ⟨-, -, hsys, -⟩ | ⟨-, -, -, -, hcalls⟩
    · refine h.note (congrArg PipeSystem.calls hsys) fun data' done' heq => ?_
      cases heq
    · refine h.note (congrArg PipeSystem.calls hsys) fun data' done' heq => ?_
      cases heq
    · refine h.note hcalls fun data' done' heq => ?_
      rw [← hdone]
      exact (PipeCall.write.inj heq).2.symm

/-- The pass that returns reports correctly exactly if it is not cut short. -/
theorem reports_iff_uncut (hc : s.Counts) (hr : s.Reports) (hstep : s.step e = some s') :
    s'.Reports ↔ s.Uncut e := by
  rcases step_cases hstep with ⟨hsent, hresult, huncut, -⟩ | ⟨id, data, rfl, rfl⟩ |
    ⟨id, sigAbort, data, done, rfl, hcall, rfl⟩
  · refine iff_of_true ?_ huncut
    intro id r hid
    rw [hsent]
    exact hr id r (hresult ▸ hid)
  · refine iff_of_true ?_ trivial
    rw [reports_note hr]
    exact fun r h => absurd h.symm (some_ne_none r)
  · rw [reports_note hr]
    have hdone := hc id data done hcall
    simp only [Uncut, hcall, UncutPass]
    rcases writePass_cases s.sys id data done sigAbort hcall with
      ⟨hle, hsys, hres⟩ | ⟨hlt, hcut, hsys, hres⟩ | ⟨hlt, hrd, hsig, hres, -⟩
    · -- The call is complete, and the count is cast to `int`.
      rw [hsys, hres, ← hdone]
      simp only [PipeSystem.setCall, Nat.sub_self, Nat.add_zero, some.injEq,
        forall_eq', hle, true_imp_iff, Nat.not_lt.mpr hle, false_imp_iff, true_and]
      exact (fitsInt_iff done).symm
    · -- The call fails although it may have inserted bytes.
      rw [hsys, hres, ← hdone]
      simp only [PipeSystem.setCall, Nat.sub_self, Nat.add_zero, some.injEq,
        forall_eq', hlt, true_imp_iff, Nat.not_le.mpr hlt, false_imp_iff, and_true, hcut, or_false]
      exact ⟨fun h => h.2, fun h => ⟨fun hneg => absurd hneg (by decide), h⟩⟩
    · rw [hres]
      refine iff_of_true (fun r h => absurd h.symm (some_ne_none r)) ?_
      exact ⟨fun _ => Or.inr ⟨hrd, hsig⟩, fun hle => absurd hle (Nat.not_le.mpr hlt)⟩

theorem Start.counts (h : s.Start) : s.Counts := by
  intro id data done hcall
  rw [h.idle id] at hcall
  cases hcall

theorem Start.reports (h : s.Start) : s.Reports := by
  intro id r hr
  rw [h.result id] at hr
  cases hr

/-- From any state of the pipe and under every interleaving, the calls of
`pipe_write` report what they inserted after each event of a run exactly if
none of their passes is cut short. -/
theorem pipe_write_reports_iff {es : List PipeEvent} (hstart : s.Start)
    (hrun : Run.run step s es = some s') :
    Run.Along step (fun s e => ∀ s', s.step e = some s' → s'.Reports) s es ↔
      Run.Along step Uncut s es := by
  refine Run.along_congr (I := fun s => s.Counts ∧ s.Reports) ?_ ?_
    ⟨hstart.counts, hstart.reports⟩ hrun
  · rintro s e s' ⟨hc, -⟩ hreports hstep
    exact ⟨hc.step hstep, hreports s' hstep⟩
  · rintro s e s' ⟨hc, hr⟩ hstep
    rw [← reports_iff_uncut hc hr hstep]
    constructor
    · exact fun hall => hall s' hstep
    · intro hs' s₁ h₁
      obtain rfl := Option.some.inj (hstep.symm.trans h₁)
      exact hs'

/-- A new pipe without calls. -/
def fresh : Metered := ⟨PipeSystem.init, fun _ => 0, fun _ => none⟩

theorem fresh_start : fresh.Start := ⟨fun _ => rfl, fun _ => rfl⟩

/-- A call inserts three bytes, returns three, and a signal comes too late. -/
theorem pipe_write_reports_three : ∃ s',
    Run.run step fresh [.callWrite 0 [1, 2, 3], .pass 0 false, .pass 0 true] = some s' ∧
    s'.result 0 = some 3 ∧
    Run.Along step (fun s e => ∀ s', s.step e = some s' → s'.Reports) fresh
      [.callWrite 0 [1, 2, 3], .pass 0 false, .pass 0 true] := by
  have hrun : ∃ s', Run.runIf step Uncut fresh
      [.callWrite 0 [1, 2, 3], .pass 0 false, .pass 0 true] = some s' ∧ s'.result 0 = some 3 := by
    decide +kernel
  obtain ⟨s', hrun, hres⟩ := hrun
  obtain ⟨huncut, hrun⟩ := Run.runIf_eq_some hrun
  exact ⟨s', hrun, hres, (pipe_write_reports_iff fresh_start hrun).mpr huncut⟩

/-- A call of 300 bytes fills the pipe and blocks; then the readers go away and
it returns -1, with 256 bytes inserted. -/
theorem pipe_write_hides_bytes : ∃ s',
    Run.run step fresh [.callWrite 0 (List.replicate 300 7), .pass 0 false, .pass 0 false,
      .setEnds 0 1, .pass 0 false] = some s' ∧ s'.result 0 = some (-1) ∧ s'.sent 0 = 256 := by
  decide +kernel

end Metered

end Mmix.Fs
