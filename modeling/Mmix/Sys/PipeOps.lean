import Mmix.Sys.PipeCount

/-!
# The kernel functions that change descriptors of pipes

Closing, duplicating and inheriting descriptors and making a pipe keep the
counters and the descriptor tables in agreement.
-/

namespace Mmix.Sys

open Mm Fs Proc Kernel Tally Function Option

variable {k : Kernel}

/-- What `pipe_unref` makes of a pipe. -/
def unrefed (rd wr : Int) : Option Pipe → Option Pipe
  | none => none
  | some q =>
    if q.readers - rd ≤ 0 ∧ q.writers - wr ≤ 0 then none else some (pipeDrop q rd wr)

theorem counters_unrefed {q : Pipe} {rd wr : Int} (hr : rd ≤ q.readers) (hw : wr ≤ q.writers) :
    counters (unrefed rd wr (some q)) = (q.readers - rd, q.writers - wr) := by
  unfold unrefed
  by_cases hz : q.readers - rd ≤ 0 ∧ q.writers - wr ≤ 0
  · simp only [if_pos hz]
    exact Prod.ext (by simp only [counters]; omega) (by simp only [counters]; omega)
  · simp only [if_neg hz]
    rfl

theorem unrefed_used {q q' : Pipe} {rd wr : Int} (hr : rd ≤ q.readers) (hw : wr ≤ q.writers)
    (hq : unrefed rd wr (some q) = some q') : 0 < q'.readers + q'.writers := by
  simp only [unrefed] at hq
  split at hq
  · cases hq
  · cases hq
    simp only [pipeDrop]
    omega

theorem pipeUnref_pipes (p : Nat) (rd wr : Int) :
    (pipeUnref k p rd wr).pipes = update k.pipes p (unrefed rd wr (k.pipes p)) := by
  unfold pipeUnref
  split
  next hp => rw [hp, unrefed, ← hp, update_eq_self]
  next q hp =>
    rw [hp]
    dsimp only
    by_cases hz : (pipeDrop q rd wr).readers ≤ 0 ∧ (pipeDrop q rd wr).writers ≤ 0
    · rw [if_pos hz]
      simp only [Kernel.setPipe, pipeWake, update_idem, unrefed]
      rw [if_pos (show q.readers - rd ≤ 0 ∧ q.writers - wr ≤ 0 from hz)]
    · rw [if_neg hz]
      simp only [Kernel.setPipe, pipeWake, unrefed]
      rw [if_neg (show ¬ (q.readers - rd ≤ 0 ∧ q.writers - wr ≤ 0) from hz)]

theorem files_fdPut (i : Slot) (fd : Fd) :
    files (fdPut k i fd) =
      update (files k) i (update (files k i) fd File.zero) := by
  funext j
  by_cases hj : j = i
  · subst hj
    rw [update_self]
    exact fdPut_fds j fd
  · rw [update_of_ne hj]
    exact fdPut_fds_of_ne fd hj

theorem Counted.fdPut (h : Counted (files k) k.pipes) (i : Slot) (fd : Fd) :
    Counted (files (fdPut k i fd)) (fdPut k i fd).pipes := by
  rw [files_fdPut]
  cases hf : (files k i fd).pipe with
  | none =>
    have hpipes : (Sys.fdPut k i fd).pipes = k.pipes := by
      unfold Sys.fdPut
      dsimp only
      rw [show ((k.tasks i).fds fd).pipe = none from hf]
      rfl
    rw [hpipes]
    exact h.setFile hf.symm fun hne => absurd rfl hne
  | some p =>
    have hpipes : (Sys.fdPut k i fd).pipes = update k.pipes p
        (unrefed (files k i fd).rd (files k i fd).wr (k.pipes p)) := by
      unfold Sys.fdPut
      dsimp only
      rw [show ((k.tasks i).fds fd).pipe = some p from hf]
      exact pipeUnref_pipes p _ _
    rw [hpipes]
    obtain ⟨q, hq⟩ := h.live hf
    have hexact := h.exact p
    rw [hq] at hexact ⊢
    obtain ⟨hr, hw⟩ := Prod.mk.inj hexact
    have hrd := held_le_ends rd_nonneg hf
    have hwr := held_le_ends wr_nonneg hf
    have hcount := counters_unrefed (q := q) (hr ▸ hrd) (hw ▸ hwr)
    refine h.setFd (Or.inr hf) (Or.inl rfl) (fun hne => absurd rfl hne) ?_ ?_
      fun q' hq' => unrefed_used (q := q) (hr ▸ hrd) (hw ▸ hwr) hq'
    · rw [hcount, hq, held_self hf, held_none rfl]
      exact (Int.add_zero _).symm
    · rw [hcount, hq, held_self hf, held_none rfl]
      exact (Int.add_zero _).symm

theorem Counted.fdsRelease (h : Counted (files k) k.pipes) (i : Slot) :
    Counted (files (fdsRelease k i)) (fdsRelease k i).pipes := by
  have key (fds : List Fd) : ∀ k, Counted (files k) k.pipes →
      Counted (files (fds.foldl (fun k fd => Sys.fdPut k i fd) k))
        (fds.foldl (fun k fd => Sys.fdPut k i fd) k).pipes := by
    induction fds with
    | nil => exact fun _ h => h
    | cons fd fds ih => exact fun k h => ih _ (h.fdPut i fd)
  exact key _ k h

/-- `fds_release` clears the whole table. -/
theorem fdsRelease_noPipes (i : Slot) : NoPipes ((fdsRelease k i).tasks i) := by
  have key (fds : List Fd) : ∀ k fd, (fd ∈ fds ∨ ((k.tasks i).fds fd).pipe = none) →
      (((fds.foldl (fun k fd => fdPut k i fd) k).tasks i).fds fd).pipe = none := by
    induction fds with
    | nil =>
      intro k fd hfd
      exact hfd.resolve_left List.not_mem_nil
    | cons fd' fds ih =>
      intro k fd hfd
      refine ih _ fd ?_
      rw [fdPut_fds]
      by_cases he : fd = fd'
      · subst he
        rw [update_self]
        exact Or.inr rfl
      · rw [update_of_ne he]
        exact hfd.imp_left fun hmem => (List.mem_cons.mp hmem).resolve_left he
  exact fun fd => key _ k fd (Or.inl (List.mem_finRange fd))

theorem fdsRelease_fds_of_ne {i j : Slot} (hj : j ≠ i) :
    ((fdsRelease k i).tasks j).fds = (k.tasks j).fds := by
  have key (fds : List Fd) : ∀ k, ((fds.foldl (fun k fd => fdPut k i fd) k).tasks j).fds =
      (k.tasks j).fds := by
    induction fds with
    | nil => exact fun _ => rfl
    | cons fd fds ih => exact fun k => (ih _).trans (fdPut_fds_of_ne fd hj)
  exact key _ k

theorem files_modTask (i : Slot) (fds : Fd → File) {f : Task → Task}
    (hf : (f (k.tasks i)).fds = fds) :
    files (k.modTask i f) = update (files k) i fds := by
  funext j
  by_cases hj : j = i
  · subst hj
    rw [update_self, ← hf]
    exact congrArg Task.fds (update_self ..)
  · rw [update_of_ne hj]
    exact congrArg Task.fds (update_of_ne hj ..)

/-- A descriptor copied into a free place, with the reference it needs. -/
theorem Counted.share {fs : Files} {pipes : Nat → Option Pipe} (h : Counted fs pipes) {i : Slot}
    {old new : Fd} {p : Nat} {q : Pipe} (hnew : (fs i new).pipe = none)
    (hold : (fs i old).pipe = some p) (hq : pipes p = some q) :
    Counted (update fs i (update (fs i) new (fs i old)))
      (update pipes p (some (pipeRef q (fs i old).rd (fs i old).wr))) := by
  have hu := h.used p q hq
  have hended := h.ended i old (by rw [hold]; simp)
  refine h.setFd (Or.inl hnew) (Or.inr hold) (fun _ => hended) ?_ ?_ ?_
  · rw [hq, held_none hnew, held_self hold]
    simp only [counters, pipeRef]
    omega
  · rw [hq, held_none hnew, held_self hold]
    simp only [counters, pipeRef]
    omega
  · intro q' hq'
    cases hq'
    simp only [pipeRef]
    omega

theorem Counted.shareFd (h : Counted (files k) k.pipes) {old new : Fd}
    (hnew : (k.cur.fds new).pipe = none) :
    Counted (files (shareFd k new (k.cur.fds old))) (shareFd k new (k.cur.fds old)).pipes := by
  have hfiles : files (Sys.shareFd k new (k.cur.fds old)) = update (files k) k.current
      (update (files k k.current) new (files k k.current old)) := by
    refine Eq.trans ?_ (files_modTask (f := fun t => t.setFd new (k.cur.fds old)) k.current _ rfl)
    exact funext fun i => congrArg (fun ts : Slot → Task => (ts i).fds) (fdRef_tasks _)
  rw [hfiles]
  unfold Sys.shareFd
  cases hf : (k.cur.fds old).pipe with
  | none =>
    have hpipes : (fdRef (k.modCur fun t => t.setFd new (k.cur.fds old)) (k.cur.fds old)).pipes =
        k.pipes := by
      unfold fdRef
      rw [hf]
      rfl
    rw [hpipes]
    exact h.setFile (hf.trans hnew.symm) fun hne => absurd hf hne
  | some p =>
    obtain ⟨q, hq⟩ := h.live (show (files k k.current old).pipe = some p from hf)
    have hpipes : (fdRef (k.modCur fun t => t.setFd new (k.cur.fds old)) (k.cur.fds old)).pipes =
        update k.pipes p (some (pipeRef q (k.cur.fds old).rd (k.cur.fds old).wr)) := by
      unfold fdRef pipeAddRef
      rw [hf]
      dsimp only
      rw [show (k.modCur fun t => t.setFd new (k.cur.fds old)).pipes p = some q from hq]
      rfl
    rw [hpipes]
    exact h.share hnew hf hq

theorem readEnd_rd (p : Nat) : (pipeEnd p fdfPipeRd).rd = 1 :=
  if_pos (show (fdfPipeRd &&& fdfPipeRd != 0) = true by decide)

theorem readEnd_wr (p : Nat) : (pipeEnd p fdfPipeRd).wr = 0 :=
  if_neg (show ¬ (fdfPipeRd &&& fdfPipeWr != 0) = true by decide)

theorem writeEnd_rd (p : Nat) : (pipeEnd p fdfPipeWr).rd = 0 :=
  if_neg (show ¬ (fdfPipeWr &&& fdfPipeRd != 0) = true by decide)

theorem writeEnd_wr (p : Nat) : (pipeEnd p fdfPipeWr).wr = 1 :=
  if_pos (show (fdfPipeWr &&& fdfPipeWr != 0) = true by decide)

/-- The two ends of a new pipe. -/
theorem Counted.create {fs : Files} {pipes : Nat → Option Pipe} (h : Counted fs pipes) {i : Slot}
    {rd wr : Fd} {p : Nat} (hp : pipes p = none) (hne : rd ≠ wr) (hrd : (fs i rd).pipe = none)
    (hwr : (fs i wr).pipe = none) :
    Counted (update fs i (update
      (update (fs i) rd (pipeEnd p fdfPipeRd)) wr (pipeEnd p fdfPipeWr)))
      (update pipes p (some pipeCreate)) := by
  -- First the read end alone, as if the pipe had no writer yet.
  have hfirst : Counted
      (update fs i (update (fs i) rd (pipeEnd p fdfPipeRd)))
      (update pipes p (some { pipeCreate with writers := 0 })) := by
    refine h.setFd (Or.inl hrd) (Or.inr rfl) (fun _ => ?_) ?_ ?_ ?_
    · rw [readEnd_rd, readEnd_wr]
      decide
    · rw [hp, held_none hrd, held_self rfl, readEnd_rd]
      rfl
    · rw [hp, held_none hrd, held_self rfl, readEnd_wr]
      rfl
    · intro q hq
      cases hq
      exact Int.one_pos
  have hwr' : (update fs i (update (fs i) rd (pipeEnd p fdfPipeRd)) i wr).pipe =
      none := by
    rw [update_self, update_of_ne hne.symm]
    exact hwr
  have hsecond : Counted (update
      (update fs i (update (fs i) rd (pipeEnd p fdfPipeRd))) i
      (update (update fs i (update (fs i) rd (pipeEnd p fdfPipeRd)) i)
        wr (pipeEnd p fdfPipeWr)))
      (update (update pipes p (some { pipeCreate with writers := 0 })) p
        (some pipeCreate)) := by
    refine hfirst.setFd (Or.inl hwr') (Or.inr rfl) (fun _ => ?_) ?_ ?_ ?_
    · rw [writeEnd_rd, writeEnd_wr]
      decide
    · rw [update_self, held_none hwr', held_self rfl, writeEnd_rd]
      rfl
    · rw [update_self, held_none hwr', held_self rfl, writeEnd_wr]
      rfl
    · intro q hq
      cases hq
      decide
  rwa [update_idem, update_idem, update_self] at hsecond

theorem Counted.installPipe (h : Counted (files k) k.pipes) {p : Nat} {rd wr : Fd}
    (hp : k.pipes p = none) (hne : rd ≠ wr) (hrd : (k.cur.fds rd).pipe = none)
    (hwr : (k.cur.fds wr).pipe = none) :
    Counted (files (installPipe k p rd wr)) (installPipe k p rd wr).pipes := by
  have hfiles : files (Sys.installPipe k p rd wr) = update (files k) k.current
      (update (update (files k k.current) rd (pipeEnd p fdfPipeRd)) wr
        (pipeEnd p fdfPipeWr)) :=
    files_modTask (k := k.setPipe p (some pipeCreate)) (f := fun t =>
      (t.setFd rd (pipeEnd p fdfPipeRd)).setFd wr (pipeEnd p fdfPipeWr)) k.current _ rfl
  rw [hfiles]
  exact h.create hp hne hrd hwr

/-- The references that one descriptor adds. -/
theorem fdRef_pipes (f : File) (p : Nat) :
    (fdRef k f).pipes p =
      (k.pipes p).map fun q => pipeRef q (held File.rd p f) (held File.wr p f) := by
  have hsame : k.pipes p = (k.pipes p).map fun q => pipeRef q 0 0 := by
    have hid : (fun q : Pipe => pipeRef q 0 0) = id := by
      funext q
      simp [pipeRef]
    rw [hid, map_id_fun, id]
  cases hf : f.pipe with
  | none =>
    rw [held_none hf, held_none hf, ← hsame]
    unfold fdRef
    rw [hf]
  | some p' =>
    unfold fdRef pipeAddRef
    rw [hf]
    dsimp only
    by_cases hp : p' = p
    · subst hp
      rw [held_self hf, held_self hf]
      cases hq : k.pipes p' with
      | none => simp only [hq, map_none]
      | some q => simp only [Kernel.setPipe, update_self, map_some]
    · rw [held_of_ne hf hp, held_of_ne hf hp, ← hsame]
      cases hq : k.pipes p' with
      | none => rfl
      | some q => simp only [Kernel.setPipe, update_of_ne (Ne.symm hp)]

/-- The references that `sys_fork` adds for a copied table. -/
theorem addFdRefs_pipes (fds : Fd → File) (p : Nat) :
    (addFdRefs k fds).pipes p = (k.pipes p).map fun q =>
      pipeRef q (tableEnds File.rd p fds) (tableEnds File.wr p fds) := by
  have key (l : List Fd) : ∀ k : Kernel, (l.foldl (fun k fd => fdRef k (fds fd)) k).pipes p =
      (k.pipes p).map fun q => pipeRef q (l.map fun fd => held File.rd p (fds fd)).sum
        (l.map fun fd => held File.wr p (fds fd)).sum := by
    induction l with
    | nil =>
      intro k
      rw [List.foldl_nil]
      cases k.pipes p with
      | none => rfl
      | some q => simp [pipeRef]
    | cons fd l ih =>
      intro k
      rw [List.foldl_cons, ih, fdRef_pipes, map_map]
      congr 1
      funext q
      simp [pipeRef, Int.add_assoc]
  unfold addFdRefs tableEnds
  rw [key, tally_fin, tally_fin]

theorem addFdRefs_tasks (fds : Fd → File) : (addFdRefs k fds).tasks = k.tasks := by
  have key (l : List Fd) : ∀ k : Kernel,
      (l.foldl (fun k fd => fdRef k (fds fd)) k).tasks = k.tasks := by
    induction l with
    | nil => exact fun _ => rfl
    | cons fd l ih => exact fun k => (ih _).trans (fdRef_tasks _)
  exact key _ k

/-- A child gets a copy of the table of its parent, fully counted. -/
theorem Counted.forkInherit (h : Counted (files k) k.pipes) {i : Slot}
    (hfds : NoPipes (k.tasks i)) :
    Counted (files (forkInherit k i)) (forkInherit k i).pipes := by
  have hfiles : files (Sys.forkInherit k i) =
      update (files k) i (files k k.current) := by
    refine Eq.trans ?_ (files_modTask (f := fun t => { t with
      fds := k.cur.fds
      brkBase := k.cur.brkBase
      brkCur := k.cur.brkCur
      mmapTop := k.cur.mmapTop }) i _ rfl)
    exact funext fun j => congrArg (fun ts : Slot → Task => (ts j).fds) (addFdRefs_tasks _)
  have hpipes (p : Nat) : (Sys.forkInherit k i).pipes p = (k.pipes p).map fun q =>
      pipeRef q (tableEnds File.rd p (files k k.current))
        (tableEnds File.wr p (files k k.current)) := addFdRefs_pipes _ p
  have hends (side : File → Int) (p : Nat) :
      ends side p (update (files k) i (files k k.current)) =
        ends side p (files k) + tableEnds side p (files k k.current) := by
    have hzero : tableEnds side p (files k i) = 0 := tableEnds_noPipes hfds
    rw [ends_update, hzero]
    omega
  rw [hfiles]
  refine ⟨fun p => ?_, fun p q' hq' => ?_, fun j fd hf => ?_⟩
  · rw [hends, hends, hpipes]
    have he := h.exact p
    cases hq : k.pipes p with
    | none =>
      -- Nobody refers to the pipe, so the parent does not either.
      have hnone (side : File → Int) : tableEnds side p (files k k.current) = 0 := by
        refine tally_eq_zero fun fd => ?_
        cases hf : (files k k.current fd).pipe with
        | none => exact held_none hf
        | some p' =>
          refine held_of_ne hf ?_
          rintro rfl
          obtain ⟨q, hq'⟩ := h.live hf
          rw [hq] at hq'
          cases hq'
      rw [hnone, hnone, ← hq, Int.add_zero, Int.add_zero, ← he, hq]
      rfl
    | some q =>
      rw [hq] at he
      obtain ⟨hr, hw⟩ := Prod.mk.inj he
      exact Prod.ext (by simp only [counters, map_some, pipeRef, hr])
        (by simp only [counters, map_some, pipeRef, hw])
  · rw [hpipes] at hq'
    obtain ⟨q, hq, rfl⟩ := map_eq_some_iff.mp hq'
    have := h.used p q hq
    have h1 := tableEnds_nonneg (p := p) rd_nonneg (files k k.current)
    have h2 := tableEnds_nonneg (p := p) wr_nonneg (files k k.current)
    simp only [pipeRef]
    omega
  · by_cases hj : j = i
    · subst hj
      rw [update_self] at hf ⊢
      exact h.ended k.current fd hf
    · rw [update_of_ne hj] at hf ⊢
      exact h.ended j fd hf

end Mmix.Sys
