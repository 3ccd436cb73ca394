import Mmix.Lib.Ring
import Mmix.Lib.Run

/-!
# Pipes

The ring buffer of `pipe.c` and the loop bodies of `pipe_read` and
`pipe_write`. Each pass through a loop either ends the call, goes on, or parks
the caller, which comes back to the top of the loop after `sched_yield`. The
wake-ups and the change of the caller's run state belong to the scheduler.
-/

namespace Mmix.Fs

/-- `sizeof(p->buf)`. -/
abbrev pipeSize : Nat := 256

/-- `struct pipe`. -/
structure Pipe extends Ring UInt8 where
  readers : Int
  writers : Int

/-- The contents of the block after `pipe_create`. -/
def pipeCreate : Pipe where
  buf := fun _ => 0
  head := 0
  tail := 0
  len := 0
  readers := 1
  writers := 1

/-- The cast of a count to `int` when a call returns it. -/
def intOf (count : Nat) : Int := (BitVec.ofNat 32 count).toInt

/-- `pipe_ref`. -/
def pipeRef (p : Pipe) (rd wr : Int) : Pipe :=
  { p with readers := p.readers + rd, writers := p.writers + wr }

/-- The count update of `pipe_unref`. -/
def pipeDrop (p : Pipe) (rd wr : Int) : Pipe :=
  { p with readers := p.readers - rd, writers := p.writers - wr }

/-- The copy loop of `pipe_read`. -/
def pipeCopyOut : Nat → Pipe → List UInt8 × Pipe
  | 0, p => ([], p)
  | got + 1, p =>
    match pipeCopyOut got { p with tail := (p.tail + 1) % pipeSize } with
    | (bytes, p') => (p.buf p.tail :: bytes, p')

/-- The inner loop of `pipe_write`: how many bytes were copied. -/
def pipeCopyIn : List UInt8 → Pipe → Nat × Pipe
  | [], p => (0, p)
  | byte :: rest, p =>
    if p.len < pipeSize then
      match pipeCopyIn rest { p with toRing := p.push pipeSize byte } with
      | (count, p) => (count + 1, p)
    else (0, p)

/-- How one pass through the loop of `pipe_read` ends. -/
inductive ReadStep where
  | data (bytes : List UInt8)
  | eof
  | abort
  | park
  deriving DecidableEq, Repr

/-- One pass through the loop of `pipe_read`; `sigAbort` is the value of
`sig_abort` for the caller. -/
def pipeReadStep (p : Pipe) (n : Nat) (sigAbort : Bool) : ReadStep × Pipe :=
  if 0 < p.len then
    let got := if n < p.len then n else p.len
    match pipeCopyOut got p with
    | (bytes, p) => (.data bytes, { p with len := p.len - got })
  else if p.writers = 0 then (.eof, p)
  else if sigAbort then (.abort, p)
  else (.park, p)

/-- How one pass through the loop of `pipe_write` ends. -/
inductive WriteStep where
  | finished
  | epipe
  | abort
  | copied (count : Nat)
  | park
  deriving DecidableEq, Repr

/-- One pass through the loop of `pipe_write` with the bytes that are left. -/
def pipeWriteStep (p : Pipe) (rest : List UInt8) (sigAbort : Bool) : WriteStep × Pipe :=
  if rest = [] then (.finished, p)
  else if p.readers = 0 then (.epipe, p)
  else if sigAbort then (.abort, p)
  else if p.len < pipeSize then
    match pipeCopyIn rest p with
    | (count, p) => (.copied count, p)
  else (.park, p)

section Spec

variable {p : Pipe}

/-- The copy loop of `pipe_read` delivers the oldest bytes and moves `tail`. -/
theorem pipeCopyOut_eq (got : Nat) (h : p.tail < pipeSize) :
    pipeCopyOut got p =
      ((List.range got).map fun i => p.buf ((p.tail + i) % pipeSize),
        { p with tail := (p.tail + got) % pipeSize }) := by
  induction got generalizing p with
  | zero =>
    simp only [pipeCopyOut, List.range_zero, List.map_nil, Nat.add_zero]
    rw [Nat.mod_eq_of_lt h]
  | succ got ih =>
    have hrec := @ih { p with tail := (p.tail + 1) % pipeSize } (Nat.mod_lt _ (by decide))
    simp only [pipeCopyOut, hrec, Nat.mod_add_mod, List.range_succ_eq_map, List.map_cons,
      List.map_map, Nat.add_zero, Nat.mod_eq_of_lt h]
    have hadd : ∀ i, p.tail + 1 + i = p.tail + (i + 1) := fun i => by omega
    simp only [hadd]
    rfl

theorem pipeCreate_valid : pipeCreate.Valid pipeSize :=
  ⟨by decide, by decide, by decide, by decide⟩

/-- The inner loop of `pipe_write` appends a front segment of its bytes, and
stops early only when the buffer is full. -/
theorem pipeCopyIn_spec (rest : List UInt8) (h : p.Valid pipeSize) :
    (pipeCopyIn rest p).2.Valid pipeSize ∧
      (pipeCopyIn rest p).1 ≤ rest.length ∧
      (pipeCopyIn rest p).2.contents pipeSize =
        p.contents pipeSize ++ rest.take (pipeCopyIn rest p).1 ∧
      ((pipeCopyIn rest p).1 < rest.length → (pipeCopyIn rest p).2.len = pipeSize) ∧
      (pipeCopyIn rest p).2.readers = p.readers ∧ (pipeCopyIn rest p).2.writers = p.writers := by
  induction rest generalizing p with
  | nil => simp [pipeCopyIn, h]
  | cons byte rest ih =>
    unfold pipeCopyIn
    by_cases hlen : p.len < pipeSize
    · obtain ⟨hv, hle, hc, hfull, hrd, hwr⟩ :=
        @ih { p with toRing := p.push pipeSize byte } (h.push hlen byte)
      rw [if_pos hlen]
      refine ⟨hv, Nat.succ_le_succ hle, ?_, ?_, hrd, hwr⟩
      · rw [hc, Ring.contents_push h hlen]
        simp
      · intro hlt
        exact hfull (Nat.lt_of_succ_lt_succ hlt)
    · rw [if_neg hlen]
      have hfull : p.len = pipeSize := Nat.le_antisymm h.len_le (Nat.le_of_not_lt hlen)
      exact ⟨h, Nat.zero_le _, by simp, fun _ => hfull, rfl, rfl⟩

/-- The bytes a pass of `pipe_read` delivers. -/
def ReadStep.bytes : ReadStep → List UInt8
  | .data bytes => bytes
  | _ => []

/-- The bytes a pass of `pipe_write` inserts. -/
def WriteStep.bytes (rest : List UInt8) : WriteStep → List UInt8
  | .copied count => rest.take count
  | _ => []

/-- A pass of `pipe_read` removes the bytes it delivers from the front. -/
theorem pipeReadStep_fifo (h : p.Valid pipeSize) (n : Nat) (sigAbort : Bool) :
    (pipeReadStep p n sigAbort).2.Valid pipeSize ∧
      p.contents pipeSize = (pipeReadStep p n sigAbort).1.bytes ++
        (pipeReadStep p n sigAbort).2.contents pipeSize := by
  unfold pipeReadStep
  by_cases hlen : 0 < p.len
  · rw [if_pos hlen]
    have hgot : (if n < p.len then n else p.len) ≤ p.len := by
      by_cases hn : n < p.len
      · rw [if_pos hn]
        exact hn.le
      · rw [if_neg hn]
    generalize (if n < p.len then n else p.len) = got at hgot
    simp only [pipeCopyOut_eq got h.tail_lt]
    exact ⟨h.drop hgot, Ring.contents_drop p.toRing hgot⟩
  · rw [if_neg hlen]
    split
    · exact ⟨h, rfl⟩
    · cases sigAbort
      · exact ⟨h, rfl⟩
      · exact ⟨h, rfl⟩

/-- A pass of `pipe_write` appends the bytes it inserts at the end. -/
theorem pipeWriteStep_fifo (h : p.Valid pipeSize) (rest : List UInt8) (sigAbort : Bool) :
    (pipeWriteStep p rest sigAbort).2.Valid pipeSize ∧
      (pipeWriteStep p rest sigAbort).2.contents pipeSize =
        p.contents pipeSize ++ (pipeWriteStep p rest sigAbort).1.bytes rest := by
  have hsame : p.Valid pipeSize ∧ p.contents pipeSize = p.contents pipeSize ++ [] :=
    ⟨h, (List.append_nil _).symm⟩
  unfold pipeWriteStep
  by_cases hrest : rest = []
  · rw [if_pos hrest]
    exact hsame
  rw [if_neg hrest]
  by_cases hrd : p.readers = 0
  · rw [if_pos hrd]
    exact hsame
  rw [if_neg hrd]
  cases sigAbort with
  | true => exact hsame
  | false =>
    rw [if_neg (by decide)]
    by_cases hlen : p.len < pipeSize
    · rw [if_pos hlen]
      obtain ⟨hv, -, hc, -⟩ := pipeCopyIn_spec rest h
      exact ⟨hv, hc⟩
    · rw [if_neg hlen]
      exact hsame

theorem pipeCopyOut_ends (got : Nat) : (pipeCopyOut got p).2.readers = p.readers ∧
    (pipeCopyOut got p).2.writers = p.writers := by
  induction got generalizing p with
  | zero => exact ⟨rfl, rfl⟩
  | succ got ih => exact @ih { p with tail := (p.tail + 1) % pipeSize }

/-- The inner loop of `pipe_write` inserts as many bytes as it counts. -/
theorem pipeCopyIn_count (rest : List UInt8) :
    (pipeCopyIn rest p).2.len = p.len + (pipeCopyIn rest p).1 ∧
      (pipeCopyIn rest p).1 ≤ rest.length := by
  induction rest generalizing p with
  | nil => exact ⟨rfl, Nat.le_refl _⟩
  | cons byte rest ih =>
    unfold pipeCopyIn
    split
    · obtain ⟨hlen, hle⟩ := @ih { p with toRing := p.push pipeSize byte }
      refine ⟨hlen.trans ?_, Nat.succ_le_succ hle⟩
      simp only [Ring.push]
      omega
    · exact ⟨rfl, Nat.zero_le _⟩

theorem pipeCopyIn_ends (rest : List UInt8) : (pipeCopyIn rest p).2.readers = p.readers ∧
    (pipeCopyIn rest p).2.writers = p.writers := by
  induction rest generalizing p with
  | nil => exact ⟨rfl, rfl⟩
  | cons byte rest ih =>
    unfold pipeCopyIn
    split
    · exact @ih { p with toRing := p.push pipeSize byte }
    · exact ⟨rfl, rfl⟩

/-- A pass of `pipe_read` leaves the end counts alone. -/
theorem pipeReadStep_ends (n : Nat) (sigAbort : Bool) :
    (pipeReadStep p n sigAbort).2.readers = p.readers ∧
      (pipeReadStep p n sigAbort).2.writers = p.writers := by
  unfold pipeReadStep
  split
  · exact pipeCopyOut_ends _
  · split
    · exact ⟨rfl, rfl⟩
    · split <;> exact ⟨rfl, rfl⟩

/-- A pass of `pipe_write` leaves the end counts alone. -/
theorem pipeWriteStep_ends (rest : List UInt8) (sigAbort : Bool) :
    (pipeWriteStep p rest sigAbort).2.readers = p.readers ∧
      (pipeWriteStep p rest sigAbort).2.writers = p.writers := by
  unfold pipeWriteStep
  split
  · exact ⟨rfl, rfl⟩
  · split
    · exact ⟨rfl, rfl⟩
    · split
      · exact ⟨rfl, rfl⟩
      · split
        · exact pipeCopyIn_ends rest
        · exact ⟨rfl, rfl⟩

/-- A reader parks only on an empty pipe with a writer, without a signal. -/
theorem pipeReadStep_park {n : Nat} {sigAbort : Bool}
    (h : (pipeReadStep p n sigAbort).1 = .park) :
    p.len = 0 ∧ p.writers ≠ 0 ∧ sigAbort = false := by
  unfold pipeReadStep at h
  split at h
  · cases h
  next hlen =>
    split at h
    · cases h
    next hw =>
      split at h
      · cases h
      next hs => exact ⟨Nat.eq_zero_of_not_pos hlen, hw, Bool.eq_false_of_not_eq_true hs⟩

/-- A writer parks only on a full pipe with a reader, without a signal. -/
theorem pipeWriteStep_park {rest : List UInt8} {sigAbort : Bool}
    (h : (pipeWriteStep p rest sigAbort).1 = .park) :
    ¬ p.len < pipeSize ∧ p.readers ≠ 0 ∧ sigAbort = false := by
  unfold pipeWriteStep at h
  split at h
  · cases h
  · split at h
    · cases h
    next hr =>
      split at h
      · cases h
      next hs =>
        split at h
        · cases h
        next hlen => exact ⟨hlen, hr, Bool.eq_false_of_not_eq_true hs⟩

end Spec

section Interleaving

/-- A call in progress on the pipe, at the top of its loop. -/
inductive PipeCall where
  | idle
  | read (n : Nat)
  | write (data : List UInt8) (done : Nat)
  deriving DecidableEq, Repr

/-- One pipe with any number of callers, and the bytes that have gone in and
out so far. -/
structure PipeSystem where
  pipe : Pipe
  calls : Nat → PipeCall
  inserted : List UInt8
  removed : List UInt8

/-- What can happen to the pipe: a caller enters `pipe_read` or `pipe_write`, a
caller makes one pass through its loop with or without a pending signal, or
other code changes the end counts. -/
inductive PipeEvent where
  | callRead (id n : Nat)
  | callWrite (id : Nat) (data : List UInt8)
  | pass (id : Nat) (sigAbort : Bool)
  | setEnds (readers writers : Int)
  deriving DecidableEq, Repr

namespace PipeSystem

def setCall (s : PipeSystem) (id : Nat) (c : PipeCall) : PipeSystem :=
  { s with calls := Function.update s.calls id c }

/-- One pass of a reader. -/
def readPass (s : PipeSystem) (id n : Nat) (sigAbort : Bool) : PipeSystem :=
  match pipeReadStep s.pipe n sigAbort with
  | (r, p) =>
    let s := { s with pipe := p, removed := s.removed ++ r.bytes }
    if r = .park then s else s.setCall id .idle

/-- One pass of a writer. -/
def writePass (s : PipeSystem) (id : Nat) (data : List UInt8) (done : Nat)
    (sigAbort : Bool) : PipeSystem :=
  match pipeWriteStep s.pipe (data.drop done) sigAbort with
  | (w, p) =>
    let s := { s with pipe := p, inserted := s.inserted ++ w.bytes (data.drop done) }
    match w with
    | .park => s
    | .copied count => s.setCall id (.write data (done + count))
    | _ => s.setCall id .idle

def step (s : PipeSystem) : PipeEvent → Option PipeSystem
  | .callRead id n => if s.calls id = .idle then some (s.setCall id (.read n)) else none
  | .callWrite id data =>
    if s.calls id = .idle then some (s.setCall id (.write data 0)) else none
  | .pass id sigAbort =>
    match s.calls id with
    | .idle => none
    | .read n => some (s.readPass id n sigAbort)
    | .write data done => some (s.writePass id data done sigAbort)
  | .setEnds readers writers =>
    some { s with pipe := { s.pipe with readers := readers, writers := writers } }

/-- A pipe just created, with no call in progress. -/
def init : PipeSystem where
  pipe := pipeCreate
  calls := fun _ => .idle
  inserted := []
  removed := []

/-- The buffered bytes are those inserted and not yet removed, in order. -/
structure Fifo (s : PipeSystem) : Prop where
  valid : s.pipe.Valid pipeSize
  order : s.removed ++ s.pipe.contents pipeSize = s.inserted

theorem fifo_readPass {s : PipeSystem} (h : s.Fifo) (id n : Nat) (sigAbort : Bool) :
    (s.readPass id n sigAbort).Fifo := by
  obtain ⟨hv, hc⟩ := pipeReadStep_fifo h.valid n sigAbort
  unfold readPass
  cases hstep : pipeReadStep s.pipe n sigAbort with
  | mk r p =>
    rw [hstep] at hv hc
    have horder : (s.removed ++ r.bytes) ++ p.contents pipeSize = s.inserted := by
      rw [List.append_assoc, ← hc, h.order]
    by_cases hpark : r = .park
    · simp only [hpark, if_true]
      exact ⟨hv, hpark ▸ horder⟩
    · simp only [hpark, if_false]
      exact ⟨hv, horder⟩

theorem fifo_writePass {s : PipeSystem} (h : s.Fifo) (id : Nat) (data : List UInt8)
    (done : Nat) (sigAbort : Bool) : (s.writePass id data done sigAbort).Fifo := by
  obtain ⟨hv, hc⟩ := pipeWriteStep_fifo h.valid (data.drop done) sigAbort
  unfold writePass
  cases hstep : pipeWriteStep s.pipe (data.drop done) sigAbort with
  | mk w p =>
    rw [hstep] at hv hc
    have horder : s.removed ++ p.contents pipeSize =
        s.inserted ++ w.bytes (data.drop done) := by
      rw [hc, ← List.append_assoc, h.order]
    cases w with
    | finished => exact ⟨hv, horder⟩
    | epipe => exact ⟨hv, horder⟩
    | abort => exact ⟨hv, horder⟩
    | copied count => exact ⟨hv, horder⟩
    | park => exact ⟨hv, horder⟩

/-- Every event keeps the order of the bytes. -/
theorem fifo_step (s : PipeSystem) (e : PipeEvent) (s' : PipeSystem) (h : s.Fifo)
    (hstep : s.step e = some s') : s'.Fifo := by
  cases e with
  | callRead id n =>
    obtain ⟨-, heq⟩ := Option.ite_none_right_eq_some.mp hstep
    cases heq
    exact ⟨h.valid, h.order⟩
  | callWrite id data =>
    obtain ⟨-, heq⟩ := Option.ite_none_right_eq_some.mp hstep
    cases heq
    exact ⟨h.valid, h.order⟩
  | pass id sigAbort =>
    simp only [step] at hstep
    cases hcall : s.calls id with
    | idle =>
      rw [hcall] at hstep
      cases hstep
    | read n =>
      rw [hcall] at hstep
      cases hstep
      exact fifo_readPass h id n sigAbort
    | write data done =>
      rw [hcall] at hstep
      cases hstep
      exact fifo_writePass h id data done sigAbort
  | setEnds readers writers =>
    cases hstep
    exact ⟨h.valid, h.order⟩

theorem fifo_init : init.Fifo := ⟨pipeCreate_valid, rfl⟩

/-- A pipe is a lossless FIFO under every interleaving of its readers and
writers, and its indices stay in range and agree. -/
theorem pipe_lossless {es : List PipeEvent} {s : PipeSystem}
    (hrun : Run.run step init es = some s) :
    s.removed ++ s.pipe.contents pipeSize = s.inserted ∧
      s.pipe.len ≤ 256 ∧ s.pipe.head < 256 ∧ s.pipe.tail < 256 ∧
      s.pipe.head = (s.pipe.tail + s.pipe.len) % 256 := by
  have h := Run.invariant fifo_step fifo_init hrun
  exact ⟨h.order, h.valid.len_le, h.valid.head_lt, h.valid.tail_lt, h.valid.head_eq⟩

/-- Two callers: three bytes go in, two come out. -/
theorem pipe_lossless_two_callers : ∃ s : PipeSystem,
    Run.run step init [.callRead 1 2, .pass 1 false, .callWrite 0 [1, 2, 3], .pass 0 false,
      .pass 1 false] = some s ∧
    s.removed = [1, 2] ∧ s.removed ++ s.pipe.contents pipeSize = s.inserted := by
  refine ⟨_, rfl, rfl, ?_⟩
  exact (@pipe_lossless [.callRead 1 2, .pass 1 false, .callWrite 0 [1, 2, 3], .pass 0 false,
    .pass 1 false] _ rfl).1

end PipeSystem

end Interleaving

end Mmix.Fs
