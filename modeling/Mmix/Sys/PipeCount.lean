import Mmix.Lib.Tally
import Mmix.Sys.Boot

/-!
# Reference counts of pipes

The counters of a pipe are a second record of what the descriptor tables say.
Here the two are compared: a table of descriptors and the pipes are in
agreement if each counter is the number of descriptors of its kind, every pipe
a descriptor refers to exists, and every pipe that exists is in use.
-/

namespace Mmix.Sys

open Mm Fs Proc Kernel Tally Function

/-- The descriptor tables of all slots. -/
abbrev Files := Slot → Fd → File

def files (k : Kernel) : Files := fun i => (k.tasks i).fds

/-- What one descriptor adds to a counter of a pipe. -/
def held (side : File → Int) (p : Nat) (f : File) : Int := if f.pipe = some p then side f else 0

/-- What one table adds to a counter of a pipe. -/
def tableEnds (side : File → Int) (p : Nat) (fds : Fd → File) : Int := tally (held side p) fds

/-- What all tables together add to a counter of a pipe. -/
def ends (side : File → Int) (p : Nat) (fs : Files) : Int := tally (tableEnds side p) fs

section Ends

variable {side : File → Int} {p : Nat}

theorem held_none {f : File} (h : f.pipe = none) : held side p f = 0 := by
  unfold held
  rw [h, if_neg (by simp)]

theorem held_self {f : File} (h : f.pipe = some p) : held side p f = side f := by
  unfold held
  rw [if_pos h]

theorem held_of_ne {f : File} {p' : Nat} (h : f.pipe = some p') (hne : p' ≠ p) :
    held side p f = 0 := by
  unfold held
  rw [h, if_neg (by simpa using hne)]

theorem held_nonneg (hs : ∀ f, 0 ≤ side f) (f : File) : 0 ≤ held side p f := by
  unfold held
  split
  · exact hs f
  · exact le_refl 0

theorem tableEnds_nonneg (hs : ∀ f, 0 ≤ side f) (fds : Fd → File) : 0 ≤ tableEnds side p fds :=
  tally_nonneg (held_nonneg hs) fds

theorem tableEnds_noPipes {fds : Fd → File} (h : ∀ fd, (fds fd).pipe = none) :
    tableEnds side p fds = 0 :=
  tally_eq_zero fun fd => held_none (h fd)

theorem ends_nonneg (hs : ∀ f, 0 ≤ side f) (fs : Files) : 0 ≤ ends side p fs :=
  tally_nonneg (tableEnds_nonneg hs) fs

/-- Replacing a whole table. -/
theorem ends_update (fs : Files) (i : Slot) (fds : Fd → File) :
    ends side p (update fs i fds) =
      ends side p fs - tableEnds side p (fs i) + tableEnds side p fds :=
  tally_update ..

/-- Replacing one descriptor. -/
theorem ends_setFd (fs : Files) (i : Slot) (fd : Fd) (f : File) :
    ends side p (update fs i (update (fs i) fd f)) =
      ends side p fs - held side p (fs i fd) + held side p f := by
  rw [ends_update]
  unfold tableEnds
  rw [tally_update]
  omega

/-- A counter of zero means that no descriptor counts. -/
theorem held_of_ends (hs : ∀ f, 0 ≤ side f) {fs : Files} (h : ends side p fs = 0) (i : Slot)
    (fd : Fd) : held side p (fs i fd) = 0 :=
  eq_zero_of_tally (held_nonneg hs) (eq_zero_of_tally (tableEnds_nonneg hs) h i) fd

/-- A counter is at least what one descriptor adds to it. -/
theorem held_le_ends (hs : ∀ f, 0 ≤ side f) {fs : Files} {i : Slot} {fd : Fd}
    (h : (fs i fd).pipe = some p) : side (fs i fd) ≤ ends side p fs := by
  have hn := ends_nonneg (p := p) hs
    (update fs i (update (fs i) fd File.zero))
  rw [ends_setFd, held_self h, held_none (show File.zero.pipe = none from rfl)] at hn
  omega

end Ends

/-- The counters of a pipe; one that does not exist counts nothing. -/
def counters : Option Pipe → Int × Int
  | none => (0, 0)
  | some q => (q.readers, q.writers)

/-- The counters of the pipes agree with the descriptor tables. -/
structure Counted (fs : Files) (pipes : Nat → Option Pipe) : Prop where
  exact : ∀ p, counters (pipes p) = (ends File.rd p fs, ends File.wr p fs)
  used : ∀ p q, pipes p = some q → 0 < q.readers + q.writers
  ended : ∀ i fd, (fs i fd).pipe ≠ none → 0 < (fs i fd).rd + (fs i fd).wr

namespace Counted

variable {fs : Files} {pipes pipes' : Nat → Option Pipe}

theorem counts (h : Counted fs pipes) {p : Nat} {q : Pipe} (hq : pipes p = some q) :
    q.readers = ends File.rd p fs ∧ q.writers = ends File.wr p fs := by
  have hexact := h.exact p
  rw [hq] at hexact
  exact Prod.mk.inj hexact

/-- No descriptor refers to a pipe that does not exist. -/
theorem live (h : Counted fs pipes) {i : Slot} {fd : Fd} {p : Nat} (hf : (fs i fd).pipe = some p) :
    ∃ q, pipes p = some q := by
  cases hp : pipes p with
  | some q => exact ⟨q, rfl⟩
  | none =>
    have hzero := h.exact p
    rw [hp] at hzero
    obtain ⟨hr, hw⟩ := Prod.mk.inj hzero
    have h1 := held_of_ends rd_nonneg hr.symm i fd
    have h2 := held_of_ends wr_nonneg hw.symm i fd
    rw [held_self hf] at h1 h2
    have := h.ended i fd (by rw [hf]; simp)
    omega

/-- A pipe exists exactly as long as some descriptor counts for it. -/
theorem none_iff (h : Counted fs pipes) (p : Nat) :
    pipes p = none ↔ ends File.rd p fs = 0 ∧ ends File.wr p fs = 0 := by
  have he := h.exact p
  cases hp : pipes p with
  | none =>
    rw [hp] at he
    obtain ⟨hr, hw⟩ := Prod.mk.inj he
    exact ⟨fun _ => ⟨hr.symm, hw.symm⟩, fun _ => rfl⟩
  | some q =>
    rw [hp] at he
    obtain ⟨hr, hw⟩ := Prod.mk.inj he
    have := h.used p q hp
    constructor
    · intro hnone
      cases hnone
    · rintro ⟨h1, h2⟩
      rw [hr, hw, h1, h2] at this
      exact absurd this (by decide)

/-- Only the counters of a pipe matter. -/
theorem setPipe (h : Counted fs pipes) {p : Nat} {q q' : Pipe} (hq : pipes p = some q)
    (hr : q'.readers = q.readers) (hw : q'.writers = q.writers) :
    Counted fs (update pipes p (some q')) := by
  refine ⟨fun p' => ?_, fun p' q₁ hq₁ => ?_, h.ended⟩
  · by_cases hp : p' = p
    · subst hp
      rw [update_self, ← h.exact p', hq]
      exact Prod.ext hr hw
    · rw [update_of_ne hp, h.exact p']
  · by_cases hp : p' = p
    · subst hp
      rw [update_self] at hq₁
      cases hq₁
      rw [hr, hw]
      exact h.used p' q hq
    · rw [update_of_ne hp] at hq₁
      exact h.used p' q₁ hq₁

/-- A property of all descriptors after one of them was replaced. -/
theorem forall_setFd {Q : File → Prop} {i : Slot} {fd : Fd} {f : File} (hf : Q f)
    (h : ∀ j fd', Q (fs j fd')) (j : Slot) (fd' : Fd) :
    Q (update fs i (update (fs i) fd f) j fd') := by
  by_cases hj : j = i
  · subst hj
    rw [update_self]
    by_cases hfd : fd' = fd
    · subst hfd
      rwa [update_self]
    · rw [update_of_ne hfd]
      exact h j fd'
  · rw [update_of_ne hj]
    exact h j fd'

/-- Replacing one descriptor, and one pipe whose counters follow it. -/
theorem setFd (h : Counted fs pipes) {i : Slot} {fd : Fd} {f : File} {p : Nat} {r : Option Pipe}
    (hold : (fs i fd).pipe = none ∨ (fs i fd).pipe = some p)
    (hnew : f.pipe = none ∨ f.pipe = some p) (hf : f.pipe ≠ none → 0 < f.rd + f.wr)
    (hr : (counters r).1 =
      (counters (pipes p)).1 - held File.rd p (fs i fd) + held File.rd p f)
    (hw : (counters r).2 =
      (counters (pipes p)).2 - held File.wr p (fs i fd) + held File.wr p f)
    (hused : ∀ q, r = some q → 0 < q.readers + q.writers) :
    Counted (update fs i (update (fs i) fd f)) (update pipes p r) := by
  have other {side : File → Int} {g : File} {p' : Nat} (hg : g.pipe = none ∨ g.pipe = some p)
      (hne : p' ≠ p) : held side p' g = 0 :=
    hg.elim held_none fun hg => held_of_ne hg hne.symm
  refine ⟨fun p' => ?_, fun p' q hq => ?_, ?_⟩
  · rw [ends_setFd, ends_setFd]
    by_cases hp : p' = p
    · subst hp
      have he := h.exact p'
      rw [update_self]
      rw [he] at hr hw
      exact Prod.ext hr hw
    · rw [update_of_ne hp, h.exact p', other hold hp, other hold hp, other hnew hp,
        other hnew hp]
      simp
  · by_cases hp : p' = p
    · subst hp
      rw [update_self] at hq
      exact hused q hq
    · rw [update_of_ne hp] at hq
      exact h.used p' q hq
  · exact forall_setFd (Q := fun g => g.pipe ≠ none → 0 < g.rd + g.wr) hf h.ended

/-- A descriptor may be replaced by one that counts for the same pipe. -/
theorem setFile (h : Counted fs pipes) {i : Slot} {fd : Fd} {f : File}
    (hpipe : f.pipe = (fs i fd).pipe) (hflags : f.pipe ≠ none → f.flags = (fs i fd).flags) :
    Counted (update fs i (update (fs i) fd f)) pipes := by
  have hrd (hne : f.pipe ≠ none) : f.rd = (fs i fd).rd := by
    unfold File.rd File.isRd
    rw [hflags hne]
  have hwr (hne : f.pipe ≠ none) : f.wr = (fs i fd).wr := by
    unfold File.wr File.isWr
    rw [hflags hne]
  have key (p : Nat) (hp : f.pipe = none ∨ f.pipe = some p) :
      Counted (update fs i (update (fs i) fd f))
        (update pipes p (pipes p)) := by
    have hheld {side : File → Int} (hs : f.pipe ≠ none → side f = side (fs i fd)) :
        held side p f = held side p (fs i fd) := by
      rcases hp with hn | hn
      · rw [held_none hn, held_none (hpipe ▸ hn)]
      · rw [held_self hn, held_self (hpipe ▸ hn), hs (by rw [hn]; simp)]
    refine h.setFd (hpipe ▸ hp) hp (fun hne => ?_) ?_ ?_ (h.used p)
    · rw [hrd hne, hwr hne]
      exact h.ended i fd (hpipe ▸ hne)
    · rw [hheld hrd]
      omega
    · rw [hheld hwr]
      omega
  cases hf : f.pipe with
  | none =>
    have := key 0 (Or.inl hf)
    rwa [update_eq_self] at this
  | some p =>
    have := key p (Or.inr hf)
    rwa [update_eq_self] at this

end Counted

end Mmix.Sys
