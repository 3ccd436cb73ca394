import Mmix.Sys.Privilege
import Mmix.Sys.Waiting

/-!
# What `sys_rudo_request` returns

The queue of `rudo` has one place, and the requester reads the result from it
when it goes on. The machine is run together with a record of what has become of
the last request of each task. The result agrees with the record as long as no
second request is accepted before the first call has returned, and no child of
the requester ends while the request is pending.
-/

namespace Mmix.Sys

open Mm Fs Proc Kernel

variable {k k' : Kernel}

/-- What has become of a request. -/
inductive Fate where
  | waiting
  | approved
  | denied
  deriving DecidableEq, Repr

/-- The machine, and the fate of the last request of the task in each slot. -/
structure Traced where
  kernel : Kernel
  fate : Slot → Fate

/-- A round of `sys_rudo_wait` decides on the pending request. -/
def settle (k : Kernel) (fate : Slot → Fate) : Slot → Fate :=
  if k.rudo.pending then
    match schedFindPid k k.rudo.requester with
    | none => fate
    | some i => Function.update fate i (if k.rudo.op = rudoOpSetuid then .approved else .denied)
  else fate

/-- The fates after an event. -/
def observe (k : Kernel) (e : Event) (fate : Slot → Fate) : Slot → Fate :=
  match e with
  | .resume =>
    match k.cur.cont with
    | .dispatch (.rudoRequest _) => Function.update fate k.current .waiting
    | .dispatch .rudoWait => if k.cur.uid ≠ 0 then fate else settle k fate
    | .rudoWait => settle k fate
    | _ => fate
  | _ => fate

/-- One step of the machine with its record. -/
def Traced.step (s : Traced) (e : Event) : Option Traced :=
  (Sys.step s.kernel e).map fun k' => ⟨k', observe s.kernel e s.fate⟩

/-- The point lies inside a call of `sys_rudo_request`. -/
def inRudoRequest : Cont → Bool
  | .dispatch (.rudoRequest _) => true
  | .rudoRequest => true
  | _ => false

/-- The next step of the current task returns the value from `sys_rudo_request`. -/
def Returns (k : Kernel) (r : Int) : Prop :=
  inRudoRequest k.cur.cont = true ∧ step k .resume = some (k.finish r)

/-- The value that a call returns is 0 if and only if its own request was
approved, and a call that has waited returns after its request was decided on. -/
def Agrees (s : Traced) : Prop :=
  ∀ r, Returns s.kernel r →
    (r = 0 ↔ observe s.kernel .resume s.fate s.kernel.current = .approved) ∧
    (s.kernel.cur.cont = .rudoRequest → s.fate s.kernel.current ≠ .waiting)

/-- The point at which a call of `sys_rudo_request` waits for its result. -/
def awaitsReply : Cont → Bool
  | .rudoRequest => true
  | _ => false

/-- The event is a call of `sys_rudo_request`. -/
def requests (k : Kernel) : Event → Bool
  | .resume =>
    match k.cur.cont with
    | .dispatch (.rudoRequest _) => true
    | _ => false
  | _ => false

/-- No second request is accepted while a call waits for its result, and no
child of the requester ends while the request is pending. -/
structure Orderly (k : Kernel) (e : Event) : Prop where
  single : requests k e = true → k.rudo.pending = true ∨
    ∀ i, (k.tasks i).state ≠ .free → awaitsReply (k.tasks i).cont = false
  exit : k.rudo.pending = true → exits k e = true → k.cur.parentPid ≠ k.rudo.requester
  term : k.rudo.pending = true → Terminates k e → k.cur.parentPid ≠ k.rudo.requester
  kill : k.rudo.pending = true → ∀ i ∈ killTarget k e, (k.tasks i).parentPid ≠ k.rudo.requester

instance (k : Kernel) (e : Event) : Decidable (Orderly k e) :=
  decidable_of_iff ((requests k e = true → k.rudo.pending = true ∨
      ∀ i, (k.tasks i).state ≠ .free → awaitsReply (k.tasks i).cont = false) ∧
    (k.rudo.pending = true → (exits k e = true ∨ Terminates k e) →
      k.cur.parentPid ≠ k.rudo.requester) ∧
    (k.rudo.pending = true → ∀ i ∈ killTarget k e, (k.tasks i).parentPid ≠ k.rudo.requester))
    ⟨fun h => ⟨h.1, fun hp he => h.2.1 hp (Or.inl he), fun hp ht => h.2.1 hp (Or.inr ht), h.2.2⟩,
      fun h => ⟨h.single, fun hp he => he.elim (h.exit hp) (h.term hp), h.kill⟩⟩

/-- A call that waits for its result: its request is pending and the caller rests,
or the request was decided on and the result stands. -/
structure SoundCall (s : Traced) (i : Slot) : Prop where
  pending : s.kernel.rudo.pending = true →
    s.kernel.rudo.requester = (s.kernel.tasks i).pid ∧ Rest (s.kernel.tasks i)
  decided : s.kernel.rudo.pending = false →
    s.fate i ≠ .waiting ∧ (s.kernel.rudo.result = 0 ↔ s.fate i = .approved)

/-- What holds in every state of an orderly run. -/
structure Honest (s : Traced) : Prop where
  sane : Sane s.kernel
  pipes : PipeWaits s.kernel
  unanswered : s.kernel.rudo.pending = true → s.kernel.rudo.result = -1
  one : ∀ i j, (s.kernel.tasks i).state ≠ .free → (s.kernel.tasks j).state ≠ .free →
    awaitsReply (s.kernel.tasks i).cont = true → awaitsReply (s.kernel.tasks j).cont = true → i = j
  calls : ∀ i, (s.kernel.tasks i).state ≠ .free → awaitsReply (s.kernel.tasks i).cont = true →
    SoundCall s i

section Common

theorem cont_of_awaits {c : Cont} (h : awaitsReply c = true) : c = .rudoRequest := by
  cases c <;> first | rfl | cases h

theorem awaits_rudo {c : Cont} (h : awaitsReply c = true) : Rudo c = true := by
  rw [cont_of_awaits h]
  rfl

theorem observe_of_common {e : Event} (hc : changesRoles k e = false) (fate : Slot → Fate) :
    observe k e fate = fate := by
  cases e with
  | resume =>
    simp only [changesRoles] at hc
    simp only [observe]
    split at hc
    · cases hc
    · cases hc
    · cases hc
    · cases hc
    next h₁ h₂ h₃ h₄ =>
      split
      next op hcur => exact absurd hcur (h₂ op)
      next hcur => exact absurd hcur h₃
      next hcur => exact absurd hcur h₄
      next => rfl
  | _ => rfl

/-- A step outside `rudo` leaves the calls as they are. -/
theorem Honest.common {s : Traced} (h : Honest s) {e : Event} (ho : Orderly s.kernel e)
    (hc : changesRoles s.kernel e = false) (he : step s.kernel e = some k') :
    Honest ⟨k', observe s.kernel e s.fate⟩ := by
  obtain ⟨hgain, hrudo⟩ := common_step h.sane hc he
  rw [observe_of_common hc]
  have hback {i : Slot} (hl : (k'.tasks i).state ≠ .free)
      (ha : awaitsReply (k'.tasks i).cont = true) := by
    exact hgain.inside i hl (awaits_rudo ha)
  refine ⟨h.sane.step he, h.pipes.step h.sane he, ?_, ?_, ?_⟩
  · show k'.rudo.pending = true → k'.rudo.result = -1
    rw [hrudo]
    exact h.unanswered
  · intro i j hi hj hai haj
    obtain ⟨hi₀, hci, -⟩ := hback hi hai
    obtain ⟨hj₀, hcj, -⟩ := hback hj haj
    exact h.one i j hi₀ hj₀ (hci ▸ hai) (hcj ▸ haj)
  · intro i hl ha
    obtain ⟨hl₀, hcont, hpid, -⟩ := hback hl ha
    obtain ⟨hpend, hdec⟩ := h.calls i hl₀ (hcont ▸ ha)
    refine ⟨fun hp => ?_, fun hp => ?_⟩
    · have hp₀ : s.kernel.rudo.pending = true := hrudo ▸ hp
      obtain ⟨hreq, hrest⟩ := hpend hp₀
      -- The requester rests, and the event wakes none of the tasks it rests with.
      have hresting : Resting s.kernel.rudo.requester s.kernel := by
        refine ⟨hreq ▸ h.sane.pid_lt i hl₀, fun j hj hq => ?_⟩
        rw [← h.sane.pid_inj i j hl₀ hj (hreq.symm.trans hq.symm)]
        exact hrest
      have hallow : Allowed (Policy.spares s.kernel.rudo.requester) s.kernel e :=
        { allowed_any s.kernel e with
          roles := fun ht => absurd (hc.symm.trans ht) (by decide)
          exit := ho.exit hp₀
          term := ho.term hp₀
          kill := fun i hi => ho.kill hp₀ i hi }
      have hresting' := moves_invariant (Q := Resting s.kernel.rudo.requester)
        (fun _ _ hs hr hm => hr.move hs hm) h.sane hresting (step_moves h.sane hallow he)
      refine ⟨?_, hresting'.rest i hl (hpid.trans hreq.symm)⟩
      show k'.rudo.requester = (k'.tasks i).pid
      rw [hrudo, hreq, hpid]
    · show _ ∧ (k'.rudo.result = 0 ↔ _)
      rw [hrudo]
      exact hdec (hrudo ▸ hp)

end Common

section Roles

variable {s : Traced} {e : Event} {fate : Slot → Fate}

/-- A step of `rudo` after which the current task does not wait for a result. -/
theorem Honest.of_conts (h : Honest s) (hr : changesRoles s.kernel e = true)
    (he : step s.kernel e = some k')
    (hcur : awaitsReply (k'.tasks s.kernel.current).cont = false)
    (hconts : ∀ i, i ≠ s.kernel.current → (k'.tasks i).cont = (s.kernel.tasks i).cont)
    (hun : k'.rudo.pending = true → k'.rudo.result = -1)
    (hcalls : ∀ i, i ≠ s.kernel.current → (s.kernel.tasks i).state ≠ .free →
      (k'.tasks i).pid = (s.kernel.tasks i).pid → SoundCall s i → SoundCall ⟨k', fate⟩ i) :
    Honest ⟨k', fate⟩ := by
  have hback {i : Slot} (hl : (k'.tasks i).state ≠ .free)
      (ha : awaitsReply (k'.tasks i).cont = true) : i ≠ s.kernel.current ∧
        (s.kernel.tasks i).state ≠ .free ∧ (k'.tasks i).pid = (s.kernel.tasks i).pid ∧
        awaitsReply (s.kernel.tasks i).cont = true := by
    have hi : i ≠ s.kernel.current := by
      rintro rfl
      exact absurd (hcur.symm.trans ha) (by decide)
    obtain ⟨hl₀, hpid⟩ := role_step_live h.sane hr he hl
    exact ⟨hi, hl₀, hpid, hconts i hi ▸ ha⟩
  refine ⟨h.sane.step he, h.pipes.step h.sane he, hun, fun i j hi hj hai haj => ?_,
    fun i hl ha => ?_⟩
  · obtain ⟨-, hi₀, -, hai₀⟩ := hback hi hai
    obtain ⟨-, hj₀, -, haj₀⟩ := hback hj haj
    exact h.one i j hi₀ hj₀ hai₀ haj₀
  · obtain ⟨hi, hl₀, hpid, ha₀⟩ := hback hl ha
    exact hcalls i hi hl₀ hpid (h.calls i hl₀ ha₀)

/-- A step that only concerns the current task. -/
theorem Honest.aside (h : Honest s) (hr : changesRoles s.kernel e = true)
    (he : step s.kernel e = some k')
    (hcur : awaitsReply (k'.tasks s.kernel.current).cont = false)
    (htasks : ∀ i, i ≠ s.kernel.current → k'.tasks i = s.kernel.tasks i)
    (hrudo : k'.rudo = s.kernel.rudo)
    (hfate : ∀ i, i ≠ s.kernel.current → fate i = s.fate i) : Honest ⟨k', fate⟩ := by
  refine h.of_conts hr he hcur (fun i hi => by rw [htasks i hi]) ?_ fun i hi _ _ hcall => ?_
  · rw [hrudo]
    exact h.unanswered
  · refine ⟨fun hp => ?_, fun hp => ?_⟩
    · show k'.rudo.requester = (k'.tasks i).pid ∧ Rest (k'.tasks i)
      rw [hrudo, htasks i hi]
      exact hcall.pending (hrudo ▸ hp)
    · show fate i ≠ .waiting ∧ (k'.rudo.result = 0 ↔ fate i = .approved)
      rw [hrudo, hfate i hi]
      exact hcall.decided (hrudo ▸ hp)

theorem finish_cont (r : Int) : ((k.finish r).tasks k.current).cont = .user := by
  show (k.finish r).cur.cont = .user
  exact congrArg Task.cont (modCur_cur (k := k) fun t => { t with cont := .user, rax := r })

theorem finish_of_ne (r : Int) {i : Slot} (hi : i ≠ k.current) :
    (k.finish r).tasks i = k.tasks i := Function.update_of_ne hi ..

theorem Honest.setuid (h : Honest s) {uid : Word}
    (hcur : s.kernel.cur.cont = .dispatch (.setuid uid))
    (he : step s.kernel .resume = some k') : Honest ⟨k', observe s.kernel .resume s.fate⟩ := by
  have hr : changesRoles s.kernel .resume = true := by simp only [changesRoles, hcur]
  have hobs : observe s.kernel .resume s.fate = s.fate := by simp only [observe, hcur]
  have hd : dispatch s.kernel (.setuid uid) = some k' := by
    simpa only [step, resume, hcur] using he
  simp only [dispatch] at hd
  split at hd
  · cases hd
    refine h.aside hr he ?_ (fun i hi => finish_of_ne _ hi) rfl fun i _ => by rw [hobs]
    rw [finish_cont]
    rfl
  · cases hd
    refine h.aside hr he ?_ (fun i hi => ?_) rfl fun i _ => by rw [hobs]
    · exact congrArg awaitsReply (finish_cont (k := s.kernel.modCur _) 0)
    · exact (finish_of_ne (k := s.kernel.modCur _) 0 hi).trans (Function.update_of_ne hi ..)

theorem schedYield_cont (i : Slot) : ((schedYield k).tasks i).cont = (k.tasks i).cont := by
  obtain ⟨u, hu⟩ := @schedYield_tasks k i
  rw [hu]

theorem schedWake_cont (i j : Slot) : ((schedWake k j).tasks i).cont = (k.tasks i).cont :=
  ((@schedWake_drift False k j).tasks i).cont

/-- An accepted request makes the caller the only one that waits for a result. -/
theorem Honest.accepted (h : Honest s) {op : Word} {k₁ : Kernel}
    (hcur : s.kernel.cur.cont = .dispatch (.rudoRequest op))
    (hnone : ∀ i, (s.kernel.tasks i).state ≠ .free → awaitsReply (s.kernel.tasks i).cont = false)
    (hd : Drift False s.kernel k₁) (hw : Each SameWait s.kernel k₁)
    (hrudo₁ : k₁.rudo = ⟨toInt op, s.kernel.cur.pid, true, -1⟩)
    (heq : k' = schedYield (k₁.modCur fun t => { t with state := .blocked, cont := .rudoRequest }))
    (he : step s.kernel .resume = some k') : Honest ⟨k', fate⟩ := by
  have hr : changesRoles s.kernel .resume = true := by simp only [changesRoles, hcur]
  have hs₁ : Sane k₁ := h.sane.of_drift hd
  have hrudo : k'.rudo = ⟨toInt op, s.kernel.cur.pid, true, -1⟩ := by
    rw [heq, SameRoles.schedYield.rudo]
    exact hrudo₁
  have honly {i : Slot} (hl : (k'.tasks i).state ≠ .free)
      (ha : awaitsReply (k'.tasks i).cont = true) : i = s.kernel.current := by
    by_contra hi
    have hcont : (k'.tasks i).cont = (s.kernel.tasks i).cont := by
      have hne : i ≠ k₁.current := by rwa [hd.current]
      rw [heq, schedYield_cont, ← (hd.tasks i).cont]
      exact congrArg Task.cont (Function.update_of_ne hne ..)
    rw [hcont, hnone i (role_step_live h.sane hr he hl).1] at ha
    cases ha
  refine ⟨h.sane.step he, h.pipes.step h.sane he, fun _ => congrArg RudoQueue.result hrudo,
    fun i j hi hj hai haj => (honly hi hai).trans (honly hj haj).symm,
    fun i hl ha => ⟨fun _ => ?_, fun hp => ?_⟩⟩
  · obtain rfl := honly hl ha
    refine ⟨?_, ?_⟩
    · show k'.rudo.requester = (k'.tasks s.kernel.current).pid
      rw [hrudo, (role_step_live h.sane hr he hl).2]
      rfl
    · have hwait : (k₁.tasks k₁.current).waitPipe = none := by
        have hnone : s.kernel.cur.waitPipe = none := by
          by_contra hne
          have := h.pipes s.kernel.current hne
          rw [show (s.kernel.tasks s.kernel.current).cont = _ from hcur] at this
          cases this
        rw [hd.current]
        exact (hw s.kernel.current).elim id fun hsame => hsame.1.trans hnone
      have h0 : k₁.current ≠ 0 := by
        rw [hd.current]
        exact h.sane.toTable.current_ne_zero (by rw [hcur]; simp [Idles])
      have hrest : Rest ((k₁.modCur fun t => { t with
          state := .blocked, cont := .rudoRequest }).tasks k₁.current) := by
        rw [show (k₁.modCur fun t => { t with state := .blocked, cont := .rudoRequest }).tasks
          k₁.current = _ from modCur_cur _]
        exact ⟨rfl, hwait⟩
      show Rest (k'.tasks s.kernel.current)
      rw [heq, ← hd.current]
      exact hrest.schedYield
        (hs₁.block h0 (.rudo .rudoRequest (Or.inl rfl))).1.idle_runnable
  · have hp' : k'.rudo.pending = false := hp
    rw [hrudo] at hp'
    cases hp'

theorem Honest.request (h : Honest s) (ho : Orderly s.kernel .resume) {op : Word}
    (hcur : s.kernel.cur.cont = .dispatch (.rudoRequest op))
    (he : step s.kernel .resume = some k') : Honest ⟨k', observe s.kernel .resume s.fate⟩ := by
  have hr : changesRoles s.kernel .resume = true := by simp only [changesRoles, hcur]
  have hobs : observe s.kernel .resume s.fate =
      Function.update s.fate s.kernel.current .waiting := by simp only [observe, hcur]
  have hreq : requests s.kernel .resume = true := by simp only [requests, hcur]
  have hk : sysRudoRequest s.kernel op = k' := by
    have hd : some (sysRudoRequest s.kernel op) = some k' := by
      simpa only [step, resume, hcur, dispatch] using he
    exact Option.some.inj hd
  have hrejected (heq : k' = s.kernel.finish (-1)) :
      Honest ⟨k', observe s.kernel .resume s.fate⟩ := by
    subst heq
    refine h.aside hr he ?_ (fun i hi => finish_of_ne _ hi) rfl fun i hi => ?_
    · rw [finish_cont]
      rfl
    · rw [hobs, Function.update_of_ne hi]
  unfold sysRudoRequest at hk
  split at hk
  · exact hrejected hk.symm
  next daemon _ =>
    split at hk
    · exact hrejected hk.symm
    next hfree =>
      have hframe : Drift False s.kernel { s.kernel with
          rudo := ⟨toInt op, s.kernel.cur.pid, true, -1⟩ } :=
        Drift.of_tasks (fun _ => Mild.refl _) rfl rfl rfl (Or.inr ⟨rfl, fun _ => rfl, fun _ => rfl⟩)
      refine h.accepted hcur ((ho.single hreq).resolve_left fun hp => hfree (Or.inr (Or.inr hp)))
        (hframe.trans (schedWake_drift daemon)) ?_ rfl hk.symm he
      exact Each.schedWake (k := { s.kernel with
        rudo := ⟨toInt op, s.kernel.cur.pid, true, -1⟩ }) sameWait_edits (SameWait.wake _)

/-- What a round does that finds a request. -/
structure Answers (k k' : Kernel) : Prop where
  pending : k'.rudo.pending = false
  result : k'.rudo.result = if k.rudo.op = rudoOpSetuid then 0 else k.rudo.result
  cur : (k'.tasks k.current).cont = .user
  conts : ∀ i, i ≠ k.current → (k'.tasks i).cont = (k.tasks i).cont

theorem rudoSetuid_answers : (rudoSetuid k).current = k.current ∧
    (rudoSetuid k).rudo = { k.rudo with result := 0 } ∧
    ∀ i, ((rudoSetuid k).tasks i).cont = (k.tasks i).cont := by
  unfold rudoSetuid
  split
  · exact ⟨rfl, rfl, fun _ => rfl⟩
  · exact ⟨rfl, rfl, forall_setTask (Q := fun j t => t.cont = (k.tasks j).cont) rfl fun _ _ => rfl⟩

theorem rudoAnswer_answers : (rudoAnswer k).current = k.current ∧
    (rudoAnswer k).rudo = k.rudo ∧
    ∀ i, ((rudoAnswer k).tasks i).cont = (k.tasks i).cont := by
  unfold rudoAnswer
  split
  · exact ⟨rfl, rfl, fun _ => rfl⟩
  · exact ⟨rfl, rfl, fun i => schedWake_cont i _⟩

theorem Answers.of_finish {k₁ : Kernel} (hcur : k₁.current = k.current)
    (hp : k₁.rudo.pending = false)
    (hres : k₁.rudo.result = if k.rudo.op = rudoOpSetuid then 0 else k.rudo.result)
    (hconts : ∀ i, (k₁.tasks i).cont = (k.tasks i).cont) (r : Int) : Answers k (k₁.finish r) := by
  refine ⟨hp, hres, hcur ▸ finish_cont r, fun i hi => ?_⟩
  rw [finish_of_ne r (hcur.symm ▸ hi), hconts i]

theorem rudoWaitRound_answers (hp : k.rudo.pending = true) (hr : rudoWaitRound k = some k') :
    Answers k k' := by
  unfold rudoWaitRound at hr
  rw [if_pos hp] at hr
  dsimp only at hr
  split at hr
  next hop =>
    split at hr
    · cases hr
    · cases hr
      refine Answers.of_finish (k := k) ?_ ?_ ?_ (fun i => ?_) _
      · rfl
      · rfl
      · rw [if_neg (by rw [hop]; decide)]
        rfl
      · rfl
  · cases hr
    obtain ⟨hcur, hrudo, hconts⟩ := rudoAnswer_answers
      (k := if k.rudo.op = rudoOpSetuid then
        rudoSetuid { k with rudo := { k.rudo with pending := false } }
        else { k with rudo := { k.rudo with pending := false } })
    by_cases hop : k.rudo.op = rudoOpSetuid
    · rw [if_pos hop] at hcur hrudo hconts ⊢
      obtain ⟨hcur', hrudo', hconts'⟩ :=
        rudoSetuid_answers (k := { k with rudo := { k.rudo with pending := false } })
      refine Answers.of_finish (k := k) (hcur.trans hcur') ?_ ?_ (fun i => (hconts i).trans (hconts' i)) _
      · rw [hrudo, hrudo']
      · rw [hrudo, hrudo', if_pos hop]
    · rw [if_neg hop] at hcur hrudo hconts ⊢
      refine Answers.of_finish (k := k) hcur ?_ ?_ hconts _
      · rw [hrudo]
      · rw [hrudo, if_neg hop]

/-- A round decides on the request of the call that waits. -/
theorem Honest.round (h : Honest s) (hr : changesRoles s.kernel e = true)
    (he : step s.kernel e = some k') (hround : rudoWaitRound s.kernel = some k') :
    Honest ⟨k', settle s.kernel s.fate⟩ := by
  cases hp : s.kernel.rudo.pending with
  | true =>
    have ha := rudoWaitRound_answers hp hround
    refine h.of_conts hr he (congrArg awaitsReply ha.cur) ha.conts
      (fun hp' => absurd (ha.pending.symm.trans hp') (by decide)) fun i _ hl _ hcall => ?_
    have hfind : schedFindPid s.kernel s.kernel.rudo.requester = some i := by
      rw [(hcall.pending hp).1]
      exact h.sane.toTable.schedFindPid_eq hl
    have hfate : settle s.kernel s.fate i =
        if s.kernel.rudo.op = rudoOpSetuid then .approved else .denied := by
      unfold settle
      rw [if_pos hp, hfind]
      exact Function.update_self ..
    refine ⟨fun hp' => absurd (ha.pending.symm.trans hp') (by decide), fun _ => ?_⟩
    show settle s.kernel s.fate i ≠ .waiting ∧
      (k'.rudo.result = 0 ↔ settle s.kernel s.fate i = .approved)
    rw [hfate, ha.result, h.unanswered hp]
    split <;> decide
  | false =>
    have hsettle : settle s.kernel s.fate = s.fate := by
      unfold settle
      rw [if_neg (by rw [hp]; decide)]
    have hk : schedYield (s.kernel.modCur fun t => { t with
        state := .blocked, cont := .rudoWait }) = k' := by
      unfold rudoWaitRound at hround
      rw [if_neg (by rw [hp]; decide)] at hround
      exact Option.some.inj hround
    have hrudo : k'.rudo = s.kernel.rudo := by
      rw [← hk, SameRoles.schedYield.rudo]
      rfl
    rw [hsettle]
    refine h.of_conts hr he ?_ (fun i hi => ?_) ?_ fun i _ _ _ hcall => ⟨fun hp' => ?_, fun _ => ?_⟩
    · rw [← hk, schedYield_cont]
      exact congrArg (fun t => awaitsReply t.cont) (modCur_cur (k := s.kernel) _)
    · rw [← hk, schedYield_cont]
      exact congrArg Task.cont (Function.update_of_ne hi ..)
    · rw [hrudo]
      exact h.unanswered
    · exact absurd (hp.symm.trans (hrudo ▸ hp' : s.kernel.rudo.pending = true)) (by decide)
    · show s.fate i ≠ .waiting ∧ (k'.rudo.result = 0 ↔ s.fate i = .approved)
      rw [hrudo]
      exact hcall.decided hp

theorem Honest.role (h : Honest s) (ho : Orderly s.kernel e) (hr : changesRoles s.kernel e = true)
    (he : step s.kernel e = some k') : Honest ⟨k', observe s.kernel e s.fate⟩ := by
  cases e with
  | resume =>
    have hc := hr
    simp only [changesRoles] at hc
    split at hc
    next uid hcur => exact h.setuid hcur he
    next op hcur => exact h.request ho hcur he
    next hcur =>
      have hd : (if s.kernel.cur.uid ≠ 0 then some (s.kernel.finish (-1))
          else rudoWaitRound s.kernel) = some k' := by
        simpa only [step, resume, hcur, dispatch] using he
      simp only [observe, hcur]
      split at hd
      next huid =>
        cases hd
        rw [if_pos huid]
        refine h.aside hr he ?_ (fun i hi => finish_of_ne _ hi) rfl fun _ _ => rfl
        rw [finish_cont]
        rfl
      next huid =>
        rw [if_neg huid]
        exact h.round hr he hd
    next hcur =>
      have hround : rudoWaitRound s.kernel = some k' := by
        simpa only [step, resume, hcur] using he
      simp only [observe, hcur]
      exact h.round hr he hround
    next => cases hc
  | _ => cases hr

end Roles

section Runs

/-- One orderly step. -/
theorem Honest.step {s s' : Traced} {e : Event} (h : Honest s) (ho : Orderly s.kernel e)
    (he : s.step e = some s') : Honest s' := by
  obtain ⟨k', hk, rfl⟩ := Option.map_eq_some_iff.mp he
  cases hr : changesRoles s.kernel e with
  | false => exact h.common ho hr hk
  | true => exact h.role ho hr hk

theorem boot_honest {vm : Vm} {init rudod : Option FileData}
    (hb : boot vm init rudod = some k) (fate : Slot → Fate) : Honest ⟨k, fate⟩ := by
  have hcalm := boot_calm hb
  have hnone {i : Slot} (ha : awaitsReply (k.tasks i).cont = true) : False :=
    absurd ((hcalm.conts i).symm.trans (awaits_rudo ha)) (by decide)
  refine ⟨(boot_started hb).sane, boot_pipeWaits hb, fun hp => ?_, fun i _ _ _ ha => ?_,
    fun i _ ha => ?_⟩
  · exact absurd (hcalm.pending.symm.trans hp) (by decide)
  · exact (hnone ha).elim
  · exact (hnone ha).elim

theorem Honest.agrees {s : Traced} (h : Honest s) : Agrees s := by
  rintro r ⟨hin, hret⟩
  have hinj {r' : Int} (he : some (s.kernel.finish r') = some (s.kernel.finish r)) : r' = r := by
    have heq := Option.some.inj he
    rw [← finish_rax (k := s.kernel) r', heq, finish_rax]
  cases hc : s.kernel.cur.cont with
  | rudoRequest =>
    have hlive := h.sane.cur_live
    have hcall := h.calls s.kernel.current hlive (congrArg awaitsReply hc)
    have hdone : s.kernel.rudo.pending = false := by
      cases hp : s.kernel.rudo.pending with
      | false => rfl
      | true =>
        have hrest := (hcall.pending hp).2
        exact absurd (hrest.1.symm.trans h.sane.running) (by decide)
    have hr : s.kernel.rudo.result = r := hinj (by simpa only [Sys.step, resume, hc] using hret)
    obtain ⟨hne, hiff⟩ := hcall.decided hdone
    simp only [observe, hc]
    exact ⟨hr ▸ hiff, fun _ => hne⟩
  | dispatch c =>
    cases c with
    | rudoRequest op =>
      have hd : some (sysRudoRequest s.kernel op) = some (s.kernel.finish r) := by
        simpa only [Sys.step, resume, hc, dispatch] using hret
      have hr : -1 = r := by
        unfold sysRudoRequest at hd
        split at hd
        · exact hinj hd
        · split at hd
          · exact hinj hd
          next hfree =>
            have hrudo := congrArg (fun k => k.rudo.pending) (Option.some.inj hd)
            dsimp only at hrudo
            rw [SameRoles.schedYield.rudo] at hrudo
            exact absurd (Or.inr (Or.inr hrudo.symm)) hfree
      refine ⟨?_, fun h => by cases h⟩
      simp only [observe, hc, Function.update_self, ← hr]
      decide
    | _ =>
      rw [hc] at hin
      cases hin
  | _ =>
    rw [hc] at hin
    cases hin

/-- In every orderly run `sys_rudo_request` returns 0 to a task exactly if the
request of that call was approved, and never before it was decided on. -/
theorem rudo_result_agrees {vm : Vm} {init rudod : Option FileData} {k₀ : Kernel}
    {fate₀ : Slot → Fate} {s : Traced} {es : List Event} (hb : boot vm init rudod = some k₀)
    (ho : Run.Along Traced.step (fun s e => Orderly s.kernel e) ⟨k₀, fate₀⟩ es)
    (hrun : Run.run Traced.step ⟨k₀, fate₀⟩ es = some s) : Agrees s :=
  (Run.invariant_along (fun _ _ _ h ho he => h.step ho he) (boot_honest hb fate₀) ho hrun).agrees

/-- The daemon waits, and the first process gets the CPU. -/
def daemonWaits : List Event :=
  .resume :: call .rudoWait ++ [.resume, .resume, .tick, .resume, .resume]

/-- The first process asks for root, and the daemon approves. -/
def approve : List Event := call (.rudoRequest 2) ++ [.resume]

theorem rudo_result_agrees_approved : ∃ k₀ s,
    boot smallVm (some smallProgram) (some smallProgram) = some k₀ ∧
    Run.run Traced.step ⟨k₀, fun _ => .waiting⟩ (daemonWaits ++ approve) = some s ∧
    awaitsReply (s.kernel.tasks 1).cont = true ∧ s.fate 1 = .approved ∧
    s.kernel.rudo.result = 0 ∧ Agrees s := by
  have hrun : ∃ k₀, boot smallVm (some smallProgram) (some smallProgram) = some k₀ ∧
      ∃ s, Run.runIf Traced.step (fun s e => Orderly s.kernel e) ⟨k₀, fun _ => .waiting⟩
        (daemonWaits ++ approve) = some s ∧
      awaitsReply (s.kernel.tasks 1).cont = true ∧ s.fate 1 = .approved ∧
      s.kernel.rudo.result = 0 := by
    decide +kernel
  obtain ⟨k₀, hb, s, hif, ha, hfate, hres⟩ := hrun
  obtain ⟨ho, hrun⟩ := Run.runIf_eq_some hif
  exact ⟨k₀, s, hb, hrun, ha, hfate, hres, rudo_result_agrees hb ho hrun⟩

/-- The first process is approved, but before it goes on its child makes a
request of its own: the first process reads the result of that one. -/
theorem approved_request_returns_failure : ∃ k₀ s,
    boot smallVm (some smallProgram) (some smallProgram) = some k₀ ∧
    Run.run Traced.step ⟨k₀, fun _ => .waiting⟩ (daemonWaits ++ call .fork ++ approve ++
      call .rudoWait ++ .resume :: call (.rudoRequest 3) ++ [.resume, .tick, .resume]) = some s ∧
    s.kernel.current = 1 ∧ s.fate 1 = .approved ∧ Returns s.kernel (-1) ∧ ¬ Agrees s := by
  have hrun : ∃ k₀, boot smallVm (some smallProgram) (some smallProgram) = some k₀ ∧
      ∃ s, Run.run Traced.step ⟨k₀, fun _ => .waiting⟩ (daemonWaits ++ call .fork ++ approve ++
        call .rudoWait ++ .resume :: call (.rudoRequest 3) ++ [.resume, .tick, .resume]) = some s ∧
      s.kernel.current = 1 ∧ awaitsReply s.kernel.cur.cont = true ∧
      s.kernel.rudo.result = -1 ∧ s.fate 1 = .approved := by
    decide +kernel
  obtain ⟨k₀, hb, s, hrun, hcur, ha, hres, hfate⟩ := hrun
  have hcont := cont_of_awaits ha
  have hret : Returns s.kernel (-1) := by
    refine ⟨by rw [hcont]; rfl, ?_⟩
    simp only [step, resume, hcont, hres]
  refine ⟨k₀, s, hb, hrun, hcur, hfate, hret, fun hagree => ?_⟩
  have hzero := (hagree (-1) hret).1.mpr (by simp only [observe, hcont, hcur, hfate])
  exact absurd hzero (by decide)

end Runs

end Mmix.Sys
