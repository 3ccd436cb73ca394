import Mmix.Sys.Life

/-!
# Who becomes root

The user of a task is set when the task is created, by `sys_setuid` of a task
that is root already, and by `sys_rudo_wait` on behalf of the task whose
request is pending.
-/

namespace Mmix.Sys

open Mm Fs Proc Kernel

variable {P : Policy} {k k' k₀ k₁ : Kernel}

section Moves

/-- No turn changes the queue of `rudo`. -/
theorem Turn.rudo (h : Turn P k k') : k'.rudo = k.rudo := by
  cases h with
  | yield => exact SameRoles.schedYield.rudo
  | block f => exact SameRoles.schedYield.rudo
  | die status => exact (SameRoles.markZombie _ _).rudo
  | terminate status => exact ((SameRoles.markZombie _ _).trans (SameRoles.fdsRelease _)).rudo
  | kill i => exact (SameRoles.killParked i).rudo
  | reap _ i => exact (SameRoles.fdsRelease i).rudo
  | _ => rfl

theorem Move.rudo (hP : ¬ P.roles) (h : Move P k k') : k'.rudo = k.rudo := by
  cases h with
  | change hc => exact (SameRoles.change hP hc).rudo
  | turn ht => exact ht.rudo

end Moves

section Users

/-- Nobody becomes root, and nobody starts to wait inside `rudo`. -/
structure NoGain (k k' : Kernel) : Prop where
  root : ∀ i, (k'.tasks i).state ≠ .free → (k'.tasks i).uid = 0 →
    (k.tasks i).state ≠ .free ∧ (k'.tasks i).pid = (k.tasks i).pid ∧ (k.tasks i).uid = 0
  inside : ∀ i, (k'.tasks i).state ≠ .free → Rudo (k'.tasks i).cont = true →
    (k.tasks i).state ≠ .free ∧ (k'.tasks i).cont = (k.tasks i).cont ∧
      (k'.tasks i).pid = (k.tasks i).pid ∧ (k'.tasks i).uid = (k.tasks i).uid

/-- The policy under which users and requests stay as they are. -/
def Policy.common : Policy := { Policy.any with roles := False }

theorem NoGain.move (h : NoGain k₀ k) (hs : Sane k) (hm : Move Policy.common k k') :
    NoGain k₀ k' := by
  constructor
  · intro i hl h0
    have hback (hk : Kept Policy.common (k.tasks i) (k'.tasks i)) :
        (k₀.tasks i).state ≠ .free ∧ (k'.tasks i).pid = (k₀.tasks i).pid ∧
          (k₀.tasks i).uid = 0 := by
      rw [hk.pid]
      exact h.root i (fun hf => hl (hk.free_iff.mpr hf)) (hk.uid.resolve_left id ▸ h0)
    cases hm.life hs i with
    | kept hk => exact hback hk
    | died hk => exact hback hk
    | born _ ht => exact absurd h0 ht.uid
    | reaped _ hfree => exact absurd hfree hl
  · intro i hl hc
    have hback (hk : Kept Policy.common (k.tasks i) (k'.tasks i)) :
        (k₀.tasks i).state ≠ .free ∧ (k'.tasks i).cont = (k₀.tasks i).cont ∧
          (k'.tasks i).pid = (k₀.tasks i).pid ∧ (k'.tasks i).uid = (k₀.tasks i).uid := by
      have hcont : (k'.tasks i).cont = (k.tasks i).cont :=
        (hk.cont.resolve_left id).resolve_right fun hn => absurd (hn.symm.trans hc) (by decide)
      rw [hk.pid, hk.uid.resolve_left id, hcont]
      exact h.inside i (fun hf => hl (hk.free_iff.mpr hf)) (hcont ▸ hc)
    cases hm.life hs i with
    | kept hk => exact hback hk
    | died hk => exact hback hk
    | born _ ht =>
      rw [ht.cont] at hc
      cases hc
    | reaped _ hfree => exact absurd hfree hl

theorem noGain_refl (k : Kernel) : NoGain k k :=
  ⟨fun _ hl h0 => ⟨hl, rfl, h0⟩, fun _ hl _ => ⟨hl, rfl, rfl, rfl⟩⟩

/-- A step that does not deal with users. -/
theorem common_step (hs : Sane k) {e : Event} (hc : changesRoles k e = false)
    (he : step k e = some k') : NoGain k k' ∧ k'.rudo = k.rudo := by
  have hallow : Allowed Policy.common k e :=
    { allowed_any k e with roles := fun ht => absurd (hc.symm.trans ht) (by decide) }
  refine moves_invariant (Q := fun k' => NoGain k k' ∧ k'.rudo = k.rudo) (fun _ _ hs h hm => ?_) hs
    ⟨noGain_refl k, rfl⟩ (step_moves hs hallow he)
  exact ⟨h.1.move hs hm, (hm.rudo id).trans h.2⟩

/-- Whoever waits for requests is root. -/
def WaitersRoot (k : Kernel) : Prop :=
  ∀ i, (k.tasks i).state ≠ .free → (k.tasks i).cont = .rudoWait → (k.tasks i).uid = 0

/-- The current task is root and executes `sys_rudo_wait`, while the request of
the task in the slot is pending. -/
structure Grants (k : Kernel) (i : Slot) : Prop where
  waits : k.cur.cont = .dispatch .rudoWait ∨ k.cur.cont = .rudoWait
  root : k.cur.uid = 0
  pending : k.rudo.pending = true
  op : k.rudo.op = rudoOpSetuid
  requester : k.rudo.requester = (k.tasks i).pid

/-- The current task posts the request that is then pending. -/
structure Posts (k k' : Kernel) : Prop where
  call : ∃ op, k.cur.cont = .dispatch (.rudoRequest op) ∧ k'.rudo.op = toInt op
  requester : k'.rudo.requester = k.cur.pid

/-- What a step does that deals with users. -/
structure RoleStep (k k' : Kernel) : Prop where
  root : ∀ i, (k'.tasks i).uid = 0 → (k.tasks i).uid = 0 ∨ Grants k i
  waits : WaitersRoot k → ∀ i, (k.tasks i).state ≠ .free → (k'.tasks i).cont = .rudoWait →
    (k'.tasks i).uid = 0
  pending : k'.rudo.pending = true → k'.rudo = k.rudo ∨ Posts k k'

theorem finish_tasks (r : Int) (i : Slot) : (i = k.current ∧ ((k.finish r).tasks i).cont = .user ∧
    ((k.finish r).tasks i).uid = (k.tasks i).uid) ∨ (k.finish r).tasks i = k.tasks i := by
  by_cases hi : i = k.current
  · subst hi
    have heq : (k.finish r).tasks k.current = { k.cur with cont := .user, rax := r } :=
      Function.update_self ..
    exact Or.inl ⟨rfl, by rw [heq], by rw [heq]; rfl⟩
  · exact Or.inr (Function.update_of_ne hi ..)

/-- The call returns. -/
theorem RoleStep.finish (h : RoleStep k k') (r : Int) : RoleStep k (k'.finish r) := by
  have huid (i : Slot) : ((k'.finish r).tasks i).uid = (k'.tasks i).uid := by
    rcases finish_tasks (k := k') r i with ⟨-, -, hu⟩ | heq
    · exact hu
    · rw [heq]
  refine ⟨fun i h0 => h.root i (huid i ▸ h0), fun hw i hl hc => ?_, fun hp => ?_⟩
  · rcases finish_tasks (k := k') r i with ⟨-, hcont, -⟩ | heq
    · rw [hcont] at hc
      cases hc
    · rw [heq] at hc ⊢
      exact h.waits hw i hl hc
  · rcases h.pending hp with hsame | hpost
    · exact Or.inl hsame
    · exact Or.inr ⟨hpost.call, hpost.requester⟩

theorem RoleStep.refl (k : Kernel) : RoleStep k k :=
  ⟨fun _ h0 => Or.inl h0, fun hw i hl hc => hw i hl hc, fun _ => Or.inl rfl⟩

/-- The rest of a step wakes tasks and passes the CPU on. -/
theorem RoleStep.of_same (h : RoleStep k k₁) (hr : SameRoles k₁ k')
    (hcont : ∀ i, (k'.tasks i).cont = (k₁.tasks i).cont) : RoleStep k k' := by
  refine ⟨fun i h0 => h.root i (hr.uid i ▸ h0), fun hw i hl hc => ?_, fun hp => ?_⟩
  · rw [hr.uid i]
    exact h.waits hw i hl (hcont i ▸ hc)
  · rw [hr.rudo] at hp ⊢
    rcases h.pending hp with hsame | hpost
    · exact Or.inl hsame
    · refine Or.inr ⟨?_, ?_⟩
      · rw [hr.rudo]
        exact hpost.call
      · rw [hr.rudo]
        exact hpost.requester

theorem RoleStep.schedWake (h : RoleStep k k₁) (i : Slot) : RoleStep k (schedWake k₁ i) :=
  h.of_same (SameRoles.schedWake i) fun j => ((@schedWake_drift False k₁ i).tasks j).cont

theorem RoleStep.schedYield (h : RoleStep k k₁) : RoleStep k (schedYield k₁) := by
  refine h.of_same SameRoles.schedYield fun i => ?_
  obtain ⟨u, hu⟩ := @schedYield_tasks k₁ i
  rw [hu]

/-- An edit of one task. -/
theorem RoleStep.modTask (h : RoleStep k k₁) {i : Slot} {f : Task → Task}
    (huid : (f (k₁.tasks i)).uid = 0 → (k.tasks i).uid = 0 ∨ Grants k i)
    (hcont : (f (k₁.tasks i)).cont = .rudoWait → (f (k₁.tasks i)).uid = 0) :
    RoleStep k (k₁.modTask i f) := by
  refine ⟨?_, fun hw => ?_, fun hp => ?_⟩
  · exact forall_setTask (Q := fun j t => t.uid = 0 → (k.tasks j).uid = 0 ∨ Grants k j) huid
      fun j _ => h.root j
  · exact forall_setTask (Q := fun j t => (k.tasks j).state ≠ .free → t.cont = .rudoWait →
      t.uid = 0) (fun _ => hcont) fun j _ => h.waits hw j
  · rcases h.pending hp with hsame | hpost
    · exact Or.inl hsame
    · exact Or.inr ⟨hpost.call, hpost.requester⟩

theorem setuid_role {uid : Word} (hcur : k.cur.cont = .dispatch (.setuid uid))
    (hd : dispatch k (.setuid uid) = some k') : RoleStep k k' := by
  simp only [dispatch] at hd
  split at hd
  · cases hd
    exact (RoleStep.refl k).finish _
  next hroot =>
    cases hd
    refine ((RoleStep.refl k).modTask (fun _ => Or.inl (Decidable.of_not_not hroot)) ?_).finish 0
    intro hc
    rw [show (k.tasks k.current).cont = _ from hcur] at hc
    cases hc

theorem sysRudoRequest_role {op : Word} (hcur : k.cur.cont = .dispatch (.rudoRequest op)) :
    RoleStep k (sysRudoRequest k op) := by
  unfold sysRudoRequest
  split
  · exact (RoleStep.refl k).finish _
  next daemon _ =>
    split
    · exact (RoleStep.refl k).finish _
    · have hpost : RoleStep k { k with rudo := ⟨toInt op, k.cur.pid, true, -1⟩ } :=
        ⟨fun _ h0 => Or.inl h0, fun hw i hl hc => hw i hl hc,
          fun _ => Or.inr ⟨⟨op, hcur, rfl⟩, rfl⟩⟩
      have hwoken := hpost.schedWake daemon
      exact (hwoken.modTask (i := k.current) (hwoken.root k.current)
        fun hc => Cont.noConfusion hc).schedYield

/-- The answer goes to the task whose request was pending. -/
theorem rudoSetuid_role (hw : k.cur.cont = .dispatch .rudoWait ∨ k.cur.cont = .rudoWait)
    (hroot : k.cur.uid = 0) (hp : k.rudo.pending = true) (hop : k.rudo.op = rudoOpSetuid) :
    RoleStep k (rudoSetuid { k with rudo := { k.rudo with pending := false } }) := by
  have htake : RoleStep k { k with rudo := { k.rudo with pending := false } } :=
    ⟨fun _ h0 => Or.inl h0, fun hw i hl hc => hw i hl hc, fun h => Bool.noConfusion h⟩
  have hset {k₁ : Kernel} (h : RoleStep k k₁) (hr : k₁.rudo.pending = false) :
      RoleStep k { k₁ with rudo := { k₁.rudo with result := 0 } } :=
    ⟨h.root, h.waits, fun h => absurd (hr.symm.trans h) (by decide)⟩
  unfold rudoSetuid
  split
  · exact hset htake rfl
  next i hfind =>
    refine hset (htake.modTask (fun _ => Or.inr ?_) fun _ => rfl) rfl
    exact ⟨hw, hroot, hp, hop, (schedFindPid_some hfind).2.symm⟩

theorem rudoWaitRound_role (hw : k.cur.cont = .dispatch .rudoWait ∨ k.cur.cont = .rudoWait)
    (hroot : k.cur.uid = 0) (hr : rudoWaitRound k = some k') : RoleStep k k' := by
  have htake : RoleStep k { k with rudo := { k.rudo with pending := false } } :=
    ⟨fun _ h0 => Or.inl h0, fun hw i hl hc => hw i hl hc, fun h => Bool.noConfusion h⟩
  unfold rudoWaitRound at hr
  split at hr
  next hp =>
    dsimp only at hr
    split at hr
    · split at hr
      · cases hr
      · cases hr
        refine RoleStep.finish ?_ _
        exact ⟨htake.root, htake.waits, fun h => Bool.noConfusion h⟩
    · cases hr
      refine RoleStep.finish ?_ _
      have hanswer {k₁ : Kernel} (h : RoleStep k k₁) : RoleStep k (rudoAnswer k₁) := by
        unfold rudoAnswer
        split
        · exact h
        · exact h.schedWake _
      refine hanswer ?_
      split
      next hop => exact rudoSetuid_role hw hroot hp hop
      next => exact htake
  next =>
    cases hr
    exact ((RoleStep.refl k).modTask (fun h0 => Or.inl h0) fun _ => hroot).schedYield

/-- A step that deals with users. -/
theorem role_step (hl : k.cur.state ≠ .free) (hwait : WaitersRoot k) {e : Event}
    (hc : changesRoles k e = true) (he : step k e = some k') : e = .resume ∧ RoleStep k k' := by
  cases e with
  | resume =>
    refine ⟨rfl, ?_⟩
    have hr : resume k = some k' := he
    simp only [changesRoles] at hc
    unfold resume at hr
    split at hc
    next uid hcur =>
      rw [hcur] at hr
      exact setuid_role hcur hr
    next op hcur =>
      rw [hcur] at hr
      cases hr
      exact sysRudoRequest_role hcur
    next hcur =>
      rw [hcur] at hr
      simp only [dispatch] at hr
      split at hr
      · cases hr
        exact (RoleStep.refl k).finish _
      next hroot => exact rudoWaitRound_role (Or.inl hcur) (Decidable.of_not_not hroot) hr
    next hcur =>
      rw [hcur] at hr
      exact rudoWaitRound_role (Or.inr hcur) (hwait k.current hl hcur) hr
    next => cases hc
  | _ => cases hc

end Users

section Runs

/-- The scheduler is sane, and whoever waits for requests is root. -/
structure Guarded (k : Kernel) : Prop where
  sane : Sane k
  waiters : WaitersRoot k

theorem Guarded.step (h : Guarded k) {e : Event} (he : Sys.step k e = some k') : Guarded k' := by
  refine ⟨h.sane.moves (step_moves h.sane (allowed_any k e) he), fun i hl hc => ?_⟩
  cases hr : changesRoles k e with
  | false =>
    obtain ⟨hl₀, hc₀, -, huid⟩ := (common_step h.sane hr he).1.inside i hl (congrArg Rudo hc)
    exact huid.trans (h.waiters i hl₀ (hc₀.symm.trans hc))
  | true =>
    have hrole := (role_step h.sane.cur_live h.waiters hr he).2
    exact hrole.waits h.waiters i (role_step_live h.sane hr he hl).1 hc

/-- The request that is pending was posted by a call of `sys_rudo_request`, and
nothing has happened to the queue since then. -/
def Posted (k₀ k : Kernel) (es : List Event) : Prop :=
  ∃ es₁ es₂ k₁ k₂, es = es₁ ++ .resume :: es₂ ∧ Run.run step k₀ es₁ = some k₁ ∧
    step k₁ .resume = some k₂ ∧ Posts k₁ k₂ ∧ Run.run step k₂ es₂ = some k ∧
    k₂.rudo = k.rudo ∧ Run.Along step (fun k' _ => k'.rudo = k.rudo) k₂ es₂

/-- The task in the slot called `sys_rudo_request` to become root, and the queue
has held its request ever since. -/
def Asked (k₀ k : Kernel) (es : List Event) (i : Slot) : Prop :=
  ∃ es₁ es₂ k₁ k₂ op, es = es₁ ++ .resume :: es₂ ∧ Run.run step k₀ es₁ = some k₁ ∧
    k₁.current = i ∧ k₁.cur.pid = (k.tasks i).pid ∧ k₁.cur.cont = .dispatch (.rudoRequest op) ∧
    toInt op = rudoOpSetuid ∧ step k₁ .resume = some k₂ ∧ Run.run step k₂ es₂ = some k ∧
    k₂.rudo = k.rudo ∧ Run.Along step (fun k' _ => k'.rudo = k.rudo) k₂ es₂

/-- Identifiers are never given out twice, so that the requester named in the
queue is the task that called. -/
theorem Posted.asked (hg : Guarded k₀) {es : List Event} (h : Posted k₀ k es) {i : Slot}
    (hl : (k.tasks i).state ≠ .free) (hi : Grants k i) : Asked k₀ k es i := by
  obtain ⟨es₁, es₂, k₁, k₂, rfl, h₁, h₂, ⟨⟨op, hcall, hop⟩, hreq⟩, h₃, hrudo, halong⟩ := h
  have hg₁ : Guarded k₁ := Run.invariant (fun _ _ _ h he => h.step he) hg h₁
  have hpid : (k.tasks i).pid = k₁.cur.pid := by
    rw [← hi.requester, ← hrudo, hreq]
  have hlt : (k.tasks i).pid < k₁.nextPid := hpid ▸ hg₁.sane.pid_lt k₁.current hg₁.sane.cur_live
  have hrest : Run.run step k₁ (.resume :: es₂) = some k :=
    Option.bind_eq_some_iff.mpr ⟨k₂, h₂, h₃⟩
  obtain ⟨hl₁, hpid₁⟩ := elder_run hg₁.sane hrest hl hlt
  refine ⟨es₁, es₂, k₁, k₂, op, rfl, h₁, ?_, hpid.symm, hcall, ?_, h₂, h₃, hrudo, halong⟩
  · exact hg₁.sane.pid_inj k₁.current i hg₁.sane.cur_live hl₁ (hpid.symm.trans hpid₁)
  · rw [← hop, hrudo]
    exact hi.op

end Runs

end Mmix.Sys
