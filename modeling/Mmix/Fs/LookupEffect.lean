import Mmix.Fs.Shape

/-!
# What looking a path up does to the tree

A lookup changes the tree only in procfs: the node of a process is made, or renamed to `cmdline`.
A lookup that does neither leaves everything as it is, and one that does leaves its mark.
-/

namespace Mmix.Fs

open Split

/-- The same nodes. The allocator may have been asked in between. -/
structure Vfs.SameTree (s t : Vfs) : Prop where
  root : t.root = s.root
  node : t.node = s.node
  pool : t.poolUsed = s.poolUsed

instance (node : VfsNode) : Decidable node.ofProcess := inferInstanceAs (Decidable (_ ∨ _))

/-- Looking a component up makes the node of a process. -/
def Vfs.Spawns (live : Nat → Bool) (s : Vfs) (p : NodePtr) (c : CStr) : Prop :=
  (s.node p).type = .procfs ∧ ¬ (s.node p).ofProcess ∧ c ∉ procfsNames ∧
    s.poolUsed < procfsPool ∧ ∃ pid, procfsPid 0 c = some pid ∧ ¬ (pid = 0 ∨ live pid = false)

/-- Looking a component up turns the node of a process into its `cmdline`. -/
def Vfs.Renames (s : Vfs) (p : NodePtr) (c : CStr) : Prop :=
  (s.node p).type = .procfs ∧ (s.node p).ofProcess ∧ c = ascii "cmdline" ∧
    ¬ ((s.node p).name = ascii "cmdline" ∧ (s.node p).payload % 256 = pfCmdline)

/-- Where a component leads without a change of the tree. -/
def Vfs.next (s : Vfs) (p : NodePtr) (c : CStr) : Option NodePtr :=
  if (s.node p).type = .procfs then
    if (s.node p).ofProcess then
      if c = ascii "cmdline" ∨ c = ascii "status" then some p else none
    else if c ∈ procfsNames then s.childNamed p c else none
  else s.childNamed p c

/-- No component of the list makes or renames a node. -/
def Vfs.Still (live : Nat → Bool) (s : Vfs) : NodePtr → List CStr → Prop
  | _, [] => True
  | p, c :: cs => ¬ s.Spawns live p c ∧ ¬ s.Renames p c ∧ ∀ m ∈ s.next p c, s.Still live m cs

section Lookup

variable {live : Nat → Bool} {s t : Vfs} {p m : NodePtr} {c : CStr} {cs : List CStr}

/-- A node that is `cmdline` already. -/
theorem renamed_eq_self (hname : (s.node p).name = ascii "cmdline")
    (hload : (s.node p).payload % 256 = pfCmdline) : s.renamed p = s := by
  have hpayload : (s.node p).payload / 256 * 256 + pfCmdline = (s.node p).payload := by
    rw [← hload]
    exact Nat.div_add_mod' ..
  rw [Vfs.renamed, hpayload, ← hname, Vfs.set]
  exact congrArg (fun node => { s with node := node }) (Function.update_eq_self ..)

theorem resolveStep_of_still (hspawn : ¬ s.Spawns live p c) (hname : ¬ s.Renames p c) :
    resolveStep live s p c = (s.next p c, s) := by
  rw [resolveStep, Vfs.next]
  by_cases htype : (s.node p).type = .procfs
  · rw [if_pos htype, if_pos htype, procfsResolve]
    by_cases hproc : (s.node p).ofProcess
    · rw [if_pos hproc]
      refine (if_pos hproc).trans ?_
      by_cases hcmd : c = ascii "cmdline"
      · have hself : (s.node p).name = ascii "cmdline" ∧ (s.node p).payload % 256 = pfCmdline :=
          not_not.mp fun hnot => hname ⟨htype, hproc, hcmd, hnot⟩
        rw [if_pos hcmd, if_pos (.inl hcmd)]
        exact congrArg (Prod.mk _) (renamed_eq_self hself.1 hself.2)
      · by_cases hstatus : c = ascii "status"
        · rw [if_neg hcmd, if_pos hstatus, if_pos (.inr hstatus)]
        · rw [if_neg hcmd, if_neg hstatus, if_neg (not_or.mpr ⟨hcmd, hstatus⟩)]
    · rw [if_neg hproc]
      refine (if_neg hproc).trans ?_
      by_cases hnames : c ∈ procfsNames
      · rw [if_pos hnames, if_pos hnames]
      · rw [if_neg hnames, if_neg hnames]
        cases hpid : procfsPid 0 c with
        | none => rfl
        | some pid =>
          by_cases hlive : pid = 0 ∨ live pid = false
          · exact if_pos hlive
          · have hfull : procfsPool ≤ s.poolUsed := Nat.le_of_not_lt fun hroom =>
              hspawn ⟨htype, hproc, hnames, hroom, pid, hpid, hlive⟩
            refine (if_neg hlive).trans ?_
            rw [makeNode, if_pos hfull]
  · rw [if_neg htype, if_neg htype]

theorem resolveStep_of_spawns (h : s.Spawns live p c) : ∃ payload, resolveStep live s p c =
    (some (.pool s.poolUsed), s.pooled p (ascii "status") payload) := by
  obtain ⟨htype, hproc, hnames, hroom, pid, hpid, hlive⟩ := h
  exact ⟨_, (Vfs.Finds.process htype hproc hnames hpid hlive (Nat.not_le.mpr hroom)).resolveStep_eq⟩

theorem resolveStep_of_renames (h : s.Renames p c) :
    resolveStep live s p c = (some p, s.renamed p) :=
  (Vfs.Finds.cmdline h.1 h.2.1 h.2.2.1).resolveStep_eq

theorem walk_of_still (h : s.Still live p cs) : (walk live s p cs).2 = s := by
  induction cs generalizing p with
  | nil => rfl
  | cons c cs ih =>
    obtain ⟨hspawn, hname, hrest⟩ := h
    rw [walk, resolveStep_of_still hspawn hname]
    cases hnext : s.next p c with
    | none => rfl
    | some m => exact ih (hrest m hnext)

/-- A `cmdline` node stays one. -/
theorem still_of_cmdline (htype : (s.node p).type = .procfs)
    (hname : (s.node p).name = ascii "cmdline") (hload : (s.node p).payload % 256 = pfCmdline)
    (cs : List CStr) : s.Still live p cs := by
  have hproc : (s.node p).ofProcess := .inr hload
  induction cs with
  | nil => trivial
  | cons c cs ih =>
    refine ⟨fun hspawn => hspawn.2.1 hproc, fun hrename => hrename.2.2.2 ⟨hname, hload⟩, ?_⟩
    intro m hm
    rw [Vfs.next, if_pos htype, if_pos hproc, Option.mem_def,
      Option.ite_none_right_eq_some] at hm
    obtain rfl := Option.some.inj hm.2
    exact ih

theorem still_of_no_procfs (h : ∀ p, (s.node p).type ≠ .procfs) (p : NodePtr) (cs : List CStr) :
    s.Still live p cs := by
  induction cs generalizing p with
  | nil => trivial
  | cons c cs ih =>
    exact ⟨fun hspawn => h p hspawn.1, fun hrename => h p hrename.1, fun m _ => ih m⟩

/-- What a lookup keeps. -/
structure Vfs.Looks (s t : Vfs) : Prop where
  linked : t.Linked
  root : t.root = s.root
  pool : s.poolUsed ≤ t.poolUsed
  allocs : t.allocs = s.allocs

theorem Vfs.Finds.looks {r : Option NodePtr} (h : s.Finds live p c r t) (hs : s.Linked)
    (hp : s.Born p) : s.Looks t := by
  refine ⟨(h.linked hs hp).1, h.root_eq, ?_, ?_⟩
  · cases h with
    | process => exact Nat.le_succ _
    | search | status | cmdline | fails => exact Nat.le_refl _
  · cases h <;> rfl

theorem Vfs.Looks.trans {u : Vfs} (h : s.Looks t) (h' : t.Looks u) : s.Looks u :=
  ⟨h'.linked, h'.root.trans h.root, Nat.le_trans h.pool h'.pool, h'.allocs.trans h.allocs⟩

theorem walk_looks (hs : s.Linked) (hp : s.Born p) (cs : List CStr) :
    s.Looks (walk live s p cs).2 := by
  induction cs generalizing s p with
  | nil => exact ⟨hs, rfl, Nat.le_refl _, rfl⟩
  | cons c cs ih =>
    have hfinds := resolveStep_finds live s p c
    rw [walk]
    generalize resolveStep live s p c = r at hfinds
    obtain ⟨found, s'⟩ := r
    have hstep := hfinds.looks hs hp
    cases found with
    | none => exact hstep
    | some m => exact hstep.trans (ih hstep.linked ((hfinds.linked hs hp).2 m rfl))

/-- What a lookup or a creation changes in the nodes that were there. -/
def Vfs.Marked (s t : Vfs) : Prop :=
  s.poolUsed < t.poolUsed ∨
    ∃ x, s.Born x ∧ ((t.node x).name, (t.node x).payload) ≠ ((s.node x).name, (s.node x).payload)

theorem Vfs.Marked.not_sameTree (h : s.Marked t) : ¬ s.SameTree t := by
  intro hsame
  rcases h with hpool | ⟨x, -, hne⟩
  · exact Nat.ne_of_gt hpool hsame.pool
  · exact hne (by rw [hsame.node])

/-- A lookup that makes or renames a node leaves its mark. -/
theorem walk_marked (hs : s.Linked) (hp : s.Born p) (h : ¬ s.Still live p cs) :
    s.Marked (walk live s p cs).2 := by
  induction cs generalizing p with
  | nil => exact absurd trivial h
  | cons c cs ih =>
    rw [walk]
    by_cases hspawn : s.Spawns live p c
    · obtain ⟨payload, hstep⟩ := resolveStep_of_spawns hspawn
      have hborn : (s.pooled p (ascii "status") payload).Born (.pool s.poolUsed) :=
        (s.hands_pool.born _).mpr (.inr rfl)
      have hlooks : (s.pooled p (ascii "status") payload).Looks
          (walk live (s.pooled p (ascii "status") payload) (.pool s.poolUsed) cs).2 :=
        walk_looks (hs.pooled hp hspawn.1 _ _) hborn cs
      rw [hstep]
      exact .inl (Nat.lt_of_lt_of_le (Nat.lt_succ_self _) hlooks.pool)
    by_cases hname : s.Renames p c
    · have hself : (s.renamed p).node p = { s.node p with
          name := ascii "cmdline", payload := (s.node p).payload / 256 * 256 + pfCmdline } := by
        rw [Vfs.renamed, Vfs.set_node, if_pos rfl]
      have hload : (s.node p).payload / 256 * 256 + pfCmdline =
          (s.node p).payload → (s.node p).payload % 256 = pfCmdline := by
        unfold pfCmdline
        omega
      have hcmd : ((s.renamed p).node p).payload % 256 = pfCmdline := by
        rw [hself]
        simp only [pfCmdline]
        omega
      have hstill : (s.renamed p).Still live p cs :=
        still_of_cmdline (by rw [hself]; exact hname.1) (by rw [hself]) hcmd cs
      rw [resolveStep_of_renames hname]
      refine .inr ⟨p, hp, fun heq => ?_⟩
      simp only [walk_of_still hstill, hself, Prod.mk.injEq] at heq
      exact hname.2.2.2 ⟨heq.1.symm, hload heq.2⟩
    · rw [resolveStep_of_still hspawn hname]
      have hrest : ¬ ∀ m, m ∈ s.next p c → s.Still live m cs := fun hall =>
        h ⟨hspawn, hname, hall⟩
      obtain ⟨m, hm⟩ := not_forall.mp hrest
      obtain ⟨hm, hmoves⟩ := Classical.not_imp.mp hm
      rw [Option.mem_def.mp hm]
      have hborn : s.Born m := by
        have hfinds := resolveStep_finds live s p c
        rw [resolveStep_of_still hspawn hname] at hfinds
        exact (hfinds.linked hs hp).2 m hm
      exact ih hborn hmoves

end Lookup

end Mmix.Fs
