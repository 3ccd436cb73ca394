import Mmix.Fs.Tree

/-!
# Walks through procfs

A component looked up in a procfs node may take a node from the pool or turn a
status node into a cmdline node. Such a step keeps the tree a tree, and it goes
the same way in two trees that agree on procfs.
-/

namespace Mmix.Fs

open Split

variable {live : Nat → Bool} {s s' t : Vfs} {p n m : NodePtr} {c : CStr} {cs : List CStr}

/-- The node `make_node` takes from the pool. -/
def poolNode (name : CStr) (payload : Nat) : VfsNode :=
  { name := name.take (vfsMaxName - 1), type := .procfs, payload := payload }

/-- The tree after `make_node`. -/
def Vfs.pooled (s : Vfs) (dir : NodePtr) (name : CStr) (payload : Nat) : Vfs :=
  ({ s with poolUsed := s.poolUsed + 1 }.set (.pool s.poolUsed) (poolNode name payload)).link dir
    (.pool s.poolUsed)

/-- The tree after a status node became a cmdline node. -/
def Vfs.renamed (s : Vfs) (dir : NodePtr) : Vfs :=
  s.set dir { s.node dir with
    name := ascii "cmdline", payload := (s.node dir).payload / 256 * 256 + pfCmdline }

/-- A node of procfs that stands for a process. -/
def VfsNode.ofProcess (node : VfsNode) : Prop :=
  node.payload % 256 = pfStatus ∨ node.payload % 256 = pfCmdline

/-- The ways a component is looked up: among the children, in a process's node,
or by making one. -/
inductive Vfs.Finds (live : Nat → Bool) (s : Vfs) (p : NodePtr) (c : CStr) :
    Option NodePtr → Vfs → Prop where
  | search (h : (s.node p).type = .procfs → ¬ (s.node p).ofProcess ∧ c ∈ procfsNames) :
      Finds live s p c (s.childNamed p c) s
  | status (hp : (s.node p).type = .procfs) (h : (s.node p).ofProcess)
      (hc : c = ascii "status") : Finds live s p c (some p) s
  | cmdline (hp : (s.node p).type = .procfs) (h : (s.node p).ofProcess)
      (hc : c = ascii "cmdline") : Finds live s p c (some p) (s.renamed p)
  | process {pid : Nat} (hp : (s.node p).type = .procfs) (h : ¬ (s.node p).ofProcess)
      (hc : c ∉ procfsNames) (hpid : procfsPid 0 c = some pid) (hlive : ¬ (pid = 0 ∨ live pid = false))
      (hroom : ¬ procfsPool ≤ s.poolUsed) :
      Finds live s p c (some (.pool s.poolUsed))
        (s.pooled p (ascii "status") (pid * 256 % 2 ^ 32 + pfStatus))
  | fails : Finds live s p c none s

theorem resolveStep_finds (live : Nat → Bool) (s : Vfs) (p : NodePtr) (c : CStr) :
    s.Finds live p c (resolveStep live s p c).1 (resolveStep live s p c).2 := by
  rw [resolveStep]
  by_cases hp : (s.node p).type = .procfs
  · rw [if_pos hp, procfsResolve]
    by_cases hproc : (s.node p).ofProcess
    · have hproc' : (s.node p).payload % 256 = pfStatus ∨ (s.node p).payload % 256 = pfCmdline :=
        hproc
      rw [if_pos hproc']
      split
      · next hc => exact .cmdline hp hproc hc
      · split
        · next hc => exact .status hp hproc hc
        · exact .fails
    · have hproc' : ¬ ((s.node p).payload % 256 = pfStatus ∨
          (s.node p).payload % 256 = pfCmdline) := hproc
      rw [if_neg hproc']
      split
      · next hc => exact .search fun _ => ⟨hproc, hc⟩
      · next hc =>
        split
        · exact .fails
        · next pid hpid =>
          split
          · exact .fails
          · next hlive =>
            rw [makeNode]
            split
            · exact .fails
            · next hroom => exact .process hp hproc hc hpid hlive hroom
  · rw [if_neg hp]
    exact .search fun h => absurd h hp

theorem Vfs.Linked.set (hs : s.Linked) {node : VfsNode}
    (hkids : node.children = (s.node p).children) (hparent : node.parent = (s.node p).parent)
    (htype : node.type = (s.node p).type) (hload : ∀ k, p = .heap k → node.payload = 0) :
    (s.set p node).Linked := by
  have hchildren := Vfs.field_set VfsNode.children hkids
  have hpar := Vfs.field_set VfsNode.parent hparent
  have htyp := Vfs.field_set VfsNode.type htype
  constructor
  case born => exact fun q c hc => hs.born q c (hchildren q ▸ hc)
  case unborn => exact fun q hq => (hchildren q).trans (hs.unborn q hq)
  case parent => exact fun q c hc => (hpar c).trans (hs.parent q c (hchildren q ▸ hc))
  case root => exact fun r hr => ⟨(hs.root r hr).1, (hpar r).trans (hs.root r hr).2⟩
  case pool => exact fun q i hc => (htyp q).trans (hs.pool q i (hchildren q ▸ hc))
  case payload =>
    intro k
    rw [Vfs.set_node]
    split
    · next he => exact hload k he.symm
    · exact hs.payload k

/-- A node that stands for a process comes from the pool. -/
theorem Vfs.Linked.pool_of_ofProcess (hs : s.Linked) (h : (s.node p).ofProcess) :
    ∃ i, p = .pool i := by
  cases p with
  | pool i => exact ⟨i, rfl⟩
  | heap k => simp [VfsNode.ofProcess, hs.payload k] at h

theorem Vfs.Linked.renamed (hs : s.Linked) (h : (s.node p).ofProcess) : (s.renamed p).Linked := by
  obtain ⟨i, rfl⟩ := hs.pool_of_ofProcess h
  exact hs.set rfl rfl rfl (fun k hk => nomatch hk)

theorem Vfs.Linked.pooled (hs : s.Linked) (hp : s.Born p) (htype : (s.node p).type = .procfs)
    (name : CStr) (payload : Nat) : (s.pooled p name payload).Linked :=
  s.hands_pool.linked hs hp rfl (fun _ hk => nomatch hk) (fun _ _ => htype)

theorem Vfs.Finds.linked {r : Option NodePtr} (h : s.Finds live p c r s') (hs : s.Linked)
    (hp : s.Born p) : s'.Linked ∧ ∀ m, r = some m → s'.Born m := by
  cases h with
  | search => exact ⟨hs, fun m hm => hs.born p m (Vfs.mem_of_childNamed hm).1⟩
  | status => exact ⟨hs, fun m hm => Option.some.inj hm ▸ hp⟩
  | cmdline htype h => exact ⟨hs.renamed h, fun m hm => Option.some.inj hm ▸ hp⟩
  | process htype =>
    refine ⟨hs.pooled hp htype _ _, fun m hm => ?_⟩
    cases hm
    exact (s.hands_pool.born _).mpr (Or.inr rfl)
  | fails => exact ⟨hs, fun m hm => nomatch hm⟩

/-- A lookup that succeeds goes the way `Finds` describes and no other. -/
theorem Vfs.Finds.resolveStep_eq (h : s.Finds live p c (some m) s') :
    resolveStep live s p c = (some m, s') := by
  generalize hr : some m = r at h
  have hproc : ∀ {q : NodePtr}, (s.node q).ofProcess ↔
      ((s.node q).payload % 256 = pfStatus ∨ (s.node q).payload % 256 = pfCmdline) := Iff.rfl
  cases h with
  | search h =>
    by_cases hp : (s.node p).type = .procfs
    · rw [resolveStep, if_pos hp, procfsResolve, if_neg (hproc.not.mp (h hp).1),
        if_pos (h hp).2]
    · rw [resolveStep, if_neg hp]
  | status hp h hc =>
    rw [resolveStep, if_pos hp, procfsResolve, if_pos (hproc.mp h), if_neg, if_pos hc]
    rw [hc]
    decide
  | cmdline hp h hc =>
    rw [resolveStep, if_pos hp, procfsResolve, if_pos (hproc.mp h), if_pos hc]
    rfl
  | process hp h hc hpid hlive hroom =>
    rw [resolveStep, if_pos hp, procfsResolve, if_neg (hproc.not.mp h), if_neg hc, hpid]
    dsimp only
    rw [if_neg hlive, makeNode, if_neg hroom]
    rfl
  | fails => cases hr

theorem Vfs.renamed_field {β : Type*} (g : VfsNode → β)
    (hg : ∀ node : VfsNode, ∀ name payload,
      g { node with name := name, payload := payload } = g node)
    (s : Vfs) (p x : NodePtr) : g ((s.renamed p).node x) = g (s.node x) := by
  rw [Vfs.renamed]
  exact Vfs.field_set g (hg _ _ _) x

/-- Renaming a process's node is not seen outside procfs. -/
theorem Vfs.Linked.childNamed_renamed (hs : s.Linked) (h : (s.node p).ofProcess) {x : NodePtr}
    (hx : (s.node x).type ≠ .procfs) (c : CStr) : (s.renamed p).childNamed x c = s.childNamed x c := by
  obtain ⟨i, rfl⟩ := hs.pool_of_ofProcess h
  apply Vfs.childNamed_congr
  · exact Vfs.renamed_field VfsNode.children (fun _ _ _ => rfl) s _ x
  · intro y hy
    rw [Vfs.renamed, Vfs.set_node, if_neg]
    rintro rfl
    exact hx (hs.pool x i hy)

theorem Vfs.Kept.renamed (hk : s.Kept t) (hs : s.Linked) (ht : t.Linked) (hp : s.Born p)
    (h : (s.node p).ofProcess) : (s.renamed p).Kept (t.renamed p) := by
  have hnode : ∀ x, s.Born x → (t.renamed p).node x =
      { (s.renamed p).node x with children := ((t.renamed p).node x).children } := by
    intro x hx
    rw [Vfs.renamed, Vfs.renamed, Vfs.set_node, Vfs.set_node, hk.node p hp]
    split
    · rfl
    · exact hk.node x hx
  have hkids : ∀ u : Vfs, ∀ x, ((u.renamed p).node x).children = (u.node x).children :=
    fun u x => Vfs.renamed_field VfsNode.children (fun _ _ _ => rfl) u p x
  have htype : ∀ u : Vfs, ∀ x, ((u.renamed p).node x).type = (u.node x).type :=
    fun u x => Vfs.renamed_field VfsNode.type (fun _ _ _ => rfl) u p x
  constructor
  case born => exact hk.born
  case root => exact hk.root
  case pool => exact hk.pool
  case node => exact hnode
  case procfs =>
    intro x hx hproc
    rw [hkids, hkids]
    exact hk.procfs x hx ((htype s x).symm.trans hproc)
  case found =>
    intro x c m hx hm
    by_cases hproc : (s.node x).type = .procfs
    · rw [← hm]
      apply Vfs.childNamed_congr
      · rw [hkids, hkids]
        exact hk.procfs x hx hproc
      · intro y hy
        rw [hkids] at hy
        rw [hnode y (hs.born x y hy)]
    · have hproc' : (t.node x).type ≠ .procfs := by rwa [hk.type hx]
      have h' : (t.node p).ofProcess := by
        rw [hk.node p hp]
        exact h
      rw [hs.childNamed_renamed h hproc] at hm
      rw [ht.childNamed_renamed h' hproc']
      exact hk.found x c m hx hm

theorem Vfs.Kept.pooled (hk : s.Kept t) (hs : s.Linked) (ht : t.Linked) (hp : s.Born p)
    (name : CStr) (payload : Nat) : (s.pooled p name payload).Kept (t.pooled p name payload) := by
  have hpt := hk.born p hp
  have hs' := s.hands_pool
  have ht' := t.hands_pool
  rw [hk.pool] at ht'
  have hpooled : t.pooled p name payload = (({ t with poolUsed := s.poolUsed + 1 }.set
      (.pool s.poolUsed) (poolNode name payload)).link p (.pool s.poolUsed)) := by
    rw [Vfs.pooled, hk.pool]
  have hsnode := hs'.node_insert hp (poolNode name payload)
  have htnode := ht'.node_insert hpt (poolNode name payload)
  rw [hpooled]
  constructor
  case born =>
    intro x hx
    rcases (hs'.born x).mp hx with hx | hx
    · exact (ht'.born x).mpr (Or.inl (hk.born x hx))
    · exact (ht'.born x).mpr (Or.inr hx)
  case root => exact hk.root
  case pool => rfl
  case node =>
    intro x hx
    rw [Vfs.pooled, hsnode, htnode]
    split
    · rw [hk.node p hp]
    · split
      · rfl
      · next hxp hxf => exact hk.node x (((hs'.born x).mp hx).resolve_right hxf)
  case procfs =>
    intro x hx hproc
    rw [Vfs.pooled, hsnode] at hproc
    rw [Vfs.pooled, hsnode, htnode]
    split
    · next he => rw [hk.procfs p hp (by simpa [he] using hproc)]
    · split
      · rfl
      · next hxp hxf =>
        rw [if_neg hxp, if_neg hxf] at hproc
        exact hk.procfs x (((hs'.born x).mp hx).resolve_right hxf) hproc
  case found =>
    intro x c m hx hm
    rcases (hs'.born x).mp hx with hx | rfl
    · rw [Vfs.pooled, hs'.childNamed_insert hs hp rfl hx] at hm
      rw [ht'.childNamed_insert ht hpt rfl (hk.born x hx)]
      split
      · next he => rwa [if_pos he] at hm
      · next he =>
        rw [if_neg he] at hm
        exact hk.found x c m hx hm
    · have hkids : ((s.pooled p name payload).node (.pool s.poolUsed)).children = [] := by
        rw [Vfs.pooled, hsnode, if_neg (hs'.ne hp).symm, if_pos rfl]
        rfl
      obtain ⟨hmem, _⟩ := Vfs.mem_of_childNamed hm
      rw [hkids] at hmem
      cases hmem

theorem Vfs.Finds.kept (h : s.Finds live p c (some m) s') (hk : s.Kept t) (hs : s.Linked)
    (ht : t.Linked) (hp : s.Born p) : ∃ t', t.Finds live p c (some m) t' ∧ s'.Kept t' := by
  have hnode := hk.node p hp
  have hof : (t.node p).ofProcess ↔ (s.node p).ofProcess := by
    rw [hnode]
    exact Iff.rfl
  generalize hr : some m = r at h
  cases h with
  | search h =>
    refine ⟨t, ?_, hk⟩
    have hfound := hk.found p c m hp hr.symm
    rw [← hr, ← hfound]
    exact .search fun htype => by
      rw [hk.type hp] at htype
      exact ⟨hof.not.mpr (h htype).1, (h htype).2⟩
  | status htype h hc =>
    exact ⟨t, .status ((hk.type hp).trans htype) (hof.mpr h) hc, hk⟩
  | cmdline htype h hc =>
    exact ⟨_, .cmdline ((hk.type hp).trans htype) (hof.mpr h) hc, hk.renamed hs ht hp h⟩
  | process htype h hc hpid hlive hroom =>
    have hmade := Vfs.Finds.process ((hk.type hp).trans htype) (hof.not.mpr h) hc hpid hlive
      (by rwa [hk.pool])
    rw [hk.pool] at hmade
    exact ⟨_, hmade, hk.pooled hs ht hp _ _⟩
  | fails => cases hr

/-- A walk that succeeds succeeds in every tree that keeps what is found. -/
theorem walk_kept (hk : s.Kept t) (hs : s.Linked) (ht : t.Linked) (hp : s.Born p)
    (h : (walk live s p cs).1 = some n) : (walk live t p cs).1 = some n := by
  induction cs generalizing s t p with
  | nil => exact h
  | cons c cs ih =>
    have hfinds := resolveStep_finds live s p c
    rw [walk] at h
    generalize resolveStep live s p c = r at h hfinds
    obtain ⟨found, s'⟩ := r
    cases found with
    | none => cases h
    | some m =>
      obtain ⟨t', hfinds', hk'⟩ := hfinds.kept hk hs ht hp
      obtain ⟨hs', hm⟩ := hfinds.linked hs hp
      obtain ⟨ht', _⟩ := hfinds'.linked ht (hk.born p hp)
      rw [walk, hfinds'.resolveStep_eq]
      exact ih hk' hs' ht' (hm m rfl) h

end Mmix.Fs
