import Mmix.Fs.Lookup

/-!
# The tree in memory

What holds of the nodes `vfs.c` and `procfs.c` link together: children are
allocated nodes, a child's parent pointer is the node whose chain holds it, the
root is nobody's child, and the pool of procfs is used below procfs nodes only.
New nodes enter the tree in one way, in front of the children of a node that is
already there.
-/

namespace Mmix.Fs

open Split Option

variable {s s' t : Vfs} {p f n : NodePtr} {node : VfsNode} {cs : List CStr}

/-- The node has been handed out. -/
def Vfs.Born (s : Vfs) : NodePtr → Prop
  | .heap k => k < s.allocs
  | .pool i => i < s.poolUsed

/-- The nodes form a tree. -/
structure Vfs.Linked (s : Vfs) : Prop where
  born : ∀ p, ∀ c ∈ (s.node p).children, s.Born c
  unborn : ∀ p, ¬ s.Born p → (s.node p).children = []
  parent : ∀ p, ∀ c ∈ (s.node p).children, (s.node c).parent = some p
  root : ∀ r, s.root = some r → s.Born r ∧ (s.node r).parent = none
  pool : ∀ p i, NodePtr.pool i ∈ (s.node p).children → (s.node p).type = .procfs
  payload : ∀ k, (s.node (.heap k)).payload = 0

theorem Vfs.Linked.lookup_born (h : s.Linked) (hp : s.Born p)
    (hn : s.lookup p cs = some n) : s.Born n := by
  induction cs generalizing p with
  | nil => exact some.inj hn ▸ hp
  | cons c cs ih =>
    obtain ⟨m, hm, hrest⟩ := bind_eq_some_iff.mp hn
    exact ih (h.born p m (Vfs.mem_of_childNamed hm).1) hrest

/-! ### Writing and inserting nodes -/

theorem Vfs.set_node (s : Vfs) (p : NodePtr) (node : VfsNode) (x : NodePtr) :
    (s.set p node).node x = if x = p then node else s.node x :=
  Function.update_apply ..

/-- A field that is written back unchanged is unchanged everywhere. -/
theorem Vfs.field_set {β : Type*} (g : VfsNode → β) (h : g node = g (s.node p)) (x : NodePtr) :
    g ((s.set p node).node x) = g (s.node x) := by
  rw [Vfs.set_node]
  split
  · next he => rw [he, h]
  · rfl

theorem Vfs.link_set_node (t : Vfs) (hpf : p ≠ f) (node : VfsNode) (x : NodePtr) :
    ((t.set f node).link p f).node x =
      if x = p then { t.node p with children := f :: (t.node p).children }
      else if x = f then { node with parent := some p }
      else t.node x := by
  simp only [Vfs.link, Vfs.set, Function.update_apply, if_neg hpf, if_true]
  split
  · rfl
  · split
    · rfl
    · rfl

/-- `t` is `s` with the pointer `f` handed out. -/
structure Vfs.Hands (s t : Vfs) (f : NodePtr) : Prop where
  node : t.node = s.node
  root : t.root = s.root
  born : ∀ x, t.Born x ↔ s.Born x ∨ x = f
  fresh : ¬ s.Born f

/-- The allocator was asked once more. -/
def Vfs.asked (s : Vfs) : Vfs := { s with allocs := s.allocs + 1 }

theorem Vfs.hands_heap (s : Vfs) : s.Hands s.asked (.heap s.allocs) where
  node := rfl
  root := rfl
  born := by
    rintro (k | i)
    · simp only [Vfs.asked, Vfs.Born, NodePtr.heap.injEq]
      omega
    · simp [Vfs.asked, Vfs.Born]
  fresh := Nat.lt_irrefl _

theorem Vfs.hands_pool (s : Vfs) :
    s.Hands { s with poolUsed := s.poolUsed + 1 } (.pool s.poolUsed) where
  node := rfl
  root := rfl
  born := by
    rintro (k | i)
    · simp [Vfs.Born]
    · simp only [Vfs.Born, NodePtr.pool.injEq]
      omega
  fresh := Nat.lt_irrefl _

theorem Vfs.Hands.ne (h : s.Hands t f) (hp : s.Born p) : p ≠ f :=
  fun he => h.fresh (he ▸ hp)

/-- The nodes after a fresh one was linked in. -/
theorem Vfs.Hands.node_insert (h : s.Hands t f) (hp : s.Born p) (node : VfsNode) (x : NodePtr) :
    ((t.set f node).link p f).node x =
      if x = p then { s.node p with children := f :: (s.node p).children }
      else if x = f then { node with parent := some p }
      else s.node x := by
  rw [Vfs.link_set_node t (h.ne hp), h.node]

theorem Vfs.Hands.children_insert (h : s.Hands t f) (hp : s.Born p)
    (hnode : node.children = []) (x : NodePtr) :
    (((t.set f node).link p f).node x).children =
      if x = p then f :: (s.node p).children else if x = f then [] else (s.node x).children := by
  rw [h.node_insert hp]
  split
  · rfl
  · split
    · exact hnode
    · rfl

/-- Apart from its children a node that was there stays as it is. -/
theorem Vfs.Hands.node_insert_of_born (h : s.Hands t f) (hp : s.Born p) {x : NodePtr}
    (hx : s.Born x) :
    ((t.set f node).link p f).node x =
      { s.node x with children := (((t.set f node).link p f).node x).children } := by
  rw [h.node_insert hp]
  split
  · next he => rw [he]
  · rw [if_neg (h.ne hx)]

theorem Vfs.Hands.linked (h : s.Hands t f) (hs : s.Linked) (hp : s.Born p)
    (hnode : node.children = []) (hload : ∀ k, f = .heap k → node.payload = 0)
    (hpool : ∀ i, f = .pool i → (s.node p).type = .procfs) :
    ((t.set f node).link p f).Linked := by
  have hborn : ∀ x, ((t.set f node).link p f).Born x ↔ s.Born x ∨ x = f := h.born
  have hkids := h.children_insert hp hnode
  have hkeep : ∀ x, s.Born x → ((t.set f node).link p f).node x =
      { s.node x with children := (((t.set f node).link p f).node x).children } :=
    fun x hx => h.node_insert_of_born hp hx
  constructor
  case born =>
    intro q c hc
    rw [hkids q] at hc
    rw [hborn]
    split at hc
    · rcases List.mem_cons.mp hc with rfl | hc
      · exact Or.inr rfl
      · exact Or.inl (hs.born p c hc)
    · split at hc
      · cases hc
      · exact Or.inl (hs.born q c hc)
  case unborn =>
    intro q hq
    obtain ⟨hq, hne⟩ := not_or.mp (fun h => hq ((hborn q).mpr h))
    rw [hkids q, if_neg (fun he : q = p => hq (he ▸ hp)), if_neg hne]
    exact hs.unborn q hq
  case parent =>
    intro q c hc
    rw [hkids q] at hc
    split at hc
    · next he =>
      subst he
      rcases List.mem_cons.mp hc with rfl | hc
      · rw [h.node_insert hp, if_neg (h.ne hp).symm, if_pos rfl]
      · rw [hkeep c (hs.born q c hc)]
        exact hs.parent q c hc
    · split at hc
      · cases hc
      · rw [hkeep c (hs.born q c hc)]
        exact hs.parent q c hc
  case root =>
    intro r hr
    obtain ⟨hbr, hpar⟩ := hs.root r (h.root ▸ hr)
    refine ⟨(hborn r).mpr (Or.inl hbr), ?_⟩
    rw [hkeep r hbr]
    exact hpar
  case pool =>
    intro q i hc
    rw [hkids q] at hc
    split at hc
    · next he =>
      rw [he, hkeep p hp]
      rcases List.mem_cons.mp hc with hf | hc
      · exact hpool i hf.symm
      · exact hs.pool p i hc
    · next hqp =>
      split at hc
      · cases hc
      · next hqf =>
        rw [h.node_insert hp, if_neg hqp, if_neg hqf]
        exact hs.pool q i hc
  case payload =>
    intro k
    rw [h.node_insert hp]
    split
    · next he => exact he ▸ hs.payload k
    · split
      · next he => exact hload k he.symm
      · exact hs.payload k

theorem find?_congr {α : Type*} {P Q : α → Bool} {l : List α} (h : ∀ x ∈ l, P x = Q x) :
    l.find? P = l.find? Q := by
  induction l with
  | nil => rfl
  | cons x l ih =>
    rw [List.find?_cons, List.find?_cons, h x List.mem_cons_self,
      ih fun y hy => h y (List.mem_cons_of_mem x hy)]

/-- Chains with the same nodes under the same names are searched alike. -/
theorem Vfs.childNamed_congr {x : NodePtr} (hkids : (t.node x).children = (s.node x).children)
    (hnames : ∀ c ∈ (s.node x).children, (t.node c).name = (s.node c).name) (name : CStr) :
    t.childNamed x name = s.childNamed x name := by
  rw [Vfs.childNamed, Vfs.childNamed, hkids]
  apply find?_congr
  intro c hc
  rw [hnames c hc]

/-- The search after a fresh node was linked in. -/
theorem Vfs.Hands.childNamed_insert (h : s.Hands t f) (hs : s.Linked) (hp : s.Born p)
    (hnode : node.children = []) {x : NodePtr} (hx : s.Born x) (name : CStr) :
    ((t.set f node).link p f).childNamed x name =
      if x = p ∧ node.name = name then some f else s.childNamed x name := by
  have hnames : ∀ c ∈ (s.node x).children,
      (((t.set f node).link p f).node c).name = (s.node c).name := by
    intro c hc
    rw [h.node_insert_of_born hp (hs.born x c hc)]
  have hkids := h.children_insert hp hnode x
  by_cases hxp : x = p
  · subst hxp
    have hf : (((t.set f node).link x f).node f).name = node.name := by
      rw [h.node_insert hp, if_neg (h.ne hp).symm, if_pos rfl]
    rw [if_pos rfl] at hkids
    rw [Vfs.childNamed, hkids, List.find?_cons, hf]
    by_cases hname : node.name = name
    · simp [hname]
    · simp only [hname, decide_false, and_false, if_false]
      apply find?_congr
      intro c hc
      rw [hnames c hc]
  · rw [if_neg hxp, if_neg (h.ne hx)] at hkids
    rw [if_neg (fun he => hxp he.1)]
    exact Vfs.childNamed_congr hkids hnames name

/-! ### The first node -/

theorem Vfs.blank_linked (grants : Nat → Bool) : (Vfs.blank grants).Linked where
  born := fun _ _ hc => nomatch hc
  unborn := fun _ _ => rfl
  parent := fun _ _ hc => nomatch hc
  root := fun _ hr => nomatch hr
  pool := fun _ _ hc => nomatch hc
  payload := fun _ => rfl

/-- Writing a node that was just handed out. -/
theorem Vfs.Hands.set_linked (h : s.Hands t f) (hs : s.Linked) (hnode : node.children = [])
    (hload : ∀ k, f = .heap k → node.payload = 0) : (t.set f node).Linked := by
  have hkids : ∀ x, ((t.set f node).node x).children = (s.node x).children := by
    intro x
    rw [Vfs.set_node, h.node]
    split
    · next he => rw [he, hnode, hs.unborn f h.fresh]
    · rfl
  have hkeep : ∀ x, s.Born x → (t.set f node).node x = s.node x := by
    intro x hx
    rw [Vfs.set_node, if_neg (h.ne hx), h.node]
  constructor
  case born => exact fun p c hc => (h.born c).mpr (Or.inl (hs.born p c (hkids p ▸ hc)))
  case unborn =>
    exact fun p hp => (hkids p).trans (hs.unborn p fun hb => hp ((h.born p).mpr (Or.inl hb)))
  case parent =>
    intro p c hc
    rw [hkids] at hc
    rw [hkeep c (hs.born p c hc)]
    exact hs.parent p c hc
  case root =>
    intro r hr
    obtain ⟨hbr, hpar⟩ := hs.root r (h.root ▸ hr)
    refine ⟨(h.born r).mpr (Or.inl hbr), ?_⟩
    rw [hkeep r hbr]
    exact hpar
  case pool =>
    intro p i hc
    rw [hkids] at hc
    have hp : s.Born p := by
      by_contra hno
      rw [hs.unborn p hno] at hc
      cases hc
    rw [hkeep p hp]
    exact hs.pool p i hc
  case payload =>
    intro k
    rw [Vfs.set_node, h.node]
    split
    · next he => exact hload k he.symm
    · exact hs.payload k

theorem Vfs.Linked.withRoot (hs : s.Linked) (hp : s.Born p) (hparent : (s.node p).parent = none) :
    { s with root := some p }.Linked :=
  { hs with root := fun _ hr => some.inj hr ▸ ⟨hp, hparent⟩ }

theorem Vfs.Linked.asked (hs : s.Linked) : s.asked.Linked where
  born := fun p c hc => (s.hands_heap.born c).mpr (Or.inl (hs.born p c hc))
  unborn := fun p hp => hs.unborn p fun h => hp ((s.hands_heap.born p).mpr (Or.inl h))
  parent := hs.parent
  root := fun r hr => ⟨(s.hands_heap.born r).mpr (Or.inl (hs.root r hr).1), (hs.root r hr).2⟩
  pool := hs.pool
  payload := hs.payload

theorem vfsInit_linked (hs : s.Linked) : (vfsInit s).Linked := by
  rw [vfsInit, vfsCreateNode]
  by_cases hg : s.grants s.allocs
  · rw [if_pos hg]
    apply Vfs.Linked.withRoot
    · exact s.hands_heap.set_linked hs rfl (fun _ _ => rfl)
    · exact (s.hands_heap.born _).mpr (Or.inr rfl)
    · rw [Vfs.set_node, if_pos rfl]
  · rw [if_neg hg]
    exact { hs.asked with root := fun _ hr => nomatch hr }

/-! ### Trees that agree -/

/-- What is found in `s` is found in `s'`, and procfs is as it was. -/
structure Vfs.Kept (s s' : Vfs) : Prop where
  born : ∀ x, s.Born x → s'.Born x
  root : s'.root = s.root
  pool : s'.poolUsed = s.poolUsed
  node : ∀ x, s.Born x → s'.node x = { s.node x with children := (s'.node x).children }
  procfs : ∀ x, s.Born x → (s.node x).type = .procfs →
    (s'.node x).children = (s.node x).children
  found : ∀ x name m, s.Born x → s.childNamed x name = some m → s'.childNamed x name = some m

theorem Vfs.Kept.refl (s : Vfs) : s.Kept s where
  born := fun _ h => h
  root := rfl
  pool := rfl
  node := fun _ _ => rfl
  procfs := fun _ _ _ => rfl
  found := fun _ _ _ _ h => h

theorem Vfs.Kept.type (h : s.Kept t) {x : NodePtr} (hx : s.Born x) :
    (t.node x).type = (s.node x).type := by
  rw [h.node x hx]

theorem Vfs.Kept.trans {u : Vfs} (h : s.Kept t) (h' : t.Kept u) : s.Kept u where
  born := fun x hx => h'.born x (h.born x hx)
  root := h'.root.trans h.root
  pool := h'.pool.trans h.pool
  node := by
    intro x hx
    rw [h'.node x (h.born x hx), h.node x hx]
  procfs := by
    intro x hx htype
    rw [h'.procfs x (h.born x hx) ((h.type hx).trans htype), h.procfs x hx htype]
  found := fun x name m hx hm => h'.found x name m (h.born x hx) (h.found x name m hx hm)

theorem Vfs.Kept.lookup (h : s.Kept t) (hs : s.Linked) (hp : s.Born p)
    (hn : s.lookup p cs = some n) : t.lookup p cs = some n := by
  induction cs generalizing p with
  | nil => exact hn
  | cons c cs ih =>
    obtain ⟨m, hm, hrest⟩ := bind_eq_some_iff.mp hn
    apply bind_eq_some_iff.mpr
    exact ⟨m, h.found p c m hp hm, ih (hs.born p m (Vfs.mem_of_childNamed hm).1) hrest⟩

theorem Vfs.Kept.avoids {bad : VfsType → Prop} (h : s.Kept t) (hs : s.Linked) (hp : s.Born p)
    (hn : s.lookup p cs = some n) (hout : s.Avoids bad p cs) : t.Avoids bad p cs := by
  intro front x back m hcs hm
  have hback : (s.lookup p front).bind (fun y => s.lookup y (x :: back)) = some n := by
    rw [← Vfs.lookup_append, ← hcs, hn]
  obtain ⟨y, hy, _⟩ := bind_eq_some_iff.mp hback
  obtain rfl := some.inj ((h.lookup hs hp hy).symm.trans hm)
  rw [h.type (hs.lookup_born hp hy)]
  exact hout front x back y hcs hy

end Mmix.Fs
