import Mmix.Fs.Ext2Dir

/-!
# Termination of the directory walks

Each walk over a directory is a cursor that moves by `rec_len`. A path is
resolved by a walk for each of its components, and a listing walks the
directory it ends in once more from end to end.
-/

namespace Mmix.Fs

open Split Cursor Option

variable {fs : Ext2} {d : Device} {dinode : Ext2Inode} {name : CStr} {off : Nat}

/-! ### One directory -/

/-- Where the lookup of a name goes on after an offset, if it does. -/
def lookupNext (fs : Ext2) (d : Device) (dinode : Ext2Inode) (name : CStr) (off : Nat) :
    Option Nat :=
  match direntAt fs d dinode off with
  | none => none
  | some ent =>
    if ent.inode = 0 then some (off + ent.recLen)
    else
      match direntName fs d dinode off ent with
      | none => none
      | some found => if found = name then none else some (off + ent.recLen)

/-- Where a listing goes on after an offset. -/
def listNext (fs : Ext2) (d : Device) (dinode : Ext2Inode) (off : Nat) : Option Nat :=
  (direntAt fs d dinode off).map fun ent => off + ent.recLen

theorem direntAt_lt {ent : Dirent} (h : direntAt fs d dinode off = some ent) :
    off < dinode.size := by
  by_contra hno
  rw [direntAt, if_neg hno] at h
  cases h

theorem lookupNext_of_some {b : Nat} (h : lookupNext fs d dinode name off = some b) :
    ∃ ent, direntAt fs d dinode off = some ent ∧ b = off + ent.recLen := by
  rw [lookupNext] at h
  cases hent : direntAt fs d dinode off with
  | none =>
    rw [hent] at h
    cases h
  | some ent =>
    refine ⟨ent, rfl, ?_⟩
    rw [hent] at h
    dsimp only at h
    split at h
    · exact (some.inj h).symm
    · split at h
      · cases h
      · split at h
        · cases h
        · exact (some.inj h).symm

/-- A pass of the lookup ends the walk or moves its cursor. -/
theorem dirLookupLoop_succ (passes : Nat) (off : Nat) :
    dirLookupLoop fs d dinode name (passes + 1) off =
      match lookupNext fs d dinode name off with
      | some b => dirLookupLoop fs d dinode name passes b
      | none =>
        some <| (direntAt fs d dinode off).bind fun ent =>
          if direntName fs d dinode off ent = some name ∧ ent.inode ≠ 0 then
            some (ent.inode, ent.fileType)
          else none := by
  rw [dirLookupLoop, lookupNext]
  cases direntAt fs d dinode off with
  | none => rfl
  | some ent =>
    dsimp only
    by_cases h0 : ent.inode = 0
    · simp only [if_pos h0]
    · simp only [if_neg h0]
      cases hname : direntName fs d dinode off ent with
      | none => simp [hname]
      | some found =>
        dsimp only
        by_cases hfound : found = name
        · simp [hfound, hname, h0]
        · simp [hfound]

theorem dirLookupLoop_isSome (passes : Nat) :
    (dirLookupLoop fs d dinode name passes off).isSome ↔
      StopsIn (lookupNext fs d dinode name) passes off := by
  induction passes generalizing off with
  | zero => simp [dirLookupLoop, StopsIn]
  | succ passes ih =>
    rw [dirLookupLoop_succ]
    cases hnext : lookupNext fs d dinode name off with
    | none => simp [stopsIn_of_none hnext]
    | some b => exact ih.trans (stopsIn_of_some hnext).symm

theorem dirLookupLoop_terminates_iff :
    (∃ passes, (dirLookupLoop fs d dinode name passes 0).isSome) ↔
      ∀ b, Reaches (lookupNext fs d dinode name) 0 b → lookupNext fs d dinode name b ≠ some b := by
  simp only [dirLookupLoop_isSome]
  apply stops_iff dinode.size
  · intro a b h
    obtain ⟨ent, _, rfl⟩ := lookupNext_of_some h
    exact Nat.le_add_right a ent.recLen
  · intro a b h
    obtain ⟨ent, hent, _⟩ := lookupNext_of_some h
    exact direntAt_lt hent

theorem dirLookupLoop_mono {passes : Nat} {r : Option (Nat × UInt8)}
    (h : dirLookupLoop fs d dinode name passes off = some r) :
    dirLookupLoop fs d dinode name (passes + 1) off = some r := by
  induction passes generalizing off with
  | zero => cases h
  | succ passes ih =>
    rw [dirLookupLoop_succ] at h ⊢
    cases hnext : lookupNext fs d dinode name off with
    | none =>
      rw [hnext] at h
      exact h
    | some b =>
      rw [hnext] at h
      exact ih h

/-- The entry of the name on the way of the lookup. -/
def NamedAt (fs : Ext2) (d : Device) (dinode : Ext2Inode) (name : CStr) (off ino : Nat) : Prop :=
  ∃ ent, direntAt fs d dinode off = some ent ∧ direntName fs d dinode off ent = some name ∧
    ent.inode = ino ∧ ino ≠ 0

theorem NamedAt.stops {ino : Nat} (h : NamedAt fs d dinode name off ino) :
    lookupNext fs d dinode name off = none := by
  obtain ⟨ent, hent, hname, rfl, h0⟩ := h
  simp [lookupNext, hent, h0, hname]

/-- What a finished lookup returns is the first entry of the name on its way. -/
theorem dirLookupLoop_found_iff {passes a ino : Nat} {r : Option (Nat × UInt8)}
    (h : dirLookupLoop fs d dinode name passes a = some r) :
    r.map Prod.fst = some ino ↔
      ∃ b, Reaches (lookupNext fs d dinode name) a b ∧ NamedAt fs d dinode name b ino := by
  induction passes generalizing a with
  | zero => cases h
  | succ passes ih =>
    rw [dirLookupLoop_succ] at h
    cases hnext : lookupNext fs d dinode name a with
    | some b =>
      rw [hnext] at h
      rw [ih h]
      constructor
      · rintro ⟨c, hbc, hc⟩
        exact ⟨c, .head hnext hbc, hc⟩
      · rintro ⟨c, hac, hc⟩
        rcases Relation.ReflTransGen.cases_head hac with rfl | ⟨b', hb', hrest⟩
        · rw [hc.stops] at hnext
          cases hnext
        · obtain rfl := some.inj (hnext.symm.trans hb')
          exact ⟨c, hrest, hc⟩
    | none =>
      rw [hnext] at h
      cases h
      constructor
      · intro hr
        refine ⟨a, .refl, ?_⟩
        cases hent : direntAt fs d dinode a with
        | none => simp [hent] at hr
        | some ent =>
          simp only [hent, bind_some] at hr
          split at hr
          · next hcond =>
            exact ⟨ent, hent, hcond.1, by simpa using hr, by
              simpa [show ino = ent.inode by simpa using hr.symm] using hcond.2⟩
          · cases hr
      · rintro ⟨b, hab, hb⟩
        obtain rfl : a = b := by
          rcases Relation.ReflTransGen.cases_head hab with rfl | ⟨c, hc, _⟩
          · rfl
          · rw [hnext] at hc
            cases hc
        obtain ⟨ent, hent, hname, hino, h0⟩ := hb
        simp [hent, hname, hino, h0]

/-! ### Listings -/

/-- The walk of a listing comes to no entry with a `rec_len` of zero. -/
def ListClear (fs : Ext2) (d : Device) (ino : Nat) : Prop :=
  ∀ dinode, (readInode fs d ino).val = some dinode → dinode.isDir →
    ∀ b, Reaches (listNext fs d dinode) 0 b → listNext fs d dinode b ≠ some b

theorem countLoop_isSome (passes count : Nat) :
    (countLoop fs d dinode passes off count).isSome ↔ StopsIn (listNext fs d dinode) passes off := by
  induction passes generalizing off count with
  | zero => simp [countLoop, StopsIn]
  | succ passes ih =>
    cases hent : direntAt fs d dinode off with
    | none =>
      have hnext : listNext fs d dinode off = none := by rw [listNext, hent]; rfl
      simp [countLoop, hent, stopsIn_of_none hnext]
    | some ent =>
      have hnext : listNext fs d dinode off = some (off + ent.recLen) := by
        rw [listNext, hent]
        rfl
      simp only [countLoop, hent]
      exact (ih _).trans (stopsIn_of_some hnext).symm

/-- The second walk stops no later than the first. -/
theorem fillLoop_isSome {passes : Nat} (h : StopsIn (listNext fs d dinode) passes off)
    (room : Nat) : (fillLoop fs d dinode passes off room).isSome := by
  induction passes generalizing off room with
  | zero => exact h.elim
  | succ passes ih =>
    rw [fillLoop]
    split
    · rfl
    · cases hent : direntAt fs d dinode off with
      | none => rfl
      | some ent =>
        have hnext : listNext fs d dinode off = some (off + ent.recLen) := by
          rw [listNext, hent]
          rfl
        have hrest := (stopsIn_of_some hnext).mp h
        dsimp only
        split
        · exact ih hrest room
        · rw [isSome_map]
          exact ih hrest (room - 1)

theorem countLoop_terminates_iff (count : Nat) :
    (∃ passes, (countLoop fs d dinode passes 0 count).isSome) ↔
      ∀ b, Reaches (listNext fs d dinode) 0 b → listNext fs d dinode b ≠ some b := by
  simp only [countLoop_isSome]
  apply stops_iff dinode.size
  · intro a b h
    obtain ⟨ent, _, rfl⟩ := map_eq_some_iff.mp h
    exact Nat.le_add_right a ent.recLen
  · intro a b h
    obtain ⟨ent, hent, _⟩ := map_eq_some_iff.mp h
    exact direntAt_lt hent

theorem listInode_isSome (passes ino : Nat) :
    (listInode passes fs d ino).isSome ↔ ino = 0 ∨
      ∀ dinode, (readInode fs d ino).val = some dinode → dinode.isDir →
        StopsIn (listNext fs d dinode) passes 0 := by
  rw [listInode]
  by_cases h0 : ino = 0
  · simp [h0]
  · rw [if_neg h0]
    cases hread : (readInode fs d ino).val with
    | none => simp
    | some dinode =>
      dsimp only
      by_cases hdir : dinode.isDir
      · have hiff : (countLoop fs d dinode passes 0 0).isSome ↔
            StopsIn (listNext fs d dinode) passes 0 := countLoop_isSome passes 0
        rw [if_pos hdir]
        cases hcount : countLoop fs d dinode passes 0 0 with
        | none =>
          rw [hcount] at hiff
          simp [h0, hdir, ← hiff]
        | some count =>
          rw [hcount] at hiff
          have hstops : StopsIn (listNext fs d dinode) passes 0 := hiff.mp rfl
          refine iff_of_true ?_ (Or.inr ?_)
          · dsimp only
            split
            · rw [isSome_map]
              exact fillLoop_isSome hstops count
            · rfl
          · rintro _ ⟨⟩ _
            exact hstops
      · simp [hdir]

theorem listInode_terminates_iff (ino : Nat) :
    (∃ passes, (listInode passes fs d ino).isSome) ↔ ino = 0 ∨ ListClear fs d ino := by
  simp only [listInode_isSome]
  by_cases h0 : ino = 0
  · simp [h0]
  · simp only [h0, false_or, ListClear]
    cases hread : (readInode fs d ino).val with
    | none => simp
    | some dinode =>
      have hstop : (∃ passes, (countLoop fs d dinode passes 0 0).isSome) ↔
          ∀ b, Reaches (listNext fs d dinode) 0 b → listNext fs d dinode b ≠ some b :=
        countLoop_terminates_iff 0
      simp only [countLoop_isSome] at hstop
      by_cases hdir : dinode.isDir
      · simpa [hdir] using hstop
      · simp [hdir]

/-! ### Paths -/

/-- The lookup of a name comes to no other entry with a `rec_len` of zero. -/
def LookupClear (fs : Ext2) (d : Device) (ino : Nat) (name : CStr) : Prop :=
  ∀ dinode, (readInode fs d ino).val = some dinode → dinode.isDir →
    ∀ b, Reaches (lookupNext fs d dinode name) 0 b → lookupNext fs d dinode name b ≠ some b

/-- The directory has the name, and its entry gives the inode. -/
def Leads (fs : Ext2) (d : Device) (ino : Nat) (name : CStr) (ino' : Nat) : Prop :=
  ∃ dinode, (readInode fs d ino).val = some dinode ∧ dinode.isDir ∧
    ∃ b, Reaches (lookupNext fs d dinode name) 0 b ∧ NamedAt fs d dinode name b ino'

theorem dirLookupCallback_terminates_iff (ino : Nat) (name : CStr) :
    (∃ passes, (dirLookupCallback passes fs d ino name).isSome) ↔ LookupClear fs d ino name := by
  simp only [dirLookupCallback, LookupClear]
  cases hread : (readInode fs d ino).val with
  | none => simp
  | some dinode =>
    by_cases hdir : dinode.isDir
    · simpa [hdir] using dirLookupLoop_terminates_iff
    · simp [hdir]

theorem dirLookupCallback_mono {passes ino : Nat} {r : Option (Nat × UInt8)}
    (h : dirLookupCallback passes fs d ino name = some r) :
    dirLookupCallback (passes + 1) fs d ino name = some r := by
  rw [dirLookupCallback] at h ⊢
  cases hread : (readInode fs d ino).val with
  | none => simpa [hread] using h
  | some dinode =>
    simp only [hread] at h ⊢
    by_cases hdir : dinode.isDir
    · rw [if_pos hdir] at h ⊢
      exact dirLookupLoop_mono h
    · rw [if_neg hdir] at h ⊢
      exact h

theorem dirLookupCallback_found_iff {passes ino ino' : Nat} {r : Option (Nat × UInt8)}
    (h : dirLookupCallback passes fs d ino name = some r) :
    r.map Prod.fst = some ino' ↔ Leads fs d ino name ino' := by
  rw [dirLookupCallback] at h
  cases hread : (readInode fs d ino).val with
  | none =>
    simp only [hread] at h
    cases h
    simp [Leads, hread]
  | some dinode =>
    simp only [hread] at h
    by_cases hdir : dinode.isDir
    · rw [if_pos hdir] at h
      rw [dirLookupLoop_found_iff h]
      simp [Leads, hread, hdir]
    · rw [if_neg hdir] at h
      cases h
      simp [Leads, hread, hdir]

/-- `resolve_path` on the components already cut. -/
def resolveNames (passes : Nat) (fs : Ext2) (d : Device) : Nat → List CStr → Option Nat
  | ino, [] => some ino
  | ino, c :: cs =>
    if c = ascii "." then resolveNames passes fs d ino cs
    else if c = ascii ".." then
      match (readInode fs d ino).val with
      | none => some 0
      | some _ => resolveNames passes fs d ext2RootIno cs
    else
      match dirLookupCallback passes fs d ino c with
      | none => none
      | some none => some 0
      | some (some (next, _)) => resolveNames passes fs d next cs

/-- A path is looked up without meeting a `rec_len` of zero, and the inode it
ends in has a property. -/
def PathClear (fs : Ext2) (d : Device) (Q : Nat → Prop) : Nat → List CStr → Prop
  | ino, [] => Q ino
  | ino, c :: cs =>
    if c = ascii "." then PathClear fs d Q ino cs
    else if c = ascii ".." then
      ∀ inode, (readInode fs d ino).val = some inode → PathClear fs d Q ext2RootIno cs
    else
      LookupClear fs d ino c ∧ ∀ next, Leads fs d ino c next → PathClear fs d Q next cs

/-- The loop of `resolve_path` goes along the components of the path, the longer
ones in pieces of 255 bytes. -/
theorem resolvePathLoop_eq (passes turns ino : Nat) (path : CStr) (hlen : path.length ≤ turns) :
    resolvePathLoop passes fs d turns ino path =
      resolveNames passes fs d ino (pieces slash 255 path) := by
  induction turns generalizing ino path with
  | zero =>
    obtain rfl := List.eq_nil_of_length_eq_zero (Nat.le_zero.mp hlen)
    rfl
  | succ turns ih =>
    have hshort : (path.dropWhile (· = slash)).length ≤ turns + 1 :=
      Nat.le_trans (List.dropWhile_sublist _).length_le hlen
    have hnil := @scan_dropWhile_eq_nil _ _ slash 255 (by decide) path
    rw [resolvePathLoop, ← pieces_dropWhile, pieces_scan (by decide), pieces_skip]
    obtain ⟨happ, -⟩ := scan_spec slash 255 (path.dropWhile (· = slash))
    generalize path.dropWhile (· = slash) = rest at *
    rcases hscan : scan slash 255 rest with ⟨c, after⟩
    simp only [hscan] at hnil happ ⊢
    by_cases hc : c = []
    · obtain rfl := hnil.mp hc
      obtain ⟨-, rfl⟩ := List.append_eq_nil_iff.mp happ.symm
      rw [if_pos hc, if_pos hc]
      rfl
    · have hafter : after.length ≤ turns := by
        have := List.length_pos_of_ne_nil hc
        rw [happ, List.length_append] at hshort
        omega
      rw [if_neg hc, if_neg hc, List.singleton_append, resolveNames]
      by_cases hdot : c = ascii "."
      · rw [if_pos hdot, if_pos hdot]
        exact ih _ _ hafter
      rw [if_neg hdot, if_neg hdot]
      by_cases hup : c = ascii ".."
      · rw [if_pos hup, if_pos hup]
        cases (readInode fs d ino).val with
        | none => rfl
        | some _ => exact ih _ _ hafter
      rw [if_neg hup, if_neg hup]
      rcases dirLookupCallback passes fs d ino c with _ | _ | ⟨next, _⟩
      · rfl
      · rfl
      · exact ih _ _ hafter

section Continuation

variable {β : Type} {F : Nat → Nat → Option β} {Q : Nat → Prop}

/-- More passes do not undo a resolution and what follows it. -/
theorem resolveNames_bind_monotone (hmono : ∀ i, Monotone fun k => (F k i).isSome = true)
    (ino : Nat) (cs : List CStr) :
    Monotone fun k => ((resolveNames k fs d ino cs).bind (F k)).isSome = true := by
  induction cs generalizing ino with
  | nil => exact hmono ino
  | cons c cs ih =>
    simp only [resolveNames]
    by_cases hdot : c = ascii "."
    · simpa only [if_pos hdot] using ih ino
    simp only [if_neg hdot]
    by_cases hup : c = ascii ".."
    · simp only [if_pos hup]
      cases (readInode fs d ino).val with
      | none => exact hmono 0
      | some _ => exact ih ext2RootIno
    simp only [if_neg hup]
    refine monotone_nat_of_le_succ fun k hk => ?_
    cases hlook : dirLookupCallback k fs d ino c with
    | none => simp [hlook] at hk
    | some r =>
      rw [hlook] at hk
      rw [dirLookupCallback_mono hlook]
      rcases r with _ | ⟨next, _⟩
      · exact hmono 0 (Nat.le_succ k) hk
      · exact ih next (Nat.le_succ k) hk

/-- A resolution and what follows it end exactly when every lookup on the way
ends, and what follows ends at the inode found. -/
theorem resolveNames_bind_terminates_iff (hmono : ∀ i, Monotone fun k => (F k i).isSome = true)
    (hzero : ∃ k, (F k 0).isSome) (hQ : ∀ i, (∃ k, (F k i).isSome) ↔ Q i)
    (ino : Nat) (cs : List CStr) :
    (∃ k, ((resolveNames k fs d ino cs).bind (F k)).isSome) ↔ PathClear fs d Q ino cs := by
  induction cs generalizing ino with
  | nil => exact hQ ino
  | cons c cs ih =>
    simp only [resolveNames, PathClear]
    by_cases hdot : c = ascii "."
    · simpa only [if_pos hdot] using ih ino
    simp only [if_neg hdot]
    by_cases hup : c = ascii ".."
    · simp only [if_pos hup]
      cases (readInode fs d ino).val with
      | none => simpa using hzero
      | some _ => simpa using ih ext2RootIno
    simp only [if_neg hup, ← dirLookupCallback_terminates_iff]
    constructor
    · rintro ⟨k, hk⟩
      cases hlook : dirLookupCallback k fs d ino c with
      | none => simp [hlook] at hk
      | some r =>
        refine ⟨⟨k, by rw [hlook]; rfl⟩, fun next hleads => (ih next).mp ⟨k, ?_⟩⟩
        have hnext := (dirLookupCallback_found_iff hlook).mpr hleads
        obtain ⟨⟨_, ty⟩, rfl, rfl⟩ := map_eq_some_iff.mp hnext
        simpa only [hlook] using hk
    · rintro ⟨⟨k, hk⟩, hrest⟩
      obtain ⟨r, hlook⟩ := isSome_iff_exists.mp hk
      have hlater : Monotone fun k => dirLookupCallback k fs d ino c = some r :=
        monotone_nat_of_le_succ fun _ => dirLookupCallback_mono
      -- What follows the lookup needs passes of its own.
      rcases hr : r with _ | ⟨next, _⟩
      · obtain ⟨k', hk'⟩ := hzero
        refine ⟨max k k', ?_⟩
        rw [hlater (Nat.le_max_left k k') hlook, hr]
        exact hmono 0 (Nat.le_max_right k k') hk'
      · have hleads : Leads fs d ino c next :=
          (dirLookupCallback_found_iff hlook).mp (by rw [hr]; rfl)
        obtain ⟨k', hk'⟩ := (ih next).mpr (hrest next hleads)
        refine ⟨max k k', ?_⟩
        rw [hlater (Nat.le_max_left k k') hlook, hr]
        exact resolveNames_bind_monotone hmono next cs (Nat.le_max_right k k') hk'

/-- The same for a path, which leads nowhere unless it is absolute. -/
theorem resolvePath_bind_terminates_iff (hmono : ∀ i, Monotone fun k => (F k i).isSome = true)
    (hzero : ∃ k, (F k 0).isSome) (hQ : ∀ i, (∃ k, (F k i).isSome) ↔ Q i) (path : CStr) :
    (∃ k, ((resolvePath k fs d path).bind (F k)).isSome) ↔
      (path.head? = some slash → PathClear fs d Q ext2RootIno (pieces slash 255 path)) := by
  by_cases habs : path.head? = some slash
  · obtain ⟨rest, rfl⟩ := List.head?_eq_some_iff.mp habs
    have hloop : ∀ k, resolvePath k fs d (slash :: rest) =
        resolveNames k fs d ext2RootIno (pieces slash 255 rest) := by
      intro k
      rw [resolvePath, if_pos habs]
      exact resolvePathLoop_eq k _ _ rest (Nat.le_succ _)
    simp only [hloop, pieces_cons_self, resolveNames_bind_terminates_iff hmono hzero hQ]
    exact ⟨fun h _ => h, fun h => h habs⟩
  · simp only [resolvePath, if_neg habs]
    exact iff_of_true hzero fun h => absurd h habs

end Continuation

/-! ### The calls -/

theorem resolvePath_terminates_iff (path : CStr) :
    (∃ passes, (resolvePath passes fs d path).isSome) ↔
      (path.head? = some slash →
        PathClear fs d (fun _ => True) ext2RootIno (pieces slash 255 path)) := by
  have hbind : (∃ passes, ((resolvePath passes fs d path).bind some).isSome) ↔ _ :=
    resolvePath_bind_terminates_iff (F := fun _ i => some i) (Q := fun _ => True)
      (fun _ => monotone_const) ⟨0, rfl⟩ (fun _ => iff_of_true ⟨0, rfl⟩ trivial) path
  simpa only [bind_fun_some] using hbind

theorem listInode_monotone (ino : Nat) :
    Monotone fun k => (listInode k fs d ino).isSome = true := by
  intro k k' hle h
  simp only [listInode_isSome] at h ⊢
  refine h.imp_right fun hstops dinode hread hdir => ?_
  exact (hstops dinode hread hdir).mono hle

/-- The lookup of a name, the resolution of a path and the listing of the
directory it names all end exactly when they come to no entry, other than the
one a lookup is for, whose `rec_len` is zero. -/
theorem ext2_walks_terminate_iff (fs : Ext2) (d : Device) (ino : Nat) (name path : CStr) :
    ((∃ passes, (dirLookupCallback passes fs d ino name).isSome) ∧
      (∃ passes, (resolvePath passes fs d path).isSome) ∧
      (∃ passes, (ext2ListDirInternal passes fs d path).isSome)) ↔
    LookupClear fs d ino name ∧
      (path.head? = some slash →
        PathClear fs d (fun i => i = 0 ∨ ListClear fs d i) ext2RootIno
          (pieces slash 255 path)) := by
  have hlist : (∃ passes, (ext2ListDirInternal passes fs d path).isSome) ↔ _ :=
    resolvePath_bind_terminates_iff listInode_monotone ⟨0, rfl⟩ listInode_terminates_iff path
  rw [dirLookupCallback_terminates_iff, ← hlist]
  refine and_congr_right fun _ => ⟨fun h => h.2, fun h => ⟨?_, h⟩⟩
  -- A listing ends only after its resolution has.
  obtain ⟨k, hk⟩ := h
  refine ⟨k, ?_⟩
  cases hres : resolvePath k fs d path with
  | none =>
    rw [ext2ListDirInternal, hres] at hk
    cases hk
  | some i => rfl

/-- A disk with one block group whose root directory, inode 2, has one block and
no data in it. -/
def blankRoot : Device where
  sector lba i :=
    match lba, i with
    | 2, 4 => 1
    | 2, 20 => 1
    | 2, 32 => 1
    | 2, 40 => 8
    | 2, 56 => 0x53
    | 2, 57 => 0xEF
    -- The table of the block groups, and the inode table in block 3.
    | 4, 8 => 3
    | 6, 129 => 0x40
    | 6, 133 => 4
    | _, _ => 0
  readable _ _ := true
  heap _ := true
  stray _ := 0

/-- What is mounted from `blankRoot`. -/
def blankFs : Ext2 := (ext2Mount blankRoot).val.get (by decide +kernel)

/-- The file system mounts, and the search for a name in its root directory
looks at an entry with a `rec_len` of zero for ever. -/
theorem resolvePath_blankRoot_diverges :
    (ext2Mount blankRoot).ok ∧ (ext2Mount blankRoot).val = some blankFs ∧
      ¬ ∃ passes, (resolvePath passes blankFs blankRoot (ascii "/a")).isSome := by
  refine ⟨by decide +kernel, (Option.some_get _).symm, ?_⟩
  rw [resolvePath_terminates_iff]
  intro hclear
  have hcut : pieces slash 255 (ascii "/a") = [ascii "a"] := by
    have hcons : ascii "/a" = slash :: ascii "a" := by decide
    rw [hcons, pieces_cons_self, pieces_of_short (by decide) (by decide), if_neg (by decide)]
  have hpath := hclear (by decide)
  rw [hcut, PathClear, if_neg (by decide), if_neg (by decide)] at hpath
  refine hpath.1 ((readInode blankFs blankRoot ext2RootIno).val.get (by decide +kernel))
    (Option.some_get _).symm (by decide +kernel) 0 .refl ?_
  decide +kernel

end Mmix.Fs
