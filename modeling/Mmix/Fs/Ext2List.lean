import Mmix.Fs.Ext2Holes
import Mmix.Fs.Ext2Dir

/-!
# Listing a directory and looking up its names

The count, the listing and the lookup each walk the chain of a directory's entries. On a chain
that is well formed they come to the same entries. The listing keeps 63 bytes of a name where
the lookup compares up to 255, and it fails for a directory without live entries, for which it
asks the heap for no bytes.
-/

namespace Mmix.Fs

open Checked List

/-- The bytes of a file from an offset on. -/
def Ext2.slice (fs : Ext2) (d : Device) (inode : Ext2Inode) (off n : Nat) : List UInt8 :=
  (List.range n).map fun j => fs.fileByte d inode (off + j)

/-- An entry of a directory on the disk. -/
structure DiskEntry where
  ent : Dirent
  name : CStr

/-- An entry in use. -/
def DiskEntry.live (e : DiskEntry) : Bool := e.ent.inode ≠ 0

/-- The entries of a directory from an offset to its end. The record of an entry holds its
header, and its name if it is in use. -/
inductive DirChain (fs : Ext2) (d : Device) (dinode : Ext2Inode) : Nat → List DiskEntry → Prop where
  | done : DirChain fs d dinode dinode.size []
  | entry {off : Nat} {e : DiskEntry} {rest : List DiskEntry}
      (hent : readDirent (fs.slice d dinode off direntBytes) = e.ent)
      (hname : fs.slice d dinode (off + direntBytes) e.ent.nameLen = e.name)
      (hfits : direntBytes + (if e.live then e.ent.nameLen else 0) ≤ e.ent.recLen)
      (hinside : off + e.ent.recLen ≤ dinode.size)
      (hrest : DirChain fs d dinode (off + e.ent.recLen) rest) :
      DirChain fs d dinode off (e :: rest)

/-- The entries in use. -/
def liveEntries (entries : List DiskEntry) : List DiskEntry := entries.filter DiskEntry.live

/-- A directory whose chain of entries is well formed. -/
structure WellFormedDir (fs : Ext2) (d : Device) (dinode : Ext2Inode)
    (entries : List DiskEntry) : Prop where
  chain : DirChain fs d dinode 0 entries
  names : ∀ e ∈ liveEntries entries, e.name ≠ [] ∧ ∀ ch ∈ e.name, ch ≠ 0
  distinct : ((liveEntries entries).map DiskEntry.name).Nodup

/-- What a listing should record for an entry. -/
def DiskEntry.listing (e : DiskEntry) : Ext2DirEntry where
  name := e.name
  inodeNo := e.ent.inode
  fileType := e.ent.fileType

/-- With enough passes, the listing of a directory returns its entries in use in the order of
the disk, and the lookup of each name returned finds the inode returned with it. -/
def ListingAgrees (fs : Ext2) (d : Device) (path : CStr) (ino : Nat)
    (entries : List DiskEntry) : Prop :=
  ∃ k, ∀ passes ≥ k,
    ext2ListDirInternal passes fs d path =
        some (some ((liveEntries entries).map DiskEntry.listing)) ∧
      ∀ listed, ext2ListDirInternal passes fs d path = some (some listed) → ∀ e ∈ listed,
        (dirLookupCallback passes fs d ino e.name).map (Option.map Prod.fst) =
          some (some e.inodeNo)

section Chain

variable {fs : Ext2} {d : Device} {dinode : Ext2Inode} {off : Nat} {e : DiskEntry}
  {entries rest : List DiskEntry}

/-- A read inside of the directory. -/
theorem readInodeData_slice (hd : d.Serves) (hfs : fs.Sized) (hsize : dinode.size < wrap32)
    {n : Nat} (hn : off + n ≤ dinode.size) :
    (readInodeData fs d dinode off n).val = fs.slice d dinode off n := by
  by_cases hin : off < dinode.size
  · rw [readInodeData_val hd hfs hsize hin, Nat.min_eq_left (by omega)]
    rfl
  · obtain rfl : n = 0 := by omega
    have hend : dinode.size ≤ off % wrap32 := by
      rw [Nat.mod_eq_of_lt (by omega)]
      exact Nat.le_of_not_lt hin
    rw [readInodeData, if_pos hend]
    rfl

theorem length_slice (fs : Ext2) (d : Device) (inode : Ext2Inode) (off n : Nat) :
    (fs.slice d inode off n).length = n := by
  rw [Ext2.slice, length_map, length_range]

theorem direntAt_end : direntAt fs d dinode dinode.size = none := if_neg (Nat.lt_irrefl _)

/-- The walks see the entries of the chain. -/
theorem direntAt_entry (hd : d.Serves) (hfs : fs.Sized) (hsize : dinode.size < wrap32)
    (h : DirChain fs d dinode off (e :: rest)) : direntAt fs d dinode off = some e.ent := by
  cases h with
  | entry hent hname hfits hinside hrest =>
    have hheader : off + direntBytes ≤ dinode.size := by omega
    have hread := readInodeData_slice hd hfs hsize hheader
    rw [direntAt, if_pos (by unfold direntBytes at hheader; omega)]
    dsimp only
    rw [hread, if_pos (length_slice ..), hent]

theorem cstr_of_ne_nul {bytes : List UInt8} (h : ∀ ch ∈ bytes, ch ≠ 0) : cstr bytes = bytes :=
  takeWhile_eq_self_iff.mpr fun ch hch => by simpa using h ch hch

/-- The lookup reads the whole name of an entry in use. -/
theorem direntName_entry (hd : d.Serves) (hfs : fs.Sized) (hsize : dinode.size < wrap32)
    (h : DirChain fs d dinode off (e :: rest)) (hlive : e.live = true)
    (hnul : ∀ ch ∈ e.name, ch ≠ 0) : direntName fs d dinode off e.ent = some e.name := by
  cases h with
  | entry hent hname hfits hinside hrest =>
    rw [if_pos hlive] at hfits
    have hread := readInodeData_slice hd hfs hsize
      (show off + direntBytes + e.ent.nameLen ≤ dinode.size by omega)
    rw [direntName, hread, if_pos (length_slice ..), hname, cstr_of_ne_nul hnul]

/-- The listing keeps the first 63 bytes. -/
theorem listedName_entry (hd : d.Serves) (hfs : fs.Sized) (hsize : dinode.size < wrap32)
    (h : DirChain fs d dinode off (e :: rest)) (hlive : e.live = true)
    (hnul : ∀ ch ∈ e.name, ch ≠ 0) : listedName fs d dinode off e.ent = e.name.take 63 := by
  cases h with
  | entry hent hname hfits hinside hrest =>
    rw [if_pos hlive] at hfits
    have hread := readInodeData_slice hd hfs hsize
      (show off + direntBytes + min e.ent.nameLen 63 ≤ dinode.size by omega)
    have htake : fs.slice d dinode (off + direntBytes) (min e.ent.nameLen 63) =
        e.name.take 63 := by
      rw [← hname, Ext2.slice, Ext2.slice, ← map_take, take_range, Nat.min_comm]
    have hlength : (e.name.take 63).length = min e.ent.nameLen 63 := by
      rw [← htake, length_slice]
    have hbytes : (range (min e.ent.nameLen 63)).map
        (fun i => (e.name.take 63).getD i (d.stray i)) = e.name.take 63 := by
      apply ext_getElem
      · rw [length_map, length_range, hlength]
      · intro i _ hi
        rw [getElem_map, getElem_range, getD_eq_getElem?_getD,
          getElem?_eq_getElem hi, Option.getD_some]
    rw [listedName, hread, htake, hbytes]
    exact cstr_of_ne_nul fun ch hch => hnul ch (mem_of_mem_take hch)

/-- The chain behind its first entry. -/
theorem DirChain.tail (h : DirChain fs d dinode off (e :: rest)) :
    DirChain fs d dinode (off + e.ent.recLen) rest := by
  cases h with
  | entry _ _ _ _ hrest => exact hrest

theorem DirChain.at_end (h : DirChain fs d dinode off []) : off = dinode.size := by
  cases h with
  | done => rfl

theorem liveEntries_live (h : e.live = true) : liveEntries (e :: rest) = e :: liveEntries rest := by
  rw [liveEntries, filter_cons_of_pos h]
  rfl

theorem liveEntries_deleted (h : ¬ e.live = true) : liveEntries (e :: rest) = liveEntries rest := by
  rw [liveEntries, filter_cons_of_neg h]
  rfl

theorem live_iff : e.live = true ↔ e.ent.inode ≠ 0 := decide_eq_true_iff

/-- The first walk counts the entries in use. -/
theorem countLoop_chain (hd : d.Serves) (hfs : fs.Sized) (hsize : dinode.size < wrap32)
    {passes : Nat} (count : Nat) (h : DirChain fs d dinode off entries)
    (hpasses : entries.length < passes) :
    countLoop fs d dinode passes off count = some (count + (liveEntries entries).length) := by
  induction entries generalizing off passes count with
  | nil =>
    obtain ⟨passes, rfl⟩ := Nat.exists_eq_succ_of_ne_zero (Nat.ne_of_gt hpasses)
    rw [h.at_end, countLoop, direntAt_end]
    rfl
  | cons e rest ih =>
    obtain ⟨passes, rfl⟩ := Nat.exists_eq_succ_of_ne_zero (Nat.ne_zero_of_lt hpasses)
    have hrest := fun count => ih count h.tail (Nat.lt_of_succ_lt_succ hpasses)
    rw [countLoop, direntAt_entry hd hfs hsize h]
    dsimp only
    rw [hrest]
    by_cases hlive : e.live = true
    · rw [if_pos (live_iff.mp hlive), liveEntries_live hlive, length_cons]
      exact congrArg some (by omega)
    · rw [if_neg (live_iff.not.mp hlive), liveEntries_deleted hlive]

/-- What the listing records for an entry: the name up to 63 bytes. -/
def DiskEntry.recorded (e : DiskEntry) : Ext2DirEntry := { e.listing with name := e.name.take 63 }

/-- The second walk records the entries in use. -/
theorem fillLoop_chain (hd : d.Serves) (hfs : fs.Sized) (hsize : dinode.size < wrap32)
    {passes : Nat} (h : DirChain fs d dinode off entries)
    (hnul : ∀ e ∈ liveEntries entries, ∀ ch ∈ e.name, ch ≠ 0) (hpasses : entries.length < passes) :
    fillLoop fs d dinode passes off (liveEntries entries).length =
      some ((liveEntries entries).map DiskEntry.recorded) := by
  induction entries generalizing off passes with
  | nil =>
    obtain ⟨passes, rfl⟩ := Nat.exists_eq_succ_of_ne_zero (Nat.ne_of_gt hpasses)
    rfl
  | cons e rest ih =>
    obtain ⟨passes, rfl⟩ := Nat.exists_eq_succ_of_ne_zero (Nat.ne_zero_of_lt hpasses)
    have hpasses' : rest.length < passes := Nat.lt_of_succ_lt_succ hpasses
    rw [fillLoop]
    by_cases hlive : e.live = true
    · rw [liveEntries_live hlive] at hnul ⊢
      have hname := listedName_entry hd hfs hsize h hlive (hnul e (mem_cons_self ..))
      have hrest := ih h.tail (fun e' he' => hnul e' (mem_cons_of_mem _ he')) hpasses'
      rw [length_cons, if_neg (Nat.succ_ne_zero _), direntAt_entry hd hfs hsize h]
      dsimp only
      rw [if_neg (live_iff.mp hlive), Nat.add_sub_cancel, hrest, hname]
      rfl
    · rw [liveEntries_deleted hlive] at hnul ⊢
      have hdead : e.ent.inode = 0 := not_not.mp (live_iff.not.mp hlive)
      split
      · next hnone =>
        -- No entry in use is left.
        rw [eq_nil_of_length_eq_zero hnone]
        rfl
      · rw [direntAt_entry hd hfs hsize h]
        dsimp only
        rw [if_pos hdead]
        exact ih h.tail hnul hpasses'

/-- The lookup finds the entry in use that has the name. -/
theorem dirLookupLoop_chain (hd : d.Serves) (hfs : fs.Sized) (hsize : dinode.size < wrap32)
    {passes : Nat} (h : DirChain fs d dinode off entries)
    (hnul : ∀ e ∈ liveEntries entries, ∀ ch ∈ e.name, ch ≠ 0)
    (hdistinct : ((liveEntries entries).map DiskEntry.name).Nodup)
    (hpasses : entries.length < passes) {found : DiskEntry} (hfound : found ∈ liveEntries entries) :
    dirLookupLoop fs d dinode found.name passes off =
      some (some (found.ent.inode, found.ent.fileType)) := by
  induction entries generalizing off passes with
  | nil => cases hfound
  | cons e rest ih =>
    obtain ⟨passes, rfl⟩ := Nat.exists_eq_succ_of_ne_zero (Nat.ne_zero_of_lt hpasses)
    have hpasses' : rest.length < passes := Nat.lt_of_succ_lt_succ hpasses
    rw [dirLookupLoop, direntAt_entry hd hfs hsize h]
    dsimp only
    by_cases hlive : e.live = true
    · rw [liveEntries_live hlive] at hnul hdistinct hfound
      have hname := direntName_entry hd hfs hsize h hlive (hnul e (mem_cons_self ..))
      rw [map_cons, nodup_cons] at hdistinct
      rw [if_neg (live_iff.mp hlive), hname]
      dsimp only
      rcases mem_cons.mp hfound with rfl | hlater
      · rw [if_pos rfl]
      · have hother : e.name ≠ found.name := fun heq =>
          hdistinct.1 (heq ▸ mem_map_of_mem hlater)
        rw [if_neg hother]
        exact ih h.tail (fun e' he' => hnul e' (mem_cons_of_mem _ he')) hdistinct.2 hpasses'
          hlater
    · rw [liveEntries_deleted hlive] at hnul hdistinct hfound
      rw [if_pos (not_not.mp (live_iff.not.mp hlive))]
      exact ih h.tail hnul hdistinct hpasses' hfound

end Chain

/-! ### The directory -/

section Directory

variable {fs : Ext2} {d : Device} {dinode : Ext2Inode} {ino passes : Nat} {path : CStr}
  {entries : List DiskEntry}

/-- The size of an inode is a field of 32 bits. -/
theorem readInode_size (h : (readInode fs d ino).val = some dinode) : dinode.size < wrap32 := by
  rw [readInode] at h
  split at h
  · cases h
  · simp only [Checked.val_bind, Checked.val_ite] at h
    split at h
    · cases h
    · split at h
      · split at h
        · cases h
        · cases h
          exact le32_lt _ _
      · cases h

theorem readInode_ne_zero (h : (readInode fs d ino).val = some dinode) : ino ≠ 0 := by
  rintro rfl
  cases h

/-- What the listing of a well formed directory returns. -/
theorem listInode_chain (hd : d.Serves) (hfs : fs.Sized)
    (hino : (readInode fs d ino).val = some dinode) (hdir : dinode.isDir = true)
    (hwf : WellFormedDir fs d dinode entries) (hpasses : entries.length < passes) :
    listInode passes fs d ino =
      some (if liveEntries entries = [] then none
        else some ((liveEntries entries).map DiskEntry.recorded)) := by
  have hsize := readInode_size hino
  have hfill := fillLoop_chain hd hfs hsize hwf.chain (fun e he => (hwf.names e he).2) hpasses
  rw [listInode, if_neg (readInode_ne_zero hino), hino]
  dsimp only
  rw [if_pos hdir, countLoop_chain hd hfs hsize 0 hwf.chain hpasses, Nat.zero_add]
  dsimp only
  by_cases hnone : liveEntries entries = []
  · rw [if_pos hnone, hnone]
    rfl
  · have hpos := length_pos_of_ne_nil hnone
    have halloc : d.kmalloc ((liveEntries entries).length * dirEntryBytes) = true := by
      rw [Device.kmalloc, hd.heap, Bool.and_true]
      exact bne_iff_ne.mpr (Nat.ne_of_gt (Nat.mul_pos hpos (by decide)))
    rw [if_neg hnone, if_pos halloc, hfill]
    rfl

theorem dirLookupCallback_chain (hd : d.Serves) (hfs : fs.Sized)
    (hino : (readInode fs d ino).val = some dinode) (hdir : dinode.isDir = true)
    (hwf : WellFormedDir fs d dinode entries) (hpasses : entries.length < passes)
    {e : DiskEntry} (he : e ∈ liveEntries entries) :
    dirLookupCallback passes fs d ino e.name = some (some (e.ent.inode, e.ent.fileType)) := by
  rw [dirLookupCallback, hino]
  dsimp only
  rw [if_pos hdir]
  exact dirLookupLoop_chain hd hfs (readInode_size hino) hwf.chain
    (fun e he => (hwf.names e he).2) hwf.distinct hpasses he

theorem recorded_eq_listing_iff (e : DiskEntry) : e.recorded = e.listing ↔ e.name.length ≤ 63 := by
  constructor
  · intro h
    have hname : e.name.take 63 = e.name := congrArg Ext2DirEntry.name h
    rw [← hname]
    exact length_take_le _ _
  · intro h
    rw [DiskEntry.recorded, take_of_length_le h]
    rfl

/-- The listing of a well formed directory and the lookups of its names agree exactly if no name
is longer than 63 bytes and there is an entry in use. -/
theorem ext2_listing_agrees_iff (fs : Ext2) (d : Device) (hd : d.Serves)
    (hmount : (ext2Mount d).val = some fs) (path : CStr) (ino : Nat) (dinode : Ext2Inode)
    (entries : List DiskEntry)
    (hpath : ∃ k, ∀ passes ≥ k, resolvePath passes fs d path = some ino)
    (hino : (readInode fs d ino).val = some dinode) (hdir : dinode.isDir = true)
    (hwf : WellFormedDir fs d dinode entries) :
    ListingAgrees fs d path ino entries ↔
      (∀ e ∈ liveEntries entries, e.name.length ≤ 63) ∧ liveEntries entries ≠ [] := by
  have hfs := ext2Mount_sized hmount
  obtain ⟨k, hk⟩ := hpath
  have hlist : ∀ passes, k ≤ passes → entries.length < passes →
      ext2ListDirInternal passes fs d path =
        some (if liveEntries entries = [] then none
          else some ((liveEntries entries).map DiskEntry.recorded)) := by
    intro passes hle hlt
    rw [ext2ListDirInternal, hk passes hle]
    exact listInode_chain hd hfs hino hdir hwf hlt
  constructor
  · rintro ⟨k', h⟩
    have hall := (h (max k' (max k (entries.length + 1))) (Nat.le_max_left _ _)).1
    rw [hlist _ (by omega) (by omega)] at hall
    have hlisted := Option.some.inj hall
    split at hlisted
    · cases hlisted
    · next hsome =>
      refine ⟨fun e he => ?_, hsome⟩
      exact (recorded_eq_listing_iff e).mp
        (List.map_inj_left.mp (Option.some.inj hlisted) e he)
  · rintro ⟨hshort, hsome⟩
    refine ⟨max k (entries.length + 1), fun passes hpasses => ?_⟩
    have hrecorded : (liveEntries entries).map DiskEntry.recorded =
        (liveEntries entries).map DiskEntry.listing :=
      List.map_congr_left fun e he => (recorded_eq_listing_iff e).mpr (hshort e he)
    have hall := hlist passes (by omega) (by omega)
    rw [if_neg hsome, hrecorded] at hall
    refine ⟨hall, fun listed hlisted e he => ?_⟩
    obtain rfl := Option.some.inj (Option.some.inj (hall.symm.trans hlisted))
    obtain ⟨found, hfound, rfl⟩ := List.mem_map.mp he
    show (dirLookupCallback passes fs d ino found.name).map (Option.map Prod.fst) = _
    rw [dirLookupCallback_chain hd hfs hino hdir hwf (by omega) hfound]
    rfl

end Directory

/-- A disk whose root directory has one entry, with a name of so many letters. -/
def oneEntryDisk (letters : Nat) : Device where
  sector lba i :=
    match lba, i with
    | 2, 4 => 1
    | 2, 20 => 1
    | 2, 32 => 1
    | 2, 40 => 8
    | 2, 56 => 0x53
    | 2, 57 => 0xEF
    -- The table of the block groups, and the inode table in block 3.
    | 4, 8 => 3
    | 6, 129 => 0x40
    | 6, 133 => 4
    | 6, 168 => 5
    -- The block of the directory.
    | 10, 0 => 2
    | 10, 1 | 10, 2 | 10, 3 | 10, 4 => 0
    | 10, 5 => 4
    | 10, 6 => UInt8.ofNat letters
    | 10, 7 => 2
    | 10, _ => 97
    | _, _ => 0
  readable _ _ := true
  heap _ := true
  stray _ := 0

theorem oneEntryDisk_serves (letters : Nat) : (oneEntryDisk letters).Serves :=
  ⟨fun _ _ => rfl, fun _ => rfl⟩

/-- The only entry of the directory. -/
def onlyEntry (letters : Nat) : DiskEntry := ⟨⟨2, 1024, letters, 2⟩, List.replicate letters 97⟩

theorem onlyEntry_wellFormed {letters : Nat} {fs : Ext2} {root : Ext2Inode} (hpos : letters ≠ 0)
    (hfits : direntBytes + letters ≤ 1024) (hsize : root.size = 1024)
    (hent : readDirent (fs.slice (oneEntryDisk letters) root 0 direntBytes) =
      (onlyEntry letters).ent)
    (hname : fs.slice (oneEntryDisk letters) root (0 + direntBytes) letters =
      replicate letters 97) :
    WellFormedDir fs (oneEntryDisk letters) root [onlyEntry letters] := by
  have hlive : liveEntries [onlyEntry letters] = [onlyEntry letters] := rfl
  constructor
  · apply DirChain.entry hent hname hfits
    · rw [hsize]
      exact Nat.le_refl 1024
    · have hend : 0 + (onlyEntry letters).ent.recLen = root.size := hsize.symm
      rw [hend]
      exact DirChain.done
  · intro e he
    rw [hlive] at he
    obtain rfl := mem_singleton.mp he
    refine ⟨fun h => hpos ((replicate_eq_nil_iff _).mp h), fun ch hch => ?_⟩
    rw [(mem_replicate.mp hch).2]
    decide
  · rw [hlive]
    exact nodup_singleton _

/-- The file system with a name of three letters. -/
def shortFs : Ext2 := (ext2Mount (oneEntryDisk 3)).val.get (by decide +kernel)

def shortRoot : Ext2Inode :=
  (readInode shortFs (oneEntryDisk 3) ext2RootIno).val.get (by decide +kernel)

/-- A directory with one short name. -/
theorem ext2_listing_agrees_short :
    ListingAgrees shortFs (oneEntryDisk 3) (ascii "/") ext2RootIno [onlyEntry 3] := by
  have hwf : WellFormedDir shortFs (oneEntryDisk 3) shortRoot [onlyEntry 3] := by
    apply onlyEntry_wellFormed (by decide) (by decide) (by decide +kernel)
    · simp only [readDirent, onlyEntry, Dirent.mk.injEq]
      decide +kernel
    · decide +kernel
  exact (ext2_listing_agrees_iff shortFs (oneEntryDisk 3) (oneEntryDisk_serves 3)
    (Option.some_get _).symm (ascii "/") ext2RootIno shortRoot [onlyEntry 3]
    ⟨0, fun _ _ => rfl⟩ (Option.some_get _).symm (by decide +kernel) hwf).mpr
    ⟨by decide, by decide⟩

/-- The file system with a name of 64 letters. -/
def longFs : Ext2 := (ext2Mount (oneEntryDisk 64)).val.get (by decide +kernel)

def longRoot : Ext2Inode :=
  (readInode longFs (oneEntryDisk 64) ext2RootIno).val.get (by decide +kernel)

/-- A name of 64 letters is cut in the listing of its directory. -/
theorem ext2_listing_cuts_name :
    (ext2Mount (oneEntryDisk 64)).val = some longFs ∧
      (readInode longFs (oneEntryDisk 64) ext2RootIno).val = some longRoot ∧
      WellFormedDir longFs (oneEntryDisk 64) longRoot [onlyEntry 64] ∧
      ¬ ListingAgrees longFs (oneEntryDisk 64) (ascii "/") ext2RootIno [onlyEntry 64] := by
  have hmount : (ext2Mount (oneEntryDisk 64)).val = some longFs := (Option.some_get _).symm
  have hroot : (readInode longFs (oneEntryDisk 64) ext2RootIno).val = some longRoot :=
    (Option.some_get _).symm
  have hwf : WellFormedDir longFs (oneEntryDisk 64) longRoot [onlyEntry 64] := by
    apply onlyEntry_wellFormed (by decide) (by decide) (by decide +kernel)
    · simp only [readDirent, onlyEntry, Dirent.mk.injEq]
      decide +kernel
    · decide +kernel
  refine ⟨hmount, hroot, hwf, ?_⟩
  rintro ⟨k, h⟩
  have hlist : listInode (k + 2) longFs (oneEntryDisk 64) ext2RootIno =
      some (if liveEntries [onlyEntry 64] = [] then none
        else some ((liveEntries [onlyEntry 64]).map DiskEntry.recorded)) :=
    listInode_chain (oneEntryDisk_serves 64) (ext2Mount_sized hmount) hroot (by decide +kernel) hwf
      (show 1 < k + 2 by omega)
  have hresolve : ext2ListDirInternal (k + 2) longFs (oneEntryDisk 64) (ascii "/") =
      listInode (k + 2) longFs (oneEntryDisk 64) ext2RootIno := rfl
  have hall := (h (k + 2) (Nat.le_add_right _ _)).1
  rw [hresolve, hlist] at hall
  have hcut : (onlyEntry 64).recorded = (onlyEntry 64).listing :=
    List.head_eq_of_cons_eq (Option.some.inj (Option.some.inj hall))
  exact absurd ((recorded_eq_listing_iff _).mp hcut) (by decide)

end Mmix.Fs
