import Mmix.Fs.RamFiles

/-!
# Files in memory follow their sequences of bytes

A copy inside of a file overwrites its sequence. A write that grows the file copies into a new
block, in front of which the old bytes and zeros stand. Each call is then the call on sequences,
and by induction so is each run.
-/

namespace Mmix.Fs

open Mm Tiling List Function

variable {ν : Type*}

namespace RamDisk

section Store

variable {s : RamDisk ν} {i node : ν} {buf : WriteBuffer} {offset count : BitVec 64} {a : Nat}

theorem Valid.data_add_size_le (h : s.Valid) (i : ν) :
    (s.file i).data + (s.file i).size ≤ sizeMod := by
  rcases h.held i with ⟨hdata, hsize⟩ | ⟨n, hp, hle⟩
  · rw [hdata, hsize]
    decide
  · have hbound := h.bound _ n hp
    omega

/-- Two nodes have no byte in common. -/
theorem Valid.apart_files (h : s.Valid) (hne : i ≠ node) {k l : Nat} (hk : k < (s.file i).size)
    (hl : l < (s.file node).size) : (s.file i).data + k ≠ (s.file node).data + l := by
  rcases h.held i with ⟨-, hsize⟩ | ⟨n, hp, hle⟩
  · omega
  rcases h.held node with ⟨-, hsize⟩ | ⟨m, hq, hle'⟩
  · omega
  have hapart := h.apart _ n _ m hp hq (h.data_ne hne hp)
  simp only [Span.Apart] at hapart
  omega

theorem store_mem (hin : (s.file node).data + offset.toNat + buf.bytes.length ≤ sizeMod)
    (ha : a < sizeMod) : (s.store node buf offset).mem a =
      if (s.file node).data + offset.toNat ≤ a ∧
          a < (s.file node).data + offset.toNat + buf.bytes.length then
        buf.bytes.getD (a - ((s.file node).data + offset.toNat)) 0
      else s.mem a := by
  simp only [store, RamFile.at]
  rw [storeBytes_apply hin ha]

theorem Valid.store (h : s.Valid) : (s.store node buf offset).Valid :=
  ⟨h.null, h.bound, h.apart, h.held, h.own⟩

/-- A copy into a file. -/
theorem Valid.store_self (h : s.Valid)
    (hle : offset.toNat + buf.bytes.length ≤ (s.file node).size) :
    (s.store node buf offset).content node =
      overwrite (s.content node) offset.toNat buf.bytes := by
  have hbound := h.data_add_size_le node
  have hfile : (s.store node buf offset).file node = s.file node := rfl
  apply ext_getD
  · rw [length_content, hfile, length_overwrite, length_content, Nat.max_eq_left hle]
  · intro k hk
    rw [length_content] at hk
    rw [getD_content hk, hfile, getD_overwrite]
    rw [hfile] at hk
    rw [store_mem (by omega) (by omega), getD_content hk]
    by_cases hin : offset.toNat ≤ k ∧ k < offset.toNat + buf.bytes.length
    · rw [if_pos hin, if_pos (by omega), Nat.add_sub_add_left]
    · rw [if_neg hin, if_neg (by omega)]

/-- The copy leaves the other files as they are. -/
theorem Valid.store_other (h : s.Valid) (hne : i ≠ node)
    (hle : offset.toNat + buf.bytes.length ≤ (s.file node).size) :
    (s.store node buf offset).content i = s.content i := by
  have hbound := h.data_add_size_le node
  have hbound' := h.data_add_size_le i
  refine content_congr rfl fun k hk => ?_
  rw [store_mem (by omega) (by omega), if_neg]
  rintro ⟨hlow, hhigh⟩
  -- The address would be one of the written file.
  have hl : (s.file i).data + k - (s.file node).data < (s.file node).size := by omega
  have hapart := h.apart_files hne hk hl
  omega

/-- `vfs_read` copies the slice, and returns its length as an `int`. -/
theorem Valid.read_eq (h : s.Valid) : s.vfsRead node count offset =
    (intOf (min count.toNat ((s.file node).size - offset.toNat)),
      ((s.content node).drop offset.toNat).take count.toNat) := by
  have hbound := h.data_add_size_le node
  rw [vfsRead]
  by_cases hend : (s.file node).size ≤ offset.toNat
  · have hnil : (s.content node).drop offset.toNat = [] :=
      drop_of_length_le (by rwa [length_content])
    rw [if_pos hend, hnil, Nat.sub_eq_zero_of_le hend, Nat.min_zero, take_nil]
    rfl
  · rw [if_neg hend]
    refine Prod.ext rfl (ext_getElem ?_ fun i hi _ => ?_)
    · simp only [length_map, length_range, length_take, length_drop,
        length_content]
    · simp only [length_map, length_range] at hi
      have haddr : ((s.file node).at offset + i) % sizeMod =
          (s.file node).data + (offset.toNat + i) := by
        rw [RamFile.at]
        unfold sizeMod at *
        omega
      simp only [getElem_map, getElem_range, getElem_take, getElem_drop,
        content, haddr]

/-- The contents after a copy. -/
theorem Valid.content_store [DecidableEq ν] (h : s.Valid)
    (hle : offset.toNat + buf.bytes.length ≤ (s.file node).size) :
    (s.store node buf offset).content =
      update s.content node (overwrite (s.content node) offset.toNat buf.bytes) := by
  ext1 i
  by_cases hi : i = node
  · subst hi
    rw [update_self, h.store_self hle]
  · rw [update_of_ne hi, h.store_other hi hle]

end Store

section Grow

variable [DecidableEq ν] {s : RamDisk ν} {i node : ν} {g : Grant} {offset stop k : Nat}

theorem grow_mem {a : Nat} : (s.grow node offset stop g).mem a =
    if g.ptr + (s.file node).size ≤ a ∧ a < g.ptr + offset then 0 else g.mem a := rfl

/-- In front of the offset the new block has the bytes of the old one and zeros. -/
theorem Valid.getD_grow_self (h : s.Valid) (hg : s.Fair (s.file node).data stop g)
    (hstop : offset ≤ stop) (hk : k < offset) :
    ((s.grow node offset stop g).content node).getD k 0 = (s.content node).getD k 0 := by
  have hfile : (s.grow node offset stop g).file node = ⟨g.ptr, stop⟩ := grow_file_self
  have hsize := hg.size
  have hbyte : ((s.grow node offset stop g).content node).getD k 0 =
      (s.grow node offset stop g).mem (g.ptr + k) := by
    rw [getD_content (by rw [hfile]; exact Nat.lt_of_lt_of_le hk hstop), hfile]
  rw [hbyte, grow_mem]
  rcases Nat.lt_or_ge k (s.file node).size with hold | hgap
  · rw [if_neg (by omega), getD_content hold]
    rcases h.held node with ⟨-, hzero⟩ | ⟨m, hp, hle⟩
    · omega
    · exact hg.copied m hp k (by omega) (by omega)
  · rw [if_pos (by omega), getD_eq_default _ _ (by rwa [length_content])]

theorem Valid.grow_other (h : s.Valid) (hg : s.Fair (s.file node).data stop g)
    (hstop : offset ≤ stop) (hne : i ≠ node) :
    (s.grow node offset stop g).content i = s.content i := by
  have hsize := hg.size
  refine content_congr (grow_file_of_ne hne) fun k hk => ?_
  rcases h.held i with ⟨-, hzero⟩ | ⟨m, hp, hle⟩
  · omega
  · obtain ⟨-, hapart⟩ := hg.apart _ m hp (h.data_ne hne hp)
    simp only [Span.Apart] at hapart
    rw [grow_mem, if_neg (by omega)]
    exact hg.kept _ m hp (h.data_ne hne hp) k (by omega)

/-- The contents after the block was enlarged to the end of a write and written. -/
theorem Valid.content_grow {buf : WriteBuffer} {offset : BitVec 64} (h : s.Valid)
    (hg : s.Fair (s.file node).data stop g) (hstop : stop = offset.toNat + buf.bytes.length)
    (hgrow : (s.file node).size < stop) :
    ((s.grow node offset.toNat stop g).store node buf offset).content =
      update s.content node (overwrite (s.content node) offset.toNat buf.bytes) := by
  have hoff : offset.toNat ≤ stop := by omega
  have hfile : (s.grow node offset.toNat stop g).file node = ⟨g.ptr, stop⟩ := grow_file_self
  have hle : offset.toNat + buf.bytes.length ≤
      ((s.grow node offset.toNat stop g).file node).size := by
    rw [hfile]
    exact Nat.le_of_eq hstop.symm
  rw [(h.grow hg).content_store hle]
  ext1 i
  by_cases hi : i = node
  · subst hi
    rw [update_self, update_self]
    apply overwrite_congr
    · rw [length_content, hfile]
      exact Nat.le_of_eq hstop
    · rw [length_content]
      omega
    · exact fun k hk => h.getD_grow_self hg hoff hk
  · rw [update_of_ne hi, update_of_ne hi, h.grow_other hg hoff hi]

end Grow

section Step

variable [DecidableEq ν] {a a' : ν → List UInt8} {node : ν} {buf : WriteBuffer}
  {offset count : BitVec 64} {granted : Option Grant} {out : Int × List UInt8} {s t : RamDisk ν}

theorem arrayStep_write_iff : ArrayStep a (.write node buf offset granted) out a' ↔
    out = ((buf.bytes.length : Int), []) ∧
        a' = update a node (overwrite (a node) offset.toNat buf.bytes) ∨
      out = (-1, []) ∧ a' = a := by
  constructor
  · rintro (_ | _)
    · exact .inl ⟨rfl, rfl⟩
    · exact .inr ⟨rfl, rfl⟩
  · rintro (⟨rfl, rfl⟩ | ⟨rfl, rfl⟩)
    · apply ArrayStep.write
    · apply ArrayStep.refuse

theorem arrayStep_read_iff : ArrayStep a (.read node count offset) out a' ↔
    out = (((((a node).drop offset.toNat).take count.toNat).length : Int),
      ((a node).drop offset.toNat).take count.toNat) ∧ a' = a := by
  constructor
  · rintro (_ | _)
    exact ⟨rfl, rfl⟩
  · rintro ⟨rfl, rfl⟩
    apply ArrayStep.read

theorem WriteBuffer.toNat_stop (hwrap : offset.toNat + buf.bytes.length < sizeMod) :
    (buf.stop offset).toNat = offset.toNat + buf.bytes.length := by
  rw [← buf.toNat_length] at hwrap ⊢
  exact Fs.toNat_stop hwrap

theorem write_refused (hgrow : (s.file node).size < (buf.stop offset).toNat) :
    s.vfsWrite node buf offset none = (-1, s) := by
  simp only [vfsWrite, if_pos hgrow]

theorem write_grown (hgrow : (s.file node).size < (buf.stop offset).toNat) (g : Grant) :
    s.vfsWrite node buf offset (some g) = (intOf buf.bytes.length,
      (s.grow node offset.toNat (buf.stop offset).toNat g).store node buf offset) := by
  simp only [vfsWrite, if_pos hgrow]

theorem write_kept (hkept : ¬ (s.file node).size < (buf.stop offset).toNat) :
    s.vfsWrite node buf offset granted = (intOf buf.bytes.length, s.store node buf offset) := by
  simp only [vfsWrite, if_neg hkept]

/-- A write that is served matches exactly if it leaves the contents it should. -/
theorem matches_served_iff
    (hcall : s.vfsWrite node buf offset granted = (intOf buf.bytes.length, t)) :
    s.Matches (.write node buf offset granted) ↔ t.content =
      update s.content node (overwrite (s.content node) offset.toNat buf.bytes) := by
  have hret : intOf buf.bytes.length = buf.bytes.length := toInt_ofNat_of_lt buf.short
  have hne : (buf.bytes.length : Int) ≠ -1 := by omega
  rw [hret] at hcall
  constructor
  · intro hm
    have harrays := hm.arrays
    simp only [call, hcall, arrayStep_write_iff, Prod.mk.injEq] at harrays
    rcases harrays with ⟨-, hcontent⟩ | ⟨⟨hrefused, -⟩, -⟩
    · exact hcontent
    · exact absurd hrefused hne
  · intro hcontent
    constructor
    · simp only [call, hcall, hcontent]
      apply ArrayStep.write
    · simp only [call, hcall]
      exact fun hrefused => absurd hrefused hne

/-- No file is so large that a write behind the address space could have been done. -/
theorem not_wrap_of_content (hsize : (t.file node).size < sizeMod) (hcontent : t.content =
      update s.content node (overwrite (s.content node) offset.toNat buf.bytes)) :
    offset.toNat + buf.bytes.length < sizeMod := by
  have hlen := congrArg length (congrFun hcontent node)
  rw [update_self, length_content, length_overwrite] at hlen
  omega

theorem Valid.write_matches_iff (h : s.Valid)
    (hfair : s.FairCall (.write node buf offset granted)) :
    s.Matches (.write node buf offset granted) ↔ s.Clear (.write node buf offset granted) := by
  by_cases hgrow : (s.file node).size < (buf.stop offset).toNat
  · cases granted with
    | none =>
      refine iff_of_true ⟨?_, ?_⟩ (.inr ⟨hgrow, rfl⟩)
      · simp only [call, write_refused hgrow]
        apply ArrayStep.refuse
      · simp only [call, write_refused hgrow, implies_true]
    | some g =>
      have hg := hfair hgrow g rfl
      rw [matches_served_iff (write_grown hgrow g)]
      constructor
      · intro hcontent
        refine .inl (not_wrap_of_content ?_ hcontent)
        exact ((h.grow hg).store).size_lt node
      · rintro (hwrap | ⟨-, hnone⟩)
        · exact h.content_grow hg (WriteBuffer.toNat_stop hwrap) hgrow
        · cases hnone
  · rw [matches_served_iff (write_kept hgrow)]
    constructor
    · exact fun hcontent => .inl (not_wrap_of_content (h.store.size_lt node) hcontent)
    · rintro (hwrap | ⟨hgrow', -⟩)
      · rw [WriteBuffer.toNat_stop hwrap] at hgrow
        exact h.content_store (Nat.le_of_not_lt hgrow)
      · exact absurd hgrow' hgrow

theorem Valid.read_matches_iff (h : s.Valid) :
    s.Matches (.read node count offset) ↔ s.Clear (.read node count offset) := by
  have hlen : (((s.content node).drop offset.toNat).take count.toNat).length =
      min count.toNat ((s.file node).size - offset.toNat) := by
    rw [length_take, length_drop, length_content]
  rw [Clear, ← toInt_ofNat_iff, ← intOf]
  constructor
  · intro hm
    have harrays := hm.arrays
    simp only [call, h.read_eq, arrayStep_read_iff, Prod.mk.injEq, and_true] at harrays
    rwa [hlen] at harrays
  · intro hret
    constructor
    · simp only [call, h.read_eq, arrayStep_read_iff, Prod.mk.injEq, and_true]
      rwa [hlen]
    · exact fun _ => rfl

end Step

section Runs

variable [DecidableEq ν]

/-- The state after a call. -/
def step (s : RamDisk ν) (e : RamCall ν) : Option (RamDisk ν) := some (s.call e).2

/-- Every call keeps the blocks apart. -/
theorem Valid.call {s : RamDisk ν} {e : RamCall ν} (h : s.Valid) (hfair : s.FairCall e) :
    (s.call e).2.Valid := by
  cases e with
  | read node count offset => exact h
  | write node buf offset granted =>
    by_cases hgrow : (s.file node).size < (buf.stop offset).toNat
    · cases granted with
      | none =>
        simp only [RamDisk.call, write_refused hgrow]
        exact h
      | some g =>
        simp only [RamDisk.call, write_grown hgrow]
        exact (h.grow (hfair hgrow g rfl)).store
    · simp only [RamDisk.call, write_kept hgrow]
      exact h.store

theorem Valid.matches_iff {s : RamDisk ν} {e : RamCall ν} (h : s.Valid) (hfair : s.FairCall e) :
    s.Matches e ↔ s.Clear e := by
  cases e with
  | write node buf offset granted => exact h.write_matches_iff hfair
  | read node count offset => exact h.read_matches_iff

/-- With an allocator that keeps to its contract, the files are sequences of bytes in every call
of a run exactly if no write is served whose end wraps, and no read returns more than an `int`. -/
theorem ram_files_are_arrays_iff (s : RamDisk ν) (es : List (RamCall ν)) (hv : s.Valid)
    (hfair : Run.Along step FairCall s es) :
    Run.Along step Matches s es ↔ Run.Along step Clear s es := by
  induction es generalizing s with
  | nil => exact Iff.rfl
  | cons e es ih =>
    refine and_congr (hv.matches_iff hfair.1) (forall_congr' fun s' => ?_)
    refine imp_congr_right fun hstep => ih s' ?_ (hfair.2 s' hstep)
    cases hstep
    exact hv.call hfair.1

/-- Two bytes at offset 2 of a new file in a block full of old bytes, and reading them back. -/
theorem ram_files_are_arrays_gap : Run.Along step Matches
    (⟨fun _ => 7, fun _ => none, fun _ => ⟨0, 0⟩⟩ : RamDisk Unit)
    [.write () ⟨[97, 98], by decide⟩ 2 (some ⟨0x1000, 16, fun _ => 7⟩), .read () 8 0] := by
  refine (ram_files_are_arrays_iff _ _ ⟨rfl, ?_, ?_, fun _ => .inl ⟨rfl, rfl⟩, ?_⟩ ?_).mpr ?_
  · exact fun p n hp => by cases hp
  · exact fun p n q m hp => by cases hp
  · exact fun i j hne => absurd rfl hne
  · refine ⟨fun _ g hg => ?_, fun s' _ => ⟨trivial, fun _ _ => trivial⟩⟩
    cases hg
    refine ⟨by decide, by decide, by decide, ?_, ?_, ?_⟩
    · exact fun q m hq => by cases hq
    · exact fun m hm => by cases hm
    · exact fun q m hq => by cases hq
  · refine ⟨.inl (by decide), fun s' _ => ⟨?_, fun _ _ => trivial⟩⟩
    exact Nat.lt_of_le_of_lt (Nat.min_le_left _ _) (by decide)

/-- A file of 16 bytes. -/
def oneFile : RamDisk Unit where
  mem := fun _ => 0
  blocks := fun p => if p = 0x1000 then some 16 else none
  file := fun _ => ⟨0x1000, 16⟩

/-- A write of 16 bytes at offset 2^64 - 8 is served as if it ended at 8. -/
theorem ram_file_write_wraps : oneFile.Valid ∧
    Run.Along step FairCall oneFile [.write () ⟨List.replicate 16 97, by decide⟩ (-8) none] ∧
    ¬ Run.Along step Matches oneFile [.write () ⟨List.replicate 16 97, by decide⟩ (-8) none] := by
  have hblock : ∀ p n, oneFile.blocks p = some n ↔ p = 0x1000 ∧ n = 16 := by
    intro p n
    simp only [oneFile, Option.ite_none_right_eq_some, Option.some.injEq]
    exact and_congr_right fun _ => eq_comm
  have hvalid : oneFile.Valid := by
    refine ⟨rfl, ?_, ?_, fun _ => .inr ⟨16, rfl, Nat.le_refl _⟩, fun i j hne => absurd rfl hne⟩
    · intro p n hp
      obtain ⟨rfl, rfl⟩ := (hblock p n).mp hp
      decide
    · intro p n q m hp hq hne
      exact absurd (((hblock p n).mp hp).1.trans ((hblock q m).mp hq).1.symm) hne
  have hfair : oneFile.FairCall (.write () ⟨List.replicate 16 97, by decide⟩ (-8) none) :=
    fun _ g hg => by cases hg
  refine ⟨hvalid, ⟨hfair, fun _ _ => trivial⟩, fun halong => ?_⟩
  rcases (hvalid.matches_iff hfair).mp halong.1 with hwrap | ⟨hgrow, -⟩
  · exact absurd hwrap (by decide)
  · exact absurd hgrow (by decide)

end Runs

end RamDisk

end Mmix.Fs
