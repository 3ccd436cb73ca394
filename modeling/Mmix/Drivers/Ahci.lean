import Mmix.Fs.Pipe
import Mmix.Mm.Pmm

/-!
# Reading sectors through AHCI

`ahci_read_sectors` cuts a request into commands of at most 256 sectors. The device
writes each command's data to a bounce buffer in physical memory, from which the driver
copies it to the caller's buffer. The buffer is one page, and the device writes as much
as the descriptor of the command says.
-/

namespace Mmix.Drivers

open Fs Mm List

/-- A sector. -/
abbrev sectorSize : Nat := 512

/-- Physical memory, byte by byte. -/
abbrev PhysBytes := Nat → UInt8

/-- What a command asks the device for: the fields of the H2D register FIS and of the one
entry of the PRDT. -/
structure AhciCommand where
  lba : BitVec 48
  count : BitVec 16
  dba : Nat
  info : BitVec 32

/-- The number of bytes that the PRDT entry describes: bits 0 to 30, counted from zero. -/
def AhciCommand.bytes (c : AhciCommand) : Nat := (c.info.setWidth 31).toNat + 1

/-- The disk behind a port, and how the device answers: whether the port gets ready for the
command with the given number, and whether its completion is seen. -/
structure Hba where
  disk : Nat → Nat → UInt8
  ready : Nat → Bool
  completes : Nat → Bool

/-- The device performs a READ DMA EXT. -/
def Hba.perform (hba : Hba) (c : AhciCommand) (mem : PhysBytes) : PhysBytes := fun a =>
  if c.dba ≤ a ∧ a < c.dba + c.bytes then
    hba.disk (c.lba.toNat + (a - c.dba) / sectorSize) ((a - c.dba) % sectorSize)
  else mem a

/-- The state of a read: the commands issued so far, physical memory, and the bytes that
the caller's buffer has received. -/
structure AhciRead where
  commands : List AhciCommand
  mem : PhysBytes
  dst : List UInt8

/-- The number of sectors of the next command. -/
def xferOf (remaining : Nat) : Nat := if 256 < remaining then 256 else remaining

/-- The command that the driver builds. -/
def buildCommand (bounce lba xfer : Nat) : AhciCommand where
  lba := BitVec.ofNat 48 lba
  count := BitVec.ofNat 16 xfer
  dba := bounce
  info := (BitVec.ofNat 32 (xfer * sectorSize) - 1#32) ||| (1#32 <<< 31)

/-- The copy from the bounce buffer to the caller's buffer. -/
def copyBack (mem : PhysBytes) (bounce bytes : Nat) : List UInt8 :=
  (List.range bytes).map fun j => mem (bounce + j)

/-- The loop of `ahci_read_sectors`; false when it gives up. -/
def ahciLoop (hba : Hba) (bounce : Nat) : Nat → Nat → Nat → AhciRead → Bool × AhciRead
  | 0, _, _, r => (true, r)
  | fuel + 1, remaining, lba, r =>
    if remaining = 0 then (true, r)
    else if !hba.ready r.commands.length then (false, r)
    else
      let xfer := xferOf remaining
      let c := buildCommand bounce lba xfer
      let mem := hba.perform c r.mem
      let issued := { r with commands := r.commands ++ [c], mem := mem }
      if !hba.completes r.commands.length then (false, issued)
      else
        ahciLoop hba bounce fuel (remaining - xfer) (lba + xfer)
          { issued with dst := r.dst ++ copyBack mem bounce (xfer * sectorSize) }

/-- The ports that `ahci_init` found. -/
structure AhciPorts where
  numPorts : Int
  active : Int → Bool

/-- The port check at the head of `ahci_read_sectors`. -/
def AhciPorts.valid (ports : AhciPorts) (port : Int) : Bool :=
  decide (0 ≤ port) && decide (port < ports.numPorts) && ports.active port

/-- `ahci_read_sectors`: the return value, the page allocator afterwards, and what was read. -/
def ahciReadSectors (ports : AhciPorts) (hba : Hba) (port : Int) (lba count : Nat) (pmm : Pmm)
    (mem : PhysBytes) : Int × Pmm × AhciRead :=
  if !ports.valid port then (-1, pmm, ⟨[], mem, []⟩)
  else
    match pmmAllocDma 1 pmm with
    | (none, pmm) => (-1, pmm, ⟨[], mem, []⟩)
    | (some page, pmm) =>
      let done := ahciLoop hba (page * pageSize) count count lba ⟨[], mem, []⟩
      (if done.1 then intOf count else -1, pmmFree page 1 pmm, done.2)

/-- The commands read consecutive ranges of sectors. -/
def Consecutive : Nat → List AhciCommand → Nat → Prop
  | start, [], stop => start = stop
  | start, c :: cs, stop =>
    c.lba.toNat = start ∧ 0 < c.count.toNat ∧ Consecutive (start + c.count.toNat) cs stop

/-- The sectors of a request, byte by byte. -/
def Hba.sectors (hba : Hba) (lba count : Nat) : List UInt8 :=
  (List.range (count * sectorSize)).map fun j => hba.disk (lba + j / sectorSize) (j % sectorSize)

/-- An address of a page. -/
def InPage (page a : Nat) : Prop := page * pageSize ≤ a ∧ a < (page + 1) * pageSize

/-- What a read promises with the given bounce page: its commands cover the request in order,
or a front part of it if it fails; their data stays inside the page, and the device writes
nothing else; and a successful read hands over the sectors in order. -/
structure ReadsWithin (hba : Hba) (page : Option Nat) (lba count : Nat) (mem : PhysBytes)
    (result : Int × Pmm × AhciRead) : Prop where
  covers : ∃ stop ≤ lba + count, Consecutive lba result.2.2.commands stop ∧
    (result.1 ≠ -1 → stop = lba + count)
  inside : ∀ c ∈ result.2.2.commands, ∀ j < c.bytes, ∃ p ∈ page, InPage p (c.dba + j)
  untouched : ∀ a, (∀ p ∈ page, ¬ InPage p a) → result.2.2.mem a = mem a
  received : result.1 ≠ -1 → result.2.2.dst = hba.sectors lba count

section Loop

variable {hba : Hba} {bounce lba remaining xfer : Nat} {mem : PhysBytes}

theorem xferOf_le (remaining : Nat) : xferOf remaining ≤ remaining := by
  unfold xferOf
  split
  · exact Nat.le_of_lt ‹_›
  · exact Nat.le_refl _

theorem xferOf_le_max (remaining : Nat) : xferOf remaining ≤ 256 := by
  unfold xferOf
  split
  · exact Nat.le_refl _
  · exact Nat.le_of_not_lt ‹_›

theorem xferOf_pos (h : 0 < remaining) : 0 < xferOf remaining := by
  unfold xferOf
  split
  · decide
  · exact h

/-- The descriptor holds the size of the transfer. -/
theorem bytes_buildCommand (hpos : 0 < xfer) (hmax : xfer ≤ 256) :
    (buildCommand bounce lba xfer).bytes = xfer * sectorSize := by
  have hlow : ((1#32 <<< 31).setWidth 31).toNat = 0 := by decide
  have hsize : xfer * sectorSize < 2 ^ 31 := by
    unfold sectorSize
    omega
  have hone : 1 ≤ xfer * sectorSize := Nat.mul_pos hpos (by decide)
  have hof : (BitVec.ofNat 32 (xfer * sectorSize)).toNat = xfer * sectorSize := by
    rw [BitVec.toNat_ofNat, Nat.mod_eq_of_lt (by omega)]
  have hsub : (BitVec.ofNat 32 (xfer * sectorSize) - 1#32).toNat = xfer * sectorSize - 1 := by
    have hle : 1#32 ≤ BitVec.ofNat 32 (xfer * sectorSize) := by
      rw [BitVec.le_def, hof]
      exact hone
    rw [BitVec.toNat_sub_of_le hle, hof]
    rfl
  rw [AhciCommand.bytes, buildCommand, BitVec.setWidth_or, BitVec.toNat_or, hlow, Nat.or_zero,
    BitVec.toNat_setWidth, hsub, Nat.mod_eq_of_lt (by omega), Nat.sub_add_cancel hone]

theorem count_buildCommand (hmax : xfer ≤ 256) :
    (buildCommand bounce lba xfer).count.toNat = xfer := by
  rw [buildCommand, BitVec.toNat_ofNat, Nat.mod_eq_of_lt (by omega)]

/-- What the driver copies back is what the device was asked for. -/
theorem copyBack_perform (hpos : 0 < xfer) (hmax : xfer ≤ 256) (hlba : lba < 2 ^ 48) :
    copyBack (hba.perform (buildCommand bounce lba xfer) mem) bounce (xfer * sectorSize) =
      hba.sectors lba xfer := by
  apply map_congr_left
  intro j hj
  have hlow : (buildCommand bounce lba xfer).lba.toNat = lba := by
    rw [buildCommand, BitVec.toNat_ofNat, Nat.mod_eq_of_lt hlba]
  have hin : bounce ≤ bounce + j ∧ bounce + j < bounce + xfer * sectorSize :=
    ⟨Nat.le_add_right _ _, Nat.add_lt_add_left (mem_range.mp hj) _⟩
  rw [Hba.perform, bytes_buildCommand hpos hmax, hlow]
  show (if bounce ≤ bounce + j ∧ bounce + j < bounce + xfer * sectorSize then
    hba.disk (lba + (bounce + j - bounce) / sectorSize) ((bounce + j - bounce) % sectorSize)
    else _) = _
  rw [if_pos hin, Nat.add_sub_cancel_left]

theorem perform_outside {a : Nat} (hpos : 0 < xfer) (hmax : xfer ≤ 256)
    (ha : ¬ (bounce ≤ a ∧ a < bounce + xfer * sectorSize)) :
    hba.perform (buildCommand bounce lba xfer) mem a = mem a := by
  rw [Hba.perform, bytes_buildCommand hpos hmax]
  exact if_neg ha

theorem sectors_append (hba : Hba) (lba a b : Nat) :
    hba.sectors lba (a + b) = hba.sectors lba a ++ hba.sectors (lba + a) b := by
  rw [Hba.sectors, Nat.add_mul, range_add, map_append, map_map]
  apply congrArg
  apply map_congr_left
  intro j _
  show hba.disk (lba + (a * sectorSize + j) / sectorSize) ((a * sectorSize + j) % sectorSize) = _
  rw [Nat.add_comm (a * sectorSize), Nat.add_mul_div_right _ _ (by decide),
    Nat.add_mul_mod_self_right, Nat.add_comm (j / sectorSize), Nat.add_assoc]

/-- What the loop adds to a read that has issued `r.commands`. -/
structure LoopDone (hba : Hba) (bounce lba remaining : Nat) (r : AhciRead)
    (out : Bool × AhciRead) : Prop where
  covers : ∃ cs stop, out.2.commands = r.commands ++ cs ∧ stop ≤ lba + remaining ∧
    Consecutive lba cs stop ∧ (out.1 = true → stop = lba + remaining) ∧
    ∀ c ∈ cs, c.dba = bounce ∧ c.bytes ≤ xferOf remaining * sectorSize
  untouched : ∀ a, ¬ (bounce ≤ a ∧ a < bounce + xferOf remaining * sectorSize) →
    out.2.mem a = r.mem a
  received : out.1 = true → out.2.dst = r.dst ++ hba.sectors lba remaining

theorem LoopDone.finished (r : AhciRead) : LoopDone hba bounce lba 0 r (true, r) where
  covers := ⟨[], lba, (append_nil _).symm, Nat.le_refl _, rfl, fun _ => rfl, by simp⟩
  untouched _ _ := rfl
  received _ := (append_nil _).symm

theorem LoopDone.notReady (r : AhciRead) : LoopDone hba bounce lba remaining r (false, r) where
  covers := ⟨[], lba, (append_nil _).symm, Nat.le_add_right _ _, rfl, nofun, by simp⟩
  untouched _ _ := rfl
  received := nofun

/-- The state right after a command is issued. -/
def AhciRead.issue (r : AhciRead) (hba : Hba) (c : AhciCommand) : AhciRead :=
  { r with commands := r.commands ++ [c], mem := hba.perform c r.mem }

theorem consecutive_buildCommand {cs : List AhciCommand} {stop : Nat} (hlba : lba < 2 ^ 48)
    (hpos : 0 < xfer) (hmax : xfer ≤ 256) (h : Consecutive (lba + xfer) cs stop) :
    Consecutive lba (buildCommand bounce lba xfer :: cs) stop := by
  have hcount : (buildCommand bounce lba xfer).count.toNat = xfer := count_buildCommand hmax
  refine ⟨?_, ?_, ?_⟩
  · rw [buildCommand, BitVec.toNat_ofNat, Nat.mod_eq_of_lt hlba]
  · rw [hcount]
    exact hpos
  · rw [hcount]
    exact h

theorem LoopDone.failed (r : AhciRead) (hlba : lba < 2 ^ 48) (hpos : 0 < remaining) :
    LoopDone hba bounce lba remaining r
      (false, r.issue hba (buildCommand bounce lba (xferOf remaining))) where
  covers := by
    have hmax := xferOf_le_max remaining
    refine ⟨[_], lba + xferOf remaining, rfl, Nat.add_le_add_left (xferOf_le _) _,
      consecutive_buildCommand hlba (xferOf_pos hpos) hmax rfl, nofun, ?_⟩
    intro c hc
    rw [mem_singleton.mp hc]
    exact ⟨rfl, Nat.le_of_eq (bytes_buildCommand (xferOf_pos hpos) hmax)⟩
  untouched a ha := perform_outside (xferOf_pos hpos) (xferOf_le_max _) ha
  received := nofun

theorem xferOf_mono {a b : Nat} (h : a ≤ b) : xferOf a ≤ xferOf b := by
  unfold xferOf
  split <;> split <;> omega

/-- One completed command in front of the rest of the loop. -/
theorem LoopDone.next {r : AhciRead} {out : Bool × AhciRead} (hlba : lba < 2 ^ 48)
    (hpos : 0 < remaining)
    (h : LoopDone hba bounce (lba + xferOf remaining) (remaining - xferOf remaining)
      { r.issue hba (buildCommand bounce lba (xferOf remaining)) with
        dst := r.dst ++ hba.sectors lba (xferOf remaining) } out) :
    LoopDone hba bounce lba remaining r out := by
  have hmax := xferOf_le_max remaining
  have hx := xferOf_pos hpos
  have hsum : xferOf remaining + (remaining - xferOf remaining) = remaining :=
    Nat.add_sub_cancel' (xferOf_le remaining)
  have hshrink : xferOf (remaining - xferOf remaining) * sectorSize ≤
      xferOf remaining * sectorSize :=
    Nat.mul_le_mul_right _ (xferOf_mono (Nat.sub_le _ _))
  obtain ⟨cs, stop, hcs, hstop, hcons, hall, hfit⟩ := h.covers
  rw [Nat.add_assoc, hsum] at hstop hall
  constructor
  · refine ⟨buildCommand bounce lba (xferOf remaining) :: cs, stop, ?_, hstop,
      consecutive_buildCommand hlba hx hmax hcons, hall, ?_⟩
    · rw [hcs]
      exact append_assoc _ _ _
    · intro c hc
      rcases mem_cons.mp hc with rfl | hc
      · exact ⟨rfl, Nat.le_of_eq (bytes_buildCommand hx hmax)⟩
      · exact ⟨(hfit c hc).1, Nat.le_trans (hfit c hc).2 hshrink⟩
  · intro a ha
    have hrest : ¬ (bounce ≤ a ∧
        a < bounce + xferOf (remaining - xferOf remaining) * sectorSize) := fun hin =>
      ha ⟨hin.1, Nat.lt_of_lt_of_le hin.2 (Nat.add_le_add_left hshrink _)⟩
    exact (h.untouched a hrest).trans (perform_outside hx hmax ha)
  · intro hok
    rw [h.received hok, append_assoc, ← sectors_append, hsum]

/-- The loop covers the request command by command. The start of the last command has to fit
the 48 bits of the FIS. -/
theorem ahciLoop_done (hba : Hba) (bounce : Nat) {fuel : Nat} :
    ∀ {remaining lba : Nat} (r : AhciRead), remaining ≤ fuel →
      (0 < remaining → lba + (remaining - 1) / 256 * 256 < 2 ^ 48) →
      LoopDone hba bounce lba remaining r (ahciLoop hba bounce fuel remaining lba r) := by
  induction fuel with
  | zero =>
    intro remaining lba r hfuel _
    rw [Nat.le_zero.mp hfuel]
    exact LoopDone.finished r
  | succ fuel ih =>
    intro remaining lba r hfuel hlast
    rw [ahciLoop]
    split
    · next hzero =>
      rw [hzero]
      exact LoopDone.finished r
    next hsome =>
    have hpos : 0 < remaining := Nat.pos_of_ne_zero hsome
    have hlba : lba < 2 ^ 48 := Nat.lt_of_le_of_lt (Nat.le_add_right _ _) (hlast hpos)
    split
    · exact LoopDone.notReady r
    split
    · exact LoopDone.failed r hlba hpos
    · apply LoopDone.next hlba hpos
      have hcopy : copyBack (hba.perform (buildCommand bounce lba (xferOf remaining)) r.mem)
          bounce (xferOf remaining * sectorSize) = hba.sectors lba (xferOf remaining) :=
        copyBack_perform (xferOf_pos hpos) (xferOf_le_max _) hlba
      rw [← hcopy]
      apply ih
      · have := xferOf_pos hpos
        omega
      · intro hmore
        have hlast := hlast hpos
        have hfull : xferOf remaining = 256 := by
          unfold xferOf at hmore ⊢
          split at hmore
          · rw [if_pos ‹_›]
          · omega
        rw [hfull] at hmore ⊢
        omega

end Loop

section Read

variable {ports : AhciPorts} {hba : Hba} {port : Int} {lba count page : Nat} {pmm pmm' : Pmm}
  {mem : PhysBytes}

theorem ahciReadSectors_no_page (halloc : (pmmAllocDma 1 pmm).1 = none) :
    (ahciReadSectors ports hba port lba count pmm mem).1 = -1 ∧
      (ahciReadSectors ports hba port lba count pmm mem).2.2 = ⟨[], mem, []⟩ := by
  unfold ahciReadSectors
  split
  · exact ⟨rfl, rfl⟩
  · split
    · exact ⟨rfl, rfl⟩
    · next heq => rw [heq] at halloc; cases halloc

theorem ahciReadSectors_page (hport : ports.valid port = true)
    (halloc : pmmAllocDma 1 pmm = (some page, pmm')) :
    ahciReadSectors ports hba port lba count pmm mem =
      (if (ahciLoop hba (page * pageSize) count count lba ⟨[], mem, []⟩).1 then intOf count
        else -1, pmmFree page 1 pmm',
        (ahciLoop hba (page * pageSize) count count lba ⟨[], mem, []⟩).2) := by
  rw [ahciReadSectors, hport, halloc]
  rfl

/-- A read that issues no command promises nothing. -/
theorem readsWithin_of_none {result : Int × Pmm × AhciRead} {page : Option Nat}
    (hret : result.1 = -1) (hread : result.2.2 = ⟨[], mem, []⟩) :
    ReadsWithin hba page lba count mem result where
  covers := ⟨lba, Nat.le_add_right _ _, by rw [hread]; rfl, fun h => absurd hret h⟩
  inside c hc := by
    rw [hread] at hc
    cases hc
  untouched a _ := by rw [hread]
  received h := absurd hret h

theorem mem_page (page j : Nat) (hj : j < pageSize) : InPage page (page * pageSize + j) := by
  constructor
  · exact Nat.le_add_right _ _
  · rw [Nat.add_mul, Nat.one_mul]
    exact Nat.add_lt_add_left hj _

/-- A request of at most eight sectors is one command that fills at most the page. -/
theorem readsWithin_small (hport : ports.valid port = true) (hlba : lba < 2 ^ 48)
    (halloc : pmmAllocDma 1 pmm = (some page, pmm')) (hsmall : count ≤ 8) :
    ReadsWithin hba (some page) lba count mem
      (ahciReadSectors ports hba port lba count pmm mem) := by
  have hxfer : xferOf count = count := if_neg (by omega)
  have hsize : xferOf count * sectorSize ≤ pageSize := by
    rw [hxfer]
    exact Nat.mul_le_mul_right 512 hsmall
  have hdone : LoopDone hba (page * pageSize) lba count ⟨[], mem, []⟩
      (ahciLoop hba (page * pageSize) count count lba ⟨[], mem, []⟩) := by
    apply ahciLoop_done
    · exact Nat.le_refl _
    · intro _
      omega
  rw [ahciReadSectors_page hport halloc]
  have hok : (if (ahciLoop hba (page * pageSize) count count lba ⟨[], mem, []⟩).1 then intOf count
      else -1) ≠ -1 → (ahciLoop hba (page * pageSize) count count lba ⟨[], mem, []⟩).1 = true := by
    intro h
    by_contra hfail
    exact h (if_neg hfail)
  obtain ⟨cs, stop, hcs, hstop, hcons, hall, hfit⟩ := hdone.covers
  constructor
  · refine ⟨stop, hstop, ?_, fun h => hall (hok h)⟩
    rw [hcs]
    exact hcons
  · intro c hc j hj
    rw [hcs] at hc
    obtain ⟨hdba, hbytes⟩ := hfit c hc
    refine ⟨page, rfl, ?_⟩
    rw [hdba]
    exact mem_page page j (Nat.lt_of_lt_of_le hj (Nat.le_trans hbytes hsize))
  · intro a ha
    apply hdone.untouched a
    intro hin
    apply ha page rfl
    refine ⟨hin.1, Nat.lt_of_lt_of_le hin.2 ?_⟩
    rw [Nat.add_mul, Nat.one_mul]
    exact Nat.add_le_add_left hsize _
  · intro h
    exact hdone.received (hok h)

/-- The commands issued before the loop goes on stay in the list. -/
theorem ahciLoop_commands (hba : Hba) (bounce : Nat) {fuel : Nat} :
    ∀ {remaining lba : Nat} {r : AhciRead} {c : AhciCommand}, c ∈ r.commands →
      c ∈ (ahciLoop hba bounce fuel remaining lba r).2.commands := by
  induction fuel with
  | zero => exact fun h => h
  | succ fuel ih =>
    intro remaining lba r c hc
    rw [ahciLoop]
    split
    · exact hc
    split
    · exact hc
    split
    · exact mem_append_left _ hc
    · exact ih (mem_append_left _ hc)

/-- Once the port is ready, the first command is issued. -/
theorem first_command {r : AhciRead} (hpos : 0 < count) (hready : hba.ready r.commands.length) :
    buildCommand page lba (xferOf count) ∈ (ahciLoop hba page count count lba r).2.commands := by
  obtain ⟨fuel, rfl⟩ := Nat.exists_eq_succ_of_ne_zero (Nat.ne_of_gt hpos)
  have hnew : ∀ c : AhciCommand, c ∈ r.commands ++ [c] := fun c => by simp
  rw [ahciLoop, if_neg (Nat.succ_ne_zero fuel), hready, if_neg (by decide)]
  split
  · exact hnew _
  · exact ahciLoop_commands hba page (hnew _)

theorem not_readsWithin_large (hport : ports.valid port = true)
    (halloc : pmmAllocDma 1 pmm = (some page, pmm')) (hlarge : 8 < count)
    (hready : hba.ready 0 = true) :
    ¬ ReadsWithin hba (some page) lba count mem
      (ahciReadSectors ports hba port lba count pmm mem) := by
  intro h
  have hpos : 0 < count := by omega
  have hc := h.inside (buildCommand (page * pageSize) lba (xferOf count))
  rw [ahciReadSectors_page hport halloc] at hc
  have hnine : 9 ≤ xferOf count := by
    unfold xferOf
    split <;> omega
  have hover : pageSize < (buildCommand (page * pageSize) lba (xferOf count)).bytes := by
    rw [bytes_buildCommand (xferOf_pos hpos) (xferOf_le_max _)]
    exact Nat.lt_of_lt_of_le (by decide : pageSize < 9 * 512) (Nat.mul_le_mul_right 512 hnine)
  obtain ⟨p, hp, hin⟩ := hc (first_command hpos hready) pageSize hover
  cases Option.some.inj hp
  apply Nat.lt_irrefl ((page + 1) * pageSize)
  calc (page + 1) * pageSize = page * pageSize + pageSize := by rw [Nat.add_mul, Nat.one_mul]
    _ < (page + 1) * pageSize := hin.2

theorem small_of_bytes (h : count * sectorSize ≤ pageSize) : count ≤ 8 := by
  unfold sectorSize pageSize at h
  omega

theorem readsWithin_busy (hport : ports.valid port = true) (hlba : lba < 2 ^ 48)
    (halloc : pmmAllocDma 1 pmm = (some page, pmm')) (hbusy : hba.ready 0 = false) :
    ReadsWithin hba (some page) lba count mem
      (ahciReadSectors ports hba port lba count pmm mem) := by
  cases count with
  | zero => exact readsWithin_small hport hlba halloc (by decide)
  | succ n =>
    have hloop : ahciLoop hba (page * pageSize) (n + 1) (n + 1) lba ⟨[], mem, []⟩ =
        (false, ⟨[], mem, []⟩) := by
      rw [ahciLoop, if_neg (Nat.succ_ne_zero n)]
      show (if (!hba.ready 0) = true then _ else _) = _
      rw [hbusy]
      rfl
    rw [ahciReadSectors_page hport halloc, hloop]
    exact readsWithin_of_none rfl rfl

/-- There is no page for the bounce buffer exactly if no page below 4 GiB is free. -/
theorem pmmAllocDma_none_iff (pmm : Pmm) : (pmmAllocDma 1 pmm).1 = none ↔
    ∀ page, page < 4 * 1024 * 1024 * 1024 / pageSize → ¬ pmm.Free page := by
  rw [pmmAllocDma, pmmAllocBelow_none_iff (by decide)]
  constructor
  · intro h page hlow hfree
    apply h page
    refine ⟨Nat.succ_le_of_lt (lt_min hlow hfree.1), fun p hp hlt => ?_⟩
    rw [Nat.le_antisymm (Nat.le_of_lt_succ hlt) hp]
    exact hfree.2
  · intro h page hrun
    obtain ⟨hlow, htotal⟩ := lt_min_iff.mp (Nat.lt_of_succ_le hrun.1)
    exact h page hlow ⟨htotal, hrun.2 page (Nat.le_refl _) (Nat.lt_succ_self _)⟩

/-- A read of an active port keeps its promise exactly if the request fits the bounce page, or
if it issues no command: because there is no free page below 4 GiB, or because the port never
gets ready. -/
theorem ahci_read_within_iff (ports : AhciPorts) (hba : Hba) (port : Int) (lba count : Nat)
    (pmm : Pmm) (mem : PhysBytes) (hport : ports.valid port = true) (hlba : lba < 2 ^ 48) :
    ReadsWithin hba (pmmAllocDma 1 pmm).1 lba count mem
        (ahciReadSectors ports hba port lba count pmm mem) ↔
      count * sectorSize ≤ pageSize ∨
        (∀ page, page < 4 * 1024 * 1024 * 1024 / pageSize → ¬ pmm.Free page) ∨
        hba.ready 0 = false := by
  rw [← pmmAllocDma_none_iff]
  cases halloc : pmmAllocDma 1 pmm with
  | mk bounce pmm' =>
    cases bounce with
    | none =>
      have hnone : (pmmAllocDma 1 pmm).1 = none := by rw [halloc]
      obtain ⟨hret, hread⟩ := ahciReadSectors_no_page hnone
      exact iff_of_true (readsWithin_of_none hret hread) (.inr (.inl rfl))
    | some page =>
      constructor
      · intro h
        by_contra hcond
        simp only [not_or, reduceCtorEq, not_false_eq_true, true_and, Bool.not_eq_false]
          at hcond
        refine not_readsWithin_large hport halloc ?_ hcond.2 h
        by_contra hsmall
        exact hcond.1 (Nat.mul_le_mul_right 512 (Nat.le_of_not_lt hsmall))
      · rintro (hsmall | hnone | hbusy)
        · exact readsWithin_small hport hlba halloc (small_of_bytes hsmall)
        · cases hnone
        · exact readsWithin_busy hport hlba halloc hbusy

/-- Eight sectors that are read into the first free page. -/
theorem ahci_read_within_eight_sectors :
    let ports : AhciPorts := ⟨1, fun _ => true⟩
    let hba : Hba := ⟨fun s j => UInt8.ofNat (s + j), fun _ => true, fun _ => true⟩
    let pmm : Pmm := ⟨fun p => decide (p < 3), 16, 13⟩
    ReadsWithin hba (pmmAllocDma 1 pmm).1 100 8 (fun _ => 0)
      (ahciReadSectors ports hba 0 100 8 pmm fun _ => 0) :=
  (ahci_read_within_iff _ _ 0 100 8 _ _ (by decide) (by decide)).mpr (.inl (by decide))

/-- The read of sixteen sectors, one block of an ext2 with 8192-byte blocks, writes to the page
after the bounce page. -/
theorem ahci_read_overruns_page :
    ∃ (ports : AhciPorts) (hba : Hba) (pmm : Pmm) (mem : PhysBytes),
      ports.valid 0 = true ∧
        ¬ ReadsWithin hba (pmmAllocDma 1 pmm).1 100 16 mem
          (ahciReadSectors ports hba 0 100 16 pmm mem) := by
  have halloc : pmmAllocDma 1 ⟨fun p => decide (p < 3), 16, 13⟩ =
      (some 3, (pmmAllocDma 1 ⟨fun p => decide (p < 3), 16, 13⟩).2) := by
    apply Prod.ext
    · decide
    · rfl
  refine ⟨⟨1, fun _ => true⟩, ⟨fun s j => UInt8.ofNat (s + j), fun _ => true, fun _ => true⟩,
    ⟨fun p => decide (p < 3), 16, 13⟩, fun _ => 0, by decide, ?_⟩
  rw [halloc]
  exact not_readsWithin_large (by decide) halloc (by decide) rfl

end Read

end Mmix.Drivers
