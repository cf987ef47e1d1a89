import Mathlib

/-!
# Disk commands

`read` and `ahciwrite` of `sys/ahci.c` build a command in the table of a free slot: the entries of
the PRDT, 8 KiB each but the last one, and the register FIS. The table is taken to have room for
the entries.

The loop over the PRDT counts `count` down, and the FIS gets what is left of it. The entries and
the LBA are right for every command (`entries_spec`, `lba_spec`), the count of the FIS only for
those with one entry (`disk_command_iff`).
-/

namespace Sbunix

namespace Ahci

/-! ## The command table -/

/-- `hba_prdt_entry_t`: `dbc` has 22 bits, and holds a number of bytes. -/
structure PrdtEntry where
  dba : UInt64
  dbc : BitVec 22
  i : Bool
deriving DecidableEq

/-- The fields of `fis_reg_h2d_t` that are set. -/
structure FisRegH2d where
  fisType : UInt8
  c : Bool
  command : UInt8
  lba0 : UInt8
  lba1 : UInt8
  lba2 : UInt8
  device : UInt8
  lba3 : UInt8
  lba4 : UInt8
  lba5 : UInt8
  count : UInt16
deriving DecidableEq

structure Command where
  cfl : UInt8
  w : Bool
  prdtl : UInt16
  prdtEntry : List PrdtEntry
  cfis : FisRegH2d
deriving DecidableEq

/-- `find_cmdslot`, for the capabilities of the controller and two registers of the port. -/
def findCmdslot (cap sact ci : UInt32) : Option Nat :=
  (List.range ((cap &&& 0x0f00) >>> 8).toNat).find? fun i =>
    ((sact ||| ci) >>> UInt32.ofNat i) &&& 1 = 0

/-- The loop over the PRDT, for `prdtl - 1` turns, and the last entry: the entries and the `count`
that is left. -/
def prdtEntries : Nat → UInt64 → UInt32 → List PrdtEntry × UInt32
  | 0, buf, count => ([⟨buf, BitVec.ofNat 22 (count <<< 9).toNat, true⟩], count)
  | n + 1, buf, count =>
    let (entries, left) := prdtEntries n (buf + 2 * (4 * 1024)) (count - 16)
    (⟨buf, 8 * 1024, true⟩ :: entries, left)

/-- `(WORD)((count-1)>>4) + 1`. -/
def prdtlOf (count : UInt32) : UInt16 := ((count - 1) >>> 4).toUInt16 + 1

/-- The command of `read` and `ahciwrite`. `cfl` is the size of an enumeration constant in words. -/
def buildCommand (w : Bool) (command : UInt8) (startl starth count : UInt32) (buf : UInt64) :
    Command :=
  let (entries, count') := prdtEntries ((prdtlOf count).toNat - 1) buf count
  { cfl := 1
    w := w
    prdtl := prdtlOf count
    prdtEntry := entries
    cfis := {
      fisType := 0x27
      c := true
      command := command
      lba0 := startl.toUInt8
      lba1 := (startl >>> 8).toUInt8
      lba2 := (startl >>> 16).toUInt8
      device := (1 : UInt8) <<< 6
      lba3 := (startl >>> 24).toUInt8
      lba4 := starth.toUInt8
      lba5 := (starth >>> 8).toUInt8
      count := count'.toUInt16 } }

/-- `read` up to where the command is issued: the slot and the command, if a slot is free. -/
def read (cap sact ci startl starth count : UInt32) (buf : UInt64) : Option (Nat × Command) :=
  (findCmdslot cap sact ci).map fun slot =>
    (slot, buildCommand false 0x25 startl starth count buf)

def ahciwrite (cap sact ci startl starth count : UInt32) (buf : UInt64) : Option (Nat × Command) :=
  (findCmdslot cap sact ci).map fun slot =>
    (slot, buildCommand true 0x35 startl starth count buf)

/-! ## What is asked of a command -/

def Contiguous : UInt64 → List PrdtEntry → Prop
  | _, [] => True
  | a, e :: entries => e.dba = a ∧ Contiguous (a + UInt64.ofNat e.dbc.toNat) entries

def bytes (entries : List PrdtEntry) : Nat := (entries.map fun e => e.dbc.toNat).sum

def FisRegH2d.lba (f : FisRegH2d) : Nat :=
  f.lba0.toNat + f.lba1.toNat * 2 ^ 8 + f.lba2.toNat * 2 ^ 16 + f.lba3.toNat * 2 ^ 24 +
    f.lba4.toNat * 2 ^ 32 + f.lba5.toNat * 2 ^ 40

/-- A command that transfers `count` sectors from an LBA on into the memory at `buf`. -/
structure Transfers (startl starth count : UInt32) (buf : UInt64) (c : Command) : Prop where
  length : c.prdtEntry.length = c.prdtl.toNat
  contiguous : Contiguous buf c.prdtEntry
  bytes : bytes c.prdtEntry = 512 * count.toNat
  count : c.cfis.count.toNat = count.toNat
  lba : c.cfis.lba = startl.toNat + starth.toNat * 2 ^ 32

section

variable {startl starth count : UInt32} {buf : UInt64} {w : Bool} {command : UInt8} {n r : Nat}

/-! ## The entries -/

/-- A turn leaves the rest of the transfer to the next ones. -/
theorem prdtEntries_spec (buf : UInt64) (hcount : count.toNat = 16 * n + r) (hr : r ≤ 16) :
    (prdtEntries n buf count).1.length = n + 1 ∧
      Contiguous buf (prdtEntries n buf count).1 ∧
      bytes (prdtEntries n buf count).1 = 512 * count.toNat ∧
      (prdtEntries n buf count).2.toNat = r := by
  induction n generalizing buf count with
  | zero =>
    have hdbc : (BitVec.ofNat 22 (count <<< 9).toNat).toNat = 512 * count.toNat := by
      have hshift : (9 : UInt32).toNat % 32 = 9 := rfl
      rw [BitVec.toNat_ofNat, UInt32.toNat_shiftLeft, Nat.shiftLeft_eq, hshift]
      omega
    refine ⟨rfl, ⟨rfl, trivial⟩, ?_, by simpa [prdtEntries] using hcount⟩
    exact (Nat.add_zero _).trans hdbc
  | succ n ih =>
    have hsixteen : (16 : UInt32).toNat = 16 := rfl
    have hleft : (count - 16).toNat = 16 * n + r := by
      rw [UInt32.toNat_sub_of_le _ _ (UInt32.le_iff_toNat_le.2 (by omega))]
      omega
    obtain ⟨hlength, hcontiguous, hbytes, hr'⟩ := ih (buf + 2 * (4 * 1024)) hleft
    refine ⟨congrArg (· + 1) hlength, ⟨rfl, hcontiguous⟩, ?_, hr'⟩
    change 8192 + bytes (prdtEntries n _ _).1 = _
    rw [hbytes, hleft]
    omega

theorem prdtlOf_toNat (hpos : 0 < count) (hle : count ≤ 65535) :
    (prdtlOf count).toNat = (count.toNat - 1) / 16 + 1 := by
  have hpos' : 0 < count.toNat := UInt32.lt_iff_toNat_lt.1 hpos
  have hle' : count.toNat ≤ 65535 := UInt32.le_iff_toNat_le.1 hle
  have hsub : (count - 1).toNat = count.toNat - 1 :=
    UInt32.toNat_sub_of_le _ _ (UInt32.le_iff_toNat_le.2 hpos')
  have hshift : (4 : UInt32).toNat % 32 = 4 := rfl
  have hone : (1 : UInt16).toNat = 1 := rfl
  rw [prdtlOf, UInt16.toNat_add, UInt32.toNat_toUInt16, UInt32.toNat_shiftRight, hsub,
    Nat.shiftRight_eq_div_pow, hshift, hone]
  omega

theorem entries_spec (w : Bool) (command : UInt8) (startl starth : UInt32) (buf : UInt64)
    (hpos : 0 < count) (hle : count ≤ 65535) :
    let c := buildCommand w command startl starth count buf
    c.prdtEntry.length = c.prdtl.toNat ∧ Contiguous buf c.prdtEntry ∧
      bytes c.prdtEntry = 512 * count.toNat ∧
      c.cfis.count.toNat = (count.toNat - 1) % 16 + 1 := by
  have hpos' : 0 < count.toNat := UInt32.lt_iff_toNat_lt.1 hpos
  have hprdtl := prdtlOf_toNat hpos hle
  have hcount : count.toNat = 16 * ((prdtlOf count).toNat - 1) + ((count.toNat - 1) % 16 + 1) := by
    omega
  obtain ⟨hlength, hcontiguous, hbytes, hleft⟩ := prdtEntries_spec buf hcount (by omega)
  refine ⟨?_, hcontiguous, hbytes, ?_⟩
  · change (prdtEntries _ _ _).1.length = (prdtlOf count).toNat
    omega
  · change (prdtEntries _ _ _).2.toUInt16.toNat = _
    rw [UInt32.toNat_toUInt16, hleft]
    omega

theorem lba_spec (w : Bool) (command : UInt8) (startl count : UInt32) (buf : UInt64)
    (hstarth : starth < 0x10000) :
    (buildCommand w command startl starth count buf).cfis.lba =
      startl.toNat + starth.toNat * 2 ^ 32 := by
  have hstarth' : starth.toNat < 0x10000 := UInt32.lt_iff_toNat_lt.1 hstarth
  have hstartl := startl.toNat_lt
  have h8 : (8 : UInt32).toNat % 32 = 8 := rfl
  have h16 : (16 : UInt32).toNat % 32 = 16 := rfl
  have h24 : (24 : UInt32).toNat % 32 = 24 := rfl
  simp only [buildCommand, FisRegH2d.lba, UInt32.toNat_toUInt8, UInt32.toNat_shiftRight,
    Nat.shiftRight_eq_div_pow, h8, h16, h24]
  omega

theorem transfers_iff (w : Bool) (command : UInt8) (startl : UInt32) (buf : UInt64)
    (hpos : 0 < count) (hle : count ≤ 65535) (hstarth : starth < 0x10000) :
    Transfers startl starth count buf (buildCommand w command startl starth count buf) ↔
      count ≤ 16 := by
  have hpos' : 0 < count.toNat := UInt32.lt_iff_toNat_lt.1 hpos
  obtain ⟨hlength, hcontiguous, hbytes, hcount⟩ :=
    entries_spec w command startl starth buf hpos hle
  rw [UInt32.le_iff_toNat_le]
  constructor
  · intro h
    have hsame := h.count
    rw [hcount] at hsame
    change count.toNat ≤ 16
    omega
  · intro hfew
    have hfew' : count.toNat ≤ 16 := hfew
    exact ⟨hlength, hcontiguous, hbytes, hcount.trans (by omega),
      lba_spec w command startl count buf hstarth⟩

/-- **Disk commands.** For both directions, the command is the right one exactly for transfers of at
most 16 sectors. -/
theorem disk_command_iff {cap sact ci : UInt32} {slot : Nat} {c : Command} (hpos : 0 < count)
    (hle : count ≤ 65535) (hstarth : starth < 0x10000)
    (hbuilt : read cap sact ci startl starth count buf = some (slot, c) ∨
      ahciwrite cap sact ci startl starth count buf = some (slot, c)) :
    Transfers startl starth count buf c ↔ count ≤ 16 := by
  obtain hbuilt | hbuilt := hbuilt
  · obtain ⟨slot, -, heq⟩ := Option.map_eq_some_iff.1 hbuilt
    cases heq
    exact transfers_iff _ _ _ _ hpos hle hstarth
  · obtain ⟨slot, -, heq⟩ := Option.map_eq_some_iff.1 hbuilt
    cases heq
    exact transfers_iff _ _ _ _ hpos hle hstarth

end

theorem disk_command_sectors :
    Transfers 5 0 16 0x200000 (buildCommand false 0x25 5 0 16 0x200000) :=
  have hbuilt : read 0x0f00 0 0 5 0 16 0x200000 =
      some (0, buildCommand false 0x25 5 0 16 0x200000) := rfl
  (disk_command_iff (by decide) (by decide) (by decide) (Or.inl hbuilt)).2 (by decide)

/-- A read of 17 sectors, of which the FIS asks for one. -/
theorem disk_command_short :
    ¬ Transfers 5 0 17 0x200000 (buildCommand false 0x25 5 0 17 0x200000) := by
  intro h
  exact absurd h.count (by decide)

end Ahci

end Sbunix
