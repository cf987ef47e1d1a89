import Sbunix.Ahci
import Sbunix.Lib.Record
import Sbunix.Lib.Run

/-!
# The memory of the disk commands

`port_rebase` gives each of the 32 ports a list of 32 command headers and each header a table of
256 bytes, and `read` and `ahciwrite` store their command in the header and the table of a slot.
The controller finds the table by its address in the header.

`readCommand` is what the controller reads. `command_memory` follows any ports, commands and other
code: in each slot the controller finds the command that was stored there last, as long as no
command has more than 16 sectors. The table is cleared with the size of a whole `hba_cmd_tbl_t`,
which has room for one entry and is 256 bytes long, and 16 bytes for each further entry. So a longer
command clears the start of the table behind its own (`long_command_clears`).
-/

namespace Sbunix

namespace Ahci

open Lib

/-! ## Stores -/

/-- The offsets are those of `hba_prdt_entry_t`. -/
def storeEntry (m : Mem) (a : Nat) (e : PrdtEntry) : Mem :=
  let m := writeLE m a 8 e.dba.toNat
  let m := writeBits m (a + 12) 4 0 22 e.dbc.toNat
  writeBits m (a + 12) 4 31 1 e.i.toNat

def storeEntries (m : Mem) (a : Nat) : List PrdtEntry → Mem
  | [] => m
  | e :: es => storeEntries (storeEntry m a e) (a + 16) es

/-- The offsets are those of `fis_reg_h2d_t`. -/
def storeFis (m : Mem) (a : Nat) (f : FisRegH2d) : Mem :=
  let m := writeLE m a 1 f.fisType.toNat
  let m := writeBits m (a + 1) 1 7 1 f.c.toNat
  let m := writeLE m (a + 2) 1 f.command.toNat
  let m := writeLE m (a + 4) 1 f.lba0.toNat
  let m := writeLE m (a + 5) 1 f.lba1.toNat
  let m := writeLE m (a + 6) 1 f.lba2.toNat
  let m := writeLE m (a + 7) 1 f.device.toNat
  let m := writeLE m (a + 8) 1 f.lba3.toNat
  let m := writeLE m (a + 9) 1 f.lba4.toNat
  let m := writeLE m (a + 10) 1 f.lba5.toNat
  writeLE m (a + 12) 2 f.count.toNat

/-- The stores to a `hba_cmd_header_t`. -/
def storeHeader (m : Mem) (header : Nat) (c : Command) : Mem :=
  let m := writeBits m header 1 0 5 c.cfl.toNat
  let m := writeBits m header 1 6 1 c.w.toNat
  writeLE m (header + 2) 2 c.prdtl.toNat

/-- `memset` and the stores to a `hba_cmd_tbl_t`. -/
def storeTable (m : Mem) (table : Nat) (c : Command) : Mem :=
  let m := clear m table (256 + (c.prdtl.toNat - 1) * 16)
  let m := storeEntries m (table + 0x80) c.prdtEntry
  storeFis m table c.cfis

/-- The stores of `read` and `ahciwrite` for a slot of the list at `clb`. -/
def storeCommand (m : Mem) (clb slot : Nat) (c : Command) : Mem :=
  let cmdheader := clb + 32 * slot
  let m := storeHeader m cmdheader c
  storeTable m (readLE m (cmdheader + 8) 8) c

/-! ## Ports -/

def ahciBase : Nat := 0x800000

/-- The addresses that `port_rebase` computes. -/
def clbOf (portno : Nat) : Nat := ahciBase + (portno <<< 10)

def fbOf (portno : Nat) : Nat := ahciBase + (32 <<< 10) + (portno <<< 8)

def ctbaOf (portno i : Nat) : Nat := ahciBase + (40 <<< 10) + (portno <<< 13) + (i <<< 8)

/-- The registers `clb` of the ports, and the memory. -/
structure Hba where
  clb : Nat → Nat
  mem : Mem

/-- A turn of the loop in `port_rebase`. -/
def rebaseSlot (portno : Nat) (m : Mem) (i : Nat) : Mem :=
  let cmdheader := clbOf portno + 32 * i
  let m := writeLE m (cmdheader + 2) 2 8
  let m := writeLE m (cmdheader + 8) 8 (ctbaOf portno i)
  clear m (readLE m (cmdheader + 8) 8) 256

def portRebase (portno : Nat) (s : Hba) : Hba where
  clb := Function.update s.clb portno (clbOf portno)
  mem := (List.range 32).foldl (rebaseSlot portno)
    (clear (clear s.mem (clbOf portno) 1024) (fbOf portno) 256)

/-! ## The controller -/

def readEntry (m : Mem) (a : Nat) : PrdtEntry where
  dba := UInt64.ofNat (readLE m a 8)
  dbc := BitVec.ofNat 22 (bitField 0 22 (readLE m (a + 12) 4))
  i := bitField 31 1 (readLE m (a + 12) 4) = 1

def readEntries (m : Mem) (a : Nat) : Nat → List PrdtEntry
  | 0 => []
  | n + 1 => readEntry m a :: readEntries m (a + 16) n

def readFis (m : Mem) (a : Nat) : FisRegH2d where
  fisType := UInt8.ofNat (readLE m a 1)
  c := bitField 7 1 (readLE m (a + 1) 1) = 1
  command := UInt8.ofNat (readLE m (a + 2) 1)
  lba0 := UInt8.ofNat (readLE m (a + 4) 1)
  lba1 := UInt8.ofNat (readLE m (a + 5) 1)
  lba2 := UInt8.ofNat (readLE m (a + 6) 1)
  device := UInt8.ofNat (readLE m (a + 7) 1)
  lba3 := UInt8.ofNat (readLE m (a + 8) 1)
  lba4 := UInt8.ofNat (readLE m (a + 9) 1)
  lba5 := UInt8.ofNat (readLE m (a + 10) 1)
  count := UInt16.ofNat (readLE m (a + 12) 2)

/-- The command in a slot. -/
def readCommand (m : Mem) (clb slot : Nat) : Command :=
  let cmdheader := clb + 32 * slot
  let ctba := readLE m (cmdheader + 8) 8
  let prdtl := UInt16.ofNat (readLE m (cmdheader + 2) 2)
  { cfl := UInt8.ofNat (bitField 0 5 (readLE m cmdheader 1))
    w := bitField 6 1 (readLE m cmdheader 1) = 1
    prdtl := prdtl
    prdtEntry := readEntries m (ctba + 0x80) prdtl.toNat
    cfis := readFis m ctba }

section

variable {m m' : Mem} {a b k n header table clb slot : Nat} {e : PrdtEntry} {es : List PrdtEntry}
  {f : FisRegH2d} {c : Command}

/-! ## What a store changes -/

theorem agree_storeEntry (m : Mem) (e : PrdtEntry) (h : b + k ≤ a ∨ a + 16 ≤ b) :
    Agree m (storeEntry m a e) b k :=
  ((agree_writeLE m _ (by omega)).trans (agree_writeBits _ _ _ _ (by omega))).trans
    (agree_writeBits _ _ _ _ (by omega))

theorem agree_storeEntries (m : Mem) (es : List PrdtEntry)
    (h : b + k ≤ a ∨ a + 16 * es.length ≤ b) : Agree m (storeEntries m a es) b k := by
  induction es generalizing m a with
  | nil => exact Agree.refl _ _ _
  | cons e es ih =>
    rw [List.length_cons] at h
    exact (agree_storeEntry m e (by omega)).trans (ih _ (by omega))

theorem agree_storeFis (m : Mem) (f : FisRegH2d) (h : b + k ≤ a ∨ a + 14 ≤ b) :
    Agree m (storeFis m a f) b k := by
  have hle : ∀ (m : Mem) (d n v : Nat), d + n ≤ 14 → Agree m (writeLE m (a + d) n v) b k :=
    fun m d n v hd => agree_writeLE m v (by omega)
  refine Agree.trans ?_ (hle _ 12 2 _ (by decide))
  refine Agree.trans ?_ (hle _ 10 1 _ (by decide))
  refine Agree.trans ?_ (hle _ 9 1 _ (by decide))
  refine Agree.trans ?_ (hle _ 8 1 _ (by decide))
  refine Agree.trans ?_ (hle _ 7 1 _ (by decide))
  refine Agree.trans ?_ (hle _ 6 1 _ (by decide))
  refine Agree.trans ?_ (hle _ 5 1 _ (by decide))
  refine Agree.trans ?_ (hle _ 4 1 _ (by decide))
  refine Agree.trans ?_ (hle _ 2 1 _ (by decide))
  exact (hle _ 0 1 _ (by decide)).trans (agree_writeBits _ _ _ _ (by omega))

theorem agree_storeHeader (m : Mem) (c : Command) (h : b + k ≤ header ∨ header + 4 ≤ b) :
    Agree m (storeHeader m header c) b k :=
  ((agree_writeBits m _ _ _ (by omega)).trans (agree_writeBits _ _ _ _ (by omega))).trans
    (agree_writeLE _ _ (by omega))

theorem agree_storeTable (m : Mem) (hlen : c.prdtEntry.length = c.prdtl.toNat)
    (h : b + k ≤ table ∨ table + 256 + (c.prdtl.toNat - 1) * 16 ≤ b) :
    Agree m (storeTable m table c) b k :=
  ((agree_clear m (by omega)).trans (agree_storeEntries _ _ (by omega))).trans
    (agree_storeFis _ _ (by omega))

/-! ## What the controller reads -/

theorem readLE_writeLE_of_disjoint (m : Mem) (v : Nat) (h : b + k ≤ a ∨ a + n ≤ b) :
    readLE (writeLE m a n v) b k = readLE m b k := (agree_writeLE m v h).readLE

theorem readLE_writeBits_of_disjoint (m : Mem) (start width v : Nat) (h : b + k ≤ a ∨ a + n ≤ b) :
    readLE (writeBits m a n start width v) b k = readLE m b k :=
  (agree_writeBits m start width v h).readLE

theorem toNat_bool_bit (x : Bool) : decide (x.toNat % 2 ^ 1 = 1) = x := by
  cases x <;> rfl

theorem ofNat_byte (x : UInt8) : UInt8.ofNat (x.toNat % 256 ^ 1) = x := by
  simp

theorem readEntry_storeEntry (m : Mem) (a : Nat) (e : PrdtEntry) :
    readEntry (storeEntry m a e) a = e := by
  obtain ⟨dba, dbc, i⟩ := e
  have hdba := dba.toNat_lt
  have hdbc := dbc.isLt
  simp (disch := omega) only [readEntry, storeEntry, readLE_writeBits_of_disjoint, readLE_writeLE,
    bitField_writeBits, bitField_writeBits_of_disjoint]
  simp only [toNat_bool_bit, PrdtEntry.mk.injEq, and_true]
  constructor
  · rw [Nat.mod_eq_of_lt (by omega), UInt64.ofNat_toNat]
  · rw [Nat.mod_eq_of_lt hdbc, BitVec.ofNat_toNat, BitVec.setWidth_eq]

theorem readEntry_congr (h : Agree m m' a 16) : readEntry m' a = readEntry m a := by
  have h₁ : Agree m m' a 8 := h.mono le_rfl (by omega)
  have h₂ : Agree m m' (a + 12) 4 := h.mono (by omega) (by omega)
  rw [readEntry, readEntry, h₁.readLE, h₂.readLE]

theorem readEntries_congr (h : Agree m m' a (16 * n)) :
    readEntries m' a n = readEntries m a n := by
  induction n generalizing a with
  | zero => rfl
  | succ n ih =>
    have h₁ : Agree m m' a 16 := h.mono le_rfl (by omega)
    rw [readEntries, readEntries, readEntry_congr h₁,
      ih (h.mono (by omega) (by omega))]

theorem readEntries_storeEntries (m : Mem) (a : Nat) (es : List PrdtEntry) :
    readEntries (storeEntries m a es) a es.length = es := by
  induction es generalizing m a with
  | nil => rfl
  | cons e es ih =>
    have hrest : Agree (storeEntry m a e) (storeEntries (storeEntry m a e) (a + 16) es) a 16 :=
      agree_storeEntries _ es (Or.inl le_rfl)
    rw [List.length_cons, readEntries, storeEntries, readEntry_congr hrest, readEntry_storeEntry,
      ih]

theorem readFis_congr (h : Agree m m' a 14) : readFis m' a = readFis m a := by
  have hle : ∀ d n, d + n ≤ 14 → readLE m' (a + d) n = readLE m (a + d) n :=
    fun d n hd => (h.mono (by omega) (by omega) : Agree m m' (a + d) n).readLE
  have hzero := hle 0 1 (by decide)
  rw [Nat.add_zero] at hzero
  simp only [readFis, hzero, hle _ 1 (show 1 + 1 ≤ 14 by decide),
    hle 2 1 (by decide), hle 4 1 (by decide), hle 5 1 (by decide), hle 6 1 (by decide),
    hle 7 1 (by decide), hle 8 1 (by decide), hle 9 1 (by decide), hle 10 1 (by decide),
    hle 12 2 (by decide)]

theorem readFis_storeFis (m : Mem) (a : Nat) (f : FisRegH2d) : readFis (storeFis m a f) a = f := by
  obtain ⟨fisType, fc, cmd, lba0, lba1, lba2, device, lba3, lba4, lba5, count⟩ := f
  have hcount : UInt16.ofNat (count.toNat % 256 ^ 2) = count := by simp
  simp (disch := omega) only [readFis, storeFis, readLE_writeLE_of_disjoint,
    readLE_writeBits_of_disjoint, readLE_writeLE, bitField_writeBits, toNat_bool_bit, ofNat_byte,
    hcount]

/-- The table of a slot. -/
def tableOf (m : Mem) (clb slot : Nat) : Nat := readLE m (clb + 32 * slot + 8) 8

/-- The controller reads the header but for `prdbc`, and as much of the table as the header says. -/
theorem readCommand_congr (hheader : Agree m m' (clb + 32 * slot) 4)
    (hctba : Agree m m' (clb + 32 * slot + 8) 8)
    (htable : Agree m m' (tableOf m clb slot)
      (128 + 16 * (readCommand m clb slot).prdtl.toNat)) :
    readCommand m' clb slot = readCommand m clb slot := by
  have hflags := (hheader.mono le_rfl (by omega) : Agree m m' (clb + 32 * slot) 1).readLE
  have hprdtl := (hheader.mono (by omega) (by omega) : Agree m m' (clb + 32 * slot + 2) 2).readLE
  have hctba' := hctba.readLE
  have hfis := readFis_congr (htable.mono le_rfl (by omega) : Agree m m' (tableOf m clb slot) 14)
  have hentries : readEntries m' (tableOf m clb slot + 0x80) (readCommand m clb slot).prdtl.toNat =
      readEntries m (tableOf m clb slot + 0x80) (readCommand m clb slot).prdtl.toNat :=
    readEntries_congr (htable.mono (by omega) (by omega))
  simp only [tableOf, readCommand] at hfis hentries
  simp only [readCommand, hflags, hprdtl, hctba', hfis, hentries]

theorem storeCommand_eq (m : Mem) (clb slot : Nat) (c : Command) :
    storeCommand m clb slot c =
      storeTable (storeHeader m (clb + 32 * slot) c) (tableOf m clb slot) c := by
  have hctba : readLE (storeHeader m (clb + 32 * slot) c) (clb + 32 * slot + 8) 8 =
      tableOf m clb slot := (agree_storeHeader m c (Or.inr (by omega))).readLE
  simp only [storeCommand, hctba]

/-- The controller finds the command that is stored. -/
theorem readCommand_storeCommand (m : Mem) (hlen : c.prdtEntry.length = c.prdtl.toNat)
    (hcfl : c.cfl.toNat < 32) (hapart : clb + 32 * slot + 16 ≤ tableOf m clb slot) :
    readCommand (storeCommand m clb slot c) clb slot = c := by
  obtain ⟨cfl, w, prdtl, es, f⟩ := c
  rw [storeCommand_eq]
  set t := tableOf m clb slot with ht
  set m₁ := storeHeader m (clb + 32 * slot) ⟨cfl, w, prdtl, es, f⟩ with hm₁
  set m₂ := storeTable m₁ t ⟨cfl, w, prdtl, es, f⟩ with hm₂
  have hkept : Agree m₁ m₂ (clb + 32 * slot) 16 := agree_storeTable _ hlen (Or.inl hapart)
  have hflags : readLE m₂ (clb + 32 * slot) 1 = readLE m₁ (clb + 32 * slot) 1 :=
    (hkept.mono le_rfl (by omega)).readLE
  have hprdtl : readLE m₂ (clb + 32 * slot + 2) 2 = prdtl.toNat % 256 ^ 2 :=
    (hkept.mono (by omega) (by omega)).readLE.trans (readLE_writeLE _ _ _ _)
  have hctba : readLE m₂ (clb + 32 * slot + 8) 8 = t :=
    (hkept.mono (by omega) (by omega)).readLE.trans
      (agree_storeHeader m _ (Or.inr (by omega))).readLE
  have hprdtl' : UInt16.ofNat (prdtl.toNat % 256 ^ 2) = prdtl := by simp
  have hfis : readFis m₂ t = f := readFis_storeFis _ t f
  have hentries : readEntries m₂ (t + 0x80) prdtl.toNat = es := by
    rw [← hlen, hm₂, storeTable, readEntries_congr (agree_storeFis _ f (Or.inr (by omega))),
      readEntries_storeEntries]
  have hcfl' : bitField 0 5 (readLE m₁ (clb + 32 * slot) 1) = cfl.toNat := by
    simp (disch := omega) only [hm₁, storeHeader, readLE_writeLE_of_disjoint, bitField_writeBits,
      bitField_writeBits_of_disjoint]
    exact Nat.mod_eq_of_lt hcfl
  have hw : bitField 6 1 (readLE m₁ (clb + 32 * slot) 1) = w.toNat % 2 ^ 1 := by
    simp (disch := omega) only [hm₁, storeHeader, readLE_writeLE_of_disjoint, bitField_writeBits]
  simp only [readCommand, hflags, hprdtl, hctba, hprdtl', hfis, hentries, hcfl', hw,
    toNat_bool_bit, UInt8.ofNat_toNat]

/-- A command changes its header and its table. -/
theorem agree_storeCommand (m : Mem) (hlen : c.prdtEntry.length = c.prdtl.toNat)
    (hheader : b + k ≤ clb + 32 * slot ∨ clb + 32 * slot + 4 ≤ b)
    (htable : b + k ≤ tableOf m clb slot ∨
      tableOf m clb slot + 256 + (c.prdtl.toNat - 1) * 16 ≤ b) :
    Agree m (storeCommand m clb slot c) b k := by
  rw [storeCommand_eq]
  exact (agree_storeHeader m c hheader).trans (agree_storeTable _ hlen htable)

end

/-! ## The tables of a port -/

section

variable {m m' : Mem} {b k n p i q j : Nat}

theorem clbOf_eq (p : Nat) : clbOf p = 0x800000 + 1024 * p := by
  rw [clbOf, ahciBase, Nat.shiftLeft_eq]
  omega

theorem fbOf_eq (p : Nat) : fbOf p = 0x808000 + 256 * p := by
  rw [fbOf, ahciBase, Nat.shiftLeft_eq, Nat.shiftLeft_eq]
  omega

theorem ctbaOf_eq (p i : Nat) : ctbaOf p i = 0x80A000 + 8192 * p + 256 * i := by
  rw [ctbaOf, ahciBase, Nat.shiftLeft_eq, Nat.shiftLeft_eq, Nat.shiftLeft_eq]
  omega

theorem rebaseSlot_eq (hp : p < 32) (hi : i < 32) (m : Mem) :
    rebaseSlot p m i =
      clear (writeLE (writeLE m (clbOf p + 32 * i + 2) 2 8) (clbOf p + 32 * i + 8) 8 (ctbaOf p i))
        (ctbaOf p i) 256 := by
  have hlt := ctbaOf_eq p i
  have hread : ∀ m : Mem, readLE (writeLE m (clbOf p + 32 * i + 8) 8 (ctbaOf p i))
      (clbOf p + 32 * i + 8) 8 = ctbaOf p i := by
    intro m
    rw [readLE_writeLE, Nat.mod_eq_of_lt (by omega)]
  simp only [rebaseSlot, hread]

theorem agree_rebaseSlot (hp : p < 32) (hi : i < 32) (m : Mem)
    (hheader : b + k ≤ clbOf p + 32 * i ∨ clbOf p + 32 * i + 32 ≤ b)
    (htable : b + k ≤ ctbaOf p i ∨ ctbaOf p i + 256 ≤ b) : Agree m (rebaseSlot p m i) b k := by
  rw [rebaseSlot_eq hp hi]
  exact ((agree_writeLE m _ (by omega)).trans (agree_writeLE _ _ (by omega))).trans
    (agree_clear _ htable)

theorem tableOf_rebaseSlot (hp : p < 32) (hi : i < 32) (m : Mem) :
    tableOf (rebaseSlot p m i) (clbOf p) i = ctbaOf p i := by
  have hclb := clbOf_eq p
  have hctba := ctbaOf_eq p i
  rw [tableOf, rebaseSlot_eq hp hi, (agree_clear _ (by omega)).readLE, readLE_writeLE,
    Nat.mod_eq_of_lt (by omega)]

/-- The loop of `port_rebase`. -/
theorem rebaseSlots_spec (hp : p < 32) (hn : n ≤ 32) (m : Mem) :
    (∀ i < n, tableOf ((List.range n).foldl (rebaseSlot p) m) (clbOf p) i = ctbaOf p i) ∧
      ∀ b k, (b + k ≤ clbOf p ∨ clbOf p + 1024 ≤ b) →
        (b + k ≤ ctbaOf p 0 ∨ ctbaOf p 0 + 8192 ≤ b) →
        Agree m ((List.range n).foldl (rebaseSlot p) m) b k := by
  have hclb := clbOf_eq p
  have hctba := ctbaOf_eq p
  have hctba₀ := hctba 0
  induction n with
  | zero => exact ⟨fun i hi => absurd hi (Nat.not_lt_zero i), fun b k _ _ => Agree.refl m b k⟩
  | succ n ih =>
    obtain ⟨htables, hkept⟩ := ih (by omega)
    have hctbaₙ := hctba n
    rw [List.range_succ, List.foldl_append, List.foldl_cons, List.foldl_nil]
    refine ⟨fun i hi => ?_, fun b k hb hb' => (hkept b k hb hb').trans
      (agree_rebaseSlot hp (by omega) _ (by omega) (by omega))⟩
    by_cases heq : i = n
    · rw [heq]
      exact tableOf_rebaseSlot hp (by omega) _
    · have hlt : i < n := by omega
      have hagree := agree_rebaseSlot (b := clbOf p + 32 * i + 8) (k := 8) hp (by omega)
        ((List.range n).foldl (rebaseSlot p) m) (i := n) (by omega) (by omega)
      rw [tableOf, hagree.readLE]
      exact htables i hlt

/-- **`port_rebase`** gives each slot of the port its table, and leaves the other ports alone. -/
theorem portRebase_spec (hp : p < 32) (s : Hba) :
    (∀ i < 32, tableOf (portRebase p s).mem (clbOf p) i = ctbaOf p i) ∧
      ∀ b k, (b + k ≤ clbOf p ∨ clbOf p + 1024 ≤ b) → (b + k ≤ fbOf p ∨ fbOf p + 256 ≤ b) →
        (b + k ≤ ctbaOf p 0 ∨ ctbaOf p 0 + 8192 ≤ b) → Agree s.mem (portRebase p s).mem b k := by
  obtain ⟨htables, hkept⟩ := rebaseSlots_spec hp le_rfl
    (clear (clear s.mem (clbOf p) 1024) (fbOf p) 256)
  have hmem : (portRebase p s).mem = (List.range 32).foldl (rebaseSlot p)
      (clear (clear s.mem (clbOf p) 1024) (fbOf p) 256) := by
    rw [portRebase]
  rw [hmem]
  refine ⟨htables, fun b k hb hb' hb'' => ?_⟩
  have hlist := agree_clear (n := 1024) s.mem hb
  have hfis := agree_clear (n := 256) (clear s.mem (clbOf p) 1024) hb'
  exact (hlist.trans hfis).trans (hkept b k hb hb'')

/-- The memory of a slot is as before. -/
structure SlotKept (m m' : Mem) (p i : Nat) : Prop where
  header : Agree m m' (clbOf p + 32 * i) 4
  ctba : Agree m m' (clbOf p + 32 * i + 8) 8
  table : Agree m m' (ctbaOf p i) 256

/-- The ports share no memory. -/
theorem slotKept_portRebase (hp : p < 32) (hq : q < 32) (hpq : q ≠ p) (hj : j < 32) (s : Hba) :
    SlotKept s.mem (portRebase p s).mem q j := by
  have hkept := (portRebase_spec hp s).2
  have hclb := clbOf_eq p
  have hclb' := clbOf_eq q
  have hfb := fbOf_eq p
  have hctba := ctbaOf_eq p 0
  have hctba' := ctbaOf_eq q j
  exact ⟨hkept _ _ (by omega) (by omega) (by omega), hkept _ _ (by omega) (by omega) (by omega),
    hkept _ _ (by omega) (by omega) (by omega)⟩

end

/-! ## Requests -/

/-- What `read` (`w` is false) and `ahciwrite` are called with. -/
structure Request where
  w : Bool
  startl : UInt32
  starth : UInt32
  count : UInt32
  buf : UInt64
deriving DecidableEq

/-- The command of the request. -/
def Request.command (r : Request) : Command :=
  buildCommand r.w (if r.w then 0x35 else 0x25) r.startl r.starth r.count r.buf

/-- The call. -/
def Request.call (r : Request) (cap sact ci : UInt32) : Option (Nat × Command) :=
  if r.w then ahciwrite cap sact ci r.startl r.starth r.count r.buf
  else read cap sact ci r.startl r.starth r.count r.buf

/-- The entry holds the transfer, and the FIS holds the LBA. -/
structure Request.Short (r : Request) : Prop where
  count_pos : 0 < r.count
  count_le : r.count ≤ 16
  starth_lt : r.starth < 0x10000

/-- A command that does what was asked. -/
structure Performs (r : Request) (c : Command) : Prop
    extends Transfers r.startl r.starth r.count r.buf c where
  w : c.w = r.w
  fisType : c.cfis.fisType = 0x27
  isCommand : c.cfis.c = true
  command : c.cfis.command = if r.w then 0x35 else 0x25

section

variable {r : Request} {cap sact ci : UInt32} {slot : Nat}

theorem Request.call_eq (r : Request) (cap sact ci : UInt32) :
    r.call cap sact ci = (findCmdslot cap sact ci).map fun slot => (slot, r.command) := by
  obtain ⟨w, startl, starth, count, buf⟩ := r
  cases w <;> rfl

/-- The four bits of `cap` that are used. -/
theorem findCmdslot_lt (h : findCmdslot cap sact ci = some slot) : slot < 32 := by
  have hmem := List.mem_of_find?_eq_some h
  have hlt := List.mem_range.1 hmem
  have hshift : (8 : UInt32).toNat % 32 = 8 := rfl
  have hand : (cap &&& 0x0f00).toNat ≤ 0x0f00 := by
    rw [UInt32.toNat_and]
    exact Nat.and_le_right
  rw [UInt32.toNat_shiftRight, hshift, Nat.shiftRight_eq_div_pow] at hlt
  omega

theorem Request.Short.count_le_word (h : r.Short) : r.count ≤ 65535 :=
  UInt32.le_trans h.count_le (show (16 : UInt32) ≤ 65535 by decide)

theorem Request.length_command (hpos : 0 < r.count) (hle : r.count ≤ 65535) :
    r.command.prdtEntry.length = r.command.prdtl.toNat :=
  (entries_spec r.w _ r.startl r.starth r.buf hpos hle).1

theorem Request.Short.length (h : r.Short) : r.command.prdtEntry.length = r.command.prdtl.toNat :=
  Request.length_command h.count_pos h.count_le_word

theorem Request.Short.prdtl (h : r.Short) : r.command.prdtl.toNat = 1 := by
  have hpos := UInt32.lt_iff_toNat_lt.1 h.count_pos
  have hle : r.count.toNat ≤ 16 := UInt32.le_iff_toNat_le.1 h.count_le
  have hprdtl := prdtlOf_toNat h.count_pos h.count_le_word
  change (prdtlOf r.count).toNat = 1
  omega

theorem Request.Short.performs (h : r.Short) : Performs r r.command where
  toTransfers := (transfers_iff r.w _ r.startl r.buf h.count_pos h.count_le_word h.starth_lt).2
    h.count_le
  w := rfl
  fisType := rfl
  isCommand := rfl
  command := rfl

end

/-! ## Runs -/

inductive HbaOp where
  | rebase (portno : Nat)
  | call (portno : Nat) (cap sact ci : UInt32) (r : Request)
  | store (a : Nat) (v : UInt8)

/-- `call` is `read` or `ahciwrite`, and `store` is a store of other code or of the controller. -/
def Hba.step (s : Hba) : HbaOp → Hba
  | .rebase portno => portRebase portno s
  | .call portno cap sact ci r =>
    match r.call cap sact ci with
    | some (slot, c) => { s with mem := storeCommand s.mem (s.clb portno) slot c }
    | none => s
  | .store a v => { s with mem := Function.update s.mem a v }

/-- The last request of each slot, for the ports that are set up. -/
abbrev Requests := Nat → Option (Nat → Option Request)

def Requests.empty : Requests := fun _ => none

def Requests.step (t : Requests) : HbaOp → Requests
  | .rebase portno => Function.update t portno (some fun _ => none)
  | .call portno cap sact ci r =>
    match t portno, findCmdslot cap sact ci with
    | some last, some slot => Function.update t portno (some (Function.update last slot (some r)))
    | _, _ => t
  | .store _ _ => t

/-- An address of a command. The controller may set `prdbc`. -/
def InCommand (a : Nat) : Prop :=
  ∃ p < 32, ∃ i < 32, (clbOf p + 32 * i ≤ a ∧ a < clbOf p + 32 * i + 4) ∨
    (clbOf p + 32 * i + 8 ≤ a ∧ a < clbOf p + 32 * i + 16) ∨
    (ctbaOf p i ≤ a ∧ a < ctbaOf p i + 256)

/-- A port is set up before it is used, the requests are short, and other code leaves the commands
alone. -/
def Admits (t : Requests) : HbaOp → Prop
  | .rebase portno => portno < 32
  | .call portno _ _ _ r => t portno ≠ none ∧ r.Short
  | .store a _ => ¬ InCommand a

/-- The slot has its table and holds the request. -/
structure Holds (m : Mem) (p i : Nat) (last : Option Request) : Prop where
  table : tableOf m (clbOf p) i = ctbaOf p i
  short : ∀ r, last = some r → r.Short
  command : ∀ r, last = some r → readCommand m (clbOf p) i = r.command

structure PortHolds (s : Hba) (p : Nat) (last : Nat → Option Request) : Prop where
  lt : p < 32
  clb : s.clb p = clbOf p
  holds : ∀ i < 32, Holds s.mem p i (last i)

def Represents (s : Hba) (t : Requests) : Prop := ∀ p last, t p = some last → PortHolds s p last

section

variable {s : Hba} {t : Requests} {m m' : Mem} {p i q j : Nat} {last : Option Request} {op : HbaOp}
  {r : Request} {a : Nat}

theorem Holds.of_slotKept (h : Holds m p i last) (hkept : SlotKept m m' p i) :
    Holds m' p i last where
  table := hkept.ctba.readLE.trans h.table
  short := h.short
  command r hr := by
    have hread := h.command r hr
    have hprdtl : (readCommand m (clbOf p) i).prdtl.toNat = 1 := by
      rw [hread]
      exact (h.short r hr).prdtl
    have htable : Agree m m' (tableOf m (clbOf p) i)
        (128 + 16 * (readCommand m (clbOf p) i).prdtl.toNat) := by
      rw [h.table, hprdtl]
      exact hkept.table.mono le_rfl (by omega)
    rw [readCommand_congr hkept.header hkept.ctba htable, hread]

/-- The slots share no memory. -/
theorem slotKept_storeCommand (hp : p < 32) (hi : i < 32) (hq : q < 32) (hj : j < 32)
    (hne : q ≠ p ∨ j ≠ i) (htable : tableOf m (clbOf p) i = ctbaOf p i) (hr : r.Short) :
    SlotKept m (storeCommand m (clbOf p) i r.command) q j := by
  have hprdtl := hr.prdtl
  have hclb := clbOf_eq p
  have hclb' := clbOf_eq q
  have hctba := ctbaOf_eq p i
  have hctba' := ctbaOf_eq q j
  rw [← htable] at hctba
  exact ⟨agree_storeCommand m hr.length (by omega) (by omega),
    agree_storeCommand m hr.length (by omega) (by omega),
    agree_storeCommand m hr.length (by omega) (by omega)⟩

theorem holds_storeCommand (hp : p < 32) (hi : i < 32) (htable : tableOf m (clbOf p) i = ctbaOf p i)
    (hr : r.Short) : Holds (storeCommand m (clbOf p) i r.command) p i (some r) := by
  have hprdtl := hr.prdtl
  have hclb := clbOf_eq p
  have hctba := ctbaOf_eq p i
  rw [← htable] at hctba
  have hkept : Agree m (storeCommand m (clbOf p) i r.command) (clbOf p + 32 * i + 8) 8 :=
    agree_storeCommand m hr.length (by omega) (by omega)
  have hread : readCommand (storeCommand m (clbOf p) i r.command) (clbOf p) i = r.command :=
    readCommand_storeCommand m hr.length (show (1 : UInt8).toNat < 32 by decide) (by omega)
  refine ⟨hkept.readLE.trans htable, fun r' hr' => ?_, fun r' hr' => ?_⟩
  · cases hr'
    exact hr
  · cases hr'
    exact hread

theorem slotKept_store {v : UInt8} (hp : p < 32) (hi : i < 32) (h : ¬ InCommand a) :
    SlotKept m (Function.update m a v) p i := by
  have hne : ∀ b n, (b ≤ a → a < b + n → InCommand a) → Agree m (Function.update m a v) b n :=
    fun b n hin k hk => Function.update_of_ne
      (fun heq => h (hin (by omega) (by omega))) _ _
  exact ⟨hne _ _ fun hle hlt => ⟨p, hp, i, hi, Or.inl ⟨hle, hlt⟩⟩,
    hne _ _ fun hle hlt => ⟨p, hp, i, hi, Or.inr (Or.inl ⟨hle, hlt⟩)⟩,
    hne _ _ fun hle hlt => ⟨p, hp, i, hi, Or.inr (Or.inr ⟨hle, hlt⟩)⟩⟩

theorem Represents.rebase (h : Represents s t) (hp : p < 32) :
    Represents (s.step (.rebase p)) (t.step (.rebase p)) := by
  intro q last hlast
  by_cases hqp : q = p
  · subst hqp
    simp only [Requests.step, Function.update_self, Option.some.injEq] at hlast
    subst hlast
    exact ⟨hp, Function.update_self _ _ _, fun i hi =>
      ⟨(portRebase_spec hp s).1 i hi, fun r hr => (nomatch hr), fun r hr => (nomatch hr)⟩⟩
  · simp only [Requests.step, Function.update_of_ne hqp] at hlast
    obtain ⟨hq, hclb, hholds⟩ := h q last hlast
    exact ⟨hq, (Function.update_of_ne hqp _ _).trans hclb, fun i hi =>
      (hholds i hi).of_slotKept (slotKept_portRebase hp hq hqp hi s)⟩

theorem Represents.call {cap sact ci : UInt32} (h : Represents s t) (hset : t p ≠ none)
    (hr : r.Short) :
    Represents (s.step (.call p cap sact ci r)) (t.step (.call p cap sact ci r)) := by
  simp only [Hba.step, Requests.step, Request.call_eq]
  obtain ⟨old, hold⟩ := Option.ne_none_iff_exists'.1 hset
  obtain ⟨hp, hclb, hholds⟩ := h p old hold
  cases hslot : findCmdslot cap sact ci with
  | none =>
    rw [hold]
    exact h
  | some i =>
    have hi := findCmdslot_lt hslot
    have htable := (hholds i hi).table
    simp only [hold, Option.map_some, hclb]
    intro q last hlast
    by_cases hqp : q = p
    · subst hqp
      rw [Function.update_self] at hlast
      cases hlast
      refine ⟨hp, hclb, fun j hj => ?_⟩
      by_cases hji : j = i
      · subst hji
        rw [Function.update_self]
        exact holds_storeCommand hp hj htable hr
      · rw [Function.update_of_ne hji]
        exact (hholds j hj).of_slotKept
          (slotKept_storeCommand hp hi hp hj (Or.inr hji) htable hr)
    · rw [Function.update_of_ne hqp] at hlast
      obtain ⟨hq, hclb', hholds'⟩ := h q last hlast
      exact ⟨hq, hclb', fun j hj => (hholds' j hj).of_slotKept
        (slotKept_storeCommand hp hi hq hj (Or.inl hqp) htable hr)⟩

theorem Represents.store {v : UInt8} (h : Represents s t) (ha : ¬ InCommand a) :
    Represents (s.step (.store a v)) (t.step (.store a v)) := fun q last hlast =>
  have ⟨hq, hclb, hholds⟩ := h q last hlast
  ⟨hq, hclb, fun i hi => (hholds i hi).of_slotKept (slotKept_store hq hi ha)⟩

theorem Represents.step (h : Represents s t) (hok : Admits t op) :
    Represents (s.step op) (t.step op) := by
  cases op with
  | rebase p => exact h.rebase hok
  | call p cap sact ci r => exact h.call hok.1 hok.2
  | store a v => exact h.store hok

/-- **The memory of the commands.** For any ports, commands and stores, the controller finds in a
slot the command of the last request that was given to it. -/
theorem command_memory {ops : List HbaOp} {last : Nat → Option Request} (s : Hba)
    (hops : Along (fun t op => some (Requests.step t op)) Admits Requests.empty ops)
    (hlast : ops.foldl Requests.step Requests.empty p = some last) (hi : i < 32)
    (hr : last i = some r) :
    Performs r
      (readCommand (ops.foldl Hba.step s).mem ((ops.foldl Hba.step s).clb p) i) := by
  have hempty : Represents s Requests.empty := fun _ _ h => nomatch h
  have hrun : Represents (ops.foldl Hba.step s) (ops.foldl Requests.step Requests.empty) :=
    hops.foldl Represents.step hempty
  obtain ⟨-, hclb, hholds⟩ := hrun p last hlast
  rw [hclb, (hholds i hi).command r hr]
  exact ((hholds i hi).short r hr).performs

end

/-- A sector is written, and a read goes to the next slot. -/
theorem command_memory_write :
    let ops : List HbaOp := [.rebase 0, .call 0 0x0f00 0 0 ⟨true, 8, 0, 1, 0x400000⟩,
      .call 0 0x0f00 0 1 ⟨false, 5, 0, 1, 0x500000⟩]
    let s := ops.foldl Hba.step ⟨fun _ => 0, fun _ => 0⟩
    Performs ⟨true, 8, 0, 1, 0x400000⟩ (readCommand s.mem (s.clb 0) 0) :=
  have hshort : ∀ w startl buf, Request.Short ⟨w, startl, 0, 1, buf⟩ :=
    fun _ _ _ => ⟨show (0 : UInt32) < 1 by decide, show (1 : UInt32) ≤ 16 by decide,
      show (0 : UInt32) < 0x10000 by decide⟩
  have hops : Along (fun t op => some (Requests.step t op)) Admits Requests.empty
      [.rebase 0, .call 0 0x0f00 0 0 ⟨true, 8, 0, 1, 0x400000⟩,
        .call 0 0x0f00 0 1 ⟨false, 5, 0, 1, 0x500000⟩] :=
    along_some_cons.2 ⟨show 0 < 32 by decide,
      along_some_cons.2 ⟨⟨Option.some_ne_none _, hshort _ _ _⟩,
        along_some_cons.2 ⟨⟨Option.some_ne_none _, hshort _ _ _⟩, trivial⟩⟩⟩
  command_memory ⟨fun _ => 0, fun _ => 0⟩ hops rfl (by decide) rfl

section

variable {m : Mem} {p i : Nat} {r : Request}

/-- A command with 2 to 8 entries clears the start of the next table, so the controller does not
find the FIS of the next slot. -/
theorem long_command_clears (hcount : 16 < r.count) (hle : r.count ≤ 128) (hi : i + 1 < 32)
    (htable : tableOf m (clbOf p) i = ctbaOf p i)
    (hnext : tableOf m (clbOf p) (i + 1) = ctbaOf p (i + 1)) (hp : p < 32) :
    (readCommand (storeCommand m (clbOf p) i r.command) (clbOf p) (i + 1)).cfis.fisType = 0 := by
  have hcount' : 16 < r.count.toNat := UInt32.lt_iff_toNat_lt.1 hcount
  have hle' : r.count.toNat ≤ 128 := UInt32.le_iff_toNat_le.1 hle
  have hpos : 0 < r.count := UInt32.lt_iff_toNat_lt.2 (Nat.lt_of_le_of_lt (Nat.zero_le _) hcount')
  have hword : r.count ≤ 65535 := UInt32.le_trans hle (show (128 : UInt32) ≤ 65535 by decide)
  have hprdtl : r.command.prdtl.toNat = (r.count.toNat - 1) / 16 + 1 := prdtlOf_toNat hpos hword
  have hlen := Request.length_command hpos hword
  have hclb := clbOf_eq p
  have hctba := ctbaOf_eq p i
  have hctba' := ctbaOf_eq p (i + 1)
  have hkept : Agree m (storeCommand m (clbOf p) i r.command) (clbOf p + 32 * (i + 1) + 8) 8 :=
    agree_storeCommand m hlen (by omega) (by rw [htable]; omega)
  have htable' : readLE (storeCommand m (clbOf p) i r.command) (clbOf p + 32 * (i + 1) + 8) 8 =
      ctbaOf p (i + 1) := hkept.readLE.trans hnext
  have hzero : readLE (storeCommand m (clbOf p) i r.command) (ctbaOf p (i + 1)) 1 = 0 := by
    rw [storeCommand_eq, htable, storeTable, (agree_storeFis _ _ (Or.inr (by omega))).readLE,
      (agree_storeEntries _ _ (Or.inr (by rw [hlen]; omega))).readLE,
      readLE_clear _ (by omega) (by omega)]
  simp only [readCommand, readFis, htable', hzero]
  rfl

end

end Ahci

end Sbunix
