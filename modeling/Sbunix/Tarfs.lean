import Sbunix.Strings
import Mathlib.Data.Nat.Digits.Lemmas

/-!
# The archive index

`sys/tarfs.c`: `tarfs_init` walks the ustar archive that is linked into the kernel and fills the
table `tarfs_fs`, `openfile` and `opendirect` look a name up in the table, and `getElfHeader` walks
the archive on its own.

The two walkers decode the size field in different ways. `octalToDecimal_stoi` and `getSize_spec`
say that both read the octal number. `octalToDecimal` does so for numbers that look like less than
`2 ^ 31` in decimal, since it takes its digits from an `int`.
-/

namespace Sbunix

open Lib

/-! ## Size fields -/

/-- The value of a `char`, which is signed. -/
def charValue (c : UInt8) : Int := if c.toNat < 128 then c.toNat else c.toNat - 256

def stoiLoop : List UInt8 → Nat → Except Fault Nat
  | [], _ => .error .outOfBounds
  | c :: s, i =>
    if 48 ≤ charValue c ∧ charValue c ≤ 57 then
      stoiLoop s ((i * 10 + (charValue c - 48).toNat) % 2 ^ 64)
    else .ok i

def stoi (s : List UInt8) : Except Fault Nat := stoiLoop s 0

/-- The loop of `octalToDecimal`. The remainder is taken of an `int`. -/
def octalLoop : Nat → Nat → Nat → Nat → Nat → Nat
  | 0, _, _, _, decimalEquiv => decimalEquiv
  | fuel + 1, n, i, powOct, decimalEquiv =>
    if n ≠ 0 then
      let rem := ((Int.bmod n (2 ^ 32)).tmod 10 % 2 ^ 64).toNat
      let powOct := if 0 < i then powOct * 8 % 2 ^ 64 else powOct
      octalLoop fuel (n / 10) (i + 1) powOct ((decimalEquiv + rem * powOct) % 2 ^ 64)
    else decimalEquiv

/-- `octalToDecimal`. A `uint64_t` has at most twenty decimal digits. -/
def octalToDecimal (n : Nat) : Nat := octalLoop 20 n 0 1 0

def getSizeLoop (input : List UInt8) : Nat → Nat → Nat → Except Fault Nat
  | 0, size, _ => .ok size
  | k + 1, size, count =>
    match input[k]? with
    | none => .error .outOfBounds
    | some c =>
      getSizeLoop input k ((size + ((charValue c - 48) * count % 2 ^ 32).toNat) % 2 ^ 32)
        (count * 8 % 2 ^ 32)

def getSize (input : List UInt8) : Except Fault Nat := getSizeLoop input 11 0 1

/-! ## The table -/

/-- `tarfs_entry`. -/
structure TarfsEntry where
  name : List UInt8
  size : Int
  typeflag : Int
  addrHdr : Nat
  parInd : Int

def fileType : Int := 0

def directory : Int := 5

/-- An entry of static storage. -/
def TarfsEntry.zero : TarfsEntry := ⟨List.replicate 100 0, 0, 0, 0, 0⟩

/-- `tarfs_fs` before `tarfs_init`. -/
def tarfsFs : List TarfsEntry := List.replicate 100 .zero

/-- The archive in the kernel: the addresses of the symbols `_binary_tarfs_start` and
`_binary_tarfs_end`, and the memory from the first one on. -/
structure Tarfs where
  start : Nat
  stop : Nat
  mem : List UInt8

/-- The memory from `_binary_tarfs_start + offset` on. -/
def Tarfs.pointer (t : Tarfs) (offset : Int) : Except Fault (List UInt8) :=
  if 0 ≤ offset then .ok (t.mem.drop offset.toNat) else .error .outOfBounds

/-- The field `size` of a header. -/
def sizeField (header : List UInt8) : List UInt8 := header.drop 124

/-- The field `typeflag` of a header, which the field `linkname` follows. -/
def typeflagField (header : List UInt8) : List UInt8 := header.drop 156

/-! ## The parent of an entry -/

/-- The byte `'/'`. -/
def slash : UInt8 := 47

/-- The first loop of `get_per_ind`: the place of the `'/'`, or `none` when it returns 999. Behind
`name[0]` the loop goes on to `name[-1]`. -/
def slashLoop (name : List UInt8) : Nat → Except Fault (Option Nat)
  | 0 => if name[0]? = some slash then .ok (some 0) else .error .outOfBounds
  | len + 1 =>
    if name[len + 1]? = some slash then .ok (some (len + 1))
    else if len = 0 then .ok none
    else slashLoop name len

/-- The second loop of `get_per_ind`: the index of the entry with this name. -/
def nameLoop (name : List UInt8) : List TarfsEntry → Nat → Except Fault Nat
  | [], _ => .error .outOfBounds
  | e :: fs, i => do
    if (← sstrcmp name e.name) ≠ 0 then nameLoop name fs (i + 1) else .ok i

/-- `get_per_ind` and `get_per_ind_file`, which start `back` characters before the end. The local
array `name` holds `junk` at first. -/
def perInd (back : Nat) (junk dir : List UInt8) (fs : List TarfsEntry) : Except Fault Int := do
  let len ← strlen dir
  let name ← sstrcpy junk dir
  if len < back then .error .outOfBounds
  else
    match ← slashLoop name (len - back) with
    | none => .ok 999
    | some len =>
      if len + 1 < name.length then do
        let i ← nameLoop (name.set (len + 1) 0) fs 0
        .ok i
      else .error .outOfBounds

def getPerInd (junk dir : List UInt8) (fs : List TarfsEntry) : Except Fault Int :=
  perInd 2 junk dir fs

def getPerIndFile (junk dir : List UInt8) (fs : List TarfsEntry) : Except Fault Int :=
  perInd 1 junk dir fs

/-- The field `par_ind` of an entry, which other types than the two do not set. -/
def parIndFor (typeflag : Int) (junk name : List UInt8) (fs : List TarfsEntry) (parInd : Int) :
    Except Fault Int :=
  if typeflag = fileType then getPerIndFile junk name fs
  else if typeflag = directory then getPerInd junk name fs
  else .ok parInd

/-! ## The two walkers -/

/-- The fields of the next entry, with its size as `uint64_t`. `tarfs_e` has the values of the entry
before. -/
def readEntry (junk : List UInt8) (t : Tarfs) (tarfsVar : List UInt8) (temp : Int)
    (tarfsE : TarfsEntry) (fs : List TarfsEntry) : Except Fault (Nat × TarfsEntry) := do
  let size := octalToDecimal (← stoi (sizeField tarfsVar))
  let name ← sstrcpy tarfsE.name tarfsVar
  let typeflag := Int.bmod (← stoi (typeflagField tarfsVar)) (2 ^ 32)
  let parInd ← parIndFor typeflag junk name fs tarfsE.parInd
  .ok (size, ⟨name, Int.bmod size (2 ^ 32), typeflag, ((t.start + temp) % 2 ^ 64).toNat, parInd⟩)

/-- The offset of the next header, an `int`. -/
def nextTemp (temp : Int) (size : Nat) : Int :=
  if size = 0 then Int.bmod (temp + 512) (2 ^ 32)
  else if size % 512 = 0 then Int.bmod (temp + (size + 512)) (2 ^ 32)
  else Int.bmod (temp + (size + (512 - size % 512) + 512)) (2 ^ 32)

/-- The loop of `tarfs_init`, which counts `num_files` with `i`. -/
def tarfsInitLoop (junk : List UInt8) (t : Tarfs) :
    Nat → Int → Nat → TarfsEntry → List TarfsEntry → Except Fault (List TarfsEntry × Nat)
  | 0, _, _, _, _ => .error .diverges
  | fuel + 1, temp, i, tarfsE, fs => do
    let tarfsVar ← t.pointer temp
    if (← strlen tarfsVar) = 0 then .ok (fs, i)
    else
      let (size, tarfsE) ← readEntry junk t tarfsVar temp tarfsE fs
      if i < fs.length then
        tarfsInitLoop junk t fuel (nextTemp temp size) (i + 1) tarfsE (fs.set i tarfsE)
      else .error .outOfBounds

/-- `tarfs_init`: the table and `num_files`. The table has room for at most 100 turns. -/
def tarfsInit (junk : List UInt8) (tarfsE : TarfsEntry) (t : Tarfs) :
    Except Fault (List TarfsEntry × Nat) :=
  tarfsInitLoop junk t 101 0 0 tarfsE tarfsFs

/-- `openfile`, from an entry of the table on. -/
def openfile (file : List UInt8) : List TarfsEntry → Except Fault Nat
  | [] => .error .outOfBounds
  | tarfsE :: fs => do
    if (← strlen tarfsE.name) = 0 then .ok 0
    else if (← strcmp tarfsE.name file) = 0 ∧ tarfsE.typeflag = fileType then .ok tarfsE.addrHdr
    else openfile file fs

/-- The loop of `openfile` and `opendirect` for entries of one type. -/
def lookup (typeflag : Int) (name : List UInt8) : List TarfsEntry → Except Fault Nat
  | [] => .error .outOfBounds
  | tarfsE :: fs => do
    if (← strlen tarfsE.name) = 0 then .ok 0
    else if (← strcmp tarfsE.name name) = 0 ∧ tarfsE.typeflag = typeflag then .ok tarfsE.addrHdr
    else lookup typeflag name fs

def opendirect (dir : List UInt8) (fs : List TarfsEntry) : Except Fault Nat :=
  lookup directory dir fs

/-- The address of the next header in `getElfHeader`. -/
def nextAddress (address size : Nat) : Nat :=
  let address := (address + (size / 512 + 1) * 512 % 2 ^ 32) % 2 ^ 64
  if size % 512 ≠ 0 then (address + 512) % 2 ^ 64 else address

def getElfHeaderLoop (t : Tarfs) (fileName : List UInt8) : Nat → Nat → Except Fault Nat
  | 0, _ => .error .diverges
  | fuel + 1, address =>
    if address < t.stop then do
      let header ← t.pointer (address - t.start)
      let size ← getSize (sizeField header)
      if (← strcmp header fileName) = 0 then .ok ((address + 512) % 2 ^ 64)
      else getElfHeaderLoop t fileName fuel (nextAddress address size)
    else .ok 0

/-- `getElfHeader`. A turn that does not advance `address` is repeated for ever. -/
def getElfHeader (t : Tarfs) (fileName : List UInt8) : Except Fault Nat :=
  getElfHeaderLoop t fileName (t.stop - t.start + 1) t.start

/-! ## Both decoders read octal numbers -/

/-- The byte of a digit. -/
def digitByte (d : Nat) : UInt8 := UInt8.ofNat (48 + d)

theorem charValue_digitByte {d : Nat} (h : d < 10) : charValue (digitByte d) = 48 + d := by
  have hbyte : (digitByte d).toNat = 48 + d := by
    rw [digitByte, UInt8.toNat_ofNat']
    omega
  rw [charValue, hbyte, if_pos (by omega)]
  omega

/-- The byte is no decimal digit. -/
def NoDigit (c : UInt8) : Prop := ¬ (48 ≤ charValue c ∧ charValue c ≤ 57)

instance (c : UInt8) : Decidable (NoDigit c) := inferInstanceAs (Decidable (¬ _))

section

variable {ds l rest : List Nat} {bytes : List UInt8} {c : UInt8}

theorem stoiLoop_spec (hds : ∀ d ∈ ds, d < 10) (hc : NoDigit c) {i : Nat}
    (hlt : 10 ^ ds.length * i + Nat.ofDigits 10 ds.reverse < 2 ^ 64) :
    stoiLoop (ds.map digitByte ++ c :: bytes) i =
      .ok (10 ^ ds.length * i + Nat.ofDigits 10 ds.reverse) := by
  induction ds generalizing i with
  | nil =>
    rw [List.map_nil, List.nil_append, stoiLoop, if_neg hc]
    simp
  | cons d ds ih =>
    have hd : d < 10 := hds d (by simp)
    have hvalue : 10 ^ ds.length * (i * 10 + d) + Nat.ofDigits 10 ds.reverse =
        10 ^ (d :: ds).length * i + Nat.ofDigits 10 (d :: ds).reverse := by
      rw [Nat.ofDigits_reverse_cons, List.length_cons]
      ring
    have hone : i * 10 + d ≤ 10 ^ ds.length * (i * 10 + d) :=
      Nat.le_mul_of_pos_left _ (by positivity)
    have hmod : (i * 10 + (charValue (digitByte d) - 48).toNat) % 2 ^ 64 = i * 10 + d := by
      rw [charValue_digitByte hd, show (48 + (d : Int) - 48).toNat = d by omega]
      exact Nat.mod_eq_of_lt (by omega)
    rw [List.map_cons, List.cons_append, stoiLoop, charValue_digitByte hd,
      if_pos (by omega), ← charValue_digitByte hd, hmod, ← hvalue]
    exact ih (fun e he => hds e (by simp [he])) (by omega)

theorem ofDigits_eq_zero_iff : Nat.ofDigits 10 l = 0 ↔ Nat.ofDigits 8 l = 0 := by
  induction l with
  | nil => simp
  | cons d l ih =>
    rw [Nat.ofDigits_cons, Nat.ofDigits_cons]
    omega

/-- The loop from the low digits `l` on, up to overflow. In all turns but the first the power has
yet to be multiplied. -/
theorem octalLoop_mod (hl : ∀ d ∈ l, d < 8) {fuel i powOct decimalEquiv p : Nat}
    (hfuel : l.length ≤ fuel) (hlt : Nat.ofDigits 10 l < 2 ^ 31)
    (hp : p = if 0 < i then powOct * 8 % 2 ^ 64 else powOct) (hacc : decimalEquiv < 2 ^ 64) :
    octalLoop fuel (Nat.ofDigits 10 l) i powOct decimalEquiv =
      (decimalEquiv + p * Nat.ofDigits 8 l) % 2 ^ 64 := by
  induction l generalizing fuel i powOct decimalEquiv p with
  | nil =>
    rw [Nat.ofDigits_nil, Nat.ofDigits_nil, Nat.mul_zero, Nat.add_zero, Nat.mod_eq_of_lt hacc]
    cases fuel <;> simp [octalLoop]
  | cons d l ih =>
    obtain ⟨fuel, rfl⟩ : ∃ n, fuel = n + 1 := ⟨fuel - 1, by simp at hfuel; omega⟩
    by_cases hzero : Nat.ofDigits 10 (d :: l) = 0
    · rw [hzero, ofDigits_eq_zero_iff.1 hzero]
      simpa [octalLoop] using (Nat.mod_eq_of_lt hacc).symm
    have hd : d < 8 := hl d (by simp)
    have hrem :
        ((Int.bmod (Nat.ofDigits 10 (d :: l) : Nat) (2 ^ 32)).tmod 10 % 2 ^ 64).toNat = d := by
      rw [Nat.ofDigits_cons] at hlt ⊢
      rw [Int.bmod_eq_of_le (by omega) (by omega), Int.tmod_eq_emod_of_nonneg (by omega)]
      omega
    have hdiv : Nat.ofDigits 10 (d :: l) / 10 = Nat.ofDigits 10 l := by
      rw [Nat.ofDigits_cons, Nat.add_mul_div_left _ _ (by norm_num),
        Nat.div_eq_of_lt (hd.trans (by norm_num)), Nat.zero_add]
    have hsum : (decimalEquiv + d * p) % 2 ^ 64 + p * 8 % 2 ^ 64 * Nat.ofDigits 8 l ≡
        decimalEquiv + p * Nat.ofDigits 8 (d :: l) [MOD 2 ^ 64] :=
      calc (decimalEquiv + d * p) % 2 ^ 64 + p * 8 % 2 ^ 64 * Nat.ofDigits 8 l
          ≡ decimalEquiv + d * p + p * 8 * Nat.ofDigits 8 l [MOD 2 ^ 64] :=
            (Nat.mod_modEq _ _).add ((Nat.mod_modEq _ _).mul_right _)
        _ = decimalEquiv + p * Nat.ofDigits 8 (d :: l) := by
            rw [Nat.ofDigits_cons]
            ring
    rw [octalLoop, if_pos hzero]
    simp only [hrem, ← hp, hdiv]
    rw [Nat.ModEq] at hsum
    rw [← hsum]
    refine ih (fun e he => hl e (by simp [he])) (by simpa using hfuel) ?_ (by simp)
      (Nat.mod_lt _ (by norm_num))
    calc Nat.ofDigits 10 l ≤ Nat.ofDigits 10 (d :: l) := hdiv ▸ Nat.div_le_self _ _
      _ < 2 ^ 31 := hlt

/-- The loop without an overflow. -/
theorem octalLoop_spec (hl : ∀ d ∈ l, d < 8) {fuel i powOct decimalEquiv p : Nat}
    (hfuel : l.length ≤ fuel) (hlt : Nat.ofDigits 10 l < 2 ^ 31)
    (hp : p = if 0 < i then powOct * 8 else powOct)
    (hbound : decimalEquiv + p * Nat.ofDigits 8 l < 2 ^ 64) :
    octalLoop fuel (Nat.ofDigits 10 l) i powOct decimalEquiv =
      decimalEquiv + p * Nat.ofDigits 8 l := by
  by_cases hzero : Nat.ofDigits 10 l = 0
  · rw [hzero, ofDigits_eq_zero_iff.1 hzero]
    cases fuel <;> simp [octalLoop]
  · have hpos : 0 < Nat.ofDigits 8 l :=
      Nat.pos_of_ne_zero fun h => hzero (ofDigits_eq_zero_iff.2 h)
    have hple : p ≤ p * Nat.ofDigits 8 l := Nat.le_mul_of_pos_right _ hpos
    rw [octalLoop_mod (p := p) hl hfuel hlt ?_ (by omega), Nat.mod_eq_of_lt hbound]
    by_cases hi : 0 < i
    · rw [if_pos hi] at hp ⊢
      rw [← hp, Nat.mod_eq_of_lt (by omega)]
    · rw [if_neg hi] at hp ⊢
      exact hp

/-- Eleven octal digits of a number below `2 ^ 28` look like less than `2 ^ 31` in decimal. -/
theorem ofDigits_ten_lt (hl : ∀ d ∈ l, d < 8) (hlen : l.length = 11)
    (hlt : Nat.ofDigits 8 l < 2 ^ 28) : Nat.ofDigits 10 l < 2 ^ 31 := by
  obtain ⟨a, b, hab⟩ : ∃ a b, l.drop 9 = [a, b] := List.length_eq_two.1 (by simp [hlen])
  have hlow : (l.take 9).length = 9 := by simp [hlen]
  have hten : Nat.ofDigits 10 (l.take 9) < 10 ^ (l.take 9).length :=
    Nat.ofDigits_lt_base_pow_length (by norm_num) fun d hd =>
      (hl d (List.mem_of_mem_take hd)).trans (by norm_num)
  rw [← List.take_append_drop 9 l, hab, Nat.ofDigits_append, hlow] at hlt ⊢
  rw [hlow] at hten
  simp only [Nat.ofDigits_cons, Nat.ofDigits_nil] at hlt ⊢
  omega

/-- **The size as `tarfs_init` reads it.** -/
theorem octalToDecimal_stoi (bytes : List UInt8) (hds : ∀ d ∈ ds, d < 8) (hlen : ds.length = 11)
    (hc : NoDigit c) (hlt : Nat.ofDigits 8 ds.reverse < 2 ^ 28) :
    ∃ n, stoi (ds.map digitByte ++ c :: bytes) = .ok n ∧
      octalToDecimal n = Nat.ofDigits 8 ds.reverse := by
  have hrev : ∀ d ∈ ds.reverse, d < 8 := fun d hd => hds d (List.mem_reverse.1 hd)
  have hten := ofDigits_ten_lt hrev (by simp [hlen]) hlt
  refine ⟨Nat.ofDigits 10 ds.reverse, ?_, ?_⟩
  · rw [stoi, stoiLoop_spec (fun d hd => (hds d hd).trans (by norm_num)) hc (by omega)]
    simp
  · rw [octalToDecimal, octalLoop_spec hrev (by simp [hlen]) hten rfl (by simp; omega)]
    simp

theorem getSizeLoop_spec (hds : ∀ d ∈ ds, d < 8) {k size count : Nat} (hk : k ≤ ds.length)
    (hsize : size < 2 ^ 32) :
    getSizeLoop (ds.map digitByte ++ bytes) k size count =
      .ok ((size + count * Nat.ofDigits 8 (ds.take k).reverse) % 2 ^ 32) := by
  induction k generalizing size count with
  | zero =>
    rw [getSizeLoop, List.take_zero, List.reverse_nil, Nat.ofDigits_nil, Nat.mul_zero, Nat.add_zero,
      Nat.mod_eq_of_lt hsize]
  | succ k ih =>
    have hget : (ds.map digitByte ++ bytes)[k]? = some (digitByte ds[k]) := by
      rw [List.getElem?_append_left (by simpa using hk), List.getElem?_map,
        List.getElem?_eq_getElem hk]
      rfl
    have hd : ds[k] < 10 := (hds _ (List.getElem_mem _)).trans (by norm_num)
    have hterm : ((charValue (digitByte ds[k]) - 48) * (count : Int) % 2 ^ 32).toNat =
        ds[k] * count % 2 ^ 32 := by
      have hprod : (48 + (ds[k] : Int) - 48) * count = ((ds[k] * count : Nat) : Int) := by
        push_cast
        ring
      rw [charValue_digitByte hd, hprod]
      omega
    have htake : (ds.take (k + 1)).reverse = ds[k] :: (ds.take k).reverse := by
      rw [List.take_succ_eq_append_getElem hk, List.reverse_append]
      rfl
    rw [getSizeLoop, hget]
    simp only [hterm]
    rw [ih (by omega) (Nat.mod_lt _ (by norm_num)), htake, Nat.ofDigits_cons]
    congr 1
    rw [Nat.add_mod_mod, Nat.add_mod, Nat.mod_mod, Nat.mod_mul_mod, ← Nat.add_mod]
    congr 1
    ring

/-- **The size as `getElfHeader` reads it.** -/
theorem getSize_spec (hds : ∀ d ∈ ds, d < 8) (hlen : ds.length = 11)
    (hlt : Nat.ofDigits 8 ds.reverse < 2 ^ 32) :
    getSize (ds.map digitByte ++ bytes) = .ok (Nat.ofDigits 8 ds.reverse) := by
  rw [getSize, getSizeLoop_spec hds (by omega) (by norm_num), List.take_of_length_le (by omega)]
  rw [Nat.zero_add, Nat.one_mul, Nat.mod_eq_of_lt hlt]

/-- What `getElfHeader` takes for the size of a block of zeros. -/
theorem getSize_zero (h : ∀ k < 11, bytes[k]? = some 0) : getSize bytes = .ok 1227133520 := by
  have hchar : charValue 0 = 0 := rfl
  simp [getSize, getSizeLoop, h, hchar]

end

end Sbunix
