import Sbunix.Frames
import Sbunix.Lib.Memory
import Sbunix.Lib.Radix

/-!
# Page tables

The part of `sys/phymap.c` that builds and reads the four-level page tables. Tables are accessed
at their physical addresses, as the code does: a table pointer is a 64-bit address into physical
memory, and dereferencing the `NULL` that `page_alloc` returns when no page is left ends the
computation (`none`).

The second half reads this memory as radix tables. The entries of a frame are the words of a
page, an entry is present when `PTE_P` is set and its frame is the entry without the low twelve
bits; `walk` is the translation the hardware makes of a virtual address. The rest is the arithmetic
of addresses and entries that the proofs about the tables share.
-/

namespace Sbunix

open Lib Lib.Radix

/-! ## Entries -/

/-- `PTE_P`, present. -/
def pteP : UInt64 := 0x001

/-- `PTE_W`, writable. -/
def pteW : UInt64 := 0x002

/-- `PTE_U`, user. -/
def pteU : UInt64 := 0x004

/-- `PTE_COW`. -/
def pteCow : UInt64 := 0x100

/-- `FRAME`. -/
def frameMask : UInt64 := 0xFFFFFFFFFFFFF000

/-- `get_address`. -/
def getAddress (entry : UInt64) : UInt64 := entry &&& frameMask

def getPML4Index (addr : UInt64) : UInt64 := (addr >>> 39) &&& 0x1FF

def getPDPTIndex (addr : UInt64) : UInt64 := (addr >>> 30) &&& 0x1FF

def getPDTIndex (addr : UInt64) : UInt64 := (addr >>> 21) &&& 0x1FF

def getPTIndex (addr : UInt64) : UInt64 := (addr >>> 12) &&& 0x1FF

/-! ## The machine -/

/-- Physical memory, the page allocator, the global `pml4` and the `CR3` register. -/
structure Kernel where
  mem : Mem
  frames : Frames
  pml4 : UInt64
  cr3 : UInt64

namespace Kernel

/-- `table->pt_entries[index]`. -/
def ptEntry (k : Kernel) (table index : UInt64) : UInt64 :=
  read64 k.mem (table.toNat + 8 * index.toNat)

/-- `table->pt_entries[index] = entry`. -/
def setPtEntry (k : Kernel) (table index entry : UInt64) : Kernel :=
  { k with mem := write64 k.mem (table.toNat + 8 * index.toNat) entry }

/-- `page_alloc()->addr`. -/
def pageAllocAddr (k : Kernel) : Option (UInt64 × Kernel) :=
  match pageAlloc k.frames with
  | (none, _) => none
  | (some p, a) => some ((k.frames.pages p).addr, { k with frames := a })

end Kernel

/-- The common body of `pdpt_alloc`, `pdt_alloc` and `pt_alloc`. -/
def tableAlloc (table index : UInt64) (k : Kernel) : Option (UInt64 × Kernel) := do
  let (t, k) ← k.pageAllocAddr
  some (t, k.setPtEntry table index (t ||| (pteP ||| pteW ||| pteU)))

def pdptAlloc (pml4 pml4Index : UInt64) : Kernel → Option (UInt64 × Kernel) :=
  tableAlloc pml4 pml4Index

def pdtAlloc (pdpt pdptIndex : UInt64) : Kernel → Option (UInt64 × Kernel) :=
  tableAlloc pdpt pdptIndex

def ptAlloc (pdt pdtIndex : UInt64) : Kernel → Option (UInt64 × Kernel) :=
  tableAlloc pdt pdtIndex

/-- The table an entry points to when it is present, a new one otherwise. -/
def tableOrAlloc (alloc : UInt64 → UInt64 → Kernel → Option (UInt64 × Kernel))
    (table index : UInt64) (k : Kernel) : Option (UInt64 × Kernel) :=
  let entry := k.ptEntry table index
  if entry &&& pteP ≠ 0 then some (getAddress entry, k) else alloc table index k

/-- The common body of `map_process` and `map_virt_address`, which differ in the PML4 they use. -/
def mapPage (pml4 vaddr paddr : UInt64) (k : Kernel) : Option Kernel := do
  let (pdpt, k) ← tableOrAlloc pdptAlloc pml4 (getPML4Index vaddr) k
  let (pdt, k) ← tableOrAlloc pdtAlloc pdpt (getPDPTIndex vaddr) k
  let (pt, k) ← tableOrAlloc ptAlloc pdt (getPDTIndex vaddr) k
  some (k.setPtEntry pt (getPTIndex vaddr) (paddr ||| (pteP ||| pteW ||| pteU)))

/-- `map_process`, in the address space of `CR3`. -/
def mapProcess (vaddr paddr : UInt64) (k : Kernel) : Option Kernel :=
  mapPage k.cr3 vaddr paddr k

/-- `map_virt_address`, in the address space of the global `pml4`. -/
def mapVirtAddress (vaddr paddr : UInt64) (k : Kernel) : Option Kernel :=
  mapPage k.pml4 vaddr paddr k

/-- `kmalloc`: the address of the first page taken. The number of pages is an `int`. -/
def kmalloc (size : UInt64) (k : Kernel) : Option (UInt64 × Kernel) :=
  if 0 < size then do
    let cnt : Int := ((size / 4096).toNat : Int).bmod (2 ^ 32) + if 0 < size % 4096 then 1 else 0
    let (retAddr, k) ← k.pageAllocAddr
    let frames := (List.range (cnt - 1).toNat).foldl (fun a _ => (pageAlloc a).2) k.frames
    some (retAddr, { k with frames := frames })
  else some (0, k)

/-- `phyAddr`: the PT entry of an address. A table pointer that stays `NULL` because the entry
above it is absent is dereferenced all the same, at every level but the last. -/
def phyAddr (vaddr : UInt64) (k : Kernel) : Option UInt64 := do
  let deref (table index : UInt64) : Option UInt64 :=
    if table = 0 then none else some (k.ptEntry table index)
  let pointer (entry : UInt64) : UInt64 := if entry &&& pteP ≠ 0 then getAddress entry else 0
  let pdpt := pointer (k.ptEntry k.cr3 (getPML4Index vaddr))
  let pdptEntry ← deref pdpt (getPDPTIndex vaddr)
  let pdtEntry ← deref (pointer pdptEntry) (getPDTIndex vaddr)
  let pt := pointer pdtEntry
  if pt ≠ 0 then some (k.ptEntry pt (getPTIndex vaddr)) else some 0

/-! ## The memory as radix tables -/

/-- The x86 reading of an entry: present when bit 0 is set, and then the frame number. -/
def pte : Format Nat UInt64 where
  present e := e &&& pteP != 0
  target e := e.toNat / 4096

/-- An index of nine bits, as a position in a table. -/
def slot (index : UInt64) : Fin 512 := Fin.ofNat 512 index.toNat

/-- The PML4, PDPT and PDT positions of a virtual address. -/
def path (vaddr : UInt64) : List (Fin 512) :=
  [slot (getPML4Index vaddr), slot (getPDPTIndex vaddr), slot (getPDTIndex vaddr)]

/-- The PT position of a virtual address. -/
def ptSlot (vaddr : UInt64) : Fin 512 := slot (getPTIndex vaddr)

/-- The translation of a virtual address under the PML4 in frame `root`: its PT entry, when the
entries of all four levels are present. -/
def walk (m : Mem) (root : Nat) (vaddr : UInt64) : Option UInt64 :=
  leafAt pte (entry m) root (path vaddr) (ptSlot vaddr)

/-- The paths of a whole address space. -/
def allPaths : Set (List (Fin 512)) := {p | p.length ≤ 3}

/-- The paths below the first `n` entries of the PML4. -/
def pathsBelow (n : Nat) : Set (List (Fin 512)) := {p | p.length ≤ 3 ∧ ∀ i ∈ p.head?, i.val < n}

theorem prefixClosed_allPaths : PrefixClosed allPaths where
  nil := by simp [allPaths]
  left h := by
    simp only [allPaths, Set.mem_ofPred_eq, List.length_append] at h ⊢
    omega

theorem prefixClosed_pathsBelow (n : Nat) : PrefixClosed (pathsBelow n) where
  nil := by simp [pathsBelow]
  left {p q} h := by
    simp only [pathsBelow, Set.mem_ofPred_eq, List.length_append] at h ⊢
    refine ⟨by omega, fun i hi => h.2 i ?_⟩
    cases p with
    | nil => simp at hi
    | cons j p => simpa using hi

theorem path_mem_allPaths (v : UInt64) : path v ∈ allPaths := by simp [allPaths, path]

theorem path_maximal (v : UInt64) (i : Fin 512) : path v ++ [i] ∉ allPaths := by
  simp [allPaths, path]

/-! ## Arithmetic of addresses and entries -/

theorem shift_and_511 (v : UInt64) {n : UInt64} (hn : n.toNat < 64) :
    ((v >>> n) &&& 0x1FF).toNat = v.toNat / 2 ^ n.toNat % 512 := by
  have h511 : (0x1FF : UInt64).toNat = 2 ^ 9 - 1 := rfl
  rw [UInt64.toNat_and, UInt64.toNat_shiftRight, h511, Nat.and_two_pow_sub_one_eq_mod,
    Nat.mod_eq_of_lt hn, Nat.shiftRight_eq_div_pow]

theorem getPML4Index_toNat (v : UInt64) : (getPML4Index v).toNat = v.toNat / 2 ^ 39 % 512 :=
  shift_and_511 v (by decide)

theorem getPDPTIndex_toNat (v : UInt64) : (getPDPTIndex v).toNat = v.toNat / 2 ^ 30 % 512 :=
  shift_and_511 v (by decide)

theorem getPDTIndex_toNat (v : UInt64) : (getPDTIndex v).toNat = v.toNat / 2 ^ 21 % 512 :=
  shift_and_511 v (by decide)

theorem getPTIndex_toNat (v : UInt64) : (getPTIndex v).toNat = v.toNat / 2 ^ 12 % 512 :=
  shift_and_511 v (by decide)

theorem slot_val {index : UInt64} (h : index.toNat < 512) : (slot index).val = index.toNat := by
  simp [slot, Nat.mod_eq_of_lt h]

/-- The indices of an address are positions in a table. -/
theorem toNat_and_511 (x : UInt64) : (x &&& 0x1FF).toNat = (slot (x &&& 0x1FF)).val := by
  have h511 : (0x1FF : UInt64).toNat = 2 ^ 9 - 1 := rfl
  rw [slot_val]
  rw [UInt64.toNat_and, h511, Nat.and_two_pow_sub_one_eq_mod]
  omega

theorem slot_val_pml4 (v : UInt64) : (slot (getPML4Index v)).val = v.toNat / 2 ^ 39 % 512 := by
  rw [slot_val, getPML4Index_toNat]
  rw [getPML4Index_toNat]
  omega

/-- The page number of an address is made of its four positions. -/
theorem page_eq_positions (n : Nat) : n % 2 ^ 48 / 4096 =
    ((n / 2 ^ 39 % 512 * 512 + n / 2 ^ 30 % 512) * 512 + n / 2 ^ 21 % 512) * 512 +
      n / 2 ^ 12 % 512 := by
  omega

theorem positions_inj {a b c d a' b' c' d' : Nat} (hb : b < 512) (hc : c < 512) (hd : d < 512)
    (hb' : b' < 512) (hc' : c' < 512) (hd' : d' < 512)
    (h : ((a * 512 + b) * 512 + c) * 512 + d = ((a' * 512 + b') * 512 + c') * 512 + d') :
    (a = a' ∧ b = b' ∧ c = c') ∧ d = d' := by
  omega

/-- Two 48-bit addresses with the same positions at all four levels are in the same page. -/
theorem same_page_iff {v w : UInt64} :
    path v = path w ∧ ptSlot v = ptSlot w ↔
      v.toNat % 2 ^ 48 / 4096 = w.toNat % 2 ^ 48 / 4096 := by
  have hval : ∀ x : UInt64, x.toNat / 2 ^ 39 % 512 = (slot (getPML4Index x)).val ∧
      x.toNat / 2 ^ 30 % 512 = (slot (getPDPTIndex x)).val ∧
      x.toNat / 2 ^ 21 % 512 = (slot (getPDTIndex x)).val ∧
      x.toNat / 2 ^ 12 % 512 = (slot (getPTIndex x)).val := by
    intro x
    simp only [slot, Fin.val_ofNat, getPML4Index_toNat, getPDPTIndex_toNat, getPDTIndex_toNat,
      getPTIndex_toNat, Nat.mod_mod, and_self]
  obtain ⟨hv4, hv3, hv2, hv1⟩ := hval v
  obtain ⟨hw4, hw3, hw2, hw1⟩ := hval w
  simp only [path, ptSlot, List.cons.injEq, and_true, Fin.ext_iff, ← hv4, ← hv3, ← hv2, ← hv1,
    ← hw4, ← hw3, ← hw2, ← hw1, page_eq_positions]
  constructor
  · rintro ⟨⟨h4, h3, h2⟩, h1⟩
    rw [h4, h3, h2, h1]
  · have hlt : ∀ m, m % 512 < 512 := fun m => Nat.mod_lt m (by decide)
    exact positions_inj (hlt _) (hlt _) (hlt _) (hlt _) (hlt _) (hlt _)

theorem getAddress_toNat (e : UInt64) : (getAddress e).toNat = 4096 * pte.target e := by
  have hmask : frameMask.toNat = (2 ^ (64 - 12) - 1) * 2 ^ 12 := rfl
  rw [getAddress, UInt64.toNat_and, hmask, nat_and_highMask e.toNat_lt, Nat.mul_comm]
  rfl

/-- Flag bits do not change the frame of an entry. -/
theorem target_or (e : UInt64) {c : UInt64} (hc : c.toNat < 4096) :
    pte.target (e ||| c) = pte.target e := by
  show (e ||| c).toNat / 2 ^ 12 = e.toNat / 2 ^ 12
  rw [UInt64.toNat_or, Nat.or_div_two_pow, Nat.div_eq_of_lt hc, Nat.or_zero]

theorem present_iff {e : UInt64} : pte.present e = true ↔ e &&& pteP ≠ 0 := by
  simp [pte]

theorem or_and (a b c : UInt64) : (a ||| b) &&& c = (a &&& c) ||| (b &&& c) :=
  UInt64.toBitVec_inj.1 BitVec.and_or_distrib_right

theorem or_and_ne_zero {a b c : UInt64} (h : b &&& c ≠ 0) : (a ||| b) &&& c ≠ 0 := by
  rw [or_and]
  exact fun h0 => h (UInt64.or_eq_zero_iff.1 h0).2

/-- The flags every table and every user mapping is installed with. -/
def pteFlags : UInt64 := pteP ||| pteW ||| pteU

theorem present_or_flags (e : UInt64) : pte.present (e ||| pteFlags) = true :=
  present_iff.2 (or_and_ne_zero (by decide))

/-! ## Frames without entries -/

/-- The frame holds no present entry. -/
def Blank (m : Mem) (f : Nat) : Prop := ∀ i, pte.present (entry m f i) = false

theorem blank_of_zeroPage {m : Mem} {f : Nat} (h : ZeroPage m f) : Blank m f := by
  intro i
  rw [entry_zero h]
  rfl

theorem Blank.congr {m m' : Mem} {f : Nat} (hf : Blank m f) (h : SamePage m m' f) :
    Blank m' f := by
  intro i
  rw [entry_congr h]
  exact hf i

/-- There are no tables below such a frame. -/
theorem Blank.next {m : Mem} {f : Nat} (h : Blank m f) (i : Fin 512) :
    next pte (entry m) f i = none := by
  rw [Radix.next, h i]
  rfl

end Sbunix
