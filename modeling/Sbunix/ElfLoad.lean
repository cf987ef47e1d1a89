import Sbunix.Boot
import Sbunix.Lib.Run
import Sbunix.PageFault

/-!
# The ELF loader

`elf_load` gives every page that a `PT_LOAD` header touches a frame of its own, maps it in the
address space of `CR3` and copies the segment there, header by header; then it maps a page for the
heap and one for the stack.

`elfOps` lists what it does. A `Layout` says what this leads to: which pages have frames, and which
frames. It takes the frames from the free list in turn and counts those that tables need, so that
it is computed from the state before.

A load does not look into the frames it takes for pages. `Loading` therefore follows two machines
at once that have the same tables: one with blank free frames, and one with any memory else. The
bytes of the loaded pages are given by `Contents`.
-/

namespace Sbunix

open Lib Lib.Radix

/-! ## The loader -/

/-- The fields of an `Elf64_Phdr` that the loader reads. -/
structure Phdr where
  pType : Nat
  pFlags : Nat
  pOffset : UInt64
  pVaddr : UInt64
  pFilesz : UInt64
  pMemsz : UInt64
deriving DecidableEq

def permX : Nat := 0x1

def permW : Nat := 0x2

def permR : Nat := 0x4

def ptLoad : Nat := 1

def heapStart : UInt64 := 0x08000000

def userStackTop : UInt64 := 0xF0000000

/-- The program header at an address of the kernel's image. -/
def phdrAt (image : Mem) (a : UInt64) : Phdr where
  pType := readLE image a.toNat 4
  pFlags := readLE image (a.toNat + 4) 4
  pOffset := read64 image (a.toNat + 8)
  pVaddr := read64 image (a.toNat + 16)
  pFilesz := read64 image (a.toNat + 32)
  pMemsz := read64 image (a.toNat + 40)

/-- The program headers, `e_phnum` of them from `e_phoff` on. -/
def programHeaders (image : Mem) (elfHeader : UInt64) : List Phdr :=
  (List.range (readLE image (elfHeader.toNat + 56) 2)).map fun i =>
    phdrAt image (elfHeader + read64 image (elfHeader.toNat + 32) + 56 * UInt64.ofNat i)

/-- `vma_struct`, as far as the loader reads it. -/
structure VmaStruct where
  start : UInt64
  «end» : UInt64

def addVMA (start stop : UInt64) (k : Kernel) : Option (VmaStruct × Kernel) := do
  let (_, k) ← kmalloc 4096 k
  some (⟨start, stop⟩, k)

/-- `get_phy_addr`: a new page at `vaddr`. -/
def getPhyAddr (vaddr : UInt64) (k : Kernel) : Option (UInt64 × Kernel) := do
  let (page, k) ← k.pageAllocAddr
  let k ← mapProcess vaddr page k
  some (vaddr, k)

/-- `while (itr)`: new pages from `start` on. -/
def mapBlocks : Nat → UInt64 → Kernel → Option Kernel
  | 0, _, k => some k
  | itr + 1, start, k => do
    let (page, k) ← k.pageAllocAddr
    let k ← mapProcess start page k
    mapBlocks itr (start + 0x1000) k

/-- `*pd = *ps` for the `i`-th byte, from the kernel's image. -/
def copyFileByte (image : Mem) (dest src : UInt64) (k : Kernel) (i : Nat) : Option Kernel :=
  storeByte (dest + UInt64.ofNat i) (image (src + UInt64.ofNat i).toNat) k

/-- `memcpy` from the kernel's image. -/
def memcpyFile (image : Mem) (dest src n : UInt64) (k : Kernel) : Option Kernel :=
  if src < dest then (List.range n.toNat).reverse.foldlM (copyFileByte image dest src) k
  else (List.range n.toNat).foldlM (copyFileByte image dest src) k

/-- The test of `p_flags` before the copy. -/
def Phdr.Copied (ph : Phdr) : Prop :=
  ph.pFlags = permR ||| permX ∨ ph.pFlags = permR ||| permW

instance (ph : Phdr) : Decidable ph.Copied := inferInstanceAs (Decidable (_ ∨ _))

/-- The turn of the loop over the program headers. -/
def loadSegment (image : Mem) (elfHeader : UInt64) (k : Kernel) (ph : Phdr) : Option Kernel :=
  if ph.pType = ptLoad then do
    let (vma, k) ← addVMA ph.pVaddr (ph.pVaddr + ph.pMemsz) k
    let size := (vma.end / 0x1000 * 0x1000 + 0x1000) - vma.start / 0x1000 * 0x1000
    let k ← mapBlocks (size / 0x1000).toNat (ph.pVaddr / 0x1000 * 0x1000) k
    if ph.Copied then
      memcpyFile image vma.start (elfHeader + ph.pOffset) ph.pFilesz k
    else some k
  else some k

/-- `*ptr = w`. -/
def storeWord (v w : UInt64) (k : Kernel) : Option Kernel :=
  (List.range 8).foldlM (fun k i => storeByte (v + UInt64.ofNat i)
    (UInt8.ofNat (w.toNat / 256 ^ i)) k) k

/-- The fields of a `Task` that the loader sets. `kernel_rsp` is the top of `kstack`. -/
structure Entry where
  taskRip : UInt64
  taskRsp : UInt64

/-- `*ptr = argc`, and the rows of the caller behind it. -/
def storeArgs (ptr : UInt64) (argc : Int) (args : UInt64) (k : Kernel) : Option Kernel :=
  if 0 < argc then do
    let k ← storeWord ptr (UInt64.ofInt argc) k
    memcpy (ptr + 8) args (UInt64.ofInt (argc * 64)) k
  else some k

/-- `elf_load`, with the address that `getElfHeader` returns. The file is part of the kernel's
image. -/
def elfLoad (image : Mem) (addr : UInt64) (argc : Int) (args : UInt64) (task : Entry)
    (k : Kernel) : Option (Entry × Kernel) :=
  if addr ≠ 0 then do
    let k ← (programHeaders image addr).foldlM (loadSegment image addr) k
    let (_, k) ← getPhyAddr heapStart k
    let (_, k) ← addVMA heapStart (heapStart + 0x1000) k
    let (stackAddr, k) ← getPhyAddr (userStackTop - 0x1000) k
    let (_, k) ← addVMA (stackAddr + 0x1000) stackAddr k
    let ptr := stackAddr + 0x1000 - 16 - UInt64.ofInt (64 * argc)
    let k ← storeArgs ptr argc args k
    some (⟨read64 image (addr.toNat + 24), ptr⟩, k)
  else some (task, k)

/-! ## The loader as a list of operations -/

/-- An object of the kernel, a page mapped at `v`, or a copy from the file. -/
inductive LoadOp where
  | vma
  | page (v : UInt64)
  | copy (dest src n : UInt64)

def loadOp (image : Mem) (k : Kernel) : LoadOp → Option Kernel
  | .vma => do
    let (_, k) ← k.pageAllocAddr
    some k
  | .page v => do
    let (page, k) ← k.pageAllocAddr
    mapProcess v page k
  | .copy dest src n => memcpyFile image dest src n k

def blockOps : Nat → UInt64 → List LoadOp
  | 0, _ => []
  | itr + 1, start => .page start :: blockOps itr (start + 0x1000)

/-- The number of pages from the one of `p_vaddr` to the one of `p_vaddr + p_memsz`. -/
def Phdr.blocks (ph : Phdr) : Nat :=
  (((ph.pVaddr + ph.pMemsz) / 0x1000 * 0x1000 + 0x1000 - ph.pVaddr / 0x1000 * 0x1000) /
    0x1000).toNat

def segmentOps (elfHeader : UInt64) (ph : Phdr) : List LoadOp :=
  if ph.pType = ptLoad then
    .vma :: blockOps ph.blocks (ph.pVaddr / 0x1000 * 0x1000) ++
      if ph.Copied then [.copy ph.pVaddr (elfHeader + ph.pOffset) ph.pFilesz] else []
  else []

def tailOps : List LoadOp := [.page heapStart, .vma, .page (userStackTop - 0x1000), .vma]

def elfOps (elfHeader : UInt64) (phs : List Phdr) : List LoadOp :=
  phs.flatMap (segmentOps elfHeader) ++ tailOps

section

variable {image : Mem} {elfHeader : UInt64}

theorem mapBlocks_eq (image : Mem) (itr : Nat) (start : UInt64) (k : Kernel) :
    mapBlocks itr start k = (blockOps itr start).foldlM (loadOp image) k := by
  induction itr generalizing start k with
  | zero => rfl
  | succ itr ih =>
    rw [blockOps, List.foldlM_cons, mapBlocks, loadOp]
    simp only [ih, Option.bind_eq_bind, Option.bind_assoc]

theorem loadSegment_eq (k : Kernel) (ph : Phdr) :
    loadSegment image elfHeader k ph = (segmentOps elfHeader ph).foldlM (loadOp image) k := by
  unfold loadSegment segmentOps
  split_ifs with hload hcopy
  · rw [List.cons_append, List.foldlM_cons]
    simp only [addVMA, kmalloc_page, mapBlocks_eq image, List.foldlM_append, loadOp,
      Option.bind_eq_bind, Option.bind_assoc, Option.bind_some, List.foldlM_cons, List.foldlM_nil,
      Option.pure_def, Option.bind_fun_some]
    rfl
  · rw [List.cons_append, List.foldlM_cons]
    simp only [addVMA, kmalloc_page, mapBlocks_eq image, List.append_nil, loadOp,
      Option.bind_eq_bind, Option.bind_assoc, Option.bind_some, Option.bind_fun_some]
    rfl
  · rfl

theorem loadSegments_eq (phs : List Phdr) (k : Kernel) :
    phs.foldlM (loadSegment image elfHeader) k =
      (phs.flatMap (segmentOps elfHeader)).foldlM (loadOp image) k := by
  induction phs generalizing k with
  | nil => rfl
  | cons ph phs ih =>
    rw [List.foldlM_cons, loadSegment_eq, List.flatMap_cons, List.foldlM_append]
    simp only [ih]

/-- `ptr`, when there are `argc` arguments. -/
def argsPtr (argc : Int) : UInt64 :=
  userStackTop - 0x1000 + 0x1000 - 16 - UInt64.ofInt (64 * argc)

/-- The loader performs its operations and then stores the arguments. -/
theorem elfLoad_eq {addr : UInt64} (haddr : addr ≠ 0) (argc : Int) (args : UInt64) (task : Entry)
    (k : Kernel) :
    elfLoad image addr argc args task k =
      (((elfOps addr (programHeaders image addr)).foldlM (loadOp image) k).bind
        (storeArgs (argsPtr argc) argc args)).map
          fun k => (⟨read64 image (addr.toNat + 24), argsPtr argc⟩, k) := by
  rw [elfLoad, if_pos haddr, elfOps, List.foldlM_append, loadSegments_eq]
  simp only [tailOps, getPhyAddr, addVMA, kmalloc_page, List.foldlM_cons, List.foldlM_nil, loadOp,
    Option.bind_eq_bind, Option.map_eq_bind, Option.bind_assoc, Option.bind_some, Option.pure_def,
    Function.comp_def, argsPtr]

end

/-! ## What a load leads to -/

/-- An address space in the course of a load: the paths of its tables, the free frames, and the
frames of the loaded pages. -/
structure Layout where
  tables : Finset (List (Fin 512))
  free : List Nat
  frame : Nat → Option Nat

/-- An operation takes one frame, and `map_process` one more for each table that is missing. Without
a free frame the load fails, and what stands here does not matter. -/
def Layout.step (s : Layout) : LoadOp → Layout
  | .vma => { s with free := s.free.tail }
  | .page v =>
    { tables := withPath v s.tables
      free := s.free.tail.drop ((withPath v s.tables).card - s.tables.card)
      frame := Function.update s.frame (vpage v) (some (s.free.headD 0)) }
  | .copy _ _ _ => s

/-- There is a free frame for the operation, and one for each table that is missing. -/
def Layout.Fits (s : Layout) : LoadOp → Prop
  | .vma => 0 < s.free.length
  | .page v => (withPath v s.tables).card < s.free.length + s.tables.card
  | .copy _ _ _ => True

/-- The frames suffice for the operations. -/
def FramesSuffice (s : Layout) (ops : List LoadOp) : Prop :=
  Along (fun s op => some (s.step op)) Layout.Fits s ops

/-- The frames that an operation takes for tables. -/
def Layout.tablesFor (s : Layout) : LoadOp → List Nat
  | .page v => s.free.tail.take ((withPath v s.tables).card - s.tables.card)
  | _ => []

/-- Those of them for PDPTs and PDTs. The PT comes last. -/
def Layout.uppersFor (s : Layout) : LoadOp → List Nat
  | .page v => s.free.tail.take ((withPath v s.tables).card - s.tables.card - 1)
  | _ => []

/-- The PT that an operation adds: its path and its frame. -/
def Layout.ptFor (s : Layout) : LoadOp → List (List (Fin 512) × Nat)
  | .page v => if path v ∈ s.tables then [] else
    [(path v, s.free.tail.getD ((withPath v s.tables).card - s.tables.card - 1) 0)]
  | _ => []

/-- The frame of the object that an operation makes. -/
def Layout.objectFor (s : Layout) : LoadOp → List Nat
  | .vma => [s.free.headD 0]
  | _ => []

/-- What the operations take in turn. -/
def Layout.collect {α : Type} (taken : Layout → LoadOp → List α) : Layout → List LoadOp → List α
  | _, [] => []
  | s, op :: ops => taken s op ++ (s.step op).collect taken ops

def Layout.newTables : Layout → List LoadOp → List Nat := collect tablesFor

def Layout.newUppers : Layout → List LoadOp → List Nat := collect uppersFor

def Layout.newObjects : Layout → List LoadOp → List Nat := collect objectFor

def Layout.newPts : Layout → List LoadOp → List (List (Fin 512) × Nat) := collect ptFor

/-- The loaded bytes by their addresses. A byte that has not been copied is one that the frame has
held before. -/
abbrev Contents := Nat → Option UInt8

/-- The bytes `b` are stored from `dest` on. -/
def Contents.write (c : Contents) (dest n : Nat) (b : Nat → UInt8) : Contents := fun a =>
  if dest ≤ a ∧ a < dest + n then some (b (a - dest)) else c a

def Contents.step (image : Mem) (c : Contents) : LoadOp → Contents
  | .vma => c
  | .page v => fun a => if a / 4096 = vpage v then none else c a
  | .copy dest src n => c.write dest.toNat n.toNat fun i => image (src + UInt64.ofNat i).toNat

/-- The addresses are those of loaded pages in the lower half. -/
def Layout.Covers (s : Layout) (dest n : Nat) : Prop :=
  dest + n ≤ 2 ^ 47 ∧ ∀ a, dest ≤ a → a < dest + n → (s.frame (a / 4096)).isSome

/-- A copy stays within the loaded pages. -/
def WithinPages (s : Layout) : LoadOp → Prop
  | .copy dest _ n => s.Covers dest.toNat n.toNat
  | _ => True

def CopiesWithin (s : Layout) (ops : List LoadOp) : Prop :=
  Along (fun s op => some (s.step op)) WithinPages s ops

/-- The entry of a page in frame `g`. -/
def pageEntry (g : Nat) : UInt64 := UInt64.ofNat (4096 * g) ||| pteFlags

end Sbunix
