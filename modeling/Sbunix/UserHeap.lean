import Sbunix.Lib.Chain
import Sbunix.Lib.Memory
import Sbunix.Lib.Run
import Mathlib

/-!
# The user heap

`malloc` and `free` of `libc/malloc.c` keep a doubly linked list of blocks. The header of a block
lies in front of its payload in the memory that `brk` returned for it, blocks are never split or
given back, and a freed block is used again for the first request that it is large enough for. The
kernel is a parameter: each call carries what `brk` would return, and the heap logs the answers.

`HeapInv` is the invariant. It reads the memory only through `metaBlock`, so a step keeps it when
it keeps the links and sizes of the headers (`HeapInv.of_links`) or appends a block
(`HeapInv.append`). `user_heap` follows it through every run and says what each call then does.
-/

namespace Sbunix

open Lib

/-! ## Blocks -/

/-- `struct meta_block`. -/
structure MetaBlock where
  size : UInt64
  next : UInt64
  previous : UInt64
  status : UInt32
  magicCode : UInt32
deriving DecidableEq

def headerSize : UInt64 := 32

namespace MetaBlock

def alloc : UInt32 := 1

def freed : UInt32 := 2

def magicAlloc : UInt32 := 11

def magicFreed : UInt32 := 22

def magicReall : UInt32 := 33

end MetaBlock

open MetaBlock

/-- The header at an address. -/
def metaBlock (m : Mem) (a : UInt64) : MetaBlock :=
  ⟨read64 m a.toNat, read64 m (a + 8).toNat, read64 m (a + 16).toNat, read32 m (a + 24).toNat,
    read32 m (a + 28).toNat⟩

def setSize (m : Mem) (a v : UInt64) : Mem := write64 m a.toNat v

def setNext (m : Mem) (a v : UInt64) : Mem := write64 m (a + 8).toNat v

def setPrevious (m : Mem) (a v : UInt64) : Mem := write64 m (a + 16).toNat v

def setStatus (m : Mem) (a : UInt64) (v : UInt32) : Mem := write32 m (a + 24).toNat v

def setMagicCode (m : Mem) (a : UInt64) (v : UInt32) : Mem := write32 m (a + 28).toNat v

/-! ## The library -/

/-- The memory, the list, and what `brk` has returned so far with the pages asked for. -/
structure UserHeap where
  mem : Mem
  headNode : UInt64
  regions : List (UInt64 × Int)

/-- `(inc/4096) +1`, as an `int`. -/
def noOfPages (inc : UInt64) : Int := (inc.toInt64.toInt.tdiv 4096 + 1).bmod (2 ^ 32)

namespace UserHeap

/-- `sbrk`, when `brk` returns `new`. -/
def sbrk (h : UserHeap) (new inc : UInt64) : UInt64 × UserHeap :=
  (new, { h with regions := h.regions ++ [(new, noOfPages inc)] })

def blockRequest (h : UserHeap) (new last size : UInt64) : Except Fault (UInt64 × UserHeap) :=
  let (newBlock, h) := h.sbrk new (headerSize + size)
  if newBlock = 0 then .error .nullDeref
  else
    let m := if last ≠ 0 then setPrevious (setNext h.mem last newBlock) newBlock last else h.mem
    let m := setStatus m newBlock alloc
    let m := setMagicCode m newBlock magicAlloc
    let m := setSize m newBlock size
    let m := setNext m newBlock 0
    .ok (newBlock, { h with mem := m })

/-- The loop of `find_freed_block`, with the block and `*last`. -/
def findFreedLoop (m : Mem) (size : UInt64) :
    Nat → UInt64 → UInt64 → Except Fault (UInt64 × UInt64)
  | 0, _, _ => .error .diverges
  | fuel + 1, new, last =>
    if new ≠ 0 then
      if (metaBlock m new).status = freed ∧ size ≤ (metaBlock m new).size then .ok (new, last)
      else findFreedLoop m size fuel (metaBlock m new).next new
    else .ok (0, last)

/-- The loop may visit every address once, and then `NULL`. -/
def findFreedBlock (h : UserHeap) (last size : UInt64) : Except Fault (UInt64 × UInt64) :=
  findFreedLoop h.mem size (2 ^ 64 + 1) h.headNode last

def malloc (h : UserHeap) (new size : UInt64) : Except Fault (UInt64 × UserHeap) :=
  if size ≤ 0 then .ok (0, h)
  else if h.headNode = 0 then do
    let (block, h) ← h.blockRequest new 0 size
    if block = 0 then .ok (0, h)
    else .ok (block + headerSize, ⟨setPrevious h.mem block 0, block, h.regions⟩)
  else do
    let (block, last) ← h.findFreedBlock h.headNode size
    if block = 0 then do
      let (block, h) ← h.blockRequest new last size
      if block = 0 then .ok (0, h) else .ok (block + headerSize, h)
    else
      let m := setStatus (setMagicCode h.mem block magicReall) block alloc
      .ok (block + headerSize, { h with mem := m })

def blockHeader (blockPointer : UInt64) : UInt64 := blockPointer - headerSize

/-- `free`, with what it prints. -/
def free (h : UserHeap) (data : UInt64) : UserHeap × Option (String × List UInt64) :=
  if data = 0 then (h, none)
  else
    let new := blockHeader data
    if (metaBlock h.mem new).status = freed then (h, some ("\n double free", []))
    else
      let m := setStatus h.mem new freed
      if (metaBlock m new).magicCode = magicAlloc ∨ (metaBlock m new).magicCode = magicReall then
        ({ h with mem := setMagicCode m new magicFreed }, none)
      else
        ({ h with mem := m }, some ("\n dangling pointer %d %d %d",
          [(metaBlock m new).magicCode.toUInt64, (metaBlock m new).size,
            (metaBlock m new).status.toUInt64]))

/-- The blocks requested so far, the first one first. -/
def blocks (h : UserHeap) : List UInt64 := h.regions.map Prod.fst

end UserHeap

/-! ## Headers in memory -/

section

variable {m m' : Mem} {a b v : UInt64}

/-- The addresses of the fields wrap around. -/
theorem fields_mod (a : UInt64) : a.toNat < 2 ^ 64 ∧ (a + 8).toNat = (a.toNat + 8) % 2 ^ 64 ∧
    (a + 16).toNat = (a.toNat + 16) % 2 ^ 64 ∧ (a + 24).toNat = (a.toNat + 24) % 2 ^ 64 ∧
    (a + 28).toNat = (a.toNat + 28) % 2 ^ 64 :=
  ⟨a.toNat_lt, UInt64.toNat_add _ _, UInt64.toNat_add _ _, UInt64.toNat_add _ _,
    UInt64.toNat_add _ _⟩

theorem fields_toNat (ha : a.toNat + 32 ≤ 2 ^ 64) : (a + 8).toNat = a.toNat + 8 ∧
    (a + 16).toNat = a.toNat + 16 ∧ (a + 24).toNat = a.toNat + 24 ∧
    (a + 28).toNat = a.toNat + 28 := by
  have hmod := fields_mod a
  omega

theorem metaBlock_congr (ha : a.toNat + 32 ≤ 2 ^ 64)
    (h : ∀ x, a.toNat ≤ x → x < a.toNat + 32 → m' x = m x) :
    metaBlock m' a = metaBlock m a := by
  have hfields := fields_toNat ha
  unfold metaBlock
  rw [read64_congr (a := a.toNat) fun k hk => h _ (by omega) (by omega),
    read64_congr (a := (a + 8).toNat) fun k hk => h _ (by omega) (by omega),
    read64_congr (a := (a + 16).toNat) fun k hk => h _ (by omega) (by omega),
    read32_congr (a := (a + 24).toNat) fun k hk => h _ (by omega) (by omega),
    read32_congr (a := (a + 28).toNat) fun k hk => h _ (by omega) (by omega)]

/-- Writing the last two fields writes nothing else. -/
theorem lastFields_of_not_mem (ha : a.toNat + 32 ≤ 2 ^ 64) (m : Mem) (v w : UInt32) {x : Nat}
    (hx : x < a.toNat + 24 ∨ a.toNat + 32 ≤ x) :
    setStatus (setMagicCode m a w) a v x = m x ∧ setMagicCode (setStatus m a v) a w x = m x := by
  have hfields := fields_toNat ha
  unfold setStatus setMagicCode
  constructor
  · rw [write32_of_not_mem _ _ (by omega), write32_of_not_mem _ _ (by omega)]
  · rw [write32_of_not_mem _ _ (by omega), write32_of_not_mem _ _ (by omega)]

@[simp] theorem metaBlock_setSize (m : Mem) (a v : UInt64) :
    metaBlock (setSize m a v) a = { metaBlock m a with size := v } := by
  have hfields := fields_mod a
  simp (disch := omega) only [metaBlock, setSize, read64_write64, read64_write64_of_disjoint,
    read32_write64_of_disjoint]

@[simp] theorem metaBlock_setNext (m : Mem) (a v : UInt64) :
    metaBlock (setNext m a v) a = { metaBlock m a with next := v } := by
  have hfields := fields_mod a
  simp (disch := omega) only [metaBlock, setNext, read64_write64, read64_write64_of_disjoint,
    read32_write64_of_disjoint]

@[simp] theorem metaBlock_setPrevious (m : Mem) (a v : UInt64) :
    metaBlock (setPrevious m a v) a = { metaBlock m a with previous := v } := by
  have hfields := fields_mod a
  simp (disch := omega) only [metaBlock, setPrevious, read64_write64, read64_write64_of_disjoint,
    read32_write64_of_disjoint]

@[simp] theorem metaBlock_setStatus (m : Mem) (a : UInt64) (v : UInt32) :
    metaBlock (setStatus m a v) a = { metaBlock m a with status := v } := by
  have hfields := fields_mod a
  simp (disch := omega) only [metaBlock, setStatus, read32_write32, read64_write32_of_disjoint,
    read32_write32_of_disjoint]

@[simp] theorem metaBlock_setMagicCode (m : Mem) (a : UInt64) (v : UInt32) :
    metaBlock (setMagicCode m a v) a = { metaBlock m a with magicCode := v } := by
  have hfields := fields_mod a
  simp (disch := omega) only [metaBlock, setMagicCode, read32_write32, read64_write32_of_disjoint,
    read32_write32_of_disjoint]

end

/-- `NULL` or a block. -/
def pointer (v : UInt64) : Option UInt64 := if v = 0 then none else some v

theorem pointer_of_ne {v : UInt64} (h : v ≠ 0) : pointer v = some v := if_neg h

theorem pointer_eq_none {v : UInt64} : pointer v = none ↔ v = 0 := by
  unfold pointer
  split_ifs with hv
  · simp [hv]
  · simp [hv]

theorem pointer_eq_some {v a : UInt64} (h : pointer v = some a) : v = a ∧ a ≠ 0 := by
  unfold pointer at h
  split_ifs at h with hv
  obtain rfl := Option.some.inj h
  exact ⟨rfl, hv⟩

def nextOf (m : Mem) (a : UInt64) : Option UInt64 := pointer (metaBlock m a).next

def previousOf (m : Mem) (a : UInt64) : Option UInt64 := pointer (metaBlock m a).previous

/-! ## A new block -/

namespace UserHeap

section

variable {h : UserHeap} {new last size : UInt64}

/-- The memory with the header of a block requested behind `last`. -/
def requested (m : Mem) (new last size : UInt64) : Mem :=
  let m := if last ≠ 0 then setPrevious (setNext m last new) new last else m
  setNext (setSize (setMagicCode (setStatus m new alloc) new magicAlloc) new size) new 0

theorem blockRequest_eq (h : UserHeap) (hnew : new ≠ 0) (last size : UInt64) :
    h.blockRequest new last size = .ok (new, ⟨requested h.mem new last size, h.headNode,
      h.regions ++ [(new, noOfPages (headerSize + size))]⟩) := if_neg hnew

theorem requested_first (m : Mem) (new size : UInt64) :
    metaBlock (requested m new 0 size) new =
      ⟨size, 0, (metaBlock m new).previous, alloc, magicAlloc⟩ := by
  simp [requested]

theorem requested_new (m : Mem) (new size : UInt64) (hlast : last ≠ 0) :
    metaBlock (requested m new last size) new = ⟨size, 0, last, alloc, magicAlloc⟩ := by
  simp [requested, hlast]

/-- What a request writes: the header of the new block, and `next` of the last one. -/
theorem requested_of_not_mem (m : Mem) {x : Nat} (hspace : new.toNat + 32 ≤ 2 ^ 64)
    (hx : x < new.toNat ∨ new.toNat + 32 ≤ x)
    (hlast : last ≠ 0 → last.toNat + 32 ≤ 2 ^ 64 ∧ (x < last.toNat + 8 ∨ last.toNat + 16 ≤ x)) :
    requested m new last size x = m x := by
  have hfields := fields_toNat hspace
  unfold requested setNext setSize setMagicCode setStatus setPrevious
  rw [write64_of_not_mem _ _ (by omega), write64_of_not_mem _ _ (by omega),
    write32_of_not_mem _ _ (by omega), write32_of_not_mem _ _ (by omega)]
  by_cases hzero : last = 0
  · rw [if_neg (not_not.2 hzero)]
  · obtain ⟨hspace', hx'⟩ := hlast hzero
    have hfields' := fields_toNat hspace'
    rw [if_pos hzero, write64_of_not_mem _ _ (by omega), write64_of_not_mem _ _ (by omega)]

theorem requested_last (m : Mem) (size : UInt64) (hlast : last ≠ 0)
    (hspace : last.toNat + 32 ≤ 2 ^ 64) (hwrap : new.toNat + 32 ≤ 2 ^ 64 ∨ 32 ≤ last.toNat)
    (h : last.toNat + 32 ≤ new.toNat ∨ new.toNat + 32 ≤ last.toNat) :
    metaBlock (requested m new last size) last = { metaBlock m last with next := new } := by
  have hfields := fields_mod new
  have hframe : metaBlock (requested m new last size) last =
      metaBlock (setNext m last new) last := by
    apply metaBlock_congr hspace
    intro x hlo hhi
    unfold requested setSize setMagicCode setStatus setPrevious
    rw [if_pos hlast]
    unfold setNext
    rw [write64_of_not_mem _ _ (by omega), write64_of_not_mem _ _ (by omega),
      write32_of_not_mem _ _ (by omega), write32_of_not_mem _ _ (by omega),
      write64_of_not_mem (write64 m _ _) _ (by omega)]
  rw [hframe, metaBlock_setNext]

end

/-! ## The search -/

/-- A block that a request of `size` bytes takes. -/
def Reusable (m : Mem) (size a : UInt64) : Prop :=
  (metaBlock m a).status = freed ∧ size ≤ (metaBlock m a).size

instance (m : Mem) (size : UInt64) : DecidablePred (Reusable m size) :=
  fun _ => inferInstanceAs (Decidable (_ ∧ _))

/-- The first block of the list that can be reused, or `NULL` with the last block. -/
theorem findFreedLoop_eq {m : Mem} {size new last : UInt64} {l : List UInt64} {fuel : Nat}
    (h : Chain (nextOf m) (pointer new) l) (hfuel : l.length < fuel) :
    ∃ last', findFreedLoop m size fuel new last =
        .ok ((l.find? (Reusable m size)).getD 0, last') ∧
      (l.find? (Reusable m size) = none → last' = l.getLast?.getD last) := by
  induction l generalizing new last fuel with
  | nil =>
    obtain ⟨fuel, rfl⟩ := Nat.exists_eq_add_of_lt hfuel
    have hnew : new = 0 := pointer_eq_none.1 h
    refine ⟨last, ?_, fun _ => rfl⟩
    rw [findFreedLoop, if_neg (not_not.2 hnew)]
    rfl
  | cons a l ih =>
    obtain ⟨fuel, rfl⟩ := Nat.exists_eq_add_of_lt hfuel
    obtain ⟨hnew, hrest⟩ := h
    obtain ⟨rfl, hnonzero⟩ := pointer_eq_some hnew
    rw [findFreedLoop, if_pos hnonzero]
    by_cases hreuse : (metaBlock m new).status = freed ∧ size ≤ (metaBlock m new).size
    · have hfind : (new :: l).find? (Reusable m size) = some new :=
        List.find?_cons_of_pos (decide_eq_true hreuse)
      rw [if_pos hreuse, hfind]
      exact ⟨last, rfl, fun h => by cases h⟩
    · have hfind : (new :: l).find? (Reusable m size) = l.find? (Reusable m size) :=
        List.find?_cons_of_neg (mt of_decide_eq_true hreuse)
      rw [if_neg hreuse, hfind]
      rw [List.length_cons] at hfuel ⊢
      obtain ⟨last', heq, hlast⟩ := @ih _ new (l.length + 1 + fuel) hrest (by omega)
      refine ⟨last', heq, fun hnone => ?_⟩
      rw [hlast hnone, List.getLast?_cons]
      rfl

end UserHeap

/-! ## The invariant -/

/-- What `malloc` and `free` leave in the last two fields. -/
def MetaBlock.Sound (b : MetaBlock) : Prop :=
  b.status = alloc ∧ (b.magicCode = magicAlloc ∨ b.magicCode = magicReall) ∨
    b.status = freed ∧ b.magicCode = magicFreed

/-- Regions of pages that do not overlap. -/
def RegionsApart (r r' : UInt64 × Int) : Prop :=
  r.1.toNat + 4096 * r.2 ≤ r'.1.toNat ∨ r'.1.toNat + 4096 * r'.2 ≤ r.1.toNat

/-- A region of memory that `brk` has not returned before. -/
structure FreshRegion (h : UserHeap) (new : UInt64) (pages : Int) : Prop where
  pos : 0 < new.toNat
  space : new.toNat + 4096 * pages ≤ 2 ^ 64
  apart : ∀ r ∈ h.regions, RegionsApart r (new, pages)

/-- Every block requested is in the list once, in a region of its own that it fits into. -/
structure HeapInv (h : UserHeap) : Prop where
  next : Chain (nextOf h.mem) (pointer h.headNode) h.blocks
  previous : Chain (previousOf h.mem) h.blocks.getLast? h.blocks.reverse
  space : ∀ r ∈ h.regions, 0 < r.1.toNat ∧ r.1.toNat + 4096 * r.2 ≤ 2 ^ 64
  apart : h.regions.Pairwise RegionsApart
  size : ∀ r ∈ h.regions, 32 + ((metaBlock h.mem r.1).size.toNat : Int) < 4096 * r.2
  sound : ∀ a ∈ h.blocks, (metaBlock h.mem a).Sound

section

variable {h : UserHeap} {a b new last size : UInt64} {pages : Int} {m' : Mem}

instance : Std.Symm RegionsApart := ⟨fun _ _ => Or.symm⟩

theorem mem_blocks : a ∈ h.blocks ↔ ∃ pages, (a, pages) ∈ h.regions := by
  simp [UserHeap.blocks]

theorem HeapInv.ne_zero (hinv : HeapInv h) (ha : a ∈ h.blocks) : a ≠ 0 := by
  obtain ⟨pages, hr⟩ := mem_blocks.1 ha
  rintro rfl
  exact absurd (hinv.space _ hr).1 (Nat.lt_irrefl 0)

theorem HeapInv.header_end (hinv : HeapInv h) (ha : a ∈ h.blocks) : a.toNat + 32 ≤ 2 ^ 64 := by
  obtain ⟨pages, hr⟩ := mem_blocks.1 ha
  have hsize := hinv.size _ hr
  have hspace := (hinv.space _ hr).2
  dsimp only at hsize hspace
  omega

/-- A block, header and payload, ends in front of the others or starts behind them. -/
theorem HeapInv.block_apart (hinv : HeapInv h) (ha : a ∈ h.blocks) (hb : b ∈ h.blocks)
    (hab : a ≠ b) :
    a.toNat + 32 + (metaBlock h.mem a).size.toNat ≤ b.toNat ∨
      b.toNat + 32 + (metaBlock h.mem b).size.toNat ≤ a.toNat := by
  obtain ⟨pages, hra⟩ := mem_blocks.1 ha
  obtain ⟨pages', hrb⟩ := mem_blocks.1 hb
  have hsize := hinv.size _ hra
  have hsize' := hinv.size _ hrb
  have hne : (a, pages) ≠ (b, pages') := fun heq => hab (congrArg Prod.fst heq)
  have hapart := hinv.apart.forall hra hrb hne
  unfold RegionsApart at hapart
  dsimp only at hsize hsize' hapart
  omega

/-- The invariant reads the links and the sizes, and that the other fields are sound. -/
theorem HeapInv.of_links (hinv : HeapInv h)
    (hlinks : ∀ a ∈ h.blocks, (metaBlock m' a).next = (metaBlock h.mem a).next ∧
      (metaBlock m' a).previous = (metaBlock h.mem a).previous ∧
      (metaBlock m' a).size = (metaBlock h.mem a).size)
    (hsound : ∀ a ∈ h.blocks, (metaBlock m' a).Sound) : HeapInv { h with mem := m' } where
  next := hinv.next.congr fun a ha => congrArg pointer (hlinks a ha).1
  previous := hinv.previous.congr fun a ha =>
    congrArg pointer (hlinks a (List.mem_reverse.1 ha)).2.1
  space := hinv.space
  apart := hinv.apart
  size := by
    intro r hr
    dsimp only
    rw [(hlinks r.1 (mem_blocks.2 ⟨r.2, hr⟩)).2.2]
    exact hinv.size r hr
  sound := hsound

/-- A block in a region of its own behind the last one. -/
theorem HeapInv.append {head : UInt64} (hinv : HeapInv h) (hfresh : FreshRegion h new pages)
    (hsize : 32 + ((metaBlock m' new).size.toNat : Int) < 4096 * pages)
    (hsound : (metaBlock m' new).Sound)
    (hold : ∀ a ∈ h.blocks, (metaBlock m' a).size = (metaBlock h.mem a).size ∧
      (metaBlock m' a).Sound)
    (hnext : Chain (nextOf m') (pointer head) (h.blocks ++ [new]))
    (hprevious : Chain (previousOf m') (some new) (new :: h.blocks.reverse)) :
    HeapInv ⟨m', head, h.regions ++ [(new, pages)]⟩ := by
  have hblocks : UserHeap.blocks ⟨m', head, h.regions ++ [(new, pages)]⟩ = h.blocks ++ [new] := by
    simp [UserHeap.blocks]
  refine ⟨?_, ?_, ?_, ?_, ?_, ?_⟩
  · rw [hblocks]
    exact hnext
  · rw [hblocks, List.getLast?_concat, List.reverse_concat]
    exact hprevious
  · intro r hr
    cases List.mem_append.1 hr with
    | inl hr => exact hinv.space r hr
    | inr hr =>
      obtain rfl := List.mem_singleton.1 hr
      exact ⟨hfresh.pos, hfresh.space⟩
  · apply List.pairwise_append.2
    refine ⟨hinv.apart, List.pairwise_singleton _ _, fun r hr r' hr' => ?_⟩
    obtain rfl := List.mem_singleton.1 hr'
    exact hfresh.apart r hr
  · intro r hr
    cases List.mem_append.1 hr with
    | inl hr =>
      dsimp only
      rw [(hold r.1 (mem_blocks.2 ⟨r.2, hr⟩)).1]
      exact hinv.size r hr
    | inr hr =>
      obtain rfl := List.mem_singleton.1 hr
      exact hsize
  · rw [hblocks]
    intro a ha
    cases List.mem_append.1 ha with
    | inl ha => exact (hold a ha).2
    | inr ha =>
      obtain rfl := List.mem_singleton.1 ha
      exact hsound

/-- A new region lies apart from the headers of the blocks. -/
theorem FreshRegion.header_apart (hfresh : FreshRegion h new pages) (hinv : HeapInv h)
    (hpages : 32 ≤ 4096 * pages) (ha : a ∈ h.blocks) :
    a.toNat + 32 ≤ new.toNat ∨ new.toNat + 32 ≤ a.toNat := by
  obtain ⟨pages', hr⟩ := mem_blocks.1 ha
  have hsize := hinv.size _ hr
  have hapart := hfresh.apart _ hr
  unfold RegionsApart at hapart
  dsimp only at hsize hapart
  omega

theorem FreshRegion.header_end (hfresh : FreshRegion h new pages) (hpages : 32 ≤ 4096 * pages) :
    new.toNat + 32 ≤ 2 ^ 64 := by
  have hspace := hfresh.space
  omega

theorem FreshRegion.not_mem (hfresh : FreshRegion h new pages) (hinv : HeapInv h)
    (hpages : 32 ≤ 4096 * pages) : new ∉ h.blocks := by
  intro hmem
  have hapart := hfresh.header_apart hinv hpages hmem
  omega

theorem FreshRegion.ne_zero (hfresh : FreshRegion h new pages) : new ≠ 0 := by
  rintro rfl
  exact absurd hfresh.pos (Nat.lt_irrefl 0)

/-- The pages that `malloc` asks for hold the block. -/
theorem noOfPages_eq (h : size < 2 ^ 31) :
    noOfPages (headerSize + size) = (32 + size.toNat) / 4096 + 1 := by
  have hsize : size.toNat < 2 ^ 31 := UInt64.lt_iff_toNat_lt.1 h
  have hadd : (headerSize + size).toNat = 32 + size.toNat := by
    rw [UInt64.toNat_add]
    exact Nat.mod_eq_of_lt (by change 32 + size.toNat < 2 ^ 64; omega)
  have hint : (headerSize + size).toInt64.toInt = 32 + size.toNat := by
    change (headerSize + size).toBitVec.toInt = _
    rw [BitVec.toInt_eq_toNat_of_lt (by change 2 * (headerSize + size).toNat < 2 ^ 64; omega)]
    change ((headerSize + size).toNat : Int) = _
    rw [hadd]
    rfl
  have hdiv : (32 + (size.toNat : Int)).tdiv 4096 = (32 + size.toNat) / 4096 :=
    Int.tdiv_eq_ediv_of_nonneg (by omega)
  rw [noOfPages, hint, hdiv]
  exact Int.bmod_eq_of_le (by omega) (by omega)

/-- The first block. -/
theorem HeapInv.first (hinv : HeapInv h) (hblocks : h.blocks = [])
    (hfresh : FreshRegion h new pages)
    (hsize : 32 + (size.toNat : Int) < 4096 * pages) :
    HeapInv ⟨setPrevious (UserHeap.requested h.mem new 0 size) new 0, new,
      h.regions ++ [(new, pages)]⟩ := by
  have hnew : metaBlock (setPrevious (UserHeap.requested h.mem new 0 size) new 0) new =
      ⟨size, 0, 0, alloc, magicAlloc⟩ := by
    rw [metaBlock_setPrevious, UserHeap.requested_first]
  apply hinv.append hfresh
  · rw [hnew]
    exact hsize
  · rw [hnew]
    exact Or.inl ⟨rfl, Or.inl rfl⟩
  · rw [hblocks]
    exact fun a ha => absurd ha List.not_mem_nil
  · rw [hblocks]
    refine ⟨pointer_of_ne hfresh.ne_zero, ?_⟩
    rw [Chain.nil_iff, nextOf, hnew]
    rfl
  · rw [hblocks]
    refine ⟨rfl, ?_⟩
    rw [List.reverse_nil, Chain.nil_iff, previousOf, hnew]
    rfl

/-- A block behind the last one. -/
theorem HeapInv.behind (hinv : HeapInv h) (hlast : h.blocks.getLast? = some last)
    (hfresh : FreshRegion h new pages) (hsize : 32 + (size.toNat : Int) < 4096 * pages) :
    HeapInv ⟨UserHeap.requested h.mem new last size, h.headNode, h.regions ++ [(new, pages)]⟩ := by
  obtain ⟨l, hl⟩ := List.getLast?_eq_some_iff.1 hlast
  have hmem : last ∈ h.blocks := List.mem_of_getLast? hlast
  have hzero : last ≠ 0 := hinv.ne_zero hmem
  have hnew := UserHeap.requested_new h.mem new size hzero
  have hend := hfresh.header_end (by omega)
  have hlastend := hinv.header_end hmem
  have hlast' := UserHeap.requested_last h.mem size hzero hlastend (Or.inl hend)
    (hfresh.header_apart hinv (by omega) hmem)
  have hold : ∀ a ∈ l, metaBlock (UserHeap.requested h.mem new last size) a =
      metaBlock h.mem a := by
    intro a ha
    have hamem : a ∈ h.blocks := hl ▸ List.mem_append_left _ ha
    have hne : a ≠ last := by
      rintro rfl
      have hnodup := hinv.next.nodup
      rw [hl] at hnodup
      exact (List.disjoint_of_nodup_append hnodup) ha (List.mem_singleton.2 rfl)
    have hnewapart := hfresh.header_apart hinv (by omega) hamem
    have hlastapart := hinv.block_apart hamem hmem hne
    apply metaBlock_congr (hinv.header_end hamem)
    intro x hlo hhi
    exact UserHeap.requested_of_not_mem h.mem hend (by omega) fun _ => ⟨hlastend, by omega⟩
  have hcases : ∀ a ∈ h.blocks, a ∈ l ∨ a = last := by
    rw [hl]
    simp
  apply hinv.append hfresh
  · rw [hnew]
    exact hsize
  · rw [hnew]
    exact Or.inl ⟨rfl, Or.inl rfl⟩
  · intro a ha
    have hsound := hinv.sound a ha
    cases hcases a ha with
    | inl ha => exact ⟨by rw [hold a ha], by rwa [hold a ha]⟩
    | inr ha =>
      subst ha
      rw [hlast']
      generalize metaBlock h.mem a = b at hsound ⊢
      exact ⟨rfl, hsound⟩
  · have hnext := hinv.next
    rw [hl] at hnext ⊢
    apply hnext.snoc
    · rw [nextOf, hlast']
      exact pointer_of_ne hfresh.ne_zero
    · rw [nextOf, hnew]
      rfl
    · intro a ha
      rw [nextOf, hold a ha]
      rfl
  · have hprevious := hinv.previous
    rw [hlast] at hprevious
    refine ⟨rfl, ?_⟩
    rw [previousOf, hnew, pointer_of_ne hzero]
    apply hprevious.congr
    intro a ha
    unfold previousOf
    cases hcases a (List.mem_reverse.1 ha) with
    | inl ha => rw [hold a ha]
    | inr ha =>
      subst ha
      rw [hlast']

/-- There are no more blocks than addresses. -/
theorem chain_length_le {next : UInt64 → Option UInt64} {first : Option UInt64} {l : List UInt64}
    (hchain : Chain next first l) : l.length ≤ 2 ^ 64 := by
  have hnodup : (l.map UInt64.toNat).Nodup := hchain.nodup.map fun a b => UInt64.toNat_inj.1
  have hsub : l.map UInt64.toNat ⊆ List.range (2 ^ 64) := by
    intro n hn
    obtain ⟨a, -, rfl⟩ := List.mem_map.1 hn
    exact List.mem_range.2 a.toNat_lt
  have hle := (hnodup.subperm hsub).length_le
  rwa [List.length_map, List.length_range] at hle

theorem HeapInv.length_le (hinv : HeapInv h) : h.blocks.length ≤ 2 ^ 64 :=
  chain_length_le hinv.next

theorem HeapInv.findFreedBlock (hinv : HeapInv h) (last size : UInt64) :
    ∃ last', h.findFreedBlock last size =
        .ok ((h.blocks.find? (UserHeap.Reusable h.mem size)).getD 0, last') ∧
      (h.blocks.find? (UserHeap.Reusable h.mem size) = none →
        last' = h.blocks.getLast?.getD last) :=
  UserHeap.findFreedLoop_eq hinv.next (Nat.lt_succ_of_le hinv.length_le)

/-! ## The calls -/

/-- What a call of `malloc` does: it takes the first block that can be reused, and requests one
behind the last block when there is none. -/
structure Mallocs (h : UserHeap) (new size : UInt64) (p : UInt64) (h' : UserHeap) : Prop where
  block : ∃ b ∈ h'.blocks, p = b + headerSize ∧ (metaBlock h'.mem b).status = alloc ∧
    size ≤ (metaBlock h'.mem b).size ∧ (b ∈ h.blocks → (metaBlock h.mem b).status ≠ alloc)
  reuse : ∀ b, h.blocks.find? (UserHeap.Reusable h.mem size) = some b →
    p = b + headerSize ∧ h'.headNode = h.headNode ∧ h'.regions = h.regions ∧
      ∀ x, x < b.toNat + 24 ∨ b.toNat + 32 ≤ x → h'.mem x = h.mem x
  request : h.blocks.find? (UserHeap.Reusable h.mem size) = none →
    p = new + headerSize ∧ new ∉ h.blocks ∧
      h'.regions = h.regions ++ [(new, noOfPages (headerSize + size))]

/-- A write to the last two fields of one header. -/
theorem HeapInv.of_fields (hinv : HeapInv h) (hb : b ∈ h.blocks)
    (hframe : ∀ x, x < b.toNat + 24 ∨ b.toNat + 32 ≤ x → m' x = h.mem x)
    (hlinks : (metaBlock m' b).next = (metaBlock h.mem b).next ∧
      (metaBlock m' b).previous = (metaBlock h.mem b).previous ∧
      (metaBlock m' b).size = (metaBlock h.mem b).size)
    (hsound : (metaBlock m' b).Sound) : HeapInv { h with mem := m' } := by
  have hother : ∀ a ∈ h.blocks, a ≠ b → metaBlock m' a = metaBlock h.mem a := by
    intro a ha hne
    have hapart := hinv.block_apart ha hb hne
    exact metaBlock_congr (hinv.header_end ha) fun x hlo hhi => hframe x (by omega)
  apply hinv.of_links
  · intro a ha
    by_cases hab : a = b
    · subst hab
      exact hlinks
    · rw [hother a ha hab]
      exact ⟨rfl, rfl, rfl⟩
  · intro a ha
    by_cases hab : a = b
    · subst hab
      exact hsound
    · rw [hother a ha hab]
      exact hinv.sound a ha

/-- A block that is free and large enough is taken. -/
theorem HeapInv.reuse (hinv : HeapInv h)
    (hfind : h.blocks.find? (UserHeap.Reusable h.mem size) = some b) :
    HeapInv { h with mem := setStatus (setMagicCode h.mem b magicReall) b alloc } ∧
      Mallocs h new size (b + headerSize)
        { h with mem := setStatus (setMagicCode h.mem b magicReall) b alloc } := by
  have hmem : b ∈ h.blocks := List.mem_of_find?_eq_some hfind
  have hreuse : UserHeap.Reusable h.mem size b := by
    have hdecide := List.find?_some hfind
    exact of_decide_eq_true hdecide
  obtain ⟨hstatus, hsize⟩ := hreuse
  have hb : metaBlock (setStatus (setMagicCode h.mem b magicReall) b alloc) b =
      { metaBlock h.mem b with status := alloc, magicCode := magicReall } := by
    rw [metaBlock_setStatus, metaBlock_setMagicCode]
  have hframe : ∀ x, x < b.toNat + 24 ∨ b.toNat + 32 ≤ x →
      setStatus (setMagicCode h.mem b magicReall) b alloc x = h.mem x :=
    fun x hx => (lastFields_of_not_mem (hinv.header_end hmem) h.mem alloc magicReall hx).1
  refine ⟨hinv.of_fields hmem hframe ?_ ?_, ?_, ?_, ?_⟩
  · rw [hb]
    exact ⟨rfl, rfl, rfl⟩
  · rw [hb]
    exact Or.inl ⟨rfl, Or.inr rfl⟩
  · refine ⟨b, hmem, rfl, ?_, ?_, fun _ => ?_⟩
    · rw [hb]
    · rw [hb]
      exact hsize
    · rw [hstatus]
      decide
  · intro b' hfind'
    obtain rfl := Option.some.inj (hfind.symm.trans hfind')
    exact ⟨rfl, rfl, rfl, hframe⟩
  · intro hnone
    rw [hfind] at hnone
    cases hnone

/-- A request that no block serves. -/
theorem Mallocs.of_request {m' : Mem} {head : UInt64}
    (hfind : h.blocks.find? (UserHeap.Reusable h.mem size) = none) (hnew : new ∉ h.blocks)
    (hstatus : (metaBlock m' new).status = alloc) (hsize : (metaBlock m' new).size = size) :
    Mallocs h new size (new + headerSize)
      ⟨m', head, h.regions ++ [(new, noOfPages (headerSize + size))]⟩ := by
  refine ⟨⟨new, ?_, rfl, hstatus, ?_, fun hmem => absurd hmem hnew⟩, ?_, fun _ => ⟨rfl, hnew, rfl⟩⟩
  · exact mem_blocks.2 ⟨_, List.mem_append_right _ (List.mem_singleton.2 rfl)⟩
  · rw [hsize]
    exact UInt64.le_refl size
  · intro b hb
    rw [hfind] at hb
    cases hb

/-- The kernel gives memory when it is asked for it. -/
def Supplies (h : UserHeap) (new size : UInt64) : Prop :=
  (∀ a ∈ h.blocks, ¬ UserHeap.Reusable h.mem size a) →
    FreshRegion h new (noOfPages (headerSize + size))

/-- `malloc` comes to its end, keeps the invariant and returns a block. -/
theorem HeapInv.malloc (hinv : HeapInv h) (hpos : 0 < size) (hsize : size < 2 ^ 31)
    (hbrk : Supplies h new size) :
    ∃ p h', h.malloc new size = .ok (p, h') ∧ HeapInv h' ∧ Mallocs h new size p h' := by
  have hfits : 32 + (size.toNat : Int) < 4096 * noOfPages (headerSize + size) := by
    rw [noOfPages_eq hsize]
    omega
  unfold UserHeap.malloc
  rw [if_neg (UInt64.not_le.2 hpos)]
  by_cases hhead : h.headNode = 0
  · have hblocks : h.blocks = [] := by
      have hchain := hinv.next
      rw [pointer_eq_none.2 hhead] at hchain
      exact hchain.of_none
    have hfresh : FreshRegion h new (noOfPages (headerSize + size)) := by
      apply hbrk
      rw [hblocks]
      exact fun a ha => absurd ha List.not_mem_nil
    have hnew : new ∉ h.blocks := hfresh.not_mem hinv (by omega)
    rw [if_pos hhead, UserHeap.blockRequest_eq h hfresh.ne_zero, ok_bind]
    dsimp only
    rw [if_neg hfresh.ne_zero]
    refine ⟨_, _, rfl, hinv.first hblocks hfresh hfits, Mallocs.of_request ?_ hnew ?_ ?_⟩
    · rw [hblocks]
      rfl
    · rw [metaBlock_setPrevious, UserHeap.requested_first]
    · rw [metaBlock_setPrevious, UserHeap.requested_first]
  · obtain ⟨last, hsearch, hlast⟩ := hinv.findFreedBlock h.headNode size
    rw [if_neg hhead, hsearch, ok_bind]
    dsimp only
    cases hfind : h.blocks.find? (UserHeap.Reusable h.mem size) with
    | some b =>
      have hb : b ≠ 0 := hinv.ne_zero (List.mem_of_find?_eq_some hfind)
      rw [Option.getD_some, if_neg hb]
      exact ⟨_, _, rfl, hinv.reuse hfind⟩
    | none =>
      have hfresh : FreshRegion h new (noOfPages (headerSize + size)) := by
        apply hbrk
        intro a ha hreuse
        exact List.find?_eq_none.1 hfind a ha (decide_eq_true hreuse)
      have hne : h.blocks ≠ [] := by
        intro hblocks
        have hchain := hinv.next
        rw [hblocks, Chain.nil_iff] at hchain
        exact hhead (pointer_eq_none.1 hchain)
      have hlast' : h.blocks.getLast? = some last := by
        rw [hlast hfind, List.getLast?_eq_some_getLast hne]
        rfl
      have hzero : last ≠ 0 := hinv.ne_zero (List.mem_of_getLast? hlast')
      rw [Option.getD_none, if_pos rfl, UserHeap.blockRequest_eq h hfresh.ne_zero, ok_bind]
      dsimp only
      rw [if_neg hfresh.ne_zero]
      refine ⟨_, _, rfl, hinv.behind hlast' hfresh hfits,
        Mallocs.of_request hfind (hfresh.not_mem hinv (by omega)) ?_ ?_⟩
      · rw [UserHeap.requested_new h.mem new size hzero]
      · rw [UserHeap.requested_new h.mem new size hzero]

theorem HeapInv.payload_pos (hinv : HeapInv h) (hb : b ∈ h.blocks) :
    b + headerSize ≠ 0 ∧ UserHeap.blockHeader (b + headerSize) = b := by
  obtain ⟨pages, hr⟩ := mem_blocks.1 hb
  have hsize := hinv.size _ hr
  have hspace := (hinv.space _ hr).2
  dsimp only at hsize hspace
  have hadd : (b + headerSize).toNat = b.toNat + 32 := by
    rw [UInt64.toNat_add]
    exact Nat.mod_eq_of_lt (by change b.toNat + 32 < 2 ^ 64; omega)
  refine ⟨fun hzero => ?_, ?_⟩
  · rw [hzero] at hadd
    change 0 = b.toNat + 32 at hadd
    omega
  · unfold UserHeap.blockHeader
    exact UInt64.add_sub_cancel b headerSize

/-- A second `free` of a block leaves the heap as it is. -/
theorem HeapInv.free_freed (hinv : HeapInv h) (hb : b ∈ h.blocks)
    (hstatus : (metaBlock h.mem b).status = freed) :
    h.free (b + headerSize) = (h, some ("\n double free", [])) := by
  obtain ⟨hpos, hheader⟩ := hinv.payload_pos hb
  unfold UserHeap.free
  rw [if_neg hpos]
  dsimp only
  rw [hheader, if_pos hstatus]

/-- `free` of a block in use writes the last two fields of its header and prints nothing. -/
theorem HeapInv.free_alloc (hinv : HeapInv h) (hb : b ∈ h.blocks)
    (hstatus : (metaBlock h.mem b).status = alloc) :
    ∃ m', h.free (b + headerSize) = ({ h with mem := m' }, none) ∧ HeapInv { h with mem := m' } ∧
      metaBlock m' b = { metaBlock h.mem b with status := freed, magicCode := magicFreed } ∧
      ∀ x, x < b.toNat + 24 ∨ b.toNat + 32 ≤ x → m' x = h.mem x := by
  obtain ⟨hpos, hheader⟩ := hinv.payload_pos hb
  have hmagic : (metaBlock h.mem b).magicCode = magicAlloc ∨
      (metaBlock h.mem b).magicCode = magicReall := by
    cases hinv.sound b hb with
    | inl h => exact h.2
    | inr h => exact absurd (hstatus.symm.trans h.1) (by decide)
  have hnot : (metaBlock h.mem b).status ≠ freed := by
    rw [hstatus]
    decide
  have hframe : ∀ x, x < b.toNat + 24 ∨ b.toNat + 32 ≤ x →
      setMagicCode (setStatus h.mem b freed) b magicFreed x = h.mem x :=
    fun x hx => (lastFields_of_not_mem (hinv.header_end hb) h.mem freed magicFreed hx).2
  have hblock : metaBlock (setMagicCode (setStatus h.mem b freed) b magicFreed) b =
      { metaBlock h.mem b with status := freed, magicCode := magicFreed } := by
    rw [metaBlock_setMagicCode, metaBlock_setStatus]
  refine ⟨setMagicCode (setStatus h.mem b freed) b magicFreed, ?_, hinv.of_fields hb hframe ?_ ?_,
    hblock, hframe⟩
  · unfold UserHeap.free
    rw [if_neg hpos]
    dsimp only
    rw [hheader, if_neg hnot, metaBlock_setStatus, if_pos hmagic]
  · rw [hblock]
    exact ⟨rfl, rfl, rfl⟩
  · rw [hblock]
    exact Or.inr ⟨rfl, rfl⟩

end

/-! ## Runs -/

/-- A program with its heap, and the pointers that `malloc` has returned to it. -/
structure HeapUser where
  heap : UserHeap
  returned : List UInt64

inductive HeapOp
  | malloc (new size : UInt64)
  | free (p : UInt64)
  | store (x : Nat) (c : UInt8)

def heapStep (s : HeapUser) : HeapOp → Option HeapUser
  | .malloc new size => (s.heap.malloc new size).toOption.map fun r => ⟨r.2, r.1 :: s.returned⟩
  | .free p => some ⟨(s.heap.free p).1, s.returned⟩
  | .store x c => some ⟨{ s.heap with mem := write8 s.heap.mem x c }, s.returned⟩

def InPayload (h : UserHeap) (b : UInt64) (x : Nat) : Prop :=
  b.toNat + 32 ≤ x ∧ x < b.toNat + 32 + (metaBlock h.mem b).size.toNat

/-- The program frees what it was given, and writes to the payloads of blocks only. -/
def HeapOk (s : HeapUser) : HeapOp → Prop
  | .malloc new size => 0 < size ∧ size < 2 ^ 31 ∧ Supplies s.heap new size
  | .free p => p ∈ s.returned
  | .store x _ => ∃ b ∈ s.heap.blocks, InPayload s.heap b x

structure HeapUserInv (s : HeapUser) : Prop where
  heap : HeapInv s.heap
  returned : ∀ p ∈ s.returned, ∃ b ∈ s.heap.blocks, p = b + headerSize

section

variable {s : HeapUser} {h h' : UserHeap} {new size p : UInt64}

/-- A call of `malloc` takes no block off the list. -/
theorem Mallocs.blocks_subset (hcall : Mallocs h new size p h') : h.blocks ⊆ h'.blocks := by
  intro a ha
  obtain ⟨pages, hr⟩ := mem_blocks.1 ha
  apply mem_blocks.2
  refine ⟨pages, ?_⟩
  cases hfind : h.blocks.find? (UserHeap.Reusable h.mem size) with
  | some b =>
    rw [(hcall.reuse b hfind).2.2.1]
    exact hr
  | none =>
    rw [(hcall.request hfind).2.2]
    exact List.mem_append_left _ hr

/-- A byte of a payload lies in no header. -/
theorem HeapInv.store {x : Nat} {b : UInt64} (hinv : HeapInv h) (hb : b ∈ h.blocks)
    (hx : InPayload h b x) (c : UInt8) : HeapInv { h with mem := write8 h.mem x c } := by
  have hsame : ∀ a ∈ h.blocks, metaBlock (write8 h.mem x c) a = metaBlock h.mem a := by
    intro a ha
    apply metaBlock_congr (hinv.header_end ha)
    intro y hlo hhi
    apply Function.update_of_ne
    rintro rfl
    obtain ⟨hx₁, hx₂⟩ := hx
    by_cases hab : a = b
    · subst hab
      omega
    · have hapart := hinv.block_apart ha hb hab
      omega
  apply hinv.of_links
  · intro a ha
    rw [hsame a ha]
    exact ⟨rfl, rfl, rfl⟩
  · intro a ha
    rw [hsame a ha]
    exact hinv.sound a ha

theorem HeapUserInv.step {op : HeapOp} (hinv : HeapUserInv s) (hok : HeapOk s op) :
    ∃ s', heapStep s op = some s' ∧ HeapUserInv s' := by
  cases op with
  | malloc new size =>
    obtain ⟨hpos, hsize, hbrk⟩ := hok
    obtain ⟨p, h', hmalloc, hheap, hcall⟩ := hinv.heap.malloc hpos hsize hbrk
    refine ⟨⟨h', p :: s.returned⟩, by rw [heapStep, hmalloc]; rfl, hheap, ?_⟩
    intro q hq
    cases List.mem_cons.1 hq with
    | inl hq =>
      subst hq
      obtain ⟨b, hb, heq, -⟩ := hcall.block
      exact ⟨b, hb, heq⟩
    | inr hq =>
      obtain ⟨b, hb, heq⟩ := hinv.returned q hq
      exact ⟨b, hcall.blocks_subset hb, heq⟩
  | free p =>
    refine ⟨_, rfl, ?_⟩
    obtain ⟨b, hb, rfl⟩ := hinv.returned p hok
    cases hinv.heap.sound b hb with
    | inl halloc =>
      obtain ⟨m', hfree, hheap, -⟩ := hinv.heap.free_alloc hb halloc.1
      rw [hfree]
      exact ⟨hheap, hinv.returned⟩
    | inr hfreed =>
      rw [hinv.heap.free_freed hb hfreed.1]
      exact hinv
  | store x c =>
    obtain ⟨b, hb, hx⟩ := hok
    exact ⟨_, rfl, hinv.heap.store hb hx c, hinv.returned⟩

/-- The pointer that `malloc` returns is the last one of the program. -/
theorem heapStep_malloc {s' : HeapUser} (hstep : heapStep s (.malloc new size) = some s') :
    ∃ p h', s' = ⟨h', p :: s.returned⟩ := by
  rw [heapStep] at hstep
  obtain ⟨r, -, rfl⟩ := Option.map_eq_some_iff.1 hstep
  exact ⟨r.1, r.2, rfl⟩

/-- The heap, and what the next call does with it. -/
structure HeapSpec (s : HeapUser) : Prop where
  list : Chain (nextOf s.heap.mem) (pointer s.heap.headNode) s.heap.blocks ∧ s.heap.blocks.Nodup
  previous : ∀ a ∈ s.heap.blocks, ∀ b ∈ s.heap.blocks,
    (metaBlock s.heap.mem a).next = b ↔ (metaBlock s.heap.mem b).previous = a
  payloads : ∀ a ∈ s.heap.blocks, ∀ b ∈ s.heap.blocks, a ≠ b →
    ∀ x, ¬ (InPayload s.heap a x ∧ InPayload s.heap b x)
  malloc : ∀ new size, HeapOk s (.malloc new size) →
    ∃ p h', s.heap.malloc new size = .ok (p, h') ∧ Mallocs s.heap new size p h'
  free : ∀ p, HeapOk s (.free p) → ∃ b ∈ s.heap.blocks, p = b + headerSize ∧
    ((metaBlock s.heap.mem b).status = alloc ∧
        (∃ m', s.heap.free p = ({ s.heap with mem := m' }, none) ∧
          metaBlock m' b =
            { metaBlock s.heap.mem b with status := freed, magicCode := magicFreed } ∧
          ∀ x, x < b.toNat + 24 ∨ b.toNat + 32 ≤ x → m' x = s.heap.mem x) ∨
      (metaBlock s.heap.mem b).status = freed ∧ (s.heap.free p).1 = s.heap)

theorem HeapUserInv.spec (hinv : HeapUserInv s) : HeapSpec s where
  list := ⟨hinv.heap.next, hinv.heap.next.nodup⟩
  previous := by
    intro a ha b hb
    have hiff := hinv.heap.next.next_iff_prev hinv.heap.previous ha hb
    have ha₀ := hinv.heap.ne_zero ha
    have hb₀ := hinv.heap.ne_zero hb
    constructor
    · intro hab
      have hnext : nextOf s.heap.mem a = some b := by rw [nextOf, hab, pointer_of_ne hb₀]
      exact (pointer_eq_some (hiff.1 hnext)).1
    · intro hba
      have hprevious : previousOf s.heap.mem b = some a := by
        rw [previousOf, hba, pointer_of_ne ha₀]
      exact (pointer_eq_some (hiff.2 hprevious)).1
  payloads := by
    intro a ha b hb hab x hx
    obtain ⟨⟨h₁, h₂⟩, h₃, h₄⟩ := hx
    have hapart := hinv.heap.block_apart ha hb hab
    omega
  malloc := by
    intro new size hok
    obtain ⟨p, h', hmalloc, -, hcall⟩ := hinv.heap.malloc hok.1 hok.2.1 hok.2.2
    exact ⟨p, h', hmalloc, hcall⟩
  free := by
    intro p hok
    obtain ⟨b, hb, rfl⟩ := hinv.returned p hok
    refine ⟨b, hb, rfl, ?_⟩
    cases hinv.heap.sound b hb with
    | inl halloc =>
      obtain ⟨m', hfree, -, hblock, hframe⟩ := hinv.heap.free_alloc hb halloc.1
      exact Or.inl ⟨halloc.1, m', hfree, hblock, hframe⟩
    | inr hfreed =>
      refine Or.inr ⟨hfreed.1, ?_⟩
      rw [hinv.heap.free_freed hb hfreed.1]

/-- **User heap.** Along every sequence of calls no call fails, and after it the list holds every
block requested, once and in the order of the requests; the payloads are disjoint; the next `malloc`
takes the first block that can be reused or requests one, and the next `free` makes the block a
freed one and writes nothing else or, the second time, nothing at all. -/
theorem user_heap (m : Mem) (ops : List HeapOp)
    (h : Along heapStep HeapOk ⟨⟨m, 0, []⟩, []⟩ ops) :
    ∃ s, Run heapStep HeapOk ⟨⟨m, 0, []⟩, []⟩ ops s ∧ HeapSpec s := by
  have hboot : HeapUserInv ⟨⟨m, 0, []⟩, []⟩ := by
    refine ⟨⟨rfl, rfl, ?_, List.Pairwise.nil, ?_, ?_⟩, ?_⟩
    · exact fun r hr => absurd hr List.not_mem_nil
    · exact fun r hr => absurd hr List.not_mem_nil
    · exact fun a ha => absurd ha List.not_mem_nil
    · exact fun p hp => absurd hp List.not_mem_nil
  obtain ⟨s, hrun, hinv⟩ := Along.simulation (A := Unit) (f := fun a _ => a)
    (R := fun s _ => HeapUserInv s) (fun hinv hok => hinv.step hok) h (a := ()) hboot
  exact ⟨s, hrun, hinv.spec⟩

/-- Two blocks, and the first one freed twice. -/
theorem user_heap_two_blocks :
    ∃ s, Run heapStep HeapOk ⟨⟨fun _ => 0, 0, []⟩, []⟩
      [.malloc 4096 16, .malloc 8192 100, .free 4128, .free 4128] s ∧ HeapSpec s := by
  apply user_heap
  refine ⟨⟨by decide, by decide, fun _ => ⟨by decide, by decide, ?_⟩⟩, fun s₁ h₁ => ?_⟩
  · exact fun r hr => absurd hr List.not_mem_nil
  obtain rfl := Option.some.inj h₁
  refine ⟨⟨by decide, by decide, fun _ => ⟨by decide, by decide, ?_⟩⟩, fun s₂ h₂ => ?_⟩
  · intro r hr
    obtain rfl := List.mem_singleton.1 hr
    exact Or.inl (by decide)
  obtain ⟨p, h, rfl⟩ := heapStep_malloc h₂
  refine ⟨List.mem_cons_of_mem _ (List.mem_singleton.2 rfl), fun s₃ h₃ => ?_⟩
  obtain rfl := Option.some.inj h₃
  exact ⟨List.mem_cons_of_mem _ (List.mem_singleton.2 rfl), fun _ _ => trivial⟩

end

end Sbunix
