import Sbunix.ElfLoad
import Sbunix.Lib.Chain

/-!
# The list of VMAs

A `vma_struct` describes a region of a process, and `task->vma` is the list of them. `elf_load`
makes the list for a program, and `copyParentToChild` copies it for a fork.

The objects lie in a heap of their own here, and a `vma_struct *` is the number of its object.
`kmalloc` hands out the next number: objects are never freed.

* `copyParentVmas_spec` follows the loop of `copyParentToChild`. It sets `child->vma` to a copy of
  the first object and links no copy to another one, so the child goes on in the list of its parent.
* `elfLoadVmas_spec` follows `elf_load`. It sets `task->vma` once for each segment and links the
  last one only. `addVMA` is asked for the types of the heap and of the stack and drops them.
-/

namespace Sbunix

open Lib

/-! ## Objects -/

/-- `enum vma_types`. -/
inductive VmaType where
  | text | data | stack | heap | notype
deriving DecidableEq

/-- `struct vm_area_struct`. -/
structure VmArea where
  start : UInt64
  «end» : UInt64
  next : Option Nat
  flags : Nat
  type : VmaType
  vmMemsz : UInt64
  vmOffset : UInt64
  vmFile : UInt64

/-- The objects, and the number of those that `kmalloc` has handed out. -/
structure VmaHeap where
  node : Nat → VmArea
  brk : Nat

namespace VmaHeap

def next (h : VmaHeap) (i : Nat) : Option Nat := (h.node i).next

/-- `kmalloc`, which leaves what is in the object. -/
def kmalloc (h : VmaHeap) : Nat × VmaHeap := (h.brk, { h with brk := h.brk + 1 })

/-- Write an object. -/
def set (h : VmaHeap) (i : Nat) (v : VmArea) : VmaHeap :=
  { h with node := Function.update h.node i v }

/-- `addVMA`, which takes the type from the flags. -/
def addVMA (h : VmaHeap) (start stop : UInt64) (flags : Nat) (_type : VmaType) : Nat × VmaHeap :=
  let (vma, h) := h.kmalloc
  let type := if flags = permR ||| permX then VmaType.text else VmaType.data
  let v := h.node vma
  (vma, h.set vma ⟨start, stop, none, flags, type, v.vmMemsz, v.vmOffset, v.vmFile⟩)

@[simp] theorem set_node_self (h : VmaHeap) (i : Nat) (v : VmArea) : (h.set i v).node i = v :=
  Function.update_self ..

theorem set_node_of_ne (h : VmaHeap) {i j : Nat} (v : VmArea) (hne : j ≠ i) :
    (h.set i v).node j = h.node j := Function.update_of_ne hne ..

end VmaHeap

/-! ## Fork -/

/-- The loop of `copyParentToChild` that copies the VMAs, with `child->vma` as `vma`. -/
def copyVmas : Nat → VmaHeap → Option Nat → Option Nat → Bool → Option Nat →
    Except Fault (VmaHeap × Option Nat)
  | 0, _, _, _, _, _ => .error .diverges
  | fuel + 1, h, parentVma, childVma, first, vma =>
    match parentVma with
    | none => .ok (h, vma)
    | some parentVma =>
      let first := if childVma = none then true else first
      let (childVma, h) := h.kmalloc
      let h := h.set childVma (h.node parentVma)
      let (vma, first) := if first then (some childVma, false) else (vma, first)
      let childVma := if h.next childVma ≠ none then h.next childVma else some childVma
      copyVmas fuel h (h.next parentVma) childVma first vma

/-- The VMAs in `copyParentToChild`. The `Task` that `kmalloc` hands out for the child has `junk` in
its field `vma`. -/
def copyParentVmas (fuel : Nat) (h : VmaHeap) (parentVma junk : Option Nat) :
    Except Fault (VmaHeap × Option Nat) :=
  copyVmas fuel h parentVma none false junk

/-- What a process sees of a VMA. -/
def VmArea.region (v : VmArea) : UInt64 × UInt64 × Nat × VmaType :=
  (v.start, v.end, v.flags, v.type)

/-- The list `l` of the parent is copied, in a turn for each object: the child gets a list of the
same regions, in objects that `kmalloc` has handed out since. -/
def VmasCopied (h : VmaHeap) (parentVma junk : Option Nat) (l : List Nat) : Prop :=
  ∃ h' vma l', copyParentVmas (l.length + 1) h parentVma junk = .ok (h', vma) ∧
    Chain h'.next vma l' ∧
    l'.map (fun i => (h'.node i).region) = l.map (fun i => (h.node i).region) ∧
    ∀ i ∈ l', h.brk ≤ i ∧ i < h'.brk

/-- The heap after a copy of the object `p`. -/
def VmaHeap.copy (h : VmaHeap) (p : Nat) : VmaHeap := h.kmalloc.2.set h.brk (h.node p)

section

variable {h : VmaHeap} {parentVma childVma junk vma : Option Nat} {l : List Nat} {p : Nat}

theorem copy_node_self (h : VmaHeap) (p : Nat) : (h.copy p).node h.brk = h.node p :=
  Function.update_self ..

theorem copy_node_of_lt (p : Nat) {i : Nat} (hi : i < h.brk) : (h.copy p).node i = h.node i :=
  Function.update_of_ne hi.ne ..

@[simp] theorem copy_brk (h : VmaHeap) (p : Nat) : (h.copy p).brk = h.brk + 1 := rfl

theorem copy_chain (hold : ∀ i ∈ l, i < h.brk) (p : Nat) :
    Chain (h.copy p).next parentVma l ↔ Chain h.next parentVma l := by
  have heq : ∀ i ∈ l, (h.copy p).next i = h.next i := by
    intro i hi
    rw [VmaHeap.next, VmaHeap.next, copy_node_of_lt p (hold i hi)]
  exact ⟨fun hchain => hchain.congr fun i hi => (heq i hi).symm, fun hchain => hchain.congr heq⟩

/-- A turn of the loop at the object `p`. -/
theorem copyVmas_turn (hp : p < h.brk) (fuel : Nat) (childVma : Option Nat) (first : Bool)
    (vma : Option Nat) :
    ∃ next ≠ none, copyVmas (fuel + 1) h (some p) childVma first vma =
      copyVmas fuel (h.copy p) (h.next p) next false
        (if childVma = none ∨ first = true then some h.brk else vma) := by
  have hnext : (h.copy p).next p = h.next p := by
    rw [VmaHeap.next, VmaHeap.next, copy_node_of_lt p hp]
  refine ⟨if (h.copy p).next h.brk ≠ none then (h.copy p).next h.brk else some h.brk, ?_, ?_⟩
  · split_ifs with hlinked
    · exact hlinked
    · exact Option.some_ne_none _
  · rw [← hnext]
    cases childVma with
    | none => cases first <;> rfl
    | some c => cases first <;> rfl

/-- The turns after the first one leave `child->vma` and the objects that were there. -/
theorem copyVmas_rest (hchain : Chain h.next parentVma l) (hold : ∀ i ∈ l, i < h.brk)
    (hchild : childVma ≠ none) {fuel : Nat} (hfuel : l.length < fuel) (vma : Option Nat) :
    ∃ h', copyVmas fuel h parentVma childVma false vma = .ok (h', vma) ∧ h.brk ≤ h'.brk ∧
      ∀ i < h.brk, h'.node i = h.node i := by
  induction l generalizing h parentVma childVma fuel with
  | nil =>
    obtain ⟨fuel, rfl⟩ : ∃ n, fuel = n + 1 := ⟨fuel - 1, by simp at hfuel; omega⟩
    obtain rfl : parentVma = none := hchain
    exact ⟨h, rfl, le_rfl, fun _ _ => rfl⟩
  | cons p l ih =>
    obtain ⟨fuel, rfl⟩ : ∃ n, fuel = n + 1 := ⟨fuel - 1, by simp at hfuel; omega⟩
    obtain ⟨rfl, hchain⟩ := hchain
    have hp : p < h.brk := hold p List.mem_cons_self
    have hrest : ∀ i ∈ l, i < h.brk := fun i hi => hold i (List.mem_cons_of_mem _ hi)
    obtain ⟨next, hne, hturn⟩ := copyVmas_turn hp fuel childVma false vma
    obtain ⟨h', hrun, hbrk, hnode⟩ := ih ((copy_chain hrest p).2 hchain)
      (fun i hi => (hrest i hi).trans (Nat.lt_succ_self _)) hne (by simpa using hfuel)
    rw [copy_brk] at hbrk hnode
    refine ⟨h', ?_, by omega, fun i hi => ?_⟩
    · rw [hturn, if_neg (by simp [hchild]), hrun]
    · rw [hnode i (by omega), copy_node_of_lt p hi]

/-- **The copied list.** The child gets a copy of the first object and then the objects of its
parent. -/
theorem copyParentVmas_spec (hchain : Chain h.next parentVma (p :: l))
    (hold : ∀ i ∈ p :: l, i < h.brk) {fuel : Nat} (hfuel : l.length + 1 < fuel)
    (junk : Option Nat) :
    ∃ h', copyParentVmas fuel h parentVma junk = .ok (h', some h.brk) ∧
      Chain h'.next (some h.brk) (h.brk :: l) ∧ h.brk < h'.brk ∧
      h'.node h.brk = h.node p ∧ ∀ i < h.brk, h'.node i = h.node i := by
  obtain ⟨fuel, rfl⟩ : ∃ n, fuel = n + 1 := ⟨fuel - 1, by omega⟩
  obtain ⟨rfl, hchain⟩ := hchain
  have hp : p < h.brk := hold p List.mem_cons_self
  have hrest : ∀ i ∈ l, i < h.brk := fun i hi => hold i (List.mem_cons_of_mem _ hi)
  obtain ⟨next, hne, hturn⟩ := copyVmas_turn hp fuel none false junk
  obtain ⟨h', hrun, hbrk, hnode⟩ := copyVmas_rest ((copy_chain hrest p).2 hchain)
    (fun i hi => (hrest i hi).trans (Nat.lt_succ_self _)) hne (Nat.lt_of_succ_lt_succ hfuel)
    (some h.brk)
  rw [copy_brk] at hbrk hnode
  have hfirst : h'.node h.brk = h.node p := by
    rw [hnode _ (Nat.lt_succ_self _), copy_node_self]
  have hkept : ∀ i < h.brk, h'.node i = h.node i := by
    intro i hi
    rw [hnode i (by omega), copy_node_of_lt p hi]
  refine ⟨h', ?_, ⟨rfl, ?_⟩, by omega, hfirst, hkept⟩
  · rw [copyParentVmas, hturn, if_pos (Or.inl rfl), hrun]
  · rw [show h'.next h.brk = h.next p from congrArg VmArea.next hfirst]
    exact hchain.congr fun i hi => congrArg VmArea.next (hkept i (hrest i hi))

/-- **When the list is copied.** The child has a list of its own exactly when the parent has one
object, or none and the new `Task` happens to have `NULL` in its field. -/
theorem vmas_copied_iff (hchain : Chain h.next parentVma l) (hold : ∀ i ∈ l, i < h.brk) :
    VmasCopied h parentVma junk l ↔ l.length = 1 ∨ l = [] ∧ junk = none := by
  cases l with
  | nil =>
    obtain rfl : parentVma = none := hchain
    simp only [List.length_nil, zero_ne_one, false_or, true_and]
    constructor
    · rintro ⟨h', vma, l', hrun, hchain', hregions, -⟩
      obtain ⟨rfl, rfl⟩ := Prod.mk.inj (Except.ok.inj hrun)
      obtain rfl : l' = [] := List.map_eq_nil_iff.1 hregions
      exact hchain'
    · rintro rfl
      exact ⟨h, none, [], rfl, rfl, rfl, by simp⟩
  | cons p l =>
    simp only [List.length_cons, Nat.add_eq_right, List.length_eq_zero_iff, reduceCtorEq,
      false_and, or_false]
    obtain ⟨h', hrun, hchain', hbrk, hfirst, -⟩ :=
      copyParentVmas_spec hchain hold (Nat.lt_succ_self _) junk
    constructor
    · rintro ⟨h'', vma, l', hrun', hchain'', -, hnew⟩
      rw [List.length_cons, hrun, Except.ok.injEq, Prod.mk.injEq] at hrun'
      obtain ⟨rfl, rfl⟩ := hrun'
      rw [hchain''.unique hchain'] at hnew
      refine List.eq_nil_iff_forall_not_mem.2 fun i hi => ?_
      have hlow := (hnew i (List.mem_cons_of_mem _ hi)).1
      exact absurd (hold i (List.mem_cons_of_mem _ hi)) (by omega)
    · rintro rfl
      refine ⟨h', _, _, hrun, hchain', by simp [hfirst], fun i hi => ?_⟩
      rw [List.mem_singleton.1 hi]
      exact ⟨le_rfl, hbrk⟩

end

/-- The objects from the first one on are linked: `n` of them, of a page each. -/
def pageVmas (n : Nat) : VmaHeap where
  node i := ⟨UInt64.ofNat (i * 0x1000), UInt64.ofNat ((i + 1) * 0x1000),
    if i + 1 < n then some (i + 1) else none, permR ||| permW, .data, 0, 0, 0⟩
  brk := n

theorem chain_pageVmas_one : Chain (pageVmas 1).next (some 0) [0] := ⟨rfl, rfl⟩

theorem chain_pageVmas_two : Chain (pageVmas 2).next (some 0) [0, 1] := ⟨rfl, rfl, rfl⟩

/-- A list of one object. -/
theorem vmas_copied_one : Chain (pageVmas 1).next (some 0) [0] ∧
    (VmasCopied (pageVmas 1) (some 0) none [0] ↔
      [0].length = 1 ∨ [0] = ([] : List Nat) ∧ (none : Option Nat) = none) :=
  ⟨chain_pageVmas_one, vmas_copied_iff chain_pageVmas_one (by simp [pageVmas])⟩

/-- Of two objects the child gets one, and shares the other one with its parent. -/
theorem vmas_shared : ∃ h', copyParentVmas 3 (pageVmas 2) (some 0) none = .ok (h', some 2) ∧
    Chain h'.next (some 2) [2, 1] ∧ ¬ VmasCopied (pageVmas 2) (some 0) none [0, 1] := by
  obtain ⟨h', hrun, hchain, -⟩ := copyParentVmas_spec chain_pageVmas_two (by simp [pageVmas])
    (Nat.lt_succ_self _) none
  refine ⟨h', hrun, hchain, ?_⟩
  rintro ⟨h'', vma, l', hrun', hchain', -, hnew⟩
  obtain ⟨rfl, rfl⟩ := Prod.mk.inj (Except.ok.inj (hrun.symm.trans hrun'))
  rw [hchain'.unique hchain] at hnew
  have hlow : 2 ≤ 1 := (hnew 1 (by simp)).1
  exact absurd hlow (by decide)

/-! ## Exec -/

/-- The heap, the field `vma` of the task, and the variable `vma` of `elf_load`. -/
structure VmaLoad where
  heap : VmaHeap
  taskVma : Option Nat
  vma : Option Nat

/-- The turn of the loop over the program headers, without the pages of the segment. -/
def loadSegmentVma (s : VmaLoad) (ph : Phdr) : VmaLoad :=
  if ph.pType = ptLoad then
    let (vma, h) := s.heap.addVMA ph.pVaddr (ph.pVaddr + ph.pMemsz) ph.pFlags .notype
    ⟨h, some vma, some vma⟩
  else s

/-- `if (vma != NULL) vma->next = next`. -/
def VmaHeap.link (h : VmaHeap) (vma next : Option Nat) : VmaHeap :=
  vma.elim h fun i => h.set i { h.node i with next := next }

/-- The VMAs in `elf_load`: the heap after it, and `task->vma`. -/
def elfLoadVmas (image : Mem) (addr : UInt64) (taskVma : Option Nat) (h : VmaHeap) :
    VmaHeap × Option Nat :=
  if addr ≠ 0 then
    let s := (programHeaders image addr).foldl loadSegmentVma ⟨h, taskVma, none⟩
    let (vmaHeap, h) := s.heap.addVMA heapStart (heapStart + 0x1000) (permR ||| permW) .heap
    let h := h.link s.vma (some vmaHeap)
    let stackAddr := userStackTop - 0x1000
    let (vmaStack, h) := h.addVMA (stackAddr + 0x1000) stackAddr (permR ||| permW) .stack
    (h.link (some vmaHeap) (some vmaStack), s.taskVma)
  else (h, taskVma)

/-- The `PT_LOAD` headers of a file. -/
def loadHeaders (image : Mem) (addr : UInt64) : List Phdr :=
  (programHeaders image addr).filter fun ph => ph.pType = ptLoad

/-- After a load the list has an entry for each segment in turn, then one for the heap and one for
the stack, and every entry is an interval. -/
def VmasLoaded (image : Mem) (addr : UInt64) (taskVma : Option Nat) (h : VmaHeap) : Prop :=
  let (h', vma) := elfLoadVmas image addr taskVma h
  ∃ segs vmaHeap vmaStack, Chain h'.next vma (segs ++ [vmaHeap, vmaStack]) ∧
    segs.map (fun i => ((h'.node i).start, (h'.node i).end, (h'.node i).flags)) =
      (loadHeaders image addr).map (fun ph => (ph.pVaddr, ph.pVaddr + ph.pMemsz, ph.pFlags)) ∧
    (h'.node vmaHeap).type = .heap ∧ (h'.node vmaStack).type = .stack ∧
    ∀ i ∈ segs ++ [vmaHeap, vmaStack], (h'.node i).start ≤ (h'.node i).end

/-- What `addVMA` makes of these arguments. -/
def vmaRegion (start stop : UInt64) (flags : Nat) : UInt64 × UInt64 × Nat × VmaType :=
  (start, stop, flags, if flags = permR ||| permX then .text else .data)

/-- The last object is the one of the header `ph`. -/
structure VmaLoad.Last (s : VmaLoad) (ph : Phdr) (i : Nat) : Prop where
  taskVma : s.taskVma = some i
  vma : s.vma = some i
  lt_brk : i < s.heap.brk
  region : (s.heap.node i).region = vmaRegion ph.pVaddr (ph.pVaddr + ph.pMemsz) ph.pFlags

section

variable {h : VmaHeap} {image : Mem} {addr : UInt64} {taskVma : Option Nat} {ph : Phdr}

theorem addVMA_spec (h : VmaHeap) (start stop : UInt64) (flags : Nat) (type : VmaType) :
    ∃ h', h.addVMA start stop flags type = (h.brk, h') ∧ h'.brk = h.brk + 1 ∧
      (h'.node h.brk).region = vmaRegion start stop flags ∧ h'.next h.brk = none ∧
      ∀ i < h.brk, h'.node i = h.node i := by
  refine ⟨_, rfl, rfl, ?_, ?_, fun i hi => VmaHeap.set_node_of_ne _ _ hi.ne⟩
  · exact congrArg VmArea.region (VmaHeap.set_node_self ..)
  · exact congrArg VmArea.next (VmaHeap.set_node_self ..)

theorem link_next_self (h : VmaHeap) (i : Nat) (next : Option Nat) :
    (h.link (some i) next).next i = next :=
  congrArg VmArea.next (VmaHeap.set_node_self ..)

theorem link_node_of_ne (h : VmaHeap) {i j : Nat} (next : Option Nat) (hne : j ≠ i) :
    (h.link (some i) next).node j = h.node j := VmaHeap.set_node_of_ne _ _ hne

theorem link_region (h : VmaHeap) (i j : Nat) (next : Option Nat) :
    ((h.link (some i) next).node j).region = (h.node j).region := by
  by_cases hij : j = i
  · subst hij
    rw [VmaHeap.link, Option.elim_some, VmaHeap.set_node_self]
    rfl
  · rw [link_node_of_ne h next hij]

@[simp] theorem link_brk (h : VmaHeap) (vma next : Option Nat) :
    (h.link vma next).brk = h.brk := by
  cases vma <;> rfl

/-- After the loop `task->vma` is the object of the last segment. -/
theorem loadSegmentVmas_last (s : VmaLoad) {phs : List Phdr}
    (hlast : (phs.filter fun ph => ph.pType = ptLoad).getLast? = some ph) :
    ∃ i, (phs.foldl loadSegmentVma s).Last ph i := by
  induction phs using List.reverseRecOn with
  | nil => simp at hlast
  | append_singleton phs ph' ih =>
    rw [List.foldl_concat, loadSegmentVma]
    split_ifs with hload
    · obtain rfl : ph' = ph := by simpa [hload] using hlast
      obtain ⟨h', hadd, hbrk, hregion, -⟩ := addVMA_spec (phs.foldl loadSegmentVma s).heap
        ph'.pVaddr (ph'.pVaddr + ph'.pMemsz) ph'.pFlags .notype
      rw [hadd]
      exact ⟨_, rfl, rfl, hbrk ▸ Nat.lt_succ_self _, hregion⟩
    · exact ih (by simpa [hload] using hlast)

/-- **The list after a load.** It has the last segment only, and the types of the heap and of the
stack are lost. -/
theorem elfLoadVmas_spec (haddr : addr ≠ 0) (hlast : (loadHeaders image addr).getLast? = some ph)
    (taskVma : Option Nat) (h : VmaHeap) :
    ∃ h' i vmaHeap vmaStack, elfLoadVmas image addr taskVma h = (h', some i) ∧
      Chain h'.next (some i) [i, vmaHeap, vmaStack] ∧
      (h'.node i).region = vmaRegion ph.pVaddr (ph.pVaddr + ph.pMemsz) ph.pFlags ∧
      (h'.node vmaHeap).region =
        (heapStart, heapStart + 0x1000, permR ||| permW, VmaType.data) ∧
      (h'.node vmaStack).region =
        (userStackTop, userStackTop - 0x1000, permR ||| permW, VmaType.data) := by
  obtain ⟨i, hi⟩ := loadSegmentVmas_last ⟨h, taskVma, none⟩ hlast
  rw [elfLoadVmas, if_pos haddr]
  generalize (programHeaders image addr).foldl loadSegmentVma ⟨h, taskVma, none⟩ = s at hi
  obtain ⟨h₁, hadd₁, hbrk₁, hregion₁, -, hnode₁⟩ := addVMA_spec s.heap heapStart
    (heapStart + 0x1000) (permR ||| permW) .heap
  obtain ⟨h₂, hadd₂, hbrk₂, hregion₂, hnext₂, hnode₂⟩ :=
    addVMA_spec (h₁.link (some i) (some s.heap.brk)) (userStackTop - 0x1000 + 0x1000)
      (userStackTop - 0x1000) (permR ||| permW) .stack
  rw [link_brk] at hadd₂ hbrk₂ hregion₂ hnext₂ hnode₂
  have hlt := hi.lt_brk
  refine ⟨h₂.link (some s.heap.brk) (some h₁.brk), i, s.heap.brk, h₁.brk, ?_, ?_, ?_, ?_, ?_⟩
  · simp only [hadd₁, hi.vma, hadd₂, hi.taskVma]
  · refine ⟨rfl, ?_, ?_, ?_⟩
    · rw [VmaHeap.next, link_node_of_ne _ _ hlt.ne, hnode₂ i (by omega)]
      exact link_next_self ..
    · exact link_next_self ..
    · rw [VmaHeap.next, link_node_of_ne _ _ (by omega)]
      exact hnext₂
  · rw [link_region, hnode₂ i (by omega), link_region, hnode₁ i hlt, hi.region]
  · rw [link_region, hnode₂ _ (by omega), link_region, hregion₁]
    rfl
  · rw [link_region, hregion₂]
    rfl

/-- The list has as many entries as there should be when the file has one segment. -/
theorem vmas_counted_iff (haddr : addr ≠ 0) (hne : loadHeaders image addr ≠ [])
    (taskVma : Option Nat) (h : VmaHeap) :
    (∃ l, Chain (elfLoadVmas image addr taskVma h).1.next (elfLoadVmas image addr taskVma h).2 l ∧
      l.length = (loadHeaders image addr).length + 2) ↔ (loadHeaders image addr).length = 1 := by
  obtain ⟨h', i, vmaHeap, vmaStack, hrun, hchain, -⟩ :=
    elfLoadVmas_spec haddr (List.getLast?_eq_some_getLast hne) taskVma h
  rw [hrun]
  constructor
  · rintro ⟨l, hl, hlength⟩
    rw [hl.unique hchain] at hlength
    simpa [eq_comm] using hlength
  · intro hone
    exact ⟨_, hchain, by rw [hone]; rfl⟩

/-- **The list is never right.** Neither the heap nor the stack has its type. -/
theorem vmas_loaded_never (haddr : addr ≠ 0)
    (hload : ∃ ph ∈ programHeaders image addr, ph.pType = ptLoad) (taskVma : Option Nat)
    (h : VmaHeap) : ¬ VmasLoaded image addr taskVma h := by
  have hne : loadHeaders image addr ≠ [] := by
    obtain ⟨ph, hmem, hph⟩ := hload
    exact List.ne_nil_of_mem (List.mem_filter.2 ⟨hmem, decide_eq_true hph⟩)
  obtain ⟨h', i, vmaHeap, vmaStack, hrun, hchain, -, hheap, -⟩ :=
    elfLoadVmas_spec haddr (List.getLast?_eq_some_getLast hne) taskVma h
  rw [VmasLoaded, hrun]
  rintro ⟨segs, vmaHeap', vmaStack', hchain', -, htype, -⟩
  have hlist : segs ++ [vmaHeap', vmaStack'] = [i] ++ [vmaHeap, vmaStack] := hchain'.unique hchain
  obtain ⟨rfl, -⟩ := List.cons.inj (List.append_inj' hlist rfl).2
  have hdata : (h'.node vmaHeap').type = .data := congrArg (·.2.2.2) hheap
  rw [hdata] at htype
  exact VmaType.noConfusion htype

end

/-- A file at `0x1000` in the kernel's image with a text of 112 bytes, and with data. -/
def dataFile : Mem := ofEntries fun f i =>
  if f = 1 then
    [0, 0, 0, 0x400000, 64, 0, 0, 2, 1 + 5 * 2 ^ 32, 0, 0x400000, 0, 112, 112, 0,
      1 + 6 * 2 ^ 32, 112, 0x600070, 0, 8, 16].getD i 0
  else 0

theorem programHeaders_dataFile : programHeaders dataFile 0x1000 =
    [⟨1, 5, 0, 0x400000, 112, 112⟩, ⟨1, 6, 112, 0x600070, 8, 16⟩] := by decide

/-- A file with two segments. -/
theorem vmas_loaded_dataFile : (∃ ph ∈ programHeaders dataFile 0x1000, ph.pType = ptLoad) ∧
    ¬ VmasLoaded dataFile 0x1000 none (pageVmas 0) := by
  have hload : ∃ ph ∈ programHeaders dataFile 0x1000, ph.pType = ptLoad := by
    rw [programHeaders_dataFile]
    exact ⟨_, List.mem_cons_self, rfl⟩
  exact ⟨hload, vmas_loaded_never (by decide) hload none (pageVmas 0)⟩

/-- Its list has three entries, and the first one is the one of the data. -/
theorem text_lost : ∃ h' i vmaHeap vmaStack,
    elfLoadVmas dataFile 0x1000 none (pageVmas 0) = (h', some i) ∧
      Chain h'.next (some i) [i, vmaHeap, vmaStack] ∧ (h'.node i).start = 0x600070 ∧
      (h'.node vmaStack).end < (h'.node vmaStack).start ∧
      ¬ VmasLoaded dataFile 0x1000 none (pageVmas 0) := by
  have hheaders : loadHeaders dataFile 0x1000 =
      [⟨1, 5, 0, 0x400000, 112, 112⟩, ⟨1, 6, 112, 0x600070, 8, 16⟩] := by
    rw [loadHeaders, programHeaders_dataFile]
    rfl
  have haddr : (0x1000 : UInt64) ≠ 0 := by decide
  have hlast : (loadHeaders dataFile 0x1000).getLast? = some ⟨1, 6, 112, 0x600070, 8, 16⟩ := by
    rw [hheaders]
    rfl
  obtain ⟨h', i, vmaHeap, vmaStack, hrun, hchain, hregion, -, hstack⟩ :=
    elfLoadVmas_spec haddr hlast none (pageVmas 0)
  have hstart : (h'.node vmaStack).start = userStackTop := congrArg (·.1) hstack
  have hend : (h'.node vmaStack).end = userStackTop - 0x1000 := congrArg (·.2.1) hstack
  refine ⟨h', i, vmaHeap, vmaStack, hrun, hchain, congrArg (·.1) hregion, ?_, ?_⟩
  · rw [hstart, hend]
    decide
  · rw [VmasLoaded, hrun]
    rintro ⟨segs, vmaHeap', vmaStack', hchain', hsegs, -⟩
    have hlength := congrArg List.length (hchain'.unique hchain)
    have hcount := congrArg List.length hsegs
    rw [hheaders] at hcount
    simp at hlength hcount
    omega

end Sbunix
