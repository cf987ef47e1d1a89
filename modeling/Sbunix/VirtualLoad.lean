import Sbunix.ProgramImage

/-!
# The loader behind its own mappings

The pointers that `elf_load` follows to tables, to a `vma_struct` and to the `Task` are physical
addresses, and the processor translates them as it does all others: they lead to their frames only
where the direct map is in place, and a load may take it away. Here all these accesses go through
the translation under `CR3`.

`Running` says that such a load agrees with the one of `ElfLoad` on the tables and on the loaded
pages. It is kept as long as the frames that the loader follows pointers to are mapped at their own
addresses and no loaded page has such an address (`Direct`). `program_image_iff` says for these
loads when the image of the program is right.
-/

namespace Sbunix

open Lib Lib.Radix

namespace Virtual

/-! ## The loader -/

/-- `*(uint64_t *)addr`, where eight divides the address. -/
def load64 (addr : UInt64) (k : Kernel) : Option UInt64 := (translate addr k).map (read64 k.mem)

/-- `*(uint64_t *)addr = w`. -/
def store64 (addr w : UInt64) (k : Kernel) : Option Kernel :=
  (translate addr k).map fun p => { k with mem := write64 k.mem p w }

/-- The common body of `pdpt_alloc`, `pdt_alloc` and `pt_alloc`. -/
def tableAlloc (table index : UInt64) (k : Kernel) : Option (UInt64 × Kernel) := do
  let (t, k) ← k.pageAllocAddr
  let k ← store64 (table + 8 * index) (t ||| (pteP ||| pteW ||| pteU)) k
  some (t, k)

def tableOrAlloc (table index : UInt64) (k : Kernel) : Option (UInt64 × Kernel) := do
  let entry ← load64 (table + 8 * index) k
  if entry &&& pteP ≠ 0 then some (getAddress entry, k) else tableAlloc table index k

/-- `map_process`. -/
def mapProcess (vaddr paddr : UInt64) (k : Kernel) : Option Kernel := do
  let (pdpt, k) ← tableOrAlloc k.cr3 (getPML4Index vaddr) k
  let (pdt, k) ← tableOrAlloc pdpt (getPDPTIndex vaddr) k
  let (pt, k) ← tableOrAlloc pdt (getPDTIndex vaddr) k
  store64 (pt + 8 * getPTIndex vaddr) (paddr ||| (pteP ||| pteW ||| pteU)) k

/-- `get_phy_addr`. -/
def getPhyAddr (vaddr : UInt64) (k : Kernel) : Option (UInt64 × Kernel) := do
  let (page, k) ← k.pageAllocAddr
  let k ← mapProcess vaddr page k
  some (vaddr, k)

def mapBlocks : Nat → UInt64 → Kernel → Option Kernel
  | 0, _, k => some k
  | itr + 1, start, k => do
    let (page, k) ← k.pageAllocAddr
    let k ← mapProcess start page k
    mapBlocks itr (start + 0x1000) k

/-- `TEXT`, `DATA`, `STACK`, `HEAP` and `NOTYPE` of `enum vma_types`. -/
def typeText : UInt64 := 0

def typeData : UInt64 := 1

def typeStack : UInt64 := 2

def typeHeap : UInt64 := 3

def typeNotype : UInt64 := 4

/-- `addVMA`. The fields of a `vma_struct` are `start`, `end`, `next`, `flags` and `type`. -/
def addVMA (start stop flags type : UInt64) (k : Kernel) : Option (UInt64 × Kernel) := do
  let (vma, k) ← kmalloc 4096 k
  let k ← store64 vma start k
  let k ← store64 (vma + 8) stop k
  let k ← store64 (vma + 24) flags k
  let k ← store64 (vma + 16) 0 k
  let k ← store64 (vma + 32) type k
  let k ← store64 (vma + 32)
    (if flags = UInt64.ofNat (permR ||| permX) then typeText else typeData) k
  some (vma, k)

/-- The turn of the loop over the program headers, with the pointer `vma` in the state. The field
`vma` of a `Task` is 304 bytes behind its beginning. -/
def loadSegment (image : Mem) (elfHeader task : UInt64) (s : UInt64 × Kernel) (ph : Phdr) :
    Option (UInt64 × Kernel) :=
  if ph.pType = ptLoad then do
    let (vma, k) ← addVMA ph.pVaddr (ph.pVaddr + ph.pMemsz) (UInt64.ofNat ph.pFlags) typeNotype s.2
    let k ← store64 (task + 304) vma k
    let stop ← load64 (vma + 8) k
    let start ← load64 vma k
    let size := (stop / 0x1000 * 0x1000 + 0x1000) - start / 0x1000 * 0x1000
    let k ← mapBlocks (size / 0x1000).toNat (ph.pVaddr / 0x1000 * 0x1000) k
    if ph.Copied then do
      let start ← load64 vma k
      let k ← memcpyFile image start (elfHeader + ph.pOffset) ph.pFilesz k
      some (vma, k)
    else some (vma, k)
  else some s

/-- `if(vma != NULL) vma->next = next`. -/
def setNext (vma next : UInt64) (k : Kernel) : Option Kernel :=
  if vma ≠ 0 then store64 (vma + 16) next k else some k

/-- The part of `elf_load` for the heap and the stack, which comes to `stack_addr`. -/
def heapAndStack (vma : UInt64) (k : Kernel) : Option (UInt64 × Kernel) := do
  let (_, k) ← getPhyAddr heapStart k
  let (vmaHeap, k) ← addVMA heapStart (heapStart + 0x1000) (UInt64.ofNat (permR ||| permW))
    typeHeap k
  let k ← setNext vma vmaHeap k
  let (stackAddr, k) ← getPhyAddr (userStackTop - 0x1000) k
  let (vmaStack, k) ← addVMA (stackAddr + 0x1000) stackAddr (UInt64.ofNat (permR ||| permW))
    typeStack k
  let k ← store64 (vmaHeap + 16) vmaStack k
  some (stackAddr, k)

/-- `elf_load`, with the address that `getElfHeader` returns. `task_rip`, `task_rsp` and
`kernel_rsp` are 4432, 4416 and 4448 bytes behind the beginning of a `Task`, and `&kstack[511]` is
at 4400. -/
def elfLoad (image : Mem) (addr : UInt64) (argc : Int) (args task : UInt64) (k : Kernel) :
    Option Kernel :=
  if addr ≠ 0 then do
    let k ← store64 (task + 4432) (read64 image (addr.toNat + 24)) k
    let (vma, k) ← (programHeaders image addr).foldlM (loadSegment image addr task) (0, k)
    let (stackAddr, k) ← heapAndStack vma k
    let ptr := stackAddr + 0x1000 - 16 - UInt64.ofInt (64 * argc)
    let k ← storeArgs ptr argc args k
    let k ← store64 (task + 4416) ptr k
    store64 (task + 4448) (task + 4400) k
  else some k

/-! ## Tables -/

section

variable {root x t o : Nat} {k k' k₁ kA kB kC : Kernel} {a v p e table index : UInt64}
  {U : Set Nat} {D : Finset (List (Fin 512))} {fl : List Nat} {i : Fin 512}

/-- A pointer into a frame that is mapped at its own address leads there. -/
theorem translate_direct (hcr3 : k.cr3.toNat = 4096 * root)
    (hwalk : walk k.mem root (UInt64.ofNat (4096 * x)) = some e) (hx : pte.target e = x)
    (ha : a.toNat = 4096 * x + o) (ho : o < 4096) : translate a k = some a.toNat := by
  have hroot : k.root = root := by
    rw [Kernel.root, hcr3]
    omega
  have hlt := a.toNat_lt
  have hbase : (UInt64.ofNat (4096 * x)).toNat = 4096 * x := toNat_ofNat_of_lt (by omega)
  have hpage : vpage a = vpage (UInt64.ofNat (4096 * x)) := by
    rw [vpage, vpage, hbase]
    omega
  rw [translate_of_walk (e := e) (by rw [hroot, walk_congr _ _ hpage, hwalk]), hx]
  congr 1
  omega

/-- The word `i` of an object that begins with a frame. -/
theorem toNat_field {d : UInt64} (ha : a.toNat = 4096 * x) (hd : d.toNat = 8 * i) :
    (a + d).toNat = 4096 * x + 8 * i := by
  have hlt := a.toNat_lt
  have hi := i.isLt
  rw [UInt64.toNat_add, hd, ha]
  omega

theorem toNat_entryAddr (htab : table.toNat = 4096 * t) (hidx : index.toNat = i.val) :
    (table + 8 * index).toNat = 4096 * t + 8 * i := by
  refine toNat_field htab ?_
  have h8 : (8 : UInt64).toNat = 8 := rfl
  have hi := i.isLt
  rw [UInt64.toNat_mul, h8, hidx]
  omega

/-- A table that is mapped at its own address is read and changed as at its physical address. -/
theorem tableOrAlloc_eq (htab : table.toNat = 4096 * t) (hidx : index.toNat = i.val)
    (htr : translate (table + 8 * index) k = some (table + 8 * index).toNat) :
    tableOrAlloc table index k = Sbunix.tableOrAlloc Sbunix.tableAlloc table index k := by
  have haddr : (table + 8 * index).toNat = table.toNat + 8 * index.toNat := by
    rw [toNat_entryAddr htab hidx, htab, hidx]
  rw [haddr] at htr
  have halloc : tableAlloc table index k = Sbunix.tableAlloc table index k := by
    rw [tableAlloc, Sbunix.tableAlloc]
    cases hpop : k.pageAllocAddr with
    | none => rfl
    | some r =>
      obtain ⟨page, k₀⟩ := r
      obtain ⟨rfl, -, -⟩ := (Agree.refl Set.univ k).pageAllocAddr hpop
      have htr' : translate (table + 8 * index) k.pop =
          some (table.toNat + 8 * index.toNat) := htr
      simp only [Option.bind_eq_bind, Option.bind_some, store64, htr', Option.map_some]
      rfl
  rw [tableOrAlloc, Sbunix.tableOrAlloc, load64, htr, halloc]
  rfl

/-- The frames `F` are mapped at their own addresses. -/
def SelfMapped (m : Mem) (root : Nat) (F : Set Nat) : Prop :=
  ∀ f ∈ F, ∃ e, walk m root (UInt64.ofNat (4096 * f)) = some e ∧ pte.target e = f

section

variable {S : Set (List (Fin 512))} {R F : Set Nat} (hS : PrefixClosed S)

include hS

/-- When the pointers to the tables lead there all the way, a page is mapped as at physical
addresses. -/
theorem mapProcess_of_followed (hcr3 : k.cr3.toNat = 4096 * root) (hv : path v ∈ S)
    (ha : Agree U k k') {L : Levels S root k.cr3 v p k k₁} (H : Followed U k' L kA kB kC)
    (hF : ∀ q ∈ S, ∀ f, k₁.table root q = some f → f ∈ F)
    (hself : SelfMapped k'.mem root F) (hselfA : SelfMapped kA.mem root F)
    (hselfB : SelfMapped kB.mem root F) (hselfC : SelfMapped kC.mem root F) :
    mapProcess v p k' = Sbunix.mapProcess v p k' := by
  have hi₄ : (getPML4Index v).toNat = (slot (getPML4Index v)).val := toNat_and_511 _
  have hi₃ : (getPDPTIndex v).toNat = (slot (getPDPTIndex v)).val := toNat_and_511 _
  have hi₂ : (getPDTIndex v).toNat = (slot (getPDTIndex v)).val := toNat_and_511 _
  have hi₁ : (getPTIndex v).toNat = (ptSlot v).val := toNat_and_511 _
  have hp₃ : [slot (getPML4Index v), slot (getPDPTIndex v)] ∈ S :=
    hS.left (p := [_, _]) (q := [_]) hv
  have hp₄ : [slot (getPML4Index v)] ∈ S := hS.left (p := [_]) (q := [_]) hp₃
  have htranslate : ∀ {l : Kernel} {f : Nat} {table index : UInt64} {i : Fin 512},
      SelfMapped l.mem root F → l.cr3 = k.cr3 → f ∈ F → table.toNat = 4096 * f →
      index.toNat = i.val → translate (table + 8 * index) l = some (table + 8 * index).toNat := by
    intro l f table index i hself hl hf htab hidx
    obtain ⟨e, hwalk, htarget⟩ := hself f hf
    have hlt := i.isLt
    exact translate_direct (hl ▸ hcr3) hwalk htarget (toNat_entryAddr htab hidx) (by omega)
  have hcr3A : kA.cr3 = k.cr3 := H.pdptAgree.cr3.trans (L.cr3 _ (by simp))
  have hcr3B : kB.cr3 = k.cr3 := H.pdtAgree.cr3.trans (L.cr3 _ (by simp))
  have hcr3C : kC.cr3 = k.cr3 := H.ptAgree.cr3.trans (L.cr3 _ (by simp))
  have hA := tableOrAlloc_eq hcr3 hi₄
    (htranslate hself ha.cr3 (hF [] hS.nil root rfl) hcr3 hi₄)
  have hB := tableOrAlloc_eq L.pdptAddr hi₃
    (htranslate hselfA hcr3A (hF _ hp₄ _ L.pdptTable) L.pdptAddr hi₃)
  have hC := tableOrAlloc_eq L.pdtAddr hi₂
    (htranslate hselfB hcr3B (hF _ hp₃ _ L.pdtTable) L.pdtAddr hi₂)
  have hD := htranslate hselfC hcr3C (hF _ hv _ L.ptTable) L.ptAddr hi₁
  have hrunA := hA.trans H.pdptRun
  have hrunB := hB.trans H.pdtRun
  have hrunC := hC.trans H.ptRun
  have hlast : store64 (L.pt + 8 * getPTIndex v) (p ||| (pteP ||| pteW ||| pteU)) kC =
      some (kC.setPtEntry L.pt (getPTIndex v) (p ||| (pteP ||| pteW ||| pteU))) := by
    rw [store64, hD, Option.map_some, toNat_entryAddr L.ptAddr hi₁, Kernel.setPtEntry, L.ptAddr,
      hi₁]
  rw [mapProcess, Sbunix.mapProcess, mapPage, ha.cr3, H.pdptRun]
  simp only [hrunA, hrunB, hrunC, H.pdtRun, H.ptRun, Option.bind_eq_bind, Option.bind_some, hlast]

omit hS in
/-- On the way to a page the translations stay as they are. -/
theorem walk_of_levels (hmax : ∀ w i, path w ++ [i] ∉ S) {L : Levels S root k.cr3 v p k k₁}
    {l : Kernel} (hl : l ∈ [k, L.afterPdpt, L.afterPdt, L.afterPt]) {w : UInt64} (hw : path w ∈ S) :
    walk l.mem root w = walk k.mem root w := by
  rcases List.mem_cons.1 hl with rfl | hl
  · rfl
  · exact L.leaves l hl _ hw (hmax w) _

/-- A machine with the same tables. -/
theorem mapProcess_eq (hmax : ∀ w i, path w ++ [i] ∉ S) (h : Paging S R k fl) (hroot : root ∈ R)
    (hcr3 : k.cr3.toNat = 4096 * root) (hv : path v ∈ S) (ha : Agree U k k')
    (hrun : Sbunix.mapProcess v p k = some k₁)
    (hF : ∀ q ∈ S, ∀ f, k₁.table root q = some f → f ∈ F) (hU : F ⊆ U)
    (hlow : ∀ f ∈ F, path (UInt64.ofNat (4096 * f)) ∈ S) (hself : SelfMapped k.mem root F) :
    mapProcess v p k' = Sbunix.mapProcess v p k' := by
  obtain ⟨L⟩ := mapPage_levels hS h hroot hcr3 hv (hmax v) hrun
  obtain ⟨kA, kB, kC, H⟩ := L.follow hS ha hcr3 hv
    fun q i hq f hf => hU (hF q (hS.left hq) f hf)
  have hkept : ∀ {l l' : Kernel}, l ∈ [k, L.afterPdpt, L.afterPdt, L.afterPt] → Agree U l l' →
      SelfMapped l'.mem root F := by
    intro l l' hl hagree f hf
    obtain ⟨e, hwalk, htarget⟩ := hself f hf
    refine ⟨e, ?_, htarget⟩
    have hleaf := hagree.leaf hS (R := {root})
      (fun r hr q hq g hg => hU (hF q hq g (L.tables l hl q hq g (hr ▸ hg)))) rfl (hlow f hf)
    rw [walk, ← Kernel.leaf, hleaf, Kernel.leaf, ← walk, walk_of_levels hmax hl (hlow f hf), hwalk]
  exact mapProcess_of_followed hS hcr3 hv ha H hF (hkept (by simp) ha)
    (hkept (by simp) H.pdptAgree) (hkept (by simp) H.pdtAgree) (hkept (by simp) H.ptAgree)

end

/-- A machine with the same upper tables, whose page tables have more entries. -/
theorem mapProcess_eq_overlay {D : Finset (List (Fin 512))} {m : Mem} (h : Space root D k fl)
    (ha : Agree U k k') (hover : Overlay m k k') (hrun : Sbunix.mapProcess v p k = some k₁)
    (hU : upperFrames k₁ root ⊆ U) (hdirect : SelfMapped k.mem root (tableFrames k₁ root)) :
    mapProcess v p k' = Sbunix.mapProcess v p k' := by
  have hv := path_mem_allPaths v
  obtain ⟨L⟩ := mapPage_levels prefixClosed_allPaths h.paging rfl h.cr3 hv (path_maximal v) hrun
  obtain ⟨kA, kB, kC, H⟩ := L.follow prefixClosed_allPaths ha h.cr3 hv
    fun q i hq f hf => hU ⟨q, i, hq, hf⟩
  have hself : ∀ {l l' : Kernel}, l ∈ [k, L.afterPdpt, L.afterPdt, L.afterPt] → Agree U l l' →
      Overlay m l l' → SelfMapped l'.mem root (tableFrames k₁ root) := by
    intro l l' hl hagree hover f hf
    have hupper : upperFrames l root ⊆ U := by
      rintro g ⟨q, i, hq, hg⟩
      exact hU ⟨q, i, hq, L.tables l hl q (prefixClosed_allPaths.left hq) g hg⟩
    obtain ⟨e, hwalk, htarget⟩ := hdirect f hf
    refine ⟨e, ?_, htarget⟩
    rw [hover.walk hagree hupper, walk_of_levels path_maximal hl (path_mem_allPaths _), hwalk,
      Option.some_or]
  obtain ⟨hoverA, hoverB, hoverC⟩ := H.overlay m hover
  exact mapProcess_of_followed prefixClosed_allPaths (F := tableFrames k₁ root) h.cr3 hv ha H
    (fun q hq f hf => ⟨q, hq, hf⟩) (hself (by simp) ha hover) (hself (by simp) H.pdptAgree hoverA)
    (hself (by simp) H.pdtAgree hoverB) (hself (by simp) H.ptAgree hoverC)

end

/-! ## Objects -/

section

variable {root x o : Nat} {k k₀ l : Kernel} {a b e : UInt64} {U : Set Nat} {i : Fin 512}
  {I : Kernel → Prop}

section

variable (ha : Agree U k l) (hcr3 : k.cr3.toNat = 4096 * root) (hU : tableFrames k root ⊆ U)
  (hwalk : walk k.mem root (UInt64.ofNat (4096 * x)) = some e) (hx : pte.target e = x)
include ha hcr3 hU hwalk hx

/-- The pointer leads there on a machine with the same tables. -/
theorem translate_agree (hb : b.toNat = 4096 * x + o) (ho : o < 4096) :
    translate b l = some b.toNat := by
  refine translate_direct (ha.cr3 ▸ hcr3) ?_ hx hb ho
  rw [walk_of_tables fun g hg => ha.mem g (hU hg), hwalk]

theorem load64_agree (hb : b.toNat = 4096 * x + 8 * i) : load64 b l = some (entry l.mem x i) := by
  have hi := i.isLt
  rw [load64, translate_agree ha hcr3 hU hwalk hx hb (by omega), Option.map_some, hb, entry]

theorem store64_agree (hout : x ∉ U) (hb : b.toNat = 4096 * x + 8 * i) (w : UInt64) :
    ∃ l', store64 b w l = some l' ∧ Agree U k l' ∧
      ∀ g j, entry l'.mem g j = if g = x ∧ j = i then w else entry l.mem g j := by
  have hi := i.isLt
  refine ⟨{ l with mem := write64 l.mem (4096 * x + 8 * i) w }, ?_, ⟨ha.frames, ha.cr3, ?_⟩, ?_⟩
  · rw [store64, translate_agree ha hcr3 hU hwalk hx hb (by omega), Option.map_some, hb]
  · exact fun f hf => (ha.mem f hf).trans (samePage_write64 _ i w fun hfx => hout (hfx ▸ hf))
  · exact fun g j => entry_write64 l.mem x g i j w

end

/-- The fields `start` and `end` of a `vma_struct`, where stores to its frame go through. -/
theorem addVMA_of_stores (hrun : kmalloc 4096 k = some (a, k₀)) (ha : a.toNat = 4096 * x)
    (h₀ : I k₀) (hstore : ∀ {l : Kernel} {b : UInt64} {i : Fin 512} (w : UInt64), I l →
      b.toNat = 4096 * x + 8 * i → ∃ l', store64 b w l = some l' ∧ I l' ∧
        ∀ g j, entry l'.mem g j = if g = x ∧ j = i then w else entry l.mem g j)
    (start stop flags type : UInt64) :
    ∃ l, addVMA start stop flags type k = some (a, l) ∧ I l ∧ entry l.mem x 0 = start ∧
      entry l.mem x 1 = stop := by
  obtain ⟨l₁, hrun₁, h₁, hent₁⟩ := hstore (i := 0) start h₀ ha
  obtain ⟨l₂, hrun₂, h₂, hent₂⟩ := hstore stop h₁ (toNat_field (d := 8) (i := 1) ha rfl)
  obtain ⟨l₃, hrun₃, h₃, hent₃⟩ := hstore flags h₂ (toNat_field (d := 24) (i := 3) ha rfl)
  obtain ⟨l₄, hrun₄, h₄, hent₄⟩ := hstore 0 h₃ (toNat_field (d := 16) (i := 2) ha rfl)
  obtain ⟨l₅, hrun₅, h₅, hent₅⟩ := hstore type h₄ (toNat_field (d := 32) (i := 4) ha rfl)
  obtain ⟨l₆, hrun₆, h₆, hent₆⟩ := hstore
    (if flags = UInt64.ofNat (permR ||| permX) then typeText else typeData) h₅
    (toNat_field (d := 32) (i := 4) ha rfl)
  refine ⟨l₆, ?_, h₆, ?_, ?_⟩
  · rw [addVMA, hrun]
    simp only [Option.bind_eq_bind, Option.bind_some, hrun₁, hrun₂, hrun₃, hrun₄, hrun₅, hrun₆]
  · simp [hent₆, hent₅, hent₄, hent₃, hent₂, hent₁]
  · simp [hent₆, hent₅, hent₄, hent₃, hent₂]

end

/-! ## A running load -/

/-- The frame is mapped at its own address, and no page of the final layout `L` has it. -/
structure Direct (w₀ : UInt64 → Option UInt64) (L : Layout) (x : Nat) : Prop where
  mapped : ∃ e, w₀ (UInt64.ofNat (4096 * x)) = some e ∧ pte.target e = x
  clear : L.frame (vpage (UInt64.ofNat (4096 * x))) = none

/-- The load on the machine `k'`, beside the one of `ElfLoad` on `k`, whose remaining operations
`ops` lead to `k₁`. The kernel's objects are in the frames `X`, and the memory before was `m`. -/
structure Running (root : Nat) (fl₀ : List Nat) (w₀ : UInt64 → Option UInt64) (m : Mem)
    (image : Mem) (L : Layout) (k₁ : Kernel) (X : Set Nat) (ops : List LoadOp) (k k' : Kernel)
    (s : Layout) (c : Contents) : Prop where
  loading : ∃ m₀, Loading root (tableFrames k₁ root) fl₀ w₀ m₀ k k' s c ∧
    ∀ f ∉ X, SamePage m m₀ f
  self : ∃ m₀ c₀, Loading root Set.univ fl₀ w₀ m₀ k k s c₀
  run : ops.foldlM (loadOp image) k = some k₁
  within : CopiesWithin s ops
  layout : ops.foldl Layout.step s = L
  objects : ∀ x ∈ X, Direct w₀ L x ∧ x ∉ s.free ∧ x ∉ tableFrames k₁ root ∧ x ∉ s.frames
  tables : ∀ f ∈ tableFrames k₁ root, Direct w₀ L f
  coming : ∀ f ∈ s.newObjects ops, Direct w₀ L f

section

variable {root x : Nat} {fl₀ : List Nat} {w₀ : UInt64 → Option UInt64} {m image : Mem} {L : Layout}
  {k k' k₁ : Kernel} {X : Set Nat} {ops : List LoadOp} {s : Layout} {c : Contents}
  {a v w : UInt64} {i : Fin 512}

theorem frame_none_of_foldl {y : Nat} (h : (ops.foldl Layout.step s).frame y = none) :
    s.frame y = none := by
  rw [← Option.not_isSome_iff_eq_none] at h ⊢
  exact fun hs => h (frame_isSome_foldl.2 (.inr hs))

theorem Direct.before (h : Direct w₀ (ops.foldl Layout.step s) x)
    {k : Kernel} (hwalk : ∀ w, walk k.mem root w = ((s.frame (vpage w)).map pageEntry).or (w₀ w)) :
    ∃ e, walk k.mem root (UInt64.ofNat (4096 * x)) = some e ∧ pte.target e = x := by
  obtain ⟨e, he, htarget⟩ := h.mapped
  refine ⟨e, ?_, htarget⟩
  rw [hwalk, frame_none_of_foldl h.clear, Option.map_none, Option.none_or, he]

section

variable (h : Running root fl₀ w₀ m image L k₁ X ops k k' s c)
include h

/-- A pointer into the frame of an object or of a table leads there. -/
theorem Running.translate (hx : Direct w₀ L x) {o : Nat} (ha : a.toNat = 4096 * x + o)
    (ho : o < 4096) : translate a k' = some a.toNat := by
  obtain ⟨m₀, hl, -⟩ := h.loading
  have hsub : tableFrames k root ⊆ tableFrames k₁ root := by
    obtain ⟨m₁, c₁, hself⟩ := h.self
    exact loadOps_tableFrames hself h.within h.run
  obtain ⟨e, hwalk, htarget⟩ := Direct.before (h.layout ▸ hx) (hl.walk_other hsub)
  exact translate_direct (hl.agree.cr3 ▸ hl.space.cr3) hwalk htarget ha ho

theorem Running.load64 (hx : x ∈ X) (ha : a.toNat = 4096 * x + 8 * i) :
    load64 a k' = some (entry k'.mem x i) := by
  have hi := i.isLt
  rw [Virtual.load64, h.translate (h.objects x hx).1 ha (by omega), Option.map_some, ha, entry]

theorem Running.store64 (hx : x ∈ X) (ha : a.toNat = 4096 * x + 8 * i) (w : UInt64) :
    ∃ k'', store64 a w k' = some k'' ∧ Running root fl₀ w₀ m image L k₁ X ops k k'' s c ∧
      ∀ g j, entry k''.mem g j = if g = x ∧ j = i then w else entry k'.mem g j := by
  obtain ⟨m₀, hl, hm⟩ := h.loading
  obtain ⟨hdirect, hfree, htab, hpage⟩ := h.objects x hx
  have hi := i.isLt
  refine ⟨{ k' with mem := write64 k'.mem (4096 * x + 8 * i) w }, ?_, ?_, ?_⟩
  · rw [Virtual.store64, h.translate hdirect ha (by omega), Option.map_some, ha]
  · refine { h with loading := ⟨write64 m₀ (4096 * x + 8 * i) w, ?_, ?_⟩ }
    · have hother : ∀ {m₁ : Mem} {f : Nat}, f ≠ x →
          SamePage m₁ (write64 m₁ (4096 * x + 8 * i) w) f := fun hne => samePage_write64 _ i w hne
      refine { hl with agree := ⟨hl.agree.frames, hl.agree.cr3, ?_⟩, prior := ?_, content := ?_ }
      · intro f hf
        exact (hl.agree.mem f hf).trans (hother fun hfx => htab (hfx ▸ hf))
      · intro f hf hin y hy
        show write64 k'.mem _ w y = write64 m₀ _ w y
        unfold write64
        split_ifs
        · rfl
        · exact hl.prior hf hin y hy
      · intro y g hg o ho
        have hne : g ≠ x := fun hgx => hpage ⟨y, hgx ▸ hg⟩
        have hpg : (4096 * g + o) / 4096 = g := by omega
        refine (hother hne _ hpg).trans ?_
        rw [hother hne _ hpg, hl.content hg o ho]
    · intro f hf
      refine (hm f hf).trans (samePage_write64 _ i w ?_)
      rintro rfl
      exact hf hx
  · intro g j
    exact entry_write64 k'.mem x g i j w

end

/-! ## Operations -/

theorem Running.cons {op : LoadOp} (h : Running root fl₀ w₀ m image L k₁ X (op :: ops) k k' s c) :
    ∃ k₂, loadOp image k op = some k₂ ∧ ops.foldlM (loadOp image) k₂ = some k₁ ∧
      tableFrames k root ⊆ tableFrames k₂ root ∧ tableFrames k₂ root ⊆ tableFrames k₁ root ∧
      ∃ m₀ c₀, Loading root Set.univ fl₀ w₀ m₀ k₂ k₂ (s.step op) c₀ := by
  obtain ⟨m₀, c₀, hself⟩ := h.self
  obtain ⟨k₂, hstep, hrest, hmono, hself₂⟩ := loadOps_cons hself h.within.1 h.run
  exact ⟨k₂, hstep, hrest, hmono, loadOps_tableFrames hself₂ (h.within.2 _ rfl) hrest,
    m₀, _, hself₂⟩

theorem Running.page (h : Running root fl₀ w₀ m image L k₁ X (.page v :: ops) k k' s c) :
    ∃ k₂ page k₂', k'.pageAllocAddr = some (page, k'.pop) ∧ mapProcess v page k'.pop = some k₂' ∧
      Running root fl₀ w₀ m image L k₁ X ops k₂ k₂' (s.step (.page v)) (c.step image (.page v)) ∧
      ∀ x ∈ X, ∀ i, entry k₂'.mem x i = entry k'.mem x i := by
  obtain ⟨k₂, hstep, hrest, -, hsub, hself₂⟩ := h.cons
  obtain ⟨m₀, hl, hm⟩ := h.loading
  obtain ⟨k₂', hstep', hl₂⟩ := hl.page hstep hsub
  obtain ⟨⟨page, k₀⟩, hpop, hmap⟩ := Option.bind_eq_some_iff.1 hstep
  obtain ⟨rfl, hpop', hagree⟩ := hl.agree.pageAllocAddr hpop
  obtain ⟨f, fl, hfl, -, hspace⟩ := hl.space.pop hpop
  obtain ⟨k₃', hmap', -, hkeep, -⟩ := mapProcess_agree hspace hagree hmap
    ((upperFrames_subset k₂ root).trans hsub)
  have hsame : k₃' = k₂' := by
    rw [loadOp, hpop'] at hstep'
    exact Option.some.inj (hmap'.symm.trans hstep')
  subst hsame
  have hdirect : SelfMapped k.pop.mem root (tableFrames k₂ root) :=
    fun g hg => Direct.before (h.layout ▸ h.tables g (hsub hg)) (k := k.pop) hl.walk
  refine ⟨k₂, page, k₃', hpop', ?_, ?_, ?_⟩
  · rw [mapProcess_eq prefixClosed_allPaths (F := tableFrames k₂ root) path_maximal hspace.paging
      rfl hspace.cr3 (path_mem_allPaths v) hagree hmap (fun q hq g hg => ⟨q, hq, hg⟩) hsub
      (fun _ _ => path_mem_allPaths _) hdirect, hmap']
  · refine ⟨⟨m₀, hl₂, hm⟩, hself₂, hrest, h.within.2 _ rfl, h.layout, ?_, h.tables, ?_⟩
    · intro x hx
      obtain ⟨hdir, hfree, htab, hpage⟩ := h.objects x hx
      refine ⟨hdir, fun hmem => hfree (step_free_subset s _ hmem), htab, ?_⟩
      rintro ⟨y, hy⟩
      rw [Layout.step, hfl, List.headD_cons] at hy
      change Function.update s.frame (vpage v) (some f) y = some x at hy
      rw [Function.update_apply] at hy
      split_ifs at hy
      · exact hfree (hfl ▸ Option.some.inj hy ▸ List.mem_cons_self)
      · exact hpage ⟨y, hy⟩
    · exact fun g hg => h.coming g (List.mem_append_right _ hg)
  · intro x hx i
    exact entry_congr (hkeep x fun hmem => (h.objects x hx).2.2.1 (hsub hmem)) i

theorem Running.kmalloc (h : Running root fl₀ w₀ m image L k₁ X (.vma :: ops) k k' s c) :
    ∃ k₂ a f, kmalloc 4096 k' = some (a, k'.pop) ∧ a.toNat = 4096 * f ∧ f ∉ X ∧
      Running root fl₀ w₀ m image L k₁ (insert f X) ops k₂ k'.pop (s.step .vma)
        (c.step image .vma) := by
  obtain ⟨k₂, hstep, hrest, -, hsub, hself₂⟩ := h.cons
  obtain ⟨m₀, hl, hm⟩ := h.loading
  obtain ⟨k₂', hstep', hl₂⟩ := hl.vma hstep
  obtain ⟨⟨a, k₀⟩, hpop, hk₂⟩ := Option.bind_eq_some_iff.1 hstep
  obtain ⟨rfl, hpop', -⟩ := hl.agree.pageAllocAddr hpop
  obtain rfl := Option.some.inj hk₂
  obtain rfl : k'.pop = k₂' := by
    rw [loadOp, hpop'] at hstep'
    exact Option.some.inj hstep'
  obtain ⟨f, fl, hfl, ha, -⟩ := hl.space.pop hpop
  have hfree : f ∈ s.free := hfl ▸ List.mem_cons_self
  have hstepfree : (s.step .vma).free = fl := by rw [Layout.step, hfl, List.tail_cons]
  have hout : f ∉ (s.step .vma).free :=
    hstepfree ▸ (List.nodup_cons.1 (hfl ▸ hl.space.paging.free.nodup)).1
  refine ⟨k.pop, a, f, by rw [kmalloc_page, hpop'], ha, fun hx => (h.objects f hx).2.1 hfree, ?_⟩
  refine ⟨⟨m₀, hl₂, fun g hg => hm g fun hx => hg (Set.mem_insert_of_mem f hx)⟩, hself₂, hrest,
    h.within.2 _ rfl, h.layout, ?_, h.tables, ?_⟩
  · rintro x (rfl | hx)
    · refine ⟨h.coming x ?_, hout, ?_, ?_⟩
      · refine List.mem_append_left _ ?_
        rw [Layout.objectFor, hfl, List.headD_cons, List.mem_singleton]
      · obtain ⟨m₁, c₁, hself⟩ := hself₂
        intro hmem
        rcases loadOps_tables hself (h.within.2 _ rfl) hrest hmem with ⟨q, hq, hold⟩ | hnew
        · exact hl.space.paging.fresh x hfree root rfl q hq hold
        · exact hout (newTables_subset _ _ hnew)
      · rintro ⟨y, hy⟩
        exact (hl.owned hy).2.1 hfree
    · obtain ⟨hdir, hfree, htab, hpage⟩ := h.objects x hx
      exact ⟨hdir, fun hmem => hfree (step_free_subset s _ hmem), htab, hpage⟩
  · exact fun g hg => h.coming g (List.mem_append_right _ hg)

theorem Running.copy {dest src n : UInt64}
    (h : Running root fl₀ w₀ m image L k₁ X (.copy dest src n :: ops) k k' s c) :
    ∃ k₂ k₂', memcpyFile image dest src n k' = some k₂' ∧
      Running root fl₀ w₀ m image L k₁ X ops k₂ k₂' s (c.step image (.copy dest src n)) := by
  obtain ⟨k₂, hstep, hrest, hmono, hsub, hself₂⟩ := h.cons
  obtain ⟨m₀, hl, hm⟩ := h.loading
  obtain ⟨k₃, k₂', hstep₃, hstep', -, hl₂⟩ := hl.copy (hmono.trans hsub) image src h.within.1
  obtain rfl := Option.some.inj (hstep.symm.trans hstep₃)
  exact ⟨k₂, k₂', hstep', ⟨m₀, hl₂, hm⟩, hself₂, hrest, h.within.2 _ rfl, h.layout, h.objects,
    h.tables, h.coming⟩

theorem Running.blocks {itr : Nat} {start : UInt64}
    (h : Running root fl₀ w₀ m image L k₁ X (blockOps itr start ++ ops) k k' s c) :
    ∃ k₂ k₂', mapBlocks itr start k' = some k₂' ∧
      Running root fl₀ w₀ m image L k₁ X ops k₂ k₂' ((blockOps itr start).foldl Layout.step s)
        ((blockOps itr start).foldl (Contents.step image) c) ∧
      ∀ x ∈ X, ∀ i, entry k₂'.mem x i = entry k'.mem x i := by
  induction itr generalizing start k k' s c with
  | zero => exact ⟨k, k', rfl, h, fun _ _ _ => rfl⟩
  | succ itr ih =>
    obtain ⟨k₂, page, k₂', hpop, hmap, h₂, hkeep⟩ := Running.page h
    obtain ⟨k₃, k₃', hrest, h₃, hkeep₃⟩ := ih h₂
    refine ⟨k₃, k₃', ?_, h₃, fun x hx i => (hkeep₃ x hx i).trans (hkeep x hx i)⟩
    rw [mapBlocks, hpop]
    simp only [Option.bind_eq_bind, Option.bind_some, hmap, hrest]

theorem Running.addVMA (h : Running root fl₀ w₀ m image L k₁ X (.vma :: ops) k k' s c)
    (start stop flags type : UInt64) :
    ∃ k₂ k₂' a f, addVMA start stop flags type k' = some (a, k₂') ∧ a.toNat = 4096 * f ∧ f ∉ X ∧
      Running root fl₀ w₀ m image L k₁ (insert f X) ops k₂ k₂' (s.step .vma) (c.step image .vma) ∧
      entry k₂'.mem f 0 = start ∧ entry k₂'.mem f 1 = stop := by
  obtain ⟨k₂, a, f, hrun, ha, hf, h₀⟩ := h.kmalloc
  obtain ⟨k₂', hadd, h₂, hstart, hstop⟩ := addVMA_of_stores
    (I := fun l => Running root fl₀ w₀ m image L k₁ (insert f X) ops k₂ l _ _) hrun ha h₀
    (fun w hl hb => hl.store64 (Set.mem_insert f X) hb w) start stop flags type
  exact ⟨k₂, k₂', a, f, hadd, ha, hf, h₂, hstart, hstop⟩

/-! ## The whole load -/

/-- The pointer `vma` is `NULL` or leads to an object. -/
def Pointer (X : Set Nat) (vma : UInt64) : Prop := vma = 0 ∨ ∃ x ∈ X, vma.toNat = 4096 * x

/-- A turn of the loop over the program headers. -/
theorem Running.segment {elfHeader task vma : UInt64} {ph : Phdr} {t : Nat}
    (h : Running root fl₀ w₀ m image L k₁ X (segmentOps elfHeader ph ++ ops) k k' s c)
    (htask : task.toNat = 4096 * t) (ht : t ∈ X) (hvma : Pointer X vma) :
    ∃ X₂ k₂ k₂' vma₂, loadSegment image elfHeader task (vma, k') ph = some (vma₂, k₂') ∧
      Running root fl₀ w₀ m image L k₁ X₂ ops k₂ k₂'
        ((segmentOps elfHeader ph).foldl Layout.step s)
        ((segmentOps elfHeader ph).foldl (Contents.step image) c) ∧
      X ⊆ X₂ ∧ Pointer X₂ vma₂ := by
  by_cases hload : ph.pType = ptLoad
  · have hops : segmentOps elfHeader ph ++ ops = .vma :: (blockOps ph.blocks
        (ph.pVaddr / 0x1000 * 0x1000) ++ ((if ph.Copied then
          [.copy ph.pVaddr (elfHeader + ph.pOffset) ph.pFilesz] else []) ++ ops)) := by
      rw [segmentOps, if_pos hload, List.cons_append, List.cons_append, List.append_assoc]
    rw [hops] at h
    obtain ⟨k₂, k₂', a, f, hadd, ha, hf, h₂, hstart, hstop⟩ := h.addVMA ph.pVaddr
      (ph.pVaddr + ph.pMemsz) (UInt64.ofNat ph.pFlags) typeNotype
    have hmem : f ∈ insert f X := Set.mem_insert f X
    have ht' : t ∈ insert f X := Set.mem_insert_of_mem f ht
    have hne : f ≠ t := fun hft => hf (hft ▸ ht)
    have htaskAddr : (task + 304).toNat = 4096 * t + 8 * (38 : Fin 512) := toNat_field htask rfl
    have hstopAddr : (a + 8).toNat = 4096 * f + 8 * (1 : Fin 512) := toNat_field ha rfl
    obtain ⟨k₃', htaskVma, h₃, hent₃⟩ := h₂.store64 ht' htaskAddr a
    have hstart₃ : Virtual.load64 a k₃' = some ph.pVaddr := by
      rw [h₃.load64 hmem (i := 0) ha, hent₃, if_neg fun h => hne h.1, hstart]
    have hstop₃ : Virtual.load64 (a + 8) k₃' = some (ph.pVaddr + ph.pMemsz) := by
      rw [h₃.load64 hmem hstopAddr, hent₃, if_neg fun h => hne h.1, hstop]
    obtain ⟨k₄, k₄', hblocks, h₄, hkeep⟩ := h₃.blocks
    have hstart₄ : Virtual.load64 a k₄' = some ph.pVaddr := by
      rw [h₄.load64 hmem (i := 0) ha, hkeep f hmem, hent₃, if_neg fun h => hne h.1, hstart]
    rw [loadSegment, if_pos hload, segmentOps, if_pos hload, List.cons_append]
    rw [Phdr.blocks] at hblocks
    simp only [hadd, htaskVma, hstop₃, hstart₃, hblocks, Option.bind_eq_bind, Option.bind_some]
    by_cases hcopy : ph.Copied
    · simp only [hcopy, if_true, List.cons_append, List.nil_append] at h₄ ⊢
      obtain ⟨k₅, k₅', hrun, h₅⟩ := h₄.copy
      refine ⟨_, k₅, k₅', a, ?_, ?_, Set.subset_insert f X, Or.inr ⟨f, hmem, ha⟩⟩
      · simp only [hstart₄, hrun, Option.bind_some]
      · simp only [List.foldl_cons, List.foldl_append, List.foldl_nil]
        exact h₅
    · simp only [hcopy, if_false, List.nil_append, List.append_nil] at h₄ ⊢
      exact ⟨_, k₄, k₄', a, rfl, h₄, Set.subset_insert f X, Or.inr ⟨f, hmem, ha⟩⟩
  · rw [segmentOps, if_neg hload] at h ⊢
    rw [loadSegment, if_neg hload]
    exact ⟨X, k, k', vma, rfl, h, subset_rfl, hvma⟩

theorem Running.segments {elfHeader task vma : UInt64} {phs : List Phdr} {t : Nat}
    (h : Running root fl₀ w₀ m image L k₁ X (phs.flatMap (segmentOps elfHeader) ++ ops) k k' s c)
    (htask : task.toNat = 4096 * t) (ht : t ∈ X) (hvma : Pointer X vma) :
    ∃ X₂ k₂ k₂' vma₂, phs.foldlM (loadSegment image elfHeader task) (vma, k') =
        some (vma₂, k₂') ∧
      Running root fl₀ w₀ m image L k₁ X₂ ops k₂ k₂'
        ((phs.flatMap (segmentOps elfHeader)).foldl Layout.step s)
        ((phs.flatMap (segmentOps elfHeader)).foldl (Contents.step image) c) ∧
      X ⊆ X₂ ∧ Pointer X₂ vma₂ := by
  induction phs generalizing X k k' s c vma with
  | nil => exact ⟨X, k, k', vma, rfl, h, subset_rfl, hvma⟩
  | cons ph phs ih =>
    rw [List.flatMap_cons, List.append_assoc] at h
    obtain ⟨X₂, k₂, k₂', vma₂, hrun₂, h₂, hsub₂, hvma₂⟩ := h.segment htask ht hvma
    obtain ⟨X₃, k₃, k₃', vma₃, hrun₃, h₃, hsub₃, hvma₃⟩ := ih h₂ (hsub₂ ht) hvma₂
    refine ⟨X₃, k₃, k₃', vma₃, ?_, ?_, hsub₂.trans hsub₃, hvma₃⟩
    · rw [List.foldlM_cons, hrun₂]
      exact hrun₃
    · rw [List.flatMap_cons, List.foldl_append, List.foldl_append]
      exact h₃

theorem Running.heapAndStack {vma : UInt64}
    (h : Running root fl₀ w₀ m image L k₁ X tailOps k k' s c)
    (hvma : Pointer X vma) :
    ∃ X₂ k₂', Virtual.heapAndStack vma k' = some (userStackTop - 0x1000, k₂') ∧
      Running root fl₀ w₀ m image L k₁ X₂ [] k₁ k₂' L
        (tailOps.foldl (Contents.step image) c) ∧ X ⊆ X₂ := by
  have hnext : ∀ {a : UInt64} {f : Nat}, a.toNat = 4096 * f →
      (a + 16).toNat = 4096 * f + 8 * (2 : Fin 512) := fun ha => toNat_field ha rfl
  obtain ⟨l₁, page, l₁', hpop, hmap, h₁, -⟩ := Running.page h
  obtain ⟨l₂, l₂', heap, f, hadd, ha, -, h₂, -, -⟩ := h₁.addVMA heapStart
    (heapStart + 0x1000) (UInt64.ofNat (permR ||| permW)) typeHeap
  have hmem : f ∈ insert f X := Set.mem_insert f X
  obtain ⟨l₃', hlink, h₃⟩ : ∃ l₃', setNext vma heap l₂' = some l₃' ∧ Running root fl₀ w₀ m image L
      k₁ (insert f X) [.page (userStackTop - 0x1000), .vma] l₂ l₃' _ _ := by
    rcases hvma with rfl | ⟨x, hx, hvma⟩
    · exact ⟨l₂', if_neg (by simp), h₂⟩
    · by_cases hzero : vma = 0
      · exact ⟨l₂', if_neg (by simp [hzero]), h₂⟩
      · obtain ⟨l₃', hstore, h₃, -⟩ := h₂.store64 (Set.mem_insert_of_mem f hx) (hnext hvma) heap
        exact ⟨l₃', (if_pos hzero).trans hstore, h₃⟩
  obtain ⟨l₄, page', l₄', hpop', hmap', h₄, -⟩ := Running.page h₃
  obtain ⟨l₅, l₅', stack, g, hadd', ha', -, h₅, -, -⟩ := h₄.addVMA
    (userStackTop - 0x1000 + 0x1000) (userStackTop - 0x1000) (UInt64.ofNat (permR ||| permW))
    typeStack
  obtain ⟨l₆', hlast, h₆, -⟩ := h₅.store64 (Set.mem_insert_of_mem g hmem) (hnext ha) stack
  obtain rfl : l₅ = k₁ := Option.some.inj h₆.run
  have hL := h₆.layout
  rw [List.foldl_nil] at hL
  refine ⟨insert g (insert f X), l₆', ?_, hL ▸ h₆,
    (Set.subset_insert f X).trans (Set.subset_insert g _)⟩
  simp only [Virtual.heapAndStack, getPhyAddr, hpop, hmap, hadd, hlink, hpop', hmap', hadd', hlast,
    Option.bind_eq_bind, Option.bind_some]

theorem Running.storeArgs {args : UInt64} {n : Nat}
    (h : Running root fl₀ w₀ m image L k₁ X [] k₁ k' L c) (hn : n ≤ 63)
    (hcov : L.Covers (argsPtr n).toNat (8 + 64 * n)) (hargs : ArgsMapped L w₀ args n) :
    ∃ k₂ k₂' c', storeArgs (argsPtr n) n args k' = some k₂' ∧
      Running root fl₀ w₀ m image L k₂ X [] k₂ k₂' L c' ∧
      ∃ m₀, ArgsStored (tableFrames k₁ root) fl₀ w₀ m₀ L (argsPtr n).toNat args n c c' := by
  obtain ⟨m₁, c₁, hself⟩ := h.self
  obtain ⟨m₀, hl, hm⟩ := h.loading
  obtain ⟨k₂, hstore⟩ := hself.storeArgs_isSome hn hcov hargs
  obtain ⟨k₂', c', hstore', hframes, hl₂, hstored⟩ := hl.storeArgs subset_rfl hn hcov
    (.inl fun g ⟨_, hg⟩ => (hl.owned hg).2.2.1) hstore
  obtain ⟨k₃, c₂, hstore₃, -, hself₂, -⟩ := hself.storeArgs (Set.subset_univ _) hn hcov
    (.inr fun _ _ _ _ => Set.mem_univ _) hstore
  obtain rfl := Option.some.inj (hstore.symm.trans hstore₃)
  refine ⟨k₂, k₂', c', hstore', ⟨⟨m₀, ?_, hm⟩, ⟨m₁, c₂, hself₂⟩, rfl, trivial, rfl, ?_, ?_, nofun⟩,
    m₀, hstored⟩
  · rw [hframes]
    exact hl₂
  · rw [hframes]
    exact h.objects
  · rw [hframes]
    exact h.tables

end

def taskFrames (task : UInt64) : Set Nat := {task.toNat / 4096, task.toNat / 4096 + 1}

/-- A `Task` has been allocated at `task`. -/
structure TaskAt (k : Kernel) (root : Nat) (fl : List Nat) (task : UInt64) : Prop where
  aligned : task.toNat % 4096 = 0
  bound : task.toNat + 8192 ≤ 2 ^ 64
  used : ∀ x ∈ taskFrames task, x ∉ fl
  apart : ∀ x ∈ taskFrames task, x ∉ tableFrames k root

/-- The frames that a load follows pointers to: tables, objects and the `Task`. -/
def followed (k : Kernel) (root : Nat) (s : Layout) (ops : List LoadOp) (task : UInt64) : Set Nat :=
  {f | f ∈ tableFrames k root ∨ f ∈ s.newTables ops ∨ f ∈ s.newObjects ops ∨ f ∈ taskFrames task}

section

variable {root n : Nat} {fl : List Nat} {image : Mem} {addr args task : UInt64} {k : Kernel}
  {D : Finset (List (Fin 512))}

/-- **The load.** It comes to the layout and the contents of the one at physical addresses. -/
theorem elfLoad_running (haddr : addr ≠ 0) (h : RawSpace root D k fl)
    (hsegs : InUserSpace (programHeaders image addr)) (hn : n ≤ 63)
    (hfits : FramesSuffice ⟨D, fl, fun _ => none⟩ (elfOps addr (programHeaders image addr)))
    (hargs : ArgsMapped (elfLayout D fl addr (programHeaders image addr)) (walk k.mem root) args n)
    (hblank : ∀ f ∈ (Layout.mk D fl fun _ => none).newTables
      (elfOps addr (programHeaders image addr)), Blank k.mem f)
    (htask : TaskAt k root fl task)
    (hdirect : ∀ f ∈ followed k root ⟨D, fl, fun _ => none⟩
      (elfOps addr (programHeaders image addr)) task,
        Direct (walk k.mem root) (elfLayout D fl addr (programHeaders image addr)) f) :
    ∃ K₁ k₁ m₀ c, elfLoad image addr n args task k = some k₁ ∧
      Loading root (tableFrames K₁ root) fl (walk k.mem root) m₀ K₁ k₁
        (elfLayout D fl addr (programHeaders image addr)) c ∧
      (∀ g ∈ (elfLayout D fl addr (programHeaders image addr)).frames, SamePage k.mem m₀ g) ∧
      ∀ a ∉ argBlock n, c a = elfContents image addr (programHeaders image addr) a := by
  set ops := elfOps addr (programHeaders image addr) with hops
  set T := (Layout.mk D fl fun _ => none).newTables ops
  have hspace := h.cleared hblank
  have hwalk : walk (k.cleared (spare fl T)).mem root = walk k.mem root :=
    funext (h.walk_cleared T)
  have hagree := agree_cleared k (spare fl T)
  have hold : ∀ {f}, f ∈ tableFrames (k.cleared (spare fl T)) root → f ∈ tableFrames k root := by
    rintro f ⟨q, hq, hf⟩
    refine ⟨q, hq, ?_⟩
    rwa [h.beside.table_cleared prefixClosed_allPaths (spare_subset fl T) rfl hq] at hf
  rw [← hwalk] at hargs hdirect ⊢
  set K := k.cleared (spare fl T)
  have hself := loading_self hspace
  have hwithin : CopiesWithin ⟨D, fl, fun _ => none⟩ (elfOps addr _) := copiesWithin_elfOps hsegs
  obtain ⟨K₂, hrun⟩ := loadOps_isSome image hself hwithin hfits
  have htables : ∀ f ∈ tableFrames K₂ root, f ∈ tableFrames k root ∨ f ∈ T := by
    intro f hf
    exact (loadOps_tables hself hwithin hrun hf).imp_left hold
  have hU : tableFrames K₂ root ⊆ {f | f ∉ spare fl T} := by
    intro f hf hmem
    obtain ⟨hfree, hT⟩ := mem_spare.1 hmem
    rcases htables f hf with ⟨q, hq, htab⟩ | hnew
    · exact h.beside.fresh f hfree root rfl q hq htab
    · exact hT hnew
  have htaskOut : ∀ x ∈ taskFrames task, x ∉ tableFrames K₂ root := by
    intro x hx hmem
    rcases htables x hmem with htab | hnew
    · exact htask.apart x hx htab
    · exact htask.used x hx (newTables_subset _ _ hnew)
  have h₀ : Running root fl (walk K.mem root) k.mem image
      (elfLayout D fl addr (programHeaders image addr)) K₂ (taskFrames task) ops K k
      ⟨D, fl, fun _ => none⟩ fun _ => none := by
    refine ⟨⟨k.mem, loading_init hspace (hagree.mono hU), fun f _ => SamePage.refl _ _⟩,
      ⟨_, _, hself⟩, hrun, hwithin, rfl, ?_, ?_, ?_⟩
    · intro x hx
      exact ⟨hdirect x (.inr (.inr (.inr hx))), htask.used x hx, htaskOut x hx, nofun⟩
    · exact fun f hf => hdirect f ((htables f hf).imp_right .inl)
    · exact fun f hf => hdirect f (.inr (.inr (.inl hf)))
  have haligned : task.toNat = 4096 * (task.toNat / 4096) := by
    have hmod := htask.aligned
    omega
  have hfield : ∀ {d : UInt64} (i : Fin 512), d.toNat = 4096 + 8 * i →
      (task + d).toNat = 4096 * (task.toNat / 4096 + 1) + 8 * i := by
    intro d i hd
    have hi := i.isLt
    have hbound := htask.bound
    rw [UInt64.toNat_add, hd]
    omega
  obtain ⟨l₁, hrip, h₁, -⟩ := h₀.store64 (.inr rfl) (hfield (d := 4432) 42 rfl)
    (read64 image (addr.toNat + 24))
  rw [hops, elfOps] at h₁
  obtain ⟨X₂, K₃, l₂, vma, hloop, h₂, hsub₂, hvma⟩ := h₁.segments haligned (.inl rfl) (.inl rfl)
  obtain ⟨X₃, l₃, htail, h₃, hsub₃⟩ := h₂.heapAndStack hvma
  rw [← List.foldl_append] at h₃
  have htask₃ : task.toNat / 4096 + 1 ∈ X₃ := hsub₃ (hsub₂ (.inr rfl))
  obtain ⟨K₁, l₄, c, hstore, h₄, _, hcontents⟩ := h₃.storeArgs hn (covers_argBlock hsegs hn) hargs
  obtain ⟨l₅, hrsp, h₅, -⟩ := h₄.store64 htask₃ (hfield (d := 4416) 40 rfl) (argsPtr n)
  obtain ⟨l₆, hkrsp, h₆, -⟩ := h₅.store64 htask₃ (hfield (d := 4448) 44 rfl) (task + 4400)
  obtain ⟨m₀, hl, hm⟩ := h₆.loading
  refine ⟨K₁, l₆, m₀, c, ?_, hl, fun g hg => hm g fun hx => (h₆.objects g hx).2.2.2 hg, ?_⟩
  · rw [argsPtr] at hstore hrsp
    rw [elfLoad, if_pos haddr]
    simp only [hrip, hloop, htail, hstore, hrsp, hkrsp, Option.bind_eq_bind, Option.bind_some]
  · exact fun a ha => hcontents.contents ha

end

end Virtual

/-! ## Page frames -/

section

variable {s : Layout} {ops : List LoadOp} {x g : Nat}

theorem frame_mem_free (hfits : FramesSuffice s ops)
    (hg : (ops.foldl Layout.step s).frame x = some g) : s.frame x = some g ∨ g ∈ s.free := by
  induction ops generalizing s with
  | nil => exact Or.inl hg
  | cons op ops ih =>
    obtain ⟨hop, hops⟩ := along_some_cons.1 hfits
    rcases ih hops hg with hold | hfree
    · cases op with
      | vma => exact Or.inl hold
      | copy dest src n => exact Or.inl hold
      | page v =>
        have hcard := Finset.card_le_card (subset_withPath v s.tables)
        change (withPath v s.tables).card < s.free.length + s.tables.card at hop
        obtain ⟨f, fl, hfl⟩ := List.exists_cons_of_length_pos (l := s.free) (by omega)
        change Function.update s.frame (vpage v) (some (s.free.headD 0)) x = some g at hold
        rw [Function.update_apply, hfl, List.headD_cons] at hold
        split_ifs at hold
        · exact Or.inr (hfl ▸ Option.some.inj hold ▸ List.mem_cons_self)
        · exact Or.inl hold
    · exact Or.inr (step_free_subset s op hfree)

/-- The frames of pages do not become tables. -/
theorem frame_not_newTables (hnodup : s.free.Nodup) (hfits : FramesSuffice s ops)
    (hold : ∀ {y g}, s.frame y = some g → g ∉ s.free)
    (hg : (ops.foldl Layout.step s).frame x = some g) : g ∉ s.newTables ops := by
  induction ops generalizing s with
  | nil => exact List.not_mem_nil
  | cons op ops ih =>
    obtain ⟨hop, hops⟩ := along_some_cons.1 hfits
    cases op with
    | vma =>
      exact ih (s := s.step .vma) hnodup.tail hops
        (fun hy hmem => hold hy (List.mem_of_mem_tail hmem)) hg
    | copy dest src n => exact ih hnodup hops hold hg
    | page v =>
      have hcard := Finset.card_le_card (subset_withPath v s.tables)
      change (withPath v s.tables).card < s.free.length + s.tables.card at hop
      obtain ⟨f, fl, hfl⟩ := List.exists_cons_of_length_pos (l := s.free) (by omega)
      rw [hfl] at hnodup
      obtain ⟨hf, hfl'⟩ := List.nodup_cons.1 hnodup
      set n := (withPath v s.tables).card - s.tables.card
      have hfree : (s.step (.page v)).free = fl.drop n := by
        rw [Layout.step, hfl, List.tail_cons]
      have htaken : s.tablesFor (.page v) = fl.take n := by
        rw [Layout.tablesFor, hfl, List.tail_cons]
      have hframe : ∀ {y g}, (s.step (.page v)).frame y = some g → g ∉ fl := by
        intro y g hy hmem
        change Function.update s.frame (vpage v) (some (s.free.headD 0)) y = some g at hy
        rw [Function.update_apply, hfl, List.headD_cons] at hy
        split_ifs at hy
        · exact hf (Option.some.inj hy ▸ hmem)
        · exact hold hy (hfl ▸ List.mem_cons_of_mem f hmem)
      have hlater := ih (s := s.step (.page v)) (hfree ▸ hfl'.sublist (List.drop_sublist n fl)) hops
        (fun hy hmem => hframe hy (List.mem_of_mem_drop (hfree ▸ hmem))) hg
      rw [Layout.newTables, Layout.collect, List.mem_append, not_or, htaken]
      refine ⟨fun hmem => ?_, hlater⟩
      rcases frame_mem_free hops hg with hnow | hdrop
      · exact hframe hnow (List.mem_of_mem_take hmem)
      · exact List.disjoint_take_drop hfl' (Nat.le_refl n) hmem (hfree ▸ hdrop)

theorem step_free_eq_drop (s : Layout) (op : LoadOp) :
    ∃ r ≤ 4, (s.step op).free = s.free.drop r := by
  cases op with
  | vma => exact ⟨1, by omega, List.drop_one.symm⟩
  | page v =>
    have hcard := card_withPath_le v s.tables
    refine ⟨(withPath v s.tables).card - s.tables.card + 1, by omega, ?_⟩
    show List.drop _ s.free.tail = _
    rw [← List.drop_one, List.drop_drop, Nat.add_comm]
  | copy dest src n => exact ⟨0, by omega, rfl⟩

/-- An operation takes four frames at most, and from the front of the free list. -/
theorem collect_subset_take {taken : Layout → LoadOp → List Nat}
    (htaken : ∀ s op, Layout.Fits s op → taken s op ⊆ s.free.take 4) (hfits : FramesSuffice s ops) :
    s.collect taken ops ⊆ s.free.take (4 * ops.length) := by
  induction ops generalizing s with
  | nil => exact List.nil_subset _
  | cons op ops ih =>
    obtain ⟨hop, hops⟩ := along_some_cons.1 hfits
    obtain ⟨r, hr, hfree⟩ := step_free_eq_drop s op
    rw [List.length_cons]
    refine List.append_subset.2 ⟨List.Subset.trans (htaken s op hop) ?_,
      List.Subset.trans (ih hops) ?_⟩
    · exact List.take_subset_take_left _ (by omega)
    · rw [hfree, List.take_drop]
      exact List.Subset.trans (List.drop_subset _ _) (List.take_subset_take_left _ (by omega))

theorem newTables_subset_take (hfits : FramesSuffice s ops) :
    s.newTables ops ⊆ s.free.take (4 * ops.length) := by
  refine collect_subset_take (fun s op _ => ?_) hfits
  cases op with
  | vma => exact List.nil_subset _
  | page v =>
    have hcard := card_withPath_le v s.tables
    intro f hf
    rw [Layout.tablesFor, ← List.drop_one, List.take_drop] at hf
    exact List.take_subset_take_left _ (by omega) (List.mem_of_mem_drop hf)
  | copy dest src n => exact List.nil_subset _

theorem newObjects_subset_take (hfits : FramesSuffice s ops) :
    s.newObjects ops ⊆ s.free.take (4 * ops.length) := by
  refine collect_subset_take (fun s op hop => ?_) hfits
  cases op with
  | vma =>
    obtain ⟨f, fl, hfl⟩ := List.exists_cons_of_length_pos (show 0 < s.free.length from hop)
    intro g hg
    rw [Layout.objectFor, hfl, List.headD_cons, List.mem_singleton] at hg
    rw [hg, hfl]
    exact List.mem_cons_self
  | page v => exact List.nil_subset _
  | copy dest src n => exact List.nil_subset _

end

/-! ## A machine with a direct map -/

def identityAddr (f : Nat) : UInt64 := UInt64.ofNat (4096 * f)

/-- The frame `f` is mapped at its own address. -/
def IdentityMapped (k : Kernel) (root f : Nat) : Prop :=
  walk k.mem root (identityAddr f) = some (pageEntry f)

section

variable {root f t : Nat} {k : Kernel} {D : Finset (List (Fin 512))} {fl : List Nat}

theorem vpage_identityAddr (hf : f ≤ 0x500) : vpage (identityAddr f) = f := by
  have hval : (identityAddr f).toNat = 4096 * f :=
    toNat_ofNat_of_lt (by omega)
  unfold vpage
  omega

/-- The pages of the heap and of the stack lie above the window of `mapAllpages`. -/
theorem not_tailPage (hf : f ≤ 0x500) : ¬ TailPage f := by
  have hheap : vpage heapStart = 0x8000 := rfl
  have hstack : vpage (userStackTop - 0x1000) = 0xEFFFF := rfl
  rintro (h | h)
  · omega
  · omega

/-- The next two frames are for a `Task`. -/
theorem Space.task (h : Space root D k (t :: (t + 1) :: fl)) (ht : 4096 * t + 8192 ≤ 2 ^ 64) :
    Space root D k.pop.pop fl ∧ Virtual.TaskAt k.pop.pop root fl (identityAddr t) := by
  have hval : (identityAddr t).toNat = 4096 * t := toNat_ofNat_of_lt (by omega)
  have hframes : ∀ x ∈ Virtual.taskFrames (identityAddr t), x = t ∨ x = t + 1 := by
    intro x hx
    rw [Virtual.taskFrames, hval, Nat.mul_div_cancel_left t (by decide)] at hx
    exact hx
  obtain ⟨page₁, hpop₁, -, -⟩ := h.paging.free.pageAllocAddr_cons
  obtain ⟨f₁, fl₁, heq₁, -, h₁⟩ := h.pop hpop₁
  obtain ⟨rfl, rfl⟩ := List.cons.inj heq₁
  obtain ⟨page₂, hpop₂, -, -⟩ := h₁.paging.free.pageAllocAddr_cons
  obtain ⟨f₂, fl₂, heq₂, -, h₂⟩ := h₁.pop hpop₂
  obtain ⟨rfl, rfl⟩ := List.cons.inj heq₂
  refine ⟨h₂, by omega, by omega, ?_, ?_⟩
  · intro x hx hmem
    obtain ⟨hnot, hnodup⟩ := List.nodup_cons.1 h.paging.free.nodup
    rcases hframes x hx with rfl | rfl
    · exact hnot (List.mem_cons_of_mem _ hmem)
    · exact (List.nodup_cons.1 hnodup).1 hmem
  · rintro x hx ⟨q, hq, htab⟩
    refine h.paging.fresh x ?_ root rfl q hq htab
    rcases hframes x hx with rfl | rfl
    · exact List.mem_cons_self
    · exact List.mem_cons_of_mem _ List.mem_cons_self

/-- The frames that a load finds and those that it takes. -/
theorem followed_subset {P : Set Nat} {ops : List LoadOp} {task : UInt64}
    (hfits : FramesSuffice ⟨D, fl, fun _ => none⟩ ops) (htables : tableFrames k root ⊆ P)
    (hfree : ∀ f ∈ fl.take (4 * ops.length), f ∈ P) (htask : Virtual.taskFrames task ⊆ P) :
    Virtual.followed k root ⟨D, fl, fun _ => none⟩ ops task ⊆ P := by
  rintro f (htab | hnew | hobj | htask')
  · exact htables htab
  · exact hfree f (newTables_subset_take hfits hnew)
  · exact hfree f (newObjects_subset_take hfits hobj)
  · exact htask htask'

/-- A load follows pointers to frames of the direct map only, and has no page there, when its frames
and those that it finds are in `P`. -/
theorem followed_direct {P : Set Nat} {phs : List Phdr} {elfHeader task : UInt64}
    (hfits : FramesSuffice ⟨D, fl, fun _ => none⟩ (elfOps elfHeader phs)) (hsegs : InUserSpace phs)
    (htables : tableFrames k root ⊆ P)
    (hfree : ∀ f ∈ fl.take (4 * (elfOps elfHeader phs).length), f ∈ P)
    (htask : Virtual.taskFrames task ⊆ P) (hmap : ∀ f ∈ P, f ≤ 0x500 ∧ IdentityMapped k root f)
    (hclear : ∀ f ∈ P, ∀ ph ∈ phs, ¬ ph.Touches f) :
    ∀ f ∈ Virtual.followed k root ⟨D, fl, fun _ => none⟩ (elfOps elfHeader phs) task,
      Virtual.Direct (walk k.mem root) (elfLayout D fl elfHeader phs) f := by
  intro f hf
  have hP : f ∈ P := followed_subset hfits htables hfree htask hf
  obtain ⟨hlow, hwalk⟩ := hmap f hP
  refine ⟨⟨_, hwalk, target_pageEntry (by omega)⟩, ?_⟩
  change (elfLayout D fl elfHeader phs).frame (vpage (identityAddr f)) = none
  rw [vpage_identityAddr hlow, ← Option.not_isSome_iff_eq_none, elfLayout_frame hsegs]
  rintro (htail | ⟨ph, hph, htouch⟩)
  · exact not_tailPage hlow htail
  · exact hclear f hP ph hph htouch

end

/-- Calls that map the frames below 64 at their own addresses. -/
def identityCalls : List (UInt64 × UInt64) :=
  (List.range' 1 63).map fun f => (identityAddr f, identityAddr f)

theorem lastFor_identityCalls {f : Nat} (hlo : 1 ≤ f) (hhi : f < 64) :
    lastFor (identityAddr f) identityCalls = some (identityAddr f) := by
  have hmem : f ∈ List.range' 1 63 := by
    rw [List.mem_range'_1]
    omega
  have hcall : (identityAddr f, identityAddr f) ∈ identityCalls :=
    List.mem_map.2 ⟨f, hmem, rfl⟩
  obtain ⟨p, hp⟩ := lastFor_isSome hcall rfl
  obtain ⟨c, hc, hpage, rfl⟩ := lastFor_mem hp
  obtain ⟨g, hg, rfl⟩ := List.mem_map.1 hc
  rw [List.mem_range'_1] at hg
  rw [vpage_identityAddr (by omega), vpage_identityAddr (by omega)] at hpage
  rw [hp, hpage]

/-- The PML4 is to be frame 1, which is still free. -/
def directBoot : Kernel :=
  { mem := fun _ => 0, frames := pageInit 4096 64 Frames.zero, pml4 := 4096, cr3 := 4096 }

/-- The paths of its tables. -/
def directTables : Finset (List (Fin 512)) := {[0, 0, 0], [0, 0], [0], []}

theorem direct_map_machine : ∃ k, mapProcesses directBoot.pop identityCalls = some k ∧
    Space 1 directTables k (List.range' 5 59) ∧ (∀ f ∈ tableFrames k 1, 1 ≤ f ∧ f < 64) ∧
    ∀ f, 1 ≤ f → f < 64 → IdentityMapped k 1 f := by
  have hfree : FreeFrames directBoot.frames (1 :: List.range' 2 62) :=
    freeFrames_pageInit 4096 (n := 64) (by decide)
  have hboot := boot_blank hfree (fun _ _ _ _ => rfl) (rfl : (4096 : UInt64).toNat = 4096 * 1)
  have hpaging : Paging allPaths {1} directBoot.pop (List.range' 2 62) := hboot.paging
  have htabled : Tabled allPaths {1} 1 {[]} directBoot.pop (List.range' 2 62) :=
    ⟨rfl, hpaging, hboot.tables⟩
  have hpaths : withPaths (identityCalls.map Prod.fst) {[]} = directTables := by decide +kernel
  obtain ⟨k, hrun, htab, hext, -⟩ := mapProcesses_tabled prefixClosed_allPaths htabled rfl
    (fun (c : UInt64 × UInt64) (_ : c ∈ identityCalls) =>
      ⟨path_mem_allPaths c.1, path_maximal c.1⟩) (by rw [hpaths]; decide)
  have hcount : directTables.card - Finset.card {([] : List (Fin 512))} = 3 := rfl
  rw [hpaths, hcount, List.drop_range'] at htab hext
  refine ⟨k, hrun, ⟨htab, congrArg UInt64.toNat hext.cr3⟩, ?_, ?_⟩
  · rintro f ⟨q, hq, hf⟩
    rcases hext.new rfl hq hf with hold | hnew
    · obtain rfl : q = [] := by
        have hmem := (htabled.tables hq).1 (by rw [hold]; rfl)
        rwa [Finset.mem_singleton] at hmem
      obtain rfl := Option.some.inj hold
      decide
    · rw [List.mem_range'_1] at hnew
      omega
  · intro f hlo hhi
    rw [IdentityMapped, (mapProcesses_spec ⟨rfl, hpaging⟩ hrun).2, lastFor_identityCalls hlo hhi]
    rfl

/-- Two frames of this machine are for a `Task`. The load of a program above the direct map follows
pointers to frames of it only. -/
theorem direct_map_loads : ∃ k D, mapProcesses directBoot.pop identityCalls = some k ∧
    Space 1 D k.pop.pop (List.range' 7 57) ∧
    Virtual.TaskAt k.pop.pop 1 (List.range' 7 57) 0x5000 ∧
    ∀ phs, InUserSpace phs → 4 * (elfOps 0x1000 phs).length ≤ 57 →
      (∀ ph ∈ phs, 64 ≤ ph.pVaddr.toNat / 4096) →
      FramesSuffice ⟨D, List.range' 7 57, fun _ => none⟩ (elfOps 0x1000 phs) ∧
        ∀ f ∈ Virtual.followed k.pop.pop 1 ⟨D, List.range' 7 57, fun _ => none⟩
          (elfOps 0x1000 phs) 0x5000,
          Virtual.Direct (walk k.pop.pop.mem 1) (elfLayout D (List.range' 7 57) 0x1000 phs) f := by
  obtain ⟨k, hrun, hspace, htables, hmap⟩ := direct_map_machine
  obtain ⟨hspace, htask⟩ := hspace.task (by decide)
  refine ⟨k, directTables, hrun, hspace, htask, fun phs hsegs hlen hout => ?_⟩
  have hfits : FramesSuffice ⟨directTables, List.range' 7 57, fun _ => none⟩ (elfOps 0x1000 phs) :=
    framesSuffice_of_length (by rw [List.length_range']; exact hlen)
  refine ⟨hfits, followed_direct (P := {f | 1 ≤ f ∧ f < 64}) hfits hsegs htables ?_ ?_ ?_ ?_⟩
  · intro f hf
    have hlist := List.mem_of_mem_take hf
    rw [List.mem_range'_1] at hlist
    exact ⟨by omega, by omega⟩
  · rintro x (rfl | rfl)
    · decide
    · decide
  · exact fun f hf => ⟨by have := hf.2; omega, hmap f hf.1 hf.2⟩
  · rintro f hf ph hph ⟨-, hpage, -⟩
    have habove := hout ph hph
    have hbelow := hf.2
    omega

/-! ## The image -/

section

variable {root n : Nat} {fl : List Nat} {image m : Mem} {addr args task : UInt64} {k : Kernel}
  {D : Finset (List (Fin 512))}

/-- A byte of a segment after the load: one from the file, or what has been in the frame of its
page before. -/
theorem loadByte_segment (haddr : addr ≠ 0) (h : RawSpace root D k fl)
    (hsegs : UserSegments (programHeaders image addr)) (hn : n ≤ 63)
    (hblock : ∀ ph ∈ programHeaders image addr, ph.pType = ptLoad → Disjoint ph.range (argBlock n))
    (hfits : FramesSuffice ⟨D, fl, fun _ => none⟩ (elfOps addr (programHeaders image addr)))
    (hargs : ArgsMapped (elfLayout D fl addr (programHeaders image addr)) (walk k.mem root) args n)
    (htask : Virtual.TaskAt k root fl task)
    (hdirect : ∀ f ∈ Virtual.followed k root ⟨D, fl, fun _ => none⟩
      (elfOps addr (programHeaders image addr)) task,
        Virtual.Direct (walk k.mem root) (elfLayout D fl addr (programHeaders image addr)) f)
    (hm : ∀ f ∈ tableFrames k root, SamePage k.mem m f)
    (hblank : ∀ f ∈ (Layout.mk D fl fun _ => none).newTables
      (elfOps addr (programHeaders image addr)), Blank m f) :
    ∃ k', Virtual.elfLoad image addr n args task { k with mem := m } = some k' ∧
      ∀ ph ∈ programHeaders image addr, ph.pType = ptLoad → ∀ a ∈ ph.range, ∃ g,
        (elfLayout D fl addr (programHeaders image addr)).frame (a / 4096) = some g ∧
        ∀ v : UInt64, v.toNat = a → loadByte v k' =
          some ((elfContents image addr (programHeaders image addr) a).getD
            (m (4096 * g + a % 4096))) := by
  have hwalk : walk m root = walk k.mem root := funext (walk_of_tables hm)
  have htables : tableFrames { k with mem := m } root = tableFrames k root :=
    tableFrames_of_tables hm
  have htask' : Virtual.TaskAt { k with mem := m } root fl task :=
    ⟨htask.aligned, htask.bound, htask.used, fun x hx => by
      rw [htables]
      exact htask.apart x hx⟩
  have hfollowed : ∀ s ops, Virtual.followed { k with mem := m } root s ops task =
      Virtual.followed k root s ops task := by
    intro s ops
    rw [Virtual.followed, Virtual.followed, htables]
  rw [← hwalk] at hargs hdirect
  rw [← hfollowed] at hdirect
  obtain ⟨K₁, k', m₀, c, hrun, hl, hsame, hcontents⟩ := Virtual.elfLoad_running haddr
    (h.of_tables hm) hsegs.toInUserSpace hn hfits hargs hblank htask' hdirect
  refine ⟨k', hrun, ?_⟩
  intro ph hph hload a ha
  have hbound := hsegs.user ph hph hload
  obtain ⟨hlo, hhi⟩ := ha
  have htouch : ph.Touches (a / 4096) := ⟨hload, by omega, by omega⟩
  have hsome : ((elfLayout D fl addr (programHeaders image addr)).frame (a / 4096)).isSome :=
    (elfLayout_frame hsegs.toInUserSpace).2 (.inr ⟨ph, hph, htouch⟩)
  obtain ⟨g, hg⟩ := Option.isSome_iff_exists.1 hsome
  refine ⟨g, hg, ?_⟩
  intro v hv
  rw [hl.loadByte subset_rfl (by omega) hv hg,
    hcontents a (Set.disjoint_left.1 (hblock ph hph hload) ⟨hlo, hhi⟩),
    hsame g ⟨_, hg⟩ _ (by omega)]

theorem elfLayout_frame_data (h : RawSpace root D k fl) {phs : List Phdr}
    (hfits : FramesSuffice ⟨D, fl, fun _ => none⟩ (elfOps addr phs)) {x g : Nat}
    (hg : (elfLayout D fl addr phs).frame x = some g) :
    g ∉ tableFrames k root ∧
      g ∉ (Layout.mk D fl fun _ => none).newTables (elfOps addr phs) := by
  refine ⟨?_, frame_not_newTables h.beside.free.nodup hfits nofun hg⟩
  rintro ⟨q, hq, htab⟩
  have hfree : g ∈ fl := (frame_mem_free hfits hg).resolve_left nofun
  exact h.beside.fresh g hfree root rfl q hq htab

end

end Sbunix
