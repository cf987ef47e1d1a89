import Sbunix.UserSpace
import Mathlib.Order.Interval.Finset.Nat

/-!
# The kernel's address space

`mem_alloc` builds the free list and then the kernel's page tables: the kernel image at its linked
address, the frames from `physfree` to `0x500000` at their own addresses, and the video memory.
From then on the kernel uses the addresses `page_alloc` returns as pointers.

`Boot` counts while it follows the construction: the paths that lead to a table are the set `D`,
and every table took one frame. So `memAlloc_boot` names the frames that are left over, the frames
that the tables are from, and the translations. The array `pages`, which the code keeps at
`physfree`, is an object of its own here.
-/

namespace Sbunix

open Lib Lib.Radix

/-! ## The construction -/

/-- `&physbase`, from the linker script. -/
def physbase : UInt64 := 0x200000

/-- `&kernmem`, from the linker script. -/
def kernmem : UInt64 := 0xffffffff80000000 + physbase

/-- `VIDEO_MEMORY`. -/
def videoMemory : UInt64 := 0xb8000

/-- An iteration of the loop of `pagetable_init`. -/
def mapKernelPage (pt : UInt64) (k : Kernel) (i : Nat) : Kernel :=
  k.setPtEntry pt (getPTIndex (kernmem + 0x1000 * UInt64.ofNat i))
    ((physbase + 0x1000 * UInt64.ofNat i) ||| (pteP ||| pteW ||| pteU))

/-- `while (pbase < physfree)`, in steps of a page from `physbase` on. The PT index wraps. -/
def mapKernelPages (pt physfree : UInt64) (k : Kernel) : Kernel :=
  (List.range ((physfree.toNat - physbase.toNat + 0xFFF) / 0x1000)).foldl (mapKernelPage pt) k

/-- `pagetable_init`. The global `cr3` it sets is the same as `pml4`. -/
def pagetableInit (physfree : UInt64) (k : Kernel) : Option Kernel := do
  let (pml4, k) ← k.pageAllocAddr
  let k := { k with pml4 := pml4 }
  if pml4 = 0 then some k else
    let (pdpt, k) ← pdptAlloc pml4 (getPML4Index kernmem) k
    if pdpt = 0 then some k else
      let (pdt, k) ← pdtAlloc pdpt (getPDPTIndex kernmem) k
      if pdt = 0 then some k else
        let (pt, k) ← ptAlloc pdt (getPDTIndex kernmem) k
        if pt = 0 then some k else some (mapKernelPages pt physfree k)

/-- The loop of `mapAllpages`. -/
def mapPagesFrom (viraddr : UInt64) (k : Kernel) : Option Kernel :=
  if viraddr.toNat ≤ 0x500000 then do
    let k ← mapVirtAddress viraddr viraddr k
    mapPagesFrom (viraddr + 0x1000) k
  else some k
termination_by 0x500001 - viraddr.toNat
decreasing_by
  have h1000 : (0x1000 : UInt64).toNat = 0x1000 := rfl
  rw [UInt64.toNat_add, h1000]
  omega

/-- `mapAllpages`. -/
def mapAllpages (physfree : UInt64) (k : Kernel) : Option Kernel := mapPagesFrom physfree k

/-- `mem_alloc`. -/
def memAlloc (noOfPages : Nat) (physFree : UInt64) (k : Kernel) : Option Kernel := do
  let k := { k with frames := pageInit physFree noOfPages k.frames }
  let k ← pagetableInit physFree k
  let k ← mapAllpages physFree k
  let k ← mapVirtAddress 0xffffffff800b8000 videoMemory k
  some (setCR3 k.pml4 k)

/-! ## Counting tables -/

/-- The number of tables that `mem_alloc` builds, where `memory` frames are kept back: those of the
kernel image and of the video memory, and below `0x500000` a PDPT, a PDT and one PT for each
2 MiB from `physfree` on. -/
def bootTables (physfree : UInt64) (memory : Nat) : Nat :=
  (if memory = 0 then 4 else 5) +
    if physfree.toNat ≤ 0x500000 then 5 - physfree.toNat / 0x200000 else 0

/-- The tables below the PML4 in frame `root` are at the paths `D`. They are in frames of `fl₀`, of
which those of `fl` are left. -/
structure Boot (fl₀ : List Nat) (root : Nat) (D : Finset (List (Fin 512))) (k : Kernel)
    (fl : List Nat) : Prop extends Tabled allPaths {root} root D k fl where
  pml4 : k.pml4.toNat = 4096 * root
  left : fl <:+ fl₀
  taken : ∀ q ∈ allPaths, ∀ f, k.table root q = some f → f ∈ fl₀
  count : fl.length + D.card = fl₀.length

section

variable {root t : Nat} {D : Finset (List (Fin 512))} {k k' : Kernel} {fl fl₀ : List Nat}
  {p : List (Fin 512)} {i : Fin 512} {table index : UInt64}

/-- The leaves of one state are those of another. -/
def SameLeaves (root : Nat) (k k' : Kernel) : Prop :=
  ∀ q ∈ allPaths, (∀ j, q ++ [j] ∉ allPaths) → ∀ j, k'.leaf root q j = k.leaf root q j

theorem Boot.extend {fl' : List Nat} {D' : Finset (List (Fin 512))} (h : Boot fl₀ root D k fl)
    (htabled : Tabled allPaths {root} root D' k' fl')
    (hext : Extends allPaths {root} root k k' fl fl')
    (hcount : fl'.length + D'.card = fl.length + D.card) : Boot fl₀ root D' k' fl' := by
  refine ⟨htabled, hext.pml4 ▸ h.pml4, hext.suffix.trans h.left, ?_, hcount.trans h.count⟩
  intro q hq f hf
  rcases hext.new rfl hq hf with hold | hnew
  · exact h.taken q hq f hold
  · exact h.left.subset hnew

theorem tableAlloc_boot (h : Boot fl₀ root D k fl) (htab : table.toNat = 4096 * t)
    (hidx : index.toNat = i.val) (hp : p ++ [i] ∈ allPaths) (ht : k.table root p = some t)
    (hD : p ++ [i] ∉ D) :
    tableAlloc table index k = none ∧ fl₀.length < (insert (p ++ [i]) D).card ∨
      ∃ a k' f fl', tableAlloc table index k = some (a, k') ∧ fl = f :: fl' ∧ a.toNat = 4096 * f ∧
        Boot fl₀ root (insert (p ++ [i]) D) k' fl' ∧ k'.table root (p ++ [i]) = some f ∧
        SameLeaves root k k' := by
  have hcount := h.count
  have hcard : (insert (p ++ [i]) D).card = D.card + 1 := Finset.card_insert_of_notMem hD
  rcases tableAlloc_tabled prefixClosed_allPaths h.toTabled htab hidx hp ht hD with
    ⟨hnone, rfl⟩ | ⟨a, k', f, fl', hsome, rfl, ha, htabled, hext, hlink, hleaf⟩
  · refine Or.inl ⟨hnone, ?_⟩
    rw [List.length_nil] at hcount
    omega
  · refine Or.inr ⟨a, k', f, fl', hsome, rfl, ha, h.extend htabled hext ?_, hlink,
      fun q hq hmax j => hleaf rfl hq hmax⟩
    rw [hcard, List.length_cons]
    omega

/-- A store in a PT changes no table. -/
theorem setPtEntry_boot (h : Boot fl₀ root D k fl) (htab : table.toNat = 4096 * t)
    (hidx : index.toNat = i.val) (hp : p ∈ allPaths) (hend : ∀ j, p ++ [j] ∉ allPaths)
    (ht : k.table root p = some t) {e : UInt64} (he : pte.present e = true) :
    Boot fl₀ root D (k.setPtEntry table index e) fl ∧
      (k.setPtEntry table index e).table root p = some t ∧
      ∀ q ∈ allPaths, ∀ j, (k.setPtEntry table index e).leaf root q j =
        if q = p ∧ j = i then some e else k.leaf root q j := by
  obtain ⟨hext, htables, hleaf⟩ := setPtEntry_spec prefixClosed_allPaths htab hidx h.paging
    (s := root) rfl hp ht (hend i) e
  refine ⟨h.extend ⟨rfl, hext.paging, fun hq => ?_⟩ hext rfl, (htables rfl hp).trans ht,
    fun q hq j => ?_⟩
  · rw [htables rfl hq]
    exact h.tables hq
  · have hqp : k.table root q = some t ↔ q = p := by
      constructor
      · exact fun hqt => h.paging.forest.path_eq rfl rfl hq hp hqt ht
      · rintro rfl
        exact ht
    rw [hleaf rfl hq, if_pos he]
    simp only [hqp]

theorem mapVirtAddress_boot (h : Boot fl₀ root D k fl) (v paddr : UInt64) :
    mapVirtAddress v paddr k = none ∧ fl₀.length < (withPath v D).card ∨
      ∃ k' fl', mapVirtAddress v paddr k = some k' ∧ Boot fl₀ root (withPath v D) k' fl' ∧
        ∀ w, walk k'.mem root w =
          if vpage w = vpage v then some (paddr ||| pteFlags) else walk k.mem root w := by
  have hcount := h.count
  rcases mapPage_tabled prefixClosed_allPaths h.toTabled h.pml4 (path_mem_allPaths v)
    (path_maximal v) paddr with ⟨hnone, hfew⟩ | ⟨k', t, hsome, htab, hext, hlen, ht, -, hleaf⟩
  · exact Or.inl ⟨hnone, by omega⟩
  obtain ⟨hself, hother⟩ := walk_update path_maximal (Set.mem_singleton root) (path_mem_allPaths v)
    hext ht hleaf
  have hsub : D ⊆ withPath v D := subset_withPath v D
  have hcard := Finset.card_le_card hsub
  refine Or.inr ⟨k', _, hsome, h.extend htab hext ?_, ?_⟩
  · rw [List.length_drop]
    omega
  · intro w
    split_ifs with hw
    · rw [walk_congr _ _ hw, hself]
    · exact hother w (path_mem_allPaths w) hw

/-! ## The loop of `mapAllpages` -/

/-- The tables for the pages from `a` to `0x500000`. -/
def lowTables (a : Nat) : Finset (List (Fin 512)) :=
  if a ≤ 0x500000 then insert [0] (insert [0, 0]
    ((Finset.Icc (a / 0x200000) 2).image fun x => [0, 0, Fin.ofNat 512 x]))
  else ∅

theorem path_of_low {v : UInt64} (hv : v.toNat ≤ 0x500000) :
    path v = [0, 0, Fin.ofNat 512 (v.toNat / 0x200000)] := by
  have h₄ : (getPML4Index v).toNat = 0 := by
    rw [getPML4Index_toNat]
    omega
  have h₃ : (getPDPTIndex v).toNat = 0 := by
    rw [getPDPTIndex_toNat]
    omega
  have h₂ : (getPDTIndex v).toNat = v.toNat / 0x200000 := by
    rw [getPDTIndex_toNat]
    omega
  rw [path, slot, slot, slot, h₄, h₃, h₂]
  rfl

theorem withPath_of_low {v : UInt64} (hv : v.toNat ≤ 0x500000) (D : Finset (List (Fin 512))) :
    withPath v D ∪ lowTables (v.toNat + 0x1000) = D ∪ lowTables v.toNat := by
  have hpath := path_of_low hv
  have h₄ : slot (getPML4Index v) = 0 := (List.cons.inj hpath).1
  have h₃ : slot (getPDPTIndex v) = 0 := (List.cons.inj (List.cons.inj hpath).2).1
  ext q
  simp only [withPath, hpath, h₄, h₃, lowTables, if_pos hv, Finset.mem_union, Finset.mem_insert]
  by_cases hv' : v.toNat + 0x1000 ≤ 0x500000
  · rw [if_pos hv']
    simp only [Finset.mem_insert, Finset.mem_image, Finset.mem_Icc]
    constructor
    · rintro ((rfl | rfl | rfl | h) | (rfl | rfl | ⟨x, hx, rfl⟩))
      · exact Or.inr (Or.inr (Or.inr ⟨_, ⟨Nat.le_refl _, by omega⟩, rfl⟩))
      · exact Or.inr (Or.inr (Or.inl rfl))
      · exact Or.inr (Or.inl rfl)
      · exact Or.inl h
      · exact Or.inr (Or.inl rfl)
      · exact Or.inr (Or.inr (Or.inl rfl))
      · exact Or.inr (Or.inr (Or.inr ⟨x, ⟨by omega, hx.2⟩, rfl⟩))
    · rintro (h | rfl | rfl | ⟨x, hx, rfl⟩)
      · exact Or.inl (Or.inr (Or.inr (Or.inr h)))
      · exact Or.inl (Or.inr (Or.inr (Or.inl rfl)))
      · exact Or.inl (Or.inr (Or.inl rfl))
      · by_cases hx' : x = v.toNat / 0x200000
        · exact Or.inl (Or.inl (by rw [hx']))
        · exact Or.inr (Or.inr (Or.inr ⟨x, ⟨by omega, hx.2⟩, rfl⟩))
  · have htwo : v.toNat / 0x200000 = 2 := by omega
    rw [if_neg hv', htwo]
    simp only [Finset.mem_image, Finset.mem_Icc, Finset.notMem_empty, or_false]
    constructor
    · rintro (rfl | rfl | rfl | h)
      · exact Or.inr (Or.inr (Or.inr ⟨2, by omega, rfl⟩))
      · exact Or.inr (Or.inr (Or.inl rfl))
      · exact Or.inr (Or.inl rfl)
      · exact Or.inl h
    · rintro (h | rfl | rfl | ⟨x, hx, rfl⟩)
      · exact Or.inr (Or.inr (Or.inr h))
      · exact Or.inr (Or.inr (Or.inl rfl))
      · exact Or.inr (Or.inl rfl)
      · obtain rfl : x = 2 := by omega
        exact Or.inl rfl

/-- The loop maps the pages from `viraddr` to `0x500000` at their own addresses. -/
theorem mapPagesFrom_boot {viraddr : UInt64} (halign : viraddr.toNat % 4096 = 0)
    (h : Boot fl₀ root D k fl) :
    mapPagesFrom viraddr k = none ∧ fl₀.length < (D ∪ lowTables viraddr.toNat).card ∨
      ∃ k' fl', mapPagesFrom viraddr k = some k' ∧
        Boot fl₀ root (D ∪ lowTables viraddr.toNat) k' fl' ∧
        ∀ w, walk k'.mem root w = if viraddr.toNat / 4096 ≤ vpage w ∧ vpage w ≤ 0x500 then
          some (UInt64.ofNat (4096 * vpage w) ||| pteFlags) else walk k.mem root w := by
  induction viraddr, k using mapPagesFrom.induct generalizing D fl with
  | case1 v k hv ih =>
    have hnext : (v + 0x1000).toNat = v.toNat + 0x1000 := by
      have h1000 : (0x1000 : UInt64).toNat = 0x1000 := rfl
      rw [UInt64.toNat_add, h1000]
      omega
    have hpage : vpage v = v.toNat / 4096 := by
      unfold vpage
      omega
    rw [mapPagesFrom, if_pos hv, ← withPath_of_low hv D, ← hnext]
    rcases mapVirtAddress_boot h v v with ⟨hnone, hfew⟩ | ⟨k₁, fl₁, hsome, hboot, hwalk⟩
    · refine Or.inl ⟨by rw [hnone]; rfl, ?_⟩
      exact Nat.lt_of_lt_of_le hfew (Finset.card_le_card Finset.subset_union_left)
    rw [hsome, Option.bind_eq_bind, Option.bind_some]
    rcases ih k₁ (by rw [hnext]; omega) hboot with hfew | ⟨k', fl', hsome', hboot', hwalk'⟩
    · exact Or.inl hfew
    refine Or.inr ⟨k', fl', hsome', hboot', ?_⟩
    intro w
    rw [hwalk', hwalk, hnext]
    by_cases hw : vpage w = v.toNat / 4096
    · have hentry : UInt64.ofNat (4096 * vpage w) = v := by
        rw [hw, show 4096 * (v.toNat / 4096) = v.toNat by omega, UInt64.ofNat_toNat]
      rw [if_neg (by omega), if_pos (hw.trans hpage.symm), if_pos (by omega), hentry]
    · by_cases hw' : (v.toNat + 0x1000) / 4096 ≤ vpage w ∧ vpage w ≤ 0x500
      · rw [if_pos hw', if_pos (by omega)]
      · rw [if_neg hw', if_neg fun hwv => hw (hwv.trans hpage), if_neg (by omega)]
  | case2 v k hv =>
    rw [mapPagesFrom, if_neg hv]
    have hD : D ∪ lowTables v.toNat = D := by
      rw [lowTables, if_neg hv, Finset.union_empty]
    refine Or.inr ⟨k, fl, rfl, hD.symm ▸ h, ?_⟩
    intro w
    rw [if_neg (by omega)]

/-! ## The kernel image -/

theorem mapKernelPages_boot {pt : UInt64} (h : Boot fl₀ root D k fl) (hpt : pt.toNat = 4096 * t)
    (hp : p.length = 3) (ht : k.table root p = some t) (physfree : UInt64) :
    Boot fl₀ root D (mapKernelPages pt physfree k) fl ∧
      ∀ w, path w ≠ p → walk (mapKernelPages pt physfree k).mem root w = walk k.mem root w := by
  unfold mapKernelPages
  generalize List.range ((physfree.toNat - physbase.toNat + 0xFFF) / 0x1000) = is
  have hpS : p ∈ allPaths := Nat.le_of_eq hp
  have hend : ∀ j, p ++ [j] ∉ allPaths := by
    intro j hj
    simp only [allPaths, Set.mem_ofPred_eq, List.length_append, List.length_singleton, hp] at hj
    omega
  induction is generalizing k with
  | nil => exact ⟨h, fun _ _ => rfl⟩
  | cons i is ih =>
    obtain ⟨hboot, ht', hleaf⟩ := setPtEntry_boot h hpt
      (toNat_and_511 ((kernmem + 0x1000 * UInt64.ofNat i) >>> 12)) hpS hend ht
      (present_or_flags (physbase + 0x1000 * UInt64.ofNat i))
    obtain ⟨hboot', hwalk⟩ := ih hboot ht'
    refine ⟨hboot', fun w hw => (hwalk w hw).trans ?_⟩
    exact (hleaf (path w) (path_mem_allPaths w) (ptSlot w)).trans (if_neg fun h₁ => hw h₁.1)

/-- The tables of the kernel image. None is built when the first free frame is frame 0. -/
def imageTables (memory : Nat) : Finset (List (Fin 512)) :=
  if memory = 0 then {[]} else {[511, 510, 1], [511, 510], [511], []}

/-- The state after `pml4 = page_alloc()->addr`. -/
theorem boot_blank (hfree : FreeFrames k.frames (root :: fl))
    (hzero : ∀ f ∈ root :: fl, ZeroPage k.mem f) {a : UInt64} (ha : a.toNat = 4096 * root) :
    Boot (root :: fl) root {[]} { k.pop with pml4 := a } fl := by
  have hpaging : Paging allPaths {root} k.pop fl := paging_blank hfree hzero
  have htable : ∀ q, ({ k.pop with pml4 := a } : Kernel).table root q =
      if q = [] then some root else none :=
    fun q => tableAt_blank (below_of_zeroPage (hzero root (by simp)))
  refine ⟨⟨rfl, ⟨hpaging.forest, hpaging.free, hpaging.fresh, hpaging.blank⟩, fun {q} _ => ?_⟩, ha,
    List.suffix_cons root fl, fun q _ f hf => ?_, by simp⟩
  · rw [htable, Finset.mem_singleton]
    split_ifs with hq <;> simp [hq]
  · rw [htable] at hf
    split_ifs at hf
    exact Option.some.inj hf ▸ List.mem_cons_self

theorem ne_zero_of_frame {a : UInt64} {f : Nat} (ha : a.toNat = 4096 * f) (hf : f ≠ 0) : a ≠ 0 := by
  rintro rfl
  change 0 = _ at ha
  omega

theorem pagetableInit_boot {memory : Nat} (hfree : FreeFrames k.frames fl)
    (hzero : ∀ f ∈ fl, ZeroPage k.mem f) (hhead : ∀ f ∈ fl.head?, f = 0 ↔ memory = 0)
    (htail : ∀ f ∈ fl.tail, f ≠ 0) (physfree : UInt64) :
    pagetableInit physfree k = none ∧ fl.length < (imageTables memory).card ∨
      ∃ k' root fl', pagetableInit physfree k = some k' ∧
        Boot fl root (imageTables memory) k' fl' ∧
        ∀ w, path w ≠ [511, 510, 1] → walk k'.mem root w = none := by
  unfold pagetableInit
  cases fl with
  | nil =>
    refine Or.inl ⟨by rw [hfree.pageAllocAddr_nil]; rfl, ?_⟩
    unfold imageTables
    split_ifs <;> simp
  | cons root fl =>
    obtain ⟨pml4, halloc, hpml4, -⟩ := hfree.pageAllocAddr_cons
    have hboot := boot_blank hfree hzero hpml4
    have hwalk : ∀ w, walk k.mem root w = none :=
      fun w => walk_of_zeroPage (hzero root (by simp)) w
    have hroot : root = 0 ↔ memory = 0 := hhead root (by simp)
    simp only [halloc, Option.bind_eq_bind, Option.bind_some]
    by_cases h0 : root = 0
    · have hpml4' : pml4 = 0 := UInt64.toNat_inj.1 (by rw [hpml4, h0]; rfl)
      rw [imageTables, if_pos (hroot.1 h0)]
      exact Or.inr ⟨_, root, fl, if_pos hpml4', hboot, fun w _ => hwalk w⟩
    rw [imageTables, if_neg fun hm => h0 (hroot.2 hm), if_neg (ne_zero_of_frame hpml4 h0)]
    rw [List.tail_cons] at htail
    set k₀ : Kernel := { k.pop with pml4 := pml4 }
    rw [List.length_cons]
    rcases tableAlloc_boot hboot (p := []) hpml4
      (show (getPML4Index kernmem).toNat = (511 : Fin 512).val by decide) (by simp [allPaths]) rfl
      (by simp) with
      ⟨hnone, hfew⟩ | ⟨pdpt, k₁, f₁, fl₁, hsome₁, rfl, ha₁, hboot₁, ht₁, hleaf₁⟩
    · refine Or.inl ⟨by rw [pdptAlloc, hnone]; rfl, Nat.lt_of_lt_of_le hfew (by decide)⟩
    simp only [pdptAlloc, hsome₁, Option.bind_some,
      if_neg (ne_zero_of_frame ha₁ (htail f₁ (by simp)))]
    rcases tableAlloc_boot hboot₁ (p := [511]) ha₁
      (show (getPDPTIndex kernmem).toNat = (510 : Fin 512).val by decide) (by simp [allPaths]) ht₁
      (by decide) with
      ⟨hnone, hfew⟩ | ⟨pdt, k₂, f₂, fl₂, hsome₂, rfl, ha₂, hboot₂, ht₂, hleaf₂⟩
    · refine Or.inl ⟨by rw [pdtAlloc, hnone]; rfl, Nat.lt_of_lt_of_le hfew (by decide)⟩
    simp only [pdtAlloc, hsome₂, Option.bind_some,
      if_neg (ne_zero_of_frame ha₂ (htail f₂ (by simp)))]
    rcases tableAlloc_boot hboot₂ (p := [511, 510]) ha₂
      (show (getPDTIndex kernmem).toNat = (1 : Fin 512).val by decide) (by simp [allPaths]) ht₂
      (by decide) with
      ⟨hnone, hfew⟩ | ⟨pt, k₃, f₃, fl₃, hsome₃, rfl, ha₃, hboot₃, ht₃, hleaf₃⟩
    · exact Or.inl ⟨by rw [ptAlloc, hnone]; rfl, hfew⟩
    simp only [ptAlloc, hsome₃, Option.bind_some,
      if_neg (ne_zero_of_frame ha₃ (htail f₃ (by simp)))]
    obtain ⟨hboot₄, hwalk₄⟩ := mapKernelPages_boot hboot₃ ha₃ rfl ht₃ physfree
    refine Or.inr ⟨_, root, fl₃, rfl, hboot₄, ?_⟩
    intro w hw
    have hw' := path_mem_allPaths w
    rw [hwalk₄ w hw]
    exact (((hleaf₃ _ hw' (path_maximal w) _).trans (hleaf₂ _ hw' (path_maximal w) _)).trans
      (hleaf₁ _ hw' (path_maximal w) _)).trans (hwalk w)

end

/-! ## `mem_alloc` -/

/-- The tables that `mem_alloc` builds. -/
def allTables (physfree : UInt64) (memory : Nat) : Finset (List (Fin 512)) :=
  withPath 0xffffffff800b8000 (imageTables memory ∪ lowTables physfree.toNat)

theorem card_allTables (physfree : UInt64) (memory : Nat) :
    (allTables physfree memory).card = bootTables physfree memory := by
  have hpath : path 0xffffffff800b8000 = [511, 510, 0] := by decide
  have h₄ : slot (getPML4Index 0xffffffff800b8000) = 511 := by decide
  have h₃ : slot (getPDPTIndex 0xffffffff800b8000) = 510 := by decide
  simp only [allTables, withPath, hpath, h₄, h₃, imageTables, lowTables, bootTables]
  by_cases hlow : physfree.toNat ≤ 0x500000
  · simp only [if_pos hlow]
    have hcases : physfree.toNat / 0x200000 = 0 ∨ physfree.toNat / 0x200000 = 1 ∨
        physfree.toNat / 0x200000 = 2 := by omega
    rcases hcases with h | h | h <;> simp only [h] <;> split_ifs <;> decide
  · simp only [if_neg hlow]
    split_ifs <;> decide

section

variable {n : Nat} {physfree : UInt64} {k : Kernel}

theorem length_initFree (physfree : UInt64) (n : Nat) :
    (initFree physfree n).length = n - (pageInitMemory physfree n).toNat := by
  rw [initFree, List.length_range']

theorem head_initFree : ∀ f ∈ (initFree physfree n).head?,
    f = 0 ↔ (pageInitMemory physfree n).toNat = 0 := by
  intro f hf
  rw [initFree, List.head?_range'] at hf
  split_ifs at hf
  · exact absurd hf (by simp)
  · obtain rfl := Option.mem_some.1 hf
    rfl

theorem tail_initFree : ∀ f ∈ (initFree physfree n).tail, f ≠ 0 := by
  intro f hf
  rw [initFree, List.tail_range', List.mem_range'_1] at hf
  omega

/-- `mem_alloc` fails for want of frames, or it leaves all frames but those of its tables and maps
the frames from `physfree` to `0x500000` at their own addresses. -/
theorem memAlloc_boot (hn : n < 2 ^ 31) (halign : physfree.toNat % 4096 = 0)
    (hframes : k.frames = Frames.zero) (hzero : ∀ f ∈ initFree physfree n, ZeroPage k.mem f) :
    memAlloc n physfree k = none ∧ (initFree physfree n).length <
        bootTables physfree (pageInitMemory physfree n).toNat ∨
      ∃ k' root fl, memAlloc n physfree k = some k' ∧ AddressSpace k' root fl ∧
        fl <:+ initFree physfree n ∧
        fl.length + bootTables physfree (pageInitMemory physfree n).toNat =
          (initFree physfree n).length ∧
        (∀ q ∈ allPaths, ∀ f, k'.table root q = some f → f ∈ initFree physfree n) ∧
        ∀ w : UInt64, w.toNat < 2 ^ 43 → walk k'.mem root w =
          if physfree.toNat / 4096 ≤ vpage w ∧ vpage w ≤ 0x500 then
            some (UInt64.ofNat (4096 * vpage w) ||| pteFlags) else none := by
  set memory := (pageInitMemory physfree n).toNat
  rw [← card_allTables]
  have hsub₁ : imageTables memory ⊆ imageTables memory ∪ lowTables physfree.toNat :=
    Finset.subset_union_left
  have hsub₂ : imageTables memory ∪ lowTables physfree.toNat ⊆ allTables physfree memory := by
    intro q hq
    simp only [allTables, withPath, Finset.mem_insert]
    exact Or.inr (Or.inr (Or.inr hq))
  have hcard₁ := Finset.card_le_card hsub₁
  have hcard₂ := Finset.card_le_card hsub₂
  set k₀ : Kernel := { k with frames := pageInit physfree n k.frames } with hk₀
  have hfree : FreeFrames k₀.frames (initFree physfree n) := by
    rw [hk₀, hframes]
    exact freeFrames_pageInit physfree hn
  have hrun : memAlloc n physfree k = (pagetableInit physfree k₀).bind fun k =>
      (mapAllpages physfree k).bind fun k =>
        (mapVirtAddress 0xffffffff800b8000 videoMemory k).bind fun k =>
          some (setCR3 k.pml4 k) := rfl
  rw [hrun]
  rcases pagetableInit_boot hfree hzero head_initFree tail_initFree physfree with
    ⟨hnone, hfew⟩ | ⟨k₁, root, fl₁, hsome₁, hboot₁, hwalk₁⟩
  · exact Or.inl ⟨by rw [hnone, Option.bind_none],
      Nat.lt_of_lt_of_le hfew (Nat.le_trans hcard₁ hcard₂)⟩
  rw [hsome₁, Option.bind_some, mapAllpages]
  rcases mapPagesFrom_boot halign hboot₁ with
    ⟨hnone, hfew⟩ | ⟨k₂, fl₂, hsome₂, hboot₂, hwalk₂⟩
  · exact Or.inl ⟨by rw [hnone, Option.bind_none], Nat.lt_of_lt_of_le hfew hcard₂⟩
  rw [hsome₂, Option.bind_some]
  rcases mapVirtAddress_boot hboot₂ 0xffffffff800b8000 videoMemory with
    ⟨hnone, hfew⟩ | ⟨k₃, fl₃, hsome₃, hboot₃, hwalk₃⟩
  · exact Or.inl ⟨by rw [hnone, Option.bind_none], hfew⟩
  obtain ⟨hforest, hfree₃, hfresh, hblank₃⟩ := hboot₃.paging
  refine Or.inr ⟨setCR3 k₃.pml4 k₃, root, fl₃, by rw [hsome₃, Option.bind_some],
    ⟨hboot₃.pml4, hforest, hfree₃, hfresh, hblank₃⟩, hboot₃.left, hboot₃.count, hboot₃.taken, ?_⟩
  intro w hw
  have hvideo : vpage w ≠ vpage 0xffffffff800b8000 := by
    have hpage : vpage 0xffffffff800b8000 = 0xffff800b8 := by decide
    rw [hpage]
    unfold vpage
    omega
  have himage : path w ≠ [511, 510, 1] := by
    intro h
    have hslot : (slot (getPML4Index w)).val = 511 := congrArg Fin.val (List.cons.inj h).1
    rw [slot_val_pml4] at hslot
    omega
  show walk k₃.mem root w = _
  rw [hwalk₃, if_neg hvideo, hwalk₂, hwalk₁ w himage]

/-- The machine before `mem_alloc`, with zero-filled memory. -/
def zeroKernel : Kernel := ⟨fun _ => 0, Frames.zero, 0, 0⟩

end

end Sbunix
