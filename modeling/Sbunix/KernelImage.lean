import Sbunix.Boot

/-!
# The mapping of the kernel image

`pagetable_init` builds one table of each level and then stores an entry for every page between
`physbase` and `physfree`. The PT is chosen once, from the address of the first page, and the index
of each entry is taken modulo 512: from the 513th page on, an entry replaces an earlier one.

`mapKernelPages_entry` gives the contents of the PT after the loop, and `kernel_image_mapped_iff`
when they map the whole image.
-/

namespace Sbunix

open Lib Lib.Radix

/-! ## The page table after the loop -/

/-- The entry for page `i` of the image. -/
def imageEntry (i : Nat) : UInt64 :=
  (physbase + 0x1000 * UInt64.ofNat i) ||| (pteP ||| pteW ||| pteU)

/-- The last of the first `c` pages that has its entry in slot `j`. -/
def lastPage (c j : Nat) : Nat := j + 512 * ((c - 1 - j) / 512)

theorem ptSlot_kernmem (i : Nat) :
    (ptSlot (kernmem + 0x1000 * UInt64.ofNat i)).val = i % 512 := by
  have hbase : kernmem.toNat = 0xffffffff80200000 := rfl
  have h1000 : (0x1000 : UInt64).toNat = 0x1000 := rfl
  rw [ptSlot, slot_val, getPTIndex_toNat, UInt64.toNat_add, UInt64.toNat_mul, UInt64.toNat_ofNat',
    hbase, h1000]
  · omega
  · rw [getPTIndex_toNat]
    exact Nat.mod_lt _ (by decide)

theorem lastPage_succ (c j : Nat) (hj : j < 512) (hc : j < c + 1) :
    lastPage (c + 1) j = if j = c % 512 then c else lastPage c j := by
  unfold lastPage
  split_ifs with h <;> omega

section

variable {t : Nat} {pt : UInt64} {k : Kernel}

theorem entry_mapKernelPage (hpt : pt.toNat = 4096 * t) (i f : Nat) (j : Fin 512) :
    entry (mapKernelPage pt k i).mem f j =
      if f = t ∧ j.val = i % 512 then imageEntry i else entry k.mem f j := by
  have hidx : (getPTIndex (kernmem + 0x1000 * UInt64.ofNat i)).toNat =
      (ptSlot (kernmem + 0x1000 * UInt64.ofNat i)).val := toNat_and_511 _
  rw [mapKernelPage, entry_setPtEntry hpt hidx, Lib.Radix.set]
  simp only [Fin.ext_iff, ptSlot_kernmem]
  rfl

theorem pml4_foldl (pt : UInt64) (k : Kernel) (is : List Nat) :
    (is.foldl (mapKernelPage pt) k).pml4 = k.pml4 := by
  induction is generalizing k with
  | nil => rfl
  | cons i is ih => exact ih (mapKernelPage pt k i)

/-- After `c` iterations a slot of the PT holds the last page stored in it. -/
theorem mapKernelPages_entry (hpt : pt.toNat = 4096 * t) (c f : Nat) (j : Fin 512) :
    entry ((List.range c).foldl (mapKernelPage pt) k).mem f j =
      if f = t ∧ j.val < c then imageEntry (lastPage c j) else entry k.mem f j := by
  induction c with
  | zero => rw [if_neg fun h => Nat.not_lt_zero _ h.2]; rfl
  | succ c ih =>
    rw [List.range_succ, List.foldl_append, List.foldl_cons, List.foldl_nil,
      entry_mapKernelPage hpt, ih]
    by_cases hf : f = t
    · have hj := j.isLt
      by_cases hlast : j.val = c % 512
      · have hlt : j.val < c + 1 := by omega
        rw [if_pos ⟨hf, hlast⟩, if_pos ⟨hf, hlt⟩, lastPage_succ c j hj hlt, if_pos hlast]
      · rw [if_neg fun h => hlast h.2]
        by_cases hlt : j.val < c
        · rw [if_pos ⟨hf, hlt⟩, if_pos ⟨hf, Nat.lt_succ_of_lt hlt⟩,
            lastPage_succ c j hj (Nat.lt_succ_of_lt hlt), if_neg hlast]
        · have hlt' : ¬ j.val < c + 1 := by omega
          rw [if_neg fun h => hlt h.2, if_neg fun h => hlt' h.2]
    · rw [if_neg fun h => hf h.1, if_neg fun h => hf h.1, if_neg fun h => hf h.1]

end

/-! ## The tables above it -/

/-- The path `p` from `r` ends in the table `t`, which is blank, as are the next free frames
`new`. -/
structure Spine (k : Kernel) (r : Nat) (p : List (Fin 512)) (t : Nat) (new fl : List Nat) :
    Prop where
  table : k.table r p = some t
  free : FreeFrames k.frames (new ++ fl)
  blank : ∀ f ∈ t :: new, ∀ j, entry k.mem f j = 0
  notMem : t ∉ new

section

variable {k : Kernel} {r t f : Nat} {p : List (Fin 512)} {i : Fin 512} {new fl : List Nat}
  {table index : UInt64}

theorem Spine.next_none (h : Spine k r p t new fl) (i : Fin 512) : k.below t i = none := by
  rw [Kernel.below, next, h.blank t (by simp)]
  rfl

/-- No address below a blank table is mapped. -/
theorem Spine.walk_none (h : Spine k r p t new fl) {w : UInt64} (hw : p <+: path w) :
    walk k.mem r w = none := by
  obtain ⟨q, hq⟩ := hw
  rw [walk, ← hq]
  cases q with
  | nil =>
    rw [List.append_nil, leafAt_of h.table, h.blank t (by simp)]
    rfl
  | cons i q =>
    apply leafAt_eq_none
    rw [tableAt_append_of h.table, tableAt_cons]
    exact Option.bind_eq_none_iff.2 fun u hu => absurd ((h.next_none i).symm.trans hu) (by simp)

/-- Linking the next frame makes the spine longer. -/
theorem Spine.tableAlloc (h : Spine k r p t (f :: new) fl) (htab : table.toNat = 4096 * t)
    (hidx : index.toNat = i.val) :
    ∃ a k', tableAlloc table index k = some (a, k') ∧ a.toNat = 4096 * f ∧ k'.pml4 = k.pml4 ∧
      Spine k' r (p ++ [i]) f new fl := by
  obtain ⟨a, halloc, ha, hfree⟩ := h.free.pageAllocAddr_cons
  have hnodup : f ∉ new ++ fl := (List.nodup_cons.1 h.free.nodup).1
  have htarget : pte.target (a ||| pteFlags) = f := by
    rw [target_or a (by decide)]
    show a.toNat / 4096 = f
    omega
  have hent : entry (k.pop.setPtEntry table index (a ||| pteFlags)).mem =
      Lib.Radix.set (entry k.mem) t i (a ||| pteFlags) := entry_setPtEntry (k := k.pop) htab hidx _
  refine ⟨a, k.pop.setPtEntry table index (a ||| pteFlags), ?_, ha, rfl, ?_, hfree, ?_, ?_⟩
  · rw [Sbunix.tableAlloc, halloc]
    rfl
  · rw [Kernel.table, hent, tableAt_link_self (h.next_none i) h.table (present_or_flags a), htarget]
  · intro g hg j
    have hgt : g ≠ t := by
      rintro rfl
      exact h.notMem hg
    rw [hent, set_of_ne fun hgj => hgt hgj.1]
    exact h.blank g (List.mem_cons_of_mem t hg) j
  · exact fun hf => hnodup (List.mem_append_left fl hf)

/-- The image entries do not change the tables above them. -/
theorem Spine.mapKernelPages (h : Spine k r p t new fl) {pt : UInt64} (hpt : pt.toNat = 4096 * t)
    (c : Nat) {w : UInt64} (hw : path w = p) :
    walk ((List.range c).foldl (mapKernelPage pt) k).mem r w =
      if (ptSlot w).val < c then some (imageEntry (lastPage c (ptSlot w))) else none := by
  have htable :
      tableAt pte (entry ((List.range c).foldl (mapKernelPage pt) k).mem) r p = some t := by
    rw [← h.table]
    apply tableAt_congr
    intro p₁ i p₂ u hp hu
    have hut : u ≠ t := by
      rintro rfl
      have hend := h.table
      rw [hp, Kernel.table, tableAt_append_of hu, tableAt_cons] at hend
      obtain ⟨x, hx, -⟩ := Option.bind_eq_some_iff.1 hend
      exact absurd ((h.next_none i).symm.trans hx) (by simp)
    have hentry := (mapKernelPages_entry (k := k) hpt c u i).trans (if_neg fun hc => hut hc.1)
    rw [next, next, hentry]
  have hentry := mapKernelPages_entry (k := k) hpt c t (ptSlot w)
  rw [walk, hw, leafAt_of htable]
  by_cases hlt : (ptSlot w).val < c
  · rw [hentry.trans (if_pos ⟨rfl, hlt⟩), if_pos hlt]
    exact if_pos (present_or_flags _)
  · rw [hentry.trans (if_neg fun hc => hlt hc.2), if_neg hlt, h.blank t (by simp)]
    rfl

end

/-- The number of iterations of the loop. -/
def imagePages (physfree : UInt64) : Nat := (physfree.toNat - physbase.toNat + 0xFFF) / 0x1000

/-- What an address of the image is mapped to after `pagetable_init`. Nothing is, when one of the
four table frames is frame 0: the function takes its address for a failure. -/
theorem pagetableInit_image {k : Kernel} {r f₁ f₂ f₃ : Nat} {fl : List Nat}
    (hfree : FreeFrames k.frames (r :: f₁ :: f₂ :: f₃ :: fl))
    (hzero : ∀ f ∈ [r, f₁, f₂, f₃], ZeroPage k.mem f) (physfree : UInt64) :
    ∃ k', pagetableInit physfree k = some k' ∧ k'.pml4.toNat = 4096 * r ∧
      ∀ w, path w = [511, 510, 1] → walk k'.mem r w =
        if 0 ∉ [r, f₁, f₂, f₃] ∧ (ptSlot w).val < imagePages physfree then
          some (imageEntry (lastPage (imagePages physfree) (ptSlot w))) else none := by
  obtain ⟨pml4, halloc, hpml4, hfree₀⟩ := hfree.pageAllocAddr_cons
  have hnull : ∀ {a : UInt64} {f : Nat}, a.toNat = 4096 * f → f = 0 → a = 0 := by
    intro a f ha hf
    apply UInt64.toNat_inj.1
    rw [ha, hf]
    rfl
  unfold pagetableInit
  simp only [halloc, Option.bind_eq_bind, Option.bind_some]
  have h₀ : Spine { k.pop with pml4 := pml4 } r [] r [f₁, f₂, f₃] fl :=
    ⟨rfl, hfree₀, fun f hf => entry_zero (hzero f hf), fun hr =>
      (List.nodup_cons.1 hfree.nodup).1 (List.mem_append_left fl hr)⟩
  by_cases hz₀ : r = 0
  · refine ⟨_, if_pos (hnull hpml4 hz₀), hpml4, fun w hw => ?_⟩
    rw [if_neg fun h => h.1 (by simp [hz₀]), h₀.walk_none List.nil_prefix]
  rw [if_neg (ne_zero_of_frame hpml4 hz₀)]
  obtain ⟨a₁, k₁, hsome₁, ha₁, hroot₁, h₁⟩ := h₀.tableAlloc hpml4
    (show (getPML4Index kernmem).toNat = (511 : Fin 512).val by decide)
  simp only [pdptAlloc, hsome₁, Option.bind_some]
  by_cases hz₁ : f₁ = 0
  · refine ⟨_, if_pos (hnull ha₁ hz₁), by rw [hroot₁, hpml4], fun w hw => ?_⟩
    rw [if_neg fun h => h.1 (by simp [hz₁]), h₁.walk_none (by rw [hw]; exact ⟨[510, 1], rfl⟩)]
  rw [if_neg (ne_zero_of_frame ha₁ hz₁)]
  obtain ⟨a₂, k₂, hsome₂, ha₂, hroot₂, h₂⟩ := h₁.tableAlloc ha₁
    (show (getPDPTIndex kernmem).toNat = (510 : Fin 512).val by decide)
  simp only [pdtAlloc, hsome₂, Option.bind_some]
  by_cases hz₂ : f₂ = 0
  · refine ⟨_, if_pos (hnull ha₂ hz₂), by rw [hroot₂, hroot₁, hpml4], fun w hw => ?_⟩
    rw [if_neg fun h => h.1 (by simp [hz₂]), h₂.walk_none (by rw [hw]; exact ⟨[1], rfl⟩)]
  rw [if_neg (ne_zero_of_frame ha₂ hz₂)]
  obtain ⟨a₃, k₃, hsome₃, ha₃, hroot₃, h₃⟩ := h₂.tableAlloc ha₂
    (show (getPDTIndex kernmem).toNat = (1 : Fin 512).val by decide)
  simp only [ptAlloc, hsome₃, Option.bind_some]
  have hroot : k₃.pml4 = pml4 := by rw [hroot₃, hroot₂, hroot₁]
  by_cases hz₃ : f₃ = 0
  · refine ⟨_, if_pos (hnull ha₃ hz₃), by rw [hroot, hpml4], fun w hw => ?_⟩
    rw [if_neg fun h => h.1 (by simp [hz₃]), h₃.walk_none (by rw [hw]; exact List.prefix_rfl)]
  rw [if_neg (ne_zero_of_frame ha₃ hz₃)]
  refine ⟨_, rfl, ?_, fun w hw => ?_⟩
  · rw [Sbunix.mapKernelPages, pml4_foldl, hroot, hpml4]
  · refine (h₃.mapKernelPages ha₃ (imagePages physfree) hw).trans ?_
    have hne : 0 ∉ [r, f₁, f₂, f₃] := by
      simp only [List.mem_cons, List.not_mem_nil, or_false, not_or]
      exact ⟨Ne.symm hz₀, Ne.symm hz₁, Ne.symm hz₂, Ne.symm hz₃⟩
    simp only [hne, not_false_eq_true, true_and]

/-! ## The whole image -/

/-- Every page from `physbase` to `physfree` is mapped at its linked address. -/
def ImageMapped (physfree : UInt64) (k : Kernel) : Prop :=
  ∀ p : UInt64, p.toNat % 4096 = 0 → physbase ≤ p → p < physfree →
    ∃ e, walk k.mem (k.pml4.toNat / 4096) (kernmem + (p - physbase)) = some e ∧
      pte.target e = p.toNat / 4096

/-- The pages of the image by number. -/
theorem imagePage_eq {p physfree : UInt64} (halign : p.toNat % 4096 = 0) (hbase : physbase ≤ p)
    (hp : p < physfree) : ∃ i < imagePages physfree, p = physbase + 0x1000 * UInt64.ofNat i ∧
      p.toNat = 0x200000 + 4096 * i := by
  have hphys : physbase.toNat = 0x200000 := rfl
  have h1000 : (0x1000 : UInt64).toNat = 0x1000 := rfl
  have hlo : physbase.toNat ≤ p.toNat := UInt64.le_iff_toNat_le.1 hbase
  have hhi : p.toNat < physfree.toNat := UInt64.lt_iff_toNat_lt.1 hp
  have hbound := p.toNat_lt
  refine ⟨(p.toNat - 0x200000) / 4096, ?_, ?_, by omega⟩
  · unfold imagePages
    omega
  · apply UInt64.toNat_inj.1
    rw [UInt64.toNat_add, UInt64.toNat_mul, UInt64.toNat_ofNat', hphys, h1000]
    omega

theorem target_imageEntry {i : Nat} (hi : 0x200000 + 4096 * i < 2 ^ 64) :
    pte.target (imageEntry i) = 0x200 + i := by
  have hphys : physbase.toNat = 0x200000 := rfl
  have h1000 : (0x1000 : UInt64).toNat = 0x1000 := rfl
  rw [imageEntry, target_or _ (by decide)]
  show (physbase + 0x1000 * UInt64.ofNat i).toNat / 4096 = _
  rw [UInt64.toNat_add, UInt64.toNat_mul, UInt64.toNat_ofNat', hphys, h1000]
  omega

/-- The first 512 pages share the PT of the kernel's linked address. -/
theorem path_kernmem {i : Nat} (hi : i < 512) :
    path (kernmem + 0x1000 * UInt64.ofNat i) = [511, 510, 1] := by
  have hval : (kernmem + 0x1000 * UInt64.ofNat i).toNat = 0xffffffff80200000 + 4096 * i := by
    have hbase : kernmem.toNat = 0xffffffff80200000 := rfl
    have h1000 : (0x1000 : UInt64).toNat = 0x1000 := rfl
    rw [UInt64.toNat_add, UInt64.toNat_mul, UInt64.toNat_ofNat', hbase, h1000]
    omega
  have h₄ : (getPML4Index (kernmem + 0x1000 * UInt64.ofNat i)).toNat = 511 := by
    rw [getPML4Index_toNat, hval]
    omega
  have h₃ : (getPDPTIndex (kernmem + 0x1000 * UInt64.ofNat i)).toNat = 510 := by
    rw [getPDPTIndex_toNat, hval]
    omega
  have h₂ : (getPDTIndex (kernmem + 0x1000 * UInt64.ofNat i)).toNat = 1 := by
    rw [getPDTIndex_toNat, hval]
    omega
  rw [path, slot, slot, slot, h₄, h₃, h₂]
  rfl

theorem imageMapped_iff {k : Kernel} {r : Nat} {l : List Nat} {physfree : UInt64}
    (hpml4 : k.pml4.toNat = 4096 * r)
    (hwalk : ∀ w, path w = [511, 510, 1] → walk k.mem r w =
      if 0 ∉ l ∧ (ptSlot w).val < imagePages physfree then
        some (imageEntry (lastPage (imagePages physfree) (ptSlot w))) else none)
    (halign : physfree.toNat % 4096 = 0) (hbase : physbase < physfree) :
    ImageMapped physfree k ↔ physfree.toNat ≤ 0x400000 ∧ 0 ∉ l := by
  have hroot : k.pml4.toNat / 4096 = r := by omega
  have hphys : physbase.toNat = 0x200000 := rfl
  have hlt : physbase.toNat < physfree.toNat := UInt64.lt_iff_toNat_lt.1 hbase
  have hbound := physfree.toNat_lt
  have hpages : 0x200000 + 4096 * imagePages physfree = physfree.toNat := by
    unfold imagePages
    omega
  constructor
  · intro hmapped
    -- The first page of the image, at the linked address itself.
    obtain ⟨e, he, htarget⟩ := hmapped physbase rfl (UInt64.le_refl _) hbase
    have haddr : kernmem + (physbase - physbase) = kernmem + 0x1000 * UInt64.ofNat 0 := rfl
    have hslot : (ptSlot (kernmem + 0x1000 * UInt64.ofNat 0)).val = 0 := ptSlot_kernmem 0
    rw [hroot, haddr, hwalk _ (path_kernmem (by decide)), hslot] at he
    split_ifs at he with hcond
    obtain rfl := Option.some.inj he
    have hlast : lastPage (imagePages physfree) 0 < imagePages physfree := by
      unfold lastPage
      omega
    rw [target_imageEntry (by omega), hphys] at htarget
    refine ⟨?_, hcond.1⟩
    unfold lastPage at htarget
    omega
  · intro hcond p hp hlo hhi
    obtain ⟨i, hi, hpi, hpval⟩ := imagePage_eq hp hlo hhi
    have hi512 : i < 512 := by omega
    have haddr : kernmem + (p - physbase) = kernmem + 0x1000 * UInt64.ofNat i := by
      rw [hpi, UInt64.add_comm physbase, UInt64.add_sub_cancel]
    have hslot : (ptSlot (kernmem + 0x1000 * UInt64.ofNat i)).val = i := by
      rw [ptSlot_kernmem, Nat.mod_eq_of_lt hi512]
    have hlast : lastPage (imagePages physfree) i = i := by
      unfold lastPage
      omega
    refine ⟨imageEntry i, ?_, ?_⟩
    · rw [hroot, haddr, hwalk _ (path_kernmem hi512), hslot, if_pos ⟨hcond.2, hi⟩, hlast]
    · rw [target_imageEntry (by omega), hpval]
      omega

theorem exists_four {fl : List Nat} (h : 4 ≤ fl.length) :
    ∃ r f₁ f₂ f₃ rest, fl = r :: f₁ :: f₂ :: f₃ :: rest := by
  rcases fl with - | ⟨r, - | ⟨f₁, - | ⟨f₂, - | ⟨f₃, rest⟩⟩⟩⟩
  all_goals first | exact ⟨_, _, _, _, _, rfl⟩ | simp at h

/-- **Kernel image mapping.** `pagetable_init` maps every page of the image exactly when the image
ends within the 2 MiB of one PT, and no table was placed in frame 0. -/
theorem kernel_image_mapped_iff (physfree : UInt64) (k : Kernel) (fl : List Nat)
    (hfree : FreeFrames k.frames fl) (hlen : 4 ≤ fl.length)
    (hzero : ∀ f ∈ fl.take 4, ZeroPage k.mem f) (halign : physfree.toNat % 4096 = 0)
    (hbase : physbase < physfree) :
    (∃ k', pagetableInit physfree k = some k' ∧ ImageMapped physfree k') ↔
      physfree.toNat ≤ 0x400000 ∧ 0 ∉ fl.take 4 := by
  obtain ⟨r, f₁, f₂, f₃, rest, rfl⟩ := exists_four hlen
  obtain ⟨k', hsome, hpml4, hwalk⟩ := pagetableInit_image hfree hzero physfree
  refine Iff.trans ?_ (imageMapped_iff hpml4 hwalk halign hbase)
  constructor
  · rintro ⟨k'', hk'', hmapped⟩
    obtain rfl := Option.some.inj (hsome.symm.trans hk'')
    exact hmapped
  · exact fun hmapped => ⟨k', hsome, hmapped⟩

/-- The machine after `page_init`, with zero-filled memory. -/
def pageInitKernel (physfree : UInt64) (n : Nat) : Kernel :=
  { zeroKernel with frames := pageInit physfree n Frames.zero }

theorem freeFrames_pageInitKernel (physfree : UInt64) {n : Nat} (hn : n < 2 ^ 31) :
    FreeFrames (pageInitKernel physfree n).frames (initFree physfree n) :=
  freeFrames_pageInit physfree hn

/-- The kernel ends at 3 MiB. -/
theorem kernel_image_mapped_small :
    ∃ k', pagetableInit 0x300000 (pageInitKernel 0x300000 0x500) = some k' ∧
      ImageMapped 0x300000 k' := by
  have hmemory : (pageInitMemory 0x300000 0x500).toNat = 0x302 := by decide
  refine (kernel_image_mapped_iff 0x300000 (pageInitKernel 0x300000 0x500) (initFree 0x300000 0x500)
    (freeFrames_pageInitKernel 0x300000 (by decide)) ?_ (fun _ _ _ _ => rfl) (by decide)
    (by decide)).2 ⟨by decide, ?_⟩
  · rw [length_initFree, hmemory]
    decide
  · intro h
    have hlo := (mem_initFree.1 (List.mem_of_mem_take h)).1
    rw [hmemory] at hlo
    exact absurd hlo (by decide)

/-- The kernel ends at 6 MiB: the linked address of its first page leads to another page. -/
theorem kernel_image_overwritten :
    ¬ ∃ k', pagetableInit 0x600000 (pageInitKernel 0x600000 0x800) = some k' ∧
      ImageMapped 0x600000 k' := by
  rintro ⟨k', hk', hmapped⟩
  have hmemory : (pageInitMemory 0x600000 0x800).toNat = 0x604 := by decide
  have hfree : FreeFrames (pageInitKernel 0x600000 0x800).frames (initFree 0x600000 0x800) :=
    freeFrames_pageInitKernel 0x600000 (by decide)
  have hlen : 4 ≤ (initFree 0x600000 0x800).length := by
    rw [length_initFree, hmemory]
    decide
  obtain ⟨r, f₁, f₂, f₃, rest, hfl⟩ := exists_four hlen
  rw [hfl] at hfree
  obtain ⟨k'', hsome, hpml4, hwalk⟩ := pagetableInit_image hfree (fun _ _ _ _ => rfl) 0x600000
  obtain rfl := Option.some.inj (hsome.symm.trans hk')
  exact absurd ((imageMapped_iff hpml4 hwalk (by decide) (by decide)).1 hmapped).1 (by decide)

end Sbunix
