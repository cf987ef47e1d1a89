import Sbunix.PageTables
import Mathlib.Data.Finset.Card

/-!
# Tables, free frames, and what an allocation may change

`Paging S R k fl` is the invariant of the page tables in memory: the PML4 frames `R` form a forest
over the paths `S`, and the free list holds the frames `fl`, which are distinct, outside the forest
and without a present entry.

Every change the kernel makes to its tables is one of two stores: a fresh table is linked into an
absent entry (`tableAlloc_spec`), or an entry past the end of the paths of `S` is written
(`setPtEntry_spec`). Both are instances of `Extends`, which collects what stays true across any
number of them: the tables that were there stay where they were, new ones come off the free
list, other PML4s keep their entries, and no other frame changes.

`map_process` is three possible links and one store (`mapPage_spec`).
-/

namespace Sbunix

open Lib Lib.Radix

/-! ## The invariant -/

namespace Kernel

/-- The table that a path from the PML4 in frame `r` leads to. -/
abbrev table (k : Kernel) (r : Nat) (q : List (Fin 512)) : Option Nat :=
  tableAt pte (entry k.mem) r q

/-- The present entry at the end of a path. -/
abbrev leaf (k : Kernel) (r : Nat) (q : List (Fin 512)) (j : Fin 512) : Option UInt64 :=
  leafAt pte (entry k.mem) r q j

/-- The table below one entry. -/
abbrev below (k : Kernel) (r : Nat) (i : Fin 512) : Option Nat := next pte (entry k.mem) r i

end Kernel

/-- The free list holds the frames `fl`, in this order and each once. -/
structure FreeFrames (a : Frames) (fl : List Nat) : Prop where
  chain : ∃ l, Chain a.next a.freeList l ∧
    l.map (fun p => (a.pages p).addr.toNat) = fl.map (4096 * ·)
  nodup : fl.Nodup

/-- The page tables of the PML4s `R` along the paths `S`, beside the free frames `fl`. -/
structure Paging (S : Set (List (Fin 512))) (R : Set Nat) (k : Kernel) (fl : List Nat) : Prop where
  forest : Forest pte (entry k.mem) S R
  free : FreeFrames k.frames fl
  fresh : ∀ f ∈ fl, Fresh pte (entry k.mem) S R f
  blank : ∀ f ∈ fl, Blank k.mem f

/-- What links and stores in the tables of the PML4 `s` keep, from `k` with free frames `fl` to
`k'` with free frames `fl'`. -/
structure Extends (S : Set (List (Fin 512))) (R : Set Nat) (s : Nat) (k k' : Kernel)
    (fl fl' : List Nat) : Prop where
  paging : Paging S R k' fl'
  suffix : fl' <:+ fl
  tables : ∀ {r q f}, r ∈ R → q ∈ S → k.table r q = some f → k'.table r q = some f
  new : ∀ {r q f}, r ∈ R → q ∈ S → k'.table r q = some f → k.table r q = some f ∨ f ∈ fl
  roots : ∀ {r}, r ∈ R → r ≠ s → ∀ j, k'.below r j = k.below r j
  data : ∀ {g}, Fresh pte (entry k.mem) S R g → g ∉ fl → SamePage k.mem k'.mem g
  cr3 : k'.cr3 = k.cr3
  pml4 : k'.pml4 = k.pml4
  separate : Separate pte (entry k.mem) S R → Separate pte (entry k'.mem) S R ∧
    ∀ {r q}, r ∈ R → r ≠ s → q ∈ S → k'.table r q = k.table r q

section

variable {S : Set (List (Fin 512))} {R : Set Nat} {s t f : Nat} {k k' k'' : Kernel}
  {fl fl' fl'' : List Nat} {p q : List (Fin 512)} {i j : Fin 512} {table index : UInt64}

theorem Extends.refl (h : Paging S R k fl) : Extends S R s k k fl fl where
  paging := h
  suffix := List.suffix_rfl
  tables _ _ h := h
  new _ _ h := Or.inl h
  roots _ _ _ := rfl
  data _ _ := SamePage.refl _ _
  cr3 := rfl
  pml4 := rfl
  separate h := ⟨h, fun _ _ _ => rfl⟩

/-- A frame that is neither a table nor free stays so. -/
theorem Extends.keeps_fresh (h : Extends S R s k k' fl fl')
    (hg : Fresh pte (entry k.mem) S R f) (hf : f ∉ fl) : Fresh pte (entry k'.mem) S R f := by
  intro r hr q hq hq'
  rcases h.new hr hq hq' with hold | hfl
  · exact hg r hr q hq hold
  · exact hf hfl

theorem Extends.trans (h : Extends S R s k k' fl fl') (h' : Extends S R s k' k'' fl' fl'') :
    Extends S R s k k'' fl fl'' where
  paging := h'.paging
  suffix := h'.suffix.trans h.suffix
  tables hr hq hf := h'.tables hr hq (h.tables hr hq hf)
  new hr hq hf := by
    rcases h'.new hr hq hf with hf | hf
    · exact h.new hr hq hf
    · exact Or.inr (h.suffix.subset hf)
  roots hr hne j := (h'.roots hr hne j).trans (h.roots hr hne j)
  data hg hgf :=
    (h.data hg hgf).trans (h'.data (h.keeps_fresh hg hgf) fun hg' => hgf (h.suffix.subset hg'))
  cr3 := h'.cr3.trans h.cr3
  pml4 := h'.pml4.trans h.pml4
  separate hsep := by
    obtain ⟨hsep', htab⟩ := h.separate hsep
    obtain ⟨hsep'', htab'⟩ := h'.separate hsep'
    exact ⟨hsep'', fun hr hne hq => (htab' hr hne hq).trans (htab hr hne hq)⟩

/-! ## Taking a frame off the free list -/

/-- The kernel after `page_alloc`. -/
def Kernel.pop (k : Kernel) : Kernel := { k with frames := (pageAlloc k.frames).2 }

theorem FreeFrames.pageAllocAddr_nil (h : FreeFrames k.frames []) : k.pageAllocAddr = none := by
  obtain ⟨⟨l, hchain, hmap⟩, -⟩ := h
  obtain rfl : l = [] := by simpa using hmap
  rw [Chain.nil_iff] at hchain
  simp [Kernel.pageAllocAddr, pageAlloc, hchain]

theorem FreeFrames.pageAllocAddr_cons (h : FreeFrames k.frames (f :: fl)) :
    ∃ a, k.pageAllocAddr = some (a, k.pop) ∧ a.toNat = 4096 * f ∧ FreeFrames k.pop.frames fl := by
  obtain ⟨⟨l, hchain, hmap⟩, hnodup⟩ := h
  cases l with
  | nil => simp at hmap
  | cons p l =>
    obtain ⟨hp, hl⟩ := hchain
    simp only [List.map_cons, List.cons.injEq] at hmap
    have hpop : k.pop.frames = { k.frames with freeList := k.frames.next p } := by
      simp [Kernel.pop, pageAlloc, hp]
    refine ⟨(k.frames.pages p).addr, ?_, hmap.1, ⟨l, ?_, ?_⟩, (List.nodup_cons.1 hnodup).2⟩
    · simp [Kernel.pageAllocAddr, pageAlloc, hp, Kernel.pop]
    · rw [hpop]
      exact hl
    · rw [hpop]
      exact hmap.2

/-! ## The two stores -/

theorem ptEntry_eq (htab : table.toNat = 4096 * t) (hidx : index.toNat = i.val) :
    k.ptEntry table index = entry k.mem t i := by
  rw [Kernel.ptEntry, htab, hidx, entry]

theorem setPtEntry_mem (htab : table.toNat = 4096 * t) (hidx : index.toNat = i.val) (e : UInt64) :
    (k.setPtEntry table index e).mem = write64 k.mem (4096 * t + 8 * i) e := by
  rw [Kernel.setPtEntry, htab, hidx]

theorem entry_setPtEntry (htab : table.toNat = 4096 * t) (hidx : index.toNat = i.val)
    (e : UInt64) : entry (k.setPtEntry table index e).mem = set (entry k.mem) t i e := by
  funext g j
  rw [setPtEntry_mem htab hidx, entry_write64]
  rfl

theorem samePage_setPtEntry (htab : table.toNat = 4096 * t) (hidx : index.toNat = i.val)
    (e : UInt64) (hne : f ≠ t) : SamePage k.mem (k.setPtEntry table index e).mem f := by
  rw [setPtEntry_mem htab hidx]
  exact samePage_write64 k.mem i e hne

section Stores

variable (hS : PrefixClosed S) (htab : table.toNat = 4096 * t) (hidx : index.toNat = i.val)
include hS htab hidx

/-- A store past the end of the paths moves no table, and changes the entry it writes for the
PML4s that reach the table. -/
theorem setPtEntry_spec (h : Paging S R k fl) (hs : s ∈ R) (hp : p ∈ S)
    (ht : k.table s p = some t) (hend : p ++ [i] ∉ S) (e : UInt64) :
    Extends S R s k (k.setPtEntry table index e) fl fl ∧
      (∀ {r q}, r ∈ R → q ∈ S → (k.setPtEntry table index e).table r q = k.table r q) ∧
      ∀ {r q j}, r ∈ R → q ∈ S → (k.setPtEntry table index e).leaf r q j =
        if k.table r q = some t ∧ j = i then if pte.present e then some e else none
        else k.leaf r q j := by
  have hent := entry_setPtEntry (k := k) htab hidx e
  have htables : ∀ {r q}, r ∈ R → q ∈ S →
      (k.setPtEntry table index e).table r q = k.table r q := by
    intro r q hr hq
    rw [Kernel.table, hent]
    exact h.forest.tableAt_write hS hs hp ht hend hr hq
  have hpaging : Paging S R (k.setPtEntry table index e) fl := by
    refine ⟨?_, h.free, fun f hf r hr q hq => ?_, fun f hf => ?_⟩
    · rw [hent]
      exact h.forest.write hS hs hp ht hend
    · rw [← Kernel.table, htables hr hq]
      exact h.fresh f hf r hr q hq
    · have hft : f ≠ t := fun hft => h.fresh f hf s hs p hp (hft ▸ ht)
      exact (h.blank f hf).congr (samePage_setPtEntry htab hidx e hft)
  refine ⟨⟨hpaging, List.suffix_rfl, fun hr hq hf => ?_, fun hr hq hf => ?_,
    fun hr hne j => ?_, fun hg hgf => ?_, rfl, rfl, fun hsep => ⟨?_, ?_⟩⟩, htables, ?_⟩
  · rw [htables hr hq]; exact hf
  · rw [htables hr hq] at hf; exact Or.inl hf
  · rw [Kernel.below, hent]
    refine next_set_of_ne fun hrt => hne ?_
    obtain rfl : [] = p := h.forest.path_eq hr hs hS.nil hp (by rw [hrt.1]; rfl) ht
    exact hrt.1.trans (Option.some.inj ht).symm
  · refine samePage_setPtEntry htab hidx e fun hgt => ?_
    exact hg s hs p hp (hgt ▸ ht)
  · rw [hent]
    exact separate_congr hsep fun r hr q hq => h.forest.tableAt_write hS hs hp ht hend hr hq
  · exact fun hr _ hq => htables hr hq
  · intro r q j hr hq
    rw [Kernel.leaf, hent]
    exact h.forest.leafAt_write hS hs hp ht hend hr hq

end Stores

/-! ## Linking the next free frame -/

/-- An entry that makes the first free frame a table. -/
structure LinksTo (S : Set (List (Fin 512))) (R : Set Nat) (k : Kernel) (f : Nat) (e : UInt64) :
    Prop where
  target : pte.target e = f
  present : pte.present e = true
  fresh : Fresh pte (entry k.mem) S R (pte.target e)
  blank : ∀ j, next pte (entry k.mem) (pte.target e) j = none

theorem linksTo_flags (h : Paging S R k (f :: fl)) {a : UInt64} (ha : a.toNat = 4096 * f) :
    LinksTo S R k f (a ||| (pteP ||| pteW ||| pteU)) := by
  have htarget : pte.target (a ||| (pteP ||| pteW ||| pteU)) = f := by
    rw [target_or a (by decide)]
    show a.toNat / 4096 = f
    omega
  refine ⟨htarget, present_or_flags a, ?_, ?_⟩
  · rw [htarget]
    exact h.fresh f (by simp)
  · intro j
    rw [htarget]
    exact (h.blank f (by simp)).next j

section Link

variable {e : UInt64} (hS : PrefixClosed S) (htab : table.toNat = 4096 * t)
variable (hidx : index.toNat = i.val) (h : Paging S R k (f :: fl)) (hs : s ∈ R)
variable (hp : p ++ [i] ∈ S) (ht : k.table s p = some t) (hslot : k.below t i = none)
variable (he : LinksTo S R k f e)
include hS htab hidx h hs hp ht hslot he

/-- The only new table is the linked one. -/
theorem table_link_cases {r g : Nat} {q : List (Fin 512)} (hr : r ∈ R) (hq : q ∈ S)
    (hg : (k.pop.setPtEntry table index e).table r q = some g) :
    g = f ∧ q = p ++ [i] ∧ k.table r p = some t ∨ g ≠ f ∧ k.table r q = some g := by
  rw [Kernel.table, entry_setPtEntry (k := k.pop) htab hidx e] at hg
  have := h.forest.tableAt_link_cases hS hs hp ht hslot he.present he.fresh he.blank hr hq hg
  rwa [he.target] at this

theorem table_link_of_ne {r : Nat} {q : List (Fin 512)} (hr : r ∈ R) (hq : q ∈ S)
    (hne : q = p ++ [i] → k.table r p ≠ some t) :
    (k.pop.setPtEntry table index e).table r q = k.table r q := by
  rw [Kernel.table, entry_setPtEntry (k := k.pop) htab hidx e]
  exact h.forest.tableAt_link_of_ne hS hs hp ht hslot he.present he.fresh he.blank hr hq hne

theorem paging_link (hfree : FreeFrames k.pop.frames fl) :
    Paging S R (k.pop.setPtEntry table index e) fl := by
  have hfnot : f ∉ fl := (List.nodup_cons.1 h.free.nodup).1
  refine ⟨?_, hfree, ?_, ?_⟩
  · rw [entry_setPtEntry (k := k.pop) htab hidx e]
    exact h.forest.link hS hs hp ht hslot he.present he.fresh he.blank
  · intro g hg r hr q hq hgq
    rcases table_link_cases hS htab hidx h hs hp ht hslot he hr hq hgq with ⟨rfl, -⟩ | ⟨-, hold⟩
    · exact hfnot hg
    · exact h.fresh g (by simp [hg]) r hr q hq hold
  · intro g hg
    have hgt : g ≠ t := fun hgt => h.fresh g (by simp [hg]) s hs p (hS.left hp) (hgt ▸ ht)
    exact (h.blank g (by simp [hg])).congr (samePage_setPtEntry (k := k.pop) htab hidx e hgt)

theorem extends_link (hfree : FreeFrames k.pop.frames fl) :
    Extends S R s k (k.pop.setPtEntry table index e) (f :: fl) fl := by
  have hent : entry (k.pop.setPtEntry table index e).mem = set (entry k.mem) t i e :=
    entry_setPtEntry (k := k.pop) htab hidx e
  have hother : ∀ {r q}, r ∈ R → q ∈ S → (q = p ++ [i] → k.table r p ≠ some t) →
      (k.pop.setPtEntry table index e).table r q = k.table r q :=
    table_link_of_ne hS htab hidx h hs hp ht hslot he
  have hpS : p ∈ S := hS.left hp
  refine ⟨paging_link hS htab hidx h hs hp ht hslot he hfree, List.suffix_cons f fl, ?_, ?_, ?_, ?_,
    rfl, rfl, ?_⟩
  · intro r q g hr hq hg
    by_cases hnew : q = p ++ [i] ∧ k.table r p = some t
    · obtain ⟨rfl, hrt⟩ := hnew
      have habs : (none : Option Nat) = some g :=
        hslot.symm.trans ((tableAt_snoc hrt).symm.trans hg)
      exact absurd habs (by simp)
    · rw [hother hr hq fun h₁ h₂ => hnew ⟨h₁, h₂⟩]
      exact hg
  · intro r q g hr hq hg
    rcases table_link_cases hS htab hidx h hs hp ht hslot he hr hq hg with ⟨rfl, -⟩ | ⟨-, hold⟩
    · exact Or.inr (by simp)
    · exact Or.inl hold
  · intro r hr hne j
    rw [Kernel.below, hent]
    refine next_set_of_ne fun hrt => hne ?_
    obtain rfl : [] = p := h.forest.path_eq hr hs hS.nil hpS (by rw [hrt.1]; rfl) ht
    exact hrt.1.trans (Option.some.inj ht).symm
  · intro g hg hgf
    exact samePage_setPtEntry (k := k.pop) htab hidx e fun hgt => hg s hs p hpS (hgt ▸ ht)
  · intro hsep
    refine ⟨?_, fun hr hne hq => hother hr hq fun _ hrt => hne ?_⟩
    · rw [hent]
      exact Separate.link hS h.forest hs hp ht hslot he.present he.fresh he.blank hsep
    · exact hsep hr hs hpS hpS hrt ht

end Link

/-- Linking the next free frame into an absent entry. -/
theorem tableAlloc_spec (hS : PrefixClosed S) (htab : table.toNat = 4096 * t)
    (hidx : index.toNat = i.val) (h : Paging S R k (f :: fl)) (hs : s ∈ R) (hp : p ++ [i] ∈ S)
    (ht : k.table s p = some t) (hslot : k.below t i = none) :
    ∃ a k', tableAlloc table index k = some (a, k') ∧ a.toNat = 4096 * f ∧
      Extends S R s k k' (f :: fl) fl ∧ k'.table s (p ++ [i]) = some f ∧
      (∀ {r q}, r ∈ R → q ∈ S → (q = p ++ [i] → k.table r p ≠ some t) →
        k'.table r q = k.table r q) ∧
      ∀ {r q j}, r ∈ R → q ∈ S → (∀ j, q ++ [j] ∉ S) → k'.leaf r q j = k.leaf r q j := by
  obtain ⟨a, hpop, ha, hfree⟩ := h.free.pageAllocAddr_cons
  have he := linksTo_flags h ha
  set e := a ||| (pteP ||| pteW ||| pteU) with hdef
  have hent : entry (k.pop.setPtEntry table index e).mem = set (entry k.mem) t i e :=
    entry_setPtEntry (k := k.pop) htab hidx e
  refine ⟨a, k.pop.setPtEntry table index e, ?_, ha,
    extends_link hS htab hidx h hs hp ht hslot he hfree, ?_,
    table_link_of_ne hS htab hidx h hs hp ht hslot he, ?_⟩
  · simp [tableAlloc, hpop, hdef]
  · rw [Kernel.table, hent, tableAt_link_self hslot ht he.present, he.target]
  · intro r q j hr hq hmax
    rw [Kernel.leaf, hent]
    exact h.forest.leafAt_link hS hs hp ht hslot he.present he.fresh he.blank hr hq hmax

/-! ## Mapping a page -/

section MapPage

variable (hS : PrefixClosed S) (h : Paging S R k fl) (hs : s ∈ R)
include hS h hs

/-- The table below an entry, found or linked in; only the latter needs a free frame. -/
theorem tableOrAlloc_spec {alloc : UInt64 → UInt64 → Kernel → Option (UInt64 × Kernel)}
    (halloc : alloc = tableAlloc) (htab : table.toNat = 4096 * t) (hidx : index.toNat = i.val)
    (hp : p ++ [i] ∈ S) (ht : k.table s p = some t) :
    tableOrAlloc alloc table index k = none ∧ fl = [] ∨
      ∃ a k' fl' u, tableOrAlloc alloc table index k = some (a, k') ∧ a.toNat = 4096 * u ∧
        Extends S R s k k' fl fl' ∧ fl.length ≤ fl'.length + 1 ∧
        k'.table s (p ++ [i]) = some u ∧
        ∀ {r q j}, r ∈ R → q ∈ S → (∀ j, q ++ [j] ∉ S) → k'.leaf r q j = k.leaf r q j := by
  subst halloc
  have hsnoc : k.table s (p ++ [i]) = k.below t i := tableAt_snoc ht
  by_cases hpres : pte.present (entry k.mem t i) = true
  · refine Or.inr ⟨getAddress (entry k.mem t i), k, fl, pte.target (entry k.mem t i), ?_,
      getAddress_toNat _, Extends.refl h, by omega, ?_, fun _ _ _ => rfl⟩
    · rw [tableOrAlloc, ptEntry_eq htab hidx, if_pos (present_iff.1 hpres)]
    · rw [hsnoc, Kernel.below, next, if_pos hpres]
  · have hslot : k.below t i = none := by rw [Kernel.below, next, if_neg hpres]
    have hbranch : tableOrAlloc tableAlloc table index k = tableAlloc table index k := by
      rw [tableOrAlloc, ptEntry_eq htab hidx, if_neg fun hne => hpres (present_iff.2 hne)]
    cases fl with
    | nil =>
      refine Or.inl ⟨?_, rfl⟩
      rw [hbranch, tableAlloc, h.free.pageAllocAddr_nil]
      rfl
    | cons f fl =>
      obtain ⟨a, k', halloc, ha, hext, hlink, -, hleaf⟩ :=
        tableAlloc_spec hS htab hidx h hs hp ht hslot
      exact Or.inr ⟨a, k', fl, f, hbranch.trans halloc, ha, hext, by simp, hlink, hleaf⟩

/-- `map_process` and `map_virt_address`: at most three links below the PML4 `s`, then the store
of the entry. It fails only for want of a frame. -/
theorem mapPage_spec {pml4 v : UInt64} (hpml4 : pml4.toNat = 4096 * s) (hv : path v ∈ S)
    (hmax : ∀ i, path v ++ [i] ∉ S) (paddr : UInt64) :
    mapPage pml4 v paddr k = none ∧ fl.length < 3 ∨
      ∃ k' fl' t, mapPage pml4 v paddr k = some k' ∧ Extends S R s k k' fl fl' ∧
        fl.length ≤ fl'.length + 3 ∧ k'.table s (path v) = some t ∧
        ∀ {r q j}, r ∈ R → q ∈ S → (∀ j, q ++ [j] ∉ S) → k'.leaf r q j =
          if k'.table r q = some t ∧ j = ptSlot v then some (paddr ||| pteFlags)
          else k.leaf r q j := by
  set i₄ := slot (getPML4Index v)
  set i₃ := slot (getPDPTIndex v)
  set i₂ := slot (getPDTIndex v)
  have hi₄ : (getPML4Index v).toNat = i₄.val := toNat_and_511 _
  have hi₃ : (getPDPTIndex v).toNat = i₃.val := toNat_and_511 _
  have hi₂ : (getPDTIndex v).toNat = i₂.val := toNat_and_511 _
  have hi₁ : (getPTIndex v).toNat = (ptSlot v).val := toNat_and_511 _
  have hp₄ : [] ++ [i₄] ∈ S := hS.left (p := [i₄]) (q := [i₃, i₂]) hv
  have hp₃ : [i₄] ++ [i₃] ∈ S := hS.left (p := [i₄, i₃]) (q := [i₂]) hv
  have hp₂ : [i₄, i₃] ++ [i₂] ∈ S := hv
  unfold mapPage
  rcases tableOrAlloc_spec hS h hs (show pdptAlloc = tableAlloc from rfl) hpml4 hi₄ hp₄ rfl with
    ⟨hnone, rfl⟩ | ⟨pdpt, k₁, fl₁, t₁, hsome₁, ha₁, hext₁, hlen₁, ht₁, hleaf₁⟩
  · exact Or.inl ⟨by rw [hnone]; rfl, by simp⟩
  rcases tableOrAlloc_spec hS hext₁.paging hs (show pdtAlloc = tableAlloc from rfl) ha₁ hi₃ hp₃ ht₁
    with
    ⟨hnone, rfl⟩ | ⟨pdt, k₂, fl₂, t₂, hsome₂, ha₂, hext₂, hlen₂, ht₂, hleaf₂⟩
  · refine Or.inl ⟨?_, ?_⟩
    · simp only [hsome₁, Option.bind_eq_bind, Option.bind_some, hnone, Option.bind_none]
    · simp only [List.length_nil] at hlen₁
      omega
  rcases tableOrAlloc_spec hS hext₂.paging hs (show ptAlloc = tableAlloc from rfl) ha₂ hi₂ hp₂ ht₂
    with
    ⟨hnone, rfl⟩ | ⟨pt, k₃, fl₃, t₃, hsome₃, ha₃, hext₃, hlen₃, ht₃, hleaf₃⟩
  · refine Or.inl ⟨?_, ?_⟩
    · simp only [hsome₁, hsome₂, Option.bind_eq_bind, Option.bind_some, hnone, Option.bind_none]
    · simp only [List.length_nil] at hlen₂
      omega
  obtain ⟨hext₄, htables, hleaf₄⟩ := setPtEntry_spec hS ha₃ hi₁ hext₃.paging hs hv ht₃ (hmax _)
    (paddr ||| pteFlags)
  refine Or.inr ⟨_, fl₃, t₃, ?_, ((hext₁.trans hext₂).trans hext₃).trans hext₄, by omega, ?_, ?_⟩
  · simp only [hsome₁, hsome₂, hsome₃, Option.bind_eq_bind, Option.bind_some]
    rfl
  · rw [htables hs hv]
    exact ht₃
  · intro r q j hr hq hq'
    rw [hleaf₄ hr hq, htables hr hq, present_or_flags, if_pos rfl, hleaf₃ hr hq hq',
      hleaf₂ hr hq hq', hleaf₁ hr hq hq']

end MapPage

/-! ## Counting tables -/

/-- The tables needed for the address `v`. -/
def withPath (v : UInt64) (D : Finset (List (Fin 512))) : Finset (List (Fin 512)) :=
  insert (path v) (insert [slot (getPML4Index v), slot (getPDPTIndex v)]
    (insert [slot (getPML4Index v)] D))

theorem subset_withPath (v : UInt64) (D : Finset (List (Fin 512))) : D ⊆ withPath v D := by
  intro q hq
  unfold withPath
  simp only [Finset.mem_insert, hq, or_true]

/-- The path of a PT is none of a table above. -/
theorem path_not_mem_insert {v : UInt64} (i j : Fin 512) {D : Finset (List (Fin 512))}
    (h : path v ∉ D) : path v ∉ insert ([i] ++ [j]) (insert ([] ++ [i]) D) := by
  simp only [Finset.mem_insert, not_or]
  exact ⟨by simp [path], by simp [path], h⟩

theorem getElem?_of_suffix {l l' : List Nat} {x : Nat} (h : x :: l' <:+ l) :
    l[l.length - l'.length - 1]? = some x := by
  obtain ⟨m, rfl⟩ := h
  have hlen : (m ++ x :: l').length - l'.length - 1 = m.length := by
    rw [List.length_append, List.length_cons]
    omega
  rw [hlen, List.getElem?_append_right (Nat.le_refl _), Nat.sub_self, List.getElem?_cons_zero]

/-- The tables below the PML4 `s` are at the paths `D`. -/
structure Tabled (S : Set (List (Fin 512))) (R : Set Nat) (s : Nat) (D : Finset (List (Fin 512)))
    (k : Kernel) (fl : List Nat) : Prop where
  mem : s ∈ R
  paging : Paging S R k fl
  tables : ∀ {q}, q ∈ S → ((k.table s q).isSome ↔ q ∈ D)

section

variable {D : Finset (List (Fin 512))} (hS : PrefixClosed S) (h : Tabled S R s D k fl)
include hS h

theorem tableAlloc_tabled (htab : table.toNat = 4096 * t) (hidx : index.toNat = i.val)
    (hp : p ++ [i] ∈ S) (ht : k.table s p = some t) (hD : p ++ [i] ∉ D) :
    tableAlloc table index k = none ∧ fl = [] ∨
      ∃ a k' f fl', tableAlloc table index k = some (a, k') ∧ fl = f :: fl' ∧ a.toNat = 4096 * f ∧
        Tabled S R s (insert (p ++ [i]) D) k' fl' ∧ Extends S R s k k' fl fl' ∧
        k'.table s (p ++ [i]) = some f ∧
        ∀ {r q j}, r ∈ R → q ∈ S → (∀ j, q ++ [j] ∉ S) → k'.leaf r q j = k.leaf r q j := by
  have hslot : k.below t i = none := by
    have hnone := mt (h.tables hp).1 hD
    rwa [Kernel.table, tableAt_snoc ht, Option.not_isSome_iff_eq_none] at hnone
  cases fl with
  | nil =>
    refine Or.inl ⟨?_, rfl⟩
    rw [tableAlloc, h.paging.free.pageAllocAddr_nil]
    rfl
  | cons f fl =>
    obtain ⟨a, k', halloc, ha, hext, hlink, hother, hleaf⟩ :=
      tableAlloc_spec hS htab hidx h.paging h.mem hp ht hslot
    refine Or.inr ⟨a, k', f, fl, halloc, rfl, ha, ⟨h.mem, hext.paging, fun {q} hq => ?_⟩, hext,
      hlink, hleaf⟩
    rw [Finset.mem_insert]
    by_cases hqp : q = p ++ [i]
    · simp [hqp, hlink]
    · rw [hother h.mem hq fun hq' => absurd hq' hqp, h.tables hq]
      simp [hqp]

theorem tableOrAlloc_tabled {alloc : UInt64 → UInt64 → Kernel → Option (UInt64 × Kernel)}
    (halloc : alloc = tableAlloc) (htab : table.toNat = 4096 * t) (hidx : index.toNat = i.val)
    (hp : p ++ [i] ∈ S) (ht : k.table s p = some t) :
    tableOrAlloc alloc table index k = none ∧
        fl.length + D.card < (insert (p ++ [i]) D).card ∨
      ∃ a k' fl' u, tableOrAlloc alloc table index k = some (a, k') ∧ a.toNat = 4096 * u ∧
        Tabled S R s (insert (p ++ [i]) D) k' fl' ∧ Extends S R s k k' fl fl' ∧
        fl'.length + (insert (p ++ [i]) D).card = fl.length + D.card ∧
        k'.table s (p ++ [i]) = some u ∧ (p ++ [i] ∉ D → fl = u :: fl') := by
  subst halloc
  have hsnoc : k.table s (p ++ [i]) = k.below t i := tableAt_snoc ht
  by_cases hpres : pte.present (entry k.mem t i) = true
  · have htable : k.table s (p ++ [i]) = some (pte.target (entry k.mem t i)) := by
      rw [hsnoc, Kernel.below, next, if_pos hpres]
    have hmem : p ++ [i] ∈ D := (h.tables hp).1 (by rw [htable]; rfl)
    rw [Finset.insert_eq_of_mem hmem]
    refine Or.inr ⟨getAddress (entry k.mem t i), k, fl, _, ?_, getAddress_toNat _, h,
      Extends.refl h.paging, rfl, htable, fun hD => absurd hmem hD⟩
    rw [tableOrAlloc, ptEntry_eq htab hidx, if_pos (present_iff.1 hpres)]
  · have hbranch : tableOrAlloc tableAlloc table index k = tableAlloc table index k := by
      rw [tableOrAlloc, ptEntry_eq htab hidx, if_neg fun hne => hpres (present_iff.2 hne)]
    have hD : p ++ [i] ∉ D := by
      rw [← h.tables hp, hsnoc, Kernel.below, next, if_neg hpres]
      simp
    have hcard : (insert (p ++ [i]) D).card = D.card + 1 := Finset.card_insert_of_notMem hD
    rw [hbranch, hcard]
    rcases tableAlloc_tabled hS h htab hidx hp ht hD with
      ⟨hnone, rfl⟩ | ⟨a, k', f, fl', hsome, rfl, ha, htabled, hext, hlink, -⟩
    · exact Or.inl ⟨hnone, by simp⟩
    · exact Or.inr ⟨a, k', fl', f, hsome, ha, htabled, hext, by simp; omega, hlink, fun _ => rfl⟩

/-- `map_process` takes a free frame for each table that is missing, the last one for the PT. -/
theorem mapPage_tabled {pml4 v : UInt64} (hpml4 : pml4.toNat = 4096 * s) (hv : path v ∈ S)
    (hmax : ∀ i, path v ++ [i] ∉ S) (paddr : UInt64) :
    mapPage pml4 v paddr k = none ∧ fl.length + D.card < (withPath v D).card ∨
      ∃ k' t, mapPage pml4 v paddr k = some k' ∧
        Tabled S R s (withPath v D) k' (fl.drop ((withPath v D).card - D.card)) ∧
        Extends S R s k k' fl (fl.drop ((withPath v D).card - D.card)) ∧
        (withPath v D).card ≤ fl.length + D.card ∧ k'.table s (path v) = some t ∧
        (path v ∉ D → fl[(withPath v D).card - D.card - 1]? = some t) ∧
        ∀ {r q j}, r ∈ R → q ∈ S → (∀ j, q ++ [j] ∉ S) → k'.leaf r q j =
          if k'.table r q = some t ∧ j = ptSlot v then some (paddr ||| pteFlags)
          else k.leaf r q j := by
  set i₄ := slot (getPML4Index v)
  set i₃ := slot (getPDPTIndex v)
  set i₂ := slot (getPDTIndex v)
  have hi₄ : (getPML4Index v).toNat = i₄.val := toNat_and_511 _
  have hi₃ : (getPDPTIndex v).toNat = i₃.val := toNat_and_511 _
  have hi₂ : (getPDTIndex v).toNat = i₂.val := toNat_and_511 _
  have hi₁ : (getPTIndex v).toNat = (ptSlot v).val := toNat_and_511 _
  have hp₄ : [] ++ [i₄] ∈ S := hS.left (p := [i₄]) (q := [i₃, i₂]) hv
  have hp₃ : [i₄] ++ [i₃] ∈ S := hS.left (p := [i₄, i₃]) (q := [i₂]) hv
  have hp₂ : [i₄, i₃] ++ [i₂] ∈ S := hv
  set D₁ := insert ([] ++ [i₄]) D
  set D₂ := insert ([i₄] ++ [i₃]) D₁
  have hcard₂ : D₂.card ≤ (withPath v D).card := Finset.card_le_card (Finset.subset_insert _ _)
  have hcard₁ : D₁.card ≤ D₂.card := Finset.card_le_card (Finset.subset_insert _ _)
  rcases tableOrAlloc_tabled hS h (show pdptAlloc = tableAlloc from rfl) hpml4 hi₄ hp₄ rfl with
    ⟨hnone, hfew⟩ | ⟨pdpt, k₁, fl₁, t₁, hsome₁, ha₁, htab₁, hext₁, hcount₁, ht₁, -⟩
  · change fl.length + D.card < D₁.card at hfew
    refine Or.inl ⟨?_, by omega⟩
    unfold mapPage
    rw [hnone]
    rfl
  change fl₁.length + D₁.card = fl.length + D.card at hcount₁
  rcases tableOrAlloc_tabled hS htab₁ (show pdtAlloc = tableAlloc from rfl) ha₁ hi₃ hp₃ ht₁ with
    ⟨hnone, hfew⟩ | ⟨pdt, k₂, fl₂, t₂, hsome₂, ha₂, htab₂, hext₂, hcount₂, ht₂, -⟩
  · change fl₁.length + D₁.card < D₂.card at hfew
    refine Or.inl ⟨?_, by omega⟩
    unfold mapPage
    simp only [hsome₁, Option.bind_eq_bind, Option.bind_some, hnone, Option.bind_none]
  change fl₂.length + D₂.card = fl₁.length + D₁.card at hcount₂
  rcases tableOrAlloc_tabled hS htab₂ (show ptAlloc = tableAlloc from rfl) ha₂ hi₂ hp₂ ht₂ with
    ⟨hnone, hfew⟩ | ⟨pt, k₃, fl₃, t₃, hsome₃, ha₃, htab₃, hext₃, hcount₃, ht₃, hhead⟩
  · change fl₂.length + D₂.card < (withPath v D).card at hfew
    refine Or.inl ⟨?_, by omega⟩
    unfold mapPage
    simp only [hsome₁, hsome₂, Option.bind_eq_bind, Option.bind_some, hnone, Option.bind_none]
  change fl₃.length + (withPath v D).card = fl₂.length + D₂.card at hcount₃
  obtain ⟨hext₄, htables, -⟩ := setPtEntry_spec hS ha₃ hi₁ hext₃.paging h.mem hv ht₃ (hmax _)
    (paddr ||| pteFlags)
  have hext := ((hext₁.trans hext₂).trans hext₃).trans hext₄
  have hmap : mapPage pml4 v paddr k =
      some (k₃.setPtEntry pt (getPTIndex v) (paddr ||| pteFlags)) := by
    unfold mapPage
    simp only [hsome₁, hsome₂, hsome₃, Option.bind_eq_bind, Option.bind_some]
    rfl
  have hdrop : fl₃ = fl.drop ((withPath v D).card - D.card) := by
    have hlen := hext.suffix.length_le
    rw [List.suffix_iff_eq_drop.1 hext.suffix]
    congr 1
    omega
  rw [hdrop] at hext
  -- The PT is the last table that is linked in.
  have hpt : path v ∉ D → fl[(withPath v D).card - D.card - 1]? = some t₃ := by
    intro hD
    have hcons : fl₂ = t₃ :: fl₃ := hhead (path_not_mem_insert _ _ hD)
    have hlen := congrArg List.length hcons
    rw [List.length_cons] at hlen
    rw [← getElem?_of_suffix ((hcons ▸ hext₂.suffix).trans hext₁.suffix)]
    congr 1
    omega
  rcases mapPage_spec hS h.paging h.mem hpml4 hv hmax paddr with
    ⟨hnone, -⟩ | ⟨k', fl', t, hsome, -, -, ht, hleaf⟩
  · rw [hmap] at hnone
    nomatch hnone
  obtain rfl := Option.some.inj (hmap.symm.trans hsome)
  obtain rfl := Option.some.inj (ht₃.symm.trans ((htables h.mem hv).symm.trans ht))
  refine Or.inr ⟨_, t₃, hmap, ⟨h.mem, hext.paging, fun hq => ?_⟩, hext, by omega, ht, hpt, hleaf⟩
  rw [htables h.mem hq]
  exact htab₃.tables hq

end

end

end Sbunix
