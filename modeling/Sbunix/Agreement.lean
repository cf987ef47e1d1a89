import Sbunix.MapProcess

/-!
# Machines with the same tables

`Agree U k k'` says that two machines have the same free list and the same bytes in the frames `U`.
When `U` includes the tables, they allocate and map in the same way (`mapPage_agree`,
`mapProcesses_agree`).

The kernel does not clear the frames it takes for tables. `BesideFree` is what it knows of its
tables whatever the free frames hold, and `BesideFree.cleared` finds for any such machine one of the
kind that `Paging` describes: the free frames are cleared, other than those that are to become
tables. The two agree on all tables if these frames hold no present entry. If only the upper tables
agree, `Overlay` says what the page tables hold besides.
-/

namespace Sbunix

open Lib Lib.Radix

/-! ## Agreement -/

/-- The two machines differ in memory outside the frames `U` only. -/
structure Agree (U : Set Nat) (k k' : Kernel) : Prop where
  frames : k'.frames = k.frames
  cr3 : k'.cr3 = k.cr3
  mem : ∀ f ∈ U, SamePage k.mem k'.mem f

section

variable {S : Set (List (Fin 512))} {R U : Set Nat} {s t f : Nat} {k k' k₁ : Kernel}
  {fl fl' : List Nat} {a v p : UInt64} {table index : UInt64} {i : Fin 512}
  {q : List (Fin 512)} {D : Finset (List (Fin 512))} {T : List Nat}

theorem Agree.entry (h : Agree U k k') (ht : t ∈ U) (i : Fin 512) :
    entry k'.mem t i = entry k.mem t i :=
  entry_congr (h.mem t ht) i

theorem Agree.refl (U : Set Nat) (k : Kernel) : Agree U k k :=
  ⟨rfl, rfl, fun _ _ => SamePage.refl _ _⟩

theorem Agree.mono {V : Set Nat} (h : Agree U k k') (hsub : V ⊆ U) : Agree V k k' :=
  ⟨h.frames, h.cr3, fun f hf => h.mem f (hsub hf)⟩

/-- A store to a frame does not separate the machines. -/
theorem Agree.setPtEntry (h : Agree U k k') (htab : table.toNat = 4096 * t)
    (hidx : index.toNat = i.val) (e : UInt64) :
    Agree U (k.setPtEntry table index e) (k'.setPtEntry table index e) := by
  refine ⟨h.frames, h.cr3, ?_⟩
  intro f hf x hx
  rw [setPtEntry_mem htab hidx, setPtEntry_mem htab hidx]
  unfold write64
  split_ifs
  · rfl
  · exact h.mem f hf x hx

theorem Agree.pageAllocAddr (h : Agree U k k') (hrun : k.pageAllocAddr = some (a, k₁)) :
    k₁ = k.pop ∧ k'.pageAllocAddr = some (a, k'.pop) ∧ Agree U k.pop k'.pop := by
  unfold Kernel.pageAllocAddr at hrun ⊢
  unfold Kernel.pop
  rw [h.frames]
  split at hrun
  · nomatch hrun
  · rename_i p b hpop
    obtain ⟨rfl, rfl⟩ := Prod.mk.inj (Option.some.inj hrun)
    rw [hpop]
    exact ⟨rfl, rfl, rfl, h.cr3, h.mem⟩

/-- The entries of the second machine are those of the first, and those of `m` where the first has
none that is present. -/
def Overlay (m : Mem) (k k' : Kernel) : Prop := ∀ f i, Lib.entry k'.mem f i =
  if pte.present (Lib.entry k.mem f i) then Lib.entry k.mem f i else Lib.entry m f i

/-- A present entry is stored over what `m` has there. -/
theorem Overlay.setPtEntry {m : Mem} (h : Overlay m k k') (htab : table.toNat = 4096 * t)
    (hidx : index.toNat = i.val) (e : UInt64) :
    Overlay m (k.setPtEntry table index (e ||| pteFlags))
      (k'.setPtEntry table index (e ||| pteFlags)) := by
  intro f j
  rw [entry_setPtEntry htab hidx, entry_setPtEntry htab hidx, Radix.set, Radix.set]
  split_ifs with hst hpres hpres
  · rfl
  · exact absurd (present_or_flags e) hpres
  · rw [h f j, if_pos hpres]
  · rw [h f j, if_neg hpres]

theorem tableOrAlloc_agree {alloc : UInt64 → UInt64 → Kernel → Option (UInt64 × Kernel)}
    (halloc : alloc = tableAlloc) (h : Agree U k k') (htab : table.toNat = 4096 * t) (ht : t ∈ U)
    (hidx : index.toNat = i.val) (hrun : tableOrAlloc alloc table index k = some (a, k₁)) :
    ∃ k₁', tableOrAlloc alloc table index k' = some (a, k₁') ∧ Agree U k₁ k₁' ∧
      (∀ f ≠ t, SamePage k'.mem k₁'.mem f) ∧ ∀ m, Overlay m k k' → Overlay m k₁ k₁' := by
  subst halloc
  unfold tableOrAlloc at hrun ⊢
  rw [ptEntry_eq htab hidx] at hrun ⊢
  rw [h.entry ht]
  dsimp only at hrun ⊢
  split_ifs at hrun ⊢ with hpres
  · obtain ⟨rfl, rfl⟩ := Prod.mk.inj (Option.some.inj hrun)
    exact ⟨k', rfl, h, fun f _ => SamePage.refl _ _, fun m hm => hm⟩
  · obtain ⟨⟨b, k₂⟩, hpop, hrun⟩ := Option.bind_eq_some_iff.1 hrun
    obtain ⟨rfl, rfl⟩ := Prod.mk.inj (Option.some.inj hrun)
    obtain ⟨rfl, hpop', hagree⟩ := h.pageAllocAddr hpop
    refine ⟨_, by rw [tableAlloc, hpop']; rfl, hagree.setPtEntry htab hidx _, ?_, ?_⟩
    · exact fun f hf => samePage_setPtEntry (k := k'.pop) htab hidx _ hf
    · exact fun m hm => Overlay.setPtEntry (show Overlay m k.pop k'.pop from hm) htab hidx _

/-- The states on the way of a call that maps a page, and the tables that it goes through. -/
structure Levels (S : Set (List (Fin 512))) (s : Nat) (pml4 v p : UInt64) (k k₁ : Kernel) where
  (pdpt pdt pt : UInt64)
  (afterPdpt afterPdt afterPt : Kernel)
  (pdptFrame pdtFrame ptFrame : Nat)
  pdptRun : tableOrAlloc pdptAlloc pml4 (getPML4Index v) k = some (pdpt, afterPdpt)
  pdtRun : tableOrAlloc pdtAlloc pdpt (getPDPTIndex v) afterPdpt = some (pdt, afterPdt)
  ptRun : tableOrAlloc ptAlloc pdt (getPDTIndex v) afterPdt = some (pt, afterPt)
  last : k₁ = afterPt.setPtEntry pt (getPTIndex v) (p ||| pteFlags)
  pdptAddr : pdpt.toNat = 4096 * pdptFrame
  pdtAddr : pdt.toNat = 4096 * pdtFrame
  ptAddr : pt.toNat = 4096 * ptFrame
  pdptTable : k₁.table s [slot (getPML4Index v)] = some pdptFrame
  pdtTable : k₁.table s [slot (getPML4Index v), slot (getPDPTIndex v)] = some pdtFrame
  ptTable : k₁.table s (path v) = some ptFrame
  tables : ∀ l ∈ [k, afterPdpt, afterPdt, afterPt], ∀ q ∈ S, ∀ f, l.table s q = some f →
    k₁.table s q = some f
  leaves : ∀ l ∈ [afterPdpt, afterPdt, afterPt], ∀ q ∈ S, (∀ i, q ++ [i] ∉ S) →
    ∀ j, l.leaf s q j = k.leaf s q j
  cr3 : ∀ l ∈ [afterPdpt, afterPdt, afterPt], l.cr3 = k.cr3

section

variable (hS : PrefixClosed S) (h : Agree U k k') (hpaging : Paging S R k fl) (hs : s ∈ R)
include hS hpaging hs

/-- A table found or linked in, on the way to a page. -/
theorem tableOrAlloc_extends {alloc : UInt64 → UInt64 → Kernel → Option (UInt64 × Kernel)}
    (halloc : alloc = tableAlloc) (htab : table.toNat = 4096 * t) (hidx : index.toNat = i.val)
    (hq : q ++ [i] ∈ S) (ht : k.table s q = some t)
    (hrun : tableOrAlloc alloc table index k = some (a, k₁)) :
    ∃ fl₁ u, a.toNat = 4096 * u ∧ Extends S R s k k₁ fl fl₁ ∧ k₁.table s (q ++ [i]) = some u ∧
      ∀ q ∈ S, (∀ i, q ++ [i] ∉ S) → ∀ j, k₁.leaf s q j = k.leaf s q j := by
  rcases tableOrAlloc_spec hS hpaging hs halloc htab hidx hq ht with
    ⟨hnone, -⟩ | ⟨b, k₂, fl₂, u, hsome, hb, hext, -, hu, hleaf⟩
  · rw [hnone] at hrun
    nomatch hrun
  · obtain ⟨rfl, rfl⟩ := Prod.mk.inj (Option.some.inj (hsome.symm.trans hrun))
    exact ⟨fl₂, u, hb, hext, hu, fun q hq hmax j => hleaf hs hq hmax⟩

theorem mapPage_levels {pml4 : UInt64} (hpml4 : pml4.toNat = 4096 * s) (hv : path v ∈ S)
    (hmax : ∀ i, path v ++ [i] ∉ S) (hrun : mapPage pml4 v p k = some k₁) :
    Nonempty (Levels S s pml4 v p k k₁) := by
  have hi₄ : (getPML4Index v).toNat = (slot (getPML4Index v)).val := toNat_and_511 _
  have hi₃ : (getPDPTIndex v).toNat = (slot (getPDPTIndex v)).val := toNat_and_511 _
  have hi₂ : (getPDTIndex v).toNat = (slot (getPDTIndex v)).val := toNat_and_511 _
  have hi₁ : (getPTIndex v).toNat = (ptSlot v).val := toNat_and_511 _
  have hp₄ : [] ++ [slot (getPML4Index v)] ∈ S := hS.left (p := [_]) (q := [_, _]) hv
  have hp₃ : [slot (getPML4Index v)] ++ [slot (getPDPTIndex v)] ∈ S :=
    hS.left (p := [_, _]) (q := [_]) hv
  have hp₂ : [slot (getPML4Index v), slot (getPDPTIndex v)] ++ [slot (getPDTIndex v)] ∈ S := hv
  obtain ⟨⟨pdpt, kA⟩, hrunA, hrun⟩ := Option.bind_eq_some_iff.1 hrun
  obtain ⟨⟨pdt, kB⟩, hrunB, hrun⟩ := Option.bind_eq_some_iff.1 hrun
  obtain ⟨⟨pt, kC⟩, hrunC, hrun⟩ := Option.bind_eq_some_iff.1 hrun
  obtain rfl := Option.some.inj hrun
  set kD := kC.setPtEntry pt (getPTIndex v) (p ||| (pteP ||| pteW ||| pteU)) with hlast
  obtain ⟨flA, tA, haA, hextA, htA, hleafA⟩ := tableOrAlloc_extends hS hpaging hs
    (show pdptAlloc = tableAlloc from rfl) hpml4 hi₄ hp₄ rfl hrunA
  obtain ⟨flB, tB, haB, hextB, htB, hleafB⟩ := tableOrAlloc_extends hS hextA.paging hs
    (show pdtAlloc = tableAlloc from rfl) haA hi₃ hp₃ htA hrunB
  obtain ⟨flC, tC, haC, hextC, htC, hleafC⟩ := tableOrAlloc_extends hS hextB.paging hs
    (show ptAlloc = tableAlloc from rfl) haB hi₂ hp₂ htB hrunC
  obtain ⟨hextD, -, -⟩ := setPtEntry_spec hS haC hi₁ hextC.paging hs hv htC (hmax _)
    (p ||| (pteP ||| pteW ||| pteU))
  -- The tables on the way stay where they are.
  have hfromC : ∀ q ∈ S, ∀ f, kC.table s q = some f → kD.table s q = some f :=
    fun q hq f => hextD.tables hs hq
  have hfromB : ∀ q ∈ S, ∀ f, kB.table s q = some f → kD.table s q = some f :=
    fun q hq f hf => hfromC q hq f (hextC.tables hs hq hf)
  have hfromA : ∀ q ∈ S, ∀ f, kA.table s q = some f → kD.table s q = some f :=
    fun q hq f hf => hfromB q hq f (hextB.tables hs hq hf)
  have hfrom : ∀ q ∈ S, ∀ f, k.table s q = some f → kD.table s q = some f :=
    fun q hq f hf => hfromA q hq f (hextA.tables hs hq hf)
  refine ⟨⟨pdpt, pdt, pt, kA, kB, kC, tA, tB, tC, hrunA, hrunB, hrunC, hlast, haA, haB, haC,
    hfromA _ hp₄ _ htA, hfromB _ hp₃ _ htB, hfromC _ hv _ htC, ?_, ?_, ?_⟩⟩
  · simp only [List.forall_mem_cons, List.not_mem_nil, false_imp_iff, implies_true, and_true]
    exact ⟨hfrom, hfromA, hfromB, hfromC⟩
  · simp only [List.forall_mem_cons, List.not_mem_nil, false_imp_iff, implies_true, and_true]
    refine ⟨hleafA, fun q hq hq' j => (hleafB q hq hq' j).trans (hleafA q hq hq' j), ?_⟩
    exact fun q hq hq' j => (hleafC q hq hq' j).trans
      ((hleafB q hq hq' j).trans (hleafA q hq hq' j))
  · simp only [List.forall_mem_cons, List.not_mem_nil, false_imp_iff, implies_true, and_true]
    exact ⟨hextA.cr3, hextB.cr3.trans hextA.cr3, hextC.cr3.trans (hextB.cr3.trans hextA.cr3)⟩

end

/-- What a machine with the same upper tables does on the way. -/
structure Followed {pml4 : UInt64} (U : Set Nat) (k' : Kernel) (L : Levels S s pml4 v p k k₁)
    (kA kB kC : Kernel) : Prop where
  pdptRun : tableOrAlloc pdptAlloc pml4 (getPML4Index v) k' = some (L.pdpt, kA)
  pdtRun : tableOrAlloc pdtAlloc L.pdpt (getPDPTIndex v) kA = some (L.pdt, kB)
  ptRun : tableOrAlloc ptAlloc L.pdt (getPDTIndex v) kB = some (L.pt, kC)
  pdptAgree : Agree U L.afterPdpt kA
  pdtAgree : Agree U L.afterPdt kB
  ptAgree : Agree U L.afterPt kC
  keep : ∀ f, (∀ q ∈ S, k₁.table s q ≠ some f) → SamePage k'.mem kC.mem f
  overlay : ∀ m, Overlay m k k' →
    Overlay m L.afterPdpt kA ∧ Overlay m L.afterPdt kB ∧ Overlay m L.afterPt kC

theorem Levels.follow {pml4 : UInt64} (hS : PrefixClosed S) (h : Agree U k k')
    (hpml4 : pml4.toNat = 4096 * s) (hv : path v ∈ S) (L : Levels S s pml4 v p k k₁)
    (hU : ∀ q i, q ++ [i] ∈ S → ∀ f, k₁.table s q = some f → f ∈ U) :
    ∃ kA kB kC, Followed U k' L kA kB kC := by
  have hi₄ : (getPML4Index v).toNat = (slot (getPML4Index v)).val := toNat_and_511 _
  have hi₃ : (getPDPTIndex v).toNat = (slot (getPDPTIndex v)).val := toNat_and_511 _
  have hi₂ : (getPDTIndex v).toNat = (slot (getPDTIndex v)).val := toNat_and_511 _
  have hp₃ : [slot (getPML4Index v)] ++ [slot (getPDPTIndex v)] ∈ S :=
    hS.left (p := [_, _]) (q := [_]) hv
  have hp₄ : [] ++ [slot (getPML4Index v)] ∈ S := hS.left (p := [_]) (q := [_]) hp₃
  have hroot : k₁.table s [] = some s := rfl
  obtain ⟨kA, hrunA, hA, hkeepA, hoverA⟩ := tableOrAlloc_agree
    (show pdptAlloc = tableAlloc from rfl) h hpml4 (hU [] _ hp₄ _ hroot) hi₄ L.pdptRun
  obtain ⟨kB, hrunB, hB, hkeepB, hoverB⟩ := tableOrAlloc_agree (show pdtAlloc = tableAlloc from rfl)
    hA L.pdptAddr (hU _ _ hp₃ _ L.pdptTable) hi₃ L.pdtRun
  obtain ⟨kC, hrunC, hC, hkeepC, hoverC⟩ := tableOrAlloc_agree (show ptAlloc = tableAlloc from rfl)
    hB L.pdtAddr (hU [_, _] _ hv _ L.pdtTable) hi₂ L.ptRun
  refine ⟨kA, kB, kC, hrunA, hrunB, hrunC, hA, hB, hC, ?_, ?_⟩
  · intro f hf
    have hne : ∀ {q u}, q ∈ S → k₁.table s q = some u → f ≠ u := by
      rintro q u hq hu rfl
      exact hf q hq hu
    have hneA := hkeepA f (hne hS.nil hroot)
    have hneB := hkeepB f (hne (hS.left (p := [_]) (q := [_, _]) hv) L.pdptTable)
    exact (hneA.trans hneB).trans (hkeepC f (hne hp₃ L.pdtTable))
  · exact fun m hm => ⟨hoverA m hm, hoverB m (hoverA m hm), hoverC m (hoverB m (hoverA m hm))⟩

/-- Two machines with the same upper tables map a page in the same way. -/
theorem mapPage_agree {pml4 : UInt64} (hS : PrefixClosed S) (h : Agree U k k')
    (hpaging : Paging S R k fl) (hs : s ∈ R) (hpml4 : pml4.toNat = 4096 * s) (hv : path v ∈ S)
    (hmax : ∀ i, path v ++ [i] ∉ S) (hrun : mapPage pml4 v p k = some k₁)
    (hU : ∀ q i, q ++ [i] ∈ S → ∀ f, k₁.table s q = some f → f ∈ U) :
    ∃ k₁', mapPage pml4 v p k' = some k₁' ∧ Agree U k₁ k₁' ∧
      (∀ f, (∀ q ∈ S, k₁.table s q ≠ some f) → SamePage k'.mem k₁'.mem f) ∧
      ∀ m, Overlay m k k' → Overlay m k₁ k₁' := by
  have hi₁ : (getPTIndex v).toNat = (ptSlot v).val := toNat_and_511 _
  obtain ⟨L⟩ := mapPage_levels hS hpaging hs hpml4 hv hmax hrun
  obtain ⟨kA, kB, kC, F⟩ := L.follow hS h hpml4 hv hU
  refine ⟨kC.setPtEntry L.pt (getPTIndex v) (p ||| pteFlags), ?_, ?_, ?_, ?_⟩
  · unfold mapPage
    simp only [F.pdptRun, F.pdtRun, F.ptRun, Option.bind_eq_bind, Option.bind_some]
    rfl
  · have hstore := F.ptAgree.setPtEntry L.ptAddr hi₁ (p ||| pteFlags)
    rwa [← L.last] at hstore
  · intro f hf
    have hne : f ≠ L.ptFrame := fun hf' => hf _ hv (hf' ▸ L.ptTable)
    exact (F.keep f hf).trans (samePage_setPtEntry L.ptAddr hi₁ _ hne)
  · intro m hm
    have hstore := (F.overlay m hm).2.2.setPtEntry L.ptAddr hi₁ p
    rwa [← L.last] at hstore

/-! ## Sequences of calls -/

/-- The tables needed for some addresses. -/
def withPaths (vs : List UInt64) (D : Finset (List (Fin 512))) : Finset (List (Fin 512)) :=
  vs.foldl (fun D v => withPath v D) D

theorem subset_withPaths (vs : List UInt64) (D : Finset (List (Fin 512))) :
    D ⊆ withPaths vs D := by
  induction vs generalizing D with
  | nil => exact Finset.Subset.refl D
  | cons v vs ih => exact (subset_withPath v D).trans (ih (withPath v D))

/-- What the calls of `map_process` lead to, with a free frame for each table that is missing: the
same on a machine that agrees on the tables. -/
theorem mapProcesses_tabled (hS : PrefixClosed S) (h : Tabled S R s D k fl)
    (hcr3 : k.cr3.toNat = 4096 * s) {calls : List (UInt64 × UInt64)}
    (hcalls : ∀ c ∈ calls, path c.1 ∈ S ∧ ∀ i, path c.1 ++ [i] ∉ S)
    (hlen : (withPaths (calls.map Prod.fst) D).card ≤ fl.length + D.card) :
    ∃ k₁, mapProcesses k calls = some k₁ ∧
      Tabled S R s (withPaths (calls.map Prod.fst) D) k₁
        (fl.drop ((withPaths (calls.map Prod.fst) D).card - D.card)) ∧
      Extends S R s k k₁ fl (fl.drop ((withPaths (calls.map Prod.fst) D).card - D.card)) ∧
      ∀ {U k'}, Agree U k k' → (∀ q ∈ S, ∀ f, k₁.table s q = some f → f ∈ U) →
        ∃ k₁', mapProcesses k' calls = some k₁' ∧ Agree U k₁ k₁' := by
  induction calls generalizing k D fl with
  | nil =>
    simp only [List.map_nil, withPaths, List.foldl_nil, Nat.sub_self, List.drop_zero]
    exact ⟨k, rfl, h, Extends.refl h.paging, fun hagree _ => ⟨_, rfl, hagree⟩⟩
  | cons c calls ih =>
    obtain ⟨hv, hmax⟩ := hcalls c List.mem_cons_self
    rw [List.map_cons, withPaths, List.foldl_cons] at hlen ⊢
    have hcard₁ := Finset.card_le_card (subset_withPath c.1 D)
    have hcard₂ := Finset.card_le_card (subset_withPaths (calls.map Prod.fst) (withPath c.1 D))
    rw [withPaths] at hcard₂
    rcases mapPage_tabled hS h hcr3 hv hmax c.2 with
      ⟨-, hfew⟩ | ⟨k₂, t, hsome, htab, hext, hle, -, -⟩
    · omega
    obtain ⟨k₁, hrun, htab₁, hext₁, hagree₁⟩ := ih htab (hext.cr3 ▸ hcr3)
      (fun d hd => hcalls d (List.mem_cons_of_mem c hd)) (by
        rw [List.length_drop, withPaths]
        omega)
    rw [List.drop_drop, withPaths] at htab₁ hext₁
    have hcount : (withPath c.1 D).card - D.card + (List.foldl (fun D v => withPath v D)
        (withPath c.1 D) (calls.map Prod.fst)).card - (withPath c.1 D).card =
          (List.foldl (fun D v => withPath v D) (withPath c.1 D) (calls.map Prod.fst)).card -
            D.card := by
      omega
    rw [← Nat.add_sub_assoc hcard₂, hcount] at htab₁ hext₁
    refine ⟨k₁, ?_, htab₁, hext.trans hext₁, ?_⟩
    · rw [mapProcesses, List.foldlM_cons]
      exact (congrArg (· >>= _) hsome).trans hrun
    · intro U k' hagree hU
      obtain ⟨k₂', hsome', hagree₂, -⟩ := mapPage_agree hS hagree h.paging h.mem hcr3 hv hmax hsome
        fun q i hq f hf => hU q (hS.left hq) f (hext₁.tables h.mem (hS.left hq) hf)
      obtain ⟨k₁', hrun', hagree₁'⟩ := hagree₁ hagree₂ hU
      refine ⟨k₁', ?_, hagree₁'⟩
      rw [mapProcesses, List.foldlM_cons, mapProcess, hagree.cr3, hsome']
      exact hrun'

/-! ## Frames that are not cleared -/

/-- What `Paging` says about tables and free frames, without their contents. -/
structure BesideFree (S : Set (List (Fin 512))) (R : Set Nat) (k : Kernel) (fl : List Nat) :
    Prop where
  forest : Forest pte (Lib.entry k.mem) S R
  free : FreeFrames k.frames fl
  fresh : ∀ f ∈ fl, Fresh pte (Lib.entry k.mem) S R f

theorem Paging.beside (h : Paging S R k fl) : BesideFree S R k fl where
  forest := h.forest
  free := h.free
  fresh := h.fresh

/-- The kernel with the frames `fl` cleared. -/
def Kernel.cleared (fl : List Nat) (k : Kernel) : Kernel :=
  { k with mem := fun x => if x / 4096 ∈ fl then 0 else k.mem x }

theorem samePage_cleared (hf : f ∉ fl) : SamePage k.mem (k.cleared fl).mem f := by
  rintro x rfl
  exact if_neg hf

theorem zeroPage_cleared (k : Kernel) (hf : f ∈ fl) : ZeroPage (k.cleared fl).mem f := by
  rintro x rfl
  exact if_pos hf

/-- The frames of `fl` that are not in `T`. -/
def spare (fl T : List Nat) : List Nat := fl.filter (· ∉ T)

theorem mem_spare : f ∈ spare fl T ↔ f ∈ fl ∧ f ∉ T := by
  simp [spare]

theorem agree_cleared (k : Kernel) (F : List Nat) : Agree {f | f ∉ F} (k.cleared F) k :=
  ⟨rfl, rfl, fun _ hf x hx => (samePage_cleared hf x hx).symm⟩

theorem blank_cleared (hT : ∀ f ∈ T, Blank k.mem f) (hf : f ∈ fl) :
    Blank (k.cleared (spare fl T)).mem f := by
  by_cases hmem : f ∈ T
  · exact (hT f hmem).congr (samePage_cleared fun hspare => (mem_spare.1 hspare).2 hmem)
  · exact blank_of_zeroPage (zeroPage_cleared k (mem_spare.2 ⟨hf, hmem⟩))

section

variable {F : List Nat} (hS : PrefixClosed S) (h : BesideFree S R k fl) (hF : F ⊆ fl)
include h hF

/-- Free frames are no tables. -/
theorem BesideFree.entry_cleared (ht : ¬ Fresh pte (Lib.entry k.mem) S R t) (i : Fin 512) :
    Lib.entry (k.cleared F).mem t i = Lib.entry k.mem t i :=
  entry_congr (samePage_cleared fun hmem => ht (h.fresh t (hF hmem))) i

include hS

theorem BesideFree.table_cleared {r : Nat} (hr : r ∈ R) (hq : q ∈ S) :
    (k.cleared F).table r q = k.table r q :=
  tableAt_of_agree hS hr hq fun _ => h.entry_cleared hF

theorem BesideFree.leaf_cleared {r : Nat} (hr : r ∈ R) (hq : q ∈ S) (j : Fin 512) :
    (k.cleared F).leaf r q j = k.leaf r q j :=
  leafAt_of_agree hS hr hq fun _ => h.entry_cleared hF

theorem BesideFree.cleared : BesideFree S R (k.cleared F) fl where
  forest := forest_of_agree hS h.forest fun _ => h.entry_cleared hF
  free := h.free
  fresh f hf r hr q hq := by
    show (k.cleared F).table r q ≠ some f
    rw [h.table_cleared hS hF hr hq]
    exact h.fresh f hf r hr q hq

end

/-- Machines that agree on the tables have the same translations. -/
theorem Agree.leaf (h : Agree U k k') (hS : PrefixClosed S)
    (hU : ∀ r ∈ R, ∀ q ∈ S, ∀ f, k.table r q = some f → f ∈ U) {r : Nat} (hr : r ∈ R) (hq : q ∈ S)
    (j : Fin 512) : k'.leaf r q j = k.leaf r q j := by
  refine leafAt_of_agree hS hr hq ?_
  intro t ht
  refine h.entry ?_
  unfold Fresh at ht
  push Not at ht
  obtain ⟨x, hx, p, hp, htab⟩ := ht
  exact hU x hx p hp t htab

end

end Sbunix
