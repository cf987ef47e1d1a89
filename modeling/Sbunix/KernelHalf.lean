import Sbunix.Boot
import Sbunix.CopyOnWrite

/-!
# The kernel's half of the address spaces

Address spaces are made by copying a PML4 (`set_user_AddrSpace`) or by copying tables
(`copy_page_tables_forchild`), so they share tables in many ways. What no step does is to write
entry 511 of a PML4 that is in use.

To see this every frame is given a role: the path that leads to it from a PML4, if it is a table.
`WellTyped R role k fl` says that each entry of a table points to a table with the path one longer,
and that an entry at the end of a path below PML4 entry 510 points to the page itself or to a frame
without a role. `Step` is what a part of the code may do: it keeps the roles, gives new ones to
free frames only, and leaves entry 511 of the PML4s `R` alone. The invariant is local to an entry,
so it does not matter which of the tables are shared.
-/

namespace Sbunix

open Lib Lib.Radix

/-! ## Roles -/

/-- The path of a frame that is a table. -/
abbrev Role := Nat → Option (List (Fin 512))

/-- The page of position `j` at the end of the path `p`. -/
def pageAt (p : List (Fin 512)) (j : Fin 512) : Nat :=
  (p ++ [j]).foldl (fun n i => n * 512 + i.val) 0

/-- The frame is no table and will not become one. -/
def IsData (role : Role) (fl : List Nat) (g : Nat) : Prop := role g = none ∧ g ∉ fl

/-- The entry `e` may stand at position `i` of a table with path `p`. -/
def Fits (role : Role) (fl : List Nat) (p : List (Fin 512)) (i : Fin 512) (e : UInt64) : Prop :=
  pte.present e = true →
    (p.length < 3 → role (pte.target e) = some (p ++ [i])) ∧
    (p.length = 3 → (∀ h ∈ p.head?, h.val < 510) →
      pte.target e = pageAt p i ∨ IsData role fl (pte.target e))

/-- Every table has entries that fit, beside the zero-filled free frames `fl`. The PML4s in use are
`R`, and no table below one is at address 0, which the code takes for a null pointer. -/
structure WellTyped (R : Set Nat) (role : Role) (k : Kernel) (fl : List Nat) : Prop where
  free : FreeFrames k.frames fl
  zero : ∀ f ∈ fl, ZeroPage k.mem f
  unused : ∀ f ∈ fl, role f = none
  range : ∀ f ∈ fl, f ≠ 0 ∧ f < 2 ^ 31
  null : ∀ {p}, role 0 = some p → p = []
  roots : ∀ r ∈ R, role r = some []
  fits : ∀ {t p}, role t = some p → ∀ i, Fits role fl p i (entry k.mem t i)

/-- A part of the code. -/
structure Step (R : Set Nat) (role : Role) (k : Kernel) (fl : List Nat) (role' : Role)
    (k' : Kernel) (fl' : List Nat) : Prop where
  typed : WellTyped R role' k' fl'
  keeps : ∀ {t p}, role t = some p → role' t = some p
  data : ∀ {g}, IsData role fl g → IsData role' fl' g
  root : ∀ r ∈ R, entry k'.mem r 511 = entry k.mem r 511
  cr3 : k'.cr3 = k.cr3
  pml4 : k'.pml4 = k.pml4

section

variable {R : Set Nat} {role role' role'' : Role} {k k' k'' : Kernel} {fl fl' fl'' : List Nat}
  {t f g s : Nat} {p q : List (Fin 512)} {i : Fin 512} {table index e v paddr : UInt64}

theorem Step.refl (h : WellTyped R role k fl) : Step R role k fl role k fl :=
  ⟨h, id, id, fun _ _ => rfl, rfl, rfl⟩

theorem Step.trans (h : Step R role k fl role' k' fl') (h' : Step R role' k' fl' role'' k'' fl'') :
    Step R role k fl role'' k'' fl'' :=
  ⟨h'.typed, fun ht => h'.keeps (h.keeps ht), fun hg => h'.data (h.data hg),
    fun r hr => (h'.root r hr).trans (h.root r hr), h'.cr3.trans h.cr3, h'.pml4.trans h.pml4⟩

theorem pageAt_eq_vpage (v : UInt64) : pageAt (path v) (ptSlot v) = vpage v := by
  have hval : ∀ x : UInt64, (slot (x &&& 0x1FF)).val = (x &&& 0x1FF).toNat :=
    fun x => (toNat_and_511 x).symm
  have h₄ : (slot (getPML4Index v)).val = v.toNat / 2 ^ 39 % 512 := slot_val_pml4 v
  have h₃ : (slot (getPDPTIndex v)).val = v.toNat / 2 ^ 30 % 512 :=
    (hval _).trans (getPDPTIndex_toNat v)
  have h₂ : (slot (getPDTIndex v)).val = v.toNat / 2 ^ 21 % 512 :=
    (hval _).trans (getPDTIndex_toNat v)
  have h₁ : (slot (getPTIndex v)).val = v.toNat / 2 ^ 12 % 512 :=
    (hval _).trans (getPTIndex_toNat v)
  rw [vpage, page_eq_positions]
  simp only [pageAt, path, ptSlot, List.cons_append, List.nil_append, List.foldl_cons,
    List.foldl_nil, h₄, h₃, h₂, h₁, Nat.zero_mul, Nat.zero_add]

/-! ## Frames and stores -/

/-- A free frame is taken for a page. -/
theorem WellTyped.takePage (h : WellTyped R role k (f :: fl)) (hfree : FreeFrames k.pop.frames fl) :
    Step R role k (f :: fl) role k.pop fl ∧ IsData role fl f := by
  have hdata : ∀ {g}, IsData role (f :: fl) g → IsData role fl g :=
    fun hg => ⟨hg.1, fun hmem => hg.2 (List.mem_cons_of_mem _ hmem)⟩
  refine ⟨⟨⟨hfree, ?_, ?_, ?_, h.null, h.roots, ?_⟩, id, hdata, fun _ _ => rfl, rfl, rfl⟩, ?_⟩
  · exact fun x hx => h.zero x (List.mem_cons_of_mem _ hx)
  · exact fun x hx => h.unused x (List.mem_cons_of_mem _ hx)
  · exact fun x hx => h.range x (List.mem_cons_of_mem _ hx)
  · intro t p ht i hpres
    obtain ⟨hlink, hleaf⟩ := h.fits ht i hpres
    exact ⟨hlink, fun hlen hhead => (hleaf hlen hhead).imp_right hdata⟩
  · exact ⟨h.unused f (by simp), (List.nodup_cons.1 h.free.nodup).1⟩

/-- A free frame is taken for a table with path `q`. -/
theorem WellTyped.takeTable (h : WellTyped R role k (f :: fl)) (hfree : FreeFrames k.pop.frames fl)
    (q : List (Fin 512)) :
    Step R role k (f :: fl) (Function.update role f (some q)) k.pop fl := by
  have hnone : role f = none := h.unused f (by simp)
  have hne : ∀ {t p}, role t = some p → t ≠ f := by
    rintro t p ht rfl
    rw [hnone] at ht
    nomatch ht
  have hdata : ∀ {g}, IsData role (f :: fl) g → IsData (Function.update role f (some q)) fl g := by
    intro g hg
    have hgf : g ≠ f := fun hgf => hg.2 (by simp [hgf])
    refine ⟨?_, fun hmem => hg.2 (List.mem_cons_of_mem _ hmem)⟩
    rw [Function.update_of_ne hgf]
    exact hg.1
  have hrole : ∀ {t p}, role t = some p → Function.update role f (some q) t = some p := by
    intro t p ht
    rw [Function.update_of_ne (hne ht)]
    exact ht
  refine ⟨⟨hfree, ?_, ?_, ?_, ?_, fun r hr => hrole (h.roots r hr), ?_⟩, hrole, hdata,
    fun _ _ => rfl, rfl, rfl⟩
  · exact fun x hx => h.zero x (List.mem_cons_of_mem _ hx)
  · intro x hx
    have hxf : x ≠ f := fun hxf => (List.nodup_cons.1 h.free.nodup).1 (hxf ▸ hx)
    rw [Function.update_of_ne hxf]
    exact h.unused x (List.mem_cons_of_mem _ hx)
  · exact fun x hx => h.range x (List.mem_cons_of_mem _ hx)
  · intro p hp
    rw [Function.update_of_ne (Ne.symm (h.range f (by simp)).1)] at hp
    exact h.null hp
  · intro t p ht i hpres
    replace hpres : pte.present (entry k.mem t i) = true := hpres
    by_cases htf : t = f
    · -- The new table is blank.
      rw [htf, entry_zero (h.zero f (by simp))] at hpres
      exact absurd hpres (by decide)
    · rw [Function.update_of_ne htf] at ht
      obtain ⟨hlink, hleaf⟩ := h.fits ht i hpres
      exact ⟨fun hlen => hrole (hlink hlen),
        fun hlen hhead => (hleaf hlen hhead).imp_right hdata⟩

/-- An entry that fits is stored. -/
theorem WellTyped.store (h : WellTyped R role k fl) (htab : table.toNat = 4096 * t)
    (hidx : index.toNat = i.val) (ht : role t = some p) (he : Fits role fl p i e)
    (hroot : t ∈ R → i.val ≠ 511) :
    Step R role k fl role (k.setPtEntry table index e) fl := by
  have hent : entry (k.setPtEntry table index e).mem = set (entry k.mem) t i e :=
    entry_setPtEntry htab hidx e
  refine ⟨⟨h.free, ?_, h.unused, h.range, h.null, h.roots, ?_⟩, id, id, ?_, rfl, rfl⟩
  · intro f hf
    have hne : f ≠ t := by
      rintro rfl
      rw [h.unused f hf] at ht
      nomatch ht
    exact (samePage_setPtEntry htab hidx e hne).zero (h.zero f hf)
  · intro u q hu j
    rw [hent]
    by_cases huj : u = t ∧ j = i
    · obtain ⟨rfl, rfl⟩ := huj
      obtain rfl := Option.some.inj (ht.symm.trans hu)
      rw [set_self]
      exact he
    · rw [set_of_ne huj]
      exact h.fits hu j
  · intro r hr
    rw [hent, set_of_ne]
    rintro ⟨rfl, hi⟩
    exact hroot hr (congrArg Fin.val hi).symm

theorem WellTyped.not_root (h : WellTyped R role k fl) (ht : role t = some p) (hp : p ≠ []) :
    t ∉ R := by
  intro hr
  exact hp (Option.some.inj (ht.symm.trans (h.roots t hr)))

/-! ## Mapping a page -/

theorem tableAlloc_typed (h : WellTyped R role k fl) (htab : table.toNat = 4096 * t)
    (hidx : index.toNat = i.val) (ht : role t = some p) (hp : p.length < 3)
    (hroot : t ∈ R → i.val ≠ 511) {a : UInt64} (hrun : tableAlloc table index k = some (a, k')) :
    ∃ role' fl' u, Step R role k fl role' k' fl' ∧ a.toNat = 4096 * u ∧
      role' u = some (p ++ [i]) := by
  cases fl with
  | nil =>
    rw [tableAlloc, h.free.pageAllocAddr_nil] at hrun
    cases hrun
  | cons f fl =>
    obtain ⟨b, hpop, hb, hfree⟩ := h.free.pageAllocAddr_cons
    rw [tableAlloc, hpop] at hrun
    obtain ⟨rfl, rfl⟩ := Prod.mk.inj (Option.some.inj hrun)
    have hstep := h.takeTable hfree (p ++ [i])
    have hself : Function.update role f (some (p ++ [i])) f = some (p ++ [i]) :=
      Function.update_self _ _ _
    have htarget : pte.target (b ||| (pteP ||| pteW ||| pteU)) = f := by
      rw [target_or _ (by decide)]
      show b.toNat / 4096 = f
      omega
    refine ⟨_, fl, f, hstep.trans (hstep.typed.store htab hidx (hstep.keeps ht) ?_ hroot), hb,
      hself⟩
    intro _
    rw [htarget]
    exact ⟨fun _ => hself, fun hlen => absurd hp (by omega)⟩

theorem tableOrAlloc_typed {alloc : UInt64 → UInt64 → Kernel → Option (UInt64 × Kernel)}
    (halloc : alloc = tableAlloc) (h : WellTyped R role k fl) (htab : table.toNat = 4096 * t)
    (hidx : index.toNat = i.val) (ht : role t = some p) (hp : p.length < 3)
    (hroot : t ∈ R → i.val ≠ 511) {a : UInt64}
    (hrun : tableOrAlloc alloc table index k = some (a, k')) :
    ∃ role' fl' u, Step R role k fl role' k' fl' ∧ a.toNat = 4096 * u ∧
      role' u = some (p ++ [i]) := by
  subst halloc
  rw [tableOrAlloc, ptEntry_eq htab hidx] at hrun
  split_ifs at hrun with hpres
  · obtain ⟨rfl, rfl⟩ := Prod.mk.inj (Option.some.inj hrun)
    exact ⟨role, fl, _, .refl h, getAddress_toNat _, (h.fits ht i (present_iff.2 hpres)).1 hp⟩
  · exact tableAlloc_typed h htab hidx ht hp hroot hrun

/-- A mapping below PML4 entry 510 leads to the page itself or to a frame that is no table. -/
def Maps (role : Role) (fl : List Nat) (v paddr : UInt64) : Prop :=
  (slot (getPML4Index v)).val < 510 →
    pte.target paddr = vpage v ∨ IsData role fl (pte.target paddr)

theorem mapPage_typed {pml4 : UInt64} (h : WellTyped R role k fl) (hpml4 : pml4.toNat = 4096 * s)
    (hs : role s = some []) (hroot : s ∈ R → (slot (getPML4Index v)).val ≠ 511)
    (hmaps : Maps role fl v paddr) (hrun : mapPage pml4 v paddr k = some k') :
    ∃ role' fl', Step R role k fl role' k' fl' := by
  obtain ⟨⟨pdpt, k₁⟩, hrun₁, hrun⟩ := Option.bind_eq_some_iff.1 hrun
  obtain ⟨⟨pdt, k₂⟩, hrun₂, hrun⟩ := Option.bind_eq_some_iff.1 hrun
  obtain ⟨⟨pt, k₃⟩, hrun₃, hrun⟩ := Option.bind_eq_some_iff.1 hrun
  obtain rfl := Option.some.inj hrun
  obtain ⟨role₁, fl₁, t₁, hstep₁, ha₁, ht₁⟩ :=
    tableOrAlloc_typed (show pdptAlloc = tableAlloc from rfl) h hpml4 (toNat_and_511 _) hs
      (by simp) hroot hrun₁
  obtain ⟨role₂, fl₂, t₂, hstep₂, ha₂, ht₂⟩ :=
    tableOrAlloc_typed (show pdtAlloc = tableAlloc from rfl) hstep₁.typed ha₁ (toNat_and_511 _) ht₁
      (by simp) (fun hr => absurd hr (hstep₁.typed.not_root ht₁ (by simp))) hrun₂
  obtain ⟨role₃, fl₃, t₃, hstep₃, ha₃, ht₃⟩ :=
    tableOrAlloc_typed (show ptAlloc = tableAlloc from rfl) hstep₂.typed ha₂ (toNat_and_511 _) ht₂
      (by simp) (fun hr => absurd hr (hstep₂.typed.not_root ht₂ (by simp))) hrun₃
  have hstep := (hstep₁.trans hstep₂).trans hstep₃
  refine ⟨role₃, fl₃, hstep.trans (hstep₃.typed.store ha₃ (toNat_and_511 _) ht₃ ?_
    fun hr => absurd hr (hstep₃.typed.not_root ht₃ (by simp)))⟩
  intro _
  rw [target_or _ (by decide)]
  refine ⟨fun hlen => absurd hlen (by simp), fun _ hhead => ?_⟩
  rcases hmaps (hhead _ rfl) with hpage | hdata
  · left
    rw [hpage, ← pageAt_eq_vpage]
    rfl
  · exact Or.inr (hstep.data hdata)

/-! ## Copying tables -/

theorem copyPtEntry_typed {cPt pPt : UInt64} {tc tp : Nat} (h : WellTyped R role k fl)
    (hc : cPt.toNat = 4096 * tc) (hp : pPt.toNat = 4096 * tp) (htc : role tc = some p)
    (htp : role tp = some p) (hlen : p.length = 3) (i : Fin 512) :
    Step R role k fl role (copyPtEntry cPt pPt k i) fl := by
  have hi := toNat_ofNat_fin i
  have hp0 : p ≠ [] := List.ne_nil_of_length_pos (by omega)
  unfold copyPtEntry
  rw [ptEntry_eq hp hi]
  dsimp only
  split_ifs with hpres
  · -- The copy marks the entry and keeps its frame, and the two tables have one path.
    have hfits : Fits role fl p i (cowEntry (entry k.mem tp i)) := by
      intro _
      rw [target_cowEntry]
      exact h.fits htp i (present_iff.2 hpres)
    have hchild := h.store hc hi htc hfits fun hr => absurd hr (h.not_root htc hp0)
    exact hchild.trans (hchild.typed.store hp hi htp hfits
      fun hr => absurd hr (h.not_root htp hp0))
  · exact .refl h

/-- `copyTable` is a step whenever the two tables have the same path, `d` levels above the end. -/
def CopiesTyped (R : Set Nat) (d : Nat) (copyTable : UInt64 → UInt64 → Kernel → Option Kernel) :
    Prop :=
  ∀ {role k fl p ct pt tc tp k'}, WellTyped R role k fl → p.length + d = 3 → p ≠ [] →
    ct.toNat = 4096 * tc → pt.toNat = 4096 * tp → role tc = some p → role tp = some p →
    copyTable ct pt k = some k' → ∃ role' fl', Step R role k fl role' k' fl'

theorem copiesTyped_copyPt : CopiesTyped R 0 copyPt := by
  intro role k fl p ct pt tc tp k' h hlen _ hc hp htc htp hrun
  obtain rfl := Option.some.inj hrun
  refine ⟨role, fl, ?_⟩
  generalize List.finRange 512 = js
  induction js generalizing k with
  | nil => exact .refl h
  | cons i js ih =>
    have hstep := copyPtEntry_typed h hc hp htc htp hlen i
    exact hstep.trans (ih hstep.typed rfl)

section Loop

variable {alloc : UInt64 → UInt64 → Kernel → Option (UInt64 × Kernel)}
  {copyTable : UInt64 → UInt64 → Kernel → Option Kernel} {d tc tp : Nat} {ct pt : UInt64}

theorem copyEntryBelow_typed (halloc : alloc = tableAlloc) (hinner : CopiesTyped R d copyTable)
    (h : WellTyped R role k fl) (hlen : p.length + (d + 1) = 3) (hc : ct.toNat = 4096 * tc)
    (hp : pt.toNat = 4096 * tp) (htc : role tc = some p) (htp : role tp = some p)
    (hroot : tc ∈ R → i.val ≠ 511) (hrun : copyEntryBelow alloc copyTable ct pt k i = some k') :
    ∃ role' fl', Step R role k fl role' k' fl' := by
  subst halloc
  have hi := toNat_ofNat_fin i
  unfold copyEntryBelow at hrun
  rw [ptEntry_eq hp hi] at hrun
  simp only at hrun
  split_ifs at hrun with hpres
  · obtain ⟨⟨cBelow, k₁⟩, hrun₁, hrun⟩ := Option.bind_eq_some_iff.1 hrun
    obtain ⟨role₁, fl₁, u, hstep, hu, hru⟩ :=
      tableAlloc_typed h hc hi htc (by omega) hroot hrun₁
    have hbelow := (h.fits htp i (present_iff.2 hpres)).1 (by omega)
    obtain ⟨role', fl', hrest⟩ := hinner hstep.typed (by simp; omega) (by simp) hu
      (getAddress_toNat _) hru (hstep.keeps hbelow) hrun
    exact ⟨role', fl', hstep.trans hrest⟩
  · obtain rfl := Option.some.inj hrun
    exact ⟨role, fl, .refl h⟩

theorem copyEntries_typed (halloc : alloc = tableAlloc) (hinner : CopiesTyped R d copyTable)
    (h : WellTyped R role k fl) (hlen : p.length + (d + 1) = 3) (hc : ct.toNat = 4096 * tc)
    (hp : pt.toNat = 4096 * tp) (htc : role tc = some p) (htp : role tp = some p)
    {js : List (Fin 512)} (hroot : tc ∈ R → ∀ j ∈ js, j.val ≠ 511)
    (hrun : js.foldlM (copyEntryBelow alloc copyTable ct pt) k = some k') :
    ∃ role' fl', Step R role k fl role' k' fl' := by
  induction js generalizing role k fl with
  | nil =>
    obtain rfl := Option.some.inj hrun
    exact ⟨role, fl, .refl h⟩
  | cons i js ih =>
    rw [List.foldlM_cons] at hrun
    obtain ⟨k₁, hrun₁, hrun⟩ := Option.bind_eq_some_iff.1 hrun
    obtain ⟨role₁, fl₁, hstep⟩ := copyEntryBelow_typed halloc hinner h hlen hc hp htc htp
      (fun hr => hroot hr i (by simp)) hrun₁
    obtain ⟨role', fl', hrest⟩ := ih hstep.typed (hstep.keeps htc) (hstep.keeps htp)
      (fun hr j hj => hroot hr j (by simp [hj])) hrun
    exact ⟨role', fl', hstep.trans hrest⟩

theorem copiesTyped_succ (halloc : alloc = tableAlloc) (hinner : CopiesTyped R d copyTable) :
    CopiesTyped R (d + 1) fun ct pt k =>
      (List.finRange 512).foldlM (copyEntryBelow alloc copyTable ct pt) k := by
  intro role k fl p ct pt tc tp k' h hlen hp0 hc hp htc htp hrun
  exact copyEntries_typed halloc hinner h hlen hc hp htc htp
    (fun hr => absurd hr (h.not_root htc hp0)) hrun

end Loop

theorem copiesTyped_copyPdpt : CopiesTyped R 2 copyPdpt :=
  copiesTyped_succ rfl (copiesTyped_succ rfl copiesTyped_copyPt)

/-! ## New address spaces -/

/-- An address space that is made while `r` is the PML4 in `CR3`: a new PML4 with the same entry
511. -/
structure NewRoot (R : Set Nat) (role : Role) (k : Kernel) (fl : List Nat) (r c : Nat)
    (role' : Role) (k' : Kernel) (fl' : List Nat) : Prop where
  step : Step R role k fl role' k' fl'
  root : role' c = some []
  entry : entry k'.mem c 511 = entry k.mem r 511

/-- The frame of a new PML4. -/
theorem WellTyped.takeRoot {a : UInt64} (h : WellTyped R role k fl)
    (hrun : k.pageAllocAddr = some (a, k')) :
    ∃ c role' fl', a.toNat = 4096 * c ∧ c ∉ R ∧ role' c = some [] ∧ k'.cr3 = k.cr3 ∧
      Step R role k fl role' k' fl' := by
  cases fl with
  | nil =>
    rw [h.free.pageAllocAddr_nil] at hrun
    nomatch hrun
  | cons c fl =>
    obtain ⟨b, hpop, hb, hfree⟩ := h.free.pageAllocAddr_cons
    obtain ⟨rfl, rfl⟩ := Prod.mk.inj (Option.some.inj (hpop.symm.trans hrun))
    refine ⟨c, _, fl, hb, ?_, Function.update_self _ _ _, rfl, h.takeTable hfree []⟩
    intro hc
    have hnone := h.unused c (by simp)
    rw [h.roots c hc] at hnone
    nomatch hnone

theorem forkSpace_typed {r : Nat} {a : UInt64} (h : WellTyped R role k fl) (hr : r ∈ R)
    (hcr3 : k.cr3.toNat = 4096 * r) (hrun : forkSpace k = some (a, k')) :
    ∃ c role' fl', a.toNat = 4096 * c ∧ NewRoot R role k fl r c role' k' fl' := by
  obtain ⟨⟨child, k₁⟩, hrun₁, hrun⟩ := Option.bind_eq_some_iff.1 hrun
  obtain ⟨k₄, hcopy, hrun⟩ := Option.bind_eq_some_iff.1 hrun
  obtain ⟨rfl, rfl⟩ := Prod.mk.inj (Option.some.inj hrun)
  obtain ⟨c, role₁, fl₁, hc, hcR, hself, hcr3', htake⟩ := h.takeRoot hrun₁
  rw [← hcr3'] at hcr3
  unfold copyPageTablesForchild at hcopy
  obtain ⟨k₂, hloop, hcopy⟩ := Option.bind_eq_some_iff.1 hcopy
  obtain rfl := Option.some.inj hcopy
  obtain ⟨role₂, fl₂, hstep⟩ := copyEntries_typed (show pdptAlloc = tableAlloc from rfl)
    copiesTyped_copyPdpt htake.typed rfl hc hcr3 hself (htake.keeps (h.roots r hr))
    (fun hmem => absurd hmem hcR) hloop
  have hall := htake.trans hstep
  have hc₂ := hstep.keeps hself
  have hr₂ := hall.keeps (h.roots r hr)
  have hidx : (511 : UInt64).toNat = (511 : Fin 512).val := rfl
  have hidx' : (510 : UInt64).toNat = (510 : Fin 512).val := rfl
  rw [ptEntry_eq hcr3 hidx]
  -- The last two entries are copied from a PML4.
  have h₃ := hall.typed.store hc hidx hc₂ (hall.typed.fits hr₂ 511) fun hmem => absurd hmem hcR
  set k₃ := k₂.setPtEntry child 511 (entry k₂.mem r 511) with hk₃
  rw [ptEntry_eq hcr3 hidx']
  have h₄ := h₃.typed.store hc hidx' hc₂ (h₃.typed.fits hr₂ 510) fun hmem => absurd hmem hcR
  refine ⟨c, role₂, fl₂, hc, (hall.trans h₃).trans h₄, hc₂, ?_⟩
  rw [entry_setPtEntry hc hidx', set_of_ne fun h => absurd h.2 (by decide), hk₃,
    entry_setPtEntry hc hidx, set_self]
  exact hall.root r hr

theorem setUserAddrSpace_typed {r : Nat} {a : UInt64} (h : WellTyped R role k fl) (hr : r ∈ R)
    (hcr3 : k.cr3.toNat = 4096 * r) (hrun : setUserAddrSpace k = some (a, k')) :
    ∃ c role' fl', a.toNat = 4096 * c ∧ NewRoot R role k fl r c role' k' fl' := by
  obtain ⟨⟨new, k₁⟩, hrun₁, hrun⟩ := Option.bind_eq_some_iff.1 hrun
  obtain ⟨rfl, rfl⟩ := Prod.mk.inj (Option.some.inj hrun)
  obtain ⟨c, role₁, fl₁, hc, hcR, hself, hcr3', htake⟩ := h.takeRoot hrun₁
  rw [← hcr3'] at hcr3
  have hr₁ := htake.keeps (h.roots r hr)
  have hfold : ∀ (js : List (Fin 512)) {k₀ : Kernel}, WellTyped R role₁ k₀ fl₁ →
      Step R role₁ k₀ fl₁ role₁ (js.foldl (copyEntry new k₁.cr3) k₀) fl₁ := by
    intro js
    induction js with
    | nil => exact fun h₀ => .refl h₀
    | cons i js ih =>
      intro k₀ h₀
      have hi := toNat_ofNat_fin i
      have hstep : Step R role₁ k₀ fl₁ role₁ (copyEntry new k₁.cr3 k₀ i) fl₁ := by
        unfold copyEntry
        rw [ptEntry_eq hcr3 hi]
        exact h₀.store hc hi hself (h₀.fits hr₁ i) fun hmem => absurd hmem hcR
      exact hstep.trans (ih hstep.typed)
  refine ⟨c, role₁, fl₁, hc, htake.trans (hfold (List.finRange 512) htake.typed), hself, ?_⟩
  have hne : c ≠ r := fun hcr => hcR (hcr ▸ hr)
  obtain ⟨hent, -, -⟩ := copyEntry_foldl hc hcr3 hne (List.finRange 512) k₁
  rw [hent, if_pos ⟨rfl, List.mem_finRange (511 : Fin 512)⟩]
  exact htake.root r hr

/-! ## Faults -/

/-- The tables below a table have the roles of their paths. -/
theorem WellTyped.role_table (h : WellTyped R role k fl) {u : Nat} (ht : role t = some p)
    (hlen : p.length + q.length ≤ 3) (hq : k.table t q = some u) : role u = some (p ++ q) := by
  induction q generalizing t p with
  | nil =>
    obtain rfl := Option.some.inj hq
    rwa [List.append_nil]
  | cons i q ih =>
    obtain ⟨t₁, hnext, hrest⟩ := exists_next_of_tableAt hq
    unfold next at hnext
    split_ifs at hnext with hpres
    obtain rfl := Option.some.inj hnext
    rw [List.length_cons] at hlen
    have hrole := (h.fits ht i hpres).1 (by omega)
    have := ih hrole (by simp; omega) hrest
    rwa [List.append_assoc, List.singleton_append] at this

/-- A store to a frame that is no table changes no entry. -/
theorem entry_of_role {m m' : Mem} (hg : role g = none) (hm : OnlyFrame m m' g)
    (ht : role t = some p) (i : Fin 512) : entry m' t i = entry m t i := by
  refine entry_congr (hm t ?_) i
  rintro rfl
  rw [hg] at ht
  nomatch ht

/-- It changes no translation either. -/
theorem WellTyped.walk_onlyFrame (h : WellTyped R role k fl) {r : Nat} {m : Mem}
    (hr : role r = some []) (hg : role g = none) (hm : OnlyFrame k.mem m g) (v : UInt64) :
    walk m r v = walk k.mem r v := by
  have htable : tableAt pte (entry m) r (path v) = tableAt pte (entry k.mem) r (path v) := by
    refine tableAt_congr ?_
    intro p₁ i p₂ t hsplit ht
    have hlen : p₁.length ≤ 3 := by
      have := congrArg List.length hsplit
      simp [path] at this
      omega
    unfold next
    rw [entry_of_role hg hm (h.role_table hr (by simpa using hlen) ht)]
  unfold walk leafAt
  rw [htable]
  refine Option.bind_congr ?_
  intro t ht
  rw [entry_of_role hg hm (h.role_table (q := path v) hr (Nat.le_refl 3) ht)]

theorem WellTyped.onlyFrame (h : WellTyped R role k fl) (hg : IsData role fl g) {m : Mem}
    (hm : OnlyFrame k.mem m g) : Step R role k fl role { k with mem := m } fl := by
  refine ⟨⟨h.free, ?_, h.unused, h.range, h.null, h.roots, ?_⟩, id, id, ?_, rfl, rfl⟩
  · exact fun f hf => (hm f fun hfg => hg.2 (hfg ▸ hf)).zero (h.zero f hf)
  · intro t q ht i
    show Fits role fl q i (entry m t i)
    rw [entry_of_role hg.1 hm ht]
    exact h.fits ht i
  · exact fun r hr => entry_of_role hg.1 hm (h.roots r hr) 511

/-- A copy to a page whose translation does not depend on the frame it leads to. -/
theorem memcpy_onlyFrame {dest src ed : UInt64}
    (hstable : ∀ m, OnlyFrame k.mem m g → walk m k.root dest = some ed)
    (hg : pte.target ed = g) (hdest : dest.toNat % 4096 = 0)
    (hrun : memcpy dest src 4096 k = some k') :
    ∃ m, k' = { k with mem := m } ∧ OnlyFrame k.mem m g := by
  have hfold : ∀ (is : List Nat) {m : Mem}, (∀ i ∈ is, i < 4096) → OnlyFrame k.mem m g →
      is.foldlM (copyByte dest src) { k with mem := m } = some k' →
        ∃ m, k' = { k with mem := m } ∧ OnlyFrame k.mem m g := by
    intro is
    induction is with
    | nil =>
      intro m _ hm hrun
      exact ⟨m, (Option.some.inj hrun).symm, hm⟩
    | cons i is ih =>
      intro m his hm hrun
      rw [List.foldlM_cons] at hrun
      obtain ⟨k₁, hbyte, hrun⟩ := Option.bind_eq_some_iff.1 hrun
      obtain ⟨b, -, hstore⟩ := Option.bind_eq_some_iff.1 hbyte
      have hi : i < 4096 := his i (by simp)
      have hwalk : walk m k.root (dest + UInt64.ofNat i) = some ed := by
        rw [walk_congr m k.root (vpage_add_offset hdest hi)]
        exact hstable m hm
      rw [storeByte, translate_of_walk (k := { k with mem := m }) hwalk] at hstore
      obtain rfl := Option.some.inj hstore
      refine ih (fun j hj => his j (by simp [hj])) ?_ hrun
      intro x hx
      refine (hm x hx).trans (onlyFrame_write8 b ?_ x hx)
      rw [toNat_add_offset hdest hi]
      omega
  have hlen : (4096 : UInt64).toNat = 4096 := rfl
  unfold memcpy at hrun
  rw [hlen] at hrun
  split_ifs at hrun
  · refine hfold (List.range 4096).reverse ?_ (fun _ _ => SamePage.refl _ _) hrun
    exact fun i hi => List.mem_range.1 (List.mem_reverse.1 hi)
  · refine hfold (List.range 4096) ?_ (fun _ _ => SamePage.refl _ _) hrun
    exact fun i hi => List.mem_range.1 hi

/-- A copy of a page does not come to its end unless the target is mapped. -/
theorem memcpy_mapped {dest src : UInt64} (hdest : dest.toNat % 4096 = 0)
    (hrun : memcpy dest src 4096 k = some k') : ∃ ed, walk k.mem k.root dest = some ed := by
  have hfirst : ∀ {i : Nat} {is : List Nat}, i < 4096 →
      (i :: is).foldlM (copyByte dest src) k = some k' →
        ∃ ed, walk k.mem k.root dest = some ed := by
    intro i is hi hrun
    rw [List.foldlM_cons] at hrun
    obtain ⟨k₁, hbyte, -⟩ := Option.bind_eq_some_iff.1 hrun
    obtain ⟨b, -, hstore⟩ := Option.bind_eq_some_iff.1 hbyte
    obtain ⟨a, ha, -⟩ := Option.map_eq_some_iff.1 hstore
    obtain ⟨ed, hed, -⟩ := Option.map_eq_some_iff.1 ha
    rw [walk_congr k.mem k.root (vpage_add_offset hdest hi)] at hed
    exact ⟨ed, hed⟩
  unfold memcpy at hrun
  have hlen : (4096 : UInt64).toNat = 4095 + 1 := rfl
  rw [hlen] at hrun
  split_ifs at hrun
  · rw [List.range_succ, List.reverse_append, List.reverse_singleton, List.singleton_append] at hrun
    exact hfirst (by decide) hrun
  · rw [List.range_succ_eq_map] at hrun
    exact hfirst (by decide) hrun

theorem Lower.slot_lt {v : UInt64} (h : Lower v) : (slot (getPML4Index v)).val < 256 := by
  rw [slot_val_pml4]
  unfold Lower at h
  omega

/-- A fault at a lower-half address. -/
theorem pgFaultHandler_typed {r : Nat} (h : WellTyped R role k fl) (hr : r ∈ R)
    (hcr3 : k.cr3.toNat = 4096 * r) (hv : Lower v) (hrun : pgFaultHandler v k = some k') :
    ∃ role' fl', Step R role k fl role' k' fl' := by
  obtain ⟨pteEntry, -, hrun⟩ := Option.bind_eq_some_iff.1 hrun
  split_ifs at hrun
  swap
  · obtain rfl := Option.some.inj hrun
    exact ⟨role, fl, .refl h⟩
  rw [kmalloc_page] at hrun
  obtain ⟨⟨tempVaddr, k₁⟩, halloc, hrun⟩ := Option.bind_eq_some_iff.1 hrun
  obtain ⟨paddr, hpaddr, hrun⟩ := Option.bind_eq_some_iff.1 hrun
  obtain ⟨k₂, hcopy, hmap⟩ := Option.bind_eq_some_iff.1 hrun
  cases fl with
  | nil =>
    rw [h.free.pageAllocAddr_nil] at halloc
    nomatch halloc
  | cons f fl =>
    obtain ⟨a, hpop, ha, hfree⟩ := h.free.pageAllocAddr_cons
    obtain ⟨rfl, rfl⟩ := Prod.mk.inj (Option.some.inj (hpop.symm.trans halloc))
    obtain ⟨htake, hf⟩ := h.takePage hfree
    have hfrange := (h.range f (by simp)).2
    have halign : a.toNat % 4096 = 0 := by omega
    have hpage : vpage a = f := by
      unfold vpage
      omega
    have hlow : (slot (getPML4Index a)).val < 510 := by
      rw [slot_val_pml4]
      omega
    have hself : getAddress a = a := by
      refine UInt64.toNat_inj.1 ?_
      rw [getAddress_toNat]
      show 4096 * (a.toNat / 4096) = a.toNat
      omega
    have hroot : k.pop.root = r := root_eq hcr3
    have hrr := h.roots r hr
    -- The new page is mapped, to a frame that is no table.
    obtain ⟨ed, hwalk⟩ := memcpy_mapped halign hcopy
    rw [hroot] at hwalk
    obtain ⟨t, ht, hentry, hpres⟩ := leafAt_eq_some hwalk
    have hrole := htake.typed.role_table hrr (by simp [path]) ht
    have hdata : IsData role fl (pte.target ed) := by
      have hfits := (htake.typed.fits hrole (ptSlot a) (hentry.symm ▸ hpres)).2 rfl (by
        intro i hi
        obtain rfl := Option.some.inj hi
        exact hlow)
      rw [hentry, List.nil_append, pageAt_eq_vpage, hpage] at hfits
      rcases hfits with hsame | hdata
      · rw [hsame]
        exact hf
      · exact hdata
    have hphy : paddr = ed := by
      have hnull : ∀ q, q ≠ [] → q <+: path a → k.pop.table r q ≠ some 0 := by
        intro q hq hpre hzero
        have hlen := hpre.length_le
        exact hq (h.null (htake.typed.role_table hrr (by simpa [path] using hlen) hzero))
      rw [hself, phyAddr_eq (k := k.pop) hcr3 hnull ht, hentry] at hpaddr
      exact (Option.some.inj hpaddr).symm
    obtain ⟨m, rfl, hm⟩ := memcpy_onlyFrame (k := k.pop) (g := pte.target ed)
      (fun m hm => by
        rw [hroot, htake.typed.walk_onlyFrame hrr hdata.1 hm]
        exact hwalk) rfl halign hcopy
    have hcopied := htake.typed.onlyFrame hdata hm
    have hslot : (slot (getPML4Index (v / 4096 * 4096))).val < 256 := by
      have hbase := toNat_pageBase v
      refine Lower.slot_lt ?_
      unfold Lower at hv ⊢
      omega
    obtain ⟨role', fl', hstep⟩ := mapPage_typed hcopied.typed (s := r) hcr3 hrr
      (fun _ => by omega) (fun _ => Or.inr (hphy ▸ hdata)) hmap
    exact ⟨role', fl', (htake.trans hcopied).trans hstep⟩

/-! ## Boot -/

/-- One more PML4 is in use. -/
theorem WellTyped.insert_root (h : WellTyped R role k fl) (hr : role s = some []) :
    WellTyped (insert s R) role k fl := by
  refine ⟨h.free, h.zero, h.unused, h.range, h.null, ?_, h.fits⟩
  intro x hx
  rcases Set.mem_insert_iff.1 hx with rfl | hx
  · exact hr
  · exact h.roots x hx

/-- The roles when there is a PML4 only. -/
def rootRole (s : Nat) : Role := fun t => if t = s then some [] else none

theorem rootRole_self (s : Nat) : rootRole s s = some [] := if_pos rfl

/-- The state after `pml4 = page_alloc()->addr`. -/
theorem typed_blank (hfree : FreeFrames k.frames (s :: fl))
    (hzero : ∀ f ∈ s :: fl, ZeroPage k.mem f) (hrange : ∀ f ∈ fl, f ≠ 0 ∧ f < 2 ^ 31) {a : UInt64}
    (hpop : FreeFrames k.pop.frames fl) :
    WellTyped ∅ (rootRole s) { k.pop with pml4 := a } fl := by
  refine ⟨hpop, fun f hf => hzero f (List.mem_cons_of_mem _ hf), ?_, hrange, ?_, nofun, ?_⟩
  · intro f hf
    refine if_neg ?_
    rintro rfl
    exact (List.nodup_cons.1 hfree.nodup).1 hf
  · intro p hp
    unfold rootRole at hp
    split_ifs at hp
    exact (Option.some.inj hp).symm
  · intro t p ht i hpres
    unfold rootRole at ht
    split_ifs at ht with hts
    have hblank : entry k.mem t i = 0 := entry_zero (hzero t (by simp [hts])) i
    change pte.present (entry k.mem t i) = true at hpres
    rw [hblank] at hpres
    exact absurd hpres (by decide)

theorem mapKernelPages_typed {pt : UInt64} (h : WellTyped R role k fl) (hpt : pt.toNat = 4096 * t)
    (ht : role t = some p) (hlen : p.length = 3) (hhead : p.head? = some 511) (physfree : UInt64) :
    Step R role k fl role (mapKernelPages pt physfree k) fl := by
  have hfold : ∀ (is : List Nat) {k₀ : Kernel}, WellTyped R role k₀ fl →
      Step R role k₀ fl role (is.foldl (mapKernelPage pt) k₀) fl := by
    intro is
    induction is with
    | nil => exact fun h₀ => .refl h₀
    | cons i is ih =>
      intro k₀ h₀
      have hp0 : p ≠ [] := List.ne_nil_of_length_pos (by omega)
      have hstep : Step R role k₀ fl role (mapKernelPage pt k₀ i) fl := by
        refine h₀.store hpt (toNat_and_511 _) ht ?_ fun hr => absurd hr (h₀.not_root ht hp0)
        intro _
        exact ⟨fun hlt => by omega, fun _ hlow => absurd (hlow 511 hhead) (by decide)⟩
      exact hstep.trans (ih hstep.typed)
  exact hfold _ h

theorem pagetableInit_typed {physfree : UInt64} (hfree : FreeFrames k.frames fl)
    (hzero : ∀ f ∈ fl, ZeroPage k.mem f) (htail : ∀ f ∈ fl.tail, f ≠ 0) (hlt : ∀ f ∈ fl, f < 2 ^ 31)
    (hrun : pagetableInit physfree k = some k') :
    ∃ s role fl', k'.pml4.toNat = 4096 * s ∧ role s = some [] ∧ WellTyped ∅ role k' fl' := by
  obtain ⟨⟨pml4, k₀⟩, hpml4, hrun⟩ := Option.bind_eq_some_iff.1 hrun
  cases fl with
  | nil =>
    rw [hfree.pageAllocAddr_nil] at hpml4
    nomatch hpml4
  | cons s fl =>
    obtain ⟨a, hpop, ha, hfree'⟩ := hfree.pageAllocAddr_cons
    obtain ⟨rfl, rfl⟩ := Prod.mk.inj (Option.some.inj (hpop.symm.trans hpml4))
    have h₀ := typed_blank hfree hzero
      (fun f hf => ⟨htail f hf, hlt f (List.mem_cons_of_mem _ hf)⟩) (a := a) hfree'
    set k₀ : Kernel := { k.pop with pml4 := a }
    have hroot := rootRole_self s
    -- Each of the three tables may be missing only at address 0, and then nothing is mapped.
    suffices hstep : ∃ role' fl', Step ∅ (rootRole s) k₀ fl role' k' fl' by
      obtain ⟨role', fl', hstep⟩ := hstep
      exact ⟨s, role', fl', hstep.pml4.symm ▸ ha, hstep.keeps hroot, hstep.typed⟩
    dsimp only at hrun
    split_ifs at hrun
    · obtain rfl := Option.some.inj hrun
      exact ⟨_, _, Step.refl h₀⟩
    obtain ⟨⟨pdpt, k₁⟩, hrun₁, hrun⟩ := Option.bind_eq_some_iff.1 hrun
    obtain ⟨role₁, fl₁, t₁, hstep₁, ha₁, ht₁⟩ :=
      tableAlloc_typed h₀ ha (toNat_and_511 _) hroot (by simp) nofun hrun₁
    split_ifs at hrun
    · obtain rfl := Option.some.inj hrun
      exact ⟨_, _, hstep₁⟩
    obtain ⟨⟨pdt, k₂⟩, hrun₂, hrun⟩ := Option.bind_eq_some_iff.1 hrun
    obtain ⟨role₂, fl₂, t₂, hstep₂, ha₂, ht₂⟩ :=
      tableAlloc_typed hstep₁.typed ha₁ (toNat_and_511 _) ht₁ (by simp) nofun hrun₂
    split_ifs at hrun
    · obtain rfl := Option.some.inj hrun
      exact ⟨_, _, hstep₁.trans hstep₂⟩
    obtain ⟨⟨pt, k₃⟩, hrun₃, hrun⟩ := Option.bind_eq_some_iff.1 hrun
    obtain ⟨role₃, fl₃, t₃, hstep₃, ha₃, ht₃⟩ :=
      tableAlloc_typed hstep₂.typed ha₂ (toNat_and_511 _) ht₂ (by simp) nofun hrun₃
    have hstep := (hstep₁.trans hstep₂).trans hstep₃
    split_ifs at hrun
    · obtain rfl := Option.some.inj hrun
      exact ⟨_, _, hstep⟩
    obtain rfl := Option.some.inj hrun
    exact ⟨_, _, hstep.trans (mapKernelPages_typed hstep₃.typed ha₃ ht₃ (by simp) rfl physfree)⟩

theorem mapVirtAddress_typed (h : WellTyped R role k fl) (hpml4 : k.pml4.toNat = 4096 * s)
    (hs : role s = some []) (hR : s ∉ R) (hmaps : Maps role fl v paddr)
    (hrun : mapVirtAddress v paddr k = some k') : ∃ role' fl', Step R role k fl role' k' fl' :=
  mapPage_typed h hpml4 hs (fun hr => absurd hr hR) hmaps hrun

theorem mapPagesFrom_typed (h : WellTyped R role k fl) (hpml4 : k.pml4.toNat = 4096 * s)
    (hs : role s = some []) (hR : s ∉ R) (hrun : mapPagesFrom v k = some k') :
    ∃ role' fl', Step R role k fl role' k' fl' := by
  induction v, k using mapPagesFrom.induct generalizing role fl with
  | case1 v k hle ih =>
    rw [mapPagesFrom, if_pos hle] at hrun
    obtain ⟨k₁, hrun₁, hrun⟩ := Option.bind_eq_some_iff.1 hrun
    have hsame : pte.target v = vpage v := by
      show v.toNat / 4096 = v.toNat % 2 ^ 48 / 4096
      omega
    obtain ⟨role₁, fl₁, hstep⟩ := mapVirtAddress_typed h hpml4 hs hR (fun _ => .inl hsame) hrun₁
    obtain ⟨role', fl', hrest⟩ := ih k₁ hstep.typed (hstep.pml4.symm ▸ hpml4) (hstep.keeps hs) hrun
    exact ⟨role', fl', hstep.trans hrest⟩
  | case2 v k hgt =>
    rw [mapPagesFrom, if_neg hgt] at hrun
    obtain rfl := Option.some.inj hrun
    exact ⟨role, fl, .refl h⟩

/-- The kernel's address space after `mem_alloc`. -/
theorem memAlloc_typed {n : Nat} {physfree : UInt64} (hn : n < 2 ^ 31)
    (hframes : k.frames = Frames.zero) (hzero : ∀ f ∈ initFree physfree n, ZeroPage k.mem f)
    (hrun : memAlloc n physfree k = some k') :
    ∃ s role fl', k'.cr3.toNat = 4096 * s ∧ WellTyped {s} role k' fl' := by
  obtain ⟨k₁, hrun₁, hrun⟩ := Option.bind_eq_some_iff.1 hrun
  obtain ⟨k₂, hrun₂, hrun⟩ := Option.bind_eq_some_iff.1 hrun
  obtain ⟨k₃, hrun₃, hrun⟩ := Option.bind_eq_some_iff.1 hrun
  obtain rfl := Option.some.inj hrun
  have hfree := freeFrames_pageInit physfree hn
  rw [← hframes] at hfree
  obtain ⟨s, role, fl, hpml4, hs, h₁⟩ := pagetableInit_typed
    (k := { k with frames := pageInit physfree n k.frames }) hfree hzero tail_initFree
    (fun f hf => ((mem_initFree.1 hf).2).trans hn) hrun₁
  obtain ⟨role₂, fl₂, h₂⟩ := mapPagesFrom_typed h₁ hpml4 hs (by simp) hrun₂
  -- The video memory is mapped above PML4 entry 510.
  obtain ⟨role₃, fl₃, h₃⟩ := mapVirtAddress_typed h₂.typed (h₂.pml4.symm ▸ hpml4) (h₂.keeps hs)
    (by simp) (fun hlow => absurd hlow (by decide)) hrun₃
  have hall := h₂.trans h₃
  have htyped := hall.typed.insert_root (hall.keeps hs)
  rw [insert_empty_eq] at htyped
  exact ⟨s, role₃, fl₃, hall.pml4.symm ▸ hpml4, htyped.free, htyped.zero, htyped.unused,
    htyped.range, htyped.null, htyped.roots, htyped.fits⟩

end

/-! ## Runs -/

/-- The machine, the PML4s of the address spaces and the pages that `page_alloc` has handed out to
be mapped in them. -/
structure Spaces where
  kernel : Kernel
  procs : List UInt64
  pages : List UInt64

/-- What the kernel does in the `i`-th address space, or a page taken by a caller of
`map_process`. -/
inductive SpaceOp where
  | setUserAddrSpace (i : Nat)
  | copyPageTablesForchild (i : Nat)
  | pageAlloc
  | mapProcess (i : Nat) (vaddr paddr : UInt64)
  | pgFaultHandler (i : Nat) (faultAddr : UInt64)

/-- One operation, under the `CR3` of its address space. -/
def spaceStep (s : Spaces) : SpaceOp → Option Spaces
  | .setUserAddrSpace i => do
    let cr3 ← s.procs[i]?
    let (newPML4, k) ← setUserAddrSpace (setCR3 cr3 s.kernel)
    some { s with kernel := k, procs := s.procs ++ [newPML4] }
  | .copyPageTablesForchild i => do
    let cr3 ← s.procs[i]?
    let (childPML4, k) ← forkSpace (setCR3 cr3 s.kernel)
    some { s with kernel := k, procs := s.procs ++ [childPML4] }
  | .pageAlloc => do
    let (a, k) ← s.kernel.pageAllocAddr
    some { s with kernel := k, pages := a :: s.pages }
  | .mapProcess i vaddr paddr => do
    let cr3 ← s.procs[i]?
    let k ← mapProcess vaddr paddr (setCR3 cr3 s.kernel)
    some { s with kernel := k }
  | .pgFaultHandler i faultAddr => do
    let cr3 ← s.procs[i]?
    let k ← pgFaultHandler faultAddr (setCR3 cr3 s.kernel)
    some { s with kernel := k }

/-- Pages are mapped and faults are handled in the lower half, and what is mapped is a page from
`page_alloc`, as in `elf_load` and `get_phy_addr`. -/
def InLowerHalf (s : Spaces) : SpaceOp → Prop
  | .mapProcess _ vaddr paddr => Lower vaddr ∧ paddr ∈ s.pages
  | .pgFaultHandler _ faultAddr => Lower faultAddr
  | _ => True

/-- The invariant: all PML4s have the entry `e` at 511. -/
structure Shared (e : UInt64) (s : Spaces) (role : Role) (fl : List Nat) : Prop where
  typed : WellTyped (roots s.procs) role s.kernel fl
  aligned : ∀ a ∈ s.procs, ∃ r, a.toNat = 4096 * r
  last : ∀ r ∈ roots s.procs, entry s.kernel.mem r 511 = e
  pages : ∀ a ∈ s.pages, IsData role fl (pte.target a)

section

variable {e : UInt64} {s s' : Spaces} {role role' : Role} {k' : Kernel} {fl fl' : List Nat}
  {cr3 : UInt64} {i : Nat}

/-- The address space of a process, when it runs. -/
theorem Shared.current (h : Shared e s role fl) (hcr3 : s.procs[i]? = some cr3) :
    ∃ r ∈ roots s.procs, (setCR3 cr3 s.kernel).cr3.toNat = 4096 * r ∧
      WellTyped (roots s.procs) role (setCR3 cr3 s.kernel) fl := by
  have hmem := List.mem_of_getElem? hcr3
  obtain ⟨r, hr⟩ := h.aligned cr3 hmem
  exact ⟨r, ⟨cr3, hmem, hr⟩, hr, h.typed.free, h.typed.zero, h.typed.unused, h.typed.range,
    h.typed.null, h.typed.roots, h.typed.fits⟩

theorem Shared.step (h : Shared e s role fl)
    (hstep : Step (roots s.procs) role (setCR3 cr3 s.kernel) fl role' k' fl') :
    Shared e { s with kernel := k' } role' fl' where
  typed := hstep.typed
  aligned := h.aligned
  last r hr := (hstep.root r hr).trans (h.last r hr)
  pages a ha := hstep.data (h.pages a ha)

theorem Shared.newRoot {r c : Nat} {a : UInt64} (h : Shared e s role fl) (hr : r ∈ roots s.procs)
    (ha : a.toNat = 4096 * c)
    (hnew : NewRoot (roots s.procs) role (setCR3 cr3 s.kernel) fl r c role' k' fl') :
    Shared e { s with kernel := k', procs := s.procs ++ [a] } role' fl' := by
  have hstep := h.step hnew.step
  have hroots : roots (s.procs ++ [a]) = insert c (roots s.procs) := roots_append s.procs ha
  refine ⟨?_, ?_, ?_, hstep.pages⟩
  · show WellTyped (roots (s.procs ++ [a])) role' k' fl'
    rw [hroots]
    exact hstep.typed.insert_root hnew.root
  · intro b hb
    rcases List.mem_append.1 hb with hb | hb
    · exact h.aligned b hb
    · obtain rfl := List.mem_singleton.1 hb
      exact ⟨c, ha⟩
  · intro x hx
    change x ∈ roots (s.procs ++ [a]) at hx
    rw [hroots] at hx
    rcases Set.mem_insert_iff.1 hx with rfl | hx
    · exact hnew.entry.trans (h.last r hr)
    · exact hstep.last x hx

/-- One step. -/
theorem spaceStep_shared {op : SpaceOp} (h : Shared e s role fl) (hok : InLowerHalf s op)
    (hrun : spaceStep s op = some s') : ∃ role' fl', Shared e s' role' fl' := by
  cases op with
  | setUserAddrSpace i =>
    obtain ⟨cr3, hcr3, hrun⟩ := Option.bind_eq_some_iff.1 hrun
    obtain ⟨⟨a, k'⟩, hnew, hrun⟩ := Option.bind_eq_some_iff.1 hrun
    obtain rfl := Option.some.inj hrun
    obtain ⟨r, hr, hk, ht⟩ := h.current hcr3
    obtain ⟨c, role', fl', ha, hroot⟩ := setUserAddrSpace_typed ht hr hk hnew
    exact ⟨role', fl', h.newRoot hr ha hroot⟩
  | copyPageTablesForchild i =>
    obtain ⟨cr3, hcr3, hrun⟩ := Option.bind_eq_some_iff.1 hrun
    obtain ⟨⟨a, k'⟩, hnew, hrun⟩ := Option.bind_eq_some_iff.1 hrun
    obtain rfl := Option.some.inj hrun
    obtain ⟨r, hr, hk, ht⟩ := h.current hcr3
    obtain ⟨c, role', fl', ha, hroot⟩ := forkSpace_typed ht hr hk hnew
    exact ⟨role', fl', h.newRoot hr ha hroot⟩
  | pageAlloc =>
    obtain ⟨⟨a, k'⟩, halloc, hrun⟩ := Option.bind_eq_some_iff.1 hrun
    obtain rfl := Option.some.inj hrun
    cases fl with
    | nil =>
      rw [h.typed.free.pageAllocAddr_nil] at halloc
      nomatch halloc
    | cons f fl =>
      obtain ⟨b, hpop, hb, hfree⟩ := h.typed.free.pageAllocAddr_cons
      obtain ⟨rfl, rfl⟩ := Prod.mk.inj (Option.some.inj (hpop.symm.trans halloc))
      obtain ⟨htake, hf⟩ := h.typed.takePage hfree
      refine ⟨role, fl, htake.typed, h.aligned, h.last, ?_⟩
      intro x hx
      rcases List.mem_cons.1 hx with rfl | hx
      · have htarget : pte.target x = f := by
          show x.toNat / 4096 = f
          omega
        rw [htarget]
        exact hf
      · exact htake.data (h.pages x hx)
  | mapProcess i vaddr paddr =>
    obtain ⟨cr3, hcr3, hrun⟩ := Option.bind_eq_some_iff.1 hrun
    obtain ⟨k', hmap, hrun⟩ := Option.bind_eq_some_iff.1 hrun
    obtain rfl := Option.some.inj hrun
    obtain ⟨r, hr, hk, ht⟩ := h.current hcr3
    obtain ⟨hlow, hpage⟩ := hok
    have hslot := hlow.slot_lt
    obtain ⟨role', fl', hstep⟩ := mapPage_typed ht hk (ht.roots r hr) (fun _ => by omega)
      (fun _ => .inr (h.pages paddr hpage)) hmap
    exact ⟨role', fl', h.step hstep⟩
  | pgFaultHandler i faultAddr =>
    obtain ⟨cr3, hcr3, hrun⟩ := Option.bind_eq_some_iff.1 hrun
    obtain ⟨k', hfault, hrun⟩ := Option.bind_eq_some_iff.1 hrun
    obtain rfl := Option.some.inj hrun
    obtain ⟨r, hr, hk, ht⟩ := h.current hcr3
    obtain ⟨role', fl', hstep⟩ := pgFaultHandler_typed ht hr hk hok hfault
    exact ⟨role', fl', h.step hstep⟩

/-- Two PML4s with one entry 511 have the same translations there. -/
theorem Shared.walkIn_eq (h : Shared e s role fl) {a b v : UInt64} (ha : a ∈ s.procs)
    (hb : b ∈ s.procs) (hv : getPML4Index v = 511) :
    walkIn s.kernel a v = walkIn s.kernel b v := by
  have hroot : ∀ {a}, a ∈ s.procs → entry s.kernel.mem (a.toNat / 4096) 511 = e := by
    intro a ha
    obtain ⟨r, hr⟩ := h.aligned a ha
    have hdiv : a.toNat / 4096 = r := by omega
    rw [hdiv]
    exact h.last r ⟨a, ha, hr⟩
  have hslot : slot (getPML4Index v) = 511 := by
    rw [hv]
    rfl
  refine leafAt_of_tableAt_eq ?_
  refine tableAt_of_next_eq ?_ _
  unfold next
  rw [hslot, hroot ha, hroot hb]

end

theorem roots_singleton {a : UInt64} {r : Nat} (ha : a.toNat = 4096 * r) : roots [a] = {r} := by
  ext x
  simp only [roots, Set.mem_ofPred_eq, List.mem_singleton, exists_eq_left, Set.mem_singleton_iff,
    ha]
  omega

/-- **The kernel's half is shared.** In every run from boot, an address with PML4 index 511
translates the same in all address spaces. -/
theorem kernel_half_shared (n : Nat) (physfree : UInt64) (k k₀ : Kernel) (ops : List SpaceOp)
    (s : Spaces) (hn : n < 2 ^ 31) (hframes : k.frames = Frames.zero)
    (hzero : ∀ f ∈ initFree physfree n, ZeroPage k.mem f)
    (hboot : memAlloc n physfree k = some k₀)
    (hrun : Run spaceStep InLowerHalf ⟨k₀, [k₀.cr3], []⟩ ops s) :
    ∀ a ∈ s.procs, ∀ b ∈ s.procs, ∀ v, getPML4Index v = 511 →
      walkIn s.kernel a v = walkIn s.kernel b v := by
  obtain ⟨r, role, fl, hcr3, htyped⟩ := memAlloc_typed hn hframes hzero hboot
  have hroots : roots [k₀.cr3] = {r} := roots_singleton hcr3
  have hinit : Shared (entry k₀.mem r 511) ⟨k₀, [k₀.cr3], []⟩ role fl := by
    refine ⟨?_, ?_, ?_, nofun⟩
    · show WellTyped (roots [k₀.cr3]) role k₀ fl
      rw [hroots]
      exact htyped
    · intro a ha
      obtain rfl := List.mem_singleton.1 ha
      exact ⟨r, hcr3⟩
    · intro x hx
      change x ∈ roots [k₀.cr3] at hx
      rw [hroots] at hx
      rw [Set.mem_singleton_iff.1 hx]
  obtain ⟨role', fl', h⟩ := hrun.invariant
    (I := fun s => ∃ role fl, Shared (entry k₀.mem r 511) s role fl)
    (fun ⟨_, _, h⟩ hok hstep => spaceStep_shared h hok hstep) ⟨role, fl, hinit⟩
  exact fun a ha b hb v hv => h.walkIn_eq ha hb hv

/-- Two address spaces on a machine with 5 MiB. -/
theorem kernel_half_shared_two : ∃ k₀ s, memAlloc 0x500 0x300000 zeroKernel = some k₀ ∧
    Run spaceStep InLowerHalf ⟨k₀, [k₀.cr3], []⟩ [.setUserAddrSpace 0] s ∧ s.procs.length = 2 ∧
    ∀ a ∈ s.procs, ∀ b ∈ s.procs, ∀ v, getPML4Index v = 511 →
      walkIn s.kernel a v = walkIn s.kernel b v := by
  have hzero : ∀ f ∈ initFree 0x300000 0x500, ZeroPage zeroKernel.mem f := fun _ _ _ _ => rfl
  rcases memAlloc_boot (by decide) (by decide) rfl hzero with
    ⟨-, hshort⟩ | ⟨k₀, root, fl, hboot, hspace, -, hlen, -, -⟩
  · rw [length_initFree] at hshort
    exact absurd hshort (by decide)
  · have hbig : bootTables 0x300000 (pageInitMemory 0x300000 0x500).toNat <
        (initFree 0x300000 0x500).length := by
      rw [length_initFree]
      decide
    cases fl with
    | nil =>
      rw [List.length_nil] at hlen
      omega
    | cons f fl =>
      obtain ⟨a, hpop, -, -⟩ := hspace.paging.free.pageAllocAddr_cons
      have hnew : spaceStep ⟨k₀, [k₀.cr3], []⟩ (.setUserAddrSpace 0) = some
          ⟨(List.finRange 512).foldl (copyEntry a k₀.cr3) k₀.pop, [k₀.cr3, a], []⟩ := by
        have hsame : setCR3 k₀.cr3 k₀ = k₀ := rfl
        simp only [spaceStep, List.getElem?_cons_zero, hsame, setUserAddrSpace, hpop,
          Option.bind_eq_bind, Option.bind_some, Kernel.pop]
        rfl
      have hrun : Run spaceStep InLowerHalf ⟨k₀, [k₀.cr3], []⟩ [.setUserAddrSpace 0] _ :=
        .cons trivial hnew (.nil _)
      exact ⟨k₀, _, hboot, hrun, rfl,
        kernel_half_shared 0x500 0x300000 zeroKernel k₀ _ _ (by decide) rfl hzero hboot hrun⟩

end Sbunix
