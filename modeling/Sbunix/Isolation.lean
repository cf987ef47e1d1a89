import Sbunix.VirtualLoad

/-!
# Isolation at process creation

`set_user_AddrSpace` and the calls of `map_process` follow pointers to tables, and the processor
translates these pointers, first under the PML4 of the creator and then under the new one. Where
the frames of the tables are mapped at their own addresses, and the calls keep them there, a
creation is the one of `UserSpace` (`createSpace_eq`). `isolation_iff` says when it leaves the
creator and the other processes alone.
-/

namespace Sbunix

open Lib Lib.Radix

namespace Virtual

/-- `newPML4->pt_entries[i] = curPML4->pt_entries[i]`. -/
def copyEntry (newPML4 curPML4 : UInt64) (k : Kernel) (i : Fin 512) : Option Kernel := do
  let e ← load64 (curPML4 + 8 * UInt64.ofNat i) k
  store64 (newPML4 + 8 * UInt64.ofNat i) e k

/-- `set_user_AddrSpace`. -/
def setUserAddrSpace (k : Kernel) : Option (UInt64 × Kernel) := do
  let (newPML4, k) ← k.pageAllocAddr
  let k ← (List.finRange 512).foldlM (copyEntry newPML4 k.cr3) k
  some (newPML4, k)

/-- A sequence of `map_process` calls `(v, p)`. -/
def mapProcesses (k : Kernel) (calls : List (UInt64 × UInt64)) : Option Kernel :=
  calls.foldlM (fun k c => mapProcess c.1 c.2 k) k

/-- A new address space, and the calls of `map_process` made while it is in `CR3`. -/
def createSpace (calls : List (UInt64 × UInt64)) (k : Kernel) : Option Kernel := do
  let (newPML4, k) ← setUserAddrSpace k
  mapProcesses (setCR3 newPML4 k) calls

end Virtual

/-- The frames that a creation follows pointers to: the creator's tables, the new PML4 and those
that become tables. -/
def pointed (k : Kernel) (c : Nat) (D : Finset (List (Fin 512))) (fl : List Nat)
    (calls : List (UInt64 × UInt64)) : Set Nat :=
  {g | (∃ q ∈ lowerPaths, k.table c q = some g) ∨ g ∈ fl.take 1 ∨ g ∈ newTables D fl calls}

/-- The frame `g` is mapped at its own address in the lower half, and a call for this address maps
it there again. -/
structure OwnAddress (k : Kernel) (c : Nat) (calls : List (UInt64 × UInt64)) (g : Nat) : Prop where
  lower : Lower (identityAddr g)
  mapped : ∃ e, walk k.mem c (identityAddr g) = some e ∧ pte.target e = g
  kept : ∀ d ∈ calls, vpage (identityAddr g) = vpage d.1 → pte.target (d.2 ||| pteFlags) = g

namespace Virtual

section

variable {R F U : Set Nat} {c f root : Nat} {D : Finset (List (Fin 512))} {k k' l l₀ k₀' : Kernel}
  {fl T : List Nat} {calls : List (UInt64 × UInt64)} {a cur new : UInt64}

/-- The new PML4 is no table of the creator, so that the pointers lead to the same frames during the
copy. -/
theorem copyEntries_eq (h : BesideFree lowerPaths R k fl) (hf : f ∈ fl) (hc : c ∈ R)
    (hcr3 : k.cr3.toNat = 4096 * c) (hcur : cur.toNat = 4096 * c) (hnew : new.toNat = 4096 * f)
    (hown : ∀ g, g = c ∨ g = f → OwnAddress k c calls g) (is : List (Fin 512)) (l : Kernel)
    (hl : l.cr3 = k.cr3) (hsame : ∀ g ≠ f, SamePage k.mem l.mem g) :
    is.foldlM (copyEntry new cur) l = some (is.foldl (Sbunix.copyEntry new cur) l) := by
  induction is generalizing l with
  | nil => rfl
  | cons i is ih =>
    have hi := i.isLt
    have htranslate : ∀ g, g = c ∨ g = f → ∀ b : UInt64, b.toNat = 4096 * g + 8 * i →
        translate b l = some b.toNat := by
      intro g hg b hb
      obtain ⟨e, hwalk, htarget⟩ := (hown g hg).mapped
      refine translate_direct (hl ▸ hcr3) ?_ htarget hb (by omega)
      refine Eq.trans ?_ hwalk
      refine leafAt_of_agree (prefixClosed_pathsBelow 256) hc (hown g hg).lower.path_mem ?_
      exact fun t ht => entry_congr (hsame t fun htf => ht (htf ▸ h.fresh f hf))
    have hidx : (UInt64.ofNat i).toNat = i.val := toNat_ofNat_fin i
    have hstep : copyEntry new cur l i = some (Sbunix.copyEntry new cur l i) := by
      have hfrom := htranslate c (.inl rfl) _ (toNat_entryAddr hcur hidx)
      have hto := htranslate f (.inr rfl) _ (toNat_entryAddr hnew hidx)
      rw [copyEntry, load64, hfrom, toNat_entryAddr hcur hidx]
      simp only [Option.map_some, Option.bind_eq_bind, Option.bind_some, store64, hto,
        toNat_entryAddr hnew hidx, Sbunix.copyEntry, Kernel.setPtEntry, Kernel.ptEntry, hidx, hcur,
        hnew]
    rw [List.foldlM_cons, hstep, List.foldl_cons]
    refine ih _ hl ?_
    intro g hg
    exact (hsame g hg).trans (samePage_setPtEntry hnew hidx _ hg)

theorem setUserAddrSpace_eq (h : Processes R c D k (f :: fl))
    (hown : ∀ g, g = c ∨ g = f → OwnAddress k c calls g) :
    setUserAddrSpace k = Sbunix.setUserAddrSpace k := by
  obtain ⟨a, hpop, ha, -⟩ := h.beside.free.pageAllocAddr_cons
  have hcopy := copyEntries_eq h.beside List.mem_cons_self h.creator h.cr3 h.cr3 ha hown
    (List.finRange 512) k.pop rfl fun g _ => SamePage.refl _ _
  have hcr3 : k.pop.cr3 = k.cr3 := rfl
  rw [setUserAddrSpace, Sbunix.setUserAddrSpace, hpop]
  simp only [Option.bind_eq_bind, Option.bind_some, hcr3, hcopy]

/-- The first of a sequence of calls. -/
theorem mapProcesses_cons {d : UInt64 × UInt64} (h : Paging lowerPaths R k fl) (hroot : root ∈ R)
    (hcr3 : k.cr3.toNat = 4096 * root) (hd : Lower d.1)
    (hrun : Sbunix.mapProcesses k (d :: calls) = some k') :
    ∃ k₁ fl₁, mapPage k.cr3 d.1 d.2 k = some k₁ ∧ Sbunix.mapProcesses k₁ calls = some k' ∧
      Extends lowerPaths R root k k₁ fl fl₁ ∧
      ∀ w, path w ∈ lowerPaths → walk k₁.mem root w =
        if vpage w = vpage d.1 then some (d.2 ||| pteFlags) else walk k.mem root w := by
  rw [Sbunix.mapProcesses, List.foldlM_cons] at hrun
  obtain ⟨k₁, hstep, hrest⟩ := Option.bind_eq_some_iff.1 hrun
  rcases mapPage_spec (prefixClosed_pathsBelow 256) h hroot hcr3 hd.path_mem
    (path_maximal_below 256 d.1) d.2 with ⟨hnone, -⟩ | ⟨k₂, fl₁, t, hsome, hext, -, ht, hleaf⟩
  · rw [Sbunix.mapProcess, hnone] at hstep
    cases hstep
  · obtain rfl := Option.some.inj (hsome.symm.trans hstep)
    obtain ⟨hself, hother⟩ := walk_update (path_maximal_below 256) hroot hd.path_mem hext ht hleaf
    refine ⟨k₂, fl₁, hsome, hrest, hext, fun w hw => ?_⟩
    split_ifs with hpage
    · rw [walk_congr _ _ hpage, hself]
    · exact hother w hw hpage

theorem mapProcesses_keeps (h : Paging lowerPaths R k fl) (hroot : root ∈ R)
    (hcr3 : k.cr3.toNat = 4096 * root) (hcalls : ∀ d ∈ calls, Lower d.1)
    (hrun : Sbunix.mapProcesses k calls = some k') {q : List (Fin 512)} (hq : q ∈ lowerPaths)
    {g : Nat} (hg : k.table root q = some g) : k'.table root q = some g := by
  induction calls generalizing k fl with
  | nil =>
    obtain rfl := Option.some.inj hrun
    exact hg
  | cons d calls ih =>
    obtain ⟨k₁, fl₁, -, hrest, hext, -⟩ :=
      mapProcesses_cons h hroot hcr3 (hcalls d List.mem_cons_self) hrun
    exact ih hext.paging (hext.cr3 ▸ hcr3) (fun e he => hcalls e (List.mem_cons_of_mem d he)) hrest
      (hext.tables hroot hq hg)

/-- A sequence of calls that keeps the tables `F` at their own addresses. -/
theorem mapProcesses_eq (h : Paging lowerPaths R k fl) (hroot : root ∈ R)
    (hcr3 : k.cr3.toNat = 4096 * root) (hcalls : ∀ d ∈ calls, Lower d.1) (ha : Agree U k l)
    (hrun : Sbunix.mapProcesses k calls = some k')
    (hF : ∀ q ∈ lowerPaths, ∀ g, k'.table root q = some g → g ∈ F) (hU : F ⊆ U)
    (hown : ∀ g ∈ F, OwnAddress k root calls g) :
    mapProcesses l calls = Sbunix.mapProcesses l calls := by
  have hS := prefixClosed_pathsBelow 256
  induction calls generalizing k l fl with
  | nil => rfl
  | cons d calls ih =>
    have hd := hcalls d List.mem_cons_self
    have hrest : ∀ e ∈ calls, Lower e.1 := fun e he => hcalls e (List.mem_cons_of_mem d he)
    obtain ⟨k₁, fl₁, hstep, hrun₁, hext, hwalk₁⟩ := mapProcesses_cons h hroot hcr3 hd hrun
    have htables : ∀ q ∈ lowerPaths, ∀ g, k₁.table root q = some g → g ∈ F := fun q hq g hg =>
      hF q hq g (mapProcesses_keeps hext.paging hroot (hext.cr3 ▸ hcr3) hrest hrun₁ hq hg)
    have hvirtual := mapProcess_eq hS (path_maximal_below 256) h hroot hcr3 hd.path_mem ha hstep
      htables hU (fun g hg => (hown g hg).lower.path_mem) fun g hg => (hown g hg).mapped
    obtain ⟨l₁, hstep', ha₁, -⟩ := mapPage_agree hS ha h hroot hcr3 hd.path_mem
      (path_maximal_below 256 d.1) hstep fun q i hq g hg => hU (htables q (hS.left hq) g hg)
    have hreal : Sbunix.mapProcess d.1 d.2 l = some l₁ := by
      rw [Sbunix.mapProcess, ha.cr3, hstep']
    rw [mapProcesses, Sbunix.mapProcesses, List.foldlM_cons, List.foldlM_cons, hvirtual, hreal]
    refine ih hext.paging (hext.cr3 ▸ hcr3) hrest ha₁ hrun₁ fun g hg => ?_
    obtain ⟨hlow, ⟨e, hwalk, htarget⟩, hkept⟩ := hown g hg
    refine ⟨hlow, ?_, fun e he => hkept e (List.mem_cons_of_mem d he)⟩
    rw [hwalk₁ _ hlow.path_mem]
    split_ifs with hpage
    · exact ⟨_, rfl, hkept d List.mem_cons_self hpage⟩
    · exact ⟨e, hwalk, htarget⟩

/-- The new PML4 translates a lower-half address as the creator does. -/
theorem walk_new (h : Processes R c D k (f :: fl)) (hc : Creation R c f fl T calls a k l l₀ k' k₀')
    {w : UInt64} (hw : Lower w) : walk (setCR3 a l₀).mem f w = walk k.mem c w := by
  have hshared : walk l₀.mem f w = walk l₀.mem c w :=
    leafAt_of_tableAt_eq
      (tableAt_of_next_eq ((hc.new.shared _).trans (hc.new.below h.creator _).symm) _)
  have hcleared : walk (k.cleared (spare fl T)).mem c w = walk k.mem c w :=
    h.beside.leaf_cleared (prefixClosed_pathsBelow 256) (spare_tail_subset (f :: fl) T) h.creator
      hw.path_mem _
  exact (hshared.trans (hc.new.leaves h.creator hw.path_mem)).trans hcleared

/-- Its tables are those of the creator, but for itself. -/
theorem table_new (h : Processes R c D k (f :: fl)) (hc : Creation R c f fl T calls a k l l₀ k' k₀')
    {q : List (Fin 512)} (hq : q ∈ lowerPaths) {g : Nat} (hg : l₀.table f q = some g) :
    k.table c q = some g ∨ g = f := by
  cases q with
  | nil => exact .inr (Option.some.inj hg).symm
  | cons i q =>
    have hshared : l₀.table f (i :: q) = l₀.table c (i :: q) :=
      tableAt_of_next_eq ((hc.new.shared i).trans (hc.new.below h.creator i).symm) q
    have hcleared : (k.cleared (spare fl T)).table c (i :: q) = k.table c (i :: q) :=
      h.beside.table_cleared (prefixClosed_pathsBelow 256) (spare_tail_subset (f :: fl) T) h.creator
        hq
    exact .inl ((hshared.trans ((hc.new.tables h.creator hq).trans hcleared)).symm.trans hg)

/-- A creation is the one at physical addresses. -/
theorem createSpace_eq (h : Processes R c D k (f :: fl)) (hcalls : ∀ d ∈ calls, Lower d.1)
    (hc : Creation R c f fl T calls a k l l₀ k' k₀')
    (hown : ∀ g, (∃ q ∈ lowerPaths, k.table c q = some g) ∨ g = f ∨ g ∈ T →
      OwnAddress k c calls g) :
    createSpace calls k = some k' := by
  have hpml4 : ∀ g, g = c ∨ g = f → OwnAddress k c calls g := by
    rintro g (rfl | rfl)
    · exact hown g (.inl ⟨[], (prefixClosed_pathsBelow 256).nil, rfl⟩)
    · exact hown g (.inr (.inl rfl))
  have hset : setUserAddrSpace k = some (a, l) := (setUserAddrSpace_eq h hpml4).trans hc.copied
  have hpaging : Paging lowerPaths (insert f R) (setCR3 a l₀) fl :=
    ⟨hc.new.paging.forest, hc.new.paging.free, hc.new.paging.fresh, hc.new.paging.blank⟩
  have hmem : f ∈ insert f R := Set.mem_insert f R
  have hmap := mapProcesses_eq (F := {g | ∃ q ∈ lowerPaths, k₀'.table f q = some g}) hpaging hmem
    hc.addr hcalls hc.before hc.run₀ (fun q hq g hg => ⟨q, hq, hg⟩)
    (fun g ⟨q, hq, hg⟩ => hc.used hmem hq hg) (by
      rintro g ⟨q, hq, hg⟩
      obtain ⟨hlow, ⟨e, hwalk, htarget⟩, hkept⟩ := hown g <| by
        rcases hc.tables f hmem q hq g hg with hold | hnew
        · exact (table_new h hc hq hold).imp (fun htab => ⟨q, hq, htab⟩) .inl
        · exact .inr (.inr hnew)
      exact ⟨hlow, ⟨e, (walk_new h hc hlow).trans hwalk, htarget⟩, hkept⟩)
  rw [createSpace, hset]
  exact hmap.trans hc.run

end

end Virtual

section

variable {R : Set Nat} {c : Nat} {D : Finset (List (Fin 512))} {k : Kernel} {fl : List Nat}
  {calls : List (UInt64 × UInt64)}

/-- A creation comes to its end, and so does the one on the machine with cleared frames. -/
theorem createSpace_creation (h : Processes R c D k fl) (hcalls : ∀ d ∈ calls, Lower d.1)
    (hlen : (withPaths (calls.map Prod.fst) D).card < fl.length + D.card)
    (hclean : ∀ g ∈ newTables D fl calls, Blank k.mem g)
    (hown : ∀ g ∈ pointed k c D fl calls, OwnAddress k c calls g) :
    ∃ f fl' a l l₀ k' k₀', fl = f :: fl' ∧ Virtual.createSpace calls k = some k' ∧
      Creation R c f fl' (newTables D fl calls) calls a k l l₀ k' k₀' := by
  cases fl with
  | nil =>
    have hcard := Finset.card_le_card (subset_withPaths (calls.map Prod.fst) D)
    simp only [List.length_nil, Nat.zero_add] at hlen
    omega
  | cons f fl =>
    rw [List.length_cons] at hlen
    obtain ⟨a, l, l₀, k', k₀', hc⟩ := exists_creation h hcalls (by omega) hclean
    refine ⟨f, fl, a, l, l₀, k', k₀', rfl, Virtual.createSpace_eq h hcalls hc ?_, hc⟩
    rintro g (htab | rfl | hnew)
    · exact hown g (.inl htab)
    · exact hown g (.inr (.inl (List.mem_singleton.2 rfl)))
    · exact hown g (.inr (.inr hnew))

end

/-- A call on the machine with a direct map, for a page above it. -/
theorem direct_map_creates : ∃ k, mapProcesses directBoot.pop identityCalls = some k ∧
    Space 1 directTables k (List.range' 5 59) ∧ IdentityMapped k 1 1 ∧
    ∀ v p, 64 ≤ vpage v →
      ∀ g ∈ pointed k 1 directTables (List.range' 5 59) [(v, p)], OwnAddress k 1 [(v, p)] g := by
  obtain ⟨k, hrun, hspace, htables, hmap⟩ := direct_map_machine
  refine ⟨k, hrun, hspace, hmap 1 (by decide) (by decide), ?_⟩
  intro v p hpage g hg
  have hbound : 1 ≤ g ∧ g < 64 := by
    rcases hg with ⟨q, hq, htab⟩ | hmem
    · exact htables g ⟨q, hq.1, htab⟩
    · have hfree : g ∈ List.range' 5 59 := by
        rcases hmem with hnew | hnew
        · exact List.mem_of_mem_take hnew
        · exact List.mem_of_mem_tail (List.mem_of_mem_take hnew)
      rw [List.mem_range'_1] at hfree
      omega
  have hval : (identityAddr g).toNat = 4096 * g := toNat_ofNat_of_lt (by omega)
  refine ⟨?_, ⟨_, hmap g hbound.1 hbound.2, target_pageEntry (by omega)⟩, ?_⟩
  · unfold Lower
    omega
  · intro d hd hsame
    rw [List.mem_singleton.1 hd, vpage_identityAddr (by omega)] at hsame
    dsimp only at hsame
    omega

end Sbunix
