import Sbunix.CopyOnWrite
import Sbunix.Fork

/-!
# A fork into frames that are not cleared

`page_alloc` hands a frame out with whatever is in it, and `copy_page_tables_forchild` writes only
the entries that the parent has. The other words of a new table keep their old contents, and the
hardware reads them as entries.

`Sim` compares the run on any contents of the free frames with the run on cleared ones: both make
the same stores, since only tables of the parent are read, so the memories differ only
in the words that are never written (`Laid`). `fork_duplicates_iff` draws the conclusion: the
child has exactly the mappings of the parent when the frames hold no present entry, and it has
them whatever the frames hold only if no word of a new table is left unwritten.
-/

namespace Sbunix

open Lib Lib.Radix

/-! ## Two runs side by side -/

/-- The words of `k` are those of `k₀`, but for the frames `A`: an entry that is absent there in
`k₀` has the contents of `m` in `k`. The two shared entries of the PML4 `c` are left open. -/
structure Laid (A : List Nat) (c : Nat) (m : Mem) (k₀ k : Kernel) : Prop where
  kept : ∀ f j, f ∉ A ∨ pte.present (entry k₀.mem f j) = true →
    entry k.mem f j = entry k₀.mem f j
  stale : ∀ f j, f ∈ A → pte.present (entry k₀.mem f j) = false → (f = c → j.val < 510) →
    entry k.mem f j = entry m f j

/-- Two states of the loops: the run on cleared frames and the run on the contents `m`. Outside of
the frames `A` the tables are linked as in `e₀`. -/
structure Beside (A : List Nat) (c : Nat) (m : Mem) (e₀ : Nat → Fin 512 → UInt64)
    (k₀ k : Kernel) : Prop where
  laid : Laid A c m k₀ k
  frames : k.frames = k₀.frames
  cr3 : k.cr3 = k₀.cr3
  free : ∃ fl, FreeFrames k₀.frames fl ∧ ∀ f ∈ fl, f ∈ A
  links : ∀ f, f ∉ A → ∀ j, next pte (entry k₀.mem) f j = next pte e₀ f j

/-- `step` does the same on both sides. -/
def Sim (A : List Nat) (c : Nat) (m : Mem) (e₀ : Nat → Fin 512 → UInt64)
    (step : Kernel → Option Kernel) : Prop :=
  ∀ k₀ k, Beside A c m e₀ k₀ k → step k₀ = none ∧ step k = none ∨
    ∃ k₀' k', step k₀ = some k₀' ∧ step k = some k' ∧ Beside A c m e₀ k₀' k'

/-- The table `t` and those in the `d` levels below it are not among the frames `A`. -/
def Avoids (A : List Nat) (e₀ : Nat → Fin 512 → UInt64) : Nat → Nat → Prop
  | 0, t => t ∉ A
  | d + 1, t => t ∉ A ∧ ∀ j u, next pte e₀ t j = some u → Avoids A e₀ d u

section

variable {A : List Nat} {c : Nat} {m : Mem} {e₀ : Nat → Fin 512 → UInt64} {k₀ k : Kernel}
  {t tc tp : Nat} {i : Fin 512} {table index ct pt e : UInt64}

theorem Avoids.notMem {d : Nat} (h : Avoids A e₀ d t) : t ∉ A := by
  cases d with
  | zero => exact h
  | succ d => exact h.1

theorem Beside.ptEntry_eq (h : Beside A c m e₀ k₀ k) (htab : table.toNat = 4096 * t)
    (hidx : index.toNat = i.val) (ht : t ∉ A) : k.ptEntry table index = k₀.ptEntry table index := by
  rw [Sbunix.ptEntry_eq htab hidx, Sbunix.ptEntry_eq htab hidx]
  exact h.laid.kept t i (Or.inl ht)

/-- Storing a present entry, in one of the frames `A` or without changing a link. -/
theorem Beside.setPtEntry (h : Beside A c m e₀ k₀ k) (htab : table.toNat = 4096 * t)
    (hidx : index.toNat = i.val) (he : pte.present e = true)
    (hlink : t ∉ A → next pte (entry k₀.mem) t i = some (pte.target e)) :
    Beside A c m e₀ (k₀.setPtEntry table index e) (k.setPtEntry table index e) := by
  have hent₀ := entry_setPtEntry (k := k₀) htab hidx e
  have hent := entry_setPtEntry (k := k) htab hidx e
  refine ⟨⟨?_, ?_⟩, h.frames, h.cr3, h.free, ?_⟩
  · intro f j hf
    rw [hent₀] at hf ⊢
    rw [hent]
    by_cases hfj : f = t ∧ j = i
    · obtain ⟨rfl, rfl⟩ := hfj
      rw [set_self, set_self]
    · rw [set_of_ne hfj, set_of_ne hfj]
      rw [set_of_ne hfj] at hf
      exact h.laid.kept f j hf
  · intro f j hf habs hc
    rw [hent₀] at habs
    rw [hent]
    by_cases hfj : f = t ∧ j = i
    · obtain ⟨rfl, rfl⟩ := hfj
      rw [set_self, he] at habs
      exact absurd habs (by simp)
    · rw [set_of_ne hfj] at habs ⊢
      exact h.laid.stale f j hf habs hc
  · intro f hf j
    rw [hent₀]
    by_cases hfj : f = t ∧ j = i
    · obtain ⟨rfl, rfl⟩ := hfj
      rw [next_set_self he, ← hlink hf]
      exact h.links f hf j
    · rw [next_set_of_ne hfj]
      exact h.links f hf j

/-- A new table for the child. -/
theorem Beside.tableAlloc (h : Beside A c m e₀ k₀ k) (htab : table.toNat = 4096 * t)
    (hidx : index.toNat = i.val) (ht : t ∈ A) :
    tableAlloc table index k₀ = none ∧ tableAlloc table index k = none ∨
      ∃ a f k₀' k', tableAlloc table index k₀ = some (a, k₀') ∧
        tableAlloc table index k = some (a, k') ∧ a.toNat = 4096 * f ∧ f ∈ A ∧
        Beside A c m e₀ k₀' k' := by
  obtain ⟨fl, hfree, hfl⟩ := h.free
  have hfree' : FreeFrames k.frames fl := by
    rw [h.frames]
    exact hfree
  cases fl with
  | nil =>
    refine Or.inl ⟨?_, ?_⟩
    · rw [Sbunix.tableAlloc, hfree.pageAllocAddr_nil]
      rfl
    · rw [Sbunix.tableAlloc, hfree'.pageAllocAddr_nil]
      rfl
  | cons f fl =>
    obtain ⟨a, hpop, ha, hrest⟩ := hfree.pageAllocAddr_cons
    obtain ⟨a', hpop', ha', -⟩ := hfree'.pageAllocAddr_cons
    obtain rfl : a' = a := UInt64.toNat_inj.1 (ha'.trans ha.symm)
    have hpopped : Beside A c m e₀ k₀.pop k.pop := by
      refine ⟨⟨h.laid.kept, h.laid.stale⟩, ?_, h.cr3,
        ⟨fl, hrest, fun g hg => hfl g (by simp [hg])⟩, h.links⟩
      rw [Kernel.pop, Kernel.pop, h.frames]
    refine Or.inr ⟨a', f, k₀.pop.setPtEntry table index (a' ||| pteFlags),
      k.pop.setPtEntry table index (a' ||| pteFlags), ?_, ?_, ha, hfl f (by simp),
      hpopped.setPtEntry htab hidx (present_or_flags a') fun hn => absurd ht hn⟩
    · rw [Sbunix.tableAlloc, hpop]
      rfl
    · rw [Sbunix.tableAlloc, hpop']
      rfl

/-! ## The loops -/

theorem Sim.foldlM {ι : Type} {step : Kernel → ι → Option Kernel} {is : List ι}
    (h : ∀ i ∈ is, Sim A c m e₀ fun k => step k i) : Sim A c m e₀ fun k => is.foldlM step k := by
  induction is with
  | nil => exact fun k₀ k hb => Or.inr ⟨k₀, k, rfl, rfl, hb⟩
  | cons i is ih =>
    intro k₀ k hb
    simp only [List.foldlM_cons]
    rcases h i (by simp) k₀ k hb with
      ⟨(hnone₀ : step k₀ i = none), (hnone : step k i = none)⟩ |
      ⟨k₀', k', (hsome₀ : step k₀ i = some k₀'), (hsome : step k i = some k'), hb'⟩
    · exact Or.inl ⟨by rw [hnone₀]; rfl, by rw [hnone]; rfl⟩
    · rw [hsome₀, hsome]
      exact ih (fun j hj => h j (by simp [hj])) k₀' k' hb'

theorem sim_copyPtEntry (hct : ct.toNat = 4096 * tc) (hpt : pt.toNat = 4096 * tp) (hc : tc ∈ A)
    (hp : tp ∉ A) (i : Fin 512) : Sim A c m e₀ fun k => some (copyPtEntry ct pt k i) := by
  intro k₀ k hb
  have hi := toNat_ofNat_fin i
  have hread := hb.ptEntry_eq hpt hi hp
  refine Or.inr ⟨_, _, rfl, rfl, ?_⟩
  unfold copyPtEntry
  rw [hread]
  by_cases hpres : k₀.ptEntry pt (UInt64.ofNat i) &&& pteP ≠ 0
  · simp only [if_pos hpres]
    have hcow : pte.present (cowEntry (k₀.ptEntry pt (UInt64.ofNat i))) = true :=
      present_cowEntry _
    have hchild := hb.setPtEntry (e := cowEntry (k₀.ptEntry pt (UInt64.ofNat i))) hct hi hcow
      fun hn => absurd hc hn
    refine hchild.setPtEntry hpt hi hcow ?_
    intro _
    have htc : ¬ (tp = tc ∧ i = i) := fun h => hp (by rw [h.1]; exact hc)
    rw [entry_setPtEntry hct hi, next_set_of_ne htc, target_cowEntry, Sbunix.ptEntry_eq hpt hi]
    rw [Sbunix.ptEntry_eq hpt hi] at hpres
    exact if_pos (present_iff.2 hpres)
  · simp only [if_neg hpres]
    exact hb

/-- `copyTable` does the same on both sides, for a child's table among the frames `A` and a parent's
table that avoids them. -/
def CopySim (A : List Nat) (c : Nat) (m : Mem) (e₀ : Nat → Fin 512 → UInt64) (d : Nat)
    (copyTable : UInt64 → UInt64 → Kernel → Option Kernel) : Prop :=
  ∀ {ct pt tc tp}, ct.toNat = 4096 * tc → pt.toNat = 4096 * tp → tc ∈ A → Avoids A e₀ d tp →
    Sim A c m e₀ (copyTable ct pt)

theorem copySim_copyPt : CopySim A c m e₀ 0 copyPt := by
  intro ct pt tc tp hct hpt hc hp
  have hfold : copyPt ct pt = fun k =>
      (List.finRange 512).foldlM (fun k i => some (copyPtEntry ct pt k i)) k := by
    funext k
    exact (List.foldlM_pure (m := Option)).symm
  rw [hfold]
  exact Sim.foldlM fun i _ => sim_copyPtEntry hct hpt hc hp i

section Loop

variable {alloc : UInt64 → UInt64 → Kernel → Option (UInt64 × Kernel)}
  {copyTable : UInt64 → UInt64 → Kernel → Option Kernel} {d : Nat}

theorem sim_copyEntryBelow (halloc : alloc = Sbunix.tableAlloc)
    (hinner : CopySim A c m e₀ d copyTable) (hct : ct.toNat = 4096 * tc)
    (hpt : pt.toNat = 4096 * tp) (hc : tc ∈ A) (hp : tp ∉ A) {i : Fin 512}
    (hbelow : ∀ u, next pte e₀ tp i = some u → Avoids A e₀ d u) :
    Sim A c m e₀ fun k => copyEntryBelow alloc copyTable ct pt k i := by
  subst halloc
  intro k₀ k hb
  have hi := toNat_ofNat_fin i
  have hread := hb.ptEntry_eq hpt hi hp
  simp only [copyEntryBelow, hread]
  by_cases hpres : k₀.ptEntry pt (UInt64.ofNat i) &&& pteP ≠ 0
  · simp only [if_pos hpres]
    have havoids : Avoids A e₀ d (pte.target (entry k₀.mem tp i)) := by
      apply hbelow
      rw [← hb.links tp hp i]
      rw [Sbunix.ptEntry_eq hpt hi] at hpres
      exact if_pos (present_iff.2 hpres)
    rw [Sbunix.ptEntry_eq hpt hi]
    rcases hb.tableAlloc hct hi hc with
      ⟨hnone₀, hnone⟩ | ⟨a, f, k₀', k', hsome₀, hsome, ha, hf, hb'⟩
    · exact Or.inl ⟨by rw [hnone₀]; rfl, by rw [hnone]; rfl⟩
    · rw [hsome₀, hsome]
      exact hinner ha (getAddress_toNat _) hf havoids k₀' k' hb'
  · simp only [if_neg hpres]
    exact Or.inr ⟨k₀, k, rfl, rfl, hb⟩

theorem copySim_loop (halloc : alloc = Sbunix.tableAlloc)
    (hinner : CopySim A c m e₀ d copyTable) :
    CopySim A c m e₀ (d + 1) fun ct pt k =>
      (List.finRange 512).foldlM (copyEntryBelow alloc copyTable ct pt) k := by
  intro ct pt tc tp hct hpt hc hp
  exact Sim.foldlM fun i _ => sim_copyEntryBelow halloc hinner hct hpt hc hp.1 (hp.2 i)

end Loop

theorem copySim_copyPdpt : CopySim A c m e₀ 2 copyPdpt :=
  copySim_loop (show pdtAlloc = Sbunix.tableAlloc from rfl)
    (copySim_loop (show ptAlloc = Sbunix.tableAlloc from rfl) copySim_copyPt)

/-! ## The whole call -/

/-- Storing one of the shared entries. -/
theorem Laid.share (h : Laid A c m k₀ k) (hct : ct.toNat = 4096 * c) (hidx : index.toNat = i.val)
    (hi : 510 ≤ i.val) (e : UInt64) :
    Laid A c m (k₀.setPtEntry ct index e) (k.setPtEntry ct index e) := by
  have hent₀ := entry_setPtEntry (k := k₀) hct hidx e
  have hent := entry_setPtEntry (k := k) hct hidx e
  constructor
  · intro f j hf
    rw [hent₀] at hf ⊢
    rw [hent]
    by_cases hfj : f = c ∧ j = i
    · obtain ⟨rfl, rfl⟩ := hfj
      rw [set_self, set_self]
    · rw [set_of_ne hfj, set_of_ne hfj]
      rw [set_of_ne hfj] at hf
      exact h.kept f j hf
  · intro f j hf habs hc
    have hfj : ¬ (f = c ∧ j = i) := by
      rintro ⟨hfc, rfl⟩
      exact absurd (hc hfc) (by omega)
    rw [hent₀, set_of_ne hfj] at habs
    rw [hent, set_of_ne hfj]
    exact h.stale f j hf habs hc

/-- The PML4s `c` and `r` have the same last two entries. -/
def SharesKernel (c r : Nat) (k : Kernel) : Prop :=
  ∀ j : Fin 512, 510 ≤ j.val → entry k.mem c j = entry k.mem r j

/-- The two stores after the loops. -/
def shareKernel (ct pt : UInt64) (k : Kernel) : Kernel :=
  let k := k.setPtEntry ct 511 (k.ptEntry pt 511)
  k.setPtEntry ct 510 (k.ptEntry pt 510)

theorem copyPageTablesForchild_eq (ct : UInt64) (k : Kernel) : copyPageTablesForchild ct k =
    (userSlots.foldlM (copyEntryBelow pdptAlloc copyPdpt ct k.cr3) k).map
      (shareKernel ct k.cr3) := by
  rw [Option.map_eq_bind]
  rfl

theorem shareKernel_entry {r : Nat} (hct : ct.toNat = 4096 * c) (hpt : pt.toNat = 4096 * r)
    (hne : r ≠ c) (f : Nat) (j : Fin 512) : entry (shareKernel ct pt k).mem f j =
      if f = c ∧ 510 ≤ j.val then entry k.mem r j else entry k.mem f j := by
  have h511 : (511 : UInt64).toNat = (511 : Fin 512).val := rfl
  have h510 : (510 : UInt64).toNat = (510 : Fin 512).val := rfl
  have hother : ∀ {i j : Fin 512}, ¬ (r = c ∧ j = i) := fun h => hne h.1
  unfold shareKernel
  rw [entry_setPtEntry hct h510, ptEntry_eq hpt h510, entry_setPtEntry hct h511,
    ptEntry_eq hpt h511, set_of_ne hother]
  by_cases hf : f = c
  · subst hf
    by_cases h₀ : j = 510
    · subst h₀
      rw [set_self, if_pos ⟨rfl, by decide⟩]
    · rw [set_of_ne fun h => h₀ h.2]
      by_cases h₁ : j = 511
      · subst h₁
        rw [set_self, if_pos ⟨rfl, by decide⟩]
      · have hlt : ¬ 510 ≤ j.val := by
          have := j.isLt
          have hj₀ : j.val ≠ 510 := fun h => h₀ (Fin.ext h)
          have hj₁ : j.val ≠ 511 := fun h => h₁ (Fin.ext h)
          omega
        rw [set_of_ne fun h => h₁ h.2, if_neg fun h => hlt h.2]
  · rw [set_of_ne fun h => hf h.1, set_of_ne fun h => hf h.1, if_neg fun h => hf h.1]

theorem shareKernel_sharesKernel {r : Nat} (hct : ct.toNat = 4096 * c) (hpt : pt.toNat = 4096 * r)
    (hne : r ≠ c) : SharesKernel c r (shareKernel ct pt k) := by
  intro j hj
  rw [shareKernel_entry hct hpt hne, if_pos ⟨rfl, hj⟩, shareKernel_entry hct hpt hne,
    if_neg fun h => hne h.1]

theorem Beside.shareKernel {r : Nat} (hb : Beside A c m e₀ k₀ k) (hct : ct.toNat = 4096 * c)
    (hpt : pt.toNat = 4096 * r) (hr : r ∉ A) :
    Laid A c m (shareKernel ct pt k₀) (shareKernel ct pt k) := by
  have h511 : (511 : UInt64).toNat = (511 : Fin 512).val := rfl
  have h510 : (510 : UInt64).toNat = (510 : Fin 512).val := rfl
  unfold Sbunix.shareKernel
  rw [hb.ptEntry_eq hpt h511 hr]
  have hshared := hb.laid.share hct h511 (by decide) (k₀.ptEntry pt 511)
  have hread : (k.setPtEntry ct 511 (k₀.ptEntry pt 511)).ptEntry pt 510 =
      (k₀.setPtEntry ct 511 (k₀.ptEntry pt 511)).ptEntry pt 510 := by
    rw [Sbunix.ptEntry_eq hpt h510, Sbunix.ptEntry_eq hpt h510]
    exact hshared.kept r 510 (Or.inl hr)
  simp only [hread]
  exact hshared.share hct h510 (by decide) _

/-- `copy_page_tables_forchild` on both sides. -/
theorem copyPageTablesForchild_beside {r : Nat} (hb : Beside A c m e₀ k₀ k)
    (hct : ct.toNat = 4096 * c) (hcr3 : k₀.cr3.toNat = 4096 * r) (hc : c ∈ A) (hr : r ∉ A)
    (hbelow : ∀ i ∈ userSlots, ∀ u, next pte e₀ r i = some u → Avoids A e₀ 2 u) :
    copyPageTablesForchild ct k₀ = none ∧ copyPageTablesForchild ct k = none ∨
      ∃ k₀' k', copyPageTablesForchild ct k₀ = some k₀' ∧ copyPageTablesForchild ct k = some k' ∧
        Laid A c m k₀' k' ∧ SharesKernel c r k₀' ∧ SharesKernel c r k' := by
  have hne : r ≠ c := by
    rintro rfl
    exact hr hc
  have hloops : Sim A c m e₀ fun k =>
      userSlots.foldlM (copyEntryBelow pdptAlloc copyPdpt ct k₀.cr3) k :=
    Sim.foldlM fun i hi => sim_copyEntryBelow (show pdptAlloc = Sbunix.tableAlloc from rfl)
      copySim_copyPdpt hct hcr3 hc hr (hbelow i hi)
  rw [copyPageTablesForchild_eq, copyPageTablesForchild_eq, hb.cr3]
  have hrun := hloops k₀ k hb
  dsimp only at hrun
  rcases hrun with ⟨hnone₀, hnone⟩ | ⟨k₀', k', hsome₀, hsome, hb'⟩
  · exact Or.inl ⟨by rw [hnone₀]; rfl, by rw [hnone]; rfl⟩
  · rw [hsome₀, hsome]
    exact Or.inr ⟨_, _, rfl, rfl, hb'.shareKernel hct hcr3 hr,
      shareKernel_sharesKernel hct hcr3 hne, shareKernel_sharesKernel hct hcr3 hne⟩

end

/-! ## A fork -/

/-- The parent `r` in `CR3` has a tree of tables below PML4 entry 510, and the free frames `fl`,
with any contents, are not among them. -/
structure ParentTree (k : Kernel) (r : Nat) (fl : List Nat) : Prop where
  cr3 : k.cr3.toNat = 4096 * r
  forest : Forest pte (entry k.mem) userPaths {r}
  free : FreeFrames k.frames fl
  fresh : ∀ f ∈ fl, Fresh pte (entry k.mem) userPaths {r} f

/-- The memories differ in the frames `fl` only. -/
def SameElsewhere (fl : List Nat) (m m' : Mem) : Prop := ∀ g, g ∉ fl → SamePage m m' g

/-- The memory with the frames `fl` cleared. -/
def clearFrames (fl : List Nat) (m : Mem) : Mem := fun x => if x / 4096 ∈ fl then 0 else m x

/-- The kernel with other contents of the memory. -/
def Kernel.withMem (k : Kernel) (m : Mem) : Kernel := { k with mem := m }

theorem entry_sameElsewhere {fl : List Nat} {m m' : Mem} (h : SameElsewhere fl m m') {f : Nat}
    (hf : f ∉ fl) (j : Fin 512) : entry m' f j = entry m f j := entry_congr (h f hf) j

theorem sameElsewhere_clearFrames (fl : List Nat) (m : Mem) :
    SameElsewhere fl m (clearFrames fl m) := by
  intro g hg x hx
  rw [clearFrames, if_neg (by rw [hx]; exact hg)]

theorem zeroPage_clearFrames {fl : List Nat} {f : Nat} (hf : f ∈ fl) (m : Mem) :
    ZeroPage (clearFrames fl m) f := by
  intro x hx
  rw [clearFrames, if_pos (by rw [hx]; exact hf)]

section

variable {k : Kernel} {r : Nat} {fl : List Nat} {m : Mem}

/-- The parent's tables do not depend on the contents of the free frames. -/
theorem ParentTree.agree (h : ParentTree k r fl) (hm : SameElsewhere fl k.mem m) :
    ∀ t, ¬ Fresh pte (entry k.mem) userPaths {r} t → ∀ i, entry m t i = entry k.mem t i :=
  fun t ht => entry_sameElsewhere hm fun hfl => ht (h.fresh t hfl)

theorem ParentTree.walk_withMem (h : ParentTree k r fl) (hm : SameElsewhere fl k.mem m) {v : UInt64}
    (hv : path v ∈ userPaths) : walk (k.withMem m).mem r v = walk k.mem r v :=
  leafAt_of_agree prefixClosed_userPaths (Set.mem_singleton r) hv (h.agree hm)

theorem ParentTree.withMem (h : ParentTree k r fl) (hm : SameElsewhere fl k.mem m) :
    ParentTree (k.withMem m) r fl where
  cr3 := h.cr3
  forest := forest_of_agree prefixClosed_userPaths h.forest (h.agree hm)
  free := h.free
  fresh f hf x hx q hq hfq := by
    rw [Kernel.withMem, tableAt_of_agree prefixClosed_userPaths hx hq (h.agree hm)] at hfq
    exact h.fresh f hf x hx q hq hfq

theorem ParentTree.paging (h : ParentTree k r fl) :
    Paging userPaths {r} (k.withMem (clearFrames fl k.mem)) fl := by
  have h₀ := h.withMem (sameElsewhere_clearFrames fl k.mem)
  exact ⟨h₀.forest, h₀.free, h₀.fresh,
    fun f hf => blank_of_zeroPage (zeroPage_clearFrames hf k.mem)⟩

theorem separate_single (m : Mem) (r : Nat) : Separate pte (entry m) userPaths {r} :=
  fun hx hy _ _ _ _ => (Set.mem_singleton_iff.1 hx).trans (Set.mem_singleton_iff.1 hy).symm

/-- The tables of the parent below an entry of its PML4 avoid the free frames. -/
theorem ParentTree.avoids (h : ParentTree k r fl) :
    ∀ (d : Nat) {p : List (Fin 512)} {t : Nat}, p ∈ userPaths → p ≠ [] → p.length + d = 3 →
      k.table r p = some t → Avoids fl (entry k.mem) d t
  | 0, p, t, hp, _, _, ht => fun hfl => h.fresh t hfl r rfl p hp ht
  | d + 1, p, t, hp, hne, hlen, ht => by
    refine ⟨fun hfl => h.fresh t hfl r rfl p hp ht, ?_⟩
    intro j u hu
    have hpj : p ++ [j] ∈ userPaths := by
      rw [← mem_slotsAt hp (by omega), slotsAt_of_ne hne]
      exact List.mem_finRange j
    exact h.avoids d hpj (by simp) (by simp; omega) ((tableAt_snoc ht).trans hu)

/-- What a fork of `r` that makes `c` leaves: `k₀` had the free frames cleared, `k'` is the
result for the contents `m`. -/
structure DirtyFork (k : Kernel) (r : Nat) (fl : List Nat) (m : Mem) (c : Nat) (k₀ k' : Kernel) :
    Prop where
  mem : c ∈ fl
  laid : Laid fl c m k₀ k'
  copied : ∀ {q}, q ∈ userPaths → q.length = 3 → ∀ j,
    k₀.leaf c q j = (k.leaf r q j).map cowEntry ∧ k₀.leaf r q j = (k.leaf r q j).map cowEntry
  parent : ∀ {q f}, q ∈ userPaths → k₀.table r q = some f → f ∉ fl
  child : ∀ {q f}, q ∈ userPaths → k₀.table c q = some f → f ∈ fl ∧ (f = c → q = [])
  shared₀ : SharesKernel c r k₀
  shared : SharesKernel c r k'

/-- The two runs start side by side. -/
theorem ParentTree.beside {c : Nat} (h : ParentTree k r (c :: fl))
    (hm : SameElsewhere (c :: fl) k.mem m) :
    Beside (c :: fl) c m (entry (clearFrames (c :: fl) k.mem))
      (k.withMem (clearFrames (c :: fl) k.mem)).pop (k.withMem m).pop := by
  have hclear := sameElsewhere_clearFrames (c :: fl) k.mem
  obtain ⟨-, -, -, hfree⟩ := (h.withMem hclear).free.pageAllocAddr_cons
  refine ⟨⟨?_, fun _ _ _ _ _ => rfl⟩, rfl, rfl, ⟨fl, hfree, fun f hf => List.mem_cons_of_mem c hf⟩,
    fun _ _ _ => rfl⟩
  intro f j hf
  have hfl : f ∉ c :: fl := by
    rcases hf with hf | hpres
    · exact hf
    · intro hfl
      have hzero : entry (clearFrames (c :: fl) k.mem) f j = 0 :=
        entry_zero (zeroPage_clearFrames hfl k.mem) j
      change pte.present (entry (clearFrames (c :: fl) k.mem) f j) = true at hpres
      rw [hzero] at hpres
      exact absurd hpres (by decide)
  exact (entry_sameElsewhere hm hfl j).trans (entry_sameElsewhere hclear hfl j).symm

theorem ParentTree.table_clear (h : ParentTree k r fl) {q : List (Fin 512)} (hq : q ∈ userPaths) :
    (k.withMem (clearFrames fl k.mem)).table r q = k.table r q :=
  tableAt_of_agree prefixClosed_userPaths (Set.mem_singleton r) hq
    (h.agree (sameElsewhere_clearFrames fl k.mem))

theorem ParentTree.leaf_clear (h : ParentTree k r fl) {q : List (Fin 512)} (hq : q ∈ userPaths)
    (j : Fin 512) : (k.withMem (clearFrames fl k.mem)).leaf r q j = k.leaf r q j :=
  leafAt_of_agree prefixClosed_userPaths (Set.mem_singleton r) hq
    (h.agree (sameElsewhere_clearFrames fl k.mem))

/-- The tables of the child are the frames that were handed out. -/
theorem Copied.child_mem {c n : Nat} {T : Set (List (Fin 512))} {P : Set Pos} {k₀ k₁ : Kernel}
    {ct pt : UInt64} {fl' : List Nat} (hcop : Copied (insert c {r}) r c T P n k₀ k₁ fl fl')
    (hat : CopyAt (insert c {r}) r c k₀ fl [] ct pt) (hempty : EmptyBelow k₀ c [])
    {q : List (Fin 512)} {f : Nat} (hq : q ∈ userPaths) (hf : k₁.table c q = some f) :
    f ∈ c :: fl ∧ (f = c → q = []) := by
  refine ⟨?_, ?_⟩
  · by_contra hfl
    rw [List.mem_cons, not_or] at hfl
    -- A frame that was neither a table nor free before is not a table now.
    have hfresh : Fresh pte (entry k₀.mem) userPaths (insert c {r}) f := by
      rintro x hx p hp hfp
      rcases hx with rfl | rfl
      · by_cases hp' : p = []
        · subst hp'
          exact hfl.1 (Option.some.inj hfp).symm
        · exact absurd ((hempty.tables p hp List.nil_prefix hp').symm.trans hfp) (by simp)
      · exact hat.ne (hcop.separate (Set.mem_insert_of_mem _ rfl) (Set.mem_insert _ _) hp hq
          ((hcop.parent hp).trans hfp) hf)
    exact (hcop.data hfresh hfl.2).2 c (Set.mem_insert _ _) q hq hf
  · rintro rfl
    exact hcop.paging.forest.path_eq (Set.mem_insert _ _) (Set.mem_insert _ _) hq
      prefixClosed_userPaths.nil hf rfl

theorem forkSpace_dirty (h : ParentTree k r fl) (hm : SameElsewhere fl k.mem m) :
    forkSpace (k.withMem m) = none ∧ fl.length < 1 + tablesBelow k r 3 [] ∨
      ∃ a c k₀ k', forkSpace (k.withMem m) = some (a, k') ∧ a.toNat = 4096 * c ∧
        1 + tablesBelow k r 3 [] ≤ fl.length ∧ DirtyFork k r fl m c k₀ k' := by
  cases fl with
  | nil =>
    refine Or.inl ⟨?_, by rw [List.length_nil]; omega⟩
    have hnone := (h.withMem hm).free.pageAllocAddr_nil
    rw [forkSpace, hnone]
    rfl
  | cons c fl =>
    have hparent₀ := h.withMem (sameElsewhere_clearFrames (c :: fl) k.mem)
    obtain ⟨a, -, ha, hat, hempty⟩ := copyAt_child h.paging (separate_single _ r) rfl hparent₀.cr3
    have halloc : (k.withMem m).pageAllocAddr = some (a, (k.withMem m).pop) := by
      obtain ⟨a', halloc', ha', -⟩ := (h.withMem hm).free.pageAllocAddr_cons
      rw [halloc', UInt64.toNat_inj.1 (ha'.trans ha.symm)]
    have hr : r ∉ c :: fl := fun hfl => h.fresh r hfl r rfl [] prefixClosed_userPaths.nil rfl
    have hbelow : ∀ i ∈ userSlots, ∀ u,
        next pte (entry (clearFrames (c :: fl) k.mem)) r i = some u →
          Avoids (c :: fl) (entry (clearFrames (c :: fl) k.mem)) 2 u := by
      intro i hi u hu
      have hpath : [i] ∈ userPaths := (mem_slotsAt prefixClosed_userPaths.nil (by decide)).1 hi
      exact hparent₀.avoids 2 hpath (by simp) rfl (tableAt_singleton.trans hu)
    have hcost : tablesBelow (k.withMem (clearFrames (c :: fl) k.mem)).pop r 3 [] =
        tablesBelow k r 3 [] :=
      tablesBelow_congr (fun q hq => h.table_clear hq) 3 [] prefixClosed_userPaths.nil rfl
    have hrun : forkSpace (k.withMem m) =
        (copyPageTablesForchild a (k.withMem m).pop).map fun k => (a, k) := by
      simp only [forkSpace, halloc, Option.bind_eq_bind, Option.bind_some]
      generalize copyPageTablesForchild a (k.withMem m).pop = result
      cases result <;> rfl
    rw [hrun, List.length_cons]
    have hcopy := copyPageTablesForchild_spec hat hempty
    rw [hcost] at hcopy
    rcases copyPageTablesForchild_beside (h.beside hm) ha hparent₀.cr3 (by simp) hr hbelow with
      ⟨hnone₀, hnone⟩ | ⟨k₁, k', hsome₀, hsome, hlaid, hshared₀, hshared⟩
    · rcases hcopy with ⟨-, hfew⟩ | ⟨k₁, fl', hsome₀, -⟩
      · exact Or.inl ⟨by rw [hnone]; rfl, by omega⟩
      · exact absurd (hnone₀.symm.trans hsome₀) (by simp)
    · rcases hcopy with ⟨hnone₀, -⟩ | ⟨k₂, fl', hsome₂, hcop⟩
      · exact absurd (hnone₀.symm.trans hsome₀) (by simp)
      obtain rfl := Option.some.inj (hsome₀.symm.trans hsome₂)
      have hcount := hcop.count
      refine Or.inr ⟨a, c, k₁, k', by rw [hsome]; rfl, ha, by omega, by simp, hlaid, ?_, ?_, ?_,
        hshared₀, hshared⟩
      · intro q hq hlen j
        rw [← h.leaf_clear hq j]
        exact hcop.copied hq hlen List.nil_prefix
      · intro q f hq hf hfl
        have hf' : k.table r q = some f :=
          (h.table_clear hq).symm.trans ((hcop.parent hq).symm.trans hf)
        exact h.fresh f hfl r rfl q hq hf'
      · exact fun hq hf => hcop.child_mem hat hempty hq hf

/-! ## The mappings of the child -/

/-- The child `c` has exactly the mappings that the parent `r` had in `k`, and both have them
copy-on-write. -/
structure ForkExact (k k' : Kernel) (r c : Nat) : Prop where
  mapped : ∀ v, path v ∈ userPaths → ((walk k'.mem c v).isSome ↔ (walk k.mem r v).isSome)
  frames : ∀ v e, path v ∈ userPaths → walk k.mem r v = some e →
    ∃ e', walk k'.mem c v = some e' ∧ walk k'.mem r v = some e' ∧ pte.target e' = pte.target e ∧
      e' &&& pteCow ≠ 0 ∧ e' &&& pteW = 0
  shared : SharesKernel c r k'

/-- A fork of `r` that comes to its end duplicates the mappings of `r`. -/
def ForkDuplicates (k : Kernel) (r : Nat) : Prop :=
  ∀ a k', forkSpace k = some (a, k') → ForkExact k k' r (a.toNat / 4096)

variable {c : Nat} {k₀ k' : Kernel}

theorem DirtyFork.kept (h : DirtyFork k r fl m c k₀ k') :
    ∀ t i, pte.present (entry k₀.mem t i) = true → entry k'.mem t i = entry k₀.mem t i :=
  fun t i hpres => h.laid.kept t i (Or.inr hpres)

/-- What the parent had mapped, both have. -/
theorem DirtyFork.frames (h : DirtyFork k r fl m c k₀ k') {v e : UInt64} (hv : path v ∈ userPaths)
    (he : walk k.mem r v = some e) :
    walk k'.mem c v = some (cowEntry e) ∧ walk k'.mem r v = some (cowEntry e) := by
  obtain ⟨hc, hr⟩ := h.copied hv rfl (ptSlot v)
  change k.leaf r (path v) (ptSlot v) = some e at he
  rw [he, Option.map_some] at hc hr
  exact ⟨leafAt_mono h.kept hc, leafAt_mono h.kept hr⟩

theorem DirtyFork.exact_of_subset (h : DirtyFork k r fl m c k₀ k')
    (hm : SameElsewhere fl k.mem m) (hk : ParentTree k r fl)
    (hsub : ∀ v, path v ∈ userPaths → (walk k'.mem c v).isSome → (walk k.mem r v).isSome) :
    ForkExact (k.withMem m) k' r c := by
  refine ⟨fun v hv => ?_, fun v e hv he => ?_, h.shared⟩
  · rw [hk.walk_withMem hm hv]
    refine ⟨hsub v hv, fun hsome => ?_⟩
    obtain ⟨e, he⟩ := Option.isSome_iff_exists.1 hsome
    rw [(h.frames hv he).1]
    rfl
  · rw [hk.walk_withMem hm hv] at he
    obtain ⟨hc, hr⟩ := h.frames hv he
    exact ⟨cowEntry e, hc, hr, target_cowEntry e, cow_cowEntry e, not_writable_cowEntry e⟩

/-- Without a present entry in the frames nothing is mapped by chance. -/
theorem DirtyFork.kept_back (h : DirtyFork k r fl m c k₀ k') (hr : r ∉ fl)
    (hblank : ∀ f ∈ fl, ∀ j, pte.present (entry m f j) = false) :
    ∀ t i, pte.present (entry k'.mem t i) = true → entry k₀.mem t i = entry k'.mem t i := by
  intro t i hpres
  by_cases hkept : t ∉ fl ∨ pte.present (entry k₀.mem t i) = true
  · exact (h.laid.kept t i hkept).symm
  · rw [not_or, not_not, Bool.not_eq_true] at hkept
    by_cases hlast : t = c ∧ 510 ≤ i.val
    · obtain ⟨rfl, hi⟩ := hlast
      rw [h.shared i hi, h.shared₀ i hi]
      exact (h.laid.kept r i (Or.inl hr)).symm
    · have hi : t = c → i.val < 510 := fun ht => by
        by_contra hge
        exact hlast ⟨ht, by omega⟩
      rw [h.laid.stale t i hkept.1 hkept.2 hi, hblank t hkept.1 i] at hpres
      exact absurd hpres (by simp)

/-! ## Entries that point to their own table -/

/-- An entry of the frame `f` that leads back to `f`. -/
def selfEntry (f : Nat) : UInt64 := UInt64.ofNat (4096 * f) ||| pteP

/-- The frames of `fl` full of such entries. -/
def selfLinked (fl : List Nat) (m : Mem) : Mem := fun x =>
  if x / 4096 ∈ fl then ofEntries (fun f _ => selfEntry f) x else m x

theorem sameElsewhere_selfLinked (fl : List Nat) (m : Mem) :
    SameElsewhere fl m (selfLinked fl m) := by
  intro g hg x hx
  rw [selfLinked, if_neg (by rw [hx]; exact hg)]

theorem entry_selfLinked {f : Nat} (hf : f ∈ fl) (m : Mem) (j : Fin 512) :
    entry (selfLinked fl m) f j = selfEntry f := by
  have hpage : SamePage (ofEntries fun f _ => selfEntry f) (selfLinked fl m) f := by
    intro x hx
    rw [selfLinked, if_pos (by rw [hx]; exact hf)]
  rw [entry_congr hpage, entry_ofEntries]

theorem next_selfEntry {e : Nat → Fin 512 → UInt64} {f : Nat} {j : Fin 512} {a : UInt64}
    (ha : a.toNat = 4096 * f) (he : e f j = selfEntry f) : next pte e f j = some f := by
  have haddr : UInt64.ofNat (4096 * f) = a := by rw [← ha, UInt64.ofNat_toNat]
  have hpres : pte.present (selfEntry f) = true := present_iff.2 (or_and_ne_zero (by decide))
  have htarget : pte.target (selfEntry f) = f := by
    rw [selfEntry, haddr, target_or a (by decide)]
    show a.toNat / 4096 = f
    omega
  rw [next, he, if_pos hpres, htarget]

/-- There is an address for every position. -/
theorem exists_address (a b c d : Fin 512) : ∃ v, path v = [a, b, c] ∧ ptSlot v = d := by
  have ha := a.isLt
  have hb := b.isLt
  have hc := c.isLt
  have hd := d.isLt
  have hv : (UInt64.ofNat ((((a * 512 + b) * 512 + c) * 512 + d) * 4096)).toNat =
      (((a * 512 + b) * 512 + c) * 512 + d) * 4096 := by
    apply toNat_ofNat_of_lt
    omega
  refine ⟨UInt64.ofNat ((((a * 512 + b) * 512 + c) * 512 + d) * 4096), ?_, ?_⟩
  · simp only [path, List.cons.injEq, and_true]
    refine ⟨Fin.ext ?_, Fin.ext ?_, Fin.ext ?_⟩
    · simp only [slot, Fin.val_ofNat, getPML4Index_toNat, hv]
      omega
    · simp only [slot, Fin.val_ofNat, getPDPTIndex_toNat, hv]
      omega
    · simp only [slot, Fin.val_ofNat, getPDTIndex_toNat, hv]
      omega
  · apply Fin.ext
    simp only [ptSlot, slot, Fin.val_ofNat, getPTIndex_toNat, hv]
    omega

theorem address_of_free (h : FreeFrames k.frames fl) {f : Nat} (hf : f ∈ fl) :
    ∃ a : UInt64, a.toNat = 4096 * f := by
  obtain ⟨⟨l, -, hmap⟩, -⟩ := h
  have hmem : 4096 * f ∈ fl.map (4096 * ·) := List.mem_map_of_mem hf
  rw [← hmap] at hmem
  obtain ⟨p, -, hp⟩ := List.mem_map.1 hmem
  exact ⟨_, hp⟩

theorem mem_userPaths_extend {q : List (Fin 512)} {j : Fin 512} (hq : q ∈ userPaths)
    (hj : q = [] → j.val < 510) : q ++ List.replicate (3 - q.length) j ∈ userPaths := by
  refine ⟨?_, ?_⟩
  · rw [List.length_append, List.length_replicate]
    have := hq.1
    omega
  · intro i hi
    cases q with
    | nil =>
      obtain rfl : j = i := by simpa using hi
      exact hj rfl
    | cons a q => exact hq.2 i (by simpa using hi)

/-- In a table of the child, an entry that was not written leads back to the table, so there is an
address that ends in it; the parent has that address only if the entry was written. -/
theorem DirtyFork.written (h : DirtyFork k r fl (selfLinked fl k.mem) c k₀ k')
    (hfree : FreeFrames k.frames fl)
    (hsub : ∀ v, path v ∈ userPaths → (walk k'.mem c v).isSome → (walk k.mem r v).isSome)
    {q : List (Fin 512)} {f : Nat} (hq : q ∈ userPaths) (hf : k₀.table c q = some f) {j : Fin 512}
    (hj : q = [] → j.val < 510) : pte.present (entry k₀.mem f j) = true := by
  by_contra habs
  rw [Bool.not_eq_true] at habs
  obtain ⟨hfl, hroot⟩ := h.child hq hf
  obtain ⟨a, ha⟩ := address_of_free hfree hfl
  have hself : entry k'.mem f j = selfEntry f :=
    (h.laid.stale f j hfl habs fun hfc => hj (hroot hfc)).trans (entry_selfLinked hfl k.mem j)
  have hnext : next pte (entry k'.mem) f j = some f := next_selfEntry ha hself
  have hloop : ∀ n, tableAt pte (entry k'.mem) f (List.replicate n j) = some f := by
    intro n
    induction n with
    | zero => rfl
    | succ n ih => rw [List.replicate_succ, tableAt_cons, hnext, Option.bind_some, ih]
  set p := q ++ List.replicate (3 - q.length) j with hp
  have hpS : p ∈ userPaths := mem_userPaths_extend hq hj
  have hlen : p.length = 3 := by
    have := hq.1
    rw [hp, List.length_append, List.length_replicate]
    omega
  obtain ⟨x, y, z, hxyz⟩ := List.length_eq_three.1 hlen
  obtain ⟨v, hv, hslot⟩ := exists_address x y z j
  rw [← hxyz] at hv
  have hchild : walk k'.mem c v = some (selfEntry f) := by
    have htable : tableAt pte (entry k'.mem) c p = some f := by
      rw [hp, tableAt_append_of (tableAt_mono h.kept hf), hloop]
    have hpres : pte.present (selfEntry f) = true := present_iff.2 (or_and_ne_zero (by decide))
    rw [walk, hv, hslot, leafAt_of htable, hself, if_pos hpres]
  have hparent := hsub v (by rw [hv]; exact hpS) (by rw [hchild]; rfl)
  -- The parent's entry was copied, along the path through `q` and `j`.
  have hcopied : (k₀.leaf c p j).isSome := by
    rw [(h.copied hpS hlen j).1, Option.isSome_map]
    rwa [walk, hv, hslot] at hparent
  obtain ⟨e, he⟩ := Option.isSome_iff_exists.1 hcopied
  obtain ⟨g, hg, rfl, hpres⟩ := leafAt_eq_some he
  by_cases hshort : q.length = 3
  · have hpq : p = q := by rw [hp, hshort, Nat.sub_self, List.replicate_zero, List.append_nil]
    rw [hpq] at hg
    obtain rfl := Option.some.inj (hg.symm.trans hf)
    rw [habs] at hpres
    exact absurd hpres (by simp)
  · obtain ⟨n, hn⟩ : ∃ n, 3 - q.length = n + 1 := ⟨2 - q.length, by have := hq.1; omega⟩
    rw [hp, hn, List.replicate_succ, tableAt_append_of hf] at hg
    obtain ⟨u, hu, -⟩ := exists_next_of_tableAt hg
    unfold next at hu
    rw [habs] at hu
    exact absurd hu (by simp)

/-- If the child has no more than the parent even then, the parent has everything. -/
theorem DirtyFork.full (h : DirtyFork k r fl (selfLinked fl k.mem) c k₀ k')
    (hfree : FreeFrames k.frames fl)
    (hsub : ∀ v, path v ∈ userPaths → (walk k'.mem c v).isSome → (walk k.mem r v).isSome)
    {v : UInt64} (hv : path v ∈ userPaths) : (walk k.mem r v).isSome := by
  have htables : ∀ q ∈ userPaths, ∃ f, k₀.table c q = some f := by
    intro q hq
    induction q using List.reverseRecOn with
    | nil => exact ⟨c, rfl⟩
    | append_singleton q j ih =>
      obtain ⟨f, hf⟩ := ih (prefixClosed_userPaths.left hq)
      have hj : q = [] → j.val < 510 := by
        rintro rfl
        exact hq.2 j rfl
      have hpres := h.written hfree hsub (prefixClosed_userPaths.left hq) hf hj
      exact ⟨_, (tableAt_snoc hf).trans (if_pos hpres)⟩
  obtain ⟨f, hf⟩ := htables (path v) hv
  have hpres := h.written hfree hsub hv hf (j := ptSlot v) (by simp [path])
  have hleaf : (k₀.leaf c (path v) (ptSlot v)).isSome := by
    rw [Kernel.leaf, leafAt_of hf, if_pos hpres]
    rfl
  rwa [(h.copied hv rfl (ptSlot v)).1, Option.isSome_map] at hleaf

theorem full_of_duplicates (h : ParentTree k r fl) (hlen : 1 + tablesBelow k r 3 [] ≤ fl.length)
    (hdup : ForkDuplicates (k.withMem (selfLinked fl k.mem)) r) {v : UInt64}
    (hv : path v ∈ userPaths) : (walk k.mem r v).isSome := by
  have hm := sameElsewhere_selfLinked fl k.mem
  rcases forkSpace_dirty h hm with ⟨-, hfew⟩ | ⟨a, c, k₀, k', hsome, ha, -, hfork⟩
  · omega
  have hexact := hdup a k' hsome
  have hc : a.toNat / 4096 = c := by omega
  rw [hc] at hexact
  refine hfork.full h.free ?_ hv
  intro w hw hsome'
  rw [← h.walk_withMem hm hw]
  exact (hexact.mapped w hw).1 hsome'

end

/-- A parent that maps nothing, and three free frames. -/
theorem parentTree_blank : ParentTree blankKernel 1 [2, 3, 4] := by
  have hpaging : Paging userPaths {1} blankKernel [2, 3, 4] :=
    paging_blank (freeFrames_pageInit 4096 (n := 5) (by decide)) fun _ _ _ _ => rfl
  exact ⟨rfl, hpaging.forest, hpaging.free, hpaging.fresh⟩

theorem tablesBelow_blankKernel : tablesBelow blankKernel 1 3 [] = 0 := by
  have htable : ∀ j, blankKernel.table 1 ([] ++ [j]) = none := fun j =>
    (tableAt_blank (below_of_zeroPage fun _ _ => rfl)).trans (if_neg (by simp))
  rw [tablesBelow]
  simp only [htable, Option.isSome_none, Bool.false_eq_true, if_false, List.map_const',
    List.sum_replicate, smul_zero]

end Sbunix
