import Sbunix.ElfLoad

/-!
# Loads on machines with the same tables

The steps of a load on two machines that agree on the frames `U`. When `U` includes the tables, the
machines perform the same operations (`loadOps_loading`), and `Loading` is what they keep.
-/

namespace Sbunix

open Lib Lib.Radix

/-! ## The tables of an address space -/

/-- The frames of the tables below `root`. -/
def tableFrames (k : Kernel) (root : Nat) : Set Nat :=
  {f | ∃ q ∈ allPaths, k.table root q = some f}

/-- Those of the PML4, the PDPTs and the PDTs. -/
def upperFrames (k : Kernel) (root : Nat) : Set Nat :=
  {f | ∃ q i, q ++ [i] ∈ allPaths ∧ k.table root q = some f}

theorem upperFrames_subset (k : Kernel) (root : Nat) : upperFrames k root ⊆ tableFrames k root :=
  fun _ ⟨q, _, hq, hf⟩ => ⟨q, prefixClosed_allPaths.left hq, hf⟩

section

variable {U : Set Nat} {k k' k₁ : Kernel} {fl : List Nat} {root t f : Nat} {a v p : UInt64}
  {table index : UInt64} {i : Fin 512} {q : List (Fin 512)}

theorem not_fresh_iff : ¬ Fresh pte (entry k.mem) allPaths {root} f ↔ f ∈ tableFrames k root := by
  simp only [Fresh, tableFrames, Set.mem_singleton_iff, forall_eq, Set.mem_ofPred_eq]
  push Not
  rfl

theorem FreeFrames.unique {b : Frames} {fl' : List Nat} (h : FreeFrames b fl)
    (h' : FreeFrames b fl') : fl = fl' := by
  obtain ⟨l, hl, hmap⟩ := h.chain
  obtain ⟨l', hl', hmap'⟩ := h'.chain
  obtain rfl := hl.unique hl'
  exact List.map_injective_iff.2 (mul_right_injective₀ (by decide : (4096 : Nat) ≠ 0))
    (hmap.symm.trans hmap')

/-- The address space below `root`: its tables are at the paths `D`. -/
structure Space (root : Nat) (D : Finset (List (Fin 512))) (k : Kernel) (fl : List Nat) : Prop
    extends Tabled allPaths {root} root D k fl where
  cr3 : k.cr3.toNat = 4096 * root

theorem AddressSpace.space (h : AddressSpace k root fl) : ∃ D, Space root D k fl := by
  classical
  have hfin : {q : List (Fin 512) | q.length ≤ 3}.Finite := List.finite_length_le _ 3
  refine ⟨hfin.toFinset.filter fun q => (k.table root q).isSome, ⟨rfl, h.paging, ?_⟩, h.cr3⟩
  intro q hq
  rw [Finset.mem_filter, Set.Finite.mem_toFinset]
  exact ⟨fun hsome => ⟨hq, hsome⟩, fun hmem => hmem.2⟩

theorem Space.root_eq {D : Finset (List (Fin 512))} (h : Space root D k fl) : k.root = root := by
  rw [Kernel.root, h.cr3]
  omega

/-- The address space below `root`, whatever the free frames hold. -/
structure RawSpace (root : Nat) (D : Finset (List (Fin 512))) (k : Kernel) (fl : List Nat) :
    Prop where
  beside : BesideFree allPaths {root} k fl
  tables : ∀ {q}, q ∈ allPaths → ((k.table root q).isSome ↔ q ∈ D)
  cr3 : k.cr3.toNat = 4096 * root

theorem spare_subset (fl T : List Nat) : spare fl T ⊆ fl := fun _ hf => (mem_spare.1 hf).1

theorem Space.raw {D : Finset (List (Fin 512))} (h : Space root D k fl) : RawSpace root D k fl :=
  ⟨h.paging.beside, h.tables, h.cr3⟩

/-- With the free frames cleared, other than blank ones. -/
theorem RawSpace.cleared {D : Finset (List (Fin 512))} (h : RawSpace root D k fl) {T : List Nat}
    (hT : ∀ f ∈ T, Blank k.mem f) : Space root D (k.cleared (spare fl T)) fl := by
  have hlinked := h.beside.cleared prefixClosed_allPaths (spare_subset fl T)
  refine ⟨⟨rfl, ⟨hlinked.forest, hlinked.free, hlinked.fresh, ?_⟩, ?_⟩, h.cr3⟩
  · exact fun f hf => blank_cleared hT hf
  · intro q hq
    rw [h.beside.table_cleared prefixClosed_allPaths (spare_subset fl T) rfl hq]
    exact h.tables hq

/-- Nothing but free frames is cleared. -/
theorem RawSpace.walk_cleared {D : Finset (List (Fin 512))} (h : RawSpace root D k fl)
    (T : List Nat) (w : UInt64) : Sbunix.walk (k.cleared (spare fl T)).mem root w =
      Sbunix.walk k.mem root w :=
  h.beside.leaf_cleared prefixClosed_allPaths (spare_subset fl T) rfl (path_mem_allPaths w) _

/-- `page_alloc` takes the first free frame. -/
theorem Space.pop {D : Finset (List (Fin 512))} (h : Space root D k fl)
    (hrun : k.pageAllocAddr = some (a, k₁)) :
    ∃ f fl', fl = f :: fl' ∧ a.toNat = 4096 * f ∧ Space root D k.pop fl' := by
  cases fl with
  | nil =>
    rw [h.paging.free.pageAllocAddr_nil] at hrun
    nomatch hrun
  | cons f fl =>
    obtain ⟨b, hpop, hb, hfree⟩ := h.paging.free.pageAllocAddr_cons
    obtain ⟨rfl, rfl⟩ := Prod.mk.inj (Option.some.inj (hpop.symm.trans hrun))
    refine ⟨f, fl, rfl, hb, ⟨rfl, ⟨h.paging.forest, hfree, ?_, ?_⟩, h.tables⟩, h.cr3⟩
    · exact fun x hx => h.paging.fresh x (List.mem_cons_of_mem _ hx)
    · exact fun x hx => h.paging.blank x (List.mem_cons_of_mem _ hx)

/-- What `map_process` does to an address space. -/
structure Mapped (root : Nat) (D : Finset (List (Fin 512))) (k : Kernel) (fl : List Nat)
    (v p : UInt64) (k₁ : Kernel) : Prop where
  space : Space root (withPath v D) k₁ (fl.drop ((withPath v D).card - D.card))
  ext : Extends allPaths {root} root k k₁ fl (fl.drop ((withPath v D).card - D.card))
  pt : path v ∉ D → fl[(withPath v D).card - D.card - 1]? = k₁.table root (path v)
  walk : ∀ w, walk k₁.mem root w =
    if vpage w = vpage v then some (p ||| pteFlags) else walk k.mem root w

theorem mapProcess_space {D : Finset (List (Fin 512))} (h : Space root D k fl)
    (hrun : mapProcess v p k = some k₁) : Mapped root D k fl v p k₁ := by
  rcases mapPage_tabled prefixClosed_allPaths h.toTabled h.cr3 (path_mem_allPaths v)
    (path_maximal v) p with ⟨hnone, -⟩ | ⟨k₂, t, hsome, htab, hext, -, ht, hpt, hleaf⟩
  · rw [mapProcess, hnone] at hrun
    cases hrun
  obtain rfl := Option.some.inj (hsome.symm.trans hrun)
  obtain ⟨hself, hother⟩ := walk_update path_maximal (Set.mem_singleton root) (path_mem_allPaths v)
    hext ht hleaf
  refine ⟨⟨htab, hext.cr3.symm ▸ h.cr3⟩, hext, fun hD => (hpt hD).trans ht.symm, ?_⟩
  intro w
  split_ifs with hw
  · rw [walk_congr _ _ hw, hself]
  · exact hother w (path_mem_allPaths w) hw

/-- The new tables are the first free frames. -/
theorem Mapped.tables {D : Finset (List (Fin 512))} (h : Mapped root D k fl v p k₁)
    (hf : f ∈ tableFrames k₁ root) :
    f ∈ tableFrames k root ∨ f ∈ fl.take ((withPath v D).card - D.card) := by
  obtain ⟨q, hq, htab⟩ := hf
  refine (h.ext.new rfl hq htab).imp (fun hold => ⟨q, hq, hold⟩) ?_
  intro hfree
  rw [← List.take_append_drop ((withPath v D).card - D.card) fl] at hfree
  refine (List.mem_append.1 hfree).resolve_right ?_
  exact fun hdrop => h.space.paging.fresh f hdrop root rfl q hq htab

/-- No table is missing below one that is there. -/
theorem Space.withPath_eq {D : Finset (List (Fin 512))} (h : Space root D k fl)
    (hv : path v ∈ D) : withPath v D = D := by
  have hsome : ∀ {q}, q <+: path v → q ∈ allPaths → q ∈ D := by
    intro q hpre hq
    by_contra hnone
    rw [← h.tables hq, Option.not_isSome_iff_eq_none] at hnone
    have habs := (h.tables (path_mem_allPaths v)).2 hv
    rw [Kernel.table, tableAt_eq_none hnone hpre] at habs
    cases habs
  have hpdt : [slot (getPML4Index v), slot (getPDPTIndex v)] ∈ D :=
    hsome ⟨[_], rfl⟩ (by simp [allPaths])
  have hpdpt : [slot (getPML4Index v)] ∈ D := hsome ⟨[_, _], rfl⟩ (by simp [allPaths])
  rw [withPath, Finset.insert_eq_of_mem hpdpt, Finset.insert_eq_of_mem hpdt,
    Finset.insert_eq_of_mem hv]

/-- The new upper tables are the frames before that of the PT. -/
theorem Mapped.upperFrames {D : Finset (List (Fin 512))} (hk : Space root D k fl)
    (h : Mapped root D k fl v p k₁) (hf : f ∈ upperFrames k₁ root) :
    f ∈ upperFrames k root ∨ f ∈ fl.take ((withPath v D).card - D.card - 1) := by
  obtain ⟨q, i, hq, htab⟩ := hf
  have hq' : q ∈ allPaths := prefixClosed_allPaths.left hq
  rcases h.ext.new rfl hq' htab with hold | hnew
  · exact Or.inl ⟨q, i, hq, hold⟩
  · right
    have htake : f ∈ fl.take ((withPath v D).card - D.card) := by
      rw [← List.take_append_drop ((withPath v D).card - D.card) fl] at hnew
      refine (List.mem_append.1 hnew).resolve_right ?_
      exact fun hdrop => h.space.paging.fresh f hdrop root rfl q hq' htab
    obtain ⟨j, hj, hget⟩ := List.getElem_of_mem htake
    rw [List.length_take] at hj
    rw [List.getElem_take] at hget
    have hD : path v ∉ D := by
      intro hD
      rw [hk.withPath_eq hD] at hj
      omega
    -- The last frame is that of the PT, which has another path.
    have hne : j ≠ (withPath v D).card - D.card - 1 := by
      rintro rfl
      have hpt := h.pt hD
      rw [List.getElem?_eq_getElem (by omega), hget] at hpt
      have hpath := h.ext.paging.forest.path_eq rfl rfl hq' (path_mem_allPaths v) htab hpt.symm
      exact path_maximal v i (hpath ▸ hq)
    exact List.mem_take_iff_getElem.2 ⟨j, by omega, hget⟩

/-- A page is mapped in the same way on a machine with the same upper tables. -/
theorem mapProcess_agree {D : Finset (List (Fin 512))} (h : Space root D k fl) (ha : Agree U k k')
    (hrun : mapProcess v p k = some k₁) (hU : upperFrames k₁ root ⊆ U) :
    ∃ k₁', mapProcess v p k' = some k₁' ∧ Agree U k₁ k₁' ∧
      (∀ f ∉ tableFrames k₁ root, SamePage k'.mem k₁'.mem f) ∧
      ∀ m, Overlay m k k' → Overlay m k₁ k₁' := by
  obtain ⟨k₁', hrun', hagree, hkeep, hover⟩ := mapPage_agree prefixClosed_allPaths ha h.paging rfl
    h.cr3 (path_mem_allPaths v) (path_maximal v) hrun fun q i hq f hf => hU ⟨q, i, hq, hf⟩
  refine ⟨k₁', ?_, hagree, fun f hf => hkeep f fun q hq htab => hf ⟨q, hq, htab⟩, hover⟩
  rw [mapProcess, ha.cr3]
  exact hrun'

/-- The upper tables lead to the PTs. -/
theorem Agree.table_upper (h : Agree U k k') (hU : upperFrames k root ⊆ U) (hq : q ∈ allPaths) :
    k'.table root q = k.table root q := by
  refine tableAt_congr ?_
  intro p₁ i p₂ t hp ht
  have hmem : t ∈ U := hU ⟨p₁, i, prefixClosed_allPaths.snoc (hp ▸ hq), ht⟩
  rw [next, next, h.entry hmem]

/-- Where a machine with the same upper tables has another translation, it comes from `m`. -/
theorem Overlay.walk {m : Mem} (h : Overlay m k k') (ha : Agree U k k')
    (hU : upperFrames k root ⊆ U) (w : UInt64) : Sbunix.walk k'.mem root w =
      (Sbunix.walk k.mem root w).or ((k.table root (path w)).bind fun t =>
        if pte.present (entry m t (ptSlot w)) then some (entry m t (ptSlot w)) else none) := by
  have htable : tableAt pte (entry k'.mem) root (path w) =
      tableAt pte (entry k.mem) root (path w) :=
    ha.table_upper hU (path_mem_allPaths w)
  rw [Sbunix.walk, Sbunix.walk, leafAt, leafAt, htable, Kernel.table]
  cases htab : tableAt pte (entry k.mem) root (path w) with
  | none => rfl
  | some t =>
    simp only [Option.bind_some]
    rw [h t (ptSlot w)]
    by_cases hpres : pte.present (entry k.mem t (ptSlot w)) = true
    · simp only [hpres, if_true, Option.some_or]
    · simp only [hpres, Bool.false_eq_true, if_false, Option.none_or]

/-- `map_process` succeeds when there is a frame for each missing table. -/
theorem mapProcess_isSome {D : Finset (List (Fin 512))} (h : Space root D k fl) (v p : UInt64)
    (hlen : (withPath v D).card ≤ fl.length + D.card) : ∃ k₁, mapProcess v p k = some k₁ := by
  rcases mapPage_tabled prefixClosed_allPaths h.toTabled h.cr3 (path_mem_allPaths v)
    (path_maximal v) p with ⟨-, hfew⟩ | ⟨k₁, -, hsome, -⟩
  · omega
  · exact ⟨k₁, hsome⟩

/-- Memories that agree on the tables have the same translations. -/
theorem walk_of_tables {m : Mem} (hm : ∀ f ∈ tableFrames k root, SamePage k.mem m f) (w : UInt64) :
    walk m root w = walk k.mem root w :=
  leafAt_of_agree prefixClosed_allPaths (Set.mem_singleton root) (path_mem_allPaths w)
    fun t ht i => entry_congr (hm t (not_fresh_iff.1 ht)) i

theorem table_of_tables {m : Mem} (hm : ∀ f ∈ tableFrames k root, SamePage k.mem m f)
    (hq : q ∈ allPaths) : tableAt pte (entry m) root q = k.table root q :=
  tableAt_of_agree prefixClosed_allPaths (Set.mem_singleton root) hq
    fun t ht i => entry_congr (hm t (not_fresh_iff.1 ht)) i

theorem tableFrames_of_tables {m : Mem} (hm : ∀ f ∈ tableFrames k root, SamePage k.mem m f) :
    tableFrames { k with mem := m } root = tableFrames k root := by
  ext f
  refine exists_congr fun q => and_congr_right fun hq => ?_
  show tableAt pte (entry m) root q = some f ↔ _
  rw [table_of_tables hm hq]

/-- A store outside the tables and the free frames leaves the address space as it is. -/
theorem Space.of_tables {D : Finset (List (Fin 512))} {m : Mem} (h : Space root D k fl)
    (hm : ∀ f ∈ tableFrames k root, SamePage k.mem m f) (hfree : ∀ f ∈ fl, SamePage k.mem m f) :
    Space root D { k with mem := m } fl := by
  have hentry : ∀ t, ¬ Fresh pte (Lib.entry k.mem) allPaths {root} t → ∀ i,
      Lib.entry m t i = Lib.entry k.mem t i :=
    fun t ht i => entry_congr (hm t (not_fresh_iff.1 ht)) i
  refine ⟨⟨rfl, ⟨?_, h.paging.free, ?_, fun f hf => (h.paging.blank f hf).congr (hfree f hf)⟩, ?_⟩,
    h.cr3⟩
  · exact forest_of_agree prefixClosed_allPaths h.paging.forest hentry
  · intro f hf r hr q hq
    obtain rfl := Set.mem_singleton_iff.1 hr
    show tableAt pte (Lib.entry m) r q ≠ some f
    rw [table_of_tables hm hq]
    exact h.paging.fresh f hf r hr q hq
  · intro q hq
    show (tableAt pte (Lib.entry m) root q).isSome ↔ q ∈ D
    rw [table_of_tables hm hq]
    exact h.tables hq

theorem RawSpace.of_tables {D : Finset (List (Fin 512))} {m : Mem} (h : RawSpace root D k fl)
    (hm : ∀ f ∈ tableFrames k root, SamePage k.mem m f) :
    RawSpace root D { k with mem := m } fl := by
  refine ⟨⟨?_, h.beside.free, ?_⟩, ?_, h.cr3⟩
  · exact forest_of_agree prefixClosed_allPaths h.beside.forest fun t ht i =>
      entry_congr (hm t (not_fresh_iff.1 ht)) i
  · intro f hf r hr q hq
    obtain rfl := Set.mem_singleton_iff.1 hr
    show tableAt pte (Lib.entry m) r q ≠ some f
    rw [table_of_tables hm hq]
    exact h.beside.fresh f hf r hr q hq
  · intro q hq
    show (tableAt pte (Lib.entry m) root q).isSome ↔ q ∈ D
    rw [table_of_tables hm hq]
    exact h.tables hq

theorem RawSpace.of_agree {D : Finset (List (Fin 512))} (h : RawSpace root D k fl)
    (ha : Agree U k k') (hU : tableFrames k root ⊆ U) : RawSpace root D k' fl := by
  have hmem := h.of_tables fun f hf => ha.mem f (hU hf)
  refine ⟨⟨hmem.beside.forest, ha.frames ▸ hmem.beside.free, hmem.beside.fresh⟩, hmem.tables, ?_⟩
  rw [ha.cr3]
  exact h.cr3

theorem RawSpace.pop {D : Finset (List (Fin 512))} {f : Nat} (h : RawSpace root D k (f :: fl)) :
    ∃ a, k.pageAllocAddr = some (a, k.pop) ∧ a.toNat = 4096 * f ∧ RawSpace root D k.pop fl := by
  obtain ⟨a, hpop, ha, hfree⟩ := h.beside.free.pageAllocAddr_cons
  refine ⟨a, hpop, ha, ⟨h.beside.forest, hfree, ?_⟩, h.tables, h.cr3⟩
  exact fun g hg => h.beside.fresh g (List.mem_cons_of_mem f hg)

/-! ## Writing bytes -/

/-- Steps that each write a byte, whatever is in the frames `G` that they write to. -/
theorem writeBytes_spec {g : Kernel → Nat → Option Kernel} {place : Nat → Nat} {b : Nat → UInt8}
    {G : Set Nat} {is : List Nat} (hG : ∀ i ∈ is, place i / 4096 ∈ G)
    (hstep : ∀ i ∈ is, ∀ m, (∀ f ∉ G, SamePage k.mem m f) →
      g { k with mem := m } i = some { k with mem := write8 m (place i) (b i) })
    (hinj : ∀ i ∈ is, ∀ j ∈ is, place i = place j → i = j) :
    ∃ m, is.foldlM g k = some { k with mem := m } ∧ (∀ i ∈ is, m (place i) = b i) ∧
      ∀ x, (∀ i ∈ is, x ≠ place i) → m x = k.mem x := by
  have hfold : ∀ (js : List Nat) (m : Mem), js ⊆ is → (∀ f ∉ G, SamePage k.mem m f) →
      ∃ m', js.foldlM g { k with mem := m } = some { k with mem := m' } ∧
        (∀ i ∈ js, m' (place i) = b i) ∧ ∀ x, (∀ i ∈ js, x ≠ place i) → m' x = m x := by
    intro js
    induction js with
    | nil => exact fun m _ _ => ⟨m, rfl, nofun, fun _ _ => rfl⟩
    | cons i js ih =>
      intro m hjs hm
      have hi : i ∈ is := hjs List.mem_cons_self
      have hkeep : ∀ f ∉ G, SamePage k.mem (write8 m (place i) (b i)) f := by
        intro f hf x hx
        have hne : x ≠ place i := by
          rintro rfl
          exact hf (hx ▸ hG i hi)
        exact (Function.update_of_ne hne _ _).trans (hm f hf x hx)
      obtain ⟨m', hrun, hval, hsame⟩ := ih _ (fun j hj => hjs (List.mem_cons_of_mem _ hj)) hkeep
      refine ⟨m', ?_, ?_, ?_⟩
      · rw [List.foldlM_cons, hstep i hi m hm]
        exact hrun
      · intro j hj
        by_cases hmem : j ∈ js
        · exact hval j hmem
        · obtain rfl : j = i := (List.mem_cons.1 hj).resolve_right hmem
          rw [hsame]
          · exact Function.update_self _ _ _
          · intro l hl hjl
            exact hmem (hinj j hi l (hjs (List.mem_cons_of_mem _ hl)) hjl ▸ hl)
      · intro x hx
        rw [hsame x fun j hj => hx j (List.mem_cons_of_mem _ hj)]
        exact Function.update_of_ne (hx i List.mem_cons_self) _ _
  exact hfold is k.mem (List.Subset.refl _) fun f _ => SamePage.refl _ _

/-- An address in the lower half, from its page and its offset. -/
theorem page_offset {n : Nat} (hn : n < 2 ^ 47) (h : v.toNat = n) : vpage v = n / 4096 := by
  unfold vpage
  omega

theorem target_pageEntry {g : Nat} (hg : 4096 * g < 2 ^ 64) : pte.target (pageEntry g) = g := by
  rw [pageEntry, pteFlags, target_or _ (by decide)]
  show (UInt64.ofNat (4096 * g)).toNat / 4096 = g
  rw [toNat_ofNat_of_lt hg]
  omega

theorem eq_pageEntry {g : Nat} (ha : a.toNat = 4096 * g) : a ||| pteFlags = pageEntry g := by
  rw [pageEntry, ← ha, UInt64.ofNat_toNat]

end

/-! ## The invariant of a load -/

/-- A load of two machines that agree on `U`, one of them with blank free frames. `fl₀` are the
free frames it began with, `w₀` are the translations before and `m₀` is the memory of the other
machine before. -/
structure Loading (root : Nat) (U : Set Nat) (fl₀ : List Nat) (w₀ : UInt64 → Option UInt64)
    (m₀ : Mem) (k k' : Kernel) (s : Layout) (c : Contents) : Prop where
  space : Space root s.tables k s.free
  agree : Agree U k k'
  suffix : s.free <:+ fl₀
  owned : ∀ {x g}, s.frame x = some g →
    g ∈ fl₀ ∧ g ∉ s.free ∧ g ∉ tableFrames k root ∧ 4096 * g < 2 ^ 64
  unique : ∀ {x y g}, s.frame x = some g → s.frame y = some g → x = y
  walk : ∀ w, walk k.mem root w = ((s.frame (vpage w)).map pageEntry).or (w₀ w)
  prior : ∀ {f}, f ∉ tableFrames k root → (f ∈ fl₀ → f ∈ s.free) → SamePage m₀ k'.mem f
  content : ∀ {x g}, s.frame x = some g → ∀ o < 4096,
    k'.mem (4096 * g + o) = (c (4096 * x + o)).getD (m₀ (4096 * g + o))

section

variable {root : Nat} {U : Set Nat} {fl₀ : List Nat} {w₀ : UInt64 → Option UInt64} {m₀ : Mem}
  {k k' k₁ : Kernel} {s : Layout} {c : Contents} {image : Mem} {v : UInt64}

/-- The state before a load. -/
theorem loading_init {D : Finset (List (Fin 512))} (h : Space root D k fl₀)
    (hagree : Agree U k k') :
    Loading root U fl₀ (walk k.mem root) k'.mem k k' ⟨D, fl₀, fun _ => none⟩ fun _ => none where
  space := h
  agree := hagree
  suffix := List.suffix_rfl
  owned := nofun
  unique := nofun
  walk _ := rfl
  prior _ _ := SamePage.refl _ _
  content := nofun

theorem loading_self {D : Finset (List (Fin 512))} (h : Space root D k fl₀) :
    Loading root Set.univ fl₀ (walk k.mem root) k.mem k k ⟨D, fl₀, fun _ => none⟩ fun _ => none :=
  loading_init h (Agree.refl _ k)

/-- An object of the kernel takes a frame. -/
theorem Loading.vma (h : Loading root U fl₀ w₀ m₀ k k' s c) (hrun : loadOp image k .vma = some k₁) :
    ∃ k₁', loadOp image k' .vma = some k₁' ∧
      Loading root U fl₀ w₀ m₀ k₁ k₁' (s.step .vma) (c.step image .vma) := by
  obtain ⟨⟨a, k₂⟩, hpop, hrun⟩ := Option.bind_eq_some_iff.1 hrun
  obtain rfl := Option.some.inj hrun
  obtain ⟨rfl, hpop', hagree⟩ := h.agree.pageAllocAddr hpop
  obtain ⟨f, fl, hfl, -, hspace⟩ := h.space.pop hpop
  have hstep : s.step .vma = { s with free := fl } := by rw [Layout.step, hfl, List.tail_cons]
  have hsub : ∀ {x}, x ∈ fl → x ∈ s.free := fun hx => hfl ▸ List.mem_cons_of_mem _ hx
  refine ⟨k'.pop, by rw [loadOp, hpop']; rfl, ?_⟩
  rw [hstep]
  refine ⟨hspace, hagree, ?_, ?_, h.unique, h.walk, ?_, h.content⟩
  · exact (List.suffix_cons f fl).trans (hfl ▸ h.suffix)
  · intro x g hg
    obtain ⟨hin, hout, htab, hlt⟩ := h.owned hg
    exact ⟨hin, fun hmem => hout (hsub hmem), htab, hlt⟩
  · exact fun hf hin => h.prior hf fun hmem => hsub (hin hmem)

/-- Pages have different frames still, when one gets a frame that no page had. -/
theorem unique_update {frame : Nat → Option Nat} {p f : Nat} (hnew : ∀ {x}, frame x ≠ some f)
    (hunique : ∀ {x y g}, frame x = some g → frame y = some g → x = y) {x y g : Nat}
    (hx : Function.update frame p (some f) x = some g)
    (hy : Function.update frame p (some f) y = some g) : x = y := by
  by_cases hxp : x = p
  · by_cases hyp : y = p
    · exact hxp.trans hyp.symm
    · rw [hxp, Function.update_self] at hx
      rw [Function.update_of_ne hyp, ← hx] at hy
      exact absurd hy hnew
  · rw [Function.update_of_ne hxp] at hx
    by_cases hyp : y = p
    · rw [hyp, Function.update_self] at hy
      exact absurd (hx.trans hy.symm) hnew
    · rw [Function.update_of_ne hyp] at hy
      exact hunique hx hy

/-- A page is mapped. -/
theorem Loading.page (h : Loading root U fl₀ w₀ m₀ k k' s c)
    (hrun : loadOp image k (.page v) = some k₁) (hU : tableFrames k₁ root ⊆ U) :
    ∃ k₁', loadOp image k' (.page v) = some k₁' ∧
      Loading root U fl₀ w₀ m₀ k₁ k₁' (s.step (.page v)) (c.step image (.page v)) := by
  obtain ⟨⟨a, k₂⟩, hpop, hmap⟩ := Option.bind_eq_some_iff.1 hrun
  obtain ⟨rfl, hpop', hagree⟩ := h.agree.pageAllocAddr hpop
  obtain ⟨f, fl, hfl, ha, hspace⟩ := h.space.pop hpop
  obtain ⟨hnew, hext, -, hwalk⟩ := mapProcess_space hspace hmap
  obtain ⟨k₁', hmap', hagree', hkeep, -⟩ := mapProcess_agree hspace hagree hmap
    ((upperFrames_subset k₁ root).trans hU)
  have hfree : f ∈ s.free := hfl ▸ List.mem_cons_self
  have hfnot : f ∉ fl := (List.nodup_cons.1 (hfl ▸ h.space.paging.free.nodup)).1
  have hsub : ∀ {x n}, x ∈ fl.drop n → x ∈ s.free :=
    fun hx => hfl ▸ List.mem_cons_of_mem _ (List.mem_of_mem_drop hx)
  have hgrow : ∀ {x}, x ∉ tableFrames k₁ root → x ∉ tableFrames k root := by
    rintro x hx ⟨q, hq, ht⟩
    exact hx ⟨q, hq, hext.tables rfl hq ht⟩
  -- A frame that is neither a table nor free does not become a table.
  have hstays : ∀ {g}, g ∉ tableFrames k root → g ∉ fl → g ∉ tableFrames k₁ root := by
    intro g hg hgfl
    rw [← not_fresh_iff, not_not] at hg ⊢
    exact hext.keeps_fresh hg hgfl
  have hffresh : f ∉ tableFrames k root := by
    rw [← not_fresh_iff, not_not]
    exact h.space.paging.fresh f hfree
  set s₁ : Layout := ⟨withPath v s.tables, fl.drop ((withPath v s.tables).card - s.tables.card),
    Function.update s.frame (vpage v) (some f)⟩
  have hstep : s.step (.page v) = s₁ := by
    rw [Layout.step, hfl, List.tail_cons, List.headD_cons]
  have hself : s₁.frame (vpage v) = some f := Function.update_self _ _ _
  have hsame : ∀ {x}, x ≠ vpage v → s₁.frame x = s.frame x := fun hx => Function.update_of_ne hx _ _
  have hlt : 4096 * f < 2 ^ 64 := ha ▸ a.toNat_lt
  refine ⟨k₁', ?_, ?_⟩
  · show (k'.pageAllocAddr.bind fun x => mapProcess v x.1 x.2) = some k₁'
    rw [hpop', Option.bind_some]
    exact hmap'
  rw [hstep]
  refine ⟨hnew, hagree', ?_, ?_, ?_, ?_, ?_, ?_⟩
  · exact ((List.drop_suffix _ _).trans (List.suffix_cons f fl)).trans (hfl ▸ h.suffix)
  · intro x g hg
    by_cases hx : x = vpage v
    · rw [hx, hself] at hg
      obtain rfl := Option.some.inj hg
      exact ⟨h.suffix.subset hfree, fun hmem => hfnot (List.mem_of_mem_drop hmem),
        hstays hffresh hfnot, hlt⟩
    · rw [hsame hx] at hg
      obtain ⟨hin, hout, htab, hglt⟩ := h.owned hg
      refine ⟨hin, fun hmem => hout (hsub hmem), hstays htab fun hmem => hout ?_, hglt⟩
      exact hfl ▸ List.mem_cons_of_mem _ hmem
  · -- The new frame was free, so that no page has it.
    intro x y g hx hy
    exact unique_update (fun hx => (h.owned hx).2.1 hfree) h.unique hx hy
  · intro w
    rw [hwalk]
    split_ifs with hw
    · rw [hw, hself, Option.map_some, Option.some_or, eq_pageEntry ha]
    · rw [hsame hw]
      exact h.walk w
  · intro x hx hin
    exact (h.prior (hgrow hx) fun hmem => hsub (hin hmem)).trans (hkeep x hx)
  · intro x g hg o ho
    have hpage : (4096 * x + o) / 4096 = x := by omega
    show k₁'.mem _ = Option.getD (if (4096 * x + o) / 4096 = vpage v then none else _) _
    rw [hpage]
    split_ifs with hx
    · rw [hx, hself] at hg
      obtain rfl := Option.some.inj hg
      refine (hkeep f (hstays hffresh hfnot) _ (by omega)).trans ?_
      exact h.prior hffresh (fun _ => hfree) _ (by omega)
    · rw [hsame hx] at hg
      obtain ⟨-, hout, htab, -⟩ := h.owned hg
      rw [← h.content hg o ho]
      refine hkeep g (hstays htab fun hmem => hout ?_) _ (by omega)
      exact hfl ▸ List.mem_cons_of_mem _ hmem

/-! ## Copies -/

/-- The place of the byte at address `a` in memory. -/
def Layout.place (s : Layout) (a : Nat) : Nat := 4096 * (s.frame (a / 4096)).getD 0 + a % 4096

theorem place_of_frame {x g o : Nat} (hx : s.frame x = some g) (ho : o < 4096) :
    s.place (4096 * x + o) = 4096 * g + o := by
  have hpage : (4096 * x + o) / 4096 = x := by omega
  have hoff : (4096 * x + o) % 4096 = o := by omega
  rw [Layout.place, hpage, hoff, hx, Option.getD_some]

/-- The frames of the loaded pages. -/
def Layout.frames (s : Layout) : Set Nat := {g | ∃ x, s.frame x = some g}

theorem Layout.Covers.place_mem {dest n i : Nat} (h : s.Covers dest n) (hi : i < n) :
    s.place (dest + i) / 4096 ∈ s.frames := by
  obtain ⟨g, hg⟩ := Option.isSome_iff_exists.1 (h.2 (dest + i) (by omega) (by omega))
  refine ⟨_, hg.trans (congrArg some ?_)⟩
  rw [Layout.place, hg, Option.getD_some]
  omega

theorem Loading.place_inj (h : Loading root U fl₀ w₀ m₀ k k' s c) {dest n i j : Nat}
    (hcov : s.Covers dest n) (hi : i < n) (hj : j < n)
    (hij : s.place (dest + i) = s.place (dest + j)) : i = j := by
  obtain ⟨g, hg⟩ := Option.isSome_iff_exists.1 (hcov.2 (dest + i) (by omega) (by omega))
  obtain ⟨g', hg'⟩ := Option.isSome_iff_exists.1 (hcov.2 (dest + j) (by omega) (by omega))
  rw [Layout.place, Layout.place, hg, hg', Option.getD_some, Option.getD_some] at hij
  obtain rfl : g = g' := by omega
  have hpage := h.unique hg hg'
  omega

/-- The frames of the loaded pages are no tables. -/
theorem Loading.frames_disjoint (h : Loading root U fl₀ w₀ m₀ k k' s c) {f : Nat}
    (hf : f ∈ tableFrames k root) : f ∉ s.frames :=
  fun ⟨_, hx⟩ => (h.owned hx).2.2.1 hf

theorem Loading.root_eq (h : Loading root U fl₀ w₀ m₀ k k' s c) {l : Kernel}
    (hcr3 : l.cr3 = k.cr3) :
    l.root = root := by
  rw [Kernel.root, hcr3, h.space.cr3]
  omega

/-- The translation of a loaded page on any machine with the same tables. -/
theorem Loading.translate (h : Loading root U fl₀ w₀ m₀ k k' s c) {l : Kernel}
    (hcr3 : l.cr3 = k.cr3)
    (htab : ∀ f ∈ tableFrames k root, SamePage k.mem l.mem f) {a g : Nat} (ha : a < 2 ^ 47)
    (hv : v.toNat = a) (hg : s.frame (a / 4096) = some g) : translate v l = some (s.place a) := by
  have hwalk : Sbunix.walk l.mem l.root v = some (pageEntry g) := by
    rw [h.root_eq hcr3, walk_of_tables htab, h.walk, page_offset ha hv, hg, Option.map_some,
      Option.some_or]
  rw [translate_of_walk hwalk, target_pageEntry (h.owned hg).2.2.2, Layout.place, hg,
    Option.getD_some, hv]

/-- Bytes are stored in loaded pages. -/
theorem Loading.storeBytes (h : Loading root U fl₀ w₀ m₀ k k' s c) {l : Kernel}
    (hcr3 : l.cr3 = k.cr3) (htab : ∀ f ∈ tableFrames k root, SamePage k.mem l.mem f) {dest : UInt64}
    {n : Nat} (hcov : s.Covers dest.toNat n) {g : Kernel → Nat → Option Kernel} {b : Nat → UInt8}
    (hstep : ∀ i < n, ∀ m, (∀ f ∉ s.frames, SamePage l.mem m f) → g { l with mem := m } i =
      storeByte (dest + UInt64.ofNat i) (b i) { l with mem := m })
    {is : List Nat} (his : ∀ i, i ∈ is ↔ i < n) :
    ∃ m, is.foldlM g l = some { l with mem := m } ∧
      (∀ i < n, m (s.place (dest.toNat + i)) = b i) ∧
      ∀ x, (∀ i < n, x ≠ s.place (dest.toNat + i)) → m x = l.mem x := by
  simp only [← his] at hstep ⊢
  refine writeBytes_spec (fun i hi => hcov.place_mem ((his i).1 hi)) ?_ ?_
  · intro i hi m hm
    have hlt := (his i).1 hi
    obtain ⟨g, hg⟩ := Option.isSome_iff_exists.1 (hcov.2 (dest.toNat + i) (by omega) (by omega))
    have hbound := hcov.1
    have hval : (dest + UInt64.ofNat i).toNat = dest.toNat + i := toNat_add_ofNat (by omega)
    rw [hstep i hi m hm, storeByte, h.translate (l := { l with mem := m }) hcr3 ?_ (by omega) hval
      hg, Option.map_some]
    exact fun f hf => (htab f hf).trans (hm f (h.frames_disjoint hf))
  · exact fun i hi j hj => h.place_inj hcov ((his i).1 hi) ((his j).1 hj)

theorem Contents.write_of_not_mem {dest n a : Nat} {b : Nat → UInt8}
    (h : ¬ (dest ≤ a ∧ a < dest + n)) : c.write dest n b a = c a :=
  if_neg h

theorem Contents.write_of_mem {dest n i : Nat} {b : Nat → UInt8} (h : i < n) :
    c.write dest n b (dest + i) = some (b i) := by
  rw [Contents.write, if_pos (by omega), Nat.add_sub_cancel_left]

/-- The machines after bytes were stored in loaded pages. -/
theorem Loading.write (h : Loading root U fl₀ w₀ m₀ k k' s c)
    {dest n : Nat} (hcov : s.Covers dest n) {b b' : Nat → UInt8} {m m' : Mem}
    (hb : ∀ i < n, s.place (dest + i) / 4096 ∈ U → b' i = b i)
    (hm : ∀ i < n, m (s.place (dest + i)) = b i)
    (hkeep : ∀ x, (∀ i < n, x ≠ s.place (dest + i)) → m x = k.mem x)
    (hm' : ∀ i < n, m' (s.place (dest + i)) = b' i)
    (hkeep' : ∀ x, (∀ i < n, x ≠ s.place (dest + i)) → m' x = k'.mem x) :
    Loading root U fl₀ w₀ m₀ { k with mem := m } { k' with mem := m' } s (c.write dest n b') := by
  have hother : ∀ {f x i}, f ∉ s.frames → x / 4096 = f → i < n → x ≠ s.place (dest + i) := by
    rintro f x i hf hx hi rfl
    exact hf (hx ▸ hcov.place_mem hi)
  have htab : ∀ f ∈ tableFrames k root, SamePage k.mem m f := fun f hf x hx =>
    hkeep x fun i hi => hother (h.frames_disjoint hf) hx hi
  have hfree : ∀ f ∈ s.free, SamePage k.mem m f := fun f hf x hx =>
    hkeep x fun i hi => hother (fun ⟨_, hy⟩ => (h.owned hy).2.1 hf) hx hi
  have hframes : tableFrames { k with mem := m } root = tableFrames k root :=
    tableFrames_of_tables htab
  refine ⟨h.space.of_tables htab hfree, ⟨h.agree.frames, h.agree.cr3, ?_⟩, h.suffix, ?_, h.unique,
    ?_, ?_, ?_⟩
  · intro f hf x hx
    by_cases hplace : ∃ i, i < n ∧ x = s.place (dest + i)
    · obtain ⟨i, hi, rfl⟩ := hplace
      exact (hm' i hi).trans ((hb i hi (hx ▸ hf)).trans (hm i hi).symm)
    · have hne : ∀ i < n, x ≠ s.place (dest + i) := fun i hi hxi => hplace ⟨i, hi, hxi⟩
      exact (hkeep' x hne).trans ((h.agree.mem f hf x hx).trans (hkeep x hne).symm)
  · intro x g hg
    rw [hframes]
    exact h.owned hg
  · exact fun w => (walk_of_tables htab w).trans (h.walk w)
  · intro f hf hin x hx
    rw [hframes] at hf
    refine (hkeep' x fun i hi => hother ?_ hx hi).trans (h.prior hf hin x hx)
    exact fun ⟨_, hy⟩ => (h.owned hy).2.1 (hin (h.owned hy).1)
  · intro x g hg o ho
    have hplace := place_of_frame hg ho
    show m' (4096 * g + o) = Option.getD (if dest ≤ 4096 * x + o ∧ 4096 * x + o < dest + n
      then some (b' (4096 * x + o - dest)) else c (4096 * x + o)) _
    split_ifs with hin
    · obtain ⟨i, hi⟩ := Nat.exists_eq_add_of_le hin.1
      rw [← hplace, hi, hm' i (by omega), Option.getD_some, Nat.add_sub_cancel_left]
    · rw [hkeep', h.content hg o ho]
      intro i hi heq
      have hmem := hcov.place_mem hi
      obtain ⟨g', hg'⟩ := Option.isSome_iff_exists.1 (hcov.2 (dest + i) (by omega) (by omega))
      rw [Layout.place, hg', Option.getD_some] at heq
      obtain rfl : g = g' := by omega
      have hpage := h.unique hg hg'
      omega

theorem mem_range_or_reverse {n : Nat} {is : List Nat}
    (his : is = List.range n ∨ is = (List.range n).reverse) (i : Nat) : i ∈ is ↔ i < n := by
  rcases his with rfl | rfl
  · exact List.mem_range
  · rw [List.mem_reverse, List.mem_range]

theorem Loading.agree_tables (h : Loading root U fl₀ w₀ m₀ k k' s c)
    (hU : tableFrames k root ⊆ U) : ∀ f ∈ tableFrames k root, SamePage k.mem k'.mem f :=
  fun f hf => h.agree.mem f (hU hf)

theorem Loading.tableFrames_write (h : Loading root U fl₀ w₀ m₀ k k' s c) {dest n : Nat}
    (hcov : s.Covers dest n) {m : Mem}
    (hkeep : ∀ x, (∀ i < n, x ≠ s.place (dest + i)) → m x = k.mem x) :
    tableFrames { k with mem := m } root = tableFrames k root := by
  refine tableFrames_of_tables fun f hf x hx => hkeep x ?_
  rintro i hi rfl
  exact h.frames_disjoint hf (hx ▸ hcov.place_mem hi)

/-- A byte of a loaded page. -/
theorem Loading.loadByte (h : Loading root U fl₀ w₀ m₀ k k' s c) (hU : tableFrames k root ⊆ U)
    {a g : Nat} (ha : a < 2 ^ 47) (hv : v.toNat = a) (hg : s.frame (a / 4096) = some g) :
    loadByte v k' = some ((c a).getD (m₀ (4096 * g + a % 4096))) := by
  have hcontent := h.content hg (a % 4096) (Nat.mod_lt _ (by decide))
  rw [Nat.div_add_mod] at hcontent
  rw [Sbunix.loadByte, h.translate h.agree.cr3 (h.agree_tables hU) ha hv hg, Option.map_some,
    Layout.place, hg, Option.getD_some, hcontent]

/-- It is the same byte on both machines when its frame is in `U`. -/
theorem Loading.loadByte_agree (h : Loading root U fl₀ w₀ m₀ k k' s c) (hU : tableFrames k root ⊆ U)
    {a g : Nat} (ha : a < 2 ^ 47) (hv : v.toNat = a) (hg : s.frame (a / 4096) = some g)
    (hmem : g ∈ U) : Sbunix.loadByte v k' = Sbunix.loadByte v k := by
  have hplace : s.place a / 4096 = g := by
    rw [Layout.place, hg, Option.getD_some]
    omega
  rw [Sbunix.loadByte, Sbunix.loadByte, h.translate h.agree.cr3 (h.agree_tables hU) ha hv hg,
    h.translate rfl (fun f _ => SamePage.refl _ _) ha hv hg, Option.map_some, Option.map_some,
    h.agree.mem g hmem _ hplace]

/-- A segment is copied. -/
theorem Loading.copy (h : Loading root U fl₀ w₀ m₀ k k' s c) (hU : tableFrames k root ⊆ U)
    (image : Mem) {dest : UInt64} (src : UInt64) {n : UInt64}
    (hcov : s.Covers dest.toNat n.toNat) :
    ∃ k₁ k₁', loadOp image k (.copy dest src n) = some k₁ ∧
      loadOp image k' (.copy dest src n) = some k₁' ∧ tableFrames k₁ root = tableFrames k root ∧
      Loading root U fl₀ w₀ m₀ k₁ k₁' s (c.step image (.copy dest src n)) := by
  have hcopy : ∀ l : Kernel, l.cr3 = k.cr3 → (∀ f ∈ tableFrames k root, SamePage k.mem l.mem f) →
      ∃ m, memcpyFile image dest src n l = some { l with mem := m } ∧
        (∀ i < n.toNat, m (s.place (dest.toNat + i)) = image (src + UInt64.ofNat i).toNat) ∧
        ∀ x, (∀ i < n.toNat, x ≠ s.place (dest.toNat + i)) → m x = l.mem x := by
    intro l hcr3 htab
    unfold memcpyFile
    split_ifs
    · exact h.storeBytes hcr3 htab hcov (fun i _ m _ => rfl) (mem_range_or_reverse (.inr rfl))
    · exact h.storeBytes hcr3 htab hcov (fun i _ m _ => rfl) (mem_range_or_reverse (.inl rfl))
  obtain ⟨m, hrun, hm, hkeep⟩ := hcopy k rfl fun f _ => SamePage.refl _ _
  obtain ⟨m', hrun', hm', hkeep'⟩ := hcopy k' h.agree.cr3 (h.agree_tables hU)
  exact ⟨_, _, hrun, hrun', h.tableFrames_write hcov hkeep,
    h.write hcov (fun _ _ _ => rfl) hm hkeep hm' hkeep'⟩

/-! ## A run of operations -/

theorem loadOp_tableFrames {op : LoadOp} (h : Loading root U fl₀ w₀ m₀ k k' s c)
    (hok : WithinPages s op) (hU : tableFrames k root ⊆ U) (hrun : loadOp image k op = some k₁) :
    tableFrames k root ⊆ tableFrames k₁ root := by
  cases op with
  | vma =>
    obtain ⟨⟨a, k₂⟩, hpop, hrun⟩ := Option.bind_eq_some_iff.1 hrun
    obtain rfl := Option.some.inj hrun
    obtain ⟨rfl, -, -⟩ := h.agree.pageAllocAddr hpop
    exact subset_rfl
  | page v =>
    obtain ⟨⟨a, k₂⟩, hpop, hmap⟩ := Option.bind_eq_some_iff.1 hrun
    obtain ⟨rfl, -, -⟩ := h.agree.pageAllocAddr hpop
    obtain ⟨f, fl, -, -, hspace⟩ := h.space.pop hpop
    rintro g ⟨q, hq, hg⟩
    exact ⟨q, hq, (mapProcess_space hspace hmap).ext.tables rfl hq hg⟩
  | copy dest src n =>
    obtain ⟨k₂, -, hrun₂, -, hframes, -⟩ := h.copy hU image src hok
    obtain rfl := Option.some.inj (hrun.symm.trans hrun₂)
    exact hframes.superset

/-- One operation on both machines. -/
theorem loadOp_loading {op : LoadOp} (h : Loading root U fl₀ w₀ m₀ k k' s c)
    (hok : WithinPages s op) (hU : tableFrames k₁ root ⊆ U) (hrun : loadOp image k op = some k₁)
    (hmono : tableFrames k root ⊆ tableFrames k₁ root) :
    ∃ k₁', loadOp image k' op = some k₁' ∧
      Loading root U fl₀ w₀ m₀ k₁ k₁' (s.step op) (c.step image op) := by
  cases op with
  | vma => exact h.vma hrun
  | page v => exact h.page hrun hU
  | copy dest src n =>
    obtain ⟨k₂, k₂', hrun₂, hrun₂', -, h₂⟩ :=
      h.copy (hmono.trans hU) image src hok
    obtain rfl := Option.some.inj (hrun.symm.trans hrun₂)
    exact ⟨k₂', hrun₂', h₂⟩

/-- An operation succeeds when the frames suffice for it. -/
theorem loadOp_isSome (image : Mem) {op : LoadOp} (h : Loading root Set.univ fl₀ w₀ m₀ k k s c)
    (hok : WithinPages s op) (hfits : s.Fits op) : ∃ k₁, loadOp image k op = some k₁ := by
  cases op with
  | vma =>
    obtain ⟨f, fl, hfl⟩ := List.exists_cons_of_length_pos hfits
    obtain ⟨a, hpop, -, -⟩ := (hfl ▸ h.space.paging.free).pageAllocAddr_cons
    exact ⟨k.pop, by rw [loadOp, hpop]; rfl⟩
  | page v =>
    change (withPath v s.tables).card < s.free.length + s.tables.card at hfits
    have hcard := Finset.card_le_card (subset_withPath v s.tables)
    obtain ⟨f, fl, hfl⟩ := List.exists_cons_of_length_pos (l := s.free) (by omega)
    obtain ⟨a, hpop, -, -⟩ := (hfl ▸ h.space.paging.free).pageAllocAddr_cons
    obtain ⟨f', fl', hfl', -, hspace⟩ := h.space.pop hpop
    rw [hfl', List.length_cons] at hfits
    obtain ⟨k₁, hk₁⟩ := mapProcess_isSome hspace v a (by omega)
    refine ⟨k₁, ?_⟩
    show (k.pageAllocAddr.bind fun x => mapProcess v x.1 x.2) = some k₁
    rw [hpop]
    exact hk₁
  | copy dest src n =>
    obtain ⟨k₁, -, hrun, -⟩ := h.copy (Set.subset_univ _) image src hok
    exact ⟨k₁, hrun⟩

/-- A load comes to its end when the frames suffice. -/
theorem loadOps_isSome (image : Mem) {ops : List LoadOp}
    (h : Loading root Set.univ fl₀ w₀ m₀ k k s c)
    (hok : CopiesWithin s ops) (hfits : FramesSuffice s ops) :
    ∃ k₁, ops.foldlM (loadOp image) k = some k₁ := by
  induction ops generalizing k s c with
  | nil => exact ⟨k, rfl⟩
  | cons op ops ih =>
    obtain ⟨hop, hops⟩ := along_some_cons.1 hfits
    obtain ⟨k₂, hrun₂⟩ := loadOp_isSome image h hok.1 hop
    have hmono := loadOp_tableFrames h hok.1 (Set.subset_univ _) hrun₂
    obtain ⟨k₂', hrun₂', h₂⟩ := loadOp_loading h hok.1 (Set.subset_univ _) hrun₂ hmono
    obtain rfl := Option.some.inj (hrun₂.symm.trans hrun₂')
    obtain ⟨k₁, hrun⟩ := ih h₂ (hok.2 _ rfl) hops
    refine ⟨k₁, ?_⟩
    rw [List.foldlM_cons, hrun₂]
    exact hrun

theorem card_withPath_le (v : UInt64) (D : Finset (List (Fin 512))) :
    (withPath v D).card ≤ D.card + 3 := by
  unfold withPath
  refine (Finset.card_insert_le _ _).trans (Nat.succ_le_succ ?_)
  exact (Finset.card_insert_le _ _).trans (Nat.succ_le_succ (Finset.card_insert_le _ _))

/-- Four frames for each operation suffice. -/
theorem framesSuffice_of_length {ops : List LoadOp} (hlen : 4 * ops.length ≤ s.free.length) :
    FramesSuffice s ops := by
  induction ops generalizing s with
  | nil => trivial
  | cons op ops ih =>
    rw [List.length_cons] at hlen
    refine along_some_cons.2 ⟨?_, ih ?_⟩
    · cases op with
      | vma =>
        show 0 < s.free.length
        omega
      | page v =>
        have hcard := card_withPath_le v s.tables
        show (withPath v s.tables).card < s.free.length + s.tables.card
        omega
      | copy dest src n => trivial
    · cases op with
      | vma =>
        simp only [Layout.step, List.length_tail]
        omega
      | page v =>
        have hcard := card_withPath_le v s.tables
        simp only [Layout.step, List.length_drop, List.length_tail]
        omega
      | copy dest src n =>
        simp only [Layout.step]
        omega

/-- The first operation of a load, on one machine. -/
theorem loadOps_cons {op : LoadOp} {ops : List LoadOp}
    (h : Loading root Set.univ fl₀ w₀ m₀ k k s c) (hok : WithinPages s op)
    (hrun : (op :: ops).foldlM (loadOp image) k = some k₁) :
    ∃ k₂, loadOp image k op = some k₂ ∧ ops.foldlM (loadOp image) k₂ = some k₁ ∧
      tableFrames k root ⊆ tableFrames k₂ root ∧
      Loading root Set.univ fl₀ w₀ m₀ k₂ k₂ (s.step op) (c.step image op) := by
  rw [List.foldlM_cons] at hrun
  obtain ⟨k₂, hstep, hrest⟩ := Option.bind_eq_some_iff.1 hrun
  have hmono := loadOp_tableFrames h hok (Set.subset_univ _) hstep
  obtain ⟨k₂', hstep', h₂⟩ := loadOp_loading h hok (Set.subset_univ _) hstep hmono
  obtain rfl := Option.some.inj (hstep.symm.trans hstep')
  exact ⟨k₂, hstep, hrest, hmono, h₂⟩

/-- The tables of an address space stay in the course of a load. -/
theorem loadOps_tableFrames {ops : List LoadOp} (h : Loading root Set.univ fl₀ w₀ m₀ k k s c)
    (hok : CopiesWithin s ops) (hrun : ops.foldlM (loadOp image) k = some k₁) :
    tableFrames k root ⊆ tableFrames k₁ root := by
  induction ops generalizing k s c with
  | nil =>
    obtain rfl := Option.some.inj hrun
    exact subset_rfl
  | cons op ops ih =>
    obtain ⟨k₂, -, hrest, hmono, h₂⟩ := loadOps_cons h hok.1 hrun
    exact hmono.trans (ih h₂ (hok.2 _ rfl) hrest)

/-- The tables after an operation are those of before and the ones that the layout names. -/
theorem loadOp_tables {op : LoadOp} (h : Loading root Set.univ fl₀ w₀ m₀ k k s c)
    (hok : WithinPages s op) (hrun : loadOp image k op = some k₁) {f : Nat}
    (hf : f ∈ tableFrames k₁ root) : f ∈ tableFrames k root ∨ f ∈ s.tablesFor op := by
  cases op with
  | vma =>
    obtain ⟨⟨a, k₂⟩, hpop, hrun⟩ := Option.bind_eq_some_iff.1 hrun
    obtain rfl := Option.some.inj hrun
    obtain ⟨rfl, -, -⟩ := h.agree.pageAllocAddr hpop
    exact Or.inl hf
  | page v =>
    obtain ⟨⟨a, k₂⟩, hpop, hmap⟩ := Option.bind_eq_some_iff.1 hrun
    obtain ⟨rfl, -, -⟩ := h.agree.pageAllocAddr hpop
    obtain ⟨g, fl, hfl, -, hspace⟩ := h.space.pop hpop
    rw [Layout.tablesFor, hfl, List.tail_cons]
    exact (mapProcess_space hspace hmap).tables hf
  | copy dest src n =>
    obtain ⟨k₂, -, hrun₂, -, hframes, -⟩ := h.copy (Set.subset_univ _) image src hok
    obtain rfl := Option.some.inj (hrun.symm.trans hrun₂)
    exact Or.inl (hframes ▸ hf)

theorem loadOps_tables {ops : List LoadOp} (h : Loading root Set.univ fl₀ w₀ m₀ k k s c)
    (hok : CopiesWithin s ops) (hrun : ops.foldlM (loadOp image) k = some k₁) {f : Nat}
    (hf : f ∈ tableFrames k₁ root) : f ∈ tableFrames k root ∨ f ∈ s.newTables ops := by
  induction ops generalizing k s c with
  | nil =>
    obtain rfl := Option.some.inj hrun
    exact Or.inl hf
  | cons op ops ih =>
    obtain ⟨k₂, hstep, hrest, -, h₂⟩ := loadOps_cons h hok.1 hrun
    rw [Layout.newTables, Layout.collect, List.mem_append]
    rcases ih h₂ (hok.2 _ rfl) hrest with hf₂ | hlater
    · exact (loadOp_tables h hok.1 hstep hf₂).imp_right Or.inl
    · exact Or.inr (Or.inr hlater)

theorem step_free_subset (s : Layout) (op : LoadOp) : (s.step op).free ⊆ s.free := by
  cases op with
  | vma => exact List.tail_subset _
  | page v => exact fun _ hf => List.mem_of_mem_tail (List.mem_of_mem_drop hf)
  | copy dest src n => exact List.Subset.refl _

/-- New tables are made of free frames. -/
theorem newTables_subset (s : Layout) (ops : List LoadOp) : s.newTables ops ⊆ s.free := by
  induction ops generalizing s with
  | nil => exact List.nil_subset _
  | cons op ops ih =>
    refine List.append_subset.2 ⟨?_, List.Subset.trans (ih _) (step_free_subset s op)⟩
    cases op with
    | page v => exact fun _ hf => List.mem_of_mem_tail (List.mem_of_mem_take hf)
    | vma => exact List.nil_subset _
    | copy dest src n => exact List.nil_subset _

/-- **A load.** Two machines with the same tables at the end perform the same operations, and the
layout and the contents of the loaded pages are as computed. -/
theorem loadOps_loading {ops : List LoadOp} {m₁ : Mem} {c₁ : Contents}
    (hself : Loading root Set.univ fl₀ w₀ m₁ k k s c₁) (h : Loading root U fl₀ w₀ m₀ k k' s c)
    (hok : CopiesWithin s ops) (hrun : ops.foldlM (loadOp image) k = some k₁)
    (hU : tableFrames k₁ root ⊆ U) :
    ∃ k₁', ops.foldlM (loadOp image) k' = some k₁' ∧ Loading root U fl₀ w₀ m₀ k₁ k₁'
      (ops.foldl Layout.step s) (ops.foldl (Contents.step image) c) := by
  induction ops generalizing k k' s c c₁ with
  | nil =>
    obtain rfl := Option.some.inj hrun
    exact ⟨k', rfl, h⟩
  | cons op ops ih =>
    obtain ⟨k₂, hrun₂, hrun, hmono, hself₂⟩ := loadOps_cons hself hok.1 hrun
    have hrest := loadOps_tableFrames hself₂ (hok.2 _ rfl) hrun
    obtain ⟨k₂', hrun₂', h₂⟩ := loadOp_loading h hok.1 (hrest.trans hU) hrun₂ hmono
    obtain ⟨k₁', hrun', h₁⟩ := ih hself₂ h₂ (hok.2 _ rfl) hrun
    refine ⟨k₁', ?_, h₁⟩
    rw [List.foldlM_cons, hrun₂']
    exact hrun'

/-! ## The arguments -/

theorem Layout.Covers.mono {dest n dest' n' : Nat} (h : s.Covers dest n) (hlo : dest ≤ dest')
    (hhi : dest' + n' ≤ dest + n) : s.Covers dest' n' :=
  ⟨Nat.le_trans hhi h.1, fun a ha ha' => h.2 a (Nat.le_trans hlo ha) (Nat.lt_of_lt_of_le ha' hhi)⟩

/-- The frame that an address is loaded from is in `U`. -/
def ReadsIn (U : Set Nat) (w₀ : UInt64 → Option UInt64) (s : Layout) (w : UInt64) : Prop :=
  ∀ e, ((s.frame (vpage w)).map pageEntry).or (w₀ w) = some e → pte.target e ∈ U

/-- The byte at `w` is in a page of before, at `p` in memory, and the load leaves it there. -/
structure Untouched (T : Set Nat) (fl₀ : List Nat) (w₀ : UInt64 → Option UInt64) (s : Layout)
    (w : UInt64) (p : Nat) : Prop where
  frame : s.frame (vpage w) = none
  entry : ∃ e, w₀ w = some e ∧ p = 4096 * pte.target e + w.toNat % 4096
  used : p / 4096 ∉ fl₀
  data : p / 4096 ∉ T

/-- A byte is stored on both machines. -/
theorem Loading.storeByte (h : Loading root U fl₀ w₀ m₀ k k' s c) (hU : tableFrames k root ⊆ U)
    {a : Nat} (hv : v.toNat = a) (hcov : s.Covers a 1) {b b' : UInt8}
    (hb : s.place a / 4096 ∈ U → b' = b) :
    ∃ k₁ k₁', storeByte v b k = some k₁ ∧ storeByte v b' k' = some k₁' ∧
      tableFrames k₁ root = tableFrames k root ∧
      Loading root U fl₀ w₀ m₀ k₁ k₁' s (c.write a 1 fun _ => b') := by
  obtain ⟨g, hg⟩ := Option.isSome_iff_exists.1 (hcov.2 a (Nat.le_refl a) (by omega))
  have hbound := hcov.1
  have hstore : ∀ (l : Kernel) (b : UInt8), l.cr3 = k.cr3 →
      (∀ f ∈ tableFrames k root, SamePage k.mem l.mem f) →
      Sbunix.storeByte v b l = some { l with mem := write8 l.mem (s.place a) b } := by
    intro l b hcr3 htab
    rw [Sbunix.storeByte, h.translate hcr3 htab (by omega) hv hg, Option.map_some]
  have hat : ∀ i < 1, s.place (a + i) = s.place a := by
    intro i hi
    rw [Nat.lt_one_iff.1 hi, Nat.add_zero]
  have hself : ∀ (m : Mem) (b : UInt8), ∀ i < 1, write8 m (s.place a) b (s.place (a + i)) = b :=
    fun m b i hi => by rw [hat i hi, write8, Function.update_self]
  have hne : ∀ (m : Mem) (b : UInt8) (x : Nat), (∀ i < 1, x ≠ s.place (a + i)) →
      write8 m (s.place a) b x = m x :=
    fun m b x hx => Function.update_of_ne (hx 0 (by omega)) _ _
  exact ⟨_, _, hstore k b rfl fun f _ => SamePage.refl _ _,
    hstore k' b' h.agree.cr3 (h.agree_tables hU), h.tableFrames_write hcov (hne _ _),
    h.write hcov (fun i hi hmem => hb (hat i hi ▸ hmem)) (hself _ _) (hne _ _) (hself _ _)
      (hne _ _)⟩

/-- A byte is copied on both machines. It is the same byte if it is read from a frame in `U`, and
the byte of before if it has been left there. -/
theorem Loading.copyByte (h : Loading root U fl₀ w₀ m₀ k k' s c) (hU : tableFrames k root ⊆ U)
    {dest src : UInt64} {i : Nat} (hcov : s.Covers (dest.toNat + i) 1)
    (hread : (∀ g ∈ s.frames, g ∉ U) ∨ ReadsIn U w₀ s (src + UInt64.ofNat i))
    (hrun : copyByte dest src k i = some k₁) :
    ∃ k₁' b, copyByte dest src k' i = some k₁' ∧ tableFrames k₁ root = tableFrames k root ∧
      Loading root U fl₀ w₀ m₀ k₁ k₁' s (c.write (dest.toNat + i) 1 fun _ => b) ∧
      ∀ p, Untouched (tableFrames k root) fl₀ w₀ s (src + UInt64.ofNat i) p → b = m₀ p := by
  obtain ⟨b, hload, hstore⟩ := Option.bind_eq_some_iff.1 hrun
  obtain ⟨p, hp, rfl⟩ := Option.map_eq_some_iff.1 hload
  obtain ⟨e, he, rfl⟩ := Option.map_eq_some_iff.1 hp
  rw [h.root_eq rfl] at he
  have hbound := hcov.1
  have hv : (dest + UInt64.ofNat i).toNat = dest.toNat + i := toNat_add_ofNat (by omega)
  set x := 4096 * pte.target e + (src + UInt64.ofNat i).toNat % 4096
  have hx : x / 4096 = pte.target e := by omega
  have he' : Sbunix.walk k'.mem k'.root (src + UInt64.ofNat i) = some e := by
    rw [h.root_eq h.agree.cr3, walk_of_tables (h.agree_tables hU)]
    exact he
  have hload' : Sbunix.loadByte (src + UInt64.ofNat i) k' = some (k'.mem x) := by
    rw [Sbunix.loadByte, translate_of_walk he', Option.map_some]
  have hsame : s.place (dest.toNat + i) / 4096 ∈ U → k'.mem x = k.mem x := by
    intro hmem
    rcases hread with hout | hread
    · exact absurd hmem (hout _ (hcov.place_mem (i := 0) (by omega)))
    · exact h.agree.mem _ (hread e (h.walk _ ▸ he)) x hx
  obtain ⟨k₂, k₂', hrun₂, hrun₂', hframes, h₂⟩ := h.storeByte hU hv hcov hsame
  obtain rfl := Option.some.inj (hrun₂.symm.trans hstore)
  refine ⟨k₂', k'.mem x, ?_, hframes, h₂, ?_⟩
  · rw [Sbunix.copyByte, hload']
    exact hrun₂'
  · rintro p ⟨hframe, ⟨e₀, he₀, rfl⟩, hused, hdata⟩
    rw [h.walk, hframe, Option.map_none, Option.none_or, he₀] at he
    obtain rfl := Option.some.inj he
    exact h.prior hdata (fun hmem => absurd hmem hused) x rfl

/-- Bytes are copied on both machines. -/
theorem Loading.copyBytes {dest src : UInt64} {n : Nat} {is : List Nat}
    (h : Loading root U fl₀ w₀ m₀ k k' s c) (hU : tableFrames k root ⊆ U)
    (hcov : s.Covers dest.toNat n) (his : ∀ i ∈ is, i < n)
    (hread : (∀ g ∈ s.frames, g ∉ U) ∨ ∀ i < n, ReadsIn U w₀ s (src + UInt64.ofNat i))
    (hrun : is.foldlM (Sbunix.copyByte dest src) k = some k₁) :
    ∃ k₁' c', is.foldlM (Sbunix.copyByte dest src) k' = some k₁' ∧
      tableFrames k₁ root = tableFrames k root ∧ Loading root U fl₀ w₀ m₀ k₁ k₁' s c' ∧
      (∀ a, (∀ i ∈ is, a ≠ dest.toNat + i) → c' a = c a) ∧
      ∀ i ∈ is, ∀ p, Untouched (tableFrames k root) fl₀ w₀ s (src + UInt64.ofNat i) p →
        c' (dest.toNat + i) = some (m₀ p) := by
  induction is generalizing k k' c with
  | nil =>
    obtain rfl := Option.some.inj hrun
    exact ⟨k', c, rfl, rfl, h, fun _ _ => rfl, nofun⟩
  | cons i is ih =>
    rw [List.foldlM_cons] at hrun
    obtain ⟨k₂, hrun₂, hrun⟩ := Option.bind_eq_some_iff.1 hrun
    have hi := his i List.mem_cons_self
    obtain ⟨k₂', b, hrun₂', hframes₂, h₂, hb⟩ := h.copyByte hU (hcov.mono (by omega) (by omega))
      (hread.imp_right fun hr => hr i hi) hrun₂
    obtain ⟨k₁', c', hrun', hframes, h₁, hc, hbytes⟩ := ih h₂ (hframes₂.subset.trans hU)
      (fun j hj => his j (List.mem_cons_of_mem _ hj)) hrun
    refine ⟨k₁', c', ?_, hframes.trans hframes₂, h₁, ?_, ?_⟩
    · rw [List.foldlM_cons, hrun₂']
      exact hrun'
    · intro a ha
      rw [hc a fun j hj => ha j (List.mem_cons_of_mem _ hj)]
      have hne := ha i List.mem_cons_self
      exact Contents.write_of_not_mem (by omega)
    · intro j hj p hp
      by_cases hmem : j ∈ is
      · rw [hframes₂] at hbytes
        exact hbytes j hmem p hp
      · obtain rfl : j = i := (List.mem_cons.1 hj).resolve_right hmem
        rw [hc, ← hb p hp]
        · exact Contents.write_of_mem (i := 0) (by omega)
        · intro l hl hjl
          obtain rfl := Nat.add_left_cancel hjl
          exact hmem hl

/-- Bytes of mapped pages can be copied. -/
theorem Loading.copyBytes_isSome {dest src : UInt64} {n : Nat} {is : List Nat}
    (h : Loading root Set.univ fl₀ w₀ m₀ k k s c) (hcov : s.Covers dest.toNat n)
    (his : ∀ i ∈ is, i < n)
    (hsrc : ∀ i < n, ((s.frame (vpage (src + UInt64.ofNat i))).map pageEntry).or
      (w₀ (src + UInt64.ofNat i)) ≠ none) :
    ∃ k₁, is.foldlM (Sbunix.copyByte dest src) k = some k₁ := by
  induction is generalizing k c with
  | nil => exact ⟨k, rfl⟩
  | cons i is ih =>
    have hi := his i List.mem_cons_self
    obtain ⟨e, he⟩ := Option.ne_none_iff_exists'.1 (hsrc i hi)
    have hwalk : Sbunix.walk k.mem k.root (src + UInt64.ofNat i) = some e := by
      rw [h.root_eq rfl, h.walk, he]
    have hload := congrArg (Option.map k.mem) (translate_of_walk hwalk)
    have hcov₁ : s.Covers (dest.toNat + i) 1 := hcov.mono (by omega) (by omega)
    have hbound := hcov₁.1
    have hv : (dest + UInt64.ofNat i).toNat = dest.toNat + i := toNat_add_ofNat (by omega)
    obtain ⟨k₂, k₂', hstore, -, -, -⟩ := h.storeByte (Set.subset_univ _) hv hcov₁ fun _ => rfl
    have hcopy : Sbunix.copyByte dest src k i = some k₂ :=
      (congrArg (Option.bind · fun b => Sbunix.storeByte (dest + UInt64.ofNat i) b k) hload).trans
        hstore
    obtain ⟨k₃, b, hcopy', -, h₂, -⟩ := h.copyByte (Set.subset_univ _) hcov₁
      (.inr fun _ _ => Set.mem_univ _) hcopy
    obtain rfl := Option.some.inj (hcopy.symm.trans hcopy')
    obtain ⟨k₁, hrun⟩ := ih h₂ fun j hj => his j (List.mem_cons_of_mem _ hj)
    refine ⟨k₁, ?_⟩
    rw [List.foldlM_cons, hcopy]
    exact hrun

/-- A word is stored on both machines. -/
theorem Loading.storeWord {w : UInt64} (h : Loading root U fl₀ w₀ m₀ k k' s c)
    (hU : tableFrames k root ⊆ U) (hcov : s.Covers v.toNat 8) :
    ∃ k₁ k₁', storeWord v w k = some k₁ ∧ storeWord v w k' = some k₁' ∧
      tableFrames k₁ root = tableFrames k root ∧ Loading root U fl₀ w₀ m₀ k₁ k₁' s
        (c.write v.toNat 8 fun i => UInt8.ofNat (w.toNat / 256 ^ i)) := by
  have hstore : ∀ l : Kernel, l.cr3 = k.cr3 → (∀ f ∈ tableFrames k root, SamePage k.mem l.mem f) →
      ∃ m, Sbunix.storeWord v w l = some { l with mem := m } ∧
        (∀ i < 8, m (s.place (v.toNat + i)) = UInt8.ofNat (w.toNat / 256 ^ i)) ∧
        ∀ x, (∀ i < 8, x ≠ s.place (v.toNat + i)) → m x = l.mem x := fun l hcr3 htab =>
    h.storeBytes hcr3 htab hcov (fun i _ m _ => rfl) (mem_range_or_reverse (.inl rfl))
  obtain ⟨m, hrun, hm, hkeep⟩ := hstore k rfl fun f _ => SamePage.refl _ _
  obtain ⟨m', hrun', hm', hkeep'⟩ := hstore k' h.agree.cr3 (h.agree_tables hU)
  exact ⟨_, _, hrun, hrun', h.tableFrames_write hcov hkeep,
    h.write hcov (fun _ _ _ => rfl) hm hkeep hm' hkeep'⟩

theorem toNat_ofInt {m : Nat} (hm : m < 2 ^ 64) : (UInt64.ofInt (m : Int)).toNat = m := by
  rw [UInt64.ofInt, UInt64.toNat_ofNat']
  omega

theorem toNat_ofInt_rows {n : Nat} (hn : n ≤ 63) :
    (UInt64.ofInt ((n : Int) * 64)).toNat = 64 * n := by
  have hcast : (n : Int) * 64 = ((64 * n : Nat) : Int) := by
    push_cast
    ring
  rw [hcast, toNat_ofInt (by omega)]

theorem argsPtr_toNat {n : Nat} (hn : n ≤ 63) : (argsPtr n).toNat = 0xEFFFFFF0 - 64 * n := by
  have htop : (userStackTop - 0x1000 + 0x1000 - 16).toNat = 0xEFFFFFF0 := rfl
  have hrows := toNat_ofInt_rows hn
  rw [argsPtr, mul_comm, UInt64.toNat_sub, htop, hrows]
  omega

/-- The contents after `*ptr = argc`. -/
def Contents.withArgc (c : Contents) (ptr n : Nat) : Contents :=
  if 0 < n then c.write ptr 8 fun i => UInt8.ofNat ((UInt64.ofInt (n : Int)).toNat / 256 ^ i) else c

/-- The `memcpy` of the rows, in its direction. -/
theorem memcpy_rows (dest src : UInt64) {n : Nat} (hn : n ≤ 63) :
    ∃ is : List Nat, (∀ i, i ∈ is ↔ i < 64 * n) ∧
      ∀ l, memcpy dest src (UInt64.ofInt ((n : Int) * 64)) l =
        is.foldlM (Sbunix.copyByte dest src) l := by
  unfold memcpy
  rw [toNat_ofInt_rows hn]
  by_cases hdir : src < dest
  · exact ⟨_, mem_range_or_reverse (.inr rfl), fun l => if_pos hdir⟩
  · exact ⟨_, mem_range_or_reverse (.inl rfl), fun l => if_neg hdir⟩

/-- The contents after the arguments were stored: `*ptr`, and the rows that the load has left where
they were. -/
structure ArgsStored (T : Set Nat) (fl₀ : List Nat) (w₀ : UInt64 → Option UInt64) (m₀ : Mem)
    (s : Layout) (ptr : Nat) (args : UInt64) (n : Nat) (c c' : Contents) : Prop where
  outside : ∀ {a}, ¬ (ptr + 8 ≤ a ∧ a < ptr + 8 + 64 * n) → c' a = c.withArgc ptr n a
  rows : ∀ {i p}, i < 64 * n → Untouched T fl₀ w₀ s (args + UInt64.ofNat i) p →
    c' (ptr + 8 + i) = some (m₀ p)

theorem toNat_add_eight {p : UInt64} (h : p.toNat + 8 < 2 ^ 64) : (p + 8).toNat = p.toNat + 8 := by
  have h8 : (8 : UInt64).toNat = 8 := rfl
  rw [UInt64.toNat_add, h8]
  omega

/-- The arguments are stored on both machines. -/
theorem Loading.storeArgs {ptr args : UInt64} {n : Nat} (h : Loading root U fl₀ w₀ m₀ k k' s c)
    (hU : tableFrames k root ⊆ U) (hn : n ≤ 63) (hcov : s.Covers ptr.toNat (8 + 64 * n))
    (hread : (∀ g ∈ s.frames, g ∉ U) ∨ ∀ i < 64 * n, ReadsIn U w₀ s (args + UInt64.ofNat i))
    (hrun : storeArgs ptr n args k = some k₁) :
    ∃ k₁' c', storeArgs ptr n args k' = some k₁' ∧ tableFrames k₁ root = tableFrames k root ∧
      Loading root U fl₀ w₀ m₀ k₁ k₁' s c' ∧
      ArgsStored (tableFrames k root) fl₀ w₀ m₀ s ptr.toNat args n c c' := by
  unfold Sbunix.storeArgs at *
  by_cases hpos : 0 < n
  · rw [if_pos (by omega)] at hrun ⊢
    obtain ⟨k₂, hword, hrun⟩ := Option.bind_eq_some_iff.1 hrun
    obtain ⟨k₃, k₂', hword₃, hword', hframes₂, h₂⟩ :=
      h.storeWord (w := UInt64.ofInt n) hU (hcov.mono (Nat.le_refl _) (by omega))
    obtain rfl := Option.some.inj (hword.symm.trans hword₃)
    have hbound := hcov.1
    have hbehind : (ptr + 8).toNat = ptr.toNat + 8 := toNat_add_eight (by omega)
    obtain ⟨is, his, hcopy⟩ := memcpy_rows (ptr + 8) args hn
    rw [hcopy] at hrun
    obtain ⟨k₁', c', hrun', hframes, h₁, hc, hrows⟩ := h₂.copyBytes (hframes₂.subset.trans hU)
      (hcov.mono (by omega) (by omega)) (fun i hi => (his i).1 hi) hread hrun
    rw [hbehind, hframes₂] at hrows
    refine ⟨k₁', c', ?_, hframes.trans hframes₂, h₁, ?_, ?_⟩
    · rw [hword', Option.bind_eq_bind, Option.bind_some, hcopy]
      exact hrun'
    · intro a ha
      rw [hc a, Contents.withArgc, if_pos hpos]
      rintro i hi rfl
      have hlt := (his i).1 hi
      omega
    · exact fun hi hp => hrows _ ((his _).2 hi) _ hp
  · rw [if_neg (by omega)] at hrun ⊢
    obtain rfl := Option.some.inj hrun
    refine ⟨k', c, rfl, rfl, h, ?_, ?_⟩
    · intro a _
      rw [Contents.withArgc, if_neg hpos]
    · intro i p hi
      omega

/-- Arguments in mapped pages can be stored. -/
theorem Loading.storeArgs_isSome {ptr args : UInt64} {n : Nat}
    (h : Loading root Set.univ fl₀ w₀ m₀ k k s c) (hn : n ≤ 63)
    (hcov : s.Covers ptr.toNat (8 + 64 * n))
    (hsrc : ∀ i < 64 * n, ((s.frame (vpage (args + UInt64.ofNat i))).map pageEntry).or
      (w₀ (args + UInt64.ofNat i)) ≠ none) :
    ∃ k₁, Sbunix.storeArgs ptr n args k = some k₁ := by
  unfold Sbunix.storeArgs
  by_cases hpos : 0 < n
  · rw [if_pos (by omega)]
    obtain ⟨k₂, k₂', hword, hword', -, h₂⟩ :=
      h.storeWord (w := UInt64.ofInt n) (Set.subset_univ _) (hcov.mono (Nat.le_refl _) (by omega))
    obtain rfl := Option.some.inj (hword.symm.trans hword')
    have hbound := hcov.1
    have hbehind : (ptr + 8).toNat = ptr.toNat + 8 := toNat_add_eight (by omega)
    obtain ⟨is, his, hcopy⟩ := memcpy_rows (ptr + 8) args hn
    obtain ⟨k₁, hrun⟩ := @Loading.copyBytes_isSome _ _ _ _ _ _ _ (ptr + 8) args _ is h₂
      (hcov.mono (by omega) (by omega)) (fun i hi => (his i).1 hi) hsrc
    refine ⟨k₁, ?_⟩
    rw [hword, Option.bind_eq_bind, Option.bind_some, hcopy]
    exact hrun
  · rw [if_neg (by omega)]
    exact ⟨k, rfl⟩

end

end Sbunix
