import Sbunix.VirtualLoad

/-!
# The pages of a segment

The loop of `elf_load` counts the pages of a segment from its two ends, each rounded down by itself,
and moves a cursor from the first one on. `tracedBlocks` is the loop with the list of its calls of
`map_process`, at physical addresses and, in `Virtual`, behind the mappings. The pages are those of
the segment, one call for each (`pages_eq`), and the frames are different ones of the free list, as
long as it has one for every page and every missing table.

No frame is cleared. A new PT keeps the present entries that its frame holds, and a turn of the loop
over the program headers leaves the other pages exactly if there are none for them
(`segment_coverage_iff`).
-/

namespace Sbunix

open Lib Lib.Radix

/-- `mapBlocks`, with the addresses and pages that `map_process` is called for. -/
def tracedBlocks : Nat → UInt64 → Kernel → Option (List (UInt64 × UInt64) × Kernel)
  | 0, _, k => some ([], k)
  | itr + 1, start, k => do
    let (page, k) ← k.pageAllocAddr
    let k ← mapProcess start page k
    let (calls, k) ← tracedBlocks itr (start + 0x1000) k
    some ((start, page) :: calls, k)

def Virtual.tracedBlocks : Nat → UInt64 → Kernel → Option (List (UInt64 × UInt64) × Kernel)
  | 0, _, k => some ([], k)
  | itr + 1, start, k => do
    let (page, k) ← k.pageAllocAddr
    let k ← Virtual.mapProcess start page k
    let (calls, k) ← Virtual.tracedBlocks itr (start + 0x1000) k
    some ((start, page) :: calls, k)

/-- The values of the cursor. -/
def starts : Nat → UInt64 → List UInt64
  | 0, _ => []
  | itr + 1, start => start :: starts itr (start + 0x1000)

/-- The numbers of the pages of a segment, from the one of its beginning to the one of its end. -/
def Phdr.pages (ph : Phdr) : List Nat :=
  List.range' (ph.pVaddr.toNat / 4096)
    ((ph.pVaddr.toNat + ph.pMemsz.toNat) / 4096 - ph.pVaddr.toNat / 4096 + 1)

/-- The cursor of the loop at its first turn. -/
def Phdr.start (ph : Phdr) : UInt64 := ph.pVaddr / 0x1000 * 0x1000

/-- One call for each page, with different frames that were free. A byte of the segment is in one of
these frames. -/
structure BacksSegment (root : Nat) (ph : Phdr) (fl : List Nat) (calls : List (UInt64 × UInt64))
    (k' : Kernel) : Prop where
  pages : calls.map (fun c => c.1.toNat) = ph.pages.map (4096 * ·)
  frames : ∃ frames free : List Nat, calls.map (fun c => c.2.toNat) = frames.map (4096 * ·) ∧
    frames.Nodup ∧ (∀ f ∈ frames, f ∈ fl ∧ f ∉ free) ∧ FreeFrames k'.frames free
  backed : ∀ a : UInt64, ph.pVaddr.toNat ≤ a.toNat →
    a.toNat < ph.pVaddr.toNat + ph.pMemsz.toNat →
      ∃ c ∈ calls, vpage c.1 = vpage a ∧ walk k'.mem root a = some (c.2 ||| pteFlags)

/-- No other translation has changed. Page numbers of translations have 36 bits. -/
structure CoversSegment (root : Nat) (ph : Phdr) (fl : List Nat) (k : Kernel)
    (calls : List (UInt64 × UInt64)) (k' : Kernel) : Prop
    extends BacksSegment root ph fl calls k' where
  others : ∀ a : UInt64, (∀ x ∈ ph.pages, x % 2 ^ 36 ≠ vpage a) →
    walk k'.mem root a = walk k.mem root a

section

variable {root : Nat} {D : Finset (List (Fin 512))} {k k' : Kernel} {fl : List Nat}
  {itr : Nat} {start v p : UInt64} {ph : Phdr}

theorem Virtual.tracedBlocks_map (itr : Nat) (start : UInt64) (k : Kernel) :
    (Virtual.tracedBlocks itr start k).map Prod.snd = Virtual.mapBlocks itr start k := by
  induction itr generalizing start k with
  | zero => rfl
  | succ itr ih =>
    rw [Virtual.tracedBlocks, Virtual.mapBlocks]
    simp only [← ih, Option.bind_eq_bind, Option.map_eq_bind, Option.bind_assoc, Option.bind_some,
      Function.comp_apply]

/-! ## Frames -/

/-- The loop makes a call for each value of the cursor, with frames from the free list in turn. -/
theorem tracedBlocks_spec (h : Space root D k fl)
    (hlen : itr + (withPaths (starts itr start) D).card ≤ fl.length + D.card) :
    ∃ calls k' frames free, tracedBlocks itr start k = some (calls, k') ∧
      calls.map Prod.fst = starts itr start ∧
      calls.map (fun c => c.2.toNat) = frames.map (4096 * ·) ∧ (frames ++ free).Sublist fl ∧
      Space root (withPaths (starts itr start) D) k' free ∧
      ∀ w, walk k'.mem root w =
        ((lastFor w calls).map (· ||| pteFlags)).or (walk k.mem root w) := by
  induction itr generalizing start D k fl with
  | zero => exact ⟨[], k, [], fl, rfl, rfl, rfl, List.Sublist.refl fl, h, fun w => rfl⟩
  | succ itr ih =>
    have hcard₁ : D.card ≤ (withPath start D).card := Finset.card_le_card (subset_withPath start D)
    have hcard₂ : (withPath start D).card ≤
        (withPaths (starts itr (start + 0x1000)) (withPath start D)).card :=
      Finset.card_le_card (subset_withPaths _ _)
    have hall : withPaths (starts (itr + 1) start) D =
        withPaths (starts itr (start + 0x1000)) (withPath start D) := rfl
    rw [hall] at hlen
    cases fl with
    | nil =>
      rw [List.length_nil] at hlen
      omega
    | cons f fl =>
      rw [List.length_cons] at hlen
      obtain ⟨page, hpop, hpage, -⟩ := h.paging.free.pageAllocAddr_cons
      obtain ⟨f', fl', heq, -, hspace⟩ := h.pop hpop
      obtain ⟨rfl, rfl⟩ := List.cons.inj heq
      obtain ⟨k₁, hk₁⟩ := mapProcess_isSome hspace start page (by omega)
      have hmapped := mapProcess_space hspace hk₁
      obtain ⟨calls, k', frames, free, hrun, hfst, hsnd, hsub, hspace', hwalk⟩ :=
        @ih (withPath start D) k₁ _ (start + 0x1000) hmapped.space (by rw [List.length_drop]; omega)
      refine ⟨(start, page) :: calls, k', f :: frames, free, ?_, ?_, ?_, ?_, hspace', ?_⟩
      · rw [tracedBlocks, hpop]
        simp only [Option.bind_eq_bind, Option.bind_some, hk₁, hrun]
      · rw [List.map_cons, hfst]
        rfl
      · rw [List.map_cons, List.map_cons, hsnd, hpage]
      · rw [List.cons_append]
        exact (hsub.trans (List.drop_sublist _ _)).cons_cons f
      · intro w
        rw [hwalk w, lastFor, hmapped.walk w]
        cases lastFor w calls with
        | some p => rfl
        | none =>
          by_cases hw : vpage w = vpage start
          · rw [if_pos hw, if_pos hw.symm]
            rfl
          · rw [if_neg hw, if_neg (Ne.symm hw)]
            rfl

/-! ## Pages -/

theorem starts_toNat (hbound : start.toNat + 4096 * itr ≤ 2 ^ 64) :
    (starts itr start).map UInt64.toNat =
      (List.range itr).map fun i => start.toNat + 4096 * i := by
  induction itr generalizing start with
  | zero => rfl
  | succ itr ih =>
    rw [starts, List.map_cons, List.range_succ_eq_map, List.map_cons, List.map_map]
    cases itr with
    | zero => rfl
    | succ itr =>
      have hnext : (start + 0x1000).toNat = start.toNat + 4096 := by
        rw [UInt64.toNat_add]
        have : (0x1000 : UInt64).toNat = 4096 := rfl
        omega
      have hsame : (start + 0x1000).toNat + 4096 * (itr + 1) =
          start.toNat + 4096 * (itr + 1 + 1) := by
        rw [hnext]
        ring
      rw [ih (hsame.trans_le hbound), hnext, Nat.mul_zero, Nat.add_zero]
      apply congrArg (List.cons start.toNat)
      apply List.map_congr_left
      intro i _
      rw [Function.comp_apply]
      omega

/-- The cursor is at each page of the segment once. -/
theorem pages_eq (hend : ph.pVaddr.toNat + ph.pMemsz.toNat < 2 ^ 64 - 0x1000) :
    (starts ph.blocks ph.start).map UInt64.toNat = ph.pages.map (4096 * ·) := by
  have hstart : ph.start.toNat = ph.pVaddr.toNat / 4096 * 4096 := toNat_pageBase ph.pVaddr
  have hcount := blocks_eq hend
  rw [starts_toNat (by omega), Phdr.pages, List.range'_eq_map_range, List.map_map, hcount, hstart]
  apply List.map_congr_left
  intro i _
  rw [Function.comp_apply]
  omega

theorem mem_pages {x : Nat} : x ∈ ph.pages ↔ ph.pVaddr.toNat / 4096 ≤ x ∧
    x ≤ (ph.pVaddr.toNat + ph.pMemsz.toNat) / 4096 := by
  rw [Phdr.pages, List.mem_range'_1]
  omega

theorem vpage_eq (v : UInt64) : vpage v = v.toNat / 4096 % 2 ^ 36 := by
  unfold vpage
  omega

theorem tracedBlocks_covers (h : Space root D k fl)
    (hend : ph.pVaddr.toNat + ph.pMemsz.toNat < 2 ^ 64 - 0x1000)
    (hlen : ph.blocks + (withPaths (starts ph.blocks ph.start) D).card ≤ fl.length + D.card) :
    ∃ calls k', tracedBlocks ph.blocks ph.start k = some (calls, k') ∧
      CoversSegment root ph fl k calls k' ∧ k'.cr3.toNat = 4096 * root := by
  obtain ⟨calls, k', frames, free, hrun, hfst, hsnd, hsub, hspace, hwalk⟩ :=
    tracedBlocks_spec h hlen
  have hpages : calls.map (fun c => c.1.toNat) = ph.pages.map (4096 * ·) := by
    rw [← pages_eq hend, ← hfst, List.map_map]
    rfl
  have hcall : ∀ x, x ∈ ph.pages ↔ ∃ c ∈ calls, c.1.toNat = 4096 * x := by
    intro x
    have hmem : 4096 * x ∈ calls.map (fun c => c.1.toNat) ↔ 4096 * x ∈ ph.pages.map (4096 * ·) := by
      rw [hpages]
    rw [List.mem_map, List.mem_map_of_injective (mul_right_injective₀ (by decide))] at hmem
    exact hmem.symm
  obtain ⟨hframes, -, hdisjoint⟩ := List.nodup_append.1 (h.paging.free.nodup.sublist hsub)
  refine ⟨calls, k', hrun,
    ⟨⟨hpages, ⟨frames, free, hsnd, hframes, ?_, hspace.paging.free⟩, ?_⟩, ?_⟩, hspace.cr3⟩
  · intro f hf
    refine ⟨hsub.subset (List.mem_append_left _ hf), fun hfree => hdisjoint f hf f hfree rfl⟩
  · intro a hlow hhigh
    obtain ⟨c, hc, haddr⟩ := (hcall (a.toNat / 4096)).1 (mem_pages.2 (by omega))
    have hpage : vpage c.1 = vpage a := by
      rw [vpage_eq, vpage_eq, haddr]
      omega
    obtain ⟨p, hlast⟩ := lastFor_isSome hc hpage
    obtain ⟨d, hd, hdpage, rfl⟩ := lastFor_mem hlast
    exact ⟨d, hd, hdpage, by rw [hwalk, hlast]; rfl⟩
  · intro a hother
    rw [hwalk]
    cases hlast : lastFor a calls with
    | none => rfl
    | some p =>
      obtain ⟨c, hc, hpage, -⟩ := lastFor_mem hlast
      have hmem : c.1.toNat ∈ ph.pages.map (4096 * ·) := hpages ▸ List.mem_map.2 ⟨c, hc, rfl⟩
      obtain ⟨x, hx, haddr⟩ := List.mem_map.1 hmem
      apply absurd _ (hother x hx)
      rw [← hpage, vpage_eq, ← haddr]
      congr 1
      omega

/-! ## Tables that are not cleared -/

/-- The first turn of the loop. -/
theorem tracedBlocks_cons {calls : List (UInt64 × UInt64)} (h : Space root D k fl)
    (hrun : tracedBlocks (itr + 1) start k = some (calls, k')) :
    ∃ f fl' page k₁ calls', fl = f :: fl' ∧ k.pageAllocAddr = some (page, k.pop) ∧
      Space root D k.pop fl' ∧ mapProcess start page k.pop = some k₁ ∧
      tracedBlocks itr (start + 0x1000) k₁ = some (calls', k') ∧
      calls = (start, page) :: calls' := by
  obtain ⟨⟨page, k₀⟩, hpop, hrun⟩ := Option.bind_eq_some_iff.1 hrun
  obtain ⟨k₁, hmap, hrun⟩ := Option.bind_eq_some_iff.1 hrun
  obtain ⟨⟨calls', k₂⟩, hrest, hrun⟩ := Option.bind_eq_some_iff.1 hrun
  obtain ⟨rfl, rfl⟩ := Prod.mk.inj (Option.some.inj hrun)
  obtain ⟨rfl, -, -⟩ := (Agree.refl Set.univ k).pageAllocAddr hpop
  obtain ⟨f, fl', hfl, -, hspace⟩ := h.pop hpop
  exact ⟨f, fl', page, k₁, calls', hfl, hpop, hspace, hmap, hrest, rfl⟩

/-- The tables of before stay. -/
theorem tracedBlocks_keeps {calls : List (UInt64 × UInt64)} (h : Space root D k fl)
    (hrun : tracedBlocks itr start k = some (calls, k')) {q : List (Fin 512)} {f : Nat}
    (hq : q ∈ allPaths) (hf : k.table root q = some f) : k'.table root q = some f := by
  induction itr generalizing start D k fl calls with
  | zero =>
    obtain ⟨rfl, rfl⟩ := Prod.mk.inj (Option.some.inj hrun)
    exact hf
  | succ itr ih =>
    obtain ⟨g, fl', page, k₁, calls', -, -, hspace, hmap, hrest, -⟩ := tracedBlocks_cons h hrun
    have hmapped := mapProcess_space hspace hmap
    exact ih hmapped.space hrest (hmapped.ext.tables rfl hq hf)

/-- The new tables are the frames that the layout names. -/
theorem tracedBlocks_tables {calls : List (UInt64 × UInt64)} (frame : Nat → Option Nat)
    (h : Space root D k fl) (hrun : tracedBlocks itr start k = some (calls, k')) {f : Nat}
    (hf : f ∈ tableFrames k' root) : f ∈ tableFrames k root ∨
      f ∈ (Layout.mk D fl frame).newTables (blockOps itr start) := by
  induction itr generalizing start D k fl frame calls with
  | zero =>
    obtain ⟨rfl, rfl⟩ := Prod.mk.inj (Option.some.inj hrun)
    exact Or.inl hf
  | succ itr ih =>
    obtain ⟨g, fl', page, k₁, calls', rfl, -, hspace, hmap, hrest, -⟩ := tracedBlocks_cons h hrun
    have hmapped := mapProcess_space hspace hmap
    rw [blockOps, Layout.newTables, Layout.collect, List.mem_append]
    rcases ih _ hmapped.space hrest with hold | hlater
    · exact (hmapped.tables hold).imp_right Or.inl
    · exact Or.inr (Or.inr hlater)

/-- So are the upper ones among them. -/
theorem tracedBlocks_uppers {calls : List (UInt64 × UInt64)} (frame : Nat → Option Nat)
    (h : Space root D k fl) (hrun : tracedBlocks itr start k = some (calls, k')) {f : Nat}
    (hf : f ∈ upperFrames k' root) : f ∈ upperFrames k root ∨
      f ∈ (Layout.mk D fl frame).newUppers (blockOps itr start) := by
  induction itr generalizing start D k fl frame calls with
  | zero =>
    obtain ⟨rfl, rfl⟩ := Prod.mk.inj (Option.some.inj hrun)
    exact Or.inl hf
  | succ itr ih =>
    obtain ⟨g, fl', page, k₁, calls', rfl, -, hspace, hmap, hrest, -⟩ := tracedBlocks_cons h hrun
    have hmapped := mapProcess_space hspace hmap
    rw [blockOps, Layout.newUppers, Layout.collect, List.mem_append]
    rcases ih _ hmapped.space hrest with hold | hlater
    · exact (hmapped.upperFrames hspace hold).imp_right Or.inl
    · exact Or.inr (Or.inr hlater)

/-- And the new PTs. -/
theorem tracedBlocks_pts {calls : List (UInt64 × UInt64)} (frame : Nat → Option Nat)
    (h : Space root D k fl) (hrun : tracedBlocks itr start k = some (calls, k')) {w : UInt64}
    {f : Nat} : (path w, f) ∈ (Layout.mk D fl frame).newPts (blockOps itr start) ↔
      path w ∉ D ∧ k'.table root (path w) = some f := by
  induction itr generalizing start D k fl frame calls with
  | zero =>
    obtain ⟨rfl, rfl⟩ := Prod.mk.inj (Option.some.inj hrun)
    refine iff_of_false List.not_mem_nil ?_
    rintro ⟨hD, hf⟩
    exact hD ((h.tables (path_mem_allPaths w)).1 (by rw [hf]; rfl))
  | succ itr ih =>
    obtain ⟨g, fl', page, k₁, calls', rfl, -, hspace, hmap, hrest, -⟩ := tracedBlocks_cons h hrun
    have hmapped := mapProcess_space hspace hmap
    have hwith : path w ∈ withPath start D ↔ path w = path start ∨ path w ∈ D := by
      simp [withPath, path]
    have hlater := ih (Function.update frame (vpage start) (some g)) hmapped.space hrest
    rw [blockOps, Layout.newPts, Layout.collect, List.mem_append]
    refine (or_congr_right hlater).trans ?_
    rw [hwith, not_or, Layout.ptFor, List.tail_cons]
    by_cases hD : path start ∈ D
    · rw [if_pos hD]
      simp only [List.not_mem_nil, false_or]
      refine and_congr_left fun _ => and_iff_right_of_imp ?_
      exact fun hw heq => hw (heq ▸ hD)
    · rw [if_neg hD, List.mem_singleton, Prod.mk.injEq]
      -- The PT stays at the end of its path.
      have hsome := (hmapped.space.tables (path_mem_allPaths start)).2 (Finset.mem_insert_self _ _)
      obtain ⟨t, ht⟩ := Option.isSome_iff_exists.1 hsome
      have hlast := tracedBlocks_keeps hmapped.space hrest (path_mem_allPaths start) ht
      have hframe := (hmapped.pt hD).trans ht
      rw [List.getD_eq_getElem?_getD, hframe, Option.getD_some]
      by_cases hw : path w = path start
      · rw [hw, hlast, Option.some_inj]
        simp [hD, eq_comm]
      · simp [hw]

/-- A machine with the same upper tables runs the same loop, also behind its mappings when the
tables are mapped at their own addresses and the cursor comes to none of them. -/
theorem tracedBlocks_agree {U : Set Nat} {l : Kernel} {m : Mem} {calls : List (UInt64 × UInt64)}
    (h : Space root D k fl) (hrun : tracedBlocks itr start k = some (calls, k'))
    (ha : Agree U k l) (hover : Overlay m k l) (hU : upperFrames k' root ⊆ U)
    (hself : Virtual.SelfMapped k.mem root (tableFrames k' root))
    (hclear : ∀ f ∈ tableFrames k' root, ∀ v ∈ starts itr start,
      vpage (identityAddr f) ≠ vpage v) :
    ∃ l', Virtual.tracedBlocks itr start l = some (calls, l') ∧ Agree U k' l' ∧ Overlay m k' l' ∧
      ∀ f ∉ tableFrames k' root, SamePage l.mem l'.mem f := by
  induction itr generalizing start D k fl l calls with
  | zero =>
    obtain ⟨rfl, rfl⟩ := Prod.mk.inj (Option.some.inj hrun)
    exact ⟨l, rfl, ha, hover, fun f _ => SamePage.refl _ _⟩
  | succ itr ih =>
    obtain ⟨g, fl', page, k₁, calls', -, hpop, hspace, hmap, hrest, rfl⟩ := tracedBlocks_cons h hrun
    have hmapped := mapProcess_space hspace hmap
    have htables : tableFrames k₁ root ⊆ tableFrames k' root := by
      rintro f ⟨q, hq, hf⟩
      exact ⟨q, hq, tracedBlocks_keeps hmapped.space hrest hq hf⟩
    have hupper : upperFrames k₁ root ⊆ U := by
      rintro f ⟨q, i, hq, hf⟩
      have hq' := prefixClosed_allPaths.left hq
      exact hU ⟨q, i, hq, tracedBlocks_keeps hmapped.space hrest hq' hf⟩
    obtain ⟨-, hpop', ha'⟩ := ha.pageAllocAddr hpop
    have hvirtual := Virtual.mapProcess_eq_overlay hspace ha' hover hmap hupper
      fun f hf => hself f (htables hf)
    obtain ⟨l₁, hmap', ha₁, hkeep₁, hover₁⟩ := mapProcess_agree hspace ha' hmap hupper
    have hself₁ : Virtual.SelfMapped k₁.mem root (tableFrames k' root) := by
      intro f hf
      obtain ⟨e, hwalk, htarget⟩ := hself f hf
      refine ⟨e, (hmapped.walk (identityAddr f)).trans ?_, htarget⟩
      rw [if_neg (hclear f hf start List.mem_cons_self)]
      exact hwalk
    obtain ⟨l', hrest', ha₂, hover₂, hkeep₂⟩ := ih hmapped.space hrest ha₁ (hover₁ m hover) hself₁
      fun f hf v hv => hclear f hf v (List.mem_cons_of_mem start hv)
    refine ⟨l', ?_, ha₂, hover₂, fun f hf => ?_⟩
    · rw [Virtual.tracedBlocks, hpop']
      simp only [Option.bind_eq_bind, Option.bind_some, hvirtual, hmap', hrest']
    · exact (hkeep₁ f fun hmem => hf (htables hmem)).trans (hkeep₂ f hf)

/-- The present entries that the new PTs of a segment hold already are at pages of the segment. -/
def StaleInside (ph : Phdr) (D : Finset (List (Fin 512))) (fl : List Nat) (m : Mem) : Prop :=
  ∀ (a : UInt64) (f : Nat),
    (path a, f) ∈ (Layout.mk D fl fun _ => none).newPts (blockOps ph.blocks ph.start) →
      pte.present (entry m f (ptSlot a)) = true → ∃ x ∈ ph.pages, x % 2 ^ 36 = vpage a

/-- The frames that become PDPTs and PDTs hold no present entry. -/
def UppersBlank (ph : Phdr) (D : Finset (List (Fin 512))) (fl : List Nat) (m : Mem) : Prop :=
  ∀ f ∈ (Layout.mk D fl fun _ => none).newUppers (blockOps ph.blocks ph.start), Blank m f

/-- The frame is mapped at its own address, where the segment has no page. -/
structure Phdr.Spares (ph : Phdr) (m : Mem) (root f : Nat) : Prop where
  mapped : ∃ e, walk m root (identityAddr f) = some e ∧ pte.target e = f
  clear : ∀ x ∈ ph.pages, x % 2 ^ 36 ≠ vpage (identityAddr f)

theorem newUppers_subset (s : Layout) (ops : List LoadOp) : s.newUppers ops ⊆ s.newTables ops := by
  induction ops generalizing s with
  | nil => exact List.nil_subset _
  | cons op ops ih =>
    refine List.append_subset.2 ⟨List.subset_append_of_subset_left _ ?_,
      List.subset_append_of_subset_right _ (ih _)⟩
    cases op with
    | page v => exact List.take_subset_take_left _ (Nat.sub_le _ 1)
    | vma => exact List.nil_subset _
    | copy dest src n => exact List.nil_subset _

/-- The loop beside the one on a machine with cleared frames, which comes to `K'`. The page tables
have their entries over those that their frames hold already. -/
theorem tracedBlocks_cleared (h : RawSpace root D k fl)
    (hend : ph.pVaddr.toNat + ph.pMemsz.toNat < 2 ^ 64 - 0x1000)
    (hlen : ph.blocks + (withPaths (starts ph.blocks ph.start) D).card ≤ fl.length + D.card)
    (hblank : UppersBlank ph D fl k.mem)
    (hself : ∀ f, f ∈ tableFrames k root ∨
      f ∈ (Layout.mk D fl fun _ => none).newTables (blockOps ph.blocks ph.start) →
        ph.Spares k.mem root f) :
    ∃ calls K' k', Virtual.tracedBlocks ph.blocks ph.start k = some (calls, k') ∧
      CoversSegment root ph fl k calls K' ∧ k'.frames = K'.frames ∧ k'.cr3.toNat = 4096 * root ∧
      (∀ w, walk k'.mem root w = (walk K'.mem root w).or ((K'.table root (path w)).bind fun t =>
        if pte.present (entry k.mem t (ptSlot w)) then some (entry k.mem t (ptSlot w)) else none)) ∧
      (∀ w f, (path w, f) ∈ (Layout.mk D fl fun _ => none).newPts (blockOps ph.blocks ph.start) ↔
        path w ∉ D ∧ K'.table root (path w) = some f) ∧
      (∀ q ∈ allPaths, ∀ f, k.table root q = some f → K'.table root q = some f) ∧
      (∀ f ∈ tableFrames K' root, f ∈ tableFrames k root ∨
        f ∈ (Layout.mk D fl fun _ => none).newTables (blockOps ph.blocks ph.start)) ∧
      ∀ f ∉ tableFrames K' root, SamePage k.mem k'.mem f := by
  set T := (Layout.mk D fl fun _ => none).newUppers (blockOps ph.blocks ph.start)
  have hspace := h.cleared hblank
  have hwalk₀ := h.walk_cleared T
  have hagree := agree_cleared k (spare fl T)
  have hover : Overlay k.mem (k.cleared (spare fl T)) k := by
    intro f i
    split_ifs with hpres
    · refine (hagree.entry (fun hmem => ?_) i)
      rw [(blank_of_zeroPage (zeroPage_cleared k hmem)) i] at hpres
      nomatch hpres
    · rfl
  have hold : ∀ {q}, q ∈ allPaths → (k.cleared (spare fl T)).table root q = k.table root q :=
    fun hq => h.beside.table_cleared prefixClosed_allPaths (spare_subset fl T) rfl hq
  set K := k.cleared (spare fl T)
  obtain ⟨calls, K', hrun, hcovers, hcr3⟩ := tracedBlocks_covers hspace hend hlen
  have hupper : upperFrames K' root ⊆ {f | f ∉ spare fl T} := by
    intro f hf hmem
    rcases tracedBlocks_uppers (fun _ => none) hspace hrun hf with ⟨q, i, hq, htab⟩ | hnew
    · exact hspace.paging.fresh f (mem_spare.1 hmem).1 root rfl q
        (prefixClosed_allPaths.left hq) htab
    · exact (mem_spare.1 hmem).2 hnew
  have htables : ∀ f ∈ tableFrames K' root, f ∈ tableFrames k root ∨
      f ∈ (Layout.mk D fl fun _ => none).newTables (blockOps ph.blocks ph.start) := by
    intro f hf
    refine (tracedBlocks_tables (fun _ => none) hspace hrun hf).imp_left ?_
    rintro ⟨q, hq, htab⟩
    exact ⟨q, hq, (hold hq).symm.trans htab⟩
  have hself₀ : Virtual.SelfMapped K.mem root (tableFrames K' root) := by
    intro f hf
    obtain ⟨e, hwalk, htarget⟩ := (hself f (htables f hf)).mapped
    exact ⟨e, (hwalk₀ _).trans hwalk, htarget⟩
  have hclear : ∀ f ∈ tableFrames K' root, ∀ v ∈ starts ph.blocks ph.start,
      vpage (identityAddr f) ≠ vpage v := by
    intro f hf v hv hpage
    have hmem : v.toNat ∈ ph.pages.map (4096 * ·) := pages_eq hend ▸ List.mem_map.2 ⟨v, hv, rfl⟩
    obtain ⟨x, hx, haddr⟩ := List.mem_map.1 hmem
    refine (hself f (htables f hf)).clear x hx ?_
    rw [hpage, vpage_eq, ← haddr]
    congr 1
    omega
  obtain ⟨k', hrun', ha', hover', hkeep⟩ :=
    tracedBlocks_agree hspace hrun hagree hover hupper hself₀ hclear
  refine ⟨calls, K', k', hrun', ⟨hcovers.toBacksSegment, fun a hout => ?_⟩, ha'.frames,
    ha'.cr3 ▸ hcr3, hover'.walk ha' hupper, fun w f => tracedBlocks_pts (fun _ => none) hspace hrun,
    fun q hq f hf => tracedBlocks_keeps hspace hrun hq ((hold hq).trans hf), htables, hkeep⟩
  rw [hcovers.others a hout, hwalk₀]

/-- The loop backs the segment, and it leaves the other pages exactly if the new PTs do not map
them. The memory `m` is that of before the stores to objects, and words of these are read as they
were. -/
theorem tracedBlocks_others_iff {m : Mem} (h : RawSpace root D k fl)
    (hend : ph.pVaddr.toNat + ph.pMemsz.toNat < 2 ^ 64 - 0x1000)
    (hlen : ph.blocks + (withPaths (starts ph.blocks ph.start) D).card ≤ fl.length + D.card)
    (hm : ∀ f, f ∈ tableFrames k root ∨ f ∈ fl → SamePage m k.mem f)
    (hblank : UppersBlank ph D fl m)
    (hself : ∀ f, f ∈ tableFrames k root ∨
      f ∈ (Layout.mk D fl fun _ => none).newTables (blockOps ph.blocks ph.start) →
        ph.Spares k.mem root f) :
    ∃ calls k', Virtual.tracedBlocks ph.blocks ph.start k = some (calls, k') ∧
      BacksSegment root ph fl calls k' ∧
      ((∀ a, (∀ x ∈ ph.pages, x % 2 ^ 36 ≠ vpage a) → walk k'.mem root a = walk k.mem root a) ↔
        StaleInside ph D fl m) ∧
      ∀ f ∉ tableFrames k root, f ∉ fl → ph.Spares k.mem root f → ∀ (b : UInt64) (i : Fin 512),
        b.toNat = 4096 * f + 8 * i → Virtual.load64 b k' = some (entry k.mem f i) := by
  have hblank' : UppersBlank ph D fl k.mem := fun f hf =>
    (hblank f hf).congr (hm f (.inr (newTables_subset _ _ (newUppers_subset _ _ hf))))
  obtain ⟨calls, K', k', hrun, hcovers, hframes, hcr3, hwalk, hpts, hold, htables, hkeep⟩ :=
    tracedBlocks_cleared h hend hlen hblank' hself
  have hentry : ∀ {a : UInt64} {f : Nat}, K'.table root (path a) = some f →
      entry k.mem f (ptSlot a) = entry m f (ptSlot a) := by
    intro a f htab
    have hmem := htables f ⟨_, path_mem_allPaths a, htab⟩
    exact entry_congr (hm f (hmem.imp_right (newTables_subset _ _ ·))) (ptSlot a)
  obtain ⟨frames, free, hsnd, hnodup, hin, hfree⟩ := hcovers.frames
  refine ⟨calls, k', hrun,
    ⟨hcovers.pages, ⟨frames, free, hsnd, hnodup, hin, hframes ▸ hfree⟩, ?_⟩, ⟨?_, ?_⟩, ?_⟩
  · intro a hlow hhigh
    obtain ⟨c, hc, hpage, hsome⟩ := hcovers.backed a hlow hhigh
    exact ⟨c, hc, hpage, by rw [hwalk a, hsome, Option.some_or]⟩
  · intro hk a f hmem hpres
    obtain ⟨hD, htab⟩ := (hpts a f).1 hmem
    rw [← hentry htab] at hpres
    by_contra hout
    push Not at hout
    have hnone : walk k.mem root a = none := by
      have htable := mt (h.tables (path_mem_allPaths a)).1 hD
      rw [Option.not_isSome_iff_eq_none] at htable
      exact leafAt_eq_none htable
    have hother := hk a hout
    rw [hwalk a, hcovers.others a hout, hnone, Option.none_or, htab, Option.bind_some,
      if_pos hpres] at hother
    nomatch hother
  · intro hstale a hout
    rw [hwalk a, hcovers.others a hout]
    cases hw : walk k.mem root a with
    | some e => rfl
    | none =>
      rw [Option.none_or, Option.bind_eq_none_iff]
      intro t ht
      rw [ite_eq_right_iff]
      intro hpres
      exfalso
      by_cases hD : path a ∈ D
      · -- A page table of before has no other entry than before.
        obtain ⟨u, hu⟩ := Option.isSome_iff_exists.1 ((h.tables (path_mem_allPaths a)).2 hD)
        obtain rfl := Option.some.inj (ht.symm.trans (hold _ (path_mem_allPaths a) u hu))
        rw [walk, leafAt_of hu, if_pos hpres] at hw
        nomatch hw
      · rw [hentry ht] at hpres
        obtain ⟨x, hx, hpage⟩ := hstale a t ((hpts a t).2 ⟨hD, ht⟩) hpres
        exact hout x hx hpage
  · intro f htab hfl hspares b i hb
    obtain ⟨e, hmapped, htarget⟩ := hspares.mapped
    have hi := i.isLt
    have hwalk' : walk k'.mem root (identityAddr f) = some e := by
      rw [hwalk, hcovers.others _ hspares.clear, hmapped, Option.some_or]
    have hsame : SamePage k.mem k'.mem f := hkeep f fun hmem =>
      (htables f hmem).elim htab fun hnew => hfl (newTables_subset _ _ hnew)
    rw [Virtual.load64, Virtual.translate_direct hcr3 hwalk' htarget hb (by omega),
      Option.map_some, hb]
    exact congrArg some (entry_congr hsame i)

/-- The first free frame and the one of the `Task` are neither tables nor free later. -/
theorem Virtual.apart_of_free {x : Nat} {task : UInt64} (h : RawSpace root D k (x :: fl))
    (htask : TaskAt k root (x :: fl) task) : x ∉ tableFrames k root ∧ x ∉ fl ∧
      ∀ f, f ∈ tableFrames k root ∨ f ∈ fl → f ≠ x ∧ f ≠ task.toNat / 4096 := by
  have ht : task.toNat / 4096 ∈ taskFrames task := .inl rfl
  have hnotable : x ∉ tableFrames k root := by
    rintro ⟨q, hq, htab⟩
    exact h.beside.fresh x List.mem_cons_self root rfl q hq htab
  have hnotfree : x ∉ fl := (List.nodup_cons.1 h.beside.free.nodup).1
  refine ⟨hnotable, hnotfree, ?_⟩
  rintro f (hf | hf)
  · exact ⟨fun hfx => hnotable (hfx ▸ hf), fun hft => htask.apart _ ht (hft ▸ hf)⟩
  · exact ⟨fun hfx => hnotfree (hfx ▸ hf),
      fun hft => htask.used _ ht (hft ▸ List.mem_cons_of_mem x hf)⟩

/-- The stores before the loop are in the frames of the `vma_struct` and of the `Task`. -/
theorem Virtual.addVMA_stored {x : Nat} {task : UInt64} (h : RawSpace root D k (x :: fl))
    (htask : TaskAt k root (x :: fl) task)
    (hx : ∃ e, walk k.mem root (identityAddr x) = some e ∧ pte.target e = x)
    (ht : ∃ e, walk k.mem root (identityAddr (task.toNat / 4096)) = some e ∧
      pte.target e = task.toNat / 4096) (begin stop flags type : UInt64) :
    ∃ vma k₁ k₂, addVMA begin stop flags type k = some (vma, k₁) ∧
      store64 (task + 304) vma k₁ = some k₂ ∧ vma.toNat = 4096 * x ∧
      Agree {f | f ≠ x ∧ f ≠ task.toNat / 4096} k.pop k₂ ∧ entry k₂.mem x 0 = begin ∧
      load64 vma k₂ = some begin ∧ load64 (vma + 8) k₂ = some stop := by
  obtain ⟨vma, hpop, hvma, hraw⟩ := h.pop
  obtain ⟨-, -, hU⟩ := apart_of_free h htask
  obtain ⟨e, hwalk, htarget⟩ := hx
  obtain ⟨e', hwalk', htarget'⟩ := ht
  have hsub : tableFrames k.pop root ⊆ {f | f ≠ x ∧ f ≠ task.toNat / 4096} :=
    fun f hf => hU f (.inl hf)
  have hne : x ≠ task.toNat / 4096 :=
    fun hxt => htask.used _ (.inl rfl) (hxt ▸ List.mem_cons_self)
  obtain ⟨k₁, hadd, ha₁, hstart, hstop⟩ := addVMA_of_stores (I := Agree _ k.pop)
    ((kmalloc_page k).trans hpop) hvma (Agree.refl _ k.pop)
    (fun w ha hb => store64_agree ha hraw.cr3 hsub hwalk htarget (fun hmem => hmem.1 rfl) hb w)
    begin stop flags type
  have haligned : task.toNat = 4096 * (task.toNat / 4096) := by
    have hmod := htask.aligned
    omega
  obtain ⟨k₂, hstore, ha₂, hent⟩ := store64_agree ha₁ hraw.cr3 hsub hwalk' htarget'
    (fun hmem => hmem.2 rfl) (toNat_field (d := 304) (i := 38) haligned rfl) vma
  have hread : ∀ {b : UInt64} {i : Fin 512}, b.toNat = 4096 * x + 8 * i →
      load64 b k₂ = some (entry k₁.mem x i) := by
    intro b i hb
    rw [load64_agree ha₂ hraw.cr3 hsub hwalk htarget hb, hent, if_neg fun h => hne h.1]
  refine ⟨vma, k₁, k₂, hadd, hstore, hvma, ha₂, ?_, ?_, ?_⟩
  · rw [hent, if_neg fun h => hne h.1, hstart]
  · rw [hread (i := 0) hvma, hstart]
  · rw [hread (toNat_field (d := 8) (i := 1) hvma rfl), hstop]

/-- A turn of the loop over the program headers. It leaves the pages outside the segment exactly if
the new PTs do not map them. -/
theorem loadSegment_others_iff {x : Nat} (image : Mem) (elfHeader task vma₀ : UInt64)
    (hload : ph.pType = ptLoad) (h : RawSpace root D k (x :: fl))
    (hend : ph.pVaddr.toNat + ph.pMemsz.toNat < 2 ^ 64 - 0x1000)
    (hlen : ph.blocks + (withPaths (starts ph.blocks ph.start) D).card ≤ fl.length + D.card)
    (hblank : UppersBlank ph D fl k.mem) (htask : Virtual.TaskAt k root (x :: fl) task)
    (hself : ∀ f ∈ Virtual.followed k root ⟨D, x :: fl, fun _ => none⟩
      (.vma :: blockOps ph.blocks ph.start) task, ph.Spares k.mem root f) :
    ∃ vma k₁ k₂ calls k',
      Virtual.addVMA ph.pVaddr (ph.pVaddr + ph.pMemsz) (UInt64.ofNat ph.pFlags) Virtual.typeNotype k
        = some (vma, k₁) ∧
      Virtual.store64 (task + 304) vma k₁ = some k₂ ∧
      Virtual.tracedBlocks ph.blocks ph.start k₂ = some (calls, k') ∧
      Virtual.loadSegment image elfHeader task (vma₀, k) ph =
        (if ph.Copied then
          (memcpyFile image ph.pVaddr (elfHeader + ph.pOffset) ph.pFilesz k').map (Prod.mk vma)
        else some (vma, k')) ∧
      BacksSegment root ph fl calls k' ∧
      ((∀ a, (∀ x ∈ ph.pages, x % 2 ^ 36 ≠ vpage a) → walk k'.mem root a = walk k.mem root a) ↔
        StaleInside ph D fl k.mem) := by
  have ht : task.toNat / 4096 ∈ Virtual.taskFrames task := .inl rfl
  have hx : ph.Spares k.mem root x :=
    hself x (.inr (.inr (.inl (List.mem_append_left _ List.mem_cons_self))))
  obtain ⟨vma, k₁, k₂, hadd, hstore, hvma, ha, hstart, hfirst, hsecond⟩ :=
    Virtual.addVMA_stored h htask hx.mapped (hself _ (.inr (.inr (.inr ht)))).mapped
      ph.pVaddr (ph.pVaddr + ph.pMemsz) (UInt64.ofNat ph.pFlags) Virtual.typeNotype
  obtain ⟨hnotable, hnotfree, hU⟩ := Virtual.apart_of_free h htask
  obtain ⟨-, -, -, hraw⟩ := h.pop
  have htables : ∀ f ∈ tableFrames k root, SamePage k.mem k₂.mem f :=
    fun f hf => ha.mem f (hU f (.inl hf))
  have hwalk : ∀ a, walk k₂.mem root a = walk k.mem root a := walk_of_tables htables
  have hframes : ∀ {f}, f ∈ tableFrames k₂ root → f ∈ tableFrames k root :=
    fun hf => (tableFrames_of_tables htables).subset hf
  have hspares : ∀ {f}, ph.Spares k.mem root f → ph.Spares k₂.mem root f := by
    rintro f ⟨⟨e, hmapped, htarget⟩, hclear⟩
    exact ⟨⟨e, (hwalk _).trans hmapped, htarget⟩, hclear⟩
  obtain ⟨calls, k', hrun, hbacks, hothers, hobjects⟩ := tracedBlocks_others_iff (m := k.mem)
    (hraw.of_agree ha fun f hf => hU f (.inl hf)) hend hlen
    (fun f hf => ha.mem f (hU f (hf.imp_left hframes)))
    hblank fun f hf => hspares (hself f (hf.imp hframes .inl))
  have hlast : Virtual.load64 vma k' = some ph.pVaddr := by
    rw [hobjects x (mt hframes hnotable) hnotfree (hspares hx) vma 0 hvma, hstart]
  have hblocks : Virtual.mapBlocks ph.blocks ph.start k₂ = some k' := by
    rw [← Virtual.tracedBlocks_map, hrun]
    rfl
  refine ⟨vma, k₁, k₂, calls, k', hadd, hstore, hrun, ?_, hbacks, ?_⟩
  · rw [Phdr.blocks, Phdr.start] at hblocks
    rw [Virtual.loadSegment, if_pos hload]
    simp only [hadd, hstore, hsecond, hfirst, hblocks, hlast, Option.bind_eq_bind, Option.bind_some]
    split_ifs
    · cases memcpyFile image ph.pVaddr (elfHeader + ph.pOffset) ph.pFilesz k' with
      | none => rfl
      | some k₃ => rfl
    · rfl
  · simp only [← hothers, hwalk]

end

/-! ## A segment across the border of two pages -/

def twoPages : Phdr := ⟨ptLoad, permR ||| permW, 0, 0x400ff8, 0, 16⟩

/-- A machine whose frame 9 holds an entry already. -/
def staleKernel (k : Kernel) (i : Fin 512) : Kernel :=
  { k with mem := write64 k.mem (4096 * 9 + 8 * i) 0x9007 }

theorem newPts_twoPages : (Layout.mk directTables (List.range' 8 56) fun _ => none).newPts
    (blockOps twoPages.blocks twoPages.start) = [(path 0x400000, 9)] := by decide

theorem uppersBlank_twoPages (m : Mem) :
    UppersBlank twoPages directTables (List.range' 8 56) m := by
  have hnone : (Layout.mk directTables (List.range' 8 56) fun _ => none).newUppers
      (blockOps twoPages.blocks twoPages.start) = [] := by decide
  intro f hf
  rw [hnone] at hf
  nomatch hf

/-- The machine with a direct map, two frames of which are for a `Task`. The `vma_struct` takes
frame 7, the pages take the frames 8 and 10, and frame 9 becomes the PT. -/
theorem stale_machine : ∃ k, mapProcesses directBoot.pop identityCalls = some k ∧ ∀ i,
    RawSpace 1 directTables (staleKernel k.pop.pop i) (7 :: List.range' 8 56) ∧
    Virtual.TaskAt (staleKernel k.pop.pop i) 1 (7 :: List.range' 8 56) 0x5000 ∧
    (∀ f ∈ Virtual.followed (staleKernel k.pop.pop i) 1
      ⟨directTables, 7 :: List.range' 8 56, fun _ => none⟩
      (.vma :: blockOps twoPages.blocks twoPages.start) 0x5000,
      twoPages.Spares (staleKernel k.pop.pop i).mem 1 f) ∧
    ∀ j, pte.present (entry (staleKernel k.pop.pop i).mem 9 j) = true ↔ j = i := by
  obtain ⟨k, hrun, hspace, htables, hmap⟩ := direct_map_machine
  obtain ⟨hspace, htask⟩ := hspace.task (by decide)
  refine ⟨k, hrun, fun i => ?_⟩
  have hsame : ∀ f ∈ tableFrames k.pop.pop 1,
      SamePage k.pop.pop.mem (staleKernel k.pop.pop i).mem f := by
    rintro f ⟨q, hq, hf⟩
    refine samePage_write64 _ i _ ?_
    rintro rfl
    exact hspace.paging.fresh 9 (by decide) 1 rfl q hq hf
  have hframes : ∀ {f}, f ∈ tableFrames (staleKernel k.pop.pop i) 1 → f ∈ tableFrames k 1 :=
    fun hf => (tableFrames_of_tables hsame).subset hf
  have hpages : ∀ x ∈ twoPages.pages, 64 ≤ x % 2 ^ 36 := by decide
  refine ⟨hspace.raw.of_tables hsame, ⟨htask.aligned, htask.bound, htask.used, ?_⟩, ?_, ?_⟩
  · exact fun f hf hmem => htask.apart f hf (hframes hmem)
  · intro f hf
    have hin : 1 ≤ f ∧ f < 64 := by
      refine followed_subset (P := {f | 1 ≤ f ∧ f < 64}) (framesSuffice_of_length (by decide))
        (fun g hg => htables g (hframes hg)) ?_ ?_ hf
      · intro g hg
        have hlist : g ∈ List.range' 7 57 := List.mem_of_mem_take hg
        rw [List.mem_range'_1] at hlist
        exact ⟨by omega, by omega⟩
      · rintro g (rfl | rfl) <;> decide
    refine ⟨⟨_, (walk_of_tables hsame _).trans (hmap f hin.1 hin.2),
      target_pageEntry (by omega)⟩, ?_⟩
    intro x hx
    have habove := hpages x hx
    rw [vpage_identityAddr (by omega)]
    omega
  · intro j
    have hblank : pte.present (entry k.mem 9 j) = false :=
      hspace.paging.blank 9 (by decide) j
    show pte.present (entry (write64 k.mem (4096 * 9 + 8 * i) 0x9007) 9 j) = true ↔ j = i
    rw [entry_write64]
    by_cases hji : j = i
    · rw [if_pos ⟨rfl, hji⟩]
      exact iff_of_true rfl hji
    · rw [if_neg fun h => hji h.2, hblank]
      exact iff_of_false Bool.false_ne_true hji

end Sbunix
