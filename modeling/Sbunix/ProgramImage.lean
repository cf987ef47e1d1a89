import Sbunix.LoadRun

/-!
# The image of a program

After a load, a byte of a page is what the last header that has the page left there: the header maps
a new frame and then copies its segment, if it copies it at all. So a byte of a segment is one from
the file exactly if the segment is copied, it reaches so far in the file, and no later header has
the page (`contents_segment`). When all of them are, the segments are whole (`whole_of_isSome`).

`elf_load` does not clear the bytes behind `p_filesz`, it copies only two kinds of segments, and it
maps the page of `p_vaddr + p_memsz` even when the segment ends before.
-/

namespace Sbunix

open Lib Lib.Radix

/-! ## Segments -/

/-- The addresses of a segment. -/
def Phdr.range (ph : Phdr) : Set Nat := Set.Ico ph.pVaddr.toNat (ph.pVaddr.toNat + ph.pMemsz.toNat)

/-- The header has the page: the loader maps a frame for it. -/
def Phdr.Touches (ph : Phdr) (x : Nat) : Prop :=
  ph.pType = ptLoad ∧ ph.pVaddr.toNat / 4096 ≤ x ∧
    x ≤ (ph.pVaddr.toNat + ph.pMemsz.toNat) / 4096

/-- The segments are in user space and no longer in the file than in memory. -/
structure InUserSpace (phs : List Phdr) : Prop where
  user : ∀ ph ∈ phs, ph.pType = ptLoad → ph.pVaddr.toNat + ph.pMemsz.toNat ≤ 2 ^ 47
  filesz : ∀ ph ∈ phs, ph.pType = ptLoad → ph.pFilesz ≤ ph.pMemsz

/-- They are also disjoint. -/
structure UserSegments (phs : List Phdr) : Prop extends InUserSpace phs where
  disjoint : phs.Pairwise fun a b =>
    a.pType = ptLoad → b.pType = ptLoad → Disjoint a.range b.range

/-- The byte of a segment at offset `o`. -/
def segmentByte (image : Mem) (elfHeader : UInt64) (ph : Phdr) (o : Nat) : UInt8 :=
  if o < ph.pFilesz.toNat then image (elfHeader + ph.pOffset + UInt64.ofNat o).toNat else 0

/-- The pages of the heap and of the stack. -/
def TailPage (x : Nat) : Prop := x = vpage heapStart ∨ x = vpage (userStackTop - 0x1000)

/-- No other segment has a page of a segment afterwards, and the segments are copied in full. -/
def Whole (phs : List Phdr) : Prop :=
  ∀ pre ph post, phs = pre ++ ph :: post → ph.pType = ptLoad → ph.range.Nonempty →
    ph.Copied ∧ ph.pFilesz = ph.pMemsz ∧
      ∀ a ∈ ph.range, ¬ TailPage (a / 4096) ∧ ∀ ph' ∈ post, ¬ ph'.Touches (a / 4096)

/-! ## The operations for a segment -/

section

variable {image : Mem} {elfHeader : UInt64} {ph : Phdr} {phs : List Phdr} {ops : List LoadOp}
  {s : Layout} {c : Contents} {a x : Nat}

theorem page_mem_blockOps {itr : Nat} {start : UInt64} (halign : start.toNat % 4096 = 0)
    (hbound : start.toNat + 4096 * itr ≤ 2 ^ 47 + 4096) :
    (∃ v, LoadOp.page v ∈ blockOps itr start ∧ vpage v = x) ↔
      start.toNat / 4096 ≤ x ∧ x < start.toNat / 4096 + itr := by
  induction itr generalizing start with
  | zero =>
    simp only [blockOps, List.not_mem_nil, false_and, exists_false, false_iff]
    omega
  | succ itr ih =>
    have hnext : (start + 0x1000).toNat = start.toNat + 4096 := by
      rw [UInt64.toNat_add]
      have : (0x1000 : UInt64).toNat = 4096 := rfl
      omega
    have hpage : vpage start = start.toNat / 4096 := by
      unfold vpage
      omega
    have ih := @ih (start + 0x1000) (by omega) (by omega)
    rw [hnext] at ih
    simp only [blockOps, List.mem_cons, LoadOp.page.injEq, or_and_right, exists_or, exists_eq_left,
      ih, hpage]
    omega

theorem blocks_eq (h : ph.pVaddr.toNat + ph.pMemsz.toNat < 2 ^ 64 - 0x1000) :
    ph.blocks = (ph.pVaddr.toNat + ph.pMemsz.toNat) / 4096 - ph.pVaddr.toNat / 4096 + 1 := by
  have hpage : (0x1000 : UInt64).toNat = 4096 := rfl
  have hend : (ph.pVaddr + ph.pMemsz).toNat = ph.pVaddr.toNat + ph.pMemsz.toNat := by
    rw [UInt64.toNat_add]
    omega
  have hlast : ((ph.pVaddr + ph.pMemsz) / 0x1000 * 0x1000 + 0x1000).toNat =
      (ph.pVaddr.toNat + ph.pMemsz.toNat) / 4096 * 4096 + 4096 := by
    simp only [UInt64.toNat_add, UInt64.toNat_mul, UInt64.toNat_div, hend, hpage]
    omega
  have hfirst : (ph.pVaddr / 0x1000 * 0x1000).toNat = ph.pVaddr.toNat / 4096 * 4096 := by
    simp only [UInt64.toNat_mul, UInt64.toNat_div, hpage]
    omega
  unfold Phdr.blocks
  rw [UInt64.toNat_div, UInt64.toNat_sub, hlast, hfirst, hpage]
  omega

theorem page_mem_segmentOps (elfHeader : UInt64)
    (h : ph.pType = ptLoad → ph.pVaddr.toNat + ph.pMemsz.toNat ≤ 2 ^ 47) :
    (∃ v, LoadOp.page v ∈ segmentOps elfHeader ph ∧ vpage v = x) ↔ ph.Touches x := by
  unfold segmentOps Phdr.Touches
  by_cases hload : ph.pType = ptLoad
  · have hfirst : (ph.pVaddr / 0x1000 * 0x1000).toNat = ph.pVaddr.toNat / 4096 * 4096 :=
      toNat_pageBase ph.pVaddr
    have hbound := h hload
    have hlt : ph.pVaddr.toNat + ph.pMemsz.toNat < 2 ^ 64 - 0x1000 :=
      Nat.lt_of_le_of_lt hbound (by decide)
    have hblocks := @page_mem_blockOps x ph.blocks (ph.pVaddr / 0x1000 * 0x1000) (by omega)
      (by rw [blocks_eq hlt]; omega)
    rw [blocks_eq hlt, hfirst] at hblocks
    rw [if_pos hload]
    split_ifs <;>
    · simp only [List.mem_append, List.mem_cons, List.not_mem_nil, or_false, reduceCtorEq,
        false_or, blocks_eq hlt, hblocks]
      omega
  · rw [if_neg hload]
    simp [hload]

theorem copy_not_mem_blockOps {itr : Nat} {start dest src n : UInt64} :
    LoadOp.copy dest src n ∉ blockOps itr start := by
  induction itr generalizing start with
  | zero => simp [blockOps]
  | succ itr ih => simp [blockOps, ih]

theorem copy_mem_segmentOps {dest src n : UInt64}
    (h : .copy dest src n ∈ segmentOps elfHeader ph) :
    ph.pType = ptLoad ∧ dest = ph.pVaddr ∧ n = ph.pFilesz := by
  unfold segmentOps at h
  split_ifs at h with hload hcopy
  · simp only [List.mem_append, List.mem_cons, copy_not_mem_blockOps, reduceCtorEq, or_self,
      LoadOp.copy.injEq, List.not_mem_nil, or_false, false_or] at h
    exact ⟨hload, h.1, h.2.2⟩
  · simp [copy_not_mem_blockOps] at h
  · nomatch h

theorem page_mem_tailOps : (∃ v, LoadOp.page v ∈ tailOps ∧ vpage v = x) ↔ TailPage x := by
  simp only [tailOps, TailPage, List.mem_cons, LoadOp.page.injEq, reduceCtorEq, List.not_mem_nil,
    or_false, false_or, or_and_right, exists_or, exists_eq_left, eq_comm (a := x)]

/-! ## Contents after a list of operations -/

/-- No operation copies to the address. -/
def NoCopyAt (a : Nat) (ops : List LoadOp) : Prop :=
  ∀ {dest src n : UInt64}, .copy dest src n ∈ ops → ¬ (dest.toNat ≤ a ∧ a < dest.toNat + n.toNat)

theorem NoCopyAt.tail {op : LoadOp} (h : NoCopyAt a (op :: ops)) : NoCopyAt a ops :=
  fun hmem => h (List.mem_cons_of_mem _ hmem)

/-- A byte is lost when its page is mapped anew. -/
theorem contents_lost (hcopy : NoCopyAt a ops)
    (h : (∃ v, .page v ∈ ops ∧ vpage v = a / 4096) ∨ c a = none) :
    ops.foldl (Contents.step image) c a = none := by
  induction ops generalizing c with
  | nil => exact h.resolve_left fun ⟨_, hv, _⟩ => List.not_mem_nil hv
  | cons op ops ih =>
    refine ih hcopy.tail ?_
    rcases h with ⟨v, hv, hpage⟩ | hnone
    · rcases List.mem_cons.1 hv with rfl | hv
      · exact .inr (if_pos hpage.symm)
      · exact .inl ⟨v, hv, hpage⟩
    · right
      cases op with
      | vma => exact hnone
      | page v => exact ite_eq_left_iff.2 fun _ => hnone
      | copy dest src n => exact (if_neg (hcopy List.mem_cons_self)).trans hnone

/-- A byte stays when its page does. -/
theorem contents_kept (hcopy : NoCopyAt a ops)
    (h : ¬ ∃ v, .page v ∈ ops ∧ vpage v = a / 4096) :
    ops.foldl (Contents.step image) c a = c a := by
  induction ops generalizing c with
  | nil => rfl
  | cons op ops ih =>
    refine (ih hcopy.tail fun ⟨v, hv, hpage⟩ => h ⟨v, List.mem_cons_of_mem _ hv, hpage⟩).trans ?_
    cases op with
    | vma => rfl
    | page v => exact if_neg fun hpage => h ⟨v, List.mem_cons_self, hpage.symm⟩
    | copy dest src n => exact if_neg (hcopy List.mem_cons_self)

/-- The byte at offset `o` right after its segment was loaded. -/
theorem contents_segmentOps (hload : ph.pType = ptLoad)
    (hbound : ph.pVaddr.toNat + ph.pMemsz.toNat ≤ 2 ^ 47) (ha : a ∈ ph.range) :
    (segmentOps elfHeader ph).foldl (Contents.step image) c a =
      if ph.Copied ∧ a < ph.pVaddr.toNat + ph.pFilesz.toNat then
        some (image (elfHeader + ph.pOffset + UInt64.ofNat (a - ph.pVaddr.toNat)).toNat)
      else none := by
  obtain ⟨hlo, hhi⟩ := ha
  have htouch : ph.Touches (a / 4096) := ⟨hload, by omega, by omega⟩
  obtain ⟨v, hv, hpage⟩ := (page_mem_segmentOps elfHeader fun _ => hbound).2 htouch
  unfold segmentOps at hv ⊢
  rw [if_pos hload] at hv ⊢
  have hblocks : (LoadOp.vma :: blockOps ph.blocks (ph.pVaddr / 0x1000 * 0x1000)).foldl
      (Contents.step image) c a = none := by
    refine contents_lost (fun hmem => ?_) (.inl ⟨v, ?_, hpage⟩)
    · simp [copy_not_mem_blockOps] at hmem
    · split_ifs at hv
      · simpa using hv
      · simpa using hv
  rw [List.foldl_append]
  by_cases hcopy : ph.Copied
  · simp only [hcopy, if_true, true_and, List.foldl_cons, List.foldl_nil]
    show (if ph.pVaddr.toNat ≤ a ∧ a < _ then _ else _) = _
    simp only [hlo, true_and]
    split_ifs
    · rfl
    · exact hblocks
  · simp only [hcopy, if_false, false_and, List.foldl_nil]
    exact hblocks

/-- **The byte of a segment after the load.** -/
theorem contents_segment {pre post : List Phdr} {b : UInt8} (hsegs : UserSegments phs)
    (hphs : phs = pre ++ ph :: post) (hload : ph.pType = ptLoad) (ha : a ∈ ph.range) :
    (elfOps elfHeader phs).foldl (Contents.step image) c a = some b ↔
      (ph.Copied ∧ a < ph.pVaddr.toNat + ph.pFilesz.toNat ∧
        b = image (elfHeader + ph.pOffset + UInt64.ofNat (a - ph.pVaddr.toNat)).toNat) ∧
      ¬ TailPage (a / 4096) ∧ ∀ ph' ∈ post, ¬ ph'.Touches (a / 4096) := by
  subst hphs
  have hbound := hsegs.user ph (by simp) hload
  have hlater : ∀ ph' ∈ post, ph' ∈ pre ++ ph :: post := fun ph' h => by simp [h]
  set rest := post.flatMap (segmentOps elfHeader) ++ tailOps with hrest
  have hops : elfOps elfHeader (pre ++ ph :: post) =
      pre.flatMap (segmentOps elfHeader) ++ (segmentOps elfHeader ph ++ rest) := by
    simp only [elfOps, hrest, List.flatMap_append, List.flatMap_cons, List.append_assoc]
  have hcopy : NoCopyAt a rest := by
    intro dest src n hmem hin
    rcases List.mem_append.1 hmem with hmem | hmem
    · obtain ⟨ph', hph', hmem⟩ := List.mem_flatMap.1 hmem
      obtain ⟨hload', rfl, rfl⟩ := copy_mem_segmentOps hmem
      have hle := UInt64.le_iff_toNat_le.1 (hsegs.filesz ph' (hlater ph' hph') hload')
      have hdisj := (List.pairwise_cons.1 (List.pairwise_append.1 hsegs.disjoint).2.1).1 ph' hph'
        hload hload'
      refine Set.disjoint_left.1 hdisj ha ⟨hin.1, ?_⟩
      omega
    · simp [tailOps] at hmem
  have hpages : (∃ v, .page v ∈ rest ∧ vpage v = a / 4096) ↔
      (∃ ph' ∈ post, ph'.Touches (a / 4096)) ∨ TailPage (a / 4096) := by
    rw [← page_mem_tailOps]
    simp only [hrest, List.mem_append, List.mem_flatMap, or_and_right, exists_or]
    refine or_congr_left ⟨?_, ?_⟩
    · rintro ⟨v, ⟨ph', hph', hv⟩, hpage⟩
      exact ⟨ph', hph', (page_mem_segmentOps _ (hsegs.user ph' (hlater ph' hph'))).1 ⟨v, hv, hpage⟩⟩
    · rintro ⟨ph', hph', htouch⟩
      obtain ⟨v, hv, hpage⟩ := (page_mem_segmentOps elfHeader
        (hsegs.user ph' (hlater ph' hph'))).2 htouch
      exact ⟨v, ⟨ph', hph', hv⟩, hpage⟩
  rw [hops, List.foldl_append, List.foldl_append]
  by_cases hagain : ∃ v, .page v ∈ rest ∧ vpage v = a / 4096
  · rw [contents_lost hcopy (.inl hagain)]
    simp only [reduceCtorEq, false_iff, not_and, not_forall, not_not]
    intro _ htail
    obtain ⟨ph', hph', htouch⟩ := (hpages.1 hagain).resolve_right htail
    exact ⟨ph', hph', htouch⟩
  · rw [contents_kept hcopy hagain, contents_segmentOps hload hbound ha]
    rw [hpages, not_or, not_exists] at hagain
    have hfree : ¬ TailPage (a / 4096) ∧ ∀ ph' ∈ post, ¬ ph'.Touches (a / 4096) :=
      ⟨hagain.2, fun ph' hph' htouch => hagain.1 ph' ⟨hph', htouch⟩⟩
    rw [and_iff_left hfree]
    split_ifs with hwrite
    · rw [Option.some_inj, eq_comm]
      exact ⟨fun hb => ⟨hwrite.1, hwrite.2, hb⟩, fun hb => hb.2.2⟩
    · exact iff_of_false not_false fun hb => hwrite ⟨hb.1, hb.2.1⟩

/-! ## Copies stay within their pages -/

theorem frame_isSome_foldl :
    ((ops.foldl Layout.step s).frame x).isSome ↔
      (∃ v, .page v ∈ ops ∧ vpage v = x) ∨ (s.frame x).isSome := by
  induction ops generalizing s with
  | nil => simp
  | cons op ops ih =>
    rw [List.foldl_cons, ih]
    cases op with
    | vma => simp [Layout.step]
    | copy dest src n => simp [Layout.step]
    | page v =>
      simp only [Layout.step, Function.update_apply, List.mem_cons, LoadOp.page.injEq,
        or_and_right, exists_or, exists_eq_left, eq_comm (a := x)]
      split_ifs with hx
      · simp [hx]
      · simp [hx]

theorem copiesWithin_append {ops' : List LoadOp} :
    CopiesWithin s (ops ++ ops') ↔
      CopiesWithin s ops ∧ CopiesWithin (ops.foldl Layout.step s) ops' := by
  induction ops generalizing s with
  | nil => exact ⟨fun h => ⟨trivial, h⟩, fun h => h.2⟩
  | cons op ops ih =>
    constructor
    · rintro ⟨hok, hrest⟩
      obtain ⟨hops, hops'⟩ := ih.1 (hrest _ rfl)
      refine ⟨⟨hok, ?_⟩, hops'⟩
      rintro _ ⟨⟩
      exact hops
    · rintro ⟨⟨hok, hrest⟩, hops'⟩
      refine ⟨hok, ?_⟩
      rintro _ ⟨⟩
      exact ih.2 ⟨hrest _ rfl, hops'⟩

theorem copiesWithin_of_pages (h : ∀ {dest src n}, LoadOp.copy dest src n ∉ ops) :
    CopiesWithin s ops := by
  induction ops generalizing s with
  | nil => trivial
  | cons op ops ih =>
    refine ⟨?_, ?_⟩
    · cases op with
      | vma => trivial
      | page v => trivial
      | copy dest src n => exact absurd List.mem_cons_self h
    · rintro _ ⟨⟩
      exact ih fun hmem => h (List.mem_cons_of_mem _ hmem)

theorem copiesWithin_segmentOps
    (hbound : ph.pType = ptLoad → ph.pVaddr.toNat + ph.pMemsz.toNat ≤ 2 ^ 47)
    (hfilesz : ph.pType = ptLoad → ph.pFilesz ≤ ph.pMemsz) :
    CopiesWithin s (segmentOps elfHeader ph) := by
  by_cases hload : ph.pType = ptLoad
  · have hpages : ∀ x, (∃ v, .page v ∈ segmentOps elfHeader ph ∧ vpage v = x) ↔ ph.Touches x :=
      fun x => page_mem_segmentOps elfHeader hbound
    have hle := UInt64.le_iff_toNat_le.1 (hfilesz hload)
    have hbound := hbound hload
    unfold segmentOps at hpages ⊢
    rw [if_pos hload] at hpages ⊢
    refine copiesWithin_append.2 ⟨copiesWithin_of_pages ?_, ?_⟩
    · simp [copy_not_mem_blockOps]
    · by_cases hcopy : ph.Copied
      · simp only [hcopy, if_true] at hpages ⊢
        refine ⟨⟨by omega, ?_⟩, fun _ _ => trivial⟩
        intro a hlo hhi
        obtain ⟨v, hv, hpage⟩ := (hpages (a / 4096)).2 ⟨hload, by omega, by omega⟩
        refine frame_isSome_foldl.2 (.inl ⟨v, ?_, hpage⟩)
        simpa using hv
      · simp only [hcopy, if_false]
        trivial
  · rw [segmentOps, if_neg hload]
    trivial

theorem copiesWithin_elfOps (h : InUserSpace phs) : CopiesWithin s (elfOps elfHeader phs) := by
  have hsegments : ∀ qs : List Phdr, qs ⊆ phs → ∀ s,
      CopiesWithin s (qs.flatMap (segmentOps elfHeader)) := by
    intro qs
    induction qs with
    | nil => exact fun _ _ => trivial
    | cons ph qs ih =>
      intro hqs s
      have hph := hqs List.mem_cons_self
      rw [List.flatMap_cons]
      exact copiesWithin_append.2 ⟨copiesWithin_segmentOps (h.user ph hph) (h.filesz ph hph),
        ih (fun _ hq => hqs (List.mem_cons_of_mem _ hq)) _⟩
  refine copiesWithin_append.2 ⟨hsegments phs (List.Subset.refl _) s, copiesWithin_of_pages ?_⟩
  simp [tailOps]

end

/-! ## A whole load -/

/-- The layout of a load into an address space with tables at the paths `D`. -/
def elfLayout (D : Finset (List (Fin 512))) (fl : List Nat) (elfHeader : UInt64)
    (phs : List Phdr) : Layout :=
  (elfOps elfHeader phs).foldl Layout.step ⟨D, fl, fun _ => none⟩

/-- The contents of the loaded pages before the arguments are stored. -/
def elfContents (image : Mem) (elfHeader : UInt64) (phs : List Phdr) : Contents :=
  (elfOps elfHeader phs).foldl (Contents.step image) fun _ => none

/-- The bytes where the `n` arguments are stored. -/
def argBlock (n : Nat) : Set Nat :=
  {a | 0 < n ∧ (argsPtr n).toNat ≤ a ∧ a < (argsPtr n).toNat + (8 + 64 * n)}

section

variable {image : Mem} {addr args : UInt64} {task e₁ : Entry} {n root x : Nat} {U : Set Nat}
  {k k' k₁ : Kernel} {D : Finset (List (Fin 512))} {fl : List Nat} {phs : List Phdr}

theorem elfLayout_frame (hsegs : InUserSpace phs) :
    ((elfLayout D fl addr phs).frame x).isSome ↔ TailPage x ∨ ∃ ph ∈ phs, ph.Touches x := by
  rw [elfLayout, frame_isSome_foldl, ← page_mem_tailOps]
  simp only [elfOps, List.mem_append, List.mem_flatMap, or_and_right, exists_or, Option.isSome_none,
    Bool.false_eq_true, or_false]
  rw [or_comm]
  refine or_congr_right ⟨?_, ?_⟩
  · rintro ⟨v, ⟨ph, hph, hv⟩, hpage⟩
    exact ⟨ph, hph, (page_mem_segmentOps _ (hsegs.user ph hph)).1 ⟨v, hv, hpage⟩⟩
  · rintro ⟨ph, hph, htouch⟩
    obtain ⟨v, hv, hpage⟩ :=
      (page_mem_segmentOps addr (hsegs.user ph hph)).2 htouch
    exact ⟨v, ⟨ph, hph, hv⟩, hpage⟩

/-- The heap and the stack are fresh pages. -/
theorem elfContents_tailPage {a : Nat} (h : TailPage (a / 4096)) :
    elfContents image addr phs a = none := by
  rw [elfContents, elfOps, List.foldl_append]
  refine contents_lost ?_ (.inl (page_mem_tailOps.2 h))
  intro dest src n hmem
  simp [tailOps] at hmem

/-- The arguments fit on the stack page. -/
theorem covers_argBlock (hsegs : InUserSpace phs) (hn : n ≤ 63) :
    (elfLayout D fl addr phs).Covers (argsPtr n).toNat (8 + 64 * n) := by
  have hptr := argsPtr_toNat hn
  have hstack : vpage (userStackTop - 0x1000) = 0xEFFFF := rfl
  refine ⟨by omega, fun a hlo hhi => (elfLayout_frame hsegs).2 (.inl (.inr ?_))⟩
  omega

/-- A load is its operations, and then the arguments, which add no table. -/
theorem elfLoad_split (haddr : addr ≠ 0) (h : Space root D k fl)
    (hsegs : InUserSpace (programHeaders image addr)) (hn : n ≤ 63)
    (hrun : elfLoad image addr n args task k = some (e₁, k₁)) :
    e₁ = ⟨read64 image (addr.toNat + 24), argsPtr n⟩ ∧
      ∃ k₂, (elfOps addr (programHeaders image addr)).foldlM (loadOp image) k = some k₂ ∧
        storeArgs (argsPtr n) n args k₂ = some k₁ ∧ tableFrames k₁ root = tableFrames k₂ root := by
  rw [elfLoad_eq haddr] at hrun
  obtain ⟨k₃, hrun₃, hentry⟩ := Option.map_eq_some_iff.1 hrun
  obtain ⟨rfl, rfl⟩ := Prod.mk.inj hentry
  obtain ⟨k₂, hops, hargs⟩ := Option.bind_eq_some_iff.1 hrun₃
  have hself := loading_self h
  obtain ⟨k₂', hops', hself₂⟩ := loadOps_loading hself hself (copiesWithin_elfOps hsegs) hops
    (Set.subset_univ _)
  obtain rfl := Option.some.inj (hops.symm.trans hops')
  obtain ⟨-, -, -, hframes, -, -⟩ := hself₂.storeArgs (Set.subset_univ _) hn
    (covers_argBlock hsegs hn) (.inr fun _ _ _ _ => Set.mem_univ _) hargs
  exact ⟨rfl, k₂, hops, hargs, hframes⟩

/-- **A whole load** on two machines with the same tables at the end. -/
theorem elfLoad_loading (haddr : addr ≠ 0) (h : Space root D k fl)
    (hsegs : InUserSpace (programHeaders image addr)) (hn : n ≤ 63)
    (hrun : elfLoad image addr n args task k = some (e₁, k₁)) (hagree : Agree U k k')
    (hU : tableFrames k₁ root ⊆ U)
    (hread : (∀ f ∈ U, f ∈ fl → f ∈ tableFrames k₁ root) ∨ ∀ i < 64 * n,
      ReadsIn U (walk k.mem root) (elfLayout D fl addr (programHeaders image addr))
        (args + UInt64.ofNat i)) :
    ∃ k₁' c, elfLoad image addr n args task k' = some (e₁, k₁') ∧
      Loading root U fl (walk k.mem root) k'.mem k₁ k₁'
        (elfLayout D fl addr (programHeaders image addr)) c ∧
      ArgsStored (tableFrames k₁ root) fl (walk k.mem root) k'.mem
        (elfLayout D fl addr (programHeaders image addr)) (argsPtr n).toNat args n
        (elfContents image addr (programHeaders image addr)) c := by
  obtain ⟨rfl, k₂, hops, hargs, hframes⟩ := elfLoad_split haddr h hsegs hn hrun
  have hU₂ : tableFrames k₂ root ⊆ U := hframes ▸ hU
  obtain ⟨k₂', hops', h₂⟩ := loadOps_loading (loading_self h) (loading_init h hagree)
    (copiesWithin_elfOps hsegs) hops hU₂
  have hread₂ : (∀ g ∈ (elfLayout D fl addr (programHeaders image addr)).frames, g ∉ U) ∨
      ∀ i < 64 * n, ReadsIn U (walk k.mem root)
        (elfLayout D fl addr (programHeaders image addr)) (args + UInt64.ofNat i) := by
    refine hread.imp_left ?_
    rintro htables g ⟨x, hg⟩ hmem
    obtain ⟨hfree, -, hdata, -⟩ := h₂.owned hg
    exact hdata (hframes ▸ htables g hmem hfree)
  obtain ⟨k₁', c, hargs', -, h₁, hstored⟩ := h₂.storeArgs hU₂ hn (covers_argBlock hsegs hn) hread₂
    hargs
  refine ⟨k₁', c, ?_, h₁, ?_⟩
  · rw [elfLoad_eq haddr, hops', Option.bind_some, hargs', Option.map_some]
  · rw [hframes]
    exact hstored

/-- The tables of a load are those of before and free frames. -/
theorem elfLoad_newTables (haddr : addr ≠ 0) (h : Space root D k fl)
    (hsegs : InUserSpace (programHeaders image addr)) (hn : n ≤ 63)
    (hrun : elfLoad image addr n args task k = some (e₁, k₁)) {f : Nat}
    (hf : f ∉ tableFrames k root) (hfree : f ∉ fl) : f ∉ tableFrames k₁ root := by
  obtain ⟨-, k₂, hops, -, hframes⟩ := elfLoad_split haddr h hsegs hn hrun
  rw [hframes]
  intro hmem
  rcases loadOps_tables (loading_self h) (copiesWithin_elfOps hsegs) hops hmem with hold | hnew
  · exact hf hold
  · exact hfree (newTables_subset _ _ hnew)

/-- Outside their block the arguments change nothing. -/
theorem ArgsStored.contents {T : Set Nat} {w₀ : UInt64 → Option UInt64} {m₀ : Mem} {s : Layout}
    {c c' : Contents} {a : Nat} (h : ArgsStored T fl w₀ m₀ s (argsPtr n).toNat args n c c')
    (ha : a ∉ argBlock n) : c' a = c a := by
  have hout : 0 < n → ¬ ((argsPtr n).toNat ≤ a ∧ a < (argsPtr n).toNat + (8 + 64 * n)) :=
    fun hn hin => ha ⟨hn, hin⟩
  rw [h.outside (by omega), Contents.withArgc]
  split_ifs with hn
  · exact Contents.write_of_not_mem (by specialize hout hn; omega)
  · rfl

/-- The arguments are in mapped pages, of before or loaded. -/
def ArgsMapped (L : Layout) (w₀ : UInt64 → Option UInt64) (args : UInt64) (n : Nat) : Prop :=
  ∀ i < 64 * n, ((L.frame (vpage (args + UInt64.ofNat i))).map pageEntry).or
    (w₀ (args + UInt64.ofNat i)) ≠ none

/-- A load comes to its end when the frames suffice and the arguments are in mapped pages. -/
theorem elfLoad_fits_isSome (task : Entry) (haddr : addr ≠ 0) (h : Space root D k fl)
    (hsegs : InUserSpace (programHeaders image addr)) (hn : n ≤ 63)
    (hfits : FramesSuffice ⟨D, fl, fun _ => none⟩ (elfOps addr (programHeaders image addr)))
    (hargs : ArgsMapped (elfLayout D fl addr (programHeaders image addr)) (walk k.mem root)
      args n) :
    ∃ k₁, elfLoad image addr n args task k =
      some (⟨read64 image (addr.toNat + 24), argsPtr n⟩, k₁) := by
  have hself := loading_self h
  obtain ⟨k₂, hops⟩ := loadOps_isSome image hself (copiesWithin_elfOps hsegs) hfits
  obtain ⟨k₂', hops', h₂⟩ := loadOps_loading hself hself (copiesWithin_elfOps hsegs) hops
    (Set.subset_univ _)
  obtain rfl := Option.some.inj (hops.symm.trans hops')
  obtain ⟨k₁, hstore⟩ := h₂.storeArgs_isSome hn (covers_argBlock hsegs hn) hargs
  refine ⟨k₁, ?_⟩
  rw [elfLoad_eq haddr, hops, Option.bind_some, hstore, Option.map_some]

theorem elfLoad_args_isSome (task : Entry) (haddr : addr ≠ 0) (h : Space root D k fl)
    (hsegs : InUserSpace (programHeaders image addr)) (hn : n ≤ 63)
    (hlen : 4 * (elfOps addr (programHeaders image addr)).length ≤ fl.length)
    (hsrc : ∀ i < 64 * n, walk k.mem root (args + UInt64.ofNat i) ≠ none) :
    ∃ k₁, elfLoad image addr n args task k =
      some (⟨read64 image (addr.toNat + 24), argsPtr n⟩, k₁) :=
  elfLoad_fits_isSome task haddr h hsegs hn (framesSuffice_of_length hlen) fun i hi hnone =>
    hsrc i hi (Option.or_eq_none_iff.1 hnone).2

end

/-- The translations on the other machine. -/
theorem Loading.walk_other {root : Nat} {U : Set Nat} {fl₀ : List Nat}
    {w₀ : UInt64 → Option UInt64} {m₀ : Mem} {k k' : Kernel} {s : Layout} {c : Contents}
    (h : Loading root U fl₀ w₀ m₀ k k' s c) (hU : tableFrames k root ⊆ U) (w : UInt64) :
    Sbunix.walk k'.mem root w = ((s.frame (vpage w)).map pageEntry).or (w₀ w) :=
  (walk_of_tables (h.agree_tables hU) w).trans (h.walk w)

/-! ## The image -/

/-- Every byte of every segment is as in the file, and zero behind `p_filesz`. -/
def ImageRight (image : Mem) (addr : UInt64) (k : Kernel) : Prop :=
  ∀ ph ∈ programHeaders image addr, ph.pType = ptLoad → ∀ o < ph.pMemsz.toNat,
    loadByte (ph.pVaddr + UInt64.ofNat o) k = some (segmentByte image addr ph o)

theorem mem_range_offset {ph : Phdr} (h : ph.pVaddr.toNat + ph.pMemsz.toNat ≤ 2 ^ 47) {o : Nat}
    (ho : o < ph.pMemsz.toNat) : (ph.pVaddr + UInt64.ofNat o).toNat = ph.pVaddr.toNat + o ∧
      ph.pVaddr.toNat + o ∈ ph.range := by
  exact ⟨toNat_add_ofNat (by omega), Nat.le_add_right _ _, by omega⟩

theorem ne_add_one (b : UInt8) : b ≠ b + 1 := by
  intro h
  have hval := congrArg UInt8.toNat h
  rw [UInt8.toNat_add] at hval
  have h1 : (1 : UInt8).toNat = 1 := rfl
  omega

/-- When every byte of the segments is one from the file, they are whole. -/
theorem whole_of_isSome {image : Mem} {addr : UInt64} {phs : List Phdr} (hsegs : UserSegments phs)
    (hbyte : ∀ ph ∈ phs, ph.pType = ptLoad → ∀ a ∈ ph.range,
      (elfContents image addr phs a).isSome) : Whole phs := by
  intro pre ph post hphs hload hne
  have hph : ph ∈ phs := by simp [hphs]
  have hcontents : ∀ a ∈ ph.range, (ph.Copied ∧ a < ph.pVaddr.toNat + ph.pFilesz.toNat) ∧
      ¬ TailPage (a / 4096) ∧ ∀ ph' ∈ post, ¬ ph'.Touches (a / 4096) := by
    intro a ha
    obtain ⟨b, hb⟩ := Option.isSome_iff_exists.1 (hbyte ph hph hload a ha)
    obtain ⟨⟨hcopied, hreach, -⟩, hfree⟩ := (contents_segment hsegs hphs hload ha).1 hb
    exact ⟨⟨hcopied, hreach⟩, hfree⟩
  obtain ⟨a₀, ha₀⟩ := hne
  refine ⟨(hcontents a₀ ha₀).1.1, ?_, fun a ha => (hcontents a ha).2⟩
  obtain ⟨hlo, hhi⟩ := ha₀
  have hlast : ph.pVaddr.toNat + (ph.pMemsz.toNat - 1) ∈ ph.range :=
    (mem_range_offset (hsegs.user ph hph hload) (by omega)).2
  have hreach := (hcontents _ hlast).1.2
  have hle := UInt64.le_iff_toNat_le.1 (hsegs.filesz ph hph hload)
  refine UInt64.toNat_inj.1 ?_
  omega

/-- The bytes of whole segments. -/
theorem Whole.contents {image : Mem} {addr : UInt64} {phs : List Phdr} {ph : Phdr} {o : Nat}
    (h : Whole phs) (hsegs : UserSegments phs) (hph : ph ∈ phs) (hload : ph.pType = ptLoad)
    (ho : o < ph.pMemsz.toNat) :
    elfContents image addr phs (ph.pVaddr.toNat + o) = some (segmentByte image addr ph o) := by
  obtain ⟨pre, post, hphs⟩ := List.append_of_mem hph
  obtain ⟨-, hmem⟩ := mem_range_offset (hsegs.user ph hph hload) ho
  obtain ⟨hcopied, hsize, hfree⟩ := h pre ph post hphs hload ⟨_, hmem⟩
  have hfile : o < ph.pFilesz.toNat := hsize ▸ ho
  refine (contents_segment hsegs hphs hload hmem).2 ⟨⟨hcopied, by omega, ?_⟩, hfree _ hmem⟩
  rw [segmentByte, if_pos hfile, Nat.add_sub_cancel_left]

/-! ## Programs with one segment -/

/-- A file at `0x1000` in the kernel's image with one program header. -/
def elfFile (entry flags offset vaddr filesz memsz : UInt64) : Mem := ofEntries fun f i =>
  if f = 1 then
    [0, 0, 0, entry, 64, 0, 0, 1, 1 + flags * 2 ^ 32, offset, vaddr, 0, filesz, memsz].getD i 0
  else 0

/-- A machine with an empty PML4 in frame 1 and thirty free frames. -/
def loaderKernel : Kernel :=
  Kernel.pop { mem := fun _ => 0, frames := pageInit 4096 32 Frames.zero, pml4 := 0, cr3 := 4096 }

theorem addressSpace_loaderKernel : AddressSpace loaderKernel 1 (List.range' 2 30) where
  cr3 := rfl
  paging := paging_blank (freeFrames_pageInit 4096 (n := 32) (by decide)) fun _ _ _ _ => rfl

/-- A program with the text at `0x400000`. -/
def textFile : Mem := elfFile 0x400000 5 0 0x400000 112 112

/-- A program with eight bytes of data and eight bytes of bss at `0x600c58`. -/
def bssFile : Mem := elfFile 0x600c58 6 0 0x600c58 8 16

theorem programHeaders_textFile :
    programHeaders textFile 0x1000 = [⟨1, 5, 0, 0x400000, 112, 112⟩] := by decide

theorem programHeaders_bssFile :
    programHeaders bssFile 0x1000 = [⟨1, 6, 0, 0x600c58, 8, 16⟩] := by decide

theorem inUserSpace_singleton {ph : Phdr} (hbound : ph.pVaddr.toNat + ph.pMemsz.toNat ≤ 2 ^ 47)
    (hfilesz : ph.pFilesz ≤ ph.pMemsz) : InUserSpace [ph] where
  user _ hph' _ := List.mem_singleton.1 hph' ▸ hbound
  filesz _ hph' _ := List.mem_singleton.1 hph' ▸ hfilesz

theorem inUserSpace_textFile : InUserSpace (programHeaders textFile 0x1000) := by
  rw [programHeaders_textFile]
  exact inUserSpace_singleton (by decide) (by decide)

end Sbunix
