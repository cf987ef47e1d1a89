import Sbunix.Paging

/-!
# One address space

An address space is a function from pages to PT entries. `mapProcess_spec` says that a call
`map_process(v, p)` updates this function at the page of `v` and nowhere else, and keeps the
tables a tree of distinct frames outside the free list; `address_translation` carries this
through any sequence of calls.
-/

namespace Sbunix

open Lib Lib.Radix

/-- The page of a virtual address. The hardware translates its low 48 bits. -/
def vpage (v : UInt64) : Nat := v.toNat % 2 ^ 48 / 4096

/-- The tables reachable from `CR3`, in frame `root`, form a tree of distinct frames beside the
blank free frames `fl`. -/
structure AddressSpace (k : Kernel) (root : Nat) (fl : List Nat) : Prop where
  cr3 : k.cr3.toNat = 4096 * root
  paging : Paging allPaths {root} k fl

/-- A sequence of `map_process` calls `(v, p)`. -/
def mapProcesses (k : Kernel) (calls : List (UInt64 × UInt64)) : Option Kernel :=
  calls.foldlM (fun k c => mapProcess c.1 c.2 k) k

/-- The address given for the page of `w` by the last call made for it. -/
def lastFor (w : UInt64) : List (UInt64 × UInt64) → Option UInt64
  | [] => none
  | c :: calls => (lastFor w calls).or (if vpage c.1 = vpage w then some c.2 else none)

theorem lastFor_mem {w p : UInt64} {calls : List (UInt64 × UInt64)}
    (h : lastFor w calls = some p) : ∃ c ∈ calls, vpage c.1 = vpage w ∧ c.2 = p := by
  induction calls with
  | nil => cases h
  | cons c calls ih =>
    rw [lastFor] at h
    cases hrest : lastFor w calls with
    | some q =>
      rw [hrest, Option.some_or] at h
      obtain ⟨d, hd, hpage⟩ := ih (hrest.trans h)
      exact ⟨d, List.mem_cons_of_mem _ hd, hpage⟩
    | none =>
      rw [hrest, Option.none_or] at h
      split_ifs at h with hpage
      exact ⟨c, List.mem_cons_self, hpage, Option.some.inj h⟩

theorem lastFor_isSome {w : UInt64} {calls : List (UInt64 × UInt64)} {c : UInt64 × UInt64}
    (hc : c ∈ calls) (hpage : vpage c.1 = vpage w) : ∃ p, lastFor w calls = some p := by
  induction calls with
  | nil => cases hc
  | cons d calls ih =>
    rw [lastFor]
    cases hrest : lastFor w calls with
    | some q => exact ⟨q, rfl⟩
    | none =>
      rcases List.mem_cons.1 hc with rfl | hmem
      · rw [if_pos hpage]
        exact ⟨c.2, rfl⟩
      · obtain ⟨p, hp⟩ := ih hmem
        cases hrest.symm.trans hp

/-! ## Free frames and blank tables -/

theorem freeFrames_pageInit (physfree : UInt64) {n : Nat} (hn : n < 2 ^ 31) :
    FreeFrames (pageInit physfree n Frames.zero) (initFree physfree n) where
  chain := by
    refine ⟨_, chain_pageInit physfree n, List.map_congr_left ?_⟩
    intro i hi
    have hi' := (mem_initFree.1 hi).2
    rw [pageInit_addr physfree hi', toNat_ofNat_of_lt (by omega), Nat.mul_comm]
  nodup := (chain_pageInit physfree n).nodup

theorem below_of_zeroPage {k : Kernel} {root : Nat} (h : ZeroPage k.mem root) (i : Fin 512) :
    k.below root i = none := (blank_of_zeroPage h).next i

theorem walk_of_zeroPage {k : Kernel} {root : Nat} (h : ZeroPage k.mem root) (v : UInt64) :
    walk k.mem root v = none := by
  have htab : tableAt pte (entry k.mem) root (path v) = none := by
    rw [tableAt_blank (below_of_zeroPage h)]
    rfl
  rw [walk, leafAt, htab]
  rfl

/-- A zero-filled PML4 outside the free list is an empty address space. -/
theorem paging_blank {S : Set (List (Fin 512))} {k : Kernel} {root : Nat} {fl : List Nat}
    (hfree : FreeFrames k.frames (root :: fl)) (hzero : ∀ f ∈ root :: fl, ZeroPage k.mem f) :
    Paging S {root} k.pop fl := by
  have hblank : ∀ j, next pte (entry k.mem) root j = none :=
    below_of_zeroPage (hzero root (by simp))
  obtain ⟨-, -, -, hpop⟩ := hfree.pageAllocAddr_cons
  have hempty : Forest pte (entry k.mem) S (∅ : Set Nat) := ⟨by simp, by simp⟩
  have hroot : root ∉ fl := (List.nodup_cons.1 hfree.nodup).1
  refine ⟨?_, hpop, ?_, fun f hf => blank_of_zeroPage (hzero f (by simp [hf]))⟩
  · have := hempty.insert (f := root) (fun r hr => absurd hr (by simp)) hblank
    rwa [insert_empty_eq] at this
  · intro f hf r hr q _
    obtain rfl : r = root := hr
    show tableAt pte (entry k.mem) r q ≠ some f
    rw [tableAt_blank hblank]
    split_ifs
    · exact fun h => hroot (Option.some.inj h ▸ hf)
    · simp

/-! ## One call -/

theorem walk_congr (m : Mem) (r : Nat) {v w : UInt64} (h : vpage v = vpage w) :
    walk m r v = walk m r w := by
  obtain ⟨hpath, hslot⟩ := same_page_iff.2 h
  rw [walk, walk, hpath, hslot]

section

variable {k k' : Kernel} {root : Nat} {fl : List Nat}

/-- In an address space, a PT is reached by the path of one page only. -/
theorem walk_update {S : Set (List (Fin 512))} {R : Set Nat} {fl' : List Nat} {v e : UInt64}
    {t : Nat} (hmax : ∀ w i, path w ++ [i] ∉ S) (hroot : root ∈ R) (hv : path v ∈ S)
    (hext : Extends S R root k k' fl fl') (ht : k'.table root (path v) = some t)
    (hleaf : ∀ {r q j}, r ∈ R → q ∈ S → (∀ j, q ++ [j] ∉ S) →
      k'.leaf r q j = if k'.table r q = some t ∧ j = ptSlot v then some e else k.leaf r q j) :
    walk k'.mem root v = some e ∧
      ∀ w, path w ∈ S → vpage w ≠ vpage v → walk k'.mem root w = walk k.mem root w := by
  have hw : ∀ w, path w ∈ S → walk k'.mem root w =
      if k'.table root (path w) = some t ∧ ptSlot w = ptSlot v then some e
      else walk k.mem root w := fun w hw => hleaf hroot hw (hmax w)
  refine ⟨by rw [hw v hv, if_pos ⟨ht, rfl⟩], ?_⟩
  intro w hmem hne
  rw [hw w hmem, if_neg]
  rintro ⟨ht', hslot⟩
  have hpath : path w = path v := hext.paging.forest.path_eq hroot hroot hmem hv ht' ht
  exact hne (same_page_iff.1 ⟨hpath, hslot⟩)

/-- One call of `map_process`: it fails for want of a frame, or it updates one page. -/
theorem mapProcess_spec (h : AddressSpace k root fl) (v p : UInt64) :
    mapProcess v p k = none ∧ fl.length < 3 ∨
      ∃ k' fl', mapProcess v p k = some k' ∧ AddressSpace k' root fl' ∧
        fl.length ≤ fl'.length + 3 ∧
        walk k'.mem root v = some (p ||| (pteP ||| pteW ||| pteU)) ∧
        ∀ w, vpage w ≠ vpage v → walk k'.mem root w = walk k.mem root w := by
  rcases mapPage_spec prefixClosed_allPaths h.paging (s := root) rfl h.cr3 (path_mem_allPaths v)
    (path_maximal v) p with hnone | ⟨k', fl', t, hsome, hext, hlen, ht, hleaf⟩
  · exact Or.inl hnone
  · obtain ⟨hsame, hother⟩ := walk_update path_maximal (Set.mem_singleton root)
      (path_mem_allPaths v) hext ht hleaf
    exact Or.inr ⟨k', fl', hsome, ⟨hext.cr3 ▸ h.cr3, hext.paging⟩, hlen, hsame,
      fun w => hother w (path_mem_allPaths w)⟩

/-! ## Sequences of calls -/

/-- The translation after a sequence of calls, and the invariant. -/
theorem mapProcesses_spec (h : AddressSpace k root fl) {calls : List (UInt64 × UInt64)}
    (hrun : mapProcesses k calls = some k') :
    (∃ fl', AddressSpace k' root fl') ∧ ∀ w, walk k'.mem root w =
      match lastFor w calls with
      | some p => some (p ||| (pteP ||| pteW ||| pteU))
      | none => walk k.mem root w := by
  induction calls generalizing k fl with
  | nil =>
    obtain rfl : k = k' := by simpa [mapProcesses] using hrun
    exact ⟨⟨fl, h⟩, fun w => rfl⟩
  | cons c calls ih =>
    simp only [mapProcesses, List.foldlM_cons, Option.bind_eq_bind,
      Option.bind_eq_some_iff] at hrun
    obtain ⟨k₁, hstep, hrest⟩ := hrun
    rcases mapProcess_spec h c.1 c.2 with ⟨hnone, -⟩ | ⟨k₁', fl₁, hsome, h₁, -, hself, hother⟩
    · exact absurd (hnone.symm.trans hstep) (by simp)
    obtain rfl : k₁' = k₁ := Option.some.inj (hsome.symm.trans hstep)
    obtain ⟨hinv, hwalk⟩ := ih h₁ hrest
    refine ⟨hinv, ?_⟩
    intro w
    rw [hwalk w, lastFor]
    cases lastFor w calls with
    | some p => rfl
    | none =>
      by_cases hpage : vpage c.1 = vpage w
      · -- The first call is the last one for this page.
        have hw : walk k₁'.mem root w = walk k₁'.mem root c.1 := by
          obtain ⟨hpath, hslot⟩ := same_page_iff.2 hpage
          rw [walk, walk, hpath, hslot]
        simp only [hpage, if_true, Option.none_or]
        rw [hw, hself]
      · simp only [hpage, if_false, Option.none_or]
        exact hother w (Ne.symm hpage)

theorem mapProcesses_isSome (h : AddressSpace k root fl) {calls : List (UInt64 × UInt64)}
    (hlen : 3 * calls.length ≤ fl.length) : ∃ k', mapProcesses k calls = some k' := by
  induction calls generalizing k fl with
  | nil => exact ⟨k, rfl⟩
  | cons c calls ih =>
    simp only [List.length_cons] at hlen
    rcases mapProcess_spec h c.1 c.2 with ⟨-, hlt⟩ | ⟨k₁, fl₁, hsome, h₁, hfl, -⟩
    · omega
    obtain ⟨k', hk'⟩ := ih h₁ (by omega)
    refine ⟨k', ?_⟩
    simpa only [mapProcesses, List.foldlM_cons, hsome, Option.bind_eq_bind, Option.bind_some]
      using hk'

end

/-- **Address translation.** One call with three free frames left maps the page of `v` to `p`,
keeps the translation of every other page and keeps the invariant. Hence, after any sequence
of calls for which the frames suffice, as three for each call do, each page translates to the
address of the last call made for it, and a page never named as it did before. -/
theorem address_translation (k : Kernel) (root : Nat) (fl : List Nat)
    (h : AddressSpace k root fl) :
    (∀ v p : UInt64, 3 ≤ fl.length → p.toNat % 4096 = 0 →
      ∃ k' fl', mapProcess v p k = some k' ∧
        walk k'.mem root v = some (p ||| (pteP ||| pteW ||| pteU)) ∧
        (∀ w, vpage w ≠ vpage v → walk k'.mem root w = walk k.mem root w) ∧
        AddressSpace k' root fl') ∧
    ∀ calls : List (UInt64 × UInt64),
      (3 * calls.length ≤ fl.length → ∃ k', mapProcesses k calls = some k') ∧
      ∀ k', mapProcesses k calls = some k' →
        (∃ fl', AddressSpace k' root fl') ∧ ∀ w, walk k'.mem root w =
          match lastFor w calls with
          | some p => some (p ||| (pteP ||| pteW ||| pteU))
          | none => walk k.mem root w := by
  refine ⟨?_, fun calls =>
    ⟨mapProcesses_isSome h, fun k' hrun => mapProcesses_spec h hrun⟩⟩
  intro v p hlen _
  rcases mapProcess_spec h v p with ⟨-, hlt⟩ | ⟨k', fl', hsome, h', -, hself, hother⟩
  · omega
  · exact ⟨k', fl', hsome, hself, hother, h'⟩

/-- An empty address space with its PML4 in frame 1 and three free frames. -/
def blankKernel : Kernel :=
  Kernel.pop { mem := fun _ => 0, frames := pageInit 4096 5 Frames.zero, pml4 := 0, cr3 := 4096 }

theorem addressSpace_blankKernel : AddressSpace blankKernel 1 [2, 3, 4] where
  cr3 := rfl
  paging := paging_blank (freeFrames_pageInit 4096 (n := 5) (by decide)) fun _ _ _ _ => rfl

theorem address_translation_blank :
    ∃ k' fl', mapProcess 0x400000 0x5000 blankKernel = some k' ∧
      walk k'.mem 1 0x400000 = some 0x5007 ∧
      (∀ w, vpage w ≠ vpage 0x400000 → walk k'.mem 1 w = walk blankKernel.mem 1 w) ∧
      AddressSpace k' 1 fl' :=
  (address_translation blankKernel 1 [2, 3, 4] addressSpace_blankKernel).1 0x400000 0x5000
    (by decide) (by decide)

end Sbunix
