import Sbunix.Frames
import Sbunix.Lib.Intervals
import Sbunix.Lib.Run

/-!
# The memory map

`start` passes over the memory map that the loader hands over and keeps one number, the end of the
last entry of available memory. `page_init` puts all frames below it on the free list.

`startMaxMem_eq` says which entry counts. `real_memory_iff` says for which maps all these frames are
available memory.
-/

namespace Sbunix

open Lib

/-- `struct smap_t`. -/
structure SmapEntry where
  base : UInt64
  length : UInt64
  type : UInt32
deriving DecidableEq

namespace SmapEntry

/-- The test in the loop of `start`. -/
def Available (smap : SmapEntry) : Prop := smap.type = 1 ∧ smap.length ≠ 0

instance (smap : SmapEntry) : Decidable smap.Available := inferInstanceAs (Decidable (_ ∧ _))

/-- The end of the entry in pages, as the `int` that `max_mem` gets. -/
def maxMem (smap : SmapEntry) : Int :=
  Int.bmod ((smap.base + smap.length) / 4096).toNat (2 ^ 32)

/-- The end of the entry. -/
def stop (smap : SmapEntry) : Nat := smap.base.toNat + smap.length.toNat

/-- The bytes of the entry. -/
def bytes (smap : SmapEntry) : Set Nat := Set.Ico smap.base.toNat smap.stop

end SmapEntry

/-- The loop of `start`, with `max_mem` from 0 on. -/
def startMaxMem (smaps : List SmapEntry) : Int :=
  smaps.foldl (fun maxMem smap => if smap.Available then smap.maxMem else maxMem) 0

/-- `start` up to the end of `page_init`. A negative number of pages is one of `size_t` that no
array reaches. -/
def startFrames (smaps : List SmapEntry) (physfree : UInt64) : Except Fault Frames :=
  if 0 ≤ startMaxMem smaps then .ok (pageInit physfree (startMaxMem smaps).toNat .zero)
  else .error .outOfBounds

/-- The frame at the address lies in an entry of type 1. -/
def InRealMemory (smaps : List SmapEntry) (addr : UInt64) : Prop :=
  ∃ e ∈ smaps, e.type = 1 ∧ e.base.toNat ≤ addr.toNat ∧ addr.toNat + 4096 ≤ e.stop

/-- `start` builds a free list, and all of its frames are real memory. -/
def OnlyRealMemory (smaps : List SmapEntry) (physfree : UInt64) : Prop :=
  ∃ a, startFrames smaps physfree = .ok a ∧ ∀ free, Chain a.next a.freeList free →
    ∀ i ∈ free, InRealMemory smaps (a.pages i).addr

/-- The last entry of available memory, in the order of the map. -/
def lastAvailable (smaps : List SmapEntry) : Option SmapEntry :=
  (smaps.filter (·.Available)).getLast?

/-- The pages below the end of the entry, as the 32 bits of an `int`. -/
def SmapEntry.pages (smap : SmapEntry) : Nat := ((smap.base + smap.length) / 4096).toNat % 2 ^ 32

/-- Between the reserved pages and the end of the entry, all is available memory, and no entry of it
starts inside of a page. -/
structure WholeMemory (smaps : List SmapEntry) (physfree : UInt64) (last : SmapEntry) : Prop where
  pages_lt : last.pages < 2 ^ 31
  covered : Set.Ico (4096 * (pageInitMemory physfree last.pages).toNat) (4096 * last.pages) ⊆
    ⋃ e ∈ {e | e ∈ smaps ∧ e.Available}, e.bytes
  aligned : ∀ e ∈ smaps, e.Available →
    4096 * (pageInitMemory physfree last.pages).toNat < e.base.toNat →
    e.base.toNat < 4096 * last.pages → 4096 ∣ e.base.toNat

section

variable {smaps : List SmapEntry} {physfree : UInt64} {e last : SmapEntry}

/-- A loop that keeps the value of the last element with a property. -/
theorem foldl_keep {α β : Type*} (p : α → Prop) [DecidablePred p] (f : α → β) (l : List α) (b : β) :
    l.foldl (fun b a => if p a then f a else b) b = (((l.filter p).getLast?).map f).getD b := by
  induction l using List.reverseRecOn with
  | nil => rfl
  | append_singleton l a ih =>
    rw [List.foldl_concat, List.filter_append]
    by_cases ha : p a
    · rw [if_pos ha, List.filter_singleton]
      simp [ha]
    · rw [if_neg ha, ih, List.filter_singleton]
      simp [ha]

theorem startMaxMem_eq (smaps : List SmapEntry) :
    startMaxMem smaps = ((lastAvailable smaps).map SmapEntry.maxMem).getD 0 :=
  foldl_keep SmapEntry.Available SmapEntry.maxMem smaps 0

/-- A number that is stored in an `int`. -/
theorem bmod_natCast (n : Nat) : Int.bmod n (2 ^ 32) =
    if n % 2 ^ 32 < 2 ^ 31 then ((n % 2 ^ 32 : Nat) : Int) else (n % 2 ^ 32 : Nat) - 2 ^ 32 := by
  have hmod : (n : Int) % ((2 ^ 32 : Nat) : Int) = ((n % 2 ^ 32 : Nat) : Int) :=
    (Int.natCast_mod n _).symm
  rw [Int.bmod_def, hmod]
  generalize n % 2 ^ 32 = m
  by_cases hlow : m < 2 ^ 31
  · rw [if_pos hlow, if_pos (by norm_num; omega)]
  · rw [if_neg hlow, if_neg (by norm_num; omega)]
    norm_num

theorem maxMem_eq (smap : SmapEntry) :
    smap.maxMem = if smap.pages < 2 ^ 31 then (smap.pages : Int) else smap.pages - 2 ^ 32 :=
  bmod_natCast _

theorem pages_lt (smap : SmapEntry) : smap.pages < 2 ^ 32 := Nat.mod_lt _ (by norm_num)

theorem startFrames_none (h : lastAvailable smaps = none) (physfree : UInt64) :
    startFrames smaps physfree = .ok (pageInit physfree 0 .zero) := by
  have hzero : startMaxMem smaps = 0 := by
    rw [startMaxMem_eq, h, Option.map_none, Option.getD_none]
  rw [startFrames, hzero, if_pos le_rfl, Int.toNat_zero]

theorem startFrames_some (h : lastAvailable smaps = some last) (physfree : UInt64) :
    startFrames smaps physfree =
      if last.pages < 2 ^ 31 then .ok (pageInit physfree last.pages .zero)
      else .error .outOfBounds := by
  have hmax : startMaxMem smaps = last.maxMem := by
    rw [startMaxMem_eq, h, Option.map_some, Option.getD_some]
  have hlt := pages_lt last
  rw [startFrames, hmax, maxMem_eq]
  generalize last.pages = n at *
  by_cases hlow : n < 2 ^ 31
  · rw [if_pos hlow, if_pos hlow, if_pos (Int.natCast_nonneg n), Int.toNat_natCast]
  · rw [if_neg hlow, if_neg hlow, if_neg (by omega)]

theorem SmapEntry.Available.base_lt_stop (h : e.Available) : e.base.toNat < e.stop := by
  have hpos : e.length.toNat ≠ 0 := fun hzero => h.2 (UInt64.toNat_inj.1 hzero)
  unfold SmapEntry.stop
  omega

theorem available_of_le {addr : UInt64} (htype : e.type = 1)
    (hlow : e.base.toNat ≤ addr.toNat) (hhigh : addr.toNat + 4096 ≤ e.stop) : e.Available := by
  refine ⟨htype, fun hzero => ?_⟩
  rw [SmapEntry.stop, hzero] at hhigh
  have : (0 : UInt64).toNat = 0 := rfl
  omega

theorem pairwise_disjoint_of_sorted
    (h : smaps.Pairwise fun e e' => e.stop ≤ e'.base.toNat) :
    smaps.Pairwise fun e e' => Disjoint e.bytes e'.bytes := by
  refine h.imp fun {e e'} hle => Set.disjoint_left.2 fun x hx hx' => ?_
  exact absurd (hx.2.trans_le hle) (not_lt.2 hx'.1)

/-- The frames on the list that `page_init` builds are cells of a grid. -/
theorem frames_inside_iff {n : Nat} (hn : n < 2 ^ 31) :
    (∀ free, Chain (pageInit physfree n .zero).next (pageInit physfree n .zero).freeList free →
      ∀ i ∈ free, InRealMemory smaps ((pageInit physfree n .zero).pages i).addr) ↔
      ∀ k, (pageInitMemory physfree n).toNat ≤ k → k < n →
        ∃ e ∈ {e | e ∈ smaps ∧ e.Available},
          Set.Ico (4096 * k) (4096 * (k + 1)) ⊆ Set.Ico e.base.toNat e.stop := by
  have haddr : ∀ k < n, ((pageInit physfree n .zero).pages k).addr.toNat = 4096 * k := by
    intro k hk
    rw [pageInit_addr physfree hk, UInt64.toNat_ofNat']
    omega
  have hinside : ∀ k < n, InRealMemory smaps ((pageInit physfree n .zero).pages k).addr ↔
      ∃ e ∈ {e | e ∈ smaps ∧ e.Available},
        Set.Ico (4096 * k) (4096 * (k + 1)) ⊆ Set.Ico e.base.toNat e.stop := by
    intro k hk
    have hcell : 4096 * k < 4096 * (k + 1) := by omega
    constructor
    · rintro ⟨e, he, htype, hlow, hhigh⟩
      have havailable := available_of_le htype hlow hhigh
      rw [haddr k hk] at hlow hhigh
      exact ⟨e, ⟨he, havailable⟩, Set.Ico_subset_Ico hlow (by omega)⟩
    · rintro ⟨e, ⟨he, havailable⟩, hsub⟩
      obtain ⟨hlow, hhigh⟩ := (Set.Ico_subset_Ico_iff hcell).1 hsub
      refine ⟨e, he, havailable.1, ?_, ?_⟩
      · rwa [haddr k hk]
      · rw [haddr k hk]
        omega
  constructor
  · intro h k hlow hk
    exact (hinside k hk).1 (h _ (chain_pageInit physfree n) k (mem_initFree.2 ⟨hlow, hk⟩))
  · intro h free hfree i hi
    rw [hfree.unique (chain_pageInit physfree n), mem_initFree] at hi
    exact (hinside i hi.2).2 (h i hi.1 hi.2)

/-- **Only real memory.** For a map without overlaps all frames that `page_init` puts on the free
list are available memory if and only if the map has no such memory, or the memory up to the end of
its last entry is whole. -/
theorem real_memory_iff (hdisj : smaps.Pairwise fun e e' => Disjoint e.bytes e'.bytes) :
    OnlyRealMemory smaps physfree ↔
      ∀ last, lastAvailable smaps = some last → WholeMemory smaps physfree last := by
  have hset : {e | e ∈ smaps ∧ e.Available}.PairwiseDisjoint
      fun e => Set.Ico e.base.toNat e.stop := by
    intro e he e' he' hne
    have hsymm : Std.Symm fun e e' : SmapEntry => Disjoint e.bytes e'.bytes :=
      ⟨fun _ _ h => h.symm⟩
    exact hdisj.forall he.1 he'.1 hne
  unfold OnlyRealMemory
  cases hlast : lastAvailable smaps with
  | none =>
    rw [startFrames_none hlast]
    refine iff_of_true ⟨_, rfl, fun free hfree i hi => ?_⟩ (by simp)
    rw [hfree.unique (chain_pageInit physfree 0), mem_initFree] at hi
    exact absurd hi.2 (Nat.not_lt_zero i)
  | some last =>
    rw [startFrames_some hlast]
    simp only [Option.some.injEq, forall_eq']
    by_cases hpages : last.pages < 2 ^ 31
    · rw [if_pos hpages]
      simp only [Except.ok.injEq, exists_eq_left']
      rw [frames_inside_iff hpages, grid_inside_iff (by norm_num) hset]
      constructor
      · rintro ⟨hcovered, haligned⟩
        exact ⟨hpages, hcovered, fun e he havailable =>
          haligned e ⟨he, havailable⟩ havailable.base_lt_stop⟩
      · intro h
        exact ⟨h.covered, fun e he _ => h.aligned e he.1 he.2⟩
    · rw [if_neg hpages]
      exact iff_of_false (by simp) fun h => hpages h.pages_lt

end

/-- The map of a machine with 128 MiB. -/
def smallMap : List SmapEntry :=
  [⟨0, 0x9fc00, 1⟩, ⟨0x9fc00, 0x60400, 2⟩, ⟨0x100000, 0x7ee0000, 1⟩, ⟨0x7fe0000, 0x20000, 2⟩]

/-- On a machine with 128 MiB all frames are real memory. -/
theorem real_memory_small : OnlyRealMemory smallMap 0x300000 := by
  refine (real_memory_iff (pairwise_disjoint_of_sorted (by decide))).2 fun last h => ?_
  have hlast : lastAvailable smallMap = some ⟨0x100000, 0x7ee0000, 1⟩ := by decide
  obtain rfl := Option.some.inj (hlast.symm.trans h)
  have hpages : SmapEntry.pages ⟨0x100000, 0x7ee0000, 1⟩ = 32736 := by decide
  have hmemory : (pageInitMemory 0x300000 32736).toNat = 831 := by decide
  refine ⟨by rw [hpages]; norm_num, ?_, by decide⟩
  rw [hpages, hmemory]
  intro x hx
  refine Set.mem_biUnion (show _ ∧ SmapEntry.Available ⟨0x100000, 0x7ee0000, 1⟩ by decide) ?_
  have hstop : SmapEntry.stop ⟨0x100000, 0x7ee0000, 1⟩ = 4096 * 32736 := rfl
  exact ⟨le_trans (by decide) hx.1, hstop ▸ hx.2⟩

/-- The map of a machine with 4 GiB, with the hole of the devices below 4 GiB. -/
def largeMap : List SmapEntry := [⟨0x100000, 0xbfee0000, 1⟩, ⟨0x100000000, 0x40000000, 1⟩]

/-- On a machine with 4 GiB the frames of the hole are on the free list. -/
theorem real_memory_hole : (largeMap.Pairwise fun e e' => Disjoint e.bytes e'.bytes) ∧
    ¬ OnlyRealMemory largeMap 0x300000 := by
  refine ⟨pairwise_disjoint_of_sorted (by decide), ?_⟩
  have hlast : lastAvailable largeMap = some ⟨0x100000000, 0x40000000, 1⟩ := by decide
  have hpages : SmapEntry.pages ⟨0x100000000, 0x40000000, 1⟩ = 1310720 := by decide
  have hmemory : (pageInitMemory 0x300000 1310720).toNat = 3328 := by decide
  rintro ⟨a, ha, hfree⟩
  rw [startFrames_some hlast, hpages, if_pos (by norm_num), Except.ok.injEq] at ha
  subst ha
  obtain ⟨e, ⟨he, -⟩, hsub⟩ :=
    (frames_inside_iff (by norm_num)).1 hfree 0xc0000 (by rw [hmemory]; norm_num) (by norm_num)
  obtain ⟨hlow, hhigh⟩ := (Set.Ico_subset_Ico_iff (by norm_num)).1 hsub
  rcases List.mem_pair.1 he with rfl | rfl
  · exact absurd hhigh (by decide)
  · exact absurd hlow (by decide)

end Sbunix
