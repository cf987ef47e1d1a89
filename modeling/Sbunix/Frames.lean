import Mathlib
import Sbunix.Lib.Chain

/-!
# The physical page allocator

`sys/phymap.c` keeps one descriptor (`struct Page`) for every 4 KiB frame, in an array at
`physfree`, and threads a free list through the descriptors. `page_init` builds the list,
`page_alloc` pops it and `page_dealloc` pushes onto it.

The array is an object of its own here, indexed by frame number, and a `struct Page *` into it
is that index; `NULL` is `none`. Where the array lies in physical memory is the subject of
`metadata_safe_iff`.

* `Owns` is the ownership invariant: the free list ends, and the free and the outstanding pages
  together are exactly the pages from the first unreserved one on, each once.
* `owns_pageInit` and `owns_step` establish and keep it; `frame_ownership` is the run.
* `metadata_safe_iff` compares the free list with the bytes of the array itself.
-/

namespace Sbunix

open Lib

/-! ## The allocator -/

/-- `struct Page`. -/
structure Page where
  next : Option Nat
  referCnt : Int
  addr : UInt64
deriving DecidableEq

/-- `sizeof(struct Page)`: a pointer, an `int` padded to eight bytes, and a `uint64_t`. -/
def sizeofPage : Nat := 24

/-- `sizeof(struct Page *)`. -/
def sizeofPagePtr : UInt64 := 8

/-- The allocator's globals: the descriptor array `pages` and `free_list`. -/
structure Frames where
  pages : Nat → Page
  freeList : Option Nat

namespace Frames

/-- Change one descriptor. -/
def modify (a : Frames) (i : Nat) (f : Page → Page) : Frames :=
  { a with pages := Function.update a.pages i (f (a.pages i)) }

/-- The `next` field of a descriptor. -/
def next (a : Frames) (i : Nat) : Option Nat := (a.pages i).next

theorem modify_pages (a : Frames) (i j : Nat) (f : Page → Page) :
    (a.modify i f).pages j = if j = i then f (a.pages j) else a.pages j := by
  unfold modify
  by_cases h : j = i
  · subst h; simp
  · simp [h]

/-- The globals before `page_init`: a zero-filled array and a `NULL` list. -/
def zero : Frames := ⟨fun _ => ⟨none, 0, 0⟩, none⟩

end Frames

/-- `memory`, the number of pages `page_init` keeps back: `physfree` plus one *pointer* per page,
in pages, computed in `size_t`. -/
def pageInitMemory (physfree : UInt64) (noofpages : Nat) : UInt64 :=
  (physfree + UInt64.ofNat noofpages * sizeofPagePtr) / 4096

/-- One iteration of `page_init`'s loop, on the array and `prevPtr`. The descriptor of an
unreserved page is linked behind the previous one; its own `next` is left as it was. -/
def pageInitStep (memory : UInt64) (s : Frames × Option Nat) (i : Nat) : Frames × Option Nat :=
  let a := s.1.modify i fun p => { p with addr := UInt64.ofNat (i * 4096) }
  if i < memory.toNat then
    (a.modify i fun p => { p with referCnt := 1, next := none }, s.2)
  else
    let a := a.modify i fun p => { p with referCnt := 0 }
    match s.2 with
    | some q => (a.modify q fun p => { p with next := some i }, some i)
    | none => ({ a with freeList := some i }, some i)

/-- `page_init`. -/
def pageInit (physfree : UInt64) (noofpages : Nat) (a : Frames) : Frames :=
  ((List.range noofpages).foldl (pageInitStep (pageInitMemory physfree noofpages)) (a, none)).1

/-- `page_alloc`. -/
def pageAlloc (a : Frames) : Option Nat × Frames :=
  match a.freeList with
  | none => (none, a)
  | some p => (some p, { a with freeList := a.next p })

/-- `page_dealloc`. -/
def pageDealloc (a : Frames) (ptr : Nat) : Frames :=
  { a.modify ptr fun p => { p with next := a.freeList } with freeList := some ptr }

theorem pageDealloc_next (a : Frames) (ptr i : Nat) :
    (pageDealloc a ptr).next i = if i = ptr then a.freeList else a.next i := by
  unfold pageDealloc Frames.next
  simp only [Frames.modify_pages]
  split_ifs <;> rfl

/-! ## What `page_init` builds -/

theorem pageInitStep_addr (memory : UInt64) (s : Frames × Option Nat) (i j : Nat) :
    ((pageInitStep memory s i).1.pages j).addr =
      if j = i then UInt64.ofNat (i * 4096) else (s.1.pages j).addr := by
  unfold pageInitStep
  dsimp only
  split
  · simp only [Frames.modify_pages]
    split_ifs <;> rfl
  · split <;> simp only [Frames.modify_pages] <;> split_ifs <;> rfl

theorem pageInitStep_next (memory : UInt64) (s : Frames × Option Nat) (i j : Nat) :
    (pageInitStep memory s i).1.next j =
      if i < memory.toNat then if j = i then none else s.1.next j
      else if s.2 = some j then some i else s.1.next j := by
  unfold pageInitStep Frames.next
  dsimp only
  split
  · simp only [Frames.modify_pages]
    split_ifs <;> rfl
  · split
    · rename_i q hq
      simp only [Frames.modify_pages, hq, Option.some.injEq, @eq_comm _ q j]
      split_ifs <;> rfl
    · rename_i hq
      simp only [Frames.modify_pages, hq]
      split_ifs <;> simp_all

theorem pageInitStep_prev (memory : UInt64) (s : Frames × Option Nat) (i : Nat) :
    (pageInitStep memory s i).2 = if i < memory.toNat then s.2 else some i := by
  unfold pageInitStep
  dsimp only
  split_ifs
  · rfl
  · split <;> rfl

theorem pageInitStep_head (memory : UInt64) (s : Frames × Option Nat) (i : Nat) :
    (pageInitStep memory s i).1.freeList =
      if ¬ i < memory.toNat ∧ s.2 = none then some i else s.1.freeList := by
  unfold pageInitStep
  dsimp only
  split_ifs with hm hp hp
  · exact absurd hm hp.1
  · rfl
  · simp [hp.2]
  · split
    · rfl
    · simp_all

/-- The state after `k` iterations from a zero-filled array, with `t` pages reserved. -/
structure InitUpTo (t k : Nat) (s : Frames × Option Nat) : Prop where
  addr : ∀ i < k, (s.1.pages i).addr = UInt64.ofNat (i * 4096)
  prev : s.2 = if t < k then some (k - 1) else none
  head : s.1.freeList = if t < k then some t else none
  linked : ∀ i, t ≤ i → i + 1 < k → s.1.next i = some (i + 1)
  last : ∀ i, k ≤ i + 1 → s.1.next i = none

theorem initUpTo_zero (t : Nat) : InitUpTo t 0 (Frames.zero, none) :=
  ⟨by simp, by simp, by simp [Frames.zero], by simp, fun _ _ => rfl⟩

theorem initUpTo_step {memory : UInt64} {k : Nat} {s : Frames × Option Nat}
    (h : InitUpTo memory.toNat k s) : InitUpTo memory.toNat (k + 1) (pageInitStep memory s k) := by
  constructor
  · intro i hi
    rw [pageInitStep_addr]
    split_ifs with hik
    · rw [hik]
    · exact h.addr i (by omega)
  · rw [pageInitStep_prev, h.prev]
    split_ifs <;> first | rfl | omega
  · rw [pageInitStep_head, h.prev, h.head]
    by_cases hlt : memory.toNat < k
    · have hlt' : memory.toNat < k + 1 := by omega
      simp [hlt, hlt']
    · by_cases hk : memory.toNat = k
      · simp [hk]
      · have hlt' : ¬ memory.toNat < k + 1 := by omega
        simp [hlt, hlt']
        omega
  · intro i hi hik
    rw [pageInitStep_next, h.prev]
    have hk : ¬ k < memory.toNat := by omega
    have hlt : memory.toNat < k := by omega
    simp only [hk, hlt, if_true, if_false, Option.some.injEq]
    split_ifs with hk'
    · rw [← hk']
      congr 1
      omega
    · exact h.linked i hi (by omega)
  · intro i hi
    rw [pageInitStep_next, h.prev]
    have hlast : s.1.next i = none := h.last i (by omega)
    by_cases hlt : memory.toNat < k
    · have hne : k - 1 ≠ i := by omega
      simp [hlt, hne, hlast]
    · simp [hlt, hlast]

theorem initUpTo_range (memory : UInt64) (k : Nat) :
    InitUpTo memory.toNat k ((List.range k).foldl (pageInitStep memory) (Frames.zero, none)) := by
  induction k with
  | zero => exact initUpTo_zero _
  | succ k ih =>
    rw [List.range_succ, List.foldl_append]
    exact initUpTo_step ih

/-- A run of consecutive descriptors, each linked to the next and the last to nothing. -/
theorem chain_consecutive {next : Nat → Option Nat} {n : Nat} :
    ∀ {t : Nat}, (∀ i, t ≤ i → i + 1 < t + n → next i = some (i + 1)) →
      (0 < n → next (t + n - 1) = none) →
      Chain next (if 0 < n then some t else none) (List.range' t n) := by
  induction n with
  | zero => intro t _ _; simp
  | succ n ih =>
    intro t hlinked hlast
    simp only [Nat.succ_pos, if_true, List.range'_succ]
    refine ⟨rfl, ?_⟩
    have hnext : next t = if 0 < n then some (t + 1) else none := by
      by_cases hn : 0 < n
      · simp only [hn, if_true]
        exact hlinked t (Nat.le_refl t) (by omega)
      · obtain rfl : n = 0 := by omega
        simpa using hlast (by omega)
    rw [hnext]
    refine ih (fun i hi hin => hlinked i (by omega) (by omega)) ?_
    intro hn
    have := hlast (by omega)
    rwa [show t + 1 + n - 1 = t + (n + 1) - 1 by omega]

/-- The pages `page_init` puts on the free list. -/
def initFree (physfree : UInt64) (noofpages : Nat) : List Nat :=
  let t := (pageInitMemory physfree noofpages).toNat
  List.range' t (noofpages - t)

theorem mem_initFree {physfree : UInt64} {n i : Nat} :
    i ∈ initFree physfree n ↔ (pageInitMemory physfree n).toNat ≤ i ∧ i < n := by
  simp only [initFree, List.mem_range'_1]
  omega

theorem chain_pageInit (physfree : UInt64) (n : Nat) :
    Chain (pageInit physfree n Frames.zero).next (pageInit physfree n Frames.zero).freeList
      (initFree physfree n) := by
  obtain ⟨-, -, hhead, hlinked, hlast⟩ := initUpTo_range (pageInitMemory physfree n) n
  set t := (pageInitMemory physfree n).toNat
  have hpos : (0 < n - t) ↔ t < n := by omega
  unfold pageInit
  rw [hhead]
  simp only [← hpos]
  exact chain_consecutive (fun i hi hin => hlinked i hi (by omega)) fun hn => hlast _ (by omega)

theorem pageInit_addr (physfree : UInt64) {n i : Nat} (hi : i < n) :
    ((pageInit physfree n Frames.zero).pages i).addr = UInt64.ofNat (i * 4096) :=
  (initUpTo_range (pageInitMemory physfree n) n).addr i hi

/-! ## Ownership -/

/-- The free list is `free`, and `free` and the outstanding pages `out` together are exactly the
pages of `all`, each once. -/
structure Owns (all : Nat → Prop) (a : Frames) (free out : List Nat) : Prop where
  chain : Chain a.next a.freeList free
  nodup : (free ++ out).Nodup
  mem : ∀ i, i ∈ free ++ out ↔ all i

/-- A call of a client of the allocator. -/
inductive FrameOp
  | alloc
  | dealloc (ptr : Nat)
deriving DecidableEq

/-- A call, on the allocator and the outstanding pages. A client gives back only pages it was
given and has not given back since; other calls are not part of a run. -/
def frameStep (s : Frames × List Nat) : FrameOp → Option (Frames × List Nat)
  | .alloc =>
    match pageAlloc s.1 with
    | (none, a) => some (a, s.2)
    | (some p, a) => some (a, p :: s.2)
  | .dealloc p => if p ∈ s.2 then some (pageDealloc s.1 p, s.2.erase p) else none

/-- A run of calls. -/
def frameRun (s : Frames × List Nat) (ops : List FrameOp) : Option (Frames × List Nat) :=
  ops.foldlM frameStep s

theorem owns_pageInit (physfree : UInt64) (n : Nat) :
    Owns (fun i => (pageInitMemory physfree n).toNat ≤ i ∧ i < n)
      (pageInit physfree n Frames.zero) (initFree physfree n) [] where
  chain := chain_pageInit physfree n
  nodup := by
    rw [List.append_nil]
    exact (chain_pageInit physfree n).nodup
  mem i := by rw [List.append_nil, mem_initFree]

section Steps

variable {all : Nat → Prop} {a : Frames} {free out : List Nat}

/-- `page_alloc` on a list that is known: `NULL` when it is empty, its head otherwise. -/
theorem pageAlloc_of_chain (h : Chain a.next a.freeList free) :
    pageAlloc a = (free.head?, { a with freeList := free.tail.head? }) := by
  unfold pageAlloc
  cases free with
  | nil =>
    rw [Chain.nil_iff] at h
    cases a
    simp_all
  | cons p l =>
    obtain ⟨hp, hl⟩ := h
    simp only [hp, List.head?_cons, List.tail_cons, Prod.mk.injEq, true_and]
    cases l with
    | nil => rw [Chain.nil_iff] at hl; simp [hl]
    | cons q l => simp [hl.1]

theorem pageAlloc_eq_none_iff (h : Chain a.next a.freeList free) :
    (pageAlloc a).1 = none ↔ free = [] := by
  rw [pageAlloc_of_chain h]
  exact List.head?_eq_none_iff

theorem owns_alloc {p : Nat} (h : Owns all a (p :: free) out) :
    Owns all (pageAlloc a).2 free (p :: out) := by
  have hperm : (free ++ p :: out).Perm (p :: free ++ out) := List.perm_middle
  refine ⟨?_, hperm.nodup_iff.2 h.nodup, fun i => hperm.mem_iff.trans (h.mem i)⟩
  obtain ⟨hp, hl⟩ := h.chain
  unfold pageAlloc
  simp only [hp]
  exact hl

theorem owns_dealloc {p : Nat} (h : Owns all a free out) (hp : p ∈ out) :
    Owns all (pageDealloc a p) (p :: free) (out.erase p) := by
  have hperm : (p :: free ++ out.erase p).Perm (free ++ out) :=
    List.perm_middle.symm.trans ((List.perm_cons_erase hp).symm.append_left free)
  refine ⟨⟨rfl, ?_⟩, hperm.nodup_iff.2 h.nodup, fun i => hperm.mem_iff.trans (h.mem i)⟩
  have hpf : p ∉ free := fun hf => (List.nodup_append.1 h.nodup).2.2 p hf p hp rfl
  rw [pageDealloc_next, if_pos rfl]
  refine h.chain.congr ?_
  intro b hb
  have hbp : b ≠ p := fun hbp => hpf (hbp ▸ hb)
  rw [pageDealloc_next, if_neg hbp]

theorem owns_step {s : Frames × List Nat} {op : FrameOp}
    (h : Owns all a free out) (hs : frameStep (a, out) op = some s) :
    ∃ free', Owns all s.1 free' s.2 := by
  cases op with
  | alloc =>
    cases free with
    | nil =>
      have hnil : a.freeList = none := h.chain
      simp only [frameStep, pageAlloc, hnil, Option.some.injEq] at hs
      subst hs
      exact ⟨[], h⟩
    | cons p free =>
      have hp : a.freeList = some p := h.chain.1
      have := owns_alloc h
      simp only [pageAlloc, hp] at this
      simp only [frameStep, pageAlloc, hp, Option.some.injEq] at hs
      subst hs
      exact ⟨free, this⟩
  | dealloc p =>
    simp only [frameStep] at hs
    split at hs
    · rename_i hp
      simp only [Option.some.injEq] at hs
      subst hs
      exact ⟨p :: free, owns_dealloc h hp⟩
    · exact absurd hs (by simp)

theorem owns_run {s : Frames × List Nat} {ops : List FrameOp}
    (h : Owns all a free out) (hs : frameRun (a, out) ops = some s) :
    ∃ free', Owns all s.1 free' s.2 := by
  induction ops generalizing a free out with
  | nil =>
    simp only [frameRun, List.foldlM_nil, Option.pure_def, Option.some.injEq] at hs
    subst hs
    exact ⟨free, h⟩
  | cons op ops ih =>
    simp only [frameRun, List.foldlM_cons, Option.bind_eq_bind, Option.bind_eq_some_iff] at hs
    obtain ⟨⟨a', out'⟩, hstep, hrun⟩ := hs
    obtain ⟨free', h'⟩ := owns_step h hstep
    exact ih h' hrun

end Steps

/-- **Frame ownership.** After `page_init` and any run of calls, the free list ends and has no
repeats, the free and the outstanding pages partition the pages from the first unreserved one
on, `page_alloc` returns `NULL` exactly when no page is free, and the page it returns otherwise
is not outstanding. -/
theorem frame_ownership (physfree : UInt64) (n : Nat) (ops : List FrameOp) (a : Frames)
    (out : List Nat) (h : frameRun (pageInit physfree n Frames.zero, []) ops = some (a, out)) :
    ∃ free, Chain a.next a.freeList free ∧ free.Nodup ∧ out.Nodup ∧
      (∀ i ∈ free, i ∉ out) ∧
      (∀ i, i ∈ free ∨ i ∈ out ↔
        ((physfree + UInt64.ofNat n * 8) / 4096).toNat ≤ i ∧ i < n) ∧
      ((pageAlloc a).1 = none ↔ free = []) ∧
      ∀ p, (pageAlloc a).1 = some p → p ∈ free ∧ p ∉ out := by
  obtain ⟨free, hchain, hnodup, hmem⟩ := owns_run (owns_pageInit physfree n) h
  obtain ⟨hfree, hout, hdisj⟩ := List.nodup_append.1 hnodup
  have hsep : ∀ i ∈ free, i ∉ out := fun i hf ho => hdisj i hf i ho rfl
  refine ⟨free, hchain, hfree, hout, hsep, ?_, pageAlloc_eq_none_iff hchain, ?_⟩
  · intro i
    rw [← List.mem_append]
    exact hmem i
  · intro p hp
    rw [pageAlloc_of_chain hchain] at hp
    have hpf : p ∈ free := List.mem_of_head? hp
    exact ⟨hpf, hsep p hpf⟩

/-- Four calls on a machine of four pages, the first of them reserved. -/
theorem frame_ownership_four_pages :
    ∃ a free, frameRun (pageInit 4096 4 Frames.zero, []) [.alloc, .alloc, .dealloc 1, .alloc] =
        some (a, [1, 2]) ∧
      Chain a.next a.freeList free ∧ ∀ i, i ∈ free ∨ i ∈ [1, 2] ↔ 1 ≤ i ∧ i < 4 := by
  obtain ⟨free, hchain, -, -, -, hmem, -⟩ :=
    frame_ownership 4096 4 [.alloc, .alloc, .dealloc 1, .alloc] _ [1, 2] rfl
  exact ⟨_, free, rfl, hchain, hmem⟩

/-! ## The descriptor array itself -/

/-- The bytes of the frame at `addr`. -/
def InFrame (addr : UInt64) (x : Nat) : Prop := addr.toNat ≤ x ∧ x < addr.toNat + 4096

/-- A byte of the loader's memory `[0, physfree)`, or of the array `pages[0..n)` that
`mem_alloc` places at `physfree`. -/
def InMetadata (physfree : UInt64) (n x : Nat) : Prop :=
  x < physfree.toNat ∨ physfree.toNat ≤ x ∧ x < physfree.toNat + n * sizeofPage

/-- No frame on the list `page_init` builds meets the allocator's own bytes. -/
def FreeListSafe (physfree : UInt64) (n : Nat) : Prop :=
  ∀ free, Chain (pageInit physfree n Frames.zero).next
      (pageInit physfree n Frames.zero).freeList free →
    ∀ i ∈ free, ∀ x, InFrame ((pageInit physfree n Frames.zero).pages i).addr x →
      ¬ InMetadata physfree n x

/-- Nor does any frame that `page_alloc` returns later. -/
def ReturnedSafe (physfree : UInt64) (n : Nat) : Prop :=
  ∀ ops a out p, frameRun (pageInit physfree n Frames.zero, []) ops = some (a, out) →
    (pageAlloc a).1 = some p → ∀ x, InFrame (a.pages p).addr x → ¬ InMetadata physfree n x

/-- The reservation counts eight bytes for each page, so it never reaches past them. -/
theorem pageInitMemory_le (physfree : UInt64) (n : Nat) :
    (pageInitMemory physfree n).toNat * 4096 ≤ physfree.toNat + n * 8 := by
  have h1 : (physfree.toNat + n * 8) % 2 ^ 64 ≤ physfree.toNat + n * 8 := Nat.mod_le _ _
  simp only [pageInitMemory, sizeofPagePtr, UInt64.toNat_div, UInt64.toNat_add, UInt64.toNat_mul,
    UInt64.toNat_ofNat', UInt64.reduceToNat]
  omega

/-- The first free frame starts before the array ends. -/
theorem not_freeListSafe {physfree : UInt64} {n : Nat} (hn : n < 2 ^ 31)
    (hlt : (pageInitMemory physfree n).toNat < n) : ¬ FreeListSafe physfree n := by
  intro hsafe
  set t := (pageInitMemory physfree n).toNat with ht
  have hmem : t ∈ initFree physfree n := mem_initFree.2 ⟨Nat.le_refl _, hlt⟩
  have hframe : InFrame ((pageInit physfree n Frames.zero).pages t).addr (t * 4096) := by
    rw [pageInit_addr physfree hlt, InFrame,
      UInt64.toNat_ofNat_of_lt' (by change _ < 2 ^ 64; omega)]
    omega
  refine hsafe _ (chain_pageInit physfree n) t hmem _ hframe ?_
  have hle := pageInitMemory_le physfree n
  rw [← ht] at hle
  simp only [InMetadata, sizeofPage]
  omega

/-- **The reservation is too small.** The first free frame always overlaps the descriptor array,
which takes 24 bytes for each page and not 8; so the allocator keeps off its own metadata
exactly when it has nothing to hand out. -/
theorem metadata_safe_iff (physfree : UInt64) (n : Nat) (hn : n < 2 ^ 31) :
    FreeListSafe physfree n ∧ ReturnedSafe physfree n ↔
      n ≤ ((physfree + UInt64.ofNat n * 8) / 4096).toNat := by
  change _ ↔ n ≤ (pageInitMemory physfree n).toNat
  constructor
  · rintro ⟨hsafe, -⟩
    by_contra hlt
    exact not_freeListSafe hn (by omega) hsafe
  · intro hle
    constructor
    · intro free hchain i hi
      rw [hchain.unique (chain_pageInit physfree n), mem_initFree] at hi
      omega
    · intro ops a out p hrun hp
      obtain ⟨free, hchain, -, hmem⟩ := owns_run (owns_pageInit physfree n) hrun
      rw [pageAlloc_of_chain hchain] at hp
      have := (hmem p).1 (List.mem_append_left _ (List.mem_of_head? hp))
      omega

theorem metadata_safe_iff_no_pages :
    FreeListSafe 0x300000 256 ∧ ReturnedSafe 0x300000 256 :=
  (metadata_safe_iff 0x300000 256 (by decide)).2 (by decide)

/-- On a 16 MiB machine with `physfree` at 3 MiB, frame `0x308000` is the head of the free list
and holds the descriptors of pages 1365 to 1535. -/
theorem metadata_handed_out : ¬ (FreeListSafe 0x300000 4096 ∧ ReturnedSafe 0x300000 4096) :=
  fun h => not_freeListSafe (by decide) (by decide) h.1

end Sbunix
