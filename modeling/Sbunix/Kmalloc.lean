import Sbunix.Paging

/-!
# Multi-page requests

`kmalloc` calls `page_alloc` once for every page of the request and returns the address of the first
one, as if the others followed it. Whether they do depends on the order of the free list, which
`page_dealloc` changes, and on its length: the first call is not checked for `NULL`, the results
of the others are not looked at.

`allocRun_frameRun` reduces a run with `kmalloc` to one of `page_alloc` and `page_dealloc`, so
the ownership invariant holds in it. `kmalloc_owned_iff` compares the frames of the request with
those taken off the list.
-/

namespace Sbunix

open Lib

/-! ## The calls of `page_alloc` -/

/-- The state after one call of `page_alloc`. -/
def pop (a : Frames) : Frames := (pageAlloc a).2

/-- The number of frames that `[base, base + size)` meets when `base` is a page. -/
def requestFrames (size : UInt64) : Nat := (size.toNat + 4095) / 4096

/-- The number of calls of `page_alloc` in `kmalloc`. -/
def kmallocCalls (size : UInt64) : Nat :=
  if 0 < size then
    let cnt : Int := ((size / 4096).toNat : Int).bmod (2 ^ 32) + if 0 < size % 4096 then 1 else 0
    (cnt - 1).toNat + 1
  else 0

theorem kmallocCalls_eq {size : UInt64} (hpos : 0 < size) (h : requestFrames size < 2 ^ 31) :
    kmallocCalls size = requestFrames size := by
  have h4096 : (4096 : UInt64).toNat = 4096 := rfl
  have hsize : 0 < size.toNat := UInt64.lt_iff_toNat_lt.1 hpos
  have hrem : 0 < size % 4096 ↔ 0 < size.toNat % 4096 := by
    rw [UInt64.lt_iff_toNat_lt, UInt64.toNat_mod, h4096]
    rfl
  unfold requestFrames at h ⊢
  have hbmod : ((size.toNat / 4096 : Nat) : Int).bmod (2 ^ 32) = (size.toNat / 4096 : Nat) := by
    apply Int.bmod_eq_of_le
    · omega
    · omega
  unfold kmallocCalls
  rw [if_pos hpos]
  simp only [UInt64.toNat_div, h4096, hbmod, hrem]
  split_ifs <;> omega

section

variable {a : Frames} {free : List Nat}

theorem chain_pop (h : Chain a.next a.freeList free) :
    (pop a).pages = a.pages ∧ Chain (pop a).next (pop a).freeList free.tail := by
  unfold pop
  rw [pageAlloc_of_chain h]
  refine ⟨rfl, ?_⟩
  cases free with
  | nil => rfl
  | cons p free =>
    obtain ⟨-, hnext⟩ := h
    cases free with
    | nil => rfl
    | cons q free => exact ⟨rfl, hnext.2⟩

theorem chain_pops (h : Chain a.next a.freeList free) (c : Nat) :
    (pop^[c] a).pages = a.pages ∧ Chain (pop^[c] a).next (pop^[c] a).freeList (free.drop c) := by
  induction c with
  | zero => exact ⟨rfl, h⟩
  | succ c ih =>
    rw [Function.iterate_succ_apply', ← List.tail_drop]
    obtain ⟨hpages, hchain⟩ := ih
    obtain ⟨hpages', hchain'⟩ := chain_pop hchain
    exact ⟨hpages'.trans hpages, hchain'⟩

end

/-- `kmalloc` fails when there is no frame at all, and takes as many as there are otherwise. -/
theorem kmalloc_eq {size : UInt64} (hpos : 0 < size) (k : Kernel) :
    kmalloc size k = (pageAlloc k.frames).1.map fun p =>
      ((k.frames.pages p).addr, { k with frames := pop^[kmallocCalls size] k.frames }) := by
  unfold kmalloc kmallocCalls
  rw [if_pos hpos, if_pos hpos, Function.iterate_succ_apply]
  unfold Kernel.pageAllocAddr
  have hfold : ∀ (f : Frames → Frames) (c : Nat) (a : Frames),
      (List.range c).foldl (fun a _ => f a) a = f^[c] a := by
    intro f c a
    rw [List.foldl_const, List.length_range]
  cases hp : k.frames.freeList with
  | none => simp [pageAlloc, hp]
  | some p => simp [pageAlloc, hp, pop, ← hfold]

/-! ## Runs -/

/-- A call of a client of the allocator, `kmalloc` included. -/
inductive AllocOp
  | page (op : FrameOp)
  | kmalloc (size : UInt64)
deriving DecidableEq

/-- A call, on the kernel and the outstanding pages. A `kmalloc` that meets the end of the list at
once dereferences `NULL` and is not part of a run; the pages of the others are outstanding
afterwards. -/
def allocStep (s : Kernel × List Nat) : AllocOp → Option (Kernel × List Nat)
  | .page op => (frameStep (s.1.frames, s.2) op).map fun t => ({ s.1 with frames := t.1 }, t.2)
  | .kmalloc size => do
    let (_, k) ← kmalloc size s.1
    let (_, out) ← frameRun (s.1.frames, s.2) (List.replicate (kmallocCalls size) .alloc)
    some (k, out)

def allocRun (s : Kernel × List Nat) (ops : List AllocOp) : Option (Kernel × List Nat) :=
  ops.foldlM allocStep s

theorem frameStep_alloc (a : Frames) (out : List Nat) :
    ∃ out', frameStep (a, out) .alloc = some (pop a, out') := by
  unfold frameStep pop
  cases hp : a.freeList with
  | none => exact ⟨out, by simp [pageAlloc, hp]⟩
  | some p => exact ⟨p :: out, by simp [pageAlloc, hp]⟩

theorem frameRun_allocs (a : Frames) (out : List Nat) (c : Nat) :
    ∃ out', frameRun (a, out) (List.replicate c .alloc) = some (pop^[c] a, out') := by
  induction c generalizing a out with
  | zero => exact ⟨out, rfl⟩
  | succ c ih =>
    obtain ⟨out₁, hstep⟩ := frameStep_alloc a out
    obtain ⟨out₂, hrun⟩ := ih (pop a) out₁
    refine ⟨out₂, ?_⟩
    rw [List.replicate_succ, frameRun, List.foldlM_cons, hstep]
    exact hrun

/-- What one call does to the allocator, calls of `page_alloc` and `page_dealloc` do. -/
theorem allocStep_frameRun {s s' : Kernel × List Nat} {op : AllocOp}
    (h : allocStep s op = some s') :
    ∃ ops, frameRun (s.1.frames, s.2) ops = some (s'.1.frames, s'.2) := by
  cases op with
  | page op =>
    obtain ⟨t, ht, rfl⟩ := Option.map_eq_some_iff.1 h
    refine ⟨[op], ?_⟩
    rw [frameRun, List.foldlM_cons, ht]
    rfl
  | kmalloc size =>
    obtain ⟨⟨base, k⟩, hk, hrest⟩ := Option.bind_eq_some_iff.1 h
    obtain ⟨⟨a, out⟩, hrun, hs'⟩ := Option.bind_eq_some_iff.1 hrest
    obtain rfl := Option.some.inj hs'
    refine ⟨List.replicate (kmallocCalls size) .alloc, ?_⟩
    obtain ⟨out', hpops⟩ := frameRun_allocs s.1.frames s.2 (kmallocCalls size)
    have hk' : k.frames = pop^[kmallocCalls size] s.1.frames := by
      by_cases hpos : 0 < size
      · rw [kmalloc_eq hpos] at hk
        obtain ⟨p, -, hp⟩ := Option.map_eq_some_iff.1 hk
        obtain ⟨-, rfl⟩ := Prod.mk.inj hp
        rfl
      · rw [kmalloc, if_neg hpos] at hk
        obtain ⟨-, rfl⟩ := Prod.mk.inj (Option.some.inj hk)
        rw [kmallocCalls, if_neg hpos]
        rfl
    obtain ⟨-, rfl⟩ := Prod.mk.inj (Option.some.inj (hpops.symm.trans hrun))
    rw [hpops, hk']

/-- A run with `kmalloc` is one of `page_alloc` and `page_dealloc`. -/
theorem allocRun_frameRun {s s' : Kernel × List Nat} {ops : List AllocOp}
    (h : allocRun s ops = some s') :
    ∃ ops', frameRun (s.1.frames, s.2) ops' = some (s'.1.frames, s'.2) := by
  induction ops generalizing s with
  | nil =>
    obtain rfl := Option.some.inj h
    exact ⟨[], rfl⟩
  | cons op ops ih =>
    obtain ⟨s₁, hstep, hrun⟩ := Option.bind_eq_some_iff.1 h
    obtain ⟨ops₁, h₁⟩ := allocStep_frameRun hstep
    obtain ⟨ops₂, h₂⟩ := ih hrun
    refine ⟨ops₁ ++ ops₂, ?_⟩
    rw [frameRun, List.foldlM_append]
    exact (Option.bind_eq_some_iff).2 ⟨_, h₁, h₂⟩

/-- The addresses in the descriptors never change. -/
theorem frameStep_addr {s s' : Frames × List Nat} {op : FrameOp} (h : frameStep s op = some s')
    (i : Nat) : (s'.1.pages i).addr = (s.1.pages i).addr := by
  cases op with
  | alloc =>
    obtain ⟨out', hpop⟩ := frameStep_alloc s.1 s.2
    obtain rfl := Option.some.inj (hpop.symm.trans h)
    unfold pop pageAlloc
    cases s.1.freeList <;> rfl
  | dealloc p =>
    simp only [frameStep] at h
    split_ifs at h
    obtain rfl := Option.some.inj h
    simp only [pageDealloc, Frames.modify_pages]
    split_ifs <;> rfl

theorem frameRun_addr {s s' : Frames × List Nat} {ops : List FrameOp}
    (h : frameRun s ops = some s') (i : Nat) : (s'.1.pages i).addr = (s.1.pages i).addr := by
  induction ops generalizing s with
  | nil =>
    obtain rfl := Option.some.inj h
    rfl
  | cons op ops ih =>
    obtain ⟨s₁, hstep, hrun⟩ := Option.bind_eq_some_iff.1 h
    exact (ih hrun).trans (frameStep_addr hstep i)

/-! ## Owned and contiguous -/

/-- `kmalloc` returns 0 and leaves the free list as it was, or a base such that it took every frame
that meets `[base, base + size)` off the list. -/
def KmallocOwned (k : Kernel) (free : List Nat) (size : UInt64) : Prop :=
  ∃ base k' free', kmalloc size k = some (base, k') ∧
    Chain k'.frames.next k'.frames.freeList free' ∧
    (base = 0 ∧ free' = free ∨
      ∀ f, base.toNat < 4096 * (f + 1) → 4096 * f < base.toNat + size.toNat →
        f ∈ free ∧ f ∉ free')

/-- The list starts with the frames of the request, in any order, from the first one on. -/
def Contiguous (free : List Nat) (size : UInt64) : Prop :=
  ∃ p, free.head? = some p ∧
    ∀ i, p ≤ i → i < p + requestFrames size → i ∈ free.take (requestFrames size)

theorem requestFrames_spec {size : UInt64} (p i : Nat) :
    4096 * p < 4096 * (i + 1) ∧ 4096 * i < 4096 * p + size.toNat ↔
      p ≤ i ∧ i < p + requestFrames size := by
  unfold requestFrames
  omega

theorem kmallocOwned_iff {k : Kernel} {free : List Nat} {size : UInt64}
    (hchain : Chain k.frames.next k.frames.freeList free)
    (haddr : ∀ p ∈ free, (k.frames.pages p).addr.toNat = 4096 * p)
    (hlt : ∀ p ∈ free, p + 1 < 2 ^ 31)
    (hpos : 0 < size) : KmallocOwned k free size ↔ Contiguous free size := by
  have hcalls : 0 < kmallocCalls size := by
    rw [kmallocCalls, if_pos hpos]
    exact Nat.succ_pos _
  have hrequest : 0 < requestFrames size := by
    have : 0 < size.toNat := UInt64.lt_iff_toNat_lt.1 hpos
    unfold requestFrames
    omega
  -- A request that fits the frames there are is small enough for an `int`.
  have hsmall : ∀ p, (∀ i, p ≤ i → i < p + requestFrames size → i ∈ free) →
      kmallocCalls size = requestFrames size := by
    intro p hall
    have := hlt _ (hall (p + requestFrames size - 1) (by omega) (by omega))
    exact kmallocCalls_eq hpos (by omega)
  unfold KmallocOwned Contiguous
  rw [kmalloc_eq hpos, pageAlloc_of_chain hchain]
  obtain ⟨-, hdrop⟩ := chain_pops hchain (kmallocCalls size)
  cases free with
  | nil => simp
  | cons p rest =>
    have hp := haddr p (by simp)
    simp only [List.head?_cons, Option.map_some, Option.some.injEq, Prod.mk.injEq]
    constructor
    · rintro ⟨base, k', free', ⟨rfl, rfl⟩, hchain', hcase⟩
      obtain rfl := hdrop.unique hchain'
      refine ⟨p, rfl, ?_⟩
      rcases hcase with ⟨-, hsame⟩ | htaken
      · have hlen := congrArg List.length hsame
        rw [List.length_drop, List.length_cons] at hlen
        omega
      · rw [hp] at htaken
        have hmem : ∀ i, p ≤ i → i < p + requestFrames size →
            i ∈ p :: rest ∧ i ∉ (p :: rest).drop (kmallocCalls size) := by
          intro i hlo hhi
          obtain ⟨h₁, h₂⟩ := (requestFrames_spec p i).2 ⟨hlo, hhi⟩
          exact htaken i h₁ h₂
        rw [← hsmall p fun i hlo hhi => (hmem i hlo hhi).1]
        intro i hlo hhi
        rw [hsmall p fun i hlo hhi => (hmem i hlo hhi).1] at hhi
        obtain ⟨hin, hout⟩ := hmem i hlo hhi
        rw [← List.take_append_drop (kmallocCalls size) (p :: rest), List.mem_append] at hin
        exact hin.resolve_right hout
    · rintro ⟨q, rfl, htake⟩
      have hcount := hsmall p fun i hlo hhi => List.mem_of_mem_take (htake i hlo hhi)
      refine ⟨_, _, _, ⟨rfl, rfl⟩, hdrop, Or.inr ?_⟩
      rw [hp]
      intro f h₁ h₂
      obtain ⟨hlo, hhi⟩ := (requestFrames_spec p f).1 ⟨h₁, h₂⟩
      have hf := htake f hlo hhi
      rw [← hcount] at hf
      exact ⟨List.mem_of_mem_take hf, fun hd =>
        List.disjoint_take_drop hchain.nodup (Nat.le_refl _) hf hd⟩

/-- What a run from `page_init` on keeps. -/
theorem allocRun_pageInit {physfree : UInt64} {n : Nat} {k₀ k : Kernel} {ops : List AllocOp}
    {out : List Nat} (hn : n < 2 ^ 31) (hinit : k₀.frames = pageInit physfree n Frames.zero)
    (hrun : allocRun (k₀, []) ops = some (k, out)) :
    ∃ free, Owns (fun i => (pageInitMemory physfree n).toNat ≤ i ∧ i < n) k.frames free out ∧
      ∀ p ∈ free, (k.frames.pages p).addr.toNat = 4096 * p ∧ p + 1 < 2 ^ 31 := by
  obtain ⟨ops', hrun'⟩ := allocRun_frameRun hrun
  simp only [hinit] at hrun'
  obtain ⟨free, howns⟩ := owns_run (owns_pageInit physfree n) hrun'
  refine ⟨free, howns, ?_⟩
  intro p hp
  have hpn : p < n := ((howns.mem p).1 (List.mem_append_left _ hp)).2
  refine ⟨?_, by omega⟩
  rw [frameRun_addr hrun' p, pageInit_addr physfree hpn, toNat_ofNat_of_lt (by omega), Nat.mul_comm]

/-- **Owned contiguous memory.** After `page_init` and any run of calls, `kmalloc` returns memory of
its own exactly when the free list starts with the frames of the request. -/
theorem kmalloc_owned_iff (physfree : UInt64) (n : Nat) (k₀ k : Kernel) (ops : List AllocOp)
    (out : List Nat) (size : UInt64) (hn : n < 2 ^ 31)
    (hinit : k₀.frames = pageInit physfree n Frames.zero)
    (hrun : allocRun (k₀, []) ops = some (k, out)) (hpos : 0 < size) :
    ∃ free, Chain k.frames.next k.frames.freeList free ∧
      (KmallocOwned k free size ↔ Contiguous free size) := by
  obtain ⟨free, howns, haddr⟩ := allocRun_pageInit hn hinit hrun
  exact ⟨free, howns.chain, kmallocOwned_iff howns.chain (fun p hp => (haddr p hp).1)
    (fun p hp => (haddr p hp).2) hpos⟩

/-- Eight pages, the first of them reserved. -/
def eightPages : Kernel := ⟨fun _ => 0, pageInit 4096 8 Frames.zero, 0x1000, 0x1000⟩

/-- Two pages for a task, from the list as `page_init` built it. -/
theorem kmalloc_owned_in_order :
    ∃ k, allocRun (eightPages, []) [.page .alloc] = some (k, [1]) ∧
      ∃ free, Chain k.frames.next k.frames.freeList free ∧ KmallocOwned k free 4456 := by
  refine ⟨_, rfl, ?_⟩
  obtain ⟨free, hchain, hiff⟩ :=
    kmalloc_owned_iff 4096 8 eightPages _ [.page .alloc] [1] 4456 (by decide) rfl rfl (by decide)
  have hfree : free = [2, 3, 4, 5, 6, 7] :=
    hchain.unique ⟨rfl, rfl, rfl, rfl, rfl, rfl, rfl⟩
  refine ⟨free, hchain, hiff.2 ⟨2, by rw [hfree]; rfl, ?_⟩⟩
  intro i hlo hhi
  have hrequest : requestFrames 4456 = 2 := rfl
  rw [hrequest] at hhi ⊢
  rw [hfree]
  simp only [List.take_succ_cons, List.take_zero, List.mem_cons, List.not_mem_nil, or_false]
  omega

/-- Page 1 was given back while page 2 is in use: the two pages for a task are 1 and 3. -/
theorem kmalloc_not_contiguous :
    ∃ k, allocRun (eightPages, []) [.page .alloc, .page .alloc, .page (.dealloc 1)] =
        some (k, [2]) ∧
      ∀ free, Chain k.frames.next k.frames.freeList free → ¬ KmallocOwned k free 4456 := by
  refine ⟨_, rfl, ?_⟩
  intro free hchain howned
  have hfree : free = [1, 3, 4, 5, 6, 7] :=
    hchain.unique ⟨rfl, rfl, rfl, rfl, rfl, rfl, rfl⟩
  subst hfree
  obtain ⟨p, hp, htake⟩ := (kmallocOwned_iff hchain (by decide) (by decide) (by decide)).1 howned
  obtain rfl := Option.some.inj hp
  exact absurd (htake 2 (by decide) (by decide)) (by decide)

end Sbunix
