import Sbunix.SystemCalls
import Sbunix.UserHeap

/-!
# What the user heap asks for

A request that no freed block serves goes through `block_request`. The number of pages is computed
in a `size_t`, a `ssize_t` and an `int` one after the other: it is large enough exactly for the
sizes below 8 TiB less a page and a header (`requests_enough_iff`).

The kernel has no case for `brk`, so that the call returns -1. `block_request` links and fills the
block before `malloc` tests the pointer, and it tests for `NULL`: no failure is reported as one
(`malloc_brk_fails`).
-/

namespace Sbunix

open Lib UserHeap MetaBlock

/-! ## The system call -/

/-- The cases of `syscall_caller`: `SYS_open`, `SYS_read`, `SYS_write`, `SYS_close`,
`SYS_listfiles`, `SYS_catfiles`, `SYS_echofiles`, `SYS_chdir`, `SYS_getcwd`, `SYS_fork`,
`SYS_execve`, `SYS_wait4`, `SYS_exit`, `SYS_changedir`, `SYS_listprocess` and
`SYS_killprocess`. -/
def syscallCases : List UInt64 := [2, 0, 1, 3, 16, 17, 18, 80, 79, 57, 59, 61, 60, 150, 7, 13]

/-- `syscall_caller`, where `handled` is what the cases do. -/
def syscallCaller (handled : SyscallParams → UInt64) (p : SyscallParams) : UInt64 :=
  if p.number ∈ syscallCases then handled p else -1

/-- What `brk` passes on, with `SYS_brk` and whatever is in the other two registers. -/
def brkParams (noOfPages : Int) (par2 par3 : UInt64) : SyscallParams :=
  ⟨12, UInt64.ofInt noOfPages, par2, par3⟩

/-- Every call of `brk` fails. -/
theorem brk_fails (handled : SyscallParams → UInt64) (noOfPages : Int) (par2 par3 : UInt64) :
    syscallCaller handled (brkParams noOfPages par2 par3) = -1 := by
  have hcase : (12 : UInt64) ∉ syscallCases := by decide
  exact if_neg hcase

section

variable {h h' : UserHeap} {new size p : UInt64} {l : List UInt64} {pages : Int}

/-! ## The number of pages -/

theorem noOfPages_le (inc : UInt64) : noOfPages inc ≤ 2 ^ 31 - 1 := by
  have hlt := Int.bmod_lt (x := inc.toInt64.toInt.tdiv 4096 + 1) (m := 2 ^ 32) (by norm_num)
  unfold noOfPages
  norm_num at hlt ⊢
  omega

theorem noOfPages_of_lt (hsize : size.toNat < 2 ^ 62) : noOfPages (headerSize + size) =
    (((32 + size.toNat) / 4096 + 1 : Nat) : Int).bmod (2 ^ 32) := by
  have hadd : (headerSize + size).toNat = 32 + size.toNat := by
    rw [UInt64.toNat_add]
    exact Nat.mod_eq_of_lt (by change 32 + size.toNat < 2 ^ 64; omega)
  have hint : (headerSize + size).toInt64.toInt = ((32 + size.toNat : Nat) : Int) := by
    change (headerSize + size).toBitVec.toInt = _
    rw [BitVec.toInt_eq_toNat_of_lt (by change 2 * (headerSize + size).toNat < 2 ^ 64; omega)]
    exact congrArg Nat.cast hadd
  rw [noOfPages, hint, Int.tdiv_eq_ediv_of_nonneg (by omega)]
  rfl

/-- The pages hold the block. -/
theorem enough_pages_iff (size : UInt64) :
    32 + (size.toNat : Int) ≤ 4096 * noOfPages (headerSize + size) ↔
      size.toNat < 2 ^ 43 - 4128 := by
  constructor
  · intro h
    have hle := noOfPages_le (headerSize + size)
    by_contra hge
    -- The largest `int` is the number of pages of one size only, and that one overflows.
    have hsize : size.toNat = 2 ^ 43 - 4128 := by omega
    rw [noOfPages_of_lt (by omega), hsize] at h
    norm_num [Int.bmod] at h
  · intro h
    have hpages : (((32 + size.toNat) / 4096 + 1 : Nat) : Int).bmod (2 ^ 32) =
        ((32 + size.toNat) / 4096 + 1 : Nat) := Int.bmod_eq_of_le (by omega) (by omega)
    rw [noOfPages_of_lt (by omega), hpages]
    omega

/-! ## The requests -/

theorem malloc_empty (hzero : h.headNode = 0) (hsize : size ≠ 0) (new : UInt64) :
    h.malloc new size = (h.blockRequest new 0 size).bind fun r =>
      if r.1 = 0 then .ok (0, r.2)
      else .ok (r.1 + headerSize, ⟨setPrevious r.2.mem r.1 0, r.1, r.2.regions⟩) := by
  rw [malloc, if_neg (by simpa using hsize), if_pos hzero]
  rfl

theorem malloc_append (hhead : h.headNode ≠ 0) (hsize : size ≠ 0) (new : UInt64) :
    h.malloc new size = (h.findFreedBlock h.headNode size).bind fun b =>
      if b.1 = 0 then (h.blockRequest new b.2 size).bind fun r =>
        if r.1 = 0 then .ok (0, r.2) else .ok (r.1 + headerSize, r.2)
      else .ok (b.1 + headerSize,
        { h with mem := setStatus (setMagicCode h.mem b.1 magicReall) b.1 alloc }) := by
  rw [malloc, if_neg (by simpa using hsize), if_neg hhead]
  cases h.findFreedBlock h.headNode size with
  | error e => rfl
  | ok b =>
    show (if b.1 = 0 then _ else _) = if b.1 = 0 then _ else _
    split_ifs
    · show (h.blockRequest new b.2 size >>= _) = _
      cases h.blockRequest new b.2 size <;> rfl
    · rfl

theorem blockRequest_null (h : UserHeap) (last size : UInt64) :
    h.blockRequest 0 last size = .error .nullDeref := rfl

/-- A request that comes back. -/
theorem blockRequest_ok {r : UInt64 × UserHeap} {last : UInt64}
    (hr : h.blockRequest new last size = .ok r) :
    r.2.regions = h.regions ++ [(new, noOfPages (headerSize + size))] := by
  by_cases hnew : new = 0
  · rw [hnew, blockRequest_null] at hr
    cases hr
  · rw [blockRequest_eq h hnew] at hr
    cases hr
    rfl

/-- A call requests nothing, or the pages for its size. -/
theorem malloc_regions (hmalloc : h.malloc new size = .ok (p, h')) :
    h'.regions = h.regions ∨
      h'.regions = h.regions ++ [(new, noOfPages (headerSize + size))] := by
  by_cases hsize : size = 0
  · rw [malloc, if_pos (by simp [hsize])] at hmalloc
    cases hmalloc
    exact Or.inl rfl
  · by_cases hhead : h.headNode = 0
    · rw [malloc_empty hhead hsize] at hmalloc
      obtain ⟨r, hr, hmalloc⟩ := bind_eq_ok.1 hmalloc
      rw [← blockRequest_ok hr]
      split_ifs at hmalloc <;> cases hmalloc <;> exact Or.inr rfl
    · rw [malloc_append hhead hsize] at hmalloc
      obtain ⟨b, -, hmalloc⟩ := bind_eq_ok.1 hmalloc
      split_ifs at hmalloc
      · obtain ⟨r, hr, hmalloc⟩ := bind_eq_ok.1 hmalloc
        rw [← blockRequest_ok hr]
        split_ifs at hmalloc <;> cases hmalloc <;> exact Or.inr rfl
      · cases hmalloc
        exact Or.inl rfl

/-- The first call, with an answer. -/
theorem malloc_first (hhead : h.headNode = 0) (hsize : size ≠ 0) (hnew : new ≠ 0) :
    h.malloc new size = .ok (new + headerSize,
      ⟨setPrevious (requested h.mem new 0 size) new 0, new,
        h.regions ++ [(new, noOfPages (headerSize + size))]⟩) := by
  rw [malloc_empty hhead hsize, blockRequest_eq h hnew]
  exact if_neg hnew

/-- What is asked of a request: that the pages hold header and payload, unless the call fails. -/
def RequestsEnough (size : UInt64) : Prop :=
  ∀ (h : UserHeap) (new p : UInt64) (h' : UserHeap) (pages : Int),
    h.malloc new size = .ok (p, h') → h'.regions = h.regions ++ [(new, pages)] →
      32 + (size.toNat : Int) ≤ 4096 * pages ∨ p = 0

/-- **Heap requests.** -/
theorem requests_enough_iff (size : UInt64) :
    RequestsEnough size ↔ size.toNat < 2 ^ 43 - 4128 := by
  rw [← enough_pages_iff]
  constructor
  · intro h
    by_cases hsize : size = 0
    · rw [enough_pages_iff, hsize]
      decide
    · -- The first call of a program, when the kernel answers with the second page.
      have hmalloc := @malloc_first ⟨fun _ => 0, 0, []⟩ 4096 size rfl hsize (by decide)
      exact (h _ _ _ _ _ hmalloc rfl).resolve_right (by decide)
  · intro henough h new p h' pages hmalloc hregions
    left
    have hpages : pages = noOfPages (headerSize + size) := by
      obtain hsame | hmore := malloc_regions hmalloc
      · rw [hsame, List.self_eq_append_right] at hregions
        cases hregions
      · rw [hmore, List.append_cancel_left_eq] at hregions
        cases hregions
        rfl
    rw [hpages]
    exact henough

/-- A request of 8 TiB, of which the number of pages is negative. -/
theorem requests_too_little : ¬ RequestsEnough 0x80000000000 := by
  intro h
  have hmalloc := @malloc_first ⟨fun _ => 0, 0, []⟩ 4096 0x80000000000 rfl (by decide) (by decide)
  obtain hle | hzero := h _ _ _ _ _ hmalloc rfl
  · rw [enough_pages_iff] at hle
    exact absurd hle (by decide)
  · exact absurd hzero (by decide)

/-! ## When brk fails -/

/-- The last block, or `NULL`. -/
def lastBlock (l : List UInt64) : UInt64 := l.getLast?.getD 0

/-- A list without a block that can be reused. -/
structure NoneFreed (h : UserHeap) (size : UInt64) (l : List UInt64) : Prop where
  list : Chain (nextOf h.mem) (pointer h.headNode) l
  none : ∀ a ∈ l, ¬ Reusable h.mem size a

theorem NoneFreed.nil_iff (hnone : NoneFreed h size l) : l = [] ↔ h.headNode = 0 := by
  constructor
  · rintro rfl
    exact pointer_eq_none.1 hnone.list
  · intro hhead
    have hlist := hnone.list
    rw [pointer_eq_none.2 hhead] at hlist
    exact hlist.of_none

/-- The search ends behind the last block. -/
theorem NoneFreed.findFreedBlock (hnone : NoneFreed h size l) (hhead : h.headNode ≠ 0) :
    h.findFreedBlock h.headNode size = .ok (0, lastBlock l) := by
  obtain ⟨last, heq, hlast⟩ := @findFreedLoop_eq h.mem size h.headNode h.headNode l (2 ^ 64 + 1)
    hnone.list (Nat.lt_succ_of_le (chain_length_le hnone.list))
  have hfind : l.find? (Reusable h.mem size) = Option.none :=
    List.find?_eq_none.2 fun a ha => by simpa using hnone.none a ha
  rw [UserHeap.findFreedBlock, heq, hlast hfind, hfind]
  cases hl : l.getLast? with
  | none =>
    rw [List.getLast?_eq_none_iff, hnone.nil_iff] at hl
    exact absurd hl hhead
  | some a =>
    rw [lastBlock, hl]
    rfl

/-- A call that no freed block serves, with an answer that is not `NULL`. -/
theorem NoneFreed.malloc (hnone : NoneFreed h size l) (hsize : size ≠ 0) (hnew : new ≠ 0) :
    h.malloc new size = .ok (new + headerSize,
      ⟨if l = [] then setPrevious (requested h.mem new 0 size) new 0
        else requested h.mem new (lastBlock l) size,
        if l = [] then new else h.headNode,
        h.regions ++ [(new, noOfPages (headerSize + size))]⟩) := by
  by_cases hhead : h.headNode = 0
  · have hl := hnone.nil_iff.2 hhead
    rw [malloc_first hhead hsize hnew, if_pos hl, if_pos hl]
  · have hl := mt hnone.nil_iff.1 hhead
    rw [malloc_append hhead hsize, hnone.findFreedBlock hhead, if_neg hl, if_neg hl]
    show (h.blockRequest new (lastBlock l) size).bind _ = _
    rw [blockRequest_eq h hnew]
    exact if_neg hnew

/-- With `NULL` the call ends in the store to the `status` of the new block. -/
theorem NoneFreed.malloc_null (hnone : NoneFreed h size l) (hsize : size ≠ 0) :
    h.malloc 0 size = .error .nullDeref := by
  by_cases hhead : h.headNode = 0
  · rw [malloc_empty hhead hsize]
    rfl
  · rw [malloc_append hhead hsize, hnone.findFreedBlock hhead]
    rfl

/-- What is asked of a call whose `brk` fails: it returns `NULL`, it stores nothing, and the list is
the same. -/
def FailsWithNull (h : UserHeap) (new size : UInt64) : Prop :=
  ∃ h', h.malloc new size = .ok (0, h') ∧ h'.headNode = h.headNode ∧ h'.mem = h.mem

theorem NoneFreed.ne_zero (hnone : NoneFreed h size l) : ∀ a ∈ l, a ≠ 0 := by
  have hall : ∀ {l : List UInt64} {first : UInt64},
      Chain (nextOf h.mem) (pointer first) l → ∀ a ∈ l, a ≠ 0 := by
    intro l
    induction l with
    | nil => exact fun _ a ha => absurd ha List.not_mem_nil
    | cons b l ih =>
      intro first hlist
      obtain ⟨hfirst, hrest⟩ := hlist
      exact List.forall_mem_cons.2 ⟨(pointer_eq_some hfirst).2, ih hrest⟩
  exact hall hnone.list

/-- With -1 the call links a block: it is the first one, or it is behind the last one. -/
theorem NoneFreed.malloc_links (hnone : NoneFreed h size l) (hsize : size ≠ 0) :
    ∃ h', h.malloc (-1) size = .ok (31, h') ∧ (l = [] → h'.headNode = -1) ∧
      ∀ a, l.getLast? = some a → 32 ≤ a.toNat → a.toNat + 32 < 2 ^ 64 →
        metaBlock h'.mem a = { metaBlock h.mem a with next := -1 } := by
  refine ⟨_, hnone.malloc hsize (by decide), fun hl => if_pos hl, fun a ha hlow hspace => ?_⟩
  have hmem : a ∈ l := List.mem_of_getLast? ha
  have hlast : lastBlock l = a := congrArg (Option.getD · 0) ha
  dsimp only
  rw [if_neg (List.ne_nil_of_mem hmem), hlast]
  have hnew : (-1 : UInt64).toNat = 2 ^ 64 - 1 := by decide
  exact requested_last h.mem size (hnone.ne_zero a hmem) (by omega) (Or.inr hlow)
    (Or.inl (by omega))

/-- **When brk fails.** Neither of the two answers that stand for a failure, `NULL` and the -1 of
`syscall_caller`, makes a call fail as it should. -/
theorem malloc_brk_fails (hnone : NoneFreed h size l) (hsize : size ≠ 0)
    (hnew : new = 0 ∨ new = -1) : ¬ FailsWithNull h new size := by
  rintro ⟨h', hmalloc, -, -⟩
  obtain rfl | rfl := hnew
  · rw [hnone.malloc_null hsize] at hmalloc
    cases hmalloc
  · obtain ⟨h'', hlinks, -⟩ := hnone.malloc_links hsize
    rw [hlinks] at hmalloc
    have hzero : (31 : UInt64) = 0 := congrArg Prod.fst (Except.ok.inj hmalloc)
    exact absurd hzero (by decide)

end

/-- A second block, behind the first one at the second page. -/
theorem malloc_brk_fails_append : ¬ FailsWithNull
    ⟨setPrevious (requested (fun _ => 0) 4096 0 8) 4096 0, 4096, [(4096, 1)]⟩ 0 8 :=
  have hblock : metaBlock (setPrevious (requested (fun _ => 0) 4096 0 8) 4096 0) 4096 =
      ⟨8, 0, 0, alloc, magicAlloc⟩ := by
    rw [metaBlock_setPrevious, requested_first]
  malloc_brk_fails (l := [4096])
    ⟨⟨rfl, congrArg pointer (congrArg MetaBlock.next hblock)⟩, List.forall_mem_singleton.2
      fun hreuse => absurd ((congrArg MetaBlock.status hblock).symm.trans hreuse.1) (by decide)⟩
    (by decide) (Or.inl rfl)

/-- The first call of a program, with the answer of the kernel. -/
theorem malloc_first_brk_fails : ¬ FailsWithNull
    ⟨fun _ => 0, 0, []⟩ (syscallCaller (fun _ => 0) (brkParams 1 0 0)) 8 := by
  rintro ⟨h', hmalloc, hhead, -⟩
  rw [brk_fails, malloc_first rfl (by decide) (by decide)] at hmalloc
  obtain ⟨hzero, -⟩ := Prod.mk.inj (Except.ok.inj hmalloc)
  exact absurd hzero (by decide)

end Sbunix
