import Sbunix.UserHeap

/-!
# What a program sees of its heap

To a program, `malloc` gives a range of memory that it has for itself until `free`. The ranges it
has at a time are the list `live`, each with the size that was asked for. `heap_contents` says that
they never meet, and that the memory in them is what the program itself has stored, as if there were
no library. For this the library writes to the headers of its blocks only
(`HeapInv.malloc_frame`, `HeapInv.free_alloc`).
-/

namespace Sbunix

open Lib MetaBlock

/-! ## What the library writes -/

section

variable {h h' : UserHeap} {a b new size p last : UInt64} {m : Mem}

/-- An address in no header of the blocks. -/
def OutsideHeaders (h : UserHeap) (x : Nat) : Prop :=
  ∀ b ∈ h.blocks, x < b.toNat ∨ b.toNat + 32 ≤ x

/-- A call of `malloc` writes to headers, leaves the sizes of the blocks alone, and the states of
all blocks but its own one. -/
structure MallocFrame (h h' : UserHeap) (p : UInt64) : Prop where
  mem : ∀ x, OutsideHeaders h' x → h'.mem x = h.mem x
  size : ∀ b ∈ h.blocks, (metaBlock h'.mem b).size = (metaBlock h.mem b).size
  status : ∀ b ∈ h.blocks, b + headerSize ≠ p →
    (metaBlock h'.mem b).status = (metaBlock h.mem b).status

theorem HeapInv.requested_frame (hinv : HeapInv h) (hlast : last ∈ h.blocks)
    (hend : new.toNat + 32 ≤ 2 ^ 64)
    (hapart : ∀ b ∈ h.blocks, b.toNat + 32 ≤ new.toNat ∨ new.toNat + 32 ≤ b.toNat)
    {head : UInt64} {pages : Int} (p : UInt64) :
    MallocFrame h ⟨UserHeap.requested h.mem new last size, head, h.regions ++ [(new, pages)]⟩
      p := by
  have hzero := hinv.ne_zero hlast
  have hlastend := hinv.header_end hlast
  have hblock : ∀ b ∈ h.blocks,
      (metaBlock (UserHeap.requested h.mem new last size) b).size = (metaBlock h.mem b).size ∧
      (metaBlock (UserHeap.requested h.mem new last size) b).status =
        (metaBlock h.mem b).status := by
    intro b hb
    by_cases hbl : b = last
    · rw [hbl, UserHeap.requested_last h.mem size hzero hlastend (Or.inl hend) (hapart last hlast)]
      exact ⟨rfl, rfl⟩
    · have hsame : metaBlock (UserHeap.requested h.mem new last size) b = metaBlock h.mem b := by
        have hb' := hapart b hb
        have hother := hinv.block_apart hb hlast hbl
        apply metaBlock_congr (hinv.header_end hb)
        intro x hlo hhi
        exact UserHeap.requested_of_not_mem h.mem hend (by omega) fun _ => ⟨hlastend, by omega⟩
      rw [hsame]
      exact ⟨rfl, rfl⟩
  refine ⟨fun x hx => ?_, fun b hb => (hblock b hb).1, fun b hb _ => (hblock b hb).2⟩
  have hnew := hx new (mem_blocks.2 ⟨pages, List.mem_append_right _ (List.mem_singleton.2 rfl)⟩)
  have hold := hx last (by
    obtain ⟨pages', hr⟩ := mem_blocks.1 hlast
    exact mem_blocks.2 ⟨pages', List.mem_append_left _ hr⟩)
  exact UserHeap.requested_of_not_mem h.mem hend hnew fun _ => ⟨hlastend, by omega⟩

theorem HeapInv.malloc_frame (hinv : HeapInv h) (hpos : 0 < size) (hsize : size < 2 ^ 31)
    (hbrk : Supplies h new size) (hmalloc : h.malloc new size = .ok (p, h')) :
    MallocFrame h h' p := by
  have hpages : 32 ≤ 4096 * noOfPages (headerSize + size) := by
    rw [noOfPages_eq hsize]
    omega
  unfold UserHeap.malloc at hmalloc
  rw [if_neg (UInt64.not_le.2 hpos)] at hmalloc
  by_cases hhead : h.headNode = 0
  · have hblocks : h.blocks = [] := by
      have hchain := hinv.next
      rw [pointer_eq_none.2 hhead] at hchain
      exact hchain.of_none
    have hfresh : FreshRegion h new (noOfPages (headerSize + size)) := by
      apply hbrk
      rw [hblocks]
      exact fun a ha => absurd ha List.not_mem_nil
    rw [if_pos hhead, UserHeap.blockRequest_eq h hfresh.ne_zero, ok_bind] at hmalloc
    dsimp only at hmalloc
    rw [if_neg hfresh.ne_zero] at hmalloc
    obtain ⟨-, rfl⟩ := Prod.mk.inj (Except.ok.inj hmalloc)
    refine ⟨fun x hx => ?_, ?_, ?_⟩
    · have hnew := hx new (mem_blocks.2 ⟨_, List.mem_append_right _ (List.mem_singleton.2 rfl)⟩)
      have hend := hfresh.header_end hpages
      have hfields := fields_toNat hend
      dsimp only
      rw [setPrevious, write64_of_not_mem _ _ (by omega)]
      exact UserHeap.requested_of_not_mem h.mem hend hnew fun hne => absurd rfl hne
    · rw [hblocks]
      exact fun b hb => absurd hb List.not_mem_nil
    · rw [hblocks]
      exact fun b hb => absurd hb List.not_mem_nil
  · obtain ⟨last, hsearch, hlast⟩ := hinv.findFreedBlock h.headNode size
    rw [if_neg hhead, hsearch, ok_bind] at hmalloc
    dsimp only at hmalloc
    cases hfind : h.blocks.find? (UserHeap.Reusable h.mem size) with
    | some b =>
      have hb := List.mem_of_find?_eq_some hfind
      rw [hfind, Option.getD_some, if_neg (hinv.ne_zero hb)] at hmalloc
      obtain ⟨rfl, rfl⟩ := Prod.mk.inj (Except.ok.inj hmalloc)
      have hframe : ∀ x, x < b.toNat + 24 ∨ b.toNat + 32 ≤ x →
          setStatus (setMagicCode h.mem b magicReall) b alloc x = h.mem x :=
        fun x hx => (lastFields_of_not_mem (hinv.header_end hb) h.mem alloc magicReall hx).1
      have hother : ∀ a ∈ h.blocks, a ≠ b →
          metaBlock (setStatus (setMagicCode h.mem b magicReall) b alloc) a =
            metaBlock h.mem a := by
        intro a ha hab
        have hapart := hinv.block_apart ha hb hab
        exact metaBlock_congr (hinv.header_end ha) fun x hlo hhi => hframe x (by omega)
      refine ⟨fun x hx => ?_, fun a ha => ?_, fun a ha hne => ?_⟩
      · have hout := hx b hb
        exact hframe x (by omega)
      · by_cases hab : a = b
        · rw [hab, metaBlock_setStatus, metaBlock_setMagicCode]
        · rw [hother a ha hab]
      · have hab : a ≠ b := fun hab => hne (congrArg (· + headerSize) hab)
        rw [hother a ha hab]
    | none =>
      have hfresh : FreshRegion h new (noOfPages (headerSize + size)) := by
        apply hbrk
        intro a ha hreuse
        exact List.find?_eq_none.1 hfind a ha (decide_eq_true hreuse)
      have hne : h.blocks ≠ [] := by
        intro hblocks
        have hchain := hinv.next
        rw [hblocks, Chain.nil_iff] at hchain
        exact hhead (pointer_eq_none.1 hchain)
      have hmem : last ∈ h.blocks := by
        rw [hlast hfind, List.getLast?_eq_some_getLast hne]
        exact List.getLast_mem hne
      rw [hfind, Option.getD_none, if_pos rfl, UserHeap.blockRequest_eq h hfresh.ne_zero,
        ok_bind] at hmalloc
      dsimp only at hmalloc
      rw [if_neg hfresh.ne_zero] at hmalloc
      obtain ⟨rfl, rfl⟩ := Prod.mk.inj (Except.ok.inj hmalloc)
      exact hinv.requested_frame hmem (hfresh.header_end hpages)
        (fun b hb => hfresh.header_apart hinv hpages hb) _

end

/-! ## Ownership -/

/-- A program with the ranges it has: the pointers, and the sizes it asked for. -/
structure Owner where
  user : HeapUser
  live : List (UInt64 × UInt64)

/-- A call, in the view of the program. The pointer that `malloc` returned is the last one. -/
def liveAfter (live : List (UInt64 × UInt64)) (user : HeapUser) : HeapOp → List (UInt64 × UInt64)
  | .malloc _ size => (user.returned.headD 0, size) :: live
  | .free p => live.filter fun r => r.1 ≠ p
  | .store _ _ => live

def ownerStep (s : Owner) (op : HeapOp) : Option Owner :=
  (heapStep s.user op).map fun user => ⟨user, liveAfter s.live user op⟩

/-- The memory if there were no library. -/
def written (m : Mem) : HeapOp → Mem
  | .malloc _ _ => m
  | .free _ => m
  | .store x c => write8 m x c

/-- A range lies in the payload of a block in use. -/
def Allocated (h : UserHeap) (r : UInt64 × UInt64) : Prop :=
  ∃ b ∈ h.blocks, r.1 = b + headerSize ∧ (metaBlock h.mem b).status = alloc ∧
    r.2 ≤ (metaBlock h.mem b).size

/-- The memory of the program is `m`, up to the headers. -/
structure Consistent (s : Owner) (m : Mem) : Prop where
  inv : HeapUserInv s.user
  nodup : (s.live.map Prod.fst).Nodup
  allocated : ∀ r ∈ s.live, Allocated s.user.heap r
  mem : ∀ x, OutsideHeaders s.user.heap x → s.user.heap.mem x = m x

section

variable {h h' : UserHeap} {s : Owner} {m : Mem} {new size p : UInt64} {r : UInt64 × UInt64}

theorem add_headerSize_inj {a b : UInt64} (h : a + headerSize = b + headerSize) : a = b :=
  add_right_cancel h

/-- The pointer of a call is none of those in use. -/
theorem Allocated.ne_of_mallocs (hcall : Mallocs h new size p h') (hr : Allocated h r) :
    r.1 ≠ p := by
  obtain ⟨b, hb, hptr, hstatus, -⟩ := hr
  obtain ⟨b', -, hp, -, -, hfree⟩ := hcall.block
  intro heq
  obtain rfl := add_headerSize_inj (hptr.symm.trans (heq.trans hp))
  exact hfree hb hstatus

theorem Allocated.malloc (hframe : MallocFrame h h' p) (hsub : h.blocks ⊆ h'.blocks)
    (hr : Allocated h r) (hne : r.1 ≠ p) : Allocated h' r := by
  obtain ⟨b, hb, hptr, hstatus, hsize⟩ := hr
  refine ⟨b, hsub hb, hptr, ?_, ?_⟩
  · rw [hframe.status b hb fun heq => hne (hptr.trans heq), hstatus]
  · rwa [hframe.size b hb]

theorem Consistent.malloc (ho : Consistent s m) (hok : HeapOk s.user (.malloc new size)) :
    ∃ s', ownerStep s (.malloc new size) = some s' ∧ Consistent s' m := by
  obtain ⟨user, hstep, hinv⟩ := ho.inv.step hok
  obtain ⟨hpos, hsize, hbrk⟩ := hok
  obtain ⟨p, h', hmalloc, -, hcall⟩ := ho.inv.heap.malloc hpos hsize hbrk
  have hframe := ho.inv.heap.malloc_frame hpos hsize hbrk hmalloc
  obtain rfl : user = ⟨h', p :: s.user.returned⟩ := by
    rw [heapStep, hmalloc] at hstep
    exact (Option.some.inj hstep).symm
  have hne : ∀ r ∈ s.live, r.1 ≠ p := fun r hr => (ho.allocated r hr).ne_of_mallocs hcall
  refine ⟨_, by rw [ownerStep, hstep]; rfl, hinv, ?_, ?_, fun x hx => ?_⟩
  · refine List.nodup_cons.2 ⟨fun hmem => ?_, ho.nodup⟩
    obtain ⟨r, hr, heq⟩ := List.mem_map.1 hmem
    exact hne r hr heq
  · refine List.forall_mem_cons.2 ⟨?_, fun r hr => ?_⟩
    · obtain ⟨b, hb, hp, hstatus, hsize', -⟩ := hcall.block
      exact ⟨b, hb, hp, hstatus, hsize'⟩
    · exact (ho.allocated r hr).malloc hframe hcall.blocks_subset (hne r hr)
  · have hx' : OutsideHeaders s.user.heap x := fun b hb => hx b (hcall.blocks_subset hb)
    exact (hframe.mem x hx).trans (ho.mem x hx')

/-- A call of `free` writes to one header, if at all. -/
theorem HeapInv.free_frame {b : UInt64} (hinv : HeapInv h) (hb : b ∈ h.blocks) :
    ∃ m', (h.free (b + headerSize)).1 = { h with mem := m' } ∧
      ∀ x, x < b.toNat + 24 ∨ b.toNat + 32 ≤ x → m' x = h.mem x := by
  cases hinv.sound b hb with
  | inl halloc =>
    obtain ⟨m', hfree, -, -, hframe⟩ := hinv.free_alloc hb halloc.1
    exact ⟨m', congrArg Prod.fst hfree, hframe⟩
  | inr hfreed => exact ⟨h.mem, congrArg Prod.fst (hinv.free_freed hb hfreed.1), fun _ _ => rfl⟩

theorem Consistent.free (ho : Consistent s m) (hok : HeapOk s.user (.free p)) :
    ∃ s', ownerStep s (.free p) = some s' ∧ Consistent s' m := by
  obtain ⟨b, hb, rfl⟩ := ho.inv.returned p hok
  obtain ⟨user, hstep, hinv⟩ := ho.inv.step hok
  obtain ⟨m', hfree, hframe⟩ := ho.inv.heap.free_frame hb
  obtain rfl : user = ⟨{ s.user.heap with mem := m' }, s.user.returned⟩ := by
    rw [heapStep, hfree] at hstep
    exact (Option.some.inj hstep).symm
  refine ⟨_, by rw [ownerStep, hstep]; rfl, hinv, ?_, ?_, ?_⟩
  · exact ho.nodup.sublist (List.filter_sublist.map Prod.fst)
  · intro r hr
    obtain ⟨hmem, hne⟩ := List.mem_filter.1 hr
    have hne : r.1 ≠ b + headerSize := of_decide_eq_true hne
    obtain ⟨a, ha, hptr, hstatus, hsize⟩ := ho.allocated r hmem
    have hab : a ≠ b := fun hab => hne (hab ▸ hptr)
    have hsame : metaBlock m' a = metaBlock s.user.heap.mem a := by
      have hapart := ho.inv.heap.block_apart ha hb hab
      exact metaBlock_congr (ho.inv.heap.header_end ha) fun x hlo hhi => hframe x (by omega)
    refine ⟨a, ha, hptr, ?_, ?_⟩
    · exact (congrArg MetaBlock.status hsame).trans hstatus
    · exact hsize.trans_eq (congrArg MetaBlock.size hsame).symm
  · intro x hx
    have hout := hx b hb
    exact (hframe x (by omega)).trans (ho.mem x hx)

/-- A store to a payload meets no header. -/
theorem HeapInv.metaBlock_store {a b : UInt64} {x : Nat} (hinv : HeapInv h) (hb : b ∈ h.blocks)
    (hx : InPayload h b x) (c : UInt8) (ha : a ∈ h.blocks) :
    metaBlock (write8 h.mem x c) a = metaBlock h.mem a := by
  apply metaBlock_congr (hinv.header_end ha)
  intro y hlo hhi
  apply Function.update_of_ne
  obtain ⟨hx₁, hx₂⟩ := hx
  by_cases hab : a = b
  · subst hab
    omega
  · have hapart := hinv.block_apart ha hb hab
    omega

theorem Consistent.store (ho : Consistent s m) {x : Nat} {c : UInt8}
    (hok : HeapOk s.user (.store x c)) :
    ∃ s', ownerStep s (.store x c) = some s' ∧ Consistent s' (write8 m x c) := by
  obtain ⟨user, hstep, hinv⟩ := ho.inv.step hok
  obtain rfl : user = ⟨{ s.user.heap with mem := write8 s.user.heap.mem x c }, s.user.returned⟩ :=
    (Option.some.inj hstep).symm
  obtain ⟨b, hb, hx⟩ := hok
  refine ⟨⟨_, s.live⟩, by rw [ownerStep, hstep]; rfl, hinv, ho.nodup, fun r hr => ?_,
    fun y hy => ?_⟩
  · obtain ⟨a, ha, hptr, hstatus, hsize⟩ := ho.allocated r hr
    have hsame : metaBlock (write8 s.user.heap.mem x c) a = metaBlock s.user.heap.mem a :=
      ho.inv.heap.metaBlock_store hb hx c ha
    refine ⟨a, ha, hptr, ?_, ?_⟩
    · exact (congrArg MetaBlock.status hsame).trans hstatus
    · exact hsize.trans_eq (congrArg MetaBlock.size hsame).symm
  · show Function.update s.user.heap.mem x c y = Function.update m x c y
    by_cases hyx : y = x
    · rw [hyx, Function.update_self, Function.update_self]
    · rw [Function.update_of_ne hyx, Function.update_of_ne hyx]
      exact ho.mem y hy

theorem Consistent.step (ho : Consistent s m) {op : HeapOp} (hok : HeapOk s.user op) :
    ∃ s', ownerStep s op = some s' ∧ Consistent s' (written m op) := by
  cases op with
  | malloc new size => exact ho.malloc hok
  | free p => exact ho.free hok
  | store x c => exact ho.store hok

theorem consistent_boot (m : Mem) : Consistent ⟨⟨⟨m, 0, []⟩, []⟩, []⟩ m := by
  refine ⟨⟨⟨rfl, rfl, ?_, List.Pairwise.nil, ?_, ?_⟩, ?_⟩, List.nodup_nil, ?_, fun _ _ => rfl⟩
  · exact fun r hr => absurd hr List.not_mem_nil
  · exact fun r hr => absurd hr List.not_mem_nil
  · exact fun a ha => absurd ha List.not_mem_nil
  · exact fun p hp => absurd hp List.not_mem_nil
  · exact fun r hr => absurd hr List.not_mem_nil

/-- A byte of a range. -/
def InBlock (r : UInt64 × UInt64) (x : Nat) : Prop :=
  r.1.toNat ≤ x ∧ x < r.1.toNat + r.2.toNat

/-- The range of a block, in numbers. -/
theorem Allocated.inPayload (hinv : HeapInv h) (hr : Allocated h r) {x : Nat} (hx : InBlock r x) :
    ∃ b ∈ h.blocks, r.1 = b + headerSize ∧ InPayload h b x := by
  obtain ⟨b, hb, hptr, -, hsize⟩ := hr
  obtain ⟨pages, hregion⟩ := mem_blocks.1 hb
  have hroom := hinv.size _ hregion
  have hspace := (hinv.space _ hregion).2
  have hle := UInt64.le_iff_toNat_le.1 hsize
  dsimp only at hroom hspace
  have hadd : r.1.toNat = b.toNat + 32 := by
    rw [hptr, UInt64.toNat_add]
    exact Nat.mod_eq_of_lt (by change b.toNat + 32 < 2 ^ 64; omega)
  obtain ⟨hx₁, hx₂⟩ := hx
  exact ⟨b, hb, hptr, by omega, by omega⟩

theorem HeapInv.outsideHeaders (hinv : HeapInv h) {b : UInt64} (hb : b ∈ h.blocks) {x : Nat}
    (hx : InPayload h b x) : OutsideHeaders h x := by
  intro a ha
  obtain ⟨hx₁, hx₂⟩ := hx
  by_cases hab : a = b
  · subst hab
    omega
  · have hapart := hinv.block_apart ha hb hab
    omega

end

/-- **Heap contents.** Along every sequence of calls and stores to payloads, the ranges that the
program has at a time are different and do not meet, and each byte in them is the one that the
program stored there last, or that was there before the first call. -/
theorem heap_contents (m : Mem) (ops : List HeapOp)
    (h : Along ownerStep (fun s op => HeapOk s.user op) ⟨⟨⟨m, 0, []⟩, []⟩, []⟩ ops) :
    ∃ s, Run ownerStep (fun s op => HeapOk s.user op) ⟨⟨⟨m, 0, []⟩, []⟩, []⟩ ops s ∧
      (s.live.map Prod.fst).Nodup ∧
      (∀ r ∈ s.live, ∀ r' ∈ s.live, r ≠ r' → ∀ x, ¬ (InBlock r x ∧ InBlock r' x)) ∧
      ∀ r ∈ s.live, ∀ x, InBlock r x → s.user.heap.mem x = ops.foldl written m x := by
  obtain ⟨s, hrun, ho⟩ := Along.simulation (f := written) (R := Consistent)
    (fun ho hok => ho.step hok) h (consistent_boot m)
  have hheap := ho.inv.heap
  refine ⟨s, hrun, ho.nodup, fun r hr r' hr' hne x hx => ?_, fun r hr x hx => ?_⟩
  · obtain ⟨b, hb, hptr, hpay⟩ := (ho.allocated r hr).inPayload hheap hx.1
    obtain ⟨b', hb', hptr', hpay'⟩ := (ho.allocated r' hr').inPayload hheap hx.2
    have hbb : b ≠ b' := by
      rintro rfl
      exact hne (List.inj_on_of_nodup_map ho.nodup hr hr' (hptr.trans hptr'.symm))
    obtain ⟨h₁, h₂⟩ := hpay
    obtain ⟨h₃, h₄⟩ := hpay'
    have hapart := hheap.block_apart hb hb' hbb
    omega
  · obtain ⟨b, hb, -, hpay⟩ := (ho.allocated r hr).inPayload hheap hx
    exact ho.mem x (hheap.outsideHeaders hb hpay)

/-- A range with a byte stored to it, and another range, which is freed. -/
theorem heap_contents_byte :
    ∃ s, Run ownerStep (fun s op => HeapOk s.user op) ⟨⟨⟨fun _ => 0, 0, []⟩, []⟩, []⟩
        [.malloc 4096 16, .store 4130 7, .malloc 8192 100, .free 8224] s ∧
      (s.live.map Prod.fst).Nodup ∧
      (∀ r ∈ s.live, ∀ r' ∈ s.live, r ≠ r' → ∀ x, ¬ (InBlock r x ∧ InBlock r' x)) ∧
      ∀ r ∈ s.live, ∀ x, InBlock r x → s.user.heap.mem x =
        [.malloc 4096 16, .store 4130 7, .malloc 8192 100, .free 8224].foldl written
          (fun _ => 0) x := by
  apply heap_contents
  refine ⟨⟨by decide, by decide, fun _ => ⟨by decide, by decide, ?_⟩⟩, fun s₁ h₁ => ?_⟩
  · exact fun r hr => absurd hr List.not_mem_nil
  obtain rfl := Option.some.inj h₁
  refine ⟨⟨4096, List.mem_singleton.2 rfl, by decide, by decide⟩, fun s₂ h₂ => ?_⟩
  obtain rfl := Option.some.inj h₂
  refine ⟨⟨by decide, by decide, fun _ => ⟨by decide, by decide, ?_⟩⟩, fun s₃ h₃ => ?_⟩
  · intro r hr
    obtain rfl := List.mem_singleton.1 hr
    exact Or.inl (by decide)
  obtain rfl := Option.some.inj h₃
  exact ⟨List.mem_cons_self, fun _ _ => trivial⟩

end Sbunix
