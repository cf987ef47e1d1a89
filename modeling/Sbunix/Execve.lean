import Sbunix.ForkFrame
import Sbunix.ProgramImage

/-!
# Program arguments

`sanexecve` counts the rows of the caller's table, `elf_load` copies them to the new stack, behind
their number, and `_start` finds them there. The rows are copied after the image has been mapped, in
tables that are still those of the caller. Hence a row is read from the image, from the heap or from
the stack when these have its page (`args_passed_iff`).

`elf_load` writes no number when there are no rows, and `_start` takes less than five.
-/

namespace Sbunix.Execve

open Lib Lib.Radix

/-! ## The calls -/

/-- `while ((char *)(argv + k) != NULL && strcmp((char *)(argv + k), "") != 0)`: a row has the size
of eight pointers, so that the `int` `k` is full after `2 ^ 28` rows. A string differs from the
empty one if its first byte does. -/
def countRows (argv : UInt64) (k : Kernel) : Nat → Nat → Option Nat
  | 0, _ => none
  | fuel + 1, argc =>
    let row := argv + 64 * UInt64.ofNat argc
    if row = 0 then some argc
    else (loadByte row k).bind fun b =>
      if b ≠ 0 then countRows argv k fuel (argc + 1) else some argc

/-- `sanexecve` up to the new program, with the address that `getElfHeader` returns. -/
def sanexecve (image : Mem) (addr argv : UInt64) (newProc : Entry) (k : Kernel) :
    Option (Entry × Kernel) := do
  let argc ← if argv ≠ 0 then countRows argv k (2 ^ 28) 0 else some 0
  let (_, k) ← kmalloc (UInt64.ofNat sizeofTask) k
  let (taskCr3, k) ← setUserAddrSpace k
  let currCR3 := k.cr3
  let (newProc, k) ← elfLoad image addr argc argv newProc (setCR3 taskCr3 k)
  -- The second one is in `jump_to_user_mode`.
  some (newProc, setCR3 taskCr3 (setCR3 currCR3 k))

/-- `*((int *)p)`. -/
def loadInt (p : UInt64) (k : Kernel) : Option Int := do
  let b₀ ← loadByte p k
  let b₁ ← loadByte (p + 1) k
  let b₂ ← loadByte (p + 2) k
  let b₃ ← loadByte (p + 3) k
  let n : Nat := b₀.toNat + 256 * b₁.toNat + 65536 * b₂.toNat + 16777216 * b₃.toNat
  some ((n : Int).bmod (2 ^ 32))

/-- `_start`, with the `argc` and the `argv` that it calls `main` with. It has moved `rsp` down by
one word before it puts it in `sp`. -/
def start (rsp : UInt64) (k : Kernel) : Option (Int × List UInt64) := do
  let sp := rsp - 8
  let argc ← loadInt (sp + 8 * 1) k
  if 0 < argc ∧ argc < 5 then
    some (argc, (List.range argc.toNat).map fun i => sp + 8 * (2 + 8 * UInt64.ofNat i))
  else some (0, [])

/-! ## Argument tables -/

/-- The byte at offset `o` of a table. -/
def argByte (k : Kernel) (args : UInt64) (o : Nat) : Option UInt8 :=
  loadByte (args + UInt64.ofNat o) k

/-- `n` rows of 64 bytes, each a string that is not empty, and an empty one behind them. -/
structure ArgTable (k : Kernel) (args : UInt64) (n : Nat) : Prop where
  first : ∀ i < n, ∃ b, argByte k args (64 * i) = some b ∧ b ≠ 0
  terminated : ∀ i < n, ∃ j < 64, argByte k args (64 * i + j) = some 0
  last : argByte k args (64 * n) = some 0

/-- The bytes are in pages of the user, each page in a frame of its own. -/
structure UserPages (k : Kernel) (root : Nat) (fl : List Nat) (args : UInt64) (len : Nat) :
    Prop where
  nonnull : args ≠ 0
  user : args.toNat + len ≤ 2 ^ 47
  mapped : ∀ o < len, ∃ p, translate (args + UInt64.ofNat o) k = some p ∧
    p / 4096 ∉ fl ∧ p / 4096 ∉ tableFrames k root
  own : ∀ {o o' p p'}, o < len → o' < len → translate (args + UInt64.ofNat o) k = some p →
    translate (args + UInt64.ofNat o') k = some p' → p / 4096 = p' / 4096 →
    (args.toNat + o) / 4096 = (args.toNat + o') / 4096

/-- `main` gets the `n` rows that were at `args` on the machine `k`. -/
structure RowsPassed (k : Kernel) (args : UInt64) (n : Nat) (k' : Kernel) (argc : Int)
    (argv : List UInt64) : Prop where
  argc : argc = n
  length : argv.length = n
  rows : ∀ {i a}, argv[i]? = some a → ∀ j < 64, ∃ b,
    argByte k args (64 * i + j) = some b ∧ loadByte (a + UInt64.ofNat j) k' = some b

/-! ## A new address space -/

section

variable {U : Set Nat} {k k' k₁ k₂ k₃ : Kernel} {fl : List Nat} {root c f : Nat} {a t : UInt64}
  {D : Finset (List (Fin 512))}

theorem kmalloc_task (k : Kernel) :
    kmalloc (UInt64.ofNat sizeofTask) k = k.pageAllocAddr.map (Prod.map id Kernel.pop) := by
  have hpos : (0 : UInt64) < UInt64.ofNat sizeofTask := by decide
  have hdiv : (UInt64.ofNat sizeofTask / 4096).toNat = 1 := by decide
  have hmod : (0 : UInt64) < UInt64.ofNat sizeofTask % 4096 := by decide
  have hcnt : ((1 : Nat) : Int).bmod (2 ^ 32) + 1 = 2 := by decide
  unfold kmalloc
  simp only [if_pos hpos, if_pos hmod, hdiv, hcnt]
  cases k.pageAllocAddr <;> rfl

theorem pop_of_empty (h : FreeFrames k.frames []) : k.pop = k := by
  obtain ⟨⟨l, hchain, hmap⟩, -⟩ := h
  obtain rfl : l = [] := by simpa using hmap
  rw [Chain.nil_iff] at hchain
  simp [Kernel.pop, pageAlloc, hchain]

/-- A frame is taken, or none is left. -/
theorem space_pop (h : Space root D k fl) : Space root D k.pop fl.tail := by
  cases fl with
  | nil =>
    rw [pop_of_empty h.paging.free]
    exact h
  | cons f fl =>
    obtain ⟨a, hpop, -, -⟩ := h.paging.free.pageAllocAddr_cons
    obtain ⟨f', fl', hfl, -, hspace⟩ := h.pop hpop
    obtain ⟨-, rfl⟩ := List.cons.inj hfl
    exact hspace

/-- The new address space in frame `c`. -/
structure NewRoot (root c : Nat) (D : Finset (List (Fin 512))) (fl : List Nat) (k : Kernel)
    (a : UInt64) (k₁ : Kernel) : Prop where
  addr : a.toNat = 4096 * c
  space : Space c D (setCR3 a k₁) fl
  walk : ∀ w, walk k₁.mem c w = walk k.mem root w
  tables : ∀ {f}, f ∈ tableFrames k₁ c → f = c ∨ f ∈ tableFrames k root
  same : ∀ {f}, f ≠ c → SamePage k.mem k₁.mem f

theorem setUserAddrSpace_space (h : Space root D k fl)
    (hrun : setUserAddrSpace k = some (a, k₁)) :
    ∃ c fl', fl = c :: fl' ∧ NewRoot root c D fl' k a k₁ := by
  rw [setUserAddrSpace_eq] at hrun
  obtain ⟨⟨b, k₂⟩, hpop, hcopy⟩ := Option.map_eq_some_iff.1 hrun
  obtain ⟨c, fl', rfl, ha, hspace⟩ := h.pop hpop
  obtain ⟨rfl, -, -⟩ := (Agree.refl Set.univ k).pageAllocAddr hpop
  obtain ⟨rfl, hk₁⟩ := Prod.mk.inj hcopy
  have hS := prefixClosed_allPaths
  have hroot : root ∈ ({root} : Set Nat) := rfl
  have hfresh := h.paging.fresh c List.mem_cons_self
  have hne : c ≠ root := hfresh.ne hS hroot
  have hcr3 : k.pop.cr3.toNat = 4096 * root := h.cr3
  have hfold := copyEntry_foldl ha hcr3 hne (List.finRange 512) k.pop
  dsimp only at hk₁
  rw [hk₁] at hfold
  obtain ⟨hent, hsame, hframes⟩ := hfold
  -- The tables of the caller are untouched, and the new PML4 has the entries of its own.
  have hagree : ∀ t, ¬ Fresh pte (entry k.mem) allPaths {root} t → ∀ i,
      entry k₁.mem t i = entry k.mem t i := by
    intro t ht i
    rw [hent, if_neg]
    · rfl
    · rintro ⟨rfl, -⟩
      exact ht hfresh
  have hkeep : ∀ {q}, q ∈ allPaths → k₁.table root q = k.table root q :=
    fun hq => tableAt_of_agree hS hroot hq hagree
  have hnext : ∀ i, next pte (entry k₁.mem) c i = next pte (entry k₁.mem) root i := by
    intro i
    have hentry : entry k₁.mem c i = entry k₁.mem root i := by
      rw [hent, if_pos ⟨rfl, List.mem_finRange i⟩, hent, if_neg fun hr => hne hr.1.symm]
    rw [next, next, hentry]
  have htable : ∀ {i q}, i :: q ∈ allPaths → k₁.table c (i :: q) = k.table root (i :: q) :=
    fun hq => (tableAt_of_next_eq (hnext _) _).trans (hkeep hq)
  have hfresh' : Fresh pte (entry k₁.mem) allPaths {root} c := by
    rintro r rfl q hq
    exact (hkeep hq).trans_ne (hfresh r rfl q hq)
  have hforest := (forest_of_agree hS h.paging.forest hagree).insert_copy hroot hfresh' hnext
  have hnodup := List.nodup_cons.1 h.paging.free.nodup
  refine ⟨c, fl', rfl, ha, ⟨⟨rfl, ⟨⟨?_, ?_⟩, ?_, ?_, ?_⟩, ?_⟩, ha⟩, ?_, ?_, fun hf => hsame _ hf⟩
  · exact fun hr hs => hforest.path_eq (.inl hr) (.inl hs)
  · exact fun hr hs => hforest.slot_eq (.inl hr) (.inl hs)
  · show FreeFrames k₁.frames fl'
    rw [hframes]
    exact hspace.paging.free
  · rintro f hf r rfl q hq htab
    cases q with
    | nil => exact hnodup.1 (Option.some.inj htab ▸ hf)
    | cons i q =>
      exact h.paging.fresh f (List.mem_cons_of_mem _ hf) root rfl _ hq ((htable hq).symm.trans htab)
  · intro f hf
    have hfc : f ≠ c := by
      rintro rfl
      exact hnodup.1 hf
    exact (h.paging.blank f (List.mem_cons_of_mem _ hf)).congr (hsame f hfc)
  · intro q hq
    cases q with
    | nil => exact iff_of_true rfl ((h.tables hq).1 rfl)
    | cons i q => exact (congrArg Option.isSome (htable hq)).symm ▸ h.tables hq
  · intro w
    exact (leafAt_of_tableAt_eq (tableAt_of_next_eq (hnext _) _)).trans
      (leafAt_of_agree hS hroot (path_mem_allPaths w) hagree)
  · rintro f ⟨q, hq, htab⟩
    cases q with
    | nil => exact .inl (Option.some.inj htab).symm
    | cons i q => exact .inr ⟨_, hq, (htable hq).symm.trans htab⟩

/-! ## A call on two machines -/

variable {image : Mem} {addr args : UInt64} {task e₁ : Entry} {n : Nat}

theorem row_eq (i : Nat) : 64 * UInt64.ofNat i = UInt64.ofNat (64 * i) :=
  (UInt64.ofNat_mul 64 i).symm

theorem countRows_spec (h : ArgTable k args n) (hargs : args ≠ 0)
    (hbound : args.toNat + 64 * n < 2 ^ 64) {fuel i : Nat} (hi : i ≤ n) (hfuel : n < fuel + i) :
    countRows args k fuel i = some n := by
  induction fuel generalizing i with
  | zero => omega
  | succ fuel ih =>
    have hrow : args + UInt64.ofNat (64 * i) ≠ 0 := by
      intro hzero
      have hval := toNat_add_ofNat (v := args) (o := 64 * i) (by omega)
      rw [hzero] at hval
      have h0 : (0 : UInt64).toNat = 0 := rfl
      exact hargs (UInt64.toNat_inj.1 (by omega))
    unfold countRows
    simp only [row_eq, if_neg hrow]
    rcases Nat.lt_or_eq_of_le hi with hlt | rfl
    · obtain ⟨b, hb, hne⟩ := h.first i hlt
      rw [argByte] at hb
      rw [hb, Option.bind_some, if_pos hne]
      exact ih hlt (by omega)
    · have hlast := h.last
      rw [argByte] at hlast
      rw [hlast, Option.bind_some, if_neg fun hne => hne rfl]

/-- The steps of a call, when `args` is a table. -/
theorem sanexecve_eq (htable : ArgTable k args n) (hargs : args ≠ 0) (hn : n < 2 ^ 28)
    (hbound : args.toNat + 64 * n < 2 ^ 64) :
    sanexecve image addr args task k = k.pageAllocAddr.bind fun r =>
      (setUserAddrSpace r.2.pop).bind fun q =>
        (elfLoad image addr n args task (setCR3 q.1 q.2)).map fun p =>
          (p.1, setCR3 q.1 (setCR3 q.2.cr3 p.2)) := by
  rw [sanexecve, if_pos hargs, countRows_spec htable hargs hbound (Nat.zero_le n) (by omega),
    kmalloc_task]
  cases k.pageAllocAddr with
  | none => rfl
  | some r =>
    simp only [Option.bind_eq_bind, Option.bind_some, Option.map_eq_bind]
    rfl

theorem setCR3_self (h : k.cr3 = a) (b : UInt64) : setCR3 a (setCR3 b k) = k := by
  subst h
  rfl

/-- What a call with `n` rows leads to: a new PML4 in frame `c`, beside the free frames `fl'`, and
the same on a machine that agrees on the tables. -/
structure Executed (image : Mem) (addr args : UInt64) (task : Entry) (n root c : Nat)
    (D : Finset (List (Fin 512))) (fl fl' : List Nat) (k : Kernel) (e₁ : Entry) (k₁ : Kernel) :
    Prop where
  entry : e₁.taskRsp = argsPtr n
  new : c ∈ fl
  free : ∀ {f}, f ∈ fl' → f ∈ fl ∧ f ≠ c
  tables : ∀ {f}, f ∉ tableFrames k root → f ∉ fl → f ∉ tableFrames k₁ c
  cr3 : k₁.cr3.toNat = 4096 * c
  agree : ∀ {U : Set Nat} {k' : Kernel}, Agree U k k' → ArgTable k' args n → root ∈ U →
    tableFrames k₁ c ⊆ U →
    ((∀ f ∈ U, f ∈ fl' → f ∈ tableFrames k₁ c) ∨ ∀ i < 64 * n, ReadsIn U (walk k.mem root)
      (elfLayout D fl' addr (programHeaders image addr)) (args + UInt64.ofNat i)) →
    ∃ k₁' m₀ con, sanexecve image addr args task k' = some (e₁, k₁') ∧
      (∀ f ≠ c, SamePage k'.mem m₀ f) ∧
      Loading c U fl' (walk k.mem root) m₀ k₁ k₁'
        (elfLayout D fl' addr (programHeaders image addr)) con ∧
      ArgsStored (tableFrames k₁ c) fl' (walk k.mem root) m₀
        (elfLayout D fl' addr (programHeaders image addr)) (argsPtr n).toNat args n
        (elfContents image addr (programHeaders image addr)) con

/-- **A call.** -/
theorem sanexecve_executed (haddr : addr ≠ 0) (h : Space root D k fl)
    (hsegs : InUserSpace (programHeaders image addr)) (hn : n ≤ 63) (htable : ArgTable k args n)
    (hargs : args ≠ 0) (hbound : args.toNat + 64 * n < 2 ^ 64)
    (hrun : sanexecve image addr args task k = some (e₁, k₁)) :
    ∃ c fl', Executed image addr args task n root c D fl fl' k e₁ k₁ := by
  rw [sanexecve_eq htable hargs (by omega) hbound] at hrun
  obtain ⟨⟨t, k₂⟩, hpop, hrun⟩ := Option.bind_eq_some_iff.1 hrun
  obtain ⟨⟨a, k₃⟩, hset, hrun⟩ := Option.bind_eq_some_iff.1 hrun
  obtain ⟨⟨e, k₄⟩, hload, hentry⟩ := Option.map_eq_some_iff.1 hrun
  obtain ⟨rfl, hk₁⟩ := Prod.mk.inj hentry
  obtain ⟨f, fl₁, rfl, -, hspace⟩ := h.pop hpop
  obtain ⟨rfl, -, -⟩ := (Agree.refl Set.univ k).pageAllocAddr hpop
  obtain ⟨c, fl', hfl, hnew⟩ := setUserAddrSpace_space (space_pop hspace) hset
  have hin : ∀ {x}, x ∈ c :: fl' → x ∈ f :: fl₁ :=
    fun hx => List.mem_cons_of_mem f (List.mem_of_mem_tail (hfl ▸ hx))
  have hc : c ∈ f :: fl₁ := hin List.mem_cons_self
  have hcfl : c ∉ fl' := (List.nodup_cons.1 (hfl ▸ (space_pop hspace).paging.free.nodup)).1
  have hcfresh := h.paging.fresh c hc
  have hne : c ≠ root := hcfresh.ne prefixClosed_allPaths rfl
  have hwalk : walk (setCR3 a k₃).mem c = walk k.mem root := funext hnew.walk
  obtain ⟨rfl, -⟩ := elfLoad_split haddr hnew.space hsegs hn hload
  obtain ⟨l, con, -, hself, -⟩ := elfLoad_loading haddr hnew.space hsegs hn hload
    (Agree.refl _ _) subset_rfl (.inl fun _ hf _ => hf)
  have hcr3 : k₄.cr3 = a := UInt64.toNat_inj.1 (hself.space.cr3.trans hnew.addr.symm)
  obtain rfl : k₄ = k₁ := (setCR3_self hcr3 _).symm.trans hk₁
  refine ⟨c, fl', rfl, hc, ?_, ?_, hself.space.cr3, ?_⟩
  · intro x hx
    refine ⟨hin (List.mem_cons_of_mem c hx), ?_⟩
    rintro rfl
    exact hcfl hx
  · intro x hx hfree
    refine elfLoad_newTables haddr hnew.space hsegs hn hload ?_ fun hmem =>
      hfree (hin (List.mem_cons_of_mem c hmem))
    intro hmem
    rcases hnew.tables hmem with rfl | hold
    · exact hfree hc
    · exact hx hold
  · intro U k' hagree htable' hroot hU hread
    obtain ⟨-, hpop', hagree₁⟩ := hagree.pageAllocAddr hpop
    obtain ⟨k₃', hset', hagree₃, hsame⟩ := setUserAddrSpace_agree (agree_pop hagree₁) h.cr3 hroot
      hne hnew.addr hset
    rw [← hwalk] at hread ⊢
    obtain ⟨k₄', con, hload', hl, hstored⟩ := elfLoad_loading haddr hnew.space hsegs hn hload
      hagree₃ hU hread
    refine ⟨k₄', k₃'.mem, con, ?_, hsame, hl, hstored⟩
    rw [sanexecve_eq htable' hargs (by omega) hbound, hpop', Option.bind_some, hset',
      Option.bind_some, hload', Option.map_some]
    exact congrArg some (Prod.ext rfl (setCR3_self (hl.agree.cr3.trans hcr3) _))

/-! ## What `_start` finds -/

/-- The address of row `i`, as `_start` computes it. -/
def rowAddr (n i : Nat) : UInt64 := argsPtr n - 8 + 8 * (2 + 8 * UInt64.ofNat i)

theorem start_eq (n : Nat) (k : Kernel) :
    start (argsPtr n) k = (loadInt (argsPtr n) k).map fun argc =>
      if 0 < argc ∧ argc < 5 then
        (argc, (List.range argc.toNat).map (rowAddr n))
      else (0, []) := by
  have hsp : argsPtr n - 8 + 8 * 1 = argsPtr n := by
    rw [UInt64.mul_one, UInt64.sub_add_cancel]
  rw [start]
  simp only [hsp]
  cases loadInt (argsPtr n) k with
  | none => rfl
  | some argc =>
    show (if _ then _ else _) = some (if _ then _ else _)
    split_ifs <;> rfl

theorem loadInt_eq {p : UInt64} {b₀ : UInt8} (h₀ : loadByte p k = some b₀)
    (h₁ : loadByte (p + 1) k = some 0) (h₂ : loadByte (p + 2) k = some 0)
    (h₃ : loadByte (p + 3) k = some 0) : loadInt p k = some (b₀.toNat : Int) := by
  have hlt := b₀.toNat_lt
  have hval : ((b₀.toNat : Nat) : Int).bmod (2 ^ 32) = b₀.toNat := by
    apply Int.bmod_eq_of_le
    · norm_num
    · norm_num
      omega
  rw [loadInt, h₀, h₁, h₂, h₃]
  exact congrArg some hval

theorem rowAddr_toNat (hn : n ≤ 63) {i j : Nat} (hi : i < n) (hj : j < 64) :
    (rowAddr n i + UInt64.ofNat j).toNat = (argsPtr n).toNat + 8 + (64 * i + j) := by
  have hptr := argsPtr_toNat hn
  have h8 : (8 : UInt64).toNat = 8 := rfl
  have h2 : (2 : UInt64).toNat = 2 := rfl
  have hrow : (UInt64.ofNat i).toNat = i :=
    toNat_ofNat_of_lt (by omega)
  have hbyte : (UInt64.ofNat j).toNat = j :=
    toNat_ofNat_of_lt (by omega)
  simp only [rowAddr, UInt64.toNat_add, UInt64.toNat_sub, UInt64.toNat_mul, h8, h2, hrow, hbyte,
    hptr]
  omega

theorem getElem?_rows {i : Nat} (h : ((List.range n).map (rowAddr n))[i]? = some a) :
    i < n ∧ a = rowAddr n i := by
  rw [List.getElem?_map, Option.map_eq_some_iff] at h
  obtain ⟨i', hi', rfl⟩ := h
  obtain ⟨hi, rfl⟩ := List.getElem?_eq_some_iff.1 hi'
  rw [List.length_range] at hi
  exact ⟨hi, by rw [List.getElem_range]⟩

section

variable {m₀ : Mem} {con : Contents} {fl' : List Nat} {w₀ : UInt64 → Option UInt64}
  {T : Set Nat}

/-- The bytes on the stack page. -/
theorem loadByte_stack (hsegs : InUserSpace (programHeaders image addr))
    (hl : Loading c U fl' w₀ m₀ k₁ k' (elfLayout D fl' addr (programHeaders image addr)) con)
    (hU : tableFrames k₁ c ⊆ U) :
    ∃ g, (elfLayout D fl' addr (programHeaders image addr)).frame 0xEFFFF = some g ∧
      ∀ {v : UInt64} {x : Nat}, v.toNat = x → x / 4096 = 0xEFFFF →
        loadByte v k' = some ((con x).getD (m₀ (4096 * g + x % 4096))) := by
  have hsome : ((elfLayout D fl' addr (programHeaders image addr)).frame 0xEFFFF).isSome :=
    (elfLayout_frame hsegs).2 (.inl (.inr rfl))
  obtain ⟨g, hg⟩ := Option.isSome_iff_exists.1 hsome
  refine ⟨g, hg, ?_⟩
  intro v x hv hx
  exact hl.loadByte hU (by omega) hv (hx.symm ▸ hg)

/-- `_start` reads the number of the rows, if there are any. -/
theorem loadInt_argc (hsegs : InUserSpace (programHeaders image addr)) (hn : n ≤ 63) (hpos : 0 < n)
    (hl : Loading c U fl' w₀ m₀ k₁ k' (elfLayout D fl' addr (programHeaders image addr)) con)
    (hU : tableFrames k₁ c ⊆ U)
    (hstored : ArgsStored T fl' w₀ m₀ (elfLayout D fl' addr (programHeaders image addr))
      (argsPtr n).toNat args n (elfContents image addr (programHeaders image addr)) con) :
    loadInt (argsPtr n) k' = some (n : Int) := by
  obtain ⟨g, -, hbyte⟩ := loadByte_stack hsegs hl hU
  have hptr := argsPtr_toNat hn
  have hload : ∀ i < 4, ∀ v : UInt64, v.toNat = (argsPtr n).toNat + i →
      loadByte v k' = some (UInt8.ofNat (n / 256 ^ i)) := by
    intro i hi v hv
    rw [hbyte hv (by omega), hstored.outside (by omega), Contents.withArgc, if_pos hpos,
      Contents.write_of_mem (by omega), toNat_ofInt (by omega), Option.getD_some]
  have hval : (UInt8.ofNat n).toNat = n := by
    rw [UInt8.toNat_ofNat']
    omega
  have hhigh : ∀ i, 1 ≤ i → i < 4 → UInt8.ofNat (n / 256 ^ i) = 0 := by
    intro i hlo hhi
    have hpow : 256 ^ 1 ≤ 256 ^ i := Nat.pow_le_pow_right (by decide) hlo
    rw [Nat.div_eq_of_lt (by omega)]
    rfl
  have hnext : ∀ (d : UInt64) (i : Nat), d.toNat = i → i < 4 →
      (argsPtr n + d).toNat = (argsPtr n).toNat + i := by
    intro d i hd hi
    rw [UInt64.toNat_add, hd]
    omega
  have h₀ := hload 0 (by omega) (argsPtr n) (Nat.add_zero _).symm
  have h₁ := hload 1 (by omega) (argsPtr n + 1) (hnext 1 1 rfl (by omega))
  have h₂ := hload 2 (by omega) (argsPtr n + 2) (hnext 2 2 rfl (by omega))
  have h₃ := hload 3 (by omega) (argsPtr n + 3) (hnext 3 3 rfl (by omega))
  rw [hhigh _ (by omega) (by omega)] at h₁ h₂ h₃
  rw [Nat.pow_zero, Nat.div_one] at h₀
  rw [loadInt_eq h₀ h₁ h₂ h₃, hval]

end

/-! ## Round trips -/

/-- No row has a byte in a page that the load maps. -/
def RowsKept (phs : List Phdr) (args : UInt64) (n : Nat) : Prop :=
  ∀ o < 64 * n, ¬ TailPage ((args.toNat + o) / 4096) ∧
    ∀ ph ∈ phs, ¬ ph.Touches ((args.toNat + o) / 4096)

theorem translate_of_tables {m : Mem} (h : Space root D k fl)
    (hm : ∀ f ∈ tableFrames k root, SamePage k.mem m f) (v : UInt64) :
    translate v { k with mem := m } = translate v k := by
  show (walk m k.root v).map _ = (walk k.mem k.root v).map _
  rw [h.root_eq, walk_of_tables hm]

theorem argByte_of_tables {m : Mem} {o p : Nat} (h : Space root D k fl)
    (hm : ∀ f ∈ tableFrames k root, SamePage k.mem m f)
    (hp : translate (args + UInt64.ofNat o) k = some p) :
    argByte { k with mem := m } args o = some (m p) := by
  rw [argByte, loadByte, translate_of_tables h hm, hp, Option.map_some]

/-- Frames of the user's pages are tables neither before nor after a call. -/
theorem Executed.not_table {fl' : List Nat} {p : Nat}
    (hexec : Executed image addr args task n root c D fl fl' k e₁ k₁) (hfree : p ∉ fl)
    (hdata : p ∉ tableFrames k root) : p ∉ tableFrames k root ∪ tableFrames k₁ c :=
  fun hmem => hmem.elim hdata (hexec.tables hdata hfree)

/-- A free frame is no table. -/
theorem not_table_of_free (h : Space root D k fl) (hf : f ∈ fl) : f ∉ tableFrames k root := by
  rw [← not_fresh_iff, not_not]
  exact h.paging.fresh f hf

/-- The call on a machine with other memory besides the tables. -/
theorem Executed.run {fl' : List Nat} {m : Mem}
    (hexec : Executed image addr args task n root c D fl fl' k e₁ k₁) (h : Space root D k fl)
    (hm : ∀ f ∈ tableFrames k root ∪ tableFrames k₁ c, SamePage k.mem m f)
    (htable : ArgTable { k with mem := m } args n) :
    ∃ k' m₀ con, sanexecve image addr args task { k with mem := m } = some (e₁, k') ∧
      (∀ f ≠ c, SamePage m m₀ f) ∧
      Loading c (tableFrames k root ∪ tableFrames k₁ c) fl' (walk k.mem root) m₀ k₁ k'
        (elfLayout D fl' addr (programHeaders image addr)) con ∧
      ArgsStored (tableFrames k₁ c) fl' (walk k.mem root) m₀
        (elfLayout D fl' addr (programHeaders image addr)) (argsPtr n).toNat args n
        (elfContents image addr (programHeaders image addr)) con := by
  have hroot : root ∈ tableFrames k root := ⟨[], prefixClosed_allPaths.nil, rfl⟩
  refine hexec.agree ⟨rfl, rfl, hm⟩ htable (.inl hroot) Set.subset_union_right (.inl ?_)
  intro f hf hfree
  exact hf.resolve_left (not_table_of_free h (hexec.free hfree).1)

/-- With one to four rows, all in pages that the load leaves alone, `main` gets the rows. -/
theorem rows_passed {fl' : List Nat} {m : Mem}
    (hexec : Executed image addr args task n root c D fl fl' k e₁ k₁) (h : Space root D k fl)
    (hsegs : InUserSpace (programHeaders image addr))
    (hpages : UserPages k root fl args (64 * n + 1)) (hpos : 0 < n) (hn : n < 5)
    (hkept : RowsKept (programHeaders image addr) args n)
    (hm : ∀ f ∈ tableFrames k root ∪ tableFrames k₁ c, SamePage k.mem m f)
    (htable : ArgTable { k with mem := m } args n) :
    ∃ k' argv, sanexecve image addr args task { k with mem := m } = some (e₁, k') ∧
      start e₁.taskRsp k' = some ((n : Int), argv) ∧
        RowsPassed { k with mem := m } args n k' n argv := by
  obtain ⟨k', m₀, con, hrun, hsame, hl, hstored⟩ := hexec.run h hm htable
  have hU : tableFrames k₁ c ⊆ tableFrames k root ∪ tableFrames k₁ c := Set.subset_union_right
  have hptr := argsPtr_toNat (n := n) (by omega)
  have hargc := loadInt_argc hsegs (by omega) hpos hl hU hstored
  obtain ⟨g, -, hstack⟩ := loadByte_stack hsegs hl hU
  have hstart := start_eq n k'
  rw [hargc, Option.map_some, if_pos (by omega), ← hexec.entry] at hstart
  refine ⟨k', _, hrun, hstart, rfl, by simp, ?_⟩
  intro i a ha j hj
  obtain ⟨hi, rfl⟩ := getElem?_rows ha
  obtain ⟨p, hp, hfree, hdata⟩ := hpages.mapped (64 * i + j) (by omega)
  have hbound := hpages.user
  have hv : (args + UInt64.ofNat (64 * i + j)).toNat = args.toNat + (64 * i + j) :=
    toNat_add_ofNat (by omega)
  -- The byte is still in the caller's page when it is copied.
  have huntouched : Untouched (tableFrames k₁ c) fl' (walk k.mem root)
      (elfLayout D fl' addr (programHeaders image addr)) (args + UInt64.ofNat (64 * i + j)) p := by
    refine ⟨?_, ?_, fun hin => hfree (hexec.free hin).1, hexec.tables hdata hfree⟩
    · obtain ⟨htail, hphs⟩ := hkept (64 * i + j) (by omega)
      rw [page_offset (by omega) hv, ← Option.not_isSome_iff_eq_none, elfLayout_frame hsegs]
      rintro (hin | ⟨ph, hph, htouch⟩)
      · exact htail hin
      · exact hphs ph hph htouch
    · obtain ⟨e, he, rfl⟩ := Option.map_eq_some_iff.1 hp
      exact ⟨e, h.root_eq ▸ he, rfl⟩
  have hpc : p / 4096 ≠ c := fun hpc => hfree (hpc ▸ hexec.new)
  refine ⟨m p, argByte_of_tables h (fun f hf => hm f (.inl hf)) hp, ?_⟩
  rw [hstack (rowAddr_toNat (by omega) hi hj) (by omega),
    hstored.rows (by omega) huntouched, Option.getD_some, hsame _ hpc p rfl]

/-- What `_start` returns when it passes `n` rows. -/
theorem start_rows {argv : List UInt64} {l : Kernel} (hpos : 0 < n)
    (h : start (argsPtr n) l = some ((n : Int), argv)) :
    argv = (List.range n).map (rowAddr n) := by
  rw [start_eq] at h
  obtain ⟨argc, -, hargc⟩ := Option.map_eq_some_iff.1 h
  split_ifs at hargc
  · obtain ⟨rfl, rfl⟩ := Prod.mk.inj hargc
    rw [Int.toNat_natCast]
  · have hzero := (Prod.mk.inj hargc).1
    omega

/-- The number that is left on the stack page when there are no rows. -/
theorem stale_argc {fl' : List Nat}
    (hexec : Executed image addr args task 0 root c D fl fl' k e₁ k₁)
    (h : Space root D k fl) (hsegs : InUserSpace (programHeaders image addr))
    (hpages : UserPages k root fl args 1) (htable : ArgTable k args 0) :
    ∃ m, (∀ f ∈ tableFrames k root ∪ tableFrames k₁ c, SamePage k.mem m f) ∧
      ArgTable { k with mem := m } args 0 ∧
      ∃ k', sanexecve image addr args task { k with mem := m } = some (e₁, k') ∧
        start e₁.taskRsp k' = some (1, [rowAddr 0 0]) := by
  have hself : ∀ f ∈ tableFrames k root ∪ tableFrames k₁ c, SamePage k.mem k.mem f :=
    fun f _ => SamePage.refl _ _
  obtain ⟨l, m₀, con, -, -, hl, -⟩ := hexec.run h hself htable
  obtain ⟨g, hg, -⟩ := loadByte_stack hsegs hl Set.subset_union_right
  obtain ⟨hfree, -, hdata, -⟩ := hl.owned hg
  have hgfl := hexec.free hfree
  set m : Mem := fun p => if p / 4096 = g then if p = 4096 * g + 0xFF0 then 1 else 0 else k.mem p
  have hm : ∀ f ∈ tableFrames k root ∪ tableFrames k₁ c, SamePage k.mem m f := by
    rintro _ hf x rfl
    refine if_neg ?_
    rintro rfl
    exact hf.elim (not_table_of_free h hgfl.1) hdata
  obtain ⟨p, hp, hpfree, hpdata⟩ := hpages.mapped 0 (by omega)
  have hlast : argByte { k with mem := m } args 0 = some 0 := by
    have hbyte := htable.last
    rw [argByte, loadByte, Nat.mul_zero, hp, Option.map_some] at hbyte
    rw [argByte_of_tables h (fun f hf => hm f (.inl hf)) hp, ← hbyte]
    refine congrArg some (if_neg ?_)
    rintro rfl
    exact hpfree hgfl.1
  have htable' : ArgTable { k with mem := m } args 0 :=
    ⟨fun i hi => absurd hi (Nat.not_lt_zero i), fun i hi => absurd hi (Nat.not_lt_zero i), hlast⟩
  obtain ⟨k', m₁, con', hrun, hsame, hl', hstored⟩ := hexec.run h hm htable'
  obtain ⟨g', hg', hbyte⟩ := loadByte_stack hsegs hl' Set.subset_union_right
  obtain rfl := Option.some.inj (hg.symm.trans hg')
  have hptr := argsPtr_toNat (n := 0) (by omega)
  have hload : ∀ i < 4, ∀ v : UInt64, v.toNat = 0xEFFFFFF0 + i →
      loadByte v k' = some (if i = 0 then 1 else 0) := by
    intro i hi v hv
    have hplace : (4096 * g + (0xEFFFFFF0 + i) % 4096) / 4096 = g := by omega
    have hempty : con' (0xEFFFFFF0 + i) = none := by
      rw [hstored.outside (by omega), Contents.withArgc, if_neg (Nat.lt_irrefl 0)]
      apply elfContents_tailPage
      apply Or.inr
      rw [show vpage (userStackTop - 0x1000) = 0xEFFFF from rfl]
      omega
    rw [hbyte hv (by omega), hempty, Option.getD_none, hsame g hgfl.2 _ hplace]
    refine congrArg some ?_
    show (if _ then if _ then _ else _ else _) = _
    rw [if_pos hplace]
    refine if_congr ?_ rfl rfl
    omega
  refine ⟨m, hm, htable', k', hrun, ?_⟩
  have hargc : loadInt (argsPtr 0) k' = some ((1 : UInt8).toNat : Int) :=
    loadInt_eq (hload 0 (by omega) _ rfl) (hload 1 (by omega) _ rfl) (hload 2 (by omega) _ rfl)
      (hload 3 (by omega) _ rfl)
  rw [hexec.entry]
  exact (start_eq 0 k').trans (congrArg (Option.map _) hargc)

/-! ## A row in a page that the load maps -/

/-- Different bytes of the user's pages are at different places. -/
theorem UserPages.place_inj {len o o' p : Nat} (h : UserPages k root fl args len) (ho : o < len)
    (ho' : o' < len) (hp : translate (args + UInt64.ofNat o) k = some p)
    (hp' : translate (args + UInt64.ofNat o') k = some p) : o = o' := by
  have hpage := h.own ho ho' hp hp' rfl
  have hbound := h.user
  have hv := toNat_add_ofNat (v := args) (o := o) (by omega)
  have hv' := toNat_add_ofNat (v := args) (o := o') (by omega)
  obtain ⟨e, -, rfl⟩ := Option.map_eq_some_iff.1 hp
  obtain ⟨e', -, he'⟩ := Option.map_eq_some_iff.1 hp'
  omega

/-- The table with byte `o` set to `b` and byte `z` to zero. -/
def editArgs (m : Mem) (place : Nat → Nat) (o z : Nat) (b : UInt8) : Mem :=
  write8 (write8 m (place z) 0) (place o) b

theorem editArgs_self (m : Mem) (place : Nat → Nat) (o z : Nat) (b : UInt8) :
    editArgs m place o z b (place o) = b :=
  Function.update_self _ _ _

theorem editArgs_of_ne {m : Mem} {place : Nat → Nat} {o z x : Nat} {b : UInt8} (ho : x ≠ place o)
    (hz : x ≠ place z) : editArgs m place o z b x = m x :=
  (Function.update_of_ne ho _ _).trans (Function.update_of_ne hz _ _)

theorem editArgs_samePage {m : Mem} {place : Nat → Nat} {o z f : Nat} {b : UInt8}
    (ho : place o / 4096 ≠ f) (hz : place z / 4096 ≠ f) :
    SamePage m (editArgs m place o z b) f := by
  rintro x rfl
  refine editArgs_of_ne ?_ ?_
  · rintro rfl
    exact ho rfl
  · rintro rfl
    exact hz rfl

/-- Two values of a byte make a difference in its frame only. -/
theorem agree_editArgs (k : Kernel) (place : Nat → Nat) (o z : Nat) (b b' : UInt8) :
    Agree {place o / 4096}ᶜ { k with mem := editArgs k.mem place o z b }
      { k with mem := editArgs k.mem place o z b' } := by
  refine ⟨rfl, rfl, ?_⟩
  rintro _ hf x rfl
  have hx : x ≠ place o := by
    rintro rfl
    exact hf rfl
  exact (Function.update_of_ne hx _ _).trans (Function.update_of_ne hx _ _).symm

/-- A byte of a row may have any value when the row ends at another one. -/
theorem argTable_edit {place : Nat → Nat} {o z : Nat} {b : UInt8} (h : Space root D k fl)
    (hpages : UserPages k root fl args (64 * n + 1))
    (hplace : ∀ i < 64 * n + 1, translate (args + UInt64.ofNat i) k = some (place i) ∧
      place i / 4096 ∉ fl ∧ place i / 4096 ∉ tableFrames k root)
    (ho : o < 64 * n) (hzo : z / 64 = o / 64) (hz : z % 64 ≠ 0) (hne : z ≠ o) (hb : b ≠ 0)
    (htable : ArgTable k args n) :
    ArgTable { k with mem := editArgs k.mem place o z b } args n := by
  have hz' : z < 64 * n := by omega
  have hm : ∀ f ∈ tableFrames k root, SamePage k.mem (editArgs k.mem place o z b) f := by
    intro f hf
    refine editArgs_samePage ?_ ?_
    · rintro rfl
      exact (hplace o (by omega)).2.2 hf
    · rintro rfl
      exact (hplace z (by omega)).2.2 hf
  have hinj : ∀ {i j}, i < 64 * n + 1 → j < 64 * n + 1 → i ≠ j → place i ≠ place j := by
    intro i j hi hj hij heq
    exact hij (hpages.place_inj hi hj (hplace i hi).1 (heq ▸ (hplace j hj).1))
  have hbyte : ∀ i < 64 * n + 1, argByte { k with mem := editArgs k.mem place o z b } args i =
      some (editArgs k.mem place o z b (place i)) :=
    fun i hi => argByte_of_tables h hm (hplace i hi).1
  have hkeep : ∀ i < 64 * n + 1, i ≠ o → i ≠ z →
      argByte { k with mem := editArgs k.mem place o z b } args i = argByte k args i := by
    intro i hi hio hiz
    rw [hbyte i hi, editArgs_of_ne (hinj hi (by omega) hio) (hinj hi (by omega) hiz), argByte,
      loadByte, (hplace i hi).1, Option.map_some]
  refine ⟨?_, ?_, ?_⟩
  · intro i hi
    by_cases hio : 64 * i = o
    · exact ⟨b, by rw [hbyte _ (by omega), hio, editArgs_self], hb⟩
    · rw [hkeep _ (by omega) hio (by omega)]
      exact htable.first i hi
  · intro i hi
    by_cases hio : i = o / 64
    · refine ⟨z % 64, Nat.mod_lt _ (by decide), ?_⟩
      have hzi : 64 * i + z % 64 = z := by omega
      rw [hzi, hbyte _ (by omega), editArgs, write8,
        Function.update_of_ne (hinj (by omega) (by omega) hne), write8, Function.update_self]
    · obtain ⟨j, hj, hzero⟩ := htable.terminated i hi
      refine ⟨j, hj, ?_⟩
      rwa [hkeep _ (by omega) (by omega) (by omega)]
  · rw [hkeep _ (by omega) (by omega) (by omega)]
    exact htable.last

/-- For every memory besides the frames `T` with a table of `n` rows at `args`, `main` gets the
rows. -/
def RoundTrip (image : Mem) (addr args : UInt64) (task : Entry) (n : Nat) (T : Set Nat)
    (k : Kernel) : Prop :=
  ∀ m, (∀ f ∈ T, SamePage k.mem m f) → ArgTable { k with mem := m } args n →
    ∃ e k' argc argv, sanexecve image addr args task { k with mem := m } = some (e, k') ∧
      start e.taskRsp k' = some (argc, argv) ∧ RowsPassed { k with mem := m } args n k' argc argv

/-- The byte of a row that `main` gets. -/
theorem RowsPassed.byte {l l' : Kernel} {argc : Int} {argv : List UInt64} {o : Nat} {b : UInt8}
    (h : RowsPassed l args n l' argc argv) (hstart : start (argsPtr n) l' = some (argc, argv))
    (ho : o < 64 * n) (hb : argByte l args o = some b) :
    loadByte (rowAddr n (o / 64) + UInt64.ofNat (o % 64)) l' = some b := by
  rw [h.argc] at hstart
  have hat : argv[o / 64]? = some (rowAddr n (o / 64)) := by
    rw [start_rows (by omega) hstart, List.getElem?_map, List.getElem?_range (by omega)]
    rfl
  obtain ⟨b', hb', hload⟩ := h.rows hat (o % 64) (Nat.mod_lt _ (by decide))
  rw [Nat.div_add_mod, hb] at hb'
  rw [hload, hb']

/-- Once the load has mapped the page of a byte, no byte of the table is read in its old frame. -/
theorem readsIn_lost {s : Layout} {o i p : Nat} (h : Space root D k fl)
    (hpages : UserPages k root fl args (64 * n + 1)) (ho : o < 64 * n) (hi : i < 64 * n)
    (hplace : translate (args + UInt64.ofNat o) k = some p)
    (howned : ∀ {x g}, s.frame x = some g → g ≠ p / 4096 ∧ 4096 * g < 2 ^ 64)
    (hloaded : (s.frame ((args.toNat + o) / 4096)).isSome) :
    ReadsIn {p / 4096}ᶜ (walk k.mem root) s (args + UInt64.ofNat i) := by
  intro e he hmem
  have hbound := hpages.user
  have hv := toNat_add_ofNat (v := args) (o := i) (by omega)
  have hpage : vpage (args + UInt64.ofNat i) = (args.toNat + i) / 4096 :=
    page_offset (by omega) hv
  cases hframe : s.frame (vpage (args + UInt64.ofNat i)) with
  | some g =>
    obtain ⟨hne, hlt⟩ := howned hframe
    rw [hframe, Option.map_some, Option.some_or] at he
    obtain rfl := Option.some.inj he
    rw [target_pageEntry hlt] at hmem
    exact hne hmem
  | none =>
    rw [hframe, Option.map_none, Option.none_or] at he
    have hp := translate_of_walk (h.root_eq.symm ▸ he)
    have hframe' : (4096 * pte.target e + (args + UInt64.ofNat i).toNat % 4096) / 4096 =
        p / 4096 := by
      rw [← Set.mem_singleton_iff.1 hmem]
      omega
    have hsame := hpages.own (by omega) (by omega) hp hplace hframe'
    rw [← hsame, ← hpage, hframe] at hloaded
    cases hloaded

/-- A row with a byte in a page that the load maps is lost: what `main` gets there does not depend
on the caller's page. -/
theorem row_lost {fl' : List Nat} {o : Nat}
    (hexec : Executed image addr args task n root c D fl fl' k e₁ k₁) (haddr : addr ≠ 0)
    (h : Space root D k fl) (hsegs : InUserSpace (programHeaders image addr)) (hn : n ≤ 63)
    (hpages : UserPages k root fl args (64 * n + 1)) (htable : ArgTable k args n) (ho : o < 64 * n)
    (hloaded : TailPage ((args.toNat + o) / 4096) ∨
      ∃ ph ∈ programHeaders image addr, ph.Touches ((args.toNat + o) / 4096)) :
    ¬ RoundTrip image addr args task n (tableFrames k root ∪ tableFrames k₁ c) k := by
  intro hround
  have hbound := hpages.user
  choose! place hplace using hpages.mapped
  obtain ⟨z, hzo, hz, hne⟩ : ∃ z, z / 64 = o / 64 ∧ z % 64 ≠ 0 ∧ z ≠ o := by
    by_cases h1 : o % 64 = 1
    · exact ⟨o + 1, by omega, by omega, by omega⟩
    · exact ⟨64 * (o / 64) + 1, by omega, by omega, by omega⟩
  obtain ⟨ho', hofree, hodata⟩ := hplace o (by omega)
  obtain ⟨-, hzfree, hzdata⟩ := hplace z (by omega)
  set edit := editArgs k.mem place o z
  have hm : ∀ b, ∀ f ∈ tableFrames k root ∪ tableFrames k₁ c, SamePage k.mem (edit b) f := by
    refine fun b f hf => editArgs_samePage ?_ ?_
    · rintro rfl
      exact hexec.not_table hofree hodata hf
    · rintro rfl
      exact hexec.not_table hzfree hzdata hf
  have htab : ∀ b, b ≠ 0 → ArgTable { k with mem := edit b } args n :=
    fun b hb => argTable_edit h hpages hplace ho hzo hz hne hb htable
  have hbyte : ∀ b, argByte { k with mem := edit b } args o = some b := by
    intro b
    rw [argByte_of_tables h (fun f hf => hm b f (.inl hf)) ho']
    exact congrArg some (editArgs_self ..)
  obtain ⟨e, l₁, argc₁, argv₁, hrun₁, hstart₁, hrows₁⟩ := hround _ (hm 1) (htab 1 (by decide))
  obtain ⟨e', l₂, argc₂, argv₂, hrun₂, hstart₂, hrows₂⟩ := hround _ (hm 2) (htab 2 (by decide))
  -- The two machines differ in one of the caller's frames only.
  set K : Kernel := { k with mem := edit 1 }
  have hmK : ∀ f ∈ tableFrames k root, SamePage k.mem (edit 1) f := fun f hf => hm 1 f (.inl hf)
  have hK : Space root D K fl := by
    refine h.of_tables hmK fun f hf => editArgs_samePage ?_ ?_
    · rintro rfl
      exact hofree hf
    · rintro rfl
      exact hzfree hf
  obtain ⟨c', fl'', hexec'⟩ := sanexecve_executed haddr hK hsegs hn (htab 1 (by decide))
    hpages.nonnull (by omega) hrun₁
  obtain ⟨l, m₀, con, -, -, hself, -⟩ := hexec'.run hK (fun f _ => SamePage.refl _ _)
    (htab 1 (by decide))
  have howned : ∀ {x g}, (elfLayout D fl'' addr (programHeaders image addr)).frame x = some g →
      g ≠ place o / 4096 := by
    rintro x g hg rfl
    exact hofree (hexec'.free (hself.owned hg).1).1
  have hKdata : place o / 4096 ∉ tableFrames K root := by
    rwa [tableFrames_of_tables hmK]
  have hagree : Agree {place o / 4096}ᶜ K { k with mem := edit 2 } := agree_editArgs k place o z 1 2
  have hU : tableFrames l₁ c' ⊆ {place o / 4096}ᶜ := by
    rintro f hf rfl
    exact hexec'.tables hKdata hofree hf
  have hroot : root ∈ ({place o / 4096}ᶜ : Set Nat) := by
    rintro rfl
    exact hodata ⟨[], prefixClosed_allPaths.nil, rfl⟩
  have hread : ∀ i < 64 * n, ReadsIn {place o / 4096}ᶜ (walk K.mem root)
      (elfLayout D fl'' addr (programHeaders image addr)) (args + UInt64.ofNat i) := by
    intro i hi
    have hwalk : walk K.mem root = walk k.mem root := by
      funext w
      exact walk_of_tables hmK w
    rw [hwalk]
    exact readsIn_lost h hpages ho hi ho'
      (fun hframe => ⟨howned hframe, (hself.owned hframe).2.2.2⟩)
      ((elfLayout_frame hsegs).2 hloaded)
  obtain ⟨l₂', m₀', con', hrun₂', -, hl, -⟩ := hexec'.agree hagree (htab 2 (by decide)) hroot hU
    (.inr hread)
  obtain ⟨rfl, rfl⟩ := Prod.mk.inj (Option.some.inj (hrun₂.symm.trans hrun₂'))
  rw [hexec'.entry] at hstart₁ hstart₂
  obtain ⟨g, hg, -⟩ := loadByte_stack hsegs hl hU
  have hptr := argsPtr_toNat hn
  have hv := rowAddr_toNat hn (i := o / 64) (j := o % 64) (by omega) (Nat.mod_lt _ (by decide))
  have hpage : ((argsPtr n).toNat + 8 + (64 * (o / 64) + o % 64)) / 4096 = 0xEFFFF := by omega
  have hsame := hl.loadByte_agree hU (by omega) hv (hpage.symm ▸ hg) (howned hg)
  rw [hrows₁.byte hstart₁ ho (hbyte 1), hrows₂.byte hstart₂ ho (hbyte 2)] at hsame
  exact absurd (Option.some.inj hsame) (by decide)

/-- `_start` passes no rows when there are five or more. -/
theorem many_rows {fl' : List Nat} (hexec : Executed image addr args task n root c D fl fl' k e₁ k₁)
    (h : Space root D k fl) (hsegs : InUserSpace (programHeaders image addr)) (hn : n ≤ 63)
    (hmany : 5 ≤ n) (htable : ArgTable k args n) :
    ∃ k', sanexecve image addr args task k = some (e₁, k') ∧
      start e₁.taskRsp k' = some (0, []) := by
  obtain ⟨k', m₀, con, hrun, -, hl, hstored⟩ :=
    hexec.run h (fun f _ => SamePage.refl k.mem f) htable
  refine ⟨k', hrun, ?_⟩
  rw [hexec.entry, start_eq, loadInt_argc hsegs hn (by omega) hl Set.subset_union_right hstored,
    Option.map_some, if_neg (by omega)]

/-- A call comes to its end when there are four frames for each operation of the loader, and three
for the task and the PML4. -/
theorem sanexecve_isSome (task : Entry) (haddr : addr ≠ 0) (h : Space root D k fl)
    (hsegs : InUserSpace (programHeaders image addr)) (hn : n ≤ 63)
    (hpages : UserPages k root fl args (64 * n + 1)) (htable : ArgTable k args n)
    (hlen : 4 * (elfOps addr (programHeaders image addr)).length + 3 ≤ fl.length) :
    ∃ e₁ k₁, sanexecve image addr args task k = some (e₁, k₁) := by
  obtain ⟨f, fl₁, rfl⟩ := List.exists_cons_of_length_pos (l := fl) (by omega)
  obtain ⟨t, hpop, -, -⟩ := h.paging.free.pageAllocAddr_cons
  obtain ⟨f', fl₁', hfl, -, hspace⟩ := h.pop hpop
  obtain ⟨-, rfl⟩ := List.cons.inj hfl
  have htail := space_pop hspace
  rw [List.length_cons] at hlen
  obtain ⟨c, fl', hfl'⟩ := List.exists_cons_of_length_pos (l := fl₁.tail)
    (by rw [List.length_tail]; omega)
  obtain ⟨a, hpop', -, -⟩ := (hfl' ▸ htail).paging.free.pageAllocAddr_cons
  have hset : ∃ k₃, setUserAddrSpace k.pop.pop = some (a, k₃) := by
    rw [setUserAddrSpace_eq, hpop', Option.map_some]
    exact ⟨_, rfl⟩
  obtain ⟨k₃, hset⟩ := hset
  obtain ⟨c', fl'', hfl'', hnew⟩ := setUserAddrSpace_space htail hset
  have hbound := hpages.user
  have hlen' : 4 * (elfOps addr (programHeaders image addr)).length ≤ fl''.length := by
    have hcount := congrArg List.length hfl''
    rw [List.length_tail, List.length_cons] at hcount
    omega
  obtain ⟨k₄, hload⟩ := elfLoad_args_isSome task haddr hnew.space hsegs hn hlen'
    fun i hi hnone => by
    obtain ⟨p, hp, -, -⟩ := hpages.mapped i (by omega)
    obtain ⟨e, he, -⟩ := Option.map_eq_some_iff.1 hp
    have hwalk := (hnew.walk (args + UInt64.ofNat i)).symm.trans hnone
    rw [h.root_eq] at he
    cases he.symm.trans hwalk
  refine ⟨⟨read64 image (addr.toNat + 24), argsPtr n⟩, setCR3 a (setCR3 k₃.cr3 k₄), ?_⟩
  rw [sanexecve_eq htable hpages.nonnull (by omega) (by omega), hpop, Option.bind_some, hset,
    Option.bind_some, hload, Option.map_some]

end

/-- A machine with an empty PML4 in frame 1 and 62 free frames. -/
def callerKernel : Kernel :=
  Kernel.pop { mem := fun _ => 0, frames := pageInit 4096 64 Frames.zero, pml4 := 0, cr3 := 4096 }

theorem addressSpace_callerKernel : AddressSpace callerKernel 1 (List.range' 2 62) where
  cr3 := rfl
  paging := paging_blank (freeFrames_pageInit 4096 (n := 64) (by decide)) fun _ _ _ _ => rfl

/-- `n` rows with the string `a`. -/
def rowBytes (n o : Nat) : UInt8 := if o < 64 * n ∧ o % 64 = 0 then 97 else 0

/-- A caller whose rows are in a page of its own at `0x10000000`. -/
theorem exists_caller {n : Nat} (hn : n ≤ 63) : ∃ k fl D, Space 1 D k fl ∧ 55 ≤ fl.length ∧
    UserPages k 1 fl 0x10000000 (64 * n + 1) ∧ ArgTable k 0x10000000 n := by
  obtain ⟨D, hspace⟩ := addressSpace_callerKernel.space
  have hself := loading_self hspace
  have hok : WithinPages ⟨D, List.range' 2 62, fun _ => none⟩ (.page 0x10000000) := trivial
  have hcard := card_withPath_le 0x10000000 D
  have hcount : (List.range' 2 62).length = 62 := List.length_range'
  obtain ⟨k₁, hrun⟩ := loadOp_isSome (fun _ => 0) hself hok
    (show (withPath 0x10000000 D).card < (List.range' 2 62).length + D.card by omega)
  have hmono := loadOp_tableFrames hself hok (Set.subset_univ _) hrun
  obtain ⟨k₁', hrun', hl⟩ := loadOp_loading hself hok (Set.subset_univ _) hrun hmono
  obtain rfl := Option.some.inj (hrun.symm.trans hrun')
  set s := Layout.step ⟨D, List.range' 2 62, fun _ => none⟩ (.page 0x10000000)
  have hpage : vpage 0x10000000 = 0x10000 := rfl
  have hframe : s.frame 0x10000 = some 2 := rfl
  obtain ⟨-, hfree, hdata, -⟩ := hl.owned hframe
  set m : Mem := fun p => if p / 4096 = 2 then rowBytes n (p % 4096) else k₁.mem p
  have hm : ∀ f, f ≠ 2 → SamePage k₁.mem m f := by
    rintro _ hf x rfl
    exact if_neg hf
  have hmtab : ∀ f ∈ tableFrames k₁ 1, SamePage k₁.mem m f := by
    refine fun f hf => hm f ?_
    rintro rfl
    exact hdata hf
  have hspace' : Space 1 s.tables { k₁ with mem := m } s.free := by
    refine hl.space.of_tables hmtab fun f hf => hm f ?_
    rintro rfl
    exact hfree hf
  have hv : ∀ o < 64 * n + 1, ((0x10000000 : UInt64) + UInt64.ofNat o).toNat = 0x10000000 + o := by
    intro o ho
    have hbase : (0x10000000 : UInt64).toNat = 0x10000000 := rfl
    rw [toNat_add_ofNat (by omega), hbase]
  have htranslate : ∀ o < 64 * n + 1,
      translate (0x10000000 + UInt64.ofNat o) { k₁ with mem := m } = some (4096 * 2 + o) := by
    intro o ho
    have hx : (0x10000000 + o) / 4096 = 0x10000 := by omega
    have hoff : (0x10000000 + o) % 4096 = o := by omega
    rw [hl.translate (l := { k₁ with mem := m }) rfl hmtab (by omega) (hv o ho) (hx.symm ▸ hframe),
      Layout.place, hx, hframe, Option.getD_some, hoff]
  have hbyte : ∀ o < 64 * n + 1, argByte { k₁ with mem := m } 0x10000000 o =
      some (rowBytes n o) := by
    intro o ho
    have hx : (4096 * 2 + o) / 4096 = 2 := by omega
    have hoff : (4096 * 2 + o) % 4096 = o := by omega
    rw [argByte, loadByte, htranslate o ho, Option.map_some]
    exact congrArg some ((if_pos hx).trans (by rw [hoff]))
  refine ⟨{ k₁ with mem := m }, s.free, s.tables, hspace', ?_, ⟨by decide, ?_, ?_, ?_⟩, ?_⟩
  · have hfree : s.free.length =
        (List.range' 2 62).length - 1 - ((withPath 0x10000000 D).card - D.card) := by
      rw [← List.length_tail, ← List.length_drop]
      rfl
    omega
  · have hbase : (0x10000000 : UInt64).toNat = 0x10000000 := rfl
    omega
  · intro o ho
    have hx : (4096 * 2 + o) / 4096 = 2 := by omega
    refine ⟨_, htranslate o ho, hx.symm ▸ hfree, ?_⟩
    rw [hx, tableFrames_of_tables hmtab]
    exact hdata
  · intro o o' p p' ho ho' _ _ _
    have hbase : (0x10000000 : UInt64).toNat = 0x10000000 := rfl
    omega
  · refine ⟨?_, ?_, ?_⟩
    · intro i hi
      refine ⟨97, ?_, by decide⟩
      rw [hbyte _ (by omega), rowBytes, if_pos (by omega)]
    · intro i hi
      refine ⟨1, by decide, ?_⟩
      rw [hbyte _ (by omega), rowBytes, if_neg (by omega)]
    · rw [hbyte _ (by omega), rowBytes, if_neg (by omega)]

theorem length_elfOps_textFile : (elfOps 0x1000 (programHeaders textFile 0x1000)).length = 7 := by
  rw [programHeaders_textFile]
  decide

end Sbunix.Execve
