import Sbunix.Agreement

/-!
# Creating an address space

`set_user_AddrSpace` makes the PML4 of a new process by copying all 512 entries of the current
one, so the two address spaces share every table below the PML4, in the lower half too. A
mapping made for the new process (`create_process` and `sanexecve` do so through `elf_load`)
then goes into the creator's tables wherever the creator has a table for it.

`createSpace_walk` follows the calls through the shared tables: an existing process sees exactly
the mappings under the PML4 entries it has in common with the new one. `Creation.isolated_iff` reads
off when the creator and the other processes are left alone, as long as no frame that becomes a
table holds a present entry.
-/

namespace Sbunix

open Lib Lib.Radix

/-- `set_CR3`. -/
def setCR3 (newCr3 : UInt64) (k : Kernel) : Kernel := { k with cr3 := newCr3 }

/-- `newPML4->pt_entries[i] = curPML4->pt_entries[i]`. -/
def copyEntry (newPML4 curPML4 : UInt64) (k : Kernel) (i : Fin 512) : Kernel :=
  k.setPtEntry newPML4 (UInt64.ofNat i) (k.ptEntry curPML4 (UInt64.ofNat i))

/-- `set_user_AddrSpace`. -/
def setUserAddrSpace (k : Kernel) : Option (UInt64 × Kernel) := do
  let (newPML4, k) ← k.pageAllocAddr
  some (newPML4, (List.finRange 512).foldl (copyEntry newPML4 k.cr3) k)

/-- A new address space, and the calls of `map_process` made while it is in `CR3`. -/
def createSpace (calls : List (UInt64 × UInt64)) (k : Kernel) : Option Kernel := do
  let (newPML4, k) ← setUserAddrSpace k
  mapProcesses (setCR3 newPML4 k) calls

/-- The paths of the lower half. -/
abbrev lowerPaths : Set (List (Fin 512)) := pathsBelow 256

/-- A lower-half virtual address. -/
def Lower (v : UInt64) : Prop := v.toNat < 2 ^ 47

instance (v : UInt64) : Decidable (Lower v) := inferInstanceAs (Decidable (_ < _))

theorem Lower.path_mem {v : UInt64} (h : Lower v) : path v ∈ lowerPaths := by
  refine ⟨by simp [path], ?_⟩
  intro i hi
  obtain rfl : slot (getPML4Index v) = i := by simpa [path] using hi
  rw [slot_val_pml4]
  unfold Lower at h
  omega

theorem path_maximal_below (n : Nat) (v : UInt64) (i : Fin 512) :
    path v ++ [i] ∉ pathsBelow n := by
  simp [pathsBelow, path]

/-! ## The copy of the PML4 -/

theorem toNat_ofNat_fin (i : Fin 512) : (UInt64.ofNat i).toNat = i.val := by
  have := i.isLt
  exact toNat_ofNat_of_lt (by omega)

/-- Copying entries from one table to another, entry by entry. -/
theorem copyEntry_foldl {new cur : UInt64} {f c : Nat} (hnew : new.toNat = 4096 * f)
    (hcur : cur.toNat = 4096 * c) (hne : f ≠ c) (is : List (Fin 512)) (k : Kernel) :
    (∀ g j, entry (is.foldl (copyEntry new cur) k).mem g j =
        if g = f ∧ j ∈ is then entry k.mem c j else entry k.mem g j) ∧
      (∀ g, g ≠ f → SamePage k.mem (is.foldl (copyEntry new cur) k).mem g) ∧
      (is.foldl (copyEntry new cur) k).frames = k.frames := by
  induction is generalizing k with
  | nil => exact ⟨fun g j => by simp, fun g _ => SamePage.refl _ _, rfl⟩
  | cons i is ih =>
    obtain ⟨hent, hsame, hframes⟩ := ih (copyEntry new cur k i)
    have hstep : ∀ g j, entry (copyEntry new cur k i).mem g j =
        if g = f ∧ j = i then entry k.mem c i else entry k.mem g j := by
      intro g j
      rw [copyEntry, entry_setPtEntry hnew (toNat_ofNat_fin i),
        ptEntry_eq hcur (toNat_ofNat_fin i)]
      rfl
    have hcur' : ∀ j, entry (copyEntry new cur k i).mem c j = entry k.mem c j := by
      intro j
      rw [hstep, if_neg fun h => hne h.1.symm]
    refine ⟨?_, ?_, hframes⟩
    · intro g j
      rw [List.foldl_cons, hent, hcur', hstep]
      by_cases hgf : g = f
      · by_cases hji : j = i
        · subst hji; simp [hgf]
        · simp [hgf, hji]
      · simp [hgf]
    · intro g hg
      exact (samePage_setPtEntry hnew (toNat_ofNat_fin i) _ hg).trans (hsame g hg)

section

variable {U : Set Nat} {c root : Nat} {k k' k₁ : Kernel} {a : UInt64}

theorem setUserAddrSpace_eq (k : Kernel) :
    setUserAddrSpace k = k.pageAllocAddr.map fun r =>
      (r.1, (List.finRange 512).foldl (copyEntry r.1 r.2.cr3) r.2) := by
  rw [setUserAddrSpace]
  cases k.pageAllocAddr <;> rfl

theorem agree_pop (h : Agree U k k') : Agree U k.pop k'.pop := by
  refine ⟨?_, h.cr3, h.mem⟩
  rw [Kernel.pop, Kernel.pop, h.frames]

theorem agree_setCR3 (h : Agree U k k') (a : UInt64) : Agree U (setCR3 a k) (setCR3 a k') :=
  ⟨h.frames, rfl, h.mem⟩

/-- Entries of a table in `U` are copied on both machines. -/
theorem copyEntry_agree {new cur cur' : UInt64} (hnew : new.toNat = 4096 * c)
    (hcur : cur.toNat = 4096 * root) (hcur' : cur'.toNat = 4096 * root) (hroot : root ∈ U)
    (is : List (Fin 512)) (h : Agree U k k') :
    Agree U (is.foldl (copyEntry new cur) k) (is.foldl (copyEntry new cur') k') := by
  induction is generalizing k k' with
  | nil => exact h
  | cons i is ih =>
    have hentry : k'.ptEntry cur' (UInt64.ofNat i) = k.ptEntry cur (UInt64.ofNat i) := by
      rw [ptEntry_eq hcur' (toNat_ofNat_fin i), ptEntry_eq hcur (toNat_ofNat_fin i)]
      exact h.entry hroot i
    refine ih ?_
    rw [copyEntry, copyEntry, hentry]
    exact h.setPtEntry hnew (toNat_ofNat_fin i) _

/-- The new PML4 gets the same entries on both machines. -/
theorem setUserAddrSpace_agree (h : Agree U k k') (hcr3 : k.cr3.toNat = 4096 * root)
    (hroot : root ∈ U) (hne : c ≠ root) (ha : a.toNat = 4096 * c)
    (hrun : setUserAddrSpace k = some (a, k₁)) :
    ∃ k₁', setUserAddrSpace k' = some (a, k₁') ∧ Agree U (setCR3 a k₁) (setCR3 a k₁') ∧
      ∀ f ≠ c, SamePage k'.mem k₁'.mem f := by
  rw [setUserAddrSpace_eq] at hrun ⊢
  obtain ⟨⟨b, k₂⟩, hpop, hcopy⟩ := Option.map_eq_some_iff.1 hrun
  obtain ⟨rfl, hpop', hagree⟩ := h.pageAllocAddr hpop
  obtain ⟨rfl, hk₁⟩ := Prod.mk.inj hcopy
  have hcr3' : k'.pop.cr3.toNat = 4096 * root := hagree.cr3 ▸ hcr3
  have hcr3k : k.pop.cr3.toNat = 4096 * root := hcr3
  have hcopied := copyEntry_agree ha hcr3k hcr3' hroot (List.finRange 512) hagree
  have hsame := (copyEntry_foldl ha hcr3' hne (List.finRange 512) k'.pop).2.1
  rw [hpop', Option.map_some]
  dsimp only at hk₁ hcopied hsame ⊢
  rw [hk₁] at hcopied
  generalize List.foldl _ k'.pop _ = l at hcopied hsame ⊢
  exact ⟨l, rfl, agree_setCR3 hcopied b, hsame⟩

end

/-- What `set_user_AddrSpace` leaves: the new PML4 in frame `f` has the entries of the current one
in frame `c`, and the existing address spaces are as before. -/
structure NewSpace (R : Set Nat) (c f : Nat) (k k' : Kernel) (fl : List Nat) : Prop where
  paging : Paging lowerPaths (insert f R) k' fl
  tables : ∀ {r q}, r ∈ R → q ∈ lowerPaths → k'.table r q = k.table r q
  leaves : ∀ {r q j}, r ∈ R → q ∈ lowerPaths → k'.leaf r q j = k.leaf r q j
  below : ∀ {r}, r ∈ R → ∀ i, k'.below r i = k.below r i
  shared : ∀ i, k'.below f i = k.below c i
  new : f ∉ R

theorem setUserAddrSpace_spec {R : Set Nat} {c f : Nat} {k : Kernel} {fl : List Nat}
    (h : BesideFree lowerPaths R k (f :: fl)) (hblank : ∀ g ∈ fl, Blank k.mem g) (hc : c ∈ R)
    (hcr3 : k.cr3.toNat = 4096 * c) :
    ∃ a k', setUserAddrSpace k = some (a, k') ∧ a.toNat = 4096 * f ∧ NewSpace R c f k k' fl := by
  have hS := prefixClosed_pathsBelow 256
  have hfresh := h.fresh f (by simp)
  have hfR : f ∉ R := fun hf => hfresh.ne hS hf rfl
  have hne : f ≠ c := hfresh.ne hS hc
  obtain ⟨a, hpop, ha, hfree⟩ := h.free.pageAllocAddr_cons
  obtain ⟨hent, hsame, hframes⟩ := copyEntry_foldl ha hcr3 hne (List.finRange 512) k.pop
  set k' := (List.finRange 512).foldl (copyEntry a k.cr3) k.pop with hk'
  -- The existing tables are untouched.
  have hagree : ∀ t, ¬ Fresh pte (entry k.mem) lowerPaths R t → ∀ i,
      entry k'.mem t i = entry k.mem t i := by
    intro t ht i
    rw [hent, if_neg]
    · rfl
    · rintro ⟨rfl, -⟩
      exact ht hfresh
  have htables : ∀ {r q}, r ∈ R → q ∈ lowerPaths → k'.table r q = k.table r q :=
    fun hr hq => tableAt_of_agree hS hr hq hagree
  have hbelow : ∀ {r}, r ∈ R → ∀ i, k'.below r i = k.below r i := by
    intro r hr i
    rw [Kernel.below, Kernel.below, next, next,
      hagree r (fun hf => hf r hr [] hS.nil rfl) i]
  have hcopy : ∀ i, k'.below f i = k.below c i := by
    intro i
    have hi : entry k'.mem f i = entry k.mem c i := by
      rw [hent, if_pos ⟨rfl, List.mem_finRange i⟩]
      rfl
    rw [Kernel.below, Kernel.below, next, next, hi]
  have hfresh' : Fresh pte (entry k'.mem) lowerPaths R f := by
    intro r hr q hq
    rw [← Kernel.table, htables hr hq]
    exact hfresh r hr q hq
  have hforest : Forest pte (entry k'.mem) lowerPaths (insert f R) :=
    (forest_of_agree hS h.forest hagree).insert_copy hc hfresh' fun i =>
      (hcopy i).trans (hbelow hc i).symm
  refine ⟨a, k', ?_, ha, ⟨hforest, ?_, ?_, ?_⟩,
    htables, fun hr hq => leafAt_of_agree hS hr hq hagree, hbelow, hcopy, hfR⟩
  · simp only [setUserAddrSpace, hpop, Option.bind_eq_bind, Option.bind_some]
    rfl
  · rw [hframes]
    exact hfree
  · intro g hg r hr q hq hgq
    have hgfl : g ∈ f :: fl := by simp [hg]
    have hgf : g ≠ f := fun hgf => (List.nodup_cons.1 h.free.nodup).1 (hgf ▸ hg)
    rcases hr with rfl | hr
    · cases q with
      | nil => exact hgf (Option.some.inj hgq).symm
      | cons i q =>
        rw [tableAt_of_next_eq ((hcopy i).trans (hbelow hc i).symm), ← Kernel.table,
          htables hc hq] at hgq
        exact h.fresh g hgfl c hc _ hq hgq
    · rw [← Kernel.table, htables hr hq] at hgq
      exact h.fresh g hgfl r hr q hq hgq
  · intro g hg
    have hgf : g ≠ f := fun hgf => (List.nodup_cons.1 h.free.nodup).1 (hgf ▸ hg)
    exact (hblank g hg).congr (hsame g hgf)

/-! ## Mapping in a shared address space -/

/-- The process `x` and the new one have the same table below entry `i` of their PML4s. -/
def Shares (k : Kernel) (x f : Nat) (i : Fin 512) : Prop :=
  k.below x i = k.below f i ∧ k.below x i ≠ none

section

variable {R : Set Nat} {f x : Nat} {k k' : Kernel} {fl : List Nat}

/-- One call under the PML4 `f`: the other processes see it exactly where they share. -/
theorem mapProcess_shared (h : Paging lowerPaths R k fl) (hf : f ∈ R)
    (hcr3 : k.cr3.toNat = 4096 * f) {v : UInt64} (hv : Lower v) (p : UInt64) :
    mapProcess v p k = none ∧ fl.length < 3 ∨
      ∃ k' fl', mapProcess v p k = some k' ∧ Paging lowerPaths R k' fl' ∧
        k'.cr3.toNat = 4096 * f ∧ fl.length ≤ fl'.length + 3 ∧
        ∀ x ∈ R, x ≠ f → (∀ i, [i] ∈ lowerPaths → (Shares k' x f i ↔ Shares k x f i)) ∧
          ∀ w, Lower w →
            (Shares k x f (slot (getPML4Index w)) → vpage w = vpage v →
              walk k'.mem x w = some (p ||| pteFlags)) ∧
            (¬ (Shares k x f (slot (getPML4Index w)) ∧ vpage w = vpage v) →
              walk k'.mem x w = walk k.mem x w) := by
  have hS := prefixClosed_pathsBelow 256
  rcases mapPage_spec hS h hf hcr3 hv.path_mem (path_maximal_below 256 v) p with
    hnone | ⟨k', fl', t, hsome, hext, hlen, ht, hleaf⟩
  · exact Or.inl hnone
  refine Or.inr ⟨k', fl', hsome, hext.paging, hext.cr3 ▸ hcr3, hlen, ?_⟩
  intro x hx hxf
  have hkeep : ∀ i, k'.below x i = k.below x i := hext.roots hx hxf
  have hshares : ∀ i, [i] ∈ lowerPaths → (Shares k' x f i ↔ Shares k x f i) := by
    intro i hi
    unfold Shares
    rw [hkeep]
    refine and_congr_left ?_
    intro hne
    obtain ⟨d, hd⟩ := Option.ne_none_iff_exists'.1 hne
    have hxd : k.table x [i] = some d := tableAt_singleton.trans hd
    constructor
    · intro heq
      -- The new PML4 did not get this table from the free list: `x` had it already.
      have hfd : k'.table f [i] = some d := tableAt_singleton.trans (heq.symm.trans hd)
      rcases hext.new hf hi hfd with hold | hmem
      · exact hd.trans (tableAt_singleton.symm.trans hold).symm
      · exact absurd hxd (h.fresh d hmem x hx [i] hi)
    · intro heq
      have hfd : k.table f [i] = some d := tableAt_singleton.trans (heq.symm.trans hd)
      exact hd.trans (tableAt_singleton.symm.trans (hext.tables hf hi hfd)).symm
  refine ⟨hshares, ?_⟩
  intro w hw
  have hwi : [slot (getPML4Index w)] ∈ lowerPaths := hS.head hw.path_mem
  have hwalk : walk k'.mem x w = if k'.table x (path w) = some t ∧ ptSlot w = ptSlot v
      then some (p ||| pteFlags) else walk k.mem x w :=
    hleaf hx hw.path_mem (path_maximal_below 256 w)
  refine ⟨?_, ?_⟩
  · intro hsh hpage
    obtain ⟨hpath, hslot⟩ := same_page_iff.2 hpage
    have heq := ((hshares _ hwi).2 hsh).1
    have hxt : k'.table x (path w) = some t := by
      rw [← ht, ← hpath]
      exact tableAt_of_next_eq heq _
    rw [hwalk, if_pos ⟨hxt, hslot⟩]
  · intro hns
    rw [hwalk, if_neg]
    rintro ⟨hxt, hslot⟩
    have hpath : path w = path v :=
      hext.paging.forest.path_eq hx hf hw.path_mem hv.path_mem hxt ht
    refine hns ⟨(hshares _ hwi).1 ⟨?_, ?_⟩, same_page_iff.1 ⟨hpath, hslot⟩⟩
    · rw [← hpath] at ht
      exact hext.paging.forest.slot_eq hx hf hw.path_mem hxt ht
    · obtain ⟨d, hd, -⟩ := exists_next_of_tableAt hxt
      rw [Kernel.below, hd]
      simp

/-- A sequence of calls under the PML4 `f`. -/
theorem mapProcesses_shared (h : Paging lowerPaths R k fl) (hf : f ∈ R)
    (hcr3 : k.cr3.toNat = 4096 * f) {calls : List (UInt64 × UInt64)}
    (hcalls : ∀ c ∈ calls, Lower c.1) (hrun : mapProcesses k calls = some k') (hx : x ∈ R)
    (hxf : x ≠ f) {w : UInt64} (hw : Lower w) :
    (∀ p, Shares k x f (slot (getPML4Index w)) → lastFor w calls = some p →
      walk k'.mem x w = some (p ||| pteFlags)) ∧
    (¬ Shares k x f (slot (getPML4Index w)) ∨ lastFor w calls = none →
      walk k'.mem x w = walk k.mem x w) := by
  induction calls generalizing k fl with
  | nil =>
    obtain rfl : k = k' := by simpa [mapProcesses] using hrun
    exact ⟨fun p _ hp => by simp [lastFor] at hp, fun _ => rfl⟩
  | cons c calls ih =>
    simp only [mapProcesses, List.foldlM_cons, Option.bind_eq_bind,
      Option.bind_eq_some_iff] at hrun
    obtain ⟨k₁, hstep, hrest⟩ := hrun
    rcases mapProcess_shared h hf hcr3 (hcalls c (by simp)) c.2 with
      ⟨hnone, -⟩ | ⟨k₁', fl₁, hsome, h₁, hcr3₁, -, hother⟩
    · exact absurd (hnone.symm.trans hstep) (by simp)
    obtain rfl : k₁' = k₁ := Option.some.inj (hsome.symm.trans hstep)
    obtain ⟨hshares, hwalk₁⟩ := hother x hx hxf
    obtain ⟨hself, hkeep⟩ := hwalk₁ w hw
    obtain ⟨hlast, hsame⟩ := ih h₁ hcr3₁ (fun c hc => hcalls c (by simp [hc])) hrest
    have hwi : [slot (getPML4Index w)] ∈ lowerPaths :=
      (prefixClosed_pathsBelow 256).head hw.path_mem
    have hsh := hshares _ hwi
    constructor
    · intro p hs hp
      cases hl : lastFor w calls with
      | some p' =>
        obtain rfl : p' = p := by simpa [lastFor, hl] using hp
        exact hlast p' (hsh.2 hs) hl
      | none =>
        rw [hsame (Or.inr hl)]
        by_cases hpage : vpage c.1 = vpage w
        · obtain rfl : c.2 = p := by simpa [lastFor, hl, hpage] using hp
          exact hself hs hpage.symm
        · simp [lastFor, hl, hpage] at hp
    · rintro (hns | hnone)
      · rw [hsame (Or.inl fun h' => hns (hsh.1 h')), hkeep fun h' => hns h'.1]
      · rw [lastFor, Option.or_eq_none_iff] at hnone
        rw [hsame (Or.inr hnone.1), hkeep fun h' => ?_]
        simp [h'.2] at hnone

end

/-! ## Isolation at process creation -/

/-- The existing processes `R`, the creator `c` among them with its PML4 in `CR3` and its tables at
the paths `D`. The free frames may hold anything. -/
structure Processes (R : Set Nat) (c : Nat) (D : Finset (List (Fin 512))) (k : Kernel)
    (fl : List Nat) : Prop where
  beside : BesideFree lowerPaths R k fl
  creator : c ∈ R
  cr3 : k.cr3.toNat = 4096 * c
  tables : ∀ {q}, q ∈ lowerPaths → ((k.table c q).isSome ↔ q ∈ D)

/-- Every lower-half address translates under every existing PML4 as it did before. -/
def Isolated (R : Set Nat) (k k' : Kernel) : Prop :=
  ∀ x ∈ R, ∀ w, Lower w → walk k'.mem x w = walk k.mem x w

/-- Each page the calls name is under a PML4 entry the creator does not have, or is mapped by the
creator already, to the very entry its last call installs. -/
def Harmless (c : Nat) (k : Kernel) (calls : List (UInt64 × UInt64)) : Prop :=
  ∀ w, Lower w → ∀ p, lastFor w calls = some p →
    k.below c (slot (getPML4Index w)) = none ∨
      walk k.mem c w = some (p ||| (pteP ||| pteW ||| pteU))

/-- The frames that become tables: the first frame is for the PML4, and behind it there is one for
each table that the creator does not have for the pages. -/
def newTables (D : Finset (List (Fin 512))) (fl : List Nat) (calls : List (UInt64 × UInt64)) :
    List Nat :=
  fl.tail.take ((withPaths (calls.map Prod.fst) D).card - D.card)

section

variable {R : Set Nat} {c x : Nat} {D : Finset (List (Fin 512))} {k k' : Kernel} {fl : List Nat}
  {calls : List (UInt64 × UInt64)}

/-- An existing process sees the calls exactly under the PML4 entries it shares with its
creator. -/
theorem createSpace_walk (h : Processes R c D k fl) (hblank : ∀ g ∈ fl.tail, Blank k.mem g)
    (hcalls : ∀ d ∈ calls, Lower d.1) (hrun : createSpace calls k = some k') (hx : x ∈ R)
    {w : UInt64} (hw : Lower w) :
    (∀ p, Shares k x c (slot (getPML4Index w)) → lastFor w calls = some p →
      walk k'.mem x w = some (p ||| pteFlags)) ∧
    (¬ Shares k x c (slot (getPML4Index w)) ∨ lastFor w calls = none →
      walk k'.mem x w = walk k.mem x w) := by
  cases fl with
  | nil => simp [createSpace, setUserAddrSpace, h.beside.free.pageAllocAddr_nil] at hrun
  | cons f fl =>
    obtain ⟨a, k₁, hset, ha, hnew⟩ := setUserAddrSpace_spec h.beside hblank h.creator h.cr3
    simp only [createSpace, hset, Option.bind_eq_bind, Option.bind_some] at hrun
    have hpaging : Paging lowerPaths (insert f R) (setCR3 a k₁) fl :=
      ⟨hnew.paging.forest, hnew.paging.free, hnew.paging.fresh, hnew.paging.blank⟩
    have hxf : x ≠ f := fun hxf => hnew.new (hxf ▸ hx)
    have hshares : ∀ i, Shares (setCR3 a k₁) x f i ↔ Shares k x c i := by
      intro i
      unfold Shares
      rw [show (setCR3 a k₁).below x i = k.below x i from hnew.below hx i,
        show (setCR3 a k₁).below f i = k.below c i from hnew.shared i]
    have hwalk : walk (setCR3 a k₁).mem x w = walk k.mem x w := hnew.leaves hx hw.path_mem
    obtain ⟨hsh, hns⟩ := mapProcesses_shared hpaging (Set.mem_insert f R) ha hcalls hrun
      (Set.mem_insert_of_mem f hx) hxf hw
    rw [hshares, hwalk] at hns
    exact ⟨fun p hs hp => hsh p ((hshares _).2 hs) hp, hns⟩

/-- The calls leave the existing processes alone exactly when they are harmless, if no free frame
holds a present entry. -/
theorem isolated_iff_harmless (h : Processes R c D k fl) (hblank : ∀ g ∈ fl.tail, Blank k.mem g)
    (hcalls : ∀ d ∈ calls, Lower d.1) (hrun : createSpace calls k = some k') :
    Isolated R k k' ↔ Harmless c k calls := by
  constructor
  · intro hiso w hw p hp
    by_cases hnone : k.below c (slot (getPML4Index w)) = none
    · exact Or.inl hnone
    · refine Or.inr ?_
      rw [← hiso c h.creator w hw]
      exact (createSpace_walk h hblank hcalls hrun h.creator hw).1 p ⟨rfl, hnone⟩ hp
  · intro hharm x hx w hw
    obtain ⟨hsh, hns⟩ := createSpace_walk h hblank hcalls hrun hx hw
    by_cases hshares : Shares k x c (slot (getPML4Index w))
    · cases hl : lastFor w calls with
      | none => exact hns (Or.inr hl)
      | some p =>
        -- A process that shares the entry translates `w` as the creator does.
        have hxc : walk k.mem x w = walk k.mem c w :=
          leafAt_of_tableAt_eq (tableAt_of_next_eq hshares.1 _)
        rcases hharm w hw p hl with hnone | hsame
        · exact absurd (hshares.1.trans hnone) hshares.2
        · rw [hsh p hshares hl, hxc, hsame]
          rfl
    · exact hns (Or.inl hshares)

/-! ### Any contents of the free frames -/

theorem spare_tail_subset (fl T : List Nat) : spare fl.tail T ⊆ fl :=
  fun _ hf => List.mem_of_mem_tail (mem_spare.1 hf).1

theorem Processes.cleared (h : Processes R c D k fl) (T : List Nat) :
    Processes R c D (k.cleared (spare fl.tail T)) fl where
  beside := h.beside.cleared (prefixClosed_pathsBelow 256) (spare_tail_subset fl T)
  creator := h.creator
  cr3 := h.cr3
  tables hq := by
    rw [h.beside.table_cleared (prefixClosed_pathsBelow 256) (spare_tail_subset fl T) h.creator hq]
    exact h.tables hq

/-- The new PML4 has tables where the creator has them. -/
theorem NewSpace.tabled {f : Nat} {a : UInt64} (h : NewSpace R c f k k' fl) (hc : c ∈ R)
    (htables : ∀ {q}, q ∈ lowerPaths → ((k.table c q).isSome ↔ q ∈ D)) :
    Tabled lowerPaths (insert f R) f D (setCR3 a k') fl where
  mem := Set.mem_insert f R
  paging := ⟨h.paging.forest, h.paging.free, h.paging.fresh, h.paging.blank⟩
  tables {q} hq := by
    rw [← htables hq]
    cases q with
    | nil => exact iff_of_true rfl rfl
    | cons i q =>
      have hsame : k'.table f (i :: q) = k'.table c (i :: q) :=
        tableAt_of_next_eq ((h.shared i).trans (h.below hc i).symm) q
      have hkept : k'.table c (i :: q) = k.table c (i :: q) := h.tables hc hq
      exact iff_of_eq (congrArg (fun o : Option Nat => (o.isSome : Prop)) (hsame.trans hkept))

/-- A creation beside the one on the machine whose free frames are cleared, other than `T`. The new
PML4 is in frame `f`. -/
structure Creation (R : Set Nat) (c f : Nat) (fl T : List Nat) (calls : List (UInt64 × UInt64))
    (a : UInt64) (k l l₀ k' k₀' : Kernel) : Prop where
  addr : a.toNat = 4096 * f
  copied : setUserAddrSpace k = some (a, l)
  copied₀ : setUserAddrSpace (k.cleared (spare fl T)) = some (a, l₀)
  new : NewSpace R c f (k.cleared (spare fl T)) l₀ fl
  before : Agree {g | g ∉ spare fl T} (setCR3 a l₀) (setCR3 a l)
  run : mapProcesses (setCR3 a l) calls = some k'
  run₀ : mapProcesses (setCR3 a l₀) calls = some k₀'
  after : Agree {g | g ∉ spare fl T} k₀' k'
  tables : ∀ r ∈ insert f R, ∀ q ∈ lowerPaths, ∀ g, k₀'.table r q = some g →
    l₀.table r q = some g ∨ g ∈ T

section

variable {f : Nat} {T : List Nat} {a : UInt64} {l l₀ k₀' : Kernel}
  (h : Creation R c f fl T calls a k l l₀ k' k₀')

include h

theorem Creation.used {r : Nat} (hr : r ∈ insert f R) {q : List (Fin 512)} (hq : q ∈ lowerPaths)
    {g : Nat} (hg : k₀'.table r q = some g) : g ∉ spare fl T := by
  intro hspare
  rcases h.tables r hr q hq g hg with hold | hnew
  · exact h.new.paging.fresh g (mem_spare.1 hspare).1 r hr q hq hold
  · exact (mem_spare.1 hspare).2 hnew

theorem Creation.runs : createSpace calls k = some k' ∧
    createSpace calls (k.cleared (spare fl T)) = some k₀' := by
  rw [createSpace, createSpace, h.copied, h.copied₀]
  exact ⟨h.run, h.run₀⟩

/-- The existing processes have the same translations on both machines. -/
theorem Creation.walk_eq (hx : x ∈ R) {w : UInt64} (hw : Lower w) :
    walk k'.mem x w = walk k₀'.mem x w :=
  h.after.leaf (prefixClosed_pathsBelow 256) (fun _ hr _ hq _ hg => h.used hr hq hg)
    (Set.mem_insert_of_mem f hx) hw.path_mem (ptSlot w)

end

/-- **Creation beside a machine with cleared frames.** -/
theorem exists_creation {f : Nat} (h : Processes R c D k (f :: fl))
    (hcalls : ∀ d ∈ calls, Lower d.1)
    (hlen : (withPaths (calls.map Prod.fst) D).card ≤ fl.length + D.card)
    (hclean : ∀ g ∈ newTables D (f :: fl) calls, Blank k.mem g) :
    ∃ a l l₀ k' k₀', Creation R c f fl (newTables D (f :: fl) calls) calls a k l l₀ k' k₀' := by
  have hS := prefixClosed_pathsBelow 256
  set T := newTables D (f :: fl) calls with hT
  have h₀ : Processes R c D (k.cleared (spare fl T)) (f :: fl) := h.cleared T
  have hagree : Agree {g | g ∉ spare fl T} (k.cleared (spare fl T)) k := agree_cleared k _
  have hblank : ∀ g ∈ fl, Blank (k.cleared (spare fl T)).mem g := fun g hg =>
    blank_cleared hclean hg
  set k₀ := k.cleared (spare fl T)
  obtain ⟨a, l₀, hset₀, ha, hnew⟩ := setUserAddrSpace_spec h₀.beside hblank h.creator h.cr3
  have hc : c ∉ spare fl T := fun hmem =>
    h₀.beside.fresh c (List.mem_cons_of_mem f (mem_spare.1 hmem).1) c h.creator [] hS.nil rfl
  obtain ⟨l, hset, hagree₁, -⟩ := setUserAddrSpace_agree hagree h.cr3 hc
    ((h₀.beside.fresh f List.mem_cons_self).ne hS h.creator) ha hset₀
  obtain ⟨k₀', hrun₀, -, hext, hagree'⟩ := mapProcesses_tabled hS
    (hnew.tabled h.creator h₀.tables) ha
    (fun d hd => ⟨(hcalls d hd).path_mem, path_maximal_below 256 d.1⟩) hlen
  have hdrop : fl = T ++ fl.drop ((withPaths (calls.map Prod.fst) D).card - D.card) := by
    rw [hT, newTables, List.tail_cons, List.take_append_drop]
  -- A table is one of before, the new PML4, or one of the frames `T`.
  have htables : ∀ r ∈ insert f R, ∀ q ∈ lowerPaths, ∀ g, k₀'.table r q = some g →
      l₀.table r q = some g ∨ g ∈ T := by
    intro r hr q hq g hg
    refine (hext.new hr hq hg).imp_right ?_
    intro hfl
    rw [hdrop] at hfl
    exact (List.mem_append.1 hfl).resolve_right fun hrest => hext.paging.fresh g hrest r hr q hq hg
  obtain ⟨k', hrun, hafter⟩ := hagree' hagree₁ (by
    intro q hq g hg hspare
    rcases htables f (Set.mem_insert f R) q hq g hg with hold | hmem
    · exact hnew.paging.fresh g (mem_spare.1 hspare).1 f (Set.mem_insert f R) q hq hold
    · exact (mem_spare.1 hspare).2 hmem)
  exact ⟨a, l, l₀, k', k₀', ha, hset, hset₀, hnew, hagree₁, hrun, hrun₀, hafter, htables⟩

/-- With no present entry in the frames that become tables, the calls leave the existing processes
alone exactly when they are harmless. -/
theorem Creation.isolated_iff {f : Nat} {a : UInt64} {l l₀ k₀' : Kernel}
    (hb : Creation R c f fl (newTables D (f :: fl) calls) calls a k l l₀ k' k₀')
    (h : Processes R c D k (f :: fl)) (hcalls : ∀ d ∈ calls, Lower d.1)
    (hclean : ∀ g ∈ newTables D (f :: fl) calls, Blank k.mem g) :
    Isolated R k k' ↔ Harmless c k calls := by
  have hS := prefixClosed_pathsBelow 256
  set T := newTables D (f :: fl) calls
  have hsub : spare fl T ⊆ f :: fl := spare_tail_subset (f :: fl) T
  have h₀ : Processes R c D (k.cleared (spare fl T)) (f :: fl) := h.cleared T
  obtain ⟨-, hrun₀⟩ := hb.runs
  have hwalk : ∀ x ∈ R, ∀ w, Lower w →
      walk (k.cleared (spare fl T)).mem x w = walk k.mem x w :=
    fun x hx w hw => h.beside.leaf_cleared hS hsub hx hw.path_mem _
  have hbelow : ∀ w, Lower w → (k.cleared (spare fl T)).below c (slot (getPML4Index w)) =
      k.below c (slot (getPML4Index w)) := by
    intro w hw
    have htable := h.beside.table_cleared hS hsub h.creator (hS.head hw.path_mem)
    rwa [Kernel.table, tableAt_singleton, Kernel.table, tableAt_singleton] at htable
  have hiso : Isolated R k k' ↔ Isolated R (k.cleared (spare fl T)) k₀' :=
    forall₂_congr fun x hx => forall₂_congr fun w hw => by rw [hb.walk_eq hx hw, hwalk x hx w hw]
  have hharm : Harmless c k calls ↔ Harmless c (k.cleared (spare fl T)) calls :=
    forall₂_congr fun w hw => by rw [hbelow w hw, hwalk c h.creator w hw]
  rw [hiso, hharm]
  exact isolated_iff_harmless h₀ (fun g hg => blank_cleared hclean hg) hcalls hrun₀

end

theorem Paging.mono {S S' : Set (List (Fin 512))} {R : Set Nat} {k : Kernel} {fl : List Nat}
    (h : Paging S R k fl) (hsub : S' ⊆ S) : Paging S' R k fl where
  forest := ⟨fun hr hs hp hq => h.forest.path_eq hr hs (hsub hp) (hsub hq),
    fun hr hs hp => h.forest.slot_eq hr hs (hsub hp)⟩
  free := h.free
  fresh f hf r hr q hq := h.fresh f hf r hr q (hsub hq)
  blank := h.blank

/-- A process alone. -/
theorem Tabled.processes {k : Kernel} {c : Nat} {D : Finset (List (Fin 512))} {fl : List Nat}
    (h : Tabled allPaths {c} c D k fl) (hcr3 : k.cr3.toNat = 4096 * c) :
    Processes {c} c D k fl where
  beside := (h.paging.mono fun _ hq => hq.1).beside
  creator := rfl
  cr3 := hcr3
  tables hq := h.tables hq.1

end Sbunix
