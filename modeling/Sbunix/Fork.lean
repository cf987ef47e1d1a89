import Sbunix.UserSpace
import Mathlib.Algebra.BigOperators.Fin

/-!
# Copying the page tables of a process

`copy_page_tables_forchild` walks the parent's tables in four nested loops. For every table it
meets it links a new one into the child's tree, and every present PT entry is replaced, in the
parent and in the child, by an entry for the same frame that is not writable and has `PTE_COW`.

The loops differ in their depth only, so one body serves the three outer ones. `Copied T P n`
describes any part of the work: the child's tables along the paths of `T` may have been built, the
entries at the positions `P` have been copied, `n` frames were used, and nothing else has
changed. Parts compose (`Copied.trans`); `copySlots_spec` assembles a loop from its iterations and
`copyPageTablesForchild_spec` the whole call from the loops.
-/

namespace Sbunix

open Lib Lib.Radix

/-! ## The loops -/

/-- The entry a fork leaves in both processes. -/
def cowEntry (entry : UInt64) : UInt64 := getAddress entry ||| (pteP ||| pteU ||| pteCow)

/-- The body of the innermost loop. -/
def copyPtEntry (cPt pPt : UInt64) (k : Kernel) (i : Fin 512) : Kernel :=
  let ptEntry := k.ptEntry pPt (UInt64.ofNat i)
  if ptEntry &&& pteP ≠ 0 then
    (k.setPtEntry cPt (UInt64.ofNat i) (cowEntry ptEntry)).setPtEntry pPt (UInt64.ofNat i)
      (cowEntry ptEntry)
  else k

/-- The innermost loop, over the entries of a PT. -/
def copyPt (cPt pPt : UInt64) (k : Kernel) : Option Kernel :=
  some ((List.finRange 512).foldl (copyPtEntry cPt pPt) k)

/-- The common body of the three outer loops: a table for the child, then the loop below it. -/
def copyEntryBelow (alloc : UInt64 → UInt64 → Kernel → Option (UInt64 × Kernel))
    (copyTable : UInt64 → UInt64 → Kernel → Option Kernel) (cTable pTable : UInt64) (k : Kernel)
    (i : Fin 512) : Option Kernel :=
  let entry := k.ptEntry pTable (UInt64.ofNat i)
  if entry &&& pteP ≠ 0 then do
    let (cBelow, k) ← alloc cTable (UInt64.ofNat i) k
    copyTable cBelow (getAddress entry) k
  else some k

/-- The loop over the entries of a PDT. -/
def copyPdt (cPdt pPdt : UInt64) (k : Kernel) : Option Kernel :=
  (List.finRange 512).foldlM (copyEntryBelow ptAlloc copyPt cPdt pPdt) k

/-- The loop over the entries of a PDPT. -/
def copyPdpt (cPdpt pPdpt : UInt64) (k : Kernel) : Option Kernel :=
  (List.finRange 512).foldlM (copyEntryBelow pdtAlloc copyPdt cPdpt pPdpt) k

/-- The PML4 entries below 510. -/
def userSlots : List (Fin 512) := (List.finRange 510).map (Fin.castLE (by decide))

/-- `copy_page_tables_forchild`. The last two entries of the PML4 are shared. -/
def copyPageTablesForchild (childPML4 : UInt64) (k : Kernel) : Option Kernel := do
  let pPml4 := k.cr3
  let k ← userSlots.foldlM (copyEntryBelow pdptAlloc copyPdpt childPML4 pPml4) k
  let k := k.setPtEntry childPML4 511 (k.ptEntry pPml4 511)
  some (k.setPtEntry childPML4 510 (k.ptEntry pPml4 510))

/-! ## The paths of a fork -/

/-- The paths below the PML4 entries that a fork copies. -/
abbrev userPaths : Set (List (Fin 512)) := pathsBelow 510

theorem prefixClosed_userPaths : PrefixClosed userPaths := prefixClosed_pathsBelow 510

/-- The entries a loop at the end of `p` visits. -/
def slotsAt (p : List (Fin 512)) : List (Fin 512) := if p = [] then userSlots else List.finRange 512

theorem mem_userSlots {j : Fin 512} : j ∈ userSlots ↔ j.val < 510 := by
  simp only [userSlots, List.mem_map, List.mem_finRange, true_and]
  constructor
  · rintro ⟨i, rfl⟩
    exact i.isLt
  · intro hj
    exact ⟨⟨j.val, hj⟩, rfl⟩

theorem nodup_slotsAt (p : List (Fin 512)) : (slotsAt p).Nodup := by
  unfold slotsAt
  split_ifs
  · exact (List.nodup_finRange 510).map fun _ _ h => Fin.castLE_injective _ h
  · exact List.nodup_finRange 512

theorem mem_slotsAt {p : List (Fin 512)} (hp : p ∈ userPaths) (hlen : p.length < 3) {j : Fin 512} :
    j ∈ slotsAt p ↔ p ++ [j] ∈ userPaths := by
  cases p with
  | nil => simp [slotsAt, mem_userSlots, pathsBelow]
  | cons i p =>
    have hi := hp.2 i (by simp)
    have : (i :: p).length + 1 ≤ 3 := hlen
    simp only [slotsAt, pathsBelow, reduceCtorEq, if_false, List.mem_finRange, true_iff]
    exact ⟨by simpa using this, by simpa using hi⟩

/-- A position: a path to a PT, and an index in it. -/
abbrev Pos := List (Fin 512) × Fin 512

/-- The end of the paths of `userPaths`. -/
theorem maximal_of_length {q : List (Fin 512)} (h : q.length = 3) (j : Fin 512) :
    q ++ [j] ∉ userPaths := by
  intro hq
  have := hq.1
  simp [h] at this

/-! ## Parts of the copy -/

/-- From `k` to `k'`, the tables of the child `c` along `T` may have been built, the entries of
the parent `r` at `P` have been copied, and `n` frames have been used. -/
structure Copied (R : Set Nat) (r c : Nat) (T : Set (List (Fin 512))) (P : Set Pos) (n : Nat)
    (k k' : Kernel) (fl fl' : List Nat) : Prop where
  paging : Paging userPaths R k' fl'
  separate : Separate pte (entry k'.mem) userPaths R
  suffix : fl' <:+ fl
  count : fl.length = fl'.length + n
  parent : ∀ {q}, q ∈ userPaths → k'.table r q = k.table r q
  child : ∀ {q}, q ∈ userPaths → q ∉ T → k'.table c q = k.table c q
  copied : ∀ {q j}, q ∈ userPaths → q.length = 3 → (q, j) ∈ P →
    k'.leaf c q j = (k.leaf r q j).map cowEntry ∧ k'.leaf r q j = (k.leaf r q j).map cowEntry
  kept : ∀ {q j}, q ∈ userPaths → q.length = 3 → (q, j) ∉ P →
    k'.leaf c q j = k.leaf c q j ∧ k'.leaf r q j = k.leaf r q j
  others : ∀ {x q}, x ∈ R → x ≠ r → x ≠ c → q ∈ userPaths → k'.table x q = k.table x q ∧
    (q.length = 3 → ∀ j, k'.leaf x q j = k.leaf x q j)
  data : ∀ {g}, Fresh pte (entry k.mem) userPaths R g → g ∉ fl →
    SamePage k.mem k'.mem g ∧ Fresh pte (entry k'.mem) userPaths R g
  cr3 : k'.cr3 = k.cr3

section

variable {R : Set Nat} {r c : Nat} {T T' : Set (List (Fin 512))} {P P' : Set Pos} {n n' : Nat}
  {k k' k'' : Kernel} {f : Nat} {fl fl' fl'' : List Nat}

theorem Copied.refl (h : Paging userPaths R k fl)
    (hsep : Separate pte (entry k.mem) userPaths R) :
    Copied R r c ∅ ∅ 0 k k fl fl where
  paging := h
  separate := hsep
  suffix := List.suffix_rfl
  count := rfl
  parent _ := rfl
  child _ _ := rfl
  copied _ _ h := absurd h (by simp)
  kept _ _ _ := ⟨rfl, rfl⟩
  others _ _ _ _ := ⟨rfl, fun _ _ => rfl⟩
  data hg _ := ⟨SamePage.refl _ _, hg⟩
  cr3 := rfl

theorem Copied.trans (h : Copied R r c T P n k k' fl fl')
    (h' : Copied R r c T' P' n' k' k'' fl' fl'') (hdisj : ∀ x ∈ P, x ∉ P') :
    Copied R r c (T ∪ T') (P ∪ P') (n + n') k k'' fl fl'' where
  paging := h'.paging
  separate := h'.separate
  suffix := h'.suffix.trans h.suffix
  count := by rw [h.count, h'.count]; omega
  parent hq := (h'.parent hq).trans (h.parent hq)
  child hq hT := by
    rw [h'.child hq fun h₁ => hT (Or.inr h₁), h.child hq fun h₁ => hT (Or.inl h₁)]
  copied {q j} hq hlen hP := by
    by_cases hP' : (q, j) ∈ P'
    · have hnP : (q, j) ∉ P := fun h₁ => hdisj _ h₁ hP'
      have := h'.copied hq hlen hP'
      rwa [(h.kept hq hlen hnP).2] at this
    · rw [(h'.kept hq hlen hP').1, (h'.kept hq hlen hP').2]
      exact h.copied hq hlen (hP.resolve_right hP')
  kept hq hlen hP := by
    rw [(h'.kept hq hlen fun h₁ => hP (Or.inr h₁)).1, (h'.kept hq hlen fun h₁ => hP (Or.inr h₁)).2]
    exact h.kept hq hlen fun h₁ => hP (Or.inl h₁)
  others hx hr hc hq := by
    obtain ⟨htab, hleaf⟩ := h.others hx hr hc hq
    obtain ⟨htab', hleaf'⟩ := h'.others hx hr hc hq
    exact ⟨htab'.trans htab, fun hlen j => (hleaf' hlen j).trans (hleaf hlen j)⟩
  data hg hgf := by
    obtain ⟨hsame, hfresh⟩ := h.data hg hgf
    obtain ⟨hsame', hfresh'⟩ := h'.data hfresh fun hg' => hgf (h.suffix.subset hg')
    exact ⟨hsame.trans hsame', hfresh'⟩
  cr3 := h'.cr3.trans h.cr3

/-- A part of the copy is also the copy of a larger part where there was nothing more to copy. -/
theorem Copied.mono (h : Copied R r c T P n k k' fl fl') (hT : T ⊆ T') (hP : P ⊆ P')
    (hempty : ∀ q j, q ∈ userPaths → q.length = 3 → (q, j) ∈ P' → (q, j) ∉ P →
      k.leaf r q j = none ∧ k.leaf c q j = none) : Copied R r c T' P' n k k' fl fl' where
  paging := h.paging
  separate := h.separate
  suffix := h.suffix
  count := h.count
  parent := h.parent
  child hq hn := h.child hq fun h₁ => hn (hT h₁)
  copied {q j} hq hlen hP' := by
    by_cases hmem : (q, j) ∈ P
    · exact h.copied hq hlen hmem
    · obtain ⟨hr, hc⟩ := hempty q j hq hlen hP' hmem
      obtain ⟨hkc, hkr⟩ := h.kept hq hlen hmem
      rw [hkc, hkr, hr, hc]
      exact ⟨rfl, rfl⟩
  kept hq hlen hn := h.kept hq hlen fun h₁ => hn (hP h₁)
  others := h.others
  data := h.data
  cr3 := h.cr3

/-- In separate trees a table belongs to one process and one path. -/
theorem table_eq_iff (h : Paging userPaths R k fl)
    (hsep : Separate pte (entry k.mem) userPaths R) {x y t : Nat} {p q : List (Fin 512)}
    (hx : x ∈ R) (hp : p ∈ userPaths) (ht : k.table x p = some t) (hy : y ∈ R)
    (hq : q ∈ userPaths) : k.table y q = some t ↔ y = x ∧ q = p := by
  constructor
  · intro hyt
    exact ⟨hsep hy hx hq hp hyt ht, h.forest.path_eq hy hx hq hp hyt ht⟩
  · rintro ⟨rfl, rfl⟩
    exact ht

/-- The state in which a loop at the end of `p` runs: `pt` and `ct` are the tables of the parent
and of the child there. -/
structure CopyAt (R : Set Nat) (r c : Nat) (k : Kernel) (fl : List Nat) (p : List (Fin 512))
    (ct pt : UInt64) : Prop where
  paging : Paging userPaths R k fl
  separate : Separate pte (entry k.mem) userPaths R
  hr : r ∈ R
  hc : c ∈ R
  ne : r ≠ c
  mem : p ∈ userPaths
  parent : ∃ t, k.table r p = some t ∧ pt.toNat = 4096 * t
  child : ∃ t, k.table c p = some t ∧ ct.toNat = 4096 * t

variable {p : List (Fin 512)} {ct pt : UInt64}

theorem CopyAt.step (h : CopyAt R r c k fl p ct pt) (hcop : Copied R r c T P n k k' fl fl')
    (hp : p ∉ T) : CopyAt R r c k' fl' p ct pt where
  paging := hcop.paging
  separate := hcop.separate
  hr := h.hr
  hc := h.hc
  ne := h.ne
  mem := h.mem
  parent := by
    rw [hcop.parent h.mem]
    exact h.parent
  child := by
    rw [hcop.child h.mem hp]
    exact h.child

/-- The child has nothing below the end of `p` yet. -/
structure EmptyBelow (k : Kernel) (c : Nat) (p : List (Fin 512)) : Prop where
  tables : ∀ q ∈ userPaths, p <+: q → q ≠ p → k.table c q = none
  leaves : p.length = 3 → ∀ j, k.leaf c p j = none

/-! ## The innermost loop -/

theorem present_cowEntry (e : UInt64) : pte.present (cowEntry e) = true :=
  present_iff.2 (or_and_ne_zero (by decide))

theorem target_cowEntry (e : UInt64) : pte.target (cowEntry e) = pte.target e := by
  have := getAddress_toNat e
  rw [cowEntry, target_or _ (by decide)]
  show (getAddress e).toNat / 4096 = _
  omega

theorem cow_cowEntry (e : UInt64) : cowEntry e &&& pteCow ≠ 0 := or_and_ne_zero (by decide)

theorem not_writable_cowEntry (e : UInt64) : cowEntry e &&& pteW = 0 := by
  have hmask : frameMask &&& pteW = 0 := by decide
  have hflags : (pteP ||| pteU ||| pteCow) &&& pteW = 0 := by decide
  rw [cowEntry, or_and, hflags, getAddress, UInt64.and_assoc, hmask, UInt64.and_zero]
  rfl

theorem copyPtEntry_spec (h : CopyAt R r c k fl p ct pt) (hlen : p.length = 3) {i : Fin 512}
    (hempty : k.leaf c p i = none) :
    Copied R r c ∅ {(p, i)} 0 k (copyPtEntry ct pt k i) fl fl := by
  obtain ⟨tp, htp, hpt⟩ := h.parent
  obtain ⟨tc, htc, hct⟩ := h.child
  have hi := toNat_ofNat_fin i
  have hleafp : k.leaf r p i = if pte.present (entry k.mem tp i) then some (entry k.mem tp i)
      else none := leafAt_of htp
  unfold copyPtEntry
  rw [ptEntry_eq hpt hi]
  by_cases hpres : pte.present (entry k.mem tp i) = true
  · rw [if_pos (present_iff.1 hpres)]
    set e := cowEntry (entry k.mem tp i) with he
    have hS := prefixClosed_userPaths
    have hpe : pte.present e = true := present_cowEntry _
    obtain ⟨hext₁, htab₁, hleaf₁⟩ := setPtEntry_spec hS hct hi h.paging h.hc h.mem htc
      (maximal_of_length hlen i) e
    set k₁ := k.setPtEntry ct (UInt64.ofNat i) e
    have htp₁ : k₁.table r p = some tp := by rw [htab₁ h.hr h.mem]; exact htp
    obtain ⟨hext₂, htab₂, hleaf₂⟩ := setPtEntry_spec hS hpt hi hext₁.paging h.hr h.mem htp₁
      (maximal_of_length hlen i) e
    set k₂ := k₁.setPtEntry pt (UInt64.ofNat i) e
    have htab : ∀ {x q}, x ∈ R → q ∈ userPaths → k₂.table x q = k.table x q :=
      fun hx hq => (htab₂ hx hq).trans (htab₁ hx hq)
    -- Only the position `(p, i)` of the parent and of the child is written.
    have hleaf : ∀ {x q j}, x ∈ R → q ∈ userPaths → k₂.leaf x q j =
        if (x = r ∨ x = c) ∧ q = p ∧ j = i then some e else k.leaf x q j := by
      intro x q j hx hq
      have hparent := table_eq_iff h.paging h.separate h.hr h.mem htp hx hq
      have hchild := table_eq_iff h.paging h.separate h.hc h.mem htc hx hq
      rw [hleaf₂ hx hq, hleaf₁ hx hq, htab₁ hx hq, if_pos hpe]
      simp only [hparent, hchild, and_assoc]
      by_cases hr : x = r ∧ q = p ∧ j = i
      · rw [if_pos hr, if_pos ⟨Or.inl hr.1, hr.2⟩]
      · rw [if_neg hr]
        refine if_congr ⟨fun h₁ => ⟨Or.inr h₁.1, h₁.2⟩, fun h₁ => ⟨?_, h₁.2⟩⟩ rfl rfl
        exact h₁.1.resolve_left fun hxr => hr ⟨hxr, h₁.2⟩
    have hsep₂ : Separate pte (entry k₂.mem) userPaths R :=
      (hext₂.separate (hext₁.separate h.separate).1).1
    refine ⟨hext₂.paging, hsep₂, List.suffix_rfl, rfl, htab h.hr, fun hq _ => htab h.hc hq, ?_, ?_,
      ?_, ?_, rfl⟩
    · rintro q j hq - ⟨rfl, rfl⟩
      rw [hleaf h.hc hq, hleaf h.hr hq, hleafp, if_pos hpres]
      simp [he]
    · intro q j hq _ hne
      have hne' : ¬ (q = p ∧ j = i) := fun h₁ => hne (by rw [h₁.1, h₁.2]; rfl)
      rw [hleaf h.hc hq, hleaf h.hr hq, if_neg fun h₁ => hne' h₁.2, if_neg fun h₁ => hne' h₁.2]
      exact ⟨rfl, rfl⟩
    · intro x q hx hxr hxc hq
      refine ⟨htab hx hq, ?_⟩
      intro _ j
      rw [hleaf hx hq, if_neg fun h₁ => h₁.1.elim hxr hxc]
    · intro g hg hgf
      have hg₁ := hext₁.keeps_fresh hg hgf
      exact ⟨(hext₁.data hg hgf).trans (hext₂.data hg₁ hgf), hext₂.keeps_fresh hg₁ hgf⟩
  · rw [if_neg fun h₁ => hpres (present_iff.2 h₁)]
    refine (Copied.refl h.paging h.separate).mono (by simp) (by simp) ?_
    rintro q j - - ⟨rfl, rfl⟩ -
    exact ⟨by rw [hleafp, if_neg hpres], hempty⟩

/-- The positions at the end of `p` with an index in `js`. -/
def posAt (p : List (Fin 512)) (js : List (Fin 512)) : Set Pos := {x | x.1 = p ∧ x.2 ∈ js}

theorem copyPtEntries_spec (h : CopyAt R r c k fl p ct pt) (hlen : p.length = 3)
    {js : List (Fin 512)} (hjs : js.Nodup) (hempty : ∀ j ∈ js, k.leaf c p j = none) :
    Copied R r c ∅ (posAt p js) 0 k (js.foldl (copyPtEntry ct pt) k) fl fl := by
  induction js generalizing k with
  | nil =>
    refine (Copied.refl h.paging h.separate).mono (Set.empty_subset _) (Set.empty_subset _) ?_
    rintro q j - - ⟨-, hj⟩ -
    exact absurd hj (by simp)
  | cons i js ih =>
    obtain ⟨hi, hjs⟩ := List.nodup_cons.1 hjs
    have hstep := copyPtEntry_spec h hlen (hempty i (by simp))
    have hrest := ih (h.step hstep (Set.notMem_empty p)) hjs fun j hj => by
      have hne : (p, j) ∉ ({(p, i)} : Set Pos) := by
        intro hmem
        obtain ⟨-, hji⟩ := Prod.mk.inj (Set.mem_singleton_iff.1 hmem)
        exact hi (hji ▸ hj)
      rw [(hstep.kept h.mem hlen hne).1]
      exact hempty j (by simp [hj])
    have hdisj : ∀ x ∈ ({(p, i)} : Set Pos), x ∉ posAt p js := by
      rintro x rfl ⟨-, hx⟩
      exact hi hx
    refine (hstep.trans hrest hdisj).mono (Set.union_subset (Set.empty_subset _)
      (Set.empty_subset _)) ?_ ?_
    · rintro x (rfl | ⟨hx, hxjs⟩)
      · exact ⟨rfl, by simp⟩
      · exact ⟨hx, by simp [hxjs]⟩
    · rintro q j - - ⟨rfl, hj⟩ hn
      rcases List.mem_cons.1 hj with rfl | hj
      · exact absurd (Or.inl rfl) hn
      · exact absurd (Or.inr ⟨rfl, hj⟩) hn

/-! ## The outer loops -/

/-- The number of tables of the process `r` in the `d` levels below the end of `p`. -/
def tablesBelow (k : Kernel) (r : Nat) : Nat → List (Fin 512) → Nat
  | 0, _ => 0
  | d + 1, p => ((slotsAt p).map fun j =>
      if (k.table r (p ++ [j])).isSome then 1 + tablesBelow k r d (p ++ [j]) else 0).sum

theorem tablesBelow_congr (htab : ∀ q ∈ userPaths, k'.table r q = k.table r q) :
    ∀ (d : Nat) (p : List (Fin 512)), p ∈ userPaths → p.length + d = 3 →
      tablesBelow k' r d p = tablesBelow k r d p
  | 0, _, _, _ => rfl
  | d + 1, p, hp, hlen => by
    refine congrArg List.sum (List.map_congr_left ?_)
    intro j hj
    have hpj : p ++ [j] ∈ userPaths := (mem_slotsAt hp (by omega)).1 hj
    rw [htab _ hpj, tablesBelow_congr htab d (p ++ [j]) hpj (by simp; omega)]

/-- `copyTable` copies the `d` levels below any path, and fails only for want of frames. -/
def CopiesBelow (R : Set Nat) (r c d : Nat)
    (copyTable : UInt64 → UInt64 → Kernel → Option Kernel) : Prop :=
  ∀ {k fl p ct pt}, p.length + d = 3 → CopyAt R r c k fl p ct pt → EmptyBelow k c p →
    copyTable ct pt k = none ∧ fl.length < tablesBelow k r d p ∨
      ∃ k' fl', copyTable ct pt k = some k' ∧
        Copied R r c {q | p <+: q ∧ q ≠ p} {x | p <+: x.1} (tablesBelow k r d p) k k' fl fl'

theorem copiesBelow_copyPt : CopiesBelow R r c 0 copyPt := by
  intro k fl p ct pt hlen h hempty
  have hp3 : p.length = 3 := hlen
  refine Or.inr ⟨_, fl, rfl, ?_⟩
  refine (copyPtEntries_spec h hp3 (List.nodup_finRange 512) fun j _ => hempty.leaves hp3 j).mono
    (by simp) ?_ ?_
  · rintro x ⟨hx, -⟩
    show p <+: x.1
    rw [hx]
  · intro q j _ hq hpq hn
    have hqp : q = p := (List.IsPrefix.eq_of_length hpq (hp3.trans hq.symm)).symm
    exact absurd ⟨hqp, List.mem_finRange j⟩ hn

/-- The paths through `p`. -/
def through (p : List (Fin 512)) : Set (List (Fin 512)) := {q | p <+: q}

/-- The number of frames that the copy of the tree at entry `j` of the table at `p` takes. -/
def entryCost (k : Kernel) (r d : Nat) (p : List (Fin 512)) (j : Fin 512) : Nat :=
  if (k.table r (p ++ [j])).isSome then 1 + tablesBelow k r d (p ++ [j]) else 0

theorem entryCost_congr (htab : ∀ q ∈ userPaths, k'.table r q = k.table r q) {d : Nat}
    {j : Fin 512} (hp : p ++ [j] ∈ userPaths) (hlen : p.length + (d + 1) = 3) :
    entryCost k' r d p j = entryCost k r d p j := by
  have hlen' : (p ++ [j]).length + d = 3 := by
    simp only [List.length_append, List.length_singleton]
    omega
  rw [entryCost, entryCost, htab _ hp, tablesBelow_congr htab d _ hp hlen']

/-- A new table for the child, linked at entry `j` of its table at `p`. -/
theorem linkChild_spec (h : CopyAt R r c k (f :: fl) p ct pt) {j : Fin 512}
    (hpj : p ++ [j] ∈ userPaths) (hempty : k.table c (p ++ [j]) = none) :
    ∃ a k', tableAlloc ct (UInt64.ofNat j) k = some (a, k') ∧ a.toNat = 4096 * f ∧
      k'.table c (p ++ [j]) = some f ∧ Copied R r c {p ++ [j]} ∅ 1 k k' (f :: fl) fl := by
  obtain ⟨tc, htc, hct⟩ := h.child
  have hslot : k.below tc j = none := (tableAt_snoc htc).symm.trans hempty
  obtain ⟨a, k', halloc, ha, hext, hlink, htab, hleaf⟩ := tableAlloc_spec prefixClosed_userPaths hct
    (toNat_ofNat_fin j) h.paging h.hc hpj htc hslot
  have hsep' := hext.separate h.separate
  have hleaf' : ∀ {x q}, x ∈ R → q ∈ userPaths → q.length = 3 → ∀ j, k'.leaf x q j = k.leaf x q j :=
    fun hx hq hlen j => hleaf hx hq (maximal_of_length hlen)
  refine ⟨a, k', halloc, ha, hlink, hext.paging, hsep'.1, hext.suffix, rfl, ?_, ?_, ?_, ?_, ?_, ?_,
    hext.cr3⟩
  · exact fun hq => hsep'.2 h.hr h.ne hq
  · exact fun hq hne => htab h.hc hq fun h₁ => absurd h₁ hne
  · exact fun _ _ hmem => absurd hmem (Set.notMem_empty _)
  · exact fun hq hlen _ => ⟨hleaf' h.hc hq hlen _, hleaf' h.hr hq hlen _⟩
  · exact fun hx _ hxc hq => ⟨hsep'.2 hx hxc hq, hleaf' hx hq⟩
  · exact fun hg hgf => ⟨hext.data hg hgf, hext.keeps_fresh hg hgf⟩

theorem copyEntryBelow_spec {alloc : UInt64 → UInt64 → Kernel → Option (UInt64 × Kernel)}
    (halloc : alloc = tableAlloc) {copyTable : UInt64 → UInt64 → Kernel → Option Kernel} {d : Nat}
    (hinner : CopiesBelow R r c d copyTable) (h : CopyAt R r c k fl p ct pt)
    (hlen : p.length + (d + 1) = 3) {j : Fin 512} (hpj : p ++ [j] ∈ userPaths)
    (hempty : k.table c (p ++ [j]) = none) :
    copyEntryBelow alloc copyTable ct pt k j = none ∧ fl.length < entryCost k r d p j ∨
      ∃ k' fl', copyEntryBelow alloc copyTable ct pt k j = some k' ∧
        Copied R r c (through (p ++ [j])) {x | p ++ [j] <+: x.1} (entryCost k r d p j) k k' fl
          fl' := by
  subst halloc
  obtain ⟨tp, htp, hpt⟩ := h.parent
  have hsnoc : k.table r (p ++ [j]) = k.below tp j := tableAt_snoc htp
  have hlen' : (p ++ [j]).length + d = 3 := by
    simp only [List.length_append, List.length_singleton]
    omega
  unfold copyEntryBelow
  rw [ptEntry_eq hpt (toNat_ofNat_fin j)]
  by_cases hpres : pte.present (entry k.mem tp j) = true
  · have htab : k.table r (p ++ [j]) = some (pte.target (entry k.mem tp j)) := by
      rw [hsnoc, Kernel.below, next, if_pos hpres]
    have hcost : entryCost k r d p j = 1 + tablesBelow k r d (p ++ [j]) := by
      rw [entryCost, htab, Option.isSome_some, if_pos rfl]
    simp only [if_pos (present_iff.1 hpres)]
    cases fl with
    | nil =>
      refine Or.inl ⟨?_, ?_⟩
      · rw [tableAlloc, h.paging.free.pageAllocAddr_nil]
        rfl
      · rw [hcost, List.length_nil]
        omega
    | cons f fl =>
      obtain ⟨a, k₁, halloc, ha, hlink, hcop⟩ := linkChild_spec h hpj hempty
      have hat : CopyAt R r c k₁ fl (p ++ [j]) a (getAddress (entry k.mem tp j)) :=
        ⟨hcop.paging, hcop.separate, h.hr, h.hc, h.ne, hpj,
          ⟨_, (hcop.parent hpj).trans htab, getAddress_toNat _⟩, ⟨f, hlink, ha⟩⟩
      have hempty₁ : EmptyBelow k₁ c (p ++ [j]) := by
        refine ⟨?_, ?_⟩
        · intro q hq hpq hne
          rw [hcop.child hq hne]
          exact tableAt_eq_none hempty hpq
        · intro hl i
          rw [(hcop.kept hpj hl (Set.notMem_empty _)).1]
          exact leafAt_eq_none hempty
      have hcost₁ : tablesBelow k₁ r d (p ++ [j]) = tablesBelow k r d (p ++ [j]) :=
        tablesBelow_congr (fun q hq => hcop.parent hq) d _ hpj hlen'
      simp only [halloc, Option.bind_eq_bind, Option.bind_some]
      rcases hinner hlen' hat hempty₁ with ⟨hnone, hfew⟩ | ⟨k', fl', hsome, hrest⟩
      · refine Or.inl ⟨hnone, ?_⟩
        rw [hcost, List.length_cons, ← hcost₁]
        omega
      · refine Or.inr ⟨k', fl', hsome, ?_⟩
        rw [hcost, ← hcost₁]
        refine (hcop.trans hrest fun x hx => absurd hx (Set.notMem_empty x)).mono ?_ ?_ ?_
        · rintro q (rfl | ⟨hq, -⟩)
          · exact List.prefix_rfl
          · exact hq
        · exact Set.union_subset (Set.empty_subset _) subset_rfl
        · exact fun q i _ _ hmem hn => absurd (Or.inr hmem) hn
  · have htab : k.table r (p ++ [j]) = none := by
      rw [hsnoc, Kernel.below, next, if_neg hpres]
    have hcost : entryCost k r d p j = 0 := by
      rw [entryCost, htab, Option.isSome_none, if_neg (by simp)]
    rw [if_neg fun h₁ => hpres (present_iff.2 h₁), hcost]
    refine Or.inr ⟨k, fl, rfl, (Copied.refl h.paging h.separate).mono (Set.empty_subset _)
      (Set.empty_subset _) ?_⟩
    intro q i _ _ hpq _
    exact ⟨leafAt_eq_none (tableAt_eq_none htab hpq), leafAt_eq_none (tableAt_eq_none hempty hpq)⟩

section Loop

variable {alloc : UInt64 → UInt64 → Kernel → Option (UInt64 × Kernel)}
  {copyTable : UInt64 → UInt64 → Kernel → Option Kernel} {d : Nat}

theorem not_snoc_prefix_self {i : Fin 512} : ¬ p ++ [i] <+: p := by
  intro h
  have := h.length_le
  simp only [List.length_append, List.length_singleton] at this
  omega

theorem not_prefix_snoc {i j : Fin 512} (hij : i ≠ j) {q : List (Fin 512)}
    (hi : p ++ [i] <+: q) : ¬ p ++ [j] <+: q := by
  intro hj
  have hlen : (p ++ [i]).length ≤ (p ++ [j]).length := by simp
  have heq := (List.prefix_of_prefix_length_le hi hj hlen).eq_of_length (by simp)
  exact hij (List.cons.inj (List.append_cancel_left heq)).1

theorem copyEntries_spec (halloc : alloc = tableAlloc) (hinner : CopiesBelow R r c d copyTable)
    (h : CopyAt R r c k fl p ct pt) (hlen : p.length + (d + 1) = 3) {js : List (Fin 512)}
    (hjs : js.Nodup) (hmem : ∀ j ∈ js, p ++ [j] ∈ userPaths)
    (hempty : ∀ j ∈ js, k.table c (p ++ [j]) = none) :
    js.foldlM (copyEntryBelow alloc copyTable ct pt) k = none ∧
        fl.length < (js.map (entryCost k r d p)).sum ∨
      ∃ k' fl', js.foldlM (copyEntryBelow alloc copyTable ct pt) k = some k' ∧
        Copied R r c {q | ∃ j ∈ js, p ++ [j] <+: q} {x | ∃ j ∈ js, p ++ [j] <+: x.1}
          (js.map (entryCost k r d p)).sum k k' fl fl' := by
  induction js generalizing k fl with
  | nil =>
    refine Or.inr ⟨k, fl, rfl, (Copied.refl h.paging h.separate).mono (Set.empty_subset _)
      (Set.empty_subset _) ?_⟩
    rintro q i - - ⟨j, hj, -⟩ -
    exact absurd hj (by simp)
  | cons i js ih =>
    obtain ⟨hi, hjs⟩ := List.nodup_cons.1 hjs
    rw [List.foldlM_cons, List.map_cons, List.sum_cons]
    rcases copyEntryBelow_spec halloc hinner h hlen (hmem i (by simp)) (hempty i (by simp)) with
      ⟨hnone, hfew⟩ | ⟨k₁, fl₁, hsome, hstep⟩
    · refine Or.inl ⟨by rw [hnone]; rfl, by omega⟩
    rw [hsome, Option.bind_eq_bind, Option.bind_some]
    have hne : ∀ j ∈ js, i ≠ j := fun j hj hij => hi (hij ▸ hj)
    have hp : p ∉ through (p ++ [i]) := not_snoc_prefix_self
    have hempty₁ : ∀ j ∈ js, k₁.table c (p ++ [j]) = none := fun j hj => by
      rw [hstep.child (hmem j (by simp [hj])) fun h₁ =>
        not_prefix_snoc (hne j hj) h₁ List.prefix_rfl]
      exact hempty j (by simp [hj])
    have hcost : js.map (entryCost k₁ r d p) = js.map (entryCost k r d p) :=
      List.map_congr_left fun j hj =>
        entryCost_congr (fun q hq => hstep.parent hq) (hmem j (by simp [hj])) hlen
    have hcount := hstep.count
    rcases ih (h.step hstep hp) hjs (fun j hj => hmem j (by simp [hj])) hempty₁ with
      ⟨hnone, hfew⟩ | ⟨k', fl', hsome', hrest⟩
    · refine Or.inl ⟨hnone, ?_⟩
      rw [hcost] at hfew
      omega
    · refine Or.inr ⟨k', fl', hsome', ?_⟩
      rw [hcost] at hrest
      refine (hstep.trans hrest ?_).mono ?_ ?_ ?_
      · rintro x hx ⟨j, hj, hxj⟩
        exact not_prefix_snoc (hne j hj) hx hxj
      · rintro q (hq | ⟨j, hj, hq⟩)
        · exact ⟨i, by simp, hq⟩
        · exact ⟨j, by simp [hj], hq⟩
      · rintro x (hx | ⟨j, hj, hx⟩)
        · exact ⟨i, by simp, hx⟩
        · exact ⟨j, by simp [hj], hx⟩
      · rintro q l - - ⟨j, hj, hq⟩ hn
        rcases List.mem_cons.1 hj with rfl | hj
        · exact absurd (Or.inl hq) hn
        · exact absurd (Or.inr ⟨j, hj, hq⟩) hn

/-- A loop over all entries of a table copies one level more than its body. -/
theorem copySlots_spec (halloc : alloc = tableAlloc) (hinner : CopiesBelow R r c d copyTable)
    (h : CopyAt R r c k fl p ct pt) (hlen : p.length + (d + 1) = 3) (hempty : EmptyBelow k c p) :
    (slotsAt p).foldlM (copyEntryBelow alloc copyTable ct pt) k = none ∧
        fl.length < tablesBelow k r (d + 1) p ∨
      ∃ k' fl', (slotsAt p).foldlM (copyEntryBelow alloc copyTable ct pt) k = some k' ∧
        Copied R r c {q | p <+: q ∧ q ≠ p} {x | p <+: x.1} (tablesBelow k r (d + 1) p) k k' fl
          fl' := by
  have hslot : ∀ j, j ∈ slotsAt p ↔ p ++ [j] ∈ userPaths := fun j => mem_slotsAt h.mem (by omega)
  have hempty' : ∀ j ∈ slotsAt p, k.table c (p ++ [j]) = none := fun j hj =>
    hempty.tables _ ((hslot j).1 hj) (List.prefix_append _ _) (by simp)
  rcases copyEntries_spec halloc hinner h hlen (nodup_slotsAt p) (fun j hj => (hslot j).1 hj)
    hempty' with hfew | ⟨k', fl', hsome, hcop⟩
  · exact Or.inl hfew
  refine Or.inr ⟨k', fl', hsome, hcop.mono ?_ ?_ ?_⟩
  · rintro q ⟨j, -, hq⟩
    refine ⟨(List.prefix_append p [j]).trans hq, ?_⟩
    rintro rfl
    exact not_snoc_prefix_self hq
  · rintro x ⟨j, -, hx⟩
    exact (List.prefix_append p [j]).trans hx
  · rintro q i hq hql ⟨t, rfl⟩ hn
    -- A path of length three through `p` continues it with an entry of the loop.
    cases t with
    | nil =>
      rw [List.append_nil] at hql
      omega
    | cons j t =>
      have hj : p ++ [j] ∈ userPaths := prefixClosed_userPaths.snoc hq
      exact absurd ⟨j, (hslot j).2 hj, ⟨t, by simp⟩⟩ hn

end Loop

theorem slotsAt_of_ne (hp : p ≠ []) : slotsAt p = List.finRange 512 := if_neg hp

theorem copiesBelow_copyPdt : CopiesBelow R r c 1 copyPdt := by
  intro k fl p ct pt hlen h hempty
  have hp : p ≠ [] := by
    rintro rfl
    simp at hlen
  have := copySlots_spec (show ptAlloc = tableAlloc from rfl) copiesBelow_copyPt h hlen hempty
  rwa [slotsAt_of_ne hp] at this

theorem copiesBelow_copyPdpt : CopiesBelow R r c 2 copyPdpt := by
  intro k fl p ct pt hlen h hempty
  have hp : p ≠ [] := by
    rintro rfl
    simp at hlen
  have := copySlots_spec (show pdtAlloc = tableAlloc from rfl) copiesBelow_copyPdt h hlen hempty
  rwa [slotsAt_of_ne hp] at this

/-! ## A fork -/

/-- The PML4 entries 510 and 511, which no path of `userPaths` uses. -/
theorem shareEntry_spec (h : CopyAt R r c k fl [] ct pt) {index : UInt64} {i : Fin 512}
    (hidx : index.toNat = i.val) (hi : 510 ≤ i.val) (e : UInt64) :
    Copied R r c ∅ ∅ 0 k (k.setPtEntry ct index e) fl fl := by
  obtain ⟨t, ht, hct⟩ := h.child
  obtain rfl : c = t := Option.some.inj ht
  have hend : [] ++ [i] ∉ userPaths := by
    intro hmem
    have := hmem.2 i (by simp)
    omega
  obtain ⟨hext, htab, hleaf⟩ :=
    setPtEntry_spec prefixClosed_userPaths hct hidx h.paging h.hc h.mem ht hend e
  have hleaf' : ∀ {x q j}, x ∈ R → q ∈ userPaths → q.length = 3 →
      (k.setPtEntry ct index e).leaf x q j = k.leaf x q j := by
    intro x q j hx hq hlen
    rw [hleaf hx hq, if_neg]
    rintro ⟨hxq, -⟩
    obtain ⟨-, rfl⟩ := (table_eq_iff h.paging h.separate h.hc h.mem ht hx hq).1 hxq
    simp at hlen
  exact ⟨hext.paging, (hext.separate h.separate).1, List.suffix_rfl, rfl, htab h.hr,
    fun hq _ => htab h.hc hq, fun _ _ hmem => absurd hmem (Set.notMem_empty _),
    fun hq hlen _ => ⟨hleaf' h.hc hq hlen, hleaf' h.hr hq hlen⟩,
    fun hx _ _ hq => ⟨htab hx hq, fun hlen _ => hleaf' hx hq hlen⟩,
    fun hg hgf => ⟨hext.data hg hgf, hext.keeps_fresh hg hgf⟩, rfl⟩

theorem copyPageTablesForchild_spec (h : CopyAt R r c k fl [] ct k.cr3)
    (hempty : EmptyBelow k c []) :
    copyPageTablesForchild ct k = none ∧ fl.length < tablesBelow k r 3 [] ∨
      ∃ k' fl', copyPageTablesForchild ct k = some k' ∧
        Copied R r c {q | [] <+: q ∧ q ≠ []} {x | [] <+: x.1} (tablesBelow k r 3 []) k k' fl
          fl' := by
  have hloop : copyPageTablesForchild ct k =
      ((slotsAt []).foldlM (copyEntryBelow pdptAlloc copyPdpt ct k.cr3) k).bind fun k₁ =>
        let k₂ := k₁.setPtEntry ct 511 (k₁.ptEntry k.cr3 511)
        some (k₂.setPtEntry ct 510 (k₂.ptEntry k.cr3 510)) := rfl
  rcases copySlots_spec (show pdptAlloc = tableAlloc from rfl) copiesBelow_copyPdpt h rfl hempty
    with ⟨hnone, hfew⟩ | ⟨k₁, fl', hsome, hcop⟩
  · exact Or.inl ⟨by rw [hloop, hnone, Option.bind_none], hfew⟩
  have h₁ : CopyAt R r c k₁ fl' [] ct k.cr3 := h.step hcop fun hn => hn.2 rfl
  have hcop₁ := shareEntry_spec h₁ (show (511 : UInt64).toNat = (511 : Fin 512).val from rfl)
    (by decide) (k₁.ptEntry k.cr3 511)
  set k₂ := k₁.setPtEntry ct 511 (k₁.ptEntry k.cr3 511)
  have hcop₂ := shareEntry_spec (h₁.step hcop₁ (Set.notMem_empty _))
    (show (510 : UInt64).toNat = (510 : Fin 512).val from rfl) (by decide) (k₂.ptEntry k.cr3 510)
  refine Or.inr ⟨k₂.setPtEntry ct 510 (k₂.ptEntry k.cr3 510), fl', ?_, ?_⟩
  · rw [hloop, hsome, Option.bind_some]
  · have hall := (hcop.trans hcop₁ fun _ _ => Set.notMem_empty _).trans hcop₂
      fun _ _ => Set.notMem_empty _
    simpa only [Set.union_empty, Nat.add_zero] using hall

/-- `child->task_cr3 = page_alloc()->addr`, then the copy: the part of a fork that concerns the
address spaces. -/
def forkSpace (k : Kernel) : Option (UInt64 × Kernel) := do
  let (childPML4, k) ← k.pageAllocAddr
  let k ← copyPageTablesForchild childPML4 k
  some (childPML4, k)

/-- The effect of a fork of the process `r` that makes the process `c`. -/
structure Forked (R : Set Nat) (r c : Nat) (k k' : Kernel) (fl fl' : List Nat) : Prop where
  paging : Paging userPaths (insert c R) k' fl'
  separate : Separate pte (entry k'.mem) userPaths (insert c R)
  suffix : fl' <:+ fl
  mem : c ∈ fl
  count : fl.length = fl'.length + 1 + tablesBelow k r 3 []
  copied : ∀ {q}, q ∈ userPaths → q.length = 3 → ∀ j,
    k'.leaf c q j = (k.leaf r q j).map cowEntry ∧ k'.leaf r q j = (k.leaf r q j).map cowEntry
  others : ∀ {x q}, x ∈ R → x ≠ r → q ∈ userPaths → q.length = 3 → ∀ j,
    k'.leaf x q j = k.leaf x q j
  data : ∀ {g}, Fresh pte (entry k.mem) userPaths R g → g ∉ fl →
    SamePage k.mem k'.mem g ∧ Fresh pte (entry k'.mem) userPaths (insert c R) g
  cr3 : k'.cr3 = k.cr3

/-- The state in which a fork starts to copy: the next free frame is the child's PML4. -/
theorem copyAt_child (h : Paging userPaths R k (c :: fl))
    (hsep : Separate pte (entry k.mem) userPaths R) (hr : r ∈ R) (hcr3 : k.cr3.toNat = 4096 * r) :
    ∃ a, k.pageAllocAddr = some (a, k.pop) ∧ a.toNat = 4096 * c ∧
      CopyAt (insert c R) r c k.pop fl [] a k.pop.cr3 ∧ EmptyBelow k.pop c [] := by
  obtain ⟨a, halloc, ha, hfree⟩ := h.free.pageAllocAddr_cons
  have hfresh : Fresh pte (entry k.mem) userPaths R c := h.fresh c (by simp)
  have hblank := (h.blank c (by simp)).next
  obtain ⟨hcfl, -⟩ := List.nodup_cons.1 h.free.nodup
  have hpaging : Paging userPaths (insert c R) k.pop fl :=
    ⟨h.forest.insert hfresh hblank, hfree,
      fun g hg => (h.fresh g (by simp [hg])).insert hblank fun hgc => hcfl (hgc ▸ hg),
      fun g hg => h.blank g (by simp [hg])⟩
  have hne : r ≠ c := (hfresh.ne prefixClosed_userPaths hr).symm
  refine ⟨a, halloc, ha, ⟨hpaging, hsep.insert hfresh hblank, Set.mem_insert_of_mem _ hr,
    Set.mem_insert _ _, hne, prefixClosed_userPaths.nil, ⟨r, rfl, hcr3⟩, ⟨c, rfl, ha⟩⟩, ?_,
    fun hl => by simp at hl⟩
  intro q _ _ hq
  exact (tableAt_blank hblank).trans (if_neg hq)

/-- **Fork.** The child gets copies of the parent's entries below PML4 entry 510, and in both
every present entry becomes copy-on-write. The call fails only for want of frames. -/
theorem forkSpace_spec (h : Paging userPaths R k fl)
    (hsep : Separate pte (entry k.mem) userPaths R) (hr : r ∈ R) (hcr3 : k.cr3.toNat = 4096 * r) :
    forkSpace k = none ∧ fl.length < 1 + tablesBelow k r 3 [] ∨
      ∃ a c k' fl', forkSpace k = some (a, k') ∧ a.toNat = 4096 * c ∧
        Forked R r c k k' fl fl' := by
  unfold forkSpace
  cases fl with
  | nil =>
    refine Or.inl ⟨by rw [h.free.pageAllocAddr_nil]; rfl, ?_⟩
    rw [List.length_nil]
    omega
  | cons c fl =>
    obtain ⟨a, halloc, ha, hat, hempty⟩ := copyAt_child h hsep hr hcr3
    have hfresh : Fresh pte (entry k.mem) userPaths R c := h.fresh c (by simp)
    have hblank := (h.blank c (by simp)).next
    rw [halloc, Option.bind_eq_bind, Option.bind_some]
    rcases copyPageTablesForchild_spec hat hempty with ⟨hnone, hfew⟩ | ⟨k', fl', hsome, hcop⟩
    · refine Or.inl ⟨by simp only [hnone, Option.bind_eq_bind, Option.bind_none], ?_⟩
      change fl.length < tablesBelow k r 3 [] at hfew
      rw [List.length_cons]
      omega
    · have hrun : (do let k₁ ← copyPageTablesForchild a k.pop; some (a, k₁)) = some (a, k') := by
        rw [hsome, Option.bind_eq_bind, Option.bind_some]
      refine Or.inr ⟨a, c, k', fl', hrun, ha, hcop.paging, hcop.separate,
        hcop.suffix.trans (List.suffix_cons c fl), by simp, ?_, ?_, ?_, ?_,
        hcop.cr3⟩
      · have hcount : fl.length = fl'.length + tablesBelow k r 3 [] := hcop.count
        rw [List.length_cons]
        omega
      · exact fun hq hlen j => hcop.copied hq hlen List.nil_prefix
      · intro x q hx hxr hq hlen j
        have hxc : x ≠ c := (hfresh.ne prefixClosed_userPaths hx).symm
        exact (hcop.others (Set.mem_insert_of_mem _ hx) hxr hxc hq).2 hlen j
      · intro g hg hgf
        have hgc : g ≠ c := fun hgc => hgf (by simp [hgc])
        exact hcop.data (hg.insert hblank hgc) fun hgfl => hgf (by simp [hgfl])

end

end Sbunix
