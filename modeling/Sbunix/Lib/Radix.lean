import Mathlib.Data.Set.Insert
import Mathlib.Tactic.Common

/-!
# Radix tables in untyped memory

A radix tree of tables: a table is a row of entries, and an entry is absent or points to a table
of the next level. The memory `m f i` holds entry `i` of table `f`, for *every* `f`: nothing in
it says which frames are tables, so two paths may meet, and one store may change many lookups.

* `tableAt m r p` is the table that the path `p` from the root `r` leads to, and `leafAt m r p i`
  the present entry `i` of it.
* `set m t i e` stores one entry. `tableAt_set_of_avoids`, `tableAt_link_self` and
  `tableAt_link_of_ne` say which paths notice it, with no assumption on the shape of the memory.
* `Forest` is the no-aliasing invariant of a set `R` of roots over a set `S` of paths: a table is
  reached by one path only, and two roots share a table only by sharing the root entry above
  it. Storing an entry at the end of the paths (`Forest.write`) and linking a blank table into
  an absent entry (`Forest.link`) keep it, and change exactly one lookup of each root that
  reaches the table written.
* `Separate` says that different roots share nothing at all.
-/

namespace Lib.Radix

/-- How an entry is read: whether it is present, and the table it then points to. -/
structure Format (F E : Type*) where
  present : E → Bool
  target : E → F

variable {F I E : Type*} (fmt : Format F E)

/-- The table that entry `i` of `f` points to. -/
def next (m : F → I → E) (f : F) (i : I) : Option F :=
  if fmt.present (m f i) then some (fmt.target (m f i)) else none

/-- The table at the end of a path. -/
def tableAt (m : F → I → E) : F → List I → Option F
  | r, [] => some r
  | r, i :: p => (next fmt m r i).bind fun t => tableAt m t p

/-- The present entry at the end of a path. -/
def leafAt (m : F → I → E) (r : F) (p : List I) (i : I) : Option E :=
  (tableAt fmt m r p).bind fun t => if fmt.present (m t i) then some (m t i) else none

variable {fmt} {m m' : F → I → E} {r s t f : F} {p q : List I} {i j : I} {e : E}

/-! ## Paths -/

theorem tableAt_cons :
    tableAt fmt m r (i :: p) = (next fmt m r i).bind fun t => tableAt fmt m t p :=
  rfl

theorem tableAt_append :
    tableAt fmt m r (p ++ q) = (tableAt fmt m r p).bind fun t => tableAt fmt m t q := by
  induction p generalizing r with
  | nil => rfl
  | cons i p ih =>
    rw [List.cons_append, tableAt_cons, tableAt_cons, Option.bind_assoc]
    simp only [ih]

theorem tableAt_append_of (h : tableAt fmt m r p = some t) :
    tableAt fmt m r (p ++ q) = tableAt fmt m t q := by
  rw [tableAt_append, h, Option.bind_some]

theorem tableAt_singleton : tableAt fmt m r [i] = next fmt m r i := by
  rw [tableAt_cons]
  cases next fmt m r i <;> rfl

theorem tableAt_snoc (h : tableAt fmt m r p = some t) :
    tableAt fmt m r (p ++ [i]) = next fmt m t i := by
  rw [tableAt_append_of h, tableAt_singleton]

/-- A path stays absent when it is continued. -/
theorem tableAt_eq_none (h : tableAt fmt m r p = none) (hpq : p <+: q) :
    tableAt fmt m r q = none := by
  obtain ⟨t, rfl⟩ := hpq
  rw [tableAt_append, h, Option.bind_none]

/-- A path that continues passes through a present root entry. -/
theorem exists_next_of_tableAt (h : tableAt fmt m r (i :: p) = some f) :
    ∃ t, next fmt m r i = some t ∧ tableAt fmt m t p = some f :=
  Option.bind_eq_some_iff.1 h

/-- Two roots with the same root entry reach the same tables through it. -/
theorem tableAt_of_next_eq (h : next fmt m r i = next fmt m s i) (p : List I) :
    tableAt fmt m r (i :: p) = tableAt fmt m s (i :: p) := by
  rw [tableAt_cons, tableAt_cons, h]

theorem leafAt_of (h : tableAt fmt m r p = some t) :
    leafAt fmt m r p i = if fmt.present (m t i) then some (m t i) else none := by
  rw [leafAt, h, Option.bind_some]

theorem leafAt_eq_none (h : tableAt fmt m r p = none) : leafAt fmt m r p i = none := by
  rw [leafAt, h, Option.bind_none]

theorem leafAt_of_tableAt_eq (h : tableAt fmt m r p = tableAt fmt m s p) :
    leafAt fmt m r p i = leafAt fmt m s p i := by
  rw [leafAt, leafAt, h]

theorem leafAt_eq_some (h : leafAt fmt m r p i = some e) :
    ∃ t, tableAt fmt m r p = some t ∧ m t i = e ∧ fmt.present e = true := by
  obtain ⟨t, ht, hle⟩ := Option.bind_eq_some_iff.1 h
  split at hle
  · rename_i hpres
    obtain rfl := Option.some.inj hle
    exact ⟨t, ht, rfl, hpres⟩
  · exact absurd hle (by simp)

/-- Only the entries of the tables along a path matter. -/
theorem tableAt_congr (h : ∀ p₁ i p₂ t, q = p₁ ++ i :: p₂ → tableAt fmt m r p₁ = some t →
    next fmt m' t i = next fmt m t i) : tableAt fmt m' r q = tableAt fmt m r q := by
  induction q generalizing r with
  | nil => rfl
  | cons j q ih =>
    have hj : next fmt m' r j = next fmt m r j := h [] j q r rfl rfl
    rw [tableAt_cons, tableAt_cons, hj]
    cases hn : next fmt m r j with
    | none => rfl
    | some t =>
      refine ih fun p₁ i p₂ u hq hu => h (j :: p₁) i p₂ u (by rw [hq]; rfl) ?_
      rw [tableAt_cons, hn]
      exact hu

/-- Where the present entries are kept, the paths are. -/
theorem tableAt_mono (h : ∀ t i, fmt.present (m t i) = true → m' t i = m t i)
    (hp : tableAt fmt m r p = some t) : tableAt fmt m' r p = some t := by
  rw [tableAt_congr, hp]
  intro p₁ i p₂ u hq hu
  rw [hq, tableAt_append_of hu] at hp
  obtain ⟨x, hx, -⟩ := exists_next_of_tableAt hp
  unfold next at hx ⊢
  split_ifs at hx with hpres
  rw [h u i hpres]

theorem leafAt_mono (h : ∀ t i, fmt.present (m t i) = true → m' t i = m t i)
    (hp : leafAt fmt m r p i = some e) : leafAt fmt m' r p i = some e := by
  obtain ⟨t, ht, rfl, hpres⟩ := leafAt_eq_some hp
  rw [leafAt_of (tableAt_mono h ht), h t i hpres, if_pos hpres]

/-! ## Storing one entry -/

section Set

variable [DecidableEq F] [DecidableEq I]

/-- Store `e` as entry `i` of `t`. -/
def set (m : F → I → E) (t : F) (i : I) (e : E) : F → I → E :=
  fun f j => if f = t ∧ j = i then e else m f j

theorem set_self : set m t i e t i = e := if_pos ⟨rfl, rfl⟩

theorem set_of_ne (h : ¬ (f = t ∧ j = i)) : set m t i e f j = m f j := if_neg h

theorem next_set_of_ne (h : ¬ (f = t ∧ j = i)) :
    next fmt (set m t i e) f j = next fmt m f j := by
  unfold next
  rw [set_of_ne h]

theorem next_set_self (he : fmt.present e = true) :
    next fmt (set m t i e) t i = some (fmt.target e) := by
  unfold next
  rw [set_self, if_pos he]

theorem tableAt_set_of_avoids (h : ∀ p₁ p₂, q = p₁ ++ i :: p₂ → tableAt fmt m r p₁ ≠ some t) :
    tableAt fmt (set m t i e) r q = tableAt fmt m r q := by
  refine tableAt_congr fun p₁ j p₂ u hq hu => next_set_of_ne ?_
  intro hut
  obtain ⟨rfl, rfl⟩ := hut
  exact h p₁ p₂ hq hu

/-- A path to `t` does not use the absent entry `i` of `t`. -/
theorem tableAt_set_of_absent (hslot : next fmt m t i = none) (hp : tableAt fmt m r p = some t) :
    tableAt fmt (set m t i e) r p = some t := by
  rw [tableAt_set_of_avoids, hp]
  intro p₁ p₂ hp' hp₁
  rw [hp', tableAt_append_of hp₁, tableAt_cons, hslot] at hp
  exact absurd hp (by simp)

/-- Linking `f` into an absent entry: the path through the entry now leads to `f`. -/
theorem tableAt_link_self (hslot : next fmt m t i = none) (hp : tableAt fmt m r p = some t)
    (he : fmt.present e = true) :
    tableAt fmt (set m t i e) r (p ++ [i]) = some (fmt.target e) := by
  rw [tableAt_snoc (tableAt_set_of_absent hslot hp), next_set_self he]

/-- Linking a blank `f` into an absent entry: no other path changes. -/
theorem tableAt_link_of_ne (hslot : next fmt m t i = none) (he : fmt.present e = true)
    (hblank : ∀ j, next fmt m (fmt.target e) j = none) (hne : fmt.target e ≠ t)
    (h : ∀ p, q = p ++ [i] → tableAt fmt m r p ≠ some t) :
    tableAt fmt (set m t i e) r q = tableAt fmt m r q := by
  by_cases hav : ∀ p₁ p₂, q = p₁ ++ i :: p₂ → tableAt fmt m r p₁ ≠ some t
  · exact tableAt_set_of_avoids hav
  · push Not at hav
    obtain ⟨p₁, p₂, rfl, hp₁⟩ := hav
    -- The path goes on below `f`, where both memories have nothing.
    cases p₂ with
    | nil => exact absurd hp₁ (h p₁ rfl)
    | cons j p₂ =>
      have hold : tableAt fmt m r (p₁ ++ i :: j :: p₂) = none := by
        rw [tableAt_append_of hp₁, tableAt_cons, hslot]
        rfl
      have hnew : next fmt (set m t i e) (fmt.target e) j = none := by
        rw [next_set_of_ne fun h => hne h.1]
        exact hblank j
      rw [hold, List.append_cons, tableAt_append_of (tableAt_link_self hslot hp₁ he),
        tableAt_cons, hnew]
      rfl

end Set

/-! ## Forests -/

/-- The roots `R` reach tables along the paths `S` without aliasing: a table has one path, and is
shared by two roots only through an equal root entry. -/
structure Forest (fmt : Format F E) (m : F → I → E) (S : Set (List I)) (R : Set F) : Prop where
  path_eq : ∀ {r s p q f}, r ∈ R → s ∈ R → p ∈ S → q ∈ S →
    tableAt fmt m r p = some f → tableAt fmt m s q = some f → p = q
  slot_eq : ∀ {r s i p f}, r ∈ R → s ∈ R → i :: p ∈ S →
    tableAt fmt m r (i :: p) = some f → tableAt fmt m s (i :: p) = some f →
      next fmt m r i = next fmt m s i

/-- Different roots share no table. -/
def Separate (fmt : Format F E) (m : F → I → E) (S : Set (List I)) (R : Set F) : Prop :=
  ∀ {r s p q f}, r ∈ R → s ∈ R → p ∈ S → q ∈ S →
    tableAt fmt m r p = some f → tableAt fmt m s q = some f → r = s

/-- No path of `S` from a root of `R` leads to `f`. -/
def Fresh (fmt : Format F E) (m : F → I → E) (S : Set (List I)) (R : Set F) (f : F) : Prop :=
  ∀ r ∈ R, ∀ p ∈ S, tableAt fmt m r p ≠ some f

/-- A set of paths with all their prefixes. -/
structure PrefixClosed (S : Set (List I)) : Prop where
  nil : [] ∈ S
  left : ∀ {p q}, p ++ q ∈ S → p ∈ S

variable {S : Set (List I)} {R : Set F}

theorem PrefixClosed.snoc (hS : PrefixClosed S) (h : p ++ i :: q ∈ S) : p ++ [i] ∈ S := by
  rw [List.append_cons] at h
  exact hS.left h

theorem PrefixClosed.head (hS : PrefixClosed S) (h : i :: q ∈ S) : [i] ∈ S :=
  hS.snoc (p := []) h

theorem Fresh.ne (hS : PrefixClosed S) (h : Fresh fmt m S R f) (hr : r ∈ R) : f ≠ r := by
  rintro rfl
  exact h f hr [] hS.nil rfl

theorem Fresh.ne_table (hS : PrefixClosed S) (h : Fresh fmt m S R f) (hs : s ∈ R)
    (hp : p ++ [i] ∈ S) (ht : tableAt fmt m s p = some t) : f ≠ t := by
  rintro rfl
  exact h s hs p (hS.left hp) ht

theorem forest_congr (hF : Forest fmt m S R)
    (htab : ∀ r ∈ R, ∀ q ∈ S, tableAt fmt m' r q = tableAt fmt m r q)
    (hnext : ∀ r ∈ R, ∀ i, [i] ∈ S → next fmt m' r i = next fmt m r i) (hS : PrefixClosed S) :
    Forest fmt m' S R where
  path_eq hr hs hp hq h h' :=
    hF.path_eq hr hs hp hq (htab _ hr _ hp ▸ h) (htab _ hs _ hq ▸ h')
  slot_eq hr hs hp h h' := by
    rw [hnext _ hr _ (hS.head hp), hnext _ hs _ (hS.head hp)]
    exact hF.slot_eq hr hs hp (htab _ hr _ hp ▸ h) (htab _ hs _ hp ▸ h')

theorem separate_congr (hsep : Separate fmt m S R)
    (htab : ∀ r ∈ R, ∀ q ∈ S, tableAt fmt m' r q = tableAt fmt m r q) :
    Separate fmt m' S R :=
  fun hr hs hp hq h h' => hsep hr hs hp hq (htab _ hr _ hp ▸ h) (htab _ hs _ hq ▸ h')

/-- Memories that agree on every table of the forest have the same paths. -/
theorem tableAt_of_agree (hS : PrefixClosed S) (hr : r ∈ R) (hq : q ∈ S)
    (h : ∀ t, ¬ Fresh fmt m S R t → ∀ i, m' t i = m t i) :
    tableAt fmt m' r q = tableAt fmt m r q := by
  refine tableAt_congr ?_
  intro p₁ i p₂ t hq' ht
  have hp₁ : p₁ ∈ S := hS.left (hq' ▸ hq)
  unfold next
  rw [h t (fun hfr => hfr r hr p₁ hp₁ ht) i]

theorem leafAt_of_agree (hS : PrefixClosed S) (hr : r ∈ R) (hq : q ∈ S)
    (h : ∀ t, ¬ Fresh fmt m S R t → ∀ i, m' t i = m t i) :
    leafAt fmt m' r q j = leafAt fmt m r q j := by
  unfold leafAt
  rw [tableAt_of_agree hS hr hq h]
  cases ht : tableAt fmt m r q with
  | none => rfl
  | some t => simp only [Option.bind_some, h t (fun hfr => hfr r hr q hq ht) j]

theorem forest_of_agree (hS : PrefixClosed S) (hF : Forest fmt m S R)
    (h : ∀ t, ¬ Fresh fmt m S R t → ∀ i, m' t i = m t i) : Forest fmt m' S R := by
  refine forest_congr hF (fun r hr q hq => tableAt_of_agree hS hr hq h) ?_ hS
  intro r hr i _
  unfold next
  rw [h r (fun hfr => hfr r hr [] hS.nil rfl) i]

/-- A blank fresh table is a new root that shares nothing. -/
theorem tableAt_blank (hblank : ∀ j, next fmt m f j = none) :
    tableAt fmt m f q = if q = [] then some f else none := by
  cases q with
  | nil => rfl
  | cons i q =>
    rw [tableAt_cons, hblank]
    rfl

theorem Fresh.insert {g : F} (h : Fresh fmt m S R g) (hblank : ∀ j, next fmt m f j = none)
    (hne : g ≠ f) : Fresh fmt m S (Insert.insert f R) g := by
  rintro r (rfl | hr) q hq hg
  · rw [tableAt_blank hblank] at hg
    split_ifs at hg
    exact hne (Option.some.inj hg).symm
  · exact h r hr q hq hg

theorem Forest.insert (hF : Forest fmt m S R) (hfresh : Fresh fmt m S R f)
    (hblank : ∀ j, next fmt m f j = none) : Forest fmt m S (insert f R) := by
  have hroot : ∀ {q g}, tableAt fmt m f q = some g → q = [] ∧ g = f := by
    intro q g h
    rw [tableAt_blank hblank] at h
    split_ifs at h with hq
    exact ⟨hq, (Option.some.inj h).symm⟩
  constructor
  · rintro r s p q g (rfl | hr) (rfl | hs) hp hq h h'
    · rw [(hroot h).1, (hroot h').1]
    · exact absurd ((hroot h).2 ▸ h') (hfresh s hs q hq)
    · exact absurd ((hroot h').2 ▸ h) (hfresh r hr p hp)
    · exact hF.path_eq hr hs hp hq h h'
  · rintro r s i p g (rfl | hr) (rfl | hs) hp h h'
    · rfl
    · exact absurd (hroot h).1 (by simp)
    · exact absurd (hroot h').1 (by simp)
    · exact hF.slot_eq hr hs hp h h'

theorem Separate.insert (hsep : Separate fmt m S R) (hfresh : Fresh fmt m S R f)
    (hblank : ∀ j, next fmt m f j = none) : Separate fmt m S (insert f R) := by
  have hroot : ∀ {q g}, tableAt fmt m f q = some g → g = f := by
    intro q g h
    rw [tableAt_blank hblank] at h
    split_ifs at h
    exact (Option.some.inj h).symm
  rintro r s p q g (rfl | hr) (rfl | hs) hp hq h h'
  · rfl
  · exact absurd (hroot h ▸ h') (hfresh s hs q hq)
  · exact absurd (hroot h' ▸ h) (hfresh r hr p hp)
  · exact hsep hr hs hp hq h h'

/-- A fresh table with the root entries of `s` is a new root that shares the tables of `s`. -/
theorem Forest.insert_copy (hF : Forest fmt m S R) (hs : s ∈ R) (hfresh : Fresh fmt m S R f)
    (hcopy : ∀ i, next fmt m f i = next fmt m s i) : Forest fmt m S (Insert.insert f R) := by
  have hroot : ∀ {q g}, tableAt fmt m f q = some g →
      q = [] ∧ g = f ∨ tableAt fmt m s q = some g := by
    intro q g h
    cases q with
    | nil => exact Or.inl ⟨rfl, (Option.some.inj h).symm⟩
    | cons i q => exact Or.inr ((tableAt_of_next_eq (hcopy i) q).symm.trans h)
  constructor
  · rintro r r' p q g (rfl | hr) (rfl | hr') hp hq h h'
    · rcases hroot h with ⟨rfl, rfl⟩ | hsp
      · rcases hroot h' with ⟨rfl, -⟩ | hsq
        · rfl
        · exact absurd hsq (hfresh s hs q hq)
      · rcases hroot h' with ⟨rfl, rfl⟩ | hsq
        · exact absurd hsp (hfresh s hs p hp)
        · exact hF.path_eq hs hs hp hq hsp hsq
    · rcases hroot h with ⟨rfl, rfl⟩ | h
      · exact absurd h' (hfresh r' hr' q hq)
      · exact hF.path_eq hs hr' hp hq h h'
    · rcases hroot h' with ⟨rfl, rfl⟩ | h'
      · exact absurd h (hfresh r hr p hp)
      · exact hF.path_eq hr hs hp hq h h'
    · exact hF.path_eq hr hr' hp hq h h'
  · rintro r r' i p g (rfl | hr) (rfl | hr') hp h h'
    · rfl
    · rw [tableAt_of_next_eq (hcopy i)] at h
      exact (hcopy i).trans (hF.slot_eq hs hr' hp h h')
    · rw [tableAt_of_next_eq (hcopy i)] at h'
      exact (hF.slot_eq hr hs hp h h').trans (hcopy i).symm
    · exact hF.slot_eq hr hr' hp h h'

section Update

variable [DecidableEq F] [DecidableEq I]

/-! ## Storing an entry at the end of the paths -/

section Write

variable (hS : PrefixClosed S) (hF : Forest fmt m S R) (hs : s ∈ R) (hp : p ∈ S)
  (ht : tableAt fmt m s p = some t) (hend : p ++ [i] ∉ S)
include hS hF hs hp ht hend

theorem Forest.tableAt_write (hr : r ∈ R) (hq : q ∈ S) :
    tableAt fmt (set m t i e) r q = tableAt fmt m r q := by
  refine tableAt_set_of_avoids fun p₁ p₂ hq' hp₁ => hend ?_
  obtain rfl : p₁ = p := hF.path_eq hr hs (hS.left (hq' ▸ hq)) hp hp₁ ht
  exact hS.snoc (hq' ▸ hq)

theorem Forest.next_write (hr : r ∈ R) (hj : [j] ∈ S) :
    next fmt (set m t i e) r j = next fmt m r j := by
  refine next_set_of_ne ?_
  rintro ⟨rfl, rfl⟩
  obtain rfl : [] = p := hF.path_eq hr hs hS.nil hp rfl ht
  exact hend hj

theorem Forest.write : Forest fmt (set m t i e) S R :=
  forest_congr hF (fun _ hr _ hq => hF.tableAt_write hS hs hp ht hend hr hq)
    (fun _ hr _ hj => hF.next_write hS hs hp ht hend hr hj) hS

theorem Forest.leafAt_write (hr : r ∈ R) (hq : q ∈ S) :
    leafAt fmt (set m t i e) r q j =
      if tableAt fmt m r q = some t ∧ j = i then if fmt.present e then some e else none
      else leafAt fmt m r q j := by
  unfold leafAt
  rw [hF.tableAt_write hS hs hp ht hend hr hq]
  cases hu : tableAt fmt m r q with
  | none => simp
  | some u =>
    simp only [Option.bind_some, Option.some.injEq]
    by_cases h : u = t ∧ j = i
    · obtain ⟨rfl, rfl⟩ := h
      simp [set_self]
    · rw [set_of_ne h, if_neg h]

end Write

/-! ## Linking a blank table -/

section Link

variable (hS : PrefixClosed S) (hF : Forest fmt m S R) (hs : s ∈ R) (hp : p ++ [i] ∈ S)
  (ht : tableAt fmt m s p = some t) (hslot : next fmt m t i = none)
  (he : fmt.present e = true) (hfresh : Fresh fmt m S R (fmt.target e))
  (hblank : ∀ j, next fmt m (fmt.target e) j = none)
include hS hF hs hp ht hslot he hfresh hblank

theorem Forest.tableAt_link_of_ne (hr : r ∈ R) (hq : q ∈ S)
    (h : q = p ++ [i] → tableAt fmt m r p ≠ some t) :
    tableAt fmt (set m t i e) r q = tableAt fmt m r q := by
  refine Radix.tableAt_link_of_ne hslot he hblank (hfresh.ne_table hS hs hp ht) ?_
  rintro p₁ rfl hp₁
  obtain rfl : p₁ = p := hF.path_eq hr hs (hS.left hq) (hS.left hp) hp₁ ht
  exact h rfl hp₁

/-- After a link, a path leads to the new table exactly when it is the linked path from a root
that reaches `t`; every other path leads where it led before. -/
theorem Forest.tableAt_link_cases (hr : r ∈ R) (hq : q ∈ S)
    (h : tableAt fmt (set m t i e) r q = some f) :
    f = fmt.target e ∧ q = p ++ [i] ∧ tableAt fmt m r p = some t ∨
      f ≠ fmt.target e ∧ tableAt fmt m r q = some f := by
  by_cases hnew : q = p ++ [i] ∧ tableAt fmt m r p = some t
  · obtain ⟨rfl, hrp⟩ := hnew
    rw [tableAt_link_self hslot hrp he] at h
    exact Or.inl ⟨(Option.some.inj h).symm, rfl, hrp⟩
  · rw [hF.tableAt_link_of_ne hS hs hp ht hslot he hfresh hblank hr hq
      fun h₁ h₂ => hnew ⟨h₁, h₂⟩] at h
    refine Or.inr ⟨?_, h⟩
    rintro rfl
    exact hfresh r hr q hq h

theorem Forest.link : Forest fmt (set m t i e) S R := by
  constructor
  · intro r r' q q' f hr hr' hq hq' h h'
    rcases hF.tableAt_link_cases hS hs hp ht hslot he hfresh hblank hr hq h with
      ⟨rfl, rfl, -⟩ | ⟨hne, h⟩ <;>
      rcases hF.tableAt_link_cases hS hs hp ht hslot he hfresh hblank hr' hq' h' with
        ⟨heq, rfl, -⟩ | ⟨hne', h'⟩
    · rfl
    · exact absurd rfl hne'
    · exact absurd heq hne
    · exact hF.path_eq hr hr' hq hq' h h'
  · intro r r' j q f hr hr' hq h h'
    -- A present root entry is not the one written.
    have hkeep : ∀ {u}, next fmt m u j ≠ none →
        next fmt (set m t i e) u j = next fmt m u j := by
      intro u hu
      refine next_set_of_ne ?_
      rintro ⟨rfl, rfl⟩
      exact hu hslot
    have hpres : ∀ {u g q}, tableAt fmt m u (j :: q) = some g → next fmt m u j ≠ none := by
      intro u g q hu
      obtain ⟨v, hv, -⟩ := exists_next_of_tableAt hu
      simp [hv]
    rcases hF.tableAt_link_cases hS hs hp ht hslot he hfresh hblank hr hq h with
      ⟨rfl, hq₁, hrt⟩ | ⟨hne, h⟩ <;>
      rcases hF.tableAt_link_cases hS hs hp ht hslot he hfresh hblank hr' hq h' with
        ⟨heq, -, hrt'⟩ | ⟨hne', h'⟩
    · cases p with
      | nil =>
        obtain rfl := Option.some.inj hrt
        obtain rfl := Option.some.inj hrt'
        rfl
      | cons k p =>
        obtain ⟨rfl, -⟩ := List.cons.inj hq₁
        rw [hkeep (hpres hrt), hkeep (hpres hrt')]
        exact hF.slot_eq hr hr' (hS.left hp) hrt hrt'
    · exact absurd rfl hne'
    · exact absurd heq hne
    · rw [hkeep (hpres h), hkeep (hpres h')]
      exact hF.slot_eq hr hr' hq h h'

theorem Separate.link (hsep : Separate fmt m S R) : Separate fmt (set m t i e) S R := by
  intro r r' q q' f hr hr' hq hq' h h'
  rcases hF.tableAt_link_cases hS hs hp ht hslot he hfresh hblank hr hq h with
    ⟨rfl, -, hrt⟩ | ⟨hne, h⟩ <;>
    rcases hF.tableAt_link_cases hS hs hp ht hslot he hfresh hblank hr' hq' h' with
      ⟨heq, -, hrt'⟩ | ⟨hne', h'⟩
  · exact hsep hr hr' (hS.left hp) (hS.left hp) hrt hrt'
  · exact absurd rfl hne'
  · exact absurd heq hne
  · exact hsep hr hr' hq hq' h h'

/-- A link changes no entry at the end of a maximal path. -/
theorem Forest.leafAt_link (hr : r ∈ R) (hq : q ∈ S) (hmax : ∀ j, q ++ [j] ∉ S) :
    leafAt fmt (set m t i e) r q j = leafAt fmt m r q j := by
  have hqt : tableAt fmt m r q ≠ some t := by
    intro hqt
    obtain rfl : q = p := hF.path_eq hr hs hq (hS.left hp) hqt ht
    exact hmax i hp
  have hne := hfresh.ne_table hS hs hp ht
  by_cases hnew : q = p ++ [i] ∧ tableAt fmt m r p = some t
  · obtain ⟨rfl, hrp⟩ := hnew
    have hold : tableAt fmt m r (p ++ [i]) = none := by rw [tableAt_snoc hrp, hslot]
    have hpres : fmt.present (m (fmt.target e) j) = false := by
      have := hblank j
      unfold next at this
      by_contra hc
      simp [hc] at this
    rw [leafAt, leafAt, hold, tableAt_link_self hslot hrp he, Option.bind_some,
      set_of_ne fun h => hne h.1, hpres]
    rfl
  · unfold leafAt
    rw [hF.tableAt_link_of_ne hS hs hp ht hslot he hfresh hblank hr hq
      fun h₁ h₂ => hnew ⟨h₁, h₂⟩]
    cases hu : tableAt fmt m r q with
    | none => rfl
    | some u =>
      have hut : u ≠ t := fun hut => hqt (hut ▸ hu)
      simp only [Option.bind_some, set_of_ne fun h => hut h.1]

end Link

end Update

end Lib.Radix
