import Mathlib.Data.List.Chain
import Mathlib.Data.List.TakeWhile
import Mathlib.Tactic.Common

/-!
# Words and fields

A line can be taken apart at its separators in two ways. Its words are the maximal runs of other
elements. Its fields are what a reader finds that starts a new field behind every separator, unless
the line ends there: a field is empty where two separators meet.

The words are the fields that are not empty (`words_eq`), and no field is empty exactly when no
separator starts the line or stands behind another one (`nil_not_mem_fields_iff`).
-/

namespace Lib

variable {α : Type*} (p : α → Bool)

/-- The maximal runs of elements that are no separators. -/
def words (l : List α) : List (List α) := (l.splitOnP p).filter (! ·.isEmpty)

/-- The fields of a line. -/
def fields : List α → List (List α)
  | [] => []
  | a :: l =>
    if p a then [] :: fields l
    else match fields l with
      | [] => [[a]]
      | w :: ws => (a :: w) :: ws

/-- No separator starts the line or stands behind another one. -/
def Spaced (l : List α) : Prop :=
  (∀ a ∈ l.head?, ¬ p a) ∧ l.IsChain fun a b => ¬ (p a ∧ p b)

instance (l : List α) : Decidable (Spaced p l) := inferInstanceAs (Decidable (_ ∧ _))

variable {p} {a : α} {l w : List α}

theorem fields_cons (a : α) (l : List α) : fields p (a :: l) =
    if p a then [] :: fields p l
    else match fields p l with
      | [] => [[a]]
      | w :: ws => (a :: w) :: ws := rfl

theorem fields_eq_nil_iff : fields p l = [] ↔ l = [] := by
  cases l with
  | nil => exact iff_of_true rfl rfl
  | cons a l =>
    refine iff_of_false ?_ (List.cons_ne_nil a l)
    rw [fields_cons]
    by_cases ha : p a
    · rw [if_pos ha]
      exact List.cons_ne_nil _ _
    · rw [if_neg ha]
      cases fields p l <;> exact List.cons_ne_nil _ _

/-- A field that a separator ends. -/
theorem fields_append_cons (hw : ∀ x ∈ w, ¬ p x) (ha : p a) (l : List α) :
    fields p (w ++ a :: l) = w :: fields p l := by
  induction w with
  | nil => rw [List.nil_append, fields_cons, if_pos ha]
  | cons x w ih =>
    rw [List.forall_mem_cons] at hw
    rw [List.cons_append, fields_cons, if_neg hw.1, ih hw.2]

/-- A field that the line ends. -/
theorem fields_of_forall (hw : ∀ x ∈ w, ¬ p x) (hne : w ≠ []) : fields p w = [w] := by
  induction w with
  | nil => exact absurd rfl hne
  | cons x w ih =>
    rw [List.forall_mem_cons] at hw
    rw [fields_cons, if_neg hw.1]
    by_cases hnil : w = []
    · rw [hnil]
      rfl
    · rw [ih hw.2 hnil]

/-- The first field, and the ones behind it. -/
theorem fields_split (hne : l ≠ []) : ∃ w, (∀ x ∈ w, ¬ p x) ∧
    fields p l = w :: fields p (l.drop (w.length + 1)) ∧
    (l = w ∨ ∃ a rest, p a ∧ l = w ++ a :: rest) := by
  have hw : ∀ x ∈ l.takeWhile (! p ·), ¬ p x := by
    intro x hx
    simpa using List.mem_takeWhile_imp hx
  have hl := List.takeWhile_append_dropWhile (p := (! p ·)) (l := l)
  generalize l.takeWhile (! p ·) = w at hw hl
  refine ⟨w, hw, ?_⟩
  cases hrest : l.dropWhile (! p ·) with
  | nil =>
    rw [hrest, List.append_nil] at hl
    subst hl
    rw [fields_of_forall hw hne, List.drop_of_length_le (Nat.le_succ _)]
    exact ⟨rfl, Or.inl rfl⟩
  | cons a rest =>
    have ha : p a := by
      have hhead := List.head_dropWhile_not (! p ·) (l := l)
        (by rw [hrest]; exact List.cons_ne_nil _ _)
      simpa [hrest] using hhead
    rw [hrest] at hl
    subst hl
    rw [fields_append_cons hw ha, List.drop_append, List.drop_of_length_le (Nat.le_succ _),
      Nat.add_sub_cancel_left]
    exact ⟨rfl, Or.inr ⟨a, rest, ha, rfl⟩⟩

theorem mem_of_mem_fields {x : α} (hx : x ∈ w) (hw : w ∈ fields p l) : x ∈ l := by
  induction hn : l.length using Nat.strong_induction_on generalizing l with
  | _ n ih =>
    subst hn
    by_cases hne : l = []
    · subst hne
      cases hw
    · obtain ⟨v, -, hfields, hl⟩ := fields_split (p := p) hne
      have hv : v <+: l := by
        rcases hl with rfl | ⟨a, rest, -, rfl⟩
        · exact List.prefix_rfl
        · exact List.prefix_append _ _
      rw [hfields] at hw
      rcases List.mem_cons.1 hw with rfl | hw
      · exact hv.subset hx
      · have hpos := List.length_pos_iff.2 hne
        exact List.mem_of_mem_drop (ih _ (by rw [List.length_drop]; omega) hw rfl)

/-- Splitting a line at its separators may give one more field, an empty one at the end. -/
theorem splitOnP_eq_fields (l : List α) :
    l.splitOnP p = fields p l ∨ l.splitOnP p = fields p l ++ [[]] := by
  induction l with
  | nil => exact Or.inr rfl
  | cons a l ih =>
    rw [List.splitOnP_cons_eq_if_modifyHead, fields_cons]
    by_cases ha : p a
    · rw [if_pos ha, if_pos ha]
      exact ih.imp (congrArg _) (congrArg _)
    · rw [if_neg ha, if_neg ha]
      by_cases hnil : l = []
      · rw [hnil]
        exact Or.inl rfl
      · obtain ⟨w, ws, hfields⟩ := List.exists_cons_of_ne_nil (mt fields_eq_nil_iff.1 hnil)
        rw [hfields] at ih ⊢
        exact ih.imp (fun h => by rw [h]; rfl) (fun h => by rw [h]; rfl)

theorem words_eq (l : List α) : words p l = (fields p l).filter (! ·.isEmpty) := by
  obtain h | h := splitOnP_eq_fields (p := p) l
  · rw [words, h]
  · rw [words, h, List.filter_append]
    exact List.append_nil _

/-- Without an empty field the fields are the words. -/
theorem fields_eq_words (h : [] ∉ fields p l) : fields p l = words p l := by
  rw [words_eq, eq_comm, List.filter_eq_self]
  intro w hw
  cases w with
  | nil => exact absurd hw h
  | cons a w => rfl

/-- With one there are more of them. -/
theorem words_length_lt (h : [] ∈ fields p l) : (words p l).length < (fields p l).length := by
  rw [words_eq]
  apply lt_of_le_of_ne (List.length_filter_le _ _)
  intro heq
  have hall := List.length_filter_eq_length_iff.1 heq [] h
  exact absurd hall Bool.false_ne_true

theorem nil_not_mem_fields_iff : [] ∉ fields p l ↔ Spaced p l := by
  -- Behind the first field the line has to be checked from its first separator on.
  have hboth : ([] ∉ fields p l ↔ Spaced p l) ∧
      ([] ∉ (fields p l).tail ↔ l.IsChain fun a b => ¬ (p a ∧ p b)) := by
    induction l with
    | nil => simp [fields, Spaced]
    | cons a l ih =>
      rw [fields_cons]
      by_cases ha : p a
      · rw [if_pos ha]
        constructor
        · refine iff_of_false (fun h => h List.mem_cons_self) ?_
          exact fun h => h.1 a rfl ha
        · rw [List.tail_cons, ih.1, Spaced, List.isChain_cons]
          simp [ha]
      · have htail : (match fields p l with
            | [] => [[a]]
            | w :: ws => (a :: w) :: ws).tail = (fields p l).tail := by
          cases fields p l <;> rfl
        have hmem : ([] ∈ match fields p l with
            | [] => [[a]]
            | w :: ws => (a :: w) :: ws) ↔ [] ∈ (fields p l).tail := by
          cases fields p l <;> simp
        rw [if_neg ha, htail, hmem, ih.2, Spaced, List.isChain_cons]
        simp [ha]
  exact hboth.1

end Lib
