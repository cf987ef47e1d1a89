import Mathlib.Data.List.Nodup
import Mathlib.Tactic.Common

/-!
# NULL-terminated chains

An intrusive linked list is a pointer to a first node and a function giving each node's
successor. `Chain next p l` says that following `next` from `p` visits exactly the nodes of
`l`, in order, and then ends. Nothing else is assumed about the nodes outside `l`, so the same
predicate serves a free list threaded through an array and a task list on the heap.

A chain determines its list (`Chain.unique`), and a list that ends cannot meet a node twice
(`Chain.nodup`): the two facts that make "NULL-terminated" imply "acyclic". To relink nodes in the
middle of a list, a chain is cut into segments (`chain_append_cons`) and put together again. A
doubly linked list is a chain that a second chain visits backwards (`Chain.next_iff_prev`).
-/

namespace Lib

variable {α : Type*}

/-- Following `next` from `p` visits exactly `l` and then ends. -/
def Chain (next : α → Option α) : Option α → List α → Prop
  | p, [] => p = none
  | p, a :: l => p = some a ∧ Chain next (next a) l

namespace Chain

variable {next next' : α → Option α} {p : Option α} {a : α} {l l' : List α}

@[simp] theorem nil_iff : Chain next p [] ↔ p = none := Iff.rfl

@[simp] theorem cons_iff : Chain next p (a :: l) ↔ p = some a ∧ Chain next (next a) l := Iff.rfl

theorem of_none (h : Chain next none l) : l = [] := by
  cases l with
  | nil => rfl
  | cons b l => simp at h

theorem of_some (h : Chain next (some a) l) : ∃ l', l = a :: l' ∧ Chain next (next a) l' := by
  cases l with
  | nil => simp at h
  | cons b l =>
    obtain ⟨hb, hl⟩ := h
    obtain rfl := Option.some.inj hb
    exact ⟨l, rfl, hl⟩

theorem start (h : Chain next p l) (hl : l ≠ []) : ∃ a ∈ l, p = some a := by
  cases l with
  | nil => exact absurd rfl hl
  | cons a l => exact ⟨a, by simp, h.1⟩

theorem unique (h : Chain next p l) (h' : Chain next p l') : l = l' := by
  induction l generalizing p l' with
  | nil =>
    rw [nil_iff] at h
    subst h
    exact (of_none h').symm
  | cons a l ih =>
    obtain ⟨rfl, hl⟩ := h
    obtain ⟨l'', rfl, hl'⟩ := of_some h'
    rw [ih hl hl']

/-- The part of a chain from an element on is the chain starting there. -/
theorem suffix {l₁ l₂ : List α} (h : Chain next p (l₁ ++ a :: l₂)) :
    Chain next (next a) l₂ := by
  induction l₁ generalizing p with
  | nil => exact h.2
  | cons b l₁ ih => exact ih h.2

/-- A chain that ends visits no node twice. -/
theorem nodup (h : Chain next p l) : l.Nodup := by
  induction l generalizing p with
  | nil => exact List.nodup_nil
  | cons a l ih =>
    obtain ⟨-, hl⟩ := h
    refine List.nodup_cons.2 ⟨?_, ih hl⟩
    intro ha
    -- A second visit to `a` would make a proper suffix of `l` equal to `l`.
    obtain ⟨l₁, l₂, rfl⟩ := List.append_of_mem ha
    have hlen := congrArg List.length (unique hl (suffix hl))
    simp at hlen
    omega

/-- Only the successors of the visited nodes matter. -/
theorem congr (h : Chain next p l) (heq : ∀ b ∈ l, next' b = next b) : Chain next' p l := by
  induction l generalizing p with
  | nil => exact h
  | cons a l ih =>
    obtain ⟨hp, hl⟩ := h
    refine ⟨hp, ?_⟩
    rw [heq a (by simp)]
    exact ih hl fun b hb => heq b (by simp [hb])

end Chain

/-! ## Segments -/

/-- Following `next` from `p` visits `l` and then comes to `q`. -/
def Seg (next : α → Option α) : Option α → List α → Option α → Prop
  | p, [], q => p = q
  | p, a :: l, q => p = some a ∧ Seg next (next a) l q

variable {next next' : α → Option α} {p q : Option α} {a : α} {l l₁ l₂ : List α}

theorem Seg.congr (h : Seg next p l q) (heq : ∀ b ∈ l, next' b = next b) : Seg next' p l q := by
  induction l generalizing p with
  | nil => exact h
  | cons a l ih =>
    obtain ⟨hp, hl⟩ := h
    refine ⟨hp, ?_⟩
    rw [heq a (by simp)]
    exact ih hl fun b hb => heq b (by simp [hb])

theorem chain_append : Chain next p (l₁ ++ l₂) ↔ ∃ q, Seg next p l₁ q ∧ Chain next q l₂ := by
  induction l₁ generalizing p with
  | nil =>
    constructor
    · exact fun h => ⟨p, rfl, h⟩
    · rintro ⟨q, rfl, h⟩
      exact h
  | cons a l₁ ih =>
    rw [List.cons_append, Chain.cons_iff, ih]
    constructor
    · rintro ⟨hp, q, hseg, hchain⟩
      exact ⟨q, ⟨hp, hseg⟩, hchain⟩
    · rintro ⟨q, ⟨hp, hseg⟩, hchain⟩
      exact ⟨hp, q, hseg, hchain⟩

/-- Cutting a chain in front of a node. -/
theorem chain_append_cons : Chain next p (l₁ ++ a :: l₂) ↔
    Seg next p l₁ (some a) ∧ Chain next (next a) l₂ := by
  rw [chain_append]
  constructor
  · rintro ⟨q, hseg, rfl, hchain⟩
    exact ⟨hseg, hchain⟩
  · rintro ⟨hseg, hchain⟩
    exact ⟨some a, hseg, rfl, hchain⟩

/-- Linking a node behind the last one. -/
theorem Chain.snoc {z e : α} (h : Chain next p (l ++ [z])) (hz : next' z = some e)
    (he : next' e = none) (heq : ∀ b ∈ l, next' b = next b) : Chain next' p (l ++ [z] ++ [e]) := by
  rw [List.append_assoc]
  refine chain_append_cons.2 ⟨(chain_append_cons.1 h).1.congr heq, hz, he⟩

/-! ## Doubly linked lists -/

variable {prev : α → Option α} {b : α}

/-- Where the second chain visits the same nodes backwards, a successor in the first one is a
predecessor in the second. -/
theorem Chain.prev_of_next (h : Chain next p l) (h' : Chain prev q l.reverse) (ha : a ∈ l)
    (hab : next a = some b) : prev b = some a := by
  obtain ⟨l₁, l₂, rfl⟩ := List.append_of_mem ha
  have hrest := h.suffix
  rw [hab] at hrest
  obtain ⟨l₃, rfl, -⟩ := Chain.of_some hrest
  rw [List.reverse_append, List.reverse_cons, List.reverse_cons, List.append_assoc,
    List.append_assoc, List.singleton_append] at h'
  exact h'.suffix.1

theorem Chain.next_iff_prev (h : Chain next p l) (h' : Chain prev q l.reverse) (ha : a ∈ l)
    (hb : b ∈ l) : next a = some b ↔ prev b = some a := by
  constructor
  · exact h.prev_of_next h' ha
  · intro hba
    have hreverse : Chain next p l.reverse.reverse := by rwa [List.reverse_reverse]
    exact h'.prev_of_next hreverse (List.mem_reverse.2 hb) hba

end Lib
