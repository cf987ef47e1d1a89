import Mathlib.Tactic.Common

/-!
# Logs of stores

A log lists the stores to a memory, the last one first, as pairs of an address and a value. Reading
an address is `List.lookup`: what was stored there last, or nothing.

`Interleaved l₁ l₂ l` says that `l` has the stores of two programs in some order that keeps the
order of each. When the two store to different addresses, each address reads as if the other program
were not there, whatever the order is (`Interleaved.lookup_left`).
-/

namespace Lib

variable {α β γ : Type*}

section

variable [DecidableEq α] {a x : α} {v : β} {log : List (α × β)}

theorem lookup_store_self (a : α) (v : β) (log : List (α × β)) :
    ((a, v) :: log).lookup a = some v := List.lookup_cons_self

theorem lookup_store_of_ne (h : x ≠ a) : ((a, v) :: log).lookup x = log.lookup x := by
  rw [List.lookup_cons, beq_false_of_ne h]

end

/-- The elements of two lists in one, each list in its own order. -/
inductive Interleaved : List γ → List γ → List γ → Prop
  | nil : Interleaved [] [] []
  | left {a : γ} {l₁ l₂ l : List γ} (h : Interleaved l₁ l₂ l) : Interleaved (a :: l₁) l₂ (a :: l)
  | right {a : γ} {l₁ l₂ l : List γ} (h : Interleaved l₁ l₂ l) : Interleaved l₁ (a :: l₂) (a :: l)

namespace Interleaved

variable {l₁ l₂ l : List γ}

theorem symm (h : Interleaved l₁ l₂ l) : Interleaved l₂ l₁ l := by
  induction h with
  | nil => exact nil
  | left _ ih => exact ih.right
  | right _ ih => exact ih.left

theorem mem_iff {x : γ} (h : Interleaved l₁ l₂ l) : x ∈ l ↔ x ∈ l₁ ∨ x ∈ l₂ := by
  induction h with
  | nil => simp
  | left _ ih => simp [ih, or_assoc]
  | right _ ih => simp [ih, or_left_comm]

section

variable [DecidableEq α] {x : α} {s₁ s₂ s : List (α × β)}

/-- The second program does not store to `x`. -/
theorem lookup_left (h : Interleaved s₁ s₂ s) (hx : ∀ e ∈ s₂, e.1 ≠ x) :
    s.lookup x = s₁.lookup x := by
  induction h with
  | nil => rfl
  | @left e _ _ _ _ ih =>
    by_cases he : x = e.1
    · rw [he, lookup_store_self, lookup_store_self]
    · rw [lookup_store_of_ne he, lookup_store_of_ne he, ih hx]
  | right _ ih =>
    rw [List.forall_mem_cons] at hx
    rw [lookup_store_of_ne (Ne.symm hx.1), ih hx.2]

end

end Interleaved

end Lib
