import Mathlib.Tactic.Common

/-!
# Guarded runs

A system is a partial step function `step : S → Op → Option S` with a condition `ok` on the state
before each step, for what the environment promises. `Run step ok s ops s'` holds when the steps
`ops` lead from `s` to `s'` and meet the condition. The rules are the induction along a run:
`Run.invariant` for a property of states, `Run.simulation` for a relation with an abstract
system, and `Run.countP_le` for a rank that some steps lower.

`Along step ok s ops` is the condition alone: every step that is reached meets `ok`. When `ok` is
what keeps a step from failing, `Along.simulation` turns it into a run.

`Fault` is what can go wrong in a computation over linked objects and arrays. `bind_eq_ok` and
`map_eq_ok` take a computation that can fail apart.
-/

namespace Lib

universe u

variable {S Op A : Type*}

/-- The operations `ops` lead from the first state to the second, and each meets `ok`. -/
inductive Run (step : S → Op → Option S) (ok : S → Op → Prop) : S → List Op → S → Prop
  | nil (s : S) : Run step ok s [] s
  | cons {s s' s'' : S} {op : Op} {ops : List Op} (hok : ok s op) (hstep : step s op = some s')
      (hrest : Run step ok s' ops s'') : Run step ok s (op :: ops) s''

variable {step : S → Op → Option S} {ok : S → Op → Prop} {s s' s'' : S} {ops ops' : List Op}

/-- A run with one more step. -/
theorem Run.snoc {op : Op} (h : Run step ok s ops s') (hok : ok s' op)
    (hstep : step s' op = some s'') : Run step ok s (ops ++ [op]) s'' := by
  induction h with
  | nil s => exact .cons hok hstep (.nil _)
  | cons hok' hstep' _ ih => exact .cons hok' hstep' (ih hok hstep)

/-- What every step keeps, a run keeps. -/
theorem Run.invariant {I : S → Prop}
    (hstep : ∀ {s op s'}, I s → ok s op → step s op = some s' → I s')
    (h : Run step ok s ops s') (hI : I s) : I s' := by
  induction h with
  | nil => exact hI
  | cons hok hs _ ih => exact ih (hstep hI hok hs)

/-- A relation with a deterministic abstract system that every step keeps. -/
theorem Run.simulation {f : A → Op → A} {R : S → A → Prop}
    (hstep : ∀ {s a op s'}, R s a → ok s op → step s op = some s' → R s' (f a op))
    (h : Run step ok s ops s') {a : A} (hR : R s a) : R s' (ops.foldl f a) := by
  induction h generalizing a with
  | nil => exact hR
  | cons hok hs _ ih => exact ih (hstep hR hok hs)

theorem Run.mono {ok' : S → Op → Prop} (h : Run step ok s ops s')
    (hok : ∀ s op, ok s op → ok' s op) : Run step ok' s ops s' := by
  induction h with
  | nil s => exact .nil s
  | cons hop hs _ ih => exact .cons (hok _ _ hop) hs ih

/-- A run meets one more condition, or there is a first step that does not. -/
theorem Run.first_or (P : S → Op → Prop) (h : Run step ok s ops s') :
    Run step (fun s op => ok s op ∧ P s op) s ops s' ∨
      ∃ ops₁ op ops₂ s₁, ops = ops₁ ++ op :: ops₂ ∧
        Run step (fun s op => ok s op ∧ P s op) s ops₁ s₁ ∧ ok s₁ op ∧ ¬ P s₁ op := by
  induction h with
  | nil s => exact Or.inl (.nil s)
  | @cons s _ _ op ops hok hs _ ih =>
    by_cases hP : P s op
    · rcases ih with hrest | ⟨ops₁, op', ops₂, s₁, rfl, hrun, hok', hnot⟩
      · exact Or.inl (.cons ⟨hok, hP⟩ hs hrest)
      · exact Or.inr ⟨op :: ops₁, op', ops₂, s₁, rfl, .cons ⟨hok, hP⟩ hs hrun, hok', hnot⟩
    · exact Or.inr ⟨[], op, ops, s, rfl, .nil s, hok, hP⟩

/-- A rank that the counted steps lower and no step raises bounds their number. -/
theorem Run.countP_le {R : S → Nat → Prop} (counted : Op → Bool)
    (hstep : ∀ {s n op s'}, R s n → ok s op → step s op = some s' →
      ∃ n', R s' n' ∧ n' + (if counted op then 1 else 0) ≤ n)
    (h : Run step ok s ops s') {n : Nat} (hR : R s n) : ops.countP counted ≤ n := by
  induction h generalizing n with
  | nil => exact Nat.zero_le _
  | @cons _ _ _ op ops hok hs _ ih =>
    obtain ⟨n', hR', hn⟩ := hstep hR hok hs
    have hrest := ih hR'
    rw [List.countP_cons]
    omega

/-- Each of the operations `ops` meets `ok` when its turn comes. -/
def Along (step : S → Op → Option S) (ok : S → Op → Prop) : S → List Op → Prop
  | _, [] => True
  | s, op :: ops => ok s op ∧ ∀ s', step s op = some s' → Along step ok s' ops

/-- Steps that do not fail where `ok` holds, and keep a relation with an abstract system. -/
theorem Along.simulation {f : A → Op → A} {R : S → A → Prop}
    (hstep : ∀ {s a op}, R s a → ok s op → ∃ s', step s op = some s' ∧ R s' (f a op))
    (h : Along step ok s ops) {a : A} (hR : R s a) :
    ∃ s', Run step ok s ops s' ∧ R s' (ops.foldl f a) := by
  induction ops generalizing s a with
  | nil => exact ⟨s, .nil s, hR⟩
  | cons op ops ih =>
    obtain ⟨hok, hrest⟩ := h
    obtain ⟨s₁, hs₁, hR₁⟩ := hstep hR hok
    obtain ⟨s', hrun, hR'⟩ := ih (hrest s₁ hs₁) hR₁
    exact ⟨s', .cons hok hs₁ hrun, hR'⟩

theorem along_some_cons {f : S → Op → S} {op : Op} :
    Along (fun s op => some (f s op)) ok s (op :: ops) ↔
      ok s op ∧ Along (fun s op => some (f s op)) ok (f s op) ops := by
  refine and_congr_right fun _ => ⟨fun h => h _ rfl, fun h s' hs' => ?_⟩
  obtain rfl := Option.some.inj hs'
  exact h

/-- The same, where the condition is on the abstract states. -/
theorem Along.lift {ok : A → Op → Prop} {f : A → Op → A} {R : S → A → Prop}
    (hstep : ∀ {s a op}, R s a → ok a op → ∃ s', step s op = some s' ∧ R s' (f a op)) {a : A}
    (h : Along (fun a op => some (f a op)) ok a ops) (hR : R s a) :
    ∃ s', Run step (fun _ _ => True) s ops s' ∧ R s' (ops.foldl f a) := by
  induction ops generalizing s a with
  | nil => exact ⟨s, .nil s, hR⟩
  | cons op ops ih =>
    obtain ⟨hok, hrest⟩ := along_some_cons.1 h
    obtain ⟨s₁, hs₁, hR₁⟩ := hstep hR hok
    obtain ⟨s', hrun, hR'⟩ := ih hrest hR₁
    exact ⟨s', .cons trivial hs₁ hrun, hR'⟩

/-- The same for steps that never fail. -/
theorem Along.foldl {ok : A → Op → Prop} {f : A → Op → A} {g : S → Op → S} {R : S → A → Prop}
    (hstep : ∀ {s a op}, R s a → ok a op → R (g s op) (f a op)) {a : A}
    (h : Along (fun a op => some (f a op)) ok a ops) (hR : R s a) :
    R (ops.foldl g s) (ops.foldl f a) := by
  induction ops generalizing s a with
  | nil => exact hR
  | cons op ops ih =>
    obtain ⟨hok, hrest⟩ := along_some_cons.1 h
    exact ih hrest (hstep hR hok)

/-- The condition along some steps is met along the first of them. -/
theorem Along.of_append (h : Along step ok s (ops ++ ops')) : Along step ok s ops := by
  induction ops generalizing s with
  | nil => exact trivial
  | cons op ops ih => exact ⟨h.1, fun s' hs' => ih (h.2 s' hs')⟩

/-! ## Computations that can fail -/

/-- What can go wrong in a traversal. -/
inductive Fault where
  | nullDeref
  | outOfBounds
  | diverges
deriving DecidableEq

/-- A sequence succeeds when its parts do. -/
theorem bind_eq_ok {E : Type*} {X Y : Type u} {x : Except E X} {f : X → Except E Y} {y : Y} :
    x >>= f = .ok y ↔ ∃ a, x = .ok a ∧ f a = .ok y := by
  cases x with
  | error e => simp [bind, Except.bind]
  | ok a => simp [bind, Except.bind]

@[simp] theorem ok_bind {E : Type*} {X Y : Type u} (a : X) (f : X → Except E Y) :
    (.ok a : Except E X) >>= f = f a := rfl

theorem map_eq_ok {E X Y : Type*} {x : Except E X} {f : X → Y} {y : Y} :
    x.map f = .ok y ↔ ∃ a, x = .ok a ∧ f a = y := by
  cases x with
  | error e => simp [Except.map]
  | ok a => simp [Except.map]

end Lib
