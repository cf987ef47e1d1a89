import Sbunix.Tasks

/-!
# Waiting tasks are not starved

`getNextWaitingTask` takes the first waiting task behind the init task and moves it to the end, and
`addProcessToList` appends. So a task that stays waiting loses a place in front of it whenever
another one is selected, and gains none: it is passed over at most as often as there are tasks in
front of it, whatever is added meanwhile (`waiting_task_selected`).
-/

namespace Sbunix

open Lib

/-- The search for the next task. -/
def ListOp.isNext : ListOp → Bool
  | .add _ => false
  | .next _ => true

/-- The operation selects `t`. -/
def Selects (s : Tasks) (t : Nat) : ListOp → Prop
  | .add _ => False
  | .next state => ∃ s', getNextWaitingTask (s.withStates state) = .ok (some t, s')

/-- The search finds `t` waiting. -/
def FindsWaiting (t : Nat) : ListOp → Prop
  | .add _ => True
  | .next state => state t = .waiting

/-- Behind the head there are `n` tasks in front of `t`. -/
def Ahead (t : Nat) (s : Tasks) (n : Nat) : Prop :=
  ∃ c front back, Listed s (c :: (front ++ t :: back)) ∧ front.length = n

section

variable {s s' : Tasks} {t n : Nat}

theorem ahead_of_mem (h : ∃ l, Listed s l) (ht : t < s.count) (hne : t ≠ s.current) :
    ∃ n, Ahead t s n ∧ n + 1 < s.count := by
  obtain ⟨l, hl⟩ := h
  obtain ⟨rest, rfl, -⟩ := hl.chain.of_some
  have hmem : t ∈ s.current :: rest := by
    rw [hl.perm.mem_iff, List.mem_range]
    exact ht
  obtain ⟨front, back, rfl⟩ := List.append_of_mem (List.mem_of_ne_of_mem hne hmem)
  have hlen := hl.length
  rw [List.length_cons, List.length_append, List.length_cons] at hlen
  exact ⟨front.length, ⟨_, front, back, hl, rfl⟩, by omega⟩

theorem Ahead.add (h : Ahead t s n) {x : Task} (hs : listStep s (.add x) = some s') :
    Ahead t s' n := by
  obtain ⟨c, front, back, hl, hn⟩ := h
  obtain ⟨s₁, hs₁, hl₁, -⟩ := listStep_add hl x
  obtain rfl := Option.some.inj (hs₁.symm.trans hs)
  rw [List.cons_append, List.append_assoc, List.cons_append] at hl₁
  exact ⟨c, front, _, hl₁, hn⟩

/-- The task that is selected instead of a waiting one was in front of it. -/
theorem Ahead.next (h : Ahead t s n) {state : Nat → TaskState} (hwait : state t = .waiting)
    (hnot : ¬ Selects s t (.next state)) (hs : listStep s (.next state) = some s') :
    ∃ n', Ahead t s' n' ∧ n' + 1 ≤ n := by
  obtain ⟨c, front, back, hl, hn⟩ := h
  rcases getNextWaitingTask_listed hl state with
    ⟨herr, -⟩ | ⟨-, r, s₁, l', hok, hmove, hl', -, -, hr⟩
  · rw [listStep, herr] at hs
    cases hs
  rw [listStep, hok] at hs
  obtain rfl := Option.some.inj hs
  cases r with
  | none =>
    have hnone := List.find?_eq_none.1 hr.symm t (by simp)
    exact absurd hwait (by simpa using hnone)
  | some x =>
    have hne : x ≠ t := by
      rintro rfl
      exact hnot ⟨s₁, hok⟩
    obtain ⟨f₁, f₂, rfl⟩ : ∃ f₁ f₂, front = f₁ ++ x :: f₂ := by
      rw [List.tail_cons, List.find?_append] at hr
      cases hfront : front.find? (fun u => decide (state u = .waiting)) with
      | none =>
        rw [hfront, Option.none_or, List.find?_cons_of_pos (by simpa using hwait)] at hr
        exact absurd (Option.some.inj hr) hne
      | some y =>
        rw [hfront, Option.some_or] at hr
        obtain rfl := Option.some.inj hr
        exact List.append_of_mem (List.mem_of_find?_eq_some hfront)
    obtain ⟨l₁, l₂, heq, rfl⟩ := hmove
    have hnodup := hl.chain.nodup
    have hsplit : c :: (f₁ ++ x :: f₂ ++ t :: back) = (c :: f₁) ++ x :: (f₂ ++ t :: back) := by
      simp
    rw [hsplit, List.nodup_middle, List.nodup_cons, List.mem_append, not_or] at hnodup
    obtain ⟨rfl, -, rfl⟩ := (List.append_cons_inj_of_notMem hnodup.1.1 hnodup.1.2).1
      (hsplit.symm.trans heq)
    refine ⟨(f₁ ++ f₂).length, ⟨c, f₁ ++ f₂, back ++ [x], ?_, rfl⟩, ?_⟩
    · simpa using hl'
    · rw [List.length_append] at hn ⊢
      rw [List.length_cons] at hn
      omega

/-- Each search that does not select the task lowers the number of tasks in front of it. -/
theorem searches_le {ops : List ListOp} (h : Run listStep
    (fun s op => FindsWaiting t op ∧ ¬ Selects s t op) s ops s') (ht : Ahead t s n) :
    ops.countP ListOp.isNext ≤ n := by
  refine h.countP_le (R := Ahead t) ListOp.isNext ?_ ht
  intro s n op s' ht hok hs
  cases op with
  | add x => exact ⟨n, ht.add hs, Nat.le_refl _⟩
  | next state => exact ht.next hok.1 hok.2 hs

theorem listed_run {init : Task} {ops : List ListOp}
    (h : Run listStep (fun _ _ => True) (initList init) ops s) :
    (∃ l, Listed s l) ∧ s.current = 0 := by
  refine h.invariant (I := fun s => (∃ l, Listed s l) ∧ s.current = 0) ?_
    ⟨⟨_, listed_initList init⟩, rfl⟩
  rintro s op s' ⟨⟨l, hl⟩, hcurrent⟩ - hs
  have hmov := (listStep_isSome_iff hl op).1 (Option.isSome_of_mem hs)
  cases op with
  | add x =>
    obtain ⟨s₁, hs₁, hl₁, -, hcur⟩ := listStep_add hl x
    obtain rfl := Option.some.inj (hs₁.symm.trans hs)
    exact ⟨⟨_, hl₁⟩, hcur.trans hcurrent⟩
  | next state =>
    obtain ⟨s₁, l₁, hs₁, hl₁, -, hcur⟩ := listStep_next hl state hmov
    obtain rfl := Option.some.inj (hs₁.symm.trans hs)
    exact ⟨⟨_, hl₁⟩, hcur.trans hcurrent⟩

end

/-- **No starvation.** In a run, a task other than the init task that every search finds waiting is
selected by one of as many searches as there are other tasks in front of it at most, whatever is
added in between. -/
theorem waiting_task_selected {init : Task} {ops₁ ops₂ : List ListOp} {s₁ s₂ : Tasks} {t : Nat}
    (h₁ : Run listStep (fun _ _ => True) (initList init) ops₁ s₁)
    (h₂ : Run listStep (fun _ op => FindsWaiting t op) s₁ ops₂ s₂)
    (ht : 0 < t ∧ t < s₁.count) (hmany : s₁.count - 1 ≤ ops₂.countP ListOp.isNext) :
    ∃ ops op ops' s, ops₂ = ops ++ op :: ops' ∧ Run listStep (fun _ _ => True) s₁ ops s ∧
      Selects s t op ∧ ops.countP ListOp.isNext < s₁.count - 1 := by
  obtain ⟨hlist, hcurrent⟩ := listed_run h₁
  obtain ⟨n, hahead, hn⟩ := ahead_of_mem hlist ht.2 (by omega)
  rcases h₂.first_or fun s op => ¬ Selects s t op with
    hnever | ⟨ops, op, ops', s, rfl, hrun, -, hsel⟩
  · have hle := searches_le hnever hahead
    omega
  · have hle := searches_le hrun hahead
    refine ⟨ops, op, ops', s, rfl, ?_, not_not.1 hsel, by omega⟩
    exact hrun.mono fun _ _ _ => trivial

/-- Of two tasks that wait, the second one is selected by the second search at the latest. -/
theorem second_task_selected :
    ∃ s₁, Run listStep (fun _ _ => True) (initList newTask) [.add newTask, .add newTask] s₁ ∧
      ∃ ops op ops' s, [.next fun _ => .waiting, .next fun _ => .waiting] = ops ++ op :: ops' ∧
        Run listStep (fun _ _ => True) s₁ ops s ∧ Selects s 2 op ∧
        ops.countP ListOp.isNext < s₁.count - 1 := by
  have h₁ : Run listStep (fun _ _ => True) (initList newTask) [.add newTask, .add newTask] _ :=
    .cons trivial rfl (.cons trivial rfl (.nil _))
  refine ⟨_, h₁, ?_⟩
  exact waiting_task_selected h₁ (.cons rfl rfl (.cons rfl rfl (.nil _))) (by decide) (by decide)

end Sbunix
