import Sbunix.Lib.Chain
import Sbunix.Lib.Run

/-!
# The task list

`sys/task.c` keeps the tasks in a singly linked list from the init task `current` on.
`addProcessToList` appends a task, and `getNextWaitingTask` takes the first waiting task behind
`current` and moves it to the end.

Tasks are objects of a heap, named in the order of their allocation, and `NULL` is `none`. A loop
over the list is given one more turn than there are tasks: a loop that needs more has met a cycle
and does not end.

* `Listed s l` says that the list is `l`: NULL-terminated, headed by the init task, and with every
  task once.
* `addProcessToList_spec` and `getNextWaitingTask_spec` say what the two operations do. The second
  dereferences `NULL` when the task it selects is the last one.
* `task_list_run` is the invariant over runs.
-/

namespace Sbunix

open Lib

/-! ## Tasks -/

/-- The states of a task. -/
inductive TaskState where
  | waiting | running | ended | zombie | waitForChild
deriving DecidableEq, Repr

/-- The fields of `struct Task` that the scheduler reads or writes. -/
structure Task where
  taskName : String
  pid : UInt16
  ppid : UInt16
  state : TaskState
  next : Option Nat
  kernelRsp : UInt64

/-- The heap of tasks, of which `count` are allocated, and the head `current` of the list. -/
structure Tasks where
  task : Nat → Task
  count : Nat
  current : Nat

namespace Tasks

/-- The `next` field of a task. -/
def next (s : Tasks) (t : Nat) : Option Nat := (s.task t).next

/-- Change one task. -/
def modify (s : Tasks) (t : Nat) (f : Task → Task) : Tasks :=
  { s with task := Function.update s.task t (f (s.task t)) }

/-- `t->next = p`. -/
def setNext (s : Tasks) (t : Nat) (p : Option Nat) : Tasks :=
  s.modify t fun x => { x with next := p }

/-- A new task on the heap. -/
def alloc (s : Tasks) (x : Task) : Nat × Tasks :=
  (s.count, { s with task := Function.update s.task s.count x, count := s.count + 1 })

end Tasks

/-! ## The list operations -/

/-- The loop of `moveProcessToEnd`, which unlinks `element` on its way to the end. After
`list->next = list->next->next` the loop goes on to the new `list->next`. -/
def moveLoop (element : Nat) : Nat → Nat → Tasks → Except Fault (Nat × Tasks)
  | 0, _, _ => .error .diverges
  | fuel + 1, list, s =>
    match s.next list with
    | none => .ok (list, s)
    | some n =>
      let s := if n = element then s.setNext list (s.next n) else s
      match s.next list with
      | none => .error .nullDeref
      | some list => moveLoop element fuel list s

/-- `moveProcessToEnd`. -/
def moveProcessToEnd (element : Nat) (s : Tasks) : Except Fault Tasks := do
  let (list, s) ← moveLoop element (s.count + 1) s.current s
  .ok ((s.setNext list (some element)).setNext element none)

/-- The loop of `addProcessToList`. -/
def appendLoop (newTask : Nat) : Nat → Nat → Tasks → Except Fault Tasks
  | 0, _, _ => .error .diverges
  | fuel + 1, currentPtr, s =>
    match s.next currentPtr with
    | none => .ok (s.setNext currentPtr (some newTask))
    | some n => appendLoop newTask fuel n s

/-- `addProcessToList`. -/
def addProcessToList (newTask : Nat) (s : Tasks) : Except Fault Tasks :=
  if s.next s.current = none then .ok (s.setNext s.current (some newTask))
  else appendLoop newTask (s.count + 1) s.current s

/-- The loop of `getNextWaitingTask`. -/
def nextWaitingLoop : Nat → Option Nat → Tasks → Except Fault (Option Nat × Tasks)
  | _, none, s => .ok (none, s)
  | 0, some _, _ => .error .diverges
  | fuel + 1, some t, s =>
    if (s.task t).state = .waiting then do
      let s ← moveProcessToEnd t s
      .ok (some t, s)
    else nextWaitingLoop fuel (s.next t) s

/-- `getNextWaitingTask`. -/
def getNextWaitingTask (s : Tasks) : Except Fault (Option Nat × Tasks) :=
  nextWaitingLoop (s.count + 1) (s.next s.current) s

/-! ## Changes of links -/

namespace Tasks

theorem task_modify (s : Tasks) (t u : Nat) (f : Task → Task) :
    (s.modify t f).task u = if u = t then f (s.task u) else s.task u := by
  unfold modify
  by_cases h : u = t
  · subst h
    simp
  · simp [h]

theorem next_setNext (s : Tasks) (t u : Nat) (p : Option Nat) :
    (s.setNext t p).next u = if u = t then p else s.next u := by
  rw [setNext, next, task_modify]
  split_ifs <;> rfl

theorem next_setNext_of_ne (s : Tasks) {t u : Nat} (p : Option Nat) (h : u ≠ t) :
    (s.setNext t p).next u = s.next u := by
  rw [next_setNext, if_neg h]

/-- Two heaps that differ in the links of the tasks only. -/
structure Relinked (s s' : Tasks) : Prop where
  count : s'.count = s.count
  current : s'.current = s.current
  task : ∀ t, ∃ p, s'.task t = { s.task t with next := p }

theorem Relinked.trans {s s' s'' : Tasks} (h : Relinked s s') (h' : Relinked s' s'') :
    Relinked s s'' := by
  refine ⟨h'.count.trans h.count, h'.current.trans h.current, ?_⟩
  intro t
  obtain ⟨p, hp⟩ := h.task t
  obtain ⟨q, hq⟩ := h'.task t
  exact ⟨q, by rw [hq, hp]⟩

theorem relinked_setNext (s : Tasks) (t : Nat) (p : Option Nat) : Relinked s (s.setNext t p) := by
  refine ⟨rfl, rfl, ?_⟩
  intro u
  rw [setNext, task_modify]
  split_ifs
  · exact ⟨p, rfl⟩
  · exact ⟨_, rfl⟩

end Tasks

open Tasks

/-! ## `moveProcessToEnd` -/

section

variable {s : Tasks} {p e b z fuel : Nat} {l l₁ l₂ : List Nat}

/-- Behind the place of the unlinked element the loop just runs to the end. -/
theorem moveLoop_of_notMem (h : Chain s.next (some p) (l ++ [z])) (he : e ∉ l ++ [z])
    (hfuel : l.length < fuel) : moveLoop e fuel p s = .ok (z, s) := by
  induction l generalizing p fuel with
  | nil =>
    obtain ⟨hp, hz⟩ := h
    obtain rfl := Option.some.inj hp
    obtain ⟨fuel, rfl⟩ : ∃ n, fuel = n + 1 := ⟨fuel - 1, by simp at hfuel; omega⟩
    rw [Chain.nil_iff] at hz
    simp only [moveLoop, hz]
  | cons a l ih =>
    obtain ⟨hp, hrest⟩ := h
    obtain rfl := Option.some.inj hp
    obtain ⟨fuel, rfl⟩ : ∃ n, fuel = n + 1 := ⟨fuel - 1, by simp at hfuel; omega⟩
    obtain ⟨n, hmem, hn⟩ := hrest.start (by simp)
    have hne : n ≠ e := fun hne => he (List.mem_cons_of_mem _ (hne ▸ hmem))
    simp only [moveLoop, hn, if_neg hne]
    rw [hn] at hrest
    exact ih hrest (fun hmem' => he (List.mem_cons_of_mem _ hmem')) (by simp at hfuel; omega)

/-- The loop dereferences `NULL` when the element is the last one; otherwise it unlinks it and
stops at the last task. -/
theorem moveLoop_spec (h : Chain s.next (some p) (l₁ ++ b :: e :: l₂))
    (hfuel : l₁.length + l₂.length + 1 < fuel) :
    (l₂ = [] → moveLoop e fuel p s = .error .nullDeref) ∧
      ∀ l z, l₂ = l ++ [z] → moveLoop e fuel p s = .ok (z, s.setNext b (s.next e)) := by
  have hnodup := h.nodup
  induction l₁ generalizing p fuel with
  | nil =>
    obtain ⟨hp, hb, hrest⟩ := h
    obtain rfl := Option.some.inj hp
    obtain ⟨fuel, rfl⟩ : ∃ n, fuel = n + 1 := ⟨fuel - 1, by omega⟩
    simp only [List.nil_append, List.nodup_cons, List.mem_cons, not_or] at hnodup
    have hunlinked : (s.setNext p (s.next e)).next p = s.next e := by
      rw [next_setNext, if_pos rfl]
    simp only [moveLoop, hb, if_true, hunlinked]
    refine ⟨?_, ?_⟩
    · rintro rfl
      rw [Chain.nil_iff] at hrest
      rw [hrest]
    · rintro l z rfl
      obtain ⟨n, -, hn⟩ := hrest.start (by simp)
      simp only [hn]
      rw [hn] at hrest
      have hrest' : Chain (s.setNext p (some n)).next (some n) (l ++ [z]) := by
        refine hrest.congr fun c hc => next_setNext_of_ne s _ ?_
        rintro rfl
        exact hnodup.1.2 hc
      refine moveLoop_of_notMem hrest' hnodup.2.1 ?_
      simp only [List.length_nil, List.length_append, List.length_singleton] at hfuel
      omega
  | cons a l₁ ih =>
    obtain ⟨hp, hrest⟩ := h
    obtain rfl := Option.some.inj hp
    obtain ⟨fuel, rfl⟩ : ∃ n, fuel = n + 1 := ⟨fuel - 1, by omega⟩
    rw [List.cons_append, List.nodup_cons] at hnodup
    -- The successor lies in front of `e`.
    obtain ⟨n, hmem, hn⟩ : ∃ n ∈ l₁ ++ [b], s.next p = some n := by
      rw [List.append_eq, List.append_cons, chain_append] at hrest
      obtain ⟨q, hseg, -⟩ := hrest
      cases l₁ with
      | nil => exact ⟨b, by simp, hseg.1⟩
      | cons c l₁ => exact ⟨c, by simp, hseg.1⟩
    have hne : n ≠ e := by
      rintro rfl
      have hnd := hnodup.2
      rw [List.append_cons] at hnd
      exact List.disjoint_of_nodup_append hnd hmem (by simp)
    simp only [moveLoop, hn, if_neg hne]
    rw [hn] at hrest
    exact ih hrest (by simp at hfuel; omega) hnodup.2

theorem moveProcessToEnd_last (h : Chain s.next (some s.current) (l₁ ++ [b, e]))
    (hlen : l₁.length + 1 < s.count + 1) :
    moveProcessToEnd e s = .error .nullDeref := by
  have hloop : moveLoop e (s.count + 1) s.current s = .error .nullDeref :=
    (moveLoop_spec h hlen).1 rfl
  rw [moveProcessToEnd, hloop]
  rfl

/-- An element that is not the last one is moved behind the last one. -/
theorem moveProcessToEnd_spec (h : Chain s.next (some s.current) (l₁ ++ b :: e :: (l ++ [z])))
    (hlen : l₁.length + l.length + 2 < s.count + 1) :
    ∃ s', moveProcessToEnd e s = .ok s' ∧ Relinked s s' ∧
      Chain s'.next (some s'.current) (l₁ ++ b :: (l ++ [z]) ++ [e]) := by
  have hloop := (moveLoop_spec h (by simp; omega)).2 l z rfl
  set s₁ := s.setNext b (s.next e)
  refine ⟨(s₁.setNext z (some e)).setNext e none, ?_, ?_, ?_⟩
  · rw [moveProcessToEnd, hloop]
    rfl
  · exact ((relinked_setNext _ _ _).trans (relinked_setNext _ _ _)).trans (relinked_setNext _ _ _)
  have hnodup := h.nodup
  have hb : b ∉ e :: (l ++ [z]) := (List.nodup_cons.1 (List.nodup_append.1 hnodup).2.1).1
  have he : e ∉ l ++ [z] :=
    (List.nodup_cons.1 (List.nodup_cons.1 (List.nodup_append.1 hnodup).2.1).2).1
  have hl₁ : ∀ x ∈ l₁, x ∉ b :: e :: (l ++ [z]) := fun x hx hx' =>
    List.disjoint_of_nodup_append hnodup hx hx'
  obtain ⟨hseg, hbe, hrest⟩ := chain_append_cons.1 h
  have hz : z ∉ l := fun hz => by
    have := hrest.nodup
    exact List.disjoint_of_nodup_append this hz (by simp)
  -- With `e` taken out the chain is `l₁`, `b`, then what followed `e`.
  have hcut : Chain s₁.next (some s.current) (l₁ ++ b :: l ++ [z]) := by
    rw [List.append_assoc, List.cons_append]
    refine chain_append_cons.2 ⟨hseg.congr fun x hx => next_setNext_of_ne s _ ?_, ?_⟩
    · rintro rfl
      exact hl₁ x hx (by simp)
    · rw [next_setNext, if_pos rfl]
      refine hrest.congr fun x hx => next_setNext_of_ne s _ ?_
      rintro rfl
      exact hb (by simp at hx ⊢; tauto)
  have hends : ∀ x ∈ l₁ ++ b :: l, x ≠ z ∧ x ≠ e := by
    intro x hx
    have hz' : z ∉ l₁ ++ b :: l := by
      rw [List.mem_append, List.mem_cons, not_or, not_or]
      exact ⟨fun h₁ => hl₁ z h₁ (by simp), fun h₁ => hb (by simp [h₁]), hz⟩
    have he' : e ∉ l₁ ++ b :: l := by
      rw [List.mem_append, List.mem_cons, not_or, not_or]
      exact ⟨fun h₁ => hl₁ e h₁ (by simp), fun h₁ => hb (by simp [h₁]), fun h₁ => he (by simp [h₁])⟩
    exact ⟨fun h₁ => hz' (h₁ ▸ hx), fun h₁ => he' (h₁ ▸ hx)⟩
  have hze : z ≠ e := fun h₁ => he (by simp [h₁])
  have hfinal : Chain ((s₁.setNext z (some e)).setNext e none).next (some s.current)
      (l₁ ++ b :: l ++ [z] ++ [e]) := by
    refine hcut.snoc ?_ ?_ ?_
    · rw [next_setNext_of_ne _ _ hze, next_setNext, if_pos rfl]
    · rw [next_setNext, if_pos rfl]
    · intro x hx
      rw [next_setNext_of_ne _ _ (hends x hx).2, next_setNext_of_ne _ _ (hends x hx).1]
  show Chain _ (some s.current) _
  simpa only [List.append_assoc, List.cons_append] using hfinal

/-! ## `getNextWaitingTask` -/

/-- The state of a task is `TASK_WAITING`. -/
abbrev Waiting (s : Tasks) (t : Nat) : Prop := (s.task t).state = .waiting

theorem nextWaitingLoop_none {p : Option Nat} (h : Chain s.next p l) (hfuel : l.length ≤ fuel)
    (hno : ∀ t ∈ l, ¬ Waiting s t) : nextWaitingLoop fuel p s = .ok (none, s) := by
  induction l generalizing p fuel with
  | nil =>
    rw [Chain.nil_iff] at h
    rw [h, nextWaitingLoop]
  | cons t l ih =>
    obtain ⟨rfl, hrest⟩ := h
    obtain ⟨fuel, rfl⟩ : ∃ n, fuel = n + 1 := ⟨fuel - 1, by simp at hfuel; omega⟩
    rw [nextWaitingLoop, if_neg (hno t (by simp))]
    exact ih hrest (by simpa using hfuel) fun u hu => hno u (by simp [hu])

theorem nextWaitingLoop_some {p : Option Nat} {t : Nat} (h : Chain s.next p (l ++ t :: l₂))
    (hfuel : l.length < fuel) (hno : ∀ u ∈ l, ¬ Waiting s u) (ht : Waiting s t) :
    nextWaitingLoop fuel p s = (moveProcessToEnd t s).map fun s' => (some t, s') := by
  induction l generalizing p fuel with
  | nil =>
    obtain ⟨rfl, -⟩ := h
    obtain ⟨fuel, rfl⟩ : ∃ n, fuel = n + 1 := ⟨fuel - 1, by simp at hfuel; omega⟩
    rw [nextWaitingLoop, if_pos ht]
    cases moveProcessToEnd t s <;> rfl
  | cons u l ih =>
    obtain ⟨rfl, hrest⟩ := h
    obtain ⟨fuel, rfl⟩ : ∃ n, fuel = n + 1 := ⟨fuel - 1, by simp at hfuel; omega⟩
    rw [nextWaitingLoop, if_neg (hno u (by simp))]
    exact ih hrest (by simpa using hfuel) fun v hv => hno v (by simp [hv])

/-- `getNextWaitingTask` finds nothing, or it selects the first waiting task behind the head. Then
it dereferences `NULL` if this is the last task, and otherwise moves it to the end. -/
theorem getNextWaitingTask_spec {rest : List Nat}
    (h : Chain s.next (some s.current) (s.current :: rest)) (hlen : rest.length < s.count) :
    (getNextWaitingTask s = .ok (none, s) ∧ ∀ t ∈ rest, ¬ Waiting s t) ∨
      ∃ pre t post, rest = pre ++ t :: post ∧ (∀ u ∈ pre, ¬ Waiting s u) ∧ Waiting s t ∧
        (post = [] ∧ getNextWaitingTask s = .error .nullDeref ∨
          post ≠ [] ∧ ∃ s', getNextWaitingTask s = .ok (some t, s') ∧ Relinked s s' ∧
            Chain s'.next (some s'.current) (s.current :: (pre ++ post ++ [t]))) := by
  unfold getNextWaitingTask
  cases hfind : rest.find? (fun t => decide (Waiting s t)) with
  | none =>
    have hno : ∀ t ∈ rest, ¬ Waiting s t := by simpa using hfind
    exact Or.inl ⟨nextWaitingLoop_none h.2 (by omega) hno, hno⟩
  | some t =>
    obtain ⟨ht, pre, post, rfl, hpre⟩ := List.find?_eq_some_iff_append.1 hfind
    have ht : Waiting s t := by simpa using ht
    have hpre : ∀ u ∈ pre, ¬ Waiting s u := by simpa using hpre
    refine Or.inr ⟨pre, t, post, rfl, hpre, ht, ?_⟩
    rw [List.length_append, List.length_cons] at hlen
    rw [nextWaitingLoop_some h.2 (by omega) hpre ht]
    -- The task in front of `t`.
    obtain ⟨l₁, b, hb⟩ : ∃ l₁ b, s.current :: pre = l₁ ++ [b] :=
      ⟨_, _, (List.dropLast_append_getLast (List.cons_ne_nil s.current pre)).symm⟩
    have hlen₁ : l₁.length = pre.length := by
      have := congrArg List.length hb
      simpa using this.symm
    have hchain : Chain s.next (some s.current) (l₁ ++ b :: t :: post) := by
      have hsplit : s.current :: (pre ++ t :: post) = l₁ ++ b :: t :: post := by
        rw [← List.cons_append, hb, List.append_assoc]
        rfl
      rwa [hsplit] at h
    rcases List.eq_nil_or_concat post with rfl | ⟨l, z, rfl⟩
    · refine Or.inl ⟨rfl, ?_⟩
      rw [moveProcessToEnd_last hchain (by omega)]
      rfl
    · rw [List.concat_eq_append] at hchain ⊢
      obtain ⟨s', hs', hrel, hchain'⟩ := moveProcessToEnd_spec hchain (by simp at hlen; omega)
      refine Or.inr ⟨by simp, s', by rw [hs']; rfl, hrel, ?_⟩
      have hjoin : s.current :: (pre ++ (l ++ [z]) ++ [t]) = l₁ ++ b :: (l ++ [z]) ++ [t] := by
        rw [List.append_assoc pre, ← List.cons_append, hb]
        simp
      rwa [hjoin]

/-! ## `addProcessToList` -/

theorem appendLoop_spec {newTask : Nat} (h : Chain s.next (some p) (l ++ [z]))
    (hfuel : l.length < fuel) : appendLoop newTask fuel p s = .ok (s.setNext z (some newTask)) := by
  induction l generalizing p fuel with
  | nil =>
    obtain ⟨hp, hz⟩ := h
    obtain rfl := Option.some.inj hp
    obtain ⟨fuel, rfl⟩ : ∃ n, fuel = n + 1 := ⟨fuel - 1, by simp at hfuel; omega⟩
    rw [Chain.nil_iff] at hz
    simp only [appendLoop, hz]
  | cons a l ih =>
    obtain ⟨hp, hrest⟩ := h
    obtain rfl := Option.some.inj hp
    obtain ⟨fuel, rfl⟩ : ∃ n, fuel = n + 1 := ⟨fuel - 1, by simp at hfuel; omega⟩
    obtain ⟨n, -, hn⟩ := hrest.start (by simp)
    rw [hn] at hrest
    simp only [appendLoop, hn]
    exact ih hrest (by simpa using hfuel)

/-- A task whose `next` is `NULL` is appended behind the last one. -/
theorem addProcessToList_spec {newTask : Nat} (h : Chain s.next (some s.current) (l ++ [z]))
    (hlen : l.length < s.count + 1) (hnew : newTask ∉ l ++ [z]) (hnull : s.next newTask = none) :
    addProcessToList newTask s = .ok (s.setNext z (some newTask)) ∧
      Chain (s.setNext z (some newTask)).next (some s.current) (l ++ [z] ++ [newTask]) := by
  have hz : z ∉ l := fun hz => List.disjoint_of_nodup_append h.nodup hz (by simp)
  constructor
  · unfold addProcessToList
    split_ifs with hfirst
    · -- The head is the only task.
      cases l with
      | nil =>
        obtain ⟨hp, -⟩ := h
        rw [Option.some.inj hp]
      | cons a l =>
        obtain ⟨hp, hrest⟩ := h
        rw [← Option.some.inj hp, hfirst] at hrest
        exact absurd hrest.of_none (by simp)
    · exact appendLoop_spec h hlen
  · refine h.snoc ?_ ?_ fun x hx => next_setNext_of_ne s _ fun hxz => hz (hxz ▸ hx)
    · rw [next_setNext, if_pos rfl]
    · rw [next_setNext_of_ne s _ fun hnz => hnew (by simp [hnz])]
      exact hnull

end

/-! ## Runs -/

/-- A new task is added, or the states of the tasks become `state` and the next waiting task is
looked for. -/
inductive ListOp where
  | add (newTask : Task)
  | next (state : Nat → TaskState)

/-- Arbitrary states for all tasks. -/
def Tasks.withStates (s : Tasks) (state : Nat → TaskState) : Tasks :=
  { s with task := fun t => { s.task t with state := state t } }

/-- One operation. The callers of `addProcessToList` set the `next` of a new task to `NULL`. -/
def listStep (s : Tasks) : ListOp → Option Tasks
  | .add newTask =>
    let (t, s) := s.alloc { newTask with next := none }
    (addProcessToList t s).toOption
  | .next state => (getNextWaitingTask (s.withStates state)).toOption.map Prod.snd

/-- The list after `create_init_process`. -/
def initList (init : Task) : Tasks := ⟨fun _ => { init with next := none }, 1, 0⟩

/-- The list from `current` on is `l` and has every task once. -/
structure Listed (s : Tasks) (l : List Nat) : Prop where
  chain : Chain s.next (some s.current) l
  perm : l.Perm (List.range s.count)

/-- The first waiting task behind the head is not the last task of the list. -/
def Movable (s : Tasks) : ListOp → Prop
  | .add _ => True
  | .next state => ∀ l, Chain s.next (some s.current) l → ∀ t,
      l.tail.find? (fun u => state u = .waiting) = some t → l.getLast? ≠ some t

/-- The number of tasks after an operation. -/
def countStep (n : Nat) : ListOp → Nat
  | .add _ => n + 1
  | .next _ => n

/-- The effect of `getNextWaitingTask` on the list `l`: only the selected task is moved, to the
end. -/
def MovesToEnd (l l' : List Nat) (selected : Option Nat) : Prop :=
  match selected with
  | none => l' = l
  | some t => ∃ l₁ l₂, l = l₁ ++ t :: l₂ ∧ l' = l₁ ++ l₂ ++ [t]

section

variable {s s' : Tasks} {l : List Nat}

theorem Listed.length (h : Listed s l) : l.length = s.count := by
  rw [h.perm.length_eq, List.length_range]

theorem MovesToEnd.perm {l' : List Nat} {r : Option Nat} (h : MovesToEnd l l' r) : l'.Perm l := by
  cases r with
  | none => exact h ▸ List.Perm.refl _
  | some t =>
    obtain ⟨l₁, l₂, rfl, rfl⟩ := h
    rw [List.append_assoc]
    exact List.Perm.append_left l₁ List.perm_append_comm

/-- A task behind the head goes to the end. -/
theorem movesToEnd_tail (c t : Nat) (pre post : List Nat) :
    MovesToEnd (c :: (pre ++ t :: post)) (c :: (pre ++ post ++ [t])) (some t) :=
  ⟨c :: pre, post, rfl, by simp⟩

theorem Listed.move {l' : List Nat} {r : Option Nat} (h : Listed s l) (hmoves : MovesToEnd l l' r)
    (hcount : s'.count = s.count) (hchain : Chain s'.next (some s'.current) l') : Listed s' l' := by
  refine ⟨hchain, ?_⟩
  rw [hcount]
  exact hmoves.perm.trans h.perm

theorem listed_initList (init : Task) : Listed (initList init) [0] := ⟨⟨rfl, rfl⟩, List.Perm.refl _⟩

/-- Adding a task that has just been allocated appends it. -/
theorem addProcessToList_alloc (h : Listed s l) {x : Task} (hx : x.next = none) :
    ∃ s', addProcessToList s.count (s.alloc x).2 = .ok s' ∧ Relinked (s.alloc x).2 s' ∧
      Listed s' (l ++ [s.count]) := by
  set s₁ := (s.alloc x).2
  have hfresh : s.count ∉ l := fun hmem => by simpa using h.perm.subset hmem
  have hnext : ∀ t, t ≠ s.count → s₁.next t = s.next t := by
    intro t ht
    show (Function.update s.task s.count x t).next = _
    rw [Function.update_of_ne ht]
    rfl
  have hnull : s₁.next s.count = none := by
    show (Function.update s.task s.count x s.count).next = _
    rw [Function.update_self, hx]
  have hchain : Chain s₁.next (some s₁.current) l :=
    h.chain.congr fun t ht => hnext t fun heq => hfresh (heq ▸ ht)
  obtain ⟨t, rfl, -⟩ := h.chain.of_some
  obtain ⟨l₁, z, hz⟩ : ∃ l₁ z, s.current :: t = l₁ ++ [z] :=
    ⟨_, _, (List.dropLast_append_getLast (List.cons_ne_nil s.current t)).symm⟩
  have hlen := h.length
  rw [hz] at hchain hfresh hlen
  obtain ⟨hadd, hchain'⟩ := addProcessToList_spec hchain
    (by show l₁.length < s.count + 1 + 1; simp at hlen; omega) hfresh hnull
  refine ⟨s₁.setNext z (some s.count), hadd, relinked_setNext _ _ _, hz ▸ hchain', ?_⟩
  show (s.current :: t ++ [s.count]).Perm (List.range (s.count + 1))
  rw [List.range_succ]
  exact h.perm.append_right _

theorem listStep_add (h : Listed s l) (newTask : Task) :
    ∃ s', listStep s (.add newTask) = some s' ∧ Listed s' (l ++ [s.count]) ∧
      s'.count = s.count + 1 ∧ s'.current = s.current := by
  obtain ⟨s', hadd, hrel, hl⟩ := addProcessToList_alloc h (x := { newTask with next := none }) rfl
  refine ⟨s', ?_, hl, hrel.count, hrel.current⟩
  show (addProcessToList s.count (s.alloc { newTask with next := none }).2).toOption = _
  rw [hadd]
  rfl

/-- Looking for a waiting task faults exactly if it would select the last one, and otherwise moves
what it selects to the end. -/
theorem getNextWaitingTask_listed (h : Listed s l) (state : Nat → TaskState) :
    (getNextWaitingTask (s.withStates state) = .error .nullDeref ∧ ¬ Movable s (.next state)) ∨
      Movable s (.next state) ∧ ∃ r s' l', getNextWaitingTask (s.withStates state) = .ok (r, s') ∧
        MovesToEnd l l' r ∧ Listed s' l' ∧ s'.count = s.count ∧ s'.current = s.current ∧
        r = l.tail.find? (fun u => state u = .waiting) := by
  obtain ⟨rest, rfl, hrest⟩ := h.chain.of_some
  have hlen := h.length
  rw [List.length_cons] at hlen
  have hchain : Chain (s.withStates state).next (some (s.withStates state).current)
      (s.current :: rest) := h.chain.congr fun _ _ => rfl
  have hunique : ∀ {l}, Chain s.next (some s.current) l → l = s.current :: rest :=
    fun hl => hl.unique h.chain
  rcases getNextWaitingTask_spec hchain (by show rest.length < s.count; omega) with
    ⟨hok, hno⟩ | ⟨pre, t, post, rfl, hpre, ht, hcase⟩
  · have hno : ∀ t ∈ rest, ¬ state t = .waiting := hno
    have hfind : rest.find? (fun u => decide (state u = .waiting)) = none := by simpa using hno
    refine Or.inr ⟨?_, none, _, _, hok, rfl, ⟨hchain, h.perm⟩, rfl, rfl, hfind.symm⟩
    intro l hl t ht
    rw [hunique hl, List.tail_cons, hfind] at ht
    exact absurd ht (by simp)
  have ht : state t = .waiting := ht
  have hpre : ∀ u ∈ pre, ¬ state u = .waiting := hpre
  have hfind : (pre ++ t :: post).find? (fun u => decide (state u = .waiting)) = some t :=
    List.find?_eq_some_iff_append.2 ⟨by simpa using ht, pre, post, rfl, by simpa using hpre⟩
  rcases hcase with ⟨rfl, herr⟩ | ⟨hpost, s', hok, hrel, hchain'⟩
  · refine Or.inl ⟨herr, fun hmov => hmov _ h.chain t hfind ?_⟩
    rw [← List.cons_append, List.getLast?_append, List.getLast?_singleton]
    rfl
  · refine Or.inr ⟨?_, some t, s', s.current :: (pre ++ post ++ [t]), hok,
      movesToEnd_tail _ _ _ _, h.move (movesToEnd_tail _ _ _ _) hrel.count hchain', hrel.count,
      hrel.current, hfind.symm⟩
    intro l hl u hu
    rw [hunique hl] at hu ⊢
    obtain rfl := Option.some.inj (hfind.symm.trans hu)
    intro hlast
    -- Otherwise the list would have the selected task twice.
    obtain ⟨l', z, rfl⟩ : ∃ l' z, post = l' ++ [z] :=
      ⟨_, _, (List.dropLast_append_getLast hpost).symm⟩
    have hz : z = t := by
      have hform : s.current :: (pre ++ t :: (l' ++ [z])) =
          (s.current :: pre ++ t :: l') ++ [z] := by simp
      rw [hform, List.getLast?_append, List.getLast?_singleton] at hlast
      exact Option.some.inj hlast
    have hnodup := (List.nodup_append.1 (List.nodup_cons.1 h.chain.nodup).2).2.1
    exact (List.nodup_cons.1 hnodup).1 (by simp [hz])

theorem listStep_next (h : Listed s l) (state : Nat → TaskState) (hmov : Movable s (.next state)) :
    ∃ s' l', listStep s (.next state) = some s' ∧ Listed s' l' ∧ s'.count = s.count ∧
      s'.current = s.current := by
  rcases getNextWaitingTask_listed h state with ⟨-, hnot⟩ | ⟨-, r, s', l', hok, -, hl', hrest⟩
  · exact absurd hmov hnot
  · exact ⟨s', l', by rw [listStep, hok]; rfl, hl', hrest.1, hrest.2.1⟩

/-- A step goes through exactly if it meets the condition. -/
theorem listStep_isSome_iff (h : Listed s l) (op : ListOp) :
    (listStep s op).isSome ↔ Movable s op := by
  cases op with
  | add newTask =>
    obtain ⟨s', hs', -⟩ := listStep_add h newTask
    simp [hs', Movable]
  | next state =>
    rcases getNextWaitingTask_listed h state with ⟨herr, hnot⟩ | ⟨hmov, r, s', l', hok, -⟩
    · simp only [listStep, herr, hnot, iff_false]
      exact Bool.false_ne_true
    · simp only [listStep, hok, hmov, iff_true]
      rfl

/-- **The task list.** In every run in which the first waiting task behind the head is never the
last one, no step faults, the list ends, is headed by the init task and has every task once, and
the next search moves only the task it selects. -/
theorem task_list_run (init : Task) (ops : List ListOp)
    (h : Along listStep Movable (initList init) ops) :
    ∃ s l, Run listStep Movable (initList init) ops s ∧ Listed s l ∧ l.head? = some 0 ∧
      s.count = ops.foldl countStep 1 ∧ (∀ op, (listStep s op).isSome ↔ Movable s op) ∧
      ∀ state r s', getNextWaitingTask (s.withStates state) = .ok (r, s') →
        ∃ l', Chain s'.next (some s'.current) l' ∧ MovesToEnd l l' r := by
  obtain ⟨s, hrun, l, hl, hcur, hcount⟩ := h.simulation (f := countStep)
    (R := fun s n => ∃ l, Listed s l ∧ s.current = 0 ∧ s.count = n) (a := 1) (by
      rintro s n op ⟨l, hl, hcur, rfl⟩ hok
      cases op with
      | add newTask =>
        obtain ⟨s', hs', hl', hcount, hcur'⟩ := listStep_add hl newTask
        exact ⟨s', hs', _, hl', hcur'.trans hcur, hcount⟩
      | next state =>
        obtain ⟨s', l', hs', hl', hcount, hcur'⟩ := listStep_next hl state hok
        exact ⟨s', hs', l', hl', hcur'.trans hcur, hcount⟩)
    ⟨[0], listed_initList init, rfl, rfl⟩
  refine ⟨s, l, hrun, hl, ?_, hcount, listStep_isSome_iff hl, ?_⟩
  · obtain ⟨rest, rfl, -⟩ := hl.chain.of_some
    rw [hcur]
    rfl
  · intro state r s' hok
    rcases getNextWaitingTask_listed hl state with
      ⟨herr, -⟩ | ⟨-, r', s'', l', hok', hmoves, hl', -⟩
    · exact absurd (herr.symm.trans hok) (by simp)
    · obtain ⟨rfl, rfl⟩ := Prod.mk.inj (Except.ok.inj (hok'.symm.trans hok))
      exact ⟨l', hl'.chain, hmoves⟩

end

/-- A task that has just been allocated. -/
def newTask : Task := ⟨"", 0, 0, .waiting, none, 0⟩

/-- Two tasks are added, and the first of them is found waiting. -/
theorem task_list_two_tasks :
    ∃ s l, Run listStep Movable (initList newTask)
      [.add newTask, .add newTask, .next fun _ => .waiting] s ∧ Listed s l ∧ s.count = 3 := by
  have hmov : Along listStep Movable (initList newTask)
      [.add newTask, .add newTask, .next fun _ => .waiting] := by
    refine ⟨trivial, fun s₁ hs₁ => ⟨trivial, fun s₂ hs₂ => ⟨?_, fun _ _ => trivial⟩⟩⟩
    obtain ⟨s₁', hs₁', hl₁, hcount₁, -⟩ := listStep_add (listed_initList newTask) newTask
    obtain rfl := Option.some.inj (hs₁'.symm.trans hs₁)
    obtain ⟨s₂', hs₂', hl₂, -⟩ := listStep_add hl₁ newTask
    obtain rfl := Option.some.inj (hs₂'.symm.trans hs₂)
    have hchain : Chain s₂'.next (some s₂'.current) [0, 1, 2] := by
      have := hl₂.chain
      rwa [hcount₁] at this
    intro l hl t ht
    rw [hl.unique hchain] at ht ⊢
    obtain rfl : 1 = t := Option.some.inj ht
    decide
  obtain ⟨s, l, hrun, hl, -, hcount, -⟩ := task_list_run newTask _ hmov
  exact ⟨s, l, hrun, hl, hcount⟩

/-- One task is added and found waiting: it is the last of the list, and moving it dereferences
`NULL`. -/
theorem last_task_null_deref :
    ∃ s, listStep (initList newTask) (.add newTask) = some s ∧
      getNextWaitingTask (s.withStates fun _ => .waiting) = .error .nullDeref :=
  ⟨_, rfl, rfl⟩

end Sbunix
