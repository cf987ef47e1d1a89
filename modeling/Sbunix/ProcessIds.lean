import Mathlib
import Sbunix.Switching

/-!
# Process identifiers

`getProcessID` claims the first free entry of `processID[1..99]`, and no entry is ever given back.
When all are taken it returns `-1`, which its callers store in a `uint16_t` without a check.

`process_ids_run` says that the tasks of the list have different identifiers in 1..99 along every
run in which each new task still finds a free entry, and the name that is copied behind its
identifier fits. The list may be started anew by `create_init_process` at any time, so that it need
not have every task.
-/

namespace Sbunix

open Lib

/-! ## Steps -/

/-- `create_init_process`, in any state. -/
def addInitProcess (kernelRsp : UInt64) (s : Sched) : Sched :=
  let (pid, s) := getProcessID s
  let (t, tasks) := s.tasks.alloc ⟨"Init Task", pid, 0, .waiting, none, kernelRsp⟩
  { s with tasks := { tasks with current := t } }

/-- The steps that make tasks or end them. `start` is `create_process` followed by
`jump_to_user_mode`, as `start` has it. -/
inductive ProcessOp where
  | createInitProcess (kernelRsp : UInt64)
  | createProcess (fileName : String) (kernelRsp : UInt64)
  | start (fileName : String) (kernelRsp : UInt64)
  | call (op : Syscall)

/-- The call dereferences `currentRunningTask`. -/
def Syscall.usesRunning : Syscall → Bool
  | .fork _ _ _ => true
  | .execve _ _ => true
  | .exit _ => true
  | .kill _ _ => false
  | .waitpid _ _ => false

/-- One step. The first init task is never behind the head of a list and so never runs: a
`currentRunningTask` of 0 is the `NULL` it has before the first switch. -/
def processStep (s : Sched) : ProcessOp → Option Sched
  | .createInitProcess kernelRsp => some (addInitProcess kernelRsp s)
  | .createProcess fileName kernelRsp => (createProcess fileName kernelRsp s).toOption.map Prod.snd
  | .start fileName kernelRsp =>
    (createProcess fileName kernelRsp s).toOption.map fun r => jumpToUserMode r.1 r.2
  | .call op => if op.usesRunning ∧ s.currentRunningTask = 0 then none else sysStep s op

/-- An entry of `processID` is free. -/
def PidLeft (s : Sched) : Prop := ∃ id, 1 ≤ id ∧ id ≤ 99 ∧ s.processID id = false

/-- A step that makes a task finds a free entry, and the name that it copies to `task_name` leaves
the identifier alone. -/
def FindsPid (s : Sched) : ProcessOp → Prop
  | .createInitProcess _ => PidLeft s
  | .createProcess fileName _ => PidLeft s ∧ fileName.length < 64
  | .start fileName _ => PidLeft s ∧ fileName.length < 64
  | .call (.fork _ _ _) => PidLeft s
  | .call (.execve binary _) => PidLeft s ∧ binary.length < 64
  | .call _ => True

/-- The task is in the list from `current` on. -/
def InList (s : Tasks) (t : Nat) : Prop :=
  Relation.ReflTransGen (fun a b => s.next a = some b) s.current t

/-- The tasks of the list that have not terminated have different identifiers in 1..99. -/
structure UniqueIds (s : Sched) : Prop where
  range : ∀ t, InList s.tasks t → ¬ Terminated s t →
    1 ≤ (s.tasks.task t).pid.toNat ∧ (s.tasks.task t).pid.toNat ≤ 99
  distinct : ∀ t u, InList s.tasks t → InList s.tasks u → ¬ Terminated s t → ¬ Terminated s u →
    (s.tasks.task t).pid = (s.tasks.task u).pid → t = u

/-! ## Links and identifiers -/

/-- Links lead to allocated tasks. -/
structure Closed (s : Tasks) : Prop where
  current : s.current < s.count
  next : ∀ {t u}, t < s.count → s.next t = some u → u < s.count

/-- The same tasks with the same identifiers, and the links still lead to allocated tasks. -/
structure SameIds (s s' : Tasks) : Prop where
  count : s'.count = s.count
  pid : ∀ t, (s'.task t).pid = (s.task t).pid
  closed : Closed s → Closed s'

section

variable {s s' s'' : Tasks} {t u e list fuel : Nat}

theorem SameIds.refl (s : Tasks) : SameIds s s := ⟨rfl, fun _ => rfl, id⟩

theorem SameIds.trans (h : SameIds s s') (h' : SameIds s' s'') : SameIds s s'' :=
  ⟨h'.count.trans h.count, fun t => (h'.pid t).trans (h.pid t), fun hs => h'.closed (h.closed hs)⟩

theorem Closed.lt_of_inList (hs : Closed s) (h : InList s t) : t < s.count := by
  induction h with
  | refl => exact hs.current
  | tail _ hnext ih => exact hs.next ih hnext

theorem sameIds_modify (s : Tasks) (t : Nat) {f : Task → Task} (hpid : ∀ x, (f x).pid = x.pid)
    (hnext : ∀ x, (f x).next = x.next) : SameIds s (s.modify t f) := by
  have hlinks : ∀ u, (s.modify t f).next u = s.next u := by
    intro u
    rw [Tasks.next, Tasks.task_modify]
    split_ifs
    · exact hnext _
    · rfl
  refine ⟨rfl, ?_, ?_⟩
  · intro u
    rw [Tasks.task_modify]
    split_ifs
    · exact hpid _
    · rfl
  · intro hs
    refine ⟨hs.current, ?_⟩
    intro a b ha hb
    exact hs.next ha (hlinks a ▸ hb)

theorem sameIds_setNext (s : Tasks) (t : Nat) {p : Option Nat}
    (hp : Closed s → ∀ u, p = some u → u < s.count) : SameIds s (s.setNext t p) := by
  refine ⟨rfl, ?_, ?_⟩
  · intro u
    rw [Tasks.setNext, Tasks.task_modify]
    split_ifs <;> rfl
  · intro hs
    refine ⟨hs.current, ?_⟩
    intro a b ha hb
    rw [Tasks.next_setNext] at hb
    split_ifs at hb
    · exact hp hs b hb
    · exact hs.next ha hb

theorem moveLoop_sameIds (hs : Closed s) (hlist : list < s.count)
    (h : moveLoop e fuel list s = .ok (t, s')) : SameIds s s' := by
  induction fuel generalizing list s with
  | zero => cases h
  | succ fuel ih =>
    rw [moveLoop] at h
    cases hn : s.next list with
    | none =>
      rw [hn] at h
      obtain ⟨-, rfl⟩ := Prod.mk.inj (Except.ok.inj h)
      exact .refl s
    | some n =>
      rw [hn] at h
      have hunlink : SameIds s (if n = e then s.setNext list (s.next n) else s) := by
        split_ifs
        · exact sameIds_setNext s list fun hs u hu => hs.next (hs.next hlist hn) hu
        · exact .refl s
      simp only at h
      generalize (if n = e then s.setNext list (s.next n) else s) = s₁ at h hunlink
      cases hn₁ : s₁.next list with
      | none =>
        rw [hn₁] at h
        cases h
      | some m =>
        rw [hn₁] at h
        have hs₁ := hunlink.closed hs
        exact hunlink.trans (ih hs₁ (hs₁.next (hunlink.count.symm ▸ hlist) hn₁) h)

theorem moveProcessToEnd_sameIds (hs : Closed s) (he : e < s.count)
    (h : moveProcessToEnd e s = .ok s') : SameIds s s' := by
  obtain ⟨⟨list, s₁⟩, hloop, h⟩ := bind_eq_ok.1 h
  obtain rfl := Except.ok.inj h
  have hmove := moveLoop_sameIds hs hs.current hloop
  refine (hmove.trans (sameIds_setNext s₁ list ?_)).trans (sameIds_setNext _ e ?_)
  · intro _ u hu
    rw [← Option.some.inj hu, hmove.count]
    exact he
  · intro _ u hu
    nomatch hu

theorem nextWaitingLoop_sameIds {p r : Option Nat} (hs : Closed s)
    (hp : ∀ t, p = some t → t < s.count) (h : nextWaitingLoop fuel p s = .ok (r, s')) :
    SameIds s s' := by
  induction fuel generalizing p with
  | zero =>
    cases p with
    | none =>
      obtain ⟨-, rfl⟩ := Prod.mk.inj (Except.ok.inj h)
      exact .refl s
    | some t => nomatch h
  | succ fuel ih =>
    cases p with
    | none =>
      obtain ⟨-, rfl⟩ := Prod.mk.inj (Except.ok.inj h)
      exact .refl s
    | some t =>
      rw [nextWaitingLoop] at h
      split_ifs at h
      · obtain ⟨s₁, hmove, h⟩ := bind_eq_ok.1 h
        obtain ⟨-, rfl⟩ := Prod.mk.inj (Except.ok.inj h)
        exact moveProcessToEnd_sameIds hs (hp t rfl) hmove
      · exact ih (fun u hu => hs.next (hp t rfl) hu) h

theorem appendLoop_sameIds {n : Nat} (hn : n < s.count) (h : appendLoop n fuel list s = .ok s') :
    SameIds s s' := by
  induction fuel generalizing list with
  | zero => nomatch h
  | succ fuel ih =>
    rw [appendLoop] at h
    cases hnext : s.next list with
    | none =>
      rw [hnext] at h
      obtain rfl := Except.ok.inj h
      exact sameIds_setNext s list fun _ u hu => Option.some.inj hu ▸ hn
    | some m =>
      rw [hnext] at h
      exact ih h

theorem addProcessToList_sameIds {n : Nat} (hn : n < s.count)
    (h : addProcessToList n s = .ok s') : SameIds s s' := by
  unfold addProcessToList at h
  split_ifs at h
  · obtain rfl := Except.ok.inj h
    exact sameIds_setNext s _ fun _ u hu => Option.some.inj hu ▸ hn
  · exact appendLoop_sameIds hn h

end

section

variable {s s' : Sched} {t : Nat}

theorem sameIds_setState (s : Sched) (t : Nat) (x : TaskState) :
    SameIds s.tasks (s.setState t x).tasks :=
  sameIds_modify _ _ (f := fun y => { y with state := x }) (fun _ => rfl) fun _ => rfl

theorem switchTask_sameIds (rsp : UInt64) (s : Sched) :
    SameIds s.tasks (switchTask rsp s).tasks ∧ (switchTask rsp s).processID = s.processID := by
  have hto := sameIds_setState { s with currentRunningTask := s.toTask } s.toTask .running
  have hrsp : ∀ s₁ : Sched, SameIds s₁.tasks (s₁.setKernelRsp s.fromTask rsp).tasks :=
    fun _ => sameIds_modify _ _ (f := fun y => { y with kernelRsp := rsp }) (fun _ => rfl)
      fun _ => rfl
  simp only [switchTask]
  split_ifs
  · exact ⟨(hto.trans (sameIds_setState _ _ _)).trans (hrsp _), rfl⟩
  · exact ⟨hto.trans (hrsp _), rfl⟩

theorem yield_sameIds {rsp : UInt64} {r : Option Nat} (hs : Closed s.tasks)
    (h : yield rsp s = .ok (r, s')) :
    SameIds s.tasks s'.tasks ∧ s'.processID = s.processID := by
  obtain ⟨⟨nextTask, tasks⟩, hnext, h⟩ := bind_eq_ok.1 h
  have htasks : SameIds s.tasks tasks :=
    nextWaitingLoop_sameIds hs (fun t ht => hs.next hs.current ht) hnext
  cases nextTask with
  | none =>
    obtain ⟨-, rfl⟩ := Prod.mk.inj (Except.ok.inj h)
    exact ⟨htasks, rfl⟩
  | some t =>
    obtain ⟨-, rfl⟩ := Prod.mk.inj (Except.ok.inj h)
    obtain ⟨hsame, hids⟩ := switchTask_sameIds rsp
      { s with tasks := tasks, fromTask := tasks.current, toTask := t }
    exact ⟨htasks.trans hsame, hids⟩

/-! ## The invariant -/

/-- Every allocated task has an identifier in 1..99 of its own, which is marked as taken. -/
structure Numbered (s : Sched) : Prop extends Closed s.tasks where
  range : ∀ t < s.tasks.count,
    1 ≤ (s.tasks.task t).pid.toNat ∧ (s.tasks.task t).pid.toNat ≤ 99
  taken : ∀ t < s.tasks.count, s.processID (s.tasks.task t).pid.toNat = true
  distinct : ∀ t < s.tasks.count, ∀ u < s.tasks.count,
    (s.tasks.task t).pid = (s.tasks.task u).pid → t = u

theorem Numbered.uniqueIds (h : Numbered s) : UniqueIds s :=
  ⟨fun t ht _ => h.range t (h.toClosed.lt_of_inList ht), fun t u ht hu _ _ =>
    h.distinct t (h.toClosed.lt_of_inList ht) u (h.toClosed.lt_of_inList hu)⟩

theorem Numbered.same (h : Numbered s)
    (hsame : SameIds s.tasks s'.tasks ∧ s'.processID = s.processID) : Numbered s' := by
  obtain ⟨hsame, hids⟩ := hsame
  refine ⟨hsame.closed h.toClosed, ?_, ?_, ?_⟩
  · intro t ht
    rw [hsame.count] at ht
    rw [hsame.pid]
    exact h.range t ht
  · intro t ht
    rw [hsame.count] at ht
    rw [hsame.pid, hids]
    exact h.taken t ht
  · intro t ht u hu heq
    rw [hsame.count] at ht hu
    rw [hsame.pid, hsame.pid] at heq
    exact h.distinct t ht u hu heq

theorem Numbered.setState (h : Numbered s) (t : Nat) (x : TaskState) : Numbered (s.setState t x) :=
  h.same ⟨sameIds_setState s t x, rfl⟩

/-- A free entry is found and marked. -/
theorem getProcessID_spec (hleft : PidLeft s) :
    ∃ id, 1 ≤ id ∧ id ≤ 99 ∧ s.processID id = false ∧ getProcessID s =
      (UInt16.ofNat id, { s with processID := Function.update s.processID id true }) := by
  unfold getProcessID
  cases hfind : (List.range' 1 99).find? fun id => !s.processID id with
  | none =>
    obtain ⟨id, hlo, hhi, hfree⟩ := hleft
    have := List.find?_eq_none.1 hfind id (by rw [List.mem_range'_1]; omega)
    exact absurd hfree (by simpa using this)
  | some id =>
    have hmem := List.mem_of_find?_eq_some hfind
    have hfree := List.find?_some hfind
    rw [List.mem_range'_1] at hmem
    exact ⟨id, by omega, by omega, by simpa using hfree, rfl⟩

/-- A new task with the identifier that has been found. -/
theorem Numbered.alloc (h : Numbered s) (hleft : PidLeft s) {x : Task} {c : Nat}
    (hpid : x.pid = (getProcessID s).1) (hnext : x.next = none) (hc : c ≤ s.tasks.count) :
    Numbered { (getProcessID s).2 with
      tasks := { (s.tasks.alloc x).2 with current := c } } := by
  obtain ⟨id, hlo, hhi, hfree, hget⟩ := getProcessID_spec hleft
  rw [hget] at hpid ⊢
  have hid : x.pid.toNat = id := by
    rw [hpid]
    exact UInt16.toNat_ofNat_of_lt' (by simp only [UInt16.size]; omega)
  have htask : ∀ t, t ≠ s.tasks.count → Function.update s.tasks.task s.tasks.count x t =
      s.tasks.task t := fun t ht => Function.update_of_ne ht _ _
  have hself : Function.update s.tasks.task s.tasks.count x s.tasks.count = x :=
    Function.update_self _ _ _
  -- No task has had this identifier.
  have hnew : ∀ t < s.tasks.count, (s.tasks.task t).pid ≠ x.pid := by
    intro t ht heq
    have htaken := h.taken t ht
    rw [heq, hid, hfree] at htaken
    nomatch htaken
  refine ⟨⟨Nat.lt_succ_of_le hc, ?_⟩, ?_, ?_, ?_⟩
  · intro t u ht hu
    replace ht : t < s.tasks.count + 1 := ht
    replace hu : (Function.update s.tasks.task s.tasks.count x t).next = some u := hu
    by_cases htc : t = s.tasks.count
    · rw [htc, hself, hnext] at hu
      nomatch hu
    · rw [htask t htc] at hu
      exact Nat.lt_succ_of_lt (h.next (t := t) (by omega) hu)
  · intro t ht
    replace ht : t < s.tasks.count + 1 := ht
    show 1 ≤ (Function.update s.tasks.task s.tasks.count x t).pid.toNat ∧
      (Function.update s.tasks.task s.tasks.count x t).pid.toNat ≤ 99
    by_cases htc : t = s.tasks.count
    · rw [htc, hself, hid]
      exact ⟨hlo, hhi⟩
    · rw [htask t htc]
      exact h.range t (by omega)
  · intro t ht
    replace ht : t < s.tasks.count + 1 := ht
    show Function.update s.processID id true
      (Function.update s.tasks.task s.tasks.count x t).pid.toNat = true
    by_cases htc : t = s.tasks.count
    · rw [htc, hself, hid, Function.update_self]
    · rw [htask t htc, Function.update_apply]
      split_ifs
      · rfl
      · exact h.taken t (by omega)
  · intro t ht u hu heq
    replace ht : t < s.tasks.count + 1 := ht
    replace hu : u < s.tasks.count + 1 := hu
    replace heq : (Function.update s.tasks.task s.tasks.count x t).pid =
      (Function.update s.tasks.task s.tasks.count x u).pid := heq
    by_cases htc : t = s.tasks.count
    · by_cases huc : u = s.tasks.count
      · rw [htc, huc]
      · rw [htc, hself, htask u huc] at heq
        exact absurd heq.symm (hnew u (by omega))
    · by_cases huc : u = s.tasks.count
      · rw [huc, hself, htask t htc] at heq
        exact absurd heq (hnew t (by omega))
      · rw [htask t htc, htask u huc] at heq
        exact h.distinct t (by omega) u (by omega) heq

theorem Numbered.addTask (h : Numbered s) (hleft : PidLeft s) {taskName : String} {ppid : UInt16}
    {kernelRsp : UInt64} (hadd : addTask taskName ppid kernelRsp s = .ok (t, s')) :
    Numbered s' := by
  rw [addTask_eq] at hadd
  obtain ⟨tasks, hlist, hadd⟩ := bind_eq_ok.1 hadd
  obtain ⟨-, rfl⟩ := Prod.mk.inj (Except.ok.inj hadd)
  have halloc := h.alloc hleft
    (x := ⟨taskName, (getProcessID s).1, ppid, .waiting, none, kernelRsp⟩) rfl rfl
    (Nat.le_of_lt h.current)
  exact halloc.same ⟨addProcessToList_sameIds (Nat.lt_succ_self s.tasks.count) hlist, rfl⟩

theorem Numbered.jumpToUserMode (h : Numbered s) (t : Nat) : Numbered (jumpToUserMode t s) :=
  h.same ⟨sameIds_setState { s with currentRunningTask := t } t .running, rfl⟩

theorem Numbered.yield (h : Numbered s) {rsp : UInt64} {r : Option Nat}
    (hy : yield rsp s = .ok (r, s')) : Numbered s' := h.same (yield_sameIds h.toClosed hy)

theorem Numbered.waitpidLoop {pid : Int} {rsp : UInt64} {fuel : Nat} {p : Option Nat}
    {ys ys' : List Yielded} (h : Numbered s)
    (hloop : waitpidLoop pid rsp fuel p s ys = .ok (s', ys')) : Numbered s' := by
  induction fuel generalizing p s ys with
  | zero =>
    cases p with
    | none =>
      obtain ⟨rfl, -⟩ := Prod.mk.inj (Except.ok.inj hloop)
      exact h
    | some c => cases hloop
  | succ fuel ih =>
    cases p with
    | none =>
      obtain ⟨rfl, -⟩ := Prod.mk.inj (Except.ok.inj hloop)
      exact h
    | some c =>
      rw [Sbunix.waitpidLoop] at hloop
      split_ifs at hloop
      · obtain ⟨found, -, hloop⟩ := bind_eq_ok.1 hloop
        cases found with
        | none => cases hloop
        | some parent =>
          obtain ⟨⟨r, s₁⟩, hy, hloop⟩ := bind_eq_ok.1 hloop
          have hs₁ := (h.setState parent .waiting).yield hy
          cases r with
          | some t =>
            obtain ⟨rfl, -⟩ := Prod.mk.inj (Except.ok.inj hloop)
            exact hs₁
          | none => exact ih hs₁ hloop
      · exact ih h hloop

/-- One system call. -/
theorem Numbered.syscall (h : Numbered s) {op : Syscall} (hok : FindsPid s (.call op))
    {ys : List Yielded} (hs : syscall s op = .ok (s', ys)) : Numbered s' := by
  cases op with
  | fork childName childRsp rsp =>
    obtain ⟨⟨child, s₂⟩, hadd, hs₁⟩ := bind_eq_ok.1 (syscall_fork hs).1
    obtain rfl := Except.ok.inj hs₁
    have hs₂ : Numbered { s₂ with fromTask := s.currentRunningTask, toTask := child } :=
      (h.addTask hok hadd).same ⟨.refl _, rfl⟩
    exact hs₂.same (switchTask_sameIds rsp _)
  | execve binary kernelRsp =>
    obtain ⟨taskName, -, hs₁⟩ := bind_eq_ok.1 (syscall_execve hs).1
    obtain ⟨⟨newProc, s₂⟩, hadd, hs₂⟩ := bind_eq_ok.1 hs₁
    obtain rfl := Except.ok.inj hs₂
    have hended := h.setState s.currentRunningTask .ended
    exact (hended.addTask hok.1 hadd).jumpToUserMode newProc
  | exit rsp =>
    obtain ⟨r, hy, -⟩ := syscall_exit hs
    exact (h.setState _ _).yield hy
  | kill pid rsp =>
    obtain ⟨target, r, -, hy, -⟩ := syscall_kill hs
    cases target with
    | none => exact h.yield hy
    | some t => exact (h.setState t .ended).yield hy
  | waitpid pid rsp => exact h.waitpidLoop hs

theorem createProcess_eq_some {fileName : String} {kernelRsp : UInt64} {f : Nat × Sched → Sched}
    (h : (createProcess fileName kernelRsp s).toOption.map f = some s') :
    ∃ t s₁, addTask fileName (s.tasks.task s.tasks.current).pid kernelRsp s = .ok (t, s₁) ∧
      s' = f (t, s₁) := by
  cases hc : createProcess fileName kernelRsp s with
  | error e =>
    rw [hc] at h
    nomatch h
  | ok r =>
    rw [hc] at h
    exact ⟨r.1, r.2, createProcess_ok hc, (Option.some.inj h).symm⟩

/-- One step. -/
theorem Numbered.step (h : Numbered s) {op : ProcessOp} (hok : FindsPid s op)
    (hstep : processStep s op = some s') : Numbered s' := by
  cases op with
  | createInitProcess kernelRsp =>
    obtain rfl := Option.some.inj hstep
    obtain ⟨htasks, -⟩ := getProcessID_tasks s
    have halloc := h.alloc hok
      (x := ⟨"Init Task", (getProcessID s).1, 0, .waiting, none, kernelRsp⟩)
      rfl rfl (Nat.le_refl _)
    rw [← htasks] at halloc
    exact halloc
  | createProcess fileName kernelRsp =>
    obtain ⟨t, s₁, hadd, rfl⟩ := createProcess_eq_some hstep
    exact h.addTask hok.1 hadd
  | start fileName kernelRsp =>
    obtain ⟨t, s₁, hadd, rfl⟩ := createProcess_eq_some hstep
    exact (h.addTask hok.1 hadd).jumpToUserMode t
  | call op =>
    rw [processStep] at hstep
    split_ifs at hstep
    obtain ⟨ys, hs⟩ := sysStep_eq_some hstep
    exact h.syscall hok hs

theorem numbered_createInitProcess (kernelRsp : UInt64) :
    Numbered (createInitProcess kernelRsp) := by
  have hone : ∀ t, t < (createInitProcess kernelRsp).tasks.count → t = 0 := by
    intro t ht
    exact Nat.lt_one_iff.1 ht
  refine ⟨⟨Nat.one_pos, ?_⟩, ?_, ?_, ?_⟩
  · intro t u ht hu
    rw [hone t ht] at hu
    nomatch hu
  · intro t ht
    have hpid : ((createInitProcess kernelRsp).tasks.task 0).pid = 1 := rfl
    rw [hone t ht, hpid]
    exact ⟨by decide, by decide⟩
  · intro t ht
    rw [hone t ht]
    rfl
  · intro t ht u hu _
    rw [hone t ht, hone u hu]

end

section

variable {s s' : Sched} {l : List Nat}

theorem InList.of_chain {s : Tasks} {a t : Nat} (h : Chain s.next (some a) l) (ht : t ∈ l) :
    Relation.ReflTransGen (fun a b => s.next a = some b) a t := by
  induction l generalizing a with
  | nil => nomatch ht
  | cons b l ih =>
    obtain ⟨hb, hrest⟩ := h
    obtain rfl := Option.some.inj hb
    rcases List.mem_cons.1 ht with rfl | ht
    · exact .refl
    · obtain ⟨n, -, hn⟩ := hrest.start (List.ne_nil_of_mem ht)
      rw [hn] at hrest
      exact .head hn (ih hrest ht)

/-- The task that `create_process` makes, whatever identifier it gets. -/
theorem createProcess_new (h : Listed s.tasks l) {fileName : String} (hfits : fileName.length < 64)
    (kernelRsp : UInt64) :
    ∃ s', createProcess fileName kernelRsp s = .ok (s.tasks.count, s') ∧
      Listed s'.tasks (l ++ [s.tasks.count]) ∧ s'.tasks.count = s.tasks.count + 1 ∧
      s'.processID = (getProcessID s).2.processID ∧ s'.state s.tasks.count = .waiting ∧
      (s'.tasks.task s.tasks.count).pid = (getProcessID s).1 := by
  obtain ⟨tasks, hadd, hrel, hl⟩ :=
    addTask_listed h fileName (s.tasks.task s.tasks.current).pid kernelRsp
  obtain ⟨p, hp⟩ := hrel.task s.tasks.count
  rw [show (s.tasks.alloc _).2.task s.tasks.count = _ from Function.update_self _ _ _] at hp
  refine ⟨{ (getProcessID s).2 with tasks := tasks }, ?_, hl, hrel.count, rfl, ?_, ?_⟩
  · rw [createProcess, strcpyTaskName_of_fits hfits, ok_bind, hadd]
  · show (tasks.task s.tasks.count).state = _
    rw [hp]
  · show (tasks.task s.tasks.count).pid = _
    rw [hp]

/-- The entries up to `n` are taken. -/
def TakenUpTo (n : Nat) (s : Sched) : Prop := ∀ id, 1 ≤ id → id ≤ n → s.processID id = true

theorem TakenUpTo.succ {n : Nat} (h : TakenUpTo n s) (hn : n < 99) :
    TakenUpTo (n + 1) (getProcessID s).2 := by
  intro id hlo hhi
  unfold getProcessID
  cases hfind : (List.range' 1 99).find? fun id => !s.processID id with
  | none =>
    have := List.find?_eq_none.1 hfind id (by rw [List.mem_range'_1]; omega)
    simpa using this
  | some m =>
    obtain ⟨hfree, -, hbelow⟩ := List.find?_range'_eq_some.1 hfind
    show Function.update s.processID m true id = true
    by_cases hid : id = m
    · rw [hid, Function.update_self]
    · rw [Function.update_of_ne hid]
      by_cases hle : id ≤ n
      · exact h id hlo hle
      · -- The entry found is behind all that are taken.
        have hm : n < m := by
          by_contra hm
          have hpos : 1 ≤ m := by
            have := List.mem_of_find?_eq_some hfind
            rw [List.mem_range'_1] at this
            omega
          rw [h m hpos (by omega)] at hfree
          nomatch hfree
        have := hbelow id hlo (by omega)
        simpa using this

theorem TakenUpTo.getProcessID (h : TakenUpTo 99 s) : getProcessID s = (65535, s) := by
  have hfind : (List.range' 1 99).find? (fun id => !s.processID id) = none := by
    refine List.find?_eq_none.2 ?_
    intro id hid
    rw [List.mem_range'_1] at hid
    rw [h id (by omega) (by omega)]
    decide
  unfold Sbunix.getProcessID
  rw [hfind]

/-- Processes are created until `n` more entries are taken. -/
theorem createProcess_taken (n : Nat) {k : Nat} (hl : Listed s.tasks l) (h : TakenUpTo k s)
    (hk : k + n ≤ 99) :
    ∃ s' l', Run processStep (fun _ _ => True) s (List.replicate n (.createProcess "" 0)) s' ∧
      Listed s'.tasks l' ∧ TakenUpTo (k + n) s' := by
  induction n generalizing s l k with
  | zero => exact ⟨s, l, .nil s, hl, h⟩
  | succ n ih =>
    obtain ⟨s₁, hs₁, hl₁, -, hids, -⟩ := createProcess_new hl (show "".length < 64 by decide) 0
    have h₁ : TakenUpTo (k + 1) s₁ := by
      intro id hlo hhi
      rw [hids]
      exact h.succ (by omega) id hlo hhi
    obtain ⟨s', l', hrun, hl', h'⟩ := ih hl₁ h₁ (by omega)
    refine ⟨s', l', .cons trivial ?_ hrun, hl', ?_⟩
    · show ((createProcess "" 0 s).toOption).map Prod.snd = _
      rw [hs₁]
      rfl
    · rwa [show k + (n + 1) = k + 1 + n by omega]

end

end Sbunix
