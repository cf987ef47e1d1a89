import Sbunix.Tasks

/-!
# System calls and context switches

The five system calls of `sys/task.c` that change the states of tasks, over the list of `Tasks`.
A context switch is what `switchTask` does to the tasks: the new task runs, the task `from`
waits unless it has ended, and its `kernel_rsp` receives the stack pointer. Memory that the code
leaves uninitialised, the stack pointers and the result of loading a program are arguments of
the call.

`yield` always switches from `current`, the init task, and not from the running task. So the
running task's own context is not saved, and what it would have done after `yield` is not
continued: when `yield` switches, the call is over.

`syscall` returns the states around each call of `yield` as well, for the properties that speak of
these calls.

The name of a program is copied to `task_name[64]` without a bound, and the identifier, the parent's
identifier and the state of the task lie behind the array. The model ends at the copy of a name that
does not fit, so what is proved of runs is proved of runs whose names have at most 63 characters.
-/

namespace Sbunix

open Lib

/-! ## The state -/

/-- The globals of `sys/task.c`. -/
structure Sched where
  tasks : Tasks
  processID : Nat → Bool
  currentRunningTask : Nat
  fromTask : Nat
  toTask : Nat

namespace Sched

/-- The state of a task. -/
def state (s : Sched) (t : Nat) : TaskState := (s.tasks.task t).state

/-- `t->state = x`. -/
def setState (s : Sched) (t : Nat) (x : TaskState) : Sched :=
  { s with tasks := s.tasks.modify t fun y => { y with state := x } }

/-- `t->kernel_rsp = x`. -/
def setKernelRsp (s : Sched) (t : Nat) (x : UInt64) : Sched :=
  { s with tasks := s.tasks.modify t fun y => { y with kernelRsp := x } }

end Sched

/-- `getProcessID`, as the `uint16_t` that its callers store: `-1` when no identifier is left. -/
def getProcessID (s : Sched) : UInt16 × Sched :=
  match (List.range' 1 99).find? fun id => !s.processID id with
  | some id => (UInt16.ofNat id, { s with processID := Function.update s.processID id true })
  | none => (65535, s)

/-- `strcpy` to `task_name[64]`. -/
def strcpyTaskName (src : String) : Except Fault String :=
  if src.length < 64 then .ok src else .error .outOfBounds

/-- `kmalloc(sizeof(Task))` and the fields that all callers set, then `addProcessToList`. `taskName`
is the string that `task_name` then holds. -/
def addTask (taskName : String) (ppid : UInt16) (kernelRsp : UInt64) (s : Sched) :
    Except Fault (Nat × Sched) := do
  let (pid, s) := getProcessID s
  let (t, tasks) := s.tasks.alloc ⟨taskName, pid, ppid, .waiting, none, kernelRsp⟩
  let tasks ← addProcessToList t tasks
  .ok (t, { s with tasks := tasks })

/-! ## Switches -/

/-- `switchTask`, where `rsp` is the stack pointer at the switch. -/
def switchTask (rsp : UInt64) (s : Sched) : Sched :=
  let s₁ := ({ s with currentRunningTask := s.toTask }).setState s.toTask .running
  let s₂ := if s₁.state s.fromTask ≠ .ended then s₁.setState s.fromTask .waiting else s₁
  s₂.setKernelRsp s.fromTask rsp

/-- `yield`, with the task it switches to. -/
def yield (rsp : UInt64) (s : Sched) : Except Fault (Option Nat × Sched) := do
  let (nextTask, tasks) ← getNextWaitingTask s.tasks
  let s := { s with tasks := tasks }
  match nextTask with
  | none => .ok (none, s)
  | some t => .ok (some t, switchTask rsp { s with fromTask := s.tasks.current, toTask := t })

/-- `jump_to_user_mode`. -/
def jumpToUserMode (t : Nat) (s : Sched) : Sched :=
  ({ s with currentRunningTask := t }).setState t .running

/-! ## System calls -/

/-- The states around a call of `yield`. -/
abbrev Yielded := Sched × Sched

/-- `proc_fork`. The name of the child is not initialised. -/
def procFork (childName : String) (childRsp rsp : UInt64) (s : Sched) : Except Fault Sched := do
  let parent := s.currentRunningTask
  let (child, s) ← addTask childName (s.tasks.task parent).pid childRsp s
  .ok (switchTask rsp { s with fromTask := parent, toTask := child })

/-- `sanexecve`. -/
def sanexecve (binary : String) (kernelRsp : UInt64) (s : Sched) : Except Fault Sched := do
  let caller := s.currentRunningTask
  let s := s.setState caller .ended
  let taskName ← strcpyTaskName binary
  let (newProc, s) ← addTask taskName (s.tasks.task caller).ppid kernelRsp s
  .ok (jumpToUserMode newProc s)

/-- `syss_exit`. -/
def syssExit (rsp : UInt64) (s : Sched) : Except Fault (Sched × List Yielded) := do
  let s := s.setState s.currentRunningTask .zombie
  let (_, s') ← yield rsp s
  .ok (s', [(s, s')])

/-- The loop of `killprocess` and of `getTaskForPID`: the first task of the list with this `pid`. -/
def findPid (pid : Int) (tasks : Tasks) : Nat → Option Nat → Except Fault (Option Nat)
  | _, none => .ok none
  | 0, some _ => .error .diverges
  | fuel + 1, some t =>
    if ((tasks.task t).pid.toNat : Int) = pid then .ok (some t)
    else findPid pid tasks fuel (tasks.next t)

/-- `getTaskForPID`. -/
def getTaskForPID (pid : Int) (tasks : Tasks) : Except Fault (Option Nat) :=
  findPid pid tasks (tasks.count + 1) (some tasks.current)

/-- What `killprocess` does to the task it has found. -/
def markEnded (s : Sched) : Option Nat → Sched
  | some t => s.setState t .ended
  | none => s

/-- `killprocess`. The listing that it prints changes nothing. -/
def killprocess (pid rsp : UInt64) (s : Sched) : Except Fault (Sched × List Yielded) := do
  let target ← getTaskForPID pid.toNat s.tasks
  let s := markEnded s target
  let (_, s') ← yield rsp s
  .ok (s', [(s, s')])

/-- `SYSS_waitpid` waits for a task that is named and has this parent. -/
def isChildOf (pid : Int) (x : Task) : Prop := x.taskName.length ≠ 0 ∧ (x.ppid.toNat : Int) = pid

instance (pid : Int) (x : Task) : Decidable (isChildOf pid x) := inferInstanceAs (Decidable (_ ∧ _))

/-- The loop of `SYSS_waitpid`, from `cur` on. It is left when `yield` switches. -/
def waitpidLoop (pid : Int) (rsp : UInt64) :
    Nat → Option Nat → Sched → List Yielded → Except Fault (Sched × List Yielded)
  | _, none, s, ys => .ok (s, ys)
  | 0, some _, _, _ => .error .diverges
  | fuel + 1, some cur, s, ys =>
    if isChildOf pid (s.tasks.task cur) ∧ s.state cur = .running then do
      match ← getTaskForPID pid s.tasks with
      | none => .error .nullDeref
      | some parent =>
        let s := s.setState parent .waiting
        match ← yield rsp s with
        | (some _, s') => .ok (s', ys ++ [(s, s')])
        | (none, s') => waitpidLoop pid rsp fuel (s'.tasks.next cur) s' (ys ++ [(s, s')])
    else waitpidLoop pid rsp fuel (s.tasks.next cur) s ys

/-- `SYSS_waitpid`. -/
def syssWaitpid (pid : Int) (rsp : UInt64) (s : Sched) : Except Fault (Sched × List Yielded) :=
  waitpidLoop pid rsp (s.tasks.count + 1) (some s.tasks.current) s []

/-- A system call of the running task. -/
inductive Syscall where
  | fork (childName : String) (childRsp rsp : UInt64)
  | execve (binary : String) (kernelRsp : UInt64)
  | exit (rsp : UInt64)
  | kill (pid : UInt64) (rsp : UInt64)
  | waitpid (pid : Int) (rsp : UInt64)

/-- The stack pointer at the switches of a call. -/
def Syscall.rsp : Syscall → UInt64
  | .fork _ _ rsp => rsp
  | .execve _ kernelRsp => kernelRsp
  | .exit rsp => rsp
  | .kill _ rsp => rsp
  | .waitpid _ rsp => rsp

def syscall (s : Sched) : Syscall → Except Fault (Sched × List Yielded)
  | .fork childName childRsp rsp => (procFork childName childRsp rsp s).map (·, [])
  | .execve binary kernelRsp => (sanexecve binary kernelRsp s).map (·, [])
  | .exit rsp => syssExit rsp s
  | .kill pid rsp => killprocess pid rsp s
  | .waitpid pid rsp => syssWaitpid pid rsp s

/-- One system call, as a step of the system. A fault ends the run. -/
def sysStep (s : Sched) (op : Syscall) : Option Sched := (syscall s op).toOption.map Prod.fst

/-! ## Boot -/

/-- `create_init_process`. -/
def createInitProcess (kernelRsp : UInt64) : Sched :=
  let zero : Task := ⟨"", 0, 0, .waiting, none, 0⟩
  let s : Sched := ⟨⟨fun _ => zero, 0, 0⟩, fun _ => false, 0, 0, 0⟩
  let (pid, s) := getProcessID s
  let (t, tasks) := s.tasks.alloc ⟨"Init Task", pid, 0, .waiting, none, kernelRsp⟩
  { s with tasks := { tasks with current := t } }

/-- `create_process`. -/
def createProcess (fileName : String) (kernelRsp : UInt64) (s : Sched) :
    Except Fault (Nat × Sched) := do
  let taskName ← strcpyTaskName fileName
  addTask taskName (s.tasks.task s.tasks.current).pid kernelRsp s

/-- The end of `start`: the init task, the shell, and the jump into it. -/
def boot (initRsp shellRsp : UInt64) : Except Fault Sched := do
  let (process, s) ← createProcess "bin/sbush" shellRsp (createInitProcess initRsp)
  .ok (jumpToUserMode process s)

/-! ## Names -/

theorem strcpyTaskName_of_fits {src : String} (h : src.length < 64) :
    strcpyTaskName src = .ok src := if_pos h

theorem strcpyTaskName_ok {src name : String} (h : strcpyTaskName src = .ok name) :
    name = src ∧ src.length < 64 := by
  unfold strcpyTaskName at h
  split_ifs at h with hfits
  exact ⟨(Except.ok.inj h).symm, hfits⟩

/-! ## States after an update -/

section

variable {s s' : Sched} {l : List Nat} {t u : Nat}

theorem state_setState (s : Sched) (t u : Nat) (x : TaskState) :
    (s.setState t x).state u = if u = t then x else s.state u := by
  rw [Sched.setState, Sched.state, Tasks.task_modify]
  split_ifs <;> rfl

theorem state_setState_self (s : Sched) (t : Nat) (x : TaskState) :
    (s.setState t x).state t = x := by
  rw [state_setState, if_pos rfl]

theorem state_setState_of_ne (s : Sched) (x : TaskState) (h : u ≠ t) :
    (s.setState t x).state u = s.state u := by
  rw [state_setState, if_neg h]

theorem state_setKernelRsp (s : Sched) (t u : Nat) (x : UInt64) :
    (s.setKernelRsp t x).state u = s.state u := by
  rw [Sched.setKernelRsp, Sched.state, Tasks.task_modify]
  split_ifs <;> rfl

/-- A change that leaves the links alone leaves the list alone. -/
theorem Listed.modify {s : Tasks} (h : Listed s l) (t : Nat) {f : Task → Task}
    (hf : ∀ x, (f x).next = x.next) : Listed (s.modify t f) l := by
  refine ⟨h.chain.congr ?_, h.perm⟩
  intro u _
  rw [Tasks.next, Tasks.task_modify]
  split_ifs
  · exact hf _
  · rfl

theorem Listed.setState (h : Listed s.tasks l) (t : Nat) (x : TaskState) :
    Listed (s.setState t x).tasks l :=
  Listed.modify h t (f := fun y => { y with state := x }) fun _ => rfl

theorem Listed.setKernelRsp (h : Listed s.tasks l) (t : Nat) (x : UInt64) :
    Listed (s.setKernelRsp t x).tasks l :=
  Listed.modify h t (f := fun y => { y with kernelRsp := x }) fun _ => rfl

theorem Listed.mem_iff {s : Tasks} (h : Listed s l) : t ∈ l ↔ t < s.count := by
  rw [h.perm.mem_iff, List.mem_range]

/-- A switch from one task to another changes the states of these two. -/
theorem state_switchTask (rsp : UInt64) (hne : s.fromTask ≠ s.toTask) (u : Nat) :
    (switchTask rsp s).state u =
      if u = s.toTask then .running
      else if u = s.fromTask then if s.state u = .ended then .ended else .waiting
      else s.state u := by
  unfold switchTask
  set s₁ := ({ s with currentRunningTask := s.toTask } : Sched).setState s.toTask .running
  have hs₁ : ∀ u, s₁.state u = if u = s.toTask then .running else s.state u :=
    fun u => state_setState _ _ u _
  have hfrom : s₁.state s.fromTask = s.state s.fromTask := by rw [hs₁, if_neg hne]
  rw [state_setKernelRsp]
  by_cases hend : s.state s.fromTask = .ended
  · rw [if_neg fun h => h (hfrom.trans hend), hs₁]
    by_cases hu : u = s.fromTask
    · rw [hu, if_neg hne, if_neg hne, if_pos rfl, if_pos hend, hend]
    · rw [if_neg hu]
  · rw [if_pos (hfrom ▸ hend), state_setState, hs₁]
    by_cases hu : u = s.fromTask
    · rw [if_pos hu, hu, if_neg hne, if_pos rfl, if_neg hend]
    · rw [if_neg hu, if_neg hu]

theorem switchTask_fields (rsp : UInt64) (s : Sched) :
    (switchTask rsp s).tasks.count = s.tasks.count ∧
      (switchTask rsp s).tasks.current = s.tasks.current ∧
      (switchTask rsp s).currentRunningTask = s.toTask := by
  simp only [switchTask]
  split_ifs <;> exact ⟨rfl, rfl, rfl⟩

theorem listed_switchTask (rsp : UInt64) (h : Listed s.tasks l) :
    Listed (switchTask rsp s).tasks l := by
  have hto : Listed (({ s with currentRunningTask := s.toTask } : Sched).setState s.toTask
      .running).tasks l := Listed.setState (s := { s with currentRunningTask := s.toTask }) h _ _
  unfold switchTask
  refine Listed.setKernelRsp ?_ _ _
  split_ifs
  · exact hto.setState _ _
  · exact hto

/-! ## New tasks, lookups and `yield` -/

/-- The list has every task, and the init task is the head and does not run. -/
structure WellListed (s : Sched) : Prop where
  listed : ∃ l, Listed s.tasks l
  current : s.tasks.current = 0
  init_ne : s.currentRunningTask ≠ 0
  lt_count : s.currentRunningTask < s.tasks.count

theorem getProcessID_tasks (s : Sched) : (getProcessID s).2.tasks = s.tasks ∧
    (getProcessID s).2.currentRunningTask = s.currentRunningTask := by
  unfold getProcessID
  split <;> exact ⟨rfl, rfl⟩

theorem addTask_eq (taskName : String) (ppid : UInt16) (kernelRsp : UInt64) (s : Sched) :
    addTask taskName ppid kernelRsp s = (addProcessToList s.tasks.count (s.tasks.alloc
      ⟨taskName, (getProcessID s).1, ppid, .waiting, none, kernelRsp⟩).2).bind fun tasks =>
        .ok (s.tasks.count, { (getProcessID s).2 with tasks := tasks }) := by
  have hdef : addTask taskName ppid kernelRsp s =
      (addProcessToList (getProcessID s).2.tasks.count ((getProcessID s).2.tasks.alloc
        ⟨taskName, (getProcessID s).1, ppid, .waiting, none, kernelRsp⟩).2).bind fun tasks =>
          .ok ((getProcessID s).2.tasks.count, { (getProcessID s).2 with tasks := tasks }) := rfl
  rw [hdef, (getProcessID_tasks s).1]

/-- A new task is appended. -/
theorem addTask_listed (h : Listed s.tasks l) (taskName : String) (ppid : UInt16)
    (kernelRsp : UInt64) :
    ∃ tasks, addTask taskName ppid kernelRsp s =
        .ok (s.tasks.count, { (getProcessID s).2 with tasks := tasks }) ∧
      Tasks.Relinked (s.tasks.alloc
        ⟨taskName, (getProcessID s).1, ppid, .waiting, none, kernelRsp⟩).2 tasks ∧
      Listed tasks (l ++ [s.tasks.count]) := by
  obtain ⟨tasks, hadd, hrel, hl⟩ := addProcessToList_alloc h
    (x := ⟨taskName, (getProcessID s).1, ppid, .waiting, none, kernelRsp⟩) rfl
  refine ⟨tasks, ?_, hrel, hl⟩
  rw [addTask_eq, hadd]
  rfl

theorem addTask_spec (h : Listed s.tasks l) (taskName : String) (ppid : UInt16)
    (kernelRsp : UInt64) :
    ∃ s', addTask taskName ppid kernelRsp s = .ok (s.tasks.count, s') ∧
      Listed s'.tasks (l ++ [s.tasks.count]) ∧ s'.tasks.count = s.tasks.count + 1 ∧
      s'.tasks.current = s.tasks.current ∧ s'.currentRunningTask = s.currentRunningTask ∧
      ∀ u, u ≠ s.tasks.count → s'.state u = s.state u := by
  obtain ⟨tasks, hadd, hrel, hl⟩ := addTask_listed h taskName ppid kernelRsp
  refine ⟨_, hadd, hl, hrel.count, hrel.current, (getProcessID_tasks s).2, ?_⟩
  intro u hu
  obtain ⟨p, hp⟩ := hrel.task u
  show (tasks.task u).state = _
  rw [hp]
  show (Function.update s.tasks.task s.tasks.count _ u).state = _
  rw [Function.update_of_ne hu]
  rfl

/-- A process that is made has its whole name. -/
theorem createProcess_ok {fileName : String} {kernelRsp : UInt64} {r : Nat × Sched}
    (h : createProcess fileName kernelRsp s = .ok r) :
    addTask fileName (s.tasks.task s.tasks.current).pid kernelRsp s = .ok r := by
  obtain ⟨taskName, hname, hadd⟩ := bind_eq_ok.1 h
  obtain ⟨rfl, -⟩ := strcpyTaskName_ok hname
  exact hadd

/-- Some task other than the init task is waiting. -/
def OtherWaiting (s : Sched) : Prop :=
  ∃ t < s.tasks.count, t ≠ s.tasks.current ∧ s.state t = .waiting

instance (s : Sched) : Decidable (OtherWaiting s) :=
  inferInstanceAs (Decidable (∃ t < s.tasks.count, t ≠ s.tasks.current ∧ s.state t = .waiting))

/-- `yield` does nothing when no task but the init task waits. When it switches, it is to a waiting
task, and the init task is the one that gets the context. -/
theorem yield_spec (h : WellListed s) (rsp : UInt64) {r : Option Nat}
    (hy : yield rsp s = .ok (r, s')) :
    (r = none ∧ s' = s ∧ ¬ OtherWaiting s) ∨
      ∃ t, r = some t ∧ OtherWaiting s ∧ WellListed s' ∧ s'.currentRunningTask = t ∧
        s.state t = .waiting ∧ t ≠ 0 ∧ s'.tasks.count = s.tasks.count ∧
        ∀ u, s'.state u = if u = t then .running
          else if u = 0 then if s.state u = .ended then .ended else .waiting else s.state u := by
  obtain ⟨l, hl⟩ := h.listed
  obtain ⟨rest, rfl, hrest⟩ := hl.chain.of_some
  have hlen := hl.length
  rw [List.length_cons] at hlen
  have hmem : ∀ t, t ∈ rest ↔ t < s.tasks.count ∧ t ≠ s.tasks.current := by
    intro t
    have hnot : s.tasks.current ∉ rest := (List.nodup_cons.1 hl.chain.nodup).1
    rw [← hl.mem_iff, List.mem_cons]
    constructor
    · exact fun ht => ⟨Or.inr ht, fun heq => hnot (heq ▸ ht)⟩
    · exact fun ht => ht.1.resolve_left ht.2
  unfold yield at hy
  rcases getNextWaitingTask_spec hl.chain (by omega) with
    ⟨hok, hno⟩ | ⟨pre, t, post, rfl, -, ht, hcase⟩
  · rw [hok] at hy
    obtain ⟨rfl, rfl⟩ := Prod.mk.inj (Except.ok.inj hy)
    refine Or.inl ⟨rfl, rfl, ?_⟩
    rintro ⟨t, htc, htne, ht⟩
    exact hno t ((hmem t).2 ⟨htc, htne⟩) ht
  rcases hcase with ⟨-, herr⟩ | ⟨-, tasks, hok, hrel, hchain⟩
  · rw [herr] at hy
    exact absurd hy (by simp [bind, Except.bind])
  rw [hok] at hy
  obtain ⟨rfl, rfl⟩ := Prod.mk.inj (Except.ok.inj hy)
  obtain ⟨htc, htne⟩ := (hmem t).1 (by simp)
  have hcur : tasks.current = 0 := hrel.current.trans h.current
  have ht0 : t ≠ 0 := h.current ▸ htne
  have hne : tasks.current ≠ t := fun heq => ht0 (heq.symm.trans hcur)
  have hstates : ∀ u, (tasks.task u).state = s.state u := by
    intro u
    obtain ⟨p, hp⟩ := hrel.task u
    rw [hp]
    rfl
  have hl' : Listed tasks (s.tasks.current :: (pre ++ post ++ [t])) :=
    hl.move (movesToEnd_tail _ _ _ _) hrel.count hchain
  set s₁ : Sched := { s with tasks := tasks, fromTask := tasks.current, toTask := t }
  have hcount := switchTask_fields rsp s₁
  refine Or.inr ⟨t, rfl, ⟨t, htc, htne, ht⟩, ⟨⟨_, listed_switchTask rsp (s := s₁) hl'⟩, ?_, ?_, ?_⟩,
    hcount.2.2, ht, ht0, ?_, ?_⟩
  · exact hcount.2.1.trans hcur
  · rw [hcount.2.2]
    exact ht0
  · rw [hcount.2.2, hcount.1, hrel.count]
    exact htc
  · exact hcount.1.trans hrel.count
  · intro u
    rw [state_switchTask (s := s₁) rsp hne u]
    show (if u = t then _ else if u = tasks.current then if (tasks.task u).state = _ then _ else _
      else (tasks.task u).state) = _
    rw [hcur, hstates]

theorem findPid_congr {tasks tasks' : Tasks} {pid : Int} (hpid : ∀ t, (tasks'.task t).pid =
    (tasks.task t).pid) (hnext : ∀ t, tasks'.next t = tasks.next t) (fuel : Nat) (p : Option Nat) :
    findPid pid tasks' fuel p = findPid pid tasks fuel p := by
  induction fuel generalizing p with
  | zero => cases p <;> rfl
  | succ fuel ih =>
    cases p with
    | none => rfl
    | some t => rw [findPid, findPid, hpid, hnext, ih]

theorem getTaskForPID_setState (s : Sched) (t : Nat) (x : TaskState) (pid : Int) :
    getTaskForPID pid (s.setState t x).tasks = getTaskForPID pid s.tasks := by
  refine findPid_congr ?_ ?_ _ _
  · intro u
    rw [Sched.setState, Tasks.task_modify]
    split_ifs <;> rfl
  · intro u
    rw [Sched.setState, Tasks.next, Tasks.next, Tasks.task_modify]
    split_ifs <;> rfl

theorem WellListed.setState (h : WellListed s) (t : Nat) (x : TaskState) :
    WellListed (s.setState t x) := by
  obtain ⟨l, hl⟩ := h.listed
  exact ⟨⟨l, hl.setState t x⟩, h.current, h.init_ne, h.lt_count⟩

end

end Sbunix
