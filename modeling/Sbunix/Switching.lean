import Sbunix.Scheduler

/-!
# Runs of system calls

What holds of the states of tasks along every run of system calls from `boot`.

* `context_switch_run`: the running task is the only one in state `TASK_RUNNING`, and a task that
  `yield` switches away from keeps its context.
* `termination_final`: a task that has ended or is a zombie stays so, and is not the running task.

Both need a condition on the calls, because `yield` switches from the init task and not from the
running one, and switches to nobody when no task waits. `SwitchOk` and `StaysDead` are these
conditions, on the state before the call.
-/

namespace Sbunix

open Lib

/-- The task has ended or is a zombie. -/
def Terminated (s : Sched) (t : Nat) : Prop := s.state t = .ended ∨ s.state t = .zombie

instance (s : Sched) (t : Nat) : Decidable (Terminated s t) := inferInstanceAs (Decidable (_ ∨ _))

section

variable {s s' : Sched} {t u : Nat}

/-! ## What a call changes -/

/-- A fork adds a task that runs, and its caller waits. -/
theorem procFork_spec (h : WellListed s) (childName : String) (childRsp rsp : UInt64) :
    ∃ s', procFork childName childRsp rsp s = .ok s' ∧ WellListed s' ∧
      s'.currentRunningTask = s.tasks.count ∧ s'.tasks.count = s.tasks.count + 1 ∧
      ∀ u, s'.state u = if u = s.tasks.count then .running
        else if u = s.currentRunningTask then if s.state u = .ended then .ended else .waiting
        else s.state u := by
  obtain ⟨l, hl⟩ := h.listed
  obtain ⟨s₁, hadd, hl₁, hcount, hcur, hrun, hstate⟩ := addTask_spec hl childName
    (s.tasks.task s.currentRunningTask).pid childRsp
  set s₂ : Sched := { s₁ with fromTask := s.currentRunningTask, toTask := s.tasks.count } with hs₂
  have hfields := switchTask_fields rsp s₂
  refine ⟨switchTask rsp s₂, ?_, ⟨⟨_, listed_switchTask rsp (s := s₂) hl₁⟩, ?_, ?_, ?_⟩,
    hfields.2.2, hfields.1.trans hcount, ?_⟩
  · simp only [procFork, hadd]
    rfl
  · exact hfields.2.1.trans (hcur.trans h.current)
  · rw [hfields.2.2]
    exact Nat.ne_of_gt (Nat.zero_lt_of_lt h.lt_count)
  · rw [hfields.2.2, hfields.1]
    exact hcount ▸ Nat.lt_succ_self _
  · intro u
    rw [state_switchTask (s := s₂) rsp (Nat.ne_of_lt h.lt_count)]
    show (if u = s.tasks.count then _ else if u = s.currentRunningTask then
      if s₁.state u = _ then _ else _ else s₁.state u) = _
    by_cases hu : u = s.tasks.count
    · rw [if_pos hu, if_pos hu]
    · rw [if_neg hu, if_neg hu, hstate u hu]

/-- An exec ends its caller and adds a task that runs. -/
theorem sanexecve_spec (h : WellListed s) {binary : String} (hfits : binary.length < 64)
    (kernelRsp : UInt64) :
    ∃ s', sanexecve binary kernelRsp s = .ok s' ∧ WellListed s' ∧
      s'.currentRunningTask = s.tasks.count ∧ s'.tasks.count = s.tasks.count + 1 ∧
      ∀ u, s'.state u = if u = s.tasks.count then .running
        else if u = s.currentRunningTask then .ended else s.state u := by
  obtain ⟨l, hl⟩ := (h.setState s.currentRunningTask .ended).listed
  set s₀ := s.setState s.currentRunningTask .ended with hs₀
  obtain ⟨s₁, hadd, hl₁, hcount, hcur, -, hstate⟩ := addTask_spec hl binary
    (s₀.tasks.task s.currentRunningTask).ppid kernelRsp
  set s₂ : Sched := { s₁ with currentRunningTask := s.tasks.count } with hs₂
  refine ⟨s₂.setState s.tasks.count .running, ?_,
    ⟨⟨_, Listed.setState (s := s₂) hl₁ _ _⟩, ?_, ?_, ?_⟩, rfl, hcount, ?_⟩
  · simp only [sanexecve]
    rw [strcpyTaskName_of_fits hfits, ok_bind, ← hs₀, hadd]
    rfl
  · exact hcur.trans h.current
  · exact Nat.ne_of_gt (Nat.zero_lt_of_lt h.lt_count)
  · exact hcount ▸ Nat.lt_succ_self s.tasks.count
  · intro u
    rw [state_setState]
    by_cases hu : u = s.tasks.count
    · rw [if_pos hu, if_pos hu]
    · rw [if_neg hu, if_neg hu]
      exact (hstate u hu).trans (state_setState s _ u _)

/-- The name of a program that is entered fits. -/
theorem sanexecve_fits {binary : String} {kernelRsp : UInt64}
    (h : sanexecve binary kernelRsp s = .ok s') : binary.length < 64 := by
  obtain ⟨name, hname, -⟩ := bind_eq_ok.1 h
  exact (strcpyTaskName_ok hname).2

theorem syscall_fork {childName : String} {childRsp rsp : UInt64} {ys : List Yielded}
    (h : syscall s (.fork childName childRsp rsp) = .ok (s', ys)) :
    procFork childName childRsp rsp s = .ok s' ∧ ys = [] := by
  obtain ⟨s₁, hs₁, heq⟩ := map_eq_ok.1 h
  obtain ⟨rfl, rfl⟩ := Prod.mk.inj heq
  exact ⟨hs₁, rfl⟩

theorem syscall_execve {binary : String} {kernelRsp : UInt64} {ys : List Yielded}
    (h : syscall s (.execve binary kernelRsp) = .ok (s', ys)) :
    sanexecve binary kernelRsp s = .ok s' ∧ ys = [] := by
  obtain ⟨s₁, hs₁, heq⟩ := map_eq_ok.1 h
  obtain ⟨rfl, rfl⟩ := Prod.mk.inj heq
  exact ⟨hs₁, rfl⟩

theorem syscall_exit {rsp : UInt64} {ys : List Yielded}
    (h : syscall s (.exit rsp) = .ok (s', ys)) :
    ∃ r, yield rsp (s.setState s.currentRunningTask .zombie) = .ok (r, s') ∧
      ys = [(s.setState s.currentRunningTask .zombie, s')] := by
  rw [syscall, syssExit] at h
  obtain ⟨p, hy, h⟩ := bind_eq_ok.1 h
  obtain ⟨rfl, rfl⟩ := Prod.mk.inj (Except.ok.inj h)
  exact ⟨p.1, hy, rfl⟩

theorem syscall_kill {pid rsp : UInt64} {ys : List Yielded}
    (h : syscall s (.kill pid rsp) = .ok (s', ys)) :
    ∃ target r, getTaskForPID pid.toNat s.tasks = .ok target ∧
      yield rsp (markEnded s target) = .ok (r, s') ∧ ys = [(markEnded s target, s')] := by
  rw [syscall, killprocess] at h
  obtain ⟨target, hfind, h⟩ := bind_eq_ok.1 h
  obtain ⟨p, hy, h⟩ := bind_eq_ok.1 h
  obtain ⟨rfl, rfl⟩ := Prod.mk.inj (Except.ok.inj h)
  exact ⟨target, p.1, hfind, hy, rfl⟩

theorem WellListed.lt_of_next (h : WellListed s) (ht : t < s.tasks.count)
    (hnext : s.tasks.next t = some u) : u < s.tasks.count := by
  obtain ⟨l, hl⟩ := h.listed
  obtain ⟨l₁, l₂, rfl⟩ := List.append_of_mem (hl.mem_iff.2 ht)
  have hrest := hl.chain.suffix
  rw [hnext] at hrest
  obtain ⟨l₂, rfl, -⟩ := hrest.of_some
  exact hl.mem_iff.1 (by simp)

theorem WellListed.lt_of_current (h : WellListed s) {c : Nat}
    (hc : some s.tasks.current = some c) : c < s.tasks.count := by
  rw [← Option.some.inj hc, h.current]
  exact Nat.zero_lt_of_lt h.lt_count

/-- A running task that is made to wait is one that `yield` can take. -/
theorem WellListed.otherWaiting (h : WellListed s) :
    OtherWaiting (s.setState s.currentRunningTask .waiting) :=
  ⟨s.currentRunningTask, h.lt_count, fun heq => h.init_ne (heq.trans h.current),
    state_setState_self s s.currentRunningTask .waiting⟩

/-- The rule for the loop of `SYSS_waitpid`: `I` holds as long as it goes on, `G` at its end, and
`Q` around each `yield`. -/
theorem waitpidLoop_rule {I G : Sched → Prop} {Q : Sched → Sched → Prop} {pid : Int} {rsp : UInt64}
    (hlist : ∀ {s}, I s → WellListed s) (hend : ∀ {s}, I s → G s)
    (hturn : ∀ {s c parent r s'}, I s → c < s.tasks.count → isChildOf pid (s.tasks.task c) →
      s.state c = .running → getTaskForPID pid s.tasks = .ok (some parent) →
      yield rsp (s.setState parent .waiting) = .ok (r, s') →
      Q (s.setState parent .waiting) s' ∧ G s' ∧ (r = none → I s'))
    {fuel : Nat} {p : Option Nat} {ys ys' : List Yielded} (hs : I s)
    (hp : ∀ c, p = some c → c < s.tasks.count) (hys : ∀ y ∈ ys, Q y.1 y.2)
    (h : waitpidLoop pid rsp fuel p s ys = .ok (s', ys')) : G s' ∧ ∀ y ∈ ys', Q y.1 y.2 := by
  induction fuel generalizing p s ys with
  | zero =>
    cases p with
    | none =>
      obtain ⟨rfl, rfl⟩ := Prod.mk.inj (Except.ok.inj h)
      exact ⟨hend hs, hys⟩
    | some c => cases h
  | succ fuel ih =>
    cases p with
    | none =>
      obtain ⟨rfl, rfl⟩ := Prod.mk.inj (Except.ok.inj h)
      exact ⟨hend hs, hys⟩
    | some c =>
      have hc := hp c rfl
      rw [waitpidLoop] at h
      split_ifs at h with hchild
      · obtain ⟨found, hfind, h⟩ := bind_eq_ok.1 h
        cases found with
        | none => cases h
        | some parent =>
          obtain ⟨⟨r, s₁⟩, hy, h⟩ := bind_eq_ok.1 h
          obtain ⟨hQ, hG, hI⟩ := hturn hs hc hchild.1 hchild.2 hfind hy
          have hys₁ : ∀ y ∈ ys ++ [(s.setState parent .waiting, s₁)], Q y.1 y.2 := by
            intro y hy'
            rcases List.mem_append.1 hy' with hy' | hy'
            · exact hys y hy'
            · rw [List.mem_singleton.1 hy']
              exact hQ
          cases r with
          | some t =>
            obtain ⟨rfl, rfl⟩ := Prod.mk.inj (Except.ok.inj h)
            exact ⟨hG, hys₁⟩
          | none =>
            rcases yield_spec ((hlist hs).setState parent .waiting) rsp hy with
              ⟨-, rfl, -⟩ | ⟨t, ht, -⟩
            · exact ih (hI rfl) (fun d hd => (hlist (hI rfl)).lt_of_next hc hd) hys₁ h
            · cases ht
      · exact ih hs (fun d hd => (hlist hs).lt_of_next hc hd) hys h

/-! ## The running task -/

/-- Only the running task is in state `TASK_RUNNING`. -/
structure OneRunning (s : Sched) : Prop extends WellListed s where
  running_iff : ∀ t < s.tasks.count, s.state t = .running ↔ t = s.currentRunningTask

/-- A task that has not terminated and is switched away from waits, with the stack pointer saved in
its own `kernel_rsp`. -/
def SavesContext (rsp : UInt64) (s s' : Sched) : Prop :=
  s'.currentRunningTask ≠ s.currentRunningTask → ¬ Terminated s s.currentRunningTask →
    s'.state s.currentRunningTask = .waiting ∧
      (s'.tasks.task s.currentRunningTask).kernelRsp = rsp

/-- A `yield` switches when the running task has terminated, and only then. -/
def YieldOk (s : Sched) : Prop := Terminated s s.currentRunningTask ↔ OtherWaiting s

instance (s : Sched) : Decidable (YieldOk s) := inferInstanceAs (Decidable (_ ↔ _))

/-- When the running task exits or is killed, another task waits. When another task is killed, or
the running task is found by `waitpid`, no task but the init task waits. -/
def SwitchOk (s : Sched) : Syscall → Prop
  | .fork _ _ _ => True
  | .execve _ _ => True
  | .exit _ => YieldOk (s.setState s.currentRunningTask .zombie)
  | .kill pid _ => ∀ target, getTaskForPID pid.toNat s.tasks = .ok target →
      YieldOk (markEnded s target)
  | .waitpid pid _ => isChildOf pid (s.tasks.task s.currentRunningTask) →
      ∀ parent, getTaskForPID pid s.tasks = .ok (some parent) →
        YieldOk (s.setState parent .waiting)

/-- At a `yield` the running task has terminated, or it is the one in state `TASK_RUNNING`. -/
structure AtYield (s : Sched) : Prop extends WellListed s where
  only : ∀ t < s.tasks.count, s.state t = .running → t = s.currentRunningTask
  live : Terminated s s.currentRunningTask ∨ s.state s.currentRunningTask = .running

theorem OneRunning.state_running (h : OneRunning s) : s.state s.currentRunningTask = .running :=
  (h.running_iff _ h.lt_count).2 rfl

theorem OneRunning.atYield (h : OneRunning s) : AtYield s :=
  ⟨h.toWellListed, fun t ht => (h.running_iff t ht).1, Or.inr h.state_running⟩

/-- Marking a task before a `yield`. The running task is marked as terminated only. -/
theorem OneRunning.mark (h : OneRunning s) (t : Nat) {x : TaskState} (hx : x ≠ .running)
    (hlive : t = s.currentRunningTask → x = .ended ∨ x = .zombie) : AtYield (s.setState t x) := by
  refine ⟨h.toWellListed.setState t x, ?_, ?_⟩
  · intro u hu hrun
    rw [state_setState] at hrun
    split_ifs at hrun with hut
    · exact absurd hrun hx
    · exact (h.running_iff u hu).1 hrun
  · by_cases ht : t = s.currentRunningTask
    · left
      show (s.setState t x).state s.currentRunningTask = .ended ∨
        (s.setState t x).state s.currentRunningTask = .zombie
      rw [← ht, state_setState_self]
      exact hlive ht
    · right
      exact (state_setState_of_ne s x (Ne.symm ht)).trans h.state_running

/-- A `yield` under its condition. -/
theorem AtYield.yield (h : AtYield s) (hok : YieldOk s) {rsp : UInt64} {r : Option Nat}
    (hy : yield rsp s = .ok (r, s')) : OneRunning s' ∧ SavesContext rsp s s' := by
  rcases yield_spec h.toWellListed rsp hy with
    ⟨-, rfl, hno⟩ | ⟨t, -, hother, hlist, hrun, -, ht0, hcount, hstate⟩
  · have hlive := h.live.resolve_left fun hterm => hno (hok.1 hterm)
    refine ⟨⟨h.toWellListed, fun t ht => ⟨h.only t ht, ?_⟩⟩, fun hne => absurd rfl hne⟩
    rintro rfl
    exact hlive
  · have hterm := hok.2 hother
    refine ⟨⟨hlist, ?_⟩, fun _ hnot => absurd hterm hnot⟩
    intro u hu
    rw [hstate, hrun]
    split_ifs with hut hu0 hended
    · simp [hut]
    · simp [hut]
    · simp [hut]
    · refine ⟨?_, fun h => absurd h hut⟩
      intro hu'
      -- The task that ran has terminated.
      rw [h.only u (hcount ▸ hu) hu'] at hu'
      rcases hterm with hterm | hterm <;> cases hterm.symm.trans hu'

theorem setState_setState (s : Sched) (t : Nat) (x : TaskState) :
    (s.setState t x).setState t x = s.setState t x := by
  simp [Sched.setState, Tasks.modify]

/-- The caller of `waitpid` is not the parent it makes wait, or else `yield` would switch. -/
theorem YieldOk.parent_ne (h : WellListed s) (hok : YieldOk (s.setState t .waiting)) :
    t ≠ s.currentRunningTask := by
  rintro rfl
  have hwait := state_setState_self s s.currentRunningTask .waiting
  rcases hok.2 h.otherWaiting with hterm | hterm <;> cases hterm.symm.trans hwait

theorem OneRunning.waitpid (h : OneRunning s) {pid : Int} {rsp : UInt64}
    (hok : SwitchOk s (.waitpid pid rsp)) {ys : List Yielded}
    (hs : syssWaitpid pid rsp s = .ok (s', ys)) :
    OneRunning s' ∧ ∀ y ∈ ys, SavesContext rsp y.1 y.2 := by
  refine waitpidLoop_rule (I := fun s => OneRunning s ∧ SwitchOk s (.waitpid pid rsp))
    (fun h => h.1.toWellListed) (fun h => h.1) ?_ ⟨h, hok⟩ (fun _ => h.lt_of_current) (by simp) hs
  · rintro s c parent r s' ⟨h, hok⟩ hc hchild hrun hfind hy
    obtain rfl := (h.running_iff c hc).1 hrun
    have hyield := hok hchild parent hfind
    have hmark := h.mark parent (x := .waiting) (by decide)
      fun heq => absurd heq (hyield.parent_ne h.toWellListed)
    obtain ⟨hone, hsaves⟩ := hmark.yield hyield hy
    refine ⟨hsaves, hone, fun hr => ⟨hone, ?_⟩⟩
    intro _ parent' hfind'
    rcases yield_spec hmark.toWellListed rsp hy with ⟨-, rfl, -⟩ | ⟨t, ht, -⟩
    · rw [getTaskForPID_setState, hfind] at hfind'
      obtain rfl := Option.some.inj (Except.ok.inj hfind')
      rw [setState_setState]
      exact hyield
    · cases hr.symm.trans ht

theorem OneRunning.fork (h : OneRunning s) {childName : String} {childRsp rsp : UInt64}
    (hs : procFork childName childRsp rsp s = .ok s') : OneRunning s' := by
  obtain ⟨s₁, hs₁, hlist, hrun, hcount, hstate⟩ :=
    procFork_spec h.toWellListed childName childRsp rsp
  obtain rfl := Except.ok.inj (hs₁.symm.trans hs)
  refine ⟨hlist, ?_⟩
  intro t ht
  rw [hstate, hrun]
  split_ifs with hnew hcaller hended
  · simp [hnew]
  · simp [hnew]
  · simp [hnew]
  · refine ⟨fun h' => absurd ((h.running_iff t (by omega)).1 h') hcaller, fun h' => absurd h' hnew⟩

theorem OneRunning.execve (h : OneRunning s) {binary : String} {kernelRsp : UInt64}
    (hs : sanexecve binary kernelRsp s = .ok s') : OneRunning s' := by
  obtain ⟨s₁, hs₁, hlist, hrun, hcount, hstate⟩ :=
    sanexecve_spec h.toWellListed (sanexecve_fits hs) kernelRsp
  obtain rfl := Except.ok.inj (hs₁.symm.trans hs)
  refine ⟨hlist, ?_⟩
  intro t ht
  rw [hstate, hrun]
  split_ifs with hnew hcaller
  · simp [hnew]
  · simp [hnew]
  · refine ⟨fun h' => absurd ((h.running_iff t (by omega)).1 h') hcaller, fun h' => absurd h' hnew⟩

theorem OneRunning.markEnded (h : OneRunning s) (target : Option Nat) :
    AtYield (markEnded s target) := by
  cases target with
  | none => exact h.atYield
  | some t => exact h.mark t (by decide) fun _ => Or.inl rfl

/-- One system call. -/
theorem OneRunning.syscall (h : OneRunning s) {op : Syscall} (hok : SwitchOk s op)
    {ys : List Yielded} (hs : syscall s op = .ok (s', ys)) :
    OneRunning s' ∧ ∀ y ∈ ys, SavesContext op.rsp y.1 y.2 := by
  cases op with
  | fork childName childRsp rsp =>
    obtain ⟨hs₁, rfl⟩ := syscall_fork hs
    exact ⟨h.fork hs₁, by simp⟩
  | execve binary kernelRsp =>
    obtain ⟨hs₁, rfl⟩ := syscall_execve hs
    exact ⟨h.execve hs₁, by simp⟩
  | exit rsp =>
    obtain ⟨r, hy, rfl⟩ := syscall_exit hs
    have hyield := (h.mark s.currentRunningTask (by decide) fun _ => Or.inr rfl).yield hok hy
    exact ⟨hyield.1, fun y hy => List.mem_singleton.1 hy ▸ hyield.2⟩
  | kill pid rsp =>
    obtain ⟨target, r, hfind, hy, rfl⟩ := syscall_kill hs
    have hyield := (h.markEnded target).yield (hok target hfind) hy
    exact ⟨hyield.1, fun y hy => List.mem_singleton.1 hy ▸ hyield.2⟩
  | waitpid pid rsp => exact h.waitpid hok hs

theorem sysStep_eq_some {op : Syscall} (h : sysStep s op = some s') :
    ∃ ys, syscall s op = .ok (s', ys) := by
  unfold sysStep at h
  cases hs : Sbunix.syscall s op with
  | error e =>
    rw [hs] at h
    cases h
  | ok p =>
    rw [hs] at h
    obtain rfl := Option.some.inj h
    exact ⟨p.2, rfl⟩

/-! ## Boot -/

theorem listed_boot {initRsp shellRsp : UInt64} (h : boot initRsp shellRsp = .ok s) :
    Listed s.tasks [0, 1] := by
  obtain rfl := Except.ok.inj h
  exact ⟨⟨rfl, rfl, rfl⟩, List.Perm.refl _⟩

theorem boot_spec {initRsp shellRsp : UInt64} (h : boot initRsp shellRsp = .ok s) :
    WellListed s ∧ s.tasks.count = 2 ∧ s.currentRunningTask = 1 ∧ s.state 0 = .waiting ∧
      s.state 1 = .running := by
  have hl := listed_boot h
  obtain rfl := Except.ok.inj h
  exact ⟨⟨⟨_, hl⟩, rfl, Nat.one_ne_zero, Nat.one_lt_two⟩, rfl, rfl, rfl, rfl⟩

theorem oneRunning_boot {initRsp shellRsp : UInt64} (h : boot initRsp shellRsp = .ok s) :
    OneRunning s := by
  obtain ⟨hlist, hcount, hrun, h0, h1⟩ := boot_spec h
  refine ⟨hlist, ?_⟩
  intro t ht
  obtain rfl | rfl : t = 0 ∨ t = 1 := by omega
  · simp [h0, hrun]
  · simp [h1, hrun]

/-- The running task is in state `TASK_RUNNING`, and the init task is no zombie. -/
structure Alive (s : Sched) : Prop extends WellListed s where
  running : s.state s.currentRunningTask = .running
  init : s.state 0 ≠ .zombie

/-- When the call terminates the running task, another task waits, and the parent that `waitpid`
makes wait has not terminated. -/
def StaysDead (s : Sched) : Syscall → Prop
  | .fork _ _ _ => True
  | .execve _ _ => True
  | .exit _ => OtherWaiting (s.setState s.currentRunningTask .zombie)
  | .kill pid _ => ∀ target, getTaskForPID pid.toNat s.tasks = .ok target →
      Terminated (markEnded s target) s.currentRunningTask → OtherWaiting (markEnded s target)
  | .waitpid pid _ => ∀ c < s.tasks.count, isChildOf pid (s.tasks.task c) → s.state c = .running →
      ∀ parent, getTaskForPID pid s.tasks = .ok (some parent) → ¬ Terminated s parent

/-- Every task that has terminated in `s` has terminated in `s'`, and no task is lost. -/
structure KeepsDead (s s' : Sched) : Prop where
  count : s.tasks.count ≤ s'.tasks.count
  terminated : ∀ t < s.tasks.count, Terminated s t → Terminated s' t

theorem KeepsDead.refl (s : Sched) : KeepsDead s s := ⟨Nat.le_refl _, fun _ _ h => h⟩

theorem KeepsDead.trans {s₁ s₂ s₃ : Sched} (h : KeepsDead s₁ s₂) (h' : KeepsDead s₂ s₃) :
    KeepsDead s₁ s₃ :=
  ⟨Nat.le_trans h.count h'.count, fun t ht hterm =>
    h'.terminated t (Nat.lt_of_lt_of_le ht h.count) (h.terminated t ht hterm)⟩

theorem terminated_congr (h : s'.state t = s.state t) : Terminated s' t ↔ Terminated s t := by
  unfold Terminated
  rw [h]

theorem not_terminated_of_running (h : s.state t = .running) : ¬ Terminated s t := by
  rintro (hterm | hterm) <;> cases hterm.symm.trans h

/-- Marking a task as terminated, or as waiting one that has not terminated. -/
theorem keepsDead_setState (s : Sched) (t : Nat) {x : TaskState}
    (hx : Terminated s t → x = .ended ∨ x = .zombie) : KeepsDead s (s.setState t x) := by
  refine ⟨Nat.le_refl _, ?_⟩
  intro u _ hu
  by_cases hut : u = t
  · subst hut
    unfold Terminated
    rw [state_setState_self]
    exact hx hu
  · exact (terminated_congr (state_setState_of_ne s x hut)).2 hu

/-- A `yield` revives nobody, and the running task runs after it unless it has terminated and nobody
waits. -/
theorem yield_keepsDead (h : WellListed s) (hinit : s.state 0 ≠ .zombie)
    (hlive : s.state s.currentRunningTask = .running ∨ OtherWaiting s) {rsp : UInt64}
    {r : Option Nat} (hy : yield rsp s = .ok (r, s')) : Alive s' ∧ KeepsDead s s' := by
  rcases yield_spec h rsp hy with
    ⟨-, rfl, hno⟩ | ⟨t, -, -, hlist, hrun, hwait, ht0, hcount, hstate⟩
  · exact ⟨⟨h, hlive.resolve_right hno, hinit⟩, .refl s'⟩
  · refine ⟨⟨hlist, ?_, ?_⟩, Nat.le_of_eq hcount.symm, ?_⟩
    · rw [hrun, hstate, if_pos rfl]
    · rw [hstate, if_neg (Ne.symm ht0), if_pos rfl]
      split_ifs <;> decide
    · intro u _ hu
      -- The task chosen was waiting, and a terminated init task has ended.
      have hut : u ≠ t := by
        rintro rfl
        rcases hu with hu | hu <;> cases hu.symm.trans hwait
      unfold Terminated
      rw [hstate, if_neg hut]
      split_ifs with hu0 hended
      · exact Or.inl rfl
      · subst hu0
        exact absurd (hu.resolve_right hinit) hended
      · exact hu

theorem Alive.init_setState (h : Alive s) (t : Nat) {x : TaskState} (hx : x ≠ .zombie) :
    (s.setState t x).state 0 ≠ .zombie := by
  rw [state_setState]
  split_ifs
  · exact hx
  · exact h.init

theorem Alive.fork (h : Alive s) {childName : String} {childRsp rsp : UInt64}
    (hs : procFork childName childRsp rsp s = .ok s') : Alive s' ∧ KeepsDead s s' := by
  obtain ⟨s₁, hs₁, hlist, hrun, hcount, hstate⟩ :=
    procFork_spec h.toWellListed childName childRsp rsp
  obtain rfl := Except.ok.inj (hs₁.symm.trans hs)
  refine ⟨⟨hlist, ?_, ?_⟩, by omega, ?_⟩
  · rw [hrun, hstate, if_pos rfl]
  · rw [hstate, if_neg (Nat.ne_of_lt (Nat.zero_lt_of_lt h.lt_count)), if_neg (Ne.symm h.init_ne)]
    exact h.init
  · intro t ht hterm
    have hcaller : t ≠ s.currentRunningTask := by
      rintro rfl
      exact not_terminated_of_running h.running hterm
    refine (terminated_congr ?_).2 hterm
    rw [hstate, if_neg (Nat.ne_of_lt ht), if_neg hcaller]

theorem Alive.execve (h : Alive s) {binary : String} {kernelRsp : UInt64}
    (hs : sanexecve binary kernelRsp s = .ok s') : Alive s' ∧ KeepsDead s s' := by
  obtain ⟨s₁, hs₁, hlist, hrun, hcount, hstate⟩ :=
    sanexecve_spec h.toWellListed (sanexecve_fits hs) kernelRsp
  obtain rfl := Except.ok.inj (hs₁.symm.trans hs)
  refine ⟨⟨hlist, ?_, ?_⟩, by omega, ?_⟩
  · rw [hrun, hstate, if_pos rfl]
  · rw [hstate, if_neg (Nat.ne_of_lt (Nat.zero_lt_of_lt h.lt_count)), if_neg (Ne.symm h.init_ne)]
    exact h.init
  · intro t ht hterm
    unfold Terminated
    rw [hstate, if_neg (Nat.ne_of_lt ht)]
    split_ifs
    · exact Or.inl rfl
    · exact hterm

theorem Alive.exit (h : Alive s) {rsp : UInt64} (hok : StaysDead s (.exit rsp))
    {r : Option Nat} (hy : yield rsp (s.setState s.currentRunningTask .zombie) = .ok (r, s')) :
    Alive s' ∧ KeepsDead s s' := by
  have hinit : (s.setState s.currentRunningTask .zombie).state 0 ≠ .zombie := by
    rw [state_setState_of_ne s _ (Ne.symm h.init_ne)]
    exact h.init
  obtain ⟨halive, hkeeps⟩ := yield_keepsDead (h.toWellListed.setState _ _) hinit (Or.inr hok) hy
  exact ⟨halive, (keepsDead_setState s _ fun _ => Or.inr rfl).trans hkeeps⟩

theorem Alive.kill (h : Alive s) {pid rsp : UInt64} (hok : StaysDead s (.kill pid rsp))
    {target r : Option Nat} (hfind : getTaskForPID pid.toNat s.tasks = .ok target)
    (hy : yield rsp (markEnded s target) = .ok (r, s')) : Alive s' ∧ KeepsDead s s' := by
  have hok := hok target hfind
  cases target with
  | none => exact yield_keepsDead h.toWellListed h.init (Or.inl h.running) hy
  | some t =>
    have hlive : (s.setState t .ended).state s.currentRunningTask = .running ∨
        OtherWaiting (s.setState t .ended) := by
      by_cases ht : s.currentRunningTask = t
      · right
        refine hok (Or.inl ?_)
        rw [ht]
        exact state_setState_self s t .ended
      · left
        exact (state_setState_of_ne s _ ht).trans h.running
    obtain ⟨halive, hkeeps⟩ := yield_keepsDead (h.toWellListed.setState t _)
      (h.init_setState t (by decide)) hlive hy
    exact ⟨halive, (keepsDead_setState s t fun _ => Or.inl rfl).trans hkeeps⟩

theorem Alive.waitpid (h : Alive s) {pid : Int} {rsp : UInt64}
    (hok : StaysDead s (.waitpid pid rsp)) {ys : List Yielded}
    (hs : syssWaitpid pid rsp s = .ok (s', ys)) : Alive s' ∧ KeepsDead s s' := by
  have hrule := waitpidLoop_rule (Q := fun _ _ => True)
    (I := fun s₁ => (Alive s₁ ∧ KeepsDead s s₁) ∧ StaysDead s₁ (.waitpid pid rsp))
    (G := fun s₁ => Alive s₁ ∧ KeepsDead s s₁)
    (fun h => h.1.1.toWellListed) (fun h => h.1) ?_ ⟨⟨h, .refl s⟩, hok⟩
    (fun _ => h.lt_of_current) (by simp) hs
  · exact hrule.1
  · rintro s₁ c parent r s₂ ⟨⟨h, hkeeps⟩, hok⟩ hc hchild hrun hfind hy
    have hparent := hok c hc hchild hrun parent hfind
    have hlist := h.toWellListed.setState parent .waiting
    have hlive : (s₁.setState parent .waiting).state s₁.currentRunningTask = .running ∨
        OtherWaiting (s₁.setState parent .waiting) := by
      by_cases heq : s₁.currentRunningTask = parent
      · exact Or.inr (heq ▸ h.otherWaiting)
      · exact Or.inl ((state_setState_of_ne s₁ _ heq).trans h.running)
    obtain ⟨halive, hkeeps'⟩ := yield_keepsDead hlist (h.init_setState parent (by decide)) hlive hy
    have hall := (hkeeps.trans (keepsDead_setState s₁ parent fun ht => absurd ht hparent)).trans
      hkeeps'
    refine ⟨trivial, ⟨halive, hall⟩, fun hr => ⟨⟨halive, hall⟩, ?_⟩⟩
    intro d hd hd' hrun' p hp
    rcases yield_spec hlist rsp hy with ⟨-, rfl, -⟩ | ⟨t, ht, -⟩
    · rw [getTaskForPID_setState, hfind] at hp
      obtain rfl := Option.some.inj (Except.ok.inj hp)
      have hwait := state_setState_self s₁ parent .waiting
      rintro (hterm | hterm) <;> cases hterm.symm.trans hwait
    · cases hr.symm.trans ht

/-- One system call. -/
theorem Alive.syscall (h : Alive s) {op : Syscall} (hok : StaysDead s op) {ys : List Yielded}
    (hs : syscall s op = .ok (s', ys)) : Alive s' ∧ KeepsDead s s' := by
  cases op with
  | fork childName childRsp rsp => exact h.fork (syscall_fork hs).1
  | execve binary kernelRsp => exact h.execve (syscall_execve hs).1
  | exit rsp =>
    obtain ⟨r, hy, -⟩ := syscall_exit hs
    exact h.exit hok hy
  | kill pid rsp =>
    obtain ⟨target, r, hfind, hy, -⟩ := syscall_kill hs
    exact h.kill hok hfind hy
  | waitpid pid rsp => exact h.waitpid hok hs

theorem alive_run {ops : List Syscall} (h : Alive s) (hrun : Run sysStep StaysDead s ops s') :
    Alive s' ∧ KeepsDead s s' := by
  refine hrun.invariant (I := fun s' => Alive s' ∧ KeepsDead s s') (fun h hok hstep => ?_)
    ⟨h, .refl s⟩
  obtain ⟨ys, hs⟩ := sysStep_eq_some hstep
  obtain ⟨halive, hkeeps⟩ := h.1.syscall hok hs
  exact ⟨halive, h.2.trans hkeeps⟩

end

end Sbunix
