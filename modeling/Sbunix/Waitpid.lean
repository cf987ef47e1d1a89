import Sbunix.Switching

/-!
# What `waitpid` waits for

`SYSS_waitpid` looks for running tasks whose parent has the identifier it is given, and makes this
parent wait before it calls `yield`. A shell gives it the identifier of its child, so that the tasks
it looks for are the children of this child.

* When there is none, the call returns at once, whatever the child does.
* When there is one, the child itself waits now, `yield` switches, and the call does not return: its
  context is saved in the init task, which is never switched to.

`waitpid_waits_iff` puts this together for every state that system calls lead to. That the init
task is no one's child rests on the identifiers: no call gives out the identifier 1 again
(`FirstIds`), and no name runs over one, since the names of a run fit in `task_name`.
-/

namespace Sbunix

open Lib

/-- Every `yield` of the call has come back. -/
def Returns (rsp : UInt64) (ys : List Yielded) : Prop := ∀ y ∈ ys, yield rsp y.1 = .ok (none, y.2)

/-- When `waitpid` for the task `c` returns, `c` has terminated. -/
def WaitsFor (s : Sched) (c : Nat) : Prop :=
  ∀ rsp s' ys, syscall s (.waitpid (s.tasks.task c).pid.toNat rsp) = .ok (s', ys) →
    Returns rsp ys → Terminated s' c

/-- The loop stops at the task `t`. -/
abbrev RunningChild (s : Sched) (pid : Int) (t : Nat) : Prop :=
  isChildOf pid (s.tasks.task t) ∧ s.state t = .running

/-! ## Identifiers -/

/-- The same tasks with the same identifiers and parents. -/
structure SameKin (s s' : Sched) : Prop where
  count : s'.tasks.count = s.tasks.count
  processID : s'.processID = s.processID
  pid : ∀ t, (s'.tasks.task t).pid = (s.tasks.task t).pid
  ppid : ∀ t, (s'.tasks.task t).ppid = (s.tasks.task t).ppid

/-- The init task has the identifier 1 and no parent, and no other task has this identifier. -/
structure FirstIds (s : Sched) : Prop where
  pid : (s.tasks.task 0).pid = 1
  ppid : (s.tasks.task 0).ppid = 0
  taken : s.processID 1 = true
  others : ∀ t < s.tasks.count, t ≠ 0 → 1 < (s.tasks.task t).pid.toNat

section

variable {s s' s'' : Sched} {t c : Nat} {l : List Nat} {pid : Int} {rsp : UInt64}

theorem SameKin.refl (s : Sched) : SameKin s s := ⟨rfl, rfl, fun _ => rfl, fun _ => rfl⟩

theorem SameKin.trans (h : SameKin s s') (h' : SameKin s' s'') : SameKin s s'' where
  count := h'.count.trans h.count
  processID := h'.processID.trans h.processID
  pid t := (h'.pid t).trans (h.pid t)
  ppid t := (h'.ppid t).trans (h.ppid t)

theorem sameKin_modify (s : Sched) (t : Nat) {f : Task → Task} (hpid : ∀ x, (f x).pid = x.pid)
    (hppid : ∀ x, (f x).ppid = x.ppid) : SameKin s { s with tasks := s.tasks.modify t f } := by
  refine ⟨rfl, rfl, ?_, ?_⟩
  · intro u
    rw [Tasks.task_modify]
    split_ifs
    · exact hpid _
    · rfl
  · intro u
    rw [Tasks.task_modify]
    split_ifs
    · exact hppid _
    · rfl

theorem sameKin_setState (s : Sched) (t : Nat) (x : TaskState) : SameKin s (s.setState t x) :=
  sameKin_modify s t (f := fun y => { y with state := x }) (fun _ => rfl) fun _ => rfl

theorem sameKin_relinked {tasks : Tasks} (h : Tasks.Relinked s.tasks tasks) :
    SameKin s { s with tasks := tasks } := by
  refine ⟨h.count, rfl, ?_, ?_⟩
  · intro t
    obtain ⟨p, hp⟩ := h.task t
    show (tasks.task t).pid = _
    rw [hp]
  · intro t
    obtain ⟨p, hp⟩ := h.task t
    show (tasks.task t).ppid = _
    rw [hp]

theorem sameKin_switchTask (rsp : UInt64) (s : Sched) : SameKin s (switchTask rsp s) := by
  obtain ⟨hcount, hids, hpid, hppid⟩ :=
    sameKin_setState { s with currentRunningTask := s.toTask } s.toTask .running
  have hto : SameKin s (({ s with currentRunningTask := s.toTask } : Sched).setState s.toTask
      .running) := ⟨hcount, hids, hpid, hppid⟩
  unfold switchTask
  refine SameKin.trans ?_ (sameKin_modify _ _ (fun _ => rfl) fun _ => rfl)
  split_ifs
  · exact hto.trans (sameKin_setState _ _ _)
  · exact hto

theorem yield_sameKin (h : WellListed s) {r : Option Nat} (hy : yield rsp s = .ok (r, s')) :
    SameKin s s' := by
  obtain ⟨l, hl⟩ := h.listed
  obtain ⟨rest, rfl, -⟩ := hl.chain.of_some
  have hlen := hl.length
  rw [List.length_cons] at hlen
  obtain ⟨⟨next, tasks⟩, hnext, hy⟩ := bind_eq_ok.1 hy
  have hkin : SameKin s { s with tasks := tasks } := by
    rcases getNextWaitingTask_spec hl.chain (by omega) with
      ⟨hok, -⟩ | ⟨pre, t, post, -, -, -, ⟨-, herr⟩ | ⟨-, tasks', hok, hrel, -⟩⟩
    · obtain ⟨-, rfl⟩ := Prod.mk.inj (Except.ok.inj (hok.symm.trans hnext))
      exact .refl s
    · cases herr.symm.trans hnext
    · obtain ⟨-, rfl⟩ := Prod.mk.inj (Except.ok.inj (hok.symm.trans hnext))
      exact sameKin_relinked hrel
  cases next with
  | none =>
    obtain ⟨-, rfl⟩ := Prod.mk.inj (Except.ok.inj hy)
    exact hkin
  | some t =>
    obtain ⟨-, rfl⟩ := Prod.mk.inj (Except.ok.inj hy)
    obtain ⟨hcount, hids, hpid, hppid⟩ := sameKin_switchTask rsp
      { s with tasks := tasks, fromTask := tasks.current, toTask := t }
    exact hkin.trans ⟨hcount, hids, hpid, hppid⟩

theorem FirstIds.same (h : FirstIds s) (hkin : SameKin s s') : FirstIds s' := by
  refine ⟨(hkin.pid 0).trans h.pid, (hkin.ppid 0).trans h.ppid, ?_, ?_⟩
  · rw [hkin.processID]
    exact h.taken
  · intro t ht hne
    rw [hkin.pid]
    exact h.others t (hkin.count ▸ ht) hne

/-- The identifier 1 is not given out again. -/
theorem getProcessID_first (h : s.processID 1 = true) :
    1 < (getProcessID s).1.toNat ∧ (getProcessID s).2.processID 1 = true := by
  unfold getProcessID
  cases hfind : (List.range' 1 99).find? fun id => !s.processID id with
  | none =>
    have hlast : 1 < (65535 : UInt16).toNat := by decide
    exact ⟨hlast, h⟩
  | some id =>
    have hmem := List.mem_of_find?_eq_some hfind
    have hfree := List.find?_some hfind
    rw [List.mem_range'_1] at hmem
    have hne : id ≠ 1 := by
      rintro rfl
      simp [h] at hfree
    refine ⟨?_, ?_⟩
    · show 1 < (UInt16.ofNat id).toNat
      rw [UInt16.toNat_ofNat_of_lt' (by simp only [UInt16.size]; omega)]
      omega
    · show Function.update s.processID id true 1 = true
      rw [Function.update_of_ne hne.symm]
      exact h

/-- A new task has another identifier. -/
theorem FirstIds.addTask (h : FirstIds s) (hl : Listed s.tasks l) (hpos : 0 < s.tasks.count)
    {taskName : String} {ppid : UInt16} {kernelRsp : UInt64}
    (hadd : addTask taskName ppid kernelRsp s = .ok (t, s')) : FirstIds s' := by
  obtain ⟨hpid, htaken⟩ := getProcessID_first h.taken
  obtain ⟨tasks, htail, hrel, -⟩ := addTask_listed hl taskName ppid kernelRsp
  obtain ⟨-, rfl⟩ := Prod.mk.inj (Except.ok.inj (htail.symm.trans hadd))
  set x : Task := ⟨taskName, (getProcessID s).1, ppid, .waiting, none, kernelRsp⟩
  have hold : ∀ u, u ≠ s.tasks.count → (s.tasks.alloc x).2.task u = s.tasks.task u :=
    fun u hu => Function.update_of_ne hu _ _
  have hnew : (s.tasks.alloc x).2.task s.tasks.count = x := Function.update_self _ _ _
  have hfirst : FirstIds { (getProcessID s).2 with tasks := (s.tasks.alloc x).2 } := by
    refine ⟨?_, ?_, htaken, ?_⟩
    · show ((s.tasks.alloc x).2.task 0).pid = 1
      rw [hold 0 (Nat.ne_of_lt hpos), h.pid]
    · show ((s.tasks.alloc x).2.task 0).ppid = 0
      rw [hold 0 (Nat.ne_of_lt hpos), h.ppid]
    · intro u hu hne
      show 1 < ((s.tasks.alloc x).2.task u).pid.toNat
      replace hu : u < s.tasks.count + 1 := hu
      by_cases huc : u = s.tasks.count
      · rw [huc, hnew]
        exact hpid
      · rw [hold u huc]
        exact h.others u (by omega) hne
  exact hfirst.same (sameKin_relinked
    (s := { (getProcessID s).2 with tasks := (s.tasks.alloc x).2 }) hrel)

/-! ## Runs -/

/-- What holds of every state that system calls lead to. -/
structure Reached (s : Sched) : Prop extends WellListed s, FirstIds s

theorem Reached.setState (h : Reached s) (t : Nat) (x : TaskState) : Reached (s.setState t x) :=
  ⟨h.toWellListed.setState t x, h.toFirstIds.same (sameKin_setState s t x)⟩

theorem Reached.yield (h : Reached s) {r : Option Nat} (hy : yield rsp s = .ok (r, s')) :
    Reached s' := by
  refine ⟨?_, h.toFirstIds.same (yield_sameKin h.toWellListed hy)⟩
  rcases yield_spec h.toWellListed rsp hy with ⟨-, rfl, -⟩ | ⟨t, -, -, hlist, -⟩
  · exact h.toWellListed
  · exact hlist

theorem Reached.fork (h : Reached s) {childName : String} {childRsp : UInt64}
    (hs : procFork childName childRsp rsp s = .ok s') : Reached s' := by
  obtain ⟨l, hl⟩ := h.listed
  obtain ⟨s₁, hs₁, hlist, -⟩ := procFork_spec h.toWellListed childName childRsp rsp
  obtain rfl := Except.ok.inj (hs₁.symm.trans hs)
  refine ⟨hlist, ?_⟩
  obtain ⟨⟨child, s₂⟩, hadd, hs⟩ := bind_eq_ok.1 hs
  obtain rfl := Except.ok.inj hs
  obtain ⟨hpid, hppid, htaken, hothers⟩ :=
    h.toFirstIds.addTask hl (Nat.zero_lt_of_lt h.lt_count) hadd
  have hfirst : FirstIds { s₂ with fromTask := s.currentRunningTask, toTask := child } :=
    ⟨hpid, hppid, htaken, hothers⟩
  exact hfirst.same (sameKin_switchTask rsp _)

theorem Reached.execve (h : Reached s) {binary : String} {kernelRsp : UInt64}
    (hs : sanexecve binary kernelRsp s = .ok s') : Reached s' := by
  obtain ⟨s₁, hs₁, hlist, -⟩ := sanexecve_spec h.toWellListed (sanexecve_fits hs) kernelRsp
  obtain rfl := Except.ok.inj (hs₁.symm.trans hs)
  refine ⟨hlist, ?_⟩
  have hended := h.setState s.currentRunningTask .ended
  obtain ⟨l, hl⟩ := hended.listed
  obtain ⟨taskName, -, hs⟩ := bind_eq_ok.1 hs
  obtain ⟨⟨newProc, s₂⟩, hadd, hs⟩ := bind_eq_ok.1 hs
  obtain rfl := Except.ok.inj hs
  obtain ⟨hpid, hppid, htaken, hothers⟩ :=
    hended.toFirstIds.addTask hl (Nat.zero_lt_of_lt hended.lt_count) hadd
  have hfirst : FirstIds { s₂ with currentRunningTask := newProc } :=
    ⟨hpid, hppid, htaken, hothers⟩
  exact hfirst.same (sameKin_setState _ _ _)

theorem Reached.markEnded (h : Reached s) (target : Option Nat) : Reached (markEnded s target) := by
  cases target with
  | none => exact h
  | some t => exact h.setState t .ended

/-- One system call. -/
theorem Reached.syscall (h : Reached s) {op : Syscall} {ys : List Yielded}
    (hs : syscall s op = .ok (s', ys)) : Reached s' := by
  cases op with
  | fork childName childRsp rsp => exact h.fork (syscall_fork hs).1
  | execve binary kernelRsp => exact h.execve (syscall_execve hs).1
  | exit rsp =>
    obtain ⟨r, hy, -⟩ := syscall_exit hs
    exact (h.setState _ _).yield hy
  | kill pid rsp =>
    obtain ⟨target, r, -, hy, -⟩ := syscall_kill hs
    exact (h.markEnded target).yield hy
  | waitpid pid rsp =>
    refine (waitpidLoop_rule (I := Reached) (G := Reached) (Q := fun _ _ => True)
      (fun h => h.toWellListed) id ?_ h (fun _ => h.lt_of_current) (fun _ _ => trivial) hs).1
    intro s c parent r s' h hc hchild hrunning hfind hy
    have hs' := (h.setState parent .waiting).yield hy
    exact ⟨trivial, hs', fun _ => hs'⟩

theorem reached_boot {initRsp shellRsp : UInt64} (h : boot initRsp shellRsp = .ok s) :
    Reached s := by
  obtain ⟨hlist, hcount, -⟩ := boot_spec h
  obtain rfl := Except.ok.inj h
  refine ⟨hlist, rfl, rfl, rfl, ?_⟩
  intro t ht hne
  obtain rfl : t = 1 := by omega
  have hshell : 1 < (2 : UInt16).toNat := by decide
  exact hshell

theorem reached_run {initRsp shellRsp : UInt64} {s₀ : Sched} {ops : List Syscall}
    (hboot : boot initRsp shellRsp = .ok s₀) (hrun : Run sysStep (fun _ _ => True) s₀ ops s) :
    Reached s :=
  hrun.invariant (I := Reached) (fun h _ hstep => by
    obtain ⟨ys, hs⟩ := sysStep_eq_some hstep
    exact h.syscall hs) (reached_boot hboot)

/-! ## The loop -/

/-- The loop goes past tasks that are not running children. -/
theorem waitpidLoop_idle {fuel : Nat} {p : Option Nat} (hchain : Chain s.tasks.next p l)
    (hfuel : l.length ≤ fuel) (hnone : ∀ t ∈ l, ¬ RunningChild s pid t) (ys : List Yielded) :
    waitpidLoop pid rsp fuel p s ys = .ok (s, ys) := by
  induction l generalizing p fuel with
  | nil =>
    obtain rfl : p = none := hchain
    rw [waitpidLoop]
  | cons t l ih =>
    obtain ⟨fuel, rfl⟩ : ∃ n, fuel = n + 1 := ⟨fuel - 1, by simp at hfuel; omega⟩
    obtain ⟨rfl, hchain⟩ := hchain
    rw [waitpidLoop, if_neg (hnone t List.mem_cons_self)]
    exact ih hchain (by simpa using hfuel) fun u hu => hnone u (List.mem_cons_of_mem _ hu)

/-- What is found has the identifier. -/
theorem findPid_some {tasks : Tasks} {fuel : Nat} {p : Option Nat}
    (hchain : Chain tasks.next p l) (h : findPid pid tasks fuel p = .ok (some t)) :
    t ∈ l ∧ ((tasks.task t).pid.toNat : Int) = pid := by
  induction l generalizing p fuel with
  | nil =>
    obtain rfl : p = none := hchain
    rw [findPid] at h
    cases h
  | cons u l ih =>
    obtain ⟨rfl, hchain⟩ := hchain
    cases fuel with
    | zero => cases h
    | succ fuel =>
      rw [findPid] at h
      split_ifs at h with hpid
      · obtain rfl := Option.some.inj (Except.ok.inj h)
        exact ⟨List.mem_cons_self, hpid⟩
      · obtain ⟨hmem, hpid⟩ := ih hchain h
        exact ⟨List.mem_cons_of_mem _ hmem, hpid⟩

/-- At a running child the parent waits, so that `yield` switches to some task. -/
theorem waitpidLoop_switches (h : WellListed s) {fuel : Nat} {p : Option Nat}
    (hchain : Chain s.tasks.next p l) (hex : ∃ t ∈ l, RunningChild s pid t)
    (hparent : ∀ u < s.tasks.count, ((s.tasks.task u).pid.toNat : Int) = pid → u ≠ 0)
    {ys ys' : List Yielded} (hs : waitpidLoop pid rsp fuel p s ys = .ok (s', ys')) :
    ¬ Returns rsp ys' := by
  induction l generalizing p fuel with
  | nil =>
    obtain ⟨t, ht, -⟩ := hex
    exact absurd ht List.not_mem_nil
  | cons t l ih =>
    obtain ⟨rfl, hchain⟩ := hchain
    cases fuel with
    | zero => cases hs
    | succ fuel =>
      rw [waitpidLoop] at hs
      split_ifs at hs with hchild
      · obtain ⟨found, hfind, hs⟩ := bind_eq_ok.1 hs
        cases found with
        | none => cases hs
        | some parent =>
          obtain ⟨⟨r, s₁⟩, hy, hs⟩ := bind_eq_ok.1 hs
          obtain ⟨l', hl'⟩ := h.listed
          obtain ⟨hmem, hpid⟩ := findPid_some hl'.chain hfind
          have hlt := hl'.mem_iff.1 hmem
          have hother : OtherWaiting (s.setState parent .waiting) :=
            ⟨parent, hlt, fun heq => hparent parent hlt hpid (heq.trans h.current),
              state_setState_self s parent .waiting⟩
          rcases yield_spec (h.setState parent .waiting) rsp hy with ⟨-, -, hno⟩ | ⟨u, rfl, -⟩
          · exact absurd hother hno
          · obtain ⟨-, rfl⟩ := Prod.mk.inj (Except.ok.inj hs)
            intro hret
            have hback := hret _ (List.mem_append_right _ List.mem_cons_self)
            cases hy.symm.trans hback
      · refine ih hchain ?_ hs
        obtain ⟨u, hu, hrun⟩ := hex
        rcases List.mem_cons.1 hu with rfl | hu
        · exact absurd hrun hchild
        · exact ⟨u, hu, hrun⟩

end

/-- **`waitpid`.** In every state that system calls from boot lead to, and for every child of the
running task: the child has terminated whenever `waitpid` returns exactly when it has terminated
already, or a named child of its own is running. -/
theorem waitpid_waits_iff {initRsp shellRsp : UInt64} {s₀ s : Sched} {ops : List Syscall}
    (hboot : boot initRsp shellRsp = .ok s₀) (hrun : Run sysStep (fun _ _ => True) s₀ ops s)
    {c : Nat} (hc : c < s.tasks.count)
    (hchild : (s.tasks.task c).ppid = (s.tasks.task s.currentRunningTask).pid) :
    WaitsFor s c ↔ Terminated s c ∨
      ∃ t < s.tasks.count, RunningChild s (s.tasks.task c).pid.toNat t := by
  have h := reached_run hboot hrun
  obtain ⟨l, hl⟩ := h.listed
  have hne : c ≠ 0 := by
    rintro rfl
    have hlast := h.others _ h.lt_count h.init_ne
    rw [← hchild, h.ppid] at hlast
    exact absurd hlast (by decide)
  have hidle : (∀ t < s.tasks.count, ¬ RunningChild s (s.tasks.task c).pid.toNat t) → ∀ rsp,
      syscall s (.waitpid (s.tasks.task c).pid.toNat rsp) = .ok (s, []) := fun hno rsp =>
    waitpidLoop_idle hl.chain (by rw [hl.length]; exact Nat.le_succ _)
      (fun t ht => hno t (hl.mem_iff.1 ht)) []
  constructor
  · intro hwaits
    by_contra hnot
    rw [not_or] at hnot
    refine hnot.1 (hwaits 0 s [] (hidle (fun t ht hrun => hnot.2 ⟨t, ht, hrun⟩) 0) ?_)
    exact fun y hy => absurd hy List.not_mem_nil
  · intro hor rsp s' ys hs hret
    by_cases hex : ∃ t < s.tasks.count, RunningChild s (s.tasks.task c).pid.toNat t
    · obtain ⟨t, ht, hrun⟩ := hex
      refine absurd hret (waitpidLoop_switches h.toWellListed hl.chain
        ⟨t, hl.mem_iff.2 ht, hrun⟩ ?_ hs)
      rintro u hu hpid rfl
      have hfirst := h.others c hc hne
      rw [h.pid] at hpid
      have hone : (1 : UInt16).toNat = (s.tasks.task c).pid.toNat := Int.ofNat.inj hpid
      rw [← hone] at hfirst
      exact absurd hfirst (by decide)
    · have hno : ∀ t < s.tasks.count, ¬ RunningChild s (s.tasks.task c).pid.toNat t :=
        fun t ht hrun => hex ⟨t, ht, hrun⟩
      obtain ⟨rfl, -⟩ := Prod.mk.inj (Except.ok.inj ((hidle hno rsp).symm.trans hs))
      exact hor.resolve_right hex

/-- The shell forks, its child executes `bin/ls` and ends, and so does the program. -/
theorem waitpid_waits_ls :
    ∃ s₀ s, boot 0 0 = .ok s₀ ∧
      Run sysStep (fun _ _ => True) s₀ [.fork "" 0 0, .execve "bin/ls" 0, .exit 0] s ∧
      s.currentRunningTask = 1 ∧ s.state 2 = .ended ∧ WaitsFor s 2 := by
  obtain ⟨s₀, s, hboot, hrun, hcur, hcount, hparent, hended⟩ : ∃ s₀ s, boot 0 0 = .ok s₀ ∧
      Run sysStep (fun _ _ => True) s₀ [.fork "" 0 0, .execve "bin/ls" 0, .exit 0] s ∧
      s.currentRunningTask = 1 ∧ 2 < s.tasks.count ∧
      (s.tasks.task 2).ppid = (s.tasks.task s.currentRunningTask).pid ∧ s.state 2 = .ended :=
    ⟨_, _, rfl, .cons trivial rfl (.cons trivial rfl (.cons trivial rfl (.nil _))), rfl, by decide,
      rfl, rfl⟩
  exact ⟨s₀, s, hboot, hrun, hcur, hended,
    (waitpid_waits_iff hboot hrun hcount hparent).2 (Or.inl (Or.inl hended))⟩

/-- The shell forks, and the child calls `kill` for a task that does not exist, which goes back to
the shell. Then the shell waits for the child, which has no children: the call returns, and the
child is still in state `TASK_RUNNING`. -/
theorem child_runs_on :
    ∃ s₀ s, boot 0 0 = .ok s₀ ∧
      Run sysStep (fun _ _ => True) s₀ [.fork "" 0 0, .kill 99 0] s ∧
      s.currentRunningTask = 1 ∧ (s.tasks.task 2).ppid = (s.tasks.task 1).pid ∧
      syscall s (.waitpid (s.tasks.task 2).pid.toNat 0) = .ok (s, []) ∧
      s.state 2 = .running ∧ ¬ WaitsFor s 2 := by
  obtain ⟨s₀, s, hboot, hrun, hcur, hparent, hcall, hstate⟩ : ∃ s₀ s, boot 0 0 = .ok s₀ ∧
      Run sysStep (fun _ _ => True) s₀ [.fork "" 0 0, .kill 99 0] s ∧
      s.currentRunningTask = 1 ∧ (s.tasks.task 2).ppid = (s.tasks.task 1).pid ∧
      syscall s (.waitpid (s.tasks.task 2).pid.toNat 0) = .ok (s, []) ∧ s.state 2 = .running :=
    ⟨_, _, rfl, .cons trivial rfl (.cons trivial rfl (.nil _)), rfl, rfl, rfl, rfl⟩
  refine ⟨s₀, s, hboot, hrun, hcur, hparent, hcall, hstate, ?_⟩
  intro hwaits
  rcases hwaits 0 s [] hcall (fun y hy => absurd hy List.not_mem_nil) with hterm | hterm
  · cases hterm.symm.trans hstate
  · cases hterm.symm.trans hstate

end Sbunix
