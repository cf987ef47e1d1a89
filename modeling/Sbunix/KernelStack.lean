import Sbunix.ForkFrame
import Sbunix.Switching

/-!
# The kernel stack of a trap

The CPU pushes the frame of a trap from user mode below `tss.rsp0`. `jump_to_user_mode` sets it to
the top of the kernel stack of the task it starts. `proc_fork` sets it to `&child->kernel_rsp`, an
address behind the fields `task_cr3` and `task_rip` of the child, and `yield` leaves it.

`kernel_stack_run` says that `rsp0` is the top of the running task's own kernel stack in every run
without a fork in which `yield` does not switch to another task, and what this means for the next
trap. The tasks are at addresses `addr`.
-/

namespace Sbunix

open Lib

/-- The tasks and `tss.rsp0`. -/
structure KernelState where
  sched : Sched
  rsp0 : UInt64

section

variable (addr : Nat → UInt64)

/-- `tss.rsp0` after a call. The task that `proc_fork` and `sanexecve` make is the next one on the
heap. -/
def rsp0After (k : KernelState) : Syscall → UInt64
  | .fork _ _ _ => addr k.sched.tasks.count + kernelRspOffset
  | .execve _ _ => kstackAddr (addr k.sched.tasks.count) 511
  | _ => k.rsp0

def kernelStep (k : KernelState) (op : Syscall) : Option KernelState :=
  (sysStep k.sched op).map fun s => ⟨s, rsp0After addr k op⟩

/-- The end of `start`. The shell is the second task. -/
def kernelBoot (initRsp shellRsp : UInt64) : Except Fault KernelState :=
  (boot initRsp shellRsp).map fun s => ⟨s, kstackAddr (addr 1) 511⟩

/-- The allocated tasks are objects of their own. -/
structure StackPlaced (n : Nat) : Prop where
  taskAt : ∀ t < n, TaskAt (addr t)
  apart : ∀ t < n, ∀ u < n, t ≠ u → TasksApart (addr t) (addr u)

/-- The address is one of the kernel stack of the task. -/
def InKstack (t x : Nat) : Prop :=
  (kstackAddr (addr t) 0).toNat ≤ x ∧ x < (kstackAddr (addr t) 512).toNat

/-- `rsp0` is the top of the running task's kernel stack, and the frame of the next trap, with the
registers that `isr_syscall` pushes on top of it, goes to this stack and to no other field of any
task. -/
structure OwnStack (k : KernelState) : Prop where
  rsp0 : k.rsp0 = kstackAddr (addr k.sched.currentRunningTask) 511
  inside : ∀ (u : UserRegs) (m : Mem) (x : Nat),
    (runCode id saveCode (trap k.rsp0 u m)).mem x ≠ m x →
      InKstack addr k.sched.currentRunningTask x
  others : ∀ (u : UserRegs) (m : Mem), ∀ t < k.sched.tasks.count, ∀ x,
    (addr t).toNat ≤ x → x < (addr t).toNat + sizeofTask →
      ¬ (t = k.sched.currentRunningTask ∧ InKstack addr t x) →
        (runCode id saveCode (trap k.rsp0 u m)).mem x = m x

end

/-- The first task that waits, if any does, is the running one. -/
def StaysOn (s : Sched) : Prop :=
  ∀ l t, Chain s.tasks.next (some s.tasks.current) l →
    l.tail.find? (fun u => s.state u = .waiting) = some t → t = s.currentRunningTask

/-- No fork, and no task but the running one is there for `yield` to switch to. -/
def StackOk (k : KernelState) : Syscall → Prop
  | .fork _ _ _ => False
  | .execve _ _ => True
  | .exit _ => StaysOn (k.sched.setState k.sched.currentRunningTask .zombie)
  | .kill pid _ => ∀ target, getTaskForPID pid.toNat k.sched.tasks = .ok target →
      StaysOn (markEnded k.sched target)
  | .waitpid pid _ => ∀ c < k.sched.tasks.count, isChildOf pid (k.sched.tasks.task c) →
      k.sched.state c = .running → ∀ parent, getTaskForPID pid k.sched.tasks = .ok (some parent) →
        StaysOn (k.sched.setState parent .waiting)

/-! ## The frame of a trap -/

section

variable {addr : Nat → UInt64} {task : UInt64}

/-- The CPU and `isr_syscall` push fourteen words. -/
theorem trap_saveCode_mem (rsp0 : UInt64) (u : UserRegs) (m : Mem) :
    (runCode id saveCode (trap rsp0 u m)).mem =
      (([u.ss, u.reg .rsp, u.rflags, u.cs, u.rip] ++ pushedRegs.map (trap rsp0 u m).reg).foldl
        Cpu.pushWord ⟨Function.update u.reg .rsp (rsp0 &&& 0xFFFFFFFFFFFFFFF0), m⟩).mem := by
  have hmov : ∀ c, (runCode id [.movq .rsp .rdi] c).mem = c.mem := fun _ => rfl
  have htrap : trap rsp0 u m = [u.ss, u.reg .rsp, u.rflags, u.cs, u.rip].foldl Cpu.pushWord
      ⟨Function.update u.reg .rsp (rsp0 &&& 0xFFFFFFFFFFFFFFF0), m⟩ := rfl
  rw [saveCode, runCode_append, hmov, runCode_pushq (by decide), List.foldl_append, ← htrap]

theorem trap_mem_of_outside (h : TaskAt task) (u : UserRegs) (m : Mem) {x : Nat}
    (hx : x < (kstackAddr task 497).toNat ∨ (kstackAddr task 511).toNat ≤ x) :
    (runCode id saveCode (trap (kstackAddr task 511) u m)).mem x = m x := by
  have hsp : (⟨Function.update u.reg .rsp (kstackAddr task 511 &&& 0xFFFFFFFFFFFFFFF0), m⟩ :
      Cpu).sp = kstackAddr task 511 := by
    rw [kstackTop_aligned h]
    exact Function.update_self Reg.rsp (kstackAddr task 511) u.reg
  rw [kstackAddr_toNat h (by decide), kstackAddr_toNat h (by decide)] at hx
  rw [trap_saveCode_mem]
  refine mem_pushWords ?_ ?_
  · rw [hsp, kstackAddr_toNat h (by decide)]
    show 8 * 14 ≤ _
    omega
  · rw [hsp, kstackAddr_toNat h (by decide)]
    show x < _ - 8 * 14 ∨ _
    omega

theorem ownStack_of_rsp0 {k : KernelState} (hcur : k.sched.currentRunningTask < k.sched.tasks.count)
    (hplaced : StackPlaced addr k.sched.tasks.count)
    (h : k.rsp0 = kstackAddr (addr k.sched.currentRunningTask) 511) : OwnStack addr k := by
  have hat := hplaced.taskAt _ hcur
  have haddr : ∀ {t i}, t < k.sched.tasks.count → i ≤ 512 →
      (kstackAddr (addr t) i).toNat = (addr t).toNat + 312 + 8 * i :=
    fun ht hi => kstackAddr_toNat (hplaced.taskAt _ ht) hi
  have hinside : ∀ (u : UserRegs) (m : Mem) (x : Nat),
      (runCode id saveCode (trap k.rsp0 u m)).mem x ≠ m x →
        InKstack addr k.sched.currentRunningTask x := by
    intro u m x hx
    rw [h] at hx
    by_contra hout
    refine hx (trap_mem_of_outside hat u m ?_)
    unfold InKstack at hout
    rw [haddr hcur (by decide), haddr hcur (by decide)] at hout ⊢
    omega
  refine ⟨h, hinside, ?_⟩
  intro u m t ht x hlo hhi hout
  by_contra hx
  have hin := hinside u m x hx
  by_cases heq : t = k.sched.currentRunningTask
  · exact hout ⟨heq, heq ▸ hin⟩
  · -- The stack is part of another task.
    have hapart := hplaced.apart t ht _ hcur heq
    unfold InKstack at hin
    rw [haddr hcur (by decide), haddr hcur (by decide)] at hin
    unfold TasksApart sizeofTask at hapart
    unfold sizeofTask at hhi
    omega

end

/-! ## Runs -/

section

variable {addr : Nat → UInt64} {s s' : Sched} {k k' : KernelState}

theorem yield_stays (h : WellListed s) (hstay : StaysOn s) {rsp : UInt64} {r : Option Nat}
    (hy : yield rsp s = .ok (r, s')) :
    WellListed s' ∧ s'.currentRunningTask = s.currentRunningTask := by
  obtain ⟨l, hl⟩ := h.listed
  rcases yield_spec h rsp hy with ⟨-, rfl, -⟩ | ⟨t, rfl, -, hlist, hrun, -⟩
  · exact ⟨h, rfl⟩
  refine ⟨hlist, hrun.trans ?_⟩
  obtain ⟨⟨next, tasks⟩, hnext, hy⟩ := bind_eq_ok.1 hy
  rcases getNextWaitingTask_listed hl s.state with ⟨herr, -⟩ | ⟨-, r, _, _, hok, -, -, -, -, hr⟩
  · exact absurd (hnext.symm.trans herr) (by simp)
  · obtain ⟨rfl, -⟩ := Prod.mk.inj (Except.ok.inj (hnext.symm.trans hok))
    refine hstay l t hl.chain ?_
    cases next with
    | none =>
      obtain ⟨hnone, -⟩ := Prod.mk.inj (Except.ok.inj hy)
      nomatch hnone
    | some t' =>
      obtain ⟨hsome, -⟩ := Prod.mk.inj (Except.ok.inj hy)
      rw [← hsome]
      exact hr.symm

theorem waitpid_stays (h : WellListed s) {pid : Int} {rsp : UInt64} (rsp0 : UInt64)
    (hok : StackOk ⟨s, rsp0⟩ (.waitpid pid rsp)) {ys : List Yielded}
    (hs : syssWaitpid pid rsp s = .ok (s', ys)) :
    WellListed s' ∧ s'.currentRunningTask = s.currentRunningTask := by
  have hrule := waitpidLoop_rule (Q := fun _ _ => True)
    (I := fun s₁ => (WellListed s₁ ∧ s₁.currentRunningTask = s.currentRunningTask) ∧
      StackOk ⟨s₁, rsp0⟩ (.waitpid pid rsp))
    (G := fun s₁ => WellListed s₁ ∧ s₁.currentRunningTask = s.currentRunningTask)
    (fun h => h.1.1) (fun h => h.1) ?_ ⟨⟨h, rfl⟩, hok⟩ (fun _ => h.lt_of_current) (by simp) hs
  · exact hrule.1
  · rintro s₁ c parent r s₂ ⟨⟨h, hcur⟩, hok⟩ hc hchild hrun hfind hy
    have hstay := hok c hc hchild hrun parent hfind
    have hlist := h.setState parent .waiting
    obtain ⟨hlist₂, hcur₂⟩ := yield_stays hlist hstay hy
    refine ⟨trivial, ⟨hlist₂, hcur₂.trans hcur⟩, fun hr => ⟨⟨hlist₂, hcur₂.trans hcur⟩, ?_⟩⟩
    intro d hd hd' hrun' p hp
    rcases yield_spec hlist rsp hy with ⟨-, rfl, -⟩ | ⟨t, ht, -⟩
    · replace hp : getTaskForPID pid (s₁.setState parent .waiting).tasks = .ok (some p) := hp
      rw [getTaskForPID_setState, hfind] at hp
      obtain rfl := Option.some.inj (Except.ok.inj hp)
      show StaysOn ((s₁.setState parent .waiting).setState parent .waiting)
      rw [setState_setState]
      exact hstay
    · cases hr.symm.trans ht

theorem markEnded_wellListed (h : WellListed s) (target : Option Nat) :
    WellListed (markEnded s target) ∧
      (markEnded s target).currentRunningTask = s.currentRunningTask := by
  cases target with
  | none => exact ⟨h, rfl⟩
  | some t => exact ⟨h.setState t .ended, rfl⟩

/-- One system call. -/
theorem kernelStep_rsp0 (hlist : WellListed k.sched)
    (hrsp0 : k.rsp0 = kstackAddr (addr k.sched.currentRunningTask) 511) {op : Syscall}
    (hok : StackOk k op) (hstep : kernelStep addr k op = some k') :
    WellListed k'.sched ∧ k'.rsp0 = kstackAddr (addr k'.sched.currentRunningTask) 511 := by
  obtain ⟨s', hs', rfl⟩ := Option.map_eq_some_iff.1 hstep
  obtain ⟨ys, hs⟩ := sysStep_eq_some hs'
  cases op with
  | fork childName childRsp rsp => exact absurd hok id
  | execve binary kernelRsp =>
    obtain ⟨hexec, -⟩ := syscall_execve hs
    obtain ⟨s₂, hs₂, hlist₂, hcur, -⟩ := sanexecve_spec hlist (sanexecve_fits hexec) kernelRsp
    obtain rfl := Except.ok.inj (hs₂.symm.trans hexec)
    refine ⟨hlist₂, ?_⟩
    show kstackAddr (addr k.sched.tasks.count) 511 = kstackAddr (addr s₂.currentRunningTask) 511
    rw [hcur]
  | exit rsp =>
    obtain ⟨r, hy, -⟩ := syscall_exit hs
    obtain ⟨hlist', hcur⟩ := yield_stays (hlist.setState _ _) hok hy
    refine ⟨hlist', hrsp0.trans ?_⟩
    rw [hcur]
    rfl
  | kill pid rsp =>
    obtain ⟨target, r, hfind, hy, -⟩ := syscall_kill hs
    obtain ⟨hmark, hcur⟩ := markEnded_wellListed hlist target
    obtain ⟨hlist', hcur'⟩ := yield_stays hmark (hok target hfind) hy
    refine ⟨hlist', hrsp0.trans ?_⟩
    rw [hcur', hcur]
  | waitpid pid rsp =>
    obtain ⟨hlist', hcur⟩ := waitpid_stays hlist k.rsp0 hok hs
    refine ⟨hlist', hrsp0.trans ?_⟩
    rw [hcur]

end

/-- **Kernel stacks.** In every run of system calls from boot that meets `StackOk`, `tss.rsp0` is
the top of the running task's kernel stack, and the next trap stores its frame there and changes no
other field of any task. -/
theorem kernel_stack_run (addr : Nat → UInt64) {initRsp shellRsp : UInt64} {k₀ k : KernelState}
    {ops : List Syscall} (hboot : kernelBoot addr initRsp shellRsp = .ok k₀)
    (hrun : Run (kernelStep addr) StackOk k₀ ops k)
    (hplaced : StackPlaced addr k.sched.tasks.count) : OwnStack addr k := by
  obtain ⟨s₀, hs₀, rfl⟩ := map_eq_ok.1 hboot
  obtain ⟨hlist₀, -, hcur₀, -⟩ := boot_spec hs₀
  obtain ⟨hlist, hrsp0⟩ := hrun.invariant
    (I := fun k => WellListed k.sched ∧ k.rsp0 = kstackAddr (addr k.sched.currentRunningTask) 511)
    (fun h hok hstep => kernelStep_rsp0 h.1 h.2 hok hstep)
    ⟨hlist₀, by rw [hcur₀]⟩
  exact ownStack_of_rsp0 hlist.lt_count hplaced hrsp0

/-- Tasks of two pages each, from `0x300000` on. -/
def taskAddr (t : Nat) : UInt64 := UInt64.ofNat (0x300000 + 0x2000 * t)

theorem placed_taskAddr {n : Nat} (hn : n ≤ 1000) : StackPlaced taskAddr n := by
  have hnat : ∀ t < n, (taskAddr t).toNat = 0x300000 + 0x2000 * t := by
    intro t ht
    exact toNat_ofNat_of_lt (by omega)
  refine ⟨?_, ?_⟩
  · intro t ht
    refine ⟨?_, ?_⟩
    · rw [hnat t ht]
      omega
    · rw [hnat t ht]
      unfold sizeofTask
      omega
  · intro t ht u hu hne
    unfold TasksApart sizeofTask
    rw [hnat t ht, hnat u hu]
    omega

/-- The shell executes a program. -/
theorem kernel_stack_execve :
    ∃ k₀ k, kernelBoot taskAddr 0 0 = .ok k₀ ∧
      Run (kernelStep taskAddr) StackOk k₀ [.execve "bin/ls" 0] k ∧ OwnStack taskAddr k := by
  obtain ⟨k₀, k, hboot, hrun, hcount⟩ : ∃ k₀ k, kernelBoot taskAddr 0 0 = .ok k₀ ∧
      Run (kernelStep taskAddr) StackOk k₀ [.execve "bin/ls" 0] k ∧ k.sched.tasks.count = 3 :=
    ⟨_, _, rfl, .cons trivial rfl (.nil _), rfl⟩
  exact ⟨k₀, k, hboot, hrun, kernel_stack_run taskAddr hboot hrun
    (hcount ▸ placed_taskAddr (by decide))⟩

/-- The shell forks: the child runs with `rsp0` at its `kernel_rsp` field. -/
theorem fork_stack_not_own :
    ∃ k₀ k, kernelBoot taskAddr 0 0 = .ok k₀ ∧
      Run (kernelStep taskAddr) (fun _ _ => True) k₀ [.fork "" 0 0] k ∧
      StackPlaced taskAddr k.sched.tasks.count ∧ ¬ OwnStack taskAddr k := by
  obtain ⟨k₀, k, hboot, hrun, hcount, hcur, hrsp0⟩ : ∃ k₀ k, kernelBoot taskAddr 0 0 = .ok k₀ ∧
      Run (kernelStep taskAddr) (fun _ _ => True) k₀ [.fork "" 0 0] k ∧ k.sched.tasks.count = 3 ∧
      k.sched.currentRunningTask = 2 ∧ k.rsp0 = taskAddr 2 + kernelRspOffset :=
    ⟨_, _, rfl, .cons trivial rfl (.nil _), rfl, rfl, rfl⟩
  refine ⟨k₀, k, hboot, hrun, hcount ▸ placed_taskAddr (by decide), ?_⟩
  intro hown
  have := hown.rsp0
  rw [hrsp0, hcur] at this
  exact absurd this (by decide)

end Sbunix
