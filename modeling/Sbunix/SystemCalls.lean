import Sbunix.Interrupts

/-!
# The system-call interface

A system call is made with `int $0x80`, by one of the inline stubs of `include/syscall.h`. The CPU
pushes the return frame on the kernel stack, `isr_syscall` pushes nine registers on top of it, and
the C code reads them as a `struct isr_regs`: the number of the call from `rax` and its parameters
from `rdi`, `rsi` and `rdx`. The result is stored in the slot of `rax`.

The three stubs put their arguments in different registers. `syscall_abi_iff` says when they are the
ones the kernel reads.
-/

namespace Sbunix

open Lib

/-! ## Traps -/

/-- What a trap saves and `iretq` restores, beside the registers that the entry code saves. -/
structure UserRegs where
  reg : Reg → UInt64
  rip : UInt64
  cs : UInt64
  rflags : UInt64
  ss : UInt64

/-- The return frame, from `rip` upwards. -/
def UserRegs.frame (u : UserRegs) : List UInt64 := [u.rip, u.cs, u.rflags, u.reg .rsp, u.ss]

/-- A trap from user mode: the CPU takes the stack from `tss.rsp0`, aligns it to 16 bytes and pushes
the return frame. -/
def trap (rsp0 : UInt64) (u : UserRegs) (m : Mem) : Cpu :=
  let c : Cpu := ⟨Function.update u.reg .rsp (rsp0 &&& 0xFFFFFFFFFFFFFFF0), m⟩
  ((((c.pushWord u.ss).pushWord (u.reg .rsp)).pushWord u.rflags).pushWord u.cs).pushWord u.rip

/-- `iretq`. -/
def iretq (c : Cpu) : UserRegs :=
  let word (i : Nat) : UInt64 := read64 c.mem (c.sp + 8 * UInt64.ofNat i).toNat
  ⟨Function.update c.reg .rsp (word 3), word 0, word 1, word 2, word 4⟩

theorem trap_spec (rsp0 : UInt64) (u : UserRegs) (m : Mem) :
    (∀ g, g ≠ .rsp → (trap rsp0 u m).reg g = u.reg g) ∧
      (trap rsp0 u m).sp = (rsp0 &&& 0xFFFFFFFFFFFFFFF0) - 40 ∧
      StackAt (trap rsp0 u m).mem (trap rsp0 u m).sp u.frame := by
  refine ⟨?_, ?_, ?_⟩
  · intro g hg
    simp only [trap, Cpu.pushWord, Cpu.setReg, Function.update_of_ne hg]
  · simp only [trap, Cpu.pushWord, Cpu.setReg, Cpu.sp, Function.update_self]
    grind
  · unfold trap
    have hlen : ∀ ws : List UInt64, ws.length ≤ 5 → ws.length < 2 ^ 61 - 1 := by omega
    refine StackAt.push _ ?_ (hlen _ (by simp))
    refine StackAt.push _ ?_ (hlen _ (by simp))
    refine StackAt.push _ ?_ (hlen _ (by simp))
    refine StackAt.push _ ?_ (hlen _ (by simp))
    exact StackAt.push _ trivial (show ([] : List UInt64).length < 2 ^ 61 - 1 by decide)

theorem iretq_spec {c : Cpu} {u : UserRegs} (h : StackAt c.mem c.sp u.frame) :
    (iretq c).frame = u.frame ∧ ∀ g, g ≠ .rsp → (iretq c).reg g = c.reg g := by
  have hword : ∀ {i w}, u.frame[i]? = some w →
      read64 c.mem (c.sp + 8 * UInt64.ofNat i).toNat = w := h.get
  refine ⟨?_, ?_⟩
  · simp only [UserRegs.frame, iretq, Function.update_self, hword (i := 0) rfl, hword (i := 1) rfl,
      hword (i := 2) rfl, hword (i := 3) rfl, hword (i := 4) rfl]
  · intro g hg
    exact Function.update_of_ne hg _ _

/-! ## The C side -/

/-- The offsets of the fields of `struct isr_regs` that the handler uses. -/
def isrRegsRsi : UInt64 := 16

def isrRegsRdx : UInt64 := 32

def isrRegsRax : UInt64 := 56

def isrRegsRdi : UInt64 := 64

/-- A field of the `struct isr_regs` at `regs`. -/
def isrField (c : Cpu) (regs offset : UInt64) : UInt64 := read64 c.mem (regs + offset).toNat

/-- The number and the parameters of a system call. -/
structure SyscallParams where
  number : UInt64
  par1 : UInt64
  par2 : UInt64
  par3 : UInt64

/-- What `syscall_handler` passes to `syscall_caller`, with `regs` in `rdi`. -/
def syscallParams (c : Cpu) : SyscallParams :=
  ⟨isrField c (c.reg .rdi) isrRegsRax, isrField c (c.reg .rdi) isrRegsRdi,
    isrField c (c.reg .rdi) isrRegsRsi, isrField c (c.reg .rdi) isrRegsRdx⟩

/-- `syscall_handler`, where `caller` is `syscall_caller`: its result, and the machine when it
returns. -/
def syscallHandler (caller : SyscallParams → Cpu → UInt64 × Cpu) (c : Cpu) : Cpu :=
  let regs := c.reg .rdi
  let (returnValue, c) := caller (syscallParams c) c
  { c with mem := write64 c.mem (regs + isrRegsRax).toNat returnValue }

section

variable {caller : SyscallParams → Cpu → UInt64 × Cpu} {c : Cpu} {f : Reg → UInt64}
  {ws : List UInt64}

/-- The handler finds the pushed registers at the fields of their names. -/
theorem syscallParams_spec (h : StackAt c.mem (c.reg .rdi) (pushedRegs.reverse.map f ++ ws)) :
    syscallParams c = ⟨f .rax, f .rdi, f .rsi, f .rdx⟩ := by
  have hfield : ∀ {i w}, (pushedRegs.reverse.map f ++ ws)[i]? = some w →
      isrField c (c.reg .rdi) (8 * UInt64.ofNat i) = w := h.get
  rw [syscallParams, show isrField c _ isrRegsRax = _ from hfield (i := 7) rfl,
    show isrField c _ isrRegsRdi = _ from hfield (i := 8) rfl,
    show isrField c _ isrRegsRsi = _ from hfield (i := 2) rfl,
    show isrField c _ isrRegsRdx = _ from hfield (i := 4) rfl]

/-- The slot of `rax` is the seventh word. -/
theorem set_rax_slot (f : Reg → UInt64) (ws : List UInt64) (v : UInt64) :
    (pushedRegs.reverse.map f ++ ws).set 7 v =
      pushedRegs.reverse.map (Function.update f .rax v) ++ ws := by
  simp [pushedRegs, Function.update]

/-- The handler leaves the result in the slot of `rax`. -/
theorem syscallHandler_spec (habi : ObeysAbi 14 (fun c' => (caller (syscallParams c) c').2) c)
    (hdi : c.reg .rdi = c.sp) (hlen : ws.length = 5)
    (h : StackAt c.mem c.sp (pushedRegs.reverse.map f ++ ws)) :
    (syscallHandler caller c).sp = c.sp ∧
      StackAt (syscallHandler caller c).mem c.sp
        (pushedRegs.reverse.map (Function.update f .rax (caller (syscallParams c) c).1) ++ ws) := by
  have hwords : (pushedRegs.reverse.map f ++ ws).length = 14 := by
    rw [List.length_append, List.length_map, hlen]
    rfl
  have hkept := habi.frame _ (by omega) h
  refine ⟨habi.reg .rsp (by decide), ?_⟩
  rw [← set_rax_slot]
  have hset := hkept.set (caller (syscallParams c) c).1 (i := 7) (by omega) (by omega)
  rw [show c.sp + 8 * UInt64.ofNat 7 = c.reg .rdi + isrRegsRax by rw [hdi]; rfl] at hset
  exact hset

/-- `isr_syscall` passes the registers of the user to the handler and restores all nine, `rax` to
the result. -/
theorem isrSyscall_spec (habi : ObeysAbi 14 (fun c' => (caller (syscallParams c) c').2) c)
    (rsp0 : UInt64) (u : UserRegs) (m : Mem) (hc : c = runCode id saveCode (trap rsp0 u m))
    {u' : UserRegs}
    (hu' : u' = iretq (runCode (syscallHandler caller) isrSyscall (trap rsp0 u m))) :
    syscallParams c = ⟨u.reg .rax, u.reg .rdi, u.reg .rsi, u.reg .rdx⟩ ∧
      u'.reg .rax = (caller (syscallParams c) c).1 ∧
      (∀ g ∈ pushedRegs, g ≠ .rax → u'.reg g = u.reg g) ∧ u'.frame = u.frame := by
  obtain ⟨hreg, -, hframe⟩ := trap_spec rsp0 u m
  obtain ⟨-, hsp, hdi, hstack⟩ := saveCode_spec (h := id) hframe (by simp [UserRegs.frame])
  have hrun : runCode (syscallHandler caller) isrSyscall (trap rsp0 u m) =
      runCode (syscallHandler caller) restoreCode (syscallHandler caller c) := by
    rw [isrSyscall_eq, runCode_append, runCode_append, hc]
    rfl
  have hne : ∀ g ∈ pushedRegs, g ≠ .rsp := by decide
  rw [List.map_congr_left fun g hg => hreg g (hne g (List.mem_reverse.1 hg))] at hstack
  rw [← hc] at hsp hdi hstack
  rw [← hsp] at hstack hdi
  obtain ⟨hsp', hstack'⟩ := syscallHandler_spec habi hdi rfl hstack
  rw [← hsp'] at hstack'
  obtain ⟨hval, -, hsp₃, hrest⟩ := restoreCode_spec (h := syscallHandler caller) hstack'
  rw [← hrun] at hval hsp₃ hrest
  rw [← hsp₃] at hrest
  obtain ⟨hframe', hregs⟩ := iretq_spec hrest
  rw [← hu'] at hframe' hregs
  refine ⟨?_, ?_, ?_, hframe'⟩
  · rw [← hdi] at hstack
    exact syscallParams_spec hstack
  · rw [hregs .rax (by decide), hval .rax (by decide), Function.update_self]
  · intro g hg hne'
    rw [hregs g (hne g hg), hval g hg, Function.update_of_ne hne']

end

/-! ## The stubs of user programs -/

/-- The inline stubs of `include/syscall.h`. For `syscall_1` the compiler chooses the registers of
the operands. -/
inductive SyscallStub where
  | syscall1 (n a1 : Reg)
  | syscall2
  | syscall3

namespace SyscallStub

/-- The number of the call, from its operand. -/
def number (r : Reg → UInt64) : SyscallStub → UInt64
  | .syscall1 n _ => r n
  | .syscall2 => r .rax
  | .syscall3 => r .rax

/-- The arguments, from their operands. -/
def args (r : Reg → UInt64) : SyscallStub → List UInt64
  | .syscall1 _ a1 => [r a1]
  | .syscall2 => [r .rbx, r .rcx]
  | .syscall3 => [r .rdi, r .rsi, r .rdx]

/-- The registers at the `int $0x80`: `syscall_1` moves its operands to `rax` and `rbx`, one after
the other. -/
def enter (u : UserRegs) : SyscallStub → UserRegs
  | .syscall1 n a1 =>
    let r := Function.update u.reg .rax (u.reg n)
    { u with reg := Function.update r .rbx (r a1) }
  | .syscall2 => u
  | .syscall3 => u

/-- The arguments are in the registers that the kernel reads. -/
def Passes (r : Reg → UInt64) : SyscallStub → Prop
  | .syscall1 _ a1 => r .rdi = r a1
  | .syscall2 => r .rdi = r .rbx ∧ r .rsi = r .rcx
  | .syscall3 => True

end SyscallStub

/-- The state in which `isr_syscall` calls the handler. -/
def callState (rsp0 : UInt64) (m : Mem) (stub : SyscallStub) (u : UserRegs) : Cpu :=
  runCode id saveCode (trap rsp0 (stub.enter u) m)

/-- The registers of the user after the `iretq`. -/
def returned (caller : SyscallParams → Cpu → UInt64 × Cpu) (rsp0 : UInt64) (m : Mem)
    (stub : SyscallStub) (u : UserRegs) : UserRegs :=
  iretq (runCode (syscallHandler caller) isrSyscall (trap rsp0 (stub.enter u) m))

/-- The call reaches `syscall_caller` with the number and the arguments of the stub, and comes back
with its result in `rax` and the other pushed registers as they were. -/
structure AbiAgrees (caller : SyscallParams → Cpu → UInt64 × Cpu) (rsp0 : UInt64) (m : Mem)
    (stub : SyscallStub) (u : UserRegs) : Prop where
  number : (syscallParams (callState rsp0 m stub u)).number = stub.number u.reg
  args : stub.args u.reg <+: [(syscallParams (callState rsp0 m stub u)).par1,
    (syscallParams (callState rsp0 m stub u)).par2, (syscallParams (callState rsp0 m stub u)).par3]
  result : (returned caller rsp0 m stub u).reg .rax =
    (caller (syscallParams (callState rsp0 m stub u)) (callState rsp0 m stub u)).1
  restored : ∀ g ∈ pushedRegs, g ≠ .rax →
    (returned caller rsp0 m stub u).reg g = (stub.enter u).reg g

/-- **System-call ABI.** For every user register state and every `syscall_caller` that keeps to the
calling convention in the call, the stub and the kernel agree exactly if the arguments are in `rdi`,
`rsi` and `rdx`. -/
theorem syscall_abi_iff (caller : SyscallParams → Cpu → UInt64 × Cpu) (rsp0 : UInt64) (m : Mem)
    (stub : SyscallStub) (u : UserRegs)
    (habi : ObeysAbi 14 (fun c => (caller (syscallParams (callState rsp0 m stub u)) c).2)
      (callState rsp0 m stub u)) :
    AbiAgrees caller rsp0 m stub u ↔ stub.Passes u.reg := by
  obtain ⟨hparams, hresult, hrestored, -⟩ :=
    isrSyscall_spec habi rsp0 (stub.enter u) m (c := callState rsp0 m stub u) rfl rfl
  have hnumber : (stub.enter u).reg .rax = stub.number u.reg := by
    cases stub <;> simp [SyscallStub.enter, SyscallStub.number, Function.update]
  have hargs : stub.args u.reg <+:
      [(stub.enter u).reg .rdi, (stub.enter u).reg .rsi, (stub.enter u).reg .rdx] ↔
        stub.Passes u.reg := by
    cases stub <;>
      simp [SyscallStub.enter, SyscallStub.args, SyscallStub.Passes, Function.update, eq_comm]
  constructor
  · intro hagree
    have hprefix := hagree.args
    rw [hparams] at hprefix
    exact hargs.1 hprefix
  · intro hpass
    refine ⟨?_, ?_, hresult, hrestored⟩
    · rw [hparams]
      exact hnumber
    · rw [hparams]
      exact hargs.2 hpass

/-- A `syscall_caller` that returns its first parameter. -/
def echoCaller (p : SyscallParams) (c : Cpu) : UInt64 × Cpu := (p.par1, c)

theorem obeysAbi_echoCaller (p : SyscallParams) (c : Cpu) :
    ObeysAbi 14 (fun c => (echoCaller p c).2) c :=
  ⟨fun _ _ => rfl, fun _ _ h => h⟩

/-- User registers with 7 in `rbx`, and nothing else. -/
def sevenInRbx : UserRegs := ⟨fun g => if g = .rbx then 7 else 0, 0, 0, 0, 0⟩

theorem syscall3_agrees : AbiAgrees echoCaller 0x1000 (fun _ => 0) .syscall3 sevenInRbx :=
  (syscall_abi_iff echoCaller 0x1000 (fun _ => 0) .syscall3 sevenInRbx
    (obeysAbi_echoCaller _ _)).2 trivial

/-- `syscall_1(0, 7)` reaches the kernel with the contents of `rdi`. -/
theorem syscall1_misses_argument :
    (∀ p c, ObeysAbi 14 (fun c => (echoCaller p c).2) c) ∧
      ¬ AbiAgrees echoCaller 0x1000 (fun _ => 0) (.syscall1 .rax .rbx) sevenInRbx := by
  refine ⟨obeysAbi_echoCaller, ?_⟩
  intro hagree
  have hargs := hagree.args
  obtain ⟨hparams, -⟩ := isrSyscall_spec (obeysAbi_echoCaller _ _) 0x1000
    ((SyscallStub.syscall1 .rax .rbx).enter sevenInRbx) (fun _ => 0)
    (c := callState 0x1000 (fun _ => 0) (.syscall1 .rax .rbx) sevenInRbx) rfl rfl
  rw [hparams] at hargs
  exact absurd hargs (by decide)

end Sbunix
