import Sbunix.Lib.Machine

/-!
# Interrupt entry

The entry stubs of `sys/isr.s`. On an interrupt the CPU pushes the return frame (`rip`, `cs`,
`rflags`, `rsp`, `ss`), on a page fault an error code as well, and runs the stub; the stub calls a C
function and returns with `iretq`.

`isr_syscall` and `page_fault_handler` push nine registers around the call (`saveCall_spec`), the
other two stubs push none. `interrupt_transparent_iff` says which registers of the interrupted code
depend on the C function.
-/

namespace Sbunix

open Lib

/-! ## The stubs -/

/-- `isr_timer`, up to the `iretq`. -/
def isrTimer : List Instr := [.callq]

def isrKeyboard : List Instr := [.callq]

/-- `isr_syscall`, up to the `iretq`. -/
def isrSyscall : List Instr :=
  [.pushq .rdi, .pushq .rax, .pushq .rbx, .pushq .rcx, .pushq .rdx, .pushq .rbp, .pushq .rsi,
    .pushq .r8, .pushq .r9, .movq .rsp .rdi, .callq, .popq .r9, .popq .r8, .popq .rsi, .popq .rbp,
    .popq .rdx, .popq .rcx, .popq .rbx, .popq .rax, .popq .rdi]

/-- `page_fault_handler`, up to the `iretq`. The error code is dropped. -/
def pageFaultHandler : List Instr :=
  [.pushq .rdi, .pushq .rax, .pushq .rbx, .pushq .rcx, .pushq .rdx, .pushq .rbp, .pushq .rsi,
    .pushq .r8, .pushq .r9, .movq .rsp .rdi, .callq, .popq .r9, .popq .r8, .popq .rsi, .popq .rbp,
    .popq .rdx, .popq .rcx, .popq .rbx, .popq .rax, .popq .rdi, .addq 8 .rsp]

/-- The registers that `isr_syscall` and `page_fault_handler` push, in this order. -/
def pushedRegs : List Reg := [.rdi, .rax, .rbx, .rcx, .rdx, .rbp, .rsi, .r8, .r9]

def saveCode : List Instr := pushedRegs.map .pushq ++ [.movq .rsp .rdi]

def restoreCode : List Instr := pushedRegs.reverse.map .popq

theorem isrSyscall_eq : isrSyscall = saveCode ++ [.callq] ++ restoreCode := rfl

theorem pageFaultHandler_eq :
    pageFaultHandler = saveCode ++ [.callq] ++ restoreCode ++ [.addq 8 .rsp] := rfl

/-! ## Saving and restoring -/

section

variable {h : Cpu → Cpu} {c : Cpu} {ws : List UInt64}

/-- At the call nine registers are on the stack, `rdi` points to them and all other registers are as
they were. -/
theorem saveCode_spec (hws : StackAt c.mem c.sp ws) (hlen : ws.length ≤ 6) :
    (∀ g, g ≠ .rsp → g ≠ .rdi → (runCode h saveCode c).reg g = c.reg g) ∧
      (runCode h saveCode c).sp = c.sp - 72 ∧
      (runCode h saveCode c).reg .rdi = c.sp - 72 ∧
      StackAt (runCode h saveCode c).mem (c.sp - 72) (pushedRegs.reverse.map c.reg ++ ws) := by
  obtain ⟨hreg, hsp, hstack⟩ := pushes_spec (h := h) (show .rsp ∉ pushedRegs by decide) hws
    (by rw [show pushedRegs.length = 9 from rfl]; omega)
  replace hsp : (runCode h (pushedRegs.map .pushq) c).sp = c.sp - 72 := hsp
  rw [saveCode, runCode_append]
  set c₁ := runCode h (pushedRegs.map .pushq) c
  have hmov : runCode h [.movq .rsp .rdi] c₁ = c₁.setReg .rdi c₁.sp := rfl
  have hsp' : (c₁.setReg .rdi c₁.sp).sp = c.sp - 72 := by
    rw [Cpu.sp, reg_setReg_of_ne _ _ (by decide)]
    exact hsp
  rw [hmov]
  refine ⟨?_, hsp', ?_, ?_⟩
  · intro g hg hdi
    rw [reg_setReg_of_ne _ _ hdi]
    exact hreg g hg
  · rw [reg_setReg_self]
    exact hsp
  · rw [List.map_reverse]
    rwa [hsp] at hstack

/-- The nine registers get the values `val` that the call leaves on the stack, the other ones are
those of the C function. -/
theorem restoreCode_spec {val : Reg → UInt64}
    (hws : StackAt c.mem c.sp (pushedRegs.reverse.map val ++ ws)) :
    (∀ g ∈ pushedRegs, (runCode h restoreCode c).reg g = val g) ∧
      (∀ g, g ∉ pushedRegs → g ≠ .rsp → (runCode h restoreCode c).reg g = c.reg g) ∧
      (runCode h restoreCode c).sp = c.sp + 72 ∧
      StackAt (runCode h restoreCode c).mem (c.sp + 72) ws := by
  obtain ⟨hval, hother, hrest⟩ :=
    pops_spec (h := h) (show .rsp ∉ pushedRegs.reverse by decide) (by decide) hws
  obtain ⟨hsp, hmem⟩ := pops_sp h c (show .rsp ∉ pushedRegs.reverse by decide)
  replace hsp : (runCode h restoreCode c).sp = c.sp + 72 := hsp
  refine ⟨?_, ?_, hsp, ?_⟩
  · intro g hg
    exact hval g (List.mem_reverse.2 hg)
  · intro g hg
    exact hother g fun hmem => hg (List.mem_reverse.1 hmem)
  · rw [← hsp, show (runCode h restoreCode c).mem = c.mem from hmem]
    exact hrest

end

/-! ## Transparency -/

/-- The stubs that interrupt other code. -/
inductive EntryStub where
  | isrTimer | isrKeyboard | pageFaultHandler

namespace EntryStub

def code : EntryStub → List Instr
  | .isrTimer => Sbunix.isrTimer
  | .isrKeyboard => Sbunix.isrKeyboard
  | .pageFaultHandler => Sbunix.pageFaultHandler

/-- What the CPU pushes after the return frame. -/
def pushed (errorCode : UInt64) : EntryStub → List UInt64
  | .isrTimer | .isrKeyboard => []
  | .pageFaultHandler => [errorCode]

/-- The registers that the stub saves around the call. -/
def saved : EntryStub → List Reg
  | .isrTimer | .isrKeyboard => []
  | .pageFaultHandler => pushedRegs

/-- The number of words on the stack when the C function is called, from the return frame on. -/
def frameWords (errorCode : UInt64) (frame : List UInt64) (stub : EntryStub) : Nat :=
  stub.saved.length + (stub.pushed errorCode).length + frame.length

def atCall (c : Cpu) : EntryStub → Cpu
  | .isrTimer | .isrKeyboard => c
  | .pageFaultHandler => runCode id saveCode c

end EntryStub

/-- The stub comes to its `iretq` with the registers of the interrupted code, and `rsp` at the
return frame. -/
structure Transparent (stub : EntryStub) (errorCode : UInt64) (frame : List UInt64) (h : Cpu → Cpu)
    (c : Cpu) : Prop where
  reg : ∀ g, g ≠ .rsp → (runCode h stub.code c).reg g = c.reg g
  rsp : (runCode h stub.code c).sp = c.sp + 8 * UInt64.ofNat (stub.pushed errorCode).length
  frame : StackAt (runCode h stub.code c).mem (runCode h stub.code c).sp frame

section

variable {h : Cpu → Cpu} {c : Cpu} {frame : List UInt64}

theorem transparent_call_iff {stub : EntryStub} {errorCode : UInt64} (hcode : stub.code = [.callq])
    (hpushed : stub.pushed errorCode = []) (hcall : stub.atCall c = c) (hsaved : stub.saved = [])
    (hframe : StackAt c.mem c.sp (stub.pushed errorCode ++ frame))
    (habi : ObeysAbi (stub.frameWords errorCode frame) h (stub.atCall c)) :
    Transparent stub errorCode frame h c ↔
      ∀ g ∈ callerSaved, g ∉ stub.saved → (h (stub.atCall c)).reg g = c.reg g := by
  rw [hcall] at habi
  have hrun : runCode h stub.code c = h c := by
    rw [hcode]
    rfl
  have hsp : (h c).sp = c.sp := habi.reg .rsp (by decide)
  rw [hpushed, List.nil_append] at hframe
  rw [hcall, hsaved]
  constructor
  · intro htrans g hg _
    rw [← hrun]
    refine htrans.reg g ?_
    rintro rfl
    exact absurd hg (by decide)
  · intro hkeep
    refine ⟨?_, ?_, ?_⟩
    · intro g _
      rw [hrun]
      by_cases hg : g ∈ calleeSaved
      · exact habi.reg g hg
      · exact hkeep g (mem_callerSaved_iff.2 hg) (by simp)
    · rw [hrun, hsp, hpushed]
      exact (UInt64.add_zero _).symm
    · rw [hrun, hsp]
      exact habi.frame frame (by rw [EntryStub.frameWords]; omega) hframe

/-- `page_fault_handler` restores what it saves, and drops the error code. -/
theorem pageFault_spec {errorCode : UInt64} (hlen : frame.length = 5)
    (hframe : StackAt c.mem c.sp (errorCode :: frame))
    (habi : ObeysAbi 15 h (runCode id saveCode c)) :
    (∀ g ∈ pushedRegs, (runCode h pageFaultHandler c).reg g = c.reg g) ∧
      (∀ g, g ∉ pushedRegs → g ≠ .rsp →
        (runCode h pageFaultHandler c).reg g = (h (runCode id saveCode c)).reg g) ∧
      (runCode h pageFaultHandler c).sp = c.sp + 8 ∧
      StackAt (runCode h pageFaultHandler c).mem (c.sp + 8) frame := by
  have hsave : runCode h saveCode c = runCode id saveCode c := rfl
  obtain ⟨-, hsp₁, -, hstack₁⟩ := saveCode_spec (h := id) hframe (by rw [List.length_cons]; omega)
  set c₁ := runCode id saveCode c
  have hsp₂ : (h c₁).sp = c.sp - 72 := (habi.reg .rsp (by decide)).trans hsp₁
  have hstack₂ : StackAt (h c₁).mem (h c₁).sp
      (pushedRegs.reverse.map c.reg ++ errorCode :: frame) := by
    rw [hsp₂, ← hsp₁]
    refine habi.frame _ ?_ (hsp₁ ▸ hstack₁)
    rw [List.length_append, List.length_map, List.length_cons, hlen]
    decide
  obtain ⟨hval, hother, hsp₃, hstack₃⟩ := restoreCode_spec (h := h) hstack₂
  set c₃ := runCode h restoreCode (h c₁)
  have hback : c.sp - 72 + 72 = c.sp := UInt64.sub_add_cancel _ _
  rw [hsp₂, hback] at hsp₃ hstack₃
  have hrun : runCode h pageFaultHandler c = c₃.setReg .rsp (c₃.sp + 8) := by
    rw [pageFaultHandler_eq, runCode_append, runCode_append, runCode_append, hsave]
    rfl
  have hne : ∀ g ∈ pushedRegs, g ≠ .rsp := by decide
  rw [hrun]
  refine ⟨?_, ?_, ?_, hstack₃.2⟩
  · intro g hg
    rw [reg_setReg_of_ne _ _ (hne g hg)]
    exact hval g hg
  · intro g hg hgsp
    rw [reg_setReg_of_ne _ _ hgsp]
    exact hother g hg hgsp
  · rw [Cpu.sp, reg_setReg_self, hsp₃]

end

/-- **Interrupt transparency.** A stub comes to its `iretq` with the registers of the interrupted
code exactly if the C function, called at this interrupt, keeps the caller-saved registers that
the stub does not save. -/
theorem interrupt_transparent_iff (stub : EntryStub) (errorCode : UInt64) (frame : List UInt64)
    (h : Cpu → Cpu) (c : Cpu) (hlen : frame.length = 5)
    (hframe : StackAt c.mem c.sp (stub.pushed errorCode ++ frame))
    (habi : ObeysAbi (stub.frameWords errorCode frame) h (stub.atCall c)) :
    Transparent stub errorCode frame h c ↔
      ∀ g ∈ callerSaved, g ∉ stub.saved → (h (stub.atCall c)).reg g = c.reg g := by
  cases stub with
  | isrTimer => exact transparent_call_iff rfl rfl rfl rfl hframe habi
  | isrKeyboard => exact transparent_call_iff rfl rfl rfl rfl hframe habi
  | pageFaultHandler =>
    replace habi : ObeysAbi (9 + 1 + frame.length) h (runCode id saveCode c) := habi
    rw [hlen] at habi
    obtain ⟨hsaved, hother, hsp, hstack⟩ := pageFault_spec hlen hframe habi
    constructor
    · intro htrans g hg hns
      have hne : g ≠ .rsp := by
        rintro rfl
        exact absurd hg (by decide)
      exact (hother g hns hne).symm.trans (htrans.reg g hne)
    · intro hkeep
      refine ⟨?_, hsp, hsp.symm ▸ hstack⟩
      intro g hg
      by_cases hmem : g ∈ pushedRegs
      · exact hsaved g hmem
      · refine (hother g hmem hg).trans ?_
        by_cases hcallee : g ∈ calleeSaved
        · -- The stub itself changes only `rsp` and `rdi` before the call.
          have hdi : g ≠ .rdi := fun hdi => hmem (by rw [hdi]; decide)
          exact (habi.reg g hcallee).trans
            ((saveCode_spec hframe (by rw [List.length_append, hlen]; rfl)).1 g hg hdi)
        · exact hkeep g (mem_callerSaved_iff.2 hcallee) hmem

def clobber (rs : List Reg) (c : Cpu) : Cpu :=
  { c with reg := fun g => if g ∈ rs then 0 else c.reg g }

theorem obeysAbi_clobber {rs : List Reg} (hrs : ∀ g ∈ rs, g ∉ calleeSaved) (n : Nat) (c : Cpu) :
    ObeysAbi n (clobber rs) c := by
  refine ⟨?_, fun _ _ h => h⟩
  intro g hg
  exact if_neg fun hmem => hrs g hmem hg

def interruptedCpu : Cpu := ⟨fun _ => 1, fun _ => 0⟩

theorem page_fault_transparent :
    Transparent .pageFaultHandler 0 [0, 0, 0, 0, 0]
      (clobber [.rax, .rcx, .rdx, .rsi, .rdi, .r8, .r9]) interruptedCpu := by
  refine (interrupt_transparent_iff .pageFaultHandler 0 [0, 0, 0, 0, 0] _ interruptedCpu rfl ?_
    (obeysAbi_clobber (by decide) _ _)).2 ?_
  · exact ⟨rfl, rfl, rfl, rfl, rfl, rfl, trivial⟩
  · decide

theorem timer_loses_rax :
    ObeysAbi 5 (clobber [.rax]) interruptedCpu ∧
      StackAt interruptedCpu.mem interruptedCpu.sp
        (EntryStub.isrTimer.pushed 0 ++ [0, 0, 0, 0, 0]) ∧
      ¬ Transparent .isrTimer 0 [0, 0, 0, 0, 0] (clobber [.rax]) interruptedCpu := by
  refine ⟨obeysAbi_clobber (by decide) 5 _, ⟨rfl, rfl, rfl, rfl, rfl, trivial⟩, ?_⟩
  intro htrans
  exact absurd (htrans.reg .rax (by decide)) (by decide)

end Sbunix
