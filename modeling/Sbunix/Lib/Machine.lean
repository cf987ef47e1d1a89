import Sbunix.Lib.Memory

/-!
# Registers and a stack in memory

The part of an x86-64 machine that entry code is written for: the general-purpose registers, a
byte-addressed memory and the instructions that move words between registers and the stack. A
`callq` stands for a whole call, up to the return.

`StackAt m a ws` says that the words `ws` are on the stack from `a` upwards. A push conses a word
(`StackAt.push`), so that `pushes_spec` and `pops_spec` treat blocks of pushes and pops as
operations on lists.
-/

namespace Lib

/-! ## The machine -/

/-- The general-purpose registers. -/
inductive Reg where
  | rax | rbx | rcx | rdx | rsi | rdi | rbp | rsp
  | r8 | r9 | r10 | r11 | r12 | r13 | r14 | r15
deriving DecidableEq, Repr

/-- Registers and memory. -/
structure Cpu where
  reg : Reg → UInt64
  mem : Mem

namespace Cpu

/-- The stack pointer. -/
abbrev sp (c : Cpu) : UInt64 := c.reg .rsp

def setReg (c : Cpu) (r : Reg) (v : UInt64) : Cpu := { c with reg := Function.update c.reg r v }

/-- Push a word. -/
def pushWord (c : Cpu) (v : UInt64) : Cpu :=
  { c.setReg .rsp (c.sp - 8) with mem := write64 c.mem (c.sp - 8).toNat v }

/-- `pushq r`. -/
def pushq (c : Cpu) (r : Reg) : Cpu := c.pushWord (c.reg r)

/-- `popq r`. -/
def popq (c : Cpu) (r : Reg) : Cpu :=
  (c.setReg .rsp (c.sp + 8)).setReg r (read64 c.mem c.sp.toNat)

end Cpu

/-- The instructions of entry code. -/
inductive Instr where
  | pushq (r : Reg)
  | popq (r : Reg)
  | movq (src dst : Reg)
  | addq (n : UInt64) (dst : Reg)
  | callq

/-- One instruction, where `h` is the effect of the function that is called. -/
def exec (h : Cpu → Cpu) (c : Cpu) : Instr → Cpu
  | .pushq r => c.pushq r
  | .popq r => c.popq r
  | .movq src dst => c.setReg dst (c.reg src)
  | .addq n dst => c.setReg dst (c.reg dst + n)
  | .callq => h c

/-- A block of straight-line code. -/
def runCode (h : Cpu → Cpu) (code : List Instr) (c : Cpu) : Cpu := code.foldl (exec h) c

theorem runCode_append (h : Cpu → Cpu) (is js : List Instr) (c : Cpu) :
    runCode h (is ++ js) c = runCode h js (runCode h is c) := List.foldl_append

/-- The registers that a function leaves as they were, in the System V calling convention. -/
def calleeSaved : List Reg := [.rbx, .rbp, .rsp, .r12, .r13, .r14, .r15]

/-- The registers that a function may change. -/
def callerSaved : List Reg := [.rax, .rcx, .rdx, .rsi, .rdi, .r8, .r9, .r10, .r11]

theorem mem_callerSaved_iff {r : Reg} : r ∈ callerSaved ↔ r ∉ calleeSaved := by
  cases r <;> decide

/-! ## The stack as a list -/

/-- The words `ws` are in memory from `a` upwards. -/
def StackAt (m : Mem) (a : UInt64) : List UInt64 → Prop
  | [] => True
  | w :: ws => read64 m a.toNat = w ∧ StackAt m (a + 8) ws

/-- A function, called in the state `c`, obeys the calling convention and leaves the `n` words on
top of the stack of its caller alone. -/
structure ObeysAbi (n : Nat) (h : Cpu → Cpu) (c : Cpu) : Prop where
  reg : ∀ r ∈ calleeSaved, (h c).reg r = c.reg r
  frame : ∀ ws, ws.length ≤ n → StackAt c.mem c.sp ws → StackAt (h c).mem c.sp ws

/-- Words at different places of a stack of less than 2^61 words do not overlap. -/
theorem words_disjoint (a : UInt64) {k : Nat} (hk : 0 < k) (hlt : k < 2 ^ 61) :
    a.toNat + 8 ≤ (a + 8 * UInt64.ofNat k).toNat ∨
      (a + 8 * UInt64.ofNat k).toNat + 8 ≤ a.toNat := by
  have h8 : (8 : UInt64).toNat = 8 := rfl
  have hsize := a.toNat_lt
  rw [UInt64.toNat_add, UInt64.toNat_mul, h8,
    toNat_ofNat_of_lt (by omega)]
  omega

/-- A store below the stack. -/
theorem StackAt.store {m : Mem} {a : UInt64} {k : Nat} {ws : List UInt64} (v : UInt64)
    (h : StackAt m (a + 8 * UInt64.ofNat k) ws) (hk : 0 < k) (hlt : k + ws.length < 2 ^ 61) :
    StackAt (write64 m a.toNat v) (a + 8 * UInt64.ofNat k) ws := by
  induction ws generalizing k with
  | nil => trivial
  | cons w ws ih =>
    rw [List.length_cons] at hlt
    have hnext : a + 8 * UInt64.ofNat k + 8 = a + 8 * UInt64.ofNat (k + 1) := by
      rw [UInt64.ofNat_add, UInt64.mul_add, UInt64.add_assoc]
      rfl
    refine ⟨?_, ?_⟩
    · rw [read64_write64_of_disjoint m v (words_disjoint a hk (by omega))]
      exact h.1
    · rw [hnext]
      exact ih (hnext ▸ h.2) (by omega) (by omega)

theorem StackAt.push {m : Mem} {a : UInt64} {ws : List UInt64} (v : UInt64) (h : StackAt m a ws)
    (hlt : ws.length < 2 ^ 61 - 1) : StackAt (write64 m (a - 8).toNat v) (a - 8) (v :: ws) := by
  have ha : a - 8 + 8 = a := UInt64.sub_add_cancel a 8
  refine ⟨read64_write64 m _ v, ?_⟩
  have h1 : a - 8 + 8 * UInt64.ofNat 1 = a := ha
  have hstore := StackAt.store (a := a - 8) (k := 1) v (h1.symm ▸ h) (by decide) (by omega)
  rw [h1] at hstore
  rwa [ha]

theorem add_word_succ (a : UInt64) (i : Nat) :
    a + 8 * UInt64.ofNat (i + 1) = a + 8 + 8 * UInt64.ofNat i := by
  rw [UInt64.ofNat_add]
  grind

/-- The `i`-th word of a stack. -/
theorem StackAt.get {m : Mem} {a w : UInt64} {ws : List UInt64} (h : StackAt m a ws) {i : Nat}
    (hi : ws[i]? = some w) : read64 m (a + 8 * UInt64.ofNat i).toNat = w := by
  induction ws generalizing a i with
  | nil => simp at hi
  | cons u ws ih =>
    cases i with
    | zero =>
      obtain rfl : u = w := by simpa using hi
      rw [show a + 8 * UInt64.ofNat 0 = a from UInt64.add_zero a]
      exact h.1
    | succ i =>
      rw [add_word_succ]
      exact ih h.2 (by simpa using hi)

/-- A store to the `i`-th word of a stack. -/
theorem StackAt.set {m : Mem} {a : UInt64} {ws : List UInt64} (v : UInt64) (h : StackAt m a ws)
    {i : Nat} (hi : i < ws.length) (hlt : ws.length < 2 ^ 61) :
    StackAt (write64 m (a + 8 * UInt64.ofNat i).toNat v) a (ws.set i v) := by
  induction ws generalizing a i with
  | nil => simp at hi
  | cons u ws ih =>
    rw [List.length_cons] at hi hlt
    cases i with
    | zero =>
      rw [show a + 8 * UInt64.ofNat 0 = a from UInt64.add_zero a]
      have h1 : a + 8 * UInt64.ofNat 1 = a + 8 := rfl
      exact ⟨read64_write64 m _ v, h1 ▸ StackAt.store (k := 1) v (h1 ▸ h.2) (by decide) (by omega)⟩
    | succ i =>
      refine ⟨?_, ?_⟩
      · rw [read64_write64_of_disjoint m v (words_disjoint a (by omega) (by omega)).symm]
        exact h.1
      · rw [add_word_succ]
        exact ih h.2 (by omega) (by omega)

/-- Words that are the same in two memories. -/
theorem StackAt.agree {m m' : Mem} {a : UInt64} {ws : List UInt64} (h : StackAt m a ws)
    (hfits : a.toNat + 8 * ws.length ≤ 2 ^ 64)
    (hm : ∀ x, a.toNat ≤ x → x < a.toNat + 8 * ws.length → m' x = m x) : StackAt m' a ws := by
  induction ws generalizing a with
  | nil => trivial
  | cons w ws ih =>
    rw [List.length_cons] at hfits hm
    have hword : read64 m' a.toNat = read64 m a.toNat :=
      read64_congr fun k hk => hm _ (by omega) (by omega)
    refine ⟨hword.trans h.1, ?_⟩
    cases ws with
    | nil => trivial
    | cons w' ws =>
      rw [List.length_cons] at hfits hm
      have hnext : (a + 8).toNat = a.toNat + 8 := by
        rw [UInt64.toNat_add, show (8 : UInt64).toNat = 8 from rfl]
        omega
      refine ih h.2 ?_ ?_
      · rw [hnext, List.length_cons]
        omega
      · intro x hlo hhi
        rw [hnext, List.length_cons] at hhi
        exact hm x (by omega) (by omega)

/-! ## Blocks of pushes and pops -/

section

variable {h : Cpu → Cpu} {c : Cpu} {rs : List Reg} {ws : List UInt64}

theorem reg_setReg_of_ne (c : Cpu) {r g : Reg} (v : UInt64) (hne : g ≠ r) :
    (c.setReg r v).reg g = c.reg g := Function.update_of_ne hne _ _

theorem reg_setReg_self (c : Cpu) (r : Reg) (v : UInt64) : (c.setReg r v).reg r = v :=
  Function.update_self _ _ _

theorem reg_pushq_of_ne (c : Cpu) (r : Reg) {g : Reg} (hne : g ≠ .rsp) :
    (c.pushq r).reg g = c.reg g := reg_setReg_of_ne c _ hne

theorem sp_popq (c : Cpu) {r : Reg} (hne : .rsp ≠ r) : (c.popq r).sp = c.sp + 8 := by
  rw [Cpu.popq, Cpu.sp, reg_setReg_of_ne _ _ hne, reg_setReg_self]

/-- A block of pushes puts the registers on the stack, the last one on top. -/
theorem pushes_spec (hrsp : .rsp ∉ rs) (hws : StackAt c.mem c.sp ws)
    (hlt : rs.length + ws.length < 2 ^ 61) :
    (∀ g, g ≠ .rsp → (runCode h (rs.map .pushq) c).reg g = c.reg g) ∧
      (runCode h (rs.map .pushq) c).sp = c.sp - 8 * UInt64.ofNat rs.length ∧
      StackAt (runCode h (rs.map .pushq) c).mem (runCode h (rs.map .pushq) c).sp
        ((rs.map c.reg).reverse ++ ws) := by
  induction rs generalizing c ws with
  | nil => exact ⟨fun _ _ => rfl, (UInt64.sub_zero _).symm, hws⟩
  | cons r rs ih =>
    rw [List.length_cons] at hlt
    have hr : r ≠ .rsp := fun hr => hrsp (by simp [hr])
    have hpush : StackAt (c.pushq r).mem (c.pushq r).sp (c.reg r :: ws) := hws.push _ (by omega)
    obtain ⟨hreg, hsp, hstack⟩ := ih (c := c.pushq r) (fun hmem => hrsp (by simp [hmem])) hpush
      (by rw [List.length_cons]; omega)
    have hmap : rs.map (c.pushq r).reg = rs.map c.reg := by
      refine List.map_congr_left ?_
      intro g hg
      exact reg_pushq_of_ne c r fun hgr => hrsp (by simp [← hgr, hg])
    refine ⟨?_, ?_, ?_⟩
    · intro g hg
      exact (hreg g hg).trans (reg_pushq_of_ne c r hg)
    · have hlen : UInt64.ofNat (rs.length + 1) = UInt64.ofNat rs.length + 1 := UInt64.ofNat_add _ _
      refine hsp.trans ?_
      show c.sp - 8 - 8 * UInt64.ofNat rs.length = c.sp - 8 * UInt64.ofNat (rs.length + 1)
      rw [hlen]
      grind
    · rw [hmap] at hstack
      rw [List.map_cons, List.map_cons, List.reverse_cons, List.append_assoc]
      exact hstack

theorem sp_pushWord (c : Cpu) (v : UInt64) : (c.pushWord v).sp = c.sp - 8 :=
  reg_setReg_self c .rsp (c.sp - 8)

/-- Pushing words changes the bytes below the stack pointer only, as far down as the words go. -/
theorem mem_pushWords {x : Nat} (hfits : 8 * ws.length ≤ c.sp.toNat)
    (hx : x < c.sp.toNat - 8 * ws.length ∨ c.sp.toNat ≤ x) :
    (ws.foldl Cpu.pushWord c).mem x = c.mem x := by
  induction ws generalizing c with
  | nil => rfl
  | cons v ws ih =>
    rw [List.length_cons] at hfits hx
    have hsp : (c.sp - 8).toNat = c.sp.toNat - 8 := by
      have hlt := c.sp.toNat_lt
      rw [UInt64.toNat_sub, show (8 : UInt64).toNat = 8 from rfl]
      omega
    have hrest := ih (c := c.pushWord v) (by rw [sp_pushWord, hsp]; omega)
      (by rw [sp_pushWord, hsp]; omega)
    refine hrest.trans ?_
    exact write64_of_not_mem _ _ (by rw [hsp]; omega)

/-- A block of pushes pushes the registers as they are in front of it. -/
theorem runCode_pushq (hrsp : .rsp ∉ rs) :
    runCode h (rs.map .pushq) c = (rs.map c.reg).foldl Cpu.pushWord c := by
  induction rs generalizing c with
  | nil => rfl
  | cons r rs ih =>
    have hmap : rs.map (c.pushq r).reg = rs.map c.reg := by
      refine List.map_congr_left ?_
      intro g hg
      exact reg_pushq_of_ne c r fun hgr => hrsp (by simp [← hgr, hg])
    have hrest := ih (c := c.pushq r) fun hmem => hrsp (by simp [hmem])
    rw [hmap] at hrest
    exact hrest

/-- A block of pops moves the stack pointer and leaves the memory. -/
theorem pops_sp (h : Cpu → Cpu) (c : Cpu) (hrsp : .rsp ∉ rs) :
    (runCode h (rs.map .popq) c).sp = c.sp + 8 * UInt64.ofNat rs.length ∧
      (runCode h (rs.map .popq) c).mem = c.mem := by
  induction rs generalizing c with
  | nil => exact ⟨(UInt64.add_zero _).symm, rfl⟩
  | cons r rs ih =>
    have hr : Reg.rsp ≠ r := fun hr => hrsp (by simp [← hr])
    obtain ⟨hsp, hmem⟩ := ih (c.popq r) fun hmem => hrsp (by simp [hmem])
    refine ⟨?_, hmem⟩
    rw [List.length_cons, add_word_succ, ← sp_popq c hr]
    exact hsp

/-- A block of pops takes the registers off the stack, and leaves all other registers. -/
theorem pops_spec {val : Reg → UInt64} (hrsp : .rsp ∉ rs) (hnodup : rs.Nodup)
    (hws : StackAt c.mem c.sp (rs.map val ++ ws)) :
    (∀ g ∈ rs, (runCode h (rs.map .popq) c).reg g = val g) ∧
      (∀ g, g ∉ rs → g ≠ .rsp → (runCode h (rs.map .popq) c).reg g = c.reg g) ∧
      StackAt c.mem (runCode h (rs.map .popq) c).sp ws := by
  induction rs generalizing c with
  | nil => exact ⟨by simp, fun _ _ _ => rfl, hws⟩
  | cons r rs ih =>
    obtain ⟨hnot, hnodup⟩ := List.nodup_cons.1 hnodup
    have hr : Reg.rsp ≠ r := fun hr => hrsp (by simp [← hr])
    have hstack : StackAt (c.popq r).mem (c.popq r).sp (rs.map val ++ ws) := by
      rw [sp_popq c hr]
      exact hws.2
    obtain ⟨hval, hother, hrest⟩ :=
      ih (c := c.popq r) (fun hmem => hrsp (by simp [hmem])) hnodup hstack
    refine ⟨?_, ?_, hrest⟩
    · intro g hg
      rcases List.mem_cons.1 hg with rfl | hg
      · refine (hother g hnot (Ne.symm hr)).trans ?_
        rw [Cpu.popq, reg_setReg_self]
        exact hws.1
      · exact hval g hg
    · intro g hg hgsp
      rw [List.mem_cons, not_or] at hg
      refine (hother g hg.2 hgsp).trans ?_
      rw [Cpu.popq, reg_setReg_of_ne _ _ hg.1, reg_setReg_of_ne _ _ hgsp]

end

end Lib
