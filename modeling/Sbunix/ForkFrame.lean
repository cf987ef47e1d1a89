import Sbunix.SystemCalls

/-!
# The register frame of a fork

A fork starts the child from a frame on the child's kernel stack. `copyParentToChild` builds it from
the frame of the parent's system call, one slot higher, with 0 for `rax` and below it the address
behind the call in `isr_syscall`. `switchTask` loads the child's `kernel_rsp`, pops six registers
and returns to that address, where the epilogue of `isr_syscall` and `iretq` take the frame off the
stack.

`fork_register_frame` follows a parent's registers along this way. Between the steps other code
may change all memory but the frame.
-/

namespace Sbunix

open Lib

/-! ## `struct Task` in memory -/

/-- The offsets of `kstack`, `task_rip` and `kernel_rsp` in `struct Task`. -/
def kstackOffset : UInt64 := 312

def taskRipOffset : UInt64 := 4432

def kernelRspOffset : UInt64 := 4448

/-- `sizeof(Task)`. -/
def sizeofTask : Nat := 4456

/-- `&task->kstack[i]`. -/
def kstackAddr (task : UInt64) (i : Nat) : UInt64 := task + kstackOffset + 8 * UInt64.ofNat i

/-- A task where `kmalloc` puts it. -/
structure TaskAt (task : UInt64) : Prop where
  aligned : task.toNat % 4096 = 0
  fits : task.toNat + sizeofTask ≤ 2 ^ 64

/-- Two tasks that do not overlap. -/
def TasksApart (a b : UInt64) : Prop :=
  a.toNat + sizeofTask ≤ b.toNat ∨ b.toNat + sizeofTask ≤ a.toNat

/-! ## The child's stack -/

/-- A word that `copyParentToChild` stores: a word of the parent's stack, or a given one. -/
inductive KstackWord where
  | parent (i : Fin 512)
  | word (v : UInt64)

def KstackWord.value (m : Mem) (parent : UInt64) : KstackWord → UInt64
  | .parent i => read64 m (kstackAddr parent i).toNat
  | .word v => v

/-- `child->kstack[i] = ...`. -/
def copyWord (parent child : UInt64) (m : Mem) (row : Nat × KstackWord) : Mem :=
  write64 m (kstackAddr child row.1).toNat (row.2.value m parent)

/-- The assignments to `child->kstack`, in their order. -/
def forkWords (isrSyscall : UInt64) : List (Nat × KstackWord) :=
  [(511, .parent 510), (510, .parent 509), (509, .parent 508), (508, .parent 507),
    (507, .parent 506), (506, .parent 505), (505, .word 0), (504, .parent 503), (503, .parent 502),
    (502, .parent 501), (501, .parent 500), (500, .parent 499), (499, .parent 498),
    (498, .parent 497), (497, .word (0x13 + isrSyscall))]

/-- The end of `copyParentToChild`: the child's kernel stack, `task_rip` and `kernel_rsp`. -/
def copyParentToChild (isrSyscall parent child : UInt64) (m : Mem) : Mem :=
  let m := (forkWords isrSyscall).foldl (copyWord parent child) m
  let m := write64 m (child + taskRipOffset).toNat (0x13 + isrSyscall)
  write64 m (child + kernelRspOffset).toNat (kstackAddr child (511 - 20))

/-- `switchTask` from the load of `to->kernel_rsp` on to the `retq`, with other registers `r`. -/
def switchIn (toTask : UInt64) (r : Reg → UInt64) (m : Mem) : Cpu :=
  runCode id [.popq .rdi, .popq .rsi, .popq .rdx, .popq .rcx, .popq .rbx, .popq .rax]
    ⟨Function.update r .rsp (read64 m (toTask + kernelRspOffset).toNat), m⟩

/-- `retq`: the address it jumps to, and the machine there. -/
def retq (c : Cpu) : UInt64 × Cpu := (read64 c.mem c.sp.toNat, c.setReg .rsp (c.sp + 8))

/-! ## Slots of a kernel stack -/

section

variable {task parent child : UInt64} {m m' : Mem}

theorem kstackAddr_succ (task : UInt64) (i : Nat) :
    kstackAddr task (i + 1) = kstackAddr task i + 8 := by
  rw [kstackAddr, kstackAddr, UInt64.ofNat_add]
  grind

theorem kstackAddr_add (task : UInt64) (i j : Nat) :
    kstackAddr task (i + j) = kstackAddr task i + 8 * UInt64.ofNat j := by
  rw [kstackAddr, kstackAddr, UInt64.ofNat_add]
  grind

theorem kstackAddr_toNat (h : TaskAt task) {i : Nat} (hi : i ≤ 512) :
    (kstackAddr task i).toNat = task.toNat + 312 + 8 * i := by
  have hfits := h.fits
  have h8 : (8 : UInt64).toNat = 8 := rfl
  have h312 : kstackOffset.toNat = 312 := rfl
  have hofNat : (UInt64.ofNat i).toNat = i :=
    toNat_ofNat_of_lt (by omega)
  rw [kstackAddr, UInt64.toNat_add, UInt64.toNat_add, UInt64.toNat_mul, h8, h312, hofNat]
  unfold sizeofTask at hfits
  omega

/-- The top of a kernel stack is aligned as the CPU wants it. -/
theorem kstackTop_aligned (h : TaskAt task) :
    kstackAddr task 511 &&& 0xFFFFFFFFFFFFFFF0 = kstackAddr task 511 := by
  have halign := h.aligned
  have hmask : (0xFFFFFFFFFFFFFFF0 : UInt64).toNat = (2 ^ (64 - 4) - 1) * 2 ^ 4 := rfl
  refine UInt64.toNat_inj.1 ?_
  rw [UInt64.toNat_and, hmask, nat_and_highMask (UInt64.toNat_lt _), kstackAddr_toNat h (by decide)]
  omega

/-- The words of the parent's stack do not change while the child's is written. -/
theorem value_copyWord (hp : TaskAt parent) (hc : TaskAt child) (hapart : TasksApart parent child)
    {i : Nat} (hi : i < 512) (v : UInt64) (w : KstackWord) :
    w.value (write64 m (kstackAddr child i).toNat v) parent = w.value m parent := by
  cases w with
  | word _ => rfl
  | parent j =>
    have hj := j.isLt
    refine read64_write64_of_disjoint m v ?_
    rw [kstackAddr_toNat hp (by omega), kstackAddr_toNat hc (by omega)]
    unfold TasksApart sizeofTask at hapart
    omega

/-- The slots of the rows are `i - 1`, `i - 2` and so on. -/
def Descends : Nat → List (Nat × KstackWord) → Prop
  | _, [] => True
  | i, row :: rows => row.1 + 1 = i ∧ Descends row.1 rows

/-- Writing slot after slot downwards is pushing. -/
theorem copyWords_spec (hp : TaskAt parent) (hc : TaskAt child) (hapart : TasksApart parent child)
    {rows : List (Nat × KstackWord)} {i : Nat} {ws : List UInt64} (hrows : Descends i rows)
    (hi : i ≤ 512) (hlen : i + ws.length ≤ 512) (hws : StackAt m (kstackAddr child i) ws) :
    StackAt (rows.foldl (copyWord parent child) m) (kstackAddr child (i - rows.length))
      ((rows.map fun row => row.2.value m parent).reverse ++ ws) := by
  induction rows generalizing i m ws with
  | nil => exact hws
  | cons row rows ih =>
    obtain ⟨rfl, hrows⟩ := hrows
    have hpush := hws.push (row.2.value m parent) (by omega)
    have haddr : kstackAddr child (row.1 + 1) - 8 = kstackAddr child row.1 := by
      rw [kstackAddr_succ, UInt64.add_sub_cancel]
    rw [haddr] at hpush
    have hrest := ih hrows (by omega) (by rw [List.length_cons]; omega) hpush
    have hvalues : (rows.map fun r => r.2.value (write64 m (kstackAddr child row.1).toNat
        (row.2.value m parent)) parent) = rows.map fun r => r.2.value m parent :=
      List.map_congr_left fun r _ => value_copyWord hp hc hapart (by omega) _ _
    rw [hvalues] at hrest
    rw [List.map_cons, List.reverse_cons, List.append_assoc, List.length_cons,
      show row.1 + 1 - (rows.length + 1) = row.1 - rows.length by omega]
    exact hrest

/-- The child's frame, made of the parent's. -/
theorem forkWords_values {u : UserRegs} (isrSyscall : UInt64)
    (h : StackAt m (kstackAddr parent 497) (pushedRegs.reverse.map u.reg ++ u.frame)) :
    ((forkWords isrSyscall).map fun row => row.2.value m parent).reverse =
      (0x13 + isrSyscall) ::
        (pushedRegs.reverse.map (Function.update u.reg .rax 0) ++ u.frame) := by
  have hget : ∀ {i w}, (pushedRegs.reverse.map u.reg ++ u.frame)[i]? = some w →
      read64 m (kstackAddr parent (497 + i)).toNat = w := by
    intro i w hi
    rw [kstackAddr_add]
    exact h.get hi
  have hparent : ∀ {i : Fin 512} {j w}, i.val = 497 + j →
      (pushedRegs.reverse.map u.reg ++ u.frame)[j]? = some w →
        (KstackWord.parent i).value m parent = w := by
    intro i j w hi hj
    rw [KstackWord.value, hi]
    exact hget hj
  simp only [forkWords, List.map_cons, List.map_nil, List.reverse_cons, List.reverse_nil,
    List.nil_append, List.cons_append, KstackWord.value.eq_2,
    hparent (i := 497) (j := 0) rfl rfl, hparent (i := 498) (j := 1) rfl rfl,
    hparent (i := 499) (j := 2) rfl rfl, hparent (i := 500) (j := 3) rfl rfl,
    hparent (i := 501) (j := 4) rfl rfl, hparent (i := 502) (j := 5) rfl rfl,
    hparent (i := 503) (j := 6) rfl rfl, hparent (i := 505) (j := 8) rfl rfl,
    hparent (i := 506) (j := 9) rfl rfl, hparent (i := 507) (j := 10) rfl rfl,
    hparent (i := 508) (j := 11) rfl rfl, hparent (i := 509) (j := 12) rfl rfl,
    hparent (i := 510) (j := 13) rfl rfl]
  simp [pushedRegs, UserRegs.frame, Function.update]

theorem offset_toNat (h : TaskAt task) {o : UInt64} (ho : o.toNat < sizeofTask) :
    (task + o).toNat = task.toNat + o.toNat := by
  have hfits := h.fits
  rw [UInt64.toNat_add]
  omega

/-- What `copyParentToChild` leaves for `switchTask`. -/
theorem copyParentToChild_spec (hp : TaskAt parent) (hc : TaskAt child)
    (hapart : TasksApart parent child) {u : UserRegs} (isrSyscall : UInt64)
    (h : StackAt m (kstackAddr parent 497) (pushedRegs.reverse.map u.reg ++ u.frame)) :
    StackAt (copyParentToChild isrSyscall parent child m) (kstackAddr child 497)
        ((0x13 + isrSyscall) ::
          (pushedRegs.reverse.map (Function.update u.reg .rax 0) ++ u.frame)) ∧
      read64 (copyParentToChild isrSyscall parent child m) (child + kernelRspOffset).toNat =
        kstackAddr child 491 := by
  have hcopied := copyWords_spec hp hc hapart (m := m)
    (show Descends 512 (forkWords isrSyscall) by simp [Descends, forkWords]) (by decide)
    (show 512 + ([] : List UInt64).length ≤ 512 by decide) trivial
  rw [List.append_nil, forkWords_values isrSyscall h] at hcopied
  have hfits := hc.fits
  unfold sizeofTask at hfits
  have hkrsp : (child + kernelRspOffset).toNat = child.toNat + 4448 :=
    offset_toNat hc (by decide)
  have hrip : (child + taskRipOffset).toNat = child.toNat + 4432 :=
    offset_toNat hc (by decide)
  have haddr := kstackAddr_toNat hc (i := 497) (by decide)
  refine ⟨?_, read64_write64 _ _ _⟩
  refine hcopied.agree ?_ ?_
  · show (kstackAddr child 497).toNat + 8 * 15 ≤ 2 ^ 64
    omega
  · intro x hlo hhi
    replace hhi : x < (kstackAddr child 497).toNat + 8 * 15 := hhi
    unfold copyParentToChild
    rw [write64_of_not_mem _ _ (by omega), write64_of_not_mem _ _ (by omega)]

/-- The frame of a system call on the kernel stack of its task. -/
theorem callFrame_spec (hp : TaskAt parent) (u : UserRegs) (m : Mem) :
    StackAt (runCode id saveCode (trap (kstackAddr parent 511) u m)).mem (kstackAddr parent 497)
      (pushedRegs.reverse.map u.reg ++ u.frame) := by
  obtain ⟨hreg, hsp, hframe⟩ := trap_spec (kstackAddr parent 511) u m
  obtain ⟨-, -, -, hstack⟩ := saveCode_spec (h := id) hframe (by simp [UserRegs.frame])
  have hne : ∀ g ∈ pushedRegs, g ≠ .rsp := by decide
  rw [List.map_congr_left fun g hg => hreg g (hne g (List.mem_reverse.1 hg)), hsp,
    kstackTop_aligned hp] at hstack
  have haddr : kstackAddr parent 511 - 40 - 72 = kstackAddr parent 497 := by
    rw [kstackAddr_add parent 497 14]
    grind
  rwa [haddr] at hstack

/-- The six pops of `switchTask`. -/
theorem switchIn_spec (r : Reg → UInt64)
    (hrsp : read64 m (child + kernelRspOffset).toNat = kstackAddr child 491) :
    (switchIn child r m).sp = kstackAddr child 497 ∧ (switchIn child r m).mem = m := by
  obtain ⟨hsp, hmem⟩ := pops_sp id
    ⟨Function.update r .rsp (read64 m (child + kernelRspOffset).toNat), m⟩
    (show Reg.rsp ∉ [.rdi, .rsi, .rdx, .rcx, .rbx, .rax] by decide)
  refine ⟨hsp.trans ?_, hmem⟩
  show Function.update r .rsp (read64 m (child + kernelRspOffset).toNat) .rsp + _ = _
  rw [Function.update_self, hrsp, kstackAddr_add child 491 6]
  rfl

theorem retq_spec {c : Cpu} {ra : UInt64} {ws : List UInt64} (h : StackAt c.mem c.sp (ra :: ws)) :
    (retq c).1 = ra ∧ StackAt (retq c).2.mem (retq c).2.sp ws := by
  refine ⟨h.1, ?_⟩
  show StackAt c.mem ((c.setReg .rsp (c.sp + 8)).reg .rsp) ws
  rw [reg_setReg_self]
  exact h.2

end

/-- **Fork register frame.** Let a task trap with `u` in its user registers. Let the C code leave
the frame alone until it is copied (`m₁`), and the kernel stack of the child until the switch
(`m₂`). The child then returns to the address behind the call in `isr_syscall`, and resumes in user
mode with the registers of the parent, but 0 in `rax`. -/
theorem fork_register_frame (isrSyscall parent child : UInt64) (u : UserRegs) (m m₁ m₂ : Mem)
    (r : Reg → UInt64) (hp : TaskAt parent) (hc : TaskAt child) (hapart : TasksApart parent child)
    (hcall : ∀ x, (kstackAddr parent 497).toNat ≤ x → x < (kstackAddr parent 511).toNat →
      m₁ x = (runCode id saveCode (trap (kstackAddr parent 511) u m)).mem x)
    (hswitch : ∀ x, (kstackAddr child 0).toNat ≤ x → x < child.toNat + sizeofTask →
      m₂ x = copyParentToChild isrSyscall parent child m₁ x) :
    (retq (switchIn child r m₂)).1 = 0x13 + isrSyscall ∧
      (∀ g ∈ pushedRegs, g ≠ .rax →
        (iretq (runCode id restoreCode (retq (switchIn child r m₂)).2)).reg g = u.reg g) ∧
      (iretq (runCode id restoreCode (retq (switchIn child r m₂)).2)).reg .rax = 0 ∧
      (iretq (runCode id restoreCode (retq (switchIn child r m₂)).2)).frame = u.frame := by
  have hfits := hp.fits
  have hfits' := hc.fits
  unfold sizeofTask at hfits hfits' hswitch
  have ha : ∀ {i}, i ≤ 512 → (kstackAddr parent i).toNat = parent.toNat + 312 + 8 * i :=
    kstackAddr_toNat hp
  have hb : ∀ {i}, i ≤ 512 → (kstackAddr child i).toNat = child.toNat + 312 + 8 * i :=
    kstackAddr_toNat hc
  -- The frame is still there when it is copied.
  have hframe : StackAt m₁ (kstackAddr parent 497) (pushedRegs.reverse.map u.reg ++ u.frame) := by
    refine (callFrame_spec hp u m).agree ?_ ?_
    · show (kstackAddr parent 497).toNat + 8 * 14 ≤ 2 ^ 64
      rw [ha (by decide)]
      omega
    · intro x hlo hhi
      replace hhi : x < (kstackAddr parent 497).toNat + 8 * 14 := hhi
      refine hcall x hlo ?_
      rw [ha (by decide)] at hhi ⊢
      omega
  obtain ⟨hstack, hrsp⟩ := copyParentToChild_spec hp hc hapart isrSyscall hframe
  -- And so is the child's when it is switched to.
  have hstack₂ : StackAt m₂ (kstackAddr child 497) ((0x13 + isrSyscall) ::
      (pushedRegs.reverse.map (Function.update u.reg .rax 0) ++ u.frame)) := by
    refine hstack.agree ?_ ?_
    · show (kstackAddr child 497).toNat + 8 * 15 ≤ 2 ^ 64
      rw [hb (by decide)]
      omega
    · intro x hlo hhi
      replace hhi : x < (kstackAddr child 497).toNat + 8 * 15 := hhi
      rw [hb (by decide)] at hlo hhi
      exact hswitch x (by rw [hb (by decide)]; omega) (by omega)
  have hrsp₂ : read64 m₂ (child + kernelRspOffset).toNat = kstackAddr child 491 := by
    have hkrsp : (child + kernelRspOffset).toNat = child.toNat + 4448 := offset_toNat hc (by decide)
    rw [← hrsp]
    refine read64_congr ?_
    intro k hk
    exact hswitch _ (by rw [hb (by decide), hkrsp]; omega) (by rw [hkrsp]; omega)
  obtain ⟨hsp₂, hmem₂⟩ := switchIn_spec r hrsp₂
  rw [← hsp₂] at hstack₂
  obtain ⟨hra, hrest⟩ := retq_spec (c := switchIn child r m₂) (hmem₂.symm ▸ hstack₂)
  obtain ⟨hval, -, hsp, hframe'⟩ := restoreCode_spec (h := id) hrest
  rw [← hsp] at hframe'
  obtain ⟨hiret, hregs⟩ := iretq_spec hframe'
  have hne : ∀ g ∈ pushedRegs, g ≠ .rsp := by decide
  refine ⟨hra, ?_, ?_, hiret⟩
  · intro g hg hrax
    rw [hregs g (hne g hg), hval g hg, Function.update_of_ne hrax]
  · rw [hregs .rax (by decide), hval .rax (by decide), Function.update_self]

/-- A parent at `0x300000` and a child at `0x302000`. -/
theorem fork_register_frame_first :
    let u : UserRegs := ⟨fun _ => 5, 0x400100, 0x2B, 0x202, 0x23⟩
    let m₁ := (runCode id saveCode (trap (kstackAddr 0x300000 511) u fun _ => 0)).mem
    let m₂ := copyParentToChild 0xffffffff80203c57 0x300000 0x302000 m₁
    (retq (switchIn 0x302000 (fun _ => 0) m₂)).1 = 0xffffffff80203c6a ∧
      (iretq (runCode id restoreCode (retq (switchIn 0x302000 (fun _ => 0) m₂)).2)).frame =
        [0x400100, 0x2B, 0x202, 5, 0x23] := by
  intro u m₁ m₂
  obtain ⟨hra, -, -, hframe⟩ := fork_register_frame 0xffffffff80203c57 0x300000 0x302000 u
    (fun _ => 0) m₁ m₂ (fun _ => 0) ⟨by decide, by decide⟩ ⟨by decide, by decide⟩
    (Or.inl (by decide)) (fun _ _ _ => rfl) fun _ _ _ => rfl
  exact ⟨hra, hframe⟩

end Sbunix
