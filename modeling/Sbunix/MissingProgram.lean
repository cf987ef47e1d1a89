import Sbunix.Archive
import Sbunix.Execve
import Sbunix.Switching

/-!
# Programs that are not there

`execve` looks for `bin` in the file name and calls the kernel with the rest of the name.
`sanexecve` ends its caller and makes a task before `elf_load` looks for the file, and `elf_load`
does not report that there is none. The new task is entered at whatever its `task_rip` holds
(`execve_missing`).

So a call fails, with nothing changed, when `execve` itself rejects the name: this is when the byte
four places behind the `b` of `bin` ends a string.

Tasks and memory are modelled apart. A `Machine` has both, and `Machine.sanexecve` does what
`sanexecve` does to each.
-/

namespace Sbunix

open Lib Lib.Radix

structure Machine where
  sched : Sched
  kernel : Kernel

/-- What becomes of a call: it returns to its caller, or a task is entered in user mode. -/
inductive Outcome where
  | returned (code : Int)
  | entered (task : Nat) (entry : Entry)

def taskNameOf (binary : List UInt8) : String :=
  String.ofList ((binary.takeWhile (· ≠ 0)).map fun c => Char.ofNat c.toNat)

/-- `sanexecve`. It ends in `jump_to_user_mode`, which enters the new task with the fields that
`elf_load` has left in it. -/
def Machine.sanexecve (t : Tarfs) (image : Mem) (binary : List UInt8) (argv : UInt64)
    (newProc : Entry) (kernelRsp : UInt64) (m : Machine) : Except Fault (Outcome × Machine) := do
  let addr ← getElfHeader t binary
  let (newProc, kernel) ← (Execve.sanexecve image (UInt64.ofNat addr) argv newProc m.kernel).elim
    (.error .nullDeref) .ok
  let sched ← Sbunix.sanexecve (taskNameOf binary) kernelRsp m.sched
  .ok (.entered sched.currentRunningTask newProc, ⟨sched, kernel⟩)

/-- The loop of `execve`, on the bytes from `filename` on up to the end of the memory that the
caller can read. It does not stop at the end of the string, and `temp` does not become `NULL` before
a read faults. -/
def findBin : List UInt8 → Option (List UInt8)
  | [] => none
  | c :: temp =>
    if c = 98 ∧ temp[0]? = some 105 ∧ temp[1]? = some 110 then some (c :: temp) else findBin temp

/-- The end of `execve`, with what the system call comes to. -/
def Outcome.libc : Outcome → Outcome
  | .returned code => .returned (if -125 ≤ code ∧ code < 0 then -1 else code)
  | .entered task entry => .entered task entry

/-- `execve` of the C library. -/
def execve (t : Tarfs) (image : Mem) (filename : List UInt8) (argv : UInt64) (newProc : Entry)
    (kernelRsp : UInt64) (m : Machine) : Except Fault (Outcome × Machine) :=
  match findBin filename with
  | none => .error .outOfBounds
  | some temp =>
    if temp[0]? = some 0 ∨ temp[4]? = some 0 then .ok (.returned (-1), m)
    else if temp.length ≤ 4 then .error .outOfBounds
    else (m.sanexecve t image temp argv newProc kernelRsp).map (Prod.map Outcome.libc id)

/-- The call has failed, and it has changed nothing: it returns a negative number to its caller, who
is still the running task, and the tasks, their identifiers and `CR3` are the same. -/
def FailedCleanly (m : Machine) (r : Except Fault (Outcome × Machine)) : Prop :=
  ∃ code m', r = .ok (.returned code, m') ∧ code < 0 ∧
    m'.sched.currentRunningTask = m.sched.currentRunningTask ∧
    m'.sched.state m.sched.currentRunningTask = .running ∧ m'.sched.tasks = m.sched.tasks ∧
    m'.sched.processID = m.sched.processID ∧ m'.kernel.cr3 = m.kernel.cr3

section

variable {t : Tarfs} {image : Mem} {filename temp s : List UInt8} {argv kernelRsp : UInt64}
  {newProc : Entry} {m : Machine} {k : Kernel} {root : Nat} {fl : List Nat}

/-! ## The C library -/

theorem findBin_head (h : findBin filename = some temp) : temp[0]? = some 98 := by
  induction filename with
  | nil => cases h
  | cons c filename ih =>
    rw [findBin] at h
    split_ifs at h with hbin
    · obtain rfl := Option.some.inj h
      exact congrArg some hbin.1
    · exact ih h

theorem findBin_ne_nil (h : findBin filename = some temp) (hs : IsStr temp s) : s ≠ [] := by
  rintro rfl
  have hhead := isStr_nil_iff_getElem?.1 hs
  rw [findBin_head h] at hhead
  exact absurd (Option.some.inj hhead) (by decide)

theorem execve_rejected (hfind : findBin filename = some temp) (hend : temp[4]? = some 0) :
    execve t image filename argv newProc kernelRsp m = .ok (.returned (-1), m) := by
  simp only [execve, hfind]
  rw [if_pos (Or.inr hend)]

theorem execve_unreadable (hfind : findBin filename = some temp) (hend : temp[4]? = none) :
    execve t image filename argv newProc kernelRsp m = .error .outOfBounds := by
  simp only [execve, hfind]
  rw [if_neg, if_pos (List.getElem?_eq_none_iff.1 hend)]
  rw [findBin_head hfind, hend]
  decide

theorem execve_called {d : UInt8} (hfind : findBin filename = some temp) (hd : temp[4]? = some d)
    (hne : d ≠ 0) : execve t image filename argv newProc kernelRsp m =
      (m.sanexecve t image temp argv newProc kernelRsp).map (Prod.map Outcome.libc id) := by
  have hlen : ¬ temp.length ≤ 4 := fun hle => by
    rw [List.getElem?_eq_none hle] at hd
    cases hd
  simp only [execve, hfind]
  rw [if_neg, if_neg hlen]
  rw [findBin_head hfind, hd, Option.some_inj, Option.some_inj, not_or]
  exact ⟨by decide, hne⟩

/-! ## The kernel -/

theorem Machine.sanexecve_entered {binary : List UInt8} {r : Outcome} {m' : Machine}
    (h : m.sanexecve t image binary argv newProc kernelRsp = .ok (r, m')) :
    ∃ task entry, r = .entered task entry := by
  obtain ⟨addr, -, h⟩ := bind_eq_ok.1 h
  obtain ⟨⟨entry, kernel⟩, -, h⟩ := bind_eq_ok.1 h
  obtain ⟨sched, -, h⟩ := bind_eq_ok.1 h
  obtain ⟨rfl, -⟩ := Prod.mk.inj (Except.ok.inj h)
  exact ⟨_, _, rfl⟩

theorem length_taskNameOf (hs : IsStr temp s) : (taskNameOf temp).length = s.length := by
  have hnul : 0 ∈ temp := by
    obtain ⟨-, rest, rfl⟩ := hs
    simp
  have htake : temp.takeWhile (· ≠ 0) = s := (isStr_takeWhile hnul).unique hs
  rw [taskNameOf, htake, String.length_ofList, List.length_map]

/-- Without a file the new task keeps its fields, and has a new address space. -/
theorem sanexecve_notFound (image : Mem) (newProc : Entry) {D : Finset (List (Fin 512))}
    (h : Space root D k fl) (hfree : 3 ≤ fl.length) {argc : Nat}
    (hrows : (if argv ≠ 0 then Execve.countRows argv k (2 ^ 28) 0 else some 0) = some argc) :
    ∃ k', Execve.sanexecve image 0 argv newProc k = some (newProc, k') ∧ k'.cr3 ≠ k.cr3 := by
  obtain ⟨f, fl, rfl⟩ := List.exists_cons_of_length_pos (l := fl) (by omega)
  obtain ⟨a, hpop, -, -⟩ := h.paging.free.pageAllocAddr_cons
  obtain ⟨f', fl', hfl, -, hspace⟩ := h.pop hpop
  obtain ⟨-, rfl⟩ := List.cons.inj hfl
  -- The `Task` takes two frames, and the new PML4 the third one.
  have htail := Execve.space_pop hspace
  rw [List.length_cons] at hfree
  obtain ⟨c, fl₁, hfl₁⟩ := List.exists_cons_of_length_pos (l := fl.tail)
    (by rw [List.length_tail]; omega)
  obtain ⟨b, hpop', -, -⟩ := (hfl₁ ▸ htail).paging.free.pageAllocAddr_cons
  have hset : ∃ k₁, setUserAddrSpace k.pop.pop = some (b, k₁) := by
    rw [setUserAddrSpace_eq, hpop', Option.map_some]
    exact ⟨_, rfl⟩
  obtain ⟨k₁, hset⟩ := hset
  obtain ⟨c', fl₂, hfl₂, hnew⟩ := Execve.setUserAddrSpace_space htail hset
  have hload : ∀ (n : Int) k, elfLoad image 0 n argv newProc k = some (newProc, k) :=
    fun n k => if_neg fun hne => hne rfl
  refine ⟨setCR3 b (setCR3 k₁.cr3 (setCR3 b k₁)), ?_, ?_⟩
  · rw [Execve.sanexecve]
    split_ifs at hrows ⊢
    · simp only [hrows, Option.bind_eq_bind, Option.bind_some, Execve.kmalloc_task, hpop,
        Option.map_some, Prod.map, hset, hload]
    · simp only [Option.bind_eq_bind, Option.bind_some, Execve.kmalloc_task, hpop,
        Option.map_some, Prod.map, hset, hload]
  · intro heq
    have hc : c' ∈ f :: fl :=
      List.mem_cons_of_mem f (List.mem_of_mem_tail (hfl₂ ▸ List.mem_cons_self))
    have hne : c' ≠ root := (h.paging.fresh c' hc).ne prefixClosed_allPaths rfl
    have hcr3 : b.toNat = 4096 * root := (congrArg UInt64.toNat heq).trans h.cr3
    have haddr := hnew.addr
    omega

/-- **A program that is not there.** The caller has ended, the new task has been entered with the
fields that were in its memory, and `CR3` is another one. -/
theorem execve_missing (image : Mem) (newProc : Entry) (kernelRsp : UInt64)
    {archive : List UInt8} {es : List Member} {start : Nat} {d : UInt8}
    {D : Finset (List (Fin 512))} {argc : Nat} (after : List UInt8)
    (harch : Archive archive es) (hlen : archive.length < 2 ^ 28) (hstart : start < linkedBelow)
    (hfind : findBin filename = some temp) (hd : temp[4]? = some d) (hne : d ≠ 0)
    (hs : IsStr temp s) (hshort : s.length < 64) (hmissing : ∀ e ∈ es, e.name ≠ s)
    (hlist : WellListed m.sched)
    (hspace : Space root D m.kernel fl) (hfree : 3 ≤ fl.length)
    (hrows : (if argv ≠ 0 then Execve.countRows argv m.kernel (2 ^ 28) 0 else some 0) =
      some argc) :
    ∃ m', execve ⟨start, start + archive.length, archive ++ after⟩ image filename argv newProc
        kernelRsp m = .ok (.entered m.sched.tasks.count newProc, m') ∧
      m'.sched.state m.sched.currentRunningTask = .ended ∧
      m'.sched.currentRunningTask = m.sched.tasks.count ∧
      m'.sched.tasks.count = m.sched.tasks.count + 1 ∧ m'.kernel.cr3 ≠ m.kernel.cr3 := by
  have hnone : ∀ x ∈ located start es, x.1.name ≠ s :=
    fun x hx => hmissing x.1 (mem_of_mem_located hx)
  have haddr : getElfHeader ⟨start, start + archive.length, archive ++ after⟩ temp = .ok 0 := by
    rw [getElfHeader_spec after harch hlen hstart hs (findBin_ne_nil hfind hs),
      List.find?_eq_none.2 fun x hx => by simp [hnone x hx]]
    rfl
  obtain ⟨k', hkernel, hcr3⟩ := sanexecve_notFound image newProc hspace hfree hrows
  have hfits : (taskNameOf temp).length < 64 := by rwa [length_taskNameOf hs]
  obtain ⟨sched, hsched, -, hcur, hcount, hstate⟩ := sanexecve_spec hlist hfits kernelRsp
  refine ⟨⟨sched, k'⟩, ?_, ?_, hcur, hcount, hcr3⟩
  · rw [execve_called hfind hd hne, Machine.sanexecve, haddr, ok_bind, ← hcur]
    rw [show UInt64.ofNat 0 = 0 from rfl, hkernel, Option.elim_some, ok_bind]
    rw [hsched]
    rfl
  · rw [hstate, if_neg (Nat.ne_of_lt hlist.lt_count), if_pos rfl]

end

/-- **Failed calls.** When a task runs, a call fails with nothing changed exactly when the byte four
places behind the `b` of the first `bin` is NUL, whatever the archive has. -/
theorem failed_execve_iff (t : Tarfs) (image : Mem) (filename : List UInt8) (argv : UInt64)
    (newProc : Entry) (kernelRsp : UInt64) (m : Machine)
    (hrunning : m.sched.state m.sched.currentRunningTask = .running) :
    FailedCleanly m (execve t image filename argv newProc kernelRsp m) ↔
      ∃ temp, findBin filename = some temp ∧ temp[4]? = some 0 := by
  constructor
  · rintro ⟨code, m', hok, -⟩
    cases hfind : findBin filename with
    | none =>
      simp only [execve, hfind] at hok
      cases hok
    | some temp =>
      refine ⟨temp, rfl, ?_⟩
      cases hd : temp[4]? with
      | none =>
        rw [execve_unreadable hfind hd] at hok
        cases hok
      | some d =>
        by_contra hne
        rw [execve_called hfind hd fun heq => hne (congrArg some heq)] at hok
        obtain ⟨⟨r, m₁⟩, hcall, heq⟩ := map_eq_ok.1 hok
        obtain ⟨task, entry, rfl⟩ := Machine.sanexecve_entered hcall
        cases (Prod.mk.inj heq).1
  · rintro ⟨temp, hfind, hend⟩
    exact ⟨-1, m, execve_rejected hfind hend, by decide, rfl, hrunning, rfl, rfl, rfl⟩

theorem failed_execve_bind : ∃ s, boot 0 0 = .ok s ∧
    FailedCleanly ⟨s, loaderKernel⟩ (execve ⟨0, 0, []⟩ (fun _ => 0) [98, 105, 110, 100, 0] 0 ⟨0, 0⟩
      0 ⟨s, loaderKernel⟩) :=
  ⟨_, rfl, (failed_execve_iff _ _ _ _ _ _ _ rfl).2 ⟨_, rfl, rfl⟩⟩

/-- The shell executes `bin/zz`, which the archive does not have: the shell has ended, and the new
task is entered at the address that was in its memory. -/
theorem execve_zz : ∃ archive s m', Archive archive [binDirectory, lsFile] ∧
    (∀ e ∈ [binDirectory, lsFile], e.name ≠ [98, 105, 110, 47, 122, 122]) ∧ boot 0 0 = .ok s ∧
    execve ⟨0xffffffff80300000, 0xffffffff80300000 + archive.length, archive ++ []⟩ (fun _ => 0)
      [98, 105, 110, 47, 122, 122, 0] 0 ⟨0xdeadbeef, 0⟩ 0 ⟨s, loaderKernel⟩ =
        .ok (.entered 2 ⟨0xdeadbeef, 0⟩, m') ∧
    s.currentRunningTask = 1 ∧ s.state 1 = .running ∧ m'.sched.state 1 = .ended ∧
    ¬ FailedCleanly ⟨s, loaderKernel⟩
      (execve ⟨0xffffffff80300000, 0xffffffff80300000 + archive.length, archive ++ []⟩ (fun _ => 0)
        [98, 105, 110, 47, 122, 122, 0] 0 ⟨0xdeadbeef, 0⟩ 0 ⟨s, loaderKernel⟩) := by
  obtain ⟨archive, harch, hlen⟩ := exists_archive_ls
  obtain ⟨s, hboot⟩ : ∃ s, boot 0 0 = .ok s := ⟨_, rfl⟩
  obtain ⟨hlist, hcount, hcur, -, hstate⟩ := boot_spec hboot
  obtain ⟨D, hspace⟩ := addressSpace_loaderKernel.space
  have hs : IsStr [98, 105, 110, 47, 122, 122, 0] [98, 105, 110, 47, 122, 122] :=
    ⟨by decide, [], rfl⟩
  have hfind : findBin [98, 105, 110, 47, 122, 122, 0] = some [98, 105, 110, 47, 122, 122, 0] := rfl
  have hmissing : ∀ e ∈ [binDirectory, lsFile], e.name ≠ [98, 105, 110, 47, 122, 122] := by decide
  have hstart : 0xffffffff80300000 < linkedBelow := by decide
  have hfree : 3 ≤ (List.range' 2 30).length := by
    rw [List.length_range']
    decide
  have hnul : (122 : UInt8) ≠ 0 := by decide
  obtain ⟨m', hrun, hended, -⟩ := execve_missing (fun _ => 0) ⟨0xdeadbeef, 0⟩ 0 [] harch hlen hstart
    hfind rfl hnul hs (by decide) hmissing (m := ⟨s, loaderKernel⟩) hlist hspace hfree
    (if_neg fun hne => hne rfl)
  rw [hcount] at hrun
  rw [hcur] at hended
  refine ⟨archive, s, m', harch, hmissing, hboot, hrun, hcur, hstate, hended, ?_⟩
  rintro ⟨code, m'', hok, -⟩
  rw [hrun] at hok
  cases hok

end Sbunix
