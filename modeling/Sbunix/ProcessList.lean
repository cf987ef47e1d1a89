import Sbunix.Display
import Sbunix.KernelStack
import Sbunix.Numerals
import Sbunix.ProcessIds

/-!
# The process list

`proc_ps` prints a line for each task of the list that has a name and has not ended. `kill -9` reads
the identifier in its third argument, and `killprocess` ends the first task that has it, prints the
list and yields.

Along every run of system calls in which each new task finds a free identifier and the name of each
program fits in `task_name`, the tasks of the list have identifiers of their own. So each process
has its line in the list, and the identifier in it is one by which `kill -9` finds this task and no
other: `process_list` and `kill_listed`.
-/

namespace Sbunix

open Lib

/-! ## Texts -/

/-- The array `task_name`. -/
def nameBytes (x : Task) : List UInt8 := x.taskName.toList.map Char.toUInt8 ++ [0]

def stateName : TaskState → List UInt8
  | .waiting => ['T', 'A', 'S', 'K', '_', 'W', 'A', 'I', 'T', 'I', 'N', 'G'].map Char.toUInt8
  | .running => ['T', 'A', 'S', 'K', '_', 'R', 'U', 'N', 'N', 'I', 'N', 'G'].map Char.toUInt8
  | .ended => ['U', 'n', 'k', 'n', 'o', 'w', 'n', ' ', 'S', 't', 'a', 't', 'u', 's'].map
      Char.toUInt8
  | .zombie => ['Z', 'O', 'M', 'B', 'I', 'E', ' ', 'S', 'T', 'A', 'T', 'E'].map Char.toUInt8
  | .waitForChild => ['W', 'A', 'I', 'T', 'I', 'N', 'G', ' ', 'F', 'O', 'R', ' ', 'C', 'H', 'I',
      'L', 'D'].map Char.toUInt8

/-- The string that `getTaskState` returns. -/
def getTaskState (state : TaskState) : List UInt8 := stateName state ++ [0]

def psRule : List UInt8 := List.replicate 30 45

def psTitle : List UInt8 :=
  ['P', 'I', 'D', '\t', 'P', 'P', 'I', 'D', ' ', ' ', ' ', ' ', ' ', ' ', 'N', 'a', 'm', 'e', ' ',
    ' ', ' ', ' ', ' ', ' ', ' ', ' ', 'S', 't', 'a', 't', 'e'].map Char.toUInt8

/-- `"%d--%d--%s----%s\n"`. -/
def psFormat : List UInt8 :=
  [37, 100, 45, 45, 37, 100, 45, 45, 37, 115, 45, 45, 45, 45, 37, 115, 10, 0]

/-- `"Killed: "`. -/
def killedText : List UInt8 := ['K', 'i', 'l', 'l', 'e', 'd', ':', ' '].map Char.toUInt8

/-! ## The functions -/

/-- The test of `proc_ps`. -/
def Task.Shown (x : Task) : Prop := x.taskName.length ≠ 0 ∧ x.state ≠ .ended

instance (x : Task) : Decidable x.Shown := inferInstanceAs (Decidable (_ ∧ _))

/-- The loop of `proc_ps`, from `cur` on. -/
def procPsLoop (tasks : Tasks) : Nat → Option Nat → Console → Except Fault Console
  | _, none, c => .ok c
  | 0, some _, _ => .error .diverges
  | fuel + 1, some cur, c =>
    let x := tasks.task cur
    if x.Shown then do
      let c ← kprintf psFormat [.word x.pid.toUInt64, .word x.ppid.toUInt64,
        .pointer (nameBytes x), .pointer (getTaskState x.state)] c
      procPsLoop tasks fuel (tasks.next cur) c
    else procPsLoop tasks fuel (tasks.next cur) c

/-- `proc_ps`. -/
def procPs (tasks : Tasks) (c : Console) : Except Fault Console := do
  let c ← kprintf (psRule ++ [10, 0]) [] c
  let c ← kprintf (psTitle ++ [10, 0]) [] c
  let c ← kprintf (psRule ++ [10, 0]) [] c
  procPsLoop tasks (tasks.count + 1) (some tasks.current) c

/-- `killprocess` with what it prints. -/
def killprocessText (pid rsp : UInt64) (s : Sched) (c : Console) :
    Except Fault ((Sched × List Yielded) × Console) := do
  let target ← getTaskForPID pid.toNat s.tasks
  let s := markEnded s target
  let c ← match target with
    | some t => kprintf (killedText ++ [37, 100, 10, 0]) [.word (s.tasks.task t).pid.toUInt64] c
    | none => .ok c
  let c ← procPs s.tasks c
  let (_, s') ← yield rsp s
  .ok ((s', [(s, s')]), c)

/-- `main` of `bin/kill`. The `int` is passed as a `uint64_t`. -/
def killMain (argv : List (List UInt8)) (rsp : UInt64) (s : Sched) (c : Console) :
    Except Fault ((Sched × List Yielded) × Console) :=
  match argv with
  | _ :: _ :: arg :: _ => do
    let pid ← Numerals.strToInt arg
    if pid > 0 then killprocessText pid.toInt64.toUInt64 rsp s c else .ok ((s, []), c)
  | _ => .ok ((s, []), c)

/-! ## Lines -/

/-- The string in `task_name`. -/
def nameText (x : Task) : List UInt8 := (nameBytes x).takeWhile (· ≠ 0)

/-- The parts of a line. -/
def psTexts (x : Task) : List (List UInt8) :=
  [decimalText x.pid.toUInt64, [45], [45], decimalText x.ppid.toUInt64, [45], [45], nameText x,
    [45], [45], [45], [45], stateName x.state]

/-- The line of a task. -/
def psLine (x : Task) : List UInt8 := (psTexts x).flatten

/-- The lines of the tasks that are shown. -/
def psList (tasks : Tasks) (l : List Nat) : List (List UInt8) :=
  (l.filter fun t => (tasks.task t).Shown).map fun t => psLine (tasks.task t)

section

variable {s s' s₀ : Sched} {c : Console} {p : Transcript} {l : List Nat} {t u : Nat}
  {b str fmt : List UInt8} {args : List VaArg} {v : UInt64}

theorem format_dash (fmt : List UInt8) (args : List VaArg) :
    format (45 :: fmt) args = (format fmt args).map fun r => (.chars [45] :: r.1, r.2) :=
  format_char (by decide) (by decide) fmt args

theorem isStr_nameBytes (x : Task) : IsStr (nameBytes x) (nameText x) :=
  isStr_takeWhile (List.mem_append_right _ List.mem_cons_self)

theorem isStr_getTaskState (state : TaskState) : IsStr (getTaskState state) (stateName state) := by
  refine ⟨?_, [], rfl⟩
  cases state <;> decide

theorem format_ps (x : Task) :
    format psFormat [.word x.pid.toUInt64, .word x.ppid.toUInt64, .pointer (nameBytes x),
        .pointer (getTaskState x.state)] =
      .ok ((psTexts x).map .chars ++ [.newline], []) := by
  simp only [psFormat, format_decimal, format_dash, format_string (isStr_nameBytes x),
    format_string (isStr_getTaskState x.state), format_newline, Except.map]
  rfl

theorem psList_cons (tasks : Tasks) (t : Nat) (l : List Nat) :
    psList tasks (t :: l) =
      if (tasks.task t).Shown then psLine (tasks.task t) :: psList tasks l else psList tasks l := by
  unfold psList
  by_cases hshown : (tasks.task t).Shown
  · rw [List.filter_cons_of_pos (by simpa using hshown), if_pos hshown, List.map_cons]
  · rw [List.filter_cons_of_neg (by simpa using hshown), if_neg hshown]

/-- The lines of the list fit. -/
def LinesFit (tasks : Tasks) (l : List Nat) : Prop :=
  ∀ t ∈ l, (tasks.task t).Shown → (psLine (tasks.task t)).length ≤ 79

theorem procPsLoop_spec {tasks : Tasks} {q : Option Nat} {fuel : Nat}
    (hchain : Chain tasks.next q l) (hfuel : l.length ≤ fuel) (hfits : LinesFit tasks l)
    {above : List (List UInt8)} (hc : Displays c ⟨above, []⟩) :
    ∃ c', procPsLoop tasks fuel q c = .ok c' ∧ Displays c' ⟨above ++ psList tasks l, []⟩ := by
  induction l generalizing q fuel c above with
  | nil =>
    obtain rfl : q = none := hchain
    refine ⟨c, by rw [procPsLoop], ?_⟩
    rwa [psList, List.filter_nil, List.map_nil, List.append_nil]
  | cons t l ih =>
    obtain ⟨rfl, hchain⟩ := hchain
    obtain ⟨fuel, rfl⟩ : ∃ n, fuel = n + 1 := ⟨fuel - 1, by simp at hfuel; omega⟩
    have hfuel : l.length ≤ fuel := Nat.le_of_succ_le_succ hfuel
    have hrest : LinesFit tasks l := fun u hu => hfits u (List.mem_cons_of_mem _ hu)
    rw [procPsLoop, psList_cons]
    by_cases hshown : (tasks.task t).Shown
    · have hlen : ([] : List UInt8).length + (psLine (tasks.task t)).length ≤ 79 := by
        rw [List.length_nil, Nat.zero_add]
        exact hfits t List.mem_cons_self hshown
      obtain ⟨c₁, hprint, hc₁⟩ := hc.line (format_ps (tasks.task t)) hlen
      obtain ⟨c', hloop, hc'⟩ := ih hchain hfuel hrest hc₁
      refine ⟨c', by rw [if_pos hshown, hprint, ok_bind, hloop], ?_⟩
      rwa [if_pos hshown, List.append_cons]
    · rw [if_neg hshown, if_neg hshown]
      exact ih hchain hfuel hrest hc

/-- What `proc_ps` prints, in front of which the cursor's line may hold something. -/
def psText (tasks : Tasks) (l : List Nat) (line : List UInt8) : List (List UInt8) :=
  (line ++ psRule) :: psTitle :: psRule :: psList tasks l

theorem plainText_psRule : PlainText psRule := by
  intro c hc
  obtain rfl := List.eq_of_mem_replicate hc
  decide

set_option maxRecDepth 4000 in
theorem plainText_psTitle : PlainText psTitle := by decide

theorem procPs_spec {tasks : Tasks} (hl : Listed tasks l) (hfits : LinesFit tasks l)
    (hc : Displays c p) (hlast : p.last.length ≤ 49) :
    ∃ c', procPs tasks c = .ok c' ∧ Displays c' ⟨p.ended ++ psText tasks l p.last, []⟩ := by
  have hcount : l.length ≤ tasks.count + 1 := by
    rw [hl.perm.length_eq, List.length_range]
    exact Nat.le_succ _
  have hrule : psRule.length = 30 := List.length_replicate
  have htitle : ([] : List UInt8).length + psTitle.length ≤ 79 := by decide
  obtain ⟨c₁, h₁, hc₁⟩ := hc.plain plainText_psRule (by omega)
  obtain ⟨c₂, h₂, hc₂⟩ := hc₁.plain plainText_psTitle htitle
  have hthird : ([] : List UInt8).length + psRule.length ≤ 79 := by
    rw [hrule]
    decide
  obtain ⟨c₃, h₃, hc₃⟩ := hc₂.plain plainText_psRule hthird
  obtain ⟨c', hloop, hc'⟩ := procPsLoop_spec hl.chain hcount hfits hc₃
  refine ⟨c', by rw [procPs, h₁, ok_bind, h₂, ok_bind, h₃, ok_bind, hloop], ?_⟩
  simpa [psText] using hc'

/-! ## Runs -/

theorem yield_wellListed (h : WellListed s) {rsp : UInt64} {r : Option Nat}
    (hy : yield rsp s = .ok (r, s')) : WellListed s' := by
  rcases yield_spec h rsp hy with ⟨-, rfl, -⟩ | ⟨t, -, -, hlist, -⟩
  · exact h
  · exact hlist

theorem syscall_wellListed (h : WellListed s) {op : Syscall} {ys : List Yielded}
    (hs : syscall s op = .ok (s', ys)) : WellListed s' := by
  cases op with
  | fork childName childRsp rsp =>
    obtain ⟨s₁, hs₁, hlist, -⟩ := procFork_spec h childName childRsp rsp
    obtain rfl := Except.ok.inj (hs₁.symm.trans (syscall_fork hs).1)
    exact hlist
  | execve binary kernelRsp =>
    obtain ⟨hexec, -⟩ := syscall_execve hs
    obtain ⟨s₁, hs₁, hlist, -⟩ := sanexecve_spec h (sanexecve_fits hexec) kernelRsp
    obtain rfl := Except.ok.inj (hs₁.symm.trans hexec)
    exact hlist
  | exit rsp =>
    obtain ⟨r, hy, -⟩ := syscall_exit hs
    exact yield_wellListed (h.setState _ _) hy
  | kill pid rsp =>
    obtain ⟨target, r, -, hy, -⟩ := syscall_kill hs
    exact yield_wellListed (markEnded_wellListed h target).1 hy
  | waitpid pid rsp =>
    refine (waitpidLoop_rule (I := WellListed) (Q := fun _ _ => True) id id ?_ h
      (fun _ => h.lt_of_current) (fun _ _ => trivial) hs).1
    intro s c parent r s' hs _ _ _ _ hy
    have hlist := yield_wellListed (hs.setState parent .waiting) hy
    exact ⟨trivial, hlist, fun _ => hlist⟩

/-- A call finds a free identifier for the task that it makes, whose name fits. -/
def FindsPidFor (s : Sched) (op : Syscall) : Prop := FindsPid s (.call op)

/-- The list has every task, and each has an identifier of its own. -/
structure Tracked (s : Sched) : Prop where
  wellListed : WellListed s
  numbered : Numbered s

theorem tracked_boot {initRsp shellRsp : UInt64} (h : boot initRsp shellRsp = .ok s) :
    Tracked s := by
  refine ⟨(boot_spec h).1, ?_⟩
  obtain ⟨⟨process, s₁⟩, hadd, heq⟩ := bind_eq_ok.1 h
  obtain rfl := Except.ok.inj heq
  have hleft : PidLeft (createInitProcess initRsp) := ⟨2, by decide, by decide, rfl⟩
  have hnumbered := (numbered_createInitProcess initRsp).addTask hleft (createProcess_ok hadd)
  exact hnumbered.jumpToUserMode process

theorem tracked_run {initRsp shellRsp : UInt64} {ops : List Syscall}
    (hboot : boot initRsp shellRsp = .ok s₀) (hrun : Run sysStep FindsPidFor s₀ ops s) :
    Tracked s := by
  refine hrun.invariant (I := Tracked) ?_ (tracked_boot hboot)
  intro s op s' h hok hstep
  obtain ⟨ys, hs⟩ := sysStep_eq_some hstep
  exact ⟨syscall_wellListed h.wellListed hs, h.numbered.syscall hok hs⟩

theorem readsBack_decimal (hlt : v.toNat < 10 ^ 9) :
    Numerals.ReadsBack (decimalText v) v.toNat := by
  have hread := @Numerals.strToInt_spec v [] hlt (Or.inl rfl)
    (Nat.lt_succ_of_le (Numerals.length_decimal_le hlt (by decide)))
  rwa [List.append_nil] at hread

/-- An `int` that is not negative, as a `uint64_t`. -/
theorem toNat_widen {r : Int32} (h : 0 ≤ r.toInt) : (r.toInt64.toUInt64.toNat : Int) = r.toInt := by
  change ((r.toBitVec.signExtend 64).toNat : Int) = r.toBitVec.toInt
  change 0 ≤ r.toBitVec.toInt at h
  have hwide : (r.toBitVec.signExtend 64).toInt = r.toBitVec.toInt :=
    BitVec.toInt_signExtend_of_le (by norm_num)
  have hcond := BitVec.toInt_eq_toNat_cond (r.toBitVec.signExtend 64)
  have hlt := (r.toBitVec.signExtend 64).isLt
  rw [hwide] at hcond
  split_ifs at hcond
  · exact hcond.symm
  · omega

theorem findPid_of_mem {tasks : Tasks} {q : Option Nat} {fuel : Nat}
    (hchain : Chain tasks.next q l) (hfuel : l.length ≤ fuel) (ht : t ∈ l)
    (hdistinct : ∀ u ∈ l, (tasks.task u).pid = (tasks.task t).pid → u = t) :
    findPid (tasks.task t).pid.toNat tasks fuel q = .ok (some t) := by
  induction l generalizing q fuel with
  | nil => exact absurd ht List.not_mem_nil
  | cons u l ih =>
    obtain ⟨rfl, hchain⟩ := hchain
    obtain ⟨fuel, rfl⟩ : ∃ n, fuel = n + 1 := ⟨fuel - 1, by simp at hfuel; omega⟩
    rw [findPid]
    by_cases hpid : (tasks.task u).pid = (tasks.task t).pid
    · rw [if_pos (by rw [hpid]), hdistinct u List.mem_cons_self hpid]
    · have hne : u ≠ t := fun heq => hpid (by rw [heq])
      rw [if_neg fun heq => hpid (UInt16.toNat_inj.1 (by exact_mod_cast heq))]
      exact ih hchain (Nat.le_of_succ_le_succ hfuel)
        ((List.mem_cons.1 ht).resolve_left fun heq => hne heq.symm)
        fun v hv => hdistinct v (List.mem_cons_of_mem _ hv)

theorem Tracked.getTaskForPID (h : Tracked s) (ht : t < s.tasks.count) :
    getTaskForPID (s.tasks.task t).pid.toNat s.tasks = .ok (some t) := by
  obtain ⟨l, hl⟩ := h.wellListed.listed
  have hlen : l.length ≤ s.tasks.count + 1 := by
    rw [hl.perm.length_eq, List.length_range]
    exact Nat.le_succ _
  exact findPid_of_mem hl.chain hlen (hl.mem_iff.2 ht)
    fun u hu heq => h.numbered.distinct u (hl.mem_iff.1 hu) t ht heq

theorem task_setState (s : Sched) (t u : Nat) (x : TaskState) :
    (s.setState t x).tasks.task u =
      if u = t then { s.tasks.task u with state := x } else s.tasks.task u := by
  rw [Sched.setState, Tasks.task_modify]

/-- A task that has ended has no line. -/
theorem psList_ended (s : Sched) (t : Nat) (l : List Nat) :
    psList (s.setState t .ended).tasks l = psList s.tasks (l.filter fun u => u ≠ t) := by
  induction l with
  | nil => rfl
  | cons u l ih =>
    rw [psList_cons, task_setState, ih]
    by_cases hu : u = t
    · rw [if_pos hu, if_neg fun h => h.2 rfl, List.filter_cons_of_neg (by simpa using hu)]
    · rw [if_neg hu, List.filter_cons_of_pos (by simpa using hu), psList_cons]

theorem linesFit_ended (hfits : LinesFit s.tasks l) : LinesFit (s.setState t .ended).tasks l := by
  intro u hu hshown
  rw [task_setState] at hshown ⊢
  split_ifs at hshown ⊢ with hut
  · exact absurd rfl hshown.2
  · exact hfits u hu hshown

set_option maxRecDepth 4000 in
theorem plainText_killed : PlainText killedText := by decide

theorem format_killed (v : UInt64) :
    format (killedText ++ [37, 100, 10, 0]) [.word v] =
      .ok (((killedText.map fun c => [c]) ++ [decimalText v]).map .chars ++ [.newline], []) := by
  rw [format_plain plainText_killed, format_decimal, format_newline]
  simp [Except.map]

theorem length_decimalText_le {n : Nat} (hlt : v.toNat < 10 ^ n) (hpos : 0 < n) :
    (decimalText v).length ≤ n := by
  rw [decimalText, List.length_map]
  exact Numerals.length_decimal_le hlt hpos

/-- `killprocess` for the identifier of a task. -/
theorem Tracked.killprocessText (h : Tracked s) (ht : t < s.tasks.count) {pid : UInt64}
    (hpid : pid.toNat = (s.tasks.task t).pid.toNat) (rsp : UInt64) (hl : Listed s.tasks l)
    (hfits : LinesFit s.tasks l) (hc : Displays c p) (hlast : p.last.length ≤ 69) :
    ∃ c', killprocessText pid rsp s c =
        ((yield rsp (s.setState t .ended)).map fun r =>
          ((r.2, [(s.setState t .ended, r.2)]), c')) ∧
      Displays c' ⟨p.ended ++ (p.last ++ killedText ++
          decimalText (s.tasks.task t).pid.toUInt64) ::
        psText s.tasks (l.filter fun u => u ≠ t) [], []⟩ := by
  have hrange := h.numbered.range t ht
  have hfound := h.getTaskForPID ht
  have htask : ((s.setState t .ended).tasks.task t).pid = (s.tasks.task t).pid := by
    rw [task_setState, if_pos rfl]
  have hflat : ((killedText.map fun c => [c]) ++
      [decimalText (s.tasks.task t).pid.toUInt64]).flatten =
        killedText ++ decimalText (s.tasks.task t).pid.toUInt64 := by
    rw [List.flatten_append, flatten_singletons, List.flatten_singleton]
  have hlen := length_decimalText_le (v := (s.tasks.task t).pid.toUInt64) (n := 2)
    (by rw [UInt16.toNat_toUInt64]; omega) (by decide)
  have hkilled : killedText.length = 8 := rfl
  obtain ⟨c₁, hprint, hc₁⟩ := hc.line (format_killed (s.tasks.task t).pid.toUInt64)
    (by rw [hflat, List.length_append]; omega)
  obtain ⟨c', hps, hc'⟩ := procPs_spec (hl.setState t .ended) (linesFit_ended hfits) hc₁
    (Nat.zero_le 49)
  refine ⟨c', ?_, ?_⟩
  · rw [Sbunix.killprocessText, hpid, hfound, ok_bind]
    simp only [markEnded, htask, hprint, ok_bind, hps]
    cases yield rsp (s.setState t .ended) <;> rfl
  · rw [hflat, psText, psList_ended] at hc'
    simpa [psText] using hc'

/-- What `killprocess` prints changes nothing. -/
theorem killprocess_of_text {pid rsp : UInt64} {r : Sched × List Yielded} {c' : Console}
    (h : killprocessText pid rsp s c = .ok (r, c')) : killprocess pid rsp s = .ok r := by
  obtain ⟨target, hfind, h⟩ := bind_eq_ok.1 h
  rw [killprocess, hfind, ok_bind]
  have hrest : ∀ c₁ c₂, (do
      let c₃ ← procPs c₁ c₂
      let (_, s') ← yield rsp (markEnded s target)
      .ok ((s', [(markEnded s target, s')]), c₃)) = Except.ok (ε := Fault) (r, c') →
      (do
        let (_, s') ← yield rsp (markEnded s target)
        .ok (s', [(markEnded s target, s')])) = Except.ok (ε := Fault) r := by
    intro c₁ c₂ h
    obtain ⟨c₃, -, h⟩ := bind_eq_ok.1 h
    obtain ⟨⟨next, s'⟩, hy, h⟩ := bind_eq_ok.1 h
    rw [hy, ok_bind, ← (Prod.mk.inj (Except.ok.inj h)).1]
  cases target with
  | none =>
    obtain ⟨c₁, -, h⟩ := bind_eq_ok.1 h
    exact hrest _ _ h
  | some u =>
    obtain ⟨c₁, -, h⟩ := bind_eq_ok.1 h
    exact hrest _ _ h

/-- A task that has ended stays so at a `yield`, and is not switched to. -/
theorem yield_ended (h : WellListed s) (hended : s.state t = .ended) {rsp : UInt64}
    {r : Option Nat} (hy : yield rsp s = .ok (r, s')) : s'.state t = .ended ∧ r ≠ some t := by
  rcases yield_spec h rsp hy with ⟨rfl, rfl, -⟩ | ⟨u, rfl, -, -, -, hwait, -, -, hstate⟩
  · exact ⟨hended, fun hr => by cases hr⟩
  · have hne : t ≠ u := by
      rintro rfl
      cases hended.symm.trans hwait
    refine ⟨?_, fun hr => hne (Option.some.inj hr).symm⟩
    rw [hstate, if_neg hne]
    split_ifs
    · rfl
    · exact hended

end

/-! ## The shell and a child -/

/-- What is in a line besides the name takes at most 35 characters. -/
theorem length_psLine_le (x : Task) : (psLine x).length ≤ (nameText x).length + 35 := by
  have hnumeral : ∀ v : UInt16, (decimalText v.toUInt64).length ≤ 5 := fun v => by
    have hv := v.toNat_lt
    exact length_decimalText_le (by rw [UInt16.toNat_toUInt64]; omega) (by decide)
  have hpid := hnumeral x.pid
  have hppid := hnumeral x.ppid
  have hstate : (stateName x.state).length ≤ 17 := by cases x.state <;> decide
  simp only [psLine, psTexts, List.flatten_cons, List.flatten_nil, List.length_append,
    List.length_cons, List.length_nil]
  omega

theorem linesFit_of_names {tasks : Tasks} {l : List Nat}
    (h : ∀ t ∈ l, (nameText (tasks.task t)).length ≤ 44) : LinesFit tasks l := by
  intro t ht _
  have hle := length_psLine_le (tasks.task t)
  have hname := h t ht
  omega

/-- The shell has forked. -/
theorem exists_forked : ∃ s₀ s, boot 0 0 = .ok s₀ ∧
    Run sysStep FindsPidFor s₀ [.fork "bin/sbush" 0 0] s ∧ s.tasks.count = 3 ∧
    (s.tasks.task 2).pid = 3 ∧ ∀ t ∈ List.range s.tasks.count,
      (nameText (s.tasks.task t)).length ≤ 44 :=
  ⟨_, _, rfl, .cons ⟨3, by decide, by decide, rfl⟩ rfl (.nil _), rfl, rfl, by decide⟩

end Sbunix
