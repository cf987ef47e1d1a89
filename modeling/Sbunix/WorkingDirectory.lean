import Sbunix.Reading

/-!
# The working directory

`cd` of the shell appends its argument to the working directory of the task, has `chdir` check the
result, and stores it with `changedir`. Its two arrays are not initialised, and `strcat` of the
library does not end what it appends with a NUL. So the path goes on with what the array held
before, up to the first NUL in it or in the memory behind it.

`CdCall.built` is that path. Since `changedir` is given the same bytes as `chdir`, and a name of the
index ends in the array, `cd` is the function `nextCwd` on strings: `cd_spec`. `cd_run` follows a
sequence of commands, and `working_directory` is the invariant of their states.
-/

namespace Sbunix

open Lib

/-! ## The library -/

/-- `strcmp` of the library, which compares signed characters. -/
def libcStrcmp : List UInt8 → List UInt8 → Except Fault Int
  | c :: str1, d :: str2 =>
    if c ≠ 0 ∧ d ≠ 0 ∧ c = d then libcStrcmp str1 str2 else .ok (charValue c - charValue d)
  | _, _ => .error .outOfBounds

/-- The second loop of `strcat`, which looks for the NUL behind the character it has copied. -/
def strcatLoop : List UInt8 → List UInt8 → Except Fault (List UInt8)
  | _ :: new, c :: d :: orig =>
    if d ≠ 0 then (strcatLoop new (d :: orig)).map (c :: ·) else .ok (c :: new)
  | _, _ => .error .outOfBounds

/-- `strcat` of the library, as the new contents of `new`. -/
def strcat : List UInt8 → List UInt8 → Except Fault (List UInt8)
  | [], _ => .error .outOfBounds
  | c :: new, orig =>
    if c ≠ 0 then (strcat new orig).map (c :: ·) else strcatLoop (c :: new) orig

/-! ## The system calls -/

/-- `sys_getcwd`, which does not use the size. -/
def sysGetcwd (buf cwd : List UInt8) : Except Fault (List UInt8) := strcpy buf cwd

/-- `sys_chdir`, with `fno` an `int`. -/
def sysChdir (path : List UInt8) (fs : List TarfsEntry) : Except Fault Int32 :=
  (opendirect path fs).map fun fno => (UInt64.ofNat fno).toUInt32.toInt32

/-- `SYSS_changedir`, as the new contents of `cwd`. -/
def syssChangedir (path cwd : List UInt8) : Except Fault (List UInt8) := do
  if (← strlen path) = 0 then strcpy cwd [0] else strcpy cwd path

def getcwd (buf cwd : List UInt8) : Except Fault (List UInt8) := sysGetcwd buf cwd

/-- `chdir`: the `int` comes back as the `uint64_t` of the dispatcher. -/
def chdir (path : List UInt8) (fs : List TarfsEntry) : Except Fault Int32 :=
  (sysChdir path fs).map fun fno => fno.toInt64.toUInt64.toUInt32.toInt32

def changedir (path cwd : List UInt8) : Except Fault (List UInt8) := syssChangedir path cwd

/-! ## `cd` -/

/-- A call of `cd`: the string `arg` that `path` points to, what the two arrays hold at first, and
the memory behind `tempcwd`. The variable `i` may lie in it, so that it is another one when the
result of `chdir` has been stored. -/
structure CdCall where
  path : List UInt8
  arg : List UInt8
  cdcwd : List UInt8
  tempcwd : List UInt8
  behind : List UInt8
  behindResult : List UInt8
  isStr_path : IsStr path arg
  length_cdcwd : cdcwd.length = 128
  length_tempcwd : tempcwd.length = 128
  nul_mem : 0 ∈ behind

def cd (fs : List TarfsEntry) (call : CdCall) (cwd : List UInt8) : Except Fault (List UInt8) := do
  let cdcwd ← getcwd call.cdcwd cwd
  if (← libcStrcmp call.path [0, 0]) = 0 then changedir [0] cwd
  else if (← libcStrcmp call.path [46, 46, 0]) = 0 then changedir [0] cwd
  else
    let tempcwd ← strcpy call.tempcwd cdcwd
    let tempcwd ← strcat tempcwd call.path
    let i ← chdir (tempcwd ++ call.behind) fs
    if i ≠ 0 then changedir (tempcwd ++ call.behindResult) cwd else .ok cwd

/-- A command of the shell on the `cwd` of its task. -/
def cdStep (fs : List TarfsEntry) (cwd : List UInt8) (call : CdCall) : Option (List UInt8) :=
  (cd fs call cwd).toOption

/-- The argument and the working directory fit in 127 characters. -/
def FitsCwd (cwd : List UInt8) (call : CdCall) : Prop :=
  ∃ s, IsStr cwd s ∧ call.arg.length + s.length ≤ 127

/-- The working directory is empty or the name of a directory entry. -/
def InDirectory (fs : List TarfsEntry) (cwd : List UInt8) : Prop :=
  IsStr cwd [] ∨ ∃ e ∈ fs, e.typeflag = directory ∧ ∃ s, IsStr e.name s ∧ IsStr cwd s

/-! ## Directories -/

/-- The names of the directories of an archive. -/
def directories (es : List Member) : List (List UInt8) :=
  (es.filter fun e => e.kind = .directory).map Member.name

/-- What `tempcwd` holds when `cd` has appended its argument to the directory `s`. -/
def CdCall.buffer (call : CdCall) (s : List UInt8) : List UInt8 :=
  s ++ call.arg ++ call.tempcwd.drop (s.length + call.arg.length)

/-- The path that `cd` makes in the directory `s`. -/
def CdCall.built (call : CdCall) (s : List UInt8) : List UInt8 :=
  (call.buffer s ++ call.behind).takeWhile (· ≠ 0)

/-- The directory that a call in the directory `s` leads to. -/
def nextCwd (dirs : List (List UInt8)) (s : List UInt8) (call : CdCall) : List UInt8 :=
  if call.arg = [] ∨ call.arg = [46, 46] then []
  else if call.built s ∈ dirs then call.built s
  else s

section

variable {b b' s s' p : List UInt8} {es : List Member}

theorem mem_directories : s ∈ directories es ↔ ∃ e ∈ es, e.kind = .directory ∧ e.name = s := by
  simp [directories, and_assoc]

theorem length_le_of_mem_directories (h : s ∈ directories es) : s.length ≤ 99 := by
  obtain ⟨e, -, -, rfl⟩ := mem_directories.1 h
  exact e.length_le

/-! ## Strings -/

theorem charValue_sub_eq_zero {c d : UInt8} : charValue c - charValue d = 0 ↔ c = d := by
  constructor
  · intro h
    unfold charValue at h
    have hc := c.toNat_lt
    have hd := d.toNat_lt
    apply UInt8.toNat_inj.1
    split_ifs at h
    · omega
    · omega
    · omega
    · omega
  · rintro rfl
    exact sub_self _

/-- Both comparisons are zero for the same strings. -/
theorem libcStrcmp_of_strcmp {r : Int} (h : strcmp b b' = .ok r) :
    ∃ r', libcStrcmp b b' = .ok r' ∧ (r' = 0 ↔ r = 0) := by
  induction b generalizing b' with
  | nil => cases h
  | cons c b ih =>
    cases b' with
    | nil => cases h
    | cons d b' =>
      rw [strcmp] at h
      rw [libcStrcmp]
      split_ifs at h ⊢ with heq
      · exact ih h
      · refine ⟨_, rfl, ?_⟩
        rw [charValue_sub_eq_zero, ← Except.ok.inj h, sub_eq_zero, Nat.cast_inj, UInt8.toNat_inj]

theorem libcStrcmp_spec (h : IsStr b s) (h' : IsStr b' s') :
    ∃ r, libcStrcmp b b' = .ok r ∧ (r = 0 ↔ s = s') := by
  obtain ⟨r, hr, hiff⟩ := strcmp_spec h h'
  obtain ⟨r', hr', hzero⟩ := libcStrcmp_of_strcmp hr
  exact ⟨r', hr', hzero.trans hiff⟩

theorem strcatLoop_spec {new orig : List UInt8} (horig : IsStr orig p) (hp : p ≠ [])
    (hlen : p.length ≤ new.length) : strcatLoop new orig = .ok (p ++ new.drop p.length) := by
  induction p generalizing new orig with
  | nil => exact absurd rfl hp
  | cons c p ih =>
    obtain ⟨-, orig, rfl, hstr⟩ := isStr_cons_iff.1 horig
    obtain ⟨x, new, rfl⟩ := List.exists_cons_of_length_pos (Nat.zero_lt_of_lt hlen)
    cases p with
    | nil =>
      obtain ⟨rest, rfl⟩ := isStr_nil_iff.1 hstr
      rfl
    | cons d p =>
      have hloop := ih hstr (List.cons_ne_nil d p) (Nat.le_of_succ_le_succ hlen)
      obtain ⟨hd, orig, rfl, -⟩ := isStr_cons_iff.1 hstr
      rw [strcatLoop, if_pos hd, hloop]
      rfl

/-- `strcat` appends the string, and no NUL behind it. -/
theorem strcat_spec {new orig : List UInt8} (hnew : IsStr new s) (horig : IsStr orig p)
    (hp : p ≠ []) (hlen : s.length + p.length ≤ new.length) :
    strcat new orig = .ok (s ++ p ++ new.drop (s.length + p.length)) := by
  induction s generalizing new with
  | nil =>
    obtain ⟨rest, rfl⟩ := isStr_nil_iff.1 hnew
    rw [List.length_nil, Nat.zero_add] at hlen ⊢
    rw [strcat, if_neg (not_not.2 rfl), strcatLoop_spec horig hp hlen]
    rfl
  | cons c s ih =>
    obtain ⟨hc, new, rfl, hs⟩ := isStr_cons_iff.1 hnew
    rw [List.length_cons, List.length_cons, Nat.add_right_comm] at hlen
    rw [strcat, if_pos hc, ih hs (Nat.le_of_succ_le_succ hlen), List.length_cons,
      Nat.add_right_comm, List.drop_succ_cons]
    rfl

theorem changedir_spec {path cwd : List UInt8} (hpath : IsStr path s)
    (hlen : s.length < cwd.length) :
    ∃ cwd', changedir path cwd = .ok cwd' ∧ IsStr cwd' s ∧ cwd'.length = cwd.length := by
  rw [changedir, syssChangedir, strlen_spec hpath, ok_bind]
  by_cases hzero : s.length = 0
  · obtain rfl := List.length_eq_zero_iff.1 hzero
    rw [if_pos hzero]
    exact sstrcpy_spec cwd (isStr_nil_iff.2 ⟨[], rfl⟩) hlen
  · rw [if_neg hzero]
    exact sstrcpy_spec cwd hpath hlen

end

/-! ## The check -/

section

variable {m : Mem} {start : Nat} {image : List UInt8} {es : List Member} {filled : List TarfsEntry}
  {s : List UInt8}

theorem exists_located {e : Member} (start : Nat) (he : e ∈ es) :
    ∃ a, (e, a) ∈ located start es := by
  rw [← map_fst_located start es] at he
  obtain ⟨x, hx, rfl⟩ := List.mem_map.1 he
  exact ⟨x.2, hx⟩

/-- The entry of a member. -/
theorem exists_entry {xs : List (Member × Nat)} {x : Member × Nat}
    (hindex : List.Forall₂ Indexes filled xs) (hx : x ∈ xs) : ∃ f ∈ filled, Indexes f x := by
  obtain ⟨hlen, hget⟩ := List.forall₂_iff_get.1 hindex
  obtain ⟨i, rfl⟩ := List.mem_iff_get.1 hx
  have hi : i < filled.length := hlen.symm ▸ i.isLt
  exact ⟨filled.get ⟨i, hi⟩, List.get_mem _ _, hget i hi i.isLt⟩

/-- The address of a header is a truth value, cut to an `int` as it is. -/
theorem Linked.toInt32_ne_zero {x : Member × Nat} (h : Linked m start image es)
    (hx : x ∈ located start es) : (UInt64.ofNat x.2).toUInt32.toInt32 ≠ 0 := by
  obtain ⟨haddr, hlow⟩ := h.toNat_addr hx
  have hback := toInt32_kernel (haddr.symm ▸ hlow)
  intro hzero
  rw [hzero] at hback
  have hnat : 0 = x.2 := (congrArg UInt64.toNat hback).trans haddr
  omega

/-- `opendirect` returns the header address of a directory, and 0 for another name. -/
theorem opendirect_spec (hindex : List.Forall₂ Indexes filled (located start es))
    (rest : List TarfsEntry) {path : List UInt8} (hpath : IsStr path s) :
    ∃ a, opendirect path (filled ++ .zero :: rest) = .ok a ∧
      (s ∈ directories es ∧ (∃ x ∈ located start es, x.2 = a) ∨ s ∉ directories es ∧ a = 0) := by
  have hopen := lookup_spec .directory rest hpath hindex
  rw [opendirect, show directory = Kind.directory.typeflag from rfl, hopen]
  refine ⟨_, rfl, ?_⟩
  rw [mem_directories]
  cases hfind : (located start es).find? fun x => x.1.name = s ∧ x.1.kind = .directory with
  | none =>
    refine Or.inr ⟨?_, rfl⟩
    rintro ⟨e, he, hkind, hname⟩
    obtain ⟨a, ha⟩ := exists_located start he
    exact List.find?_eq_none.1 hfind _ ha (by simp [hname, hkind])
  | some x =>
    have hx := List.mem_of_find?_eq_some hfind
    have hdir : x.1.name = s ∧ x.1.kind = .directory := by
      simpa using List.find?_some hfind
    exact Or.inl ⟨⟨x.1, mem_of_mem_located hx, hdir.2, hdir.1⟩, x, hx, rfl⟩

/-- `chdir` is true for the names of the directories. -/
theorem Linked.chdir_spec (h : Linked m start image es)
    (hindex : List.Forall₂ Indexes filled (located start es)) (rest : List TarfsEntry)
    {path : List UInt8} (hpath : IsStr path s) :
    ∃ i, chdir path (filled ++ .zero :: rest) = .ok i ∧ (i ≠ 0 ↔ s ∈ directories es) := by
  obtain ⟨a, hopen, hcases⟩ := opendirect_spec hindex rest hpath
  rw [chdir, sysChdir, hopen]
  refine ⟨_, rfl, ?_⟩
  obtain ⟨hdir, x, hx, rfl⟩ | ⟨hdir, rfl⟩ := hcases
  · obtain ⟨haddr, hlow⟩ := h.toNat_addr hx
    refine iff_of_true ?_ hdir
    change (UInt64.ofNat x.2).toUInt32.toInt32.toInt64.toUInt64.toUInt32.toInt32 ≠ 0
    rw [toInt32_kernel (haddr.symm ▸ hlow)]
    exact h.toInt32_ne_zero hx
  · exact iff_of_false (not_not.2 rfl) hdir

/-! ## Calls -/

/-- The array holds the string `s`, which is empty or a directory. -/
structure HoldsCwd (dirs : List (List UInt8)) (cwd s : List UInt8) : Prop where
  isStr : IsStr cwd s
  length : cwd.length = 128
  mem : s = [] ∨ s ∈ dirs

variable {call : CdCall} {cwd cdcwd path : List UInt8} {dirs : List (List UInt8)}

theorem HoldsCwd.store (h : HoldsCwd dirs cwd s) {s' : List UInt8} (hpath : IsStr path s')
    (hlen : s'.length < 128) (hmem : s' = [] ∨ s' ∈ dirs) :
    ∃ cwd', changedir path cwd = .ok cwd' ∧ HoldsCwd dirs cwd' s' := by
  have hlen' : s'.length < cwd.length := by rwa [h.length]
  obtain ⟨cwd', hcwd', hstr, hlength⟩ := changedir_spec hpath hlen'
  exact ⟨cwd', hcwd', hstr, hlength.trans h.length, hmem⟩

/-- The empty string of the call `changedir("")`. -/
theorem HoldsCwd.store_nil (h : HoldsCwd dirs cwd s) :
    ∃ cwd', changedir [0] cwd = .ok cwd' ∧ HoldsCwd dirs cwd' [] :=
  h.store (isStr_nil_iff.2 ⟨[], rfl⟩) (by decide) (Or.inl rfl)

theorem CdCall.length_buffer (hfits : call.arg.length + s.length ≤ 127) :
    (call.buffer s).length = 128 := by
  rw [buffer, List.length_append, List.length_append, List.length_drop, call.length_tempcwd]
  omega

/-- The two copies fill `tempcwd`, and stay in it. -/
theorem CdCall.buffer_spec (harg : call.arg ≠ []) (hcdcwd : IsStr cdcwd s)
    (hfits : call.arg.length + s.length ≤ 127) :
    ∃ tempcwd, strcpy call.tempcwd cdcwd = .ok tempcwd ∧
      strcat tempcwd call.path = .ok (call.buffer s) := by
  have hlen := call.length_tempcwd
  refine ⟨_, sstrcpy_eq call.tempcwd hcdcwd (by omega), ?_⟩
  rw [strcat_spec ⟨hcdcwd.1, _, rfl⟩ call.isStr_path harg]
  · obtain ⟨k, hk⟩ : ∃ k, call.arg.length = k + 1 :=
      ⟨call.arg.length - 1, by have := List.length_pos_iff.2 harg; omega⟩
    rw [buffer, List.drop_append, List.drop_of_length_le (by omega), List.nil_append,
      Nat.add_sub_cancel_left, hk, List.drop_succ_cons, List.drop_drop]
    congr 3
    omega
  · rw [List.length_append, List.length_cons, List.length_drop]
    omega

theorem CdCall.isStr_built (call : CdCall) (s : List UInt8) :
    IsStr (call.buffer s ++ call.behind) (call.built s) :=
  isStr_takeWhile (List.mem_append_right _ call.nul_mem)

/-- The name of a directory ends in the array, whatever lies behind it. -/
theorem CdCall.isStr_result (hfits : call.arg.length + s.length ≤ 127)
    (hlen : (call.built s).length < 128) :
    IsStr (call.buffer s ++ call.behindResult) (call.built s) := by
  rw [← call.length_buffer hfits] at hlen
  exact ((call.isStr_built s).of_append hlen).append call.behindResult

/-- `cd` computes `nextCwd`. -/
theorem Linked.cd_spec (h : Linked m start image es)
    (hindex : List.Forall₂ Indexes filled (located start es)) (rest : List TarfsEntry)
    (hcwd : HoldsCwd (directories es) cwd s) (hfits : call.arg.length + s.length ≤ 127) :
    ∃ cwd', cd (filled ++ .zero :: rest) call cwd = .ok cwd' ∧
      HoldsCwd (directories es) cwd' (nextCwd (directories es) s call) := by
  obtain ⟨top, htop, hnil⟩ := hcwd.store_nil
  obtain ⟨cdcwd, hget, hstr, -⟩ := sstrcpy_spec call.cdcwd hcwd.isStr
    (by have := call.length_cdcwd; omega)
  obtain ⟨r₁, hr₁, hempty⟩ := libcStrcmp_spec call.isStr_path
    (show IsStr [0, 0] [] from isStr_nil_iff.2 ⟨[0], rfl⟩)
  obtain ⟨r₂, hr₂, hup⟩ := libcStrcmp_spec call.isStr_path
    (show IsStr [46, 46, 0] [46, 46] from ⟨by decide, [], rfl⟩)
  rw [cd, getcwd, sysGetcwd, strcpy, hget, ok_bind, hr₁, ok_bind]
  by_cases hcase₁ : call.arg = []
  · rw [if_pos (hempty.2 hcase₁), nextCwd, if_pos (Or.inl hcase₁)]
    exact ⟨top, htop, hnil⟩
  rw [if_neg fun hr => hcase₁ (hempty.1 hr), hr₂, ok_bind]
  by_cases hcase₂ : call.arg = [46, 46]
  · rw [if_pos (hup.2 hcase₂), nextCwd, if_pos (Or.inr hcase₂)]
    exact ⟨top, htop, hnil⟩
  obtain ⟨tempcwd, hcopy, happend⟩ := CdCall.buffer_spec hcase₁ hstr hfits
  obtain ⟨i, hi, htrue⟩ := h.chdir_spec hindex rest (call.isStr_built s)
  rw [if_neg fun hr => hcase₂ (hup.1 hr), hcopy, ok_bind, happend, ok_bind, hi, ok_bind, nextCwd,
    if_neg (not_or.2 ⟨hcase₁, hcase₂⟩)]
  by_cases hbuilt : call.built s ∈ directories es
  · have hlen : (call.built s).length < 128 :=
      Nat.lt_of_le_of_lt (length_le_of_mem_directories hbuilt) (by decide)
    rw [if_pos (htrue.2 hbuilt), if_pos hbuilt]
    exact hcwd.store (CdCall.isStr_result hfits hlen) hlen (Or.inr hbuilt)
  · rw [if_neg fun hne => hbuilt (htrue.1 hne), if_neg hbuilt]
    exact ⟨cwd, rfl, hcwd⟩

end

/-! ## Sequences of commands -/

section

variable {m : Mem} {start : Nat} {image : List UInt8} {es : List Member} {filled : List TarfsEntry}
  {cwd s : List UInt8} {calls : List CdCall}

/-- The working directory behind a sequence of commands. -/
theorem Linked.cd_run (h : Linked m start image es)
    (hindex : List.Forall₂ Indexes filled (located start es)) (rest : List TarfsEntry)
    (hcwd : HoldsCwd (directories es) cwd s)
    (hfits : Along (cdStep (filled ++ .zero :: rest)) FitsCwd cwd calls) :
    ∃ cwd', Run (cdStep (filled ++ .zero :: rest)) FitsCwd cwd calls cwd' ∧
      HoldsCwd (directories es) cwd' (calls.foldl (nextCwd (directories es)) s) := by
  refine hfits.simulation ?_ hcwd
  intro cwd s call hcwd ⟨s', hs', hlen⟩
  obtain rfl := hcwd.isStr.unique hs'
  obtain ⟨cwd', hcd, hcwd'⟩ := h.cd_spec hindex rest hcwd hlen
  exact ⟨cwd', by rw [cdStep, hcd]; rfl, hcwd'⟩

/-- Arguments of at most 28 characters fit behind every directory. -/
theorem Linked.along_of_short (h : Linked m start image es)
    (hindex : List.Forall₂ Indexes filled (located start es)) (rest : List TarfsEntry)
    (hcwd : HoldsCwd (directories es) cwd s) (hshort : ∀ call ∈ calls, call.arg.length ≤ 28) :
    Along (cdStep (filled ++ .zero :: rest)) FitsCwd cwd calls := by
  induction calls generalizing cwd s with
  | nil => exact trivial
  | cons call calls ih =>
    have hlen : s.length ≤ 99 := by
      rcases hcwd.mem with rfl | hmem
      · exact Nat.zero_le 99
      · exact length_le_of_mem_directories hmem
    have harg := hshort call List.mem_cons_self
    have hfits : call.arg.length + s.length ≤ 127 := by omega
    obtain ⟨cwd', hcd, hcwd'⟩ := h.cd_spec hindex rest hcwd hfits
    refine ⟨⟨s, hcwd.isStr, hfits⟩, fun cwd'' hstep => ?_⟩
    rw [cdStep, hcd] at hstep
    obtain rfl := Option.some.inj hstep
    exact ih hcwd' fun call' hcall' => hshort call' (List.mem_cons_of_mem _ hcall')

theorem HoldsCwd.inDirectory (hcwd : HoldsCwd (directories es) cwd s)
    (hindex : List.Forall₂ Indexes filled (located start es)) (rest : List TarfsEntry) :
    InDirectory (filled ++ rest) cwd := by
  cases hcwd.mem with
  | inl hnil =>
    apply Or.inl
    rw [← hnil]
    exact hcwd.isStr
  | inr hmem =>
    obtain ⟨e, he, hkind, hname⟩ := mem_directories.1 hmem
    obtain ⟨a, ha⟩ := exists_located start he
    obtain ⟨f, hf, hfe⟩ := exists_entry hindex ha
    refine Or.inr ⟨f, List.mem_append_left _ hf, ?_, s, ?_, hcwd.isStr⟩
    · rw [hfe.typeflag, hkind]
      rfl
    · rw [← hname]
      exact hfe.name

/-- **The working directory.** From `bin/` on, and whatever the memory of the calls holds, the
working directory is always empty or the name of a directory entry. -/
theorem working_directory (h : Linked m start image es)
    (hindex : List.Forall₂ Indexes filled (located start es)) (rest : List TarfsEntry)
    (hbin : ∃ e ∈ es, e.kind = .directory ∧ e.name = [98, 105, 110, 47])
    (hcwd : IsStr cwd [98, 105, 110, 47]) (hlen : cwd.length = 128)
    (hfits : Along (cdStep (filled ++ .zero :: rest)) FitsCwd cwd calls) :
    ∀ front back, calls = front ++ back → ∃ cwd',
      Run (cdStep (filled ++ .zero :: rest)) FitsCwd cwd front cwd' ∧
        InDirectory (filled ++ .zero :: rest) cwd' := by
  rintro front back rfl
  have hstart : HoldsCwd (directories es) cwd [98, 105, 110, 47] :=
    ⟨hcwd, hlen, Or.inr (mem_directories.2 hbin)⟩
  obtain ⟨cwd', hrun, hcwd'⟩ := h.cd_run hindex rest hstart hfits.of_append
  exact ⟨cwd', hrun, hcwd'.inDirectory hindex _⟩

end

/-! ## Two commands -/

/-- A call whose arrays hold the bytes `c`. -/
def cdCall (c : UInt8) (arg : List UInt8) (h : 0 ∉ arg) : CdCall where
  path := arg ++ [0]
  arg := arg
  cdcwd := List.replicate 128 c
  tempcwd := List.replicate 128 c
  behind := [c, 0]
  behindResult := [1, c]
  isStr_path := ⟨h, [], rfl⟩
  length_cdcwd := List.length_replicate
  length_tempcwd := List.length_replicate
  nul_mem := List.mem_cons_of_mem _ List.mem_cons_self

/-- `cd ..` and `cd bin/` from `bin/` on. -/
def cdCalls : List CdCall :=
  [cdCall 120 [46, 46] (by decide), cdCall 0 [98, 105, 110, 47] binDirectory.nul_notMem]

def binCwd : List UInt8 := [98, 105, 110, 47] ++ List.replicate 124 0

/-- Both commands keep the invariant. -/
theorem working_directory_bin :
    ∃ cwd, Run (cdStep (lsIndex ++ [.zero])) FitsCwd binCwd cdCalls cwd ∧
      InDirectory (lsIndex ++ [.zero]) cwd := by
  have hbin : IsStr binCwd [98, 105, 110, 47] := ⟨by decide, List.replicate 123 0, rfl⟩
  have hstart : HoldsCwd (directories [binDirectory, lsFile]) binCwd [98, 105, 110, 47] :=
    ⟨hbin, rfl, Or.inr (by decide)⟩
  have hfits : Along (cdStep (lsIndex ++ [.zero])) FitsCwd binCwd cdCalls :=
    linked_ls.along_of_short indexes_ls [] hstart (by decide)
  exact working_directory linked_ls indexes_ls [] ⟨binDirectory, List.mem_cons_self, rfl, rfl⟩ hbin
    rfl hfits cdCalls [] rfl

end Sbunix
