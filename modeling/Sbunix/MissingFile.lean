import Sbunix.Reading

/-!
# Missing files

For a path that names no file `openfile` returns 0, and `open` passes it on. To `sys_read` 0 is the
keyboard: a `read` of it waits for a line and takes the keys of it. `sys_catfiles` tests for the 0,
`cat` does not.
-/

namespace Sbunix

open Lib

variable {pathname name : List UInt8} {filled : List TarfsEntry} {xs : List (Member × Nat)}
  {st st' : Keyboard} {keys rest : List UInt8}

/-- The path names no regular file among these members. -/
def NamesNoFile (name : List UInt8) (xs : List (Member × Nat)) : Prop :=
  ∀ x ∈ xs, x.1.name = name → x.1.kind ≠ .file

/-- A read of what `open` has returned stores nothing, takes no key and returns a negative value. -/
def ReadsNothing (pathname : List UInt8) (fs : List TarfsEntry) (buf : Buffer) (count : UInt64)
    (s : ReadState) : Prop :=
  ∃ fd len s', libcOpen pathname fs = .ok fd ∧ libcRead fd buf count s = .ok (len, s') ∧
    s'.mem = s.mem ∧ s'.keys = s.keys ∧ len < 0

/-! ## Open -/

theorem openfile_missing (hpath : IsStr pathname name)
    (hindex : List.Forall₂ Indexes filled xs) (hmissing : NamesNoFile name xs)
    (fs : List TarfsEntry) : openfile pathname (filled ++ .zero :: fs) = .ok 0 := by
  have hnone : (xs.find? fun x => x.1.name = name ∧ x.1.kind = .file) = none := by
    rw [List.find?_eq_none]
    intro x hx hfile
    obtain ⟨hname, hkind⟩ := of_decide_eq_true hfile
    exact hmissing x hx hname hkind
  rw [openfile_spec fs hpath hindex, hnone]
  rfl

theorem libcOpen_missing (hpath : IsStr pathname name)
    (hindex : List.Forall₂ Indexes filled xs) (hmissing : NamesNoFile name xs)
    (fs : List TarfsEntry) : libcOpen pathname (filled ++ .zero :: fs) = .ok 0 := by
  rw [libcOpen, sysOpen, openfile_missing hpath hindex hmissing fs]
  rfl

/-! ## Read -/

theorem waitFlag_length_le (h : waitFlag st keys = .ok (st', rest)) :
    rest.length ≤ keys.length := by
  induction keys generalizing st with
  | nil =>
    rw [waitFlag] at h
    split_ifs at h
    cases h
    exact Nat.le_refl 0
  | cons code keys ih =>
    rw [waitFlag] at h
    split_ifs at h
    · obtain ⟨st₁, -, h⟩ := bind_eq_ok.1 h
      exact Nat.le_succ_of_le (ih h)
    · cases h
      exact Nat.le_refl _

/-- With the flag up a key is taken. -/
theorem waitFlag_length_lt (hflag : st.flag = true) (h : waitFlag st keys = .ok (st', rest)) :
    rest.length < keys.length := by
  cases keys with
  | nil =>
    rw [waitFlag, if_pos hflag] at h
    cases h
  | cons code keys =>
    rw [waitFlag, if_pos hflag] at h
    obtain ⟨st₁, -, h⟩ := bind_eq_ok.1 h
    exact Nat.lt_succ_of_le (waitFlag_length_le h)

/-- A read of 0 that comes to its end has taken a key. -/
theorem libcRead_zero_keys {buf : Buffer} {count : UInt64} {s s' : ReadState} {len : Int}
    (h : libcRead 0 buf count s = .ok (len, s')) : s'.keys.length < s.keys.length := by
  have hzero : (0 : Int32).toInt64.toUInt64 = 0 := by decide
  rw [libcRead, hzero, sysRead, if_pos rfl] at h
  obtain ⟨⟨keyboard, buff, keys⟩, hscanf, h⟩ := bind_eq_ok.1 h
  obtain ⟨n, -, h⟩ := bind_eq_ok.1 h
  cases h
  obtain ⟨⟨st₁, rest⟩, hwait, hscanf⟩ := bind_eq_ok.1 hscanf
  obtain ⟨_, -, hscanf⟩ := bind_eq_ok.1 hscanf
  obtain ⟨_, -, hscanf⟩ := bind_eq_ok.1 hscanf
  obtain ⟨_, -, hscanf⟩ := bind_eq_ok.1 hscanf
  cases hscanf
  exact waitFlag_length_lt rfl hwait

theorem not_readsNothing_of_zero {fs : List TarfsEntry} (hopen : libcOpen pathname fs = .ok 0)
    (buf : Buffer) (count : UInt64) (s : ReadState) : ¬ ReadsNothing pathname fs buf count s := by
  rintro ⟨fd, len, s', hfd, hread, -, hkeys, -⟩
  obtain rfl := Except.ok.inj (hopen.symm.trans hfd)
  have hlt := libcRead_zero_keys hread
  rw [hkeys] at hlt
  exact Nat.lt_irrefl _ hlt

/-- **A missing file is read from the keyboard.** -/
theorem missing_file_read (hpath : IsStr pathname name)
    (hindex : List.Forall₂ Indexes filled xs) (hmissing : NamesNoFile name xs)
    (fs : List TarfsEntry) (buf : Buffer) (count : UInt64) (s : ReadState) :
    ¬ ReadsNothing pathname (filled ++ .zero :: fs) buf count s :=
  not_readsNothing_of_zero (libcOpen_missing hpath hindex hmissing fs) buf count s

/-! ## Enter -/

/-- `x`. -/
def missingName : List UInt8 := ['x'.toUInt8]

theorem namesNoFile_ls :
    NamesNoFile missingName (located 0xffffffff80300000 [binDirectory, lsFile]) := by
  have hnames : ∀ e ∈ [binDirectory, lsFile], e.name ≠ missingName := by decide
  intro x hx hname
  exact absurd hname (hnames x.1 (mem_of_mem_located hx))

theorem missing_file_read_ls :
    ¬ ReadsNothing (missingName ++ [0]) (lsIndex ++ [.zero]) ⟨4096, 1024⟩ 1024 lsState :=
  missing_file_read ⟨by decide, [], rfl⟩ indexes_ls namesNoFile_ls [] _ _ _

/-- The enter key is pressed. -/
def enterState : ReadState := { lsState with keys := [enter] }

/-- `read` takes it, instead of failing. -/
theorem missing_file_read_fails :
    (∃ r, libcRead 0 ⟨4096, 1024⟩ 1024 enterState = .ok r) ∧
      ¬ ReadsNothing (missingName ++ [0]) (lsIndex ++ [.zero]) ⟨4096, 1024⟩ 1024 enterState := by
  constructor
  · have hlen : Keyboard.boot.tempbuff.length = 1024 := List.length_replicate
    have hwait := waitFlag_enter (pending_nil hlen)
    have hline : IsStr Keyboard.boot.tempbuff [] := isStr_nil_iff.2 ⟨List.replicate 1023 0, rfl⟩
    have hcount : (1024 : UInt64) < 2 ^ 31 := by decide
    exact (staysInside_keyboard_iff (s := enterState) 4096 hcount hwait hlen hline (by decide)).2
      (by decide)
  · have hpath : IsStr (missingName ++ [0]) missingName := ⟨by decide, [], rfl⟩
    have hopen := libcOpen_missing hpath indexes_ls namesNoFile_ls []
    exact not_readsNothing_of_zero hopen _ _ _

end Sbunix
