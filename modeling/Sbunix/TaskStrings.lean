import Sbunix.KernelStack
import Sbunix.Lib.Copying

/-!
# The strings of a task

`task_name` and `cwd` are arrays in the middle of `struct Task`: behind `task_name` are `pid`,
`ppid`, `state` and `pml4e_addr`, behind `cwd` is the link `next` of the task list. `strcpy` does
not know their sizes. `syssChangedir_iff` says for which paths the copy leaves all the rest of the
tasks as it was, `storeNames_keeps` and `namesFit_of_keeps` say it of the names of a new task.
-/

namespace Sbunix

open Lib

/-- The pointer is one to the NUL-terminated string `s`. -/
structure StrAt (m : Mem) (p : UInt64) (s : List UInt8) : Prop where
  nul_notMem : 0 ∉ s
  length_lt : s.length < 2 ^ 64
  bytes : ∀ i ≤ s.length, m (p + UInt64.ofNat i).toNat = s.getD i 0

section

variable {m : Mem} {p : UInt64} {s : List UInt8} {c : UInt8}

namespace StrAt

theorem nil_zero (h : StrAt m p []) : m p.toNat = 0 := by
  have hfirst := h.bytes 0 (Nat.zero_le _)
  rwa [add_ofNat_zero] at hfirst

theorem cons (h : StrAt m p (c :: s)) : m p.toNat = c ∧ c ≠ 0 ∧ StrAt m (p + 1) s := by
  have hfirst := h.bytes 0 (Nat.zero_le _)
  have hnul := h.nul_notMem
  rw [add_ofNat_zero] at hfirst
  rw [List.mem_cons, not_or] at hnul
  refine ⟨hfirst, Ne.symm hnul.1, hnul.2, Nat.lt_of_succ_lt h.length_lt, ?_⟩
  intro i hi
  rw [← add_ofNat_succ]
  exact h.bytes (i + 1) (Nat.succ_le_succ hi)

theorem ne_zero (h : StrAt m p s) {i : Nat} (hi : i < s.length) :
    m (p + UInt64.ofNat i).toNat ≠ 0 := by
  rw [h.bytes i hi.le, List.getD_eq_getElem s 0 hi]
  intro hzero
  exact h.nul_notMem (hzero ▸ List.getElem_mem hi)

end StrAt

end

namespace InMemory

/-! ## The functions -/

def strcpyLoop : Nat → UInt64 → UInt64 → Mem → Except Fault Mem
  | 0, _, _, _ => .error .diverges
  | fuel + 1, dest, src, m =>
    if m src.toNat ≠ 0 then
      strcpyLoop fuel (dest + 1) (src + 1) (write8 m dest.toNat (m src.toNat))
    else .ok (write8 m dest.toNat 0)

/-- `strcpy` of `sys/keyboard.c`. A copy of `2 ^ 64` characters has overwritten every NUL. -/
def strcpy (dest src : UInt64) (m : Mem) : Except Fault Mem := strcpyLoop (2 ^ 64) dest src m

def strlenLoop : Nat → UInt64 → Mem → Except Fault UInt64
  | 0, _, _ => .error .diverges
  | fuel + 1, str, m =>
    if m str.toNat ≠ 0 then (strlenLoop fuel (str + 1) m).map (· + 1) else .ok 0

/-- `strlen`, which is an `int` to its callers. -/
def strlen (str : UInt64) (m : Mem) : Except Fault UInt32 :=
  (strlenLoop (2 ^ 64) str m).map UInt64.toUInt32

def taskNameOffset : UInt64 := 88

def cwdOffset : UInt64 := 168

def nextOffset : UInt64 := 296

/-- `SYSS_changedir`, with the address of the literal `""`. -/
def syssChangedir (empty path currentRunningTask : UInt64) (m : Mem) : Except Fault Mem := do
  if (← strlen path m) = 0 then strcpy (currentRunningTask + cwdOffset) empty m
  else strcpy (currentRunningTask + cwdOffset) path m

/-- The two copies of `sanexecve`. -/
def storeNames (binary currentRunningTask newProc : UInt64) (m : Mem) : Except Fault Mem := do
  let m ← strcpy (newProc + taskNameOffset) binary m
  strcpy (newProc + cwdOffset) (currentRunningTask + cwdOffset) m

/-! ## Frames -/

def InTask (addr : Nat → UInt64) (t x : Nat) : Prop :=
  (addr t).toNat ≤ x ∧ x < (addr t).toNat + sizeofTask

/-- An address of the array of `size` bytes at this offset. -/
def InField (task offset : UInt64) (size x : Nat) : Prop :=
  (task + offset).toNat ≤ x ∧ x < (task + offset).toNat + size

def InTaskName (task : UInt64) (x : Nat) : Prop := InField task taskNameOffset 64 x

def InCwd (task : UInt64) (x : Nat) : Prop := InField task cwdOffset 128 x

def InNames (task : UInt64) (x : Nat) : Prop := InTaskName task x ∨ InCwd task x

/-- Nothing of the first `n` tasks has changed but some bytes of `field`. -/
def KeepsTasks (addr : Nat → UInt64) (n : Nat) (field : Nat → Prop) (m m' : Mem) : Prop :=
  ∀ t < n, ∀ x, InTask addr t x → ¬ field x → m' x = m x

/-- The destination begins inside of the `n` characters, or at their terminator. -/
def Within (dest src : UInt64) (n : Nat) : Prop :=
  ∃ k, 0 < k ∧ k ≤ n ∧ dest = src + UInt64.ofNat k

section

variable {m m' : Mem} {dest src : UInt64} {s : List UInt8} {fuel n k : Nat}

/-! ## `strcpy` -/

theorem pointer_ne {i j : Nat} (h : ∀ k, 0 < k → k ≤ n → dest ≠ src + UInt64.ofNat k)
    (hi : i ≤ n) (hj : j < i) : src + UInt64.ofNat i ≠ dest + UInt64.ofNat j := by
  intro heq
  apply h (i - j) (by omega) (by omega)
  rw [show i = i - j + j by omega, UInt64.ofNat_add, ← UInt64.add_assoc] at heq
  exact ((UInt64.add_left_inj _).1 heq).symm

/-- The string is copied with its terminator, if this is not overwritten before. -/
theorem strcpyLoop_stored (hstr : StrAt m src s) (hfuel : s.length < fuel)
    (hread : ∀ i ≤ s.length, ∀ j < i, src + UInt64.ofNat i ≠ dest + UInt64.ofNat j) :
    ∃ m', strcpyLoop fuel dest src m = .ok m' ∧
      StoredAt m m' dest (s.length + 1) fun i => s.getD i 0 := by
  induction s generalizing m dest src fuel with
  | nil =>
    obtain ⟨fuel, rfl⟩ := Nat.exists_eq_succ_of_ne_zero (Nat.ne_of_gt hfuel)
    refine ⟨write8 m dest.toNat 0, ?_, StoredAt.cons (StoredAt.nil _ _ _) (by decide)⟩
    rw [strcpyLoop, if_neg (not_not.2 hstr.nil_zero)]
  | cons c s ih =>
    obtain ⟨fuel, rfl⟩ := Nat.exists_eq_succ_of_ne_zero (Nat.ne_zero_of_lt hfuel)
    obtain ⟨hc, hne, htail⟩ := hstr.cons
    have hkept : StrAt (write8 m dest.toNat c) (src + 1) s := by
      refine ⟨htail.nul_notMem, htail.length_lt, fun i hi => ?_⟩
      have hfirst := hread (i + 1) (Nat.succ_le_succ hi) 0 (Nat.zero_lt_succ i)
      rw [add_ofNat_zero, add_ofNat_succ] at hfirst
      rw [write8_of_ne (mt UInt64.toNat_inj.1 hfirst), htail.bytes i hi]
    obtain ⟨m', hrun, hstored⟩ := ih hkept (Nat.lt_of_succ_lt_succ hfuel) fun i hi j hj => by
      rw [← add_ofNat_succ, ← add_ofNat_succ]
      exact hread (i + 1) (Nat.succ_le_succ hi) (j + 1) (Nat.succ_lt_succ hj)
    refine ⟨m', ?_, hstored.cons hstr.length_lt⟩
    rw [strcpyLoop, if_pos (hc ▸ hne), hc]
    exact hrun

/-- A copy that overwrites the terminator of its source does not end. -/
theorem strcpyLoop_diverges (hk : 0 < k) (hdest : dest = src + UInt64.ofNat k)
    (hne : ∀ j < k, m (src + UInt64.ofNat j).toNat ≠ 0) :
    strcpyLoop fuel dest src m = .error .diverges := by
  induction fuel generalizing m dest src with
  | zero => rfl
  | succ fuel ih =>
    have hfirst := hne 0 hk
    rw [add_ofNat_zero] at hfirst
    rw [strcpyLoop, if_pos hfirst]
    apply ih
    · rw [hdest, UInt64.add_assoc, UInt64.add_comm (UInt64.ofNat k), ← UInt64.add_assoc]
    · intro j hj
      by_cases heq : (src + 1 + UInt64.ofNat j).toNat = dest.toNat
      · rw [heq, write8_self]
        exact hfirst
      · rw [write8_of_ne heq, ← add_ofNat_succ]
        apply hne
        -- The byte behind the last one is the first of the destination.
        rcases Nat.lt_or_eq_of_le (Nat.succ_le_of_lt hj) with hlt | rfl
        · exact hlt
        · exact absurd (by rw [← add_ofNat_succ, hdest]) heq

/-- What a copy does that comes to its end, after `n` characters. -/
structure Copied (m m' : Mem) (dest src : UInt64) (n : Nat) : Prop where
  ne_zero : ∀ i < n, m' (dest + UInt64.ofNat i).toNat ≠ 0
  zero : m' (dest + UInt64.ofNat n).toNat = 0
  frame : ∀ x, (∀ i ≤ n, x ≠ (dest + UInt64.ofNat i).toNat) → m' x = m x
  reach : ∀ k, (∀ i < k, m (src + UInt64.ofNat i).toNat ≠ 0) → k ≤ n

/-- Behind its end a copy changes nothing. -/
theorem Copied.behind (h : Copied m m' dest src n) {i : Nat} (hi : n < i) (hlt : i < 2 ^ 64) :
    m' (dest + UInt64.ofNat i).toNat = m (dest + UInt64.ofNat i).toNat := by
  apply h.frame
  intro j hj heq
  have hsame := add_ofNat_inj hlt (by omega) (UInt64.toNat_inj.1 heq)
  omega

theorem strcpyLoop_copied (hfuel : fuel ≤ 2 ^ 64)
    (h : strcpyLoop fuel dest src m = .ok m') : ∃ n < fuel, Copied m m' dest src n := by
  induction fuel generalizing m dest src with
  | zero => cases h
  | succ fuel ih =>
    rw [strcpyLoop] at h
    split_ifs at h with hsrc
    · obtain ⟨n, hn, hcopied⟩ := ih (Nat.le_of_succ_le hfuel) h
      refine ⟨n + 1, Nat.succ_lt_succ hn, ?_, ?_, ?_, ?_⟩
      · intro i hi
        cases i with
        | zero =>
          rw [add_ofNat_zero, hcopied.frame, write8_self]
          · exact hsrc
          · intro i hi
            exact @toNat_ne_behind dest (n + 1) i (by omega) (Nat.lt_succ_of_le hi)
        | succ i =>
          rw [add_ofNat_succ]
          exact hcopied.ne_zero i (Nat.lt_of_succ_lt_succ hi)
      · rw [add_ofNat_succ]
        exact hcopied.zero
      · intro x hx
        have hfirst := hx 0 (Nat.zero_le _)
        rw [add_ofNat_zero] at hfirst
        rw [hcopied.frame x, write8_of_ne hfirst]
        intro i hi
        rw [← add_ofNat_succ]
        exact hx (i + 1) (Nat.succ_le_succ hi)
      · intro k hk
        cases k with
        | zero => exact Nat.zero_le _
        | succ k =>
          apply Nat.succ_le_succ
          apply hcopied.reach
          intro i hi
          by_cases heq : (src + 1 + UInt64.ofNat i).toNat = dest.toNat
          · rw [heq, write8_self]
            exact hsrc
          · rw [write8_of_ne heq, ← add_ofNat_succ]
            exact hk (i + 1) (Nat.succ_lt_succ hi)
    · obtain rfl := Except.ok.inj h
      refine ⟨0, Nat.zero_lt_succ _, fun i hi => absurd hi (Nat.not_lt_zero i), ?_, ?_, ?_⟩
      · rw [add_ofNat_zero, write8_self]
      · intro x hx
        have hfirst := hx 0 le_rfl
        rw [add_ofNat_zero] at hfirst
        exact write8_of_ne hfirst m 0
      · intro k hk
        apply Nat.le_of_not_lt
        intro hpos
        have hfirst := hk 0 hpos
        rw [add_ofNat_zero] at hfirst
        exact hsrc hfirst

/-- `strcpy` stores the string, or does not end. -/
theorem strcpy_stored (hstr : StrAt m src s) (hwithin : ¬ Within dest src s.length) :
    ∃ m', strcpy dest src m = .ok m' ∧ StoredAt m m' dest (s.length + 1) fun i => s.getD i 0 := by
  apply strcpyLoop_stored hstr hstr.length_lt
  intro i hi j hj
  apply pointer_ne _ hi hj
  intro k hk hle hdest
  exact hwithin ⟨k, hk, hle, hdest⟩

theorem strcpy_diverges (hstr : StrAt m src s) (hwithin : Within dest src s.length) :
    strcpy dest src m = .error .diverges := by
  obtain ⟨k, hk, hle, hdest⟩ := hwithin
  exact strcpyLoop_diverges hk hdest fun j hj => hstr.ne_zero (Nat.lt_of_lt_of_le hj hle)

theorem strlenLoop_spec (hstr : StrAt m src s) (hfuel : s.length < fuel) :
    strlenLoop fuel src m = .ok (UInt64.ofNat s.length) := by
  induction s generalizing src fuel with
  | nil =>
    obtain ⟨fuel, rfl⟩ := Nat.exists_eq_succ_of_ne_zero (Nat.ne_of_gt hfuel)
    rw [strlenLoop, if_neg (not_not.2 hstr.nil_zero)]
    rfl
  | cons c s ih =>
    obtain ⟨fuel, rfl⟩ := Nat.exists_eq_succ_of_ne_zero (Nat.ne_zero_of_lt hfuel)
    obtain ⟨hc, hne, htail⟩ := hstr.cons
    rw [strlenLoop, if_pos (hc ▸ hne), ih htail (Nat.lt_of_succ_lt_succ hfuel),
      List.length_cons, UInt64.ofNat_add]
    rfl

/-- The `int` is zero for the multiples of `2 ^ 32`. -/
theorem strlen_spec (hstr : StrAt m src s) :
    ∃ r, strlen src m = .ok r ∧ (r = 0 ↔ s.length % 2 ^ 32 = 0) := by
  refine ⟨(UInt64.ofNat s.length).toUInt32, ?_, ?_⟩
  · rw [strlen, strlenLoop_spec hstr hstr.length_lt]
    rfl
  · rw [← UInt32.toNat_inj, UInt64.toNat_toUInt32, toNat_ofNat_of_lt hstr.length_lt]
    rfl

end

/-! ## `SYSS_changedir` -/

section

variable {addr : Nat → UInt64} {n : Nat} {m m' : Mem} {s : List UInt8} {t i : Nat}

/-- A field of a task is at its offset. -/
theorem toNat_field {o : UInt64} (hplaced : StackPlaced addr n) (ht : t < n)
    (ho : o.toNat < sizeofTask) : (addr t + o).toNat = (addr t).toNat + o.toNat := by
  have hfits := (hplaced.taskAt t ht).fits
  rw [UInt64.toNat_add]
  omega

/-- And so is a byte in it. -/
theorem toNat_fieldByte {o : UInt64} (hplaced : StackPlaced addr n) (ht : t < n)
    (ho : o.toNat + i < sizeofTask) :
    (addr t + o + UInt64.ofNat i).toNat = (addr t).toNat + o.toNat + i := by
  have hfits := (hplaced.taskAt t ht).fits
  have hfield := toNat_field hplaced ht (Nat.lt_of_le_of_lt (Nat.le_add_right _ _) ho)
  rw [toNat_add_ofNat (by omega), hfield]

/-- A path that fits in `cwd`, or whose other characters are in the tasks already. Of a path whose
length is zero as an `int` only a terminator is stored. -/
def PathFits (addr : Nat → UInt64) (n : Nat) (m : Mem) (cwd path : UInt64) (s : List UInt8) :
    Prop :=
  s.length % 2 ^ 32 = 0 ∨ ¬ Within cwd path s.length ∧
    ∀ i, 128 ≤ i → i ≤ s.length → ∀ t < n, InTask addr t (cwd + UInt64.ofNat i).toNat →
      m (cwd + UInt64.ofNat i).toNat = s.getD i 0

/-- Of the bytes that are stored from the beginning of an array on, it has the first `size`. -/
theorem inField_iff {o : UInt64} {size : Nat} (hplaced : StackPlaced addr n) (ht : t < n)
    (ho : o.toNat + size < sizeofTask) (hi : i < 2 ^ 64) :
    InField (addr t) o size (addr t + o + UInt64.ofNat i).toNat ↔ i < size := by
  have hfits := (hplaced.taskAt t ht).fits
  have hbyte : ∀ j < size, (addr t + o + UInt64.ofNat j).toNat = (addr t + o).toNat + j := by
    intro j hj
    rw [toNat_fieldByte hplaced ht (by omega), toNat_field hplaced ht (by omega)]
  constructor
  · rintro ⟨hlow, hhigh⟩
    set x := (addr t + o + UInt64.ofNat i).toNat with hx
    have hlt : x - (addr t + o).toNat < size := by omega
    have heq := hbyte _ hlt
    rw [Nat.add_sub_cancel' hlow, hx, UInt64.toNat_inj] at heq
    rw [← add_ofNat_inj (by omega) hi heq]
    exact hlt
  · intro hlt
    rw [InField, hbyte i hlt]
    omega

theorem inCwd_iff (hplaced : StackPlaced addr n) (ht : t < n) (hi : i < 2 ^ 64) :
    InCwd (addr t) (addr t + cwdOffset + UInt64.ofNat i).toNat ↔ i < 128 :=
  inField_iff hplaced ht (by decide) hi

theorem syssChangedir_iff {empty path : UInt64} (hplaced : StackPlaced addr n) (ht : t < n)
    (hstr : StrAt m path s) (hempty : m empty.toNat = 0) :
    (∃ m', syssChangedir empty path (addr t) m = .ok m' ∧
        KeepsTasks addr n (InCwd (addr t)) m m') ↔
      PathFits addr n m (addr t + cwdOffset) path s := by
  obtain ⟨r, hr, hzero⟩ := strlen_spec hstr
  have hrun : syssChangedir empty path (addr t) m =
      if r = 0 then strcpy (addr t + cwdOffset) empty m
      else strcpy (addr t + cwdOffset) path m := by
    rw [syssChangedir, hr, ok_bind]
  rw [hrun]
  by_cases hlen : s.length % 2 ^ 32 = 0
  · refine iff_of_true ?_ (Or.inl hlen)
    have hnil : StrAt m empty [] := ⟨List.not_mem_nil, by decide, fun i hi => by
      rw [Nat.le_zero.1 hi, add_ofNat_zero, hempty]
      rfl⟩
    obtain ⟨m', hm', hstored⟩ := @strcpy_stored m (addr t + cwdOffset) empty [] hnil
      fun ⟨k, hk, hle, _⟩ => absurd hk (Nat.not_lt_of_le hle)
    refine ⟨m', by rw [if_pos (hzero.2 hlen), hm'], ?_⟩
    intro u hu x hx hfield
    apply hstored.frame
    intro i hi heq
    apply hfield
    obtain rfl : i = 0 := Nat.lt_one_iff.1 hi
    rw [heq]
    exact (inCwd_iff hplaced ht (by decide)).2 (by decide)
  rw [if_neg (mt hzero.1 hlen), PathFits, or_iff_right hlen]
  by_cases hwithin : Within (addr t + cwdOffset) path s.length
  · rw [strcpy_diverges hstr hwithin]
    exact iff_of_false (fun ⟨_, h, _⟩ => by cases h) fun h => h.1 hwithin
  obtain ⟨m', hm', hstored⟩ := strcpy_stored hstr hwithin
  have hlt := hstr.length_lt
  constructor
  · rintro ⟨m'', hm'', hkeeps⟩
    obtain rfl := Except.ok.inj (hm'.symm.trans hm'')
    refine ⟨hwithin, fun i hi hle u hu hin => ?_⟩
    rw [← hstored.put i (Nat.lt_succ_of_le hle), hkeeps u hu _ hin]
    rw [inCwd_iff hplaced ht (by omega)]
    exact Nat.not_lt_of_le hi
  · rintro ⟨-, hsame⟩
    refine ⟨m', hm', fun u hu x hx hfield => ?_⟩
    by_cases hwritten : ∃ i ≤ s.length, x = (addr t + cwdOffset + UInt64.ofNat i).toNat
    · obtain ⟨i, hi, rfl⟩ := hwritten
      rw [inCwd_iff hplaced ht (by omega)] at hfield
      rw [hstored.put i (Nat.lt_succ_of_le hi), hsame i (Nat.le_of_not_lt hfield) hi u hu hx]
    · apply hstored.frame
      intro i hi heq
      exact hwritten ⟨i, Nat.le_of_lt_succ hi, heq⟩

/-! ## The names of a new task -/

/-- The names fit. Either string may end with its NUL in `next`, which is `NULL`, and `binary` one
character later when the NUL of the other one comes to lie over that. Of what it stores between the
arrays everything is there already. -/
structure NamesFit (m : Mem) (name binary : UInt64) (b c : List UInt8) : Prop where
  apart : ¬ Within name binary b.length
  length : b.length ≤ 208 ∧ c.length ≤ 128 ∨ b.length = 209 ∧ c.length = 128
  same : ∀ i, 64 ≤ i → i < 80 → i ≤ b.length → m (name + UInt64.ofNat i).toNat = b.getD i 0

variable {u : Nat} {b c : List UInt8} {m₁ m₂ : Mem} {binary : UInt64}

/-- What has been stored into a task, by the addresses. -/
theorem stored_field {o : UInt64} {k : Nat} {g : Nat → UInt8} (hplaced : StackPlaced addr n)
    (hu : u < n) (hfit : o.toNat + k ≤ sizeofTask) (h : StoredAt m m' (addr u + o) k g) :
    (∀ i < k, m' ((addr u).toNat + o.toNat + i) = g i) ∧
      ∀ x, (x < (addr u).toNat + o.toNat ∨ (addr u).toNat + o.toNat + k ≤ x) → m' x = m x := by
  constructor
  · intro i hi
    rw [← toNat_fieldByte hplaced hu (by omega), h.put i hi]
  · intro x hx
    apply h.frame
    intro i hi
    rw [toNat_fieldByte hplaced hu (by omega)]
    omega

theorem strAt_cwd (hplaced : StackPlaced addr n) (ht : t < n) (hlen : c.length ≤ 128)
    (hcwd : StrAt m (addr t + cwdOffset) c) (hsame : ∀ x, InTask addr t x → m₁ x = m x) :
    StrAt m₁ (addr t + cwdOffset) c := by
  refine ⟨hcwd.nul_notMem, hcwd.length_lt, fun i hi => ?_⟩
  rw [← hcwd.bytes i hi]
  apply hsame
  have hoffset : cwdOffset.toNat = 168 := rfl
  have hsize : sizeofTask = 4456 := rfl
  rw [InTask, toNat_fieldByte hplaced ht (by omega)]
  omega

/-- The second copy, from the `cwd` of another task. -/
theorem strcpy_cwd (hplaced : StackPlaced addr n) (ht : t < n) (hu : u < n) (hne : t ≠ u)
    (hlen : c.length ≤ 128) (hcwd : StrAt m (addr t + cwdOffset) c) :
    ∃ m', strcpy (addr u + cwdOffset) (addr t + cwdOffset) m = .ok m' ∧
      (∀ i ≤ c.length, m' ((addr u).toNat + 168 + i) = c.getD i 0) ∧
        ∀ x, (x < (addr u).toNat + 168 ∨ (addr u).toNat + 168 + c.length < x) → m' x = m x := by
  have hapart := hplaced.apart t ht u hu hne
  have hoffset : cwdOffset.toNat = 168 := rfl
  have hsize : sizeofTask = 4456 := rfl
  have hwithin : ¬ Within (addr u + cwdOffset) (addr t + cwdOffset) c.length := by
    rintro ⟨k, -, hk, heq⟩
    have htk := @toNat_fieldByte addr n t k cwdOffset hplaced ht (by omega)
    rw [← heq, toNat_field hplaced hu (by omega)] at htk
    rcases hapart with h | h
    · omega
    · omega
  obtain ⟨m', hm', hstored⟩ := strcpy_stored hcwd hwithin
  obtain ⟨hput, hframe⟩ := stored_field hplaced hu (by omega) hstored
  refine ⟨m', hm', fun i hi => hput i (Nat.lt_succ_of_le hi), fun x hx => hframe x ?_⟩
  omega

/-- The first copy, when it stays in the new task. -/
theorem strcpy_taskName (hplaced : StackPlaced addr n) (hu : u < n) (hlen : b.length ≤ 209)
    (hbin : StrAt m binary b)
    (hwithin : ¬ Within (addr u + taskNameOffset) binary b.length) :
    ∃ m', strcpy (addr u + taskNameOffset) binary m = .ok m' ∧
      (∀ i ≤ b.length, m' ((addr u).toNat + 88 + i) = b.getD i 0) ∧
        ∀ x, (x < (addr u).toNat + 88 ∨ (addr u).toNat + 88 + b.length < x) → m' x = m x := by
  have hoffset : taskNameOffset.toNat = 88 := rfl
  have hsize : sizeofTask = 4456 := rfl
  obtain ⟨m', hm', hstored⟩ := strcpy_stored hbin hwithin
  obtain ⟨hput, hframe⟩ := stored_field hplaced hu (by omega) hstored
  refine ⟨m', hm', fun i hi => hput i (Nat.lt_succ_of_le hi), fun x hx => hframe x ?_⟩
  omega

/-- It leaves the other tasks as they were. -/
theorem taskName_apart (hapart : TasksApart (addr t) (addr u)) (hlen : b.length ≤ 209)
    (hframe : ∀ x, (x < (addr u).toNat + 88 ∨ (addr u).toNat + 88 + b.length < x) → m₁ x = m x) :
    ∀ x, InTask addr t x → m₁ x = m x := by
  intro x hx
  apply hframe
  have hsize : sizeofTask = 4456 := rfl
  rw [InTask] at hx
  rcases hapart with h | h
  · omega
  · omega

theorem inNames_iff (hplaced : StackPlaced addr n) (hu : u < n) (x : Nat) :
    InNames (addr u) x ↔
      (addr u).toNat + 88 ≤ x ∧ x < (addr u).toNat + 152 ∨
        (addr u).toNat + 168 ≤ x ∧ x < (addr u).toNat + 296 := by
  rw [InNames, InTaskName, InCwd, InField, InField, toNat_field hplaced hu (by decide),
    toNat_field hplaced hu (by decide)]
  rfl

/-- Names that fit leave the rest of the tasks as it was. -/
theorem storeNames_keeps (hplaced : StackPlaced addr n) (ht : t < n) (hu : u < n) (hne : t ≠ u)
    (hbin : StrAt m binary b) (hcwd : StrAt m (addr t + cwdOffset) c)
    (hnext : ∀ i < 8, m ((addr u).toNat + 296 + i) = 0)
    (h : NamesFit m (addr u + taskNameOffset) binary b c) :
    ∃ m', storeNames binary (addr t) (addr u) m = .ok m' ∧
      KeepsTasks addr n (InNames (addr u)) m m' := by
  have hsize : sizeofTask = 4456 := rfl
  have hb : b.length ≤ 209 := by
    have := h.length
    omega
  have hc : c.length ≤ 128 := by
    have := h.length
    omega
  obtain ⟨m₁, hm₁, hput₁, hframe₁⟩ := strcpy_taskName hplaced hu hb hbin h.apart
  have hsame := taskName_apart (hplaced.apart t ht u hu hne) hb hframe₁
  obtain ⟨m₂, hm₂, hput₂, hframe₂⟩ :=
    strcpy_cwd hplaced ht hu hne hc (strAt_cwd hplaced ht hc hcwd hsame)
  refine ⟨m₂, by rw [storeNames, hm₁, ok_bind, hm₂], fun v hv x hx hfield => ?_⟩
  rw [inNames_iff hplaced hu] at hfield
  have hlength := h.length
  have hlast : ∀ {l : List UInt8} {k : Nat}, l.length = k → l.getD k 0 = 0 :=
    fun h => List.getD_eq_default _ _ h.le
  by_cases hzero : x = (addr u).toNat + 296 + 0
  · rw [hzero, hnext 0 (by decide)]
    by_cases hfull : c.length = 128
    · rw [show (addr u).toNat + 296 + 0 = (addr u).toNat + 168 + 128 by omega,
        hput₂ 128 (by omega), hlast hfull]
    · rw [hframe₂ _ (by omega)]
      by_cases hfull : b.length = 208
      · rw [show (addr u).toNat + 296 + 0 = (addr u).toNat + 88 + 208 by omega,
          hput₁ 208 (by omega), hlast hfull]
      · rw [hframe₁ _ (by omega), hnext 0 (by decide)]
  rw [hframe₂ x (by omega)]
  by_cases hone : x = (addr u).toNat + 88 + 209 ∧ b.length = 209
  · rw [hone.1, hput₁ 209 (by omega), hlast hone.2]
    exact (hnext 1 (by decide)).symm
  by_cases hmid : (addr u).toNat + 152 ≤ x ∧ x ≤ (addr u).toNat + 88 + b.length
  · have hi : x = (addr u).toNat + 88 + (x - (addr u).toNat - 88) := by omega
    have hsame := h.same (x - (addr u).toNat - 88) (by omega) (by omega) (by omega)
    have hoffset : taskNameOffset.toNat = 88 := rfl
    rw [toNat_fieldByte hplaced hu (by omega)] at hsame
    rw [hi, hput₁ _ (by omega), ← hsame]
    rfl
  · exact hframe₁ x (by omega)

/-- The link behind `cwd` is `NULL` in the end, as it was before. -/
theorem KeepsTasks.link (hplaced : StackPlaced addr n) (hu : u < n)
    (hnext : ∀ i < 8, m ((addr u).toNat + 296 + i) = 0)
    (h : KeepsTasks addr n (InNames (addr u)) m m₂) {i : Nat} (hi : i < 8) :
    m₂ (addr u + cwdOffset + UInt64.ofNat (128 + i)).toNat = 0 := by
  have hoffset : cwdOffset.toNat = 168 := rfl
  have hsize : sizeofTask = 4456 := rfl
  have hx := @toNat_fieldByte addr n u (128 + i) cwdOffset hplaced hu (by omega)
  rw [h u hu, hx]
  · rw [← hnext i hi, hoffset]
    congr 1
    omega
  · rw [InTask]
    omega
  · rw [inNames_iff hplaced hu]
    omega

/-- A character of `binary` that is put behind `cwd`. -/
theorem binary_over (hplaced : StackPlaced addr n) (hu : u < n) (hbin : StrAt m binary b)
    (hstored : StoredAt m m₁ (addr u + taskNameOffset) (b.length + 1) fun i => b.getD i 0)
    {i : Nat} (hi : i < 8) (hlt : 208 + i < b.length) :
    m₁ (addr u + cwdOffset + UInt64.ofNat (128 + i)).toNat ≠ 0 := by
  have hname : taskNameOffset.toNat = 88 := rfl
  have hoffset : cwdOffset.toNat = 168 := rfl
  have hsize : sizeofTask = 4456 := rfl
  have hsame : (addr u + cwdOffset + UInt64.ofNat (128 + i)).toNat =
      (addr u + taskNameOffset + UInt64.ofNat (208 + i)).toNat := by
    rw [toNat_fieldByte hplaced hu (by omega), toNat_fieldByte hplaced hu (by omega)]
    omega
  rw [hsame, hstored.put _ (Nat.lt_succ_of_lt hlt), List.getD_eq_getElem _ _ hlt]
  intro hzero
  exact hbin.nul_notMem (hzero ▸ List.getElem_mem hlt)

/-- Names that leave the rest of the new task as it was fit. -/
theorem namesFit_of_keeps (hplaced : StackPlaced addr n) (ht : t < n) (hu : u < n) (hne : t ≠ u)
    (hbin : StrAt m binary b) (hcwd : StrAt m (addr t + cwdOffset) c)
    (hnext : ∀ i < 8, m ((addr u).toNat + 296 + i) = 0)
    (hrun : storeNames binary (addr t) (addr u) m = .ok m₂)
    (hkeeps : KeepsTasks addr n (InNames (addr u)) m m₂) :
    NamesFit m (addr u + taskNameOffset) binary b c := by
  have hsize : sizeofTask = 4456 := rfl
  have hname : taskNameOffset.toNat = 88 := rfl
  have hoffset : cwdOffset.toNat = 168 := rfl
  have hwithin : ¬ Within (addr u + taskNameOffset) binary b.length := by
    intro hwithin
    rw [storeNames, strcpy_diverges hbin hwithin] at hrun
    cases hrun
  obtain ⟨m₁, hm₁, hstored⟩ := strcpy_stored hbin hwithin
  rw [storeNames, hm₁, ok_bind] at hrun
  obtain ⟨k, hk, hcopied⟩ := strcpyLoop_copied le_rfl hrun
  have hstop : k ≤ 128 := by
    apply Nat.le_of_not_lt
    intro hlt
    exact hcopied.ne_zero 128 hlt (hkeeps.link hplaced hu hnext (i := 0) (by decide))
  have hb : b.length ≤ 209 := by
    apply Nat.le_of_not_lt
    intro hlt
    apply binary_over hplaced hu hbin hstored (i := 1) (by decide) hlt
    rw [← hcopied.behind (by omega) (by decide)]
    exact hkeeps.link hplaced hu hnext (by decide)
  obtain ⟨m₁', hm₁', hput₁, hframe₁⟩ := strcpy_taskName hplaced hu hb hbin hwithin
  obtain rfl := Except.ok.inj (hm₁'.symm.trans hm₁)
  have hsame := taskName_apart (hplaced.apart t ht u hu hne) hb hframe₁
  have hc : c.length ≤ 128 := by
    apply Nat.le_of_not_lt
    intro hlt
    have hreach : 129 ≤ k := by
      apply hcopied.reach
      intro i hi
      rw [hsame]
      · exact hcwd.ne_zero (by omega)
      · rw [InTask, toNat_fieldByte hplaced ht (by omega)]
        omega
    omega
  obtain ⟨m₂', hm₂', hput₂, hframe₂⟩ :=
    strcpy_cwd hplaced ht hu hne hc (strAt_cwd hplaced ht hc hcwd hsame)
  obtain rfl := Except.ok.inj (hm₂'.symm.trans hrun)
  refine ⟨hwithin, ?_, ?_⟩
  · by_cases hle : b.length ≤ 208
    · exact Or.inl ⟨hle, hc⟩
    · refine Or.inr ⟨by omega, ?_⟩
      by_contra hshort
      apply binary_over hplaced hu hbin hstored (i := 0) (by decide) (by omega)
      have hzero := hkeeps.link hplaced hu hnext (i := 0) (by decide)
      rw [toNat_fieldByte hplaced hu (by omega)] at hzero ⊢
      rwa [hframe₂ _ (by omega)] at hzero
  · intro i hlow hhigh hi
    have hbyte := @toNat_fieldByte addr n u i taskNameOffset hplaced hu (by omega)
    have hkept := hkeeps u hu (addr u + taskNameOffset + UInt64.ofNat i).toNat
      (by rw [InTask]; omega) (by rw [inNames_iff hplaced hu]; omega)
    rw [← hkept, hframe₂ _ (by omega), hbyte, hname]
    exact hput₁ i hi

/-- Then the fields behind both arrays are as they were in every task, and so is the task list. -/
theorem KeepsTasks.field (hplaced : StackPlaced addr n) (hu : u < n)
    (h : KeepsTasks addr n (InNames (addr u)) m m') {v o : Nat} (hv : v < n)
    (ho : 152 ≤ o ∧ o < 168 ∨ 296 ≤ o ∧ o < sizeofTask) :
    m' ((addr v).toNat + o) = m ((addr v).toNat + o) := by
  have hsize : sizeofTask = 4456 := rfl
  apply h v hv
  · rw [InTask]
    omega
  · rw [inNames_iff hplaced hu]
    by_cases hne : v = u
    · subst hne
      omega
    · rcases hplaced.apart v hv u hu hne with h' | h'
      · omega
      · omega

theorem KeepsTasks.next (hplaced : StackPlaced addr n) (hu : u < n)
    (h : KeepsTasks addr n (InNames (addr u)) m m') {v : Nat} (hv : v < n) :
    read64 m' (addr v + nextOffset).toNat = read64 m (addr v + nextOffset).toNat := by
  rw [toNat_field hplaced hv (by decide)]
  apply read64_congr
  intro i hi
  rw [Nat.add_assoc]
  apply h.field hplaced hu hv
  rw [show nextOffset.toNat = 296 from rfl, sizeofTask]
  omega

/-- **The strings of a task.** `SYSS_changedir` changes nothing of the tasks but the array `cwd`
of the running one, and the copies of `sanexecve` nothing but both arrays of the new one, exactly
for the strings that fit. -/
theorem task_strings_iff {empty path : UInt64} (hplaced : StackPlaced addr n) (ht : t < n)
    (hu : u < n) (hne : t ≠ u) (hempty : m empty.toNat = 0) (hpath : StrAt m path s)
    (hbin : StrAt m binary b) (hcwd : StrAt m (addr t + cwdOffset) c)
    (hnext : ∀ i < 8, m ((addr u + nextOffset).toNat + i) = 0) :
    ((∃ m', syssChangedir empty path (addr t) m = .ok m' ∧
        KeepsTasks addr n (InCwd (addr t)) m m') ↔
      PathFits addr n m (addr t + cwdOffset) path s) ∧
    ((∃ m', storeNames binary (addr t) (addr u) m = .ok m' ∧
        KeepsTasks addr n (InNames (addr u)) m m') ↔
      NamesFit m (addr u + taskNameOffset) binary b c) := by
  rw [toNat_field hplaced hu (by decide)] at hnext
  refine ⟨syssChangedir_iff hplaced ht hpath hempty, ?_, ?_⟩
  · rintro ⟨m', hrun, hkeeps⟩
    exact namesFit_of_keeps hplaced ht hu hne hbin hcwd hnext hrun hkeeps
  · exact storeNames_keeps hplaced ht hu hne hbin hcwd hnext

end

/-! ## Two tasks -/

def addrs (t : Nat) : UInt64 := UInt64.ofNat (8192 * (t + 1))

/-- A string of `k` letters at 256, one of `j` letters in the `cwd` of the first task, and zeros. -/
def lettersAt (k j : Nat) : Mem := fun x =>
  if 256 ≤ x ∧ x < 256 + k ∨ 8360 ≤ x ∧ x < 8360 + j then 97 else 0

theorem toNat_addrs {t : Nat} (ht : t < 2) : (addrs t).toNat = 8192 * (t + 1) :=
  toNat_ofNat_of_lt (by omega)

theorem placed_addrs : StackPlaced addrs 2 where
  taskAt t ht := by
    constructor
    · rw [toNat_addrs ht]
      omega
    · rw [toNat_addrs ht, sizeofTask]
      omega
  apart t ht u hu hne := by
    rw [TasksApart, toNat_addrs ht, toNat_addrs hu, sizeofTask]
    omega

theorem strAt_replicate {m : Mem} {a : UInt64} {k : Nat} (hk : k < 2 ^ 32)
    (ha : a.toNat + k < 2 ^ 64) (hletter : ∀ i < k, m (a.toNat + i) = 97)
    (hend : m (a.toNat + k) = 0) :
    StrAt m a (List.replicate k 97) := by
  refine ⟨by simp [List.mem_replicate], by rw [List.length_replicate]; omega, fun i hi => ?_⟩
  rw [List.length_replicate] at hi
  rw [toNat_add_ofNat (by omega)]
  rcases Nat.lt_or_eq_of_le hi with hlt | rfl
  · rw [hletter i hlt, List.getD_replicate _ hlt]
  · rw [hend, List.getD_eq_default _ _ (List.length_replicate.le)]

theorem strAt_letters {k : Nat} (hk : k ≤ 136) (j : Nat) :
    StrAt (lettersAt k j) 256 (List.replicate k 97) := by
  have haddr : (256 : UInt64).toNat = 256 := rfl
  refine strAt_replicate (by omega) (by omega) (fun i hi => if_pos ?_) (if_neg ?_)
  · omega
  · omega

theorem strAt_cwdLetters {k j : Nat} (hk : k ≤ 136) (hj : j ≤ 128) :
    StrAt (lettersAt k j) (addrs 0 + cwdOffset) (List.replicate j 97) := by
  have haddr : (addrs 0 + cwdOffset).toNat = 8360 := rfl
  refine strAt_replicate (by omega) (by omega) (fun i hi => if_pos ?_) (if_neg ?_)
  · omega
  · omega

theorem next_letters {k j : Nat} (hk : k ≤ 136) (hj : j ≤ 128) (i : Nat) :
    lettersAt k j ((addrs 1 + nextOffset).toNat + i) = 0 :=
  if_neg (by rw [show (addrs 1 + nextOffset).toNat = 16680 from rfl]; omega)

/-- A name of 63 letters fits, with a `cwd` of 20. -/
theorem task_strings_letters :
    (∃ m', syssChangedir 0 256 (addrs 0) (lettersAt 63 20) = .ok m' ∧
      KeepsTasks addrs 2 (InCwd (addrs 0)) (lettersAt 63 20) m') ∧
    ∃ m', storeNames 256 (addrs 0) (addrs 1) (lettersAt 63 20) = .ok m' ∧
      KeepsTasks addrs 2 (InNames (addrs 1)) (lettersAt 63 20) m' := by
  have hstr : StrAt (lettersAt 63 20) 256 (List.replicate 63 97) := strAt_letters (by decide) 20
  have hiff := @task_strings_iff addrs 2 (lettersAt 63 20) _ 0 1 _ _ 256 0 256 placed_addrs
    (by decide) (by decide) (by decide) rfl hstr hstr
    (strAt_cwdLetters (by decide) (by decide)) (fun i _ => next_letters (by decide) (by decide) i)
  have hapart : ∀ dest : UInt64, 8192 ≤ dest.toNat →
      ¬ Within dest 256 (List.replicate 63 (97 : UInt8)).length := by
    rintro dest hlo ⟨k, -, hle, rfl⟩
    rw [List.length_replicate] at hle
    have haddr : (256 : UInt64).toNat = 256 := rfl
    rw [toNat_add_ofNat (by omega)] at hlo
    omega
  refine ⟨hiff.1.2 (Or.inr ⟨hapart _ (by decide), fun i hi hle => ?_⟩),
    hiff.2.2 ⟨hapart _ (by decide), Or.inl ⟨by decide, by decide⟩, fun i hi _ hle => ?_⟩⟩
  · exact absurd (hi.trans hle) (by decide)
  · exact absurd (hi.trans hle) (by decide)

/-- A string of 136 letters overwrites `next` of the one task and `pid` of the other. -/
theorem task_strings_overrun :
    (¬ ∃ m', syssChangedir 0 256 (addrs 0) (lettersAt 136 0) = .ok m' ∧
      KeepsTasks addrs 2 (InCwd (addrs 0)) (lettersAt 136 0) m') ∧
    ¬ ∃ m', storeNames 256 (addrs 0) (addrs 1) (lettersAt 136 0) = .ok m' ∧
      KeepsTasks addrs 2 (InNames (addrs 1)) (lettersAt 136 0) m' := by
  have hstr := strAt_letters (k := 136) le_rfl 0
  constructor
  · rw [syssChangedir_iff placed_addrs (by decide) hstr rfl]
    rw [PathFits, List.length_replicate]
    rintro (hzero | ⟨-, hsame⟩)
    · exact absurd hzero (by decide)
    · have h := hsame 128 le_rfl (by decide) 0 (by decide) (by unfold InTask; decide)
      rw [List.getD_replicate _ (by decide)] at h
      exact absurd h (by decide)
  · rintro ⟨m', hrun, hkeeps⟩
    have hfit := @namesFit_of_keeps addrs 2 (lettersAt 136 0) 0 1 _ [] m' 256 placed_addrs
      (by decide) (by decide) (by decide) hstr (strAt_cwdLetters le_rfl (Nat.zero_le 128))
      (fun i _ => next_letters le_rfl (Nat.zero_le 128) i) hrun hkeeps
    have h := hfit.same 64 le_rfl (by decide) (by rw [List.length_replicate]; decide)
    rw [List.getD_replicate _ (by decide)] at h
    exact absurd h (by decide)

end InMemory

end Sbunix
