import Sbunix.Console
import Mathlib

/-!
# Printing from user space

`printf` of `libc/printf.c` hands its text piece by piece to `sys_write`, and `sys_write` of
`sys/syscall.c` hands the buffer to `kprintf` as a format. A text thus passes through two
formatters.

`kprintfFrom_text` prints a text without a percent sign. A percent sign is never printed by a call
without arguments, which `percents` counts. `write_verbatim_iff` puts the two together.
-/

namespace Sbunix

open Lib

/-! ## The system call -/

/-- `sys_write`, with the bytes behind the ones it reads. -/
def sysWrite (fd_count : UInt64) (addr : List UInt8) (_len : Int32) (s : Console) :
    Except Fault (Int32 × List UInt8 × Console) :=
  let len := 0
  if fd_count = 0 ∨ fd_count = 1 then (kprintfFrom addr [] s).map fun r => (len, r)
  else .ok (0, addr, s)

/-! ## The library -/

def write (arg1 : Int32) (arg2 : List UInt8) (arg3 : UInt64) (s : Console) :
    Except Fault (Int64 × Console) :=
  if arg1 < 0 then .ok (0, s)
  else (sysWrite arg1.toInt64.toUInt64 arg2 arg3.toUInt32.toInt32 s).map
    fun r => (r.1.toInt64, r.2.2)

/-- `write(1, str, strlen(str))`. -/
def printfStr (string : List UInt8) (s : Console) : Except Fault Console := do
  let len ← strlen string
  (write 1 string (UInt64.ofNat len) s).map Prod.snd

def printfInt (tarf : UInt64) (s : Console) : Except Fault Console :=
  printfStr ((digits 10 tarf).map (fun d => UInt8.ofNat (d + 48)) ++ [0]) s

def printfChar (decimal : UInt64) (s : Console) : Except Fault Console :=
  printfStr ((digits 16 decimal).map (fun d => UInt8.ofNat (if d < 10 then d + 48 else d + 55)) ++
    [0]) s

def printfDef (c : UInt8) (s : Console) : Except Fault Console := printfStr [c, 0] s

/-- The case of a percent sign in `printf`. -/
def printfDirective (c : UInt8) (args : List VaArg) (s : Console) :
    Except Fault (List VaArg × Console) :=
  if c = 'p'.toUInt8 ∨ c = 'x'.toUInt8 then
    match args with
    | .word v :: args => (printfChar v s).map fun s => (args, s)
    | _ => .error .outOfBounds
  else if c = 'd'.toUInt8 then
    match args with
    | .word v :: args => (printfInt v s).map fun s => (args, s)
    | _ => .error .outOfBounds
  else if c = 'c'.toUInt8 then
    match args with
    | .word v :: args => (printfDef v.toUInt8 s).map fun s => (args, s)
    | _ => .error .outOfBounds
  else if c = 's'.toUInt8 then
    match args with
    | .pointer str :: args => (printfStr str s).map fun s => (args, s)
    | _ => .error .outOfBounds
  else .ok (args, s)

def printf : List UInt8 → List VaArg → Console → Except Fault Console
  | [], _, _ => .error .outOfBounds
  | c :: fmt, args, s =>
    if c = '%'.toUInt8 then
      match fmt with
      | [] => .error .outOfBounds
      | c :: fmt => do
        let (args, s) ← printfDirective c args s
        printf fmt args s
    else if c = 0 then .ok s
    else do
      let s ← printfDef c s
      printf fmt args s

/-! ## Texts -/

/-- A byte of a text, as `kprintf` takes it. -/
def outputOf (c : UInt8) : Output :=
  if c = '\n'.toUInt8 then .newline else if c = '\x08'.toUInt8 then .backspace else .chars [c]

/-- The bytes of a text printed one after the other, and the NUL behind them read. -/
def Console.printText (s : Console) (text : List UInt8) : Console :=
  ((text.map outputOf).foldl Console.exec s).checkWidth

section

variable {fmt text buf after rest : List UInt8} {os : List Output} {s : Console}

theorem format_char {c : UInt8} (hc : c ≠ 0) (hpercent : c ≠ '%'.toUInt8) (fmt : List UInt8)
    (args : List VaArg) :
    format (c :: fmt) args = (format fmt args).map fun r => (outputOf c :: r.1, r.2) := by
  rw [format_cons, outputOf]
  by_cases hnewline : c = '\n'.toUInt8
  · rw [if_pos hnewline, if_pos hnewline]
  · rw [if_neg hnewline, if_neg hnewline]
    by_cases hback : c = '\x08'.toUInt8
    · rw [if_pos hback, if_pos hback]
    · rw [if_neg hback, if_neg hback, if_neg hpercent, if_neg hc]

/-- A text in front of a format. -/
theorem format_append (hnul : 0 ∉ text) (hpercent : '%'.toUInt8 ∉ text) (fmt : List UInt8)
    (args : List VaArg) :
    format (text ++ fmt) args = (format fmt args).map fun r => (text.map outputOf ++ r.1, r.2) := by
  induction text with
  | nil =>
    rw [List.nil_append]
    cases format fmt args <;> rfl
  | cons c text ih =>
    rw [List.mem_cons, not_or] at hnul hpercent
    rw [List.cons_append, format_char (Ne.symm hnul.1) (Ne.symm hpercent.1), ih hnul.2 hpercent.2]
    cases format fmt args <;> rfl

theorem kprintfFrom_text (hnul : 0 ∉ text) (hpercent : '%'.toUInt8 ∉ text) (rest : List UInt8)
    (s : Console) :
    kprintfFrom (text ++ 0 :: rest) [] s = .ok (rest, s.printText text) := by
  have hend : format (0 :: rest) [] = .ok ([], rest) := by
    rw [format_cons, if_neg (by decide), if_neg (by decide), if_neg (by decide), if_pos rfl]
  rw [kprintfFrom_eq, format_append hnul hpercent, hend]
  simp [Except.map, Console.printText]

/-- Without arguments a directive prints nothing. -/
theorem directiveText_nil {c : UInt8} {args : List VaArg}
    (h : directiveText c [] = .ok (args, text)) : args = [] ∧ text = [] := by
  unfold directiveText at h
  split_ifs at h
  cases h
  exact ⟨rfl, rfl⟩

/-- A call without arguments reads bytes, percent signs with the byte behind them, and a NUL. -/
theorem format_induction {P : List UInt8 → List Output → List UInt8 → Prop}
    (nul : ∀ rest, P (0 :: rest) [] rest)
    (byte : ∀ c fmt os rest, c ≠ 0 → c ≠ '%'.toUInt8 → format fmt [] = .ok (os, rest) →
      P fmt os rest → P (c :: fmt) (outputOf c :: os) rest)
    (percent : ∀ c fmt os rest, format fmt [] = .ok (os, rest) → P fmt os rest →
      P ('%'.toUInt8 :: c :: fmt) (.chars [] :: os) rest)
    (h : format fmt [] = .ok (os, rest)) : P fmt os rest := by
  induction hn : fmt.length using Nat.strong_induction_on generalizing fmt os with
  | _ n ih =>
    subst hn
    cases fmt with
    | nil => cases h
    | cons c fmt =>
      by_cases hpercent : c = '%'.toUInt8
      · subst hpercent
        rw [format_cons, if_neg (by decide), if_neg (by decide), if_pos rfl] at h
        cases fmt with
        | nil => cases h
        | cons c fmt =>
          obtain ⟨⟨args, text⟩, hdirective, h⟩ := bind_eq_ok.1 h
          obtain ⟨rfl, rfl⟩ := directiveText_nil hdirective
          obtain ⟨⟨os, rest⟩, hr, heq⟩ := map_eq_ok.1 h
          cases heq
          exact percent c fmt os rest hr (ih _ (by simp only [List.length_cons]; omega) hr rfl)
      · by_cases hc : c = 0
        · subst hc
          rw [format_cons, if_neg (by decide), if_neg (by decide), if_neg (by decide),
            if_pos rfl] at h
          cases h
          exact nul _
        · rw [format_char hc hpercent] at h
          obtain ⟨⟨os, rest⟩, hr, heq⟩ := map_eq_ok.1 h
          cases heq
          exact byte c fmt os rest hc hpercent hr (ih _ (by simp) hr rfl)

/-- A call reads the byte it starts with, and one more unless it is NUL. -/
theorem format_reads (h : format fmt [] = .ok (os, rest)) :
    rest.length + 1 ≤ fmt.length ∧ (fmt.head? ≠ some 0 → rest.length + 2 ≤ fmt.length) := by
  apply format_induction
    (P := fun fmt _ rest => rest.length + 1 ≤ fmt.length ∧
      (fmt.head? ≠ some 0 → rest.length + 2 ≤ fmt.length)) _ _ _ h
  · intro rest
    simp
  · intro c fmt os rest _ _ _ ih
    simp only [List.length_cons]
    omega
  · intro c fmt os rest _ ih
    simp only [List.length_cons]
    omega

/-! ## Percent signs on the console -/

/-- The percent signs stored so far. -/
def percents (s : Console) : Nat := (s.stores.map Prod.snd).count '%'.toUInt8

theorem percents_put (s : Console) (c : UInt8) :
    percents (s.put c) = percents s + [c].count '%'.toUInt8 := by
  have hcolour : (colour == '%'.toUInt8) = false := by decide
  simp [percents, Console.put, List.count_cons, hcolour]

theorem percents_print (s : Console) (text : List UInt8) :
    percents (s.print text) = percents s + text.count '%'.toUInt8 := by
  have hfold : percents (text.foldl Console.put s) = percents s + text.count '%'.toUInt8 := by
    induction text generalizing s with
    | nil => rfl
    | cons c text ih =>
      rw [List.foldl_cons, ih, percents_put, ← List.singleton_append (x := c) (l := text),
        List.count_append, Nat.add_assoc]
  exact hfold

theorem percents_checkWidth (s : Console) : percents s.checkWidth = percents s := by
  unfold Console.checkWidth
  split_ifs
  · rfl
  · rfl

theorem percents_clearCell (s : Console) : percents s.clearCell = percents s := by
  have hprint : percents (s.checkWidth.printOne 32) = percents s :=
    (percents_put s.checkWidth 32).trans (percents_checkWidth s)
  exact (percents_checkWidth _).trans hprint

theorem percents_clearCells (n : Nat) (s : Console) : percents (s.clearCells n) = percents s := by
  have hcells : ∀ s, percents (Console.clearCell^[n] s) = percents s := by
    induction n with
    | zero => exact fun s => rfl
    | succ n ih =>
      intro s
      rw [Function.iterate_succ_apply, ih, percents_clearCell]
  exact hcells _

theorem percents_screenclear (s : Console) : percents s.screenclear = percents s := by
  rw [screenclear_eq]
  exact percents_clearCells 1840 s

theorem percents_with_line (s : Console) (line : Int) :
    percents { s with lineCount := line } = percents s := rfl

theorem percents_newline (s : Console) : percents s.newline = percents s := by
  rw [newline_eq]
  by_cases hlast : s.lineCount + 1 > 23
  · rw [if_pos hlast, percents_with_line, percents_screenclear]
    rfl
  · rw [if_neg hlast]
    rfl

theorem percents_back (s : Console) : percents s.back = percents s :=
  percents_put { s with video := s.video - 2 } 32

/-- The percent signs of an output. -/
def Output.percents : Output → Nat
  | .chars text => text.count '%'.toUInt8
  | _ => 0

theorem percents_exec (s : Console) (o : Output) :
    percents (s.exec o) = percents s + o.percents := by
  cases o with
  | chars text => exact (percents_print _ text).trans (by rw [percents_checkWidth]; rfl)
  | newline => exact (percents_newline _).trans (percents_checkWidth s)
  | backspace => exact (percents_back _).trans (percents_checkWidth s)

theorem percents_foldl (os : List Output) (s : Console) :
    percents (os.foldl Console.exec s) = percents s + (os.map Output.percents).sum := by
  induction os generalizing s with
  | nil => rfl
  | cons o os ih =>
    rw [List.foldl_cons, ih, percents_exec, List.map_cons, List.sum_cons]
    omega

theorem percents_outputOf (c : UInt8) : (outputOf c).percents = [c].count '%'.toUInt8 := by
  unfold outputOf
  split_ifs with hnewline hback
  · subst hnewline
    decide
  · subst hback
    decide
  · rfl

theorem percents_printText (s : Console) (text : List UInt8) :
    percents (s.printText text) = percents s + text.count '%'.toUInt8 := by
  have hsum : ((text.map outputOf).map Output.percents).sum = text.count '%'.toUInt8 := by
    induction text with
    | nil => rfl
    | cons c text ih =>
      rw [List.map_cons, List.map_cons, List.sum_cons, ih, percents_outputOf,
        ← List.singleton_append (x := c) (l := text), List.count_append]
  rw [Console.printText, percents_checkWidth, percents_foldl, hsum]

/-- A call without arguments stores no percent sign. -/
theorem percents_kprintfFrom {s' : Console} (h : kprintfFrom fmt [] s = .ok (rest, s')) :
    percents s' = percents s := by
  rw [kprintfFrom_eq] at h
  obtain ⟨⟨os, rest⟩, hformat, heq⟩ := map_eq_ok.1 h
  cases heq
  have hsum : (os.map Output.percents).sum = 0 := by
    apply format_induction (P := fun _ os _ => (os.map Output.percents).sum = 0) _ _ _ hformat
    · exact fun rest => rfl
    · intro c fmt os rest _ hc _ ih
      have hcount : [c].count '%'.toUInt8 = 0 :=
        List.count_eq_zero_of_not_mem (by rw [List.mem_singleton]; exact Ne.symm hc)
      rw [List.map_cons, List.sum_cons, ih, percents_outputOf, hcount]
    · intro c fmt os rest _ ih
      rw [List.map_cons, List.sum_cons, ih]
      rfl
  rw [percents_checkWidth, percents_foldl, hsum]
  rfl

end

/-! ## Buffers -/

/-- `sys_write` returns `len`, prints the text `buf` and reads no byte behind the one that follows
it. -/
def Delivers (fd : UInt64) (buf after : List UInt8) (s : Console) (len : Int) : Prop :=
  ∃ r rest, sysWrite fd (buf ++ after) (Int32.ofNat buf.length) s = .ok (r, rest, s.printText buf) ∧
    r.toInt = len ∧ after.length ≤ rest.length + 1

section

variable {fd : UInt64} {buf after : List UInt8} {s : Console}

theorem sysWrite_eq (hfd : fd = 0 ∨ fd = 1) (addr : List UInt8) (len : Int32) (s : Console) :
    sysWrite fd addr len s = (kprintfFrom addr [] s).map fun r => (0, r) := if_pos hfd

theorem Delivers.len_eq {len : Int} (hfd : fd = 0 ∨ fd = 1) (h : Delivers fd buf after s len) :
    len = 0 := by
  obtain ⟨r, rest, hwrite, rfl, -⟩ := h
  rw [sysWrite_eq hfd] at hwrite
  obtain ⟨p, -, heq⟩ := map_eq_ok.1 hwrite
  obtain rfl := congrArg Prod.fst heq
  rfl

/-- A buffer is delivered exactly when `kprintf` takes its bytes as they are and then ends. -/
theorem delivers_iff (hfd : fd = 0 ∨ fd = 1) (hbuf : 0 ∉ buf) :
    Delivers fd buf after s 0 ↔ '%'.toUInt8 ∉ buf ∧ after.head? = some 0 := by
  constructor
  · rintro ⟨r, rest, hwrite, -, hreads⟩
    rw [sysWrite_eq hfd] at hwrite
    obtain ⟨⟨rest', s'⟩, hprint, heq⟩ := map_eq_ok.1 hwrite
    cases heq
    have hpercent : '%'.toUInt8 ∉ buf := by
      have hcount := percents_kprintfFrom hprint
      rw [percents_printText] at hcount
      exact List.count_eq_zero.1 (by omega)
    refine ⟨hpercent, by_contra fun hhead => ?_⟩
    rw [kprintfFrom_eq, format_append hbuf hpercent] at hprint
    obtain ⟨p, hmap, heq⟩ := map_eq_ok.1 hprint
    obtain ⟨⟨os, rest'⟩, hformat, rfl⟩ := map_eq_ok.1 hmap
    obtain rfl : rest' = rest := congrArg Prod.fst heq
    have hmore := (format_reads hformat).2 hhead
    omega
  · rintro ⟨hpercent, hhead⟩
    obtain ⟨rest, rfl⟩ := List.head?_eq_some_iff.1 hhead
    refine ⟨0, rest, ?_, rfl, by rw [List.length_cons]⟩
    rw [sysWrite_eq hfd, kprintfFrom_text hbuf hpercent]
    rfl

/-- `printf("%s", str)` is `kprintf(str)`. -/
theorem printf_string {b str : List UInt8} (h : IsStr b str) (s : Console) :
    printf [37, 115, 0] [.pointer b] s = kprintf b [] s := by
  have hstr : printfStr b s = kprintf b [] s := by
    rw [printfStr, strlen_spec h, ok_bind, write, if_neg (by decide),
      sysWrite_eq (Or.inr (by decide)), kprintf]
    cases kprintfFrom b [] s <;> rfl
  have hdirective : printfDirective 115 [.pointer b] s = (kprintf b [] s).map fun s => ([], s) := by
    rw [printfDirective, if_neg (by decide), if_neg (by decide), if_neg (by decide),
      if_pos (by decide), hstr]
  rw [printf.eq_def]
  show (if 37 = '%'.toUInt8 then _ else _) = _
  rw [if_pos (by decide)]
  show (printfDirective 115 [.pointer b] s >>= _) = _
  rw [hdirective]
  cases kprintf b [] s <;> rfl

theorem printf_string_iff (hbuf : 0 ∉ buf) :
    printf [37, 115, 0] [.pointer (buf ++ 0 :: after)] s = .ok (s.printText buf) ↔
      '%'.toUInt8 ∉ buf := by
  rw [printf_string ⟨hbuf, after, rfl⟩, kprintf]
  constructor
  · intro h
    obtain ⟨⟨rest, s'⟩, hprint, heq⟩ := map_eq_ok.1 h
    obtain rfl : s' = s.printText buf := heq
    have hcount := percents_kprintfFrom hprint
    rw [percents_printText] at hcount
    exact List.count_eq_zero.1 (by omega)
  · intro hpercent
    rw [kprintfFrom_text hbuf hpercent]
    rfl

/-- **Write.** A buffer without NUL is printed as it is, and not read on behind its end, exactly
when it holds no percent sign and a NUL follows it; its length comes back only when it is empty.
`printf("%s", str)` prints `str` exactly when `str` holds no percent sign. -/
theorem write_verbatim_iff (hfd : fd = 0 ∨ fd = 1) (hbuf : 0 ∉ buf) :
    (Delivers fd buf after s buf.length ↔ buf = [] ∧ after.head? = some 0) ∧
      ((∃ len, Delivers fd buf after s len) ↔ '%'.toUInt8 ∉ buf ∧ after.head? = some 0) ∧
      (printf [37, 115, 0] [.pointer (buf ++ 0 :: after)] s = .ok (s.printText buf) ↔
        '%'.toUInt8 ∉ buf) := by
  refine ⟨?_, ?_, printf_string_iff hbuf⟩
  · constructor
    · intro h
      have hlen : (buf.length : Int) = 0 := h.len_eq hfd
      obtain rfl : buf = [] := List.length_eq_zero_iff.1 (by omega)
      exact ⟨rfl, ((delivers_iff hfd hbuf).1 h).2⟩
    · rintro ⟨rfl, hhead⟩
      exact (delivers_iff hfd hbuf).2 ⟨List.not_mem_nil, hhead⟩
  · rw [← delivers_iff hfd hbuf (s := s)]
    constructor
    · rintro ⟨len, h⟩
      obtain rfl := h.len_eq hfd
      exact h
    · exact fun h => ⟨0, h⟩

/-- A line without a percent sign. -/
theorem write_verbatim_hi :
    printf [37, 115, 0] [.pointer [104, 105, 10, 0]] Console.boot =
      .ok (Console.boot.printText [104, 105, 10]) :=
  (@write_verbatim_iff 1 [104, 105, 10] [] Console.boot (Or.inr rfl) (by decide)).2.2.2
    (by decide)

/-- `sys_write` returns 0 for a line of two bytes, and it prints nothing of `"%a"`. -/
theorem write_drops_percent :
    ¬ Delivers 1 [104, 105] [0] Console.boot 2 ∧
      sysWrite 1 [37, 97, 0] 2 Console.boot = .ok (0, [], Console.boot) ∧
      printf [37, 115, 0] [.pointer [37, 97, 0]] Console.boot = .ok Console.boot ∧
      Console.boot.printText [37, 97] ≠ Console.boot := by
  refine ⟨?_, rfl, rfl, by decide⟩
  intro h
  exact absurd (h.len_eq (Or.inr rfl)) (by decide)

end

end Sbunix
