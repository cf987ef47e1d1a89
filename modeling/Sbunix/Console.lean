import Sbunix.Strings
import Mathlib

/-!
# The text console

`kprintf` of `sys/kprintf.c` writes characters and their colour to the video memory and keeps three
globals: the pointer `video`, the line `line_count` it is in and the column `line_width`. A format
and a string argument are given as the bytes from the pointer to the end of the object, so a format
that ends in a percent sign is read on behind its NUL. The signed counters are integers: C leaves
their overflow undefined.

`kprintfFrom_eq` takes a call apart into the text it prints (`format`) and what the console does
with it. `console_cursor_run` is the invariant of the cursor: the three globals agree as long as
every line ends before column 80 and no backspace is printed in column 1.
-/

namespace Sbunix

open Lib

/-! ## The console -/

def startpos : Int := 0xffffffff800b8000

def colour : UInt8 := 2

/-- The globals of `kprintf.c`, and the bytes stored so far, the last one first. -/
structure Console where
  video : Int
  lineCount : Int
  lineWidth : Int
  stores : List (Int × UInt8)
deriving DecidableEq

namespace Console

def boot : Console := ⟨startpos, 1, 1, []⟩

/-- `*video++ = c; *video++ = colour;`. -/
def put (s : Console) (c : UInt8) : Console :=
  { s with video := s.video + 2, stores := (s.video + 1, colour) :: (s.video, c) :: s.stores }

/-- The loop of the printing functions, and the length they add to `line_width`. -/
def print (s : Console) (text : List UInt8) : Console :=
  { text.foldl put s with lineWidth := s.lineWidth + text.length }

def printbackspace (s : Console) : Console :=
  let s := { s with video := s.video - 2 }
  let s := s.put 32
  { s with video := s.video - 2 }

/-- The check at the head of the loop of `kprintf`. -/
def checkWidth (s : Console) : Console :=
  if s.lineWidth > 80 then { s with lineCount := s.lineCount + 1 } else s

/-- The default case. -/
def printOne (s : Console) (c : UInt8) : Console :=
  { s.put c with lineWidth := s.lineWidth + 1 }

/-- `kprintf(" ")`, with the iteration for its NUL. -/
def kprintfBlank (s : Console) : Console := (s.checkWidth.printOne 32).checkWidth

/-- An iteration of `screenclear`. -/
def clearCell (s : Console) : Console :=
  let s := s.kprintfBlank
  { s with lineWidth := s.lineWidth - 1 }

/-- `screenclear`, for `n` cells. -/
def clearCells (n : Nat) (s : Console) : Console :=
  { clearCell^[n] { s with video := startpos } with video := startpos }

def screenclear (s : Console) : Console := s.clearCells 1840

def newline (s : Console) : Console :=
  let s := { s with video := s.lineCount * 0xA0 + startpos, lineCount := s.lineCount + 1,
                    lineWidth := 1 }
  if s.lineCount > 23 then { s.screenclear with lineCount := 1 } else s

def back (s : Console) : Console :=
  let s := s.printbackspace
  { s with lineWidth := s.lineWidth - 1 }

end Console

theorem screenclear_eq (s : Console) : s.screenclear = s.clearCells 1840 := rfl

theorem newline_eq (s : Console) :
    s.newline = if s.lineCount + 1 > 23 then
        { Console.screenclear ⟨s.lineCount * 0xA0 + startpos, s.lineCount + 1, 1, s.stores⟩ with
          lineCount := 1 }
      else ⟨s.lineCount * 0xA0 + startpos, s.lineCount + 1, 1, s.stores⟩ := rfl

/-! ## Formats -/

/-- A variable argument: a word, or a pointer to a string. -/
inductive VaArg
  | word (v : UInt64)
  | pointer (str : List UInt8)
deriving DecidableEq

/-- The characters of a string. -/
def cString : List UInt8 → Except Fault (List UInt8)
  | [] => .error .outOfBounds
  | c :: str => if c ≠ 0 then (cString str).map (c :: ·) else .ok []

/-- The digits that the `do`-loops of `print_str` and `print_char` find, the first one first. -/
def digits (base : Nat) (v : UInt64) : List Nat :=
  (if v = 0 then [0] else Nat.digits base v.toNat).reverse

/-- `print_str`, in decimal. -/
def printStr (tarf : UInt64) (s : Console) : Console :=
  s.print ((digits 10 tarf).map fun d => UInt8.ofNat (d + 48))

/-- `print_char`, in hexadecimal. -/
def printChar (decimal : UInt64) (s : Console) : Console :=
  s.print ((digits 16 decimal).map fun d => UInt8.ofNat (if d < 10 then d + 48 else d + 55))

def prints (str : List UInt8) (s : Console) : Except Fault Console := (cString str).map s.print

/-- The case of a percent sign, with the character behind it. -/
def directive (c : UInt8) (args : List VaArg) (s : Console) :
    Except Fault (List VaArg × Console) :=
  if c = 'p'.toUInt8 ∨ c = 'x'.toUInt8 then
    match args with
    | .word v :: args => .ok (args, printChar v s)
    | _ => .error .outOfBounds
  else if c = 'd'.toUInt8 then
    match args with
    | .word v :: args => .ok (args, printStr v s)
    | _ => .error .outOfBounds
  else if c = 'c'.toUInt8 then
    match args with
    | .word v :: args => .ok (args, s.printOne v.toUInt8)
    | _ => .error .outOfBounds
  else if c = 's'.toUInt8 then
    match args with
    | .pointer str :: args => (prints str s).map fun s => (args, s)
    | _ => .error .outOfBounds
  else .ok (args, s)

/-- The loop of `kprintf`, with the bytes behind the ones it reads. -/
def kprintfFrom : List UInt8 → List VaArg → Console → Except Fault (List UInt8 × Console)
  | [], _, _ => .error .outOfBounds
  | c :: fmt, args, s =>
    let s := s.checkWidth
    if c = '\n'.toUInt8 then kprintfFrom fmt args s.newline
    else if c = '\x08'.toUInt8 then kprintfFrom fmt args s.back
    else if c = '%'.toUInt8 then
      match fmt with
      | [] => .error .outOfBounds
      | c :: fmt => do
        let (args, s) ← directive c args s
        kprintfFrom fmt args s
    else if c = 0 then .ok (fmt, s)
    else kprintfFrom fmt args (s.printOne c)

def kprintf (fmt : List UInt8) (args : List VaArg) (s : Console) : Except Fault Console :=
  (kprintfFrom fmt args s).map Prod.snd

theorem kprintf_blank (s : Console) : kprintf [32, 0] [] s = .ok s.kprintfBlank := rfl

/-! ## The text of a call -/

/-- What one iteration of the loop prints. -/
inductive Output
  | chars (text : List UInt8)
  | newline
  | backspace
deriving DecidableEq

/-- The text of a directive. -/
def directiveText (c : UInt8) (args : List VaArg) : Except Fault (List VaArg × List UInt8) :=
  if c = 'p'.toUInt8 ∨ c = 'x'.toUInt8 then
    match args with
    | .word v :: args =>
      .ok (args, (digits 16 v).map fun d => UInt8.ofNat (if d < 10 then d + 48 else d + 55))
    | _ => .error .outOfBounds
  else if c = 'd'.toUInt8 then
    match args with
    | .word v :: args => .ok (args, (digits 10 v).map fun d => UInt8.ofNat (d + 48))
    | _ => .error .outOfBounds
  else if c = 'c'.toUInt8 then
    match args with
    | .word v :: args => .ok (args, [v.toUInt8])
    | _ => .error .outOfBounds
  else if c = 's'.toUInt8 then
    match args with
    | .pointer str :: args => (cString str).map fun text => (args, text)
    | _ => .error .outOfBounds
  else .ok (args, [])

/-- What a call prints, iteration by iteration, and the bytes behind the ones it reads. -/
def format : List UInt8 → List VaArg → Except Fault (List Output × List UInt8)
  | [], _ => .error .outOfBounds
  | c :: fmt, args =>
    if c = '\n'.toUInt8 then (format fmt args).map fun r => (.newline :: r.1, r.2)
    else if c = '\x08'.toUInt8 then (format fmt args).map fun r => (.backspace :: r.1, r.2)
    else if c = '%'.toUInt8 then
      match fmt with
      | [] => .error .outOfBounds
      | c :: fmt => do
        let (args, text) ← directiveText c args
        (format fmt args).map fun r => (.chars text :: r.1, r.2)
    else if c = 0 then .ok ([], fmt)
    else (format fmt args).map fun r => (.chars [c] :: r.1, r.2)

/-- What the console does with it. -/
def Console.exec (s : Console) (o : Output) : Console :=
  match o with
  | .chars text => s.checkWidth.print text
  | .newline => s.checkWidth.newline
  | .backspace => s.checkWidth.back

theorem print_nil (s : Console) : s.print [] = s := by
  cases s
  simp [Console.print]

theorem directive_eq (c : UInt8) (args : List VaArg) (s : Console) :
    directive c args s = (directiveText c args).map fun r => (r.1, s.print r.2) := by
  unfold directive directiveText
  split_ifs
  · cases args with
    | nil => rfl
    | cons a args => cases a <;> rfl
  · cases args with
    | nil => rfl
    | cons a args => cases a <;> rfl
  · cases args with
    | nil => rfl
    | cons a args => cases a <;> rfl
  · cases args with
    | nil => rfl
    | cons a args =>
      cases a with
      | word v => rfl
      | pointer str =>
        simp only [prints]
        cases cString str <;> rfl
  · rw [Except.map, print_nil]

theorem format_cons (c : UInt8) (fmt : List UInt8) (args : List VaArg) :
    format (c :: fmt) args =
      if c = '\n'.toUInt8 then (format fmt args).map fun r => (.newline :: r.1, r.2)
      else if c = '\x08'.toUInt8 then (format fmt args).map fun r => (.backspace :: r.1, r.2)
      else if c = '%'.toUInt8 then
        match fmt with
        | [] => .error .outOfBounds
        | c :: fmt => do
          let (args, text) ← directiveText c args
          (format fmt args).map fun r => (.chars text :: r.1, r.2)
      else if c = 0 then .ok ([], fmt)
      else (format fmt args).map fun r => (.chars [c] :: r.1, r.2) := by
  rw [format.eq_def]

theorem kprintfFrom_cons (c : UInt8) (fmt : List UInt8) (args : List VaArg) (s : Console) :
    kprintfFrom (c :: fmt) args s =
      if c = '\n'.toUInt8 then kprintfFrom fmt args s.checkWidth.newline
      else if c = '\x08'.toUInt8 then kprintfFrom fmt args s.checkWidth.back
      else if c = '%'.toUInt8 then
        match fmt with
        | [] => .error .outOfBounds
        | c :: fmt => do
          let (args, s) ← directive c args s.checkWidth
          kprintfFrom fmt args s
      else if c = 0 then .ok (fmt, s.checkWidth)
      else kprintfFrom fmt args (s.checkWidth.printOne c) := by
  rw [kprintfFrom.eq_def]

/-- A call prints its text, and then checks the width once more at the NUL. -/
theorem kprintfFrom_eq (fmt : List UInt8) (args : List VaArg) (s : Console) :
    kprintfFrom fmt args s =
      (format fmt args).map fun r => (r.2, (r.1.foldl Console.exec s).checkWidth) := by
  induction fmt, args using format.induct generalizing s with
  | case1 args => rfl
  | case2 fmt args ih =>
    rw [kprintfFrom_cons, format_cons, if_pos rfl, if_pos rfl, ih]
    cases format fmt args <;> rfl
  | case3 fmt args h₁ ih =>
    rw [kprintfFrom_cons, format_cons, if_neg h₁, if_neg h₁, if_pos rfl, if_pos rfl, ih]
    cases format fmt args <;> rfl
  | case4 args h₁ h₂ =>
    rw [kprintfFrom_cons, format_cons, if_neg h₁, if_neg h₁, if_neg h₂, if_neg h₂, if_pos rfl,
      if_pos rfl]
    rfl
  | case5 args c fmt h₁ h₂ ih =>
    rw [kprintfFrom_cons, format_cons, if_neg h₁, if_neg h₁, if_neg h₂, if_neg h₂, if_pos rfl,
      if_pos rfl]
    simp only [directive_eq]
    cases directiveText c args with
    | error e => rfl
    | ok r =>
      show kprintfFrom fmt r.1 _ = ((format fmt r.1).map _).map _
      rw [ih]
      cases format fmt r.1 <;> rfl
  | case6 fmt args h₁ h₂ h₃ =>
    rw [kprintfFrom_cons, format_cons, if_neg h₁, if_neg h₁, if_neg h₂, if_neg h₂, if_neg h₃,
      if_neg h₃, if_pos rfl, if_pos rfl]
    rfl
  | case7 c fmt args h₁ h₂ h₃ h₄ ih =>
    rw [kprintfFrom_cons, format_cons, if_neg h₁, if_neg h₁, if_neg h₂, if_neg h₂, if_neg h₃,
      if_neg h₃, if_neg h₄, if_neg h₄, ih]
    cases format fmt args <;> rfl

theorem kprintf_eq (fmt : List UInt8) (args : List VaArg) (s : Console) :
    kprintf fmt args s =
      (format fmt args).map fun r => (r.1.foldl Console.exec s).checkWidth := by
  rw [kprintf, kprintfFrom_eq]
  cases format fmt args <;> rfl

theorem cString_spec {b str : List UInt8} (h : IsStr b str) : cString b = .ok str := by
  induction str generalizing b with
  | nil =>
    obtain ⟨rest, rfl⟩ := isStr_nil_iff.1 h
    rfl
  | cons c str ih =>
    obtain ⟨hc, b, rfl, hs⟩ := isStr_cons_iff.1 h
    rw [cString, if_pos hc, ih hs]
    rfl

/-- `kprintf("%s", str)`. -/
theorem kprintf_string {b str : List UInt8} (h : IsStr b str) (s : Console) :
    kprintf [37, 115, 0] [.pointer b] s = .ok (s.checkWidth.print str).checkWidth := by
  have hformat : format [37, 115, 0] [.pointer b] = .ok ([.chars str], []) := by
    rw [format_cons, if_neg (by decide), if_neg (by decide), if_pos (by decide)]
    simp only [directiveText]
    rw [if_neg (by decide), if_neg (by decide), if_neg (by decide), if_pos (by decide),
      cString_spec h]
    rfl
  rw [kprintf_eq, hformat]
  rfl

/-! ## The cursor -/

/-- The three globals agree, and what was stored lies in the text screen. -/
structure Cursor (s : Console) : Prop where
  video : s.video = startpos + 160 * (s.lineCount - 1) + 2 * (s.lineWidth - 1)
  line : 1 ≤ s.lineCount ∧ s.lineCount ≤ 23
  width : 1 ≤ s.lineWidth ∧ s.lineWidth ≤ 80
  stores : ∀ x ∈ s.stores, startpos ≤ x.1 ∧ x.1 < startpos + 4000

/-- From column `w` on, no line gets past column 80 and no backspace leaves column 1. -/
def FitsLines : Int → List Output → Prop
  | _, [] => True
  | w, .chars text :: os => w + text.length ≤ 80 ∧ FitsLines (w + text.length) os
  | _, .newline :: os => FitsLines 1 os
  | w, .backspace :: os => 1 < w ∧ FitsLines (w - 1) os

section

variable {s : Console}

theorem checkWidth_of_le (h : s.lineWidth ≤ 80) : s.checkWidth = s := if_neg (by omega)

/-- What is stored from the cursor on. -/
theorem put_stores {lo hi : Int} (h : ∀ x ∈ s.stores, lo ≤ x.1 ∧ x.1 < hi) (hlo : lo ≤ s.video)
    (hhi : s.video + 2 ≤ hi) (c : UInt8) : ∀ x ∈ (s.put c).stores, lo ≤ x.1 ∧ x.1 < hi := by
  intro x hx
  simp only [Console.put, List.mem_cons] at hx
  rcases hx with rfl | rfl | hx
  · dsimp only
    omega
  · dsimp only
    omega
  · exact h x hx

theorem foldl_put_eq (text : List UInt8) (s : Console) :
    (text.foldl Console.put s).video = s.video + 2 * text.length ∧
      (text.foldl Console.put s).lineCount = s.lineCount ∧
      (text.foldl Console.put s).lineWidth = s.lineWidth := by
  induction text generalizing s with
  | nil => simp
  | cons c text ih =>
    obtain ⟨hvideo, hcount, hwidth⟩ := ih (s.put c)
    refine ⟨?_, hcount, hwidth⟩
    rw [List.foldl_cons, hvideo, List.length_cons]
    simp only [Console.put]
    push_cast
    ring

@[simp] theorem print_video (s : Console) (text : List UInt8) :
    (s.print text).video = s.video + 2 * text.length := (foldl_put_eq text s).1

@[simp] theorem print_lineCount (s : Console) (text : List UInt8) :
    (s.print text).lineCount = s.lineCount := (foldl_put_eq text s).2.1

@[simp] theorem print_lineWidth (s : Console) (text : List UInt8) :
    (s.print text).lineWidth = s.lineWidth + text.length := rfl

theorem foldl_put_stores {lo hi : Int} (text : List UInt8)
    (h : ∀ x ∈ s.stores, lo ≤ x.1 ∧ x.1 < hi) (hlo : lo ≤ s.video)
    (hhi : s.video + 2 * text.length ≤ hi) :
    ∀ x ∈ (text.foldl Console.put s).stores, lo ≤ x.1 ∧ x.1 < hi := by
  induction text generalizing s with
  | nil => exact h
  | cons c text ih =>
    rw [List.length_cons] at hhi
    push_cast at hhi
    refine ih (put_stores h hlo (by omega) c) ?_ ?_
    · simp only [Console.put]
      omega
    · simp only [Console.put]
      omega

theorem Cursor.print (h : Cursor s) {text : List UInt8} (hfits : s.lineWidth + text.length ≤ 80) :
    Cursor (s.print text) := by
  have hpos := h.video
  have hline := h.line
  have hwidth := h.width
  refine ⟨?_, ?_, ?_, ?_⟩
  · simp only [print_video, print_lineCount, print_lineWidth]
    omega
  · rw [print_lineCount]
    exact hline
  · rw [print_lineWidth]
    omega
  · exact foldl_put_stores text h.stores (by omega) (by omega)

theorem Cursor.back (h : Cursor s) (hfits : 1 < s.lineWidth) : Cursor s.back := by
  have hpos := h.video
  have hline := h.line
  have hwidth := h.width
  refine ⟨?_, hline, ?_, ?_⟩
  · simp only [Console.back, Console.printbackspace, Console.put]
    omega
  · simp only [Console.back, Console.printbackspace, Console.put]
    omega
  · intro x hx
    exact put_stores (s := { s with video := s.video - 2 }) h.stores (by dsimp only; omega)
      (by dsimp only; omega) 32 x hx

/-- The state of `screenclear` after some iterations. -/
structure Clearing (s₀ : Console) (n : Nat) (s : Console) : Prop where
  video : s.video = startpos + 2 * n
  width : s.lineWidth = s₀.lineWidth
  stores : ∀ x ∈ s.stores, startpos ≤ x.1 ∧ x.1 < startpos + 4000

theorem Clearing.step {s₀ : Console} {n : Nat} (h : Clearing s₀ n s) (hn : n < 1840)
    (hw : s₀.lineWidth < 80) : Clearing s₀ (n + 1) s.clearCell := by
  have hvideo := h.video
  have hwidth := h.width
  have hcheck : s.checkWidth = s := checkWidth_of_le (by omega)
  have hcheck' : (s.printOne 32).checkWidth = s.printOne 32 := by
    apply checkWidth_of_le
    simp only [Console.printOne]
    omega
  unfold Console.clearCell Console.kprintfBlank
  rw [hcheck, hcheck']
  refine ⟨?_, ?_, ?_⟩
  · simp only [Console.printOne, Console.put]
    push_cast
    omega
  · simp only [Console.printOne, Console.put]
    omega
  · exact put_stores h.stores (by omega) (by omega) 32

theorem clearCells_spec (h : ∀ x ∈ s.stores, startpos ≤ x.1 ∧ x.1 < startpos + 4000)
    (hw : s.lineWidth < 80) {n : Nat} (hn : n ≤ 1840) : (s.clearCells n).video = startpos ∧
      (s.clearCells n).lineWidth = s.lineWidth ∧
      ∀ x ∈ (s.clearCells n).stores, startpos ≤ x.1 ∧ x.1 < startpos + 4000 := by
  have hclear : Clearing s n (Console.clearCell^[n] { s with video := startpos }) := by
    induction n with
    | zero => exact ⟨by simp, rfl, h⟩
    | succ n ih =>
      rw [Function.iterate_succ_apply']
      exact (ih (by omega)).step (by omega) hw
  exact ⟨rfl, hclear.width, hclear.stores⟩

/-- The cursor at the start of a line. -/
theorem Cursor.lineStart {line : Int} (hline : 1 ≤ line ∧ line ≤ 23)
    (hstores : ∀ x ∈ s.stores, startpos ≤ x.1 ∧ x.1 < startpos + 4000) :
    Cursor { s with video := startpos + 160 * (line - 1), lineCount := line, lineWidth := 1 } := by
  refine ⟨?_, hline, ?_, hstores⟩
  · dsimp only
    omega
  · dsimp only
    omega

/-- The state that `screenclear` leaves. -/
def Cleared (s : Console) : Prop :=
  s.video = startpos ∧ s.lineWidth = 1 ∧ ∀ x ∈ s.stores, startpos ≤ x.1 ∧ x.1 < startpos + 4000

theorem Cleared.cursor (h : Cleared s) :
    Cursor { s with lineCount := 1 } ∧ { s with lineCount := 1 }.lineWidth = 1 := by
  obtain ⟨hvideo, hwidth, hstores⟩ := h
  have hfirst : (1 : Int) ≤ 1 ∧ (1 : Int) ≤ 23 := by decide
  have hstart := Cursor.lineStart hfirst hstores
  cases s
  dsimp only at hvideo hwidth
  subst hvideo hwidth
  exact ⟨hstart, rfl⟩

theorem cleared_clearCells (hstores : ∀ x ∈ s.stores, startpos ≤ x.1 ∧ x.1 < startpos + 4000)
    (hwidth : s.lineWidth = 1) {n : Nat} (hn : n ≤ 1840) : Cleared (s.clearCells n) := by
  obtain ⟨hvideo, hw, hstores'⟩ := clearCells_spec hstores (by omega) hn
  exact ⟨hvideo, hw.trans hwidth, hstores'⟩

theorem cleared_screenclear (hstores : ∀ x ∈ s.stores, startpos ≤ x.1 ∧ x.1 < startpos + 4000)
    (hwidth : s.lineWidth = 1) : Cleared s.screenclear := by
  rw [screenclear_eq]
  exact cleared_clearCells hstores hwidth (Nat.le_refl _)

theorem Cursor.newline (h : Cursor s) : Cursor s.newline ∧ s.newline.lineWidth = 1 := by
  have hline := h.line
  have hclear := cleared_screenclear
    (s := ⟨s.lineCount * 0xA0 + startpos, s.lineCount + 1, 1, s.stores⟩) h.stores rfl
  rw [newline_eq]
  by_cases hlast : s.lineCount + 1 > 23
  · rw [if_pos hlast]
    exact hclear.cursor
  · rw [if_neg hlast]
    have hnext : 1 ≤ s.lineCount + 1 ∧ s.lineCount + 1 ≤ 23 := by omega
    have hstart := Cursor.lineStart hnext h.stores
    have hvideo : startpos + 160 * (s.lineCount + 1 - 1) = s.lineCount * 0xA0 + startpos := by
      omega
    rw [hvideo] at hstart
    exact ⟨hstart, rfl⟩

/-- A part of the text that fits keeps the cursor. -/
theorem Cursor.exec {o : Output} {os : List Output} (h : Cursor s)
    (hfits : FitsLines s.lineWidth (o :: os)) :
    Cursor (s.exec o) ∧ FitsLines (s.exec o).lineWidth os := by
  have hcheck : s.checkWidth = s := checkWidth_of_le h.width.2
  cases o with
  | chars text =>
    obtain ⟨hlen, hrest⟩ := hfits
    simp only [Console.exec, hcheck]
    exact ⟨h.print hlen, hrest⟩
  | newline =>
    simp only [Console.exec, hcheck]
    obtain ⟨hcursor, hwidth⟩ := h.newline
    refine ⟨hcursor, ?_⟩
    rw [hwidth]
    exact hfits
  | backspace =>
    obtain ⟨hw, hrest⟩ := hfits
    simp only [Console.exec, hcheck]
    exact ⟨h.back hw, hrest⟩

theorem Cursor.foldl {os : List Output} (h : Cursor s) (hfits : FitsLines s.lineWidth os) :
    Cursor (os.foldl Console.exec s) := by
  induction os generalizing s with
  | nil => exact h
  | cons o os ih =>
    obtain ⟨hcursor, hrest⟩ := h.exec hfits
    exact ih hcursor hrest

end

/-! ## Runs -/

/-- A call, with its format and its arguments. -/
def kprintfCall (s : Console) (call : List UInt8 × List VaArg) : Option Console :=
  (kprintf call.1 call.2 s).toOption

/-- The call ends, and its text fits from the column on that the cursor is in. -/
def CallFits (s : Console) (call : List UInt8 × List VaArg) : Prop :=
  ∃ os rest, format call.1 call.2 = .ok (os, rest) ∧ FitsLines s.lineWidth os

theorem Cursor.call {s : Console} {call : List UInt8 × List VaArg} (h : Cursor s)
    (hfits : CallFits s call) : ∃ s', kprintfCall s call = some s' ∧ Cursor s' := by
  obtain ⟨os, rest, hformat, hos⟩ := hfits
  have hcursor := h.foldl hos
  refine ⟨os.foldl Console.exec s, ?_, hcursor⟩
  rw [kprintfCall, kprintf_eq, hformat, Except.map, checkWidth_of_le hcursor.width.2]
  rfl

theorem cursor_boot : Cursor Console.boot :=
  ⟨by decide, by decide, by decide, fun _ h => absurd h List.not_mem_nil⟩

/-- **Console cursor.** In every run of calls whose lines end before column 80 and whose backspaces
are not printed in column 1, the globals agree after each call and every byte lies in the screen. -/
theorem console_cursor_run (calls : List (List UInt8 × List VaArg))
    (h : Along kprintfCall CallFits Console.boot calls) :
    ∃ s, Run kprintfCall CallFits Console.boot calls s ∧ Cursor s := by
  obtain ⟨s, hrun, hcursor⟩ := Along.simulation (A := Unit) (f := fun a _ => a)
    (R := fun s _ => Cursor s) (fun hc hok => hc.call hok) h (a := ()) cursor_boot
  exact ⟨s, hrun, hcursor⟩

/-- A number in a line, and then a backspace in the line behind it. -/
theorem console_cursor_number :
    ∃ s, Run kprintfCall CallFits Console.boot
      [([37, 100, 10, 0], [.word 42]), ([65, 8, 0], [])] s ∧ Cursor s := by
  apply console_cursor_run
  refine ⟨⟨_, _, rfl, ?_⟩, fun s hs => ?_⟩
  · simp [FitsLines, Console.boot, digits]
  · obtain rfl := Option.some.inj hs
    refine ⟨⟨_, _, rfl, ?_⟩, fun _ _ => trivial⟩
    exact ⟨by decide, by decide, trivial⟩

/-- A line of 80 characters moves the line on, and a backspace on the empty screen stores a blank in
front of it. -/
theorem console_cursor_lost :
    (∃ s, Run kprintfCall (fun _ _ => True) Console.boot
      [([37, 115, 0], [.pointer (List.replicate 80 65 ++ [0])])] s ∧
      s.video = startpos + 160 ∧ s.lineCount = 2 ∧ s.lineWidth = 81 ∧ ¬ Cursor s) ∧
    ∃ s, Run kprintfCall (fun _ _ => True) Console.boot [([8, 0], [])] s ∧
      (startpos - 2, 32) ∈ s.stores ∧ ¬ Cursor s := by
  constructor
  · have hstr : IsStr (List.replicate 80 65 ++ [0]) (List.replicate 80 65) :=
      ⟨fun h => absurd (List.eq_of_mem_replicate h) (by decide), [], rfl⟩
    have hwidth : (Console.boot.print (List.replicate 80 65)).lineWidth = 81 := by
      rw [print_lineWidth, List.length_replicate]
      rfl
    have hcall := kprintf_string hstr Console.boot
    rw [checkWidth_of_le (s := Console.boot) (by decide), Console.checkWidth,
      if_pos (by rw [hwidth]; decide)] at hcall
    refine ⟨_, .cons trivial (congrArg Except.toOption hcall) (.nil _), ?_, ?_, hwidth, ?_⟩
    · dsimp only
      rw [print_video, List.length_replicate]
      rfl
    · dsimp only
      rw [print_lineCount]
      rfl
    · intro h
      exact absurd (hwidth.symm.trans_le h.width.2) (by decide)
  · refine ⟨_, .cons trivial rfl (.nil _), by decide, fun h => ?_⟩
    exact absurd h.width.1 (by decide)

end Sbunix
