import Sbunix.Console
import Sbunix.Lib.StoreLog

/-!
# The text on the screen

What a reader of the screen sees: the lines of the text since the screen was cleared last, from the
top row on. A newline in row 23 clears the screen, and the text goes on in row 1.

`Screen` is that text, and `Shows s t` says that the video memory behind the stores of `s` has
it. The console keeps to the text for every run whose lines fit (`console_shows_text`). The stores
of a printing function are `lookup_puts`, and `screenclear` is 1840 of them.
-/

namespace Sbunix

open Lib

/-! ## The text -/

/-- The lines above the cursor's line, that line up to the cursor, and what the other cells hold:
nothing yet, or a blank that was left there. -/
structure Screen where
  above : List (List UInt8)
  line : List UInt8
  behind : Nat → Nat → Option UInt8

namespace Screen

/-- Nothing has been printed. -/
def boot : Screen := ⟨[], [], fun _ _ => none⟩

def rows (t : Screen) : List (List UInt8) := t.above ++ [t.line]

/-- The character in a row and a column, counted from zero. -/
def cell (t : Screen) (r c : Nat) : Option UInt8 := (t.rows[r]?.bind (·[c]?)).or (t.behind r c)

/-- A text goes on in the line, a newline starts a line or a new screen, and a backspace leaves a
blank. -/
def exec (t : Screen) : Output → Screen
  | .chars text => { t with line := t.line ++ text }
  | .newline =>
    if t.above.length = 22 then ⟨[], [], fun _ _ => some 32⟩
    else { t with above := t.above ++ [t.line], line := [] }
  | .backspace =>
    { t with
      line := t.line.dropLast
      behind := fun r c =>
        if r = t.above.length ∧ c + 1 = t.line.length then some 32 else t.behind r c }

end Screen

/-- The address of a cell. Its colour is behind it. -/
def cellAddr (r c : Nat) : Int := startpos + 160 * r + 2 * c

/-- The cell has a character in the one colour, or nothing was stored to it. -/
def Holds (log : List (Int × UInt8)) (r c : Nat) (v : Option UInt8) : Prop :=
  log.lookup (cellAddr r c) = v ∧ (v ≠ none → log.lookup (cellAddr r c + 1) = some colour)

/-- The cursor is behind the line, the cells of the rows 1 to 23 hold the text, and no other byte
has been stored. -/
structure Shows (s : Console) (t : Screen) : Prop where
  cursor : Cursor s
  lineCount : s.lineCount = t.above.length + 1
  lineWidth : s.lineWidth = t.line.length + 1
  cells : ∀ r < 23, ∀ c < 80, Holds s.stores r c (t.cell r c)
  inside : ∀ x ∈ s.stores, startpos ≤ x.1 ∧ x.1 < cellAddr 23 0

/-! ## Stores -/

section

variable {s : Console} {x : Int} {c : UInt8} {text : List UInt8}

theorem lookup_put_char (s : Console) (c : UInt8) : (s.put c).stores.lookup s.video = some c := by
  rw [Console.put, lookup_store_of_ne (by omega), lookup_store_self]

theorem lookup_put_colour (s : Console) (c : UInt8) :
    (s.put c).stores.lookup (s.video + 1) = some colour := lookup_store_self _ _ _

theorem lookup_put_of_ne (h : x < s.video ∨ s.video + 2 ≤ x) :
    (s.put c).stores.lookup x = s.stores.lookup x := by
  rw [Console.put, lookup_store_of_ne (by omega), lookup_store_of_ne (by omega)]

theorem lookup_puts_of_lt (text : List UInt8) (h : x < s.video) :
    (text.foldl Console.put s).stores.lookup x = s.stores.lookup x := by
  induction text generalizing s with
  | nil => rfl
  | cons c text ih =>
    have hnext : x < (s.put c).video := by
      simp only [Console.put]
      omega
    rw [List.foldl_cons, ih hnext, lookup_put_of_ne (Or.inl h)]

/-- The cells from the cursor on hold the text. -/
theorem lookup_puts {i : Nat} (hi : i < text.length) :
    (text.foldl Console.put s).stores.lookup (s.video + 2 * i) = text[i]? ∧
      (text.foldl Console.put s).stores.lookup (s.video + 2 * i + 1) = some colour := by
  induction text generalizing s i with
  | nil => exact absurd hi (Nat.not_lt_zero i)
  | cons c text ih =>
    rw [List.foldl_cons]
    cases i with
    | zero =>
      have hlt : s.video + 1 < (s.put c).video := by
        simp only [Console.put]
        omega
      rw [Nat.cast_zero, mul_zero, add_zero, List.getElem?_cons_zero,
        lookup_puts_of_lt text (by omega), lookup_puts_of_lt text hlt]
      exact ⟨lookup_put_char s c, lookup_put_colour s c⟩
    | succ i =>
      have hvideo : s.video + 2 * (i + 1 : Nat) = (s.put c).video + 2 * i := by
        simp only [Console.put]
        push_cast
        ring
      rw [hvideo, List.getElem?_cons_succ]
      exact ih (Nat.lt_of_succ_lt_succ hi)

theorem lookup_puts_of_le (h : s.video + 2 * text.length ≤ x) :
    (text.foldl Console.put s).stores.lookup x = s.stores.lookup x := by
  induction text generalizing s with
  | nil => rfl
  | cons c text ih =>
    rw [List.length_cons] at h
    push_cast at h
    have hnext : (s.put c).video + 2 * text.length ≤ x := by
      simp only [Console.put]
      omega
    rw [List.foldl_cons, ih hnext, lookup_put_of_ne (Or.inr (by omega))]

/-- A cell that a text is put into. -/
theorem holds_puts {r c i : Nat} (hi : i < text.length) (haddr : cellAddr r c = s.video + 2 * i) :
    Holds (text.foldl Console.put s).stores r c text[i]? := by
  rw [Holds, haddr]
  obtain ⟨hchar, hcolour⟩ := lookup_puts (s := s) hi
  exact ⟨hchar, fun _ => hcolour⟩

/-- Another cell. -/
theorem Holds.puts {r c : Nat} {v : Option UInt8} (h : Holds s.stores r c v)
    (hout : cellAddr r c + 2 ≤ s.video ∨ s.video + 2 * text.length ≤ cellAddr r c) :
    Holds (text.foldl Console.put s).stores r c v := by
  rcases hout with hlt | hle
  · rw [Holds, lookup_puts_of_lt text (by omega), lookup_puts_of_lt text (by omega)]
    exact h
  · rw [Holds, lookup_puts_of_le hle, lookup_puts_of_le (by omega)]
    exact h

/-- An iteration of `screenclear` puts a blank. -/
theorem clearCell_eq (h : s.lineWidth < 80) : s.clearCell = s.put 32 := by
  have hfirst : s.checkWidth = s := checkWidth_of_le (by omega)
  have hsecond : (s.printOne 32).checkWidth = s.printOne 32 := by
    apply checkWidth_of_le
    simp only [Console.printOne]
    omega
  rw [Console.clearCell, Console.kprintfBlank, hfirst, hsecond]
  simp only [Console.printOne, Console.put, add_sub_cancel_right]

theorem clearCells_stores (n : Nat) (h : s.lineWidth < 80) : (s.clearCells n).stores =
    ((List.replicate n 32).foldl Console.put { s with video := startpos }).stores := by
  have hiterate : ∀ s₁ : Console, s₁.lineWidth < 80 →
      Console.clearCell^[n] s₁ = (List.replicate n 32).foldl Console.put s₁ := by
    induction n with
    | zero => exact fun _ _ => rfl
    | succ n ih =>
      intro s₁ hs₁
      rw [Function.iterate_succ_apply, clearCell_eq hs₁, List.replicate_succ, List.foldl_cons]
      exact ih _ hs₁
  rw [Console.clearCells, hiterate { s with video := startpos } h]

/-- The first `n` cells of a cleared screen are blanks. -/
theorem holds_clearCells {n r c i : Nat} (h : s.lineWidth < 80) (hi : i < n)
    (haddr : cellAddr r c = startpos + 2 * i) : Holds (s.clearCells n).stores r c (some 32) := by
  have hlen : i < (List.replicate n (32 : UInt8)).length := by rwa [List.length_replicate]
  have hputs := holds_puts (s := { s with video := startpos }) hlen haddr
  rw [List.getElem?_replicate_of_lt hi] at hputs
  rw [clearCells_stores n h]
  exact hputs

theorem clearCells_within {n : Nat} {hi : Int} (h : s.lineWidth < 80)
    (hstores : ∀ x ∈ s.stores, startpos ≤ x.1 ∧ x.1 < hi) (hhi : startpos + 2 * n ≤ hi) :
    ∀ x ∈ (s.clearCells n).stores, startpos ≤ x.1 ∧ x.1 < hi := by
  rw [clearCells_stores n h]
  refine foldl_put_stores (s := { s with video := startpos }) _ hstores (Int.le_refl _) ?_
  rwa [List.length_replicate]

end

/-! ## Cells -/

section

variable {t : Screen} {r c : Nat}

namespace Screen

theorem rows_lt (h : r < t.above.length) : t.rows[r]? = t.above[r]? :=
  List.getElem?_append_left h

theorem rows_self (t : Screen) : t.rows[t.above.length]? = some t.line := by
  rw [rows, List.getElem?_append_right le_rfl, Nat.sub_self, List.getElem?_cons_zero]

theorem rows_gt (h : t.above.length < r) : t.rows[r]? = none := by
  rw [List.getElem?_eq_none_iff, rows, List.length_append, List.length_singleton]
  exact h

/-- Another line leaves the other rows as they are. -/
theorem cell_of_ne {line : List UInt8} {behind : Nat → Nat → Option UInt8}
    (hr : r ≠ t.above.length) (hbehind : behind r c = t.behind r c) :
    (⟨t.above, line, behind⟩ : Screen).cell r c = t.cell r c := by
  have hrow : (⟨t.above, line, behind⟩ : Screen).rows[r]? = t.rows[r]? := by
    rcases Nat.lt_or_gt_of_ne hr with hlt | hgt
    · rw [rows_lt hlt]
      exact rows_lt (t := ⟨t.above, line, behind⟩) hlt
    · rw [rows_gt hgt]
      exact rows_gt (t := ⟨t.above, line, behind⟩) hgt
  show Option.or _ (behind r c) = _
  rw [hrow, hbehind, cell]

/-- The cells of the cursor's line. -/
theorem cell_line (t : Screen) (c : Nat) :
    t.cell t.above.length c = t.line[c]?.or (t.behind t.above.length c) := by
  rw [cell, rows_self, Option.bind_some]

theorem cell_chars (t : Screen) (text : List UInt8) (r c : Nat) :
    (t.exec (.chars text)).cell r c =
      if r = t.above.length ∧ t.line.length ≤ c ∧ c < t.line.length + text.length then
        text[c - t.line.length]?
      else t.cell r c := by
  by_cases hr : r = t.above.length
  · subst hr
    rw [exec, cell_line t]
    refine (cell_line ⟨t.above, t.line ++ text, t.behind⟩ c).trans ?_
    dsimp only
    by_cases hc : t.line.length ≤ c
    · rw [List.getElem?_append_right hc]
      by_cases hlt : c < t.line.length + text.length
      · have hin : c - t.line.length < text.length := by omega
        rw [if_pos ⟨rfl, hc, hlt⟩, List.getElem?_eq_getElem hin, Option.some_or]
      · rw [if_neg fun h => hlt h.2.2, List.getElem?_eq_none (by omega), List.getElem?_eq_none hc]
    · rw [if_neg fun h => hc h.2.1, List.getElem?_append_left (Nat.lt_of_not_le hc)]
  · rw [if_neg fun h => hr h.1]
    exact cell_of_ne hr rfl

theorem cell_newline (h : t.above.length ≠ 22) : (t.exec .newline).cell r c = t.cell r c := by
  rw [exec, if_neg h]
  rcases Nat.lt_trichotomy r (t.above.length + 1) with hlt | rfl | hgt
  · have hrow : ({ t with above := t.above ++ [t.line], line := [] } : Screen).rows[r]? =
        t.rows[r]? := List.getElem?_append_left (by rwa [List.length_append, List.length_singleton])
    rw [cell, cell, hrow]
  · have hlen : ({ t with above := t.above ++ [t.line], line := [] } : Screen).above.length =
        t.above.length + 1 := by rw [List.length_append, List.length_singleton]
    rw [cell, ← hlen, rows_self, cell, hlen, rows_gt (Nat.lt_succ_self _)]
    rfl
  · have hlen :
        ({ t with above := t.above ++ [t.line], line := [] } : Screen).above.length < r := by
      rwa [List.length_append, List.length_singleton]
    rw [cell, cell, rows_gt hlen, rows_gt (Nat.lt_of_succ_lt hgt)]

theorem cell_clear (h : t.above.length = 22) : (t.exec .newline).cell r c = some 32 := by
  rw [exec, if_pos h, cell]
  cases r with
  | zero => rfl
  | succ r => rfl

theorem cell_backspace (t : Screen) (r c : Nat) : (t.exec .backspace).cell r c =
    if r = t.above.length ∧ c + 1 = t.line.length then some 32 else t.cell r c := by
  by_cases hr : r = t.above.length
  · subst hr
    rw [exec, cell_line t]
    refine (cell_line ⟨t.above, t.line.dropLast, _⟩ c).trans ?_
    dsimp only
    by_cases hc : c + 1 = t.line.length
    · have hnone : t.line.dropLast[c]? = none := by
        rw [List.getElem?_eq_none_iff, List.length_dropLast]
        omega
      rw [hnone, Option.none_or, if_pos ⟨rfl, hc⟩, if_pos ⟨rfl, hc⟩]
    · have hsame : t.line.dropLast[c]? = t.line[c]? := by
        rw [List.getElem?_dropLast]
        split_ifs with hlt
        · rfl
        · exact (List.getElem?_eq_none (by omega)).symm
      rw [hsame, if_neg fun h => hc h.2, if_neg fun h => hc h.2]
  · rw [if_neg fun h => hr h.1]
    exact cell_of_ne hr (if_neg fun h => hr h.1)

end Screen

end

/-! ## Steps -/

section

variable {s : Console} {t : Screen} {r c : Nat}

theorem cellAddr_eq (r c : Nat) : cellAddr r c = startpos + 160 * r + 2 * c := rfl

theorem Shows.video (h : Shows s t) : s.video = cellAddr t.above.length t.line.length := by
  rw [h.cursor.video, h.lineCount, h.lineWidth, cellAddr_eq]
  ring

theorem shows_boot : Shows Console.boot Screen.boot := by
  refine ⟨cursor_boot, rfl, rfl, fun r _ c _ => ⟨?_, fun hne => absurd ?_ hne⟩, fun x hx => ?_⟩
  · cases r with
    | zero => rfl
    | succ r => rfl
  · cases r with
    | zero => rfl
    | succ r => rfl
  · cases hx

/-- A text in the line. -/
theorem Shows.chars (h : Shows s t) {text : List UInt8} (hfits : s.lineWidth + text.length ≤ 80) :
    Shows (s.print text) (t.exec (.chars text)) := by
  have hvideo := h.video
  have hcount := h.lineCount
  have hwidth := h.lineWidth
  have hline := h.cursor.line
  rw [cellAddr_eq] at hvideo
  refine ⟨h.cursor.print hfits, hcount ▸ print_lineCount s text, ?_, fun r hr c hc => ?_, ?_⟩
  · rw [print_lineWidth, hwidth, Screen.exec, List.length_append]
    push_cast
    ring
  · rw [Screen.cell_chars]
    split_ifs with hin
    · obtain ⟨rfl, hlo, hhi⟩ := hin
      apply holds_puts (by omega)
      rw [cellAddr_eq]
      omega
    · apply (h.cells r hr c hc).puts
      rw [cellAddr_eq]
      omega
  · refine foldl_put_stores text h.inside ?_ ?_
    · omega
    · rw [cellAddr_eq]
      omega

theorem Shows.backspace (h : Shows s t) (hfits : 1 < s.lineWidth) :
    Shows s.back (t.exec .backspace) := by
  have hvideo := h.video
  have hcount := h.lineCount
  have hwidth := h.lineWidth
  have hline := h.cursor.line
  have hcolumn := h.cursor.width
  rw [cellAddr_eq] at hvideo
  have hstores : s.back.stores =
      ([32].foldl Console.put ({ s with video := s.video - 2 } : Console)).stores := rfl
  refine ⟨h.cursor.back hfits, hcount, ?_, fun r hr c hc => ?_, ?_⟩
  · simp only [Console.back, Console.printbackspace, Console.put, Screen.exec, List.length_dropLast]
    omega
  · rw [Screen.cell_backspace, hstores]
    split_ifs with hin
    · obtain ⟨rfl, hlast⟩ := hin
      refine holds_puts (i := 0) (by decide) ?_
      dsimp only
      rw [cellAddr_eq]
      omega
    · apply Holds.puts (s := { s with video := s.video - 2 }) (h.cells r hr c hc)
      rw [cellAddr_eq, List.length_singleton]
      dsimp only
      omega
  · have hlo : startpos ≤ s.video - 2 := by omega
    have hhi : s.video - 2 + 2 ≤ cellAddr 23 0 := by
      rw [cellAddr_eq]
      omega
    exact put_stores (s := { s with video := s.video - 2 }) h.inside hlo hhi 32

/-- A newline in row 23 clears the screen, of which `n` is the number of cells. -/
theorem newline_clear {n : Nat} (hn : n = 1840) (h : s.lineCount + 1 > 23) : ∃ u : Console,
    u.lineWidth < 80 ∧ u.stores = s.stores ∧
      s.newline = { u.clearCells n with lineCount := 1 } := by
  subst hn
  refine ⟨⟨s.lineCount * 0xA0 + startpos, s.lineCount + 1, 1, s.stores⟩, by norm_num, rfl, ?_⟩
  rw [newline_eq, if_pos h, screenclear_eq]

theorem Shows.newline (h : Shows s t) : Shows s.newline (t.exec .newline) := by
  have hcount := h.lineCount
  obtain ⟨hcursor, hwidth⟩ := h.cursor.newline
  by_cases hlast : t.above.length = 22
  · obtain ⟨n, hn⟩ : ∃ n : Nat, n = 1840 := ⟨_, rfl⟩
    obtain ⟨u, hu, hstores, hclear⟩ := newline_clear (s := s) hn (by omega)
    have hcell : ∀ r < 23, ∀ c < 80, ∃ i < n, cellAddr r c = startpos + 2 * (i : Nat) := by
      intro r hr c hc
      refine ⟨80 * r + c, by omega, ?_⟩
      rw [cellAddr_eq]
      push_cast
      ring
    have hexec : t.exec .newline = ⟨[], [], fun _ _ => some 32⟩ := if_pos hlast
    refine ⟨hcursor, ?_, by rw [hwidth, hexec]; rfl, fun r hr c hc => ?_, ?_⟩
    · rw [hclear, hexec]
      rfl
    · obtain ⟨i, hi, haddr⟩ := hcell r hr c hc
      rw [Screen.cell_clear hlast, hclear]
      exact holds_clearCells hu hi haddr
    · have hbytes : startpos + 2 * n ≤ cellAddr 23 0 := by
        rw [cellAddr_eq]
        omega
      rw [hclear]
      exact clearCells_within hu (hstores ▸ h.inside) hbytes
  · have hsame : s.newline = ⟨s.lineCount * 0xA0 + startpos, s.lineCount + 1, 1, s.stores⟩ := by
      have hline := h.cursor.line
      rw [newline_eq, if_neg (by omega)]
    have hexec : t.exec .newline = { t with above := t.above ++ [t.line], line := [] } :=
      if_neg hlast
    refine ⟨hcursor, ?_, by rw [hwidth, hexec]; rfl, fun r hr c hc => ?_, ?_⟩
    · rw [hsame, hexec, List.length_append, List.length_singleton, hcount]
      push_cast
      ring
    · rw [Screen.cell_newline hlast, hsame]
      exact h.cells r hr c hc
    · rw [hsame]
      exact h.inside

/-- A part of the text that fits. -/
theorem Shows.exec {o : Output} {os : List Output} (h : Shows s t)
    (hfits : FitsLines s.lineWidth (o :: os)) :
    Shows (s.exec o) (t.exec o) ∧ FitsLines (s.exec o).lineWidth os := by
  refine ⟨?_, (h.cursor.exec hfits).2⟩
  have hcheck : s.checkWidth = s := checkWidth_of_le h.cursor.width.2
  cases o with
  | chars text =>
    rw [Console.exec, hcheck]
    exact h.chars hfits.1
  | newline =>
    rw [Console.exec, hcheck]
    exact h.newline
  | backspace =>
    rw [Console.exec, hcheck]
    exact h.backspace hfits.1

theorem Shows.foldl {os : List Output} (h : Shows s t) (hfits : FitsLines s.lineWidth os) :
    Shows (os.foldl Console.exec s) (os.foldl Screen.exec t) := by
  induction os generalizing s t with
  | nil => exact h
  | cons o os ih =>
    obtain ⟨hshows, hrest⟩ := h.exec hfits
    exact ih hshows hrest

end

/-! ## Pages -/

/-- All lines of a text that have ended, and the last one. -/
structure Transcript where
  ended : List (List UInt8)
  last : List UInt8

namespace Transcript

def exec (p : Transcript) : Output → Transcript
  | .chars text => { p with last := p.last ++ text }
  | .newline => ⟨p.ended ++ [p.last], []⟩
  | .backspace => { p with last := p.last.dropLast }

def lines (p : Transcript) : List (List UInt8) := p.ended ++ [p.last]

/-- How often the screen has been cleared. -/
def page (p : Transcript) : Nat := p.ended.length / 23

end Transcript

/-- The screen has the last page of a text, and blanks where the text has no character. Up to the
first clearing they are only where a backspace left one. -/
structure ShowsPage (t : Screen) (p : Transcript) : Prop where
  rows : t.rows = p.lines.drop (23 * p.page)
  blank : ∀ r c v, t.behind r c = some v → v = 32
  cleared : 0 < p.page → ∀ r c, t.behind r c = some 32

section

variable {t : Screen} {p : Transcript}

theorem Transcript.drop_lines (p : Transcript) :
    p.lines.drop (23 * p.page) = p.ended.drop (23 * p.page) ++ [p.last] :=
  List.drop_append_of_le_length (Nat.mul_div_le _ _)

theorem ShowsPage.above (h : ShowsPage t p) :
    t.above = p.ended.drop (23 * p.page) ∧ t.line = p.last := by
  have hrows := h.rows
  rw [Transcript.drop_lines, Screen.rows] at hrows
  obtain ⟨habove, hline⟩ := List.append_inj' hrows rfl
  exact ⟨habove, List.singleton_inj.1 hline⟩

theorem ShowsPage.length (h : ShowsPage t p) : t.above.length = p.ended.length % 23 := by
  rw [h.above.1, List.length_drop, Transcript.page]
  omega

theorem ShowsPage.exec (h : ShowsPage t p) (o : Output) : ShowsPage (t.exec o) (p.exec o) := by
  obtain ⟨habove, hline⟩ := h.above
  cases o with
  | chars text =>
    refine ⟨?_, h.blank, h.cleared⟩
    rw [Transcript.drop_lines]
    exact congrArg₂ (fun above line => above ++ [line ++ text]) habove hline
  | newline =>
    have hlen : (p.exec .newline).ended.length = p.ended.length + 1 := List.length_append
    have hmod := h.length
    by_cases hlast : t.above.length = 22
    · have hpage : 23 * (p.exec .newline).page = (p.exec .newline).ended.length := by
        rw [Transcript.page]
        omega
      rw [Screen.exec, if_pos hlast]
      refine ⟨?_, fun r c v hv => (Option.some.inj hv).symm, fun _ r c => rfl⟩
      rw [Transcript.drop_lines, hpage, List.drop_length]
      rfl
    · have hpage : (p.exec .newline).page = p.page := by
        rw [Transcript.page, Transcript.page]
        omega
      rw [Screen.exec, if_neg hlast]
      refine ⟨?_, h.blank, fun hpos => h.cleared (hpage ▸ hpos)⟩
      rw [Transcript.drop_lines, hpage, Screen.rows]
      dsimp only [Transcript.exec]
      rw [← Transcript.lines, Transcript.drop_lines, habove, hline]
  | backspace =>
    refine ⟨?_, fun r c v hv => ?_, fun hpos r c => ?_⟩
    · rw [Transcript.drop_lines]
      exact congrArg₂ (fun above line => above ++ [line.dropLast]) habove hline
    · simp only [Screen.exec] at hv
      split_ifs at hv
      · exact (Option.some.inj hv).symm
      · exact h.blank r c v hv
    · simp only [Screen.exec]
      split_ifs
      · rfl
      · exact h.cleared hpos r c

theorem showsPage_boot : ShowsPage Screen.boot ⟨[], []⟩ :=
  ⟨rfl, fun _ _ v hv => absurd hv (Option.some_ne_none v).symm, fun h => absurd h (by decide)⟩

theorem ShowsPage.foldl (h : ShowsPage t p) (os : List Output) :
    ShowsPage (os.foldl Screen.exec t) (os.foldl Transcript.exec p) := by
  induction os generalizing t p with
  | nil => exact h
  | cons o os ih => exact ih (h.exec o)

end

/-! ## Runs -/

/-- What a call prints. -/
def callText (call : List UInt8 × List VaArg) : List Output :=
  match format call.1 call.2 with
  | .ok (os, _) => os
  | .error _ => []

/-- The text of some calls. -/
def transcript (calls : List (List UInt8 × List VaArg)) : Transcript :=
  (calls.flatMap callText).foldl Transcript.exec ⟨[], []⟩

theorem Shows.call {s : Console} {t : Screen} {call : List UInt8 × List VaArg} (h : Shows s t)
    (hfits : CallFits s call) : ∃ s', kprintfCall s call = some s' ∧
      Shows s' ((callText call).foldl Screen.exec t) := by
  obtain ⟨os, rest, hformat, hos⟩ := hfits
  have hshows := h.foldl hos
  refine ⟨os.foldl Console.exec s, ?_, ?_⟩
  · rw [kprintfCall, kprintf_eq, hformat, Except.map, checkWidth_of_le hshows.cursor.width.2]
    rfl
  · rw [callText, hformat]
    exact hshows

/-- Every run of calls whose lines fit is on the screen. -/
theorem shows_run (calls : List (List UInt8 × List VaArg))
    (h : Along kprintfCall CallFits Console.boot calls) :
    ∃ s, Run kprintfCall CallFits Console.boot calls s ∧
      Shows s ((calls.flatMap callText).foldl Screen.exec Screen.boot) := by
  rw [List.foldl_flatMap]
  exact Along.simulation (f := fun t call => (callText call).foldl Screen.exec t)
    (fun hs hok => hs.call hok) h shows_boot

/-- **Console text.** In every run of calls whose lines end before column 80 and whose backspaces
are not printed in column 1, the screen shows the last page of the text: with `k` newlines, the line
`23 * (k / 23) + r` is in row `r`, in the one colour, and the other cells are blank. -/
theorem console_shows_text (calls : List (List UInt8 × List VaArg))
    (h : Along kprintfCall CallFits Console.boot calls) :
    ∃ s t, Run kprintfCall CallFits Console.boot calls s ∧ Shows s t ∧
      ShowsPage t (transcript calls) := by
  obtain ⟨s, hrun, hshows⟩ := shows_run calls h
  exact ⟨s, _, hrun, hshows, showsPage_boot.foldl _⟩

/-- A number in a line, and a backspace in the line behind it. -/
def numberCalls : List (List UInt8 × List VaArg) :=
  [([37, 100, 10, 0], [.word 42]), ([65, 8, 0], [])]

theorem along_numberCalls : Along kprintfCall CallFits Console.boot numberCalls := by
  refine ⟨⟨_, _, rfl, ?_⟩, fun s hs => ?_⟩
  · simp [FitsLines, Console.boot, digits]
  · obtain rfl := Option.some.inj hs
    refine ⟨⟨_, _, rfl, ?_⟩, fun _ _ => trivial⟩
    exact ⟨by decide, by decide, trivial⟩

theorem console_shows_number :
    ∃ s t, Run kprintfCall CallFits Console.boot numberCalls s ∧ Shows s t ∧
      ShowsPage t (transcript numberCalls) :=
  console_shows_text numberCalls along_numberCalls

end Sbunix
