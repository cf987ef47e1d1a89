import Sbunix.Numerals
import Sbunix.Printf
import Sbunix.Terminal

/-!
# What a reader sees

`Displays s p` says that the screen has the last page of the text `p`. A call of `kprintf` whose
lines fit adds its text to it (`Displays.call`). Two kinds of calls have a rule of their own: one
that prints a line (`Displays.line`), and one that prints a text as it is (`Displays.printText`).
-/

namespace Sbunix

open Lib

/-- The screen has the last page of the text. -/
def Displays (s : Console) (p : Transcript) : Prop := ∃ t, Shows s t ∧ ShowsPage t p

namespace Transcript

/-- The text goes on with some bytes. -/
def type (p : Transcript) (text : List UInt8) : Transcript := (text.map outputOf).foldl exec p

/-- The bytes fit in the lines from the cursor on. -/
def Fits (p : Transcript) (text : List UInt8) : Prop :=
  FitsLines (p.last.length + 1) (text.map outputOf)

end Transcript

section

variable {s : Console} {p : Transcript} {fmt rest text : List UInt8} {args : List VaArg}
  {os : List Output} {texts : List (List UInt8)}

theorem displays_boot : Displays Console.boot ⟨[], []⟩ := ⟨Screen.boot, shows_boot, showsPage_boot⟩

theorem Displays.lineWidth (h : Displays s p) : s.lineWidth = p.last.length + 1 := by
  obtain ⟨t, hs, hp⟩ := h
  rw [hs.lineWidth, hp.above.2]

/-- Some output that fits. -/
theorem Displays.foldl (h : Displays s p) (hfits : FitsLines (p.last.length + 1) os) :
    Displays (os.foldl Console.exec s).checkWidth (os.foldl Transcript.exec p) := by
  rw [← h.lineWidth] at hfits
  obtain ⟨t, hs, hp⟩ := h
  have hshows := hs.foldl hfits
  rw [checkWidth_of_le hshows.cursor.width.2]
  exact ⟨_, hshows, hp.foldl os⟩

/-- A call adds its text. -/
theorem Displays.call (h : Displays s p) (hformat : format fmt args = .ok (os, rest))
    (hfits : FitsLines (p.last.length + 1) os) :
    ∃ s', kprintf fmt args s = .ok s' ∧ Displays s' (os.foldl Transcript.exec p) := by
  refine ⟨_, ?_, h.foldl hfits⟩
  rw [kprintf_eq, hformat]
  rfl

theorem Displays.printText (h : Displays s p) (hfits : p.Fits text) :
    Displays (s.printText text) (p.type text) := h.foldl hfits

/-! ## Lines -/

theorem foldl_chars (p : Transcript) (texts : List (List UInt8)) :
    (texts.map .chars).foldl Transcript.exec p = { p with last := p.last ++ texts.flatten } := by
  induction texts generalizing p with
  | nil => simp
  | cons text texts ih => simp [ih, Transcript.exec]

theorem fitsLines_chars {w : Int} (h : w + texts.flatten.length ≤ 80)
    (hos : FitsLines (w + texts.flatten.length) os) : FitsLines w (texts.map .chars ++ os) := by
  induction texts generalizing w with
  | nil => simpa using hos
  | cons text texts ih =>
    rw [List.flatten_cons, List.length_append, Nat.cast_add, ← add_assoc] at h hos
    exact ⟨by omega, ih h hos⟩

/-- A call that ends a line. -/
theorem Displays.line (h : Displays s p)
    (hformat : format fmt args = .ok (texts.map .chars ++ [.newline], rest))
    (hlen : p.last.length + texts.flatten.length ≤ 79) :
    ∃ s', kprintf fmt args s = .ok s' ∧
      Displays s' ⟨p.ended ++ [p.last ++ texts.flatten], []⟩ := by
  have hfits : FitsLines (p.last.length + 1) (texts.map .chars ++ [.newline]) :=
    fitsLines_chars (by omega) trivial
  obtain ⟨s', hprint, hs'⟩ := h.call hformat hfits
  refine ⟨s', hprint, ?_⟩
  rwa [List.foldl_append, foldl_chars] at hs'

/-! ## Formats -/

/-- The numeral that `%d` prints. -/
def decimalText (v : UInt64) : List UInt8 := (digits 10 v).map Numerals.decimalDigit

/-- Bytes that a format prints as they are, in the line. -/
def PlainText (text : List UInt8) : Prop :=
  ∀ c ∈ text, c ≠ 0 ∧ c ≠ '%'.toUInt8 ∧ c ≠ '\n'.toUInt8 ∧ c ≠ '\x08'.toUInt8

instance (text : List UInt8) : Decidable (PlainText text) :=
  inferInstanceAs (Decidable (∀ _ ∈ _, _))

theorem format_decimal (fmt : List UInt8) (v : UInt64) (args : List VaArg) :
    format (37 :: 100 :: fmt) (.word v :: args) =
      (format fmt args).map fun r => (.chars (decimalText v) :: r.1, r.2) := by
  rw [format_cons, if_neg (by decide), if_neg (by decide), if_pos (by decide)]
  rfl

theorem format_string {b : List UInt8} (h : IsStr b text) (fmt : List UInt8) (args : List VaArg) :
    format (37 :: 115 :: fmt) (.pointer b :: args) =
      (format fmt args).map fun r => (.chars text :: r.1, r.2) := by
  rw [format_cons, if_neg (by decide), if_neg (by decide), if_pos (by decide)]
  simp only [directiveText]
  rw [if_neg (by decide), if_neg (by decide), if_neg (by decide), if_pos (by decide),
    cString_spec h]
  rfl

theorem format_newline : format [10, 0] [] = .ok ([.newline], []) := rfl

theorem PlainText.map_outputOf (h : PlainText text) :
    text.map outputOf = (text.map fun c => [c]).map .chars := by
  rw [List.map_map]
  refine List.map_congr_left fun c hc => ?_
  rw [outputOf, if_neg (h c hc).2.2.1, if_neg (h c hc).2.2.2]
  rfl

theorem flatten_singletons (text : List UInt8) : (text.map fun c => [c]).flatten = text := by
  rw [← List.flatMap_def, List.flatMap_singleton']

theorem format_plain (h : PlainText text) (fmt : List UInt8) (args : List VaArg) :
    format (text ++ fmt) args =
      (format fmt args).map fun r => ((text.map fun c => [c]).map .chars ++ r.1, r.2) := by
  rw [format_append (fun hmem => (h 0 hmem).1 rfl) (fun hmem => (h _ hmem).2.1 rfl), h.map_outputOf]

/-- A line of a fixed text. -/
theorem Displays.plain (h : Displays s p) (htext : PlainText text)
    (hlen : p.last.length + text.length ≤ 79) :
    ∃ s', kprintf (text ++ [10, 0]) [] s = .ok s' ∧
      Displays s' ⟨p.ended ++ [p.last ++ text], []⟩ := by
  have hflat := flatten_singletons text
  have hformat : format (text ++ [10, 0]) [] =
      .ok ((text.map fun c => [c]).map .chars ++ [.newline], []) := by
    rw [format_plain htext, format_newline]
    rfl
  have hline := h.line hformat (by rwa [hflat])
  rwa [hflat] at hline

/-- A fixed text in the line. -/
theorem Displays.plainText (h : Displays s p) (htext : PlainText text)
    (hlen : p.last.length + text.length ≤ 79) :
    Displays (s.printText text) { p with last := p.last ++ text } := by
  have hflat := flatten_singletons text
  have hfits : p.Fits text := by
    rw [Transcript.Fits, htext.map_outputOf, ← List.append_nil (List.map _ _)]
    exact fitsLines_chars (by rw [hflat]; omega) trivial
  have hshown := h.printText hfits
  rwa [Transcript.type, htext.map_outputOf, foldl_chars, hflat] at hshown

end

end Sbunix
