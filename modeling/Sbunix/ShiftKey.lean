import Sbunix.Keyboard

/-!
# The shift key

`shift_key` is set by a press of the left shift key and cleared by the next key that is looked up in
a table. Its release is looked for with the code of its press, so it is never seen.

Both `shift_key` and the key itself are a `latch`: one code sets it, some codes reset it. What a
latch is after a sequence of codes depends on the codes since it was set last (`foldl_latch`), and
`shift_state_iff` compares the two.
-/

namespace Sbunix

open Lib

/-! ## Latches -/

section

variable {α : Type*} [DecidableEq α] {a : α} {resets : α → Prop} [DecidablePred resets]
  {before since : List α}

/-- A bit that `a` sets and that some other values reset. -/
def latch (a : α) (resets : α → Prop) [DecidablePred resets] (b : Bool) (x : α) : Bool :=
  if x = a then true else if resets x then false else b

theorem foldl_latch_of_not_mem (hsince : a ∉ since) (b : Bool) :
    since.foldl (latch a resets) b = (b && decide (∀ x ∈ since, ¬ resets x)) := by
  induction since generalizing b with
  | nil => simp
  | cons x since ih =>
    rw [List.mem_cons, not_or] at hsince
    rw [List.foldl_cons, ih hsince.2, latch, if_neg (Ne.symm hsince.1)]
    by_cases hx : resets x
    · simp [hx]
    · simp [hx]

/-- After it has been set a latch keeps its value until it is reset. -/
theorem foldl_latch (before : List α) (hsince : a ∉ since) (b : Bool) :
    (before ++ a :: since).foldl (latch a resets) b = decide (∀ x ∈ since, ¬ resets x) := by
  rw [List.foldl_append, List.foldl_cons, foldl_latch_of_not_mem hsince, latch, if_pos rfl,
    Bool.true_and]

end

/-- The last occurrence of a value. -/
theorem exists_last_mem {α : Type*} {a : α} {l : List α} (h : a ∈ l) :
    ∃ before since, l = before ++ a :: since ∧ a ∉ since := by
  obtain ⟨since, before, heq, hsince⟩ := List.eq_append_cons_of_mem (List.mem_reverse.2 h)
  refine ⟨before.reverse, since.reverse, ?_, mt List.mem_reverse.1 hsince⟩
  rw [← List.reverse_reverse l, heq]
  simp

/-! ## The handler -/

/-- The scan code of the release of the left shift key. -/
def leftShiftRelease : UInt8 := 0xAA

/-- The press of a key with a character. -/
def CharPress (code : UInt8) : Prop :=
  code < 0x80 ∧ code ≠ leftShift ∧ code ≠ backspace ∧ code ≠ enter

/-- The table that a key is looked up in. -/
def translation (shiftKey : Bool) : UInt8 → UInt8 := if shiftKey then kbcaps else kbsmall

/-- `shift_key` behind an interrupt. -/
def shiftStep (shiftKey : Bool) (code : UInt8) : Bool :=
  if code = backspace then shiftKey
  else if code &&& 0x80 ≠ 0 then if code = leftShift then false else shiftKey
  else if code = leftShift then true
  else false

/-- `shift_key` behind some interrupts. -/
def shiftAfter (codes : List UInt8) : Bool := codes.foldl shiftStep false

/-- The left shift key is down. -/
def leftShiftDown (codes : List UInt8) : Bool :=
  codes.foldl (latch leftShift (· = leftShiftRelease)) false

/-- A press that takes `shift_key` back. -/
def TakesBack (code : UInt8) : Prop := code < 0x80 ∧ code ≠ backspace

instance : DecidablePred TakesBack := fun _ => inferInstanceAs (Decidable (_ ∧ _))

section

variable {code : UInt8} {codes since : List UInt8} {st st' : Keyboard}

set_option maxRecDepth 4000 in
theorem pressed_iff (code : UInt8) : code &&& 0x80 = 0 ↔ code < 0x80 := by
  revert code
  apply forall_byte
  decide

/-- The handler moves `shift_key` like this. -/
theorem keyboardInterKey_shiftKey (h : keyboardInterKey code st = .ok st') :
    st'.shiftKey = shiftStep st.shiftKey code := by
  have henter : (if code = enter then { st with flag := false } else st).shiftKey =
      st.shiftKey := by
    split_ifs <;> rfl
  unfold keyboardInterKey at h
  unfold shiftStep
  generalize (if code = enter then { st with flag := false } else st) = st₀ at h henter
  rw [← henter]
  dsimp only at h
  split_ifs at h ⊢ with hback hrelease hshift hshift hdown
  · obtain ⟨buf, -, heq⟩ := bind_eq_ok.1 h
    cases heq
    rfl
  · cases h
    rfl
  · cases h
    rfl
  · cases h
    rfl
  · obtain ⟨st₁, -, heq⟩ := bind_eq_ok.1 h
    cases heq
    rfl
  · exact (pressKey_spec h).2.1.trans (by simpa using hdown)

/-- A character is looked up with the `shift_key` before it. -/
theorem keyboardInterKey_charPress (hcode : CharPress code) (st : Keyboard) :
    keyboardInterKey code st =
      (pressKey code (translation st.shiftKey code) st).map fun st =>
        { st with shiftKey := false } := by
  obtain ⟨hpress, hshift, hback, henter⟩ := hcode
  rw [keyboardInterKey, if_neg henter, if_neg hback,
    if_neg (not_not.2 ((pressed_iff code).2 hpress)), if_neg hshift]
  by_cases hdown : st.shiftKey
  · rw [if_pos hdown, translation, if_pos hdown]
    cases pressKey code (kbcaps code) st <;> rfl
  · rw [if_neg hdown, translation, if_neg hdown]
    cases hkey : pressKey code (kbsmall code) st with
    | error e => rfl
    | ok st' =>
      have hsame : st'.shiftKey = false := (pressKey_spec hkey).2.1.trans (by simpa using hdown)
      obtain ⟨flag, tempbuff, scanlen, shiftKey⟩ := st'
      obtain rfl : shiftKey = false := hsame
      rfl

/-- The interrupts of a run. -/
theorem shiftKey_run (h : codes.foldlM (fun st code => keyboardInterKey code st) st = .ok st') :
    st'.shiftKey = codes.foldl shiftStep st.shiftKey := by
  induction codes generalizing st with
  | nil =>
    cases h
    rfl
  | cons code codes ih =>
    obtain ⟨st₁, hst₁, h⟩ := bind_eq_ok.1 h
    rw [ih h, keyboardInterKey_shiftKey hst₁, List.foldl_cons]

/-- `shift_key` is a latch. -/
theorem shiftStep_eq : shiftStep = latch leftShift TakesBack := by
  funext shiftKey code
  have hback : leftShift ≠ backspace := by decide
  have hpress : leftShift &&& 0x80 = 0 := by decide
  have htakes : TakesBack code ↔ code &&& 0x80 = 0 ∧ code ≠ backspace :=
    and_congr (pressed_iff code).symm Iff.rfl
  unfold shiftStep latch
  by_cases hshift : code = leftShift
  · subst hshift
    simp [hback, hpress]
  · by_cases hcode : code = backspace
    · subst hcode
      simp [htakes, Ne.symm hback]
    · by_cases hrelease : code &&& 0x80 = 0
      · simp [htakes, hshift, hcode, hrelease]
      · simp [htakes, hshift, hcode, hrelease]

theorem shiftAfter_eq (codes : List UInt8) :
    shiftAfter codes = codes.foldl (latch leftShift TakesBack) false := by
  rw [shiftAfter, shiftStep_eq]

theorem translation_inj {b b' : Bool} : translation b = translation b' ↔ b = b' := by
  have htables : kbcaps ≠ kbsmall := fun heq => absurd (congrFun heq 30) (by decide)
  cases b <;> cases b' <;> simp [translation, htables, Ne.symm htables]

/-- Every character key of a sequence is translated with `kbcaps` when the left shift key is down,
and with `kbsmall` otherwise. -/
def TranslatesAll (codes : List UInt8) : Prop :=
  ∀ before code after, codes = before ++ code :: after → CharPress code →
    translation (shiftAfter before) = if leftShiftDown before then kbcaps else kbsmall

/-- Before the first press of the shift key both bits are clear. -/
theorem shiftAfter_of_not_mem (hcodes : leftShift ∉ codes) :
    shiftAfter codes = leftShiftDown codes := by
  rw [shiftAfter_eq, leftShiftDown, foldl_latch_of_not_mem hcodes, foldl_latch_of_not_mem hcodes,
    Bool.false_and, Bool.false_and]

/-- After it they agree when both or none have been reset. -/
theorem shiftAfter_eq_iff (before : List UInt8) (hsince : leftShift ∉ since) :
    shiftAfter (before ++ leftShift :: since) = leftShiftDown (before ++ leftShift :: since) ↔
      (leftShiftRelease ∈ since ↔ ∃ c ∈ since, TakesBack c) := by
  rw [shiftAfter_eq, leftShiftDown, foldl_latch _ hsince, foldl_latch _ hsince, decide_eq_decide]
  simp only [List.forall_mem_ne']
  rw [← not_iff_not (b := ∃ c ∈ since, _)]
  simp only [not_exists, not_and]
  exact Iff.comm

/-- **Shift state.** -/
theorem shift_state_iff (codes : List UInt8) :
    TranslatesAll codes ↔ ∀ before since code after,
      codes = before ++ leftShift :: since ++ code :: after → leftShift ∉ since →
        CharPress code → (leftShiftRelease ∈ since ↔ ∃ c ∈ since, TakesBack c) := by
  have htranslate : ∀ before, (translation (shiftAfter before) =
      if leftShiftDown before then kbcaps else kbsmall) ↔
        shiftAfter before = leftShiftDown before := fun before => translation_inj
  constructor
  · intro h before since code after hcodes hsince hcode
    exact (shiftAfter_eq_iff before hsince).1
      ((htranslate _).1 (h (before ++ leftShift :: since) code after hcodes hcode))
  · intro h before code after hcodes hcode
    apply (htranslate before).2
    by_cases hmem : leftShift ∈ before
    · obtain ⟨first, since, rfl, hsince⟩ := exists_last_mem hmem
      exact (shiftAfter_eq_iff first hsince).2 (h first since code after hcodes hsince hcode)
    · exact shiftAfter_of_not_mem hmem

end

/-- The left shift key is held while two characters are typed. -/
theorem shift_state_held : ¬ TranslatesAll [leftShift, 30, 30, leftShiftRelease] := by
  intro h
  have htwo := h [leftShift, 30] 30 [leftShiftRelease] rfl (by
    unfold CharPress
    decide)
  exact absurd (congrFun htwo 30) (by decide)

end Sbunix
