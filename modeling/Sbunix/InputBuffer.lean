import Sbunix.ShiftKey

/-!
# The input buffer

The handler of the keyboard interrupt moves `scanlen` up with a reader waiting and down with or
without one, and `scanf` cuts it to its length argument. None of the three looks at the bounds of
`tempbuff`. `Input.Fits` is what they would have to look for, and `input_buffer_iff` says that a run
stays in bounds exactly when each event of it fits.

An event is an interrupt, a call of `scanf` up to its wait, or the rest of a call after an Enter.
Interrupts may come between the Enter and the rest of the call.
-/

namespace Sbunix

open Lib

/-! ## The rest of a call -/

/-- The accesses of a `memcpy` to its source. -/
def readBytes (src : List UInt8) (n : Int) : Except Fault Unit :=
  if (n % 2 ^ 64).toNat ≤ src.length then .ok () else .error .outOfBounds

/-- `scanf` behind its wait, with its accesses to `tempbuff` only. -/
def scanfRest (st : Keyboard) (len : Int) : Except Fault Keyboard := do
  let scanlen := if len < st.scanlen then len else st.scanlen
  let _ ← strlen st.tempbuff
  readBytes st.tempbuff scanlen
  let tempbuff ← clearTempbuff st.tempbuff scanlen
  .ok { st with tempbuff := tempbuff, scanlen := 0 }

theorem strlen_error {str : List UInt8} (h : 0 ∉ str) : strlen str = .error .outOfBounds := by
  induction str with
  | nil => rfl
  | cons c str ih =>
    rw [List.mem_cons, not_or] at h
    rw [strlen, if_pos (Ne.symm h.1), ih h.2]
    rfl

theorem sstrcpy_error {src : List UInt8} (h : 0 ∉ src) (dst : List UInt8) :
    sstrcpy dst src = .error .outOfBounds := by
  induction src generalizing dst with
  | nil => cases dst <;> rfl
  | cons c src ih =>
    rw [List.mem_cons, not_or] at h
    cases dst with
    | nil => rfl
    | cons x dst =>
      rw [sstrcpy, if_pos (Ne.symm h.1), ih h.2]
      rfl

/-- The rest of a call whose caller has a large enough buffer. -/
theorem scanf_eq_rest {st st₁ : Keyboard} {buff keys keys₁ : List UInt8} (len : Int)
    (hwait : waitFlag { st with flag := true } keys = .ok (st₁, keys₁))
    (hbuff : st₁.tempbuff.length ≤ buff.length) :
    (scanf st buff len keys).map Prod.fst = scanfRest st₁ len := by
  rw [scanf, hwait, ok_bind, scanfRest]
  dsimp only
  by_cases hnul : 0 ∈ st₁.tempbuff
  · have hstr := isStr_takeWhile hnul
    have hlt := hstr.length_lt
    obtain ⟨buff', hcopy, -, hlen⟩ := sstrcpy_spec buff hstr (by omega)
    rw [strcpy, hcopy, strlen_spec hstr, ok_bind, ok_bind]
    generalize (if len < st₁.scanlen then len else st₁.scanlen) = n
    rw [memcpyBytes, readBytes, hlen]
    by_cases hreads : (n % 2 ^ 64).toNat ≤ st₁.tempbuff.length
    · rw [if_pos hreads, if_pos ⟨hreads.trans hbuff, hreads⟩, ok_bind, ok_bind]
      cases clearTempbuff st₁.tempbuff n <;> rfl
    · rw [if_neg hreads, if_neg (mt And.right hreads)]
      rfl
  · rw [strcpy, sstrcpy_error hnul, strlen_error hnul]
    rfl

/-! ## Events -/

/-- The keyboard, and the length arguments of the calls that wait. -/
structure Input where
  kb : Keyboard
  waiting : List Int32

inductive InputEvent
  | key (code : UInt8)
  | call (len : Int32)
  | rest (len : Int32)

namespace Input

def boot : Input := ⟨Keyboard.boot, []⟩

/-- The rest of a call comes when `flag` has been cleared. -/
def Enabled (s : Input) : InputEvent → Prop
  | .rest len => s.kb.flag = false ∧ len ∈ s.waiting
  | _ => True

def step (s : Input) : InputEvent → Except Fault Input
  | .key code => (keyboardInterKey code s.kb).map fun kb => { s with kb := kb }
  | .call len => .ok ⟨{ s.kb with flag := true }, len :: s.waiting⟩
  | .rest len => (scanfRest s.kb len.toInt).map fun kb => ⟨kb, s.waiting.erase len⟩

end Input

/-- `scanlen` is in 0..1023. -/
def InRange (kb : Keyboard) : Prop := 0 ≤ kb.scanlen ∧ kb.scanlen ≤ 1023

/-- The handler stores the character of the key. -/
def Stored (kb : Keyboard) (code : UInt8) : Prop := kb.flag = true ∧ CharPress code

namespace Input

/-- What is asked of a run: `scanlen` is in range in each of its states, and each access to
`tempbuff` is in bounds. -/
def Bounded : Input → List InputEvent → Prop
  | s, [] => InRange s.kb
  | s, e :: es => InRange s.kb ∧ (s.Enabled e → ∃ s', s.step e = .ok s' ∧ s'.Bounded es)

/-- A backspace comes when there is something to take back, a character when there is room for it
and a NUL, and the rest of a call has a length that is not negative. -/
def Fits (s : Input) : InputEvent → Prop
  | .key code => (code = backspace → 1 ≤ s.kb.scanlen) ∧ (Stored s.kb code → s.kb.scanlen ≤ 1022)
  | .call _ => True
  | .rest len => 0 ≤ len.toInt

/-- Every event of a run fits. -/
def AllFit : Input → List InputEvent → Prop
  | _, [] => True
  | s, e :: es => s.Enabled e → s.Fits e ∧ ∀ s', s.step e = .ok s' → s'.AllFit es

end Input

/-! ## One event -/

/-- What every event keeps: there is a NUL at the end of `tempbuff`. -/
structure BufferInv (kb : Keyboard) : Prop where
  length : kb.tempbuff.length = 1024
  last : kb.tempbuff[1023]? = some 0
  range : InRange kb

section

variable {kb kb' : Keyboard} {code : UInt8} {s s' : Input} {e : InputEvent}

theorem bufferInv_boot : BufferInv Keyboard.boot := by
  refine ⟨List.length_replicate, ?_, ?_⟩
  · rw [Keyboard.boot, List.getElem?_replicate_of_lt (by omega)]
  · exact ⟨Int.le_refl 0, by decide⟩

set_option maxRecDepth 4000 in
/-- Only Enter has a newline. -/
theorem translation_ne_newline (hcode : CharPress code) (b : Bool) :
    translation b code ≠ '\n'.toUInt8 := by
  have htable : ∀ code, code ≠ enter →
      kbsmall code ≠ '\n'.toUInt8 ∧ kbcaps code ≠ '\n'.toUInt8 := forall_byte (by decide)
  obtain ⟨hsmall, hcaps⟩ := htable code hcode.2.2.2
  cases b
  · exact hsmall
  · exact hcaps

theorem keyboardInterKey_enter (kb : Keyboard) :
    keyboardInterKey enter kb = .ok { kb with flag := false, shiftKey := false } := by
  have hback : enter ≠ backspace := by decide
  have hpress : ¬ enter &&& 0x80 ≠ 0 := by decide
  have hshift : enter ≠ leftShift := by decide
  have hcaps : kbcaps enter = '\n'.toUInt8 := by decide
  rw [keyboardInterKey, if_pos rfl, if_neg hback, if_neg hpress, if_neg hshift]
  by_cases hdown : kb.shiftKey
  · rw [if_pos hdown, pressKey, if_pos hcaps]
    rfl
  · rw [if_neg hdown, pressKey, if_pos kbsmall_enter, ← Bool.eq_false_iff.2 hdown]

/-- What an interrupt does: it takes a character back, it stores one, or it changes the two bits. -/
theorem keyboardInterKey_cases (code : UInt8) (kb : Keyboard) :
    (code = backspace ∧ keyboardInterKey code kb = (setByte kb.tempbuff kb.scanlen 0).map
      fun buf => { kb with tempbuff := buf, scanlen := kb.scanlen - 1 }) ∨
    (code ≠ backspace ∧ Stored kb code ∧ ∃ c, keyboardInterKey code kb =
      (setByte kb.tempbuff kb.scanlen c).map
        fun buf => { kb with tempbuff := buf, scanlen := kb.scanlen + 1, shiftKey := false }) ∨
    (code ≠ backspace ∧ ¬ Stored kb code ∧ ∃ flag shiftKey, keyboardInterKey code kb =
      .ok { kb with flag := flag, shiftKey := shiftKey }) := by
  by_cases hback : code = backspace
  · left
    subst hback
    have henter : backspace ≠ enter := by decide
    refine ⟨rfl, ?_⟩
    rw [keyboardInterKey, if_neg henter, if_pos rfl]
    cases setByte kb.tempbuff kb.scanlen 0 <;> rfl
  right
  by_cases hstored : Stored kb code
  · left
    refine ⟨hback, hstored, translation kb.shiftKey code, ?_⟩
    rw [keyboardInterKey_charPress hstored.2, pressKey,
      if_neg (translation_ne_newline hstored.2 _), if_pos hstored.1, if_neg hback]
    cases setByte kb.tempbuff kb.scanlen (translation kb.shiftKey code) <;> rfl
  right
  refine ⟨hback, hstored, ?_⟩
  by_cases hchar : CharPress code
  · -- A character without a reader.
    have hflag : ¬ kb.flag = true := fun hflag => hstored ⟨hflag, hchar⟩
    refine ⟨kb.flag, false, ?_⟩
    rw [keyboardInterKey_charPress hchar, pressKey, if_neg (translation_ne_newline hchar _),
      if_neg hflag]
    rfl
  · by_cases henter : code = enter
    · exact ⟨false, false, henter ▸ keyboardInterKey_enter kb⟩
    · rw [keyboardInterKey, if_neg henter, if_neg hback]
      by_cases hrelease : code &&& 0x80 = 0
      · have hshift : code = leftShift := by
          by_contra hshift
          exact hchar ⟨(pressed_iff code).1 hrelease, hshift, hback, henter⟩
        rw [if_neg (not_not.2 hrelease), if_pos hshift]
        exact ⟨kb.flag, true, rfl⟩
      · rw [if_pos hrelease]
        split_ifs
        · exact ⟨kb.flag, false, rfl⟩
        · exact ⟨kb.flag, kb.shiftKey, rfl⟩

/-- A store in bounds. -/
theorem setByte_range (h : BufferInv kb) (v : UInt8) :
    setByte kb.tempbuff kb.scanlen v = .ok (kb.tempbuff.set kb.scanlen.toNat v) := by
  have hlen := h.length
  have hrange := h.range.2
  exact if_pos ⟨h.range.1, by omega⟩

/-- An interrupt leaves `scanlen` in range exactly when it fits. -/
theorem keyboardInterKey_fits_iff (h : BufferInv kb) :
    (∃ kb', keyboardInterKey code kb = .ok kb' ∧ InRange kb') ↔
      (code = backspace → 1 ≤ kb.scanlen) ∧ (Stored kb code → kb.scanlen ≤ 1022) := by
  obtain ⟨hlow, hhigh⟩ := h.range
  have hmap : ∀ (v : UInt8) (f : List UInt8 → Keyboard),
      (∃ kb', (setByte kb.tempbuff kb.scanlen v).map f = .ok kb' ∧ InRange kb') ↔
        InRange (f (kb.tempbuff.set kb.scanlen.toNat v)) := by
    intro v f
    rw [setByte_range h]
    constructor
    · rintro ⟨kb', heq, hrange⟩
      exact Except.ok.inj heq ▸ hrange
    · exact fun hrange => ⟨_, rfl, hrange⟩
  obtain ⟨hcode, hkey⟩ | ⟨hcode, hstored, c, hkey⟩ | ⟨hcode, hstored, flag, shiftKey, hkey⟩ :=
    keyboardInterKey_cases code kb
  · have hnot : ¬ Stored kb code := fun hstored => hstored.2.2.2.1 hcode
    rw [hkey, hmap, InRange]
    simp only [hcode, hcode ▸ hnot, forall_const, false_implies, and_true]
    omega
  · rw [hkey, hmap, InRange]
    simp only [hcode, hstored, forall_const, false_implies, true_and]
    omega
  · rw [hkey]
    simp only [hcode, hstored, false_implies, and_true, iff_true]
    exact ⟨_, rfl, hlow, hhigh⟩

/-- **One interrupt.** -/
theorem keyboardInterKey_inv (h : BufferInv kb) (hkey : keyboardInterKey code kb = .ok kb')
    (hrange : InRange kb') : BufferInv kb' := by
  have hlow := h.range.1
  have hlen := h.length
  obtain ⟨-, hcase⟩ | ⟨-, -, c, hcase⟩ | ⟨-, -, flag, shiftKey, hcase⟩ :=
    keyboardInterKey_cases code kb
  · rw [hcase, setByte_range h] at hkey
    cases hkey
    refine ⟨List.length_set.trans hlen, ?_, hrange⟩
    -- A NUL is stored, at the last position or elsewhere.
    by_cases hlast : kb.scanlen.toNat = 1023
    · rw [hlast]
      exact List.getElem?_set_self (by omega)
    · exact (List.getElem?_set_ne hlast).trans h.last
  · rw [hcase, setByte_range h] at hkey
    cases hkey
    have hhigh : kb.scanlen + 1 ≤ 1023 := hrange.2
    exact ⟨List.length_set.trans hlen, (List.getElem?_set_ne (by omega)).trans h.last, hrange⟩
  · rw [hcase] at hkey
    cases hkey
    exact ⟨hlen, h.last, hrange⟩

/-- **The rest of a call.** -/
theorem scanfRest_inv (h : BufferInv kb) {len : Int} (hlen : 0 ≤ len) :
    ∃ kb', scanfRest kb len = .ok kb' ∧ BufferInv kb' := by
  obtain ⟨hlow, hhigh⟩ := h.range
  have hbuflen := h.length
  have hstr := isStr_takeWhile (List.mem_of_getElem? h.last)
  obtain ⟨n, hn, hcut⟩ : ∃ n : Nat, n < 1024 ∧
      (if len < kb.scanlen then len else kb.scanlen) = n := by
    split_ifs
    · exact ⟨len.toNat, by omega, by omega⟩
    · exact ⟨kb.scanlen.toNat, by omega, by omega⟩
  obtain ⟨buf, hclear, hzero⟩ := @clearDown_ok kb.tempbuff n (by omega)
  refine ⟨{ kb with tempbuff := buf, scanlen := 0 }, ?_, ?_⟩
  · rw [scanfRest, hcut, strlen_spec hstr, ok_bind, readBytes, if_pos (by omega), ok_bind,
      clearTempbuff, if_pos (Int.natCast_nonneg n), Int.toNat_natCast, hclear]
    rfl
  · exact ⟨(clearDown_length hclear).trans hbuflen, hzero 1023 h.last, Int.le_refl 0,
      (by decide : (0 : Int) ≤ 1023)⟩

/-- A negative length is copied as one of nearly 2^64 bytes. -/
theorem scanfRest_negative (h : BufferInv kb) {len : Int32} (hlen : len.toInt < 0) :
    scanfRest kb len.toInt = .error .outOfBounds := by
  have hlow := h.range.1
  have hbuflen := h.length
  have hint := len.le_toInt
  have hstr := isStr_takeWhile (List.mem_of_getElem? h.last)
  rw [scanfRest, if_pos (by omega), strlen_spec hstr, ok_bind, readBytes, if_neg (by omega)]
  rfl

/-! ## Runs -/

/-- An event that fits keeps the invariant, and one that does not breaks a bound. -/
theorem step_fits_iff (h : BufferInv s.kb) :
    (∃ s', s.step e = .ok s' ∧ InRange s'.kb) ↔ s.Fits e := by
  cases e with
  | key code =>
    rw [Input.Fits, ← keyboardInterKey_fits_iff h]
    constructor
    · rintro ⟨s', hstep, hrange⟩
      obtain ⟨kb', hkey, rfl⟩ := map_eq_ok.1 hstep
      exact ⟨kb', hkey, hrange⟩
    · rintro ⟨kb', hkey, hrange⟩
      exact ⟨{ s with kb := kb' }, map_eq_ok.2 ⟨kb', hkey, rfl⟩, hrange⟩
  | call len => exact iff_of_true ⟨_, rfl, h.range⟩ trivial
  | rest len =>
    constructor
    · rintro ⟨s', hstep, -⟩
      obtain ⟨kb', hrest, -⟩ := map_eq_ok.1 hstep
      by_contra hnegative
      rw [scanfRest_negative h (not_le.1 hnegative)] at hrest
      cases hrest
    · intro hlen
      obtain ⟨kb', hrest, hinv⟩ := scanfRest_inv h hlen
      exact ⟨⟨kb', s.waiting.erase len⟩, map_eq_ok.2 ⟨kb', hrest, rfl⟩, hinv.range⟩

theorem step_inv (h : BufferInv s.kb) (hstep : s.step e = .ok s') (hrange : InRange s'.kb) :
    BufferInv s'.kb := by
  cases e with
  | key code =>
    obtain ⟨kb', hkey, rfl⟩ := map_eq_ok.1 hstep
    exact keyboardInterKey_inv h hkey hrange
  | call len =>
    cases hstep
    exact ⟨h.length, h.last, h.range⟩
  | rest len =>
    have hlen : 0 ≤ len.toInt := (step_fits_iff h).1 ⟨s', hstep, hrange⟩
    obtain ⟨kb', hrest, hinv⟩ := scanfRest_inv h hlen
    obtain ⟨kb'', hrest', rfl⟩ := map_eq_ok.1 hstep
    rw [hrest] at hrest'
    cases hrest'
    exact hinv

theorem Input.Bounded.range {es : List InputEvent} (h : s.Bounded es) : InRange s.kb := by
  cases es with
  | nil => exact h
  | cons e es => exact h.1

theorem bounded_iff_allFit (h : BufferInv s.kb) (es : List InputEvent) :
    s.Bounded es ↔ s.AllFit es := by
  induction es generalizing s with
  | nil => exact iff_of_true h.range trivial
  | cons e es ih =>
    constructor
    · intro hbounded henabled
      obtain ⟨s', hstep, hbounded⟩ := hbounded.2 henabled
      refine ⟨(step_fits_iff h).1 ⟨s', hstep, hbounded.range⟩, fun s'' hstep' => ?_⟩
      rw [hstep] at hstep'
      cases hstep'
      exact (ih (step_inv h hstep hbounded.range)).1 hbounded
    · intro hfit
      refine ⟨h.range, fun henabled => ?_⟩
      obtain ⟨hfits, hrest⟩ := hfit henabled
      obtain ⟨s', hstep, hrange⟩ := (step_fits_iff h).2 hfits
      exact ⟨s', hstep, (ih (step_inv h hstep hrange)).2 (hrest s' hstep)⟩

/-- **Input buffer bounds.** -/
theorem input_buffer_iff (es : List InputEvent) :
    Input.boot.Bounded es ↔ Input.boot.AllFit es :=
  bounded_iff_allFit bufferInv_boot es

end

/-- A backspace before anything else. -/
theorem input_buffer_backspace : ¬ Input.boot.Bounded [.key backspace] := by
  rintro ⟨-, hstep⟩
  obtain ⟨s, hstep, hbounded⟩ := hstep trivial
  have hfits := (step_fits_iff (s := Input.boot) bufferInv_boot).1 ⟨s, hstep, hbounded⟩
  exact absurd (hfits.1 rfl) (by decide)

end Sbunix
