import Mathlib
import Sbunix.Strings

/-!
# The keyboard line discipline

The handler of the keyboard interrupt puts characters into `tempbuff` at `scanlen` while `scanf`
waits for an Enter. `scanf` then copies the string at `tempbuff` to its caller, clears the positions
up to `scanlen` and starts again at 0. `gets` asks for one character (`len` is 1), so `scanf` cuts
`scanlen` to 1 and clears two positions at most.

A backspace writes its NUL behind the character it removes. `line_discipline_iff` says for which
lines, after any lines read before, the caller still gets what was typed: the position behind the
line must have been a NUL before, or have been cleared by a backspace, and the last press must not
be a backspace.
-/

namespace Sbunix

open Lib

/-! ## The handler -/

/-- Character codes of a key table. The positions it does not list are 0. -/
def keyTable (keys : List Char) (code : UInt8) : UInt8 :=
  ((keys.map Char.toUInt8).getD code.toNat 0)

def kbsmall : UInt8 → UInt8 :=
  keyTable ['\x00', '\x1b', '1', '2', '3', '4', '5', '6', '7', '8', '9', '0', '-', '=', '\x08',
    '\t', 'q', 'w', 'e', 'r', 't', 'y', 'u', 'i', 'o', 'p', '[', ']', '\n', '\x00', 'a', 's', 'd',
    'f', 'g', 'h', 'j', 'k', 'l', ';', '\x27', '\x60', '\x00', '\x5c', 'z', 'x', 'c', 'v', 'b',
    'n', 'm', ',', '.', '/', '\x00', '*', '\x00', ' ', '\x00', '\x00', '\x00', '\x00', '\x00',
    '\x00', '\x00', '\x00', '\x00', '\x00', '\x00', '\x00', '\x00', '\x00', '\x00', '\x00', '-',
    '\x00', '\x00', '\x00', '+']

def kbcaps : UInt8 → UInt8 :=
  keyTable ['\x00', '\x1b', '!', '@', '#', '$', '%', '^', '&', '*', '(', ')', '_', '+', '\x08',
    '\t', 'Q', 'W', 'E', 'R', 'T', 'Y', 'U', 'I', 'O', 'P', '\x7b', '\x7d', '\n', '\x00', 'A', 'S',
    'D', 'F', 'G', 'H', 'J', 'K', 'L', ':', '\x22', '~', '\x00', '|', 'Z', 'X', 'C', 'V', 'B',
    'N', 'M', '<', '>', '?', '\x00', '*', '\x00', ' ', '\x00', '\x00', '\x00', '\x00', '\x00',
    '\x00', '\x00', '\x00', '\x00', '\x00', '\x00', '\x00', '\x00', '\x00', '\x00', '\x00', '-',
    '\x00', '\x00', '\x00', '+']

/-- The scan codes of Enter, backspace and the left shift key. -/
def enter : UInt8 := 28

def backspace : UInt8 := 14

def leftShift : UInt8 := 0x2A

/-- What the interrupt handler and `scanf` share. -/
structure Keyboard where
  flag : Bool
  tempbuff : List UInt8
  scanlen : Int
  shiftKey : Bool

def Keyboard.boot : Keyboard := ⟨false, List.replicate 1024 0, 0, false⟩

/-- `buf[i] = v`. -/
def setByte (buf : List UInt8) (i : Int) (v : UInt8) : Except Fault (List UInt8) :=
  if 0 ≤ i ∧ i < buf.length then .ok (buf.set i.toNat v) else .error .outOfBounds

/-- A key that is neither a shift nor a backspace: character `c` of the key `code`. -/
def pressKey (code c : UInt8) (st : Keyboard) : Except Fault Keyboard :=
  if c = '\n'.toUInt8 then .ok st
  else if st.flag then
    if code = backspace then .ok { st with scanlen := st.scanlen - 1 }
    else do
      let tempbuff ← setByte st.tempbuff st.scanlen c
      .ok { st with tempbuff := tempbuff, scanlen := st.scanlen + 1 }
  else .ok st

/-- `keyboard_inter_key`, for a scan code read from port 0x60. -/
def keyboardInterKey (code : UInt8) (st : Keyboard) : Except Fault Keyboard :=
  let st := if code = enter then { st with flag := false } else st
  if code = backspace then do
    let tempbuff ← setByte st.tempbuff st.scanlen 0
    .ok { st with tempbuff := tempbuff, scanlen := st.scanlen - 1 }
  else if code &&& 0x80 ≠ 0 then
    .ok (if code = leftShift then { st with shiftKey := false } else st)
  else if code = leftShift then .ok { st with shiftKey := true }
  else if st.shiftKey then do
    let st ← pressKey code (kbcaps code) st
    .ok { st with shiftKey := false }
  else pressKey code (kbsmall code) st

/-! ## `scanf` -/

def strcpy (dest src : List UInt8) : Except Fault (List UInt8) := sstrcpy dest src

/-- `memcpy` between two objects. -/
def memcpyBytes (dest src : List UInt8) (n : Int) : Except Fault (List UInt8) :=
  let n := (n % 2 ^ 64).toNat
  if n ≤ dest.length ∧ n ≤ src.length then .ok (src.take n ++ dest.drop n)
  else .error .outOfBounds

/-- `while(flag ==1);`, where `keys` are the scan codes to come: the ones left when it ends. -/
def waitFlag (st : Keyboard) : List UInt8 → Except Fault (Keyboard × List UInt8)
  | [] => if st.flag then .error .diverges else .ok (st, [])
  | code :: keys =>
    if st.flag then do
      let st ← keyboardInterKey code st
      waitFlag st keys
    else .ok (st, code :: keys)

/-- The loop that clears `tempbuff` from `scanlen` down to 0. -/
def clearDown (tempbuff : List UInt8) : Nat → Except Fault (List UInt8)
  | 0 => setByte tempbuff 0 0
  | scanlen + 1 => do
    let tempbuff ← setByte tempbuff (scanlen + 1) 0
    clearDown tempbuff scanlen

def clearTempbuff (tempbuff : List UInt8) (scanlen : Int) : Except Fault (List UInt8) :=
  if 0 ≤ scanlen then clearDown tempbuff scanlen.toNat else .ok tempbuff

/-- `scanf`: the new contents of `buff` and the keys it has not waited for. It always returns -1,
the value of `scanlen` behind the loop. -/
def scanf (st : Keyboard) (buff : List UInt8) (len : Int) (keys : List UInt8) :
    Except Fault (Keyboard × List UInt8 × List UInt8) := do
  let (st, keys) ← waitFlag { st with flag := true } keys
  let scanlen := if len < st.scanlen then len else st.scanlen
  let buff ← strcpy buff st.tempbuff
  let buff ← memcpyBytes buff st.tempbuff scanlen
  let tempbuff ← clearTempbuff st.tempbuff scanlen
  .ok ({ st with tempbuff := tempbuff, scanlen := 0 }, buff, keys)

/-- `gets`: a `read(0, s, 1)`, which `sys_read` hands to `scanf`. -/
def gets (st : Keyboard) (s keys : List UInt8) :
    Except Fault (Keyboard × List UInt8 × List UInt8) := scanf st s 1 keys

/-! ## Lines -/

/-- A line has been read, into some buffer, with some keys. -/
def ReadsLine (st st' : Keyboard) : Prop := ∃ s keys s', gets st s keys = .ok (st', s', [])

/-- The states between the lines of any history. -/
def History (st : Keyboard) : Prop := Relation.ReflTransGen ReadsLine Keyboard.boot st

/-- One press applied to a line. -/
def applyPress (line : List UInt8) (code : UInt8) : List UInt8 :=
  if code = backspace then line.dropLast else line ++ [kbsmall code]

/-- The presses applied to the empty line. -/
def typedLine (presses : List UInt8) : List UInt8 := presses.foldl applyPress []

/-- A key with a character. -/
def CharKey (code : UInt8) : Prop := kbsmall code ≠ 0 ∧ code ≠ backspace ∧ code ≠ enter

instance (code : UInt8) : Decidable (CharKey code) := inferInstanceAs (Decidable (_ ∧ _))

/-- A backspace is pressed when the line has length `j`. -/
def BackspaceAt (presses : List UInt8) (j : Nat) : Prop :=
  ∃ before, before ++ [backspace] <+: presses ∧ (typedLine before).length = j

/-- Presses of character keys and backspaces, with less than 128 characters pending at any time and
no backspace on an empty line. -/
structure Typed (presses : List UInt8) : Prop where
  keys : ∀ code ∈ presses, code = backspace ∨ CharKey code
  pending : ∀ before, before <+: presses → (typedLine before).length < 128
  nonempty : ¬ BackspaceAt presses 0

/-- The position behind the line is clear at the Enter. -/
def EndsClear (tempbuff presses : List UInt8) : Prop :=
  presses.getLast? ≠ some backspace ∧
    (tempbuff[(typedLine presses).length]? = some 0 ∨
      BackspaceAt presses (typedLine presses).length)

section

variable {presses line : List UInt8} {code : UInt8} {j : Nat} {st st' : Keyboard}

theorem typedLine_concat (presses : List UInt8) (code : UInt8) :
    typedLine (presses ++ [code]) = applyPress (typedLine presses) code := by
  simp [typedLine]

theorem backspaceAt_concat_iff :
    BackspaceAt (presses ++ [code]) j ↔
      BackspaceAt presses j ∨ code = backspace ∧ (typedLine presses).length = j := by
  constructor
  · rintro ⟨before, hprefix, hj⟩
    rcases List.prefix_concat_iff.1 hprefix with heq | hprefix
    · obtain ⟨rfl, hcode⟩ := List.append_inj' heq rfl
      exact Or.inr ⟨(List.singleton_inj.1 hcode).symm, hj⟩
    · exact Or.inl ⟨before, hprefix, hj⟩
  · rintro (⟨before, hprefix, hj⟩ | ⟨rfl, hj⟩)
    · exact ⟨before, hprefix.trans (List.prefix_append _ _), hj⟩
    · exact ⟨presses, List.prefix_rfl, hj⟩

theorem Typed.of_concat (h : Typed (presses ++ [code])) : Typed presses := by
  refine ⟨?_, ?_, ?_⟩
  · intro c hc
    exact h.keys c (List.mem_append_left _ hc)
  · intro before hbefore
    exact h.pending before (hbefore.trans (List.prefix_append _ _))
  · intro hat
    exact h.nonempty (backspaceAt_concat_iff.2 (Or.inl hat))

/-! ## The keys of a line -/

theorem kbsmall_enter : kbsmall enter = '\n'.toUInt8 := by decide

/-- A property of all bytes, checked byte by byte. -/
theorem forall_byte {P : UInt8 → Prop} (h : ∀ i : Fin 256, P (UInt8.ofNat i)) (c : UInt8) :
    P c := by
  have hc := h ⟨c.toNat, c.toNat_lt⟩
  rwa [UInt8.ofNat_toNat] at hc

set_option maxRecDepth 4000 in
/-- A key with a character is pressed, not released, and only Enter has a newline. -/
theorem charKey_spec (h : CharKey code) :
    code &&& 0x80 = 0 ∧ code ≠ leftShift ∧ kbsmall code ≠ '\n'.toUInt8 := by
  have htable : ∀ code, kbsmall code ≠ 0 → code ≠ enter →
      code &&& 0x80 = 0 ∧ code ≠ leftShift ∧ kbsmall code ≠ '\n'.toUInt8 :=
    forall_byte (by decide)
  exact htable code h.1 h.2.2

theorem setByte_nat (buf : List UInt8) {i : Nat} (v : UInt8) (hi : i < buf.length) :
    setByte buf i v = .ok (buf.set i v) := by
  rw [setByte, if_pos ⟨by omega, by omega⟩, Int.toNat_natCast]

theorem setByte_length {buf buf' : List UInt8} {i : Int} {v : UInt8}
    (h : setByte buf i v = .ok buf') : buf'.length = buf.length := by
  unfold setByte at h
  split at h
  · obtain rfl := Except.ok.inj h
    exact List.length_set
  · nomatch h

/-- What `scanf` has seen when the presses have come: a line, and behind it what the backspaces
left of `tempbuff`. -/
structure Pending (tempbuff presses : List UInt8) (st : Keyboard) : Prop where
  flag : st.flag = true
  shiftKey : st.shiftKey = false
  scanlen : st.scanlen = (typedLine presses).length
  length : st.tempbuff.length = 1024
  line : typedLine presses <+: st.tempbuff
  nonzero : 0 ∉ typedLine presses
  behind : ∀ j, (typedLine presses).length ≤ j →
    (j = (typedLine presses).length → presses.getLast? ≠ some backspace) →
      (st.tempbuff[j]? = some 0 ↔ tempbuff[j]? = some 0 ∨ BackspaceAt presses j)
  removed : presses.getLast? = some backspace → st.tempbuff[(typedLine presses).length]? ≠ some 0

theorem pending_nil {T : List UInt8} (hlen : T.length = 1024) :
    Pending T [] ⟨true, T, 0, false⟩ := by
  refine ⟨rfl, rfl, rfl, hlen, List.nil_prefix, List.not_mem_nil, ?_, ?_⟩
  · intro j _ _
    refine ⟨Or.inl, ?_⟩
    rintro (h | ⟨before, hprefix, -⟩)
    · exact h
    · exact absurd (List.prefix_nil.1 hprefix) (by simp)
  · intro h
    exact absurd h (by simp)

/-- A character key, at the end of a line that has room. -/
theorem keyboardInterKey_char {T : List UInt8} (h : Pending T presses st) (hcode : CharKey code)
    (hroom : (typedLine presses).length < 1024) :
    ∃ st', keyboardInterKey code st = .ok st' ∧ Pending T (presses ++ [code]) st' := by
  obtain ⟨hpress, hshift, hnewline⟩ := charKey_spec hcode
  obtain ⟨hchar, hback, henter⟩ := hcode
  have hset := setByte_nat st.tempbuff (kbsmall code) (h.length.symm ▸ hroom)
  rw [← h.scanlen] at hset
  refine ⟨⟨true, st.tempbuff.set (typedLine presses).length (kbsmall code), st.scanlen + 1, false⟩,
    ?_, ?_⟩
  · simp only [keyboardInterKey, pressKey, if_neg henter, if_neg hback, hpress, ne_eq,
      not_true_eq_false, if_false, if_neg hshift, h.shiftKey, Bool.false_eq_true, if_neg hnewline,
      h.flag, if_true, hset, ok_bind]
  · have hline : typedLine (presses ++ [code]) = typedLine presses ++ [kbsmall code] := by
      rw [typedLine_concat, applyPress, if_neg hback]
    have hlast : (presses ++ [code]).getLast? = some code := List.getLast?_concat
    refine ⟨rfl, rfl, ?_, ?_, ?_, ?_, ?_, ?_⟩
    · rw [hline, h.scanlen]
      simp
    · rw [List.length_set, h.length]
    · rw [hline]
      obtain ⟨rest, hrest⟩ := h.line
      rw [← hrest, List.set_append_right _ _ (Nat.le_refl _), Nat.sub_self]
      cases rest with
      | nil =>
        have hlen := h.length
        rw [← hrest, List.append_nil] at hlen
        omega
      | cons c rest => exact ⟨rest, by simp⟩
    · rw [hline, List.mem_append, List.mem_singleton, not_or]
      exact ⟨h.nonzero, Ne.symm hchar⟩
    · intro j hj _
      rw [hline, List.length_append, List.length_singleton] at hj
      rw [List.getElem?_set_ne (by omega), backspaceAt_concat_iff,
        h.behind j (by omega) (by omega)]
      simp [hback]
    · intro hcode
      rw [hlast] at hcode
      exact absurd (Option.some.inj hcode) hback

/-- A backspace, on a line that is not empty. -/
theorem keyboardInterKey_backspace {T : List UInt8} (h : Pending T presses st)
    (hne : typedLine presses ≠ []) (hroom : (typedLine presses).length < 1024) :
    ∃ st', keyboardInterKey backspace st = .ok st' ∧ Pending T (presses ++ [backspace]) st' := by
  have hset := setByte_nat st.tempbuff 0 (h.length.symm ▸ hroom)
  rw [← h.scanlen] at hset
  have hpos := List.length_pos_iff.2 hne
  refine ⟨⟨true, st.tempbuff.set (typedLine presses).length 0, st.scanlen - 1, false⟩, ?_, ?_⟩
  · have henter : backspace ≠ enter := by decide
    simp only [keyboardInterKey, if_neg henter, if_true, hset, ok_bind, h.flag, h.shiftKey]
  · have hline : typedLine (presses ++ [backspace]) = (typedLine presses).dropLast := by
      rw [typedLine_concat, applyPress, if_pos rfl]
    refine ⟨rfl, rfl, ?_, ?_, ?_, ?_, ?_, ?_⟩
    · show st.scanlen - 1 = _
      rw [hline, h.scanlen, List.length_dropLast]
      omega
    · rw [List.length_set, h.length]
    · rw [hline]
      obtain ⟨rest, hrest⟩ := h.line
      rw [← hrest, List.set_append_right _ _ (Nat.le_refl _)]
      exact (List.dropLast_prefix _).trans (List.prefix_append _ _)
    · intro hmem
      rw [hline] at hmem
      exact h.nonzero ((List.dropLast_prefix _).subset hmem)
    · intro j hj hlast
      rw [hline, List.length_dropLast] at hj hlast
      have hjne : j ≠ (typedLine presses).length - 1 := fun heq =>
        hlast heq List.getLast?_concat
      rw [backspaceAt_concat_iff]
      by_cases heq : (typedLine presses).length = j
      · rw [← heq, List.getElem?_set_self (h.length.symm ▸ hroom)]
        simp
      · rw [List.getElem?_set_ne heq, h.behind j (by omega) fun h => absurd h.symm heq]
        simp [heq]
    · intro _
      rw [hline, List.length_dropLast, List.getElem?_set_ne (by omega)]
      -- The character that has been removed is still there.
      obtain ⟨rest, hrest⟩ := h.line
      rw [← hrest, List.getElem?_append_left (by omega), ← List.getLast?_eq_getElem?]
      intro hlast
      exact h.nonzero (List.mem_of_getLast? hlast)

/-- The presses, one after the other. -/
theorem waitFlag_presses {T : List UInt8} (hlen : T.length = 1024) (h : Typed presses)
    (keys : List UInt8) :
    ∃ st, waitFlag ⟨true, T, 0, false⟩ (presses ++ keys) = waitFlag st keys ∧
      Pending T presses st := by
  induction presses using List.reverseRecOn generalizing keys with
  | nil => exact ⟨_, rfl, pending_nil hlen⟩
  | append_singleton presses code ih =>
    obtain ⟨st, hwait, hst⟩ := ih h.of_concat (code :: keys)
    have hroom := h.pending presses (List.prefix_append _ _)
    obtain ⟨st', hkey, hst'⟩ :
        ∃ st', keyboardInterKey code st = .ok st' ∧ Pending T (presses ++ [code]) st' := by
      rcases h.keys code (by simp) with rfl | hchar
      · refine keyboardInterKey_backspace hst ?_ (by omega)
        intro hnil
        exact h.nonempty (backspaceAt_concat_iff.2 (Or.inr ⟨rfl, by rw [hnil]; rfl⟩))
      · exact keyboardInterKey_char hst hchar (by omega)
    refine ⟨st', ?_, hst'⟩
    rw [List.append_assoc, List.singleton_append, hwait, waitFlag, if_pos hst.flag, hkey, ok_bind]

/-- The Enter ends the wait. -/
theorem waitFlag_enter {T : List UInt8} (h : Pending T presses st) :
    waitFlag st [enter] = .ok ({ st with flag := false }, []) := by
  have hback : enter ≠ backspace := by decide
  have hpress : enter &&& 0x80 = 0 := by decide
  have hshift : enter ≠ leftShift := by decide
  have hkey : keyboardInterKey enter st = .ok { st with flag := false } := by
    simp only [keyboardInterKey, pressKey, if_true, if_neg hback, hpress, ne_eq, not_true_eq_false,
      if_false, if_neg hshift, h.shiftKey, Bool.false_eq_true, kbsmall_enter]
  rw [waitFlag, if_pos h.flag, hkey, ok_bind]
  rfl

/-! ## Between the lines -/

/-- The keyboard when no line is being read. -/
structure Idle (st : Keyboard) : Prop where
  shiftKey : st.shiftKey = false
  scanlen : st.scanlen = 0
  length : st.tempbuff.length = 1024

theorem pressKey_spec {c : UInt8} (h : pressKey code c st = .ok st') :
    st'.flag = st.flag ∧ st'.shiftKey = st.shiftKey ∧
      st'.tempbuff.length = st.tempbuff.length := by
  unfold pressKey at h
  split at h
  · obtain rfl := Except.ok.inj h
    exact ⟨rfl, rfl, rfl⟩
  split at h
  · split at h
    · obtain rfl := Except.ok.inj h
      exact ⟨rfl, rfl, rfl⟩
    · obtain ⟨buf, hbuf, hst⟩ := bind_eq_ok.1 h
      obtain rfl := Except.ok.inj hst
      exact ⟨rfl, rfl, setByte_length hbuf⟩
  · obtain rfl := Except.ok.inj h
    exact ⟨rfl, rfl, rfl⟩

/-- Only an Enter ends the wait, and an Enter takes the shift back. -/
theorem keyboardInterKey_spec (h : keyboardInterKey code st = .ok st') (hflag : st.flag = true) :
    st'.tempbuff.length = st.tempbuff.length ∧ (st'.flag = true ∨ st'.shiftKey = false) := by
  unfold keyboardInterKey at h
  by_cases henter : code = enter
  · subst henter
    have hback : enter ≠ backspace := by decide
    have hpress : enter &&& 0x80 = 0 := by decide
    have hshift : enter ≠ leftShift := by decide
    simp only [if_true, if_neg hback, hpress, ne_eq, not_true_eq_false, if_false,
      if_neg hshift] at h
    split at h
    · obtain ⟨st₁, hst₁, hst'⟩ := bind_eq_ok.1 h
      obtain rfl := Except.ok.inj hst'
      exact ⟨(pressKey_spec hst₁).2.2, Or.inr rfl⟩
    · rename_i hshiftKey
      obtain ⟨-, hkey, hlen⟩ := pressKey_spec h
      exact ⟨hlen, Or.inr (hkey.trans (by simpa using hshiftKey))⟩
  · simp only [if_neg henter] at h
    split at h
    · obtain ⟨buf, hbuf, hst'⟩ := bind_eq_ok.1 h
      obtain rfl := Except.ok.inj hst'
      exact ⟨setByte_length hbuf, Or.inl hflag⟩
    split at h
    · obtain rfl := Except.ok.inj h
      split
      · exact ⟨rfl, Or.inl hflag⟩
      · exact ⟨rfl, Or.inl hflag⟩
    split at h
    · obtain rfl := Except.ok.inj h
      exact ⟨rfl, Or.inl hflag⟩
    split at h
    · obtain ⟨st₁, hst₁, hst'⟩ := bind_eq_ok.1 h
      obtain rfl := Except.ok.inj hst'
      obtain ⟨hf, -, hlen⟩ := pressKey_spec hst₁
      exact ⟨hlen, Or.inl (hf.trans hflag)⟩
    · obtain ⟨hf, -, hlen⟩ := pressKey_spec h
      exact ⟨hlen, Or.inl (hf.trans hflag)⟩

theorem waitFlag_spec {keys rest : List UInt8} (h : waitFlag st keys = .ok (st', rest))
    (hst : st.flag = true ∨ st.shiftKey = false) :
    st'.tempbuff.length = st.tempbuff.length ∧ st'.shiftKey = false := by
  induction keys generalizing st with
  | nil =>
    unfold waitFlag at h
    split at h
    · nomatch h
    · rename_i hflag
      obtain ⟨rfl, -⟩ := Prod.mk.inj (Except.ok.inj h)
      exact ⟨rfl, hst.resolve_left hflag⟩
  | cons code keys ih =>
    unfold waitFlag at h
    split at h
    · rename_i hflag
      obtain ⟨st₁, hst₁, h⟩ := bind_eq_ok.1 h
      obtain ⟨hlen, hst₁⟩ := keyboardInterKey_spec hst₁ hflag
      obtain ⟨hlen', hshift⟩ := ih h hst₁
      exact ⟨hlen'.trans hlen, hshift⟩
    · rename_i hflag
      obtain ⟨rfl, -⟩ := Prod.mk.inj (Except.ok.inj h)
      exact ⟨rfl, hst.resolve_left hflag⟩

/-- The loop that clears the buffer comes to its end, and keeps every NUL. -/
theorem clearDown_ok {buf : List UInt8} {n : Nat} (hn : n < buf.length) :
    ∃ buf', clearDown buf n = .ok buf' ∧ ∀ i : Nat, buf[i]? = some 0 → buf'[i]? = some 0 := by
  have hset : ∀ (buf : List UInt8) (i j : Nat), j < buf.length → buf[i]? = some 0 →
      (buf.set j 0)[i]? = some 0 := by
    intro buf i j hj hi
    by_cases heq : j = i
    · rw [heq]
      exact List.getElem?_set_self (heq ▸ hj)
    · exact (List.getElem?_set_ne heq).trans hi
  induction n generalizing buf with
  | zero => exact ⟨buf.set 0 0, setByte_nat buf 0 hn, fun i => hset buf i 0 hn⟩
  | succ n ih =>
    obtain ⟨buf', hbuf', hzero⟩ := @ih (buf.set (n + 1) 0) (by rw [List.length_set]; omega)
    have hbyte : setByte buf ((n : Int) + 1) 0 = .ok (buf.set (n + 1) 0) :=
      setByte_nat buf 0 hn
    refine ⟨buf', ?_, fun i hi => hzero i (hset buf i _ hn hi)⟩
    rw [clearDown, hbyte, ok_bind, hbuf']

theorem clearDown_length {buf buf' : List UInt8} {n : Nat} (h : clearDown buf n = .ok buf') :
    buf'.length = buf.length := by
  induction n generalizing buf with
  | zero => exact setByte_length h
  | succ n ih =>
    obtain ⟨buf₁, hbuf₁, h⟩ := bind_eq_ok.1 h
    exact (ih h).trans (setByte_length hbuf₁)

theorem clearTempbuff_length {buf buf' : List UInt8} {n : Int}
    (h : clearTempbuff buf n = .ok buf') : buf'.length = buf.length := by
  unfold clearTempbuff at h
  split at h
  · exact clearDown_length h
  · rw [Except.ok.inj h]

theorem scanf_idle {s s' keys rest : List UInt8} {len : Int} (hidle : Idle st)
    (h : scanf st s len keys = .ok (st', s', rest)) : Idle st' := by
  obtain ⟨⟨st₁, keys₁⟩, hwait, h⟩ := bind_eq_ok.1 h
  obtain ⟨hlen, hshift⟩ := waitFlag_spec hwait (Or.inl rfl)
  obtain ⟨_, -, h⟩ := bind_eq_ok.1 h
  obtain ⟨_, -, h⟩ := bind_eq_ok.1 h
  obtain ⟨buf, hbuf, h⟩ := bind_eq_ok.1 h
  obtain ⟨rfl, -⟩ := Prod.mk.inj (Except.ok.inj h)
  refine ⟨hshift, rfl, ?_⟩
  show buf.length = 1024
  exact (clearTempbuff_length hbuf).trans (hlen.trans hidle.length)

theorem History.idle (h : History st) : Idle st := by
  induction h with
  | refl => exact ⟨rfl, rfl, List.length_replicate⟩
  | tail _ hline ih =>
    obtain ⟨s, keys, s', hgets⟩ := hline
    exact scanf_idle ih hgets

/-! ## The line as it is stored -/

/-- `scanlen` is 0 or 1 when it comes to the copy, so that `memcpy` copies what `strcpy` has copied
before. -/
theorem memcpyBytes_isStr {dest src str : List UInt8} {n : Int} (hdest : IsStr dest str)
    (hsrc : IsStr src str) (hn : n = 0 ∨ n = 1) :
    ∃ buff, memcpyBytes dest src n = .ok buff ∧ IsStr buff str := by
  have hdlen := hdest.length_lt
  have hslen := hsrc.length_lt
  have hcopy : ∀ k : Nat, k ≤ 1 → memcpyBytes dest src k = .ok (src.take k ++ dest.drop k) := by
    intro k hk
    have hmod : ((k : Int) % 2 ^ 64).toNat = k := by omega
    simp only [memcpyBytes, hmod]
    rw [if_pos (by omega)]
  rcases hn with rfl | rfl
  · exact ⟨dest, hcopy 0 (by decide), hdest⟩
  · refine ⟨_, hcopy 1 (by decide), ?_⟩
    obtain ⟨hnul, rest, rfl⟩ := hdest
    obtain ⟨-, rest', rfl⟩ := hsrc
    cases str with
    | nil => exact ⟨hnul, rest, rfl⟩
    | cons c str => exact ⟨hnul, rest, rfl⟩

theorem clearTempbuff_ok {buf : List UInt8} {n : Int} (hlen : buf.length = 1024)
    (hn : n = 0 ∨ n = 1) : ∃ buf', clearTempbuff buf n = .ok buf' := by
  rcases hn with rfl | rfl
  · exact ⟨_, setByte_nat buf (i := 0) 0 (by omega)⟩
  · refine ⟨(buf.set 1 0).set 0 0, bind_eq_ok.2 ⟨buf.set 1 0, ?_, ?_⟩⟩
    · exact setByte_nat buf (i := 1) 0 (by omega)
    · exact setByte_nat _ (i := 0) 0 (by rw [List.length_set]; omega)

/-- The caller's string is the one at `tempbuff` when the Enter comes. -/
theorem gets_isStr_iff {T s : List UInt8} (h : Pending T presses st)
    (hs : (typedLine presses).length < s.length) {st₀ : Keyboard}
    (hwait : waitFlag { st₀ with flag := true } (presses ++ [enter]) = waitFlag st [enter]) :
    (∃ st' s', gets st₀ s (presses ++ [enter]) = .ok (st', s', []) ∧
        IsStr s' (typedLine presses)) ↔ IsStr st.tempbuff (typedLine presses) := by
  have hwait := hwait.trans (waitFlag_enter h)
  have hlen : ∀ n : Int, 0 ≤ n → (if 1 < n then 1 else n) = 0 ∨ (if 1 < n then 1 else n) = 1 := by
    intro n hn
    split <;> omega
  have hn := hlen st.scanlen (by rw [h.scanlen]; omega)
  constructor
  · rintro ⟨st', s', hgets, hstr⟩
    obtain ⟨⟨st₁, keys⟩, hst₁, hgets⟩ := bind_eq_ok.1 hgets
    obtain ⟨rfl, rfl⟩ := Prod.mk.inj (Except.ok.inj (hwait.symm.trans hst₁))
    obtain ⟨s₁, hs₁, hgets⟩ := bind_eq_ok.1 hgets
    obtain ⟨s₂, hs₂, hgets⟩ := bind_eq_ok.1 hgets
    obtain ⟨buf, -, hgets⟩ := bind_eq_ok.1 hgets
    obtain ⟨-, hs'⟩ := Prod.mk.inj (Except.ok.inj hgets)
    obtain ⟨rfl, -⟩ := Prod.mk.inj hs'
    obtain ⟨str, hsrc, hdest⟩ := sstrcpy_ok hs₁
    obtain ⟨s₃, hs₃, hstr₃⟩ := memcpyBytes_isStr hdest hsrc hn
    obtain rfl := Except.ok.inj (hs₂.symm.trans hs₃)
    rwa [hstr.unique hstr₃]
  · intro hstr
    obtain ⟨s₁, hs₁, hdest, -⟩ := sstrcpy_spec s hstr hs
    obtain ⟨s₂, hs₂, hstr₂⟩ := memcpyBytes_isStr hdest hstr hn
    obtain ⟨buf, hbuf⟩ := clearTempbuff_ok h.length hn
    refine ⟨⟨false, buf, 0, st.shiftKey⟩, s₂, ?_, hstr₂⟩
    refine bind_eq_ok.2 ⟨_, hwait, bind_eq_ok.2 ⟨s₁, hs₁, bind_eq_ok.2 ⟨s₂, hs₂, ?_⟩⟩⟩
    exact bind_eq_ok.2 ⟨buf, hbuf, rfl⟩

/-- The string at `tempbuff` is the line exactly if there is a NUL behind it. -/
theorem isStr_tempbuff_iff {T : List UInt8} (h : Pending T presses st) :
    IsStr st.tempbuff (typedLine presses) ↔ EndsClear T presses := by
  have hnul : IsStr st.tempbuff (typedLine presses) ↔
      st.tempbuff[(typedLine presses).length]? = some 0 := by
    obtain ⟨rest, hrest⟩ := h.line
    rw [← hrest, isStr_append_iff h.nonzero, List.getElem?_append_right (Nat.le_refl _),
      Nat.sub_self]
    exact isStr_nil_iff_getElem?
  rw [hnul, EndsClear]
  by_cases hlast : presses.getLast? = some backspace
  · simp [hlast, h.removed hlast]
  · rw [h.behind _ (Nat.le_refl _) fun _ => hlast]
    simp [hlast]

/-- One line, read from an idle keyboard. -/
theorem gets_line_iff {s : List UInt8} (hidle : Idle st) (hs : 128 ≤ s.length)
    (h : Typed presses) :
    (∃ st' s', gets st s (presses ++ [enter]) = .ok (st', s', []) ∧
        IsStr s' (typedLine presses)) ↔ EndsClear st.tempbuff presses := by
  obtain ⟨hshift, hscanlen, hlen⟩ := hidle
  obtain ⟨st₁, hwait, hpending⟩ := waitFlag_presses hlen h [enter]
  have hroom := h.pending presses List.prefix_rfl
  have hstart : { st with flag := true } = (⟨true, st.tempbuff, 0, false⟩ : Keyboard) := by
    rw [← hshift, ← hscanlen]
  rw [gets_isStr_iff hpending (by omega) (hstart ▸ hwait), isStr_tempbuff_iff hpending]

theorem typed_nil : Typed [] := by
  refine ⟨List.forall_mem_nil _, ?_, ?_⟩
  · intro before hprefix
    rw [List.prefix_nil.1 hprefix]
    decide
  · rintro ⟨before, hprefix, -⟩
    exact absurd (List.prefix_nil.1 hprefix) (by simp)

theorem Typed.concat (h : Typed presses) (hkey : code = backspace ∨ CharKey code)
    (hlen : (typedLine (presses ++ [code])).length < 128)
    (hne : code = backspace → (typedLine presses).length ≠ 0) : Typed (presses ++ [code]) := by
  refine ⟨?_, ?_, ?_⟩
  · intro c hc
    rcases List.mem_append.1 hc with hc | hc
    · exact h.keys c hc
    · rwa [List.mem_singleton.1 hc]
  · intro before hprefix
    rcases List.prefix_concat_iff.1 hprefix with rfl | hprefix
    · exact hlen
    · exact h.pending before hprefix
  · intro hat
    rcases backspaceAt_concat_iff.1 hat with hat | ⟨hcode, hnil⟩
    · exact h.nonempty hat
    · exact hne hcode hnil

end

/-- **Line discipline.** After any lines, the presses of a further line are stored for the caller
exactly if the position behind the line is clear at the Enter. -/
theorem line_discipline_iff (st : Keyboard) (hst : History st) (s : List UInt8)
    (hs : 128 ≤ s.length) (presses : List UInt8) (h : Typed presses) :
    (∃ st' s', gets st s (presses ++ [enter]) = .ok (st', s', []) ∧
        IsStr s' (typedLine presses)) ↔ EndsClear st.tempbuff presses :=
  gets_line_iff hst.idle hs h

/-- The keys `a` and `b`. -/
theorem typed_ab : Typed [30, 48] := by
  have ha : Typed ([] ++ [30]) := typed_nil.concat (Or.inr (by decide)) (by decide) (by decide)
  exact ha.concat (Or.inr (by decide)) (by decide) (by decide)

theorem line_discipline_ab :
    ∃ st' s', gets Keyboard.boot (List.replicate 128 0) ([30, 48] ++ [enter]) = .ok (st', s', []) ∧
      IsStr s' (typedLine [30, 48]) := by
  refine (line_discipline_iff Keyboard.boot .refl _ (by simp) _ typed_ab).2 ⟨by decide, Or.inl ?_⟩
  exact List.getElem?_replicate_of_lt (by decide)

/-- After `a`, `b` and a backspace the caller still gets `ab`. -/
theorem backspace_not_applied :
    History Keyboard.boot ∧ Typed [30, 48, backspace] ∧
      ¬ ∃ st' s', gets Keyboard.boot (List.replicate 128 0) ([30, 48, backspace] ++ [enter]) =
          .ok (st', s', []) ∧ IsStr s' (typedLine [30, 48, backspace]) := by
  have htyped : Typed [30, 48, backspace] :=
    typed_ab.concat (Or.inl rfl) (by decide) (by decide)
  refine ⟨.refl, htyped, ?_⟩
  rw [gets_line_iff (History.idle .refl) (by simp) htyped]
  intro hclear
  exact hclear.1 rfl

end Sbunix
