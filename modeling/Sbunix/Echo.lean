import Sbunix.Display
import Sbunix.ShiftKey

/-!
# What the user types

While `scanf` waits, `keyboard_inter_key` keeps a line twice: it stores the characters in `tempbuff`
and prints them on the screen. A `Typing` is the line as the user means it. `Echoes` says that both
copies are this line, which each interrupt keeps.

`typed_lines` follows output and input from boot on. The screen shows what has been printed and what
has been typed, in turn, and `scanf` hands over strings that begin with the lines on the screen.
They are these lines as long as no backspace has been pressed and `scanf` has cleared what it has
read.
-/

namespace Sbunix

open Lib

/-! ## The handler -/

/-- What `keyboard_inter_key` prints. -/
def keyEcho (code : UInt8) (shiftKey : Bool) (c : Console) : Except Fault Console :=
  if code = backspace then kprintf [8, 0] [] c
  else if code &&& 0x80 ≠ 0 ∨ code = leftShift then .ok c
  else
    let char := translation shiftKey code
    if char = '\n'.toUInt8 then kprintf [10, 0] [] c
    else kprintf [37, 99, 0] [.word char.toUInt64] c

/-- `keyboard_inter_key` with what it prints. -/
def keyboardText (code : UInt8) (st : Keyboard) (c : Console) :
    Except Fault (Keyboard × Console) := do
  let c ← keyEcho code st.shiftKey c
  let st ← keyboardInterKey code st
  .ok (st, c)

/-- `while(flag ==1);` with what the handler prints. -/
def waitFlagText (st : Keyboard) (c : Console) :
    List UInt8 → Except Fault ((Keyboard × List UInt8) × Console)
  | [] => if st.flag then .error .diverges else .ok ((st, []), c)
  | code :: keys =>
    if st.flag then do
      let (st, c) ← keyboardText code st c
      waitFlagText st c keys
    else .ok ((st, code :: keys), c)

/-- `scanf` with what the handler prints while it waits. -/
def scanfText (st : Keyboard) (buff : List UInt8) (len : Int) (keys : List UInt8) (c : Console) :
    Except Fault ((Keyboard × List UInt8 × List UInt8) × Console) := do
  let (_, c) ← waitFlagText { st with flag := true } c keys
  let r ← scanf st buff len keys
  .ok (r, c)

/-! ## The line -/

/-- The line that has been typed, and whether a shift is pending. -/
structure Typing where
  line : List UInt8
  shift : Bool

namespace Typing

def next (t : Typing) (code : UInt8) : Typing :=
  if code = backspace then { t with line := t.line.dropLast }
  else if code &&& 0x80 ≠ 0 then t
  else if code = leftShift then { t with shift := true }
  else ⟨t.line ++ [translation t.shift code], false⟩

/-- A key before the Enter. A backspace has something to remove, and a character fits in the line
behind `width` others. -/
def Admits (width : Nat) (t : Typing) (code : UInt8) : Prop :=
  code ≠ enter ∧ (code = backspace → t.line ≠ []) ∧
    (CharPress code → translation t.shift code ≠ 0 ∧ width + t.line.length ≤ 78)

end Typing

/-- The line is in `tempbuff`, and on the screen behind the text `p`. Behind the line, and from `k`
on, `tempbuff` is clear. -/
structure Echoes (k : Nat) (p : Transcript) (t : Typing) (st : Keyboard) (c : Console) : Prop where
  flag : st.flag = true
  shiftKey : st.shiftKey = t.shift
  scanlen : st.scanlen = t.line.length
  length : st.tempbuff.length = 1024
  line : t.line <+: st.tempbuff
  nonzero : 0 ∉ t.line
  short : t.line.length ≤ 79
  clear : ∀ i, k ≤ i → t.line.length ≤ i → i < 1024 → st.tempbuff[i]? = some 0
  screen : Displays c { p with last := p.last ++ t.line }

section

variable {k : Nat} {p : Transcript} {t : Typing} {st st' : Keyboard} {c c' : Console}
  {code v : UInt8} {l buf codes keys rest : List UInt8}

/-! ## On the screen -/

theorem Displays.char (h : Displays c p) (v : UInt8) (hlen : p.last.length ≤ 78) :
    ∃ c', kprintf [37, 99, 0] [.word v.toUInt64] c = .ok c' ∧
      Displays c' { p with last := p.last ++ [v] } := by
  have hformat : format [37, 99, 0] [.word v.toUInt64] = .ok ([.chars [v.toUInt64.toUInt8]], []) :=
    rfl
  rw [UInt8.toUInt8_toUInt64] at hformat
  exact h.call hformat ⟨by rw [List.length_singleton]; omega, trivial⟩

theorem Displays.backspace (h : Displays c p) (hne : p.last ≠ []) :
    ∃ c', kprintf [8, 0] [] c = .ok c' ∧ Displays c' { p with last := p.last.dropLast } := by
  have hformat : format [8, 0] [] = .ok ([.backspace], []) := rfl
  have hpos := List.length_pos_iff.2 hne
  exact h.call hformat ⟨by omega, trivial⟩

theorem Displays.newline (h : Displays c p) :
    ∃ c', kprintf [10, 0] [] c = .ok c' ∧ Displays c' ⟨p.ended ++ [p.last], []⟩ :=
  h.call format_newline trivial

/-! ## In the buffer -/

theorem prefix_set (h : l <+: buf) {i : Nat} (hi : l.length ≤ i) : l <+: buf.set i v := by
  obtain ⟨rest, rfl⟩ := h
  rw [List.set_append_right _ _ hi]
  exact List.prefix_append _ _

theorem prefix_set_concat (h : l <+: buf) (hlt : l.length < buf.length) :
    l ++ [v] <+: buf.set l.length v := by
  obtain ⟨rest, rfl⟩ := h
  rw [List.length_append] at hlt
  obtain ⟨x, rest, rfl⟩ := List.exists_cons_of_length_pos (l := rest) (by omega)
  rw [List.set_append_right _ _ le_rfl, Nat.sub_self, List.set_cons_zero]
  exact ⟨rest, (List.append_cons _ _ _).symm⟩

/-! ## An interrupt -/

set_option maxRecDepth 4000 in
/-- Only Enter has a newline. -/
theorem translation_eq_newline_iff (b : Bool) (code : UInt8) :
    translation b code = '\n'.toUInt8 ↔ code = enter := by
  cases b
  · revert code
    exact forall_byte (by decide)
  · revert code
    exact forall_byte (by decide)

/-- The press of a key with a character. -/
theorem Echoes.char (h : Echoes k p t st c) (hcode : CharPress code)
    (hne : translation t.shift code ≠ 0) (hroom : p.last.length + t.line.length ≤ 78) :
    ∃ st' c', keyboardText code st c = .ok (st', c') ∧
      Echoes k p ⟨t.line ++ [translation t.shift code], false⟩ st' c' := by
  obtain ⟨hpress, hshift, hback, henter⟩ := id hcode
  set v := translation t.shift code with hv
  have hnewline : v ≠ '\n'.toUInt8 := fun heq => henter ((translation_eq_newline_iff _ _).1 heq)
  have hshort := h.short
  have hlt : t.line.length < st.tempbuff.length := by
    rw [h.length]
    omega
  obtain ⟨c', hprint, hc'⟩ := h.screen.char v (by rw [List.length_append]; omega)
  have hset := setByte_nat st.tempbuff v hlt
  rw [← h.scanlen] at hset
  refine ⟨⟨true, st.tempbuff.set t.line.length v, st.scanlen + 1, false⟩, c', ?_, ?_⟩
  · have hpress' : ¬ (code &&& 0x80 ≠ 0 ∨ code = leftShift) :=
      not_or.2 ⟨not_not.2 ((pressed_iff code).2 hpress), hshift⟩
    rw [keyboardText, keyEcho, if_neg hback, if_neg hpress', h.shiftKey, ← hv]
    dsimp only
    rw [if_neg hnewline, hprint, ok_bind, keyboardInterKey_charPress hcode, h.shiftKey, ← hv,
      pressKey, if_neg hnewline, if_pos h.flag, if_neg hback, hset, ok_bind, h.flag]
    rfl
  · refine ⟨rfl, rfl, ?_, ?_, prefix_set_concat h.line hlt, ?_, ?_, ?_, ?_⟩
    · rw [h.scanlen, List.length_append, List.length_singleton]
      push_cast
      rfl
    · rw [List.length_set, h.length]
    · rw [List.mem_append, List.mem_singleton, not_or]
      exact ⟨h.nonzero, Ne.symm hne⟩
    · rw [List.length_append, List.length_singleton]
      omega
    · intro i hk hi hlen
      rw [List.length_append, List.length_singleton] at hi
      rw [List.getElem?_set_ne (by omega)]
      exact h.clear i hk (by omega) hlen
    · rw [List.append_assoc] at hc'
      exact hc'

/-- A backspace on a line that is not empty. -/
theorem Echoes.backspace (h : Echoes k p t st c) (hne : t.line ≠ []) (hk : t.line.length ≤ k) :
    ∃ st' c', keyboardText backspace st c = .ok (st', c') ∧
      Echoes k p { t with line := t.line.dropLast } st' c' := by
  have hshort := h.short
  have hpos := List.length_pos_iff.2 hne
  obtain ⟨c', hprint, hc'⟩ := h.screen.backspace (List.append_ne_nil_of_right_ne_nil _ hne)
  rw [List.dropLast_append_of_ne_nil hne] at hc'
  have hset := setByte_nat st.tempbuff 0 (i := t.line.length) (by rw [h.length]; omega)
  rw [← h.scanlen] at hset
  have henter : Sbunix.backspace ≠ enter := by decide
  refine ⟨{ st with tempbuff := st.tempbuff.set t.line.length 0, scanlen := st.scanlen - 1 }, c',
    ?_, ?_⟩
  · rw [keyboardText, keyEcho, if_pos rfl, hprint, ok_bind, keyboardInterKey, if_neg henter,
      if_pos rfl, hset]
    rfl
  · refine ⟨h.flag, h.shiftKey, ?_, ?_, ?_, ?_, ?_, ?_, hc'⟩
    · dsimp only
      rw [h.scanlen, List.length_dropLast]
      omega
    · rw [List.length_set, h.length]
    · exact (List.dropLast_prefix _).trans (prefix_set h.line le_rfl)
    · exact fun hmem => h.nonzero ((List.dropLast_prefix _).subset hmem)
    · rw [List.length_dropLast]
      omega
    · intro i hi _ hlen
      by_cases heq : t.line.length = i
      · rw [← heq, List.getElem?_set_self (by rw [h.length]; omega)]
      · rw [List.getElem?_set_ne heq]
        exact h.clear i hi (by omega) hlen

/-- An interrupt before the Enter. -/
theorem Echoes.step (h : Echoes k p t st c) (hadmits : t.Admits p.last.length code)
    (hk : code = Sbunix.backspace → 80 ≤ k) :
    ∃ st' c', keyboardText code st c = .ok (st', c') ∧ Echoes k p (t.next code) st' c' := by
  obtain ⟨henter, hback, hchar⟩ := hadmits
  rw [Typing.next]
  by_cases hcode : code = Sbunix.backspace
  · subst hcode
    have hshort := h.short
    have hle := hk rfl
    rw [if_pos rfl]
    exact h.backspace (hback rfl) (by omega)
  rw [if_neg hcode]
  by_cases hrelease : code &&& 0x80 = 0
  swap
  · rw [if_pos hrelease]
    have hshift : code ≠ leftShift := by
      rintro rfl
      exact hrelease (by decide)
    refine ⟨st, c, ?_, h⟩
    rw [keyboardText, keyEcho, if_neg hcode, if_pos (Or.inl hrelease), ok_bind, keyboardInterKey,
      if_neg henter, if_neg hcode, if_pos hrelease, if_neg hshift]
    rfl
  rw [if_neg (not_not.2 hrelease)]
  by_cases hshift : code = leftShift
  · rw [if_pos hshift]
    refine ⟨{ st with shiftKey := true }, c, ?_, { h with shiftKey := rfl }⟩
    rw [keyboardText, keyEcho, if_neg hcode, if_pos (Or.inr hshift), ok_bind, keyboardInterKey,
      if_neg henter, if_neg hcode, if_neg (not_not.2 hrelease), if_pos hshift]
    rfl
  · rw [if_neg hshift]
    have hpress : CharPress code := ⟨(pressed_iff code).1 hrelease, hshift, hcode, henter⟩
    obtain ⟨hne, hroom⟩ := hchar hpress
    exact h.char hpress hne hroom

/-- The Enter ends the wait and the line. -/
theorem Echoes.enter (h : Echoes k p t st c) :
    ∃ c', keyboardText enter st c = .ok ({ st with flag := false, shiftKey := false }, c') ∧
      Displays c' ⟨p.ended ++ [p.last ++ t.line], []⟩ := by
  obtain ⟨c', hprint, hc'⟩ := h.screen.newline
  have hback : Sbunix.enter ≠ Sbunix.backspace := by decide
  have hpress : Sbunix.enter &&& 0x80 = 0 := by decide
  have hshift : Sbunix.enter ≠ leftShift := by decide
  have hsmall := (translation_eq_newline_iff false Sbunix.enter).2 rfl
  have hcaps := (translation_eq_newline_iff true Sbunix.enter).2 rfl
  have hecho : keyEcho Sbunix.enter st.shiftKey c = .ok c' := by
    rw [keyEcho, if_neg hback, if_neg (not_or.2 ⟨not_not.2 hpress, hshift⟩)]
    dsimp only
    rw [if_pos ((translation_eq_newline_iff _ _).2 rfl), hprint]
  refine ⟨c', ?_, hc'⟩
  rw [keyboardText, hecho, ok_bind, keyboardInterKey, if_pos rfl, if_neg hback,
    if_neg (not_not.2 hpress), if_neg hshift]
  dsimp only
  change kbsmall Sbunix.enter = _ at hsmall
  change kbcaps Sbunix.enter = _ at hcaps
  cases hdown : st.shiftKey with
  | false =>
    rw [if_neg Bool.false_ne_true, pressKey, if_pos hsmall, ok_bind]
  | true =>
    rw [if_pos rfl, pressKey, if_pos hcaps, ok_bind]
    rfl

/-! ## A line -/

/-- The keys in front of the Enter. -/
theorem Echoes.run (h : Echoes k p t st c)
    (hadmits : Along (fun t code => some (Typing.next t code)) (Typing.Admits p.last.length) t
      codes)
    (hk : Sbunix.backspace ∈ codes → 80 ≤ k) (keys : List UInt8) :
    ∃ st' c', waitFlagText st c (codes ++ keys) = waitFlagText st' c' keys ∧
      Echoes k p (codes.foldl Typing.next t) st' c' := by
  induction codes generalizing t st c with
  | nil => exact ⟨st, c, rfl, h⟩
  | cons code codes ih =>
    obtain ⟨hcode, hrest⟩ := along_some_cons.1 hadmits
    obtain ⟨st₁, c₁, hkey, h₁⟩ := h.step hcode fun heq => hk (heq ▸ List.mem_cons_self)
    obtain ⟨st', c', hwait, h'⟩ := ih h₁ hrest fun hmem => hk (List.mem_cons_of_mem _ hmem)
    refine ⟨st', c', ?_, h'⟩
    rw [List.cons_append, waitFlagText, if_pos h.flag, hkey]
    exact hwait

/-- What the handler prints does not change what it stores. -/
theorem waitFlag_of_text (h : waitFlagText st c keys = .ok ((st', rest), c')) :
    waitFlag st keys = .ok (st', rest) := by
  induction keys generalizing st c with
  | nil =>
    rw [waitFlagText] at h
    rw [waitFlag]
    split_ifs at h ⊢ with hflag
    obtain ⟨heq, -⟩ := Prod.mk.inj (Except.ok.inj h)
    rw [heq]
  | cons code keys ih =>
    rw [waitFlagText] at h
    rw [waitFlag]
    split_ifs at h ⊢ with hflag
    · obtain ⟨⟨st₁, c₁⟩, hkey, hrest⟩ := bind_eq_ok.1 h
      obtain ⟨c₂, -, hkey⟩ := bind_eq_ok.1 hkey
      obtain ⟨st₂, hst₂, hkey⟩ := bind_eq_ok.1 hkey
      obtain ⟨rfl, rfl⟩ := Prod.mk.inj (Except.ok.inj hkey)
      rw [hst₂, ok_bind]
      exact ih hrest
    · obtain ⟨heq, -⟩ := Prod.mk.inj (Except.ok.inj h)
      rw [heq]

/-- A line in the buffer begins the string there, and is the string when it is followed by a NUL. -/
theorem exists_isStr_of_prefix (h : l <+: buf) (hnul : 0 ∉ l) {n : Nat} (hn : buf[n]? = some 0) :
    ∃ str, IsStr buf str ∧ l <+: str ∧ str.length ≤ n ∧
      (buf[l.length]? = some 0 → str = l) := by
  have hstr : IsStr buf (buf.takeWhile (· ≠ 0)) := isStr_takeWhile (List.mem_of_getElem? hn)
  have hpos : ∀ a ∈ l, (decide (a ≠ 0) : Bool) := by
    intro a ha
    simpa using ne_of_mem_of_not_mem ha hnul
  refine ⟨_, hstr, ?_, ?_, fun hbehind => ?_⟩
  · obtain ⟨rest, rfl⟩ := h
    rw [List.takeWhile_append_of_pos hpos]
    exact List.prefix_append _ _
  · by_contra hlt
    have hat := hstr.getElem? (Nat.lt_of_not_le hlt)
    rw [hn] at hat
    exact hstr.1 (List.mem_of_getElem? hat.symm)
  · obtain ⟨rest, rfl⟩ := h
    rw [List.getElem?_append_right le_rfl, Nat.sub_self] at hbehind
    have hline : IsStr (l ++ rest) l := (isStr_append_iff hnul).2 (isStr_nil_iff_getElem?.2 hbehind)
    exact hstr.unique hline

/-- The copy of some bytes of the string changes nothing. -/
theorem memcpyBytes_of_le {dest src str : List UInt8} {n : Nat} (hdest : IsStr dest str)
    (hsrc : IsStr src str) (hn : n ≤ str.length) (hsmall : n < 2 ^ 64) :
    ∃ buff, memcpyBytes dest src n = .ok buff ∧ IsStr buff str := by
  have hmod : ((n : Int) % 2 ^ 64).toNat = n := by omega
  have hdlen := hdest.length_lt
  have hslen := hsrc.length_lt
  obtain ⟨hnul, rest, rfl⟩ := hdest
  obtain ⟨-, rest', rfl⟩ := hsrc
  refine ⟨str ++ 0 :: rest, ?_, hnul, rest, rfl⟩
  simp only [memcpyBytes, hmod]
  rw [if_pos ⟨by omega, by omega⟩, List.take_append_of_le_length hn,
    List.drop_append_of_le_length hn, ← List.append_assoc, List.take_append_drop]

/-- The loop that clears the buffer stores a NUL at every position it passes. -/
theorem clearDown_zero {n : Nat} (hn : n < buf.length) {buf' : List UInt8}
    (h : clearDown buf n = .ok buf') : ∀ i ≤ n, buf'[i]? = some 0 := by
  induction n generalizing buf with
  | zero =>
    intro i hi
    obtain rfl := Nat.le_zero.1 hi
    obtain rfl := Except.ok.inj ((setByte_nat buf 0 hn).symm.trans h)
    exact List.getElem?_set_self hn
  | succ n ih =>
    have hset : setByte buf ((n : Int) + 1) 0 = .ok (buf.set (n + 1) 0) := setByte_nat buf 0 hn
    rw [clearDown, hset, ok_bind] at h
    have hlen : n < (buf.set (n + 1) 0).length := by
      rw [List.length_set]
      omega
    intro i hi
    by_cases heq : i = n + 1
    · obtain ⟨buf₁, hbuf₁, hkept⟩ := clearDown_ok hlen
      obtain rfl := Except.ok.inj (hbuf₁.symm.trans h)
      rw [heq]
      exact hkept _ (List.getElem?_set_self hn)
    · exact ih hlen h i (by omega)

/-- No line is being read, and `tempbuff` is clear from `k` on. -/
structure Ready (k : Nat) (st : Keyboard) : Prop where
  idle : Idle st
  clear : ∀ i, k ≤ i → i < 1024 → st.tempbuff[i]? = some 0

theorem Ready.echoes (h : Ready k st) (hc : Displays c p) :
    Echoes k p ⟨[], false⟩ { st with flag := true } c where
  flag := rfl
  shiftKey := h.idle.shiftKey
  scanlen := h.idle.scanlen
  length := h.idle.length
  line := List.nil_prefix
  nonzero := List.not_mem_nil
  short := Nat.zero_le 79
  clear := fun i hi _ => h.clear i hi
  screen := by rwa [List.append_nil]

/-- `scanlen` when it has been cut to `len`. -/
theorem Echoes.cut (h : Echoes k p t st c) {len : Int} (hlen : 0 ≤ len) :
    ∃ n : Nat, (if len < st.scanlen then len else st.scanlen) = n ∧ n ≤ t.line.length ∧
      (79 ≤ len → n = t.line.length) := by
  have hshort := h.short
  rw [h.scanlen]
  split_ifs with hlt
  · exact ⟨len.toNat, by omega, by omega, by omega⟩
  · exact ⟨t.line.length, rfl, le_rfl, fun _ => rfl⟩

/-- The two copies to the caller. -/
theorem Echoes.handsOver (h : Echoes k p t st c) (hk : k ≤ 80) {n : Nat} (hn : n ≤ t.line.length)
    {buff : List UInt8} (hbuff : 81 ≤ buff.length) :
    ∃ buff₁ buff₂ str, strcpy buff st.tempbuff = .ok buff₁ ∧
      memcpyBytes buff₁ st.tempbuff n = .ok buff₂ ∧ IsStr buff₂ str ∧ t.line <+: str ∧
      (k = 0 → str = t.line) := by
  have hshort := h.short
  obtain ⟨str, hstr, hline, hlen, hexact⟩ := exists_isStr_of_prefix h.line h.nonzero
    (h.clear 80 hk (by omega) (by decide))
  have hle := hline.length_le
  obtain ⟨buff₁, hcopy, hstr₁, -⟩ := sstrcpy_spec buff hstr (by omega)
  obtain ⟨buff₂, hmem, hstr₂⟩ := memcpyBytes_of_le hstr₁ hstr (hn.trans hle) (by omega)
  exact ⟨buff₁, buff₂, str, hcopy, hmem, hstr₂, hline,
    fun hk₀ => hexact (h.clear _ (by omega) le_rfl (by omega))⟩

/-- The loop that clears the buffer. -/
theorem Echoes.clears (h : Echoes k p t st c) (hk : k ≤ 80) {n : Nat} (hn : n ≤ t.line.length) :
    ∃ tempbuff, clearTempbuff st.tempbuff n = .ok tempbuff ∧
      Ready 80 ⟨false, tempbuff, 0, false⟩ ∧
      (k = 0 → n = t.line.length → Ready 0 ⟨false, tempbuff, 0, false⟩) := by
  have hshort := h.short
  have hlength := h.length
  have hlt : n < st.tempbuff.length := by omega
  obtain ⟨tempbuff, hclear, hkept⟩ := clearDown_ok hlt
  have hidle : Idle ⟨false, tempbuff, 0, false⟩ :=
    ⟨rfl, rfl, (clearDown_length hclear).trans hlength⟩
  refine ⟨tempbuff, ?_, ⟨hidle, fun i hi hi' => ?_⟩, fun hk₀ hall => ⟨hidle, fun i _ hi => ?_⟩⟩
  · rw [clearTempbuff, if_pos (Int.natCast_nonneg n), Int.toNat_natCast, hclear]
  · exact hkept i (h.clear i (by omega) (by omega) hi')
  · by_cases hin : i ≤ n
    · exact clearDown_zero hlt hclear i hin
    · exact hkept i (h.clear i (by omega) (by omega) hi)

/-- **A line.** What is typed appears on the screen, and the caller of `scanf` gets a string that
begins with it. -/
theorem Ready.scanfText (h : Ready k st) (hk : k ≤ 80) (hc : Displays c p)
    (hadmits : Along (fun t code => some (Typing.next t code)) (Typing.Admits p.last.length)
      ⟨[], false⟩ codes)
    (hback : Sbunix.backspace ∈ codes → 80 ≤ k) {buff : List UInt8} {len : Int} (hlen : 0 ≤ len)
    (hbuff : 81 ≤ buff.length) :
    ∃ st' buff' str c',
      Sbunix.scanfText st buff len (codes ++ [Sbunix.enter]) c = .ok ((st', buff', []), c') ∧
      Ready 80 st' ∧ (k = 0 → 79 ≤ len → Ready 0 st') ∧ IsStr buff' str ∧
      (codes.foldl Typing.next ⟨[], false⟩).line <+: str ∧
      (k = 0 → str = (codes.foldl Typing.next ⟨[], false⟩).line) ∧
      Displays c' ⟨p.ended ++ [p.last ++ (codes.foldl Typing.next ⟨[], false⟩).line], []⟩ := by
  obtain ⟨st₁, c₁, hwait, h₁⟩ := (h.echoes hc).run hadmits hback [Sbunix.enter]
  obtain ⟨c', henter, hc'⟩ := h₁.enter
  obtain ⟨n, hcut, hn, hall⟩ := h₁.cut hlen
  obtain ⟨buff₁, buff', str, hcopy, hmem, hstr, hline, hexact⟩ := h₁.handsOver hk hn hbuff
  obtain ⟨tempbuff, hclear, hready, hready₀⟩ := h₁.clears hk hn
  have htext : waitFlagText { st with flag := true } c (codes ++ [Sbunix.enter]) =
      .ok (({ st₁ with flag := false, shiftKey := false }, []), c') := by
    rw [hwait, waitFlagText, if_pos h₁.flag, henter]
    rfl
  have hscanf : scanf st buff len (codes ++ [Sbunix.enter]) =
      .ok (⟨false, tempbuff, 0, false⟩, buff', []) := by
    rw [scanf, waitFlag_of_text htext, ok_bind]
    dsimp only
    rw [hcut, hcopy, ok_bind, hmem, ok_bind, hclear]
    rfl
  refine ⟨⟨false, tempbuff, 0, false⟩, buff', str, c', ?_, hready, fun hk₀ hlong => ?_, hstr, hline,
    hexact, hc'⟩
  · rw [Sbunix.scanfText, htext, ok_bind, hscanf]
    rfl
  · exact hready₀ hk₀ (hall hlong)

end

/-! ## Sessions -/

/-- A call of `kprintf`, or of `scanf` with the keys that are pressed before the Enter. -/
inductive TtyCall
  | print (fmt : List UInt8) (args : List VaArg)
  | scan (buff : List UInt8) (len : Int) (keys : List UInt8)

/-- The keyboard, the screen, and what the callers of `scanf` have got. -/
structure Tty where
  keyboard : Keyboard
  console : Console
  received : List (List UInt8)

def Tty.boot : Tty := ⟨.boot, .boot, []⟩

def Tty.exec (x : Tty) : TtyCall → Except Fault Tty
  | .print fmt args => do
    let c ← kprintf fmt args x.console
    .ok { x with console := c }
  | .scan buff len keys => do
    let ((keyboard, buff, _), c) ← scanfText x.keyboard buff len (keys ++ [enter]) x.console
    .ok ⟨keyboard, c, x.received ++ [buff]⟩

def Tty.step (x : Tty) (call : TtyCall) : Option Tty := (x.exec call).toOption

/-- The text on the screen and the lines that have been typed, and whether no backspace has been
pressed and each call of `scanf` was one for at least 79 characters. -/
structure Dialogue where
  text : Transcript
  typed : List (List UInt8)
  plain : Bool

namespace Dialogue

/-- The line of some keys. -/
def lineOf (keys : List UInt8) : List UInt8 := (keys.foldl Typing.next ⟨[], false⟩).line

def next (d : Dialogue) : TtyCall → Dialogue
  | .print fmt args =>
    match format fmt args with
    | .ok (os, _) => { d with text := os.foldl Transcript.exec d.text }
    | .error _ => d
  | .scan _ len keys =>
    ⟨⟨d.text.ended ++ [d.text.last ++ lineOf keys], []⟩, d.typed ++ [lineOf keys],
      d.plain && decide (79 ≤ len) && !keys.contains backspace⟩

/-- What is printed and typed fits in the lines, and a string in the buffer of the caller. -/
def Admits (d : Dialogue) : TtyCall → Prop
  | .print fmt args =>
    ∃ os rest, format fmt args = .ok (os, rest) ∧ FitsLines (d.text.last.length + 1) os
  | .scan buff len keys =>
    0 ≤ len ∧ 81 ≤ buff.length ∧
      Along (fun t code => some (Typing.next t code)) (Typing.Admits d.text.last.length)
        ⟨[], false⟩ keys

end Dialogue

/-- The screen shows the text, and each string that has been handed over begins with its line. -/
structure Tty.Represents (x : Tty) (d : Dialogue) : Prop where
  ready : Ready (if d.plain then 0 else 80) x.keyboard
  screen : Displays x.console d.text
  begins : List.Forall₂ (fun buff line => ∃ str, IsStr buff str ∧ line <+: str) x.received d.typed
  exact : d.plain = true → List.Forall₂ IsStr x.received d.typed

section

variable {x : Tty} {d : Dialogue} {call : TtyCall}

theorem Ready.mono {k k' : Nat} {st : Keyboard} (h : Ready k st) (hk : k ≤ k') : Ready k' st :=
  ⟨h.idle, fun i hi => h.clear i (hk.trans hi)⟩

/-- A line of the session. -/
theorem Tty.Represents.scan (h : x.Represents d) {buff keys : List UInt8} {len : Int}
    (hadmits : d.Admits (.scan buff len keys)) :
    ∃ x', x.step (.scan buff len keys) = some x' ∧
      x'.Represents (d.next (.scan buff len keys)) := by
  obtain ⟨hlen, hbuff, halong⟩ := hadmits
  -- What `tempbuff` held matters only while everything has been cleared.
  obtain ⟨k, hk, hready, hback, hplain⟩ : ∃ k ≤ 80, Ready k x.keyboard ∧
      (backspace ∈ keys → 80 ≤ k) ∧
      ((d.plain && decide (79 ≤ len) && !keys.contains backspace) = true → k = 0 ∧ 79 ≤ len) := by
    have hready := h.ready
    by_cases hmem : backspace ∈ keys
    · refine ⟨80, le_rfl, hready.mono (by split_ifs <;> omega), fun _ => le_rfl, fun hp => ?_⟩
      simp [hmem] at hp
    · refine ⟨_, ?_, hready, fun hm => absurd hm hmem, fun hp => ?_⟩
      · split_ifs <;> omega
      · simp only [Bool.and_eq_true, decide_eq_true_eq] at hp
        exact ⟨if_pos hp.1.1, hp.1.2⟩
  obtain ⟨st', buff', str, c', hscan, hready', hready₀, hstr, hline, hexact, hc'⟩ :=
    hready.scanfText hk h.screen halong hback hlen hbuff
  refine ⟨⟨st', c', x.received ++ [buff']⟩, ?_, ?_, hc', ?_, fun hp => ?_⟩
  · rw [Tty.step, Tty.exec, hscan]
    rfl
  · rw [Dialogue.next]
    split_ifs with hp
    · obtain ⟨hk₀, hlong⟩ := hplain hp
      exact hready₀ hk₀ hlong
    · exact hready'
  · exact List.rel_append h.begins (.cons ⟨str, hstr, hline⟩ .nil)
  · obtain ⟨hk₀, -⟩ := hplain hp
    have hpd : d.plain = true := by
      simp only [Dialogue.next, Bool.and_eq_true] at hp
      exact hp.1.1
    refine List.rel_append (h.exact hpd) (.cons ?_ .nil)
    rw [Dialogue.lineOf, ← hexact hk₀]
    exact hstr

/-- A call does for the user what it does in the kernel. -/
theorem Tty.Represents.step (h : x.Represents d) (hadmits : d.Admits call) :
    ∃ x', x.step call = some x' ∧ x'.Represents (d.next call) := by
  cases call with
  | print fmt args =>
    obtain ⟨os, rest, hformat, hfits⟩ := hadmits
    obtain ⟨c', hprint, hc'⟩ := h.screen.call hformat hfits
    refine ⟨{ x with console := c' }, ?_, ?_⟩
    · rw [Tty.step, Tty.exec, hprint]
      rfl
    · rw [Dialogue.next, hformat]
      exact ⟨h.ready, hc', h.begins, h.exact⟩
  | scan buff len keys => exact h.scan hadmits

theorem represents_boot : Tty.boot.Represents ⟨⟨[], []⟩, [], true⟩ where
  ready := by
    refine ⟨⟨rfl, rfl, List.length_replicate⟩, fun i _ hi => ?_⟩
    rw [Tty.boot, Keyboard.boot, List.getElem?_replicate, if_pos hi]
  screen := displays_boot
  begins := .nil
  exact := fun _ => .nil

/-- **Typed lines.** From boot on, through every sequence of `kprintf` and `scanf` calls with any
keys, the screen shows what has been printed and what has been typed, in turn. The callers of
`scanf` get strings that begin with the lines on the screen, and these lines as long as no backspace
is pressed and each call asks for 79 characters. -/
theorem typed_lines {calls : List TtyCall}
    (hadmits : Along (fun d call => some (Dialogue.next d call)) Dialogue.Admits
      ⟨⟨[], []⟩, [], true⟩ calls) :
    ∃ x', Run Tty.step (fun _ _ => True) Tty.boot calls x' ∧
      x'.Represents (calls.foldl Dialogue.next ⟨⟨[], []⟩, [], true⟩) :=
  hadmits.lift (fun hx hcall => hx.step hcall) represents_boot

end

/-- A prompt, and the keys `a`, `b`, backspace, shift and `b`. -/
def shiftedCalls : List TtyCall :=
  [.print [62, 0] [], .scan (List.replicate 128 0) 1 [30, 48, 14, 0x2A, 48]]

theorem admits_shifted :
    Along (fun d call => some (Dialogue.next d call)) Dialogue.Admits ⟨⟨[], []⟩, [], true⟩
      shiftedCalls := by
  rw [shiftedCalls, along_some_cons, along_some_cons]
  refine ⟨⟨[.chars [62]], [], rfl, by decide, trivial⟩, ⟨by decide, ?_, ?_⟩, trivial⟩
  · rw [List.length_replicate]
    decide
  simp only [along_some_cons]
  refine ⟨?_, ?_, ?_, ?_, ?_, trivial⟩
  · exact ⟨by decide, by decide, fun _ => ⟨by decide, by decide⟩⟩
  · exact ⟨by decide, by decide, fun _ => ⟨by decide, by decide⟩⟩
  · exact ⟨by decide, by decide, fun _ => ⟨by decide, by decide⟩⟩
  · exact ⟨by decide, by decide, fun hcode => absurd rfl hcode.2.1⟩
  · exact ⟨by decide, by decide, fun _ => ⟨by decide, by decide⟩⟩

/-- The line `aB` is on the screen behind the prompt, and begins what the caller gets. -/
theorem typed_lines_shifted :
    ∃ x', Run Tty.step (fun _ _ => True) Tty.boot shiftedCalls x' ∧
      x'.Represents ⟨⟨[[62, 97, 66]], []⟩, [[97, 66]], false⟩ :=
  typed_lines admits_shifted

end Sbunix
