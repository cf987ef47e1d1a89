import Sbunix.WorkingDirectory

/-!
# Concatenation

The two `strcat` look for the terminator of the first string and copy the characters of the second
one over it and what follows. Neither stores a terminator behind them, so the result ends where the
buffer has held a NUL before. The loop of the library copies before it tests: of an empty string it
copies the terminator, and goes on with what lies behind that.
-/

namespace Sbunix

open Lib

/-! ## The kernel -/

/-- The second loop of the kernel's `strcat`. -/
def catLoop : List UInt8 → List UInt8 → Except Fault (List UInt8)
  | _, [] => .error .outOfBounds
  | [], c :: _ => if c ≠ 0 then .error .outOfBounds else .ok []
  | x :: str1, c :: str2 => if c ≠ 0 then (catLoop str1 str2).map (c :: ·) else .ok (x :: str1)

/-- `strcat` of the kernel, as the new contents of `str1`. -/
def kernelStrcat : List UInt8 → List UInt8 → Except Fault (List UInt8)
  | [], _ => .error .outOfBounds
  | c :: str1, str2 =>
    if c ≠ 0 then (kernelStrcat str1 str2).map (c :: ·) else catLoop (c :: str1) str2

/-! ## The first loop -/

/-- What is asked of a concatenation: `a`, `b`, a NUL, and the bytes that were behind it. -/
def Concatenates (concat : List UInt8 → List UInt8 → Except Fault (List UInt8))
    (buf orig a b : List UInt8) : Prop :=
  concat buf orig = .ok (a ++ b ++ 0 :: buf.drop (a.length + b.length + 1))

section

variable {buf orig new new' a b : List UInt8} {c : UInt8}

/-- A loop that looks for the terminator and leaves the rest to another one. -/
theorem first_loop {concat loop : List UInt8 → List UInt8 → Except Fault (List UInt8)}
    (hstop : ∀ rest orig, concat (0 :: rest) orig = loop (0 :: rest) orig)
    (hturn : ∀ c buf orig, c ≠ 0 → concat (c :: buf) orig = (concat buf orig).map (c :: ·))
    (ha : IsStr buf a) (orig : List UInt8) :
    concat buf orig = (loop (buf.drop a.length) orig).map (a ++ ·) := by
  induction a generalizing buf with
  | nil =>
    obtain ⟨rest, rfl⟩ := isStr_nil_iff.1 ha
    rw [hstop, List.length_nil, List.drop_zero]
    cases loop (0 :: rest) orig <;> rfl
  | cons c a ih =>
    obtain ⟨hc, buf, rfl, hs⟩ := isStr_cons_iff.1 ha
    rw [hturn c buf orig hc, ih hs, List.length_cons, List.drop_succ_cons]
    cases loop (buf.drop a.length) orig <;> rfl

theorem strcat_eq (ha : IsStr buf a) (orig : List UInt8) :
    strcat buf orig = (strcatLoop (buf.drop a.length) orig).map (a ++ ·) := by
  apply first_loop _ _ ha
  · exact fun rest orig => if_neg (not_not.2 rfl)
  · exact fun c buf orig hc => if_pos hc

theorem kernelStrcat_eq (ha : IsStr buf a) (orig : List UInt8) :
    kernelStrcat buf orig = (catLoop (buf.drop a.length) orig).map (a ++ ·) := by
  apply first_loop _ _ ha
  · exact fun rest orig => if_neg (not_not.2 rfl)
  · exact fun c buf orig hc => if_pos hc

theorem map_append_eq_ok_iff {x : Except Fault (List UInt8)} {l : List UInt8} :
    x.map (a ++ ·) = .ok (a ++ l) ↔ x = .ok l := by
  cases x with
  | error e => exact iff_of_false (fun h => by cases h) (fun h => by cases h)
  | ok l' =>
    change (Except.ok (a ++ l') : Except Fault _) = .ok (a ++ l) ↔ _
    rw [Except.ok.injEq, Except.ok.injEq, List.append_cancel_left_eq]

/-! ## The second loop -/

theorem catLoop_spec (hb : IsStr orig b) (hlen : b.length ≤ new.length) :
    catLoop new orig = .ok (b ++ new.drop b.length) := by
  induction b generalizing new orig with
  | nil =>
    obtain ⟨rest, rfl⟩ := isStr_nil_iff.1 hb
    cases new <;> rfl
  | cons c b ih =>
    obtain ⟨hc, orig, rfl, hs⟩ := isStr_cons_iff.1 hb
    obtain ⟨x, new, rfl⟩ := List.exists_cons_of_length_pos (Nat.zero_lt_of_lt hlen)
    rw [catLoop, if_pos hc, ih hs (Nat.le_of_succ_le_succ hlen)]
    rfl

/-- The loop of the library comes to its end at a NUL, if the buffer reaches so far. -/
theorem strcatLoop_ok (hc : c ≠ 0) (h : strcatLoop new (c :: orig) = .ok new') :
    ∃ t, IsStr (c :: orig) t ∧ t.length ≤ new.length := by
  induction orig generalizing c new new' with
  | nil => cases new <;> cases h
  | cons d orig ih =>
    cases new with
    | nil => cases h
    | cons x new =>
      rw [strcatLoop] at h
      split_ifs at h with hd
      · obtain ⟨new', h, -⟩ := map_eq_ok.1 h
        obtain ⟨t, ht, hlen⟩ := ih hd h
        exact ⟨c :: t, isStr_cons_iff.2 ⟨hc, _, rfl, ht⟩, Nat.succ_le_succ hlen⟩
      · rw [not_not.1 hd]
        exact ⟨[c], isStr_cons_iff.2 ⟨hc, _, rfl, isStr_nil_iff.2 ⟨orig, rfl⟩⟩,
          Nat.succ_le_succ (Nat.zero_le _)⟩

theorem isStr_ne_nil {t : List UInt8} (ht : IsStr (c :: orig) t) (hc : c ≠ 0) : t ≠ [] := by
  rintro rfl
  obtain ⟨_, heq⟩ := isStr_nil_iff.1 ht
  exact hc (List.cons.inj heq).1

/-- Behind an empty string the loop goes on to the next NUL. -/
theorem strcatLoop_nil_iff (rest after : List UInt8) :
    strcatLoop (0 :: rest) (0 :: after) = .ok (0 :: rest) ↔
      ∃ t, IsStr after t ∧ t <+: rest := by
  cases after with
  | nil =>
    refine iff_of_false (fun h => by cases h) ?_
    rintro ⟨t, ht, -⟩
    exact absurd ht.length_lt (Nat.not_lt_zero _)
  | cons d after =>
    rw [strcatLoop]
    by_cases hd : d = 0
    · subst hd
      rw [if_neg (not_not.2 rfl)]
      exact iff_of_true rfl ⟨[], isStr_nil_iff.2 ⟨after, rfl⟩, List.nil_prefix⟩
    · rw [if_pos hd]
      have hsame : (strcatLoop rest (d :: after)).map (0 :: ·) = .ok (0 :: rest) ↔
          strcatLoop rest (d :: after) = .ok rest := @map_append_eq_ok_iff [0] _ _
      rw [hsame]
      constructor
      · intro h
        obtain ⟨t, ht, hlen⟩ := strcatLoop_ok hd h
        rw [strcatLoop_spec ht (isStr_ne_nil ht hd) hlen, Except.ok.injEq] at h
        exact ⟨t, ht, _, h⟩
      · rintro ⟨t, ht, s, rfl⟩
        rw [strcatLoop_spec ht (isStr_ne_nil ht hd) (by rw [List.length_append]; omega),
          List.drop_left]

/-! ## The terminator -/

theorem drop_eq_cons_iff {l : List UInt8} {k : Nat} (hk : k < l.length) :
    l.drop k = 0 :: l.drop (k + 1) ↔ l[k]? = some 0 := by
  rw [List.drop_eq_getElem_cons hk, List.cons.injEq, List.getElem?_eq_getElem hk,
    Option.some.injEq]
  simp

/-- The characters of `b` are in place, and a terminator is behind them when there was one. -/
theorem appended_iff (hroom : a.length + b.length < buf.length) :
    (.ok (b ++ (buf.drop a.length).drop b.length) : Except Fault (List UInt8)) =
        .ok (b ++ 0 :: buf.drop (a.length + b.length + 1)) ↔
      buf[a.length + b.length]? = some 0 := by
  rw [Except.ok.injEq, List.append_cancel_left_eq, List.drop_drop, drop_eq_cons_iff hroom]

theorem kernelStrcat_iff (ha : IsStr buf a) (hb : IsStr orig b)
    (hroom : a.length + b.length < buf.length) :
    Concatenates kernelStrcat buf orig a b ↔ buf[a.length + b.length]? = some 0 := by
  rw [Concatenates, kernelStrcat_eq ha, List.append_assoc, map_append_eq_ok_iff,
    catLoop_spec hb (by rw [List.length_drop]; omega)]
  exact appended_iff hroom

theorem strcat_iff (ha : IsStr buf a) (hb : IsStr orig b)
    (hroom : a.length + b.length < buf.length) :
    Concatenates strcat buf orig a b ↔ buf[a.length + b.length]? = some 0 ∧
      (b = [] → ∃ t, IsStr (orig.drop 1) t ∧ t <+: buf.drop (a.length + 1)) := by
  rw [Concatenates, strcat_eq ha, List.append_assoc, map_append_eq_ok_iff]
  by_cases hne : b = []
  · subst hne
    obtain ⟨after, rfl⟩ := isStr_nil_iff.1 hb
    obtain ⟨-, rest, rfl⟩ := ha
    have hnul : (a ++ 0 :: rest)[a.length + 0]? = some 0 := by simp
    have hrest : (a ++ 0 :: rest).drop (a.length + 1) = rest := by
      rw [← List.drop_drop, List.drop_left]
      rfl
    rw [List.length_nil, List.drop_left, Nat.add_zero, hrest, List.nil_append,
      strcatLoop_nil_iff]
    exact ⟨fun h => ⟨hnul, fun _ => h⟩, fun h => h.2 rfl⟩
  · rw [strcatLoop_spec hb hne (by rw [List.length_drop]; omega)]
    simp only [hne, false_implies, and_true]
    exact appended_iff hroom

/-- **Concatenation.** Both functions concatenate two strings exactly when the buffer held a NUL
where the result has to end. Of an empty second string the one of the library also copies what lies
behind it, up to the next NUL, and that has to be there already. -/
theorem concatenation_iff (ha : IsStr buf a) (hb : IsStr orig b)
    (hroom : a.length + b.length < buf.length) :
    (Concatenates strcat buf orig a b ↔ buf[a.length + b.length]? = some 0 ∧
        (b = [] → ∃ t, IsStr (orig.drop 1) t ∧ t <+: buf.drop (a.length + 1))) ∧
      (Concatenates kernelStrcat buf orig a b ↔ buf[a.length + b.length]? = some 0) := by
  constructor
  · exact strcat_iff ha hb hroom
  · exact kernelStrcat_iff ha hb hroom

end

/-- `"a"` and `"b"` in a zeroed buffer. -/
theorem concatenation_zeroed : Concatenates strcat [97, 0, 0, 0] [98, 0] [97] [98] ∧
    Concatenates kernelStrcat [97, 0, 0, 0] [98, 0] [97] [98] := by
  have ha : IsStr [97, 0, 0, 0] [97] := ⟨by decide, [0, 0], rfl⟩
  have hb : IsStr [98, 0] [98] := ⟨by decide, [], rfl⟩
  have h := concatenation_iff ha hb (by decide)
  exact ⟨h.1.2 ⟨rfl, fun h => by cases h⟩, h.2.2 rfl⟩

/-- In a buffer that holds `"x"` behind the first string the result is `"abx"`. -/
theorem concatenation_unterminated :
    ¬ Concatenates strcat [97, 0, 120, 0] [98, 0] [97] [98] ∧
      ¬ Concatenates kernelStrcat [97, 0, 120, 0] [98, 0] [97] [98] := by
  constructor
  · intro h
    cases h
  · intro h
    cases h

end Sbunix
