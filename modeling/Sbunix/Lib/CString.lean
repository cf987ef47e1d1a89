import Mathlib.Tactic.Common

/-!
# C strings

A `char *` is given as the list of the bytes from the pointer to the end of its object.
`IsStr bytes s` says that the string it points to is `s`: these bytes, none of them NUL, and then
a NUL. What follows is arbitrary.
-/

namespace Lib

/-- The bytes hold the NUL-terminated string `s`. -/
def IsStr (bytes s : List UInt8) : Prop := 0 ∉ s ∧ ∃ rest, bytes = s ++ 0 :: rest

variable {bytes s s' : List UInt8} {c : UInt8} {i : Nat}

theorem isStr_nil_iff : IsStr bytes [] ↔ ∃ rest, bytes = 0 :: rest := by
  simp [IsStr]

theorem isStr_cons_iff :
    IsStr bytes (c :: s) ↔ c ≠ 0 ∧ ∃ bytes', bytes = c :: bytes' ∧ IsStr bytes' s := by
  constructor
  · rintro ⟨hnul, rest, rfl⟩
    rw [List.mem_cons, not_or] at hnul
    exact ⟨Ne.symm hnul.1, _, rfl, hnul.2, rest, rfl⟩
  · rintro ⟨hc, _, rfl, hnul, rest, rfl⟩
    refine ⟨?_, rest, rfl⟩
    rw [List.mem_cons, not_or]
    exact ⟨Ne.symm hc, hnul⟩

theorem isStr_nil_iff_getElem? : IsStr bytes [] ↔ bytes[0]? = some 0 := by
  rw [isStr_nil_iff]
  cases bytes with
  | nil => simp
  | cons c bytes => simp

/-- Bytes that are not NUL in front of a string. -/
theorem isStr_append_iff (hs : 0 ∉ s) : IsStr (s ++ bytes) s ↔ IsStr bytes [] := by
  rw [isStr_nil_iff]
  constructor
  · rintro ⟨-, rest, hrest⟩
    exact ⟨rest, List.append_cancel_left hrest⟩
  · rintro ⟨rest, rfl⟩
    exact ⟨hs, rest, rfl⟩

/-- The string in front of the first NUL. -/
theorem isStr_takeWhile (h : 0 ∈ bytes) : IsStr bytes (bytes.takeWhile (· ≠ 0)) := by
  induction bytes with
  | nil => exact absurd h List.not_mem_nil
  | cons c bytes ih =>
    by_cases hc : c = 0
    · rw [hc, List.takeWhile_cons_of_neg (by simp)]
      exact isStr_nil_iff.2 ⟨bytes, rfl⟩
    · rw [List.takeWhile_cons_of_pos (by simpa using hc)]
      exact isStr_cons_iff.2 ⟨hc, bytes, rfl, ih (List.mem_of_ne_of_mem (Ne.symm hc) h)⟩

namespace IsStr

/-- There is only one string at a pointer. -/
theorem unique (h : IsStr bytes s) (h' : IsStr bytes s') : s = s' := by
  induction s generalizing bytes s' with
  | nil =>
    obtain ⟨rest, rfl⟩ := isStr_nil_iff.1 h
    cases s' with
    | nil => rfl
    | cons c s' =>
      obtain ⟨hc, _, heq, -⟩ := isStr_cons_iff.1 h'
      exact absurd (List.cons.inj heq).1.symm hc
  | cons c s ih =>
    obtain ⟨hc, bytes, rfl, hs⟩ := isStr_cons_iff.1 h
    cases s' with
    | nil =>
      obtain ⟨rest, heq⟩ := isStr_nil_iff.1 h'
      exact absurd (List.cons.inj heq).1 hc
    | cons d s' =>
      obtain ⟨-, bytes', heq, hs'⟩ := isStr_cons_iff.1 h'
      obtain ⟨rfl, rfl⟩ := List.cons.inj heq
      rw [ih hs hs']

theorem length_lt (h : IsStr bytes s) : s.length < bytes.length := by
  obtain ⟨-, rest, rfl⟩ := h
  simp

/-- The bytes in front of the NUL are those of the string. -/
theorem getElem? (h : IsStr bytes s) (hi : i < s.length) : bytes[i]? = s[i]? := by
  obtain ⟨-, rest, rfl⟩ := h
  exact List.getElem?_append_left hi

/-- A string that ends in the first part of the bytes does not depend on the rest. -/
theorem of_append {before after : List UInt8} (h : IsStr (before ++ after) s)
    (hlen : s.length < before.length) : IsStr before s := by
  obtain ⟨hnul, rest, hrest⟩ := h
  have htake := congrArg (List.take before.length) hrest
  obtain ⟨k, hk⟩ : ∃ k, before.length - s.length = k + 1 :=
    ⟨before.length - s.length - 1, by omega⟩
  rw [List.take_left, List.take_append, List.take_of_length_le (by omega), hk,
    List.take_succ_cons] at htake
  exact ⟨hnul, rest.take k, htake⟩

theorem append (h : IsStr bytes s) (after : List UInt8) : IsStr (bytes ++ after) s := by
  obtain ⟨hnul, rest, rfl⟩ := h
  exact ⟨hnul, rest ++ after, by rw [List.append_assoc, List.cons_append]⟩

/-- Writing a NUL into the string cuts it there. -/
theorem set_zero (h : IsStr bytes s) (hi : i ≤ s.length) : IsStr (bytes.set i 0) (s.take i) := by
  obtain ⟨hnul, rest, rfl⟩ := h
  refine ⟨fun hmem => hnul (List.mem_of_mem_take hmem), ?_⟩
  obtain ⟨a, b, rfl, rfl⟩ : ∃ a b, s = a ++ b ∧ a.length = i :=
    ⟨s.take i, s.drop i, (List.take_append_drop i s).symm, List.length_take_of_le hi⟩
  rw [List.take_left]
  cases b with
  | nil => exact ⟨rest, by simp⟩
  | cons c b => exact ⟨b ++ 0 :: rest, by simp⟩

end IsStr

end Lib
