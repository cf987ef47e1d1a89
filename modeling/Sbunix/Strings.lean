import Sbunix.Lib.CString
import Sbunix.Lib.Run

/-!
# Kernel strings

`strlen` and `strcmp` of `sys/string1.c`, and the copies of them that `sys/tarfs.c` has for itself.
A read or write outside of the object is a fault. Each `_spec` says what a function does on
NUL-terminated strings.
-/

namespace Sbunix

open Lib

def strlen : List UInt8 → Except Fault Nat
  | [] => .error .outOfBounds
  | c :: str => if c ≠ 0 then (strlen str).map (· + 1) else .ok 0

def strcmp : List UInt8 → List UInt8 → Except Fault Int
  | c :: str1, d :: str2 =>
    if c ≠ 0 ∧ d ≠ 0 ∧ c = d then strcmp str1 str2 else .ok ((c.toNat : Int) - d.toNat)
  | _, _ => .error .outOfBounds

def sstrcmp : List UInt8 → List UInt8 → Except Fault Int
  | c :: p, d :: q => if c ≠ 0 ∨ d ≠ 0 then if c ≠ d then .ok (-1) else sstrcmp p q else .ok 0
  | _, _ => .error .outOfBounds

/-- `sstrcpy`, as the new contents of `dst`. -/
def sstrcpy : List UInt8 → List UInt8 → Except Fault (List UInt8)
  | _ :: dst, c :: src => if c ≠ 0 then (sstrcpy dst src).map (c :: ·) else .ok (0 :: dst)
  | _, _ => .error .outOfBounds

section

variable {b b' s s' : List UInt8}

theorem strlen_spec (h : IsStr b s) : strlen b = .ok s.length := by
  induction s generalizing b with
  | nil =>
    obtain ⟨rest, rfl⟩ := isStr_nil_iff.1 h
    rfl
  | cons c s ih =>
    obtain ⟨hc, b, rfl, hs⟩ := isStr_cons_iff.1 h
    rw [strlen, if_pos hc, ih hs]
    rfl

/-- A comparison is zero exactly for equal strings. -/
theorem strcmp_spec (h : IsStr b s) (h' : IsStr b' s') :
    ∃ r, strcmp b b' = .ok r ∧ (r = 0 ↔ s = s') := by
  induction s generalizing b b' s' with
  | nil =>
    obtain ⟨rest, rfl⟩ := isStr_nil_iff.1 h
    cases s' with
    | nil =>
      obtain ⟨rest', rfl⟩ := isStr_nil_iff.1 h'
      exact ⟨_, rfl, by simp⟩
    | cons d s' =>
      obtain ⟨hd, b', rfl, -⟩ := isStr_cons_iff.1 h'
      refine ⟨_, by rw [strcmp, if_neg (by simp)], ?_⟩
      have hpos : d.toNat ≠ 0 := fun hz => hd (UInt8.toNat_inj.1 hz)
      simp
      omega
  | cons c s ih =>
    obtain ⟨hc, b, rfl, hs⟩ := isStr_cons_iff.1 h
    have hpos : c.toNat ≠ 0 := fun hz => hc (UInt8.toNat_inj.1 hz)
    cases s' with
    | nil =>
      obtain ⟨rest', rfl⟩ := isStr_nil_iff.1 h'
      refine ⟨_, by rw [strcmp, if_neg (by simp)], ?_⟩
      simp
      omega
    | cons d s' =>
      obtain ⟨hd, b', rfl, hs'⟩ := isStr_cons_iff.1 h'
      by_cases hcd : c = d
      · obtain ⟨r, hr, hiff⟩ := ih hs hs'
        refine ⟨r, by rw [strcmp, if_pos ⟨hc, hd, hcd⟩, hr], ?_⟩
        rw [hiff, hcd]
        simp
      · refine ⟨_, by rw [strcmp, if_neg fun h => hcd h.2.2], ?_⟩
        have hne : c.toNat ≠ d.toNat := fun heq => hcd (UInt8.toNat_inj.1 heq)
        simp only [List.cons.injEq, hcd, false_and, iff_false]
        omega

theorem sstrcmp_spec (h : IsStr b s) (h' : IsStr b' s') :
    ∃ r, sstrcmp b b' = .ok r ∧ (r = 0 ↔ s = s') := by
  induction s generalizing b b' s' with
  | nil =>
    obtain ⟨rest, rfl⟩ := isStr_nil_iff.1 h
    cases s' with
    | nil =>
      obtain ⟨rest', rfl⟩ := isStr_nil_iff.1 h'
      exact ⟨0, rfl, by simp⟩
    | cons d s' =>
      obtain ⟨hd, b', rfl, -⟩ := isStr_cons_iff.1 h'
      exact ⟨-1, by rw [sstrcmp, if_pos (Or.inr hd), if_pos (Ne.symm hd)], by simp⟩
  | cons c s ih =>
    obtain ⟨hc, b, rfl, hs⟩ := isStr_cons_iff.1 h
    cases s' with
    | nil =>
      obtain ⟨rest', rfl⟩ := isStr_nil_iff.1 h'
      exact ⟨-1, by rw [sstrcmp, if_pos (Or.inl hc), if_pos hc], by simp⟩
    | cons d s' =>
      obtain ⟨hd, b', rfl, hs'⟩ := isStr_cons_iff.1 h'
      by_cases hcd : c = d
      · obtain ⟨r, hr, hiff⟩ := ih hs hs'
        refine ⟨r, by rw [sstrcmp, if_pos (Or.inl hc), if_neg (not_not.2 hcd), hr], ?_⟩
        rw [hiff, hcd]
        simp
      · exact ⟨-1, by rw [sstrcmp, if_pos (Or.inl hc), if_pos hcd], by simp [hcd]⟩

/-- A copy leaves what lies behind the NUL. -/
theorem sstrcpy_eq (dst : List UInt8) (h : IsStr b s) (hlen : s.length < dst.length) :
    sstrcpy dst b = .ok (s ++ 0 :: dst.drop (s.length + 1)) := by
  induction s generalizing b dst with
  | nil =>
    obtain ⟨rest, rfl⟩ := isStr_nil_iff.1 h
    obtain ⟨x, dst, rfl⟩ := List.exists_cons_of_length_pos hlen
    rfl
  | cons c s ih =>
    obtain ⟨hc, b, rfl, hs⟩ := isStr_cons_iff.1 h
    obtain ⟨x, dst, rfl⟩ := List.exists_cons_of_length_pos (Nat.zero_lt_of_lt hlen)
    rw [sstrcpy, if_pos hc, ih dst hs (Nat.lt_of_succ_lt_succ hlen)]
    rfl

/-- A string that fits is copied. -/
theorem sstrcpy_spec (dst : List UInt8) (h : IsStr b s) (hlen : s.length < dst.length) :
    ∃ b', sstrcpy dst b = .ok b' ∧ IsStr b' s ∧ b'.length = dst.length := by
  refine ⟨_, sstrcpy_eq dst h hlen, ⟨h.1, _, rfl⟩, ?_⟩
  rw [List.length_append, List.length_cons, List.length_drop]
  omega

theorem sstrcpy_length {dst dst' src : List UInt8} (h : sstrcpy dst src = .ok dst') :
    dst'.length = dst.length := by
  induction src generalizing dst dst' with
  | nil => cases dst <;> cases h
  | cons c src ih =>
    cases dst with
    | nil => cases h
    | cons x dst =>
      rw [sstrcpy] at h
      split at h
      · obtain ⟨b, hb, rfl⟩ := map_eq_ok.1 h
        rw [List.length_cons, List.length_cons, ih hb]
      · obtain rfl := Except.ok.inj h
        rfl

/-- A copy that comes to its end has copied a string. -/
theorem sstrcpy_ok {dst dst' src : List UInt8} (h : sstrcpy dst src = .ok dst') :
    ∃ s, IsStr src s ∧ IsStr dst' s := by
  induction src generalizing dst dst' with
  | nil => cases dst <;> nomatch h
  | cons c src ih =>
    cases dst with
    | nil => nomatch h
    | cons x dst =>
      rw [sstrcpy] at h
      split at h
      · rename_i hc
        obtain ⟨b, hb, rfl⟩ := map_eq_ok.1 h
        obtain ⟨s, hsrc, hdst⟩ := ih hb
        exact ⟨c :: s, isStr_cons_iff.2 ⟨hc, src, rfl, hsrc⟩, isStr_cons_iff.2 ⟨hc, b, rfl, hdst⟩⟩
      · rename_i hc
        obtain rfl := Except.ok.inj h
        obtain rfl : c = 0 := not_not.1 hc
        exact ⟨[], isStr_nil_iff.2 ⟨src, rfl⟩, isStr_nil_iff.2 ⟨dst, rfl⟩⟩

end

end Sbunix
