import Mathlib.Tactic.Common
import Mathlib.Tactic.Ring
import Mathlib.Algebra.BigOperators.Group.List.Basic

/-!
# Packed bit fields

A record of bit fields is a number: `pack` puts the values of a list of fields, each with its width,
above each other, the first one at bit 0, and cuts each value to its width. `unpack` takes a number
apart again (`pack_unpack`).

`bitField start width x` are `width` bits of `x`. A field of a packed record is `bitField_pack`,
and a part of a field is `bitField_bitField`.
-/

namespace Lib

/-- The record with these widths and values. -/
def pack : List (Nat × Nat) → Nat
  | [] => 0
  | (w, v) :: fs => v % 2 ^ w + 2 ^ w * pack fs

/-- The values of fields with these widths. -/
def unpack : List Nat → Nat → List Nat
  | [], _ => []
  | w :: ws, x => x % 2 ^ w :: unpack ws (x / 2 ^ w)

def bitField (start width x : Nat) : Nat := x / 2 ^ start % 2 ^ width

variable {fs gs : List (Nat × Nat)} {ws : List Nat} {w v x start width : Nat}

theorem pack_unpack (ws : List Nat) (x : Nat) :
    pack (ws.zip (unpack ws x)) = x % 2 ^ ws.sum := by
  induction ws generalizing x with
  | nil => rw [List.sum_nil, pow_zero, Nat.mod_one]; rfl
  | cons w ws ih =>
    rw [unpack, List.zip_cons_cons, pack, ih, Nat.mod_mod, List.sum_cons, pow_add, Nat.mod_mul]

theorem pack_append (fs gs : List (Nat × Nat)) :
    pack (fs ++ gs) = pack fs + 2 ^ (fs.map Prod.fst).sum * pack gs := by
  induction fs with
  | nil => simp [pack]
  | cons f fs ih =>
    obtain ⟨w, v⟩ := f
    rw [List.cons_append, pack, pack, ih, List.map_cons, List.sum_cons]
    ring

theorem pack_lt (fs : List (Nat × Nat)) : pack fs < 2 ^ (fs.map Prod.fst).sum := by
  induction fs with
  | nil => exact Nat.one_pos
  | cons f fs ih =>
    obtain ⟨w, v⟩ := f
    have hmod : v % 2 ^ w < 2 ^ w := Nat.mod_lt _ (Nat.two_pow_pos w)
    calc v % 2 ^ w + 2 ^ w * pack fs < 2 ^ w + 2 ^ w * pack fs := by omega
      _ = 2 ^ w * (pack fs + 1) := by ring
      _ ≤ 2 ^ w * 2 ^ (fs.map Prod.fst).sum := Nat.mul_le_mul_left _ ih
      _ = 2 ^ (((w, v) :: fs).map Prod.fst).sum := by rw [List.map_cons, List.sum_cons, pow_add]

/-- A field of a record, with the fields below it. -/
theorem bitField_pack (fs gs : List (Nat × Nat)) (w v : Nat) :
    bitField (fs.map Prod.fst).sum w (pack (fs ++ (w, v) :: gs)) = v % 2 ^ w := by
  have hdiv : pack (fs ++ (w, v) :: gs) / 2 ^ (fs.map Prod.fst).sum = pack ((w, v) :: gs) := by
    rw [pack_append, Nat.add_mul_div_left _ _ (Nat.two_pow_pos _), Nat.div_eq_of_lt (pack_lt fs),
      Nat.zero_add]
  rw [bitField, hdiv, pack, Nat.add_mul_mod_self_left, Nat.mod_mod]

/-- Some bits of a field. -/
theorem bitField_bitField (start : Nat) {start' width' : Nat} (h : start' + width' ≤ width)
    (x : Nat) :
    bitField start' width' (bitField start width x) = bitField (start + start') width' x := by
  obtain ⟨k, rfl⟩ := Nat.exists_eq_add_of_le h
  have hpow : 2 ^ (start' + width' + k) = 2 ^ start' * (2 ^ width' * 2 ^ k) := by ring
  rw [bitField, bitField, bitField, hpow, Nat.mod_mul_right_div_self, Nat.mod_mul_right_mod,
    Nat.div_div_eq_div_mul, ← pow_add]

end Lib
