import Sbunix.Lib.BitFields
import Sbunix.Lib.Memory

/-!
# Records in memory

A field of a record in memory is a number of some bytes, or some bits of one. `writeLE` stores a
number and `writeBits` a bit field, which leaves the other bits of its bytes as they are. A field is
read back as it was written, cut to its width, and other fields are unchanged. `Agree m m' a n` says
that two memories have the same `n` bytes from `a` on, which is all that their fields depend on.
-/

namespace Lib

/-! ## Bits of a number -/

/-- The number with `width` bits from `start` on set to `v`. -/
def setField (start width v x : Nat) : Nat :=
  x % 2 ^ start + 2 ^ start * (v % 2 ^ width + 2 ^ width * (x / 2 ^ (start + width)))

section

variable {start width start' width' v x : Nat}

theorem bitField_setField (start width v x : Nat) :
    bitField start width (setField start width v x) = v % 2 ^ width := by
  rw [bitField, setField, Nat.add_mul_div_left _ _ (Nat.two_pow_pos _),
    Nat.div_eq_of_lt (Nat.mod_lt _ (Nat.two_pow_pos _)), Nat.zero_add, Nat.add_mul_mod_self_left,
    Nat.mod_mod]

theorem bitField_setField_below (h : start' + width' ≤ start) (v x : Nat) :
    bitField start' width' (setField start width v x) = bitField start' width' x := by
  obtain ⟨k, rfl⟩ := Nat.exists_eq_add_of_le h
  have hpow : 2 ^ (start' + width' + k) = 2 ^ start' * (2 ^ width' * 2 ^ k) := by ring
  rw [bitField, bitField, setField, hpow, mul_assoc, Nat.add_mul_div_left _ _ (Nat.two_pow_pos _),
    mul_assoc, Nat.add_mul_mod_self_left, Nat.mod_mul_right_div_self, Nat.mod_mul_right_mod]

theorem bitField_setField_above (h : start + width ≤ start') (v x : Nat) :
    bitField start' width' (setField start width v x) = bitField start' width' x := by
  obtain ⟨k, rfl⟩ := Nat.exists_eq_add_of_le h
  have hlow : setField start width v x / 2 ^ (start + width) = x / 2 ^ (start + width) := by
    rw [setField, pow_add, ← Nat.div_div_eq_div_mul, Nat.add_mul_div_left _ _ (Nat.two_pow_pos _),
      Nat.div_eq_of_lt (Nat.mod_lt _ (Nat.two_pow_pos _)), Nat.zero_add,
      Nat.add_mul_div_left _ _ (Nat.two_pow_pos _),
      Nat.div_eq_of_lt (Nat.mod_lt _ (Nat.two_pow_pos _)), Nat.zero_add]
  rw [bitField, bitField, pow_add 2 (start + width) k, ← Nat.div_div_eq_div_mul, hlow,
    Nat.div_div_eq_div_mul]

theorem setField_lt {n : Nat} (h : start + width ≤ n) (hx : x < 2 ^ n) :
    setField start width v x < 2 ^ n := by
  obtain ⟨k, rfl⟩ := Nat.exists_eq_add_of_le h
  have hhigh : x / 2 ^ (start + width) < 2 ^ k := by
    rw [Nat.div_lt_iff_lt_mul (Nat.two_pow_pos _), mul_comm, ← pow_add]
    exact hx
  have hmod := Nat.mod_lt x (Nat.two_pow_pos start)
  have hv := Nat.mod_lt v (Nat.two_pow_pos width)
  calc setField start width v x
      < 2 ^ start + 2 ^ start * (v % 2 ^ width + 2 ^ width * (x / 2 ^ (start + width))) :=
        Nat.add_lt_add_right hmod _
    _ = 2 ^ start * (v % 2 ^ width + 1 + 2 ^ width * (x / 2 ^ (start + width))) := by ring
    _ ≤ 2 ^ start * (2 ^ width + 2 ^ width * (x / 2 ^ (start + width))) :=
        Nat.mul_le_mul_left _ (Nat.add_le_add_right hv _)
    _ = 2 ^ start * 2 ^ width * (x / 2 ^ (start + width) + 1) := by ring
    _ ≤ 2 ^ start * 2 ^ width * 2 ^ k := Nat.mul_le_mul_left _ hhigh
    _ = 2 ^ (start + width + k) := by rw [pow_add, pow_add]

end

/-! ## Stores -/

/-- Store the number `v` in the `n` bytes from `a` on, little-endian. -/
def writeLE (m : Mem) (a n v : Nat) : Mem := fun x =>
  if a ≤ x ∧ x < a + n then UInt8.ofNat (v / 256 ^ (x - a)) else m x

/-- Store a bit field of the `n` bytes from `a` on. -/
def writeBits (m : Mem) (a n start width v : Nat) : Mem :=
  writeLE m a n (setField start width v (readLE m a n))

/-- Store zeros. -/
def clear (m : Mem) (a n : Nat) : Mem := writeLE m a n 0

/-- The same `n` bytes from `a` on. -/
def Agree (m m' : Mem) (a n : Nat) : Prop := ∀ k < n, m' (a + k) = m (a + k)

section

variable {m m' m'' : Mem} {a b n k v start width start' width' : Nat}

theorem Agree.refl (m : Mem) (a n : Nat) : Agree m m a n := fun _ _ => rfl

theorem Agree.trans (h : Agree m m' a n) (h' : Agree m' m'' a n) : Agree m m'' a n :=
  fun k hk => (h' k hk).trans (h k hk)

theorem Agree.readLE (h : Agree m m' a n) : readLE m' a n = readLE m a n := readLE_congr h

/-- A part of the bytes. -/
theorem Agree.mono (h : Agree m m' a n) (hb : a ≤ b) (hk : b + k ≤ a + n) : Agree m m' b k := by
  intro i hi
  have hat := h (b - a + i) (by omega)
  rwa [show a + (b - a + i) = b + i by omega] at hat

theorem agree_writeLE (m : Mem) (v : Nat) (h : b + k ≤ a ∨ a + n ≤ b) :
    Agree m (writeLE m a n v) b k := fun i hi => if_neg (by omega)

theorem agree_writeBits (m : Mem) (start width v : Nat) (h : b + k ≤ a ∨ a + n ≤ b) :
    Agree m (writeBits m a n start width v) b k := agree_writeLE m _ h

theorem agree_clear (m : Mem) (h : b + k ≤ a ∨ a + n ≤ b) : Agree m (clear m a n) b k :=
  agree_writeLE m 0 h

theorem readLE_writeLE (m : Mem) (a n v : Nat) : readLE (writeLE m a n v) a n = v % 256 ^ n :=
  readLE_bytes fun i hi => by
    rw [writeLE, if_pos (by omega), Nat.add_sub_cancel_left]

theorem readLE_clear (m : Mem) (hb : a ≤ b) (hk : b + k ≤ a + n) :
    readLE (clear m a n) b k = 0 := by
  have hzero : readLE (clear m a n) b k = 0 % 256 ^ k := readLE_bytes fun i hi => by
    rw [clear, writeLE, if_pos (by omega), Nat.zero_div, Nat.zero_div]
  rw [hzero, Nat.zero_mod]

theorem readLE_lt (m : Mem) (a n : Nat) : readLE m a n < 256 ^ n := by
  induction n generalizing a with
  | zero => exact Nat.one_pos
  | succ n ih =>
    have hbyte := (m a).toNat_lt
    have hrest := ih (a + 1)
    rw [readLE, pow_succ]
    omega

/-- The container of a bit field. -/
theorem readLE_writeBits (h : start + width ≤ 8 * n) (m : Mem) (a v : Nat) :
    readLE (writeBits m a n start width v) a n = setField start width v (readLE m a n) := by
  have hpow : 256 ^ n = 2 ^ (8 * n) := by rw [pow_mul]; norm_num
  have hlt := readLE_lt m a n
  rw [hpow] at hlt
  rw [writeBits, readLE_writeLE, hpow, Nat.mod_eq_of_lt (setField_lt h hlt)]

/-- A bit field is read back. -/
theorem bitField_writeBits (h : start + width ≤ 8 * n) (m : Mem) (a v : Nat) :
    bitField start width (readLE (writeBits m a n start width v) a n) = v % 2 ^ width := by
  rw [readLE_writeBits h, bitField_setField]

/-- The other bits are unchanged. -/
theorem bitField_writeBits_of_disjoint (h : start + width ≤ 8 * n)
    (hdisj : start' + width' ≤ start ∨ start + width ≤ start') (m : Mem) (a v : Nat) :
    bitField start' width' (readLE (writeBits m a n start width v) a n) =
      bitField start' width' (readLE m a n) := by
  rw [readLE_writeBits h]
  rcases hdisj with hbelow | habove
  · exact bitField_setField_below hbelow v _
  · exact bitField_setField_above habove v _

end

end Lib
