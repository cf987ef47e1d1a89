import Sbunix.Lib.Memory

/-!
# Byte copies

`StoredAt m m' dest n b` says that `m'` has the bytes `b 0`, …, `b (n - 1)` from the pointer `dest`
on, and is `m` elsewhere. Pointers are 64-bit words, so the addresses wrap around. A loop that
copies upwards stores the first byte and then the others, one that copies downwards the last byte
first.
-/

namespace Lib

/-- The `n` bytes `b` are stored from `dest` on, and nothing else is. -/
structure StoredAt (m m' : Mem) (dest : UInt64) (n : Nat) (b : Nat → UInt8) : Prop where
  put : ∀ i < n, m' (dest + UInt64.ofNat i).toNat = b i
  frame : ∀ x, (∀ i < n, x ≠ (dest + UInt64.ofNat i).toNat) → m' x = m x

section

variable {m m' : Mem} {p dest : UInt64} {n i j : Nat} {b b' : Nat → UInt8}

theorem add_ofNat_zero (p : UInt64) : p + UInt64.ofNat 0 = p := UInt64.add_zero p

theorem add_ofNat_succ (p : UInt64) (i : Nat) :
    p + UInt64.ofNat (i + 1) = p + 1 + UInt64.ofNat i := by
  rw [UInt64.ofNat_add, UInt64.add_assoc, UInt64.add_comm (UInt64.ofNat i)]
  rfl

/-- Less than the whole address space apart, two offsets are two addresses. -/
theorem add_ofNat_inj (hi : i < 2 ^ 64) (hj : j < 2 ^ 64)
    (h : p + UInt64.ofNat i = p + UInt64.ofNat j) : i = j := by
  rw [← toNat_ofNat_of_lt hi, ← toNat_ofNat_of_lt hj, (UInt64.add_right_inj p).1 h]

/-- The first byte is none of the others. -/
theorem toNat_ne_behind (hn : n < 2 ^ 64) (hi : i < n) :
    dest.toNat ≠ (dest + 1 + UInt64.ofNat i).toNat := by
  intro heq
  rw [← add_ofNat_succ, UInt64.toNat_inj] at heq
  nth_rewrite 1 [← add_ofNat_zero dest] at heq
  exact absurd (add_ofNat_inj (by decide) (by omega) heq) (Nat.succ_ne_zero i).symm

theorem write8_self (m : Mem) (a : Nat) (c : UInt8) : write8 m a c a = c := by
  simp [write8]

theorem write8_of_ne {a x : Nat} (h : x ≠ a) (m : Mem) (c : UInt8) : write8 m a c x = m x := by
  simp [write8, h]

namespace StoredAt

theorem nil (m : Mem) (dest : UInt64) (b : Nat → UInt8) : StoredAt m m dest 0 b where
  put i hi := absurd hi (Nat.not_lt_zero i)
  frame _ _ := rfl

theorem congr (h : StoredAt m m' dest n b) (heq : ∀ i < n, b i = b' i) :
    StoredAt m m' dest n b' where
  put i hi := (h.put i hi).trans (heq i hi)
  frame := h.frame

/-- The first byte, and then the others. -/
theorem cons (h : StoredAt (write8 m dest.toNat (b 0)) m' (dest + 1) n fun i => b (i + 1))
    (hn : n < 2 ^ 64) : StoredAt m m' dest (n + 1) b where
  put i hi := by
    cases i with
    | zero =>
      rw [add_ofNat_zero, h.frame _ fun i hi => toNat_ne_behind hn hi, write8_self]
    | succ i =>
      rw [add_ofNat_succ]
      exact h.put i (Nat.lt_of_succ_lt_succ hi)
  frame x hx := by
    have hne := hx 0 (Nat.zero_lt_succ n)
    rw [add_ofNat_zero] at hne
    rw [h.frame x, write8_of_ne hne]
    intro i hi
    rw [← add_ofNat_succ]
    exact hx (i + 1) (Nat.succ_lt_succ hi)

/-- The last byte, and then the others. -/
theorem snoc (h : StoredAt (write8 m (dest + UInt64.ofNat n).toNat (b n)) m' dest n b)
    (hn : n < 2 ^ 64) : StoredAt m m' dest (n + 1) b where
  put i hi := by
    rcases Nat.lt_succ_iff_lt_or_eq.1 hi with hlt | rfl
    · exact h.put i hlt
    · rw [h.frame, write8_self]
      intro j hj heq
      exact absurd (add_ofNat_inj hn (hj.trans hn) (UInt64.toNat_inj.1 heq)) (Nat.ne_of_gt hj)
  frame x hx := by
    rw [h.frame x fun i hi => hx i (Nat.lt_succ_of_lt hi), write8_of_ne (hx n (Nat.lt_succ_self n))]

end StoredAt

end

end Lib
