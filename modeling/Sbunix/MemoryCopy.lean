import Sbunix.Lib.Copying

/-!
# Overlapping copies

Both `memcpy` compare the pointers first. When the source is below the destination they copy
downwards, and upwards otherwise. In either direction no byte of the source is overwritten before it
has been read: `copyDown_stored` and `copyUp_stored`. So `memcpy` is right for overlapping ranges
too.
-/

namespace Sbunix

open Lib

/-- `*--pd = *--ps`, as often as `n` says. -/
def copyDown : Nat → UInt64 → UInt64 → Mem → Mem
  | 0, _, _, m => m
  | n + 1, pd, ps, m =>
    copyDown n (pd - 1) (ps - 1) (write8 m (pd - 1).toNat (m (ps - 1).toNat))

def copyUp : Nat → UInt64 → UInt64 → Mem → Mem
  | 0, _, _, m => m
  | n + 1, pd, ps, m => copyUp n (pd + 1) (ps + 1) (write8 m pd.toNat (m ps.toNat))

/-- `memcpy` of `sys/string1.c`, with the pointer that it returns. -/
def kernelMemcpy (dest src n : UInt64) (m : Mem) : UInt64 × Mem :=
  if src < dest then (dest, copyDown n.toNat (dest + n) (src + n) m)
  else (dest, copyUp n.toNat dest src m)

/-- `memcpy` of `libc/string.c`, which has the same text. -/
def libcMemcpy (dest src n : UInt64) (m : Mem) : UInt64 × Mem := kernelMemcpy dest src n m

/-- The destination has the bytes that the source had, and all the others are as they were. -/
structure Moved (dest src : UInt64) (n : Nat) (m m' : Mem) : Prop where
  copied : ∀ i < n, m' (dest.toNat + i) = m (src.toNat + i)
  others : ∀ x, x < dest.toNat ∨ dest.toNat + n ≤ x → m' x = m x

section

variable {m : Mem} {dest src : UInt64} {n : Nat}

/-! ## The loops -/

/-- Downwards, when a byte is read before those below it are written. -/
theorem copyDown_stored (hn : n ≤ 2 ^ 64)
    (h : ∀ i < n, ∀ j < i, src + UInt64.ofNat j ≠ dest + UInt64.ofNat i) :
    StoredAt m (copyDown n (dest + UInt64.ofNat n) (src + UInt64.ofNat n) m) dest n
      fun i => m (src + UInt64.ofNat i).toNat := by
  induction n generalizing m with
  | zero => exact StoredAt.nil m dest _
  | succ n ih =>
    have hpred : ∀ p : UInt64, p + UInt64.ofNat (n + 1) - 1 = p + UInt64.ofNat n := by
      intro p
      rw [UInt64.ofNat_add, ← UInt64.add_assoc]
      exact UInt64.add_sub_cancel _ _
    rw [copyDown, hpred, hpred]
    apply StoredAt.snoc _ hn
    apply (ih (Nat.le_of_succ_le hn) fun i hi => h i (Nat.lt_succ_of_lt hi)).congr
    intro i hi
    apply write8_of_ne
    rw [Ne, UInt64.toNat_inj]
    exact h n (Nat.lt_succ_self n) i hi

theorem copyUp_stored (hn : n ≤ 2 ^ 64)
    (h : ∀ i < n, ∀ j < i, src + UInt64.ofNat i ≠ dest + UInt64.ofNat j) :
    StoredAt m (copyUp n dest src m) dest n fun i => m (src + UInt64.ofNat i).toNat := by
  induction n generalizing m dest src with
  | zero => exact StoredAt.nil m dest _
  | succ n ih =>
    rw [copyUp]
    apply StoredAt.cons _ hn
    have hnext : ∀ i < n, ∀ j < i, src + 1 + UInt64.ofNat i ≠ dest + 1 + UInt64.ofNat j := by
      intro i hi j hj
      rw [← add_ofNat_succ, ← add_ofNat_succ]
      exact h (i + 1) (Nat.succ_lt_succ hi) (j + 1) (Nat.succ_lt_succ hj)
    rw [add_ofNat_zero]
    apply (ih (Nat.le_of_succ_le hn) hnext).congr
    intro i hi
    rw [← add_ofNat_succ]
    apply write8_of_ne
    rw [Ne, UInt64.toNat_inj]
    have hfirst := h (i + 1) (Nat.succ_lt_succ hi) 0 (Nat.zero_lt_succ i)
    rwa [add_ofNat_zero] at hfirst

/-! ## Both directions -/

theorem moved_of_stored {m' : Mem} (hdest : dest.toNat + n ≤ 2 ^ 64)
    (hsrc : src.toNat + n ≤ 2 ^ 64)
    (h : StoredAt m m' dest n fun i => m (src + UInt64.ofNat i).toNat) : Moved dest src n m m' where
  copied i hi := by
    have hput := h.put i hi
    rwa [toNat_add_ofNat (by omega), toNat_add_ofNat (by omega)] at hput
  others x hx := by
    apply h.frame
    intro i hi
    rw [toNat_add_ofNat (by omega)]
    omega

theorem kernelMemcpy_moved {n : UInt64} (hdest : dest.toNat + n.toNat ≤ 2 ^ 64)
    (hsrc : src.toNat + n.toNat ≤ 2 ^ 64) :
    (kernelMemcpy dest src n m).1 = dest ∧
      Moved dest src n.toNat m (kernelMemcpy dest src n m).2 := by
  have hn : n.toNat ≤ 2 ^ 64 := n.toNat_lt.le
  have happly : ∀ i < n.toNat, ∀ j < n.toNat, src + UInt64.ofNat i = dest + UInt64.ofNat j →
      src.toNat + i = dest.toNat + j := by
    intro i hi j hj heq
    rw [← toNat_add_ofNat (by omega), heq, toNat_add_ofNat (by omega)]
  unfold kernelMemcpy
  split_ifs with hlt
  · have hlt := UInt64.lt_iff_toNat_lt.1 hlt
    refine ⟨rfl, moved_of_stored hdest hsrc ?_⟩
    have hdown := @copyDown_stored m dest src n.toNat hn fun i hi j hj heq => by
      have := happly j (hj.trans hi) i hi heq
      omega
    rwa [UInt64.ofNat_toNat] at hdown
  · have hle := Nat.le_of_not_lt fun h => hlt (UInt64.lt_iff_toNat_lt.2 h)
    refine ⟨rfl, moved_of_stored hdest hsrc ?_⟩
    apply copyUp_stored hn
    intro i hi j hj heq
    have := happly i hi j (hj.trans hi) heq
    omega

/-- **Overlapping copies.** Both `memcpy` are right for all ranges that do not wrap around. -/
theorem memcpy_overlapping {n : UInt64} (hdest : dest.toNat + n.toNat ≤ 2 ^ 64)
    (hsrc : src.toNat + n.toNat ≤ 2 ^ 64) :
    Moved dest src n.toNat m (kernelMemcpy dest src n m).2 ∧
      Moved dest src n.toNat m (libcMemcpy dest src n m).2 := by
  have h := (@kernelMemcpy_moved m dest src n hdest hsrc).2
  exact ⟨h, h⟩

end

theorem memcpy_overlapping_top :
    Moved (0 - 4) (0 - 5) 4 UInt8.ofNat (kernelMemcpy (0 - 4) (0 - 5) 4 UInt8.ofNat).2 ∧
      Moved (0 - 4) (0 - 5) 4 UInt8.ofNat (libcMemcpy (0 - 4) (0 - 5) 4 UInt8.ofNat).2 :=
  @memcpy_overlapping UInt8.ofNat (0 - 4) (0 - 5) 4 (by decide) (by decide)

end Sbunix
