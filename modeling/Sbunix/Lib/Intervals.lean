import Mathlib.Order.Interval.Set.Basic
import Mathlib.Data.Set.Lattice
import Mathlib.Order.CompletePartialOrder
import Mathlib.Algebra.Order.Ring.Nat
import Mathlib.Tactic.Ring
import Mathlib.Tactic.Linarith

/-!
# Disjoint intervals and a grid

A family of intervals of numbers that do not overlap, and the cells `[g * k, g * (k + 1))` of a
grid. `grid_inside_iff`: each cell from `a` to `b` lies in one interval if and only if the intervals
leave out no number between `g * a` and `g * b` and no interval starts inside of a cell.
-/

namespace Lib

variable {ι : Type*} {S : Set ι} {lo hi : ι → ℕ} {g a b : ℕ}

/-- Two intervals of the family that share a number are the same. -/
theorem eq_of_mem_of_mem
    (hdisj : S.PairwiseDisjoint fun i => Set.Ico (lo i) (hi i)) {i j : ι} (hi' : i ∈ S)
    (hj : j ∈ S) {x : ℕ} (hx : x ∈ Set.Ico (lo i) (hi i)) (hx' : x ∈ Set.Ico (lo j) (hi j)) :
    i = j :=
  hdisj.elim_set hi' hj x hx hx'

theorem mem_cell (hg : 0 < g) (x : ℕ) : x ∈ Set.Ico (g * (x / g)) (g * (x / g + 1)) := by
  have hlt := Nat.lt_mul_div_succ x hg
  exact ⟨Nat.mul_div_le x g, hlt⟩

/-- The cell of a number between two grid points. -/
theorem cell_bounds {x : ℕ} (hg : 0 < g) (hx : x ∈ Set.Ico (g * a) (g * b)) :
    a ≤ x / g ∧ x / g < b :=
  ⟨(Nat.le_div_iff_mul_le hg).2 (by rw [Nat.mul_comm]; exact hx.1),
    (Nat.div_lt_iff_lt_mul hg).2 (by rw [Nat.mul_comm]; exact hx.2)⟩

theorem grid_inside_iff (hg : 0 < g)
    (hdisj : S.PairwiseDisjoint fun i => Set.Ico (lo i) (hi i)) :
    (∀ k, a ≤ k → k < b → ∃ i ∈ S, Set.Ico (g * k) (g * (k + 1)) ⊆ Set.Ico (lo i) (hi i)) ↔
      Set.Ico (g * a) (g * b) ⊆ ⋃ i ∈ S, Set.Ico (lo i) (hi i) ∧
        ∀ i ∈ S, lo i < hi i → g * a < lo i → lo i < g * b → g ∣ lo i := by
  constructor
  · intro hcells
    constructor
    · intro x hx
      obtain ⟨ha, hb⟩ := cell_bounds hg hx
      obtain ⟨i, hi', hsub⟩ := hcells _ ha hb
      exact Set.mem_biUnion hi' (hsub (mem_cell hg x))
    · intro i hi' hne hlow hhigh
      obtain ⟨ha, hb⟩ := cell_bounds hg ⟨hlow.le, hhigh⟩
      obtain ⟨j, hj, hsub⟩ := hcells _ ha hb
      have hcell := mem_cell hg (lo i)
      obtain rfl : i = j := eq_of_mem_of_mem hdisj hi' hj ⟨le_rfl, hne⟩ (hsub hcell)
      -- the cell starts in the interval, so not in front of it
      have hstart := (hsub ⟨le_rfl, Nat.mul_lt_mul_of_pos_left (Nat.lt_succ_self _) hg⟩).1
      exact ⟨lo i / g, le_antisymm hstart hcell.1⟩
  · rintro ⟨hcover, haligned⟩ k hak hkb
    have hkb' : g * (k + 1) ≤ g * b := Nat.mul_le_mul_left g hkb
    have hak' : g * a ≤ g * k := Nat.mul_le_mul_left g hak
    have hcell : g * k < g * (k + 1) := Nat.mul_lt_mul_of_pos_left (Nat.lt_succ_self _) hg
    obtain ⟨i, hi', hmem⟩ := Set.mem_iUnion₂.1 (hcover ⟨hak', hcell.trans_le hkb'⟩)
    refine ⟨i, hi', ?_⟩
    by_cases hend : g * (k + 1) ≤ hi i
    · exact Set.Ico_subset_Ico hmem.1 hend
    -- the interval ends inside of the cell, and the next one starts there
    exfalso
    obtain ⟨j, hj, hmem'⟩ := Set.mem_iUnion₂.1
      (hcover ⟨hak'.trans hmem.2.le, (not_le.1 hend).trans_le hkb'⟩)
    have hnext : lo j = hi i := by
      by_contra hne
      have hlt : lo j < hi i := lt_of_le_of_ne hmem'.1 hne
      have hlast : max (lo i) (lo j) < hi i := max_lt (hmem.1.trans_lt hmem.2) hlt
      obtain rfl : i = j := eq_of_mem_of_mem hdisj hi' hj ⟨le_max_left _ _, hlast⟩
        ⟨le_max_right _ _, hlast.trans hmem'.2⟩
      exact lt_irrefl _ hmem'.2
    obtain ⟨c, hc⟩ := haligned j hj (hnext ▸ hmem'.2) (hnext ▸ hak'.trans_lt hmem.2)
      (hnext ▸ (not_le.1 hend).trans_le hkb')
    rw [hnext] at hc
    have hlow : k < c := Nat.lt_of_mul_lt_mul_left (hc ▸ hmem.2)
    have hhigh : c < k + 1 := Nat.lt_of_mul_lt_mul_left (hc ▸ not_le.1 hend)
    omega

end Lib
