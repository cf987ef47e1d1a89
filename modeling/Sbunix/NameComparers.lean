import Sbunix.Listing
import Sbunix.WorkingDirectory

/-!
# The comparers of names

`sstrcmp`, the two `strcmp` and `sstrncmp` have loops with different tests. On strings they decide
the same relations (`name_comparers`), and what they return does not depend on the bytes behind the
terminators: a comparison that ends goes on to the same end in longer objects.
-/

namespace Sbunix

open Lib

variable {b b' p q : List UInt8} {r : Int}

/-- A comparison of two strings, whatever lies behind them, is zero exactly when `P` holds. -/
def Decides (compare : List UInt8 → List UInt8 → Except Fault Int) (p q : List UInt8)
    (P : Prop) : Prop :=
  ∃ r, (∀ after after', compare (p ++ 0 :: after) (q ++ 0 :: after') = .ok r) ∧ (r = 0 ↔ P)

/-! ## Longer objects -/

/-- A comparison does not depend on what lies behind its last turn, when each turn depends on the
two characters only. -/
theorem compare_append {compare : List UInt8 → List UInt8 → Except Fault Int}
    (hnil : ∀ b', compare [] b' = .error .outOfBounds)
    (hnil' : ∀ c b, compare (c :: b) [] = .error .outOfBounds)
    (hturn : ∀ c d, (∀ b b', compare (c :: b) (d :: b') = compare b b') ∨
      ∃ x, ∀ b b', compare (c :: b) (d :: b') = x)
    (h : compare b b' = .ok r) (x y : List UInt8) : compare (b ++ x) (b' ++ y) = .ok r := by
  induction b generalizing b' with
  | nil => cases (hnil b').symm.trans h
  | cons c b ih =>
    cases b' with
    | nil => cases (hnil' c b).symm.trans h
    | cons d b' =>
      rw [List.cons_append, List.cons_append]
      rcases hturn c d with hgoes | ⟨z, hstops⟩
      · rw [hgoes] at h ⊢
        exact ih h
      · rw [hstops] at h ⊢
        exact h

theorem strcmp_append (h : strcmp b b' = .ok r) (x y : List UInt8) :
    strcmp (b ++ x) (b' ++ y) = .ok r := by
  apply compare_append (fun _ => rfl) (fun _ _ => rfl) _ h
  intro c d
  simp only [strcmp]
  split_ifs
  · exact Or.inl fun _ _ => rfl
  · exact Or.inr ⟨_, fun _ _ => rfl⟩

theorem sstrcmp_append (h : sstrcmp b b' = .ok r) (x y : List UInt8) :
    sstrcmp (b ++ x) (b' ++ y) = .ok r := by
  apply compare_append (fun _ => rfl) (fun _ _ => rfl) _ h
  intro c d
  simp only [sstrcmp]
  split_ifs
  · exact Or.inr ⟨_, fun _ _ => rfl⟩
  · exact Or.inl fun _ _ => rfl
  · exact Or.inr ⟨_, fun _ _ => rfl⟩

theorem libcStrcmp_append (h : libcStrcmp b b' = .ok r) (x y : List UInt8) :
    libcStrcmp (b ++ x) (b' ++ y) = .ok r := by
  apply compare_append (fun _ => rfl) (fun _ _ => rfl) _ h
  intro c d
  simp only [libcStrcmp]
  split_ifs
  · exact Or.inl fun _ _ => rfl
  · exact Or.inr ⟨_, fun _ _ => rfl⟩

theorem sstrncmp_append {n : Nat} (h : sstrncmp b b' n = .ok r) (x y : List UInt8) :
    sstrncmp (b ++ x) (b' ++ y) n = .ok r := by
  induction n generalizing b b' with
  | zero =>
    rw [sstrncmp] at h ⊢
    exact h
  | succ n ih =>
    cases b with
    | nil => cases h
    | cons c b =>
      cases b' with
      | nil => cases h
      | cons d b' =>
        rw [sstrncmp] at h
        rw [List.cons_append, List.cons_append, sstrncmp]
        split_ifs at h ⊢
        · exact ih h
        · exact h

theorem strlen_append {n : Nat} (h : strlen b = .ok n) (x : List UInt8) :
    strlen (b ++ x) = .ok n := by
  induction b generalizing n with
  | nil => cases h
  | cons c b ih =>
    rw [strlen] at h
    rw [List.cons_append, strlen]
    split_ifs at h ⊢
    · obtain ⟨k, hk, rfl⟩ := map_eq_ok.1 h
      rw [ih hk]
      rfl
    · exact h

/-! ## The relations -/

/-- `sstrncmp(p, q, strlen(q))`. -/
def startsWith (str1 str2 : List UInt8) : Except Fault Int := do
  let count ← strlen str2
  sstrncmp str1 str2 count

theorem startsWith_append (h : startsWith b b' = .ok r) (x y : List UInt8) :
    startsWith (b ++ x) (b' ++ y) = .ok r := by
  obtain ⟨count, hcount, h⟩ := bind_eq_ok.1 h
  rw [startsWith, strlen_append hcount, ok_bind]
  exact sstrncmp_append h x y

/-- It is enough to compare the strings with nothing behind them. -/
theorem decides_of_append {compare : List UInt8 → List UInt8 → Except Fault Int} {P : Prop}
    (happend : ∀ {b b' : List UInt8} {r : Int}, compare b b' = .ok r →
      ∀ x y, compare (b ++ x) (b' ++ y) = .ok r)
    (hspec : ∃ r, compare (p ++ [0]) (q ++ [0]) = .ok r ∧ (r = 0 ↔ P)) :
    Decides compare p q P := by
  obtain ⟨r, hr, hzero⟩ := hspec
  refine ⟨r, fun after after' => ?_, hzero⟩
  have hlonger := happend hr after after'
  rwa [List.append_assoc, List.append_assoc] at hlonger

/-- **The comparers of names.** -/
theorem name_comparers (hp : 0 ∉ p) (hq : 0 ∉ q) :
    Decides sstrcmp p q (p = q) ∧ Decides strcmp p q (p = q) ∧ Decides libcStrcmp p q (p = q) ∧
      Decides startsWith p q (q <+: p) := by
  have hpstr : IsStr (p ++ [0]) p := ⟨hp, [], rfl⟩
  have hqstr : IsStr (q ++ [0]) q := ⟨hq, [], rfl⟩
  refine ⟨decides_of_append sstrcmp_append (sstrcmp_spec hpstr hqstr),
    decides_of_append strcmp_append (strcmp_spec hpstr hqstr),
    decides_of_append libcStrcmp_append (libcStrcmp_spec hpstr hqstr),
    decides_of_append startsWith_append ?_⟩
  rw [startsWith, strlen_spec hqstr, ok_bind]
  exact sstrncmp_spec hpstr hqstr

/-- `bin/ls` starts with `bin/`, whatever lies behind the two. -/
theorem name_comparers_bin :
    ∃ r, (∀ after after', startsWith ([98, 105, 110, 47, 108, 115] ++ 0 :: after)
      ([98, 105, 110, 47] ++ 0 :: after') = .ok r) ∧ r = 0 := by
  have hls : (0 : UInt8) ∉ [98, 105, 110, 47, 108, 115] := by decide
  have hbin : (0 : UInt8) ∉ [98, 105, 110, 47] := by decide
  obtain ⟨r, hr, hzero⟩ := (name_comparers hls hbin).2.2.2
  exact ⟨r, hr, hzero.2 (by decide)⟩

end Sbunix
