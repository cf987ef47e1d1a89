import Sbunix.Tarfs

/-!
# The two decoders of a size

A size field holds eleven octal digits. `octalToDecimal` is given the decimal reading of the digits
and takes a digit off with `(int)n % 10`. The number in `n` is below `2 ^ 31` after the first two
turns, so only the last two digits can come out wrong: `octalToDecimal_value` has the two remainders
as they are. `size_decoders_iff` says for which fields they do not matter.
-/

namespace Sbunix

/-- The remainder of a turn of `octalToDecimal`. -/
def octalRem (n : Nat) : Int := (Int.bmod n (2 ^ 32)).tmod 10

/-- Both decoders read the value from the field. -/
def DecodersAgree (field : List UInt8) (v : Nat) : Prop :=
  (∃ n, stoi field = .ok n ∧ octalToDecimal n = v) ∧ getSize field = .ok v

section

variable {l ds : List Nat} {d₀ d₁ : Nat}

theorem octalRem_eq_or (n : Nat) :
    ∃ q : Nat, (octalRem n = ((n : Int) - 2 ^ 32 * q) % 10 ∧ 2 ^ 32 * q ≤ n ∧
        n < 2 ^ 32 * q + 2 ^ 31) ∨
      octalRem n = - ((2 ^ 32 * q - n : Int) % 10) ∧ n < 2 ^ 32 * q ∧
        2 ^ 32 * q ≤ n + 2 ^ 31 := by
  have hbmod := Int.bmod_def (n : Int) (2 ^ 32)
  unfold octalRem
  by_cases hlow : n % 2 ^ 32 < 2 ^ 31
  · refine ⟨n / 2 ^ 32, Or.inl ⟨?_, by omega, by omega⟩⟩
    have hval : Int.bmod n (2 ^ 32) = (n : Int) - 2 ^ 32 * (n / 2 ^ 32 : Nat) := by
      rw [hbmod, if_pos (by omega)]
      omega
    rw [hval, Int.tmod_eq_emod_of_nonneg (by omega)]
  · refine ⟨n / 2 ^ 32 + 1, Or.inr ⟨?_, by omega, by omega⟩⟩
    have hval : Int.bmod n (2 ^ 32) = - (2 ^ 32 * (n / 2 ^ 32 + 1 : Nat) - (n : Int)) := by
      rw [hbmod, if_neg (by omega)]
      omega
    rw [hval, Int.neg_tmod, Int.tmod_eq_emod_of_nonneg (by omega)]

/-- The value that `octalToDecimal` gets, with the remainders of the first two turns as they are. -/
theorem octalToDecimal_value (hl : ∀ d ∈ l, d < 8) (hlen : l.length = 9) {n : Nat}
    (hn : n = d₀ + 10 * d₁ + 100 * Nat.ofDigits 10 l) (hbig : 2 ^ 31 ≤ n) (h₀ : d₀ < 8)
    (h₁ : d₁ < 8) :
    (octalToDecimal n : Int) =
      (octalRem n + 8 * octalRem (n / 10) + 64 * (Nat.ofDigits 8 l : Nat)) % 2 ^ 64 := by
  have hten : Nat.ofDigits 10 l < 10 ^ l.length :=
    Nat.ofDigits_lt_base_pow_length (by norm_num) fun d hd => (hl d hd).trans (by norm_num)
  rw [hlen] at hten
  have hrest : n / 10 / 10 = Nat.ofDigits 10 l := by omega
  have hrem : ∀ m : Nat, (((octalRem m % 2 ^ 64).toNat : Nat) : Int) = octalRem m % 2 ^ 64 :=
    fun m => Int.toNat_of_nonneg (Int.emod_nonneg _ (by norm_num))
  rw [octalToDecimal, octalLoop, if_pos (by omega), octalLoop, if_pos (by omega), hrest]
  simp only [Nat.lt_irrefl, if_false, Nat.zero_lt_succ, if_true]
  rw [octalLoop_mod (p := 64) hl (by omega) (by omega) rfl (Nat.mod_lt _ (by norm_num))]
  have hfirst := hrem n
  have hsecond := hrem (n / 10)
  unfold octalRem at hfirst hsecond ⊢
  generalize (Int.bmod n (2 ^ 32)).tmod 10 = r₀ at *
  generalize (Int.bmod (n / 10 : Nat) (2 ^ 32)).tmod 10 = r₁ at *
  clear hrem
  omega

theorem octalRem_second {n : Nat} (hn : n < 10 ^ 10) :
    octalRem n = (n % 10 : Nat) ∧ n < 2 ^ 31 ∨
      2 ^ 31 ≤ n ∧ (octalRem n + 2 ≤ (n % 10 : Nat) ∨ (n % 10 : Nat) + 4 ≤ octalRem n) := by
  obtain ⟨q, ⟨hrem, hlow, hhigh⟩ | ⟨hrem, hlow, hhigh⟩⟩ := octalRem_eq_or n
  all_goals
    rw [hrem]
    have hq : q ≤ 2 := by omega
    interval_cases q <;> omega

theorem octalRem_first {n : Nat} (hn : n < 5 * 2 ^ 32) :
    octalRem n = (n % 10 : Nat) ↔
      n < 2 ^ 31 ∨ 5 * 2 ^ 32 - 2 ^ 31 ≤ n ∧ n < 5 * 2 ^ 32 ∧ n % 10 = 0 := by
  obtain ⟨q, ⟨hrem, hlow, hhigh⟩ | ⟨hrem, hlow, hhigh⟩⟩ := octalRem_eq_or n
  all_goals
    rw [hrem]
    have hq : q ≤ 5 := by omega
    interval_cases q <;> omega

theorem octalRem_bounds (n : Nat) : -9 ≤ octalRem n ∧ octalRem n ≤ 9 := by
  obtain ⟨q, ⟨hrem, -, -⟩ | ⟨hrem, -, -⟩⟩ := octalRem_eq_or n
  all_goals
    rw [hrem]
    omega

/-- The remainders are the last two digits if and only if the number fits into an `int`, or the
first turn sees a zero below `5 * 2 ^ 32`. -/
theorem octalRem_sum_iff {n : Nat} (hn : n < 10 ^ 11) :
    octalRem n + 8 * octalRem (n / 10) = (n % 10 : Nat) + 8 * (n / 10 % 10 : Nat) ↔
      n < 2 ^ 31 ∨ 5 * 2 ^ 32 - 2 ^ 31 ≤ n ∧ n < 5 * 2 ^ 32 ∧ n % 10 = 0 := by
  have hfirst := octalRem_bounds n
  rcases octalRem_second (n := n / 10) (by omega) with ⟨hsecond, hlt⟩ | ⟨hle, hsecond⟩
  · rw [hsecond, ← octalRem_first (by omega)]
    omega
  · have hlarge : 5 * 2 ^ 32 ≤ n := by omega
    constructor
    · intro hsum
      omega
    · intro hcond
      omega

theorem ofDigits_eight_lt (hl : ∀ d ∈ l, d < 8) (hlen : l.length = 11)
    (hlt : Nat.ofDigits 10 l < 5 * 2 ^ 32) : Nat.ofDigits 8 l < 2 ^ 32 := by
  obtain ⟨a, ha⟩ : ∃ a, l.drop 10 = [a] := List.length_eq_one_iff.1 (by simp [hlen])
  have hlow : (l.take 10).length = 10 := by simp [hlen]
  have height : Nat.ofDigits 8 (l.take 10) < 8 ^ (l.take 10).length :=
    Nat.ofDigits_lt_base_pow_length (by norm_num) fun d hd => hl d (List.mem_of_mem_take hd)
  rw [← List.take_append_drop 10 l, ha, Nat.ofDigits_append, hlow] at hlt ⊢
  rw [hlow] at height
  simp only [Nat.ofDigits_cons, Nat.ofDigits_nil] at hlt ⊢
  omega

/-- `octalToDecimal` is right if and only if the remainders do not matter. -/
theorem octalToDecimal_iff (hl : ∀ d ∈ l, d < 8) (hlen : l.length = 11) :
    octalToDecimal (Nat.ofDigits 10 l) = Nat.ofDigits 8 l ↔
      Nat.ofDigits 10 l < 2 ^ 31 ∨ 5 * 2 ^ 32 - 2 ^ 31 ≤ Nat.ofDigits 10 l ∧
        Nat.ofDigits 10 l < 5 * 2 ^ 32 ∧ Nat.ofDigits 10 l % 10 = 0 := by
  have hten : Nat.ofDigits 10 l < 10 ^ l.length :=
    Nat.ofDigits_lt_base_pow_length (by norm_num) fun d hd => (hl d hd).trans (by norm_num)
  have height : Nat.ofDigits 8 l < 8 ^ l.length := Nat.ofDigits_lt_base_pow_length (by norm_num) hl
  rw [hlen] at hten height
  by_cases hsmall : Nat.ofDigits 10 l < 2 ^ 31
  · apply iff_of_true _ (Or.inl hsmall)
    rw [octalToDecimal, octalLoop_spec hl (by omega) hsmall rfl (by simp; omega)]
    simp
  obtain ⟨d₀, low, rfl⟩ := List.exists_cons_of_length_pos (show 0 < l.length by omega)
  obtain ⟨d₁, high, rfl⟩ :=
    List.exists_cons_of_length_pos (show 0 < low.length by simp at hlen; omega)
  have h₀ : d₀ < 8 := hl d₀ (by simp)
  have h₁ : d₁ < 8 := hl d₁ (by simp)
  have hhigh : ∀ d ∈ high, d < 8 := fun d hd => hl d (by simp [hd])
  have hdecimal :
      Nat.ofDigits 10 (d₀ :: d₁ :: high) = d₀ + 10 * d₁ + 100 * Nat.ofDigits 10 high := by
    rw [Nat.ofDigits_cons, Nat.ofDigits_cons]
    ring
  have hoctal : Nat.ofDigits 8 (d₀ :: d₁ :: high) = d₀ + 8 * d₁ + 64 * Nat.ofDigits 8 high := by
    rw [Nat.ofDigits_cons, Nat.ofDigits_cons]
    ring
  have hvalue := octalToDecimal_value hhigh (by simpa using hlen) hdecimal (by omega) h₀ h₁
  have hfirst := octalRem_bounds (Nat.ofDigits 10 (d₀ :: d₁ :: high))
  have hsecond := octalRem_bounds (Nat.ofDigits 10 (d₀ :: d₁ :: high) / 10)
  rw [← octalRem_sum_iff hten, hoctal]
  rw [hoctal] at height
  generalize octalToDecimal (Nat.ofDigits 10 (d₀ :: d₁ :: high)) = value at *
  generalize Nat.ofDigits 10 (d₀ :: d₁ :: high) = n at *
  generalize octalRem n = r₀ at *
  generalize octalRem (n / 10) = r₁ at *
  clear hoctal
  omega

/-- **When the two decoders agree.** On a field of eleven octal digits both get the octal value if
and only if its decimal reading fits into an `int`, or lies in the last `2 ^ 31` numbers below
`5 * 2 ^ 32` and ends in a zero. -/
theorem size_decoders_iff {ds : List Nat} (rest : List UInt8) (hds : ∀ d ∈ ds, d < 8)
    (hlen : ds.length = 11) :
    DecodersAgree (ds.map digitByte ++ 0 :: rest) (Nat.ofDigits 8 ds.reverse) ↔
      Nat.ofDigits 10 ds.reverse < 2 ^ 31 ∨ 5 * 2 ^ 32 - 2 ^ 31 ≤ Nat.ofDigits 10 ds.reverse ∧
        Nat.ofDigits 10 ds.reverse < 5 * 2 ^ 32 ∧ Nat.ofDigits 10 ds.reverse % 10 = 0 := by
  have hrev : ∀ d ∈ ds.reverse, d < 8 := fun d hd => hds d (List.mem_reverse.1 hd)
  have hlenRev : ds.reverse.length = 11 := by simp [hlen]
  have hten : Nat.ofDigits 10 ds.reverse < 10 ^ ds.reverse.length :=
    Nat.ofDigits_lt_base_pow_length (by norm_num) fun d hd => (hrev d hd).trans (by norm_num)
  rw [hlenRev] at hten
  have hstoi : stoi (ds.map digitByte ++ 0 :: rest) = .ok (Nat.ofDigits 10 ds.reverse) := by
    rw [stoi, stoiLoop_spec (fun d hd => (hds d hd).trans (by norm_num)) (by decide) (by omega)]
    simp
  rw [← octalToDecimal_iff hrev hlenRev]
  constructor
  · rintro ⟨⟨n, hn, hvalue⟩, -⟩
    rw [hstoi, Except.ok.injEq] at hn
    rwa [hn]
  · intro hvalue
    refine ⟨⟨_, hstoi, hvalue⟩, getSize_spec hds hlen (ofDigits_eight_lt hrev hlenRev ?_)⟩
    have := (octalToDecimal_iff hrev hlenRev).1 hvalue
    omega

theorem size_decoders_hundred :
    DecodersAgree ([0, 0, 0, 0, 0, 0, 0, 0, 1, 4, 4].map digitByte ++ 0 :: []) 100 :=
  (@size_decoders_iff [0, 0, 0, 0, 0, 0, 0, 0, 1, 4, 4] [] (by decide) rfl).2 (Or.inl (by decide))

/-- The field `02147500000` stands for 295600128, and `octalToDecimal` gets another number. -/
theorem size_decoders_disagree :
    ¬ DecodersAgree ([0, 2, 1, 4, 7, 5, 0, 0, 0, 0, 0].map digitByte ++ 0 :: [])
      (Nat.ofDigits 8 [0, 2, 1, 4, 7, 5, 0, 0, 0, 0, 0].reverse) := by
  have hstoi : stoi ([0, 2, 1, 4, 7, 5, 0, 0, 0, 0, 0].map digitByte ++ 0 :: []) =
      .ok 2147500000 := by decide +kernel
  have hvalue : octalToDecimal 2147500000 = 295600122 := by decide +kernel
  rintro ⟨⟨n, hn, heq⟩, -⟩
  rw [hstoi, Except.ok.injEq] at hn
  rw [← hn, hvalue] at heq
  exact absurd heq (by decide +kernel)

end

end Sbunix
