import Sbunix.Numerals
import Sbunix.Terminal

/-!
# The clock below the text

`tick_timer` of `sys/timer.c` runs on every timer interrupt. It prints the word `Timer` and, every
18 ticks, the number of seconds to fixed cells of the row behind the ones that `kprintf` uses,
with two printing functions of `sys/kprintf.c` that leave the cursor alone.

An interrupt comes between any two stores of `kprintf`, so the video memory holds the stores of
both in some order. `clock_beside_text` is for every such order: the text is on the screen as if
there were no clock, and the clock as if there were no text. The outputs to the interrupt
controller are left out.
-/

namespace Sbunix

open Lib

/-! ## Ticks -/

/-- The two counters, and what has been stored, the last byte first. -/
structure Clock where
  sec : Int
  timerTicks : Int
  stores : List (Int × UInt8)

namespace Clock

def boot : Clock := ⟨0, 0, []⟩

end Clock

/-- `*adr++ = c; *adr++ = colour;` for each character. -/
def storeText : Int → List UInt8 → List (Int × UInt8) → List (Int × UInt8)
  | _, [], log => log
  | adr, c :: text, log => storeText (adr + 2) text ((adr + 1, colour) :: (adr, c) :: log)

/-- The word `Timer`. -/
def timerWord : List UInt8 := [84, 105, 109, 101, 114]

def printTimTxt (s : Clock) : Except Fault Clock := do
  let text ← cString (timerWord ++ [0])
  return { s with stores := storeText 0xffffffff800B8EDC text s.stores }

/-- The characters of the digits, in the order of the loop, with the number of bytes that are left
in `hexadec`. One of them is for the NUL. -/
def timDigits : Nat → Int → Except Fault (List UInt8)
  | 0, _ => .error .outOfBounds
  | room + 1, quotient =>
    if quotient ≠ 0 then
      (timDigits room (quotient.tdiv 10)).map (UInt8.ofNat (quotient.tmod 10 + 48).toNat :: ·)
    else .ok []

def printTim (sec : Int) (s : Clock) : Except Fault Clock := do
  let hexadec ← timDigits 1023 sec
  let text ← cString (hexadec.reverse ++ [0])
  return { s with stores := storeText 0xffffffff800B8EE8 text s.stores }

def tickTimer (s : Clock) : Except Fault Clock := do
  let s ← printTimTxt s
  let s := { s with timerTicks := s.timerTicks + 1 }
  if s.timerTicks.tmod 18 = 0 then
    let s := { s with sec := s.sec + 1 }
    -- `print_tim` takes an `int`
    printTim (s.sec.bmod (2 ^ 32)) s
  else
    return s

def ticks : Nat → Clock → Except Fault Clock
  | 0, s => .ok s
  | n + 1, s => do
    let s ← ticks n s
    tickTimer s

/-! ## What the clock shows -/

/-- A number without the digit of zero. -/
def secondsText (m : Nat) : List UInt8 := (Nat.digits 10 m).reverse.map Numerals.decimalDigit

/-- The cells of row 24 after `n` ticks. -/
def clockFace (n c : Nat) : Option UInt8 :=
  if c < 62 ∨ n = 0 then none
  else if c < 68 then timerWord[c - 62]?
  else (secondsText (n / 18))[c - 68]?

structure Ticked (n : Nat) (s : Clock) : Prop where
  sec : s.sec = (n / 18 : Nat)
  timerTicks : s.timerTicks = n
  cells : ∀ c < 80, Holds s.stores 23 c (clockFace n c)
  inside : ∀ x ∈ s.stores, cellAddr 23 0 ≤ x.1 ∧ x.1 < cellAddr 23 80

section

variable {text : List UInt8} {log : List (Int × UInt8)} {r c₀ c m n : Nat} {s : Clock}

theorem storeText_eq (s : Console) (text : List UInt8) :
    storeText s.video text s.stores = (text.foldl Console.put s).stores := by
  induction text generalizing s with
  | nil => rfl
  | cons c text ih =>
    rw [List.foldl_cons, ← ih, storeText]
    rfl

/-- A cell of a row that a text is put into. -/
theorem holds_storeText (h₀ : c₀ ≤ c) (h : c < c₀ + text.length) :
    Holds (storeText (cellAddr r c₀) text log) r c text[c - c₀]? := by
  rw [storeText_eq ⟨cellAddr r c₀, 1, 1, log⟩]
  apply holds_puts (by omega)
  dsimp only
  rw [cellAddr_eq, cellAddr_eq]
  omega

/-- Another one. -/
theorem Holds.storeText {v : Option UInt8} (hv : Holds log r c v)
    (h : ¬ (c₀ ≤ c ∧ c < c₀ + text.length)) :
    Holds (storeText (cellAddr r c₀) text log) r c v := by
  rw [storeText_eq ⟨cellAddr r c₀, 1, 1, log⟩]
  apply Holds.puts (s := ⟨cellAddr r c₀, 1, 1, log⟩) hv
  dsimp only
  rw [cellAddr_eq, cellAddr_eq]
  omega

theorem storeText_inside (text : List UInt8) {lo hi : Int}
    (h : ∀ x ∈ log, lo ≤ x.1 ∧ x.1 < hi) {adr : Int} (hlo : lo ≤ adr)
    (hhi : adr + 2 * text.length ≤ hi) :
    ∀ x ∈ storeText adr text log, lo ≤ x.1 ∧ x.1 < hi := by
  rw [storeText_eq ⟨adr, 1, 1, log⟩]
  exact foldl_put_stores (s := ⟨adr, 1, 1, log⟩) text h hlo hhi

/-! ## Seconds -/

theorem length_secondsText_le (h : m < 10 ^ 10) : (secondsText m).length ≤ 10 := by
  rw [secondsText, List.length_map, List.length_reverse, Nat.digits_length_le_iff (by decide)]
  exact h

theorem length_secondsText_mono {k : Nat} (h : m ≤ k) :
    (secondsText m).length ≤ (secondsText k).length := by
  simp only [secondsText, List.length_map, List.length_reverse]
  exact Nat.le_length_digits_le 10 m k h

theorem cString_decimal {ds : List Nat} (h : ∀ d ∈ ds, d < 10) :
    cString (ds.map Numerals.decimalDigit ++ [0]) = .ok (ds.map Numerals.decimalDigit) := by
  apply cString_spec
  refine ⟨fun hmem => ?_, [], rfl⟩
  obtain ⟨d, hd, hzero⟩ := List.mem_map.1 hmem
  exact (Numerals.decimalChar_ofNat (h d hd)).2 hzero

/-- The loop finds the digits of a number that the array has room for. -/
theorem timDigits_eq {room : Nat} (h : (Nat.digits 10 m).length ≤ room) :
    timDigits (room + 1) m = .ok ((Nat.digits 10 m).map Numerals.decimalDigit) := by
  induction room generalizing m with
  | zero =>
    have hnil := List.length_eq_zero_iff.1 (Nat.eq_zero_of_le_zero h)
    obtain rfl : m = 0 := Nat.digits_eq_nil_iff_eq_zero.1 hnil
    rw [timDigits, if_neg (by decide), Nat.digits_zero]
    rfl
  | succ room ih =>
    by_cases hm : m = 0
    · rw [hm, timDigits, if_neg (by decide), Nat.digits_zero]
      rfl
    · have hne : (m : Int) ≠ 0 := by exact_mod_cast hm
      have hcons := Nat.digits_eq_cons_digits_div (b := 10) (by decide) hm
      rw [hcons, List.length_cons] at h
      have hdiv : (m : Int).tdiv 10 = (m / 10 : Nat) := rfl
      have hmod : ((m : Int).tmod 10 + 48).toNat = m % 10 + 48 := rfl
      rw [timDigits, if_pos hne, hdiv, hmod, ih (Nat.le_of_succ_le_succ h), hcons, List.map_cons]
      rfl

theorem printTim_eq (s : Clock) (h : m < 10 ^ 10) : printTim m s =
    .ok { s with stores := storeText (cellAddr 23 68) (secondsText m) s.stores } := by
  have hroom : (Nat.digits 10 m).length ≤ 1022 := by
    have hlen := length_secondsText_le h
    rw [secondsText, List.length_map, List.length_reverse] at hlen
    omega
  have hdigits : ∀ d ∈ (Nat.digits 10 m).reverse, d < 10 := fun d hd =>
    Nat.digits_lt_base (by decide) (List.mem_reverse.1 hd)
  have htext := cString_decimal hdigits
  rw [printTim, timDigits_eq hroom, ok_bind, ← List.map_reverse, htext, ok_bind]
  rfl

theorem printTimTxt_eq (s : Clock) : printTimTxt s =
    .ok { s with stores := storeText (cellAddr 23 62) timerWord s.stores } := rfl

/-! ## Runs -/

theorem clockFace_word (hn : 0 < n) (h₀ : 62 ≤ c) (h : c < 67) :
    clockFace n c = timerWord[c - 62]? := by
  rw [clockFace, if_neg (by omega), if_pos (by omega)]

theorem clockFace_seconds (hn : 0 < n) (h : 68 ≤ c) :
    clockFace n c = (secondsText (n / 18))[c - 68]? := by
  rw [clockFace, if_neg (by omega), if_neg (by omega)]

/-- What no text is put into stays. -/
theorem clockFace_succ (hword : ¬ (62 ≤ c ∧ c < 67))
    (h : (n + 1) / 18 = n / 18 ∨ ¬ (68 ≤ c ∧ c < 68 + (secondsText ((n + 1) / 18)).length)) :
    clockFace (n + 1) c = clockFace n c := by
  have hmono : (secondsText (n / 18)).length ≤ (secondsText ((n + 1) / 18)).length :=
    length_secondsText_mono (by omega)
  rcases Nat.lt_or_ge c 68 with hlt | hge
  · have hnone : ∀ n, clockFace n c = none := by
      intro n
      rw [clockFace]
      split_ifs
      · rfl
      · exact List.getElem?_eq_none (show 5 ≤ c - 62 by omega)
    rw [hnone, hnone]
  · rw [clockFace_seconds (Nat.succ_pos n) hge]
    rcases Nat.eq_zero_or_pos n with rfl | hn
    · rw [clockFace, if_pos (Or.inr rfl)]
      rfl
    · rw [clockFace_seconds hn hge, Nat.succ_eq_add_one]
      rcases h with heq | hout
      · rw [heq]
      · rw [List.getElem?_eq_none (by omega), List.getElem?_eq_none (by omega)]

theorem ticked_boot : Ticked 0 Clock.boot := by
  refine ⟨rfl, rfl, fun c _ => ?_, fun x hx => ?_⟩
  · rw [clockFace, if_pos (Or.inr rfl)]
    exact ⟨rfl, fun hne => absurd rfl hne⟩
  · cases hx

/-- A tick puts the word and, when a second has passed, the number of seconds over the one before,
which is not longer. -/
theorem Ticked.tick (h : Ticked n s) (hn : n + 1 < 2 ^ 31) :
    ∃ s', tickTimer s = .ok s' ∧ Ticked (n + 1) s' := by
  have hcount : s.timerTicks + 1 = (n + 1 : Nat) := by
    rw [h.timerTicks]
    rfl
  have hmod : ((n + 1 : Nat) : Int).tmod 18 = ((n + 1) % 18 : Nat) := rfl
  have hlow : cellAddr 23 0 ≤ cellAddr 23 62 ∧ cellAddr 23 0 ≤ cellAddr 23 68 := by decide
  have hinside := storeText_inside timerWord h.inside hlow.1 (by decide)
  rw [tickTimer, printTimTxt_eq, ok_bind]
  dsimp only
  rw [hcount, hmod]
  by_cases hsec : (n + 1) % 18 = 0
  · have hnext : s.sec + 1 = ((n + 1) / 18 : Nat) := by
      rw [h.sec]
      omega
    have hint : (((n + 1) / 18 : Nat) : Int).bmod (2 ^ 32) = ((n + 1) / 18 : Nat) :=
      Int.bmod_eq_of_le (by omega) (by omega)
    have hlen := length_secondsText_le (m := (n + 1) / 18) (by omega)
    rw [if_pos (by rw [hsec]; rfl), hnext, hint, printTim_eq _ (by omega)]
    refine ⟨_, rfl, rfl, rfl, fun c hc => ?_, ?_⟩
    · by_cases hnum : 68 ≤ c ∧ c < 68 + (secondsText ((n + 1) / 18)).length
      · rw [clockFace_seconds (Nat.succ_pos n) hnum.1]
        exact holds_storeText hnum.1 hnum.2
      · refine Holds.storeText ?_ hnum
        by_cases hword : 62 ≤ c ∧ c < 67
        · rw [clockFace_word (Nat.succ_pos n) hword.1 hword.2]
          exact holds_storeText hword.1 hword.2
        · rw [clockFace_succ hword (Or.inr hnum)]
          exact (h.cells c hc).storeText hword
    · refine storeText_inside _ hinside hlow.2 ?_
      rw [cellAddr_eq, cellAddr_eq]
      omega
  · have hsame : (n + 1) / 18 = n / 18 := by omega
    rw [if_neg (by exact_mod_cast hsec)]
    refine ⟨_, rfl, ?_, rfl, fun c hc => ?_, hinside⟩
    · rw [hsame]
      exact h.sec
    · by_cases hword : 62 ≤ c ∧ c < 67
      · rw [clockFace_word (Nat.succ_pos n) hword.1 hword.2]
        exact holds_storeText hword.1 hword.2
      · rw [clockFace_succ hword (Or.inl hsame)]
        exact (h.cells c hc).storeText hword

/-- The other program does not store to the cell. -/
theorem Holds.interleaved {v : Option UInt8} {log₁ log₂ : List (Int × UInt8)}
    (h : Holds log₁ r c v) (hlog : Interleaved log₁ log₂ log)
    (hout : ∀ x ∈ log₂, x.1 < cellAddr r c ∨ cellAddr r c + 2 ≤ x.1) : Holds log r c v := by
  rw [Holds, hlog.lookup_left fun x hx => ?_, hlog.lookup_left fun x hx => ?_]
  · exact h
  · have hx' := hout x hx
    omega
  · have hx' := hout x hx
    omega

theorem ticks_spec (n : Nat) (hn : n < 2 ^ 31) : ∃ s, ticks n Clock.boot = .ok s ∧ Ticked n s := by
  induction n with
  | zero => exact ⟨Clock.boot, rfl, ticked_boot⟩
  | succ n ih =>
    obtain ⟨s, hs, hticked⟩ := ih (Nat.lt_of_succ_lt hn)
    obtain ⟨s', hs', hticked'⟩ := hticked.tick hn
    refine ⟨s', ?_, hticked'⟩
    rw [ticks, hs]
    exact hs'

/-- **Clock.** The stores of a run of `kprintf` and those of the timer interrupts reach the memory
in any order. The first 23 rows show the last page of the text, the row behind them the word and
the number of seconds, and no other byte is stored to. -/
theorem clock_beside_text (calls : List (List UInt8 × List VaArg)) (n : Nat) (hn : n < 2 ^ 31)
    (h : Along kprintfCall CallFits Console.boot calls) :
    ∃ s t k, Run kprintfCall CallFits Console.boot calls s ∧ ShowsPage t (transcript calls) ∧
      ticks n Clock.boot = .ok k ∧ ∀ log, Interleaved s.stores k.stores log →
        (∀ r < 23, ∀ c < 80, Holds log r c (t.cell r c)) ∧
        (∀ c < 80, Holds log 23 c (clockFace n c)) ∧
        ∀ x ∈ log, startpos ≤ x.1 ∧ x.1 < cellAddr 24 0 := by
  obtain ⟨s, hrun, hshows⟩ := shows_run calls h
  obtain ⟨k, hk, hticked⟩ := ticks_spec n hn
  refine ⟨s, _, k, hrun, showsPage_boot.foldl _, hk, fun log hlog => ⟨?_, ?_, ?_⟩⟩
  · intro r hr c hc
    refine (hshows.cells r hr c hc).interleaved hlog fun x hx => ?_
    have hbelow := (hticked.inside x hx).1
    rw [cellAddr_eq] at hbelow ⊢
    omega
  · intro c hc
    refine (hticked.cells c hc).interleaved hlog.symm fun x hx => ?_
    have habove := (hshows.inside x hx).2
    rw [cellAddr_eq] at habove ⊢
    omega
  · intro x hx
    rcases hlog.mem_iff.1 hx with hx | hx
    · have hin := hshows.inside x hx
      rw [cellAddr_eq] at hin ⊢
      omega
    · have hin := hticked.inside x hx
      rw [cellAddr_eq, cellAddr_eq] at hin
      rw [cellAddr_eq]
      omega

/-- Two seconds and a tick. -/
theorem clock_beside_number :
    ∃ s t k, Run kprintfCall CallFits Console.boot numberCalls s ∧
      ShowsPage t (transcript numberCalls) ∧
      ticks 37 Clock.boot = .ok k ∧ ∀ log, Interleaved s.stores k.stores log →
        (∀ r < 23, ∀ c < 80, Holds log r c (t.cell r c)) ∧
        (∀ c < 80, Holds log 23 c (clockFace 37 c)) ∧
        ∀ x ∈ log, startpos ≤ x.1 ∧ x.1 < cellAddr 24 0 :=
  clock_beside_text numberCalls 37 (by decide) along_numberCalls

end

end Sbunix
