import Sbunix.Console
import Sbunix.Keyboard
import Sbunix.Lib.Memory

/-!
# Numerals

`printf_int`, `printf_char`, `print_str` and `print_char` divide by the base until nothing is left,
collect the digits in an array from index 1 on, and copy them in the other order into a second
array. `str_to_int` copies a numeral into an array of ten bytes and adds its digits up from the last
one on.

`numeral_spec` says that the arrays are large enough for every number and what the second one holds
in the end, and `strToInt_spec` which numerals are read back.
-/

namespace Sbunix.Numerals

open Lib

/-! ## Arrays -/

def fetch (array : List UInt8) (i : Nat) : Except Fault UInt8 :=
  match array[i]? with
  | some c => .ok c
  | none => .error .outOfBounds

def store (array : List UInt8) (i : Nat) (c : UInt8) : Except Fault (List UInt8) :=
  if i < array.length then .ok (array.set i c) else .error .outOfBounds

/-! ## The digit loops -/

/-- The `do` loop, with the character of a digit: the index in the end, and the array. -/
def digitLoop (base : UInt64) (char : UInt64 → UInt8) :
    Nat → UInt64 → Nat → List UInt8 → Except Fault (Nat × List UInt8)
  | 0, _, _, _ => .error .diverges
  | fuel + 1, quotient, i, hexadec => do
    let temp := quotient % base
    let hexadec ← store hexadec i (char temp)
    let quotient := quotient / base
    if quotient ≠ 0 then digitLoop base char fuel quotient (i + 1) hexadec
    else .ok (i + 1, hexadec)

/-- The `for` loop, which copies the characters from index `j` down to 1. -/
def reverseLoop (hexadec : List UInt8) : Nat → Nat → List UInt8 → Except Fault (Nat × List UInt8)
  | 0, k, var => .ok (k, var)
  | j + 1, k, var => do
    let c ← fetch hexadec (j + 1)
    let var ← store var k c
    reverseLoop hexadec j (k + 1) var

/-- `hexadec[i] = '\0'`, in the decimal functions only. -/
def endDigits (ends : Bool) (hexadec : List UInt8) (i : Nat) : Except Fault (List UInt8) :=
  if ends then store hexadec i 0 else .ok hexadec

/-- The array `var` behind the loops. -/
def numeral (base : UInt64) (char : UInt64 → UInt8) (ends : Bool) (v : UInt64)
    (hexadec var : List UInt8) : Except Fault (List UInt8) := do
  let (i, hexadec) ← digitLoop base char 64 v 1 hexadec
  let hexadec ← endDigits ends hexadec i
  let (k, var) ← reverseLoop hexadec (i - 1) 0 var
  store var k 0

def decimalChar (temp : UInt64) : UInt8 := (temp + 48).toUInt8

def hexChar (temp : UInt64) : UInt8 :=
  if temp < 10 then (temp + 48).toUInt8 else (temp + 55).toUInt8

/-- `printf_int` of `libc/printf.c`. -/
def printfInt (tarf : UInt64) : List UInt8 → List UInt8 → Except Fault (List UInt8) :=
  numeral 10 decimalChar true tarf

/-- `printf_char` of `libc/printf.c`. -/
def printfChar (decimal : UInt64) : List UInt8 → List UInt8 → Except Fault (List UInt8) :=
  numeral 16 hexChar false decimal

/-- `print_str` of `sys/kprintf.c`. -/
def printStr (tarf : UInt64) : List UInt8 → List UInt8 → Except Fault (List UInt8) :=
  numeral 10 decimalChar true tarf

/-- `print_char` of `sys/kprintf.c`. -/
def printChar (decimal : UInt64) : List UInt8 → List UInt8 → Except Fault (List UInt8) :=
  numeral 16 hexChar false decimal

/-! ## `str_to_int` -/

/-- The first loop: the index of the first NUL or newline. -/
def endLoop : List UInt8 → Except Fault Nat
  | [] => .error .outOfBounds
  | c :: buffer => if c ≠ 0 ∧ c ≠ '\n'.toUInt8 then (endLoop buffer).map (· + 1) else .ok 0

/-- The second loop, for the `pos` first characters. -/
def valueLoop : Nat → List UInt8 → Int32 → Int32 → Except Fault Int32
  | 0, _, val, _ => .ok val
  | pos + 1, buffer, val, io => do
    let c := (← fetch buffer pos) - 48
    let buffer ← store buffer pos c
    valueLoop pos buffer (val + c.toInt8.toInt32 * io) (io * 10)

def strToInt (str : List UInt8) : Except Fault Int32 := do
  let buffer ← strcpy (List.replicate 10 0) str
  let pos ← endLoop buffer
  valueLoop pos buffer 0 1

/-! ## Numerals -/

def decimalDigit (d : Nat) : UInt8 := UInt8.ofNat (d + 48)

/-- With upper-case letters. -/
def hexDigit (d : Nat) : UInt8 := UInt8.ofNat (if d < 10 then d + 48 else d + 55)

/-- The canonical numeral of `v`, which has no zero in front of another digit. -/
def Canonical (base : Nat) (char : Nat → UInt8) (v : Nat) (text : List UInt8) : Prop :=
  ∃ ds : List Nat, text = ds.map char ∧ (∀ d ∈ ds, d < base) ∧ Nat.ofDigits base ds.reverse = v ∧
    (ds = [0] ∨ ∃ d ds', ds = d :: ds' ∧ d ≠ 0)

/-- In arrays of 1024 bytes, whatever they hold, the loops leave the string `text`. -/
def Prints (loops : List UInt8 → List UInt8 → Except Fault (List UInt8)) (text : List UInt8) :
    Prop :=
  ∀ hexadec var, hexadec.length = 1024 → var.length = 1024 →
    ∃ var', loops hexadec var = .ok var' ∧ IsStr var' text

/-- `str_to_int` of the string is `n`. -/
def ReadsBack (text : List UInt8) (n : Nat) : Prop :=
  ∀ str, IsStr str text → ∃ r, strToInt str = .ok r ∧ r.toInt = n

section

variable {base : Nat} {q v : UInt64} {fuel n : Nat} {char : UInt64 → UInt8}

/-- The digits that the loop finds, in its order. -/
theorem reverse_digits (hbase : 1 < base) (q : UInt64) : (digits base q).reverse =
    (q.toNat % base) :: if q.toNat / base = 0 then [] else Nat.digits base (q.toNat / base) := by
  rw [digits, List.reverse_reverse]
  by_cases hq : q = 0
  · rw [if_pos hq, hq]
    simp
  · have hne : q.toNat ≠ 0 := fun h => hq (UInt64.toNat_inj.1 h)
    rw [if_neg hq, Nat.digits_eq_cons_digits_div hbase hne]
    split_ifs with hdiv
    · rw [hdiv, Nat.digits_zero]
    · rfl

theorem digits_of_div (hbase : 1 < base) (hlt : base < 2 ^ 64) (q : UInt64) :
    (digits base q).reverse = (q.toNat % base) ::
      if q / UInt64.ofNat base = 0 then [] else (digits base (q / UInt64.ofNat base)).reverse := by
  have hdiv : (q / UInt64.ofNat base).toNat = q.toNat / base := by
    rw [UInt64.toNat_div, toNat_ofNat_of_lt hlt]
  rw [reverse_digits hbase]
  by_cases hzero : q / UInt64.ofNat base = 0
  · rw [if_pos hzero, if_pos (by rw [← hdiv, hzero]; rfl)]
  · have hne : q.toNat / base ≠ 0 := by
      rw [← hdiv]
      exact fun h => hzero (UInt64.toNat_inj.1 h)
    rw [if_neg hzero, if_neg hne, digits, List.reverse_reverse, if_neg hzero, hdiv]

/-! ## The digit loops -/

theorem fetch_append (front : List UInt8) (c : UInt8) (back : List UInt8) :
    fetch (front ++ c :: back) front.length = .ok c := by
  rw [fetch, List.getElem?_append_right le_rfl, Nat.sub_self, List.getElem?_cons_zero]

theorem store_append (front : List UInt8) (c d : UInt8) (back : List UInt8) :
    store (front ++ d :: back) front.length c = .ok (front ++ c :: back) := by
  rw [store, if_pos, List.set_append_right front.length c le_rfl, Nat.sub_self, List.set_cons_zero]
  rw [List.length_append, List.length_cons]
  omega

/-- The digits are put behind what the array has in front of them. -/
theorem digitLoop_spec (hbase : 1 < base) (hlt : base < 2 ^ 64) (hfuel : q.toNat < base ^ fuel)
    (hpos : 0 < fuel) {front back : List UInt8} (hroom : fuel ≤ back.length) :
    ∃ back', digitLoop (UInt64.ofNat base) char fuel q front.length (front ++ back) =
      .ok (front.length + (digits base q).length,
        front ++ (digits base q).reverse.map (fun d => char (UInt64.ofNat d)) ++ back') ∧
      back'.length + (digits base q).length = back.length := by
  induction fuel generalizing q front back with
  | zero => exact absurd hpos (Nat.lt_irrefl 0)
  | succ fuel ih =>
    cases back with
    | nil => exact absurd hroom (Nat.not_succ_le_zero fuel)
    | cons c back =>
      have hdigits := digits_of_div hbase hlt q
      have hmod : q % UInt64.ofNat base = UInt64.ofNat (q.toNat % base) := by
        apply UInt64.toNat_inj.1
        rw [UInt64.toNat_mod, toNat_ofNat_of_lt hlt, toNat_ofNat_of_lt]
        exact Nat.lt_of_le_of_lt (Nat.mod_le _ _) q.toNat_lt
      have hlen := congrArg List.length hdigits
      rw [List.length_reverse, List.length_cons] at hlen
      rw [digitLoop, store_append, ok_bind, hmod, hdigits]
      by_cases hdiv : q / UInt64.ofNat base = 0
      · rw [if_pos hdiv, List.length_nil] at hlen
        rw [if_neg (not_not.2 hdiv), if_pos hdiv, hlen]
        refine ⟨back, ?_, rfl⟩
        rw [List.map_cons, List.map_nil, List.append_assoc]
        rfl
      · have hquot : (q / UInt64.ofNat base).toNat = q.toNat / base := by
          rw [UInt64.toNat_div, toNat_ofNat_of_lt hlt]
        have hless : (q / UInt64.ofNat base).toNat < base ^ fuel := by
          rw [hquot]
          apply Nat.div_lt_of_lt_mul
          rwa [← pow_succ']
        have hfuel' : 0 < fuel := by
          apply Nat.pos_of_ne_zero
          rintro rfl
          rw [pow_zero, Nat.lt_one_iff] at hless
          exact hdiv (UInt64.toNat_inj.1 hless)
        obtain ⟨back', hrun, hback'⟩ := @ih (q / UInt64.ofNat base) hless hfuel'
          (front ++ [char (UInt64.ofNat (q.toNat % base))]) back (Nat.le_of_succ_le_succ hroom)
        rw [if_neg hdiv, List.length_reverse] at hlen
        rw [List.length_append, List.length_singleton, List.append_assoc] at hrun
        refine ⟨back', ?_, by rw [List.length_cons, hlen]; omega⟩
        rw [if_pos hdiv, if_neg hdiv, List.map_cons, hlen]
        refine hrun.trans ?_
        rw [Nat.add_assoc, Nat.add_comm 1, List.append_assoc, List.append_assoc, List.append_assoc]
        rfl

theorem reverseLoop_spec (first : UInt8) (text rest front back : List UInt8)
    (hroom : text.length ≤ back.length) :
    ∃ back', reverseLoop (first :: text ++ rest) text.length front.length (front ++ back) =
      .ok (front.length + text.length, front ++ text.reverse ++ back') ∧
      back'.length + text.length = back.length := by
  induction text using List.reverseRecOn generalizing rest front back with
  | nil => exact ⟨back, by rw [List.reverse_nil, List.append_nil]; rfl, rfl⟩
  | append_singleton text c ih =>
    rw [List.length_append, List.length_singleton] at hroom ⊢
    cases back with
    | nil => exact absurd hroom (Nat.not_succ_le_zero _)
    | cons d back =>
      obtain ⟨back', hrun, hback'⟩ := ih (c :: rest) (front ++ [c]) back
        (Nat.le_of_succ_le_succ hroom)
      rw [List.length_append, List.length_singleton, List.append_assoc] at hrun
      have harray : first :: (text ++ [c]) ++ rest = first :: text ++ c :: rest := by
        rw [List.cons_append, List.append_assoc]
        rfl
      have hfetch := fetch_append (first :: text) c rest
      refine ⟨back', ?_, by rw [List.length_cons]; omega⟩
      rw [reverseLoop, harray]
      rw [List.length_cons] at hfetch
      rw [hfetch, ok_bind, store_append, ok_bind]
      refine hrun.trans ?_
      rw [Nat.add_assoc, Nat.add_comm 1, List.reverse_append, List.reverse_singleton,
        List.append_assoc, List.append_assoc, List.append_assoc]
      rfl

/-! ## The numerals that are printed -/

theorem length_digits_le (hbase : 1 < base) (v : UInt64) : (digits base v).length ≤ 64 := by
  rw [digits, List.length_reverse]
  split_ifs
  · exact Nat.le_of_ble_eq_true rfl
  · rw [Nat.digits_length_le_iff hbase]
    exact Nat.lt_of_lt_of_le v.toNat_lt (Nat.pow_le_pow_left hbase 64)

theorem lt_of_mem_digits (hbase : 1 < base) {v : UInt64} {d : Nat} (hd : d ∈ digits base v) :
    d < base := by
  rw [digits, List.mem_reverse] at hd
  split_ifs at hd
  · rw [List.mem_singleton.1 hd]
    exact Nat.zero_lt_of_lt hbase
  · exact Nat.digits_lt_base hbase hd

/-- The NUL behind the digits comes into an element that is not copied. -/
theorem endDigits_spec (ends : Bool) (front : List UInt8) {rest : List UInt8} (hrest : rest ≠ []) :
    ∃ rest', endDigits ends (front ++ rest) front.length = .ok (front ++ rest') := by
  obtain ⟨c, rest, rfl⟩ := List.exists_cons_of_ne_nil hrest
  cases ends with
  | false => exact ⟨c :: rest, rfl⟩
  | true => exact ⟨0 :: rest, store_append front 0 c rest⟩

/-- The loops leave the digits of the number, which are those that the console prints, in the second
array and a NUL behind them. -/
theorem numeral_spec {digit : Nat → UInt8} (hbase : 1 < base) (hlt : base < 2 ^ 64) (ends : Bool)
    (v : UInt64) (hchar : ∀ d < base, char (UInt64.ofNat d) = digit d)
    (hdigit : ∀ d < base, digit d ≠ 0) :
    Prints (numeral (UInt64.ofNat base) char ends v) ((digits base v).map digit) := by
  intro hexadec var hhexadec hvar
  have hfuel : v.toNat < base ^ 64 := Nat.lt_of_lt_of_le v.toNat_lt (Nat.pow_le_pow_left hbase 64)
  have hlen := length_digits_le hbase v
  cases hexadec with
  | nil => cases hhexadec
  | cons first hexadec =>
    rw [List.length_cons] at hhexadec
    obtain ⟨rest, hloop, hrest⟩ := @digitLoop_spec base v 64 char hbase hlt hfuel (by decide)
      [first] hexadec (by omega)
    have htext : (digits base v).reverse.map (fun d => char (UInt64.ofNat d)) =
        ((digits base v).map digit).reverse := by
      rw [← List.map_reverse]
      apply List.map_congr_left
      intro d hd
      exact hchar d (lt_of_mem_digits hbase (List.mem_reverse.1 hd))
    have hnul : 0 ∉ (digits base v).map digit := by
      intro hmem
      obtain ⟨d, hd, hzero⟩ := List.mem_map.1 hmem
      exact hdigit d (lt_of_mem_digits hbase hd) hzero
    rw [htext] at hloop
    set text := (digits base v).map digit with hdef
    have htextLen : text.length = (digits base v).length := List.length_map _
    rw [← htextLen] at hloop hrest hlen
    have hroom : rest ≠ [] := by
      rintro rfl
      rw [List.length_nil] at hrest
      omega
    obtain ⟨rest', hends⟩ := endDigits_spec ends ([first] ++ text.reverse) hroom
    have hfront : [first] ++ text.reverse ++ rest' = first :: text.reverse ++ rest' := rfl
    rw [List.length_append, List.length_reverse, hfront] at hends
    obtain ⟨back, hreverse, hback⟩ := reverseLoop_spec first text.reverse rest' [] var
      (by rw [List.length_reverse]; omega)
    rw [List.length_reverse, List.reverse_reverse] at hreverse
    rw [List.length_reverse] at hback
    cases back with
    | nil =>
      rw [List.length_nil] at hback
      omega
    | cons c back =>
      refine ⟨text ++ 0 :: back, ?_, hnul, back, rfl⟩
      rw [numeral]
      have hone : [first].length = 1 := rfl
      rw [hone] at hloop hends
      rw [show first :: hexadec = [first] ++ hexadec from rfl, hloop, ok_bind]
      simp only [hends, ok_bind, Nat.add_sub_cancel_left]
      rw [List.nil_append, List.length_nil, Nat.zero_add] at hreverse
      rw [hreverse, ok_bind]
      exact store_append text 0 c back

theorem ofDigits_reverse_digits (base : Nat) (v : UInt64) :
    Nat.ofDigits base (digits base v).reverse = v.toNat := by
  rw [digits, List.reverse_reverse]
  split_ifs with hv
  · rw [hv]
    rfl
  · exact Nat.ofDigits_digits base v.toNat

/-- There is one canonical numeral of a number. -/
theorem canonical_iff {digit : Nat → UInt8} {text : List UInt8} (hbase : 1 < base) :
    Canonical base digit v.toNat text ↔ text = (digits base v).map digit := by
  have hzero : v.toNat = 0 ↔ v = 0 := UInt64.toNat_inj (b := 0)
  constructor
  · rintro ⟨ds, rfl, hlt, hvalue, rfl | ⟨d, ds', rfl, hne⟩⟩
    · rw [digits, if_pos (hzero.1 hvalue.symm)]
      rfl
    · have hdigits : Nat.digits base v.toNat = (d :: ds').reverse := by
        rw [← hvalue]
        apply Nat.digits_ofDigits base hbase
        · intro l hl
          exact hlt l (List.mem_reverse.1 hl)
        · intro h
          rwa [List.getLast_reverse]
      have hv : v ≠ 0 := by
        intro hv
        rw [hzero.2 hv, Nat.digits_zero, eq_comm, List.reverse_eq_nil_iff] at hdigits
        exact List.cons_ne_nil d ds' hdigits
      rw [digits, if_neg hv, hdigits, List.reverse_reverse]
  · rintro rfl
    refine ⟨digits base v, rfl, fun d hd => lt_of_mem_digits hbase hd,
      ofDigits_reverse_digits base v, ?_⟩
    · rw [digits]
      split_ifs with hv
      · exact Or.inl rfl
      · right
        have hne := mt hzero.1 hv
        have hnil : Nat.digits base v.toNat ≠ [] := Nat.digits_ne_nil_iff_ne_zero.2 hne
        refine ⟨(Nat.digits base v.toNat).getLast hnil,
          ((Nat.digits base v.toNat).dropLast).reverse, ?_, Nat.getLast_digit_ne_zero base hne⟩
        conv_lhs => rw [← List.dropLast_append_getLast hnil]
        rw [List.reverse_append]
        rfl

theorem decimalChar_ofNat {d : Nat} (hd : d < 10) :
    decimalChar (UInt64.ofNat d) = decimalDigit d ∧ decimalDigit d ≠ 0 := by
  interval_cases d <;> exact ⟨rfl, by decide⟩

theorem hexChar_ofNat {d : Nat} (hd : d < 16) :
    hexChar (UInt64.ofNat d) = hexDigit d ∧ hexDigit d ≠ 0 := by
  interval_cases d <;> exact ⟨rfl, by decide⟩

/-! ## The numerals that are read -/

theorem endLoop_spec {text : List UInt8} {c : UInt8} (rest : List UInt8)
    (htext : ∀ x ∈ text, x ≠ 0 ∧ x ≠ '\n'.toUInt8) (hc : ¬ (c ≠ 0 ∧ c ≠ '\n'.toUInt8)) :
    endLoop (text ++ c :: rest) = .ok text.length := by
  induction text with
  | nil => exact if_neg hc
  | cons x text ih =>
    rw [List.forall_mem_cons] at htext
    rw [List.cons_append, endLoop, if_pos htext.1, ih htext.2]
    rfl

/-- A digit as the number that is added. -/
theorem decimalDigit_value {d : Nat} (hd : d < 10) :
    (decimalDigit d - 48).toInt8.toInt32 = Int32.ofNat d := by
  interval_cases d <;> rfl

/-- The digits from the last one on, times a power of ten. -/
theorem valueLoop_spec {ds : List Nat} (hds : ∀ d ∈ ds, d < 10) (rest : List UInt8)
    (val io : Int32) :
    valueLoop ds.length (ds.reverse.map decimalDigit ++ rest) val io =
      .ok (val + Int32.ofNat (Nat.ofDigits 10 ds) * io) := by
  induction ds generalizing rest val io with
  | nil =>
    rw [Nat.ofDigits_nil]
    change Except.ok val = Except.ok (val + 0 * io)
    rw [Int32.zero_mul, Int32.add_zero]
  | cons d ds ih =>
    rw [List.forall_mem_cons] at hds
    have hfront : (ds.reverse.map decimalDigit).length = ds.length := by
      rw [List.length_map, List.length_reverse]
    have harray : (d :: ds).reverse.map decimalDigit ++ rest =
        ds.reverse.map decimalDigit ++ decimalDigit d :: rest := by
      rw [List.reverse_cons, List.map_append, List.append_assoc]
      rfl
    have hfetch := fetch_append (ds.reverse.map decimalDigit) (decimalDigit d) rest
    have hstore := store_append (ds.reverse.map decimalDigit) (decimalDigit d - 48)
      (decimalDigit d) rest
    rw [hfront] at hfetch hstore
    rw [List.length_cons, harray, valueLoop, hfetch, ok_bind]
    simp only [hstore, ok_bind]
    rw [ih hds.2, decimalDigit_value hds.1, Nat.ofDigits_cons, Int32.ofNat_add, Int32.ofNat_mul,
      Int32.add_mul, Int32.add_assoc, Int32.mul_comm (Int32.ofNat 10), Int32.mul_assoc,
      Int32.mul_comm io]
    rfl

/-- A numeral that fits in the buffer, with what stands behind it, is read back. -/
theorem strToInt_spec {tail : List UInt8} (hlt : v.toNat < 10 ^ 9)
    (htail : tail = [] ∨ tail = ['\n'.toUInt8])
    (hlen : (digits 10 v).length + tail.length < 10) :
    ReadsBack ((digits 10 v).map decimalDigit ++ tail) v.toNat := by
  intro str hstr
  refine ⟨Int32.ofNat v.toNat, ?_, Int32.toInt_ofNat_of_lt (by omega)⟩
  have hcopy := sstrcpy_eq (List.replicate 10 0) hstr
    (by rw [List.length_append, List.length_map, List.length_replicate]; exact hlen)
  have hchars : ∀ x ∈ (digits 10 v).map decimalDigit, x ≠ 0 ∧ x ≠ '\n'.toUInt8 := by
    intro x hx
    obtain ⟨d, hd, rfl⟩ := List.mem_map.1 hx
    have hd' := lt_of_mem_digits (by decide) hd
    interval_cases d <;> decide
  obtain ⟨c, rest, hc, hbuffer⟩ : ∃ c rest, ¬ (c ≠ 0 ∧ c ≠ '\n'.toUInt8) ∧
      tail ++
          0 :: (List.replicate 10 0).drop (((digits 10 v).map decimalDigit ++ tail).length + 1) =
        c :: rest := by
    rcases htail with rfl | rfl
    · exact ⟨0, _, fun h => h.1 rfl, rfl⟩
    · exact ⟨'\n'.toUInt8, _, fun h => h.2 rfl, rfl⟩
  rw [List.append_assoc, hbuffer] at hcopy
  have hend := endLoop_spec rest hchars hc
  have hvalue := @valueLoop_spec (digits 10 v).reverse
    (fun d hd => lt_of_mem_digits (by decide) (List.mem_reverse.1 hd)) (c :: rest) 0 1
  rw [List.reverse_reverse, List.length_reverse, ofDigits_reverse_digits, Int32.mul_one,
    Int32.zero_add] at hvalue
  rw [List.length_map] at hend
  rw [strToInt, strcpy, hcopy, ok_bind, hend, ok_bind, hvalue]

theorem length_decimal_le (hlt : v.toNat < 10 ^ n) (hpos : 0 < n) : (digits 10 v).length ≤ n := by
  rw [digits, List.length_reverse]
  split_ifs
  · exact hpos
  · exact (Nat.digits_length_le_iff (by decide) _).2 hlt

/-- **Numerals.** The decimal functions print the same canonical numeral of every number, and so do
the hexadecimal ones. The decimal one is read back up to nine digits, and up to eight with a newline
behind it. -/
theorem numerals (v : UInt64) :
    ∃ decimal hexadecimal, Canonical 10 decimalDigit v.toNat decimal ∧
      Canonical 16 hexDigit v.toNat hexadecimal ∧
      Prints (printfInt v) decimal ∧ Prints (printStr v) decimal ∧
      Prints (printfChar v) hexadecimal ∧ Prints (printChar v) hexadecimal ∧
      (v.toNat < 10 ^ 9 → ReadsBack decimal v.toNat) ∧
      (v.toNat < 10 ^ 8 → ReadsBack (decimal ++ ['\n'.toUInt8]) v.toNat) := by
  have hdec := @numeral_spec 10 decimalChar decimalDigit (by decide) (by decide) true v
    (fun d hd => (decimalChar_ofNat hd).1) (fun d hd => (decimalChar_ofNat hd).2)
  have hhex := @numeral_spec 16 hexChar hexDigit (by decide) (by decide) false v
    (fun d hd => (hexChar_ofNat hd).1) (fun d hd => (hexChar_ofNat hd).2)
  refine ⟨_, _, (canonical_iff (by decide)).2 rfl, (canonical_iff (by decide)).2 rfl, hdec, hdec,
    hhex, hhex, ?_, ?_⟩
  · intro hlt
    have hread := @strToInt_spec v [] hlt (Or.inl rfl)
      (Nat.lt_succ_of_le (length_decimal_le hlt (by decide)))
    rwa [List.append_nil] at hread
  · intro hlt
    have hlen := length_decimal_le hlt (by decide)
    exact strToInt_spec (by omega) (Or.inr rfl) (by rw [List.length_singleton]; omega)

end

end Sbunix.Numerals
