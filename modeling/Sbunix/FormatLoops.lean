import Sbunix.Printf

/-!
# The loops of printf and kprintf

Both loops advance `i` behind a percent sign without a look at the character they skip, so a format
in which a percent sign is the last character is read on behind its terminator. `turns` is a format
as the loops walk through it: there the terminator is a directive.

`printf` gives every piece of its text to `write`. `printfWith` is its loop over any `write`, and
`printfWith_map` compares two of them. With a `write` that only notes what it prints, the text of
`printf` can be put beside the text of `kprintf` (`format_loops_iff`).
-/

namespace Sbunix

open Lib

/-! ## The loop of printf -/

section

variable {α β : Type}

/-- `printfDirective`, with `put` for `printfStr`. -/
def printfDirectiveWith (put : List UInt8 → α → Except Fault α) (c : UInt8) (args : List VaArg)
    (a : α) : Except Fault (List VaArg × α) :=
  if c = 'p'.toUInt8 ∨ c = 'x'.toUInt8 then
    match args with
    | .word v :: args =>
      (put ((digits 16 v).map (fun d => UInt8.ofNat (if d < 10 then d + 48 else d + 55)) ++ [0])
        a).map fun a => (args, a)
    | _ => .error .outOfBounds
  else if c = 'd'.toUInt8 then
    match args with
    | .word v :: args =>
      (put ((digits 10 v).map (fun d => UInt8.ofNat (d + 48)) ++ [0]) a).map fun a => (args, a)
    | _ => .error .outOfBounds
  else if c = 'c'.toUInt8 then
    match args with
    | .word v :: args => (put [v.toUInt8, 0] a).map fun a => (args, a)
    | _ => .error .outOfBounds
  else if c = 's'.toUInt8 then
    match args with
    | .pointer str :: args => (put str a).map fun a => (args, a)
    | _ => .error .outOfBounds
  else .ok (args, a)

/-- `printf`, with `put` for `printfStr`. -/
def printfWith (put : List UInt8 → α → Except Fault α) :
    List UInt8 → List VaArg → α → Except Fault α
  | [], _, _ => .error .outOfBounds
  | c :: fmt, args, a =>
    if c = '%'.toUInt8 then
      match fmt with
      | [] => .error .outOfBounds
      | c :: fmt => do
        let (args, a) ← printfDirectiveWith put c args a
        printfWith put fmt args a
    else if c = 0 then .ok a
    else do
      let a ← put [c, 0] a
      printfWith put fmt args a

/-- The characters of an array before the first NUL. -/
theorem isStr_append_nul (text rest : List UInt8) :
    IsStr (text ++ 0 :: rest) (text.takeWhile (· ≠ 0)) := by
  induction text with
  | nil => exact isStr_nil_iff.2 ⟨rest, rfl⟩
  | cons c text ih =>
    by_cases hc : c = 0
    · subst hc
      exact isStr_nil_iff.2 ⟨text ++ 0 :: rest, rfl⟩
    · rw [List.takeWhile_cons_of_pos (by simpa using hc)]
      exact isStr_cons_iff.2 ⟨hc, _, rfl, ih⟩

/-- A string argument. -/
theorem isStr_cString {b text : List UInt8} (h : cString b = .ok text) :
    IsStr b (text.takeWhile (· ≠ 0)) := by
  induction b generalizing text with
  | nil => cases h
  | cons c b ih =>
    rw [cString] at h
    split_ifs at h with hc
    · obtain ⟨text, htext, rfl⟩ := map_eq_ok.1 h
      rw [List.takeWhile_cons_of_pos (by simpa using hc)]
      exact isStr_cons_iff.2 ⟨hc, _, rfl, ih htext⟩
    · obtain rfl := Except.ok.inj h
      rw [not_not.1 hc]
      exact isStr_nil_iff.2 ⟨b, rfl⟩

theorem printfDirectiveWith_printfStr :
    printfDirectiveWith printfStr = printfDirective := by
  funext c args s
  rfl

theorem printfWith_cons (put : List UInt8 → α → Except Fault α) (c : UInt8) (fmt : List UInt8)
    (args : List VaArg) (a : α) :
    printfWith put (c :: fmt) args a =
      if c = '%'.toUInt8 then
        match fmt with
        | [] => .error .outOfBounds
        | c :: fmt => do
          let (args, a) ← printfDirectiveWith put c args a
          printfWith put fmt args a
      else if c = 0 then .ok a
      else put [c, 0] a >>= printfWith put fmt args := by
  rw [printfWith.eq_def]

/-- The loop is the one of `printf`. -/
theorem printfWith_printfStr (fmt : List UInt8) (args : List VaArg) (s : Console) :
    printfWith printfStr fmt args s = printf fmt args s := by
  induction hn : fmt.length using Nat.strong_induction_on generalizing fmt args s with
  | _ n ih =>
    subst hn
    cases fmt with
    | nil => rfl
    | cons c fmt =>
      rw [printfWith_cons, printf.eq_def]
      by_cases hpercent : c = '%'.toUInt8
      · simp only [if_pos hpercent]
        cases fmt with
        | nil => rfl
        | cons c fmt =>
          rw [printfDirectiveWith_printfStr]
          apply bind_congr
          intro r
          exact ih _ (by simp) _ _ _ rfl
      · simp only [if_neg hpercent]
        by_cases hc : c = 0
        · rw [if_pos hc, if_pos hc]
        · rw [if_neg hc, if_neg hc]
          apply bind_congr
          intro s
          exact ih _ (by simp) _ _ _ rfl

/-- A directive gives a string away, or it faults for want of an argument, or it does nothing. -/
theorem printfDirectiveWith_cases (c : UInt8) (args : List VaArg) :
    (∃ b args', (∀ {α : Type} (put : List UInt8 → α → Except Fault α) a,
        printfDirectiveWith put c args a = (put b a).map fun a => (args', a)) ∧
      ∀ args'' text, directiveText c args = .ok (args'', text) →
        args'' = args' ∧ IsStr b (text.takeWhile (· ≠ 0))) ∨
    ((∀ {α : Type} (put : List UInt8 → α → Except Fault α) a,
        printfDirectiveWith put c args a = .error .outOfBounds) ∧
      directiveText c args = .error .outOfBounds) ∨
    (∀ {α : Type} (put : List UInt8 → α → Except Fault α) a,
        printfDirectiveWith put c args a = .ok (args, a)) ∧
      directiveText c args = .ok (args, []) := by
  have hgiven : ∀ {b text : List UInt8} (args' : List VaArg), IsStr b (text.takeWhile (· ≠ 0)) →
      ∀ args'' text', (Except.ok (args', text) : Except Fault _) = .ok (args'', text') →
        args'' = args' ∧ IsStr b (text'.takeWhile (· ≠ 0)) := by
    intro b text args' hstr args'' text' h
    cases h
    exact ⟨rfl, hstr⟩
  unfold printfDirectiveWith directiveText
  split_ifs
  · cases args with
    | nil => exact Or.inr (Or.inl ⟨fun _ _ => rfl, rfl⟩)
    | cons arg args =>
      cases arg with
      | pointer str => exact Or.inr (Or.inl ⟨fun _ _ => rfl, rfl⟩)
      | word v => exact Or.inl ⟨_, _, fun _ _ => rfl, hgiven args (isStr_append_nul _ _)⟩
  · cases args with
    | nil => exact Or.inr (Or.inl ⟨fun _ _ => rfl, rfl⟩)
    | cons arg args =>
      cases arg with
      | pointer str => exact Or.inr (Or.inl ⟨fun _ _ => rfl, rfl⟩)
      | word v => exact Or.inl ⟨_, _, fun _ _ => rfl, hgiven args (isStr_append_nul _ _)⟩
  · cases args with
    | nil => exact Or.inr (Or.inl ⟨fun _ _ => rfl, rfl⟩)
    | cons arg args =>
      cases arg with
      | pointer str => exact Or.inr (Or.inl ⟨fun _ _ => rfl, rfl⟩)
      | word v =>
        exact Or.inl ⟨_, _, fun _ _ => rfl, hgiven args (isStr_append_nul [v.toUInt8] [])⟩
  · cases args with
    | nil => exact Or.inr (Or.inl ⟨fun _ _ => rfl, rfl⟩)
    | cons arg args =>
      cases arg with
      | word v => exact Or.inr (Or.inl ⟨fun _ _ => rfl, rfl⟩)
      | pointer str =>
        refine Or.inl ⟨_, _, fun _ _ => rfl, fun args'' text h => ?_⟩
        obtain ⟨text, htext, heq⟩ := map_eq_ok.1 h
        obtain ⟨rfl, rfl⟩ := Prod.mk.inj heq
        exact ⟨rfl, isStr_cString htext⟩
  · exact Or.inr (Or.inr ⟨fun _ _ => rfl, rfl⟩)

/-- What two loops do with the strings can be compared string by string. -/
theorem printfWith_map {put : List UInt8 → α → Except Fault α}
    {put' : List UInt8 → β → Except Fault β} {f : α → β}
    (hput : ∀ str a, put' str (f a) = (put str a).map f) (fmt : List UInt8) (args : List VaArg)
    (a : α) : printfWith put' fmt args (f a) = (printfWith put fmt args a).map f := by
  have hdirective : ∀ c args a, printfDirectiveWith put' c args (f a) =
      (printfDirectiveWith put c args a).map (Prod.map id f) := by
    intro c args a
    obtain ⟨b, args', hwith, -⟩ | ⟨hwith, -⟩ | ⟨hwith, -⟩ := printfDirectiveWith_cases c args
    · rw [hwith, hwith, hput]
      cases put b a <;> rfl
    · rw [hwith, hwith]
      rfl
    · rw [hwith, hwith]
      rfl
  induction hn : fmt.length using Nat.strong_induction_on generalizing fmt args a with
  | _ n ih =>
    subst hn
    cases fmt with
    | nil => rfl
    | cons c fmt =>
      rw [printfWith_cons, printfWith_cons]
      split_ifs with hpercent hc
      · cases fmt with
        | nil => rfl
        | cons c fmt =>
          simp only [hdirective]
          cases printfDirectiveWith put c args a with
          | error e => rfl
          | ok r => exact ih _ (by simp) _ _ _ rfl
      · rfl
      · rw [hput]
        cases put [c, 0] a with
        | error e => rfl
        | ok a => exact ih _ (by simp) _ _ _ rfl

end

/-! ## The turns of the loops -/

/-- A turn of the loop: a character, or a percent sign with the character behind it. -/
inductive Turn
  | plain (c : UInt8)
  | percent (c : UInt8)
deriving DecidableEq

/-- The turns of a format before the loop is at its terminator, or behind it. -/
def turns : List UInt8 → List Turn
  | [] => []
  | c :: s =>
    if c = '%'.toUInt8 then
      match s with
      | [] => [.percent 0]
      | d :: s => .percent d :: turns s
    else .plain c :: turns s

/-- The arguments a turn leaves, and its text. -/
def Turn.text : Turn → List VaArg → Except Fault (List VaArg × List UInt8)
  | .plain c, args => .ok (args, [c])
  | .percent c, args => directiveText c args

/-- The turns with their texts, when there are enough arguments. -/
def texts : List Turn → List VaArg → Except Fault (List (Turn × List UInt8))
  | [], _ => .ok []
  | t :: ts, args => do
    let (args, text) ← t.text args
    (texts ts args).map ((t, text) :: ·)

section

variable {s : List UInt8} {args args' : List VaArg} {t : Turn} {ts : List Turn}
  {items : List (Turn × List UInt8)} {text : List UInt8}

theorem turns_cons (c : UInt8) (s : List UInt8) :
    turns (c :: s) = if c = '%'.toUInt8 then
      match s with
      | [] => [.percent 0]
      | d :: s => .percent d :: turns s
    else .plain c :: turns s := by
  rw [turns.eq_def]

theorem turns_plain {c : UInt8} (hc : c ≠ '%'.toUInt8) (s : List UInt8) :
    turns (c :: s) = .plain c :: turns s := by
  rw [turns_cons, if_neg hc]

theorem turns_percent (d : UInt8) (s : List UInt8) :
    turns ('%'.toUInt8 :: d :: s) = .percent d :: turns s := by
  rw [turns_cons, if_pos rfl]

/-- Induction along the loops: a format ends, or it ends in a percent sign, or it starts with a
turn. -/
theorem turns_induction {P : List UInt8 → Prop} (nil : P []) (last : P ['%'.toUInt8])
    (plain : ∀ c s, c ≠ '%'.toUInt8 → P s → P (c :: s))
    (percent : ∀ d s, P s → P ('%'.toUInt8 :: d :: s)) (s : List UInt8) : P s := by
  induction hn : s.length using Nat.strong_induction_on generalizing s with
  | _ n ih =>
    subst hn
    cases s with
    | nil => exact nil
    | cons c s =>
      by_cases hc : c = '%'.toUInt8
      · subst hc
        cases s with
        | nil => exact last
        | cons d s => exact percent d s (ih _ (by simp only [List.length_cons]; omega) s rfl)
      · exact plain c s hc (ih _ (by simp) s rfl)

theorem texts_cons (h : texts (t :: ts) args = .ok items) :
    ∃ args' text rest, t.text args = .ok (args', text) ∧ texts ts args' = .ok rest ∧
      items = (t, text) :: rest := by
  obtain ⟨⟨args', text⟩, htext, h⟩ := bind_eq_ok.1 h
  obtain ⟨rest, hrest, rfl⟩ := map_eq_ok.1 h
  exact ⟨args', text, rest, htext, hrest, rfl⟩

/-! ## Where they end -/

theorem percent_mem_plain (c : UInt8) (ts : List Turn) :
    Turn.percent 0 ∈ Turn.plain c :: ts ↔ Turn.percent 0 ∈ ts := by
  simp

theorem percent_mem_percent {d : UInt8} (hd : 0 ≠ d) (ts : List Turn) :
    Turn.percent 0 ∈ Turn.percent d :: ts ↔ Turn.percent 0 ∈ ts := by
  simp [hd]

/-- A directive that finds its argument, with a `put` that does not fail. -/
theorem printfDirectiveWith_ok {α : Type} {put : List UInt8 → α → Except Fault α} {d : UInt8}
    (hput : ∀ str a, ∃ a', put str a = .ok a') (h : directiveText d args = .ok (args', text))
    (a : α) : ∃ a', printfDirectiveWith put d args a = .ok (args', a') := by
  obtain ⟨b, args'', hwith, htext⟩ | ⟨-, hfault⟩ | ⟨hwith, hnone⟩ :=
    printfDirectiveWith_cases d args
  · obtain ⟨a', ha'⟩ := hput b a
    refine ⟨a', ?_⟩
    rw [hwith, ha', (htext _ _ h).1]
    rfl
  · rw [hfault] at h
    cases h
  · rw [hnone] at h
    cases h
    exact ⟨a, hwith put a⟩

/-- **The end of printf.** Whatever becomes of the strings, the loop ends at the terminator, or it
is past it. -/
theorem printfWith_end {α : Type} {put : List UInt8 → α → Except Fault α}
    (hput : ∀ str a, ∃ a', put str a = .ok a') (hs : 0 ∉ s)
    (hargs : texts (turns s) args = .ok items) (a : α) :
    (∃ a', printfWith put (s ++ [0]) args a = .ok a') ↔ .percent 0 ∉ turns s := by
  induction s using turns_induction generalizing args a items with
  | nil => exact iff_of_true ⟨a, rfl⟩ List.not_mem_nil
  | last =>
    refine iff_of_false ?_ (fun h => h List.mem_cons_self)
    rintro ⟨a', h⟩
    cases h
  | plain c s hc ih =>
    rw [List.mem_cons, not_or] at hs
    rw [turns_plain hc] at hargs ⊢
    obtain ⟨args', text, rest, htext, hrest, -⟩ := texts_cons hargs
    cases htext
    obtain ⟨a', ha'⟩ := hput [c, 0] a
    rw [percent_mem_plain, ← ih hs.2 hrest a', List.cons_append, printfWith_cons, if_neg hc,
      if_neg (Ne.symm hs.1), ha', ok_bind]
  | percent d s ih =>
    rw [List.mem_cons, List.mem_cons, not_or, not_or] at hs
    rw [turns_percent] at hargs ⊢
    obtain ⟨args', text, rest, htext, hrest, -⟩ := texts_cons hargs
    obtain ⟨a', ha'⟩ := printfDirectiveWith_ok hput htext a
    rw [percent_mem_percent hs.2.1, ← ih hs.2.2 hrest a', List.cons_append, printfWith_cons,
      if_pos rfl]
    show (∃ a', (printfDirectiveWith put d args a >>= _) = _) ↔ _
    rw [ha', ok_bind]
    exact Iff.rfl

/-- The outputs of `kprintf` for a turn. -/
def kernelOutput : Turn × List UInt8 → Output
  | (.plain c, _) => outputOf c
  | (.percent _, text) => .chars text

/-- **The end of kprintf.** -/
theorem format_end (hs : 0 ∉ s) (hargs : texts (turns s) args = .ok items) :
    format (s ++ [0]) args =
      if .percent 0 ∈ turns s then .error .outOfBounds
      else .ok (items.map kernelOutput, []) := by
  induction s using turns_induction generalizing args items with
  | nil =>
    cases hargs
    rfl
  | last =>
    have hmem : Turn.percent 0 ∈ turns ['%'.toUInt8] := List.mem_cons_self
    rw [if_pos hmem]
    rfl
  | plain c s hc ih =>
    rw [List.mem_cons, not_or] at hs
    rw [turns_plain hc] at hargs ⊢
    obtain ⟨args', text, rest, htext, hrest, rfl⟩ := texts_cons hargs
    cases htext
    simp only [percent_mem_plain]
    rw [List.cons_append, format_char (Ne.symm hs.1) hc, ih hs.2 hrest]
    split_ifs <;> rfl
  | percent d s ih =>
    rw [List.mem_cons, List.mem_cons, not_or, not_or] at hs
    rw [turns_percent] at hargs ⊢
    obtain ⟨args', text, rest, htext, hrest, rfl⟩ := texts_cons hargs
    simp only [percent_mem_percent hs.2.1]
    rw [List.cons_append, format_cons, if_neg (by decide), if_neg (by decide), if_pos rfl]
    show (directiveText d args >>= _) = _
    rw [show directiveText d args = _ from htext, ok_bind]
    show (format (s ++ [0]) args').map _ = _
    rw [ih hs.2.2 hrest]
    split_ifs <;> rfl

/-! ## The text -/

/-- What `kprintf` prints for a string that `printf` gives to `write`. -/
def callOutputs (string : List UInt8) : Except Fault (List Output) := do
  let _ ← strlen string
  (format string []).map Prod.fst

/-- A `put` that notes the outputs of the calls, the last one last. -/
def noteCall (string : List UInt8) (calls : List (List Output)) :
    Except Fault (List (List Output)) :=
  (callOutputs string).map fun os => calls ++ [os]

/-- The console after some calls. -/
def Console.runCalls (s : Console) (calls : List (List Output)) : Console :=
  calls.foldl (fun s os => (os.foldl Console.exec s).checkWidth) s

theorem printfStr_eq (string : List UInt8) (s : Console) :
    printfStr string s =
      (callOutputs string).map fun os => (os.foldl Console.exec s).checkWidth := by
  rw [printfStr, callOutputs]
  cases strlen string with
  | error e => rfl
  | ok len =>
    rw [ok_bind, ok_bind, write, if_neg (by decide), sysWrite_eq (Or.inr (by decide)),
      kprintfFrom_eq]
    cases format string [] <;> rfl

/-- **The text of printf.** The calls that `printf` makes are the ones that are noted. -/
theorem printf_eq_runCalls (fmt : List UInt8) (args : List VaArg) (s : Console) :
    printf fmt args s = (printfWith noteCall fmt args []).map s.runCalls := by
  rw [← printfWith_printfStr]
  apply printfWith_map (f := s.runCalls) (a := [])
  intro str calls
  rw [printfStr_eq, noteCall]
  cases callOutputs str with
  | error e => rfl
  | ok os =>
    apply congrArg Except.ok
    simp [Console.runCalls, List.foldl_append]

theorem noteCall_string {b str : List UInt8} (h : IsStr b str) (hpercent : '%'.toUInt8 ∉ str)
    (calls : List (List Output)) : noteCall b calls = .ok (calls ++ [str.map outputOf]) := by
  obtain ⟨hnul, rest, rfl⟩ := h
  have hend : format (0 :: rest) [] = .ok ([], rest) := by
    rw [format_cons, if_neg (by decide), if_neg (by decide), if_neg (by decide), if_pos rfl]
  rw [noteCall, callOutputs, strlen_spec ⟨hnul, rest, rfl⟩, ok_bind,
    format_append hnul hpercent, hend]
  simp [Except.map]

/-- The outputs of `printf` for a turn. -/
def userOutputs : Turn × List UInt8 → List Output
  | (.plain c, _) => [outputOf c]
  | (.percent _, text) => (text.takeWhile (· ≠ 0)).map outputOf

/-- The calls that `printf` makes, when it gives away no percent sign. -/
theorem printfWith_noteCall (hs : 0 ∉ s) (hargs : texts (turns s) args = .ok items)
    (hend : .percent 0 ∉ turns s)
    (hpercent : ∀ d text, (.percent d, text) ∈ items → '%'.toUInt8 ∉ text)
    (calls : List (List Output)) :
    ∃ calls', printfWith noteCall (s ++ [0]) args calls = .ok calls' ∧
      calls'.flatten = calls.flatten ++ items.flatMap userOutputs := by
  induction s using turns_induction generalizing args items calls with
  | nil =>
    cases hargs
    exact ⟨calls, rfl, (List.append_nil _).symm⟩
  | last => exact absurd List.mem_cons_self hend
  | plain c s hc ih =>
    rw [List.mem_cons, not_or] at hs
    rw [turns_plain hc] at hargs hend
    obtain ⟨args', text, rest, htext, hrest, rfl⟩ := texts_cons hargs
    cases htext
    rw [percent_mem_plain] at hend
    have hstr : IsStr [c, 0] [c] := ⟨by simpa using hs.1, [], rfl⟩
    obtain ⟨calls', hcalls, hflat⟩ := ih hs.2 hrest hend
      (fun d text hit => hpercent d text (List.mem_cons_of_mem _ hit)) (calls ++ [[outputOf c]])
    refine ⟨calls', ?_, ?_⟩
    · rw [List.cons_append, printfWith_cons, if_neg hc, if_neg (Ne.symm hs.1),
        noteCall_string hstr (by simpa using Ne.symm hc), ok_bind]
      exact hcalls
    · rw [hflat, List.flatten_append, List.append_assoc]
      rfl
  | percent d s ih =>
    rw [List.mem_cons, List.mem_cons, not_or, not_or] at hs
    rw [turns_percent] at hargs hend
    obtain ⟨args', text, rest, htext, hrest, rfl⟩ := texts_cons hargs
    rw [percent_mem_percent hs.2.1] at hend
    rw [List.cons_append, printfWith_cons, if_pos rfl]
    show ∃ calls', (printfDirectiveWith noteCall d args calls >>= _) = _ ∧ _
    have hnext := ih hs.2.2 hrest hend fun d text hit =>
      hpercent d text (List.mem_cons_of_mem _ hit)
    obtain ⟨b, args'', hwith, hb⟩ | ⟨-, hfault⟩ | ⟨hwith, hnone⟩ :=
      printfDirectiveWith_cases d args
    · obtain ⟨rfl, hstr⟩ := hb _ _ htext
      have hno : '%'.toUInt8 ∉ text.takeWhile (· ≠ 0) := fun hmem =>
        hpercent d text List.mem_cons_self ((List.takeWhile_prefix _).subset hmem)
      obtain ⟨calls', hcalls, hflat⟩ :=
        hnext (calls ++ [(text.takeWhile (· ≠ 0)).map outputOf])
      refine ⟨calls', ?_, ?_⟩
      · rw [hwith, noteCall_string hstr hno]
        exact hcalls
      · rw [hflat, List.flatten_append, List.append_assoc]
        simp [userOutputs]
    · rw [show directiveText d args = _ from htext] at hfault
      cases hfault
    · rw [show directiveText d args = _ from htext] at hnone
      cases hnone
      obtain ⟨calls', hcalls, hflat⟩ := hnext calls
      exact ⟨calls', by rw [hwith]; exact hcalls, hflat⟩

/-- The characters, newlines and backspaces of an output, one by one. -/
def Output.cells : Output → List Output
  | .chars text => text.map fun c => .chars [c]
  | o => [o]

theorem cells_outputOf (c : UInt8) : (outputOf c).cells = [outputOf c] := by
  unfold outputOf
  split_ifs <;> rfl

theorem outputOf_eq_chars_iff (c : UInt8) :
    outputOf c = .chars [c] ↔ c ≠ '\n'.toUInt8 ∧ c ≠ '\x08'.toUInt8 := by
  unfold outputOf
  split_ifs with hnewline hback
  · exact iff_of_false (fun h => by cases h) fun h => h.1 hnewline
  · exact iff_of_false (fun h => by cases h) fun h => h.2 hback
  · exact iff_of_true rfl ⟨hnewline, hback⟩

/-- Two texts put together from pieces of which one's are never the longer ones. -/
theorem flatMap_eq_iff {α β : Type*} {f g : α → List β} {l : List α}
    (hle : ∀ x, (f x).length ≤ (g x).length) :
    l.flatMap f = l.flatMap g ↔ ∀ x ∈ l, f x = g x := by
  refine ⟨fun h => ?_, List.flatMap_congr⟩
  induction l with
  | nil => exact fun x hx => absurd hx List.not_mem_nil
  | cons a l ih =>
    have hrest : (l.flatMap f).length ≤ (l.flatMap g).length := by
      rw [List.length_flatMap, List.length_flatMap]
      exact List.sum_le_sum fun x _ => hle x
    rw [List.flatMap_cons, List.flatMap_cons] at h
    have hlen := congrArg List.length h
    rw [List.length_append, List.length_append] at hlen
    have hhead := hle a
    obtain ⟨hfirst, hnext⟩ := List.append_inj h (by omega)
    exact List.forall_mem_cons.2 ⟨hfirst, ih hnext⟩

/-! ## The two together -/

/-- A turn of the formats that the two functions share: no newline, no backspace, one of the five
directives, and no percent sign in an argument. -/
def PlainTurn : Turn × List UInt8 → Prop
  | (.plain c, _) => c ≠ '\n'.toUInt8 ∧ c ≠ '\x08'.toUInt8
  | (.percent d, text) => d ∈ ['d', 'x', 'p', 'c', 's'].map Char.toUInt8 ∧ '%'.toUInt8 ∉ text

/-- The argument of the turn has no character that the console takes as a command, and no NUL. -/
def PrintableTurn : Turn × List UInt8 → Prop
  | (.plain _, _) => True
  | (.percent _, text) => ∀ c ∈ text, c ≠ 0 ∧ c ≠ '\n'.toUInt8 ∧ c ≠ '\x08'.toUInt8

/-- What is asked of the loops: both end without a byte behind the terminator, and they print the
same text. -/
structure FormatLoops (s : List UInt8) (args : List VaArg) (items : List (Turn × List UInt8)) :
    Prop where
  user : ∀ put : List UInt8 → Console → Except Fault Console,
    (∀ str con, ∃ con', put str con = .ok con') →
      ∀ con, ∃ con', printfWith put (s ++ [0]) args con = .ok con'
  kernel : ∀ con, ∃ con', kprintfFrom (s ++ [0]) args con = .ok ([], con')
  text : (∀ it ∈ items, PlainTurn it) → ∃ calls os,
    printfWith noteCall (s ++ [0]) args [] = .ok calls ∧ format (s ++ [0]) args = .ok (os, []) ∧
      calls.flatten.flatMap Output.cells = os.flatMap Output.cells

theorem cells_userOutputs (it : Turn × List UInt8) :
    (userOutputs it).flatMap Output.cells = userOutputs it := by
  have hall : ∀ str : List UInt8, (str.map outputOf).flatMap Output.cells = str.map outputOf := by
    intro str
    induction str with
    | nil => rfl
    | cons c str ih =>
      rw [List.map_cons, List.flatMap_cons, ih, cells_outputOf]
      rfl
  obtain ⟨t, text⟩ := it
  cases t with
  | plain c => exact hall [c]
  | percent d => exact hall _

/-- `printf` never prints more for a turn. -/
theorem length_userOutputs_le (it : Turn × List UInt8) :
    (userOutputs it).length ≤ (kernelOutput it).cells.length := by
  obtain ⟨t, text⟩ := it
  cases t with
  | plain c =>
    rw [kernelOutput, cells_outputOf]
    rfl
  | percent d =>
    rw [userOutputs, kernelOutput, Output.cells, List.length_map, List.length_map]
    exact (List.takeWhile_prefix _).length_le

theorem userOutputs_eq_iff (it : Turn × List UInt8) :
    userOutputs it = (kernelOutput it).cells ↔ PrintableTurn it := by
  obtain ⟨t, text⟩ := it
  cases t with
  | plain c =>
    rw [kernelOutput, cells_outputOf]
    exact iff_of_true rfl trivial
  | percent d =>
    rw [userOutputs, kernelOutput, Output.cells, PrintableTurn]
    constructor
    · intro h
      have hlen := congrArg List.length h
      rw [List.length_map, List.length_map] at hlen
      have hall := (List.takeWhile_prefix _).eq_of_length hlen
      rw [hall] at h
      intro c hc
      refine ⟨by simpa using List.takeWhile_eq_self_iff.1 hall c hc, ?_⟩
      exact (outputOf_eq_chars_iff c).1 (List.map_inj_left.1 h c hc)
    · intro h
      have hall : text.takeWhile (· ≠ 0) = text :=
        List.takeWhile_eq_self_iff.2 fun c hc => by simpa using (h c hc).1
      rw [hall]
      exact List.map_inj_left.2 fun c hc => (outputOf_eq_chars_iff c).2 (h c hc).2

/-- **Format loops.** With enough arguments the two loops do what is asked of them exactly when no
percent sign is left over at the end of the format and, in the formats they share, every argument is
printable. -/
theorem format_loops_iff (hs : 0 ∉ s) (hargs : texts (turns s) args = .ok items) :
    FormatLoops s args items ↔ .percent 0 ∉ turns s ∧
      ((∀ it ∈ items, PlainTurn it) → ∀ it ∈ items, PrintableTurn it) := by
  have hsame : ∀ calls : List (List Output), calls.flatten = items.flatMap userOutputs →
      (calls.flatten.flatMap Output.cells = (items.map kernelOutput).flatMap Output.cells ↔
        ∀ it ∈ items, PrintableTurn it) := by
    intro calls hcalls
    rw [hcalls, List.flatMap_assoc, List.flatMap_map, funext cells_userOutputs,
      flatMap_eq_iff length_userOutputs_le]
    exact forall₂_congr fun it _ => userOutputs_eq_iff it
  constructor
  · intro h
    let put : List UInt8 → Console → Except Fault Console := fun _ con => .ok con
    have hput : ∀ str con, ∃ con', put str con = .ok con' := fun _ con => ⟨con, rfl⟩
    have hend := (printfWith_end hput hs hargs Console.boot).1 (h.user put hput _)
    refine ⟨hend, fun hplain => ?_⟩
    obtain ⟨calls, os, hcalls, hos, heq⟩ := h.text hplain
    obtain ⟨calls', hcalls', hflat⟩ := printfWith_noteCall hs hargs hend
      (fun d text hit => (hplain _ hit).2) []
    rw [format_end hs hargs, if_neg hend] at hos
    rw [hcalls] at hcalls'
    cases hcalls'
    cases hos
    exact (hsame calls hflat).1 heq
  · rintro ⟨hend, hprintable⟩
    refine ⟨fun put hput con => (printfWith_end hput hs hargs con).2 hend, fun con => ?_,
      fun hplain => ?_⟩
    · refine ⟨((items.map kernelOutput).foldl Console.exec con).checkWidth, ?_⟩
      rw [kprintfFrom_eq, format_end hs hargs, if_neg hend]
      rfl
    · obtain ⟨calls, hcalls, hflat⟩ := printfWith_noteCall hs hargs hend
        (fun d text hit => (hplain _ hit).2) []
      refine ⟨calls, items.map kernelOutput, hcalls, ?_, (hsame calls hflat).2 (hprintable hplain)⟩
      rw [format_end hs hargs, if_neg hend]

end

/-- `"a%s"` with a string. -/
theorem format_loops_string :
    FormatLoops [97, 37, 115] [.pointer [104, 105, 0]]
      [(.plain 97, [97]), (.percent 115, [104, 105])] :=
  have hchars : ∀ c ∈ ([104, 105] : List UInt8),
      c ≠ 0 ∧ c ≠ '\n'.toUInt8 ∧ c ≠ '\x08'.toUInt8 :=
    List.forall_mem_cons.2 ⟨by decide, List.forall_mem_singleton.2 (by decide)⟩
  (format_loops_iff (by decide) rfl).2 ⟨by decide, fun _ =>
    List.forall_mem_cons.2 ⟨trivial, List.forall_mem_singleton.2 hchars⟩⟩

/-- `"100%"`. -/
theorem format_loops_fails :
    ¬ FormatLoops [49, 48, 48, 37] []
      [(.plain 49, [49]), (.plain 48, [48]), (.plain 48, [48]), (.percent 0, [])] := by
  intro h
  obtain ⟨con, hcon⟩ := h.kernel Console.boot
  cases hcon

end Sbunix
