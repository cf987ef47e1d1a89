import Sbunix.Lib.Words
import Sbunix.Shell

/-!
# Command lines

The splitter of `performCommand` starts a token behind every separator, so that its tokens are the
fields of the line (`splitLoop_ok`). They are its words exactly when no separator starts the line
or stands behind another one: an empty field is stored and counted like a word.

`memset` clears more than a row of `arglist`, but the rows are filled from the first one on, and
each one is filled after the row in front of it has been cleared (`fillRow_spec`).
-/

namespace Sbunix

open Lib

/-- A space or a newline. -/
def isSep (c : UInt8) : Bool := c = '\n'.toUInt8 ∨ c = ' '.toUInt8

/-- The names of the built-in commands. -/
def builtinNames : List (List UInt8) :=
  [['l', 's'], ['c', 'a', 't'], ['e', 'c', 'h', 'o'], ['p', 's'], ['k', 'i', 'l', 'l']].map
    (·.map Char.toUInt8)

/-- `/bin/`. -/
def binPrefix : List UInt8 := ['/', 'b', 'i', 'n', '/'].map Char.toUInt8

/-- The name of a built-in command for its path, and every other word as it is. -/
def shorten (w : List UInt8) : List UInt8 :=
  if ∃ name ∈ builtinNames, w = binPrefix ++ name then w.drop 5 else w

namespace Shell

/-- A turn of the splitter has stored a token. -/
def storeToken (s : Shell) (w : List UInt8) : Shell :=
  { s.written .commands (s.n * 100) (w ++ [0]) with n := s.n + 1 }

/-- The tokens have been stored in the rows from `n` on. -/
def storeTokens : List (List UInt8) → Shell → Shell
  | [], s => s
  | w :: ws, s => storeTokens ws (s.storeToken w)

section

variable {allowed : Store → Prop} [DecidablePred allowed] {s s' : Shell} {line w bs : List UInt8}
  {ws : List (List UInt8)} {d : UInt8} {i k fuel : Nat}

/-! ## The splitter -/

/-- The inner loop stops at a separator and at the terminator. -/
theorem stops_iff (c : UInt8) :
    ¬ (c ≠ 0 ∧ c ≠ '\n'.toUInt8 ∧ c ≠ ' '.toUInt8) ↔ c = 0 ∨ isSep c := by
  simp [isSep]
  tauto

/-- A character, and the rest of the token. -/
theorem written_token (s : Shell) (c : UInt8) (w : List UInt8) (k : Nat) :
    (s.written .commands (s.n * 100 + k) [c]).written .commands (s.n * 100 + (k + 1)) w =
      s.written .commands (s.n * 100 + k) (c :: w) := by
  exact written_written

/-- The inner loop, when it comes to its end. -/
theorem copyToken_ok {r : Nat × Shell} (hw : ∀ c ∈ w, c ≠ 0 ∧ ¬ isSep c) (hd : d = 0 ∨ isSep d)
    (h : copyToken allowed (w ++ d :: bs) k s = .ok r) :
    r = (k + w.length, s.written .commands (s.n * 100 + k) w) := by
  induction w generalizing k s with
  | nil =>
    rw [List.nil_append, copyToken, if_neg ((stops_iff d).2 hd)] at h
    rw [written_nil]
    exact (Except.ok.inj h).symm
  | cons c w ih =>
    rw [List.forall_mem_cons] at hw
    rw [List.cons_append, copyToken,
      if_pos (not_not.1 (mt (stops_iff c).1 (not_or.2 hw.1)))] at h
    obtain ⟨s₁, hput, h⟩ := bind_eq_ok.1 h
    obtain rfl := put_ok hput
    rw [ih hw.2 h, ← written_token, List.length_cons, Nat.add_assoc, Nat.add_comm 1]
    rfl

theorem copyToken_eq (hw : ∀ c ∈ w, c ≠ 0 ∧ ¬ isSep c) (hd : d = 0 ∨ isSep d)
    (hallowed : ∀ j < w.length, allowed ⟨.commands, s.n, k + j, 1⟩) :
    copyToken allowed (w ++ d :: bs) k s =
      .ok (k + w.length, s.written .commands (s.n * 100 + k) w) := by
  induction w generalizing k s with
  | nil =>
    rw [List.nil_append, copyToken, if_neg ((stops_iff d).2 hd), written_nil]
    rfl
  | cons c w ih =>
    rw [List.forall_mem_cons] at hw
    rw [List.length_cons] at hallowed
    rw [List.cons_append, copyToken, if_pos (not_not.1 (mt (stops_iff c).1 (not_or.2 hw.1))),
      put_of_allowed (hallowed 0 (by omega)), ok_bind, ih hw.2]
    · rw [← written_token, List.length_cons, Nat.add_assoc, Nat.add_comm 1]
      rfl
    · intro j hj
      have := hallowed (j + 1) (by omega)
      rwa [Nat.add_comm j, ← Nat.add_assoc] at this

/-- The bytes behind a position of the line. -/
theorem bytes_line (hline : IsStr (s.bytes .ipCommand 0 0) line) (hi : i ≤ line.length) :
    ∃ rest, s.bytes .ipCommand 0 i = line.drop i ++ 0 :: rest := by
  obtain ⟨-, rest, hrest⟩ := hline
  refine ⟨rest, ?_⟩
  have hdrop := bytes_drop s .ipCommand 0 0 i
  rw [Nat.zero_add, hrest, List.drop_append_of_le_length hi] at hdrop
  exact hdrop

/-- The first field from a position on, as the splitter meets it. -/
theorem bytes_field (hline : IsStr (s.bytes .ipCommand 0 0) line) (hi : i < line.length) :
    ∃ w d bs, s.bytes .ipCommand 0 i = w ++ d :: bs ∧ (∀ c ∈ w, c ≠ 0 ∧ ¬ isSep c) ∧
      (d = 0 ∨ isSep d) ∧ i + w.length ≤ line.length ∧
      fields isSep (line.drop i) = w :: fields isSep (line.drop (i + w.length + 1)) := by
  have hne : line.drop i ≠ [] := by
    rw [Ne, List.drop_eq_nil_iff]
    omega
  obtain ⟨rest, hrest⟩ := bytes_line hline (Nat.le_of_lt hi)
  have hnul : 0 ∉ line.drop i := fun hmem => hline.1 (List.mem_of_mem_drop hmem)
  obtain ⟨w, hw, hfields, hl⟩ := fields_split (p := isSep) hne
  rw [List.drop_drop, ← Nat.add_assoc] at hfields
  have hlen : line.length - i = (line.drop i).length := List.length_drop.symm
  rcases hl with hl | ⟨a, after, ha, hl⟩
  · rw [hl] at hlen
    refine ⟨w, 0, rest, by rw [hrest, ← hl], fun c hc => ⟨?_, hw c hc⟩, Or.inl rfl, by omega,
      hfields⟩
    rintro rfl
    exact hnul (hl ▸ hc)
  · rw [hl, List.length_append] at hlen
    refine ⟨w, a, after ++ 0 :: rest, ?_, fun c hc => ⟨?_, hw c hc⟩, Or.inr ha, by omega,
      hfields⟩
    · rw [hrest, hl, List.append_assoc]
      rfl
    · rintro rfl
      exact hnul (hl ▸ List.mem_append_left _ hc)

theorem isStr_storeToken (hline : IsStr (s.bytes .ipCommand 0 0) line) (w : List UInt8) :
    IsStr ((s.storeToken w).bytes .ipCommand 0 0) line := by
  have hne : Table.ipCommand ≠ Table.commands := by decide
  have hsame : (s.written .commands (s.n * 100) (w ++ [0])).bytes .ipCommand 0 0 =
      s.bytes .ipCommand 0 0 := bytes_written_of_ne hne
  exact hsame.symm ▸ hline

/-- The token and the NUL behind it. -/
theorem storeToken_eq (s : Shell) (w : List UInt8) :
    { (s.written .commands (s.n * 100 + 0) w).written .commands (s.n * 100 + 0 + w.length) [0] with
      n := s.n + 1 } = s.storeToken w := by
  rw [written_written]
  rfl

/-- A turn of the outer loop. -/
theorem splitLoop_turn {s₁ : Shell} (hline : IsStr (s.bytes .ipCommand 0 0) line)
    (hi : i < line.length) (hbytes : s.bytes .ipCommand 0 i = w ++ d :: bs)
    (htoken : copyToken allowed (w ++ d :: bs) 0 s =
      .ok (0 + w.length, s.written .commands (s.n * 100 + 0) w))
    (hput : (s.written .commands (s.n * 100 + 0) w).put allowed .commands s.n (0 + w.length) [0] =
      .ok s₁) :
    splitLoop allowed (fuel + 1) i s = splitLoop allowed fuel (i + w.length + 1)
      (s.storeToken w) := by
  rw [splitLoop, strlen_spec hline, ok_bind, if_pos hi, hbytes, htoken, ok_bind]
  dsimp only
  rw [written_n, hput, ok_bind, put_ok hput, Nat.zero_add]
  exact congrArg _ (storeToken_eq s w)

/-- The splitter stores the fields of the line. -/
theorem splitLoop_ok (hline : IsStr (s.bytes .ipCommand 0 0) line)
    (h : splitLoop allowed fuel i s = .ok s') :
    s' = storeTokens (fields isSep (line.drop i)) s := by
  induction fuel generalizing i s with
  | zero => cases h
  | succ fuel ih =>
    have hturn := h
    rw [splitLoop, strlen_spec hline, ok_bind] at hturn
    by_cases hi : i < line.length
    · obtain ⟨w, d, bs, hbytes, hw, hd, -, hfields⟩ := bytes_field hline hi
      rw [if_pos hi, hbytes] at hturn
      obtain ⟨r, htoken, hturn⟩ := bind_eq_ok.1 hturn
      obtain rfl := copyToken_ok hw hd htoken
      obtain ⟨s₁, hput, -⟩ := bind_eq_ok.1 hturn
      rw [splitLoop_turn hline hi hbytes htoken hput] at h
      rw [hfields]
      exact ih (isStr_storeToken hline w) h
    · rw [if_neg hi] at hturn
      rw [List.drop_of_length_le (by omega)]
      exact (Except.ok.inj hturn).symm

theorem storeTokens_n (ws : List (List UInt8)) (s : Shell) :
    (storeTokens ws s).n = s.n + ws.length := by
  induction ws generalizing s with
  | nil => rfl
  | cons w ws ih =>
    rw [storeTokens, ih, List.length_cons]
    simp [storeToken]
    omega

theorem splitCommand_n (hs : IsStr (s.bytes .ipCommand 0 0) line)
    (h : s.splitCommand allowed = .ok s') : s'.n = (fields isSep line).length := by
  have hline : IsStr (({ s with n := 0 } : Shell).bytes .ipCommand 0 0) line := hs
  rw [splitLoop_ok hline h, storeTokens_n, List.drop_zero]
  exact Nat.zero_add _

/-- And it does so when there are at most ten, of at most 99 characters. -/
theorem splitLoop_eq (hallowed : ∀ st : Store, st.table = .commands → st.InArray → allowed st)
    (hline : IsStr (s.bytes .ipCommand 0 0) line) (hi : i ≤ line.length + 1)
    (hfuel : line.length + 2 ≤ i + fuel)
    (hrows : s.n + (fields isSep (line.drop i)).length ≤ 10)
    (hcols : ∀ w ∈ fields isSep (line.drop i), w.length ≤ 99) :
    splitLoop allowed fuel i s = .ok (storeTokens (fields isSep (line.drop i)) s) := by
  induction fuel generalizing i s with
  | zero => omega
  | succ fuel ih =>
    by_cases hend : i < line.length
    · obtain ⟨w, d, bs, hbytes, hw, hd, hle, hfields⟩ := bytes_field hline hend
      rw [hfields] at hrows hcols ⊢
      rw [List.length_cons] at hrows
      obtain ⟨hcol, hcols⟩ := List.forall_mem_cons.1 hcols
      have hin : ∀ k ≤ w.length, allowed ⟨.commands, s.n, k, 1⟩ := by
        intro k hk
        apply hallowed _ rfl
        show s.n * 100 + k + 1 ≤ 1000
        omega
      have htoken : copyToken allowed (w ++ d :: bs) 0 s =
          .ok (0 + w.length, s.written .commands (s.n * 100 + 0) w) :=
        copyToken_eq hw hd fun j hj => hin (0 + j) (by omega)
      rw [splitLoop_turn hline hend hbytes htoken (put_of_allowed (hin (0 + w.length) (by omega)))]
      exact ih (isStr_storeToken hline w) (by omega) (by omega)
        (by show s.n + 1 + _ ≤ 10; omega) hcols
    · rw [splitLoop, strlen_spec hline, ok_bind, if_neg hend, List.drop_of_length_le (by omega)]
      rfl

/-- The tokens, and the strings in front of them. -/
theorem storeTokens_holds (hnul : ∀ w ∈ ws, 0 ∉ w) (hcols : ∀ w ∈ ws, w.length ≤ 99)
    (hrows : s.n + ws.length ≤ 10) :
    (∀ j w, j < s.n → w.length ≤ 99 → s.Holds .commands (j * 100) w →
      (storeTokens ws s).Holds .commands (j * 100) w) ∧
    ∀ j w, ws[j]? = some w → (storeTokens ws s).Holds .commands ((s.n + j) * 100) w := by
  induction ws generalizing s with
  | nil => exact ⟨fun j w _ _ h => h, fun j w h => by cases h⟩
  | cons v ws ih =>
    rw [List.forall_mem_cons] at hnul hcols
    rw [List.length_cons] at hrows
    obtain ⟨hkept, hstored⟩ := ih (s := s.storeToken v) hnul.2 hcols.2
      (by show s.n + 1 + _ ≤ 10; omega)
    have hroom : s.n * 100 + v.length < Table.size .commands := by
      show _ < 1000
      omega
    have hv : (s.storeToken v).Holds .commands (s.n * 100) v :=
      (holds_written hnul.1 hroom).of_mem rfl
    constructor
    · intro j w hj hw h
      apply hkept j w (Nat.lt_succ_of_lt hj) hw
      have hapart : (s.written .commands (s.n * 100) (v ++ [0])).Holds .commands (j * 100) w :=
        h.written fun _ => Or.inl (by omega)
      exact hapart.of_mem rfl
    · intro j w hw
      cases j with
      | zero =>
        obtain rfl := Option.some.inj hw
        exact hkept s.n v (Nat.lt_succ_self _) hcols.1 hv
      | succ j =>
        have := hstored j w hw
        rwa [show (s.storeToken v).n + j = s.n + (j + 1) by show s.n + 1 + j = _; omega] at this

/-! ## The arguments -/

theorem shorten_length_le (w : List UInt8) : (shorten w).length ≤ w.length := by
  unfold shorten
  split_ifs
  · rw [List.length_drop]
    omega
  · exact Nat.le_refl _

theorem not_mem_shorten (h : 0 ∉ w) : 0 ∉ shorten w := by
  unfold shorten
  split_ifs
  · exact fun hmem => h (List.mem_of_mem_drop hmem)
  · exact h

/-- A chain of tests against names and their paths, none of the names being a path. -/
theorem argumentOf_pairs {command : List UInt8} (h : IsStr command w) {names : List (List UInt8)}
    (hnul : ∀ name ∈ names, 0 ∉ name) (hplain : ∀ name ∈ names, ¬ binPrefix <+: name) :
    ∃ argument, argumentOf command
        (names.map fun name => (binPrefix ++ name ++ [0], name ++ [0])) = .ok argument ∧
      IsStr argument (if ∃ name ∈ names, w = binPrefix ++ name then w.drop 5 else w) := by
  induction names with
  | nil => exact ⟨command, rfl, by rwa [if_neg (by simp)]⟩
  | cons name names ih =>
    rw [List.forall_mem_cons] at hnul hplain
    have hbin : 0 ∉ binPrefix := by decide
    have hname : IsStr (name ++ [0]) name := ⟨hnul.1, [], rfl⟩
    have hpath : IsStr (binPrefix ++ name ++ [0]) (binPrefix ++ name) :=
      ⟨by rw [List.mem_append]; exact not_or.2 ⟨hbin, hnul.1⟩, [], rfl⟩
    obtain ⟨r, hr, hzero⟩ := libcStrcmp_spec h hpath
    obtain ⟨r', hr', hzero'⟩ := libcStrcmp_spec h hname
    rw [List.map_cons, argumentOf, hr, ok_bind, hr', ok_bind]
    by_cases hw : w = binPrefix ++ name
    · rw [if_pos (hzero.2 hw), if_pos ⟨name, List.mem_cons_self, hw⟩, hw]
      exact ⟨_, rfl, hname⟩
    · rw [if_neg (mt hzero.1 hw)]
      by_cases hw' : w = name
      · rw [if_pos (hzero'.2 hw'), if_neg]
        · exact ⟨_, rfl, hw' ▸ hname⟩
        · rintro ⟨other, -, hother⟩
          exact hplain.1 ⟨other, by rw [← hother, hw']⟩
      · rw [if_neg (mt hzero'.1 hw')]
        simpa [hw] using ih hnul.2 hplain.2

theorem argumentOf_spec {command : List UInt8} (h : IsStr command w) :
    ∃ argument, argumentOf command builtins = .ok argument ∧ IsStr argument (shorten w) := by
  have hnul : ∀ name ∈ builtinNames, 0 ∉ name := by decide
  have hplain : ∀ name ∈ builtinNames, ¬ binPrefix <+: name := by decide
  exact argumentOf_pairs h hnul hplain

/-- **A turn of the second loop.** -/
theorem fillRow_spec (hi : i < 9) (hw : w.length ≤ 63) (h : s.Holds .commands (i * 100) w) :
    ∃ s', s.fillRow Store.InArray i = .ok s' ∧ s'.n = s.n ∧
      s'.mem .commands = s.mem .commands ∧ s'.Holds .arglist (i * 64) (shorten w) ∧
      ∀ j v, j < i → v.length ≤ 63 → s.Holds .arglist (j * 64) v →
        s'.Holds .arglist (j * 64) v := by
  have hne : Table.commands ≠ Table.arglist := by decide
  have hle := (shorten_length_le w).trans hw
  have hclear : Store.InArray ⟨.arglist, i, 0, 100⟩ := by
    show i * 64 + 0 + 100 ≤ 640
    omega
  have hcopy : Store.InArray ⟨.arglist, i, 0, (shorten w ++ [0]).length⟩ := by
    show i * 64 + 0 + (shorten w ++ [0]).length ≤ 640
    rw [List.length_append, List.length_singleton]
    omega
  have hcommand : IsStr (s.bytes .commands i 0) w := h.isStr rfl
  obtain ⟨argument, hargument, hstr⟩ := argumentOf_spec hcommand
  have htake : argument.take (shorten w).length = shorten w := by
    obtain ⟨-, rest, hrest⟩ := hstr
    rw [hrest, List.take_left]
  have hrun : s.fillRow Store.InArray i =
      .ok ((s.written .arglist (i * 64) (List.replicate 100 0)).written .arglist (i * 64)
        (shorten w ++ [0])) := by
    rw [fillRow, memset_of_allowed hclear, ok_bind, bytes_written_of_ne hne, hargument, ok_bind,
      copyString, strlen_spec hstr, ok_bind, htake, put_of_allowed hcopy]
    rfl
  refine ⟨_, hrun, rfl, ?_, ?_, ?_⟩
  · rw [written_mem_of_ne hne, written_mem_of_ne hne]
  · refine holds_written (not_mem_shorten h.nonzero) ?_
    show i * 64 + (shorten w).length < 640
    omega
  · intro j v hj hv hheld
    have hapart : j * 64 + v.length < i * 64 := by omega
    exact (hheld.written fun _ => Or.inl hapart).written fun _ => Or.inl hapart

/-- A loop over rows keeps what each turn of it moves on. -/
theorem forRows_run {f : Nat → Shell → Except Fault Shell} {P : Nat → Shell → Prop} {left : Nat}
    (hstep : ∀ j s, i ≤ j → j < i + left → P j s → ∃ s', f j s = .ok s' ∧ P (j + 1) s')
    (h : P i s) : ∃ s', forRows f left i s = .ok s' ∧ P (i + left) s' := by
  induction left generalizing i s with
  | zero => exact ⟨s, rfl, h⟩
  | succ left ih =>
    obtain ⟨s₁, hs₁, h₁⟩ := hstep i s (Nat.le_refl i) (by omega) h
    rw [forRows, hs₁, ok_bind, Nat.add_comm left, ← Nat.add_assoc]
    exact ih (fun j s hj hj' => hstep j s (by omega) (by omega)) h₁

/-- What every turn keeps a loop over rows keeps. -/
theorem forRows_ok {f : Nat → Shell → Except Fault Shell} {P : Shell → Prop} {left : Nat}
    (hstep : ∀ j s s', f j s = .ok s' → P s → P s') (h : forRows f left i s = .ok s')
    (hs : P s) : P s' := by
  induction left generalizing i s with
  | zero =>
    obtain rfl := Except.ok.inj h
    exact hs
  | succ left ih =>
    obtain ⟨s₁, hs₁, h⟩ := bind_eq_ok.1 h
    exact ih h (hstep i s s₁ hs₁ hs)

/-- The second loop does not count. -/
theorem fillArglist_n (h : s.fillArglist allowed = .ok s') : s'.n = s.n := by
  refine forRows_ok (P := fun s' => s'.n = s.n) ?_ h rfl
  intro j s₁ s₂ hrow hn
  obtain ⟨s₃, hclear, hrow⟩ := bind_eq_ok.1 hrow
  obtain ⟨argument, -, hrow⟩ := bind_eq_ok.1 hrow
  obtain ⟨len, -, hcopy⟩ := bind_eq_ok.1 hrow
  rw [put_ok hcopy, put_ok hclear, written_n, written_n, hn]

/-- The rows of `commands` and of `arglist` in front of a row hold the words and what they are
shortened to. -/
structure Filled (ws : List (List UInt8)) (j : Nat) (s : Shell) : Prop where
  n : s.n = ws.length
  commands : ∀ i w, ws[i]? = some w → s.Holds .commands (i * 100) w
  arglist : ∀ i w, i < j → ws[i]? = some w → s.Holds .arglist (i * 64) (shorten w)

theorem fillArglist_spec (hn : s.n = ws.length) (hlen : ws.length ≤ 9)
    (hcols : ∀ w ∈ ws, w.length ≤ 63)
    (hcommands : ∀ i w, ws[i]? = some w → s.Holds .commands (i * 100) w) :
    ∃ s', s.fillArglist Store.InArray = .ok s' ∧ Filled ws ws.length s' := by
  have hfilled : Filled ws 0 s := ⟨hn, hcommands, fun i w hi => absurd hi (Nat.not_lt_zero i)⟩
  rw [fillArglist, hn]
  suffices hloop : ∃ s', forRows (fillRow Store.InArray) ws.length 0 s = .ok s' ∧
      Filled ws (0 + ws.length) s' by rwa [Nat.zero_add] at hloop
  refine forRows_run ?_ hfilled
  intro j s₁ _ hj hrow
  rw [Nat.zero_add] at hj
  have hw : ws[j]? = some ws[j] := List.getElem?_eq_getElem hj
  obtain ⟨s₂, hs₂, hn₂, hcommands₂, hholds, hkept⟩ := fillRow_spec (by omega)
    (hcols _ (List.getElem_mem hj)) (hrow.commands j _ hw)
  refine ⟨s₂, hs₂, hn₂.trans hrow.n, fun i w hi => (hrow.commands i w hi).of_mem hcommands₂, ?_⟩
  intro i w hi hiw
  rcases Nat.lt_succ_iff_lt_or_eq.1 hi with hlt | rfl
  · have hle := (shorten_length_le w).trans (hcols w (List.mem_of_getElem? hiw))
    exact hkept i _ hlt hle (hrow.arglist i w hlt hiw)
  · rw [hw] at hiw
    exact Option.some.inj hiw ▸ hholds

/-! ## A command line -/

/-- `performCommand`, in the parent, leaves the words of the line in `commands` and in `arglist`. -/
def Splits (s : Shell) (line : List UInt8) : Prop :=
  ∃ s', (∀ returns, s.performCommand Store.InArray false returns = .ok s') ∧
    s'.n = (words isSep line).length ∧
    ∀ i w, (words isSep line)[i]? = some w →
      IsStr (s'.bytes .commands i 0) w ∧ IsStr (s'.bytes .arglist i 0) (shorten w)

/-- An empty field is counted like a word. -/
theorem spaced_of_splits (hs : IsStr (s.bytes .ipCommand 0 0) line) (h : s.Splits line) :
    Spaced isSep line := by
  obtain ⟨s', hrun, hn, -⟩ := h
  obtain ⟨s₁, hsplit, hrun⟩ := bind_eq_ok.1 (hrun fun _ => true)
  obtain ⟨s₂, hfill, hrun⟩ := bind_eq_ok.1 hrun
  rw [executeCommand_parent] at hrun
  obtain rfl := Except.ok.inj hrun
  have hlen : s₂.n = (fields isSep line).length :=
    (fillArglist_n hfill).trans (splitCommand_n hs hsplit)
  rw [← nil_not_mem_fields_iff]
  intro hnil
  have hlt := words_length_lt hnil
  rw [← hn, hlen] at hlt
  exact Nat.lt_irrefl _ hlt

/-- The splitter on a line without an empty field. -/
theorem splitCommand_eq (hs : IsStr (s.bytes .ipCommand 0 0) line) (hspaced : Spaced isSep line)
    (hwords : (words isSep line).length ≤ 9) (hword : ∀ w ∈ words isSep line, w.length ≤ 63) :
    s.splitCommand Store.InArray = .ok (storeTokens (words isSep line) { s with n := 0 }) := by
  have hline : IsStr (({ s with n := 0 } : Shell).bytes .ipCommand 0 0) line := hs
  have hlen : line.length < 128 := by
    have hlt := hs.length_lt
    rwa [bytes, List.length_map, List.length_range] at hlt
  rw [← fields_eq_words (nil_not_mem_fields_iff.2 hspaced)] at hwords hword ⊢
  refine splitLoop_eq (fun st _ h => h) hline (Nat.zero_le _) (by omega) ?_ ?_
  · rw [List.drop_zero]
    show 0 + (fields isSep line).length ≤ 10
    omega
  · rw [List.drop_zero]
    exact fun w hw => (hword w hw).trans (by decide)

/-- **The words of a line are what the shell runs exactly when no separator starts the line or
stands behind another one.** -/
theorem command_line_iff (hs : IsStr (s.bytes .ipCommand 0 0) line)
    (hwords : (words isSep line).length ≤ 9) (hword : ∀ w ∈ words isSep line, w.length ≤ 63) :
    s.Splits line ↔ Spaced isSep line := by
  refine ⟨spaced_of_splits hs, fun hspaced => ?_⟩
  have hsplit := splitCommand_eq hs hspaced hwords hword
  have hnul : ∀ w ∈ words isSep line, 0 ∉ w := by
    intro w hw hmem
    rw [← fields_eq_words (nil_not_mem_fields_iff.2 hspaced)] at hw
    exact hs.1 (mem_of_mem_fields hmem hw)
  obtain ⟨-, hstored⟩ := storeTokens_holds (s := { s with n := 0 }) hnul
    (fun w hw => (hword w hw).trans (by decide)) (by show 0 + _ ≤ 10; omega)
  obtain ⟨s', hfill, hfilled⟩ := fillArglist_spec
    (s := storeTokens (words isSep line) { s with n := 0 })
    (by rw [storeTokens_n]; exact Nat.zero_add _) hwords hword
    (fun i w hw => by simpa using hstored i w hw)
  refine ⟨s', fun returns => ?_, hfilled.n, fun i w hw => ⟨?_, ?_⟩⟩
  · rw [performCommand, hsplit, ok_bind, hfill, ok_bind, executeCommand_parent]
  · exact (hfilled.commands i w hw).isStr rfl
  · exact (hfilled.arglist i w (List.getElem?_eq_some_iff.1 hw).1 hw).isStr rfl

end

/-! ## Two lines -/

/-- The shell after `gets`. -/
def entered (line : List UInt8) : Shell :=
  ({ mem := fun _ _ => 0, n := 0, sp := 0 } : Shell).written .ipCommand 0 (line ++ [0])

theorem isStr_entered {line : List UInt8} (hnul : 0 ∉ line) (hlen : line.length < 128) :
    IsStr ((entered line).bytes .ipCommand 0 0) line :=
  (holds_written hnul (by rwa [Nat.zero_add])).isStr rfl

/-- `/bin/cat a `. -/
def catLine : List UInt8 :=
  ['/', 'b', 'i', 'n', '/', 'c', 'a', 't', ' ', 'a', ' '].map Char.toUInt8

/-- A space at the end does no harm. -/
theorem command_line_cat : (entered catLine).Splits catLine :=
  (command_line_iff (isStr_entered (by decide) (by decide)) (by decide) (by decide)).2 (by decide)

/-- `cat  a`. -/
def twoSpaces : List UInt8 := ['c', 'a', 't', ' ', ' ', 'a'].map Char.toUInt8

/-- Between two spaces the shell finds an empty word. -/
theorem command_line_fails :
    IsStr ((entered twoSpaces).bytes .ipCommand 0 0) twoSpaces ∧
      (words isSep twoSpaces).length ≤ 9 ∧ (∀ w ∈ words isSep twoSpaces, w.length ≤ 63) ∧
      ¬ (entered twoSpaces).Splits twoSpaces := by
  have hs : IsStr ((entered twoSpaces).bytes .ipCommand 0 0) twoSpaces :=
    isStr_entered (by decide) (by decide)
  refine ⟨hs, by decide, by decide, fun h => ?_⟩
  exact absurd (spaced_of_splits hs h) (by decide)

end Shell

end Sbunix
