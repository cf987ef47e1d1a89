import Sbunix.CommandLine

/-!
# The tables of the shell

`clearip` clears 64 bytes of each row of `arglist`. `performCommand` clears 100, and so leaves the
row: a turn of the shell keeps to its rows only for a line without a token (`table_bounds_iff`).
-/

namespace Sbunix

open Lib

namespace Shell

variable {allowed : Store → Prop} [DecidablePred allowed] {s s' : Shell} {line w : List UInt8}
  {child : Bool} {returns : List UInt8 → Bool} {name : List Char} {i : Nat}

/-! ## No word -/

theorem argIs_spec (h : s.Holds .arglist 0 w) (hname : 0 ∉ name.map Char.toUInt8) :
    s.argIs 0 name = .ok (decide (w = name.map Char.toUInt8)) := by
  have hstr : IsStr (s.bytes .arglist 0 0) w := h.isStr rfl
  obtain ⟨r, hr, hzero⟩ := libcStrcmp_spec hstr
    (⟨hname, [], rfl⟩ : IsStr (literal name) (name.map Char.toUInt8))
  rw [argIs, hr]
  exact congrArg Except.ok (decide_eq_decide.2 hzero)

theorem argIn_of_forall {names : List (List Char)}
    (h : ∀ name ∈ names, s.argIs 0 name = .ok false) : s.argIn names = .ok false := by
  induction names with
  | nil => rfl
  | cons name names ih =>
    rw [List.forall_mem_cons] at h
    rw [argIn, h.1, ok_bind, if_neg Bool.false_ne_true]
    exact ih h.2

/-- Without a command nothing is run. -/
theorem executeCommand_nil (h : s.Holds .arglist 0 []) :
    s.executeCommand allowed child returns = .ok s := by
  have his : ∀ name : List Char, name ≠ [] → 0 ∉ name.map Char.toUInt8 →
      s.argIs 0 name = .ok false := by
    intro name hne hname
    rw [argIs_spec h hname, decide_eq_false]
    exact fun heq => hne (List.map_eq_nil_iff.1 heq.symm)
  have hin : s.argIn [['l', 's'], ['c', 'a', 't'], ['e', 'c', 'h', 'o'], ['s', 'h'], ['p', 's'],
      ['k', 'i', 'l', 'l']] = .ok false := by
    apply argIn_of_forall
    simp only [List.forall_mem_cons]
    exact ⟨his _ (by decide) (by decide), his _ (by decide) (by decide),
      his _ (by decide) (by decide), his _ (by decide) (by decide), his _ (by decide) (by decide),
      his _ (by decide) (by decide), fun _ h => by cases h⟩
  rw [executeCommand, his _ (by decide) (by decide), ok_bind, hin, ok_bind,
    if_neg Bool.false_ne_true, if_neg Bool.false_ne_true]

/-- A turn of the first loop of `clearip`. -/
theorem clearRow_spec (s : Shell) (hi : i < 10) :
    ∃ s', (do
      let s ← s.memset Store.InRow .commands i 0 100
      s.memset Store.InRow .arglist i 0 64) = .ok s' ∧
      s'.mem .arglist 0 = if i = 0 then 0 else s.mem .arglist 0 := by
  have hcommands : Store.InRow ⟨.commands, i, 0, 100⟩ := by
    refine ⟨?_, fun h => by cases h⟩
    show i * 100 + 0 + 100 ≤ 1000
    omega
  have harglist : Store.InRow ⟨.arglist, i, 0, 64⟩ := by
    refine ⟨?_, fun _ => Nat.le_refl 64⟩
    show i * 64 + 0 + 64 ≤ 640
    omega
  have hne : Table.arglist ≠ Table.commands := by decide
  refine ⟨_, by rw [memset_of_allowed hcommands, ok_bind, memset_of_allowed harglist], ?_⟩
  rw [written_mem, List.length_replicate, written_mem_of_ne hne]
  by_cases hzero : i = 0
  · subst hzero
    rfl
  · rw [if_neg hzero, if_neg]
    show ¬ (i * 64 ≤ 0 ∧ _)
    omega

/-- `clearip` keeps to the rows and clears the first argument. -/
theorem clearip_spec (s : Shell) :
    ∃ s', s.clearip Store.InRow = .ok s' ∧ s'.Holds .arglist 0 [] := by
  have hne : Table.arglist ≠ Table.shellcommands := by decide
  have hcwd : Table.arglist ≠ Table.sCwd := by decide
  have htempcat : Store.InRow ⟨.tempcat, 0, 0, 64⟩ := by decide
  have hipCommand : Store.InRow ⟨.ipCommand, 0, 0, 128⟩ := by decide
  have hsCwd : Store.InRow ⟨.sCwd, 0, 0, 128⟩ := by decide
  -- From the first turn on the first argument is empty.
  have hfirst : ∀ s : Shell, ∃ s', forRows (fun i s => do
      let s ← s.memset Store.InRow .commands i 0 100
      s.memset Store.InRow .arglist i 0 64) 10 0 s = .ok s' ∧
      (0 + 10 = 0 ∨ s'.mem .arglist 0 = 0) := by
    intro s
    refine @forRows_run s 0 _ (fun i s => i = 0 ∨ s.mem .arglist 0 = 0) 10 ?_ (Or.inl rfl)
    intro i s _ hi hzero
    obtain ⟨s', hs', hmem⟩ := clearRow_spec s (by omega : i < 10)
    refine ⟨s', hs', Or.inr ?_⟩
    rw [hmem]
    split_ifs with hi
    · rfl
    · exact hzero.resolve_left hi
  have hsecond : ∀ s : Shell, s.mem .arglist 0 = 0 → ∃ s', forRows (fun i s =>
      s.memset Store.InRow .shellcommands i 0 100) 10 0 s = .ok s' ∧ s'.mem .arglist 0 = 0 := by
    intro s hzero
    refine @forRows_run s 0 _ (fun _ s => s.mem .arglist 0 = 0) 10 ?_ hzero
    intro i s _ hi hzero
    have hrow : Store.InRow ⟨.shellcommands, i, 0, 100⟩ := by
      refine ⟨?_, fun h => by cases h⟩
      show i * 100 + 0 + 100 ≤ 1000
      omega
    refine ⟨_, memset_of_allowed hrow, ?_⟩
    rw [written_mem_of_ne hne]
    exact hzero
  obtain ⟨s₁, hs₁, hrows⟩ := hfirst ((s.written .tempcat 0 (List.replicate 64 0)).written
    .ipCommand 0 (List.replicate 128 0))
  obtain ⟨s₂, hs₂, hzero⟩ := hsecond s₁ (hrows.resolve_left (by decide))
  refine ⟨s₂.written .sCwd 0 (List.replicate 128 0), ?_, List.not_mem_nil, by decide, ?_⟩
  · rw [clearip, memset_of_allowed htempcat, ok_bind, memset_of_allowed hipCommand, ok_bind,
      Nat.zero_mul, Nat.zero_mul, hs₁, ok_bind, hs₂, ok_bind, memset_of_allowed hsCwd, Nat.zero_mul]
  · intro i hi
    obtain rfl := Nat.le_zero.1 hi
    rw [written_mem_of_ne hcwd]
    exact hzero

theorem performCommand_nil (hline : s.Holds .ipCommand 0 []) (harg : s.Holds .arglist 0 []) :
    s.performCommand allowed child returns = .ok { s with n := 0 } := by
  have hstr : IsStr (({ s with n := 0 } : Shell).bytes .ipCommand 0 0) [] := hline.isStr rfl
  have hsplit : s.splitCommand allowed = .ok { s with n := 0 } := by
    rw [splitCommand, splitLoop, strlen_spec hstr, ok_bind, List.length_nil,
      if_neg (Nat.lt_irrefl 0)]
  have hfill : ({ s with n := 0 } : Shell).fillArglist allowed = .ok { s with n := 0 } := rfl
  rw [performCommand, hsplit, ok_bind, hfill, ok_bind]
  apply executeCommand_nil
  exact harg.of_mem rfl

/-! ## A word -/

section

variable (allowed)

/-- A store is made, or it is not allowed. -/
theorem put_cases (s : Shell) (t : Table) (row off : Nat) (bs : List UInt8) :
    (∃ s', s.put allowed t row off bs = .ok s') ∨
      s.put allowed t row off bs = .error .outOfBounds := by
  unfold put
  split_ifs
  · exact Or.inl ⟨_, rfl⟩
  · exact Or.inr rfl

theorem copyToken_cases (s : Shell) (bs : List UInt8) (k : Nat) :
    (∃ r, copyToken allowed bs k s = .ok r) ∨
      copyToken allowed bs k s = .error .outOfBounds := by
  induction bs generalizing k s with
  | nil => exact Or.inr rfl
  | cons c bs ih =>
    rw [copyToken]
    split_ifs
    · rcases put_cases allowed s .commands s.n k [c] with ⟨s₁, hput⟩ | hput
      · rw [hput, ok_bind]
        exact ih s₁ (k + 1)
      · rw [hput]
        exact Or.inr rfl
    · exact Or.inl ⟨_, rfl⟩

/-- The splitter comes to the end of the line or leaves `commands`. -/
theorem splitLoop_cases {fuel : Nat} (hline : IsStr (s.bytes .ipCommand 0 0) line)
    (hi : i ≤ line.length + 1) (hfuel : line.length + 2 ≤ i + fuel) :
    (∃ s', splitLoop allowed fuel i s = .ok s') ∨
      splitLoop allowed fuel i s = .error .outOfBounds := by
  induction fuel generalizing i s with
  | zero => omega
  | succ fuel ih =>
    by_cases hend : i < line.length
    · obtain ⟨w, d, bs, hbytes, hw, hd, hle, -⟩ := bytes_field hline hend
      rcases copyToken_cases allowed s (w ++ d :: bs) 0 with ⟨r, htoken⟩ | htoken
      · obtain rfl := copyToken_ok hw hd htoken
        rcases put_cases allowed (s.written .commands (s.n * 100 + 0) w) .commands s.n
          (0 + w.length) [0] with ⟨s₁, hput⟩ | hput
        · rw [splitLoop_turn hline hend hbytes htoken hput]
          exact ih (isStr_storeToken hline w) (by omega) (by omega)
        · rw [splitLoop, strlen_spec hline, ok_bind, if_pos hend, hbytes, htoken, ok_bind]
          dsimp only
          rw [written_n, hput]
          exact Or.inr rfl
      · rw [splitLoop, strlen_spec hline, ok_bind, if_pos hend, hbytes, htoken]
        exact Or.inr rfl
    · rw [splitLoop, strlen_spec hline, ok_bind, if_neg hend]
      exact Or.inl ⟨s, rfl⟩

end

/-- A turn of the second loop leaves its row. -/
theorem fillRow_inRow (s : Shell) (i : Nat) :
    s.fillRow Store.InRow i = .error .outOfBounds := by
  have hout : ¬ Store.InRow ⟨.arglist, i, 0, (List.replicate 100 (0 : UInt8)).length⟩ := by
    intro hin
    have hwide := hin.2 rfl
    rw [List.length_replicate] at hwide
    have hnarrow : ¬ 0 + 100 ≤ Table.width .arglist := by decide
    exact hnarrow hwide
  rw [fillRow, memset, put, if_neg hout]
  rfl

/-- A line with a token makes the shell leave a row. -/
theorem turn_of_ne_nil (hnul : 0 ∉ line) (hne : line ≠ []) :
    s.turn Store.InRow child returns line = .error .outOfBounds := by
  obtain ⟨s₁, hs₁, -⟩ := clearip_spec s
  rw [turn, hs₁, ok_bind]
  rcases put_cases Store.InRow s₁ .ipCommand 0 0 (line ++ [0]) with ⟨s₂, hput⟩ | hput
  · have hroom : 0 + (line ++ [0]).length ≤ 128 := (allowed_of_put hput).1
    rw [List.length_append, List.length_singleton] at hroom
    have hstored : s₂.Holds .ipCommand 0 line := by
      rw [put_ok hput]
      exact holds_written hnul (by show 0 + line.length < 128; omega)
    have hline : IsStr (({ s₂ with n := 0 } : Shell).bytes .ipCommand 0 0) line :=
      hstored.isStr rfl
    rw [hput, ok_bind, performCommand]
    rcases splitLoop_cases Store.InRow (i := 0) hline (Nat.zero_le _)
      (by omega : line.length + 2 ≤ 0 + 129) with ⟨s₃, hsplit⟩ | hsplit
    · -- There is a field, and its turn leaves the row.
      obtain ⟨w, ws, hfields⟩ := List.exists_cons_of_ne_nil (mt fields_eq_nil_iff.1 hne)
      have hn := splitCommand_n (hstored.isStr rfl) hsplit
      rw [hfields, List.length_cons] at hn
      rw [splitCommand, hsplit, ok_bind, fillArglist, hn, forRows, fillRow_inRow]
      rfl
    · rw [splitCommand, hsplit]
      rfl
  · rw [hput]
    rfl

/-- **A turn of the shell keeps to the rows of its tables exactly when the line is empty.** -/
theorem table_bounds_iff (hnul : 0 ∉ line) :
    (∃ s', s.turn Store.InRow child returns line = .ok s') ↔ line = [] := by
  constructor
  · rintro ⟨s', h⟩
    by_contra hne
    rw [turn_of_ne_nil hnul hne] at h
    cases h
  · rintro rfl
    obtain ⟨s₁, hs₁, harg⟩ := clearip_spec s
    have hput : Store.InRow ⟨.ipCommand, 0, 0, 1⟩ := by decide
    have hne : Table.arglist ≠ Table.ipCommand := by decide
    have hline : (s₁.written .ipCommand 0 [0]).Holds .ipCommand 0 [] :=
      @holds_written s₁ .ipCommand 0 [] hnul (by decide)
    have harg' : (s₁.written .ipCommand 0 [0]).Holds .arglist 0 [] :=
      harg.of_mem (written_mem_of_ne hne)
    refine ⟨{ s₁.written .ipCommand 0 [0] with n := 0 }, ?_⟩
    rw [turn, hs₁, ok_bind, put_of_allowed hput, ok_bind]
    exact performCommand_nil hline harg'

/-- Nothing is stored for an empty line. -/
theorem table_bounds_empty :
    ∃ s', (entered []).turn Store.InRow true (fun _ => true) [] = .ok s' :=
  (table_bounds_iff (List.not_mem_nil)).2 rfl

/-- `ls` clears the first 36 bytes of the second argument. -/
theorem table_bounds_fails :
    (entered []).turn Store.InRow false (fun _ => true) (['l', 's'].map Char.toUInt8) =
      .error .outOfBounds :=
  turn_of_ne_nil (by decide) (by decide)

end Shell

end Sbunix
