import Sbunix.WorkingDirectory

/-!
# The shell

The shell keeps the line it reads, its words and the arguments of a command in global arrays. A
`Shell` holds them as one memory per array. Every store goes through `Shell.put`, which is told what
stores are allowed: `Store.InArray` allows what stays in the array, `Store.InRow` also asks a store
to a row of `arglist` to stay in that row.

`performCommand` cuts `ipCommand` into `commands`, fills `arglist` from it and calls
`executeCommand`. `cd` uses local arrays, and is left out.
-/

namespace Sbunix

open Lib

/-! ## The arrays -/

/-- The global arrays of `sbush.c`. -/
inductive Table
  | arglist
  | ipCommand
  | commands
  | tempecho
  | tempcat
  | shellbuf
  | shellcommands
  | sCwd
deriving DecidableEq

namespace Table

/-- The bytes of a row. -/
def width : Table → Nat
  | arglist => 64
  | commands | shellcommands => 100
  | ipCommand | shellbuf | sCwd => 128
  | tempecho => 1024
  | tempcat => 64

def rows : Table → Nat
  | arglist | commands | shellcommands => 10
  | _ => 1

def size (t : Table) : Nat := t.rows * t.width

end Table

/-- A store of `len` bytes through a pointer to `off` in a row. -/
structure Store where
  table : Table
  row : Nat
  off : Nat
  len : Nat
deriving DecidableEq

/-- The offset of the store in its array. -/
def Store.pos (st : Store) : Nat := st.row * st.table.width + st.off

/-- The store stays in its array. -/
def Store.InArray (st : Store) : Prop := st.pos + st.len ≤ st.table.size

/-- And when it is to `arglist` it stays in its row. -/
def Store.InRow (st : Store) : Prop :=
  st.InArray ∧ (st.table = .arglist → st.off + st.len ≤ st.table.width)

instance : DecidablePred Store.InArray := fun _ => inferInstanceAs (Decidable (_ ≤ _))

instance : DecidablePred Store.InRow := fun _ => inferInstanceAs (Decidable (_ ∧ _))

/-- The arrays, and `n` and `sp`. -/
@[ext] structure Shell where
  mem : Table → Nat → UInt8
  n : Nat
  sp : Nat

namespace Shell

/-- The bytes from a pointer into an array on. -/
def bytes (s : Shell) (t : Table) (row off : Nat) : List UInt8 :=
  (List.range (t.size - (row * t.width + off))).map fun i => s.mem t (row * t.width + off + i)

/-- The bytes `bs` have been stored in an array at `a`. -/
def written (s : Shell) (t : Table) (a : Nat) (bs : List UInt8) : Shell :=
  { s with mem := Function.update s.mem t fun x =>
      if a ≤ x ∧ x < a + bs.length then bs.getD (x - a) 0 else s.mem t x }

section

variable (allowed : Store → Prop) [DecidablePred allowed]

def put (s : Shell) (t : Table) (row off : Nat) (bs : List UInt8) : Except Fault Shell :=
  if allowed ⟨t, row, off, bs.length⟩ then .ok (s.written t (row * t.width + off) bs)
  else .error .outOfBounds

def memset (s : Shell) (t : Table) (row : Nat) (value : UInt8) (num : Nat) : Except Fault Shell :=
  s.put allowed t row 0 (List.replicate num value)

/-- `strcpy` to a row. -/
def copyString (s : Shell) (t : Table) (row : Nat) (src : List UInt8) : Except Fault Shell := do
  let len ← strlen src
  s.put allowed t row 0 (src.take len ++ [0])

/-- A loop over rows, from `i` on. -/
def forRows (f : Nat → Shell → Except Fault Shell) : Nat → Nat → Shell → Except Fault Shell
  | 0, _, s => .ok s
  | left + 1, i, s => f i s >>= forRows f left (i + 1)

/-! ## A line -/

def clearip (s : Shell) : Except Fault Shell := do
  let s ← s.memset allowed .tempcat 0 0 64
  let s ← s.memset allowed .ipCommand 0 0 128
  let s ← forRows (fun i s => do
    let s ← s.memset allowed .commands i 0 100
    s.memset allowed .arglist i 0 64) 10 0 s
  let s ← forRows (fun i s => s.memset allowed .shellcommands i 0 100) 10 0 s
  s.memset allowed .sCwd 0 0 128

/-- The inner loop of `performCommand`, on the bytes from `ipCommand + j` on: `k` behind it. -/
def copyToken : List UInt8 → Nat → Shell → Except Fault (Nat × Shell)
  | [], _, _ => .error .outOfBounds
  | c :: bs, k, s =>
    if c ≠ 0 ∧ c ≠ '\n'.toUInt8 ∧ c ≠ ' '.toUInt8 then do
      let s ← s.put allowed .commands s.n k [c]
      copyToken bs (k + 1) s
    else .ok (k, s)

/-- The first loop of `performCommand`, from `i` on. Every turn moves `i` on. -/
def splitLoop : Nat → Nat → Shell → Except Fault Shell
  | 0, _, _ => .error .diverges
  | fuel + 1, i, s => do
    let len ← strlen (s.bytes .ipCommand 0 0)
    if i < len then do
      let (k, s) ← copyToken allowed (s.bytes .ipCommand 0 i) 0 s
      let s ← s.put allowed .commands s.n k [0]
      splitLoop fuel (i + k + 1) { s with n := s.n + 1 }
    else .ok s

def splitCommand (s : Shell) : Except Fault Shell := splitLoop allowed 129 0 { s with n := 0 }

/-- A string literal. -/
def literal (s : List Char) : List UInt8 := s.map Char.toUInt8 ++ [0]

/-- The built-in commands in the order of their tests, with their paths. -/
def builtins : List (List UInt8 × List UInt8) :=
  [(literal ['/', 'b', 'i', 'n', '/', 'l', 's'], literal ['l', 's']),
    (literal ['/', 'b', 'i', 'n', '/', 'c', 'a', 't'], literal ['c', 'a', 't']),
    (literal ['/', 'b', 'i', 'n', '/', 'e', 'c', 'h', 'o'], literal ['e', 'c', 'h', 'o']),
    (literal ['/', 'b', 'i', 'n', '/', 'p', 's'], literal ['p', 's']),
    (literal ['/', 'b', 'i', 'n', '/', 'k', 'i', 'l', 'l'], literal ['k', 'i', 'l', 'l'])]

/-- What the second loop copies for a command: the name of a built-in one, or the command. -/
def argumentOf (command : List UInt8) : List (List UInt8 × List UInt8) → Except Fault (List UInt8)
  | [] => .ok command
  | (path, name) :: rest => do
    if (← libcStrcmp command path) = 0 then .ok name
    else if (← libcStrcmp command name) = 0 then .ok name
    else argumentOf command rest

/-- A turn of the second loop of `performCommand`. -/
def fillRow (i : Nat) (s : Shell) : Except Fault Shell := do
  let s ← s.memset allowed .arglist i 0 100
  let argument ← argumentOf (s.bytes .commands i 0) builtins
  s.copyString allowed .arglist i argument

def fillArglist (s : Shell) : Except Fault Shell := forRows (fillRow allowed) s.n 0 s

/-! ## A command -/

/-- The inner loop of `shellparser`, on the bytes from `shellbuf + sj` on. -/
def copyShellbuf : List UInt8 → Nat → Shell → Except Fault (Nat × Shell)
  | [], _, _ => .error .outOfBounds
  | c :: bs, sk, s =>
    if c ≠ '\n'.toUInt8 then do
      let s ← s.put allowed .shellcommands s.sp sk [c]
      copyShellbuf bs (sk + 1) s
    else .ok (sk, s)

def shellparserLoop : Nat → Nat → Shell → Except Fault Shell
  | 0, _, _ => .error .diverges
  | fuel + 1, si, s => do
    let len ← strlen (s.bytes .arglist 1 0)
    if si < len then do
      let (sk, s) ← copyShellbuf allowed (s.bytes .shellbuf 0 si) 0 s
      let s ← s.put allowed .shellcommands s.sp sk [0]
      shellparserLoop fuel (si + sk + 1) { s with sp := s.sp + 1 }
    else .ok s

def shellparser (s : Shell) : Except Fault Shell :=
  shellparserLoop allowed 1024 0 { s with sp := 0 }

/-- The loop that copies the line behind `echo`: `m` behind it. -/
def echoLoop : Nat → Nat → Shell → Except Fault (Nat × Shell)
  | 0, _, _ => .error .diverges
  | fuel + 1, m, s => do
    let len ← strlen (s.bytes .ipCommand 0 0)
    if (m : Int) < len - 4 then do
      let s ← s.put allowed .tempecho 0 m [s.mem .ipCommand (m + 4)]
      echoLoop fuel (m + 1) s
    else .ok (m, s)

/-- `arglist[row]` is a string. -/
def argIs (s : Shell) (row : Nat) (name : List Char) : Except Fault Bool :=
  (libcStrcmp (s.bytes .arglist row 0) (literal name)).map fun r => decide (r = 0)

/-- The tests of the child, one after the other: each runs until an `execve` does not return.
`returns` says which ones do. -/
def childSteps (returns : List UInt8 → Bool) : List (Shell → Except Fault (Shell × Bool)) :=
  let runs (name : List Char) (path : List Char) (s : Shell) : Except Fault (Shell × Bool) := do
    if ← s.argIs 0 name then .ok (s, returns (literal path)) else .ok (s, true)
  [runs ['l', 's'] ['b', 'i', 'n', '/', 'l', 's'],
    fun s => do
      if ← s.argIs 0 ['e', 'c', 'h', 'o'] then
        if 4 < (← strlen (s.bytes .ipCommand 0 0)) then do
          let s ← s.memset allowed .tempecho 0 0 1024
          let (m, s) ← echoLoop allowed 129 0 s
          let s ← s.put allowed .tempecho 0 m [0]
          let s ← s.copyString allowed .arglist 0 (s.bytes .tempecho 0 0)
          .ok (s, returns (literal ['b', 'i', 'n', '/', 'e', 'c', 'h', 'o']))
        else .ok (s, true)
      else .ok (s, true),
    runs ['c', 'a', 't'] ['b', 'i', 'n', '/', 'c', 'a', 't'],
    runs ['p', 's'] ['b', 'i', 'n', '/', 'p', 's'],
    fun s => do
      if ← s.argIs 0 ['k', 'i', 'l', 'l'] then
        if ← s.argIs 1 ['-', '9'] then
          .ok (s, returns (literal ['b', 'i', 'n', '/', 'k', 'i', 'l', 'l']))
        else .ok (s, true)
      else .ok (s, true),
    fun s => do
      if ← s.argIs 0 ['s', 'h'] then (s.shellparser allowed).map fun s => (s, true)
      else .ok (s, returns (s.bytes .arglist 0 0))]

def runSteps : List (Shell → Except Fault (Shell × Bool)) → Shell → Except Fault Shell
  | [], s => .ok s
  | step :: steps, s => do
    let (s, running) ← step s
    if running then runSteps steps s else .ok s

/-- `arglist[0]` is one of the names. -/
def argIn (s : Shell) : List (List Char) → Except Fault Bool
  | [] => .ok false
  | name :: names => do if ← s.argIs 0 name then .ok true else s.argIn names

/-- `executeCommand`, in the child of its `fork` or in the parent. -/
def executeCommand (child : Bool) (returns : List UInt8 → Bool) (s : Shell) :
    Except Fault Shell := do
  if ← s.argIs 0 ['c', 'd'] then .ok s
  else if ← s.argIn [['l', 's'], ['c', 'a', 't'], ['e', 'c', 'h', 'o'], ['s', 'h'], ['p', 's'],
      ['k', 'i', 'l', 'l']] then
    if child then runSteps (childSteps allowed returns) s else .ok s
  else .ok s

def performCommand (child : Bool) (returns : List UInt8 → Bool) (s : Shell) :
    Except Fault Shell := do
  let s ← s.splitCommand allowed
  let s ← s.fillArglist allowed
  s.executeCommand allowed child returns

/-- A turn of `main`, with a line that `gets` stores. -/
def turn (child : Bool) (returns : List UInt8 → Bool) (line : List UInt8) (s : Shell) :
    Except Fault Shell := do
  let s ← s.clearip allowed
  let s ← s.put allowed .ipCommand 0 0 (line ++ [0])
  s.performCommand allowed child returns

end

/-! ## Stores -/

section

variable {allowed : Store → Prop} [DecidablePred allowed] {s s' : Shell} {t u : Table}
  {row off a b : Nat} {bs bs' str : List UInt8}

theorem put_of_allowed (h : allowed ⟨t, row, off, bs.length⟩) :
    s.put allowed t row off bs = .ok (s.written t (row * t.width + off) bs) := if_pos h

theorem allowed_of_put (h : s.put allowed t row off bs = .ok s') :
    allowed ⟨t, row, off, bs.length⟩ := by
  unfold put at h
  split_ifs at h with hallowed
  exact hallowed

theorem memset_of_allowed {value : UInt8} {num : Nat} (h : allowed ⟨t, row, 0, num⟩) :
    s.memset allowed t row value num =
      .ok (s.written t (row * t.width) (List.replicate num value)) := by
  apply put_of_allowed
  rwa [List.length_replicate]

theorem put_ok (h : s.put allowed t row off bs = .ok s') :
    s' = s.written t (row * t.width + off) bs := by
  unfold put at h
  split_ifs at h
  exact (Except.ok.inj h).symm

@[simp] theorem written_n : (s.written t a bs).n = s.n := rfl

theorem written_mem_of_ne (h : u ≠ t) : (s.written t a bs).mem u = s.mem u :=
  Function.update_of_ne h _ _

theorem written_mem (x : Nat) : (s.written t a bs).mem t x =
    if a ≤ x ∧ x < a + bs.length then bs.getD (x - a) 0 else s.mem t x := by
  show Function.update s.mem t _ t x = _
  rw [Function.update_self]

theorem bytes_written_of_ne (h : u ≠ t) :
    (s.written t a bs).bytes u row off = s.bytes u row off := by
  rw [bytes, bytes, written_mem_of_ne h]

theorem bytes_drop (s : Shell) (t : Table) (row off i : Nat) :
    s.bytes t row (off + i) = (s.bytes t row off).drop i := by
  apply List.ext_getElem?
  intro j
  rw [List.getElem?_drop, bytes, bytes, List.getElem?_map, List.getElem?_map]
  by_cases hj : row * t.width + off + i + j < t.size
  · rw [List.getElem?_range (by omega), List.getElem?_range (by omega), Option.map_some,
      Option.map_some]
    exact congrArg (fun x => some (s.mem t x)) (by omega)
  · rw [List.getElem?_eq_none (by rw [List.length_range]; omega),
      List.getElem?_eq_none (by rw [List.length_range]; omega)]
    rfl

theorem written_nil : s.written t a [] = s := by
  refine Shell.ext ?_ rfl rfl
  funext u
  by_cases hu : u = t
  · subst hu
    funext x
    rw [written_mem, if_neg (by rw [List.length_nil]; omega)]
  · exact written_mem_of_ne hu

/-- Two stores one behind the other. -/
theorem written_written :
    (s.written t a bs).written t (a + bs.length) bs' = s.written t a (bs ++ bs') := by
  refine Shell.ext ?_ rfl rfl
  funext u
  by_cases hu : u = t
  · subst hu
    funext x
    rw [written_mem, written_mem, written_mem, List.length_append]
    by_cases hfirst : x < a + bs.length
    · rw [if_neg (by omega)]
      by_cases hx : a ≤ x
      · rw [if_pos ⟨hx, hfirst⟩, if_pos ⟨hx, by omega⟩, List.getD_append _ _ _ _ (by omega)]
      · rw [if_neg (by omega), if_neg (by omega)]
    · by_cases hsecond : x < a + (bs.length + bs'.length)
      · rw [if_pos (by omega), if_pos ⟨by omega, hsecond⟩,
          List.getD_append_right _ _ _ _ (by omega), Nat.sub_sub]
      · rw [if_neg (by omega), if_neg (by omega), if_neg (by omega)]
  · rw [written_mem_of_ne hu, written_mem_of_ne hu, written_mem_of_ne hu]

/-- The string `str` is in an array at `a`. -/
structure Holds (s : Shell) (t : Table) (a : Nat) (str : List UInt8) : Prop where
  nonzero : 0 ∉ str
  room : a + str.length < t.size
  mem : ∀ i ≤ str.length, s.mem t (a + i) = (str ++ [0]).getD i 0

theorem Holds.isStr (h : s.Holds t a str) (ha : row * t.width + off = a) :
    IsStr (s.bytes t row off) str := by
  subst ha
  have hroom := h.room
  have hprefix : str ++ [0] <+: s.bytes t row off := by
    rw [List.prefix_iff_getElem?]
    intro i hi
    have hi' : i ≤ str.length := by simpa using Nat.le_of_lt_succ (by simpa using hi)
    have hmem := h.mem i hi'
    rw [List.getD_eq_getElem _ _ hi] at hmem
    rw [bytes, List.getElem?_map, List.getElem?_range (by omega), Option.map_some, hmem]
  obtain ⟨rest, hrest⟩ := hprefix
  exact ⟨h.nonzero, rest, by rw [← hrest, List.append_assoc]; rfl⟩

/-- A string depends on its array alone. -/
theorem Holds.of_mem (h : s.Holds t a str) (hmem : s'.mem t = s.mem t) : s'.Holds t a str :=
  ⟨h.nonzero, h.room, fun i hi => (congrFun hmem _).trans (h.mem i hi)⟩

theorem holds_written (hnul : 0 ∉ str) (hroom : a + str.length < t.size) :
    (s.written t a (str ++ [0])).Holds t a str := by
  refine ⟨hnul, hroom, fun i hi => ?_⟩
  rw [written_mem, List.length_append, List.length_singleton, if_pos (by omega),
    Nat.add_sub_cancel_left]

/-- A store leaves the strings alone that it does not meet. -/
theorem Holds.written (h : s.Holds t a str)
    (happart : u = t → a + str.length < b ∨ b + bs.length ≤ a) :
    (s.written u b bs).Holds t a str := by
  refine ⟨h.nonzero, h.room, fun i hi => ?_⟩
  rw [← h.mem i hi]
  by_cases hu : u = t
  · subst hu
    have := happart rfl
    rw [written_mem, if_neg (by omega)]
  · rw [written_mem_of_ne (Ne.symm hu)]

/-! ## The parent -/

/-- A comparison with a literal does not run out of an array that is long enough for it. -/
theorem libcStrcmp_total {b b' : List UInt8} (hnul : 0 ∈ b') (hlen : b'.length ≤ b.length) :
    ∃ r, libcStrcmp b b' = .ok r := by
  induction b' generalizing b with
  | nil => cases hnul
  | cons d b' ih =>
    obtain ⟨c, b, rfl⟩ := List.exists_cons_of_length_pos (Nat.zero_lt_of_lt hlen)
    rw [libcStrcmp]
    split_ifs with heq
    · rcases List.mem_cons.1 hnul with rfl | hnul
      · exact absurd rfl heq.2.1
      · exact ih hnul (Nat.le_of_succ_le_succ hlen)
    · exact ⟨_, rfl⟩

theorem argIs_total (s : Shell) {name : List Char} (h : name.length < 640) :
    ∃ is, s.argIs 0 name = .ok is := by
  have hbytes : (s.bytes .arglist 0 0).length = 640 := by
    rw [bytes, List.length_map, List.length_range]
    rfl
  have hliteral : (literal name).length = name.length + 1 := by
    rw [literal, List.length_append, List.length_map, List.length_singleton]
  have hnul : 0 ∈ literal name := List.mem_append_right _ (List.mem_singleton_self 0)
  obtain ⟨r, hr⟩ := libcStrcmp_total (b := s.bytes .arglist 0 0) hnul (by omega)
  rw [argIs, hr]
  exact ⟨_, rfl⟩

theorem argIn_total (s : Shell) {names : List (List Char)}
    (h : ∀ name ∈ names, name.length < 640) : ∃ is, s.argIn names = .ok is := by
  induction names with
  | nil => exact ⟨false, rfl⟩
  | cons name names ih =>
    rw [List.forall_mem_cons] at h
    obtain ⟨is, his⟩ := argIs_total s h.1
    rw [argIn, his, ok_bind]
    split_ifs
    · exact ⟨true, rfl⟩
    · exact ih h.2

/-- The parent only waits. -/
theorem executeCommand_parent (returns : List UInt8 → Bool) (s : Shell) :
    s.executeCommand allowed false returns = .ok s := by
  obtain ⟨isCd, hcd⟩ := @argIs_total s ['c', 'd'] (by simp)
  obtain ⟨isCommand, hcommand⟩ := @argIn_total s [['l', 's'], ['c', 'a', 't'],
    ['e', 'c', 'h', 'o'], ['s', 'h'], ['p', 's'], ['k', 'i', 'l', 'l']] (by simp)
  rw [executeCommand, hcd, ok_bind, hcommand, ok_bind,
    if_neg Bool.false_ne_true, ite_self, ite_self]

end

end Shell

end Sbunix
