import Sbunix.MissingProgram

/-!
# The search of execve

The loop of `execve` tests its pointer, not the character it points to. In a name that contains
`bin` it stops at the first occurrence (`findBin_of_infix`). In a name that does not, it runs over
the terminator and searches the memory behind the name (`findBin_of_not_infix`), so that the test
for the end of the string behind the loop is never reached at that end.
-/

namespace Sbunix

open Lib

/-- The pattern of the loop. -/
def binLetters : List UInt8 := [98, 105, 110]

/-- The offsets that the loop of `execve` reads, on the bytes from `filename` on up to the end of
the memory that the caller can read. The conditions are tested from left to right. -/
def scanReads : List UInt8 → List Nat
  | [] => [0]
  | c :: temp =>
    if c = 98 then
      if temp[0]? = some 105 then
        if temp[1]? = some 110 then [0, 1, 2] else 0 :: 1 :: 2 :: (scanReads temp).map (· + 1)
      else 0 :: 1 :: (scanReads temp).map (· + 1)
    else 0 :: (scanReads temp).map (· + 1)

/-- What is asked of the search: it ends, it reads the name and its terminator only, it finds the
first `bin`, and a name without one is rejected. -/
structure ScansName (filename after : List UInt8) : Prop where
  ends : (findBin (filename ++ 0 :: after)).isSome
  within : ∀ i ∈ scanReads (filename ++ 0 :: after), i ≤ filename.length
  first : binLetters <:+: filename → ∃ before rest, filename = before ++ binLetters ++ rest ∧
    ¬ binLetters <:+: before ++ binLetters.dropLast ∧
    findBin (filename ++ 0 :: after) = some (binLetters ++ rest ++ 0 :: after)
  rejects : ¬ binLetters <:+: filename → ∀ t image argv newProc kernelRsp m,
    execve t image (filename ++ 0 :: after) argv newProc kernelRsp m = .ok (.returned (-1), m)

section

variable {filename : List UInt8}

/-! ## One turn -/

/-- The terminator is in no occurrence of `bin`. -/
theorem found_iff (c : UInt8) (temp after : List UInt8) :
    (c = 98 ∧ (temp ++ 0 :: after)[0]? = some 105 ∧ (temp ++ 0 :: after)[1]? = some 110) ↔
      binLetters <+: c :: temp := by
  rw [binLetters, List.cons_prefix_cons, eq_comm]
  apply and_congr_right
  intro _
  cases temp with
  | nil => simp
  | cons d temp =>
    rw [List.cons_prefix_cons]
    cases temp with
    | nil => simp
    | cons e temp => simp [List.cons_prefix_cons, eq_comm]

theorem findBin_turn (c : UInt8) (temp after : List UInt8) :
    findBin (c :: temp ++ 0 :: after) =
      if binLetters <+: c :: temp then some (c :: temp ++ 0 :: after)
      else findBin (temp ++ 0 :: after) := by
  rw [List.cons_append, findBin]
  exact if_congr (found_iff c temp after) rfl rfl

theorem zero_mem_scanReads (mem : List UInt8) : 0 ∈ scanReads mem := by
  cases mem with
  | nil => exact List.mem_cons_self
  | cons c temp =>
    rw [scanReads]
    split_ifs <;> exact List.mem_cons_self

/-- A turn that does not find the pattern goes on to the next character. -/
theorem mem_scanReads_succ {c : UInt8} {temp : List UInt8} {i : Nat}
    (hnot : ¬ (c = 98 ∧ temp[0]? = some 105 ∧ temp[1]? = some 110)) (hi : i ∈ scanReads temp) :
    i + 1 ∈ scanReads (c :: temp) := by
  have hmem : i + 1 ∈ (scanReads temp).map (· + 1) := List.mem_map_of_mem hi
  rw [scanReads]
  split_ifs with hb hi hn
  · exact absurd ⟨hb, hi, hn⟩ hnot
  · exact List.mem_cons_of_mem _ (List.mem_cons_of_mem _ (List.mem_cons_of_mem _ hmem))
  · exact List.mem_cons_of_mem _ (List.mem_cons_of_mem _ hmem)
  · exact List.mem_cons_of_mem _ hmem

/-- The loop reads behind the memory exactly when the pattern is nowhere in it. -/
theorem length_mem_scanReads_iff (mem : List UInt8) :
    mem.length ∈ scanReads mem ↔ findBin mem = none := by
  induction mem with
  | nil => exact iff_of_true List.mem_cons_self rfl
  | cons c temp ih =>
    rw [findBin, List.length_cons]
    by_cases hfound : c = 98 ∧ temp[0]? = some 105 ∧ temp[1]? = some 110
    · obtain ⟨hb, hi, hn⟩ := hfound
      have hlen := (List.getElem?_eq_some_iff.1 hn).1
      rw [scanReads, if_pos hb, if_pos hi, if_pos hn, if_pos ⟨hb, hi, hn⟩]
      apply iff_of_false
      · simp only [List.mem_cons, List.not_mem_nil, or_false]
        omega
      · exact Option.some_ne_none _
    · rw [if_neg hfound, ← ih]
      refine ⟨fun h => ?_, mem_scanReads_succ hfound⟩
      -- The two characters behind `c` are all there is, when they are read as the last ones.
      have hshort : temp.length ≤ 1 → temp.length ∈ scanReads temp := by
        intro hle
        cases temp with
        | nil => exact List.mem_cons_self
        | cons d temp =>
          obtain rfl := List.length_eq_zero_iff.1 (Nat.le_zero.1 (Nat.le_of_succ_le_succ hle))
          exact mem_scanReads_succ (fun hfound => by cases hfound.2.1) List.mem_cons_self
      have hmap : temp.length + 1 ∈ (scanReads temp).map (· + 1) → temp.length ∈ scanReads temp :=
        fun h => by
          obtain ⟨i, hi, heq⟩ := List.mem_map.1 h
          exact Nat.add_right_cancel heq ▸ hi
      rw [scanReads] at h
      split_ifs at h with hb hi hn <;> simp only [List.mem_cons] at h
      · exact absurd ⟨hb, hi, hn⟩ hfound
      · rcases h with h | h | h | h
        · omega
        · exact hshort (by omega)
        · exact hshort (by omega)
        · exact hmap h
      · rcases h with h | h | h
        · omega
        · exact hshort (by omega)
        · exact hmap h
      · exact hmap (h.resolve_left (Nat.succ_ne_zero _))

/-! ## Names with the pattern -/

/-- Before the first occurrence a turn looks ahead at characters of the name only. -/
theorem scanReads_le (after : List UInt8) (h : binLetters <:+: filename) :
    ∀ i ∈ scanReads (filename ++ 0 :: after), i ≤ filename.length := by
  induction filename with
  | nil => exact absurd (List.infix_nil.1 h) (List.cons_ne_nil _ _)
  | cons c temp ih =>
    have hlen : 3 ≤ temp.length + 1 := h.length_le
    intro i hi
    rw [List.cons_append, scanReads] at hi
    rw [List.length_cons]
    have hnext : ¬ binLetters <+: c :: temp →
        ∀ j ∈ (scanReads (temp ++ 0 :: after)).map (· + 1), j ≤ temp.length + 1 := by
      intro hnot j hj
      obtain ⟨k, hk, rfl⟩ := List.mem_map.1 hj
      have := ih ((List.infix_cons_iff.1 h).resolve_left hnot) k hk
      omega
    split_ifs at hi with hb hc hd
    · simp only [List.mem_cons, List.not_mem_nil, or_false] at hi
      omega
    · have := hnext fun hp => hd ((found_iff c temp after).2 hp).2.2
      simp only [List.mem_cons] at hi
      rcases hi with rfl | rfl | rfl | hi
      · omega
      · omega
      · omega
      · exact this i hi
    · have := hnext fun hp => hc ((found_iff c temp after).2 hp).2.1
      simp only [List.mem_cons] at hi
      rcases hi with rfl | rfl | hi
      · omega
      · omega
      · exact this i hi
    · have := hnext fun hp => hb ((found_iff c temp after).2 hp).1
      rcases List.mem_cons.1 hi with rfl | hi
      · omega
      · exact this i hi

/-- **The first occurrence.** -/
theorem findBin_of_infix (after : List UInt8) (h : binLetters <:+: filename) :
    ∃ before rest, filename = before ++ binLetters ++ rest ∧
      ¬ binLetters <:+: before ++ binLetters.dropLast ∧
      findBin (filename ++ 0 :: after) = some (binLetters ++ rest ++ 0 :: after) := by
  induction filename with
  | nil => exact absurd (List.infix_nil.1 h) (List.cons_ne_nil _ _)
  | cons c temp ih =>
    rw [findBin_turn]
    by_cases hp : binLetters <+: c :: temp
    · obtain ⟨rest, hrest⟩ := hp
      refine ⟨[], rest, hrest.symm, ?_, ?_⟩
      · intro hin
        exact absurd hin.length_le (by decide)
      · rw [if_pos ⟨rest, hrest⟩, hrest]
    · obtain ⟨before, rest, rfl, hnot, hfind⟩ := ih ((List.infix_cons_iff.1 h).resolve_left hp)
      refine ⟨c :: before, rest, rfl, ?_, ?_⟩
      · intro hin
        refine (List.infix_cons_iff.1 hin).elim (fun hin => hp ?_) hnot
        apply hin.trans
        exact ⟨110 :: rest, by simp [binLetters]⟩
      · rw [if_neg hp, hfind]

/-! ## Names without the pattern -/

/-- **The loop searches the memory behind the name.** -/
theorem findBin_of_not_infix (after : List UInt8) (h : ¬ binLetters <:+: filename) :
    findBin (filename ++ 0 :: after) = findBin after := by
  induction filename with
  | nil => rfl
  | cons c temp ih =>
    rw [List.infix_cons_iff, not_or] at h
    rw [findBin_turn, if_neg h.1, ih h.2]

/-- What the call does is decided by that memory. -/
theorem execve_of_not_infix (t : Tarfs) (image : Mem) (after : List UInt8) (argv : UInt64)
    (newProc : Entry) (kernelRsp : UInt64) (m : Machine) (h : ¬ binLetters <:+: filename) :
    execve t image (filename ++ 0 :: after) argv newProc kernelRsp m =
      execve t image after argv newProc kernelRsp m := by
  rw [execve, findBin_of_not_infix after h, execve]

theorem reads_behind (after : List UInt8) (h : ¬ binLetters <:+: filename) :
    filename.length + 1 ∈ scanReads (filename ++ 0 :: after) := by
  induction filename with
  | nil => exact mem_scanReads_succ (fun hfound => by cases hfound.1) (zero_mem_scanReads after)
  | cons c temp ih =>
    rw [List.infix_cons_iff, not_or] at h
    exact mem_scanReads_succ (fun hfound => h.1 ((found_iff c temp after).1 hfound)) (ih h.2)

end

/-! ## The two together -/

/-- The search does what is asked of it exactly for the names that contain `bin`. -/
theorem execve_scan_iff (filename after : List UInt8) :
    ScansName filename after ↔ binLetters <:+: filename := by
  constructor
  · intro h
    by_contra hnot
    have := h.within _ (reads_behind after hnot)
    omega
  · intro hin
    obtain ⟨before, rest, hname, hnot, hfind⟩ := findBin_of_infix after hin
    refine ⟨?_, scanReads_le after hin, fun _ => ⟨before, rest, hname, hnot, hfind⟩,
      fun h => absurd hin h⟩
    rw [hfind]
    rfl

/-- `execve("ls")`, with the string at the end of the memory. -/
theorem execve_scan_fails : ¬ ScansName [108, 115] [] := by
  intro h
  exact absurd h.ends (by decide)

end Sbunix
