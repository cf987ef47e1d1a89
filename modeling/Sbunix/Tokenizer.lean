import Sbunix.Lib.Words
import Sbunix.Strings
import Mathlib.Logic.Function.Basic

/-!
# The tokenizer

`strtok` keeps a pointer into the string that it takes apart. A call skips delimiters, looks for the
next one and overwrites it with a NUL, and moves the pointer behind it. When nothing is left it sets
the pointer to `NULL`, and only then the next string can be given to it.

The invariant is that the unread suffix of the string is what the pointer points to: `strtok_spec`.
The pieces are the words of the string, of the library `Lib.Words`.
-/

namespace Sbunix

open Lib

/-- A pointer into an object. -/
structure StrPtr where
  obj : Nat
  off : Nat

/-- The static variable `token`, and the bytes of the objects. -/
structure TokState where
  token : Option StrPtr
  mem : Nat → List UInt8

/-- The `for` loops: the index of the first of the delimiters that is `c`, or their number. -/
def delimIndex (c : UInt8) : List UInt8 → Nat
  | [] => 0
  | d :: delims => if c = d then 0 else delimIndex c delims + 1

/-- The first loop, from the bytes at `str_ptr` on: how far it moves the pointer. -/
def skipLoop (delims : List UInt8) : List UInt8 → Except Fault Nat
  | [] => .error .outOfBounds
  | c :: bytes =>
    if delimIndex c delims = delims.length then .ok 0 else (skipLoop delims bytes).map (· + 1)

/-- The second loop, from the bytes at `token` on: their new contents, and how far it moves the
pointer. -/
def cutLoop (delims : List UInt8) : List UInt8 → Except Fault (List UInt8 × Nat)
  | [] => .error .outOfBounds
  | c :: bytes =>
    if c = 0 then .ok (c :: bytes, 0)
    else if delimIndex c delims < delims.length then .ok (0 :: bytes, 1)
    else (cutLoop delims bytes).map fun r => (c :: r.1, r.2 + 1)

/-- What `strtok` does with the pointer that it has taken. -/
def cutToken (delims : List UInt8) (token : StrPtr) (st : TokState) :
    Except Fault (Option StrPtr × TokState) := do
  let object := st.mem token.obj
  let strPtr := token.off + (← skipLoop delims (object.drop token.off))
  if object[strPtr]? = some 0 then .ok (none, { st with token := none })
  else
    let (bytes, moved) ← cutLoop delims (object.drop strPtr)
    .ok (some ⟨token.obj, strPtr⟩, ⟨some ⟨token.obj, strPtr + moved⟩,
      Function.update st.mem token.obj (object.take strPtr ++ bytes)⟩)

/-- `strtok`, with the pointer that it returns. -/
def strtok (parseStr : Option StrPtr) (delims : List UInt8) (st : TokState) :
    Except Fault (Option StrPtr × TokState) := do
  let strLen ← strlen delims
  match st.token.or parseStr with
  | none => .ok (none, st)
  | some token => cutToken (delims.take strLen) token st

/-! ## Calls -/

/-- The string at a pointer. -/
def TokState.Holds (st : TokState) (p : StrPtr) (s : List UInt8) : Prop :=
  IsStr ((st.mem p.obj).drop p.off) s

/-- The calls `strtok(p, delims)`, `strtok(NULL, delims)`, … return pointers to these strings, and
then `NULL`. -/
inductive Tokenized (delims : List UInt8) :
    Option StrPtr → TokState → List (List UInt8) → TokState → Prop
  | stop {p st st'} (h : strtok p delims st = .ok (none, st')) : Tokenized delims p st [] st'
  | next {p st q st₁ w ws st'} (h : strtok p delims st = .ok (some q, st₁)) (hw : st₁.Holds q w)
      (hrest : Tokenized delims none st₁ ws st') : Tokenized delims p st (w :: ws) st'

/-- A string to take apart, and the delimiters. -/
structure TokJob where
  obj : Nat
  str : List UInt8
  delims : List UInt8
  seps : List UInt8

/-- The strings are taken apart one after the other, and each time `token` is `NULL` in the end. -/
inductive TokenizedAll : TokState → List TokJob → TokState → Prop
  | nil (st) : TokenizedAll st [] st
  | cons {st job st₁ jobs st'} (h : Tokenized job.delims (some ⟨job.obj, 0⟩) st
      (words (· ∈ job.seps) job.str) st₁) (hnone : st₁.token = none)
      (hrest : TokenizedAll st₁ jobs st') : TokenizedAll st (job :: jobs) st'

/-- Only the object of the string changes. -/
def SameOthers (obj : Nat) (st st' : TokState) : Prop := ∀ o, o ≠ obj → st'.mem o = st.mem o

/-- The calls determine the strings, and the state in the end. -/
theorem Tokenized.unique {delims : List UInt8} {p : Option StrPtr} {st st₁ st₂ : TokState}
    {ws₁ ws₂ : List (List UInt8)} (h₁ : Tokenized delims p st ws₁ st₁)
    (h₂ : Tokenized delims p st ws₂ st₂) : ws₁ = ws₂ ∧ st₁ = st₂ := by
  induction h₁ generalizing ws₂ st₂ with
  | stop h =>
    cases h₂ with
    | stop h' =>
      rw [h, Except.ok.injEq, Prod.mk.injEq] at h'
      exact ⟨rfl, h'.2⟩
    | next h' hw' hrest' =>
      rw [h] at h'
      cases h'
  | next h hw hrest ih =>
    cases h₂ with
    | stop h' =>
      rw [h] at h'
      cases h'
    | next h' hw' hrest' =>
      rw [h, Except.ok.injEq, Prod.mk.injEq, Option.some.injEq] at h'
      obtain ⟨rfl, rfl⟩ := h'
      obtain ⟨rfl, rfl⟩ := ih hrest'
      exact ⟨by rw [IsStr.unique hw hw'], rfl⟩

/-! ## The loops -/

section

variable {delims bytes s w l : List UInt8} {c : UInt8}

theorem delimIndex_le (c : UInt8) (delims : List UInt8) :
    delimIndex c delims ≤ delims.length := by
  induction delims with
  | nil => exact le_rfl
  | cons d delims ih =>
    rw [delimIndex]
    split_ifs
    · exact Nat.zero_le _
    · exact Nat.succ_le_succ ih

theorem delimIndex_lt_iff : delimIndex c delims < delims.length ↔ c ∈ delims := by
  induction delims with
  | nil => exact iff_of_false (Nat.not_lt_zero _) List.not_mem_nil
  | cons d delims ih =>
    rw [delimIndex, List.mem_cons, List.length_cons]
    split_ifs with hc
    · exact iff_of_true (Nat.zero_lt_succ _) (Or.inl hc)
    · rw [Nat.succ_lt_succ_iff, ih, or_iff_right hc]

theorem words_cons (hc : c ∈ delims) : words (· ∈ delims) (c :: s) = words (· ∈ delims) s := by
  rw [words_eq, words_eq, fields_cons, if_pos (decide_eq_true hc)]
  rfl

theorem words_nil : words (· ∈ delims) [] = [] := by
  rw [words_eq]
  rfl

/-- The delimiters that are skipped change nothing of the words. -/
theorem skipLoop_spec (hnul : 0 ∉ delims) (h : IsStr bytes s) :
    ∃ k s', skipLoop delims bytes = .ok k ∧ IsStr (bytes.drop k) s' ∧ s'.length ≤ s.length ∧
      words (· ∈ delims) s = words (· ∈ delims) s' ∧ ∀ c ∈ s'.head?, c ∉ delims := by
  induction s generalizing bytes with
  | nil =>
    obtain ⟨rest, rfl⟩ := isStr_nil_iff.1 h
    have hstop : delimIndex 0 delims = delims.length :=
      (delimIndex_le 0 delims).eq_or_lt.resolve_right (mt delimIndex_lt_iff.1 hnul)
    exact ⟨0, [], by rw [skipLoop, if_pos hstop], h, le_rfl, rfl, fun c hc => by cases hc⟩
  | cons c s ih =>
    obtain ⟨hc, bytes, rfl, hs⟩ := isStr_cons_iff.1 h
    rw [skipLoop]
    by_cases hmem : c ∈ delims
    · rw [if_neg (delimIndex_lt_iff.2 hmem).ne]
      obtain ⟨k, s', hk, hstr, hlen, hwords, hhead⟩ := ih hs
      refine ⟨k + 1, s', by rw [hk]; rfl, hstr, Nat.le_succ_of_le hlen, ?_, hhead⟩
      rw [words_cons hmem, hwords]
    · rw [if_pos ((delimIndex_le c delims).eq_or_lt.resolve_right (mt delimIndex_lt_iff.1 hmem))]
      refine ⟨0, c :: s, rfl, h, le_rfl, rfl, fun d hd => ?_⟩
      obtain rfl := Option.some.inj hd
      exact hmem

/-- The word at the pointer gets its NUL, and the pointer goes on behind that. -/
theorem cutLoop_spec (h : IsStr bytes s) :
    ∃ bytes' k w s', cutLoop delims bytes = .ok (bytes', k) ∧ bytes'.length = bytes.length ∧
      IsStr bytes' w ∧ IsStr (bytes'.drop k) s' ∧ (∀ c ∈ w, c ∉ delims) ∧
      (s = w ∧ s' = [] ∨ ∃ d ∈ delims, s = w ++ d :: s') := by
  induction s generalizing bytes with
  | nil =>
    obtain ⟨rest, rfl⟩ := isStr_nil_iff.1 h
    exact ⟨0 :: rest, 0, [], [], if_pos rfl, rfl, h, h, fun c hc => (by cases hc),
      Or.inl ⟨rfl, rfl⟩⟩
  | cons c s ih =>
    obtain ⟨hc, bytes, rfl, hs⟩ := isStr_cons_iff.1 h
    rw [cutLoop, if_neg hc]
    by_cases hmem : c ∈ delims
    · rw [if_pos (delimIndex_lt_iff.2 hmem)]
      exact ⟨0 :: bytes, 1, [], s, rfl, rfl, isStr_nil_iff.2 ⟨bytes, rfl⟩, hs,
        fun c hc => (by cases hc), Or.inr ⟨c, hmem, rfl⟩⟩
    · rw [if_neg (mt delimIndex_lt_iff.1 hmem)]
      obtain ⟨bytes', k, w, s', hcut, hlen, hw, hs', hfree, hsplit⟩ := ih hs
      refine ⟨c :: bytes', k + 1, c :: w, s', by rw [hcut]; rfl, congrArg (· + 1) hlen,
        isStr_cons_iff.2 ⟨hc, bytes', rfl, hw⟩, hs', ?_, ?_⟩
      · rw [List.forall_mem_cons]
        exact ⟨hmem, hfree⟩
      · rcases hsplit with ⟨rfl, rfl⟩ | ⟨d, hd, rfl⟩
        · exact Or.inl ⟨rfl, rfl⟩
        · exact Or.inr ⟨d, hd, rfl⟩

/-- The word is not empty, so that the suffix becomes shorter. -/
theorem ne_nil_of_split {s' : List UInt8} (hc : c ∉ delims)
    (hsplit : c :: s = w ∧ s' = [] ∨ ∃ d ∈ delims, c :: s = w ++ d :: s') :
    w ≠ [] ∧ s'.length < (c :: s).length := by
  rcases hsplit with ⟨rfl, rfl⟩ | ⟨d, hd, hcons⟩
  · exact ⟨List.cons_ne_nil c s, Nat.zero_lt_succ _⟩
  · constructor
    · rintro rfl
      obtain ⟨rfl, -⟩ := List.cons.inj hcons
      exact hc hd
    · rw [hcons, List.length_append, List.length_cons]
      omega

/-- The first word, and those behind it. -/
theorem words_split {s' : List UInt8} (hne : w ≠ []) (hfree : ∀ c ∈ w, c ∉ delims)
    (hsplit : s = w ∧ s' = [] ∨ ∃ d ∈ delims, s = w ++ d :: s') :
    words (· ∈ delims) s = w :: words (· ∈ delims) s' := by
  have hfree' : ∀ x ∈ w, ¬ decide (x ∈ delims) = true := by
    intro x hx
    rw [decide_eq_true_eq]
    exact hfree x hx
  have hnonempty : (! w.isEmpty) = true := by
    rw [Bool.not_eq_true', List.isEmpty_eq_false_iff]
    exact hne
  rcases hsplit with ⟨rfl, rfl⟩ | ⟨d, hd, rfl⟩
  · rw [words_nil, words_eq, fields_of_forall hfree' hne, List.filter_cons, if_pos hnonempty]
    rfl
  · rw [words_eq, words_eq, fields_append_cons hfree' (decide_eq_true hd),
      List.filter_cons, if_pos hnonempty]

/-- What lies behind an index is given new contents. -/
theorem drop_take_append {object : List UInt8} {i : Nat} (hi : i ≤ object.length) (j : Nat) :
    (object.take i ++ bytes).drop (i + j) = bytes.drop j := by
  have htake : (object.take i).length = i := by
    rw [List.length_take, Nat.min_eq_left hi]
  rw [List.drop_append, htake, List.drop_of_length_le (by omega), List.nil_append,
    Nat.add_sub_cancel_left]

end

/-! ## Calls -/

section

variable {delims d s : List UInt8} {st st' : TokState} {p : Option StrPtr} {token : StrPtr}

theorem strtok_eq (hdelims : IsStr delims d) (htoken : st.token.or p = some token) :
    strtok p delims st = cutToken d token st := by
  obtain ⟨rest, hrest⟩ := hdelims.2
  rw [strtok, strlen_spec hdelims, ok_bind, htoken, hrest, List.take_left]

/-- A call finds the first word of the unread suffix, or its end. -/
theorem cutToken_spec (hnul : 0 ∉ d) (h : st.Holds token s) :
    (words (· ∈ d) s = [] ∧ cutToken d token st = .ok (none, { st with token := none })) ∨
    ∃ q token' st' w s', cutToken d token st = .ok (some q, st') ∧ st'.Holds q w ∧
      st'.token = some token' ∧ st'.Holds token' s' ∧ token'.obj = token.obj ∧
      SameOthers token.obj st st' ∧ s'.length < s.length ∧
      words (· ∈ d) s = w :: words (· ∈ d) s' := by
  obtain ⟨k, s₁, hskip, hstr, hle, hwords, hhead⟩ := skipLoop_spec hnul h
  rw [List.drop_drop] at hstr
  unfold cutToken
  simp only [hskip, ok_bind]
  by_cases hend : s₁ = []
  · left
    subst hend
    obtain ⟨rest, hrest⟩ := isStr_nil_iff.1 hstr
    have hzero : (st.mem token.obj)[token.off + k]? = some 0 := by
      rw [← List.head?_drop, hrest]
      rfl
    rw [if_pos hzero]
    exact ⟨hwords, rfl⟩
  · right
    obtain ⟨c, s₂, rfl⟩ := List.exists_cons_of_ne_nil hend
    obtain ⟨hc, bytes, hbytes, -⟩ := isStr_cons_iff.1 hstr
    have hchar : (st.mem token.obj)[token.off + k]? = some c := by
      rw [← List.head?_drop, hbytes]
      rfl
    have hne : (st.mem token.obj)[token.off + k]? ≠ some 0 := by
      rw [hchar]
      exact fun h => hc (Option.some.inj h)
    rw [if_neg hne]
    obtain ⟨bytes', moved, w, s', hcut, hlen, hw, hs', hfree, hsplit⟩ := @cutLoop_spec d _ _ hstr
    obtain ⟨hword, hshorter⟩ := ne_nil_of_split (hhead c rfl) hsplit
    have hin : token.off + k ≤ (st.mem token.obj).length := by
      have hlt := hstr.length_lt
      rw [List.length_drop] at hlt
      omega
    have hdrop := @drop_take_append bytes' _ _ hin
    refine ⟨⟨token.obj, token.off + k⟩, ⟨token.obj, token.off + k + moved⟩,
      ⟨some ⟨token.obj, token.off + k + moved⟩, Function.update st.mem token.obj
        ((st.mem token.obj).take (token.off + k) ++ bytes')⟩, w, s', ?_, ?_, rfl, ?_, rfl, ?_,
      Nat.lt_of_lt_of_le hshorter hle, ?_⟩
    · rw [hcut]
      rfl
    · have hword' := hdrop 0
      rw [Nat.add_zero, List.drop_zero] at hword'
      simp only [TokState.Holds, Function.update_self, hword']
      exact hw
    · simp only [TokState.Holds, Function.update_self, hdrop]
      exact hs'
    · intro o ho
      exact Function.update_of_ne ho _ _
    · rw [hwords, words_split hword hfree hsplit]

/-- The calls find the words of the unread suffix, one after the other. -/
theorem tokenized_words (hdelims : IsStr delims d) (htoken : st.token.or p = some token)
    (h : st.Holds token s) :
    ∃ st', Tokenized delims p st (words (· ∈ d) s) st' ∧ st'.token = none ∧
      SameOthers token.obj st st' := by
  induction hn : s.length using Nat.strong_induction_on generalizing p st token s with
  | _ n ih =>
    subst hn
    have hcall := strtok_eq hdelims htoken
    rcases cutToken_spec hdelims.1 h with ⟨hwords, hcut⟩ |
      ⟨q, token', st₁, w, s', hcut, hw, htoken', hs', hobj, hothers, hlen, hwords⟩
    · rw [hwords]
      exact ⟨_, Tokenized.stop (hcall.trans hcut), rfl, fun o _ => rfl⟩
    · have hor : st₁.token.or none = some token' := by
        rw [htoken', Option.some_or]
      obtain ⟨st', hrun, hnone, hothers'⟩ := ih s'.length hlen hor hs' rfl
      rw [hwords]
      refine ⟨st', Tokenized.next (hcall.trans hcut) hw hrun, hnone, fun o ho => ?_⟩
      rw [hothers' o (hobj ▸ ho), hothers o ho]

/-! ## Sequences of strings -/

/-- **The tokenizer.** From `NULL` on, the calls for a string return its maximal pieces without a
delimiter, in their order, and then `NULL`, and so do those for the next strings. -/
theorem tokenizer {jobs : List TokJob} (hnone : st.token = none)
    (hstr : ∀ job ∈ jobs, IsStr (st.mem job.obj) job.str)
    (hdelims : ∀ job ∈ jobs, IsStr job.delims job.seps)
    (hobjs : jobs.Pairwise fun a b => a.obj ≠ b.obj) :
    ∃ st', TokenizedAll st jobs st' ∧ st'.token = none := by
  induction jobs generalizing st with
  | nil => exact ⟨st, TokenizedAll.nil st, hnone⟩
  | cons job jobs ih =>
    rw [List.forall_mem_cons] at hstr hdelims
    rw [List.pairwise_cons] at hobjs
    have hfirst : st.token.or (some ⟨job.obj, 0⟩) = some ⟨job.obj, 0⟩ := by
      rw [hnone, Option.none_or]
    obtain ⟨st₁, hrun, hnone₁, hothers⟩ :=
      @tokenized_words _ _ job.str _ _ _ hdelims.1 hfirst hstr.1
    have hstr₁ : ∀ j ∈ jobs, IsStr (st₁.mem j.obj) j.str := by
      intro j hj
      rw [hothers j.obj (hobjs.1 j hj).symm]
      exact hstr.2 j hj
    obtain ⟨st', hrest, hnone'⟩ := ih hnone₁ hstr₁ hdelims.2 hobjs.2
    exact ⟨st', TokenizedAll.cons hrun hnone₁ hrest, hnone'⟩

end

/-- `"a b"` at blanks, and then `",,cd,"` at commas. -/
def tokJobs : List TokJob :=
  [⟨0, [97, 32, 98], [32, 0], [32]⟩, ⟨1, [44, 44, 99, 100, 44], [44, 0], [44]⟩]

def tokStart : TokState :=
  ⟨none, fun o => if o = 0 then [97, 32, 98, 0] else [44, 44, 99, 100, 44, 0]⟩

theorem tokenizer_blanks_commas : ∃ st', TokenizedAll tokStart tokJobs st' ∧ st'.token = none := by
  apply tokenizer
  · rfl
  · rw [tokJobs, List.forall_mem_cons, List.forall_mem_singleton]
    exact ⟨⟨by decide, [], rfl⟩, by decide, [], rfl⟩
  · rw [tokJobs, List.forall_mem_cons, List.forall_mem_singleton]
    exact ⟨⟨by decide, [], rfl⟩, by decide, [], rfl⟩
  · rw [tokJobs, List.pairwise_pair]
    decide

end Sbunix
