import Sbunix.ParentIndex
import Sbunix.Printf

/-!
# Listing a directory

`readdirect` passes over the table once. It sets `parent` at the entry that has the name of the
directory, and prints each entry behind it that starts with this name and has `parent` as its
`par_ind`.

`readdirectLoop_spec` prints the entries of a stretch of the table that does not hold the directory.
`directory_listing` joins the stretches in front of it and behind it.
-/

namespace Sbunix

open Lib

/-! ## The function -/

def sstrncmp : List UInt8 → List UInt8 → Nat → Except Fault Int
  | _, _, 0 => .ok 0
  | c :: str1, d :: str2, count + 1 =>
    if c ≠ 0 ∧ d ≠ 0 ∧ c = d then sstrncmp str1 str2 count else .ok (charValue c - charValue d)
  | _, _, _ => .error .outOfBounds

/-- `"%s     "`. -/
def entryFormat : List UInt8 := [37, 115, 32, 32, 32, 32, 32, 0]

/-- `"bin/   etc/  boot/   lib/   usr/"`. -/
def rootListing : List UInt8 :=
  ['b', 'i', 'n', '/', ' ', ' ', ' ', 'e', 't', 'c', '/', ' ', ' ', 'b', 'o', 'o', 't', '/', ' ',
    ' ', ' ', 'l', 'i', 'b', '/', ' ', ' ', ' ', 'u', 's', 'r', '/'].map Char.toUInt8

/-- The loop of `readdirect`, from an entry of the table on. -/
def readdirectLoop (direct : List UInt8) :
    List TarfsEntry → Int → Int → Console → Except Fault Console
  | [], _, _, _ => .error .outOfBounds
  | tarfsE :: fs, i, parent, s => do
    if (← strlen tarfsE.name) = 0 then kprintf [10, 0] [] s
    else if (← strcmp tarfsE.name direct) = 0 then readdirectLoop direct fs (i + 1) i s
    else
      let len ← strlen direct
      if (← sstrncmp tarfsE.name direct len) = 0 ∧ tarfsE.parInd = parent then
        let s ← kprintf entryFormat [.pointer (tarfsE.name.drop len)] s
        readdirectLoop direct fs (i + 1) parent s
      else readdirectLoop direct fs (i + 1) parent s

/-- `readdirect`, which returns 0. -/
def readdirect (direct : List UInt8) (fs : List TarfsEntry) (s : Console) :
    Except Fault Console := do
  if (← strlen direct) = 0 then
    let s ← kprintf (rootListing ++ [0]) [] s
    kprintf [10, 0] [] s
  else readdirectLoop direct fs 0 (-1) s

/-! ## What a turn does -/

/-- `kprintf("%s     ", name)`. -/
def Console.printEntry (s : Console) (name : List UInt8) : Console :=
  ((.chars name :: List.replicate 5 (.chars [32])).foldl Console.exec s).checkWidth

/-- `kprintf("\n")`. -/
def Console.endLine (s : Console) : Console := (s.exec .newline).checkWidth

section

variable {b b' n d direct : List UInt8} {s : Console}

theorem kprintf_entry (h : IsStr b n) (s : Console) :
    kprintf entryFormat [.pointer b] s = .ok (s.printEntry n) := by
  have hblanks : format [32, 32, 32, 32, 32, 0] [] = .ok (List.replicate 5 (.chars [32]), []) := rfl
  have hformat : format entryFormat [.pointer b] =
      .ok (.chars n :: List.replicate 5 (.chars [32]), []) := by
    rw [entryFormat, format_cons, if_neg (by decide), if_neg (by decide), if_pos (by decide)]
    simp only [directiveText]
    rw [if_neg (by decide), if_neg (by decide), if_neg (by decide), if_pos (by decide),
      cString_spec h]
    simp only [Except.map, ok_bind, hblanks]
  rw [kprintf_eq, hformat]
  rfl

theorem kprintf_newline (s : Console) : kprintf [10, 0] [] s = .ok s.endLine := rfl

theorem charValue_inj {c d : UInt8} : charValue c = charValue d ↔ c = d := by
  constructor
  · intro h
    have hc := c.toNat_lt
    have hd := d.toNat_lt
    unfold charValue at h
    apply UInt8.toNat_inj.1
    split_ifs at h <;> omega
  · rintro rfl
    rfl

/-- The comparison of the first bytes is zero exactly when they are those of the second string. -/
theorem sstrncmp_spec (h : IsStr b n) (h' : IsStr b' d) :
    ∃ r, sstrncmp b b' d.length = .ok r ∧ (r = 0 ↔ d <+: n) := by
  induction d generalizing b b' n with
  | nil => exact ⟨0, by cases b <;> rfl, by simp⟩
  | cons c' d ih =>
    obtain ⟨hc', b', rfl, hd⟩ := isStr_cons_iff.1 h'
    cases n with
    | nil =>
      obtain ⟨rest, rfl⟩ := isStr_nil_iff.1 h
      refine ⟨_, by rw [List.length_cons, sstrncmp, if_neg (by simp)], ?_⟩
      rw [sub_eq_zero, charValue_inj]
      simp [Ne.symm hc']
    | cons c n =>
      obtain ⟨hc, b, rfl, hn⟩ := isStr_cons_iff.1 h
      by_cases heq : c = c'
      · obtain ⟨r, hr, hiff⟩ := ih hn hd
        refine ⟨r, by rw [List.length_cons, sstrncmp, if_pos ⟨hc, hc', heq⟩, hr], ?_⟩
        rw [hiff, heq, List.cons_prefix_cons]
        simp
      · refine ⟨_, by rw [List.length_cons, sstrncmp, if_neg fun h => heq h.2.2], ?_⟩
        rw [sub_eq_zero, charValue_inj, List.cons_prefix_cons]
        simp [heq, Ne.symm heq]

end

/-! ## The pass over the table -/

section

variable {n direct : List UInt8} {d : Member} {es pre post : List Member} {fs : List TarfsEntry}

/-- A turn at the name of the directory. -/
theorem readdirectLoop_parent {f : TarfsEntry} (hdirect : IsStr direct d.name)
    (hf : IsStr f.name d.name) (after : List TarfsEntry) (i parent : Int) (s : Console) :
    readdirectLoop direct (f :: after) i parent s = readdirectLoop direct after (i + 1) i s := by
  obtain ⟨r, hr, hiff⟩ := strcmp_spec hf hdirect
  have hne := d.length_name_ne
  rw [readdirectLoop, strlen_spec hf, ok_bind, if_neg hne, hr, ok_bind, if_pos (hiff.2 rfl)]

/-- A turn at another name. -/
theorem readdirectLoop_entry {f : TarfsEntry} {e : Member} (hdirect : IsStr direct n)
    (hf : IsStr f.name e.name) (hother : e.name ≠ n) (after : List TarfsEntry) (i parent : Int)
    (s : Console) :
    readdirectLoop direct (f :: after) i parent s =
      readdirectLoop direct after (i + 1) parent
        (if n <+: e.name ∧ f.parInd = parent then s.printEntry (e.name.drop n.length) else s) := by
  obtain ⟨r, hr, hiff⟩ := strcmp_spec hf hdirect
  obtain ⟨r', hr', hiff'⟩ := sstrncmp_spec hf hdirect
  have hne := e.length_name_ne
  rw [readdirectLoop, strlen_spec hf, ok_bind, if_neg hne, hr, ok_bind,
    if_neg fun hzero => hother (hiff.1 hzero), strlen_spec hdirect, ok_bind, hr', ok_bind]
  by_cases hchild : n <+: e.name ∧ f.parInd = parent
  · have hdrop : IsStr (f.name.drop n.length) (e.name.drop n.length) := by
      obtain ⟨⟨tl, htl⟩, -⟩ := hchild
      obtain ⟨hnul, rest, hrest⟩ := hf
      refine ⟨fun hmem => hnul (List.mem_of_mem_drop hmem), rest, ?_⟩
      rw [hrest, ← htl, List.append_assoc, List.drop_left, List.drop_left]
    rw [if_pos ⟨hiff'.2 hchild.1, hchild.2⟩, if_pos hchild, kprintf_entry hdrop, ok_bind]
  · rw [if_neg fun h => hchild ⟨hiff'.1 h.1, h.2⟩, if_neg hchild]

/-- A stretch of the table without the directory: the entries are printed that `q` selects. -/
theorem readdirectLoop_spec {q : Member → Prop} [DecidablePred q] {parent : Int}
    (hdirect : IsStr direct n)
    (hentries : List.Forall₂ (fun f (e : Member) => IsStr f.name e.name ∧ e.name ≠ n ∧
      (n <+: e.name ∧ f.parInd = parent ↔ q e)) fs es)
    (after : List TarfsEntry) (i : Int) (s : Console) :
    readdirectLoop direct (fs ++ after) i parent s =
      readdirectLoop direct after (i + es.length) parent
        (((es.filter q).map fun e => e.name.drop n.length).foldl Console.printEntry s) := by
  induction hentries generalizing i s with
  | nil => simp
  | @cons f e fs es he _ ih =>
    obtain ⟨hf, hother, hq⟩ := he
    have hcount : i + 1 + (es.length : Int) = i + ((e :: es).length : Nat) := by
      rw [List.length_cons]
      omega
    rw [List.cons_append, readdirectLoop_entry hdirect hf hother, ih, hcount]
    by_cases hqe : q e
    · rw [if_pos (hq.2 hqe), List.filter_cons_of_pos (by simpa using hqe), List.map_cons,
        List.foldl_cons]
    · rw [if_neg fun h => hqe (hq.1 h), List.filter_cons_of_neg (by simpa using hqe)]

theorem forall₂_append_cons {α β : Type*} {R : α → β → Prop} {l : List α} {l₁ l₂ : List β} {b : β}
    (h : List.Forall₂ R l (l₁ ++ b :: l₂)) : ∃ front a back, l = front ++ a :: back ∧
      List.Forall₂ R front l₁ ∧ R a b ∧ List.Forall₂ R back l₂ := by
  have htake := List.forall₂_take_append l l₁ (b :: l₂) h
  have hdrop := List.forall₂_drop_append l l₁ (b :: l₂) h
  obtain ⟨a, back, ha, hback, heq⟩ := List.forall₂_cons_right_iff.1 hdrop
  refine ⟨_, a, back, ?_, htake, ha, hback⟩
  rw [← heq, List.take_append_drop]

theorem forall₂_mem {α β : Type*} {R : α → β → Prop} {l : List α} {l' : List β}
    (h : List.Forall₂ R l l') : List.Forall₂ (fun a b => b ∈ l' ∧ R a b) l l' :=
  ((List.forall₂_and_left l' l).2 ⟨fun _ hb => hb, h.flip⟩).flip

theorem parentIndex_ne_neg (es : List Member) (e : Member) : parentIndex es e ≠ -1 := by
  unfold parentIndex
  split_ifs <;> omega

theorem parentName_prefix (e : Member) : e.parentName <+: e.name := by
  obtain ⟨tl, htl, -⟩ := e.exists_tail
  exact htl ▸ (List.rdropWhile_prefix _ _).trans (List.prefix_append _ _)

/-- What is listed of a directory: the names of its members, without its own name. -/
def listing (es : List Member) (d : Member) : List (List UInt8) :=
  (es.filter fun e => e.parentName = d.name).map fun e => e.name.drop d.name.length

theorem name_notMem_of_nodup (hnodup : ((pre ++ d :: post).map Member.name).Nodup) :
    d.name ∉ pre.map Member.name := by
  rw [List.map_append, List.map_cons, List.nodup_append] at hnodup
  intro hmem
  exact hnodup.2.2 _ hmem _ List.mem_cons_self rfl

/-- The index of a directory is the index of its members' parent, and of no other member's. -/
theorem parentIndex_eq_iff {e : Member} (hnodup : ((pre ++ d :: post).map Member.name).Nodup)
    (hparent : e.parentName ≠ [] → e.parentName ∈ (pre ++ d :: post).map Member.name)
    (hcount : pre.length < 999) :
    parentIndex (pre ++ d :: post) e = pre.length ↔ e.parentName = d.name := by
  have hindex : ((pre ++ d :: post).map Member.name).idxOf d.name = pre.length := by
    rw [List.map_append, List.idxOf_append_of_notMem (name_notMem_of_nodup hnodup), List.map_cons,
      List.idxOf_cons_self, List.length_map, Nat.add_zero]
  rw [parentIndex]
  by_cases htop : e.parentName = []
  · rw [if_pos htop, htop]
    exact iff_of_false (by omega) (Ne.symm d.name_ne)
  · rw [if_neg htop, Nat.cast_inj, ← hindex]
    exact List.idxOf_inj (hparent htop)

/-- The parent of a member comes before it, so no member in front of a directory is in it. -/
theorem parentName_ne_of_before (hnodup : ((pre ++ d :: post).map Member.name).Nodup)
    (hparents : ParentsFirst (pre ++ d :: post)) {e : Member} (he : e ∈ pre ++ [d]) :
    e.parentName ≠ d.name := by
  intro hname
  obtain ⟨pre', post', hsplit⟩ := List.append_of_mem he
  have hall : pre ++ d :: post = pre' ++ e :: (post' ++ post) := by
    rw [List.append_cons, hsplit]
    simp
  obtain ⟨d', hd', -, hname'⟩ := hparents pre' e _ hall (hname ▸ d.name_ne)
  have hlen := congrArg List.length hsplit
  simp only [List.length_append, List.length_cons, List.length_nil] at hlen
  have hfront : pre' <+: pre ++ [d] := ⟨e :: post', hsplit.symm⟩
  have hprefix : pre' <+: pre :=
    List.prefix_of_prefix_length_le hfront (List.prefix_append _ _) (by omega)
  exact name_notMem_of_nodup hnodup (List.mem_map.2 ⟨d', hprefix.mem hd', hname'.trans hname⟩)

/-- **The listing of a directory.** On a table of at most 99 members with distinct names that
`tarfs_init` has filed, `readdirect` prints the members of the directory without its name, in the
order of the table and each once. -/
theorem directory_listing {sentinel : TarfsEntry} (rest : List TarfsEntry) (hcount : es.length ≤ 99)
    (hnodup : (es.map Member.name).Nodup) (hparents : ParentsFirst es)
    (htable : List.Forall₂ (Filed es) fs es) (hsentinel : IsStr sentinel.name []) (hd : d ∈ es)
    (hdirect : IsStr direct d.name) (s : Console) :
    readdirect direct (fs ++ sentinel :: rest) s =
      .ok ((listing es d).foldl Console.printEntry s).endLine := by
  obtain ⟨pre, post, rfl⟩ := List.append_of_mem hd
  obtain ⟨front, f, back, rfl, hfront, hf, hback⟩ : ∃ front f back, fs = front ++ f :: back ∧
      List.Forall₂ (Filed (pre ++ d :: post)) front pre ∧ Filed (pre ++ d :: post) f d ∧
      List.Forall₂ (Filed (pre ++ d :: post)) back post := forall₂_append_cons htable
  have hparent : ∀ e ∈ pre ++ d :: post, e.parentName ≠ [] →
      e.parentName ∈ (pre ++ d :: post).map Member.name := by
    intro e he hne
    obtain ⟨pre', post', hsplit⟩ := List.append_of_mem he
    obtain ⟨d', hd', -, hname⟩ := hparents pre' e post' hsplit hne
    rw [← hname]
    exact List.mem_map_of_mem (hsplit ▸ List.mem_append_left _ hd')
  rw [List.length_append, List.length_cons] at hcount
  have hbefore : List.Forall₂ (fun f (e : Member) => IsStr f.name e.name ∧ e.name ≠ d.name ∧
      (d.name <+: e.name ∧ f.parInd = -1 ↔ False)) front pre := by
    refine (forall₂_mem hfront).imp fun f e h => ⟨h.2.name, ?_, ?_⟩
    · intro hname
      exact name_notMem_of_nodup hnodup (List.mem_map.2 ⟨e, h.1, hname⟩)
    · rw [h.2.parInd]
      exact iff_false_intro fun h' => parentIndex_ne_neg _ e h'.2
  have hbehind : List.Forall₂ (fun f (e : Member) => IsStr f.name e.name ∧ e.name ≠ d.name ∧
      (d.name <+: e.name ∧ f.parInd = (pre.length : Int) ↔ e.parentName = d.name)) back post := by
    refine (forall₂_mem hback).imp fun f e h => ⟨h.2.name, ?_, ?_⟩
    · intro hname
      rw [List.map_append, List.map_cons, List.nodup_append, List.nodup_cons] at hnodup
      exact hnodup.2.1.1 (List.mem_map.2 ⟨e, h.1, hname⟩)
    · rw [h.2.parInd, parentIndex_eq_iff hnodup
        (hparent e (List.mem_append_right _ (List.mem_cons_of_mem _ h.1))) (by omega)]
      exact and_iff_right_of_imp fun hname => hname ▸ parentName_prefix e
  have hlisting : listing (pre ++ d :: post) d = listing post d := by
    have hnone : (pre ++ [d]).filter (fun e => e.parentName = d.name) = [] := by
      rw [List.filter_eq_nil_iff]
      intro e he
      simpa using parentName_ne_of_before hnodup hparents he
    rw [listing, List.append_cons, List.filter_append, hnone, List.nil_append, listing]
  have hne := d.length_name_ne
  rw [readdirect, strlen_spec hdirect, ok_bind, if_neg hne, List.append_assoc,
    readdirectLoop_spec hdirect hbefore, List.filter_eq_nil_iff.2 (fun _ _ => by simp),
    List.map_nil, List.foldl_nil, List.cons_append, readdirectLoop_parent hdirect hf.name,
    Int.zero_add, readdirectLoop_spec hdirect hbehind, hlisting, readdirectLoop,
    strlen_spec hsentinel, ok_bind, if_pos List.length_nil, kprintf_newline]
  rfl

end

/-- `bin/` has the entry `ls`. -/
theorem directory_listing_bin :
    readdirect (binDirectory.name ++ [0])
        ([⟨binDirectory.name ++ [0], 0, 5, 0, 999⟩, ⟨lsFile.name ++ [0], 3, 0, 0, 0⟩] ++
          .zero :: []) Console.boot =
      .ok (Console.boot.printEntry [108, 115]).endLine := by
  have hbin : Filed [binDirectory, lsFile] ⟨binDirectory.name ++ [0], 0, 5, 0, 999⟩ binDirectory :=
    ⟨⟨binDirectory.nul_notMem, [], rfl⟩, by decide⟩
  have hls : Filed [binDirectory, lsFile] ⟨lsFile.name ++ [0], 3, 0, 0, 0⟩ lsFile :=
    ⟨⟨lsFile.nul_notMem, [], rfl⟩, by decide⟩
  have hlisting : listing [binDirectory, lsFile] binDirectory = [[108, 115]] := by decide
  have h := directory_listing [] (by decide) (by decide) parentsFirst_ls
    (.cons hbin (.cons hls .nil)) isStr_zero List.mem_cons_self ⟨binDirectory.nul_notMem, [], rfl⟩
    Console.boot
  rwa [hlisting, List.foldl_cons, List.foldl_nil] at h

end Sbunix
