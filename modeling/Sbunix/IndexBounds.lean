import Sbunix.Listing

/-!
# The bounds of the index

The table has room for 100 entries of names of 100 bytes, and nothing checks either. The scans stop
at an empty name, which is behind the last entry only when one is left.

`tarfsInit_inv` says what a run of `tarfs_init` needs to come to its end, and `openfile_full` that a
full table is left by a scan. `index_bounds_iff` puts them together.
-/

namespace Sbunix

open Lib

/-- `tarfs_init` and the scans of the table come to their ends, without an access outside of the
table or of a name. -/
def IndexSafe (junk : List UInt8) (tarfsE : TarfsEntry) (t : Tarfs) : Prop :=
  ∃ fs n, tarfsInit junk tarfsE t = .ok (fs, n) ∧ ∀ name s, IsStr name s →
    (∃ r, openfile name fs = .ok r) ∧ (∃ r, opendirect name fs = .ok r) ∧
      ∀ console, ∃ c, readdirect name fs console = .ok c

section

variable {name s junk : List UInt8} {filled : List TarfsEntry} {t : Tarfs} {tarfsE : TarfsEntry}
  {es : List Member} {us : List UstarMember}

/-- A scan for a name that the full table does not have leaves the table. -/
theorem openfile_full {xs : List (Member × Nat)} (hname : IsStr name s)
    (hindex : List.Forall₂ Indexes filled xs) (hnone : ∀ x ∈ xs, x.1.name ≠ s) :
    openfile name filled = .error .outOfBounds := by
  induction hindex with
  | nil => rfl
  | @cons f x filled xs hf _ ih =>
    obtain ⟨r, hr, hiff⟩ := strcmp_spec hf.name hname
    have hne := x.1.length_name_ne
    have hother : ¬ (r = 0 ∧ f.typeflag = fileType) :=
      fun h => hnone x List.mem_cons_self (hiff.1 h.1)
    rw [openfile, strlen_spec hf.name, ok_bind, if_neg hne, hr, ok_bind, if_neg hother]
    exact ih fun y hy => hnone y (List.mem_cons_of_mem _ hy)

/-- The loop of `readdirect` ends at the first empty name. -/
theorem readdirectLoop_ok (rest : List TarfsEntry) (hname : IsStr name s)
    (hindex : List.Forall₂ (fun f (d : Member) => IsStr f.name d.name) filled es)
    (i parent : Int) (c : Console) :
    ∃ c', readdirectLoop name (filled ++ .zero :: rest) i parent c = .ok c' := by
  induction hindex generalizing i parent c with
  | nil =>
    refine ⟨c.endLine, ?_⟩
    rw [List.nil_append, readdirectLoop, strlen_spec isStr_zero, ok_bind, if_pos List.length_nil,
      kprintf_newline]
  | @cons f e filled es hf _ ih =>
    rw [List.cons_append]
    by_cases hother : e.name = s
    · rw [readdirectLoop_parent (hother ▸ hname) hf]
      exact ih _ _ _
    · rw [readdirectLoop_entry hname hf hother]
      exact ih _ _ _

theorem kprintf_text {text : List UInt8} (hnul : 0 ∉ text) (hpercent : '%'.toUInt8 ∉ text)
    (c : Console) : kprintf (text ++ [0]) [] c = .ok (c.printText text) := by
  rw [kprintf, kprintfFrom_text hnul hpercent]
  rfl

theorem readdirect_ok (rest : List TarfsEntry) (hname : IsStr name s)
    (hindex : List.Forall₂ (fun f (d : Member) => IsStr f.name d.name) filled es) (c : Console) :
    ∃ c', readdirect name (filled ++ .zero :: rest) c = .ok c' := by
  rw [readdirect, strlen_spec hname, ok_bind]
  by_cases hempty : s.length = 0
  · have hroot := kprintf_text (show 0 ∉ rootListing by decide) (by decide) c
    exact ⟨_, by rw [if_pos hempty, hroot, ok_bind, kprintf_newline]⟩
  · rw [if_neg hempty]
    exact readdirectLoop_ok rest hname hindex 0 (-1) c

/-- **The bounds of the index.** `tarfs_init` and the scans stay in the table and in the names if
and only if the archive has at most 99 members whose names leave room for the NUL, and each of them
is behind its directory or at the top level with a name of at least two characters. -/
theorem index_bounds_iff (harch : UstarArchive t.mem us) (hsizes : ∀ u ∈ us, SizeRead u.size)
    (hlen : ustarLength us < 2 ^ 31) (haddr : t.start + ustarLength us ≤ 2 ^ 64)
    (hjunk : junk.length = 100) (htarfsE : tarfsE.name.length = 100) :
    IndexSafe junk tarfsE t ↔ ∃ ms : List Member, us = ms.map Member.ustar ∧ ms.length ≤ 99 ∧
      ∀ pre e post, ms = pre ++ e :: post → Placed pre e := by
  have hrun : ∀ ms : List Member, us = ms.map Member.ustar → ms.length ≤ 100 →
      (∀ pre e post, ms = pre ++ e :: post → Placed pre e) →
      ∃ filled, tarfsInit junk tarfsE t =
          .ok (filled ++ List.replicate (100 - ms.length) .zero, ms.length) ∧
        List.Forall₂ Indexes filled (located t.start ms) := by
    rintro ms rfl hcount hplaced
    rw [ustarLength_map] at hlen haddr
    refine tarfsInit_placed hcount hplaced (ustarArchive_map.1 harch) hlen haddr hjunk htarfsE ?_
    intro e he bytes hheader
    exact octalToDecimal_of_sizeRead (hsizes _ (List.mem_map_of_mem he)) hheader.size
  constructor
  · rintro ⟨fs, n, hinit, hscan⟩
    obtain ⟨ms, hms, hcount, hplaced⟩ := tarfsInit_inv harch hsizes hlen hjunk htarfsE hinit
    refine ⟨ms, hms, ?_, hplaced⟩
    by_contra hfull
    obtain ⟨filled, hinit', hindex⟩ := hrun ms hms hcount hplaced
    rw [show 100 - ms.length = 0 by omega, List.replicate_zero, List.append_nil, hinit,
      Except.ok.injEq, Prod.mk.injEq] at hinit'
    have hempty : IsStr [0] [] := isStr_nil_iff.2 ⟨[], rfl⟩
    obtain ⟨r, hr⟩ := (hscan [0] [] hempty).1
    rw [hinit'.1, openfile_full hempty hindex fun x _ => x.1.name_ne] at hr
    cases hr
  · rintro ⟨ms, hms, hcount, hplaced⟩
    obtain ⟨filled, hinit, hindex⟩ := hrun ms hms (by omega) hplaced
    obtain ⟨k, hk⟩ : ∃ k, 100 - ms.length = k + 1 := ⟨100 - ms.length - 1, by omega⟩
    rw [hk, List.replicate_succ] at hinit
    refine ⟨_, _, hinit, fun name s hname => ⟨⟨_, openfile_spec _ hname hindex⟩,
      ⟨_, lookup_spec .directory _ hname hindex⟩, fun console => ?_⟩⟩
    exact readdirect_ok _ hname (forall₂_names hindex) console

end

/-- The index of `bin/ls` is safe. -/
theorem index_bounds_ls :
    IndexSafe (List.replicate 100 0) .zero (tarfsOf [(binDirectory, []), (lsFile, [1, 2, 3])]) := by
  have harch : Archive (tarfsOf [(binDirectory, []), (lsFile, [1, 2, 3])]).mem
      [binDirectory, lsFile] := archive_tarfsOf (by decide)
  have hsizes : ∀ u ∈ [binDirectory, lsFile].map Member.ustar, SizeRead u.size := by
    intro u hu
    rcases List.mem_pair.1 hu with rfl | rfl
    · exact sizeRead_of_lt (by decide)
    · exact sizeRead_of_lt (by decide)
  exact (index_bounds_iff (ustarArchive_map.2 harch) hsizes (by decide) (by decide)
    List.length_replicate List.length_replicate).2 ⟨_, rfl, by decide, placed_ls⟩

/-- A file with a name of a hundred times `a`. -/
def longName : UstarMember :=
  ⟨List.replicate 100 97, 0, .file, by decide, by decide, by decide⟩

/-- An archive with this file, whose mode is `0000644`. -/
def longNameTarfs : Tarfs :=
  ⟨0xffffffff80300000, 0xffffffff80300000 + 1024,
    (longName.name ++ ([48, 48, 48, 48, 54, 52, 52] ++ List.replicate 17 0)) ++
      ((octal 11 0).map digitByte ++ 0 :: (List.replicate 20 0 ++ 48 :: List.replicate 355 0)) ++
      List.replicate 512 0⟩

/-- `tarfs_init` copies a name of a hundred bytes beyond the field `name`. -/
theorem index_bounds_long : UstarArchive longNameTarfs.mem [longName] ∧
    ¬ IndexSafe (List.replicate 100 0) .zero longNameTarfs := by
  have harch : UstarArchive longNameTarfs.mem [longName] := by
    refine ⟨⟨?_, fun h => ?_, ?_, ?_, ?_⟩, ?_⟩
    · exact ((List.prefix_append _ _).trans (List.prefix_append _ _)).trans
        (List.prefix_append _ _)
    · exact absurd h (by simp [longName])
    · exact ⟨octal 11 0, 0, _, rfl, length_octal _ _, fun d hd => octal_lt hd, by decide,
        ofDigits_octal (by norm_num)⟩
    · exact ⟨48, _, rfl, by decide⟩
    · rfl
    · exact ⟨[], by
        rw [List.append_nil]
        refine List.drop_left' ?_
        simp only [List.length_append, List.length_cons, List.length_nil, List.length_map,
          List.length_replicate, length_octal, longName, padded]⟩
  refine ⟨harch, ?_⟩
  rintro ⟨fs, n, hinit, -⟩
  have hsizes : ∀ u ∈ [longName], SizeRead u.size := by
    intro u hu
    rw [List.mem_singleton.1 hu]
    exact sizeRead_of_lt (by decide)
  obtain ⟨ms, hms, -, -⟩ := tarfsInit_inv harch hsizes (by decide) List.length_replicate
    List.length_replicate hinit
  obtain ⟨e, -, he⟩ := List.mem_map.1 (show longName ∈ ms.map Member.ustar by rw [← hms]; simp)
  have hlen := e.length_le
  rw [show e.name = longName.name from congrArg UstarMember.name he] at hlen
  exact absurd hlen (by simp [longName])

end Sbunix
