import Sbunix.ParentIndex

/-!
# The index and the archive

`tarfs_init` fills the table with the members of the archive, and `openfile` and `getElfHeader` find
them, if and only if the search for the parent of each member ends: `archive_index_iff`. The search
is the one of `ParentIndex`, and the condition is `Placed`.

The names of directories are not asked to end in `'/'`. `get_per_ind` leaves the last byte of a
directory's name out whatever it is, so a directory `a/` at the top level has a name of one byte for
it, and so has a directory `ab` that is stored without a `'/'`.
-/

namespace Sbunix

open Lib

/-- `tarfs_init` comes to its end with the members in their order, and both lookups find every
regular file, and nothing for a name that no member has. -/
def IndexAgrees (junk : List UInt8) (tarfsE : TarfsEntry) (t : Tarfs) (es : List Member) : Prop :=
  ∃ fs, tarfsInit junk tarfsE t = .ok (fs, es.length) ∧
    List.Forall₂ Indexes (fs.take es.length) (located t.start es) ∧
    (∀ x ∈ located t.start es, x.1.kind = .file → ∀ file, IsStr file x.1.name →
      openfile file fs = .ok x.2 ∧ getElfHeader t file = .ok (x.2 + 512)) ∧
    ∀ file s, IsStr file s → s ≠ [] → (∀ e ∈ es, e.name ≠ s) →
      openfile file fs = .ok 0 ∧ getElfHeader t file = .ok 0

section

variable {image junk : List UInt8} {es : List Member} {start : Nat} {t : Tarfs}
  {tarfsE : TarfsEntry}

/-- The members of an archive whose index is complete have been placed. -/
theorem placed_of_tarfsInit {fs : List TarfsEntry} {n : Nat} (harch : Archive t.mem es)
    (hlen : archiveLength es < 2 ^ 28) (hjunk : junk.length = 100)
    (htarfsE : tarfsE.name.length = 100) (h : tarfsInit junk tarfsE t = .ok (fs, n)) :
    ∀ pre e post, es = pre ++ e :: post → Placed pre e := by
  have hsizes : ∀ u ∈ es.map Member.ustar, SizeRead u.size := by
    intro u hu
    obtain ⟨e, he, rfl⟩ := List.mem_map.1 hu
    exact sizeRead_of_lt ((size_le_archiveLength he).trans_lt hlen)
  have hlength := ustarLength_map es
  obtain ⟨ms, hms, -, hplaced⟩ := tarfsInit_inv (ustarArchive_map.2 harch) hsizes (by omega) hjunk
    htarfsE h
  obtain rfl := ustar_injective.list_map hms
  exact hplaced

/-- **The index agrees with the archive.** For an archive below 256 MiB of at most 99 members with
distinct names, `tarfs_init` comes to its end, with the archive in the table and in both lookups, if
and only if each member is behind its directory or at the top level with a name of two characters,
where the last character of a directory's name does not count. -/
theorem archive_index_iff (after : List UInt8) (harch : Archive image es) (hcount : es.length ≤ 99)
    (hnodup : (es.map Member.name).Nodup) (hlen : image.length < 2 ^ 28)
    (hstart : start < linkedBelow) (hjunk : junk.length = 100)
    (htarfsE : tarfsE.name.length = 100) :
    IndexAgrees junk tarfsE ⟨start, start + image.length, image ++ after⟩ es ↔
      ∀ pre e post, es = pre ++ e :: post → Placed pre e := by
  have hlength := harch.length_le
  constructor
  · rintro ⟨fs, hinit, -⟩
    exact placed_of_tarfsInit harch.append (by omega) hjunk htarfsE hinit
  intro hplaced
  have hbound : start + archiveLength es ≤ 2 ^ 64 := by
    rw [linkedBelow] at hstart
    omega
  obtain ⟨filled, hinit, hindex⟩ :=
    tarfsInit_placed (t := ⟨start, start + image.length, image ++ after⟩) (by omega) hplaced
      harch.append (by omega) hbound hjunk htarfsE
      fun e he bytes hheader => hheader.size_read ((size_le_archiveLength he).trans_lt (by omega))
  have hfilled : filled.length = es.length := hindex.length_eq.trans (length_located _ _)
  obtain ⟨k, hk⟩ : ∃ k, 100 - es.length = k + 1 := ⟨100 - es.length - 1, by omega⟩
  rw [hk, List.replicate_succ] at hinit
  have hopen := fun {file s : List UInt8} (hfile : IsStr file s) =>
    openfile_spec (List.replicate k .zero) hfile hindex
  have helf := fun {file s : List UInt8} (hfile : IsStr file s) (hne : s ≠ []) =>
    getElfHeader_spec after harch hlen hstart hfile hne
  refine ⟨_, hinit, ?_, ?_, ?_⟩
  · rwa [List.take_left' hfilled]
  · intro x hx hkind file hfile
    rw [hopen hfile, helf hfile x.1.name_ne,
      find?_located (q := fun e => e.name = x.1.name ∧ e.kind = .file) hnodup hx
        (fun e he => (of_decide_eq_true he).1) (by simp [hkind]),
      find?_located (q := fun e => e.name = x.1.name) hnodup hx (fun e he => of_decide_eq_true he)
        (by simp)]
    exact ⟨rfl, rfl⟩
  · intro file s hfile hne hnew
    have hnone : ∀ x ∈ located start es, x.1.name ≠ s :=
      fun x hx => hnew x.1 (mem_of_mem_located hx)
    rw [hopen hfile, helf hfile hne, List.find?_eq_none.2 fun x hx => by simp [hnone x hx],
      List.find?_eq_none.2 fun x hx => by simp [hnone x hx]]
    exact ⟨rfl, rfl⟩

end

theorem tarfsOf_eq (xs : List (Member × List UInt8)) :
    tarfsOf xs = ⟨0xffffffff80300000, 0xffffffff80300000 + (ustar xs).length, ustar xs ++ []⟩ := by
  rw [tarfsOf, List.append_nil]

theorem archive_index_ls :
    IndexAgrees (List.replicate 100 0) .zero
      (tarfsOf [(binDirectory, []), (lsFile, [1, 2, 3])]) [binDirectory, lsFile] := by
  have harch : Archive (ustar [(binDirectory, []), (lsFile, [1, 2, 3])]) [binDirectory, lsFile] :=
    archive_ustar (by decide)
  have hlen : (ustar [(binDirectory, []), (lsFile, [1, 2, 3])]).length < 2 ^ 28 := by
    simp only [ustar, List.length_append, Member.length_header, List.length_replicate]
    decide
  have hname : TarfsEntry.zero.name.length = 100 := List.length_replicate
  rw [tarfsOf_eq]
  exact (archive_index_iff [] harch (by decide) (by decide) hlen (by decide) List.length_replicate
    hname).2 placed_ls

def directoryA : Member := ⟨[97, 47], 0, .directory, by decide, by decide, by decide⟩

/-- The search for the parent of the directory `a/`, a name of two characters, leaves the name. -/
theorem archive_index_short :
    Archive (tarfsOf [(directoryA, [])]).mem [directoryA] ∧ ParentsFirst [directoryA] ∧
      directoryA.name.length = 2 ∧
      ¬ IndexAgrees (List.replicate 100 0) .zero (tarfsOf [(directoryA, [])]) [directoryA] := by
  have harch : Archive (tarfsOf [(directoryA, [])]).mem [directoryA] := archive_tarfsOf (by decide)
  refine ⟨harch, ?_, rfl, ?_⟩
  · intro pre e post h hparent
    have he : e = directoryA := List.mem_singleton.1 (by rw [h]; simp)
    rw [he] at hparent
    exact absurd (by decide) hparent
  · rintro ⟨fs, hinit, -⟩
    have hplaced := placed_of_tarfsInit harch (by decide) List.length_replicate
      List.length_replicate hinit [] directoryA [] rfl
    rcases hplaced with ⟨-, htwo⟩ | ⟨d, hd, -⟩
    · exact absurd htwo (by decide)
    · exact absurd hd List.not_mem_nil

end Sbunix
