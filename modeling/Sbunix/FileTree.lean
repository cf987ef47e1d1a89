import Sbunix.Display
import Sbunix.IndexBounds
import Sbunix.WorkingDirectory

/-!
# Walking through the archive

`ls` and `cat` of `bin/` take the working directory that `cd` of the shell has left. `ls` without an
argument lists it, and `cat` appends its argument to it, opens the path, reads 1024 bytes and prints
what it has read as a string.

`Mounted` is what `tarfs_init` makes of an archive. A `UserView` is what the user knows: the
directory, and the text on the screen. `session_view` says that a session of the three programs,
with other code between them, does on the table what `UserView.next` does on the tree of the
archive. `every_member_found` says that `cd` leads to every directory, and that `readdirect` prints
there what is in it.

As `cd` does, `cat` goes on with what its array held before, up to a NUL. At the top level `ls`
prints a fixed line. A `cd` to a directory that is not there prints a line and changes nothing.
-/

namespace Sbunix

open Lib

/-! ## The programs -/

/-- `"No such directory"`. -/
def noSuchDirectory : List UInt8 :=
  ['N', 'o', ' ', 's', 'u', 'c', 'h', ' ', 'd', 'i', 'r', 'e', 'c', 't', 'o', 'r', 'y'].map
    Char.toUInt8

/-- `chdir`, with what `opendirect` prints when it finds nothing. -/
def chdirText (path : List UInt8) (fs : List TarfsEntry) (c : Console) :
    Except Fault (Int32 × Console) := do
  let i ← chdir path fs
  if (← opendirect path fs) ≠ 0 then .ok (i, c)
  else
    let c ← kprintf (noSuchDirectory ++ [10, 0]) [] c
    .ok (i, c)

/-- `cd` of the shell, with the screen. -/
def cdText (fs : List TarfsEntry) (call : CdCall) (cwd : List UInt8) (c : Console) :
    Except Fault (List UInt8 × Console) := do
  let cdcwd ← getcwd call.cdcwd cwd
  if (← libcStrcmp call.path [0, 0]) = 0 then (changedir [0] cwd).map (·, c)
  else if (← libcStrcmp call.path [46, 46, 0]) = 0 then (changedir [0] cwd).map (·, c)
  else
    let tempcwd ← strcpy call.tempcwd cdcwd
    let tempcwd ← strcat tempcwd call.path
    let (i, c) ← chdirText (tempcwd ++ call.behind) fs c
    if i ≠ 0 then (changedir (tempcwd ++ call.behindResult) cwd).map (·, c) else .ok (cwd, c)

/-- A call of `ls`: its arguments, and what the arrays of `main` hold at first. -/
structure LsCall where
  argv : List (List UInt8)
  lsCwd : List UInt8
  temp : List UInt8
  length_lsCwd : lsCwd.length = 128
  length_temp : temp.length = 100

/-- `main` of `bin/ls`. -/
def lsMain (call : LsCall) (fs : List TarfsEntry) (cwd : List UInt8) (c : Console) :
    Except Fault Console := do
  let lsCwd ← getcwd call.lsCwd cwd
  let temp ← strcpy call.temp (call.argv[1]?.getD lsCwd)
  readdirect temp fs c

/-- `"\n No such file "`. -/
def noSuchFile : List UInt8 :=
  ['\n', ' ', 'N', 'o', ' ', 's', 'u', 'c', 'h', ' ', 'f', 'i', 'l', 'e', ' '].map Char.toUInt8

/-- `open`, with what `openfile` prints when it finds nothing. -/
def openText (pathname : List UInt8) (fs : List TarfsEntry) (c : Console) :
    Except Fault (Int32 × Console) := do
  let fd ← libcOpen pathname fs
  if (← openfile pathname fs) ≠ 0 then .ok (fd, c)
  else
    let c ← kprintf (noSuchFile ++ [0]) [] c
    let c ← kprintf [37, 115, 10, 0] [.pointer pathname] c
    .ok (fd, c)

/-- A call of `cat`: the string `arg` that `argv[1]` points to, what `cat_cwd` holds at first, the
memory behind it, and the address of the array `fileContent`. -/
structure CatCall where
  path : List UInt8
  arg : List UInt8
  catCwd : List UInt8
  behind : List UInt8
  fileContent : UInt64
  isStr_path : IsStr path arg
  length_catCwd : catCwd.length = 128
  nul_mem : 0 ∈ behind

/-- `main` of `bin/cat`. -/
def catMain (call : CatCall) (fs : List TarfsEntry) (cwd : List UInt8) (s : ReadState)
    (c : Console) : Except Fault (ReadState × Console) := do
  let catCwd ← getcwd call.catCwd cwd
  let catCwd ← strcat catCwd call.path
  let (fd, c) ← openText (catCwd ++ call.behind) fs c
  let (_, s) ← libcRead fd ⟨call.fileContent, 1024⟩ 1024 s
  let c ← printf [37, 115, 0] [.pointer (bytesAt s.mem call.fileContent.toNat 1024)] c
  .ok (s, c)

/-! ## The table -/

/-- The table `filled`, and the zero entry behind it, as `tarfs_init` makes it of an archive in the
kernel image. -/
structure Mounted (m : Mem) (start : Nat) (image : List UInt8) (es : List Member)
    (filled : List TarfsEntry) : Prop where
  linked : Linked m start image es
  nodup : (es.map Member.name).Nodup
  parents : ParentsFirst es
  count : es.length ≤ 99
  indexes : List.Forall₂ Indexes filled (located start es)
  filed : List.Forall₂ (Filed es) filled es

section

variable {m : Mem} {start : Nat} {image : List UInt8} {es : List Member} {filled : List TarfsEntry}

/-- **`tarfs_init`** mounts an archive whose directories come before what is in them. -/
theorem Linked.mount (h : Linked m start image es) (hnodup : (es.map Member.name).Nodup)
    (hparents : ParentsFirst es) (hcount : es.length ≤ 99)
    (htop : ∀ e ∈ es, e.parentName = [] → 2 ≤ e.base.length) (hlen : image.length < 2 ^ 28)
    {junk : List UInt8} {tarfsE : TarfsEntry} (hjunk : junk.length = 100)
    (htarfsE : tarfsE.name.length = 100) :
    ∃ filled rest, tarfsInit junk tarfsE ⟨start, start + image.length, image⟩ =
        .ok (filled ++ .zero :: rest, es.length) ∧ Mounted m start image es filled := by
  have hlength := h.archive.length_le
  have hhigh := h.high
  have hplaced : ∀ pre e post, es = pre ++ e :: post → Placed pre e := fun pre e post hall =>
    (placed_iff (hparents pre e post hall)).2 (htop e (by simp [hall]))
  have harch : Archive (Tarfs.mk start (start + image.length) image).mem es := h.archive
  have hend : (Tarfs.mk start (start + image.length) image).start + archiveLength es ≤ 2 ^ 64 := by
    show start + archiveLength es ≤ 2 ^ 64
    omega
  obtain ⟨filled, hinit, hindex⟩ := tarfsInit_of_parents (P := fun e p => p = parentIndex es e)
    (by omega) harch (by omega) hend htarfsE
    (fun e he bytes hheader => hheader.size_read ((size_le_archiveLength he).trans_lt (by omega)))
    (fun pre e post hall filled after name hnames hname => by
      exact ⟨_, perInd_parentIndex after hname hjunk hnames (hparents pre e post hall)
        (hplaced pre e post hall) fun d hd => base_ne_of_placed hplaced (by simp [hall, hd]),
        by rw [hall]⟩)
  obtain ⟨k, hk⟩ : ∃ k, 100 - es.length = k + 1 := ⟨100 - es.length - 1, by omega⟩
  rw [hk, List.replicate_succ] at hinit
  have hfiled := List.forall₂_map_right_iff.2 (hindex.imp fun f x h =>
    (⟨h.1.name, h.2⟩ : Filed es f x.1))
  rw [map_fst_located] at hfiled
  exact ⟨filled, _, hinit, h, hnodup, hparents, hcount, hindex.imp fun _ _ h => h.1, hfiled⟩

end

/-! ## The listing -/

/-- The names that are listed of a directory. -/
def entries (es : List Member) (s : List UInt8) : List (List UInt8) :=
  (es.filter fun e => e.parentName = s).map fun e => e.name.drop s.length

/-- `parent` of `readdirect` behind the entries of some members. -/
def parentSeen (pre : List Member) (s : List UInt8) : Int :=
  let i := (pre.map Member.name).idxOf s
  if i < pre.length then i else -1

section

variable {es pre post : List Member} {e : Member} {s direct : List UInt8} {fs : List TarfsEntry}

theorem parentSeen_of_mem (h : s ∈ pre.map Member.name) :
    parentSeen pre s = (pre.map Member.name).idxOf s := by
  have hlt := List.idxOf_lt_length_of_mem h
  rw [List.length_map] at hlt
  exact if_pos hlt

theorem parentSeen_of_notMem (h : s ∉ pre.map Member.name) : parentSeen pre s = -1 := by
  have hlen := List.idxOf_eq_length h
  rw [List.length_map] at hlen
  exact if_neg (by omega)

/-- `par_ind` is `parent` exactly for the members of the directory. -/
theorem parentIndex_eq_parentSeen (hparents : ParentsFirst (pre ++ e :: post))
    (hcount : pre.length < 999) (hs : s ≠ []) :
    parentIndex (pre ++ e :: post) e = parentSeen pre s ↔ e.parentName = s := by
  have hparent : e.parentName ≠ [] → e.parentName ∈ pre.map Member.name := by
    intro htop
    obtain ⟨d, hd, -, hname⟩ := hparents pre e post rfl htop
    exact hname ▸ List.mem_map_of_mem hd
  by_cases hmem : s ∈ pre.map Member.name
  · have hlt := List.idxOf_lt_length_of_mem hmem
    rw [List.length_map] at hlt
    rw [parentSeen_of_mem hmem, parentIndex]
    by_cases htop : e.parentName = []
    · rw [if_pos htop, htop]
      exact iff_of_false (by omega) (Ne.symm hs)
    · rw [if_neg htop, Nat.cast_inj, List.map_append, List.idxOf_append_of_mem (hparent htop)]
      exact List.idxOf_inj (hparent htop)
  · rw [parentSeen_of_notMem hmem]
    refine iff_of_false (parentIndex_ne_neg _ _) ?_
    rintro rfl
    exact hmem (hparent hs)

theorem parentSeen_snoc_self (hnotMem : e.name ∉ pre.map Member.name) :
    parentSeen (pre ++ [e]) e.name = pre.length := by
  rw [parentSeen_of_mem (by simp), List.map_append, List.idxOf_append_of_notMem hnotMem,
    List.map_singleton, List.idxOf_cons_self, List.length_map, Nat.add_zero]

theorem parentSeen_snoc (hne : e.name ≠ s) : parentSeen (pre ++ [e]) s = parentSeen pre s := by
  by_cases hmem : s ∈ pre.map Member.name
  · rw [parentSeen_of_mem hmem, parentSeen_of_mem (by simp [List.mem_map.1 hmem]), List.map_append,
      List.idxOf_append_of_mem hmem]
  · have hmem' : s ∉ (pre ++ [e]).map Member.name := by
      rw [List.map_append, List.mem_append, List.map_singleton, List.mem_singleton]
      exact not_or.2 ⟨hmem, Ne.symm hne⟩
    rw [parentSeen_of_notMem hmem, parentSeen_of_notMem hmem']

/-- The pass over the table from an entry on. -/
theorem readdirectLoop_entries (hdirect : IsStr direct s) (hs : s ≠ [])
    (hnodup : ((pre ++ post).map Member.name).Nodup) (hparents : ParentsFirst (pre ++ post))
    (hcount : (pre ++ post).length ≤ 99) (htable : List.Forall₂ (Filed (pre ++ post)) fs post)
    (rest : List TarfsEntry) (c : Console) :
    readdirectLoop direct (fs ++ .zero :: rest) pre.length (parentSeen pre s) c =
      .ok ((entries post s).foldl Console.printEntry c).endLine := by
  induction post generalizing pre fs c with
  | nil =>
    obtain rfl := List.forall₂_nil_right_iff.1 htable
    rw [List.nil_append, readdirectLoop, strlen_spec isStr_zero, ok_bind, if_pos List.length_nil,
      kprintf_newline]
    rfl
  | cons e post ih =>
    obtain ⟨f, fs, hf, hfs, rfl⟩ := List.forall₂_cons_right_iff.1 htable
    have hlen : pre.length < 999 := by
      rw [List.length_append] at hcount
      omega
    have hnotMem := name_notMem_of_nodup hnodup
    have hparent := parentIndex_eq_parentSeen hparents hlen hs
    have hturn := @ih (pre ++ [e]) fs (by rwa [← List.append_cons]) (by rwa [← List.append_cons])
      (by rwa [← List.append_cons]) (by rwa [← List.append_cons])
    rw [List.length_append, List.length_singleton, Nat.cast_add, Nat.cast_one] at hturn
    rw [List.cons_append]
    by_cases hname : e.name = s
    · -- A member is not in itself, since its directory comes before it.
      have hother : e.parentName ≠ s := by
        intro hself
        obtain ⟨d, hd, -, hd'⟩ := hparents pre e post rfl (hself ▸ hs)
        exact hnotMem (List.mem_map.2 ⟨d, hd, by rw [hd', hself, hname]⟩)
      subst hname
      rw [parentSeen_snoc_self hnotMem] at hturn
      rw [readdirectLoop_parent hdirect hf.name, hturn, entries, entries,
        List.filter_cons_of_neg (by simpa using hother)]
    · rw [parentSeen_snoc hname] at hturn
      rw [readdirectLoop_entry hdirect hf.name hname, hturn, hf.parInd]
      by_cases hin : e.parentName = s
      · have hfront : s <+: e.name := hin ▸ parentName_prefix e
        rw [if_pos ⟨hfront, hparent.2 hin⟩, entries, entries,
          List.filter_cons_of_pos (by simpa using hin), List.map_cons, List.foldl_cons]
      · rw [if_neg fun h => hin (hparent.1 h.2), entries, entries,
          List.filter_cons_of_neg (by simpa using hin)]

end

section

variable {m : Mem} {start : Nat} {image : List UInt8} {es : List Member} {filled : List TarfsEntry}
  {s direct : List UInt8}

/-- **`readdirect`** lists the members of a directory, and nothing for another name. -/
theorem Mounted.readdirect (h : Mounted m start image es filled) (rest : List TarfsEntry)
    (hdirect : IsStr direct s) (hs : s ≠ []) (c : Console) :
    Sbunix.readdirect direct (filled ++ .zero :: rest) c =
      .ok ((entries es s).foldl Console.printEntry c).endLine := by
  rw [Sbunix.readdirect, strlen_spec hdirect, ok_bind,
    if_neg fun hzero => hs (List.length_eq_zero_iff.1 hzero)]
  exact @readdirectLoop_entries [] _ s direct filled hdirect hs h.nodup h.parents h.count h.filed
    rest c

end

/-! ## `cd` -/

/-- The call looks for a directory that is not there. -/
def CdCall.Misses (call : CdCall) (dirs : List (List UInt8)) (s : List UInt8) : Prop :=
  ¬ (call.arg = [] ∨ call.arg = [46, 46]) ∧ call.built s ∉ dirs

instance (call : CdCall) (dirs : List (List UInt8)) (s : List UInt8) :
    Decidable (call.Misses dirs s) := inferInstanceAs (Decidable (_ ∧ _))

/-- The text behind a call of `cd`. -/
def cdView (dirs : List (List UInt8)) (s : List UInt8) (call : CdCall) (p : Transcript) :
    Transcript :=
  if call.Misses dirs s then ⟨p.ended ++ [p.last ++ noSuchDirectory], []⟩ else p

section

variable {m : Mem} {start : Nat} {image : List UInt8} {es : List Member} {filled : List TarfsEntry}
  {s path cwd : List UInt8} {call : CdCall} {c : Console} {p : Transcript}

theorem HoldsCwd.length_le (h : HoldsCwd (directories es) cwd s) : s.length ≤ 99 := by
  rcases h.mem with rfl | hmem
  · exact Nat.zero_le 99
  · exact length_le_of_mem_directories hmem

set_option maxRecDepth 4000 in
theorem plainText_noSuchDirectory : PlainText noSuchDirectory := by decide

/-- `chdir` prints a line for a name that no directory has. -/
theorem Linked.chdirText_spec (h : Linked m start image es)
    (hindex : List.Forall₂ Indexes filled (located start es)) (rest : List TarfsEntry)
    (hpath : IsStr path s) (hc : Displays c p)
    (hlen : s ∉ directories es → p.last.length + noSuchDirectory.length ≤ 79) :
    ∃ i c', chdirText path (filled ++ .zero :: rest) c = .ok (i, c') ∧
      (s ∈ directories es ∧ i ≠ 0 ∧ c' = c ∨ s ∉ directories es ∧ i = 0 ∧
        Displays c' ⟨p.ended ++ [p.last ++ noSuchDirectory], []⟩) := by
  obtain ⟨i, hi, htrue⟩ := h.chdir_spec hindex rest hpath
  obtain ⟨a, hopen, hcases⟩ := opendirect_spec hindex rest hpath
  rw [chdirText, hi, ok_bind, hopen, ok_bind]
  obtain ⟨hdir, x, hx, rfl⟩ | ⟨hdir, rfl⟩ := hcases
  · have hlow := (h.toNat_addr hx).2
    rw [if_pos (by omega)]
    exact ⟨i, c, rfl, Or.inl ⟨hdir, htrue.2 hdir, rfl⟩⟩
  · obtain ⟨c', hprint, hc'⟩ := hc.plain plainText_noSuchDirectory (hlen hdir)
    rw [if_neg (not_not.2 rfl), hprint, ok_bind]
    exact ⟨i, c', rfl, Or.inr ⟨hdir, not_not.1 (mt htrue.1 hdir), hc'⟩⟩

/-- **`cd`** computes `nextCwd`, and prints a line when it misses. -/
theorem Linked.cdText_spec (h : Linked m start image es)
    (hindex : List.Forall₂ Indexes filled (located start es)) (rest : List TarfsEntry)
    (hcwd : HoldsCwd (directories es) cwd s) (hfits : call.arg.length + s.length ≤ 127)
    (hc : Displays c p) (hlen : call.Misses (directories es) s →
      p.last.length + noSuchDirectory.length ≤ 79) :
    ∃ cwd' c', cdText (filled ++ .zero :: rest) call cwd c = .ok (cwd', c') ∧
      HoldsCwd (directories es) cwd' (nextCwd (directories es) s call) ∧
      Displays c' (cdView (directories es) s call p) := by
  obtain ⟨top, htop, hnil⟩ := hcwd.store_nil
  obtain ⟨cdcwd, hget, hstr, -⟩ := sstrcpy_spec call.cdcwd hcwd.isStr
    (by have := call.length_cdcwd; have := hcwd.length_le; omega)
  obtain ⟨r₁, hr₁, hempty⟩ := libcStrcmp_spec call.isStr_path
    (show IsStr [0, 0] [] from isStr_nil_iff.2 ⟨[0], rfl⟩)
  obtain ⟨r₂, hr₂, hup⟩ := libcStrcmp_spec call.isStr_path
    (show IsStr [46, 46, 0] [46, 46] from ⟨by decide, [], rfl⟩)
  rw [cdText, getcwd, sysGetcwd, strcpy, hget, ok_bind, hr₁, ok_bind]
  by_cases hcase₁ : call.arg = []
  · rw [if_pos (hempty.2 hcase₁), nextCwd, if_pos (Or.inl hcase₁), htop,
      cdView, if_neg fun hmiss => hmiss.1 (Or.inl hcase₁)]
    exact ⟨top, c, rfl, hnil, hc⟩
  rw [if_neg fun hr => hcase₁ (hempty.1 hr), hr₂, ok_bind]
  by_cases hcase₂ : call.arg = [46, 46]
  · rw [if_pos (hup.2 hcase₂), nextCwd, if_pos (Or.inr hcase₂), htop,
      cdView, if_neg fun hmiss => hmiss.1 (Or.inr hcase₂)]
    exact ⟨top, c, rfl, hnil, hc⟩
  have hcase := not_or.2 ⟨hcase₁, hcase₂⟩
  obtain ⟨tempcwd, hcopy, happend⟩ := CdCall.buffer_spec hcase₁ hstr hfits
  obtain ⟨i, c', hchdir, hcases⟩ := h.chdirText_spec hindex rest (call.isStr_built s) hc
    fun hmiss => hlen ⟨hcase, hmiss⟩
  rw [if_neg fun hr => hcase₂ (hup.1 hr), hcopy, ok_bind, happend, ok_bind, hchdir, ok_bind,
    nextCwd, if_neg hcase]
  obtain ⟨hbuilt, hi, rfl⟩ | ⟨hbuilt, hi, hc'⟩ := hcases
  · have hshort : (call.built s).length < 128 :=
      Nat.lt_of_le_of_lt (length_le_of_mem_directories hbuilt) (by decide)
    obtain ⟨cwd', hstore, hcwd'⟩ :=
      hcwd.store (CdCall.isStr_result hfits hshort) hshort (Or.inr hbuilt)
    rw [if_pos hbuilt, cdView, if_neg fun hmiss => hmiss.2 hbuilt]
    simp only
    rw [if_pos hi, hstore]
    exact ⟨cwd', c', rfl, hcwd', hc⟩
  · rw [if_neg hbuilt, cdView, if_pos ⟨hcase, hbuilt⟩]
    simp only
    rw [if_neg (not_not.2 hi)]
    exact ⟨cwd, c', rfl, hcwd, hc'⟩

end

/-! ## `ls` -/

/-- The directory that a call lists in the directory `s`. -/
def LsCall.target (call : LsCall) (s : List UInt8) : List UInt8 :=
  match call.argv[1]? with
  | some arg => arg.takeWhile (· ≠ 0)
  | none => s

/-- The line that `ls` prints. At the top level it is a fixed one. -/
def lsText (es : List Member) (s : List UInt8) : List UInt8 :=
  if s = [] then rootListing else (entries es s).flatMap (· ++ List.replicate 5 32)

section

variable {m : Mem} {start : Nat} {image : List UInt8} {es : List Member} {filled : List TarfsEntry}
  {s direct cwd : List UInt8} {call : LsCall} {c : Console} {p : Transcript}

theorem Displays.endLine (h : Displays c p) : Displays c.endLine ⟨p.ended ++ [p.last], []⟩ :=
  @Displays.foldl c p [.newline] h trivial

theorem Displays.printEntries {names : List (List UInt8)} (h : Displays c p)
    (hlen : p.last.length + (names.flatMap (· ++ List.replicate 5 32)).length ≤ 79) :
    Displays (names.foldl Console.printEntry c)
      { p with last := p.last ++ names.flatMap (· ++ List.replicate 5 32) } := by
  induction names generalizing c p with
  | nil => simpa using h
  | cons name names ih =>
    have hflat : (name :: List.replicate 5 [32]).flatten = name ++ List.replicate 5 32 := rfl
    rw [List.flatMap_cons, List.length_append] at hlen
    rw [List.flatMap_cons]
    have hfits : FitsLines (p.last.length + 1) ((name :: List.replicate 5 [32]).map .chars) := by
      rw [← List.append_nil (List.map _ _)]
      exact fitsLines_chars (by rw [hflat]; omega) trivial
    have hentry := h.foldl hfits
    rw [foldl_chars, hflat] at hentry
    have hrest := ih hentry (by simp only [List.length_append] at hlen ⊢; omega)
    rwa [List.append_assoc] at hrest

set_option maxRecDepth 4000 in
theorem plainText_root : PlainText rootListing := by decide

theorem Mounted.readdirect_displays (h : Mounted m start image es filled) (rest : List TarfsEntry)
    (hdirect : IsStr direct s) (hc : Displays c p)
    (hlen : p.last.length + (lsText es s).length ≤ 79) :
    ∃ c', Sbunix.readdirect direct (filled ++ .zero :: rest) c = .ok c' ∧
      Displays c' ⟨p.ended ++ [p.last ++ lsText es s], []⟩ := by
  rw [lsText] at hlen ⊢
  by_cases hs : s = []
  · subst hs
    rw [if_pos rfl] at hlen ⊢
    have hroot := kprintf_text (show 0 ∉ rootListing by decide) (by decide) c
    refine ⟨(c.printText rootListing).endLine, ?_, ?_⟩
    · rw [Sbunix.readdirect, strlen_spec hdirect, ok_bind, if_pos List.length_nil, hroot, ok_bind,
        kprintf_newline]
    · exact (hc.plainText plainText_root hlen).endLine
  · rw [if_neg hs] at hlen ⊢
    exact ⟨_, h.readdirect rest hdirect hs c, (hc.printEntries hlen).endLine⟩

/-- **`ls`** prints the listing of the working directory, or of its argument. -/
theorem Mounted.lsMain (h : Mounted m start image es filled) (rest : List TarfsEntry)
    (hcwd : HoldsCwd (directories es) cwd s) (hc : Displays c p)
    (harg : ∀ arg, call.argv[1]? = some arg → 0 ∈ arg ∧ (call.target s).length ≤ 99)
    (hlen : p.last.length + (lsText es (call.target s)).length ≤ 79) :
    ∃ c', Sbunix.lsMain call (filled ++ .zero :: rest) cwd c = .ok c' ∧
      Displays c' ⟨p.ended ++ [p.last ++ lsText es (call.target s)], []⟩ := by
  have hshort := hcwd.length_le
  have hlen₁ := call.length_lsCwd
  have hlen₂ := call.length_temp
  obtain ⟨lsCwd, hget, hstr, -⟩ := sstrcpy_spec call.lsCwd hcwd.isStr (by omega)
  have htarget : IsStr (call.argv[1]?.getD lsCwd) (call.target s) ∧
      (call.target s).length < 100 := by
    rw [LsCall.target] at harg ⊢
    cases hargv : call.argv[1]? with
    | none => exact ⟨hstr, Nat.lt_succ_of_le hshort⟩
    | some arg =>
      rw [hargv] at harg
      obtain ⟨hnul, hshort'⟩ := harg arg rfl
      exact ⟨isStr_takeWhile hnul, Nat.lt_succ_of_le hshort'⟩
  obtain ⟨temp, hcopy, htemp, -⟩ := sstrcpy_spec call.temp htarget.1 (by omega)
  rw [Sbunix.lsMain, getcwd, sysGetcwd, strcpy, hget, ok_bind, strcpy, hcopy, ok_bind]
  exact h.readdirect_displays rest htemp hc hlen

end

/-! ## `cat` -/

/-- A `cd` with the arrays of the call, which makes the same path. -/
def CatCall.toCd (call : CatCall) : CdCall where
  path := call.path
  arg := call.arg
  cdcwd := call.catCwd
  tempcwd := call.catCwd
  behind := call.behind
  behindResult := []
  isStr_path := call.isStr_path
  length_cdcwd := call.length_catCwd
  length_tempcwd := call.length_catCwd
  nul_mem := call.nul_mem

/-- The data of a member. -/
def fileData (start : Nat) (image : List UInt8) (x : Member × Nat) : List UInt8 :=
  (image.drop (x.2 - start + 512)).take x.1.size

/-- The data up to a NUL. -/
def fileText (start : Nat) (image : List UInt8) (x : Member × Nat) : List UInt8 :=
  (fileData start image x).takeWhile (· ≠ 0)

section

variable {m : Mem} {start : Nat} {image : List UInt8} {es : List Member} {filled : List TarfsEntry}
  {x : Member × Nat} {data after s pathname cwd : List UInt8} {buf : UInt64} {call : CatCall}
  {c : Console} {p : Transcript} {st : ReadState}

theorem bytesAt_add (m : Mem) (a n k : Nat) :
    bytesAt m a (n + k) = bytesAt m a n ++ bytesAt m (a + n) k := by
  simp [bytesAt, List.range_add, Nat.add_assoc]

theorem isStr_data (data after : List UInt8) :
    IsStr (data ++ 0 :: after) (data.takeWhile (· ≠ 0)) := by
  have h := @isStr_takeWhile (data ++ 0 :: after) (by simp)
  rw [List.takeWhile_append] at h
  split_ifs at h with hall
  · rw [List.takeWhile_cons_of_neg (by simp), List.append_nil] at h
    rwa [(List.takeWhile_prefix _).eq_of_length hall]
  · exact h

/-- `printf("%s", str)` prints a string without a percent sign. -/
theorem Displays.printString (h : Displays c p) {b : List UInt8} (hb : IsStr b s)
    (hpercent : '%'.toUInt8 ∉ s) (hfits : p.Fits s) :
    ∃ c', printf [37, 115, 0] [.pointer b] c = .ok c' ∧ Displays c' (p.type s) := by
  refine ⟨_, ?_, h.printText hfits⟩
  obtain ⟨hnul, rest, rfl⟩ := id hb
  rw [printf_string hb, kprintf, kprintfFrom_text hnul hpercent]
  rfl

/-- A regular file is opened by its name. -/
theorem Mounted.openText (h : Mounted m start image es filled) (rest : List TarfsEntry)
    (hx : x ∈ located start es) (hkind : x.1.kind = .file) (hpath : IsStr pathname x.1.name)
    (c : Console) :
    Sbunix.openText pathname (filled ++ .zero :: rest) c =
      .ok ((UInt64.ofNat x.2).toUInt32.toInt32, c) := by
  obtain ⟨haddr, hlow⟩ := h.linked.toNat_addr hx
  have hopen : openfile pathname (filled ++ .zero :: rest) = .ok x.2 := by
    rw [openfile_spec rest hpath h.indexes,
      find?_located (q := fun e => e.name = x.1.name ∧ e.kind = .file) h.nodup hx
        (fun e he => (of_decide_eq_true he).1) (by simp [hkind])]
    rfl
  have hback := toInt32_kernel (a := UInt64.ofNat x.2) (haddr.symm ▸ hlow)
  rw [Sbunix.openText, libcOpen, sysOpen, hopen]
  simp only [Except.map, ok_bind, hback]
  rw [if_pos (by omega)]

/-- The array behind a `read` of 1024 bytes holds the data of a shorter file. -/
theorem Mounted.readText (h : Mounted st.mem start image es filled) (hx : x ∈ located start es)
    (hsize : x.1.size < 1024) (hapart : buf.toNat + 1024 ≤ start) :
    ∃ r m', libcRead (UInt64.ofNat x.2).toUInt32.toInt32 ⟨buf, 1024⟩ 1024 st =
        .ok (r, { st with mem := m' }) ∧
      IsStr (bytesAt m' buf.toNat 1024) (fileText start image x) ∧
      bytesAt m' start image.length = image := by
  obtain ⟨haddr, hlow⟩ := h.linked.toNat_addr hx
  have hmin : min (1024 : Int).toNat x.1.size = x.1.size := Nat.min_eq_right hsize.le
  have hspec := @Linked.readfile_spec _ _ _ _ _ ⟨buf, 1024⟩ 1024 h.linked hx (by omega) (by decide)
  rw [hmin] at hspec
  obtain ⟨m', hread, hdata, hnul, hframe⟩ := hspec hsize (Or.inl (by dsimp only; omega))
  refine ⟨-1, m', ?_, ?_, ?_⟩
  · rw [libcRead, toInt32_kernel (haddr.symm ▸ hlow),
      sysRead_file (h.linked.two_lt hx) _ (by decide)]
    change (readfile st.mem (UInt64.ofNat x.2) 1024 _).map _ = _
    rw [hread]
    rfl
  · obtain ⟨k, hk⟩ : ∃ k, 1024 = x.1.size + (1 + k) := ⟨1023 - x.1.size, by omega⟩
    have hone : bytesAt m' (buf.toNat + x.1.size) 1 = [0] := congrArg (fun v => [v]) hnul
    rw [hk, bytesAt_add, bytesAt_add, hdata, hone]
    exact isStr_data _ _
  · have hkept : bytesAt m' start image.length = bytesAt st.mem start image.length :=
      bytesAt_congr fun i _ => hframe _ (Or.inr (by dsimp only; omega))
    exact hkept.trans h.linked.mem

/-- **`cat`** prints the text of the file that its path names. -/
theorem Mounted.catMain (h : Mounted st.mem start image es filled) (rest : List TarfsEntry)
    (hcwd : HoldsCwd (directories es) cwd s) (hc : Displays c p) (harg : call.arg ≠ [])
    (hfits : call.arg.length + s.length ≤ 127) (hx : x ∈ located start es)
    (hkind : x.1.kind = .file) (hname : x.1.name = call.toCd.built s) (hsize : x.1.size < 1024)
    (hpercent : '%'.toUInt8 ∉ fileText start image x) (htext : p.Fits (fileText start image x))
    (hapart : call.fileContent.toNat + 1024 ≤ start) :
    ∃ m' c', Sbunix.catMain call (filled ++ .zero :: rest) cwd st c =
        .ok ({ st with mem := m' }, c') ∧
      bytesAt m' start image.length = image ∧ Displays c' (p.type (fileText start image x)) := by
  obtain ⟨catCwd, hcopy, happend⟩ :=
    @CdCall.buffer_spec _ call.toCd cwd harg hcwd.isStr hfits
  obtain ⟨r, m', hread, hstr, himage⟩ := h.readText hx hsize hapart
  obtain ⟨c', hprint, hc'⟩ := hc.printString hstr hpercent htext
  have hpath : IsStr (call.toCd.buffer s ++ call.behind) x.1.name := hname ▸ call.toCd.isStr_built s
  refine ⟨m', c', ?_, himage, hc'⟩
  change strcpy call.catCwd cwd = _ at hcopy
  change strcat catCwd call.path = _ at happend
  rw [Sbunix.catMain, getcwd, sysGetcwd, hcopy, ok_bind, happend, ok_bind,
    h.openText rest hx hkind hpath, ok_bind]
  simp only [hread, ok_bind, hprint]

end

/-! ## Sessions -/

/-- The working directory of the shell, what `read` works on, and the screen. -/
structure Session where
  cwd : List UInt8
  reading : ReadState
  console : Console

/-- What happens in a session: one of the programs, a call of `kprintf`, or other code, which leaves
the memory and the keyboard in any state. -/
inductive Command
  | cd (call : CdCall)
  | ls (call : LsCall)
  | cat (call : CatCall)
  | print (fmt : List UInt8) (args : List VaArg)
  | other (reading : ReadState)

def Session.exec (fs : List TarfsEntry) (x : Session) : Command → Except Fault Session
  | .cd call => do
    let (cwd, c) ← cdText fs call x.cwd x.console
    .ok { x with cwd := cwd, console := c }
  | .ls call => do
    let c ← lsMain call fs x.cwd x.console
    .ok { x with console := c }
  | .cat call => do
    let (reading, c) ← catMain call fs x.cwd x.reading x.console
    .ok { x with reading := reading, console := c }
  | .print fmt args => do
    let c ← kprintf fmt args x.console
    .ok { x with console := c }
  | .other reading => .ok { x with reading := reading }

def sessionStep (fs : List TarfsEntry) (x : Session) (command : Command) : Option Session :=
  (x.exec fs command).toOption

/-- The directory that the user is in, and the text that has been printed. -/
structure UserView where
  dir : List UInt8
  text : Transcript

/-- The file `x` is the one that the call opens in the directory of the view. It fits in the array
of `cat`, and its text in the lines. -/
structure CatCall.Opens (call : CatCall) (start : Nat) (image : List UInt8) (v : UserView)
    (x : Member × Nat) : Prop where
  kind : x.1.kind = .file
  name : x.1.name = call.toCd.built v.dir
  size : x.1.size < 1024
  percent : '%'.toUInt8 ∉ fileText start image x
  fits : v.text.Fits (fileText start image x)

section

variable (start : Nat) (image : List UInt8) (es : List Member)

/-- What a command does for the user. -/
def UserView.next (v : UserView) : Command → UserView
  | .cd call =>
    ⟨nextCwd (directories es) v.dir call, cdView (directories es) v.dir call v.text⟩
  | .ls call =>
    { v with text := ⟨v.text.ended ++ [v.text.last ++ lsText es (call.target v.dir)], []⟩ }
  | .cat call =>
    match (located start es).find? fun x => x.1.name = call.toCd.built v.dir with
    | some x => { v with text := v.text.type (fileText start image x) }
    | none => v
  | .print fmt args =>
    match format fmt args with
    | .ok (os, _) => { v with text := os.foldl Transcript.exec v.text }
    | .error _ => v
  | .other _ => v

/-- Paths fit in the arrays and lines on the screen, and `cat` is given a file. Other code keeps the
image of the kernel. -/
def UserView.Admits (v : UserView) : Command → Prop
  | .cd call =>
    call.arg.length + v.dir.length ≤ 127 ∧ (call.Misses (directories es) v.dir →
      v.text.last.length + noSuchDirectory.length ≤ 79)
  | .ls call =>
    (∀ arg, call.argv[1]? = some arg → 0 ∈ arg ∧ (call.target v.dir).length ≤ 99) ∧
      v.text.last.length + (lsText es (call.target v.dir)).length ≤ 79
  | .cat call =>
    call.arg ≠ [] ∧ call.arg.length + v.dir.length ≤ 127 ∧
      call.fileContent.toNat + 1024 ≤ start ∧ ∃ x ∈ located start es, call.Opens start image v x
  | .print fmt args =>
    ∃ os rest, format fmt args = .ok (os, rest) ∧ FitsLines (v.text.last.length + 1) os
  | .other reading => bytesAt reading.mem start image.length = image

/-- The session is what the user sees. -/
structure Session.Represents (x : Session) (v : UserView) : Prop where
  cwd : HoldsCwd (directories es) x.cwd v.dir
  image : bytesAt x.reading.mem start image.length = image
  screen : Displays x.console v.text

end

section

variable {m m' : Mem} {start : Nat} {image : List UInt8} {es : List Member}
  {filled : List TarfsEntry} {x : Session} {v : UserView} {command : Command}

/-- The memory matters only where the archive is. -/
theorem Mounted.of_image (h : Mounted m start image es filled)
    (himage : bytesAt m' start image.length = image) : Mounted m' start image es filled :=
  { h with linked := { h.linked with mem := himage } }

/-- A command does in the kernel what it does for the user. -/
theorem Session.Represents.step (h : Mounted m start image es filled) (rest : List TarfsEntry)
    (hx : x.Represents start image es v) (hadmits : v.Admits start image es command) :
    ∃ x', sessionStep (filled ++ .zero :: rest) x command = some x' ∧
      x'.Represents start image es (v.next start image es command) := by
  cases command with
  | cd call =>
    obtain ⟨cwd', c', hcd, hcwd', hc'⟩ :=
      h.linked.cdText_spec h.indexes rest hx.cwd hadmits.1 hx.screen hadmits.2
    refine ⟨{ x with cwd := cwd', console := c' }, ?_, hcwd', hx.image, hc'⟩
    rw [sessionStep, Session.exec, hcd]
    rfl
  | ls call =>
    obtain ⟨c', hls, hc'⟩ := h.lsMain rest hx.cwd hx.screen hadmits.1 hadmits.2
    refine ⟨{ x with console := c' }, ?_, hx.cwd, hx.image, hc'⟩
    rw [sessionStep, Session.exec, hls]
    rfl
  | cat call =>
    obtain ⟨harg, hfits, hbelow, y, hy, hopens⟩ := hadmits
    obtain ⟨m₁, c', hcat, himage, hc'⟩ := (h.of_image hx.image).catMain rest hx.cwd hx.screen harg
      hfits hy hopens.kind hopens.name hopens.size hopens.percent hopens.fits hbelow
    have hfind := find?_located (a := start) (q := fun e => e.name = y.1.name) h.nodup hy
      (fun e he => of_decide_eq_true he) (by simp)
    rw [hopens.name] at hfind
    refine ⟨{ x with reading := { x.reading with mem := m₁ }, console := c' }, ?_, ?_⟩
    · rw [sessionStep, Session.exec, hcat]
      rfl
    · rw [UserView.next, hfind]
      exact ⟨hx.cwd, himage, hc'⟩
  | print fmt args =>
    obtain ⟨os, rest', hformat, hfits⟩ := hadmits
    obtain ⟨c', hprint, hc'⟩ := hx.screen.call hformat hfits
    refine ⟨{ x with console := c' }, ?_, ?_⟩
    · rw [sessionStep, Session.exec, hprint]
      rfl
    · rw [UserView.next, hformat]
      exact ⟨hx.cwd, hx.image, hc'⟩
  | other reading => exact ⟨{ x with reading := reading }, rfl, hx.cwd, hadmits, hx.screen⟩

/-- **Sessions.** On the table that `tarfs_init` makes of an archive, every sequence of `cd`, `ls`
and `cat`, with other output and other code between them, shows the user the tree of the archive:
`cd` goes to its directories or prints that there is none, `ls` prints the names in one, and `cat`
the text of a file. -/
theorem session_view (h : Linked m start image es) (hnodup : (es.map Member.name).Nodup)
    (hparents : ParentsFirst es) (hcount : es.length ≤ 99)
    (htop : ∀ e ∈ es, e.parentName = [] → 2 ≤ e.base.length) (hlen : image.length < 2 ^ 28)
    {junk : List UInt8} {tarfsE : TarfsEntry} (hjunk : junk.length = 100)
    (htarfsE : tarfsE.name.length = 100) :
    ∃ fs, tarfsInit junk tarfsE ⟨start, start + image.length, image⟩ = .ok (fs, es.length) ∧
      ∀ (x : Session) (v : UserView) (commands : List Command), x.Represents start image es v →
        Along (fun v command => some (v.next start image es command))
          (UserView.Admits start image es) v commands →
        ∃ x', Run (sessionStep fs) (fun _ _ => True) x commands x' ∧
          x'.Represents start image es (commands.foldl (UserView.next start image es) v) := by
  obtain ⟨filled, rest, hinit, hmounted⟩ :=
    h.mount hnodup hparents hcount htop hlen hjunk htarfsE
  refine ⟨_, hinit, fun x v commands hx hadmits => ?_⟩
  exact hadmits.lift (fun hx hop => hx.step hmounted rest hop) hx

end

/-! ## A session -/

/-- The data of `bin/ls`. -/
theorem fileText_ls :
    fileText 0xffffffff80300000 lsImage (lsFile, 0xffffffff80300200) = [1, 2, 3] := by
  have hdirectory : lsImage.drop 512 = ustar [(lsFile, [1, 2, 3])] := by
    rw [lsImage, ustar, List.append_assoc]
    exact List.drop_left' (Member.length_header _)
  have hdata : fileData 0xffffffff80300000 lsImage (lsFile, 0xffffffff80300200) = [1, 2, 3] := by
    rw [fileData, show 0xffffffff80300200 - 0xffffffff80300000 + 512 = 512 + 512 from rfl,
      ← List.drop_drop, hdirectory, ustar, List.append_assoc,
      List.drop_left' (Member.length_header _)]
    rfl
  rw [fileText, hdata]
  decide

/-- `ls` and `cat ls`, with arrays of zeros. -/
def lsCall : LsCall where
  argv := [[108, 115, 0]]
  lsCwd := List.replicate 128 0
  temp := List.replicate 100 0
  length_lsCwd := List.length_replicate
  length_temp := List.length_replicate

def catCall : CatCall where
  path := [108, 115, 0]
  arg := [108, 115]
  catCwd := List.replicate 128 0
  behind := [0]
  fileContent := 4096
  isStr_path := ⟨by decide, [], rfl⟩
  length_catCwd := List.length_replicate
  nul_mem := List.mem_cons_self

def lsCommands : List Command :=
  [.cd (cdCall 0 [98, 105, 110, 47] binDirectory.nul_notMem), .ls lsCall, .cat catCall]

/-- The name `ls` in a line, and behind it the three bytes. -/
def lsView : UserView := ⟨[98, 105, 110, 47], ⟨[[108, 115, 32, 32, 32, 32, 32]], [1, 2, 3]⟩⟩

theorem next_cd_ls (text : Transcript) :
    UserView.next 0xffffffff80300000 lsImage [binDirectory, lsFile] ⟨[], text⟩
      (.cd (cdCall 0 [98, 105, 110, 47] binDirectory.nul_notMem)) = ⟨[98, 105, 110, 47], text⟩ := by
  have hnext : nextCwd (directories [binDirectory, lsFile]) []
      (cdCall 0 [98, 105, 110, 47] binDirectory.nul_notMem) = [98, 105, 110, 47] := by decide
  have hfound : ¬ (cdCall 0 [98, 105, 110, 47] binDirectory.nul_notMem).Misses
      (directories [binDirectory, lsFile]) [] := by decide
  rw [UserView.next, hnext, cdView, if_neg hfound]

theorem next_ls_ls : UserView.next 0xffffffff80300000 lsImage [binDirectory, lsFile]
    ⟨[98, 105, 110, 47], ⟨[], []⟩⟩ (.ls lsCall) =
      ⟨[98, 105, 110, 47], ⟨[[108, 115, 32, 32, 32, 32, 32]], []⟩⟩ := by
  have htext : lsText [binDirectory, lsFile] (lsCall.target [98, 105, 110, 47]) =
      [108, 115, 32, 32, 32, 32, 32] := by decide
  rw [UserView.next, htext]
  rfl

theorem next_cat_ls : UserView.next 0xffffffff80300000 lsImage [binDirectory, lsFile]
    ⟨[98, 105, 110, 47], ⟨[[108, 115, 32, 32, 32, 32, 32]], []⟩⟩ (.cat catCall) = lsView := by
  have hbuilt : catCall.toCd.built [98, 105, 110, 47] = lsFile.name := by decide
  have hfind := find?_located (q := fun e => e.name = lsFile.name) (by decide) located_ls
    (fun e he => of_decide_eq_true he) (by simp)
  simp only [UserView.next, hbuilt, hfind, fileText_ls]
  rfl

theorem admits_ls :
    Along (fun v command => some
        (UserView.next 0xffffffff80300000 lsImage [binDirectory, lsFile] v command))
      (UserView.Admits 0xffffffff80300000 lsImage [binDirectory, lsFile]) ⟨[], ⟨[], []⟩⟩
      lsCommands := by
  rw [lsCommands, along_some_cons, next_cd_ls, along_some_cons, next_ls_ls, along_some_cons]
  refine ⟨⟨by decide, fun _ => by decide⟩, ⟨?_, by decide⟩, ⟨?_, trivial⟩⟩
  · rintro arg harg
    cases harg
  · refine ⟨by decide, by decide, by decide, _, located_ls, rfl, by decide, by decide, ?_, ?_⟩
    · rw [fileText_ls]
      decide
    · rw [fileText_ls]
      exact ⟨by decide, by decide, by decide, trivial⟩

/-- The user sees the name, and the file. -/
theorem session_view_ls :
    ∃ fs x', tarfsInit (List.replicate 100 0) .zero
        ⟨0xffffffff80300000, 0xffffffff80300000 + lsImage.length, lsImage⟩ = .ok (fs, 2) ∧
      Run (sessionStep fs) (fun _ _ => True) ⟨List.replicate 128 0, lsState, .boot⟩ lsCommands x' ∧
      x'.Represents 0xffffffff80300000 lsImage [binDirectory, lsFile] lsView := by
  have hname : TarfsEntry.zero.name.length = 100 := List.length_replicate
  obtain ⟨fs, hinit, hsession⟩ := session_view linked_ls (by decide) parentsFirst_ls (by decide)
    (by decide) (by rw [length_lsImage]; decide) (List.length_replicate (a := 0)) hname
  obtain ⟨x', hrun, hx'⟩ := hsession ⟨List.replicate 128 0, lsState, .boot⟩ ⟨[], ⟨[], []⟩⟩
    lsCommands ⟨⟨isStr_nil_iff.2 ⟨_, rfl⟩, rfl, Or.inl rfl⟩, linked_ls.mem, displays_boot⟩ admits_ls
  rw [lsCommands, List.foldl_cons, next_cd_ls, List.foldl_cons, next_ls_ls, List.foldl_cons,
    next_cat_ls, List.foldl_nil] at hx'
  exact ⟨fs, x', hinit, hrun, hx'⟩

/-! ## Every directory -/

/-- `readdirect` prints a line of names for the directory, and this one is among them. -/
def Lists (fs : List TarfsEntry) (s name : List UInt8) : Prop :=
  ∃ names : List (List UInt8), name ∈ names ∧ ∀ direct c, IsStr direct s →
    readdirect direct fs c = .ok (names.foldl Console.printEntry c).endLine

/-- Names that lead from the top level to a directory. Below the top level `readdirect` prints each
of them where it is used. -/
inductive Leads (fs : List TarfsEntry) : List (List UInt8) → List UInt8 → Prop
  | top : Leads fs [] []
  | down {names : List (List UInt8)} {s name : List UInt8} (h : Leads fs names s)
      (hlisted : s ≠ [] → Lists fs s name) : Leads fs (names ++ [name]) (s ++ name)

section

variable {m : Mem} {start : Nat} {image : List UInt8} {es : List Member} {filled : List TarfsEntry}
  {names : List (List UInt8)} {d e : Member} {s name : List UInt8} {call : CdCall}

theorem name_eq_append (e : Member) :
    e.parentName ++ e.name.drop e.parentName.length = e.name := by
  obtain ⟨tl, htl⟩ := parentName_prefix e
  rw [← htl, List.drop_left]

/-- A member is listed in its directory. -/
theorem Mounted.lists (h : Mounted m start image es filled) (rest : List TarfsEntry) (he : e ∈ es)
    (hparent : e.parentName ≠ []) :
    Lists (filled ++ .zero :: rest) e.parentName (e.name.drop e.parentName.length) := by
  refine ⟨entries es e.parentName, ?_, fun direct c hdirect => h.readdirect rest hdirect hparent c⟩
  exact List.mem_map.2 ⟨e, List.mem_filter.2 ⟨he, by simp⟩, rfl⟩

/-- The name of a directory in its parent ends in `'/'` as the whole name does. -/
theorem getLast?_of_directory (hdir : e.kind = .directory) (hlast : e.name.getLast? = some slash) :
    (e.name.drop e.parentName.length).getLast? = some slash := by
  obtain ⟨tl, htl, hback⟩ := e.exists_tail
  have hfront : e.parentName.length ≤ e.base.length :=
    (List.rdropWhile_prefix _ _).length_le
  have hlen := congrArg List.length htl
  rw [hdir, Kind.back] at hback
  rw [List.length_append] at hlen
  have hne : e.name.drop e.parentName.length ≠ [] :=
    List.ne_nil_of_length_pos (by rw [List.length_drop]; omega)
  rw [← name_eq_append e, List.getLast?_append_of_ne_nil _ hne] at hlast
  exact hlast

/-- In an array of zeros the path ends behind the argument. -/
theorem CdCall.built_of_zero (hzero : call.tempcwd = List.replicate 128 0)
    (hnul : 0 ∉ s ++ call.arg) (hfits : call.arg.length + s.length ≤ 127) :
    call.built s = s ++ call.arg := by
  obtain ⟨k, hk⟩ : ∃ k, 128 - (s.length + call.arg.length) = k + 1 :=
    ⟨127 - (s.length + call.arg.length), by omega⟩
  rw [built, buffer, hzero, List.drop_replicate, hk, List.replicate_succ, List.append_assoc,
    List.cons_append]
  exact (isStr_takeWhile (by simp)).unique ⟨hnul, _, rfl⟩

/-- `cd` enters a directory by its name in its parent. -/
theorem nextCwd_directory (he : e ∈ es) (hdir : e.kind = .directory)
    (hlast : e.name.getLast? = some slash) (harg : call.arg = e.name.drop e.parentName.length)
    (hzero : call.tempcwd = List.replicate 128 0) :
    call.arg.length + e.parentName.length ≤ 127 ∧
      nextCwd (directories es) e.parentName call = e.name := by
  have hname := name_eq_append e
  have hend := getLast?_of_directory hdir hlast
  rw [← harg] at hname hend
  have hlen := e.length_le
  rw [← hname, List.length_append] at hlen
  have hfits : call.arg.length + e.parentName.length ≤ 127 := by omega
  refine ⟨hfits, ?_⟩
  rw [nextCwd, CdCall.built_of_zero hzero (by rw [hname]; exact e.nul_notMem) hfits, hname, if_neg,
    if_pos (mem_directories.2 ⟨e, he, hdir, rfl⟩)]
  rintro (hnil | hup)
  · rw [hnil] at hend
    cases hend
  · rw [hup] at hend
    cases hend

/-- The directories of an archive are all led to, since each comes behind its own directory. -/
theorem Mounted.leads (h : Mounted m start image es filled) (rest : List TarfsEntry)
    {pre post : List Member} (hall : es = pre ++ e :: post) :
    ∃ names, Leads (filled ++ .zero :: rest) names e.parentName ∧
      ∀ (cwd : List UInt8) (calls : List CdCall), HoldsCwd (directories es) cwd [] →
        calls.map CdCall.arg = names →
        (∀ call ∈ calls, call.tempcwd = List.replicate 128 0) →
        ∃ cwd', Run (cdStep (filled ++ .zero :: rest)) FitsCwd cwd calls cwd' ∧
          HoldsCwd (directories es) cwd' e.parentName := by
  induction hn : pre.length using Nat.strong_induction_on generalizing pre e post with
  | _ n ih =>
    by_cases htop : e.parentName = []
    · rw [htop]
      refine ⟨[], .top, fun cwd calls hcwd hargs _ => ?_⟩
      obtain rfl := List.map_eq_nil_iff.1 hargs
      exact ⟨cwd, .nil cwd, hcwd⟩
    · obtain ⟨d, hd, hkind, hname⟩ := h.parents pre e post hall htop
      obtain ⟨pre₁, pre₂, rfl⟩ := List.append_of_mem hd
      have hall₁ : es = pre₁ ++ d :: (pre₂ ++ e :: post) := by simp [hall]
      have hlt : pre₁.length < n := by
        rw [← hn, List.length_append, List.length_cons]
        omega
      have hmem : d ∈ es := by simp [hall]
      have hlast : d.name.getLast? = some slash := hname ▸ (parentName_spec htop).1
      obtain ⟨names, hnames, hrun⟩ := ih _ hlt hall₁ rfl
      have hdown := Leads.down hnames fun hparent => h.lists rest hmem hparent
      rw [name_eq_append] at hdown
      rw [← hname]
      refine ⟨_, hdown, fun cwd calls hcwd hargs hzero => ?_⟩
      obtain ⟨front, back, rfl, hfront, hback⟩ := List.map_eq_append_iff.1 hargs
      obtain ⟨call, rfl, harg⟩ := List.map_eq_singleton_iff.1 hback
      obtain ⟨cwd₁, hrun₁, hcwd₁⟩ :=
        hrun cwd front hcwd hfront fun c hc => hzero c (List.mem_append_left _ hc)
      obtain ⟨hfits, hnext⟩ := nextCwd_directory hmem hkind hlast harg (hzero call (by simp))
      obtain ⟨cwd', hcd, hcwd'⟩ := h.linked.cd_spec h.indexes rest hcwd₁ hfits
      rw [hnext] at hcwd'
      exact ⟨cwd', hrun₁.snoc ⟨_, hcwd₁.isStr, hfits⟩ (by rw [cdStep, hcd]; rfl), hcwd'⟩

/-- **Every member is found.** On the table that `tarfs_init` makes of an archive, each member in a
directory is printed when `readdirect` lists this directory, and `cd` leads there from the top level
with names that are printed, below the top level, where they are used. -/
theorem every_member_found (h : Linked m start image es) (hnodup : (es.map Member.name).Nodup)
    (hparents : ParentsFirst es) (hcount : es.length ≤ 99)
    (htop : ∀ e ∈ es, e.parentName = [] → 2 ≤ e.base.length) (hlen : image.length < 2 ^ 28)
    {junk : List UInt8} {tarfsE : TarfsEntry} (hjunk : junk.length = 100)
    (htarfsE : tarfsE.name.length = 100) :
    ∃ fs, tarfsInit junk tarfsE ⟨start, start + image.length, image⟩ = .ok (fs, es.length) ∧
      ∀ e ∈ es, e.parentName ≠ [] → Lists fs e.parentName (e.name.drop e.parentName.length) ∧
        ∃ names, Leads fs names e.parentName ∧
          ∀ (cwd : List UInt8) (calls : List CdCall), IsStr cwd [] → cwd.length = 128 →
            calls.map CdCall.arg = names →
            (∀ call ∈ calls, call.tempcwd = List.replicate 128 0) →
            ∃ cwd', Run (cdStep fs) FitsCwd cwd calls cwd' ∧ IsStr cwd' e.parentName := by
  obtain ⟨filled, rest, hinit, hmounted⟩ :=
    h.mount hnodup hparents hcount htop hlen hjunk htarfsE
  refine ⟨_, hinit, fun e he hparent => ⟨hmounted.lists rest he hparent, ?_⟩⟩
  obtain ⟨pre, post, hall⟩ := List.append_of_mem he
  obtain ⟨names, hnames, hrun⟩ := hmounted.leads rest hall
  refine ⟨names, hnames, fun cwd calls hcwd hlength hargs hzero => ?_⟩
  obtain ⟨cwd', hrun', hcwd'⟩ := hrun cwd calls ⟨hcwd, hlength, Or.inl rfl⟩ hargs hzero
  exact ⟨cwd', hrun', hcwd'.isStr⟩

end

/-- `bin/` is led to, and `readdirect` prints the name `ls` there. -/
theorem every_member_found_ls :
    ∃ fs, tarfsInit (List.replicate 100 0) .zero
        ⟨0xffffffff80300000, 0xffffffff80300000 + lsImage.length, lsImage⟩ = .ok (fs, 2) ∧
      Lists fs [98, 105, 110, 47] [108, 115] ∧ ∃ names, Leads fs names [98, 105, 110, 47] := by
  have hname : TarfsEntry.zero.name.length = 100 := List.length_replicate
  obtain ⟨fs, hinit, hfound⟩ := every_member_found linked_ls (by decide) parentsFirst_ls (by decide)
    (by decide) (by rw [length_lsImage]; decide) (List.length_replicate (a := 0)) hname
  obtain ⟨hlisted, names, hnames, -⟩ :=
    hfound lsFile (List.mem_cons_of_mem _ List.mem_cons_self) (by decide)
  have hparent : lsFile.parentName = [98, 105, 110, 47] := by decide
  rw [hparent] at hlisted hnames
  exact ⟨fs, hinit, hlisted, names, hnames⟩

end Sbunix
