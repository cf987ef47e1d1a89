import Sbunix.Tarfs

/-!
# Archives and their index

The ustar format as far as the kernel reads it, and what `tarfs_init`, `openfile` and `getElfHeader`
do on every well-formed archive.

* `Archive bytes es` says that the bytes are an archive of the members `es`: each header is followed
  by the data in whole blocks, and a block of zeros is at the end.
* `Placed earlier e` says that the search for the parent of a member ends in its name and in the
  table.
* `tarfsInit_placed`: the index is the archive. `openfile_spec` and `getElfHeader_spec`: both
  lookups agree with it.

The two walkers meet at the headers. `tarfs_init` stops at the empty name of the block of zeros.
`getElfHeader` reads a size of 1227133520 there and jumps beyond the end.
-/

namespace Sbunix

open Lib

/-! ## The format -/

inductive Kind where
  | file | directory
deriving DecidableEq

namespace Kind

/-- The field `typeflag` of the index. -/
def typeflag : Kind → Int
  | file => fileType
  | directory => Sbunix.directory

/-- The bytes that stand for the kind in a header. -/
def bytes : Kind → List UInt8
  | file => [48, 0]
  | directory => [53]

/-- The byte that `tar` writes for the kind. -/
def flag : Kind → UInt8
  | file => 48
  | directory => 53

/-- How far from its end the search for the last `'/'` of a name starts. -/
def back : Kind → Nat
  | file => 1
  | directory => 2

end Kind

/-- A member of an archive. -/
structure Member where
  name : List UInt8
  size : Nat
  kind : Kind
  name_ne : name ≠ []
  nul_notMem : 0 ∉ name
  length_le : name.length ≤ 99

/-- The name without the last byte of a directory, which is the `'/'` that `tar` appends. -/
def Member.base (e : Member) : List UInt8 :=
  match e.kind with
  | .file => e.name
  | .directory => e.name.dropLast

/-- A size in whole blocks. -/
def padded (size : Nat) : Nat := (size + 511) / 512 * 512

/-- The bytes start with the header of the member. The field `size` has eleven octal digits, and
the fields `linkname` and `prefix` are empty. -/
structure IsHeader (bytes : List UInt8) (e : Member) : Prop where
  name : IsStr bytes e.name
  size : ∃ (ds : List Nat) (c : UInt8) (rest : List UInt8),
    sizeField bytes = ds.map digitByte ++ c :: rest ∧ ds.length = 11 ∧
    (∀ d ∈ ds, d < 8) ∧ NoDigit c ∧ Nat.ofDigits 8 ds.reverse = e.size
  typeflag : ∃ c rest, typeflagField bytes = c :: 0 :: rest ∧ c ∈ e.kind.bytes
  emptyPrefix : bytes[345]? = some 0

/-- The bytes are an archive of these members. -/
def Archive : List UInt8 → List Member → Prop
  | bytes, [] => ∃ rest, bytes = List.replicate 512 0 ++ rest
  | bytes, e :: es => IsHeader bytes e ∧ Archive (bytes.drop (512 + padded e.size)) es

/-- The member is behind the one whose name, with a `'/'` at its end, is in front of its own, or at
the top level with a name of at least two characters. -/
inductive Placed (earlier : List Member) (e : Member) : Prop where
  | top (hslash : slash ∉ e.base.tail) (hlen : 2 ≤ e.base.length)
  | inside (d : Member) (hd : d ∈ earlier) (hlast : d.name.getLast? = some slash)
      (rest : List UInt8) (hbase : e.base = d.name ++ rest) (hrest : slash ∉ rest)

/-- The length of the members in the archive. -/
def archiveLength : List Member → Nat
  | [] => 0
  | e :: es => 512 + padded e.size + archiveLength es

/-- The members with the addresses of their headers, from an address on. -/
def located (address : Nat) : List Member → List (Member × Nat)
  | [] => []
  | e :: es => (e, address) :: located (address + (512 + padded e.size)) es

/-- The entry of the index has the name, the size, the type and the header address of the member. -/
structure Indexes (f : TarfsEntry) (x : Member × Nat) : Prop where
  name : IsStr f.name x.1.name
  size : f.size = x.1.size
  typeflag : f.typeflag = x.1.kind.typeflag
  addrHdr : f.addrHdr = x.2

section

variable {bytes after : List UInt8} {e d : Member} {es pre : List Member} {a : Nat}

theorem Member.length_name_ne (e : Member) : ¬ e.name.length = 0 :=
  fun hzero => e.name_ne (List.length_eq_zero_iff.1 hzero)

/-- The entries of the table that are not filled have an empty name. -/
theorem isStr_zero : IsStr TarfsEntry.zero.name [] :=
  isStr_nil_iff.2 ⟨List.replicate 99 0, rfl⟩

theorem Archive.length_le (h : Archive bytes es) : archiveLength es + 512 ≤ bytes.length := by
  induction es generalizing bytes with
  | nil =>
    obtain ⟨rest, rfl⟩ := h
    rw [archiveLength, List.length_append, List.length_replicate]
    omega
  | cons e es ih =>
    have hlen := ih h.2
    rw [List.length_drop] at hlen
    rw [archiveLength]
    omega

theorem IsHeader.append (h : IsHeader bytes e) : IsHeader (bytes ++ after) e := by
  obtain ⟨hname, ⟨ds, c, rest₁, hsize, hds⟩, ⟨f, rest₂, hflag, hkind⟩, hprefix⟩ := h
  have hlong : 345 < bytes.length := (List.getElem?_eq_some_iff.1 hprefix).1
  refine ⟨hname.append after, ⟨ds, c, rest₁ ++ after, ?_, hds⟩, ⟨f, rest₂ ++ after, ?_, hkind⟩, ?_⟩
  · rw [sizeField, List.drop_append_of_le_length (by omega)]
    rw [sizeField] at hsize
    rw [hsize]
    simp
  · rw [typeflagField, List.drop_append_of_le_length (by omega)]
    rw [typeflagField] at hflag
    rw [hflag]
    simp
  · rw [List.getElem?_append_left hlong, hprefix]

/-- What follows an archive does not matter. -/
theorem Archive.append (h : Archive bytes es) : Archive (bytes ++ after) es := by
  induction es generalizing bytes with
  | nil =>
    obtain ⟨rest, rfl⟩ := h
    exact ⟨rest ++ after, List.append_assoc _ _ _⟩
  | cons e es ih =>
    have hlen := h.length_le
    rw [archiveLength] at hlen
    refine ⟨h.1.append, ?_⟩
    rw [List.drop_append_of_le_length (by omega)]
    exact ih h.2

theorem located_append (a : Nat) (pre es : List Member) :
    located a (pre ++ es) = located a pre ++ located (a + archiveLength pre) es := by
  induction pre generalizing a with
  | nil => simp [located, archiveLength]
  | cons e pre ih =>
    rw [List.cons_append, located, located, ih, archiveLength, List.cons_append]
    congr 3
    omega

theorem archiveLength_append (pre es : List Member) :
    archiveLength (pre ++ es) = archiveLength pre + archiveLength es := by
  induction pre with
  | nil => simp [archiveLength]
  | cons e pre ih =>
    rw [List.cons_append, archiveLength, archiveLength, ih]
    omega

theorem length_le_archiveLength (es : List Member) : es.length ≤ archiveLength es := by
  induction es with
  | nil => exact le_rfl
  | cons e es ih =>
    rw [archiveLength, List.length_cons]
    omega

theorem size_le_archiveLength (h : e ∈ es) : e.size ≤ archiveLength es := by
  obtain ⟨pre, post, rfl⟩ := List.append_of_mem h
  rw [archiveLength_append, archiveLength, padded]
  omega

theorem mem_of_mem_located {x : Member × Nat} (h : x ∈ located a es) : x.1 ∈ es := by
  induction es generalizing a with
  | nil => exact absurd h (by simp [located])
  | cons e es ih =>
    rw [located, List.mem_cons] at h
    rcases h with rfl | h
    · simp
    · simp [ih h]

/-! ## Parents -/

theorem slashLoop_eq_none_iff {name : List UInt8} {len : Nat} :
    slashLoop name len = .ok none ↔ 1 ≤ len ∧ ∀ j, 1 ≤ j → j ≤ len → name[j]? ≠ some slash := by
  induction len with
  | zero =>
    rw [slashLoop]
    split_ifs <;> simp
  | succ len ih =>
    rw [slashLoop]
    by_cases hat : name[len + 1]? = some slash
    · rw [if_pos hat]
      exact iff_of_false (by simp) fun h => h.2 _ (by omega) le_rfl hat
    rw [if_neg hat]
    have hlast : ∀ j, j ≤ len + 1 → ¬ j ≤ len → name[j]? ≠ some slash := by
      intro j hj hnot
      rwa [show j = len + 1 by omega]
    by_cases hzero : len = 0
    · rw [if_pos hzero]
      exact iff_of_true (by simp) ⟨by omega, fun j hj hj' => hlast j hj' (by omega)⟩
    · rw [if_neg hzero, ih]
      constructor
      · rintro ⟨hle, hnone⟩
        refine ⟨by omega, fun j hj hj' => ?_⟩
        by_cases hjlen : j ≤ len
        · exact hnone j hj hjlen
        · exact hlast j hj' hjlen
      · rintro ⟨-, hnone⟩
        exact ⟨by omega, fun j hj hj' => hnone j hj (by omega)⟩

/-- The search stops at the last `'/'`, unless it is at the start of a longer name. -/
theorem slashLoop_eq_some_iff {name : List UInt8} {len m : Nat} :
    slashLoop name len = .ok (some m) ↔ m ≤ len ∧ name[m]? = some slash ∧
      (∀ j, m < j → j ≤ len → name[j]? ≠ some slash) ∧ (m = 0 → len = 0) := by
  induction len with
  | zero =>
    rw [slashLoop]
    split_ifs with hat
    · simp only [Except.ok.injEq, Option.some.injEq]
      constructor
      · rintro rfl
        exact ⟨le_rfl, hat, by omega, fun _ => trivial⟩
      · rintro ⟨hle, -⟩
        omega
    · apply iff_of_false (by simp)
      rintro ⟨hle, hm, -⟩
      obtain rfl : m = 0 := by omega
      exact hat hm
  | succ len ih =>
    rw [slashLoop]
    by_cases hat : name[len + 1]? = some slash
    · rw [if_pos hat]
      simp only [Except.ok.injEq, Option.some.injEq]
      constructor
      · rintro rfl
        exact ⟨le_rfl, hat, by omega, by omega⟩
      · rintro ⟨hle, -, hnone, -⟩
        by_contra hne
        exact hnone _ (by omega) le_rfl hat
    rw [if_neg hat]
    by_cases hzero : len = 0
    · rw [if_pos hzero]
      apply iff_of_false (by simp)
      rintro ⟨hle, hm, -, hpos⟩
      obtain rfl : m = len + 1 := by omega
      exact hat hm
    · rw [if_neg hzero, ih]
      constructor
      · rintro ⟨hle, hm, hnone, hpos⟩
        refine ⟨by omega, hm, fun j hj hj' => ?_, by omega⟩
        by_cases hjlen : j ≤ len
        · exact hnone j hj hjlen
        · rwa [show j = len + 1 by omega]
      · rintro ⟨hle, hm, hnone, hpos⟩
        have hmlen : m ≠ len + 1 := fun heq => hat (heq ▸ hm)
        exact ⟨by omega, hm, fun j hj hj' => hnone j hj (by omega), by omega⟩

/-- A name of the table is found, at its first place. -/
theorem nameLoop_spec {name s : List UInt8} {filled : List TarfsEntry} {names : List (List UInt8)}
    (rest : List TarfsEntry) (hname : IsStr name s)
    (hindex : List.Forall₂ (fun f s => IsStr f.name s) filled names) (hmem : s ∈ names) (i : Nat) :
    nameLoop name (filled ++ rest) i = .ok (i + names.idxOf s) := by
  induction hindex generalizing i with
  | nil => exact absurd hmem List.not_mem_nil
  | @cons f s' filled names hf _ ih =>
    obtain ⟨r, hr, hiff⟩ := sstrcmp_spec hname hf
    rw [List.cons_append, nameLoop, hr, ok_bind]
    by_cases heq : s = s'
    · rw [if_neg (not_not.2 (hiff.2 heq)), heq, List.idxOf_cons_self]
      rfl
    · rw [if_pos fun hzero => heq (hiff.1 hzero), ih (List.mem_of_ne_of_mem heq hmem),
        List.idxOf_cons_ne _ (Ne.symm heq)]
      congr 1
      omega

/-- A search that comes to its end has found the name, or an empty one in the rest of the table. -/
theorem mem_of_nameLoop {name s : List UInt8} {filled : List TarfsEntry}
    {names : List (List UInt8)} {k i r : Nat} (hname : IsStr name s) (hne : s ≠ [])
    (hindex : List.Forall₂ (fun f s => IsStr f.name s) filled names)
    (h : nameLoop name (filled ++ List.replicate k .zero) i = .ok r) : s ∈ names := by
  induction hindex generalizing i with
  | nil =>
    induction k generalizing i with
    | zero => cases h
    | succ k ih =>
      obtain ⟨c, hc, hiff⟩ := sstrcmp_spec hname isStr_zero
      rw [List.nil_append, List.replicate_succ, nameLoop, hc, ok_bind,
        if_pos fun heq => hne (hiff.1 heq)] at h
      exact ih h
  | @cons f s' filled names hf _ ih =>
    obtain ⟨c, hc, hiff⟩ := sstrcmp_spec hname hf
    rw [List.cons_append, nameLoop, hc, ok_bind] at h
    by_cases heq : s = s'
    · exact heq ▸ List.mem_cons_self
    · rw [if_pos fun hzero => heq (hiff.1 hzero)] at h
      exact List.mem_cons_of_mem _ (ih h)

theorem Member.exists_tail (e : Member) :
    ∃ tl, e.name = e.base ++ tl ∧ tl.length + 1 = e.kind.back := by
  cases hkind : e.kind with
  | file => exact ⟨[], by simp [Member.base, hkind], rfl⟩
  | directory =>
    refine ⟨[e.name.getLast e.name_ne], ?_, rfl⟩
    simp only [Member.base, hkind]
    exact (List.dropLast_append_getLast e.name_ne).symm

/-- `get_per_ind` once the name is copied. The search starts at the last byte of `base`. -/
theorem perInd_eq {back : Nat} {junk dir base tl : List UInt8} (hdir : IsStr dir (base ++ tl))
    (htl : tl.length + 1 = back) (hlen : (base ++ tl).length < junk.length)
    (hbase : base ≠ []) (fs : List TarfsEntry) :
    ∃ name, IsStr name (base ++ tl) ∧ perInd back junk dir fs =
      (slashLoop name (base.length - 1) >>= fun
        | none => .ok 999
        | some m => nameLoop (name.set (m + 1) 0) fs 0 >>= fun i => .ok (i : Int)) := by
  obtain ⟨name, hcopy, hname, -⟩ := sstrcpy_spec junk hdir hlen
  have hpos := List.length_pos_iff.2 hbase
  refine ⟨name, hname, ?_⟩
  rw [List.length_append] at hlen
  unfold perInd
  rw [strlen_spec hdir, ok_bind, hcopy, ok_bind, if_neg (by rw [List.length_append]; omega),
    show (base ++ tl).length - back = base.length - 1 by rw [List.length_append]; omega]
  cases hloop : slashLoop name (base.length - 1) with
  | error e => rfl
  | ok found =>
    cases found with
    | none => rfl
    | some m =>
      have hm := (slashLoop_eq_some_iff.1 hloop).1
      have hbound := hname.length_lt
      rw [List.length_append] at hbound
      simp only [ok_bind]
      rw [if_pos (by omega)]

theorem getElem?_base {name base tl : List UInt8} (hname : IsStr name (base ++ tl)) {j : Nat}
    (hj : j < base.length) : name[j]? = base[j]? := by
  rw [hname.getElem? (by rw [List.length_append]; omega), List.getElem?_append_left hj]

/-- A name without a `'/'` behind its first byte has no parent. -/
theorem perInd_top {back : Nat} {junk dir base tl : List UInt8} (hdir : IsStr dir (base ++ tl))
    (htl : tl.length + 1 = back) (hlen : (base ++ tl).length < junk.length)
    (hslash : slash ∉ base.tail) (htwo : 2 ≤ base.length) (fs : List TarfsEntry) :
    perInd back junk dir fs = .ok 999 := by
  obtain ⟨name, hname, heq⟩ := perInd_eq hdir htl hlen (List.ne_nil_of_length_pos (by omega)) fs
  have hnone : slashLoop name (base.length - 1) = .ok none := by
    refine slashLoop_eq_none_iff.2 ⟨by omega, fun j hj hj' hat => ?_⟩
    rw [getElem?_base hname (by omega)] at hat
    refine hslash (List.mem_of_getElem? (i := j - 1) ?_)
    rw [List.getElem?_tail, Nat.sub_add_cancel hj, hat]
  rw [heq, hnone, ok_bind]

/-- The parent of a name is found at the first place of the parent's name. -/
theorem perInd_inside {back : Nat} {junk dir parent rest tl : List UInt8}
    {filled after : List TarfsEntry} {names : List (List UInt8)}
    (hdir : IsStr dir (parent ++ rest ++ tl)) (htl : tl.length + 1 = back)
    (hlen : (parent ++ rest ++ tl).length < junk.length) (hparent : parent.getLast? = some slash)
    (htwo : 2 ≤ parent.length ∨ rest = []) (hrest : slash ∉ rest)
    (hindex : List.Forall₂ (fun f s => IsStr f.name s) filled names) (hmem : parent ∈ names) :
    perInd back junk dir (filled ++ after) = .ok (names.idxOf parent) := by
  have hlength : (parent ++ rest).length = parent.length + rest.length := List.length_append
  have hpos : 0 < parent.length := by
    rw [List.length_pos_iff]
    rintro rfl
    cases hparent
  have hone : parent.length - 1 = 0 → parent.length + rest.length - 1 = 0 := by
    intro hle
    obtain htwo | rfl := htwo
    · omega
    · rw [List.length_nil]
      omega
  obtain ⟨name, hname, heq⟩ := perInd_eq hdir htl hlen
    (List.ne_nil_of_length_pos (by omega)) (filled ++ after)
  rw [List.getLast?_eq_getElem?] at hparent
  have hsome : slashLoop name ((parent ++ rest).length - 1) = .ok (some (parent.length - 1)) := by
    refine slashLoop_eq_some_iff.2 ⟨by omega, ?_, fun j hj hj' hat => ?_, by rwa [hlength]⟩
    · rw [getElem?_base hname (by omega), List.getElem?_append_left (by omega)]
      exact hparent
    · rw [getElem?_base hname (by omega), List.getElem?_append_right (by omega)] at hat
      exact hrest (List.mem_of_getElem? hat)
  have hcut : IsStr (name.set (parent.length - 1 + 1) 0) parent := by
    have := hname.set_zero (i := parent.length) (by rw [List.length_append]; omega)
    rw [List.append_assoc, List.take_left] at this
    rwa [Nat.sub_add_cancel (by omega)]
  rw [heq, hsome, ok_bind]
  simp only [nameLoop_spec after hcut hindex hmem, ok_bind, Nat.zero_add]

/-- The search for the parent of a member that has been placed stays in the name and in the
table. -/
theorem perInd_spec {junk dir : List UInt8} {filled : List TarfsEntry} (rest : List TarfsEntry)
    (hdir : IsStr dir e.name) (hjunk : junk.length = 100)
    (hindex : List.Forall₂ (fun f (d : Member) => IsStr f.name d.name) filled pre)
    (hplaced : Placed pre e) :
    ∃ p, perInd e.kind.back junk dir (filled ++ rest) = .ok p := by
  obtain ⟨tl, htl, hback⟩ := e.exists_tail
  have hlen := e.length_le
  rcases hplaced with ⟨hslash, htwo⟩ | ⟨d, hd, hlast, rest', hbase, hrest⟩
  · rw [htl] at hdir hlen
    exact ⟨999, perInd_top hdir hback (by omega) hslash htwo _⟩
  · rw [htl, hbase] at hdir hlen
    by_cases htwo : 2 ≤ d.name.length ∨ rest' = []
    · exact ⟨_, perInd_inside hdir hback (by omega) hlast htwo hrest
        (List.forall₂_map_right_iff.2 hindex) (List.mem_map_of_mem hd)⟩
    · -- The search does not look at the first byte of a longer name.
      obtain ⟨hshort, hne⟩ := not_or.1 htwo
      obtain ⟨c, hc⟩ : ∃ c, d.name = [c] := List.length_eq_one_iff.1 (by
        have hpos := List.length_pos_iff.2 d.name_ne
        omega)
      rw [hc] at hdir hlen
      refine ⟨999, perInd_top hdir hback (by omega) hrest ?_ _⟩
      have hpos := List.length_pos_iff.2 hne
      rw [List.length_append, List.length_singleton]
      omega

/-! ## `tarfs_init` -/

theorem stoi_typeflag {c : UInt8} {kind : Kind} (rest : List UInt8) (h : c ∈ kind.bytes) :
    ∃ n, stoi (c :: 0 :: rest) = .ok n ∧ Int.bmod n (2 ^ 32) = kind.typeflag := by
  cases kind with
  | file =>
    rcases List.mem_pair.1 h with rfl | rfl
    · exact ⟨0, rfl, rfl⟩
    · exact ⟨0, rfl, rfl⟩
  | directory =>
    rw [List.mem_singleton.1 h]
    exact ⟨5, rfl, rfl⟩

theorem parIndFor_typeflag (kind : Kind) (junk name : List UInt8) (fs : List TarfsEntry)
    (parInd : Int) :
    parIndFor kind.typeflag junk name fs parInd = perInd kind.back junk name fs := by
  cases kind with
  | file => rfl
  | directory => rfl

/-- The entry that `tarfs_init` makes of a header whose size and parent it gets. -/
theorem readEntry_spec {t : Tarfs} {junk : List UInt8} {temp : Nat} {tarfsE : TarfsEntry}
    {fs : List TarfsEntry} {P : Int → Prop} (h : IsHeader bytes e)
    (hread : ∃ n, stoi (sizeField bytes) = .ok n ∧ octalToDecimal n = e.size)
    (hsize : e.size < 2 ^ 31) (htarfsE : tarfsE.name.length = 100)
    (hp : ∀ name, IsStr name e.name → ∃ p, perInd e.kind.back junk name fs = .ok p ∧ P p)
    (haddr : t.start + temp < 2 ^ 64) :
    ∃ f, readEntry junk t bytes temp tarfsE fs = .ok (e.size, f) ∧
      Indexes f (e, t.start + temp) ∧ f.name.length = 100 ∧ P f.parInd := by
  obtain ⟨n, hstoi, hn⟩ := hread
  obtain ⟨name, hcopy, hname, hname'⟩ := sstrcpy_spec tarfsE.name h.name
    (by have := e.length_le; omega)
  obtain ⟨flag, restFlag, hflag, hkind⟩ := h.typeflag
  obtain ⟨k, hk, htype⟩ := stoi_typeflag restFlag hkind
  obtain ⟨p, hfound, hP⟩ := hp name hname
  refine ⟨⟨name, e.size, e.kind.typeflag, t.start + temp, p⟩, ?_, ⟨hname, rfl, rfl, rfl⟩,
    hname'.trans htarfsE, hP⟩
  unfold readEntry
  rw [hstoi, ok_bind, hcopy, ok_bind, hflag, hk, ok_bind]
  simp only [htype, parIndFor_typeflag, hfound, ok_bind, hn]
  have hmod : Int.bmod e.size (2 ^ 32) = e.size := Int.bmod_eq_of_le (by omega) (by omega)
  have haddr' : (((t.start : Int) + temp) % 2 ^ 64).toNat = t.start + temp := by omega
  rw [hmod, haddr']

theorem IsHeader.size_read (h : IsHeader bytes e) (hsize : e.size < 2 ^ 28) :
    ∃ n, stoi (sizeField bytes) = .ok n ∧ octalToDecimal n = e.size := by
  obtain ⟨ds, c, rest, hfield, hlen, hds, hc, hvalue⟩ := h.size
  obtain ⟨n, hstoi, hn⟩ := octalToDecimal_stoi rest hds hlen hc (hvalue ▸ hsize)
  exact ⟨n, hfield ▸ hstoi, hn.trans hvalue⟩

theorem nextTemp_spec {temp size : Nat} (h : temp + (512 + padded size) < 2 ^ 31) :
    nextTemp temp size = (temp + (512 + padded size) : Nat) := by
  unfold nextTemp
  unfold padded at h ⊢
  split_ifs <;> rw [Int.bmod_eq_of_le (by omega) (by omega)] <;> omega

theorem length_located (a : Nat) (es : List Member) : (located a es).length = es.length := by
  induction es generalizing a with
  | nil => rfl
  | cons e es ih => simp [located, ih]

theorem map_fst_located (a : Nat) (es : List Member) : (located a es).map Prod.fst = es := by
  induction es generalizing a with
  | nil => rfl
  | cons e es ih => simp [located, ih]

/-- The block at the end has an empty name. -/
theorem isStr_zeros (n : Nat) (rest : List UInt8) : IsStr (List.replicate (n + 1) 0 ++ rest) [] :=
  isStr_nil_iff.2 ⟨List.replicate n 0 ++ rest, by rw [List.replicate_succ, List.cons_append]⟩

theorem set_replicate {α : Type*} (l : List α) (n : Nat) (x z : α) :
    (l ++ List.replicate (n + 1) z).set l.length x = (l ++ [x]) ++ List.replicate n z := by
  rw [List.replicate_succ, List.set_append_right _ _ le_rfl]
  simp

/-- `tarfs_init` on an archive, for a relation of entries and members that each turn establishes. -/
theorem tarfsInitLoop_spec {R : TarfsEntry → Member × Nat → Prop} {t : Tarfs} {junk : List UInt8}
    {fuel : Nat} {tarfsE : TarfsEntry} {filled : List TarfsEntry} {all : List Member}
    (hread : ∀ pre e post, all = pre ++ e :: post → ∀ filled tarfsE,
      List.Forall₂ R filled (located t.start pre) → tarfsE.name.length = 100 →
      IsHeader (t.mem.drop (archiveLength pre)) e → ∃ f,
        readEntry junk t (t.mem.drop (archiveLength pre)) (archiveLength pre) tarfsE
          (filled ++ List.replicate (100 - pre.length) .zero) = .ok (e.size, f) ∧
        R f (e, t.start + archiveLength pre) ∧ f.name.length = 100)
    (hall : all = pre ++ es) (hcount : all.length ≤ 100)
    (harch : Archive (t.mem.drop (archiveLength pre)) es)
    (hindex : List.Forall₂ R filled (located t.start pre)) (hfuel : es.length < fuel)
    (hlen : archiveLength all < 2 ^ 31) (htarfsE : tarfsE.name.length = 100) :
    ∃ filled', tarfsInitLoop junk t fuel (archiveLength pre) pre.length tarfsE
        (filled ++ List.replicate (100 - pre.length) .zero) =
          .ok (filled' ++ List.replicate (100 - all.length) .zero, all.length) ∧
      List.Forall₂ R filled' (located t.start all) := by
  induction es generalizing pre filled tarfsE fuel with
  | nil =>
    obtain ⟨fuel, rfl⟩ : ∃ n, fuel = n + 1 := ⟨fuel - 1, by simp at hfuel; omega⟩
    obtain ⟨rest, hrest⟩ := harch
    rw [List.append_nil] at hall
    subst hall
    refine ⟨filled, ?_, hindex⟩
    rw [tarfsInitLoop, Tarfs.pointer, if_pos (by omega), ok_bind, Int.toNat_natCast, hrest,
      strlen_spec (isStr_zeros 511 rest), ok_bind]
    rfl
  | cons e es ih =>
    obtain ⟨fuel, rfl⟩ : ∃ n, fuel = n + 1 := ⟨fuel - 1, by simp at hfuel; omega⟩
    obtain ⟨hheader, hrest⟩ := harch
    have hassoc : all = (pre ++ [e]) ++ es := hall.trans (List.append_cons pre e es)
    have hlength : filled.length = pre.length := hindex.length_eq.trans (length_located _ _)
    have hnext : archiveLength (pre ++ [e]) = archiveLength pre + (512 + padded e.size) := by
      rw [archiveLength_append, archiveLength, archiveLength, Nat.add_zero]
    have hbound : archiveLength (pre ++ [e]) < 2 ^ 31 := by
      rw [hassoc, archiveLength_append] at hlen
      omega
    have hpre : pre.length < 100 := by
      rw [hall, List.length_append, List.length_cons] at hcount
      omega
    obtain ⟨f, hf, hfe, hfname⟩ := hread pre e es hall filled tarfsE hindex htarfsE hheader
    obtain ⟨k, hk⟩ : ∃ k, 100 - pre.length = k + 1 := ⟨100 - pre.length - 1, by omega⟩
    have hindex' : List.Forall₂ R (filled ++ [f]) (located t.start (pre ++ [e])) := by
      rw [located_append]
      exact List.rel_append hindex (.cons hfe .nil)
    obtain ⟨filled', hloop, hfilled'⟩ := ih hassoc (by rwa [hnext, ← List.drop_drop]) hindex'
      (by simpa using hfuel) hfname
    refine ⟨filled', ?_, hfilled'⟩
    rw [tarfsInitLoop, Tarfs.pointer, if_pos (by omega), ok_bind, Int.toNat_natCast,
      strlen_spec hheader.name, ok_bind, if_neg e.length_name_ne, hf, ok_bind]
    simp only
    rw [if_pos (by rw [List.length_append, List.length_replicate]; omega), nextTemp_spec (by omega),
      ← hnext, hk, ← hlength, set_replicate, hlength, ← hloop, List.length_append,
      List.length_singleton, show 100 - (pre.length + 1) = k by omega]

/-- The names of the entries are those of the members. -/
theorem forall₂_names {filled : List TarfsEntry} {start : Nat}
    (h : List.Forall₂ Indexes filled (located start pre)) :
    List.Forall₂ (fun f (d : Member) => IsStr f.name d.name) filled pre := by
  rw [← map_fst_located start pre]
  exact List.forall₂_map_right_iff.2 (h.imp fun f x (hx : Indexes f x) => hx.name)

/-- `tarfs_init` on an archive whose sizes it gets and whose parents it finds. -/
theorem tarfsInit_of_parents {P : Member → Int → Prop} {t : Tarfs} {junk : List UInt8}
    {tarfsE : TarfsEntry} (hcount : es.length ≤ 100) (harch : Archive t.mem es)
    (hlen : archiveLength es < 2 ^ 31) (haddr : t.start + archiveLength es ≤ 2 ^ 64)
    (htarfsE : tarfsE.name.length = 100)
    (hsizes : ∀ e ∈ es, ∀ bytes, IsHeader bytes e →
      ∃ n, stoi (sizeField bytes) = .ok n ∧ octalToDecimal n = e.size)
    (hparent : ∀ pre e post, es = pre ++ e :: post → ∀ filled after name,
      List.Forall₂ (fun f (d : Member) => IsStr f.name d.name) filled pre → IsStr name e.name →
      ∃ p, perInd e.kind.back junk name (filled ++ after) = .ok p ∧ P e p) :
    ∃ filled, tarfsInit junk tarfsE t =
        .ok (filled ++ List.replicate (100 - es.length) .zero, es.length) ∧
      List.Forall₂ (fun f x => Indexes f x ∧ P x.1 f.parInd) filled (located t.start es) := by
  have hdrop : Archive (t.mem.drop (archiveLength [])) es := harch
  refine tarfsInitLoop_spec ?_ (List.nil_append es).symm hcount hdrop .nil
    (Nat.lt_succ_of_le (by omega)) hlen htarfsE
  intro pre e post hall filled tarfsE hindex htarfsE hheader
  have hsplit :
      archiveLength es = archiveLength pre + (512 + padded e.size + archiveLength post) := by
    rw [hall, archiveLength_append, archiveLength]
  have hpadded : e.size ≤ padded e.size := by
    unfold padded
    omega
  have hnames := forall₂_names (hindex.imp fun f x h => h.1)
  obtain ⟨f, hf, hfe, hfname, hP⟩ := readEntry_spec hheader
    (hsizes e (by simp [hall]) _ hheader) (by omega) htarfsE
    (hparent pre e post hall filled (List.replicate (100 - pre.length) .zero) · hnames)
    (show t.start + archiveLength pre < 2 ^ 64 by omega)
  exact ⟨f, hf, ⟨hfe, hP⟩, hfname⟩

/-- `tarfs_init` on an archive whose members have been placed. -/
theorem tarfsInit_placed {t : Tarfs} {junk : List UInt8} {tarfsE : TarfsEntry}
    (hcount : es.length ≤ 100) (hplaced : ∀ pre e post, es = pre ++ e :: post → Placed pre e)
    (harch : Archive t.mem es) (hlen : archiveLength es < 2 ^ 31)
    (haddr : t.start + archiveLength es ≤ 2 ^ 64) (hjunk : junk.length = 100)
    (htarfsE : tarfsE.name.length = 100)
    (hsizes : ∀ e ∈ es, ∀ bytes, IsHeader bytes e →
      ∃ n, stoi (sizeField bytes) = .ok n ∧ octalToDecimal n = e.size) :
    ∃ filled, tarfsInit junk tarfsE t =
        .ok (filled ++ List.replicate (100 - es.length) .zero, es.length) ∧
      List.Forall₂ Indexes filled (located t.start es) := by
  obtain ⟨filled, hinit, hindex⟩ := tarfsInit_of_parents (P := fun _ _ => True) hcount harch hlen
    haddr htarfsE hsizes (fun pre e post hall filled after name hnames hname => by
      obtain ⟨p, hp⟩ := perInd_spec after hname hjunk hnames (hplaced pre e post hall)
      exact ⟨p, hp, trivial⟩)
  exact ⟨filled, hinit, hindex.imp fun f x h => h.1⟩

/-! ## Lookups -/

theorem openfile_eq_lookup (file : List UInt8) (fs : List TarfsEntry) :
    openfile file fs = lookup fileType file fs := by
  induction fs with
  | nil => rfl
  | cons f fs ih => rw [openfile, lookup, ih]

theorem Kind.typeflag_inj {k k' : Kind} : k.typeflag = k'.typeflag ↔ k = k' := by
  cases k <;> cases k' <;> decide

/-- A lookup goes on behind entries without a member of the name and the kind. -/
theorem lookup_append (kind : Kind) {name s : List UInt8} {filled : List TarfsEntry}
    {xs : List (Member × Nat)} (rest : List TarfsEntry) (hname : IsStr name s)
    (hindex : List.Forall₂ Indexes filled xs) :
    lookup kind.typeflag name (filled ++ rest) =
      ((xs.find? fun x => x.1.name = s ∧ x.1.kind = kind).map fun x => .ok x.2).getD
        (lookup kind.typeflag name rest) := by
  induction hindex with
  | nil => rfl
  | @cons f x filled xs hf _ ih =>
    obtain ⟨r, hr, hiff⟩ := strcmp_spec hf.name hname
    have hne := x.1.length_name_ne
    have htype : f.typeflag = kind.typeflag ↔ x.1.kind = kind := by
      rw [hf.typeflag, Kind.typeflag_inj]
    rw [List.cons_append, lookup, strlen_spec hf.name, ok_bind, if_neg hne, hr, ok_bind,
      List.find?_cons]
    by_cases hx : x.1.name = s ∧ x.1.kind = kind
    · rw [if_pos ⟨hiff.2 hx.1, htype.2 hx.2⟩]
      simp [hx, hf.addrHdr]
    · rw [if_neg fun h => hx ⟨hiff.1 h.1, htype.1 h.2⟩, ih]
      simp [hx]

/-- A lookup returns the header address of the first member of the name and the kind. -/
theorem lookup_spec (kind : Kind) {name s : List UInt8} {filled : List TarfsEntry}
    {xs : List (Member × Nat)} (rest : List TarfsEntry) (hname : IsStr name s)
    (hindex : List.Forall₂ Indexes filled xs) :
    lookup kind.typeflag name (filled ++ .zero :: rest) =
      .ok (((xs.find? fun x => x.1.name = s ∧ x.1.kind = kind).map Prod.snd).getD 0) := by
  have hend : lookup kind.typeflag name (.zero :: rest) = .ok 0 := by
    rw [lookup, strlen_spec isStr_zero]
    rfl
  rw [lookup_append kind _ hname hindex, hend]
  cases xs.find? fun x => x.1.name = s ∧ x.1.kind = kind <;> rfl

/-- `openfile` returns the header address of the first file of the name. -/
theorem openfile_spec {file s : List UInt8} {filled : List TarfsEntry}
    {xs : List (Member × Nat)} (rest : List TarfsEntry) (hfile : IsStr file s)
    (hindex : List.Forall₂ Indexes filled xs) :
    openfile file (filled ++ .zero :: rest) =
      .ok (((xs.find? fun x => x.1.name = s ∧ x.1.kind = .file).map Prod.snd).getD 0) := by
  rw [openfile_eq_lookup]
  exact lookup_spec .file rest hfile hindex

theorem nextAddress_spec {address size : Nat} (hsize : size < 2 ^ 28)
    (h : address + (512 + padded size) < 2 ^ 64) :
    nextAddress address size = address + (512 + padded size) := by
  simp only [nextAddress]
  unfold padded at h ⊢
  split_ifs <;> omega

/-- `getElfHeader` returns the address behind the first header of the name. -/
theorem getElfHeaderLoop_spec {t : Tarfs} {file s : List UInt8} {fuel : Nat} (offset : Nat)
    (hfile : IsStr file s) (hne : s ≠ []) (harch : Archive (t.mem.drop offset) es)
    (hfuel : es.length + 1 < fuel) (hstop : t.start + (offset + archiveLength es) < t.stop)
    (hend : t.stop + 1227134464 ≤ 2 ^ 64) (hlen : t.stop < t.start + 2 ^ 28) :
    getElfHeaderLoop t file fuel (t.start + offset) =
      .ok ((((located (t.start + offset) es).find? fun x => x.1.name = s).map
        (·.2 + 512)).getD 0) := by
  induction es generalizing fuel offset with
  | nil =>
    obtain ⟨fuel, rfl⟩ : ∃ n, fuel = n + 2 := ⟨fuel - 2, by simp at hfuel; omega⟩
    obtain ⟨rest, hrest⟩ := harch
    obtain ⟨r, hr, hiff⟩ := strcmp_spec (isStr_zeros 511 rest) hfile
    have hr' : ¬ r = 0 := fun hzero => hne (hiff.1 hzero).symm
    have hsize : getSize (sizeField (List.replicate 512 0 ++ rest)) = .ok 1227133520 := by
      refine getSize_zero ?_
      intro k hk
      have hin : 124 + k < (List.replicate 512 (0 : UInt8)).length := by
        rw [List.length_replicate]
        omega
      rw [sizeField, List.getElem?_drop, List.getElem?_append_left hin, List.getElem?_replicate,
        if_pos (by omega)]
    have hjump : nextAddress (t.start + offset) 1227133520 = t.start + offset + 1227134464 := by
      rw [archiveLength] at hstop
      rw [nextAddress, if_pos (by norm_num)]
      omega
    rw [archiveLength] at hstop
    rw [getElfHeaderLoop, if_pos (by omega), Tarfs.pointer, if_pos (by omega), ok_bind,
      show ((t.start + offset : Nat) - t.start : Int).toNat = offset by omega, hrest, hsize,
      ok_bind, hr, ok_bind, if_neg hr', hjump, getElfHeaderLoop, if_neg (by omega)]
    rfl
  | cons e es ih =>
    obtain ⟨fuel, rfl⟩ : ∃ n, fuel = n + 1 := ⟨fuel - 1, by simp at hfuel; omega⟩
    obtain ⟨hheader, hrest⟩ := harch
    obtain ⟨ds, c, restSize, hfield, hdslen, hds, hc, hvalue⟩ := hheader.size
    obtain ⟨r, hr, hiff⟩ := strcmp_spec hheader.name hfile
    rw [archiveLength] at hstop
    have hpadded : e.size ≤ padded e.size := by
      unfold padded
      omega
    have hsize : getSize (sizeField (t.mem.drop offset)) = .ok e.size := by
      rw [hfield, getSize_spec hds hdslen (by omega), hvalue]
    rw [getElfHeaderLoop, if_pos (by omega), Tarfs.pointer, if_pos (by omega), ok_bind,
      show ((t.start + offset : Nat) - t.start : Int).toNat = offset by omega, hsize, ok_bind, hr,
      ok_bind, located, List.find?_cons]
    by_cases he : e.name = s
    · rw [if_pos (hiff.2 he), Nat.mod_eq_of_lt (by omega)]
      simp [he]
    · rw [if_neg fun h => he (hiff.1 h), nextAddress_spec (by omega) (by omega), Nat.add_assoc,
        ih _ (by rwa [← List.drop_drop]) (by simpa using hfuel) (by omega)]
      simp [he]

/-! ## The index and the archive -/

/-- The kernel is linked from `kernmem` on, and takes less than 512 MiB in front of the archive. -/
def linkedBelow : Nat := 0xffffffff80200000 + 2 ^ 29

theorem find?_located {x : Member × Nat} {q : Member → Bool} (hnodup : (es.map Member.name).Nodup)
    (hx : x ∈ located a es) (hq : ∀ e : Member, q e → e.name = x.1.name) (hqx : q x.1) :
    (located a es).find? (fun y => q y.1) = some x := by
  induction es generalizing a with
  | nil => exact absurd hx (by simp [located])
  | cons e es ih =>
    rw [List.map_cons, List.nodup_cons] at hnodup
    rw [located, List.mem_cons] at hx
    rw [located, List.find?_cons]
    rcases hx with rfl | hx
    · simp only [hqx]
    · have he : q e = false := by
        by_contra hqe
        have hname := hq e (by simpa using hqe)
        exact hnodup.1 (hname ▸ List.mem_map_of_mem (mem_of_mem_located hx))
      simp only [he]
      exact ih hnodup.2 hx

/-- `getElfHeader` finds the first member of the name. -/
theorem getElfHeader_spec {image file s : List UInt8} {es : List Member} (after : List UInt8)
    {start : Nat} (harch : Archive image es) (hlen : image.length < 2 ^ 28)
    (hstart : start < linkedBelow) (hfile : IsStr file s) (hne : s ≠ []) :
    getElfHeader ⟨start, start + image.length, image ++ after⟩ file =
      .ok ((((located start es).find? fun x => x.1.name = s).map (·.2 + 512)).getD 0) := by
  have hlength := harch.length_le
  have hblocks := length_le_archiveLength es
  rw [linkedBelow] at hstart
  refine getElfHeaderLoop_spec 0 hfile hne harch.append ?_ ?_ ?_ ?_
  · show es.length + 1 < start + image.length - start + 1
    omega
  · show start + (0 + archiveLength es) < start + image.length
    omega
  · show start + image.length + 1227134464 ≤ 2 ^ 64
    omega
  · show start + image.length < start + 2 ^ 28
    omega

/-! ## Writing archives -/

/-- The last `k` octal digits of a number, the first one first. -/
def octal : Nat → Nat → List Nat
  | 0, _ => []
  | k + 1, n => octal k (n / 8) ++ [n % 8]

theorem length_octal (k n : Nat) : (octal k n).length = k := by
  induction k generalizing n with
  | zero => rfl
  | succ k ih => simp [octal, ih]

theorem octal_lt {k n d : Nat} (h : d ∈ octal k n) : d < 8 := by
  induction k generalizing n with
  | zero => simp [octal] at h
  | succ k ih =>
    rw [octal, List.mem_append, List.mem_singleton] at h
    rcases h with h | rfl
    · exact ih h
    · exact Nat.mod_lt _ (by norm_num)

theorem ofDigits_octal {k n : Nat} (h : n < 8 ^ k) : Nat.ofDigits 8 (octal k n).reverse = n := by
  induction k generalizing n with
  | zero =>
    obtain rfl : n = 0 := by simpa using h
    rfl
  | succ k ih =>
    rw [octal, List.reverse_append, List.reverse_singleton, List.singleton_append,
      Nat.ofDigits_cons, ih (by rw [pow_succ] at h; omega)]
    omega

/-- The header that `tar` writes, without the fields that the kernel does not read. -/
def Member.header (e : Member) : List UInt8 :=
  (e.name ++ List.replicate (124 - e.name.length) 0) ++
    ((octal 11 e.size).map digitByte ++ 0 :: (List.replicate 20 0 ++
      e.kind.flag :: List.replicate 355 0))

/-- Members with their data, and the block at the end. -/
def ustar : List (Member × List UInt8) → List UInt8
  | [] => List.replicate 512 0
  | (e, data) :: xs =>
    e.header ++ (data ++ List.replicate (padded e.size - data.length) 0) ++ ustar xs

theorem Member.length_header (e : Member) : e.header.length = 512 := by
  have := e.length_le
  simp only [header, List.length_append, List.length_cons, List.length_map, List.length_replicate,
    length_octal]
  omega

theorem Member.isHeader (e : Member) (hsize : e.size < 8 ^ 11) (rest : List UInt8) :
    IsHeader (e.header ++ rest) e := by
  have hlen := e.length_le
  have hfront : (e.name ++ List.replicate (124 - e.name.length) 0).length = 124 := by
    rw [List.length_append, List.length_replicate]
    omega
  refine IsHeader.append ⟨?_, ?_, ?_, ?_⟩
  · refine ⟨e.nul_notMem, ?_⟩
    obtain ⟨k, hk⟩ : ∃ k, 124 - e.name.length = k + 1 := ⟨123 - e.name.length, by omega⟩
    rw [header, hk, List.replicate_succ, List.append_assoc, List.cons_append]
    exact ⟨_, rfl⟩
  · exact ⟨octal 11 e.size, 0, _, List.drop_left' hfront, length_octal _ _,
      fun d hd => octal_lt hd, by decide, ofDigits_octal hsize⟩
  · refine ⟨e.kind.flag, List.replicate 354 0, ?_, ?_⟩
    · have hdrop : typeflagField e.header = (e.header.drop 124).drop 32 := by
        rw [List.drop_drop]
        rfl
      rw [hdrop, header, List.drop_left' hfront, List.drop_append, List.length_map, length_octal,
        List.drop_of_length_le (by rw [List.length_map, length_octal]; norm_num), List.nil_append]
      rfl
    · cases e.kind <;> decide
  · rw [header, List.getElem?_append_right (by omega), hfront,
      List.getElem?_append_right (by rw [List.length_map, length_octal]; norm_num), List.length_map,
      length_octal]
    rfl

/-- What is written is an archive of its members. -/
theorem archive_ustar {xs : List (Member × List UInt8)}
    (h : ∀ x ∈ xs, x.1.size < 8 ^ 11 ∧ x.2.length = x.1.size) :
    Archive (ustar xs) (xs.map Prod.fst) := by
  induction xs with
  | nil => exact ⟨[], (List.append_nil _).symm⟩
  | cons x xs ih =>
    obtain ⟨e, data⟩ := x
    have hsize : e.size < 8 ^ 11 := (h _ List.mem_cons_self).1
    have hdata : data.length = e.size := (h _ List.mem_cons_self).2
    have hpad : data.length ≤ padded e.size := by
      unfold padded
      omega
    rw [ustar, List.map_cons]
    refine ⟨?_, ?_⟩
    · rw [List.append_assoc]
      exact e.isHeader hsize _
    · have hlen : (e.header ++ (data ++ List.replicate (padded e.size - data.length) 0)).length =
          512 + padded e.size := by
        rw [List.length_append, List.length_append, e.length_header, List.length_replicate]
        omega
      show Archive (List.drop (512 + padded e.size) _) _
      rw [List.drop_left' hlen]
      exact ih fun y hy => h y (by simp [hy])

end

/-- The directory `bin/`. -/
def binDirectory : Member :=
  ⟨[98, 105, 110, 47], 0, .directory, by decide, by decide, by decide⟩

/-- The file `bin/ls` of three bytes. -/
def lsFile : Member :=
  ⟨[98, 105, 110, 47, 108, 115], 3, .file, by decide, by decide, by decide⟩

/-- The file `a`, with a size in its header. -/
def fileA (size : Nat) : Member :=
  ⟨[97], size, .file, by decide, by decide, by decide⟩

theorem placed_ls : ∀ pre e post, [binDirectory, lsFile] = pre ++ e :: post → Placed pre e := by
  intro pre e post h
  rcases pre with _ | ⟨d, _ | ⟨d', pre⟩⟩
  · obtain ⟨rfl, -⟩ := List.cons.inj h
    exact .top (by decide) (by decide)
  · obtain ⟨rfl, htail⟩ := List.cons.inj h
    obtain ⟨rfl, -⟩ := List.cons.inj htail
    exact .inside binDirectory (by simp) (by decide) [108, 115] rfl (by decide)
  · simp at h

theorem exists_archive_ls : ∃ image, Archive image [binDirectory, lsFile] ∧
    image.length < 2 ^ 28 := by
  refine ⟨ustar [(binDirectory, []), (lsFile, [1, 2, 3])], archive_ustar (by decide), ?_⟩
  simp only [ustar, List.length_append, Member.length_header, List.length_replicate]
  decide

end Sbunix
