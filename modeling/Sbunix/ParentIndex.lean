import Sbunix.Archive
import Sbunix.SizeFields
import Mathlib.Data.List.DropRight

/-!
# The parent of an entry

`get_per_ind` and `get_per_ind_file` look for the last `'/'` of a name, cut the name behind it and
search the table for the rest. The test that ends the search stands behind the decrement, so a name
of one character is left at its front end.

`placed_iff` says for which members the search stays in the name and in the table: `Placed`, which
is the condition of a well-formed archive. `parent_index_iff` puts the turns of `tarfs_init`
together.
-/

namespace Sbunix

open Lib

/-! ## Parents -/

/-- The name of the directory that a member is in: what is in front of the last `'/'` of its base,
with the `'/'`. It is empty at the top level. -/
def Member.parentName (e : Member) : List UInt8 := e.base.rdropWhile (· ≠ slash)

/-- The parent of each member comes before it. -/
def ParentsFirst (es : List Member) : Prop :=
  ∀ pre e post, es = pre ++ e :: post → e.parentName ≠ [] →
    ∃ d ∈ pre, d.kind = .directory ∧ d.name = e.parentName

/-- The index of the parent, and 999 at the top level. -/
def parentIndex (es : List Member) (e : Member) : Int :=
  if e.parentName = [] then 999 else (es.map Member.name).idxOf e.parentName

/-- The entry has the name of the member and the index of its parent. -/
structure Filed (es : List Member) (f : TarfsEntry) (e : Member) : Prop where
  name : IsStr f.name e.name
  parInd : f.parInd = parentIndex es e

/-- `tarfs_init` comes to its end, without an access outside of an object, and files each member
with the index of its parent. -/
def ParentsIndexed (junk : List UInt8) (tarfsE : TarfsEntry) (t : Tarfs) (es : List Member) :
    Prop :=
  ∃ fs, tarfsInit junk tarfsE t = .ok (fs, es.length) ∧
    List.Forall₂ (Filed es) (fs.take es.length) es

/-- The decimal reading of the octal digits of a size. -/
def decimalReading (size : Nat) : Nat := Nat.ofDigits 10 (Nat.digits 8 size)

/-- The size is one that `octalToDecimal` gets right. -/
def SizeRead (size : Nat) : Prop := octalToDecimal (decimalReading size) = size

section

variable {e d : Member} {es pre : List Member} {name rest bytes : List UInt8}

theorem rdropWhile_slash {parent : List UInt8} (hparent : parent.getLast? = some slash)
    (hrest : slash ∉ rest) : (parent ++ rest).rdropWhile (· ≠ slash) = parent := by
  induction rest using List.reverseRecOn with
  | nil =>
    rw [List.append_nil, List.rdropWhile_eq_self_iff]
    intro hne
    have hlast : parent.getLast hne = slash := by
      rw [List.getLast?_eq_some_getLast hne] at hparent
      exact Option.some.inj hparent
    simp [hlast]
  | append_singleton rest c ih =>
    rw [List.mem_append, not_or, List.mem_singleton] at hrest
    rw [← List.append_assoc, List.rdropWhile_concat_pos _ _ _ (by simpa using Ne.symm hrest.2)]
    exact ih hrest.1

theorem parentName_eq_nil_iff : e.parentName = [] ↔ slash ∉ e.base := by
  rw [Member.parentName, List.rdropWhile_eq_nil_iff]
  constructor
  · intro h hmem
    simpa using h slash hmem
  · intro h c hc
    simpa using fun heq : c = slash => h (heq ▸ hc)

/-- A member that has a parent is named by it and by the rest of the name. -/
theorem parentName_spec (h : e.parentName ≠ []) :
    e.parentName.getLast? = some slash ∧ ∃ rest, e.base = e.parentName ++ rest ∧ slash ∉ rest := by
  constructor
  · have hlast := List.rdropWhile_last_not _ _ h
    rw [List.getLast?_eq_some_getLast h]
    simpa [Member.parentName] using hlast
  · refine ⟨e.base.rtakeWhile (· ≠ slash), List.rdropWhile_append_rtakeWhile.symm, fun hmem => ?_⟩
    simpa using List.mem_rtakeWhile_imp hmem

theorem parentName_of_base (hlast : d.name.getLast? = some slash) (hbase : e.base = d.name ++ rest)
    (hrest : slash ∉ rest) : e.parentName = d.name := by
  rw [Member.parentName, hbase]
  exact rdropWhile_slash hlast hrest

/-- Behind its parent a member is placed as soon as a name at the top level has two characters. -/
theorem placed_iff (hfirst : e.parentName ≠ [] →
    ∃ d ∈ pre, d.kind = .directory ∧ d.name = e.parentName) :
    Placed pre e ↔ (e.parentName = [] → 2 ≤ e.base.length) := by
  constructor
  · intro hplaced htop
    rcases hplaced with ⟨-, hlen⟩ | ⟨d, -, hlast, rest, hbase, hrest⟩
    · exact hlen
    · have hname := parentName_of_base hlast hbase hrest
      exact absurd (hname.symm.trans htop) d.name_ne
  · intro htwo
    by_cases htop : e.parentName = []
    · refine .top (fun hmem => ?_) (htwo htop)
      exact parentName_eq_nil_iff.1 htop (List.mem_of_mem_tail hmem)
    · obtain ⟨d, hd, -, hname⟩ := hfirst htop
      obtain ⟨hlast, rest, hbase, hrest⟩ := parentName_spec htop
      rw [← hname] at hlast hbase
      exact .inside d hd hlast rest hbase hrest

theorem Placed.base_ne (h : Placed pre e) : e.base ≠ [] := by
  rcases h with ⟨-, hlen⟩ | ⟨d, -, -, rest, hbase, -⟩
  · intro hnil
    rw [hnil] at hlen
    simp at hlen
  · rw [hbase]
    exact fun hnil => d.name_ne (List.append_eq_nil_iff.1 hnil).1

theorem base_ne_of_placed (h : ∀ pre e post, es = pre ++ e :: post → Placed pre e) (hd : d ∈ es) :
    d.base ≠ [] := by
  obtain ⟨pre, post, rfl⟩ := List.append_of_mem hd
  exact (h pre d post rfl).base_ne

theorem two_le_of_directory (hdir : d.kind = .directory) (hbase : d.base ≠ []) :
    2 ≤ d.name.length := by
  obtain ⟨tl, hname, htl⟩ := d.exists_tail
  have hpos := List.length_pos_iff.2 hbase
  have hlen := congrArg List.length hname
  rw [hdir, Kind.back] at htl
  rw [List.length_append] at hlen
  omega

/-- The search gets the index of the parent. -/
theorem perInd_parentIndex {junk dir : List UInt8} {filled : List TarfsEntry}
    (after : List TarfsEntry) {post : List Member} (hdir : IsStr dir e.name)
    (hjunk : junk.length = 100)
    (hindex : List.Forall₂ (fun f (d : Member) => IsStr f.name d.name) filled pre)
    (hfirst : e.parentName ≠ [] → ∃ d ∈ pre, d.kind = .directory ∧ d.name = e.parentName)
    (hplaced : Placed pre e) (hearlier : ∀ d ∈ pre, d.base ≠ []) :
    perInd e.kind.back junk dir (filled ++ after) = .ok (parentIndex (pre ++ e :: post) e) := by
  obtain ⟨tl, htl, hback⟩ := e.exists_tail
  have hlen := e.length_le
  by_cases htop : e.parentName = []
  · rw [htl] at hdir hlen
    have hslash := parentName_eq_nil_iff.1 htop
    rw [parentIndex, if_pos htop]
    exact perInd_top hdir hback (by omega) (fun hmem => hslash (List.mem_of_mem_tail hmem))
      ((placed_iff hfirst).1 hplaced htop) _
  · obtain ⟨d, hd, hkind, hname⟩ := hfirst htop
    obtain ⟨hlast, rest, hbase, hrest⟩ := parentName_spec htop
    have htwo := two_le_of_directory hkind (hearlier d hd)
    have hmem : e.parentName ∈ pre.map Member.name := hname ▸ List.mem_map_of_mem hd
    rw [htl, hbase] at hdir hlen
    rw [parentIndex, if_neg htop, List.map_append, List.idxOf_append_of_mem hmem]
    exact perInd_inside hdir hback (by omega) hlast (Or.inl (hname ▸ htwo)) hrest
      (List.forall₂_map_right_iff.2 hindex) hmem

/-- A search that comes to its end is that of a member that has been placed. -/
theorem placed_of_perInd {junk dir : List UInt8} {filled : List TarfsEntry} {k : Nat} {p : Int}
    (hdir : IsStr dir e.name) (hjunk : junk.length = 100)
    (hindex : List.Forall₂ (fun f (d : Member) => IsStr f.name d.name) filled pre)
    (h : perInd e.kind.back junk dir (filled ++ List.replicate k .zero) = .ok p) :
    Placed pre e := by
  obtain ⟨tl, htl, hback⟩ := e.exists_tail
  have hlen := e.length_le
  by_cases hnil : e.base = []
  · rw [hnil, List.nil_append] at htl
    rw [perInd, strlen_spec hdir, ok_bind] at h
    obtain ⟨name, -, h⟩ := bind_eq_ok.1 h
    rw [if_pos (by rw [htl]; omega)] at h
    cases h
  rw [htl] at hdir hlen
  obtain ⟨name, hname, heq⟩ := perInd_eq hdir hback
    (show (e.base ++ tl).length < junk.length by omega) hnil (filled ++ List.replicate k .zero)
  have hpos := List.length_pos_iff.2 hnil
  rw [heq] at h
  obtain ⟨found, hloop, h⟩ := bind_eq_ok.1 h
  cases found with
  | none =>
    obtain ⟨hle, hnone⟩ := slashLoop_eq_none_iff.1 hloop
    refine .top (fun hmem => ?_) (by omega)
    obtain ⟨j, hj⟩ := List.mem_iff_getElem?.1 hmem
    rw [List.getElem?_tail] at hj
    have hjlen := (List.getElem?_eq_some_iff.1 hj).1
    apply hnone (j + 1) (by omega) (by omega)
    rw [getElem?_base hname (by omega), hj]
  | some m =>
    obtain ⟨hle, hat, hbehind, -⟩ := slashLoop_eq_some_iff.1 hloop
    obtain ⟨i, hi, -⟩ := bind_eq_ok.1 h
    have hcut : IsStr (name.set (m + 1) 0) (e.base.take (m + 1)) := by
      have := hname.set_zero (i := m + 1) (by rw [List.length_append]; omega)
      rwa [List.take_append_of_le_length (by omega)] at this
    have htake : (e.base.take (m + 1)).length = m + 1 := List.length_take_of_le (by omega)
    have hne : e.base.take (m + 1) ≠ [] := List.ne_nil_of_length_pos (by omega)
    have hmem := mem_of_nameLoop hcut hne (List.forall₂_map_right_iff.2 hindex) hi
    obtain ⟨d, hd, hdname⟩ := List.mem_map.1 hmem
    refine .inside d hd ?_ (e.base.drop (m + 1)) ?_ fun hslash => ?_
    · rw [hdname, List.getLast?_eq_getElem?, htake, Nat.add_sub_cancel,
        List.getElem?_take_of_lt (by omega), ← getElem?_base hname (by omega), hat]
    · rw [hdname, List.take_append_drop]
    · obtain ⟨j, hj⟩ := List.mem_iff_getElem?.1 hslash
      rw [List.getElem?_drop] at hj
      have hjlen := (List.getElem?_eq_some_iff.1 hj).1
      apply hbehind (m + 1 + j) (by omega) (by omega)
      rw [getElem?_base hname hjlen, hj]

end

/-! ## Names that fill their field -/

/-- A member of an archive, with a name of up to the whole field. -/
structure UstarMember where
  name : List UInt8
  size : Nat
  kind : Kind
  name_ne : name ≠ []
  nul_notMem : 0 ∉ name
  length_le : name.length ≤ 100

/-- A member whose name leaves room for the NUL. -/
def Member.ustar (e : Member) : UstarMember :=
  ⟨e.name, e.size, e.kind, e.name_ne, e.nul_notMem, Nat.le_succ_of_le e.length_le⟩

/-- The bytes start with the header of the member. A NUL stands behind a name that leaves room
for it. -/
structure IsUstarHeader (bytes : List UInt8) (e : UstarMember) : Prop where
  name : e.name <+: bytes
  terminated : e.name.length < 100 → IsStr bytes e.name
  size : ∃ (ds : List Nat) (c : UInt8) (rest : List UInt8),
    sizeField bytes = ds.map digitByte ++ c :: rest ∧ ds.length = 11 ∧
    (∀ d ∈ ds, d < 8) ∧ NoDigit c ∧ Nat.ofDigits 8 ds.reverse = e.size
  typeflag : ∃ c rest, typeflagField bytes = c :: 0 :: rest ∧ c ∈ e.kind.bytes
  emptyPrefix : bytes[345]? = some 0

/-- The bytes are an archive of these members. -/
def UstarArchive : List UInt8 → List UstarMember → Prop
  | bytes, [] => ∃ rest, bytes = List.replicate 512 0 ++ rest
  | bytes, e :: es => IsUstarHeader bytes e ∧ UstarArchive (bytes.drop (512 + padded e.size)) es

/-- The length of the members in the archive. -/
def ustarLength : List UstarMember → Nat
  | [] => 0
  | e :: es => 512 + padded e.size + ustarLength es

section

variable {e : Member} {u : UstarMember} {es pre : List Member} {us : List UstarMember}
  {bytes junk : List UInt8} {t : Tarfs} {tarfsE : TarfsEntry} {filled : List TarfsEntry}

theorem isUstarHeader_ustar : IsUstarHeader bytes e.ustar ↔ IsHeader bytes e := by
  constructor
  · intro h
    exact ⟨h.terminated (Nat.lt_succ_of_le e.length_le), h.size, h.typeflag, h.emptyPrefix⟩
  · intro h
    obtain ⟨-, rest, hrest⟩ := h.name
    exact ⟨⟨0 :: rest, hrest.symm⟩, fun _ => h.name, h.size, h.typeflag, h.emptyPrefix⟩

theorem ustarArchive_map : UstarArchive bytes (es.map Member.ustar) ↔ Archive bytes es := by
  induction es generalizing bytes with
  | nil => exact Iff.rfl
  | cons e es ih => exact and_congr isUstarHeader_ustar ih

theorem ustarLength_map (es : List Member) :
    ustarLength (es.map Member.ustar) = archiveLength es := by
  induction es with
  | nil => rfl
  | cons e es ih => rw [List.map_cons, ustarLength, ih, archiveLength]; rfl

theorem ofDigits_digits {l : List Nat} (hl : ∀ d ∈ l, d < 8) :
    decimalReading (Nat.ofDigits 8 l) = Nat.ofDigits 10 l := by
  induction l with
  | nil => rfl
  | cons d l ih =>
    have hd : d < 8 := hl d (by simp)
    have hrest := ih fun d hd => hl d (by simp [hd])
    rw [decimalReading, Nat.ofDigits_cons, Nat.ofDigits_cons, ← hrest]
    by_cases hzero : d = 0 ∧ Nat.ofDigits 8 l = 0
    · rw [hzero.1, hzero.2]
      rfl
    · rw [Nat.digits_add 8 (by norm_num) d _ hd (by omega), Nat.ofDigits_cons]
      rfl

/-- The sizes below 256 MiB are right. -/
theorem sizeRead_of_lt {size : Nat} (h : size < 2 ^ 28) : SizeRead size := by
  have hds : ∀ d ∈ (octal 11 size).reverse, d < 8 :=
    fun d hd => octal_lt (List.mem_reverse.1 hd)
  have hlen : (octal 11 size).reverse.length = 11 := by rw [List.length_reverse, length_octal]
  have hlt : size < 8 ^ 11 := h.trans (by norm_num)
  have hvalue := ofDigits_octal hlt
  generalize (octal 11 size).reverse = l at hds hlen hvalue
  have hten := ofDigits_ten_lt hds hlen (hvalue.symm ▸ h)
  rw [SizeRead, ← hvalue, ofDigits_digits hds]
  exact (octalToDecimal_iff hds hlen).2 (Or.inl hten)

/-- A size that is right is what `tarfs_init` gets. -/
theorem octalToDecimal_of_sizeRead {field : List UInt8} {size : Nat} (hsize : SizeRead size)
    (h : ∃ (ds : List Nat) (c : UInt8) (rest : List UInt8),
      field = ds.map digitByte ++ c :: rest ∧ ds.length = 11 ∧ (∀ d ∈ ds, d < 8) ∧ NoDigit c ∧
        Nat.ofDigits 8 ds.reverse = size) :
    ∃ n, stoi field = .ok n ∧ octalToDecimal n = size := by
  obtain ⟨ds, c, rest, rfl, hlen, hds, hc, rfl⟩ := h
  have hten : Nat.ofDigits 10 ds.reverse < 10 ^ ds.reverse.length :=
    Nat.ofDigits_lt_base_pow_length (by norm_num)
      fun d hd => (hds d (List.mem_reverse.1 hd)).trans (by norm_num)
  rw [List.length_reverse, hlen] at hten
  refine ⟨Nat.ofDigits 10 ds.reverse, ?_, ?_⟩
  · rw [stoi, stoiLoop_spec (fun d hd => (hds d hd).trans (by norm_num)) hc (by omega)]
    simp
  · rw [← ofDigits_digits fun d hd => hds d (List.mem_reverse.1 hd)]
    exact hsize

/-- An entry that has been read has a name that leaves room for the NUL, and its parent has been
found. -/
theorem readEntry_inv {temp : Int} {fs : List TarfsEntry} {size : Nat} {f : TarfsEntry}
    (hheader : IsUstarHeader bytes u) (hsize : SizeRead u.size) (htarfsE : tarfsE.name.length = 100)
    (h : readEntry junk t bytes temp tarfsE fs = .ok (size, f)) :
    ∃ e : Member, e.ustar = u ∧ size = u.size ∧ IsStr f.name e.name ∧ f.name.length = 100 ∧
      ∃ p, perInd e.kind.back junk f.name fs = .ok p := by
  obtain ⟨n, hstoi, hvalue⟩ := octalToDecimal_of_sizeRead hsize hheader.size
  obtain ⟨flag, restFlag, hflag, hkind⟩ := hheader.typeflag
  obtain ⟨k, hk, htype⟩ := stoi_typeflag restFlag hkind
  rw [readEntry, hstoi, ok_bind] at h
  obtain ⟨name, hcopy, h⟩ := bind_eq_ok.1 h
  rw [hflag, hk, ok_bind] at h
  obtain ⟨p, hp, h⟩ := bind_eq_ok.1 h
  obtain ⟨rfl, rfl⟩ := Prod.mk.inj (Except.ok.inj h)
  have hlength : name.length = 100 := (sstrcpy_length hcopy).trans htarfsE
  obtain ⟨s, hsrc, hdst⟩ := sstrcpy_ok hcopy
  have hs : s.length < 100 := hlength ▸ hdst.length_lt
  have hroom : u.name.length ≤ 99 := by
    by_contra hfull
    have hlen := u.length_le
    obtain ⟨-, rest, hrest⟩ := hsrc
    have hat : bytes[s.length]? = some 0 := by simp [hrest]
    obtain ⟨rest', hrest'⟩ := hheader.name
    rw [← hrest', List.getElem?_append_left (by omega)] at hat
    exact u.nul_notMem (List.mem_of_getElem? hat)
  obtain rfl : s = u.name := hsrc.unique (hheader.terminated (by omega))
  refine ⟨⟨u.name, u.size, u.kind, u.name_ne, u.nul_notMem, hroom⟩, rfl, hvalue, hdst,
    hlength, p, ?_⟩
  rw [htype] at hp
  exact (parIndFor_typeflag u.kind junk name fs _).symm.trans hp

/-- **When `tarfs_init` comes to its end.** A run over an archive has at most 100 turns, each name
leaves room for the NUL, and each member has been placed. -/
theorem tarfsInitLoop_inv {fuel k n : Nat} {temp : Nat} {fs : List TarfsEntry}
    (harch : UstarArchive (t.mem.drop temp) us) (hsizes : ∀ u ∈ us, SizeRead u.size)
    (hlen : temp + ustarLength us < 2 ^ 31) (hjunk : junk.length = 100)
    (htarfsE : tarfsE.name.length = 100) (hk : pre.length + k = 100)
    (hindex : List.Forall₂ (fun f (d : Member) => IsStr f.name d.name) filled pre)
    (h : tarfsInitLoop junk t fuel temp pre.length tarfsE (filled ++ List.replicate k .zero) =
      .ok (fs, n)) :
    ∃ ms : List Member, us = ms.map Member.ustar ∧ ms.length ≤ k ∧
      ∀ pre' e post, ms = pre' ++ e :: post → Placed (pre ++ pre') e := by
  induction us generalizing fuel temp tarfsE filled pre k with
  | nil => exact ⟨[], rfl, Nat.zero_le _, fun pre' e post hsplit => by simp at hsplit⟩
  | cons u us ih =>
    obtain ⟨hheader, hrest⟩ := harch
    cases fuel with
    | zero => cases h
    | succ fuel =>
      rw [tarfsInitLoop, Tarfs.pointer, if_pos (by omega), ok_bind, Int.toNat_natCast] at h
      obtain ⟨len, hstrlen, h⟩ := bind_eq_ok.1 h
      have hne : ¬ len = 0 := by
        obtain ⟨rest, hrest⟩ := hheader.name
        obtain ⟨c, s, hcs⟩ := List.exists_cons_of_ne_nil u.name_ne
        have hc : c ≠ 0 := fun hzero => u.nul_notMem (by simp [hcs, hzero])
        rw [← hrest, hcs, List.cons_append, strlen, if_pos hc] at hstrlen
        obtain ⟨n, -, rfl⟩ := map_eq_ok.1 hstrlen
        exact Nat.succ_ne_zero n
      rw [if_neg hne] at h
      obtain ⟨⟨size, f⟩, hread, h⟩ := bind_eq_ok.1 h
      obtain ⟨e, rfl, rfl, hname, hfname, p, hp⟩ :=
        readEntry_inv hheader (hsizes _ List.mem_cons_self) htarfsE hread
      have hfilled := hindex.length_eq
      have hplaced := placed_of_perInd hname hjunk hindex hp
      rw [ustarLength] at hlen
      by_cases hroom : pre.length < (filled ++ List.replicate k TarfsEntry.zero).length
      · rw [List.length_append, List.length_replicate] at hroom
        obtain ⟨k, rfl⟩ : ∃ n, k = n + 1 := ⟨k - 1, by omega⟩
        simp only at h
        rw [if_pos (by rw [List.length_append, List.length_replicate]; omega),
          nextTemp_spec (by omega), ← hfilled, set_replicate, hfilled,
          ← List.length_singleton (a := e), ← List.length_append] at h
        obtain ⟨ms, rfl, hms, hplaced'⟩ := ih (by rwa [← List.drop_drop])
          (fun u hu => hsizes u (List.mem_cons_of_mem _ hu)) (by omega) hfname
          (by rw [List.length_append, List.length_singleton]; omega)
          (List.rel_append hindex (.cons hname .nil)) h
        refine ⟨e :: ms, rfl, by rw [List.length_cons]; omega, fun pre' e' post hsplit => ?_⟩
        cases pre' with
        | nil =>
          obtain ⟨rfl, -⟩ := List.cons.inj hsplit
          rwa [List.append_nil]
        | cons d pre' =>
          obtain ⟨rfl, htail⟩ := List.cons.inj hsplit
          rw [List.append_cons]
          exact hplaced' pre' e' post htail
      · simp only at h
        rw [if_neg hroom] at h
        cases h

/-- A run of `tarfs_init` that comes to its end. -/
theorem tarfsInit_inv {fs : List TarfsEntry} {n : Nat} (harch : UstarArchive t.mem us)
    (hsizes : ∀ u ∈ us, SizeRead u.size) (hlen : ustarLength us < 2 ^ 31)
    (hjunk : junk.length = 100) (htarfsE : tarfsE.name.length = 100)
    (h : tarfsInit junk tarfsE t = .ok (fs, n)) :
    ∃ ms : List Member, us = ms.map Member.ustar ∧ ms.length ≤ 100 ∧
      ∀ pre e post, ms = pre ++ e :: post → Placed pre e := by
  have hdrop : UstarArchive (t.mem.drop 0) us := harch
  have hnil : List.Forall₂ (fun (f : TarfsEntry) (d : Member) => IsStr f.name d.name) [] [] := .nil
  have hempty : ([] : List Member).length + 100 = 100 := rfl
  exact tarfsInitLoop_inv hdrop hsizes (by omega) hjunk htarfsE hempty hnil h

theorem ustar_injective : Function.Injective Member.ustar := by
  intro e e' h
  obtain ⟨name, size, kind, _, _, _⟩ := e
  obtain ⟨name', size', kind', _, _, _⟩ := e'
  obtain ⟨rfl, rfl, rfl⟩ := UstarMember.mk.inj h
  rfl

/-- **The parent index.** When directories come before what is in them, `tarfs_init` files each
member with the index of its parent if and only if the archive has at most 100 members and no name
at the top level has a single character. -/
theorem parent_index_iff (harch : Archive t.mem es) (hparents : ParentsFirst es)
    (hsizes : ∀ e ∈ es, SizeRead e.size) (hlen : archiveLength es < 2 ^ 31)
    (haddr : t.start + archiveLength es ≤ 2 ^ 64) (hjunk : junk.length = 100)
    (htarfsE : tarfsE.name.length = 100) :
    ParentsIndexed junk tarfsE t es ↔
      es.length ≤ 100 ∧ ∀ e ∈ es, e.parentName = [] → 2 ≤ e.base.length := by
  constructor
  · rintro ⟨fs, hinit, -⟩
    have hsizes' : ∀ u ∈ es.map Member.ustar, SizeRead u.size := by
      intro u hu
      obtain ⟨e, he, rfl⟩ := List.mem_map.1 hu
      exact hsizes e he
    obtain ⟨ms, hms, hcount, hplaced⟩ := tarfsInit_inv (ustarArchive_map.2 harch) hsizes'
      (by rwa [ustarLength_map]) hjunk htarfsE hinit
    obtain rfl := ustar_injective.list_map hms
    refine ⟨hcount, fun e he => ?_⟩
    obtain ⟨pre, post, rfl⟩ := List.append_of_mem he
    exact (placed_iff (hparents pre e post rfl)).1 (hplaced pre e post rfl)
  · rintro ⟨hcount, htop⟩
    have hplaced : ∀ pre e post, es = pre ++ e :: post → Placed pre e := by
      rintro pre e post hsplit
      exact (placed_iff (hparents pre e post hsplit)).2 (htop e (by simp [hsplit]))
    obtain ⟨filled, hinit, hindex⟩ := tarfsInit_of_parents (P := fun e p => p = parentIndex es e)
      hcount harch hlen haddr htarfsE
      (fun e he bytes hheader => octalToDecimal_of_sizeRead (hsizes e he) hheader.size)
      (fun pre e post hall filled after name hnames hname => by
        exact ⟨_, perInd_parentIndex after hname hjunk hnames (hparents pre e post hall)
          (hplaced pre e post hall) fun d hd => base_ne_of_placed hplaced (by simp [hall, hd]),
          by rw [hall]⟩)
    have hfilled : filled.length = es.length := hindex.length_eq.trans (length_located _ _)
    refine ⟨_, hinit, ?_⟩
    rw [List.take_left' hfilled]
    have hmap := List.forall₂_map_right_iff.2 (hindex.imp fun f x h =>
      (⟨h.1.name, h.2⟩ : Filed es f x.1))
    rwa [map_fst_located] at hmap

end

/-- An archive from `0xffffffff80300000` on. -/
def tarfsOf (xs : List (Member × List UInt8)) : Tarfs :=
  ⟨0xffffffff80300000, 0xffffffff80300000 + (ustar xs).length, ustar xs⟩

theorem archive_tarfsOf {xs : List (Member × List UInt8)}
    (h : ∀ x ∈ xs, x.1.size < 8 ^ 11 ∧ x.2.length = x.1.size) :
    Archive (tarfsOf xs).mem (xs.map Prod.fst) := archive_ustar h

theorem parentsFirst_ls : ParentsFirst [binDirectory, lsFile] := by
  intro pre e post h hparent
  rcases pre with _ | ⟨d, _ | ⟨d', pre⟩⟩
  · obtain ⟨rfl, -⟩ := List.cons.inj h
    exact absurd (by decide) hparent
  · obtain ⟨rfl, htail⟩ := List.cons.inj h
    obtain ⟨rfl, -⟩ := List.cons.inj htail
    exact ⟨binDirectory, by simp, rfl, by decide⟩
  · simp at h

/-- `bin/ls` is filed with the index of `bin/`. -/
theorem parent_index_ls :
    ParentsIndexed (List.replicate 100 0) .zero
      (tarfsOf [(binDirectory, []), (lsFile, [1, 2, 3])]) [binDirectory, lsFile] := by
  have harch : Archive (tarfsOf [(binDirectory, []), (lsFile, [1, 2, 3])]).mem
      [binDirectory, lsFile] := archive_tarfsOf (by decide)
  refine (parent_index_iff harch parentsFirst_ls ?_ (by decide) (by decide) List.length_replicate
    List.length_replicate).2 ⟨by decide, by decide⟩
  intro e he
  rcases List.mem_pair.1 he with rfl | rfl
  · exact sizeRead_of_lt (by decide)
  · exact sizeRead_of_lt (by decide)

/-- The search for the parent of the file `a` leaves the name. -/
theorem parent_index_short :
    Archive (tarfsOf [(fileA 0, [])]).mem [fileA 0] ∧ ParentsFirst [fileA 0] ∧
      ¬ ParentsIndexed (List.replicate 100 0) .zero (tarfsOf [(fileA 0, [])]) [fileA 0] := by
  have harch : Archive (tarfsOf [(fileA 0, [])]).mem [fileA 0] := archive_tarfsOf (by decide)
  refine ⟨harch, ?_, ?_⟩
  · intro pre e post h hparent
    have he : e = fileA 0 := List.mem_singleton.1 (by rw [h]; simp)
    rw [he] at hparent
    exact absurd (by decide) hparent
  · rintro ⟨fs, hinit, -⟩
    have harch' : UstarArchive (tarfsOf [(fileA 0, [])]).mem ([fileA 0].map Member.ustar) :=
      ustarArchive_map.2 harch
    have hsizes : ∀ u ∈ [fileA 0].map Member.ustar, SizeRead u.size := by
      intro u hu
      rw [List.mem_singleton.1 hu]
      exact sizeRead_of_lt (by decide)
    obtain ⟨ms, hms, -, hplaced⟩ := tarfsInit_inv harch' hsizes (by decide)
      List.length_replicate List.length_replicate hinit
    obtain rfl : [fileA 0] = ms := ustar_injective.list_map hms
    rcases hplaced [] (fileA 0) [] rfl with ⟨-, htwo⟩ | ⟨d, hd, -⟩
    · exact absurd htwo (by decide)
    · exact absurd hd List.not_mem_nil

end Sbunix
