import Sbunix.Archive

/-!
# The walk of `getElfHeader`

`getElfHeader` steps from header to header on whatever bytes the archive has. `nextAddress` takes
the blocks of a file in `unsigned int`, so a size of `2 ^ 32 - 512` makes a step of zero, and adds
them to an address in the last 2 GiB, so a large size carries past the end of memory.

`lt_nextAddress_iff` says which steps advance. `header_walk_iff` says it for the walk: it advances
at each turn and ends if and only if no header that it leaves has such a size.
-/

namespace Sbunix

open Lib

/-- How far a turn of `getElfHeader` steps, before the sum is taken in 64 bits. -/
def blockStep (size : Nat) : Nat :=
  (size / 512 + 1) * 512 % 2 ^ 32 + if size % 512 ≠ 0 then 512 else 0

/-- `getElfHeader` finds a header of this size at the address, with another name, and goes on. -/
structure Leaves (t : Tarfs) (fileName : List UInt8) (address size : Nat) : Prop where
  lt_stop : address < t.stop
  header : ∃ header r, t.pointer (address - t.start) = .ok header ∧
    getSize (sizeField header) = .ok size ∧ strcmp header fileName = .ok r ∧ r ≠ 0

/-- The addresses at which a turn of `getElfHeader` starts. -/
inductive Visits (t : Tarfs) (fileName : List UInt8) : Nat → Prop
  | start : Visits t fileName t.start
  | next {address size : Nat} (h : Visits t fileName address)
      (hleaves : Leaves t fileName address size) : Visits t fileName (nextAddress address size)

/-- Each turn that does not return advances the address, and the loop comes to its end. -/
def AdvancesAndEnds (t : Tarfs) (fileName : List UInt8) : Prop :=
  (∀ address size, Visits t fileName address → Leaves t fileName address size →
    address < nextAddress address size) ∧ ∃ r, getElfHeader t fileName = .ok r

section

variable {t : Tarfs} {fileName s bytes : List UInt8} {address size : Nat}

/-! ## One step -/

theorem nextAddress_eq (address size : Nat) :
    nextAddress address size = (address + blockStep size) % 2 ^ 64 := by
  simp only [nextAddress, blockStep]
  split_ifs <;> omega

theorem blockStep_pos_iff (hsize : size < 2 ^ 32) : 0 < blockStep size ↔ size ≠ 2 ^ 32 - 512 := by
  unfold blockStep
  split_ifs <;> omega

/-- **When a step advances.** -/
theorem lt_nextAddress_iff (haddr : address < 2 ^ 64) (hsize : size < 2 ^ 32) :
    address < nextAddress address size ↔
      size ≠ 2 ^ 32 - 512 ∧ address + blockStep size < 2 ^ 64 := by
  have hstep : blockStep size < 2 ^ 64 := by
    unfold blockStep
    split_ifs <;> omega
  rw [nextAddress_eq, ← blockStep_pos_iff hsize]
  omega

/-! ## One turn -/

theorem getSizeLoop_ok {k count : Nat} (hk : k ≤ bytes.length) (hsize : size < 2 ^ 32) :
    ∃ v < 2 ^ 32, getSizeLoop bytes k size count = .ok v := by
  induction k generalizing size count with
  | zero => exact ⟨size, hsize, rfl⟩
  | succ k ih =>
    rw [getSizeLoop, List.getElem?_eq_getElem hk]
    exact ih (by omega) (Nat.mod_lt _ (by norm_num))

theorem getSize_ok (h : 11 ≤ bytes.length) : ∃ v < 2 ^ 32, getSize bytes = .ok v :=
  getSizeLoop_ok h (by norm_num)

/-- A comparison of any bytes with a string stays within the length of the string. -/
theorem strcmp_ok (hs : IsStr fileName s) (hlen : s.length < bytes.length) :
    ∃ r, strcmp bytes fileName = .ok r := by
  induction s generalizing bytes fileName with
  | nil =>
    obtain ⟨rest, rfl⟩ := isStr_nil_iff.1 hs
    obtain ⟨c, bytes, rfl⟩ := List.exists_cons_of_length_pos hlen
    exact ⟨_, by rw [strcmp, if_neg (by simp)]⟩
  | cons d s ih =>
    obtain ⟨-, fileName, rfl, hs'⟩ := isStr_cons_iff.1 hs
    obtain ⟨c, bytes, rfl⟩ := List.exists_cons_of_length_pos (Nat.zero_lt_of_lt hlen)
    rw [strcmp]
    split_ifs
    · exact ih hs' (Nat.lt_of_succ_lt_succ hlen)
    · exact ⟨_, rfl⟩

theorem Leaves.size_lt (h : Leaves t fileName address size) : size < 2 ^ 32 := by
  obtain ⟨header, r, -, hsize, -⟩ := h.header
  by_cases hlen : 11 ≤ (sizeField header).length
  · obtain ⟨v, hv, heq⟩ := getSize_ok hlen
    rw [heq, Except.ok.injEq] at hsize
    exact hsize ▸ hv
  · rw [getSize, getSizeLoop, List.getElem?_eq_none (by omega)] at hsize
    exact absurd hsize (by simp)

theorem getElfHeaderLoop_leaves (h : Leaves t fileName address size) (fuel : Nat) :
    getElfHeaderLoop t fileName (fuel + 1) address =
      getElfHeaderLoop t fileName fuel (nextAddress address size) := by
  obtain ⟨header, r, hpointer, hsize, hr, hne⟩ := h.header
  rw [getElfHeaderLoop, if_pos h.lt_stop, hpointer, ok_bind, hsize, ok_bind, hr, ok_bind,
    if_neg hne]

/-- A turn returns or leaves the header, when memory goes on behind the archive. -/
theorem turn_cases (hs : IsStr fileName s)
    (hmem : t.stop - t.start + (135 + s.length) ≤ t.mem.length) (hstart : t.start ≤ address)
    (hstop : address < t.stop) :
    (∀ fuel, ∃ r, getElfHeaderLoop t fileName (fuel + 1) address = .ok r) ∨
      ∃ size, Leaves t fileName address size := by
  have hpointer : t.pointer (address - t.start) = .ok (t.mem.drop (address - t.start)) := by
    rw [Tarfs.pointer, if_pos (by omega)]
    congr 2
    omega
  have hlen : 135 + s.length < (t.mem.drop (address - t.start)).length := by
    rw [List.length_drop]
    omega
  have hfield : 11 ≤ (sizeField (t.mem.drop (address - t.start))).length := by
    rw [sizeField, List.length_drop]
    omega
  obtain ⟨size, -, hsize⟩ := getSize_ok hfield
  obtain ⟨r, hr⟩ := strcmp_ok hs (show s.length < (t.mem.drop (address - t.start)).length by omega)
  by_cases hzero : r = 0
  · refine Or.inl fun fuel => ⟨(address + 512) % 2 ^ 64, ?_⟩
    rw [getElfHeaderLoop, if_pos hstop, hpointer, ok_bind, hsize, ok_bind, hr, ok_bind,
      if_pos hzero]
  · exact Or.inr ⟨size, hstop, _, r, hpointer, hsize, hr, hzero⟩

/-! ## The walk -/

/-- A walk whose turns all advance comes to its end. -/
theorem getElfHeaderLoop_ends (hs : IsStr fileName s)
    (hmem : t.stop - t.start + (135 + s.length) ≤ t.mem.length)
    (hadvance : ∀ address size, Visits t fileName address → Leaves t fileName address size →
      address < nextAddress address size) {fuel : Nat} (hvisits : Visits t fileName address)
    (hstart : t.start ≤ address) (hfuel : t.stop - address < fuel) :
    ∃ r, getElfHeaderLoop t fileName fuel address = .ok r := by
  induction fuel generalizing address with
  | zero => omega
  | succ fuel ih =>
    by_cases hstop : address < t.stop
    · rcases turn_cases hs hmem hstart hstop with hreturn | ⟨size, hleaves⟩
      · exact hreturn fuel
      · have hlt := hadvance address size hvisits hleaves
        rw [getElfHeaderLoop_leaves hleaves]
        exact ih (hvisits.next hleaves) (by omega) (by omega)
    · exact ⟨0, by rw [getElfHeaderLoop, if_neg hstop]⟩

/-- **When the walk of `getElfHeader` ends.** On any bytes it advances at each turn and comes to its
end if and only if no header that it leaves has a size of `2 ^ 32 - 512`, or one that carries the
address past `2 ^ 64`. -/
theorem header_walk_iff (hs : IsStr fileName s) (hend : t.stop < 2 ^ 64)
    (hmem : t.stop - t.start + (135 + s.length) ≤ t.mem.length) :
    AdvancesAndEnds t fileName ↔
      ∀ address size, Visits t fileName address → Leaves t fileName address size →
        size ≠ 2 ^ 32 - 512 ∧ address + blockStep size < 2 ^ 64 := by
  have hstep : ∀ address size, Leaves t fileName address size →
      (address < nextAddress address size ↔
        size ≠ 2 ^ 32 - 512 ∧ address + blockStep size < 2 ^ 64) :=
    fun address size h => lt_nextAddress_iff (h.lt_stop.trans hend) h.size_lt
  constructor
  · rintro ⟨hadvance, -⟩ address size hvisits hleaves
    exact (hstep address size hleaves).1 (hadvance address size hvisits hleaves)
  · intro hsizes
    have hadvance : ∀ address size, Visits t fileName address → Leaves t fileName address size →
        address < nextAddress address size :=
      fun address size hvisits hleaves =>
        (hstep address size hleaves).2 (hsizes address size hvisits hleaves)
    exact ⟨hadvance, getElfHeaderLoop_ends hs hmem hadvance .start le_rfl (Nat.lt_succ_self _)⟩

/-- A header of this size is read for ever. -/
theorem getElfHeaderLoop_stuck (haddr : address < 2 ^ 64)
    (h : Leaves t fileName address (2 ^ 32 - 512)) (fuel : Nat) :
    getElfHeaderLoop t fileName fuel address = .error .diverges := by
  have hstay : nextAddress address (2 ^ 32 - 512) = address := by
    rw [nextAddress_eq, show blockStep (2 ^ 32 - 512) = 0 from rfl]
    exact Nat.mod_eq_of_lt haddr
  induction fuel with
  | zero => rfl
  | succ fuel ih => rw [getElfHeaderLoop_leaves h, hstay, ih]

/-- The walk leaves a header that `tar` writes when it is of another name. -/
theorem leaves_header_iff {e : Member} {after : List UInt8}
    (hpointer : t.pointer (address - t.start) = .ok (e.header ++ after)) (hsize : e.size < 2 ^ 32)
    (hs : IsStr fileName s) :
    Leaves t fileName address size ↔ address < t.stop ∧ e.size = size ∧ e.name ≠ s := by
  have hheader := e.isHeader (hsize.trans (by norm_num)) after
  obtain ⟨ds, c, rest, hfield, hlen, hds, -, hvalue⟩ := hheader.size
  obtain ⟨r, hr, hiff⟩ := strcmp_spec hheader.name hs
  have hget : getSize (sizeField (e.header ++ after)) = .ok e.size := by
    rw [hfield, getSize_spec hds hlen (hvalue ▸ hsize), hvalue]
  constructor
  · rintro ⟨hstop, header, r', hpointer', hget', hr', hne⟩
    obtain rfl := Except.ok.inj (hpointer.symm.trans hpointer')
    obtain rfl := Except.ok.inj (hr.symm.trans hr')
    exact ⟨hstop, Except.ok.inj (hget.symm.trans hget'), fun hname => hne (hiff.2 hname)⟩
  · rintro ⟨hstop, rfl, hne⟩
    exact ⟨hstop, _, r, hpointer, hget, hr, fun hzero => hne (hiff.1 hzero)⟩

end

/-- An archive with the file `a`, of three bytes, and `bin/ls` behind it. -/
def twoFiles : Tarfs where
  start := 0xffffffff80300000
  stop := 0xffffffff80300000 + 2048
  mem := ustar [(fileA 3, [1, 2, 3]), (lsFile, [4, 5, 6])]

theorem drop_twoFiles :
    twoFiles.mem.drop 1024 = lsFile.header ++ ([4, 5, 6] ++ List.replicate 509 0 ++ ustar []) := by
  have hlen : ((fileA 3).header ++ ([1, 2, 3] ++ List.replicate 509 0)).length = 1024 := by
    rw [List.length_append, Member.length_header, List.length_append, List.length_replicate]
    rfl
  exact (List.drop_left' hlen).trans (List.append_assoc _ _ _)

/-- `bin/ls` is found behind the first header. -/
theorem header_walk_second : AdvancesAndEnds twoFiles (lsFile.name ++ [0]) := by
  have hs : IsStr (lsFile.name ++ [0]) lsFile.name := ⟨lsFile.nul_notMem, [], rfl⟩
  refine (header_walk_iff hs (by decide) ?_).2 ?_
  · have hlen := congrArg List.length drop_twoFiles
    rw [List.length_drop, List.length_append, Member.length_header, List.length_append,
      List.length_append, List.length_replicate, ustar, List.length_replicate] at hlen
    have hname : lsFile.name.length = 6 := rfl
    have hstop : twoFiles.stop - twoFiles.start = 2048 := rfl
    have hdata : [4, 5, 6].length = 3 := rfl
    omega
  have hheader : twoFiles.pointer ((0xffffffff80300000 : Nat) - twoFiles.start) =
      .ok ((fileA 3).header ++ ([1, 2, 3] ++ List.replicate 509 0 ++
        ustar [(lsFile, [4, 5, 6])])) :=
    congrArg Except.ok (List.append_assoc _ _ _)
  have hfirst : ∀ {size}, Leaves twoFiles (lsFile.name ++ [0]) 0xffffffff80300000 size ↔ _ :=
    leaves_header_iff hheader (by decide) hs
  have hsecond : ∀ {size}, ¬ Leaves twoFiles (lsFile.name ++ [0]) 0xffffffff80300400 size := by
    intro size hleaves
    have hpointer : twoFiles.pointer ((0xffffffff80300400 : Nat) - twoFiles.start) =
        .ok (twoFiles.mem.drop 1024) := rfl
    rw [drop_twoFiles] at hpointer
    exact ((leaves_header_iff hpointer (by decide) hs).1 hleaves).2.2 rfl
  have hvisits : ∀ {address}, Visits twoFiles (lsFile.name ++ [0]) address →
      address = 0xffffffff80300000 ∨ address = 0xffffffff80300400 := by
    intro address hvisits
    induction hvisits with
    | start => exact Or.inl rfl
    | next hvisits hleaves ih =>
      rcases ih with rfl | rfl
      · obtain ⟨-, rfl, -⟩ := hfirst.1 hleaves
        exact Or.inr rfl
      · exact absurd hleaves hsecond
  intro address size haddr hleaves
  rcases hvisits haddr with rfl | rfl
  · obtain ⟨-, rfl, -⟩ := hfirst.1 hleaves
    decide
  · exact absurd hleaves hsecond

/-- An archive with one file, in the memory of the kernel. -/
def oneFile (e : Member) : Tarfs :=
  ⟨0xffffffff80300000, 0xffffffff80300000 + 1024, e.header ++ List.replicate 1024 0⟩

/-- A file of 4294966784 bytes in front of the one that is looked for stops `getElfHeader` for
ever. -/
theorem header_walk_stuck : ¬ AdvancesAndEnds (oneFile (fileA 4294966784)) [98, 0] := by
  rintro ⟨-, r, hr⟩
  have hs : IsStr [98, 0] [98] := ⟨by decide, [], rfl⟩
  have hleaves : Leaves (oneFile (fileA 4294966784)) [98, 0] 0xffffffff80300000 (2 ^ 32 - 512) :=
    (leaves_header_iff (e := fileA 4294966784) rfl (by decide) hs).2
      ⟨by decide, rfl, by decide⟩
  rw [getElfHeader, show (oneFile (fileA 4294966784)).start = 0xffffffff80300000 from rfl,
    getElfHeaderLoop_stuck (by norm_num) hleaves] at hr
  exact absurd hr (by simp)

end Sbunix
