import Sbunix.Archive
import Sbunix.Keyboard
import Sbunix.Lib.Memory

/-!
# Reading

`sys_read` hands a request for the keyboard to `scanf`, and a request for a file to `readfile`. The
descriptor of a file is the address of its header in the archive: `openfile` returns it, `sys_open`
and `open` pass it on as an `int`, and `read` widens it again.

`readfile` copies and adds a NUL, and returns what is left of its counter. `readfile_spec` is the
copy, `file_read` follows a file from its name to the bytes in the caller's buffer. `read_contract`
says when a request stays in the buffer, and that the number of bytes is never returned.
-/

namespace Sbunix

open Lib

/-! ## Files -/

/-- An object of the caller. A store outside of it is a fault. -/
structure Buffer where
  addr : UInt64
  size : Nat

def Buffer.store (buf : Buffer) (m : Mem) (i : Nat) (v : UInt8) : Except Fault Mem :=
  if i < buf.size then .ok (write8 m (buf.addr.toNat + i) v) else .error .outOfBounds

/-- The loop of `readfile` from `i` on, for the turns that are left: `size`, `i` and the memory
behind it. The test that ends the loop counts `size` down once more. -/
def readfileLoop (buf : Buffer) (fileStartAddr : Nat) :
    Nat → Int → Nat → Mem → Except Fault (Int × Nat × Mem)
  | 0, size, i, m => .ok (size - 1, i, m)
  | n + 1, size, i, m => do
    let m ← buf.store m i (m (fileStartAddr + i))
    readfileLoop buf fileStartAddr n (size - 1) (i + 1) m

/-- The header is an object of 512 bytes. -/
def readfile (m : Mem) (fileAddr : UInt64) (size : Int) (buf : Buffer) :
    Except Fault (Int × Mem) := do
  let header := bytesAt m fileAddr.toNat 512
  let fileSize := Int.bmod (octalToDecimal (← stoi (sizeField header))) (2 ^ 32)
  let size := if fileSize < size then fileSize else size
  let (size, i, m) ← readfileLoop buf (fileAddr.toNat + 512) size.toNat size 0 m
  let m ← buf.store m i 0
  .ok (size, m)

/-! ## The system calls -/

/-- What `scanf` returns: `scanlen` behind the loop that clears `tempbuff`. -/
def scanfLen (st : Keyboard) (len : Int) (keys : List UInt8) : Except Fault Int := do
  let (st, _) ← waitFlag { st with flag := true } keys
  let scanlen := if len < st.scanlen then len else st.scanlen
  .ok (if 0 ≤ scanlen then -1 else scanlen)

/-- The memory, the keyboard and the keys to come. -/
structure ReadState where
  mem : Mem
  keyboard : Keyboard
  keys : List UInt8

def sysRead (par1 : UInt64) (par2 : Buffer) (par3 : UInt64) (s : ReadState) :
    Except Fault (Int × ReadState) :=
  let n := par3.toUInt32.toInt32.toInt
  if par1 = 0 then do
    let (keyboard, buff, keys) ← scanf s.keyboard (bytesAt s.mem par2.addr.toNat par2.size) n s.keys
    let len ← scanfLen s.keyboard n s.keys
    .ok (len, ⟨putBytes s.mem par2.addr.toNat buff, keyboard, keys⟩)
  else if par1 > 2 then do
    let (len, mem) ← readfile s.mem par1 n par2
    .ok (len, { s with mem := mem })
  else .ok (-1, s)

/-- `sys_open`, with `fno` an `int`. -/
def sysOpen (par1 : List UInt8) (fs : List TarfsEntry) : Except Fault Int32 :=
  (openfile par1 fs).map fun fno => (UInt64.ofNat fno).toUInt32.toInt32

/-! ## The library -/

/-- `open`: the `int` comes back as the `uint64_t` of the dispatcher. -/
def libcOpen (pathname : List UInt8) (fs : List TarfsEntry) : Except Fault Int32 :=
  (sysOpen pathname fs).map fun fno => fno.toInt64.toUInt64.toUInt32.toInt32

/-- `read`: the `int` is passed as a `uint64_t`. -/
def libcRead (fd : Int32) (buf : Buffer) (count : UInt64) (s : ReadState) :
    Except Fault (Int × ReadState) :=
  sysRead fd.toInt64.toUInt64 buf count s

/-! ## The copy -/

section

variable {m m' : Mem} {buf : Buffer} {src n i i' : Nat} {size size' : Int}

theorem Buffer.store_ok (hi : i < buf.size) (m : Mem) (v : UInt8) :
    buf.store m i v = .ok (write8 m (buf.addr.toNat + i) v) := if_pos hi

theorem Buffer.store_inv {v : UInt8} (h : buf.store m i v = .ok m') :
    i < buf.size ∧ m' = write8 m (buf.addr.toNat + i) v := by
  unfold Buffer.store at h
  split_ifs at h with hi
  exact ⟨hi, (Except.ok.inj h).symm⟩

/-- The counters behind the loop. -/
theorem readfileLoop_inv (h : readfileLoop buf src n size i m = .ok (size', i', m')) :
    size' = size - n - 1 ∧ i' = i + n := by
  induction n generalizing size i m with
  | zero =>
    rw [readfileLoop] at h
    cases h
    simp
  | succ n ih =>
    rw [readfileLoop] at h
    obtain ⟨m₁, -, hrest⟩ := bind_eq_ok.1 h
    obtain ⟨hsize, hi⟩ := ih hrest
    constructor
    · rw [hsize]
      push_cast
      ring
    · rw [hi]
      omega

/-- A loop that stays in the buffer stores the turns that are left, and nothing else. -/
theorem readfileLoop_spec (hroom : i + n ≤ buf.size) (size : Int) (m : Mem) :
    ∃ m', readfileLoop buf src n size i m = .ok (size - n - 1, i + n, m') ∧
      (buf.addr.toNat + i + n ≤ src + i ∨ src + i + n ≤ buf.addr.toNat + i →
        ∀ j < n, m' (buf.addr.toNat + i + j) = m (src + i + j)) ∧
      ∀ x, x < buf.addr.toNat + i ∨ buf.addr.toNat + i + n ≤ x → m' x = m x := by
  induction n generalizing size i m with
  | zero =>
    refine ⟨m, ?_, fun _ j hj => absurd hj (Nat.not_lt_zero j), fun x _ => rfl⟩
    rw [readfileLoop]
    simp
  | succ n ih =>
    set m₁ := write8 m (buf.addr.toNat + i) (m (src + i)) with hm₁
    obtain ⟨m', hloop, hcopy, hframe⟩ := @ih (i + 1) (by omega) (size - 1) m₁
    have hother : ∀ x, x ≠ buf.addr.toNat + i → m₁ x = m x := by
      intro x hx
      rw [hm₁, write8, Function.update_of_ne hx]
    refine ⟨m', ?_, ?_, ?_⟩
    · rw [readfileLoop, Buffer.store_ok (by omega), ok_bind, ← hm₁, hloop]
      congr 3
      · push_cast
        ring
      · omega
    · intro hapart j hj
      cases j with
      | zero =>
        rw [hframe _ (Or.inl (by omega)), Nat.add_zero, hm₁, write8, Function.update_self,
          Nat.add_zero]
      | succ j =>
        have hbyte := hcopy (by omega) j (by omega)
        rw [hother _ (by omega)] at hbyte
        rw [show buf.addr.toNat + i + (j + 1) = buf.addr.toNat + (i + 1) + j by omega, hbyte]
        congr 1
        omega
    · intro x hx
      rw [hframe x (by omega), hother x (by omega)]

end

/-! ## Descriptors -/

/-- An address of the kernel image passes through an `int`. -/
theorem toInt32_kernel {a : UInt64} (h : 0xffffffff80000000 ≤ a.toNat) :
    a.toUInt32.toInt32.toInt64.toUInt64 = a := by
  apply UInt64.toBitVec_inj.1
  apply BitVec.eq_of_toInt_eq
  have ha := a.toNat_lt
  have hlow : (a.toBitVec.setWidth 32).toInt = (a.toNat : Int) - 2 ^ 64 := by
    rw [BitVec.toInt_setWidth]
    change (a.toNat : Int).bmod (2 ^ 32) = _
    rw [Int.bmod_def]
    split_ifs
    · omega
    · omega
  have hwide : a.toBitVec.toInt = (a.toNat : Int) - 2 ^ 64 := by
    rw [BitVec.toInt_eq_toNat_cond]
    change (if 2 * a.toNat < 2 ^ 64 then (a.toNat : Int) else a.toNat - (2 ^ 64 : Nat)) = _
    rw [if_neg (by omega)]
    rfl
  change ((a.toBitVec.setWidth 32).signExtend 64).toInt = _
  rw [BitVec.toInt_signExtend_of_le (by norm_num), hlow, hwide]

/-- A `count` that fits into an `int`. -/
theorem toInt32_count {count : UInt64} (h : count < 2 ^ 31) :
    count.toUInt32.toInt32.toInt = count.toNat := by
  have hcount : count.toNat < 2 ^ 31 := UInt64.lt_iff_toNat_lt.1 h
  change (count.toBitVec.setWidth 32).toInt = _
  rw [BitVec.toInt_setWidth]
  change (count.toNat : Int).bmod (2 ^ 32) = _
  exact Int.bmod_eq_of_le (by omega) (by omega)

/-! ## Members in memory -/

/-- An archive of these members, linked into the kernel image. -/
structure Linked (m : Mem) (start : Nat) (image : List UInt8) (es : List Member) : Prop where
  archive : Archive image es
  mem : bytesAt m start image.length = image
  low : 0xffffffff80000000 ≤ start
  high : start + image.length ≤ 2 ^ 64

section

variable {m : Mem} {start : Nat} {image : List UInt8} {es : List Member} {x : Member × Nat}
  {buf : Buffer} {n : Int}

/-- The header of a member lies in the archive, and its data behind it. -/
theorem Archive.at_located (h : Archive image es) (hx : x ∈ located start es) :
    ∃ i, x.2 = start + i ∧ IsHeader (image.drop i) x.1 ∧
      i + (512 + padded x.1.size) ≤ image.length := by
  induction es generalizing image start with
  | nil => exact absurd hx List.not_mem_nil
  | cons e es ih =>
    have hlen := h.length_le
    obtain ⟨hheader, hrest⟩ := h
    rw [archiveLength] at hlen
    cases List.mem_cons.1 hx with
    | inl hx =>
      subst hx
      refine ⟨0, rfl, hheader, ?_⟩
      dsimp only
      omega
    | inr hx =>
      obtain ⟨i, haddr, hi, hlen'⟩ := ih hrest hx
      rw [List.length_drop] at hlen'
      rw [List.drop_drop] at hi
      exact ⟨512 + padded e.size + i, by omega, hi, by omega⟩

theorem size_le_padded (size : Nat) : size ≤ padded size := by
  unfold padded
  omega

/-- `readfile` decodes the size of the member. -/
theorem Linked.size (h : Linked m start image es) (hx : x ∈ located start es)
    (hsize : x.1.size < 2 ^ 28) :
    ∃ k, stoi (sizeField (bytesAt m x.2 512)) = .ok k ∧ octalToDecimal k = x.1.size := by
  obtain ⟨i, haddr, hheader, hlen⟩ := h.archive.at_located hx
  obtain ⟨ds, c, rest, hfield, hds, hlt, hc, hvalue⟩ := hheader.size
  have hbytes : sizeField (bytesAt m x.2 512) = ds.map digitByte ++ c :: rest.take 376 := by
    rw [haddr, bytesAt_drop h.mem (by omega), sizeField, List.drop_take]
    rw [sizeField] at hfield
    rw [hfield, List.take_append, List.length_map, hds,
      List.take_of_length_le (by rw [List.length_map, hds]; norm_num)]
    rfl
  rw [hbytes]
  rw [← hvalue] at hsize ⊢
  exact octalToDecimal_stoi _ hlt hds hc hsize

/-- The header address as a descriptor. -/
theorem Linked.toNat_addr (h : Linked m start image es) (hx : x ∈ located start es) :
    (UInt64.ofNat x.2).toNat = x.2 ∧ 0xffffffff80000000 ≤ x.2 := by
  obtain ⟨i, haddr, -, hlen⟩ := h.archive.at_located hx
  have hlow := h.low
  have hhigh := h.high
  exact ⟨toNat_ofNat_of_lt (by omega), by omega⟩

theorem Linked.two_lt (h : Linked m start image es) (hx : x ∈ located start es) :
    2 < UInt64.ofNat x.2 := by
  obtain ⟨haddr, hlow⟩ := h.toNat_addr hx
  rw [UInt64.lt_iff_toNat_lt, haddr]
  exact Nat.lt_of_lt_of_le (by decide) hlow

/-- The request cut to the size of the file. -/
theorem Linked.readfile_eq (h : Linked m start image es) (hx : x ∈ located start es)
    (hsize : x.1.size < 2 ^ 28) (hn : 0 ≤ n) :
    readfile m (UInt64.ofNat x.2) n buf = (do
      let (size, i, m) ← readfileLoop buf (x.2 + 512) (min n.toNat x.1.size)
        (min n.toNat x.1.size : Nat) 0 m
      let m ← buf.store m i 0
      .ok (size, m)) := by
  obtain ⟨k, hstoi, hdecimal⟩ := h.size hx hsize
  have hbmod : ((x.1.size : Nat) : Int).bmod (2 ^ 32) = x.1.size :=
    Int.bmod_eq_of_le (by omega) (by omega)
  have hmin : (if (x.1.size : Int) < n then (x.1.size : Int) else n) =
      (min n.toNat x.1.size : Nat) := by
    split_ifs
    · omega
    · omega
  unfold readfile
  dsimp only
  rw [(h.toNat_addr hx).1, hstoi, ok_bind, hdecimal, hbmod, hmin, Int.toNat_natCast]

/-- `readfile` fills the buffer with the data and a NUL. -/
theorem Linked.readfile_spec (h : Linked m start image es) (hx : x ∈ located start es)
    (hsize : x.1.size < 2 ^ 28) (hn : 0 ≤ n) (hroom : min n.toNat x.1.size < buf.size)
    (hapart : buf.addr.toNat + min n.toNat x.1.size < start ∨
      start + image.length ≤ buf.addr.toNat) :
    ∃ m', readfile m (UInt64.ofNat x.2) n buf = .ok (-1, m') ∧
      bytesAt m' buf.addr.toNat (min n.toNat x.1.size) =
        (image.drop (x.2 - start + 512)).take (min n.toNat x.1.size) ∧
      m' (buf.addr.toNat + min n.toNat x.1.size) = 0 ∧
      ∀ y, y < buf.addr.toNat ∨ buf.addr.toNat + min n.toNat x.1.size < y → m' y = m y := by
  obtain ⟨i, haddr, -, hlen⟩ := h.archive.at_located hx
  have hpadded := size_le_padded x.1.size
  rw [h.readfile_eq hx hsize hn]
  generalize hk : min n.toNat x.1.size = k at hroom hapart ⊢
  obtain ⟨m₁, hloop, hcopy, hframe⟩ := @readfileLoop_spec buf (x.2 + 512) k 0 (by omega) k m
  rw [hloop, ok_bind]
  dsimp only
  rw [Nat.zero_add, Buffer.store_ok hroom, ok_bind]
  have hother : ∀ y, y ≠ buf.addr.toNat + k → write8 m₁ (buf.addr.toNat + k) 0 y = m₁ y :=
    fun y hy => Function.update_of_ne hy _ _
  refine ⟨write8 m₁ (buf.addr.toNat + k) 0, by rw [Int.sub_self]; rfl, ?_,
    Function.update_self _ _ _, ?_⟩
  · have hsource := bytesAt_drop (i := x.2 - start + 512) (n := k) h.mem (by omega)
    rw [show start + (x.2 - start + 512) = x.2 + 512 by omega] at hsource
    rw [← hsource]
    apply bytesAt_congr
    intro j hj
    rw [hother _ (by omega)]
    exact hcopy (by omega) j hj
  · intro y hy
    rw [hother y (by omega)]
    exact hframe y (by omega)

end

/-! ## Requests -/

section

variable {fd count : UInt64} {buf : Buffer} {s : ReadState}

theorem sysRead_keyboard (buf : Buffer) (hcount : count < 2 ^ 31) (s : ReadState) :
    sysRead 0 buf count s = (do
      let (keyboard, buff, keys) ←
        scanf s.keyboard (bytesAt s.mem buf.addr.toNat buf.size) count.toNat s.keys
      let len ← scanfLen s.keyboard count.toNat s.keys
      .ok (len, ⟨putBytes s.mem buf.addr.toNat buff, keyboard, keys⟩)) := by
  rw [sysRead, toInt32_count hcount, if_pos rfl]

theorem sysRead_file (hfd : 2 < fd) (buf : Buffer) (hcount : count < 2 ^ 31) (s : ReadState) :
    sysRead fd buf count s =
      (readfile s.mem fd count.toNat buf).map fun r => (r.1, { s with mem := r.2 }) := by
  have hzero : fd ≠ 0 := by
    rintro rfl
    exact absurd hfd (by decide)
  rw [sysRead, toInt32_count hcount, if_neg hzero, if_pos hfd]
  cases readfile s.mem fd count.toNat buf <;> rfl

end

/-- **Files.** A file of the archive is opened by its name, and a read of the `int` that comes back
stores the first bytes of its data and a NUL, and nothing else. -/
theorem file_read {start : Nat} {image : List UInt8} {es : List Member} {s : ReadState}
    {filled : List TarfsEntry} (h : Linked s.mem start image es)
    (hnodup : (es.map Member.name).Nodup) (hindex : List.Forall₂ Indexes filled (located start es))
    (rest : List TarfsEntry) {x : Member × Nat} (hx : x ∈ located start es)
    (hkind : x.1.kind = .file) (hsize : x.1.size < 2 ^ 28) {pathname : List UInt8}
    (hpath : IsStr pathname x.1.name) (buf : UInt64) {count : UInt64} (hcount : count < 2 ^ 31)
    (hapart : buf.toNat + min count.toNat x.1.size < start ∨ start + image.length ≤ buf.toNat) :
    ∃ fd r m', libcOpen pathname (filled ++ rest) = .ok fd ∧
      libcRead fd ⟨buf, min count.toNat x.1.size + 1⟩ count s = .ok (r, { s with mem := m' }) ∧
      bytesAt m' buf.toNat (min count.toNat x.1.size) =
        (image.drop (x.2 - start + 512)).take (min count.toNat x.1.size) ∧
      m' (buf.toNat + min count.toNat x.1.size) = 0 ∧
      ∀ y, y < buf.toNat ∨ buf.toNat + min count.toNat x.1.size < y → m' y = s.mem y := by
  obtain ⟨haddr, hlow⟩ := h.toNat_addr hx
  have hopen : openfile pathname (filled ++ rest) = .ok x.2 := by
    rw [openfile_eq_lookup, show fileType = Kind.typeflag .file from rfl,
      lookup_append .file rest hpath hindex,
      find?_located (q := fun e => e.name = x.1.name ∧ e.kind = .file) hnodup hx
        (fun e he => (of_decide_eq_true he).1) (by simp [hkind])]
    rfl
  have hfd : (UInt64.ofNat x.2).toUInt32.toInt32.toInt64.toUInt64 = UInt64.ofNat x.2 :=
    toInt32_kernel (haddr.symm ▸ hlow)
  have hroom : min (count.toNat : Int).toNat x.1.size <
      (Buffer.mk buf (min count.toNat x.1.size + 1)).size := Nat.lt_succ_self _
  obtain ⟨m', hread, hdata, hnul, hframe⟩ :=
    h.readfile_spec hx hsize (Int.natCast_nonneg _) hroom hapart
  refine ⟨(UInt64.ofNat x.2).toUInt32.toInt32, -1, m', ?_, ?_, hdata, hnul, hframe⟩
  · rw [libcOpen, sysOpen, hopen]
    simp only [Except.map, hfd]
  · rw [libcRead, hfd, sysRead_file (h.two_lt hx) _ hcount, hread]
    rfl

/-! ## The bounds of a request -/

/-- A request for `count` bytes stores them in `buf` and returns their number. -/
def ReadContract (fd buf count : UInt64) (s : ReadState) : Prop :=
  ∃ (k : Nat) (s' : ReadState), sysRead fd ⟨buf, count.toNat⟩ count s = .ok ((k : Int), s') ∧
    k ≤ count.toNat

/-- The stores of a request for `count` bytes lie in `buf`. -/
def StaysInside (fd buf count : UInt64) (s : ReadState) : Prop :=
  ∃ r, sysRead fd ⟨buf, count.toNat⟩ count s = .ok r

section

variable {fd buf count : UInt64} {s : ReadState} {st st' : Keyboard} {keys rest line : List UInt8}

theorem scanfLen_neg {len r : Int} (h : scanfLen st len keys = .ok r) : r < 0 := by
  obtain ⟨⟨st₁, keys₁⟩, -, h⟩ := bind_eq_ok.1 h
  have hr := Except.ok.inj h
  rw [← hr]
  split_ifs
  · decide
  · omega
  · decide
  · omega

theorem readfile_neg {m m' : Mem} {b : Buffer} {n r : Int} (h : readfile m fd n b = .ok (r, m')) :
    r < 0 := by
  unfold readfile at h
  obtain ⟨k, -, h⟩ := bind_eq_ok.1 h
  obtain ⟨⟨size, i, m₁⟩, hloop, h⟩ := bind_eq_ok.1 h
  obtain ⟨m₂, -, h⟩ := bind_eq_ok.1 h
  cases h
  have hsize := (readfileLoop_inv hloop).1
  omega

/-- No request returns a number of bytes. -/
theorem sysRead_neg {b : Buffer} {r : Int} {s' : ReadState} (hcount : count < 2 ^ 31)
    (h : sysRead fd b count s = .ok (r, s')) : r < 0 := by
  by_cases hzero : fd = 0
  · subst hzero
    rw [sysRead_keyboard b hcount] at h
    obtain ⟨p, -, h⟩ := bind_eq_ok.1 h
    obtain ⟨len, hlen, h⟩ := bind_eq_ok.1 h
    cases h
    exact scanfLen_neg hlen
  · by_cases htwo : 2 < fd
    · rw [sysRead_file htwo b hcount] at h
      obtain ⟨p, hread, heq⟩ := map_eq_ok.1 h
      cases heq
      exact readfile_neg hread
    · rw [sysRead, if_neg hzero, if_neg htwo] at h
      cases h
      decide

/-- `scanf` stays in its buffer when the line and its NUL fit, whatever `len` is. -/
theorem scanf_ok_iff {buff : List UInt8}
    (hwait : waitFlag { st with flag := true } keys = .ok (st', rest))
    (htempbuff : st'.tempbuff.length = 1024) (hline : IsStr st'.tempbuff line)
    (hscanlen : 0 ≤ st'.scanlen ∧ st'.scanlen < 1024) :
    (∃ r, scanf st buff buff.length keys = .ok r) ↔ line.length < buff.length := by
  constructor
  · rintro ⟨r, h⟩
    obtain ⟨p, hp, h⟩ := bind_eq_ok.1 h
    obtain rfl := Except.ok.inj (hwait.symm.trans hp)
    obtain ⟨buff', hcopy, -⟩ := bind_eq_ok.1 h
    obtain ⟨line', hsrc, hdest⟩ := sstrcpy_ok hcopy
    obtain rfl := hline.unique hsrc
    rw [← sstrcpy_length hcopy]
    exact hdest.length_lt
  · intro hfits
    obtain ⟨buff', hcopy, -, hlen⟩ := sstrcpy_spec buff hline hfits
    generalize hn : (if (buff.length : Int) < st'.scanlen then (buff.length : Int)
      else st'.scanlen) = n
    have hbound : 0 ≤ n ∧ n < 1024 ∧ n ≤ buff.length := by
      rw [← hn]
      split_ifs
      · omega
      · omega
    have hmemcpy : ∃ b, memcpyBytes buff' st'.tempbuff n = .ok b := by
      refine ⟨_, if_pos ⟨?_, ?_⟩⟩
      · omega
      · omega
    have hclear : ∃ b, clearTempbuff st'.tempbuff n = .ok b := by
      obtain ⟨b, hb, -⟩ := @clearDown_ok st'.tempbuff n.toNat (by omega)
      exact ⟨b, by rw [clearTempbuff, if_pos hbound.1, hb]⟩
    obtain ⟨b₁, hb₁⟩ := hmemcpy
    obtain ⟨b₂, hb₂⟩ := hclear
    refine ⟨(⟨st'.flag, b₂, 0, st'.shiftKey⟩, b₁, rest), ?_⟩
    rw [scanf, hwait, ok_bind]
    dsimp only
    rw [hn, strcpy, hcopy, ok_bind, hb₁, ok_bind, hb₂, ok_bind]

theorem staysInside_keyboard_iff (buf : UInt64) (hcount : count < 2 ^ 31)
    (hwait : waitFlag { s.keyboard with flag := true } s.keys = .ok (st', rest))
    (htempbuff : st'.tempbuff.length = 1024) (hline : IsStr st'.tempbuff line)
    (hscanlen : 0 ≤ st'.scanlen ∧ st'.scanlen < 1024) :
    StaysInside 0 buf count s ↔ line.length < count.toNat := by
  have hlen : (bytesAt s.mem buf.toNat count.toNat).length = count.toNat := length_bytesAt _ _ _
  have hiff := @scanf_ok_iff _ _ _ _ _ (bytesAt s.mem buf.toNat count.toNat) hwait htempbuff hline
    hscanlen
  rw [hlen] at hiff
  rw [← hiff, StaysInside, sysRead_keyboard _ hcount]
  constructor
  · rintro ⟨r, h⟩
    obtain ⟨p, hp, -⟩ := bind_eq_ok.1 h
    exact ⟨p, hp⟩
  · rintro ⟨p, hp⟩
    obtain ⟨len, hlen'⟩ : ∃ len, scanfLen s.keyboard count.toNat s.keys = .ok len :=
      ⟨_, bind_eq_ok.2 ⟨_, hwait, rfl⟩⟩
    exact ⟨_, bind_eq_ok.2 ⟨p, hp, bind_eq_ok.2 ⟨len, hlen', rfl⟩⟩⟩

/-- A request for a file stays in the buffer when the NUL behind the copy does. -/
theorem Linked.readfile_ok_iff {m : Mem} {start : Nat} {image : List UInt8} {es : List Member}
    {x : Member × Nat} {b : Buffer} {n : Int} (h : Linked m start image es)
    (hx : x ∈ located start es) (hsize : x.1.size < 2 ^ 28) (hn : 0 ≤ n) :
    (∃ r, readfile m (UInt64.ofNat x.2) n b = .ok r) ↔ min n.toNat x.1.size < b.size := by
  rw [h.readfile_eq hx hsize hn]
  constructor
  · rintro ⟨r, hr⟩
    obtain ⟨⟨size, i, m₁⟩, hloop, hrest⟩ := bind_eq_ok.1 hr
    obtain ⟨m₂, hnul, -⟩ := bind_eq_ok.1 hrest
    have hi := (readfileLoop_inv hloop).2
    have hroom := (Buffer.store_inv hnul).1
    omega
  · intro hroom
    obtain ⟨m₁, hloop, -⟩ := @readfileLoop_spec b (x.2 + 512) (min n.toNat x.1.size) 0 (by omega)
      (min n.toNat x.1.size : Nat) m
    rw [hloop, ok_bind]
    dsimp only
    rw [Buffer.store_ok (by omega)]
    exact ⟨_, rfl⟩

theorem staysInside_file_iff {start : Nat} {image : List UInt8} {es : List Member}
    {x : Member × Nat} (h : Linked s.mem start image es) (hx : x ∈ located start es)
    (hsize : x.1.size < 2 ^ 28) (buf : UInt64) (hcount : count < 2 ^ 31) :
    StaysInside (UInt64.ofNat x.2) buf count s ↔ x.1.size < count.toNat := by
  have hiff : (∃ r, readfile s.mem (UInt64.ofNat x.2) count.toNat ⟨buf, count.toNat⟩ = .ok r) ↔
      min count.toNat x.1.size < count.toNat :=
    h.readfile_ok_iff hx hsize (Int.natCast_nonneg _)
  have hmin : min count.toNat x.1.size < count.toNat ↔ x.1.size < count.toNat := by omega
  rw [← hmin, ← hiff, StaysInside, sysRead_file (h.two_lt hx) _ hcount]
  constructor
  · rintro ⟨r, hr⟩
    obtain ⟨p, hp, -⟩ := map_eq_ok.1 hr
    exact ⟨p, hp⟩
  · rintro ⟨p, hp⟩
    exact ⟨_, map_eq_ok.2 ⟨p, hp, rfl⟩⟩

/-- **Read.** No request for `count` bytes meets the contract, since none returns a number of bytes.
A request for the keyboard stays in its buffer exactly when the pending line is shorter than
`count`, a request for a file exactly when the file is. -/
theorem read_contract (buf : UInt64) (hcount : count < 2 ^ 31) (s : ReadState) :
    (∀ fd, ¬ ReadContract fd buf count s) ∧
      (∀ st' rest line, waitFlag { s.keyboard with flag := true } s.keys = .ok (st', rest) →
        st'.tempbuff.length = 1024 → IsStr st'.tempbuff line →
        0 ≤ st'.scanlen ∧ st'.scanlen < 1024 →
          (StaysInside 0 buf count s ↔ line.length < count.toNat)) ∧
      ∀ start image es x, Linked s.mem start image es → x ∈ located start es →
        x.1.size < 2 ^ 28 →
          (StaysInside (UInt64.ofNat x.2) buf count s ↔ x.1.size < count.toNat) := by
  refine ⟨?_, ?_, ?_⟩
  · rintro fd ⟨k, s', hread, -⟩
    have hneg := sysRead_neg hcount hread
    omega
  · intro st' rest line hwait htempbuff hline hscanlen
    exact staysInside_keyboard_iff buf hcount hwait htempbuff hline hscanlen
  · intro start image es x h hx hsize
    exact staysInside_file_iff h hx hsize buf hcount

end

/-! ## A file of three bytes -/

/-- The archive with `bin/` and `bin/ls`. -/
def lsImage : List UInt8 := ustar [(binDirectory, []), (lsFile, [1, 2, 3])]

def lsState : ReadState := ⟨putBytes (fun _ => 0) 0xffffffff80300000 lsImage, .boot, []⟩

theorem length_lsImage : lsImage.length = 2048 := by
  simp only [lsImage, ustar, List.length_append, Member.length_header, List.length_replicate]
  decide

theorem take_lsImage : (lsImage.drop 1024).take 2 = [1, 2] := by
  have hdirectory : lsImage.drop 512 = ustar [(lsFile, [1, 2, 3])] := by
    rw [lsImage, ustar, List.append_assoc]
    exact List.drop_left' (Member.length_header _)
  rw [← List.drop_drop (i := 512) (j := 512), hdirectory, ustar, List.append_assoc,
    List.drop_left' (Member.length_header _)]
  rfl

theorem linked_ls : Linked lsState.mem 0xffffffff80300000 lsImage [binDirectory, lsFile] where
  archive := archive_ustar (by decide)
  mem := bytesAt_putBytes _ _ _
  low := by decide
  high := by
    rw [length_lsImage]
    decide

theorem located_ls :
    (lsFile, 0xffffffff80300200) ∈ located 0xffffffff80300000 [binDirectory, lsFile] := by
  simp [located, padded, binDirectory]

/-- With room for eight bytes the file stays in the buffer. -/
theorem read_contract_ls :
    StaysInside 0xffffffff80300200 4096 8 lsState ∧
      ¬ ReadContract 0xffffffff80300200 4096 8 lsState := by
  have hcount : (8 : UInt64) < 2 ^ 31 := by decide
  have hcontract := read_contract 4096 hcount lsState
  exact ⟨(hcontract.2.2 _ _ _ _ linked_ls located_ls (by decide)).2 (by decide),
    hcontract.1 _⟩

/-- The NUL behind a file of `count` bytes is stored behind the buffer, and no number of bytes is
returned. -/
theorem read_full_buffer :
    ¬ StaysInside 0xffffffff80300200 4096 3 lsState ∧
      ∀ r s', sysRead 0xffffffff80300200 ⟨4096, 8⟩ 8 lsState = .ok (r, s') → r < 0 := by
  refine ⟨?_, fun r s' h => sysRead_neg (by decide) h⟩
  have hcount : (3 : UInt64) < 2 ^ 31 := by decide
  have hiff := staysInside_file_iff linked_ls located_ls (by decide) 4096 hcount
  exact fun h => absurd (hiff.1 h) (by decide)

/-- The index of the archive. -/
def lsIndex : List TarfsEntry :=
  [⟨binDirectory.name ++ [0], 0, directory, 0xffffffff80300000, 999⟩,
    ⟨lsFile.name ++ [0], 3, fileType, 0xffffffff80300200, 0⟩]

theorem indexes_ls :
    List.Forall₂ Indexes lsIndex (located 0xffffffff80300000 [binDirectory, lsFile]) := by
  refine .cons ⟨⟨binDirectory.nul_notMem, [], rfl⟩, rfl, rfl, rfl⟩ (.cons ?_ .nil)
  exact ⟨⟨lsFile.nul_notMem, [], rfl⟩, rfl, rfl, by simp [padded, binDirectory]⟩

/-- Two of the three bytes of `bin/ls`. -/
theorem file_read_ls :
    ∃ fd r m', libcOpen (lsFile.name ++ [0]) lsIndex = .ok fd ∧
      libcRead fd ⟨4096, 3⟩ 2 lsState = .ok (r, { lsState with mem := m' }) ∧
      bytesAt m' 4096 2 = [1, 2] ∧ m' 4098 = 0 := by
  have hcount : (2 : UInt64) < 2 ^ 31 := by decide
  obtain ⟨fd, r, m', hopen, hread, hdata, hnul, -⟩ := file_read linked_ls (by decide) indexes_ls []
    located_ls rfl (by decide) ⟨lsFile.nul_notMem, [], rfl⟩ 4096 hcount (Or.inl (by decide))
  rw [List.append_nil] at hopen
  exact ⟨fd, r, m', hopen, hread, hdata.trans take_lsImage, hnul⟩

end Sbunix
