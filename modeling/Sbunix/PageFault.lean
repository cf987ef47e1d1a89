import Sbunix.Fork

/-!
# The page-fault handler

Code runs in the address space of `CR3`: its loads and stores go through the translation `walk`.
A supervisor store ignores `PTE_W`, a user store to a page without it faults first. On a
copy-on-write page `pg_fault_handler` takes a frame, copies the page into it through the
address at which the frame is mapped, and maps the faulting page to it.

`memcpy_page` says that the copy of a page changes the target frame only, and
`pgFaultHandler_spec` that the handler gives the faulting page a frame of its own with the same
contents. `phyAddr_agrees_iff` compares the handler's lookup of an entry, which does not check the
PDPT and the PDT for `NULL`, with the translation.
-/

namespace Sbunix

open Lib Lib.Radix

/-! ## Loads and stores -/

/-- The frame of the PML4 in `CR3`. -/
def Kernel.root (k : Kernel) : Nat := k.cr3.toNat / 4096

/-- The physical address of a byte. -/
def translate (v : UInt64) (k : Kernel) : Option Nat :=
  (walk k.mem k.root v).map fun e => 4096 * pte.target e + v.toNat % 4096

def loadByte (v : UInt64) (k : Kernel) : Option UInt8 := (translate v k).map k.mem

def storeByte (v : UInt64) (b : UInt8) (k : Kernel) : Option Kernel :=
  (translate v k).map fun a => { k with mem := write8 k.mem a b }

/-- `*pd = *ps` for the `i`-th byte. -/
def copyByte (dest src : UInt64) (k : Kernel) (i : Nat) : Option Kernel := do
  let b ← loadByte (src + UInt64.ofNat i) k
  storeByte (dest + UInt64.ofNat i) b k

/-- `memcpy`, which goes downwards when the source is below the destination. -/
def memcpy (dest src n : UInt64) (k : Kernel) : Option Kernel :=
  if src < dest then (List.range n.toNat).reverse.foldlM (copyByte dest src) k
  else (List.range n.toNat).foldlM (copyByte dest src) k

/-! ## The handler -/

/-- `pg_fault_handler`, with the address from `CR2`. -/
def pgFaultHandler (faultAddr : UInt64) (k : Kernel) : Option Kernel := do
  let pteEntry ← phyAddr faultAddr k
  if pteEntry &&& pteCow ≠ 0 then
    let (tempVaddr, k) ← kmalloc 4096 k
    let paddr ← phyAddr (getAddress tempVaddr) k
    let faultAddr := faultAddr / 4096 * 4096
    let k ← memcpy tempVaddr faultAddr 4096 k
    mapProcess faultAddr paddr k
  else some k

/-- A user store to this address does not fault. -/
def writable (v : UInt64) (k : Kernel) : Bool := (walk k.mem k.root v).any (· &&& pteW != 0)

/-- A byte written by a process: a store that faults runs the handler and is retried. -/
def userWrite (v : UInt64) (b : UInt8) (k : Kernel) : Option Kernel := do
  let k ← if writable v k then some k else pgFaultHandler v k
  if writable v k then storeByte v b k else none

/-! ## Addresses within a page -/

theorem toNat_add_offset {v : UInt64} (hv : v.toNat % 4096 = 0) {i : Nat} (hi : i < 4096) :
    (v + UInt64.ofNat i).toNat = v.toNat + i := by
  have hsize := v.toNat_lt
  exact toNat_add_ofNat (by omega)

theorem vpage_add_offset {v : UInt64} (hv : v.toNat % 4096 = 0) {i : Nat} (hi : i < 4096) :
    vpage (v + UInt64.ofNat i) = vpage v := by
  rw [vpage, vpage, toNat_add_offset hv hi]
  omega

theorem toNat_pageBase (v : UInt64) : (v / 4096 * 4096).toNat = v.toNat / 4096 * 4096 := by
  have hsize := v.toNat_lt
  have h4096 : (4096 : UInt64).toNat = 4096 := rfl
  rw [UInt64.toNat_mul, UInt64.toNat_div, h4096]
  omega

theorem vpage_pageBase (v : UInt64) : vpage (v / 4096 * 4096) = vpage v := by
  rw [vpage, vpage, toNat_pageBase]
  omega

theorem path_pageBase {v : UInt64} (hv : path v ∈ userPaths) :
    path (v / 4096 * 4096) ∈ userPaths := by
  rw [(same_page_iff.2 (vpage_pageBase v)).1]
  exact hv

theorem translate_of_walk {k : Kernel} {v e : UInt64} (h : walk k.mem k.root v = some e) :
    translate v k = some (4096 * pte.target e + v.toNat % 4096) := by
  rw [translate, h, Option.map_some]

/-! ## The copy of a page -/

/-- Two memories that differ in the frame `f` at most. -/
def OnlyFrame (m m' : Mem) (f : Nat) : Prop := ∀ g, g ≠ f → SamePage m m' g

/-- The memory after the page in frame `g` was copied to frame `f`. -/
def copyPage (m : Mem) (f g : Nat) : Mem := fun x =>
  if x / 4096 = f then m (4096 * g + x % 4096) else m x

/-- The memory `m` with the bytes `is` of frame `f` taken from frame `g` of `m₀`. -/
def copyBytes (m₀ m : Mem) (f g : Nat) (is : List Nat) : Mem := fun x =>
  if x / 4096 = f ∧ x % 4096 ∈ is then m₀ (4096 * g + x % 4096) else m x

theorem onlyFrame_write8 {m : Mem} {f a : Nat} (b : UInt8) (ha : a / 4096 = f) :
    OnlyFrame m (write8 m a b) f := by
  intro g hg x hx
  refine Function.update_of_ne ?_ _ _
  rintro rfl
  exact hg (hx.symm.trans ha)

theorem onlyFrame_copyPage (m : Mem) (f g : Nat) : OnlyFrame m (copyPage m f g) f := by
  intro h hne x hx
  rw [copyPage, if_neg fun hxf => hne (hx.symm.trans hxf)]

section Copy

variable {k : Kernel} {dest src ed es : UInt64} {f g : Nat}
  (hstable : ∀ m, OnlyFrame k.mem m f →
    walk m k.root dest = some ed ∧ walk m k.root src = some es)
  (hf : pte.target ed = f) (hg : pte.target es = g) (hne : g ≠ f)
  (hdest : dest.toNat % 4096 = 0) (hsrc : src.toNat % 4096 = 0)
include hstable hf hg hne hdest hsrc

theorem copyByte_spec {m : Mem} (hm : OnlyFrame k.mem m f) {i : Nat} (hi : i < 4096) :
    copyByte dest src { k with mem := m } i =
      some { k with mem := write8 m (4096 * f + i) (k.mem (4096 * g + i)) } := by
  obtain ⟨hwd, hws⟩ := hstable m hm
  have hoff : ∀ {v : UInt64}, v.toNat % 4096 = 0 → (v + UInt64.ofNat i).toNat % 4096 = i := by
    intro v hv
    rw [toNat_add_offset hv hi]
    omega
  have htranslate : ∀ {v e : UInt64}, v.toNat % 4096 = 0 → walk m k.root v = some e →
      translate (v + UInt64.ofNat i) { k with mem := m } = some (4096 * pte.target e + i) := by
    intro v e hv hw
    have hw' : walk m k.root (v + UInt64.ofNat i) = some e :=
      (walk_congr m k.root (vpage_add_offset hv hi)).trans hw
    rw [translate_of_walk (k := { k with mem := m }) hw', hoff hv]
  have hload := htranslate hsrc hws
  have hstore := htranslate hdest hwd
  rw [hg] at hload
  rw [hf] at hstore
  have hbyte : m (4096 * g + i) = k.mem (4096 * g + i) := hm g hne _ (by omega)
  simp only [copyByte, loadByte, storeByte, hload, hstore, Option.map_some, Option.bind_eq_bind,
    Option.bind_some, hbyte]

/-- Copying the bytes `is` of a page, in any order. -/
theorem copyBytes_spec {is : List Nat} (his : ∀ i ∈ is, i < 4096) {m : Mem}
    (hm : OnlyFrame k.mem m f) :
    is.foldlM (copyByte dest src) { k with mem := m } =
      some { k with mem := copyBytes k.mem m f g is } := by
  induction is generalizing m with
  | nil =>
    have hnil : copyBytes k.mem m f g [] = m := by
      funext x
      simp [copyBytes]
    rw [hnil]
    rfl
  | cons i is ih =>
    have hi : i < 4096 := his i (by simp)
    have hm' : OnlyFrame k.mem (write8 m (4096 * f + i) (k.mem (4096 * g + i))) f := fun h hne' =>
      (hm h hne').trans (onlyFrame_write8 _ (by omega) h hne')
    rw [List.foldlM_cons, copyByte_spec hstable hf hg hne hdest hsrc hm hi, Option.bind_eq_bind,
      Option.bind_some, ih (fun j hj => his j (by simp [hj])) hm']
    congr 2
    funext x
    unfold copyBytes
    by_cases hx : x / 4096 = f ∧ x % 4096 ∈ is
    · rw [if_pos hx, if_pos ⟨hx.1, by simp [hx.2]⟩]
    · rw [if_neg hx]
      by_cases hxi : x = 4096 * f + i
      · have hxf : x / 4096 = f := by omega
        have hxo : x % 4096 = i := by omega
        rw [if_pos ⟨hxf, by simp [hxo]⟩, hxo, hxi]
        exact Function.update_self _ _ _
      · have hx' : ¬ (x / 4096 = f ∧ x % 4096 ∈ i :: is) := by
          rintro ⟨hxf, hmem⟩
          rcases List.mem_cons.1 hmem with hxo | hmem
          · omega
          · exact hx ⟨hxf, hmem⟩
        rw [if_neg hx']
        exact Function.update_of_ne hxi _ _

theorem memcpy_page : memcpy dest src 4096 k = some { k with mem := copyPage k.mem f g } := by
  have hcopy : ∀ is : List Nat, (∀ i, i ∈ is ↔ i < 4096) →
      is.foldlM (copyByte dest src) k = some { k with mem := copyPage k.mem f g } := by
    intro is his
    have := copyBytes_spec hstable hf hg hne hdest hsrc (fun i hi => (his i).1 hi)
      fun h _ => SamePage.refl k.mem h
    rw [show ({ k with mem := k.mem } : Kernel) = k from rfl] at this
    rw [this]
    congr 2
    funext x
    have hx : x % 4096 ∈ is := (his _).2 (by omega)
    simp only [copyBytes, copyPage, hx, and_true]
  have h4096 : (4096 : UInt64).toNat = 4096 := rfl
  unfold memcpy
  rw [h4096]
  split_ifs
  · exact hcopy _ fun i => by rw [List.mem_reverse, List.mem_range]
  · exact hcopy _ fun i => List.mem_range

end Copy

/-! ## Stores outside the tables -/

section OnlyFrame

variable {S : Set (List (Fin 512))} {R : Set Nat} {k : Kernel} {fl : List Nat} {m m' : Mem}
  {f r : Nat}

theorem entry_onlyFrame (hfresh : Fresh pte (entry m) S R f) (hm : OnlyFrame m m' f) (t : Nat)
    (ht : ¬ Fresh pte (entry m) S R t) (i : Fin 512) : entry m' t i = entry m t i :=
  entry_congr (hm t fun htf => ht (htf ▸ hfresh)) i

variable (hS : PrefixClosed S)
include hS

theorem table_onlyFrame (hfresh : Fresh pte (entry m) S R f) (hm : OnlyFrame m m' f) (hr : r ∈ R)
    {q : List (Fin 512)} (hq : q ∈ S) : tableAt pte (entry m') r q = tableAt pte (entry m) r q :=
  tableAt_of_agree hS hr hq (entry_onlyFrame hfresh hm)

theorem walk_onlyFrame (hfresh : Fresh pte (entry m) S R f) (hm : OnlyFrame m m' f) (hr : r ∈ R)
    {v : UInt64} (hv : path v ∈ S) : walk m' r v = walk m r v :=
  leafAt_of_agree hS hr hv (entry_onlyFrame hfresh hm)

theorem fresh_onlyFrame (hfresh : Fresh pte (entry m) S R f) (hm : OnlyFrame m m' f) {g : Nat}
    (hg : Fresh pte (entry m) S R g) : Fresh pte (entry m') S R g := by
  intro r hr q hq
  rw [table_onlyFrame hS hfresh hm hr hq]
  exact hg r hr q hq

theorem Paging.onlyFrame (h : Paging S R k fl) (hfresh : Fresh pte (entry k.mem) S R f)
    (hf : f ∉ fl) (hm : OnlyFrame k.mem m f) : Paging S R { k with mem := m } fl where
  forest := forest_of_agree hS h.forest (entry_onlyFrame hfresh hm)
  free := h.free
  fresh g hg := fresh_onlyFrame hS hfresh hm (h.fresh g hg)
  blank g hg := (h.blank g hg).congr (hm g fun hgf => hf (hgf ▸ hg))

theorem separate_onlyFrame (hsep : Separate pte (entry m) S R)
    (hfresh : Fresh pte (entry m) S R f) (hm : OnlyFrame m m' f) : Separate pte (entry m') S R :=
  separate_congr hsep fun _ hr _ hq => table_onlyFrame hS hfresh hm hr hq

end OnlyFrame

/-! ## `phyAddr` and `kmalloc` -/

theorem getAddress_ne_zero {e : UInt64} (h : pte.target e ≠ 0) : getAddress e ≠ 0 := by
  intro h0
  have := getAddress_toNat e
  rw [h0] at this
  change 0 = _ at this
  omega

/-- A table that the code can follow a pointer to: it is not at address 0. -/
def nonNull (t : Option Nat) : Option Nat := t.filter (· ≠ 0)

theorem nonNull_eq_some {t : Option Nat} {u : Nat} :
    nonNull t = some u ↔ t = some u ∧ u ≠ 0 := by
  rw [nonNull, Option.filter_eq_some_iff, decide_eq_true_iff]

theorem nonNull_eq_none {t : Option Nat} : nonNull t = none ↔ t = none ∨ t = some 0 := by
  cases t with
  | none => simp [nonNull]
  | some u => simp [nonNull]

/-- The pointer that `phyAddr` makes of an entry. -/
theorem pointer_cases (k : Kernel) (f : Nat) (i : Fin 512) :
    let e := entry k.mem f i
    let pointer := if e &&& pteP ≠ 0 then getAddress e else 0
    nonNull (k.below f i) = none ∧ pointer = 0 ∨
      ∃ t, nonNull (k.below f i) = some t ∧ pointer ≠ 0 ∧ pointer.toNat = 4096 * t := by
  intro e pointer
  by_cases hpres : e &&& pteP ≠ 0
  · have hbelow : k.below f i = some (pte.target e) := if_pos (present_iff.2 hpres)
    have hpointer : pointer = getAddress e := if_pos hpres
    rw [hbelow, hpointer]
    by_cases hzero : pte.target e = 0
    · refine Or.inl ⟨nonNull_eq_none.2 (Or.inr (by rw [hzero])), ?_⟩
      apply UInt64.toNat_inj.1
      rw [getAddress_toNat, hzero]
      rfl
    · exact Or.inr ⟨_, nonNull_eq_some.2 ⟨rfl, hzero⟩, getAddress_ne_zero hzero,
        getAddress_toNat e⟩
  · have hbelow : k.below f i = none := if_neg (mt present_iff.1 hpres)
    exact Or.inl ⟨nonNull_eq_none.2 (Or.inl hbelow), if_neg hpres⟩

/-- `phyAddr` level by level: the two upper pointers are dereferenced, the last one is checked. -/
theorem phyAddr_below {k : Kernel} {r : Nat} (hcr3 : k.cr3.toNat = 4096 * r) (v : UInt64) :
    phyAddr v k = (nonNull (k.below r (slot (getPML4Index v)))).bind fun pdpt =>
      (nonNull (k.below pdpt (slot (getPDPTIndex v)))).map fun pdt =>
        (nonNull (k.below pdt (slot (getPDTIndex v)))).elim 0 fun pt =>
          entry k.mem pt (ptSlot v) := by
  have hi₄ : (getPML4Index v).toNat = (slot (getPML4Index v)).val := toNat_and_511 _
  have hi₃ : (getPDPTIndex v).toNat = (slot (getPDPTIndex v)).val := toNat_and_511 _
  have hi₂ : (getPDTIndex v).toNat = (slot (getPDTIndex v)).val := toNat_and_511 _
  have hi₁ : (getPTIndex v).toNat = (ptSlot v).val := toNat_and_511 _
  unfold phyAddr
  simp only [ptEntry_eq hcr3 hi₄, Option.bind_eq_bind]
  rcases pointer_cases k r (slot (getPML4Index v)) with ⟨hnull₄, hp₄⟩ | ⟨pdpt, hsome₄, hp₄, ha₄⟩
  · simp only [hnull₄, hp₄, if_true, Option.bind_none]
  simp only [hsome₄, if_neg hp₄, ptEntry_eq ha₄ hi₃, Option.bind_some]
  rcases pointer_cases k pdpt (slot (getPDPTIndex v)) with ⟨hnull₃, hp₃⟩ | ⟨pdt, hsome₃, hp₃, ha₃⟩
  · simp only [hnull₃, hp₃, if_true, Option.bind_none, Option.map_none]
  simp only [hsome₃, if_neg hp₃, ptEntry_eq ha₃ hi₂, Option.bind_some, Option.map_some]
  rcases pointer_cases k pdt (slot (getPDTIndex v)) with ⟨hnull₂, hp₂⟩ | ⟨pt, hsome₂, hp₂, ha₂⟩
  · simp only [hnull₂, hp₂, ne_eq, not_true_eq_false, if_false, Option.elim_none]
  · simp only [hsome₂, if_pos hp₂, ptEntry_eq ha₂ hi₁, Option.elim_some]

theorem table_path (k : Kernel) (r : Nat) (v : UInt64) : k.table r (path v) =
    (k.below r (slot (getPML4Index v))).bind fun pdpt =>
      (k.below pdpt (slot (getPDPTIndex v))).bind fun pdt =>
        k.below pdt (slot (getPDTIndex v)) := by
  rw [Kernel.table, path, tableAt_cons]
  refine Option.bind_congr fun pdpt _ => ?_
  rw [tableAt_cons]
  exact Option.bind_congr fun pdt _ => tableAt_singleton

/-- What `phyAddr` should return: the PT entry when there is a PT, 0 when there is none. -/
def AgreesWithWalk (k : Kernel) (r : Nat) (v : UInt64) : Prop :=
  (∀ t, k.table r (path v) = some t → phyAddr v k = some (entry k.mem t (ptSlot v))) ∧
    (k.table r (path v) = none → phyAddr v k = some 0)

/-- A PML4, a PDPT, a PDT and a PT in frames 1 to 4, on the path of address 0. -/
def oneTableKernel : Kernel where
  mem := write64 (write64 (write64 (fun _ => 0) 0x1000 0x2007) 0x2000 0x3007) 0x3000 0x4007
  frames := Frames.zero
  pml4 := 0x1000
  cr3 := 0x1000

/-- `phyAddr` returns the PT entry when none of the tables on the way is at address 0. -/
theorem phyAddr_eq {k : Kernel} {r t : Nat} {v : UInt64} (hcr3 : k.cr3.toNat = 4096 * r)
    (hnull : ∀ q, q ≠ [] → q <+: path v → k.table r q ≠ some 0)
    (ht : k.table r (path v) = some t) : phyAddr v k = some (entry k.mem t (ptSlot v)) := by
  have hpath := ht
  rw [table_path] at hpath
  obtain ⟨pdpt, hpdpt, hrest⟩ := Option.bind_eq_some_iff.1 hpath
  obtain ⟨pdt, hpdt, hpt⟩ := Option.bind_eq_some_iff.1 hrest
  have htab₁ : k.table r [slot (getPML4Index v)] = some pdpt := tableAt_singleton.trans hpdpt
  have htab₂ : k.table r [slot (getPML4Index v), slot (getPDPTIndex v)] = some pdt :=
    (tableAt_snoc (p := [_]) htab₁).trans hpdt
  have h₁ : pdpt ≠ 0 := by
    rintro rfl
    exact hnull [slot (getPML4Index v)] (by simp) ⟨_, rfl⟩ htab₁
  have h₂ : pdt ≠ 0 := by
    rintro rfl
    exact hnull [slot (getPML4Index v), slot (getPDPTIndex v)] (by simp) ⟨_, rfl⟩ htab₂
  have h₃ : t ≠ 0 := by
    rintro rfl
    exact hnull (path v) (by simp [path]) List.prefix_rfl ht
  rw [phyAddr_below hcr3, nonNull_eq_some.2 ⟨hpdpt, h₁⟩, Option.bind_some,
    nonNull_eq_some.2 ⟨hpdt, h₂⟩, Option.map_some, nonNull_eq_some.2 ⟨hpt, h₃⟩, Option.elim_some]

theorem kmalloc_page (k : Kernel) : kmalloc 4096 k = k.pageAllocAddr := by
  have hpos : (0 : UInt64) < 4096 := by decide
  have hcnt : (((4096 / 4096 : UInt64).toNat : Int).bmod (2 ^ 32) +
      if (0 : UInt64) < 4096 % 4096 then 1 else 0) = 1 := by decide
  unfold kmalloc
  rw [if_pos hpos]
  simp only [hcnt]
  cases k.pageAllocAddr with
  | none => rfl
  | some x => rfl

/-! ## What the handler does -/

/-- The page that `kmalloc` would return is mapped to the frame at its own address, below PML4
entry 510. -/
def DirectMapped (k : Kernel) : Prop :=
  ∀ tempVaddr k', kmalloc 4096 k = some (tempVaddr, k') → path tempVaddr ∈ userPaths ∧
    ∃ e, walk k.mem k.root tempVaddr = some e ∧ pte.target e = tempVaddr.toNat / 4096

/-- The process `r` got the frame `f` for the page of `v`, with the contents of frame `g`. -/
structure Handled (R : Set Nat) (r : Nat) (v : UInt64) (f g : Nat) (k k' : Kernel)
    (fl fl' : List Nat) : Prop where
  paging : Paging userPaths R k' fl'
  separate : Separate pte (entry k'.mem) userPaths R
  suffix : fl' <:+ fl
  count : fl.length ≤ fl'.length + 4
  taken : f ∈ fl ∧ f ∉ fl'
  fresh : Fresh pte (entry k'.mem) userPaths R f
  mapped : ∃ e, walk k'.mem r v = some e ∧ pte.target e = f ∧ e &&& pteW ≠ 0
  others : ∀ {x u}, x ∈ R → path u ∈ userPaths → ¬ (x = r ∧ vpage u = vpage v) →
    walk k'.mem x u = walk k.mem x u
  contents : ∀ o < 4096, k'.mem (4096 * f + o) = k.mem (4096 * g + o)
  data : ∀ {h}, Fresh pte (entry k.mem) userPaths R h → h ∉ fl →
    SamePage k.mem k'.mem h ∧ Fresh pte (entry k'.mem) userPaths R h
  cr3 : k'.cr3 = k.cr3

section Handler

variable {R : Set Nat} {r : Nat} {k : Kernel} {fl : List Nat}

theorem root_eq (hcr3 : k.cr3.toNat = 4096 * r) : k.root = r := by
  rw [Kernel.root, hcr3]
  omega

theorem phyAddr_of_walk {v e : UInt64} (hcr3 : k.cr3.toNat = 4096 * r) (hr : r ∈ R)
    (hnull : Fresh pte (entry k.mem) userPaths R 0) (hv : path v ∈ userPaths)
    (hw : walk k.mem r v = some e) : phyAddr v k = some e := by
  obtain ⟨t, ht, rfl, -⟩ := leafAt_eq_some hw
  refine phyAddr_eq hcr3 ?_ ht
  intro q _ hq
  obtain ⟨q', hq'⟩ := hq
  exact hnull r hr q (prefixClosed_userPaths.left (hq' ▸ hv))

/-- The last step of the handler: the faulting page of the process is mapped to another frame. -/
theorem remap_spec (h : Paging userPaths R k fl) (hsep : Separate pte (entry k.mem) userPaths R)
    (hr : r ∈ R) (hcr3 : k.cr3.toNat = 4096 * r) {v : UInt64} (hv : path v ∈ userPaths)
    (paddr : UInt64) :
    mapProcess v paddr k = none ∧ fl.length < 3 ∨
      ∃ k' fl', mapProcess v paddr k = some k' ∧ Extends userPaths R r k k' fl fl' ∧
        fl.length ≤ fl'.length + 3 ∧ walk k'.mem r v = some (paddr ||| pteFlags) ∧
        ∀ {x u}, x ∈ R → path u ∈ userPaths → ¬ (x = r ∧ vpage u = vpage v) →
          walk k'.mem x u = walk k.mem x u := by
  rcases mapPage_spec prefixClosed_userPaths h hr hcr3 hv (path_maximal_below 510 v) paddr with
    hnone | ⟨k', fl', t, hsome, hext, hlen, ht, hleaf⟩
  · exact Or.inl hnone
  refine Or.inr ⟨k', fl', hsome, hext, hlen, ?_, ?_⟩
  · exact (hleaf hr hv (path_maximal_below 510 v)).trans (if_pos ⟨ht, rfl⟩)
  · intro x u hx hu hne
    refine (hleaf hx hu (path_maximal_below 510 u)).trans (if_neg ?_)
    rintro ⟨ht', hslot⟩
    obtain ⟨rfl, hpath⟩ := (table_eq_iff hext.paging (hext.separate hsep).1 hr hv ht hx hu).1 ht'
    exact hne ⟨rfl, same_page_iff.1 ⟨hpath, hslot⟩⟩

/-- Up to its last step the handler takes a frame off the free list and copies the shared one
into it. -/
theorem pgFaultHandler_eq {f : Nat} (h : Paging userPaths R k (f :: fl)) (hr : r ∈ R)
    (hcr3 : k.cr3.toNat = 4096 * r) (hnull : Fresh pte (entry k.mem) userPaths R 0)
    (hdirect : DirectMapped k) {v e : UInt64} (hv : path v ∈ userPaths)
    (hw : walk k.mem r v = some e) (hcow : e &&& pteCow ≠ 0) (hg : pte.target e ≠ f) :
    ∃ ef, pte.target ef = f ∧ pgFaultHandler v k =
      mapProcess (v / 4096 * 4096) ef { k.pop with mem := copyPage k.mem f (pte.target e) } := by
  have hphy : phyAddr v k = some e := phyAddr_of_walk hcr3 hr hnull hv hw
  obtain ⟨temp, halloc, htemp, -⟩ := h.free.pageAllocAddr_cons
  obtain ⟨htpath, ef, hwf, hef⟩ := hdirect temp k.pop ((kmalloc_page k).trans halloc)
  rw [root_eq hcr3] at hwf
  replace hef : pte.target ef = f := by omega
  have haddr : getAddress temp = temp := by
    refine UInt64.toNat_inj.1 ?_
    rw [getAddress_toNat]
    show 4096 * (temp.toNat / 4096) = temp.toNat
    omega
  have hphy' : phyAddr temp k.pop = some ef :=
    phyAddr_of_walk (k := k.pop) hcr3 hr hnull htpath hwf
  have hfresh : Fresh pte (entry k.mem) userPaths R f := h.fresh f (by simp)
  have hbpage : vpage (v / 4096 * 4096) = vpage v := vpage_pageBase v
  have hbpath := path_pageBase hv
  -- The copy stays inside the new frame, so every translation stays as it is.
  have hstable : ∀ m, OnlyFrame k.pop.mem m f →
      walk m k.pop.root temp = some ef ∧ walk m k.pop.root (v / 4096 * 4096) = some e := by
    intro m hm
    have hroot : k.pop.root = r := root_eq hcr3
    rw [hroot, walk_onlyFrame prefixClosed_userPaths hfresh hm hr htpath,
      walk_onlyFrame prefixClosed_userPaths hfresh hm hr hbpath, walk_congr _ _ hbpage]
    exact ⟨hwf, hw⟩
  have hcopy := memcpy_page hstable hef rfl hg (by omega) (by rw [toNat_pageBase]; omega)
  refine ⟨ef, hef, ?_⟩
  simp only [pgFaultHandler, hphy, Option.bind_eq_bind, Option.bind_some, if_pos hcow,
    kmalloc_page, halloc, haddr, hphy', hcopy]
  rfl

/-- A fault on a copy-on-write page gives the process a frame of its own with the contents of the
shared one. The handler fails only for want of frames. -/
theorem pgFaultHandler_spec (h : Paging userPaths R k fl)
    (hsep : Separate pte (entry k.mem) userPaths R) (hr : r ∈ R) (hcr3 : k.cr3.toNat = 4096 * r)
    (hnull : Fresh pte (entry k.mem) userPaths R 0) (hdirect : DirectMapped k) {v e : UInt64}
    (hv : path v ∈ userPaths) (hw : walk k.mem r v = some e) (hcow : e &&& pteCow ≠ 0)
    (hg : pte.target e ∉ fl) :
    pgFaultHandler v k = none ∧ fl.length < 4 ∨
      ∃ k' fl' f, pgFaultHandler v k = some k' ∧ Handled R r v f (pte.target e) k k' fl fl' := by
  have hS := prefixClosed_userPaths
  cases fl with
  | nil =>
    refine Or.inl ⟨?_, by simp⟩
    simp only [pgFaultHandler, phyAddr_of_walk hcr3 hr hnull hv hw, Option.bind_eq_bind,
      Option.bind_some, if_pos hcow, kmalloc_page, h.free.pageAllocAddr_nil, Option.bind_none]
  | cons f fl =>
    have hgf : pte.target e ≠ f := fun hgf => hg (by simp [hgf])
    obtain ⟨ef, hef, hrun⟩ := pgFaultHandler_eq h hr hcr3 hnull hdirect hv hw hcow hgf
    obtain ⟨-, -, -, hfree⟩ := h.free.pageAllocAddr_cons
    obtain ⟨hf, -⟩ := List.nodup_cons.1 h.free.nodup
    have hfresh : Fresh pte (entry k.mem) userPaths R f := h.fresh f (by simp)
    have hbpage : vpage (v / 4096 * 4096) = vpage v := vpage_pageBase v
    have hbpath := path_pageBase hv
    set k₁ : Kernel := { k.pop with mem := copyPage k.mem f (pte.target e) } with hk₁
    have honly : OnlyFrame k.mem k₁.mem f := onlyFrame_copyPage _ _ _
    have hpop : Paging userPaths R k.pop fl :=
      ⟨h.forest, hfree, fun g hg => h.fresh g (by simp [hg]), fun g hg => h.blank g (by simp [hg])⟩
    have hpag₁ : Paging userPaths R k₁ fl := hpop.onlyFrame hS hfresh hf honly
    have hsep₁ : Separate pte (entry k₁.mem) userPaths R :=
      separate_onlyFrame hS hsep hfresh honly
    rw [hrun]
    rcases remap_spec hpag₁ hsep₁ hr hcr3 hbpath ef with
      ⟨hnone, hfew⟩ | ⟨k', fl', hsome, hext, hlen, hmapped, hothers⟩
    · refine Or.inl ⟨hnone, ?_⟩
      rw [List.length_cons]
      omega
    have hfresh₁ : ∀ {g}, Fresh pte (entry k.mem) userPaths R g →
        Fresh pte (entry k₁.mem) userPaths R g := fresh_onlyFrame hS hfresh honly
    refine Or.inr ⟨k', fl', f, hsome, hext.paging, (hext.separate hsep₁).1,
      hext.suffix.trans (List.suffix_cons f fl), ?_, ⟨by simp, ?_⟩,
      hext.keeps_fresh (hfresh₁ hfresh) hf, ⟨ef ||| pteFlags, ?_, ?_, ?_⟩, ?_, ?_, ?_, ?_⟩
    · rw [List.length_cons]
      omega
    · intro hf'
      exact hf (hext.suffix.subset hf')
    · rw [← walk_congr _ _ hbpage]
      exact hmapped
    · rw [target_or ef (by decide), hef]
    · exact or_and_ne_zero (by decide)
    · intro x u hx hu hne
      rw [hothers hx hu (by rwa [hbpage]), walk_onlyFrame hS hfresh honly hx hu]
    · intro o ho
      have hsame := hext.data (hfresh₁ hfresh) hf (4096 * f + o) (by omega)
      have hdiv : (4096 * f + o) / 4096 = f := by omega
      have hmod : (4096 * f + o) % 4096 = o := by omega
      rw [hsame]
      show copyPage k.mem f (pte.target e) (4096 * f + o) = _
      rw [copyPage, if_pos hdiv, hmod]
    · intro g hg hgf
      have hgne : g ≠ f := fun hgf' => hgf (by simp [hgf'])
      have hgfl : g ∉ fl := fun hgfl => hgf (by simp [hgfl])
      exact ⟨(honly g hgne).trans (hext.data (hfresh₁ hg) hgfl),
        hext.keeps_fresh (hfresh₁ hg) hgfl⟩
    · exact hext.cr3

end Handler

end Sbunix
