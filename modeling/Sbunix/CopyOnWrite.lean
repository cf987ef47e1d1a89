import Sbunix.PageFault
import Sbunix.Lib.Run

/-!
# Copy-on-write isolation

The system of processes that fork and write. A process is the address of its PML4; a fork runs
`copy_page_tables_forchild` under the parent's `CR3`, and a user write to a page without `PTE_W`
runs the fault handler under the writer's `CR3` first. What the processes are meant to see is
said without any tables: every process has a view, a fork copies the view of the parent, and a
write changes the view of the writer.

`CowInv` is the invariant over all processes at once: the tables of all processes are disjoint
trees, every user page of every process is mapped to a frame that is neither a table nor free,
and a frame that one page of one process can write to is mapped at no other page or process. Forks
(`CowInv.fork`), faults (`CowInv.fault`) and stores (`CowInv.store`) keep it together with the
views, so that every run does (`copy_on_write_isolation`).
-/

namespace Sbunix

open Lib Lib.Radix

/-! ## Processes and their views -/

/-- The machine, and the PML4 of every process in the order of their creation. -/
structure World where
  kernel : Kernel
  procs : List UInt64

/-- A fork of the `i`-th process, or a byte written by it. -/
inductive ProcOp where
  | fork (i : Nat)
  | write (i : Nat) (v : UInt64) (b : UInt8)

/-- One operation, under the `CR3` of the process that performs it. -/
def procStep (w : World) : ProcOp → Option World
  | .fork i => do
    let cr3 ← w.procs[i]?
    let (child, k) ← forkSpace (setCR3 cr3 w.kernel)
    some ⟨k, w.procs ++ [child]⟩
  | .write i v b => do
    let cr3 ← w.procs[i]?
    let k ← userWrite v b (setCR3 cr3 w.kernel)
    some ⟨k, w.procs⟩

/-- What the `i`-th process reads at an address. -/
def World.read (w : World) (i : Nat) (v : UInt64) : Option UInt8 := do
  let cr3 ← w.procs[i]?
  loadByte v (setCR3 cr3 w.kernel)

/-- The contents of an address space, as its process sees it. -/
abbrev View := UInt64 → Option UInt8

/-- A view after a write. Addresses are compared by their 48 translated bits. -/
def View.write (v : UInt64) (b : UInt8) (view : View) : View := fun u =>
  if u.toNat % 2 ^ 48 = v.toNat % 2 ^ 48 then some b else view u

/-- A child starts with the view of its parent, and a write changes the view of the writer. -/
def viewStep (views : List View) : ProcOp → List View
  | .fork i => views ++ views[i]?.toList
  | .write i v b => views.modify i (View.write v b)

/-- The addresses of the user pages: mapped, below PML4 entry 510 and outside the pages `K` of the
kernel. -/
def userPages (K : Set Nat) (k : Kernel) : Set UInt64 :=
  {v | (walk k.mem k.root v).isSome ∧ (slot (getPML4Index v)).val < 510 ∧ vpage v ∉ K}

/-- User writes go to user pages, and the frame that the handler gets is direct-mapped in the
faulting address space. -/
def Assumed (U : Set UInt64) (w : World) : ProcOp → Prop
  | .fork _ => True
  | .write i v _ => v ∈ U ∧ ∀ cr3, w.procs[i]? = some cr3 →
      writable v (setCR3 cr3 w.kernel) = false → DirectMapped (setCR3 cr3 w.kernel)

/-! ## The invariant -/

/-- The frames of the PML4s. -/
def roots (procs : List UInt64) : Set Nat := {r | ∃ a ∈ procs, a.toNat = 4096 * r}

/-- The entry of an address in the address space with PML4 `cr3`. -/
abbrev walkIn (k : Kernel) (cr3 v : UInt64) : Option UInt64 := walk k.mem (cr3.toNat / 4096) v

/-- The processes `procs`, with the user addresses `U` and the free frames `fl`, see the views
`views`. -/
structure CowInv (U : Set UInt64) (fl : List Nat) (k : Kernel) (procs : List UInt64)
    (views : List View) : Prop where
  paging : Paging userPaths (roots procs) k fl
  separate : Separate pte (entry k.mem) userPaths (roots procs)
  null : Fresh pte (entry k.mem) userPaths (roots procs) 0
  null_free : 0 ∉ fl
  nodup : procs.Nodup
  aligned : ∀ a ∈ procs, a.toNat % 4096 = 0
  mapped : ∀ a ∈ procs, ∀ v ∈ U, ∃ e, walkIn k a v = some e ∧
    Fresh pte (entry k.mem) userPaths (roots procs) (pte.target e) ∧ pte.target e ∉ fl ∧
    (e &&& pteW = 0 → e &&& pteCow ≠ 0)
  exclusive : ∀ {a b v u e e'}, a ∈ procs → b ∈ procs → v ∈ U → u ∈ U → walkIn k a v = some e →
    e &&& pteW ≠ 0 → walkIn k b u = some e' → pte.target e' = pte.target e →
      b = a ∧ vpage u = vpage v
  length : views.length = procs.length
  value : ∀ {i : Nat} {a : UInt64} {view : View}, procs[i]? = some a → views[i]? = some view →
    ∀ v ∈ U, loadByte v (setCR3 a k) = view v

section

variable {U : Set UInt64} {fl fl' : List Nat} {k k' : Kernel} {procs : List UInt64}
  {views : List View} {a b v u e : UInt64}

theorem loadByte_of_walk (h : walkIn k a v = some e) :
    loadByte v (setCR3 a k) = some (k.mem (4096 * pte.target e + v.toNat % 4096)) := by
  rw [loadByte, translate_of_walk (k := setCR3 a k) h]
  rfl

theorem loadByte_congr {a' e' : UInt64} (h : walkIn k a v = some e)
    (h' : walkIn k' a' v = some e') (ht : pte.target e' = pte.target e)
    (hsame : SamePage k.mem k'.mem (pte.target e)) :
    loadByte v (setCR3 a' k') = loadByte v (setCR3 a k) := by
  rw [loadByte_of_walk h, loadByte_of_walk h', ht, hsame _ (by omega)]

/-- The address space that `b` is a copy of, when `child` was forked from `parent`. -/
def origin (parent child b : UInt64) : UInt64 := if b = child then parent else b

theorem origin_child (parent child : UInt64) : origin parent child child = parent := if_pos rfl

theorem origin_of_ne {parent child : UInt64} (h : b ≠ child) : origin parent child b = b := if_neg h

theorem eq_origin {parent child : UInt64} (h : origin parent child b ≠ parent) :
    b = origin parent child b := by
  by_cases hbc : b = child
  · exact absurd (if_pos hbc) h
  · exact (if_neg hbc).symm

theorem origin_mem {child : UInt64} (ha : a ∈ procs) (hb : b ∈ procs ++ [child]) :
    origin a child b ∈ procs := by
  by_cases hbc : b = child
  · rw [hbc, origin_child]
    exact ha
  · rw [origin_of_ne hbc]
    exact (List.mem_append.1 hb).resolve_right fun h => hbc (by simpa using h)

theorem roots_append (procs : List UInt64) {child : UInt64} {c : Nat}
    (hchild : child.toNat = 4096 * c) : roots (procs ++ [child]) = insert c (roots procs) := by
  ext r
  constructor
  · rintro ⟨b, hb, hr⟩
    rcases List.mem_append.1 hb with hb | hb
    · exact Or.inr ⟨b, hb, hr⟩
    · obtain rfl : b = child := by simpa using hb
      exact Or.inl (by omega)
  · rintro (rfl | ⟨b, hb, hr⟩)
    · exact ⟨child, by simp, hchild⟩
    · exact ⟨b, by simp [hb], hr⟩

namespace CowInv

variable (hinv : CowInv U fl k procs views)
include hinv

theorem cr3_eq (ha : a ∈ procs) : a.toNat = 4096 * (a.toNat / 4096) := by
  have := hinv.aligned a ha
  omega

theorem root_mem (ha : a ∈ procs) : a.toNat / 4096 ∈ roots procs := ⟨a, ha, hinv.cr3_eq ha⟩

theorem root_inj (ha : a ∈ procs) (hb : b ∈ procs) (h : a.toNat / 4096 = b.toNat / 4096) :
    a = b := by
  refine UInt64.toNat_inj.1 ?_
  rw [hinv.cr3_eq ha, hinv.cr3_eq hb, h]

/-! ## A store -/

/-- The byte behind a writable entry belongs to one address of one process. -/
theorem sameByte_iff {b u e₁ : UInt64} (ha : a ∈ procs) (hb : b ∈ procs) (hv : v ∈ U) (hu : u ∈ U)
    (hw : walkIn k a v = some e) (hW : e &&& pteW ≠ 0) (h₁ : walkIn k b u = some e₁) :
    4096 * pte.target e₁ + u.toNat % 4096 = 4096 * pte.target e + v.toNat % 4096 ↔
      b = a ∧ u.toNat % 2 ^ 48 = v.toNat % 2 ^ 48 := by
  constructor
  · intro hx
    have htarget : pte.target e₁ = pte.target e := by omega
    obtain ⟨rfl, hpage⟩ := hinv.exclusive ha hb hv hu hw hW h₁ htarget
    refine ⟨rfl, ?_⟩
    unfold vpage at hpage
    omega
  · rintro ⟨rfl, heq⟩
    have hpage : vpage u = vpage v := by rw [vpage, vpage, heq]
    have hwu : walkIn k b u = walkIn k b v := walk_congr _ _ hpage
    obtain rfl : e₁ = e := Option.some.inj ((h₁.symm.trans hwu).trans hw)
    omega

/-- A store through a writable entry changes the view of one process. -/
theorem store {i : Nat} (hi : procs[i]? = some a) (hv : v ∈ U) (hU : ∀ u ∈ U, path u ∈ userPaths)
    (hw : walkIn k a v = some e) (hW : e &&& pteW ≠ 0) (byte : UInt8) :
    CowInv U fl { k with mem := write8 k.mem (4096 * pte.target e + v.toNat % 4096) byte } procs
      (views.modify i (View.write v byte)) := by
  have hS := prefixClosed_userPaths
  have ha : a ∈ procs := List.mem_of_getElem? hi
  obtain ⟨e', hw', hfresh, hfl, -⟩ := hinv.mapped a ha v hv
  obtain rfl : e' = e := Option.some.inj (hw'.symm.trans hw)
  set x := 4096 * pte.target e' + v.toNat % 4096 with hx
  have honly : OnlyFrame k.mem (write8 k.mem x byte) (pte.target e') :=
    onlyFrame_write8 byte (by omega)
  have hwalk : ∀ {b u}, b ∈ procs → u ∈ U →
      walk (write8 k.mem x byte) (b.toNat / 4096) u = walkIn k b u := fun hb hu =>
    walk_onlyFrame hS hfresh honly (hinv.root_mem hb) (hU _ hu)
  refine ⟨hinv.paging.onlyFrame hS hfresh hfl honly,
    separate_onlyFrame hS hinv.separate hfresh honly, fresh_onlyFrame hS hfresh honly hinv.null,
    hinv.null_free, hinv.nodup, hinv.aligned, ?_, ?_, ?_, ?_⟩
  · intro b hb u hu
    obtain ⟨e₁, h₁, hfresh₁, hrest⟩ := hinv.mapped b hb u hu
    exact ⟨e₁, (hwalk hb hu).trans h₁, fresh_onlyFrame hS hfresh honly hfresh₁, hrest⟩
  · intro b c u u' e₁ e₂ hb hc hu hu' h₁ hW₁ h₂
    exact hinv.exclusive hb hc hu hu' ((hwalk hb hu).symm.trans h₁) hW₁
      ((hwalk hc hu').symm.trans h₂)
  · rw [List.length_modify, hinv.length]
  · intro j b view hj hview u hu
    have hb : b ∈ procs := List.mem_of_getElem? hj
    obtain ⟨e₁, h₁, -, -, -⟩ := hinv.mapped b hb u hu
    have hload : loadByte u (setCR3 b { k with mem := write8 k.mem x byte }) =
        some (write8 k.mem x byte (4096 * pte.target e₁ + u.toNat % 4096)) :=
      loadByte_of_walk ((hwalk hb hu).trans h₁)
    rw [hload]
    rw [List.getElem?_modify] at hview
    obtain ⟨old, hold, hview⟩ := Option.map_eq_some_iff.1 hview
    have hval := hinv.value hj hold u hu
    rw [loadByte_of_walk h₁] at hval
    have hbyte := hinv.sameByte_iff ha hb hv hu hw hW h₁
    by_cases hij : i = j
    · subst hij
      obtain rfl : b = a := Option.some.inj (hj.symm.trans hi)
      rw [if_pos rfl] at hview
      rw [← hview, View.write]
      by_cases hoff : u.toNat % 2 ^ 48 = v.toNat % 2 ^ 48
      · rw [if_pos hoff, hbyte.2 ⟨rfl, hoff⟩, write8, Function.update_self]
      · rw [if_neg hoff, ← hval, write8, Function.update_of_ne fun h => hoff (hbyte.1 h).2]
    · have hab : b ≠ a := fun hba => hij ((List.getElem?_inj (List.getElem?_eq_some_iff.1 hi).1
        hinv.nodup).1 (hi.trans (hba ▸ hj.symm)))
      rw [if_neg hij] at hview
      rw [← hview, ← hval, write8, Function.update_of_ne fun h => hab (hbyte.1 h).1]

/-! ## A fault -/

/-- The handler changes the frame of one page of one process, and no view. -/
theorem fault {f : Nat} (ha : a ∈ procs) (hU : ∀ u ∈ U, path u ∈ userPaths)
    (hw : walkIn k a v = some e)
    (hh : Handled (roots procs) (a.toNat / 4096) v f (pte.target e) k k' fl fl') :
    CowInv U fl' k' procs views := by
  obtain ⟨ef, hwf, hef, hefW⟩ := hh.mapped
  have hnull := hh.data hinv.null hinv.null_free
  -- The faulting page has the new frame, every other page the entry it had.
  have hwalk : ∀ {b u}, b ∈ procs → u ∈ U →
      b = a ∧ vpage u = vpage v ∧ walkIn k' b u = some ef ∨
        ¬ (b = a ∧ vpage u = vpage v) ∧ walkIn k' b u = walkIn k b u := by
    intro b u hb hu
    by_cases hbu : b = a ∧ vpage u = vpage v
    · obtain ⟨rfl, hpage⟩ := hbu
      exact Or.inl ⟨rfl, hpage, (walk_congr _ _ hpage).trans hwf⟩
    · refine Or.inr ⟨hbu, hh.others (hinv.root_mem hb) (hU u hu) fun h => hbu ?_⟩
      exact ⟨hinv.root_inj hb ha h.1, h.2⟩
  have hold : ∀ {b u e₁}, b ∈ procs → u ∈ U → walkIn k b u = some e₁ → pte.target e₁ ≠ f := by
    intro b u e₁ hb hu h₁ hf
    obtain ⟨e₂, h₂, -, hfl, -⟩ := hinv.mapped b hb u hu
    obtain rfl : e₂ = e₁ := Option.some.inj (h₂.symm.trans h₁)
    exact hfl (hf ▸ hh.taken.1)
  refine ⟨hh.paging, hh.separate, hnull.2, fun h0 => hinv.null_free (hh.suffix.subset h0),
    hinv.nodup, hinv.aligned, ?_, ?_, hinv.length, ?_⟩
  · intro b hb u hu
    rcases hwalk hb hu with ⟨-, -, hnew⟩ | ⟨-, hkept⟩
    · exact ⟨ef, hnew, hef ▸ hh.fresh, hef ▸ hh.taken.2, fun h0 => absurd h0 hefW⟩
    · obtain ⟨e₁, h₁, hfresh₁, hfl₁, hcow⟩ := hinv.mapped b hb u hu
      exact ⟨e₁, hkept.trans h₁, (hh.data hfresh₁ hfl₁).2,
        fun hfl' => hfl₁ (hh.suffix.subset hfl'), hcow⟩
  · intro b c u u' e₁ e₂ hb hc hu hu' h₁ hW h₂ htarget
    rcases hwalk hb hu with ⟨rfl, hpage, hnew⟩ | ⟨-, hkept⟩ <;>
      rcases hwalk hc hu' with ⟨rfl, hpage', hnew'⟩ | ⟨-, hkept'⟩
    · exact ⟨rfl, hpage'.trans hpage.symm⟩
    · obtain rfl : ef = e₁ := Option.some.inj (hnew.symm.trans h₁)
      exact absurd (htarget.trans hef) (hold hc hu' (hkept'.symm.trans h₂))
    · obtain rfl : ef = e₂ := Option.some.inj (hnew'.symm.trans h₂)
      exact absurd (htarget.symm.trans hef) (hold hb hu (hkept.symm.trans h₁))
    · exact hinv.exclusive hb hc hu hu' (hkept.symm.trans h₁) hW (hkept'.symm.trans h₂) htarget
  · intro i b view hi hview u hu
    have hb : b ∈ procs := List.mem_of_getElem? hi
    rw [← hinv.value hi hview u hu]
    rcases hwalk hb hu with ⟨rfl, hpage, hnew⟩ | ⟨-, hkept⟩
    · have hwu : walkIn k b u = some e := (walk_congr _ _ hpage).trans hw
      rw [loadByte_of_walk hnew, loadByte_of_walk hwu, hef,
        hh.contents _ (Nat.mod_lt _ (by decide))]
    · obtain ⟨e₁, h₁, hfresh₁, hfl₁, -⟩ := hinv.mapped b hb u hu
      exact loadByte_congr h₁ (hkept.trans h₁) rfl (hh.data hfresh₁ hfl₁).1

/-! ## A fork -/

theorem fork_data {r c : Nat} (hf : Forked (roots procs) r c k k' fl fl') (hb : b ∈ procs)
    (hu : u ∈ U) (hw : walkIn k b u = some e) : SamePage k.mem k'.mem (pte.target e) ∧
      Fresh pte (entry k'.mem) userPaths (insert c (roots procs)) (pte.target e) ∧
      pte.target e ∉ fl' := by
  obtain ⟨e', hw', hfresh, hfl, -⟩ := hinv.mapped b hb u hu
  obtain rfl : e' = e := Option.some.inj (hw'.symm.trans hw)
  exact ⟨(hf.data hfresh hfl).1, (hf.data hfresh hfl).2, fun h => hfl (hf.suffix.subset h)⟩

/-- After a fork every address space is that of its origin, with the entries of the parent and of
the child marked. -/
theorem forked_walk {child : UInt64} {c : Nat} (ha : a ∈ procs) (hchild : child.toNat = 4096 * c)
    (hf : Forked (roots procs) (a.toNat / 4096) c k k' fl fl') (hb : b ∈ procs ++ [child])
    (hu : path u ∈ userPaths) :
    origin a child b = a ∧ walkIn k' b u = (walkIn k a u).map cowEntry ∨
      origin a child b = b ∧ b ≠ a ∧ walkIn k' b u = walkIn k b u := by
  obtain ⟨hcopy, hparent⟩ := hf.copied hu rfl (ptSlot u)
  by_cases hbc : b = child
  · have hc : b.toNat / 4096 = c := by
      rw [hbc]
      omega
    refine Or.inl ⟨hbc ▸ origin_child a child, ?_⟩
    rw [walkIn, hc]
    exact hcopy
  · by_cases hba : b = a
    · refine Or.inl ⟨(origin_of_ne hbc).trans hba, ?_⟩
      rw [hba]
      exact hparent
    · have hb' : b ∈ procs := (List.mem_append.1 hb).resolve_right fun h => hbc (by simpa using h)
      exact Or.inr ⟨origin_of_ne hbc, hba, hf.others (hinv.root_mem hb')
        (fun h => hba (hinv.root_inj hb' ha h)) hu rfl _⟩

/-- After a fork an address space maps what its origin mapped. The parent and the child lose
`PTE_W`. -/
theorem fork_walk {child : UInt64} {c : Nat} (ha : a ∈ procs)
    (hU : ∀ u ∈ U, path u ∈ userPaths) (hchild : child.toNat = 4096 * c)
    (hf : Forked (roots procs) (a.toNat / 4096) c k k' fl fl') (hb : b ∈ procs ++ [child])
    (hu : u ∈ U) : ∃ e₁ e₂, walkIn k (origin a child b) u = some e₁ ∧ walkIn k' b u = some e₂ ∧
      pte.target e₂ = pte.target e₁ ∧ (e₂ &&& pteW = 0 → e₂ &&& pteCow ≠ 0) ∧
      (e₂ &&& pteW ≠ 0 → origin a child b ≠ a ∧ e₁ &&& pteW ≠ 0) := by
  obtain ⟨e₁, h₁, -, -, hcow⟩ := hinv.mapped _ (origin_mem ha hb) u hu
  rcases hinv.forked_walk ha hchild hf hb (hU u hu) with ⟨ho, hk'⟩ | ⟨ho, hba, hk'⟩
  · rw [ho] at h₁ ⊢
    refine ⟨e₁, cowEntry e₁, h₁, ?_, target_cowEntry e₁, fun _ => cow_cowEntry e₁,
      fun hW => absurd (not_writable_cowEntry e₁) hW⟩
    rw [hk', h₁, Option.map_some]
  · rw [ho] at h₁ ⊢
    exact ⟨e₁, e₁, h₁, hk'.trans h₁, rfl, hcow, fun hW => ⟨hba, hW⟩⟩

/-- The child of a fork starts with the view of its parent. -/
theorem fork {child : UInt64} {c i : Nat} (hi : procs[i]? = some a)
    (hU : ∀ u ∈ U, path u ∈ userPaths) (hchild : child.toNat = 4096 * c)
    (hf : Forked (roots procs) (a.toNat / 4096) c k k' fl fl') :
    CowInv U fl' k' (procs ++ [child]) (views ++ views[i]?.toList) := by
  have ha : a ∈ procs := List.mem_of_getElem? hi
  have hroots := roots_append procs hchild
  have hcR : c ∉ roots procs := fun hmem =>
    ((hinv.paging.fresh c hf.mem).ne prefixClosed_userPaths hmem) rfl
  have hnew : child ∉ procs := fun hmem => hcR ⟨child, hmem, hchild⟩
  have hmem : ∀ {b}, b ∈ procs ++ [child] → origin a child b ∈ procs := fun hb => origin_mem ha hb
  refine ⟨hroots ▸ hf.paging, hroots ▸ hf.separate, ?_, ?_, ?_, ?_, ?_, ?_, ?_, ?_⟩
  · rw [hroots]
    exact (hf.data hinv.null hinv.null_free).2
  · exact fun h0 => hinv.null_free (hf.suffix.subset h0)
  · refine List.nodup_append.2 ⟨hinv.nodup, by simp, fun b hb b' hb' hbb' => hnew ?_⟩
    obtain rfl : b' = child := by simpa using hb'
    exact hbb' ▸ hb
  · intro b hb
    rcases List.mem_append.1 hb with hb | hb
    · exact hinv.aligned b hb
    · obtain rfl : b = child := by simpa using hb
      omega
  · intro b hb u hu
    obtain ⟨e₁, e₂, h₁, h₂, htarget, hcow, -⟩ := hinv.fork_walk ha hU hchild hf hb hu
    obtain ⟨-, hfresh, hfl⟩ := hinv.fork_data hf (hmem hb) hu h₁
    rw [hroots]
    exact ⟨e₂, h₂, htarget ▸ hfresh, htarget ▸ hfl, hcow⟩
  · intro b b' u u' e₂ e₂' hb hb' hu hu' h₂ hW h₂' htarget
    obtain ⟨e₁, e₃, h₁, h₃, ht, -, hW'⟩ := hinv.fork_walk ha hU hchild hf hb hu
    obtain ⟨e₁', e₃', h₁', h₃', ht', -, -⟩ := hinv.fork_walk ha hU hchild hf hb' hu'
    obtain rfl : e₃ = e₂ := Option.some.inj (h₃.symm.trans h₂)
    obtain rfl : e₃' = e₂' := Option.some.inj (h₃'.symm.trans h₂')
    obtain ⟨hne, hW₁⟩ := hW' hW
    obtain ⟨hbb', hpage⟩ := hinv.exclusive (hmem hb) (hmem hb') hu hu' h₁ hW₁ h₁'
      (ht'.symm.trans (htarget.trans ht))
    exact ⟨(eq_origin (hbb' ▸ hne)).trans (hbb'.trans (eq_origin hne).symm), hpage⟩
  · rw [List.length_append, List.length_append, hinv.length,
      List.getElem?_eq_getElem (hinv.length ▸ (List.getElem?_eq_some_iff.1 hi).1)]
    rfl
  · intro j b view hj hview u hu
    have hb : b ∈ procs ++ [child] := List.mem_of_getElem? hj
    obtain ⟨e₁, e₂, h₁, h₂, htarget, -, -⟩ := hinv.fork_walk ha hU hchild hf hb hu
    obtain ⟨hsame, -, -⟩ := hinv.fork_data hf (hmem hb) hu h₁
    rw [loadByte_congr h₁ h₂ htarget hsame]
    by_cases hlt : j < procs.length
    · rw [List.getElem?_append_left hlt] at hj
      rw [List.getElem?_append_left (hinv.length ▸ hlt)] at hview
      have hbc : b ≠ child := fun hbc => hnew (hbc ▸ List.mem_of_getElem? hj)
      rw [origin_of_ne hbc]
      exact hinv.value hj hview u hu
    · have hlt' : ¬ j < views.length := hinv.length ▸ hlt
      rw [List.getElem?_append_right (by omega)] at hj hview
      obtain rfl : b = child := by simpa using List.mem_of_getElem? hj
      have hview' : views[i]? = some view := by simpa using List.mem_of_getElem? hview
      rw [origin_child]
      exact hinv.value hi hview' u hu

/-! ## The operations -/

theorem setCR3 (cr3 : UInt64) : CowInv U fl (setCR3 cr3 k) procs views :=
  ⟨⟨hinv.paging.forest, hinv.paging.free, hinv.paging.fresh, hinv.paging.blank⟩, hinv.separate,
    hinv.null, hinv.null_free, hinv.nodup, hinv.aligned, hinv.mapped, hinv.exclusive, hinv.length,
    hinv.value⟩

theorem storeByte {i : Nat} (hi : procs[i]? = some a) (hv : v ∈ U)
    (hU : ∀ u ∈ U, path u ∈ userPaths) (hcr3 : k.cr3 = a) (hwr : writable v k = true)
    (byte : UInt8) : ∃ k', Sbunix.storeByte v byte k = some k' ∧
      CowInv U fl k' procs (views.modify i (View.write v byte)) ∧
      ∀ b ∈ procs, ∀ u, path u ∈ userPaths → walkIn k' b u = walkIn k b u := by
  obtain ⟨e, hw, hfresh, -⟩ := hinv.mapped a (List.mem_of_getElem? hi) v hv
  have hw' : walk k.mem k.root v = some e := by
    rw [Kernel.root, hcr3]
    exact hw
  have hW : e &&& pteW ≠ 0 := by simpa [writable, hw'] using hwr
  refine ⟨_, ?_, hinv.store hi hv hU hw hW byte, ?_⟩
  · rw [Sbunix.storeByte, translate_of_walk hw', Option.map_some]
  · intro b hb u hu
    exact walk_onlyFrame prefixClosed_userPaths hfresh (onlyFrame_write8 byte (by omega))
      (hinv.root_mem hb) hu

/-- A user write fails only for want of frames. -/
theorem userWrite_spec {i : Nat} (hi : procs[i]? = some a) (hv : v ∈ U)
    (hU : ∀ u ∈ U, path u ∈ userPaths) (hcr3 : k.cr3 = a)
    (hdirect : writable v k = false → DirectMapped k) (byte : UInt8) :
    userWrite v byte k = none ∧ fl.length < 4 ∨
      ∃ k' fl', userWrite v byte k = some k' ∧ fl' <:+ fl ∧ fl.length ≤ fl'.length + 4 ∧
        CowInv U fl' k' procs (views.modify i (View.write v byte)) ∧
        ∀ b ∈ procs, ∀ u, path u ∈ userPaths → vpage u ≠ vpage v →
          walkIn k' b u = walkIn k b u := by
  have ha : a ∈ procs := List.mem_of_getElem? hi
  obtain ⟨e, hw, hfresh, hfl, hcow⟩ := hinv.mapped a ha v hv
  by_cases hwr : writable v k = true
  · obtain ⟨k', hsome, hinv', hwalk⟩ := hinv.storeByte hi hv hU hcr3 hwr byte
    refine Or.inr ⟨k', fl, ?_, List.suffix_rfl, by omega, hinv', fun b hb u hu _ => hwalk b hb u hu⟩
    simp only [userWrite, hwr, if_true, Option.bind_eq_bind, Option.bind_some, hsome]
  · have hroot : k.root = a.toNat / 4096 := by rw [Kernel.root, hcr3]
    have hW : e &&& pteW = 0 := by
      simp only [writable, hroot, hw, Option.any_some, Bool.not_eq_true] at hwr
      simpa using hwr
    have hcr3' : k.cr3.toNat = 4096 * (a.toNat / 4096) := by
      rw [hcr3]
      exact hinv.cr3_eq ha
    have hdir := hdirect (by simpa using hwr)
    have hstart : userWrite v byte k = (pgFaultHandler v k).bind fun k =>
        if writable v k then Sbunix.storeByte v byte k else none := by
      simp only [userWrite, hwr, Bool.false_eq_true, if_false, Option.bind_eq_bind]
    rw [hstart]
    rcases pgFaultHandler_spec hinv.paging hinv.separate (hinv.root_mem ha) hcr3' hinv.null hdir
      (hU v hv) hw (hcow hW) hfl with ⟨hnone, hfew⟩ | ⟨k₁, fl₁, f, hsome₁, hh⟩
    · exact Or.inl ⟨by rw [hnone, Option.bind_none], hfew⟩
    have hinv₁ := hinv.fault ha hU hw hh
    have hcr3₁ : k₁.cr3 = a := hh.cr3.trans hcr3
    have hwr₁ : writable v k₁ = true := by
      obtain ⟨ef, hwf, -, hWf⟩ := hh.mapped
      have hroot₁ : k₁.root = a.toNat / 4096 := by rw [Kernel.root, hcr3₁]
      simp only [writable, hroot₁, hwf, Option.any_some]
      simpa using hWf
    obtain ⟨k', hsome, hinv', hwalk⟩ := hinv₁.storeByte hi hv hU hcr3₁ hwr₁ byte
    refine Or.inr ⟨k', fl₁, ?_, hh.suffix, hh.count, hinv', ?_⟩
    · rw [hsome₁, Option.bind_some, if_pos hwr₁, hsome]
    · intro b hb u hu hpage
      rw [hwalk b hb u hu]
      exact hh.others (hinv.root_mem hb) hu fun h => hpage h.2

/-- **One operation.** It keeps the invariant, and the views change as they should. -/
theorem procStep {w w' : World} {op : ProcOp} (hU : ∀ u ∈ U, path u ∈ userPaths)
    (hw : w.kernel = k ∧ w.procs = procs) (hok : Assumed U w op)
    (hstep : Sbunix.procStep w op = some w') :
    ∃ fl', CowInv U fl' w'.kernel w'.procs (viewStep views op) := by
  obtain ⟨rfl, rfl⟩ := hw
  cases op with
  | fork i =>
    simp only [Sbunix.procStep, Option.bind_eq_bind, Option.bind_eq_some_iff] at hstep
    obtain ⟨a, hi, ⟨child, k'⟩, hfork, hw'⟩ := hstep
    obtain rfl := Option.some.inj hw'
    have ha : a ∈ w.procs := List.mem_of_getElem? hi
    have hinv' := hinv.setCR3 a
    rcases forkSpace_spec hinv'.paging hinv'.separate (hinv.root_mem ha) (hinv.cr3_eq ha) with
      ⟨hnone, -⟩ | ⟨child', c, k'', fl', hsome, hchild, hf⟩
    · exact absurd (hnone.symm.trans hfork) (by simp)
    · obtain ⟨rfl, rfl⟩ := Prod.mk.inj (Option.some.inj (hsome.symm.trans hfork))
      exact ⟨fl', hinv'.fork hi hU hchild hf⟩
  | write i v byte =>
    simp only [Sbunix.procStep, Option.bind_eq_bind, Option.bind_eq_some_iff] at hstep
    obtain ⟨a, hi, k', hwrite, hw'⟩ := hstep
    obtain rfl := Option.some.inj hw'
    rcases (hinv.setCR3 a).userWrite_spec hi hok.1 hU rfl (hok.2 a hi) byte with
      ⟨hnone, -⟩ | ⟨k'', fl', hsome, -, -, hinv', -⟩
    · exact absurd (hnone.symm.trans hwrite) (by simp)
    · obtain rfl := Option.some.inj (hsome.symm.trans hwrite)
      exact ⟨fl', hinv'⟩

end CowInv

end

/-! ## Runs -/

/-- The process that the run starts from: its tables are a tree beside the blank free frames,
no table or free frame is at address 0, which the code takes for a null pointer, and its user
pages are writable and have distinct frames that are neither tables nor free. -/
structure Parent (K : Set Nat) (k : Kernel) (r : Nat) (fl : List Nat) : Prop where
  cr3 : k.cr3.toNat = 4096 * r
  paging : Paging userPaths {r} k fl
  null : Fresh pte (entry k.mem) userPaths {r} 0
  null_free : 0 ∉ fl
  mapped : ∀ v ∈ userPages K k, ∃ e, walk k.mem r v = some e ∧ e &&& pteW ≠ 0 ∧
    Fresh pte (entry k.mem) userPaths {r} (pte.target e) ∧ pte.target e ∉ fl
  distinct : ∀ v ∈ userPages K k, ∀ u ∈ userPages K k, ∀ e e', walk k.mem r v = some e →
    walk k.mem r u = some e' → pte.target e' = pte.target e → vpage u = vpage v

section

variable {K : Set Nat} {k : Kernel} {r : Nat} {fl : List Nat}

theorem path_mem_of_userPages : ∀ v ∈ userPages K k, path v ∈ userPaths := by
  rintro v ⟨-, hv, -⟩
  refine ⟨by simp [path], ?_⟩
  intro i hi
  obtain rfl : slot (getPML4Index v) = i := by simpa [path] using hi
  exact hv

theorem Parent.cowInv (h : Parent K k r fl) :
    CowInv (userPages K k) fl k [k.cr3] [fun v => loadByte v k] := by
  have hcr3 := h.cr3
  have hr : k.cr3.toNat / 4096 = r := by omega
  have hroots : roots [k.cr3] = {r} := by
    ext x
    simp only [roots, List.mem_singleton, exists_eq_left, Set.mem_ofPred_eq, Set.mem_singleton_iff]
    omega
  have hwalk : ∀ {a v e}, a ∈ [k.cr3] → walkIn k a v = some e → walk k.mem r v = some e := by
    intro a v e ha hw
    obtain rfl : a = k.cr3 := by simpa using ha
    rwa [walkIn, hr] at hw
  refine ⟨hroots ▸ h.paging, ?_, hroots ▸ h.null, h.null_free, by simp, ?_, ?_, ?_, rfl, ?_⟩
  · rw [hroots]
    intro x y p q f hx hy _ _ _ _
    exact hx.trans hy.symm
  · intro a ha
    obtain rfl : a = k.cr3 := by simpa using ha
    omega
  · intro a ha v hv
    obtain rfl : a = k.cr3 := by simpa using ha
    obtain ⟨e, hw, hW, hfresh, hfl⟩ := h.mapped v hv
    rw [hroots, walkIn, hr]
    exact ⟨e, hw, hfresh, hfl, fun h0 => absurd h0 hW⟩
  · intro a b v u e e' ha hb hv hu hw _ hw' htarget
    have hab : b = a := by
      rw [List.mem_singleton.1 ha, List.mem_singleton.1 hb]
    exact ⟨hab, h.distinct v hv u hu e e' (hwalk ha hw) (hwalk hb hw') htarget⟩
  · intro i a view hi hview v _
    obtain rfl : a = k.cr3 := by simpa using List.mem_of_getElem? hi
    obtain rfl : view = fun v => loadByte v k := by simpa using List.mem_of_getElem? hview
    rfl

/-- **Copy-on-write isolation.** After any run of forks and user writes, each process reads its
view: what the page held when the process was forked, overlaid with its own later writes. -/
theorem copy_on_write_isolation (h : Parent K k r fl) {ops : List ProcOp} {w : World}
    (hrun : Run procStep (Assumed (userPages K k)) ⟨k, [k.cr3]⟩ ops w) :
    (ops.foldl viewStep [fun v => loadByte v k]).length = w.procs.length ∧
      ∀ i view, (ops.foldl viewStep [fun v => loadByte v k])[i]? = some view →
        ∀ v ∈ userPages K k, w.read i v = view v := by
  have hinv : ∃ fl', CowInv (userPages K k) fl' w.kernel w.procs
      (ops.foldl viewStep [fun v => loadByte v k]) := by
    refine hrun.simulation (R := fun w views => ∃ fl', CowInv (userPages K k) fl' w.kernel w.procs
      views) ?_ ⟨fl, h.cowInv⟩
    rintro w views op w' ⟨fl', hinv⟩ hok hstep
    exact hinv.procStep path_mem_of_userPages ⟨rfl, rfl⟩ hok hstep
  obtain ⟨fl', hinv⟩ := hinv
  refine ⟨hinv.length, ?_⟩
  intro i view hview v hv
  have hi : i < w.procs.length := hinv.length ▸ (List.getElem?_eq_some_iff.1 hview).1
  have hproc := List.getElem?_eq_getElem hi
  rw [World.read, hproc]
  exact hinv.value hproc hview v hv

end

/-! ## The direct map

A parent that maps every free frame at its own address, apart from the user pages, meets the
assumption on the handler in every run: forks copy the direct map, and faults leave it alone. -/

/-- The address of a frame. -/
def frameAddr (f : Nat) : UInt64 := UInt64.ofNat (4096 * f)

/-- Every process maps the free frames at their own addresses, apart from the user pages. -/
structure DirectMap (U : Set UInt64) (fl : List Nat) (k : Kernel) (procs : List UInt64) : Prop where
  range : ∀ f ∈ fl, f < 510 * 2 ^ 27
  apart : ∀ f ∈ fl, ∀ u ∈ U, f ≠ vpage u
  mapped : ∀ a ∈ procs, ∀ f ∈ fl, ∃ e, walkIn k a (frameAddr f) = some e ∧ pte.target e = f

section

variable {U : Set UInt64} {fl fl' : List Nat} {k k' : Kernel} {procs : List UInt64}
  {views : List View} {a v : UInt64} {f : Nat}

theorem toNat_frameAddr (hf : f < 510 * 2 ^ 27) : (frameAddr f).toNat = 4096 * f :=
  toNat_ofNat_of_lt (by omega)

theorem vpage_frameAddr (hf : f < 510 * 2 ^ 27) : vpage (frameAddr f) = f := by
  rw [vpage, toNat_frameAddr hf]
  omega

theorem path_frameAddr (hf : f < 510 * 2 ^ 27) : path (frameAddr f) ∈ userPaths := by
  refine ⟨by simp [path], ?_⟩
  intro i hi
  obtain rfl : slot (getPML4Index (frameAddr f)) = i := by simpa [path] using hi
  rw [slot_val_pml4, toNat_frameAddr hf]
  omega

namespace DirectMap

theorem directMapped (h : DirectMap U fl k procs) (hfree : FreeFrames k.frames fl)
    (ha : a ∈ procs) : DirectMapped (setCR3 a k) := by
  intro temp k' hkm
  rw [kmalloc_page] at hkm
  cases fl with
  | nil =>
    rw [FreeFrames.pageAllocAddr_nil (k := setCR3 a k) hfree] at hkm
    exact absurd hkm (by simp)
  | cons f fl =>
    obtain ⟨temp', halloc, htemp, -⟩ := FreeFrames.pageAllocAddr_cons (k := setCR3 a k) hfree
    obtain ⟨rfl, -⟩ := Prod.mk.inj (Option.some.inj (halloc.symm.trans hkm))
    have hf : f < 510 * 2 ^ 27 := h.range f (by simp)
    obtain rfl : temp' = frameAddr f := UInt64.toNat_inj.1 (htemp.trans (toNat_frameAddr hf).symm)
    obtain ⟨e, hw, he⟩ := h.mapped a ha f (by simp)
    refine ⟨path_frameAddr hf, e, hw, ?_⟩
    omega

theorem fork {child : UInt64} {c : Nat} (h : DirectMap U fl k procs)
    (hinv : CowInv U fl k procs views) (ha : a ∈ procs) (hchild : child.toNat = 4096 * c)
    (hf : Forked (roots procs) (a.toNat / 4096) c k k' fl fl') :
    DirectMap U fl' k' (procs ++ [child]) := by
  refine ⟨fun f hfl => h.range f (hf.suffix.subset hfl),
    fun f hfl => h.apart f (hf.suffix.subset hfl), ?_⟩
  intro b hb f hfl
  have hfl₀ := hf.suffix.subset hfl
  have hpath := path_frameAddr (h.range f hfl₀)
  rcases hinv.forked_walk ha hchild hf hb hpath with ⟨-, hk'⟩ | ⟨ho, -, hk'⟩
  · obtain ⟨e, hw, he⟩ := h.mapped a ha f hfl₀
    exact ⟨cowEntry e, by rw [hk', hw, Option.map_some], (target_cowEntry e).trans he⟩
  · obtain ⟨e, hw, he⟩ := h.mapped b (ho ▸ origin_mem ha hb) f hfl₀
    exact ⟨e, hk'.trans hw, he⟩

theorem write (h : DirectMap U fl k procs) (hfl : fl' <:+ fl) (hv : v ∈ U)
    (hwalk : ∀ b ∈ procs, ∀ u, path u ∈ userPaths → vpage u ≠ vpage v →
      walkIn k' b u = walkIn k b u) : DirectMap U fl' k' procs := by
  refine ⟨fun f hf => h.range f (hfl.subset hf), fun f hf => h.apart f (hfl.subset hf), ?_⟩
  intro b hb f hf
  have hf₀ := hfl.subset hf
  obtain ⟨e, hw, he⟩ := h.mapped b hb f hf₀
  have hrange := h.range f hf₀
  refine ⟨e, (hwalk b hb _ (path_frameAddr hrange) ?_).trans hw, he⟩
  rw [vpage_frameAddr hrange]
  exact h.apart f hf₀ v hv

end DirectMap

/-- With a direct map and enough free frames a fork goes through. -/
theorem fork_progress {w : World} {i : Nat} (hU : ∀ u ∈ U, path u ∈ userPaths)
    (hinv : CowInv U fl w.kernel w.procs views) (hdir : DirectMap U fl w.kernel w.procs)
    (hi : w.procs[i]? = some a)
    (hfl : tablesBelow w.kernel (a.toNat / 4096) 3 [] < fl.length) :
    ∃ w' fl', procStep w (.fork i) = some w' ∧ w.procs.length + 1 = w'.procs.length ∧
      fl.length = fl'.length + 1 + tablesBelow w.kernel (a.toNat / 4096) 3 [] ∧
      CowInv U fl' w'.kernel w'.procs (viewStep views (.fork i)) ∧
      DirectMap U fl' w'.kernel w'.procs := by
  have ha : a ∈ w.procs := List.mem_of_getElem? hi
  have hinv' := hinv.setCR3 a
  have hdir' : DirectMap U fl (setCR3 a w.kernel) w.procs := ⟨hdir.range, hdir.apart, hdir.mapped⟩
  rcases forkSpace_spec hinv'.paging hinv'.separate (hinv.root_mem ha) (hinv.cr3_eq ha) with
    ⟨-, hfew⟩ | ⟨child, c, k', fl', hsome, hchild, hf⟩
  · change fl.length < 1 + tablesBelow w.kernel (a.toNat / 4096) 3 [] at hfew
    omega
  · refine ⟨⟨k', w.procs ++ [child]⟩, fl', ?_, by simp, hf.count, hinv'.fork hi hU hchild hf,
      hdir'.fork hinv' ha hchild hf⟩
    simp only [procStep, hi, hsome, Option.bind_eq_bind, Option.bind_some]

/-- With a direct map and enough free frames a write goes through. -/
theorem write_progress {w : World} {i : Nat} (hU : ∀ u ∈ U, path u ∈ userPaths)
    (hinv : CowInv U fl w.kernel w.procs views) (hdir : DirectMap U fl w.kernel w.procs)
    (hi : i < w.procs.length) (hv : v ∈ U) (hfl : 4 ≤ fl.length) (byte : UInt8) :
    Assumed U w (.write i v byte) ∧ ∃ w' fl', procStep w (.write i v byte) = some w' ∧
      w'.procs = w.procs ∧ fl.length ≤ fl'.length + 4 ∧
      CowInv U fl' w'.kernel w'.procs (viewStep views (.write i v byte)) ∧
      DirectMap U fl' w'.kernel w'.procs := by
  have hget := List.getElem?_eq_getElem hi
  have hdirect : ∀ a ∈ w.procs, DirectMapped (setCR3 a w.kernel) := fun a ha =>
    hdir.directMapped hinv.paging.free ha
  refine ⟨⟨hv, fun a ha _ => hdirect a (List.mem_of_getElem? ha)⟩, ?_⟩
  rcases (hinv.setCR3 _).userWrite_spec hget hv hU rfl
    (fun _ => hdirect _ (List.mem_of_getElem? hget)) byte with
    ⟨-, hfew⟩ | ⟨k', fl', hsome, hsuf, hlen, hinv', hwalk⟩
  · omega
  · refine ⟨⟨k', w.procs⟩, fl', ?_, rfl, hlen, hinv', hdir.write hsuf hv hwalk⟩
    simp only [procStep, hget, hsome, Option.bind_eq_bind, Option.bind_some]

end

/-! ## A run with a fork -/

/-- The tables of a small process: the PML4 in frame 1, the other tables in frames 2 to 4, the page
`0x5000` in frame 20, and frames 30 to 63 direct-mapped. -/
def parentEntries (f : Nat) (i : Fin 512) : UInt64 :=
  if f ∈ [1, 2, 3] ∧ i = 0 then UInt64.ofNat (4096 * (f + 1) + 7)
  else if f = 4 ∧ i = 5 then 0x14007
  else if f = 4 ∧ 30 ≤ i.val ∧ i.val < 64 then UInt64.ofNat (4096 * i + 7)
  else 0

/-- Frames 30 to 63 are free. -/
def parentKernel : Kernel where
  mem := ofEntries parentEntries
  frames := pageInit 0x1DE00 64 Frames.zero
  pml4 := 0x1000
  cr3 := 0x1000

/-- The pages of the kernel: all but the page `0x5000`. -/
def kernelPages : Set Nat := {p | p ≠ 5}

theorem next_parentEntries {f : Nat} (hf : 1 ≤ f ∧ f ≤ 3) (i : Fin 512) :
    next pte parentEntries f i = if i = 0 then some (f + 1) else none := by
  obtain rfl | rfl | rfl : f = 1 ∨ f = 2 ∨ f = 3 := by omega
  all_goals
    by_cases hi : i = 0
    · subst hi
      decide
    · simp [next, parentEntries, hi, pte]

/-- The tables of the process are on one path. -/
theorem tableAt_parentEntries {q : List (Fin 512)} {f : Nat} (hf : 1 ≤ f)
    (hq : f + q.length ≤ 4) : tableAt pte parentEntries f q =
      if q = List.replicate q.length 0 then some (f + q.length) else none := by
  induction q generalizing f with
  | nil => rfl
  | cons i q ih =>
    rw [List.length_cons] at hq
    rw [tableAt_cons, next_parentEntries (by omega)]
    by_cases hi : i = 0
    · rw [if_pos hi, Option.bind_some, ih (by omega) (by omega)]
      simp only [hi, List.length_cons, List.replicate_succ, List.cons.injEq, true_and]
      congr 2
      omega
    · rw [if_neg hi, if_neg]
      · rfl
      · intro h
        rw [List.length_cons, List.replicate_succ] at h
        exact hi (List.cons.inj h).1

/-- Only entry `i` of the table at `p` leads further. -/
theorem tablesBelow_single {k : Kernel} {r d : Nat} {p : List (Fin 512)} (i : Fin 512)
    (h : ∀ j, j ≠ i → k.table r (p ++ [j]) = none) :
    tablesBelow k r (d + 1) p ≤ 1 + tablesBelow k r d (p ++ [i]) := by
  have hsum : tablesBelow k r (d + 1) p =
      (slotsAt p).count i • entryCost k r d p i :=
    List.sum_map_eq_nsmul_single i _ fun j hj _ => by
      rw [h j hj, Option.isSome_none, if_neg (by simp)]
  have hcount : (slotsAt p).count i ≤ 1 := List.nodup_iff_count_le_one.1 (nodup_slotsAt p) i
  have hcost : entryCost k r d p i ≤ 1 + tablesBelow k r d (p ++ [i]) := by
    unfold entryCost
    split_ifs
    · exact Nat.le_refl _
    · exact Nat.zero_le _
  rw [hsum, smul_eq_mul]
  calc (slotsAt p).count i * entryCost k r d p i
      ≤ 1 * entryCost k r d p i := Nat.mul_le_mul_right _ hcount
    _ ≤ 1 + tablesBelow k r d (p ++ [i]) := by rwa [Nat.one_mul]

theorem table_parentKernel {q : List (Fin 512)} (hq : q.length ≤ 3) : parentKernel.table 1 q =
    if q = List.replicate q.length 0 then some (1 + q.length) else none := by
  rw [Kernel.table, parentKernel, entry_ofEntries]
  exact tableAt_parentEntries (Nat.le_refl 1) (by omega)

theorem tablesBelow_parentKernel : tablesBelow parentKernel 1 3 [] ≤ 3 := by
  have hchain : ∀ d n : Nat, n + d = 3 →
      tablesBelow parentKernel 1 d (List.replicate n 0) ≤ d := by
    intro d
    induction d with
    | zero => exact fun n _ => Nat.le_refl 0
    | succ d ih =>
      intro n hn
      have hrest := ih (n + 1) (by omega)
      rw [List.replicate_succ'] at hrest
      refine (tablesBelow_single 0 ?_).trans (by omega)
      intro j hj
      rw [table_parentKernel (by simp; omega), if_neg]
      rw [List.length_append, List.length_replicate, List.length_singleton, List.replicate_succ']
      intro h
      exact hj (List.cons.inj (List.append_cancel_left h)).1
  exact hchain 3 0 rfl

theorem mem_parentFree {f : Nat} : f ∈ initFree 0x1DE00 64 ↔ 30 ≤ f ∧ f < 64 := mem_initFree

/-- A frame outside the four tables. -/
theorem fresh_parentKernel {f : Nat} (hf : f = 0 ∨ 4 < f) :
    Fresh pte (entry parentKernel.mem) userPaths {1} f := by
  rintro r rfl q hq hfq
  have hlen : q.length ≤ 3 := hq.1
  rw [← Kernel.table, table_parentKernel hlen] at hfq
  split_ifs at hfq
  have := Option.some.inj hfq
  omega

theorem vpage_of_userPages {v : UInt64} (hv : v ∈ userPages kernelPages parentKernel) :
    vpage v = 5 := by
  by_contra hne
  exact hv.2.2 hne

theorem walk_parentKernel {v : UInt64} (hv : vpage v = 5) :
    walk parentKernel.mem 1 v = some 0x14007 := by
  have hpage : vpage v = vpage 0x5000 := hv
  rw [walk_congr _ _ hpage, walk, parentKernel, entry_ofEntries]
  decide

theorem parent_parentKernel : Parent kernelPages parentKernel 1 (initFree 0x1DE00 64) where
  cr3 := rfl
  paging := by
    refine ⟨⟨?_, ?_⟩, freeFrames_pageInit 0x1DE00 (by decide), ?_, ?_⟩
    · rintro r s p q f rfl rfl hp hq hpf hqf
      have hp' : p.length ≤ 3 := hp.1
      have hq' : q.length ≤ 3 := hq.1
      rw [← Kernel.table, table_parentKernel hp'] at hpf
      rw [← Kernel.table, table_parentKernel hq'] at hqf
      split_ifs at hpf hqf with h₁ h₂
      have hlen : p.length = q.length := by
        have := Option.some.inj (hpf.trans hqf.symm)
        omega
      rw [h₁, h₂, hlen]
    · rintro r s i p f rfl rfl - - -
      rfl
    · intro f hf
      exact fresh_parentKernel (Or.inr (by have := mem_parentFree.1 hf; omega))
    · intro f hf
      have hf' := mem_parentFree.1 hf
      refine blank_of_zeroPage (zeroPage_ofEntries ?_)
      intro i
      have h₁ : f ∉ [1, 2, 3] := by simp; omega
      have h₂ : f ≠ 4 := by omega
      simp [parentEntries, h₁, h₂]
  null := fresh_parentKernel (Or.inl rfl)
  null_free := by simp [mem_parentFree]
  mapped v hv := by
    refine ⟨0x14007, walk_parentKernel (vpage_of_userPages hv), by decide, ?_, ?_⟩
    · exact fresh_parentKernel (Or.inr (by decide))
    · rw [mem_parentFree]
      decide
  distinct v hv u hu _ _ _ _ _ := (vpage_of_userPages hu).trans (vpage_of_userPages hv).symm

theorem directMap_parentKernel : DirectMap (userPages kernelPages parentKernel)
    (initFree 0x1DE00 64) parentKernel [parentKernel.cr3] := by
  refine ⟨?_, ?_, ?_⟩
  · intro f hf
    have := mem_parentFree.1 hf
    omega
  · intro f hf u hu
    have := mem_parentFree.1 hf
    rw [vpage_of_userPages hu]
    omega
  · intro a ha f hf
    obtain rfl : a = parentKernel.cr3 := by simpa using ha
    obtain ⟨hlo, hhi⟩ := mem_parentFree.1 hf
    have hall : ∀ f < 64, 30 ≤ f →
        leafAt pte parentEntries 1 (path (frameAddr f)) (ptSlot (frameAddr f)) =
          some (UInt64.ofNat (4096 * f + 7)) ∧ pte.target (UInt64.ofNat (4096 * f + 7)) = f := by
      decide
    obtain ⟨hleaf, htarget⟩ := hall f hhi hlo
    refine ⟨_, ?_, htarget⟩
    rw [← hleaf, walkIn, walk, parentKernel, entry_ofEntries]
    rfl

/-- A process and its child write to the same address and keep their own values. -/
theorem copy_on_write_after_fork :
    ∃ w, Run procStep (Assumed (userPages kernelPages parentKernel))
        ⟨parentKernel, [parentKernel.cr3]⟩ [.fork 0, .write 0 0x5000 1, .write 1 0x5000 2] w ∧
      w.read 0 0x5000 = some 1 ∧ w.read 1 0x5000 = some 2 := by
  have hU := path_mem_of_userPages (K := kernelPages) (k := parentKernel)
  have hv : 0x5000 ∈ userPages kernelPages parentKernel := by
    refine ⟨?_, by decide, fun h => h rfl⟩
    rw [show parentKernel.root = 1 from rfl, walk_parentKernel rfl]
    rfl
  obtain ⟨w₁, fl₁, hstep₁, hprocs₁, hlen₁, hinv₁, hdir₁⟩ := fork_progress
    (w := ⟨parentKernel, [parentKernel.cr3]⟩) (i := 0) hU parent_parentKernel.cowInv
    directMap_parentKernel rfl (Nat.lt_of_le_of_lt tablesBelow_parentKernel (by decide))
  have hfl₁ : 30 ≤ fl₁.length := by
    have htables : tablesBelow parentKernel (parentKernel.cr3.toNat / 4096) 3 [] ≤ 3 :=
      tablesBelow_parentKernel
    have hfree : (initFree 0x1DE00 64).length = 34 := by decide
    simp only at hlen₁
    omega
  have hlt : ∀ {i : Nat}, i < 2 → i < w₁.procs.length := fun hi => hprocs₁ ▸ hi
  obtain ⟨hok₂, w₂, fl₂, hstep₂, hprocs₂, hlen₂, hinv₂, hdir₂⟩ :=
    write_progress (i := 0) hU hinv₁ hdir₁ (hlt (by decide)) hv (by omega) 1
  obtain ⟨hok₃, w₃, fl₃, hstep₃, -⟩ :=
    write_progress (i := 1) hU hinv₂ hdir₂ (hprocs₂ ▸ hlt (by decide)) hv (by omega) 2
  have hrun : Run procStep (Assumed (userPages kernelPages parentKernel))
      ⟨parentKernel, [parentKernel.cr3]⟩ [.fork 0, .write 0 0x5000 1, .write 1 0x5000 2] w₃ :=
    .cons trivial hstep₁ (.cons hok₂ hstep₂ (.cons hok₃ hstep₃ (.nil w₃)))
  obtain ⟨-, hread⟩ := copy_on_write_isolation parent_parentKernel hrun
  exact ⟨w₃, hrun, hread 0 _ rfl 0x5000 hv, hread 1 _ rfl 0x5000 hv⟩

end Sbunix
