import Sbunix.VirtualLoad

/-!
# Programs and the kernel's direct map

`mapAllpages` maps the frames from `physfree` to `0x500000` at their own addresses, in PML4 entry 0,
and programs are linked from `0x400000` on. A load gives each of its pages a frame, and it gives it
the frame with the number of the page only if this is the one that `page_alloc` has come to.
-/

namespace Sbunix

open Lib Lib.Radix

/-- The frames of the allocator that `mapAllpages` maps at their own addresses. -/
def windowFrames (physfree : UInt64) (noofpages : Nat) : Set Nat :=
  {f | f ∈ initFree physfree noofpages ∧ physfree.toNat / 4096 ≤ f ∧ f ≤ 0x500}

section

variable {f : Nat}

theorem pageEntry_inj {g : Nat} (hf : 4096 * f < 2 ^ 64) (hg : 4096 * g < 2 ^ 64) :
    pageEntry g = pageEntry f ↔ g = f := by
  constructor
  · intro h
    rw [← target_pageEntry hf, ← target_pageEntry hg, h]
  · exact congrArg pageEntry

end

/-- A machine with 128 MiB, the kernel ending at `0x300000`. -/
theorem window_booted : ∃ k₀, memAlloc 0x8000 0x300000 zeroKernel = some k₀ ∧
    AddressSpace k₀ k₀.root (List.range' 0x349 0x7cb7) ∧
    (∀ f ∈ tableFrames k₀ k₀.root, 0x340 ≤ f ∧ f < 0x349) ∧
    ∀ f ∈ windowFrames 0x300000 0x8000, IdentityMapped k₀ k₀.root f := by
  have hmemory : (pageInitMemory 0x300000 0x8000).toNat = 0x340 := by decide
  have hfree : initFree 0x300000 0x8000 = List.range' 0x340 0x7cc0 := by rw [initFree, hmemory]
  have htables : bootTables 0x300000 (pageInitMemory 0x300000 0x8000).toNat = 9 := by
    rw [hmemory]
    decide
  have hzero : ∀ f ∈ initFree 0x300000 0x8000, ZeroPage zeroKernel.mem f := fun _ _ _ _ => rfl
  have hlen : (initFree 0x300000 0x8000).length = 0x7cc0 := by rw [hfree, List.length_range']
  rcases memAlloc_boot (by decide) (by decide) rfl hzero with
    ⟨-, hfew⟩ | ⟨k₀, root, fl, hboot, hspace, hsuf, hcount, htaken, hwalk⟩
  · omega
  have hfl : fl = List.range' 0x349 0x7cb7 := by
    have hdrop : (initFree 0x300000 0x8000).length - fl.length = 9 := by omega
    rw [List.suffix_iff_eq_drop.1 hsuf, hdrop, hfree, List.drop_range']
  subst hfl
  obtain rfl : k₀.root = root := by
    rw [Kernel.root, hspace.cr3]
    omega
  refine ⟨k₀, hboot, hspace, ?_, ?_⟩
  · rintro f ⟨q, hq, htab⟩
    have hmem := htaken q hq f htab
    have hout : f ∉ List.range' 0x349 0x7cb7 :=
      fun hleft => hspace.paging.fresh f hleft _ rfl q hq htab
    rw [hfree, List.mem_range'_1] at hmem
    rw [List.mem_range'_1] at hout
    omega
  · rintro f ⟨-, hlo, hhi⟩
    have hval : (identityAddr f).toNat = 4096 * f :=
      toNat_ofNat_of_lt (by omega)
    rw [IdentityMapped, hwalk _ (by omega), vpage_identityAddr hhi, if_pos ⟨hlo, hhi⟩, pageEntry]

/-- Two frames of it are for a `Task`. A short load follows pointers to frames below `0x400`
only. -/
theorem booted_loads : ∃ k₀ D, memAlloc 0x8000 0x300000 zeroKernel = some k₀ ∧
    Space k₀.root D k₀.pop.pop (List.range' 0x34b 0x7cb5) ∧
    Virtual.TaskAt k₀.pop.pop k₀.root (List.range' 0x34b 0x7cb5) 0x349000 ∧
    (∀ f ∈ windowFrames 0x300000 0x8000, IdentityMapped k₀ k₀.root f) ∧
    ∀ phs, InUserSpace phs → (elfOps 0x1000 phs).length ≤ 32 →
      (∀ ph ∈ phs, 0x400 ≤ ph.pVaddr.toNat / 4096) →
      FramesSuffice ⟨D, List.range' 0x34b 0x7cb5, fun _ => none⟩ (elfOps 0x1000 phs) ∧
        ∀ f ∈ Virtual.followed k₀.pop.pop k₀.root ⟨D, List.range' 0x34b 0x7cb5, fun _ => none⟩
          (elfOps 0x1000 phs) 0x349000, Virtual.Direct (walk k₀.pop.pop.mem k₀.root)
            (elfLayout D (List.range' 0x34b 0x7cb5) 0x1000 phs) f := by
  obtain ⟨k₀, hboot, hspace, htables, hmap⟩ := window_booted
  obtain ⟨D, hspace⟩ := hspace.space
  obtain ⟨hspace, htask⟩ := hspace.task (by decide)
  refine ⟨k₀, D, hboot, hspace, htask, hmap, fun phs hsegs hlen hout => ?_⟩
  have hfits : FramesSuffice ⟨D, List.range' 0x34b 0x7cb5, fun _ => none⟩ (elfOps 0x1000 phs) := by
    refine framesSuffice_of_length ?_
    rw [List.length_range']
    omega
  refine ⟨hfits, followed_direct (P := {f | 0x340 ≤ f ∧ f < 0x400}) hfits hsegs ?_ ?_ ?_ ?_ ?_⟩
  · exact fun f hf => ⟨(htables f hf).1, by have := (htables f hf).2; omega⟩
  · intro f hf
    rw [List.take_range'_of_length_ge (by omega), List.mem_range'_1] at hf
    exact ⟨by omega, by omega⟩
  · rintro x (rfl | rfl)
    · decide
    · decide
  · rintro f ⟨hlo, hhi⟩
    have hmemory : (pageInitMemory 0x300000 0x8000).toNat = 0x340 := by decide
    have hfree : f ∈ initFree 0x300000 0x8000 := by
      rw [initFree, hmemory, List.mem_range'_1]
      omega
    have hphys : (0x300000 : UInt64).toNat / 4096 = 0x300 := rfl
    exact ⟨by omega, hmap f ⟨hfree, by omega, by omega⟩⟩
  · rintro f ⟨-, hhi⟩ ph hph ⟨-, hpage, -⟩
    have habove := hout ph hph
    omega

end Sbunix
