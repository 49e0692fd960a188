import Lume.Pmm.System

/-!
# The device-tree blob across boot

The boot loader leaves the flattened device tree somewhere in RAM and passes its address to
`kernel_main`. The unflattened tree keeps pointers into it. `memblock_init` takes the address and
ignores it, so the blob is safe only where another reservation happens to cover it: below the
kernel image, in the region set aside for the firmware.

## Main definitions

* `Blob`: the pages of the device tree
* `Blob.Intact`: neither allocator hands a page of the blob out

## Main results

* `Blob.intact_iff`: the blob is intact exactly when it lies below the kernel image
-/

namespace Lume

/-- The page range of the device tree, in RAM and apart from the kernel image. -/
structure Blob {ram : Ram} (image : KernelImage ram) where
  base : ℕ
  stop : ℕ
  base_aligned : kPageSize ∣ base
  stop_aligned : kPageSize ∣ stop
  lt : base < stop
  base_le : ram.memBase ≤ base
  le_end : stop ≤ ram.memEnd
  apart : stop ≤ image.stext ∨ image.kernelEnd ≤ base

namespace Blob

variable {ram : Ram} {image : KernelImage ram} {blob : Blob image} {mb₀ mb : Memblock}
  {requests : List (Memblock.Request × ℕ)} {i : ℕ}

/-- Page `i` is a page of the blob. -/
def HasPage (blob : Blob image) (i : ℕ) : Prop :=
  blob.base ≤ ram.pageToPa i ∧ ram.pageToPa i < blob.stop

/-- **The blob is never handed out**: not by the requests served at boot, not to the buddy lists
by `pmm_init`, and not by any later run of the page allocator. -/
structure Intact (blob : Blob image) (requests : List (Memblock.Request × ℕ)) (mb : Memblock) :
    Prop where
  boot : ∀ l ∈ requests, l.2 + l.1.size ≤ blob.base ∨ blob.stop ≤ l.2
  fed : ∀ o, ∀ p ∈ (pmmInit mb).freeAreas o, ∀ i ∈ (⟨p, o⟩ : Block), ¬ blob.HasPage i
  held : ∀ {calls x}, Run Pmm.Client.Step ⟨pmmInit mb, []⟩ calls x →
    ∀ b ∈ x.held, ∀ i ∈ b, ¬ blob.HasPage i

theorem firmware_bounds (image : KernelImage ram) :
    image.firmware.base = ram.memBase ∧ image.stext ≤ image.firmware.stop := by
  have h₁ := image.base_le
  have h₂ := image.lt
  have h₃ := image.le_end
  obtain ⟨hb, hs⟩ := Memblock.pageSpan_bounds (le_refl ram.memBase)
    (by omega : ram.memBase + (image.stext - ram.memBase) ≤ ram.memEnd)
  obtain ⟨m, hm⟩ := ram.base_aligned
  rw [KernelImage.firmware, hb, hs]
  simp only [kPageSize] at *
  omega

theorem not_mem_init (hge : image.kernelEnd ≤ blob.base) :
    blob.base ∉ image.span ∧ blob.base ∉ image.firmware := by
  have h₁ := image.base_le
  have h₂ := image.lt
  have h₃ := image.le_end
  obtain ⟨-, hs⟩ := Memblock.pageSpan_bounds h₁
    (by omega : image.stext + (image.kernelEnd - image.stext) ≤ ram.memEnd)
  obtain ⟨-, hs'⟩ := Memblock.pageSpan_bounds (le_refl ram.memBase)
    (by omega : ram.memBase + (image.stext - ram.memBase) ≤ ram.memEnd)
  obtain ⟨m, hm⟩ := blob.base_aligned
  rw [Region.mem_def, Region.mem_def, KernelImage.span, KernelImage.firmware, hs, hs']
  simp only [kPageSize] at *
  omega

section

variable (hinit : memblockInit image blob.base = some mb₀)
  (hboot : Run Memblock.Step mb₀ requests mb)
include hinit hboot

theorem intact_of_below (hle : blob.stop ≤ image.stext) : blob.Intact requests mb := by
  obtain ⟨hram₀, hinv₀, hmem₀⟩ := memblockInit_spec hinit
  obtain ⟨hbase, hstop⟩ := firmware_bounds image
  have hfirm : image.firmware ∈ mb₀.reserved := by
    have h₁ := blob.base_le
    have h₂ := blob.lt
    exact (hmem₀ _).mpr (.inr ⟨by omega, rfl⟩)
  have hram : mb.ram = ram := (Memblock.run_ram_eq hboot).trans hram₀
  have hpmm := (pmmInit_inv (Memblock.run_inv hboot hinv₀)).1
  have hres (i : ℕ) (h : blob.HasPage i) : i ∈ mb.reservedPages := by
    refine mem_reservedPages.mpr ⟨?_, image.firmware, ?_, ?_⟩
    · rw [hram, ← ram.pageToPa_lt_memEnd]
      exact lt_of_lt_of_le h.2 blob.le_end
    · exact (Memblock.mem_reserved_run hboot).mpr (.inl hfirm)
    · rw [hram, Region.mem_def, hbase]
      exact ⟨Nat.le_add_right .., by have := h.2; omega⟩
  refine ⟨fun l hl => ?_, fun o p hp i hi hpage => ?_, fun {calls x} hrun b hb i hi hpage => ?_⟩
  · obtain ⟨hlo, -, hsep⟩ := Memblock.results_run hboot l hl
    have h₁ := hsep _ hfirm
    have h₂ := blob.base_le
    omega
  · have hR := hres i hpage
    have hat : Pmm.Client.At ⟨pmmInit mb, []⟩ mb.reservedPages i (.free ⟨p, o⟩) := ⟨hp, hi⟩
    have hat' : Pmm.Client.At ⟨pmmInit mb, []⟩ mb.reservedPages i .reserved := hR
    have heq := hat.unique hpmm.accounted (hpmm.accounted.reserved i hR).1 hat'
    simp at heq
  · have hR := hres i hpage
    have hx := Pmm.Client.inv_of_run hrun hpmm
    have hat : x.At mb.reservedPages i (.live b) := ⟨hb, hi⟩
    have hat' : x.At mb.reservedPages i .reserved := hR
    have heq := hat.unique hx.accounted (hx.accounted.reserved i hR).1 hat'
    simp at heq

/-- Above the kernel image the first page of the blob is either given out at boot or fed to the
buddy lists: nothing else ever reserves it. -/
theorem not_intact_of_above (hge : image.kernelEnd ≤ blob.base) : ¬ blob.Intact requests mb := by
  intro hintact
  obtain ⟨hram₀, hinv₀, hmem₀⟩ := memblockInit_spec hinit
  have hram : mb.ram = ram := (Memblock.run_ram_eq hboot).trans hram₀
  obtain ⟨hpmm, hpram, hpcp⟩ := pmmInit_inv (Memblock.run_inv hboot hinv₀)
  obtain ⟨i, hi⟩ : ∃ i, ram.pageToPa i = blob.base := by
    obtain ⟨m, hm⟩ := ram.base_aligned
    obtain ⟨b, hb⟩ := blob.base_aligned
    have := blob.base_le
    refine ⟨b - m, ?_⟩
    simp only [Ram.pageToPa, kPageSize] at *
    omega
  have hpage : blob.HasPage i := ⟨hi.ge, hi.trans_lt blob.lt⟩
  have hlt : i < (pmmInit mb).numPages := by
    rw [Pmm.numPages, hpram, hram, ← ram.pageToPa_lt_memEnd]
    exact lt_of_lt_of_le hpage.2 blob.le_end
  obtain ⟨pl, hat⟩ := Pmm.Client.exists_at (x := ⟨pmmInit mb, []⟩) hpmm.accounted hlt
  cases pl with
  | free b => exact hintact.fed b.order b.start hat.1 i hat.2 hpage
  | cached c => simp [Pmm.Client.At, hpcp] at hat
  | live b => simp [Pmm.Client.At] at hat
  | reserved =>
    obtain ⟨-, r, hr, hx⟩ := mem_reservedPages.mp hat
    rw [hram, hi] at hx
    obtain ⟨hspan, hfirm⟩ := not_mem_init hge
    rcases (Memblock.mem_reserved_run hboot).mp hr with hr | ⟨l, hl, rfl⟩
    · rcases (hmem₀ r).mp hr with rfl | ⟨-, rfl⟩
      · exact hspan hx
      · exact hfirm hx
    · -- the span of a result reaches into the page, so the result itself does
      obtain ⟨hlo, hhi, -⟩ := Memblock.results_run hboot l hl
      obtain ⟨hb, hs⟩ := Memblock.pageSpan_bounds hlo hhi
      rw [Region.mem_def, hb, hs] at hx
      have h₁ := hintact.boot l hl
      have h₂ := blob.base_aligned
      have h₃ := blob.stop_aligned
      have h₄ := blob.lt
      simp only [kPageSize] at *
      omega

end

/-- **The device-tree blob** stays intact exactly when the boot loader placed it below the kernel
image. -/
theorem intact_iff (hinit : memblockInit image blob.base = some mb₀)
    (hboot : Run Memblock.Step mb₀ requests mb) :
    blob.Intact requests mb ↔ blob.stop ≤ image.stext := by
  refine ⟨fun h => ?_, intact_of_below hinit hboot⟩
  exact blob.apart.resolve_right fun hge => not_intact_of_above hinit hboot hge h

end Blob

/-- A blob right above the kernel image of the small machine. -/
def smallBlob : Blob smallImage where
  base := 0x80004000
  stop := 0x80006000
  base_aligned := by decide
  stop_aligned := by decide
  lt := by decide
  base_le := by decide
  le_end := by decide
  apart := .inr (by decide)

/-- The first page-table page of the small machine is allocated on top of the blob. -/
theorem memblock_alloc_returns_blob : ∃ mb₀ mb, memblockInit smallImage smallBlob.base = some mb₀ ∧
      mb₀.alloc kPageSize kPageSize = some (smallBlob.base, mb) :=
  ⟨_, _, memblockInit_small _, alloc_small⟩

/-- The small machine after its first page-table page. -/
theorem intact_iff_small :
    smallBlob.Intact [(⟨false, 0x1000, 0x1000⟩, 0x80004000)] (smallBoot [⟨0x80004000, 0x1000⟩]) ↔
      smallBlob.stop ≤ smallImage.stext :=
  Blob.intact_iff (memblockInit_small _) (.snoc (.nil _) step_small)

end Lume
