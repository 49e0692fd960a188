import Lume.Kaslr
import Mathlib

/-!
# Device mappings

`vmm_init` and `vmm_map_kernel_mmio` of `mm/vmm.cc`. The kernel image is mapped where it was linked,
at the default base of the direct map. Everything else, devices included, is mapped at the base that
was slid. So a device that lies below RAM by the slide, or by less than the size of the image more,
is mapped on top of the image.

## Main definitions

* `pageSteps`: the pages that a mapping loop goes through
* `BootEnv.imagePages`, `BootEnv.directPages`, `BootEnv.vmemmap`: what `vmm_init` maps
* `mmioPages`: what `vmm_map_kernel_mmio` maps
* `MmioApart`: the pages of a device are none of the kernel's
* `MmioClear`: the condition, on the addresses of the device and of the image

## Main results

* `mmio_apart_iff`: the pages are apart exactly under this condition
-/

namespace Lume

/-- `pa_to_va`, for a base of the direct map -/
def paToVa (base pa : ℕ) : ℕ := (pa + base) % 2 ^ 64

/-- `boot_pa_to_va` -/
def bootPaToVa (pa : ℕ) : ℕ := paToVa kDirectMapBaseDefault pa

/-- `boot_va_to_pa`, which is `sym_to_pa` for a symbol -/
def bootVaToPa (va : ℕ) : ℕ := (va + 2 ^ 64 - kDirectMapBaseDefault) % 2 ^ 64

/-- The values of `pa` in the loops of `map_range` and `map_range_linked`, for at most `fuel`
rounds. -/
def pageStepsFrom (paEnd : ℕ) : ℕ → ℕ → List ℕ
  | 0, _ => []
  | fuel + 1, pa =>
    if pa < paEnd then pa :: pageStepsFrom paEnd fuel ((pa + kPageSize) % 2 ^ 64) else []

def pageSteps (paStart paEnd : ℕ) : List ℕ :=
  pageStepsFrom paEnd ((paEnd - paStart) / kPageSize + 1) paStart

namespace KernelSymbols

variable (s : KernelSymbols)

def textStart : ℕ := pageAlignDown (bootVaToPa s.stext)
def textEnd : ℕ := pageAlignUp (bootVaToPa s.etext)
def roStart : ℕ := pageAlignDown (bootVaToPa s.srodata)
def roEnd : ℕ := pageAlignUp (bootVaToPa s.erodata)
def dataStart : ℕ := pageAlignDown (bootVaToPa s.sdata)
def bssEnd : ℕ := pageAlignUp (bootVaToPa s.ebss)
def afterKernel : ℕ := pageAlignUp (bootVaToPa s.kernelEnd)

end KernelSymbols

/-- `mem_end` -/
def BootEnv.memEnd (e : BootEnv) : ℕ := (e.memBase + e.memSize) % 2 ^ 64

/-- The pages of physical memory that `vmm_map_kernel_mmio` goes through. -/
def mmioSteps (pa size : ℕ) : List ℕ :=
  let alignedPa := pageAlignDown pa
  let alignedSize := (pageAlignUp ((pa + size) % 2 ^ 64) + 2 ^ 64 - alignedPa) % 2 ^ 64
  pageSteps alignedPa ((alignedPa + alignedSize) % 2 ^ 64)

/-! ## What is mapped -/

/-- The pages of the kernel image. -/
def BootEnv.imagePages (e : BootEnv) : List ℕ :=
  (pageSteps e.symbols.textStart e.symbols.textEnd ++ pageSteps e.symbols.roStart e.symbols.roEnd ++
    pageSteps e.symbols.dataStart e.symbols.bssEnd).map bootPaToVa

/-- The pages of the RAM in the direct map. -/
def BootEnv.directPages (e : BootEnv) (l : KaslrLayout) : List ℕ :=
  if e.symbols.afterKernel < e.memEnd then
    (pageSteps e.symbols.afterKernel e.memEnd).map (paToVa l.directMapBase)
  else []

/-- The pages of a device. -/
def mmioPages (l : KaslrLayout) (pa size : ℕ) : List ℕ :=
  (mmioSteps pa size).map (paToVa l.directMapBase)

/-- The addresses of pages. -/
def pagesOf (ps : List ℕ) : Set ℕ := {va | ∃ p ∈ ps, p ≤ va ∧ va < p + kPageSize}

/-- The region of the `Page` records. -/
def BootEnv.vmemmap (e : BootEnv) (l : KaslrLayout) : Set ℕ :=
  Set.Ico l.vmemmapBase (l.vmemmapBase + pageMapSpan e.memSize)

/-- **The pages of a device are none of the kernel's.** -/
structure MmioApart (e : BootEnv) (l : KaslrLayout) (pa size : ℕ) : Prop where
  image : Disjoint (pagesOf (mmioPages l pa size)) (pagesOf e.imagePages)
  direct : Disjoint (pagesOf (mmioPages l pa size)) (pagesOf (e.directPages l))
  vmemmap : Disjoint (pagesOf (mmioPages l pa size)) (e.vmemmap l)

/-- The image lies in RAM. -/
structure BootEnv.ImageInRam (e : BootEnv) : Prop where
  start : kDirectMapBaseDefault + e.memBase ≤ e.symbols.stext
  text : e.symbols.stext ≤ e.symbols.etext
  rodata : e.symbols.etext ≤ e.symbols.srodata ∧ e.symbols.srodata ≤ e.symbols.erodata
  data : e.symbols.erodata ≤ e.symbols.sdata ∧ e.symbols.sdata ≤ e.symbols.ebss
  stop : e.symbols.ebss ≤ e.symbols.kernelEnd
  ram : e.symbols.kernelEnd ≤ kDirectMapBaseDefault + (e.memBase + e.memSize)

/-- Two ranges of whole pages have none in common. -/
def RangesApart (lo hi lo' hi' : ℕ) : Prop := min hi hi' ≤ max lo lo'

instance (lo hi lo' hi' : ℕ) : Decidable (RangesApart lo hi lo' hi') :=
  inferInstanceAs (Decidable (_ ≤ _))

/-- The pages of the device, moved up by the slide, are not pages of the image; and the device does
not begin in a page of the RAM above the image. -/
structure MmioClear (e : BootEnv) (l : KaslrLayout) (pa size : ℕ) : Prop where
  text : RangesApart (pageAlignDown pa + l.slideBytes) (pageAlignUp (pa + size) + l.slideBytes)
    e.symbols.textStart e.symbols.textEnd
  rodata : RangesApart (pageAlignDown pa + l.slideBytes) (pageAlignUp (pa + size) + l.slideBytes)
    e.symbols.roStart e.symbols.roEnd
  data : RangesApart (pageAlignDown pa + l.slideBytes) (pageAlignUp (pa + size) + l.slideBytes)
    e.symbols.dataStart e.symbols.bssEnd
  ram : pageAlignUp (pa + size) ≤ pageAlignDown pa ∨ pageAlignDown pa < e.symbols.afterKernel ∨
    e.memBase + e.memSize ≤ pageAlignDown pa

/-! ## The pages of a loop -/

theorem mem_pageStepsFrom {paEnd fuel pa p : ℕ} (hend : paEnd + kPageSize ≤ 2 ^ 64)
    (hfuel : paEnd < pa + kPageSize * fuel) :
    p ∈ pageStepsFrom paEnd fuel pa ↔ pa ≤ p ∧ p < paEnd ∧ kPageSize ∣ p - pa := by
  simp only [kPageSize] at hend hfuel ⊢
  induction fuel generalizing pa with
  | zero =>
    rw [pageStepsFrom]
    simp only [List.not_mem_nil, false_iff]
    omega
  | succ fuel ih =>
    rw [pageStepsFrom]
    split
    · rename_i hlt
      have hmod : (pa + kPageSize) % 2 ^ 64 = pa + 4096 :=
        Nat.mod_eq_of_lt (by simp only [kPageSize]; omega)
      rw [hmod, List.mem_cons, ih (by omega)]
      constructor
      · rintro (rfl | ⟨hle, hp, hdvd⟩)
        · exact ⟨le_rfl, hlt, by omega⟩
        · exact ⟨by omega, hp, by omega⟩
      · rintro ⟨hle, hp, hdvd⟩
        rcases Nat.eq_or_lt_of_le hle with he | hgt
        · exact .inl he.symm
        · exact .inr ⟨by omega, hp, by omega⟩
    · simp only [List.not_mem_nil, false_iff]
      omega

theorem mem_pageSteps {paStart paEnd p : ℕ} (hend : paEnd + kPageSize ≤ 2 ^ 64) :
    p ∈ pageSteps paStart paEnd ↔ paStart ≤ p ∧ p < paEnd ∧ kPageSize ∣ p - paStart := by
  refine mem_pageStepsFrom hend ?_
  simp only [kPageSize]
  omega

/-- **The addresses that a loop maps** are a range, if it starts with a page. -/
theorem pagesOf_pageSteps {base paStart paEnd : ℕ} (hbase : kPageSize ∣ base)
    (hstart : kPageSize ∣ paStart) (hend : base + paEnd + kPageSize ≤ 2 ^ 64) :
    pagesOf ((pageSteps paStart paEnd).map (paToVa base)) =
      Set.Ico (base + paStart) (base + pageAlignUp paEnd) := by
  have hup := dvd_pageAlignUp paEnd
  simp only [kPageSize] at hbase hstart hend hup
  obtain ⟨hle, hlt⟩ : paEnd ≤ pageAlignUp paEnd ∧ pageAlignUp paEnd < paEnd + 4096 :=
    le_pageAlignUp (by simp only [kPageSize]; omega)
  have hsteps (p : ℕ) : p ∈ pageSteps paStart paEnd ↔ paStart ≤ p ∧ p < paEnd ∧ 4096 ∣ p - paStart :=
    mem_pageSteps (by simp only [kPageSize]; omega)
  ext va
  simp only [pagesOf, Set.mem_ofPred_eq, List.mem_map, Set.mem_Ico, kPageSize]
  constructor
  · rintro ⟨_, ⟨p, hp, rfl⟩, hlo, hhi⟩
    obtain ⟨h₁, h₂, h₃⟩ := (hsteps p).mp hp
    rw [paToVa, Nat.mod_eq_of_lt (by omega)] at hlo hhi
    omega
  · rintro ⟨hlo, hhi⟩
    -- the page of the address
    obtain ⟨p, hp⟩ : ∃ p, p = (va - base) / 4096 * 4096 := ⟨_, rfl⟩
    refine ⟨_, ⟨p, (hsteps p).mpr (by omega), rfl⟩, ?_⟩
    rw [paToVa, Nat.mod_eq_of_lt (by omega)]
    omega

theorem pagesOf_append (ps qs : List ℕ) : pagesOf (ps ++ qs) = pagesOf ps ∪ pagesOf qs := by
  ext va
  simp only [pagesOf, Set.mem_ofPred_eq, List.mem_append, or_and_right, exists_or, Set.mem_union]

/-! ## Devices and the kernel -/

section Apart

variable {e : BootEnv} {l : KaslrLayout} {pa size : ℕ}

theorem bootVaToPa_eq {va : ℕ} (hle : kDirectMapBaseDefault ≤ va)
    (hlt : va ≤ kDirectMapBaseDefault + 2 ^ 37) : bootVaToPa va = va - kDirectMapBaseDefault := by
  simp only [bootVaToPa, kDirectMapBaseDefault] at *
  omega

/-- Every boundary of the image is at most the end of RAM. -/
structure SymbolsBelow (s : KernelSymbols) (bound : ℕ) : Prop where
  etext : bootVaToPa s.etext ≤ bound
  erodata : bootVaToPa s.erodata ≤ bound
  ebss : bootVaToPa s.ebss ≤ bound
  kernelEnd : bootVaToPa s.kernelEnd ≤ bound

theorem SymbolsBelow.mono {s : KernelSymbols} {bound bound' : ℕ} (h : SymbolsBelow s bound)
    (hle : bound ≤ bound') : SymbolsBelow s bound' :=
  ⟨h.etext.trans hle, h.erodata.trans hle, h.ebss.trans hle, h.kernelEnd.trans hle⟩

theorem BootEnv.ImageInRam.below (h : e.ImageInRam) (hbase : e.memBase = kPhysBase)
    (hsize : e.memSize ≤ 32 * k1GB) : SymbolsBelow e.symbols (e.memBase + e.memSize) := by
  obtain ⟨hstart, htext, ⟨hro, hro'⟩, ⟨hdata, hdata'⟩, hstop, hram⟩ := h
  have hbound {va : ℕ} (hle : kDirectMapBaseDefault + e.memBase ≤ va)
      (hlt : va ≤ kDirectMapBaseDefault + (e.memBase + e.memSize)) :
      bootVaToPa va ≤ e.memBase + e.memSize := by
    simp only [kPhysBase, k1GB] at hbase hsize
    rw [bootVaToPa_eq (by omega) (by omega)]
    omega
  exact ⟨hbound (by omega) (by omega), hbound (by omega) (by omega), hbound (by omega) (by omega),
    hbound (by omega) (by omega)⟩

theorem directMapBase_bounds (hl : kaslrLayoutCompute e = .ok l) :
    kPageSize ∣ l.directMapBase ∧ l.directMapBase + 2 ^ 37 ≤ 2 ^ 64 := by
  obtain ⟨hslot, hslide, hdirect, -⟩ := kaslrLayoutCompute_bases hl
  simp only [k1GB, kDirectMapBaseDefault] at hslide hdirect
  refine ⟨?_, by omega⟩
  simp only [kPageSize]
  omega

theorem mmioSteps_eq (hend : pa + size ≤ 2 ^ 36) :
    mmioSteps pa size = pageSteps (pageAlignDown pa) (pageAlignUp (pa + size)) := by
  obtain ⟨hle, hlt⟩ := le_pageAlignUp (show pa + size ≤ 2 ^ 64 - kPageSize by simp only [kPageSize]; omega)
  have hdown : pageAlignDown pa ≤ pa := Nat.div_mul_le_self pa kPageSize
  simp only [kPageSize] at hlt
  rw [mmioSteps, Nat.mod_eq_of_lt (show pa + size < 2 ^ 64 by omega)]
  congr 1
  omega

theorem pagesOf_mmioPages (hl : kaslrLayoutCompute e = .ok l) (hend : pa + size ≤ 2 ^ 36) :
    pagesOf (mmioPages l pa size) =
      Set.Ico (kDirectMapBaseDefault + (pageAlignDown pa + l.slideBytes))
        (kDirectMapBaseDefault + (pageAlignUp (pa + size) + l.slideBytes)) := by
  obtain ⟨-, -, hdirect, -⟩ := kaslrLayoutCompute_bases hl
  obtain ⟨hdvd, hroom⟩ := directMapBase_bounds hl
  obtain ⟨-, hlt⟩ :=
    le_pageAlignUp (show pa + size ≤ 2 ^ 64 - kPageSize by simp only [kPageSize]; omega)
  have hsize : kPageSize = 4096 := rfl
  rw [mmioPages, mmioSteps_eq hend, pagesOf_pageSteps hdvd (dvd_pageAlignDown pa) (by omega),
    pageAlignUp_of_dvd (dvd_pageAlignUp _) (pageAlignUp_lt _), hdirect]
  congr 1 <;> omega

theorem pagesOf_linked {a b : ℕ} (hb : b ≤ 2 ^ 37) :
    pagesOf ((pageSteps (pageAlignDown a) (pageAlignUp b)).map bootPaToVa) =
      Set.Ico (kDirectMapBaseDefault + pageAlignDown a) (kDirectMapBaseDefault + pageAlignUp b) := by
  obtain ⟨hle, hlt⟩ := le_pageAlignUp (show b ≤ 2 ^ 64 - kPageSize by simp only [kPageSize]; omega)
  simp only [kPageSize] at hlt
  have hmap : bootPaToVa = paToVa kDirectMapBaseDefault := rfl
  rw [hmap, pagesOf_pageSteps (by decide) (dvd_pageAlignDown a)
    (by simp only [kDirectMapBaseDefault, kPageSize]; omega),
    pageAlignUp_of_dvd (dvd_pageAlignUp _) (pageAlignUp_lt _)]

theorem pagesOf_imagePages (h : SymbolsBelow e.symbols (2 ^ 37)) : pagesOf e.imagePages =
      Set.Ico (kDirectMapBaseDefault + e.symbols.textStart) (kDirectMapBaseDefault + e.symbols.textEnd) ∪
      Set.Ico (kDirectMapBaseDefault + e.symbols.roStart) (kDirectMapBaseDefault + e.symbols.roEnd) ∪
      Set.Ico (kDirectMapBaseDefault + e.symbols.dataStart) (kDirectMapBaseDefault + e.symbols.bssEnd) := by
  rw [BootEnv.imagePages, List.map_append, List.map_append, pagesOf_append, pagesOf_append]
  exact congrArg₂ _ (congrArg₂ _ (pagesOf_linked h.etext) (pagesOf_linked h.erodata))
    (pagesOf_linked h.ebss)

theorem ico_disjoint_iff {a lo hi lo' hi' : ℕ} :
    Disjoint (Set.Ico (a + lo) (a + hi)) (Set.Ico (a + lo') (a + hi')) ↔ RangesApart lo hi lo' hi' := by
  rw [Set.Ico_disjoint_Ico, RangesApart]
  omega

theorem image_disjoint_iff (hl : kaslrLayoutCompute e = .ok l) (hend : pa + size ≤ 2 ^ 36)
    (hbelow : SymbolsBelow e.symbols (2 ^ 37)) :
    Disjoint (pagesOf (mmioPages l pa size)) (pagesOf e.imagePages) ↔
      (RangesApart (pageAlignDown pa + l.slideBytes) (pageAlignUp (pa + size) + l.slideBytes)
          e.symbols.textStart e.symbols.textEnd ∧
        RangesApart (pageAlignDown pa + l.slideBytes) (pageAlignUp (pa + size) + l.slideBytes)
          e.symbols.roStart e.symbols.roEnd) ∧
      RangesApart (pageAlignDown pa + l.slideBytes) (pageAlignUp (pa + size) + l.slideBytes)
        e.symbols.dataStart e.symbols.bssEnd := by
  rw [pagesOf_mmioPages hl hend, pagesOf_imagePages hbelow, Set.disjoint_union_right,
    Set.disjoint_union_right, ico_disjoint_iff, ico_disjoint_iff, ico_disjoint_iff]

theorem BootEnv.ImageInRam.memBase_le (h : e.ImageInRam) (hram : e.memBase + e.memSize ≤ 2 ^ 36) :
    e.memBase ≤ e.symbols.afterKernel := by
  obtain ⟨h₁, h₂, ⟨h₃, h₄⟩, ⟨h₅, h₆⟩, h₇, h₈⟩ := h
  have hpa : bootVaToPa e.symbols.kernelEnd = e.symbols.kernelEnd - kDirectMapBaseDefault :=
    bootVaToPa_eq (by omega) (by omega)
  have hle := (le_pageAlignUp (show bootVaToPa e.symbols.kernelEnd ≤ 2 ^ 64 - kPageSize by
    simp only [kPageSize]; omega)).1
  rw [KernelSymbols.afterKernel]
  omega

theorem memEnd_le (hbase : e.memBase = kPhysBase) (hsize : e.memSize ≤ 32 * k1GB) :
    e.memEnd = e.memBase + e.memSize ∧ e.memBase + e.memSize ≤ 2 ^ 36 := by
  have hle : e.memBase + e.memSize ≤ 2 ^ 36 := by
    simp only [hbase, kPhysBase, k1GB] at hsize ⊢
    omega
  exact ⟨Nat.mod_eq_of_lt (by omega), hle⟩

theorem pagesOf_directPages (hl : kaslrLayoutCompute e = .ok l)
    (hbase : e.memBase = kPhysBase) (hsize : e.memSize ≤ 32 * k1GB)
    (hlt : e.symbols.afterKernel < e.memBase + e.memSize) : pagesOf (e.directPages l) =
      Set.Ico (kDirectMapBaseDefault + (e.symbols.afterKernel + l.slideBytes))
        (kDirectMapBaseDefault + (pageAlignUp (e.memBase + e.memSize) + l.slideBytes)) := by
  obtain ⟨-, -, hdirect, -⟩ := kaslrLayoutCompute_bases hl
  obtain ⟨hdvd, hroom⟩ := directMapBase_bounds hl
  have hram := memEnd_le hbase hsize
  have hpage : kPageSize = 4096 := rfl
  have hkernel : kPageSize ∣ e.symbols.afterKernel := dvd_pageAlignUp _
  rw [BootEnv.directPages, hram.1, if_pos hlt, pagesOf_pageSteps hdvd hkernel (by omega), hdirect]
  congr 1 <;> omega

theorem pageAlignUp_le {a b : ℕ} (hb : kPageSize ∣ b) (hle : a ≤ b) (hlt : a ≤ 2 ^ 36) :
    pageAlignUp a ≤ b := by
  have hup := dvd_pageAlignUp a
  have hnext := (le_pageAlignUp (show a ≤ 2 ^ 64 - kPageSize by simp only [kPageSize]; omega)).2
  simp only [kPageSize] at hb hup hnext
  omega

theorem lt_of_pageAlignDown_lt {a b : ℕ} (hb : kPageSize ∣ b) (hlt : pageAlignDown a < b) : a < b := by
  simp only [pageAlignDown, kPageSize] at hb hlt
  omega

theorem direct_disjoint_iff (hl : kaslrLayoutCompute e = .ok l) (hbase : e.memBase = kPhysBase)
    (hsize : e.memSize ≤ 32 * k1GB) (himage : e.ImageInRam) (hend : pa + size ≤ 2 ^ 36)
    (hdev : ∀ x, pa ≤ x → x < pa + size → ¬ (e.memBase ≤ x ∧ x < e.memBase + e.memSize)) :
    Disjoint (pagesOf (mmioPages l pa size)) (pagesOf (e.directPages l)) ↔
      pageAlignUp (pa + size) ≤ pageAlignDown pa ∨ pageAlignDown pa < e.symbols.afterKernel ∨
        e.memBase + e.memSize ≤ pageAlignDown pa := by
  have hram := memEnd_le hbase hsize
  by_cases hlt : e.symbols.afterKernel < e.memBase + e.memSize
  · rw [pagesOf_mmioPages hl hend, pagesOf_directPages hl hbase hsize hlt, ico_disjoint_iff,
      RangesApart, min_le_iff, le_max_iff, le_max_iff]
    simp only [Nat.add_le_add_iff_right]
    have hup := le_pageAlignUp
      (show e.memBase + e.memSize ≤ 2 ^ 64 - kPageSize by simp only [kPageSize]; omega)
    constructor
    · rintro ((h | h) | h | h)
      · exact .inl h
      · rcases Nat.lt_or_ge (pageAlignDown pa) (pageAlignUp (pa + size)) with hne | hempty
        · exact .inr (.inl (hne.trans_le h))
        · exact .inl hempty
      · exact .inr (.inr (hup.1.trans h))
      · exact absurd (hup.1.trans h) (not_le.mpr hlt)
    · rintro (h | h | h)
      · exact .inl (.inl h)
      · -- the device ends below RAM, since it begins below the RAM that is mapped
        refine .inl (.inr (pageAlignUp_le (dvd_pageAlignUp _) ?_ hend))
        have hpa : pa < e.symbols.afterKernel := lt_of_pageAlignDown_lt (dvd_pageAlignUp _) h
        have hkernel := himage.memBase_le hram.2
        have hfirst := hdev pa le_rfl
        have hinside := hdev e.memBase
        omega
      · exact .inr (.inl (pageAlignUp_le (dvd_pageAlignDown pa) h (by omega)))
  · have hnone : e.directPages l = [] := by
      rw [BootEnv.directPages, hram.1, if_neg hlt]
    have hempty : pagesOf [] = ∅ := Set.eq_empty_iff_forall_notMem.mpr fun _ h => by
      obtain ⟨_, hp, -⟩ := h
      exact List.not_mem_nil hp
    rw [hnone, hempty]
    refine ⟨fun _ => by omega, fun _ => Set.disjoint_empty _⟩

theorem vmemmap_disjoint (hl : kaslrLayoutCompute e = .ok l) (hend : pa + size ≤ 2 ^ 36) :
    Disjoint (pagesOf (mmioPages l pa size)) (e.vmemmap l) := by
  obtain ⟨-, -, -, hvmemmap⟩ := kaslrLayoutCompute_bases hl
  rw [pagesOf_mmioPages hl hend, BootEnv.vmemmap, hvmemmap, Set.Ico_disjoint_Ico]
  have hup : pageAlignUp (pa + size) ≤ 2 ^ 36 := by
    simp only [pageAlignUp, pageAlignDown, kPageSize]
    omega
  simp only [kDirectMapBaseDefault, kVmemmapBaseDefault]
  omega

/-- **Device mappings and the kernel.** The pages of a device outside of RAM are none of the kernel's
exactly if, moved up by the slide, they are not pages of the image, and the device does not begin in
a page that it shares with RAM. -/
theorem mmio_apart_iff (hl : kaslrLayoutCompute e = .ok l) (hbase : e.memBase = kPhysBase)
    (hsize : e.memSize ≤ 32 * k1GB) (himage : e.ImageInRam) (hend : pa + size ≤ 2 ^ 36)
    (hdev : ∀ x, pa ≤ x → x < pa + size → ¬ (e.memBase ≤ x ∧ x < e.memBase + e.memSize)) :
    MmioApart e l pa size ↔ MmioClear e l pa size := by
  have hbelow : SymbolsBelow e.symbols (2 ^ 37) :=
    (himage.below hbase hsize).mono ((memEnd_le hbase hsize).2.trans (by decide))
  have himg := image_disjoint_iff hl hend hbelow
  have hdirect := direct_disjoint_iff hl hbase hsize himage hend hdev
  constructor
  · rintro ⟨h₁, h₂, -⟩
    obtain ⟨⟨htext, hro⟩, hdata⟩ := himg.mp h₁
    exact ⟨htext, hro, hdata, hdirect.mp h₂⟩
  · rintro ⟨htext, hro, hdata, hram⟩
    exact ⟨himg.mpr ⟨⟨htext, hro⟩, hdata⟩, hdirect.mpr hram, vmemmap_disjoint hl hend⟩

end Apart

/-- A machine of 128 MB whose image has three pages, with slot 1. -/
def smallEnv : BootEnv where
  kaslr := true
  policyId := 0
  seed := 0
  seedSource := .cycleFallback
  raw := 1
  memBase := 0x80000000
  memSize := 0x8000000
  symbols :=
    { stext := 0xFFFFFFC080200000
      etext := 0xFFFFFFC080200F00
      srodata := 0xFFFFFFC080201000
      erodata := 0xFFFFFFC080201F00
      sdata := 0xFFFFFFC080202000
      ebss := 0xFFFFFFC080203000
      kernelEnd := 0xFFFFFFC080203000 }

def smallLayout : KaslrLayout := { kaslrLayout smallEnv with canonicalOk := true, overlapOk := true }

theorem kaslrLayoutCompute_small : kaslrLayoutCompute smallEnv = .ok smallLayout := by
  rfl

theorem smallEnv_imageInRam : smallEnv.ImageInRam := by
  constructor <;> decide

/-- The serial console of this machine does not touch the kernel. -/
theorem mmio_apart_uart : MmioClear smallEnv smallLayout 0x10000000 0x100 ∧
    MmioApart smallEnv smallLayout 0x10000000 0x100 := by
  have hclear : MmioClear smallEnv smallLayout 0x10000000 0x100 := by
    constructor <;> decide
  refine ⟨hclear, (mmio_apart_iff kaslrLayoutCompute_small rfl (by decide) smallEnv_imageInRam
    (by decide) fun x _ hlt hram => ?_).mpr hclear⟩
  exact absurd (hram.1.trans_lt hlt) (by decide)

/-- A device one gigabyte below the image is mapped on top of it. -/
theorem device_covers_kernel_text :
    kaslrLayoutCompute smallEnv = .ok smallLayout ∧ smallEnv.ImageInRam ∧
    (∀ x, 0x40200000 ≤ x → x < 0x40200000 + 0x1000 →
      ¬ (smallEnv.memBase ≤ x ∧ x < smallEnv.memBase + smallEnv.memSize)) ∧
    0xFFFFFFC080200000 ∈ mmioPages smallLayout 0x40200000 0x1000 ∧
    0xFFFFFFC080200000 ∈ smallEnv.imagePages ∧ ¬ MmioApart smallEnv smallLayout 0x40200000 0x1000 := by
  have hdev : 0xFFFFFFC080200000 ∈ mmioPages smallLayout 0x40200000 0x1000 := by decide
  have himg : 0xFFFFFFC080200000 ∈ smallEnv.imagePages := by decide
  refine ⟨kaslrLayoutCompute_small, smallEnv_imageInRam, fun x _ hlt hram => ?_, hdev, himg, fun h => ?_⟩
  · exact absurd (hram.1.trans_lt hlt) (by decide)
  · exact Set.disjoint_left.mp h.image ⟨_, hdev, le_rfl, by decide⟩ ⟨_, himg, le_rfl, by decide⟩

end Lume
