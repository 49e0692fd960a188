import Mathlib.Algebra.Order.Ring.Nat
import Mathlib.Data.Nat.Basic

/-!
# Compile-time configuration and the physical memory layout

The constants of `include/lume/config.h`, `include/lume/pmm.h` and `include/lume/errno.h`, the address
rounding of `include/lume/addr.h`, and the RAM range that the boot code reads from the device tree.

## Main definitions

* `Ram`: the RAM range, page aligned and inside the direct map
* `pageAlignDown`, `pageAlignUp`: rounding of 64-bit addresses
-/

namespace Lume

/-- `kPageSize` -/
def kPageSize : ℕ := 4096

/-- `kMaxCpus` -/
def kMaxCpus : ℕ := 8

/-- `kMaxOrder`: buddy orders run from `0` to `kMaxOrder - 1`. -/
def kMaxOrder : ℕ := 11

/-- `ENOMEM` -/
def eNomem : Int := 12

/-- `EFAULT` -/
def eFault : Int := 14

/-- `EBUSY` -/
def eBusy : Int := 16

/-- `EINVAL` -/
def eInval : Int := 22

/-- `page_align_down` -/
def pageAlignDown (addr : ℕ) : ℕ := addr / kPageSize * kPageSize

/-- `page_align_up`, in 64-bit arithmetic: the addition wraps. -/
def pageAlignUp (addr : ℕ) : ℕ := pageAlignDown ((addr + kPageSize - 1) % 2 ^ 64)

theorem dvd_pageAlignDown (a : ℕ) : kPageSize ∣ pageAlignDown a := Nat.dvd_mul_left _ _

theorem dvd_pageAlignUp (a : ℕ) : kPageSize ∣ pageAlignUp a := dvd_pageAlignDown _

theorem pageAlignUp_lt (a : ℕ) : pageAlignUp a < 2 ^ 64 := by
  simp only [pageAlignUp, pageAlignDown, kPageSize]
  omega

theorem le_pageAlignUp {len : ℕ} (h : len ≤ 2 ^ 64 - kPageSize) :
    len ≤ pageAlignUp len ∧ pageAlignUp len < len + kPageSize := by
  simp only [pageAlignUp, pageAlignDown, kPageSize] at *
  omega

theorem pageAlignUp_of_lt {len : ℕ} (h : 2 ^ 64 - kPageSize < len) (hlt : len < 2 ^ 64) :
    pageAlignUp len = 0 := by
  simp only [pageAlignUp, pageAlignDown, kPageSize] at *
  omega

theorem pageAlignDown_of_dvd {a : ℕ} (h : kPageSize ∣ a) : pageAlignDown a = a :=
  Nat.div_mul_cancel h

theorem pageAlignUp_of_dvd {a : ℕ} (h : kPageSize ∣ a) (hlt : a < 2 ^ 64) : pageAlignUp a = a := by
  obtain ⟨i, rfl⟩ := h
  simp only [pageAlignUp, pageAlignDown, kPageSize] at *
  omega

/-- The RAM range `[memBase, memBase + memSize)`. Its bounds are page aligned, address `0` is
not RAM, and the range fits the direct map in the kernel half of the SV39 space:
`kaslr_layout_compute` panics on a layout that does not. -/
structure Ram where
  memBase : ℕ
  memSize : ℕ
  base_pos : 0 < memBase
  base_aligned : kPageSize ∣ memBase
  size_aligned : kPageSize ∣ memSize
  end_le : memBase + memSize ≤ 2 ^ 38
deriving DecidableEq

namespace Ram

variable (ram : Ram)

/-- `g_num_pages` -/
def numPages : ℕ := ram.memSize / kPageSize

/-- `memBase + memSize` -/
def memEnd : ℕ := ram.memBase + ram.memSize

/-- `page_index_to_pa` -/
def pageToPa (idx : ℕ) : ℕ := ram.memBase + idx * kPageSize

/-- `pa_to_page_index`; `none` is its panic on an address outside the managed range. -/
def paToPage (pa : ℕ) : Option ℕ :=
  if pa < ram.memBase ∨ ram.memBase + ram.numPages * kPageSize ≤ pa then none
  else some ((pa - ram.memBase) / kPageSize)

theorem numPages_mul : ram.numPages * kPageSize = ram.memSize :=
  Nat.div_mul_cancel ram.size_aligned

theorem pageToPa_lt_memEnd {idx : ℕ} : ram.pageToPa idx < ram.memEnd ↔ idx < ram.numPages := by
  have h := ram.numPages_mul
  simp only [pageToPa, memEnd, kPageSize] at h ⊢
  omega

theorem paToPage_pageToPa {idx : ℕ} (h : idx < ram.numPages) :
    ram.paToPage (ram.pageToPa idx) = some idx := by
  have hlt : ¬ (ram.pageToPa idx < ram.memBase ∨
      ram.memBase + ram.numPages * kPageSize ≤ ram.pageToPa idx) := by
    simp only [pageToPa, kPageSize]
    omega
  rw [paToPage, if_neg hlt]
  simp [pageToPa, kPageSize]

theorem pageToPa_injective : Function.Injective ram.pageToPa := by
  intro a b h
  simp only [pageToPa, kPageSize] at h
  omega

theorem pageToPa_aligned (idx : ℕ) : kPageSize ∣ ram.pageToPa idx :=
  (Nat.dvd_add_right ram.base_aligned).mpr (Nat.dvd_mul_left _ _)

theorem pageToPa_lt {idx : ℕ} (h : idx < ram.numPages) : ram.pageToPa idx < 2 ^ 38 := by
  have h₁ := ram.numPages_mul
  have h₂ := ram.end_le
  simp only [pageToPa, kPageSize] at h₁ ⊢
  omega

end Ram

end Lume
