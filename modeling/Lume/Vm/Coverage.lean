import Lume.Vm.Regions

/-!
# The coverage test

`vma_range_covered` rounds a range to pages and sweeps the tree of regions with a cursor. On the
rounded range the sweep is exact. The rounding is where it differs from the pages that meet the
range: the end wraps to zero within a page of `2 ^ 64`, and then everything counts as covered; and an
empty range in the middle of a page is rounded to that page.

## Main definitions

* `VmSpace.rangeCovered`: the test
* `CoversPages`: every page that meets a range lies in a region
* `RoundsWell`: when the rounded range has the pages of the range

## Main results

* `rangeCovered_iff`: the sweep is exact
* `range_covered_exact_iff`: when the test is
* `top_page_counts_as_covered`: what goes wrong otherwise
-/

namespace Lume

open Segs (Sorted)

/-- `vma_range_covered`; there may be no address space. -/
def vmaRangeCovered (space : Option VmSpace) (start stop : ℕ) : Bool :=
  match space with
  | none => false
  | some space =>
    if pageAlignUp stop ≤ pageAlignDown start then true
    else rangeCovered (pageAlignUp stop) space.vmas (pageAlignDown start)

/-- The page with number `p` lies in a region. -/
def PageIn (t : List Vma) (p : ℕ) : Prop := ∃ v ∈ t, ∀ a, a / kPageSize = p → a ∈ v

/-- Every page that meets the range lies in a region. -/
def CoversPages (t : List Vma) (start stop : ℕ) : Prop :=
  ∀ p, (∃ a, start ≤ a ∧ a < stop ∧ a / kPageSize = p) → PageIn t p

/-- The range ends before the last page, or is empty there; and an empty range does not stand in the
middle of a page that lies in no region. -/
def RoundsWell (t : List Vma) (start stop : ℕ) : Prop :=
  if start < stop then stop ≤ 2 ^ 64 - kPageSize
  else kPageSize ∣ start ∨ 2 ^ 64 - kPageSize < stop ∨ PageIn t (start / kPageSize)

variable {hi start stop : ℕ} {t : List Vma}

/-- **The sweep is exact.** -/
theorem rangeCovered_iff (h : Sorted t) (cursor : ℕ) :
    rangeCovered stop t cursor = true ↔ ∀ a, cursor ≤ a → a < stop → ∃ v ∈ t, a ∈ v := by
  refine ⟨fun hcov a hlo hhi => exists_mem_of_rangeCovered t cursor hcov hlo hhi, fun hall => ?_⟩
  induction t generalizing cursor with
  | nil =>
    rw [rangeCovered, decide_eq_true_eq]
    by_contra hlt
    obtain ⟨v, hv, -⟩ := hall cursor le_rfl (not_le.mp hlt)
    exact absurd hv List.not_mem_nil
  | cons v t ih =>
    have hrest : Sorted t := h.sublist (List.sublist_cons_self v t)
    have hafter : ∀ u ∈ t, v.stop ≤ u.start := (List.pairwise_cons.mp h.apart).1
    -- a point from `c` on that is not in the first region is in one of the others
    have hstep (c : ℕ) (hc : cursor ≤ c) (hv : v.stop ≤ c) : rangeCovered stop t c = true := by
      refine ih hrest c fun a hlo hhi => ?_
      obtain ⟨u, hu, hau⟩ := hall a (hc.trans hlo) hhi
      rcases List.mem_cons.mp hu with rfl | hu
      · exact absurd hau.2 (by omega)
      · exact ⟨u, hu, hau⟩
    rw [rangeCovered]
    by_cases hdone : cursor < stop
    · rw [if_pos hdone]
      by_cases hpast : v.stop ≤ cursor
      · rw [if_pos hpast]
        exact hstep cursor le_rfl hpast
      · -- the cursor is in no later region
        have hin : v.start ≤ cursor := by
          obtain ⟨u, hu, hau⟩ := hall cursor le_rfl hdone
          rcases List.mem_cons.mp hu with rfl | hu
          · exact hau.1
          · have hle := (hafter u hu).trans hau.1
            omega
        rw [if_neg hpast, if_neg (by omega)]
        exact hstep v.stop (by omega) le_rfl
    · rw [if_neg hdone]

theorem RegionInv.pageIn_iff (h : RegionInv hi t) {a : ℕ} :
    PageIn t (a / kPageSize) ↔ ∃ v ∈ t, a ∈ v := by
  constructor
  · rintro ⟨v, hv, hpage⟩
    exact ⟨v, hv, hpage a rfl⟩
  · rintro ⟨v, hv, ha⟩
    refine ⟨v, hv, fun a' hsame => ?_⟩
    obtain ⟨⟨i, hi⟩, ⟨j, hj⟩⟩ := h.aligned v hv
    obtain ⟨hlo, hhi⟩ := ha
    refine ⟨?_, ?_⟩
    · simp only [kPageSize] at *
      omega
    · simp only [kPageSize] at *
      omega

theorem RegionInv.covers_iff (h : RegionInv hi t) :
    CoversPages t start stop ↔ ∀ a, start ≤ a → a < stop → ∃ v ∈ t, a ∈ v := by
  constructor
  · intro hcov a hlo hhi
    exact h.pageIn_iff.mp (hcov _ ⟨a, hlo, hhi, rfl⟩)
  · rintro hall p ⟨a, hlo, hhi, rfl⟩
    exact h.pageIn_iff.mpr (hall a hlo hhi)

theorem covers_aligned (hlt : start < stop) (hstop : stop ≤ 2 ^ 64 - kPageSize) :
    CoversPages t (pageAlignDown start) (pageAlignUp stop) ↔ CoversPages t start stop := by
  have hround (a : ℕ) (hlo : pageAlignDown start ≤ a) (hhi : a < pageAlignUp stop) :
      ∃ a', start ≤ a' ∧ a' < stop ∧ a' / kPageSize = a / kPageSize := by
    refine ⟨max start (a / kPageSize * kPageSize), le_max_left .., ?_, ?_⟩
    · simp only [pageAlignDown, pageAlignUp, kPageSize] at *
      omega
    · simp only [pageAlignDown, pageAlignUp, kPageSize] at *
      omega
  constructor
  · rintro hcov p ⟨a, hlo, hhi, rfl⟩
    refine hcov _ ⟨a, ?_, ?_, rfl⟩
    · exact (Nat.div_mul_le_self ..).trans hlo
    · simp only [pageAlignDown, pageAlignUp, kPageSize] at *
      omega
  · rintro hcov p ⟨a, hlo, hhi, rfl⟩
    obtain ⟨a', hlo', hhi', hsame⟩ := hround a hlo hhi
    exact hcov _ ⟨a', hlo', hhi', hsame⟩

theorem covers_empty (t : List Vma) (start : ℕ) : CoversPages t start start := by
  rintro p ⟨a, hlo, hhi, -⟩
  omega

theorem RegionInv.not_covers_top (h : RegionInv kUserVaLimit t) (hlt : start < stop)
    (hstop : 2 ^ 64 - kPageSize < stop) : ¬ CoversPages t start stop := by
  intro hcov
  obtain ⟨v, hv, ha⟩ := h.covers_iff.mp hcov (stop - 1) (by omega) (by omega)
  have hle := (h.bounds v hv).2
  have hlast := ha.2
  simp only [kUserVaLimit, kPageSize] at *
  omega

theorem RegionInv.vmaRangeCovered_iff {space : VmSpace} (h : RegionInv hi space.vmas) :
    vmaRangeCovered (some space) start stop = true ↔
      CoversPages space.vmas (pageAlignDown start) (pageAlignUp stop) := by
  rw [vmaRangeCovered]
  by_cases hempty : pageAlignUp stop ≤ pageAlignDown start
  · rw [if_pos hempty]
    refine ⟨fun _ => ?_, fun _ => rfl⟩
    rintro p ⟨a, hlo, hhi, -⟩
    omega
  · rw [if_neg hempty, rangeCovered_iff h.sorted, h.covers_iff]

theorem covers_page (hmid : ¬ kPageSize ∣ start) (hstop : start ≤ 2 ^ 64 - kPageSize) :
    CoversPages t (pageAlignDown start) (pageAlignUp start) ↔ PageIn t (start / kPageSize) := by
  have hup := le_pageAlignUp hstop
  have hlt : start < pageAlignUp start :=
    lt_of_le_of_ne hup.1 fun heq => hmid (heq ▸ dvd_pageAlignUp start)
  constructor
  · intro hcov
    exact hcov _ ⟨start, Nat.div_mul_le_self .., hlt, rfl⟩
  · rintro hpage p ⟨a, hlo, hhi, rfl⟩
    have hsame : a / kPageSize = start / kPageSize := by
      simp only [pageAlignDown, pageAlignUp, kPageSize] at *
      omega
    rwa [hsame]

/-- **The coverage test** is exact if the range is rounded to its pages, and only then. -/
theorem range_covered_exact_iff {space : VmSpace} (h : RegionInv kUserVaLimit space.vmas)
    {start stop : ℕ} (hle : start ≤ stop) (hlt : stop < 2 ^ 64) :
    (vmaRangeCovered (some space) start stop = true ↔ CoversPages space.vmas start stop) ↔
      RoundsWell space.vmas start stop := by
  rw [h.vmaRangeCovered_iff, RoundsWell]
  by_cases hwrap : 2 ^ 64 - kPageSize < stop
  · -- the end wraps to zero
    have htrue : CoversPages space.vmas (pageAlignDown start) (pageAlignUp stop) := by
      rw [pageAlignUp_of_lt hwrap hlt]
      rintro p ⟨a, -, hhi, -⟩
      omega
    by_cases hne : start < stop
    · rw [if_pos hne]
      exact iff_of_false (fun hiff => h.not_covers_top hne hwrap (hiff.mp htrue)) (by omega)
    · obtain rfl : start = stop := by omega
      rw [if_neg hne]
      exact iff_of_true (iff_of_true htrue (covers_empty _ _)) (.inr (.inl hwrap))
  · by_cases hne : start < stop
    · rw [if_pos hne]
      exact iff_of_true (covers_aligned hne (by omega)) (by omega)
    · obtain rfl : start = stop := by omega
      rw [if_neg hne, iff_true_right (covers_empty _ _)]
      by_cases hdvd : kPageSize ∣ start
      · refine iff_of_true ?_ (.inl hdvd)
        rw [pageAlignDown_of_dvd hdvd, pageAlignUp_of_dvd hdvd hlt]
        exact covers_empty _ _
      · rw [covers_page hdvd (by omega)]
        refine ⟨fun hpage => .inr (.inr hpage), ?_⟩
        rintro (hd | hw | hpage)
        · exact absurd hd hdvd
        · exact absurd hw hwrap
        · exact hpage

/-- An address space with one region of two pages. -/
def twoPages : VmSpace := ⟨0, [⟨0xB0000, 0xB2000, 1⟩], 0, 0⟩

theorem twoPages_regions : RegionInv kUserVaLimit twoPages.vmas :=
  ⟨⟨List.pairwise_singleton .., by decide⟩, by decide, by decide⟩

theorem range_covered_exact_two_pages :
    CoversPages twoPages.vmas 0xB0800 0xB1001 ∧ ¬ CoversPages twoPages.vmas 0xB0000 0xB3000 := by
  have hin : RoundsWell twoPages.vmas 0xB0800 0xB1001 := by
    rw [RoundsWell, if_pos (by decide)]
    decide
  have hout : RoundsWell twoPages.vmas 0xB0000 0xB3000 := by
    rw [RoundsWell, if_pos (by decide)]
    decide
  constructor
  · exact ((range_covered_exact_iff twoPages_regions (by decide) (by decide)).mpr hin).mp (by decide)
  · intro hcov
    have htest := ((range_covered_exact_iff twoPages_regions (by decide) (by decide)).mpr hout).mpr hcov
    exact absurd htest (by decide)

/-- **The last page counts as covered**, and an empty range in the middle of a page does not. -/
theorem top_page_counts_as_covered :
    vmaRangeCovered (some twoPages) (2 ^ 64 - 0x1000) (2 ^ 64 - 1) = true ∧
      ¬ CoversPages twoPages.vmas (2 ^ 64 - 0x1000) (2 ^ 64 - 1) ∧
    vmaRangeCovered (some twoPages) 0x1001 0x1001 = false ∧
      CoversPages twoPages.vmas 0x1001 0x1001 :=
  ⟨by decide, twoPages_regions.not_covers_top (by decide) (by decide), by decide,
    covers_empty _ _⟩

end Lume
