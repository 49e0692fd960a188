import Mathlib.Order.Bounds.Basic
import Mathlib.Order.CompletePartialOrder
import Mathlib.Order.Interval.Set.Disjoint
import Lume.Config
import Lume.Foundation.Loop

/-!
# The search for a load base

`find_gap_from` of `arch/riscv/boot/compressed.cc`. From a start address downwards it looks for a
page at which an image fits between reserved ranges: as long as the image meets a range it goes on
below the lowest one that it meets, for 64 rounds at most.

## Main definitions

* `findGapFrom`: the search
* `Fits`: the image meets none of the ranges

## Main results

* `gapScan_some`, `gapScan_none`: the loop over the ranges
* `gapBody_goes`: no place is jumped over, and fewer ranges are above the next one
* `findGapFrom_greatest`: the search finds the highest place there is
-/

namespace Lume

/-- `ReservedRange` -/
structure ReservedRange where
  start : ℕ
  stop : ℕ
  deriving DecidableEq, Repr

/-- `ranges_overlap` -/
def rangesOverlap (base size : ℕ) (r : ReservedRange) : Bool :=
  if size = 0 then false
  else if 2 ^ 64 - 1 - size < base then true
  else base < r.stop && r.start < (base + size) % 2 ^ 64

/-- The loop over the ranges: whether one was met, and where to go on; `none` where the function
returns 0. -/
def gapScan (candidate imageSize : ℕ) : List ReservedRange → Bool → ℕ → Option (Bool × ℕ)
  | [], hit, next => some (hit, next)
  | r :: rs, hit, next =>
    if rangesOverlap candidate imageSize r then
      if r.start < imageSize then none
      else
        let below := pageAlignDown (r.start - imageSize)
        gapScan candidate imageSize rs true (if below < next then below else next)
    else gapScan candidate imageSize rs hit next

/-- One of the 64 rounds. -/
def gapBody (minBase : ℕ) (ranges : List ReservedRange) (imageSize candidate : ℕ) : ℕ ⊕ ℕ :=
  if candidate < minBase then .inr 0
  else
    match gapScan candidate imageSize ranges false candidate with
    | none => .inr 0
    | some (hit, next) =>
      if hit = false then .inr candidate
      else if candidate ≤ next then .inr 0
      else .inl next

/-- `find_gap_from`: 0 also behind the last round. -/
def findGapFrom (start minBase : ℕ) (ranges : List ReservedRange) (imageSize : ℕ) : ℕ :=
  (loop (gapBody minBase ranges imageSize) 64 (pageAlignDown start)).getD 0

/-! ## Places -/

/-- The image meets none of the ranges. -/
def Fits (ranges : List ReservedRange) (imageSize base : ℕ) : Prop :=
  ∀ r ∈ ranges, Disjoint (Set.Ico base (base + imageSize)) (Set.Ico r.start r.stop)

/-- The places at which an image can stand, from `minBase` to `top`. -/
def places (minBase top : ℕ) (ranges : List ReservedRange) (imageSize : ℕ) : Set ℕ :=
  {base | kPageSize ∣ base ∧ minBase ≤ base ∧ base ≤ top ∧ Fits ranges imageSize base}

section Scan

variable {base size minBase top : ℕ} {r : ReservedRange} {ranges : List ReservedRange}

theorem rangesOverlap_iff (hsize : 0 < size) (hend : base + size < 2 ^ 64) :
    rangesOverlap base size r = true ↔ base < r.stop ∧ r.start < base + size := by
  rw [rangesOverlap, if_neg hsize.ne', if_neg (by omega), Nat.mod_eq_of_lt hend]
  simp

theorem disjoint_iff (hsize : 0 < size) (hr : r.start < r.stop) :
    Disjoint (Set.Ico base (base + size)) (Set.Ico r.start r.stop) ↔
      ¬ (base < r.stop ∧ r.start < base + size) := by
  rw [Set.Ico_disjoint_Ico]
  omega

theorem pageAlignDown_le (a : ℕ) : pageAlignDown a ≤ a := Nat.div_mul_le_self _ _

theorem le_pageAlignDown {a b : ℕ} (hb : kPageSize ∣ b) (h : b ≤ a) : b ≤ pageAlignDown a := by
  obtain ⟨k, rfl⟩ := hb
  rw [pageAlignDown, Nat.mul_comm]
  refine Nat.mul_le_mul_right _ ((Nat.le_div_iff_mul_le (by decide)).mpr ?_)
  rwa [Nat.mul_comm]

theorem gapScan_none {hit : Bool} {next : ℕ} (h : gapScan base size ranges hit next = none) :
    ∃ r ∈ ranges, rangesOverlap base size r = true ∧ r.start < size := by
  induction ranges generalizing hit next with
  | nil => cases h
  | cons r rs ih =>
    rw [gapScan] at h
    split at h
    · rename_i hover
      split at h
      · rename_i hlow
        exact ⟨r, List.mem_cons_self, hover, hlow⟩
      · obtain ⟨r', hr', hspec⟩ := ih h
        exact ⟨r', List.mem_cons_of_mem _ hr', hspec⟩
    · obtain ⟨r', hr', hspec⟩ := ih h
      exact ⟨r', List.mem_cons_of_mem _ hr', hspec⟩

theorem gapScan_some {hit hit' : Bool} {next next' : ℕ}
    (h : gapScan base size ranges hit next = some (hit', next')) :
    (hit' = true ↔ hit = true ∨ ∃ r ∈ ranges, rangesOverlap base size r = true) ∧ next' ≤ next ∧
      (∀ r ∈ ranges, rangesOverlap base size r = true → size ≤ r.start ∧ next' ≤ r.start - size) ∧
      (next' = next ∨ ∃ r ∈ ranges, rangesOverlap base size r = true ∧
        next' = pageAlignDown (r.start - size)) := by
  induction ranges generalizing hit next with
  | nil =>
    cases h
    exact ⟨by simp, Nat.le_refl _, by simp, .inl rfl⟩
  | cons r rs ih =>
    rw [gapScan] at h
    split at h
    · rename_i hover
      split at h
      · cases h
      · rename_i hlow
        obtain ⟨hhit, hle, hall, hex⟩ := ih h
        have hbelow := pageAlignDown_le (r.start - size)
        have hnext : next' ≤ next ∧ next' ≤ pageAlignDown (r.start - size) := by
          split at hle <;> omega
        refine ⟨?_, hnext.1, ?_, ?_⟩
        · rw [hhit]
          exact ⟨fun _ => .inr ⟨r, List.mem_cons_self, hover⟩, fun _ => .inl rfl⟩
        · intro r' hr' hover'
          obtain rfl | hr' := List.mem_cons.mp hr'
          · omega
          · exact hall r' hr' hover'
        · rcases hex with heq | ⟨r', hr', hspec⟩
          · split at heq
            · exact .inr ⟨r, List.mem_cons_self, hover, heq⟩
            · exact .inl heq
          · exact .inr ⟨r', List.mem_cons_of_mem _ hr', hspec⟩
    · rename_i hover
      obtain ⟨hhit, hle, hall, hex⟩ := ih h
      refine ⟨?_, hle, ?_, ?_⟩
      · rw [hhit]
        refine or_congr_right ⟨fun ⟨r', hr', ho⟩ => ⟨r', List.mem_cons_of_mem _ hr', ho⟩, ?_⟩
        rintro ⟨r', hr', ho⟩
        obtain rfl | hr' := List.mem_cons.mp hr'
        · exact absurd ho hover
        · exact ⟨r', hr', ho⟩
      · intro r' hr' ho
        obtain rfl | hr' := List.mem_cons.mp hr'
        · exact absurd ho hover
        · exact hall r' hr' ho
      · exact hex.imp_right fun ⟨r', hr', hspec⟩ => ⟨r', List.mem_cons_of_mem _ hr', hspec⟩

end Scan

/-! ## The rounds -/

section Rounds

variable {start minBase size c d : ℕ} {ranges : List ReservedRange}

/-- What holds at the start of a round: no place lies above. -/
structure Searching (start minBase size : ℕ) (ranges : List ReservedRange) (c : ℕ) : Prop where
  aligned : kPageSize ∣ c
  le : c ≤ start
  bound : ∀ b ∈ places minBase start ranges size, b ≤ c

variable (hsize : 0 < size) (hranges : ∀ r ∈ ranges, r.start < r.stop)
  (hend : start + size < 2 ^ 64)
include hsize hranges hend

section

variable (h : Searching start minBase size ranges c)
include h

theorem Searching.below {r : ReservedRange}
    (hr : r ∈ ranges) (hover : rangesOverlap c size r = true) {b : ℕ}
    (hb : b ∈ places minBase start ranges size) : b + size ≤ r.start := by
  have hc := h.le
  obtain ⟨hstop, -⟩ := (rangesOverlap_iff hsize (by omega)).mp hover
  have hle := h.bound b hb
  have hfits := (disjoint_iff hsize (hranges r hr)).mp (hb.2.2.2 r hr)
  omega

/-- **No place is jumped over**, and the range that is met is not met again. -/
theorem gapBody_goes (hgo : Goes (gapBody minBase ranges size) c d) :
    Searching start minBase size ranges d ∧
      (ranges.filter (·.start < d + size)).length < (ranges.filter (·.start < c + size)).length := by
  have hc := h.le
  rw [Goes, gapBody] at hgo
  split at hgo
  · cases hgo
  · split at hgo
    · cases hgo
    · rename_i hit next hscan
      split at hgo
      · cases hgo
      · split at hgo
        · cases hgo
        · rename_i hhit hlt
          cases hgo
          obtain ⟨-, hle, hall, hex⟩ := gapScan_some hscan
          obtain ⟨r, hr, hover, rfl⟩ := hex.resolve_left (by omega)
          obtain ⟨hstart, hbelow⟩ := hall r hr hover
          obtain ⟨-, hmeets⟩ := (rangesOverlap_iff hsize (by omega)).mp hover
          refine ⟨⟨dvd_pageAlignDown _, by omega, fun b hb => ?_⟩, ?_⟩
          · have hb' := h.below hsize hranges hend hr hover hb
            exact le_pageAlignDown hb.1 (by omega)
          · -- `r` is counted at `c` and not at the next candidate
            have hsub : ranges.filter (·.start < pageAlignDown (r.start - size) + size) =
                (ranges.filter (·.start < c + size)).filter
                  (·.start < pageAlignDown (r.start - size) + size) := by
              rw [List.filter_filter]
              refine List.filter_congr fun r' _ => ?_
              rw [← Bool.decide_and, decide_eq_decide]
              omega
            rw [hsub, List.length_filter_lt_length_iff_exists]
            refine ⟨r, List.mem_filter.mpr ⟨hr, by simpa using hmeets⟩, ?_⟩
            simp only [decide_eq_true_eq]
            omega

theorem gapBody_stop {b : ℕ} (hstop : gapBody minBase ranges size c = .inr b) :
    IsGreatest (places minBase start ranges size) b ∨
      b = 0 ∧ places minBase start ranges size = ∅ := by
  have hc := h.le
  rw [gapBody] at hstop
  split at hstop
  · rename_i hlow
    cases hstop
    refine .inr ⟨rfl, Set.eq_empty_of_forall_notMem fun b hb => ?_⟩
    have hle := h.bound b hb
    have hmin := hb.2.1
    omega
  · rename_i hmin
    split at hstop
    · rename_i hscan
      cases hstop
      obtain ⟨r, hr, hover, hlow⟩ := gapScan_none hscan
      refine .inr ⟨rfl, Set.eq_empty_of_forall_notMem fun b hb => ?_⟩
      have hb' := h.below hsize hranges hend hr hover hb
      omega
    · rename_i hit next hscan
      obtain ⟨hhit, hle, hall, hex⟩ := gapScan_some hscan
      split at hstop
      · rename_i hno
        cases hstop
        refine .inl ⟨⟨h.aligned, Nat.not_lt.mp hmin, h.le, fun r hr => ?_⟩, h.bound⟩
        rw [disjoint_iff hsize (hranges r hr), ← rangesOverlap_iff hsize (by omega)]
        intro hover
        have htrue := hhit.mpr (.inr ⟨r, hr, hover⟩)
        rw [hno] at htrue
        cases htrue
      · rename_i hyes
        obtain ⟨r, hr, hover⟩ : ∃ r ∈ ranges, rangesOverlap c size r = true := by
          simpa [hyes] using hhit
        -- the next candidate is below the range that was met
        obtain ⟨-, hmeets⟩ := (rangesOverlap_iff hsize (by omega)).mp hover
        have hbelow := hall r hr hover
        rw [if_neg (by omega)] at hstop
        cases hstop

end

end Rounds

/-- **The search finds the highest place there is**, and 0 if and only if there is none: its rounds
are enough. -/
theorem findGapFrom_greatest (start minBase imageSize : ℕ) (ranges : List ReservedRange)
    (hmin : 0 < minBase) (hsize : 0 < imageSize) (hlen : ranges.length ≤ 32)
    (hranges : ∀ r ∈ ranges, r.start < r.stop) (hend : start + imageSize < 2 ^ 64) :
    (loop (gapBody minBase ranges imageSize) 64 (pageAlignDown start)).isSome ∧
    (findGapFrom start minBase ranges imageSize ≠ 0 →
      IsGreatest (places minBase start ranges imageSize)
        (findGapFrom start minBase ranges imageSize)) ∧
    (findGapFrom start minBase ranges imageSize = 0 ↔
      places minBase start ranges imageSize = ∅) := by
  have hstart : Searching start minBase imageSize ranges (pageAlignDown start) :=
    ⟨dvd_pageAlignDown _, pageAlignDown_le _, fun b hb => le_pageAlignDown hb.1 hb.2.2.1⟩
  have hgoes (c d : ℕ) (hc : Searching start minBase imageSize ranges c)
      (hgo : Goes (gapBody minBase ranges imageSize) c d) :=
    gapBody_goes hsize hranges hend hc hgo
  obtain ⟨b, hends, hb⟩ := exists_ends _ hgoes
    (fun c b hc hstop => gapBody_stop hsize hranges hend hc hstop) hstart
  have hfew : (ranges.filter (·.start < pageAlignDown start + imageSize)).length < 64 :=
    Nat.lt_of_le_of_lt (List.length_filter_le _ _) (by omega)
  have hloop := hends.loop_eq _ hgoes hstart hfew
  have hfind : findGapFrom start minBase ranges imageSize = b := by
    rw [findGapFrom, hloop, Option.getD_some]
  rw [hfind, hloop]
  refine ⟨rfl, fun hne => hb.resolve_right fun h => hne h.1, ?_⟩
  rcases hb with hgreatest | ⟨rfl, hnone⟩
  · have hpos := hgreatest.1.2.1
    refine ⟨fun hzero => by omega, fun hnone => ?_⟩
    rw [hnone] at hgreatest
    exact absurd hgreatest.1 (Set.notMem_empty b)
  · exact ⟨fun _ => hnone, fun _ => rfl⟩

/-- Two ranges that overlap, below the start. -/
theorem findGapFrom_greatest_two :
    findGapFrom 0x90000000 0x80000000 [⟨0x8F000000, 0x91000000⟩, ⟨0x8E000800, 0x8F800000⟩] 0x1000 =
      0x8DFFF000 ∧ IsGreatest (places 0x80000000 0x90000000
      [⟨0x8F000000, 0x91000000⟩, ⟨0x8E000800, 0x8F800000⟩] 0x1000) 0x8DFFF000 := by
  have hrun : findGapFrom 0x90000000 0x80000000
      [⟨0x8F000000, 0x91000000⟩, ⟨0x8E000800, 0x8F800000⟩] 0x1000 = 0x8DFFF000 := by decide
  have hgreatest := (findGapFrom_greatest 0x90000000 0x80000000 0x1000
    [⟨0x8F000000, 0x91000000⟩, ⟨0x8E000800, 0x8F800000⟩] (by decide) (by decide) (by decide)
    (by decide) (by decide)).2.1
  rw [hrun] at hgreatest
  exact ⟨hrun, hgreatest (by decide)⟩

end Lume
