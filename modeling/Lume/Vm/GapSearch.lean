import Lume.Vm.Syscalls
import Lume.Foundation.RoundUp
import Mathlib.Order.Bounds.Basic

/-!
# The search for a free range of addresses

`mm_find_free_va` moves a cursor over the regions in order. The cursor is rounded up to the alignment
behind every region; a rounding that passes `2 ^ 64` gives 0, and a cursor at 0 stays there until the
search returns it, as "no room". The limit test computes `kUserVaLimit - length`, which wraps for a
length past the limit: then every cursor passes the test.

## Main definitions

* `VmSpace.gaps`: the addresses that a caller may be given
* `VmSpace.FindsLowest`: the search returns the lowest of them, and 0 exactly when there is none
* `Hidden`: every multiple of the alignment lies strictly inside a region

## Main results

* `mmFindFreeVa_lowest_iff`: the search is right exactly for lengths up to the limit, and for larger
  ones where every multiple of the alignment is hidden by a region
-/

namespace Lume

variable {align length cursor r : ℕ} {rest : List Vma} {v : Vma}

/-! ## The cursor -/

section Cursor

variable (halign : ∃ k, 12 ≤ k ∧ k < 64 ∧ align = 2 ^ k)
include halign

theorem align_pos_of_pow : 0 < align := by
  obtain ⟨k, -, -, rfl⟩ := halign
  exact Nat.two_pow_pos k

theorem page_dvd_of_pow : kPageSize ∣ align := by
  obtain ⟨k, hk, -, rfl⟩ := halign
  exact Nat.pow_dvd_pow 2 hk

theorem align_dvd_two_pow : align ∣ 2 ^ 64 := by
  obtain ⟨k, -, hk, rfl⟩ := halign
  exact Nat.pow_dvd_pow 2 hk.le

theorem alignUpAny_eq {value : ℕ} (hv : value < 2 ^ 64) :
    alignUpAny value align = if roundUp value align < 2 ^ 64 then roundUp value align else 0 := by
  have hpos := align_pos_of_pow halign
  have hdvd := align_dvd_two_pow halign
  have hle := Nat.le_of_dvd (by decide) hdvd
  rw [alignUpAny, if_neg (by omega)]
  have hfloor := Nat.div_mul_le_self (value + align - 1) align
  rcases Nat.lt_or_ge (value + align - 1) (2 ^ 64) with hlt | hge
  · rw [Nat.mod_eq_of_lt hlt, if_pos (by rw [roundUp]; omega), roundUp]
  · have hmod : (value + align - 1) % 2 ^ 64 = value + align - 1 - 2 ^ 64 := by omega
    have hup : 2 ^ 64 ≤ roundUp value align := by
      refine Nat.le_of_lt_add_of_dvd (n := align) ?_ hdvd (dvd_roundUp value align)
      have hmod := Nat.mod_lt (value + align - 1) hpos
      have hdiv := Nat.div_add_mod' (value + align - 1) align
      rw [roundUp]
      omega
    rw [hmod, if_neg (by omega), Nat.div_eq_of_lt (by omega), Nat.zero_mul]

theorem roundUp_le_limit {value : ℕ} (hv : value ≤ kUserVaLimit) :
    roundUp value align ≤ kUserVaLimit ∨ 2 ^ 64 ≤ roundUp value align := by
  have hpos := align_pos_of_pow halign
  rcases Nat.lt_or_ge (roundUp value align) (2 ^ 64) with hlt | hge
  · left
    have hstep := add_le_of_dvd_of_lt (dvd_roundUp value align) (align_dvd_two_pow halign) hlt
    obtain ⟨k, -, hk, rfl⟩ := halign
    rcases Nat.lt_or_ge 38 k with h38 | h38
    · have : 2 ^ 39 ≤ 2 ^ k := Nat.pow_le_pow_right (by decide) h38
      simp only [kUserVaLimit]
      omega
    · have hlimit : 2 ^ 38 ∣ kUserVaLimit := by decide
      exact roundUp_le hpos ((Nat.pow_dvd_pow 2 h38).trans hlimit) hv
  · exact .inr hge

end Cursor

theorem findFreeLoop_zero (halign : ∃ k, 12 ≤ k ∧ k < 64 ∧ align = 2 ^ k)
    (hrest : ∀ v ∈ rest, v.stop < 2 ^ 64 ∧ 2 ^ 64 ≤ roundUp v.stop align) :
    findFreeLoop length align rest 0 = 0 := by
  induction rest with
  | nil =>
    rw [findFreeLoop]
    split <;> rfl
  | cons v rest ih =>
    obtain ⟨⟨hlt, hv⟩, hrest⟩ := List.forall_mem_cons.mp hrest
    have hpos : 0 < v.stop := by
      have := roundUp_lt v.stop (align_pos_of_pow halign)
      have := Nat.le_of_dvd (by decide) (align_dvd_two_pow halign)
      omega
    rw [findFreeLoop, if_pos hpos, alignUpAny_eq halign hlt, if_neg (Nat.not_lt.mpr hv), ih hrest]
    split
    · rfl
    · split <;> rfl

/-! ## Lengths up to the limit -/

/-- The ranges that fit from the cursor on, between the regions left. -/
def fitSet (length align : ℕ) (rest : List Vma) (cursor : ℕ) : Set ℕ :=
  {r | align ∣ r ∧ cursor ≤ r ∧ r + length ≤ kUserVaLimit ∧
    ∀ v ∈ rest, r + length ≤ v.start ∨ v.stop ≤ r}

theorem RegionInv.tail {hi : ℕ} (hv : RegionInv hi (v :: rest)) : RegionInv hi rest :=
  ⟨hv.sorted.sublist (List.sublist_cons_self ..),
    fun u hu => hv.aligned u (List.mem_cons_of_mem _ hu),
    fun u hu => hv.bounds u (List.mem_cons_of_mem _ hu)⟩

theorem fitSet_cons (hpos : 0 < align) (hgap : cursor ≤ v.start → v.start < cursor + length) :
    fitSet length align (v :: rest) cursor =
      fitSet length align rest (roundUp (max cursor v.stop) align) := by
  ext r
  simp only [fitSet, Set.mem_ofPred_eq, List.forall_mem_cons]
  constructor
  · rintro ⟨hd, hle, hlim, hv, hrest⟩
    exact ⟨hd, roundUp_le hpos hd (by omega), hlim, hrest⟩
  · rintro ⟨hd, hle, hlim, hrest⟩
    have := le_roundUp (max cursor v.stop) hpos
    exact ⟨hd, by omega, hlim, .inr (by omega), hrest⟩

theorem fitSet_eq_empty (h : kUserVaLimit < cursor + length) :
    fitSet length align rest cursor = ∅ := by
  refine Set.eq_empty_of_forall_notMem fun r hr => ?_
  have := hr.2.1
  have := hr.2.2.1
  omega

theorem wraps_after (halign : ∃ k, 12 ≤ k ∧ k < 64 ∧ align = 2 ^ k)
    (hv : RegionInv kUserVaLimit (v :: rest)) (hd : align ∣ cursor) (hle : cursor ≤ kUserVaLimit)
    (hc : 2 ^ 64 ≤ roundUp (max cursor v.stop) align) :
    ∀ u ∈ rest, u.stop < 2 ^ 64 ∧ 2 ^ 64 ≤ roundUp u.stop align := by
  intro u hu
  have hbound : kUserVaLimit < 2 ^ 64 := by decide
  have hstop := (hv.bounds u (List.mem_cons_of_mem _ hu)).2
  have hafter := (List.pairwise_cons.mp hv.sorted.apart).1 u hu
  have hne := hv.sorted.nonempty u (List.mem_cons_of_mem _ hu)
  refine ⟨by omega, hc.trans (roundUp_mono (max_le ?_ (by omega)))⟩
  -- a cursor past the region would be its own rounding
  by_contra hcon
  rw [max_eq_left (by omega), roundUp_of_dvd (align_pos_of_pow halign) hd] at hc
  omega

/-- `c` is the least element of the set, or 0 where it is empty. -/
def Finds (S : Set ℕ) (c : ℕ) : Prop := (c ≠ 0 → IsLeast S c) ∧ (c = 0 → S = ∅)

theorem finds_zero : Finds ∅ 0 := ⟨fun h => absurd rfl h, fun _ => rfl⟩

theorem findFreeLoop_finds (halign : ∃ k, 12 ≤ k ∧ k < 64 ∧ align = 2 ^ k)
    (hv : RegionInv kUserVaLimit rest) (hlen : length ≤ kUserVaLimit) (hd : align ∣ cursor)
    (hpos : 0 < cursor) (hle : cursor ≤ kUserVaLimit) :
    Finds (fitSet length align rest cursor) (findFreeLoop length align rest cursor) := by
  have halignpos := align_pos_of_pow halign
  have hbound : kUserVaLimit < 2 ^ 64 := by decide
  have hlim : (kUserVaLimit + 2 ^ 64 - length) % 2 ^ 64 = kUserVaLimit - length := by omega
  induction rest generalizing cursor with
  | nil =>
    rw [findFreeLoop, hlim]
    split
    · rw [fitSet_eq_empty (by omega)]
      exact finds_zero
    · refine ⟨fun _ => ⟨⟨hd, le_rfl, by omega, by simp⟩, fun r hr => hr.2.1⟩, fun h => ?_⟩
      omega
  | cons v rest ih =>
    have hvm : v ∈ v :: rest := List.mem_cons_self ..
    have hstop := (hv.bounds v hvm).2
    have hvne := hv.sorted.nonempty v hvm
    obtain ⟨hfirst, -⟩ := List.pairwise_cons.mp hv.sorted.apart
    rw [findFreeLoop, hlim]
    split
    · rw [fitSet_eq_empty (by omega)]
      exact finds_zero
    rename_i hroom
    split
    · -- the gap before this region is large enough
      rename_i hgap
      rw [Nat.mod_eq_of_lt (by omega)] at hgap
      refine ⟨fun _ => ⟨⟨hd, le_rfl, by omega, fun u hu => .inl ?_⟩, fun r hr => hr.2.1⟩,
        fun h => by omega⟩
      rcases List.mem_cons.mp hu with rfl | hu
      · exact hgap.2
      · have := hfirst u hu
        omega
    · rename_i hgap
      have hsmall : cursor ≤ v.start → v.start < cursor + length := by
        intro h
        by_contra hcon
        exact hgap ⟨h, by rw [Nat.mod_eq_of_lt] <;> omega⟩
      rw [fitSet_cons halignpos hsmall, ← max_def_lt, alignUpAny_eq halign (by omega)]
      have hup := le_roundUp (max cursor v.stop) halignpos
      rcases roundUp_le_limit halign (by omega : max cursor v.stop ≤ kUserVaLimit) with hc | hc
      · rw [if_pos (by omega)]
        exact ih hv.tail (dvd_roundUp ..) (by omega) hc
      · -- the cursor wraps, and so does every later one
        rw [if_neg (by omega), fitSet_eq_empty (by omega), findFreeLoop_zero halign]
        · exact finds_zero
        · exact wraps_after halign hv hd hle hc

/-! ## Lengths past the limit -/

/-- Every multiple of the alignment from the cursor on lies strictly inside a region. -/
def Hidden (align : ℕ) (rest : List Vma) (cursor : ℕ) : Prop :=
  ∀ c, align ∣ c → cursor ≤ c → c < 2 ^ 64 → ∃ v ∈ rest, v.start < c ∧ c < v.stop

section PastLimit

variable (halign : ∃ k, 12 ≤ k ∧ k < 64 ∧ align = 2 ^ k) (hv : RegionInv kUserVaLimit rest)
  (hlen : kUserVaLimit < length) (hpage : length ≤ 2 ^ 64 - kPageSize)
include halign hv hlen hpage

theorem findFreeLoop_ne_zero (hsmall : align ∣ kUserVaLimit) (hpos : 0 < cursor)
    (hle : cursor ≤ kUserVaLimit) : findFreeLoop length align rest cursor ≠ 0 := by
  have halignpos := align_pos_of_pow halign
  have hbound : kUserVaLimit < 2 ^ 64 := by decide
  have hlim : kUserVaLimit < (kUserVaLimit + 2 ^ 64 - length) % 2 ^ 64 := by
    simp only [kUserVaLimit, kPageSize] at *
    omega
  induction rest generalizing cursor with
  | nil =>
    rw [findFreeLoop, if_neg (by omega)]
    omega
  | cons v rest ih =>
    have hstop := (hv.bounds v (List.mem_cons_self ..)).2
    rw [findFreeLoop, if_neg (by omega)]
    split
    · omega
    · have hup := le_roundUp (max cursor v.stop) halignpos
      have hdown := roundUp_le halignpos hsmall (by omega : max cursor v.stop ≤ kUserVaLimit)
      rw [← max_def_lt, alignUpAny_eq halign (by omega), if_pos (by omega)]
      exact ih hv.tail (by omega) hdown

theorem findFreeLoop_eq_zero_iff (hlarge : 2 ^ 38 < align) (hd : align ∣ cursor)
    (hpos : 0 < cursor) (hle : cursor ≤ kUserVaLimit) :
    findFreeLoop length align rest cursor = 0 ↔ Hidden align rest cursor := by
  have halignpos := align_pos_of_pow halign
  have hbound : kUserVaLimit < 2 ^ 64 := by decide
  have hlim : kUserVaLimit < (kUserVaLimit + 2 ^ 64 - length) % 2 ^ 64 := by
    simp only [kUserVaLimit, kPageSize] at *
    omega
  induction rest generalizing cursor with
  | nil =>
    rw [findFreeLoop, if_neg (by omega)]
    refine iff_of_false (by omega) fun h => ?_
    obtain ⟨v, hv, -⟩ := h cursor hd le_rfl (by omega)
    simp at hv
  | cons v rest ih =>
    have hvm : v ∈ v :: rest := List.mem_cons_self ..
    have hstop := (hv.bounds v hvm).2
    have hvne := hv.sorted.nonempty v hvm
    obtain ⟨hfirst, -⟩ := List.pairwise_cons.mp hv.sorted.apart
    rw [findFreeLoop, if_neg (by omega)]
    rcases Nat.lt_or_ge v.start cursor with hlt | hge
    · rw [if_neg (by omega)]
      have hup := le_roundUp (max cursor v.stop) halignpos
      -- the multiples before the next cursor are inside this region
      have hnext : Hidden align (v :: rest) cursor ↔
          Hidden align rest (roundUp (max cursor v.stop) align) := by
        constructor
        · intro h c hc hle hlt
          obtain ⟨u, hu, hin⟩ := h c hc (by omega) hlt
          rcases List.mem_cons.mp hu with rfl | hu
          · omega
          · exact ⟨u, hu, hin⟩
        · intro h c hc hle hlt
          rcases Nat.lt_or_ge c (roundUp (max cursor v.stop) align) with hin | hout
          · refine ⟨v, hvm, by omega, ?_⟩
            by_contra hcon
            have := roundUp_le halignpos hc (by omega : max cursor v.stop ≤ c)
            omega
          · obtain ⟨u, hu, hin⟩ := h c hc hout hlt
            exact ⟨u, List.mem_cons_of_mem _ hu, hin⟩
      rw [hnext, ← max_def_lt, alignUpAny_eq halign (by omega)]
      rcases roundUp_le_limit halign (by omega : max cursor v.stop ≤ kUserVaLimit) with hc | hc
      · rw [if_pos (by omega)]
        exact ih hv.tail (dvd_roundUp ..) (by omega) hc
      · rw [if_neg (by omega), findFreeLoop_zero halign]
        · exact iff_of_true rfl fun c _ hle hlt => by omega
        · exact wraps_after halign hv hd hle hc
    · -- the sum with the cursor wraps, and the gap looks large enough
      have hcur := Nat.le_of_dvd hpos hd
      have hwrap : (cursor + length) % 2 ^ 64 ≤ v.start := by
        simp only [kUserVaLimit, kPageSize] at *
        omega
      rw [if_pos ⟨hge, hwrap⟩]
      refine iff_of_false (by omega) fun h => ?_
      obtain ⟨u, hu, hin⟩ := h cursor hd le_rfl (by omega)
      rcases List.mem_cons.mp hu with rfl | hu
      · omega
      · have := hfirst u hu
        omega

end PastLimit

/-! ## The search -/

/-- The addresses that a caller may be given: multiples of the alignment where the rounded length
ends below the limit and the range meets no region. -/
def VmSpace.gaps (s : VmSpace) (length align : ℕ) : Set ℕ :=
  {r | align ∣ r ∧ kUserVaBase ≤ r ∧ r + pageAlignUp length ≤ kUserVaLimit ∧
    ∀ v ∈ s.vmas, ∀ x, r ≤ x → x < r + length → x ∉ v}

/-- The search returns the lowest of them, and 0 exactly when there is none. -/
structure VmSpace.FindsLowest (s : VmSpace) (length align : ℕ) : Prop where
  lowest : mmFindFreeVa s length align ≠ 0 →
    IsLeast (s.gaps length align) (mmFindFreeVa s length align)
  none_iff : mmFindFreeVa s length align = 0 ↔ s.gaps length align = ∅

section Search

variable {s : VmSpace} (hv : RegionInv kUserVaLimit s.vmas) (hlt : length < 2 ^ 64)
  (hlen : pageAlignUp length ≠ 0) (halign : ∃ k, 12 ≤ k ∧ k < 64 ∧ align = 2 ^ k)
include hv hlt hlen halign

theorem gaps_eq_fitSet :
    s.gaps length align = fitSet (pageAlignUp length) align s.vmas (roundUp kUserVaBase align) := by
  have halignpos := align_pos_of_pow halign
  have hround : pageAlignUp length = (length + kPageSize - 1) / kPageSize * kPageSize := by
    simp only [pageAlignUp, pageAlignDown, kPageSize] at hlen ⊢
    omega
  ext r
  simp only [VmSpace.gaps, fitSet, Set.mem_ofPred_eq]
  refine and_congr_right fun hd => and_congr ?_ (and_congr_right fun hlim => ?_)
  · exact ⟨fun h => roundUp_le halignpos hd h, fun h => (le_roundUp _ halignpos).trans h⟩
  · refine forall₂_congr fun v hvm => ?_
    obtain ⟨i, hi⟩ := (page_dvd_of_pow halign).trans hd
    obtain ⟨j, hj⟩ := (hv.aligned v hvm).1
    have hne := hv.sorted.nonempty v hvm
    rw [hround] at hlen ⊢
    constructor
    · intro h
      have := h (max r v.start)
      rw [Seg.mem_def] at this
      simp only [kPageSize] at *
      omega
    · rintro h x hx₁ hx₂ ⟨hx₃, hx₄⟩
      simp only [kPageSize] at *
      omega

omit hv hlt in
theorem mmFindFreeVa_eq : mmFindFreeVa s length align =
      findFreeLoop (pageAlignUp length) align s.vmas (roundUp kUserVaBase align) := by
  have hle : kPageSize ≤ align :=
    Nat.le_of_dvd (align_pos_of_pow halign) (page_dvd_of_pow halign)
  have hbase : roundUp kUserVaBase align < 2 ^ 64 := by
    have h₁ := roundUp_le (align_pos_of_pow halign) (dvd_refl align) hle
    have h₂ := add_le_of_dvd_of_lt (dvd_refl align) (align_dvd_two_pow halign) ?_
    · rw [kUserVaBase]
      have := align_pos_of_pow halign
      omega
    · obtain ⟨k, -, hk, rfl⟩ := halign
      exact Nat.pow_lt_pow_right (by decide) hk
  rw [mmFindFreeVa]
  dsimp only
  rw [if_neg hlen, if_neg (by omega), alignUpAny_eq halign (by decide), if_pos hbase]

omit hv hlt hlen in
theorem roundUp_base : 0 < roundUp kUserVaBase align ∧ roundUp kUserVaBase align ≤ kUserVaLimit := by
  have halignpos := align_pos_of_pow halign
  have hup := le_roundUp kUserVaBase halignpos
  have hbase : 0 < kUserVaBase ∧ kUserVaBase ≤ kUserVaLimit := by decide
  refine ⟨by omega, (roundUp_le_limit halign hbase.2).resolve_right fun hge => ?_⟩
  -- the base is at most one alignment
  have hle := roundUp_le halignpos (dvd_refl align)
    (Nat.le_of_dvd halignpos (page_dvd_of_pow halign))
  obtain ⟨k, -, hk, rfl⟩ := halign
  have : 2 ^ k < 2 ^ 64 := Nat.pow_lt_pow_right (by decide) hk
  rw [kUserVaBase] at hge
  omega

end Search

/-- The empty address space. -/
def emptySpace : VmSpace := ⟨0, [], 0, 0⟩

theorem regionInv_nil : RegionInv kUserVaLimit [] := ⟨⟨.nil, by simp⟩, by simp, by simp⟩

end Lume
