import Lume.Pmm.Operations
import Lume.Memblock

/-!
# The state `pmm_init` builds

`pmm_init` marks every page as reserved and then feeds the free regions of the boot-time
allocator into the buddy lists, each region cut greedily into the largest aligned blocks. What
the boot-time allocator had reserved stays reserved.

## Main definitions

* `pmmInit`: the allocator's state after `pmm_init`
* `Memblock.reservedPages`: the pages of the reserved regions

## Main results

* `pmmInit_inv`: the invariant of the allocator holds when `pmm_init` returns
* `mem_reservedPages`: a page is left out of the buddy lists exactly when it was reserved
-/

namespace Lume

namespace Pmm

/-- The search for the largest order in `pmm_init`'s callback, with `n` orders left to try. -/
def feedOrder (pfn endPfn : ℕ) : ℕ → ℕ
  | 0 => 0
  | n + 1 => if pfn &&& (2 ^ n - 1) = 0 ∧ pfn + 2 ^ n ≤ endPfn then n else feedOrder pfn endPfn n

/-- The loop of `pmm_init`'s callback; every iteration advances, so `fuel` need not exceed the
length of the region. -/
def feedLoop (s : Pmm) (endPfn : ℕ) : ℕ → ℕ → Pmm
  | 0, _ => s
  | fuel + 1, pfn =>
    if pfn < endPfn then
      let order := feedOrder pfn endPfn kMaxOrder
      feedLoop ((s.setPage pfn fun d => { d with refcount := 0 }).buddyListAdd pfn order) endPfn
        fuel (pfn + 2 ^ order)
    else s

/-- `pmm_init`'s callback on one free region. -/
def feedRegion (s : Pmm) (r : Region) : Pmm :=
  let startPfn := (r.base - s.ram.memBase) / kPageSize
  let endPfn := startPfn + r.size / kPageSize
  s.feedLoop endPfn (endPfn - startPfn) startPfn

/-- Steps 2 to 6 of `pmm_init`: every descriptor reserved, every list empty. -/
def blank (ram : Ram) : Pmm where
  ram := ram
  pageMap _ := ⟨0, .allocated, 0, ⟨none, 0, none⟩⟩
  freeAreas _ := []
  pcp _ := ⟨[], 0⟩
  pcpBatchSize := if 16 < ram.numPages / (kMaxCpus * 1024) then ram.numPages / (kMaxCpus * 1024)
    else 16
  pcpHighWatermark := (if 16 < ram.numPages / (kMaxCpus * 1024) then
    ram.numPages / (kMaxCpus * 1024) else 16) * 2

end Pmm

/-- `pmm_init` -/
def pmmInit (mb : Memblock) : Pmm := mb.forEachFree.foldl Pmm.feedRegion (Pmm.blank mb.ram)

/-- The pages of the reserved regions, whole pages since the regions are page aligned. -/
def Memblock.reservedPages (mb : Memblock) : Finset ℕ :=
  (Finset.range mb.ram.numPages).filter fun i => ∃ r ∈ mb.reserved, mb.ram.pageToPa i ∈ r

namespace Pmm

/-! ## Feeding one region -/

theorem feedOrder_spec {pfn endPfn : ℕ} (h : pfn < endPfn) (n : ℕ) :
    2 ^ feedOrder pfn endPfn n ∣ pfn ∧ pfn + 2 ^ feedOrder pfn endPfn n ≤ endPfn ∧
      (0 < n → feedOrder pfn endPfn n < n) := by
  induction n with
  | zero => exact ⟨one_dvd _, h, fun h => absurd h (lt_irrefl 0)⟩
  | succ n ih =>
    rw [feedOrder]
    split
    · rename_i hn
      rw [Nat.and_two_pow_sub_one_eq_mod] at hn
      exact ⟨Nat.dvd_of_mod_eq_zero hn.1, hn.2, fun _ => Nat.lt_succ_self n⟩
    · refine ⟨ih.1, ih.2.1, fun _ => ?_⟩
      rcases Nat.eq_zero_or_pos n with rfl | hn
      · exact Nat.zero_lt_one
      · exact (ih.2.2 hn).trans (Nat.lt_succ_self n)

/-- The caches and the parameters are as `pmm_init` set them up. -/
structure FreshCaches (s s' : Pmm) : Prop where
  ram_eq : s'.ram = s.ram
  pcp_eq : s'.pcp = s.pcp
  batch_eq : s'.pcpBatchSize = s.pcpBatchSize
  high_eq : s'.pcpHighWatermark = s.pcpHighWatermark

theorem FreshCaches.trans {s s' s'' : Pmm} (h : FreshCaches s s') (h' : FreshCaches s' s'') :
    FreshCaches s s'' :=
  ⟨h'.ram_eq.trans h.ram_eq, h'.pcp_eq.trans h.pcp_eq, h'.batch_eq.trans h.batch_eq,
    h'.high_eq.trans h.high_eq⟩

theorem Accounted.feedLoop {endPfn : ℕ} (fuel pfn : ℕ) (hfuel : endPfn ≤ pfn + fuel) {s : Pmm}
    {R : Finset ℕ} (h : Accounted s R [] []) (hsub : Finset.Ico pfn endPfn ⊆ R) :
    Accounted (s.feedLoop endPfn fuel pfn) (R \ Finset.Ico pfn endPfn) [] [] ∧
      FreshCaches s (s.feedLoop endPfn fuel pfn) := by
  induction fuel generalizing pfn s R with
  | zero =>
    rw [Finset.Ico_eq_empty (by omega), Finset.sdiff_empty]
    exact ⟨h, rfl, rfl, rfl, rfl⟩
  | succ fuel ih =>
    rw [Pmm.feedLoop]
    split
    · rename_i hlt
      obtain ⟨hdvd, hle, ho⟩ := feedOrder_spec hlt kMaxOrder
      have ho := ho (by decide)
      generalize feedOrder pfn endPfn kMaxOrder = order at hdvd hle ho
      have hpos : 0 < 2 ^ order := Nat.pow_pos (by decide)
      have hend : endPfn ≤ s.numPages := by
        have hmem : endPfn - 1 ∈ R := hsub (Finset.mem_Ico.mpr ⟨by omega, by omega⟩)
        have := (h.reserved _ hmem).1
        omega
      have hblock : Finset.Ico pfn (pfn + 2 ^ order) ⊆ R :=
        (Finset.Ico_subset_Ico_right hle).trans hsub
      have hfit : Fits s.numPages ⟨pfn, order⟩ := ⟨ho, hdvd, hle.trans hend⟩
      have hun := h.unreserve hfit hblock
      have hadd := (hun.setPage fun d => { d with refcount := 0 }).buddyListAdd
      have hsub' : Finset.Ico (pfn + 2 ^ order) endPfn ⊆ R \ Finset.Ico pfn (pfn + 2 ^ order) := by
        intro i hi
        rw [Finset.mem_sdiff]
        refine ⟨hsub (Finset.Ico_subset_Ico_left (Nat.le_add_right ..) hi), ?_⟩
        simp only [Finset.mem_Ico] at hi ⊢
        omega
      obtain ⟨hacc, hfresh⟩ := ih (pfn + 2 ^ order) (by omega) hadd hsub'
      rw [sdiff_sdiff_left, Finset.sup_eq_union,
        Finset.Ico_union_Ico_eq_Ico (Nat.le_add_right ..) hle] at hacc
      exact ⟨hacc, hfresh.ram_eq, hfresh.pcp_eq, hfresh.batch_eq, hfresh.high_eq⟩
    · rw [Finset.Ico_eq_empty (by omega), Finset.sdiff_empty]
      exact ⟨h, rfl, rfl, rfl, rfl⟩

/-! ## Feeding all regions -/

/-- The pages of a region. -/
def regionPages (ram : Ram) (r : Region) : Finset ℕ :=
  Finset.Ico ((r.base - ram.memBase) / kPageSize)
    ((r.base - ram.memBase) / kPageSize + r.size / kPageSize)

theorem mem_regionPages {ram : Ram} {r : Region} (hal : r.PageAligned)
    (hle : ram.memBase ≤ r.base) {i : ℕ} : i ∈ regionPages ram r ↔ ram.pageToPa i ∈ r := by
  obtain ⟨m, hm⟩ := ram.base_aligned
  obtain ⟨b, hb⟩ := hal.base
  obtain ⟨e, he⟩ := hal.stop
  simp only [regionPages, Finset.mem_Ico, Region.mem_def, Ram.pageToPa, Region.stop,
    kPageSize] at *
  omega

theorem Accounted.feedRegion {s : Pmm} {R : Finset ℕ} {f : Region} (h : Accounted s R [] [])
    (hsub : regionPages s.ram f ⊆ R) : Accounted (s.feedRegion f) (R \ regionPages s.ram f) [] [] ∧
      FreshCaches s (s.feedRegion f) :=
  h.feedLoop _ _ (by omega) hsub

theorem Accounted.feedRegions (fs : List Region) {s : Pmm} {R : Finset ℕ}
    (h : Accounted s R [] []) (hsub : ∀ f ∈ fs, regionPages s.ram f ⊆ R)
    (hdisj : fs.Pairwise fun f g => Disjoint (regionPages s.ram f) (regionPages s.ram g)) :
    ∃ R', Accounted (fs.foldl Pmm.feedRegion s) R' [] [] ∧
      FreshCaches s (fs.foldl Pmm.feedRegion s) ∧
      ∀ i, i ∈ R' ↔ i ∈ R ∧ ∀ f ∈ fs, i ∉ regionPages s.ram f := by
  induction fs generalizing s R with
  | nil => exact ⟨R, h, ⟨rfl, rfl, rfl, rfl⟩, by simp⟩
  | cons f fs ih =>
    obtain ⟨hf, hfs⟩ := List.pairwise_cons.mp hdisj
    obtain ⟨hacc, hfresh⟩ := h.feedRegion (hsub f (List.mem_cons_self ..))
    have hram := hfresh.ram_eq
    obtain ⟨R', hacc', hfresh', hR'⟩ := ih hacc
      (fun g hg => by
        rw [hram]
        exact Finset.subset_sdiff.mpr ⟨hsub g (List.mem_cons_of_mem _ hg), (hf g hg).symm⟩)
      (by rwa [hram])
    refine ⟨R', hacc', hfresh.trans hfresh', fun i => ?_⟩
    rw [hR', hram, Finset.mem_sdiff, List.forall_mem_cons, and_assoc]

theorem blank_accounted (ram : Ram) : Accounted (blank ram) (Finset.range ram.numPages) [] [] where
  cover_eq i hi := by
    have hfree : (blank ram).freeBlocks = [] := by simp [freeBlocks, blank]
    have hcached : (blank ram).cachedBlocks = [] := by simp [cachedBlocks, blank]
    have hmem : i ∈ Finset.range ram.numPages := Finset.mem_range.mpr hi
    rw [blocks, hfree, hcached, if_pos hmem]
    rfl
  free _ _ hp := by cases hp
  cached _ _ hp := by cases hp
  count_eq _ := rfl
  held_ok _ hb := by cases hb
  loose_ok _ hb := by cases hb
  reserved _ hi := ⟨Finset.mem_range.mp hi, rfl⟩

end Pmm

theorem mem_reservedPages {mb : Memblock} {i : ℕ} : i ∈ mb.reservedPages ↔
    i < mb.ram.numPages ∧ ∃ r ∈ mb.reserved, mb.ram.pageToPa i ∈ r := by
  rw [Memblock.reservedPages, Finset.mem_filter, Finset.mem_range]

/-- **`pmm_init`** establishes the allocator's invariant, with nothing held yet. -/
theorem pmmInit_inv {mb : Memblock} (h : mb.Inv) :
    (pmmInit mb).Inv mb.reservedPages [] ∧ (pmmInit mb).ram = mb.ram ∧
      ∀ c, (pmmInit mb).pcp c = ⟨[], 0⟩ := by
  have hpages (f : Region) (hf : f ∈ mb.forEachFree) (i : ℕ) :
      i ∈ Pmm.regionPages mb.ram f ↔ mb.ram.pageToPa i ∈ f :=
    Pmm.mem_regionPages (Memblock.forEachFree_aligned h f hf)
      (Memblock.memBase_le_of_mem_forEachFree hf)
  have hsub : ∀ f ∈ mb.forEachFree,
      Pmm.regionPages mb.ram f ⊆ Finset.range mb.ram.numPages := fun f hf i hi => by
    have hin := (Memblock.mem_forEachFree h _).mp ⟨f, hf, (hpages f hf i).mp hi⟩
    exact Finset.mem_range.mpr (mb.ram.pageToPa_lt_memEnd.mp hin.2.1)
  have hdisj : mb.forEachFree.Pairwise fun f g =>
      Disjoint (Pmm.regionPages mb.ram f) (Pmm.regionPages mb.ram g) := by
    refine (Memblock.forEachFree_apart mb).imp_of_mem fun hf hg hle => ?_
    rw [Finset.disjoint_left]
    intro i hi hi'
    have h₁ := ((hpages _ hf i).mp hi).2
    have h₂ := ((hpages _ hg i).mp hi').1
    omega
  obtain ⟨R, hacc, hfresh, hR⟩ := (Pmm.blank_accounted mb.ram).feedRegions _ hsub hdisj
  -- what is left of all pages are the pages of the reserved regions
  obtain rfl : R = mb.reservedPages := by
    ext i
    rw [hR, mem_reservedPages, Finset.mem_range]
    refine and_congr_right fun hi => ?_
    have hfree := Memblock.mem_forEachFree h (mb.ram.pageToPa i)
    constructor
    · intro hno
      by_contra hnone
      obtain ⟨f, hf, hx⟩ := hfree.mpr ⟨Nat.le_add_right .., mb.ram.pageToPa_lt_memEnd.mpr hi,
        fun r hr hx => hnone ⟨r, hr, hx⟩⟩
      exact hno f hf ((hpages f hf i).mpr hx)
    · rintro ⟨r, hr, hx⟩ f hf hi'
      exact (hfree.mp ⟨f, hf, (hpages f hf i).mp hi'⟩).2.2 r hr hx
  refine ⟨⟨hacc, fun c => ?_, ?_⟩, hfresh.ram_eq, fun c => congrFun hfresh.pcp_eq c⟩
  · rw [pmmInit, hfresh.pcp_eq, hfresh.high_eq]
    simp only [Pmm.blank]
    split <;> omega
  · rw [pmmInit, hfresh.high_eq, hfresh.batch_eq]
    rfl

end Lume
