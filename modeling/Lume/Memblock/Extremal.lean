import Lume.Memblock.Words
import Lume.Foundation.RoundUp
import Mathlib.Order.Bounds.Basic

/-!
# What the boot-time searches find

`memblock_alloc` searches upwards. Where its candidate is taken it jumps to the end of the
reservation that covers the candidate, or by one alignment where only a later part of the range is
taken. `memblock_alloc_top` searches downwards, by one alignment at a time.

The upward search starts at the first page boundary of RAM; the downward search goes on to the
first byte of RAM. The two bounds differ where RAM does not start at a page boundary.

## Main definitions

* `Gmb.Askable`: a request that is served without wrapping a sum
* `Gmb.Free`: a range inside RAM and apart from every reservation
* `Gmb.lowSet`, `Gmb.topSet`: the candidates of the two searches

## Main results

* `Gmb.allocs_spec`, `Gmb.allocsTop_spec`: each search ends, with the extremal candidate, and with
  the panic only where there is no candidate
* `memblock_extremal`: both, on the array of any sequence of reservations, with what later calls
  return apart from what was returned
-/

namespace Lume

namespace Region

/-- No address is in both regions. -/
def Apart (r r' : Region) : Prop := ∀ x, x ∈ r → x ∉ r'

theorem apart_iff {r r' : Region} (hr : r.base < r.stop) (hr' : r'.base < r'.stop) :
    r.Apart r' ↔ r.stop ≤ r'.base ∨ r'.stop ≤ r.base := by
  constructor
  · intro h
    have := h (max r.base r'.base)
    simp only [mem_def] at this
    omega
  · rintro h x ⟨hx₁, hx₂⟩ ⟨hx₃, hx₄⟩
    omega

end Region

namespace Gmb

variable {mb mb' : Gmb} {size align start a : ℕ}

/-- A request of at most the size of RAM, on a power-of-two alignment, where no address plus the
size of RAM plus the alignment reaches `2 ^ 64`. -/
structure Askable (mb : Gmb) (size align : ℕ) : Prop where
  page_le : kPageSize ≤ mb.memBase
  size_pos : 0 < size
  size_le : size ≤ mb.memSize
  align_pow : ∃ k < 64, align = 2 ^ k
  ram : (⟨mb.memBase, mb.memSize⟩ : Region).pages.stop + mb.memSize + align < 2 ^ 64
  reserved : ∀ r ∈ mb.reserved, r.stop + mb.memSize + align < 2 ^ 64

/-- `[a, a + size)` is inside RAM and apart from every reservation. -/
structure Free (mb : Gmb) (size a : ℕ) : Prop where
  base_le : mb.memBase ≤ a
  le_end : a + size ≤ mb.memBase + mb.memSize
  apart : ∀ r ∈ mb.reserved, (⟨a, size⟩ : Region).Apart r

/-- What `memblock_alloc` looks for the least of. -/
def lowSet (mb : Gmb) (size align : ℕ) : Set ℕ :=
  {a | align ∣ a ∧ pageAlignUp mb.memBase ≤ a ∧ mb.Free size a}

/-- What `memblock_alloc_top` looks for the greatest of. -/
def topSet (mb : Gmb) (size align : ℕ) : Set ℕ :=
  {a | align ∣ a ∧ a + size ≤ pageAlignDown (mb.memBase + mb.memSize) ∧ mb.Free size a}

/-! ## The request without wrapping -/

section Askable

variable (h : mb.Askable size align)
include h

theorem Askable.align_pos : 0 < align := by
  obtain ⟨k, -, rfl⟩ := h.align_pow
  exact Nat.two_pow_pos k

theorem Askable.end_lt : mb.memBase + mb.memSize + mb.memSize + align < 2 ^ 64 := by
  have h₁ := h.ram
  have h₂ := (⟨mb.memBase, mb.memSize⟩ : Region).stop_le_pages
  simp only [Region.stop] at h₂
  simp only [Region.stop] at h₁
  omega

theorem Askable.memEnd_eq : mb.memEnd = mb.memBase + mb.memSize :=
  Nat.mod_eq_of_lt (by have := h.end_lt; omega)

theorem Askable.pageAlignUp_memBase : mb.memBase ≤ pageAlignUp mb.memBase ∧
      pageAlignUp mb.memBase ≤ (⟨mb.memBase, mb.memSize⟩ : Region).pages.stop := by
  have h₁ := h.ram
  have h₂ := h.size_pos
  have h₃ := h.size_le
  rw [Region.pages_stop] at h₁ ⊢
  simp only [Region.stop, kPageSize] at h₁ ⊢
  simp only [pageAlignUp, pageAlignDown, kPageSize]
  omega

theorem Askable.roundUp_eq (hstart : start ≤ mb.memBase + mb.memSize) :
    alignMask ((start + align + (2 ^ 64 - 1)) % 2 ^ 64) align = roundUp start align := by
  have hend := h.end_lt
  have hpos := h.align_pos
  have hmod : (start + align + (2 ^ 64 - 1)) % 2 ^ 64 = start + align - 1 := by omega
  rw [hmod]
  obtain ⟨k, hk, rfl⟩ := h.align_pow
  exact alignMask_two_pow (by omega) hk

theorem Askable.stop64_eq {r : Region} (hr : r ∈ mb.reserved) : r.stop64 = r.stop :=
  Region.stop64_eq (by have := h.reserved r hr; omega)

theorem Askable.overlaps_iff (hsum : start + size < 2 ^ 64) :
    mb.overlapsReserved start size = true ↔
      ∃ r ∈ mb.reserved, start < r.stop ∧ r.base < start + size := by
  rw [overlapsReserved, List.any_eq_true, Nat.mod_eq_of_lt hsum]
  simp only [decide_eq_true_eq]
  refine exists_congr fun r => and_congr_right fun hr => ?_
  rw [h.stop64_eq hr]

theorem Askable.apart_iff (hne : ∀ r ∈ mb.reserved, r.base < r.stop)
    (hsum : start + size < 2 ^ 64) : (∀ r ∈ mb.reserved, (⟨start, size⟩ : Region).Apart r) ↔
      ¬ mb.overlapsReserved start size = true := by
  have hpos := h.size_pos
  rw [h.overlaps_iff hsum]
  simp only [not_exists, not_and]
  refine forall₂_congr fun r hr => ?_
  rw [Region.apart_iff (by simp only [Region.stop]; omega) (hne r hr)]
  simp only [Region.stop]
  omega

/-- Where the upward search goes on: past the reservation that covers the candidate, or to the
next multiple of the alignment. -/
theorem Askable.next_cases (start : ℕ) : (∃ r ∈ mb.reserved, r.base ≤ start ∧ start < r.stop ∧
        mb.reservedEndCovering start = r.stop) ∨ mb.reservedEndCovering start = start := by
  rw [reservedEndCovering]
  split
  · rename_i r hfind
    have hr := List.mem_of_find?_eq_some hfind
    have hcover := List.find?_some hfind
    simp only [decide_eq_true_eq] at hcover
    rw [h.stop64_eq hr] at hcover ⊢
    exact .inl ⟨r, hr, hcover.1, hcover.2, rfl⟩
  · exact .inr rfl

end Askable

/-! ## The upward search -/

section Upward

variable (h : mb.Askable size align) (hne : ∀ r ∈ mb.reserved, r.base < r.stop)
include h hne

/-- The search has passed no candidate. -/
structure Upward (mb : Gmb) (size align start : ℕ) : Prop where
  base_le : pageAlignUp mb.memBase ≤ start
  sum_lt : start + size < 2 ^ 64
  passed : ∀ a ∈ mb.lowSet size align, start ≤ a

omit h hne in
theorem Upward.roundUp_le (hp : Upward mb size align start)
    (halign : 0 < align) (ha : a ∈ mb.lowSet size align) : roundUp start align ≤ a :=
  Lume.roundUp_le halign ha.1 (hp.passed a ha)

theorem Upward.goes {t : ℕ} (hp : Upward mb size align start)
    (hgoes : Goes (mb.allocBody size align) start t) :
    Upward mb size align t ∧ mb.memBase + mb.memSize + 1 - t <
      mb.memBase + mb.memSize + 1 - start := by
  have hend := h.end_lt
  have hsize := h.size_le
  have hpos := h.align_pos
  rw [Goes, allocBody, Nat.mod_eq_of_lt hp.sum_lt, h.memEnd_eq] at hgoes
  split at hgoes
  swap
  · cases hgoes
  rename_i hin
  rw [h.roundUp_eq (by omega)] at hgoes
  have hle := le_roundUp start hpos
  have hlt := roundUp_lt start hpos
  have hdvd := dvd_roundUp start align
  have hpassed := fun a ha => hp.roundUp_le (a := a) hpos ha
  generalize roundUp start align = s at *
  have hsum : s + size < 2 ^ 64 := by omega
  dsimp only at hgoes
  rw [Nat.mod_eq_of_lt hsum] at hgoes
  split at hgoes
  · cases hgoes
  split at hgoes
  swap
  · cases hgoes
  rename_i hfits hover
  have hstep := Sum.inl.inj hgoes
  rcases h.next_cases s with ⟨r, hr, hbase, hstop, hskip⟩ | hskip
  · -- the candidates before the end of the covering reservation start inside it
    rw [hskip, if_neg (by omega)] at hstep
    subst hstep
    have hres := h.reserved r hr
    refine ⟨⟨by have := hp.base_le; omega, by omega, fun a ha => ?_⟩, by omega⟩
    by_contra hcon
    have hpos := h.size_pos
    refine ha.2.2.apart r hr a ⟨le_rfl, by simp only [Region.stop]; omega⟩ ⟨?_, by omega⟩
    have := hpassed a ha
    omega
  · -- the candidate itself is taken, and the next one is an alignment away
    rw [hskip, if_pos le_rfl, Nat.mod_eq_of_lt (by omega)] at hstep
    subst hstep
    refine ⟨⟨by have := hp.base_le; omega, by omega, fun a ha => ?_⟩, by omega⟩
    refine add_le_of_dvd_of_lt hdvd ha.1 (lt_of_le_of_ne (hpassed a ha) ?_)
    rintro rfl
    exact (h.apart_iff hne hsum).mp ha.2.2.apart hover

/-- What the upward search leaves with. -/
def LowResult (mb : Gmb) (size align : ℕ) : Option (ℕ × Gmb) → Prop
  | some (a, mb') => IsLeast (mb.lowSet size align) a ∧ mb.reserve a size = some mb'
  | none => mb.lowSet size align = ∅

theorem Upward.stops (hroom : mb.reserved.length < kMemblockMaxRegions)
    (hp : Upward mb size align start) {out : Option (ℕ × Gmb)}
    (hstop : mb.allocBody size align start = .inr out) : LowResult mb size align out := by
  have hend := h.end_lt
  have hsize := h.size_le
  have hpos := h.align_pos
  have hbase := h.pageAlignUp_memBase.1
  rw [allocBody, Nat.mod_eq_of_lt hp.sum_lt, h.memEnd_eq] at hstop
  split at hstop
  swap
  · cases hstop
    refine Set.eq_empty_of_forall_notMem fun a ha => ?_
    have := hp.passed a ha
    have := ha.2.2.le_end
    omega
  rename_i hin
  rw [h.roundUp_eq (by omega)] at hstop
  have hle := le_roundUp start hpos
  have hlt := roundUp_lt start hpos
  have hdvd := dvd_roundUp start align
  have hpassed := fun a ha => hp.roundUp_le (a := a) hpos ha
  generalize roundUp start align = s at *
  have hsum : s + size < 2 ^ 64 := by omega
  dsimp only at hstop
  rw [Nat.mod_eq_of_lt hsum] at hstop
  split at hstop
  · cases hstop
    refine Set.eq_empty_of_forall_notMem fun a ha => ?_
    have := hpassed a ha
    have := ha.2.2.le_end
    omega
  split at hstop
  · cases hstop
  rename_i hfits hfree
  rw [reserve_eq hroom] at hstop
  cases hstop
  have := hp.base_le
  exact ⟨⟨⟨hdvd, by omega, by omega, by omega, (h.apart_iff hne hsum).mpr hfree⟩, hpassed⟩,
    reserve_eq hroom⟩

/-- **`memblock_alloc`** ends: with the least candidate, reserved, or with the panic where there
is none. -/
theorem allocs_spec (hroom : mb.reserved.length < kMemblockMaxRegions) :
    ∃ out, mb.Allocs size align out ∧ LowResult mb size align out := by
  have hend := h.ram
  have hbase := h.pageAlignUp_memBase
  have hsize := h.size_le
  refine exists_ends (P := Upward mb size align)
    (fun s => mb.memBase + mb.memSize + 1 - s)
    (fun s t hp hgoes => hp.goes h hne hgoes) (fun s out hp hstop => hp.stops h hne hroom hstop)
    ⟨le_rfl, by omega, fun a ha => ha.2.1⟩

end Upward

/-! ## The downward search -/

section Downward

variable (h : mb.Askable size align) (hne : ∀ r ∈ mb.reserved, r.base < r.stop)
include h

theorem Askable.size_le_top : size ≤ pageAlignDown (mb.memBase + mb.memSize) ∧
      pageAlignDown (mb.memBase + mb.memSize) ≤ mb.memBase + mb.memSize := by
  have h₁ := h.page_le
  have h₂ := h.size_le
  simp only [pageAlignDown, kPageSize] at *
  omega

theorem Askable.allocTopStart_eq : mb.allocTopStart size align =
      (pageAlignDown (mb.memBase + mb.memSize) - size) / align * align := by
  have hend := h.end_lt
  obtain ⟨hle, htop⟩ := h.size_le_top
  have hpos := h.size_pos
  rw [allocTopStart, h.memEnd_eq]
  have hmod : (pageAlignDown (mb.memBase + mb.memSize) + (2 ^ 64 - size)) % 2 ^ 64 =
      pageAlignDown (mb.memBase + mb.memSize) - size := by omega
  rw [hmod]
  obtain ⟨k, hk, rfl⟩ := h.align_pow
  exact alignMask_two_pow (by omega) hk

/-- The search is at a multiple of the alignment and has passed no candidate. -/
structure Downward (mb : Gmb) (size align start : ℕ) : Prop where
  dvd : align ∣ start
  le_top : start + size ≤ pageAlignDown (mb.memBase + mb.memSize)
  passed : ∀ a ∈ mb.topSet size align, a ≤ start

theorem Askable.downward_start : Downward mb size align (mb.allocTopStart size align) := by
  obtain ⟨hle, -⟩ := h.size_le_top
  rw [h.allocTopStart_eq]
  have hdiv := Nat.div_mul_le_self (pageAlignDown (mb.memBase + mb.memSize) - size) align
  refine ⟨Nat.dvd_mul_left .., by omega, fun a ha => ?_⟩
  obtain ⟨⟨m, rfl⟩, htop, -⟩ := ha
  rw [Nat.mul_comm]
  refine Nat.mul_le_mul_right _ ((Nat.le_div_iff_mul_le h.align_pos).mpr ?_)
  rw [Nat.mul_comm]
  omega

include hne

theorem Downward.goes {t : ℕ} (hp : Downward mb size align start)
    (hgoes : Goes (mb.allocTopBody size align) start t) : Downward mb size align t ∧ t < start := by
  have hend := h.end_lt
  have hpos := h.align_pos
  obtain ⟨-, htop⟩ := h.size_le_top
  have hle := hp.le_top
  have hsum : start + size < 2 ^ 64 := by omega
  rw [Goes, allocTopBody] at hgoes
  split at hgoes
  swap
  · cases hgoes
  split at hgoes
  swap
  · cases hgoes
  rename_i hover
  split at hgoes
  · cases hgoes
  rename_i halign
  obtain rfl := Sum.inl.inj hgoes
  refine ⟨⟨Nat.dvd_sub hp.dvd (dvd_refl _), by omega, fun a ha => ?_⟩, by omega⟩
  have hlt : a < start := by
    refine lt_of_le_of_ne (hp.passed a ha) ?_
    rintro rfl
    exact (h.apart_iff hne hsum).mp ha.2.2.apart hover
  have := add_le_of_dvd_of_lt ha.1 hp.dvd hlt
  omega

/-- What the downward search leaves with. -/
def TopResult (mb : Gmb) (size align : ℕ) : Option (ℕ × Gmb) → Prop
  | some (a, mb') => IsGreatest (mb.topSet size align) a ∧ mb.reserve a size = some mb'
  | none => mb.topSet size align = ∅

theorem Downward.stops (hroom : mb.reserved.length < kMemblockMaxRegions)
    (hp : Downward mb size align start) {out : Option (ℕ × Gmb)}
    (hstop : mb.allocTopBody size align start = .inr out) : TopResult mb size align out := by
  have hend := h.end_lt
  have hpage := h.page_le
  obtain ⟨-, htop⟩ := h.size_le_top
  have hle := hp.le_top
  have hsum : start + size < 2 ^ 64 := by omega
  rw [allocTopBody, Nat.mod_eq_of_lt hsum, h.memEnd_eq] at hstop
  split at hstop
  swap
  · cases hstop
    refine Set.eq_empty_of_forall_notMem fun a ha => ?_
    have := hp.passed a ha
    have := ha.2.2.base_le
    omega
  rename_i hin
  split at hstop
  · -- a multiple of the alignment below the alignment is zero, which is no address of RAM
    rename_i hover
    split at hstop
    · rename_i hlt
      have := Nat.eq_zero_of_dvd_of_lt hp.dvd hlt
      simp only [kPageSize] at hpage
      omega
    · cases hstop
  · rename_i hfree
    rw [reserve_eq hroom] at hstop
    cases hstop
    exact ⟨⟨⟨hp.dvd, hp.le_top, hin.1, hin.2, (h.apart_iff hne hsum).mpr hfree⟩, hp.passed⟩,
      reserve_eq hroom⟩

/-- **`memblock_alloc_top`** ends: with the greatest candidate, reserved, or with the panic where
there is none. -/
theorem allocsTop_spec (hroom : mb.reserved.length < kMemblockMaxRegions) :
    ∃ out, mb.AllocsTop size align out ∧ TopResult mb size align out :=
  exists_ends (P := Downward mb size align) id (fun _ _ hp hgoes => hp.goes h hne hgoes)
    (fun _ _ hp hstop => hp.stops h hne hroom hstop) h.downward_start

end Downward

/-! ## Later calls -/

section Later

variable {q : Memblock.Request}

/-- A call as its caller sees it: a reservation made, or a request served at an address. -/
inductive Event
  | reserved (q : Region)
  | served (q : Memblock.Request) (a : ℕ)

/-- A search ends with the given result. -/
def Searches (mb : Gmb) (q : Memblock.Request) (out : Option (ℕ × Gmb)) : Prop :=
  if q.top then mb.AllocsTop q.size q.align out else mb.Allocs q.size q.align out

/-- One call that returns. -/
def Step (mb : Gmb) : Event → Gmb → Prop
  | .reserved q, mb' => (0 < q.size ∧ q.pages.stop < 2 ^ 64) ∧ mb.reserve q.base q.size = some mb'
  | .served q a, mb' => mb.Askable q.size q.align ∧ mb.Searches q (some (a, mb'))

/-- No later call returns a range that meets `[a, a + size)`. -/
def Kept (mb : Gmb) (size a : ℕ) : Prop :=
  ∀ es mb', Run Step mb es mb' →
    ∀ q b, Event.served q b ∈ es → (⟨b, q.size⟩ : Region).Apart ⟨a, size⟩

theorem Searches.reserve (h : mb.Searches q (some (a, mb'))) : mb.reserve a q.size = some mb' := by
  rw [Searches] at h
  split at h
  · obtain ⟨fuel, h⟩ := ends_iff.mp h
    generalize mb.allocTopStart q.size q.align = start at h
    induction fuel generalizing start with
    | zero => cases h
    | succ fuel ih =>
      rw [loop] at h
      split at h
      · exact ih _ h
      · rename_i out hout
        obtain rfl := Option.some.inj h
        rw [allocTopBody] at hout
        split at hout
        · split at hout
          · split at hout <;> cases hout
          · obtain ⟨mb₁, hres, he⟩ := Option.map_eq_some_iff.mp (Sum.inr.inj hout)
            cases he
            exact hres
        · cases hout
  · obtain ⟨fuel, h⟩ := ends_iff.mp h
    generalize pageAlignUp mb.memBase = start at h
    induction fuel generalizing start with
    | zero => cases h
    | succ fuel ih =>
      rw [loop] at h
      split at h
      · exact ih _ h
      · rename_i out hout
        obtain rfl := Option.some.inj h
        rw [allocBody] at hout
        split at hout
        · dsimp only at hout
          split at hout
          · cases hout
          · split at hout
            · cases hout
            · obtain ⟨mb₁, hres, he⟩ := Option.map_eq_some_iff.mp (Sum.inr.inj hout)
              cases he
              exact hres
        · cases hout

theorem length_lt_of_reserve {base : ℕ} (h : mb.reserve base size = some mb') :
    mb.reserved.length < kMemblockMaxRegions := by
  rw [Gmb.reserve, insertReserved] at h
  split at h
  · cases h
  · omega

theorem Searches.free (h : mb.Searches q (some (a, mb'))) (hask : mb.Askable q.size q.align)
    (hne : ∀ r ∈ mb.reserved, r.base < r.stop) : mb.Free q.size a := by
  have hroom := length_lt_of_reserve h.reserve
  rw [Searches] at h
  split at h
  · obtain ⟨out, hends, hout⟩ := allocsTop_spec hask hne hroom
    obtain rfl := Ends.unique hends h
    exact hout.1.1.2.2
  · obtain ⟨out, hends, hout⟩ := allocs_spec hask hne hroom
    obtain rfl := Ends.unique hends h
    exact hout.1.1.2.2

theorem Askable.pages_of_free (hask : mb.Askable size align) (h : mb.Free size a) :
    pageSpan a size = (⟨a, size⟩ : Region).pages := by
  have hstop : (⟨a, size⟩ : Region).pages.stop < 2 ^ 64 := by
    have hram := hask.ram
    rw [Region.pages_stop] at hram ⊢
    refine lt_of_le_of_lt (Nat.mul_le_mul_right _ (Nat.div_le_div_right ?_))
      (lt_of_le_of_lt (Nat.le_add_right_of_le (Nat.le_add_right _ _)) hram)
    exact Nat.sub_le_sub_right (Nat.add_le_add_right h.le_end _) _
  exact pageSpan_eq (q := ⟨a, size⟩) hstop

/-- The array has no empty entry, and one entry covers `[a, a + size)`. -/
structure Covers (mb : Gmb) (size a : ℕ) : Prop where
  nonempty : ∀ r ∈ mb.reserved, r.base < r.stop
  covered : ∃ r ∈ mb.reserved, r.base ≤ a ∧ a + size ≤ r.stop

theorem Reserves.nonempty {r : Region} (h : mb.Reserves r mb') (hr : r.base < r.stop)
    (hne : ∀ r ∈ mb.reserved, r.base < r.stop) : ∀ r ∈ mb'.reserved, r.base < r.stop := by
  intro r' hr'
  rcases (h.mem r').mp hr' with rfl | hr'
  · exact hr
  · exact hne r' hr'

theorem Covers.step {e : Event} (hc : mb.Covers size a) (h : mb.Step e mb') :
    mb'.Covers size a := by
  obtain ⟨r, hr, hle⟩ := hc.covered
  cases e with
  | reserved q =>
    obtain ⟨⟨hpos, hstop⟩, hres⟩ := h
    have hreserves := reserves_of_reserve hres
    rw [pageSpan_eq hstop] at hreserves
    exact ⟨hreserves.nonempty (Region.pages_size_pos hpos) hc.nonempty,
      r, (hreserves.mem r).mpr (.inr hr), hle⟩
  | served q b =>
    obtain ⟨hask, hsearch⟩ := h
    have hfree := hsearch.free hask hc.nonempty
    have hreserves := reserves_of_reserve hsearch.reserve
    rw [hask.pages_of_free hfree] at hreserves
    exact ⟨hreserves.nonempty (Region.pages_size_pos hask.size_pos) hc.nonempty,
      r, (hreserves.mem r).mpr (.inr hr), hle⟩

theorem Covers.kept (hc : mb.Covers size a) : mb.Kept size a := by
  intro es mb' hrun
  induction hrun with
  | nil =>
    intro q b hmem
    simp at hmem
  | @snoc mid _ _ e hrun hstep ih =>
    intro q b hmem
    rcases List.mem_append.mp hmem with hmem | hmem
    · exact ih q b hmem
    · obtain rfl := List.mem_singleton.mp hmem
      have hmid : mid.Covers size a := hrun.invariant (P := fun m => m.Covers size a) Covers.step hc
      obtain ⟨r, hr, hlo, hhi⟩ := hmid.covered
      have hfree := hstep.2.free hstep.1 hmid.nonempty
      intro x hx hxa
      refine hfree.apart r hr x hx ⟨hlo.trans hxa.1, ?_⟩
      exact lt_of_lt_of_le hxa.2 hhi

theorem Free.covers (h : mb.Free size a) (hask : mb.Askable size align)
    (hne : ∀ r ∈ mb.reserved, r.base < r.stop) (hres : mb.reserve a size = some mb') :
    mb'.Covers size a := by
  have hreserves := reserves_of_reserve hres
  rw [hask.pages_of_free h] at hreserves
  exact ⟨hreserves.nonempty (Region.pages_size_pos hask.size_pos) hne,
    _, (hreserves.mem _).mpr (.inl rfl), Region.base_pages_le _,
    (⟨a, size⟩ : Region).stop_le_pages⟩

end Later

end Gmb

/-- **The boot-time searches**: on the array that any sequence of reservations has built, with
room for one more, `memblock_alloc` returns the least candidate and `memblock_alloc_top` the
greatest; no later call returns a range that meets it; and each panics only where it has no
candidate. -/
theorem memblock_extremal (memBase memSize : ℕ) (hbase : kPageSize ≤ memBase)
    (calls : List Region) (hlen : calls.length < kMemblockMaxRegions) (size align : ℕ)
    (hcalls : ∀ q ∈ calls, 0 < q.size ∧ q.pages.stop + memSize + align < 2 ^ 64)
    (hram : (⟨memBase, memSize⟩ : Region).pages.stop + memSize + align < 2 ^ 64)
    (hpos : 0 < size) (hsize : size ≤ memSize) (halign : ∃ k < 64, align = 2 ^ k) :
    ∃ mb, Gmb.reserveAll ⟨memBase, memSize, []⟩ calls = some mb ∧
      Gmb.Built memBase memSize calls mb ∧
      ((∃ a mb', mb.Allocs size align (some (a, mb')) ∧ IsLeast (mb.lowSet size align) a ∧
          mb'.Kept size a) ∨ (mb.Allocs size align none ∧ mb.lowSet size align = ∅)) ∧
      ((∃ a mb', mb.AllocsTop size align (some (a, mb')) ∧ IsGreatest (mb.topSet size align) a ∧
          mb'.Kept size a) ∨ (mb.AllocsTop size align none ∧ mb.topSet size align = ∅)) := by
  obtain ⟨mb, hres, hb⟩ := Gmb.reserveAll_spec memBase memSize hlen.le
    fun q hq => by have := (hcalls q hq).2; omega
  have hask : mb.Askable size align := by
    refine ⟨by rwa [hb.memBase], hpos, by rwa [hb.memSize], halign, ?_, fun r hr => ?_⟩
    · rwa [hb.memBase, hb.memSize]
    · obtain ⟨q, hq, rfl⟩ := (hb.mem r).mp hr
      rw [hb.memSize]
      exact (hcalls q hq).2
  have hne : ∀ r ∈ mb.reserved, r.base < r.stop := by
    intro r hr
    obtain ⟨q, hq, rfl⟩ := (hb.mem r).mp hr
    exact Region.pages_size_pos (hcalls q hq).1
  have hroom : mb.reserved.length < kMemblockMaxRegions := by rwa [hb.length]
  refine ⟨mb, hres, hb, ?_, ?_⟩
  · obtain ⟨out, hends, hout⟩ := Gmb.allocs_spec hask hne hroom
    rcases out with - | ⟨a, mb'⟩
    · exact .inr ⟨hends, hout⟩
    · exact .inl ⟨a, mb', hends, hout.1, (hout.1.1.2.2.covers hask hne hout.2).kept⟩
  · obtain ⟨out, hends, hout⟩ := Gmb.allocsTop_spec hask hne hroom
    rcases out with - | ⟨a, mb'⟩
    · exact .inr ⟨hends, hout⟩
    · exact .inl ⟨a, mb', hends, hout.1, (hout.1.1.2.2.covers hask hne hout.2).kept⟩

/-- The RAM of sixteen pages, with two pages of firmware and two pages of kernel. -/
theorem memblock_extremal_small : ∃ mb, Gmb.reserveAll ⟨0x80000000, 0x10000, []⟩
        [⟨0x80000000, 0x2000⟩, ⟨0x80002000, 0x2000⟩] = some mb ∧
      Gmb.Built 0x80000000 0x10000 [⟨0x80000000, 0x2000⟩, ⟨0x80002000, 0x2000⟩] mb ∧
      ((∃ a mb', mb.Allocs 0x1000 0x1000 (some (a, mb')) ∧
          IsLeast (mb.lowSet 0x1000 0x1000) a ∧ mb'.Kept 0x1000 a) ∨
        (mb.Allocs 0x1000 0x1000 none ∧ mb.lowSet 0x1000 0x1000 = ∅)) ∧
      ((∃ a mb', mb.AllocsTop 0x1000 0x1000 (some (a, mb')) ∧
          IsGreatest (mb.topSet 0x1000 0x1000) a ∧ mb'.Kept 0x1000 a) ∨
        (mb.AllocsTop 0x1000 0x1000 none ∧ mb.topSet 0x1000 0x1000 = ∅)) :=
  memblock_extremal 0x80000000 0x10000 (by decide)
    [⟨0x80000000, 0x2000⟩, ⟨0x80002000, 0x2000⟩] (by decide) 0x1000 0x1000 (by decide) (by decide)
    (by decide) (by decide) ⟨12, by decide, by decide⟩

/-- Where RAM does not start at a page boundary the downward search returns a range in front of
the first page boundary, which the upward search never considers. -/
theorem allocTop_before_first_page :
    ∃ mb', (⟨0x1800, 0x1000, []⟩ : Gmb).AllocsTop 0x800 0x800 (some (0x1800, mb')) ∧
      ¬ IsGreatest {a | 0x800 ∣ a ∧ pageAlignUp 0x1800 ≤ a ∧ a + 0x800 ≤ pageAlignDown 0x2800 ∧
        (⟨0x1800, 0x1000, []⟩ : Gmb).Free 0x800 a} 0x1800 := by
  refine ⟨⟨0x1800, 0x1000, [⟨0x1000, 0x1000⟩]⟩, ?_, fun h => ?_⟩
  · exact ends_iff.mpr ⟨1, by decide +kernel⟩
  · exact absurd h.1.2.1 (by decide)

end Lume
