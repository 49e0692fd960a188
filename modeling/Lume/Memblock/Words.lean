import Lume.Memblock
import Lume.Foundation.Loop
import Mathlib.Data.List.Find
import Mathlib.Data.List.Induction

/-!
# The boot-time allocator in 64-bit words

`Memblock` serves the requests of the boot sequence, in a RAM whose ends are page aligned. Here the
same functions are taken as the code computes them, in 64-bit words and over any RAM range: sums
wrap, and the two searches are loops that may or may not end.

## Main definitions

* `Gmb`: the static state of `mm/memblock.cc`
* `Gmb.reserve`, `Gmb.allocBody`, `Gmb.allocTopBody`, `Gmb.forEachFree`
* `Gmb.reserveAll`: the array that a sequence of `memblock_reserve` calls builds

## Main results

* `Gmb.reserveAll_spec`: the array holds the page spans of the calls, sorted by base
-/

namespace Lume

/-- The end of a region as the code computes it: the sum wraps. -/
def Region.stop64 (r : Region) : ℕ := (r.base + r.size) % 2 ^ 64

theorem Region.stop64_eq {r : Region} (h : r.stop < 2 ^ 64) : r.stop64 = r.stop :=
  Nat.mod_eq_of_lt h

/-- `g_mb`: the RAM range of the device tree and the array of reserved regions. -/
structure Gmb where
  memBase : ℕ
  memSize : ℕ
  reserved : List Region
deriving DecidableEq

namespace Gmb

/-- `g_mb.mem_base + g_mb.mem_size` -/
def memEnd (mb : Gmb) : ℕ := (mb.memBase + mb.memSize) % 2 ^ 64

/-- `insert_reserved`: the scan runs from the back of the array and stops at the first entry
whose base is not greater; `none` is the panic on a full array. -/
def insertReserved (mb : Gmb) (r : Region) : Option Gmb :=
  if kMemblockMaxRegions ≤ mb.reserved.length then none
  else some { mb with
    reserved := (mb.reserved.reverse.orderedInsert (fun a b => b.base ≤ a.base) r).reverse }

/-- `overlaps_reserved` -/
def overlapsReserved (mb : Gmb) (base size : ℕ) : Bool :=
  mb.reserved.any fun r => base < r.stop64 ∧ r.base < (base + size) % 2 ^ 64

/-- `reserved_end_covering` -/
def reservedEndCovering (mb : Gmb) (addr : ℕ) : ℕ :=
  match mb.reserved.find? fun r => r.base ≤ addr ∧ addr < r.stop64 with
  | some r => r.stop64
  | none => addr

/-- The region `memblock_reserve` enters. -/
def pageSpan (base size : ℕ) : Region :=
  ⟨pageAlignDown base,
    (pageAlignUp ((base + size) % 2 ^ 64) + (2 ^ 64 - pageAlignDown base)) % 2 ^ 64⟩

/-- `memblock_reserve` -/
def reserve (mb : Gmb) (base size : ℕ) : Option Gmb := mb.insertReserved (pageSpan base size)

/-- One round of the loop of `memblock_alloc`, at `start`; the result `none` is the panic. -/
def allocBody (mb : Gmb) (size align start : ℕ) : ℕ ⊕ Option (ℕ × Gmb) :=
  if (start + size) % 2 ^ 64 ≤ mb.memEnd then
    let start := alignMask ((start + align + (2 ^ 64 - 1)) % 2 ^ 64) align
    if mb.memEnd < (start + size) % 2 ^ 64 then .inr none
    else if mb.overlapsReserved start size then
      let skip := mb.reservedEndCovering start
      .inl (if skip ≤ start then (start + align) % 2 ^ 64 else skip)
    else .inr ((mb.reserve start size).map (start, ·))
  else .inr none

/-- `memblock_alloc` ends with the given result. -/
def Allocs (mb : Gmb) (size align : ℕ) (out : Option (ℕ × Gmb)) : Prop :=
  Ends (mb.allocBody size align) (pageAlignUp mb.memBase) out

/-- One round of the loop of `memblock_alloc_top`. -/
def allocTopBody (mb : Gmb) (size align start : ℕ) : ℕ ⊕ Option (ℕ × Gmb) :=
  if mb.memBase ≤ start ∧ (start + size) % 2 ^ 64 ≤ mb.memEnd then
    if mb.overlapsReserved start size then
      if start < align then .inr none else .inl (start - align)
    else .inr ((mb.reserve start size).map (start, ·))
  else .inr none

/-- Where the search of `memblock_alloc_top` starts. -/
def allocTopStart (mb : Gmb) (size align : ℕ) : ℕ :=
  alignMask ((pageAlignDown mb.memEnd + (2 ^ 64 - size)) % 2 ^ 64) align

/-- `memblock_alloc_top` ends with the given result. -/
def AllocsTop (mb : Gmb) (size align : ℕ) (out : Option (ℕ × Gmb)) : Prop :=
  Ends (mb.allocTopBody size align) (mb.allocTopStart size align) out

/-- The loop of `memblock_for_each_free` over the entries left to visit. -/
def freeLoop (memEnd : ℕ) : List Region → ℕ → List Region
  | [], pos => if pos < memEnd then [⟨pos, memEnd - pos⟩] else []
  | r :: rs, pos =>
    if pos < memEnd then
      if r.base < pos then freeLoop memEnd rs (if pos < r.stop64 then r.stop64 else pos)
      else (if pos < r.base then [⟨pos, r.base - pos⟩] else []) ++ freeLoop memEnd rs r.stop64
    else []

/-- `memblock_for_each_free`: the regions passed to the callback, in order. -/
def forEachFree (mb : Gmb) : List Region := freeLoop mb.memEnd mb.reserved mb.memBase

/-- A sequence of `memblock_reserve` calls, each given by its base and size. -/
def reserveAll (mb : Gmb) (calls : List Region) : Option Gmb :=
  calls.foldlM (fun mb q => mb.reserve q.base q.size) mb

end Gmb

/-! ## Rounding outwards to pages -/

/-- The pages of a region: both ends rounded outwards, over the integers. -/
def Region.pages (r : Region) : Region :=
  ⟨r.base / kPageSize * kPageSize,
    (r.stop + kPageSize - 1) / kPageSize * kPageSize - r.base / kPageSize * kPageSize⟩

namespace Region

variable {r : Region}

theorem pages_stop (r : Region) :
    r.pages.stop = (r.stop + kPageSize - 1) / kPageSize * kPageSize := by
  simp only [pages, stop, kPageSize]
  omega

theorem base_pages_le (r : Region) : r.pages.base ≤ r.base := Nat.div_mul_le_self _ _

theorem stop_le_pages (r : Region) : r.stop ≤ r.pages.stop := by
  rw [pages_stop]
  simp only [kPageSize]
  omega

theorem pages_size_pos (h : 0 < r.size) : r.pages.base < r.pages.stop := by
  have h₁ := r.base_pages_le
  have h₂ := r.stop_le_pages
  simp only [stop] at *
  omega

end Region

namespace Gmb

theorem pageSpan_eq {q : Region} (h : q.pages.stop < 2 ^ 64) : pageSpan q.base q.size = q.pages := by
  have hstop := q.pages_stop
  have hle := q.stop_le_pages
  simp only [Region.pages, Region.stop, kPageSize] at h hstop hle
  simp only [pageSpan, Region.pages, Region.stop, pageAlignUp, pageAlignDown, kPageSize]
  congr 1
  omega

/-! ## The array that a sequence of calls builds -/

variable {mb mb' : Gmb} {calls : List Region} {base size : ℕ}

theorem reserve_eq (h : mb.reserved.length < kMemblockMaxRegions) :
    mb.reserve base size = some { mb with
      reserved := (mb.reserved.reverse.orderedInsert (fun a b => b.base ≤ a.base)
        (pageSpan base size)).reverse } := by
  rw [reserve, insertReserved, if_neg (Nat.not_le.mpr h)]

/-- What `memblock_reserve` does: one entry more, the array still sorted. -/
structure Reserves (mb : Gmb) (r : Region) (mb' : Gmb) : Prop where
  memBase : mb'.memBase = mb.memBase
  memSize : mb'.memSize = mb.memSize
  length : mb'.reserved.length = mb.reserved.length + 1
  mem : ∀ r', r' ∈ mb'.reserved ↔ r' = r ∨ r' ∈ mb.reserved
  sorted : mb.reserved.Pairwise (fun r r' => r.base ≤ r'.base) →
    mb'.reserved.Pairwise (fun r r' => r.base ≤ r'.base)

theorem reserves_of_reserve (h : mb.reserve base size = some mb') :
    mb.Reserves (pageSpan base size) mb' := by
  rw [reserve, insertReserved] at h
  split at h
  · cases h
  · cases h
    refine ⟨rfl, rfl, ?_, fun r => by simp [List.mem_orderedInsert], fun hsort => ?_⟩
    · simp [List.orderedInsert_length]
    · have : Std.Total fun a b : Region => b.base ≤ a.base :=
        ⟨fun a b => Nat.le_total b.base a.base⟩
      have : IsTrans Region fun a b => b.base ≤ a.base := ⟨fun _ _ _ hab hbc => hbc.trans hab⟩
      rw [List.pairwise_reverse]
      exact (List.pairwise_reverse.mpr hsort).orderedInsert _ _

/-- The array built by a sequence of calls. -/
structure Built (memBase memSize : ℕ) (calls : List Region) (mb : Gmb) : Prop where
  memBase : mb.memBase = memBase
  memSize : mb.memSize = memSize
  length : mb.reserved.length = calls.length
  mem : ∀ r, r ∈ mb.reserved ↔ ∃ q ∈ calls, r = q.pages
  sorted : mb.reserved.Pairwise fun r r' => r.base ≤ r'.base

/-- **Reservations**: as many calls as the array has room for all succeed, and the array then
holds the pages of their arguments, sorted by base. -/
theorem reserveAll_spec (memBase memSize : ℕ) (hlen : calls.length ≤ kMemblockMaxRegions)
    (hcalls : ∀ q ∈ calls, q.pages.stop < 2 ^ 64) :
    ∃ mb, reserveAll ⟨memBase, memSize, []⟩ calls = some mb ∧ Built memBase memSize calls mb := by
  induction calls using List.reverseRecOn with
  | nil => exact ⟨_, rfl, rfl, rfl, rfl, by simp, .nil⟩
  | append_singleton calls q ih =>
    rw [List.length_append, List.length_singleton] at hlen
    obtain ⟨mb, hres, hb⟩ := ih (by omega) fun q hq => hcalls q (List.mem_append_left _ hq)
    have hroom : mb.reserved.length < kMemblockMaxRegions := by rw [hb.length]; omega
    obtain ⟨mb', hmb'⟩ : ∃ mb', mb.reserve q.base q.size = some mb' := ⟨_, reserve_eq hroom⟩
    have hr := reserves_of_reserve hmb'
    rw [pageSpan_eq (hcalls q (by simp))] at hr
    refine ⟨mb', ?_, hr.memBase.trans hb.memBase, hr.memSize.trans hb.memSize, ?_, fun r => ?_,
      hr.sorted hb.sorted⟩
    · rw [reserveAll, List.foldlM_append]
      rw [reserveAll] at hres
      rw [hres]
      simpa using hmb'
    · rw [hr.length, hb.length, List.length_append, List.length_singleton]
    · rw [hr.mem, hb.mem]
      simp only [List.mem_append, List.mem_singleton, or_and_right, exists_or, exists_eq_left]
      exact or_comm

end Gmb

end Lume
