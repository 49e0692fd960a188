import Lume.Config
import Lume.Foundation.Transition
import Mathlib.Data.List.Sort
import Mathlib.Data.Nat.Bitwise

/-!
# The boot-time allocator

`mm/memblock.cc` keeps one RAM range and an array of reserved regions, sorted by base. It serves
requests from the gaps between them until `pmm_init` takes the remaining gaps over.

A result `none` is a `kernel_panic`. Sizes and alignments are those of a `Request`, so that no
64-bit addition of the code wraps.

## Main definitions

* `Region`, `Memblock`: the reserved regions and the allocator's state
* `KernelImage`: the image the boot loader placed in RAM
* `memblockInit`, `Memblock.alloc`, `Memblock.allocTop`, `Memblock.forEachFree`
* `Memblock.Step`: one request served, labelled with the address returned

## Main results

* `Memblock.Step.inv`: the reserved array stays sorted, page aligned and inside RAM
* `Memblock.mem_forEachFree`: the free regions are the addresses no reserved region covers
-/

namespace Lume

/-- One entry of `g_mb.reserved`. -/
structure Region where
  base : ℕ
  size : ℕ
deriving DecidableEq, Repr

namespace Region

/-- The first address past the region. -/
def stop (r : Region) : ℕ := r.base + r.size

instance : Membership ℕ Region := ⟨fun r a => r.base ≤ a ∧ a < r.stop⟩

theorem mem_def {r : Region} {a : ℕ} : a ∈ r ↔ r.base ≤ a ∧ a < r.stop := Iff.rfl

instance (r : Region) (a : ℕ) : Decidable (a ∈ r) :=
  inferInstanceAs (Decidable (_ ∧ _))

theorem stop_gap {a b : ℕ} (h : a ≤ b) : (⟨a, b - a⟩ : Region).stop = b :=
  Nat.add_sub_cancel' h

/-- Both ends are page aligned. -/
structure PageAligned (r : Region) : Prop where
  base : kPageSize ∣ r.base
  stop : kPageSize ∣ r.stop

/-- The region is a part of RAM. -/
structure Within (ram : Ram) (r : Region) : Prop where
  base : ram.memBase ≤ r.base
  stop : r.stop ≤ ram.memEnd

end Region

/-- `g_mb`; `active` is cleared by `memblock_retire`. -/
structure Memblock where
  ram : Ram
  reserved : List Region
  active : Bool
deriving DecidableEq

/-- `kMemblockMaxRegions` -/
def kMemblockMaxRegions : ℕ := 128

/-- `x & ~(align - 1)` on 64 bits. -/
def alignMask (x align : ℕ) : ℕ := x &&& (2 ^ 64 - align)

/-- The kernel image `[_stext, _kernel_end)`, by physical address. -/
structure KernelImage (ram : Ram) where
  stext : ℕ
  kernelEnd : ℕ
  base_le : ram.memBase ≤ stext
  lt : stext < kernelEnd
  le_end : kernelEnd ≤ ram.memEnd

namespace Memblock

/-- `insert_reserved`: the scan runs from the back of the array and stops at the first entry
whose base is not greater. -/
def insertReserved (mb : Memblock) (r : Region) : Option Memblock :=
  if kMemblockMaxRegions ≤ mb.reserved.length then none
  else some { mb with
    reserved := (mb.reserved.reverse.orderedInsert (fun a b => b.base ≤ a.base) r).reverse }

/-- `overlaps_reserved` -/
def overlapsReserved (mb : Memblock) (base size : ℕ) : Bool :=
  mb.reserved.any fun r => base < r.stop ∧ r.base < base + size

/-- `reserved_end_covering` -/
def reservedEndCovering (mb : Memblock) (addr : ℕ) : ℕ :=
  match mb.reserved.find? fun r => addr ∈ r with
  | some r => r.stop
  | none => addr

/-- The region `memblock_reserve` enters: the given one rounded outwards to pages. -/
def pageSpan (base size : ℕ) : Region :=
  ⟨pageAlignDown base, pageAlignUp (base + size) - pageAlignDown base⟩

/-- `memblock_reserve` -/
def reserve (mb : Memblock) (base size : ℕ) : Option Memblock :=
  mb.insertReserved (pageSpan base size)

/-- The loop of `memblock_alloc_top`; `fuel` bounds the number of iterations. -/
def allocTopLoop (mb : Memblock) (size align : ℕ) : ℕ → ℕ → Option (ℕ × Memblock)
  | 0, _ => none
  | fuel + 1, start =>
    if mb.ram.memBase ≤ start ∧ start + size ≤ mb.ram.memEnd then
      if mb.overlapsReserved start size then
        if start < align then none else allocTopLoop mb size align fuel (start - align)
      else (mb.reserve start size).map (start, ·)
    else none

/-- `memblock_alloc_top` -/
def allocTop (mb : Memblock) (size align : ℕ) : Option (ℕ × Memblock) :=
  let stop := pageAlignDown mb.ram.memEnd
  mb.allocTopLoop size align (mb.ram.memEnd + 1) (alignMask (stop - size) align)

/-- The loop of `memblock_alloc`; `fuel` bounds the number of iterations. -/
def allocLoop (mb : Memblock) (size align : ℕ) : ℕ → ℕ → Option (ℕ × Memblock)
  | 0, _ => none
  | fuel + 1, start =>
    if start + size ≤ mb.ram.memEnd then
      let start := alignMask (start + align - 1) align
      if mb.ram.memEnd < start + size then none
      else if mb.overlapsReserved start size then
        let skip := mb.reservedEndCovering start
        allocLoop mb size align fuel (if skip ≤ start then start + align else skip)
      else (mb.reserve start size).map (start, ·)
    else none

/-- `memblock_alloc` -/
def alloc (mb : Memblock) (size align : ℕ) : Option (ℕ × Memblock) :=
  mb.allocLoop size align (mb.ram.memEnd + 1) (pageAlignUp mb.ram.memBase)

/-- The loop of `memblock_for_each_free` over the entries left to visit. -/
def freeLoop (memEnd : ℕ) : List Region → ℕ → List Region
  | [], pos => if pos < memEnd then [⟨pos, memEnd - pos⟩] else []
  | r :: rs, pos =>
    if pos < memEnd then
      if r.base < pos then freeLoop memEnd rs (if pos < r.stop then r.stop else pos)
      else (if pos < r.base then [⟨pos, r.base - pos⟩] else []) ++ freeLoop memEnd rs r.stop
    else []

/-- `memblock_for_each_free`: the regions passed to the callback, in order. -/
def forEachFree (mb : Memblock) : List Region :=
  freeLoop mb.ram.memEnd mb.reserved mb.ram.memBase

end Memblock

/-- `memblock_init`. The address of the device tree is an argument that the code ignores. -/
def memblockInit {ram : Ram} (image : KernelImage ram) (_fdtPaddr : ℕ) : Option Memblock := do
  let mb : Memblock := ⟨ram, [], true⟩
  let mb ← if ram.memBase < image.stext then mb.reserve ram.memBase (image.stext - ram.memBase)
    else some mb
  mb.reserve image.stext (image.kernelEnd - image.stext)

/-! ## Rounding -/

theorem alignMask_two_pow {x k : ℕ} (hx : x < 2 ^ 64) (hk : k < 64) :
    alignMask x (2 ^ k) = x / 2 ^ k * 2 ^ k := by
  have hmask : 2 ^ 64 - 2 ^ k = (2 ^ (64 - k) - 1) <<< k := by
    rw [Nat.shiftLeft_eq, Nat.sub_mul, ← pow_add, one_mul, Nat.sub_add_cancel hk.le]
  rw [alignMask, hmask, ← Nat.shiftLeft_eq, ← Nat.shiftRight_eq_div_pow]
  refine Nat.eq_of_testBit_eq fun i => ?_
  simp only [Nat.testBit_and, Nat.testBit_shiftLeft, Nat.testBit_shiftRight,
    Nat.testBit_two_pow_sub_one]
  by_cases hi : k ≤ i
  · by_cases hlt : i < 64
    · simp [hi, show i - k < 64 - k by omega]
    · simp [hi, Nat.testBit_lt_two_pow (lt_of_lt_of_le hx (Nat.pow_le_pow_right (by decide)
        (by omega : 64 ≤ i)))]
  · simp [hi]

theorem le_alignMask_add {x k : ℕ} (hx : x ≤ 2 ^ 38) (hk : k < 64) :
    x ≤ alignMask (x + 2 ^ k - 1) (2 ^ k) := by
  have hpow : 2 ^ k ≤ 2 ^ 63 := Nat.pow_le_pow_right (by decide) (by omega)
  have hpos : 0 < 2 ^ k := Nat.pow_pos (by decide)
  rw [alignMask_two_pow (by omega) hk]
  have hdiv := Nat.div_add_mod' (x + 2 ^ k - 1) (2 ^ k)
  have hmod := Nat.mod_lt (x + 2 ^ k - 1) hpos
  generalize 2 ^ k = align at *
  omega

namespace Memblock

section PageSpan

variable {ram : Ram} {a size : ℕ}

section

variable (hlo : ram.memBase ≤ a) (hhi : a + size ≤ ram.memEnd)
include hlo hhi

theorem pageSpan_bounds : (pageSpan a size).base = a / kPageSize * kPageSize ∧
      (pageSpan a size).stop = (a + size + kPageSize - 1) / kPageSize * kPageSize := by
  have := ram.end_le
  simp only [Ram.memEnd] at hhi
  simp only [pageSpan, Region.stop, pageAlignUp, pageAlignDown, kPageSize]
  rw [Nat.mod_eq_of_lt (by omega)]
  exact ⟨trivial, by omega⟩

theorem pageSpan_aligned : (pageSpan a size).PageAligned := by
  obtain ⟨hb, hs⟩ := pageSpan_bounds hlo hhi
  exact ⟨hb ▸ Nat.dvd_mul_left _ _, hs ▸ Nat.dvd_mul_left _ _⟩

theorem pageSpan_within : (pageSpan a size).Within ram := by
  obtain ⟨hb, hs⟩ := pageSpan_bounds hlo hhi
  obtain ⟨m, hm⟩ := ram.base_aligned
  obtain ⟨n, hn⟩ := ram.size_aligned
  constructor
  · rw [hb]
    simp only [kPageSize] at *
    omega
  · rw [hs]
    simp only [Ram.memEnd, kPageSize] at *
    omega

end

end PageSpan

/-! ## What a request does -/

variable {mb mb' : Memblock} {a size align : ℕ}

theorem mem_reserve (h : mb.reserve a size = some mb') {r : Region} :
    r ∈ mb'.reserved ↔ r = pageSpan a size ∨ r ∈ mb.reserved := by
  rw [reserve, insertReserved] at h
  split at h
  · cases h
  · cases h
    simp [List.mem_orderedInsert]

theorem ram_reserve (h : mb.reserve a size = some mb') : mb'.ram = mb.ram := by
  rw [reserve, insertReserved] at h
  split at h <;> cases h
  rfl

/-- `[a, a + size)` was free RAM, and is reserved now. -/
structure Serves (mb : Memblock) (size a : ℕ) (mb' : Memblock) : Prop where
  base_le : mb.ram.memBase ≤ a
  le_end : a + size ≤ mb.ram.memEnd
  free : mb.overlapsReserved a size = false
  reserve : mb.reserve a size = some mb'

theorem allocTopLoop_serves (fuel start : ℕ)
    (h : mb.allocTopLoop size align fuel start = some (a, mb')) : mb.Serves size a mb' := by
  induction fuel generalizing start with
  | zero => cases h
  | succ fuel ih =>
    rw [allocTopLoop] at h
    split at h
    · rename_i hin
      split at h
      · split at h
        · cases h
        · exact ih _ h
      · rename_i hfree
        obtain ⟨mb₁, hres, he⟩ := Option.map_eq_some_iff.mp h
        cases he
        exact ⟨hin.1, hin.2, by simpa using hfree, hres⟩
    · cases h

theorem allocLoop_serves (halign : ∃ k < 64, align = 2 ^ k) (fuel start : ℕ)
    (hstart : mb.ram.memBase ≤ start)
    (h : mb.allocLoop size align fuel start = some (a, mb')) : mb.Serves size a mb' := by
  obtain ⟨k, hk, rfl⟩ := halign
  induction fuel generalizing start with
  | zero => cases h
  | succ fuel ih =>
    rw [allocLoop] at h
    split at h
    · rename_i hend
      have hle : start ≤ alignMask (start + 2 ^ k - 1) (2 ^ k) := by
        have := mb.ram.end_le
        rw [Ram.memEnd] at hend
        exact le_alignMask_add (by omega) hk
      generalize alignMask (start + 2 ^ k - 1) (2 ^ k) = start' at h hle
      dsimp only at h
      split at h
      · cases h
      split at h
      · have hpos : 0 < 2 ^ k := Nat.pow_pos (by decide)
        refine ih _ ?_ h
        split <;> omega
      · rename_i hlt hfree
        obtain ⟨mb₁, hres, he⟩ := Option.map_eq_some_iff.mp h
        cases he
        exact ⟨by omega, by omega, by simpa using hfree, hres⟩
    · cases h

/-- A request to the boot-time allocator. -/
structure Request where
  top : Bool
  size : ℕ
  align : ℕ
deriving DecidableEq

/-- A request asks for a part of RAM, on a power-of-two alignment. -/
structure Request.Valid (ram : Ram) (q : Request) : Prop where
  size_pos : 0 < q.size
  size_le : q.size ≤ ram.memSize
  align : ∃ k < 64, q.align = 2 ^ k

/-- Serve one request. -/
def serve (mb : Memblock) (q : Request) : Option (ℕ × Memblock) :=
  if q.top then mb.allocTop q.size q.align else mb.alloc q.size q.align

/-- One request served; the label records the request and the address returned. -/
def Step (mb : Memblock) (l : Request × ℕ) (mb' : Memblock) : Prop :=
  l.1.Valid mb.ram ∧ mb.serve l.1 = some (l.2, mb')

/-- **Inversion**: whichever end the search starts at, a request is served from free RAM. -/
theorem Step.serves {l : Request × ℕ} (h : Step mb l mb') : mb.Serves l.1.size l.2 mb' := by
  obtain ⟨hvalid, h⟩ := h
  rw [serve] at h
  split at h
  · exact allocTopLoop_serves _ _ h
  · refine allocLoop_serves hvalid.align _ _ ?_ h
    have := mb.ram.end_le
    simp only [pageAlignUp, pageAlignDown, kPageSize]
    omega

/-- The reserved array: sorted by base, made of whole pages of RAM. -/
structure Inv (mb : Memblock) : Prop where
  sorted : mb.reserved.Pairwise fun r r' => r.base ≤ r'.base
  aligned : ∀ r ∈ mb.reserved, r.PageAligned
  within : ∀ r ∈ mb.reserved, r.Within mb.ram

theorem Inv.reserve (hi : Inv mb) (hlo : mb.ram.memBase ≤ a) (hhi : a + size ≤ mb.ram.memEnd)
    (h : mb.reserve a size = some mb') : Inv mb' := by
  refine ⟨?_, fun r hr => ?_, fun r hr => ?_⟩
  · rw [Memblock.reserve, insertReserved] at h
    split at h <;> cases h
    have : Std.Total fun a b : Region => b.base ≤ a.base := ⟨fun a b => Nat.le_total b.base a.base⟩
    have : IsTrans Region fun a b => b.base ≤ a.base := ⟨fun _ _ _ hab hbc => hbc.trans hab⟩
    rw [List.pairwise_reverse]
    exact (List.pairwise_reverse.mpr hi.sorted).orderedInsert _ _
  · rcases (mem_reserve h).mp hr with rfl | hr
    · exact pageSpan_aligned hlo hhi
    · exact hi.aligned r hr
  · rw [ram_reserve h]
    rcases (mem_reserve h).mp hr with rfl | hr
    · exact pageSpan_within hlo hhi
    · exact hi.within r hr

theorem Step.inv {l : Request × ℕ} (hi : Inv mb) (h : Step mb l mb') : Inv mb' :=
  hi.reserve h.serves.base_le h.serves.le_end h.serves.reserve

/-! ## The free regions -/

section FreeLoop

variable {memEnd : ℕ}

theorem mem_freeLoop {rs : List Region} (hsort : rs.Pairwise fun r r' => r.base ≤ r'.base)
    (hend : ∀ r ∈ rs, r.stop ≤ memEnd) (pos x : ℕ) :
    (∃ f ∈ freeLoop memEnd rs pos, x ∈ f) ↔ pos ≤ x ∧ x < memEnd ∧ ∀ r ∈ rs, x ∉ r := by
  induction rs generalizing pos with
  | nil =>
    rw [freeLoop]
    split <;> simp [Region.mem_def, Region.stop] <;> omega
  | cons r rs ih =>
    obtain ⟨hr, hrs⟩ := List.pairwise_cons.mp hsort
    have ih := ih hrs fun r' hr' => hend r' (List.mem_cons_of_mem _ hr')
    have hstop := hend r (List.mem_cons_self ..)
    have hcons : (∀ r' ∈ r :: rs, x ∉ r') ↔ x ∉ r ∧ ∀ r' ∈ rs, x ∉ r' := List.forall_mem_cons
    rw [freeLoop]
    split
    · split
      · rw [ih, hcons, Region.mem_def]
        split <;> constructor <;> rintro ⟨h₁, h₂, h₃⟩ <;>
          first | exact ⟨by omega, h₂, by omega, h₃⟩ | exact ⟨by omega, h₂, h₃.2⟩
      · rename_i hpos
        have hle : r.base ≤ r.stop := Nat.le_add_right ..
        have hmem : x ∈ r ↔ r.base ≤ x ∧ x < r.stop := Iff.rfl
        have hgap : (∃ f ∈ (if pos < r.base then [⟨pos, r.base - pos⟩] else [] : List Region),
            x ∈ f) ↔ pos ≤ x ∧ x < r.base := by
          split <;> simp [Region.mem_def, Region.stop] <;> omega
        simp only [List.mem_append, or_and_right, exists_or, hgap, ih, hcons, hmem]
        constructor
        · rintro (⟨h₁, h₂⟩ | ⟨h₁, h₂, h₃⟩)
          · -- the entries after the gap start at or after its end
            refine ⟨h₁, by omega, by omega, fun r' hr' hx => ?_⟩
            have := hr r' hr'
            have := hx.1
            omega
          · exact ⟨by omega, h₂, by omega, h₃⟩
        · rintro ⟨h₁, h₂, h₃, h₄⟩
          rcases Nat.lt_or_ge x r.base with hx | hx
          · exact .inl ⟨h₁, hx⟩
          · exact .inr ⟨by omega, h₂, h₄⟩
    · rw [hcons]
      simp
      omega

theorem freeLoop_apart (rs : List Region) (pos : ℕ) : (∀ f ∈ freeLoop memEnd rs pos, pos ≤ f.base) ∧
      (freeLoop memEnd rs pos).Pairwise fun f g => f.stop ≤ g.base := by
  induction rs generalizing pos with
  | nil =>
    rw [freeLoop]
    split <;> simp
  | cons r rs ih =>
    rw [freeLoop]
    split
    · split
      · obtain ⟨hle, hpw⟩ := ih (if pos < r.stop then r.stop else pos)
        refine ⟨fun f hf => le_trans ?_ (hle f hf), hpw⟩
        split <;> omega
      · obtain ⟨hle, hpw⟩ := ih r.stop
        have hrs : r.base ≤ r.stop := Nat.le_add_right ..
        split
        · refine ⟨?_, List.pairwise_cons.mpr ⟨fun f hf => ?_, hpw⟩⟩
          · simp only [List.cons_append, List.nil_append, List.forall_mem_cons]
            exact ⟨le_rfl, fun f hf => by have := hle f hf; omega⟩
          · have := hle f hf
            simp only [Region.stop] at *
            omega
        · exact ⟨fun f hf => by have := hle f hf; omega, hpw⟩
    · simp

theorem freeLoop_aligned {rs : List Region} (hal : ∀ r ∈ rs, r.PageAligned)
    (hend : kPageSize ∣ memEnd) {pos : ℕ} (hpos : kPageSize ∣ pos) :
    ∀ f ∈ freeLoop memEnd rs pos, f.PageAligned := by
  induction rs generalizing pos with
  | nil =>
    rw [freeLoop]
    split
    · simp only [List.mem_singleton, forall_eq]
      exact ⟨hpos, by rwa [Region.stop_gap (by omega)]⟩
    · simp
  | cons r rs ih =>
    obtain ⟨hr, hrs⟩ := List.forall_mem_cons.mp hal
    rw [freeLoop]
    split
    · split
      · refine ih hrs ?_
        split
        · exact hr.stop
        · exact hpos
      · intro f hf
        rcases List.mem_append.mp hf with hf | hf
        · split at hf
          · obtain rfl := List.mem_singleton.mp hf
            exact ⟨hpos, by rw [Region.stop_gap (by omega)]; exact hr.base⟩
          · simp at hf
        · exact ih hrs hr.stop f hf
    · simp

end FreeLoop

/-- **The free regions** are the addresses of RAM that no reserved region covers. -/
theorem mem_forEachFree (h : Inv mb) (x : ℕ) : (∃ f ∈ mb.forEachFree, x ∈ f) ↔
      mb.ram.memBase ≤ x ∧ x < mb.ram.memEnd ∧ ∀ r ∈ mb.reserved, x ∉ r :=
  mem_freeLoop h.sorted (fun r hr => (h.within r hr).stop) _ _

theorem memBase_le_of_mem_forEachFree {f : Region} (hf : f ∈ mb.forEachFree) :
    mb.ram.memBase ≤ f.base :=
  (freeLoop_apart _ _).1 f hf

theorem forEachFree_apart (mb : Memblock) : mb.forEachFree.Pairwise fun f g => f.stop ≤ g.base :=
  (freeLoop_apart _ _).2

theorem forEachFree_aligned (h : Inv mb) : ∀ f ∈ mb.forEachFree, f.PageAligned :=
  freeLoop_aligned h.aligned (Nat.dvd_add mb.ram.base_aligned mb.ram.size_aligned)
    mb.ram.base_aligned

/-! ## A run of requests -/

section Runs

variable {ls : List (Request × ℕ)}

theorem Step.ram_eq {l : Request × ℕ} (h : Step mb l mb') : mb'.ram = mb.ram :=
  ram_reserve h.serves.reserve

section

variable (hr : Run Step mb ls mb')
include hr

theorem run_ram_eq : mb'.ram = mb.ram :=
  hr.invariant (P := fun m => m.ram = mb.ram) (fun h hs => hs.ram_eq.trans h) rfl

theorem run_inv (hi : Inv mb) : Inv mb' :=
  hr.invariant Step.inv hi

theorem mem_reserved_run {r : Region} :
    r ∈ mb'.reserved ↔ r ∈ mb.reserved ∨ ∃ l ∈ ls, r = pageSpan l.2 l.1.size := by
  induction hr with
  | nil => simp
  | snoc _ hs ih =>
    rw [mem_reserve hs.serves.reserve, ih]
    simp only [List.mem_append, List.mem_singleton, or_and_right, exists_or, exists_eq_left]
    rw [or_comm, or_assoc]

theorem results_run : ∀ l ∈ ls, mb.ram.memBase ≤ l.2 ∧ l.2 + l.1.size ≤ mb.ram.memEnd ∧
      ∀ r ∈ mb.reserved, r.stop ≤ l.2 ∨ l.2 + l.1.size ≤ r.base := by
  induction hr with
  | nil => simp
  | @snoc _ t l _ hr hs ih =>
    intro l' hl'
    rcases List.mem_append.mp hl' with hl' | hl'
    · exact ih l' hl'
    · obtain rfl := List.mem_singleton.mp hl'
      have hserves := hs.serves
      rw [← run_ram_eq hr]
      refine ⟨hserves.base_le, hserves.le_end, fun r hr' => ?_⟩
      have hfree := hserves.free
      simp only [overlapsReserved, List.any_eq_false, decide_eq_true_eq] at hfree
      have := hfree r ((mem_reserved_run hr).mpr (.inl hr'))
      omega

end

end Runs

end Memblock

section Init

variable {ram : Ram} {image : KernelImage ram} {fdt : ℕ} {mb : Memblock}

/-- The span of the firmware region `[mem_base, _stext)`. -/
def KernelImage.firmware (image : KernelImage ram) : Region :=
  Memblock.pageSpan ram.memBase (image.stext - ram.memBase)

/-- The span of the kernel image. -/
def KernelImage.span (image : KernelImage ram) : Region :=
  Memblock.pageSpan image.stext (image.kernelEnd - image.stext)

theorem memblockInit_spec (h : memblockInit image fdt = some mb) :
    mb.ram = ram ∧ mb.Inv ∧ ∀ r, r ∈ mb.reserved ↔
      r = image.span ∨ (ram.memBase < image.stext ∧ r = image.firmware) := by
  have h₁ := image.base_le
  have h₂ := image.lt
  have h₃ := image.le_end
  have hempty : (⟨ram, [], true⟩ : Memblock).Inv := ⟨.nil, by simp, by simp⟩
  rw [memblockInit] at h
  split at h
  · rename_i hlt
    obtain ⟨mb₁, hres₁, hres⟩ := Option.bind_eq_some_iff.mp h
    have hram := Memblock.ram_reserve hres₁
    dsimp only at hram
    have hinv := hempty.reserve le_rfl (by dsimp only; omega) hres₁
    refine ⟨(Memblock.ram_reserve hres).trans hram,
      hinv.reserve (by rw [hram]; omega) (by rw [hram]; omega) hres, fun r => ?_⟩
    rw [Memblock.mem_reserve hres, Memblock.mem_reserve hres₁]
    simp [hlt, KernelImage.span, KernelImage.firmware]
  · rename_i hlt
    obtain ⟨mb₁, he, hres⟩ := Option.bind_eq_some_iff.mp h
    cases he
    refine ⟨Memblock.ram_reserve hres, hempty.reserve h₁ (by dsimp only; omega) hres,
      fun r => ?_⟩
    rw [Memblock.mem_reserve hres]
    simp [hlt, KernelImage.span]

end Init

/-! ## A small machine

Sixteen pages of RAM with two pages of firmware and two pages of kernel, for evaluation. -/

/-- The RAM of the small machine. -/
def smallRam : Ram where
  memBase := 0x80000000
  memSize := 0x10000
  base_pos := by decide
  base_aligned := by decide
  size_aligned := by decide
  end_le := by decide

/-- The kernel image of the small machine. -/
def smallImage : KernelImage smallRam where
  stext := 0x80002000
  kernelEnd := 0x80004000
  base_le := by decide
  lt := by decide
  le_end := by decide

/-- The boot-time allocator of the small machine after `memblock_init` and the given further
reservations. -/
def smallBoot (rs : List Region) : Memblock :=
  ⟨smallRam, ⟨0x80000000, 0x2000⟩ :: ⟨0x80002000, 0x2000⟩ :: rs, true⟩

theorem memblockInit_small (fdt : ℕ) : memblockInit smallImage fdt = some (smallBoot []) := rfl

theorem alloc_small : (smallBoot []).alloc 0x1000 0x1000 =
    some (0x80004000, smallBoot [⟨0x80004000, 0x1000⟩]) := by decide +kernel

theorem step_small : Memblock.Step (smallBoot []) (⟨false, 0x1000, 0x1000⟩, 0x80004000)
    (smallBoot [⟨0x80004000, 0x1000⟩]) := by
  refine ⟨⟨by decide, by decide, 12, by decide, by decide⟩, ?_⟩
  rw [Memblock.serve, if_neg (by decide)]
  exact alloc_small

end Lume
