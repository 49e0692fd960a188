import Lume.Config

/-!
# The layout of the kernel's address space

`kaslr_layout_compute` of `arch/riscv/config.cc`. The direct map and the array of `Page` records
slide upwards by one random number of gigabytes; the kernel image stays where it was linked. The
function checks the ranges it knows of against each other, and panics if two of them overlap.
Devices are not among them.

## Main definitions

* `BootEnv`: what the function reads
* `KaslrLayout`, `kaslrLayoutCompute`: the result and the function

## Main results

* `kaslrLayoutCompute_bases`: both bases are slid by the slot, which is at most 63
-/

namespace Lume

/-- `kDirectMapBaseDefault` -/
def kDirectMapBaseDefault : ℕ := 0xFFFFFFC000000000

/-- `kVmemmapBaseDefault` -/
def kVmemmapBaseDefault : ℕ := 0xFFFFFFD000000000

/-- `kPhysBase` -/
def kPhysBase : ℕ := 0x80000000

/-- `k1GB` -/
def k1GB : ℕ := 2 ^ 30

/-- `kMaxSlots` -/
def kMaxSlots : ℕ := 64

/-- `sizeof(Page)` -/
def kSizeofPage : ℕ := 32

/-- The arguments of `kernel_panic`. -/
structure KernelPanic where
  msg : String
  detail : String
deriving DecidableEq, Repr

/-- `RandomSeedSource` -/
inductive RandomSeedSource
  | unknown
  | fdtProvided
  | hwRandom
  | cycleFallback
deriving DecidableEq, Repr

/-- `KaslrSeedSource` -/
inductive KaslrSeedSource
  | fdt
  | hardware
  | cycle
deriving DecidableEq, Repr

/-- `KaslrLayout` -/
structure KaslrLayout where
  seed : ℕ
  seedHash : ℕ
  source : KaslrSeedSource
  slot : ℕ
  slideBytes : ℕ
  policyId : ℕ
  directMapBase : ℕ
  vmemmapBase : ℕ
  canonicalOk : Bool
  overlapOk : Bool
deriving DecidableEq, Repr

/-- The boundaries of the kernel image, as the linker exports them: virtual addresses. -/
structure KernelSymbols where
  stext : ℕ
  etext : ℕ
  srodata : ℕ
  erodata : ℕ
  sdata : ℕ
  ebss : ℕ
  kernelEnd : ℕ
deriving DecidableEq, Repr

/-- What decides the layout: the configuration, the seed, a random number, the RAM, and the image. -/
structure BootEnv where
  /-- `CONFIG_KASLR` -/
  kaslr : Bool
  /-- `CONFIG_KASLR_POLICY_ID` -/
  policyId : ℕ
  seed : ℕ
  seedSource : RandomSeedSource
  /-- `get_random_u64` -/
  raw : ℕ
  memBase : ℕ
  memSize : ℕ
  symbols : KernelSymbols
deriving DecidableEq, Repr

/-- `VaRange` -/
structure VaRange where
  name : String
  start : ℕ
  stop : ℕ

/-- `checked_add_u64` -/
def checkedAddU64 (a b : ℕ) (detail : String) : Except KernelPanic ℕ :=
  if 2 ^ 64 - 1 - b < a then .error ⟨"kaslr: address overflow", detail⟩ else .ok (a + b)

/-- `splitmix64` -/
def splitmix64 (x : ℕ) : ℕ :=
  let x := (x + 0x9e3779b97f4a7c15) % 2 ^ 64
  let x := (x ^^^ (x >>> 30)) * 0xbf58476d1ce4e5b9 % 2 ^ 64
  let x := x ^^^ (x >>> 27)
  x * 0x94d049bb133111eb % 2 ^ 64

/-- `is_sv39_canonical` -/
def isSv39Canonical (va : ℕ) : Bool :=
  if (va >>> 38) % 2 = 1 then va >>> 39 = 2 ^ 25 - 1 else va >>> 39 = 0

/-- `is_sv39_kernel_half` -/
def isSv39KernelHalf (va : ℕ) : Bool := isSv39Canonical va && (va >>> 38) % 2 = 1

/-- `ranges_overlap` of two `VaRange`s -/
def vaRangesOverlap (a b : VaRange) : Bool := a.start < b.stop && b.start < a.stop

/-- The source of the seed, as it is logged. -/
def kaslrSeedSource : RandomSeedSource → KaslrSeedSource
  | .fdtProvided => .fdt
  | .hwRandom => .hardware
  | .cycleFallback | .unknown => .cycle

/-- The slot for a random number. Slot 0 would put the direct map on the kernel image. -/
def kaslrSlot (raw : ℕ) : ℕ := if raw % kMaxSlots = 0 then 1 else raw % kMaxSlots

/-- The layout that is checked. -/
def kaslrLayout (e : BootEnv) : KaslrLayout :=
  let slot := kaslrSlot e.raw
  let slide := slot * k1GB
  { seed := e.seed
    seedHash := splitmix64 (e.seed ^^^ 0xdeadbeefdeadbeef)
    source := kaslrSeedSource e.seedSource
    slot := slot
    slideBytes := slide
    policyId := e.policyId
    directMapBase := (kDirectMapBaseDefault + slide) % 2 ^ 64
    vmemmapBase := (kVmemmapBaseDefault + slide) % 2 ^ 64
    canonicalOk := false
    overlapOk := false }

/-- The layout without randomisation. -/
def defaultLayout (e : BootEnv) : KaslrLayout where
  seed := 0
  seedHash := 0
  source := .cycle
  slot := 0
  slideBytes := 0
  policyId := e.policyId
  directMapBase := kDirectMapBaseDefault
  vmemmapBase := kVmemmapBaseDefault
  canonicalOk := true
  overlapOk := true

/-- The size of the array of `Page` records, in whole pages. -/
def pageMapSpan (memSize : ℕ) : ℕ := pageAlignUp (memSize / kPageSize * kSizeofPage % 2 ^ 64)

/-- `check_kernel_half` -/
def checkKernelHalf (r : VaRange) : Except KernelPanic Unit :=
  if r.stop ≤ r.start then .error ⟨"kaslr: invalid VA range", r.name⟩
  else if !isSv39KernelHalf r.start || !isSv39KernelHalf (r.stop - 1) then
    .error ⟨"kaslr: non-canonical kernel VA range", r.name⟩
  else .ok ()

/-- Panic with a message if two ranges overlap. -/
def checkApart (a b : VaRange) (msg : String) : Except KernelPanic Unit :=
  if vaRangesOverlap a b then .error ⟨msg, ""⟩ else .ok ()

/-- The checks of a layout. -/
def kaslrSelfCheck (e : BootEnv) (l : KaslrLayout) : Except KernelPanic Unit := do
  if e.memSize = 0 then throw ⟨"kaslr_layout_compute: invalid memory from FDT", ""⟩
  let start ← checkedAddU64 l.directMapBase e.memBase "direct_map start"
  let stop ← checkedAddU64 start e.memSize "direct_map end"
  let vmemmapEnd ← checkedAddU64 l.vmemmapBase (pageMapSpan e.memSize) "vmemmap end"
  let directMap : VaRange := ⟨"direct-map", start, stop⟩
  let vmemmap : VaRange := ⟨"vmemmap", l.vmemmapBase, vmemmapEnd⟩
  let kernelImg : VaRange :=
    ⟨"kernel-image", pageAlignDown e.symbols.stext, pageAlignUp e.symbols.kernelEnd⟩
  checkKernelHalf directMap
  checkKernelHalf vmemmap
  checkKernelHalf kernelImg
  checkApart directMap kernelImg "kaslr: direct-map overlaps kernel image"
  checkApart vmemmap kernelImg "kaslr: vmemmap overlaps kernel image"
  checkApart directMap vmemmap "kaslr: direct-map overlaps vmemmap"

/-- `kaslr_layout_compute` -/
def kaslrLayoutCompute (e : BootEnv) : Except KernelPanic KaslrLayout :=
  if e.kaslr then
    (kaslrSelfCheck e (kaslrLayout e)).map fun _ =>
      { kaslrLayout e with canonicalOk := true, overlapOk := true }
  else .ok (defaultLayout e)

theorem kaslrSlot_mem (raw : ℕ) : 1 ≤ kaslrSlot raw ∧ kaslrSlot raw ≤ 63 := by
  have hlt : raw % kMaxSlots < kMaxSlots := Nat.mod_lt _ (by decide)
  simp only [kMaxSlots] at hlt
  rw [kaslrSlot]
  split
  · exact ⟨le_rfl, by decide⟩
  · simp only [kMaxSlots] at *
    omega

/-- **Both bases are slid by the slot**, and nothing overflows. -/
theorem kaslrLayoutCompute_bases {e : BootEnv} {l : KaslrLayout}
    (h : kaslrLayoutCompute e = .ok l) : l.slot ≤ 63 ∧ l.slideBytes = l.slot * k1GB ∧
      l.directMapBase = kDirectMapBaseDefault + l.slideBytes ∧
      l.vmemmapBase = kVmemmapBaseDefault + l.slideBytes := by
  rw [kaslrLayoutCompute] at h
  split at h
  · have hslot := kaslrSlot_mem e.raw
    have hbase (base : ℕ) (hbase : base ≤ kVmemmapBaseDefault) :
        (base + kaslrSlot e.raw * k1GB) % 2 ^ 64 = base + kaslrSlot e.raw * k1GB := by
      refine Nat.mod_eq_of_lt ?_
      simp only [kVmemmapBaseDefault, k1GB] at *
      omega
    cases hcheck : kaslrSelfCheck e (kaslrLayout e) with
    | error p =>
      rw [hcheck] at h
      cases h
    | ok u =>
      rw [hcheck] at h
      cases h
      exact ⟨hslot.2, rfl, hbase _ (by decide), hbase _ le_rfl⟩
  · cases h
    exact ⟨Nat.zero_le _, (Nat.zero_mul _).symm, (Nat.add_zero _).symm, (Nat.add_zero _).symm⟩

end Lume
