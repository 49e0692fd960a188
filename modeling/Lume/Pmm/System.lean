import Lume.Pmm.Init
import Lume.Foundation.Transition

/-!
# The allocator and its clients

The allocator as a system: the calls of the public interface, issued by any CPU in any order, on
a state that remembers which blocks the clients hold. The only discipline asked of the clients is
to release blocks they hold, with the order they were given.

## Main definitions

* `Pmm.Client`: the allocator with the blocks its clients hold
* `Pmm.Client.Permitted`, `Pmm.Client.exec`, `Pmm.Client.Step`: one call
* `Pmm.Place`, `Pmm.Conserved`: where a page can be, and that it is in one place only

## Main results

* `Pmm.Client.inv_of_run`: the invariant of the allocator holds along every run
* `Pmm.conserved_of_run`: no page is allocated twice and none is lost
-/

namespace Lume

namespace Pmm

/-- The allocator, with the blocks its clients hold. -/
structure Client where
  pmm : Pmm
  held : List Block

/-- A call of the public interface. -/
inductive Call
  | allocPage (cpu : ℕ)
  | freePage (cpu p : ℕ)
  | allocPages (order : ℕ)
  | freePages (p order : ℕ)
  | incref (p : ℕ)
  | decref (cpu p : ℕ)
deriving DecidableEq

namespace Client

/-- A block is released by a client that holds it, with its order. A `page_decref` releases the
block when it drops the last reference. -/
def Permitted (x : Client) : Call → Prop
  | .allocPage cpu => cpu < kMaxCpus
  | .freePage cpu p => cpu < kMaxCpus ∧ ⟨p, 0⟩ ∈ x.held
  | .allocPages _ => True
  | .freePages p order => ⟨p, order⟩ ∈ x.held
  | .incref p => p < x.pmm.numPages
  | .decref cpu p => cpu < kMaxCpus ∧ p < x.pmm.numPages ∧
      ((x.pmm.pageMap p).refcount = 1 → ∃ order, ⟨p, order⟩ ∈ x.held)

/-- The effect of a call on the allocator and on what the clients hold. -/
def exec (x : Client) : Call → Client
  | .allocPage cpu =>
    ⟨(x.pmm.allocPage cpu).2, (x.pmm.allocPage cpu).1.toList.map (⟨·, 0⟩) ++ x.held⟩
  | .freePage cpu p => ⟨x.pmm.freePage cpu p, x.held.erase ⟨p, 0⟩⟩
  | .allocPages order =>
    ⟨(x.pmm.allocPages order).2, (x.pmm.allocPages order).1.toList.map (⟨·, order⟩) ++ x.held⟩
  | .freePages p order => ⟨x.pmm.freePages p order, x.held.erase ⟨p, order⟩⟩
  | .incref p => ⟨x.pmm.incref p, x.held⟩
  | .decref cpu p =>
    ⟨x.pmm.decref cpu p, if (x.pmm.pageMap p).refcount = 1 then
      x.held.erase ⟨p, (x.pmm.pageMap p).order⟩ else x.held⟩

/-- One permitted call. -/
def Step (x : Client) (call : Call) (y : Client) : Prop := x.Permitted call ∧ y = x.exec call

theorem Permitted.step {x : Client} {call : Call} (h : x.Permitted call) :
    Step x call (x.exec call) :=
  ⟨h, rfl⟩

end Client

/-! ## One call keeps the invariant -/

section Step

variable {x y : Client} {R : Finset ℕ} {call : Call}

theorem Inv.Outcome.inv {s : Pmm} {held : List Block} {order : ℕ} {r : Option ℕ × Pmm}
    (h : Inv.Outcome R held order s r) : Inv r.2 R (r.1.toList.map (⟨·, order⟩) ++ held) := by
  cases h with
  | fail inv => exact inv
  | grant inv => exact inv

theorem Client.Step.inv (h : Inv x.pmm R x.held) (hs : Client.Step x call y) :
    Inv y.pmm R y.held := by
  obtain ⟨hok, rfl⟩ := hs
  cases call with
  | allocPage cpu => exact (h.allocPage hok).inv
  | freePage cpu p => exact (h.freePage hok.1 hok.2).1
  | allocPages order => exact (h.allocPages order).inv
  | freePages p order => exact (h.freePages hok).1
  | incref p => exact h.incref p
  | decref cpu p =>
    obtain ⟨hcpu, -, hheld⟩ := hok
    simp only [Client.exec]
    by_cases hlast : (x.pmm.pageMap p).refcount = 1
    · obtain ⟨order, hb⟩ := hheld hlast
      have hdec := h.decref hcpu hb
      rw [if_pos hlast] at hdec ⊢
      rw [show (x.pmm.pageMap p).order = order from (h.accounted.held_ok _ hb).2.2.2]
      exact hdec.1
    · rw [if_neg hlast, Pmm.decref, if_neg hlast]
      exact h.setRefcount p fun n => (n + 2 ^ 32 - 1) % 2 ^ 32

theorem Client.inv_of_run {calls : List Call} (hr : Run Client.Step x calls y)
    (h : Inv x.pmm R x.held) : Inv y.pmm R y.held :=
  hr.invariant (P := fun z => Inv z.pmm R z.held) Client.Step.inv h

end Step

/-! ## Conservation -/

/-- Where a page can be. -/
inductive Place
  | free (b : Block)
  | cached (cpu : ℕ)
  | live (b : Block)
  | reserved
deriving DecidableEq

/-- Page `i` is in the given place; `R` are the pages reserved by `pmm_init`. -/
def Client.At (x : Client) (R : Finset ℕ) (i : ℕ) : Place → Prop
  | .free b => b.start ∈ x.pmm.freeAreas b.order ∧ i ∈ b
  | .cached cpu => i ∈ (x.pmm.pcp cpu).freeList
  | .live b => b ∈ x.held ∧ i ∈ b
  | .reserved => i ∈ R

/-- **Conservation and no double allocation** -/
structure Conserved (x : Client) (R : Finset ℕ) : Prop where
  /-- every page is in exactly one place -/
  place : ∀ i < x.pmm.numPages, ∃! pl, x.At R i pl
  /-- no list holds a block twice -/
  nodup : (∀ o, (x.pmm.freeAreas o).Nodup) ∧ (∀ c, (x.pmm.pcp c).freeList.Nodup) ∧ x.held.Nodup
  /-- a free block is aligned, in range, recorded as free, and on the list of its order only -/
  free : ∀ o, ∀ p ∈ x.pmm.freeAreas o, o < kMaxOrder ∧ 2 ^ o ∣ p ∧ p + 2 ^ o ≤ x.pmm.numPages ∧
    (x.pmm.pageMap p).state = .free ∧ ∀ j, j ≠ o → p ∉ x.pmm.freeAreas j
  /-- a cached page is recorded as cached -/
  cached : ∀ c, ∀ p ∈ (x.pmm.pcp c).freeList, c < kMaxCpus ∧ (x.pmm.pageMap p).state = .pcpCached
  /-- a block that was handed out is aligned, in range and disjoint from the other live blocks -/
  live : ∀ b ∈ x.held, b.order < kMaxOrder ∧ 2 ^ b.order ∣ b.start ∧
    b.start + 2 ^ b.order ≤ x.pmm.numPages ∧ ∀ b' ∈ x.held, b' ≠ b → ∀ i ∈ b, i ∉ b'
  /-- the counters of the caches are exact and below the watermark -/
  count : ∀ c, (x.pmm.pcp c).count = (x.pmm.pcp c).freeList.length ∧
    (x.pmm.pcp c).count < x.pmm.pcpHighWatermark

namespace Accounted

variable {s : Pmm} {R : Finset ℕ} {held : List Block}

section

variable (h : Accounted s R held [])
include h

theorem cover_parts {i : ℕ} (hi : i < s.numPages) :
    cover s.freeBlocks i + cover s.cachedBlocks i + cover held i + (if i ∈ R then 1 else 0) = 1 := by
  have := h.cover_eq i hi
  simp only [blocks, cover_append, cover_nil, Nat.add_zero] at this
  exact this

theorem nodup_blocks : (s.blocks held []).Nodup := by
  refine List.nodup_iff_count_le_one.mpr fun b => ?_
  by_contra hlt
  have hle := count_le_cover (s.blocks held []) b
  have hmem : b ∈ s.blocks held [] := List.count_pos_iff.mp (by omega)
  have hfit : Fits s.numPages b := h.fits hmem
  have := h.cover_eq b.start hfit.start_lt
  omega

theorem nodup_freeAreas (o : ℕ) : (s.freeAreas o).Nodup := by
  by_cases ho : o < kMaxOrder
  · have hsub : s.freeBlocks.Nodup := h.nodup_blocks.sublist (by simp [blocks])
    exact ((List.nodup_flatMap.mp hsub).1 o (List.mem_range.mpr ho)).of_map
  · -- an order the buddy system does not have has no blocks
    rw [List.eq_nil_iff_forall_not_mem.mpr fun p hp => ho (h.free o p hp).1.order_lt]
    exact List.nodup_nil

theorem nodup_cachedBlocks : s.cachedBlocks.Nodup :=
  h.nodup_blocks.sublist (by simp [blocks])

theorem nodup_freeList (c : ℕ) : (s.pcp c).freeList.Nodup := by
  by_cases hc : c < kMaxCpus
  · exact ((List.nodup_flatMap.mp h.nodup_cachedBlocks).1 c (List.mem_range.mpr hc)).of_map
  · rw [List.eq_nil_iff_forall_not_mem.mpr fun p hp => hc (h.cached c p hp).1]
    exact List.nodup_nil

theorem cpu_unique {i c c' : ℕ} (hc : i ∈ (s.pcp c).freeList)
    (hc' : i ∈ (s.pcp c').freeList) : c = c' := by
  by_contra hne
  have : Std.Symm (Function.onFun List.Disjoint fun c =>
      (s.pcp c).freeList.map fun p => (⟨p, 0⟩ : Block)) := ⟨fun _ _ hd => hd.symm⟩
  have hdisj := (List.nodup_flatMap.mp h.nodup_cachedBlocks).2.forall (List.mem_range.mpr (h.cached c i hc).1)
    (List.mem_range.mpr (h.cached c' i hc').1) hne
  exact hdisj (List.mem_map.mpr ⟨i, hc, rfl⟩) (List.mem_map.mpr ⟨i, hc', rfl⟩)

end

end Accounted

section Place

variable {x : Client} {R : Finset ℕ} {i : ℕ} {pl pl' : Place}

/-- How often each part of the accounting counts a page in this place. -/
def Place.counts : Place → ℕ × ℕ × ℕ × ℕ
  | .free _ => (1, 0, 0, 0)
  | .cached _ => (0, 1, 0, 0)
  | .live _ => (0, 0, 1, 0)
  | .reserved => (0, 0, 0, 1)

section

variable (h : Accounted x.pmm R x.held []) (hi : i < x.pmm.numPages)
include h hi

theorem Client.At.counts (hat : x.At R i pl) :
    (cover x.pmm.freeBlocks i, cover x.pmm.cachedBlocks i, cover x.held i,
      if i ∈ R then 1 else 0) = pl.counts := by
  have hsum := h.cover_parts hi
  cases pl with
  | free b =>
    have hpos : 0 < cover x.pmm.freeBlocks i := cover_pos_iff.mpr
      ⟨b, mem_freeBlocks.mpr ⟨(h.free _ _ hat.1).1.order_lt, hat.1⟩, hat.2⟩
    simp only [Place.counts, Prod.mk.injEq]
    omega
  | cached c =>
    have hpos : 0 < cover x.pmm.cachedBlocks i := cover_pos_iff.mpr
      ⟨⟨i, 0⟩, mem_cachedBlocks.mpr ⟨c, (h.cached c i hat).1, hat, rfl⟩, Block.start_mem _⟩
    simp only [Place.counts, Prod.mk.injEq]
    omega
  | live b =>
    have hpos : 0 < cover x.held i := cover_pos_iff.mpr ⟨b, hat.1, hat.2⟩
    simp only [Place.counts, Prod.mk.injEq]
    omega
  | reserved =>
    have hR : i ∈ R := hat
    rw [if_pos hR] at hsum ⊢
    simp only [Place.counts, Prod.mk.injEq, and_true]
    omega

theorem Client.At.unique (hat : x.At R i pl) (hat' : x.At R i pl') : pl = pl' := by
  have hsum := h.cover_parts hi
  have hcounts := (hat.counts h hi).symm.trans (hat'.counts h hi)
  -- the counts tell the kinds of place apart; within one kind a page is counted once
  cases pl <;> cases pl' <;> simp [Place.counts] at hcounts ⊢
  · refine @eq_of_cover_le_one x.pmm.freeBlocks i (by omega) _ _ ?_ ?_ hat.2 hat'.2
    · exact mem_freeBlocks.mpr ⟨(h.free _ _ hat.1).1.order_lt, hat.1⟩
    · exact mem_freeBlocks.mpr ⟨(h.free _ _ hat'.1).1.order_lt, hat'.1⟩
  · exact h.cpu_unique hat hat'
  · exact eq_of_cover_le_one (by omega) hat.1 hat'.1 hat.2 hat'.2

theorem Client.exists_at : ∃ pl, x.At R i pl := by
  rcases h.exists_place hi with hR | ⟨b, hb, hib⟩
  · exact ⟨.reserved, hR⟩
  simp only [blocks, List.mem_append, List.not_mem_nil, or_false] at hb
  rcases hb with (hf | hc) | hl
  · exact ⟨.free b, (mem_freeBlocks.mp hf).2, hib⟩
  · obtain ⟨c, -, hp, ho⟩ := mem_cachedBlocks.mp hc
    rw [show b = ⟨b.start, 0⟩ by rw [← ho], Block.mem_order_zero] at hib
    exact ⟨.cached c, hib ▸ hp⟩
  · exact ⟨.live b, hl, hib⟩

end

theorem Inv.conserved (h : Inv x.pmm R x.held) : Conserved x R where
  place i hi := by
    obtain ⟨pl, hat⟩ := Client.exists_at h.accounted hi
    exact ⟨pl, hat, fun _ hat' => hat'.unique h.accounted hi hat⟩
  nodup := ⟨h.accounted.nodup_freeAreas, h.accounted.nodup_freeList,
    h.accounted.nodup_blocks.sublist (by simp [blocks])⟩
  free o p hp := by
    obtain ⟨hfit, hst, -⟩ := h.accounted.free o p hp
    exact ⟨hfit.order_lt, hfit.aligned, hfit.le, hst, fun j hj =>
      h.accounted.not_mem_freeAreas hp hj⟩
  cached c p hp := ⟨(h.accounted.cached c p hp).1, (h.accounted.cached c p hp).2.2⟩
  live b hb := by
    have hfit := (h.accounted.held_ok b hb).1
    refine ⟨hfit.order_lt, hfit.aligned, hfit.le, fun b' hb' hne i hi hi' => hne ?_⟩
    have hat : x.At R i (.live b') := ⟨hb', hi'⟩
    have hat' : x.At R i (.live b) := ⟨hb, hi⟩
    exact Place.live.inj (hat.unique h.accounted (hfit.lt_of_mem hi) hat')
  count c := ⟨h.accounted.count_eq c, h.count_lt c⟩

end Place

/-- **No double allocation, and conservation**: from the state `pmm_init` builds on whatever the
boot code left, along every run of calls by clients that release what they hold, every page is
in exactly one place. -/
theorem conserved_of_run {ram : Ram} {image : KernelImage ram} {fdt : ℕ} {mb₀ mb : Memblock}
    {requests : List (Memblock.Request × ℕ)} {calls : List Call} {x : Client}
    (hinit : memblockInit image fdt = some mb₀) (hboot : Run Memblock.Step mb₀ requests mb)
    (hrun : Run Client.Step ⟨pmmInit mb, []⟩ calls x) : Conserved x mb.reservedPages := by
  have hmb := Memblock.run_inv hboot (memblockInit_spec hinit).2.1
  exact (Client.inv_of_run hrun (pmmInit_inv hmb).1).conserved

/-- On the small machine, after one page went to a page table at boot: two CPUs allocate. -/
theorem conserved_small : Conserved
    (((⟨pmmInit (smallBoot [⟨0x80004000, 0x1000⟩]), []⟩ : Client).exec (.allocPage 0)).exec
      (.allocPages 1)) (smallBoot [⟨0x80004000, 0x1000⟩]).reservedPages := by
  have hpage : Client.Permitted ⟨pmmInit (smallBoot [⟨0x80004000, 0x1000⟩]), []⟩ (.allocPage 0) :=
    show 0 < kMaxCpus by decide
  have hpages (x : Client) : x.Permitted (.allocPages 1) := trivial
  exact conserved_of_run (memblockInit_small 0x80008000) (.snoc (.nil _) step_small)
    (.snoc (.snoc (.nil _) hpage.step) (hpages _).step)

end Pmm

end Lume
