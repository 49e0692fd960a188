import Lume.Pmm.Model
import Lume.Foundation.Cover
import Mathlib.Order.Interval.Finset.Nat

/-!
# Accounting for every page

Every page lies in exactly one place: a free buddy block, a per-CPU cache, a block held by a
client, a block in the hands of the allocator itself, or the reserved set. `Accounted` states
this by counting, together with what the descriptor at the head of each block records. Only the
head of a block is recorded, so the interior pages keep stale values; `buddy_mem_freeAreas` is
the reason why `buddy_free` never consults one.

## Main definitions

* `Pmm.freeBlocks`, `Pmm.cachedBlocks`: the blocks on the buddy lists and in the caches
* `Pmm.Accounted s R held loose`: the accounting invariant
* `Pmm.Steady held s s'`: the descriptors of held blocks are unchanged

## Main results

* `Pmm.Accounted.buddyListAdd`, `buddyListDel`, `pcpPush`, `pcpPop`: blocks move between lists
* `Pmm.Accounted.buddy_mem_freeAreas`: a buddy that looks free at this order is on the list
* `Pmm.Accounted.split`, `merge`, `hold`, `drop`, `unreserve`: blocks in the allocator's hands
-/

namespace Lume

namespace Pmm

/-- The blocks on the buddy lists. -/
def freeBlocks (s : Pmm) : List Block :=
  (List.range kMaxOrder).flatMap fun o => (s.freeAreas o).map (⟨·, o⟩)

/-- The pages in the per-CPU caches, as blocks. -/
def cachedBlocks (s : Pmm) : List Block :=
  (List.range kMaxCpus).flatMap fun c => (s.pcp c).freeList.map (⟨·, 0⟩)

/-- All blocks that are accounted for one by one. -/
def blocks (s : Pmm) (held loose : List Block) : List Block :=
  s.freeBlocks ++ s.cachedBlocks ++ held ++ loose

/-- A naturally aligned block of an order the buddy system has, inside the first `n` pages. -/
structure Fits (n : ℕ) (b : Block) : Prop where
  order_lt : b.order < kMaxOrder
  aligned : b.Aligned
  le : b.start + 2 ^ b.order ≤ n

/-- **Accounting**: `held` are the blocks clients hold, `loose` the blocks the allocator has
taken off a list and not yet put anywhere, and `R` the reserved pages. -/
structure Accounted (s : Pmm) (R : Finset ℕ) (held loose : List Block) : Prop where
  cover_eq : ∀ i < s.numPages,
    cover (s.blocks held loose) i + (if i ∈ R then 1 else 0) = 1
  free : ∀ o, ∀ p ∈ s.freeAreas o,
    Fits s.numPages ⟨p, o⟩ ∧ (s.pageMap p).state = .free ∧ (s.pageMap p).order = o
  cached : ∀ c, ∀ p ∈ (s.pcp c).freeList,
    c < kMaxCpus ∧ p < s.numPages ∧ (s.pageMap p).state = .pcpCached
  count_eq : ∀ c, (s.pcp c).count = (s.pcp c).freeList.length
  held_ok : ∀ b ∈ held, Fits s.numPages b ∧ (s.pageMap b.start).state ≠ .free ∧
    (s.pageMap b.start).state ≠ .pcpCached ∧ (s.pageMap b.start).order = b.order
  loose_ok : ∀ b ∈ loose, Fits s.numPages b
  reserved : ∀ i ∈ R, i < s.numPages ∧ (s.pageMap i).state = .allocated

/-- The managed range and the descriptors of held blocks are as they were. -/
structure Steady (held : List Block) (s s' : Pmm) : Prop where
  ram_eq : s'.ram = s.ram
  batch_eq : s'.pcpBatchSize = s.pcpBatchSize
  high_eq : s'.pcpHighWatermark = s.pcpHighWatermark
  page_eq : ∀ b ∈ held, s'.pageMap b.start = s.pageMap b.start

namespace Steady

variable {held : List Block} {s s' s'' : Pmm}

theorem refl (held : List Block) (s : Pmm) : Steady held s s := ⟨rfl, rfl, rfl, fun _ _ => rfl⟩

theorem trans (h : Steady held s s') (h' : Steady held s' s'') : Steady held s s'' :=
  ⟨h'.ram_eq.trans h.ram_eq, h'.batch_eq.trans h.batch_eq, h'.high_eq.trans h.high_eq,
    fun b hb => (h'.page_eq b hb).trans (h.page_eq b hb)⟩

theorem mono {held' : List Block} (h : Steady held s s') (hsub : ∀ b ∈ held', b ∈ held) :
    Steady held' s s' :=
  ⟨h.ram_eq, h.batch_eq, h.high_eq, fun b hb => h.page_eq b (hsub b hb)⟩

end Steady

/-! ## Reading the lists -/

section Lists

variable {s : Pmm}

theorem mem_freeBlocks {b : Block} :
    b ∈ s.freeBlocks ↔ b.order < kMaxOrder ∧ b.start ∈ s.freeAreas b.order := by
  simp only [freeBlocks, List.mem_flatMap, List.mem_range, List.mem_map]
  constructor
  · rintro ⟨o, ho, p, hp, rfl⟩
    exact ⟨ho, hp⟩
  · rintro ⟨ho, hp⟩
    exact ⟨b.order, ho, b.start, hp, rfl⟩

theorem mem_cachedBlocks {b : Block} :
    b ∈ s.cachedBlocks ↔ ∃ c < kMaxCpus, b.start ∈ (s.pcp c).freeList ∧ b.order = 0 := by
  simp only [cachedBlocks, List.mem_flatMap, List.mem_range, List.mem_map]
  constructor
  · rintro ⟨c, hc, p, hp, rfl⟩
    exact ⟨c, hc, hp, rfl⟩
  · rintro ⟨c, hc, hp, ho⟩
    exact ⟨c, hc, b.start, hp, by rw [← ho]⟩

theorem freeBlocks_buddyListAdd {p o : ℕ} (ho : o < kMaxOrder) :
    (s.buddyListAdd p o).freeBlocks.Perm (⟨p, o⟩ :: s.freeBlocks) := by
  refine flatMap_range_perm [(⟨p, o⟩ : Block)] ho ?_ fun j hj => ?_
  · simp [buddyListAdd]
  · simp [buddyListAdd, Function.update_of_ne hj]

theorem freeBlocks_buddyListDel {p o : ℕ} (ho : o < kMaxOrder) (hp : p ∈ s.freeAreas o)
    (hne : ∀ j, j ≠ o → p ∉ s.freeAreas j) :
    s.freeBlocks.Perm (⟨p, o⟩ :: (s.buddyListDel p).freeBlocks) := by
  refine flatMap_range_perm [(⟨p, o⟩ : Block)] ho ?_ fun j hj => ?_
  · simpa [buddyListDel] using (List.perm_cons_erase hp).map fun q => (⟨q, o⟩ : Block)
  · simp [buddyListDel, List.erase_of_not_mem (hne j hj)]

theorem cachedBlocks_pcpPush {c p : ℕ} (hc : c < kMaxCpus) :
    (s.pcpPush c p).cachedBlocks.Perm (⟨p, 0⟩ :: s.cachedBlocks) := by
  refine flatMap_range_perm [(⟨p, 0⟩ : Block)] hc ?_ fun j hj => ?_
  · simp [pcpPush]
  · simp [pcpPush, Function.update_of_ne hj]

theorem cachedBlocks_pcpPop {c p : ℕ} {l : List ℕ} (hc : c < kMaxCpus)
    (hl : (s.pcp c).freeList = p :: l) :
    s.cachedBlocks.Perm (⟨p, 0⟩ :: (s.pcpPop c).cachedBlocks) := by
  refine flatMap_range_perm [(⟨p, 0⟩ : Block)] hc ?_ fun j hj => ?_
  · simp [pcpPop, hl]
  · simp [pcpPop, Function.update_of_ne hj]

@[simp] theorem freeBlocks_pcpPush (c p : ℕ) : (s.pcpPush c p).freeBlocks = s.freeBlocks := rfl
@[simp] theorem freeBlocks_pcpPop (c : ℕ) : (s.pcpPop c).freeBlocks = s.freeBlocks := rfl

@[simp] theorem cachedBlocks_buddyListAdd (p o : ℕ) :
    (s.buddyListAdd p o).cachedBlocks = s.cachedBlocks := rfl

@[simp] theorem cachedBlocks_buddyListDel (p : ℕ) :
    (s.buddyListDel p).cachedBlocks = s.cachedBlocks := rfl

end Lists

namespace Fits

variable {n : ℕ} {b : Block}

theorem lt_of_mem (h : Fits n b) {i : ℕ} (hi : i ∈ b) : i < n := lt_of_lt_of_le hi.2 h.le

theorem start_lt (h : Fits n b) : b.start < n := h.lt_of_mem b.start_mem

theorem page {p : ℕ} (hp : p < n) : Fits n ⟨p, 0⟩ :=
  ⟨Nat.zero_lt_succ _, Block.aligned_order_zero p, hp⟩

theorem lower (h : Fits n b) : Fits n b.lower where
  order_lt := lt_of_le_of_lt (Nat.sub_le _ _) h.order_lt
  aligned := h.aligned.lower
  le := le_trans (Nat.add_le_add_left (Nat.pow_le_pow_right (by decide) (Nat.sub_le _ _)) _) h.le

theorem upper (h : Fits n b) (ho : 0 < b.order) : Fits n b.upper where
  order_lt := lt_of_le_of_lt (Nat.sub_le _ _) h.order_lt
  aligned := h.aligned.upper
  le := by
    have hle := h.le
    obtain ⟨o, hb⟩ : ∃ o, b.order = o + 1 := ⟨b.order - 1, by omega⟩
    simp only [Block.upper, hb, Nat.add_sub_cancel, pow_succ] at hle ⊢
    omega

theorem parent (h : Fits n b) (hb : Fits n b.buddy) (ho : b.order + 1 < kMaxOrder) :
    Fits n b.parent where
  order_lt := ho
  aligned := h.aligned.parent
  le := by
    have h₁ := h.le
    have h₂ := hb.le
    rcases h.aligned.buddy_cases with ⟨k, -, hs⟩ | ⟨k, -, hs⟩ <;>
      simp only [Block.parent, Block.buddy_order, pow_succ] at h₂ ⊢ <;> omega

end Fits

/-! ## Blocks in the allocator's hands -/

namespace Accounted

variable {s : Pmm} {R : Finset ℕ} {held loose : List Block} {b : Block}

theorem mem_blocks_free {p o : ℕ} (hp : p ∈ s.freeAreas o) (ho : o < kMaxOrder) :
    ⟨p, o⟩ ∈ s.blocks held loose := by
  have : (⟨p, o⟩ : Block) ∈ s.freeBlocks := mem_freeBlocks.mpr ⟨ho, hp⟩
  simp [blocks, this]

theorem mem_blocks_cached {p c : ℕ} (hp : p ∈ (s.pcp c).freeList) (hc : c < kMaxCpus) :
    ⟨p, 0⟩ ∈ s.blocks held loose := by
  have : (⟨p, 0⟩ : Block) ∈ s.cachedBlocks := mem_cachedBlocks.mpr ⟨c, hc, hp, rfl⟩
  simp [blocks, this]

theorem mem_blocks_held {a : Block} (ha : a ∈ held) : a ∈ s.blocks held loose := by
  simp [blocks, ha]

section

variable (h : Accounted s R held (b :: loose))
include h

theorem not_mem_of_loose {i : ℕ} (hi : i ∈ b) : (∀ a ∈ s.blocks held loose, i ∉ a) ∧ i ∉ R := by
  have hfit := h.loose_ok b (List.mem_cons_self ..)
  have hc := h.cover_eq i (hfit.lt_of_mem hi)
  simp only [blocks, cover_append, cover_cons, if_pos hi] at hc
  constructor
  · intro a ha hia
    have hpos : 0 < cover (s.blocks held loose) i := cover_pos_iff.mpr ⟨a, ha, hia⟩
    simp only [blocks, cover_append] at hpos
    omega
  · intro hR
    rw [if_pos hR] at hc
    omega

theorem start_ne_of_loose {a : Block}
    (ha : a ∈ s.blocks held loose) : a.start ≠ b.start := fun he =>
  (h.not_mem_of_loose b.start_mem).1 a ha (he ▸ a.start_mem)

theorem setPage (f : Page → Page) : Accounted (s.setPage b.start f) R held (b :: loose) where
  cover_eq := h.cover_eq
  free o p hp := by
    obtain ⟨hfit, hmeta⟩ := h.free o p hp
    have hne := h.start_ne_of_loose (mem_blocks_free hp hfit.order_lt)
    simpa [pageMap_setPage_of_ne hne] using ⟨hfit, hmeta⟩
  cached c p hp := by
    obtain ⟨hc, hlt, hmeta⟩ := h.cached c p hp
    have hne := h.start_ne_of_loose (mem_blocks_cached hp hc)
    simpa [pageMap_setPage_of_ne hne] using ⟨hc, hlt, hmeta⟩
  count_eq := h.count_eq
  held_ok a ha := by
    have hne := h.start_ne_of_loose (mem_blocks_held ha)
    simpa [pageMap_setPage_of_ne hne] using h.held_ok a ha
  loose_ok := h.loose_ok
  reserved i hi := by
    have hne : i ≠ b.start := fun he =>
      (h.not_mem_of_loose b.start_mem).2 (he ▸ hi)
    simpa [pageMap_setPage_of_ne hne] using h.reserved i hi

theorem steady_setPage (f : Page → Page) : Steady held s (s.setPage b.start f) where
  ram_eq := rfl
  batch_eq := rfl
  high_eq := rfl
  page_eq _ ha := pageMap_setPage_of_ne (h.start_ne_of_loose (mem_blocks_held ha))

theorem hold (hfree : (s.pageMap b.start).state ≠ .free)
    (hpcp : (s.pageMap b.start).state ≠ .pcpCached)
    (ho : (s.pageMap b.start).order = b.order) : Accounted s R (b :: held) loose where
  cover_eq i hi := by
    have := h.cover_eq i hi
    simp only [blocks, cover_append, cover_cons] at this ⊢
    omega
  free := h.free
  cached := h.cached
  count_eq := h.count_eq
  held_ok a ha := by
    rcases List.mem_cons.mp ha with rfl | ha
    · exact ⟨h.loose_ok a (List.mem_cons_self ..), hfree, hpcp, ho⟩
    · exact h.held_ok a ha
  loose_ok a ha := h.loose_ok a (List.mem_cons_of_mem _ ha)
  reserved := h.reserved

end

theorem drop (h : Accounted s R held loose) (hb : b ∈ held) :
    Accounted s R (held.erase b) (b :: loose) where
  cover_eq i hi := by
    have := h.cover_eq i hi
    have hp := cover_perm (List.perm_cons_erase hb) i
    simp only [blocks, cover_append, cover_cons] at this hp ⊢
    omega
  free := h.free
  cached := h.cached
  count_eq := h.count_eq
  held_ok a ha := h.held_ok a (List.mem_of_mem_erase ha)
  loose_ok a ha := by
    rcases List.mem_cons.mp ha with rfl | ha
    · exact (h.held_ok a hb).1
    · exact h.loose_ok a ha
  reserved := h.reserved

theorem perm (h : Accounted s R held loose) {held' loose' : List Block}
    (hh : held.Perm held') (hl : loose.Perm loose') : Accounted s R held' loose' where
  cover_eq i hi := by
    have := h.cover_eq i hi
    simp only [blocks, cover_append, cover_perm hh, cover_perm hl] at this ⊢
    exact this
  free := h.free
  cached := h.cached
  count_eq := h.count_eq
  held_ok a ha := h.held_ok a (hh.symm.subset ha)
  loose_ok a ha := h.loose_ok a (hl.symm.subset ha)
  reserved := h.reserved

theorem setPage_held (h : Accounted s R held loose) (hb : b ∈ held) {f : Page → Page}
    (hfree : (f (s.pageMap b.start)).state ≠ .free)
    (hpcp : (f (s.pageMap b.start)).state ≠ .pcpCached)
    (ho : (f (s.pageMap b.start)).order = b.order) :
    Accounted (s.setPage b.start f) R held loose := by
  have h' := ((h.drop hb).setPage f).hold (by simpa) (by simpa) (by simpa)
  exact h'.perm (List.perm_cons_erase hb).symm (.refl _)

theorem split (h : Accounted s R held (b :: loose)) (ho : 0 < b.order) :
    Accounted s R held (b.lower :: b.upper :: loose) where
  cover_eq i hi := by
    have := h.cover_eq i hi
    simp only [blocks, cover_append, cover_halves ho] at this ⊢
    exact this
  free := h.free
  cached := h.cached
  count_eq := h.count_eq
  held_ok := h.held_ok
  loose_ok a ha := by
    have hfit := h.loose_ok b (List.mem_cons_self ..)
    rcases List.mem_cons.mp ha with rfl | ha
    · exact hfit.lower
    rcases List.mem_cons.mp ha with rfl | ha
    · exact hfit.upper ho
    · exact h.loose_ok a (List.mem_cons_of_mem _ ha)
  reserved := h.reserved

theorem merge (h : Accounted s R held (b.buddy :: b :: loose)) (ho : b.order + 1 < kMaxOrder) :
    Accounted s R held (b.parent :: loose) where
  cover_eq i hi := by
    have hal := (h.loose_ok b (by simp)).aligned
    have := h.cover_eq i hi
    simp only [blocks, cover_append, cover_parent hal, cover_cons] at this ⊢
    omega
  free := h.free
  cached := h.cached
  count_eq := h.count_eq
  held_ok := h.held_ok
  loose_ok a ha := by
    rcases List.mem_cons.mp ha with rfl | ha
    · exact (h.loose_ok b (by simp)).parent (h.loose_ok b.buddy (by simp)) ho
    · exact h.loose_ok a (by simp [ha])
  reserved := h.reserved

theorem unreserve (h : Accounted s R held loose) (hfit : Fits s.numPages b)
    (hsub : Finset.Ico b.start (b.start + 2 ^ b.order) ⊆ R) :
    Accounted s (R \ Finset.Ico b.start (b.start + 2 ^ b.order)) held (b :: loose) where
  cover_eq i hi := by
    have hc := h.cover_eq i hi
    have hmem : i ∈ Finset.Ico b.start (b.start + 2 ^ b.order) ↔ i ∈ b := Finset.mem_Ico
    simp only [blocks, cover_append, cover_cons, Finset.mem_sdiff, hmem] at hc ⊢
    by_cases hb : i ∈ b
    · rw [if_pos (hsub (hmem.mpr hb))] at hc
      simp only [hb, not_true_eq_false, and_false, if_true, if_false]
      omega
    · simp only [hb, not_false_eq_true, and_true, if_false]
      omega
  free := h.free
  cached := h.cached
  count_eq := h.count_eq
  held_ok := h.held_ok
  loose_ok a ha := by
    rcases List.mem_cons.mp ha with rfl | ha
    · exact hfit
    · exact h.loose_ok a ha
  reserved i hi := h.reserved i (Finset.mem_sdiff.mp hi).1

theorem exists_place (h : Accounted s R held loose) {i : ℕ} (hi : i < s.numPages) :
    i ∈ R ∨ ∃ a ∈ s.blocks held loose, i ∈ a := by
  by_cases hR : i ∈ R
  · exact .inl hR
  · have hc := h.cover_eq i hi
    rw [if_neg hR] at hc
    exact .inr (cover_pos_iff.mp (by omega))

theorem fits (h : Accounted s R held loose) {a : Block} (ha : a ∈ s.blocks held loose) :
    Fits s.numPages a := by
  simp only [blocks, List.mem_append] at ha
  rcases ha with ((hf | hc) | hh) | hl
  · exact (h.free _ _ (mem_freeBlocks.mp hf).2).1
  · obtain ⟨c, -, hp, ho⟩ := mem_cachedBlocks.mp hc
    rw [show a = ⟨a.start, 0⟩ by rw [← ho]]
    exact Fits.page (h.cached c _ hp).2.1
  · exact (h.held_ok a hh).1
  · exact h.loose_ok a hl

/-- A buddy recorded as free at this order is the head of a free block of this order, and not an
interior page with a stale record: a larger block around it would contain the block in hand, and
the head of a smaller block records its own order. -/
theorem buddy_mem_freeAreas (h : Accounted s R held [b]) (hlt : b.buddy.start < s.numPages)
    (hst : (s.pageMap b.buddy.start).state = .free)
    (ho : (s.pageMap b.buddy.start).order = b.order) : b.buddy.start ∈ s.freeAreas b.order := by
  have hal := (h.loose_ok b (List.mem_cons_self ..)).aligned
  rcases h.exists_place hlt with hR | ⟨a, ha, hmem⟩
  · simp [(h.reserved _ hR).2] at hst
  have hrest : a ∈ s.blocks held [] := by
    simp only [blocks, List.mem_append, List.mem_singleton, List.not_mem_nil, or_false] at ha ⊢
    exact ha.resolve_right fun he => hal.not_mem_buddy (he ▸ hmem) b.buddy.start_mem
  have hfit := h.fits ha
  -- a larger block around the buddy would contain the block in hand
  have hle : a.order ≤ b.order := by
    by_contra hgt
    refine (h.not_mem_of_loose b.start_mem).1 a hrest ?_
    refine hfit.aligned.mem_of_lt hal.buddy (by simpa using hgt) hmem (.inr ?_)
    rw [Block.buddy_buddy]
    exact b.start_mem
  -- so the buddy is the head of the block it lies in, and the head's record is true
  have hstart : a.start = b.buddy.start := hfit.aligned.start_eq hmem hal.buddy hle
  simp only [blocks, List.mem_append, List.not_mem_nil, or_false] at hrest
  rcases hrest with (hf | hc) | hh
  · obtain ⟨-, hf⟩ := mem_freeBlocks.mp hf
    have hao := (h.free _ _ hf).2.2
    rw [hstart, ho] at hao
    rw [hstart, ← hao] at hf
    exact hf
  · obtain ⟨c, -, hp, -⟩ := mem_cachedBlocks.mp hc
    have := (h.cached c _ hp).2.2
    rw [hstart, hst] at this
    cases this
  · exact absurd (hstart ▸ hst) (h.held_ok a hh).2.1

/-! ## Blocks move between the lists -/

theorem buddyListAdd (h : Accounted s R held (b :: loose)) :
    Accounted (s.buddyListAdd b.start b.order) R held loose := by
  have hfit := h.loose_ok b (List.mem_cons_self ..)
  have h' := h.setPage fun d => { d with state := .free, order := b.order }
  refine ⟨fun i hi => ?_, fun o p hp => ?_, h'.cached, h'.count_eq, h'.held_ok, fun a ha => ?_,
    h'.reserved⟩
  · have hc := h.cover_eq i hi
    have hperm : cover (s.buddyListAdd b.start b.order).freeBlocks i =
        cover (b :: s.freeBlocks) i := cover_perm (freeBlocks_buddyListAdd hfit.order_lt) i
    simp only [blocks, cover_append, cover_cons, cachedBlocks_buddyListAdd] at hc hperm ⊢
    omega
  · rcases eq_or_ne o b.order with rfl | hne
    · rw [freeAreas_buddyListAdd_self] at hp
      rcases List.mem_cons.mp hp with rfl | hp
      · exact ⟨hfit, by simp [pageMap_buddyListAdd]⟩
      · exact h'.free _ p hp
    · rw [freeAreas_buddyListAdd_of_ne hne] at hp
      exact h'.free o p hp
  · exact h.loose_ok a (List.mem_cons_of_mem _ ha)

theorem steady_buddyListAdd (h : Accounted s R held (b :: loose)) :
    Steady held s (s.buddyListAdd b.start b.order) :=
  let hs := h.steady_setPage fun d => { d with state := .free, order := b.order }
  ⟨hs.ram_eq, hs.batch_eq, hs.high_eq, hs.page_eq⟩

theorem not_mem_freeAreas (h : Accounted s R held loose) {p o j : ℕ} (hp : p ∈ s.freeAreas o)
    (hj : j ≠ o) : p ∉ s.freeAreas j := fun hp' =>
  hj ((h.free j p hp').2.2.symm.trans (h.free o p hp).2.2)

theorem buddyListDel (h : Accounted s R held loose) {p o : ℕ} (hp : p ∈ s.freeAreas o) :
    Accounted (s.buddyListDel p) R held (⟨p, o⟩ :: loose) where
  cover_eq i hi := by
    have ho := (h.free o p hp).1.order_lt
    have hc := h.cover_eq i hi
    have hperm := cover_perm
      (freeBlocks_buddyListDel ho hp fun j hj => h.not_mem_freeAreas hp hj) i
    simp only [blocks, cover_append, cover_cons, cachedBlocks_buddyListDel] at hc hperm ⊢
    omega
  free j q hq := h.free j q (List.mem_of_mem_erase hq)
  cached := h.cached
  count_eq := h.count_eq
  held_ok := h.held_ok
  loose_ok a ha := by
    rcases List.mem_cons.mp ha with rfl | ha
    · exact (h.free o p hp).1
    · exact h.loose_ok a ha
  reserved := h.reserved

theorem pcpPush {p c : ℕ} (h : Accounted s R held (⟨p, 0⟩ :: loose)) (hc : c < kMaxCpus)
    (hst : (s.pageMap p).state = .pcpCached) : Accounted (s.pcpPush c p) R held loose where
  cover_eq i hi := by
    have hcov := h.cover_eq i hi
    have hperm := cover_perm (cachedBlocks_pcpPush (s := s) (p := p) hc) i
    simp only [blocks, cover_append, cover_cons, freeBlocks_pcpPush] at hcov hperm ⊢
    omega
  free := h.free
  cached j q hq := by
    rcases eq_or_ne j c with rfl | hne
    · rw [pcp_pcpPush_self] at hq
      rcases List.mem_cons.mp hq with rfl | hq
      · exact ⟨hc, (h.loose_ok _ (List.mem_cons_self ..)).start_lt, hst⟩
      · exact h.cached j q hq
    · rw [pcp_pcpPush_of_ne hne] at hq
      exact h.cached j q hq
  count_eq j := by
    rcases eq_or_ne j c with rfl | hne
    · simp [h.count_eq]
    · rw [pcp_pcpPush_of_ne hne]
      exact h.count_eq j
  held_ok := h.held_ok
  loose_ok a ha := h.loose_ok a (List.mem_cons_of_mem _ ha)
  reserved := h.reserved

theorem pcpPop {p c : ℕ} {l : List ℕ} (h : Accounted s R held loose)
    (hl : (s.pcp c).freeList = p :: l) : Accounted (s.pcpPop c) R held (⟨p, 0⟩ :: loose) := by
  have hp : p ∈ (s.pcp c).freeList := by simp [hl]
  obtain ⟨hc, hlt, -⟩ := h.cached c p hp
  refine ⟨fun i hi => ?_, h.free, fun j q hq => ?_, fun j => ?_, h.held_ok, fun a ha => ?_,
    h.reserved⟩
  · have hcov := h.cover_eq i hi
    have hperm := cover_perm (cachedBlocks_pcpPop hc hl) i
    simp only [blocks, cover_append, cover_cons, freeBlocks_pcpPop] at hcov hperm ⊢
    omega
  · rcases eq_or_ne j c with rfl | hne
    · rw [pcp_pcpPop_self] at hq
      exact h.cached j q (List.mem_of_mem_tail hq)
    · rw [pcp_pcpPop_of_ne hne] at hq
      exact h.cached j q hq
  · rcases eq_or_ne j c with rfl | hne
    · simp [h.count_eq]
    · rw [pcp_pcpPop_of_ne hne]
      exact h.count_eq j
  · rcases List.mem_cons.mp ha with rfl | ha
    · exact Fits.page hlt
    · exact h.loose_ok a ha

end Accounted

end Pmm

end Lume
