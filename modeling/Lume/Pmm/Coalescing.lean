import Lume.Pmm.System
import Mathlib.Data.Set.Insert

/-!
# Complete coalescing, and the hand-over at boot

The buddy lists never hold two buddies of an order that could be merged. So whenever an aligned
run of pages is free, page by page, one block on the lists contains all of it, and `buddy_alloc`
finds memory exactly when there is such a run of the requested order.

The same reading of the lists settles what `pmm_init` puts on them: the pages that no reserved
region covers, each once, in blocks that do not cross the border of a free region.

## Main definitions

* `Pmm.freeSet`, `Pmm.Merged`: the blocks on the lists, and that no two of them are buddies
* `Pmm.HandedOver mb s`: the lists hold what `mb` left free

## Main results

* `Pmm.merged_of_run`: complete coalescing, in every run
* `handOver_exact`: the hand-over from the boot-time allocator
-/

namespace Lume

namespace Pmm

/-- The blocks on the buddy lists, as a set. -/
def freeSet (s : Pmm) : Set Block := {b | b.start ∈ s.freeAreas b.order}

/-- No two buddies that could be merged are both on the lists. -/
def Merged (s : Pmm) : Prop := Block.Coalesced (kMaxOrder - 1) s.freeSet

section Reading

variable {s : Pmm} {R : Finset ℕ} {held loose : List Block} {b : Block}

theorem mem_freeSet : b ∈ s.freeSet ↔ b.start ∈ s.freeAreas b.order := Iff.rfl

theorem freeSet_buddyListAdd (s : Pmm) (p o : ℕ) :
    (s.buddyListAdd p o).freeSet = insert ⟨p, o⟩ s.freeSet := by
  ext a
  rw [Set.mem_insert_iff, mem_freeSet, mem_freeSet, Block.ext_iff]
  rcases eq_or_ne a.order o with rfl | hne
  · simp
  · simp [freeAreas_buddyListAdd_of_ne hne, hne]

theorem freeSet_buddyListDel (s : Pmm) (p : ℕ) : (s.buddyListDel p).freeSet ⊆ s.freeSet :=
  fun _ ha => List.mem_of_mem_erase ha

theorem Merged.add (h : s.Merged) (hal : b.Aligned)
    (hb : b.order < kMaxOrder - 1 → b.buddy ∉ s.freeSet) :
    (s.buddyListAdd b.start b.order).Merged := by
  rw [Merged, freeSet_buddyListAdd]
  exact Block.Coalesced.insert h hal hb

theorem Merged.del (h : s.Merged) (p : ℕ) : (s.buddyListDel p).Merged :=
  Block.Coalesced.mono h (freeSet_buddyListDel s p)

theorem Accounted.free_ok (h : Accounted s R held loose) (hb : b ∈ s.freeSet) :
    Fits s.numPages b ∧ (s.pageMap b.start).state = .free ∧ (s.pageMap b.start).order = b.order :=
  h.free _ _ hb

theorem Accounted.not_mem_freeSet (h : Accounted s R held (b :: loose)) {i : ℕ} (hi : i ∈ b)
    {a : Block} (ha : i ∈ a) : a ∉ s.freeSet := by
  intro hfree
  have ho := (h.free_ok hfree).1.order_lt
  exact (h.not_mem_of_loose hi).1 a (mem_blocks_free hfree ho) ha

end Reading

/-! ## The buddy system -/

namespace Merged

variable {s : Pmm} {R : Finset ℕ} {held loose : List Block} {b : Block}

theorem splitDown {p order : ℕ} (cur : ℕ) (hacc : Accounted s R held (⟨p, cur⟩ :: loose))
    (h : s.Merged) : (s.splitDown p order cur).Merged := by
  induction cur generalizing s with
  | zero => exact h
  | succ cur ih =>
    rw [Pmm.splitDown]
    split
    · have hal := (hacc.loose_ok _ (List.mem_cons_self ..)).aligned
      have hhalves : Accounted s R held (⟨p, cur⟩ :: ⟨p + 2 ^ cur, cur⟩ :: loose) :=
        hacc.split (Nat.succ_pos cur)
      have hswap := hhalves.perm (.refl _) (.swap ..)
      have hbuddy : (⟨p + 2 ^ cur, cur⟩ : Block).buddy = ⟨p, cur⟩ := by
        have hlow : (⟨p, cur⟩ : Block).buddy = ⟨p + 2 ^ cur, cur⟩ :=
          hal.buddy_lower (Nat.succ_pos cur)
        rw [← hlow, Block.buddy_buddy]
      refine ih hswap.buddyListAdd (h.add hal.upper fun _ => ?_)
      change (⟨p + 2 ^ cur, cur⟩ : Block).buddy ∉ s.freeSet
      rw [hbuddy]
      exact hhalves.not_mem_freeSet (Block.start_mem _) (Block.start_mem ⟨p, cur⟩)
    · exact h

theorem buddyAllocLoop {order : ℕ} (n : ℕ) (hacc : Accounted s R held []) (h : s.Merged) :
    (s.buddyAllocLoop order n).2.Merged := by
  induction n with
  | zero => exact h
  | succ n ih =>
    rw [Pmm.buddyAllocLoop]
    cases hl : s.freeAreas (kMaxOrder - (n + 1)) with
    | nil => exact ih
    | cons p l =>
      have hp : p ∈ s.freeAreas (kMaxOrder - (n + 1)) := by simp [hl]
      exact (h.del p).splitDown _ (hacc.buddyListDel hp)

theorem buddyAlloc (order : ℕ) (hacc : Accounted s R held []) (h : s.Merged) :
    (s.buddyAlloc order).2.Merged :=
  h.buddyAllocLoop _ hacc

/-- **`buddy_free` merges as far as it can**: it stops at the top order, at the end of memory, or
next to a buddy that is not on its list. -/
theorem buddyFreeLoop (n : ℕ) (hn : b.order + n + 1 = kMaxOrder) (hacc : Accounted s R held [b])
    (h : s.Merged) : (s.buddyFreeLoop b.start b.order n).Merged := by
  induction n generalizing s b with
  | zero =>
    refine h.add (hacc.loose_ok b (List.mem_cons_self ..)).aligned fun ho => ?_
    omega
  | succ n ih =>
    have hal := (hacc.loose_ok b (List.mem_cons_self ..)).aligned
    rw [Pmm.buddyFreeLoop]
    by_cases hin : s.numPages ≤ b.buddy.start
    · rw [show s.buddyOf b.start b.order = none from if_pos hin]
      refine h.add hal fun _ hfree => ?_
      exact absurd (hacc.free_ok hfree).1.start_lt (not_lt.mpr hin)
    rw [show s.buddyOf b.start b.order = some b.buddy.start from if_neg hin]
    dsimp only
    split
    · -- a buddy on the list would be recorded as free at this order
      rename_i hno
      refine h.add hal fun _ hfree => ?_
      obtain ⟨-, hst, ho⟩ := hacc.free_ok hfree
      rcases hno with hno | hno
      · exact hno hst
      · exact hno ho
    · rename_i hfree
      rw [not_or, not_not, not_not] at hfree
      have hmem := hacc.buddy_mem_freeAreas (by omega) hfree.1 hfree.2
      have hdel : Accounted (s.buddyListDel b.buddy.start) R held [b.buddy, b] :=
        hacc.buddyListDel hmem
      have hmin : (if b.buddy.start < b.start then b.buddy.start else b.start) =
          b.parent.start := by
        simp only [Block.parent]
        split <;> omega
      rw [hmin]
      exact ih (by rw [Block.parent_order]; omega) (hdel.merge (by omega)) (h.del _)

theorem buddyFree (hacc : Accounted s R held [b]) (h : s.Merged) :
    (s.buddyFree b.start b.order).Merged :=
  h.buddyFreeLoop _ (by have := (hacc.loose_ok b (List.mem_cons_self ..)).order_lt; omega) hacc

/-! ## The per-CPU caches -/

theorem refillLoop {c : ℕ} (hc : c < kMaxCpus) (n : ℕ) (hacc : Accounted s R held [])
    (h : s.Merged) : (s.refillLoop c n).Merged := by
  induction n generalizing s with
  | zero => exact h
  | succ n ih =>
    have halloc := h.buddyAlloc 0 hacc
    rw [Pmm.refillLoop]
    rcases hacc.buddyAlloc (by decide : 0 < kMaxOrder) with he | ⟨p, s', he, hg⟩ <;>
      rw [he] at halloc ⊢ <;> dsimp only
    · exact h
    · have hset := hg.accounted.setPage fun d => { d with state := .pcpCached }
      exact ih (hset.pcpPush hc (by simp)) halloc

theorem drainLoop {c : ℕ} (n : ℕ) (hacc : Accounted s R held []) (h : s.Merged) :
    (s.drainLoop c n).Merged := by
  induction n generalizing s with
  | zero => exact h
  | succ n ih =>
    rw [Pmm.drainLoop]
    cases hl : (s.pcp c).freeList with
    | nil => exact h
    | cons p l =>
      have hpop : Accounted (s.pcpPop c) R held [⟨p, 0⟩] := hacc.pcpPop hl
      have hfree : ((s.pcpPop c).buddyFree p 0).Merged := buddyFree hpop h
      exact ih hpop.buddyFree.1 hfree

/-! ## The public interface -/

theorem takeCached (c : ℕ) (h : s.Merged) : (s.takeCached c).2.Merged := by
  rw [Pmm.takeCached]
  split
  · exact h
  · cases (s.pcp c).freeList with
    | nil => exact h
    | cons p l => exact h

theorem allocPage {c : ℕ} (hc : c < kMaxCpus) (hinv : s.Inv R held) (h : s.Merged) :
    (s.allocPage c).2.Merged := by
  rw [Pmm.allocPage]
  split
  · exact (h.refillLoop hc _ hinv.accounted).takeCached c
  · exact h.takeCached c

theorem freePage {c p : ℕ} (hc : c < kMaxCpus) (hinv : s.Inv R held) (hp : ⟨p, 0⟩ ∈ held)
    (h : s.Merged) : (s.freePage c p).Merged := by
  have hcache := (hinv.cachePage hc hp).1
  have h' : (s.cachePage c p).Merged := h
  rw [Pmm.freePage]
  split
  · exact h'.drainLoop _ hcache
  · exact h'

theorem allocPages (order : ℕ) (hinv : s.Inv R held) (h : s.Merged) :
    (s.allocPages order).2.Merged := by
  rw [Pmm.allocPages]
  split
  · exact h
  · exact h.buddyAlloc order hinv.accounted

theorem freePages (hinv : s.Inv R held) (hb : b ∈ held) (h : s.Merged) :
    (s.freePages b.start b.order).Merged := by
  rw [Pmm.freePages]
  split
  · exact h
  · exact h.buddyFree (hinv.accounted.drop hb)

theorem decref {c p o : ℕ} (hc : c < kMaxCpus) (hinv : s.Inv R held)
    (hp : (s.pageMap p).refcount = 1 → ⟨p, o⟩ ∈ held) (h : s.Merged) : (s.decref c p).Merged := by
  have hset := hinv.setRefcount p fun n => (n + 2 ^ 32 - 1) % 2 ^ 32
  have h' : (s.setPage p fun d => { d with refcount := (d.refcount + 2 ^ 32 - 1) % 2 ^ 32 }).Merged :=
    h
  rw [Pmm.decref]
  split
  · rename_i hlast
    have hb := hp hlast
    have ho := (hset.accounted.held_ok _ hb).2.2.2
    rw [ho]
    split
    · rename_i hz
      exact h'.freePage hc hset (hz ▸ hb)
    · exact h'.freePages hset hb
  · exact h'

theorem step {x y : Client} {call : Call} (hinv : x.pmm.Inv R x.held) (h : x.pmm.Merged)
    (hs : Client.Step x call y) : y.pmm.Merged := by
  obtain ⟨hok, rfl⟩ := hs
  cases call with
  | allocPage cpu => exact h.allocPage hok hinv
  | freePage cpu p => exact h.freePage hok.1 hinv hok.2
  | allocPages order => exact h.allocPages order hinv
  | freePages p order => exact h.freePages hinv hok
  | incref p => exact h
  | decref cpu p =>
    obtain ⟨hcpu, -, hheld⟩ := hok
    by_cases hlast : (x.pmm.pageMap p).refcount = 1
    · obtain ⟨order, hb⟩ := hheld hlast
      exact h.decref hcpu hinv fun _ => hb
    · exact h.decref (o := 0) hcpu hinv fun hl => absurd hl hlast

end Merged

/-! ## What `buddy_alloc` finds -/

section Finding

variable {s : Pmm} {R : Finset ℕ} {held : List Block} {order : ℕ}

theorem buddyAllocLoop_isSome (n : ℕ) : (s.buddyAllocLoop order n).1.isSome ↔
    ∃ j < n, s.freeAreas (kMaxOrder - (j + 1)) ≠ [] := by
  induction n with
  | zero => simp [buddyAllocLoop]
  | succ n ih =>
    rw [buddyAllocLoop]
    cases hl : s.freeAreas (kMaxOrder - (n + 1)) with
    | nil =>
      refine ih.trans ⟨?_, ?_⟩
      · rintro ⟨j, hj, hne⟩
        exact ⟨j, hj.trans (Nat.lt_succ_self n), hne⟩
      · rintro ⟨j, hj, hne⟩
        refine ⟨j, lt_of_le_of_ne (Nat.le_of_lt_succ hj) ?_, hne⟩
        rintro rfl
        exact hne hl
    | cons p l => exact ⟨fun _ => ⟨n, Nat.lt_succ_self n, by simp [hl]⟩, fun _ => rfl⟩

theorem buddyAlloc_isSome (ho : order < kMaxOrder) (hacc : Accounted s R held []) :
    (s.buddyAlloc order).1.isSome ↔ ∃ b ∈ s.freeSet, order ≤ b.order := by
  rw [buddyAlloc, buddyAllocLoop_isSome]
  constructor
  · rintro ⟨j, hj, hne⟩
    obtain ⟨p, hp⟩ := List.exists_mem_of_ne_nil _ hne
    exact ⟨⟨p, kMaxOrder - (j + 1)⟩, hp, by dsimp only; omega⟩
  · rintro ⟨b, hb, hle⟩
    have hlt := (hacc.free_ok hb).1.order_lt
    refine ⟨kMaxOrder - 1 - b.order, by omega, ?_⟩
    have he : kMaxOrder - (kMaxOrder - 1 - b.order + 1) = b.order := by omega
    rw [he]
    exact List.ne_nil_of_mem hb

/-- The pages of the run are free. -/
def FreeRun (s : Pmm) (run : Block) : Prop := run.Aligned ∧ ∀ i ∈ run, ∃ b ∈ s.freeSet, i ∈ b

theorem Merged.buddyAlloc_iff (h : s.Merged) (ho : order < kMaxOrder)
    (hacc : Accounted s R held []) : (s.buddyAlloc order).1.isSome ↔ ∃ p, s.FreeRun ⟨p, order⟩ := by
  rw [buddyAlloc_isSome ho hacc]
  constructor
  · -- the first pages of a block that is large enough are such a run
    rintro ⟨b, hb, hle⟩
    have hal := (hacc.free_ok hb).1.aligned
    refine ⟨b.start, (pow_dvd_pow 2 hle).trans hal, fun i hi => ⟨b, hb, hi.1, ?_⟩⟩
    exact lt_of_lt_of_le hi.2 (Nat.add_le_add_left (Nat.pow_le_pow_right (by decide) hle) _)
  · rintro ⟨p, hal, hcov⟩
    have hle : (⟨p, order⟩ : Block).order ≤ kMaxOrder - 1 := by dsimp only; omega
    obtain ⟨a, ha, hle, -⟩ := Block.Coalesced.exists_of_covered h
      (fun a ha => (hacc.free_ok ha).1.aligned) hal hle hcov
    exact ⟨a, ha, hle⟩

end Finding

/-! ## The lists that `pmm_init` builds -/

theorem lt_of_feedOrder_lt {pfn endPfn j : ℕ} (n : ℕ) (hj : feedOrder pfn endPfn n < j) (hn : j < n)
    (hd : 2 ^ j ∣ pfn) : endPfn < pfn + 2 ^ j := by
  induction n with
  | zero => omega
  | succ n ih =>
    rw [feedOrder] at hj
    split at hj
    · omega
    · rename_i hno
      rcases Nat.lt_succ_iff_lt_or_eq.mp hn with hlt | rfl
      · exact ih hj hlt
      · rw [Nat.and_two_pow_sub_one_eq_mod, not_and, not_le] at hno
        exact hno (Nat.mod_eq_zero_of_dvd hd)

theorem ram_feedLoop (endPfn fuel pfn : ℕ) (s : Pmm) : (s.feedLoop endPfn fuel pfn).ram = s.ram := by
  induction fuel generalizing s pfn with
  | zero => rfl
  | succ fuel ih =>
    rw [feedLoop]
    split
    · exact ih _ _
    · rfl

theorem mem_freeSet_feedLoop {endPfn fuel pfn : ℕ} {s : Pmm} {b : Block}
    (hb : b ∈ (s.feedLoop endPfn fuel pfn).freeSet) :
    b ∈ s.freeSet ∨ pfn ≤ b.start ∧ b.start + 2 ^ b.order ≤ endPfn := by
  induction fuel generalizing s pfn with
  | zero => exact .inl hb
  | succ fuel ih =>
    rw [feedLoop] at hb
    split at hb
    · rename_i hlt
      rcases ih hb with hb | hb
      · rw [freeSet_buddyListAdd, Set.mem_insert_iff] at hb
        rcases hb with rfl | hb
        · exact .inr ⟨le_rfl, (feedOrder_spec hlt kMaxOrder).2.1⟩
        · exact .inl hb
      · exact .inr ⟨(Nat.le_add_right ..).trans hb.1, hb.2⟩
    · exact .inl hb

/-- The lists in the middle of a region: all blocks are behind, and the one that ends here could
not have been taken larger. -/
structure FedUpTo (s : Pmm) (pfn endPfn : ℕ) : Prop where
  le : ∀ b ∈ s.freeSet, b.start + 2 ^ b.order ≤ pfn
  last : ∀ b ∈ s.freeSet, b.start + 2 ^ b.order = pfn → b.order < kMaxOrder - 1 →
    2 ^ (b.order + 1) ∣ b.start → endPfn < pfn + 2 ^ b.order

theorem FedUpTo.buddy_not_mem {s : Pmm} {b : Block} {endPfn : ℕ} (h : s.FedUpTo b.start endPfn)
    (hal : b.Aligned) (hle : b.start + 2 ^ b.order ≤ endPfn) (ho : b.order < kMaxOrder - 1) :
    b.buddy ∉ s.freeSet := by
  intro hb
  have hend := h.le _ hb
  rw [Block.buddy_order] at hend
  rcases hal.buddy_cases with ⟨k, -, hk⟩ | ⟨k, hk, hk'⟩
  · have hpos := Nat.two_pow_pos b.order
    omega
  · -- the buddy is the block that ends here, and it and this block fit together
    have hd : 2 ^ (b.order + 1) ∣ b.buddy.start := by
      refine ⟨k, ?_⟩
      have : b.buddy.start + 2 ^ b.order = 2 ^ (b.order + 1) * k + 2 ^ b.order := by
        rw [← hk', hk]
        ring
      omega
    have hlt := h.last _ hb hk'.symm ho hd
    rw [Block.buddy_order] at hlt
    omega

theorem Merged.feedLoop {endPfn fuel pfn : ℕ} {s : Pmm} (h : s.Merged) (hf : s.FedUpTo pfn endPfn) :
    (s.feedLoop endPfn fuel pfn).Merged := by
  induction fuel generalizing s pfn with
  | zero => exact h
  | succ fuel ih =>
    rw [Pmm.feedLoop]
    split
    · rename_i hlt
      obtain ⟨hdvd, hle, -⟩ := feedOrder_spec hlt kMaxOrder
      have hmax (j : ℕ) (hj : feedOrder pfn endPfn kMaxOrder < j) (hn : j < kMaxOrder)
          (hd : 2 ^ j ∣ pfn) := lt_of_feedOrder_lt kMaxOrder hj hn hd
      generalize feedOrder pfn endPfn kMaxOrder = order at hdvd hle hmax
      have hpos := Nat.two_pow_pos order
      have hb : order < kMaxOrder - 1 → (⟨pfn, order⟩ : Block).buddy ∉ s.freeSet :=
        FedUpTo.buddy_not_mem (b := ⟨pfn, order⟩) hf hdvd hle
      refine ih (Merged.add (b := ⟨pfn, order⟩) h hdvd hb) ⟨fun b hb => ?_, fun b hb => ?_⟩
      · rw [freeSet_buddyListAdd, Set.mem_insert_iff] at hb
        rcases hb with rfl | hb
        · exact le_rfl
        · exact (hf.le b hb).trans (Nat.le_add_right ..)
      · rw [freeSet_buddyListAdd, Set.mem_insert_iff] at hb
        intro hend ho hd
        rcases hb with rfl | hb
        · have hlt := hmax (order + 1) (Nat.lt_succ_self _) (by dsimp only at ho; omega) hd
          rw [pow_succ] at hlt
          dsimp only
          omega
        · have := hf.le b hb
          omega
    · exact h

/-- The first page after a region. -/
def regionEnd (ram : Ram) (r : Region) : ℕ := (r.base - ram.memBase) / kPageSize + r.size / kPageSize

theorem mem_freeSet_feedRegions (fs : List Region) {s : Pmm} {b : Block}
    (hb : b ∈ (fs.foldl feedRegion s).freeSet) :
    b ∈ s.freeSet ∨ ∃ f ∈ fs, (f.base - s.ram.memBase) / kPageSize ≤ b.start ∧
      b.start + 2 ^ b.order ≤ regionEnd s.ram f := by
  induction fs generalizing s with
  | nil => exact .inl hb
  | cons f fs ih =>
    have hram : (s.feedRegion f).ram = s.ram := ram_feedLoop ..
    rcases ih hb with hb | ⟨g, hg, hb⟩
    · rcases mem_freeSet_feedLoop hb with hb | hb
      · exact .inl hb
      · exact .inr ⟨f, List.mem_cons_self .., hb⟩
    · rw [hram] at hb
      exact .inr ⟨g, List.mem_cons_of_mem _ hg, hb⟩

theorem Merged.feedRegions (fs : List Region) {s : Pmm} (h : s.Merged)
    (hlt : ∀ f ∈ fs, ∀ b ∈ s.freeSet, b.start + 2 ^ b.order < (f.base - s.ram.memBase) / kPageSize)
    (hgap : fs.Pairwise fun f g => regionEnd s.ram f < (g.base - s.ram.memBase) / kPageSize) :
    (fs.foldl feedRegion s).Merged := by
  induction fs generalizing s with
  | nil => exact h
  | cons f fs ih =>
    rw [List.forall_mem_cons] at hlt
    obtain ⟨hf, hfs⟩ := List.pairwise_cons.mp hgap
    have hram : (s.feedRegion f).ram = s.ram := ram_feedLoop ..
    have hfed : s.FedUpTo ((f.base - s.ram.memBase) / kPageSize) (regionEnd s.ram f) :=
      ⟨fun b hb => (hlt.1 b hb).le, fun b hb he => absurd he (hlt.1 b hb).ne⟩
    refine ih (h.feedLoop hfed) (fun g hg b hb => ?_) (by rwa [hram])
    rw [hram]
    rcases mem_freeSet_feedLoop hb with hb | ⟨-, hle⟩
    · exact hlt.2 g hg b hb
    · exact lt_of_le_of_lt hle (hf g hg)

end Pmm

theorem Memblock.regionEnd_lt {mb : Memblock} (h : mb.Inv)
    (hgap : mb.forEachFree.Pairwise fun f g => f.stop < g.base) : mb.forEachFree.Pairwise fun f g =>
      Pmm.regionEnd mb.ram f < (g.base - mb.ram.memBase) / kPageSize := by
  refine hgap.imp_of_mem fun {f g} hf hg hlt => ?_
  have hle := memBase_le_of_mem_forEachFree hf
  obtain ⟨m, hm⟩ := mb.ram.base_aligned
  obtain ⟨a, ha⟩ := (forEachFree_aligned h f hf).base
  obtain ⟨b, hb⟩ := (forEachFree_aligned h f hf).stop
  obtain ⟨c, hc⟩ := (forEachFree_aligned h g hg).base
  simp only [Pmm.regionEnd, Region.stop, kPageSize] at *
  omega

theorem pmmInit_merged {mb : Memblock} (h : mb.Inv)
    (hgap : mb.forEachFree.Pairwise fun f g => f.stop < g.base) : (pmmInit mb).Merged := by
  have hempty (b : Block) : b ∉ (Pmm.blank mb.ram).freeSet := List.not_mem_nil
  exact Pmm.Merged.feedRegions _ (fun b hb => absurd hb (hempty b))
    (fun _ _ b hb => absurd hb (hempty b)) (Memblock.regionEnd_lt h hgap)

/-! ## The results -/

/-- **Buddy coalescing is complete**: from the state that `pmm_init` builds from free regions that
are not adjacent, along every run of calls, no two buddies that could be merged are both on the
lists, and `buddy_alloc` succeeds exactly when some aligned run of pages of its order is free. -/
theorem Pmm.merged_of_run {ram : Ram} {image : KernelImage ram} {fdt : ℕ} {mb₀ mb : Memblock}
    {requests : List (Memblock.Request × ℕ)} {calls : List Pmm.Call} {x : Pmm.Client}
    (hinit : memblockInit image fdt = some mb₀) (hboot : Run Memblock.Step mb₀ requests mb)
    (hgap : mb.forEachFree.Pairwise fun f g => f.stop < g.base)
    (hrun : Run Pmm.Client.Step ⟨pmmInit mb, []⟩ calls x) : x.pmm.Merged ∧ ∀ order < kMaxOrder,
      ((x.pmm.buddyAlloc order).1.isSome ↔ ∃ p, x.pmm.FreeRun ⟨p, order⟩) := by
  have hmb := Memblock.run_inv hboot (memblockInit_spec hinit).2.1
  have hall := hrun.invariant (P := fun z => z.pmm.Inv mb.reservedPages z.held ∧ z.pmm.Merged)
    (fun h hs => ⟨Pmm.Client.Step.inv h.1 hs, h.2.step h.1 hs⟩)
    ⟨(pmmInit_inv hmb).1, pmmInit_merged hmb hgap⟩
  exact ⟨hall.2, fun order ho => hall.2.buddyAlloc_iff ho hall.1.accounted⟩

/-- On the small machine, after one page went to a page table at boot: two CPUs allocate. -/
theorem Pmm.merged_small :
    (((⟨pmmInit (smallBoot [⟨0x80004000, 0x1000⟩]), []⟩ : Pmm.Client).exec (.allocPage 0)).exec
      (.allocPages 1)).pmm.Merged := by
  have hpage : Client.Permitted ⟨pmmInit (smallBoot [⟨0x80004000, 0x1000⟩]), []⟩ (.allocPage 0) :=
    show 0 < kMaxCpus by decide
  have hpages (x : Client) : x.Permitted (.allocPages 1) := trivial
  exact (merged_of_run (memblockInit_small 0x80008000) (.snoc (.nil _) step_small) (by decide)
    (.snoc (.snoc (.nil _) hpage.step) (hpages _).step)).1

/-- The lists hold exactly what the boot-time allocator left free. -/
structure HandedOver (mb : Memblock) (s : Pmm) : Prop where
  /-- a page is on the lists exactly when no reserved region covers it -/
  covered : ∀ i, (∃ b ∈ s.freeSet, i ∈ b) ↔
    i < mb.ram.numPages ∧ ∀ r ∈ mb.reserved, mb.ram.pageToPa i ∉ r
  /-- no page is on the lists twice -/
  once : ∀ i, cover s.freeBlocks i ≤ 1
  /-- a block is aligned, in one free region, and recorded as free at its order -/
  block : ∀ b ∈ s.freeSet, b.order < kMaxOrder ∧ b.Aligned ∧
    (∃ f ∈ mb.forEachFree, ∀ i ∈ b, mb.ram.pageToPa i ∈ f) ∧
    (s.pageMap b.start).state = .free ∧ (s.pageMap b.start).order = b.order
  /-- a reserved page is recorded as in use, and is on no list -/
  reserved : ∀ i < mb.ram.numPages, (∃ r ∈ mb.reserved, mb.ram.pageToPa i ∈ r) →
    (s.pageMap i).state = .allocated ∧ (∀ b ∈ s.freeSet, i ∉ b) ∧ ∀ c, i ∉ (s.pcp c).freeList

/-- **The hand-over to the buddy allocator is exact**, whatever the boot code reserved. -/
theorem handOver_exact {ram : Ram} {image : KernelImage ram} {fdt : ℕ} {mb₀ mb : Memblock}
    {requests : List (Memblock.Request × ℕ)} (hinit : memblockInit image fdt = some mb₀)
    (hboot : Run Memblock.Step mb₀ requests mb) : HandedOver mb (pmmInit mb) := by
  have hmb := Memblock.run_inv hboot (memblockInit_spec hinit).2.1
  obtain ⟨hinv, hram, hpcp⟩ := pmmInit_inv hmb
  have hacc := hinv.accounted
  have hnum : (pmmInit mb).numPages = mb.ram.numPages := by rw [Pmm.numPages, hram]
  have hcached : (pmmInit mb).cachedBlocks = [] := by simp [Pmm.cachedBlocks, hpcp]
  have hmem (b : Block) : b ∈ (pmmInit mb).freeBlocks ↔ b ∈ (pmmInit mb).freeSet := by
    rw [Pmm.mem_freeBlocks]
    exact ⟨fun hb => hb.2, fun hb => ⟨(hacc.free_ok hb).1.order_lt, hb⟩⟩
  -- a page is on the lists or reserved, and not both
  have hcover (i : ℕ) (hi : i < mb.ram.numPages) :
      cover (pmmInit mb).freeBlocks i + (if i ∈ mb.reservedPages then 1 else 0) = 1 := by
    have h := hacc.cover_parts (hnum ▸ hi)
    rw [hcached] at h
    simpa using h
  have hlt (i : ℕ) (b : Block) (hb : b ∈ (pmmInit mb).freeSet) (hi : i ∈ b) :
      i < mb.ram.numPages := hnum ▸ (hacc.free_ok hb).1.lt_of_mem hi
  have hpos (i : ℕ) : 0 < cover (pmmInit mb).freeBlocks i ↔
      ∃ b ∈ (pmmInit mb).freeSet, i ∈ b := by
    rw [cover_pos_iff]
    exact exists_congr fun b => and_congr_left fun _ => hmem b
  refine ⟨fun i => ?_, fun i => ?_, fun b hb => ?_, fun i hi hr => ?_⟩
  · constructor
    · rintro ⟨b, hb, hi⟩
      have hlt := hlt i b hb hi
      refine ⟨hlt, fun r hr hx => ?_⟩
      have h := hcover i hlt
      rw [if_pos (mem_reservedPages.mpr ⟨hlt, r, hr, hx⟩)] at h
      have := (hpos i).mpr ⟨b, hb, hi⟩
      omega
    · rintro ⟨hi, hr⟩
      have h := hcover i hi
      have hnot : i ∉ mb.reservedPages := fun hmem => by
        obtain ⟨-, r, hr', hx⟩ := mem_reservedPages.mp hmem
        exact hr r hr' hx
      rw [if_neg hnot] at h
      exact (hpos i).mp (by omega)
  · rcases Nat.eq_zero_or_pos (cover (pmmInit mb).freeBlocks i) with hz | hp
    · omega
    · obtain ⟨b, hb, hi⟩ := (hpos i).mp hp
      have := hcover i (hlt i b hb hi)
      omega
  · obtain ⟨hfit, hst, ho⟩ := hacc.free_ok hb
    refine ⟨hfit.order_lt, hfit.aligned, ?_, hst, ho⟩
    rcases Pmm.mem_freeSet_feedRegions _ hb with hb | ⟨f, hf, hlo, hhi⟩
    · exact absurd hb List.not_mem_nil
    · refine ⟨f, hf, fun i hi => ?_⟩
      rw [← Pmm.mem_regionPages (Memblock.forEachFree_aligned hmb f hf)
        (Memblock.memBase_le_of_mem_forEachFree hf), Pmm.regionPages, Finset.mem_Ico]
      exact ⟨hlo.trans hi.1, lt_of_lt_of_le hi.2 hhi⟩
  · have hres : i ∈ mb.reservedPages := mem_reservedPages.mpr ⟨hi, hr⟩
    refine ⟨(hacc.reserved i hres).2, fun b hb hib => ?_, fun c hc => ?_⟩
    · have h := hcover i hi
      rw [if_pos hres] at h
      have := (hpos i).mpr ⟨b, hb, hib⟩
      omega
    · rw [hpcp c] at hc
      exact List.not_mem_nil hc

/-- On the small machine, after one page went to a page table at boot. -/
theorem handOver_small : HandedOver (smallBoot [⟨0x80004000, 0x1000⟩])
    (pmmInit (smallBoot [⟨0x80004000, 0x1000⟩])) :=
  handOver_exact (memblockInit_small 0x80008000) (.snoc (.nil _) step_small)

end Lume
