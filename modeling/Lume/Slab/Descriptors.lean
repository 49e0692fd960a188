import Lume.Pmm.Init

/-!
# The page allocator marks no page as a slab page

`new_slab` alone puts a page into the state `Slab`. The page allocator writes the states of the pages
that pass through its hands, and the pages inside of a block keep stale states; none of these is
`Slab`.

## Main definitions

* `Pmm.NoNewSlab s s'`: no page has become a slab page

## Main results

* `Pmm.noNewSlab_allocPage`, `Pmm.noNewSlab_allocPages`, `Pmm.noNewSlab_freePages`
* `Pmm.freePage_not_slab`: a page that is given back is not a slab page any more
* `pmmInit_not_slab`: there are none at boot
-/

namespace Lume

namespace Pmm

/-- No page has become a slab page. -/
structure NoNewSlab (s s' : Pmm) : Prop where
  old : ∀ q, (s'.pageMap q).state = .slab → (s.pageMap q).state = .slab

namespace NoNewSlab

theorem refl (s : Pmm) : NoNewSlab s s := ⟨fun _ => id⟩

theorem trans {s s' s'' : Pmm} (h : NoNewSlab s s') (h' : NoNewSlab s' s'') : NoNewSlab s s'' :=
  ⟨fun q hq => h.old q (h'.old q hq)⟩

theorem of_update {s s' : Pmm} {p : ℕ} {d : Page} (h : s'.pageMap = Function.update s.pageMap p d)
    (hd : d.state = .slab → (s.pageMap p).state = .slab) : NoNewSlab s s' := by
  refine ⟨fun q hq => ?_⟩
  rw [h] at hq
  rcases eq_or_ne q p with rfl | hne
  · rw [Function.update_self] at hq
    exact hd hq
  · rwa [Function.update_of_ne hne] at hq

theorem of_state {s s' : Pmm} {p : ℕ} {d : Page} (st : PageState) (hst : st ≠ .slab)
    (h : s'.pageMap = Function.update s.pageMap p d) (hd : d.state = st) : NoNewSlab s s' :=
  of_update h fun he => absurd (hd.symm.trans he) hst

theorem buddyListAdd (s : Pmm) (p o : ℕ) : NoNewSlab s (s.buddyListAdd p o) :=
  of_state .free (by decide) rfl rfl

end NoNewSlab

variable (s : Pmm)

/-! ## The buddy system -/

theorem noNewSlab_splitDown (p order cur : ℕ) : NoNewSlab s (s.splitDown p order cur) := by
  induction cur generalizing s with
  | zero => exact .refl s
  | succ cur ih =>
    rw [splitDown]
    split
    · exact (NoNewSlab.buddyListAdd ..).trans (ih _)
    · exact .refl s

theorem noNewSlab_buddyAllocLoop (order n : ℕ) : NoNewSlab s (s.buddyAllocLoop order n).2 := by
  induction n with
  | zero => exact .refl s
  | succ n ih =>
    rw [buddyAllocLoop]
    rcases hfree : s.freeAreas (kMaxOrder - (n + 1)) with _ | ⟨p, free⟩
    · exact ih
    · have hsplit := noNewSlab_splitDown (s.buddyListDel p) p order (kMaxOrder - (n + 1))
      exact NoNewSlab.trans ⟨hsplit.old⟩ (.of_state .allocated (by decide) rfl rfl)

theorem noNewSlab_buddyFreeLoop (p order n : ℕ) : NoNewSlab s (s.buddyFreeLoop p order n) := by
  induction n generalizing s p order with
  | zero => exact .buddyListAdd ..
  | succ n ih =>
    rw [buddyFreeLoop]
    split
    · exact .buddyListAdd ..
    · split
      · exact .buddyListAdd ..
      · rename_i buddy _ _
        exact ⟨(ih (s.buddyListDel buddy) _ _).old⟩

/-! ## The per-CPU caches -/

theorem noNewSlab_refillLoop (cpu n : ℕ) : NoNewSlab s (s.refillLoop cpu n) := by
  induction n generalizing s with
  | zero => exact .refl s
  | succ n ih =>
    have halloc := s.noNewSlab_buddyAllocLoop 0 kMaxOrder
    change NoNewSlab s (s.buddyAlloc 0).2 at halloc
    rw [refillLoop]
    rcases he : s.buddyAlloc 0 with ⟨_ | p, s'⟩
    · rwa [he] at halloc
    · rw [he] at halloc
      have hset : NoNewSlab s' (s'.setPage p fun d => { d with state := .pcpCached }) :=
        .of_state .pcpCached (by decide) rfl rfl
      exact (halloc.trans hset).trans ⟨(ih _).old⟩

theorem noNewSlab_drainLoop (cpu n : ℕ) : NoNewSlab s (s.drainLoop cpu n) := by
  induction n generalizing s with
  | zero => exact .refl s
  | succ n ih =>
    rw [drainLoop]
    split
    · exact .refl s
    · rename_i p _ _
      exact NoNewSlab.trans ⟨(noNewSlab_buddyFreeLoop (s.pcpPop cpu) p 0 _).old⟩ (ih _)

/-! ## The public interface -/

theorem noNewSlab_allocPage (cpu : ℕ) : NoNewSlab s (s.allocPage cpu).2 := by
  have htake (s : Pmm) : NoNewSlab s (s.takeCached cpu).2 := by
    rw [takeCached]
    split
    · exact .refl s
    · rcases (s.pcp cpu).freeList with _ | ⟨p, free⟩
      · exact .refl s
      · exact .of_state .allocated (by decide) rfl rfl
  rw [allocPage]
  split
  · exact (s.noNewSlab_refillLoop cpu _).trans (htake _)
  · exact htake s

theorem noNewSlab_allocPages (order : ℕ) : NoNewSlab s (s.allocPages order).2 := by
  rw [allocPages]
  split
  · exact .refl s
  · exact s.noNewSlab_buddyAllocLoop order _

theorem noNewSlab_freePages (p order : ℕ) : NoNewSlab s (s.freePages p order) := by
  rw [freePages]
  split
  · exact .refl s
  · exact s.noNewSlab_buddyFreeLoop p order _

theorem noNewSlab_freePage (cpu p : ℕ) : NoNewSlab (s.cachePage cpu p) (s.freePage cpu p) := by
  rw [freePage]
  split
  · exact noNewSlab_drainLoop _ cpu _
  · exact .refl _

theorem freePage_not_slab (cpu p : ℕ) {q : ℕ} (hq : ((s.freePage cpu p).pageMap q).state = .slab) :
    q ≠ p ∧ (s.pageMap q).state = .slab := by
  have hcached := (s.noNewSlab_freePage cpu p).old q hq
  change ((s.setPage p fun d => { d with state := .pcpCached, order := 0 }).pageMap q).state = _
    at hcached
  have hne : q ≠ p := by
    rintro rfl
    rw [pageMap_setPage_self] at hcached
    cases hcached
  rw [pageMap_setPage_of_ne hne] at hcached
  exact ⟨hne, hcached⟩

/-! ## Boot -/

theorem noNewSlab_feedLoop (endPfn fuel pfn : ℕ) : NoNewSlab s (s.feedLoop endPfn fuel pfn) := by
  induction fuel generalizing s pfn with
  | zero => exact .refl s
  | succ fuel ih =>
    rw [feedLoop]
    split
    · refine NoNewSlab.trans (NoNewSlab.trans ?_ (NoNewSlab.buddyListAdd ..)) (ih _ _)
      exact .of_update rfl id
    · exact .refl s

end Pmm

theorem pmmInit_not_slab (mb : Memblock) (q : ℕ) : ((pmmInit mb).pageMap q).state ≠ .slab := by
  have hfold (fs : List Region) (s : Pmm) : Pmm.NoNewSlab s (fs.foldl Pmm.feedRegion s) := by
    induction fs generalizing s with
    | nil => exact .refl s
    | cons f fs ih => exact (s.noNewSlab_feedLoop _ _ _).trans (ih _)
  intro hq
  cases (hfold mb.forEachFree (Pmm.blank mb.ram)).old q hq

end Lume
