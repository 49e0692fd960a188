import Lume.Pmm.Accounting

/-!
# The allocator's operations keep the accounting

One specification per function of `mm/pmm.cc`: the accounting is restored, the descriptors of
held blocks are untouched, and a returned block was in nobody's hands before. Callers of a
function use its specification only.

## Main definitions

* `Pmm.Inv s R held`: the accounting between two calls, with the bound on the per-CPU caches

## Main results

* `Pmm.Accounted.buddyAlloc`, `Pmm.Accounted.buddyFree`: the buddy system
* `Pmm.Inv.allocPage`, `Pmm.Inv.freePage`, `Pmm.Inv.allocPages`, `Pmm.Inv.freePages`,
  `Pmm.Inv.incref`, `Pmm.Inv.decref`: the public interface
-/

namespace Lume

namespace Pmm

/-- A step from `s` to `s'` took a block off the lists, with a fresh descriptor at its head. -/
structure Granted (R : Finset ℕ) (held : List Block) (p order : ℕ) (s s' : Pmm) : Prop where
  accounted : Accounted s' R held [⟨p, order⟩]
  steady : Steady held s s'
  pcp_eq : s'.pcp = s.pcp
  state_eq : (s'.pageMap p).state = .allocated
  order_eq : (s'.pageMap p).order = order
  refcount_eq : (s'.pageMap p).refcount = 1

namespace Accounted

variable {s : Pmm} {R : Finset ℕ} {held loose : List Block} {b : Block}

/-! ## The buddy system -/

theorem splitDown {p order : ℕ} (cur : ℕ) (hle : order ≤ cur)
    (h : Accounted s R held (⟨p, cur⟩ :: loose)) :
    Accounted (s.splitDown p order cur) R held (⟨p, order⟩ :: loose) ∧
      Steady held s (s.splitDown p order cur) ∧ (s.splitDown p order cur).pcp = s.pcp := by
  induction cur generalizing s with
  | zero =>
    obtain rfl : order = 0 := by omega
    exact ⟨h, .refl _ _, rfl⟩
  | succ cur ih =>
    rw [Pmm.splitDown]
    split
    · -- the halves of `⟨p, cur + 1⟩` are `⟨p, cur⟩` and `⟨p + 2 ^ cur, cur⟩`
      have hhalves : Accounted s R held (⟨p, cur⟩ :: ⟨p + 2 ^ cur, cur⟩ :: loose) :=
        h.split (Nat.succ_pos cur)
      have hswap := hhalves.perm (.refl _) (.swap ..)
      obtain ⟨hacc, hst, hpcp⟩ := ih (by omega) hswap.buddyListAdd
      exact ⟨hacc, hswap.steady_buddyListAdd.trans hst, hpcp⟩
    · obtain rfl : order = cur + 1 := by omega
      exact ⟨h, .refl _ _, rfl⟩

theorem buddyAllocLoop {order : ℕ} (n : ℕ) (hn : order + n ≤ kMaxOrder)
    (h : Accounted s R held []) : s.buddyAllocLoop order n = (none, s) ∨
      ∃ p s', s.buddyAllocLoop order n = (some p, s') ∧ Granted R held p order s s' := by
  induction n with
  | zero => exact .inl rfl
  | succ n ih =>
    rw [Pmm.buddyAllocLoop]
    cases hl : s.freeAreas (kMaxOrder - (n + 1)) with
    | nil => exact ih (by omega)
    | cons p l =>
      have hp : p ∈ s.freeAreas (kMaxOrder - (n + 1)) := by simp [hl]
      obtain ⟨hacc, hst, hpcp⟩ := (h.buddyListDel hp).splitDown _ (by omega : order ≤ _)
      refine .inr ⟨p, _, rfl, hacc.setPage _, ?_, hpcp, by simp, by simp, by simp⟩
      exact Steady.trans ⟨hst.ram_eq, hst.batch_eq, hst.high_eq, hst.page_eq⟩
        (hacc.steady_setPage _)

/-- **`buddy_alloc`**: failure changes nothing, and success takes a block of the requested order
off the lists. -/
theorem buddyAlloc {order : ℕ} (ho : order < kMaxOrder) (h : Accounted s R held []) :
    s.buddyAlloc order = (none, s) ∨
      ∃ p s', s.buddyAlloc order = (some p, s') ∧ Granted R held p order s s' :=
  h.buddyAllocLoop _ (by omega)

/-- **`buddy_free`**: the block in hand climbs through its free buddies and ends on a list. -/
theorem buddyFreeLoop (n : ℕ) (hn : b.order + n + 1 = kMaxOrder) (h : Accounted s R held [b]) :
    Accounted (s.buddyFreeLoop b.start b.order n) R held [] ∧
      Steady held s (s.buddyFreeLoop b.start b.order n) ∧
      (s.buddyFreeLoop b.start b.order n).pcp = s.pcp := by
  have hadd : Accounted (s.buddyListAdd b.start b.order) R held [] ∧
      Steady held s (s.buddyListAdd b.start b.order) ∧
      (s.buddyListAdd b.start b.order).pcp = s.pcp :=
    ⟨h.buddyListAdd, h.steady_buddyListAdd, rfl⟩
  induction n generalizing s b with
  | zero => exact hadd
  | succ n ih =>
    rw [Pmm.buddyFreeLoop]
    by_cases hin : s.numPages ≤ b.buddy.start
    · rw [show s.buddyOf b.start b.order = none from if_pos hin]
      exact hadd
    rw [show s.buddyOf b.start b.order = some b.buddy.start from if_neg hin]
    dsimp only
    split
    · exact hadd
    rename_i hfree
    rw [not_or, not_not, not_not] at hfree
    have hmem := h.buddy_mem_freeAreas (by omega) hfree.1 hfree.2
    have hdel : Accounted (s.buddyListDel b.buddy.start) R held [b.buddy, b] :=
      h.buddyListDel hmem
    have hpar := hdel.merge (by omega)
    have hmin : (if b.buddy.start < b.start then b.buddy.start else b.start) =
        b.parent.start := by
      simp only [Block.parent]
      split <;> omega
    rw [hmin]
    obtain ⟨hacc, hst, hpcp⟩ := ih (b := b.parent) (by rw [Block.parent_order]; omega) hpar
      ⟨hpar.buddyListAdd, hpar.steady_buddyListAdd, rfl⟩
    exact ⟨hacc, ⟨hst.ram_eq, hst.batch_eq, hst.high_eq, hst.page_eq⟩, hpcp⟩

theorem buddyFree (h : Accounted s R held [b]) : Accounted (s.buddyFree b.start b.order) R held [] ∧
      Steady held s (s.buddyFree b.start b.order) ∧ (s.buddyFree b.start b.order).pcp = s.pcp :=
  h.buddyFreeLoop _ (by have := (h.loose_ok b (List.mem_cons_self ..)).order_lt; omega)

/-! ## The per-CPU caches -/

theorem refillLoop {c : ℕ} (hc : c < kMaxCpus) (n : ℕ) (h : Accounted s R held []) :
    Accounted (s.refillLoop c n) R held [] ∧ Steady held s (s.refillLoop c n) ∧
      ((s.refillLoop c n).pcp c).count ≤ (s.pcp c).count + n ∧
      ∀ j, j ≠ c → (s.refillLoop c n).pcp j = s.pcp j := by
  induction n generalizing s with
  | zero => exact ⟨h, .refl _ _, le_rfl, fun _ _ => rfl⟩
  | succ n ih =>
    rw [Pmm.refillLoop]
    rcases h.buddyAlloc (by decide : 0 < kMaxOrder) with he | ⟨p, s', he, hg⟩ <;> rw [he] <;>
      dsimp only
    · exact ⟨h, .refl _ _, Nat.le_add_right .., fun _ _ => rfl⟩
    · have hset := hg.accounted.setPage fun d => { d with state := .pcpCached }
      obtain ⟨hacc, hst, hle, hpcp⟩ := ih (hset.pcpPush hc (by simp))
      have hst' := hg.steady.trans
        (hg.accounted.steady_setPage fun d => { d with state := .pcpCached })
      refine ⟨hacc, hst'.trans ⟨hst.ram_eq, hst.batch_eq, hst.high_eq, hst.page_eq⟩, ?_, ?_⟩
      · simp only [pcp_pcpPush_self, pcp_setPage, hg.pcp_eq] at hle
        omega
      · intro j hj
        rw [hpcp j hj, pcp_pcpPush_of_ne hj, pcp_setPage, hg.pcp_eq]

theorem drainLoop {c : ℕ} (n : ℕ) (h : Accounted s R held []) :
    Accounted (s.drainLoop c n) R held [] ∧ Steady held s (s.drainLoop c n) ∧
      ((s.drainLoop c n).pcp c).count = (s.pcp c).count - n ∧
      ∀ j, j ≠ c → (s.drainLoop c n).pcp j = s.pcp j := by
  induction n generalizing s with
  | zero => exact ⟨h, .refl _ _, rfl, fun _ _ => rfl⟩
  | succ n ih =>
    rw [Pmm.drainLoop]
    cases hl : (s.pcp c).freeList with
    | nil =>
      have hcount := h.count_eq c
      rw [hl] at hcount
      exact ⟨h, .refl _ _, by simp [hcount], fun _ _ => rfl⟩
    | cons p l =>
      obtain ⟨hfree, hst, hpcp⟩ := (h.pcpPop hl).buddyFree
      obtain ⟨hacc, hst', hcount, hother⟩ := ih hfree
      have hst'' : Steady held s ((s.pcpPop c).buddyFree p 0) :=
        ⟨hst.ram_eq, hst.batch_eq, hst.high_eq, hst.page_eq⟩
      refine ⟨hacc, hst''.trans hst', ?_, fun j hj => ?_⟩
      · rw [hcount, hpcp, pcp_pcpPop_self, Nat.sub_sub, Nat.add_comm]
      · rw [hother j hj, hpcp, pcp_pcpPop_of_ne hj]

end Accounted

/-! ## The public interface -/

/-- The allocator between two calls. -/
structure Inv (s : Pmm) (R : Finset ℕ) (held : List Block) : Prop where
  accounted : Accounted s R held []
  count_lt : ∀ c, (s.pcp c).count < s.pcpHighWatermark
  high_eq : s.pcpHighWatermark = s.pcpBatchSize * 2

namespace Inv

variable {s : Pmm} {R : Finset ℕ} {held : List Block} {b : Block} {c p : ℕ}

section

variable (h : Inv s R held)
include h

theorem batch_pos : 0 < s.pcpBatchSize := by
  have h₁ := h.count_lt 0
  have h₂ := h.high_eq
  omega

theorem of_steady {s' : Pmm} {held' kept : List Block}
    (hacc : Accounted s' R held' []) (hst : Steady kept s s')
    (hcount : ∀ c, (s'.pcp c).count < s.pcpHighWatermark) : Inv s' R held' :=
  ⟨hacc, fun c => hst.high_eq ▸ hcount c, by rw [hst.high_eq, hst.batch_eq, h.high_eq]⟩

theorem perm {held' : List Block} (hp : held.Perm held') : Inv s R held' :=
  ⟨h.accounted.perm hp (.refl _), h.count_lt, h.high_eq⟩

theorem setPage (hb : b ∈ held) {f : Page → Page} (hfree : (f (s.pageMap b.start)).state ≠ .free)
    (hpcp : (f (s.pageMap b.start)).state ≠ .pcpCached)
    (ho : (f (s.pageMap b.start)).order = b.order) : Inv (s.setPage b.start f) R held :=
  ⟨h.accounted.setPage_held hb hfree hpcp ho, h.count_lt, h.high_eq⟩

theorem refillPcp (hc : c < kMaxCpus) (hz : (s.pcp c).count = 0) :
    Inv (s.refillPcp c) R held ∧ Steady held s (s.refillPcp c) := by
  rw [Pmm.refillPcp]
  obtain ⟨hacc, hst, hle, hother⟩ := h.accounted.refillLoop hc s.pcpBatchSize
  refine ⟨h.of_steady hacc hst fun j => ?_, hst⟩
  rcases eq_or_ne j c with rfl | hne
  · have := h.high_eq
    have := h.batch_pos
    omega
  · rw [hother j hne]
    exact h.count_lt j

end

/-- The outcome of a call that may hand out one block. -/
inductive Outcome (R : Finset ℕ) (held : List Block) (order : ℕ) (s : Pmm) :
    Option ℕ × Pmm → Prop
  | fail {s' : Pmm} (inv : Inv s' R held) (steady : Steady held s s') :
      Outcome R held order s (none, s')
  | grant {p : ℕ} {s' : Pmm} (inv : Inv s' R (⟨p, order⟩ :: held)) (steady : Steady held s s')
      (state_eq : (s'.pageMap p).state = .allocated)
      (refcount_eq : (s'.pageMap p).refcount = 1) :
      Outcome R held order s (some p, s')

theorem takeCached (h : Inv s R held) (c : ℕ) : Outcome R held 0 s (s.takeCached c) := by
  rw [Pmm.takeCached]
  split
  · exact .fail h (.refl _ _)
  cases hl : (s.pcp c).freeList with
  | nil => exact .fail h (.refl _ _)
  | cons p l =>
    have hpop := h.accounted.pcpPop hl
    have hset := hpop.setPage fun d => { d with state := .allocated, order := 0, refcount := 1 }
    have hst := hpop.steady_setPage fun d =>
      { d with state := .allocated, order := 0, refcount := 1 }
    have hst' : Steady held s _ := ⟨hst.ram_eq, hst.batch_eq, hst.high_eq, hst.page_eq⟩
    refine .grant (h.of_steady (hset.hold (by simp) (by simp) (by simp)) hst' fun j => ?_) hst'
      (by simp) (by simp)
    rw [pcp_setPage]
    rcases eq_or_ne j c with rfl | hne
    · have := h.count_lt j
      rw [pcp_pcpPop_self]
      dsimp only
      omega
    · rw [pcp_pcpPop_of_ne hne]
      exact h.count_lt j

theorem Outcome.trans {s' : Pmm} {order : ℕ} {r : Option ℕ × Pmm} (hst : Steady held s s')
    (h : Outcome R held order s' r) : Outcome R held order s r := by
  cases h with
  | fail inv steady => exact .fail inv (hst.trans steady)
  | grant inv steady hs hr => exact .grant inv (hst.trans steady) hs hr

section

variable (h : Inv s R held)
include h

/-- **`pmm_alloc_page`** -/
theorem allocPage (hc : c < kMaxCpus) : Outcome R held 0 s (s.allocPage c) := by
  rw [Pmm.allocPage]
  split
  · rename_i hz
    obtain ⟨hinv, hst⟩ := h.refillPcp hc hz
    exact (hinv.takeCached c).trans hst
  · exact h.takeCached c

/-- **`pmm_alloc_pages`** -/
theorem allocPages (order : ℕ) : Outcome R held order s (s.allocPages order) := by
  rw [Pmm.allocPages]
  split
  · exact .fail h (.refl _ _)
  rcases h.accounted.buddyAlloc (by omega : order < kMaxOrder) with he | ⟨p, s', he, hg⟩ <;>
    rw [he]
  · exact .fail h (.refl _ _)
  · have hhold := hg.accounted.hold (by simp [hg.state_eq]) (by simp [hg.state_eq]) hg.order_eq
    exact .grant (h.of_steady hhold hg.steady (by rw [hg.pcp_eq]; exact h.count_lt)) hg.steady
      hg.state_eq hg.refcount_eq

theorem cachePage (hc : c < kMaxCpus) (hp : ⟨p, 0⟩ ∈ held) :
    Accounted (s.cachePage c p) R (held.erase ⟨p, 0⟩) [] ∧
      Steady (held.erase ⟨p, 0⟩) s (s.cachePage c p) ∧
      ((s.cachePage c p).pcp c).count = (s.pcp c).count + 1 ∧
      ∀ j, j ≠ c → (s.cachePage c p).pcp j = s.pcp j := by
  have hdrop := h.accounted.drop hp
  have hst := hdrop.steady_setPage fun d => { d with state := .pcpCached, order := 0 }
  have hset := hdrop.setPage fun d => { d with state := .pcpCached, order := 0 }
  refine ⟨hset.pcpPush hc (by simp), ⟨hst.ram_eq, hst.batch_eq, hst.high_eq, hst.page_eq⟩,
    by simp [Pmm.cachePage], fun j hj => ?_⟩
  rw [Pmm.cachePage, pcp_pcpPush_of_ne hj, pcp_setPage]

/-- **`pmm_free_page`**: a cache that reaches the watermark gives half of its pages back. -/
theorem freePage (hc : c < kMaxCpus) (hp : ⟨p, 0⟩ ∈ held) :
    Inv (s.freePage c p) R (held.erase ⟨p, 0⟩) ∧ Steady (held.erase ⟨p, 0⟩) s (s.freePage c p) := by
  obtain ⟨hacc, hst, hcount, hother⟩ := h.cachePage hc hp
  rw [Pmm.freePage]
  split
  · rw [Pmm.drainPcp]
    obtain ⟨hacc', hst', hcount', hother'⟩ :=
      hacc.drainLoop (c := c) (((s.cachePage c p).pcp c).count / 2)
    refine ⟨h.of_steady hacc' (hst.trans hst') fun j => ?_, hst.trans hst'⟩
    have hlt := h.count_lt j
    rcases eq_or_ne j c with rfl | hne
    · have := h.high_eq
      have := h.batch_pos
      omega
    · rwa [hother' j hne, hother j hne]
  · rename_i hbelow
    refine ⟨h.of_steady hacc hst fun j => ?_, hst⟩
    rcases eq_or_ne j c with rfl | hne
    · have := hst.high_eq
      omega
    · rw [hother j hne]
      exact h.count_lt j

/-- **`pmm_free_pages`** -/
theorem freePages (hb : b ∈ held) : Inv (s.freePages b.start b.order) R (held.erase b) ∧
      Steady (held.erase b) s (s.freePages b.start b.order) := by
  have ho := (h.accounted.held_ok b hb).1.order_lt
  rw [Pmm.freePages, if_neg (by omega)]
  obtain ⟨hacc, hst, hpcp⟩ := (h.accounted.drop hb).buddyFree
  exact ⟨h.of_steady hacc hst (by rw [hpcp]; exact h.count_lt), hst⟩

theorem setRefcount (p : ℕ) (f : ℕ → ℕ) :
    Inv (s.setPage p fun d => { d with refcount := f d.refcount }) R held := by
  have hmeta (q : ℕ) :
      ((s.setPage p fun d => { d with refcount := f d.refcount }).pageMap q).state =
        (s.pageMap q).state ∧
      ((s.setPage p fun d => { d with refcount := f d.refcount }).pageMap q).order =
        (s.pageMap q).order := by
    rcases eq_or_ne q p with rfl | hne
    · simp
    · simp [pageMap_setPage_of_ne hne]
  refine ⟨⟨h.accounted.cover_eq, fun o q hq => ?_, fun c q hq => ?_, h.accounted.count_eq,
    fun b hb => ?_, h.accounted.loose_ok, fun i hi => ?_⟩, h.count_lt, h.high_eq⟩
  · rw [(hmeta q).1, (hmeta q).2]
    exact h.accounted.free o q hq
  · rw [(hmeta q).1]
    exact h.accounted.cached c q hq
  · rw [(hmeta _).1, (hmeta _).2]
    exact h.accounted.held_ok b hb
  · rw [(hmeta i).1]
    exact h.accounted.reserved i hi

/-- **`page_incref`** -/
theorem incref (p : ℕ) : Inv (s.incref p) R held :=
  h.setRefcount p fun n => (n + 1) % 2 ^ 32

theorem release (hc : c < kMaxCpus) (hb : b ∈ held) :
    Inv (if (s.pageMap b.start).order = 0 then s.freePage c b.start
      else s.freePages b.start (s.pageMap b.start).order) R (held.erase b) ∧
    Steady (held.erase b) s (if (s.pageMap b.start).order = 0 then s.freePage c b.start
      else s.freePages b.start (s.pageMap b.start).order) := by
  rw [(h.accounted.held_ok b hb).2.2.2]
  split
  · rename_i ho
    have hb' : (⟨b.start, 0⟩ : Block) = b := by rw [← ho]
    have := h.freePage hc (hb' ▸ hb)
    rwa [hb'] at this
  · exact h.freePages hb

/-- **`page_decref`** on a held block: the last reference gives the block back. -/
theorem decref (hc : c < kMaxCpus) (hb : b ∈ held) : if (s.pageMap b.start).refcount = 1 then
      Inv (s.decref c b.start) R (held.erase b) ∧ Steady (held.erase b) s (s.decref c b.start) else
      Inv (s.decref c b.start) R held ∧ s.decref c b.start = s.setPage b.start fun d =>
          { d with refcount := (d.refcount + 2 ^ 32 - 1) % 2 ^ 32 } := by
  have hset := h.setRefcount b.start fun n => (n + 2 ^ 32 - 1) % 2 ^ 32
  have hst := (h.accounted.drop hb).steady_setPage fun d =>
    { d with refcount := (d.refcount + 2 ^ 32 - 1) % 2 ^ 32 }
  rw [Pmm.decref]
  split
  · obtain ⟨hinv, hst'⟩ := hset.release hc hb
    exact ⟨hinv, hst.trans hst'⟩
  · exact ⟨hset, rfl⟩

end

end Inv

end Pmm

end Lume
