import Lume.Slab.Model
import Lume.Slab.Descriptors
import Lume.Pmm.System

/-!
# The pages of the slab allocator

The invariant accounts for every slot of every slab page: it is on the free list of the page, or in
use. Which slots are in use is a parameter here; the callers decide it.

## Main definitions

* `Slab.PageOk`, `Slab.Valid`: the invariant, of one page and of the whole
* `Slab.Taken`: what an allocation has done

## Main results

* `Slab.Valid.alloc`: `KmemCache::alloc`
* `Slab.Valid.free`: `KmemCache::free`, if no other CPU has the page as its active one
-/

namespace Lume

open Function (update update_apply update_of_ne update_self)

open Slab

/-! ## Size classes -/

/-- `obj_size_` of the cache of a class. -/
def classSize (i : ℕ) : ℕ := (KmemCache.init (kSizeClasses.getD i 0) 8).objSize

theorem classSize_mem (i : ℕ) : classSize i ∈ kSizeClasses := by
  rcases Nat.lt_or_ge i kSizeClasses.length with hi | hi
  · have hall : ∀ j < kSizeClasses.length, classSize j ∈ kSizeClasses := by decide
    exact hall i hi
  · have hz : kSizeClasses.getD i 0 = 0 := List.getD_eq_default _ _ hi
    rw [classSize, hz]
    decide

theorem classSize_pos (i : ℕ) : 0 < classSize i := by
  have hall : ∀ n ∈ kSizeClasses, 0 < n := by decide
  exact hall _ (classSize_mem i)

theorem div_classSize_mul (i : ℕ) : kPageSize / classSize i * classSize i = kPageSize := by
  have hall : ∀ n ∈ kSizeClasses, kPageSize / n * n = kPageSize := by decide
  exact hall _ (classSize_mem i)

theorem div_classSize_bounds (i : ℕ) : 0 < kPageSize / classSize i ∧ kPageSize / classSize i ≤ 512 := by
  have hall : ∀ n ∈ kSizeClasses, 0 < kPageSize / n ∧ kPageSize / n ≤ 512 := by decide
  exact hall _ (classSize_mem i)

/-! ## Addresses -/

namespace Ram

variable (ram : Ram) {a p : ℕ}

/-- The page of an address. -/
def pageOf (a : ℕ) : ℕ := (a - ram.memBase) / kPageSize

variable {ram}

theorem pageOf_eq (hle : ram.pageToPa p ≤ a) (hlt : a < ram.pageToPa p + kPageSize) :
    ram.pageOf a = p := by
  simp only [pageOf, pageToPa, kPageSize] at *
  omega

theorem paToPage_pageAlignDown (hp : p < ram.numPages) (hle : ram.pageToPa p ≤ a)
    (hlt : a < ram.pageToPa p + kPageSize) : ram.paToPage (pageAlignDown a) = some p := by
  have hdown : pageAlignDown a = ram.pageToPa p := by
    have hdvd := ram.pageToPa_aligned p
    simp only [pageAlignDown, kPageSize] at *
    omega
  rw [hdown, ram.paToPage_pageToPa hp]

end Ram

/-! ## The invariant -/

namespace Slab

/-- The addresses of the slots of page `p` of class `i`. -/
def slotsOf (s : Slab) (p i : ℕ) : List ℕ :=
  slots (s.pmm.ram.pageToPa p) (classSize i) (kPageSize / classSize i)

/-- Single pages, as blocks. -/
def pageBlocks (P : List ℕ) : List Block := P.map (⟨·, 0⟩)

/-- Page `p` backs cache `i`: every slot is on the free list `F`, or among those in use, `U`. -/
structure PageOk (s : Slab) (p i : ℕ) (F U : List ℕ) : Prop where
  state : (s.pmm.pageMap p).state = .slab
  cache : (s.pmm.pageMap p).slab.cache = some i
  thread : Threaded s.mem (s.pmm.pageMap p).slab.freelist F
  perm : (F ++ U).Perm (s.slotsOf p i)
  count : (s.pmm.pageMap p).slab.objCount = U.length

/-- The invariant: `P` are the slab pages, page `p` of class `cls p` with the free slots `F p` and
the slots `U p` in use. `B` are the blocks that others have from the page allocator. -/
structure Valid (s : Slab) (R : Finset ℕ) (B : List Block) (P : List ℕ) (cls : ℕ → ℕ)
    (F U : ℕ → List ℕ) : Prop where
  inv : Pmm.Inv s.pmm R (pageBlocks P ++ B)
  caches : ∀ i, (s.caches i).objSize = classSize i ∧
    (s.caches i).objsPerSlab = kPageSize / classSize i
  page : ∀ p ∈ P, s.PageOk p (cls p) (F p) (U p)
  only : ∀ p, (s.pmm.pageMap p).state = .slab → p ∈ P
  unused : ∀ p, p ∉ P → U p = []
  active : ∀ {i c p}, (s.caches i).active c = some p → p ∈ P ∧ cls p = i ∧ c < kMaxCpus

section Page

variable {s s' : Slab} {p q i a : ℕ} {F U : List ℕ}

theorem slot_page (ha : a ∈ s.slotsOf p i) :
    s.pmm.ram.pageToPa p ≤ a ∧ a + classSize i ≤ s.pmm.ram.pageToPa p + kPageSize := by
  obtain ⟨hle, hlt⟩ := slot_bounds ha
  rw [div_classSize_mul] at hlt
  exact ⟨hle, hlt⟩

theorem pageOf_slot (ha : a ∈ s.slotsOf p i) : s.pmm.ram.pageOf a = p := by
  obtain ⟨hle, hlt⟩ := slot_page ha
  exact Ram.pageOf_eq hle (lt_of_lt_of_le (Nat.lt_add_of_pos_right (classSize_pos i)) hlt)

namespace PageOk

section

variable (h : s.PageOk p i F U)
include h

theorem mem_slots_of_free (ha : a ∈ F) : a ∈ s.slotsOf p i :=
  h.perm.subset (List.mem_append_left _ ha)

theorem mem_slots_of_used (ha : a ∈ U) : a ∈ s.slotsOf p i :=
  h.perm.subset (List.mem_append_right _ ha)

theorem nodup : (F ++ U).Nodup := by
  rw [h.perm.nodup_iff]
  exact nodup_slots (classSize_pos i)

theorem length : F.length + U.length = kPageSize / classSize i := by
  have hlen := h.perm.length_eq
  rwa [List.length_append, slotsOf, length_slots] at hlen

theorem congr (hram : s'.pmm.ram = s.pmm.ram)
    (hpage : s'.pmm.pageMap p = s.pmm.pageMap p) (hmem : ∀ a ∈ F, s'.mem a = s.mem a) :
    s'.PageOk p i F U := by
  refine ⟨hpage ▸ h.state, hpage ▸ h.cache, ?_, ?_, hpage ▸ h.count⟩
  · rw [hpage]
    exact h.thread.congr hmem
  · rw [slotsOf, hram]
    exact h.perm

end

end PageOk

end Page

namespace Valid

variable {s s' : Slab} {R : Finset ℕ} {B : List Block} {P : List ℕ} {cls : ℕ → ℕ}
  {F U : ℕ → List ℕ} {p q i c a : ℕ}

theorem mem_pages (hp : p ∈ P) : (⟨p, 0⟩ : Block) ∈ pageBlocks P :=
  List.mem_map.mpr ⟨p, hp, rfl⟩

theorem held (hp : p ∈ P) : (⟨p, 0⟩ : Block) ∈ pageBlocks P ++ B :=
  List.mem_append_left _ (mem_pages hp)

section

variable (h : s.Valid R B P cls F U)
include h

theorem lt (hp : p ∈ P) : p < s.pmm.ram.numPages :=
  (h.inv.accounted.held_ok _ (held hp)).1.start_lt

theorem nodup : P.Nodup := by
  have hsub : (pageBlocks P).Sublist (s.pmm.blocks (pageBlocks P ++ B) []) := by
    rw [Pmm.blocks, List.append_nil]
    exact (List.sublist_append_left ..).trans (List.sublist_append_right ..)
  exact (h.inv.accounted.nodup_blocks.sublist hsub).of_map

theorem slot_ne (hq : q ∈ P) (hne : q ≠ p)
    (ha : a ∈ F q ++ U q) {b : ℕ} (hb : b ∈ s.slotsOf p i) : a ≠ b := by
  rintro rfl
  have hq' := pageOf_slot ((h.page q hq).perm.subset ha)
  exact hne (hq'.symm.trans (pageOf_slot hb))

theorem setPage (hp : p ∈ P) {f : Page → Page} {m : ℕ → Option ℕ}
    {Fp Up : List ℕ} (hstate : (f (s.pmm.pageMap p)).state = .slab)
    (horder : (f (s.pmm.pageMap p)).order = (s.pmm.pageMap p).order)
    (hmem : ∀ a, a ∉ s.slotsOf p (cls p) → m a = s.mem a)
    (hok : PageOk { s with pmm := s.pmm.setPage p f, mem := m } p (cls p) Fp Up) :
    Valid { s with pmm := s.pmm.setPage p f, mem := m } R B P cls (update F p Fp)
      (update U p Up) := by
  have hheld := h.inv.accounted.held_ok _ (held (B := B) hp)
  refine ⟨?_, h.caches, fun q hq => ?_, fun q hq => ?_, fun q hq => ?_, h.active⟩
  · exact h.inv.setPage (b := ⟨p, 0⟩) (held hp) (by simp [hstate]) (by simp [hstate])
      (horder.trans hheld.2.2.2)
  · rcases eq_or_ne q p with rfl | hne
    · rwa [update_self, update_self]
    · rw [update_of_ne hne, update_of_ne hne]
      refine (h.page q hq).congr rfl (Pmm.pageMap_setPage_of_ne hne) fun a ha => hmem a fun hslot => ?_
      exact h.slot_ne hq hne (List.mem_append_left _ ha) hslot rfl
  · rcases eq_or_ne q p with rfl | hne
    · exact hp
    · refine h.only q ?_
      rwa [show _ = _ from Pmm.pageMap_setPage_of_ne hne] at hq
  · rw [update_of_ne (ne_of_mem_of_not_mem hp hq).symm]
    exact h.unused q hq

theorem pop (hp : p ∈ P) {rest : List ℕ} (hF : F p = a :: rest) :
    (s.pop p a).Valid R B P cls (update F p rest) (update U p (a :: U p)) := by
  have hpage := h.page p hp
  rw [hF] at hpage
  have hlen := hpage.length
  have hbound := (div_classSize_bounds (cls p)).2
  rw [List.length_cons] at hlen
  refine h.setPage (m := s.mem) hp hpage.state rfl (fun _ _ => rfl) ⟨?_, ?_, ?_, ?_, ?_⟩
  · rw [Pmm.pageMap_setPage_self]
    exact hpage.state
  · rw [Pmm.pageMap_setPage_self]
    exact hpage.cache
  · rw [Pmm.pageMap_setPage_self]
    exact hpage.thread.2
  · exact List.perm_middle.trans hpage.perm
  · rw [Pmm.pageMap_setPage_self, hpage.count, List.length_cons]
    exact Nat.mod_eq_of_lt (by omega)

end

theorem pred_word {n : ℕ} (hpos : 0 < n) (hle : n ≤ 512) : (n + 2 ^ 32 - 1) % 2 ^ 32 = n - 1 := by
  omega

theorem cache_eq (d : Page) (n : ℕ) (head : Option ℕ) :
    ({ d with slab.freelist := head, slab.objCount := n } : Page).slab.cache = d.slab.cache := rfl

theorem push (h : s.Valid R B P cls F U) (hp : p ∈ P) (ha : a ∈ U p) :
    (s.push p a).Valid R B P cls (update F p (a :: F p)) (update U p ((U p).erase a)) := by
  have hpage := h.page p hp
  have hlen := hpage.length
  have hbound := (div_classSize_bounds (cls p)).2
  have hpos := List.length_pos_of_mem ha
  have hslot := hpage.mem_slots_of_used ha
  have hfree : a ∉ F p := fun hmem => List.disjoint_of_nodup_append hpage.nodup hmem ha
  refine h.setPage hp hpage.state rfl (fun b hb => update_of_ne ?_ ..) ⟨?_, ?_, ?_, ?_, ?_⟩
  · rintro rfl
    exact hb hslot
  · rw [Pmm.pageMap_setPage_self]
    exact hpage.state
  · rw [Pmm.pageMap_setPage_self]
    exact (cache_eq ..).trans hpage.cache
  · rw [Pmm.pageMap_setPage_self]
    exact hpage.thread.push hfree
  · have hback := (List.perm_cons_erase ha).append_left (F p)
    exact (List.perm_middle.symm.trans hback.symm).trans hpage.perm
  · rw [Pmm.pageMap_setPage_self, List.length_erase_of_mem ha]
    refine Eq.trans ?_ (pred_word hpos (by omega))
    rw [← hpage.count]

theorem setActive (h : s.Valid R B P cls F U) (i : ℕ) (hc : c < kMaxCpus) {o : Option ℕ}
    (ho : ∀ p, o = some p → p ∈ P ∧ cls p = i) : (s.setActive i c o).Valid R B P cls F U := by
  refine ⟨h.inv, fun j => ?_, fun q hq => (h.page q hq).congr rfl rfl fun _ _ => rfl, h.only, h.unused,
    fun {j d q} hj => ?_⟩
  · rcases eq_or_ne j i with rfl | hne
    · simpa [Slab.setActive] using h.caches j
    · simpa [Slab.setActive, update_of_ne hne] using h.caches j
  · rcases eq_or_ne j i with rfl | hne
    · simp only [Slab.setActive, update_self, update_apply] at hj
      split at hj
      · rename_i hd
        obtain ⟨hq, hcls⟩ := ho q hj
        exact ⟨hq, hcls, hd ▸ hc⟩
      · exact h.active hj
    · simp only [Slab.setActive, update_of_ne hne] at hj
      exact h.active hj

end Valid

/-! ## A fresh page -/

theorem formatLoop_spec (base : ℕ) {size : ℕ} (hsize : 0 < size) (n : ℕ) {head : Option ℕ}
    {mem : ℕ → Option ℕ} {xs : List ℕ} (h : Threaded mem head xs)
    (hxs : ∀ x ∈ xs, base + n * size ≤ x) :
    Threaded (formatLoop base size n head mem).2 (formatLoop base size n head mem).1
        (slots base size n ++ xs) ∧
      ∀ a, a ∉ slots base size n → (formatLoop base size n head mem).2 a = mem a := by
  induction n generalizing head mem xs with
  | zero => exact ⟨h, fun _ _ => rfl⟩
  | succ n ih =>
    have hlt : base + n * size < base + (n + 1) * size := by
      rw [Nat.add_mul, Nat.one_mul]
      omega
    have hnew : base + n * size ∉ xs := fun hmem => absurd (hxs _ hmem) (not_le.mpr hlt)
    obtain ⟨hthread, hkept⟩ := ih (h.push hnew) (by
      rintro x hx
      rcases List.mem_cons.mp hx with rfl | hx
      · exact le_rfl
      · exact hlt.le.trans (hxs x hx))
    rw [slots_succ]
    refine ⟨?_, fun a ha => ?_⟩
    · rw [List.append_assoc]
      exact hthread
    · rw [List.mem_append, not_or, List.mem_singleton] at ha
      rw [formatLoop, hkept a ha.1, update_of_ne ha.2]

/-- What an allocation of class `i` has done: it found no page, or took slot `a` of page `p`. -/
inductive Taken (s : Slab) (R : Finset ℕ) (B : List Block) (P : List ℕ) (cls : ℕ → ℕ)
    (U : ℕ → List ℕ) (i : ℕ) : Option ℕ × Slab → Prop
  | fail {s' : Slab} {F' : ℕ → List ℕ} (valid : s'.Valid R B P cls F' U)
      (steady : Pmm.Steady B s.pmm s'.pmm) : Taken s R B P cls U i (none, s')
  | grant {a p : ℕ} {s' : Slab} {P' : List ℕ} {cls' : ℕ → ℕ} {F' : ℕ → List ℕ}
      (valid : s'.Valid R B P' cls' F' (update U p (a :: U p)))
      (steady : Pmm.Steady B s.pmm s'.pmm) (mem : p ∈ P') (cls_eq : cls' p = i)
      (slot : a ∈ s'.slotsOf p i) (old : ∀ q ∈ P, q ∈ P' ∧ cls' q = cls q)
      (new : ∀ q ∈ P', q = p ∨ q ∈ P) : Taken s R B P cls U i (some a, s')

namespace Valid

variable {s s' : Slab} {R : Finset ℕ} {B : List Block} {P : List ℕ} {cls : ℕ → ℕ}
  {F U : ℕ → List ℕ} {p q i c a : ℕ}

section

variable (h : s.Valid R B P cls F U)
include h

theorem newSlab (i : ℕ) (hc : c < kMaxCpus) :
    (∃ s', s.newSlab i c = (none, s') ∧ s'.Valid R B P cls F U ∧ Pmm.Steady B s.pmm s'.pmm) ∨
      ∃ p s', s.newSlab i c = (some p, s') ∧ p ∉ P ∧
        s'.Valid R B (p :: P) (update cls p i) (update F p (s'.slotsOf p i)) U ∧
        Pmm.Steady B s.pmm s'.pmm ∧ s'.caches = s.caches := by
  have hB : ∀ b ∈ B, b ∈ pageBlocks P ++ B := fun b hb => List.mem_append_right _ hb
  have hout := h.inv.allocPage hc
  have hslab := s.pmm.noNewSlab_allocPage c
  unfold Slab.newSlab
  generalize s.pmm.allocPage c = r at hout hslab
  cases hout with
  | @fail pmm inv steady =>
    refine .inl ⟨_, rfl, ⟨inv, h.caches, fun q hq => ?_, fun q hq => ?_, h.unused, h.active⟩,
      steady.mono hB⟩
    · exact (h.page q hq).congr steady.ram_eq (steady.page_eq _ (held hq)) fun _ _ => rfl
    · exact h.only q (hslab.old q hq)
  | @grant p pmm inv steady state_eq =>
    have hfresh : p ∉ P := by
      intro hp
      have hst := (h.page p hp).state
      rw [← steady.page_eq _ (held hp), state_eq] at hst
      cases hst
    obtain ⟨hsize, hper⟩ := h.caches i
    obtain ⟨hthread, hkept⟩ := formatLoop_spec (pmm.ram.pageToPa p) (classSize_pos i)
      (kPageSize / classSize i) (show Threaded s.mem none [] from rfl) (fun _ hx => nomatch hx)
    rw [List.append_nil] at hthread
    dsimp only
    rw [hsize, hper]
    generalize formatLoop (pmm.ram.pageToPa p) (classSize i) (kPageSize / classSize i) none s.mem = r
      at hthread hkept
    have hself : (pmm.setPage p fun d => { d with state := .slab, slab := ⟨some i, 0, r.1⟩ }).pageMap p =
        { pmm.pageMap p with state := .slab, slab := ⟨some i, 0, r.1⟩ } := Pmm.pageMap_setPage_self ..
    have hother {q : ℕ} (hne : q ≠ p) :
        (pmm.setPage p fun d => { d with state := .slab, slab := ⟨some i, 0, r.1⟩ }).pageMap q =
          pmm.pageMap q := Pmm.pageMap_setPage_of_ne hne
    have hmine : (⟨p, 0⟩ : Block) ∈ ⟨p, 0⟩ :: (pageBlocks P ++ B) := List.mem_cons_self ..
    have hinv : Pmm.Inv (pmm.setPage p fun d => { d with state := .slab, slab := ⟨some i, 0, r.1⟩ }) R
        (⟨p, 0⟩ :: (pageBlocks P ++ B)) :=
      inv.setPage hmine (by simp) (by simp) (inv.accounted.held_ok _ hmine).2.2.2
    refine .inr ⟨p, _, rfl, hfresh, ⟨hinv, h.caches, fun q hq => ?_, fun q hq => ?_, fun q hq => ?_, ?_⟩,
      ?_, rfl⟩
    · rcases List.mem_cons.mp hq with rfl | hq
      · rw [update_self, update_self, h.unused q hfresh]
        refine ⟨?_, ?_, ?_, ?_, ?_⟩
        · rw [Pmm.pageMap_setPage_self]
        · rw [Pmm.pageMap_setPage_self]
        · rw [Pmm.pageMap_setPage_self]
          exact hthread
        · rw [List.append_nil]
        · rw [Pmm.pageMap_setPage_self]
          rfl
      · have hne := ne_of_mem_of_not_mem hq hfresh
        rw [update_of_ne hne, update_of_ne hne]
        refine (h.page q hq).congr steady.ram_eq ((hother hne).trans (steady.page_eq _ (held hq)))
          fun a ha => ?_
        -- the words of other pages stay as they are
        refine hkept a fun hslot => hne ?_
        rw [steady.ram_eq] at hslot
        have hq' := pageOf_slot ((h.page q hq).mem_slots_of_free ha)
        exact hq'.symm.trans (pageOf_slot (s := s) hslot)
    · rcases eq_or_ne q p with rfl | hne
      · exact List.mem_cons_self ..
      · refine List.mem_cons_of_mem _ (h.only q (hslab.old q ?_))
        rwa [hother hne] at hq
    · exact h.unused q fun hmem => hq (List.mem_cons_of_mem _ hmem)
    · intro j d q hj
      obtain ⟨hq, hcls, hd⟩ := h.active hj
      refine ⟨List.mem_cons_of_mem _ hq, ?_, hd⟩
      rwa [update_of_ne (ne_of_mem_of_not_mem hq hfresh)]
    · refine ⟨steady.ram_eq, steady.batch_eq, steady.high_eq, fun b hb => ?_⟩
      refine (hother fun he => ?_).trans (steady.page_eq b (hB b hb))
      -- the page is not the head of a block of others
      have hnodup := inv.accounted.drop hmine
      rw [List.erase_cons_head] at hnodup
      exact hnodup.start_ne_of_loose (Pmm.Accounted.mem_blocks_held (hB b hb)) he

theorem perm {B' : List Block} {U' : ℕ → List ℕ} (hB : B.Perm B')
    (hU : ∀ p, (U p).Perm (U' p)) : s.Valid R B' P cls F U' := by
  refine ⟨h.inv.perm (hB.append_left _), h.caches, fun p hp => ?_, h.only, fun p hp => ?_, h.active⟩
  · have hpage := h.page p hp
    exact ⟨hpage.state, hpage.cache, hpage.thread, ((hU p).symm.append_left _).trans hpage.perm,
      hpage.count.trans (hU p).length_eq⟩
  · have hperm := hU p
    rw [h.unused p hp] at hperm
    exact hperm.nil_eq.symm

theorem others {pmm : Pmm} {B' : List Block}
    (hinv : Pmm.Inv pmm R (pageBlocks P ++ B')) (hst : Pmm.Steady (pageBlocks P) s.pmm pmm)
    (hslab : Pmm.NoNewSlab s.pmm pmm) : Valid { s with pmm := pmm } R B' P cls F U := by
  refine ⟨hinv, h.caches, fun q hq => ?_, fun q hq => h.only q (hslab.old q hq), h.unused, h.active⟩
  exact (h.page q hq).congr hst.ram_eq (hst.page_eq _ (mem_pages hq)) fun _ _ => rfl

theorem steady_setPage (hp : p ∈ P) (f : Page → Page) : Pmm.Steady B s.pmm (s.pmm.setPage p f) := by
  refine ⟨rfl, rfl, rfl, fun b hb => Pmm.pageMap_setPage_of_ne fun he => ?_⟩
  have hdrop := h.inv.accounted.drop (held hp)
  have hmem : b ∈ (pageBlocks P ++ B).erase ⟨p, 0⟩ := by
    rw [List.erase_append_left _ (mem_pages hp)]
    exact List.mem_append_right _ hb
  exact hdrop.start_ne_of_loose (Pmm.Accounted.mem_blocks_held hmem) he

theorem steady_pop (hp : p ∈ P) : Pmm.Steady B s.pmm (s.pop p a).pmm := by
  dsimp only [Slab.pop]
  exact h.steady_setPage hp _

theorem steady_push (hp : p ∈ P) : Pmm.Steady B s.pmm (s.push p a).pmm := by
  dsimp only [Slab.push]
  exact h.steady_setPage hp _

theorem allocSlow (i : ℕ) (hc : c < kMaxCpus) : Taken s R B P cls U i (s.allocSlow i c) := by
  unfold Slab.allocSlow
  rcases h.newSlab i hc with ⟨s', he, hv, hst⟩ | ⟨p, s', he, hfresh, hv, hst, -⟩
  · rw [he]
    exact .fail hv hst
  · rw [he]
    have hmem : p ∈ p :: P := List.mem_cons_self ..
    have hact := hv.setActive i hc (o := some p) fun q hq => by
      obtain rfl := Option.some_injective _ hq
      exact ⟨hmem, update_self ..⟩
    -- a fresh page has a slot
    obtain ⟨a, rest, hslots⟩ : ∃ a rest, s'.slotsOf p i = a :: rest := by
      refine List.exists_cons_of_ne_nil fun hnil => ?_
      have hlen := congrArg List.length hnil
      rw [slotsOf, length_slots] at hlen
      exact (div_classSize_bounds i).1.ne' hlen
    have hfree : (update F p (s'.slotsOf p i)) p = a :: rest := by
      rw [update_self, hslots]
    have hthread := (hact.page p hmem).thread
    rw [hfree] at hthread
    dsimp only
    rw [show ((s'.setActive i c (some p)).pmm.pageMap p).slab.freelist = some a from hthread.1]
    have hpop := hact.pop hmem hfree
    refine .grant hpop (hst.trans (hact.steady_pop hmem)) hmem (update_self ..) ?_ ?_
      fun q hq => List.mem_cons.mp hq
    · change a ∈ s'.slotsOf p i
      rw [hslots]
      exact List.mem_cons_self ..
    · intro q hq
      exact ⟨List.mem_cons_of_mem _ hq, update_of_ne (ne_of_mem_of_not_mem hq hfresh) ..⟩

/-- **`KmemCache::alloc`** -/
theorem alloc (i : ℕ) (hc : c < kMaxCpus) : Taken s R B P cls U i (s.alloc i c) := by
  unfold Slab.alloc
  cases hact : (s.caches i).active c with
  | none => exact h.allocSlow i hc
  | some p =>
    obtain ⟨hp, rfl, -⟩ := h.active hact
    have hpage := h.page p hp
    cases hF : F p with
    | nil =>
      have hthread := hpage.thread
      rw [hF] at hthread
      dsimp only
      rw [show (s.pmm.pageMap p).slab.freelist = none from hthread]
      have hslow := (h.setActive (cls p) hc (o := none) nofun).allocSlow (cls p) hc
      generalize (s.setActive (cls p) c none).allocSlow (cls p) c = r at hslow
      cases hslow with
      | fail valid steady => exact .fail valid steady
      | grant valid steady mem cls_eq slot old new =>
        exact .grant valid steady mem cls_eq slot old new
    | cons a rest =>
      have hthread := hpage.thread
      rw [hF] at hthread
      dsimp only
      rw [show (s.pmm.pageMap p).slab.freelist = some a from hthread.1]
      refine .grant (h.pop hp hF) (h.steady_pop hp) hp rfl ?_ (fun q hq => ⟨hq, rfl⟩) fun q hq => .inr hq
      refine hpage.mem_slots_of_free ?_
      rw [hF]
      exact List.mem_cons_self ..

theorem retire (hp : p ∈ P) (hc : c < kMaxCpus) (hU : U p = [])
    (hother : ∀ d, (s.caches (cls p)).active d = some p → d = c) :
    (s.retire (cls p) c p).Valid R B (P.erase p) cls F U ∧
      Pmm.Steady B s.pmm (s.retire (cls p) c p).pmm := by
  -- the CPU forgets the page
  obtain ⟨s₁, hs₁, hpmm, hmem, hv₁, hact₁⟩ : ∃ s₁ : Slab,
      (if (s.caches (cls p)).active c = some p then s.setActive (cls p) c none else s) = s₁ ∧
      s₁.pmm = s.pmm ∧ s₁.mem = s.mem ∧ s₁.Valid R B P cls F U ∧
      ∀ j d, (s₁.caches j).active d ≠ some p := by
    refine ⟨_, rfl, ?_⟩
    have hnone {j d : ℕ} (hj : (s.caches j).active d = some p) : j = cls p ∧ d = c := by
      obtain ⟨-, rfl, -⟩ := h.active hj
      exact ⟨rfl, hother d hj⟩
    split
    · refine ⟨rfl, rfl, h.setActive _ hc nofun, fun j d hj => ?_⟩
      rcases eq_or_ne j (cls p) with rfl | hne
      · simp only [Slab.setActive, update_self, update_apply] at hj
        split at hj
        · cases hj
        · rename_i hd
          exact hd (hnone hj).2
      · simp only [Slab.setActive, update_of_ne hne] at hj
        exact hne (hnone hj).1
    · rename_i hne
      refine ⟨rfl, rfl, h, fun j d hj => hne ?_⟩
      obtain ⟨rfl, rfl⟩ := hnone hj
      exact hj
  have hpage := hv₁.page p hp
  have hclear := hv₁.inv.setPage (f := fun d => { d with slab.cache := none, slab.freelist := none })
    (b := ⟨p, 0⟩) (held hp) (by simp [hpage.state]) (by simp [hpage.state])
    (hv₁.inv.accounted.held_ok _ (held hp)).2.2.2
  have hst₁ := hv₁.steady_setPage hp fun d => { d with slab.cache := none, slab.freelist := none }
  have hkept {q : ℕ} (hne : q ≠ p) : (s₁.pmm.setPage p fun d =>
      { d with slab.cache := none, slab.freelist := none }).pageMap q = s₁.pmm.pageMap q :=
    Pmm.pageMap_setPage_of_ne hne
  unfold Slab.retire
  rw [hs₁]
  rw [← hpmm]
  dsimp only
  generalize s₁.pmm.setPage p (fun d => { d with slab.cache := none, slab.freelist := none }) = pmm
    at hclear hst₁ hkept
  obtain ⟨hinv, hst⟩ := hclear.freePage hc (held hp)
  have hslab {q : ℕ} := pmm.freePage_not_slab c p (q := q)
  generalize pmm.freePage c p = pmm' at hinv hst hslab
  have herase : (pageBlocks P ++ B).erase ⟨p, 0⟩ = pageBlocks (P.erase p) ++ B := by
    rw [List.erase_append_left _ (mem_pages hp), pageBlocks, pageBlocks,
      List.map_erase fun a b hab => congrArg Block.start hab]
  rw [herase] at hinv hst
  have hmem' {q : ℕ} : q ∈ P.erase p ↔ q ≠ p ∧ q ∈ P := h.nodup.mem_erase_iff
  refine ⟨⟨hinv, hv₁.caches, fun q hq => ?_, fun q hq => ?_, fun q hq => ?_, fun {j d q} hj => ?_⟩, ?_⟩
  · obtain ⟨hne, hqP⟩ := hmem'.mp hq
    refine (hv₁.page q hqP).congr (hst.ram_eq.trans hst₁.ram_eq) ?_ fun _ _ => rfl
    exact (hst.page_eq _ (held hq)).trans (hkept hne)
  · obtain ⟨hne, hq'⟩ := hslab hq
    rw [hkept hne] at hq'
    exact hmem'.mpr ⟨hne, hv₁.only q hq'⟩
  · rcases eq_or_ne q p with rfl | hne
    · exact hU
    · exact h.unused q fun hqP => hq (hmem'.mpr ⟨hne, hqP⟩)
  · obtain ⟨hq, hcls, hd⟩ := hv₁.active hj
    refine ⟨hmem'.mpr ⟨?_, hq⟩, hcls, hd⟩
    rintro rfl
    exact hact₁ j d hj
  · exact hst₁.trans (hst.mono fun b hb => List.mem_append_right _ hb)

theorem find (hp : p ∈ P) (ha : a ∈ U p) : s.pmm.ram.paToPage (pageAlignDown a) = some p := by
  obtain ⟨hle, hlt⟩ := slot_page ((h.page p hp).mem_slots_of_used ha)
  exact Ram.paToPage_pageAlignDown (h.lt hp) hle
    (lt_of_lt_of_le (Nat.lt_add_of_pos_right (classSize_pos _)) hlt)

/-- **`KmemCache::free`** of an object in use; its page goes back when this was the last one. -/
theorem free (hp : p ∈ P) (ha : a ∈ U p) (hc : c < kMaxCpus)
    (hother : U p = [a] → ∀ d, (s.caches (cls p)).active d = some p → d = c) :
    ∃ s' F', s.free (cls p) c a = some s' ∧ s'.Valid R B (if U p = [a] then P.erase p else P) cls F'
        (update U p ((U p).erase a)) ∧ Pmm.Steady B s.pmm s'.pmm := by
  have hpage := h.page p hp
  have hfind := h.find hp ha
  have hv := h.push hp ha
  have hst := h.steady_push (a := a) hp
  have hcount := (hv.page p hp).count
  rw [update_self] at hcount
  have hcaches : (s.push p a).caches = s.caches := rfl
  unfold Slab.free
  rw [hfind]
  dsimp only
  rw [if_neg (by simp [hpage.state, hpage.cache]), hcount]
  generalize s.push p a = s₁ at hv hst hcaches
  by_cases hlast : U p = [a]
  · have hnil : (U p).erase a = [] := by
      rw [hlast, List.erase_cons_head]
    rw [if_pos hlast, if_pos (by rw [hnil, List.length_nil])]
    obtain ⟨hret, hst'⟩ := hv.retire hp hc (by rw [update_self, hnil]) (by
      rw [hcaches]
      exact hother hlast)
    exact ⟨_, _, rfl, hret, hst.trans hst'⟩
  · rw [if_neg hlast, if_neg fun hzero => hlast ?_]
    · exact ⟨_, _, rfl, hv, hst⟩
    · have hone : (U p).length = 1 := by
        rw [List.length_erase_of_mem ha] at hzero
        have hpos := List.length_pos_of_mem ha
        omega
      obtain ⟨b, hb⟩ := List.length_eq_one_iff.mp hone
      rw [hb, List.mem_singleton] at ha
      rw [hb, ha]

end

end Valid

end Slab

end Lume
