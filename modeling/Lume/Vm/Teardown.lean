import Lume.Vm.PageOps
import Lume.Vm.Loops

/-!
# Creating and destroying an address space

`VmSpace::destroy` drops the references of the pages of its regions, without clearing their
entries, and frees the tables. From the moment it starts the address space counts as dead: all
that its slots refer to is owed, and every dropped reference pays. If each mapped page lies in a
region, then nothing is owed in the end.

## Main results

* `Ledger.createSpace_spec`, `Ledger.destroySpace_spec`
-/

namespace Lume

open Function (update update_of_ne update_self)

open Segs (Maps)

/-! ## The tables that `pmap::destroy` frees -/

/-- The table below entry `i` of the table `t`, as `pmap::destroy` finds it. -/
def Mem.childTable (mem : Mem) (t i : ℕ) : Option ℕ :=
  if (mem t i).IsValid ∧ ¬ (mem t i).IsLeaf then some (pteToPa (mem t i)) else none

/-- The paths of all tables, in the order in which `pmap::destroy` frees them. -/
def allPaths : List (List ℕ) :=
  ((List.range kPtePerPage).flatMap fun i =>
    ((List.range kPtePerPage).map fun j => [j, i]) ++ [[i]]) ++ [[]]

theorem mem_allPaths {path : List ℕ} (hlen : path.length ≤ 2) (hlt : ∀ i ∈ path, i < kPtePerPage) :
    path ∈ allPaths := by
  match path with
  | [] => simp [allPaths]
  | [i] =>
    have := hlt i (by simp)
    simp only [allPaths, List.mem_append, List.mem_flatMap, List.mem_range]
    exact .inl ⟨i, this, .inr (by simp)⟩
  | [j, i] =>
    have hi := hlt i (by simp)
    have hj := hlt j (by simp)
    simp only [allPaths, List.mem_append, List.mem_flatMap, List.mem_range]
    exact .inl ⟨i, hi, .inl (List.mem_map.mpr ⟨j, List.mem_range.mpr hj, rfl⟩)⟩

theorem length_le_of_mem_allPaths {path : List ℕ} (h : path ∈ allPaths) : path.length ≤ 2 := by
  simp only [allPaths, List.mem_append, List.mem_flatMap, List.mem_map, List.mem_singleton] at h
  rcases h with ⟨i, -, ⟨j, -, rfl⟩ | rfl⟩ | rfl <;> simp

theorem nodup_allPaths : allPaths.Nodup := by
  -- the last index of a path tells the groups apart, its length the members of one
  have hlast {i : ℕ} {path : List ℕ}
      (h : path ∈ ((List.range kPtePerPage).map fun j => [j, i]) ++ [[i]]) :
      path.getLast? = some i := by
    simp only [List.mem_append, List.mem_map, List.mem_singleton] at h
    rcases h with ⟨j, -, rfl⟩ | rfl <;> rfl
  refine List.Nodup.append (List.nodup_flatMap.mpr ⟨fun i _ => ?_, ?_⟩) (by simp) ?_
  · refine List.Nodup.append (List.nodup_range.map fun j k h => ?_) (by simp) ?_
    · exact (List.cons.inj h).1
    · intro path h₁ h₂
      obtain ⟨j, -, rfl⟩ := List.mem_map.mp h₁
      simp at h₂
  · refine List.nodup_range.imp fun {i j} hne path hi hj => hne ?_
    exact Option.some.inj ((hlast hi).symm.trans (hlast hj))
  · intro path h₁ h₂
    obtain ⟨i, -, hi⟩ := List.mem_flatMap.mp h₁
    rw [List.mem_singleton.mp h₂] at hi
    simpa using hlast hi

namespace Machine

theorem mem_freePage (m : Machine) (pa : ℕ) : (m.freePage pa).mem = m.mem := mem_onPage _

theorem mem_foldl_freePage (l : List ℕ) (m : Machine) : (l.foldl freePage m).mem = m.mem := by
  induction l generalizing m with
  | nil => rfl
  | cons pa l ih => rw [List.foldl_cons, ih, mem_freePage]

theorem foldl_freePage {ι : Type*} (f : Machine → ι → Machine) (g : ι → List ℕ) (mem : Mem)
    (hf : ∀ m i, m.mem = mem → f m i = (g i).foldl freePage m) (l : List ι) (m : Machine)
    (hm : m.mem = mem) : l.foldl f m = (l.flatMap g).foldl freePage m := by
  induction l generalizing m with
  | nil => rfl
  | cons i l ih =>
    rw [List.foldl_cons, hf m i hm, List.flatMap_cons, List.foldl_append]
    exact ih _ ((mem_foldl_freePage ..).trans hm)

theorem destroyL1_eq (m : Machine) (l1 : ℕ) : m.destroyL1 l1 =
    ((List.range kPtePerPage).flatMap fun j => (m.mem.childTable l1 j).toList).foldl
      freePage m := by
  refine foldl_freePage _ _ m.mem (fun m' j hm => ?_) _ m rfl
  simp only [Mem.childTable, hm]
  split <;> rfl

/-- **`pmap::destroy`** frees the tables below the root, level by level, and the root. -/
theorem pmapDestroy_eq (m : Machine) (root : ℕ) : m.pmapDestroy root =
    (((List.range kPtePerPage).flatMap fun i => match m.mem.childTable root i with
      | some l1 => ((List.range kPtePerPage).flatMap fun j =>
          (m.mem.childTable l1 j).toList) ++ [l1]
      | none => []) ++ [root]).foldl freePage m := by
  have hL1 := destroyL1_eq
  rw [pmapDestroy, List.foldl_append]
  generalize List.range kPtePerPage = l at hL1 ⊢
  refine congrArg (freePage · root) (foldl_freePage _ _ m.mem (fun m' i hm => ?_) _ m rfl)
  simp only [Mem.childTable, hm]
  split
  · rw [hL1, List.foldl_append, hm]
    rfl
  · rfl

end Machine

theorem Tree.nodup_tables {ram : Ram} {mem : Mem} {own : ℕ → Owner} {sid root : ℕ}
    (h : Tree ram mem own sid root) : (allPaths.filterMap (mem.tableAt root)).Nodup := by
  refine List.pairwise_filterMap.mpr (nodup_allPaths.imp_of_mem ?_)
  intro path path' hp hp' hne t ht t' ht' he
  apply hne
  exact h.path_eq (length_le_of_mem_allPaths hp) (length_le_of_mem_allPaths hp') ht (he ▸ ht')

theorem Tree.pmapDestroy_eq {ram : Ram} {m : Machine} {own : ℕ → Owner} {sid root : ℕ}
    (h : Tree ram m.mem own sid root) :
    m.pmapDestroy root = (allPaths.filterMap (m.mem.tableAt root)).foldl Machine.freePage m := by
  have hchild {up : List ℕ} {t : ℕ} (hup : up.length ≤ 1) (ht : m.mem.tableAt root up = some t)
      (i : ℕ) : m.mem.childTable t i = m.mem.tableAt root (i :: up) := by
    rw [Mem.childTable, Mem.tableAt, ht]
    by_cases hv : (m.mem t i).IsValid
    · simp [hv, h.inner up t i hup ht hv]
    · simp [hv]
  rw [Machine.pmapDestroy_eq, allPaths, List.filterMap_append, List.filterMap_flatMap]
  generalize List.range kPtePerPage = l
  congr 2
  refine List.flatMap_congr fun i _ => ?_
  rw [hchild (by simp : [].length ≤ 1) rfl i, List.filterMap_append]
  cases hi : m.mem.tableAt root [i] with
  | none =>
    have hnone (j : ℕ) : m.mem.tableAt root [j, i] = none := by rw [Mem.tableAt, hi]
    simp [hi, List.filterMap_map, hnone]
  | some l1 =>
    simp only [hchild (by simp : [i].length ≤ 1) hi, List.filterMap_cons, hi, List.filterMap_nil,
      List.filterMap_map, Function.comp_def]
    congr 1
    exact (List.filterMap_eq_flatMap_toList ..).symm

namespace Ledger

variable {m m' : Machine} {other : List Block} {roots : Roots} {g : Ghost} {sid root : ℕ}

/-! ## Creation -/

/-- **`VmSpace::create`**: the new address space maps nothing. -/
theorem createSpace_spec (h : Ledger m other roots g) (hd : g.dying = none)
    (hnone : roots sid = none) {r : Option VmSpace} (hres : m.createSpace = (r, m')) :
    match r with
    | none => m'.mem = m.mem ∧ Ledger m' other roots g
    | some s => s.vmas = [] ∧
        m'.mem.slots (update roots sid (some s.rootPa)) = m.mem.slots roots ∧
        KeepsFrames g m.mem m'.mem ∧
        ∃ g', Ledger m' other (update roots sid (some s.rootPa)) g' ∧ g.Kin g' ∧
          g.SameFrames g' := by
  rw [Machine.createSpace] at hres
  split at hres
  · rename_i hdraw
    cases hres
    exact h.draw hdraw
  rename_i m₁ hdraw
  obtain ⟨hmem₁, h₁⟩ := h.draw hdraw
  rw [Machine.pmapCreate, Machine.allocPtPage] at hres
  cases ha : m₁.allocPage with
  | mk r₂ m₂ =>
  obtain ⟨hmem₂, hout⟩ := h₁.allocPage ha
  rw [ha] at hres
  cases r₂ with
  | none =>
    cases hres
    exact ⟨hmem₂.trans hmem₁, hout⟩
  | some pa =>
  obtain ⟨c, rfl, hc, h₂⟩ := hout
  cases hres
  have hfree (k : ℕ × ℕ) : g.ram.frameOf (m₂.mem.slots roots k) ≠ some c := by
    rw [hmem₂]
    exact h₁.unmapped (by simp [hc]) k
  obtain ⟨hs, h₃⟩ := h₂.addRoot hd (by simp [Ghost.addFrame]) hfree hnone
  refine ⟨rfl, hs.trans (by rw [hmem₂, hmem₁]), fun q hq => ?_, _, h₃, ⟨rfl, rfl, rfl⟩,
    .newTable hc ..⟩
  have hne : g.ram.pageToPa q ≠ g.ram.pageToPa c := by
    intro he
    rw [g.ram.pageToPa_injective he, hc] at hq
    cases hq
  rw [Machine.fill]
  dsimp only
  rw [update_of_ne hne, hmem₂, hmem₁]

/-! ## Destruction -/

theorem freeTables (h : Ledger m other roots g) (hnone : roots sid = none) (l : List ℕ)
    (hnd : l.Nodup) (hl : ∀ pa ∈ l, ∃ p path, pa = g.ram.pageToPa p ∧ g.own p = .table sid path) :
    ∃ g', Ledger (l.foldl Machine.freePage m) other roots g' ∧ g.Kin g' ∧ g'.leak = g.leak ∧
      ∀ p, g'.own p = if g.ram.pageToPa p ∈ l then .nobody else g.own p := by
  induction l generalizing m g with
  | nil => exact ⟨g, h, .refl g, rfl, by simp⟩
  | cons pa l ih =>
    obtain ⟨p, path, rfl, hp⟩ := hl pa (List.mem_cons_self ..)
    obtain ⟨hnot, hnd'⟩ := List.nodup_cons.mp hnd
    have hne : g.own p ≠ .nobody := by simp [hp]
    have hframe : g.own p ≠ .frame := by simp [hp]
    obtain ⟨-, h₁⟩ := h.freePage hne (h.unmapped hframe) fun sid' path' he => by
      rw [hp] at he
      rw [← (Owner.table.inj he).1, hnone]
    obtain ⟨g', h', hkin, hleak, hown⟩ := ih h₁ hnd' fun pa hpa => by
      obtain ⟨q, path', rfl, hq⟩ := hl pa (List.mem_cons_of_mem _ hpa)
      have hne : q ≠ p := by
        rintro rfl
        exact hnot hpa
      exact ⟨q, path', rfl, by simp [Ghost.drop, hne, hq]⟩
    have hkin' : g.Kin (g.drop p) := ⟨rfl, rfl, rfl⟩
    refine ⟨g', h', hkin'.trans hkin, hleak, fun q => ?_⟩
    rw [hown q]
    rcases eq_or_ne q p with rfl | hne
    · simp [Ghost.drop]
    · simp [Ghost.drop, hne, g.ram.pageToPa_injective.eq_iff]

/-- While the pages of a dead address space are released: `L` was owed before it died, and the
slots in `P` have not been released. -/
structure Releasing (m₀ : Machine) (other : List Block) (roots : Roots) (g₀ : Ghost)
    (f : ℕ × ℕ → Option ℕ) (P : Finset (ℕ × ℕ)) (m : Machine) (g : Ghost) : Prop where
  ledger : Ledger m other roots g
  kin : g₀.Kin g
  mem_eq : m.mem = m₀.mem
  leak_eq : ∀ p, g.leak p = g₀.leak p + fiber P f p
  alive : ∀ k ∈ P, ∀ p, f k = some p → g.own p = .frame
  own : ∀ p, g.own p = g₀.own p ∨ (g₀.own p = .frame ∧ g.own p = .nobody)

theorem Releasing.step {m₀ : Machine} {g₀ : Ghost} {f : ℕ × ℕ → Option ℕ} {P : Finset (ℕ × ℕ)}
    {n : ℕ} (h : Releasing m₀ other roots g₀ f P m g) (hP : (sid, n) ∈ P) {pa : Option ℕ}
    (hf : f (sid, n) = pa.bind g.ram.paToPage)
    (hpa : ∀ x, pa = some x → ∃ p < g.ram.numPages, x = g.ram.pageToPa p) :
    ∃ g', Releasing m₀ other roots g₀ f (P.erase (sid, n)) (pa.elim m m.decref) g' := by
  cases pa with
  | none =>
    refine ⟨g, { h with leak_eq := fun p => ?_, alive := fun k hk => ?_ }⟩
    · rw [h.leak_eq p, fiber_erase hP, hf]
      simp
    · exact h.alive k (Finset.mem_of_mem_erase hk)
  | some pa =>
    obtain ⟨p, hlt, rfl⟩ := hpa pa rfl
    have hfp : f (sid, n) = some p := by
      rw [hf]
      exact g.ram.paToPage_pageToPa hlt
    have hp := h.alive _ hP p hfp
    have hfib (q : ℕ) := fiber_erase (f := f) (a := q) hP
    have hleak : 0 < g.leak p := by
      have := hfib p
      rw [if_pos hfp] at this
      have := h.leak_eq p
      omega
    obtain ⟨hmem, h'⟩ := h.ledger.decref hp hleak
    refine ⟨_, h', h.kin.trans (Ghost.kin_settle _), hmem.trans h.mem_eq, fun q => ?_,
      fun k hk q hq => ?_, fun q => ?_⟩
    · rw [Ghost.leak_settle]
      have hq := h.leak_eq q
      rw [hfib q, hfp] at hq
      rcases eq_or_ne q p with rfl | hne
      · rw [update_self]
        rw [if_pos rfl] at hq
        omega
      · rw [update_of_ne hne, hq, if_neg fun he => hne (Option.some.inj he).symm]
        rfl
    · have hq' := h.alive k (Finset.mem_of_mem_erase hk) q hq
      rcases g.own_settle (p := p) (q := q) ((m.pmm.pageMap p).refcount = 1) with
        he | ⟨rfl, hlast, -⟩
      · rw [he, hq']
      · -- a frame that another slot refers to has more than one reference
        have hpos : 0 < fiber (P.erase (sid, n)) f q := fiber_pos_iff.mpr ⟨k, hk, hq⟩
        have h₁ := hfib q
        have h₂ := h.leak_eq q
        have h₃ := h.ledger.refs.count q hp
        rw [if_pos hfp] at h₁
        omega
    · rcases g.own_settle (p := p) (q := q) ((m.pmm.pageMap p).refcount = 1) with
        he | ⟨rfl, -, he⟩
      · rw [he]
        exact h.own q
      · refine .inr ⟨?_, he⟩
        rcases h.own q with ho | ho
        · rw [← ho, hp]
        · exact ho.1

theorem Releasing.run {m₀ : Machine} {g₀ : Ghost} {P : Finset (ℕ × ℕ)} {roots' : Roots}
    {g₁ : Ghost} (h₀ : Ledger m₀ other roots g₁) (hr : roots sid = some root)
    (hram : g₁.ram = g.ram) (addrs : List ℕ) (hnd : addrs.Nodup)
    (hal : ∀ a ∈ addrs, kPageSize ∣ a) (hP : ∀ k ∈ P, k.1 = sid ∧ k.2 < kPageNumbers)
    (hin : ∀ a ∈ addrs, (sid, a / kPageSize) ∈ P)
    (h : Releasing m₀ other roots' g₀ (fun k => g₁.ram.frameOf (m₀.mem.slots roots k)) P m g) :
    ∃ g' P', Releasing m₀ other roots' g₀ (fun k => g₁.ram.frameOf (m₀.mem.slots roots k)) P'
        (addrs.foldl (fun m a => m.releasePage root a) m) g' ∧
      ∀ k, k ∈ P' ↔ k ∈ P ∧ k.2 * kPageSize ∉ addrs := by
  induction addrs generalizing m g P with
  | nil => exact ⟨g, P, h, by simp⟩
  | cons a addrs ih =>
    obtain ⟨hnot, hnd'⟩ := List.nodup_cons.mp hnd
    obtain ⟨i, rfl⟩ := hal a (List.mem_cons_self ..)
    have hdiv (j : ℕ) : kPageSize * j / kPageSize = j := Nat.mul_div_cancel_left j (by decide)
    have hmem := hin _ (List.mem_cons_self ..)
    rw [hdiv] at hmem
    have hlook : m.mem.lookup root (kPageSize * i) = (m₀.mem.slots roots (sid, i)).target := by
      rw [h.mem_eq, h₀.lookup_eq hr (by rw [hdiv]; exact (hP _ hmem).2), hdiv]
    obtain ⟨g₂, h₂⟩ := h.step hmem (by rw [← hram]; rfl) fun x hx => by
      rw [← hram]
      exact h₀.target (sid, i) x hx
    have hstep : m.releasePage root (kPageSize * i) =
        (m₀.mem.slots roots (sid, i)).target.elim m m.decref := by
      rw [Machine.releasePage, hlook]
      cases (m₀.mem.slots roots (sid, i)).target <;> rfl
    rw [← hstep] at h₂
    -- the pages that are left are other pages
    obtain ⟨g', P', h', hP'⟩ := ih (by rw [hram, ← h.kin.ram_eq.symm, h₂.kin.ram_eq]) hnd'
      (fun a ha => hal a (List.mem_cons_of_mem _ ha))
      (fun k hk => hP k (Finset.mem_of_mem_erase hk)) (fun a ha => by
        refine Finset.mem_erase.mpr ⟨fun he => hnot ?_, hin a (List.mem_cons_of_mem _ ha)⟩
        obtain ⟨j, rfl⟩ := hal a (List.mem_cons_of_mem _ ha)
        rw [hdiv] at he
        obtain rfl : j = i := (Prod.ext_iff.mp he).2
        exact ha) h₂
    refine ⟨g', P', h', fun k => ?_⟩
    rw [hP' k, Finset.mem_erase, List.mem_cons, not_or]
    constructor
    · rintro ⟨⟨hne, hk⟩, hk'⟩
      refine ⟨hk, fun he => hne ?_, hk'⟩
      have hk₁ := (hP k hk).1
      simp only [kPageSize] at he
      exact Prod.ext hk₁ (by show k.2 = i; omega)
    · rintro ⟨hk, hne, hk'⟩
      refine ⟨⟨?_, hk⟩, hk'⟩
      rintro rfl
      exact hne (Nat.mul_comm ..)

/-- **`VmSpace::destroy`**: nothing more is owed if every mapped page lies in a region. -/
theorem destroySpace_spec (h : Ledger m other roots g) (hd : g.dying = none) {s : VmSpace}
    (hr : roots sid = some s.rootPa) {hi : ℕ} (hhi : hi ≤ kPageNumbers * kPageSize)
    (hv : RegionInv hi s.vmas) : (m.destroySpace s).mem = m.mem ∧
      ∃ g', Ledger (m.destroySpace s) other (update roots sid none) g' ∧ g.Kin g' ∧
        (∀ p, g'.own p ≠ .nobody → g.own p ≠ .nobody) ∧
        ((∀ n < kPageNumbers, (m.mem.slots roots (sid, n)).target ≠ none →
          ∃ v ∈ s.vmas, n * kPageSize ∈ v) → ∀ p, g'.debt p ≤ g.debt p) := by
  have hpages {a : ℕ} (ha : a ∈ vmaPages s.vmas) : kPageSize ∣ a ∧ a / kPageSize < kPageNumbers := by
    obtain ⟨hdvd, v, hvm, hlo, hup⟩ := (mem_vmaPages hv.aligned).mp ha
    have := (hv.bounds v hvm).2
    exact ⟨hdvd, Nat.div_lt_of_lt_mul (by rw [Nat.mul_comm]; omega)⟩
  -- the address space dies, its slots are owed, and the loop pays for the pages of its regions
  have hkill := h.kill hd sid
  have hkeys (k : ℕ × ℕ) : k ∈ keysOf g.bound sid ↔ k ∈ slotKeys g.bound ∧ k.1 = sid :=
    Finset.mem_filter
  have hinit : Releasing m other (update roots sid none) { g with dying := some sid }
      (fun k => g.ram.frameOf (m.mem.slots roots k)) (keysOf g.bound sid) m _ :=
    ⟨hkill, ⟨rfl, rfl, rfl⟩, rfl, fun _ => rfl, fun k _ p hk => h.refs.alive k p hk,
      fun _ => .inl rfl⟩
  obtain ⟨g₂, P, h₂, hP⟩ := hinit.run h hr (by rfl) (vmaPages s.vmas) (nodup_vmaPages hv)
    (fun a ha => (hpages ha).1) (fun k hk => by
      obtain ⟨hk, hsid⟩ := (hkeys k).mp hk
      exact ⟨hsid, Finset.mem_range.mp (Finset.mem_product.mp hk).2⟩)
    fun a ha => (hkeys _).mpr ⟨h.mem_slotKeys hr (hpages ha).2, rfl⟩
  set m₂ := (vmaPages s.vmas).foldl (fun m a => m.releasePage s.rootPa a) m with hm₂
  have htable (p sid' : ℕ) (path : List ℕ) :
      g₂.own p = .table sid' path ↔ g.own p = .table sid' path := by
    rcases h₂.own p with he | ⟨he, he'⟩
    · rw [he]
    · simp only [he']
      have : g.own p = .frame := he
      simp [this]
  have htree : Tree g.ram m₂.mem g₂.own sid s.rootPa := by
    rw [h₂.mem_eq]
    exact ((h.tree sid s.rootPa hr).congr (fun _ _ _ => rfl) fun p path => htable p sid path).1
  -- then the tables are freed
  have hram : g₂.ram = g.ram := h₂.kin.ram_eq
  obtain ⟨g₃, h₃, hkin, hleak, hown⟩ := h₂.ledger.freeTables (update_self ..) _
    htree.nodup_tables
    fun t ht => by
      obtain ⟨path, hpath, ht⟩ := List.mem_filterMap.mp ht
      obtain ⟨p, -, he, hp⟩ := htree.table path t (length_le_of_mem_allPaths hpath) ht
      exact ⟨p, path, by rw [hram, he], hp⟩
  rw [← htree.pmapDestroy_eq, hm₂, ← destroySpace_eq] at h₃
  have hgone (p : ℕ) (path : List ℕ) : g₃.own p ≠ .table sid path := by
    rw [hown p, hram]
    split
    · simp
    · rename_i hnot
      intro hp
      obtain ⟨hlen, hlt, ht⟩ := htree.reached p path hp
      exact hnot (List.mem_filterMap.mpr ⟨path, mem_allPaths hlen hlt, ht⟩)
  have hdying : g₃.dying = some sid := by rw [hkin.dying_eq, h₂.kin.dying_eq]
  refine ⟨?_, _, h₃.bury hdying hgone, ⟨?_, ?_, hd.symm⟩, fun p hp => ?_, fun hclean p => ?_⟩
  · rw [destroySpace_eq, ← hm₂, htree.pmapDestroy_eq, Machine.mem_foldl_freePage, h₂.mem_eq]
  · exact hkin.ram_eq.trans hram
  · exact hkin.reserved_eq.trans h₂.kin.reserved_eq
  · replace hp : g₃.own p ≠ .nobody := hp
    rw [hown p] at hp
    rcases h₂.own p with he | ⟨he, -⟩
    · intro hnobody
      rw [he, show g.own p = .nobody from hnobody, ite_self] at hp
      exact hp rfl
    · rw [show g.own p = .frame from he]
      simp
  · -- every slot that was not released maps nothing
    have hzero : fiber P (fun k => g.ram.frameOf (m.mem.slots roots k)) p = 0 := by
      refine fiber_eq_zero fun k hk hf => ?_
      obtain ⟨hk, hnot⟩ := (hP k).mp hk
      obtain ⟨hk, hsid⟩ := (hkeys k).mp hk
      have hlt := Finset.mem_range.mp (Finset.mem_product.mp hk).2
      have htarget := h.target_of_frame hf
      obtain ⟨v, hvm, hin⟩ := hclean k.2 hlt (by
        rw [← hsid, Prod.mk.eta, htarget]
        simp)
      exact hnot ((mem_vmaPages hv.aligned).mpr ⟨Nat.dvd_mul_left .., v, hvm, hin⟩)
    rw [Ghost.debt]
    dsimp only
    split
    · rename_i hp
      have hp₂ : g₂.own p = .frame := by
        rw [hown p] at hp
        split at hp
        · cases hp
        · exact hp
      have hp₀ : g.own p = .frame := by
        rcases h₂.own p with he | ⟨-, he⟩
        · exact he.symm.trans hp₂
        · rw [he] at hp₂
          cases hp₂
      rw [hleak, h₂.leak_eq p, hzero, Ghost.debt, if_pos hp₀]
      exact le_rfl
    · exact Nat.zero_le _

end Ledger

end Lume
