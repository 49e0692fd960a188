import Lume.Foundation.Transition
import Lume.Vm.Teardown

/-!
# The page tables below one root

The tables below a root that `pmap::create` made, under any sequence of `pmap::map`, `unmap`,
`protect` and `make_cow`. Between the calls the callers take data frames from the allocator, write
them and give them back. There is no hypothesis on the physical addresses and permissions of the
calls unless a theorem says so: they reach level-0 entries only, and nobody reads these but the
walks.

## A conservation law

`pmap::destroy` has no list of the tables. It frees what valid entries without `PTE_R`, `PTE_W` and
`PTE_X` lead to, two levels deep. That it frees each table once is therefore a statement about all
calls before it: the pages that the allocator has handed out are, at every moment, the tables, each
at one path, and the pages that others hold (`PageTables`). A `map` that fails in its second
allocation leaves a table behind that maps nothing, and it is one of them.

## The map

The tables are a finite map from page numbers of 27 bits to entries. Every call acts on the entry
of one page number, and what it does is determined by the entry that was there and by what the call
returned (`PageMap.Step`).

## Main definitions

* `PmapOp`, `PmapSystem`: the calls, and the machine with the frames of the callers
* `PageTables`: the tables of one root
* `PageEntry`, `PageMap.Step`: the map, and what a call does to it

## Main results

* `PageTables.mapWalk`: missing tables are added without a change to any slot
* `page_tables_freed_once`: `pmap::destroy` gives back every table once, and no frame
* `page_tables_refine_map`: the tables refine the map
-/

namespace Lume

open Function (update update_of_ne update_self)

/-! ## Calls -/

/-- A call of `pmap`, or what its callers do with data frames in between. A CPU is given where the
call allocates or frees. -/
inductive PmapOp
  | map (cpu va pa : ℕ) (perm : Word)
  | unmap (va : ℕ)
  | protect (va : ℕ) (perm : Word)
  | makeCow (va : ℕ)
  | alloc (cpu : ℕ)
  | free (cpu p : ℕ)
  | store (p i : ℕ) (w : Word)

/-- The machine, and the pages that the callers hold as data frames. -/
structure PmapSystem where
  machine : Machine
  frames : List ℕ

namespace PmapSystem

/-- What a call returns and does. -/
def exec (root : ℕ) (x : PmapSystem) : PmapOp → ℤ × PmapSystem
  | .map cpu va pa perm =>
    let r := { x.machine with cpu := cpu }.map root va pa perm
    (r.1, { x with machine := r.2 })
  | .unmap va => (0, { x with machine := x.machine.unmap root va })
  | .protect va perm =>
    let r := x.machine.protect root va perm
    (r.1, { x with machine := r.2 })
  | .makeCow va =>
    let r := x.machine.makeCow root va
    (r.1, { x with machine := r.2 })
  | .alloc cpu =>
    let r := x.machine.pmm.allocPage cpu
    (0, ⟨{ x.machine with pmm := r.2 }, r.1.toList ++ x.frames⟩)
  | .free cpu p =>
    (0, ⟨{ x.machine with pmm := x.machine.pmm.freePage cpu p }, x.frames.erase p⟩)
  | .store p i w => (0, { x with machine := x.machine.write (x.machine.pmm.ram.pageToPa p) i w })

/-- One call, labelled with what it returns. -/
def Step (root : ℕ) (x : PmapSystem) (l : PmapOp × ℤ) (y : PmapSystem) : Prop :=
  x.exec root l.1 = (l.2, y)

/-- There are `kMaxCpus` CPUs, and callers write and give back the frames that they hold. -/
def Allowed (x : PmapSystem) (l : PmapOp × ℤ) : Prop :=
  match l.1 with
  | .map cpu _ _ _ => cpu < kMaxCpus
  | .alloc cpu => cpu < kMaxCpus
  | .free cpu p => cpu < kMaxCpus ∧ p ∈ x.frames
  | .store p _ _ => p ∈ x.frames
  | _ => True

end PmapSystem

/-! ## The tables -/

/-- A block of one page. -/
def Block.single (p : ℕ) : Block := ⟨p, 0⟩

/-- The tables below `root` are the pages of `tables`. They are separate pages, and the allocator
has handed out these and `others`. -/
structure PageTables (R : Finset ℕ) (others : List Block) (own : ℕ → Owner) (tables : List ℕ)
    (root : ℕ) (m : Machine) : Prop where
  pmm : m.pmm.Inv R (tables.map Block.single ++ others)
  mem_tables : ∀ p, p ∈ tables ↔ ∃ path, own p = .table 0 path
  tree : Tree m.pmm.ram m.mem own 0 root

namespace Pmm.Inv

variable {s : Pmm} {R : Finset ℕ} {held : List Block}

theorem nodup_held (h : s.Inv R held) : held.Nodup :=
  h.accounted.nodup_blocks.sublist (by simp [Pmm.blocks])

theorem lt_of_held (h : s.Inv R held) {p : ℕ} (hp : Block.single p ∈ held) : p < s.ram.numPages :=
  (h.accounted.held_ok _ hp).1.start_lt

/-- **`pmm_alloc_page`** fails, or hands out a page that was not held. -/
theorem allocPage_cases (h : s.Inv R held) {cpu : ℕ} (hcpu : cpu < kMaxCpus) :
    (s.allocPage cpu).2.ram = s.ram ∧
      (((s.allocPage cpu).1 = none ∧ (s.allocPage cpu).2.Inv R held) ∨
        ∃ p, (s.allocPage cpu).1 = some p ∧ (s.allocPage cpu).2.Inv R (Block.single p :: held)) := by
  have hout := h.allocPage hcpu
  generalize s.allocPage cpu = r at hout ⊢
  cases hout with
  | fail inv steady => exact ⟨steady.ram_eq, .inl ⟨rfl, inv⟩⟩
  | grant inv steady => exact ⟨steady.ram_eq, .inr ⟨_, rfl, inv⟩⟩

end Pmm.Inv

/-- **`alloc_pt_page`**, up to the clearing of the page. -/
theorem Machine.allocPage_cases {m m' : Machine} {R : Finset ℕ} {held : List Block} {r : Option ℕ}
    (h : m.pmm.Inv R held) (hcpu : m.cpu < kMaxCpus) (hres : m.allocPage = (r, m')) :
    m'.mem = m.mem ∧ m'.cpu = m.cpu ∧ m'.pmm.ram = m.pmm.ram ∧ ((r = none ∧ m'.pmm.Inv R held) ∨
        ∃ p, r = some (m.pmm.ram.pageToPa p) ∧ m'.pmm.Inv R (Block.single p :: held)) := by
  rw [Machine.allocPage] at hres
  rcases hd : m.draw with ⟨ok, m₁⟩
  have hdraw : m₁.mem = m.mem ∧ m₁.cpu = m.cpu ∧ m₁.pmm = m.pmm := by
    rw [Machine.draw] at hd
    split at hd <;> (cases hd; exact ⟨rfl, rfl, rfl⟩)
  obtain ⟨hmem, hcpu₁, hpmm⟩ := hdraw
  rw [hd] at hres
  cases ok with
  | false =>
    cases hres
    exact ⟨hmem, hcpu₁, by rw [hpmm], .inl ⟨rfl, by rw [hpmm]; exact h⟩⟩
  | true =>
    cases hres
    rw [← hpmm] at h ⊢
    rw [← hcpu₁] at hcpu
    obtain ⟨hram, hcases⟩ := h.allocPage_cases hcpu
    refine ⟨hmem, hcpu₁, hram, ?_⟩
    rcases hcases with ⟨hnone, hinv⟩ | ⟨p, hsome, hinv⟩
    · exact .inl ⟨by rw [hnone]; rfl, hinv⟩
    · exact .inr ⟨p, by rw [hsome]; rfl, hinv⟩

namespace PageTables

open Ledger (pathFrom pathFrom_cons)

variable {R : Finset ℕ} {others : List Block} {own : ℕ → Owner} {tables : List ℕ}
  {root va t : ℕ} {m m' : Machine}

section

variable (h : PageTables R others own tables root m)
include h

theorem withCpu (cpu : ℕ) :
    PageTables R others own tables root { m with cpu := cpu } := ⟨h.pmm, h.mem_tables, h.tree⟩

theorem fresh {p : ℕ} {pmm' : Pmm}
    (hinv : pmm'.Inv R (Block.single p :: (tables.map Block.single ++ others))) (path : List ℕ) :
    own p ≠ .table 0 path := by
  intro hp
  have hnot := (List.nodup_cons.mp hinv.nodup_held).1
  apply hnot
  apply List.mem_append_left
  exact List.mem_map_of_mem ((h.mem_tables p).mpr ⟨path, hp⟩)

theorem repmm {pmm' : Pmm} {others' : List Block}
    (hram : pmm'.ram = m.pmm.ram) (hinv : pmm'.Inv R (tables.map Block.single ++ others')) :
    PageTables R others' own tables root { m with pmm := pmm' } :=
  ⟨hinv, h.mem_tables, by
    change Tree pmm'.ram _ _ _ _
    rw [hram]
    exact h.tree⟩

theorem install (hcpu : m.cpu < kMaxCpus) {i : ℕ}
    {up : List ℕ} (hup : up.length ≤ 1) (ht : m.mem.tableAt root up = some t)
    (hv : ¬ (m.mem t i).IsValid) (hi : i < kPtePerPage) {child : ℕ} {m₁ : Machine}
    (ha : m.allocPage = (some child, m₁)) :
    ∃ own' tables' m₂, (m₁.fill child fun _ => 0).write t i (paToPte child pteV) = m₂ ∧
      PageTables R others own' tables' root m₂ ∧ m₂.cpu = m.cpu ∧
      (∀ n, m₂.mem.slot root n = m.mem.slot root n) ∧ pteToPa (m₂.mem t i) = child ∧
      m₂.mem.tableAt root (i :: up) = some child := by
  obtain ⟨hmem, hcpu₁, hram, ⟨⟨⟩, -⟩ | ⟨c, hc, hinv⟩⟩ := Machine.allocPage_cases h.pmm hcpu ha
  cases hc
  have hlt : c < m.pmm.ram.numPages := by
    rw [← hram]
    exact hinv.lt_of_held (List.mem_cons_self ..)
  have hfree := h.fresh hinv
  obtain ⟨htree, hslot⟩ := h.tree.install hup ht hv hi hlt hfree
  have hpa := m.pmm.ram.pageToPa_lt hlt
  refine ⟨update own c (.table 0 (i :: up)), c :: tables, _, rfl, ⟨hinv, ?_, ?_⟩, hcpu₁,
    ?_, ?_, ?_⟩
  · -- the new table is at the new path, and the others are where they were
    intro p
    rw [List.mem_cons, h.mem_tables]
    rcases eq_or_ne p c with rfl | hne
    · simp
    · simp [hne]
  · change Tree m₁.pmm.ram (Mem.link m₁.mem _ _ _) _ _ _
    rw [hram, hmem]
    exact htree
  · change ∀ n, (Mem.link m₁.mem _ _ _).slot root n = _
    rw [hmem]
    exact hslot
  · have hentry : ((m₁.fill (m.pmm.ram.pageToPa c) fun _ => 0).write t i
        (paToPte (m.pmm.ram.pageToPa c) pteV)).mem t i = paToPte (m.pmm.ram.pageToPa c) pteV :=
      Mem.write_self
    rw [hentry, pteToPa_paToPte (m.pmm.ram.pageToPa_aligned c) (by omega) isFlags_pteV]
  · change (Mem.link m₁.mem _ _ _).tableAt root _ = _
    rw [hmem]
    exact (htree.reached c _ (update_self ..)).2.2

/-- **The walk of `pmap::map`** adds missing tables and changes no slot. -/
theorem mapWalk (hcpu : m.cpu < kMaxCpus) {level : ℕ}
    (hl : level ≤ 2) (ht : m.mem.tableAt root (pathFrom (va / kPageSize) level) = some t)
    {r : Option ℕ} (hres : m.mapWalk va level t = (r, m')) :
    ∃ own' tables', PageTables R others own' tables' root m' ∧
      (∀ n, m'.mem.slot root n = m.mem.slot root n) ∧
      ∀ t', r = some t' → m'.mem.tableAt root (tablePath (va / kPageSize)) = some t' := by
  induction level generalizing m own tables t with
  | zero =>
    cases hres
    refine ⟨own, tables, h, fun _ => rfl, ?_⟩
    rintro _ ⟨⟩
    exact ht
  | succ level ih =>
    have hcons := pathFrom_cons (n := va / kPageSize) (by omega : level < 2)
    have hup : (pathFrom (va / kPageSize) (level + 1)).length ≤ 1 := by
      simp [pathFrom]
    rw [Machine.mapWalk, vpn_eq] at hres
    dsimp only at hres
    by_cases hv : (m.mem t (index (va / kPageSize) (level + 1))).IsValid
    · -- the table is there already
      rw [if_pos hv] at hres
      apply ih h hcpu (by omega) ?_ hres
      rw [hcons, Mem.tableAt, ht]
      simp [hv]
    rw [if_neg hv, Machine.allocPtPage] at hres
    rcases ha : m.allocPage with ⟨_ | child, m₁⟩
    · rw [ha] at hres
      cases hres
      obtain ⟨hmem, -, hram, ⟨-, hinv⟩ | ⟨c, ⟨⟩, -⟩⟩ := Machine.allocPage_cases h.pmm hcpu ha
      refine ⟨own, tables, ⟨hinv, h.mem_tables, ?_⟩, fun n => by rw [hmem], by simp⟩
      rw [hram, hmem]
      exact h.tree
    · rw [ha] at hres
      obtain ⟨own₂, tables₂, m₂, hm₂, h₂, hcpu₂, hslot, hchild, hreach⟩ :=
        h.install hcpu hup ht hv (index_lt ..) ha
      dsimp only at hres
      rw [hm₂, hchild] at hres
      obtain ⟨own', tables', h', hslot', hend⟩ :=
        ih h₂ (hcpu₂ ▸ hcpu) (by omega) (hcons ▸ hreach) hres
      exact ⟨own', tables', h', fun n => (hslot' n).trans (hslot n), hend⟩

theorem writeSlot (ht : m.mem.tableAt root (tablePath (va / kPageSize)) = some t) (w : Word) :
    PageTables R others own tables root (m.write t (index (va / kPageSize) 0) w) ∧
      ∀ n < kPageNumbers, (m.write t (index (va / kPageSize) 0) w).mem.slot root n =
        if n = slotNo va then w else m.mem.slot root n := by
  rw [← tablePath_mod] at ht
  rw [← index_mod _ (by decide : 0 ≤ 2)]
  obtain ⟨htree, hslot⟩ := h.tree.write_slot ht w
  exact ⟨⟨h.pmm, h.mem_tables, htree⟩, fun n hn => hslot n hn (slotNo_lt va)⟩

/-- **`pmap::map`** -/
theorem map (hcpu : m.cpu < kMaxCpus) {pa : ℕ}
    {perm : Word} {ret : ℤ} (hres : m.map root va pa perm = (ret, m')) :
    ∃ own' tables', PageTables R others own' tables' root m' ∧
      ((ret = -12 ∧ ∀ n, m'.mem.slot root n = m.mem.slot root n) ∨
        (ret = 0 ∧ ∀ n < kPageNumbers, m'.mem.slot root n = if n = slotNo va then
          paToPte pa (perm ||| pteV ||| pteA ||| pteD) else m.mem.slot root n)) := by
  rw [Machine.map] at hres
  rcases hw : m.mapWalk va 2 root with ⟨r, m₁⟩
  obtain ⟨own₁, tables₁, h₁, hslot, hend⟩ := h.mapWalk hcpu le_rfl rfl hw
  rw [hw] at hres
  cases r with
  | none =>
    cases hres
    exact ⟨own₁, tables₁, h₁, .inl ⟨rfl, hslot⟩⟩
  | some t =>
    cases hres
    rw [vpn_eq]
    obtain ⟨h₂, hslot₂⟩ := h₁.writeSlot (hend t rfl) (paToPte pa (perm ||| pteV ||| pteA ||| pteD))
    refine ⟨own₁, tables₁, h₂, .inr ⟨rfl, fun n hn => ?_⟩⟩
    rw [hslot₂ n hn, hslot n]

/-- **`pmap::unmap`** -/
theorem unmap (va : ℕ) : PageTables R others own tables root (m.unmap root va) ∧
      ∀ n < kPageNumbers, (m.unmap root va).mem.slot root n =
        if n = slotNo va then 0 else m.mem.slot root n := by
  rw [Machine.unmap, Mem.findTable_eq]
  cases ht : m.mem.tableAt root (tablePath (va / kPageSize)) with
  | some t =>
    dsimp only
    rw [vpn_eq]
    exact h.writeSlot ht 0
  | none =>
    refine ⟨h, fun n hn => ?_⟩
    rcases eq_or_ne n (slotNo va) with rfl | hne
    · -- without a table there is nothing in the slot
      rw [if_pos rfl, slotNo, Mem.slot_mod]
      exact Mem.slot_of_none ht
    · rw [if_neg hne]

theorem rewrite (f : Word → Word) {ret : ℤ}
    (hnone : m.mem.findLeaf va 3 root = none → ret = -14 ∧ m' = m)
    (hsome : ∀ e, m.mem.findLeaf va 3 root = some e →
      ret = 0 ∧ m' = m.write e.1 e.2 (f (m.mem e.1 e.2))) : PageTables R others own tables root m' ∧
      ((ret = -14 ∧ m' = m ∧ (m.mem.slot root (slotNo va)).target = none) ∨
        (ret = 0 ∧ (m.mem.slot root (slotNo va)).target ≠ none ∧
          ∀ n < kPageNumbers, m'.mem.slot root n =
            if n = slotNo va then f (m.mem.slot root (slotNo va)) else m.mem.slot root n)) := by
  have hmod : m.mem.slot root (slotNo va) = m.mem.slot root (va / kPageSize) := Mem.slot_mod ..
  cases he : m.mem.findLeaf va 3 root with
  | none =>
    obtain ⟨rfl, rfl⟩ := hnone he
    refine ⟨h, .inl ⟨rfl, rfl, ?_⟩⟩
    have hlook := h.tree.lookup_eq va
    rw [Mem.lookup, he] at hlook
    rw [hmod, ← hlook]
    rfl
  | some e =>
    obtain ⟨rfl, rfl⟩ := hsome e he
    obtain ⟨ht, hi, htarget⟩ := h.tree.findLeaf_some.mp he
    have hold : m.mem e.1 e.2 = m.mem.slot root (slotNo va) := by
      rw [hmod, Mem.slot_of_table ht, hi]
    rw [hold, hi]
    obtain ⟨h', hslot⟩ := h.writeSlot ht (f (m.mem.slot root (slotNo va)))
    exact ⟨h', .inr ⟨rfl, hmod ▸ htarget, hslot⟩⟩

theorem store {p : ℕ} (hp : p ∉ tables) (i : ℕ)
    (w : Word) : PageTables R others own tables root (m.write (m.pmm.ram.pageToPa p) i w) ∧
      ∀ n, (m.write (m.pmm.ram.pageToPa p) i w).mem.slot root n = m.mem.slot root n := by
  have hkeep (q : ℕ) (path : List ℕ) (hq : own q = .table 0 path) :
      m.mem.write (m.pmm.ram.pageToPa p) i w (m.pmm.ram.pageToPa q) =
        m.mem (m.pmm.ram.pageToPa q) := by
    apply Mem.write_of_ne_pa
    intro he
    rw [m.pmm.ram.pageToPa_injective he] at hq
    exact hp ((h.mem_tables p).mpr ⟨path, hq⟩)
  obtain ⟨htree, hslot⟩ := h.tree.congr hkeep fun _ _ => Iff.rfl
  exact ⟨⟨h.pmm, h.mem_tables, htree⟩, hslot⟩

end

/-! ## Creation and destruction -/

/-- **`pmap::create`**: the root is the only table. -/
theorem create {R : Finset ℕ} {others : List Block} {m m' : Machine} (h : m.pmm.Inv R others)
    (hcpu : m.cpu < kMaxCpus) (hres : m.pmapCreate = (some root, m')) :
    ∃ own p, PageTables R others own [p] root m' ∧ root = m'.pmm.ram.pageToPa p ∧
      ∀ n, m'.mem.slot root n = 0 := by
  rw [Machine.pmapCreate, Machine.allocPtPage] at hres
  rcases ha : m.allocPage with ⟨_ | pa, m₁⟩
  · rw [ha] at hres
    cases hres
  rw [ha] at hres
  cases hres
  obtain ⟨hmem, -, hram, ⟨⟨⟩, -⟩ | ⟨p, hp, hinv⟩⟩ := Machine.allocPage_cases h hcpu ha
  cases hp
  have hlt : p < m₁.pmm.ram.numPages := hinv.lt_of_held (List.mem_cons_self ..)
  rw [← hram]
  have hown (q : ℕ) (path : List ℕ) :
      (if q = p then Owner.table 0 [] else .nobody) = .table 0 path ↔ q = p ∧ path = [] := by
    by_cases hq : q = p
    · simp [hq, eq_comm]
    · simp [hq]
  have hzero (i : ℕ) :
      (m₁.fill (m₁.pmm.ram.pageToPa p) fun _ => 0).mem (m₁.pmm.ram.pageToPa p) i = 0 := by
    change update m₁.mem _ _ _ i = 0
    rw [update_self]
  obtain ⟨htree, hslot⟩ := Ledger.tree_empty hlt hzero hown
  refine ⟨_, p, ⟨hinv, fun q => ?_, htree⟩, rfl, hslot⟩
  simp [hown]

theorem tables_perm (h : PageTables R others own tables root m) :
    (allPaths.filterMap (m.mem.tableAt root)).Perm (tables.map m.pmm.ram.pageToPa) := by
  have htables : tables.Nodup :=
    ((List.nodup_append'.mp h.pmm.nodup_held).1.of_map Block.single)
  refine (List.perm_ext_iff_of_nodup h.tree.nodup_tables ?_).mpr fun pa => ?_
  · exact htables.map m.pmm.ram.pageToPa_injective
  · rw [List.mem_filterMap, List.mem_map]
    constructor
    · rintro ⟨path, hpath, ht⟩
      obtain ⟨p, -, rfl, hp⟩ := h.tree.table path pa (length_le_of_mem_allPaths hpath) ht
      exact ⟨p, (h.mem_tables p).mpr ⟨path, hp⟩, rfl⟩
    · rintro ⟨p, hp, rfl⟩
      obtain ⟨path, hpath⟩ := (h.mem_tables p).mp hp
      obtain ⟨hlen, hlt, ht⟩ := h.tree.reached p path hpath
      exact ⟨path, mem_allPaths hlen hlt, ht⟩

theorem freeAll {held : List Block} (l : List ℕ) {m : Machine} (hcpu : m.cpu < kMaxCpus)
    (h : m.pmm.Inv R (l.map Block.single ++ held)) :
    ((l.map m.pmm.ram.pageToPa).foldl Machine.freePage m).pmm.Inv R held := by
  induction l generalizing m with
  | nil => exact h
  | cons p l ih =>
    have hp : Block.single p ∈ (p :: l).map Block.single ++ held := List.mem_cons_self ..
    obtain ⟨hinv, hst⟩ := h.freePage hcpu hp
    have hfree : m.freePage (m.pmm.ram.pageToPa p) =
        { m with pmm := m.pmm.freePage m.cpu p } := by
      rw [Machine.freePage, Machine.onPage_pageToPa rfl (h.lt_of_held hp)]
    have hrest := ih (m := { m with pmm := m.pmm.freePage m.cpu p }) hcpu
      (by simpa [Block.single] using hinv)
    have hram : ({ m with pmm := m.pmm.freePage m.cpu p } : Machine).pmm.ram = m.pmm.ram := hst.ram_eq
    rw [hram] at hrest
    rwa [List.map_cons, List.foldl_cons, hfree]

/-- **`pmap::destroy`** frees the tables, each once, and then the allocator holds what others have. -/
theorem destroy (h : PageTables R others own tables root m) (hcpu : m.cpu < kMaxCpus) :
    ∃ freed : List ℕ, freed.Perm tables ∧
      m.pmapDestroy root = (freed.map m.pmm.ram.pageToPa).foldl Machine.freePage m ∧
      (m.pmapDestroy root).pmm.Inv R others := by
  -- the pages, in the order in which their addresses are found
  obtain ⟨freed, hmap, hperm⟩ :=
    (congrFun₂ (List.eq_map_comp_perm m.pmm.ram.pageToPa) _ _).mpr h.tables_perm
  refine ⟨freed, hperm, ?_, ?_⟩
  · rw [h.tree.pmapDestroy_eq, hmap]
  · rw [h.tree.pmapDestroy_eq, hmap]
    apply freeAll freed hcpu
    exact h.pmm.perm ((hperm.symm.map _).append_right _)

end PageTables

/-! ## Runs -/

/-- What a call does to the level-0 entries, given what it returned. -/
inductive SlotStep (s : ℕ → Word) : PmapOp × ℤ → (ℕ → Word) → Prop
  | map {s' : ℕ → Word} (cpu va pa : ℕ) (perm : Word) (h : ∀ n < kPageNumbers, s' n =
      if n = slotNo va then paToPte pa (perm ||| pteV ||| pteA ||| pteD) else s n) :
    SlotStep s (.map cpu va pa perm, 0) s'
  | mapFails {s' : ℕ → Word} (cpu va pa : ℕ) (perm : Word) (h : ∀ n, s' n = s n) :
    SlotStep s (.map cpu va pa perm, -12) s'
  | unmap {s' : ℕ → Word} (va : ℕ) (h : ∀ n < kPageNumbers, s' n = if n = slotNo va then 0 else s n) :
    SlotStep s (.unmap va, 0) s'
  | protect {s' : ℕ → Word} (va : ℕ) (perm : Word) (ht : (s (slotNo va)).target ≠ none)
    (h : ∀ n < kPageNumbers, s' n =
      if n = slotNo va then paToPte (pteToPa (s (slotNo va))) (perm ||| pteV) else s n) :
    SlotStep s (.protect va perm, 0) s'
  | protectFails {s' : ℕ → Word} (va : ℕ) (perm : Word) (ht : (s (slotNo va)).target = none)
    (h : ∀ n, s' n = s n) : SlotStep s (.protect va perm, -14) s'
  | makeCow {s' : ℕ → Word} (va : ℕ) (ht : (s (slotNo va)).target ≠ none)
    (h : ∀ n < kPageNumbers, s' n = if n = slotNo va then cowFlags (s (slotNo va)) else s n) :
    SlotStep s (.makeCow va, 0) s'
  | makeCowFails {s' : ℕ → Word} (va : ℕ) (ht : (s (slotNo va)).target = none)
    (h : ∀ n, s' n = s n) : SlotStep s (.makeCow va, -14) s'
  | alloc {s' : ℕ → Word} (cpu : ℕ) (h : ∀ n, s' n = s n) : SlotStep s (.alloc cpu, 0) s'
  | free {s' : ℕ → Word} (cpu p : ℕ) (h : ∀ n, s' n = s n) : SlotStep s (.free cpu p, 0) s'
  | store {s' : ℕ → Word} (p i : ℕ) (w : Word) (h : ∀ n, s' n = s n) : SlotStep s (.store p i w, 0) s'

namespace PmapSystem

variable {R : Finset ℕ} {others : List Block} {root : ℕ} {x y : PmapSystem} {l : PmapOp × ℤ}

/-- The tables of the root, the frames of the callers and `others` are all that is handed out. -/
def Tabled (R : Finset ℕ) (others : List Block) (root : ℕ) (x : PmapSystem) : Prop :=
  ∃ own tables, PageTables R (x.frames.map Block.single ++ others) own tables root x.machine

theorem not_mem_tables {own : ℕ → Owner} {tables : List ℕ} {p : ℕ}
    (h : PageTables R (x.frames.map Block.single ++ others) own tables root x.machine)
    (hp : p ∈ x.frames) : p ∉ tables := by
  intro ht
  have hdisj := (List.nodup_append'.mp h.pmm.nodup_held).2.2
  exact hdisj (List.mem_map_of_mem ht) (List.mem_append_left _ (List.mem_map_of_mem hp))

/-- **One call** keeps the books, and does to the entries what it says. -/
theorem Tabled.step (h : x.Tabled R others root) (hok : x.Allowed l) (hstep : Step root x l y) :
    y.Tabled R others root ∧ SlotStep (x.machine.mem.slot root) l (y.machine.mem.slot root) := by
  obtain ⟨own, tables, h⟩ := h
  obtain ⟨op, ret⟩ := l
  cases op with
  | map cpu va pa perm =>
    have hcpu : cpu < kMaxCpus := hok
    rcases hr : Machine.map { x.machine with cpu := cpu } root va pa perm with ⟨ret', m'⟩
    obtain ⟨rfl, rfl⟩ : ret' = ret ∧ { x with machine := m' } = y := by
      simpa [Step, exec, hr] using hstep
    obtain ⟨own', tables', h', hret⟩ := (h.withCpu cpu).map hcpu hr
    refine ⟨⟨own', tables', h'⟩, ?_⟩
    rcases hret with ⟨rfl, hslot⟩ | ⟨rfl, hslot⟩
    · exact .mapFails cpu va pa perm hslot
    · exact .map cpu va pa perm hslot
  | unmap va =>
    cases hstep
    obtain ⟨h', hslot⟩ := h.unmap va
    exact ⟨⟨own, tables, h'⟩, .unmap va hslot⟩
  | protect va perm =>
    rcases hr : x.machine.protect root va perm with ⟨ret', m'⟩
    obtain ⟨rfl, rfl⟩ : ret' = ret ∧ { x with machine := m' } = y := by
      simpa [Step, exec, hr] using hstep
    rw [Machine.protect] at hr
    obtain ⟨h', hret⟩ := h.rewrite (fun w => paToPte (pteToPa w) (perm ||| pteV))
      (show x.machine.mem.findLeaf va 3 root = none → ret' = -14 ∧ m' = x.machine by
        intro he
        rw [he] at hr
        cases hr
        exact ⟨rfl, rfl⟩)
      (fun e he => by
        rw [he] at hr
        cases hr
        exact ⟨rfl, rfl⟩)
    refine ⟨⟨own, tables, h'⟩, ?_⟩
    rcases hret with ⟨rfl, rfl, ht⟩ | ⟨rfl, ht, hslot⟩
    · exact .protectFails va perm ht fun _ => rfl
    · exact .protect va perm ht hslot
  | makeCow va =>
    rcases hr : x.machine.makeCow root va with ⟨ret', m'⟩
    obtain ⟨rfl, rfl⟩ : ret' = ret ∧ { x with machine := m' } = y := by
      simpa [Step, exec, hr] using hstep
    rw [Machine.makeCow] at hr
    obtain ⟨h', hret⟩ := h.rewrite cowFlags
      (show x.machine.mem.findLeaf va 3 root = none → ret' = -14 ∧ m' = x.machine by
        intro he
        rw [he] at hr
        cases hr
        exact ⟨rfl, rfl⟩)
      (fun e he => by
        rw [he] at hr
        cases hr
        exact ⟨rfl, rfl⟩)
    refine ⟨⟨own, tables, h'⟩, ?_⟩
    rcases hret with ⟨rfl, rfl, ht⟩ | ⟨rfl, ht, hslot⟩
    · exact .makeCowFails va ht fun _ => rfl
    · exact .makeCow va ht hslot
  | alloc cpu =>
    have hcpu : cpu < kMaxCpus := hok
    cases hstep
    obtain ⟨hram, ⟨hnone, hinv⟩ | ⟨p, hsome, hinv⟩⟩ := h.pmm.allocPage_cases hcpu
    · refine ⟨⟨own, tables, ?_⟩, .alloc cpu fun _ => rfl⟩
      rw [hnone]
      exact h.repmm hram hinv
    · refine ⟨⟨own, tables, ?_⟩, .alloc cpu fun _ => rfl⟩
      rw [hsome]
      exact h.repmm hram (hinv.perm List.perm_middle.symm)
  | free cpu p =>
    obtain ⟨hcpu, hp⟩ : cpu < kMaxCpus ∧ p ∈ x.frames := hok
    cases hstep
    have hheld : Block.single p ∈ tables.map Block.single ++ (x.frames.map Block.single ++ others) :=
      List.mem_append_right _ (List.mem_append_left _ (List.mem_map_of_mem hp))
    obtain ⟨hinv, hst⟩ := h.pmm.freePage hcpu hheld
    refine ⟨⟨own, tables, h.repmm hst.ram_eq (hinv.perm ?_)⟩, .free cpu p fun _ => rfl⟩
    -- what is left is the same with and without the page at the front
    apply List.Perm.cons_inv (a := Block.single p)
    refine (List.perm_cons_erase hheld).symm.trans ?_
    have hframes := ((List.perm_cons_erase hp).map Block.single).append_right others
    exact (hframes.append_left _).trans List.perm_middle
  | store p i w =>
    have hp : p ∈ x.frames := hok
    cases hstep
    obtain ⟨h', hslot⟩ := h.store (not_mem_tables h hp) i w
    exact ⟨⟨own, tables, h'⟩, .store p i w hslot⟩

/-- **Every run** keeps the books. -/
theorem Tabled.run (h : x.Tabled R others root) {ls : List (PmapOp × ℤ)}
    (hrun : Run (Guarded Allowed (Step root)) x ls y) : y.Tabled R others root :=
  hrun.invariant (fun hx hstep => (Tabled.step hx hstep.1 hstep.2).1) h

theorem tabled_create {m₀ m₁ : Machine} (h : m₀.pmm.Inv R others) (hcpu : m₀.cpu < kMaxCpus)
    (hcreate : m₀.pmapCreate = (some root, m₁)) : Tabled R others root ⟨m₁, []⟩ := by
  obtain ⟨own, p, htables, -⟩ := PageTables.create h hcpu hcreate
  exact ⟨own, [p], htables⟩

end PmapSystem

/-- **Table pages are freed exactly once.** A root is created, and there is a run of calls, of which
any `map` may fail. The allocator has then handed out the tables, the frames of the callers and what
it had handed out before; `pmap::destroy` frees the tables one by one, each once, and afterwards the
allocator has handed out the frames and what it had handed out before. -/
theorem page_tables_freed_once {R : Finset ℕ} {others : List Block} {m₀ m₁ : Machine} {root cpu : ℕ}
    {calls : List (PmapOp × ℤ)} {x : PmapSystem} (hinv : m₀.pmm.Inv R others)
    (hcpu : m₀.cpu < kMaxCpus) (hcreate : m₀.pmapCreate = (some root, m₁))
    (hrun : Run (Guarded PmapSystem.Allowed (PmapSystem.Step root)) ⟨m₁, []⟩ calls x)
    (hcpu' : cpu < kMaxCpus) :
    ∃ tables : List ℕ, tables.Nodup ∧ root ∈ tables.map x.machine.pmm.ram.pageToPa ∧
      x.machine.pmm.Inv R (tables.map Block.single ++ (x.frames.map Block.single ++ others)) ∧
      Machine.pmapDestroy { x.machine with cpu := cpu } root =
        (tables.map x.machine.pmm.ram.pageToPa).foldl Machine.freePage
          { x.machine with cpu := cpu } ∧
      (Machine.pmapDestroy { x.machine with cpu := cpu } root).pmm.Inv R
        (x.frames.map Block.single ++ others) := by
  obtain ⟨own, tables, h⟩ := (PmapSystem.tabled_create hinv hcpu hcreate).run hrun
  obtain ⟨freed, hperm, hdestroy, hback⟩ := (h.withCpu cpu).destroy hcpu'
  have hheld := h.pmm.perm ((hperm.symm.map Block.single).append_right _)
  refine ⟨freed, ?_, ?_, hheld, hdestroy, hback⟩
  · exact (List.nodup_append'.mp hheld.nodup_held).1.of_map Block.single
  · -- the root is the table at the empty path
    obtain ⟨p, -, hp, hown⟩ := h.tree.table [] root (Nat.zero_le 2) rfl
    rw [hp]
    exact List.mem_map_of_mem (hperm.mem_iff.mpr ((h.mem_tables p).mpr ⟨[], hown⟩))

/-- A machine after boot, with memory cleared. -/
def bootMachine (mb : Memblock) : Machine := ⟨fun _ _ => 0, pmmInit mb, 0, []⟩

theorem bootMachine_inv {mb : Memblock} (h : mb.Inv) : (bootMachine mb).pmm.Inv mb.reservedPages [] :=
  (pmmInit_inv h).1

/-- The small machine -/
def smallMachine : Machine := bootMachine (smallBoot [])

/-- One page is mapped below the root. -/
def smallMapped : ℤ × PmapSystem :=
  PmapSystem.exec 0x8000f000 ⟨smallMachine.pmapCreate.2, []⟩ (.map 0 0x1000 0x80000000 pteR)

theorem smallMachine_create :
    smallMachine.pmapCreate = (some 0x8000f000, smallMachine.pmapCreate.2) :=
  Prod.ext (by decide +kernel) rfl

theorem smallMachine_inv : smallMachine.pmm.Inv (smallBoot []).reservedPages [] := by
  have hboot : (smallBoot []).Inv := (memblockInit_spec (memblockInit_small 0x80008000)).2.1
  rw [smallMachine]
  exact bootMachine_inv hboot

/-- On the small machine: one page is mapped, and the root is destroyed. -/
theorem page_tables_freed_once_small : ∃ tables : List ℕ, tables.Nodup ∧
    smallMapped.2.machine.pmapDestroy 0x8000f000 =
      (tables.map smallMapped.2.machine.pmm.ram.pageToPa).foldl Machine.freePage
        smallMapped.2.machine := by
  have hrun : Run (Guarded PmapSystem.Allowed (PmapSystem.Step 0x8000f000))
      ⟨smallMachine.pmapCreate.2, []⟩ [(.map 0 0x1000 0x80000000 pteR, smallMapped.1)]
      smallMapped.2 :=
    .snoc (.nil _) ⟨show 0 < kMaxCpus by decide, rfl⟩
  have hcpu : smallMapped.2.machine.cpu = 0 := by decide +kernel
  obtain ⟨tables, hnodup, -, -, hdestroy, -⟩ :=
    page_tables_freed_once smallMachine_inv (by decide) smallMachine_create hrun
      (show smallMapped.2.machine.cpu < kMaxCpus by rw [hcpu]; decide)
  exact ⟨tables, hnodup, hdestroy⟩

/-! ## The map -/

/-- An entry: the physical page and the word in the table. -/
structure PageEntry where
  pa : ℕ
  pte : Word

/-- A map from page numbers to entries. -/
abbrev PageMap := ℕ → Option PageEntry

/-- What a call does to the map. -/
inductive PageMap.Step (f : PageMap) : PmapOp × ℤ → PageMap → Prop
  | map (cpu va pa : ℕ) (perm : Word) : Step f (.map cpu va pa perm, 0)
      (update f (slotNo va) (some ⟨pa, paToPte pa (perm ||| pteV ||| pteA ||| pteD)⟩))
  | mapFails (cpu va pa : ℕ) (perm : Word) : Step f (.map cpu va pa perm, -12) f
  | unmap (va : ℕ) : Step f (.unmap va, 0) (update f (slotNo va) none)
  | protect (va : ℕ) (perm : Word) (e : PageEntry) (he : f (slotNo va) = some e) :
    Step f (.protect va perm, 0)
      (update f (slotNo va) (some ⟨e.pa, paToPte e.pa (perm ||| pteV)⟩))
  | protectFails (va : ℕ) (perm : Word) (hnone : f (slotNo va) = none) :
    Step f (.protect va perm, -14) f
  | makeCow (va : ℕ) (e : PageEntry) (he : f (slotNo va) = some e) :
    Step f (.makeCow va, 0) (update f (slotNo va) (some ⟨e.pa, cowFlags e.pte⟩))
  | makeCowFails (va : ℕ) (hnone : f (slotNo va) = none) : Step f (.makeCow va, -14) f
  | alloc (cpu : ℕ) : Step f (.alloc cpu, 0) f
  | free (cpu p : ℕ) : Step f (.free cpu p, 0) f
  | store (p i : ℕ) (w : Word) : Step f (.store p i w, 0) f

/-- A permission: flags with at least one of `PTE_R`, `PTE_W` and `PTE_X`. -/
structure IsPermission (perm : Word) : Prop where
  flags : IsFlags perm
  leaf : perm.IsLeaf

/-- The leaf entry of an address. -/
def Mem.leafPte (mem : Mem) (root va : ℕ) : Option Word :=
  (mem.findLeaf va 3 root).map fun e => mem e.1 e.2

/-- After the call there is one of `PTE_R`, `PTE_W` and `PTE_X`, and physical addresses are aligned
and below `2 ^ 56`. -/
def PmapSystem.PermOk (root : ℕ) (x : PmapSystem) (l : PmapOp × ℤ) : Prop :=
  match l.1 with
  | .map _ _ pa perm => IsPermission perm ∧ kPageSize ∣ pa ∧ pa < 2 ^ 56
  | .protect _ perm => IsPermission perm
  | .makeCow va => ∀ w, x.machine.mem.leafPte root va = some w → (cowFlags w).IsLeaf
  | _ => True

/-- The entry that a word in a level-0 table is. -/
def pageEntry (w : Word) : Option PageEntry := w.target.map fun pa => ⟨pa, w⟩

theorem pageEntry_eq_none {w : Word} : pageEntry w = none ↔ w.target = none := Option.map_eq_none_iff

theorem pageEntry_of_target {w : Word} (h : w.target ≠ none) :
    pageEntry w = some ⟨pteToPa w, w⟩ := by
  rw [pageEntry, Word.target, if_pos (Word.target_ne_none.mp h)]
  rfl

theorem pageEntry_mapped {pa : ℕ} {perm : Word} (hd : kPageSize ∣ pa) (hpa : pa < 2 ^ 56)
    (hperm : IsPermission perm) : pageEntry (paToPte pa (perm ||| pteV ||| pteA ||| pteD)) =
      some ⟨pa, paToPte pa (perm ||| pteV ||| pteA ||| pteD)⟩ := by
  rw [pageEntry, target_mapped hd hpa hperm.flags, if_pos hperm.leaf]
  rfl

theorem pageEntry_protected (w : Word) {perm : Word} (hperm : IsPermission perm) :
    pageEntry (paToPte (pteToPa w) (perm ||| pteV)) =
      some ⟨pteToPa w, paToPte (pteToPa w) (perm ||| pteV)⟩ := by
  rw [pageEntry, target_protected (dvd_pteToPa w) (pteToPa_lt w) hperm.flags, if_pos hperm.leaf]
  rfl

theorem pageEntry_cow {w : Word} (h : w.target ≠ none) (hleaf : (cowFlags w).IsLeaf) :
    pageEntry (cowFlags w) = some ⟨pteToPa w, cowFlags w⟩ := by
  have hvalid : (cowFlags w).IsValid := by
    rw [Word.isValid_iff, getLsbD_cowFlags]
    simp [Word.isValid_iff.mp (Word.target_ne_none.mp h).1]
  rw [pageEntry_of_target (Word.target_ne_none.mpr ⟨hvalid, hleaf⟩), pteToPa_cowFlags]

namespace PmapSystem

variable {R : Finset ℕ} {others : List Block} {root : ℕ} {x y : PmapSystem} {l : PmapOp × ℤ}

/-- The map is that of the level-0 entries. -/
structure Represents (R : Finset ℕ) (others : List Block) (root : ℕ) (x : PmapSystem)
    (f : PageMap) : Prop where
  tabled : x.Tabled R others root
  entry : ∀ n < kPageNumbers, f n = pageEntry (x.machine.mem.slot root n)

theorem entry_update {f : PageMap} {s s' : ℕ → Word} {va : ℕ} {w : Word} {e : Option PageEntry}
    (h : ∀ n < kPageNumbers, f n = pageEntry (s n)) (he : e = pageEntry w)
    (hs : ∀ n < kPageNumbers, s' n = if n = slotNo va then w else s n) :
    ∀ n < kPageNumbers, update f (slotNo va) e n = pageEntry (s' n) := by
  intro n hn
  rw [hs n hn]
  rcases eq_or_ne n (slotNo va) with rfl | hne
  · rw [update_self, if_pos rfl, he]
  · rw [update_of_ne hne, if_neg hne, h n hn]

theorem Tabled.leafPte (h : x.Tabled R others root) (va : ℕ) : x.machine.mem.leafPte root va =
      (pageEntry (x.machine.mem.slot root (slotNo va))).map PageEntry.pte := by
  obtain ⟨own, tables, h⟩ := h
  have hmod : x.machine.mem.slot root (slotNo va) = x.machine.mem.slot root (va / kPageSize) :=
    Mem.slot_mod ..
  rw [Mem.leafPte, hmod]
  cases he : x.machine.mem.findLeaf va 3 root with
  | some e =>
    obtain ⟨ht, hi, htarget⟩ := h.tree.findLeaf_some.mp he
    rw [pageEntry_of_target htarget, Mem.slot_of_table ht, ← hi]
    rfl
  | none =>
    have hlook := h.tree.lookup_eq va
    rw [Mem.lookup, he] at hlook
    rw [pageEntry_eq_none.mpr hlook.symm]
    rfl

/-- **One call** acts on the map. -/
theorem Represents.step {f : PageMap} (h : x.Represents R others root f) (hok : x.Allowed l)
    (hperm : x.PermOk root l) (hstep : Step root x l y) :
    ∃ f', PageMap.Step f l f' ∧ y.Represents R others root f' := by
  obtain ⟨htabled, hslot⟩ := h.tabled.step hok hstep
  -- a slot that maps something is in the map
  have hentry {va : ℕ} (ht : (x.machine.mem.slot root (slotNo va)).target ≠ none) :
      f (slotNo va) = some ⟨pteToPa (x.machine.mem.slot root (slotNo va)),
        x.machine.mem.slot root (slotNo va)⟩ := by
    rw [h.entry _ (slotNo_lt va), pageEntry_of_target ht]
  have hnone {va : ℕ} (ht : (x.machine.mem.slot root (slotNo va)).target = none) :
      f (slotNo va) = none := by
    rw [h.entry _ (slotNo_lt va), pageEntry_eq_none.mpr ht]
  have hsame (hs : ∀ n, y.machine.mem.slot root n = x.machine.mem.slot root n) :
      ∀ n < kPageNumbers, f n = pageEntry (y.machine.mem.slot root n) := by
    intro n hn
    rw [hs n, h.entry n hn]
  cases hslot with
  | map cpu va pa perm hs =>
    obtain ⟨hp, hd, hpa⟩ : IsPermission perm ∧ kPageSize ∣ pa ∧ pa < 2 ^ 56 := hperm
    exact ⟨_, .map cpu va pa perm, htabled, entry_update h.entry (pageEntry_mapped hd hpa hp).symm hs⟩
  | mapFails cpu va pa perm hs => exact ⟨f, .mapFails cpu va pa perm, htabled, hsame hs⟩
  | unmap va hs => exact ⟨_, .unmap va, htabled, entry_update h.entry rfl hs⟩
  | protect va perm ht hs =>
    have hp : IsPermission perm := hperm
    exact ⟨_, .protect va perm _ (hentry ht), htabled,
      entry_update h.entry (pageEntry_protected _ hp).symm hs⟩
  | protectFails va perm ht hs => exact ⟨f, .protectFails va perm (hnone ht), htabled, hsame hs⟩
  | makeCow va ht hs =>
    have hleaf : (cowFlags (x.machine.mem.slot root (slotNo va))).IsLeaf := by
      apply hperm
      rw [h.tabled.leafPte, pageEntry_of_target ht]
      rfl
    exact ⟨_, .makeCow va _ (hentry ht), htabled, entry_update h.entry (pageEntry_cow ht hleaf).symm hs⟩
  | makeCowFails va ht hs => exact ⟨f, .makeCowFails va (hnone ht), htabled, hsame hs⟩
  | alloc cpu hs => exact ⟨f, .alloc cpu, htabled, hsame hs⟩
  | free cpu p hs => exact ⟨f, .free cpu p, htabled, hsame hs⟩
  | store p i w hs => exact ⟨f, .store p i w, htabled, hsame hs⟩

theorem Represents.reads {f : PageMap} (h : x.Represents R others root f) (va : ℕ) :
    x.machine.mem.lookup root va = (f (slotNo va)).map PageEntry.pa ∧
      x.machine.mem.leafPte root va = (f (slotNo va)).map PageEntry.pte ∧
      (x.machine.mem.isCow root va = true ↔ ∃ e, f (slotNo va) = some e ∧ e.pte.Has pteCow) := by
  refine ⟨?_, by rw [h.tabled.leafPte, h.entry _ (slotNo_lt va)], ?_⟩
  all_goals
    obtain ⟨own, tables, ht⟩ := h.tabled
    have hmod : x.machine.mem.slot root (slotNo va) = x.machine.mem.slot root (va / kPageSize) :=
      Mem.slot_mod ..
  · rw [h.entry _ (slotNo_lt va), ht.tree.lookup_eq, hmod, pageEntry, Option.map_map]
    exact (congrFun Option.map_id _).symm
  · rw [h.entry _ (slotNo_lt va), ht.tree.isCow_eq, hmod]
    constructor
    · rintro ⟨htarget, hcow⟩
      exact ⟨_, pageEntry_of_target htarget, hcow⟩
    · rintro ⟨e, he, hcow⟩
      have htarget : (x.machine.mem.slot root (va / kPageSize)).target ≠ none := by
        intro hnone
        rw [pageEntry_eq_none.mpr hnone] at he
        cases he
      rw [pageEntry_of_target htarget] at he
      cases he
      exact ⟨htarget, hcow⟩

end PmapSystem

/-- **Page tables refine a finite map.** A root is created, and there is a run of calls that leave
one of `PTE_R`, `PTE_W` and `PTE_X` in the entries, of which any `map` may fail. The map that starts
empty and takes the same steps, with the same returned values, is what `pmap::lookup`, `is_cow` and
the leaf entries show, and the tables that are reached at different paths are different pages. -/
theorem page_tables_refine_map {R : Finset ℕ} {others : List Block} {m₀ m₁ : Machine} {root : ℕ}
    {calls : List (PmapOp × ℤ)} {x : PmapSystem} (hinv : m₀.pmm.Inv R others)
    (hcpu : m₀.cpu < kMaxCpus) (hcreate : m₀.pmapCreate = (some root, m₁))
    (hrun : Run (Guarded (fun x l => x.Allowed l ∧ x.PermOk root l) (PmapSystem.Step root))
      ⟨m₁, []⟩ calls x) : (∃ f : PageMap, Run PageMap.Step (fun _ => none) calls f ∧ ∀ va,
      x.machine.mem.lookup root va = (f (slotNo va)).map PageEntry.pa ∧
      x.machine.mem.leafPte root va = (f (slotNo va)).map PageEntry.pte ∧
      (x.machine.mem.isCow root va = true ↔ ∃ e, f (slotNo va) = some e ∧ e.pte.Has pteCow)) ∧
    ∀ path path' t, path.length ≤ 2 → path'.length ≤ 2 → x.machine.mem.tableAt root path = some t →
      x.machine.mem.tableAt root path' = some t → path = path' := by
  have hstart : PmapSystem.Represents R others root ⟨m₁, []⟩ fun _ => none := by
    refine ⟨PmapSystem.tabled_create hinv hcpu hcreate, fun n _ => ?_⟩
    obtain ⟨_, _, -, -, hzero⟩ := PageTables.create hinv hcpu hcreate
    rw [hzero n]
    rfl
  obtain ⟨f, hf, hx⟩ : ∃ f, Run PageMap.Step (fun _ => none) calls f ∧
      x.Represents R others root f :=
    hrun.simulate (R := fun y g => y.Represents R others root g)
      (fun h hs => PmapSystem.Represents.step h hs.1.1 hs.1.2 hs.2) hstart
  refine ⟨⟨f, hf, hx.reads⟩, fun path path' t hlen hlen' ht ht' => ?_⟩
  obtain ⟨own, tables, h⟩ := hx.tabled
  exact h.tree.path_eq hlen hlen' ht ht'

/-- On the small machine: one page is mapped. -/
theorem page_tables_refine_map_small : ∃ f : PageMap,
    Run PageMap.Step (fun _ => none) [(.map 0 0x1000 0x80000000 pteR, smallMapped.1)] f ∧
      smallMapped.2.machine.mem.lookup 0x8000f000 0x1000 = (f 1).map PageEntry.pa := by
  have hrun : Run (Guarded (fun x l => x.Allowed l ∧ x.PermOk 0x8000f000 l)
      (PmapSystem.Step 0x8000f000)) ⟨smallMachine.pmapCreate.2, []⟩
      [(.map 0 0x1000 0x80000000 pteR, smallMapped.1)] smallMapped.2 :=
    .snoc (.nil _) ⟨⟨show 0 < kMaxCpus by decide,
      ⟨isFlags_bit (by decide), by decide⟩, by decide, by decide⟩, rfl⟩
  obtain ⟨⟨f, hf, hreads⟩, -⟩ :=
    page_tables_refine_map smallMachine_inv (by decide) smallMachine_create hrun
  exact ⟨f, hf, (hreads 0x1000).1⟩

end Lume
