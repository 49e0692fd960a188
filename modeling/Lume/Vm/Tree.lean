import Lume.Vm.Pmap

/-!
# The shape of the page tables

A table is reached from a root by a path of indices. The tables of all address spaces lie on
different physical pages; the ghost function `own` records which page is which table, and from
this alone follows what every write can and cannot change. What an address space maps is then
a function from page numbers to level-0 entries, its *slots*, and the walks of `pmap.cc` read
and write one slot.

## Main definitions

* `Owner`: who uses a physical page
* `Mem.tableAt`, `Mem.slot`: the table at a path, and the level-0 entry of a page number
* `Tree ram mem own sid root`: the tables below `root` are those that `own` gives to `sid`

## Main results

* `Tree.congr`: writes to other pages change nothing
* `Tree.write_slot`: a write to a level-0 table changes one slot
* `Tree.install`: a new table changes no slot
* `Tree.lookup_eq`, `Tree.isCow_eq`, `Tree.findLeaf_some`, `Mem.findTable_eq`: the walks
-/

namespace Lume

open Function (update update_of_ne update_self)

/-- Who uses a physical page: nobody here, the address space `sid` as the table at `path`, or
user mappings as a data frame. -/
inductive Owner
  | nobody
  | table (sid : ℕ) (path : List ℕ)
  | frame
deriving DecidableEq

/-! ## Page numbers and indices -/

/-- Three indices of 9 bits tell this many pages apart. -/
def kPageNumbers : ℕ := 2 ^ 27

/-- The index of page number `n` in a table of the given level. -/
def index (n level : ℕ) : ℕ := n / kPtePerPage ^ level % kPtePerPage

/-- The path to the level-0 table of a page number, innermost index first. -/
def tablePath (n : ℕ) : List ℕ := [index n 1, index n 2]

theorem index_lt (n level : ℕ) : index n level < kPtePerPage := Nat.mod_lt _ (by decide)

theorem vpn_eq (va level : ℕ) : vpn va level = index (va / kPageSize) level := by
  have hmask : (0x1FF : ℕ) = 2 ^ 9 - 1 := by decide
  rw [vpn, hmask, Nat.and_two_pow_sub_one_eq_mod, Nat.shiftRight_eq_div_pow, pow_add, pow_mul,
    ← Nat.div_div_eq_div_mul]
  rfl

theorem eq_of_index_eq {n n' : ℕ} (hn : n < kPageNumbers) (hn' : n' < kPageNumbers)
    (hpath : tablePath n = tablePath n') (h₀ : index n 0 = index n' 0) : n = n' := by
  simp only [tablePath, List.cons.injEq, and_true, index, kPtePerPage, kPageNumbers] at *
  omega

theorem index_mod {level : ℕ} (n : ℕ) (hl : level ≤ 2) :
    index (n % kPageNumbers) level = index n level := by
  obtain rfl | rfl | rfl : level = 0 ∨ level = 1 ∨ level = 2 := by omega
  all_goals
    simp only [index, kPageNumbers, kPtePerPage]
    omega

theorem tablePath_mod (n : ℕ) : tablePath (n % kPageNumbers) = tablePath n := by
  rw [tablePath, tablePath, index_mod n (by decide), index_mod n (by decide)]

/-- The addresses that a walk tells apart: it reads the low 39 bits only. -/
def kVaSpan : ℕ := kPageNumbers * kPageSize

/-- The page number whose slot a walk for address `va` reaches. -/
def slotNo (va : ℕ) : ℕ := va / kPageSize % kPageNumbers

theorem slotNo_lt (va : ℕ) : slotNo va < kPageNumbers := Nat.mod_lt _ (by decide)

theorem slotNo_page {n : ℕ} (hn : n < kPageNumbers) : slotNo (n * kPageSize) = n := by
  rw [slotNo, Nat.mul_div_cancel _ (by decide), Nat.mod_eq_of_lt hn]

theorem page_mod (va : ℕ) : va % kVaSpan / kPageSize = slotNo va := Nat.mod_mul_left_div_self ..

theorem vpn_mod {level : ℕ} (va : ℕ) (hl : level ≤ 2) : vpn (va % kVaSpan) level = vpn va level := by
  rw [vpn_eq, vpn_eq, page_mod, slotNo, index_mod _ hl]

namespace Mem

variable {mem : Mem} {pa i j : ℕ} {w : Word}

@[simp] theorem write_self : mem.write pa i w pa i = w := by simp [write]

theorem write_of_ne_pa {pa' : ℕ} (h : pa' ≠ pa) : mem.write pa i w pa' = mem pa' :=
  update_of_ne h ..

theorem write_of_ne (h : j ≠ i) : mem.write pa i w pa j = mem pa j := by simp [write, h]

/-- Memory after the page `c` was cleared and became the table at entry `i` of the table `t`. -/
def link (mem : Mem) (t i c : ℕ) : Mem :=
  Mem.write (update mem c fun _ => 0) t i (paToPte c pteV)

theorem link_self {t c : ℕ} : mem.link t i c t i = paToPte c pteV := write_self

theorem link_of_ne {t c : ℕ} (hc : c ≠ t) (hj : j ≠ i) : mem.link t i c t j = mem t j := by
  rw [link, write_of_ne hj, update_of_ne hc.symm]

theorem link_of_ne_pa {t c : ℕ} (ht : pa ≠ t) (hc : pa ≠ c) : mem.link t i c pa = mem pa := by
  rw [link, write_of_ne_pa ht, update_of_ne hc]

theorem link_child {t c : ℕ} (hc : c ≠ t) : mem.link t i c c j = 0 := by
  rw [link, write_of_ne_pa hc, update_self]

theorem findLeaf_mod (mem : Mem) (va : ℕ) {n : ℕ} (hn : n ≤ 3) (table : ℕ) :
    mem.findLeaf (va % kVaSpan) n table = mem.findLeaf va n table := by
  induction n generalizing table with
  | zero => rfl
  | succ n ih =>
    simp only [findLeaf, vpn_mod va (by omega : n ≤ 2)]
    rw [ih (by omega)]

theorem findTable_mod (mem : Mem) (va : ℕ) {n : ℕ} (hn : n ≤ 2) (table : ℕ) :
    mem.findTable (va % kVaSpan) n table = mem.findTable va n table := by
  induction n generalizing table with
  | zero => rfl
  | succ n ih =>
    simp only [findTable, vpn_mod va hn]
    rw [ih (by omega)]

theorem lookup_mod (mem : Mem) (root va : ℕ) : mem.lookup root (va % kVaSpan) = mem.lookup root va := by
  rw [lookup, lookup, findLeaf_mod mem va le_rfl]

theorem isCow_mod (mem : Mem) (root va : ℕ) : mem.isCow root (va % kVaSpan) = mem.isCow root va := by
  rw [isCow, isCow, findLeaf_mod mem va le_rfl]

/-! ## Tables and slots -/

/-- The table reached from the root by the indices of `path`, innermost index first. -/
def tableAt (mem : Mem) (root : ℕ) : List ℕ → Option ℕ
  | [] => some root
  | i :: up =>
    match tableAt mem root up with
    | some t => if (mem t i).IsValid then some (pteToPa (mem t i)) else none
    | none => none

/-- The level-0 entry of a page number; `0` without a level-0 table. -/
def slot (mem : Mem) (root n : ℕ) : Word :=
  match mem.tableAt root (tablePath n) with
  | some t => mem t (index n 0)
  | none => 0

theorem slot_of_table {root n t : ℕ} (h : mem.tableAt root (tablePath n) = some t) :
    mem.slot root n = mem t (index n 0) := by
  rw [slot, h]

theorem slot_of_none {root n : ℕ} (h : mem.tableAt root (tablePath n) = none) :
    mem.slot root n = 0 := by
  rw [slot, h]

theorem slot_mod (mem : Mem) (root n : ℕ) : mem.slot root (n % kPageNumbers) = mem.slot root n := by
  rw [slot, slot, tablePath_mod, index_mod n (by decide)]

theorem tableAt_cons_none {root : ℕ} {up : List ℕ} {t : ℕ} (ht : mem.tableAt root up = some t)
    (hi : ¬ (mem t i).IsValid) : mem.tableAt root (i :: up) = none := by
  simp [tableAt, ht, hi]

theorem findTable_eq (mem : Mem) (root va : ℕ) :
    mem.findTable va 2 root = mem.tableAt root (tablePath (va / kPageSize)) := by
  simp only [findTable, tablePath, tableAt, vpn_eq, Nat.zero_add, Nat.reduceAdd]
  split <;> rfl

end Mem

/-! ## The tables of one address space -/

/-- The tables below `root` are exactly those that `own` gives to `sid`, at the path it says,
and only level-0 tables have leaf entries. -/
structure Tree (ram : Ram) (mem : Mem) (own : ℕ → Owner) (sid root : ℕ) : Prop where
  table : ∀ path t, path.length ≤ 2 → mem.tableAt root path = some t →
    ∃ p < ram.numPages, t = ram.pageToPa p ∧ own p = .table sid path
  inner : ∀ path t i, path.length ≤ 1 → mem.tableAt root path = some t → (mem t i).IsValid →
    ¬ (mem t i).IsLeaf
  reached : ∀ p path, own p = .table sid path → path.length ≤ 2 ∧ (∀ i ∈ path, i < kPtePerPage) ∧
    mem.tableAt root path = some (ram.pageToPa p)

namespace Tree

variable {ram : Ram} {mem mem' : Mem} {own own' : ℕ → Owner} {sid root n t i : ℕ}
  {up path path' : List ℕ} {w : Word}

theorem path_eq (h : Tree ram mem own sid root) (hlen : path.length ≤ 2) (hlen' : path'.length ≤ 2)
    (ht : mem.tableAt root path = some t) (ht' : mem.tableAt root path' = some t) :
    path = path' := by
  obtain ⟨p, -, rfl, hp⟩ := h.table path t hlen ht
  obtain ⟨q, -, hpq, hq⟩ := h.table path' _ hlen' ht'
  rw [← ram.pageToPa_injective hpq, hp] at hq
  exact (Owner.table.inj hq).2

theorem tableAt_congr (h : Tree ram mem own sid root)
    (hmem : ∀ p path, path.length ≤ 1 → own p = .table sid path →
      mem' (ram.pageToPa p) = mem (ram.pageToPa p)) :
    ∀ path : List ℕ, path.length ≤ 2 → mem'.tableAt root path = mem.tableAt root path
  | [], _ => rfl
  | i :: up, hlen => by
    have hup : up.length ≤ 1 := by simpa using hlen
    have ih := h.tableAt_congr hmem up (by omega)
    rw [Mem.tableAt, Mem.tableAt, ih]
    cases ht : mem.tableAt root up with
    | none => rfl
    | some t =>
      obtain ⟨p, -, rfl, hp⟩ := h.table up t (by omega) ht
      simp only [hmem p up hup hp]

theorem congr (h : Tree ram mem own sid root)
    (hmem : ∀ p path, own p = .table sid path → mem' (ram.pageToPa p) = mem (ram.pageToPa p))
    (hown : ∀ p path, own' p = .table sid path ↔ own p = .table sid path) :
    Tree ram mem' own' sid root ∧ ∀ n, mem'.slot root n = mem.slot root n := by
  have hat := h.tableAt_congr fun p path _ hp => hmem p path hp
  refine ⟨⟨fun path t hlen ht => ?_, fun path t i hlen ht => ?_, fun p path hp => ?_⟩,
    fun n => ?_⟩
  · rw [hat path hlen] at ht
    obtain ⟨p, hlt, he, hp⟩ := h.table path t hlen ht
    exact ⟨p, hlt, he, (hown p path).mpr hp⟩
  · rw [hat path (by omega)] at ht
    obtain ⟨p, -, rfl, hp⟩ := h.table path t (by omega) ht
    rw [hmem p path hp]
    exact h.inner path _ i hlen ht
  · have hp' := (hown p path).mp hp
    obtain ⟨hlen, hlt, ht⟩ := h.reached p path hp'
    exact ⟨hlen, hlt, (hat path hlen).trans ht⟩
  · rw [Mem.slot, Mem.slot, hat _ (by simp [tablePath])]
    cases ht : mem.tableAt root (tablePath n) with
    | none => rfl
    | some t =>
      obtain ⟨p, -, rfl, hp⟩ := h.table _ t (by simp [tablePath]) ht
      simp only [hmem p _ hp]

/-! ## Writing a level-0 entry -/

section

variable (h : Tree ram mem own sid root) (ht : mem.tableAt root (tablePath n) = some t)
include h ht

theorem tableAt_write (hlen : path.length ≤ 2) :
    (mem.write t i w).tableAt root path = mem.tableAt root path := by
  refine h.tableAt_congr (fun p path hle hp => ?_) path hlen
  -- a table of a higher level has a shorter path, so it is another page
  obtain ⟨q, -, rfl, hq⟩ := h.table _ t (by simp [tablePath]) ht
  refine Mem.write_of_ne_pa fun he => ?_
  rw [ram.pageToPa_injective he, hq] at hp
  rw [← (Owner.table.inj hp).2] at hle
  simp [tablePath] at hle

theorem write_slot (w : Word) : Tree ram (mem.write t (index n 0) w) own sid root ∧
      ∀ n' < kPageNumbers, n < kPageNumbers → (mem.write t (index n 0) w).slot root n' =
        if n' = n then w else mem.slot root n' := by
  refine ⟨⟨fun path t' hlen ht' => ?_, fun path t' j hlen ht' => ?_, fun p path hp => ?_⟩,
    fun n' hn' hn => ?_⟩
  · rw [h.tableAt_write ht hlen] at ht'
    exact h.table path t' hlen ht'
  · rw [h.tableAt_write ht (by omega)] at ht'
    have hne : t' ≠ t := by
      rintro rfl
      have := h.path_eq (by omega) (by simp [tablePath]) ht' ht
      rw [this] at hlen
      simp [tablePath] at hlen
    rw [Mem.write_of_ne_pa hne]
    exact h.inner path t' j hlen ht'
  · obtain ⟨hlen, hlt, hat⟩ := h.reached p path hp
    exact ⟨hlen, hlt, (h.tableAt_write ht hlen).trans hat⟩
  · rw [Mem.slot, Mem.slot, h.tableAt_write ht (by simp [tablePath])]
    cases ht' : mem.tableAt root (tablePath n') with
    | none =>
      have hne : n' ≠ n := by
        rintro rfl
        rw [ht] at ht'
        cases ht'
      rw [if_neg hne]
    | some t' =>
      dsimp only
      by_cases hne : n' = n
      · subst hne
        rw [ht] at ht'
        cases ht'
        rw [if_pos rfl, Mem.write_self]
      rw [if_neg hne]
      by_cases he : t' = t
      · subst he
        have hpath := h.path_eq (by simp [tablePath]) (by simp [tablePath]) ht' ht
        exact Mem.write_of_ne fun hi => hne (eq_of_index_eq hn' hn hpath hi)
      · rw [Mem.write_of_ne_pa he]

end

/-! ## Installing a table -/

theorem isValid_link_entry (c : ℕ) : (paToPte c pteV).IsValid := by
  rw [Word.isValid_iff, getLsbD_paToPte (by decide)]
  decide

theorem not_isLeaf_link_entry (c : ℕ) : ¬ (paToPte c pteV).IsLeaf := by
  rw [Word.isLeaf_iff, getLsbD_paToPte (by decide), getLsbD_paToPte (by decide),
    getLsbD_paToPte (by decide)]
  decide

theorem not_isValid_zero : ¬ Word.IsValid 0#64 := by decide

section Install

variable {c : ℕ}

section

variable (h : Tree ram mem own sid root) (hup : up.length ≤ 1) (ht : mem.tableAt root up = some t)
  (hi : ¬ (mem t i).IsValid)
include h hup ht hi

theorem tableAt_link (hc : c < ram.numPages)
    (hfree : ∀ q, own c ≠ .table sid q) : ∀ path : List ℕ, path.length ≤ 2 →
      (mem.link t i (ram.pageToPa c)).tableAt root path =
        if path = i :: up then some (ram.pageToPa c) else mem.tableAt root path
  | [], _ => rfl
  | j :: q, hlen => by
    have hq : q.length ≤ 1 := by simpa using hlen
    have ih := tableAt_link hc hfree q (by omega)
    have hold {q : List ℕ} {s : ℕ} (hq : q.length ≤ 1) (hs : mem.tableAt root q = some s) :
        s ≠ ram.pageToPa c := by
      obtain ⟨p, -, rfl, hp⟩ := h.table q s (by omega) hs
      intro he
      rw [ram.pageToPa_injective he] at hp
      exact hfree q hp
    have hct : ram.pageToPa c ≠ t := (hold hup ht).symm
    rw [Mem.tableAt, Mem.tableAt, ih]
    by_cases hqi : q = i :: up
    · -- below the new table there is nothing, as before
      have hne : j :: q ≠ i :: up := by
        intro he
        have := congrArg List.length ((List.cons.inj he).2.symm.trans hqi)
        simp at this
      subst hqi
      rw [if_pos rfl, if_neg hne, Mem.tableAt_cons_none ht hi]
      simp [Mem.link_child hct, not_isValid_zero]
    rw [if_neg hqi]
    cases hs : mem.tableAt root q with
    | none =>
      have hne : j :: q ≠ i :: up := by
        intro he
        rw [(List.cons.inj he).2, ht] at hs
        cases hs
      rw [if_neg hne]
    | some s =>
      by_cases hst : s = t
      · subst hst
        obtain rfl := h.path_eq (by omega) (by omega) hs ht
        by_cases hji : j = i
        · subst hji
          have hlt := ram.pageToPa_lt hc
          simp [Mem.link_self, isValid_link_entry,
            pteToPa_paToPte (ram.pageToPa_aligned c) (by omega) isFlags_pteV]
        · simp [Mem.link_of_ne hct hji, hji]
      · have hne : j :: q ≠ i :: up := by
          intro he
          rw [(List.cons.inj he).2, ht] at hs
          exact hst (Option.some.inj hs).symm
        simp [Mem.link_of_ne_pa hst (hold hq hs), hne]

theorem install (hlt : i < kPtePerPage)
    (hc : c < ram.numPages) (hfree : ∀ q, own c ≠ .table sid q) :
    Tree ram (mem.link t i (ram.pageToPa c)) (update own c (.table sid (i :: up))) sid root ∧
      ∀ n, (mem.link t i (ram.pageToPa c)).slot root n = mem.slot root n := by
  have hat := h.tableAt_link hup ht hi hc hfree
  have hnew : mem.tableAt root (i :: up) = none := Mem.tableAt_cons_none ht hi
  -- an old table is another page than the new one
  have hold {q : List ℕ} {s : ℕ} (hq : q.length ≤ 2) (hs : mem.tableAt root q = some s) :
      ∃ p < ram.numPages, s = ram.pageToPa p ∧ own p = .table sid q ∧ p ≠ c := by
    obtain ⟨p, hlt, he, hp⟩ := h.table q s hq hs
    refine ⟨p, hlt, he, hp, ?_⟩
    rintro rfl
    exact hfree q hp
  have hct : ram.pageToPa c ≠ t := by
    obtain ⟨p, -, rfl, -, hne⟩ := hold (by omega) ht
    exact fun he => hne (ram.pageToPa_injective he).symm
  refine ⟨⟨fun path s hlen hs => ?_, fun path s j hlen hs hv => ?_, fun p path hp => ?_⟩,
    fun n => ?_⟩
  · rw [hat path hlen] at hs
    split at hs
    · cases hs
      rename_i he
      exact ⟨c, hc, rfl, by rw [he, update_self]⟩
    · obtain ⟨p, hlt, he, hp, hne⟩ := hold hlen hs
      exact ⟨p, hlt, he, by rw [update_of_ne hne, hp]⟩
  · rw [hat path (by omega)] at hs
    split at hs
    · cases hs
      rw [Mem.link_child hct] at hv
      exact absurd hv not_isValid_zero
    · obtain ⟨p, -, rfl, -, hne⟩ := hold (by omega) hs
      have hpc : ram.pageToPa p ≠ ram.pageToPa c := fun he => hne (ram.pageToPa_injective he)
      by_cases hst : ram.pageToPa p = t
      · by_cases hji : j = i
        · rw [hst, hji, Mem.link_self]
          exact not_isLeaf_link_entry _
        · rw [hst, Mem.link_of_ne hct hji] at hv ⊢
          exact h.inner path t j hlen (hst ▸ hs) hv
      · rw [Mem.link_of_ne_pa hst hpc] at hv ⊢
        exact h.inner path _ j hlen hs hv
  · rcases eq_or_ne p c with rfl | hne
    · rw [update_self] at hp
      cases hp
      obtain ⟨q, -, he, hq⟩ := h.table up t (by omega) ht
      have hidx := (h.reached q up hq).2.1
      refine ⟨by simpa using hup, ?_, by rw [hat _ (by simpa using hup), if_pos rfl]⟩
      intro j hj
      rcases List.mem_cons.mp hj with rfl | hj
      exacts [hlt, hidx j hj]
    · rw [update_of_ne hne] at hp
      obtain ⟨hlen, hidx, hpath⟩ := h.reached p path hp
      refine ⟨hlen, hidx, ?_⟩
      rw [hat path hlen, if_neg, hpath]
      rintro rfl
      rw [hnew] at hpath
      cases hpath
  · rw [Mem.slot, Mem.slot, hat _ (by simp [tablePath])]
    by_cases he : tablePath n = i :: up
    · rw [if_pos he, he, hnew]
      exact Mem.link_child hct
    · rw [if_neg he]
      cases hs : mem.tableAt root (tablePath n) with
      | none => rfl
      | some s =>
        obtain ⟨p, -, rfl, -, hpc⟩ := hold (by simp [tablePath]) hs
        have hst : ram.pageToPa p ≠ t := by
          rintro rfl
          have := h.path_eq (by simp [tablePath]) (by omega) hs ht
          rw [← this] at hup
          simp [tablePath] at hup
        simp only [Mem.link_of_ne_pa hst fun he => hpc (ram.pageToPa_injective he)]

end

end Install

/-! ## The walks -/

theorem findLeaf_some (h : Tree ram mem own sid root) {va : ℕ} {e : ℕ × ℕ} :
    mem.findLeaf va 3 root = some e ↔ mem.tableAt root (tablePath (va / kPageSize)) = some e.1 ∧
        e.2 = index (va / kPageSize) 0 ∧ (mem.slot root (va / kPageSize)).target ≠ none := by
  obtain ⟨t, j⟩ := e
  set n := va / kPageSize with hn
  have htarget (w : Word) : w.target ≠ none ↔ w.IsValid ∧ w.IsLeaf := by
    rw [Word.target]
    split <;> simp [*]
  have hroot : mem.tableAt root [] = some root := rfl
  simp only [Mem.findLeaf, vpn_eq, ← hn, tablePath, Mem.tableAt, Mem.slot, htarget]
  by_cases h₂ : (mem root (index n 2)).IsValid
  swap
  · simp [h₂]
  have hleaf₂ := h.inner [] root (index n 2) (by simp) hroot h₂
  simp only [h₂, hleaf₂, if_true, if_false]
  have h₂' : mem.tableAt root [index n 2] = some (pteToPa (mem root (index n 2))) := by
    simp [Mem.tableAt, h₂]
  by_cases h₁ : (mem (pteToPa (mem root (index n 2))) (index n 1)).IsValid
  swap
  · simp [h₁]
  have hleaf₁ := h.inner _ _ (index n 1) (by simp) h₂' h₁
  simp only [h₁, hleaf₁, if_true, if_false, Option.some.injEq]
  constructor
  · intro he
    split at he
    · split at he
      · cases he
        exact ⟨rfl, rfl, ‹_›, ‹_›⟩
      · cases he
    · cases he
  · rintro ⟨rfl, hi, hv, hl⟩
    rw [if_pos hv, if_pos hl, ← hi]

/-- **`pmap::lookup`** reads the slot of the page. -/
theorem lookup_eq (h : Tree ram mem own sid root) (va : ℕ) :
    mem.lookup root va = (mem.slot root (va / kPageSize)).target := by
  rw [Mem.lookup]
  cases he : mem.findLeaf va 3 root with
  | some e =>
    obtain ⟨ht, hi, htarget⟩ := h.findLeaf_some.mp he
    rw [Mem.slot_of_table ht, ← hi] at htarget ⊢
    rw [Word.target] at htarget ⊢
    split at htarget
    · rw [if_pos ‹_›]
      rfl
    · exact absurd rfl htarget
  | none =>
    symm
    by_contra hne
    have htarget : (mem.slot root (va / kPageSize)).target ≠ none := fun h => hne h
    cases ht : mem.tableAt root (tablePath (va / kPageSize)) with
    | none =>
      rw [Mem.slot_of_none ht] at htarget
      exact htarget rfl
    | some t =>
      have := h.findLeaf_some (e := (t, index (va / kPageSize) 0)).mpr ⟨ht, rfl, htarget⟩
      rw [he] at this
      cases this

/-- **`pmap::is_cow`** reads the slot of the page. -/
theorem isCow_eq (h : Tree ram mem own sid root) (va : ℕ) : mem.isCow root va = true ↔
    (mem.slot root (va / kPageSize)).target ≠ none ∧
      (mem.slot root (va / kPageSize)).Has pteCow := by
  rw [Mem.isCow]
  have hlook := h.lookup_eq va
  rw [Mem.lookup] at hlook
  cases he : mem.findLeaf va 3 root with
  | some e =>
    obtain ⟨ht, hi, htarget⟩ := h.findLeaf_some.mp he
    simp only [decide_eq_true_eq]
    rw [Mem.slot_of_table ht, ← hi] at htarget ⊢
    exact ⟨fun hc => ⟨htarget, hc⟩, fun hc => hc.2⟩
  | none =>
    rw [he] at hlook
    simp [← hlook]

end Tree

end Lume
