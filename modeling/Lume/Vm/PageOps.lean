import Lume.Vm.Ledger
import Lume.Vm.Space

/-!
# One page at a time

What the page-level code of `pmap.cc` and `mm/vma.cc` does to the slots and to the ledger. Each
of these functions writes at most one slot of one address space, or two when a page is cloned.
The code sometimes changes a count and a slot in an order that leaves the ledger short for a
moment, such as dropping the last reference before the entry is cleared; the two actions commute,
and the proofs take them in the other order.

## Main definitions

* `Books clean other roots g m'`: machine `m'` is accounted for, and owes no more than `g` if
  `clean`

## Main results

* `Ledger.map_spec`: the walk of `pmap::map` changes no slot before its last write
* `Ledger.dropPage_spec`, `Ledger.protectPage_spec`: unmapping and re-protecting a page
* `Ledger.demandFault_spec`, `Ledger.cowFault_spec`: the two page faults
* `Ledger.clonePage_spec`: sharing a page with a child
-/

namespace Lume

open Function (update update_eq_self update_of_ne update_self)

/-- Machine `m'` is accounted for; when `clean`, it owes no more than `g` did. -/
def Books (clean : Prop) (other : List Block) (roots : Roots) (g : Ghost) (m' : Machine) : Prop :=
  ∃ g', Ledger m' other roots g' ∧ g.Kin g' ∧ (clean → ∀ p, g'.debt p ≤ g.debt p)

/-- The same frames with the same debts. -/
structure Ghost.SameFrames (g g' : Ghost) : Prop where
  own_iff : ∀ p, g'.own p = .frame ↔ g.own p = .frame
  leak_eq : ∀ p, g.own p = .frame → g'.leak p = g.leak p

namespace Ghost.SameFrames

variable {g g' g'' : Ghost}

theorem refl (g : Ghost) : SameFrames g g := ⟨fun _ => Iff.rfl, fun _ _ => rfl⟩

theorem trans (h : SameFrames g g') (h' : SameFrames g' g'') : SameFrames g g'' :=
  ⟨fun p => (h'.own_iff p).trans (h.own_iff p),
    fun p hp => (h'.leak_eq p ((h.own_iff p).mpr hp)).trans (h.leak_eq p hp)⟩

theorem debt_eq (h : SameFrames g g') (p : ℕ) : g'.debt p = g.debt p := by
  rw [debt, debt]
  by_cases hp : g.own p = .frame
  · rw [if_pos hp, if_pos ((h.own_iff p).mpr hp), h.leak_eq p hp]
  · rw [if_neg hp, if_neg fun hp' => hp ((h.own_iff p).mp hp')]

theorem newTable {g : Ghost} {c : ℕ} (hc : g.own c = .nobody) (sid : ℕ) (path : List ℕ) :
    SameFrames g ((g.addFrame c).addTable c sid path) := by
  refine ⟨fun q => ?_, fun q hq => ?_⟩
  · rcases eq_or_ne q c with rfl | hne
    · simp [Ghost.addTable, hc]
    · simp [Ghost.addTable, Ghost.addFrame, hne]
  · have hne : q ≠ c := by
      rintro rfl
      rw [hc] at hq
      cases hq
    simp [Ghost.addTable, Ghost.addFrame, hne]

end Ghost.SameFrames

namespace Machine

variable {m : Machine} {pa t i : ℕ} {w : Word}

theorem write_onPage (f : Pmm → ℕ → Pmm) :
    (m.onPage pa f).write t i w = (m.write t i w).onPage pa f := by
  simp only [onPage, write]
  split <;> rfl

theorem mem_onPage (f : Pmm → ℕ → Pmm) : (m.onPage pa f).mem = m.mem := by
  rw [onPage]
  split <;> rfl

theorem unmap_decref (root va : ℕ) : (m.decref pa).unmap root va = (m.unmap root va).decref pa := by
  rw [unmap, unmap, decref, mem_onPage]
  split
  · rw [write_onPage]
    rfl
  · rfl

/-! Page by page, the code reads the low 39 bits of an address only. -/

theorem unmap_mod (m : Machine) (root va : ℕ) : m.unmap root (va % kVaSpan) = m.unmap root va := by
  rw [unmap, unmap, Mem.findTable_mod _ va le_rfl, vpn_mod va (by decide)]

theorem protect_mod (m : Machine) (root va : ℕ) (perm : Word) :
    m.protect root (va % kVaSpan) perm = m.protect root va perm := by
  rw [protect, protect, Mem.findLeaf_mod _ va le_rfl]

theorem mapWalk_mod (m : Machine) (va : ℕ) {n : ℕ} (hn : n ≤ 2) (table : ℕ) :
    m.mapWalk (va % kVaSpan) n table = m.mapWalk va n table := by
  induction n generalizing m table with
  | zero => rfl
  | succ n ih =>
    have ih (m : Machine) (table : ℕ) := ih m (by omega) table
    simp only [mapWalk, vpn_mod va hn, ih]

theorem map_mod (m : Machine) (root va pa : ℕ) (perm : Word) :
    m.map root (va % kVaSpan) pa perm = m.map root va pa perm := by
  rw [map, map, mapWalk_mod _ va le_rfl, vpn_mod va (by decide)]

theorem dropPage_mod (m : Machine) (root va : ℕ) :
    m.dropPage root (va % kVaSpan) = m.dropPage root va := by
  simp only [dropPage, Mem.lookup_mod, unmap_mod]

theorem protectPage_mod (m : Machine) (root : ℕ) (perm vmaPerm : Word) (va : ℕ) :
    m.protectPage root perm vmaPerm (va % kVaSpan) = m.protectPage root perm vmaPerm va := by
  simp only [protectPage, Mem.lookup_mod, Mem.isCow_mod, unmap_mod, protect_mod]

theorem cowFault_mod (m : Machine) (root va pa : ℕ) (perm : Word) :
    m.cowFault root (va % kVaSpan) pa perm = m.cowFault root va pa perm := by
  simp only [cowFault, map_mod]

theorem demandFault_mod (m : Machine) (root va : ℕ) (perm : Word) :
    m.demandFault root (va % kVaSpan) perm = m.demandFault root va perm := by
  simp only [demandFault, map_mod]

end Machine

namespace Ledger

variable {m m' : Machine} {other : List Block} {roots : Roots} {g g' : Ghost}
  {p sid root n t va pa addr : ℕ} {w perm vmaPerm : Word} {ret : Int}

/-! ## Walking -/

section

variable (h : Ledger m other roots g) (hr : roots sid = some root)
include h hr

theorem lookup_eq (hn : va / kPageSize < kPageNumbers) :
    m.mem.lookup root va = (m.mem.slots roots (sid, va / kPageSize)).target := by
  rw [(h.tree sid root hr).lookup_eq, Mem.slots_of_root hr hn]

theorem isCow_eq (hn : va / kPageSize < kPageNumbers) : m.mem.isCow root va = true ↔
      (m.mem.slots roots (sid, va / kPageSize)).target ≠ none ∧
        (m.mem.slots roots (sid, va / kPageSize)).Has pteCow := by
  rw [(h.tree sid root hr).isCow_eq, Mem.slots_of_root hr hn]

theorem lookup_page (hn : n < kPageNumbers) :
    m.mem.lookup root (n * kPageSize) = (m.mem.slots roots (sid, n)).target := by
  rw [(h.tree sid root hr).lookup_eq, Nat.mul_div_cancel _ (by decide), Mem.slots_of_root hr hn]

theorem isCow_page (hk : (m.mem.slots roots (sid, n)).target ≠ none) :
    m.mem.isCow root (n * kPageSize) = decide ((m.mem.slots roots (sid, n)).Has pteCow) := by
  have hn : n < kPageNumbers := by
    by_contra hge
    simp [Mem.slots, hge] at hk
  rw [Bool.eq_iff_iff, (h.tree sid root hr).isCow_eq, Nat.mul_div_cancel _ (by decide),
    ← Mem.slots_of_root hr hn, decide_eq_true_eq]
  exact and_iff_right hk

theorem lookup_slot (va : ℕ) :
    m.mem.lookup root va = (m.mem.slots roots (sid, slotNo va)).target := by
  rw [← Mem.lookup_mod, h.lookup_eq hr (page_mod va ▸ slotNo_lt va), page_mod]

theorem isCow_slot (va : ℕ) :
    m.mem.isCow root va = true ↔ (m.mem.slots roots (sid, slotNo va)).target ≠ none ∧
      (m.mem.slots roots (sid, slotNo va)).Has pteCow := by
  rw [← Mem.isCow_mod, h.isCow_eq hr (page_mod va ▸ slotNo_lt va), page_mod]

end

theorem table_of_target (m : Machine) (hr : roots sid = some root) (hn : n < kPageNumbers)
    (hk : (m.mem.slots roots (sid, n)).target ≠ none) :
    ∃ t, m.mem.tableAt root (tablePath n) = some t ∧
      m.mem.slots roots (sid, n) = m.mem t (index n 0) := by
  rw [Mem.slots_of_root hr hn] at hk ⊢
  cases ht : m.mem.tableAt root (tablePath n) with
  | none =>
    rw [Mem.slot_of_none ht] at hk
    exact absurd rfl hk
  | some t => exact ⟨t, rfl, Mem.slot_of_table ht⟩

theorem findLeaf_eq (h : Ledger m other roots g) (hr : roots sid = some root)
    (hn : va / kPageSize < kPageNumbers)
    (hk : (m.mem.slots roots (sid, va / kPageSize)).target ≠ none) :
    ∃ t, m.mem.findLeaf va 3 root = some (t, index (va / kPageSize) 0) ∧
      m.mem.tableAt root (tablePath (va / kPageSize)) = some t ∧
      m.mem.slots roots (sid, va / kPageSize) = m.mem t (index (va / kPageSize) 0) := by
  obtain ⟨t, ht, hs⟩ := table_of_target m hr hn hk
  rw [Mem.slots_of_root hr hn] at hk
  exact ⟨t, (h.tree sid root hr).findLeaf_some.mpr ⟨ht, rfl, hk⟩, ht, hs⟩

theorem leaf_eq (h : Ledger m other roots g) (hr : roots sid = some root) {e : ℕ × ℕ}
    (he : m.mem.findLeaf va 3 root = some e) : m.mem e.1 e.2 = m.mem.slots roots (sid, slotNo va) ∧
      (m.mem e.1 e.2).target = some (pteToPa (m.mem e.1 e.2)) := by
  obtain ⟨ht, hi, hk⟩ := (h.tree sid root hr).findLeaf_some.mp he
  have hslot : m.mem.slot root (va / kPageSize) = m.mem e.1 e.2 := by
    rw [Mem.slot_of_table ht, hi]
  rw [hslot, Word.target] at hk
  refine ⟨?_, ?_⟩
  · rw [Mem.slots_of_root hr (slotNo_lt va), slotNo, Mem.slot_mod, hslot]
  · rw [Word.target]
    split at hk
    · rw [if_pos ‹_›]
    · exact absurd rfl hk

/-- The path to the table of the given level. -/
def pathFrom (n level : ℕ) : List ℕ := (List.range' (level + 1) (2 - level)).map (index n)

theorem pathFrom_cons {level : ℕ} (hl : level < 2) :
    pathFrom n level = index n (level + 1) :: pathFrom n (level + 1) := by
  rw [pathFrom, pathFrom, show 2 - level = (2 - (level + 1)) + 1 by omega, List.range'_succ,
    List.map_cons]

section

variable (h : Ledger m other roots g) (hr : roots sid = some root)
include h hr

theorem installTable {m₁ : Machine} {child i : ℕ} {up : List ℕ} (hup : up.length ≤ 1) (ht : m.mem.tableAt root up = some t)
    (hv : ¬ (m.mem t i).IsValid) (hi : i < kPtePerPage) (ha : m.allocPage = (some child, m₁)) :
    ∃ c m₂, (m₁.fill child fun _ => 0).write t i (paToPte child pteV) = m₂ ∧
      child = g.ram.pageToPa c ∧ g.own c = .nobody ∧
      Ledger m₂ other roots ((g.addFrame c).addTable c sid (i :: up)) ∧
      m₂.mem.slots roots = m.mem.slots roots ∧ pteToPa (m₂.mem t i) = child ∧
      m₂.mem.tableAt root (i :: up) = some child ∧
      ∀ p, g.own p = .frame → m₂.mem (g.ram.pageToPa p) = m.mem (g.ram.pageToPa p) := by
  obtain ⟨hmem, c, rfl, hc, h₁⟩ := h.allocPage ha
  -- the page came as a frame that is mapped nowhere
  have hfree (k : ℕ × ℕ) : g.ram.frameOf (m₁.mem.slots roots k) ≠ some c := by
    rw [hmem]
    exact h.unmapped (by simp [hc]) k
  have hown : (g.addFrame c).own c = .frame := by simp [Ghost.addFrame]
  obtain ⟨q, -, hq, hqt⟩ := (h.tree sid root hr).table up t (by omega) ht
  rw [← hmem] at ht hv
  obtain ⟨hslots, h₂⟩ := h₁.link hr hup ht hv hi hown hfree
  have hlt : c < g.ram.numPages := h₁.own_lt (by rw [hown]; simp)
  refine ⟨c, _, rfl, rfl, hc, h₂, hslots.trans (by rw [hmem]), ?_, ?_, fun p hp => ?_⟩
  · have hpa := g.ram.pageToPa_lt hlt
    have hentry : ((m₁.fill (g.ram.pageToPa c) fun _ => 0).write t i
        (paToPte (g.ram.pageToPa c) pteV)).mem t i = paToPte (g.ram.pageToPa c) pteV :=
      Mem.write_self
    rw [hentry, pteToPa_paToPte (g.ram.pageToPa_aligned c) (by omega) isFlags_pteV]
  · exact ((h₂.tree sid root hr).reached c _ (update_self ..)).2.2
  · have hne : g.ram.pageToPa p ≠ t := by
      rintro rfl
      rw [g.ram.pageToPa_injective hq, hqt] at hp
      cases hp
    have hne' : g.ram.pageToPa p ≠ g.ram.pageToPa c := by
      intro he
      rw [g.ram.pageToPa_injective he, hc] at hp
      cases hp
    have hlink : m₁.mem.link t i (g.ram.pageToPa c) (g.ram.pageToPa p) = m₁.mem (g.ram.pageToPa p) :=
      Mem.link_of_ne_pa hne hne'
    rw [← hmem]
    exact hlink

theorem mapWalk_spec {level : ℕ}
    (hl : level ≤ 2) (ht : m.mem.tableAt root (pathFrom (va / kPageSize) level) = some t)
    {r : Option ℕ} (hres : m.mapWalk va level t = (r, m')) :
    ∃ g', Ledger m' other roots g' ∧ g.Kin g' ∧ g.SameFrames g' ∧
      m'.mem.slots roots = m.mem.slots roots ∧
      (∀ t', r = some t' → m'.mem.tableAt root (tablePath (va / kPageSize)) = some t') ∧
      ∀ p, g.own p = .frame → m'.mem (g.ram.pageToPa p) = m.mem (g.ram.pageToPa p) := by
  induction level generalizing m g t with
  | zero =>
    cases hres
    refine ⟨g, h, .refl g, .refl g, rfl, ?_, fun _ _ => rfl⟩
    rintro _ ⟨⟩
    exact ht
  | succ level ih =>
    have hcons := pathFrom_cons (n := va / kPageSize) (by omega : level < 2)
    have hup : (pathFrom (va / kPageSize) (level + 1)).length ≤ 1 := by
      simp [pathFrom]
    rw [Machine.mapWalk, vpn_eq] at hres
    dsimp only at hres
    split at hres
    · -- the table is there already
      rename_i hv
      exact ih h (by omega) (by rw [hcons, Mem.tableAt, ht]; simp [hv]) hres
    rename_i hv
    rw [Machine.allocPtPage] at hres
    cases ha : m.allocPage with
    | mk r₁ m₁ =>
    rw [ha] at hres
    cases r₁ with
    | none =>
      obtain ⟨hmem, hout⟩ := h.allocPage ha
      cases hres
      exact ⟨g, hout, .refl g, .refl g, by rw [hmem], by simp, fun _ _ => by rw [hmem]⟩
    | some child =>
      obtain ⟨c, m₂, hm₂, rfl, hc, h₂, hslots, hchild, hreach, hframe⟩ :=
        h.installTable hr hup ht hv (index_lt ..) ha
      dsimp only at hres
      rw [hm₂, hchild] at hres
      obtain ⟨g', h', hkin, hsame, hs, hend, hframe'⟩ := ih h₂ (by omega) (hcons ▸ hreach) hres
      have hkin' : g.Kin ((g.addFrame c).addTable c sid
        (index (va / kPageSize) (level + 1) :: pathFrom (va / kPageSize) (level + 1))) :=
        ⟨rfl, rfl, rfl⟩
      have hnew := Ghost.SameFrames.newTable hc sid
        (index (va / kPageSize) (level + 1) :: pathFrom (va / kPageSize) (level + 1))
      exact ⟨g', h', hkin'.trans hkin, hnew.trans hsame, hs.trans hslots, hend,
        fun p hp => (hframe' p ((hnew.own_iff p).mpr hp)).trans (hframe p hp)⟩

/-- **`pmap::map`** up to its last write -/
theorem map_spec (hres : m.map root va pa perm = (ret, m')) :
    ∃ m₁ g₁, Ledger m₁ other roots g₁ ∧ g.Kin g₁ ∧ g.SameFrames g₁ ∧
      m₁.mem.slots roots = m.mem.slots roots ∧ ((ret ≠ 0 ∧ m' = m₁) ∨
        (ret = 0 ∧ ∃ t, m₁.mem.tableAt root (tablePath (va / kPageSize)) = some t ∧
          m' = m₁.write t (index (va / kPageSize) 0)
            (paToPte pa (perm ||| pteV ||| pteA ||| pteD)))) := by
  rw [Machine.map] at hres
  cases hw : m.mapWalk va 2 root with
  | mk r m₁ =>
  obtain ⟨g₁, h₁, hkin, hsame, hs, hend, -⟩ := h.mapWalk_spec hr le_rfl rfl hw
  rw [hw] at hres
  refine ⟨m₁, g₁, h₁, hkin, hsame, hs, ?_⟩
  cases r with
  | none =>
    cases hres
    exact .inl ⟨by decide, rfl⟩
  | some t =>
    cases hres
    exact .inr ⟨rfl, t, hend t rfl, by rw [vpn_eq]⟩

theorem frame_ne_table {n t : ℕ}
    (ht : m.mem.tableAt root (tablePath n) = some t) (hp : g.own p = .frame) :
    g.ram.pageToPa p ≠ t := by
  obtain ⟨q, -, rfl, hq⟩ := (h.tree sid root hr).table _ t (by simp [tablePath]) ht
  intro he
  rw [g.ram.pageToPa_injective he, hq] at hp
  cases hp

end

/-- The frames of `g` keep their contents. -/
def KeepsFrames (g : Ghost) (mem mem' : Mem) : Prop :=
  ∀ p, g.own p = .frame → mem' (g.ram.pageToPa p) = mem (g.ram.pageToPa p)

theorem map_frame (h : Ledger m other roots g) (hr : roots sid = some root)
    (hres : m.map root va pa perm = (ret, m')) (hp : g.own p = .frame) :
    m'.mem (g.ram.pageToPa p) = m.mem (g.ram.pageToPa p) := by
  rw [Machine.map] at hres
  cases hw : m.mapWalk va 2 root with
  | mk r m₁ =>
  obtain ⟨g₁, h₁, hkin, hsame, -, hend, hframe⟩ := h.mapWalk_spec hr le_rfl rfl hw
  rw [hw] at hres
  cases r with
  | none =>
    cases hres
    exact hframe p hp
  | some t =>
    cases hres
    refine (Mem.write_of_ne_pa ?_).trans (hframe p hp)
    rw [← hkin.ram_eq]
    exact h₁.frame_ne_table hr (hend t rfl) ((hsame.own_iff p).mpr hp)

theorem refcount_eq {m₁ : Machine} {roots₁ : Roots} (h : Ledger m other roots g)
    (h₁ : Ledger m₁ other roots₁ g') (hram : g'.ram = g.ram) (hp : g.own p = .frame)
    (hp' : g'.own p = .frame) (hleak : g'.leak p = g.leak p)
    (hs : m₁.mem.slots roots₁ = m.mem.slots roots) :
    (m₁.pmm.pageMap p).refcount = (m.pmm.pageMap p).refcount := by
  have hsub {b c : ℕ} (hbc : b ≤ c) : slotKeys b ⊆ slotKeys c := by
    intro k hk
    simp only [slotKeys, Finset.mem_product, Finset.mem_range] at hk ⊢
    exact ⟨by omega, hk.2⟩
  have hc := (h.refs.extend (hsub (le_max_left g.bound g'.bound))).count p hp
  have hc₁ := (h₁.refs.extend (hsub (le_max_right g.bound g'.bound))).count p hp'
  rw [hs, hram, hleak, ← hc] at hc₁
  exact hc₁

/-! ## Unmapping a page -/

section

variable (h : Ledger m other roots g) (hr : roots sid = some root)
  (hn : addr / kPageSize < kPageNumbers)
include h hr hn

theorem clear_spec (hk : (m.mem.slots roots (sid, addr / kPageSize)).target = some pa) :
    Books True other roots g ((m.decref pa).unmap root addr) ∧
      ((m.decref pa).unmap root addr).mem.slots roots =
        update (m.mem.slots roots) (sid, addr / kPageSize) 0 := by
  obtain ⟨p, hlt, rfl, hf, hp⟩ := h.frame_of_target hk
  obtain ⟨t, ht, -⟩ := table_of_target m hr hn (by simp [hk])
  rw [Machine.unmap_decref, Machine.unmap, Mem.findTable_eq, ht]
  dsimp only
  rw [vpn_eq]
  have h₁ := h.write_none hr hn ht (w := 0) Word.target_zero
  rw [hf] at h₁
  -- the entry is cleared, its reference is owed, and the count pays it
  obtain ⟨hmem, h₂⟩ := h₁.decref (p := p) hp (by simp [Ghost.owed, owe])
  have hkin : g.Kin (g.owed (some p)) := ⟨rfl, rfl, rfl⟩
  refine ⟨⟨_, h₂, hkin.trans (Ghost.kin_settle _), fun _ q => ?_⟩, ?_⟩
  · refine (Ghost.debt_settle_le _).trans ?_
    rw [Ghost.debt_owed hp, Ghost.debt_owed hp, if_pos rfl]
    split
    · rename_i he
      rw [he]
      exact le_rfl
    · exact le_rfl
  · have hs := h.slots_write hr hn ht 0
    rw [← hs]
    exact congrArg (Mem.slots · roots) hmem

/-- **The body of `vmm_unmap_user`'s loop** -/
theorem dropPage_spec : Books True other roots g (m.dropPage root addr) ∧
      ∃ w : Word, w.target = none ∧ (m.dropPage root addr).mem.slots roots =
        update (m.mem.slots roots) (sid, addr / kPageSize) w := by
  have hlook := h.lookup_eq hr hn
  rw [Machine.dropPage]
  cases hl : m.mem.lookup root addr with
  | none =>
    rw [hlook] at hl
    exact ⟨⟨g, h, .refl g, fun _ _ => le_rfl⟩, _, hl, (update_eq_self ..).symm⟩
  | some pa =>
    rw [hlook] at hl
    obtain ⟨hb, hs⟩ := h.clear_spec hr hn hl
    exact ⟨hb, 0, Word.target_zero, hs⟩

end

/-! ## Changing the permissions of a page -/

/-- The flags that `vmm_protect_user` asks for. -/
def protectFlags (vmaPerm : Word) (cow : Bool) : Word :=
  if vmaPerm.Has vmWrite ∧ cow then cowFlags (vmPermToPte vmaPerm) else vmPermToPte vmaPerm

theorem isFlags_protectFlags (cow : Bool) : IsFlags (protectFlags vmaPerm cow) := by
  rw [protectFlags]
  split
  exacts [(isFlags_vmPermToPte _).cowFlags, isFlags_vmPermToPte _]

theorem grants_protectFlags (cow : Bool) : Grants (protectFlags vmaPerm cow) vmaPerm := by
  rw [protectFlags]
  split
  exacts [(grants_vmPermToPte _).cowFlags, grants_vmPermToPte _]

theorem not_write_protectFlags : (protectFlags vmaPerm true).getLsbD 2 = false := by
  rw [protectFlags]
  split
  · exact not_write_cowFlags _
  · rename_i hw
    have hg := grants_vmPermToPte vmaPerm
    by_contra h₂
    refine hw ⟨?_, rfl⟩
    exact (Word.has_bit (by decide)).mpr (hg.write (by simpa using h₂))

/-- **The body of `vmm_protect_user`'s loop**. A page whose new flags make no leaf entry is lost,
with its reference. -/
theorem protectPage_spec (h : Ledger m other roots g) (hr : roots sid = some root)
    (hn : addr / kPageSize < kPageNumbers) (perm vmaPerm : Word) {old : Word}
    (hold : m.mem.slots roots (sid, addr / kPageSize) = old) : Books (old.target ≠ none → perm = 0 ∨
        (protectFlags vmaPerm (m.mem.isCow root addr)).IsLeaf) other roots g
        (m.protectPage root perm vmaPerm addr).2 ∧
      ∃ w : Word, (m.protectPage root perm vmaPerm addr).2.mem.slots roots =
          update (m.mem.slots roots) (sid, addr / kPageSize) w ∧
        (w.target = none ∨ w.target = old.target) ∧ (w.target ≠ none → Grants w vmaPerm) ∧
        (w.target ≠ none → w.getLsbD 2 = true → ¬ old.Has pteCow) := by
  subst hold
  have hlook := h.lookup_eq hr hn
  rw [Machine.protectPage]
  cases hl : m.mem.lookup root addr with
  | none =>
    rw [hlook] at hl
    exact ⟨⟨g, h, .refl g, fun _ _ => le_rfl⟩, _, (update_eq_self ..).symm, .inl hl,
      fun hne => absurd hl hne, fun hne => absurd hl hne⟩
  | some pa =>
    rw [hlook] at hl
    dsimp only
    split
    · obtain ⟨⟨g', h', hkin, hdebt⟩, hs⟩ := h.clear_spec hr hn hl
      exact ⟨⟨g', h', hkin, fun _ => hdebt trivial⟩, 0, hs, .inl Word.target_zero,
        fun hne => absurd Word.target_zero hne, fun hne => absurd Word.target_zero hne⟩
    rename_i hperm
    have hcow := h.isCow_eq hr hn
    obtain ⟨t, hfind, ht, hslot⟩ := h.findLeaf_eq hr hn (by simp [hl])
    obtain ⟨p, hlt, rfl, hf, hp⟩ := h.frame_of_target hl
    have hpa : pteToPa (m.mem.slots roots (sid, addr / kPageSize)) = g.ram.pageToPa p := by
      rw [Word.target] at hl
      split at hl
      · exact Option.some.inj hl
      · cases hl
    rw [← protectFlags, Machine.protect, hfind]
    dsimp only
    rw [← hslot, hpa]
    generalize hflags : protectFlags vmaPerm (m.mem.isCow root addr) = flags
    have hlt' := g.ram.pageToPa_lt hlt
    have htarget := target_protected (g.ram.pageToPa_aligned p) (by omega)
      (hflags ▸ isFlags_protectFlags _)
    have hgrants : Grants flags vmaPerm := hflags ▸ grants_protectFlags _
    have hs := h.slots_write hr hn ht (paToPte (g.ram.pageToPa p) (flags ||| pteV))
    refine ⟨?_, _, hs, ?_, fun _ => hgrants.protected _, fun _ hw hc => ?_⟩
    · by_cases hleaf : flags.IsLeaf
      · rw [if_pos hleaf] at htarget
        exact ⟨g, h.write_kept hr hn ht hf htarget, .refl g, fun _ _ => le_rfl⟩
      · rw [if_neg hleaf] at htarget
        refine ⟨_, h.write_none hr hn ht htarget, ⟨rfl, rfl, rfl⟩, fun hclean => ?_⟩
        exact absurd ((hclean (by simp [hl])).resolve_left hperm) hleaf
    · rw [htarget, hl]
      split <;> simp
    · rw [(getLsbD_entry (by simp)).1, ← hflags, hcow.mpr ⟨by simp [hl], hc⟩,
        not_write_protectFlags] at hw
      cases hw

/-! ## Page faults -/

/-- What a page fault writes. -/
def faultEntry (pa : ℕ) (perm : Word) : Word :=
  paToPte pa (vmPermToPte perm ||| pteV ||| pteA ||| pteD)

/-- A fault fails and leaves the slots alone, or gives slot `k` a frame that nobody owned. -/
def Faulted (g : Ghost) (σ σ' : ℕ × ℕ → Word) (k : ℕ × ℕ) (perm : Word) (ret : ℤ) : Prop :=
  (ret ≠ 0 ∧ σ' = σ) ∨ ∃ p < g.ram.numPages, g.own p = .nobody ∧
    σ' = update σ k (faultEntry (g.ram.pageToPa p) perm)

theorem target_faultEntry {ram : Ram} (hp : p < ram.numPages) (hperm : (vmPermToPte perm).IsLeaf) :
    (faultEntry (ram.pageToPa p) perm).target = some (ram.pageToPa p) := by
  have := ram.pageToPa_lt hp
  rw [faultEntry, target_mapped (ram.pageToPa_aligned p) (by omega) (isFlags_vmPermToPte _),
    if_pos hperm]

section

variable (h : Ledger m other roots g) (hr : roots sid = some root)
  (hn : addr / kPageSize < kPageNumbers)
include h hr hn

/-- Mapping a fresh frame: without tables it goes back, otherwise the slot takes its reference
and owes the one it held. -/
theorem mapFresh {m₁ m₂ : Machine} (hp : g.own p = .nobody)
    (h₁ : Ledger m₁ other roots (g.addFrame p))
    (hs₁ : m₁.mem.slots roots = m.mem.slots roots) (hperm : (vmPermToPte perm).IsLeaf)
    (hmap : m₁.map root addr (g.ram.pageToPa p) (vmPermToPte perm) = (ret, m₂)) :
    (ret ≠ 0 ∧ Books True other roots g (m₂.freePage (g.ram.pageToPa p)) ∧
        (m₂.freePage (g.ram.pageToPa p)).mem.slots roots = m.mem.slots roots) ∨
      (ret = 0 ∧ p < g.ram.numPages ∧
        m₂.mem.slots roots = update (m.mem.slots roots) (sid, addr / kPageSize)
          (faultEntry (g.ram.pageToPa p) perm) ∧ ∃ g₂, Ledger m₂ other roots g₂ ∧ g.Kin g₂ ∧
          (∀ q, g.own q = .frame → g₂.own q = .frame) ∧ ∀ q, g₂.debt q ≤
            owe g.debt (g.ram.frameOf (m.mem.slots roots (sid, addr / kPageSize))) q ∧
            (g.own q = .frame →
              owe g.debt (g.ram.frameOf (m.mem.slots roots (sid, addr / kPageSize))) q ≤
                g₂.debt q)) := by
  obtain ⟨m₂', g₂, h₂, hkin, hsame, hs₂, hcase⟩ := h₁.map_spec hr hmap
  have hram : g₂.ram = g.ram := hkin.ram_eq
  have hown₁ : (g.addFrame p).own p = .frame := by simp [Ghost.addFrame]
  have hown : g₂.own p = .frame := (hsame.own_iff p).mpr hown₁
  have hs : m₂'.mem.slots roots = m.mem.slots roots := hs₂.trans hs₁
  have hfree (k : ℕ × ℕ) : g₂.ram.frameOf (m₂'.mem.slots roots k) ≠ some p := by
    rw [hram, hs]
    exact h.unmapped (by simp [hp]) k
  rcases hcase with ⟨hret, rfl⟩ | ⟨rfl, t, ht, rfl⟩
  · obtain ⟨hmem, h₃⟩ := h₂.freePage (by simp [hown]) hfree (by simp [hown])
    rw [hram] at h₃ hmem
    refine .inl ⟨hret, ⟨_, h₃, ⟨hram, hkin.reserved_eq, hkin.dying_eq⟩, fun _ q => ?_⟩, ?_⟩
    · rw [Ghost.debt_drop, hsame.debt_eq, Ghost.debt_addFrame]
      split
      · exact Nat.zero_le _
      · exact le_rfl
    · rw [hmem, hs]
  · have hlt : p < g.ram.numPages := h₁.own_lt (by simp [hown₁])
    have hleak : g₂.leak p = 1 := by
      rw [hsame.leak_eq p hown₁]
      simp [Ghost.addFrame]
    have htarget : (faultEntry (g.ram.pageToPa p) perm).target = some (g₂.ram.pageToPa p) := by
      rw [hram]
      exact target_faultEntry hlt hperm
    have hpos : 0 < owe g₂.leak
        (g₂.ram.frameOf (m₂'.mem.slots roots (sid, addr / kPageSize))) p := by
      have := leak_le_owe g₂.leak
        (g₂.ram.frameOf (m₂'.mem.slots roots (sid, addr / kPageSize))) p
      omega
    have h₃ := h₂.write_some hr hn ht htarget hown hpos fun k hk => absurd hk (hfree k)
    have hkeep (q : ℕ) (hq : g.own q = .frame) : g₂.own q = .frame ∧ q ≠ p := by
      have hne : q ≠ p := by
        rintro rfl
        rw [hp] at hq
        cases hq
      exact ⟨(hsame.own_iff q).mpr (by simp [Ghost.addFrame, hne, hq]), hne⟩
    -- what is owed to the frames of `g`, and that nothing is owed to the new one
    have hdebt (q : ℕ) : ((g₂.owed (g₂.ram.frameOf (m₂'.mem.slots roots
        (sid, addr / kPageSize)))).pay p).debt q =
        if q = p then 0 else owe g.debt
          (g.ram.frameOf (m.mem.slots roots (sid, addr / kPageSize))) q := by
      rw [hram, hs, Ghost.debt_pay]
      cases hf : g.ram.frameOf (m.mem.slots roots (sid, addr / kPageSize)) with
      | none =>
        rw [show (g₂.owed none).debt = g₂.debt from rfl, hsame.debt_eq, hsame.debt_eq,
          Ghost.debt_addFrame, Ghost.debt_addFrame, if_pos rfl]
        split <;> rfl
      | some p₀ =>
        have hp₀ := hkeep p₀ (h.refs.alive _ _ hf)
        rw [Ghost.debt_owed hp₀.1, Ghost.debt_owed hp₀.1, hsame.debt_eq, hsame.debt_eq,
          hsame.debt_eq, Ghost.debt_addFrame, Ghost.debt_addFrame, Ghost.debt_addFrame,
          if_neg hp₀.2.symm, if_pos rfl, if_neg hp₀.2, owe_apply]
        split
        · rfl
        · simp only [Option.some.injEq, eq_comm]
          split
          · rename_i he
            rw [he]
          · rfl
    refine .inr ⟨rfl, hlt, ?_, _, h₃, ⟨hram, hkin.reserved_eq, hkin.dying_eq⟩,
      fun q hq => (hkeep q hq).1, fun q => ⟨?_, fun hq => ?_⟩⟩
    · rw [h₂.slots_write hr hn ht, hs]
      rfl
    · rw [hdebt]
      split
      · exact Nat.zero_le _
      · exact le_rfl
    · rw [hdebt, if_neg (hkeep q hq).2]

/-- **The demand-paging path of `vmm_handle_page_fault`** -/
theorem demandFault_spec (hk : (m.mem.slots roots (sid, addr / kPageSize)).target = none)
    (hperm : (vmPermToPte perm).IsLeaf) (hres : m.demandFault root addr perm = (ret, m')) :
    Books True other roots g m' ∧
      Faulted g (m.mem.slots roots) (m'.mem.slots roots) (sid, addr / kPageSize) perm ret := by
  rw [Machine.demandFault] at hres
  cases ha : m.allocPage with
  | mk r m₁ =>
  obtain ⟨hmem, hout⟩ := h.allocPage ha
  rw [ha] at hres
  cases r with
  | none =>
    cases hres
    exact ⟨⟨g, hout, .refl g, fun _ _ => le_rfl⟩, .inl ⟨by decide, by rw [hmem]⟩⟩
  | some pa =>
  obtain ⟨p, rfl, hp, h₁⟩ := hout
  dsimp only at h₁ hres
  cases hmap : m₁.map root addr (g.ram.pageToPa p) (vmPermToPte perm) with
  | mk ret₁ m₂ =>
  rw [hmap] at hres
  dsimp only at hres
  rcases h.mapFresh hr hn hp h₁ (by rw [hmem]) hperm hmap with
    ⟨hret, hb, hs⟩ | ⟨rfl, hlt, hs, g₂, h₂, hkin, -, hdebt⟩
  · rw [if_pos hret] at hres
    cases hres
    exact ⟨hb, .inl ⟨by decide, hs⟩⟩
  · rw [if_neg (by decide)] at hres
    cases hres
    have hf : g.ram.frameOf (m.mem.slots roots (sid, addr / kPageSize)) = none := by
      rw [Ram.frameOf, hk]
      rfl
    refine ⟨⟨g₂, h₂, hkin, fun _ q => ?_⟩, .inr ⟨p, hlt, hp, hs⟩⟩
    have := (hdebt q).1
    rwa [hf] at this

/-- **The copy-on-write path of `vmm_handle_page_fault`**: the new frame holds a copy, and the old
one loses the reference of this slot. -/
theorem cowFault_spec (hk : (m.mem.slots roots (sid, addr / kPageSize)).target = some pa)
    (hperm : (vmPermToPte perm).IsLeaf) (hres : m.cowFault root addr pa perm = (ret, m')) :
    Books True other roots g m' ∧
      Faulted g (m.mem.slots roots) (m'.mem.slots roots) (sid, addr / kPageSize) perm ret := by
  obtain ⟨p₀, -, rfl, hf, hp₀⟩ := h.frame_of_target hk
  rw [Machine.cowFault] at hres
  cases ha : m.allocPage with
  | mk r m₁ =>
  obtain ⟨hmem, hout⟩ := h.allocPage ha
  rw [ha] at hres
  cases r with
  | none =>
    cases hres
    exact ⟨⟨g, hout, .refl g, fun _ _ => le_rfl⟩, .inl ⟨by decide, by rw [hmem]⟩⟩
  | some pa =>
  obtain ⟨p, rfl, hp, h₁⟩ := hout
  dsimp only at h₁ hres
  obtain ⟨hs₁, h₁'⟩ := h₁.fill (p := p) (by simp [Ghost.addFrame])
    (m₁.mem (g.ram.pageToPa p₀))
  cases hmap : (m₁.fill (g.ram.pageToPa p) (m₁.mem (g.ram.pageToPa p₀))).map root addr
      (g.ram.pageToPa p) (vmPermToPte perm) with
  | mk ret₁ m₂ =>
  rw [hmap] at hres
  dsimp only at hres
  rcases h.mapFresh hr hn hp h₁' (hs₁.trans (by rw [hmem])) hperm hmap with
    ⟨hret, hb, hs⟩ | ⟨rfl, hlt, hs, g₂, h₂, hkin, hkeep, hdebt⟩
  · rw [if_pos hret] at hres
    cases hres
    exact ⟨hb, .inl ⟨by decide, hs⟩⟩
  · rw [if_neg (by decide)] at hres
    cases hres
    rw [hf] at hdebt
    have hown := hkeep p₀ hp₀
    have hleak : 0 < g₂.leak p₀ := by
      have := (hdebt p₀).2 hp₀
      rw [owe_apply, if_pos rfl, Ghost.debt, Ghost.debt, if_pos hown] at this
      omega
    obtain ⟨hmem₃, h₃⟩ := h₂.decref hown hleak
    rw [hkin.ram_eq] at h₃ hmem₃
    refine ⟨⟨_, h₃, hkin.trans (Ghost.kin_settle _), fun _ q => ?_⟩,
      .inr ⟨p, hlt, hp, by rw [hmem₃, hs]⟩⟩
    refine (Ghost.debt_settle_le _).trans ?_
    have hq := (hdebt q).1
    rw [owe_apply] at hq
    split
    · rename_i he
      rw [he, if_pos rfl] at hq
      rw [he]
      omega
    · rename_i hne
      rwa [if_neg fun he => hne (Option.some.inj he).symm] at hq

end

/-! ## Cloning a page -/

/-- The permission lets a page be read or executed. -/
def Readable (perm : Word) : Prop := perm.getLsbD 0 = true ∨ perm.getLsbD 2 = true

/-- The flags that `vmm_clone` gives to the child. -/
def cloneFlags (perm : Word) : Word :=
  if perm.Has vmWrite then cowFlags (vmPermToPte perm) else vmPermToPte perm

theorem isFlags_cloneFlags : IsFlags (cloneFlags perm) := by
  rw [cloneFlags]
  split
  exacts [(isFlags_vmPermToPte _).cowFlags, isFlags_vmPermToPte _]

theorem grants_cloneFlags : Grants (cloneFlags perm) perm := by
  rw [cloneFlags]
  split
  exacts [(grants_vmPermToPte _).cowFlags, grants_vmPermToPte _]

theorem not_write_cloneFlags : (cloneFlags perm).getLsbD 2 = false := by
  rw [cloneFlags]
  split
  · exact not_write_cowFlags _
  · rename_i hw
    by_contra h₂
    exact hw ((Word.has_bit (by decide)).mpr ((grants_vmPermToPte perm).write (by simpa using h₂)))

theorem isLeaf_of_grants {w x : Word} (h : Grants w x) (hx : Readable x) : w.IsLeaf := by
  rw [Word.isLeaf_iff, h.read_eq, h.exec_eq]
  rcases hx with hx | hx <;> simp [hx]

theorem not_isLeaf_of_grants {w x : Word} (h : Grants w x) (hx : ¬ Readable x)
    (hw : w.getLsbD 2 = false) : ¬ w.IsLeaf := by
  rw [Word.isLeaf_iff, h.read_eq, h.exec_eq, hw]
  rintro (hread | hwrite | hexec)
  · exact hx (.inl hread)
  · cases hwrite
  · exact hx (.inr hexec)

/-- **`pmap::make_cow`** on a mapped page -/
theorem makeCow_spec (h : Ledger m other roots g) (hr : roots sid = some root)
    (hn : addr / kPageSize < kPageNumbers) {old : Word}
    (hold : m.mem.slots roots (sid, addr / kPageSize) = old) (hk : old.target ≠ none) :
    (m.makeCow root addr).2.pmm = m.pmm ∧ (m.makeCow root addr).2.mem.slots roots =
        update (m.mem.slots roots) (sid, addr / kPageSize) (cowFlags old) ∧
      KeepsFrames g m.mem (m.makeCow root addr).2.mem ∧
      ∃ g', Ledger (m.makeCow root addr).2 other roots g' ∧ g.Kin g' ∧ g'.own = g.own ∧
        (old.getLsbD 1 = true ∨ old.getLsbD 3 = true → g' = g) := by
  subst hold
  obtain ⟨t, hfind, ht, hslot⟩ := h.findLeaf_eq hr hn hk
  rw [Machine.makeCow, hfind]
  dsimp only
  rw [← hslot]
  refine ⟨rfl, h.slots_write hr hn ht _,
    fun q hq => Mem.write_of_ne_pa (h.frame_ne_table hr ht hq), ?_⟩
  obtain ⟨pa, hpa⟩ := Option.ne_none_iff_exists'.mp hk
  obtain ⟨p, -, rfl, hf, hp⟩ := h.frame_of_target hpa
  by_cases hread : (m.mem.slots roots (sid, addr / kPageSize)).getLsbD 1 = true ∨
      (m.mem.slots roots (sid, addr / kPageSize)).getLsbD 3 = true
  · refine ⟨g, h.write_kept hr hn ht hf ?_, .refl g, rfl, fun _ => rfl⟩
    rw [Word.target_cowFlags hread, hpa]
  · exact ⟨_, h.write_none hr hn ht (Word.target_cowFlags_none hread), ⟨rfl, rfl, rfl⟩, rfl,
      fun hr => absurd hr hread⟩

/-- **The body of `vmm_clone`'s loop**. A page of a region that can be written but neither read
nor executed is lost on both sides, with its references. -/
theorem clonePage_spec (h : Ledger m other roots g) (hr : roots sid = some root) {csid croot : ℕ}
    (hrc : roots csid = some croot) (hne : csid ≠ sid) (hn : addr / kPageSize < kPageNumbers)
    {old : Word} (hold : m.mem.slots roots (sid, addr / kPageSize) = old)
    (hchild : (m.mem.slots roots (csid, addr / kPageSize)).target = none)
    (hgrants : old.target ≠ none → Grants old perm)
    (hcount : ∀ p, g.ram.frameOf old = some p → (m.pmm.pageMap p).refcount < 2 ^ 32 - 1)
    {ok : Bool} (hres : m.clonePage root croot perm addr = (ok, m')) :
    Books (old.target ≠ none → Readable perm) other roots g m' ∧ KeepsFrames g m.mem m'.mem ∧
      (∀ q, g.own q = .frame → g.ram.frameOf old ≠ some q →
        (m'.pmm.pageMap q).refcount = (m.pmm.pageMap q).refcount) ∧
      ∃ wp wc : Word, m'.mem.slots roots = update (update (m.mem.slots roots)
          (sid, addr / kPageSize) wp) (csid, addr / kPageSize) wc ∧
        (wp.target = none ∨ wp.target = old.target) ∧ (Readable perm → wp.target = old.target) ∧
        (¬ Readable perm → wp.target = none) ∧
        (wp.target ≠ none → Grants wp perm ∧ wp.getLsbD 2 = false) ∧
        (wc.target = none ∨ wc.target = old.target) ∧ (ok = false → wc.target = none) ∧
        (ok = true → wc.target = wp.target) ∧
        (wc.target ≠ none → Grants wc perm ∧ wc.getLsbD 2 = false) := by
  have hlook := h.lookup_eq hr hn
  rw [hold] at hlook
  rw [Machine.clonePage] at hres
  cases hl : m.mem.lookup root addr with
  | none =>
    rw [hl] at hres
    rw [hlook] at hl
    cases hres
    have hkc : (csid, addr / kPageSize) ≠ (sid, addr / kPageSize) := by simp [hne]
    refine ⟨⟨g, h, .refl g, fun _ _ => le_rfl⟩, fun _ _ => rfl, fun _ _ _ => rfl, old,
      m.mem.slots roots (csid, addr / kPageSize), ?_, .inr rfl, fun _ => rfl, fun _ => hl,
      fun h => absurd hl h, .inl hchild, fun _ => hchild, fun _ => hchild.trans hl.symm,
      fun h => absurd hchild h⟩
    rw [← hold, update_eq_self, update_eq_self]
  | some pa =>
  rw [hl] at hres
  rw [hlook] at hl
  have hold' := hgrants (by simp [hl])
  dsimp only at hres
  rw [← cloneFlags] at hres
  obtain ⟨p, hlt, rfl, hf, hp⟩ := h.frame_of_target (by rw [hold]; exact hl)
  rw [hold] at hf
  -- the parent's entry loses its write bit, unless the region cannot be written anyway
  obtain ⟨m₁, wp, g₁, hm₁, hs₁, h₁, hkeep₁, hpmm, hkin₁, hown₁, hclean₁, hwp, hwp', hgp⟩ :
      ∃ m₁ wp g₁, (if perm.Has vmWrite then (m.makeCow root addr).2 else m) = m₁ ∧
        m₁.mem.slots roots =
          update (m.mem.slots roots) (sid, addr / kPageSize) wp ∧
        Ledger m₁ other roots g₁ ∧ KeepsFrames g m.mem m₁.mem ∧ m₁.pmm = m.pmm ∧ g.Kin g₁ ∧
        g₁.own = g.own ∧
        (Readable perm → g₁ = g) ∧ (wp.target = none ∨ wp.target = old.target) ∧
        (Readable perm → wp.target = old.target) ∧ Grants wp perm ∧ wp.getLsbD 2 = false := by
    split
    · obtain ⟨hpmm, hs, hkeep, g₁, h₁, hkin, hown, hclean⟩ :=
        h.makeCow_spec hr hn hold (by simp [hl])
      rw [hold'.read_eq, hold'.exec_eq] at hclean
      refine ⟨_, cowFlags old, g₁, rfl, hs, h₁, hkeep, hpmm, hkin, hown, hclean, ?_, fun hx => ?_,
        hold'.cowFlags, not_write_cowFlags _⟩
      · by_cases hx : old.getLsbD 1 = true ∨ old.getLsbD 3 = true
        · exact .inr (Word.target_cowFlags hx)
        · exact .inl (Word.target_cowFlags_none hx)
      · refine Word.target_cowFlags ?_
        rwa [hold'.read_eq, hold'.exec_eq]
    · rename_i hw
      refine ⟨m, old, g, rfl, ?_, h, fun _ _ => rfl, rfl, .refl g, rfl, fun _ => rfl, .inr rfl,
        fun _ => rfl, hold', ?_⟩
      · rw [← hold, update_eq_self]
      · by_contra h₂
        exact hw ((Word.has_bit (by decide)).mpr (hold'.write (by simpa using h₂)))
  rw [hm₁] at hres
  have hlost (hx : ¬ Readable perm) {w : Word} (hw : Grants w perm ∧ w.getLsbD 2 = false) :
      w.target = none :=
    if_neg fun hleaf => not_isLeaf_of_grants hw.1 hx hw.2 hleaf.2
  have hown : g₁.own p = .frame := by rw [hown₁, hp]
  have hkc : (csid, addr / kPageSize) ≠ (sid, addr / kPageSize) := by simp [hne]
  have hchild₁ : (m₁.mem.slots roots (csid, addr / kPageSize)).target = none := by
    rw [hs₁, update_of_ne hkc, hchild]
  cases hmap : m₁.map croot addr (g.ram.pageToPa p) (cloneFlags perm) with
  | mk ret₁ m₂' =>
  have hkeep₂ : KeepsFrames g m.mem m₂'.mem := by
    intro q hq
    have hq₁ : g₁.own q = .frame := by rw [hown₁, hq]
    have := h₁.map_frame hrc hmap hq₁
    rw [hkin₁.ram_eq] at this
    exact this.trans (hkeep₁ q hq)
  obtain ⟨m₂, g₂, h₂, hkin₂, hsame, hs₂, hcase⟩ := h₁.map_spec hrc hmap
  rw [hmap] at hres
  dsimp only at hres
  have hram : g₂.ram = g.ram := hkin₂.ram_eq.trans hkin₁.ram_eq
  have hdebt (hx : Readable perm) (q : ℕ) : g₂.debt q = g.debt q := by
    rw [hsame.debt_eq, hclean₁ hx]
  have hrc₂ (q : ℕ) (hq : g.own q = .frame) :
      (m₂.pmm.pageMap q).refcount = (m.pmm.pageMap q).refcount := by
    have hq₁ : g₁.own q = .frame := by rw [hown₁, hq]
    rw [refcount_eq h₁ h₂ hkin₂.ram_eq hq₁ ((hsame.own_iff q).mpr hq₁) (hsame.leak_eq q hq₁) hs₂,
      hpmm]
  rcases hcase with ⟨hret, rfl⟩ | ⟨rfl, t, ht, rfl⟩
  · -- the tables of the child cannot be built
    rw [if_pos hret] at hres
    cases hres
    refine ⟨⟨g₂, h₂, hkin₁.trans hkin₂, fun hclean q => ?_⟩, hkeep₂, fun q hq _ => hrc₂ q hq, wp,
      m₁.mem.slots roots (csid, addr / kPageSize), ?_, hwp, hwp', fun hx => hlost hx hgp,
      fun _ => hgp, .inl hchild₁, fun _ => hchild₁, nofun, fun hne => absurd hchild₁ hne⟩
    · exact (hdebt (hclean (by simp [hl])) q).le
    · rw [hs₂, ← hs₁, update_eq_self]
  · -- the child's entry takes the reference that `page_incref` adds after it
    rw [if_neg (by decide)] at hres
    cases hres
    have hown₂ : g₂.own p = .frame := (hsame.own_iff p).mpr hown
    obtain ⟨hmem₃, h₃⟩ := h₂.incref hown₂ (by rw [hrc₂ p hp]; exact hcount p hf)
    rw [hram] at h₃ hmem₃
    set w := paToPte (g.ram.pageToPa p) (cloneFlags perm ||| pteV ||| pteA ||| pteD) with hw
    have hlt' := g.ram.pageToPa_lt hlt
    have htarget : w.target = if (cloneFlags perm).IsLeaf then some (g.ram.pageToPa p) else none :=
      target_mapped (g.ram.pageToPa_aligned p) (by omega) isFlags_cloneFlags
    have hgw : Grants w perm ∧ w.getLsbD 2 = false :=
      ⟨grants_cloneFlags.mapped _, by rw [hw, (getLsbD_entry (by simp)).2, not_write_cloneFlags]⟩
    have ht₃ : (m₂.incref (g.ram.pageToPa p)).mem.tableAt croot
        (tablePath (addr / kPageSize)) = some t := by rw [hmem₃, ht]
    have hnone : (g₂.owed (some p)).ram.frameOf ((m₂.incref (g.ram.pageToPa p)).mem.slots roots
        (csid, addr / kPageSize)) = none := by
      rw [hmem₃, hs₂, Ram.frameOf, hchild₁]
      rfl
    have hcomm : (m₂.write t (index (addr / kPageSize) 0) w).incref (g.ram.pageToPa p) =
        (m₂.incref (g.ram.pageToPa p)).write t (index (addr / kPageSize) 0) w :=
      (Machine.write_onPage _).symm
    rw [hcomm]
    have hs₃ := h₃.slots_write hrc hn ht₃ w
    rw [hmem₃, hs₂, hs₁] at hs₃
    have hwleaf : w.target = none ∨ w.target = old.target := by
      rw [htarget, hl]
      split <;> simp
    refine ⟨?_, fun q hq => ?_, fun q hq hne => ?_, wp, w, hs₃, hwp, hwp', fun hx => hlost hx hgp,
      fun _ => hgp, hwleaf, by simp, fun _ => ?_, fun _ => hgw⟩
    · by_cases hleaf : (cloneFlags perm).IsLeaf
      · rw [if_pos hleaf] at htarget
        have hram₃ : (g₂.owed (some p)).ram = g.ram := hram
        have h₄ := h₃.write_some hrc hn ht₃ (by rw [hram₃]; exact htarget) hown₂
          (by rw [hnone]; simp [Ghost.owed, owe]) fun k hk => ?_
        · rw [hnone] at h₄
          refine ⟨_, h₄, (hkin₁.trans hkin₂).trans ⟨rfl, rfl, rfl⟩, fun hclean q => ?_⟩
          rw [Ghost.debt_pay, show ((g₂.owed (some p)).owed none) = g₂.owed (some p) from rfl,
            Ghost.debt_owed hown₂, Ghost.debt_owed hown₂, if_pos rfl]
          have hq := hdebt (hclean (by simp [hl]))
          split
          · rename_i he
            rw [he, hq]
            exact le_rfl
          · exact (hq q).le
        · -- every slot that maps the frame has this page number
          rw [hram₃, hmem₃, hs₂, hs₁] at hk
          rcases eq_or_ne k (sid, addr / kPageSize) with rfl | hne
          · rfl
          · rw [update_of_ne hne] at hk
            exact h.same_page k _ p hk (by rw [hold]; exact hf)
      · rw [if_neg hleaf] at htarget
        refine ⟨_, h₃.write_none hrc hn ht₃ htarget, (hkin₁.trans hkin₂).trans ⟨rfl, rfl, rfl⟩,
          fun hclean => ?_⟩
        exact absurd (isLeaf_of_grants grants_cloneFlags (hclean (by simp [hl]))) hleaf
    · rw [← hcomm, Machine.incref, Machine.mem_onPage]
      exact hkeep₂ q hq
    · have hqp : q ≠ p := fun he => hne (he ▸ hf)
      rw [← hrc₂ q hq]
      have hram₂ : m₂.pmm.ram = g.ram := h₂.ram_eq.trans hram
      have hinc : (m₂.pmm.incref p).pageMap q = m₂.pmm.pageMap q :=
        Pmm.pageMap_setPage_of_ne hqp
      rw [Machine.incref, Machine.onPage_pageToPa hram₂ hlt, ← hinc]
      rfl
    · by_cases hx : Readable perm
      · rw [htarget, if_pos (isLeaf_of_grants grants_cloneFlags hx), hwp' hx, hl]
      · rw [hlost hx hgw, hlost hx hgp]

end Ledger

end Lume
