import Lume.Vm.Cloning
import Lume.Vm.Refinement

/-!
# The accounts of the whole system

Every state that the system reaches is sound: the ledger accounts for the tables and frames of
all live address spaces, and every mapped page lies in a region that allows what its entry
allows. One step keeps this, whichever allocations fail. What a step may break is stated apart:
`Lossless` steps owe no reference to a frame, and `CowSafe` steps let no two entries share a
frame that one of them can write.

## Main definitions

* `VmState.Booted`: the state after boot, before the first address space
* `VmState.Sound st g`: the accounts of a state
* `VmState.CountsFit`, `VmState.Lossless`, `VmState.CowSafe`: conditions on a step

## Main results

* `VmState.Sound.step`, `VmState.Booted.sound`
-/

namespace Lume

open Function (update update_apply update_eq_self)

open Segs (Maps Sorted)

theorem Ledger.storeUser_spec {m : Machine} {other : List Block} {roots : Roots} {g : Ghost}
    {sid root : ℕ} (h : Ledger m other roots g) (hr : roots sid = some root) (va : ℕ) (w : Word) :
    Ledger (m.storeUser root va w) other roots g ∧
      (m.storeUser root va w).mem.slots roots = m.mem.slots roots ∧
      ∀ pa, (m.storeUser root va w).mem pa ≠ m.mem pa → ∃ n,
        (m.mem.slots roots (sid, n)).target = some pa ∧
          (m.mem.slots roots (sid, n)).getLsbD 2 = true := by
  rw [Machine.storeUser]
  split
  · rename_i e he
    split
    · rename_i hperm
      -- the page written is a frame
      obtain ⟨hslot, htarget⟩ := h.leaf_eq hr he
      rw [hslot] at hperm htarget ⊢
      obtain ⟨p, -, hpa, -, hp⟩ := h.frame_of_target htarget
      have htable (sid : ℕ) (path : List ℕ) : g.own p ≠ .table sid path := by simp [hp]
      obtain ⟨he', hl'⟩ := h.write_other htable (va % kPageSize / 8) w
      rw [← hpa] at he' hl'
      refine ⟨hl', he', fun pa hne => ⟨slotNo va, ?_, ?_⟩⟩
      · by_contra hother
        rw [htarget] at hother
        exact hne (Mem.write_of_ne_pa fun he => hother (by rw [he]))
      · exact (Word.has_bit (by decide)).mp hperm.1
    · exact ⟨h, rfl, fun pa hne => absurd rfl hne⟩
  · exact ⟨h, rfl, fun pa hne => absurd rfl hne⟩

namespace VmState

/-- The root table of every live address space. -/
def roots (st : VmState) : Roots := fun sid => (st.space sid).map (·.rootPa)

/-- The slots of all live address spaces. -/
def slots (st : VmState) : ℕ × ℕ → Word := st.machine.mem.slots st.roots

/-- The physical address to which address space `sid` maps page number `n`. -/
def mapped (st : VmState) (sid n : ℕ) : Option ℕ :=
  (st.space sid).bind fun s => st.machine.mem.lookup s.rootPa (n * kPageSize)

/-- After boot: no address space yet, the allocator as `pmm_init` and then the rest of the kernel
left it, and memory with any contents. The pages in `R` were reserved at boot. -/
def Booted (R : Finset ℕ) (st : VmState) : Prop :=
  st.spaces = [] ∧ st.machine.cpu < kMaxCpus ∧
    ∃ (ram : Ram) (image : KernelImage ram) (fdt : ℕ) (mb₀ mb : Memblock)
      (requests : List (Memblock.Request × ℕ)) (calls : List Pmm.Call),
      memblockInit image fdt = some mb₀ ∧ Run Memblock.Step mb₀ requests mb ∧
      Run Pmm.Client.Step ⟨pmmInit mb, []⟩ calls ⟨st.machine.pmm, st.other⟩ ∧
      R = mb.reservedPages

/-- **The accounts of a state** -/
structure Sound (st : VmState) (g : Ghost) : Prop where
  ledger : Ledger st.machine st.other st.roots g
  dying : g.dying = none
  regions : st.RegionsOk kVaSpan
  covers : ∀ sid s, st.space sid = some s → Covers s.vmas st.slots sid

/-- No counter of a frame that is about to be shared is at its maximum. -/
def CountsFit (st : VmState) (l : VmLabel) : Prop :=
  match l.call with
  | .clone sid => ∀ n < kPageNumbers, ∀ p,
      st.mapped sid n = some (st.machine.pmm.ram.pageToPa p) →
      (st.machine.pmm.pageMap p).refcount < 2 ^ 32 - 1
  | _ => True

/-- The step drops no leaf entry without dropping the reference it stands for: `vmm_clone` does
not fail with a region half copied, and no mapped page takes a permission whose entry is no
leaf. -/
def Lossless (st : VmState) (l : VmLabel) : Prop :=
  match l.call with
  | .clone sid => ∀ s, st.space sid = some s →
      ¬ ({ st.machine with cpu := l.cpu, luck := l.luck } : Machine).CloneLeaks s ∧
        ∀ v ∈ s.vmas, ∀ n < kPageNumbers, n * kPageSize ∈ v → st.mapped sid n ≠ none →
          Ledger.Readable v.perm
  | .protectUser sid va len perm => ∀ s, st.space sid = some s → ∀ n < kPageNumbers,
      pageAlignDown va ≤ n * kPageSize → n * kPageSize < pageAlignDown va + pageAlignUp len →
      st.mapped sid n ≠ none → perm = 0 ∨ (Ledger.protectFlags (perm ||| vmUser)
        (st.machine.mem.isCow s.rootPa (n * kPageSize))).IsLeaf
  | _ => True

/-- `vmm_protect_user` adds the right to write only to pages that are marked copy-on-write, or
whose frame no other page maps. -/
def CowSafe (st : VmState) (l : VmLabel) : Prop :=
  match l.call with
  | .protectUser sid va len perm => perm.Has vmWrite → ∀ s, st.space sid = some s →
      ∀ n < kPageNumbers, pageAlignDown va ≤ n * kPageSize →
      n * kPageSize < pageAlignDown va + pageAlignUp len → ∀ pa, st.mapped sid n = some pa →
      st.machine.mem.isCow s.rootPa (n * kPageSize) = true ∨
        ∀ sid' n', n' < kPageNumbers → (sid', n') ≠ (sid, n) → st.mapped sid' n' ≠ some pa
  | _ => True

variable {st st' : VmState} {g : Ghost} {sid n : ℕ} {s s' : VmSpace} {m m' : Machine}

theorem roots_eq (hs : st.space sid = some s) : st.roots sid = some s.rootPa := by
  rw [roots, hs, Option.map_some]

theorem roots_put (hs : st.space sid = some s) (m : Machine) (o : Option VmSpace) :
    (st.put m sid o).roots = update st.roots sid (o.map (·.rootPa)) := by
  funext j
  rw [roots, space_put hs, update_apply]
  split <;> rfl

theorem roots_put_some (hs : st.space sid = some s) (m : Machine) (hroot : s'.rootPa = s.rootPa) :
    (st.put m sid (some s')).roots = st.roots := by
  rw [roots_put hs, Option.map_some, hroot, ← roots_eq hs, update_eq_self]

theorem roots_push (st : VmState) (r : Option VmSpace × Machine) :
    (st.push r).roots = update st.roots st.spaces.length (r.1.map (·.rootPa)) := by
  funext j
  rw [roots, space_push, update_apply]
  split <;> rfl

theorem roots_length (st : VmState) : st.roots st.spaces.length = none := by
  simp [roots, space]

namespace Sound

theorem target_eq (h : st.Sound g) (hn : n < kPageNumbers) :
    (st.slots (sid, n)).target = st.mapped sid n := by
  rw [mapped]
  cases hs : st.space sid with
  | none =>
    have hr : st.roots sid = none := by rw [roots, hs, Option.map_none]
    simp [slots, Mem.slots, hr]
  | some s => exact (h.ledger.lookup_page (roots_eq hs) hn).symm

theorem lt_of_target (hk : (st.slots (sid, n)).target ≠ none) : n < kPageNumbers := by
  by_contra hge
  simp [slots, Mem.slots, hge] at hk

theorem space_of_target (hk : (st.slots (sid, n)).target ≠ none) : ∃ s, st.space sid = some s := by
  cases hs : st.space sid with
  | none =>
    have hr : st.roots sid = none := by rw [roots, hs, Option.map_none]
    simp [slots, Mem.slots, hr] at hk
  | some s => exact ⟨s, rfl⟩

theorem fiber_le (h : st.Sound g) (p : ℕ) :
    fiber (slotKeys g.bound) (fun k => g.ram.frameOf (st.slots k)) p ≤ g.ram.numPages := by
  have hroot (k : ℕ × ℕ) (hk : g.ram.frameOf (st.slots k) = some p) :
      ∃ q < g.ram.numPages, (st.roots k.1).bind g.ram.paToPage = some q ∧
        g.own q = .table k.1 [] := by
    obtain ⟨s, hs⟩ := space_of_target (h.ledger.target_of_frame hk ▸ Option.some_ne_none _)
    have hr := roots_eq hs
    obtain ⟨q, hlt, hq, hown⟩ := (h.ledger.tree k.1 s.rootPa hr).table [] s.rootPa (by simp) rfl
    refine ⟨q, hlt, ?_, hown⟩
    rw [hr, hq]
    exact g.ram.paToPage_pageToPa hlt
  calc fiber (slotKeys g.bound) (fun k => g.ram.frameOf (st.slots k)) p
      ≤ (Finset.range g.ram.numPages).card := by
        refine Finset.card_le_card_of_injOn
          (fun k => ((st.roots k.1).bind g.ram.paToPage).getD 0) (fun k hk => ?_)
          fun k hk k' hk' he => ?_
        · obtain ⟨q, hlt, hq, -⟩ := hroot k (Finset.mem_filter.mp hk).2
          simpa [hq] using hlt
        · have hk := (Finset.mem_filter.mp hk).2
          have hk' := (Finset.mem_filter.mp hk').2
          obtain ⟨q, -, hq, hown⟩ := hroot k hk
          obtain ⟨q', -, hq', hown'⟩ := hroot k' hk'
          simp only [hq, hq', Option.getD_some] at he
          rw [he, hown'] at hown
          exact Prod.ext (Owner.table.inj hown).1.symm (h.ledger.same_page k k' p hk hk')
    _ = g.ram.numPages := Finset.card_range _

theorem countsFit (h : st.Sound g) (hdebt : ∀ p, g.debt p = 0) (l : VmLabel) : st.CountsFit l := by
  rw [CountsFit]
  split
  · rename_i sid _
    intro n hn p hp
    rw [← h.target_eq hn] at hp
    obtain ⟨q, -, hq, -, hown⟩ := h.ledger.frame_of_target hp
    rw [h.ledger.ram_eq] at hq
    obtain rfl := g.ram.pageToPa_injective hq
    have hcount := h.ledger.refs.count p hown
    have hleak : g.leak p = 0 := by simpa [Ghost.debt, hown] using hdebt p
    have hle := h.fiber_le p
    have hpages : g.ram.numPages ≤ 2 ^ 26 := by
      have := g.ram.end_le
      rw [Ram.numPages, kPageSize]
      omega
    rw [hcount, hleak]
    exact lt_of_le_of_lt (Nat.add_le_add_right (hle.trans hpages) 0) (by decide)
  · trivial

end Sound

/-! ## One step -/

/-- What a step from `st` with accounts `g` leads to. -/
def Kept (clean safe : Prop) (st : VmState) (g : Ghost) (st' : VmState) : Prop :=
  ∃ g', st'.Sound g' ∧ g.Kin g' ∧ (clean → ∀ p, g'.debt p ≤ g.debt p) ∧
    (safe → Isolated st.slots → Isolated st'.slots)

section Step

variable {clean safe : Prop} {va len : ℕ} {perm : Word} {ret : Int}

theorem Sound.kept_put (h : st.Sound g) (hs : st.space sid = some s)
    (hroot : s'.rootPa = s.rootPa) (hreg : RegionInv kVaSpan s'.vmas)
    (hb : Books clean st.other st.roots g m) (hcov : Covers s'.vmas (m.mem.slots st.roots) sid)
    (hothers : ∀ j t, j ≠ sid → Covers t st.slots j → Covers t (m.mem.slots st.roots) j)
    (hiso : safe → Isolated st.slots → Isolated (m.mem.slots st.roots)) :
    Kept clean safe st g (st.put m sid (some s')) := by
  have hroots := roots_put_some hs m hroot
  have hslots : (st.put m sid (some s')).slots = m.mem.slots st.roots := by rw [slots, hroots]; rfl
  obtain ⟨g', h', hkin, hdebt⟩ := hb
  refine ⟨g', ⟨?_, hkin.dying_eq.trans h.dying, ?_, fun j x hx => ?_⟩, hkin, hdebt, ?_⟩
  · rw [hroots]
    exact h'
  · exact h.regions.put hs m fun x hx => Option.some.inj hx ▸ hreg
  · rw [space_put hs] at hx
    rw [hslots]
    split at hx
    · rename_i hj
      rw [hj, ← Option.some.inj hx]
      exact hcov
    · rename_i hj
      exact hothers j _ hj (h.covers j x hx)
  · rwa [hslots]

section

variable (h : st.Sound g) (hs : st.space sid = some s) (hl : Ledger m st.other st.roots g)
  (hmem : m.mem = st.machine.mem)
include h hs hl hmem

theorem Sound.kept_mapUser (hmaps : (VmCall.mapUser sid va len perm).MapsBelow kVaSpan)
    (hr : m.mapUser s va len perm = (ret, m', s')) :
    Kept clean safe st g (st.put m' sid (some s')) := by
  obtain ⟨hreg, hfail, hok⟩ := mapUser_spec hr (h.regions sid s hs) hmaps
  obtain ⟨luck, rfl⟩ := mapUser_machine hr
  have hslots : m.mem.slots st.roots = st.slots := by rw [hmem]; rfl
  have hroot : s'.rootPa = s.rootPa := by
    rcases mapUser_cases hr with ⟨rfl, -⟩ | ⟨-, -, -, -, luck, rfl, rfl⟩ <;> rfl
  refine h.kept_put hs hroot hreg (.of_ledger (hl.congr rfl rfl hl.cpu_lt)) ?_ ?_ ?_
  · dsimp only
    rw [hslots]
    intro n hn ht
    obtain ⟨x, hx, hg⟩ := h.covers sid s hs n hn ht
    refine ⟨x, ?_, hg⟩
    rcases mapUser_cases hr with ⟨rfl, -⟩ | ⟨hret, hlen, -⟩
    · exact hx
    · exact ((hok hret hlen).1 _ x).mpr (.inr hx)
  · dsimp only
    rw [hslots]
    exact fun _ _ _ => id
  · dsimp only
    rw [hslots]
    exact fun _ => id

theorem Sound.kept_unmapUser (hr : m.unmapUser s va len = (ret, m', s')) :
    Kept clean safe st g (st.put m' sid (some s')) := by
  have hv := h.regions sid s hs
  have hslots : m.mem.slots st.roots = st.slots := by rw [hmem]; rfl
  obtain ⟨hroot, hb, ⟨addrs, -, hc, -⟩, hcov⟩ := hl.unmapUser_spec (roots_eq hs) hv hr
  rw [hslots] at hc hcov
  exact h.kept_put hs hroot (unmapUser_spec hr hv).inv (hb.mono fun _ => trivial)
    (hcov (h.covers sid s hs)) (fun j t hj => hc.covers_of_ne hj) fun _ => hc.isolated

theorem Sound.kept_protectUser {l : VmLabel} (hcall : l.call = .protectUser sid va len perm)
    (hr : m.protectUser s va len perm = (ret, m', s')) :
    Kept (st.Lossless l) (st.CowSafe l) st g (st.put m' sid (some s')) := by
  have hv := h.regions sid s hs
  have hslots : m.mem.slots st.roots = st.slots := by rw [hmem]; rfl
  obtain ⟨hroot, hb, ⟨addrs, hrep, hin⟩, hcov⟩ := hl.protectUser_spec (roots_eq hs) le_rfl hv hr
  rw [hslots] at hb hrep hcov
  -- what the code reads with `is_cow` is the mark of the slot
  have hcow {n : ℕ} (ht : (st.slots (sid, n)).target ≠ none) :
      st.machine.mem.isCow s.rootPa (n * kPageSize) = decide ((st.slots (sid, n)).Has pteCow) :=
    h.ledger.isCow_page (roots_eq hs) ht
  refine h.kept_put hs hroot (protectUser_spec hr hv).1 (hb.mono fun hclean n hlo hup ht => ?_)
    (hcov (h.covers sid s hs)) (fun j t hj => hrep.covers_of_ne hj)
    fun hsafe hi => hrep.isolated hi fun hw n hn ht => ?_
  · have hlt := Sound.lt_of_target ht
    rw [Lossless, hcall] at hclean
    have := hclean s hs n hlt hlo hup (by rwa [← h.target_eq hlt])
    rwa [hcow ht] at this
  · have hlt := Sound.lt_of_target ht
    obtain ⟨pa, hpa⟩ := Option.ne_none_iff_exists'.mp ht
    rw [CowSafe, hcall] at hsafe
    have hwrite : perm.Has vmWrite := by
      have huser : vmUser.getLsbD 1 = false := by decide
      rw [BitVec.getLsbD_or, huser, Bool.or_false] at hw
      exact (Word.has_bit (by decide)).mpr hw
    rcases hsafe hwrite s hs n hlt (hin _ hn).1 (hin _ hn).2 pa (by rw [← h.target_eq hlt, hpa])
      with hc | hc
    · rw [hcow ht, decide_eq_true_eq] at hc
      exact .inl hc
    · refine .inr fun k hk he => ?_
      have hk' : k.2 < kPageNumbers := Sound.lt_of_target (he ▸ ht)
      exact hc k.1 k.2 hk' hk (by rw [← h.target_eq hk', he, hpa])

theorem Sound.kept_pageFault {addr : ℕ}
    {cause : VmFaultCause} (hr : m.handlePageFault s addr cause = (ret, m')) :
    Kept clean safe st g (st.put m' sid (some s)) := by
  have hv := h.regions sid s hs
  have hslots : m.mem.slots st.roots = st.slots := by rw [hmem]; rfl
  obtain ⟨hb, hcase⟩ := hl.handlePageFault_spec (roots_eq hs) hv hr
  rw [hslots] at hcase
  rcases hcase with ⟨he, -⟩ | ⟨w, he, hfresh, -, -, -, x, ⟨v, hvm, hin, htag⟩, hg⟩
  · refine h.kept_put hs rfl hv (hb.mono fun _ => trivial) ?_ ?_ ?_ <;> rw [he]
    · exact h.covers sid s hs
    · exact fun _ _ _ => id
    · exact fun _ => id
  · have hslot : slotNo addr = addr / kPageSize := by
      have := hv.slotNo_eq hvm hin
      rwa [slotNo, Nat.mul_div_cancel _ (by decide)] at this
    rw [hslot] at he
    refine h.kept_put hs rfl hv (hb.mono fun _ => trivial) ?_ ?_ ?_ <;> rw [he]
    · exact (h.covers sid s hs).update fun _ => ⟨x, ⟨v, hvm, hin, htag⟩, hg⟩
    · exact fun j t hj hc => hc.update_of_ne hj
    · exact fun _ hi => hi.fresh hfresh

end

theorem Sound.kept_write (h : st.Sound g) {other : List Block}
    (hl : Ledger m other st.roots g) (hslots : m.mem.slots st.roots = st.slots) :
    Kept clean safe st g { st with machine := m, other := other } := by
  have hs : VmState.slots { st with machine := m, other := other } = st.slots := hslots
  refine ⟨g, ⟨hl, h.dying, h.regions, fun j x hx => ?_⟩, .refl g, fun _ _ => le_rfl, fun _ hi => ?_⟩
  · rw [hs]
    exact h.covers j x hx
  · rwa [hs]

theorem Sound.kept_store (h : st.Sound g) (hs : st.space sid = some s)
    (hl : Ledger m st.other st.roots g) (hmem : m.mem = st.machine.mem) (w : Word) :
    Kept clean safe st g (st.put (m.storeUser s.rootPa va w) sid (some s)) := by
  obtain ⟨hl', he, -⟩ := hl.storeUser_spec (roots_eq hs) va w
  rw [hmem] at he
  refine h.kept_put hs rfl (h.regions sid s hs) (.of_ledger hl') ?_ ?_ ?_ <;> rw [he]
  · exact h.covers sid s hs
  · exact fun _ _ _ => id
  · exact fun _ => id

theorem Sound.kept_create (h : st.Sound g) (hl : Ledger m st.other st.roots g)
    (hmem : m.mem = st.machine.mem) {r : Option VmSpace} (hr : m.createSpace = (r, m')) :
    Kept clean safe st g (st.push (r, m')) := by
  have hspec := hl.createSpace_spec h.dying st.roots_length hr
  cases r with
  | none =>
    obtain ⟨he, hl'⟩ := hspec
    have hpush : st.push (none, m') = { st with machine := m', other := st.other } := by
      simp [push]
    rw [hpush]
    exact h.kept_write hl' (by rw [he, hmem]; rfl)
  | some c =>
    obtain ⟨hnil, he, -, g', hl', hkin, hsame⟩ := hspec
    have hroots := st.roots_push (some c, m')
    have hslots : (st.push (some c, m')).slots = st.slots := by
      rw [slots, hroots]
      exact he.trans (by rw [hmem]; rfl)
    refine ⟨g', ⟨by rw [hroots]; exact hl', hkin.dying_eq.trans h.dying, ?_, fun j x hx => ?_⟩, hkin,
      fun _ p => (hsame.debt_eq p).le, fun _ hi => by rwa [hslots]⟩
    · refine h.regions.push fun x hx => ?_
      rw [← Option.some.inj hx, hnil]
      exact .nil _
    · rw [space_push] at hx
      rw [hslots]
      split at hx
      · rename_i hj
        intro n _ ht
        have hnone : st.roots j = none := hj ▸ st.roots_length
        simp [slots, Mem.slots, hnone] at ht
      · exact h.covers j x hx

theorem Sound.refcount_lt (h : st.Sound g) (hl : Ledger m st.other st.roots g) {l : VmLabel}
    (hcall : l.call = .clone sid) (hm : m = { st.machine with cpu := l.cpu, luck := l.luck })
    (hfit : st.CountsFit l) (n p : ℕ) (hp : g.ram.frameOf (m.mem.slots st.roots (sid, n)) = some p) :
    (m.pmm.pageMap p).refcount < 2 ^ 32 - 1 := by
  have hslots : m.mem.slots st.roots = st.slots := by rw [hm]; rfl
  rw [CountsFit, hcall] at hfit
  have ht := hl.target_of_frame hp
  rw [hslots] at ht
  have hlt : n < kPageNumbers := Sound.lt_of_target (ht ▸ Option.some_ne_none _)
  rw [h.target_eq hlt, ← h.ledger.ram_eq] at ht
  rw [hm]
  exact hfit n hlt p ht

section

variable (h : st.Sound g) (hs : st.space sid = some s) (hl : Ledger m st.other st.roots g)
include h hs hl

theorem Sound.clone_slots {l : VmLabel} (hcall : l.call = .clone sid)
    (hm : m = { st.machine with cpu := l.cpu, luck := l.luck }) (hfit : st.CountsFit l)
    {r : Option VmSpace} (hr : m.clone s = (r, m')) :
    Books (st.Lossless l) st.other (st.push (r, m')).roots g m' ∧
      Cloned sid st.spaces.length s.vmas s.vmas (st.Lossless l) st.slots
        (st.push (r, m')).slots := by
  have hslots : m.mem.slots st.roots = st.slots := by rw [hm]; rfl
  have hcount := h.refcount_lt hl hcall hm hfit
  have hread : st.Lossless l → ∀ v ∈ s.vmas, ∀ n, n * kPageSize ∈ v →
      (m.mem.slots st.roots (sid, n)).target ≠ none → Ledger.Readable v.perm := by
    intro hclean v hvm n hin ht
    rw [hslots] at ht
    have hlt := Sound.lt_of_target ht
    rw [Lossless, hcall] at hclean
    exact (hclean s hs).2 v hvm n hlt hin (by rwa [← h.target_eq hlt])
  have hleak : st.Lossless l → ¬ m.CloneLeaks s := by
    intro hclean
    rw [Lossless, hcall] at hclean
    rw [hm]
    exact (hclean s hs).1
  obtain ⟨hb, hc, -⟩ := hl.clone_spec h.dying (roots_eq hs) st.roots_length le_rfl
    (h.regions sid s hs) (by rw [hslots]; exact h.covers sid s hs) hcount hread hr
  have hslots' : (st.push (r, m')).slots = m'.mem.slots
      (update st.roots st.spaces.length (r.map (·.rootPa))) := by
    rw [slots, roots_push]
    rfl
  rw [roots_push, hslots', ← hslots]
  exact ⟨hb.mono fun hclean => ⟨hclean, hleak hclean⟩, hc⟩

theorem Sound.kept_clone {l : VmLabel} (hcall : l.call = .clone sid)
    (hm : m = { st.machine with cpu := l.cpu, luck := l.luck }) (hfit : st.CountsFit l)
    {r : Option VmSpace} (hr : m.clone s = (r, m')) :
    Kept (st.Lossless l) (st.CowSafe l) st g (st.push (r, m')) := by
  have hv := h.regions sid s hs
  obtain ⟨⟨g', hl', hkin, hdebt⟩, hc⟩ := h.clone_slots hs hl hcall hm hfit hr
  refine ⟨g', ⟨hl', hkin.dying_eq.trans h.dying, ?_, fun j x hx => ?_⟩, hkin, hdebt,
    fun _ => hc.isolated⟩
  · refine h.regions.push fun x hx => ?_
    obtain rfl : r = some x := hx
    rw [clone_vmas hr hv.sorted]
    exact hv
  · rw [space_push] at hx
    split at hx
    · rename_i hj
      obtain rfl : r = some x := hx
      rw [hj, clone_vmas hr hv.sorted]
      exact hc.child
    · rename_i hj
      by_cases hsid : j = sid
      · subst hsid
        rw [hs] at hx
        cases hx
        exact hc.parent
      · intro n hn ht
        rw [hc.others (j, n) hsid hj] at ht ⊢
        exact h.covers j x hx n hn ht

theorem Sound.kept_destroy (hmem : m.mem = st.machine.mem) (hr : m.destroySpace s = m') :
    Kept clean safe st g (st.put m' sid none) := by
  have hv := h.regions sid s hs
  have hspec := hl.destroySpace_spec h.dying (roots_eq hs) le_rfl hv
  rw [hr] at hspec
  obtain ⟨he, g', hl', hkin, -, hdebt⟩ := hspec
  have hroots : (st.put m' sid none).roots = update st.roots sid none :=
    roots_put hs m' none
  have hslots (k : ℕ × ℕ) :
      (st.put m' sid none).slots k = if k.1 = sid then 0 else st.slots k := by
    have hkill := Ledger.slots_kill m'.mem st.roots sid k
    rw [slots, hroots]
    refine hkill.trans ?_
    rw [he, hmem]
    rfl
  have hcleared : Cleared sid [] st.slots (st.put m' sid none).slots := by
    refine ⟨fun k => ?_, by simp⟩
    rw [hslots]
    split
    · rename_i hk
      exact .inr ⟨hk, Word.target_zero⟩
    · exact .inl rfl
  have hcovered : ∀ n < kPageNumbers, (m.mem.slots st.roots (sid, n)).target ≠ none →
      ∃ v ∈ s.vmas, n * kPageSize ∈ v := by
    intro n hn ht
    rw [hmem] at ht
    obtain ⟨x, ⟨v, hvm, hin, -⟩, -⟩ := h.covers sid s hs n hn ht
    exact ⟨v, hvm, hin⟩
  refine ⟨g', ⟨by rw [hroots]; exact hl', hkin.dying_eq.trans h.dying, ?_, fun j x hx => ?_⟩, hkin,
    fun _ => hdebt hcovered, fun _ => hcleared.isolated⟩
  · exact h.regions.put hs _ fun x hx => by cases hx
  · rw [space_put hs] at hx
    split at hx
    · cases hx
    · rename_i hj
      exact hcleared.covers_of_ne hj (h.covers j x hx)

end

theorem kernelCall {call : Pmm.Call} (hl : Ledger m st.other st.roots g)
    (hok : st.KernelPermitted call) :
    Ledger { m with pmm := ((⟨m.pmm, st.other⟩ : Pmm.Client).exec call).pmm }
      ((⟨m.pmm, st.other⟩ : Pmm.Client).exec call).held st.roots g := by
  have hinv := hl.pmm
  -- a block of the rest of the kernel is none of those held here
  have hne {b : Block} (hb : b ∈ st.other) : b ∉ g.mine := fun hb' =>
    (List.nodup_append'.mp hl.nodup).2.2 hb' hb
  have herase {b : Block} (hb : b ∈ st.other) :
      (g.mine ++ st.other).erase b = g.mine ++ st.other.erase b :=
    List.erase_append_right _ (hne hb)
  have halloc {order : ℕ} {r : Option ℕ × Pmm}
      (hout : Pmm.Inv.Outcome g.reserved (g.mine ++ st.other) order m.pmm r) :
      Ledger { m with pmm := r.2 } (r.1.toList.map (⟨·, order⟩) ++ st.other) st.roots g := by
    cases hout with
    | fail inv steady =>
      exact hl.reheld inv steady.ram_eq fun b hb => steady.page_eq b (List.mem_append_left _ hb)
    | grant inv steady =>
      exact hl.reheld (inv.perm List.perm_middle.symm) steady.ram_eq fun b hb =>
        steady.page_eq b (List.mem_append_left _ hb)
  have hfree {b : Block} {pmm' : Pmm} (hb : b ∈ st.other)
      (hf : pmm'.Inv g.reserved ((g.mine ++ st.other).erase b) ∧
        Pmm.Steady ((g.mine ++ st.other).erase b) m.pmm pmm') :
      Ledger { m with pmm := pmm' } (st.other.erase b) st.roots g := by
    rw [herase hb] at hf
    exact hl.reheld hf.1 hf.2.ram_eq fun b hb => hf.2.page_eq b (List.mem_append_left _ hb)
  have hset {p order : ℕ} (hb : ⟨p, order⟩ ∈ st.other) (f : Page → Page)
      (hi : (m.pmm.setPage p f).Inv g.reserved (g.mine ++ st.other)) :
      Ledger { m with pmm := m.pmm.setPage p f } st.other st.roots g := by
    refine hl.reheld hi rfl fun b hbm => Pmm.pageMap_setPage_of_ne ?_
    rintro rfl
    have hown := hl.own_of_other hb (Block.start_mem _)
    exact ((hl.mem_mine b).mp hbm).2 hown
  cases call with
  | allocPage cpu => exact halloc (hinv.allocPage hok)
  | freePage cpu p =>
    exact hfree hok.2 (hinv.freePage hok.1 (List.mem_append_right _ hok.2))
  | allocPages order => exact halloc (hinv.allocPages order)
  | freePages p order => exact hfree hok (hinv.freePages (List.mem_append_right _ hok))
  | incref p =>
    obtain ⟨order, hb⟩ := hok
    exact hset hb _ (hinv.incref p)
  | decref cpu p =>
    obtain ⟨hcpu, order, hb⟩ := hok
    have hdec := hinv.decref hcpu (List.mem_append_right g.mine hb)
    have horder : (m.pmm.pageMap p).order = order :=
      (hinv.accounted.held_ok _ (List.mem_append_right g.mine hb)).2.2.2
    simp only [Pmm.Client.exec]
    rw [horder]
    split at hdec
    · rw [if_pos ‹_›]
      exact hfree hb hdec
    · rw [if_neg ‹_›, hdec.2]
      exact hset hb _ (hdec.2 ▸ hdec.1)

/-- **One step keeps the accounts.** -/
theorem Sound.step {l : VmLabel} (h : st.Sound g) (hs : VmState.Step st l st')
    (hmaps : l.call.MapsBelow kVaSpan) (hfit : st.CountsFit l) :
    Kept (st.Lossless l) (st.CowSafe l) st g st' := by
  obtain ⟨hok, rfl⟩ := hs
  rw [exec]
  obtain ⟨m, hm⟩ : ∃ m : Machine, { st.machine with cpu := l.cpu, luck := l.luck } = m := ⟨_, rfl⟩
  have hmem : m.mem = st.machine.mem := by rw [← hm]
  have hpmm : m.pmm = st.machine.pmm := by rw [← hm]
  have hl : Ledger m st.other st.roots g := h.ledger.congr hmem hpmm (by rw [← hm]; exact hok.1)
  have hslots : m.mem.slots st.roots = st.slots := by rw [hmem]; rfl
  -- a call on an address space that is not live does nothing
  have hon {sid : ℕ} {f : VmSpace → VmState}
      (hf : ∀ s, st.space sid = some s → Kept (st.Lossless l) (st.CowSafe l) st g (f s)) :
      Kept (st.Lossless l) (st.CowSafe l) st g (st.onSpace sid f) := by
    rw [onSpace]
    split
    · exact hf _ ‹_›
    · exact h.kept_write h.ledger rfl
  rw [hm]
  have hok := hok.2
  cases hcall : l.call with
  | create => exact h.kept_create hl hmem rfl
  | mapUser sid va len perm =>
    exact hon fun s hs => h.kept_mapUser hs hl hmem (hcall ▸ hmaps) rfl
  | unmapUser sid va len => exact hon fun s hs => h.kept_unmapUser hs hl hmem rfl
  | protectUser sid va len perm => exact hon fun s hs => h.kept_protectUser hs hl hmem hcall rfl
  | pageFault sid addr cause => exact hon fun s hs => h.kept_pageFault hs hl hmem rfl
  | clone sid => exact hon fun s hs => h.kept_clone hs hl hcall hm.symm hfit rfl
  | destroy sid => exact hon fun s hs => h.kept_destroy hs hl hmem rfl
  | store sid va w => exact hon fun s hs => h.kept_store hs hl hmem w
  | kernel call =>
    rw [hcall] at hok
    exact h.kept_write (kernelCall hl hok) hslots
  | kernelWrite pa i w =>
    rw [hcall] at hok
    obtain ⟨b, hb, p, hp, rfl⟩ := hok
    have hown := hl.own_of_other hb hp
    have htable (sid : ℕ) (path : List ℕ) : g.own p ≠ .table sid path := by simp [hown]
    obtain ⟨he, hl'⟩ := hl.write_other htable i w
    rw [← hl.ram_eq, hpmm] at he hl'
    exact h.kept_write hl' (he.trans hslots)

end Step

/-- **The accounts after boot** -/
theorem Booted.sound {R : Finset ℕ} (h : st.Booted R) : ∃ g, st.Sound g ∧ g.reserved = R ∧
    (∀ p, g.debt p = 0) ∧ Isolated st.slots := by
  obtain ⟨hnil, hcpu, ram, image, fdt, mb₀, mb, requests, calls, hinit, hboot, hrun, rfl⟩ := h
  have hmb := Memblock.run_inv hboot (memblockInit_spec hinit).2.1
  have hinv := Pmm.Client.inv_of_run hrun (pmmInit_inv hmb).1
  have hspace (sid : ℕ) : st.space sid = none := by simp [space, hnil]
  have hroots (sid : ℕ) : st.roots sid = none := by rw [roots, hspace, Option.map_none]
  have hslots (k : ℕ × ℕ) : st.machine.mem.slots st.roots k = 0 := by
    simp [Mem.slots, hroots]
  have htarget (k : ℕ × ℕ) : (st.machine.mem.slots st.roots k).target = none := by
    rw [hslots]
    exact Word.target_zero
  have hframe (k : ℕ × ℕ) : st.machine.pmm.ram.frameOf (st.machine.mem.slots st.roots k) = none := by
    rw [hslots]
    exact Ram.frameOf_zero _
  refine ⟨⟨st.machine.pmm.ram, mb.reservedPages, [], fun _ => .nobody, fun _ => 0, 0, none⟩,
    ⟨?_, rfl, fun sid s hs => ?_, fun sid s hs => ?_⟩, rfl, fun p => rfl, fun k k' _ ht => ?_⟩
  · exact {
      cpu_lt := hcpu
      ram_eq := rfl
      pmm := hinv
      mem_mine := by simp
      root_lt := fun sid root hr => by simp [hroots] at hr
      tree := fun sid root hr => by simp [hroots] at hr
      tabled := fun p sid path hp => by cases hp
      refs := ⟨fun k p hk => by simp [hframe] at hk, fun k p hk => by simp [hframe] at hk,
        fun p hp => by cases hp⟩
      target := fun k pa hk => by simp [htarget] at hk
      count_pos := fun p hp => by cases hp
      same_page := fun k k' p hk => by simp [hframe] at hk }
  · rw [hspace] at hs
    cases hs
  · rw [hspace] at hs
    cases hs
  · exact absurd (htarget k) ht

end VmState

/-- The condition on a step under which no reference is lost. -/
def VmState.LosslessGuard (st : VmState) (l : VmLabel) : Prop :=
  l.call.MapsBelow kVaSpan ∧ st.Lossless l

/-- **Without losses nothing is owed**, along every run from boot on. -/
theorem VmState.sound_of_lossless {R : Finset ℕ} {st₀ st : VmState} {ls : List VmLabel}
    (h₀ : st₀.Booted R) (hr : Run (Guarded LosslessGuard VmState.Step) st₀ ls st) :
    ∃ g, st.Sound g ∧ g.reserved = R ∧ ∀ p, g.debt p = 0 := by
  have hstep {s : VmState} {l : VmLabel} {s' : VmState}
      (h : ∃ g, s.Sound g ∧ g.reserved = R ∧ ∀ p, g.debt p = 0)
      (hs : Guarded LosslessGuard VmState.Step s l s') :
      ∃ g, s'.Sound g ∧ g.reserved = R ∧ ∀ p, g.debt p = 0 := by
    obtain ⟨g, h, hres, hdebt⟩ := h
    obtain ⟨⟨hmaps, hclean⟩, hs⟩ := hs
    obtain ⟨g', h', hkin, hdebt', -⟩ := h.step hs hmaps (h.countsFit hdebt l)
    refine ⟨g', h', hkin.reserved_eq.trans hres, fun p => ?_⟩
    exact Nat.le_zero.mp (hdebt p ▸ hdebt' hclean p)
  refine hr.invariant (P := fun s => ∃ g, s.Sound g ∧ g.reserved = R ∧ ∀ p, g.debt p = 0) hstep ?_
  obtain ⟨g, h, hres, hdebt, -⟩ := h₀.sound
  exact ⟨g, h, hres, hdebt⟩

theorem VmState.Booted.of_init {ram : Ram} {image : KernelImage ram} {fdt : ℕ} {mb₀ mb : Memblock}
    {requests : List (Memblock.Request × ℕ)} (hinit : memblockInit image fdt = some mb₀)
    (hboot : Run Memblock.Step mb₀ requests mb) (mem : Mem) :
    Booted mb.reservedPages ⟨⟨mem, pmmInit mb, 0, []⟩, [], []⟩ :=
  ⟨rfl, show 0 < kMaxCpus by decide, ram, image, fdt, mb₀, mb, requests, [], hinit, hboot, .nil _, rfl⟩

theorem smallState_booted : smallState.Booted (smallBoot []).reservedPages := by
  rw [smallState]
  exact .of_init (memblockInit_small 0x80008000) (.nil _) _

end Lume
