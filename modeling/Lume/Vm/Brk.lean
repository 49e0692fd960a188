import Lume.Vm.Reports

/-!
# The heap of a process

`sys_brk` moves the end of the heap. The first call chooses its start, later ones map or unmap the
pages between the old and the new end. The code keeps the rounded end only: after a call with an
address that is no page address, `sys_brk(0)` returns another value than was asked for, and the
first call with such an address fails after it has set the bounds.

## Main definitions

* `VmState.HeapStep`: `sys_brk`, or a call on address spaces as before
* `VmState.HeapGuard`: the arguments of `sys_brk` are page addresses, and no other call touches a
  heap
* `Machine.BrkContract`: what a call of `sys_brk` should do

## Main results

* `brk_contract`: the contract, in every run of guarded steps
* `unaligned_brk_breaks_contract`: what goes wrong otherwise
-/

namespace Lume

open Segs (Maps)

/-- The permission of the heap. -/
def heapPerm : Word := vmRead ||| vmWrite ||| vmUser

/-- An action: `sys_brk` of an address space, or one of the calls as before. -/
inductive HeapCall
  | brk (sid newBrk : ℕ)
  | vm (call : VmCall)

/-- A call, the CPU it runs on, and the outcomes of the allocations it makes. -/
structure HeapLabel where
  cpu : ℕ
  luck : List Bool
  call : HeapCall

/-- The call changes no permission between `lo` and `hi` in address space `sid`. -/
def VmCall.Spares (sid lo hi : ℕ) : VmCall → Prop
  | .mapUser sid' va len _ | .unmapUser sid' va len | .protectUser sid' va len _ =>
    sid' = sid → ∀ a, lo ≤ a → a < hi →
      ¬ (pageAlignDown va ≤ a ∧ a < pageAlignDown va + pageAlignUp len)
  | _ => True

/-- The argument is a page address, and not one where the page tables would wrap around. -/
def BrkArg (b : ℕ) : Prop :=
  b < 2 ^ 64 ∧ kPageSize ∣ b ∧ (b ≤ kVaSpan ∨ kUserVaLimit < b)

namespace VmState

/-- The effect of an action. -/
def heapExec (st : VmState) (l : HeapLabel) : VmState :=
  match l.call with
  | .brk sid newBrk => st.onSpace sid fun s =>
    let r := ({ st.machine with cpu := l.cpu, luck := l.luck } : Machine).sysBrk s newBrk
    st.put r.2.1 sid (some r.2.2)
  | .vm call => st.exec ⟨l.cpu, l.luck, call⟩

/-- One step of a run with heaps. -/
def HeapStep (st : VmState) (l : HeapLabel) (st' : VmState) : Prop :=
  l.cpu < kMaxCpus ∧ (∀ call, l.call = .vm call → st.Permitted ⟨l.cpu, l.luck, call⟩) ∧
    st' = st.heapExec l

/-- The condition on a step: `sys_brk` gets a page address, and the other calls map below
`2 ^ 39`, overflow no counter and touch no heap. -/
def HeapGuard (st : VmState) (l : HeapLabel) : Prop :=
  match l.call with
  | .brk _ newBrk => BrkArg newBrk
  | .vm call => st.Injective ⟨l.cpu, l.luck, call⟩ ∧
    ∀ sid s, st.space sid = some s → call.Spares sid s.brkStart s.brkEnd

end VmState

/-- The heap has page addresses for bounds, and it can be read and written. -/
structure VmSpace.HeapOk (s : VmSpace) : Prop where
  le : s.brkStart ≤ s.brkEnd
  end_lt : s.brkEnd < 2 ^ 64
  end_dvd : kPageSize ∣ s.brkEnd
  unset : s.brkStart = 0 → s.brkEnd = 0
  covered : ∀ a, s.brkStart ≤ a → a < s.brkEnd → s.permAt a = some heapPerm

/-- **The end of the heap was moved to `b`.** -/
structure Machine.BrkMoved (m' : Machine) (s s' : VmSpace) (b : ℕ) : Prop where
  /-- the start of the heap is chosen once -/
  start : s.brkStart ≠ 0 → s'.brkStart = s.brkStart
  /-- the heap ends with the page of `b` -/
  heap : ∀ a, s'.brkStart ≤ a → a < pageAlignUp b → s'.permAt a = some heapPerm
  /-- what was heap above is neither covered nor mapped, and the rest is as before -/
  above : ∀ a, pageAlignUp b ≤ a → s'.permAt a = if a < s.brkEnd then none else s.permAt a
  unmapped : ∀ a < kVaSpan, pageAlignUp b ≤ a → a < s.brkEnd → m'.mem.lookup s'.rootPa a = none
  below : ∀ a < s'.brkStart, s'.permAt a = s.permAt a
  /-- above a heap with nothing above it, there is nothing -/
  alone : (∀ a, s.brkEnd ≤ a → s.permAt a = none) → ∀ a, pageAlignUp b ≤ a →
    s'.permAt a = none ∧ (a < kVaSpan → m'.mem.lookup s'.rootPa a = none)
  /-- `sys_brk(0)` returns `b` -/
  reads : ∀ m'' : Machine, (m''.sysBrk s' 0).1 = int64 b

/-- **The contract of `sys_brk`** -/
structure Machine.BrkContract (m' : Machine) (s s' : VmSpace) (b : ℕ) (ret : Int) : Prop where
  moved : b ≠ 0 → ¬ IsErr ret → m'.BrkMoved s s' b
  failed : IsErr ret → s'.brkStart = s.brkStart ∧ s'.brkEnd = s.brkEnd ∧ s'.vmas = s.vmas

/-! ## One call -/

theorem not_isErr_int64 {b : ℕ} (h : BrkArg b) : ¬ IsErr (int64 b) := by
  obtain ⟨hlt, ⟨i, rfl⟩, -⟩ := h
  simp only [kPageSize] at *
  rw [IsErr, int64]
  split <;> omega

/-- What `sys_brk` does with a page address. -/
inductive Machine.BrkCase (m : Machine) (s : VmSpace) (b : ℕ) : Int → Machine → VmSpace → Prop
  | query : b = 0 → BrkCase m s b (int64 s.brkEnd) m s
  | first : b ≠ 0 → s.brkStart = 0 →
      BrkCase m s b (int64 b) m { s with brkStart := b, brkEnd := b }
  | refused : b < s.brkStart → BrkCase m s b (-eInval) m s
  | same : s.brkStart ≠ 0 → b = s.brkEnd → BrkCase m s b (int64 b) m s
  | grown {m' : Machine} {s' : VmSpace} : s.brkStart ≠ 0 → s.brkEnd < b →
      m.mapUser s s.brkEnd (b - s.brkEnd) (vmRead ||| vmWrite) = (0, m', s') →
      BrkCase m s b (int64 b) m' { s' with brkEnd := b }
  | stuck {ret : Int} {m' : Machine} {s' : VmSpace} : s.brkEnd < b →
      m.mapUser s s.brkEnd (b - s.brkEnd) (vmRead ||| vmWrite) = (ret, m', s') → IsErr ret →
      BrkCase m s b ret m' s'
  | shrunk {m' : Machine} {s' : VmSpace} : s.brkStart ≤ b → s.brkStart ≠ 0 → b < s.brkEnd →
      m.unmapUser s b (s.brkEnd - b) = (0, m', s') →
      BrkCase m s b (int64 b) m' { s' with brkEnd := b }
  | kept {ret : Int} {m' : Machine} {s' : VmSpace} : b < s.brkEnd →
      m.unmapUser s b (s.brkEnd - b) = (ret, m', s') → IsErr ret → BrkCase m s b ret m' s'

section Call

variable {m m' : Machine} {s s' : VmSpace} {b : ℕ} {ret : Int}

theorem sysBrk_cases (hsort : Segs.Sorted s.vmas) (hb : BrkArg b)
    (hr : m.sysBrk s b = (ret, m', s')) : m.BrkCase s b ret m' s' := by
  have hround := pageAlignUp_of_dvd hb.2.1 hb.1
  rw [Machine.sysBrk] at hr
  split at hr
  · cases hr
    exact .query ‹_›
  rename_i hb₀
  dsimp only at hr
  rw [hround] at hr
  by_cases hstart : s.brkStart = 0
  · simp only [if_pos hstart, lt_irrefl, if_false] at hr
    cases hr
    exact .first hb₀ hstart
  simp only [if_neg hstart] at hr
  split at hr
  · cases hr
    exact .refused ‹_›
  rename_i hle
  by_cases hgrow : s.brkEnd < b
  · rw [if_pos hgrow] at hr
    cases hmap : m.mapUser s s.brkEnd (b - s.brkEnd) (vmRead ||| vmWrite) with
    | mk ret₁ r =>
    obtain ⟨m₁, s₁⟩ := r
    rw [hmap] at hr
    dsimp only at hr
    rcases mapUser_ret hmap with rfl | ⟨herr, -⟩
    · rw [if_neg (lt_irrefl 0)] at hr
      cases hr
      exact .grown hstart hgrow hmap
    · rw [if_pos herr.2] at hr
      cases hr
      exact .stuck hgrow hmap herr
  rw [if_neg hgrow] at hr
  by_cases hshrink : b < s.brkEnd
  · rw [if_pos hshrink] at hr
    cases hunmap : m.unmapUser s b (s.brkEnd - b) with
    | mk ret₁ r =>
    obtain ⟨m₁, s₁⟩ := r
    rw [hunmap] at hr
    dsimp only at hr
    rcases unmapUser_ret hsort hunmap with rfl | ⟨herr, -⟩
    · rw [if_neg (lt_irrefl 0)] at hr
      cases hr
      exact .shrunk (by omega) hstart hshrink hunmap
    · rw [if_pos herr.2] at hr
      cases hr
      exact .kept hshrink hunmap herr
  · rw [if_neg hshrink] at hr
    have hbe : b = s.brkEnd := by omega
    subst hbe
    cases hr
    exact .same hstart rfl

end Call

namespace VmState

variable {st st' : VmState} {g : Ghost} {sid b : ℕ} {s s' : VmSpace} {m m' : Machine} {ret : Int}

theorem Sound.put_brk (hs : st.space sid = some s) (h : (st.put m sid (some s')).Sound g)
    (hroot : s'.rootPa = s.rootPa) (lo hi : ℕ) :
    (st.put m sid (some { s' with brkStart := lo, brkEnd := hi })).Sound g := by
  have hroots : (st.put m sid (some { s' with brkStart := lo, brkEnd := hi })).roots =
      (st.put m sid (some s')).roots :=
    (roots_put_some hs m (by exact hroot)).trans (roots_put_some hs m hroot).symm
  have hspace {j : ℕ} {x : VmSpace}
      (hx : (st.put m sid (some { s' with brkStart := lo, brkEnd := hi })).space j = some x) :
      ∃ y, (st.put m sid (some s')).space j = some y ∧ x.vmas = y.vmas := by
    rw [space_put hs] at hx ⊢
    split at hx
    · rename_i hj
      cases hx
      exact ⟨s', if_pos hj, rfl⟩
    · rename_i hj
      exact ⟨x, by rw [if_neg hj, hx], rfl⟩
  refine ⟨?_, h.dying, fun j x hx => ?_, fun j x hx => ?_⟩
  · rw [hroots]
    exact h.ledger
  · obtain ⟨y, hy, hvmas⟩ := hspace hx
    rw [hvmas]
    exact h.regions j y hy
  · obtain ⟨y, hy, hvmas⟩ := hspace hx
    rw [hvmas, slots, hroots]
    exact h.covers j y hy

theorem mapsBelow_of_brkArg (hok : s.HeapOk) (hb : BrkArg b) (hgrow : s.brkEnd < b) (perm : Word) :
    (VmCall.mapUser sid s.brkEnd (b - s.brkEnd) perm).MapsBelow kVaSpan := by
  obtain ⟨hlt, hdvd, hcase⟩ := hb
  have hlen : pageAlignUp (b - s.brkEnd) = b - s.brkEnd :=
    pageAlignUp_of_dvd (Nat.dvd_sub hdvd hok.end_dvd) (by omega)
  intro _ hrange
  rw [pageAlignDown_of_dvd hok.end_dvd, hlen] at hrange ⊢
  have := (hrange.bounds (by omega)).2
  omega

section

variable (h : st.Sound g) (hs : st.space sid = some s)
include h hs

theorem Sound.brk
    (hl : Ledger m st.other st.roots g) (hmem : m.mem = st.machine.mem) (hok : s.HeapOk)
    (hb : BrkArg b) (hr : m.sysBrk s b = (ret, m', s')) :
    ∃ g', (st.put m' sid (some s')).Sound g' := by
  have hreg := h.regions sid s hs
  have hslots : m.mem.slots st.roots = st.slots := by rw [hmem]; rfl
  -- without a call below, only the CPU and the outcomes of allocations are new
  obtain ⟨g₁, hidle, -⟩ : Kept True True st g (st.put m sid (some s)) :=
    h.kept_put hs rfl hreg (.of_ledger hl) (by rw [hslots]; exact h.covers sid s hs)
      (by rw [hslots]; exact fun _ _ _ => id) (by rw [hslots]; exact fun _ => id)
  cases sysBrk_cases hreg.sorted hb hr with
  | query h₀ => exact ⟨g₁, hidle⟩
  | first h₀ hstart => exact ⟨g₁, hidle.put_brk hs rfl b b⟩
  | refused hlt => exact ⟨g₁, hidle⟩
  | same hstart hbe => exact ⟨g₁, hidle⟩
  | @grown _ s₁ hstart hgrow hmap =>
    obtain ⟨g', h', -⟩ : Kept True True st g (st.put m' sid (some s₁)) :=
      h.kept_mapUser hs hl hmem (mapsBelow_of_brkArg hok hb hgrow _) hmap
    have hroot := congrArg VmSpace.rootPa (mapUser_vmas m s s.brkEnd (b - s.brkEnd)
      (vmRead ||| vmWrite))
    rw [hmap] at hroot
    exact ⟨g', h'.put_brk hs hroot s₁.brkStart b⟩
  | stuck hgrow hmap herr =>
    obtain ⟨g', h', -⟩ : Kept True True st g (st.put m' sid (some s')) :=
      h.kept_mapUser hs hl hmem (mapsBelow_of_brkArg hok hb hgrow _) hmap
    exact ⟨g', h'⟩
  | @shrunk _ s₁ hle hstart hshrink hunmap =>
    obtain ⟨g', h', -⟩ : Kept True True st g (st.put m' sid (some s₁)) :=
      h.kept_unmapUser hs hl hmem hunmap
    have hroot := congrArg VmSpace.rootPa (unmapUser_vmas m s b (s.brkEnd - b))
    rw [hunmap] at hroot
    exact ⟨g', h'.put_brk hs hroot s₁.brkStart b⟩
  | kept hshrink hunmap herr =>
    obtain ⟨g', h', -⟩ : Kept True True st g (st.put m' sid (some s')) :=
      h.kept_unmapUser hs hl hmem hunmap
    exact ⟨g', h'⟩

theorem Sound.lookup_eq_none {a : ℕ}
    (ha : a < kVaSpan) (hperm : s.permAt a = none) : st.machine.mem.lookup s.rootPa a = none := by
  have hreg := h.regions sid s hs
  rw [h.ledger.lookup_slot (roots_eq hs)]
  by_contra ht
  obtain ⟨x, ⟨v, hv, hin, -⟩, -⟩ := h.covers sid s hs _ (slotNo_lt a) ht
  refine Segs.get_eq_none_iff.mp hperm v hv ?_
  -- the region has page addresses for bounds
  rw [← page_mod, Nat.mod_eq_of_lt ha] at hin
  obtain ⟨i, hi⟩ := (hreg.aligned v hv).1
  obtain ⟨j, hj⟩ := (hreg.aligned v hv).2
  obtain ⟨hlo, hup⟩ := hin
  refine ⟨?_, ?_⟩ <;>
  · simp only [kPageSize] at *
    omega

/-- **One call of `sys_brk`** with a page address keeps the contract and the heap. -/
theorem Sound.keeps_contract
    (hl : Ledger m st.other st.roots g) (hmem : m.mem = st.machine.mem) (hok : s.HeapOk)
    (hb : BrkArg b) (hr : m.sysBrk s b = (ret, m', s')) :
    m'.BrkContract s s' b ret ∧ s'.HeapOk := by
  have hreg' : RegionInv kUserVaLimit s.vmas := h.tabled.2 sid s hs
  obtain ⟨g', h'⟩ := h.brk hs hl hmem hok hb hr
  have hs' : (st.put m' sid (some s')).space sid = some s' := by rw [space_put hs, if_pos rfl]
  have hround := pageAlignUp_of_dvd hb.2.1 hb.1
  have hnoerr := not_isErr_int64 hb
  -- a call that only moves the bounds, once the permissions are right
  have hmoved {lo : ℕ} (hb₀ : b ≠ 0) (hstart : s.brkStart ≠ 0 → s'.brkStart = s.brkStart)
      (hend : s'.brkEnd = b)
      (hheap : ∀ a, s'.brkStart ≤ a → a < b → s'.permAt a = some heapPerm)
      (habove : ∀ a, b ≤ a → s'.permAt a = if a < s.brkEnd then none else s.permAt a)
      (hbelow : ∀ a < s'.brkStart, s'.permAt a = s.permAt a) (hlo : s'.brkStart = lo)
      (hlob : lo ≤ b) (hlo₀ : lo ≠ 0) :
      m'.BrkContract s s' b (int64 b) ∧ s'.HeapOk := by
    have hnone {a : ℕ} (ha : a < kVaSpan) (hperm : s'.permAt a = none) :
        m'.mem.lookup s'.rootPa a = none := h'.lookup_eq_none hs' ha hperm
    refine ⟨⟨fun _ _ => ⟨hstart, ?_, ?_, fun a ha hlo hup => hnone ha ?_, hbelow,
      fun hfree a hlo => ?_, fun m'' => ?_⟩, fun herr => absurd herr hnoerr⟩, ?_⟩
    · rw [hround]
      exact hheap
    · rw [hround]
      exact habove
    · rw [hround] at hlo
      rw [habove a hlo, if_pos hup]
    · rw [hround] at hlo
      have hperm : s'.permAt a = none := by
        rw [habove a hlo]
        split
        · rfl
        · exact hfree a (by omega)
      exact ⟨hperm, fun ha => hnone ha hperm⟩
    · rw [Machine.sysBrk, if_pos rfl, hend]
    · exact ⟨by omega, hend ▸ hb.1, hend ▸ hb.2.1, fun h₀ => absurd (hlo ▸ h₀) hlo₀,
        fun a hlo hup => hheap a hlo (by omega)⟩
  -- a call that fails with the space as it was
  have hfailed {err : Int} (herr : IsErr err) (he : s' = s) :
      m'.BrkContract s s' b err ∧ s'.HeapOk := by
    subst he
    exact ⟨⟨fun _ hno => absurd herr hno, fun _ => ⟨rfl, rfl, rfl⟩⟩, hok⟩
  cases sysBrk_cases hreg'.sorted hb hr with
  | query h₀ => exact ⟨⟨fun hne => absurd h₀ hne, fun _ => ⟨rfl, rfl, rfl⟩⟩, hok⟩
  | first h₀ hstart =>
    have hend := hok.unset hstart
    refine hmoved h₀ (fun hne => absurd hstart hne) rfl (fun a hlo hup => ?_) (fun a ha => ?_)
      (fun a ha => rfl) rfl le_rfl h₀
    · dsimp only at hlo
      omega
    · rw [hend, if_neg (by omega)]
      rfl
  | refused hlt => exact hfailed (by decide) rfl
  | same hstart hbe =>
    refine hmoved (by have := hok.le; omega) (fun _ => rfl) hbe.symm (fun a hlo hup => ?_)
      (fun a ha => ?_) (fun a ha => rfl) rfl (hbe ▸ hok.le) hstart
    · exact hok.covered a hlo (by omega)
    · rw [if_neg (by omega)]
  | @grown _ s₁ hstart hgrow hmap =>
    have hlen : pageAlignUp (b - s.brkEnd) = b - s.brkEnd :=
      pageAlignUp_of_dvd (Nat.dvd_sub hb.2.1 hok.end_dvd) (by have := hb.1; omega)
    have hnew (a : ℕ) : s₁.permAt a =
        if s.brkEnd ≤ a ∧ a < b then some heapPerm else s.permAt a := by
      rw [hreg'.refinesPerms.map hok.end_dvd hmap (by rw [hlen]; omega) a, hlen,
        show s.brkEnd + (b - s.brkEnd) = b by omega]
      rfl
    have hstart₁ : s₁.brkStart = s.brkStart := by
      have hvmas := mapUser_vmas m s s.brkEnd (b - s.brkEnd) (vmRead ||| vmWrite)
      rw [hmap] at hvmas
      have hstart := congrArg VmSpace.brkStart hvmas
      exact hstart
    have hle := hok.le
    refine hmoved (by omega) (fun _ => hstart₁) rfl (fun a hlo hup => (hnew a).trans ?_)
      (fun a ha => (hnew a).trans ?_) (fun a ha => (hnew a).trans ?_) hstart₁ (by omega) hstart
    · dsimp only at hlo hstart₁
      split
      · rfl
      · exact hok.covered a (by omega) (by omega)
    · rw [if_neg (by omega), if_neg (by omega)]
    · dsimp only at ha hstart₁
      rw [if_neg (by omega)]
  | stuck hgrow hmap herr =>
    rcases mapUser_ret hmap with rfl | ⟨-, he, -⟩
    · exact absurd herr (by decide)
    · exact hfailed herr he
  | @shrunk _ s₁ hle hstart hshrink hunmap =>
    have hlen : pageAlignUp (s.brkEnd - b) = s.brkEnd - b :=
      pageAlignUp_of_dvd (Nat.dvd_sub hok.end_dvd hb.2.1) (by have := hok.end_lt; omega)
    have hnew (a : ℕ) : s₁.permAt a =
        if b ≤ a ∧ a < s.brkEnd then none else s.permAt a := by
      rw [hreg'.refinesPerms.unmap hb.2.1 hunmap a, hlen, show b + (s.brkEnd - b) = s.brkEnd by omega]
    have hstart₁ : s₁.brkStart = s.brkStart := by
      have hvmas := unmapUser_vmas m s b (s.brkEnd - b)
      rw [hunmap] at hvmas
      have hstart := congrArg VmSpace.brkStart hvmas
      exact hstart
    refine hmoved (by omega) (fun _ => hstart₁) rfl (fun a hlo hup => (hnew a).trans ?_)
      (fun a ha => (hnew a).trans ?_) (fun a ha => (hnew a).trans ?_) hstart₁ hle hstart
    · dsimp only at hlo hstart₁
      rw [if_neg (by omega)]
      exact hok.covered a (by omega) (by omega)
    · by_cases ha' : a < s.brkEnd
      · rw [if_pos ⟨ha, ha'⟩, if_pos ha']
      · rw [if_neg fun hin => ha' hin.2, if_neg ha']
    · dsimp only at ha hstart₁
      rw [if_neg (by omega)]
  | kept hshrink hunmap herr =>
    rcases unmapUser_ret hreg'.sorted hunmap with rfl | ⟨-, he, -⟩
    · exact absurd herr (by decide)
    · exact hfailed herr he

end

/-! ## Runs -/

/-- The heap of every live address space is as it should be. -/
def HeapsOk (st : VmState) : Prop := ∀ sid s, st.space sid = some s → s.HeapOk

theorem HeapsOk.step {l : VmLabel} (hh : st.HeapsOk) (h : st.RegionsOk kVaSpan)
    (hl : l.call.MapsBelow kVaSpan)
    (hspare : ∀ sid s, st.space sid = some s → l.call.Spares sid s.brkStart s.brkEnd) :
    (st.exec l).HeapsOk := by
  -- the permissions of the heap are as before
  have hkeep {t : List Vma} {i : ℕ} {s : VmSpace} (hs : st.space i = some s)
      (ht : RegionInv kVaSpan t)
      (hsame : ∀ a, s.brkStart ≤ a → a < s.brkEnd → ∀ x, Maps t a x ↔ Maps s.vmas a x)
      {x : VmSpace} (hx : x.shape = (t, s.brkStart, s.brkEnd)) : x.HeapOk := by
    obtain ⟨hle, hlt, hdvd, hunset, hcov⟩ := hh i s hs
    obtain ⟨hvmas, hbounds⟩ := Prod.ext_iff.mp hx
    obtain ⟨hstart, hend⟩ := Prod.ext_iff.mp hbounds
    dsimp only [VmSpace.shape] at hvmas hstart hend
    refine ⟨by omega, by omega, hend ▸ hdvd, by rwa [hstart, hend], fun a hlo hup => ?_⟩
    rw [hstart] at hlo
    rw [hend] at hup
    rw [← hcov a hlo hup, VmSpace.permAt, VmSpace.permAt, hvmas]
    exact Segs.get_congr (h i s hs).sorted ht.sorted fun x => hsame a hlo hup x
  intro j x hx
  have hfrom := h.shapeFrom _ _ hx
  obtain ⟨shape, hshape⟩ : ∃ shape, x.shape = shape := ⟨_, rfl⟩
  rw [hshape] at hfrom
  generalize ({ st.machine with cpu := l.cpu, luck := l.luck } : Machine) = m at hfrom
  cases hfrom with
  | new =>
    obtain ⟨hvmas, hbounds⟩ := Prod.ext_iff.mp hshape
    obtain ⟨hstart, hend⟩ := Prod.ext_iff.mp hbounds
    dsimp only [VmSpace.shape] at hstart hend
    exact ⟨by omega, by omega, by rw [hend]; exact dvd_zero _, fun _ => hend,
      fun a _ hup => by omega⟩
  | kept hs => exact hkeep hs (h _ _ hs) (fun _ _ _ _ => Iff.rfl) hshape
  | @mapUser i va len perm s hs he =>
    have hsp := hspare i s hs
    rw [he] at hl hsp
    obtain ⟨⟨ret, m', s'⟩, hr⟩ : ∃ r, m.mapUser s va len perm = r := ⟨_, rfl⟩
    obtain ⟨hinv, -, hok⟩ := mapUser_spec hr (h i s hs) hl
    rw [hr] at hshape
    refine hkeep hs hinv (fun a hlo hup w => ?_) hshape
    rcases mapUser_cases hr with ⟨rfl, -⟩ | ⟨hret, hlen, -⟩
    · exact Iff.rfl
    · rw [(hok hret hlen).1 a w]
      exact or_iff_right fun hin => hsp rfl a hlo hup ⟨hin.1, hin.2.1⟩
  | @unmapUser i va len s hs he =>
    have hsp := hspare i s hs
    rw [he] at hsp
    have hun := unmapUser_spec (Prod.ext rfl rfl : m.unmapUser s va len = (_, _, _)) (h i s hs)
    refine hkeep hs hun.inv (fun a hlo hup w => ?_) hshape
    exact ⟨hun.maps a w, fun hw => hun.keep a w hw (hsp rfl a hlo hup)⟩
  | @protectUser i va len perm s hs he =>
    have hsp := hspare i s hs
    rw [he] at hsp
    obtain ⟨⟨ret, m', s'⟩, hr⟩ : ∃ r, m.protectUser s va len perm = r := ⟨_, rfl⟩
    obtain ⟨hinv, hfail, hok⟩ := protectUser_spec hr (h i s hs)
    rw [hr] at hshape
    refine hkeep hs hinv (fun a hlo hup w => ?_) hshape
    by_cases hret : ret = 0
    · rw [hok hret a w, if_neg (hsp rfl a hlo hup)]
    · exact hfail hret a w

/-- **One guarded step** keeps the accounts and the heaps. -/
theorem heap_step {l : HeapLabel} (h : (∃ g, st.Sound g) ∧ st.HeapsOk)
    (hs : Guarded HeapGuard HeapStep st l st') : (∃ g, st'.Sound g) ∧ st'.HeapsOk := by
  obtain ⟨⟨g, h⟩, hh⟩ := h
  obtain ⟨hguard, hcpu, hperm, rfl⟩ := hs
  obtain ⟨cpu, luck, call⟩ := l
  cases call with
  | brk sid newBrk =>
    have hguard : BrkArg newBrk := hguard
    rw [heapExec]
    dsimp only
    rw [onSpace]
    split
    swap
    · exact ⟨⟨g, h⟩, hh⟩
    rename_i s hspace
    obtain ⟨m, hm⟩ : ∃ m : Machine, { st.machine with cpu := cpu, luck := luck } = m := ⟨_, rfl⟩
    have hmem : m.mem = st.machine.mem := by rw [← hm]
    have hl : Ledger m st.other st.roots g :=
      h.ledger.congr hmem (by rw [← hm]) (by rw [← hm]; exact hcpu)
    rw [hm]
    obtain ⟨⟨ret, m', s'⟩, hr⟩ : ∃ r, m.sysBrk s newBrk = r := ⟨_, rfl⟩
    rw [hr]
    refine ⟨h.brk hspace hl hmem (hh sid s hspace) hguard hr, fun j x hx => ?_⟩
    rw [space_put hspace] at hx
    split at hx
    · cases hx
      exact (h.keeps_contract hspace hl hmem (hh sid s hspace) hguard hr).2
    · exact hh j x hx
  | vm call =>
    obtain ⟨⟨hmaps, hfit⟩, hspare⟩ := hguard
    obtain ⟨g', h', -⟩ := h.step (hperm call rfl).step hmaps hfit
    exact ⟨⟨g', h'⟩, hh.step h.regions hmaps hspare⟩

end VmState

/-- **The contract of `sys_brk`** holds for every call with a page address, in every state that a
run of guarded steps reaches, on any CPU and whatever allocations fail. -/
theorem brk_contract {R : Finset ℕ} {st₀ st : VmState} {ls : List HeapLabel} (h₀ : st₀.Booted R)
    (hr : Run (Guarded VmState.HeapGuard VmState.HeapStep) st₀ ls st) {sid : ℕ} {s : VmSpace}
    (hs : st.space sid = some s) {cpu : ℕ} (hcpu : cpu < kMaxCpus) (luck : List Bool) {b : ℕ}
    (hb : BrkArg b) {ret : Int} {m' : Machine} {s' : VmSpace}
    (hres : ({ st.machine with cpu := cpu, luck := luck } : Machine).sysBrk s b = (ret, m', s')) :
    m'.BrkContract s s' b ret := by
  have hinit : (∃ g, st₀.Sound g) ∧ st₀.HeapsOk := by
    obtain ⟨g, h, -⟩ := h₀.sound
    refine ⟨⟨g, h⟩, fun j x hx => ?_⟩
    simp [VmState.space, h₀.1] at hx
  obtain ⟨⟨g, h⟩, hh⟩ := hr.invariant
    (P := fun st => (∃ g, st.Sound g) ∧ st.HeapsOk) VmState.heap_step hinit
  have hl : Ledger { st.machine with cpu := cpu, luck := luck } st.other st.roots g :=
    h.ledger.congr rfl rfl hcpu
  exact (h.keeps_contract hs hl rfl (hh sid s hs) hb hres).1

/-- The calls of the small machine: a process chooses the start of its heap. -/
def heapLabels : List HeapLabel := [⟨0, [], .vm .create⟩, ⟨0, [], .brk 0 0x200000⟩]

theorem heapLabels_run : Run (Guarded VmState.HeapGuard VmState.HeapStep) smallState heapLabels
    (heapLabels.foldl VmState.heapExec smallState) := by
  have hcpu : 0 < kMaxCpus := by decide
  have hcreate : Guarded VmState.HeapGuard VmState.HeapStep smallState ⟨0, [], .vm .create⟩
      (smallState.heapExec ⟨0, [], .vm .create⟩) :=
    ⟨⟨⟨trivial, trivial⟩, fun _ _ _ => trivial⟩, hcpu, fun call he => by
      cases he
      exact ⟨hcpu, trivial⟩, rfl⟩
  have hbrk (st : VmState) : Guarded VmState.HeapGuard VmState.HeapStep st
      ⟨0, [], .brk 0 0x200000⟩ (st.heapExec ⟨0, [], .brk 0 0x200000⟩) :=
    ⟨⟨by decide, by decide, .inl (by decide)⟩, hcpu, fun call he => (by cases he), rfl⟩
  exact .snoc (.snoc (.nil _) hcreate) (hbrk _)

set_option maxRecDepth 100000 in
/-- On the small machine: the heap grows to three pages. -/
theorem brk_contract_small : ∃ (s s' : VmSpace) (m' : Machine),
    (heapLabels.foldl VmState.heapExec smallState).space 0 = some s ∧
      Machine.sysBrk { (heapLabels.foldl VmState.heapExec smallState).machine with
        cpu := 0, luck := [] } s 0x203000 = (0x203000, m', s') ∧ m'.BrkMoved s s' 0x203000 := by
  have hret : (fun st : VmState => (st.space 0).map fun s =>
      (Machine.sysBrk { st.machine with cpu := 0, luck := [] } s 0x203000).1)
        (heapLabels.foldl VmState.heapExec smallState) = some 0x203000 := by decide +kernel
  have hrun := heapLabels_run
  generalize heapLabels.foldl VmState.heapExec smallState = st at hret hrun
  obtain ⟨s, hs, hret⟩ := Option.map_eq_some_iff.mp hret
  refine ⟨s, _, _, hs, Prod.ext hret rfl, ?_⟩
  exact (brk_contract smallState_booted hrun hs (by decide) []
    ⟨by decide, by decide, .inl (by decide)⟩ (Prod.ext hret rfl)).moved (by decide) (by decide)

set_option maxRecDepth 100000 in
/-- **Addresses that are no page addresses**: the first `sys_brk` of a process with such an address
fails, and has set the bounds of the heap. A later one succeeds, and then `sys_brk(0)` returns
another value. -/
theorem unaligned_brk_breaks_contract : smallState.Booted (smallBoot []).reservedPages ∧
    (∃ (s : VmSpace) (m : Machine), (smallState.exec ⟨0, [], .create⟩).space 0 = some s ∧
      m = { (smallState.exec ⟨0, [], .create⟩).machine with cpu := 0, luck := [] } ∧
      (m.sysBrk s 0x200001).1 = -eInval ∧ s.brkStart = 0 ∧
      (m.sysBrk s 0x200001).2.2.brkStart = 0x201000) ∧ ∃ (st : VmState) (s : VmSpace) (m : Machine),
      Run VmState.HeapStep smallState heapLabels st ∧ st.space 0 = some s ∧
      m = { st.machine with cpu := 0, luck := [] } ∧ (m.sysBrk s 0x200800).1 = 0x200800 ∧
      ((m.sysBrk s 0x200800).2.1.sysBrk (m.sysBrk s 0x200800).2.2 0).1 = 0x201000 := by
  have hfirst : (fun st : VmState => (st.space 0).map fun s =>
      ((Machine.sysBrk { st.machine with cpu := 0, luck := [] } s 0x200001).1, s.brkStart,
        (Machine.sysBrk { st.machine with cpu := 0, luck := [] } s 0x200001).2.2.brkStart))
        (smallState.exec ⟨0, [], .create⟩) = some (-eInval, 0, 0x201000) := by decide +kernel
  have hlater : (fun st : VmState => (st.space 0).map fun s =>
      ((Machine.sysBrk { st.machine with cpu := 0, luck := [] } s 0x200800).1,
        ((Machine.sysBrk { st.machine with cpu := 0, luck := [] } s 0x200800).2.1.sysBrk
          (Machine.sysBrk { st.machine with cpu := 0, luck := [] } s 0x200800).2.2 0).1))
        (heapLabels.foldl VmState.heapExec smallState) = some (0x200800, 0x201000) := by
    decide +kernel
  have hrun := heapLabels_run.of_guarded
  generalize heapLabels.foldl VmState.heapExec smallState = st at hlater hrun
  generalize smallState.exec ⟨0, [], .create⟩ = st₁ at hfirst ⊢
  obtain ⟨s₁, hs₁, hfirst⟩ := Option.map_eq_some_iff.mp hfirst
  obtain ⟨s, hs, hlater⟩ := Option.map_eq_some_iff.mp hlater
  simp only [Prod.mk.injEq] at hfirst hlater
  exact ⟨smallState_booted, ⟨s₁, _, hs₁, rfl, hfirst⟩, st, s, _, hrun, hs, rfl, hlater⟩

end Lume
