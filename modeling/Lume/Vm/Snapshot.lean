import Lume.Vm.Faults

/-!
# Cloning takes a snapshot

A clone is meant to be a snapshot of its parent: the same regions, and behind every page the frame
that the parent had, in the parent and in the child. `vmm_clone` edits the entries of the parent
while it copies them. It takes away the right to write, and an entry without any right is no leaf
entry any more: a page that its region lets be written, and neither read nor executed, is lost in
the parent and in the child.

## Main definitions

* `VmState.Snapshot`: the property
* `VmState.SnapshotSafe`: no mapped page lies in such a region

## Main results

* `clone_snapshot`: a clone that succeeds is a snapshot exactly when this is so
* `clone_loses_page`: what goes wrong otherwise
-/

namespace Lume

open Segs (Maps)

namespace VmState

/-- **A snapshot**: `st'` is reached from `st` by cloning the address space `s` of `sid`, and `c`,
with index `csid`, is the clone. -/
structure Snapshot (st st' : VmState) (sid csid : ℕ) (s c : VmSpace) : Prop where
  /-- the regions and the bounds of the heap are those of the parent -/
  vmas : c.vmas = s.vmas
  brk : c.brkStart = s.brkStart ∧ c.brkEnd = s.brkEnd
  /-- the parent maps what it mapped before -/
  parent : ∀ va, st'.lookupAt sid va = st.lookupAt sid va
  /-- and so does the child -/
  child : ∀ va, st'.lookupAt csid va = st.lookupAt sid va
  /-- the pages have the contents that they had -/
  contents : ∀ va pa, st.lookupAt sid va = some pa → st'.machine.mem pa = st.machine.mem pa

/-- Every mapped page lies in a region that can be read or executed. -/
def SnapshotSafe (st : VmState) (sid : ℕ) (s : VmSpace) : Prop :=
  ∀ v ∈ s.vmas, ∀ va ∈ v, st.lookupAt sid va ≠ none → v.perm.Has vmRead ∨ v.perm.Has vmExec

end VmState

theorem readable_iff {perm : Word} : Ledger.Readable perm ↔ perm.Has vmRead ∨ perm.Has vmExec := by
  rw [Ledger.Readable, vmRead, vmExec, Word.has_bit (by decide), Word.has_bit (by decide)]

namespace VmState

variable {st : VmState} {g : Ghost} {sid : ℕ} {s c : VmSpace} {m m' : Machine}

theorem Sound.snapshotSafe_iff (h : st.Sound g) (hs : st.space sid = some s) :
    st.SnapshotSafe sid s ↔ ∀ v ∈ s.vmas, ∀ n, n * kPageSize ∈ v →
      (st.slots (sid, n)).target ≠ none → Ledger.Readable v.perm := by
  have hreg := h.regions sid s hs
  have hlook := lookupAt_eq h.tabled (by rw [hs]; rfl : (st.space sid).isSome)
  constructor
  · intro hsafe v hv n hin ht
    have hlt := Sound.lt_of_target ht
    refine readable_iff.mpr (hsafe v hv _ hin ?_)
    rwa [hlook, slotNo_page hlt]
  · intro hsafe v hv va hin ht
    rw [hlook, hreg.slotNo_eq hv hin] at ht
    exact readable_iff.mp (hsafe v hv _ (hreg.page_mem hv hin) ht)

/-- **A clone that succeeds** is a snapshot exactly when no page is lost. -/
theorem Sound.snapshot_iff (h : st.Sound g) (hs : st.space sid = some s)
    (hl : Ledger m st.other st.roots g) {l : VmLabel} (hcall : l.call = .clone sid)
    (hm : m = { st.machine with cpu := l.cpu, luck := l.luck }) (hfit : st.CountsFit l)
    (hres : m.clone s = (some c, m')) :
    st.Snapshot (st.push (some c, m')) sid st.spaces.length s c ↔ st.SnapshotSafe sid s := by
  have hslots : m.mem.slots st.roots = st.slots := by rw [hm]; rfl
  have hreg := h.regions sid s hs
  have hread : st.SnapshotSafe sid s → ∀ v ∈ s.vmas, ∀ n, n * kPageSize ∈ v →
      (m.mem.slots st.roots (sid, n)).target ≠ none → Ledger.Readable v.perm := by
    rw [hslots]
    exact (h.snapshotSafe_iff hs).mp
  obtain ⟨-, -, htwins⟩ := hl.clone_spec h.dying (roots_eq hs) st.roots_length le_rfl hreg
    (by rw [hslots]; exact h.covers sid s hs) (h.refcount_lt hl hcall hm hfit) hread hres
  obtain ⟨htw, hcontents⟩ := htwins (Option.some_ne_none _)
  -- the state after the call
  obtain ⟨g', h', -⟩ := h.kept_clone hs hl hcall hm hfit hres
  have hslots' : (st.push (some c, m')).slots =
      m'.mem.slots (Function.update st.roots st.spaces.length (some c.rootPa)) := by
    rw [slots, roots_push]
    rfl
  have hlt : sid ≠ st.spaces.length := by
    rintro rfl
    simp [space] at hs
  have hs' : (st.push (some c, m')).space sid = some s := by rw [space_push, if_neg hlt, hs]
  have hc' : (st.push (some c, m')).space st.spaces.length = some c := by
    rw [space_push, if_pos rfl]
  have hlook := lookupAt_eq h.tabled (by rw [hs]; rfl : (st.space sid).isSome)
  have hlookp := lookupAt_eq h'.tabled (by rw [hs']; rfl : ((st.push (some c, m')).space sid).isSome)
  have hlookc := lookupAt_eq h'.tabled
    (by rw [hc']; rfl : ((st.push (some c, m')).space st.spaces.length).isSome)
  rw [hslots] at htw hcontents
  rw [Option.map_some, ← hslots'] at htw
  constructor
  · -- the parent still maps the page, so its region can be read or executed
    intro hsnap
    refine (h.snapshotSafe_iff hs).mpr fun v hv n hin ht => ?_
    by_contra hread
    have hlost := (htw.shares n _ (Segs.maps_of_mem hv hin)).lost hread
    have hsame := hsnap.parent (n * kPageSize)
    rw [hlookp, hlook, slotNo_page (Sound.lt_of_target ht), hlost] at hsame
    exact ht hsame.symm
  · intro hsafe
    rw [hslots] at hread
    have hpages (n : ℕ) (hn : n < kPageNumbers) :
        ((st.push (some c, m')).slots (sid, n)).target = (st.slots (sid, n)).target ∧
          ((st.push (some c, m')).slots (st.spaces.length, n)).target =
            (st.slots (sid, n)).target := by
      by_cases hmap : ∃ x, Maps s.vmas (n * kPageSize) x
      · obtain ⟨x, hx⟩ := hmap
        obtain ⟨hsame, hkept, hlost⟩ := htw.shares n x hx
        obtain ⟨v, hv, hin, rfl⟩ := hx
        by_cases ht : (st.slots (sid, n)).target = none
        · -- an unmapped page is shared as such
          by_cases hx : Ledger.Readable v.tag
          · exact ⟨hkept hx, hsame.trans (hkept hx)⟩
          · rw [ht]
            exact ⟨hlost hx, hsame.trans (hlost hx)⟩
        · have hx := hread hsafe v hv n hin ht
          exact ⟨hkept hx, hsame.trans (hkept hx)⟩
      · have hno (x : Word) (hx : Maps s.vmas (n * kPageSize) x) : False := hmap ⟨x, hx⟩
        have hnone : (st.slots (sid, n)).target = none := by
          by_contra ht
          obtain ⟨x, hx, -⟩ := h.covers sid s hs n hn ht
          exact hno x hx
        rw [htw.parent n hno, hnone]
        exact ⟨rfl, htw.child n hno⟩
    refine ⟨clone_vmas hres hreg.sorted, clone_brk hres, fun va => ?_, fun va => ?_,
      fun va pa hpa => ?_⟩
    · rw [hlookp, hlook]
      exact (hpages _ (slotNo_lt va)).1
    · rw [hlookc, hlook]
      exact (hpages _ (slotNo_lt va)).2
    · rw [hlook] at hpa
      have := hcontents hsafe (sid, slotNo va) pa hlt hpa
      rw [hm] at this
      exact this

end VmState

/-- **A clone is a snapshot** of its parent, in every reachable state and whatever allocations
fail, exactly when every mapped page of the parent lies in a region that can be read or
executed. -/
theorem clone_snapshot {R : Finset ℕ} {st₀ st : VmState} {ls : List VmLabel} {l : VmLabel}
    {sid : ℕ} {s c : VmSpace} {m' : Machine} (h₀ : st₀.Booted R)
    (hr : Run (Guarded VmState.Injective VmState.Step) st₀ ls st) (hs : st.space sid = some s)
    (hcpu : l.cpu < kMaxCpus) (hcall : l.call = .clone sid) (hfit : st.CountsFit l)
    (hres : ({ st.machine with cpu := l.cpu, luck := l.luck } : Machine).clone s = (some c, m')) :
    st.Snapshot (st.push (some c, m')) sid st.spaces.length s c ↔ st.SnapshotSafe sid s := by
  obtain ⟨g, h, -⟩ := VmState.sound_of_injective h₀ hr
  have hl : Ledger { st.machine with cpu := l.cpu, luck := l.luck } st.other st.roots g :=
    h.ledger.congr rfl rfl hcpu
  exact h.snapshot_iff hs hl hcall rfl hfit hres

set_option maxRecDepth 100000 in
/-- On the small machine: the clone of a process with one page that is readable and writable. -/
theorem clone_snapshot_small : ∃ (s c : VmSpace) (m' : Machine),
    (forkLabels.foldl VmState.exec smallState).space 0 = some s ∧
      Machine.clone { (forkLabels.foldl VmState.exec smallState).machine with cpu := 0, luck := [] }
        s = (some c, m') ∧ (forkLabels.foldl VmState.exec smallState).lookupAt 0 0x200000 ≠ none ∧
      (forkLabels.foldl VmState.exec smallState).Snapshot
        ((forkLabels.foldl VmState.exec smallState).push (some c, m')) 0 1 s c := by
  have hmapped : (forkLabels.foldl VmState.exec smallState).lookupAt 0 0x200000 ≠ none := by
    decide +kernel
  have hlen : (forkLabels.foldl VmState.exec smallState).spaces.length = 1 := by decide +kernel
  have hret : ((forkLabels.foldl VmState.exec smallState).space 0).map (fun s =>
      ((Machine.clone { (forkLabels.foldl VmState.exec smallState).machine with
        cpu := 0, luck := [] } s).1.isSome, s.vmas)) =
      some (true, [⟨0x200000, 0x201000, 11⟩]) := by decide +kernel
  obtain ⟨s, hs⟩ := Option.isSome_iff_exists.mp (by decide +kernel :
    ((forkLabels.foldl VmState.exec smallState).space 0).isSome)
  rw [hs, Option.map_some, Option.some.injEq, Prod.mk.injEq] at hret
  obtain ⟨c, hc⟩ := Option.isSome_iff_exists.mp hret.1
  have hlossless : Run (Guarded VmState.LosslessGuard VmState.Step) smallState forkLabels
      (forkLabels.foldl VmState.exec smallState) :=
    VmState.run_guarded _ _ (fun l hl => (forkLabels_ok l hl).1)
      fun l hl st => ⟨(forkLabels_ok l hl).2.1, ((forkLabels_ok l hl).2.2 st).1⟩
  have hrun : Run (Guarded VmState.Injective VmState.Step) smallState forkLabels
      (forkLabels.foldl VmState.exec smallState) := by
    refine VmState.run_guarded _ _ (fun l hl => (forkLabels_ok l hl).1) fun l hl st => ?_
    refine ⟨(forkLabels_ok l hl).2.1, ?_⟩
    rcases l with ⟨_, _, call⟩
    cases call with
    | clone => simp [forkLabels] at hl
    | _ => trivial
  obtain ⟨g, h, -, hdebt⟩ := VmState.sound_of_lossless smallState_booted hlossless
  have hiff := clone_snapshot (l := ⟨0, [], .clone 0⟩) smallState_booted hrun hs (by decide) rfl
    (h.countsFit hdebt _) (Prod.ext hc rfl)
  rw [hlen] at hiff
  refine ⟨s, c, _, hs, Prod.ext hc rfl, hmapped, hiff.mpr fun v hv _ _ _ => ?_⟩
  rw [hret.2, List.mem_singleton] at hv
  subst hv
  exact .inl (by decide)

/-- The calls of the small machine: a process maps a page that it may write and not read, and
writes to it. -/
def writeOnlyLabels : List VmLabel := pageLabels 2 ++ [⟨0, [], .pageFault 0 0x200000 .write⟩]

set_option maxRecDepth 100000 in
/-- **A page is lost by cloning**: a process maps a page that it may write and not read, writes to
it and is cloned. Before the call the page is mapped, after it neither the parent nor the child
maps it. -/
theorem clone_loses_page : smallState.Booted (smallBoot []).reservedPages ∧
    ∃ st st', Run VmState.Step smallState writeOnlyLabels st ∧
      VmState.Step st ⟨0, [], .clone 0⟩ st' ∧ (st'.space 1).isSome ∧
      st.lookupAt 0 0x200000 = some 0x8000E000 ∧
      st'.lookupAt 0 0x200000 = none ∧ st'.lookupAt 1 0x200000 = none := by
  refine ⟨smallState_booted, _, _, VmState.run_foldl _ _ (by decide),
    VmState.Permitted.step ⟨by decide, trivial⟩, ?_⟩
  exact ⟨by decide +kernel, by decide +kernel, by decide +kernel, by decide +kernel⟩

end Lume
