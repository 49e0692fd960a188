import Lume.Vm.Independence
import Lume.Vm.Isolation

/-!
# A handled page fault

When `vmm_handle_page_fault` returns 0, the process executes the same instruction again. It gets
on only if the leaf entry of the page now allows the access under the rules of SV39. There an
entry that is writable and not readable is reserved, and every access through it faults. The
permissions of a region are chosen by the process, `vma_allows` looks only at the bit of the
cause, and `vm_perm_to_pte` copies the bits one by one: a region that is writable and not
readable gets a reserved entry, and the process faults on it for ever.

## Main definitions

* `Word.Lets`: an entry allows an access
* `Machine.Completes`: the walk of the hardware ends in such an entry

## Main results

* `handled_fault_completes`: when a handled fault lets the access complete, and when the fault is
  refused
* `write_only_faults_again`: what goes wrong otherwise
-/

namespace Lume

open Segs (Maps)

/-- The permission bit of an entry that an access needs. -/
def VmFaultCause.pteBit : VmFaultCause → Word
  | .read => pteR
  | .write => pteW
  | .exec => pteX

/-- The leaf entry lets an access from user mode complete: it is valid, open to user mode, it has
the bit of the access, and it is not the reserved combination of writable and not readable. -/
def Word.Lets (w : Word) (cause : VmFaultCause) : Prop :=
  w.Has pteV ∧ w.Has pteU ∧ w.Has cause.pteBit ∧ ¬ (w.Has pteW ∧ ¬ w.Has pteR)

instance (w : Word) (cause : VmFaultCause) : Decidable (w.Lets cause) :=
  inferInstanceAs (Decidable (_ ∧ _ ∧ _ ∧ ¬ _))

/-- The walk of the hardware for `va` ends in an entry that lets the access complete. -/
def Machine.Completes (m : Machine) (root va : ℕ) (cause : VmFaultCause) : Prop :=
  ∃ e, m.mem.findLeaf va 3 root = some e ∧ (m.mem e.1 e.2).Lets cause

/-- The permission of the region is not the reserved one, or the page is there already and lost
its right to write to copy-on-write. -/
def Machine.FaultSafe (m : Machine) (s : VmSpace) (addr : ℕ) (cause : VmFaultCause) : Prop :=
  ∀ v ∈ s.vmas, addr ∈ v → v.perm.Has vmRead ∨ ¬ v.perm.Has vmWrite ∨
    (cause ≠ .write ∧ m.mem.isCow s.rootPa addr = true)

section Grants

variable {w x : Word}

theorem Grants.has_pteW (h : Grants w x) : w.Has pteW ↔ x.Has vmWrite ∧ ¬ w.Has pteCow := by
  rw [pteW, vmWrite, pteCow, Word.has_bit (by decide), Word.has_bit (by decide),
    Word.has_bit (by decide), h.write_eq]
  simp

theorem Grants.has_pteR (h : Grants w x) : w.Has pteR ↔ x.Has vmRead := by
  rw [pteR, vmRead, Word.has_bit (by decide), Word.has_bit (by decide), h.read_eq]

theorem Grants.has_pteX (h : Grants w x) : w.Has pteX ↔ x.Has vmExec := by
  rw [pteX, vmExec, Word.has_bit (by decide), Word.has_bit (by decide), h.exec_eq]

/-- Which accesses an entry allows is decided by the permission it grants, unless it is marked
copy-on-write. -/
theorem Grants.lets_iff {cause : VmFaultCause} (h : Grants w x)
    (hw : w.target ≠ none) (huser : x.getLsbD 3 = true)
    (hallow : Machine.vmaAllows ⟨0, 0, x⟩ cause) (hcow : cause = .write → ¬ w.Has pteCow) :
    w.Lets cause ↔ x.Has vmRead ∨ ¬ x.Has vmWrite ∨ w.Has pteCow := by
  have hvalid : w.Has pteV := (Word.target_ne_none.mp hw).1
  have hopen : w.Has pteU := by
    rw [pteU, Word.has_bit (by decide), h.user_eq, huser]
  have hcause : w.Has cause.pteBit := by
    cases cause with
    | read => exact h.has_pteR.mpr hallow
    | write => exact h.has_pteW.mpr ⟨hallow, hcow rfl⟩
    | exec => exact h.has_pteX.mpr hallow
  rw [Word.Lets, h.has_pteW, h.has_pteR]
  tauto

end Grants

namespace VmState

variable {st : VmState} {g : Ghost} {sid addr : ℕ} {s : VmSpace} {cause : VmFaultCause}

section

variable (h : st.Sound g) (hs : st.space sid = some s)
include h hs

theorem Sound.completes_iff (addr : ℕ)
    (cause : VmFaultCause) : st.machine.Completes s.rootPa addr cause ↔
      (st.slots (sid, slotNo addr)).target ≠ none ∧ (st.slots (sid, slotNo addr)).Lets cause := by
  have hleaf (w : Word) : st.leafPte sid addr = some w ↔
      ∃ e, st.machine.mem.findLeaf addr 3 s.rootPa = some e ∧ st.machine.mem e.1 e.2 = w := by
    rw [leafPte, hs, Option.bind_some, Option.map_eq_some_iff]
  constructor
  · rintro ⟨e, he, hlets⟩
    obtain ⟨hslot, ht⟩ := h.leafPte_eq.mp ((hleaf _).mpr ⟨e, he, rfl⟩)
    rw [hslot]
    exact ⟨ht ▸ Option.some_ne_none _, hlets⟩
  · rintro ⟨ht, hlets⟩
    have hw : st.leafPte sid addr = some (st.slots (sid, slotNo addr)) :=
      h.leafPte_eq.mpr ⟨rfl, if_pos (Word.target_ne_none.mp ht)⟩
    obtain ⟨e, he, hslot⟩ := (hleaf _).mp hw
    exact ⟨e, he, hslot ▸ hlets⟩

theorem Sound.isCow_iff (addr : ℕ) : st.machine.mem.isCow s.rootPa addr = true ↔
      (st.slots (sid, slotNo addr)).target ≠ none ∧ (st.slots (sid, slotNo addr)).Has pteCow :=
  h.ledger.isCow_slot (roots_eq hs) addr

theorem Sound.grants_of_mem {v : Vma}
    (hv : v ∈ s.vmas) (hin : addr ∈ v) (ht : (st.slots (sid, slotNo addr)).target ≠ none) :
    Grants (st.slots (sid, slotNo addr)) v.perm := by
  have hreg := h.regions sid s hs
  obtain ⟨x, hx, hg⟩ := h.covers sid s hs _ (slotNo_lt addr) ht
  rw [hreg.slotNo_eq hv hin] at hx
  rwa [hx.unique hreg.sorted (Segs.maps_of_mem hv (hreg.page_mem hv hin))] at hg

end

theorem userRegions_of_injective {R : Finset ℕ} {st₀ : VmState} {ls : List VmLabel}
    (h₀ : st₀.Booted R) (hr : Run (Guarded Injective VmState.Step) st₀ ls st) : st.UserRegions := by
  have hstep {s : VmState} {l : VmLabel} {s' : VmState}
      (h : s.RegionsOk kVaSpan ∧ s.UserRegions) (hs : Guarded Injective VmState.Step s l s') :
      s'.RegionsOk kVaSpan ∧ s'.UserRegions :=
    ⟨h.1.step hs.1.1 hs.2, h.2.step h.1 hs.1.1 hs.2⟩
  have hnone (sid : ℕ) : st₀.space sid = none := by simp [space, h₀.1]
  refine (hr.invariant (P := fun s => s.RegionsOk kVaSpan ∧ s.UserRegions) hstep ⟨?_, ?_⟩).2
  · intro sid s hs
    rw [hnone] at hs
    cases hs
  · intro sid s hs
    rw [hnone] at hs
    cases hs

/-- **A handled fault**: the access can complete exactly when the permission of the region is not
the reserved one, or the page was there before and is not written to. -/
theorem Sound.completes_of_handled (h : st.Sound g) (hu : st.UserRegions)
    (hs : st.space sid = some s) {m m' : Machine} (hl : Ledger m st.other st.roots g)
    (hmem : m.mem = st.machine.mem) (hres : m.handlePageFault s addr cause = (0, m')) :
    m'.Completes s.rootPa addr cause ↔ m.FaultSafe s addr cause := by
  have hslots : m.mem.slots st.roots = st.slots := by rw [hmem]; rfl
  obtain ⟨v, hfind, hallow⟩ : ∃ v, Segs.find s.vmas addr = some v ∧
      Machine.vmaAllows v cause := by
    rw [Machine.handlePageFault] at hres
    split at hres
    · cases hres
    · rename_i v hfind
      split at hres
      · cases hres
      · exact ⟨v, hfind, not_not.mp ‹_›⟩
  obtain ⟨hv, hin⟩ := Segs.mem_of_find hfind
  have hreg := h.regions sid s hs
  have huser : v.perm.getLsbD 3 = true := hu sid s hs addr _ (Segs.maps_of_mem hv hin)
  have hsafe : m.FaultSafe s addr cause ↔ v.perm.Has vmRead ∨ ¬ v.perm.Has vmWrite ∨
      (cause ≠ .write ∧ m.mem.isCow s.rootPa addr = true) := by
    refine ⟨fun hf => hf v hv hin, fun hf u hum hinu => ?_⟩
    rwa [hreg.sorted.eq_of_mem hum hv hinu hin]
  -- the state after the call, and its slot for the page
  obtain ⟨g', h', -⟩ : Kept True True st g (st.put m' sid (some s)) :=
    h.kept_pageFault hs hl hmem hres
  have hs' : (st.put m' sid (some s)).space sid = some s := by rw [space_put hs, if_pos rfl]
  have hslots' : (st.put m' sid (some s)).slots = m'.mem.slots st.roots := by
    rw [slots, roots_put_some hs _ rfl]
    rfl
  have hcompletes := h'.completes_iff hs' addr cause
  have hgrants := h'.grants_of_mem hs' hv hin
  rw [hslots'] at hcompletes hgrants
  obtain ⟨-, hcase⟩ := hl.handlePageFault_spec (roots_eq hs) hreg hres
  rw [hslots] at hcase
  have hcow : m.mem.isCow s.rootPa addr = true ↔ (st.slots (sid, slotNo addr)).target ≠ none ∧
      (st.slots (sid, slotNo addr)).Has pteCow := by
    rw [hmem]
    exact h.isCow_iff hs addr
  refine hcompletes.trans (Iff.trans ?_ hsafe.symm)
  rcases hcase with ⟨he, hserved⟩ | ⟨w, he, -, hplain, ht, hnot, -⟩
  · -- the page was there: its entry is as before
    obtain ⟨ht, hwrite⟩ := hserved rfl
    rw [he] at hgrants ⊢
    rw [(hgrants ht).lets_iff ht huser hallow hwrite, hcow]
    constructor
    · rintro ⟨-, hread | hro | hc⟩
      · exact .inl hread
      · exact .inr (.inl hro)
      · exact .inr (.inr ⟨fun he => hwrite he hc, ht, hc⟩)
    · rintro (hread | hro | ⟨-, -, hc⟩)
      · exact ⟨ht, .inl hread⟩
      · exact ⟨ht, .inr (.inl hro)⟩
      · exact ⟨ht, .inr (.inr hc)⟩
  · -- a new entry, which is not marked
    rw [he, Function.update_self] at hgrants ⊢
    rw [(hgrants ht).lets_iff ht huser hallow fun _ => hplain, hcow]
    constructor
    · rintro ⟨-, hread | hro | hc⟩
      · exact .inl hread
      · exact .inr (.inl hro)
      · exact absurd hc hplain
    · rintro (hread | hro | ⟨hne, hmapped, -⟩)
      · exact ⟨ht, .inl hread⟩
      · exact ⟨ht, .inr (.inl hro)⟩
      · exact absurd ⟨hmapped, fun he => absurd he hne⟩ hnot

end VmState

theorem handlePageFault_refused {m m' : Machine} {s : VmSpace} {addr : ℕ} {cause : VmFaultCause}
    {ret : Int} (h : Segs.Sorted s.vmas) (hres : m.handlePageFault s addr cause = (ret, m')) :
    ret = -eFault ↔ ∀ v ∈ s.vmas, addr ∈ v → ¬ Machine.vmaAllows v cause := by
  have hcow {m m' : Machine} {root addr pa : ℕ} {perm : Word}
      (hr : m.cowFault root addr pa perm = (ret, m')) : ret ≠ -eFault := by
    rw [Machine.cowFault] at hr
    split at hr
    · cases hr
      decide
    · dsimp only at hr
      split at hr <;> cases hr <;> decide
  have hdemand {m m' : Machine} {root addr : ℕ} {perm : Word}
      (hr : m.demandFault root addr perm = (ret, m')) : ret ≠ -eFault := by
    rw [Machine.demandFault] at hr
    split at hr
    · cases hr
      decide
    · dsimp only at hr
      split at hr <;> cases hr <;> decide
  rw [Machine.handlePageFault] at hres
  split at hres
  · rename_i hfind
    cases hres
    exact iff_of_true rfl fun v hv hin => absurd hin (Segs.find_eq_none.mp hfind v hv)
  · rename_i v hfind
    obtain ⟨hv, hin⟩ := Segs.mem_of_find hfind
    split at hres
    · rename_i hdenied
      cases hres
      refine iff_of_true rfl fun u hu hinu => ?_
      rwa [h.eq_of_mem hu hv hinu hin]
    · rename_i hallow
      refine iff_of_false ?_ fun hall => hallow (hall v hv hin)
      split at hres
      · split at hres
        · exact hcow hres
        · cases hres
          decide
      · exact hdemand hres

/-- **A handled fault makes progress** exactly when the region does not have the reserved
permission, or the access is no write and the page is there and marked copy-on-write; and a fault
is refused exactly when no region grants the access. -/
theorem handled_fault_completes {R : Finset ℕ} {st₀ st : VmState} {ls : List VmLabel} {sid : ℕ}
    {s : VmSpace} (h₀ : st₀.Booted R)
    (hr : Run (Guarded VmState.Injective VmState.Step) st₀ ls st) (hs : st.space sid = some s)
    {cpu : ℕ} (hcpu : cpu < kMaxCpus) (luck : List Bool) (addr : ℕ) (cause : VmFaultCause)
    {ret : Int} {m' : Machine} (hres : ({ st.machine with cpu := cpu, luck := luck } :
      Machine).handlePageFault s addr cause = (ret, m')) :
    (ret = 0 → (m'.Completes s.rootPa addr cause ↔ st.machine.FaultSafe s addr cause)) ∧
      (ret = -eFault ↔ ∀ v ∈ s.vmas, addr ∈ v → ¬ Machine.vmaAllows v cause) := by
  obtain ⟨g, h, -⟩ := VmState.sound_of_injective h₀ hr
  have hu := VmState.userRegions_of_injective h₀ hr
  refine ⟨?_, handlePageFault_refused (h.regions sid s hs).sorted hres⟩
  rintro rfl
  have hl : Ledger { st.machine with cpu := cpu, luck := luck } st.other st.roots g :=
    h.ledger.congr rfl rfl hcpu
  have hiff := h.completes_of_handled hu hs hl rfl hres
  exact hiff

/-- The calls of the small machine: a process maps a page with permission `perm`. -/
def pageLabels (perm : Word) : List VmLabel :=
  [⟨0, [], .create⟩, ⟨0, [], .mapUser 0 0x200000 0x1000 perm⟩]

theorem pageLabels_run (perm : Word) : Run (Guarded VmState.Injective VmState.Step) smallState
    (pageLabels perm) ((pageLabels perm).foldl VmState.exec smallState) := by
  have hle : pageAlignDown 0x200000 + pageAlignUp 0x1000 ≤ kVaSpan := by decide
  have hcpu : 0 < kMaxCpus := by decide
  refine VmState.run_guarded _ _ (fun l hl => ?_) fun l hl st => ?_
  · rcases List.mem_cons.mp hl with rfl | hl
    · exact ⟨hcpu, rfl⟩
    · cases List.mem_singleton.mp hl
      exact ⟨hcpu, rfl⟩
  · rcases List.mem_cons.mp hl with rfl | hl
    · exact ⟨trivial, trivial⟩
    · cases List.mem_singleton.mp hl
      exact ⟨fun _ _ => hle, trivial⟩

set_option maxRecDepth 100000 in
/-- On the small machine: the first write to a page that is readable and writable is handled, and
then it completes. -/
theorem handled_fault_completes_small : ∃ (s : VmSpace) (m' : Machine),
    ((pageLabels 3).foldl VmState.exec smallState).space 0 = some s ∧
      Machine.handlePageFault { ((pageLabels 3).foldl VmState.exec smallState).machine with
        cpu := 0, luck := [] } s 0x200008 .write = (0, m') ∧
      m'.Completes s.rootPa 0x200008 .write := by
  obtain ⟨s, hs⟩ := Option.isSome_iff_exists.mp (by decide +kernel :
    (((pageLabels 3).foldl VmState.exec smallState).space 0).isSome)
  have hret : ((((pageLabels 3).foldl VmState.exec smallState).space 0).map fun s =>
      ((Machine.handlePageFault { ((pageLabels 3).foldl VmState.exec smallState).machine with
        cpu := 0, luck := [] } s 0x200008 .write).1, s.vmas)) =
      some (0, [⟨0x200000, 0x201000, 11⟩]) := by decide +kernel
  rw [hs, Option.map_some, Option.some.injEq, Prod.mk.injEq] at hret
  refine ⟨s, _, hs, Prod.ext hret.1 rfl, ?_⟩
  refine ((handled_fault_completes smallState_booted (pageLabels_run 3) hs (by decide) [] 0x200008
    .write (Prod.ext hret.1 rfl)).1 rfl).mpr fun v hv _ => ?_
  rw [hret.2, List.mem_singleton] at hv
  subst hv
  exact .inl (by decide)

set_option maxRecDepth 100000 in
/-- **A write that faults for ever**: a process maps a page that it may write and not read, and
writes to it. The fault is handled with success, and the access cannot complete: the entry has the
reserved combination. -/
theorem write_only_faults_again : smallState.Booted (smallBoot []).reservedPages ∧
    Run VmState.Step smallState (pageLabels 2) ((pageLabels 2).foldl VmState.exec smallState) ∧
    ∃ (s : VmSpace) (m' : Machine) (w : Word),
      ((pageLabels 2).foldl VmState.exec smallState).space 0 = some s ∧
      Machine.handlePageFault { ((pageLabels 2).foldl VmState.exec smallState).machine with
        cpu := 0, luck := [] } s 0x200000 .write = (0, m') ∧
      (m'.mem.findLeaf 0x200000 3 s.rootPa).map (fun e => m'.mem e.1 e.2) = some w ∧
      ¬ w.Lets .write := by
  obtain ⟨s, hs⟩ := Option.isSome_iff_exists.mp (by decide +kernel :
    (((pageLabels 2).foldl VmState.exec smallState).space 0).isSome)
  have hret : ((((pageLabels 2).foldl VmState.exec smallState).space 0).map fun s =>
      ((Machine.handlePageFault { ((pageLabels 2).foldl VmState.exec smallState).machine with
        cpu := 0, luck := [] } s 0x200000 .write).1,
      ((Machine.handlePageFault { ((pageLabels 2).foldl VmState.exec smallState).machine with
        cpu := 0, luck := [] } s 0x200000 .write).2.mem.findLeaf 0x200000 3 s.rootPa).map fun e =>
          (Machine.handlePageFault { ((pageLabels 2).foldl VmState.exec smallState).machine with
        cpu := 0, luck := [] } s 0x200000 .write).2.mem e.1 e.2)) =
      some (0, some 0x200038D5#64) := by decide +kernel
  rw [hs, Option.map_some, Option.some.injEq, Prod.mk.injEq] at hret
  exact ⟨smallState_booted, (pageLabels_run 2).of_guarded, s, _, _, hs, Prod.ext hret.1 rfl, hret.2,
    by decide⟩

end Lume
