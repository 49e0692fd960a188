import Lume.Vm.Independence
import Lume.Vm.Refcounts

/-!
# What a process can reach

Whatever the calls before, the memory that a process can translate to is its own or shared user data:
no table, no free page and no page of the rest of the kernel. Its stores change such pages and no
translation. When all processes are gone, all that was theirs is back in the allocator.

## Main definitions

* `VmState.UserPage`: a page of user data

## Main results

* `user_memory_confined`: translations and stores stay in user pages
* `teardown_complete`: nothing stays behind
-/

namespace Lume

namespace VmState

/-- Page `p` of RAM was not reserved at boot, and neither the rest of the kernel nor the allocator
has it, and it is no table. -/
structure UserPage (R : Finset ℕ) (st : VmState) (p : ℕ) : Prop where
  lt : p < st.machine.pmm.numPages
  reserved : p ∉ R
  other : ∀ b ∈ st.other, p ∉ b
  inPmm : ¬ st.InPmm p
  table : ¬ st.IsTable p

variable {st st' : VmState} {g : Ghost} {p sid va : ℕ} {w : Word}

theorem Sound.userPage (h : st.Sound g) (hown : g.own p = .frame) : st.UserPage g.reserved p := by
  have hlt : p < st.machine.pmm.numPages := by
    have := h.ledger.own_lt (by rw [hown]; simp)
    rwa [← h.ledger.ram_eq] at this
  refine ⟨hlt, fun hR => ?_, fun b hb hp => ?_, h.not_inPmm hown, ?_⟩
  · let x : Pmm.Client := ⟨st.machine.pmm, g.mine ++ st.other⟩
    have hlive : x.At g.reserved p (.live ⟨p, 0⟩) :=
      ⟨h.ledger.mem_held (by simp [hown]), Block.start_mem _⟩
    have hres : x.At g.reserved p .reserved := hR
    cases hres.unique h.ledger.pmm.accounted hlt hlive
  · cases hown.symm.trans (h.ledger.own_of_other hb hp)
  · rintro ⟨j, s, path, hs, hlen, ht⟩
    obtain ⟨q, -, hq, htab⟩ := (h.ledger.tree j s.rootPa (roots_eq hs)).table path _ hlen ht
    rw [h.ledger.ram_eq] at hq
    cases g.ram.pageToPa_injective hq
    cases hown.symm.trans htab

/-- A store changes no translation, and only memory that its address space maps. -/
theorem Sound.step_store (h : st.Sound g) {l : VmLabel} (hcall : l.call = .store sid va w)
    (hstep : VmState.Step st l st') :
    (∀ sid' va', st'.lookupAt sid' va' = st.lookupAt sid' va') ∧
    ∀ pa, st'.machine.mem pa ≠ st.machine.mem pa → ∃ va', st.lookupAt sid va' = some pa := by
  obtain ⟨hok, rfl⟩ := hstep
  obtain ⟨m, hm⟩ : ∃ m : Machine, { st.machine with cpu := l.cpu, luck := l.luck } = m := ⟨_, rfl⟩
  have hmem : m.mem = st.machine.mem := by rw [← hm]
  have hl : Ledger m st.other st.roots g :=
    h.ledger.congr hmem (by rw [← hm]) (by rw [← hm]; exact hok.1)
  have hexec : st.exec l = st.onSpace sid fun s =>
      st.put (m.storeUser s.rootPa va w) sid (some s) := by
    rw [exec, hm, hcall]
    rfl
  rw [hexec, onSpace]
  cases hs : st.space sid with
  | none => exact ⟨fun _ _ => rfl, fun pa hne => absurd rfl hne⟩
  | some s =>
    obtain ⟨-, he, hwrote⟩ := hl.storeUser_spec (roots_eq hs) va w
    obtain ⟨g', h', -⟩ : Kept True True st g (st.put (m.storeUser s.rootPa va w) sid (some s)) :=
      h.kept_store hs hl hmem w
    rw [hmem] at he hwrote
    refine ⟨fun sid' va' => ?_, fun pa hne => ?_⟩
    · have hslots : (st.put (m.storeUser s.rootPa va w) sid (some s)).slots = st.slots := by
        rw [slots, roots_put_some hs _ rfl]
        exact he
      have hspace : (st.put (m.storeUser s.rootPa va w) sid (some s)).space sid' = st.space sid' := by
        rw [space_put hs]
        split
        · rename_i hj
          rw [hj, hs]
        · rfl
      by_cases hsome : (st.space sid').isSome
      · rw [lookupAt_eq h'.tabled (hspace ▸ hsome), lookupAt_eq h.tabled hsome, hslots]
      · rw [Option.not_isSome_iff_eq_none] at hsome
        rw [lookupAt, lookupAt, hspace, hsome]
        rfl
    · obtain ⟨n, ht, -⟩ := hwrote pa hne
      have hn : n < kPageNumbers :=
        lt_of_target (show (st.slots (sid, n)).target ≠ none from ht ▸ Option.some_ne_none _)
      refine ⟨n * kPageSize, ?_⟩
      rw [lookupAt_eq h.tabled (by simp [hs]), slotNo_page hn]
      exact ht

end VmState

/-- **Confinement**: in every state reached with mappings below `2 ^ 39`, a process translates to user
pages only, and its stores change no translation and no other memory. -/
theorem user_memory_confined {R : Finset ℕ} {st₀ st : VmState} {ls : List VmLabel}
    (h₀ : st₀.Booted R) (hr : Run (Guarded VmState.Injective VmState.Step) st₀ ls st) :
    (∀ sid va pa, st.lookupAt sid va = some pa →
      ∃ p, st.UserPage R p ∧ pa = st.machine.pmm.ram.pageToPa p) ∧
    ∀ {sid va : ℕ} {w : Word} {l : VmLabel} {st' : VmState}, l.call = .store sid va w →
      VmState.Step st l st' →
      (∀ sid' va', st'.lookupAt sid' va' = st.lookupAt sid' va') ∧
      ∀ pa, st'.machine.mem pa ≠ st.machine.mem pa → ∃ va', st.lookupAt sid va' = some pa := by
  obtain ⟨g, h, rfl⟩ := VmState.sound_of_injective h₀ hr
  refine ⟨fun sid va pa hpa => ?_, fun hcall hstep => h.step_store hcall hstep⟩
  have hsome : (st.space sid).isSome := by
    by_contra hnone
    rw [Option.not_isSome_iff_eq_none] at hnone
    simp [VmState.lookupAt, hnone] at hpa
  rw [VmState.lookupAt_eq h.tabled hsome] at hpa
  obtain ⟨p, -, hp, -, hown⟩ := h.ledger.frame_of_target hpa
  exact ⟨p, h.userPage hown, h.ledger.ram_eq ▸ hp⟩

set_option maxRecDepth 100000 in
theorem user_memory_confined_small : ∃ p,
    (forkLabels.foldl VmState.exec smallState).UserPage (smallBoot []).reservedPages p ∧
      (forkLabels.foldl VmState.exec smallState).lookupAt 0 0x200000 =
        some ((forkLabels.foldl VmState.exec smallState).machine.pmm.ram.pageToPa p) := by
  have hrun : Run (Guarded VmState.Injective VmState.Step) smallState forkLabels
      (forkLabels.foldl VmState.exec smallState) := by
    refine VmState.run_guarded _ _ (fun l hl => (forkLabels_ok l hl).1) fun l hl st => ?_
    refine ⟨(forkLabels_ok l hl).2.1, ?_⟩
    obtain ⟨cpu, luck, call⟩ := l
    cases call with
    | clone => simp [forkLabels] at hl
    | _ => trivial
  obtain ⟨pa, hpa⟩ : ∃ pa, (forkLabels.foldl VmState.exec smallState).lookupAt 0 0x200000 = some pa :=
    Option.isSome_iff_exists.mp (by decide +kernel)
  obtain ⟨p, hp, rfl⟩ := (user_memory_confined smallState_booted hrun).1 _ _ _ hpa
  exact ⟨p, hp, hpa⟩

/-- **Nothing stays behind**: after steps without a loss, when every address space is destroyed, a page
that was not reserved at boot is in the allocator or held by the rest of the kernel. -/
theorem teardown_complete {R : Finset ℕ} {st₀ st : VmState} {ls : List VmLabel} (h₀ : st₀.Booted R)
    (hr : Run (Guarded VmState.LosslessGuard VmState.Step) st₀ ls st)
    (hgone : ∀ s ∈ st.spaces, s = none) :
    ∀ p < st.machine.pmm.numPages, p ∉ R → (∀ b ∈ st.other, p ∉ b) → st.InPmm p := by
  obtain ⟨g, h, rfl, hdebt⟩ := VmState.sound_of_lossless h₀ hr
  have hnone (sid : ℕ) : st.space sid = none := by
    by_contra hne
    obtain ⟨s, hs⟩ := Option.ne_none_iff_exists'.mp hne
    cases hgone _ (List.mem_of_getElem? (Option.join_eq_some_iff.mp hs))
  refine fun p hp hR hother => (h.inPmm_iff hp hR hother ?_).mpr fun hown => ?_
  · rintro ⟨sid, s, -, hs, -⟩
    cases (hnone sid).symm.trans hs
  · -- a frame has a positive count, which is the number of entries that map it
    have hpos := (h.ledger.count_pos p hown).1
    rw [h.refcount_eq (hdebt p) hown] at hpos
    obtain ⟨k, hk⟩ := Finset.card_pos.mp hpos
    simp [VmState.mapped, hnone] at hk

set_option maxRecDepth 100000 in
theorem teardown_complete_small : ∃ st : VmState, st.spaces.length = 1 ∧
    ∀ p < st.machine.pmm.numPages, p ∉ (smallBoot []).reservedPages → (∀ b ∈ st.other, p ∉ b) →
      st.InPmm p := by
  have hst : (fun st : VmState => st.spaces.length = 1 ∧ ∀ s ∈ st.spaces, s.isNone)
      ((forkLabels.foldl VmState.exec smallState).exec ⟨0, [], .destroy 0⟩) := by decide +kernel
  have hrun : Run (Guarded VmState.LosslessGuard VmState.Step) smallState forkLabels
      (forkLabels.foldl VmState.exec smallState) :=
    VmState.run_guarded _ _ (fun l hl => (forkLabels_ok l hl).1)
      fun l hl st => ⟨(forkLabels_ok l hl).2.1, ((forkLabels_ok l hl).2.2 st).1⟩
  have hdestroy : (forkLabels.foldl VmState.exec smallState).Permitted ⟨0, [], .destroy 0⟩ :=
    ⟨by decide, trivial⟩
  have hguard : (forkLabels.foldl VmState.exec smallState).LosslessGuard ⟨0, [], .destroy 0⟩ :=
    ⟨trivial, trivial⟩
  exact ⟨_, hst.1, teardown_complete smallState_booted (.snoc hrun ⟨hguard, hdestroy.step⟩)
    fun s hs => Option.isNone_iff_eq_none.mp (hst.2 s hs)⟩

end Lume
