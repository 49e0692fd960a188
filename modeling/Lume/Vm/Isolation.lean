import Lume.Vm.Soundness

/-!
# Copy-on-write isolation

Address spaces share frames after `vmm_clone`. Isolation means that a shared frame is written by
nobody: no leaf entry of a frame that two address spaces map has the write bit, and so no store
of one process changes what another one can load.

Every operation keeps this but one. `vmm_protect_user` rebuilds an entry from the new permission
and drops the copy-on-write mark when that permission has no write bit; a later change back to
a writable permission then finds no mark and sets the write bit of a frame that is still shared.

## Main definitions

* `VmState.leafPte`, `VmState.load`: the leaf entry and the contents at a user address
* `VmState.CowIsolated`: the property

## Main results

* `cow_isolation`: isolation in every run whose changes of permission are safe
* `protect_twice_shares_writable`: what goes wrong otherwise
-/

namespace Lume

/-- A load of a word by a process; `none` when it faults. -/
def Machine.loadUser (m : Machine) (root va : ℕ) : Option Word :=
  match m.mem.findLeaf va 3 root with
  | some e =>
    if (m.mem e.1 e.2).Has pteR ∧ (m.mem e.1 e.2).Has pteU then
      some (m.mem (pteToPa (m.mem e.1 e.2)) (va % kPageSize / 8))
    else none
  | none => none

namespace VmState

/-- The leaf entry of address `va` in address space `sid`. -/
def leafPte (st : VmState) (sid va : ℕ) : Option Word :=
  (st.space sid).bind fun s =>
    (st.machine.mem.findLeaf va 3 s.rootPa).map fun e => st.machine.mem e.1 e.2

/-- What process `sid` loads from address `va`. -/
def load (st : VmState) (sid va : ℕ) : Option Word :=
  (st.space sid).bind fun s => st.machine.loadUser s.rootPa va

/-- **Copy-on-write isolation** -/
structure CowIsolated (st : VmState) : Prop where
  /-- a frame that leaf entries of two address spaces reach is written through neither -/
  read_only : ∀ {sid sid' va va' : ℕ} {w w' : Word}, sid ≠ sid' → st.leafPte sid va = some w →
    st.leafPte sid' va' = some w' → pteToPa w = pteToPa w' → ¬ w.Has pteW ∧ ¬ w'.Has pteW
  /-- a store of one process changes nothing that another one can load -/
  store : ∀ {sid sid' va va' : ℕ} {w : Word} {l : VmLabel} {st' : VmState}, sid ≠ sid' →
    l.call = .store sid va w → VmState.Step st l st' → st'.load sid' va' = st.load sid' va'

/-- The condition on a step under which isolation is kept: mappings end below `2 ^ 39`, no
counter of a frame overflows, and the right to write is added to no shared page that has lost
its mark. -/
def CowGuard (st : VmState) (l : VmLabel) : Prop :=
  l.call.MapsBelow kVaSpan ∧ st.CountsFit l ∧ st.CowSafe l

variable {st : VmState} {g : Ghost} {sid va : ℕ} {w : Word}

theorem Sound.leafPte_eq (h : st.Sound g) : st.leafPte sid va = some w ↔
    st.slots (sid, slotNo va) = w ∧ w.target = some (pteToPa w) := by
  constructor
  · intro hw
    obtain ⟨s, hs, hw⟩ := Option.bind_eq_some_iff.mp hw
    obtain ⟨e, he, rfl⟩ := Option.map_eq_some_iff.mp hw
    obtain ⟨hslot, htarget⟩ := h.ledger.leaf_eq (roots_eq hs) he
    exact ⟨hslot.symm, htarget⟩
  · rintro ⟨rfl, ht⟩
    have hk := ht ▸ Option.some_ne_none _
    obtain ⟨s, hs⟩ := space_of_target hk
    have hr := roots_eq hs
    have hslot : st.slots (sid, slotNo va) =
        st.machine.mem.slot s.rootPa (va / kPageSize) := by
      rw [slots, Mem.slots_of_root hr (slotNo_lt va), slotNo, Mem.slot_mod]
    rw [hslot] at hk ht ⊢
    cases htab : st.machine.mem.tableAt s.rootPa (tablePath (va / kPageSize)) with
    | none =>
      rw [Mem.slot_of_none htab] at hk
      exact absurd Word.target_zero hk
    | some t =>
      have he : st.machine.mem.findLeaf va 3 s.rootPa = some (t, index (va / kPageSize) 0) :=
        (h.ledger.tree sid s.rootPa hr).findLeaf_some.mpr ⟨htab, rfl, hk⟩
      rw [leafPte, hs, Option.bind_some, he, Option.map_some, Mem.slot_of_table htab]

theorem Sound.read_only (h : st.Sound g) (hi : Isolated st.slots) {sid' va' : ℕ} {w' : Word}
    (hne : sid ≠ sid') (hw : st.leafPte sid va = some w) (hw' : st.leafPte sid' va' = some w')
    (hpa : pteToPa w = pteToPa w') : ¬ w.Has pteW := by
  obtain ⟨rfl, ht⟩ := h.leafPte_eq.mp hw
  obtain ⟨rfl, ht'⟩ := h.leafPte_eq.mp hw'
  have hbit := hi (sid, _) (sid', _) (fun he => hne (Prod.ext_iff.mp he).1)
    (ht ▸ Option.some_ne_none _) (by rw [ht, hpa, ht'])
  intro hwrite
  rw [(Word.has_bit (by decide)).mp hwrite] at hbit
  cases hbit

theorem load_eq (st : VmState) (sid va : ℕ) : st.load sid va = (st.leafPte sid va).bind fun w =>
    if w.Has pteR ∧ w.Has pteU then some (st.machine.mem (pteToPa w) (va % kPageSize / 8))
    else none := by
  rw [load, leafPte]
  cases st.space sid with
  | none => rfl
  | some s =>
    simp only [Option.bind_some, Machine.loadUser]
    cases st.machine.mem.findLeaf va 3 s.rootPa <;> rfl

theorem Sound.load_store (h : st.Sound g) (hi : Isolated st.slots) {sid' va' : ℕ} {l : VmLabel}
    {st' : VmState} (hne : sid ≠ sid') (hcall : l.call = .store sid va w)
    (hstep : VmState.Step st l st') : st'.load sid' va' = st.load sid' va' := by
  obtain ⟨hok, rfl⟩ := hstep
  obtain ⟨m, hm⟩ : ∃ m : Machine, { st.machine with cpu := l.cpu, luck := l.luck } = m := ⟨_, rfl⟩
  have hmem : m.mem = st.machine.mem := by rw [← hm]
  have hl : Ledger m st.other st.roots g :=
    h.ledger.congr hmem (by rw [← hm]) (by rw [← hm]; exact hok.1)
  have hexec : st.exec l = st.onSpace sid fun s =>
      st.put (m.storeUser s.rootPa va w) sid (some s) := by
    rw [exec, hm, hcall]
    rfl
  rw [hexec, onSpace]
  cases hs : st.space sid with
  | none => rfl
  | some s =>
    obtain ⟨hl', he, hwrote⟩ := hl.storeUser_spec (roots_eq hs) va w
    obtain ⟨g', h', -⟩ : Kept True True st g (st.put (m.storeUser s.rootPa va w) sid (some s)) :=
      h.kept_store hs hl hmem w
    rw [hmem] at he hwrote
    -- the entries are the same, and so are the words behind those of another process
    have hslots : (st.put (m.storeUser s.rootPa va w) sid (some s)).slots = st.slots := by
      rw [slots, roots_put_some hs _ rfl]
      exact he
    have hleaf : (st.put (m.storeUser s.rootPa va w) sid (some s)).leafPte sid' va' =
        st.leafPte sid' va' := by
      refine Option.ext fun x => ?_
      rw [h'.leafPte_eq, h.leafPte_eq, hslots]
    simp only [load_eq, hleaf]
    refine Option.bind_congr fun x hx => ?_
    have hsame : (m.storeUser s.rootPa va w).mem (pteToPa x) = st.machine.mem (pteToPa x) := by
      by_contra hdiff
      obtain ⟨n, ht, hbit⟩ := hwrote _ hdiff
      obtain ⟨hx', hxt⟩ := h.leafPte_eq.mp hx
      have hro := hi (sid, n) (sid', slotNo va')
        (fun he => hne (Prod.ext_iff.mp he).1) (ht ▸ Option.some_ne_none _)
        (by rw [hx', hxt]; exact ht)
      exact absurd (hbit.symm.trans hro) (by decide)
    exact if_congr Iff.rfl (by rw [← hsame]; rfl) rfl

theorem isolated_of_run {R : Finset ℕ} {st₀ : VmState} {ls : List VmLabel} (h₀ : st₀.Booted R)
    (hr : Run (Guarded CowGuard VmState.Step) st₀ ls st) : ∃ g, st.Sound g ∧ Isolated st.slots := by
  have hstep {s : VmState} {l : VmLabel} {s' : VmState}
      (h : ∃ g, s.Sound g ∧ Isolated s.slots) (hs : Guarded CowGuard VmState.Step s l s') :
      ∃ g, s'.Sound g ∧ Isolated s'.slots := by
    obtain ⟨g, h, hi⟩ := h
    obtain ⟨⟨hmaps, hfit, hsafe⟩, hs⟩ := hs
    obtain ⟨g', h', -, -, hi'⟩ := h.step hs hmaps hfit
    exact ⟨g', h', hi' hsafe hi⟩
  refine hr.invariant (P := fun s => ∃ g, s.Sound g ∧ Isolated s.slots) hstep ?_
  obtain ⟨g, h, -, -, hi⟩ := h₀.sound
  exact ⟨g, h, hi⟩

end VmState

/-- **Copy-on-write isolation** holds in every state reached by steps that meet the guard. -/
theorem cow_isolation {R : Finset ℕ} {st₀ st : VmState} {ls : List VmLabel} (h₀ : st₀.Booted R)
    (hr : Run (Guarded VmState.CowGuard VmState.Step) st₀ ls st) : st.CowIsolated := by
  obtain ⟨g, h, hi⟩ := VmState.isolated_of_run h₀ hr
  refine ⟨fun hne hw hw' hpa => ⟨?_, ?_⟩, fun hne hcall hstep => h.load_store hi hne hcall hstep⟩
  · exact h.read_only hi hne hw hw' hpa
  · exact h.read_only hi hne.symm hw' hw hpa.symm

/-- The calls of the small machine: a process maps a page, writes to it and is
ready to be cloned. -/
def forkLabels : List VmLabel :=
  [⟨0, [], .create⟩, ⟨0, [], .mapUser 0 0x200000 0x1000 3⟩, ⟨0, [], .pageFault 0 0x200000 .write⟩]

theorem forkLabels_ok : ∀ l ∈ forkLabels, (l.cpu < kMaxCpus ∧ l.call.isUser = true) ∧
    l.call.MapsBelow kVaSpan ∧ ∀ st, VmState.Lossless st l ∧ VmState.CowSafe st l := by
  have hle : pageAlignDown 0x200000 + pageAlignUp 0x1000 ≤ kVaSpan := by decide
  intro l hl
  rcases List.mem_cons.mp hl with rfl | hl
  · exact ⟨by decide, trivial, fun _ => ⟨trivial, trivial⟩⟩
  rcases List.mem_cons.mp hl with rfl | hl
  · exact ⟨by decide, fun _ _ => hle, fun _ => ⟨trivial, trivial⟩⟩
  · cases List.mem_singleton.mp hl
    exact ⟨by decide, trivial, fun _ => ⟨trivial, trivial⟩⟩

/-- On the small machine: isolation after the first process was cloned. -/
theorem cow_isolation_small :
    ((forkLabels.foldl VmState.exec smallState).exec ⟨0, [], .clone 0⟩).CowIsolated := by
  have hlossless : Run (Guarded VmState.LosslessGuard VmState.Step) smallState forkLabels
      (forkLabels.foldl VmState.exec smallState) :=
    VmState.run_guarded _ _ (fun l hl => (forkLabels_ok l hl).1)
      fun l hl st => ⟨(forkLabels_ok l hl).2.1, ((forkLabels_ok l hl).2.2 st).1⟩
  have hrun : Run (Guarded VmState.CowGuard VmState.Step) smallState forkLabels
      (forkLabels.foldl VmState.exec smallState) := by
    refine VmState.run_guarded _ _ (fun l hl => (forkLabels_ok l hl).1) fun l hl st => ?_
    obtain ⟨-, hmaps, hst⟩ := forkLabels_ok l hl
    refine ⟨hmaps, ?_, (hst st).2⟩
    rcases l with ⟨_, _, call⟩
    cases call with
    | clone => simp [forkLabels] at hl
    | _ => trivial
  obtain ⟨g, h, -, hdebt⟩ := VmState.sound_of_lossless smallState_booted hlossless
  have hclone : (forkLabels.foldl VmState.exec smallState).Permitted ⟨0, [], .clone 0⟩ :=
    ⟨by decide, trivial⟩
  have hguard : (forkLabels.foldl VmState.exec smallState).CowGuard ⟨0, [], .clone 0⟩ :=
    ⟨trivial, h.countsFit hdebt _, trivial⟩
  exact cow_isolation smallState_booted (.snoc hrun ⟨hguard, hclone.step⟩)

set_option maxRecDepth 100000 in
/-- **A shared frame becomes writable**: a process maps a page, writes to it and is cloned. Then it
takes the right to write away from the page and gives it back. Its entry is writable, the frame
is still that of the clone, and a store of the parent shows up in the clone. -/
theorem protect_twice_shares_writable : smallState.Booted (smallBoot []).reservedPages ∧
    ∃ st, Run VmState.Step smallState (forkLabels ++ [⟨0, [], .clone 0⟩,
        ⟨0, [], .protectUser 0 0x200000 0x1000 1⟩, ⟨0, [], .protectUser 0 0x200000 0x1000 3⟩]) st ∧
      (∃ w w', st.leafPte 0 0x200000 = some w ∧ st.leafPte 1 0x200000 = some w' ∧
        pteToPa w = pteToPa w' ∧ w.Has pteW) ∧
      (st.exec ⟨0, [], .store 0 0x200000 7⟩).load 1 0x200000 ≠ st.load 1 0x200000 := by
  refine ⟨smallState_booted, _, VmState.run_foldl _ _ (by decide), ?_, by decide +kernel⟩
  exact ⟨0x200038D7#64, 0x200039D3#64, by decide +kernel, by decide +kernel, by decide +kernel,
    by decide +kernel⟩

end Lume
