import Lume.Vm.Snapshot

/-!
# Changing permissions and the data behind them

`vmm_protect_user` rewrites the leaf entries of the pages that are present. It drops the pages of a
range that gets no permission at all, and their frames with them; a later fault then maps a frame
with other contents. Without that the frame behind a page and its contents stay, whatever
permissions the page passes through, as long as every one of them makes a leaf entry.

## Main definitions

* `VmState.ProtectStep`: a successful call of `vmm_protect_user`
* `VmState.KeepsPage`: the call leaves a right on the page

## Main results

* `Ledger.protectAll_keeps`: the loop keeps a page whose right is kept, and its frame
* `protect_keeps_data`: what was behind a page before a sequence of calls is read after it
* `protect_none_loses_data`: what happens otherwise
-/

namespace Lume

namespace Ledger

variable {m m' : Machine} {other : List Block} {roots : Roots} {g : Ghost} {sid root addr pa : ℕ}
  {perm vmaPerm : Word} {k : ℕ × ℕ}

theorem isLeaf_protectFlags {x : Word} {cow : Bool}
    (h : x.Has vmRead ∨ x.Has vmExec ∨ (x.Has vmWrite ∧ cow = false)) :
    (protectFlags x cow).IsLeaf := by
  rw [← or_assoc, ← readable_iff] at h
  rcases h with h | ⟨hw, rfl⟩
  · exact isLeaf_of_grants (grants_protectFlags cow) h
  · rw [vmWrite, Word.has_bit (by decide)] at hw
    rw [protectFlags, if_neg (by simp), Word.isLeaf_iff, getLsbD_vmPermToPte x 2]
    simp [hw]

theorem protectPage_keeps (h : Ledger m other roots g) (hr : roots sid = some root)
    (perm vmaPerm : Word) (hn : addr / kPageSize < kPageNumbers) (hk : (m.mem.slots roots k).target = some pa)
    (hkeep : k = (sid, addr / kPageSize) → perm ≠ 0 ∧
      (protectFlags vmaPerm (decide ((m.mem.slots roots k).Has pteCow))).IsLeaf) :
    ((m.protectPage root perm vmaPerm addr).2.mem.slots roots k).target = some pa ∧
      (m.protectPage root perm vmaPerm addr).2.mem pa = m.mem pa := by
  obtain ⟨p, hlt, rfl, hf, hp⟩ := h.frame_of_target hk
  have hlook := h.lookup_eq hr hn
  rw [Machine.protectPage]
  cases hl : m.mem.lookup root addr with
  | none => exact ⟨hk, rfl⟩
  | some pa' =>
    rw [hlook] at hl
    dsimp only
    split
    · -- another page is dropped
      rename_i hzero
      have hne : k ≠ (sid, addr / kPageSize) := fun he => (hkeep he).1 hzero
      obtain ⟨-, hs⟩ := h.clear_spec hr hn hl
      obtain ⟨t, ht, -⟩ := table_of_target m hr hn (by simp [hl])
      rw [hs, Function.update_of_ne hne]
      refine ⟨hk, ?_⟩
      rw [Machine.unmap_decref, Machine.unmap, Mem.findTable_eq, ht]
      dsimp only
      rw [Machine.decref, Machine.mem_onPage]
      exact Mem.write_of_ne_pa (h.frame_ne_table hr ht hp)
    · obtain ⟨t, hfind, ht, hslot⟩ := h.findLeaf_eq hr hn (by simp [hl])
      rw [← protectFlags, Machine.protect, hfind]
      dsimp only
      refine ⟨?_, Mem.write_of_ne_pa (h.frame_ne_table hr ht hp)⟩
      rw [h.slots_write hr hn ht]
      rcases eq_or_ne k (sid, addr / kPageSize) with rfl | hne
      · have hcow : m.mem.isCow root addr =
            decide ((m.mem.slots roots (sid, addr / kPageSize)).Has pteCow) := by
          rw [Bool.eq_iff_iff, h.isCow_eq hr hn, decide_eq_true_eq]
          exact and_iff_right (by simp [hl])
        have hpa : pteToPa (m.mem t (index (addr / kPageSize) 0)) = g.ram.pageToPa p := by
          rw [← hslot]
          rw [Word.target] at hk
          split at hk
          · exact Option.some.inj hk
          · cases hk
        have hlt' := g.ram.pageToPa_lt hlt
        rw [Function.update_self, hpa, hcow, target_protected (g.ram.pageToPa_aligned p) (by omega)
          (isFlags_protectFlags _), if_pos (hkeep rfl).2]
      · rw [Function.update_of_ne hne]
        exact hk

/-- **The loops of `vmm_protect_user`** keep a page that stays a leaf, and the contents of its
frame. -/
theorem protectAll_keeps (h : Ledger m other roots g) (hr : roots sid = some root)
    (addrs : List ℕ) (hnd : addrs.Nodup) (hal : ∀ a ∈ addrs, kPageSize ∣ a)
    (hn : ∀ a ∈ addrs, a / kPageSize < kPageNumbers) {n : ℕ}
    (hk : (m.mem.slots roots (sid, n)).target = some pa) (hkeep : n * kPageSize ∈ addrs → perm ≠ 0 ∧
      (protectFlags vmaPerm (decide ((m.mem.slots roots (sid, n)).Has pteCow))).IsLeaf) :
    ((protectAll root perm vmaPerm addrs m).mem.slots roots (sid, n)).target = some pa ∧
      (protectAll root perm vmaPerm addrs m).mem pa = m.mem pa := by
  induction addrs generalizing m g with
  | nil => exact ⟨hk, rfl⟩
  | cons a addrs ih =>
    obtain ⟨hnot, hrest⟩ := List.nodup_cons.mp hnd
    obtain ⟨⟨i, rfl⟩, hal'⟩ := List.forall_mem_cons.mp hal
    obtain ⟨hna, hn'⟩ := List.forall_mem_cons.mp hn
    have hdiv : kPageSize * i / kPageSize = i := Nat.mul_div_cancel_left i (by decide)
    obtain ⟨⟨g₁, h₁, -⟩, w, hs, -⟩ := h.protectPage_spec hr hna perm vmaPerm rfl
    obtain ⟨hk₁, hmem₁⟩ := h.protectPage_keeps hr perm vmaPerm hna hk
      fun he => hkeep (by
        rw [hdiv] at he
        obtain rfl : n = i := (Prod.ext_iff.mp he).2
        rw [Nat.mul_comm]
        exact List.mem_cons_self ..)
    obtain ⟨hk₂, hmem₂⟩ := ih h₁ hrest hal' hn' hk₁ fun hin => by
      -- the pages are different, so the slot is as it was
      have hne : (sid, n) ≠ (sid, i) := by
        rintro ⟨⟩
        exact hnot (Nat.mul_comm .. ▸ hin)
      rw [hs, hdiv, Function.update_of_ne hne]
      exact hkeep (List.mem_cons_of_mem _ hin)
    exact ⟨hk₂, hmem₂.trans hmem₁⟩

end Ledger

namespace VmState

variable {st st' : VmState} {g : Ghost} {sid addr pa : ℕ} {s : VmSpace} {l : VmLabel}

/-- The call covers the page of `addr`. -/
def Covering (va len addr : ℕ) : Prop :=
  pageAlignDown va ≤ addr ∧ addr < pageAlignDown va + pageAlignUp len

/-- A call of `vmm_protect_user` on address space `sid` that returns 0. -/
def ProtectStep (sid : ℕ) (st : VmState) (l : VmLabel) (st' : VmState) : Prop :=
  VmState.Step st l st' ∧ ∃ s va len perm, st.space sid = some s ∧
    l.call = .protectUser sid va len perm ∧
    (({ st.machine with cpu := l.cpu, luck := l.luck } : Machine).protectUser s va len perm).1 = 0

/-- The call leaves a right on the page of `addr`: to read or to execute it, or to write it where
it is not marked copy-on-write. -/
def KeepsPage (sid addr : ℕ) (st : VmState) (l : VmLabel) : Prop :=
  ∀ va len perm, l.call = .protectUser sid va len perm → Covering va len addr →
    perm.Has vmRead ∨ perm.Has vmExec ∨ (perm.Has vmWrite ∧ st.isCowAt sid addr = false)

theorem covering_page {va len addr : ℕ} :
    Covering va len (addr / kPageSize * kPageSize) ↔ Covering va len addr := by
  obtain ⟨i, hi⟩ := dvd_pageAlignDown va
  obtain ⟨j, hj⟩ := dvd_pageAlignUp len
  simp only [Covering, hi, hj, kPageSize]
  omega

theorem has_or_user {perm : Word} {i : ℕ} (hi : i < 64) (h : perm.Has (bit i)) :
    (perm ||| vmUser).Has (bit i) := by
  rw [Word.has_bit hi] at h ⊢
  rw [BitVec.getLsbD_or, h, Bool.true_or]

/-- What a successful call does to the page of `addr`. -/
structure Protected (sid addr pa : ℕ) (va len : ℕ) (perm : Word) (st st' : VmState) : Prop where
  space : (st'.space sid).isSome
  lookup : st'.lookupAt sid addr = some pa
  contents : st'.machine.mem pa = st.machine.mem pa
  grants : Covering va len addr → Grants (st'.slots (sid, slotNo addr)) (perm ||| vmUser)

theorem Sound.protect_step (h : st.Sound g) (haddr : addr < kVaSpan)
    (hpa : st.lookupAt sid addr = some pa) (hstep : ProtectStep sid st l st')
    (hkeep : st.KeepsPage sid addr l) {va len : ℕ} {perm : Word}
    (hcall : l.call = .protectUser sid va len perm) :
    (∃ g', st'.Sound g') ∧ Protected sid addr pa va len perm st st' := by
  obtain ⟨hstep, s, va', len', perm', hs, hcall', hret⟩ := hstep
  rw [hcall] at hcall'
  cases hcall'
  obtain ⟨g', h', -⟩ := h.step hstep (by rw [hcall]; trivial) (by rw [CountsFit, hcall]; trivial)
  have hcpu := hstep.1.1
  obtain ⟨-, rfl⟩ := hstep
  have hexec : st.exec l = st.put
      (({ st.machine with cpu := l.cpu, luck := l.luck } : Machine).protectUser s va len perm).2.1
      sid (some (({ st.machine with cpu := l.cpu, luck := l.luck } :
        Machine).protectUser s va len perm).2.2) := by
    rw [exec, hcall]
    simp only [run, onSpace, hs]
  obtain ⟨m, hm⟩ : ∃ m : Machine, { st.machine with cpu := l.cpu, luck := l.luck } = m := ⟨_, rfl⟩
  rw [hm] at hret hexec
  have hl : Ledger m st.other st.roots g := by
    rw [← hm]
    exact h.ledger.congr rfl rfl hcpu
  have hslots : m.mem.slots st.roots = st.slots := by rw [← hm]; rfl
  have hmem : m.mem = st.machine.mem := by rw [← hm]
  have hreg := h.regions sid s hs
  obtain ⟨⟨ret, m', s'⟩, hres⟩ : ∃ r, m.protectUser s va len perm = r := ⟨_, rfl⟩
  rw [hres] at hret hexec
  obtain rfl : ret = 0 := hret
  obtain ⟨hroot, hcase⟩ := protectUser_machine hres hreg
  obtain ⟨luck, addrs, rfl, hnd, hin, haddrs⟩ := (hcase.resolve_left fun h => h.1 rfl).2
  dsimp only at hexec
  -- the page of the address, by number
  have hslot : slotNo addr = addr / kPageSize :=
    Nat.mod_eq_of_lt (Nat.div_lt_of_lt_mul (by rw [Nat.mul_comm]; exact haddr))
  have hmemaddr : slotNo addr * kPageSize ∈ addrs ↔ Covering va len addr := by
    rw [hslot, haddrs, ← covering_page]
    exact and_iff_right (Nat.dvd_mul_left ..)
  have hsome : (st.space sid).isSome := by rw [hs]; rfl
  have hpa' : (m.mem.slots st.roots (sid, slotNo addr)).target = some pa := by
    rw [hslots, ← lookupAt_eq h.tabled hsome]
    exact hpa
  have hleaf : slotNo addr * kPageSize ∈ addrs → perm ≠ 0 ∧
      (Ledger.protectFlags (perm ||| vmUser)
        (decide ((m.mem.slots st.roots (sid, slotNo addr)).Has pteCow))).IsLeaf := by
    intro hmemb
    have hright := hkeep va len perm hcall (hmemaddr.mp hmemb)
    refine ⟨?_, Ledger.isLeaf_protectFlags ?_⟩
    · rintro rfl
      simp [Word.Has] at hright
    · rcases hright with hright | hright | ⟨hright, hcow⟩
      · exact .inl (has_or_user (by decide) hright)
      · exact .inr (.inl (has_or_user (by decide) hright))
      · refine .inr (.inr ⟨has_or_user (by decide) hright, ?_⟩)
        rw [decide_eq_false_iff_not, hslots]
        intro hc
        have := (isCowAt_eq h.tabled hsome addr).mpr
          ⟨by rw [← hslots, hpa']; exact Option.some_ne_none _, hc⟩
        rw [hcow] at this
        cases this
  have hl' : Ledger { m with luck := luck } st.other st.roots g := hl.congr rfl rfl hl.cpu_lt
  have hbound : ∀ a ∈ addrs, a / kPageSize < kPageNumbers := by
    intro a ha
    obtain ⟨v, hvm, -, hup⟩ := hin a ha
    have := (hreg.bounds v hvm).2
    exact Nat.div_lt_of_lt_mul (by rw [Nat.mul_comm]; exact lt_of_lt_of_le hup this)
  obtain ⟨hk, hcontents⟩ := hl'.protectAll_keeps (roots_eq hs) addrs hnd
    (fun a ha => ((haddrs a).mp ha).1) hbound hpa' hleaf
  have hrep : Repainted sid addrs (perm ||| vmUser) (m.mem.slots st.roots)
      ((protectAll s.rootPa perm (perm ||| vmUser) addrs { m with luck := luck }).mem.slots
        st.roots) :=
    (hl'.protectAll_spec (roots_eq hs) addrs hnd (fun a ha => ((haddrs a).mp ha).1) hbound).2
  have hslots' : (st.exec l).slots = (protectAll s.rootPa perm (perm ||| vmUser) addrs
      { m with luck := luck }).mem.slots st.roots := by
    rw [hexec, slots, roots_put_some hs _ hroot]
    rfl
  have hsome' : ((st.exec l).space sid).isSome := by
    rw [hexec, space_put hs, if_pos rfl]
    rfl
  refine ⟨⟨g', h'⟩, hsome', ?_, ?_, fun hcov => ?_⟩
  · rw [lookupAt_eq h'.tabled hsome', hslots']
    exact hk
  · rw [hexec, ← hmem]
    exact hcontents
  · rw [hslots']
    exact hrep.grants _ (hmemaddr.mpr hcov) (by rw [hk]; exact Option.some_ne_none _)

theorem Sound.load_of_grants (h : st.Sound g) (hpa : st.lookupAt sid addr = some pa)
    (hsome : (st.space sid).isSome) {perm : Word}
    (hg : Grants (st.slots (sid, slotNo addr)) (perm ||| vmUser)) (hread : perm.Has vmRead) :
    st.load sid addr = some (st.machine.mem pa (addr % kPageSize / 8)) := by
  rw [lookupAt_eq h.tabled hsome] at hpa
  generalize hw : st.slots (sid, slotNo addr) = w at hpa hg
  have htarget : w.target = some (pteToPa w) := by
    rw [Word.target, if_pos (Word.target_ne_none.mp (hpa ▸ Option.some_ne_none _))]
  obtain rfl : pteToPa w = pa := Option.some.inj (htarget.symm.trans hpa)
  have hleaf : st.leafPte sid addr = some w := h.leafPte_eq.mpr ⟨hw, htarget⟩
  have hr : w.Has pteR := by
    rw [pteR, Word.has_bit (by decide), hg.read_eq]
    exact (Word.has_bit (by decide)).mp (has_or_user (by decide) hread)
  have hu : w.Has pteU := by
    rw [pteU, Word.has_bit (by decide), hg.user_eq, BitVec.getLsbD_or]
    rw [vmUser, getLsbD_bit (by decide)]
    simp
  rw [load_eq, hleaf, Option.bind_some, if_pos ⟨hr, hu⟩]

theorem Sound.protect_run {ps : List VmLabel} (h : st.Sound g)
    (hr : Run (ProtectStep sid) st ps st') : ∃ g', st'.Sound g' := by
  refine hr.invariant (P := fun s => ∃ g, s.Sound g) ?_ ⟨g, h⟩
  rintro s l s' ⟨g, h⟩ ⟨hstep, _, va, len, perm, -, hcall, -⟩
  obtain ⟨g', h', -⟩ := h.step hstep (by rw [hcall]; trivial) (by rw [CountsFit, hcall]; trivial)
  exact ⟨g', h'⟩

/-- **A sequence of calls** that leave a right on the page keeps its frame and the contents. -/
theorem Sound.protect_run_keeps {ps : List VmLabel} (h : st.Sound g) (haddr : addr < kVaSpan)
    (hpa : st.lookupAt sid addr = some pa)
    (hr : Run (Guarded (KeepsPage sid addr) (ProtectStep sid)) st ps st') :
    (∃ g', st'.Sound g') ∧ st'.lookupAt sid addr = some pa ∧
      st'.machine.mem pa = st.machine.mem pa := by
  induction hr with
  | nil => exact ⟨⟨g, h⟩, hpa, rfl⟩
  | snoc _ hs ih =>
    obtain ⟨⟨g₁, h₁⟩, hpa₁, hmem₁⟩ := ih
    obtain ⟨hkeep, hstep⟩ := hs
    obtain ⟨-, _, va, len, perm, -, hcall, -⟩ := id hstep
    obtain ⟨hsound, hprot⟩ := h₁.protect_step haddr hpa₁ hstep hkeep hcall
    exact ⟨hsound, hprot.lookup, hprot.contents.trans hmem₁⟩

theorem Sound.lt_of_covering (h : st.Sound g) (hstep : ProtectStep sid st l st') {va len : ℕ}
    {perm : Word} (hcall : l.call = .protectUser sid va len perm) (hcov : Covering va len addr) :
    addr < kVaSpan := by
  obtain ⟨hstep, s, va', len', perm', hs, hcall', hret⟩ := hstep
  rw [hcall] at hcall'
  cases hcall'
  have hreg := h.regions sid s hs
  obtain ⟨⟨ret, m', s'⟩, hres⟩ : ∃ r, ({ st.machine with cpu := l.cpu, luck := l.luck } :
    Machine).protectUser s va len perm = r := ⟨_, rfl⟩
  rw [hres] at hret
  obtain ⟨-, hcase⟩ := protectUser_machine hres hreg
  obtain ⟨-, addrs, -, -, hin, haddrs⟩ := (hcase.resolve_left fun h => h.1 hret).2
  have hmem := (haddrs (addr / kPageSize * kPageSize)).mpr
    ⟨Nat.dvd_mul_left .., (covering_page.mpr hcov)⟩
  obtain ⟨v, hvm, -, hup⟩ := hin _ hmem
  have hle := (hreg.bounds v hvm).2
  -- the end of the region is a page bound
  have hspan : kPageSize ∣ kVaSpan := by decide
  have hlt : addr / kPageSize * kPageSize < kVaSpan := lt_of_lt_of_le hup hle
  obtain ⟨j, hj⟩ := hspan
  rw [hj] at hlt ⊢
  simp only [kPageSize] at *
  omega

end VmState

/-- **Changing permissions keeps the data.** Take any state reached with mappings below `2 ^ 39` and
a page that is present there. After any sequence of successful calls that each leave a right on the
page and of which the last one lets it be read, every load from the page returns what was behind
it. -/
theorem protect_keeps_data {R : Finset ℕ} {st₀ st st' : VmState} {ls ps : List VmLabel} {l : VmLabel}
    {sid addr pa va len : ℕ} {perm : Word} (h₀ : st₀.Booted R)
    (hr : Run (Guarded VmState.Injective VmState.Step) st₀ ls st)
    (hpa : st.lookupAt sid addr = some pa)
    (hps : Run (Guarded (VmState.KeepsPage sid addr) (VmState.ProtectStep sid)) st (ps ++ [l]) st')
    (hcall : l.call = .protectUser sid va len perm) (hcov : VmState.Covering va len addr)
    (hread : perm.Has vmRead) :
    st'.load sid addr = some (st.machine.mem pa (addr % kPageSize / 8)) := by
  obtain ⟨g, h, -⟩ := VmState.sound_of_injective h₀ hr
  obtain ⟨mid, hrun, hkeep, hstep⟩ := hps.last
  obtain ⟨g₁, h₁⟩ := h.protect_run hrun.of_guarded
  have haddr := h₁.lt_of_covering hstep hcall hcov
  obtain ⟨-, hpa₁, hmem₁⟩ := h.protect_run_keeps haddr hpa hrun
  obtain ⟨⟨g', h'⟩, hprot⟩ := h₁.protect_step haddr hpa₁ hstep hkeep hcall
  rw [h'.load_of_grants hprot.lookup hprot.space (hprot.grants hcov) hread, hprot.contents, hmem₁]

/-- On the small machine a process maps two pages and stores 1 in the one and 2 in the other. -/
def dataLabels : List VmLabel :=
  [⟨0, [], .create⟩, ⟨0, [], .mapUser 0 0x200000 0x2000 3⟩,
    ⟨0, [], .pageFault 0 0x200000 .write⟩, ⟨0, [], .pageFault 0 0x201000 .write⟩,
    ⟨0, [], .store 0 0x200000 1⟩, ⟨0, [], .store 0 0x201000 2⟩]

theorem dataLabels_run : Run (Guarded VmState.Injective VmState.Step) smallState dataLabels
    (dataLabels.foldl VmState.exec smallState) := by
  have hle : pageAlignDown 0x200000 + pageAlignUp 0x2000 ≤ kVaSpan := by decide
  have hcpu : 0 < kMaxCpus := by decide
  refine VmState.run_guarded _ _ ?_ ?_
  · simp only [dataLabels, List.forall_mem_cons, List.not_mem_nil, false_implies, implies_true,
      and_true]
    exact ⟨⟨hcpu, rfl⟩, ⟨hcpu, rfl⟩, ⟨hcpu, rfl⟩, ⟨hcpu, rfl⟩, ⟨hcpu, rfl⟩, hcpu, rfl⟩
  · simp only [dataLabels, List.forall_mem_cons, List.not_mem_nil, false_implies, implies_true,
      and_true]
    exact ⟨fun _ => ⟨trivial, trivial⟩, fun _ => ⟨fun _ _ => hle, trivial⟩,
      fun _ => ⟨trivial, trivial⟩, fun _ => ⟨trivial, trivial⟩, fun _ => ⟨trivial, trivial⟩,
      fun _ => ⟨trivial, trivial⟩⟩

/-- A call on the two pages. -/
def protectLabel (perm : Word) : VmLabel := ⟨0, [], .protectUser 0 0x200000 0x2000 perm⟩

theorem protectLabel_step {st : VmState} {perm : Word}
    (h : (st.space 0).map (fun s => (({ st.machine with cpu := 0, luck := [] } :
      Machine).protectUser s 0x200000 0x2000 perm).1) = some 0) :
    VmState.ProtectStep 0 st (protectLabel perm) (st.exec (protectLabel perm)) := by
  obtain ⟨s, hs, hret⟩ := Option.map_eq_some_iff.mp h
  exact ⟨(VmState.permitted_of_isUser (by decide : 0 < kMaxCpus) rfl).step, s, _, _, _, hs, rfl, hret⟩

set_option maxRecDepth 100000 in
/-- The pages are made executable only, and then readable. -/
theorem protect_keeps_data_small :
    ∃ pa, (dataLabels.foldl VmState.exec smallState).lookupAt 0 0x200000 = some pa ∧
      ((dataLabels ++ [protectLabel 4, protectLabel 1]).foldl VmState.exec smallState).load 0
        0x200000 = some ((dataLabels.foldl VmState.exec smallState).machine.mem pa 0) := by
  obtain ⟨pa, hpa⟩ := Option.isSome_iff_exists.mp (by decide +kernel :
    ((dataLabels.foldl VmState.exec smallState).lookupAt 0 0x200000).isSome)
  have hret : (fun st : VmState => ((st.space 0).map fun s =>
        (({ st.machine with cpu := 0, luck := [] } : Machine).protectUser s 0x200000 0x2000 4).1,
      ((st.exec (protectLabel 4)).space 0).map fun s =>
        (({ (st.exec (protectLabel 4)).machine with cpu := 0, luck := [] } :
          Machine).protectUser s 0x200000 0x2000 1).1))
      (dataLabels.foldl VmState.exec smallState) = (some 0, some 0) := by decide +kernel
  refine ⟨pa, hpa, ?_⟩
  rw [List.foldl_append]
  have hrun := dataLabels_run
  generalize dataLabels.foldl VmState.exec smallState = st at hpa hret hrun ⊢
  obtain ⟨hret₁, hret₂⟩ := Prod.ext_iff.mp hret
  have hkeep {st' : VmState} {perm : Word} (hright : perm.Has vmRead ∨ perm.Has vmExec) :
      st'.KeepsPage 0 0x200000 (protectLabel perm) := by
    rintro va len perm ⟨⟩ -
    rcases hright with h | h
    · exact .inl h
    · exact .inr (.inl h)
  exact protect_keeps_data smallState_booted hrun hpa
    (((Run.nil st).snoc ⟨hkeep (.inr (by decide)), protectLabel_step hret₁⟩).snoc
      ⟨hkeep (.inl (by decide)), protectLabel_step hret₂⟩) rfl ⟨by decide, by decide⟩ (by decide)

set_option maxRecDepth 100000 in
/-- **Data is lost**: after one call with permission 0 and one that lets the pages be read again, the
fault of the next load maps another frame, and the load of the first page returns what was stored
in the second. -/
theorem protect_none_loses_data : smallState.Booted (smallBoot []).reservedPages ∧
    Run VmState.Step smallState dataLabels (dataLabels.foldl VmState.exec smallState) ∧
    (dataLabels.foldl VmState.exec smallState).load 0 0x200000 = some 1 ∧
    Run (VmState.ProtectStep 0) (dataLabels.foldl VmState.exec smallState)
      [protectLabel 0, protectLabel 1] ([protectLabel 0, protectLabel 1].foldl VmState.exec
        (dataLabels.foldl VmState.exec smallState)) ∧
    (([protectLabel 0, protectLabel 1, ⟨0, [], .pageFault 0 0x200000 .read⟩] : List VmLabel).foldl
      VmState.exec (dataLabels.foldl VmState.exec smallState)).load 0 0x200000 = some 2 := by
  have hret : (fun st : VmState => ((st.space 0).map fun s =>
        (({ st.machine with cpu := 0, luck := [] } : Machine).protectUser s 0x200000 0x2000 0).1,
      ((st.exec (protectLabel 0)).space 0).map fun s =>
        (({ (st.exec (protectLabel 0)).machine with cpu := 0, luck := [] } :
          Machine).protectUser s 0x200000 0x2000 1).1,
      st.load 0 0x200000,
      (([protectLabel 0, protectLabel 1, ⟨0, [], .pageFault 0 0x200000 .read⟩] :
        List VmLabel).foldl VmState.exec st).load 0 0x200000))
      (dataLabels.foldl VmState.exec smallState) = (some 0, some 0, some 1, some 2) := by
    decide +kernel
  have hrun := dataLabels_run.of_guarded
  generalize dataLabels.foldl VmState.exec smallState = st at hret hrun ⊢
  simp only [Prod.mk.injEq] at hret
  obtain ⟨hret₁, hret₂, hbefore, hafter⟩ := hret
  exact ⟨smallState_booted, hrun, hbefore,
    ((Run.nil st).snoc (protectLabel_step hret₁)).snoc (protectLabel_step hret₂), hafter⟩

end Lume
