import Lume.Vm.Isolation

/-!
# Exact reference counts

The reference count of a data frame is meant to be the number of leaf entries that map it, over
all live address spaces, and the frame is meant to be back in the allocator exactly when that
number is zero, whichever allocations fail.

A frame can be lost in three ways. `vmm_clone` that fails in `pmap::map` on the second or a later
page of a region destroys the child before that region is linked to it, so the pages of the
region that the child had mapped keep their extra reference. And `vmm_clone` and
`vmm_protect_user` overwrite the entry of a page with one that is no leaf when the permission has
neither the read nor the execute bit (and, for `vmm_protect_user`, no write bit either, or the page is
marked copy-on-write): the entry is gone, and the reference it stood for is not.

## Main definitions

* `VmState.leafCount`: the number of leaf entries that map a frame
* `VmState.CountsExact`: the property

## Main results

* `refcounts_exact`: the property in every run without such losses
* `failed_clone_leaks`: what goes wrong otherwise
-/

namespace Lume

namespace VmState

/-- The number of leaf entries that map page `p`, over all live address spaces. -/
def leafCount (st : VmState) (p : ℕ) : ℕ :=
  ((Finset.range st.spaces.length ×ˢ Finset.range kPageNumbers).filter fun k =>
    st.mapped k.1 k.2 = some (st.machine.pmm.ram.pageToPa p)).card

/-- Page `p` is in the allocator, in a free block or in the cache of a CPU. -/
def InPmm (st : VmState) (p : ℕ) : Prop :=
  (∃ b : Block, b.start ∈ st.machine.pmm.freeAreas b.order ∧ p ∈ b) ∨
    ∃ cpu, p ∈ (st.machine.pmm.pcp cpu).freeList

/-- Page `p` is a page table of a live address space. -/
def IsTable (st : VmState) (p : ℕ) : Prop :=
  ∃ sid s path, st.space sid = some s ∧ path.length ≤ 2 ∧
    st.machine.mem.tableAt s.rootPa path = some (st.machine.pmm.ram.pageToPa p)

/-- **Exact reference counts**; the pages in `R` were reserved at boot. -/
structure CountsExact (R : Finset ℕ) (st : VmState) : Prop where
  /-- the count of a data frame is the number of leaf entries that map it -/
  count : ∀ p, st.leafCount p ≠ 0 → (st.machine.pmm.pageMap p).refcount = st.leafCount p
  /-- a page that could be a data frame is in the allocator exactly when no leaf entry maps it -/
  home : ∀ p < st.machine.pmm.numPages, p ∉ R → (∀ b ∈ st.other, p ∉ b) → ¬ st.IsTable p →
    (st.InPmm p ↔ st.leafCount p = 0)
  /-- a clone that fails, without a loss, leaves the count of every data frame as it was -/
  clone_failed : ∀ {l : VmLabel} {sid : ℕ} {s : VmSpace} {st' : VmState}, l.call = .clone sid →
    st.space sid = some s →
    (({ st.machine with cpu := l.cpu, luck := l.luck } : Machine).clone s).1 = none →
    VmState.Step st l st' → st.Lossless l → ∀ p, st.leafCount p ≠ 0 →
      (st'.machine.pmm.pageMap p).refcount = (st.machine.pmm.pageMap p).refcount

section Counts

variable {st st' : VmState} {g g' : Ghost} {p : ℕ} {R : Finset ℕ}

section

variable (h : st.Sound g)
include h

theorem Sound.frame_of_mapped {sid n : ℕ} (hn : n < kPageNumbers)
    (hmap : st.mapped sid n = some (st.machine.pmm.ram.pageToPa p)) :
    g.ram.frameOf (st.slots (sid, n)) = some p := by
  rw [← h.target_eq hn] at hmap
  obtain ⟨q, -, hq, hf, -⟩ := h.ledger.frame_of_target hmap
  rw [h.ledger.ram_eq] at hq
  rw [g.ram.pageToPa_injective hq]
  exact hf

theorem Sound.leafCount_eq (p : ℕ) : st.leafCount p =
    fiber (slotKeys g.bound) (fun k => g.ram.frameOf (st.slots k)) p := by
  rw [leafCount, fiber]
  congr 1
  ext ⟨sid, n⟩
  simp only [Finset.mem_filter, Finset.mem_product, Finset.mem_range, slotKeys]
  constructor
  · rintro ⟨⟨-, hn⟩, hmap⟩
    have hf := h.frame_of_mapped hn hmap
    obtain ⟨s, hs⟩ := Sound.space_of_target (h.ledger.target_of_frame hf ▸ Option.some_ne_none _)
    exact ⟨⟨h.ledger.root_lt sid _ (roots_eq hs), hn⟩, hf⟩
  · rintro ⟨⟨-, hn⟩, hf⟩
    have ht := h.ledger.target_of_frame hf
    obtain ⟨s, hs⟩ := Sound.space_of_target (ht ▸ Option.some_ne_none _)
    have hlt : sid < st.spaces.length := by
      by_contra hge
      simp [space, List.getElem?_eq_none (not_lt.mp hge)] at hs
    refine ⟨⟨hlt, hn⟩, ?_⟩
    rw [← h.target_eq hn, h.ledger.ram_eq]
    exact ht

theorem Sound.leafCount_le (p : ℕ) : st.leafCount p ≤ st.spaces.length := by
  have hle : st.leafCount p ≤ (Finset.range st.spaces.length).card := by
    refine Finset.card_le_card_of_injOn Prod.fst (fun k hk => ?_) fun k hk k' hk' he => ?_
    · exact (Finset.mem_product.mp (Finset.mem_filter.mp hk).1).1
    · obtain ⟨hk, hmap⟩ := Finset.mem_filter.mp hk
      obtain ⟨hk', hmap'⟩ := Finset.mem_filter.mp hk'
      have hn := Finset.mem_range.mp (Finset.mem_product.mp hk).2
      have hn' := Finset.mem_range.mp (Finset.mem_product.mp hk').2
      exact Prod.ext he (h.ledger.same_page k k' p (h.frame_of_mapped hn hmap)
        (h.frame_of_mapped hn' hmap'))
  rwa [Finset.card_range] at hle

theorem Sound.own_of_leafCount (hp : st.leafCount p ≠ 0) : g.own p = .frame := by
  rw [h.leafCount_eq, Nat.ne_zero_iff_zero_lt, fiber_pos_iff] at hp
  obtain ⟨k, -, hk⟩ := hp
  exact h.ledger.refs.alive k p hk

theorem Sound.refcount_eq (hdebt : g.debt p = 0) (hp : g.own p = .frame) :
    (st.machine.pmm.pageMap p).refcount = st.leafCount p := by
  have hleak : g.leak p = 0 := by simpa [Ghost.debt, hp] using hdebt
  have := h.ledger.refs.count p hp
  rw [hleak, Nat.add_zero] at this
  rw [h.leafCount_eq]
  exact this

theorem Sound.not_inPmm (hown : g.own p = .frame) : ¬ st.InPmm p := by
  have hacc := h.ledger.pmm.accounted
  have hlt : p < st.machine.pmm.numPages := by
    have := h.ledger.own_lt (by rw [hown]; simp)
    rwa [← h.ledger.ram_eq] at this
  let x : Pmm.Client := ⟨st.machine.pmm, g.mine ++ st.other⟩
  -- it is held, so it is nowhere else
  have hlive : x.At g.reserved p (.live ⟨p, 0⟩) :=
    ⟨h.ledger.mem_held (by simp [hown]), Block.start_mem _⟩
  rintro (⟨b, hb⟩ | ⟨cpu, hcpu⟩)
  · have hfree : x.At g.reserved p (.free b) := hb
    cases hfree.unique hacc hlt hlive
  · have hcached : x.At g.reserved p (.cached cpu) := hcpu
    cases hcached.unique hacc hlt hlive

/-- A page that is neither reserved nor held by the rest of the kernel nor a table is a data
frame or in the allocator, and not both. -/
theorem Sound.inPmm_iff (hlt : p < st.machine.pmm.numPages)
    (hR : p ∉ g.reserved) (hother : ∀ b ∈ st.other, p ∉ b) (htab : ¬ st.IsTable p) :
    st.InPmm p ↔ g.own p ≠ .frame := by
  have hacc := h.ledger.pmm.accounted
  let x : Pmm.Client := ⟨st.machine.pmm, g.mine ++ st.other⟩
  refine ⟨fun hin hown => h.not_inPmm hown hin, ?_⟩
  · intro hown
    obtain ⟨pl, hat⟩ := Pmm.Client.exists_at (x := x) hacc hlt
    cases pl with
    | free b => exact .inl ⟨b, hat⟩
    | cached cpu => exact .inr ⟨cpu, hat⟩
    | reserved => exact absurd hat hR
    | live b =>
      obtain ⟨hb, hpb⟩ := hat
      rcases List.mem_append.mp hb with hb | hb
      · -- a block held here is one page, a frame or a table
        obtain ⟨horder, hne⟩ := (h.ledger.mem_mine b).mp hb
        have hp : b.start = p := by
          rw [show b = ⟨b.start, 0⟩ by rw [← horder], Block.mem_order_zero] at hpb
          exact hpb.symm
        rw [hp] at hne
        cases ho : g.own p with
        | nobody => exact absurd ho hne
        | frame => exact absurd ho hown
        | table sid path =>
          refine absurd ?_ htab
          have hlive := (h.ledger.tabled p sid path ho).resolve_right (by simp [h.dying])
          obtain ⟨s, hs, -⟩ := Option.map_eq_some_iff.mp (Option.eq_some_of_isSome hlive)
          obtain ⟨hlen, -, hat⟩ := (h.ledger.tree sid s.rootPa (roots_eq hs)).reached p path ho
          exact ⟨sid, s, path, hs, hlen, by rw [h.ledger.ram_eq]; exact hat⟩
      · exact absurd hpb (hother b hb)

theorem Sound.leafCount_clone_failed (hdebt : ∀ p, g.debt p = 0) {l : VmLabel}
    {sid : ℕ} {s : VmSpace} (hcall : l.call = .clone sid) (hs : st.space sid = some s)
    (hnone : (({ st.machine with cpu := l.cpu, luck := l.luck } : Machine).clone s).1 = none)
    (hstep : VmState.Step st l st') (hclean : st.Lossless l) (h' : st'.Sound g')
    (hkin : g.Kin g') (p : ℕ) : st'.leafCount p = st.leafCount p := by
  obtain ⟨hok, rfl⟩ := hstep
  obtain ⟨m, hm⟩ : ∃ m : Machine, { st.machine with cpu := l.cpu, luck := l.luck } = m := ⟨_, rfl⟩
  have hl : Ledger m st.other st.roots g :=
    h.ledger.congr (by rw [← hm]) (by rw [← hm]) (by rw [← hm]; exact hok.1)
  rw [hm] at hnone
  have hexec : st.exec l = st.push (none, (m.clone s).2) := by
    rw [exec, hm, hcall]
    simp only [run, onSpace, hs]
    rw [← hnone]
  have hslots : ∀ k, ((st.exec l).slots k).target = (st.slots k).target := by
    intro k
    obtain ⟨-, hc⟩ := h.clone_slots hs hl hcall hm.symm (h.countsFit hdebt l)
      (Prod.ext hnone rfl : m.clone s = (none, (m.clone s).2))
    rw [← hexec] at hc
    by_cases hk : k.1 = st.spaces.length
    · have hr : st.roots k.1 = none := hk ▸ st.roots_length
      have hr' : (st.exec l).roots k.1 = none := by
        rw [hexec, roots_push, hk, Function.update_self]
        rfl
      simp [slots, Mem.slots, hr, hr']
    · exact hc.kept hclean k hk
  have hlen : (st.exec l).spaces.length = st.spaces.length := by
    rw [hexec]
    simp [push]
  rw [leafCount, leafCount, hlen]
  congr 1
  refine Finset.filter_congr fun k hk => ?_
  have hn : k.2 < kPageNumbers := Finset.mem_range.mp (Finset.mem_product.mp hk).2
  rw [← h'.target_eq hn, ← h.target_eq hn, hslots, h'.ledger.ram_eq, h.ledger.ram_eq, hkin.ram_eq]

end

end Counts

end VmState

/-- The calls of the small machine: a process maps two pages on either side of a `2 MiB` boundary,
whose slots lie in different tables, and writes to both. -/
def straddleLabels : List VmLabel :=
  [⟨0, [], .create⟩, ⟨0, [], .mapUser 0 0x1ff000 0x2000 3⟩,
    ⟨0, [], .pageFault 0 0x1ff000 .write⟩, ⟨0, [], .pageFault 0 0x200000 .write⟩]

theorem straddleLabels_ok : ∀ l ∈ straddleLabels, (l.cpu < kMaxCpus ∧ l.call.isUser = true) ∧
    ∀ st, VmState.LosslessGuard st l := by
  have hle : pageAlignDown 0x1ff000 + pageAlignUp 0x2000 ≤ kVaSpan := by decide
  intro l hl
  rcases List.mem_cons.mp hl with rfl | hl
  · exact ⟨by decide, fun _ => ⟨trivial, trivial⟩⟩
  rcases List.mem_cons.mp hl with rfl | hl
  · exact ⟨by decide, fun _ => ⟨fun _ _ => hle, trivial⟩⟩
  rcases List.mem_cons.mp hl with rfl | hl
  · exact ⟨by decide, fun _ => ⟨trivial, trivial⟩⟩
  · cases List.mem_singleton.mp hl
    exact ⟨by decide, fun _ => ⟨trivial, trivial⟩⟩

end Lume
