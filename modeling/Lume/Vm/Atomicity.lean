import Lume.Vm.Syscalls

/-!
# Failed unmapping and replacement

A call that reports an error should have done nothing. `vmm_unmap_user` releases the pages of a
region before it allocates the node for the part that stays behind the range: when this allocation
fails, the pages are gone and the region is still there. `sys_mmap` with `MAP_FIXED` unmaps first
and maps afterwards, and does not undo the first when the second fails. Moreover the address that
it returns is negative from `2 ^ 63` on.

## Main definitions

* `Machine.Unchanged`: the call did nothing
* `Machine.FailsClean`: the condition for `MAP_FIXED`

## Main results

* `failed_calls_unchanged`: when a call that returns a negative value did nothing
* `failed_unmap_drops_page`: what goes wrong otherwise
-/

namespace Lume

/-- The regions, the mapped pages, the contents of memory and the reference counts are as
before. -/
structure Machine.Unchanged (m m' : Machine) (s s' : VmSpace) : Prop where
  vmas : s'.vmas = s.vmas
  lookup : ∀ va, m'.mem.lookup s'.rootPa va = m.mem.lookup s.rootPa va
  contents : ∀ pa, m'.mem pa = m.mem pa
  refcount : ∀ p, (m'.pmm.pageMap p).refcount = (m.pmm.pageMap p).refcount

/-- No page of the range is mapped. -/
def Machine.Unmapped (m : Machine) (root va len : ℕ) : Prop :=
  ∀ a, va ≤ a → a < va + len → m.mem.lookup root a = none

/-- The condition for replacing a range: unless the range is refused, the next allocation fails,
and the range meets no region, or lies inside one without any mapped page. -/
def Machine.FailsClean (m : Machine) (s : VmSpace) (va len : ℕ) : Prop :=
  len ≠ 0 → UserRange va len → m.draw.1 = false ∧
    ((∀ v ∈ s.vmas, v.stop ≤ va ∨ va + len ≤ v.start) ∨
      (∃ v ∈ s.vmas, v.start < va ∧ va + len < v.stop) ∧ m.Unmapped s.rootPa va len)

theorem Machine.Unchanged.of_luck (m : Machine) (luck : List Bool) (s : VmSpace) :
    m.Unchanged { m with luck := luck } s s :=
  ⟨rfl, fun _ => rfl, fun _ => rfl, fun _ => rfl⟩

namespace Ledger

variable {m m' : Machine} {other : List Block} {roots : Roots} {g : Ghost} {sid root va len : ℕ}

theorem unmapped_dropPages (h : Ledger m other roots g) (hr : roots sid = some root)
    (hva : kPageSize ∣ va) (hlen : kPageSize ∣ len) :
    (m.dropPages root va (va + len)).Unmapped root va len := by
  intro a hlo hup
  obtain ⟨⟨g', h', -⟩, hc, -⟩ := h.dropPages_spec hr (pageAddrs va (va + len))
  have hpage : a / kPageSize * kPageSize ∈ pageAddrs va (va + len) := by
    rw [mem_pageAddrs hva (Nat.dvd_add hva hlen)]
    obtain ⟨i, rfl⟩ := hva
    obtain ⟨j, rfl⟩ := hlen
    refine ⟨Nat.dvd_mul_left .., ?_, ?_⟩ <;> simp only [kPageSize] at * <;> omega
  have hslot : slotNo (a / kPageSize * kPageSize) = slotNo a := by
    rw [slotNo, slotNo, Nat.mul_div_cancel _ (by decide)]
  have hgone := hc.gone (slotNo a) (List.mem_map.mpr ⟨_, hpage, hslot⟩)
  rw [← h'.lookup_slot hr] at hgone
  exact hgone

theorem unchanged_dropPages (h : Ledger m other roots g) {s : VmSpace}
    (hr : roots sid = some s.rootPa) (hva : kPageSize ∣ va) (hlen : kPageSize ∣ len) {ok : Bool}
    (hd : (m.dropPages s.rootPa va (va + len)).draw = (ok, m')) :
    m.Unchanged m' s s ↔ m.Unmapped s.rootPa va len := by
  obtain ⟨luck, rfl⟩ := draw_eq hd
  constructor
  · intro hsame a hlo hup
    rw [← hsame.lookup a]
    exact h.unmapped_dropPages hr hva hlen a hlo hup
  · intro hnone
    have hid : m.dropPages s.rootPa va (va + len) = m := by
      refine dropPages_of_unmapped fun a ha => ?_
      obtain ⟨-, hlo, hup⟩ := (mem_pageAddrs hva (Nat.dvd_add hva hlen)).mp ha
      exact hnone a hlo hup
    rw [hid]
    exact .of_luck m luck s

end Ledger

theorem mmapAt_fixed {m m₁ m' : Machine} {s s₁ s' : VmSpace} {va addr length : ℕ}
    {perm flags : Word} {ret ret₁ : Int} (hfix : flags.Has mapFixed)
    (hmap : m.mapUser s va length perm = (ret₁, m₁, s₁))
    (hr : m.mmapAt s va addr length perm flags = (ret, m', s')) :
    m' = m₁ ∧ s' = s₁ ∧ ret = if ret₁ < 0 then ret₁ else int64 va := by
  rw [Machine.mmapAt, hmap] at hr
  dsimp only at hr
  rw [if_neg fun hno => hno.2.1 hfix] at hr
  split at hr <;> cases hr
  · rename_i hneg
    exact ⟨rfl, rfl, (if_pos hneg).symm⟩
  · rename_i hneg
    exact ⟨rfl, rfl, (if_neg hneg).symm⟩

namespace VmState

variable {st : VmState} {g : Ghost} {sid : ℕ} {s s' : VmSpace} {m m' : Machine} {ret : Int}

section

variable (h : st.Sound g) (hs : st.space sid = some s)
include h hs

/-- **A failed `vmm_unmap_user`** did nothing exactly when no page of its range was mapped. -/
theorem Sound.unmapUser_unchanged
    (hl : Ledger m st.other st.roots g) {va len : ℕ} (hr : m.unmapUser s va len = (ret, m', s'))
    (hret : ret < 0) : m.Unchanged m' s s' ↔ (UserRange (pageAlignDown va) (pageAlignUp len) →
        m.Unmapped s.rootPa (pageAlignDown va) (pageAlignUp len)) := by
  have hreg := h.regions sid s hs
  rcases unmapUser_ret hreg.sorted hr with rfl | ⟨-, rfl, ⟨hno, rfl⟩ | ⟨hrange, hlen, hin, hd⟩⟩
  · exact absurd hret (lt_irrefl 0)
  · exact iff_of_true (.of_luck _ _ _) fun hrange => absurd hrange hno
  · rw [hl.unchanged_dropPages (roots_eq hs) (dvd_pageAlignDown va) (dvd_pageAlignUp len) hd]
    exact ⟨fun hnone _ => hnone, fun hnone => hnone hrange⟩

theorem Sound.replace_unchanged {va len : ℕ}
    {perm : Word} (hva : kPageSize ∣ va) (hlen : pageAlignUp len = len) {ret₁ ret₂ : Int} {m₁ : Machine} {s₁ : VmSpace}
    (hunmap : m.unmapUser s va len = (ret₁, m₁, s₁)) (hret₁ : ¬ ret₁ < 0)
    (hmap : m₁.mapUser s₁ va len perm = (ret₂, m', s')) (hneg : ret₂ < 0 ∨ 2 ^ 63 ≤ va) :
    m.Unchanged m' s s' ↔ m.FailsClean s va len := by
  have hreg := h.regions sid s hs
  have hreg' : RegionInv kUserVaLimit s.vmas := h.tabled.2 sid s hs
  have hdown := pageAlignDown_of_dvd hva
  obtain ⟨luck, hluck⟩ := mapUser_machine hmap
  have hret₁ : ret₁ = 0 := by
    rcases unmapUser_ret hreg.sorted hunmap with h₀ | ⟨herr, -⟩
    · exact h₀
    · exact absurd herr.2 hret₁
  subst hret₁
  by_cases hvalid : len ≠ 0 ∧ UserRange va len
  swap
  · -- a range that is refused, or empty
    have hsame : m₁ = m ∧ s₁ = s := by
      refine unmapUser_of_apart (fun hne hrange => absurd ?_ hvalid) hunmap
      rw [hlen] at hne hrange
      rw [hdown] at hrange
      exact ⟨hne, hrange⟩
    rw [hsame.1, hsame.2] at hmap
    have hs' : s' = s := by
      rcases mapUser_cases hmap with ⟨he, -⟩ | ⟨-, hne, hrange, -⟩
      · exact he
      · rw [hlen] at hne hrange
        rw [hdown] at hrange
        exact absurd ⟨hne, hrange⟩ hvalid
    rw [hs', hluck, hsame.1]
    exact iff_of_true (.of_luck ..) fun hne hrange => absurd ⟨hne, hrange⟩ hvalid
  obtain ⟨hne, hrange⟩ := hvalid
  by_cases hap : ∀ v ∈ s.vmas, v.stop ≤ va ∨ va + len ≤ v.start
  · -- nothing to replace: the mapping fails with its allocation
    have hsame : m₁ = m ∧ s₁ = s :=
      unmapUser_of_apart (by rw [hdown, hlen]; exact fun _ _ => hap) hunmap
    rw [hsame.1, hsame.2] at hmap
    rw [hsame.1] at hluck
    have hdraw := mapUser_of_apart (by rwa [hlen]) (by rwa [hdown, hlen]) (by rwa [hdown, hlen]) hmap
    by_cases hret₂ : ret₂ = 0
    · refine iff_of_false (fun hsame => ?_) fun hclean => ?_
      · -- the first address of the range has become valid
        subst hret₂
        have hnew := hreg'.refinesPerms.map hva hmap (by rwa [hlen]) va
        rw [if_pos ⟨le_rfl, by rw [hlen]; omega⟩, VmSpace.permAt, hsame.vmas] at hnew
        have hold : Segs.get s.vmas va = none := by
          refine Segs.get_eq_none_iff.mpr fun v hv hin => ?_
          have := hap v hv
          have := hin.1
          have := hin.2
          omega
        rw [hold] at hnew
        cases hnew
      · have := (hclean hne hrange).1
        rw [hdraw.mp hret₂] at this
        cases this
    · have hs' : s' = s := by
        rcases mapUser_ret hmap with h₀ | ⟨-, he, -⟩
        · exact absurd h₀ hret₂
        · exact he
      rw [hs', hluck]
      refine iff_of_true (.of_luck ..) fun _ _ => ⟨?_, .inl hap⟩
      rw [← Bool.not_eq_true]
      exact fun hd => hret₂ (hdraw.mpr hd)
  · -- a region of the range has been cut
    push Not at hap
    obtain ⟨u, hu, hlo, hup⟩ := hap
    have hune := hreg.sorted.nonempty u hu
    have hstop := (hreg.bounds u hu).2
    have hx : max u.start va ∈ u := ⟨by omega, by omega⟩
    have hgone := hreg'.refinesPerms.unmap hva hunmap (max u.start va)
    rw [if_pos ⟨by omega, by rw [hlen]; omega⟩] at hgone
    refine iff_of_false (fun hsame => ?_) fun hclean => ?_
    · have hs' : s' = s₁ := by
        rcases mapUser_ret hmap with rfl | ⟨-, he, -⟩
        · have hbig := hneg.resolve_left (lt_irrefl 0)
          have hspan : kVaSpan < 2 ^ 63 := by decide
          omega
        · exact he
      subst hs'
      rw [VmSpace.permAt, hsame.vmas] at hgone
      exact Segs.get_eq_none_iff.mp hgone u hu hx
    · obtain ⟨hdraw, hcase⟩ := hclean hne hrange
      rcases hcase with hap | ⟨⟨v, hv, hvlo, hvup⟩, -⟩
      · have := hap u hu
        omega
      · have := (unmapUser_inside hreg.sorted (by rwa [hlen]) (by rwa [hdown, hlen]) hv
          (by rwa [hdown]) (by rwa [hdown, hlen]) hunmap).mp rfl
        rw [hdraw] at this
        cases this

/-- **A failed replacement** did nothing exactly when it was refused, or failed clean. -/
theorem Sound.mmapFixed_unchanged
    (hl : Ledger m st.other st.roots g) {addr length offset : ℕ} {prot flags : Word}
    (hfix : flags.Has mapFixed)
    (hr : m.sysMmap s addr length prot flags offset = (ret, m', s')) (hret : ret < 0) :
    m.Unchanged m' s s' ↔ Machine.mmapRefused addr length flags offset ≠ none ∨
      m.FailsClean s addr (pageAlignUp length) := by
  have hreg := h.regions sid s hs
  have hlen := pageAlignUp_pageAlignUp length
  rw [Machine.sysMmap] at hr
  cases hrefused : Machine.mmapRefused addr length flags offset with
  | some err =>
    rw [hrefused] at hr
    cases hr
    exact iff_of_true (.of_luck ..) (.inl (Option.some_ne_none _))
  | none =>
  rw [hrefused] at hr
  have haddr : kPageSize ∣ addr := (mmapRefused_eq_none.mp hrefused).2.2.2.2.2 hfix
  dsimp only at hr
  simp only [if_pos hfix] at hr
  rw [or_iff_right (not_not.mpr rfl)]
  generalize pageAlignUp length = len at hr hlen ⊢
  obtain ⟨va, hva⟩ : ∃ va, (if addr = 0 then mmFindFreeVa s len kPageSize else addr) = va :=
    ⟨_, rfl⟩
  rw [hva] at hr
  split at hr
  · -- no room
    rename_i hzero
    cases hr
    have haddr₀ : addr = 0 := by
      by_contra hno
      rw [if_neg hno] at hva
      omega
    subst haddr₀
    exact iff_of_true (.of_luck ..) fun _ hrange => absurd hrange.1 (by decide)
  rename_i hne
  cases hunmap : m.unmapUser s va len with
  | mk ret₁ r =>
  obtain ⟨m₁, s₁⟩ := r
  rw [hunmap] at hr
  dsimp only at hr
  by_cases haddr₀ : addr = 0
  · -- a free range was searched for
    subst haddr₀
    rw [if_pos rfl] at hva
    have hle : kVaSpan ≤ kUserVaLimit := by decide
    obtain ⟨hdvd, hbound, hfree⟩ := mmFindFreeVa_spec hreg hle hva hne
    have hsmall : va < 2 ^ 63 := by
      have : max kUserVaBase kVaSpan < 2 ^ 63 := by decide
      omega
    have hdown := pageAlignDown_of_dvd hdvd
    rw [hlen] at hfree
    have hsame : m₁ = m ∧ s₁ = s :=
      unmapUser_of_apart (by rw [hdown, hlen]; exact fun _ => hfree) hunmap
    rw [hsame.1, hsame.2] at hr
    refine iff_of_true ?_ fun _ hrange => absurd hrange.1 (by decide)
    split at hr
    · cases hr
      exact .of_luck ..
    · cases hmap : m.mapUser s va len (protToPerm prot ||| vmUser) with
      | mk ret₂ r =>
      obtain ⟨m₂, s₂⟩ := r
      obtain ⟨rfl, rfl, hret₂⟩ := mmapAt_fixed hfix hmap hr
      rcases mapUser_ret hmap with rfl | ⟨-, rfl, luck, rfl⟩
      · rw [if_neg (lt_irrefl 0), int64, if_pos hsmall] at hret₂
        omega
      · exact .of_luck ..
  · rw [if_neg haddr₀] at hva
    subst hva
    split at hr
    · -- the unmapping failed
      rename_i hret₁
      cases hr
      rw [h.unmapUser_unchanged hs hl hunmap hret₁, pageAlignDown_of_dvd haddr, hlen]
      rcases unmapUser_ret hreg.sorted hunmap with rfl | ⟨-, -, ⟨hno, -⟩ | ⟨hrange, hne', hin, hd⟩⟩
      · exact absurd hret₁ (lt_irrefl 0)
      · rw [pageAlignDown_of_dvd haddr, hlen] at hno
        exact iff_of_true (fun hrange => absurd hrange hno) fun _ hrange => absurd hrange hno
      · rw [pageAlignDown_of_dvd haddr, hlen] at hrange hin hd
        rw [hlen] at hne'
        have hdraw : m.draw.1 = false := by
          rw [← draw_dropPages m s.rootPa addr (addr + len), hd]
        constructor
        · exact fun hnone _ _ => ⟨hdraw, .inr ⟨hin, hnone hrange⟩⟩
        · intro hclean _
          rcases (hclean hne' hrange).2 with hap | ⟨-, hnone⟩
          · obtain ⟨v, hv, hlo, hup⟩ := hin
            have := hap v hv
            omega
          · exact hnone
    · rename_i hret₁
      cases hmap : m₁.mapUser s₁ addr len (protToPerm prot ||| vmUser) with
      | mk ret₂ r =>
      obtain ⟨m₂, s₂⟩ := r
      obtain ⟨rfl, rfl, hret₂⟩ := mmapAt_fixed hfix hmap hr
      refine h.replace_unchanged hs haddr hlen hunmap hret₁ hmap ?_
      by_cases hneg : ret₂ < 0
      · exact .inl hneg
      · rw [if_neg hneg, int64] at hret₂
        split at hret₂
        · omega
        · exact .inr (by omega)

end

end VmState

/-- The calls of the small machine: a process maps three pages. -/
def threePages : List VmLabel :=
  [⟨0, [], .create⟩, ⟨0, [], .mapUser 0 0x200000 0x3000 3⟩]

theorem threePages_run : Run (Guarded VmState.Injective VmState.Step) smallState threePages
    (threePages.foldl VmState.exec smallState) := by
  have hle : pageAlignDown 0x200000 + pageAlignUp 0x3000 ≤ kVaSpan := by decide
  refine VmState.run_guarded _ _ (by decide) fun l hl st => ?_
  rcases List.mem_cons.mp hl with rfl | hl
  · exact ⟨trivial, trivial⟩
  · cases List.mem_singleton.mp hl
    exact ⟨fun _ _ => hle, trivial⟩

theorem lookup_of_root_zero {mem : Mem} {root va : ℕ} (hroot : mem root (vpn va 2) = 0) :
    mem.lookup root va = none := by
  have hvalid : ¬ (mem root (vpn va 2)).IsValid := by
    rw [hroot]
    decide
  rw [Mem.lookup, Mem.findLeaf, if_neg hvalid, Option.map_none]

/-- The calls of the small machine: a process maps three pages and writes to the second one. -/
def threePagesUsed : List VmLabel := threePages ++ [⟨0, [], .pageFault 0 0x201000 .write⟩]

end Lume
