import Lume.Vm.Atomicity

/-!
# What a successful memory system call has done

A process takes the result of `sys_mmap`, `sys_munmap` and `sys_mprotect` as a statement about the
whole range it asked for, over the integers. The length is rounded up in 64-bit arithmetic: a
length within a page of `2 ^ 64` becomes 0, for which `vmm_map_user` and `vmm_unmap_user` report
success without doing anything. And `sys_mmap` takes the address 0 as no address at all, with
`MAP_FIXED` as well.

## Main definitions

* `InPages va length a`: the page of `a` meets the range
* `Machine.MapsExactly`: a range was mapped, and nothing else changed
* `Machine.NothingIn`: nothing in a range is covered or mapped

## Main results

* `successful_calls_report`: when the results are true
* `wrapped_length_reports_success`: what goes wrong otherwise
-/

namespace Lume

open Segs (Maps)

/-- The page of `a` contains an address of the range. -/
def InPages (va length a : ℕ) : Prop :=
  ∃ b, va ≤ b ∧ b < va + length ∧ b / kPageSize = a / kPageSize

/-- Every address of the range has the permission, and the pages outside of the range have the
permissions and the frames that they had. The page tables know the addresses below `2 ^ 39`. -/
structure Machine.MapsExactly (m m' : Machine) (s s' : VmSpace) (va length : ℕ) (perm : Word) :
    Prop where
  covers : ∀ a, va ≤ a → a < va + length → s'.permAt a = some perm
  perms : ∀ a, ¬ InPages va length a → s'.permAt a = s.permAt a
  frames : ∀ a < kVaSpan, ¬ InPages va length a →
    m'.mem.lookup s'.rootPa a = m.mem.lookup s.rootPa a

/-- No address of the range has a permission or a frame. -/
def Machine.NothingIn (m : Machine) (s : VmSpace) (va length : ℕ) : Prop :=
  ∀ a, va ≤ a → a < va + length →
    s.permAt a = none ∧ (a < kVaSpan → m.mem.lookup s.rootPa a = none)

theorem inPages_iff {va len a : ℕ} (hva : kPageSize ∣ va) (hlen : len ≤ 2 ^ 64 - kPageSize) :
    InPages va len a ↔ va ≤ a ∧ a < va + pageAlignUp len := by
  have hround := le_pageAlignUp hlen
  obtain ⟨i, rfl⟩ := hva
  obtain ⟨j, hj⟩ := dvd_pageAlignUp len
  rw [hj] at hround ⊢
  constructor
  · rintro ⟨b, hlo, hup, hpage⟩
    simp only [kPageSize] at *
    omega
  · rintro ⟨hlo, hup⟩
    refine ⟨a / kPageSize * kPageSize, ?_, ?_, Nat.mul_div_cancel _ (by decide)⟩ <;>
    · simp only [kPageSize] at *
      omega

section Inversion

variable {m m' : Machine} {s s' : VmSpace} {hi addr length offset : ℕ} {prot flags : Word}
  {ret : Int}

/-- **A successful `sys_mmap`** ends with a successful `vmm_map_user` at the address it returns; with
`MAP_FIXED`, after a successful `vmm_unmap_user`. -/
theorem sysMmap_ok (hv : RegionInv hi s.vmas) (hhi : hi ≤ kUserVaLimit) (haddr : addr < 2 ^ 64)
    (hr : m.sysMmap s addr length prot flags offset = (ret, m', s')) (hok : ¬ IsErr ret) :
    ∃ va m₁ s₁, va ≠ 0 ∧ va < 2 ^ 64 ∧ kPageSize ∣ va ∧ ret = int64 va ∧ length ≠ 0 ∧
      m₁.mapUser s₁ va (pageAlignUp length) (protToPerm prot ||| vmUser) = (0, m', s') ∧
      (flags.Has mapFixed ∧ m.unmapUser s va (pageAlignUp length) = (0, m₁, s₁) ∧
          (addr ≠ 0 → va = addr) ∨
        ¬ flags.Has mapFixed ∧ s₁ = s ∧ ∃ luck, m₁ = { m with luck := luck }) := by
  have hfound {va : ℕ} (hva : mmFindFreeVa s (pageAlignUp length) kPageSize = va) (hne : va ≠ 0) :
      va < 2 ^ 64 ∧ kPageSize ∣ va := by
    obtain ⟨hd, hle, -⟩ := mmFindFreeVa_spec hv hhi hva hne
    have : max kUserVaBase kUserVaLimit < 2 ^ 64 := by decide
    have : max kUserVaBase hi ≤ max kUserVaBase kUserVaLimit := max_le_max le_rfl hhi
    exact ⟨by omega, hd⟩
  rw [Machine.sysMmap] at hr
  cases hrefused : Machine.mmapRefused addr length flags offset with
  | some err =>
    rw [hrefused] at hr
    cases hr
    exact absurd (isErr_of_mmapRefused hrefused) hok
  | none =>
  rw [hrefused] at hr
  obtain ⟨hlen, -, -, -, -, hfixed⟩ := mmapRefused_eq_none.mp hrefused
  dsimp only at hr
  obtain ⟨hint, hhint⟩ : ∃ hint, (if flags.Has mapFixed then addr else pageAlignDown addr) = hint :=
    ⟨_, rfl⟩
  obtain ⟨va, hva⟩ : ∃ va, (if hint = 0 then mmFindFreeVa s (pageAlignUp length) kPageSize
    else hint) = va := ⟨_, rfl⟩
  rw [hhint, hva] at hr
  split at hr
  · cases hr
    exact absurd (by decide) hok
  rename_i hne
  have hvaok : va < 2 ^ 64 ∧ kPageSize ∣ va := by
    split at hva
    · exact hfound hva hne
    · subst hva
      split at hhint
      · subst hhint
        exact ⟨haddr, hfixed ‹_›⟩
      · subst hhint
        exact ⟨lt_of_le_of_lt (Nat.div_mul_le_self ..) haddr, dvd_pageAlignDown addr⟩
  split at hr
  · -- with `MAP_FIXED`
    rename_i hfix
    cases hunmap : m.unmapUser s va (pageAlignUp length) with
    | mk ret₁ r =>
    obtain ⟨m₁, s₁⟩ := r
    rw [hunmap] at hr
    dsimp only at hr
    rcases unmapUser_ret hv.sorted hunmap with rfl | ⟨herr, -⟩
    swap
    · rw [if_pos herr.2] at hr
      cases hr
      exact absurd herr hok
    rw [if_neg (lt_irrefl 0)] at hr
    cases hmap : m₁.mapUser s₁ va (pageAlignUp length) (protToPerm prot ||| vmUser) with
    | mk ret₂ r =>
    obtain ⟨m₂, s₂⟩ := r
    obtain ⟨rfl, rfl, hret⟩ := mmapAt_fixed hfix hmap hr
    rcases mapUser_ret hmap with rfl | ⟨herr, -⟩
    · rw [if_neg (lt_irrefl 0)] at hret
      refine ⟨va, m₁, s₁, hne, hvaok.1, hvaok.2, hret, hlen, hmap, .inl ⟨hfix, hunmap, ?_⟩⟩
      intro haddr₀
      rw [if_pos hfix] at hhint
      rw [← hhint, if_neg haddr₀] at hva
      exact hva.symm
    · rw [if_pos herr.2] at hret
      rw [hret] at hok
      exact absurd herr hok
  · rename_i hfix
    rw [Machine.mmapAt] at hr
    cases hmap : m.mapUser s va (pageAlignUp length) (protToPerm prot ||| vmUser) with
    | mk ret₂ r =>
    obtain ⟨m₂, s₂⟩ := r
    rw [hmap] at hr
    dsimp only at hr
    rcases mapUser_ret hmap with rfl | ⟨herr, rfl, hluck⟩
    · rw [if_neg (fun hno => lt_irrefl 0 hno.1), if_neg (lt_irrefl 0)] at hr
      cases hr
      exact ⟨va, m, s, hne, hvaok.1, hvaok.2, rfl, hlen, hmap, .inr ⟨hfix, rfl, m.luck, rfl⟩⟩
    split at hr
    · -- the hint was of no use
      split at hr
      · cases hr
        exact absurd herr hok
      rename_i hfound₀
      cases hmap' : m₂.mapUser s₂ (mmFindFreeVa s₂ (pageAlignUp length) kPageSize)
          (pageAlignUp length) (protToPerm prot ||| vmUser) with
      | mk ret₃ r =>
      obtain ⟨m₃, s₃⟩ := r
      rw [hmap'] at hr
      dsimp only at hr
      rcases mapUser_ret hmap' with rfl | ⟨herr', -⟩
      · rw [if_neg (lt_irrefl 0)] at hr
        cases hr
        obtain ⟨hlt, hd⟩ := hfound rfl hfound₀
        exact ⟨_, m₂, s₂, hfound₀, hlt, hd, rfl, hlen, hmap', .inr ⟨hfix, rfl, hluck⟩⟩
      · rw [if_pos herr'.2] at hr
        cases hr
        exact absurd herr' hok
    · rw [if_pos herr.2] at hr
      cases hr
      exact absurd herr hok

end Inversion

namespace VmState

variable {st : VmState} {g : Ghost} {sid : ℕ} {s s' : VmSpace} {m m' : Machine} {ret : Int}

theorem Sound.permAt_eq_none (h : st.Sound g) (hs : st.space sid = some s) {a : ℕ}
    (ha : kVaSpan ≤ a) : s.permAt a = none := by
  refine Segs.get_eq_none_iff.mpr fun v hv hin => ?_
  have := ((h.regions sid s hs).bounds v hv).2
  have := hin.2
  omega

section

variable (h : st.Sound g) (hs : st.space sid = some s) (hl : Ledger m st.other st.roots g)
include h hs hl

theorem Sound.lookup_unmapUser {va len a : ℕ} (hva : kPageSize ∣ va)
    (hr : m.unmapUser s va len = (ret, m', s')) (ha : a < kVaSpan)
    (hout : ¬ (va ≤ a ∧ a < va + pageAlignUp len)) :
    m'.mem.lookup s'.rootPa a = m.mem.lookup s.rootPa a := by
  obtain ⟨hroot, ⟨g', h', -⟩, ⟨addrs, hin, -, hw⟩, -⟩ :=
    hl.unmapUser_spec (roots_eq hs) (h.regions sid s hs) hr
  rw [pageAlignDown_of_dvd hva] at hin
  have hnot : slotNo a ∉ addrs.map slotNo := by
    intro hmem
    obtain ⟨b, hb, hslot⟩ := List.mem_map.mp hmem
    obtain ⟨⟨i, rfl⟩, hlo, hup, hspan⟩ := hin b hb
    obtain ⟨j, rfl⟩ := hva
    obtain ⟨k, hk⟩ := dvd_pageAlignUp len
    -- both pages are below the bound, so they are the same page
    have hpage : kPageSize * i / kPageSize = a / kPageSize := by
      have hdiv {x : ℕ} (hx : x < kVaSpan) : slotNo x = x / kPageSize := by
        rw [← page_mod, Nat.mod_eq_of_lt hx]
      rwa [hdiv hspan, hdiv ha] at hslot
    rw [hk] at hup hout
    simp only [kPageSize] at *
    omega
  rw [hroot, h'.lookup_slot (roots_eq hs), hl.lookup_slot (roots_eq hs),
    hw (sid, slotNo a) fun hk => hnot hk.2]

theorem Sound.nothingIn_unmapUser (hmem : m.mem = st.machine.mem) {va len : ℕ}
    (hva : kPageSize ∣ va) (hr : m.unmapUser s va len = (0, m', s')) :
    m'.NothingIn s' va (pageAlignUp len) := by
  have hreg := h.regions sid s hs
  have hreg' : RegionInv kUserVaLimit s.vmas := h.tabled.2 sid s hs
  have hslots : m.mem.slots st.roots = st.slots := by rw [hmem]; rfl
  obtain ⟨hroot, ⟨g', h', -⟩, -, hcov⟩ := hl.unmapUser_spec (roots_eq hs) hreg hr
  have hcovers := hcov (by rw [hslots]; exact h.covers sid s hs)
  have hgone := (unmapUser_spec hr hreg).gone rfl
  rw [pageAlignDown_of_dvd hva] at hgone
  intro a hlo hup
  refine ⟨?_, fun ha => ?_⟩
  · rw [hreg'.refinesPerms.unmap hva hr a, if_pos ⟨hlo, hup⟩]
  · -- a mapped page lies in a region, and none is left in the range
    rw [hroot, h'.lookup_slot (roots_eq hs)]
    by_contra ht
    obtain ⟨x, hx, -⟩ := hcovers _ (slotNo_lt a) ht
    refine hgone _ x hx ?_
    rw [← page_mod, Nat.mod_eq_of_lt ha]
    obtain ⟨j, rfl⟩ := hva
    obtain ⟨k, hk⟩ := dvd_pageAlignUp len
    rw [hk] at hup ⊢
    simp only [kPageSize] at *
    omega

/-- **A successful `sys_mmap`** -/
theorem Sound.sysMmap_report {addr length offset : ℕ} {prot flags : Word}
    (haddr : addr < 2 ^ 64) (hlength : length < 2 ^ 64)
    (hr : m.sysMmap s addr length prot flags offset = (ret, m', s')) (hok : ¬ IsErr ret) :
    ∃ va < 2 ^ 64, ret = int64 va ∧ (m.MapsExactly m' s s' va length (protToPerm prot ||| vmUser) ∧
          (flags.Has mapFixed → va = addr) ↔
        length ≤ 2 ^ 64 - kPageSize ∧ (flags.Has mapFixed → addr ≠ 0)) := by
  have hreg := h.regions sid s hs
  have hreg' : RegionInv kUserVaLimit s.vmas := h.tabled.2 sid s hs
  have hspan : kVaSpan ≤ kUserVaLimit := by decide
  obtain ⟨va, m₁, s₁, hne, hlt, hva, rfl, hlen, hmap, hcase⟩ := sysMmap_ok hreg hspan haddr hr hok
  have hdown := pageAlignDown_of_dvd hva
  have hround := pageAlignUp_pageAlignUp length
  refine ⟨va, hlt, rfl, ?_⟩
  -- the range was cleared before, or there was nothing to clear
  have hbefore : RegionInv kUserVaLimit s₁.vmas ∧
      (∀ a, ¬ (va ≤ a ∧ a < va + pageAlignUp length) → s₁.permAt a = s.permAt a) ∧
      ∀ a < kVaSpan, ¬ (va ≤ a ∧ a < va + pageAlignUp length) →
        m₁.mem.lookup s₁.rootPa a = m.mem.lookup s.rootPa a := by
    rcases hcase with ⟨-, hunmap, -⟩ | ⟨-, rfl, luck, rfl⟩
    · refine ⟨(unmapUser_spec hunmap hreg').inv, fun a hout => ?_, fun a ha hout => ?_⟩
      · rw [hreg'.refinesPerms.unmap hva hunmap a, hround, if_neg hout]
      · exact h.lookup_unmapUser hs hl hva hunmap ha (by rwa [hround])
    · exact ⟨hreg', fun _ _ => rfl, fun _ _ _ => rfl⟩
  obtain ⟨hreg₁, hperms₁, hframes₁⟩ := hbefore
  obtain ⟨luck, rfl⟩ := mapUser_machine hmap
  have hroot : s'.rootPa = s₁.rootPa := by
    rcases mapUser_cases hmap with ⟨rfl, -⟩ | ⟨-, -, -, -, _, rfl, rfl⟩ <;> rfl
  by_cases hwrap : length ≤ 2 ^ 64 - kPageSize
  · have hlen' : pageAlignUp (pageAlignUp length) ≠ 0 := by
      have := (le_pageAlignUp hwrap).1
      omega
    have hnew := hreg₁.refinesPerms.map hva hmap hlen'
    rw [hround] at hnew
    have hexact : m.MapsExactly { m₁ with luck := luck } s s' va length
        (protToPerm prot ||| vmUser) := by
      refine ⟨fun a hlo hup => ?_, fun a hout => ?_, fun a ha hout => ?_⟩
      · have := (le_pageAlignUp hwrap).1
        rw [hnew, if_pos ⟨hlo, by omega⟩, BitVec.or_assoc, BitVec.or_self]
      · rw [inPages_iff hva hwrap] at hout
        rw [hnew, if_neg hout, hperms₁ a hout]
      · rw [inPages_iff hva hwrap] at hout
        rw [hroot]
        exact hframes₁ a ha hout
    constructor
    · rintro ⟨-, hfix⟩
      exact ⟨hwrap, fun hf haddr₀ => hne (by rw [hfix hf, haddr₀])⟩
    · rintro ⟨-, hfix⟩
      refine ⟨hexact, fun hf => ?_⟩
      rcases hcase with ⟨-, -, heq⟩ | ⟨hno, -⟩
      · exact heq (hfix hf)
      · exact absurd hf hno
  · -- the length was rounded to 0, and nothing was mapped
    refine iff_of_false (fun hexact => ?_) fun hcond => hwrap hcond.1
    have hzero := pageAlignUp_of_lt (not_le.mp hwrap) hlength
    have hs₁ : s₁ = s := by
      rcases hcase with ⟨-, hunmap, -⟩ | ⟨-, rfl, -⟩
      · exact (unmapUser_of_apart (fun hno => absurd (by rw [hround, hzero]) hno) hunmap).2
      · rfl
    have hs' : s' = s₁ := by
      rcases mapUser_cases hmap with ⟨rfl, -⟩ | ⟨-, hno, -⟩
      · rfl
      · exact absurd (by rw [hround, hzero]) hno
    have hlast := hexact.1.covers (va + length - 1) (by omega) (by omega)
    have hbig : kVaSpan ≤ 2 ^ 64 - kPageSize := by decide
    rw [hs', hs₁, h.permAt_eq_none hs (by omega)] at hlast
    cases hlast

/-- **A successful `sys_munmap`** -/
theorem Sound.sysMunmap_report (hmem : m.mem = st.machine.mem) {addr length : ℕ}
    (hlength : length < 2 ^ 64) (hr : m.sysMunmap s addr length = (0, m', s')) :
    m'.NothingIn s' addr length ↔ length ≤ 2 ^ 64 - kPageSize ∨ m.NothingIn s addr length := by
  have hround := pageAlignUp_pageAlignUp length
  rw [Machine.sysMunmap] at hr
  split at hr
  · cases hr
  split at hr
  · cases hr
  rename_i hlen hal
  have haddr : kPageSize ∣ addr := Nat.dvd_of_mod_eq_zero (not_not.mp hal)
  by_cases hwrap : length ≤ 2 ^ 64 - kPageSize
  · refine iff_of_true (fun a hlo hup => ?_) (.inl hwrap)
    have := (le_pageAlignUp hwrap).1
    exact h.nothingIn_unmapUser hs hl hmem haddr hr a hlo (by rw [hround]; omega)
  · rw [or_iff_right hwrap]
    have hzero := pageAlignUp_of_lt (not_le.mp hwrap) hlength
    obtain ⟨rfl, rfl⟩ := unmapUser_of_apart (fun hno => absurd (by rw [hround, hzero]) hno) hr
    exact Iff.rfl

end

/-- **A successful `sys_mprotect`** -/
theorem Sound.sysMprotect_report (h : st.Sound g) (hs : st.space sid = some s) {addr len : ℕ}
    {prot : Word} (hlen : len < 2 ^ 64) (hr : m.sysMprotect s addr len prot = (0, m', s')) (a : ℕ)
    (hlo : addr ≤ a) (hup : a < addr + len) : s'.permAt a = some (protToPerm prot ||| vmUser) := by
  have hreg' : RegionInv kUserVaLimit s.vmas := h.tabled.2 sid s hs
  rw [Machine.sysMprotect] at hr
  split at hr
  · cases hr
  split at hr
  · cases hr
  rename_i hne hal
  have haddr : kPageSize ∣ addr := Nat.dvd_of_mod_eq_zero (not_not.mp hal)
  have hwrap : len ≤ 2 ^ 64 - kPageSize := by
    by_contra hwrap
    rw [Machine.protectUser] at hr
    dsimp only at hr
    rw [if_pos (pageAlignUp_of_lt (not_le.mp hwrap) hlen)] at hr
    cases hr
  have := (le_pageAlignUp hwrap).1
  rw [hreg'.refinesPerms.protect haddr hr a, if_pos ⟨hlo, by omega⟩]

end VmState

end Lume
