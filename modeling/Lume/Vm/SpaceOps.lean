import Lume.Vm.Teardown

/-!
# The operations on one address space

What unmapping, changing permissions and page faults do to the slots of all address spaces, to
the ledger and to the agreement between slots and regions.

## Main definitions

* `Covers t σ sid`: every page that `sid` maps lies in a region, and its entry grants no more
  than the region does
* `Isolated σ`: no entry that shares its frame with another one allows writing

## Main results

* `Ledger.unmapUser_spec`, `Ledger.protectUser_spec`, `Ledger.handlePageFault_spec`
-/

namespace Lume

open Segs (Maps Sorted)

/-- Every page that address space `sid` maps lies in a region of `t` that agrees with its entry. -/
def Covers (t : List Vma) (σ : ℕ × ℕ → Word) (sid : ℕ) : Prop :=
  ∀ n < kPageNumbers, (σ (sid, n)).target ≠ none →
    ∃ x, Maps t (n * kPageSize) x ∧ Grants (σ (sid, n)) x

theorem RegionInv.slotNo_eq {t : List Vma} {v : Vma} {a : ℕ} (h : RegionInv kVaSpan t) (hv : v ∈ t)
    (ha : a ∈ v) : slotNo a = a / kPageSize := by
  refine Nat.mod_eq_of_lt (lt_of_mul_lt_mul_right ?_ (Nat.zero_le kPageSize))
  exact lt_of_lt_of_le (h.page_mem hv ha).2 (h.bounds v hv).2

/-- A frame that two entries map is written through neither of them. -/
def Isolated (σ : ℕ × ℕ → Word) : Prop :=
  ∀ k k', k ≠ k' → (σ k).target ≠ none → (σ k).target = (σ k').target → (σ k).getLsbD 2 = false

/-- Some slots of `sid` were cleared, those of the page numbers in `ns` among them. -/
structure Cleared (sid : ℕ) (ns : List ℕ) (σ σ' : ℕ × ℕ → Word) : Prop where
  slots : ∀ k, σ' k = σ k ∨ (k.1 = sid ∧ (σ' k).target = none)
  gone : ∀ n ∈ ns, (σ' (sid, n)).target = none

/-- No slots changed but those of `sid` for the page numbers in `ns`. -/
def Within (sid : ℕ) (ns : List ℕ) (σ σ' : ℕ × ℕ → Word) : Prop :=
  ∀ k, ¬ (k.1 = sid ∧ k.2 ∈ ns) → σ' k = σ k

/-- The slots of the pages in `addrs` took the permission `x`, the others are unchanged. -/
structure Repainted (sid : ℕ) (addrs : List ℕ) (x : Word) (σ σ' : ℕ × ℕ → Word) : Prop where
  keep : ∀ k, ¬ (k.1 = sid ∧ k.2 * kPageSize ∈ addrs) → σ' k = σ k
  target : ∀ k, (σ' k).target = none ∨ (σ' k).target = (σ k).target
  grants : ∀ n, n * kPageSize ∈ addrs → (σ' (sid, n)).target ≠ none → Grants (σ' (sid, n)) x
  write : ∀ n, n * kPageSize ∈ addrs → (σ' (sid, n)).target ≠ none →
    (σ' (sid, n)).getLsbD 2 = true → ¬ (σ (sid, n)).Has pteCow

section Slots

variable {σ σ' σ'' : ℕ × ℕ → Word} {sid n : ℕ} {addrs ns ns' : List ℕ} {w x : Word} {k : ℕ × ℕ}
  {t : List Vma}

theorem Within.refl (sid : ℕ) (ns : List ℕ) (σ : ℕ × ℕ → Word) : Within sid ns σ σ :=
  fun _ _ => rfl

theorem Within.trans (h : Within sid ns σ σ') (h' : Within sid ns' σ' σ'') :
    Within sid (ns ++ ns') σ σ'' := by
  intro k hk
  rw [h' k fun hin => hk ⟨hin.1, List.mem_append_right _ hin.2⟩,
    h k fun hin => hk ⟨hin.1, List.mem_append_left _ hin.2⟩]

theorem Within.update (σ : ℕ × ℕ → Word) (w : Word) :
    Within sid [n] σ (Function.update σ (sid, n) w) := by
  intro k hk
  refine Function.update_of_ne ?_ ..
  rintro rfl
  exact hk ⟨rfl, List.mem_singleton.mpr rfl⟩

theorem Cleared.refl (sid : ℕ) (σ : ℕ × ℕ → Word) : Cleared sid [] σ σ :=
  ⟨fun _ => .inl rfl, by simp⟩

theorem Cleared.trans (h : Cleared sid ns σ σ') (h' : Cleared sid ns' σ' σ'') :
    Cleared sid (ns ++ ns') σ σ'' where
  slots k := by
    rcases h'.slots k with he | he
    · rw [he]
      exact h.slots k
    · exact .inr he
  gone n hn := by
    rcases h'.slots (sid, n) with he | he
    · rcases List.mem_append.mp hn with hn | hn
      · rw [he, h.gone n hn]
      · exact h'.gone n hn
    · exact he.2

theorem Cleared.isolated (h : Cleared sid ns σ σ') (hi : Isolated σ) : Isolated σ' := by
  intro k k' hne ht he
  rcases h.slots k with hk | ⟨-, hk⟩
  · rcases h.slots k' with hk' | ⟨-, hk'⟩
    · rw [hk] at ht he ⊢
      rw [hk'] at he
      exact hi k k' hne ht he
    · exact absurd (he.trans hk') ht
  · exact absurd hk ht

theorem Cleared.covers_of_ne (h : Cleared sid ns σ σ') {j : ℕ} (hj : j ≠ sid)
    (hc : Covers t σ j) : Covers t σ' j := by
  intro n hn ht
  rcases h.slots (j, n) with he | he
  · rw [he] at ht ⊢
    exact hc n hn ht
  · exact absurd he.1 hj

theorem Repainted.covers_of_ne (h : Repainted sid addrs x σ σ') {j : ℕ} (hj : j ≠ sid)
    (hc : Covers t σ j) : Covers t σ' j := by
  intro n hn ht
  have he := h.keep (j, n) fun hin => hj hin.1
  rw [he] at ht ⊢
  exact hc n hn ht

/-- Sharing entries stay read-only if a new write bit goes to frames that are not shared, or
were marked copy-on-write. -/
theorem Repainted.isolated (h : Repainted sid addrs x σ σ') (hi : Isolated σ)
    (hguard : x.getLsbD 1 = true → ∀ n, n * kPageSize ∈ addrs → (σ (sid, n)).target ≠ none →
      (σ (sid, n)).Has pteCow ∨ ∀ k, k ≠ (sid, n) → (σ k).target ≠ (σ (sid, n)).target) :
    Isolated σ' := by
  intro k k' hne ht he
  have hk := (h.target k).resolve_left ht
  have hk' : (σ' k').target = (σ k').target := (h.target k').resolve_left (he ▸ ht)
  have hold := hi k k' hne (hk ▸ ht) (by rw [← hk, he, hk'])
  by_cases hin : k.1 = sid ∧ k.2 * kPageSize ∈ addrs
  · obtain ⟨rfl, hin⟩ := hin
    by_contra hw
    have hw : (σ' k).getLsbD 2 = true := by simpa using hw
    have hcow := h.write k.2 hin ht hw
    rcases hguard ((h.grants k.2 hin ht).write hw) k.2 hin (hk ▸ ht) with hc | hc
    · exact hcow hc
    · exact hc k' hne.symm (by rw [← hk', ← he, hk])
  · rw [h.keep k hin]
    exact hold

theorem Isolated.fresh (hi : Isolated σ) (hw : ∀ j, (σ j).target ≠ w.target) :
    Isolated (Function.update σ k w) := by
  intro j j' hne ht he
  rcases eq_or_ne j k with rfl | hj
  · rw [Function.update_self, Function.update_of_ne hne.symm] at he
    exact absurd he.symm (hw j')
  · rw [Function.update_of_ne hj] at ht he ⊢
    rcases eq_or_ne j' k with rfl | hj'
    · rw [Function.update_self] at he
      exact absurd he (hw j)
    · rw [Function.update_of_ne hj'] at he
      exact hi j j' hne ht he

theorem Covers.update (hc : Covers t σ sid) (hw : w.target ≠ none → ∃ x,
    Maps t (n * kPageSize) x ∧ Grants w x) : Covers t (Function.update σ (sid, n) w) sid := by
  intro n' hn' ht
  rcases eq_or_ne n' n with rfl | hne
  · rw [Function.update_self] at ht ⊢
    exact hw ht
  · have hk : (sid, n') ≠ (sid, n) := fun he => hne (Prod.ext_iff.mp he).2
    rw [Function.update_of_ne hk] at ht ⊢
    exact hc n' hn' ht

theorem Covers.update_of_ne {j : ℕ} (hc : Covers t σ j) (hj : j ≠ sid) :
    Covers t (Function.update σ (sid, n) w) j := by
  intro n' hn' ht
  have hk : (j, n') ≠ (sid, n) := fun he => hj (Prod.ext_iff.mp he).1
  rw [Function.update_of_ne hk] at ht ⊢
  exact hc n' hn' ht

end Slots

/-! ## Bookkeeping over loops -/

theorem Books.of_ledger {clean : Prop} {other : List Block} {roots : Roots} {g : Ghost}
    {m : Machine} (h : Ledger m other roots g) : Books clean other roots g m :=
  ⟨g, h, .refl g, fun _ _ => le_rfl⟩

theorem Books.mono {clean clean' : Prop} {other : List Block} {roots : Roots} {g : Ghost}
    {m : Machine} (h : Books clean other roots g m) (hc : clean' → clean) :
    Books clean' other roots g m := by
  obtain ⟨g', h', hkin, hdebt⟩ := h
  exact ⟨g', h', hkin, fun hclean => hdebt (hc hclean)⟩

theorem Books.trans {clean : Prop} {other : List Block} {roots : Roots} {g g' : Ghost}
    {m : Machine} (hkin : g.Kin g') (hdebt : clean → ∀ p, g'.debt p ≤ g.debt p)
    (h : Books clean other roots g' m) : Books clean other roots g m := by
  obtain ⟨g'', h'', hkin', hdebt'⟩ := h
  exact ⟨g'', h'', hkin.trans hkin', fun hc p => (hdebt' hc p).trans (hdebt hc p)⟩

namespace Ledger

variable {m m' : Machine} {other : List Block} {roots : Roots} {g : Ghost} {sid root hi : ℕ}
  {s s' : VmSpace} {va len : ℕ} {perm : Word} {ret : Int}

/-! ## Unmapping -/

theorem dropPages_spec (h : Ledger m other roots g) (hr : roots sid = some root) (addrs : List ℕ) :
    Books True other roots g (addrs.foldl (fun m a => m.dropPage root a) m) ∧
      Cleared sid (addrs.map slotNo) (m.mem.slots roots)
        ((addrs.foldl (fun m a => m.dropPage root a) m).mem.slots roots) ∧
      Within sid (addrs.map slotNo) (m.mem.slots roots)
        ((addrs.foldl (fun m a => m.dropPage root a) m).mem.slots roots) := by
  induction addrs generalizing m g with
  | nil => exact ⟨.of_ledger h, .refl .., .refl _ _ _⟩
  | cons a addrs ih =>
    obtain ⟨⟨g₁, h₁, hkin, hdebt⟩, w, hw, hs⟩ :=
      h.dropPage_spec hr (page_mod a ▸ slotNo_lt a : a % kVaSpan / kPageSize < kPageNumbers)
    rw [Machine.dropPage_mod] at h₁ hs
    rw [page_mod] at hs
    obtain ⟨hb, hc, hin⟩ := ih h₁
    have hfirst : Cleared sid [slotNo a] (m.mem.slots roots)
        ((m.dropPage root a).mem.slots roots) := by
      rw [hs]
      refine ⟨fun k => ?_, fun n hn => ?_⟩
      · rcases eq_or_ne k (sid, slotNo a) with rfl | hne
        · exact .inr ⟨rfl, by rw [Function.update_self, hw]⟩
        · exact .inl (Function.update_of_ne hne ..)
      · rw [List.mem_singleton.mp hn, Function.update_self, hw]
    refine ⟨hb.trans hkin hdebt, hfirst.trans hc, ?_⟩
    have hwithin : Within sid [slotNo a] (m.mem.slots roots)
        ((m.dropPage root a).mem.slots roots) := hs ▸ .update _ w
    exact hwithin.trans hin

theorem carvings_spec {stop : ℕ} {t t' : List Vma} (hcarve : Carvings hi root va stop m t m' t')
    (h : Ledger m other roots g) (hr : roots sid = some root) (hv : RegionInv hi t)
    (hva : kPageSize ∣ va) (hstop : kPageSize ∣ stop) : Books True other roots g m' ∧
      (∃ addrs : List ℕ, (∀ a ∈ addrs, kPageSize ∣ a ∧ va ≤ a ∧ a < stop ∧ a < hi) ∧
        Cleared sid (addrs.map slotNo) (m.mem.slots roots) (m'.mem.slots roots) ∧
        Within sid (addrs.map slotNo) (m.mem.slots roots) (m'.mem.slots roots)) ∧
      (Covers t (m.mem.slots roots) sid → Covers t' (m'.mem.slots roots) sid) := by
  have hpages {t : List Vma} {v : Vma} (hv : RegionInv hi t) (hvm : v ∈ t) (a : ℕ) :
      a ∈ pageAddrs (max v.start va) (min v.stop stop) ↔
        kPageSize ∣ a ∧ max v.start va ≤ a ∧ a < min v.stop stop := by
    refine mem_pageAddrs ?_ ?_
    · rcases max_choice v.start va with he | he <;> rw [he]
      exacts [(hv.aligned v hvm).1, hva]
    · rcases min_choice v.stop stop with he | he <;> rw [he]
      exacts [(hv.aligned v hvm).2, hstop]
  have hrange {t : List Vma} {v : Vma} (hv : RegionInv hi t) (hvm : v ∈ t) :
      ∀ a ∈ pageAddrs (max v.start va) (min v.stop stop),
        kPageSize ∣ a ∧ va ≤ a ∧ a < stop ∧ a < hi := by
    intro a ha
    obtain ⟨hdvd, hlo, hup⟩ := (hpages hv hvm a).mp ha
    have := (hv.bounds v hvm).2
    exact ⟨hdvd, by omega, by omega, by omega⟩
  have hdrop {m : Machine} {g : Ghost} (h : Ledger m other roots g) (v : Vma) (luck : List Bool) :
      Books True other roots g
        { m.dropPages root (max v.start va) (min v.stop stop) with luck := luck } ∧
      Cleared sid ((pageAddrs (max v.start va) (min v.stop stop)).map slotNo) (m.mem.slots roots)
        ((m.dropPages root (max v.start va) (min v.stop stop)).mem.slots roots) ∧
      Within sid ((pageAddrs (max v.start va) (min v.stop stop)).map slotNo) (m.mem.slots roots)
        ((m.dropPages root (max v.start va) (min v.stop stop)).mem.slots roots) := by
    obtain ⟨⟨g', h', hkin, hdebt⟩, hc⟩ := h.dropPages_spec hr
      (pageAddrs (max v.start va) (min v.stop stop))
    exact ⟨⟨g', h'.congr rfl rfl h'.cpu_lt, hkin, hdebt⟩, hc⟩
  induction hcarve generalizing g with
  | done m t => exact ⟨.of_ledger h, ⟨[], by simp, .refl .., .refl _ _ _⟩, id⟩
  | carve luck hvm hlo hhi' hc rest ih =>
    obtain ⟨⟨g₁, h₁, hkin, hdebt⟩, hcl, hw⟩ := hdrop h _ luck
    obtain ⟨hb, ⟨addrs, hin, hcl', hw'⟩, hcov⟩ := ih h₁ hc.inv
    have hcl'' := hcl.trans hcl'
    have hw'' := hw.trans hw'
    rw [← List.map_append] at hcl'' hw''
    refine ⟨hb.trans hkin hdebt, ⟨_, fun a ha => ?_, hcl'', hw''⟩,
      fun hcv => hcov fun n hn ht => ?_⟩
    · rcases List.mem_append.mp ha with ha | ha
      exacts [hrange hv hvm a ha, hin a ha]
    rcases hcl.slots (sid, n) with he | ⟨-, he⟩
    · dsimp only at ht ⊢
      rw [he] at ht ⊢
      obtain ⟨x, hx, hg⟩ := hcv n hn ht
      refine ⟨x, (hc.maps hv.sorted hvm hhi' hlo _ x).mpr ⟨hx, ?_⟩, hg⟩
      -- a page of the carved part was dropped
      rintro ⟨⟨h₁, h₂⟩, h₃, h₄⟩
      have hin := (hpages hv hvm (n * kPageSize)).mpr ⟨Nat.dvd_mul_left .., by omega, by omega⟩
      have := hcl.gone n (List.mem_map.mpr ⟨_, hin, slotNo_page hn⟩)
      rw [he] at this
      exact ht this
    · exact absurd he ht
  | stuck luck hvm hlo hhi' =>
    obtain ⟨hb, hcl, hw⟩ := hdrop h _ luck
    refine ⟨hb, ⟨_, hrange hv hvm, hcl, hw⟩, fun hcv n hn ht => ?_⟩
    rcases hcl.slots (sid, n) with he | ⟨-, he⟩
    · dsimp only at ht ⊢
      rw [he] at ht ⊢
      exact hcv n hn ht
    · exact absurd he ht

/-- **`vmm_unmap_user`** -/
theorem unmapUser_spec (h : Ledger m other roots g) (hr : roots sid = some s.rootPa)
    (hv : RegionInv hi s.vmas) (hres : m.unmapUser s va len = (ret, m', s')) :
    s'.rootPa = s.rootPa ∧ Books True other roots g m' ∧
      (∃ addrs : List ℕ, (∀ a ∈ addrs, kPageSize ∣ a ∧ pageAlignDown va ≤ a ∧
          a < pageAlignDown va + pageAlignUp len ∧ a < hi) ∧
        Cleared sid (addrs.map slotNo) (m.mem.slots roots) (m'.mem.slots roots) ∧
        Within sid (addrs.map slotNo) (m.mem.slots roots) (m'.mem.slots roots)) ∧
      (Covers s.vmas (m.mem.slots roots) sid → Covers s'.vmas (m'.mem.slots roots) sid) := by
  obtain ⟨hroot, hcarve⟩ := unmapUser_machine hres hv
  exact ⟨hroot, carvings_spec hcarve h hr hv (dvd_pageAlignDown va)
    (Nat.dvd_add (dvd_pageAlignDown va) (dvd_pageAlignUp len))⟩

/-! ## Changing permissions -/

/-- The new permission leaves a leaf entry: the page can be read or executed, or it can be
written and is not marked copy-on-write. -/
def StaysMapped (perm old : Word) : Prop :=
  perm = 0 ∨ (protectFlags (perm ||| vmUser) (decide (old.Has pteCow))).IsLeaf

theorem protectAll_spec (h : Ledger m other roots g) (hr : roots sid = some root)
    (addrs : List ℕ) (hnd : addrs.Nodup) (hal : ∀ a ∈ addrs, kPageSize ∣ a)
    (hn : ∀ a ∈ addrs, a / kPageSize < kPageNumbers) :
    Books (∀ n, n * kPageSize ∈ addrs → (m.mem.slots roots (sid, n)).target ≠ none →
        StaysMapped perm (m.mem.slots roots (sid, n))) other roots g
        (protectAll root perm (perm ||| vmUser) addrs m) ∧
      Repainted sid addrs (perm ||| vmUser) (m.mem.slots roots)
        ((protectAll root perm (perm ||| vmUser) addrs m).mem.slots roots) := by
  induction addrs generalizing m g with
  | nil =>
    exact ⟨.of_ledger h, ⟨fun _ _ => rfl, fun _ => .inr rfl, by simp, by simp⟩⟩
  | cons a addrs ih =>
    obtain ⟨hnot, hnd'⟩ := List.nodup_cons.mp hnd
    obtain ⟨i, rfl⟩ := hal a (List.mem_cons_self ..)
    have hdiv (j : ℕ) : kPageSize * j / kPageSize = j := Nat.mul_div_cancel_left j (by decide)
    have hi := hn _ (List.mem_cons_self ..)
    obtain ⟨⟨g₁, h₁, hkin, hdebt⟩, w, hs, htarget, hgrants, hwrite⟩ :=
      h.protectPage_spec hr hi perm (perm ||| vmUser) rfl
    rw [hdiv] at hs htarget hwrite hdebt
    obtain ⟨hb, hrep⟩ := ih h₁ hnd' (fun a ha => hal a (List.mem_cons_of_mem _ ha))
      fun a ha => hn a (List.mem_cons_of_mem _ ha)
    rw [hs] at hb hrep
    have hne {n : ℕ} (hn : n * kPageSize ∈ addrs) : (sid, n) ≠ (sid, i) := by
      rintro ⟨⟩
      exact hnot (Nat.mul_comm .. ▸ hn)
    have hcons (n : ℕ) : n * kPageSize ∈ kPageSize * i :: addrs ↔
        n = i ∨ n * kPageSize ∈ addrs := by
      rw [List.mem_cons, Nat.mul_comm n, Nat.mul_right_inj (by decide)]
    refine ⟨Books.trans hkin (fun hclean => hdebt fun ht => ?_) (hb.mono fun hclean n hn ht => ?_),
      ⟨fun k hk => ?_, fun k => ?_, fun n hn ht => ?_, fun n hn ht hw => ?_⟩⟩
    · have hst := hclean i ((hcons i).mpr (.inl rfl)) ht
      rw [Nat.mul_comm, h.isCow_page hr ht]
      exact hst
    · rw [Function.update_of_ne (hne hn)] at ht ⊢
      exact hclean n ((hcons n).mpr (.inr hn)) ht
    · rw [show protectAll root perm (perm ||| vmUser) (kPageSize * i :: addrs) m = _ from rfl]
      have hk₁ : ¬ (k.1 = sid ∧ k.2 * kPageSize ∈ addrs) := fun hin =>
        hk ⟨hin.1, (hcons k.2).mpr (.inr hin.2)⟩
      have hk₂ : k ≠ (sid, i) := by
        rintro rfl
        exact hk ⟨rfl, (hcons i).mpr (.inl rfl)⟩
      exact (hrep.keep k hk₁).trans (Function.update_of_ne hk₂ ..)
    · rcases hrep.target k with he | he
      · exact .inl he
      · rcases eq_or_ne k (sid, i) with rfl | hk
        · rw [Function.update_self] at he
          rcases htarget with hw | hw
          · exact .inl (he.trans hw)
          · exact .inr (he.trans hw)
        · rw [Function.update_of_ne hk] at he
          exact .inr he
    · rcases (hcons n).mp hn with rfl | hn
      · have hlast := hrep.keep (sid, n) fun hin => hne hin.2 rfl
        rw [Function.update_self] at hlast
        have ht' : w.target ≠ none := hlast ▸ ht
        exact hlast ▸ hgrants ht'
      · exact hrep.grants n hn ht
    · rcases (hcons n).mp hn with rfl | hn
      · have hlast := hrep.keep (sid, n) fun hin => hne hin.2 rfl
        rw [Function.update_self] at hlast
        have ht' : w.target ≠ none := hlast ▸ ht
        exact hwrite ht' (hlast ▸ hw)
      · have := hrep.write n hn ht hw
        rwa [Function.update_of_ne (hne hn)] at this

/-- **`vmm_protect_user`** -/
theorem protectUser_spec (h : Ledger m other roots g) (hr : roots sid = some s.rootPa)
    (hhi : hi ≤ kPageNumbers * kPageSize) (hv : RegionInv hi s.vmas)
    (hres : m.protectUser s va len perm = (ret, m', s')) : s'.rootPa = s.rootPa ∧
      Books (∀ n, pageAlignDown va ≤ n * kPageSize → n * kPageSize <
          pageAlignDown va + pageAlignUp len → (m.mem.slots roots (sid, n)).target ≠ none →
          StaysMapped perm (m.mem.slots roots (sid, n))) other roots g m' ∧
      (∃ addrs, Repainted sid addrs (perm ||| vmUser) (m.mem.slots roots) (m'.mem.slots roots) ∧
        ∀ a ∈ addrs, pageAlignDown va ≤ a ∧ a < pageAlignDown va + pageAlignUp len) ∧
      (Covers s.vmas (m.mem.slots roots) sid → Covers s'.vmas (m'.mem.slots roots) sid) := by
  obtain ⟨hroot, hcase⟩ := protectUser_machine hres hv
  obtain ⟨-, hfail, hok⟩ := Lume.protectUser_spec hres hv
  refine ⟨hroot, ?_⟩
  rcases hcase with ⟨hret, luck, rfl⟩ | ⟨hret, luck, addrs, rfl, hnd, hin, haddrs⟩
  · -- the tree may have been split, with the same function
    refine ⟨.of_ledger (h.congr rfl rfl h.cpu_lt),
      ⟨[], ⟨fun _ _ => rfl, fun _ => .inr rfl, by simp, by simp⟩, by simp⟩, fun hc n hn ht => ?_⟩
    obtain ⟨x, hx, hg⟩ := hc n hn ht
    exact ⟨x, (hfail hret _ x).mpr hx, hg⟩
  have h₁ : Ledger { m with luck := luck } other roots g := h.congr rfl rfl h.cpu_lt
  obtain ⟨hb, hrep⟩ := h₁.protectAll_spec hr addrs hnd (fun a ha => ((haddrs a).mp ha).1)
    fun a ha => by
      obtain ⟨v, hvm, -, hup⟩ := hin a ha
      have := (hv.bounds v hvm).2
      exact Nat.div_lt_of_lt_mul (by rw [Nat.mul_comm]; omega)
  refine ⟨hb.mono fun hclean n hn ht => ?_, ⟨addrs, hrep, fun a ha => ((haddrs a).mp ha).2⟩,
    fun hc n hn ht => ?_⟩
  · obtain ⟨-, hlo, hup⟩ := (haddrs _).mp hn
    exact hclean n hlo hup ht
  · have hmaps := hok hret (n * kPageSize)
    by_cases hrange : pageAlignDown va ≤ n * kPageSize ∧
        n * kPageSize < pageAlignDown va + pageAlignUp len
    · refine ⟨perm ||| vmUser, (hmaps _).mpr (by rw [if_pos hrange]), ?_⟩
      exact hrep.grants n ((haddrs _).mpr ⟨Nat.dvd_mul_left .., hrange⟩) ht
    · have hkeep := hrep.keep (sid, n) fun hin => hrange ((haddrs _).mp hin.2).2
      rw [hkeep] at ht ⊢
      obtain ⟨x, hx, hg⟩ := hc n hn ht
      exact ⟨x, (hmaps x).mpr (by rwa [if_neg hrange]), hg⟩

/-! ## Page faults -/

theorem isLeaf_of_vmaAllows {v : Vma} {cause : VmFaultCause} (h : Machine.vmaAllows v cause) :
    (vmPermToPte v.perm).IsLeaf := by
  rw [Word.isLeaf_iff, getLsbD_vmPermToPte, getLsbD_vmPermToPte, getLsbD_vmPermToPte]
  cases cause with
  | read =>
    have := (Word.has_bit (by decide)).mp h
    exact .inl (by simp [this])
  | write =>
    have := (Word.has_bit (by decide)).mp h
    exact .inr (.inl (by simp [this]))
  | exec =>
    have := (Word.has_bit (by decide)).mp h
    exact .inr (.inr (by simp [this]))

/-- The entry of a page is good for an access: it is there, and it is not marked copy-on-write if
the access is a write. -/
def Served (w : Word) (cause : VmFaultCause) : Prop :=
  w.target ≠ none ∧ (cause = .write → ¬ w.Has pteCow)

/-- A fault either leaves the slots alone, which is a success only if the page is mapped already, or
maps a frame that nobody maps. -/
def HandledFault (vmas : List Vma) (sid faultAddr : ℕ) (cause : VmFaultCause) (ret : ℤ)
    (σ σ' : ℕ × ℕ → Word) : Prop :=
  (σ' = σ ∧ (ret = 0 → Served (σ (sid, slotNo faultAddr)) cause)) ∨
    ∃ w, σ' = Function.update σ (sid, slotNo faultAddr) w ∧ (∀ j, (σ j).target ≠ w.target) ∧
      ¬ w.Has pteCow ∧ w.target ≠ none ∧ ¬ Served (σ (sid, slotNo faultAddr)) cause ∧
      ∃ x, Maps vmas (faultAddr / kPageSize * kPageSize) x ∧ Grants w x

/-- **`vmm_handle_page_fault`** keeps the books and does to the slots what a fault does. -/
theorem handlePageFault_spec (h : Ledger m other roots g) (hr : roots sid = some s.rootPa)
    (hv : RegionInv hi s.vmas) {faultAddr : ℕ} {cause : VmFaultCause}
    (hres : m.handlePageFault s faultAddr cause = (ret, m')) :
    Books True other roots g m' ∧ HandledFault s.vmas sid faultAddr cause ret (m.mem.slots roots) (m'.mem.slots roots) := by
  rw [Machine.handlePageFault] at hres
  split at hres
  · cases hres
    exact ⟨.of_ledger h, .inl ⟨rfl, fun h₀ => absurd h₀ (by decide)⟩⟩
  rename_i v hfind
  obtain ⟨hvm, hin⟩ := Segs.mem_of_find hfind
  split at hres
  · cases hres
    exact ⟨.of_ledger h, .inl ⟨rfl, fun h₀ => absurd h₀ (by decide)⟩⟩
  rename_i hallow
  have hleaf := isLeaf_of_vmaAllows (not_not.mp hallow)
  -- the page of the fault lies in the region
  have hmaps : Maps s.vmas (faultAddr / kPageSize * kPageSize) v.tag :=
    Segs.maps_of_mem hvm (hv.page_mem hvm hin)
  have hslot : pageAlignDown faultAddr % kVaSpan / kPageSize = slotNo faultAddr := by
    rw [page_mod, slotNo, slotNo, pageAlignDown, Nat.mul_div_cancel _ (by decide)]
  have hn : pageAlignDown faultAddr % kVaSpan / kPageSize < kPageNumbers := hslot ▸ slotNo_lt _
  have hlook := h.lookup_eq hr hn
  rw [Mem.lookup_mod] at hlook
  -- a page that nobody used is mapped nowhere
  have hfresh {p : ℕ} (hlt : p < g.ram.numPages) (hp : g.own p = .nobody) (j : ℕ × ℕ) :
      (m.mem.slots roots j).target ≠ (faultEntry (g.ram.pageToPa p) v.perm).target := by
    rw [target_faultEntry hlt hleaf]
    intro he
    obtain ⟨q, -, heq, -, hq⟩ := h.frame_of_target he
    rw [← g.ram.pageToPa_injective heq, hp] at hq
    cases hq
  have hcow (p : ℕ) : ¬ (faultEntry (g.ram.pageToPa p) v.perm).Has pteCow := by
    rw [pteCow, Word.has_bit (by decide), faultEntry, (getLsbD_entry (by simp)).2,
      getLsbD_vmPermToPte]
    simp
  have hfault (hb : Books True other roots g m')
      (hnot : ¬ Served (m.mem.slots roots (sid, slotNo faultAddr)) cause)
      (hs : Faulted g (m.mem.slots roots) (m'.mem.slots roots)
        (sid, pageAlignDown faultAddr % kVaSpan / kPageSize) v.perm ret) :
      Books True other roots g m' ∧ HandledFault s.vmas sid faultAddr cause ret (m.mem.slots roots) (m'.mem.slots roots) := by
    refine ⟨hb, hs.imp (fun hno => ⟨hno.2, fun h₀ => absurd h₀ hno.1⟩) ?_⟩
    rintro ⟨p, hlt, hp, hs⟩
    rw [hslot] at hs
    refine ⟨_, hs, hfresh hlt hp, hcow p, ?_, hnot, v.tag, hmaps, (grants_vmPermToPte _).mapped _⟩
    rw [target_faultEntry hlt hleaf]
    exact Option.some_ne_none _
  rw [hslot] at hlook
  have hiscow := h.isCow_slot hr (pageAlignDown faultAddr)
  rw [show slotNo (pageAlignDown faultAddr) = slotNo faultAddr by rw [← hslot, page_mod]] at hiscow
  split at hres
  · rename_i pa hpa
    rw [hlook] at hpa
    have hmapped : (m.mem.slots roots (sid, slotNo faultAddr)).target ≠ none := by
      rw [hpa]
      exact Option.some_ne_none _
    split at hres
    · rename_i hc
      rw [← Machine.cowFault_mod] at hres
      obtain ⟨hb, hs⟩ := h.cowFault_spec hr hn (by rw [hslot]; exact hpa) hleaf hres
      exact hfault hb (fun hsv => hsv.2 hc.1 (hiscow.mp hc.2).2) hs
    · rename_i hc
      cases hres
      refine ⟨.of_ledger h, .inl ⟨rfl, fun _ => ⟨hmapped, fun hw hcow => ?_⟩⟩⟩
      exact hc ⟨hw, hiscow.mpr ⟨hmapped, hcow⟩⟩
  · rename_i hpa
    rw [hlook] at hpa
    rw [← Machine.demandFault_mod] at hres
    obtain ⟨hb, hs⟩ := h.demandFault_spec hr hn (by rw [hslot]; exact hpa) hleaf hres
    exact hfault hb (fun hsv => hsv.1 hpa) hs

end Ledger

end Lume
