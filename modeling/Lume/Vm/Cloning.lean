import Lume.Vm.SpaceOps

/-!
# Cloning an address space

The loops of `vmm_clone`, with the parent's pages shared one by one and marked copy-on-write. A
clone that fails destroys the child, which drops the references of the pages of the regions
already linked to it. The region being copied is not linked yet, so the pages of it that the
child had already mapped keep their extra reference: `CloneLeaks` says that this happens.

## Main definitions

* `Machine.CloneLeaks m s`: cloning `s` fails in the middle of a region
* `Cloned sid csid t clean σ σ'`: what cloning does to the slots
* `Twins sid csid t σ σ'`: the slots of the parent and of the child once cloning has succeeded

## Main results

* `Ledger.clone_spec`
-/

namespace Lume

open Function (update update_apply update_eq_self update_eq_self_iff update_idem update_of_ne update_self)

open Segs (Maps Sorted)

namespace Machine

/-- The loop of `vmm_clone` over the pages of a region fails after a page of it was mapped into
the child; `mapped` says whether one was mapped already. -/
def ClonePagesLeak (parentRoot childRoot : ℕ) (perm : Word) :
    Bool → List ℕ → Machine → Prop
  | _, [], _ => False
  | mapped, addr :: addrs, m =>
    match m.clonePage parentRoot childRoot perm addr with
    | (false, _) => mapped = true
    | (true, m') =>
      ClonePagesLeak parentRoot childRoot perm
        (mapped || (m.mem.lookup parentRoot addr).isSome) addrs m'

/-- The same for the loop over the regions. -/
def CloneLoopLeaks (parentRoot : ℕ) : List Vma → VmSpace → Machine → Prop
  | [], _, _ => False
  | v :: rest, child, m =>
    match m.draw with
    | (false, _) => False
    | (true, m) =>
      match clonePages parentRoot child.rootPa v.perm (pageAddrs v.start v.stop) m with
      | (false, _) =>
        ClonePagesLeak parentRoot child.rootPa v.perm false (pageAddrs v.start v.stop) m
      | (true, m') => CloneLoopLeaks parentRoot rest { child with vmas := Segs.add child.vmas v } m'

/-- `vmm_clone` fails in `pmap::map` on a page of a region after it has mapped an earlier page of
the same region. -/
def CloneLeaks (m : Machine) (parent : VmSpace) : Prop :=
  match m.createSpace with
  | (none, _) => False
  | (some child, m) =>
    CloneLoopLeaks parent.rootPa parent.vmas
      { child with brkStart := parent.brkStart, brkEnd := parent.brkEnd } m

end Machine

/-- What cloning `sid`, with regions `t`, as `csid` does to the slots; `clean` when no page is
lost because its region can be written only. -/
structure Cloned (sid csid : ℕ) (t T : List Vma) (clean : Prop) (σ σ' : ℕ × ℕ → Word) : Prop where
  parent : Covers t σ' sid
  child : Covers T σ' csid
  others : ∀ k, k.1 ≠ sid → k.1 ≠ csid → σ' k = σ k
  isolated : Isolated σ → Isolated σ'
  kept : clean → ∀ k, k.1 ≠ csid → (σ' k).target = (σ k).target

/-- What became of page number `n`, in a region with permission `x`, once it was shared: parent and
child map the same frame, and it is the old one unless the region can neither be read nor
executed. -/
structure Shares (sid csid : ℕ) (x : Word) (n : ℕ) (σ σ' : ℕ × ℕ → Word) : Prop where
  same : (σ' (csid, n)).target = (σ' (sid, n)).target
  kept : Ledger.Readable x → (σ' (sid, n)).target = (σ (sid, n)).target
  lost : ¬ Ledger.Readable x → (σ' (sid, n)).target = none

/-- The slots after `sid`, with regions `t`, was cloned as `csid` with success. -/
structure Twins (sid csid : ℕ) (t : List Vma) (σ σ' : ℕ × ℕ → Word) : Prop where
  shares : ∀ n x, Maps t (n * kPageSize) x → Shares sid csid x n σ σ'
  parent : ∀ n, (∀ x, ¬ Maps t (n * kPageSize) x) → σ' (sid, n) = σ (sid, n)
  child : ∀ n, (∀ x, ¬ Maps t (n * kPageSize) x) → (σ' (csid, n)).target = none

theorem Isolated.clone {σ : ℕ × ℕ → Word} {sid csid n : ℕ} {wp wc : Word} (h : Isolated σ)
    (hne : csid ≠ sid) (hwp : wp.target = none ∨ wp.target = (σ (sid, n)).target)
    (hwc : wc.target = none ∨ wc.target = (σ (sid, n)).target)
    (hp : wp.target ≠ none → wp.getLsbD 2 = false) (hc : wc.target ≠ none → wc.getLsbD 2 = false) :
    Isolated (update (update σ (sid, n) wp) (csid, n) wc) := by
  have hcp : (csid, n) ≠ (sid, n) := by simp [hne]
  have hval (k : ℕ × ℕ) : update (update σ (sid, n) wp) (csid, n) wc k =
      if k = (csid, n) then wc else if k = (sid, n) then wp else σ k := by
    simp only [update_apply]
  intro k k' hkk ht he
  rw [hval] at ht he ⊢
  rw [hval] at he
  split at ht
  · rename_i hk
    rw [if_pos hk]
    exact hc ht
  split at ht
  · rename_i hk₁ hk₂
    rw [if_neg hk₁, if_pos hk₂]
    exact hp ht
  rename_i hk₁ hk₂
  rw [if_neg hk₁, if_neg hk₂] at he ⊢
  split at he
  · exact h k _ hk₂ ht (he.trans (hwc.resolve_left (he ▸ ht)))
  split at he
  · exact h k _ hk₂ ht (he.trans (hwp.resolve_left (he ▸ ht)))
  · exact h k k' hkk ht he

theorem RegionInv.sublist {hi : ℕ} {t t' : List Vma} (h : RegionInv hi t) (hs : t'.Sublist t) :
    RegionInv hi t' :=
  ⟨h.sorted.sublist hs, fun v hv => h.aligned v (hs.subset hv),
    fun v hv => h.bounds v (hs.subset hv)⟩

theorem Covers.mono {t T : List Vma} {σ : ℕ × ℕ → Word} {sid : ℕ} (h : Covers t σ sid)
    (hsub : t ⊆ T) : Covers T σ sid := by
  intro n hn ht
  obtain ⟨x, ⟨v, hv, hx⟩, hg⟩ := h n hn ht
  exact ⟨x, ⟨v, hsub hv, hx⟩, hg⟩

theorem Cloned.kill {sid csid : ℕ} {t T : List Vma} {clean : Prop} {σ : ℕ × ℕ → Word} {mem : Mem}
    {roots : Roots} (h : Cloned sid csid t T clean σ (mem.slots roots)) (hne : csid ≠ sid)
    (T' : List Vma) : Cloned sid csid t T' clean σ (mem.slots (update roots csid none)) := by
  have hcleared : Cleared csid [] (mem.slots roots)
      (mem.slots (update roots csid none)) := by
    refine ⟨fun k => ?_, by simp⟩
    rw [Ledger.slots_kill]
    split
    · rename_i hk
      exact .inr ⟨hk, Word.target_zero⟩
    · exact .inl rfl
  refine ⟨hcleared.covers_of_ne hne.symm h.parent, fun n _ ht => ?_, fun k h₁ h₂ => ?_,
    fun hi => hcleared.isolated (h.isolated hi), fun hc k hk => ?_⟩
  · rw [Ledger.slots_kill, if_pos rfl] at ht
    exact absurd Word.target_zero ht
  · rw [Ledger.slots_kill, if_neg h₂]
    exact h.others k h₁ h₂
  · rw [Ledger.slots_kill, if_neg hk]
    exact h.kept hc k hk

namespace Ledger

variable {m m' : Machine} {other : List Block} {roots : Roots} {g g₀ : Ghost}
  {sid csid root croot hi : ℕ} {t T : List Vma} {mem₀ : Mem}
  {σ : ℕ × ℕ → Word} {clean good : Prop}

/-- The loops of `vmm_clone` after the pages in `done` were shared, all of them with success if
`good`. -/
structure Cloning (other : List Block) (roots : Roots) (g₀ : Ghost) (mem₀ : Mem) (σ : ℕ × ℕ → Word)
    (sid csid : ℕ) (t T : List Vma) (clean good : Prop) (done : List ℕ) (m : Machine) (g : Ghost) :
    Prop where
  ledger : Ledger m other roots g
  kin : g₀.Kin g
  debt : clean → ∀ p, g.debt p ≤ g₀.debt p
  cloned : Cloned sid csid t T clean σ (m.mem.slots roots)
  todo : ∀ n, n * kPageSize ∉ done → (m.mem.slots roots (csid, n)).target = none
  count : ∀ n, n * kPageSize ∉ done → ∀ p,
    g.ram.frameOf (m.mem.slots roots (sid, n)) = some p → (m.pmm.pageMap p).refcount < 2 ^ 32 - 1
  ahead : ∀ n, n * kPageSize ∉ done → m.mem.slots roots (sid, n) = σ (sid, n)
  shares : good → ∀ n, n * kPageSize ∈ done → ∀ x, Maps t (n * kPageSize) x →
    Shares sid csid x n σ (m.mem.slots roots)
  contents : clean → ∀ k pa, k.1 ≠ csid → (σ k).target = some pa → m.mem pa = mem₀ pa

theorem Cloning.step {done : List ℕ} {n : ℕ} {perm : Word} {ok : Bool}
    (h : Cloning other roots g₀ mem₀ σ sid csid t T clean good done m g) (hr : roots sid = some root)
    (hrc : roots csid = some croot) (hne : csid ≠ sid) (hn : n < kPageNumbers)
    (hdone : n * kPageSize ∉ done) (ht : Sorted t) (hmap : Maps t (n * kPageSize) perm)
    (hmap' : Maps T (n * kPageSize) perm)
    (hclean : clean → (m.mem.slots roots (sid, n)).target ≠ none → Readable perm)
    (hres : m.clonePage root croot perm (n * kPageSize) = (ok, m')) :
    (∃ g', Cloning other roots g₀ mem₀ σ sid csid t T clean (good ∧ ok = true)
        (n * kPageSize :: done) m' g') ∧
      (∀ j, j ≠ n → m'.mem.slots roots (csid, j) = m.mem.slots roots (csid, j)) ∧
      (ok = false → (m'.mem.slots roots (csid, n)).target = none) := by
  have hdiv : n * kPageSize / kPageSize = n := Nat.mul_div_cancel _ (by decide)
  have hgrants (hk : (m.mem.slots roots (sid, n)).target ≠ none) :
      Grants (m.mem.slots roots (sid, n)) perm := by
    obtain ⟨x, hx, hg⟩ := h.cloned.parent n hn hk
    rwa [hx.unique ht hmap] at hg
  obtain ⟨⟨g', h', hkin, hdebt⟩, hkeep, hrefs, wp, wc, hs, hwp, hwp', hlost, hgp, hwc, hfail, htwin,
      hgc⟩ :=
    h.ledger.clonePage_spec hr hrc hne (by rwa [hdiv]) (by rw [hdiv])
      (by rw [hdiv]; exact h.todo n hdone) hgrants (h.count n hdone) hres
  rw [hdiv] at hs
  have hcp : (csid, n) ≠ (sid, n) := by simp [hne]
  have hchild (j : ℕ) : m'.mem.slots roots (csid, j) =
      if j = n then wc else m.mem.slots roots (csid, j) := by
    rw [hs]
    by_cases hj : j = n
    · subst hj
      simp
    · simp [hj, hne]
  have hparent (j : ℕ) : m'.mem.slots roots (sid, j) =
      if j = n then wp else m.mem.slots roots (sid, j) := by
    rw [hs, update_of_ne (by simp [hne.symm])]
    by_cases hj : j = n
    · subst hj
      simp
    · simp [hj]
  have hother (k : ℕ × ℕ) (h₁ : k.1 ≠ sid) (h₂ : k.1 ≠ csid) :
      m'.mem.slots roots k = m.mem.slots roots k := by
    rw [hs, update_of_ne (fun he => h₂ (by rw [he])),
      update_of_ne (fun he => h₁ (by rw [he]))]
  refine ⟨⟨g', h', h.kin.trans hkin, fun hc p => (hdebt (hclean hc) p).trans (h.debt hc p),
    ⟨?_, ?_, fun k h₁ h₂ => (hother k h₁ h₂).trans (h.cloned.others k h₁ h₂), fun hi => ?_,
      fun hc k hk => ?_⟩, fun j hj => ?_, fun j hj p hp => ?_, fun j hj => ?_,
      fun hgood j hj x hx => ?_, fun hc k pa hk hpa => ?_⟩,
    fun j hj => by rw [hchild, if_neg hj], fun hok => by rw [hchild, if_pos rfl, hfail hok]⟩
  · rw [hs]
    refine (h.cloned.parent.update fun hw => ⟨perm, hmap, (hgp hw).1⟩).update_of_ne hne.symm
  · rw [hs]
    exact (h.cloned.child.update_of_ne hne).update fun hw => ⟨perm, hmap', (hgc hw).1⟩
  · rw [hs]
    exact (h.cloned.isolated hi).clone hne hwp hwc (fun hw => (hgp hw).2) fun hw => (hgc hw).2
  · rw [← h.cloned.kept hc k hk]
    by_cases hsid : k.1 = sid
    · obtain ⟨sid, j⟩ := k
      obtain rfl : _ = sid := hsid.symm
      rw [hparent]
      split
      · rename_i he
        subst he
        by_cases hold : (m.mem.slots roots (sid, j)).target = none
        · rw [hold] at hwp ⊢
          exact hwp.elim id id
        · exact hwp' (hclean hc hold)
      · rfl
    · rw [hother k hsid hk]
  · have hjn : j ≠ n := fun he => hj (by rw [he]; exact List.mem_cons_self ..)
    rw [hchild, if_neg hjn]
    exact h.todo j fun hin => hj (List.mem_cons_of_mem _ hin)
  · have hjn : j ≠ n := fun he => hj (by rw [he]; exact List.mem_cons_self ..)
    rw [hkin.ram_eq, hparent, if_neg hjn] at hp
    -- the frame of another page is another frame, whose count has not changed
    rw [hrefs p (h.ledger.refs.alive _ _ hp) fun he =>
      hjn (h.ledger.same_page (sid, j) (sid, n) p hp he)]
    exact h.count j (fun hin => hj (List.mem_cons_of_mem _ hin)) p hp
  · have hjn : j ≠ n := fun he => hj (by rw [he]; exact List.mem_cons_self ..)
    rw [hparent, if_neg hjn]
    exact h.ahead j fun hin => hj (List.mem_cons_of_mem _ hin)
  · by_cases hjn : j = n
    · subst hjn
      obtain rfl := hx.unique ht hmap
      refine ⟨?_, fun hread => ?_, fun hread => ?_⟩
      · rw [hchild, hparent, if_pos rfl, if_pos rfl, htwin hgood.2]
      · rw [hparent, if_pos rfl, hwp' hread, h.ahead j hdone]
      · rw [hparent, if_pos rfl, hlost hread]
    · have hin : j * kPageSize ∈ done := by
        refine (List.mem_cons.mp hj).resolve_left fun he => hjn ?_
        exact Nat.eq_of_mul_eq_mul_right (by decide) he
      obtain ⟨hsame, hkept, hnone⟩ := h.shares hgood.1 j hin x hx
      refine ⟨?_, fun hread => ?_, fun hread => ?_⟩
      · rw [hchild, hparent, if_neg hjn, if_neg hjn, hsame]
      · rw [hparent, if_neg hjn, hkept hread]
      · rw [hparent, if_neg hjn, hnone hread]
  · -- a page that is not lost is still a frame
    have hnow : (m.mem.slots roots k).target = some pa := by rw [h.cloned.kept hc k hk, hpa]
    obtain ⟨q, -, rfl, -, hq⟩ := h.ledger.frame_of_target hnow
    rw [hkeep q hq, h.contents hc k _ hk hpa]

theorem Cloning.weaken {done : List ℕ} {good' : Prop}
    (h : Cloning other roots g₀ mem₀ σ sid csid t T clean good done m g) (hgood : good' → good) :
    Cloning other roots g₀ mem₀ σ sid csid t T clean good' done m g :=
  { h with shares := fun hg => h.shares (hgood hg) }

theorem Cloning.pages {done : List ℕ} {v : Vma} {addrs : List ℕ} {ok : Bool} (mapped : Bool)
    (h : Cloning other roots g₀ mem₀ σ sid csid t T clean good done m g) (hr : roots sid = some root)
    (hrc : roots csid = some croot) (hne : csid ≠ sid) (ht : Sorted t) (hvt : v ∈ t) (hvT : v ∈ T)
    (hnd : addrs.Nodup) (hdone : ∀ a ∈ addrs, a ∉ done)
    (hin : ∀ a ∈ addrs, kPageSize ∣ a ∧ a / kPageSize < kPageNumbers ∧ a ∈ v)
    (hclean : clean → ∀ n, n * kPageSize ∈ v → (σ (sid, n)).target ≠ none → Readable v.perm)
    (hres : Machine.clonePages root croot v.perm addrs m = (ok, m')) :
    (∃ g' done', Cloning other roots g₀ mem₀ σ sid csid t T clean (good ∧ ok = true) done' m' g' ∧
      (∀ a ∈ done', a ∈ done ∨ a ∈ addrs) ∧ (ok = true → ∀ a, a ∈ done ∨ a ∈ addrs → a ∈ done')) ∧
      (ok = false → ¬ Machine.ClonePagesLeak root croot v.perm mapped addrs m →
        mapped = false ∧ ∀ n, (m'.mem.slots roots (csid, n)).target =
          (m.mem.slots roots (csid, n)).target) := by
  induction addrs generalizing m g done mapped good with
  | nil =>
    cases hres
    exact ⟨⟨g, done, h.weaken fun hgood => hgood.1, fun a ha => .inl ha, by simp⟩, by simp⟩
  | cons a addrs ih =>
    obtain ⟨hnot, hnd'⟩ := List.nodup_cons.mp hnd
    obtain ⟨⟨n, rfl⟩, hn, hav⟩ := hin a (List.mem_cons_self ..)
    rw [Nat.mul_div_cancel_left n (by decide)] at hn
    rw [Nat.mul_comm] at hav hnot hres hdone ⊢
    have hnd₀ := hdone _ (List.mem_cons_self ..)
    rw [Machine.clonePages] at hres
    rw [Machine.ClonePagesLeak]
    cases hpage : m.clonePage root croot v.perm (n * kPageSize) with
    | mk ok₁ m₁ =>
    obtain ⟨⟨g₁, h₁⟩, hkeep, hfail⟩ := h.step hr hrc hne hn hnd₀ ht (Segs.maps_of_mem hvt hav)
      (Segs.maps_of_mem hvT hav) (fun hc hk => hclean hc n hav (by
        rwa [← h.cloned.kept hc (sid, n) hne.symm])) hpage
    rw [hpage] at hres
    cases ok₁ with
    | false =>
      cases hres
      refine ⟨⟨g₁, _, h₁, fun a ha => ?_, nofun⟩,
        fun _ hleak => ⟨by simpa using hleak, fun j => ?_⟩⟩
      · rcases List.mem_cons.mp ha with rfl | ha
        · exact .inr (List.mem_cons_self ..)
        · exact .inl ha
      · by_cases hj : j = n
        · subst hj
          rw [hfail rfl, h.todo j hnd₀]
        · rw [hkeep j hj]
    | true =>
      have hdone₁ : ∀ a ∈ addrs, a ∉ n * kPageSize :: done := fun a ha hmem => by
        rcases List.mem_cons.mp hmem with rfl | hmem
        · exact hnot ha
        · exact hdone a (List.mem_cons_of_mem _ ha) hmem
      obtain ⟨⟨g₂, done', h₂, hd₂, hall₂⟩, hleak₂⟩ := ih (mapped ||
          (m.mem.lookup root (n * kPageSize)).isSome) h₁ hnd' hdone₁
        (fun a ha => hin a (List.mem_cons_of_mem _ ha)) hres
      refine ⟨⟨g₂, done', h₂.weaken fun hgood => ⟨⟨hgood.1, rfl⟩, hgood.2⟩, fun a ha => ?_,
        fun hok a ha => hall₂ hok a ?_⟩, fun hok hleak => ?_⟩
      · rcases hd₂ a ha with ha | ha
        · rcases List.mem_cons.mp ha with rfl | ha
          · exact .inr (List.mem_cons_self ..)
          · exact .inl ha
        · exact .inr (List.mem_cons_of_mem _ ha)
      · rcases ha with ha | ha
        · exact .inl (List.mem_cons_of_mem _ ha)
        · rcases List.mem_cons.mp ha with rfl | ha
          · exact .inl (List.mem_cons_self ..)
          · exact .inr ha
      · obtain ⟨hmapped, hsame⟩ := hleak₂ hok hleak
        obtain ⟨hm, hnone⟩ := Bool.or_eq_false_iff.mp hmapped
        have hnone : m.mem.lookup root (n * kPageSize) = none := by simpa using hnone
        -- an unmapped page is skipped
        rw [Machine.clonePage, hnone] at hpage
        cases hpage
        exact ⟨hm, hsame⟩

theorem Cloning.abort {done : List ℕ} {child : VmSpace} {clean' : Prop}
    (h : Cloning other roots g₀ mem₀ σ sid csid t T clean good done m g) (hd : g₀.dying = none)
    (hrc : roots csid = some child.rootPa) (hne : csid ≠ sid)
    (hhi : hi ≤ kPageNumbers * kPageSize) (hv : RegionInv hi child.vmas)
    (hcov : clean' → clean ∧ ∀ n < kPageNumbers, (m.mem.slots roots (csid, n)).target ≠ none →
      ∃ v ∈ child.vmas, n * kPageSize ∈ v) :
    Books clean' other (update roots csid none) g₀ (m.destroySpace child) ∧
      Cloned sid csid t t clean σ ((m.destroySpace child).mem.slots (update roots csid none)) := by
  obtain ⟨hmem, g', h', hkin, -, hdebt⟩ :=
    h.ledger.destroySpace_spec (h.kin.dying_eq.trans hd) hrc hhi hv
  refine ⟨⟨g', h', h.kin.trans hkin, fun hc p => ?_⟩, ?_⟩
  · exact (hdebt (hcov hc).2 p).trans (h.debt (hcov hc).1 p)
  rw [hmem]
  exact h.cloned.kill hne t

theorem Cloning.next {done : List ℕ} {rest : List Vma} {v : Vma}
    (h : Cloning other roots g₀ mem₀ σ sid csid t T clean good done m g)
    (hhi : hi ≤ kPageNumbers * kPageSize) (hv : RegionInv hi t) (hsplit : T ++ v :: rest = t)
    (hdone : ∀ a ∈ done, ∃ u ∈ T, a ∈ u) : v ∈ t ∧ Segs.add T v = T ++ [v] ∧
      Cloning other roots g₀ mem₀ σ sid csid t (T ++ [v]) clean good done m g ∧
      (∀ a ∈ pageAddrs v.start v.stop, a ∉ done) ∧ ∀ a ∈ pageAddrs v.start v.stop,
        kPageSize ∣ a ∧ a / kPageSize < kPageNumbers ∧ a ∈ v := by
  have hvt : v ∈ t := hsplit ▸ List.mem_append_right _ (List.mem_cons_self ..)
  have hprev : RegionInv hi T := hv.sublist (hsplit ▸ List.sublist_append_left ..)
  have hlater : ∀ u ∈ T, u.stop ≤ v.start := fun u hu =>
    (List.pairwise_append.mp (hsplit ▸ hv.sorted.apart)).2.2 u hu v (List.mem_cons_self ..)
  have hpages (a : ℕ) (ha : a ∈ pageAddrs v.start v.stop) :
      kPageSize ∣ a ∧ a / kPageSize < kPageNumbers ∧ a ∈ v := by
    obtain ⟨hdvd, hlo, hup⟩ := (mem_pageAddrs (hv.aligned v hvt).1 (hv.aligned v hvt).2).mp ha
    have hstop := (hv.bounds v hvt).2
    exact ⟨hdvd, Nat.div_lt_of_lt_mul (by rw [Nat.mul_comm]; omega), hlo, hup⟩
  refine ⟨hvt, Segs.add_eq_append fun u hu => ?_, ⟨h.ledger, h.kin, h.debt, ⟨h.cloned.parent,
    h.cloned.child.mono (List.subset_append_left ..), h.cloned.others, h.cloned.isolated,
    h.cloned.kept⟩, h.todo, h.count, h.ahead, h.shares, h.contents⟩, fun a ha hin => ?_, hpages⟩
  · have := hlater u hu
    have := hprev.sorted.nonempty u hu
    omega
  · obtain ⟨u, hu, -, hup⟩ := hdone a hin
    have hlo := (hpages a ha).2.2.1
    have := hlater u hu
    omega

theorem Cloning.region {done : List ℕ} {rest : List Vma} {v : Vma} {ok : Bool}
    (h : Cloning other roots g₀ mem₀ σ sid csid t T clean good done m g)
    (hr : roots sid = some root) (hrc : roots csid = some croot) (hne : csid ≠ sid)
    (hhi : hi ≤ kPageNumbers * kPageSize) (hv : RegionInv hi t)
    (hsplit : T ++ v :: rest = t) (hdone : ∀ a ∈ done, ∃ u ∈ T, a ∈ u)
    (hclean : clean → ∀ v ∈ t, ∀ n, n * kPageSize ∈ v → (σ (sid, n)).target ≠ none →
      Readable v.perm)
    (hres : Machine.clonePages root croot v.perm (pageAddrs v.start v.stop) m = (ok, m')) :
    (∃ g' done', Cloning other roots g₀ mem₀ σ sid csid t (T ++ [v]) clean (good ∧ ok = true) done'
        m' g' ∧ (∀ a ∈ done', ∃ u ∈ T ++ [v], a ∈ u) ∧
        (ok = true → ∀ a, a ∈ done ∨ a ∈ pageAddrs v.start v.stop → a ∈ done')) ∧
      (ok = false → ¬ Machine.ClonePagesLeak root croot v.perm false
          (pageAddrs v.start v.stop) m → ∀ n, (m'.mem.slots roots (csid, n)).target =
          (m.mem.slots roots (csid, n)).target) := by
  obtain ⟨hvt, -, hmore, hfresh, hpages⟩ := h.next hhi hv hsplit hdone
  obtain ⟨⟨g', done', h', hdone', hall⟩, hleak⟩ := hmore.pages false hr hrc hne hv.sorted hvt
    (List.mem_append_right _ (List.mem_cons_self ..)) (nodup_pageAddrs ..) hfresh hpages
    (fun hc => hclean hc v hvt) hres
  refine ⟨⟨g', done', h', fun a ha => ?_, hall⟩, fun hok hno => (hleak hok hno).2⟩
  rcases hdone' a ha with ha | ha
  · obtain ⟨u, hu, hin⟩ := hdone a ha
    exact ⟨u, List.mem_append_left _ hu, hin⟩
  · exact ⟨v, List.mem_append_right _ (List.mem_cons_self ..), (hpages a ha).2.2⟩

theorem Cloning.draw {done : List ℕ} {ok : Bool}
    (h : Cloning other roots g₀ mem₀ σ sid csid t T clean good done m g) (hdraw : m.draw = (ok, m')) :
    Cloning other roots g₀ mem₀ σ sid csid t T clean good done m' g := by
  obtain ⟨luck, rfl⟩ := draw_eq hdraw
  exact { h with ledger := h.ledger.congr rfl rfl h.ledger.cpu_lt }

theorem Cloning.twins {done : List ℕ}
    (h : Cloning other roots g₀ mem₀ σ sid csid t t clean good done m g) (hgood : good)
    (hdone : ∀ a ∈ done, ∃ u ∈ t, a ∈ u)
    (hall : ∀ v ∈ t, ∀ n, n * kPageSize ∈ v → n * kPageSize ∈ done) :
    Twins sid csid t σ (m.mem.slots roots) := by
  have hout {n : ℕ} (hno : ∀ x, ¬ Maps t (n * kPageSize) x) : n * kPageSize ∉ done := by
    intro hin
    obtain ⟨u, hu, hmem⟩ := hdone _ hin
    exact hno _ (Segs.maps_of_mem hu hmem)
  refine ⟨fun n x hx => ?_, fun n hno => h.ahead n (hout hno), fun n hno => h.todo n (hout hno)⟩
  obtain ⟨v, hv, hin, -⟩ := id hx
  exact h.shares hgood n (hall v hv n hin) x hx

theorem Cloning.loop {done : List ℕ} {rest : List Vma} {child : VmSpace} {r : Option VmSpace}
    (h : Cloning other roots g₀ mem₀ σ sid csid t child.vmas clean True done m g)
    (hd : g₀.dying = none)
    (hr : roots sid = some root) (hrc : roots csid = some child.rootPa) (hne : csid ≠ sid)
    (hhi : hi ≤ kPageNumbers * kPageSize) (hv : RegionInv hi t) (hsplit : child.vmas ++ rest = t)
    (hdone : ∀ a ∈ done, ∃ u ∈ child.vmas, a ∈ u)
    (hall : ∀ v ∈ child.vmas, ∀ n, n * kPageSize ∈ v → n * kPageSize ∈ done)
    (hclean : clean → ∀ v ∈ t, ∀ n, n * kPageSize ∈ v → (σ (sid, n)).target ≠ none →
      Readable v.perm) (hres : Machine.cloneLoop root rest child m = (r, m')) :
    Books (clean ∧ ¬ Machine.CloneLoopLeaks root rest child m) other
        (update roots csid (r.map (·.rootPa))) g₀ m' ∧ Cloned sid csid t t clean σ
        (m'.mem.slots (update roots csid (r.map (·.rootPa)))) ∧ (r ≠ none → Twins sid csid t σ
        (m'.mem.slots (update roots csid (r.map (·.rootPa)))) ∧
        (clean → ∀ k pa, k.1 ≠ csid → (σ k).target = some pa → m'.mem pa = mem₀ pa)) := by
  induction rest generalizing m g done child with
  | nil =>
    cases hres
    rw [List.append_nil] at hsplit
    rw [Option.map_some, ← hrc, update_eq_self, ← hsplit]
    rw [← hsplit] at h
    exact ⟨⟨g, h.ledger, h.kin, fun hc => h.debt hc.1⟩, h.cloned,
      fun _ => ⟨h.twins trivial hdone hall, h.contents⟩⟩
  | cons v rest ih =>
    have hprev : RegionInv hi child.vmas := hv.sublist (hsplit ▸ List.sublist_append_left ..)
    rw [Machine.cloneLoop] at hres
    rw [Machine.CloneLoopLeaks]
    cases hdraw : m.draw with
    | mk ok₁ m₁ =>
    have h₁ := h.draw hdraw
    have hcov : ∀ n < kPageNumbers, (m₁.mem.slots roots (csid, n)).target ≠ none →
        ∃ u ∈ child.vmas, n * kPageSize ∈ u := fun n hn ht => by
      obtain ⟨x, ⟨u, hu, hin, -⟩, -⟩ := h₁.cloned.child n hn ht
      exact ⟨u, hu, hin⟩
    rw [hdraw] at hres
    cases ok₁ with
    | false =>
      -- no memory for the region
      cases hres
      refine and_assoc.mp ⟨?_, fun hno => absurd rfl hno⟩
      exact h₁.abort hd hrc hne hhi hprev fun hc => ⟨hc.1, hcov⟩
    | true =>
    dsimp only at hres ⊢
    cases hcopy : Machine.clonePages root child.rootPa v.perm (pageAddrs v.start v.stop) m₁ with
    | mk ok₂ m₂ =>
    obtain ⟨hvt, hadd, -⟩ := h₁.next hhi hv hsplit hdone
    obtain ⟨⟨g₂, done₂, h₂, hdone₂, hall₂⟩, hleak⟩ :=
      h₁.region hr hrc hne hhi hv hsplit hdone hclean hcopy
    rw [hcopy] at hres
    cases ok₂ with
    | false =>
      -- no memory for a table; unless an earlier page of the region was mapped, the child maps
      -- what it did before
      cases hres
      refine and_assoc.mp ⟨?_, fun hno => absurd rfl hno⟩
      refine h₂.abort hd hrc hne hhi hprev fun hc => ⟨hc.1, fun n hn ht => hcov n hn ?_⟩
      rwa [← hleak rfl hc.2 n]
    | true =>
      dsimp only at hres ⊢
      rw [hadd] at hres ⊢
      refine ih (h₂.weaken fun _ => ⟨trivial, rfl⟩) hrc (by rw [← hsplit]; simp) hdone₂ ?_ hres
      intro u hu n hin
      refine hall₂ rfl _ ?_
      rcases List.mem_append.mp hu with hu | hu
      · exact .inl (hall u hu n hin)
      · rw [List.mem_singleton.mp hu] at hin
        exact .inr ((mem_pageAddrs (hv.aligned v hvt).1 (hv.aligned v hvt).2).mpr
          ⟨Nat.dvd_mul_left .., hin.1, hin.2⟩)

theorem Cloning.start {s child : VmSpace} (h : Ledger m other roots g) (hd : g.dying = none)
    (hnew : roots csid = none) (hcov : Covers s.vmas (m.mem.slots roots) sid)
    (hcount : ∀ n p, g.ram.frameOf (m.mem.slots roots (sid, n)) = some p →
      (m.pmm.pageMap p).refcount < 2 ^ 32 - 1) (hcreate : m.createSpace = (some child, m')) :
    child.vmas = [] ∧ ∃ g', Cloning other (update roots csid (some child.rootPa)) g
      m.mem (m.mem.slots roots) sid csid s.vmas [] clean True [] m' g' := by
  have hzero (n : ℕ) : (m.mem.slots roots (csid, n)).target = none := by
    simp only [Mem.slots, hnew, ite_self]
    exact Word.target_zero
  obtain ⟨hnil, hs, hkeep, g', h', hkin, hsame⟩ := h.createSpace_spec hd hnew hcreate
  refine ⟨hnil, g', h', hkin, fun _ p => (hsame.debt_eq p).le, ?_,
    fun n _ => by rw [hs]; exact hzero n, fun n _ p hp => ?_, fun n _ => by rw [hs], by simp,
    fun _ k pa _ hpa => ?_⟩
  · rw [hs]
    exact ⟨hcov, fun n _ ht => absurd (hzero n) ht, fun _ _ _ => rfl, id, fun _ _ _ => rfl⟩
  · rw [hs, hkin.ram_eq] at hp
    have hlive := h.refs.alive _ _ hp
    rw [refcount_eq h h' hkin.ram_eq hlive ((hsame.own_iff p).mpr hlive)
      (hsame.leak_eq p hlive) hs]
    exact hcount n p hp
  · obtain ⟨q, -, rfl, -, hq⟩ := h.frame_of_target hpa
    exact hkeep q hq

/-- **`vmm_clone`** -/
theorem clone_spec {s : VmSpace} {r : Option VmSpace} (h : Ledger m other roots g)
    (hd : g.dying = none) (hr : roots sid = some s.rootPa) (hnew : roots csid = none)
    (hhi : hi ≤ kPageNumbers * kPageSize) (hv : RegionInv hi s.vmas)
    (hcov : Covers s.vmas (m.mem.slots roots) sid)
    (hcount : ∀ n p, g.ram.frameOf (m.mem.slots roots (sid, n)) = some p →
      (m.pmm.pageMap p).refcount < 2 ^ 32 - 1)
    (hclean : clean → ∀ v ∈ s.vmas, ∀ n, n * kPageSize ∈ v →
      (m.mem.slots roots (sid, n)).target ≠ none → Readable v.perm) (hres : m.clone s = (r, m')) :
    Books (clean ∧ ¬ m.CloneLeaks s) other (update roots csid (r.map (·.rootPa))) g m' ∧
      Cloned sid csid s.vmas s.vmas clean (m.mem.slots roots)
        (m'.mem.slots (update roots csid (r.map (·.rootPa)))) ∧
      (r ≠ none → Twins sid csid s.vmas (m.mem.slots roots)
        (m'.mem.slots (update roots csid (r.map (·.rootPa)))) ∧
        (clean → ∀ k pa, k.1 ≠ csid → (m.mem.slots roots k).target = some pa →
          m'.mem pa = m.mem pa)) := by
  have hne : csid ≠ sid := by
    rintro rfl
    rw [hnew] at hr
    cases hr
  rw [Machine.clone] at hres
  rw [Machine.CloneLeaks]
  cases hcreate : m.createSpace with
  | mk c m₁ =>
  rw [hcreate] at hres
  cases c with
  | none =>
    obtain ⟨hmem, h₁⟩ := h.createSpace_spec hd hnew hcreate
    cases hres
    have hroots : update roots csid (Option.map VmSpace.rootPa none) = roots :=
      update_eq_self_iff.mpr hnew.symm
    have hzero (n : ℕ) : (m.mem.slots roots (csid, n)).target = none := by
      simp only [Mem.slots, hnew, ite_self]
      exact Word.target_zero
    rw [hroots, hmem]
    exact ⟨.of_ledger h₁, ⟨hcov, fun n _ ht => absurd (hzero n) ht, fun _ _ _ => rfl, id,
      fun _ _ _ => rfl⟩, fun hno => absurd rfl hno⟩
  | some child =>
    obtain ⟨hnil, g₁, hcloning⟩ := Cloning.start h hd hnew hcov hcount hcreate
    have hroot : update roots csid (some child.rootPa) sid = some s.rootPa := by
      rwa [update_of_ne hne.symm]
    obtain ⟨c, hc⟩ : ∃ c : VmSpace, { child with brkStart := s.brkStart, brkEnd := s.brkEnd } = c :=
      ⟨_, rfl⟩
    have hcroot : c.rootPa = child.rootPa := by rw [← hc]
    have hcvmas : c.vmas = [] := by rw [← hc, ← hnil]
    dsimp only at hres ⊢
    rw [hc] at hres ⊢
    rw [← hcroot] at hcloning hroot
    rw [← hcvmas] at hcloning
    have hloop := hcloning.loop hd hroot (update_self ..) hne hhi hv
      (by simp [hcvmas]) (by simp) (by simp [hcvmas]) hclean hres
    rwa [update_idem] at hloop

end Ledger

end Lume
