import Lume.Vm.Regions
import Mathlib.Data.List.Nodup
import Mathlib.Data.List.Flatten

/-!
# The pages that the loops visit

The loops of `mm/vma.cc` over regions and over the pages of a region, read as one loop over a
list of page addresses. What they do to the machine is then what their body does, page by page.

## Main definitions

* `vmaPages t`: the pages of the regions, in the order in which the loops visit them

## Main results

* `mem_vmaPages`, `nodup_vmaPages`: each page of a region is visited once
* `mapUser_machine`, `protectUser_machine`, `unmapUser_machine`, `destroySpace_eq`: the loops
-/

namespace Lume

open Segs (Maps Sorted)

/-! ## Pages of regions -/

theorem mem_pageAddrs {start stop a : ℕ} (hs : kPageSize ∣ start) (he : kPageSize ∣ stop) :
    a ∈ pageAddrs start stop ↔ kPageSize ∣ a ∧ start ≤ a ∧ a < stop := by
  obtain ⟨i, rfl⟩ := hs
  obtain ⟨j, rfl⟩ := he
  simp only [pageAddrs, List.mem_map, List.mem_range, kPageSize]
  constructor
  · rintro ⟨k, hk, rfl⟩
    exact ⟨⟨i + k, by ring⟩, by omega, by omega⟩
  · rintro ⟨⟨k, rfl⟩, hlo, hhi⟩
    exact ⟨k - i, by omega, by omega⟩

theorem nodup_pageAddrs (start stop : ℕ) : (pageAddrs start stop).Nodup := by
  refine (List.nodup_range).map fun i j h => ?_
  simp only [kPageSize] at h
  omega

/-- The pages of the regions, region by region. -/
def vmaPages (t : List Vma) : List ℕ := t.flatMap fun v => pageAddrs v.start v.stop

section Pages

variable {hi a : ℕ} {t : List Vma}

theorem mem_vmaPages (hal : ∀ v ∈ t, kPageSize ∣ v.start ∧ kPageSize ∣ v.stop) :
    a ∈ vmaPages t ↔ kPageSize ∣ a ∧ ∃ v ∈ t, a ∈ v := by
  simp only [vmaPages, List.mem_flatMap]
  constructor
  · rintro ⟨v, hv, ha⟩
    obtain ⟨hd, hin⟩ := (mem_pageAddrs (hal v hv).1 (hal v hv).2).mp ha
    exact ⟨hd, v, hv, hin⟩
  · rintro ⟨hd, v, hv, hin⟩
    exact ⟨v, hv, (mem_pageAddrs (hal v hv).1 (hal v hv).2).mpr ⟨hd, hin⟩⟩

theorem nodup_vmaPages (h : RegionInv hi t) : (vmaPages t).Nodup := by
  refine List.nodup_flatMap.mpr ⟨fun v _ => nodup_pageAddrs .., ?_⟩
  have hapart := h.sorted.apart
  have hal := h.aligned
  clear h
  induction t with
  | nil => exact .nil
  | cons v t ih =>
    obtain ⟨hfirst, hrest⟩ := List.pairwise_cons.mp hapart
    refine .cons (fun u hu a ha ha' => ?_) (ih hrest fun u hu => hal u (List.mem_cons_of_mem _ hu))
    have hv := hal v (List.mem_cons_self ..)
    have hu' := hal u (List.mem_cons_of_mem _ hu)
    have h₁ := (mem_pageAddrs hv.1 hv.2).mp ha
    have h₂ := (mem_pageAddrs hu'.1 hu'.2).mp ha'
    have := hfirst u hu
    omega

end Pages

/-! ## The loops -/

variable {hi s : ℕ} {t t' : List Vma} {v : Vma} {m m' : Machine} {ret : Int} {space space' : VmSpace}
  {va len : ℕ} {perm : Word}

theorem foldl_vmaPages {σ : Type*} (f : σ → ℕ → σ) (t : List Vma) (x : σ) :
    t.foldl (fun x v => (pageAddrs v.start v.stop).foldl f x) x = (vmaPages t).foldl f x := by
  induction t generalizing x with
  | nil => rfl
  | cons v t ih =>
    rw [List.foldl_cons, ih, vmaPages, vmaPages, List.flatMap_cons, List.foldl_append]

theorem mapUser_machine (hr : m.mapUser space va len perm = (ret, m', space')) :
    ∃ luck, m' = { m with luck := luck } := by
  rw [Machine.mapUser] at hr
  dsimp only at hr
  split at hr
  · cases hr
    exact ⟨_, rfl⟩
  split at hr
  · cases hr
    exact ⟨_, rfl⟩
  split at hr
  · rename_i hd
    cases hr
    exact draw_eq hd
  · rename_i hd
    split at hr <;> cases hr
    exacts [draw_eq hd, draw_eq hd]

theorem splitVma_machine (hr : m.splitVma t v s = (ret, m', t')) :
    ∃ luck, m' = { m with luck := luck } := by
  rw [Machine.splitVma] at hr
  split at hr
  · cases hr
    exact ⟨_, rfl⟩
  split at hr
  all_goals
    rename_i hd
    cases hr
    exact draw_eq hd

theorem splitRange_machine {start stop : ℕ} (hr : m.splitRange t start stop = (ret, m', t')) :
    ∃ luck, m' = { m with luck := luck } := by
  rw [Machine.splitRange] at hr
  split at hr
  · cases hr
    exact ⟨_, rfl⟩
  split at hr
  · cases hr
    exact ⟨_, rfl⟩
  split at hr
  rename_i hsplit
  obtain ⟨luck, rfl⟩ := splitVma_machine hsplit
  split at hr
  · cases hr
    exact ⟨_, rfl⟩
  split at hr
  · cases hr
    exact ⟨_, rfl⟩
  · obtain ⟨luck', rfl⟩ := splitVma_machine hr
    exact ⟨_, rfl⟩

/-- The body of `vmm_protect_user`'s loops over a list of pages. -/
def protectAll (root : ℕ) (perm vmaPerm : Word) (addrs : List ℕ) (m : Machine) : Machine :=
  addrs.foldl (fun m addr => (m.protectPage root perm vmaPerm addr).2) m

theorem protectPages_snd (root : ℕ) (perm vmaPerm : Word) (addrs : List ℕ) (m : Machine) :
    (Machine.protectPages root perm vmaPerm addrs m).2 = protectAll root perm vmaPerm addrs m := by
  induction addrs generalizing m with
  | nil => rfl
  | cons addr addrs ih =>
    rw [Machine.protectPages]
    dsimp only
    rw [protectPage_fst, if_neg (by decide), ih]
    rfl

theorem protectLoop_machine {root stop : ℕ} {passed rest : List Vma}
    (hr : Machine.protectLoop root va stop perm passed rest m = (ret, m', t'))
    (hsort : Sorted rest) : m' = protectAll root perm (perm ||| vmUser)
      (vmaPages (rest.filter fun v => v.start < stop ∧ va < v.stop)) m := by
  induction rest generalizing passed m with
  | nil =>
    cases hr
    rfl
  | cons v rest ih =>
    obtain ⟨hfirst, -⟩ := List.pairwise_cons.mp hsort.apart
    have hsort' : Sorted rest := hsort.sublist (List.sublist_cons_self ..)
    have hne := hsort.nonempty v (List.mem_cons_self ..)
    rw [Machine.protectLoop] at hr
    split at hr
    · -- no later region starts before the end of the range
      cases hr
      rw [List.filter_eq_nil_iff.mpr fun u hu => ?_]
      · rfl
      · rcases List.mem_cons.mp hu with rfl | hu
        · simp only [decide_eq_true_eq]
          omega
        · have := hfirst u hu
          simp only [decide_eq_true_eq]
          omega
    split at hr
    · rw [List.filter_cons_of_neg (by simp only [decide_eq_true_eq]; omega)]
      exact ih hr hsort'
    · have hfst := protectPages_fst root perm (perm ||| vmUser) (pageAddrs v.start v.stop) m
      dsimp only at hr
      rw [hfst, if_neg (by decide)] at hr
      rw [List.filter_cons_of_pos (by simp only [decide_eq_true_eq]; omega), ih hr hsort',
        protectPages_snd, vmaPages, vmaPages, List.flatMap_cons, protectAll, protectAll, protectAll,
        List.foldl_append]

/-- **The pages that `vmm_protect_user` visits**: all those of the range, or none. -/
theorem protectUser_machine (hr : m.protectUser space va len perm = (ret, m', space'))
    (h : RegionInv hi space.vmas) : space'.rootPa = space.rootPa ∧
      ((ret ≠ 0 ∧ ∃ luck, m' = { m with luck := luck }) ∨
      (ret = 0 ∧ ∃ luck addrs, m' = protectAll space.rootPa perm (perm ||| vmUser) addrs
          { m with luck := luck } ∧ addrs.Nodup ∧ (∀ a ∈ addrs, ∃ v ∈ space.vmas, a ∈ v) ∧
        ∀ a, a ∈ addrs ↔ kPageSize ∣ a ∧ pageAlignDown va ≤ a ∧
          a < pageAlignDown va + pageAlignUp len)) := by
  rcases protectUser_cases hr with ⟨rfl, rfl, hneg⟩ | ⟨hlen, -, hcov, ret₁, m₁, t₁, hsplit, hrest⟩
  · exact ⟨rfl, .inl ⟨hneg.ne, _, rfl⟩⟩
  have hva := dvd_pageAlignDown va
  have hstop := Nat.dvd_add hva (dvd_pageAlignUp len)
  have hcovered {a : ℕ} (hlo : pageAlignDown va ≤ a)
      (hhi : a < pageAlignDown va + pageAlignUp len) : ∃ v ∈ space.vmas, a ∈ v :=
    exists_mem_of_rangeCovered _ _ hcov hlo hhi
  generalize pageAlignDown va = start at *
  generalize pageAlignUp len = length at *
  obtain ⟨href, hcut⟩ := splitRange_spec hsplit h (by omega) hva hstop
  obtain ⟨luck, rfl⟩ := splitRange_machine hsplit
  rcases hrest with ⟨hneg, rfl, rfl, rfl⟩ | ⟨hok, t', hloop, rfl⟩
  · exact ⟨rfl, .inl ⟨hneg.ne, _, rfl⟩⟩
  obtain ⟨hcut₁, hcut₂⟩ := hcut hok
  have hsort : Sorted (t₁.dropWhile (start ∉ ·)) :=
    href.inv.sorted.sublist (List.dropWhile_sublist _)
  obtain ⟨rfl, -⟩ := protectLoop_spec hloop hsort
  have hpages (a : ℕ) : a ∈ vmaPages ((t₁.dropWhile (start ∉ ·)).filter fun v =>
      v.start < start + length ∧ start < v.stop) ↔
        kPageSize ∣ a ∧ start ≤ a ∧ a < start + length := by
    rw [mem_vmaPages fun v hv =>
      href.inv.aligned v ((List.dropWhile_sublist _).mem (List.mem_of_mem_filter hv))]
    refine and_congr_right fun _ => ⟨?_, fun ⟨hlo, hhi⟩ => ?_⟩
    · rintro ⟨v, hv, ha⟩
      obtain ⟨hv, hmeets⟩ := List.mem_filter.mp hv
      simp only [decide_eq_true_eq] at hmeets
      have hv' := (List.dropWhile_sublist _).mem hv
      have h₁ := hcut₁ v hv'
      have h₂ := hcut₂ v hv'
      obtain ⟨h₃, h₄⟩ := ha
      omega
    · obtain ⟨v, hv, ha⟩ := hcovered hlo hhi
      obtain ⟨u, hu, hau, -⟩ := (href.maps a v.tag).mpr ⟨v, hv, ha, rfl⟩
      -- the regions that the search skips end before the range
      obtain ⟨w, hw, hsw⟩ := hcovered le_rfl (by omega : start < start + length)
      obtain ⟨x, hx, hsx, -⟩ := (href.maps start w.tag).mpr ⟨w, hw, hsw, rfl⟩
      obtain ⟨hua, hub⟩ := hau
      have hu' : u ∈ t₁.dropWhile (start ∉ ·) := by
        by_contra hnot
        have hsplit := List.takeWhile_append_dropWhile (p := (start ∉ ·)) (l := t₁)
        have hutake : u ∈ t₁.takeWhile (start ∉ ·) := by
          rw [← hsplit] at hu
          exact (List.mem_append.mp hu).resolve_right hnot
        have hxdrop : x ∈ t₁.dropWhile (start ∉ ·) := by
          rw [← hsplit] at hx
          refine (List.mem_append.mp hx).resolve_left fun hxt => ?_
          have := List.mem_takeWhile_imp hxt
          simp [hsx] at this
        have hap := href.inv.sorted.apart
        rw [← hsplit] at hap
        have hle := (List.pairwise_append.mp hap).2.2 u hutake x hxdrop
        have hus := List.mem_takeWhile_imp hutake
        simp only [decide_eq_true_eq, Seg.mem_def] at hus
        obtain ⟨hxs, -⟩ := hsx
        omega
      exact ⟨u, List.mem_filter.mpr ⟨hu', by simp only [decide_eq_true_eq]; omega⟩, hua, hub⟩
  have hsub : ((t₁.dropWhile (start ∉ ·)).filter fun v =>
      v.start < start + length ∧ start < v.stop).Sublist t₁ :=
    List.filter_sublist.trans (List.dropWhile_sublist _)
  have hnd := (nodup_vmaPages href.inv).sublist (hsub.flatMap _)
  refine ⟨rfl, .inr ⟨rfl, luck, _, protectLoop_machine hloop hsort, hnd, fun a ha => ?_, hpages⟩⟩
  obtain ⟨-, hlo, hhi⟩ := (hpages a).mp ha
  exact hcovered hlo hhi

/-- **The pages that `vmm_unmap_user` visits** -/
theorem unmapUser_machine (hr : m.unmapUser space va len = (ret, m', space'))
    (h : RegionInv hi space.vmas) : space'.rootPa = space.rootPa ∧
      Carvings hi space.rootPa (pageAlignDown va) (pageAlignDown va + pageAlignUp len) m
        space.vmas m' space'.vmas := by
  rcases unmapUser_cases hr with ⟨rfl, rfl, -⟩ | ⟨hlen, -, t', hloop, rfl⟩
  · exact ⟨rfl, .done ..⟩
  · exact ⟨rfl, (unmapLoop_spec hloop h (by omega) (dvd_pageAlignDown va)
      (Nat.dvd_add (dvd_pageAlignDown va) (dvd_pageAlignUp len)) h.sorted (fun _ hv => hv)
      fun v hv hv' => absurd hv hv').2⟩

theorem destroySpace_eq (m : Machine) (space : VmSpace) : m.destroySpace space =
    ((vmaPages space.vmas).foldl (fun m addr => m.releasePage space.rootPa addr) m).pmapDestroy
      space.rootPa := by
  rw [Machine.destroySpace, foldl_vmaPages]

end Lume
