import Lume.Vm.Space
import Mathlib.Data.List.TakeWhile

/-!
# The regions of an address space

What the operations of `mm/vma.cc` do to the tree of regions, read as a partial function from
addresses to permissions. None of this depends on the page tables or on memory: the operations
look at them, but what happens to the tree is decided by the tree, the arguments and the outcome
of the allocations.

## Main definitions

* `RegionInv hi t`: non-empty page-aligned regions in order and apart, from `kUserVaBase` to `hi`

## Main results

* `mergeNeighbors_spec`, `splitRange_spec`: merging and splitting keep the function
* `mapUser_spec`, `unmapUser_spec`, `protectUser_spec`: what the three operations do to it
-/

namespace Lume

open Segs (Maps Sorted)

/-- The invariant of the tree of regions, with `hi` as the upper end of the user range. -/
structure RegionInv (hi : ℕ) (t : List Vma) : Prop where
  sorted : Sorted t
  aligned : ∀ v ∈ t, kPageSize ∣ v.start ∧ kPageSize ∣ v.stop
  bounds : ∀ v ∈ t, kUserVaBase ≤ v.start ∧ v.stop ≤ hi

variable {hi s : ℕ} {t t' : List Vma} {u v : Vma} {m m' : Machine} {ret : Int}

namespace RegionInv

theorem page_mem {a : ℕ} (h : RegionInv hi t) (hv : v ∈ t) (ha : a ∈ v) :
    a / kPageSize * kPageSize ∈ v := by
  refine ⟨?_, lt_of_le_of_lt (Nat.div_mul_le_self ..) ha.2⟩
  obtain ⟨i, hi⟩ := (h.aligned v hv).1
  have := ha.1
  simp only [kPageSize] at hi ⊢
  omega

theorem nil (hi : ℕ) : RegionInv hi [] := ⟨.nil, by simp, by simp⟩

theorem of_parts (h : RegionInv hi t) (hs : Sorted t')
    (hparts : ∀ u ∈ t', ∃ v ∈ t, v.start ≤ u.start ∧ u.stop ≤ v.stop ∧
      kPageSize ∣ u.start ∧ kPageSize ∣ u.stop) : RegionInv hi t' where
  sorted := hs
  aligned u hu := by
    obtain ⟨v, -, -, -, hal⟩ := hparts u hu
    exact hal
  bounds u hu := by
    obtain ⟨v, hv, hlo, hhi, -⟩ := hparts u hu
    exact ⟨(h.bounds v hv).1.trans hlo, hhi.trans (h.bounds v hv).2⟩

theorem erase (h : RegionInv hi t) (v : Vma) : RegionInv hi (t.erase v) :=
  ⟨h.sorted.erase v, fun u hu => h.aligned u (List.mem_of_mem_erase hu),
    fun u hu => h.bounds u (List.mem_of_mem_erase hu)⟩

theorem add (h : RegionInv hi t) (hv : v.start < v.stop)
    (hal : kPageSize ∣ v.start ∧ kPageSize ∣ v.stop) (hb : kUserVaBase ≤ v.start ∧ v.stop ≤ hi)
    (hap : ∀ u ∈ t, u.stop ≤ v.start ∨ v.stop ≤ u.start) : RegionInv hi (Segs.add t v) where
  sorted := h.sorted.add hv hap
  aligned u hu := by
    rcases Segs.mem_add.mp hu with rfl | hu
    · exact hal
    · exact h.aligned u hu
  bounds u hu := by
    rcases Segs.mem_add.mp hu with rfl | hu
    · exact hb
    · exact h.bounds u hu

theorem split (h : RegionInv hi t) (hv : v ∈ t) (hlo : v.start < s) (hhi : s < v.stop)
    (hs : kPageSize ∣ s) :
    RegionInv hi (Segs.add (Segs.edit t v { v with stop := s }) { v with start := s }) := by
  refine h.of_parts (h.sorted.split hv hlo hhi).1 fun u hu => ?_
  have hal := h.aligned v hv
  rcases Segs.mem_add.mp hu with rfl | hu
  · exact ⟨v, hv, hlo.le, le_rfl, hs, hal.2⟩
  · rcases (Segs.mem_edit hv).mp hu with rfl | ⟨hu, -⟩
    · exact ⟨v, hv, le_rfl, hhi.le, hal.1, hs⟩
    · exact ⟨u, hu, le_rfl, le_rfl, h.aligned u hu⟩

theorem join {l r : List Vma} (h : RegionInv hi (l ++ u :: v :: r)) (hadj : u.stop = v.start)
    (htag : u.tag = v.tag) : RegionInv hi (l ++ { u with stop := v.stop } :: r) where
  sorted := (h.sorted.join hadj htag).1
  aligned w hw := by
    have hu := h.aligned u (by simp)
    have hv := h.aligned v (by simp)
    rcases List.mem_append.mp hw with hw | hw
    · exact h.aligned w (by simp [hw])
    · rcases List.mem_cons.mp hw with rfl | hw
      · exact ⟨hu.1, hv.2⟩
      · exact h.aligned w (by simp [hw])
  bounds w hw := by
    have hu := h.bounds u (by simp)
    have hv := h.bounds v (by simp)
    rcases List.mem_append.mp hw with hw | hw
    · exact h.bounds w (by simp [hw])
    · rcases List.mem_cons.mp hw with rfl | hw
      · exact ⟨hu.1, hv.2⟩
      · exact h.bounds w (by simp [hw])

end RegionInv

/-! ## Merging -/

theorem mergeNext_spec {before after : List Vma} (h : RegionInv hi (before ++ v :: after)) :
    RegionInv hi (mergeNext before v after) ∧
      ∀ a x, Maps (mergeNext before v after) a x ↔ Maps (before ++ v :: after) a x := by
  cases after with
  | nil => exact ⟨h, fun _ _ => Iff.rfl⟩
  | cons next after =>
    rw [mergeNext]
    split
    · rename_i hadj
      exact ⟨h.join hadj.1 hadj.2, (h.sorted.join hadj.1 hadj.2).2⟩
    · exact ⟨h, fun _ _ => Iff.rfl⟩

/-- **Merging with the neighbours** keeps the invariant and the function. -/
theorem mergeNeighbors_spec (h : RegionInv hi t) (hv : v ∈ t) :
    RegionInv hi (mergeNeighbors t v) ∧ ∀ a x, Maps (mergeNeighbors t v) a x ↔ Maps t a x := by
  -- the tree is the nodes before `v`, then `v`, then the nodes after it
  have hdrop : t.dropWhile (· ≠ v) = v :: (t.dropWhile (· ≠ v)).tail := by
    clear h
    induction t with
    | nil => cases hv
    | cons w t ih =>
      by_cases hw : w = v
      · simp [hw]
      · have hv' : v ∈ t := (List.mem_cons.mp hv).resolve_left (Ne.symm hw)
        simpa [List.dropWhile_cons, hw] using ih hv'
  have ht : t = t.takeWhile (· ≠ v) ++ v :: (t.dropWhile (· ≠ v)).tail := by
    conv_lhs => rw [← List.takeWhile_append_dropWhile (p := (· ≠ v)) (l := t), hdrop]
  rw [mergeNeighbors]
  generalize t.takeWhile (· ≠ v) = before at ht
  generalize (t.dropWhile (· ≠ v)).tail = after at ht
  subst ht
  split
  · rename_i prev hprev
    split
    · rename_i hadj
      have hlast : before = before.dropLast ++ [prev] := by
        obtain ⟨l, rfl⟩ := List.getLast?_eq_some_iff.mp hprev
        simp
      generalize before.dropLast = l at hlast
      subst hlast
      rw [List.append_assoc, List.singleton_append] at h ⊢
      obtain ⟨hinv, hmaps⟩ := mergeNext_spec (h.join hadj.1 hadj.2)
      exact ⟨hinv, fun a x => (hmaps a x).trans ((h.sorted.join hadj.1 hadj.2).2 a x)⟩
    · exact mergeNext_spec h
  · exact mergeNext_spec h

/-! ## Splitting -/

/-- `t'` has the same function as `t`, and no boundary of `t` is lost. -/
structure Refined (hi : ℕ) (t t' : List Vma) : Prop where
  inv : RegionInv hi t'
  maps : ∀ a x, Maps t' a x ↔ Maps t a x
  part : ∀ u ∈ t', ∃ v ∈ t, v.start ≤ u.start ∧ u.stop ≤ v.stop

theorem Refined.refl (h : RegionInv hi t) : Refined hi t t :=
  ⟨h, fun _ _ => Iff.rfl, fun u hu => ⟨u, hu, le_rfl, le_rfl⟩⟩

theorem Refined.trans {t'' : List Vma} (h : Refined hi t t') (h' : Refined hi t' t'') :
    Refined hi t t'' where
  inv := h'.inv
  maps a x := (h'.maps a x).trans (h.maps a x)
  part u hu := by
    obtain ⟨v, hv, hlo, hhi⟩ := h'.part u hu
    obtain ⟨w, hw, hlo', hhi'⟩ := h.part v hv
    exact ⟨w, hw, hlo'.trans hlo, hhi.trans hhi'⟩

/-- No region has `s` as an inner point. -/
def CutAt (t : List Vma) (s : ℕ) : Prop := ∀ v ∈ t, ¬ (v.start < s ∧ s < v.stop)

theorem Refined.cutAt (h : Refined hi t t') (hc : CutAt t s) : CutAt t' s := by
  intro u hu hin
  obtain ⟨v, hv, hlo, hhi⟩ := h.part u hu
  exact hc v hv ⟨lt_of_le_of_lt hlo hin.1, lt_of_lt_of_le hin.2 hhi⟩

/-- `vma_split_locked` keeps the function, and on success the one region that could have the
point inside is cut. -/
theorem splitVma_spec (hr : m.splitVma t v s = (ret, m', t')) (h : RegionInv hi t) (hv : v ∈ t)
    (hs : kPageSize ∣ s) : Refined hi t t' ∧
      (0 ≤ ret → (∀ u ∈ t, u.start < s → s < u.stop → u = v) → CutAt t' s) := by
  rw [Machine.splitVma] at hr
  split at hr
  · rename_i hout
    cases hr
    refine ⟨.refl h, fun _ honly u hu hin => ?_⟩
    obtain rfl := honly u hu hin.1 hin.2
    omega
  · rename_i hin
    rw [not_or, not_le, not_le] at hin
    split at hr <;> cases hr
    · exact ⟨.refl h, fun hret => absurd hret (by decide)⟩
    · refine ⟨⟨h.split hv hin.1 hin.2 hs, (h.sorted.split hv hin.1 hin.2).2, fun u hu => ?_⟩,
        fun _ honly u hu hcut => ?_⟩
      · rcases Segs.mem_add.mp hu with rfl | hu
        · exact ⟨v, hv, hin.1.le, le_rfl⟩
        · rcases (Segs.mem_edit hv).mp hu with rfl | ⟨hu, -⟩
          · exact ⟨v, hv, le_rfl, hin.2.le⟩
          · exact ⟨u, hu, le_rfl, le_rfl⟩
      · rcases Segs.mem_add.mp hu with rfl | hu
        · exact absurd hcut.1 (lt_irrefl _)
        · rcases (Segs.mem_edit hv).mp hu with rfl | ⟨hu, hne⟩
          · exact absurd hcut.2 (lt_irrefl _)
          · exact hne (honly u hu hcut.1 hcut.2)

/-- **Splitting at both ends of a range** keeps the function; on success no region crosses an
end. -/
theorem splitRange_spec {start stop : ℕ} (hr : m.splitRange t start stop = (ret, m', t'))
    (h : RegionInv hi t) (hlt : start < stop) (hs : kPageSize ∣ start) (he : kPageSize ∣ stop) :
    Refined hi t t' ∧ (0 ≤ ret → CutAt t' start ∧ CutAt t' stop) := by
  rw [Machine.splitRange, if_neg (by omega)] at hr
  split at hr
  · cases hr
    exact ⟨.refl h, fun hret => absurd hret (by decide)⟩
  · rename_i v hf
    obtain ⟨hv, hmem⟩ := Segs.mem_of_find hf
    split at hr
    rename_i ret₁ m₁ t₁ hr₁
    obtain ⟨href, hcut⟩ := splitVma_spec hr₁ h hv hs
    split at hr
    · cases hr
      exact ⟨href, fun hret => by omega⟩
    · split at hr
      · cases hr
        exact ⟨href, fun hret => absurd hret (by decide)⟩
      · rename_i hret v' hf'
        obtain ⟨hv', hmem'⟩ := Segs.mem_of_find hf'
        obtain ⟨href', hcut'⟩ := splitVma_spec hr href.inv hv' he
        refine ⟨href.trans href', fun hret' => ⟨href'.cutAt (hcut (by omega) ?_), hcut' hret' ?_⟩⟩
        · exact fun u hu h₁ h₂ => h.sorted.eq_of_mem hu hv ⟨h₁.le, h₂⟩ hmem
        · exact fun u hu h₁ h₂ => href.inv.sorted.eq_of_mem hu hv' ⟨by omega, by omega⟩ hmem'

/-! ## Mapping -/

section Ops

variable {space space' : VmSpace} {va len : ℕ} {perm : Word}

theorem UserRange.bounds (h : UserRange va len) (hlen : len < 2 ^ 64) :
    kUserVaBase ≤ va ∧ va + len ≤ kUserVaLimit := by
  obtain ⟨h₁, h₂, h₃, h₄⟩ := h
  simp only [kUserVaLimit] at *
  omega

theorem vmaOverlaps_eq_false {start stop : ℕ} :
    vmaOverlaps t start stop = false ↔ ∀ v ∈ t, v.stop ≤ start ∨ stop ≤ v.start := by
  simp only [vmaOverlaps, List.any_eq_false, decide_eq_true_eq, not_and_or, not_lt]

theorem mapUser_cases (hr : m.mapUser space va len perm = (ret, m', space')) :
    (space' = space ∧ (ret = 0 → pageAlignUp len = 0)) ∨
      (ret = 0 ∧ pageAlignUp len ≠ 0 ∧ UserRange (pageAlignDown va) (pageAlignUp len) ∧
        (∀ v ∈ space.vmas, v.stop ≤ pageAlignDown va ∨
          pageAlignDown va + pageAlignUp len ≤ v.start) ∧
        ∃ v : Vma, v = ⟨pageAlignDown va, pageAlignDown va + pageAlignUp len, perm ||| vmUser⟩ ∧
          space' = { space with vmas := mergeNeighbors (Segs.add space.vmas v) v }) := by
  rw [Machine.mapUser] at hr
  dsimp only at hr
  split at hr
  · rename_i hlen
    cases hr
    exact .inl ⟨rfl, fun _ => hlen⟩
  split at hr
  · cases hr
    exact .inl ⟨rfl, fun h => absurd h (by decide)⟩
  rename_i hlen hrange
  split at hr
  · cases hr
    exact .inl ⟨rfl, fun h => absurd h (by decide)⟩
  split at hr
  · cases hr
    exact .inl ⟨rfl, fun h => absurd h (by decide)⟩
  · rename_i hov
    cases hr
    exact .inr ⟨rfl, hlen, not_not.mp hrange, vmaOverlaps_eq_false.mp (by simpa using hov), _,
      rfl, rfl⟩

/-- **`vmm_map_user`**: on success the range was free and is mapped now. -/
theorem mapUser_spec (hr : m.mapUser space va len perm = (ret, m', space'))
    (h : RegionInv hi space.vmas)
    (hhi : pageAlignUp len ≠ 0 → UserRange (pageAlignDown va) (pageAlignUp len) →
      pageAlignDown va + pageAlignUp len ≤ hi) :
    RegionInv hi space'.vmas ∧ (ret ≠ 0 → space' = space) ∧ (ret = 0 → pageAlignUp len ≠ 0 →
        (∀ a x, Maps space'.vmas a x ↔ (pageAlignDown va ≤ a ∧
          a < pageAlignDown va + pageAlignUp len ∧ perm ||| vmUser = x) ∨ Maps space.vmas a x) ∧
        ∀ a x, Maps space.vmas a x → ¬ (pageAlignDown va ≤ a ∧
          a < pageAlignDown va + pageAlignUp len)) := by
  rcases mapUser_cases hr with ⟨rfl, hz⟩ | ⟨rfl, hlen, hrange, hap, _, rfl, rfl⟩
  · exact ⟨h, fun _ => rfl, fun h₁ h₂ => absurd (hz h₁) h₂⟩
  have hle := hhi hlen hrange
  have hbounds := hrange.bounds (pageAlignUp_lt len)
  have hal := dvd_pageAlignDown va
  have hal' := Nat.dvd_add hal (dvd_pageAlignUp len)
  generalize pageAlignDown va = start at *
  generalize pageAlignUp len = length at *
  have hadd : RegionInv hi (Segs.add space.vmas ⟨start, start + length, perm ||| vmUser⟩) :=
    h.add (by dsimp only; omega) ⟨hal, hal'⟩ ⟨hbounds.1, hle⟩ hap
  obtain ⟨hinv, hmaps⟩ := mergeNeighbors_spec hadd (Segs.mem_add.mpr (.inl rfl))
  refine ⟨hinv, fun hne => absurd rfl hne, fun _ _ => ⟨fun a x => ?_, ?_⟩⟩
  · rw [hmaps, Segs.maps_add, Seg.mem_def, and_assoc]
  · rintro a x ⟨v, hv, ha, -⟩ hin
    have hsep := hap v hv
    have := ha.1
    have := ha.2
    omega

/-! ## Unmapping -/

/-- `t'` is `t` with the range `[va, stop)` carved out of the region `v`. -/
structure Carved (hi va stop : ℕ) (t : List Vma) (v : Vma) (t' : List Vma) : Prop where
  inv : RegionInv hi t'
  mem : ∀ u, u ∈ t' ↔ (u ∈ t ∧ u ≠ v) ∨ (u = { v with stop := va } ∧ v.start < va) ∨
    (u = { v with start := stop } ∧ stop < v.stop)

theorem Carved.maps {stop : ℕ} (hc : Carved hi va stop t v t') (h : Sorted t) (hv : v ∈ t)
    (hlo : va < v.stop) (hhi : v.start < stop) (a : ℕ) (x : Word) :
    Maps t' a x ↔ Maps t a x ∧ ¬ (a ∈ v ∧ va ≤ a ∧ a < stop) := by
  constructor
  · rintro ⟨u, hu, ha, rfl⟩
    rcases (hc.mem u).mp hu with ⟨hu, hne⟩ | ⟨rfl, hlt⟩ | ⟨rfl, hlt⟩
    · exact ⟨⟨u, hu, ha, rfl⟩, fun hin => hne (h.eq_of_mem hu hv ha hin.1)⟩
    · rw [Seg.mem_def] at ha
      dsimp only at ha
      exact ⟨⟨v, hv, ⟨ha.1, by omega⟩, rfl⟩, fun hin => by omega⟩
    · rw [Seg.mem_def] at ha
      dsimp only at ha
      exact ⟨⟨v, hv, ⟨by omega, ha.2⟩, rfl⟩, fun hin => by omega⟩
  · rintro ⟨⟨u, hu, ha, rfl⟩, hout⟩
    by_cases hne : u = v
    · subst hne
      rcases Nat.lt_or_ge a va with hva | hva
      · exact ⟨{ u with stop := va }, (hc.mem _).mpr (.inr (.inl ⟨rfl, by have := ha.1; omega⟩)),
          ⟨ha.1, hva⟩, rfl⟩
      · have hstop : stop ≤ a := by
          by_contra hlt
          exact hout ⟨ha, hva, by omega⟩
        exact ⟨{ u with start := stop }, (hc.mem _).mpr (.inr (.inr ⟨rfl, by
          have := ha.2; omega⟩)), ⟨hstop, ha.2⟩, rfl⟩
    · exact ⟨u, (hc.mem u).mpr (.inl ⟨hu, hne⟩), ha, rfl⟩

/-- What is left of the regions after unmapping `[va, stop)`. -/
structure Unmapped (hi va stop : ℕ) (ret : Int) (t t' : List Vma) : Prop where
  inv : RegionInv hi t'
  maps : ∀ a x, Maps t' a x → Maps t a x
  keep : ∀ a x, Maps t a x → ¬ (va ≤ a ∧ a < stop) → Maps t' a x
  gone : ret = 0 → ∀ a x, Maps t' a x → ¬ (va ≤ a ∧ a < stop)

theorem Carved.unmapped {stop : ℕ} {t'' : List Vma} (hc : Carved hi va stop t v t')
    (h : Sorted t) (hv : v ∈ t) (hlo : va < v.stop) (hhi : v.start < stop)
    (hu : Unmapped hi va stop ret t' t'') : Unmapped hi va stop ret t t'' where
  inv := hu.inv
  maps a x ha := ((hc.maps h hv hlo hhi a x).mp (hu.maps a x ha)).1
  keep a x ha hout :=
    hu.keep a x ((hc.maps h hv hlo hhi a x).mpr ⟨ha, fun hin => hout hin.2⟩) hout
  gone := hu.gone

theorem unmapped_of_apart {stop : ℕ} (h : RegionInv hi t)
    (hap : ∀ v ∈ t, v.stop ≤ va ∨ stop ≤ v.start) : Unmapped hi va stop ret t t where
  inv := h
  maps _ _ ha := ha
  keep _ _ ha _ := ha
  gone := by
    rintro - a x ⟨v, hv, ha, -⟩ hin
    have hsep := hap v hv
    have := ha.1
    have := ha.2
    omega

section Shapes

variable {stop : ℕ}

theorem Carved.whole (h : RegionInv hi t) (hlo : va ≤ v.start) (hhi : v.stop ≤ stop) :
    Carved hi va stop t v (t.erase v) where
  inv := h.erase v
  mem u := by
    rw [h.sorted.mem_erase]
    constructor
    · exact fun hu => .inl hu
    · rintro (hu | ⟨-, hlt⟩ | ⟨-, hlt⟩)
      · exact hu
      · omega
      · omega

theorem Carved.front (h : RegionInv hi t) (hv : v ∈ t) (hlo : va ≤ v.start)
    (hin : v.start < stop) (hhi : stop < v.stop) (hs : kPageSize ∣ stop) :
    Carved hi va stop t v (Segs.add (t.erase v) { v with start := stop }) where
  inv := by
    refine (h.erase v).add hhi ⟨hs, (h.aligned v hv).2⟩
      ⟨(h.bounds v hv).1.trans hin.le, (h.bounds v hv).2⟩ fun u hu => ?_
    obtain ⟨hu, hne⟩ := h.sorted.mem_erase.mp hu
    rcases h.sorted.sep hu hv hne with hsep | hsep
    · exact .inl (hsep.trans hin.le)
    · exact .inr hsep
  mem u := by
    rw [Segs.mem_add, h.sorted.mem_erase]
    constructor
    · rintro (rfl | hu)
      · exact .inr (.inr ⟨rfl, hhi⟩)
      · exact .inl hu
    · rintro (hu | ⟨-, hlt⟩ | ⟨rfl, -⟩)
      · exact .inr hu
      · omega
      · exact .inl rfl

theorem Carved.back (h : RegionInv hi t) (hv : v ∈ t) (hlo : v.start < va) (hin : va < v.stop)
    (hhi : v.stop ≤ stop) (hs : kPageSize ∣ va) :
    Carved hi va stop t v (Segs.edit t v { v with stop := va }) where
  inv := by
    have hsort : Sorted (Segs.edit t v { v with stop := va }) := h.sorted.edit hlo le_rfl hin.le
    refine h.of_parts hsort fun u hu => ?_
    rcases (Segs.mem_edit hv).mp hu with rfl | ⟨hu, -⟩
    · exact ⟨v, hv, le_rfl, hin.le, (h.aligned v hv).1, hs⟩
    · exact ⟨u, hu, le_rfl, le_rfl, h.aligned u hu⟩
  mem u := by
    rw [Segs.mem_edit hv]
    constructor
    · rintro (rfl | hu)
      · exact .inr (.inl ⟨rfl, hlo⟩)
      · exact .inl hu
    · rintro (hu | ⟨rfl, -⟩ | ⟨-, hlt⟩)
      · exact .inr hu
      · exact .inl rfl
      · omega

theorem Carved.middle (h : RegionInv hi t) (hv : v ∈ t) (hlo : v.start < va) (hin : va < stop)
    (hhi : stop < v.stop) (hs : kPageSize ∣ va) (he : kPageSize ∣ stop) : Carved hi va stop t v
      (Segs.add (Segs.edit t v { v with stop := va }) { v with start := stop }) where
  inv := by
    have hsort : Sorted (Segs.edit t v { v with stop := va }) :=
      h.sorted.edit hlo le_rfl (hin.trans hhi).le
    have hleft : RegionInv hi (Segs.edit t v { v with stop := va }) := by
      refine h.of_parts hsort fun u hu => ?_
      rcases (Segs.mem_edit hv).mp hu with rfl | ⟨hu, -⟩
      · exact ⟨v, hv, le_rfl, (hin.trans hhi).le, (h.aligned v hv).1, hs⟩
      · exact ⟨u, hu, le_rfl, le_rfl, h.aligned u hu⟩
    refine hleft.add hhi ⟨he, (h.aligned v hv).2⟩
      ⟨(h.bounds v hv).1.trans (hlo.trans hin).le, (h.bounds v hv).2⟩ fun u hu => ?_
    rcases (Segs.mem_edit hv).mp hu with rfl | ⟨hu, hne⟩
    · exact .inl hin.le
    · rcases h.sorted.sep hu hv hne with hsep | hsep
      · exact .inl (hsep.trans (hlo.trans hin).le)
      · exact .inr hsep
  mem u := by
    rw [Segs.mem_add, Segs.mem_edit hv]
    constructor
    · rintro (rfl | rfl | hu)
      · exact .inr (.inr ⟨rfl, hhi⟩)
      · exact .inr (.inl ⟨rfl, hlo⟩)
      · exact .inl hu
    · rintro (hu | ⟨rfl, -⟩ | ⟨rfl, -⟩)
      · exact .inr (.inr hu)
      · exact .inr (.inl rfl)
      · exact .inl rfl

end Shapes

/-- What the loop of `vmm_unmap_user` does, region by region: the pages of the region in the range
are dropped and the region is carved, or the loop stops between the two. -/
inductive Carvings (hi root va stop : ℕ) : Machine → List Vma → Machine → List Vma → Prop
  | done (m : Machine) (t : List Vma) : Carvings hi root va stop m t m t
  | carve {m m' : Machine} {t t₁ t' : List Vma} {v : Vma} (luck : List Bool) (hv : v ∈ t)
      (hlo : v.start < stop) (hhi : va < v.stop) (hc : Carved hi va stop t v t₁)
      (rest : Carvings hi root va stop
        { m.dropPages root (max v.start va) (min v.stop stop) with luck := luck } t₁ m' t') :
      Carvings hi root va stop m t m' t'
  | stuck {m : Machine} {t : List Vma} {v : Vma} (luck : List Bool) (hv : v ∈ t)
      (hlo : v.start < stop) (hhi : va < v.stop) : Carvings hi root va stop m t
        { m.dropPages root (max v.start va) (min v.stop stop) with luck := luck } t

theorem draw_eq {ok : Bool} (hd : m.draw = (ok, m')) : ∃ luck, m' = { m with luck := luck } := by
  rw [Machine.draw] at hd
  split at hd <;> cases hd
  exacts [⟨_, rfl⟩, ⟨_, rfl⟩]

theorem unmapLoop_meets {root stop : ℕ} {rest : List Vma} (hne : v.start < v.stop) (hlt : va < stop)
    (hlo : va < v.stop) (hhi : v.start < stop) {drop : Machine}
    (hdrop : m.dropPages root (max v.start va) (min v.stop stop) = drop) :
    Machine.unmapLoop root va stop (v :: rest) m t =
      if max v.start va = v.start ∧ min v.stop stop = v.stop then
        Machine.unmapLoop root va stop rest drop (t.erase v)
      else if max v.start va = v.start then
        Machine.unmapLoop root va stop rest drop
          (Segs.add (t.erase v) { v with start := min v.stop stop })
      else if min v.stop stop = v.stop then
        Machine.unmapLoop root va stop rest drop (Segs.edit t v { v with stop := max v.start va })
      else
        match drop.draw with
        | (false, m) => (-eNomem, m, t)
        | (true, m) =>
          (0, m, Segs.add (Segs.edit t v { v with stop := max v.start va })
            { v with start := min v.stop stop }) := by
  have hstart : (if va < v.start then v.start else va) = max v.start va := by
    split <;> omega
  have hstop : (if v.stop < stop then v.stop else stop) = min v.stop stop := by
    split <;> omega
  rw [Machine.unmapLoop, if_neg (by omega), if_neg (by omega)]
  dsimp only
  rw [hstart, hstop, if_pos (by omega : max v.start va < min v.stop stop), hdrop]
  all_goals rfl

theorem unmapLoop_spec {root stop : ℕ} {rest : List Vma}
    (hr : Machine.unmapLoop root va stop rest m t = (ret, m', t')) (h : RegionInv hi t)
    (hlt : va < stop) (hs : kPageSize ∣ va) (he : kPageSize ∣ stop) (hsort : Sorted rest)
    (hrest : ∀ v ∈ rest, v ∈ t) (hpassed : ∀ v ∈ t, v ∉ rest → v.stop ≤ va ∨ stop ≤ v.start) :
    Unmapped hi va stop ret t t' ∧ Carvings hi root va stop m t m' t' := by
  induction rest generalizing m t with
  | nil =>
    cases hr
    exact ⟨unmapped_of_apart h fun v hv => hpassed v hv (List.not_mem_nil), .done ..⟩
  | cons v rest ih =>
    obtain ⟨hfirst, -⟩ := List.pairwise_cons.mp hsort.apart
    have hsort' : Sorted rest := hsort.sublist (List.sublist_cons_self ..)
    have hv : v ∈ t := hrest v (List.mem_cons_self ..)
    have hvne := h.sorted.nonempty v hv
    have hrest' : ∀ u ∈ rest, u ∈ t := fun u hu => hrest u (List.mem_cons_of_mem _ hu)
    have hnot : v ∉ rest := (List.nodup_cons.mp hsort.nodup).1
    by_cases hbefore : v.stop ≤ va
    · rw [Machine.unmapLoop, if_pos hbefore] at hr
      refine ih hr h hsort' hrest' fun u hu hu' => ?_
      by_cases huv : u = v
      · exact .inl (huv ▸ hbefore)
      · exact hpassed u hu (by simp [huv, hu'])
    by_cases hafter : stop ≤ v.start
    · rw [Machine.unmapLoop, if_neg hbefore, if_pos hafter] at hr
      cases hr
      refine ⟨unmapped_of_apart h fun u hu => ?_, .done ..⟩
      by_cases hu' : u ∈ v :: rest
      · rcases List.mem_cons.mp hu' with rfl | hu'
        · exact .inr hafter
        · have := hfirst u hu'
          exact .inr (by omega)
      · exact hpassed u hu hu'
    -- from here on the region meets the range, and the four shapes carve it in their own way
    have hnext {t₁ : List Vma} (hc : Carved hi va stop t v t₁)
        (hr₁ : Machine.unmapLoop root va stop rest
          (m.dropPages root (max v.start va) (min v.stop stop)) t₁ = (ret, m', t')) :
        Unmapped hi va stop ret t t' ∧ Carvings hi root va stop m t m' t' := by
      have hrest₁ : ∀ u ∈ rest, u ∈ t₁ := fun u hu =>
        (hc.mem u).mpr (.inl ⟨hrest' u hu, fun he => hnot (he ▸ hu)⟩)
      have hpassed₁ : ∀ u ∈ t₁, u ∉ rest → u.stop ≤ va ∨ stop ≤ u.start := by
        intro u hu hu'
        rcases (hc.mem u).mp hu with ⟨hu, hne⟩ | ⟨rfl, -⟩ | ⟨rfl, -⟩
        · exact hpassed u hu (by simp [hne, hu'])
        · exact .inl le_rfl
        · exact .inr le_rfl
      obtain ⟨hun, hcarv⟩ := ih hr₁ hc.inv hsort' hrest₁ hpassed₁
      exact ⟨hc.unmapped h.sorted hv (by omega) (by omega) hun,
        .carve _ hv (by omega) (by omega) hc hcarv⟩
    rw [unmapLoop_meets hvne hlt (by omega) (by omega) rfl] at hr
    split at hr
    · exact hnext (Carved.whole h (by omega) (by omega)) hr
    split at hr
    · rename_i hwhole hfront
      refine hnext (Carved.front h hv (by omega) (by omega) (by omega) he) ?_
      rwa [show min v.stop stop = stop by omega] at hr ⊢
    split at hr
    · rename_i hwhole hfront hback
      refine hnext (Carved.back h hv (by omega) (by omega) (by omega) hs) ?_
      rwa [show max v.start va = va by omega] at hr ⊢
    · rename_i hwhole hfront hback
      have hc := Carved.middle h hv (by omega) hlt (by omega) hs he
      split at hr
      · rename_i hd
        cases hr
        obtain ⟨luck, rfl⟩ := draw_eq hd
        exact ⟨⟨h, fun _ _ ha => ha, fun _ _ ha _ => ha, fun h₀ => absurd h₀ (by decide)⟩,
          .stuck luck hv (by omega) (by omega)⟩
      · rename_i hd
        rw [show max v.start va = va by omega, show min v.stop stop = stop by omega] at hr hd
        cases hr
        obtain ⟨luck, rfl⟩ := draw_eq hd
        refine ⟨hc.unmapped h.sorted hv (by omega) (by omega) (unmapped_of_apart hc.inv ?_),
          .carve luck hv (by omega) (by omega) hc ?_⟩
        swap
        · rw [show max v.start va = va by omega, show min v.stop stop = stop by omega]
          exact .done ..
        intro u hu
        rcases (hc.mem u).mp hu with ⟨hu, hne⟩ | ⟨rfl, -⟩ | ⟨rfl, -⟩
        · rcases h.sorted.sep hu hv hne with hsep | hsep
          · exact .inl (by omega)
          · exact .inr (by omega)
        · exact .inl le_rfl
        · exact .inr le_rfl

theorem unmapUser_cases (hr : m.unmapUser space va len = (ret, m', space')) :
    (space' = space ∧ m' = m ∧ (ret = 0 → pageAlignUp len = 0)) ∨
      (pageAlignUp len ≠ 0 ∧ UserRange (pageAlignDown va) (pageAlignUp len) ∧
        ∃ t', Machine.unmapLoop space.rootPa (pageAlignDown va)
          (pageAlignDown va + pageAlignUp len) space.vmas m space.vmas = (ret, m', t') ∧
          space' = { space with vmas := t' }) := by
  rw [Machine.unmapUser] at hr
  dsimp only at hr
  split at hr
  · rename_i hlen
    cases hr
    exact .inl ⟨rfl, rfl, fun _ => hlen⟩
  split at hr
  · cases hr
    exact .inl ⟨rfl, rfl, fun h => absurd h (by decide)⟩
  · rename_i hlen hrange
    cases hr
    exact .inr ⟨hlen, not_not.mp hrange, _, rfl, rfl⟩

/-- **`vmm_unmap_user`** -/
theorem unmapUser_spec (hr : m.unmapUser space va len = (ret, m', space'))
    (h : RegionInv hi space.vmas) :
    Unmapped hi (pageAlignDown va) (pageAlignDown va + pageAlignUp len) ret space.vmas
      space'.vmas := by
  rcases unmapUser_cases hr with ⟨rfl, -, hz⟩ | ⟨hlen, -, t', hloop, rfl⟩
  · exact ⟨h, fun _ _ ha => ha, fun _ _ ha _ => ha, fun h₀ a x _ hin => by
      rw [hz h₀] at hin
      omega⟩
  · exact (unmapLoop_spec hloop h (by omega) (dvd_pageAlignDown va)
      (Nat.dvd_add (dvd_pageAlignDown va) (dvd_pageAlignUp len)) h.sorted (fun _ hv => hv)
      fun v hv hv' => absurd hv hv').1

/-! ## Changing permissions -/

theorem exists_mem_of_rangeCovered {stop : ℕ} (t : List Vma) (cursor : ℕ)
    (h : rangeCovered stop t cursor = true) {a : ℕ} (hlo : cursor ≤ a) (hhi : a < stop) :
    ∃ v ∈ t, a ∈ v := by
  induction t generalizing cursor with
  | nil =>
    have : stop ≤ cursor := by simpa [rangeCovered] using h
    omega
  | cons v t ih =>
    have hstep (c : ℕ) (hc : rangeCovered stop t c = true) (hca : c ≤ a) : ∃ u ∈ v :: t, a ∈ u := by
      obtain ⟨u, hu, hau⟩ := ih c hc hca
      exact ⟨u, List.mem_cons_of_mem _ hu, hau⟩
    rw [rangeCovered, if_pos (by omega)] at h
    split at h
    · exact hstep cursor h hlo
    split at h
    · cases h
    · by_cases hav : a < v.stop
      · exact ⟨v, List.mem_cons_self .., by omega, hav⟩
      · exact hstep v.stop h (by omega)

theorem protectPage_fst (root : ℕ) (perm vmaPerm : Word) (addr : ℕ) (m : Machine) :
    (m.protectPage root perm vmaPerm addr).1 = 0 := by
  rw [Machine.protectPage]
  cases hl : m.mem.lookup root addr with
  | none => rfl
  | some pa =>
    obtain ⟨e, he, -⟩ := Option.map_eq_some_iff.mp hl
    dsimp only
    split
    · rfl
    · simp only [Machine.protect, he]

theorem protectPages_fst (root : ℕ) (perm vmaPerm : Word) (addrs : List ℕ) (m : Machine) :
    (Machine.protectPages root perm vmaPerm addrs m).1 = 0 := by
  induction addrs generalizing m with
  | nil => rfl
  | cons addr addrs ih =>
    have hfst := protectPage_fst root perm vmaPerm addr m
    rw [Machine.protectPages]
    dsimp only
    rw [hfst, if_neg (by decide)]
    exact ih _

/-- A region that meets `[va, stop)` takes the new permission. -/
def repaint (va stop : ℕ) (perm : Word) (v : Vma) : Vma :=
  if v.start < stop ∧ va < v.stop then { v with tag := perm ||| vmUser } else v

theorem repaint_bounds (va stop : ℕ) (perm : Word) (v : Vma) :
    (repaint va stop perm v).start = v.start ∧ (repaint va stop perm v).stop = v.stop := by
  rw [repaint]
  split <;> exact ⟨rfl, rfl⟩

theorem RegionInv.repaint (h : RegionInv hi t) (va stop : ℕ) (perm : Word) :
    RegionInv hi (t.map (repaint va stop perm)) where
  sorted := by
    refine ⟨List.pairwise_map.mpr (h.sorted.apart.imp fun hle => ?_), fun u hu => ?_⟩
    · rw [(repaint_bounds ..).1, (repaint_bounds ..).2]
      exact hle
    · obtain ⟨v, hv, rfl⟩ := List.mem_map.mp hu
      rw [(repaint_bounds ..).1, (repaint_bounds ..).2]
      exact h.sorted.nonempty v hv
  aligned u hu := by
    obtain ⟨v, hv, rfl⟩ := List.mem_map.mp hu
    rw [(repaint_bounds ..).1, (repaint_bounds ..).2]
    exact h.aligned v hv
  bounds u hu := by
    obtain ⟨v, hv, rfl⟩ := List.mem_map.mp hu
    rw [(repaint_bounds ..).1, (repaint_bounds ..).2]
    exact h.bounds v hv

theorem maps_repaint {stop : ℕ} (hva : CutAt t va) (hstop : CutAt t stop) (a : ℕ) (x : Word) :
    Maps (t.map (repaint va stop perm)) a x ↔
      if va ≤ a ∧ a < stop then (∃ v ∈ t, a ∈ v) ∧ perm ||| vmUser = x else Maps t a x := by
  have hmem (v : Vma) : a ∈ repaint va stop perm v ↔ a ∈ v := by
    rw [Seg.mem_def, (repaint_bounds ..).1, (repaint_bounds ..).2, Seg.mem_def]
  have htag (v : Vma) (hv : v ∈ t) (ha : a ∈ v) : (repaint va stop perm v).tag =
      if va ≤ a ∧ a < stop then perm ||| vmUser else v.tag := by
    have h₁ := hva v hv
    have h₂ := hstop v hv
    obtain ⟨h₃, h₄⟩ := ha
    rw [repaint]
    split <;> split <;> first | rfl | omega
  simp only [Maps, List.mem_map, exists_exists_and_eq_and, hmem]
  constructor
  · rintro ⟨v, hv, ha, rfl⟩
    rw [htag v hv ha]
    split
    · exact ⟨⟨v, hv, ha⟩, rfl⟩
    · exact ⟨v, hv, ha, rfl⟩
  · intro h
    split at h
    · rename_i hin
      obtain ⟨⟨v, hv, ha⟩, rfl⟩ := h
      exact ⟨v, hv, ha, by rw [htag v hv ha, if_pos hin]⟩
    · rename_i hin
      obtain ⟨v, hv, ha, rfl⟩ := h
      exact ⟨v, hv, ha, by rw [htag v hv ha, if_neg hin]⟩

theorem protectLoop_spec {root stop : ℕ} {passed rest : List Vma}
    (hr : Machine.protectLoop root va stop perm passed rest m = (ret, m', t'))
    (hsort : Sorted rest) : ret = 0 ∧ t' = passed ++ rest.map (repaint va stop perm) := by
  induction rest generalizing passed m with
  | nil =>
    cases hr
    exact ⟨rfl, by simp⟩
  | cons v rest ih =>
    obtain ⟨hfirst, -⟩ := List.pairwise_cons.mp hsort.apart
    have hsort' : Sorted rest := hsort.sublist (List.sublist_cons_self ..)
    have hne := hsort.nonempty v (List.mem_cons_self ..)
    rw [Machine.protectLoop] at hr
    split at hr
    · -- every later region starts past the range too
      rename_i hafter
      cases hr
      have hid : (v :: rest).map (repaint va stop perm) = (v :: rest).map id := by
        refine List.map_congr_left fun u hu => ?_
        rw [repaint, if_neg, id]
        rcases List.mem_cons.mp hu with rfl | hu
        · omega
        · have := hfirst u hu
          omega
      exact ⟨rfl, by rw [hid, List.map_id]⟩
    split at hr
    · rename_i hafter hbefore
      obtain ⟨rfl, rfl⟩ := ih hr hsort'
      refine ⟨rfl, ?_⟩
      rw [List.map_cons, repaint, if_neg (by omega)]
      simp
    · rename_i hafter hbefore
      have hfst := protectPages_fst root perm (perm ||| vmUser) (pageAddrs v.start v.stop) m
      dsimp only at hr
      rw [hfst, if_neg (by decide)] at hr
      obtain ⟨rfl, rfl⟩ := ih hr hsort'
      refine ⟨rfl, ?_⟩
      rw [List.map_cons, repaint, if_pos (by omega)]
      simp

/-- What `vmm_protect_user` can do: refuse, fail to split, or run its loop on a covered range
that no region crosses. -/
theorem protectUser_cases (hr : m.protectUser space va len perm = (ret, m', space')) :
    (space' = space ∧ m' = m ∧ ret < 0) ∨
      (pageAlignUp len ≠ 0 ∧ UserRange (pageAlignDown va) (pageAlignUp len) ∧
        rangeCovered (pageAlignDown va + pageAlignUp len) space.vmas (pageAlignDown va) = true ∧
        ∃ ret₁ m₁ t₁, m.splitRange space.vmas (pageAlignDown va)
            (pageAlignDown va + pageAlignUp len) = (ret₁, m₁, t₁) ∧
          ((ret₁ < 0 ∧ ret = ret₁ ∧ m' = m₁ ∧ space' = { space with vmas := t₁ }) ∨
            (0 ≤ ret₁ ∧ ∃ t', Machine.protectLoop space.rootPa (pageAlignDown va)
                (pageAlignDown va + pageAlignUp len) perm (t₁.takeWhile (pageAlignDown va ∉ ·))
                (t₁.dropWhile (pageAlignDown va ∉ ·)) m₁ = (ret, m', t') ∧
              space' = { space with vmas := t' }))) := by
  rw [Machine.protectUser] at hr
  dsimp only at hr
  split at hr
  · cases hr
    exact .inl ⟨rfl, rfl, by decide⟩
  split at hr
  · cases hr
    exact .inl ⟨rfl, rfl, by decide⟩
  split at hr
  · cases hr
    exact .inl ⟨rfl, rfl, by decide⟩
  rename_i hlen hrange hcov
  refine .inr ⟨hlen, not_not.mp hrange, by simpa using hcov, _, _, _, rfl, ?_⟩
  split at hr
  · rename_i hret
    cases hr
    exact .inl ⟨hret, rfl, rfl, rfl⟩
  · rename_i hret
    cases hr
    exact .inr ⟨not_lt.mp hret, _, rfl, rfl⟩

theorem map_repaint_eq {stop : ℕ} (h : Sorted t) (hcov : ∃ v ∈ t, va ∈ v) :
    t.takeWhile (va ∉ ·) ++ (t.dropWhile (va ∉ ·)).map (repaint va stop perm) =
      t.map (repaint va stop perm) := by
  have hsplit := List.takeWhile_append_dropWhile (p := (va ∉ ·)) (l := t)
  obtain ⟨v, hv, hva⟩ := hcov
  cases hd : t.dropWhile (va ∉ ·) with
  | nil =>
    have := List.dropWhile_eq_nil_iff.mp hd v hv
    simp [hva] at this
  | cons w rest =>
    have hw : va ∈ w := by
      have hhead := List.head?_dropWhile_not (va ∉ ·) t
      rw [hd] at hhead
      simpa using hhead
    have hbefore : ∀ u ∈ t.takeWhile (va ∉ ·), u.stop ≤ va := fun u hu => by
      have hap := h.apart
      rw [← hsplit, hd] at hap
      exact ((List.pairwise_append.mp hap).2.2 u hu w (List.mem_cons_self ..)).trans hw.1
    have hid : (t.takeWhile (va ∉ ·)).map (repaint va stop perm) = t.takeWhile (va ∉ ·) := by
      conv_rhs => rw [← List.map_id (t.takeWhile (va ∉ ·))]
      refine List.map_congr_left fun u hu => ?_
      have := hbefore u hu
      rw [repaint, if_neg (by omega), id]
    conv_rhs => rw [← hsplit, List.map_append, hid, hd]

/-- **`vmm_protect_user`**: on success exactly the range has the new permission; on failure the
function is unchanged, even where a region was split. -/
theorem protectUser_spec (hr : m.protectUser space va len perm = (ret, m', space'))
    (h : RegionInv hi space.vmas) : RegionInv hi space'.vmas ∧
      (ret ≠ 0 → ∀ a x, Maps space'.vmas a x ↔ Maps space.vmas a x) ∧
      (ret = 0 → ∀ a x, Maps space'.vmas a x ↔
        if pageAlignDown va ≤ a ∧ a < pageAlignDown va + pageAlignUp len then perm ||| vmUser = x
        else Maps space.vmas a x) := by
  rcases protectUser_cases hr with ⟨rfl, -, hneg⟩ | ⟨hlen, -, hcov, ret₁, m₁, t₁, hsplit, hrest⟩
  · exact ⟨h, fun _ _ _ => Iff.rfl, fun h₀ => by omega⟩
  have hva := dvd_pageAlignDown va
  have hstop := Nat.dvd_add hva (dvd_pageAlignUp len)
  have hcovered {a : ℕ} (hlo : pageAlignDown va ≤ a)
      (hhi : a < pageAlignDown va + pageAlignUp len) : ∃ v ∈ space.vmas, a ∈ v :=
    exists_mem_of_rangeCovered _ _ hcov hlo hhi
  generalize pageAlignDown va = start at *
  generalize pageAlignUp len = length at *
  obtain ⟨href, hcut⟩ := splitRange_spec hsplit h (by omega) hva hstop
  rcases hrest with ⟨hneg, rfl, -, rfl⟩ | ⟨hok, t', hloop, rfl⟩
  · exact ⟨href.inv, fun _ => href.maps, fun h₀ => by omega⟩
  obtain ⟨hcut₁, hcut₂⟩ := hcut hok
  have hcovered' {a : ℕ} (hlo : start ≤ a) (hhi : a < start + length) : ∃ v ∈ t₁, a ∈ v := by
    obtain ⟨v, hv, ha⟩ := hcovered hlo hhi
    obtain ⟨u, hu, hau, -⟩ := (href.maps a v.tag).mpr ⟨v, hv, ha, rfl⟩
    exact ⟨u, hu, hau⟩
  obtain ⟨rfl, rfl⟩ := protectLoop_spec hloop
    (href.inv.sorted.sublist (List.dropWhile_sublist _))
  rw [map_repaint_eq href.inv.sorted (hcovered' le_rfl (by omega))]
  refine ⟨href.inv.repaint _ _ _, fun hne => absurd rfl hne, fun _ a x => ?_⟩
  rw [maps_repaint hcut₁ hcut₂]
  split
  · rename_i hin
    exact and_iff_right (hcovered' hin.1 hin.2)
  · exact href.maps a x

/-! ## Cloning -/

theorem cloneLoop_vmas {root : ℕ} {rest : List Vma} {child child' : VmSpace}
    (hr : Machine.cloneLoop root rest child m = (some child', m'))
    (hsort : Sorted (child.vmas ++ rest)) : child'.vmas = child.vmas ++ rest := by
  induction rest generalizing child m with
  | nil =>
    cases hr
    simp
  | cons v rest ih =>
    rw [Machine.cloneLoop] at hr
    split at hr
    · cases hr
    split at hr
    · cases hr
    · have hadd : Segs.add child.vmas v = child.vmas ++ [v] := Segs.add_eq_append fun u hu => by
        have hle := (List.pairwise_append.mp hsort.apart).2.2 u hu v (List.mem_cons_self ..)
        have hne := hsort.nonempty u (List.mem_append_left _ hu)
        omega
      have := ih hr (by simpa [hadd] using hsort)
      simpa [hadd] using this

theorem clone_vmas {child : VmSpace} (hr : m.clone space = (some child, m'))
    (h : Sorted space.vmas) : child.vmas = space.vmas := by
  rw [Machine.clone] at hr
  split at hr
  · cases hr
  · rename_i child₀ m₀ hcreate
    have hnil : child₀.vmas = [] := by
      rw [Machine.createSpace] at hcreate
      split at hcreate
      · cases hcreate
      split at hcreate <;> cases hcreate
      rfl
    have := cloneLoop_vmas hr (by simpa [hnil] using h)
    simpa [hnil] using this

theorem cloneLoop_brk {root : ℕ} {rest : List Vma} {child c : VmSpace}
    (hres : Machine.cloneLoop root rest child m = (some c, m')) :
    c.brkStart = child.brkStart ∧ c.brkEnd = child.brkEnd := by
  induction rest generalizing child m with
  | nil =>
    cases hres
    exact ⟨rfl, rfl⟩
  | cons v rest ih =>
    rw [Machine.cloneLoop] at hres
    split at hres
    · cases hres
    split at hres
    · cases hres
    · have hrest := ih hres
      exact hrest

theorem clone_brk {child : VmSpace} (hres : m.clone space = (some child, m')) :
    child.brkStart = space.brkStart ∧ child.brkEnd = space.brkEnd := by
  rw [Machine.clone] at hres
  split at hres
  · cases hres
  · have hbrk := cloneLoop_brk hres
    exact hbrk

/-! The operations on the regions leave the root table and the bounds of the heap alone. -/

theorem mapUser_vmas (m : Machine) (space : VmSpace) (va len : ℕ) (perm : Word) :
    (m.mapUser space va len perm).2.2 =
      { space with vmas := (m.mapUser space va len perm).2.2.vmas } := by
  obtain ⟨⟨ret, m', space'⟩, hr⟩ : ∃ r, m.mapUser space va len perm = r := ⟨_, rfl⟩
  rw [hr]
  rcases mapUser_cases hr with ⟨rfl, -⟩ | ⟨-, -, -, -, _, -, rfl⟩
  · rfl
  · rfl

theorem unmapUser_vmas (m : Machine) (space : VmSpace) (va len : ℕ) :
    (m.unmapUser space va len).2.2 =
      { space with vmas := (m.unmapUser space va len).2.2.vmas } := by
  obtain ⟨⟨ret, m', space'⟩, hr⟩ : ∃ r, m.unmapUser space va len = r := ⟨_, rfl⟩
  rw [hr]
  rcases unmapUser_cases hr with ⟨rfl, -⟩ | ⟨-, -, t, -, rfl⟩
  · rfl
  · rfl

theorem protectUser_vmas (m : Machine) (space : VmSpace) (va len : ℕ) (perm : Word) :
    (m.protectUser space va len perm).2.2 =
      { space with vmas := (m.protectUser space va len perm).2.2.vmas } := by
  obtain ⟨⟨ret, m', space'⟩, hr⟩ : ∃ r, m.protectUser space va len perm = r := ⟨_, rfl⟩
  rw [hr]
  rcases protectUser_cases hr with ⟨rfl, -⟩ | ⟨-, -, -, _, _, t, -, ⟨-, -, -, rfl⟩ | ⟨-, t', -, rfl⟩⟩
  · rfl
  · rfl
  · rfl

end Ops

end Lume
