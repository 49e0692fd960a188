import Lume.Sched.Lists

/-!
# The process tree

The children of a task are linked by `sibling`. They run on the CPU of their parent: a task is
pinned to the CPU that it was created on. So a parent that looks for a zombie among its children
runs on the CPU on which the zombie has run, and finds it switched away.

## Main definitions

* `Kernel.adoptAt`, `Kernel.reclaimAt`: the tasks that a CPU is about to link to their parent, or to
  reclaim
* `Family st K`: the children `K p` of every task

## Main results

* `Family.adopt`, `Family.reclaim`, `Family.spawn`: the tree after an operation
* `Family.not_current`: a zombie that is about to be reclaimed runs nowhere
-/

namespace Lume.Sched

open Function (update update_eq_self update_of_ne update_self)

/-- The tasks that code is about to link to their parent. -/
def adoptIn (k : List Op) : List Tid :=
  k.filterMap fun
    | .adopt _ x => some x
    | _ => none

/-- The tasks that code is about to reclaim. -/
def reclaimIn (k : List Op) : List Tid :=
  k.filterMap fun
    | .reclaim z => some z
    | _ => none

theorem adoptIn_of_quiet {k : List Op} (h : Quiet k) : adoptIn k = [] := by
  refine List.filterMap_eq_nil_iff.mpr fun op hop => ?_
  have hq := h op hop
  cases op <;> simp_all [Op.transient]

theorem reclaimIn_of_quiet {k : List Op} (h : Quiet k) : reclaimIn k = [] := by
  refine List.filterMap_eq_nil_iff.mpr fun op hop => ?_
  have hq := h op hop
  cases op <;> simp_all [Op.transient]

@[simp] theorem adoptIn_append (k k' : List Op) : adoptIn (k ++ k') = adoptIn k ++ adoptIn k' :=
  List.filterMap_append

@[simp] theorem reclaimIn_append (k k' : List Op) :
    reclaimIn (k ++ k') = reclaimIn k ++ reclaimIn k' :=
  List.filterMap_append

namespace Kernel

/-- The tasks that CPU `c` is about to link to their parent. -/
def adoptAt (st : Kernel) (c : ℕ) : List Tid := adoptIn (st.codeAt c)

/-- The tasks that CPU `c` is about to reclaim. -/
def reclaimAt (st : Kernel) (c : ℕ) : List Tid := reclaimIn (st.codeAt c)

end Kernel

/-- The children `K p` of every task `p`, and the tasks that are about to become or to stop being
children. -/
structure Family (st : Kernel) (K : Tid → List Tid) : Prop where
  rings : Rings st.kin K
  child : ∀ {p x}, x ∈ K p → st.live x = true ∧ (st.tcb x).cpuId = (st.tcb p).cpuId ∧ x ≠ p
  parent : ∀ {p x}, st.live x = true → ((st.tcb x).parent = some p ↔ x ∈ K p)
  fresh : ∀ {p}, st.nextTid ≤ p → K p = []
  adopting : ∀ {c t x}, st.current c = some t → x ∈ st.adoptAt c → st.live x = true ∧
    (st.tcb x).cpuId = (st.tcb t).cpuId ∧ x ≠ t ∧ ∀ p, x ∉ K p
  adopt_nodup : ∀ c, (st.adoptAt c).Nodup
  adopt_disjoint : ∀ {c c' x}, x ∈ st.adoptAt c → x ∈ st.adoptAt c' → c = c'
  reclaiming : ∀ {c t z}, st.current c = some t → z ∈ st.reclaimAt c →
    z ∈ K t ∧ (st.tcb z).state = .zombie
  reclaim_nodup : ∀ c, (st.reclaimAt c).Nodup

namespace Family

variable {st st' : Kernel} {K : Tid → List Tid} {c : ℕ} {t x z : Tid}

theorem mem_reclaimAt (h : z ∈ st.reclaimAt c) : ∃ t, st.current c = some t := by
  rw [Kernel.reclaimAt, Kernel.codeAt] at h
  cases hc : st.current c with
  | none => simp [hc, reclaimIn] at h
  | some t => exact ⟨t, rfl⟩

/-- Nothing that the tree depends on has changed: zombies stay zombies, and a CPU with work on the
tree goes on with its task. -/
theorem congr (h : Family st K) (hkin : st'.kin = st.kin) (hlive : st'.live = st.live)
    (hnext : st'.nextTid = st.nextTid) (hcpu : ∀ t, (st'.tcb t).cpuId = (st.tcb t).cpuId)
    (hparent : ∀ t, (st'.tcb t).parent = (st.tcb t).parent)
    (hz : ∀ t, (st.tcb t).state = .zombie → (st'.tcb t).state = .zombie)
    (hadopt : ∀ c, st'.adoptAt c = st.adoptAt c) (hreclaim : ∀ c, st'.reclaimAt c = st.reclaimAt c)
    (hcur : ∀ c, st.adoptAt c ≠ [] ∨ st.reclaimAt c ≠ [] → st'.current c = st.current c) :
    Family st' K := by
  refine ⟨hkin ▸ h.rings, fun {p x} hx => ?_, fun {p x} hl => ?_,
    fun {p} hp => h.fresh (hnext ▸ hp), fun {c t x} hc hx => ?_, fun c => hadopt c ▸ h.adopt_nodup c, fun {c c' x} => ?_,
    fun {c t z} hc hx => ?_, fun c => hreclaim c ▸ h.reclaim_nodup c⟩
  · rw [hlive, hcpu, hcpu]
    exact h.child hx
  · rw [hparent]
    exact h.parent (hlive ▸ hl)
  · rw [hadopt] at hx
    rw [hcur c (.inl (List.ne_nil_of_mem hx))] at hc
    rw [hlive, hcpu, hcpu]
    exact h.adopting hc hx
  · rw [hadopt, hadopt]
    exact h.adopt_disjoint
  · rw [hreclaim] at hx
    rw [hcur c (.inr (List.ne_nil_of_mem hx))] at hc
    exact ⟨(h.reclaiming hc hx).1, hz z (h.reclaiming hc hx).2⟩

/-- **A zombie that is about to be reclaimed runs nowhere**: its parent runs on its CPU. -/
theorem not_current {doom : Prop} {held : ℕ → List Spinlock} (h : Family st K)
    (hC : Control doom st held) (hz : z ∈ st.reclaimAt c) (c' : ℕ) : st.current c' ≠ some z := by
  intro hcz
  obtain ⟨t, hc⟩ := mem_reclaimAt hz
  obtain ⟨hzt, -⟩ := h.reclaiming hc hz
  obtain ⟨-, hcpu, hne⟩ := h.child hzt
  have hcc : c' = c := by
    rw [← (hC.running hcz).2.1, hcpu, (hC.running hc).2.1]
  rw [hcc, hc] at hcz
  exact hne (Option.some_injective _ hcz).symm

/-! ## Code -/

section

variable (h : Family st K) (hc : st.current c = some t)
  (hone : ∀ c', st.current c' = some t → c' = c)
include h hc hone

theorem setWork {k : List Op}
    (hadopt : ∀ x ∈ adoptIn k, (st.live x = true ∧ (st.tcb x).cpuId = (st.tcb t).cpuId ∧ x ≠ t ∧
      ∀ p, x ∉ K p) ∧ ∀ c' ≠ c, x ∉ st.adoptAt c') (hadopt' : (adoptIn k).Nodup)
    (hreclaim : ∀ z ∈ reclaimIn k, z ∈ K t ∧ (st.tcb z).state = .zombie)
    (hreclaim' : (reclaimIn k).Nodup) : Family (st.setCode t k) K := by
  have hcode := Kernel.codeAt_setCode (k := k) hc hone
  have hcpu (x : Tid) := (st.alike_setCode t x k).cpuId
  have hcur (c' : ℕ) : (st.setCode t k).current c' = st.current c' := rfl
  have hself {t' : Tid} (hc' : (st.setCode t k).current c = some t') : t' = t := by
    rw [hcur, hc] at hc'
    exact (Option.some_injective _ hc').symm
  refine ⟨h.rings, fun {p x} hx => ?_, fun {p x} hl => ?_, h.fresh, fun {c' t' x} hc' hx => ?_, fun c' => ?_,
    fun {c₁ c₂ x} hx₁ hx₂ => ?_, fun {c' t' z} hc' hz => ?_, fun c' => ?_⟩
  · rw [hcpu, hcpu]
    exact h.child hx
  · rw [st.parent_setCode]
    exact h.parent hl
  · rw [hcpu, hcpu]
    rw [Kernel.adoptAt, hcode] at hx
    split at hx
    · rename_i he
      subst he
      rw [hself hc']
      exact (hadopt x hx).1
    · exact h.adopting hc' hx
  · rw [Kernel.adoptAt, hcode]
    split
    exacts [hadopt', h.adopt_nodup c']
  · rw [Kernel.adoptAt, hcode] at hx₁ hx₂
    split at hx₁ <;> split at hx₂
    · simp_all
    · rename_i h₁ h₂
      exact absurd hx₂ ((hadopt x hx₁).2 c₂ h₂)
    · rename_i h₁ h₂
      exact absurd hx₁ ((hadopt x hx₂).2 c₁ h₁)
    · exact h.adopt_disjoint hx₁ hx₂
  · rw [(st.alike_setCode t z k).state]
    rw [Kernel.reclaimAt, hcode] at hz
    split at hz
    · rename_i he
      subst he
      rw [hself hc']
      exact hreclaim z hz
    · exact h.reclaiming hc' hz
  · rw [Kernel.reclaimAt, hcode]
    split
    exacts [hreclaim', h.reclaim_nodup c']

theorem setCode {k : List Op} (hadopt : (adoptIn k).Sublist (adoptIn (st.tcb t).code))
    (hreclaim : (reclaimIn k).Sublist (reclaimIn (st.tcb t).code)) : Family (st.setCode t k) K := by
  have ha : st.adoptAt c = adoptIn (st.tcb t).code := by rw [Kernel.adoptAt, Kernel.codeAt_eq hc]
  have hr : st.reclaimAt c = reclaimIn (st.tcb t).code := by
    rw [Kernel.reclaimAt, Kernel.codeAt_eq hc]
  rw [← ha] at hadopt
  rw [← hr] at hreclaim
  refine h.setWork hc hone (fun x hx => ⟨h.adopting hc (hadopt.subset hx), fun c' hne hx' => ?_⟩)
    ((h.adopt_nodup c).sublist hadopt) (fun z hz => h.reclaiming hc (hreclaim.subset hz))
    ((h.reclaim_nodup c).sublist hreclaim)
  exact hne (h.adopt_disjoint hx' (hadopt.subset hx))

end

/-! ## The operations -/

theorem alike_adopt (st : Kernel) (p x y : Tid) : (st.tcb y).Alike ((st.adopt p x).tcb y) :=
  st.alike_setTcb x y (fun b => { b with parent := some p }) ⟨rfl, rfl, rfl, rfl⟩

theorem code_adopt (st : Kernel) (p x y : Tid) : ((st.adopt p x).tcb y).code = (st.tcb y).code := by
  change ((st.setTcb x fun b => { b with parent := some p }).tcb y).code = _
  rw [Kernel.tcb_setTcb]
  split
  · rename_i he
    rw [he]
  · rfl

theorem codeAt_adopt (st : Kernel) (p x : Tid) (c : ℕ) : (st.adopt p x).codeAt c = st.codeAt c :=
  Kernel.codeAt_congr rfl fun y _ => code_adopt st p x y

section

variable (h : Family st K) (hc : st.current c = some t)
  (hone : ∀ c', st.current c' = some t → c' = c)
include h hc hone

theorem adopt {k : List Op} (hlt : t < st.nextTid) (hcode : (st.tcb t).code = .adopt t x :: k) :
    Family ((st.setCode t k).adopt t x) (update K t (K t ++ [x])) := by
  have hat : st.adoptAt c = x :: adoptIn k := by
    rw [Kernel.adoptAt, Kernel.codeAt_eq hc, hcode]
    rfl
  obtain ⟨hlive, hcpu, hne, hfree⟩ := h.adopting hc (by rw [hat]; exact List.mem_cons_self ..)
  have hnodup := h.adopt_nodup c
  rw [hat, List.nodup_cons] at hnodup
  have hsub₁ : (adoptIn k).Sublist (adoptIn (st.tcb t).code) := by
    rw [hcode]
    exact List.sublist_cons_self ..
  have hsub₂ : (reclaimIn k).Sublist (reclaimIn (st.tcb t).code) := by
    rw [hcode]
    exact List.Sublist.refl _
  have h₀ := h.setCode hc hone hsub₁ hsub₂
  have hat₀ (c' : ℕ) : x ∉ (st.setCode t k).adoptAt c' := by
    rw [Kernel.adoptAt, Kernel.codeAt_setCode hc hone]
    split
    · exact hnodup.1
    · rename_i hcc
      exact fun hx => hcc (h.adopt_disjoint hx (by rw [hat]; exact List.mem_cons_self ..))
  -- only the link of `x` and its parent have changed since
  have hid (y : Tid) := (alike_adopt (st.setCode t k) t x y).cpuId
  have hwork := codeAt_adopt (st.setCode t k) t x
  refine ⟨h₀.rings.pushBack hfree t, fun {p y} hy => ?_, fun {p y} hl => ?_, fun {p} hp => ?_, fun {c' t' y} hc' hy => ?_,
    fun c' => ?_, fun {c₁ c₂ y} => ?_, fun {c' t' z} hc' hz => ?_, fun c' => ?_⟩
  · rw [hid, hid]
    rcases Rings.mem_update_append.mp hy with hy | ⟨rfl, rfl⟩
    · exact h₀.child hy
    · refine ⟨hlive, ?_, hne⟩
      rw [(st.alike_setCode p y k).cpuId, (st.alike_setCode p p k).cpuId]
      exact hcpu
  · rw [Rings.mem_update_append]
    rcases eq_or_ne y x with rfl | hyx
    · rw [show ((st.setCode t k).adopt t y).tcb y = { (st.setCode t k).tcb y with parent := some t } from
        update_self ..]
      simp [hfree, eq_comm]
    · rw [show ((st.setCode t k).adopt t x).tcb y = (st.setCode t k).tcb y from
        update_of_ne hyx .., h₀.parent hl]
      simp [hyx]
  · rcases eq_or_ne p t with rfl | hpt
    · exact absurd hlt (not_lt.mpr hp)
    · rw [update_of_ne hpt]
      exact h₀.fresh hp
  · rw [Kernel.adoptAt, hwork] at hy
    rw [hid, hid]
    obtain ⟨hl, hi, hyt, hyK⟩ := h₀.adopting hc' hy
    refine ⟨hl, hi, hyt, fun p hp => ?_⟩
    rcases Rings.mem_update_append.mp hp with hp | ⟨-, rfl⟩
    exacts [hyK p hp, hat₀ c' hy]
  · rw [Kernel.adoptAt, hwork]
    exact h₀.adopt_nodup c'
  · rw [Kernel.adoptAt, Kernel.adoptAt, hwork, hwork]
    exact h₀.adopt_disjoint
  · rw [Kernel.reclaimAt, hwork] at hz
    rw [(alike_adopt (st.setCode t k) t x z).state]
    obtain ⟨hzK, hzs⟩ := h₀.reclaiming hc' hz
    exact ⟨Rings.mem_update_append.mpr (.inl hzK), hzs⟩
  · rw [Kernel.reclaimAt, hwork]
    exact h₀.reclaim_nodup c'

theorem reclaim {k : List Op} (hcode : (st.tcb t).code = .reclaim z :: k) :
    Family ((st.setCode t k).reclaim z) (update K t ((K t).erase z)) := by
  have hat : st.reclaimAt c = z :: reclaimIn k := by
    rw [Kernel.reclaimAt, Kernel.codeAt_eq hc, hcode]
    rfl
  obtain ⟨hzK, -⟩ := h.reclaiming hc (by rw [hat]; exact List.mem_cons_self ..)
  have hnodup := h.reclaim_nodup c
  rw [hat, List.nodup_cons] at hnodup
  have hsub₁ : (adoptIn k).Sublist (adoptIn (st.tcb t).code) := by
    rw [hcode]
    exact List.Sublist.refl _
  have hsub₂ : (reclaimIn k).Sublist (reclaimIn (st.tcb t).code) := by
    rw [hcode]
    exact List.sublist_cons_self ..
  have h₀ := h.setCode hc hone hsub₁ hsub₂
  have hmem {p y : Tid} : y ∈ update K t ((K t).erase z) p ↔ y ∈ K p ∧ y ≠ z := by
    rcases eq_or_ne p t with rfl | hpt
    · rw [update_self, (h.rings.nodup p).mem_erase_iff, and_comm]
    · rw [update_of_ne hpt]
      refine ⟨fun hy => ⟨hy, ?_⟩, And.left⟩
      rintro rfl
      exact hpt (h.rings.disjoint hy hzK)
  have hlive {y : Tid} (hy : y ≠ z) :
      ((st.setCode t k).reclaim z).live y = (st.setCode t k).live y :=
    update_of_ne hy ..
  refine ⟨h₀.rings.takeOff hzK, fun {p y} hy => ?_, fun {p y} hl => ?_, fun {p} hp => ?_, fun {c' t' y} hc' hy => ?_,
    h₀.adopt_nodup, h₀.adopt_disjoint, fun {c' t' y} hc' hy => ?_, h₀.reclaim_nodup⟩
  · obtain ⟨hy, hyz⟩ := hmem.mp hy
    rw [hlive hyz]
    exact h₀.child hy
  · have hyz : y ≠ z := by
      rintro rfl
      rw [show ((st.setCode t k).reclaim y).live y = false from update_self ..] at hl
      cases hl
    rw [hlive hyz] at hl
    rw [hmem, and_iff_left hyz]
    exact h₀.parent hl
  · refine List.eq_nil_iff_forall_not_mem.mpr fun y hy => ?_
    have hy := (hmem.mp hy).1
    rw [h₀.fresh hp] at hy
    cases hy
  · obtain ⟨hl, hi, hyt, hyK⟩ := h₀.adopting hc' hy
    have hyz : y ≠ z := by
      rintro rfl
      exact hyK t hzK
    rw [hlive hyz]
    exact ⟨hl, hi, hyt, fun p hp => hyK p (hmem.mp hp).1⟩
  · obtain ⟨hyK, hys⟩ := h₀.reclaiming hc' hy
    refine ⟨hmem.mpr ⟨hyK, ?_⟩, hys⟩
    rintro rfl
    change y ∈ (st.setCode t k).reclaimAt c' at hy
    rw [Kernel.reclaimAt, Kernel.codeAt_setCode hc hone] at hy
    split at hy
    · exact hnodup.1 hy
    · rename_i hcc
      have htt := h.rings.disjoint hyK hzK
      subst htt
      exact hcc (hone c' hc')

end

theorem spawn (h : Family st K) (hlt : ∀ {t}, st.live t = true → t < st.nextTid)
    (hcur : ∀ {c t}, st.current c = some t → st.live t = true) (c p : ℕ) (cls : SchedClass)
    (k : List Op) : Family (st.spawn c p cls k) K := by
  obtain ⟨x, hx⟩ : ∃ x, st.nextTid = x := ⟨_, rfl⟩
  have hdead : st.live x ≠ true := fun hl => (hlt hl).ne hx.symm
  have hnew (p : Tid) : x ∉ K p := fun hm => hdead (h.child hm).1
  have hnil : K x = [] := h.fresh (le_of_eq hx)
  have htcb {t : Tid} (ht : t ≠ x) : (st.spawn c p cls k).tcb t = st.tcb t :=
    st.tcb_spawn_of_ne k (hx ▸ ht) c p cls
  have hlive {t : Tid} (ht : t ≠ x) : (st.spawn c p cls k).live t = st.live t :=
    st.live_spawn_of_ne k (hx ▸ ht) c p cls
  have hcurx {c' : ℕ} {t : Tid} (ht : st.current c' = some t) : t ≠ x := by
    rintro rfl
    exact hdead (hcur ht)
  have hwork (c' : ℕ) : (st.spawn c p cls k).codeAt c' = st.codeAt c' :=
    Kernel.codeAt_congr rfl fun t ht => by rw [htcb (hcurx ht)]
  refine ⟨?_, fun {q y} hy => ?_, fun {q y} hl => ?_, fun {q} hq => h.fresh (Nat.le_of_succ_le hq),
    fun {c' t' y} hc' hy => ?_, fun c' => ?_, fun {c₁ c₂ y} => ?_, fun {c' t' z} hc' hz => ?_, fun c' => ?_⟩
  · have hrings := (h.rings.initElem hnew).initHead x
    have hupd : update K x [] = K := by rw [← hnil, update_eq_self]
    rw [hupd, ← hx] at hrings
    exact hrings
  · have hyx : y ≠ x := by
      rintro rfl
      exact hnew q hy
    have hqx : q ≠ x := by
      rintro rfl
      rw [hnil] at hy
      cases hy
    rw [hlive hyx, htcb hyx, htcb hqx]
    exact h.child hy
  · rcases eq_or_ne y x with rfl | hyx
    · have hself : ((st.spawn c p cls k).tcb y).parent = none := by
        rw [← hx, st.tcb_spawn_self]
      simp [hself, hnew]
    · rw [htcb hyx]
      exact h.parent (hlive hyx ▸ hl)
  · rw [Kernel.adoptAt, hwork] at hy
    have hold := h.adopting hc' hy
    have hyx : y ≠ x := by
      rintro rfl
      exact hdead hold.1
    rw [hlive hyx, htcb hyx, htcb (hcurx hc')]
    exact hold
  · rw [Kernel.adoptAt, hwork]
    exact h.adopt_nodup c'
  · rw [Kernel.adoptAt, Kernel.adoptAt, hwork, hwork]
    exact h.adopt_disjoint
  · rw [Kernel.reclaimAt, hwork] at hz
    obtain ⟨hzK, hzs⟩ := h.reclaiming hc' hz
    have hzx : z ≠ x := by
      rintro rfl
      exact hnew _ hzK
    rw [htcb hzx]
    exact ⟨hzK, hzs⟩
  · rw [Kernel.reclaimAt, hwork]
    exact h.reclaim_nodup c'

end Family

end Lume.Sched
