import Lume.Sched.Control
import Mathlib.Algebra.Order.BigOperators.Group.Finset

/-!
# Every task is on the list its state says

`run_link` links a task to a run queue or to a wait queue, and its state says which. An operation
takes one task out of the books, changes it and enters it again: `Lists st Q out` describes the
lists `Q h` of all heads while task `out` is in none of them.

## Main definitions

* `Kernel.Pending st t`: some CPU is about to enqueue `t`
* `RunHead.Fits`: what a list says about its tasks
* `Placed`: what the state of a task says about the lists
* `Lists st Q out`: the lists, with `out` taken out

## Main results

* `Lists.remove`, `Lists.takeRunning`, `Lists.unpend`: taking a task out
* `Lists.enter`, `Lists.pend`: entering it again
* `Lists.switch`: a context switch
-/

namespace Lume.Sched

open Function (update update_apply update_eq_self update_of_ne update_self)

/-! ## Pending tasks -/

/-- The tasks that code is about to enqueue, and on which CPU. -/
def pendingIn (k : List Op) : List (ℕ × Tid) :=
  k.filterMap fun
    | .enqueue c t => some (c, t)
    | _ => none

theorem mem_pendingIn {k : List Op} {c : ℕ} {t : Tid} :
    (c, t) ∈ pendingIn k ↔ Op.enqueue c t ∈ k := by
  simp only [pendingIn, List.mem_filterMap]
  constructor
  · rintro ⟨op, hop, he⟩
    cases op <;> simp at he
    obtain ⟨rfl, rfl⟩ := he
    exact hop
  · intro hop
    exact ⟨_, hop, rfl⟩

theorem pendingIn_of_quiet {k : List Op} (h : Quiet k) : pendingIn k = [] := by
  refine List.eq_nil_iff_forall_not_mem.mpr fun ⟨c, t⟩ ht => ?_
  exact absurd (h _ (mem_pendingIn.mp ht)) (by simp [Op.transient])

@[simp] theorem pendingIn_append (k k' : List Op) :
    pendingIn (k ++ k') = pendingIn k ++ pendingIn k' := List.filterMap_append

namespace Kernel

/-- The tasks that CPU `c` is about to enqueue. -/
def pendingAt (st : Kernel) (c : ℕ) : List (ℕ × Tid) := pendingIn (st.codeAt c)

/-- Some CPU is about to enqueue task `t`: it has just created it, or taken it off a wait queue. -/
def Pending (st : Kernel) (t : Tid) : Prop := ∃ c d, (d, t) ∈ st.pendingAt c

theorem pendingAt_eq {st : Kernel} {c : ℕ} {t : Tid} (h : st.current c = some t) :
    st.pendingAt c = pendingIn (st.tcb t).code := by
  rw [pendingAt, codeAt_eq h]

end Kernel

/-! ## The lists -/

/-- What a list head says about the tasks linked to it. -/
def RunHead.Fits (b : Tcb) : RunHead → Prop
  | .queue c p => b.state = .runnable ∧ b.cpuId = c ∧ b.priority = p
  | .wait _ => b.state = .sleeping

/-- What the state of a task says about the lists. -/
structure Placed (st : Kernel) (Q : RunHead → List Tid) (t : Tid) : Prop where
  running : (st.tcb t).state = .running → st.current (st.tcb t).cpuId = some t
  runnable : (st.tcb t).schedClass = .o1 → (st.tcb t).state = .runnable →
    t ∈ Q (.queue (st.tcb t).cpuId (st.tcb t).priority) ∨ st.Pending t
  sleeping : (st.tcb t).state = .sleeping → ∃ w, t ∈ Q (.wait w)

/-- The bitmap and the counters of the run queues. -/
structure Counters (rq : ℕ → RunQueue) (Q : RunHead → List Tid) : Prop where
  bitmap : ∀ c, ∀ p < kNumPriorities, ((rq c).o1.bitmap.getLsbD p = true ↔ Q (.queue c p) ≠ [])
  o1Running : ∀ c, (rq c).o1.nrRunning =
    ∑ p ∈ Finset.range kNumPriorities, (Q (.queue c p)).length
  nrRunning : ∀ c, (rq c).nrRunning =
    ∑ p ∈ Finset.range kNumPriorities, (Q (.queue c p)).length

/-- The lists `Q h` of all heads, and the task `out` on none of them. -/
structure Lists (st : Kernel) (Q : RunHead → List Tid) (out : Option Tid) : Prop where
  rings : Rings st.run Q
  member : ∀ {h t}, t ∈ Q h → st.live t = true ∧ (st.tcb t).schedClass = .o1 ∧ h.Fits (st.tcb t)
  placed : ∀ {t}, some t ≠ out → st.live t = true → Placed st Q t
  pending : ∀ {c d t}, (d, t) ∈ st.pendingAt c → st.live t = true ∧
    (st.tcb t).schedClass = .o1 ∧ (st.tcb t).state = .runnable ∧ (st.tcb t).cpuId = d ∧ ∀ h, t ∉ Q h
  nodup : ∀ c, ((st.pendingAt c).map Prod.snd).Nodup
  disjoint : ∀ {c c' d d' t}, (d, t) ∈ st.pendingAt c → (d', t) ∈ st.pendingAt c' → c = c'
  fresh : ∀ {t}, st.nextTid ≤ t → Q (.wait (.chld t)) = []
  out_free : ∀ {t}, out = some t → st.live t = true ∧ (∀ h, t ∉ Q h) ∧ ¬ st.Pending t
  counters : Counters st.rq Q

/-- Two states look the same to the lists, up to the links and the run queues. -/
structure Kernel.Alike (st st' : Kernel) : Prop where
  live : st'.live = st.live
  nextTid : st'.nextTid = st.nextTid
  current : ∀ c, st'.current c = st.current c
  pendingAt : ∀ c, st'.pendingAt c = st.pendingAt c

theorem Kernel.Alike.pending {st st' : Kernel} (h : st.Alike st') (t : Tid) :
    st'.Pending t ↔ st.Pending t := by
  simp only [Kernel.Pending, h.pendingAt]

theorem RunHead.Fits.congr {b b' : Tcb} {h : RunHead} (hf : h.Fits b) (hb : b.Alike b') :
    h.Fits b' := by
  cases h with
  | queue c p => exact ⟨hb.state.trans hf.1, hb.cpuId.trans hf.2.1, hb.priority.trans hf.2.2⟩
  | wait w => exact hb.state.trans hf

namespace Lists

variable {st st' : Kernel} {Q Q' : RunHead → List Tid} {out : Option Tid} {t x : Tid} {c : ℕ}

theorem placed_congr (hp : Placed st Q t) (hb : (st.tcb t).Alike (st'.tcb t)) (ha : st.Alike st')
    (hQ : ∀ h, t ∈ Q h → t ∈ Q' h) : Placed st' Q' t := by
  refine ⟨fun hs => ?_, fun hc hs => ?_, fun hs => ?_⟩
  · rw [ha.current, hb.cpuId]
    exact hp.running (hb.state ▸ hs)
  · rw [hb.cpuId, hb.priority, ha.pending]
    exact (hp.runnable (hb.schedClass ▸ hc) (hb.state ▸ hs)).imp_left (hQ _)
  · obtain ⟨w, hw⟩ := hp.sleeping (hb.state ▸ hs)
    exact ⟨w, hQ _ hw⟩

theorem congr (h : Lists st Q out) (ha : st.Alike st') (hrun : st'.run = st.run)
    (hb : ∀ t, (st.tcb t).Alike (st'.tcb t)) (hcount : Counters st'.rq Q) : Lists st' Q out := by
  refine ⟨hrun ▸ h.rings, fun {h' t} ht => ?_, fun {t} ho hl => ?_, fun {c d t} hp => ?_,
    fun c => ha.pendingAt c ▸ h.nodup c, fun {c c' d d' t} => ?_, fun {t} => ?_, fun {t} ho => ?_, hcount⟩
  · obtain ⟨hl, hc, hf⟩ := h.member ht
    exact ⟨ha.live ▸ hl, (hb t).schedClass.trans hc, hf.congr (hb t)⟩
  · exact placed_congr (h.placed ho (ha.live ▸ hl)) (hb t) ha fun _ => id
  · rw [ha.pendingAt] at hp
    obtain ⟨hl, hc, hs, hd, hq⟩ := h.pending hp
    exact ⟨ha.live ▸ hl, (hb t).schedClass.trans hc, (hb t).state.trans hs, (hb t).cpuId.trans hd, hq⟩
  · rw [ha.pendingAt, ha.pendingAt]
    exact h.disjoint
  · rw [ha.nextTid]
    exact h.fresh
  · obtain ⟨hl, hq, hp⟩ := h.out_free ho
    exact ⟨ha.live ▸ hl, hq, fun hp' => hp ((ha.pending t).mp hp')⟩

theorem remove (h : Lists st Q none) {h₀ : RunHead} (hx : x ∈ Q h₀) (ha : st.Alike st')
    (hrings : Rings st'.run (update Q h₀ ((Q h₀).erase x))) (hb : ∀ t, (st.tcb t).Alike (st'.tcb t))
    (hcount : Counters st'.rq (update Q h₀ ((Q h₀).erase x))) :
    Lists st' (update Q h₀ ((Q h₀).erase x)) (some x) := by
  have hsub {h' : RunHead} {t : Tid} (ht : t ∈ update Q h₀ ((Q h₀).erase x) h') :
      t ∈ Q h' := by
    rcases eq_or_ne h' h₀ with rfl | hne
    · rw [update_self] at ht
      exact List.mem_of_mem_erase ht
    · rwa [update_of_ne hne] at ht
  have hkeep {h' : RunHead} {t : Tid} (htx : t ≠ x) (ht : t ∈ Q h') :
      t ∈ update Q h₀ ((Q h₀).erase x) h' := by
    rcases eq_or_ne h' h₀ with rfl | hne
    · rw [update_self]
      exact (List.mem_erase_of_ne htx).mpr ht
    · rwa [update_of_ne hne]
  refine ⟨hrings, fun {h' t} ht => ?_, fun {t} ho hl => ?_, fun {c d t} hp => ?_,
    fun c => ha.pendingAt c ▸ h.nodup c, fun {c c' d d' t} => ?_, fun {t} ht => ?_, fun {t} ho => ?_, hcount⟩
  · obtain ⟨hl, hc, hf⟩ := h.member (hsub ht)
    exact ⟨ha.live ▸ hl, (hb t).schedClass.trans hc, hf.congr (hb t)⟩
  · have htx : t ≠ x := fun he => ho (congrArg some he)
    exact placed_congr (h.placed (by simp) (ha.live ▸ hl)) (hb t) ha fun _ => hkeep htx
  · rw [ha.pendingAt] at hp
    obtain ⟨hl, hc, hs, hd, hq⟩ := h.pending hp
    exact ⟨ha.live ▸ hl, (hb t).schedClass.trans hc, (hb t).state.trans hs, (hb t).cpuId.trans hd,
      fun h' ht => hq h' (hsub ht)⟩
  · rw [ha.pendingAt, ha.pendingAt]
    exact h.disjoint
  · rw [ha.nextTid] at ht
    refine List.eq_nil_iff_forall_not_mem.mpr fun y hy => ?_
    have := hsub hy
    rw [h.fresh ht] at this
    cases this
  · obtain rfl := Option.some_injective _ ho
    refine ⟨ha.live ▸ (h.member hx).1, fun h' hx' => ?_, fun hp => ?_⟩
    · -- it was on one list, once
      obtain rfl := h.rings.disjoint (hsub hx') hx
      rw [update_self] at hx'
      exact (h.rings.nodup h').not_mem_erase hx'
    · obtain ⟨c, d, hp⟩ := (ha.pending x).mp hp
      exact (h.pending hp).2.2.2.2 _ hx

theorem takeRunning (h : Lists st Q none) (hl : st.live t = true)
    (hs : (st.tcb t).state = .running) : Lists st Q (some t) := by
  refine ⟨h.rings, h.member, fun _ => h.placed (by simp), h.pending, h.nodup, h.disjoint, h.fresh,
    fun {x} ho => ?_, h.counters⟩
  obtain rfl := Option.some_injective _ ho
  refine ⟨hl, fun h' ht => ?_, fun hp => ?_⟩
  · have hf := (h.member ht).2.2
    cases h' with
    | queue c p => exact absurd (hs.symm.trans hf.1) (by decide)
    | wait w => exact absurd (hs.symm.trans hf) (by decide)
  · obtain ⟨c, d, hp⟩ := hp
    exact absurd (hs.symm.trans (h.pending hp).2.2.1) (by decide)

theorem takeIdle (h : Lists st Q none) (hl : st.live t = true)
    (hc : (st.tcb t).schedClass = .idle) : Lists st Q (some t) := by
  refine ⟨h.rings, h.member, fun _ => h.placed (by simp), h.pending, h.nodup, h.disjoint, h.fresh,
    fun {x} ho => ?_, h.counters⟩
  obtain rfl := Option.some_injective _ ho
  refine ⟨hl, fun h' ht => ?_, fun ⟨_, _, hp⟩ => ?_⟩
  · exact absurd (hc.symm.trans (h.member ht).2.1) (by decide)
  · exact absurd (hc.symm.trans (h.pending hp).2.1) (by decide)

theorem close (h : Lists st Q (some x)) (hp : Placed st Q x) : Lists st Q none := by
  refine ⟨h.rings, h.member, fun {t} _ hl => ?_, h.pending, h.nodup, h.disjoint, h.fresh, by simp,
    h.counters⟩
  rcases eq_or_ne t x with rfl | htx
  · exact hp
  · exact h.placed (fun he => htx (Option.some_injective _ he)) hl

theorem settle (h : Lists st Q (some x)) (h₀ : Option RunHead) {out' : Option Tid}
    (ha : st.Alike st') (hrings : Rings st'.run Q')
    (hQ : ∀ {h' t}, t ∈ Q' h' ↔ t ∈ Q h' ∨ t = x ∧ h₀ = some h')
    (hb : ∀ t ≠ x, (st.tcb t).Alike (st'.tcb t))
    (hfits : ∀ h', h₀ = some h' → (st'.tcb x).schedClass = .o1 ∧ h'.Fits (st'.tcb x) ∧
      ∀ t, h' = .wait (.chld t) → t < st.nextTid) (hcount : Counters st'.rq Q')
    (hout : out' = some x ∧ h₀ = none ∨ out' = none ∧ Placed st' Q' x) : Lists st' Q' out' := by
  obtain ⟨hlx, hqx, hpx⟩ := h.out_free rfl
  refine ⟨hrings, fun {h' t} ht => ?_, fun {t} ho hl => ?_, fun {c d t} hp => ?_,
    fun c => ha.pendingAt c ▸ h.nodup c, fun {c c' d d' t} => ?_, fun {t} ht => ?_, fun {t} ho => ?_, hcount⟩
  · rcases hQ.mp ht with ht | ⟨rfl, he⟩
    · have htx : t ≠ x := by
        rintro rfl
        exact hqx _ ht
      obtain ⟨hl, hc, hf⟩ := h.member ht
      exact ⟨ha.live ▸ hl, (hb t htx).schedClass.trans hc, hf.congr (hb t htx)⟩
    · exact ⟨ha.live ▸ hlx, (hfits _ he).1, (hfits _ he).2.1⟩
  · rcases eq_or_ne t x with rfl | htx
    · rcases hout with ⟨rfl, -⟩ | ⟨-, hplaced⟩
      · exact absurd rfl ho
      · exact hplaced
    · refine placed_congr (h.placed (fun he => htx (Option.some_injective _ he)) (ha.live ▸ hl))
        (hb t htx) ha fun _ ht => hQ.mpr (.inl ht)
  · rw [ha.pendingAt] at hp
    have htx : t ≠ x := by
      rintro rfl
      exact hpx ⟨c, d, hp⟩
    obtain ⟨hl, hc, hs, hd, hq⟩ := h.pending hp
    refine ⟨ha.live ▸ hl, (hb t htx).schedClass.trans hc, (hb t htx).state.trans hs,
      (hb t htx).cpuId.trans hd, fun h' ht => ?_⟩
    rcases hQ.mp ht with ht | ⟨rfl, -⟩
    exacts [hq h' ht, htx rfl]
  · rw [ha.pendingAt, ha.pendingAt]
    exact h.disjoint
  · rw [ha.nextTid] at ht
    refine List.eq_nil_iff_forall_not_mem.mpr fun y hy => ?_
    rcases hQ.mp hy with hy | ⟨-, he⟩
    · rw [h.fresh ht] at hy
      cases hy
    · exact absurd ((hfits _ he).2.2 t rfl) (not_lt.mpr ht)
  · rcases hout with ⟨rfl, rfl⟩ | ⟨rfl, -⟩
    · obtain rfl := Option.some_injective _ ho
      refine ⟨ha.live ▸ hlx, fun h' ht => ?_, fun hp => hpx ((ha.pending x).mp hp)⟩
      rcases hQ.mp ht with ht | ⟨-, he⟩
      · exact hqx h' ht
      · cases he
    · cases ho

end Lists

/-! ## The bitmap -/

theorem getLsbD_one_shiftLeft {p q : ℕ} (hq : q < 32) :
    (1#32 <<< p).getLsbD q = decide (q = p) := by
  rw [BitVec.getLsbD_shiftLeft, BitVec.getLsbD_one]
  simp only [hq]
  by_cases h : q = p
  · simp [h]
  · simp [h]; omega

theorem getLsbD_setBit {b : BitVec 32} {p q : ℕ} (hq : q < 32) :
    (b ||| (1#32 <<< p)).getLsbD q = true ↔ q = p ∨ b.getLsbD q = true := by
  rw [BitVec.getLsbD_or, getLsbD_one_shiftLeft hq]
  simp [or_comm]

theorem getLsbD_clearBit {b : BitVec 32} {p q : ℕ} (hq : q < 32) :
    (b &&& ~~~(1#32 <<< p)).getLsbD q = true ↔ q ≠ p ∧ b.getLsbD q = true := by
  rw [BitVec.getLsbD_and, BitVec.getLsbD_not, getLsbD_one_shiftLeft hq]
  simp [hq, and_comm]

theorem ctzRound_spec {v : BitVec 32} {k : ℕ} {r : ℕ × BitVec 32} (hk : k < 32)
    (hr : r.2 = v >>> r.1) (hlow : ∀ j < r.1, v.getLsbD j = false)
    (hbit : ∃ j < 2 * k, r.2.getLsbD j = true) :
    (ctzRound k r).2 = v >>> (ctzRound k r).1 ∧ (∀ j < (ctzRound k r).1, v.getLsbD j = false) ∧
      ∃ j < k, (ctzRound k r).2.getLsbD j = true := by
  have hmask : r.2 &&& BitVec.ofNat 32 (2 ^ k - 1) = 0 ↔ ∀ j < k, r.2.getLsbD j = false := by
    constructor
    · intro h j hj
      have hj' : (r.2 &&& BitVec.ofNat 32 (2 ^ k - 1)).getLsbD j = (0 : BitVec 32).getLsbD j := by
        rw [h]
      have hlt : j < 32 := by omega
      simpa only [BitVec.getLsbD_and, BitVec.getLsbD_ofNat, Nat.testBit_two_pow_sub_one, hj, hlt,
        decide_true, Bool.and_true, BitVec.ofNat_eq_ofNat, BitVec.getLsbD_zero, Nat.zero_testBit,
        Bool.and_false] using hj'
    · intro h
      refine BitVec.eq_of_getLsbD_eq fun j hj => ?_
      simp only [BitVec.getLsbD_and, BitVec.getLsbD_ofNat, Nat.testBit_two_pow_sub_one]
      by_cases hjk : j < k
      · simp [h j hjk]
      · simp [hjk]
  rw [ctzRound]
  split
  · rename_i hz
    have hz := hmask.mp hz
    refine ⟨?_, fun j hj => ?_, ?_⟩
    · dsimp only
      rw [hr, BitVec.shiftRight_add]
    · dsimp only at hj
      by_cases hjr : j < r.1
      · exact hlow j hjr
      · have := hz (j - r.1) (by omega)
        rw [hr, BitVec.getLsbD_ushiftRight] at this
        rwa [Nat.add_sub_cancel' (by omega)] at this
    · obtain ⟨j, hj, hset⟩ := hbit
      have hkj : k ≤ j := by
        by_contra hlt
        rw [hz j (by omega)] at hset
        cases hset
      refine ⟨j - k, by omega, ?_⟩
      dsimp only
      rw [BitVec.getLsbD_ushiftRight, Nat.add_sub_cancel' hkj]
      exact hset
  · rename_i hnz
    rw [hmask] at hnz
    push Not at hnz
    obtain ⟨j, hj, hset⟩ := hnz
    exact ⟨hr, hlow, j, hj, by simpa using hset⟩

theorem ctz32_spec {v : BitVec 32} (hv : v ≠ 0) :
    v.getLsbD (ctz32 v) = true ∧ ∀ j < ctz32 v, v.getLsbD j = false := by
  have hbit : ∃ j < 2 * 16, v.getLsbD j = true := by
    by_contra h
    push Not at h
    exact hv (BitVec.eq_of_getLsbD_eq fun j hj => by simpa using h j hj)
  obtain ⟨h₁, l₁, b₁⟩ := ctzRound_spec (v := v) (k := 16) (r := (0, v)) (by decide) (by simp)
    (by simp) hbit
  obtain ⟨h₂, l₂, b₂⟩ := ctzRound_spec (k := 8) (by decide) h₁ l₁ b₁
  obtain ⟨h₃, l₃, b₃⟩ := ctzRound_spec (k := 4) (by decide) h₂ l₂ b₂
  obtain ⟨h₄, l₄, b₄⟩ := ctzRound_spec (k := 2) (by decide) h₃ l₃ b₃
  obtain ⟨h₅, l₅, j, hj, b₅⟩ := ctzRound_spec (k := 1) (by decide) h₄ l₄ b₄
  obtain rfl : j = 0 := by omega
  rw [h₅, BitVec.getLsbD_ushiftRight, Nat.add_zero] at b₅
  exact ⟨b₅, l₅⟩
/-! ## Counters -/

namespace Counters

variable {rq : ℕ → RunQueue} {Q : RunHead → List Tid} {c p : ℕ} {l : List Tid}

theorem wait (h : Counters rq Q) (w : WaitQueue) : Counters rq (update Q (.wait w) l) := by
  have hne (c p : ℕ) : RunHead.queue c p ≠ .wait w := by simp
  refine ⟨fun c p hp => ?_, fun c => ?_, fun c => ?_⟩
  all_goals simp only [update_of_ne (hne _ _)]
  exacts [h.bitmap c p hp, h.o1Running c, h.nrRunning c]

theorem queue (h : Counters rq Q) (hp : p < kNumPriorities) {r : RunQueue}
    (hbit : ∀ q < kNumPriorities, (r.o1.bitmap.getLsbD q = true ↔
      if q = p then l ≠ [] else (rq c).o1.bitmap.getLsbD q = true))
    (ho1 : r.o1.nrRunning + (Q (.queue c p)).length = (rq c).o1.nrRunning + l.length)
    (hnr : r.nrRunning + (Q (.queue c p)).length = (rq c).nrRunning + l.length) :
    Counters (update rq c r) (update Q (.queue c p) l) := by
  -- the sum changes by what the one queue changes
  have hsum : (∑ q ∈ Finset.range kNumPriorities,
        (update Q (.queue c p) l (.queue c q)).length) + (Q (.queue c p)).length =
      (∑ q ∈ Finset.range kNumPriorities, (Q (.queue c q)).length) + l.length := by
    have hmem : p ∈ Finset.range kNumPriorities := Finset.mem_range.mpr hp
    rw [← Finset.add_sum_erase _ _ hmem, ← Finset.add_sum_erase (Finset.range kNumPriorities) _ hmem,
      update_self]
    have hrest : ∑ q ∈ (Finset.range kNumPriorities).erase p,
          (update Q (.queue c p) l (.queue c q)).length =
        ∑ q ∈ (Finset.range kNumPriorities).erase p, (Q (.queue c q)).length := by
      refine Finset.sum_congr rfl fun q hq => ?_
      rw [update_of_ne]
      simpa using Finset.ne_of_mem_erase hq
    rw [hrest]
    omega
  refine ⟨fun c' q hq => ?_, fun c' => ?_, fun c' => ?_⟩
  all_goals rcases eq_or_ne c' c with rfl | hc
  · rw [update_self, hbit q hq]
    rcases eq_or_ne q p with rfl | hqp
    · simp
    · rw [if_neg hqp, update_of_ne (by simpa using hqp)]
      exact h.bitmap c' q hq
  · rw [update_of_ne hc, update_of_ne (by simp [hc])]
    exact h.bitmap c' q hq
  · rw [update_self]
    have := h.o1Running c'
    omega
  · simp only [update_of_ne hc, ne_eq, RunHead.queue.injEq, hc, false_and, not_false_eq_true,
      update_of_ne]
    exact h.o1Running c'
  · rw [update_self]
    have := h.nrRunning c'
    omega
  · simp only [update_of_ne hc, ne_eq, RunHead.queue.injEq, hc, false_and, not_false_eq_true,
      update_of_ne]
    exact h.nrRunning c'

end Counters

/-! ## The operations -/

namespace Kernel

variable (st : Kernel)

theorem pendingAt_congr {st st' : Kernel} (hcur : ∀ c, st'.current c = st.current c)
    (hcode : ∀ t, (st'.tcb t).code = (st.tcb t).code) (c : ℕ) : st'.pendingAt c = st.pendingAt c := by
  rw [pendingAt, codeAt_congr (hcur c) fun t _ => hcode t, pendingAt]

theorem setRq_alike {c : ℕ} {f : RunQueue → RunQueue} (hf : (f (st.rq c)).current = st.current c) :
    st.Alike (st.setRq c f) :=
  ⟨rfl, rfl, st.current_setRq hf, pendingAt_congr (st.current_setRq hf) fun _ => rfl⟩

theorem Alike.trans {st st' st'' : Kernel} (h : st.Alike st') (h' : st'.Alike st'') :
    st.Alike st'' :=
  ⟨h'.live.trans h.live, h'.nextTid.trans h.nextTid, fun c => (h'.current c).trans (h.current c),
    fun c => (h'.pendingAt c).trans (h.pendingAt c)⟩

theorem Alike.setRun {st st' : Kernel} (h : st.Alike st') (run : Links RunHead Tid) :
    st.Alike { st' with run := run } :=
  ⟨h.live, h.nextTid, h.current, h.pendingAt⟩

theorem setState_alike (t : Tid) (s : TaskState) : st.Alike (st.setState t s) :=
  ⟨rfl, rfl, fun _ => rfl, pendingAt_congr (fun _ => rfl) fun x => st.code_setState t x s⟩

end Kernel

namespace Lists

variable {st st' : Kernel} {Q Q' : RunHead → List Tid} {out : Option Tid} {t x : Tid} {c : ℕ}

section

variable (h : Lists st Q (some x))
include h

theorem setState (s : TaskState) : Lists (st.setState x s) Q (some x) := by
  exact h.settle none (st.setState_alike x s) h.rings (by simp) (fun t ht => st.alike_setState ht s)
    (by simp) h.counters (.inl ⟨rfl, rfl⟩)

theorem enter {h₀ : RunHead} (ha : st.Alike st')
    (hrun : st'.run = st.run.pushBack h₀ x) (hb : ∀ t ≠ x, (st.tcb t).Alike (st'.tcb t))
    (hclass : (st'.tcb x).schedClass = .o1) (hfits : h₀.Fits (st'.tcb x))
    (hchld : ∀ t, h₀ = .wait (.chld t) → t < st.nextTid)
    (hcount : Counters st'.rq (update Q h₀ (Q h₀ ++ [x]))) :
    Lists st' (update Q h₀ (Q h₀ ++ [x])) none := by
  have hx : x ∈ update Q h₀ (Q h₀ ++ [x]) h₀ := by simp
  refine h.settle (some h₀) ha ?_ (fun {h' t} => ?_) hb (fun h' he => ?_) hcount (.inr ⟨rfl, ?_⟩)
  · rw [hrun]
    exact h.rings.pushBack (h.out_free rfl).2.1 h₀
  · rw [Rings.mem_update_append]
    simp only [Option.some_inj, and_comm, eq_comm]
  · obtain rfl := Option.some_injective _ he
    exact ⟨hclass, hfits, hchld⟩
  · cases h₀ with
    | queue c p =>
      obtain ⟨hs, rfl, rfl⟩ := hfits
      refine ⟨fun hr => ?_, fun _ _ => .inl hx, fun hr => ?_⟩
      · exact absurd (hs.symm.trans hr) (by decide)
      · exact absurd (hs.symm.trans hr) (by decide)
    | wait w =>
      have hs : (st'.tcb x).state = .sleeping := hfits
      refine ⟨fun hr => ?_, fun _ hr => ?_, fun _ => ⟨w, hx⟩⟩
      · exact absurd (hs.symm.trans hr) (by decide)
      · exact absurd (hs.symm.trans hr) (by decide)

theorem o1Enqueue (hcls : (st.tcb x).schedClass = .o1)
    (hc : (st.tcb x).cpuId = c) (hp : (st.tcb x).priority < kNumPriorities) :
    Lists (st.o1Enqueue c x) (update Q (.queue c (st.tcb x).priority)
      (Q (.queue c (st.tcb x).priority) ++ [x])) none := by
  have hrq : st.Alike (st.setRq c fun rq => { rq with
      nrRunning := rq.nrRunning + 1
      o1 := ⟨rq.o1.bitmap ||| (1#32 <<< (st.tcb x).priority), rq.o1.nrRunning + 1⟩ }) :=
    st.setRq_alike rfl
  refine h.enter ((hrq.trans (Kernel.setState_alike _ x .runnable)).setRun _) rfl
    (fun t ht => st.alike_setState ht _) ?_ ⟨?_, ?_, ?_⟩ (by simp)
    (h.counters.queue hp (fun q hq => ?_) (by simp; omega) (by simp; omega))
  · exact (st.schedClass_setState x x _).trans hcls
  · exact (st.state_setState x x _).trans (if_pos rfl)
  · exact (st.cpuId_setState x x _).trans hc
  · exact st.priority_setState x x _
  · -- the bit of the queue is set
    rw [getLsbD_setBit hq]
    split <;> simp_all

theorem linkWaiter (hcls : (st.tcb x).schedClass = .o1) {w : WaitQueue}
    (hw : ∀ t, w = .chld t → t < st.nextTid) :
    Lists (st.linkWaiter w x) (update Q (.wait w) (Q (.wait w) ++ [x])) none := by
  refine h.enter ((st.setState_alike x .sleeping).setRun _) rfl (fun t ht => st.alike_setState ht _) ?_ ?_ ?_
    (h.counters.wait w)
  · exact (st.schedClass_setState x x _).trans hcls
  · exact (st.state_setState x x _).trans (if_pos rfl)
  · intro t he
    cases he
    exact hw t rfl

end

theorem takeWaiter (h : Lists st Q none) {w : WaitQueue} (hx : x ∈ Q (.wait w)) :
    Lists (st.takeWaiter x) (update Q (.wait w) ((Q (.wait w)).erase x)) (some x) := by
  have hout : Lists { st with run := (st.run.unlink x).init (.inr x) }
      (update Q (.wait w) ((Q (.wait w)).erase x)) (some x) :=
    h.remove hx ⟨rfl, rfl, fun _ => rfl, fun _ => rfl⟩ (h.rings.takeOff hx)
      (fun _ => ⟨rfl, rfl, rfl, rfl⟩) (h.counters.wait w)
  exact hout.setState .runnable

theorem o1Dequeue (h : Lists st Q none) {p : ℕ} (hp : p < kNumPriorities)
    (hx : x ∈ Q (.queue c p)) :
    Lists (st.o1Dequeue c x) (update Q (.queue c p) ((Q (.queue c p)).erase x)) (some x) := by
  obtain ⟨-, -, hs, hc, rfl⟩ := h.member hx
  have hrings := h.rings.takeOff hx
  have hpos : 0 < (Q (.queue c (st.tcb x).priority)).length := List.length_pos_of_mem hx
  have hlen := List.length_erase_of_mem hx
  have hle : (Q (.queue c (st.tcb x).priority)).length ≤
      ∑ q ∈ Finset.range kNumPriorities, (Q (.queue c q)).length :=
    Finset.single_le_sum (f := fun q => (Q (.queue c q)).length) (fun _ _ => Nat.zero_le _)
      (Finset.mem_range.mpr hp)
  have ho1 := h.counters.o1Running c
  have hnr := h.counters.nrRunning c
  refine h.remove hx ?_ hrings (fun _ => ⟨rfl, rfl, rfl, rfl⟩)
    (h.counters.queue hp (fun q hq => ?_) ?_ ?_)
  · exact (Kernel.setRq_alike st (f := fun rq => { rq with
      nrRunning := rq.nrRunning - 1
      o1 := ⟨if ((st.run.unlink x).init (.inr x)).isEmpty (.queue c (st.tcb x).priority) then
          rq.o1.bitmap &&& ~~~(1#32 <<< (st.tcb x).priority) else rq.o1.bitmap,
        rq.o1.nrRunning - 1⟩ }) rfl).setRun _
  · -- the bit of the queue is cleared when the queue is empty now
    have hempty := hrings.isEmpty (.queue c (st.tcb x).priority)
    rw [update_self] at hempty
    have hset := h.counters.bitmap c _ hp
    dsimp only
    split
    · rename_i he
      rw [getLsbD_clearBit hq, hempty.mp he]
      split <;> simp_all
    · rename_i he
      rw [hempty] at he
      split
      · rename_i hqp
        rw [hqp, hset]
        exact iff_of_true (List.ne_nil_of_mem hx) he
      · rfl
  · dsimp only
    omega
  · dsimp only
    omega

/-! ## Code -/

theorem pendingAt_setCode {k : List Op} (hc : st.current c = some t)
    (hone : ∀ c', st.current c' = some t → c' = c) (c' : ℕ) :
    (st.setCode t k).pendingAt c' = if c' = c then pendingIn k else st.pendingAt c' := by
  rw [Kernel.pendingAt, Kernel.codeAt_setCode hc hone]
  split <;> rfl

theorem setCode (h : Lists st Q out) {k : List Op} (hc : st.current c = some t)
    (hone : ∀ c', st.current c' = some t → c' = c) (hk : pendingIn k = pendingIn (st.tcb t).code) :
    Lists (st.setCode t k) Q out := by
  refine h.congr ⟨rfl, rfl, fun _ => rfl, fun c' => ?_⟩ rfl (fun x => st.alike_setCode t x k) h.counters
  rw [pendingAt_setCode hc hone, hk, ← Kernel.pendingAt_eq hc]
  split
  · rename_i he
    rw [he]
  · rfl

theorem pend (h : Lists st Q (some x)) {k : List Op} {d : ℕ} (hc : st.current c = some t)
    (hone : ∀ c', st.current c' = some t → c' = c)
    (hk : pendingIn k = (d, x) :: pendingIn (st.tcb t).code) (hcx : (st.tcb x).schedClass = .o1)
    (hs : (st.tcb x).state = .runnable) (hd : (st.tcb x).cpuId = d) :
    Lists (st.setCode t k) Q none := by
  obtain ⟨hlx, hqx, hpx⟩ := h.out_free rfl
  have hat := pendingAt_setCode (k := k) hc hone
  rw [hk, ← Kernel.pendingAt_eq hc] at hat
  have hmem {c' e : ℕ} {y : Tid} (hy : (e, y) ∈ (st.setCode t k).pendingAt c') :
      (y = x ∧ e = d) ∧ c' = c ∨ (e, y) ∈ st.pendingAt c' := by
    rw [hat] at hy
    split at hy
    · rename_i he
      rcases List.mem_cons.mp hy with hy | hy
      · cases hy
        exact .inl ⟨⟨rfl, rfl⟩, he⟩
      · exact .inr (he ▸ hy)
    · exact .inr hy
  have hmono {y : Tid} (hy : st.Pending y) : (st.setCode t k).Pending y := by
    obtain ⟨c', e, hy⟩ := hy
    refine ⟨c', e, ?_⟩
    rw [hat]
    split
    · rename_i he
      exact List.mem_cons_of_mem _ (he ▸ hy)
    · exact hy
  have hx : (st.setCode t k).Pending x :=
    ⟨c, d, by rw [hat, if_pos rfl]; exact List.mem_cons_self ..⟩
  refine ⟨h.rings, fun {h' y} hy => ?_, fun {y} _ hl => ?_, fun {c' e y} hy => ?_, fun c' => ?_,
    fun {c₁ c₂ d₁ d₂ y} hy₁ hy₂ => ?_, h.fresh, by simp, h.counters⟩
  · obtain ⟨hl, hc, hf⟩ := h.member hy
    exact ⟨hl, (st.alike_setCode t y k).schedClass.trans hc, hf.congr (st.alike_setCode t y k)⟩
  · have hb := st.alike_setCode t y k
    rcases eq_or_ne y x with rfl | hyx
    · refine ⟨fun hr => ?_, fun _ _ => .inr hx, fun hr => ?_⟩
      · exact absurd (hs.symm.trans (hb.state.symm.trans hr)) (by decide)
      · exact absurd (hs.symm.trans (hb.state.symm.trans hr)) (by decide)
    · have hp := h.placed (fun he => hyx (Option.some_injective _ he)) hl
      refine ⟨fun hr => ?_, fun hc' hr => ?_, fun hr => hp.sleeping (hb.state ▸ hr)⟩
      · rw [hb.cpuId]
        exact hp.running (hb.state ▸ hr)
      · rw [hb.cpuId, hb.priority]
        exact (hp.runnable (hb.schedClass ▸ hc') (hb.state ▸ hr)).imp_right hmono
  · have hb := st.alike_setCode t y k
    rw [hb.schedClass, hb.state, hb.cpuId]
    rcases hmem hy with ⟨⟨rfl, rfl⟩, -⟩ | hy
    · exact ⟨hlx, hcx, hs, hd, hqx⟩
    · exact h.pending hy
  · rw [hat]
    split
    · rw [List.map_cons, List.nodup_cons]
      refine ⟨fun hx => ?_, h.nodup c⟩
      obtain ⟨⟨e, y⟩, hy, rfl⟩ := List.mem_map.mp hx
      exact hpx ⟨c, e, hy⟩
    · exact h.nodup c'
  · rcases hmem hy₁ with ⟨⟨rfl, rfl⟩, rfl⟩ | hy₁ <;> rcases hmem hy₂ with ⟨⟨hyx, rfl⟩, rfl⟩ | hy₂
    · rfl
    · exact absurd ⟨c₂, d₂, hy₂⟩ hpx
    · exact absurd ⟨c₁, d₁, hyx ▸ hy₁⟩ hpx
    · exact h.disjoint hy₁ hy₂

theorem unpend (h : Lists st Q none) {k : List Op} {d : ℕ} (hc : st.current c = some t)
    (hone : ∀ c', st.current c' = some t → c' = c)
    (hk : pendingIn (st.tcb t).code = (d, x) :: pendingIn k) : Lists (st.setCode t k) Q (some x) := by
  have hat := pendingAt_setCode (k := k) hc hone
  have hold : st.pendingAt c = (d, x) :: pendingIn k := (Kernel.pendingAt_eq hc).trans hk
  have hin : (d, x) ∈ st.pendingAt c := by
    rw [hold]
    exact List.mem_cons_self ..
  obtain ⟨hlx, hcx, hsx, hdx, hqx⟩ := h.pending hin
  have hnodup := h.nodup c
  rw [hold, List.map_cons, List.nodup_cons] at hnodup
  have hsub {c' e : ℕ} {y : Tid} (hy : (e, y) ∈ (st.setCode t k).pendingAt c') :
      (e, y) ∈ st.pendingAt c' ∧ y ≠ x := by
    rw [hat] at hy
    split at hy
    · rename_i he
      refine ⟨by rw [he, hold]; exact List.mem_cons_of_mem _ hy, ?_⟩
      rintro rfl
      exact hnodup.1 (List.mem_map.mpr ⟨_, hy, rfl⟩)
    · rename_i hne
      refine ⟨hy, ?_⟩
      rintro rfl
      exact hne (h.disjoint hy hin)
  have hkeep {y : Tid} (hyx : y ≠ x) (hy : st.Pending y) : (st.setCode t k).Pending y := by
    obtain ⟨c', e, hy⟩ := hy
    refine ⟨c', e, ?_⟩
    rw [hat]
    split
    · rename_i he
      rw [he, hold] at hy
      refine (List.mem_cons.mp hy).resolve_left fun he => hyx ?_
      cases he
      rfl
    · exact hy
  refine ⟨h.rings, fun {h' y} hy => ?_, fun {y} ho hl => ?_, fun {c' e y} hy => ?_, fun c' => ?_,
    fun {c₁ c₂ d₁ d₂ y} hy₁ hy₂ => ?_, h.fresh, fun {y} ho => ?_, h.counters⟩
  · obtain ⟨hl, hc, hf⟩ := h.member hy
    exact ⟨hl, (st.alike_setCode t y k).schedClass.trans hc, hf.congr (st.alike_setCode t y k)⟩
  · have hb := st.alike_setCode t y k
    have hyx : y ≠ x := fun he => ho (congrArg some he)
    have hp := h.placed (by simp) hl
    refine ⟨fun hr => ?_, fun hc' hr => ?_, fun hr => hp.sleeping (hb.state ▸ hr)⟩
    · rw [hb.cpuId]
      exact hp.running (hb.state ▸ hr)
    · rw [hb.cpuId, hb.priority]
      exact (hp.runnable (hb.schedClass ▸ hc') (hb.state ▸ hr)).imp_right (hkeep hyx)
  · have hb := st.alike_setCode t y k
    rw [hb.schedClass, hb.state, hb.cpuId]
    exact h.pending (hsub hy).1
  · have hnd := h.nodup c'
    rw [hat]
    split
    · exact hnodup.2
    · exact hnd
  · exact h.disjoint (hsub hy₁).1 (hsub hy₂).1
  · obtain rfl := Option.some_injective _ ho
    refine ⟨hlx, hqx, ?_⟩
    rintro ⟨c', e, hy⟩
    exact (hsub hy).2 rfl

/-! ## Current tasks -/

theorem switch (h : Lists st Q out) {next : Tid} {f : RunQueue → RunQueue}
    (hout : ∀ t, out = some t → t = next) (hf : (f (st.rq c)).current = some next)
    (ho1 : (f (st.rq c)).o1 = (st.rq c).o1) (hnr : (f (st.rq c)).nrRunning = (st.rq c).nrRunning)
    (hpend : st.pendingAt c = []) (hnext : pendingIn (st.tcb next).code = [])
    (hrun : (st.tcb next).state = .running) (hcpu : (st.tcb next).cpuId = c)
    (hprev : ∀ t, st.live t = true → (st.tcb t).cpuId = c → (st.tcb t).state = .running → t = next) :
    Lists (st.setRq c f) Q none := by
  have hcur (c' : ℕ) : (st.setRq c f).current c' = if c' = c then some next else st.current c' := by
    change (update st.rq c (f (st.rq c)) c').current = _
    rw [update_apply]
    split
    exacts [hf, rfl]
  have hat (c' : ℕ) : (st.setRq c f).pendingAt c' = st.pendingAt c' := by
    rcases eq_or_ne c' c with rfl | hne
    · rw [hpend, Kernel.pendingAt_eq ((hcur c').trans (if_pos rfl))]
      exact hnext
    · rw [Kernel.pendingAt, Kernel.codeAt_congr ((hcur c').trans (if_neg hne)) fun _ _ => rfl,
        Kernel.pendingAt]
  have hP (t : Tid) : (st.setRq c f).Pending t ↔ st.Pending t := by simp only [Kernel.Pending, hat]
  refine ⟨h.rings, h.member, fun {t} _ hl => ?_, fun {c' d t} ht => h.pending (hat c' ▸ ht),
    fun c' => hat c' ▸ h.nodup c', fun {c₁ c₂ d₁ d₂ t} => ?_, h.fresh, by simp, ?_⟩
  · rcases eq_or_ne t next with rfl | hne
    · refine ⟨fun _ => ?_, fun _ hr => ?_, fun hr => ?_⟩
      · rw [hcur]
        exact if_pos hcpu
      · exact absurd (hrun.symm.trans hr) (by decide)
      · exact absurd (hrun.symm.trans hr) (by decide)
    · have hp := h.placed (fun he => hne (hout t he.symm)) hl
      refine ⟨fun hr => ?_, fun hc' hr => ?_, hp.sleeping⟩
      · rw [hcur]
        exact (if_neg fun he => hne (hprev t hl he hr)).trans (hp.running hr)
      · exact (hp.runnable hc' hr).imp_right (hP t).mpr
  · rw [hat, hat]
    exact h.disjoint
  · have hrq (c' : ℕ) : ((st.setRq c f).rq c').o1 = (st.rq c').o1 ∧
        ((st.setRq c f).rq c').nrRunning = (st.rq c').nrRunning := by
      change (update st.rq c (f (st.rq c)) c').o1 = _ ∧
        (update st.rq c (f (st.rq c)) c').nrRunning = _
      rw [update_apply]
      split
      · rename_i he
        rw [he]
        exact ⟨ho1, hnr⟩
      · exact ⟨rfl, rfl⟩
    refine ⟨fun c' p hp => ?_, fun c' => ?_, fun c' => ?_⟩
    · rw [(hrq c').1]
      exact h.counters.bitmap c' p hp
    · rw [(hrq c').1]
      exact h.counters.o1Running c'
    · rw [(hrq c').2]
      exact h.counters.nrRunning c'

/-! ## The life of a task -/

theorem reclaim (h : Lists st Q none) {z : Tid} (hz : (st.tcb z).state = .zombie) :
    Lists (st.reclaim z) Q none := by
  have hlive {t : Tid} (ht : (st.tcb t).state ≠ .zombie) :
      (st.reclaim z).live t = true ↔ st.live t = true := by
    have htz : t ≠ z := by
      rintro rfl
      exact ht hz
    rw [show (st.reclaim z).live t = update st.live z false t from rfl,
      update_of_ne htz]
  refine ⟨h.rings, fun {h' t} ht => ?_, fun {t} _ hl => ?_, fun {c d t} ht => ?_, h.nodup, h.disjoint,
    h.fresh, by simp, h.counters⟩
  · obtain ⟨hl, hc, hf⟩ := h.member ht
    refine ⟨(hlive ?_).mpr hl, hc, hf⟩
    intro hs
    cases h' with
    | queue c p => exact absurd (hs.symm.trans hf.1) (by decide)
    | wait w => exact absurd (hs.symm.trans hf) (by decide)
  · by_cases hs : (st.tcb t).state = .zombie
    · refine ⟨fun hr => ?_, fun _ hr => ?_, fun hr => ?_⟩
      all_goals exact absurd (hs.symm.trans hr) (by decide)
    · have hp := h.placed (by simp) ((hlive hs).mp hl)
      exact ⟨hp.running, hp.runnable, hp.sleeping⟩
  · obtain ⟨hl, hc, hs, hd, hq⟩ := h.pending ht
    exact ⟨(hlive fun hz => absurd (hs.symm.trans hz) (by decide)).mpr hl, hc, hs, hd, hq⟩

theorem spawn (h : Lists st Q none) (hlt : ∀ {t}, st.live t = true → t < st.nextTid)
    (hcur : ∀ {c t}, st.current c = some t → st.live t = true) (c p : ℕ) (cls : SchedClass)
    (k : List Op) : Lists (st.spawn c p cls k) Q (some st.nextTid) := by
  obtain ⟨x, hx⟩ : ∃ x, st.nextTid = x := ⟨_, rfl⟩
  have hdead : st.live x ≠ true := fun hl => (hlt hl).ne hx.symm
  have hnew {h' : RunHead} : x ∉ Q h' := fun hm => hdead (h.member hm).1
  have htcb {t : Tid} (ht : t ≠ x) : (st.spawn c p cls k).tcb t = st.tcb t :=
    st.tcb_spawn_of_ne k (hx ▸ ht) c p cls
  have hlive {t : Tid} (ht : t ≠ x) : (st.spawn c p cls k).live t = st.live t :=
    st.live_spawn_of_ne k (hx ▸ ht) c p cls
  have hcurx {c' : ℕ} {t : Tid} (ht : st.current c' = some t) : t ≠ x := by
    rintro rfl
    exact hdead (hcur ht)
  have hat (c' : ℕ) : (st.spawn c p cls k).pendingAt c' = st.pendingAt c' := by
    rw [Kernel.pendingAt, Kernel.pendingAt]
    congr 1
    exact Kernel.codeAt_congr rfl fun t ht => by rw [htcb (hcurx ht)]
  have hP (t : Tid) : (st.spawn c p cls k).Pending t ↔ st.Pending t := by
    simp only [Kernel.Pending, hat]
  have hPx : ¬ st.Pending x := fun ⟨_, _, hp⟩ => hdead (h.pending hp).1
  refine ⟨?_, fun {h' t} ht => ?_, fun {t} ho hl => ?_, fun {c' d t} ht => ?_,
    fun c' => hat c' ▸ h.nodup c', fun {c₁ c₂ d₁ d₂ t} => ?_, fun {t} ht => h.fresh ?_, fun {t} ho => ?_, h.counters⟩
  · have hrings := (h.rings.initElem fun _ => hnew).initHead (.wait (.chld x))
    have hupd : update Q (.wait (.chld x)) [] = Q := by
      rw [← h.fresh (le_of_eq hx), update_eq_self]
    rw [hupd] at hrings
    rw [← hx] at hrings
    exact hrings
  · have htx : t ≠ x := by
      rintro rfl
      exact hnew ht
    rw [hlive htx, htcb htx]
    exact h.member ht
  · rcases eq_or_ne t x with rfl | htx
    · exact absurd (by rw [hx]) ho
    · rw [hlive htx] at hl
      have hp := h.placed (by simp) hl
      refine ⟨?_, ?_, ?_⟩
      all_goals rw [htcb htx]
      · exact hp.running
      · exact fun hc hs => (hp.runnable hc hs).imp_right (hP t).mpr
      · exact hp.sleeping
  · rw [hat] at ht
    have htx : t ≠ x := by
      rintro rfl
      exact hPx ⟨c', d, ht⟩
    rw [hlive htx, htcb htx]
    exact h.pending ht
  · rw [hat, hat]
    exact h.disjoint
  · exact Nat.le_of_succ_le ht
  · rw [hx] at ho
    obtain rfl := Option.some_injective _ ho
    refine ⟨?_, fun _ => hnew, fun hp => hPx ((hP x).mp hp)⟩
    rw [← hx]
    exact update_self ..

end Lists

end Lume.Sched
