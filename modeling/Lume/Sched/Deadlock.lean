import Lume.Sched.Locality
import Mathlib.Data.Set.Card

/-!
# Locks are taken in order

A CPU that waits for a lock may hold others: `sleep` takes the lock of a wait queue under an external
lock, and a wake-up takes the lock of a run queue under that of a wait queue. Locks have ranks, and
the code of every task takes each lock above all that it holds then. So every CPU waits, directly or
through others, for one that can go on.

## Main definitions

* `Spinlock.rank`, `Ranked`: the order of the locks, and code that keeps to it
* `Kernel.WaitsFor`: a CPU waits for a lock of another

## Main results

* `Ordered.step`: every step keeps the code of all tasks in order
* `waiting_ends`: no CPU waits in vain
* `spinlocks_exclude`: locks, their counters and interrupts
-/

namespace Lume.Sched

open Function (update_self)

/-- The order in which locks are taken. -/
def Spinlock.rank : Spinlock → ℕ
  | .taskList | .external _ => 0
  | .waitQueue _ => 1
  | .runQueue _ => 2

/-- The locks that are held after an operation and what it pushes. -/
def Op.after (S : Set Spinlock) : Op → Set Spinlock
  | .acquire l => insert l S
  | .release l => S \ {l}
  | .raise n _ => S \ {.external n}
  | _ => S

/-- With the locks in `S`, the code takes each lock above all that it holds then. -/
def Ranked (S : Set Spinlock) : List Op → Prop
  | [] => True
  | op :: k => (∀ l ∈ op.lock?, ∀ x ∈ S, x.rank < l.rank) ∧ Ranked (op.after S) k

namespace Ranked

variable {S S' : Set Spinlock} {k : List Op} {l : Spinlock} {op : Op}

theorem mono (h : Ranked S k) (hS : S' ⊆ S) : Ranked S' k := by
  induction k generalizing S S' with
  | nil => trivial
  | cons op k ih =>
    refine ⟨fun l hl x hx => h.1 l hl x (hS hx), ih h.2 ?_⟩
    cases op with
    | acquire l => exact Set.insert_subset_insert hS
    | release l => exact Set.sdiff_subset_sdiff_left hS
    | raise n all => exact Set.sdiff_subset_sdiff_left hS
    | _ => exact hS

/-- An operation that is no lock operation. -/
theorem cons (hlock : op.lock? = none) (hafter : op.after S = S) (h : Ranked S k) :
    Ranked S (op :: k) := by
  rw [Ranked, hlock, hafter]
  exact ⟨fun _ hl => (Option.not_mem_none _ hl).elim, h⟩

theorem release (h : Ranked (S \ {l}) k) : Ranked S (.release l :: k) := by
  refine ⟨fun _ hl => ?_, h⟩
  cases hl

/-- A section under a lock. -/
theorem bracket (hl : ∀ x ∈ S, x.rank < l.rank) (hlock : op.lock? = none)
    (hafter : op.after (insert l S) = insert l S) (h : Ranked S k) :
    Ranked S (.acquire l :: op :: .release l :: k) := by
  refine ⟨fun l' hl' => ?_, cons hlock hafter (release (h.mono fun x hx => ?_))⟩
  · cases hl'
    exact hl
  · exact (Set.mem_insert_iff.mp hx.1).resolve_left hx.2

theorem enqueueProg {st : Kernel} {x : Tid} (hS : ∀ y ∈ S, y.rank < 2) (h : Ranked S k) :
    Ranked S (st.enqueueProg x ++ k) :=
  bracket hS rfl rfl h

theorem wakeProg {all : Bool} {w : WaitQueue} (hS : ∀ x ∈ S, x.rank < 1) (h : Ranked S k) :
    Ranked S (wakeProg all w ++ k) := by
  cases all
  exacts [bracket hS rfl rfl h, bracket hS rfl rfl h]

/-- `sleep` with an external lock. -/
theorem sleepProg {ext : Spinlock} {w : WaitQueue} (hS : ∀ x ∈ S, x = ext ∧ x.rank < 1)
    (h : Ranked ∅ k) : Ranked S (sleepProg w (some ext) ++ k) :=
  bracket (fun x hx => (hS x hx).2) rfl rfl
    (release (cons rfl rfl (h.mono fun x hx => hx.2 (hS x hx.1).1)))

/-- Without acquire there is no order to keep. -/
theorem of_start {c : ℕ} (hk : k ∈ startCodes c) : Ranked S k := by
  simp only [startCodes, List.mem_cons, List.not_mem_nil, or_false] at hk
  rcases hk with rfl | rfl | rfl
  · trivial
  · exact release (cons rfl rfl trivial)
  · exact release (cons rfl rfl trivial)

/-- What an operation puts before the code that is left is in order. -/
theorem pushes {doom : Prop} {st : Kernel} {c : ℕ} {t : Tid} {cls : SchedClass} {held : List Spinlock}
    {m : Mode} (hty : Typed doom c t cls (op :: k) held m) (h : Ranked {l | l ∈ held} (op :: k))
    (hop : op.lock? = none) (hrel : ∀ l, op ≠ .release l) :
    Ranked {l | l ∈ held} (st.pushes c t op ++ k) := by
  obtain ⟨-, h⟩ := h
  cases op with
  | acquire l => cases hop
  | release l => exact absurd rfl (hrel l)
  | schedule =>
    obtain ⟨rfl, -⟩ := hty
    exact bracket (by simp) rfl rfl (cons rfl rfl h)
  | checkPreempt =>
    simp only [Kernel.pushes]
    split
    exacts [cons rfl rfl h, h]
  | wakeOne w =>
    obtain ⟨rfl, -⟩ := hty
    simp only [Kernel.pushes]
    split
    exacts [h, enqueueProg (by simp [Spinlock.rank]) h]
  | wakeAll w =>
    obtain ⟨rfl, -⟩ := hty
    simp only [Kernel.pushes]
    split
    · exact h
    · -- the task is enqueued, and the loop goes on, under the lock of the wait queue
      rw [List.append_assoc]
      exact enqueueProg (by simp [Spinlock.rank]) (cons rfl rfl h)
  | exit code =>
    obtain ⟨rfl, -, -, rfl⟩ := hty
    have hz : Ranked {l | l ∈ ([] : List Spinlock)} ([.zombie] ++ []) := cons rfl rfl trivial
    simp only [Kernel.pushes]
    split
    · split
      exacts [hz, bracket (by simp) rfl rfl hz]
    · exact hz
  | zombie =>
    obtain ⟨rfl, -, -, rfl⟩ := hty
    have hs : Ranked {l | l ∈ ([] : List Spinlock)} ([.schedule, .unreachable] ++ []) :=
      cons rfl rfl (cons rfl rfl trivial)
    simp only [Kernel.pushes]
    split
    · exact hs
    · split
      exacts [bracket (by simp) rfl rfl hs, trivial]
  | wait =>
    obtain ⟨rfl, -, -, rfl⟩ := hty
    exact ⟨fun _ _ _ hx => by simp at hx, cons rfl rfl trivial⟩
  | scan =>
    obtain ⟨rfl, -, -, rfl⟩ := hty
    simp only [Kernel.pushes]
    split
    · exact release trivial
    · split
      · exact release (bracket (by simp) rfl rfl (cons rfl rfl trivial))
      · -- the second release of the list lock is the one that panics
        exact release (sleepProg (by simp) (cons rfl rfl trivial))
  | fork ok =>
    obtain ⟨rfl, -⟩ := hty
    cases ok
    · exact h
    · exact bracket (by simp) rfl rfl (bracket (by simp) rfl rfl (bracket (by simp) rfl rfl h))
  | kthreadCreate p ok =>
    obtain ⟨rfl, -⟩ := hty
    cases ok
    · exact h
    · simp only [Kernel.pushes, if_true]
      split
      · exact bracket (by simp) rfl rfl (bracket (by simp) rfl rfl h)
      · exact bracket (by simp) rfl rfl (bracket (by simp) rfl rfl (bracket (by simp) rfl rfl h))
  | check n =>
    obtain ⟨rfl, -, -, rfl⟩ := hty
    simp only [Kernel.pushes]
    split
    · exact release trivial
    · -- the lock of the condition is held until the task is linked
      exact sleepProg (by simp [Spinlock.rank]) (cons rfl rfl trivial)
  | raise n all =>
    obtain ⟨rfl, -⟩ := hty
    simp only [Kernel.pushes]
    rw [List.cons_append, List.append_assoc]
    exact release (wakeProg (by simp) (cons rfl rfl h))
  | _ => exact h

theorem raise {n : ℕ} {all : Bool} (h : Ranked ∅ k) :
    Ranked ∅ (.acquire (.external n) :: .raise n all :: k) := by
  refine ⟨fun _ _ _ hx => hx.elim, fun _ hl => ?_, h.mono fun x hx => ?_⟩
  · cases hl
  · exact hx.2 ((Set.mem_insert_iff.mp hx.1).resolve_right id)

theorem call (a : Call) (c : ℕ) : Ranked ∅ (a.prog c) := by
  cases a with
  | yield | sleep => exact bracket (by simp) rfl rfl (cons rfl rfl trivial)
  | wakeOne | wakeAll | reset => exact bracket (by simp) rfl rfl trivial
  | await n => exact ⟨fun _ _ _ hx => hx.elim, cons rfl rfl trivial⟩
  | notify n all => exact raise trivial
  | _ => exact cons rfl rfl trivial

theorem irq (i : Irq) (c : ℕ) (h : Ranked ∅ k) : Ranked ∅ (i.prog c ++ [.iret] ++ k) := by
  cases i with
  | notify n all => exact raise (cons rfl rfl h)
  | _ => exact bracket (by simp) rfl rfl (cons rfl rfl h)

end Ranked

/-- The code of every task takes locks in order, from those that its CPU holds, or that it holds when
it is switched to. -/
structure Kernel.Ordered (st : Kernel) : Prop where
  running : ∀ {c t}, st.current c = some t → Ranked {l | st.owner l = some c} (st.tcb t).code
  saved : ∀ {t}, st.live t = true → st.current (st.tcb t).cpuId ≠ some t →
    Ranked {.runQueue (st.tcb t).cpuId} (st.tcb t).code
  cpu : ∀ {c}, st.current c ≠ none → c < kMaxCpus

variable {doom : Prop} {st st' : Kernel} {held : ℕ → List Spinlock} {Q : RunHead → List Tid}
  {K : Tid → List Tid} {l : Label}

/-- A CPU gets a lock by taking it, and does not hold one that it has just released. -/
theorem Sound.owner_of_owner (h : Sound doom st held Q K) (hs : st.Step l st') {s : Spinlock} {d : ℕ}
    (hh : st'.halted = none) (ho : st'.owner s = some d) :
    (st.owner s = some d ∨ d = l.cpu ∧ ∃ t, st.nextOp l = some (t, .acquire s)) ∧
      ∀ t, st.nextOp l ≠ some (t, .release s) := by
  have hrel (t : Tid) : st.nextOp l ≠ some (t, .release s) := fun hop => by
    obtain ⟨k, -, -, rfl⟩ := hs.at_of_nextOp hop
    change ((st.setCode t k).release l.cpu s).owner s = _ at ho
    change ((st.setCode t k).release l.cpu s).halted = _ at hh
    unfold Kernel.release at ho hh
    split at ho
    · change Function.update (st.setCode t k).owner s none s = _ at ho
      rw [update_self] at ho
      cases ho
    · rename_i hne
      rw [if_neg hne] at hh
      cases hh
  refine ⟨?_, hrel⟩
  rcases h.owner_step hs s with he | ⟨⟨t, hop⟩, hn⟩ | ⟨⟨t, hop⟩, -⟩
  · exact .inl (he ▸ ho)
  · refine .inr ⟨?_, t, hop⟩
    obtain ⟨k, -, -, rfl⟩ := hs.at_of_nextOp hop
    change ((st.setCode t k).acquire l.cpu s).owner s = _ at ho
    unfold Kernel.acquire at ho
    dsimp only at ho
    split at ho
    · rename_i he
      cases he.symm.trans hn
    · change Function.update (st.setCode t k).owner s (some l.cpu) s = _ at ho
      rw [update_self] at ho
      exact (Option.some_injective _ ho).symm
  · exact absurd hop (hrel t)

/-- The code of the task that a CPU runs stays in order. -/
theorem Kernel.Ordered.goes (ho : st.Ordered) (h : Sound doom st held Q K) (hs : st.Step l st')
    (hh : st'.halted = none) {t : Tid} (hc : st.current l.cpu = some t) :
    Ranked {s | st'.owner s = some l.cpu} (st'.tcb t).code := by
  have hC := h.control hs.halted
  have hrun := ho.running hc
  have hty := (hC.running hc).2.2
  rw [show {s | st.owner s = some l.cpu} = {s | s ∈ held l.cpu} from Set.ext fun s => hC.owner] at hrun
  -- without an acquire a CPU has no lock that it did not have
  have hsub (hno : ∀ s t, st.nextOp l ≠ some (t, .acquire s)) :
      {s | st'.owner s = some l.cpu} ⊆ {s | s ∈ held l.cpu} := fun s hs' =>
    hC.owner.mp ((h.owner_of_owner hs hh hs').1.resolve_right fun hop => hop.2.elim (hno s))
  have hacq {s : Spinlock} {x : Tid} (hop : st.nextOp l = some (x, .acquire s)) :
      ∃ k, (st.tcb t).code = .acquire s :: k := by
    obtain ⟨k, ha, -, -⟩ := hs.at_of_nextOp hop
    obtain rfl : t = x := Option.some_injective _ (hc.symm.trans ha.current)
    exact ⟨k, ha.code⟩
  have hgoes := h.goes hs hc
  generalize (st.tcb t).code = k₀ at hgoes hrun hty hacq
  generalize (st'.tcb t).code = k₁ at hgoes
  cases hgoes with
  | @op op k hop =>
    cases op with
    | acquire s =>
      refine hrun.2.mono fun x hx => ?_
      rcases (h.owner_of_owner hs hh hx).1 with hx | ⟨-, t', hop'⟩
      · exact .inr (hC.owner.mp hx)
      · rw [hop] at hop'
        cases hop'
        exact .inl rfl
    | release s =>
      refine hrun.2.mono fun x hx => ⟨hsub (by simp [hop]) hx, ?_⟩
      rintro rfl
      exact (h.owner_of_owner hs hh hx).2 t hop
    | _ => exact (hrun.pushes hty rfl (by simp)).mono (hsub (by simp [hop]))
  | call a =>
    rw [hty.1] at hsub
    exact (Ranked.call a l.cpu).mono ((hsub fun s x hop => by simpa using hacq hop).trans (by simp))
  | idle => trivial
  | irq i k hop hon =>
    have hnil : held l.cpu = [] := by
      by_contra hne
      cases (hC.intr _ hne).symm.trans hon
    rw [hnil] at hrun hsub
    exact (Ranked.irq i l.cpu (hrun.mono (by simp))).mono ((hsub (by simp [hop])).trans (by simp))

/-- Every step keeps the code of all tasks in order. -/
theorem Kernel.Ordered.step (ho : st.Ordered) (h : Sound doom st held Q K)
    {held' : ℕ → List Spinlock} {Q' : RunHead → List Tid} {K' : Tid → List Tid}
    (h' : Sound doom st' held' Q' K') (hs : st.Step l st') (hh : st'.halted = none) : st'.Ordered := by
  have hC := h.control hs.halted
  have hC' := h'.control hh
  have hL := h.local hs
  -- a task that gives up its CPU does so at a pick
  have hpick {x : Tid} (hx : st.current l.cpu = some x) (hne : st'.current l.cpu ≠ some x) :
      {s | st'.owner s = some l.cpu} ⊆ {.runQueue l.cpu} ∧
        Ranked {.runQueue l.cpu} (st'.tcb x).code := by
    have hop := ((h.current_step hs hx).resolve_left hne).1
    have hrun := ho.running hx
    have hty := (hC.running hx).2.2
    obtain ⟨k, ha, -, -⟩ := hs.at_of_nextOp hop
    have hgoes := h.goes hs hx
    rw [ha.code] at hgoes hrun hty
    have hset : {s | st.owner s = some l.cpu} = {.runQueue l.cpu} :=
      Set.ext fun s => hC.owner.trans (by simp [hty.1])
    refine ⟨fun s hs' => hset.subset ?_, ?_⟩
    · exact (h.owner_of_owner hs hh hs').1.resolve_right (by simp [hop])
    · generalize (st'.tcb x).code = k' at hgoes
      rw [hset] at hrun
      cases hgoes with
      | op => exact hrun.2
      | irq i k hop' => cases hop'.symm.trans hop
  refine ⟨fun {c t} hc => ?_, fun {t} hl hne => ?_, fun {c} hc => ?_⟩
  · obtain ⟨hl, hcpu, -⟩ := hC'.running hc
    rcases le_or_gt st.nextTid t with hnew | hold
    · exact .of_start (hL.fresh t hnew hl)
    by_cases hcl : c = l.cpu
    · subst hcl
      by_cases hx : st.current l.cpu = some t
      · exact ho.goes h hs hh hx
      · have hlive := hL.live t hold hl
        rw [hL.cpuId t hold] at hcpu
        obtain ⟨x, hcx⟩ := Option.ne_none_iff_exists'.mp (hcpu ▸ h.roster.up hlive)
        have hne : st'.current l.cpu ≠ some x := fun hx' => hx (hc ▸ hx' ▸ hcx)
        rw [hL.code t hold hx]
        refine Ranked.mono ?_ (hpick hcx hne).1
        exact hcpu ▸ ho.saved hlive (hcpu ▸ hx)
    · rw [hL.current c hcl] at hc
      have hx : st.current l.cpu ≠ some t := fun hx =>
        hcl ((hC.running hc).2.1.symm.trans (hC.running hx).2.1)
      rw [hL.code t hold hx]
      exact (ho.running hc).mono fun s hs' =>
        (h.owner_of_owner hs hh hs').1.resolve_right fun hop => hcl hop.1
  · rcases le_or_gt st.nextTid t with hnew | hold
    · exact .of_start (hL.fresh t hnew hl)
    rw [hL.cpuId t hold] at hne ⊢
    by_cases hx : st.current l.cpu = some t
    · rw [(hC.running hx).2.1] at hne ⊢
      exact (hpick hx hne).2
    · rw [hL.code t hold hx]
      refine ho.saved (hL.live t hold hl) fun hcur => ?_
      by_cases hcl : (st.tcb t).cpuId = l.cpu
      · exact hx (hcl ▸ hcur)
      · exact hne ((hL.current _ hcl).trans hcur)
  · by_cases hcl : c = l.cpu
    · exact hcl ▸ hs.1.2.1
    · exact ho.cpu (hL.current c hcl ▸ hc)

theorem ordered_of_run {ls : List Label} (hr : Run Kernel.Step Kernel.init ls st) :
    ∃ held Q K, Sound True st held Q K ∧ (st.halted = none → st.Ordered) := by
  refine hr.invariant (P := fun st => ∃ held Q K, Sound True st held Q K ∧ (st.halted = none → st.Ordered))
    ?_ ⟨_, _, _, sound_init True, fun _ => ?_⟩
  · rintro s l s' ⟨held, Q, K, h, ho⟩ hs
    obtain ⟨held', Q', K', h', -⟩ := h.step hs (.inl trivial)
    exact ⟨held', Q', K', h', (ho hs.halted).step h h' hs⟩
  · have ho : Kernel.blank.Ordered := by
      refine ⟨fun hc => ?_, fun hl => ?_, fun hc => absurd rfl hc⟩
      · cases hc
      · cases hl
    exact ho.step (sound_blank True) (sound_init True)
      (l := ⟨0, .boot⟩) ⟨⟨rfl, by decide, .inl ⟨rfl, rfl⟩⟩, rfl⟩ rfl

/-- A CPU that holds a lock has something to do, and takes only locks above it. -/
theorem Kernel.Ordered.holder (ho : st.Ordered) (hC : Control doom st held) (hh : st.halted = none)
    {s : Spinlock} {d : ℕ} (hd : st.owner s = some d) :
    ∃ t op k, st.At d t op k ∧ ∀ s' ∈ op.lock?, s.rank < s'.rank := by
  have hheld := hC.owner.mp hd
  cases hcur : st.current d with
  | none => simp [hC.down hcur] at hheld
  | some t =>
    have hty := (hC.running hcur).2.2
    have hrun := ho.running hcur
    cases hcode : (st.tcb t).code with
    | nil =>
      rw [hcode] at hty
      simp [hty.1] at hheld
    | cons op k =>
      rw [hcode] at hrun
      exact ⟨t, op, k, ⟨hh, hcur, hcode⟩, fun s' hs' => hrun.1 s' hs' s hd⟩

/-- A CPU whose next operation takes no lock of another CPU can go on. -/
theorem Kernel.Ordered.permitted (ho : st.Ordered) {c : ℕ} {t : Tid} {op : Op} {k : List Op}
    (ha : st.At c t op k) (hfree : ∀ s ∈ op.lock?, st.owner s = none ∨ st.owner s = some c) :
    st.Permitted ⟨c, .step⟩ := by
  refine ⟨ha.halted, ho.cpu ?_, .inr ⟨t, ha.current, op, ?_, hfree⟩⟩
  · simp [ha.current]
  · simp [ha.code]

/-- The next operation of CPU `c` takes a lock that CPU `d` holds. -/
def Kernel.WaitsFor (st : Kernel) (c d : ℕ) : Prop :=
  ∃ t op k, st.At c t op k ∧ ∃ s ∈ op.lock?, st.owner s = some d

/-- **No deadlock**: in every state reached from boot, a CPU inside the kernel can go on, or waits for
a lock of a CPU that can, or that waits in turn for such a CPU. -/
theorem waiting_ends {ls : List Label} (hr : Run Kernel.Step Kernel.init ls st) {c : ℕ} {t : Tid}
    {op : Op} {k : List Op} (ha : st.At c t op k) :
    ∃ d, Relation.ReflTransGen st.WaitsFor c d ∧ st.Permitted ⟨d, .step⟩ := by
  obtain ⟨held, Q, K, h, ho⟩ := ordered_of_run hr
  have hC := h.control ha.halted
  replace ho := ho ha.halted
  -- the ranks of the locks along a chain of waiting CPUs go up, and there are three
  obtain ⟨n, hn⟩ : ∃ n, ∀ s ∈ op.lock?, 3 ≤ s.rank + n := ⟨3, by simp⟩
  induction n generalizing c t op k with
  | zero =>
    refine ⟨c, .refl, ho.permitted ha fun s hs => absurd (hn s hs) ?_⟩
    cases s <;> simp [Spinlock.rank]
  | succ n ih =>
    by_cases hfree : ∀ s ∈ op.lock?, st.owner s = none ∨ st.owner s = some c
    · exact ⟨c, .refl, ho.permitted ha hfree⟩
    · push Not at hfree
      obtain ⟨s, hs, hnone, -⟩ := hfree
      obtain ⟨d, hd⟩ := Option.ne_none_iff_exists'.mp hnone
      obtain ⟨x, op', k', hx, hrank⟩ := ho.holder hC ha.halted hd
      obtain ⟨e, hde, he⟩ := ih hx fun s' hs' => by
        have := hn s hs
        have := hrank s' hs'
        omega
      exact ⟨e, .head ⟨t, op, k, ha, s, hs, hd⟩ hde, he⟩

/-- Two CPUs call `sleep` on one wait queue. -/
def contendedTrace : List Label :=
  [⟨1, .boot⟩, ⟨0, .call (.sleep 3)⟩, ⟨0, .step⟩, ⟨1, .call (.sleep 3)⟩]

set_option maxRecDepth 100000 in
theorem waiting_ends_contended : ∃ st : Kernel, st.WaitsFor 1 0 ∧ ¬st.Permitted ⟨1, .step⟩ ∧
    ∃ d, Relation.ReflTransGen st.WaitsFor 1 d ∧ st.Permitted ⟨d, .step⟩ := by
  have hp : Kernel.init.PermittedAll (fun _ _ => True) contendedTrace := by decide +kernel
  have hst : (fun st : Kernel => st.halted = none ∧ st.current 1 = some 3 ∧
      (st.tcb 3).code = Op.acquire (.waitQueue (.plain 3)) :: (st.tcb 3).code.tail ∧
      st.owner (.waitQueue (.plain 3)) = some 0 ∧ ¬st.Permitted ⟨1, .step⟩)
      (Kernel.init.execAll contendedTrace) := by decide +kernel
  obtain ⟨hh, hc, hcode, hd, hno⟩ := hst
  exact ⟨_, ⟨3, _, _, ⟨hh, hc, hcode⟩, _, rfl, hd⟩, hno,
    waiting_ends (run_execAll hp).of_guarded ⟨hh, hc, hcode⟩⟩

/-- **Spinlocks exclude**: in every state reached from boot, a task runs on one CPU at most, and a CPU
counts the locks that it holds and takes no interrupt while it holds one. -/
theorem spinlocks_exclude {ls : List Label} (hr : Run Kernel.Step Kernel.init ls st)
    (hh : st.halted = none) (c : ℕ) :
    (∀ {d t}, st.current c = some t → st.current d = some t → c = d) ∧
    (st.cpu c).lockDepth = Set.ncard {s | st.owner s = some c} ∧
    ∀ {s h}, st.owner s = some c → ¬st.Permitted ⟨c, .irq h⟩ := by
  obtain ⟨held, Q, K, h⟩ := sound_of_run hr
  have hC := h.control hh
  refine ⟨fun hc hd => (hC.running hc).2.1.symm.trans (hC.running hd).2.1, ?_, fun hs hp => ?_⟩
  · have hset : {s | st.owner s = some c} = (held c).toFinset := Set.ext fun s => by simp [hC.owner]
    rw [hset, Set.ncard_coe_finset, List.toFinset_card_of_nodup (hC.nodup c), hC.depth]
  · have hoff := hC.intr c (List.ne_nil_of_mem (hC.owner.mp hs))
    rcases hp.2.2 with ⟨-, hboot⟩ | ⟨t, -, hon⟩
    · cases hboot
    · cases hoff.symm.trans hon

set_option maxRecDepth 100000 in
theorem spinlocks_exclude_contended : ((Kernel.init.execAll contendedTrace).cpu 0).lockDepth =
    Set.ncard {s | (Kernel.init.execAll contendedTrace).owner s = some 0} := by
  have hp : Kernel.init.PermittedAll (fun _ _ => True) contendedTrace := by decide +kernel
  exact (spinlocks_exclude (run_execAll hp).of_guarded (by decide +kernel) 0).2.1

end Lume.Sched
