import Lume.Sched.Reaping

/-!
# Time slices

A task starts with the time slice of its priority. Each tick takes one from the task that runs, and
refills the slice when it is used up, together with the request to reschedule. Nothing else changes
a slice but `sched_yield`: it sets the slice to zero, and no one refills it before the task runs
again. So a task that has yielded comes back without a slice, and loses the CPU at the next tick.

## Main definitions

* `Kernel.HasSlices`: the slice of every task is between 1 and the slice of its priority
* `Kernel.KeepsSlices`: what a step leaves alone
* `Kernel.NoYield`: the condition
* `Kernel.TickRequests`: a tick requests rescheduling

## Main results

* `Kernel.Step.slices`: a step without a yield keeps the slices, or is a tick
* `Kernel.slice_le_of_run`: along a run a slice shrinks by one for each tick at most
* `slices_usable`: without yields every task that is scheduled has a slice, and runs it out
* `yielder_has_no_slice`: what happens otherwise
-/

namespace Lume.Sched

theorem one_le_priorityToTimeslice (p : ℕ) : 1 ≤ priorityToTimeslice p := le_max_left ..

namespace Kernel

/-- The slice of every task is between 1 and the slice of its priority. -/
def HasSlices (st : Kernel) : Prop :=
  ∀ x < st.nextTid, 1 ≤ (st.tcb x).timeSlice ∧
    (st.tcb x).timeSlice ≤ priorityToTimeslice (st.tcb x).priority

/-! ## What leaves the slices alone -/

/-- The slices and priorities are as before, and new tasks have the slice of their priority. -/
structure KeepsSlices (st st' : Kernel) : Prop where
  nextTid : st.nextTid ≤ st'.nextTid
  slice : ∀ x < st.nextTid, (st'.tcb x).timeSlice = (st.tcb x).timeSlice
  priority : ∀ x < st.nextTid, (st'.tcb x).priority = (st.tcb x).priority
  fresh : ∀ x, st.nextTid ≤ x → x < st'.nextTid →
    (st'.tcb x).timeSlice = priorityToTimeslice (st'.tcb x).priority

namespace KeepsSlices

variable {st st' st'' : Kernel}

theorem refl (st : Kernel) : st.KeepsSlices st :=
  ⟨le_rfl, fun _ _ => rfl, fun _ _ => rfl, fun _ hle hlt => absurd hlt (not_lt.mpr hle)⟩

section

variable (h : st.KeepsSlices st')
include h

theorem of_tcb (htcb : st''.tcb = st'.tcb)
    (hnext : st''.nextTid = st'.nextTid) : st.KeepsSlices st'' := by
  refine ⟨hnext ▸ h.nextTid, ?_, ?_, ?_⟩
  · rw [htcb]
    exact h.slice
  · rw [htcb]
    exact h.priority
  · rw [htcb, hnext]
    exact h.fresh

theorem setTcb (t : Tid) {f : Tcb → Tcb}
    (hf : ∀ b, (f b).timeSlice = b.timeSlice ∧ (f b).priority = b.priority) :
    st.KeepsSlices (st'.setTcb t f) := by
  have hb (x : Tid) : ((st'.setTcb t f).tcb x).timeSlice = (st'.tcb x).timeSlice ∧
      ((st'.setTcb t f).tcb x).priority = (st'.tcb x).priority := by
    rw [tcb_setTcb]
    split
    · rename_i he
      rw [he]
      exact hf _
    · exact ⟨rfl, rfl⟩
  refine ⟨h.nextTid, fun x hx => (hb x).1.trans (h.slice x hx),
    fun x hx => (hb x).2.trans (h.priority x hx), fun x hle hlt => ?_⟩
  rw [(hb x).1, (hb x).2]
  exact h.fresh x hle hlt

theorem setState (t : Tid) (s : TaskState) : st.KeepsSlices (st'.setState t s) :=
  h.setTcb t fun _ => ⟨rfl, rfl⟩

theorem setCode (t : Tid) (k : List Op) : st.KeepsSlices (st'.setCode t k) :=
  h.setTcb t fun _ => ⟨rfl, rfl⟩

theorem push (t : Tid) (ops : List Op) : st.KeepsSlices (st'.push t ops) :=
  h.setTcb t fun _ => ⟨rfl, rfl⟩

theorem setRq (c : ℕ) (f : RunQueue → RunQueue) : st.KeepsSlices (st'.setRq c f) := h.of_tcb rfl rfl

theorem setRun (run : Links RunHead Tid) :
    st.KeepsSlices { st' with run := run } := h.of_tcb rfl rfl

theorem spawn (c p : ℕ) (cls : SchedClass) (k : List Op) :
    st.KeepsSlices (st'.spawn c p cls k) := by
  have hold {x : Tid} (hx : x < st'.nextTid) : (st'.spawn c p cls k).tcb x = st'.tcb x :=
    st'.tcb_spawn_of_ne k hx.ne c p cls
  refine ⟨h.nextTid.trans (Nat.le_succ _), fun x hx => ?_, fun x hx => ?_, fun x hle hlt => ?_⟩
  · rw [hold (hx.trans_le h.nextTid), h.slice x hx]
  · rw [hold (hx.trans_le h.nextTid), h.priority x hx]
  · rcases Nat.lt_or_eq_of_le (Nat.le_of_lt_succ hlt) with hlt | rfl
    · rw [hold hlt]
      exact h.fresh x hle hlt
    · rw [st'.tcb_spawn_self]

theorem enqueueTask (c : ℕ) (x : Tid) : st.KeepsSlices (st'.enqueueTask c x) := by
  unfold Kernel.enqueueTask
  split
  · exact ((h.setRun _).setRq c _).setState x .runnable
  · exact h

theorem dequeueTask (c : ℕ) (x : Tid) : st.KeepsSlices (st'.dequeueTask c x) := by
  unfold Kernel.dequeueTask
  split
  exacts [h.of_tcb rfl rfl, h]

theorem putBack (c : ℕ) (x : Tid) : st.KeepsSlices (st'.putBack c x) := by
  unfold Kernel.putBack
  split
  exacts [(h.setState x .runnable).enqueueTask c x, h]

theorem pick (c : ℕ) (t : Tid) : st.KeepsSlices (st'.pick c t) := by
  have hback := h.putBack c t
  unfold Kernel.pick
  dsimp only
  split
  · exact hback
  · split
    · exact ((hback.setState _ .running).dequeueTask c _).setRq c _
    · unfold Kernel.switchTo
      dsimp only
      split
      · exact ((hback.dequeueTask c _).setState _ .running).setRq c _
      · exact (hback.setState _ .running).setRq c _

theorem takeWaiter (x : Tid) : st.KeepsSlices (st'.takeWaiter x) :=
  (h.setRun _).setState x .runnable

end

theorem reparentLoop (f : Tid) (fuel : ℕ) (n : Tid ⊕ Tid) (h : st.KeepsSlices st') :
    st.KeepsSlices (Kernel.reparentLoop f fuel n st') := by
  induction fuel generalizing n st' with
  | zero => exact h
  | succ fuel ih =>
    cases n with
    | inl _ => exact h
    | inr x =>
      have hparent : st.KeepsSlices (st'.setTcb x fun b => { b with parent := some f }) :=
        h.setTcb x fun _ => ⟨rfl, rfl⟩
      exact ih _ (hparent.of_tcb rfl rfl)

theorem perform (h : st.KeepsSlices st') (c : ℕ) (t : Tid) {op : Op} (htick : op ≠ .tick)
    (hyield : op ≠ .yield) : st.KeepsSlices (st'.perform c t op) := by
  cases op with
  | tick => exact absurd rfl htick
  | yield => exact absurd rfl hyield
  | acquire l =>
    change st.KeepsSlices (st'.acquire c l)
    unfold Kernel.acquire
    dsimp only
    split
    exacts [h.of_tcb rfl rfl, h.of_tcb rfl rfl]
  | release l =>
    change st.KeepsSlices (st'.release c l)
    unfold Kernel.release
    split
    exacts [h.of_tcb rfl rfl, h.of_tcb rfl rfl]
  | schedule => exact h.push t _
  | pick => exact h.pick c t
  | checkPreempt =>
    change st.KeepsSlices (if (st'.rq c).needResched then st'.push t [.schedule] else st')
    split
    exacts [h.push t _, h]
  | link w => exact (h.setState t .sleeping).of_tcb rfl rfl
  | wakeOne w =>
    change st.KeepsSlices (st'.wakeOne w t)
    unfold Kernel.wakeOne
    split
    exacts [h, (h.takeWaiter _).push t _]
  | wakeAll w =>
    change st.KeepsSlices (st'.wakeAll w t)
    unfold Kernel.wakeAll
    split
    exacts [h, (h.takeWaiter _).push t _]
  | enqueue d x => exact h.enqueueTask d x
  | exit code =>
    have hcode : st.KeepsSlices (st'.setTcb t fun b => { b with exitCode := code }) :=
      h.setTcb t fun _ => ⟨rfl, rfl⟩
    exact hcode.push t _
  | reparent f => exact (h.reparentLoop f _ _).of_tcb rfl rfl
  | zombie =>
    have hgone := h.setState t .zombie
    change st.KeepsSlices (st'.becomeZombie t)
    unfold Kernel.becomeZombie
    dsimp only
    split
    · exact hgone.push t _
    · split
      exacts [hgone.push t _, hgone.of_tcb rfl rfl]
  | wait => exact h.push t _
  | scan =>
    change st.KeepsSlices (st'.scan t)
    unfold Kernel.scan
    split
    · exact h.push t _
    · split
      exacts [h.push t _, h.push t _]
  | fork ok =>
    cases ok with
    | false => exact h
    | true => exact (h.spawn c _ _ _).push t _
  | kthreadCreate p ok =>
    cases ok with
    | false => exact h
    | true => exact (h.spawn c _ _ _).push t _
  | adopt p x =>
    have hparent : st.KeepsSlices (st'.setTcb x fun b => { b with parent := some p }) :=
      h.setTcb x fun _ => ⟨rfl, rfl⟩
    exact hparent.of_tcb rfl rfl
  | check n =>
    change st.KeepsSlices (st'.check n t)
    unfold Kernel.check
    split
    exacts [h.push t _, h.push t _]
  | raise n all =>
    have hraised : st.KeepsSlices { st' with
        cond := Function.update st'.cond n true
        epoch := Function.update st'.epoch n (st'.epoch n + 1) } := h.of_tcb rfl rfl
    exact hraised.push t _
  | unreachable | returned | listRemove | listAdd | reclaim | intrOn | iret | userret | reset | woken
  | notified => exact h.of_tcb rfl rfl

theorem bringUp (st : Kernel) (c : ℕ) : st.KeepsSlices (st.bringUp c) := by
  unfold Kernel.bringUp
  dsimp only
  exact ((((refl st).spawn c kIdlePriority .idle _).spawn c 0 .o1 []).setState _ .running).setRq c _

end KeepsSlices

/-! ## Ticks and yields -/

variable {st st' : Kernel} {l : Label} {c : ℕ} {t : Tid}

/-- Task `t` has the slice `n`, and nothing else about slices changes. -/
structure SetsSlice (st : Kernel) (t : Tid) (n : ℤ) (st' : Kernel) : Prop where
  nextTid : st'.nextTid = st.nextTid
  slice : ∀ x, (st'.tcb x).timeSlice = if x = t then n else (st.tcb x).timeSlice
  priority : ∀ x, (st'.tcb x).priority = (st.tcb x).priority

theorem setsSlice (st : Kernel) (t : Tid) (f : Tcb → ℤ) :
    st.SetsSlice t (f (st.tcb t)) (st.setTcb t fun b => { b with timeSlice := f b }) := by
  refine ⟨rfl, fun x => ?_, fun x => ?_⟩
  · rw [tcb_setTcb]
    split <;> rfl
  · rw [tcb_setTcb]
    split
    · rename_i he
      rw [he]
    · rfl

/-- What a tick of task `t` does to its slice and to the request to reschedule. -/
inductive Ticked (st : Kernel) (t : Tid) (st' : Kernel) : Prop
  /-- The idle thread has no slice to use up. -/
  | idle (hkeeps : st.KeepsSlices st') (hrq : st'.rq = st.rq)
  | less (hslice : 1 < (st.tcb t).timeSlice) (hrq : st'.rq = st.rq)
      (hsets : st.SetsSlice t ((st.tcb t).timeSlice - 1) st')
  | expired (hslice : (st.tcb t).timeSlice ≤ 1)
      (hsets : st.SetsSlice t (priorityToTimeslice (st.tcb t).priority) st')

theorem ticked (st : Kernel) (c : ℕ) (t : Tid) : st.Ticked t (st.taskTick c t) := by
  unfold taskTick
  split
  · exact .idle (.refl st) rfl
  · split
    · exact .idle (.refl st) rfl
    · dsimp only
      split
      · rename_i hleft
        have hsets := st.setsSlice t fun b => priorityToTimeslice b.priority
        exact .expired (by omega) ⟨hsets.nextTid, hsets.slice, hsets.priority⟩
      · rename_i hleft
        exact .less (by omega) rfl (st.setsSlice t fun _ => (st.tcb t).timeSlice - 1)

theorem KeepsSlices.yieldTask (h : st.KeepsSlices st') (hidle : (st'.tcb t).schedClass = .idle) :
    st.KeepsSlices (st'.yieldTask c t) := by
  unfold Kernel.yieldTask
  split
  · exact h
  · rw [hidle]
    exact h.setRq c _

/-- Only the idle thread yields. -/
def NoYield (st : Kernel) (l : Label) : Prop :=
  ∀ p ∈ st.nextOp l, p.2 = .yield → (st.tcb p.1).schedClass = .idle

instance (st : Kernel) (l : Label) : Decidable (st.NoYield l) :=
  inferInstanceAs (Decidable (∀ p ∈ st.nextOp l, _))

/-- The task that a tick is for. -/
def ticks? (st : Kernel) (l : Label) : Option Tid :=
  match st.nextOp l with
  | some (t, .tick) => some t
  | _ => none

/-- **A step leaves the slices alone, or is a tick.** -/
theorem Step.slices (hs : st.Step l st') (hok : st.NoYield l) : st.KeepsSlices st' ∨
      ∃ t k, st.nextOp l = some (t, .tick) ∧ (st.setCode t k).Ticked t st' := by
  have ht := hs.taken
  obtain ⟨c, act⟩ := l
  cases ht with
  | boot => exact .inl (.bringUp st c)
  | @call t a => exact .inl ((KeepsSlices.refl st).setCode t _)
  | setIntr => exact .inl ((KeepsSlices.refl st).of_tcb rfl rfl)
  | @irq t i =>
    have hcpu : st.KeepsSlices (st.setCpu c fun s => { s with intrOn := false }) :=
      (KeepsSlices.refl st).of_tcb rfl rfl
    exact .inl (hcpu.push t _)
  | @op t op k ha =>
    have hcode := (KeepsSlices.refl st).setCode t k
    by_cases htick : op = .tick
    · subst htick
      exact .inr ⟨t, k, ha.nextOp, ticked _ c t⟩
    by_cases hyield : op = .yield
    · subst hyield
      have hidle := hok (t, .yield) ha.nextOp rfl
      exact .inl (hcode.yieldTask ((st.alike_setCode t t k).schedClass.trans hidle))
    · exact .inl (hcode.perform c t htick hyield)

/-! ## Slices along a run -/

theorem slice_setCode (st : Kernel) (t x : Tid) (k : List Op) :
    ((st.setCode t k).tcb x).timeSlice = (st.tcb x).timeSlice ∧
      ((st.setCode t k).tcb x).priority = (st.tcb x).priority := by
  rw [tcb_setCode]
  exact ⟨rfl, rfl⟩

theorem HasSlices.keeps (h : st.HasSlices) (hkeeps : st.KeepsSlices st') : st'.HasSlices := by
  intro x hx
  by_cases hold : x < st.nextTid
  · rw [hkeeps.slice x hold, hkeeps.priority x hold]
    exact h x hold
  · rw [hkeeps.fresh x (not_lt.mp hold) hx]
    exact ⟨one_le_priorityToTimeslice _, le_rfl⟩

theorem HasSlices.sets {n : ℤ} (h : st.HasSlices) (hsets : st.SetsSlice t n st')
    (hn : 1 ≤ n ∧ n ≤ priorityToTimeslice (st.tcb t).priority) : st'.HasSlices := by
  intro x hx
  rw [hsets.nextTid] at hx
  rw [hsets.slice, hsets.priority]
  split
  · rename_i he
    rw [he]
    exact hn
  · exact h x hx

theorem HasSlices.step (h : st.HasSlices) (hs : st.Step l st') (hok : st.NoYield l)
    (hlt : ∀ t, st.current l.cpu = some t → t < st.nextTid) : st'.HasSlices := by
  rcases hs.slices hok with hkeeps | ⟨t, k, hop, htick⟩
  · exact h.keeps hkeeps
  · have hcode := h.keeps ((KeepsSlices.refl st).setCode t k)
    obtain ⟨k', ha, -⟩ := hs.at_of_nextOp hop
    have ht := hcode t (hlt t ha.current)
    cases htick with
    | idle hkeeps => exact hcode.keeps hkeeps
    | less hslice _ hsets => exact hcode.sets hsets ⟨by omega, by omega⟩
    | expired _ hsets => exact hcode.sets hsets ⟨one_le_priorityToTimeslice _, le_rfl⟩

theorem Step.slice_le (hs : st.Step l st') (hok : st.NoYield l) {y : Tid} (hy : y < st.nextTid) :
    y < st'.nextTid ∧ (st.tcb y).timeSlice ≤
      (st'.tcb y).timeSlice + ((st.ticks? l).toList.count y : ℕ) := by
  rcases hs.slices hok with hkeeps | ⟨t, k, hop, htick⟩
  · rw [hkeeps.slice y hy]
    exact ⟨hy.trans_le hkeeps.nextTid, by omega⟩
  · have hcount : (st.ticks? l).toList = [t] := by
      rw [ticks?, hop]
      rfl
    rw [hcount, ← (st.slice_setCode t y k).1]
    cases htick with
    | idle hkeeps =>
      rw [hkeeps.slice y hy]
      exact ⟨hy.trans_le hkeeps.nextTid, by omega⟩
    | less hslice _ hsets =>
      refine ⟨hsets.nextTid.symm ▸ hy, ?_⟩
      rw [hsets.slice]
      by_cases hyt : y = t
      · subst hyt
        rw [if_pos rfl, List.count_singleton_self]
        push_cast
        omega
      · rw [if_neg hyt]
        omega
    | expired hslice hsets =>
      refine ⟨hsets.nextTid.symm ▸ hy, ?_⟩
      rw [hsets.slice]
      by_cases hyt : y = t
      · subst hyt
        have hpos := one_le_priorityToTimeslice ((st.setCode y k).tcb y).priority
        rw [if_pos rfl, List.count_singleton_self]
        push_cast
        omega
      · rw [if_neg hyt]
        omega

theorem slice_le_of_run {ls : List Label} {y : Tid} (hr : Run (Guarded NoYield Step) st ls st')
    (hy : y < st.nextTid) : y < st'.nextTid ∧ (st.tcb y).timeSlice ≤
      (st'.tcb y).timeSlice + ((events ticks? st ls).count y : ℕ) := by
  induction hr with
  | nil =>
    refine ⟨hy, ?_⟩
    rw [events, List.count_nil]
    omega
  | @snoc u u' ls l hrun hstep ih =>
    obtain ⟨hlt, hle⟩ := ih
    obtain ⟨hlt', hle'⟩ := hstep.2.slice_le hstep.1 hlt
    refine ⟨hlt', ?_⟩
    rw [events_snoc ticks? hrun.of_guarded, List.count_append]
    push_cast
    omega

/-- The next operation is a tick of task `y`, and it is the tick that requests rescheduling: it does
so on a queue without a request too. -/
def TickRequests (st : Kernel) (l : Label) (y : Tid) : Prop :=
  st.nextOp l = some (y, .tick) ∧
    (((st.setRq l.cpu fun rq => { rq with needResched := false }).taskTick l.cpu y).rq
      l.cpu).needResched = true

theorem TickRequests.slice_le {y : Tid} (h : st.TickRequests l y) : (st.tcb y).timeSlice ≤ 1 := by
  have hset := h.2
  have hclear : ((st.setRq l.cpu fun rq => { rq with needResched := false }).rq
      l.cpu).needResched = false := by
    simp only [setRq, Function.update_self]
  cases (st.setRq l.cpu fun rq => { rq with needResched := false }).ticked l.cpu y with
  | idle _ hsame =>
    rw [hsame, hclear] at hset
    cases hset
  | less _ hsame =>
    rw [hsame, hclear] at hset
    cases hset
  | expired hslice => exact hslice

end Kernel

theorem hasSlices_of_run {st : Kernel} {ls : List Label}
    (hr : Run (Guarded Kernel.NoYield Kernel.Step) Kernel.init ls st) : st.HasSlices := by
  induction hr with
  | nil =>
    have hblank : Kernel.blank.HasSlices := fun x hx => absurd hx (Nat.not_lt_zero x)
    exact hblank.keeps (.bringUp Kernel.blank 0)
  | snoc hrun hstep ih =>
    obtain ⟨held, Q, K, h⟩ := sound_of_run hrun.of_guarded
    exact ih.step hstep.2 hstep.1 fun t ht =>
      h.roster.lt ((h.control hstep.2.halted).running ht).1

/-- **Every task that is scheduled has a usable slice**, in every run in which only idle threads
yield; and it is ticked as often as its slice says before a tick of it requests rescheduling. -/
theorem slices_usable {st st' : Kernel} {ls : List Label} {l : Label} {t y : Tid}
    (hr : Run (Guarded Kernel.NoYield Kernel.Step) Kernel.init ls st) (hs : st.Step l st')
    (hop : st.nextOp l = some (t, .pick)) (hy : st'.current l.cpu = some y) :
    (1 ≤ (st'.tcb y).timeSlice ∧ (st'.tcb y).timeSlice ≤ priorityToTimeslice (st'.tcb y).priority) ∧
    ∀ (ls' : List Label) (u : Kernel) (l' : Label),
      Run (Guarded Kernel.NoYield Kernel.Step) st' ls' u → u.TickRequests l' y →
        (st'.tcb y).timeSlice ≤ ((Kernel.events Kernel.ticks? st' ls').count y + 1 : ℕ) := by
  have hok : st.NoYield l := by
    intro p hp hyield
    rw [hop] at hp
    obtain rfl := Option.mem_some_iff.mp hp
    cases hyield
  have hr' := hr.snoc ⟨hok, hs⟩
  obtain ⟨held, Q, K, h⟩ := sound_of_run hr'.of_guarded
  have hlt : y < st'.nextTid := by
    obtain ⟨k, ha, -, rfl⟩ := hs.at_of_nextOp hop
    have hkeeps := (Kernel.Keeps.setCode st t k).pick l.cpu t
    exact h.roster.lt ((h.control (hkeeps.halted.trans ha.halted)).running hy).1
  refine ⟨hasSlices_of_run hr' y hlt, fun ls' u l' hrun htick => ?_⟩
  -- what the ticks have not used up is at most one
  have hused := (Kernel.slice_le_of_run hrun hlt).2
  have hleft := htick.slice_le
  push_cast
  omega

/-- The init task calls `schedule`, up to the section. -/
def scheduleTrace : List Label := bootTrace [(.call .schedule, 2)]

/-- The init task yields, up to the section of `schedule`. -/
def yieldTrace : List Label := bootTrace [(.call .yield, 5)]

set_option maxRecDepth 100000 in
theorem slices_usable_init : ∃ st st' : Kernel, st.Step ⟨0, .step⟩ st' ∧
    st.nextOp ⟨0, .step⟩ = some (1, .pick) ∧ st'.current 0 = some 1 ∧ 1 ≤ (st'.tcb 1).timeSlice ∧
      (st'.tcb 1).timeSlice ≤ priorityToTimeslice (st'.tcb 1).priority := by
  have hp : Kernel.init.PermittedAll Kernel.NoYield scheduleTrace := by decide +kernel
  have hop : (Kernel.init.execAll scheduleTrace).nextOp ⟨0, .step⟩ = some (1, .pick) := by
    decide +kernel
  have hs : (Kernel.init.execAll scheduleTrace).Permitted ⟨0, .step⟩ := by decide +kernel
  have hy : ((Kernel.init.execAll scheduleTrace).exec ⟨0, .step⟩).current 0 = some 1 := by
    decide +kernel
  exact ⟨_, _, ⟨hs, rfl⟩, hop, hy, (slices_usable (run_execAll hp) ⟨hs, rfl⟩ hop hy).1⟩

set_option maxRecDepth 100000 in
/-- The init task yields and is kept on the CPU by `schedule`, with a slice of zero. -/
theorem yielder_has_no_slice : ∃ st st' : Kernel, Run Kernel.Step Kernel.init yieldTrace st ∧
    st.Step ⟨0, .step⟩ st' ∧ st.nextOp ⟨0, .step⟩ = some (1, .pick) ∧ st'.current 0 = some 1 ∧
    some 1 ≠ (st'.rq 0).idle ∧ (st'.tcb 1).timeSlice = 0 := by
  have hp : Kernel.init.PermittedAll (fun _ _ => True) yieldTrace := by decide +kernel
  have hop : (Kernel.init.execAll yieldTrace).nextOp ⟨0, .step⟩ = some (1, .pick) := by
    decide +kernel
  have hs : (Kernel.init.execAll yieldTrace).Permitted ⟨0, .step⟩ := by decide +kernel
  have hy : ((Kernel.init.execAll yieldTrace).exec ⟨0, .step⟩).current 0 = some 1 ∧
      some 1 ≠ (((Kernel.init.execAll yieldTrace).exec ⟨0, .step⟩).rq 0).idle ∧
      (((Kernel.init.execAll yieldTrace).exec ⟨0, .step⟩).tcb 1).timeSlice = 0 := by
    decide +kernel
  exact ⟨_, _, (run_execAll hp).of_guarded, ⟨hs, rfl⟩, hop, hy⟩

end Lume.Sched
