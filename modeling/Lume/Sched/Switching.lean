import Lume.Sched.Invariant

/-!
# Locks and the choice of the next task

The operations on locks and on the interrupt flag, and the section of `schedule`, keep the
invariant.

## Main definitions

* `Kernel.joined`: the run queues with a task at the tail of its own
* `First`: the task that is first in the queues of a CPU
* `Kernel.Switched c t k y`: CPU `c` has gone over from task `t`, with code `k` left, to task `y`

## Main results

* `Sound.acquire`, `Sound.release`, `Sound.setIntr`
* `Lists.o1PickNext`: `pick_next` takes the first task of the first queue that is not empty
* `Sound.pick`: the section of `schedule`
-/

namespace Lume.Sched

open Function (update update_apply update_eq_self update_of_ne update_self)

namespace Sound

variable {doom : Prop} {st st' : Kernel} {held : ℕ → List Spinlock} {Q : RunHead → List Tid}
  {K : Tid → List Tid} {c : ℕ} {t x : Tid} {op : Op} {k k' : List Op} {l : Spinlock}

theorem typed (h : Sound doom st held Q K) (ha : st.At c t op k) :
    Typed doom c t (st.tcb t).schedClass (op :: k) (held c) (modeOf (st.tcb t).state) := by
  have hk := ((h.control ha.halted).running ha.current).2.2
  rwa [ha.code] at hk

theorem one (h : Sound doom st held Q K) (ha : st.At c t op k) (c' : ℕ)
    (hc' : st.current c' = some t) : c' = c :=
  (h.control ha.halted).unique ha.current hc'

/-! ## Locks and interrupts -/

section

variable (h : Sound doom st held Q K)
include h

theorem lock (hh : st.halted = none) (hc : st.current c = some t)
    (hwork : NoNewWork k (st.tcb t).code) (h' : List Spinlock) {s' : CpuSync}
    {owner' : Spinlock → Option ℕ}
    (hk : Typed doom c t (st.tcb t).schedClass k h' (modeOf (st.tcb t).state))
    (howner : ∀ l c', owner' l = some c' ↔ l ∈ update held c h' c') (hnodup : h'.Nodup)
    (hdepth : s'.lockDepth = h'.length) (hintr : h' ≠ [] → s'.intrOn = false) :
    Sound doom { st.setCode t k with cpu := update st.cpu c s', owner := owner' }
      (update held c h') Q K := by
  have hC := h.control hh
  have hb (x : Tid) := st.alike_setCode t x k
  refine h.relock hc (fun _ => hC.unique hc) hwork fun _ => ?_
  refine hC.update h' hc (fun _ => rfl) rfl (fun x => (hb x).cpuId) (fun x => (hb x).schedClass)
    (fun x hx => ⟨?_, ?_⟩) ?_ howner (fun c' hc' => update_of_ne hc' ..) hnodup ?_ ?_
  · exact (st.code_setCode t x k).trans (if_neg hx)
  · exact congrArg modeOf (hb x).state
  · have hcode : ((st.setCode t k).tcb t).code = k := (st.code_setCode t t k).trans (if_pos rfl)
    change Typed doom c t _ ((st.setCode t k).tcb t).code h' (modeOf ((st.setCode t k).tcb t).state)
    rwa [hcode, (hb t).state]
  · change (update st.cpu c s' c).lockDepth = _
    rwa [update_self]
  · change h' ≠ [] → (update st.cpu c s' c).intrOn = _
    rwa [update_self]

theorem acquire (ha : st.At c t (.acquire l) k) (hfree : st.owner l = none ∨ st.owner l = some c) :
    Sound doom ((st.setCode t k).acquire c l) (update held c (l :: held c)) Q K := by
  have hC := h.control ha.halted
  obtain ⟨hnew, hk⟩ := h.typed ha
  have hown : st.owner l ≠ some c := fun ho => hnew (hC.owner.mp ho)
  have heq : (st.setCode t k).acquire c l = { st.setCode t k with
      cpu := update st.cpu c (Kernel.pushIntr (st.cpu c))
      owner := update st.owner l (some c) } := by
    unfold Kernel.acquire
    exact if_neg hown
  rw [heq]
  refine h.lock ha.halted ha.current ?_ (l :: held c) hk (fun l' c' => ?_) ?_ ?_ fun _ => rfl
  · rw [ha.code]
    exact .of_quiet rfl quiet_nil
  · rw [update_apply, update_apply]
    split <;> split
    · simp_all
    · rename_i hl hc'
      rw [hl, ← hC.owner, hfree.resolve_right hown]
      simpa using Ne.symm hc'
    · rename_i hl hc'
      rw [List.mem_cons, hC.owner, hc']
      simp [hl]
    · exact hC.owner
  · exact List.nodup_cons.mpr ⟨hnew, hC.nodup c⟩
  · simp [Kernel.pushIntr, hC.depth c]

theorem release (ha : st.At c t (.release l) k) :
    ∃ held', Sound doom ((st.setCode t k).release c l) held' Q K := by
  have hC := h.control ha.halted
  have hwork : NoNewWork k (st.tcb t).code := by
    rw [ha.code]
    exact .of_quiet rfl quiet_nil
  rcases h.typed ha with ⟨h', hheld, hk⟩ | ⟨-, hnot⟩
  · have hnd := hC.nodup c
    rw [hheld, List.nodup_cons] at hnd
    have hown : st.owner l = some c := hC.owner.mpr (by rw [hheld]; exact List.mem_cons_self ..)
    have heq : (st.setCode t k).release c l = { st.setCode t k with
        cpu := update st.cpu c (Kernel.popIntr (st.cpu c))
        owner := update st.owner l none } := by
      unfold Kernel.release
      exact if_pos hown
    rw [heq]
    have hdepth := hC.depth c
    rw [hheld, List.length_cons] at hdepth
    refine ⟨_, h.lock ha.halted ha.current hwork h' hk (fun l' c' => ?_) hnd.2 ?_ fun hne => ?_⟩
    · rw [update_apply, update_apply]
      split <;> split
      · rename_i hl hc'
        simpa [hl] using hnd.1
      · rename_i hl hc'
        rw [hl, ← hC.owner, hown]
        simpa using Ne.symm hc'
      · rename_i hl hc'
        rw [hC.owner, hc', hheld, List.mem_cons]
        simp [hl]
      · exact hC.owner
    · change (st.cpu c).lockDepth - 1 = _
      rw [hdepth]
      simp
    · -- another lock is held, so the depth does not reach zero
      have hoff : (st.cpu c).intrOn = false := hC.intr c (by rw [hheld]; simp)
      have hpos : (st.cpu c).lockDepth - 1 ≠ 0 := by
        rw [hdepth]
        simpa using hne
      simp [Kernel.popIntr, hpos, hoff]
  · have hown : st.owner l ≠ some c := fun ho => hnot (hC.owner.mp ho)
    have heq : (st.setCode t k).release c l =
        { st.setCode t k with halted := some (.invalidRelease l) } := by
      unfold Kernel.release
      exact if_neg hown
    rw [heq]
    exact ⟨held, h.relock ha.current (h.one ha) hwork (by simp)⟩

theorem setIntr (hh : st.halted = none) (hc : st.current c = some t)
    (hwork : NoNewWork k (st.tcb t).code) (hheld : held c = [])
    (hk : Typed doom c t (st.tcb t).schedClass k [] (modeOf (st.tcb t).state)) (on : Bool) :
    Sound doom ((st.setCode t k).setCpu c fun s => { s with intrOn := on }) held Q K := by
  have hC := h.control hh
  have hlock : Sound doom { st.setCode t k with
      cpu := update st.cpu c { st.cpu c with intrOn := on }
      owner := st.owner } (update held c (held c)) Q K := by
    refine h.lock hh hc hwork (held c) (by rwa [hheld]) (fun l' c' => ?_) (hC.nodup c) (hC.depth c)
      fun hne => absurd hheld hne
    rw [update_eq_self]
    exact hC.owner
  rwa [update_eq_self] at hlock

end

end Sound

/-! ## The choice of the next task -/

namespace Kernel

/-- The run queues `Q` once task `x`, if there is one, has joined its own. -/
def joined (st : Kernel) (Q : RunHead → List Tid) (x : Option Tid) (d p : ℕ) : List Tid :=
  Q (.queue d p) ++ x.toList.filter fun x => (st.tcb x).cpuId = d ∧ (st.tcb x).priority = p

/-- The task that `schedule` puts back on its queue, if it does. -/
def putsBack (st : Kernel) (t : Tid) : Option Tid :=
  if (st.tcb t).state = .running ∧ (st.tcb t).schedClass = .o1 then some t else none

theorem joined_none (st : Kernel) (Q : RunHead → List Tid) (d p : ℕ) :
    st.joined Q none d p = Q (.queue d p) := List.append_nil _

theorem joined_some {st : Kernel} {x : Tid} {c q : ℕ} (hc : (st.tcb x).cpuId = c)
    (hq : (st.tcb x).priority = q) (Q : RunHead → List Tid) (d p : ℕ) :
    update Q (.queue c q) (Q (.queue c q) ++ [x]) (.queue d p) = st.joined Q (some x) d p := by
  rw [joined, Option.toList_some, List.filter_singleton, hc, hq]
  by_cases hd : c = d ∧ q = p
  · obtain ⟨rfl, rfl⟩ := hd
    simp
  · rw [update_of_ne (by simp; tauto)]
    simp [hd]

theorem joined_setCode (st : Kernel) (t : Tid) (k : List Op) (Q : RunHead → List Tid)
    (x : Option Tid) (d p : ℕ) : (st.setCode t k).joined Q x d p = st.joined Q x d p := by
  simp only [joined, (st.alike_setCode t _ k).cpuId, (st.alike_setCode t _ k).priority]

theorem putsBack_setCode (st : Kernel) (t : Tid) (k : List Op) :
    (st.setCode t k).putsBack t = st.putsBack t := by
  simp only [putsBack, (st.alike_setCode t t k).state, (st.alike_setCode t t k).schedClass]

end Kernel

/-- Task `y` is the first one of the queues `q` of a CPU, or its idle thread `i` if they are
empty. -/
def First (q : ℕ → List Tid) (i y : Tid) : Prop :=
  y = i ∧ (∀ p < kNumPriorities, q p = []) ∨
    ∃ p < kNumPriorities, ∃ rest, q p = y :: rest ∧ ∀ p' < p, q p' = []

namespace Lists

variable {st : Kernel} {Q : RunHead → List Tid} {out : Option Tid} {c : ℕ} {t : Tid}

theorem o1PickNext (h : Lists st Q out) (c : ℕ) :
    st.o1PickNext c = none ∧ (∀ p < kNumPriorities, Q (.queue c p) = []) ∨
      ∃ p < kNumPriorities, ∃ y rest, Q (.queue c p) = y :: rest ∧ st.o1PickNext c = some y ∧
        ∀ q < p, Q (.queue c q) = [] := by
  unfold Kernel.o1PickNext
  by_cases hzero : (st.rq c).o1.bitmap = 0
  · refine .inl ⟨if_pos hzero, fun p hp => ?_⟩
    by_contra hne
    have hbit := (h.counters.bitmap c p hp).mpr hne
    simp [hzero] at hbit
  · obtain ⟨hset, hlow⟩ := ctz32_spec hzero
    have hlt : ctz32 (st.rq c).o1.bitmap < kNumPriorities := BitVec.lt_of_getLsbD hset
    obtain ⟨y, rest, hy⟩ := List.exists_cons_of_ne_nil ((h.counters.bitmap c _ hlt).mp hset)
    refine .inr ⟨_, hlt, y, rest, hy, ?_, fun q hq => ?_⟩
    · rw [if_neg hzero, h.rings.first, hy]
      rfl
    · by_contra hne
      have hbit := (h.counters.bitmap c q (hq.trans hlt)).mpr hne
      rw [hlow q hq] at hbit
      cases hbit

theorem putBack (h : Lists st Q none) (hl : st.live t = true) (hcpu : (st.tcb t).cpuId = c)
    (hp : (st.tcb t).priority < kNumPriorities) :
    ∃ Q', Lists (st.putBack c t) Q' none ∧ (∀ w, Q' (.wait w) = Q (.wait w)) ∧
      ∀ d p, Q' (.queue d p) = st.joined Q (st.putsBack t) d p := by
  unfold Kernel.putBack Kernel.putsBack
  split
  · rename_i hs
    have hout := (h.takeRunning hl hs).setState .runnable
    have hcls' := st.schedClass_setState t t .runnable
    have hcpu' : ((st.setState t .runnable).tcb t).cpuId = c := by
      rw [st.cpuId_setState, hcpu]
    unfold Kernel.enqueueTask
    split
    · rename_i hcls
      rw [if_pos ⟨hs, hcls'.symm.trans hcls⟩]
      refine ⟨_, hout.o1Enqueue hcls hcpu' ?_, fun w => update_of_ne (by simp) .., ?_⟩
      · rwa [st.priority_setState]
      · exact Kernel.joined_some hcpu (st.priority_setState t t _).symm Q
    · rename_i hcls
      rw [if_neg fun ho => absurd (hcls.symm.trans (hcls'.trans ho.2)) (by decide)]
      have hs' : ((st.setState t .runnable).tcb t).state = .runnable := by
        rw [st.state_setState, if_pos rfl]
      refine ⟨Q, hout.close ⟨fun hr => ?_, fun ho _ => ?_, fun hr => ?_⟩, fun _ => rfl,
        fun d p => (st.joined_none Q d p).symm⟩
      · exact absurd (hs'.symm.trans hr) (by decide)
      · exact absurd (hcls.symm.trans ho) (by decide)
      · exact absurd (hs'.symm.trans hr) (by decide)
  · rename_i hs
    rw [if_neg fun hr => hs hr.1]
    exact ⟨Q, h, fun _ => rfl, fun d p => (st.joined_none Q d p).symm⟩

theorem pickNextTask (h : Lists st Q none) {i : Tid} (hi : (st.rq c).idle = some i)
    (hlive : st.live i = true) (hcpu : (st.tcb i).cpuId = c) (hcls : (st.tcb i).schedClass = .idle)
    (hmode : modeOf (st.tcb i).state ≠ .gone) :
    ∃ y Q', st.pickNextTask c = some y ∧ st.live y = true ∧ (st.tcb y).cpuId = c ∧
      modeOf (st.tcb y).state ≠ .gone ∧ ((st.tcb y).state = .runnable ∨ st.current c = some y) ∧
      Lists (st.dequeueTask c y) Q' (some y) ∧
      ((st.tcb y).schedClass = .idle ↔ some y = (st.rq c).idle) ∧ (∀ w, Q' (.wait w) = Q (.wait w)) ∧
      First (fun p => Q (.queue c p)) i y ∧ ∀ d p, Q' (.queue d p) = (Q (.queue d p)).erase y := by
  unfold Kernel.pickNextTask Kernel.dequeueTask
  rcases h.o1PickNext c with ⟨hnone, hempty⟩ | ⟨p, hp, y, rest, hy, hsome, hlow⟩
  · refine ⟨i, Q, ?_, hlive, hcpu, hmode, ?_, ?_, ?_, fun _ => rfl, .inl ⟨rfl, hempty⟩, fun d p => ?_⟩
    · rw [hnone, hi]
      rfl
    · -- the idle thread never sleeps
      have hp := h.placed (by simp) hlive
      cases hs : (st.tcb i).state with
      | running => exact .inr (hcpu ▸ hp.running hs)
      | runnable => exact .inl rfl
      | sleeping =>
        obtain ⟨w, hw⟩ := hp.sleeping hs
        exact absurd (hcls.symm.trans (h.member hw).2.1) (by decide)
      | zombie => exact absurd (congrArg modeOf hs) hmode
      | dead => exact absurd (congrArg modeOf hs) hmode
    · rw [hcls]
      exact h.takeIdle hlive hcls
    · exact iff_of_true hcls hi.symm
    · refine (List.erase_of_not_mem fun hm => ?_).symm
      exact absurd (hcls.symm.trans (h.member hm).2.1) (by decide)
  · have hmem : y ∈ Q (.queue c p) := by
      rw [hy]
      exact List.mem_cons_self ..
    obtain ⟨hl, ho1, hs, hcy, -⟩ := h.member hmem
    refine ⟨y, update Q (.queue c p) ((Q (.queue c p)).erase y), ?_, hl, hcy, ?_, .inl hs, ?_, ?_,
      fun w => update_of_ne (by simp) .., .inr ⟨p, hp, rest, hy, hlow⟩, fun d p' => ?_⟩
    · rw [hsome]
      rfl
    · rw [hs]
      decide
    · rw [ho1]
      exact h.o1Dequeue hp hmem
    · refine iff_of_false (by simp [ho1]) fun he => ?_
      rw [hi] at he
      rw [Option.some_injective _ he, hcls] at ho1
      cases ho1
    · rcases eq_or_ne (RunHead.queue d p') (.queue c p) with he | hne
      · rw [he, update_self]
      · rw [update_of_ne hne, List.erase_of_not_mem fun hm => hne (h.rings.disjoint hm hmem)]

end Lists

namespace Kernel

variable (st : Kernel) (c : ℕ) (t : Tid)

theorem state_putBack : ((st.putBack c t).tcb t).state =
    if (st.tcb t).state = .running then .runnable else (st.tcb t).state := by
  unfold putBack
  split
  · unfold enqueueTask
    split
    · unfold o1Enqueue
      rw [state_setState, if_pos rfl]
    · rw [state_setState, if_pos rfl]
  · rfl

theorem dequeueTask_setState (s : TaskState) :
    (st.setState t s).dequeueTask c t = (st.dequeueTask c t).setState t s := by
  unfold dequeueTask
  rw [schedClass_setState]
  split
  · unfold o1Dequeue
    rw [priority_setState]
    rfl
  · rfl

variable {y : Tid}

theorem keepOn_or_switchTo (hy : (st.tcb y).schedClass = .idle ↔ some y = (st.rq c).idle) :
    ∃ f : RunQueue → RunQueue, (if t = y then st.keepOn c y else st.switchTo c y) =
      ((st.dequeueTask c y).setState y .running).setRq c f ∧
      (∀ rq : RunQueue, (t = y → rq.current = some y) → (f rq).current = some y) ∧
      (∀ rq, (f rq).idle = rq.idle) ∧ (∀ rq, (f rq).o1 = rq.o1) ∧
      ∀ rq, (f rq).nrRunning = rq.nrRunning := by
  split
  · rename_i he
    unfold keepOn
    rw [dequeueTask_setState]
    exact ⟨_, rfl, fun rq hrq => hrq he, fun _ => rfl, fun _ => rfl, fun _ => rfl⟩
  · unfold switchTo
    have hdeq : (if some y ≠ (st.rq c).idle then st.dequeueTask c y else st) = st.dequeueTask c y := by
      split
      · rfl
      · -- the idle thread is on no queue
        rename_i he
        unfold dequeueTask
        rw [hy.mpr (not_not.mp he)]
    rw [hdeq]
    exact ⟨_, rfl, fun _ _ => rfl, fun _ => rfl, fun _ => rfl, fun _ => rfl⟩

end Kernel

/-- CPU `c` has gone over from task `t`, with code `k` left, to task `y`. -/
structure Kernel.Switched (c : ℕ) (t : Tid) (k : List Op) (y : Tid) (st st' : Kernel) : Prop where
  live : st'.live = st.live
  nextTid : st'.nextTid = st.nextTid
  kin : st'.kin = st.kin
  cpu : st'.cpu = st.cpu
  owner : st'.owner = st.owner
  kernelTask : st'.kernelTask = st.kernelTask
  initTask : st'.initTask = st.initTask
  idle : ∀ c', (st'.rq c').idle = (st.rq c').idle
  current : ∀ c', st'.current c' = if c' = c then some y else st.current c'
  tcb : ∀ x, st'.tcb x =
    { st.tcb x with state := (st'.tcb x).state, code := if x = t then k else (st.tcb x).code }
  state_next : (st'.tcb y).state = .running
  state_prev : t ≠ y → (st'.tcb t).state =
    if (st.tcb t).state = .running then .runnable else (st.tcb t).state
  state : ∀ x, x ≠ t → x ≠ y → (st'.tcb x).state = (st.tcb x).state

namespace Kernel.Switched

variable {doom : Prop} {st st' : Kernel} {held : ℕ → List Spinlock} {K : Tid → List Tid} {c : ℕ}
  {t y : Tid} {k : List Op}

section

variable (h : Switched c t k y st st')
include h

theorem cpuId (x : Tid) : (st'.tcb x).cpuId = (st.tcb x).cpuId := by
  rw [h.tcb]

theorem priority (x : Tid) : (st'.tcb x).priority = (st.tcb x).priority := by
  rw [h.tcb]

theorem schedClass (x : Tid) : (st'.tcb x).schedClass = (st.tcb x).schedClass := by
  rw [h.tcb]

theorem parent (x : Tid) : (st'.tcb x).parent = (st.tcb x).parent := by
  rw [h.tcb]

theorem code (x : Tid) : (st'.tcb x).code = if x = t then k else (st.tcb x).code := by
  rw [h.tcb]

end

theorem of_moved {st₁ st₂ : Kernel} {f : RunQueue → RunQueue} (hm₁ : (st.setCode t k).Moved t st₁)
    (hs₁ : (st₁.tcb t).state = if (st.tcb t).state = .running then .runnable else (st.tcb t).state)
    (hm₂ : st₁.Moved y st₂) (hs₂ : (st₂.tcb y).state = .running)
    (hf : (f (st₂.rq c)).current = some y) (hidle : (f (st₂.rq c)).idle = (st₂.rq c).idle) :
    Switched c t k y st (st₂.setRq c f) := by
  refine ⟨hm₂.live.trans hm₁.live, hm₂.nextTid.trans hm₁.nextTid, hm₂.kin.trans hm₁.kin,
    hm₂.cpu.trans hm₁.cpu, hm₂.owner.trans hm₁.owner, hm₂.kernelTask.trans hm₁.kernelTask,
    hm₂.initTask.trans hm₁.initTask, fun c' => ?_, fun c' => ?_,
    fun x => ?_, hs₂, fun hty => (hm₂.state t hty).trans hs₁, fun x hxt hxy => ?_⟩
  · refine Eq.trans ?_ ((hm₂.idle c').trans (hm₁.idle c'))
    change (update st₂.rq c (f (st₂.rq c)) c').idle = _
    rw [update_apply]
    split
    · rename_i he
      rw [he, hidle]
    · rfl
  · change (update st₂.rq c (f (st₂.rq c)) c').current = _
    rw [update_apply]
    split
    exacts [hf, (hm₂.current c').trans (hm₁.current c')]
  · change st₂.tcb x = { st.tcb x with
      state := (st₂.tcb x).state
      code := if x = t then k else (st.tcb x).code }
    rw [hm₂.tcb, hm₁.tcb, ← st.code_setCode]
    rw [Kernel.setCode, tcb_setTcb]
    split
    · rename_i he
      subst he
      rfl
    · rfl
  · exact (hm₂.state x hxy).trans ((hm₁.state x hxt).trans (st.alike_setCode t x k).state)

theorem roster (h : Switched c t k y st st') (hR : Roster st) (hc : st.current c = some t) :
    Roster st' := by
  refine hR.congr h.live h.nextTid (fun c' => ?_) h.idle h.cpuId h.priority h.schedClass
    (fun x _ hx => ?_) h.kernelTask h.initTask
  · rw [h.current]
    split
    · rename_i he
      simp [he, hc]
    · rfl
  · rcases eq_or_ne x y with rfl | hxy
    · rw [h.state_next]
      decide
    · rcases eq_or_ne x t with rfl | hxt
      · rw [h.state_prev hxy]
        split
        · decide
        · exact hx
      · rwa [h.state x hxt hxy]

theorem control (h : Switched c t k y st st') (hC : Control doom st held) (hc : st.current c = some t)
    (hheld : held c = [.runQueue c]) (hcy : (st.tcb y).cpuId = c) (hly : st.live y = true)
    (hk : modeOf (st.tcb t).state ≠ .gone →
      Quiet k ∧ Typed doom c t (st.tcb t).schedClass k [.runQueue c] .active)
    (hy : Typed doom c y (st.tcb y).schedClass (st'.tcb y).code [.runQueue c] .active) :
    Control doom st' held := by
  obtain ⟨-, hct, -⟩ := hC.running hc
  refine ⟨fun {c' x} hx => ?_, fun {x} hl hmode hx => ?_, fun {l c'} => ?_, hC.nodup, fun c' => ?_,
    fun c' hne => ?_, fun {c'} hnone => ?_⟩
  · rw [h.live, h.cpuId, h.schedClass]
    rw [h.current] at hx
    split at hx
    · rename_i he
      obtain rfl := Option.some_injective _ hx
      rw [he, h.state_next, hheld]
      exact ⟨hly, hcy, hy⟩
    · rename_i hne
      obtain ⟨hlx, hcx, htx⟩ := hC.running hx
      have hxt : x ≠ t := by
        rintro rfl
        exact hne (hcx.symm.trans hct)
      have hxy : x ≠ y := by
        rintro rfl
        exact hne (hcx.symm.trans hcy)
      rw [h.code, if_neg hxt, h.state x hxt hxy]
      exact ⟨hlx, hcx, htx⟩
  · rw [h.live] at hl
    rw [h.cpuId, h.current] at hx
    rw [h.cpuId, h.schedClass, h.code]
    have hxy : x ≠ y := by
      rintro rfl
      exact hx (if_pos hcy)
    rcases eq_or_ne x t with rfl | hxt
    · rw [if_pos rfl, hct]
      refine hk fun hgone => hmode ?_
      rw [h.state_prev hxy]
      split
      · rename_i hs
        rw [hs] at hgone
        cases hgone
      · exact hgone
    · rw [if_neg hxt]
      rw [h.state x hxt hxy] at hmode
      refine hC.saved hl hmode fun hcx => ?_
      split at hx
      · rename_i he
        rw [he, hc] at hcx
        exact hxt (Option.some_injective _ hcx).symm
      · exact hx hcx
  · rw [h.owner]
    exact hC.owner
  · rw [h.cpu]
    exact hC.depth c'
  · rw [h.cpu]
    exact hC.intr c' hne
  · rw [h.current] at hnone
    split at hnone
    · cases hnone
    · exact hC.down hnone

theorem family (h : Switched c t k y st st') (hF : Family st K) (hc : st.current c = some t)
    (hone : ∀ c', st.current c' = some t → c' = c)
    (hquiet : Quiet (st.tcb t).code) (hquiet' : Quiet (st'.tcb y).code)
    (hy : modeOf (st.tcb y).state ≠ .gone) : Family st' K := by
  have hat : Quiet (st.codeAt c) := by rwa [codeAt_eq hc]
  have hat' : Quiet (st'.codeAt c) := by rwa [codeAt_eq ((h.current c).trans (if_pos rfl))]
  -- the work of the CPUs on tasks is the same: there is none on `c`
  have hsame {α : Type} (work : List Op → List α) (hwork : ∀ {q}, Quiet q → work q = []) (c' : ℕ) :
      work (st'.codeAt c') = work (st.codeAt c') := by
    rcases eq_or_ne c' c with rfl | hne
    · rw [hwork hat', hwork hat]
    · congr 1
      refine codeAt_congr ((h.current c').trans (if_neg hne)) fun x hx => ?_
      rw [h.code]
      refine if_neg ?_
      rintro rfl
      exact hne (hone c' hx)
  refine hF.congr h.kin h.live h.nextTid h.cpuId h.parent (fun x hx => ?_)
    (hsame adoptIn adoptIn_of_quiet) (hsame reclaimIn reclaimIn_of_quiet) fun c' hne => ?_
  · have hxy : x ≠ y := by
      rintro rfl
      rw [hx] at hy
      exact hy rfl
    rcases eq_or_ne x t with rfl | hxt
    · rw [h.state_prev hxy, hx]
      rfl
    · rw [h.state x hxt hxy, hx]
  · rw [h.current]
    refine if_neg ?_
    rintro rfl
    rw [adoptAt, reclaimAt, adoptIn_of_quiet hat, reclaimIn_of_quiet hat] at hne
    simp at hne

end Kernel.Switched

namespace Sound

variable {doom : Prop} {st st' : Kernel} {held : ℕ → List Spinlock} {Q : RunHead → List Tid}
  {K : Tid → List Tid} {c : ℕ} {t x : Tid} {op : Op} {k k' : List Op} {l : Spinlock}

theorem pick (h : Sound doom st held Q K) (ha : st.At c t .pick k) :
    ∃ y Q', st.Switched c t k y ((st.setCode t k).pick c t) ∧
      (st.live y = true ∧ (st.tcb y).cpuId = c ∧ (t ≠ y → (st.tcb y).state = .runnable)) ∧
      Sound doom ((st.setCode t k).pick c t) held Q' K ∧ (∀ w, Q' (.wait w) = Q (.wait w)) ∧
      (∃ i, (st.rq c).idle = some i ∧ First (st.joined Q (st.putsBack t) c) i y) ∧
      ∀ d p, Q' (.queue d p) = (st.joined Q (st.putsBack t) d p).erase y := by
  have hC := h.control ha.halted
  obtain ⟨hlive, hcpu, -⟩ := hC.running ha.current
  obtain ⟨hheld, hquiet, hk⟩ := h.typed ha
  have hb := st.alike_setCode t t k
  have hL₀ : Lists (st.setCode t k) Q none := by
    refine h.lists.setCode ha.current (h.one ha) ?_
    rw [ha.code]
    rfl
  obtain ⟨Q₁, hL₁, hw₁, hq₁⟩ := hL₀.putBack hlive (hb.cpuId.trans hcpu)
    (lt_of_eq_of_lt hb.priority (h.roster.priority hlive))
  rw [st.putsBack_setCode] at hq₁
  simp only [st.joined_setCode] at hq₁
  have hm₁ : (st.setCode t k).Moved t ((st.setCode t k).putBack c t) := (Kernel.Moved.refl t _).putBack c
  have hs₁ := (st.setCode t k).state_putBack c t
  rw [hb.state] at hs₁
  have hgone (x : Tid) (hx : modeOf (((st.setCode t k).putBack c t).tcb x).state ≠ .gone) :
      modeOf (st.tcb x).state ≠ .gone := by
    rcases eq_or_ne x t with rfl | hxt
    · rw [hs₁] at hx
      split at hx
      · rename_i hs
        rw [hs]
        decide
      · exact hx
    · rwa [hm₁.state x hxt, (st.alike_setCode t x k).state] at hx
  unfold Kernel.pick
  generalize (st.setCode t k).putBack c t = st₁ at hL₁ hm₁ hs₁ hgone
  -- the idle thread of the CPU
  obtain ⟨i, hi⟩ := h.roster.idle (c := c) (by rw [ha.current]; simp)
  obtain ⟨hil, hic, hicls⟩ := h.roster.idle_live hi
  have hbi := st.alike_setCode t i k
  have hic₁ : (st₁.tcb i).schedClass = .idle := (hm₁.schedClass i).trans (hbi.schedClass.trans hicls)
  have himode : modeOf (st₁.tcb i).state ≠ .gone := by
    rcases eq_or_ne i t with rfl | hit
    · rw [hs₁]
      split
      · decide
      · exact h.roster.idle_mode hicls
    · rw [hm₁.state i hit, hbi.state]
      exact h.roster.idle_mode hicls
  obtain ⟨y, Q₂, hpick, hly, hcy, hmy, hrun, hL₂, hidle, hw₂, hfirst, hq₂⟩ :=
    hL₁.pickNextTask ((hm₁.idle c).trans hi)
    (by rw [hm₁.live]; exact hil) ((hm₁.cpuId i).trans (hbi.cpuId.trans hic)) hic₁ himode
  dsimp only
  rw [hpick]
  dsimp only
  obtain ⟨f, heq, hcur, hfi, ho1, hnr⟩ := st₁.keepOn_or_switchTo c t hidle
  rw [heq]
  have hm₂ : st₁.Moved y ((st₁.dequeueTask c y).setState y .running) :=
    ((Kernel.Moved.refl y _).dequeueTask c).setState _
  have hs₂ : (((st₁.dequeueTask c y).setState y .running).tcb y).state = .running := by
    rw [Kernel.state_setState, if_pos rfl]
  have hL₂ := hL₂.setState .running
  generalize (st₁.dequeueTask c y).setState y .running = st₂ at hm₂ hs₂ hL₂
  have hcur₂ (c' : ℕ) : st₂.current c' = st.current c' := (hm₂.current c').trans (hm₁.current c')
  have hfy : (f (st₂.rq c)).current = some y := by
    refine hcur _ fun he => ?_
    rw [← he]
    exact (hcur₂ c).trans ha.current
  have hsw : st.Switched c t k y (st₂.setRq c f) := .of_moved hm₁ hs₁ hm₂ hs₂ hfy (hfi _)
  have hcy' : (st.tcb y).cpuId = c :=
    ((hm₁.cpuId y).trans (st.alike_setCode t y k).cpuId).symm.trans hcy
  have hly' : st.live y = true := by rwa [← show st₁.live = st.live from hm₁.live]
  -- the code that `y` goes on with
  have hy : Quiet (st₂.tcb y).code ∧
      Typed doom c y (st.tcb y).schedClass (st₂.tcb y).code [.runQueue c] .active := by
    rw [show (st₂.tcb y).code = _ from hsw.code y]
    split
    · rename_i he
      subst he
      exact ⟨hquiet, hk (hgone _ hmy)⟩
    · rename_i hyt
      have hne : st.current (st.tcb y).cpuId ≠ some y := by
        rw [hcy', ha.current]
        exact fun he => hyt (Option.some_injective _ he).symm
      have hsaved := hC.saved hly' (hgone y hmy) hne
      rwa [hcy'] at hsaved
  have hrun' : t ≠ y → (st.tcb y).state = .runnable := by
    intro hty
    rw [← (st.alike_setCode t y k).state, ← hm₁.state y hty.symm]
    refine hrun.resolve_right fun hcur => hty ?_
    rw [hm₁.current] at hcur
    exact Option.some_injective _ (ha.current.symm.trans hcur)
  refine ⟨y, Q₂, hsw, ⟨hly', hcy', hrun'⟩, ⟨hsw.roster h.roster ha.current, fun _ => ?_, ?_, ?_⟩,
    fun w => (hw₂ w).trans (hw₁ w), ⟨i, hi, ?_⟩, fun d p => by rw [hq₂, hq₁]⟩
  · exact hsw.control hC ha.current hheld hcy' hly' (fun hm => ⟨hquiet, hk hm⟩) hy.2
  · refine hL₂.switch (fun x hx => (Option.some_injective _ hx).symm) hfy (ho1 _) (hnr _) ?_
      (pendingIn_of_quiet hy.1) hs₂ ((hm₂.cpuId y).trans hcy) fun x hl hcx hr => ?_
    · have hcode : (st₂.tcb t).code = k := by
        rw [show (st₂.tcb t).code = _ from hsw.code t, if_pos rfl]
      rw [Kernel.pendingAt, Kernel.codeAt_eq ((hcur₂ c).trans ha.current), hcode,
        pendingIn_of_quiet hquiet]
    · -- only the task that ran could be running, and it was put back
      by_contra hxy
      rw [hm₂.state x hxy] at hr
      rw [hm₂.cpuId] at hcx
      have hxc := (hL₁.placed (by simp) (hm₂.live ▸ hl)).running hr
      rw [hcx, hm₁.current] at hxc
      obtain rfl := Option.some_injective _ (ha.current.symm.trans hxc)
      rw [hs₁] at hr
      split at hr
      · cases hr
      · contradiction
  · refine hsw.family h.family ha.current (h.one ha) ?_ hy.1 (hgone y hmy)
    rw [ha.code]
    exact quiet_cons.mpr ⟨rfl, hquiet⟩
  · simpa only [hq₁] using hfirst

end Sound

end Lume.Sched
