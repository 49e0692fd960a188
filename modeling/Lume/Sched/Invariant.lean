import Lume.Sched.Family

/-!
# The invariant of the scheduler

Every step of every CPU keeps the code of all tasks typed, the lists in line with the states of
the tasks, and the process tree. Most operations only go on with the code of the current task;
the others are treated one by one.

## Main definitions

* `Sound doom st held Q K`: the invariant
* `Kernel.Same`, `Kernel.Moved`: two states differ little

## Main results

* `Sound.go`: the current task goes on with its code
* `Sound.move`: it goes on, and the lists and the state of one task change
-/

namespace Lume.Sched

/-- The invariant: the locks `held`, the lists `Q` and the children `K`. -/
structure Sound (doom : Prop) (st : Kernel) (held : ℕ → List Spinlock) (Q : RunHead → List Tid)
    (K : Tid → List Tid) : Prop where
  roster : Roster st
  control : st.halted = none → Control doom st held
  lists : Lists st Q none
  family : Family st K

/-- Two states differ in what the invariant does not depend on. -/
structure Kernel.Same (st st' : Kernel) : Prop where
  live : st'.live = st.live
  nextTid : st'.nextTid = st.nextTid
  run : st'.run = st.run
  kin : st'.kin = st.kin
  cpu : st'.cpu = st.cpu
  owner : st'.owner = st.owner
  kernelTask : st'.kernelTask = st.kernelTask
  initTask : st'.initTask = st.initTask
  halted : st'.halted = st.halted
  tcb : ∀ t, (st.tcb t).Alike (st'.tcb t)
  code : ∀ t, (st'.tcb t).code = (st.tcb t).code
  parent : ∀ t, (st'.tcb t).parent = (st.tcb t).parent
  current : ∀ c, st'.current c = st.current c
  idle : ∀ c, (st'.rq c).idle = (st.rq c).idle
  o1 : ∀ c, (st'.rq c).o1 = (st.rq c).o1
  nrRunning : ∀ c, (st'.rq c).nrRunning = (st.rq c).nrRunning

namespace Kernel.Same

variable {st st' : Kernel}

theorem setTcb (h : st.Same st') {t : Tid} {f : Tcb → Tcb}
    (hf : ∀ b, b.Alike (f b) ∧ (f b).code = b.code ∧ (f b).parent = b.parent) :
    st.Same (st'.setTcb t f) := by
  refine ⟨h.live, h.nextTid, h.run, h.kin, h.cpu, h.owner, h.kernelTask, h.initTask, h.halted,
    fun x => (h.tcb x).trans (st'.alike_setTcb t x f (hf _).1), fun x => ?_, fun x => ?_, h.current,
    h.idle, h.o1, h.nrRunning⟩
  all_goals rw [tcb_setTcb]
  all_goals split
  · rename_i he
    rw [(hf _).2.1, he, h.code]
  · exact h.code x
  · rename_i he
    rw [(hf _).2.2, he, h.parent]
  · exact h.parent x

theorem setResched (h : st.Same st') (c : ℕ) (b : Bool) :
    st.Same (st'.setRq c fun rq => { rq with needResched := b }) := by
  have hrq (c' : ℕ) :
      (st'.setRq c fun rq => { rq with needResched := b }).rq c' = st'.rq c' ∨
      (st'.setRq c fun rq => { rq with needResched := b }).rq c' =
        { st'.rq c' with needResched := b } := by
    change Function.update st'.rq c _ c' = _ ∨ Function.update st'.rq c _ c' = _
    rw [Function.update_apply]
    split
    · rename_i he
      rw [he]
      exact .inr rfl
    · exact .inl rfl
  refine ⟨h.live, h.nextTid, h.run, h.kin, h.cpu, h.owner, h.kernelTask, h.initTask, h.halted, h.tcb,
    h.code, h.parent, fun c' => ?_, fun c' => ?_, fun c' => ?_, fun c' => ?_⟩
  · refine Eq.trans ?_ (h.current c')
    unfold Kernel.current
    rcases hrq c' with he | he <;> rw [he]
  · refine Eq.trans ?_ (h.idle c')
    rcases hrq c' with he | he <;> rw [he]
  · refine Eq.trans ?_ (h.o1 c')
    rcases hrq c' with he | he <;> rw [he]
  · refine Eq.trans ?_ (h.nrRunning c')
    rcases hrq c' with he | he <;> rw [he]

theorem refl (st : Kernel) : st.Same st :=
  ⟨rfl, rfl, rfl, rfl, rfl, rfl, rfl, rfl, rfl, fun _ => .refl _, fun _ => rfl, fun _ => rfl,
    fun _ => rfl, fun _ => rfl, fun _ => rfl, fun _ => rfl⟩

theorem taskTick (st : Kernel) (c : ℕ) (t : Tid) : st.Same (st.taskTick c t) := by
  unfold Kernel.taskTick
  split
  · exact refl st
  · split
    · exact refl st
    · dsimp only
      split
      · refine setResched (setTcb (refl st) ?_) c true
        exact fun b => ⟨⟨rfl, rfl, rfl, rfl⟩, rfl, rfl⟩
      · exact (refl st).setTcb fun b => ⟨⟨rfl, rfl, rfl, rfl⟩, rfl, rfl⟩

theorem yieldTask (st : Kernel) (c : ℕ) (t : Tid) : st.Same (st.yieldTask c t) := by
  unfold Kernel.yieldTask
  split
  · exact refl st
  · dsimp only
    split
    · exact (refl st).setResched c true
    · refine setResched (setTcb (refl st) ?_) c true
      exact fun b => ⟨⟨rfl, rfl, rfl, rfl⟩, rfl, rfl⟩

end Kernel.Same

/-- CPU `c` runs task `t`, which is about to perform `op`. -/
structure Kernel.At (st : Kernel) (c : ℕ) (t : Tid) (op : Op) (k : List Op) : Prop where
  halted : st.halted = none
  current : st.current c = some t
  code : (st.tcb t).code = op :: k

/-- Code `k` enqueues the same tasks as `k₀`, and does no more other work on tasks. -/
structure NoNewWork (k k₀ : List Op) : Prop where
  pending : pendingIn k = pendingIn k₀
  adopt : (adoptIn k).Sublist (adoptIn k₀)
  reclaim : (reclaimIn k).Sublist (reclaimIn k₀)

theorem NoNewWork.of_quiet {op : Op} {p k : List Op} (hop : op.transient = false) (hp : Quiet p) :
    NoNewWork (p ++ k) (op :: k) := by
  have hq : Quiet [op] := by simp [hop]
  have happ (q : List Op) (hq : Quiet q) : pendingIn (q ++ k) = pendingIn k ∧
      adoptIn (q ++ k) = adoptIn k ∧ reclaimIn (q ++ k) = reclaimIn k := by
    simp [pendingIn_of_quiet hq, adoptIn_of_quiet hq, reclaimIn_of_quiet hq]
  obtain ⟨h₁, h₂, h₃⟩ := happ p hp
  obtain ⟨h₁', h₂', h₃'⟩ := happ [op] hq
  rw [List.singleton_append] at h₁' h₂' h₃'
  refine ⟨h₁.trans h₁'.symm, ?_, ?_⟩
  · rw [h₂, h₂']
  · rw [h₃, h₃']

/-- The lists and the state of task `x` change, and nothing else. -/
structure Kernel.Moved (x : Tid) (st st' : Kernel) : Prop where
  live : st'.live = st.live
  nextTid : st'.nextTid = st.nextTid
  kin : st'.kin = st.kin
  cpu : st'.cpu = st.cpu
  owner : st'.owner = st.owner
  kernelTask : st'.kernelTask = st.kernelTask
  initTask : st'.initTask = st.initTask
  tcb : ∀ t, st'.tcb t = { st.tcb t with state := (st'.tcb t).state }
  state : ∀ t ≠ x, (st'.tcb t).state = (st.tcb t).state
  current : ∀ c, st'.current c = st.current c
  idle : ∀ c, (st'.rq c).idle = (st.rq c).idle

namespace Kernel.Moved

variable {x : Tid} {st st' st'' : Kernel}

section

variable (h : Moved x st st')
include h

theorem code (t : Tid) : (st'.tcb t).code = (st.tcb t).code := by rw [h.tcb]

theorem cpuId (t : Tid) : (st'.tcb t).cpuId = (st.tcb t).cpuId := by rw [h.tcb]

theorem parent (t : Tid) : (st'.tcb t).parent = (st.tcb t).parent := by
  rw [h.tcb]

theorem priority (t : Tid) : (st'.tcb t).priority = (st.tcb t).priority := by
  rw [h.tcb]

theorem schedClass (t : Tid) : (st'.tcb t).schedClass = (st.tcb t).schedClass := by
  rw [h.tcb]

end

theorem refl (x : Tid) (st : Kernel) : Moved x st st :=
  ⟨rfl, rfl, rfl, rfl, rfl, rfl, rfl, fun _ => rfl, fun _ _ => rfl, fun _ => rfl, fun _ => rfl⟩

section

variable (h : Moved x st st')
include h

theorem setState (s : TaskState) : Moved x st (st'.setState x s) := by
  refine ⟨h.live, h.nextTid, h.kin, h.cpu, h.owner, h.kernelTask, h.initTask, fun t => ?_,
    fun t ht => ?_, h.current, h.idle⟩
  · rw [Kernel.setState, tcb_setTcb]
    split
    · rename_i he
      subst he
      dsimp only
      rw [h.tcb]
    · exact h.tcb t
  · rw [Kernel.setState, tcb_setTcb_of_ne _ _ ht]
    exact h.state t ht

theorem setRun (run : Links RunHead Tid) : Moved x st { st' with run := run } :=
  ⟨h.live, h.nextTid, h.kin, h.cpu, h.owner, h.kernelTask, h.initTask, h.tcb, h.state,
    h.current, h.idle⟩

theorem setRq {c : ℕ} {f : RunQueue → RunQueue}
    (hcur : (f (st'.rq c)).current = st'.current c) (hidle : (f (st'.rq c)).idle = (st'.rq c).idle) :
    Moved x st (st'.setRq c f) := by
  refine ⟨h.live, h.nextTid, h.kin, h.cpu, h.owner, h.kernelTask, h.initTask, h.tcb, h.state,
    fun c' => ?_, fun c' => ?_⟩
  · exact (st'.current_setRq hcur c').trans (h.current c')
  · refine Eq.trans ?_ (h.idle c')
    change (Function.update st'.rq c (f (st'.rq c)) c').idle = _
    rw [Function.update_apply]
    split
    · rename_i he
      rw [he, hidle]
    · rfl

theorem o1Enqueue (c : ℕ) : Moved x st (st'.o1Enqueue c x) :=
  ((h.setRun _).setRq rfl rfl).setState _

theorem o1Dequeue (c : ℕ) : Moved x st (st'.o1Dequeue c x) := by
  unfold Kernel.o1Dequeue
  exact (h.setRun _).setRq rfl rfl

theorem enqueueTask (c : ℕ) : Moved x st (st'.enqueueTask c x) := by
  rw [Kernel.enqueueTask]
  split
  exacts [h.o1Enqueue c, h]

theorem dequeueTask (c : ℕ) : Moved x st (st'.dequeueTask c x) := by
  rw [Kernel.dequeueTask]
  split
  exacts [h.o1Dequeue c, h]

theorem putBack (c : ℕ) : Moved x st (st'.putBack c x) := by
  rw [Kernel.putBack]
  split
  exacts [(h.setState _).enqueueTask c, h]

theorem linkWaiter (w : WaitQueue) : Moved x st (st'.linkWaiter w x) :=
  (h.setState _).setRun _

theorem halt (e : Halt) : Moved x st (st'.halt e) :=
  ⟨h.live, h.nextTid, h.kin, h.cpu, h.owner, h.kernelTask, h.initTask, h.tcb, h.state, h.current, h.idle⟩

theorem takeWaiter : Moved x st (st'.takeWaiter x) := (h.setRun _).setState _

end

end Kernel.Moved

theorem Counters.congr {rq rq' : ℕ → RunQueue} {Q : RunHead → List Tid} (h : Counters rq Q)
    (ho1 : ∀ c, (rq' c).o1 = (rq c).o1) (hnr : ∀ c, (rq' c).nrRunning = (rq c).nrRunning) :
    Counters rq' Q := by
  refine ⟨?_, ?_, ?_⟩
  all_goals simp only [ho1, hnr]
  exacts [h.bitmap, h.o1Running, h.nrRunning]

namespace Sound

variable {doom : Prop} {st st' : Kernel} {held : ℕ → List Spinlock} {Q : RunHead → List Tid}
  {K : Tid → List Tid} {c : ℕ} {t x : Tid} {op : Op} {k k' : List Op}

theorem same (h : Sound doom st held Q K) (hs : st.Same st') : Sound doom st' held Q K := by
  have hcode (c : ℕ) : st'.codeAt c = st.codeAt c :=
    Kernel.codeAt_congr (hs.current c) fun t _ => hs.code t
  refine ⟨?_, fun hh => ?_, ?_, ?_⟩
  · exact h.roster.congr hs.live hs.nextTid (fun c => by rw [hs.current]) hs.idle
      (fun t => (hs.tcb t).cpuId) (fun t => (hs.tcb t).priority) (fun t => (hs.tcb t).schedClass)
      (fun t _ ht => (hs.tcb t).state ▸ ht) hs.kernelTask hs.initTask
  · exact (h.control (hs.halted ▸ hh)).congr hs.current hs.live hs.tcb hs.code hs.owner hs.cpu
  · refine h.lists.congr ⟨hs.live, hs.nextTid, hs.current, fun c => ?_⟩ hs.run hs.tcb
      (h.lists.counters.congr hs.o1 hs.nrRunning)
    rw [Kernel.pendingAt, hcode, Kernel.pendingAt]
  · refine h.family.congr hs.kin hs.live hs.nextTid (fun t => (hs.tcb t).cpuId) hs.parent
      (fun t ht => (hs.tcb t).state.trans ht) (fun c => ?_) (fun c => ?_) fun c _ => hs.current c
    · rw [Kernel.adoptAt, hcode, Kernel.adoptAt]
    · rw [Kernel.reclaimAt, hcode, Kernel.reclaimAt]

theorem of_setCode (hR : Roster st) (hC : st.halted = none → Control doom st held)
    (hc : st.current c = some t) (hk : st.halted = none →
      Typed doom c t (st.tcb t).schedClass k (held c) (modeOf (st.tcb t).state))
    (hL : Lists (st.setCode t k) Q none) (hF : Family (st.setCode t k) K) :
    Sound doom (st.setCode t k) held Q K := by
  have hb (x : Tid) := st.alike_setCode t x k
  refine ⟨?_, fun hh => ?_, hL, hF⟩
  · exact hR.congr rfl rfl (fun _ => Iff.rfl) (fun _ => rfl) (fun x => (hb x).cpuId)
      (fun x => (hb x).priority) (fun x => (hb x).schedClass)
      (fun x _ hx => (hb x).state ▸ hx) rfl rfl
  · have hC := hC hh
    refine hC.advance hc (fun _ => rfl) rfl (fun x => (hb x).cpuId) (fun x => (hb x).schedClass)
      (fun x hx => ⟨?_, ?_⟩) ?_ rfl (fun _ => rfl) (fun _ _ => rfl) (hC.intr c)
    · rw [st.code_setCode, if_neg hx]
    · rw [(hb x).state]
    · rw [st.code_setCode, if_pos rfl, (hb t).state]
      exact hk hh

section

variable (h : Sound doom st held Q K)
include h

theorem go (hc : st.current c = some t) (hone : ∀ c', st.current c' = some t → c' = c)
    (hk : st.halted = none →
      Typed doom c t (st.tcb t).schedClass k (held c) (modeOf (st.tcb t).state))
    (hwork : NoNewWork k (st.tcb t).code) : Sound doom (st.setCode t k) held Q K :=
  of_setCode h.roster h.control hc hk (h.lists.setCode hc hone hwork.pending)
    (h.family.setCode hc hone hwork.adopt hwork.reclaim)

theorem goOn (ha : st.At c t op k) {p : List Op} (hop : op.transient = false) (hp : Quiet p)
    (hk : Typed doom c t (st.tcb t).schedClass (p ++ k) (held c) (modeOf (st.tcb t).state)) :
    Sound doom (st.setCode t (p ++ k)) held Q K := by
  refine h.go ha.current (fun _ => (h.control ha.halted).unique ha.current) (fun _ => hk) ?_
  rw [ha.code]
  exact .of_quiet hop hp

theorem relock (hc : st.current c = some t)
    (hone : ∀ c', st.current c' = some t → c' = c) (hwork : NoNewWork k (st.tcb t).code)
    {cpu' : ℕ → CpuSync} {owner' : Spinlock → Option ℕ} {halted' : Option Halt}
    {held' : ℕ → List Spinlock} (hC : halted' = none → Control doom
      { st.setCode t k with cpu := cpu', owner := owner', halted := halted' } held') :
    Sound doom { st.setCode t k with cpu := cpu', owner := owner', halted := halted' } held' Q K := by
  have hb (x : Tid) := st.alike_setCode t x k
  have hL := h.lists.setCode hc hone hwork.pending
  have hF := h.family.setCode hc hone hwork.adopt hwork.reclaim
  refine ⟨?_, hC, ?_, ?_⟩
  · exact h.roster.congr rfl rfl (fun _ => Iff.rfl) (fun _ => rfl) (fun x => (hb x).cpuId)
      (fun x => (hb x).priority) (fun x => (hb x).schedClass)
      (fun x _ hx => (hb x).state ▸ hx) rfl rfl
  · exact ⟨hL.rings, hL.member, fun ho hl => ⟨(hL.placed ho hl).1, (hL.placed ho hl).2, (hL.placed ho hl).3⟩,
      hL.pending, hL.nodup, hL.disjoint, hL.fresh, by simp, hL.counters⟩
  · exact ⟨hF.rings, hF.child, hF.parent, hF.fresh, hF.adopting, hF.adopt_nodup, hF.adopt_disjoint,
      hF.reclaiming, hF.reclaim_nodup⟩

theorem move (ha : st.At c t op k)
    (hm : (st.setCode t k').Moved x st') {Q' : RunHead → List Tid} (hlists : Lists st' Q' none)
    (hadopt : (adoptIn k').Sublist (adoptIn (op :: k)))
    (hreclaim : (reclaimIn k').Sublist (reclaimIn (op :: k))) (hk : st'.halted = none →
      Typed doom c t (st.tcb t).schedClass k' (held c) (modeOf (st'.tcb t).state))
    (hmode : x ≠ t → modeOf (st'.tcb x).state = modeOf (st.tcb x).state)
    (hzombie : (st.tcb x).state ≠ .zombie)
    (hidle : (st.tcb x).schedClass = .idle → modeOf (st'.tcb x).state ≠ .gone) :
    Sound doom st' held Q' K := by
  have hC := h.control ha.halted
  have hone (c' : ℕ) (hc' : st.current c' = some t) : c' = c := hC.unique ha.current hc'
  have hb (y : Tid) := st.alike_setCode t y k'
  have hstate {y : Tid} (hy : y ≠ x) : (st'.tcb y).state = (st.tcb y).state :=
    (hm.state y hy).trans (hb y).state
  have hcode (c' : ℕ) : st'.codeAt c' = (st.setCode t k').codeAt c' :=
    Kernel.codeAt_congr (hm.current c') fun y _ => hm.code y
  rw [← ha.code] at hadopt hreclaim
  refine ⟨?_, fun hh => ?_, hlists, ?_⟩
  · refine h.roster.congr hm.live hm.nextTid (fun c' => by rw [hm.current]; rfl) hm.idle
      (fun y => (hm.cpuId y).trans (hb y).cpuId) (fun y => (hm.priority y).trans (hb y).priority)
      (fun y => (hm.schedClass y).trans (hb y).schedClass) (fun y hy hmd => ?_) hm.kernelTask
      hm.initTask
    rcases eq_or_ne y x with rfl | hyx
    · exact hidle hy
    · rwa [hstate hyx]
  · refine hC.advance ha.current hm.current hm.live
      (fun y => (hm.cpuId y).trans (hb y).cpuId) (fun y => (hm.schedClass y).trans (hb y).schedClass)
      (fun y hy => ⟨?_, ?_⟩) ?_ hm.owner (fun c' => by rw [hm.cpu]; rfl) (fun c' _ => by rw [hm.cpu]; rfl)
      (fun hne => by rw [hm.cpu]; exact hC.intr c hne)
    · rw [hm.code, st.code_setCode, if_neg hy]
    · rcases eq_or_ne y x with rfl | hyx
      · exact hmode hy
      · rw [hstate hyx]
    · rw [hm.code, st.code_setCode, if_pos rfl]
      exact hk hh
  · refine (h.family.setCode ha.current hone hadopt hreclaim).congr hm.kin hm.live hm.nextTid hm.cpuId
      hm.parent (fun y hy => ?_) (fun c' => ?_) (fun c' => ?_) fun c' _ => hm.current c'
    · rw [(hb y).state] at hy
      have hyx : y ≠ x := by
        rintro rfl
        exact hzombie hy
      rw [hstate hyx, hy]
    · rw [Kernel.adoptAt, hcode, Kernel.adoptAt]
    · rw [Kernel.reclaimAt, hcode, Kernel.reclaimAt]

end

end Sound

end Lume.Sched
