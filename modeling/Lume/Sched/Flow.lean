import Lume.Sched.Preservation

/-!
# What an operation leaves to be done

An operation changes data, and may put further operations before the code that is left. The code of
other tasks, the CPUs, the locks and the conditions change in few places.

## Main definitions

* `Kernel.pushes`: the operations that an operation puts first
* `Kernel.Keeps`: what most operations leave alone

## Main results

* `Kernel.code_perform`: the code of all tasks after an operation
* `Kernel.Keeps.perform`, `Kernel.current_perform`: what an operation leaves alone
-/

namespace Lume.Sched

namespace Kernel

variable (st : Kernel) (c : ℕ) (t x : Tid)

/-- The operations that an operation of task `t` on CPU `c` puts before the code that is left. -/
def pushes : Op → List Op
  | .schedule => [.acquire (.runQueue c), .pick, .release (.runQueue c), .returned (st.cpu c).intrOn]
  | .checkPreempt => if (st.rq c).needResched then [.schedule] else []
  | .wakeOne w => match st.run.first (.wait w) with
    | none => []
    | some x => st.enqueueProg x
  | .wakeAll w => match st.run.first (.wait w) with
    | none => []
    | some x => st.enqueueProg x ++ [.wakeAll w]
  | .exit _ => (match st.initTask <|> st.kernelTask with
      | some f =>
        if st.kin.isEmpty t then [] else [.acquire .taskList, .reparent f, .release .taskList]
      | none => []) ++ [.zombie]
  | .zombie => match (st.tcb t).parent with
    | none => [.schedule, .unreachable]
    | some p => if st.live p then wakeAllProg (.chld p) ++ [.schedule, .unreachable] else []
  | .wait => [.acquire .taskList, .scan]
  | .scan =>
    if st.kin.isEmpty t then [.release .taskList]
    else match st.findZombie t with
      | some z => .release .taskList :: destroyProg z
      | none => .release .taskList :: (sleepProg (.chld t) (some .taskList) ++ [.wait])
  | .fork ok => if ok then [.acquire .taskList, .adopt t st.nextTid, .release .taskList,
      .acquire .taskList, .listAdd st.nextTid, .release .taskList,
      .acquire (.runQueue c), .enqueue c st.nextTid, .release (.runQueue c)] else []
  | .kthreadCreate _ ok => if ok then (match st.kernelTask with
      | none => []
      | some p => [.acquire .taskList, .adopt p st.nextTid, .release .taskList]) ++
    [.acquire .taskList, .listAdd st.nextTid, .release .taskList] ++
    [.acquire (.runQueue c), .enqueue c st.nextTid, .release (.runQueue c)] else []
  | .check n => if st.cond n then [.release (.external n)]
    else sleepProg (.cond n) (some (.external n)) ++ [.woken n (st.epoch n)]
  | .raise n all =>
    .release (.external n) :: (wakeProg all (.cond n) ++ [.notified n (st.epoch n + 1)])
  | _ => []

theorem code_push (ops : List Op) : ((st.push t ops).tcb x).code =
    if x = t then ops ++ (st.tcb t).code else (st.tcb x).code := by
  rw [push_eq, code_setCode]

theorem code_setTcb {f : Tcb → Tcb} (hf : ∀ b, (f b).code = b.code) :
    ((st.setTcb t f).tcb x).code = (st.tcb x).code := by
  rw [tcb_setTcb]
  split
  · rename_i he
    rw [hf, he]
  · rfl

variable {x} in
theorem code_perform {op : Op} (hpick : op ≠ .pick) (hre : ∀ f, op ≠ .reparent f)
    (ht : t ≠ st.nextTid) (hx : x ≠ st.nextTid) : ((st.perform c t op).tcb x).code =
      if x = t then st.pushes c t op ++ (st.tcb t).code else (st.tcb x).code := by
  have hself (st' : Kernel) (hcode : (st'.tcb x).code = (st.tcb x).code) :
      (st'.tcb x).code = if x = t then [] ++ (st.tcb t).code else (st.tcb x).code := by
    rw [hcode]
    split
    · rename_i he
      rw [he, List.nil_append]
    · rfl
  have hpush (st' : Kernel) (ops : List Op) (hcode : ∀ y ≠ st.nextTid, (st'.tcb y).code = (st.tcb y).code) :
      ((st'.push t ops).tcb x).code = if x = t then ops ++ (st.tcb t).code else (st.tcb x).code := by
    rw [code_push, hcode t ht, hcode x hx]
  cases op with
  | schedule => exact hpush st _ fun _ _ => rfl
  | pick => exact absurd rfl hpick
  | tick => exact hself _ ((Same.taskTick st c t).code x)
  | yield => exact hself _ ((Same.yieldTask st c t).code x)
  | checkPreempt =>
    simp only [perform, pushes]
    split
    exacts [hpush st _ fun _ _ => rfl, hself _ rfl]
  | link w => exact hself _ (st.code_setState t x _)
  | wakeOne w =>
    change ((st.wakeOne w t).tcb x).code = _
    cases hf : st.run.first (.wait w) with
    | none =>
      simp only [wakeOne, pushes, hf]
      exact hself _ rfl
    | some y =>
      simp only [wakeOne, pushes, hf]
      exact hpush _ _ fun z _ => code_setState _ _ z _
  | wakeAll w =>
    change ((st.wakeAll w t).tcb x).code = _
    cases hf : st.run.first (.wait w) with
    | none =>
      simp only [wakeAll, pushes, hf]
      exact hself _ rfl
    | some y =>
      simp only [wakeAll, pushes, hf]
      exact hpush _ _ fun z _ => code_setState _ _ z _
  | enqueue d y =>
    refine hself _ ?_
    exact ((Moved.refl y st).enqueueTask d).code x
  | exit code => exact hpush _ _ fun y _ => st.code_setTcb t y fun _ => rfl
  | reparent f => exact absurd rfl (hre f)
  | zombie =>
    change ((st.becomeZombie t).tcb x).code = _
    cases hp : (st.tcb t).parent with
    | none =>
      simp only [becomeZombie, pushes, parent_setState, hp]
      exact hpush _ _ fun y _ => st.code_setState t y _
    | some p =>
      simp only [becomeZombie, pushes, parent_setState, hp]
      change ((if st.live p then _ else _ : Kernel).tcb x).code = _
      split
      · exact hpush _ _ fun y _ => st.code_setState t y _
      · exact hself (st.setState t .zombie) (st.code_setState t x _)
  | wait => exact hpush st _ fun _ _ => rfl
  | scan =>
    change ((st.scan t).tcb x).code = _
    cases hz : st.findZombie t with
    | none =>
      simp only [scan, pushes, hz]
      split
      exacts [hpush st _ fun _ _ => rfl, hpush st _ fun _ _ => rfl]
    | some z =>
      simp only [scan, pushes, hz]
      split
      exacts [hpush st _ fun _ _ => rfl, hpush st _ fun _ _ => rfl]
  | fork ok =>
    cases ok with
    | false => exact hself _ rfl
    | true =>
      refine (hpush _ _ fun y hy => congrArg Tcb.code (st.tcb_spawn_of_ne _ hy c _ _)).trans ?_
      unfold enqueueProg
      rw [tcb_spawn_self]
      rfl
  | kthreadCreate p ok =>
    cases ok with
    | false => exact hself _ rfl
    | true =>
      refine (hpush _ _ fun y hy => congrArg Tcb.code (st.tcb_spawn_of_ne _ hy c _ _)).trans ?_
      unfold enqueueProg
      rw [tcb_spawn_self]
      rfl
  | adopt p y => exact hself _ (Family.code_adopt st p y x)
  | check n =>
    change ((st.check n t).tcb x).code = _
    simp only [check, pushes]
    split
    exacts [hpush st _ fun _ _ => rfl, hpush st _ fun _ _ => rfl]
  | raise n all => exact hpush _ _ fun _ _ => rfl
  | acquire l =>
    refine hself _ ?_
    change ((st.acquire c l).tcb x).code = _
    unfold acquire
    dsimp only
    split <;> rfl
  | release l =>
    refine hself _ ?_
    change ((st.release c l).tcb x).code = _
    unfold release
    split <;> rfl
  | unreachable | returned | listRemove | listAdd | reclaim | intrOn | iret | userret | reset | woken
  | notified => exact hself _ rfl

end Kernel

/-! ## What operations leave alone -/

/-- The population, the process tree, the CPUs, the locks and the counts of conditions are as
before, and only `task_exit` makes a zombie. -/
structure Kernel.Keeps (st st' : Kernel) : Prop where
  live : st'.live = st.live
  nextTid : st'.nextTid = st.nextTid
  halted : st'.halted = st.halted
  parent : ∀ x, (st'.tcb x).parent = (st.tcb x).parent
  schedClass : ∀ x, (st'.tcb x).schedClass = (st.tcb x).schedClass
  cpuId : ∀ x, (st'.tcb x).cpuId = (st.tcb x).cpuId
  priority : ∀ x, (st'.tcb x).priority = (st.tcb x).priority
  gone : ∀ x, modeOf (st'.tcb x).state = .gone →
    modeOf (st.tcb x).state = .gone ∨ (st.tcb x).code = [.zombie]
  cpu : st'.cpu = st.cpu
  owner : st'.owner = st.owner
  epoch : st'.epoch = st.epoch

/-- Operations that create or reclaim a task, change a parent, may stop the machine, or change a
lock, an interrupt flag or the count of a condition. -/
def Op.drastic : Op → Bool
  | .fork _ | .kthreadCreate _ _ | .reclaim _ | .adopt _ _ | .reparent _ | .acquire _ | .release _
  | .zombie | .unreachable | .intrOn | .iret | .userret | .raise _ _ => true
  | _ => false

namespace Kernel.Keeps

variable {st st' : Kernel}

theorem refl (st : Kernel) : st.Keeps st :=
  ⟨rfl, rfl, rfl, fun _ => rfl, fun _ => rfl, fun _ => rfl, fun _ => rfl, fun _ => .inl, rfl, rfl, rfl⟩

theorem setTcb (h : st.Keeps st') {t : Tid} {f : Tcb → Tcb}
    (hf : ∀ b, (f b).parent = b.parent ∧ b.Alike (f b)) : st.Keeps (st'.setTcb t f) := by
  have hb (x : Tid) : ((st'.setTcb t f).tcb x).parent = (st'.tcb x).parent ∧
      (st'.tcb x).Alike ((st'.setTcb t f).tcb x) := by
    rw [tcb_setTcb]
    split
    · rename_i he
      rw [he]
      exact hf _
    · exact ⟨rfl, .refl _⟩
  refine ⟨h.live, h.nextTid, h.halted, fun x => (hb x).1.trans (h.parent x),
    fun x => (hb x).2.schedClass.trans (h.schedClass x), fun x => (hb x).2.cpuId.trans (h.cpuId x),
    fun x => (hb x).2.priority.trans (h.priority x), fun x hx => ?_, h.cpu, h.owner, h.epoch⟩
  rw [(hb x).2.state] at hx
  exact h.gone x hx

theorem setCode (st : Kernel) (t : Tid) (k : List Op) : st.Keeps (st.setCode t k) :=
  (refl st).setTcb fun _ => ⟨rfl, rfl, rfl, rfl, rfl⟩

section

variable (h : st.Keeps st')
include h

theorem setState (t : Tid) (s : TaskState)
    (hs : modeOf s = .gone → (st.tcb t).code = [.zombie]) : st.Keeps (st'.setState t s) := by
  refine ⟨h.live, h.nextTid, h.halted, fun x => ?_, fun x => ?_, fun x => ?_, fun x => ?_,
    fun x hx => ?_, h.cpu, h.owner, h.epoch⟩
  · rw [parent_setState, h.parent]
  · rw [schedClass_setState, h.schedClass]
  · rw [cpuId_setState, h.cpuId]
  · rw [priority_setState, h.priority]
  · rw [state_setState] at hx
    split at hx
    · rename_i he
      exact .inr (he ▸ hs hx)
    · exact h.gone x hx

theorem push (t : Tid) (ops : List Op) : st.Keeps (st'.push t ops) :=
  h.setTcb fun _ => ⟨rfl, rfl, rfl, rfl, rfl⟩

theorem setRq (c : ℕ) (f : RunQueue → RunQueue) : st.Keeps (st'.setRq c f) :=
  ⟨h.live, h.nextTid, h.halted, h.parent, h.schedClass, h.cpuId, h.priority, h.gone, h.cpu, h.owner, h.epoch⟩

theorem setRun (run : Links RunHead Tid) : st.Keeps { st' with run := run } :=
  ⟨h.live, h.nextTid, h.halted, h.parent, h.schedClass, h.cpuId, h.priority, h.gone, h.cpu, h.owner, h.epoch⟩

theorem o1Enqueue (c : ℕ) (x : Tid) : st.Keeps (st'.o1Enqueue c x) :=
  ((h.setRun _).setRq c _).setState x .runnable nofun

theorem o1Dequeue (c : ℕ) (x : Tid) : st.Keeps (st'.o1Dequeue c x) :=
  ⟨h.live, h.nextTid, h.halted, h.parent, h.schedClass, h.cpuId, h.priority, h.gone, h.cpu, h.owner, h.epoch⟩

theorem enqueueTask (c : ℕ) (x : Tid) : st.Keeps (st'.enqueueTask c x) := by
  unfold Kernel.enqueueTask
  split
  exacts [h.o1Enqueue c x, h]

theorem dequeueTask (c : ℕ) (x : Tid) : st.Keeps (st'.dequeueTask c x) := by
  unfold Kernel.dequeueTask
  split
  exacts [h.o1Dequeue c x, h]

theorem putBack (c : ℕ) (x : Tid) : st.Keeps (st'.putBack c x) := by
  unfold Kernel.putBack
  split
  exacts [(h.setState x .runnable nofun).enqueueTask c x, h]

theorem switchTo (c : ℕ) (x : Tid) : st.Keeps (st'.switchTo c x) := by
  unfold Kernel.switchTo
  dsimp only
  split
  · exact ((h.dequeueTask c x).setState x .running nofun).setRq c _
  · exact (h.setState x .running nofun).setRq c _

theorem pick (c : ℕ) (t : Tid) : st.Keeps (st'.pick c t) := by
  unfold Kernel.pick
  dsimp only
  split
  · exact h.putBack c t
  · split
    · exact (((h.putBack c t).setState _ .running nofun).dequeueTask c _).setRq c _
    · exact (h.putBack c t).switchTo c _

theorem takeWaiter (x : Tid) : st.Keeps (st'.takeWaiter x) :=
  (h.setRun _).setState x .runnable nofun

theorem taskTick (c : ℕ) (t : Tid) : st.Keeps (st'.taskTick c t) := by
  unfold Kernel.taskTick
  split
  · exact h
  · split
    · exact h
    · dsimp only
      split
      · refine setRq (setTcb h ?_) c _
        exact fun _ => ⟨rfl, rfl, rfl, rfl, rfl⟩
      · exact h.setTcb fun _ => ⟨rfl, rfl, rfl, rfl, rfl⟩

theorem yieldTask (c : ℕ) (t : Tid) : st.Keeps (st'.yieldTask c t) := by
  unfold Kernel.yieldTask
  split
  · exact h
  · dsimp only
    split
    · exact h.setRq c _
    · refine setRq (setTcb h ?_) c _
      exact fun _ => ⟨rfl, rfl, rfl, rfl, rfl⟩

theorem perform (c : ℕ) (t : Tid) {op : Op} (hop : op.drastic = false) :
    st.Keeps (st'.perform c t op) := by
  cases op with
  | schedule => exact h.push t _
  | pick => exact h.pick c t
  | tick => exact h.taskTick c t
  | yield => exact h.yieldTask c t
  | checkPreempt =>
    change st.Keeps (if (st'.rq c).needResched then st'.push t [.schedule] else st')
    split
    exacts [h.push t _, h]
  | link w => exact (h.setState t .sleeping nofun).setRun _
  | wakeOne w =>
    change st.Keeps (st'.wakeOne w t)
    unfold Kernel.wakeOne
    split
    exacts [h, (h.takeWaiter _).push t _]
  | wakeAll w =>
    change st.Keeps (st'.wakeAll w t)
    unfold Kernel.wakeAll
    split
    exacts [h, (h.takeWaiter _).push t _]
  | enqueue d x => exact h.enqueueTask d x
  | exit code =>
    refine push (setTcb h ?_) t _
    exact fun _ => ⟨rfl, rfl, rfl, rfl, rfl⟩
  | wait => exact h.push t _
  | scan =>
    change st.Keeps (st'.scan t)
    unfold Kernel.scan
    split
    · exact h.push t _
    · split
      exacts [h.push t _, h.push t _]
  | check n =>
    change st.Keeps (st'.check n t)
    unfold Kernel.check
    split
    exacts [h.push t _, h.push t _]
  | fork | kthreadCreate | reclaim | adopt | reparent | acquire | release | zombie | unreachable
  | intrOn | iret | userret | raise => cases hop
  | returned | listRemove | listAdd | reset | woken | notified =>
    exact ⟨h.live, h.nextTid, h.halted, h.parent, h.schedClass, h.cpuId, h.priority, h.gone, h.cpu, h.owner, h.epoch⟩

end

end Kernel.Keeps

theorem Kernel.current_perform (st : Kernel) (c : ℕ) (t : Tid) {op : Op} (hpick : op ≠ .pick)
    (hre : ∀ f, op ≠ .reparent f) (c' : ℕ) : (st.perform c t op).current c' = st.current c' := by
  cases op with
  | pick => exact absurd rfl hpick
  | reparent f => exact absurd rfl (hre f)
  | tick => exact (Same.taskTick st c t).current c'
  | yield => exact (Same.yieldTask st c t).current c'
  | enqueue d x => exact ((Moved.refl x st).enqueueTask d).current c'
  | acquire l =>
    change (st.acquire c l).current c' = _
    unfold acquire
    dsimp only
    split <;> rfl
  | release l =>
    change (st.release c l).current c' = _
    unfold release
    split <;> rfl
  | checkPreempt =>
    change (if (st.rq c).needResched then st.push t [.schedule] else st).current c' = _
    split <;> rfl
  | wakeOne w =>
    change (st.wakeOne w t).current c' = _
    unfold wakeOne
    split <;> rfl
  | wakeAll w =>
    change (st.wakeAll w t).current c' = _
    unfold wakeAll
    split <;> rfl
  | zombie =>
    change (st.becomeZombie t).current c' = _
    unfold becomeZombie
    dsimp only
    split
    · rfl
    · split <;> rfl
  | scan =>
    change (st.scan t).current c' = _
    unfold scan
    split
    · rfl
    · split <;> rfl
  | check n =>
    change (st.check n t).current c' = _
    unfold check
    split <;> rfl
  | fork ok => cases ok <;> rfl
  | kthreadCreate p ok => cases ok <;> rfl
  | _ => rfl

end Lume.Sched
