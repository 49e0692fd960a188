import Lume.Sched.Lifecycle

/-!
# Every step keeps the invariant

## Main definitions

* `Kernel.Taken`: what a step can be
* `Kernel.ScanOk`: `task_wait` does not have to sleep

## Main results

* `Sound.step`: every step keeps the invariant
* `sound_of_run`: it holds in every state reached from boot
-/

namespace Lume.Sched

/-! ## Steps -/

/-- What an operation of task `t` does to the wait queue `w`. -/
def Op.onWait (t : Tid) (w : WaitQueue) (q : List Tid) : Op → List Tid
  | .link w' => if w' = w then q ++ [t] else q
  | .wakeOne w' | .wakeAll w' => if w' = w then q.tail else q
  | _ => q

/-- The task that an operation of task `t` puts on a run queue. -/
def Kernel.enqueuedBy (st : Kernel) (t : Tid) : Op → Option Tid
  | .enqueue _ x => some x
  | .pick => st.putsBack t
  | _ => none

/-- The task that CPU `c` has been given by an operation. -/
def Kernel.pickedBy (st' : Kernel) (c : ℕ) : Op → Option Tid
  | .pick => st'.current c
  | _ => none

/-- What an operation of task `t` of CPU `c` does to the lists. -/
structure Kernel.Relists (st st' : Kernel) (c : ℕ) (t : Tid) (op : Op) (Q Q' : RunHead → List Tid) :
    Prop where
  wait : ∀ w, Q' (.wait w) = op.onWait t w (Q (.wait w))
  queue : ∀ d p, Q' (.queue d p) =
    (st.joined Q (st.enqueuedBy t op) d p).diff (st'.pickedBy c op).toList

/-- The operations on run queues and wait queues. -/
def Op.onLists : Op → Bool
  | .link _ | .wakeOne _ | .wakeAll _ | .enqueue .. | .pick => true
  | _ => false

theorem Kernel.Relists.same {st st' : Kernel} {c : ℕ} {t : Tid} {op : Op} {Q : RunHead → List Tid}
    (hop : op.onLists = false) : st.Relists st' c t op Q Q := by
  have hkept : (∀ w q, op.onWait t w q = q) ∧ st.enqueuedBy t op = none ∧ st'.pickedBy c op = none := by
    cases op with
    | link | wakeOne | wakeAll | enqueue | pick => cases hop
    | _ => exact ⟨fun _ _ => rfl, rfl, rfl⟩
  obtain ⟨hw, he, hp⟩ := hkept
  refine ⟨fun w => (hw w _).symm, fun d p => ?_⟩
  rw [he, hp, joined_none]
  rfl

theorem Kernel.Relists.onWait {st st' : Kernel} {c : ℕ} {t : Tid} {op : Op} {Q : RunHead → List Tid}
    {w : WaitQueue} {f : List Tid → List Tid}
    (hw : ∀ w' q, op.onWait t w' q = if w = w' then f q else q) (he : st.enqueuedBy t op = none)
    (hp : st'.pickedBy c op = none) :
    st.Relists st' c t op Q (Function.update Q (.wait w) (f (Q (.wait w)))) := by
  refine ⟨fun w' => ?_, fun d p => ?_⟩
  · rw [hw]
    rcases eq_or_ne w w' with rfl | hne
    · simp
    · rw [Function.update_of_ne (by simpa using hne.symm), if_neg hne]
  · rw [he, hp, joined_none, Function.update_of_ne (by simp)]
    rfl

namespace Sound

variable {doom : Prop} {st st' : Kernel} {held : ℕ → List Spinlock} {Q : RunHead → List Tid}
  {K : Tid → List Tid} {c : ℕ} {t x : Tid} {op : Op} {k k' : List Op}

theorem wakeFirst {w : WaitQueue} (h : Sound doom st held Q K) (ha : st.At c t op k)
    (hop : op.transient = false) (hheld : held c = [.waitQueue w]) {r : List Op} (hr : Quiet r)
    (hk : Typed doom c t (st.tcb t).schedClass k (held c) (modeOf (st.tcb t).state))
    (hrk : Typed doom c t (st.tcb t).schedClass (r ++ k) (held c) (modeOf (st.tcb t).state)) :
    Sound doom (match (st.setCode t k).run.first (.wait w) with
      | none => st.setCode t k
      | some x => ((st.setCode t k).takeWaiter x).push t ((st.setCode t k).enqueueProg x ++ r)) held
      (Function.update Q (.wait w) (Q (.wait w)).tail) K := by
  have hfirst : (st.setCode t k).run.first (.wait w) = (Q (.wait w)).head? := h.lists.rings.first _
  rw [hfirst]
  cases hQ : Q (.wait w) with
  | nil =>
    have hsame : Function.update Q (.wait w) ([] : List Tid).tail = Q := by
      rw [List.tail_nil, ← hQ, Function.update_eq_self]
    rw [hsame]
    exact h.goOn ha hop quiet_nil hk
  | cons x rest =>
    refine h.wake ha hop hQ hr ?_
    rw [List.append_assoc]
    exact hrk.enqueueProg (by rw [hheld]; simp)

theorem perform (h : Sound doom st held Q K) (ha : st.At c t op k)
    (hfree : ∀ l ∈ op.lock?, st.owner l = none ∨ st.owner l = some c)
    (hscan : op = .scan → doom ∨ st.kin.isEmpty t = true ∨ (st.findZombie t).isSome = true) :
    ∃ held' Q' K', Sound doom ((st.setCode t k).perform c t op) held' Q' K' ∧
      st.Relists ((st.setCode t k).perform c t op) c t op Q Q' := by
  have hty := h.typed ha
  -- operations that only go on
  have hgo {p : List Op} (hop : op.transient = false) (hp : Quiet p)
      (hk : Typed doom c t (st.tcb t).schedClass (p ++ k) (held c) (modeOf (st.tcb t).state)) :
      Sound doom (st.setCode t (p ++ k)) held Q K := h.goOn ha hop hp hk
  have hpush (ops : List Op) := st.push_setCode t k ops
  -- operations that set the interrupt flag
  have hflag (hop : op.transient = false)
      (hk : held c = [] ∧ Typed doom c t (st.tcb t).schedClass k [] (modeOf (st.tcb t).state)) :
      Sound doom ((st.setCode t k).setCpu c fun s => { s with intrOn := true }) held Q K := by
    refine h.setIntr ha.halted ha.current ?_ hk.1 hk.2 true
    rw [ha.code]
    exact .of_quiet hop quiet_nil
  cases op with
  | acquire l => exact ⟨_, Q, K, h.acquire ha (hfree l rfl), .same rfl⟩
  | release l =>
    obtain ⟨held', hS⟩ := h.release ha
    exact ⟨held', Q, K, hS, .same rfl⟩
  | schedule =>
    obtain ⟨hheld, hquiet, hk⟩ := hty
    refine ⟨held, Q, K, ?_, .same rfl⟩
    change Sound doom ((st.setCode t k).push t _) held Q K
    rw [hpush]
    refine hgo rfl (by simp [Op.transient]) ?_
    rw [hheld]
    exact ⟨by simp, rfl, by simp [Op.transient, hquiet], fun hm => .inl ⟨[], rfl, rfl, hk hm⟩⟩
  | pick =>
    obtain ⟨y, Q', hsw, -, hS, hw, -, hq⟩ := h.pick ha
    refine ⟨held, Q', K, hS, hw, fun d p => ?_⟩
    have hpicked : ((st.setCode t k).perform c t .pick).pickedBy c .pick = some y :=
      (hsw.current c).trans (if_pos rfl)
    rw [hq, hpicked, Option.toList_some, List.diff_cons, List.diff_nil]
    rfl
  | returned b =>
    exact ⟨held, Q, K, hgo (p := []) rfl quiet_nil (by rw [hty.1]; exact hty.2), .same rfl⟩
  | woken n e =>
    exact ⟨held, Q, K, hgo (p := []) rfl quiet_nil (by rw [hty.1, hty.2.1]; exact hty.2.2), .same rfl⟩
  | notified n e =>
    exact ⟨held, Q, K, hgo (p := []) rfl quiet_nil (by rw [hty.1]; exact hty.2), .same rfl⟩
  | tick =>
    have hS := hgo (p := []) rfl quiet_nil hty.2
    exact ⟨held, Q, K, hS.same (.taskTick _ c t), .same rfl⟩
  | yield =>
    have hS := hgo (p := []) rfl quiet_nil hty.2
    exact ⟨held, Q, K, hS.same (.yieldTask _ c t), .same rfl⟩
  | checkPreempt =>
    obtain ⟨hheld, hmode, hquiet, hk⟩ := hty
    refine ⟨held, Q, K, ?_, .same rfl⟩
    change Sound doom (if ((st.setCode t k).rq c).needResched then
      (st.setCode t k).push t [.schedule] else st.setCode t k) held Q K
    split
    · rw [hpush]
      refine hgo rfl (by simp [Op.transient]) ?_
      rw [hheld]
      exact ⟨rfl, hquiet, fun _ => hk⟩
    · exact hgo (p := []) rfl quiet_nil (by rw [hheld, hmode]; exact hk)
  | link w => exact ⟨held, _, K, h.link ha, .onWait (f := (· ++ [t])) (fun _ _ => rfl) rfl rfl⟩
  | wakeOne w =>
    obtain ⟨hheld, -, hk⟩ := hty
    have hS := h.wakeFirst ha rfl hheld quiet_nil hk hk
    refine ⟨held, _, K, ?_, .onWait (f := List.tail) (fun _ _ => rfl) rfl rfl⟩
    simp only [List.append_nil] at hS
    exact hS
  | wakeAll w =>
    obtain ⟨hheld, hrel, hk⟩ := hty
    exact ⟨held, _, K, h.wakeFirst ha rfl hheld (by simp [Op.transient]) hk ⟨hheld, hrel, hk⟩,
      .onWait (f := List.tail) (fun _ _ => rfl) rfl rfl⟩
  | enqueue d x =>
    obtain ⟨Q', hS, hw, hq⟩ := h.enqueue ha
    exact ⟨held, Q', K, hS, hw, hq⟩
  | exit code =>
    obtain ⟨hheld, hmode, hcls, hnil⟩ := hty
    have hS := hgo (p := [.zombie]) rfl (by simp [Op.transient]) ⟨hheld, hmode, hcls, hnil⟩
    refine ⟨held, Q, K, ?_, .same rfl⟩
    -- there is no foster parent
    have heq : (st.setCode t k).exit t code =
        (st.setCode t ([.zombie] ++ k)).setTcb t fun b => { b with exitCode := code } := by
      unfold Kernel.exit
      dsimp only
      rw [show ((st.setCode t k).setTcb t fun b => { b with exitCode := code }).initTask = none from
        h.roster.initTask, show ((st.setCode t k).setTcb t fun b => { b with exitCode := code }).kernelTask =
          none from h.roster.kernelTask]
      simp [Kernel.push, Kernel.setCode, Kernel.setTcb]
    change Sound doom ((st.setCode t k).exit t code) held Q K
    rw [heq]
    exact hS.same ((Kernel.Same.refl _).setTcb fun b => ⟨⟨rfl, rfl, rfl, rfl⟩, rfl, rfl⟩)
  | reparent f => exact hty.elim
  | zombie => exact ⟨held, Q, K, h.zombie ha, .same rfl⟩
  | unreachable => exact hty.elim
  | wait =>
    obtain ⟨hheld, hmode, hcls, hnil⟩ := hty
    refine ⟨held, Q, K, ?_, .same rfl⟩
    change Sound doom ((st.setCode t k).push t [.acquire .taskList, .scan]) held Q K
    rw [hpush]
    refine hgo rfl (by simp [Op.transient]) ?_
    rw [hheld]
    exact ⟨by simp, rfl, hmode, hcls, hnil⟩
  | scan => exact ⟨held, Q, K, h.scan ha (hscan rfl), .same rfl⟩
  | listRemove z =>
    have hS := hgo (p := []) rfl quiet_nil hty.2
    exact ⟨held, Q, K, hS.same ⟨rfl, rfl, rfl, rfl, rfl, rfl, rfl, rfl, rfl, fun _ => .refl _,
      fun _ => rfl, fun _ => rfl, fun _ => rfl, fun _ => rfl, fun _ => rfl, fun _ => rfl⟩, .same rfl⟩
  | listAdd x =>
    have hS := hgo (p := []) rfl quiet_nil hty.2
    exact ⟨held, Q, K, hS.same ⟨rfl, rfl, rfl, rfl, rfl, rfl, rfl, rfl, rfl, fun _ => .refl _,
      fun _ => rfl, fun _ => rfl, fun _ => rfl, fun _ => rfl, fun _ => rfl, fun _ => rfl⟩, .same rfl⟩
  | reclaim z => exact ⟨held, Q, _, h.reclaim ha, .same rfl⟩
  | fork ok =>
    obtain ⟨hheld, hmode, hquiet, hk⟩ := hty
    refine ⟨held, Q, K, ?_, .same rfl⟩
    change Sound doom (if ok then (st.setCode t k).fork c t else st.setCode t k) held Q K
    split
    · exact h.fork ha
    · exact hgo (p := []) rfl quiet_nil (by rw [hheld, hmode]; exact hk)
  | kthreadCreate p ok =>
    obtain ⟨hheld, hmode, hp, hquiet, hk⟩ := hty
    refine ⟨held, Q, K, ?_, .same rfl⟩
    change Sound doom (if ok then (st.setCode t k).kthreadCreate c t p else st.setCode t k) held Q K
    split
    · exact h.kthreadCreate ha
    · exact hgo (p := []) rfl quiet_nil (by rw [hheld, hmode]; exact hk)
  | adopt p x =>
    obtain ⟨K', hS⟩ := h.adopt ha
    exact ⟨held, Q, K', hS, .same rfl⟩
  | intrOn => exact ⟨held, Q, K, hflag rfl hty, .same rfl⟩
  | iret => exact ⟨held, Q, K, hflag rfl hty, .same rfl⟩
  | userret => exact ⟨held, Q, K, hflag rfl hty, .same rfl⟩
  | check n =>
    obtain ⟨hheld, hmode, hcls, hnil⟩ := hty
    have hk : Typed doom c t (st.tcb t).schedClass k [] .active := hnil ▸ ⟨rfl, rfl⟩
    refine ⟨held, Q, K, ?_, .same rfl⟩
    change Sound doom ((st.setCode t k).check n t) held Q K
    unfold Kernel.check
    split
    · rw [hpush]
      refine hgo rfl (by simp [Op.transient]) ?_
      rw [hheld, hmode]
      exact .inl ⟨[], rfl, hk⟩
    · rw [hpush]
      refine hgo rfl (by simp [Op.transient, sleepProg]) ?_
      rw [hheld, hmode, List.append_assoc]
      have hk' : Typed doom c t (st.tcb t).schedClass (.woken n (st.epoch n) :: k) [] .active :=
        ⟨rfl, rfl, hk⟩
      exact hk'.sleepProg (quiet_cons.mpr ⟨rfl, hnil ▸ quiet_nil⟩) (fun _ he => by cases he) rfl
        (by simp) hcls
  | raise n all =>
    obtain ⟨hheld, hk⟩ := hty
    refine ⟨held, Q, K, ?_, .same rfl⟩
    have hS : Sound doom (st.setCode t ((Op.release (.external n) ::
        (wakeProg all (.cond n) ++ [Op.notified n (st.epoch n + 1)])) ++ k)) held Q K := by
      refine hgo rfl ?_ ?_
      · cases all <;> simp [Op.transient, wakeProg, wakeAllProg, wakeOneProg]
      · rw [hheld, List.cons_append, List.append_assoc]
        have hk' : Typed doom c t (st.tcb t).schedClass (.notified n (st.epoch n + 1) :: k) []
          (modeOf (st.tcb t).state) := ⟨rfl, hk⟩
        exact .inl ⟨[], rfl, hk'.wakeProg all _⟩
    rw [← hpush] at hS
    exact hS.same ⟨rfl, rfl, rfl, rfl, rfl, rfl, rfl, rfl, rfl, fun _ => .refl _, fun _ => rfl,
      fun _ => rfl, fun _ => rfl, fun _ => rfl, fun _ => rfl, fun _ => rfl⟩
  | reset n =>
    have hS := hgo (p := []) rfl quiet_nil hty.2
    exact ⟨held, Q, K, hS.same ⟨rfl, rfl, rfl, rfl, rfl, rfl, rfl, rfl, rfl, fun _ => .refl _,
      fun _ => rfl, fun _ => rfl, fun _ => rfl, fun _ => rfl, fun _ => rfl, fun _ => rfl⟩, .same rfl⟩

end Sound

/-- What a step of CPU `c` can be. -/
inductive Kernel.Taken (st : Kernel) (c : ℕ) : Act → Kernel → Prop
  | boot (hdown : st.current c = none) : Taken st c .boot (st.bringUp c)
  | op {t : Tid} {op : Op} {k : List Op} (ha : st.At c t op k)
      (hfree : ∀ l ∈ op.lock?, st.owner l = none ∨ st.owner l = some c) :
      Taken st c .step ((st.setCode t k).perform c t op)
  | call {t : Tid} {a : Call} (hc : st.current c = some t) (hcode : (st.tcb t).code = [])
      (hmay : st.MayCall t a) : Taken st c (.call a) (st.setCode t (a.prog c))
  | setIntr {t : Tid} {on : Bool} (hc : st.current c = some t) (hcode : (st.tcb t).code = []) :
      Taken st c (.setIntr on) (st.setCpu c fun s => { s with intrOn := on })
  | irq {t : Tid} {h : Irq} (hc : st.current c = some t) (hon : (st.cpu c).intrOn = true) :
      Taken st c (.irq h)
        ((st.setCpu c fun s => { s with intrOn := false }).push t (h.prog c ++ [.iret]))

theorem Kernel.Step.taken {st st' : Kernel} {l : Label} (h : st.Step l st') :
    st.Taken l.cpu l.act st' := by
  obtain ⟨⟨hh, -, hp⟩, rfl⟩ := h
  obtain ⟨c, act⟩ := l
  rcases hp with ⟨hdown, rfl⟩ | ⟨t, hmem, hready⟩
  · exact .boot hdown
  · have hc : st.current c = some t := hmem
    unfold Kernel.exec
    cases act with
    | step =>
      obtain ⟨op, hop, hfree⟩ := hready
      obtain ⟨k, hk⟩ : ∃ k, (st.tcb t).code = op :: k := by
        cases hcode : (st.tcb t).code with
        | nil => simp [hcode] at hop
        | cons op' k =>
          simp only [hcode, List.head?_cons, Option.mem_def, Option.some_inj] at hop
          exact ⟨k, by rw [hop]⟩
      have heq : st.stepCpu c = (st.setCode t k).perform c t op := by
        simp only [Kernel.stepCpu, hc, hk]
      dsimp only
      rw [heq]
      exact .op ⟨hh, hc, hk⟩ hfree
    | call a =>
      simp only [hc]
      exact .call hc hready.1 hready.2
    | setIntr on =>
      simp only [hc]
      exact .setIntr hc hready
    | irq h =>
      simp only [hc]
      exact .irq hc hready
    | boot => exact hready.elim

/-- The operation of a step, and the task that performs it. -/
def Kernel.nextOp (st : Kernel) (l : Label) : Option (Tid × Op) :=
  match l.act, st.current l.cpu with
  | .step, some t => (st.tcb t).code.head?.map (t, ·)
  | _, _ => none

/-- `task_wait` does not have to sleep: there are no children, or one of them is a zombie. -/
def Kernel.ScanOk (st : Kernel) (l : Label) : Prop :=
  ∀ p ∈ st.nextOp l, p.2 = .scan → st.kin.isEmpty p.1 = true ∨ (st.findZombie p.1).isSome = true

instance (st : Kernel) (l : Label) : Decidable (st.ScanOk l) :=
  inferInstanceAs (Decidable (∀ p ∈ st.nextOp l, _))

theorem Kernel.Step.halted {st st' : Kernel} {l : Label} (h : st.Step l st') : st.halted = none := h.1.1

theorem Kernel.At.nextOp {st : Kernel} {c : ℕ} {t : Tid} {op : Op} {k : List Op}
    (h : st.At c t op k) : st.nextOp ⟨c, .step⟩ = some (t, op) := by
  simp only [Kernel.nextOp, h.current, h.code, List.head?_cons, Option.map_some]

theorem Kernel.Step.at_of_nextOp {st st' : Kernel} {l : Label} {t : Tid} {op : Op} (h : st.Step l st')
    (hop : st.nextOp l = some (t, op)) :
    ∃ k, st.At l.cpu t op k ∧ l.act = .step ∧ st' = (st.setCode t k).perform l.cpu t op := by
  have ht := h.taken
  obtain ⟨c, act⟩ := l
  cases ht with
  | @op t' op' k ha hfree =>
    rw [ha.nextOp] at hop
    cases hop
    exact ⟨k, ha, rfl, rfl⟩
  | _ => simp [Kernel.nextOp] at hop

theorem Call.quiet (a : Call) (c : ℕ) : Quiet (a.prog c) := by
  cases a <;> simp [Call.prog, Op.transient, sleepProg, wakeOneProg, wakeAllProg]

theorem Irq.quiet (i : Irq) (c : ℕ) : Quiet (i.prog c ++ [.iret]) := by
  cases i <;> simp [Irq.prog, Op.transient, wakeOneProg, wakeAllProg]

/-- What a step does to the wait queue `w`. -/
def Kernel.onWait (st : Kernel) (l : Label) (w : WaitQueue) (q : List Tid) : List Tid :=
  match st.nextOp l with
  | some (t, op) => op.onWait t w q
  | none => q

/-- The task that a step puts on a run queue. -/
def Kernel.enqueued (st : Kernel) (l : Label) : Option Tid :=
  (st.nextOp l).bind fun p => st.enqueuedBy p.1 p.2

/-- The task that a step of `schedule` picks. -/
def Kernel.picked (st : Kernel) (l : Label) : Option Tid :=
  (st.nextOp l).bind fun p => (st.exec l).pickedBy l.cpu p.2

/-- **Every step keeps the invariant.** -/
theorem Sound.step {doom : Prop} {st st' : Kernel} {held : ℕ → List Spinlock}
    {Q : RunHead → List Tid} {K : Tid → List Tid} {l : Label} (h : Sound doom st held Q K)
    (hs : st.Step l st') (hscan : doom ∨ st.ScanOk l) : ∃ held' Q' K', Sound doom st' held' Q' K' ∧
      (∀ w, Q' (.wait w) = st.onWait l w (Q (.wait w))) ∧
      ∀ d p, Q' (.queue d p) = (st.joined Q (st.enqueued l) d p).diff (st.picked l).toList := by
  have hh := hs.halted
  have hC := h.control hh
  have ht := hs.taken
  have hexec := hs.2
  obtain ⟨c, act⟩ := l
  -- a step that performs no operation
  have hsame (hnone : st.nextOp ⟨c, act⟩ = none) :
      (∀ w, Q (.wait w) = st.onWait ⟨c, act⟩ w (Q (.wait w))) ∧
        ∀ d p, Q (.queue d p) =
          (st.joined Q (st.enqueued ⟨c, act⟩) d p).diff (st.picked ⟨c, act⟩).toList := by
    simp [Kernel.onWait, Kernel.enqueued, Kernel.picked, hnone, Kernel.joined_none]
  cases ht with
  | boot hdown => exact ⟨held, Q, K, h.boot hh hdown, hsame rfl⟩
  | @op t op k ha hfree =>
    obtain ⟨held', Q', K', hS, hw⟩ := h.perform ha hfree fun hop => by
      refine hscan.imp_right fun hok => ?_
      exact hok _ ha.nextOp hop
    refine ⟨held', Q', K', hS, fun w => ?_, fun d p => ?_⟩
    · simp only [Kernel.onWait, ha.nextOp, hw.wait]
    · simp only [Kernel.enqueued, Kernel.picked, ha.nextOp, Option.bind_some, ← hexec, hw.queue]
  | @call t a hc hcode hmay =>
    -- a task with no code left holds no lock
    have hty := (hC.running hc).2.2
    rw [hcode] at hty
    refine ⟨held, Q, K, h.go hc (fun _ => hC.unique hc) (fun _ => ?_) ?_, hsame rfl⟩
    · rw [hty.1, hty.2]
      exact Call.typed hmay
    · rw [hcode]
      have hquiet := a.quiet c
      exact ⟨pendingIn_of_quiet hquiet, by rw [adoptIn_of_quiet hquiet]; exact List.nil_sublist _,
        by rw [reclaimIn_of_quiet hquiet]; exact List.nil_sublist _⟩
  | @setIntr t on hc hcode =>
    have hty := (hC.running hc).2.2
    have hS := h.setIntr hh hc (k := (st.tcb t).code) ⟨rfl, List.Sublist.refl _, List.Sublist.refl _⟩
      (by rw [hcode] at hty; exact hty.1) (by rw [hcode] at hty ⊢; exact ⟨rfl, hty.2⟩) on
    rw [Kernel.setCode_self rfl] at hS
    exact ⟨held, Q, K, hS, hsame rfl⟩
  | @irq t i hc hon =>
    -- interrupts are off while a lock is held
    have hheld : held c = [] := by
      by_contra hne
      rw [hC.intr c hne] at hon
      cases hon
    have hty := (hC.running hc).2.2
    rw [hheld] at hty
    have hquiet := i.quiet c
    have hwork : NoNewWork (i.prog c ++ [.iret] ++ (st.tcb t).code) (st.tcb t).code :=
      ⟨by rw [pendingIn_append, pendingIn_of_quiet hquiet]; rfl,
        by rw [adoptIn_append, adoptIn_of_quiet hquiet]; exact List.Sublist.refl _,
        by rw [reclaimIn_append, reclaimIn_of_quiet hquiet]; exact List.Sublist.refl _⟩
    exact ⟨held, Q, K, h.setIntr hh hc hwork hheld (i.typed hty) false, hsame rfl⟩

/-! ## Runs -/

theorem sound_blank (doom : Prop) :
    Sound doom Kernel.blank (fun _ => []) (fun _ => []) fun _ => [] := by
  have hrings {ι : Type} : Rings (⟨id, id⟩ : Links ι Tid) fun _ => [] :=
    ⟨fun i => by simp [Links.Ring, Links.Adj], fun _ => List.nodup_nil, fun hm => by cases hm⟩
  have hcount : Counters Kernel.blank.rq fun _ => [] :=
    ⟨fun _ _ _ => by simp [Kernel.blank], fun _ => by simp [Kernel.blank],
      fun _ => by simp [Kernel.blank]⟩
  refine ⟨⟨?_, ?_, ?_, ?_, ?_, ?_, ?_, rfl, rfl⟩,
    fun _ => ⟨?_, ?_, ?_, fun _ => List.nodup_nil, fun _ => rfl, ?_, fun _ => rfl⟩,
    ⟨hrings, ?_, ?_, ?_, ?_, ?_, fun _ => rfl, ?_, hcount⟩,
    ⟨hrings, ?_, ?_, fun _ => rfl, ?_, ?_, ?_, ?_, ?_⟩⟩
  all_goals simp [Kernel.blank, Kernel.current, Kernel.pendingAt, Kernel.adoptAt, Kernel.reclaimAt,
    Kernel.codeAt, pendingIn, adoptIn, reclaimIn]

theorem sound_init (doom : Prop) : Sound doom Kernel.init (fun _ => []) (fun _ => []) fun _ => [] :=
  (sound_blank doom).boot rfl rfl

theorem sound_of_run {st : Kernel} {ls : List Label} (hr : Run Kernel.Step Kernel.init ls st) :
    ∃ held Q K, Sound True st held Q K := by
  refine hr.invariant (P := fun st => ∃ held Q K, Sound True st held Q K) ?_
    ⟨_, _, _, sound_init True⟩
  rintro s l s' ⟨held, Q, K, h⟩ hs
  obtain ⟨held', Q', K', h', -⟩ := h.step hs (.inl trivial)
  exact ⟨held', Q', K', h'⟩

/-! ## Running a list of steps -/

/-- The state after a list of steps. -/
def Kernel.execAll (st : Kernel) (ls : List Label) : Kernel := ls.foldl Kernel.exec st

/-- Each of the steps can be taken when it is its turn, and meets the condition `ok`. -/
def Kernel.PermittedAll (ok : Kernel → Label → Prop) : Kernel → List Label → Prop
  | _, [] => True
  | st, l :: ls => ok st l ∧ st.Permitted l ∧ PermittedAll ok (st.exec l) ls

instance Kernel.decidablePermittedAll (ok : Kernel → Label → Prop) [∀ st l, Decidable (ok st l)] :
    ∀ st ls, Decidable (Kernel.PermittedAll ok st ls)
  | _, [] => inferInstanceAs (Decidable True)
  | st, l :: ls =>
    have := decidablePermittedAll ok (st.exec l) ls
    inferInstanceAs (Decidable (ok st l ∧ st.Permitted l ∧ _))

theorem run_execAll {ok : Kernel → Label → Prop} {st : Kernel} {ls : List Label}
    (h : st.PermittedAll ok ls) : Run (Guarded ok Kernel.Step) st ls (st.execAll ls) := by
  have hrun : ∀ (ls : List Label) {st' : Kernel} {ls' : List Label},
      Run (Guarded ok Kernel.Step) st ls' st' → st'.PermittedAll ok ls →
        Run (Guarded ok Kernel.Step) st (ls' ++ ls) (st'.execAll ls) := by
    intro ls
    induction ls with
    | nil =>
      intro st' ls' hr _
      rwa [List.append_nil]
    | cons l ls ih =>
      rintro st' ls' hr ⟨hok, hp, hps⟩
      have hnext := ih (hr.snoc ⟨hok, hp, rfl⟩) hps
      rwa [List.append_assoc] at hnext
  exact hrun ls (.nil st) h

theorem execAll_of_run {st st' : Kernel} {ls : List Label} (hr : Run Kernel.Step st ls st') :
    st.execAll ls = st' := by
  induction hr with
  | nil => rfl
  | snoc _ hs ih =>
    unfold Kernel.execAll at ih ⊢
    rw [List.foldl_append, ih]
    exact hs.2.symm

/-- The events that the steps of a list are, in order. -/
def Kernel.events {α : Type} (ev : Kernel → Label → Option α) : Kernel → List Label → List α
  | _, [] => []
  | st, l :: ls => (ev st l).toList ++ events ev (st.exec l) ls

theorem Kernel.events_snoc {α : Type} (ev : Kernel → Label → Option α) {st st' : Kernel}
    {ls : List Label} (hr : Run Kernel.Step st ls st') (l : Label) :
    Kernel.events ev st (ls ++ [l]) = Kernel.events ev st ls ++ (ev st' l).toList := by
  rw [← execAll_of_run hr]
  clear hr
  induction ls generalizing st with
  | nil => exact List.append_nil _
  | cons a ls ih =>
    rw [List.cons_append, Kernel.events, Kernel.events, ih, List.append_assoc]
    rfl

end Lume.Sched
