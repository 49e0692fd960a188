import Lume.Sched.Model

/-!
# Control flow and locks

The code that a CPU still has to perform tells which locks it holds and in which mode its task
is. `Typed` is this reading of the code, as a typing judgement: `Typed doom c t cls k held m` says that
CPU `c`, holding the locks `held` and running task `t` in mode `m`, can perform `k`. Every step keeps
the code of every CPU typed and the locks in line with it.

The one ill-typed program is that of `task_wait` when it goes to sleep: it releases
`g_task_list_lock` twice. With `doom` the judgement admits a release of a lock that is not held,
which stops the machine.

## Main definitions

* `Mode`, `Quiet`, `Typed`
* `Roster`: facts about the tasks that exist
* `Control doom st held`: the code of every task is typed, and CPU `c` holds the locks `held c`
-/

namespace Lume.Sched

open Function (update update_apply update_comm update_eq_self update_idem update_of_ne update_self)

/-! ## Typed code -/

/-- A task runs; it gave up the CPU, or was woken before it could; or it has exited. -/
inductive Mode
  | active | parked | gone
deriving DecidableEq

def modeOf : TaskState → Mode
  | .running => .active
  | .runnable | .sleeping => .parked
  | .zombie | .dead => .gone

/-- Operations on a task that only the code they stand in knows of. -/
def Op.transient : Op → Bool
  | .enqueue _ _ | .adopt _ _ | .reclaim _ => true
  | _ => false

/-- The code leaves no work on other tasks behind. -/
def Quiet (k : List Op) : Prop := ∀ op ∈ k, op.transient = false

/-- CPU `c`, holding `held` and running task `self` in mode `m`, can perform the code. -/
def Typed (doom : Prop) (c : ℕ) (self : Tid) (cls : SchedClass) :
    List Op → List Spinlock → Mode → Prop
  | [], held, m => held = [] ∧ m = .active
  | .acquire l :: k, held, m => l ∉ held ∧ Typed doom c self cls k (l :: held) m
  | .release l :: k, held, m => (∃ h, held = l :: h ∧ Typed doom c self cls k h m) ∨ doom ∧ l ∉ held
  | .schedule :: k, held, m => held = [] ∧ Quiet k ∧ (m ≠ .gone → Typed doom c self cls k [] .active)
  | .pick :: k, held, m =>
    held = [.runQueue c] ∧ Quiet k ∧ (m ≠ .gone → Typed doom c self cls k [.runQueue c] .active)
  | .returned _ :: k, held, m => held = [] ∧ Typed doom c self cls k [] m
  | .woken _ _ :: k, held, m => held = [] ∧ m = .active ∧ Typed doom c self cls k [] .active
  | .notified _ _ :: k, held, m => held = [] ∧ Typed doom c self cls k [] m
  | .tick :: k, held, m => held = [.runQueue c] ∧ Typed doom c self cls k held m
  | .yield :: k, held, m => held = [.runQueue c] ∧ Typed doom c self cls k held m
  | .checkPreempt :: k, held, m => held = [] ∧ m = .active ∧ Quiet k ∧ Typed doom c self cls k [] .active
  | .link w :: k, held, m =>
    held.head? = some (.waitQueue w) ∧ m = .active ∧ cls = .o1 ∧ (∀ t, w = .chld t → doom ∧ t = self) ∧
      Typed doom c self cls k held .parked
  | .wakeOne w :: k, held, m => held = [.waitQueue w] ∧
    k.head? = some (.release (.waitQueue w)) ∧ Typed doom c self cls k held m
  | .wakeAll w :: k, held, m => held = [.waitQueue w] ∧
    k.head? = some (.release (.waitQueue w)) ∧ Typed doom c self cls k held m
  | .enqueue c' _ :: k, held, m => held.head? = some (.runQueue c') ∧ Typed doom c self cls k held m
  | .exit _ :: k, held, m => held = [] ∧ m = .active ∧ cls = .o1 ∧ k = []
  | .zombie :: k, held, m => held = [] ∧ m = .active ∧ cls = .o1 ∧ k = []
  | .reparent _ :: _, _, _ => False
  | .unreachable :: _, _, _ => False
  | .wait :: k, held, m => held = [] ∧ m = .active ∧ cls = .o1 ∧ k = []
  | .scan :: k, held, m => held = [.taskList] ∧ m = .active ∧ cls = .o1 ∧ k = []
  | .listRemove _ :: k, held, m => held = [.taskList] ∧ Typed doom c self cls k held m
  | .listAdd _ :: k, held, m => held = [.taskList] ∧ Typed doom c self cls k held m
  | .adopt p _ :: k, held, m => held = [.taskList] ∧ p = self ∧ Typed doom c self cls k held m
  | .reclaim _ :: k, held, m => held = [] ∧ m = .active ∧ Typed doom c self cls k [] m
  | .fork _ :: k, held, m => held = [] ∧ m = .active ∧ Quiet k ∧ Typed doom c self cls k [] .active
  | .kthreadCreate p _ :: k, held, m =>
    held = [] ∧ m = .active ∧ p < kNumPriorities ∧ Quiet k ∧ Typed doom c self cls k [] .active
  | .intrOn :: k, held, m => held = [] ∧ Typed doom c self cls k [] m
  | .iret :: k, held, m => held = [] ∧ Typed doom c self cls k [] m
  | .userret :: k, held, m => held = [] ∧ Typed doom c self cls k [] m
  | .check n :: k, held, m => held = [.external n] ∧ m = .active ∧ cls = .o1 ∧ k = []
  | .raise n _ :: k, held, m => held = [.external n] ∧ Typed doom c self cls k [] m
  | .reset n :: k, held, m => held = [.external n] ∧ Typed doom c self cls k held m

@[simp] theorem quiet_nil : Quiet [] := by simp [Quiet]

@[simp] theorem quiet_cons {op : Op} {k : List Op} :
    Quiet (op :: k) ↔ op.transient = false ∧ Quiet k := by simp [Quiet]

@[simp] theorem quiet_append {k k' : List Op} : Quiet (k ++ k') ↔ Quiet k ∧ Quiet k' := by
  simp [Quiet, or_imp, forall_and]

variable {doom : Prop} {c : ℕ} {self : Tid} {cls : SchedClass} {k : List Op} {m : Mode}

theorem Typed.enqueueProg {held : List Spinlock} {c' : ℕ} {x : Tid}
    (h : Typed doom c self cls k held m) (hl : Spinlock.runQueue c' ∉ held) :
    Typed doom c self cls (.acquire (.runQueue c') :: .enqueue c' x :: .release (.runQueue c') :: k) held m :=
  ⟨hl, rfl, .inl ⟨held, rfl, h⟩⟩

theorem Typed.wakeOneProg (h : Typed doom c self cls k [] m) (w : WaitQueue) :
    Typed doom c self cls (wakeOneProg w ++ k) [] m :=
  ⟨by simp, rfl, rfl, .inl ⟨[], rfl, h⟩⟩

theorem Typed.wakeAllProg (h : Typed doom c self cls k [] m) (w : WaitQueue) :
    Typed doom c self cls (wakeAllProg w ++ k) [] m :=
  ⟨by simp, rfl, rfl, .inl ⟨[], rfl, h⟩⟩

theorem Typed.wakeProg (h : Typed doom c self cls k [] m) (all : Bool) (w : WaitQueue) :
    Typed doom c self cls (wakeProg all w ++ k) [] m := by
  cases all with
  | true => exact h.wakeAllProg w
  | false => exact h.wakeOneProg w

theorem Typed.sleepProg (h : Typed doom c self cls k [] .active) (hq : Quiet k) {w : WaitQueue}
    (hw : ∀ t, w = .chld t → doom ∧ t = self) {held : List Spinlock} {ext : Option Spinlock}
    (hheld : held = ext.toList) (hext : ext ≠ some (.waitQueue w)) (hcls : cls = .o1) :
    Typed doom c self cls (sleepProg w ext ++ k) held .active := by
  cases ext with
  | none =>
    subst hheld
    exact ⟨by simp, rfl, rfl, hcls, hw, .inl ⟨[], rfl, rfl, hq, fun _ => h⟩⟩
  | some l =>
    subst hheld
    refine ⟨?_, rfl, rfl, hcls, hw, .inl ⟨[l], rfl, .inl ⟨[], rfl, rfl, hq, fun _ => h⟩⟩⟩
    rintro hmem
    exact hext (by rw [List.mem_singleton.mp hmem])

theorem Call.typed {st : Kernel} {t : Tid} {a : Call} (h : st.MayCall t a) :
    Typed doom c self (st.tcb t).schedClass (a.prog c) [] .active := by
  obtain ⟨cls, hcls⟩ : ∃ cls, (st.tcb t).schedClass = cls := ⟨_, rfl⟩
  rw [Kernel.MayCall, hcls] at h
  rw [hcls]
  have hnil : Typed doom c self cls [] [] .active := ⟨rfl, rfl⟩
  have ho1 (hidle : a.byIdle = false) : cls = .o1 := h.1.resolve_left (by simp [hidle])
  cases a with
  | sleep n =>
    have hsleep : Typed doom c self cls (sleepProg (.plain n) none ++ []) [] .active :=
      hnil.sleepProg quiet_nil (fun _ he => by cases he) rfl (by simp) (ho1 rfl)
    exact hsleep
  | wakeOne n => exact hnil.wakeOneProg (.plain n)
  | wakeAll n => exact hnil.wakeAllProg (.plain n)
  | kthreadCreate p ok => exact ⟨rfl, rfl, h.2, quiet_nil, hnil⟩
  | exit code => exact ⟨rfl, rfl, ho1 rfl, rfl⟩
  | wait => exact ⟨rfl, rfl, ho1 rfl, rfl⟩
  | await n => exact ⟨by simp, rfl, rfl, ho1 rfl, rfl⟩
  | _ => simp [Call.prog, Typed]

theorem Irq.typed (h : Irq) (hk : Typed doom c self cls k [] m) :
    Typed doom c self cls (h.prog c ++ [.iret] ++ k) [] m := by
  have hk' : Typed doom c self cls (.iret :: k) [] m := ⟨rfl, hk⟩
  rw [List.append_assoc]
  cases h with
  | tick => exact ⟨by simp, rfl, .inl ⟨[], rfl, hk'⟩⟩
  | wakeOne n => exact hk'.wakeOneProg _
  | wakeAll n => exact hk'.wakeAllProg _
  | notify n all => exact ⟨by simp, rfl, hk'⟩

/-! ## Reading the state -/

/-- Two control blocks agree on what the scheduler reads. -/
structure Tcb.Alike (b b' : Tcb) : Prop where
  state : b'.state = b.state
  cpuId : b'.cpuId = b.cpuId
  priority : b'.priority = b.priority
  schedClass : b'.schedClass = b.schedClass

theorem Tcb.Alike.refl (b : Tcb) : b.Alike b := ⟨rfl, rfl, rfl, rfl⟩

theorem Tcb.Alike.trans {b b' b'' : Tcb} (h : b.Alike b') (h' : b'.Alike b'') : b.Alike b'' :=
  ⟨h'.state.trans h.state, h'.cpuId.trans h.cpuId, h'.priority.trans h.priority,
    h'.schedClass.trans h.schedClass⟩

namespace Kernel

variable (st : Kernel) (t x : Tid) (f : Tcb → Tcb) (k : List Op)

theorem tcb_setTcb : (st.setTcb t f).tcb x = if x = t then f (st.tcb t) else st.tcb x :=
  update_apply ..

theorem tcb_setTcb_of_ne {t x : Tid} (h : x ≠ t) : (st.setTcb t f).tcb x = st.tcb x :=
  update_of_ne h ..

theorem alike_setTcb (hf : (st.tcb t).Alike (f (st.tcb t))) :
    (st.tcb x).Alike ((st.setTcb t f).tcb x) := by
  rw [tcb_setTcb]
  split
  · rename_i he
    rw [he]
    exact hf
  · exact .refl _

theorem tcb_setCode : (st.setCode t k).tcb x =
    { st.tcb x with code := if x = t then k else (st.tcb x).code } := by
  rw [setCode, tcb_setTcb]
  split
  · rename_i he
    rw [he]
  · rfl

theorem alike_setCode : (st.tcb x).Alike ((st.setCode t k).tcb x) :=
  st.alike_setTcb t x _ ⟨rfl, rfl, rfl, rfl⟩

theorem code_setCode : ((st.setCode t k).tcb x).code = if x = t then k else (st.tcb x).code := by
  rw [tcb_setCode]

theorem parent_setCode : ((st.setCode t k).tcb x).parent = (st.tcb x).parent := by
  rw [tcb_setCode]

theorem push_eq (ops : List Op) : st.push t ops = st.setCode t (ops ++ (st.tcb t).code) := rfl

theorem setCode_setCode (k' : List Op) : (st.setCode t k).setCode t k' = st.setCode t k' := by
  simp [setCode, setTcb, update_idem]

theorem push_setCode (ops : List Op) : (st.setCode t k).push t ops = st.setCode t (ops ++ k) := by
  rw [push_eq, setCode_setCode, code_setCode, if_pos rfl]

variable {st} {t} {k} in
theorem setCode_self (h : (st.tcb t).code = k) : st.setCode t k = st := by
  have hb : { st.tcb t with code := k } = st.tcb t := by rw [← h]
  rw [setCode, setTcb, hb, update_eq_self]

theorem setState_setCode (s : TaskState) :
    (st.setState x s).setCode t k = (st.setCode t k).setState x s := by
  simp only [setState, setCode, setTcb]
  congr 1
  rcases eq_or_ne x t with rfl | hxt
  · simp
  · rw [update_of_ne hxt, update_of_ne hxt.symm, update_comm hxt]

theorem tcb_setState (s : TaskState) : (st.setState t s).tcb x =
    { st.tcb x with state := if x = t then s else (st.tcb x).state } := by
  rw [setState, tcb_setTcb]
  split
  · rename_i he
    rw [he]
  · rfl

theorem state_setState (s : TaskState) :
    ((st.setState t s).tcb x).state = if x = t then s else (st.tcb x).state := by
  rw [tcb_setState]

theorem code_setState (s : TaskState) : ((st.setState t s).tcb x).code = (st.tcb x).code := by
  rw [tcb_setState]

theorem cpuId_setState (s : TaskState) : ((st.setState t s).tcb x).cpuId = (st.tcb x).cpuId := by
  rw [tcb_setState]

theorem parent_setState (s : TaskState) : ((st.setState t s).tcb x).parent = (st.tcb x).parent := by
  rw [tcb_setState]

theorem priority_setState (s : TaskState) :
    ((st.setState t s).tcb x).priority = (st.tcb x).priority := by
  rw [tcb_setState]

theorem schedClass_setState (s : TaskState) :
    ((st.setState t s).tcb x).schedClass = (st.tcb x).schedClass := by
  rw [tcb_setState]

theorem alike_setState {t x : Tid} (h : x ≠ t) (s : TaskState) :
    (st.tcb x).Alike ((st.setState t s).tcb x) := by
  rw [setState, tcb_setTcb_of_ne _ _ h]
  exact .refl _

theorem current_setRq {c : ℕ} {f : RunQueue → RunQueue} (hf : (f (st.rq c)).current = st.current c)
    (c' : ℕ) : (st.setRq c f).current c' = st.current c' := by
  change (update st.rq c (f (st.rq c)) c').current = st.current c'
  rw [update_apply]
  split
  · rename_i he
    rw [hf, he]
  · rfl

theorem tcb_spawn_self (c p : ℕ) (cls : SchedClass) : (st.spawn c p cls k).tcb st.nextTid =
    ⟨.runnable, p, c, priorityToTimeslice p, none, 0, cls, k⟩ :=
  update_self ..

theorem tcb_spawn_of_ne {x : Tid} (hx : x ≠ st.nextTid) (c p : ℕ) (cls : SchedClass) :
    (st.spawn c p cls k).tcb x = st.tcb x :=
  update_of_ne hx ..

theorem live_spawn_of_ne {x : Tid} (hx : x ≠ st.nextTid) (c p : ℕ) (cls : SchedClass) :
    (st.spawn c p cls k).live x = st.live x :=
  update_of_ne hx ..

/-- The code that CPU `c` runs. -/
def codeAt (c : ℕ) : List Op :=
  match st.current c with
  | none => []
  | some t => (st.tcb t).code

variable {st} {t} in
theorem codeAt_eq {c : ℕ} (h : st.current c = some t) : st.codeAt c = (st.tcb t).code := by
  rw [codeAt, h]

variable {st} {t} {k} in
theorem codeAt_setCode {c : ℕ} (hc : st.current c = some t)
    (hone : ∀ c', st.current c' = some t → c' = c) (c' : ℕ) :
    (st.setCode t k).codeAt c' = if c' = c then k else st.codeAt c' := by
  have hcur (c' : ℕ) : (st.setCode t k).current c' = st.current c' := rfl
  split
  · rename_i he
    rw [he, codeAt_eq ((hcur c).trans hc), code_setCode, if_pos rfl]
  · rename_i hne
    rw [codeAt, codeAt, hcur]
    cases hx : st.current c' with
    | none => rfl
    | some x =>
      have hxt : x ≠ t := by
        rintro rfl
        exact hne (hone c' hx)
      simp only [code_setCode, if_neg hxt]

theorem codeAt_congr {st st' : Kernel} {c : ℕ} (hcur : st'.current c = st.current c)
    (hcode : ∀ t, st.current c = some t → (st'.tcb t).code = (st.tcb t).code) :
    st'.codeAt c = st.codeAt c := by
  rw [codeAt, codeAt, hcur]
  cases hc : st.current c with
  | none => rfl
  | some t => exact hcode t hc

end Kernel

/-! ## The invariant -/

/-- Facts about the tasks that exist: a task belongs to a CPU that is up, each CPU has its idle
thread, and there is no foster parent. -/
structure Roster (st : Kernel) : Prop where
  lt : ∀ {t}, st.live t = true → t < st.nextTid
  up : ∀ {t}, st.live t = true → st.current (st.tcb t).cpuId ≠ none
  priority : ∀ {t}, st.live t = true → (st.tcb t).priority < kNumPriorities
  idle : ∀ {c}, st.current c ≠ none → ∃ i, (st.rq c).idle = some i
  idle_live : ∀ {c i}, (st.rq c).idle = some i →
    st.live i = true ∧ (st.tcb i).cpuId = c ∧ (st.tcb i).schedClass = .idle
  idle_eq : ∀ {t}, st.live t = true → (st.tcb t).schedClass = .idle →
    (st.rq (st.tcb t).cpuId).idle = some t
  idle_mode : ∀ {t}, (st.tcb t).schedClass = .idle → modeOf (st.tcb t).state ≠ .gone
  kernelTask : st.kernelTask = none
  initTask : st.initTask = none

/-- The code of every task is typed, and CPU `c` holds the locks `held c`. -/
structure Control (doom : Prop) (st : Kernel) (held : ℕ → List Spinlock) : Prop where
  running : ∀ {c t}, st.current c = some t → st.live t = true ∧ (st.tcb t).cpuId = c ∧
    Typed doom c t (st.tcb t).schedClass (st.tcb t).code (held c) (modeOf (st.tcb t).state)
  saved : ∀ {t}, st.live t = true → modeOf (st.tcb t).state ≠ .gone →
    st.current (st.tcb t).cpuId ≠ some t → Quiet (st.tcb t).code ∧
      Typed doom (st.tcb t).cpuId t (st.tcb t).schedClass (st.tcb t).code
        [.runQueue (st.tcb t).cpuId] .active
  owner : ∀ {l c}, st.owner l = some c ↔ l ∈ held c
  nodup : ∀ c, (held c).Nodup
  depth : ∀ c, (st.cpu c).lockDepth = (held c).length
  intr : ∀ c, held c ≠ [] → (st.cpu c).intrOn = false
  down : ∀ {c}, st.current c = none → held c = []

theorem Roster.congr {st st' : Kernel} (h : Roster st) (hlive : st'.live = st.live)
    (hnext : st'.nextTid = st.nextTid) (hcur : ∀ c, st'.current c = none ↔ st.current c = none)
    (hidle : ∀ c, (st'.rq c).idle = (st.rq c).idle)
    (hcpu : ∀ t, (st'.tcb t).cpuId = (st.tcb t).cpuId)
    (hprio : ∀ t, (st'.tcb t).priority = (st.tcb t).priority)
    (hcls : ∀ t, (st'.tcb t).schedClass = (st.tcb t).schedClass)
    (hmode : ∀ t, (st.tcb t).schedClass = .idle → modeOf (st.tcb t).state ≠ .gone →
      modeOf (st'.tcb t).state ≠ .gone)
    (hk : st'.kernelTask = st.kernelTask) (hi : st'.initTask = st.initTask) : Roster st' := by
  refine ⟨?_, ?_, ?_, ?_, ?_, ?_, fun {t} ht => ?_, hk.trans h.kernelTask, hi.trans h.initTask⟩
  rotate_right
  · rw [hcls] at ht
    exact hmode t ht (h.idle_mode ht)
  all_goals simp only [hlive, hnext, ne_eq, hcur, hidle, hcpu, hprio, hcls]
  exacts [h.lt, h.up, h.priority, h.idle, h.idle_live, h.idle_eq]

namespace Control

variable {st st' : Kernel} {held : ℕ → List Spinlock} {t : Tid}

section

variable (h : Control doom st held)
include h

theorem unique (hc : st.current c = some t) {c' : ℕ} (hc' : st.current c' = some t) : c' = c :=
  (h.running hc').2.1.symm.trans (h.running hc).2.1

theorem congr (hcur : ∀ c, st'.current c = st.current c)
    (hlive : st'.live = st.live) (hb : ∀ t, (st.tcb t).Alike (st'.tcb t))
    (hcode : ∀ t, (st'.tcb t).code = (st.tcb t).code) (howner : st'.owner = st.owner)
    (hcpu : st'.cpu = st.cpu) : Control doom st' held := by
  refine ⟨?_, ?_, ?_, h.nodup, ?_, ?_, ?_⟩
  all_goals simp only [hcur, hlive, (hb _).cpuId, (hb _).schedClass, hcode, (hb _).state, howner, hcpu]
  exacts [h.running, h.saved, h.owner, h.depth, h.intr, h.down]

theorem update (h' : List Spinlock) (hc : st.current c = some t)
    (hcur : ∀ c', st'.current c' = st.current c') (hlive : st'.live = st.live)
    (hcpuId : ∀ x, (st'.tcb x).cpuId = (st.tcb x).cpuId)
    (hcls : ∀ x, (st'.tcb x).schedClass = (st.tcb x).schedClass)
    (hother : ∀ x ≠ t, (st'.tcb x).code = (st.tcb x).code ∧
      modeOf (st'.tcb x).state = modeOf (st.tcb x).state)
    (ht : Typed doom c t (st.tcb t).schedClass (st'.tcb t).code h' (modeOf (st'.tcb t).state))
    (howner : ∀ l c', st'.owner l = some c' ↔ l ∈ update held c h' c')
    (hcpu : ∀ c' ≠ c, st'.cpu c' = st.cpu c') (hnodup : h'.Nodup)
    (hdepth : (st'.cpu c).lockDepth = h'.length) (hintr : h' ≠ [] → (st'.cpu c).intrOn = false) :
    Control doom st' (update held c h') := by
  have hid := (h.running hc).2.1
  refine ⟨fun {c' x} hx => ?_, fun {x} hl hmode hx => ?_, fun {l c'} => howner l c', fun c' => ?_,
    fun c' => ?_, fun c' hne => ?_, fun {c'} hnone => ?_⟩
  · rw [hcur] at hx
    obtain ⟨hl, hidx, htyped⟩ := h.running hx
    rw [hlive, hcpuId, hcls]
    refine ⟨hl, hidx, ?_⟩
    rcases eq_or_ne x t with rfl | hxt
    · obtain rfl : c' = c := hidx.symm.trans hid
      rwa [update_self]
    · have hcc : c' ≠ c := by
        rintro rfl
        rw [hc] at hx
        exact hxt (Option.some_injective _ hx).symm
      rw [update_of_ne hcc, (hother x hxt).1, (hother x hxt).2]
      exact htyped
  · rw [hcur, hcpuId] at hx
    have hxt : x ≠ t := by
      rintro rfl
      rw [hid] at hx
      exact hx hc
    rw [hcpuId, hcls, (hother x hxt).1]
    rw [(hother x hxt).2] at hmode
    exact h.saved (hlive ▸ hl) hmode hx
  · rcases eq_or_ne c' c with rfl | hcc
    · rwa [update_self]
    · rw [update_of_ne hcc]
      exact h.nodup c'
  · rcases eq_or_ne c' c with rfl | hcc
    · rwa [update_self]
    · rw [update_of_ne hcc, hcpu c' hcc]
      exact h.depth c'
  · rcases eq_or_ne c' c with rfl | hcc
    · rw [update_self] at hne
      exact hintr hne
    · rw [update_of_ne hcc] at hne
      rw [hcpu c' hcc]
      exact h.intr c' hne
  · rw [hcur] at hnone
    have hcc : c' ≠ c := by
      rintro rfl
      rw [hc] at hnone
      cases hnone
    rw [update_of_ne hcc]
    exact h.down hnone

theorem advance (hc : st.current c = some t)
    (hcur : ∀ c', st'.current c' = st.current c') (hlive : st'.live = st.live)
    (hcpuId : ∀ x, (st'.tcb x).cpuId = (st.tcb x).cpuId)
    (hcls : ∀ x, (st'.tcb x).schedClass = (st.tcb x).schedClass)
    (hother : ∀ x ≠ t, (st'.tcb x).code = (st.tcb x).code ∧
      modeOf (st'.tcb x).state = modeOf (st.tcb x).state)
    (ht : Typed doom c t (st.tcb t).schedClass (st'.tcb t).code (held c) (modeOf (st'.tcb t).state))
    (howner : st'.owner = st.owner) (hcpu : ∀ c', (st'.cpu c').lockDepth = (st.cpu c').lockDepth)
    (hcpu' : ∀ c' ≠ c, st'.cpu c' = st.cpu c')
    (hintr : held c ≠ [] → (st'.cpu c).intrOn = false) : Control doom st' held := by
  have hupd := h.update (held c) hc hcur hlive hcpuId hcls hother ht ?_ hcpu' (h.nodup c)
    (by rw [hcpu]; exact h.depth c) hintr
  · rwa [update_eq_self] at hupd
  · intro l c'
    rw [howner, update_eq_self]
    exact h.owner

end

end Control

end Lume.Sched
