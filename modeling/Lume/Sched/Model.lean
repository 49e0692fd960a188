import Lume.Config
import Lume.Foundation.Ring
import Lume.Foundation.Transition
import Mathlib.Data.BitVec

/-!
# Tasks, run queues and wait queues

The scheduler and the task life cycle: `kernel/sched_core.cc`, `kernel/sched_class_o1.cc`,
`kernel/sched_internal.h`, `kernel/waitqueue.cc`, `kernel/task.cc` and `kernel/sync/spinlock.cc`.
Any number of CPUs run kernel code at once. The kernel code of a task is the list of operations
that it still has to perform, which the scheduler leaves in place when it switches away: a
context switch is a change of the current task and nothing else. An operation is what the source
does between two lock operations, or a lock operation; a step of the system is one operation of
one CPU, so that runs are all interleavings of the sections that the locks protect.

`schedule` and the wait functions appear as programs of such operations. The task control blocks
are linked by `run_link`, shared by run queues and wait queues, and by `sibling`; both are
intrusive links, and their pointers are part of the state. Memory of a control block that was
reclaimed is not given out again, and the one place where the code follows a pointer to such a
block stops the machine.

## Main definitions

* `Tcb`, `RunQueue`, `Kernel`: the state
* `Op`: the operations
* `Kernel.perform`: what an operation does
* `Call`, `Irq`, `Act`: what a task may call, what an interrupt handler may do, what a CPU does
* `Kernel.Step`: one step of one CPU
-/

namespace Lume.Sched

/-! ## Tasks and locks -/

/-- Addresses of task control blocks. -/
abbrev Tid := ℕ

/-- `TaskState` -/
inductive TaskState
  | runnable | running | sleeping | zombie | dead
deriving DecidableEq

/-- `SchedClass`: `g_sched_class_o1` and `g_sched_class_idle`. -/
inductive SchedClass
  | o1 | idle
deriving DecidableEq

/-- Wait queues: `wait_chld` of a task, a queue that is used without an external lock, and a
queue that waits for a condition under an external lock. -/
inductive WaitQueue
  | chld (t : Tid)
  | plain (n : ℕ)
  | cond (n : ℕ)
deriving DecidableEq

/-- Spinlocks: `g_task_list_lock`, the locks of run queues and wait queues, and the external lock
of a condition. -/
inductive Spinlock
  | taskList
  | runQueue (c : ℕ)
  | waitQueue (w : WaitQueue)
  | external (n : ℕ)
deriving DecidableEq

/-- List heads that a `run_link` may be linked to: `queues_[p]` of CPU `c`, and a wait queue. -/
inductive RunHead
  | queue (c p : ℕ)
  | wait (w : WaitQueue)
deriving DecidableEq

/-! ## Operations -/

/-- What kernel code does, one lock operation or section at a time. -/
inductive Op
  /-- `Spinlock::acquire`, `Spinlock::release` -/
  | acquire (l : Spinlock)
  | release (l : Spinlock)
  /-- A call of `schedule`; its section, which ends in another task; and its return, with the
  interrupt flag of the call. -/
  | schedule
  | pick
  | returned (intr : Bool)
  /-- The sections of `sched_tick` and `sched_yield`, and `sched_check_preempt`. -/
  | tick
  | yield
  | checkPreempt
  /-- The sections of `WaitQueue::sleep`, `wake_one` and `wake_all`, and of `sched_enqueue` for
  task `t` on the run queue of CPU `c`. -/
  | link (w : WaitQueue)
  | wakeOne (w : WaitQueue)
  | wakeAll (w : WaitQueue)
  | enqueue (c : ℕ) (t : Tid)
  /-- `task_exit`: its start, moving the children to foster parent `f`, the change to `Zombie`,
  and what comes after its last call. -/
  | exit (code : ℤ)
  | reparent (f : Tid)
  | zombie
  | unreachable
  /-- `task_wait`: the head of its loop and the search for a zombie; `task_list_remove` and the
  rest of `task_destroy`. -/
  | wait
  | scan
  | listRemove (z : Tid)
  | reclaim (z : Tid)
  /-- `task_fork` and `kthread_create` up to the first lock, which may lack memory; linking the
  new task to its parent, and `task_list_add`. -/
  | fork (ok : Bool)
  | kthreadCreate (priority : ℕ) (ok : Bool)
  | adopt (p x : Tid)
  | listAdd (x : Tid)
  /-- `intr_on` of `kthread_entry`, the return from an interrupt, and `userret`. -/
  | intrOn
  | iret
  | userret
  /-- Clients of a condition `n`: testing it under the external lock, making it true and waking
  sleepers, making it false; the return of `sleep` to a client that saw the condition false after
  it had been made true `e` times, and the end of the wake-up that was the `e`-th one. -/
  | check (n : ℕ)
  | raise (n : ℕ) (all : Bool)
  | reset (n : ℕ)
  | woken (n e : ℕ)
  | notified (n e : ℕ)
deriving DecidableEq

/-- The lock that an operation takes. -/
def Op.lock? : Op → Option Spinlock
  | .acquire l => some l
  | _ => none

/-! ## The state -/

/-- `TaskControlBlock`. The saved context and the kernel stack are the operations that the task
still has to perform. -/
structure Tcb where
  state : TaskState
  priority : ℕ
  cpuId : ℕ
  timeSlice : ℤ
  parent : Option Tid
  exitCode : ℤ
  schedClass : SchedClass
  code : List Op

/-- `O1RunQueue`, without its lists. The number of tasks is bounded by the number of process
identifiers, so that the counters do not wrap. -/
structure O1RunQueue where
  bitmap : BitVec 32
  nrRunning : ℕ

/-- `RunQueue` -/
structure RunQueue where
  current : Option Tid
  idle : Option Tid
  needResched : Bool
  nrRunning : ℕ
  o1 : O1RunQueue

/-- `CpuSyncState`, and the interrupt flag of the CPU. -/
structure CpuSync where
  lockDepth : ℤ
  intrWasOn : Bool
  intrOn : Bool

/-- How the machine stops. -/
inductive Halt
  | doubleLock (l : Spinlock)
  | invalidRelease (l : Spinlock)
  /-- The code followed a pointer to a control block that was reclaimed. -/
  | reclaimed (t : Tid)
  | unreachable
deriving DecidableEq

/-- The state of the scheduler and of all tasks. -/
structure Kernel where
  tcb : Tid → Tcb
  /-- The control blocks that are allocated. -/
  live : Tid → Bool
  nextTid : Tid
  /-- `run_link` and the heads it may be linked to. -/
  run : Links RunHead Tid
  /-- `children` and `sibling`. -/
  kin : Links Tid Tid
  rq : ℕ → RunQueue
  cpu : ℕ → CpuSync
  /-- The CPU that holds a lock. -/
  owner : Spinlock → Option ℕ
  /-- `g_all_tasks` -/
  allTasks : List Tid
  /-- `g_kernel_task` and `g_init_task` -/
  kernelTask : Option Tid
  initTask : Option Tid
  /-- The conditions of clients, and how often each was made true. -/
  cond : ℕ → Bool
  epoch : ℕ → ℕ
  halted : Option Halt

/-- `kNumPriorities` -/
def kNumPriorities : ℕ := 32

/-- `kIdlePriority` -/
def kIdlePriority : ℕ := 31

/-- `priority_to_timeslice` -/
def priorityToTimeslice (priority : ℕ) : ℤ := max 1 (20 - (priority * 19 / 31 : ℕ))

/-- One round of `ctz32`: skip `k` bits if they are clear. -/
def ctzRound (k : ℕ) (r : ℕ × BitVec 32) : ℕ × BitVec 32 :=
  if r.2 &&& BitVec.ofNat 32 (2 ^ k - 1) = 0 then (r.1 + k, r.2 >>> k) else r

/-- `ctz32` -/
def ctz32 (val : BitVec 32) : ℕ :=
  (ctzRound 1 (ctzRound 2 (ctzRound 4 (ctzRound 8 (ctzRound 16 (0, val)))))).1

namespace Kernel

variable (st : Kernel)

def setTcb (t : Tid) (f : Tcb → Tcb) : Kernel :=
  { st with tcb := Function.update st.tcb t (f (st.tcb t)) }

def setState (t : Tid) (s : TaskState) : Kernel := st.setTcb t fun b => { b with state := s }

def setCode (t : Tid) (k : List Op) : Kernel := st.setTcb t fun b => { b with code := k }

/-- What task `t` does next. -/
def push (t : Tid) (ops : List Op) : Kernel := st.setTcb t fun b => { b with code := ops ++ b.code }

def setRq (c : ℕ) (f : RunQueue → RunQueue) : Kernel :=
  { st with rq := Function.update st.rq c (f (st.rq c)) }

def setCpu (c : ℕ) (f : CpuSync → CpuSync) : Kernel :=
  { st with cpu := Function.update st.cpu c (f (st.cpu c)) }

def halt (h : Halt) : Kernel := { st with halted := some h }

/-- The task that CPU `c` runs. -/
def current (c : ℕ) : Option Tid := (st.rq c).current

/-! ## Spinlocks -/

/-- `sync::push_intr` -/
def pushIntr (s : CpuSync) : CpuSync where
  lockDepth := s.lockDepth + 1
  intrWasOn := if s.lockDepth = 0 then s.intrOn else s.intrWasOn
  intrOn := false

/-- `sync::pop_intr` -/
def popIntr (s : CpuSync) : CpuSync where
  lockDepth := s.lockDepth - 1
  intrWasOn := s.intrWasOn
  intrOn := if s.lockDepth - 1 = 0 ∧ s.intrWasOn then true else s.intrOn

/-- `Spinlock::acquire`, when the lock is not held by another CPU. -/
def acquire (c : ℕ) (l : Spinlock) : Kernel :=
  let st := st.setCpu c pushIntr
  if st.owner l = some c then st.halt (.doubleLock l)
  else { st with owner := Function.update st.owner l (some c) }

/-- `Spinlock::release` -/
def release (c : ℕ) (l : Spinlock) : Kernel :=
  if st.owner l = some c then
    { st with owner := Function.update st.owner l none }.setCpu c popIntr
  else st.halt (.invalidRelease l)

/-! ## The scheduling classes -/

/-- `o1_enqueue_task` -/
def o1Enqueue (c : ℕ) (t : Tid) : Kernel :=
  let prio := (st.tcb t).priority
  ({ st with run := st.run.pushBack (.queue c prio) t }.setRq c fun rq =>
    { rq with
      nrRunning := rq.nrRunning + 1
      o1 := ⟨rq.o1.bitmap ||| (1#32 <<< prio), rq.o1.nrRunning + 1⟩ }).setState t .runnable

/-- `o1_dequeue_task` -/
def o1Dequeue (c : ℕ) (t : Tid) : Kernel :=
  let prio := (st.tcb t).priority
  let run := (st.run.unlink t).init (.inr t)
  { st with run := run }.setRq c fun rq =>
    { rq with
      nrRunning := rq.nrRunning - 1
      o1 := ⟨if run.isEmpty (.queue c prio) then rq.o1.bitmap &&& ~~~(1#32 <<< prio) else rq.o1.bitmap,
        rq.o1.nrRunning - 1⟩ }

/-- `O1RunQueue::pick_next` -/
def o1PickNext (c : ℕ) : Option Tid :=
  if (st.rq c).o1.bitmap = 0 then none
  else st.run.first (.queue c (ctz32 (st.rq c).o1.bitmap))

/-- `enqueue_task` of the class of a task. -/
def enqueueTask (c : ℕ) (t : Tid) : Kernel :=
  match (st.tcb t).schedClass with
  | .o1 => st.o1Enqueue c t
  | .idle => st

/-- `dequeue_task` of the class of a task. -/
def dequeueTask (c : ℕ) (t : Tid) : Kernel :=
  match (st.tcb t).schedClass with
  | .o1 => st.o1Dequeue c t
  | .idle => st

/-- `pick_next_task`: the classes in order. -/
def pickNextTask (c : ℕ) : Option Tid := st.o1PickNext c <|> (st.rq c).idle

/-- `schedule` puts the task that runs back on its queue, unless it has stopped running. -/
def putBack (c : ℕ) (prev : Tid) : Kernel :=
  if (st.tcb prev).state = .running then (st.setState prev .runnable).enqueueTask c prev else st

/-- `schedule` goes on with the task that runs already. -/
def keepOn (c : ℕ) (next : Tid) : Kernel :=
  ((st.setState next .running).dequeueTask c next).setRq c fun rq => { rq with needResched := false }

/-- `schedule` switches to another task. -/
def switchTo (c : ℕ) (next : Tid) : Kernel :=
  let st := if some next ≠ (st.rq c).idle then st.dequeueTask c next else st
  (st.setState next .running).setRq c fun rq =>
    { rq with current := some next, needResched := false }

/-- The section of `schedule`, up to and with `context_switch`. -/
def pick (c : ℕ) (prev : Tid) : Kernel :=
  let st := st.putBack c prev
  match st.pickNextTask c with
  | none => st
  | some next => if prev = next then st.keepOn c next else st.switchTo c next

/-- `task_tick` of the class of the current task. -/
def taskTick (c : ℕ) (curr : Tid) : Kernel :=
  match (st.tcb curr).schedClass with
  | .idle => st
  | .o1 =>
    if some curr = (st.rq c).idle then st
    else
      let left := (st.tcb curr).timeSlice - 1
      if left ≤ 0 then
        (st.setTcb curr fun b => { b with timeSlice := priorityToTimeslice b.priority }).setRq c
          fun rq => { rq with needResched := true }
      else st.setTcb curr fun b => { b with timeSlice := left }

/-- The section of `sched_yield`. -/
def yieldTask (c : ℕ) (curr : Tid) : Kernel :=
  if some curr = (st.rq c).idle then st
  else
    let st := match (st.tcb curr).schedClass with
      | .idle => st
      | .o1 => st.setTcb curr fun b => { b with timeSlice := 0 }
    st.setRq c fun rq => { rq with needResched := true }

/-! ## Programs -/

/-- `sched_enqueue` -/
def enqueueProg (t : Tid) : List Op :=
  let c := (st.tcb t).cpuId
  [.acquire (.runQueue c), .enqueue c t, .release (.runQueue c)]

end Kernel

/-- `WaitQueue::sleep` -/
def sleepProg (w : WaitQueue) (external : Option Spinlock) : List Op :=
  [.acquire (.waitQueue w), .link w, .release (.waitQueue w)] ++
    (external.map Op.release).toList ++ [.schedule]

/-- `WaitQueue::wake_one` -/
def wakeOneProg (w : WaitQueue) : List Op :=
  [.acquire (.waitQueue w), .wakeOne w, .release (.waitQueue w)]

/-- `WaitQueue::wake_all` -/
def wakeAllProg (w : WaitQueue) : List Op :=
  [.acquire (.waitQueue w), .wakeAll w, .release (.waitQueue w)]

/-- `wake_all` or `wake_one` -/
def wakeProg (all : Bool) (w : WaitQueue) : List Op := if all then wakeAllProg w else wakeOneProg w

/-- `task_destroy` -/
def destroyProg (z : Tid) : List Op :=
  [.acquire .taskList, .listRemove z, .release .taskList, .reclaim z]

namespace Kernel

variable (st : Kernel)

/-! ## Wait queues -/

/-- The section of `sleep`. -/
def linkWaiter (w : WaitQueue) (t : Tid) : Kernel :=
  let st := st.setState t .sleeping
  { st with run := st.run.pushBack (.wait w) t }

/-- A wake-up takes a waiter off its queue. -/
def takeWaiter (x : Tid) : Kernel :=
  { st with run := (st.run.unlink x).init (.inr x) }.setState x .runnable

/-- The section of `wake_one`. -/
def wakeOne (w : WaitQueue) (t : Tid) : Kernel :=
  match st.run.first (.wait w) with
  | none => st
  | some x => (st.takeWaiter x).push t (st.enqueueProg x)

/-- A round of the loop of `wake_all`. -/
def wakeAll (w : WaitQueue) (t : Tid) : Kernel :=
  match st.run.first (.wait w) with
  | none => st
  | some x => (st.takeWaiter x).push t (st.enqueueProg x ++ [.wakeAll w])

/-! ## The life of a task -/

/-- `alloc_task` and `create_tcb`: a new control block with its kernel stack. The lock of its wait
queue is free, since no one else knows it. -/
def spawn (c priority : ℕ) (cls : SchedClass) (code : List Op) : Kernel :=
  let x := st.nextTid
  { st with
    nextTid := x + 1
    live := Function.update st.live x true
    tcb := Function.update st.tcb x
      ⟨.runnable, priority, c, priorityToTimeslice priority, none, 0, cls, code⟩
    run := (st.run.init (.inr x)).init (.inl (.wait (.chld x)))
    kin := (st.kin.init (.inr x)).init (.inl x) }

/-- `task_fork` up to the first lock. The child starts in `fork_child_entry`. -/
def fork (c : ℕ) (curr : Tid) : Kernel :=
  let x := st.nextTid
  let st := st.spawn c (st.tcb curr).priority .o1 [.release (.runQueue c), .userret]
  st.push curr ([.acquire .taskList, .adopt curr x, .release .taskList,
    .acquire .taskList, .listAdd x, .release .taskList] ++ st.enqueueProg x)

/-- `kthread_create` up to the first lock. The thread starts in `kthread_entry`. -/
def kthreadCreate (c : ℕ) (curr : Tid) (priority : ℕ) : Kernel :=
  let x := st.nextTid
  let st := st.spawn c priority .o1 [.release (.runQueue c), .intrOn]
  st.push curr ((match st.kernelTask with
      | none => []
      | some p => [.acquire .taskList, .adopt p x, .release .taskList]) ++
    [.acquire .taskList, .listAdd x, .release .taskList] ++ st.enqueueProg x)

/-- Link a new task to its parent. The source sets `parent` before it takes the lock; until then
no one else knows the task. -/
def adopt (p x : Tid) : Kernel :=
  let st := st.setTcb x fun b => { b with parent := some p }
  { st with kin := st.kin.pushBack p x }

/-- `task_exit` up to the change to `Zombie`: with a foster parent the children move there. -/
def exit (curr : Tid) (code : ℤ) : Kernel :=
  let st := st.setTcb curr fun b => { b with exitCode := code }
  st.push curr ((match st.initTask <|> st.kernelTask with
      | some f =>
        if st.kin.isEmpty curr then [] else [.acquire .taskList, .reparent f, .release .taskList]
      | none => []) ++ [.zombie])

/-- The loop of `task_exit` over the children, from node `n` on. -/
def reparentLoop (f : Tid) : ℕ → Tid ⊕ Tid → Kernel → Kernel
  | 0, _, st => st
  | _ + 1, .inl _, st => st
  | fuel + 1, .inr x, st =>
    let nextSib := st.kin.next (.inr x)
    let st := st.setTcb x fun b => { b with parent := some f }
    reparentLoop f fuel nextSib { st with kin := (st.kin.unlink x).pushBack f x }

/-- The children of `curr` move to `f`. -/
def reparent (f curr : Tid) : Kernel :=
  let st := reparentLoop f (st.nextTid + 1) (st.kin.next (.inl curr)) st
  { st with kin := st.kin.init (.inl curr) }

/-- `task_exit` from the change to `Zombie` on. -/
def becomeZombie (curr : Tid) : Kernel :=
  let st := st.setState curr .zombie
  match (st.tcb curr).parent with
  | none => st.push curr [.schedule, .unreachable]
  | some p =>
    if st.live p then st.push curr (wakeAllProg (.chld p) ++ [.schedule, .unreachable])
    else st.halt (.reclaimed p)

/-- The children of a task, in the order of the list. -/
def children (t : Tid) : List Tid := st.kin.walk (st.nextTid + 1) (st.kin.next (.inl t))

/-- The first zombie among the children. -/
def findZombie (t : Tid) : Option Tid := (st.children t).find? fun x => (st.tcb x).state = .zombie

/-- The section of `task_wait`, and what follows from it: there are no children, there is a zombie
to reclaim, or the caller goes to sleep and tries again. -/
def scan (curr : Tid) : Kernel :=
  if st.kin.isEmpty curr then st.push curr [.release .taskList]
  else match st.findZombie curr with
    | some z => st.push curr (.release .taskList :: destroyProg z)
    | none =>
      st.push curr (.release .taskList :: (sleepProg (.chld curr) (some .taskList) ++ [.wait]))

/-- The rest of `task_destroy`: the link to the siblings, the process identifier, the kernel stack
and the control block. -/
def reclaim (z : Tid) : Kernel :=
  { st with
    kin := (st.kin.unlink z).init (.inr z)
    live := Function.update st.live z false }

/-! ## Clients of a condition -/

/-- A client that holds the lock of condition `n` tests it, and sleeps if it is false. -/
def check (n : ℕ) (t : Tid) : Kernel :=
  if st.cond n then st.push t [.release (.external n)]
  else st.push t (sleepProg (.cond n) (some (.external n)) ++ [.woken n (st.epoch n)])

/-- A client that holds the lock of condition `n` makes it true, releases the lock and wakes all
sleepers, or one. -/
def raise (n : ℕ) (all : Bool) (t : Tid) : Kernel :=
  let e := st.epoch n + 1
  { st with cond := Function.update st.cond n true, epoch := Function.update st.epoch n e }.push t
    (Op.release (.external n) :: (wakeProg all (.cond n) ++ [Op.notified n e]))

/-! ## Steps -/

/-- What an operation does when task `t` performs it on CPU `c`. -/
def perform (c : ℕ) (t : Tid) : Op → Kernel
  | .acquire l => st.acquire c l
  | .release l => st.release c l
  | .schedule => st.push t [.acquire (.runQueue c), .pick, .release (.runQueue c),
      .returned (st.cpu c).intrOn]
  | .pick => st.pick c t
  | .returned _ => st
  | .tick => st.taskTick c t
  | .yield => st.yieldTask c t
  | .checkPreempt => if (st.rq c).needResched then st.push t [.schedule] else st
  | .link w => st.linkWaiter w t
  | .wakeOne w => st.wakeOne w t
  | .wakeAll w => st.wakeAll w t
  | .enqueue c' x => st.enqueueTask c' x
  | .exit code => st.exit t code
  | .reparent f => st.reparent f t
  | .zombie => st.becomeZombie t
  | .unreachable => st.halt .unreachable
  | .wait => st.push t [.acquire .taskList, .scan]
  | .scan => st.scan t
  | .listRemove z => { st with allTasks := st.allTasks.erase z }
  | .reclaim z => st.reclaim z
  | .fork ok => if ok then st.fork c t else st
  | .kthreadCreate priority ok => if ok then st.kthreadCreate c t priority else st
  | .adopt p x => st.adopt p x
  | .listAdd x => { st with allTasks := st.allTasks ++ [x] }
  | .intrOn => st.setCpu c fun s => { s with intrOn := true }
  | .iret => st.setCpu c fun s => { s with intrOn := true }
  | .userret => st.setCpu c fun s => { s with intrOn := true }
  | .check n => st.check n t
  | .raise n all => st.raise n all t
  | .reset n => { st with cond := Function.update st.cond n false }
  | .woken _ _ => st
  | .notified _ _ => st

/-- CPU `c` performs the next operation of its current task. -/
def stepCpu (c : ℕ) : Kernel :=
  match st.current c with
  | none => st
  | some t =>
    match (st.tcb t).code with
    | [] => st
    | op :: k => (st.setCode t k).perform c t op

end Kernel

/-- What a task calls when it runs its own code. -/
inductive Call
  | schedule
  | yield
  | checkPreempt
  | sleep (n : ℕ)
  | wakeOne (n : ℕ)
  | wakeAll (n : ℕ)
  | fork (ok : Bool)
  | kthreadCreate (priority : ℕ) (ok : Bool)
  | exit (code : ℤ)
  | wait
  /-- Wait for condition `n`, make it true and wake all sleepers or one, or make it false. -/
  | await (n : ℕ)
  | notify (n : ℕ) (all : Bool)
  | reset (n : ℕ)
deriving DecidableEq

/-- Calls that the idle thread may make. -/
def Call.byIdle : Call → Bool
  | .schedule | .yield => true
  | _ => false

/-- The priority that a call gives to a new task. -/
def Call.priority : Call → ℕ
  | .kthreadCreate priority _ => priority
  | _ => 0

/-- What an interrupt handler does: the timer tick, or a wake-up by a driver. -/
inductive Irq
  | tick
  | wakeOne (n : ℕ)
  | wakeAll (n : ℕ)
  | notify (n : ℕ) (all : Bool)
deriving DecidableEq

/-- The operations of a call on CPU `c`. -/
def Call.prog (c : ℕ) : Call → List Op
  | .schedule => [.schedule]
  | .yield => [.acquire (.runQueue c), .yield, .release (.runQueue c), .schedule]
  | .checkPreempt => [.checkPreempt]
  | .sleep n => sleepProg (.plain n) none
  | .wakeOne n => wakeOneProg (.plain n)
  | .wakeAll n => wakeAllProg (.plain n)
  | .fork ok => [.fork ok]
  | .kthreadCreate priority ok => [.kthreadCreate priority ok]
  | .exit code => [.exit code]
  | .wait => [.wait]
  | .await n => [.acquire (.external n), .check n]
  | .notify n all => [.acquire (.external n), .raise n all]
  | .reset n => [.acquire (.external n), .reset n, .release (.external n)]

/-- The operations of an interrupt handler on CPU `c`. -/
def Irq.prog (c : ℕ) : Irq → List Op
  | .tick => [.acquire (.runQueue c), .tick, .release (.runQueue c)]
  | .wakeOne n => wakeOneProg (.plain n)
  | .wakeAll n => wakeAllProg (.plain n)
  | .notify n all => [.acquire (.external n), .raise n all]

/-- What a CPU does in a step. -/
inductive Act
  /-- The current task performs its next operation. -/
  | step
  /-- The current task makes a call, or sets its interrupt flag. -/
  | call (a : Call)
  | setIntr (on : Bool)
  /-- An interrupt is taken. -/
  | irq (h : Irq)
  /-- `sched_init_ap` -/
  | boot
deriving DecidableEq

/-- What a CPU does, and which. -/
structure Label where
  cpu : ℕ
  act : Act
deriving DecidableEq

namespace Kernel

variable (st : Kernel)

/-- `sched_init_ap`, and `sched_init` on the boot CPU: the idle thread, and a task for the code
that runs. -/
def bringUp (c : ℕ) : Kernel :=
  let idle := st.nextTid
  let st := st.spawn c kIdlePriority .idle [.release (.runQueue c), .intrOn]
  let boot := st.nextTid
  let st := (st.spawn c 0 .o1 []).setState boot .running
  st.setRq c fun rq => { rq with idle := some idle, current := some boot }

/-- The idle thread makes no call that blocks it, and priorities are below `kNumPriorities`. -/
def MayCall (t : Tid) (a : Call) : Prop :=
  (a.byIdle = true ∨ (st.tcb t).schedClass = .o1) ∧ a.priority < kNumPriorities

instance (t : Tid) (a : Call) : Decidable (st.MayCall t a) := inferInstanceAs (Decidable (_ ∧ _))

/-- What CPU `c` can do while it runs task `t`. An operation may have to wait for a lock of another
CPU. -/
def Ready (c : ℕ) (t : Tid) : Act → Prop
  | .step => ∃ op ∈ (st.tcb t).code.head?, ∀ l ∈ op.lock?, st.owner l = none ∨ st.owner l = some c
  | .call a => (st.tcb t).code = [] ∧ st.MayCall t a
  | .setIntr _ => (st.tcb t).code = []
  | .irq _ => (st.cpu c).intrOn = true
  | .boot => False

instance (c : ℕ) (t : Tid) : ∀ a, Decidable (st.Ready c t a)
  | .step => inferInstanceAs (Decidable (∃ op ∈ _, ∀ l ∈ _, _))
  | .call _ => inferInstanceAs (Decidable (_ ∧ _))
  | .setIntr _ => inferInstanceAs (Decidable (_ = _))
  | .irq _ => inferInstanceAs (Decidable (_ = _))
  | .boot => inferInstanceAs (Decidable False)

/-- The steps that a CPU can take: a CPU that is not up yet can only come up. -/
def Permitted (l : Label) : Prop :=
  st.halted = none ∧ l.cpu < kMaxCpus ∧
    (st.current l.cpu = none ∧ l.act = .boot ∨ ∃ t ∈ st.current l.cpu, st.Ready l.cpu t l.act)

instance (l : Label) : Decidable (st.Permitted l) := inferInstanceAs (Decidable (_ ∧ _ ∧ _))

/-- The step of a CPU. -/
def exec (l : Label) : Kernel :=
  match l.act, st.current l.cpu with
  | .boot, _ => st.bringUp l.cpu
  | .step, _ => st.stepCpu l.cpu
  | .call a, some t => st.setCode t (a.prog l.cpu)
  | .setIntr on, some _ => st.setCpu l.cpu fun s => { s with intrOn := on }
  | .irq h, some t => (st.setCpu l.cpu fun s => { s with intrOn := false }).push t
      (h.prog l.cpu ++ [.iret])
  | _, none => st

/-- One step of one CPU. -/
def Step (st : Kernel) (l : Label) (st' : Kernel) : Prop := st.Permitted l ∧ st' = st.exec l

/-- Memory at boot. -/
def blank : Kernel where
  tcb _ := ⟨.dead, 0, 0, 0, none, 0, .o1, []⟩
  live _ := false
  nextTid := 0
  run := ⟨id, id⟩
  kin := ⟨id, id⟩
  rq _ := ⟨none, none, false, 0, ⟨0, 0⟩⟩
  cpu _ := ⟨0, false, false⟩
  owner _ := none
  allTasks := []
  kernelTask := none
  initTask := none
  cond _ := false
  epoch _ := 0
  halted := none

/-- The state after `sched_init`. -/
def init : Kernel := blank.bringUp 0

end Kernel

end Lume.Sched
