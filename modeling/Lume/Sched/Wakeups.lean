import Lume.Sched.Reaping

/-!
# No wake-up is lost

A client that finds its condition false sleeps under the lock of the condition; a client that makes
the condition true releases that lock and wakes all sleepers, or one. Between the test of a sleeper
and its being linked on the queue the lock is held, so that whoever makes the condition true finds
the sleeper on the queue, or linked behind those it has to wake. The section of a wake-up holds the
lock of the queue until every task it takes off is on its run queue.

## Main definitions

* `awaits k`: the condition that code `k` sleeps for, and how often it had been true before
* `Kernel.Solo`: `wake_one` is only used for a single sleeper
* `Wakeful st Q log`: the invariant; `log` are the wake-ups that are over

## Main results

* `wakeups_not_lost`
-/

namespace Lume.Sched

/-! ## Sleepers -/

/-- The condition that a task sleeps for, and how often it had been made true when the task saw it
false: the last thing that such a task does is to return from `sleep`. -/
def awaits (k : List Op) : Option (ℕ × ℕ) :=
  match k.getLast? with
  | some (.woken n s) => some (n, s)
  | _ => none

/-- The condition of a wait queue. -/
def WaitQueue.cond? : WaitQueue → Option ℕ
  | .cond n => some n
  | _ => none

/-- What a sleeper does from `link` on. -/
def linkCode (n s : ℕ) : List Op :=
  [.link (.cond n), .release (.waitQueue (.cond n)), .release (.external n), .schedule, .woken n s]

theorem awaits_append {p k : List Op} (hk : k ≠ []) : awaits (p ++ k) = awaits k := by
  rw [awaits, List.getLast?_append_of_ne_nil p hk, awaits]

theorem awaits_eq_some {k : List Op} {n s : ℕ} :
    awaits k = some (n, s) ↔ k.getLast? = some (.woken n s) := by
  unfold awaits
  split
  · rename_i he
    rw [he]
    simp
  · rename_i hne
    constructor
    · intro h
      cases h
    · intro h
      exact absurd h (hne n s)

theorem awaits_eq_none {k : List Op} (h : ∀ n s, Op.woken n s ∉ k) : awaits k = none := by
  refine Option.eq_none_iff_forall_not_mem.mpr fun ⟨n, s⟩ hns => ?_
  exact h n s (List.mem_of_getLast? (awaits_eq_some.mp hns))

theorem Kernel.Goes.awaits {st : Kernel} {l : Label} {t : Tid} {k k' : List Op} (h : st.Goes l t k k') :
    awaits k' = awaits k ∨ (∃ n, k = [.check n] ∧ awaits k' = some (n, st.epoch n)) ∨
      (∃ n s, k = [.woken n s]) ∧ awaits k' = none := by
  cases h with
  | @op op k hop =>
    by_cases hk : k = []
    · subst hk
      rw [List.append_nil]
      by_cases hw : ∃ n s, op = .woken n s
      · obtain ⟨n, s, rfl⟩ := hw
        exact .inr (.inr ⟨⟨n, s, rfl⟩, rfl⟩)
      have hnone : Sched.awaits [op] = none :=
        awaits_eq_none fun n s hm => hw ⟨n, s, (List.mem_singleton.mp hm).symm⟩
      by_cases hch : ∃ n, op = .check n
      · obtain ⟨n, rfl⟩ := hch
        by_cases hn : st.cond n = true
        · refine .inl (Eq.trans ?_ hnone.symm)
          simp [pushes, hn, Sched.awaits]
        · refine .inr (.inl ⟨n, rfl, ?_⟩)
          simp [pushes, hn, Sched.awaits, sleepProg]
      · refine .inl (Eq.trans (awaits_eq_none fun n s hm => ?_) hnone.symm)
        exact hch ⟨n, pushedBy_of_mem _ hm⟩
    · refine .inl ?_
      rw [awaits_append hk, ← List.singleton_append, awaits_append hk]
  | call a =>
    refine .inl (awaits_eq_none fun n s => ?_)
    cases a <;> simp [Call.prog, sleepProg, wakeOneProg, wakeAllProg]
  | idle => exact .inl rfl
  | irq i k =>
    refine .inl ?_
    by_cases hk : k = []
    · subst hk
      refine awaits_eq_none fun n s => ?_
      cases i <;> simp [Irq.prog, wakeOneProg, wakeAllProg]
    · rw [awaits_append hk]

theorem Kernel.Goes.awaits_of_link {st : Kernel} {l : Label} {t : Tid} {k k' : List Op} {w : WaitQueue}
    (h : st.Goes l t k k') (hw : .link w ∈ k) : Sched.awaits k' = Sched.awaits k := by
  rcases h.awaits with he | ⟨n, rfl, -⟩ | ⟨⟨n, s, rfl⟩, -⟩
  · exact he
  · simp at hw
  · simp at hw

/-! ## The invariant -/

/-- Task `x` is about to be linked on the queue of condition `n`: it runs, holds the lock of the
condition, and the condition has not been made true since it saw it false. -/
structure Linking (st : Kernel) (x : Tid) (n : ℕ) : Prop where
  current : st.current (st.tcb x).cpuId = some x
  owner : st.owner (.external n) = some (st.tcb x).cpuId
  code : (st.tcb x).code = linkCode n (st.epoch n) ∨
    (st.tcb x).code = .acquire (.waitQueue (.cond n)) :: linkCode n (st.epoch n)

/-- The tasks on the list saw condition `n` false after it had been made true `e` times. -/
def Later (st : Kernel) (n e : ℕ) (q : List Tid) : Prop :=
  ∀ x ∈ q, ∀ s, awaits (st.tcb x).code = some (n, s) → e ≤ s

/-- No sleeper that saw condition `n` false before it had been made true `e` times is linked, or
about to be enqueued by a CPU that is not `busy`. -/
structure Cleared (st : Kernel) (Q : RunHead → List Tid) (n e : ℕ) (busy : ℕ → Prop) : Prop where
  queue : Later st n e (Q (.wait (.cond n)))
  pending : ∀ {c d x s}, (d, x) ∈ st.pendingAt c → awaits (st.tcb x).code = some (n, s) → s < e →
    busy c

/-- How far task `u` has come with the wake-up for the `e`-th time that condition `n` was made true,
when it still has to perform `p`: it has to wake, or it has woken. -/
inductive Phase (st : Kernel) (Q : RunHead → List Tid) (u : Tid) (n e : ℕ) : List Op → Prop
  | wakeAll (p : List Op) :
      Phase st Q u n e (p ++ [.wakeAll (.cond n), .release (.waitQueue (.cond n))])
  | wakeOne (p : List Op) (h : Later st n e (Q (.wait (.cond n))).tail) :
      Phase st Q u n e (p ++ [.wakeOne (.cond n), .release (.waitQueue (.cond n))])
  | cleared {p : List Op} (h : Cleared st Q n e fun c =>
      st.current c = some u ∧ .release (.waitQueue (.cond n)) ∈ p) : Phase st Q u n e p

theorem Phase.prepend {st : Kernel} {Q : RunHead → List Tid} {u : Tid} {n e : ℕ} {p : List Op}
    (h : Phase st Q u n e p) (q : List Op) : Phase st Q u n e (q ++ p) := by
  cases h with
  | wakeAll p =>
    rw [← List.append_assoc]
    exact .wakeAll _
  | wakeOne p h =>
    rw [← List.append_assoc]
    exact .wakeOne _ h
  | cleared h =>
    refine .cleared ⟨h.queue, fun hx ha hlt => ?_⟩
    obtain ⟨hc, hmem⟩ := h.pending hx ha hlt
    exact ⟨hc, List.mem_append_right q hmem⟩

/-- The invariant of sleepers and wake-ups; `log` are the wake-ups that are over. -/
structure Wakeful (st : Kernel) (Q : RunHead → List Tid) (log : List (ℕ × ℕ)) : Prop where
  waiter : ∀ {x a}, st.live x = true → awaits (st.tcb x).code = some a →
    (st.tcb x).schedClass = .o1 ∧ modeOf (st.tcb x).state ≠ .gone
  queued : ∀ {x w}, x ∈ Q (.wait w) → (awaits (st.tcb x).code).map Prod.fst = w.cond?
  linking : ∀ {x w}, st.live x = true → .link w ∈ (st.tcb x).code →
    (awaits (st.tcb x).code).map Prod.fst = w.cond? ∧ ∀ n, w = .cond n → Linking st x n
  pending : ∀ {c d x n s}, (d, x) ∈ st.pendingAt c → awaits (st.tcb x).code = some (n, s) →
    st.owner (.waitQueue (.cond n)) = some c ∧ ∃ k, st.codeAt c = .enqueue d x :: k ∨
      st.codeAt c = .acquire (.runQueue d) :: .enqueue d x :: k
  notifying : ∀ {u p n e k}, st.live u = true → (st.tcb u).code = p ++ .notified n e :: k →
    e ≤ st.epoch n ∧ Phase st Q u n e p
  done : ∀ {n e}, (n, e) ∈ log → e ≤ st.epoch n ∧ Cleared st Q n e fun _ => False

/-- The condition for which an operation makes a task wake one sleeper. -/
def Op.wakesOne? : Op → Option ℕ
  | .raise n false => some n
  | _ => none

/-- When a condition is made true for one sleeper, no more than one task is on its queue. -/
def Kernel.Solo (st : Kernel) (l : Label) : Prop :=
  ∀ n ∈ (st.nextOp l).bind (·.2.wakesOne?), (st.sleepers (.cond n)).length ≤ 1

instance (st : Kernel) (l : Label) : Decidable (st.Solo l) :=
  inferInstanceAs (Decidable (∀ n ∈ (st.nextOp l).bind _, _))

/-- The wake-up that an operation ends. -/
def Op.notified? : Op → Option (ℕ × ℕ)
  | .notified n e => some (n, e)
  | _ => none

/-- The wake-up that a step ends. -/
def Kernel.notified? (st : Kernel) (l : Label) : Option (ℕ × ℕ) := (st.nextOp l).bind (·.2.notified?)

theorem Kernel.notified?_eq_some {st : Kernel} {l : Label} {n e : ℕ} :
    st.notified? l = some (n, e) ↔ ∃ t, st.nextOp l = some (t, .notified n e) := by
  simp only [notified?, Option.bind_eq_some_iff, Prod.exists]
  constructor
  · rintro ⟨t, op, hop, hz⟩
    cases op <;> simp only [Op.notified?, Option.some_inj, reduceCtorEq, Prod.mk.injEq] at hz
    obtain ⟨rfl, rfl⟩ := hz
    exact ⟨t, hop⟩
  · rintro ⟨t, hop⟩
    exact ⟨t, _, hop, rfl⟩

/-! ## What a step does to sleepers -/

section Step

variable {doom : Prop} {st st' : Kernel} {held : ℕ → List Spinlock} {Q Q' : RunHead → List Tid}
  {K : Tid → List Tid} {l : Label} {log : List (ℕ × ℕ)} {x : Tid}

theorem Kernel.mem_onWait {w : WaitQueue} {q : List Tid} (hx : x ∈ st.onWait l w q) :
    x ∈ q ∨ st.nextOp l = some (x, .link w) := by
  unfold onWait at hx
  split at hx
  · rename_i t op hop
    cases op with
    | link w' =>
      change x ∈ (if w' = w then q ++ [t] else q) at hx
      split at hx
      · rename_i he
        rcases List.mem_append.mp hx with hx | hx
        · exact .inl hx
        · rw [List.mem_singleton.mp hx, ← he]
          exact .inr hop
      · exact .inl hx
    | wakeOne w' =>
      change x ∈ (if w' = w then q.tail else q) at hx
      split at hx
      exacts [.inl (List.mem_of_mem_tail hx), .inl hx]
    | wakeAll w' =>
      change x ∈ (if w' = w then q.tail else q) at hx
      split at hx
      exacts [.inl (List.mem_of_mem_tail hx), .inl hx]
    | _ => exact .inl hx
  · exact .inl hx

theorem Kernel.mem_tail_onWait {w : WaitQueue} {q : List Tid} (hx : x ∈ (st.onWait l w q).tail) :
    x ∈ q.tail ∨ st.nextOp l = some (x, .link w) := by
  unfold onWait at hx
  split at hx
  · rename_i t op hop
    cases op with
    | link w' =>
      change x ∈ (if w' = w then q ++ [t] else q).tail at hx
      split at hx
      · rename_i he
        cases q with
        | nil => cases hx
        | cons y q =>
          rcases List.mem_append.mp hx with hx | hx
          · exact .inl hx
          · rw [List.mem_singleton.mp hx, ← he]
            exact .inr hop
      · exact .inl hx
    | wakeOne w' =>
      change x ∈ (if w' = w then q.tail else q).tail at hx
      split at hx
      exacts [.inl (List.mem_of_mem_tail hx), .inl hx]
    | wakeAll w' =>
      change x ∈ (if w' = w then q.tail else q).tail at hx
      split at hx
      exacts [.inl (List.mem_of_mem_tail hx), .inl hx]
    | _ => exact .inl hx
  · exact .inl hx

namespace Sound

theorem held_of_wakes (h : Sound doom st held Q K) {c : ℕ} {t : Tid} {op : Op} {k : List Op}
    (ha : st.At c t op k) {w : WaitQueue} (hw : op.wakes? = some w) : held c = [.waitQueue w] := by
  have hty := h.typed ha
  cases op with
  | wakeOne w' =>
    obtain rfl : w' = w := Option.some_injective _ hw
    exact hty.1
  | wakeAll w' =>
    obtain rfl : w' = w := Option.some_injective _ hw
    exact hty.1
  | _ => cases hw

section

variable (h : Sound doom st held Q K) (hs : st.Step l st')
include h hs

theorem awaits_parked (hx : x < st.nextTid) (hm : modeOf (st.tcb x).state ≠ .active) :
    awaits (st'.tcb x).code = awaits (st.tcb x).code := by
  by_cases hc : st.current l.cpu = some x
  · have hty := ((h.control hs.halted).running hc).2.2
    rcases (h.goes hs hc).awaits with he | ⟨n, he, -⟩ | ⟨⟨n, s, he⟩, -⟩
    · exact he
    · rw [he] at hty
      exact absurd hty.2.1 hm
    · rw [he] at hty
      exact absurd hty.2.1 hm
  · rw [(h.local hs).code x hx hc]

theorem mem_wait
    (hQ : ∀ w, Q' (.wait w) = st.onWait l w (Q (.wait w))) {w : WaitQueue} (hx : x ∈ Q' (.wait w)) :
    awaits (st'.tcb x).code = awaits (st.tcb x).code ∧
      (x ∈ Q (.wait w) ∨ st.nextOp l = some (x, .link w)) := by
  rw [hQ] at hx
  rcases Kernel.mem_onWait hx with hx | hop
  · obtain ⟨hl, -, hsl⟩ := h.lists.member hx
    refine ⟨h.awaits_parked hs (h.roster.lt hl) ?_, .inl hx⟩
    rw [show (st.tcb x).state = .sleeping from hsl]
    decide
  · obtain ⟨k, ha, -⟩ := hs.at_of_nextOp hop
    refine ⟨?_, .inr hop⟩
    rcases (h.goes hs ha.current).awaits with he | ⟨n, he, -⟩ | ⟨⟨n, s, he⟩, -⟩
    · exact he
    · rw [ha.code] at he
      cases he
    · rw [ha.code] at he
      cases he

/-- A sleeper that some CPU is about to enqueue after a step was so before, or was on a wait queue
from which the step took it. -/
theorem mem_pending
    {c d : ℕ} {a : ℕ × ℕ} (hx : (d, x) ∈ st'.pendingAt c) (hlive : st'.live x = true)
    (ha : awaits (st'.tcb x).code = some a) :
    awaits (st.tcb x).code = some a ∧ ((d, x) ∈ st.pendingAt c ∨ c = l.cpu ∧
      ∃ t op w, st.nextOp l = some (t, op) ∧ op.wakes? = some w ∧ st.run.first (.wait w) = some x ∧
        (st.tcb x).cpuId = d ∧ x ∈ Q (.wait w)) := by
  have hC := h.control hs.halted
  have hL := h.local hs
  -- a task that is about to be enqueued, or linked, is not active
  have hold (hp : (d, x) ∈ st.pendingAt c) : awaits (st.tcb x).code = some a := by
    obtain ⟨hl, -, hr, -⟩ := h.lists.pending hp
    rw [← ha]
    refine (h.awaits_parked hs (h.roster.lt hl) ?_).symm
    rw [hr]
    decide
  suffices hor : (d, x) ∈ st.pendingAt c ∨ c = l.cpu ∧
      ∃ t op w, st.nextOp l = some (t, op) ∧ op.wakes? = some w ∧ st.run.first (.wait w) = some x ∧
        (st.tcb x).cpuId = d ∧ x ∈ Q (.wait w) by
    refine ⟨?_, hor⟩
    rcases hor with hp | ⟨-, t, op, w, -, -, -, -, hm⟩
    · exact hold hp
    · obtain ⟨hl, -, hsl⟩ := h.lists.member hm
      rw [← ha]
      refine (h.awaits_parked hs (h.roster.lt hl) ?_).symm
      rw [show (st.tcb x).state = .sleeping from hsl]
      decide
  rcases eq_or_ne c l.cpu with rfl | hne
  · cases hc : st.current l.cpu with
    | none =>
      -- a CPU comes up with nothing to do
      have ht := hs.taken
      obtain ⟨c, act⟩ := l
      cases ht with
      | boot hdown =>
        have hcur : (st.bringUp c).current c = some (st.nextTid + 1) :=
          (st.bringUp_current c c).trans (if_pos rfl)
        rw [Kernel.pendingAt_eq hcur, st.bringUp_boot] at hx
        cases hx
      | op hat =>
        rw [hat.current] at hc
        cases hc
      | call hcx | setIntr hcx | irq hcx =>
        rw [hcx] at hc
        cases hc
    | some t =>
      rcases h.current_step hs hc with hcur | ⟨-, hnil⟩
      · rw [Kernel.pendingAt_eq hcur] at hx
        rw [Kernel.pendingAt_eq hc]
        have hgo := h.goes hs hc
        revert hx hgo
        generalize (st'.tcb t).code = k'
        generalize (st.tcb t).code = k
        intro hx hgo
        cases hgo with
        | @op op k hop =>
          rw [pendingIn_append] at hx
          rcases List.mem_append.mp hx with hx | hx
          · rcases Kernel.pushedBy_of_mem _ (mem_pendingIn.mp hx) with ⟨w, hw, hf, hd⟩ | rfl
            · refine .inr ⟨rfl, t, op, w, hop, hw, hf, hd, ?_⟩
              rw [h.lists.rings.first] at hf
              exact List.mem_of_head? hf
            · -- a new task does not wait
              have hstart := hL.fresh _ le_rfl hlive
              simp only [startCodes, List.mem_cons, List.not_mem_nil, or_false] at hstart
              rcases hstart with he | he | he
              all_goals rw [he] at ha; cases ha
          · refine .inl (mem_pendingIn.mpr ?_)
            exact List.mem_cons_of_mem _ (mem_pendingIn.mp hx)
        | call a =>
          rw [pendingIn_of_quiet (a.quiet _)] at hx
          cases hx
        | idle => cases hx
        | irq i =>
          rw [pendingIn_append, pendingIn_of_quiet (i.quiet _), List.nil_append] at hx
          exact .inl hx
      · rw [hnil] at hx
        cases hx
  · refine .inl ?_
    have hcode : st'.codeAt c = st.codeAt c := by
      refine Kernel.codeAt_congr (hL.current c hne) fun y hy => ?_
      exact hL.code y (h.roster.lt (hC.running hy).1) fun hcy => hne (hC.unique hcy hy)
    rwa [Kernel.pendingAt, hcode] at hx

end

end Sound

theorem awaits_start {c : ℕ} {k : List Op} (hk : k ∈ startCodes c) :
    awaits k = none ∧ (∀ w, Op.link w ∉ k) ∧ ∀ n e, Op.notified n e ∉ k := by
  simp only [startCodes, List.mem_cons, List.not_mem_nil, or_false] at hk
  rcases hk with rfl | rfl | rfl
  all_goals exact ⟨rfl, by simp, by simp⟩

namespace Wakeful

section

variable (hW : Wakeful st Q log) (h : Sound doom st held Q K) (hs : st.Step l st')
include hW h hs

theorem waiter_step {a : ℕ × ℕ} (hl : st'.live x = true) (hx : awaits (st'.tcb x).code = some a) :
    (st'.tcb x).schedClass = .o1 ∧ modeOf (st'.tcb x).state ≠ .gone := by
  have hL := h.local hs
  rcases Nat.lt_or_ge x st.nextTid with hlt | hge
  · have hgone (hne : modeOf (st.tcb x).state ≠ .gone) (hz : (st.tcb x).code ≠ [.zombie]) :
        modeOf (st'.tcb x).state ≠ .gone := fun hg => (hL.gone x hlt hg).elim hne hz
    rw [hL.schedClass x hlt]
    by_cases hsame : awaits (st'.tcb x).code = awaits (st.tcb x).code
    · rw [hsame] at hx
      obtain ⟨hcls, hmode⟩ := hW.waiter (hL.live x hlt hl) hx
      refine ⟨hcls, hgone hmode fun hz => ?_⟩
      rw [hz] at hx
      cases hx
    · -- it has just found its condition false
      have hc : st.current l.cpu = some x := by
        by_contra hc
        exact hsame (by rw [hL.code x hlt hc])
      rcases (h.goes hs hc).awaits with he | ⟨n, he, -⟩ | ⟨-, he⟩
      · exact absurd he hsame
      · have hty := ((h.control hs.halted).running hc).2.2
        rw [he] at hty
        obtain ⟨-, hm, hcls, -⟩ := hty
        exact ⟨hcls, hgone (by rw [hm]; decide) (by rw [he]; simp)⟩
      · rw [hx] at he
        cases he
  · rw [(awaits_start (hL.fresh x hge hl)).1] at hx
    cases hx

theorem awaits_of_link {n : ℕ} (hop : st.nextOp l = some (x, .link (.cond n))) :
    awaits (st.tcb x).code = some (n, st.epoch n) := by
  obtain ⟨k, ha, -⟩ := hs.at_of_nextOp hop
  have hl := ((h.control hs.halted).running ha.current).1
  have hlk := (hW.linking hl (by rw [ha.code]; exact List.mem_cons_self ..)).2 n rfl
  rcases hlk.code with he | he
  · rw [he]
    rfl
  · rw [ha.code] at he
    cases he

theorem queued_step
    (hQ : ∀ w, Q' (.wait w) = st.onWait l w (Q (.wait w))) {w : WaitQueue} (hx : x ∈ Q' (.wait w)) :
    (awaits (st'.tcb x).code).map Prod.fst = w.cond? := by
  obtain ⟨hsame, hx | hop⟩ := h.mem_wait hs hQ hx
  · rw [hsame]
    exact hW.queued hx
  · obtain ⟨k, ha, -⟩ := hs.at_of_nextOp hop
    rw [hsame]
    exact (hW.linking ((h.control hs.halted).running ha.current).1
      (by rw [ha.code]; exact List.mem_cons_self ..)).1

end

theorem eq_cond (hW : Wakeful st Q log) {w : WaitQueue} (hx : x ∈ Q (.wait w)) {n s : ℕ}
    (ha : awaits (st.tcb x).code = some (n, s)) : w = .cond n := by
  have hwn := hW.queued hx
  rw [ha] at hwn
  cases w with
  | cond m => exact congrArg WaitQueue.cond (Option.some_injective _ hwn).symm
  | _ => cases hwn

theorem linking_other (h : Sound doom st held Q K) (hs : st.Step l st') {n : ℕ} (hx : x < st.nextTid)
    (hc : st.current l.cpu ≠ some x) (hlk : Linking st x n) : Linking st' x n := by
  have hL := h.local hs
  have hne : (st.tcb x).cpuId ≠ l.cpu := fun he => hc (he ▸ hlk.current)
  refine ⟨?_, ?_, ?_⟩
  · rw [hL.cpuId x hx, hL.current _ hne]
    exact hlk.current
  · rw [hL.cpuId x hx]
    exact h.owner_kept hs hlk.owner fun he => absurd he hne
  · rw [hL.code x hx hc, h.epoch_kept hs hlk.owner fun he => absurd he hne]
    exact hlk.code

section

variable (hW : Wakeful st Q log) (h : Sound doom st held Q K) (hs : st.Step l st')
include hW h hs

theorem linking_step {w : WaitQueue} (hl : st'.live x = true) (hx : .link w ∈ (st'.tcb x).code) :
    (awaits (st'.tcb x).code).map Prod.fst = w.cond? ∧ ∀ n, w = .cond n → Linking st' x n := by
  have hL := h.local hs
  have hC := h.control hs.halted
  rcases Nat.lt_or_ge x st.nextTid with hlt | hge
  · have hlx := hL.live x hlt hl
    by_cases hc : st.current l.cpu = some x
    · have hcpu : (st'.tcb x).cpuId = l.cpu := (hL.cpuId x hlt).trans (hC.running hc).2.1
      -- the task goes on with the lock of the condition
      have hgoon {n : ℕ} {op : Op} (hop : st.nextOp l = some (x, op)) (hpick : op ≠ .pick)
          (hrel : op ≠ .release (.external n)) (hraise : ∀ all, op ≠ .raise n all)
          (ho : st.owner (.external n) = some l.cpu)
          (hcode : (st'.tcb x).code = linkCode n (st.epoch n) ∨
            (st'.tcb x).code = .acquire (.waitQueue (.cond n)) :: linkCode n (st.epoch n)) :
          Linking st' x n := by
        refine ⟨?_, ?_, ?_⟩
        · rw [hcpu]
          refine (h.current_step hs hc).resolve_right fun ⟨hop', _⟩ => hpick ?_
          exact (Prod.mk.inj (Option.some_injective _ (hop.symm.trans hop'))).2
        · rw [hcpu]
          refine h.owner_kept hs ho fun _ t hop' => hrel ?_
          exact (Prod.mk.inj (Option.some_injective _ (hop.symm.trans hop'))).2
        · rw [h.epoch_kept hs ho fun _ t all hop' => hraise all
            (Prod.mk.inj (Option.some_injective _ (hop.symm.trans hop'))).2]
          exact hcode
      have hgo := h.goes hs hc
      generalize hk' : (st'.tcb x).code = k' at hgo hx hgoon ⊢
      generalize hk : (st.tcb x).code = k at hgo
      have hgo' := hgo
      cases hgo with
      | @op op k hop =>
        obtain ⟨k₀, ha, -⟩ := hs.at_of_nextOp hop
        have hty := h.typed ha
        obtain ⟨-, rfl⟩ := List.cons.inj (ha.code.symm.trans hk)
        rcases List.mem_append.mp hx with hxp | hxk
        · rcases Kernel.pushedBy_of_mem _ hxp with ⟨rfl, rfl⟩ | ⟨n, rfl, rfl, hn⟩
          · -- `task_wait` waits for no condition
            obtain ⟨-, -, -, rfl⟩ := hty
            rcases hgo'.awaits with he | ⟨n, he, -⟩ | ⟨⟨n, s, he⟩, -⟩
            · rw [he]
              exact ⟨rfl, fun n hn => by cases hn⟩
            · cases he
            · cases he
          · obtain ⟨hheld, -, -, rfl⟩ := hty
            have hcode : st.pushes l.cpu x (.check n) ++ [] =
                .acquire (.waitQueue (.cond n)) :: linkCode n (st.epoch n) := by
              simp [Kernel.pushes, hn, sleepProg, linkCode]
            refine ⟨by rw [hcode]; rfl, fun m hm => ?_⟩
            obtain rfl := WaitQueue.cond.inj hm
            refine hgoon hop (by simp) (by simp) (by simp) (hC.owner.mpr ?_) (.inr hcode)
            rw [hheld]
            exact List.mem_cons_self ..
        · have hmem : .link w ∈ (st.tcb x).code := by
            rw [hk]
            exact List.mem_cons_of_mem _ hxk
          obtain ⟨haw, hlk⟩ := hW.linking hlx hmem
          rw [hgo'.awaits_of_link (hk ▸ hmem), ← hk]
          refine ⟨haw, fun n hn => ?_⟩
          subst hn
          have hlk := hlk n rfl
          have ho := hlk.owner
          rw [(hC.running hc).2.1] at ho
          have hcode := hlk.code
          rw [hk] at hcode
          rcases hcode with he | he
          · obtain ⟨rfl, rfl⟩ := List.cons.inj he
            simp at hxk
          · obtain ⟨rfl, rfl⟩ := List.cons.inj he
            exact hgoon hop (by simp) (by simp) (by simp) ho (.inl rfl)
      | call a =>
        cases a with
        | sleep m =>
          have hw : w = .plain m := by simpa [Call.prog, sleepProg] using hx
          subst hw
          exact ⟨rfl, fun n hn => by cases hn⟩
        | _ => simp [Call.prog, wakeOneProg, wakeAllProg] at hx
      | idle => cases hx
      | irq i k _ hon =>
        have hmem : .link w ∈ k := by
          rcases List.mem_append.mp hx with hx | hx
          · cases i <;> simp [Irq.prog, wakeOneProg, wakeAllProg] at hx
          · exact hx
        obtain ⟨haw, hlk⟩ := hW.linking hlx (hk ▸ hmem)
        rw [hgo'.awaits_of_link hmem, ← hk]
        refine ⟨haw, fun n hn => ?_⟩
        -- interrupts are off while the lock is held
        have ho := (hlk n hn).owner
        rw [(hC.running hc).2.1] at ho
        rw [hC.intr l.cpu (List.ne_nil_of_mem (hC.owner.mp ho))] at hon
        cases hon
    · rw [hL.code x hlt hc] at hx ⊢
      obtain ⟨haw, hlk⟩ := hW.linking hlx hx
      exact ⟨haw, fun n hn => linking_other h hs hlt hc (hlk n hn)⟩
  · exact absurd hx ((awaits_start (hL.fresh x hge hl)).2.1 w)

theorem pending_step {c d n s : ℕ} (hx : (d, x) ∈ st'.pendingAt c) (hlive : st'.live x = true)
    (hawait : awaits (st'.tcb x).code = some (n, s)) :
    st'.owner (.waitQueue (.cond n)) = some c ∧ ∃ k, st'.codeAt c = .enqueue d x :: k ∨
      st'.codeAt c = .acquire (.runQueue d) :: .enqueue d x :: k := by
  have hL := h.local hs
  have hC := h.control hs.halted
  obtain ⟨hold, hor⟩ := h.mem_pending hs hx hlive hawait
  -- the CPU that is about to enqueue does not switch
  have hstay {t : Tid} (hct : st.current l.cpu = some t) (hcl : c = l.cpu) : st'.current l.cpu = some t := by
    refine (h.current_step hs hct).resolve_right fun ⟨_, hnil⟩ => ?_
    rw [hcl, hnil] at hx
    cases hx
  rcases hor with hp | ⟨rfl, t, op, w, hop, hw, hf, hd, hxw⟩
  · obtain ⟨ho, k, hcode⟩ := hW.pending hp hold
    rcases eq_or_ne c l.cpu with rfl | hne
    · obtain ⟨t, hct⟩ : ∃ t, st.current l.cpu = some t := by
        cases hct : st.current l.cpu with
        | none =>
          rw [Kernel.codeAt, hct] at hcode
          simp at hcode
        | some t => exact ⟨t, rfl⟩
      have hcur := hstay hct rfl
      rw [Kernel.codeAt_eq hcur]
      rw [Kernel.codeAt_eq hct] at hcode
      rw [Kernel.pendingAt_eq hcur] at hx
      have hnodup := h.lists.nodup l.cpu
      rw [Kernel.pendingAt_eq hct] at hnodup
      have hgo := h.goes hs hct
      generalize (st'.tcb t).code = k' at hgo hx
      generalize (st.tcb t).code = k₀ at hgo hcode hnodup
      cases hgo with
      | @op op k₀ hop =>
        rcases hcode with he | he
        · -- it is enqueued once
          obtain ⟨rfl, rfl⟩ := List.cons.inj he
          have hmem : x ∈ (pendingIn k₀).map Prod.snd := List.mem_map.mpr ⟨_, hx, rfl⟩
          exact absurd hmem (List.nodup_cons.mp hnodup).1
        · obtain ⟨rfl, rfl⟩ := List.cons.inj he
          refine ⟨h.owner_kept hs ho fun _ t' hop' => ?_, k, .inl rfl⟩
          rw [hop] at hop'
          cases hop'
      | call | idle => simp at hcode
      | irq i k₀ _ hon =>
        rw [hC.intr l.cpu (List.ne_nil_of_mem (hC.owner.mp ho))] at hon
        cases hon
    · have hsame : st'.codeAt c = st.codeAt c := by
        refine Kernel.codeAt_congr (hL.current c hne) fun y hy => ?_
        exact hL.code y (h.roster.lt (hC.running hy).1) fun hcy => hne (hC.unique hcy hy)
      rw [hsame]
      exact ⟨h.owner_kept hs ho fun he => absurd he hne, k, hcode⟩
  · -- it has just been taken off the queue
    obtain rfl := hW.eq_cond hxw hold
    obtain ⟨k, ha, -⟩ := hs.at_of_nextOp hop
    obtain ⟨r, hr⟩ := Kernel.pushes_of_wakes (c := l.cpu) (t := t) hw hf
    have hheld := h.held_of_wakes ha hw
    have ho : st.owner (.waitQueue (.cond n)) = some l.cpu :=
      hC.owner.mpr (by rw [hheld]; exact List.mem_cons_self ..)
    refine ⟨h.owner_kept hs ho fun _ t' hop' => ?_, ?_⟩
    · rw [hop] at hop'
      cases hop'
      cases hw
    · rw [Kernel.codeAt_eq (hstay ha.current rfl)]
      have hgo := h.goes hs ha.current
      rw [ha.code] at hgo
      generalize (st'.tcb t).code = k' at hgo
      cases hgo with
      | op hop' =>
        rw [hr, Kernel.enqueueProg, hd]
        exact ⟨_, .inr rfl⟩
      | irq i _ _ hon =>
        rw [hC.intr l.cpu (by rw [hheld]; simp)] at hon
        cases hon

theorem later_tail_step
    (hQ : ∀ w, Q' (.wait w) = st.onWait l w (Q (.wait w))) {n e : ℕ} (he : e ≤ st.epoch n)
    (hq : Later st n e (Q (.wait (.cond n))).tail) : Later st' n e (Q' (.wait (.cond n))).tail := by
  intro x hx s ha
  rw [(h.mem_wait hs hQ (List.mem_of_mem_tail hx)).1] at ha
  rw [hQ] at hx
  rcases Kernel.mem_tail_onWait hx with hx | hop
  · exact hq x hx s ha
  · rw [hW.awaits_of_link h hs hop] at ha
    cases ha
    exact he

theorem cleared_step
    (hQ : ∀ w, Q' (.wait w) = st.onWait l w (Q (.wait w))) (hL' : Lists st' Q' none) {n e : ℕ}
    (he : e ≤ st.epoch n) {busy busy' : ℕ → Prop} (hcl : Cleared st Q n e busy)
    (hbusy : ∀ {c d x s}, (d, x) ∈ st.pendingAt c → awaits (st.tcb x).code = some (n, s) →
      (d, x) ∈ st'.pendingAt c → busy c → busy' c) : Cleared st' Q' n e busy' := by
  constructor
  · intro x hx s ha
    obtain ⟨hsame, hor⟩ := h.mem_wait hs hQ hx
    rw [hsame] at ha
    rcases hor with hx | hop
    · exact hcl.queue x hx s ha
    · rw [hW.awaits_of_link h hs hop] at ha
      cases ha
      exact he
  · intro c d x s hx ha hlt
    obtain ⟨hold, hp | ⟨-, -, -, w, -, -, -, -, hxw⟩⟩ := h.mem_pending hs hx (hL'.pending hx).1 ha
    · exact hbusy hp hold hx (hcl.pending hp hold hlt)
    · obtain rfl := hW.eq_cond hxw hold
      exact absurd (hcl.queue x hxw s hold) (not_le.mpr hlt)

end

theorem no_pending (hW : Wakeful st Q log) (h : Sound doom st held Q K) {c c' d n s : ℕ} {t : Tid} {op : Op}
    {k : List Op} (ha : st.At c t op k) (hop : op.wakes? = some (.cond n))
    (hx : (d, x) ∈ st.pendingAt c') : awaits (st.tcb x).code ≠ some (n, s) := by
  intro hawait
  obtain ⟨ho, k', hcode⟩ := hW.pending hx hawait
  have hheld : Spinlock.waitQueue (.cond n) ∈ held c := by
    rw [h.held_of_wakes ha hop]
    exact List.mem_cons_self ..
  have hown := (h.control ha.halted).owner.mpr hheld
  obtain rfl : c = c' := Option.some_injective _ (hown.symm.trans ho)
  rw [Kernel.codeAt_eq ha.current, ha.code] at hcode
  rcases hcode with he | he
  all_goals
    obtain ⟨rfl, -⟩ := List.cons.inj he
    cases hop

section

variable (hW : Wakeful st Q log) (h : Sound doom st held Q K) (hs : st.Step l st') (hQ : ∀ w, Q'
  (.wait w) = st.onWait l w (Q (.wait w)))
include hW h hs hQ

theorem phase_other (hL' : Lists st' Q' none) {u : Tid} {n e : ℕ}
    {p : List Op} (he : e ≤ st.epoch n) (hph : Phase st Q u n e p)
    (hcur : ∀ c, st.current c = some u → st'.current c = some u) : Phase st' Q' u n e p := by
  cases hph with
  | wakeAll p => exact .wakeAll p
  | wakeOne p hq => exact .wakeOne p (hW.later_tail_step h hs hQ he hq)
  | cleared hcl =>
    refine .cleared (hW.cleared_step h hs hQ hL' he hcl fun _ _ _ hb => ?_)
    exact ⟨hcur _ hb.1, hb.2⟩

theorem phase_op (hL' : Lists st' Q' none) {u : Tid} {n e : ℕ}
    {op : Op} {b : List Op} (he : e ≤ st.epoch n) (hph : Phase st Q u n e (op :: b))
    (hop : st.nextOp l = some (u, op)) : Phase st' Q' u n e (st.pushes l.cpu u op ++ b) := by
  obtain ⟨k, ha, -⟩ := hs.at_of_nextOp hop
  have hC := h.control hs.halted
  have hone {c : ℕ} (hc : st.current c = some u) : c = l.cpu := hC.unique ha.current hc
  -- while the section of a wake-up runs, it is the only one that has sleepers to enqueue
  have hnew (hw : op.wakes? = some (.cond n)) {c d s : ℕ} {x : Tid} (hx : (d, x) ∈ st'.pendingAt c)
      (hawait : awaits (st'.tcb x).code = some (n, s)) : c = l.cpu ∧ x ∈ Q (.wait (.cond n)) := by
    obtain ⟨hold, hp | ⟨hc, -, -, w, -, -, -, -, hxw⟩⟩ := h.mem_pending hs hx (hL'.pending hx).1 hawait
    · exact absurd hold (hW.no_pending h ha hw hp)
    · obtain rfl := hW.eq_cond hxw hold
      exact ⟨hc, hxw⟩
  have hwait (hw : op.wakes? = some (.cond n)) : Q' (.wait (.cond n)) = (Q (.wait (.cond n))).tail := by
    rw [hQ, Kernel.onWait, hop]
    cases op with
    | wakeOne w =>
      obtain rfl : w = .cond n := Option.some_injective _ hw
      exact if_pos rfl
    | wakeAll w =>
      obtain rfl : w = .cond n := Option.some_injective _ hw
      exact if_pos rfl
    | _ => cases hw
  generalize hp : op :: b = p at hph
  cases hph with
  | wakeAll p =>
    cases p with
    | nil =>
      obtain ⟨rfl, rfl⟩ := List.cons.inj hp
      have hfirst := h.lists.rings.first (.wait (.cond n))
      cases hq : Q (.wait (.cond n)) with
      | nil =>
        -- the queue is empty: the loop is over
        refine (Phase.cleared ⟨?_, fun hx hawait _ => ?_⟩).prepend _
        · rw [hwait rfl, hq]
          exact fun x hx => by cases hx
        · have hm := (hnew rfl hx hawait).2
          rw [hq] at hm
          cases hm
      | cons x rest =>
        rw [hq] at hfirst
        have hpush : st.pushes l.cpu u (.wakeAll (.cond n)) = st.enqueueProg x ++ [.wakeAll (.cond n)] := by
          simp only [Kernel.pushes, hfirst, List.head?_cons]
        rw [hpush, List.append_assoc]
        exact .wakeAll _
    | cons o p =>
      obtain ⟨rfl, rfl⟩ := List.cons.inj hp
      exact (Phase.wakeAll p).prepend _
  | wakeOne p hq =>
    cases p with
    | nil =>
      obtain ⟨rfl, rfl⟩ := List.cons.inj hp
      refine .cleared ⟨?_, fun hx hawait _ => ⟨?_, by simp⟩⟩
      · intro x hx s hawait
        rw [(h.mem_wait hs hQ hx).1] at hawait
        rw [hwait rfl] at hx
        exact hq x hx s hawait
      · obtain ⟨rfl, -⟩ := hnew rfl hx hawait
        refine (h.current_step hs ha.current).resolve_right fun hpick => ?_
        rw [hpick.2] at hx
        cases hx
    | cons o p =>
      obtain ⟨rfl, rfl⟩ := List.cons.inj hp
      exact (Phase.wakeOne p (hW.later_tail_step h hs hQ he hq)).prepend _
  | cleared hcl =>
    subst hp
    refine (Phase.cleared (hW.cleared_step h hs hQ hL' he hcl fun {c d x s} hx hawait hx' hb => ?_)).prepend _
    obtain rfl := hone hb.1
    refine ⟨?_, ?_⟩
    · refine (h.current_step hs hb.1).resolve_right fun hpick => ?_
      rw [hpick.2] at hx'
      cases hx'
    · -- the lock is not released before the tasks are enqueued
      refine (List.mem_cons.mp hb.2).resolve_left fun hrel => ?_
      obtain ⟨-, k', hcode⟩ := hW.pending hx hawait
      rw [Kernel.codeAt_eq ha.current, ha.code, ← hrel] at hcode
      rcases hcode with he | he
      all_goals cases he

theorem notifying_step (hL' : Lists st' Q' none) (hsolo : st.Solo l)
    {u : Tid} {p k : List Op} {n e : ℕ} (hl : st'.live u = true)
    (hcode : (st'.tcb u).code = p ++ .notified n e :: k) :
    e ≤ st'.epoch n ∧ Phase st' Q' u n e p := by
  have hL := h.local hs
  have hC := h.control hs.halted
  rcases Nat.lt_or_ge u st.nextTid with hlt | hge
  · have hlu := hL.live u hlt hl
    by_cases hc : st.current l.cpu = some u
    · have hgo := h.goes hs hc
      -- the wake-up was under way before
      have hgoon {op : Op} {b : List Op} (hop : st.nextOp l = some (u, op))
          (hk : (st.tcb u).code = op :: b ++ .notified n e :: k) :
          e ≤ st'.epoch n ∧ Phase st' Q' u n e (st.pushes l.cpu u op ++ b) := by
        obtain ⟨he, hph⟩ := hW.notifying hlu hk
        exact ⟨he.trans (h.epoch_le hs n), hW.phase_op h hs hQ hL' he hph hop⟩
      rw [hcode] at hgo
      generalize hk : (st.tcb u).code = k₀ at hgo hgoon
      generalize hk' : p ++ .notified n e :: k = k' at hgo
      cases hgo with
      | @op op k₀ hop =>
        rcases List.append_eq_append_iff.mp hk' with ⟨b, hpush, hrest⟩ | ⟨b, rfl, rfl⟩
        · cases b with
          | nil =>
            rw [List.append_nil] at hpush
            rw [List.nil_append] at hrest
            subst hrest
            have hgo := hgoon (b := []) hop rfl
            rwa [List.append_nil, hpush] at hgo
          | cons o b =>
            -- the condition has just been made true
            obtain ⟨rfl, -⟩ := List.cons.inj hrest
            have hmem : .notified n e ∈ st.pushes l.cpu u op := by
              rw [hpush]
              exact List.mem_append_right p (List.mem_cons_self ..)
            obtain ⟨⟨all, rfl⟩, rfl⟩ := Kernel.pushedBy_of_mem _ hmem
            have hepoch : st.epoch n + 1 ≤ st'.epoch n := by
              obtain ⟨k, -, -, heq⟩ := hs.at_of_nextOp hop
              rw [heq]
              change _ ≤ Function.update st.epoch n (st.epoch n + 1) n
              rw [Function.update_self]
            refine ⟨hepoch, ?_⟩
            have hshape : .release (.external n) :: wakeProg all (.cond n) ++ .notified n (st.epoch n + 1) :: [] =
                p ++ .notified n (st.epoch n + 1) :: b := hpush
            have hnot : Op.notified n (st.epoch n + 1) ∉
                .release (.external n) :: wakeProg all (.cond n) := by
              cases all <;> simp [wakeProg, wakeAllProg, wakeOneProg]
            obtain ⟨rfl, -, -⟩ := (List.append_cons_inj_of_notMem hnot List.not_mem_nil).mp hshape
            cases all with
            | true => exact .wakeAll [.release (.external n), .acquire (.waitQueue (.cond n))]
            | false =>
              refine .wakeOne [.release (.external n), .acquire (.waitQueue (.cond n))] fun x hx => ?_
              have hlen := hsolo n (by rw [hop]; rfl)
              rw [Kernel.sleepers, h.linked_eq] at hlen
              rw [hQ, Kernel.onWait, hop] at hx
              have hnil : (Q (.wait (.cond n))).tail = [] := by
                rw [← List.length_eq_zero_iff, List.length_tail]
                omega
              change x ∈ (Q (.wait (.cond n))).tail at hx
              rw [hnil] at hx
              cases hx
        · exact hgoon hop rfl
      | call a =>
        have hmem : .notified n e ∈ a.prog l.cpu := hk' ▸ List.mem_append_right p (List.mem_cons_self ..)
        cases a <;> simp [Call.prog, sleepProg, wakeOneProg, wakeAllProg] at hmem
      | idle => simp at hk'
      | irq i k₀ hop hon =>
        -- the interrupt comes on top of the wake-up
        have hnot : .notified n e ∉ i.prog l.cpu ++ [.iret] := by
          cases i <;> simp [Irq.prog, wakeOneProg, wakeAllProg]
        obtain ⟨b, rfl, rfl⟩ : ∃ b, p = i.prog l.cpu ++ [.iret] ++ b ∧ k₀ = b ++ .notified n e :: k := by
          rcases List.append_eq_append_iff.mp hk' with ⟨b, hpush, hrest⟩ | ⟨b, hp, hrest⟩
          · cases b with
            | nil =>
              rw [List.append_nil] at hpush
              exact ⟨[], by rw [hpush, List.append_nil], hrest.symm⟩
            | cons o b =>
              obtain ⟨rfl, -⟩ := List.cons.inj hrest
              exact absurd (hpush ▸ List.mem_append_right p (List.mem_cons_self ..)) hnot
          · exact ⟨b, hp, hrest⟩
        obtain ⟨he, hph⟩ := hW.notifying hlu hk
        refine ⟨he.trans (h.epoch_le hs n), (hW.phase_other h hs hQ hL' he hph fun c hcu => ?_).prepend _⟩
        obtain rfl : c = l.cpu := hC.unique hc hcu
        refine (h.current_step hs hc).resolve_right fun hpick => ?_
        have hop' := hpick.1
        rw [hop] at hop'
        cases hop'
    · rw [hL.code u hlt hc] at hcode
      obtain ⟨he, hph⟩ := hW.notifying hlu hcode
      refine ⟨he.trans (h.epoch_le hs n), hW.phase_other h hs hQ hL' he hph fun c hcu => ?_⟩
      rw [hL.current c fun hcl => hc (hcl ▸ hcu)]
      exact hcu
  · refine absurd ?_ ((awaits_start (hL.fresh u hge hl)).2.2 n e)
    rw [hcode]
    exact List.mem_append_right p (List.mem_cons_self ..)

/-- **A step keeps the invariant of sleepers and wake-ups.** -/
theorem step (hL' : Lists st' Q' none) (hsolo : st.Solo l) :
    Wakeful st' Q' (log ++ (st.notified? l).toList) := by
  refine ⟨hW.waiter_step h hs, hW.queued_step h hs hQ, hW.linking_step h hs,
    fun hx => hW.pending_step h hs hx (hL'.pending hx).1, hW.notifying_step h hs hQ hL' hsolo,
    fun {n e} hmem => ?_⟩
  obtain ⟨he, hcl⟩ : e ≤ st.epoch n ∧ Cleared st Q n e fun _ => False := by
    rcases List.mem_append.mp hmem with hmem | hmem
    · exact hW.done hmem
    · -- the wake-up has come to its end
      obtain ⟨t, hop⟩ := Kernel.notified?_eq_some.mp (Option.mem_toList.mp hmem)
      obtain ⟨k, ha, -⟩ := hs.at_of_nextOp hop
      have hl := ((h.control hs.halted).running ha.current).1
      obtain ⟨he, hph⟩ := hW.notifying (p := []) hl ha.code
      refine ⟨he, ?_⟩
      generalize hp : ([] : List Op) = p at hph
      cases hph with
      | wakeAll p => simp at hp
      | wakeOne p => simp at hp
      | cleared hcl =>
        subst hp
        exact ⟨hcl.queue, fun hx ha hlt => List.not_mem_nil (hcl.pending hx ha hlt).2⟩
  exact ⟨he.trans (h.epoch_le hs n), hW.cleared_step h hs hQ hL' he hcl fun _ _ _ hf => hf⟩

end

end Wakeful

end Step

/-! ## Runs -/

/-- The task that a step links on wait queue `w`. -/
def Kernel.linked? (w : WaitQueue) (st : Kernel) (l : Label) : Option Tid :=
  match st.nextOp l with
  | some (t, .link w') => if w' = w then some t else none
  | _ => none

/-- The task that a step takes off wait queue `w` to wake it. -/
def Kernel.woken? (w : WaitQueue) (st : Kernel) (l : Label) : Option Tid :=
  match st.nextOp l with
  | some (_, op) => if op.wakes? = some w then st.run.first (.wait w) else none
  | none => none

theorem Kernel.onWait_eq {st : Kernel} {l : Label} {w : WaitQueue} {q : List Tid}
    (hq : st.run.first (.wait w) = q.head?) :
    (st.woken? w l).toList ++ st.onWait l w q = q ++ (st.linked? w l).toList := by
  unfold woken? onWait linked?
  cases hop : st.nextOp l with
  | none => simp
  | some p =>
    obtain ⟨t, op⟩ := p
    have hwake (w' : WaitQueue) : (if some w' = some w then st.run.first (.wait w) else none).toList ++
        (if w' = w then q.tail else q) = q ++ (none : Option Tid).toList := by
      rcases eq_or_ne w' w with rfl | hne
      · rw [if_pos rfl, if_pos rfl, hq]
        cases q <;> simp
      · simp [hne]
    cases op with
    | link w' =>
      simp only [Op.wakes?, Op.onWait, reduceCtorEq, if_false]
      split <;> simp
    | wakeOne w' => exact hwake w'
    | wakeAll w' => exact hwake w'
    | _ => simp [Op.wakes?, Op.onWait]

theorem wakeful_init : Wakeful Kernel.init (fun _ => []) [] := by
  have h := sound_blank True
  have h' := sound_init True
  have hstart {x : Tid} (hl : Kernel.init.live x = true) : (Kernel.init.tcb x).code ∈ startCodes 0 :=
    (Kernel.Local.of_bringUp (c := 0) h.roster).fresh x (Nat.zero_le x) hl
  refine ⟨fun hl hx => ?_, fun hx => (by cases hx), fun hl hx => ?_, fun hp hx => ?_,
    fun {u p n e k} hl hx => ?_, fun hm => (by cases hm)⟩
  · rw [(awaits_start (hstart hl)).1] at hx
    cases hx
  · exact absurd hx ((awaits_start (hstart hl)).2.1 _)
  · rw [(awaits_start (hstart (h'.lists.pending hp).1)).1] at hx
    cases hx
  · refine absurd ?_ ((awaits_start (hstart hl)).2.2 n e)
    rw [hx]
    exact List.mem_append_right p (List.mem_cons_self ..)

theorem wakeful_of_run {st : Kernel} {ls : List Label}
    (hr : Run (Guarded Kernel.Solo Kernel.Step) Kernel.init ls st) :
    ∃ held Q K, Sound True st held Q K ∧
      Wakeful st Q (Kernel.events Kernel.notified? Kernel.init ls) ∧
      ∀ w, Kernel.events (Kernel.linked? w) Kernel.init ls =
        Kernel.events (Kernel.woken? w) Kernel.init ls ++ Q (.wait w) := by
  induction hr with
  | nil => exact ⟨_, _, _, sound_init True, wakeful_init, fun w => rfl⟩
  | @snoc st st' ls l hr hs ih =>
    obtain ⟨held, Q, K, h, hW, hlog⟩ := ih
    obtain ⟨hsolo, hs⟩ := hs
    obtain ⟨held', Q', K', h', hQ, -⟩ := h.step hs (.inl trivial)
    refine ⟨held', Q', K', h', ?_, fun w => ?_⟩
    · rw [Kernel.events_snoc _ hr.of_guarded]
      exact hW.step h hs hQ h'.lists hsolo
    · rw [Kernel.events_snoc _ hr.of_guarded, Kernel.events_snoc _ hr.of_guarded, hlog, hQ,
        List.append_assoc, List.append_assoc, Kernel.onWait_eq (h.lists.rings.first _)]

/-- **No wake-up is lost.** In every run, on any number of CPUs, in which a client that wakes one
sleeper only does so when no more than one is linked: once the `e`-th wake-up for condition `n` has
come to its end, no task that saw the condition false before is on its queue; it runs, or is on its
run queue. And every wait queue is first in, first out: what was linked is what was woken, in this
order, and what is still linked. -/
theorem wakeups_not_lost {st : Kernel} {ls : List Label}
    (hr : Run (Guarded Kernel.Solo Kernel.Step) Kernel.init ls st) :
    (∀ n e, (n, e) ∈ Kernel.events Kernel.notified? Kernel.init ls →
      ∀ x s, st.live x = true → awaits (st.tcb x).code = some (n, s) → s < e →
        x ∉ st.sleepers (.cond n) ∧
          ((st.tcb x).state = .running ∧ st.current (st.tcb x).cpuId = some x ∨
            (st.tcb x).state = .runnable ∧
              x ∈ st.linked (.queue (st.tcb x).cpuId (st.tcb x).priority))) ∧
    ∀ w, Kernel.events (Kernel.linked? w) Kernel.init ls =
      Kernel.events (Kernel.woken? w) Kernel.init ls ++ st.sleepers w := by
  obtain ⟨held, Q, K, h, hW, hlog⟩ := wakeful_of_run hr
  refine ⟨fun n e hdone x s hl ha hlt => ?_, fun w => ?_⟩
  · obtain ⟨-, hcl⟩ := hW.done hdone
    have hnot : x ∉ Q (.wait (.cond n)) := fun hx => absurd (hcl.queue x hx s ha) (not_le.mpr hlt)
    obtain ⟨ho1, hmode⟩ := hW.waiter hl ha
    have hp := h.lists.placed (by simp) hl
    rw [Kernel.sleepers, h.linked_eq, h.linked_eq]
    refine ⟨hnot, ?_⟩
    cases hst : (st.tcb x).state with
    | running => exact .inl ⟨rfl, hp.running hst⟩
    | runnable =>
      refine .inr ⟨rfl, (hp.runnable ho1 hst).resolve_right fun hpending => ?_⟩
      obtain ⟨c, d, hpend⟩ := hpending
      exact hcl.pending hpend ha hlt
    | sleeping =>
      obtain ⟨w, hw⟩ := hp.sleeping hst
      obtain rfl := hW.eq_cond hw ha
      exact absurd hw hnot
    | zombie => exact absurd (congrArg modeOf hst) hmode
    | dead => exact absurd (congrArg modeOf hst) hmode
  · rw [Kernel.sleepers, h.linked_eq]
    exact hlog w

/-- A child waits for condition 0, and its parent makes the condition true and wakes it. -/
def wakeTrace : List Label :=
  bootTrace [(.call (.fork true), 10), (.call .schedule, 5), (.call (.await 0), 11),
    (.call (.notify 0 false), 10)]

set_option maxRecDepth 100000 in
theorem wakeups_not_lost_child : ∃ st : Kernel, awaits (st.tcb 2).code = some (0, 0) ∧
    2 ∉ st.sleepers (.cond 0) ∧
      ((st.tcb 2).state = .running ∧ st.current (st.tcb 2).cpuId = some 2 ∨
        (st.tcb 2).state = .runnable ∧ 2 ∈ st.linked (.queue (st.tcb 2).cpuId (st.tcb 2).priority)) := by
  have hp : Kernel.init.PermittedAll Kernel.Solo wakeTrace := by decide +kernel
  have hx : (0, 1) ∈ Kernel.events Kernel.notified? Kernel.init wakeTrace := by decide +kernel
  have hy : (Kernel.init.execAll wakeTrace).live 2 = true ∧
      awaits ((Kernel.init.execAll wakeTrace).tcb 2).code = some (0, 0) := by decide +kernel
  have hr := run_execAll hp
  generalize Kernel.init.execAll wakeTrace = st at hy hr
  exact ⟨st, hy.2, (wakeups_not_lost hr).1 0 1 hx 2 0 hy.1 hy.2 Nat.zero_lt_one⟩

end Lume.Sched
