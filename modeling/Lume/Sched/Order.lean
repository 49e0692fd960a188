import Lume.Sched.Reaping

/-!
# The order in which tasks are picked

Each run queue is first in, first out: a task is linked to the tail of the queue of its priority,
and `pick_next` takes the head of the first queue that is not empty. `schedule` puts the task that
runs back before it picks, so that this task comes last among those of its priority. Two tasks of
one priority therefore take turns.

## Main definitions

* `age log t`: how many tasks have been enqueued since task `t` was
* `Kernel.Candidate`: the tasks that `schedule` picks from
* `Kernel.Before`: which of them comes first
* `NotBehind`: a queue holds a task, and another one not before it

## Main results

* `InOrder.step`: along a run the tasks of each queue stand in the order of their ages
* `schedule_in_order`
-/

namespace Lume.Sched

/-! ## Ages -/

/-- How many tasks have been enqueued since task `t` was. -/
def age (log : List Tid) (t : Tid) : ℕ := log.reverse.idxOf t

theorem age_snoc_self (log : List Tid) (t : Tid) : age (log ++ [t]) t = 0 := by
  rw [age, List.reverse_append]
  exact List.idxOf_cons_self

theorem age_snoc_of_ne (log : List Tid) {t x : Tid} (h : x ≠ t) :
    age (log ++ [x]) t = age log t + 1 := by
  rw [age, List.reverse_append]
  exact List.idxOf_cons_ne _ h

/-- The tasks of a queue have been enqueued, the older ones first. -/
structure ByAge (log q : List Tid) : Prop where
  sorted : q.Pairwise fun y z => age log z < age log y
  mem : ∀ y ∈ q, y ∈ log

namespace ByAge

variable {log q : List Tid} {x : Tid}

theorem nodup (h : ByAge log q) : q.Nodup := by
  refine h.sorted.imp ?_
  rintro y _ hlt rfl
  exact lt_irrefl _ hlt

theorem sublist {q' : List Tid} (h : ByAge log q) (hs : q'.Sublist q) : ByAge log q' :=
  ⟨h.sorted.sublist hs, fun y hy => h.mem y (hs.subset hy)⟩

theorem later (h : ByAge log q) (hx : x ∉ q) : ByAge (log ++ [x]) q := by
  refine ⟨h.sorted.imp_of_mem fun {y z} hy hz hlt => ?_, fun y hy => ?_⟩
  · rw [age_snoc_of_ne log (ne_of_mem_of_not_mem hy hx).symm,
      age_snoc_of_ne log (ne_of_mem_of_not_mem hz hx).symm]
    exact Nat.succ_lt_succ hlt
  · exact List.mem_append_left _ (h.mem y hy)

theorem snoc (h : ByAge log q) (hx : x ∉ q) : ByAge (log ++ [x]) (q ++ [x]) := by
  have hq := h.later hx
  refine ⟨List.pairwise_append.mpr ⟨hq.sorted, List.pairwise_singleton .., ?_⟩, fun y hy => ?_⟩
  · intro y hy z hz
    obtain rfl := List.mem_singleton.mp hz
    rw [age_snoc_self, age_snoc_of_ne log (ne_of_mem_of_not_mem hy hx).symm]
    exact Nat.succ_pos _
  · rcases List.mem_append.mp hy with hy | hy
    · exact hq.mem y hy
    · exact List.mem_append_right _ hy

end ByAge

/-! ## Taking turns -/

/-- Task `b` is in the queue, and task `a` is not before it. -/
def NotBehind (b a : Tid) (q : List Tid) : Prop := ∃ q₁ q₂, q = q₁ ++ b :: q₂ ∧ a ∉ q₁

namespace NotBehind

variable {a b : Tid} {q : List Tid}

theorem of_cons (hq : (a :: q).Nodup) (hb : b ∈ q) : NotBehind b a q := by
  obtain ⟨q₁, q₂, rfl⟩ := List.append_of_mem hb
  exact ⟨q₁, q₂, rfl, fun ha => (List.nodup_cons.mp hq).1 (List.mem_append_left _ ha)⟩

theorem append (h : NotBehind b a q) (r : List Tid) : NotBehind b a (q ++ r) := by
  obtain ⟨q₁, q₂, rfl, ha⟩ := h
  exact ⟨q₁, q₂ ++ r, by simp, ha⟩

theorem erase (h : NotBehind b a q) {y : Tid} (hy : y ≠ b) : NotBehind b a (q.erase y) := by
  obtain ⟨q₁, q₂, rfl, ha⟩ := h
  by_cases hmem : y ∈ q₁
  · exact ⟨q₁.erase y, q₂, List.erase_append_left _ hmem, fun ha' => ha (List.mem_of_mem_erase ha')⟩
  · refine ⟨q₁, q₂.erase y, ?_, ha⟩
    rw [List.erase_append_right _ hmem, List.erase_cons_tail (by simpa using hy.symm)]

theorem head_ne (h : NotBehind b a q) (hne : a ≠ b) (rest : List Tid) : q ≠ a :: rest := by
  obtain ⟨q₁, q₂, rfl, ha⟩ := h
  cases q₁ with
  | nil =>
    intro he
    exact hne (List.cons.inj he).1.symm
  | cons y q₁ =>
    intro he
    obtain rfl := (List.cons.inj he).1
    exact ha (List.mem_cons_self ..)

end NotBehind

/-! ## The queues along a run -/

namespace Kernel

/-- The tasks that `schedule` picks from on CPU `c`: those queued there, and task `t` if it runs
still and is not the idle thread. -/
def Candidate (st : Kernel) (c : ℕ) (t z : Tid) : Prop :=
  (∃ p, z ∈ st.linked (.queue c p)) ∨
    z = t ∧ (st.tcb t).state = .running ∧ (st.rq c).idle ≠ some t

/-- Task `y` is to be picked before task `z`: its priority is smaller, or it has been enqueued
earlier. -/
def Before (st : Kernel) (log : List Tid) (y z : Tid) : Prop :=
  (st.tcb y).priority < (st.tcb z).priority ∨
    (st.tcb y).priority = (st.tcb z).priority ∧ age log z < age log y

theorem enqueued_of_nextOp {st : Kernel} {l : Label} {t : Tid} (hop : st.nextOp l = some (t, .pick)) :
    st.enqueued l = st.putsBack t := by
  rw [enqueued, hop]
  rfl

end Kernel

section

variable {st st' : Kernel} {held : ℕ → List Spinlock} {Q Q' : RunHead → List Tid}
  {K : Tid → List Tid} {l : Label} {log : List Tid} {t x z : Tid} {d p : ℕ}

section

variable (h : Sound True st held Q K) (hs : st.Step l st')
include h hs

theorem Sound.enqueued_spec (hx : st.enqueued l = some x) :
    st.live x = true ∧ (st.tcb x).schedClass = .o1 ∧ ∀ i, x ∉ Q i := by
  obtain ⟨⟨t, op⟩, hop, hx⟩ := Option.bind_eq_some_iff.mp hx
  obtain ⟨k, ha, -, -⟩ := hs.at_of_nextOp hop
  cases op with
  | enqueue d y =>
    obtain rfl := Option.some_injective _ hx
    obtain ⟨hl, hcls, -, -, hq⟩ := h.lists.pending (c := l.cpu) (d := d) (t := y) (by
      rw [Kernel.pendingAt_eq ha.current, ha.code, mem_pendingIn]
      exact List.mem_cons_self ..)
    exact ⟨hl, hcls, hq⟩
  | pick =>
    obtain ⟨⟨hrun, hcls⟩, he⟩ := Option.ite_none_right_eq_some.mp hx
    obtain rfl := Option.some_injective _ he
    refine ⟨((h.control hs.halted).running ha.current).1, hcls, fun i hi => ?_⟩
    -- a task that runs is on no list
    have hfit := (h.lists.member hi).2.2
    cases i with
    | queue c p => exact absurd (hrun.symm.trans hfit.1) (by decide)
    | wait w => exact absurd (hrun.symm.trans hfit) (by decide)
  | _ => cases hx

theorem Sound.of_mem_joined (hz : z ∈ st.joined Q (st.enqueued l) d p) :
    st.live z = true ∧ (st.tcb z).schedClass = .o1 ∧ (st.tcb z).cpuId = d ∧
      (st.tcb z).priority = p := by
  rcases List.mem_append.mp hz with hz | hz
  · obtain ⟨hl, hcls, -, hc, hp⟩ := h.lists.member hz
    exact ⟨hl, hcls, hc, hp⟩
  · obtain ⟨hx, hfit⟩ := List.mem_filter.mp hz
    obtain ⟨hl, hcls, -⟩ := h.enqueued_spec hs (Option.mem_toList.mp hx)
    exact ⟨hl, hcls, of_decide_eq_true hfit⟩

theorem Sound.candidate_iff (hop : st.nextOp l = some (t, .pick)) :
    st.Candidate l.cpu t z ↔ z ∈ st.joined Q (st.enqueued l) l.cpu (st.tcb z).priority := by
  obtain ⟨k, ha, -, -⟩ := hs.at_of_nextOp hop
  obtain ⟨hl, hc, -⟩ := (h.control hs.halted).running ha.current
  rw [Kernel.Candidate, Kernel.enqueued_of_nextOp hop, Kernel.joined, List.mem_append, List.mem_filter]
  simp only [h.linked_eq]
  refine or_congr ⟨?_, fun hz => ⟨_, hz⟩⟩ ⟨?_, ?_⟩
  · rintro ⟨p, hz⟩
    obtain rfl := (h.lists.member hz).2.2.2.2
    exact hz
  · rintro ⟨rfl, hrun, hidle⟩
    have hcls : (st.tcb z).schedClass = .o1 := by
      cases hcls : (st.tcb z).schedClass with
      | o1 => rfl
      | idle =>
        have hi := h.roster.idle_eq hl hcls
        rw [hc] at hi
        exact absurd hi hidle
    rw [Kernel.putsBack, if_pos ⟨hrun, hcls⟩]
    simp [hc]
  · rintro ⟨hz, -⟩
    obtain ⟨⟨hrun, hcls⟩, he⟩ := Option.ite_none_right_eq_some.mp (Option.mem_toList.mp hz)
    obtain rfl := Option.some_injective _ he
    refine ⟨rfl, hrun, fun hi => ?_⟩
    exact absurd (hcls.symm.trans (h.roster.idle_live hi).2.2) (by decide)

theorem Sound.first_of_pick (hop : st.nextOp l = some (t, .pick)) :
    ∃ i y, (st.rq l.cpu).idle = some i ∧ st'.current l.cpu = some y ∧ st.picked l = some y ∧
      First (st.joined Q (st.enqueued l) l.cpu) i y := by
  obtain ⟨k, ha, -, hst⟩ := hs.at_of_nextOp hop
  obtain ⟨y, -, hsw, -, -, -, ⟨i, hi, hfirst⟩, -⟩ := h.pick ha
  have hcur : st'.current l.cpu = some y := by
    rw [hst]
    exact (hsw.current _).trans (if_pos rfl)
  refine ⟨i, y, hi, hcur, ?_, ?_⟩
  · rw [Kernel.picked, hop, ← hs.2]
    exact hcur
  · rwa [Kernel.enqueued_of_nextOp hop]

end

/-- The run queues stand in the order in which their tasks have been enqueued. -/
def InOrder (log : List Tid) (Q : RunHead → List Tid) : Prop := ∀ d p, ByAge log (Q (.queue d p))

theorem InOrder.joined (hO : InOrder log Q) (h : Sound True st held Q K) (hs : st.Step l st')
    (d p : ℕ) : ByAge (log ++ (st.enqueued l).toList) (st.joined Q (st.enqueued l) d p) := by
  cases hx : st.enqueued l with
  | none =>
    rw [Kernel.joined_none, Option.toList_none, List.append_nil]
    exact hO d p
  | some x =>
    have hfree := (h.enqueued_spec hs hx).2.2
    rw [Kernel.joined, Option.toList_some]
    by_cases hfit : (st.tcb x).cpuId = d ∧ (st.tcb x).priority = p
    · rw [List.filter_cons_of_pos (by simpa using hfit), List.filter_nil]
      exact (hO d p).snoc (hfree _)
    · rw [List.filter_cons_of_neg (by simpa using hfit), List.filter_nil, List.append_nil]
      exact (hO d p).later (hfree _)

theorem InOrder.step (hO : InOrder log Q) (h : Sound True st held Q K) (hs : st.Step l st')
    (hQ : ∀ d p, Q' (.queue d p) = (st.joined Q (st.enqueued l) d p).diff (st.picked l).toList) :
    InOrder (log ++ (st.enqueued l).toList) Q' := by
  intro d p
  rw [hQ]
  exact (hO.joined h hs d p).sublist (List.diff_sublist ..)

end

theorem inOrder_of_run {st : Kernel} {ls : List Label} (hr : Run Kernel.Step Kernel.init ls st) :
    ∃ held Q K, Sound True st held Q K ∧
      InOrder (Kernel.events Kernel.enqueued Kernel.init ls) Q := by
  induction hr with
  | nil => exact ⟨_, _, _, sound_init True, fun _ _ => ⟨List.Pairwise.nil, nofun⟩⟩
  | @snoc st st' ls l hr hs ih =>
    obtain ⟨held, Q, K, h, hO⟩ := ih
    obtain ⟨held', Q', K', h', -, hQ⟩ := h.step hs (.inl trivial)
    refine ⟨held', Q', K', h', ?_⟩
    rw [Kernel.events_snoc _ hr]
    exact hO.step h hs hQ

/-! ## Between two picks of one task -/

/-- Task `b` waits in the queue of CPU `c` for priority `p`, where task `a` belongs too but is not
before it. -/
structure Turn (a b : Tid) (c p : ℕ) (st : Kernel) (Q : RunHead → List Tid) : Prop where
  old : a < st.nextTid
  cpuId : (st.tcb a).cpuId = c
  priority : (st.tcb a).priority = p
  schedClass : (st.tcb a).schedClass = .o1
  notBehind : NotBehind b a (Q (.queue c p))

section

variable {st st' : Kernel} {held : ℕ → List Spinlock} {Q Q' : RunHead → List Tid}
  {K : Tid → List Tid} {l : Label} {a b : Tid} {c p : ℕ}

theorem Sound.nextTid_le (h : Sound True st held Q K) (hs : st.Step l st') :
    st.nextTid ≤ st'.nextTid := by
  cases h.change hs with
  | create n hnext => exact hnext ▸ Nat.le_add_right ..
  | keeps _ hnext | reclaim _ _ hnext | adopt _ _ hnext | halt _ _ hnext => exact hnext.ge

theorem Turn.step (hT : Turn a b c p st Q) (h : Sound True st held Q K) (hs : st.Step l st')
    (hb : st.picked l ≠ some b)
    (hQ : ∀ d p, Q' (.queue d p) = (st.joined Q (st.enqueued l) d p).diff (st.picked l).toList) :
    Turn a b c p st' Q' := by
  have hL := h.local hs
  refine ⟨hT.old.trans_le (h.nextTid_le hs), (hL.cpuId a hT.old).trans hT.cpuId,
    (hL.priority a hT.old).trans hT.priority, (hL.schedClass a hT.old).trans hT.schedClass, ?_⟩
  rw [hQ]
  have hjoin : NotBehind b a (st.joined Q (st.enqueued l) c p) := hT.notBehind.append _
  cases hy : st.picked l with
  | none => exact hjoin
  | some y =>
    rw [Option.toList_some, List.diff_cons, List.diff_nil]
    refine hjoin.erase ?_
    rintro rfl
    exact hb hy

theorem Turn.not_picked (hT : Turn a b c p st Q) (h : Sound True st held Q K) (hs : st.Step l st')
    (hne : a ≠ b) : st.picked l ≠ some a := by
  intro hpick
  obtain ⟨⟨t, op⟩, hop, hy⟩ := Option.bind_eq_some_iff.mp hpick
  cases op with
  | pick =>
    obtain ⟨i, y, hi, -, hpick', hfirst⟩ := h.first_of_pick hs hop
    obtain rfl := Option.some_injective _ (hpick.symm.trans hpick')
    rcases hfirst with ⟨rfl, -⟩ | ⟨q, -, rest, hq, -⟩
    · exact absurd (hT.schedClass.symm.trans (h.roster.idle_live hi).2.2) (by decide)
    · have ha : a ∈ st.joined Q (st.enqueued l) l.cpu q := hq ▸ List.mem_cons_self ..
      obtain ⟨-, -, hc, hp⟩ := h.of_mem_joined hs ha
      rw [← hc, ← hp, hT.cpuId, hT.priority] at hq
      exact (hT.notBehind.append _).head_ne hne rest hq
  | _ => cases hy

theorem Sound.turn (h : Sound True st held Q K) {log : List Tid} (hO : InOrder log Q)
    (hs : st.Step l st') {t : Tid} (hop : st.nextOp l = some (t, .pick)) (ha : st.picked l = some a)
    (hb : st.Candidate l.cpu t b) (hne : a ≠ b) (hp : (st.tcb a).priority = (st.tcb b).priority)
    (hQ : ∀ d p, Q' (.queue d p) = (st.joined Q (st.enqueued l) d p).diff (st.picked l).toList) :
    Turn a b l.cpu (st.tcb a).priority st' Q' := by
  rw [h.candidate_iff hs hop] at hb
  obtain ⟨i, y, -, -, hy, hfirst⟩ := h.first_of_pick hs hop
  obtain rfl := Option.some_injective _ (ha.symm.trans hy)
  obtain ⟨hlb, -⟩ := h.of_mem_joined hs hb
  rcases hfirst with ⟨-, hempty⟩ | ⟨q, -, rest, hq, -⟩
  · rw [hempty _ (h.roster.priority hlb)] at hb
    cases hb
  · have ha' : a ∈ st.joined Q (st.enqueued l) l.cpu q := hq ▸ List.mem_cons_self ..
    obtain ⟨hla, hcls, hc, rfl⟩ := h.of_mem_joined hs ha'
    have hold := h.roster.lt hla
    have hL := h.local hs
    refine ⟨hold.trans_le (h.nextTid_le hs), (hL.cpuId a hold).trans hc, hL.priority a hold,
      (hL.schedClass a hold).trans hcls, ?_⟩
    rw [← hp, hq] at hb
    rw [hQ, hq, ha, Option.toList_some, List.diff_cons, List.diff_nil, List.erase_cons_head]
    refine .of_cons ?_ ((List.mem_cons.mp hb).resolve_left hne.symm)
    rw [← hq]
    exact (hO.joined h hs _ _).nodup

theorem Turn.run {ls : List Label} (hT : Turn a b c p st Q) (h : Sound True st held Q K)
    (hr : Run Kernel.Step st ls st') (hb : b ∉ Kernel.events Kernel.picked st ls) :
    ∃ held' Q' K', Sound True st' held' Q' K' ∧ Turn a b c p st' Q' := by
  induction hr with
  | nil => exact ⟨held, Q, K, h, hT⟩
  | @snoc st₁ st₂ ls l hr hs ih =>
    rw [Kernel.events_snoc _ hr, List.mem_append, not_or] at hb
    obtain ⟨held₁, Q₁, K₁, h₁, hT₁⟩ := ih hb.1
    obtain ⟨held₂, Q₂, K₂, h₂, -, hQ⟩ := h₁.step hs (.inl trivial)
    refine ⟨held₂, Q₂, K₂, h₂, hT₁.step h₁ hs (fun he => hb.2 ?_) hQ⟩
    exact Option.mem_toList.mpr he

end

/-- **`schedule` picks in order.** In every run, on any number of CPUs: `schedule` picks, among the
tasks queued on its CPU and the task that runs there still, one of the smallest priority, and among
these the one that has been enqueued earliest, where the task that runs is enqueued last; it goes
over to the idle thread only when there is none. Two tasks of one priority take turns: if task `b`
could be picked when task `a` is, then task `a` is not picked again before task `b` is. -/
theorem schedule_in_order {st st' : Kernel} {ls : List Label} {l : Label} {t : Tid}
    (hr : Run Kernel.Step Kernel.init ls st) (hs : st.Step l st')
    (hop : st.nextOp l = some (t, .pick)) :
    ((∃ i, (st.rq l.cpu).idle = some i ∧ st'.current l.cpu = some i ∧ ∀ z, ¬ st.Candidate l.cpu t z) ∨
      ∃ y, st'.current l.cpu = some y ∧ st.Candidate l.cpu t y ∧ ∀ z, st.Candidate l.cpu t z → z ≠ y →
        st.Before (Kernel.events Kernel.enqueued Kernel.init (ls ++ [l])) y z) ∧
      ∀ {a b : Tid} {ls' : List Label} {u u' : Kernel} {l' : Label}, st'.current l.cpu = some a →
        st.Candidate l.cpu t b → a ≠ b → (st.tcb a).priority = (st.tcb b).priority →
        Run Kernel.Step st' ls' u → u.Step l' u' → u.picked l' = some a →
          b ∈ Kernel.events Kernel.picked st' ls' := by
  obtain ⟨held, Q, K, h, hO⟩ := inOrder_of_run hr
  obtain ⟨i, y, hi, hcur, hpick, hfirst⟩ := h.first_of_pick hs hop
  refine ⟨?_, ?_⟩
  · rw [Kernel.events_snoc _ hr]
    rcases hfirst with ⟨rfl, hempty⟩ | ⟨p, hp, rest, hq, hlow⟩
    · refine .inl ⟨y, hi, hcur, fun z hz => ?_⟩
      rw [h.candidate_iff hs hop] at hz
      obtain ⟨hl, -⟩ := h.of_mem_joined hs hz
      rw [hempty _ (h.roster.priority hl)] at hz
      cases hz
    · have hy : y ∈ st.joined Q (st.enqueued l) l.cpu p := hq ▸ List.mem_cons_self ..
      obtain rfl := (h.of_mem_joined hs hy).2.2.2
      refine .inr ⟨y, hcur, (h.candidate_iff hs hop).mpr hy, fun z hz hne => ?_⟩
      rw [h.candidate_iff hs hop] at hz
      rcases Nat.lt_trichotomy (st.tcb z).priority (st.tcb y).priority with hlt | heq | hgt
      · rw [hlow _ hlt] at hz
        cases hz
      · -- behind the head of the same queue
        rw [heq, hq] at hz
        have hsorted := (hO.joined h hs l.cpu (st.tcb y).priority).sorted
        rw [hq] at hsorted
        exact .inr ⟨heq.symm, List.rel_of_pairwise_cons hsorted ((List.mem_cons.mp hz).resolve_left hne)⟩
      · exact .inl hgt
  · intro a b ls' u u' l' hca hb hne hp hrun hs' hpick'
    obtain rfl := Option.some_injective _ (hcur.symm.trans hca)
    obtain ⟨held', Q', K', h', -, hQ⟩ := h.step hs (.inl trivial)
    have hT := h.turn hO hs hop hpick hb hne hp hQ
    by_contra hnot
    obtain ⟨held₁, Q₁, K₁, h₁, hT₁⟩ := hT.run h' hrun hnot
    exact hT₁.not_picked h₁ hs' hne hpick'

/-- The boot task creates a task of its own priority, and calls `schedule`. -/
def createTrace : List Label := bootTrace [(.call (.kthreadCreate 0 true), 7), (.call .schedule, 2)]

/-- The new task calls `schedule`, and then the boot task again. -/
def turnTrace : List Label :=
  List.replicate 2 ⟨0, .step⟩ ++ bootTrace [(.call .schedule, 5), (.call .schedule, 2)]

set_option maxRecDepth 100000 in
theorem schedule_in_order_two : ∃ st st' u u' : Kernel, st.Step ⟨0, .step⟩ st' ∧
    (st.Candidate 0 1 1 ∧ st.Candidate 0 1 2) ∧ st'.current 0 = some 2 ∧
    (∃ y, st'.current 0 = some y ∧ ∀ z, st.Candidate 0 1 z → z ≠ y → st.Before
      (Kernel.events Kernel.enqueued Kernel.init (createTrace ++ [⟨0, .step⟩])) y z) ∧
    u.Step ⟨0, .step⟩ u' ∧ u'.current 0 = some 2 ∧ 1 ∈ Kernel.events Kernel.picked st' turnTrace := by
  have hp : Kernel.init.PermittedAll (fun _ _ => True) createTrace := by decide +kernel
  have hst : (fun st : Kernel => st.Permitted ⟨0, .step⟩ ∧ st.nextOp ⟨0, .step⟩ = some (1, .pick) ∧
      2 ∈ st.linked (.queue 0 0) ∧ ((st.tcb 1).state = .running ∧ (st.rq 0).idle = some 0) ∧
      (st.tcb 2).priority = (st.tcb 1).priority ∧ (st.exec ⟨0, .step⟩).current 0 = some 2 ∧
      (st.exec ⟨0, .step⟩).PermittedAll (fun _ _ => True) turnTrace ∧
      ((st.exec ⟨0, .step⟩).execAll turnTrace).Permitted ⟨0, .step⟩ ∧
      ((st.exec ⟨0, .step⟩).execAll turnTrace).picked ⟨0, .step⟩ = some 2 ∧
      (((st.exec ⟨0, .step⟩).execAll turnTrace).exec ⟨0, .step⟩).current 0 = some 2)
      (Kernel.init.execAll createTrace) := by decide +kernel
  have hr := (run_execAll hp).of_guarded
  generalize Kernel.init.execAll createTrace = st at hst hr
  obtain ⟨hs, hop, h2, ⟨h1, hidle⟩, hprio, hcur, hturn, hs', hpick, hcur'⟩ := hst
  have hall := schedule_in_order hr ⟨hs, rfl⟩ hop
  have hc1 : st.Candidate 0 1 1 := .inr ⟨rfl, h1, by simp [hidle]⟩
  refine ⟨st, _, _, _, ⟨hs, rfl⟩, ⟨hc1, .inl ⟨0, h2⟩⟩, hcur, ?_, ⟨hs', rfl⟩, hcur', ?_⟩
  · rcases hall.1 with ⟨i, -, -, hnone⟩ | ⟨y, hy, -, hfirst⟩
    · exact absurd hc1 (hnone 1)
    · exact ⟨y, hy, hfirst⟩
  · exact hall.2 hcur hc1 (by decide) hprio (run_execAll hturn).of_guarded ⟨hs', rfl⟩ hpick

end Lume.Sched
