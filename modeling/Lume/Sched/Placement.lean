import Lume.Sched.Preservation

/-!
# Every task is on the list its state says

In every state reached from boot, by any interleaving of the CPUs, the state of a task says on
which list its `run_link` is. The bitmap and the counters of the run queues agree with the lists.

## Main definitions

* `OnList st Q t`: what the state of task `t` says about the lists `Q`

## Main results

* `tasks_on_their_lists`
-/

namespace Lume.Sched

/-- The state of a task says on which list its `run_link` is. A task that some CPU is about to
enqueue is on none. -/
structure OnList (st : Kernel) (Q : RunHead → List Tid) (t : Tid) : Prop where
  running : (st.tcb t).state = .running → st.current (st.tcb t).cpuId = some t ∧ ∀ h, t ∉ Q h
  runnable : (st.tcb t).state = .runnable → ¬ st.Pending t →
    (Q (.queue (st.tcb t).cpuId (st.tcb t).priority)).count t = 1 ∧
      ∀ h ≠ .queue (st.tcb t).cpuId (st.tcb t).priority, t ∉ Q h
  sleeping : (st.tcb t).state = .sleeping →
    ∃ w, (Q (.wait w)).count t = 1 ∧ ∀ h ≠ .wait w, t ∉ Q h
  zombie : (st.tcb t).state = .zombie → ∀ h, t ∉ Q h

variable {st : Kernel} {Q : RunHead → List Tid} {t : Tid}

theorem Lists.not_mem (h : Lists st Q none) (hr : (st.tcb t).state ≠ .runnable)
    (hs : (st.tcb t).state ≠ .sleeping) (h' : RunHead) : t ∉ Q h' := by
  intro ht
  have hf := (h.member ht).2.2
  cases h' with
  | queue c p => exact hr hf.1
  | wait w => exact hs hf

theorem Lists.mem_once (h : Lists st Q none) {h' : RunHead} (ht : t ∈ Q h') :
    (Q h').count t = 1 ∧ ∀ h'' ≠ h', t ∉ Q h'' :=
  ⟨List.count_eq_one_of_mem (h.rings.nodup h') ht, fun _ hne ht' => hne (h.rings.disjoint ht' ht)⟩

theorem Lists.onList (h : Lists st Q none) (hl : st.live t = true)
    (hcls : (st.tcb t).schedClass ≠ .idle) : OnList st Q t := by
  have hp := h.placed (by simp) hl
  refine ⟨fun hs => ⟨hp.running hs, fun h' => ?_⟩, fun hs hnot => ?_, fun hs => ?_, fun hs h' => ?_⟩
  · apply h.not_mem <;> simp [hs]
  · have ho1 : (st.tcb t).schedClass = .o1 := by
      cases hc : (st.tcb t).schedClass with
      | o1 => rfl
      | idle => exact absurd hc hcls
    exact h.mem_once ((hp.runnable ho1 hs).resolve_right hnot)
  · obtain ⟨w, hw⟩ := hp.sleeping hs
    exact ⟨w, h.mem_once hw⟩
  · apply h.not_mem <;> simp [hs]

/-- **Every task is on exactly the list its state says**, in every state reached from boot by any
interleaving of any number of CPUs. The lists are those that the links form, each of them holds
live tasks only, a bit of the bitmap is set exactly when its queue is not empty, and both counters
are the number of queued tasks. -/
theorem tasks_on_their_lists {ls : List Label} (hr : Run Kernel.Step Kernel.init ls st) :
    ∃ Q, Rings st.run Q ∧ (∀ h, ∀ t ∈ Q h, st.live t = true) ∧ Counters st.rq Q ∧
      ∀ t, st.live t = true → (st.tcb t).schedClass ≠ .idle → OnList st Q t := by
  obtain ⟨held, Q, K, h⟩ := sound_of_run hr
  refine ⟨Q, h.lists.rings, fun h' t ht => (h.lists.member ht).1, h.lists.counters, ?_⟩
  intro t hl hcls
  exact h.lists.onList hl hcls

/-- Two CPUs come up; the first one creates a task, and the second one puts its own to sleep. -/
def sleepTrace : List Label :=
  [⟨1, .boot⟩, ⟨0, .call (.kthreadCreate 5 true)⟩] ++ List.replicate 7 ⟨0, .step⟩ ++
    [⟨1, .call (.sleep 3)⟩] ++ List.replicate 3 ⟨1, .step⟩

set_option maxRecDepth 100000 in
theorem tasks_on_their_lists_sleeper : ∃ Q, Rings (Kernel.init.execAll sleepTrace).run Q ∧
    (∀ h, ∀ t ∈ Q h, (Kernel.init.execAll sleepTrace).live t = true) ∧
    Counters (Kernel.init.execAll sleepTrace).rq Q ∧
    ∀ t, (Kernel.init.execAll sleepTrace).live t = true →
      ((Kernel.init.execAll sleepTrace).tcb t).schedClass ≠ .idle →
      OnList (Kernel.init.execAll sleepTrace) Q t := by
  have hp : Kernel.init.PermittedAll (fun _ _ => True) sleepTrace := by decide +kernel
  exact tasks_on_their_lists (run_execAll hp).of_guarded

end Lume.Sched
