import Lume.Sched.Locality

/-!
# Exit, wait and reclaim

`task_exit` makes the caller a zombie and wakes its parent; `task_wait` looks for a zombie among
the children and reclaims it. A reclaimed task has switched away from its stack, and is reclaimed
once. Two things go wrong. The foster parent for the children of a task that exits is never set, so
that the children keep a pointer to a control block that may be reclaimed. And a parent that has to
sleep releases `g_task_list_lock` twice.

## Main definitions

* `reclaims st ls`: the tasks that the steps `ls` reclaim
* `Kernel.Childless`: a step reclaims no task with children

## Main results

* `reclaimed_off_stack`
* `parents_live`, with its failure `reclaimed_parent`
* `wait_balanced`, with its failure `wait_releases_twice`
-/

namespace Lume.Sched

/-! ## A task is reclaimed off its stack, once -/

/-- The task that an operation reclaims. -/
def Op.reclaims? : Op → Option Tid
  | .reclaim z => some z
  | _ => none

/-- The task that a step reclaims. -/
def Kernel.reclaims? (st : Kernel) (l : Label) : Option Tid := (st.nextOp l).bind (·.2.reclaims?)

theorem Kernel.reclaims?_eq_some {st : Kernel} {l : Label} {z : Tid} :
    st.reclaims? l = some z ↔ ∃ t, st.nextOp l = some (t, .reclaim z) := by
  simp only [reclaims?, Option.bind_eq_some_iff, Prod.exists]
  constructor
  · rintro ⟨t, op, hop, hz⟩
    cases op <;> simp only [Op.reclaims?, Option.some_inj, reduceCtorEq] at hz
    exact ⟨t, hz ▸ hop⟩
  · rintro ⟨t, hop⟩
    exact ⟨t, _, hop, rfl⟩

/-- The tasks that the steps `ls` reclaim, in order. -/
def reclaims (st : Kernel) (ls : List Label) : List Tid := Kernel.events Kernel.reclaims? st ls

theorem not_live_of_reclaims {st : Kernel} {ls : List Label} (hr : Run Kernel.Step Kernel.init ls st) :
    (reclaims Kernel.init ls).Nodup ∧
      ∀ z ∈ reclaims Kernel.init ls, z < st.nextTid ∧ st.live z = false := by
  induction hr with
  | nil => exact ⟨List.nodup_nil, fun z hz => by cases hz⟩
  | @snoc st st' ls l hr hs ih =>
    obtain ⟨held, Q, K, h⟩ := sound_of_run hr
    obtain ⟨hnodup, hgone⟩ := ih
    -- what was not live stays so
    have hold (z : Tid) (hlt : z < st.nextTid) (hz : st.live z = false) :
        z < st'.nextTid ∧ st'.live z = false := by
      cases h.change hs with
      | keeps hlive hnext => rw [hlive, hnext]; exact ⟨hlt, hz⟩
      | create n hnext hlive =>
        refine ⟨by rw [hnext]; exact Nat.lt_add_right n hlt, ?_⟩
        rw [Bool.eq_false_iff, Ne, hlive, hz]
        exact fun hor => hor.elim (by simp) fun hin => absurd hin.1 (not_le.mpr hlt)
      | reclaim hop hlive hnext =>
        rw [hlive, hnext, Function.update_apply]
        exact ⟨hlt, by split <;> [rfl; exact hz]⟩
      | adopt _ hlive hnext => rw [hlive, hnext]; exact ⟨hlt, hz⟩
      | halt _ hlive hnext => rw [hlive, hnext]; exact ⟨hlt, hz⟩
    rw [reclaims, Kernel.events_snoc _ hr]
    cases hz : st.reclaims? l with
    | none =>
      rw [Option.toList_none, List.append_nil]
      exact ⟨hnodup, fun z hz => hold z (hgone z hz).1 (hgone z hz).2⟩
    | some z =>
      -- the task that is reclaimed now was live
      obtain ⟨t, hop⟩ := Kernel.reclaims?_eq_some.mp hz
      obtain ⟨k, ha, -, heq⟩ := hs.at_of_nextOp hop
      obtain ⟨-, -, hlive, -⟩ := h.reclaim_zombie ha
      have hnow : z < st'.nextTid ∧ st'.live z = false := by
        rw [heq]
        exact ⟨h.roster.lt hlive, Function.update_self ..⟩
      refine ⟨List.nodup_append.mpr ⟨hnodup, List.nodup_singleton z, fun y hy w hw => ?_⟩,
        fun y hy => ?_⟩
      · rw [List.mem_singleton.mp hw]
        rintro rfl
        rw [(hgone y hy).2] at hlive
        cases hlive
      · rcases List.mem_append.mp hy with hy | hy
        · exact hold y (hgone y hy).1 (hgone y hy).2
        · rw [List.mem_singleton.mp hy]
          exact hnow

/-- **A task's stack is never freed under it.** In every run on any number of CPUs, when the control
block and the stack of task `z` are about to be reclaimed, `z` is a live zombie that no CPU runs;
and no task is reclaimed twice. -/
theorem reclaimed_off_stack {st st' : Kernel} {ls : List Label} {l : Label}
    (hr : Run Kernel.Step Kernel.init ls st) (hs : st.Step l st') : (∀ z ∈ st.reclaims? l,
      (st.tcb z).state = .zombie ∧ st.live z = true ∧ ∀ c, st.current c ≠ some z) ∧
    (reclaims Kernel.init (ls ++ [l])).Nodup := by
  refine ⟨fun z hz => ?_, (not_live_of_reclaims (hr.snoc hs)).1⟩
  obtain ⟨t, hop⟩ := Kernel.reclaims?_eq_some.mp hz
  obtain ⟨held, Q, K, h⟩ := sound_of_run hr
  obtain ⟨k, ha, -⟩ := hs.at_of_nextOp hop
  exact (h.reclaim_zombie ha).2

/-- The boot CPU does something, and then so many steps of it, one after the other. -/
def bootTrace (as : List (Act × ℕ)) : List Label :=
  as.flatMap fun a => ⟨0, a.1⟩ :: List.replicate a.2 ⟨0, .step⟩

/-- A task forks a child, which exits; the task waits, up to the last step of `task_destroy`. -/
def reapTrace : List Label :=
  bootTrace [(.call (.fork true), 10), (.call .schedule, 5), (.call (.exit 3), 10), (.call .wait, 7)]

set_option maxRecDepth 100000 in
theorem reclaimed_off_stack_child : ∃ st st' : Kernel, st.Step ⟨0, .step⟩ st' ∧ st.reclaims? ⟨0, .step⟩ = some 2 ∧
    ((st.tcb 2).state = .zombie ∧ st.live 2 = true ∧ ∀ c, st.current c ≠ some 2) ∧
    (reclaims Kernel.init (reapTrace ++ [⟨0, .step⟩])).Nodup := by
  have hp : Kernel.init.PermittedAll (fun _ _ => True) reapTrace := by decide +kernel
  have hz : (Kernel.init.execAll reapTrace).reclaims? ⟨0, .step⟩ = some 2 := by decide +kernel
  have hs : (Kernel.init.execAll reapTrace).Permitted ⟨0, .step⟩ := by decide +kernel
  have hr := (run_execAll hp).of_guarded
  generalize Kernel.init.execAll reapTrace = st at hz hs hr
  have hall := reclaimed_off_stack hr ⟨hs, rfl⟩
  exact ⟨st, _, ⟨hs, rfl⟩, hz, hall.1 2 hz, hall.2⟩

/-! ## Parents -/

/-- A step reclaims no task that has children. -/
def Kernel.Childless (st : Kernel) (l : Label) : Prop :=
  ∀ z ∈ st.reclaims? l, st.kin.isEmpty z = true

instance (st : Kernel) (l : Label) : Decidable (st.Childless l) :=
  inferInstanceAs (Decidable (∀ z ∈ st.reclaims? l, _))

/-- The parent of every live task is live, and the machine has not stopped at a parent that is
not. -/
structure Parented (st : Kernel) : Prop where
  live : ∀ {x p}, st.live x = true → (st.tcb x).parent = some p → st.live p = true
  halted : ∀ p, st.halted ≠ some (.reclaimed p)

section Parents

variable {doom : Prop} {st st' : Kernel} {held : ℕ → List Spinlock} {Q : RunHead → List Tid}
  {K : Tid → List Tid} {l : Label}

theorem Parented.step (hP : Parented st) (h : Sound doom st held Q K) (hs : st.Step l st')
    (hok : st.Childless l) : Parented st' := by
  have hrun (hh : st'.halted = st.halted) (p : Tid) : st'.halted ≠ some (.reclaimed p) := by
    rw [hh]
    exact hP.halted p
  cases h.change hs with
  | keeps hlive hnext hparent hhalted =>
    refine ⟨fun {x p} hl hp => ?_, hrun hhalted⟩
    rw [hlive] at hl ⊢
    rw [hparent] at hp
    exact hP.live hl hp
  | create n hnext hlive hold hnew hhalted =>
    refine ⟨fun {x p} hl hp => ?_, hrun hhalted⟩
    rw [hlive] at hl ⊢
    rcases hl with hl | ⟨hle, hlt⟩
    · rw [hold x (h.roster.lt hl)] at hp
      exact .inl (hP.live hl hp)
    · rw [hnew x hle hlt] at hp
      cases hp
  | @reclaim t z hop hlive hnext hparent hhalted =>
    refine ⟨fun {x p} hl hp => ?_, hrun hhalted⟩
    rw [hlive, Function.update_apply] at hl ⊢
    rw [hparent] at hp
    split at hl
    · cases hl
    · -- `x` is a child of `p`, and `z` has none
      have hmem : x ∈ K p := (h.family.parent hl).mp hp
      have hnil : K z = [] :=
        (h.family.rings.isEmpty z).mp (hok z (Kernel.reclaims?_eq_some.mpr ⟨t, hop⟩))
      have hpz : p ≠ z := by
        rintro rfl
        rw [hnil] at hmem
        cases hmem
      rw [if_neg hpz]
      exact hP.live hl hp
  | @adopt t x hc hlive hnext hparent hhalted =>
    refine ⟨fun {y p} hl hp => ?_, hrun hhalted⟩
    rw [hlive] at hl ⊢
    rw [hparent] at hp
    split at hp
    · obtain rfl := Option.some_injective _ hp
      exact ((h.control hs.halted).running hc).1
    · exact hP.live hl hp
  | @halt e hstop hlive hnext hparent hhalted =>
    refine ⟨fun {x p} hl hp => ?_, fun p he => ?_⟩
    · rw [hlive] at hl ⊢
      rw [hparent] at hp
      exact hP.live hl hp
    · rw [hhalted] at he
      cases Option.some_injective _ he
      cases hstop with
      | @reclaimed t p hop hp hdead =>
        obtain ⟨k, ha, -⟩ := hs.at_of_nextOp hop
        have hl := ((h.control hs.halted).running ha.current).1
        rw [hP.live hl hp] at hdead
        cases hdead

/-- **No dangling parent**, as long as no task that has children is reclaimed: in every state reached
the parent of a live task is live and has it on its list of children, and `task_exit` never
follows a pointer to a reclaimed control block. -/
theorem parents_live {ls : List Label} (hr : Run (Guarded Kernel.Childless Kernel.Step) Kernel.init ls st) :
    (∀ x p, st.live x = true → (st.tcb x).parent = some p → st.live p = true ∧ x ∈ st.children p) ∧
      ∀ p, st.halted ≠ some (.reclaimed p) := by
  have hinv : (∃ held Q K, Sound True st held Q K) ∧ Parented st := by
    refine hr.invariant (P := fun st => (∃ held Q K, Sound True st held Q K) ∧ Parented st) ?_
      ⟨⟨_, _, _, sound_init True⟩, ?_⟩
    · rintro s l s' ⟨⟨held, Q, K, h⟩, hP⟩ ⟨hok, hs⟩
      obtain ⟨held', Q', K', h', -⟩ := h.step hs (.inl trivial)
      exact ⟨⟨held', Q', K', h'⟩, hP.step h hs hok⟩
    · -- at boot no task has a parent
      refine ⟨fun {x p} hl hp => ?_, fun p he => by cases he⟩
      rw [((sound_init True).family.parent hl)] at hp
      cases hp
  obtain ⟨⟨held, Q, K, h⟩, hP⟩ := hinv
  refine ⟨fun x p hl hp => ⟨hP.live hl hp, ?_⟩, hP.halted⟩
  rw [h.children_eq]
  exact (h.family.parent hl).mp hp

end Parents

set_option maxRecDepth 100000 in
theorem parents_live_child : ∃ st : Kernel, st.live 2 = true ∧ (st.tcb 2).parent = some 1 ∧
    (∀ x p, st.live x = true → (st.tcb x).parent = some p → st.live p = true ∧ x ∈ st.children p) ∧
      ∀ p, st.halted ≠ some (.reclaimed p) := by
  have hp : Kernel.init.PermittedAll Kernel.Childless (bootTrace [(.call (.fork true), 10)]) := by
    decide +kernel
  have hx : (Kernel.init.execAll (bootTrace [(.call (.fork true), 10)])).live 2 = true ∧
      ((Kernel.init.execAll (bootTrace [(.call (.fork true), 10)])).tcb 2).parent = some 1 := by
    decide +kernel
  have hr := run_execAll hp
  generalize Kernel.init.execAll (bootTrace [(.call (.fork true), 10)]) = st at hx hr
  exact ⟨st, hx.1, hx.2, parents_live hr⟩

/-- Task 1 forks task 2, which forks task 3 and exits; task 1 waits for task 2. -/
def orphanTrace : List Label :=
  bootTrace [(.call (.fork true), 10), (.call .schedule, 5), (.call (.fork true), 10), (.call (.exit 3), 10),
    (.call .wait, 8)]

set_option maxRecDepth 100000 in
/-- The parent of task 3 is reclaimed, and the exit of task 3 follows the pointer to it. -/
theorem reclaimed_parent :
    (∃ st : Kernel, Run Kernel.Step Kernel.init orphanTrace st ∧ st.live 3 = true ∧
      (st.tcb 3).parent = some 2 ∧ st.live 2 = false) ∧ ∃ st : Kernel, Run Kernel.Step Kernel.init
      (orphanTrace ++ bootTrace [(.call .schedule, 5), (.call (.exit 1), 2)]) st ∧
      st.halted = some (.reclaimed 2) := by
  have hp : Kernel.init.PermittedAll (fun _ _ => True)
      (orphanTrace ++ bootTrace [(.call .schedule, 5), (.call (.exit 1), 2)]) := by decide +kernel
  have hp' : Kernel.init.PermittedAll (fun _ _ => True) orphanTrace := by decide +kernel
  have hx : (Kernel.init.execAll orphanTrace).live 3 = true ∧
      ((Kernel.init.execAll orphanTrace).tcb 3).parent = some 2 ∧
      (Kernel.init.execAll orphanTrace).live 2 = false := by decide +kernel
  have hy : (Kernel.init.execAll
      (orphanTrace ++ bootTrace [(.call .schedule, 5), (.call (.exit 1), 2)])).halted =
      some (.reclaimed 2) := by decide +kernel
  exact ⟨⟨_, (run_execAll hp').of_guarded, hx⟩, _, (run_execAll hp).of_guarded, hy⟩

/-! ## Waiting for a child -/

/-- The tasks linked to a list head, in the order of the list. -/
def Kernel.linked (st : Kernel) (h : RunHead) : List Tid :=
  st.run.walk (st.nextTid + 1) (st.run.next (.inl h))

/-- The tasks on a wait queue, in the order of the list. -/
def Kernel.sleepers (st : Kernel) (w : WaitQueue) : List Tid := st.linked (.wait w)

theorem Sound.linked_eq {doom : Prop} {st : Kernel} {held : ℕ → List Spinlock} {Q : RunHead → List Tid}
    {K : Tid → List Tid} (h : Sound doom st held Q K) (i : RunHead) : st.linked i = Q i := by
  refine h.lists.rings.walk_lt fun x hx => ?_
  exact h.roster.lt (h.lists.member hx).1

/-- No one sleeps on a `wait_chld` queue, and the machine has not stopped at a lock. -/
structure Balanced (st : Kernel) (Q : RunHead → List Tid) : Prop where
  chld : ∀ p, Q (.wait (.chld p)) = []
  doubleLock : ∀ s, st.halted ≠ some (.doubleLock s)
  invalidRelease : ∀ s, st.halted ≠ some (.invalidRelease s)

section Waiting

variable {st st' : Kernel} {held : ℕ → List Spinlock} {Q Q' : RunHead → List Tid}
  {K : Tid → List Tid} {l : Label}

theorem Balanced.step (hB : Balanced st Q) (h : Sound False st held Q K) (hs : st.Step l st')
    (hQ : ∀ w, Q' (.wait w) = st.onWait l w (Q (.wait w))) : Balanced st' Q' := by
  have hC := h.control hs.halted
  have hstop {e : Halt} (he : st'.halted = some e) : st.Stops l e := by
    have hnone (hh : st'.halted = st.halted) : st.Stops l e := by
      rw [hh, hs.halted] at he
      cases he
    cases h.change hs with
    | keeps _ _ _ hh => exact hnone hh
    | create _ _ _ _ _ hh => exact hnone hh
    | reclaim _ _ _ _ hh => exact hnone hh
    | adopt _ _ _ _ hh => exact hnone hh
    | halt hstop _ _ _ hh =>
      rw [hh] at he
      exact Option.some_injective _ he ▸ hstop
  refine ⟨fun p => ?_, fun s he => ?_, fun s he => ?_⟩
  · rw [hQ, hB.chld]
    unfold Kernel.onWait
    split
    · rename_i t op hop
      obtain ⟨k, ha, -⟩ := hs.at_of_nextOp hop
      cases op with
      | link w =>
        -- only `task_wait` links to such a queue, when it has to sleep
        obtain ⟨-, -, -, hw, -⟩ := h.typed ha
        change (if w = .chld p then [] ++ [t] else []) = []
        refine if_neg fun hwp => ?_
        exact (hw p hwp).1
      | wakeOne w =>
        change (if w = .chld p then [].tail else []) = []
        simp
      | wakeAll w =>
        change (if w = .chld p then [].tail else []) = []
        simp
      | _ => rfl
    · rfl
  · cases hstop he with
    | doubleLock hop howner =>
      obtain ⟨k, ha, -⟩ := hs.at_of_nextOp hop
      exact (h.typed ha).1 (hC.owner.mp howner)
  · cases hstop he with
    | invalidRelease hop howner =>
      obtain ⟨k, ha, -⟩ := hs.at_of_nextOp hop
      rcases h.typed ha with ⟨h', hheld, -⟩ | ⟨hfalse, -⟩
      · exact howner (hC.owner.mpr (by rw [hheld]; exact List.mem_cons_self ..))
      · exact hfalse

/-- **The wait/exit protocol**, as long as `task_wait` finds no children or a zombie each time it looks:
in every state reached no lock was released that is not held or taken twice, and no parent sleeps
on its `wait_chld` queue while a child is a zombie. -/
theorem wait_balanced {ls : List Label} (hr : Run (Guarded Kernel.ScanOk Kernel.Step) Kernel.init ls st) :
    (∀ s, st.halted ≠ some (.doubleLock s)) ∧ (∀ s, st.halted ≠ some (.invalidRelease s)) ∧
      ∀ p, ¬ ((st.tcb p).state = .sleeping ∧ p ∈ st.sleepers (.chld p) ∧
        ∃ z ∈ st.children p, (st.tcb z).state = .zombie) := by
  have hinv : ∃ held Q K, Sound False st held Q K ∧ Balanced st Q := by
    refine hr.invariant (P := fun st => ∃ held Q K, Sound False st held Q K ∧ Balanced st Q) ?_
      ⟨_, _, _, sound_init False, fun _ => rfl, fun s => ?_, fun s => ?_⟩
    · rintro s l s' ⟨held, Q, K, h, hB⟩ ⟨hok, hs⟩
      obtain ⟨held', Q', K', h', hQ, -⟩ := h.step hs (.inr hok)
      exact ⟨held', Q', K', h', hB.step h hs hQ⟩
    · exact fun he => by cases he
    · exact fun he => by cases he
  obtain ⟨held, Q, K, h, hB⟩ := hinv
  refine ⟨hB.doubleLock, hB.invalidRelease, fun p ⟨_, hp, _⟩ => ?_⟩
  rw [Kernel.sleepers, h.linked_eq, hB.chld] at hp
  cases hp

end Waiting

set_option maxRecDepth 100000 in
theorem wait_balanced_child : ∃ st : Kernel, (st.tcb 2).state = .zombie ∧ st.live 2 = false ∧
    (∀ s, st.halted ≠ some (.doubleLock s)) ∧ (∀ s, st.halted ≠ some (.invalidRelease s)) ∧
      ∀ p, ¬ ((st.tcb p).state = .sleeping ∧ p ∈ st.sleepers (.chld p) ∧
        ∃ z ∈ st.children p, (st.tcb z).state = .zombie) := by
  have hp : Kernel.init.PermittedAll Kernel.ScanOk (reapTrace ++ [⟨0, .step⟩]) := by decide +kernel
  have hx : ((Kernel.init.execAll (reapTrace ++ [⟨0, .step⟩])).tcb 2).state = .zombie ∧
      (Kernel.init.execAll (reapTrace ++ [⟨0, .step⟩])).live 2 = false := by decide +kernel
  have hr := run_execAll hp
  generalize Kernel.init.execAll (reapTrace ++ [⟨0, .step⟩]) = st at hx hr
  exact ⟨st, hx.1, hx.2, wait_balanced hr⟩

set_option maxRecDepth 100000 in
/-- A parent whose child still runs calls `task_wait`: it releases `g_task_list_lock`, links itself to
its queue, and releases the lock again. -/
theorem wait_releases_twice : ∃ st : Kernel, Run Kernel.Step Kernel.init
    (bootTrace [(.call (.fork true), 10), (.call .wait, 8)]) st ∧
    st.halted = some (.invalidRelease .taskList) := by
  have hp : Kernel.init.PermittedAll (fun _ _ => True)
      (bootTrace [(.call (.fork true), 10), (.call .wait, 8)]) := by decide +kernel
  have hx : (Kernel.init.execAll (bootTrace [(.call (.fork true), 10), (.call .wait, 8)])).halted =
      some (.invalidRelease .taskList) := by decide +kernel
  exact ⟨_, (run_execAll hp).of_guarded, hx⟩

end Lume.Sched
