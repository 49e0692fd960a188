import Lume.Sched.Reaping

/-!
# The interrupt flag across a context switch

`push_intr` saves the interrupt flag in a slot of the CPU when the first lock is taken, and
`pop_intr` restores it when the last one is released. A thread that calls `schedule` takes the lock of
the run queue, and the thread that it switches to releases it: the flag that the one had is given
to the other. So the flag survives a context switch if both left with the same one, and a thread that
called `schedule` with interrupts disabled may come back with interrupts enabled, or the other way
round.

## Main definitions

* `Expects k f`: started with the flag `f`, the code `k` always finds the flag that it expects
* `Kernel.flag`: the flag that a CPU has when it holds no lock
* `Kernel.SwitchOk`: `schedule` only switches between threads that left with the same flag

## Main results

* `schedule_keeps_flag`: in runs with such switches the flag survives
* `schedule_changes_flag`: in others it does not
-/

namespace Lume.Sched

/-! ## What code expects -/

/-- Started with the interrupt flag `f`, the code always finds the flag that it expects: a call of
`schedule` returns with the flag of the call, and `userret` is reached with interrupts disabled. -/
def Expects : List Op → Bool → Prop
  | [], _ => True
  | op :: k, f => match op with
    | .returned b => f = b ∧ Expects k f
    | .userret => f = false ∧ Expects k true
    | .intrOn | .iret => Expects k true
    | _ => Expects k f

/-- The flag that code relies on when it starts. -/
def expected : List Op → Option Bool
  | [] => none
  | op :: k => match op with
    | .returned b => some b
    | .userret => some false
    | .intrOn | .iret => none
    | _ => expected k

/-- Operations that neither read nor set the flag. -/
def Op.plain : Op → Bool
  | .returned _ | .userret | .intrOn | .iret => false
  | _ => true

variable {op : Op} {k : List Op} {f : Bool}

theorem expects_cons (hop : op.plain = true) : Expects (op :: k) f ↔ Expects k f := by
  cases op <;> first | exact Iff.rfl | cases hop

theorem expects_append {p : List Op} (hp : ∀ op ∈ p, op.plain = true) :
    Expects (p ++ k) f ↔ Expects k f := by
  induction p with
  | nil => rfl
  | cons op p ih =>
    rw [List.forall_mem_cons] at hp
    rw [List.cons_append, expects_cons hp.1, ih hp.2]

theorem Expects.of_expected {f' : Bool} (h : Expects k f) (hf : ∀ b ∈ expected k, f' = b) :
    Expects k f' := by
  induction k with
  | nil => trivial
  | cons op k ih =>
    by_cases hop : op.plain = true
    · rw [expects_cons hop] at h ⊢
      refine ih h fun b hb => hf b ?_
      cases op <;> first | exact hb | cases hop
    · cases op with
      | returned b =>
        obtain rfl : f' = b := hf b rfl
        obtain ⟨rfl, hk⟩ := h
        exact ⟨rfl, hk⟩
      | userret => exact ⟨hf false rfl, h.2⟩
      | intrOn => exact h
      | iret => exact h
      | _ => exact absurd rfl hop

/-- The flag that CPU `c` has when it holds no lock: `pop_intr` restores the one that
`push_intr` saved. -/
def Kernel.flag (st : Kernel) (c : ℕ) : Bool :=
  if (st.cpu c).lockDepth = 0 then (st.cpu c).intrOn else (st.cpu c).intrWasOn

/-- Every thread finds the flag that it expects: the current one with the flag of its CPU, and the
others if they are resumed with the flag that they rely on. -/
structure Flagged (st : Kernel) : Prop where
  running : ∀ {c t}, st.current c = some t → Expects (st.tcb t).code (st.flag c)
  saved : ∀ {t}, st.live t = true → st.current (st.tcb t).cpuId ≠ some t →
    ∀ f, (∀ b ∈ expected (st.tcb t).code, f = b) → Expects (st.tcb t).code f

/-- Task `y` waits for CPU `c`. -/
def Kernel.Waits (st : Kernel) (c : ℕ) (y : Tid) : Prop :=
  st.live y = true ∧ (st.tcb y).cpuId = c ∧ (st.tcb y).state = .runnable

instance (st : Kernel) (c : ℕ) (y : Tid) : Decidable (st.Waits c y) :=
  inferInstanceAs (Decidable (_ ∧ _ ∧ _))

/-- When `schedule` may switch, the threads that wait for the CPU left with the flag of the caller,
which `push_intr` has saved. -/
def Kernel.SwitchOk (st : Kernel) (l : Label) : Prop :=
  ∀ p ∈ st.nextOp l, p.2 = .pick → ∀ y < st.nextTid, y ≠ p.1 → st.Waits l.cpu y →
    ∀ b ∈ expected (st.tcb y).code, (st.cpu l.cpu).intrWasOn = b

instance (st : Kernel) (l : Label) : Decidable (st.SwitchOk l) :=
  inferInstanceAs (Decidable (∀ p ∈ st.nextOp l, _))

/-! ## The flag of a CPU -/

section Flag

variable {doom : Prop} {st st' : Kernel} {held : ℕ → List Spinlock} {Q : RunHead → List Tid}
  {K : Tid → List Tid} {c : ℕ} {t : Tid}

theorem Control.flag_of_free (h : Control doom st held) (hc : held c = []) :
    st.flag c = (st.cpu c).intrOn := by
  rw [Kernel.flag, if_pos]
  rw [h.depth, hc]
  rfl

theorem Control.flag_of_locked (h : Control doom st held) (hc : held c ≠ []) :
    st.flag c = (st.cpu c).intrWasOn := by
  rw [Kernel.flag, if_neg]
  rw [h.depth]
  simpa using hc

theorem Kernel.flag_congr (h : st'.cpu = st.cpu) : st'.flag c = st.flag c := by
  rw [Kernel.flag, Kernel.flag, h]

theorem Kernel.flag_acquire (s : Spinlock) (hd : 0 ≤ (st.cpu c).lockDepth) :
    (st.acquire c s).flag c = st.flag c := by
  have hcpu : (st.acquire c s).cpu c = pushIntr (st.cpu c) := by
    unfold acquire
    dsimp only
    split <;> exact Function.update_self ..
  have hne : (st.cpu c).lockDepth + 1 ≠ 0 := by omega
  rw [flag, hcpu, flag]
  exact if_neg hne

theorem Kernel.flag_release {s : Spinlock}
    (hs : st.owner s = some c → (st.cpu c).lockDepth ≠ 0 ∧ (st.cpu c).intrOn = false) :
    (st.release c s).flag c = st.flag c := by
  unfold release
  split
  · rename_i ho
    obtain ⟨hne, hintr⟩ := hs ho
    have hcpu : (setCpu { st with owner := Function.update st.owner s none } c popIntr).cpu c =
        popIntr (st.cpu c) := Function.update_self ..
    rw [flag, flag, hcpu, if_neg hne]
    simp only [popIntr, hintr]
    cases (st.cpu c).intrWasOn <;> simp
  · rfl

theorem Flagged.frame (hF : Flagged st) (hR : Roster st) (hC : Control doom st held)
    (hL : st.Local c st')
    (hrun : ∀ x, st'.current c = some x → Expects (st'.tcb x).code (st'.flag c))
    (hleft : ∀ x, st.current c = some x → st'.current c ≠ some x →
      ∀ f, (∀ b ∈ expected (st'.tcb x).code, f = b) → Expects (st'.tcb x).code f) : Flagged st' := by
  constructor
  · intro c' x hx
    rcases eq_or_ne c' c with rfl | hne
    · exact hrun x hx
    · rw [hL.current c' hne] at hx
      have hcx : st.current c ≠ some x := fun hcx => hne (hC.unique hcx hx)
      rw [hL.code x (hR.lt (hC.running hx).1) hcx, Kernel.flag, hL.cpu c' hne]
      exact hF.running hx
  · intro x hl hx f hf
    rcases Nat.lt_or_ge x st.nextTid with hlt | hge
    · rw [hL.cpuId x hlt] at hx
      by_cases hcx : st.current c = some x
      · rw [(hC.running hcx).2.1] at hx
        exact hleft x hcx hx f hf
      · rw [hL.code x hlt hcx] at hf ⊢
        refine hF.saved (hL.live x hlt hl) (fun hcur => ?_) f hf
        rcases eq_or_ne (st.tcb x).cpuId c with he | hne
        · exact hcx (he ▸ hcur)
        · exact hx ((hL.current _ hne).trans hcur)
    · have hstart := hL.fresh x hge hl
      simp only [startCodes, List.mem_cons, List.not_mem_nil, or_false] at hstart
      rcases hstart with he | he | he
      · rw [he]
        trivial
      · rw [he] at hf ⊢
        exact ⟨hf false rfl, trivial⟩
      · rw [he]
        trivial

theorem Flagged.go (hF : Flagged st) (hR : Roster st) (hC : Control doom st held)
    (hL : st.Local c st') (hc : st'.current c = some t) (hsame : st.current c = some t)
    (hk : Expects (st'.tcb t).code (st'.flag c)) : Flagged st' := by
  refine hF.frame hR hC hL (fun x hx => ?_) fun x hx hx' => ?_
  · obtain rfl : t = x := Option.some_injective _ (hc.symm.trans hx)
    exact hk
  · exact absurd (hc.trans (hsame.symm.trans hx)) hx'

theorem Call.plain (a : Call) (c : ℕ) : ∀ op ∈ a.prog c, op.plain = true := by
  cases a <;> simp [Call.prog, sleepProg, wakeOneProg, wakeAllProg, Op.plain]

theorem Irq.plain (i : Irq) (c : ℕ) : ∀ op ∈ i.prog c, op.plain = true := by
  cases i <;> simp [Irq.prog, wakeOneProg, wakeAllProg, Op.plain]

theorem Kernel.pushes_plain (hop : op ≠ .schedule) : ∀ o ∈ st.pushes c t op, o.plain = true := by
  intro o ho
  have hby := pushedBy_of_mem o ho
  cases o with
  | returned b => exact absurd hby hop
  | userret | intrOn | iret => exact hby.elim
  | _ => rfl

theorem Sound.flag_perform (h : Sound doom st held Q K) (ha : st.At c t op k)
    (hop : op.plain = true) : ((st.setCode t k).perform c t op).flag c = st.flag c := by
  have hC := h.control ha.halted
  by_cases hdr : op.drastic = false
  · exact Kernel.flag_congr ((Kernel.Keeps.setCode st t k).perform c t hdr).cpu
  cases op with
  | acquire s =>
    change ((st.setCode t k).acquire c s).flag c = _
    refine Kernel.flag_acquire s ?_
    change 0 ≤ (st.cpu c).lockDepth
    rw [hC.depth]
    exact Int.natCast_nonneg _
  | release s =>
    change ((st.setCode t k).release c s).flag c = _
    refine Kernel.flag_release fun ho => ?_
    have hne : held c ≠ [] := List.ne_nil_of_mem (hC.owner.mp ho)
    refine ⟨?_, hC.intr c hne⟩
    change (st.cpu c).lockDepth ≠ 0
    rw [hC.depth]
    simpa using hne
  | zombie =>
    refine Kernel.flag_congr ?_
    change ((st.setCode t k).becomeZombie t).cpu = st.cpu
    unfold Kernel.becomeZombie
    dsimp only
    split
    · rfl
    · split <;> rfl
  | reparent f => exact (h.typed ha).elim
  | fork ok => cases ok <;> rfl
  | kthreadCreate p ok => cases ok <;> rfl
  | reclaim | adopt | raise | unreachable => rfl
  | returned | intrOn | iret | userret => cases hop
  | _ => exact absurd rfl hdr

/-- **A step keeps the flag that every thread expects.** -/
theorem Flagged.step {l : Label} (hF : Flagged st) (h : Sound doom st held Q K) (hs : st.Step l st')
    (hok : st.SwitchOk l) : Flagged st' := by
  have hR := h.roster
  have hC := h.control hs.halted
  have hL := h.local hs
  have ht := hs.taken
  obtain ⟨c, act⟩ := l
  cases ht with
  | boot hdown =>
    refine hF.frame hR hC hL (fun x hx => ?_) fun x hx => ?_
    · rw [st.bringUp_current, if_pos rfl] at hx
      obtain rfl := Option.some_injective _ hx
      rw [st.bringUp_boot]
      trivial
    · rw [hdown] at hx
      cases hx
  | @call t a hc hcode =>
    refine hF.go hR hC hL hc hc ?_
    rw [st.code_setCode, if_pos rfl]
    have hnil := (expects_append (k := []) (f := st.flag c) (a.plain c)).mpr trivial
    rwa [List.append_nil] at hnil
  | @setIntr t on hc hcode =>
    refine hF.go hR hC hL hc hc ?_
    change Expects (st.tcb t).code _
    rw [hcode]
    trivial
  | @irq t i hc hon =>
    have hheld : held c = [] := by
      by_contra hne
      rw [hC.intr c hne] at hon
      cases hon
    refine hF.go hR hC hL hc hc ?_
    rw [Kernel.code_push, if_pos rfl, List.append_assoc, expects_append (i.plain c)]
    have hk := hF.running hc
    rw [hC.flag_of_free hheld, hon] at hk
    exact hk
  | @op t op k ha hfree =>
    have hc : st.current c = some t := ha.current
    have htn := hR.lt (hC.running hc).1
    have hty := h.typed ha
    have hrun := hF.running hc
    rw [ha.code] at hrun
    by_cases hpick : op = .pick
    · subst hpick
      obtain ⟨y, -, hsw, ⟨hly, hcy, hry⟩, -⟩ := h.pick ha
      refine hF.frame hR hC hL (fun x hx => ?_) fun x hx _ f hf => ?_
      · have hcur := (hsw.current c).trans (if_pos rfl)
        obtain rfl : y = x := Option.some_injective _ (hcur.symm.trans hx)
        have hflag : ((st.setCode t k).perform c t .pick).flag c = st.flag c := Kernel.flag_congr hsw.cpu
        have hcode := hsw.code y
        change (((st.setCode t k).perform c t .pick).tcb y).code = _ at hcode
        rw [hflag, hcode]
        split
        · exact hrun
        · rename_i hyt
          have hnot : st.current (st.tcb y).cpuId ≠ some y := by
            rw [hcy, hc]
            exact fun he => hyt (Option.some_injective _ he).symm
          refine hF.saved hly hnot _ fun b hb => ?_
          rw [hC.flag_of_locked (by rw [hty.1]; simp)]
          exact hok _ ha.nextOp rfl y (hR.lt hly) hyt ⟨hly, hcy, hry (Ne.symm hyt)⟩ b hb
      · obtain rfl : t = x := Option.some_injective _ (hc.symm.trans hx)
        have hcode := hsw.code t
        change (((st.setCode t k).perform c t .pick).tcb t).code = _ at hcode
        rw [hcode, if_pos rfl] at hf ⊢
        exact Expects.of_expected (f := st.flag c) hrun hf
    have hre (f : Tid) : op ≠ .reparent f := by
      rintro rfl
      exact hty.elim
    have hcur := (st.setCode t k).current_perform c t hpick hre c
    have hcode := (st.setCode t k).code_perform c t hpick hre htn.ne htn.ne
    rw [if_pos rfl, st.code_setCode, if_pos rfl] at hcode
    refine hF.go hR hC hL (hcur.trans hc) hc ?_
    change Expects (((st.setCode t k).perform c t op).tcb t).code (((st.setCode t k).perform c t op).flag c)
    rw [hcode]
    by_cases hplain : op.plain = true
    · rw [h.flag_perform ha hplain]
      rw [expects_cons hplain] at hrun
      by_cases hsch : op = .schedule
      · subst hsch
        -- the call records the flag that it was made with
        exact ⟨hC.flag_of_free hty.1, hrun⟩
      · rwa [expects_append (Kernel.pushes_plain hsch)]
    · -- with no lock held the flag is that of the CPU
      have hset (hheld : held c = []) :
          ((st.setCode t k).setCpu c fun s => { s with intrOn := true }).flag c = true := by
        rw [Kernel.flag]
        simp only [Kernel.setCpu, Function.update_self]
        rw [if_pos]
        exact (hC.depth c).trans (by rw [hheld]; rfl)
      cases op with
      | returned b => exact hrun.2
      | userret =>
        change Expects k (((st.setCode t k).setCpu c fun s => { s with intrOn := true }).flag c)
        rw [hset hty.1]
        exact hrun.2
      | intrOn =>
        change Expects k (((st.setCode t k).setCpu c fun s => { s with intrOn := true }).flag c)
        rw [hset hty.1]
        exact hrun
      | iret =>
        change Expects k (((st.setCode t k).setCpu c fun s => { s with intrOn := true }).flag c)
        rw [hset hty.1]
        exact hrun
      | _ => exact absurd rfl hplain

end Flag

/-! ## Runs -/

theorem flagged_init : Flagged Kernel.init := by
  have h := sound_blank True
  have hF : Flagged Kernel.blank := ⟨fun hc => (by cases hc), fun hl => (by cases hl)⟩
  refine hF.frame h.roster (h.control rfl) (.of_bringUp (c := 0) h.roster) (fun x hx => ?_) fun x hx => ?_
  · change (Kernel.blank.bringUp 0).current 0 = some x at hx
    rw [Kernel.bringUp_current, if_pos rfl] at hx
    obtain rfl := Option.some_injective _ hx
    change Expects ((Kernel.blank.bringUp 0).tcb _).code _
    rw [Kernel.bringUp_boot]
    trivial
  · cases hx

/-- **Interrupt state across `schedule`.** As long as `schedule` only switches between threads that
left with the same flag, a call of `schedule` returns with the flag that it was made with, and a
forked child reaches `userret` with interrupts disabled. -/
theorem schedule_keeps_flag {st st' : Kernel} {ls : List Label} {l : Label}
    (hr : Run (Guarded Kernel.SwitchOk Kernel.Step) Kernel.init ls st) (hs : st.Step l st') :
    (∀ t b, st.nextOp l = some (t, .returned b) → (st.cpu l.cpu).intrOn = b) ∧
      ∀ t, st.nextOp l = some (t, .userret) → (st.cpu l.cpu).intrOn = false := by
  obtain ⟨⟨held, Q, K, h⟩, hF⟩ : (∃ held Q K, Sound True st held Q K) ∧ Flagged st := by
    refine hr.invariant (P := fun st => (∃ held Q K, Sound True st held Q K) ∧ Flagged st) ?_
      ⟨⟨_, _, _, sound_init True⟩, flagged_init⟩
    rintro s l s' ⟨⟨held, Q, K, h⟩, hF⟩ ⟨hok, hs⟩
    obtain ⟨held', Q', K', h', -⟩ := h.step hs (.inl trivial)
    exact ⟨⟨held', Q', K', h'⟩, hF.step h hs hok⟩
  have hC := h.control hs.halted
  constructor
  · intro t b hop
    obtain ⟨k, ha, -⟩ := hs.at_of_nextOp hop
    have hk := hF.running ha.current
    rw [ha.code, hC.flag_of_free (h.typed ha).1] at hk
    exact hk.1
  · intro t hop
    obtain ⟨k, ha, -⟩ := hs.at_of_nextOp hop
    have hk := hF.running ha.current
    rw [ha.code, hC.flag_of_free (h.typed ha).1] at hk
    exact hk.1

/-- A task forks a child and lets it run; the child comes back from user mode and calls `schedule` with
interrupts disabled, as the task did. -/
def evenTrace : List Label :=
  bootTrace [(.call (.fork true), 10), (.call .schedule, 5), (.setIntr false, 0), (.call .schedule, 4)]

set_option maxRecDepth 100000 in
theorem schedule_keeps_flag_even : ∃ st : Kernel, st.nextOp ⟨0, .step⟩ = some (1, .returned false) ∧
    (st.cpu 0).intrOn = false := by
  have hp : Kernel.init.PermittedAll Kernel.SwitchOk evenTrace := by decide +kernel
  have hop : (Kernel.init.execAll evenTrace).nextOp ⟨0, .step⟩ = some (1, .returned false) := by
    decide +kernel
  have hs : (Kernel.init.execAll evenTrace).Permitted ⟨0, .step⟩ := by decide +kernel
  have hr := run_execAll hp
  generalize Kernel.init.execAll evenTrace = st at hop hs hr
  exact ⟨st, hop, (schedule_keeps_flag hr ⟨hs, rfl⟩).1 1 false hop⟩

/-- A task forks a child, and calls `schedule` with interrupts enabled. -/
def enabledTrace : List Label :=
  bootTrace [(.call (.fork true), 10), (.setIntr true, 0), (.call .schedule, 4)]

/-- The child then calls `schedule` with interrupts disabled. -/
def oddTrace : List Label :=
  enabledTrace ++ bootTrace [(.step, 0), (.setIntr false, 0), (.call .schedule, 4)]

set_option maxRecDepth 100000 in
/-- The child reaches `userret` with interrupts enabled, and the call of the task returns with
interrupts disabled. -/
theorem schedule_changes_flag : (∃ st : Kernel, Run Kernel.Step Kernel.init enabledTrace st ∧
      st.nextOp ⟨0, .step⟩ = some (2, .userret) ∧ (st.cpu 0).intrOn = true) ∧
    ∃ st : Kernel, Run Kernel.Step Kernel.init oddTrace st ∧
      st.nextOp ⟨0, .step⟩ = some (1, .returned true) ∧ (st.cpu 0).intrOn = false := by
  have hp : Kernel.init.PermittedAll (fun _ _ => True) enabledTrace := by decide +kernel
  have hp' : Kernel.init.PermittedAll (fun _ _ => True) oddTrace := by decide +kernel
  have hx : (Kernel.init.execAll enabledTrace).nextOp ⟨0, .step⟩ = some (2, .userret) ∧
      ((Kernel.init.execAll enabledTrace).cpu 0).intrOn = true := by decide +kernel
  have hy : (Kernel.init.execAll oddTrace).nextOp ⟨0, .step⟩ = some (1, .returned true) ∧
      ((Kernel.init.execAll oddTrace).cpu 0).intrOn = false := by decide +kernel
  exact ⟨⟨_, (run_execAll hp).of_guarded, hx⟩, _, (run_execAll hp').of_guarded, hy⟩

end Lume.Sched
