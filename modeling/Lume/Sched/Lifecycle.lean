import Lume.Sched.Switching

/-!
# Sleeping, waking and the life of a task

The sections of wait queues, `task_exit`, `task_wait`, `task_fork` and `kthread_create`, and bringing
up a CPU, keep the invariant.

## Main results

* `Sound.link`, `Sound.wake`, `Sound.enqueue`: wait queues and run queues
* `Sound.zombie`, `Sound.scan`, `Sound.reclaim`: the end of a task
* `Sound.create`: a new task
* `Sound.boot`: a CPU comes up
-/

namespace Lume.Sched

open Function (update update_apply update_of_ne)

namespace Sound

variable {doom : Prop} {st st' : Kernel} {held : ℕ → List Spinlock} {Q : RunHead → List Tid}
  {K : Tid → List Tid} {c : ℕ} {t x : Tid} {op : Op} {k k' : List Op} {l : Spinlock}

/-! ## Wait queues -/

theorem running_of_mode {s : TaskState} (h : modeOf s = .active) : s = .running := by
  cases s <;> simp_all [modeOf]

theorem link {w : WaitQueue} (h : Sound doom st held Q K) (ha : st.At c t (.link w) k) :
    Sound doom ((st.setCode t k).linkWaiter w t) held
      (update Q (.wait w) (Q (.wait w) ++ [t])) K := by
  obtain ⟨-, hmode, hcls, hw, hk⟩ := h.typed ha
  have hlive := ((h.control ha.halted).running ha.current).1
  have hs := running_of_mode hmode
  have hb := st.alike_setCode t t k
  have hL : Lists (st.setCode t k) Q none := by
    refine h.lists.setCode ha.current (h.one ha) ?_
    rw [ha.code]
    rfl
  have hL' := ((hL.takeRunning hlive (hb.state.trans hs)).linkWaiter (hb.schedClass.trans hcls)
    fun t' ht' => by rw [(hw t' ht').2]; exact h.roster.lt hlive)
  refine h.move ha ((Kernel.Moved.refl t _).linkWaiter w) hL' (List.Sublist.refl _)
    (List.Sublist.refl _) (fun _ => ?_) (absurd rfl) ?_ ?_
  · rw [show (((st.setCode t k).linkWaiter w t).tcb t).state = .sleeping from
      ((st.setCode t k).state_setState t t _).trans (if_pos rfl)]
    exact hk
  · rw [hs]
    decide
  · rw [hcls]
    exact fun he => absurd he (by decide)

theorem wake {w : WaitQueue} {rest : List Tid} (h : Sound doom st held Q K) (ha : st.At c t op k)
    (hop : op.transient = false) (hx : Q (.wait w) = x :: rest) {r : List Op} (hr : Quiet r)
    (hk : Typed doom c t (st.tcb t).schedClass (st.enqueueProg x ++ r ++ k) (held c)
      (modeOf (st.tcb t).state)) :
    Sound doom (((st.setCode t k).takeWaiter x).push t ((st.setCode t k).enqueueProg x ++ r)) held
      (update Q (.wait w) rest) K := by
  have hb := st.alike_setCode t x k
  have hmem : x ∈ Q (.wait w) := by
    rw [hx]
    exact List.mem_cons_self ..
  obtain ⟨-, hcls, hs⟩ := h.lists.member hmem
  have hwork := NoNewWork.of_quiet (k := k) hop quiet_nil
  rw [← ha.code, List.nil_append] at hwork
  have hL := (h.lists.setCode ha.current (h.one ha) hwork.pending).takeWaiter hmem
  rw [hx, List.erase_cons_head] at hL
  have hprog : (st.setCode t k).enqueueProg x = st.enqueueProg x := by
    unfold Kernel.enqueueProg
    rw [hb.cpuId]
  have hcode : (((st.setCode t k).takeWaiter x).tcb t).code = k := by
    refine (Kernel.code_setState _ x t _).trans ?_
    exact (st.code_setCode t t k).trans (if_pos rfl)
  have hprog' : pendingIn (st.enqueueProg x ++ r ++ k) = ((st.tcb x).cpuId, x) :: pendingIn k := by
    rw [pendingIn_append, pendingIn_append, pendingIn_of_quiet hr]
    rfl
  have hstate : ((((st.setCode t k).takeWaiter x)).tcb x).state = .runnable :=
    (Kernel.state_setState _ x x _).trans (if_pos rfl)
  have hL' := hL.pend (k := st.enqueueProg x ++ r ++ k) (d := (st.tcb x).cpuId) ha.current
    (h.one ha) (by rw [hcode]; exact hprog')
    ((Kernel.schedClass_setState _ x x _).trans (hb.schedClass.trans hcls)) hstate
    ((Kernel.cpuId_setState _ x x _).trans hb.cpuId)
  rw [Kernel.push_eq, hcode, hprog]
  -- taking the waiter and pushing the program commute
  have hcomm : ((st.setCode t k).takeWaiter x).setCode t (st.enqueueProg x ++ r ++ k) =
      (st.setCode t (st.enqueueProg x ++ r ++ k)).takeWaiter x := by
    unfold Kernel.takeWaiter
    rw [Kernel.setState_setCode]
    congr 1
    exact congrArg (fun s : Kernel => { s with run := (st.run.unlink x).init (.inr x) })
      (st.setCode_setCode t k _)
  rw [hcomm] at hL' ⊢
  have hst : (((st.setCode t (st.enqueueProg x ++ r ++ k)).takeWaiter x).tcb x).state = .runnable :=
    (Kernel.state_setState _ x x _).trans (if_pos rfl)
  have hmode : modeOf (((st.setCode t (st.enqueueProg x ++ r ++ k)).takeWaiter x).tcb x).state =
      modeOf (st.tcb x).state := by
    rw [hst, show (st.tcb x).state = .sleeping from hs]
    rfl
  refine h.move ha (Kernel.Moved.refl x _).takeWaiter hL' ?_ ?_ (fun _ => ?_) (fun _ => hmode) ?_ ?_
  · rw [← ha.code]
    refine List.Sublist.trans ?_ hwork.adopt
    rw [adoptIn_append, adoptIn_append, adoptIn_of_quiet hr]
    exact List.Sublist.refl _
  · rw [← ha.code]
    refine List.Sublist.trans ?_ hwork.reclaim
    rw [reclaimIn_append, reclaimIn_append, reclaimIn_of_quiet hr]
    exact List.Sublist.refl _
  · rcases eq_or_ne t x with rfl | htx
    · rw [hmode]
      exact hk
    · rw [(Kernel.Moved.refl x (st.setCode t (st.enqueueProg x ++ r ++ k))).takeWaiter.state t htx,
        (st.alike_setCode t t _).state]
      exact hk
  · rw [show (st.tcb x).state = .sleeping from hs]
    decide
  · rw [hcls]
    exact fun he => absurd he (by decide)

theorem enqueue {d : ℕ} (h : Sound doom st held Q K) (ha : st.At c t (.enqueue d x) k) :
    ∃ Q', Sound doom ((st.setCode t k).enqueueTask d x) held Q' K ∧
      (∀ w, Q' (.wait w) = Q (.wait w)) ∧ ∀ d' p, Q' (.queue d' p) = st.joined Q (some x) d' p := by
  obtain ⟨-, hk⟩ := h.typed ha
  have hb := st.alike_setCode t x k
  have hpend : pendingIn (st.tcb t).code = (d, x) :: pendingIn k := by
    rw [ha.code]
    rfl
  obtain ⟨hlive, hcls, hs, hd, -⟩ := h.lists.pending (c := c) (d := d) (t := x) (by
    rw [Kernel.pendingAt_eq ha.current, hpend]
    exact List.mem_cons_self ..)
  have hcls' := hb.schedClass.trans hcls
  have hL := (h.lists.unpend ha.current (h.one ha) hpend).o1Enqueue hcls' (hb.cpuId.trans hd)
    (lt_of_eq_of_lt hb.priority (h.roster.priority hlive))
  have heq : (st.setCode t k).enqueueTask d x = (st.setCode t k).o1Enqueue d x := by
    unfold Kernel.enqueueTask
    rw [hcls']
  rw [heq]
  have hm := (Kernel.Moved.refl x (st.setCode t k)).o1Enqueue d
  have hs' : (((st.setCode t k).o1Enqueue d x).tcb x).state = (st.tcb x).state := by
    rw [hs]
    exact (Kernel.state_setState _ x x _).trans (if_pos rfl)
  refine ⟨_, h.move ha hm hL (List.Sublist.refl _) (List.Sublist.refl _) (fun _ => ?_)
    (fun _ => congrArg modeOf hs') ?_ ?_, fun w => update_of_ne (by simp) ..,
    Kernel.joined_some hd hb.priority.symm Q⟩
  · rcases eq_or_ne t x with rfl | htx
    · rw [hs']
      exact hk
    · rw [hm.state t htx, (st.alike_setCode t t k).state]
      exact hk
  · rw [hs]
    decide
  · rw [hcls]
    exact fun he => absurd he (by decide)

/-! ## The life of a task -/

section

variable (h : Sound doom st held Q K)
include h

theorem zombie (ha : st.At c t .zombie k) :
    Sound doom ((st.setCode t k).becomeZombie t) held Q K := by
  obtain ⟨hheld, hmode, hcls, hnil⟩ := h.typed ha
  have hquiet : Quiet k := hnil ▸ quiet_nil
  have hlive := ((h.control ha.halted).running ha.current).1
  have hs := running_of_mode hmode
  -- the state, with code `k'`
  have hgo (k' : List Op) {st' : Kernel} (hm : (st.setCode t k').Moved t st')
      (hL' : Lists ((st.setCode t k').setState t .zombie) Q none → Lists st' Q none)
      (hz : (st'.tcb t).state = .zombie) (hq : Quiet k')
      (hk : st'.halted = none → Typed doom c t (st.tcb t).schedClass k' [] .gone) :
      Sound doom st' held Q K := by
    have hb := st.alike_setCode t t k'
    have hL : Lists (st.setCode t k') Q none := by
      refine h.lists.setCode ha.current (h.one ha) ?_
      rw [ha.code, pendingIn_of_quiet hq, pendingIn_of_quiet (quiet_cons.mpr ⟨rfl, hquiet⟩)]
    have hzs : (((st.setCode t k').setState t .zombie).tcb t).state = .zombie :=
      (Kernel.state_setState _ t t _).trans (if_pos rfl)
    have hL := ((hL.takeRunning hlive (hb.state.trans hs)).setState .zombie).close
      ⟨fun hr => absurd (hzs.symm.trans hr) (by decide),
        fun _ hr => absurd (hzs.symm.trans hr) (by decide),
        fun hr => absurd (hzs.symm.trans hr) (by decide)⟩
    refine h.move ha hm (hL' hL) ?_ ?_ (fun hh => ?_) (absurd rfl) ?_ ?_
    · rw [adoptIn_of_quiet hq]
      exact List.nil_sublist _
    · rw [reclaimIn_of_quiet hq]
      exact List.nil_sublist _
    · rw [hz, hheld]
      exact hk hh
    · rw [hs]
      decide
    · rw [hcls]
      exact fun he => absurd he (by decide)
  have hlast : Typed doom c t (st.tcb t).schedClass (.schedule :: .unreachable :: k) [] .gone :=
    ⟨rfl, quiet_cons.mpr ⟨rfl, hquiet⟩, absurd rfl⟩
  have hpush (ops : List Op) : ((st.setCode t k).setState t .zombie).push t ops =
      (st.setCode t (ops ++ k)).setState t .zombie := by
    rw [Kernel.push_eq, Kernel.code_setState, Kernel.code_setCode, if_pos rfl, Kernel.setState_setCode,
      Kernel.setCode_setCode]
  have hz (k' : List Op) : (((st.setCode t k').setState t .zombie).tcb t).state = .zombie :=
    (Kernel.state_setState _ t t _).trans (if_pos rfl)
  unfold Kernel.becomeZombie
  dsimp only
  split
  · rw [hpush]
    exact hgo _ ((Kernel.Moved.refl t _).setState _) id (hz _) (by simp [Op.transient, hquiet])
      fun _ => hlast
  · split
    · rw [hpush]
      refine hgo _ ((Kernel.Moved.refl t _).setState _) id (hz _) ?_ fun _ => ?_
      · simp [Op.transient, hquiet, wakeAllProg]
      · rw [List.append_assoc]
        exact hlast.wakeAllProg _
    · exact hgo k (((Kernel.Moved.refl t _).setState _).halt _)
        (fun hL => hL.congr ⟨rfl, rfl, fun _ => rfl, fun _ => rfl⟩ rfl (fun _ => .refl _) hL.counters)
        (hz k) hquiet (fun hh => by cases hh)

theorem children_eq (t : Tid) : st.children t = K t := by
  refine h.family.rings.walk_lt fun x hx => ?_
  exact h.roster.lt (h.family.child hx).1

theorem findZombie_some {z : Tid} (hz : st.findZombie t = some z) :
    z ∈ K t ∧ (st.tcb z).state = .zombie := by
  unfold Kernel.findZombie at hz
  rw [h.children_eq] at hz
  exact ⟨List.mem_of_find?_eq_some hz, by simpa using List.find?_some hz⟩

theorem scan (ha : st.At c t .scan k)
    (hok : doom ∨ st.kin.isEmpty t = true ∨ (st.findZombie t).isSome = true) :
    Sound doom ((st.setCode t k).scan t) held Q K := by
  obtain ⟨hheld, hmode, hcls, hnil⟩ := h.typed ha
  have hquiet : Quiet k := hnil ▸ quiet_nil
  have hk : Typed doom c t (st.tcb t).schedClass k [] .active := hnil ▸ ⟨rfl, rfl⟩
  have hrel {q : List Op} (hq : Typed doom c t (st.tcb t).schedClass q [] .active) :
      Typed doom c t (st.tcb t).schedClass (.release .taskList :: q) (held c)
        (modeOf (st.tcb t).state) := by
    rw [hheld, hmode]
    exact .inl ⟨[], rfl, hq⟩
  have hfind : (st.setCode t k).findZombie t = st.findZombie t := by
    unfold Kernel.findZombie
    refine congrArg (List.find? · (st.children t)) ?_
    funext x
    rw [(st.alike_setCode t x k).state]
  unfold Kernel.scan
  rw [hfind]
  split
  · rw [Kernel.push_setCode]
    exact h.goOn ha rfl (by simp [Op.transient]) (hrel hk)
  · rename_i hne
    split
    · -- the zombie is about to be reclaimed
      rename_i z hz
      obtain ⟨hzK, hzs⟩ := h.findZombie_some hz
      rw [Kernel.push_setCode]
      have hty : Typed doom c t (st.tcb t).schedClass (destroyProg z ++ k) [] .active :=
        ⟨by simp, rfl, .inl ⟨[], rfl, rfl, rfl, hk⟩⟩
      have hpend : pendingIn (.release .taskList :: destroyProg z ++ k) = pendingIn (st.tcb t).code := by
        rw [pendingIn_append, pendingIn_of_quiet hquiet, ha.code,
          pendingIn_of_quiet (quiet_cons.mpr ⟨rfl, hquiet⟩)]
        rfl
      have hadopt : adoptIn (.release .taskList :: destroyProg z ++ k) = [] := by
        rw [adoptIn_append, adoptIn_of_quiet hquiet]
        rfl
      have hreclaim : reclaimIn (.release .taskList :: destroyProg z ++ k) = [z] := by
        rw [reclaimIn_append, reclaimIn_of_quiet hquiet]
        rfl
      refine of_setCode h.roster h.control ha.current (fun _ => hrel hty)
        (h.lists.setCode ha.current (h.one ha) hpend)
        (h.family.setWork ha.current (h.one ha) ?_ ?_ ?_ ?_)
      · rw [hadopt]
        simp
      · rw [hadopt]
        exact List.nodup_nil
      · rw [hreclaim]
        simpa using ⟨hzK, hzs⟩
      · rw [hreclaim]
        exact List.nodup_singleton z
    · rename_i hz
      have hdoom : doom := by
        rcases hok with hd | he | he
        · exact hd
        · exact absurd he hne
        · rw [hz] at he
          cases he
      rw [Kernel.push_setCode]
      refine h.goOn ha rfl (by simp [Op.transient, sleepProg]) (hrel ?_)
      refine ⟨by simp, rfl, rfl, hcls, fun t' ht' => ?_, .inl ⟨[], rfl, .inr ⟨hdoom, by simp⟩⟩⟩
      cases ht'
      exact ⟨hdoom, rfl⟩

theorem adopt {p : Tid} (ha : st.At c t (.adopt p x) k) :
    ∃ K', Sound doom ((st.setCode t k).adopt p x) held Q K' := by
  obtain ⟨-, rfl, hk⟩ := h.typed ha
  have hlive := ((h.control ha.halted).running ha.current).1
  have hS : Sound doom (st.setCode p k) held Q K := by
    refine h.go ha.current (h.one ha) (fun _ => hk) ?_
    rw [ha.code]
    exact ⟨rfl, List.sublist_cons_self .., List.Sublist.refl _⟩
  have hb (y : Tid) := Family.alike_adopt (st.setCode p k) p x y
  have hcode := Family.code_adopt (st.setCode p k) p x
  refine ⟨_, ?_, fun hh => ?_, ?_, h.family.adopt ha.current (h.one ha) (h.roster.lt hlive) ha.code⟩
  · exact hS.roster.congr rfl rfl (fun _ => Iff.rfl) (fun _ => rfl) (fun y => (hb y).cpuId)
      (fun y => (hb y).priority) (fun y => (hb y).schedClass) (fun y _ hy => (hb y).state ▸ hy) rfl rfl
  · exact (hS.control hh).congr (fun _ => rfl) rfl hb hcode rfl rfl
  · exact hS.lists.congr ⟨rfl, rfl, fun _ => rfl, Kernel.pendingAt_congr (fun _ => rfl) hcode⟩ rfl hb
      hS.lists.counters

theorem reclaim_zombie {z : Tid} (ha : st.At c t (.reclaim z) k) :
    z ∈ K t ∧ (st.tcb z).state = .zombie ∧ st.live z = true ∧ ∀ c', st.current c' ≠ some z := by
  have hmem : z ∈ st.reclaimAt c := by
    rw [Kernel.reclaimAt, Kernel.codeAt_eq ha.current, ha.code]
    exact List.mem_cons_self ..
  obtain ⟨hzK, hzs⟩ := h.family.reclaiming ha.current hmem
  exact ⟨hzK, hzs, (h.family.child hzK).1, h.family.not_current (h.control ha.halted) hmem⟩

theorem reclaim {z : Tid} (ha : st.At c t (.reclaim z) k) :
    Sound doom ((st.setCode t k).reclaim z) held Q (update K t ((K t).erase z)) := by
  obtain ⟨hheld, hmode, hk⟩ := h.typed ha
  obtain ⟨hzK, hzs, -, hcur⟩ := h.reclaim_zombie ha
  have hS : Sound doom (st.setCode t k) held Q K := by
    refine h.go ha.current (h.one ha) (fun _ => by rw [hheld]; exact hk) ?_
    rw [ha.code]
    exact ⟨rfl, List.Sublist.refl _, List.sublist_cons_self ..⟩
  have hzs' : ((st.setCode t k).tcb z).state = .zombie := (st.alike_setCode t z k).state.trans hzs
  have hlive {y : Tid} (hy : ((st.setCode t k).reclaim z).live y = true) :
      (st.setCode t k).live y = true := by
    change update (st.setCode t k).live z false y = true at hy
    rw [update_apply] at hy
    split at hy
    · cases hy
    · exact hy
  have hlive' {y : Tid} (hy : y ≠ z) (hl : (st.setCode t k).live y = true) :
      ((st.setCode t k).reclaim z).live y = true :=
    (update_of_ne hy ..).trans hl
  have hR := hS.roster
  refine ⟨⟨fun hl => hR.lt (hlive hl), fun hl => hR.up (hlive hl), fun hl => hR.priority (hlive hl),
    hR.idle, fun {c' i} hi => ?_, fun hl => hR.idle_eq (hlive hl), hR.idle_mode, hR.kernelTask, hR.initTask⟩,
    fun hh => ?_, hS.lists.reclaim hzs', h.family.reclaim ha.current (h.one ha) ha.code⟩
  · obtain ⟨hil, hic, hcls⟩ := hR.idle_live hi
    refine ⟨hlive' ?_ hil, hic, hcls⟩
    rintro rfl
    refine hR.idle_mode hcls ?_
    rw [hzs']
    rfl
  · have hC := hS.control hh
    refine ⟨fun {c' y} hy => ?_, fun hl => hC.saved (hlive hl), hC.owner, hC.nodup, hC.depth, hC.intr,
      hC.down⟩
    obtain ⟨hl, hty⟩ := hC.running hy
    refine ⟨hlive' ?_ hl, hty⟩
    rintro rfl
    exact hcur c' hy

end

end Sound

section Spawn

variable {doom : Prop} {st : Kernel} {held : ℕ → List Spinlock} {c p : ℕ} {k : List Op}

theorem Roster.spawn (h : Roster st) (hup : st.current c ≠ none) (hp : p < kNumPriorities) :
    Roster (st.spawn c p .o1 k) := by
  have hself := st.tcb_spawn_self k c p .o1
  have hother {y : Tid} (hy : y ≠ st.nextTid) := st.tcb_spawn_of_ne k hy c p .o1
  have hlive {y : Tid} (hy : y ≠ st.nextTid) := st.live_spawn_of_ne k hy c p .o1
  refine ⟨fun {y} hl => ?_, fun {y} hl => ?_, fun {y} hl => ?_, h.idle, fun {c' i} hi => ?_,
    fun {y} hl hcls => ?_, fun {y} hcls => ?_, h.kernelTask, h.initTask⟩
  all_goals try rcases eq_or_ne y st.nextTid with rfl | hy
  · exact Nat.lt_succ_self _
  · exact (h.lt (hlive hy ▸ hl)).trans (Nat.lt_succ_self _)
  · rw [hself]
    exact hup
  · rw [hother hy]
    exact h.up (hlive hy ▸ hl)
  · rw [hself]
    exact hp
  · rw [hother hy]
    exact h.priority (hlive hy ▸ hl)
  · obtain ⟨hl, hc, hcls⟩ := h.idle_live hi
    have hi' : i ≠ st.nextTid := (h.lt hl).ne
    rw [hlive hi', hother hi']
    exact ⟨hl, hc, hcls⟩
  · rw [hself] at hcls
    cases hcls
  · rw [hother hy] at hcls ⊢
    exact h.idle_eq (hlive hy ▸ hl) hcls
  · rw [hself] at hcls
    cases hcls
  · rw [hother hy] at hcls ⊢
    exact h.idle_mode hcls

theorem Control.spawn (h : Control doom st held) (hR : Roster st)
    (hk : Quiet k ∧ Typed doom c st.nextTid .o1 k [.runQueue c] .active) :
    Control doom (st.spawn c p .o1 k) held := by
  refine ⟨fun {c' y} hy => ?_, fun {y} hl hmode hy => ?_, h.owner, h.nodup, h.depth, h.intr, h.down⟩
  · obtain ⟨hl, hty⟩ := h.running hy
    have hne : y ≠ st.nextTid := (hR.lt hl).ne
    rw [st.live_spawn_of_ne k hne, st.tcb_spawn_of_ne k hne]
    exact ⟨hl, hty⟩
  · rcases eq_or_ne y st.nextTid with rfl | hne
    · rw [st.tcb_spawn_self]
      exact hk
    · rw [st.tcb_spawn_of_ne k hne] at hmode hy ⊢
      rw [st.live_spawn_of_ne k hne] at hl
      exact h.saved hl hmode hy

end Spawn

namespace Sound

variable {doom : Prop} {st st' : Kernel} {held : ℕ → List Spinlock} {Q : RunHead → List Tid}
  {K : Tid → List Tid} {c : ℕ} {t x : Tid} {op : Op} {k k' : List Op} {l : Spinlock}

theorem create (h : Sound doom st held Q K) (hh : st.halted = none) (hc : st.current c = some t)
    (hq : Quiet (st.tcb t).code) {p : ℕ} (hp : p < kNumPriorities) {kx prog : List Op}
    (hkx : Quiet kx ∧ Typed doom c st.nextTid .o1 kx [.runQueue c] .active)
    (hprog : Typed doom c t (st.tcb t).schedClass (prog ++ (st.tcb t).code) (held c)
      (modeOf (st.tcb t).state))
    (hpend : pendingIn prog = [(c, st.nextTid)]) (hadopt : (adoptIn prog).Sublist [st.nextTid])
    (hreclaim : reclaimIn prog = []) : Sound doom ((st.spawn c p .o1 kx).push t prog) held Q K := by
  have hC := h.control hh
  have hup : st.current c ≠ none := by
    rw [hc]
    simp
  have hlive {c' : ℕ} {y : Tid} (hy : st.current c' = some y) : st.live y = true := (hC.running hy).1
  have htx : t ≠ st.nextTid := (h.roster.lt (hlive hc)).ne
  have hL := h.lists.spawn h.roster.lt hlive c p .o1 kx
  have hF := h.family.spawn h.roster.lt hlive c p .o1 kx
  have hself := st.tcb_spawn_self kx c p .o1
  have hother := st.tcb_spawn_of_ne kx htx c p .o1
  have hcode : pendingIn (prog ++ (st.tcb t).code) = (c, st.nextTid) :: pendingIn (st.tcb t).code := by
    rw [pendingIn_append, hpend]
    rfl
  have ha : adoptIn (prog ++ (st.tcb t).code) = adoptIn prog := by
    rw [adoptIn_append, adoptIn_of_quiet hq, List.append_nil]
  have hr : reclaimIn (prog ++ (st.tcb t).code) = [] := by
    rw [reclaimIn_append, hreclaim, reclaimIn_of_quiet hq]
    rfl
  rw [Kernel.push_eq, hother]
  refine of_setCode (h.roster.spawn hup hp) (fun _ => hC.spawn h.roster hkx) hc (fun _ => ?_) ?_ ?_
  · rw [hother]
    exact hprog
  · refine hL.pend hc (fun _ => hC.unique hc) (by rw [hother]; exact hcode) ?_ ?_ ?_
    all_goals rw [hself]
  · refine hF.setWork hc (fun _ => hC.unique hc) (fun y hy => ?_) ?_ ?_ ?_
    · rw [ha] at hy
      obtain rfl := List.mem_singleton.mp (hadopt.subset hy)
      refine ⟨⟨(hL.out_free rfl).1, ?_, htx.symm, fun q hq => ?_⟩, fun c' _ hc' => ?_⟩
      · rw [hself, hother]
        exact (hC.running hc).2.1.symm
      · exact absurd (h.roster.lt (h.family.child hq).1) (lt_irrefl _)
      · -- no CPU knew of the task before
        have hat : (st.spawn c p .o1 kx).adoptAt c' = st.adoptAt c' := by
          rw [Kernel.adoptAt, Kernel.adoptAt]
          congr 1
          exact Kernel.codeAt_congr rfl fun y hy => by
            rw [st.tcb_spawn_of_ne kx (h.roster.lt (hlive hy)).ne]
        rw [hat] at hc'
        cases hcur : st.current c' with
        | none => simp [Kernel.adoptAt, Kernel.codeAt, hcur, adoptIn] at hc'
        | some u => exact absurd (h.roster.lt (h.family.adopting hcur hc').1) (lt_irrefl _)
    · rw [ha]
      exact (List.nodup_singleton _).sublist hadopt
    · rw [hr]
      simp
    · rw [hr]
      exact List.nodup_nil

theorem fork (h : Sound doom st held Q K) {ok : Bool} (ha : st.At c t (.fork ok) k) :
    Sound doom ((st.setCode t k).fork c t) held Q K := by
  obtain ⟨hheld, hmode, hquiet, hk⟩ := h.typed ha
  have hlive := ((h.control ha.halted).running ha.current).1
  have hb := st.alike_setCode t t k
  have hS : Sound doom (st.setCode t k) held Q K :=
    h.goOn ha (p := []) rfl quiet_nil (by rw [hheld, hmode]; exact hk)
  have hcode : ((st.setCode t k).tcb t).code = k := (st.code_setCode t t k).trans (if_pos rfl)
  unfold Kernel.fork Kernel.enqueueProg
  dsimp only
  rw [Kernel.tcb_spawn_self]
  refine hS.create ha.halted ha.current (by rwa [hcode]) ?_ ⟨by simp [Op.transient], ?_⟩ ?_ rfl
    (List.Sublist.refl _) rfl
  · rw [hb.priority]
    exact h.roster.priority hlive
  · exact .inl ⟨[], rfl, rfl, rfl, rfl⟩
  · rw [hcode, hb.schedClass, hb.state, hheld, hmode]
    exact ⟨by simp, rfl, rfl, .inl ⟨[], rfl, by simp, rfl, .inl ⟨[], rfl, by simp, rfl, .inl ⟨[], rfl, hk⟩⟩⟩⟩

theorem kthreadCreate (h : Sound doom st held Q K) {p : ℕ} {ok : Bool}
    (ha : st.At c t (.kthreadCreate p ok) k) :
    Sound doom ((st.setCode t k).kthreadCreate c t p) held Q K := by
  obtain ⟨hheld, hmode, hp, hquiet, hk⟩ := h.typed ha
  have hb := st.alike_setCode t t k
  have hS : Sound doom (st.setCode t k) held Q K :=
    h.goOn ha (p := []) rfl quiet_nil (by rw [hheld, hmode]; exact hk)
  have hcode : ((st.setCode t k).tcb t).code = k := (st.code_setCode t t k).trans (if_pos rfl)
  have hnone : ((st.setCode t k).spawn c p .o1
      [.release (.runQueue c), .intrOn]).kernelTask = none := h.roster.kernelTask
  unfold Kernel.kthreadCreate Kernel.enqueueProg
  dsimp only
  rw [Kernel.tcb_spawn_self, hnone]
  refine hS.create ha.halted ha.current (by rwa [hcode]) hp ⟨by simp [Op.transient], ?_⟩ ?_ rfl
    (List.nil_sublist _) rfl
  · exact .inl ⟨[], rfl, rfl, rfl, rfl⟩
  · rw [hcode, hb.schedClass, hb.state, hheld, hmode]
    exact ⟨by simp, rfl, .inl ⟨[], rfl, by simp, rfl, .inl ⟨[], rfl, hk⟩⟩⟩

end Sound

/-! ## Bringing up a CPU -/

namespace Kernel

variable (st : Kernel) (c : ℕ)

theorem bringUp_boot : (st.bringUp c).tcb (st.nextTid + 1) =
    ⟨.running, 0, c, priorityToTimeslice 0, none, 0, .o1, []⟩ := by
  simp [bringUp, setRq, setState, setTcb, spawn]

theorem bringUp_idle : (st.bringUp c).tcb st.nextTid =
    ⟨.runnable, kIdlePriority, c, priorityToTimeslice kIdlePriority, none, 0, .idle,
      [.release (.runQueue c), .intrOn]⟩ := by
  simp [bringUp, setRq, setState, setTcb, spawn]

theorem bringUp_tcb {t : Tid} (hi : t ≠ st.nextTid) (hb : t ≠ st.nextTid + 1) :
    (st.bringUp c).tcb t = st.tcb t := by
  simp [bringUp, setRq, setState, setTcb, spawn, hi, hb]

theorem bringUp_live (t : Tid) : (st.bringUp c).live t = true ↔
    t = st.nextTid ∨ t = st.nextTid + 1 ∨ st.live t = true := by
  simp only [bringUp, setRq, setState, setTcb, spawn, update_apply]
  split
  · simp_all
  · split <;> simp_all

theorem bringUp_current (c' : ℕ) :
    (st.bringUp c).current c' = if c' = c then some (st.nextTid + 1) else st.current c' := by
  simp only [current, bringUp, setRq, setState, setTcb, spawn, update_apply]
  split <;> rfl

theorem bringUp_rq_idle (c' : ℕ) :
    ((st.bringUp c).rq c').idle = if c' = c then some st.nextTid else (st.rq c').idle := by
  simp only [bringUp, setRq, setState, setTcb, spawn, update_apply]
  split <;> rfl

end Kernel

section BringUp

variable {doom : Prop} {st : Kernel} {held : ℕ → List Spinlock} {Q : RunHead → List Tid}
  {K : Tid → List Tid} {c : ℕ}

theorem Roster.cpuId_ne (h : Roster st) (hdown : st.current c = none) {t : Tid}
    (hl : st.live t = true) : (st.tcb t).cpuId ≠ c := by
  rintro rfl
  exact h.up hl hdown

theorem Roster.bringUp (h : Roster st) (hdown : st.current c = none) : Roster (st.bringUp c) := by
  have hold {t : Tid} (hl : st.live t = true) : (st.bringUp c).tcb t = st.tcb t :=
    st.bringUp_tcb c (h.lt hl).ne ((h.lt hl).trans (Nat.lt_succ_self _)).ne
  refine ⟨fun {t} hl => ?_, fun {t} hl => ?_, fun {t} hl => ?_, fun {c'} hup => ?_, fun {c' i} hi => ?_,
    fun {t} hl hcls => ?_, fun {t} hcls => ?_, h.kernelTask, h.initTask⟩
  · rcases (st.bringUp_live c t).mp hl with rfl | rfl | hl
    · exact Nat.lt_succ_of_le (Nat.le_succ _)
    · exact Nat.lt_succ_self _
    · exact (h.lt hl).trans (Nat.lt_succ_of_le (Nat.le_succ _))
  · rw [st.bringUp_current]
    rcases (st.bringUp_live c t).mp hl with rfl | rfl | hl
    · simp [st.bringUp_idle]
    · simp [st.bringUp_boot]
    · rw [hold hl, if_neg (h.cpuId_ne hdown hl)]
      exact h.up hl
  · rcases (st.bringUp_live c t).mp hl with rfl | rfl | hl
    · rw [st.bringUp_idle]
      exact (by decide : kIdlePriority < kNumPriorities)
    · rw [st.bringUp_boot]
      exact (by decide : 0 < kNumPriorities)
    · rw [hold hl]
      exact h.priority hl
  · rw [st.bringUp_current] at hup
    rw [st.bringUp_rq_idle]
    split
    · exact ⟨_, rfl⟩
    · rename_i hne
      rw [if_neg hne] at hup
      exact h.idle hup
  · rw [st.bringUp_rq_idle] at hi
    split at hi
    · rename_i he
      obtain rfl := Option.some_injective _ hi
      rw [st.bringUp_idle, he]
      exact ⟨(st.bringUp_live c _).mpr (.inl rfl), rfl, rfl⟩
    · obtain ⟨hl, hc, hcls⟩ := h.idle_live hi
      rw [hold hl]
      exact ⟨(st.bringUp_live c _).mpr (.inr (.inr hl)), hc, hcls⟩
  · rw [st.bringUp_rq_idle]
    rcases (st.bringUp_live c t).mp hl with rfl | rfl | hl
    · rw [st.bringUp_idle]
      exact if_pos rfl
    · rw [st.bringUp_boot] at hcls
      cases hcls
    · rw [hold hl] at hcls ⊢
      rw [if_neg (h.cpuId_ne hdown hl)]
      exact h.idle_eq hl hcls
  · by_cases hi : t = st.nextTid
    · rw [hi, st.bringUp_idle]
      simp [modeOf]
    · by_cases hb : t = st.nextTid + 1
      · rw [hb, st.bringUp_boot]
        simp [modeOf]
      · rw [st.bringUp_tcb c hi hb] at hcls ⊢
        exact h.idle_mode hcls

theorem Control.bringUp (h : Control doom st held) (hR : Roster st) (hdown : st.current c = none) :
    Control doom (st.bringUp c) held := by
  have hold {t : Tid} (hl : st.live t = true) : (st.bringUp c).tcb t = st.tcb t :=
    st.bringUp_tcb c (hR.lt hl).ne ((hR.lt hl).trans (Nat.lt_succ_self _)).ne
  refine ⟨fun {c' t} ht => ?_, fun {t} hl hmode ht => ?_, h.owner, h.nodup, h.depth, h.intr,
    fun {c'} hnone => ?_⟩
  · rw [st.bringUp_current] at ht
    split at ht
    · rename_i he
      obtain rfl := Option.some_injective _ ht
      rw [st.bringUp_boot, he, h.down hdown]
      exact ⟨(st.bringUp_live c _).mpr (.inr (.inl rfl)), rfl, rfl, rfl⟩
    · obtain ⟨hl, hty⟩ := h.running ht
      rw [hold hl]
      exact ⟨(st.bringUp_live c _).mpr (.inr (.inr hl)), hty⟩
  · rw [st.bringUp_current] at ht
    rcases (st.bringUp_live c t).mp hl with rfl | rfl | hl
    · rw [st.bringUp_idle]
      exact ⟨by simp [Op.transient], .inl ⟨[], rfl, rfl, rfl, rfl⟩⟩
    · rw [st.bringUp_boot] at ht
      exact absurd (if_pos rfl) ht
    · rw [hold hl] at hmode ht ⊢
      rw [if_neg (hR.cpuId_ne hdown hl)] at ht
      exact h.saved hl hmode ht
  · rw [st.bringUp_current] at hnone
    split at hnone
    · cases hnone
    · exact h.down hnone

theorem Lists.bringUp (h : Lists st Q none) (hR : Roster st)
    (hcur : ∀ {c t}, st.current c = some t → st.live t = true) (hdown : st.current c = none) :
    Lists (st.bringUp c) Q none := by
  obtain ⟨st₁, hst₁⟩ : ∃ st₁, st₁ = st.spawn c kIdlePriority .idle [.release (.runQueue c), .intrOn] :=
    ⟨_, rfl⟩
  have hi : st₁.tcb st.nextTid = ⟨.runnable, kIdlePriority, c, priorityToTimeslice kIdlePriority, none, 0,
      .idle, [.release (.runQueue c), .intrOn]⟩ := by
    rw [hst₁, st.tcb_spawn_self]
  have hold {t : Tid} (ht : t ≠ st.nextTid) : st₁.tcb t = st.tcb t ∧ st₁.live t = st.live t := by
    rw [hst₁]
    exact ⟨st.tcb_spawn_of_ne _ ht .., st.live_spawn_of_ne _ ht ..⟩
  have hnext : st₁.nextTid = st.nextTid + 1 := by rw [hst₁]; rfl
  have hcur₁ (c' : ℕ) : st₁.current c' = st.current c' := by rw [hst₁]; rfl
  have hL₁ : Lists st₁ Q none := by
    have hout := h.spawn hR.lt hcur c kIdlePriority .idle [.release (.runQueue c), .intrOn]
    rw [← hst₁] at hout
    refine hout.close ⟨fun hr => ?_, fun ho _ => ?_, fun hr => ?_⟩
    · rw [hi] at hr
      cases hr
    · rw [hi] at ho
      cases ho
    · rw [hi] at hr
      cases hr
  have hL₂ : Lists (st₁.spawn c 0 .o1 []) Q (some st₁.nextTid) := by
    refine hL₁.spawn (fun {t} hl => ?_) (fun {c' t} ht => ?_) c 0 .o1 []
    · rw [hnext]
      rcases eq_or_ne t st.nextTid with rfl | ht
      · exact Nat.lt_succ_self _
      · rw [(hold ht).2] at hl
        exact (hR.lt hl).trans (Nat.lt_succ_self _)
    · rw [hcur₁] at ht
      rw [(hold (hR.lt (hcur ht)).ne).2]
      exact hcur ht
  have hboot : (((st₁.spawn c 0 .o1 []).setState st₁.nextTid .running).tcb st₁.nextTid) =
      ⟨.running, 0, c, priorityToTimeslice 0, none, 0, .o1, []⟩ := by
    simp [Kernel.setState, Kernel.setTcb, Kernel.spawn]
  have hL₃ := (hL₂.setState .running).switch (c := c)
    (f := fun rq => { rq with idle := some st.nextTid, current := some st₁.nextTid })
    (fun t ht => (Option.some_injective _ ht).symm) rfl rfl rfl ?_ ?_ ?_ ?_ fun t hl hc hr => ?_
  · rw [hst₁] at hL₃
    exact hL₃
  · -- the CPU runs nothing yet
    have hnone : ((st₁.spawn c 0 .o1 []).setState st₁.nextTid .running).current c = none :=
      (hcur₁ c).trans hdown
    rw [Kernel.pendingAt, Kernel.codeAt, hnone]
    rfl
  · rw [hboot]
    rfl
  · rw [hboot]
  · rw [hboot]
  · by_contra hne
    rw [Kernel.setState, Kernel.tcb_setTcb_of_ne _ _ hne, st₁.tcb_spawn_of_ne _ hne] at hc hr
    have hl : st₁.live t = true := (st₁.live_spawn_of_ne [] hne c 0 .o1).symm.trans hl
    rcases eq_or_ne t st.nextTid with rfl | ht
    · rw [hi] at hr
      cases hr
    · rw [(hold ht).1] at hc
      exact hR.cpuId_ne hdown ((hold ht).2 ▸ hl) hc

theorem Family.bringUp (h : Family st K) (hR : Roster st)
    (hcur : ∀ {c t}, st.current c = some t → st.live t = true) (hdown : st.current c = none) :
    Family (st.bringUp c) K := by
  obtain ⟨st₁, hst₁⟩ : ∃ st₁, st₁ = st.spawn c kIdlePriority .idle [.release (.runQueue c), .intrOn] :=
    ⟨_, rfl⟩
  have hlive {t : Tid} (ht : t ≠ st.nextTid) : st₁.live t = st.live t := by
    rw [hst₁]
    exact st.live_spawn_of_ne _ ht ..
  have hF₁ := h.spawn hR.lt hcur c kIdlePriority .idle [.release (.runQueue c), .intrOn]
  rw [← hst₁] at hF₁
  have hnext : st₁.nextTid = st.nextTid + 1 := by rw [hst₁]; rfl
  have hcur₁ (c' : ℕ) : st₁.current c' = st.current c' := by rw [hst₁]; rfl
  have hF₂ : Family (st₁.spawn c 0 .o1 []) K := by
    refine hF₁.spawn (fun {t} hl => ?_) (fun {c' t} ht => ?_) c 0 .o1 []
    · rw [hnext]
      rcases eq_or_ne t st.nextTid with rfl | ht
      · exact Nat.lt_succ_self _
      · rw [hlive ht] at hl
        exact (hR.lt hl).trans (Nat.lt_succ_self _)
    · rw [hcur₁] at ht
      rw [hlive (hR.lt (hcur ht)).ne]
      exact hcur ht
  have hfinal : st.bringUp c = ((st₁.spawn c 0 .o1 []).setState st₁.nextTid .running).setRq c
      fun rq => { rq with idle := some st.nextTid, current := some st₁.nextTid } := by
    rw [hst₁]
    rfl
  have hself := st₁.tcb_spawn_self [] c 0 .o1
  have hat : (st₁.spawn c 0 .o1 []).codeAt c = [] := by
    rw [Kernel.codeAt, show (st₁.spawn c 0 .o1 []).current c = none from (hcur₁ c).trans hdown]
  have hwork (c' : ℕ) : (st.bringUp c).codeAt c' = (st₁.spawn c 0 .o1 []).codeAt c' := by
    rcases eq_or_ne c' c with rfl | hne
    · rw [hat, Kernel.codeAt_eq ((st.bringUp_current c' c').trans (if_pos rfl)), st.bringUp_boot]
    · have hc : (st.bringUp c).current c' = (st₁.spawn c 0 .o1 []).current c' := by
        rw [st.bringUp_current, if_neg hne]
        exact (hcur₁ c').symm
      refine Kernel.codeAt_congr hc fun t _ => ?_
      rw [hfinal]
      exact Kernel.code_setState ..
  refine hF₂.congr (hfinal ▸ rfl) (hfinal ▸ rfl) (hfinal ▸ rfl) (fun t => ?_) (fun t => ?_)
    (fun t ht => ?_) (fun c' => ?_) (fun c' => ?_) fun c' hne => ?_
  · rw [hfinal]
    exact Kernel.cpuId_setState ..
  · rw [hfinal]
    exact Kernel.parent_setState ..
  · have htb : t ≠ st₁.nextTid := by
      rintro rfl
      rw [hself] at ht
      cases ht
    rw [hfinal]
    exact (Kernel.state_setState ..).trans ((if_neg htb).trans ht)
  · rw [Kernel.adoptAt, hwork, Kernel.adoptAt]
  · rw [Kernel.reclaimAt, hwork, Kernel.reclaimAt]
  · have hcc : c' ≠ c := by
      rintro rfl
      simp [Kernel.adoptAt, Kernel.reclaimAt, hat, adoptIn, reclaimIn] at hne
    rw [st.bringUp_current, if_neg hcc]
    exact (hcur₁ c').symm

theorem Sound.boot (h : Sound doom st held Q K) (hh : st.halted = none)
    (hdown : st.current c = none) : Sound doom (st.bringUp c) held Q K := by
  have hC := h.control hh
  have hcur {c' : ℕ} {t : Tid} (ht : st.current c' = some t) : st.live t = true := (hC.running ht).1
  exact ⟨h.roster.bringUp hdown, fun _ => hC.bringUp h.roster hdown,
    h.lists.bringUp h.roster hcur hdown, h.family.bringUp h.roster hcur hdown⟩

end BringUp

end Lume.Sched
