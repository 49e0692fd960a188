import Lume.Sched.Flow

/-!
# What a step changes

A step of a CPU changes the code of its current task, and hardly anything of the others: it may
create a task or reclaim one, take or release a lock, and make a condition true.

## Main definitions

* `Kernel.Change`: what a step does to the tasks that exist
* `Kernel.Local`: what a step of a CPU leaves alone
* `Kernel.Goes`: how the code of the current task goes on

## Main results

* `Sound.change`, `Sound.local`, `Sound.goes`
* `Sound.current_step`, `Sound.owner_step`, `Sound.epoch_step`
* `Kernel.pushedBy_of_mem`: where the operations of the code come from
-/

namespace Lume.Sched

open Function (update update_apply update_of_ne update_self)

/-! ## The population -/

/-- Why a step stops the machine. -/
inductive Kernel.Stops (st : Kernel) (l : Label) : Halt → Prop
  | doubleLock {t : Tid} {s : Spinlock} (hop : st.nextOp l = some (t, .acquire s))
      (howner : st.owner s = some l.cpu) : Stops st l (.doubleLock s)
  | invalidRelease {t : Tid} {s : Spinlock} (hop : st.nextOp l = some (t, .release s))
      (howner : st.owner s ≠ some l.cpu) : Stops st l (.invalidRelease s)
  | reclaimed {t p : Tid} (hop : st.nextOp l = some (t, .zombie)) (hparent : (st.tcb t).parent = some p)
      (hdead : st.live p = false) : Stops st l (.reclaimed p)

/-- What a step does to the population, the parents and the machine. -/
inductive Kernel.Change (st : Kernel) (l : Label) (st' : Kernel) : Prop
  | keeps (hlive : st'.live = st.live) (hnext : st'.nextTid = st.nextTid)
      (hparent : ∀ x, (st'.tcb x).parent = (st.tcb x).parent) (hhalted : st'.halted = st.halted)
  | create (n : ℕ) (hnext : st'.nextTid = st.nextTid + n)
      (hlive : ∀ x, st'.live x = true ↔
        st.live x = true ∨ st.nextTid ≤ x ∧ x < st.nextTid + n)
      (hold : ∀ x < st.nextTid, (st'.tcb x).parent = (st.tcb x).parent)
      (hnew : ∀ x, st.nextTid ≤ x → x < st.nextTid + n → (st'.tcb x).parent = none)
      (hhalted : st'.halted = st.halted)
  | reclaim {t z : Tid} (hop : st.nextOp l = some (t, .reclaim z))
      (hlive : st'.live = update st.live z false) (hnext : st'.nextTid = st.nextTid)
      (hparent : ∀ x, (st'.tcb x).parent = (st.tcb x).parent) (hhalted : st'.halted = st.halted)
  | adopt {t x : Tid} (hc : st.current l.cpu = some t) (hlive : st'.live = st.live)
      (hnext : st'.nextTid = st.nextTid)
      (hparent : ∀ y, (st'.tcb y).parent = if y = x then some t else (st.tcb y).parent)
      (hhalted : st'.halted = st.halted)
  | halt {e : Halt} (hstop : st.Stops l e) (hlive : st'.live = st.live)
      (hnext : st'.nextTid = st.nextTid) (hparent : ∀ x, (st'.tcb x).parent = (st.tcb x).parent)
      (hhalted : st'.halted = some e)

section Change

variable {doom : Prop} {st st' : Kernel} {held : ℕ → List Spinlock} {Q : RunHead → List Tid}
  {K : Tid → List Tid} {c : ℕ} {t : Tid} {k : List Op}

theorem Kernel.Change.of_keeps {l : Label} (h : st.Keeps st') : st.Change l st' :=
  .keeps h.live h.nextTid h.parent h.halted

theorem Kernel.Change.of_spawn (l : Label) (p : ℕ) (k kx prog : List Op) :
    st.Change l (((st.setCode t k).spawn c p .o1 kx).push t prog) := by
  have hkeep := (Kernel.Keeps.refl ((st.setCode t k).spawn c p .o1 kx)).push t prog
  have hother {x : Tid} (hx : x ≠ st.nextTid) := (st.setCode t k).tcb_spawn_of_ne kx hx c p .o1
  refine .create 1 rfl (fun x => ?_) (fun x hx => ?_) (fun x hle hlt => ?_) rfl
  · change update st.live st.nextTid true x = true ↔ _
    rw [update_apply]
    split
    · rename_i he
      subst he
      simp
    · rename_i hne
      refine ⟨.inl, fun h => h.resolve_right fun ⟨hle, hlt⟩ => hne ?_⟩
      exact le_antisymm (Nat.lt_succ_iff.mp hlt) hle
  · rw [hkeep.parent, hother hx.ne, st.parent_setCode]
  · obtain rfl : x = st.nextTid := le_antisymm (Nat.lt_succ_iff.mp hlt) hle
    rw [hkeep.parent]
    exact congrArg Tcb.parent ((st.setCode t k).tcb_spawn_self kx c p .o1)

theorem Kernel.Change.of_bringUp (l : Label) (c : ℕ) : st.Change l (st.bringUp c) := by
  have hnew (x : Tid) (hle : st.nextTid ≤ x) (hlt : x < st.nextTid + 2) :
      x = st.nextTid ∨ x = st.nextTid + 1 := by
    rcases Nat.lt_or_ge x (st.nextTid + 1) with h | h
    · exact .inl (le_antisymm (Nat.lt_succ_iff.mp h) hle)
    · exact .inr (le_antisymm (Nat.lt_succ_iff.mp hlt) h)
  refine .create 2 rfl (fun x => ?_) (fun x hx => ?_) (fun x hle hlt => ?_) rfl
  · rw [st.bringUp_live]
    constructor
    · rintro (rfl | rfl | hl)
      · exact .inr ⟨le_refl _, Nat.lt_add_of_pos_right (Nat.succ_pos _)⟩
      · exact .inr ⟨Nat.le_succ _, Nat.lt_succ_self _⟩
      · exact .inl hl
    · rintro (hl | ⟨hle, hlt⟩)
      · exact .inr (.inr hl)
      · exact (hnew x hle hlt).imp_right .inl
  · rw [st.bringUp_tcb c hx.ne (hx.trans (Nat.lt_succ_self _)).ne]
  · rcases hnew x hle hlt with rfl | rfl
    · rw [st.bringUp_idle]
    · rw [st.bringUp_boot]

theorem Sound.change {l : Label} (h : Sound doom st held Q K) (hs : st.Step l st') :
    st.Change l st' := by
  have ht := hs.taken
  obtain ⟨c, act⟩ := l
  cases ht with
  | boot hdown => exact .of_bringUp _ c
  | @call t a => exact .of_keeps (.setCode st t _)
  | setIntr => exact .keeps rfl rfl (fun _ => rfl) rfl
  | @irq t i => exact .keeps rfl rfl (st.parent_setCode t · _) rfl
  | @op t op k ha hfree =>
    have hop := ha.nextOp
    have hkeep := Kernel.Keeps.setCode st t k
    by_cases hdr : op.drastic = false
    · exact .of_keeps (hkeep.perform c t hdr)
    cases op with
    | fork ok =>
      change st.Change _ (if ok then (st.setCode t k).fork c t else st.setCode t k)
      split
      exacts [.of_spawn _ _ k _ _, .of_keeps hkeep]
    | kthreadCreate p ok =>
      change st.Change _ (if ok then (st.setCode t k).kthreadCreate c t p else st.setCode t k)
      split
      exacts [.of_spawn _ _ k _ _, .of_keeps hkeep]
    | reclaim z => exact .reclaim hop rfl rfl hkeep.parent rfl
    | adopt p x =>
      obtain ⟨-, rfl, -⟩ := h.typed ha
      refine .adopt (x := x) ha.current rfl rfl (fun y => ?_) rfl
      change (((st.setCode p k).setTcb x fun b => { b with parent := some p }).tcb y).parent = _
      rw [Kernel.tcb_setTcb]
      split
      exacts [rfl, hkeep.parent y]
    | reparent f => exact (h.typed ha).elim
    | unreachable => exact (h.typed ha).elim
    | acquire s =>
      change st.Change _ ((st.setCode t k).acquire c s)
      unfold Kernel.acquire
      dsimp only
      split
      · rename_i ho
        exact .halt (.doubleLock hop ho) rfl rfl hkeep.parent rfl
      · exact .keeps rfl rfl hkeep.parent rfl
    | release s =>
      change st.Change _ ((st.setCode t k).release c s)
      unfold Kernel.release
      split
      · exact .keeps rfl rfl hkeep.parent rfl
      · rename_i ho
        exact .halt (.invalidRelease hop ho) rfl rfl hkeep.parent rfl
    | zombie =>
      change st.Change _ ((st.setCode t k).becomeZombie t)
      unfold Kernel.becomeZombie
      have hz := hkeep.setState t .zombie fun _ => by rw [ha.code, (h.typed ha).2.2.2]
      dsimp only
      split
      · exact .of_keeps (hz.push t _)
      · rename_i p hp
        split
        · exact .of_keeps (hz.push t _)
        · rename_i hl
          rw [hz.parent] at hp
          exact .halt (.reclaimed hop hp (Bool.eq_false_of_not_eq_true hl)) rfl rfl hz.parent rfl
    | intrOn | iret | userret => exact .keeps rfl rfl hkeep.parent rfl
    | raise n all =>
      refine .keeps rfl rfl (fun x => ?_) rfl
      exact ((Kernel.parent_setCode _ t x _).trans (hkeep.parent x))
    | _ => exact absurd rfl hdr

/-- Code that a new task starts with. -/
def startCodes (c : ℕ) : List (List Op) :=
  [[], [.release (.runQueue c), .userret], [.release (.runQueue c), .intrOn]]

/-- A step of CPU `c` leaves the code of tasks it does not run and the other CPUs alone. -/
structure Kernel.Local (c : ℕ) (st st' : Kernel) : Prop where
  code : ∀ x < st.nextTid, st.current c ≠ some x → (st'.tcb x).code = (st.tcb x).code
  cpuId : ∀ x < st.nextTid, (st'.tcb x).cpuId = (st.tcb x).cpuId
  priority : ∀ x < st.nextTid, (st'.tcb x).priority = (st.tcb x).priority
  schedClass : ∀ x < st.nextTid, (st'.tcb x).schedClass = (st.tcb x).schedClass
  gone : ∀ x < st.nextTid, modeOf (st'.tcb x).state = .gone →
    modeOf (st.tcb x).state = .gone ∨ (st.tcb x).code = [.zombie]
  live : ∀ x < st.nextTid, st'.live x = true → st.live x = true
  fresh : ∀ x, st.nextTid ≤ x → st'.live x = true → (st'.tcb x).code ∈ startCodes c
  current : ∀ c' ≠ c, st'.current c' = st.current c'
  cpu : ∀ c' ≠ c, st'.cpu c' = st.cpu c'

namespace Kernel.Local

theorem of_old (hR : Roster st)
    (hcode : ∀ x < st.nextTid, st.current c ≠ some x → (st'.tcb x).code = (st.tcb x).code)
    (hcpuId : ∀ x, (st'.tcb x).cpuId = (st.tcb x).cpuId)
    (hprio : ∀ x, (st'.tcb x).priority = (st.tcb x).priority)
    (hcls : ∀ x, (st'.tcb x).schedClass = (st.tcb x).schedClass)
    (hgone : ∀ x, modeOf (st'.tcb x).state = .gone →
      modeOf (st.tcb x).state = .gone ∨ (st.tcb x).code = [.zombie])
    (hlive : ∀ x, st'.live x = true → st.live x = true)
    (hcur : ∀ c' ≠ c, st'.current c' = st.current c') (hcpu : ∀ c' ≠ c, st'.cpu c' = st.cpu c') :
    st.Local c st' :=
  ⟨hcode, fun x _ => hcpuId x, fun x _ => hprio x, fun x _ => hcls x, fun x _ => hgone x,
    fun x _ => hlive x,
    fun x hx hl => absurd (hR.lt (hlive x hl)) (not_lt.mpr hx), hcur, hcpu⟩

theorem of_keeps (hR : Roster st) (h : st.Keeps st')
    (hcode : ∀ x < st.nextTid, st.current c ≠ some x → (st'.tcb x).code = (st.tcb x).code)
    (hcur : ∀ c' ≠ c, st'.current c' = st.current c') : st.Local c st' :=
  of_old hR hcode h.cpuId h.priority h.schedClass h.gone (fun _ hl => h.live ▸ hl) hcur fun _ _ => by
    rw [h.cpu]

theorem setCode (hR : Roster st) (hc : st.current c = some t) (k : List Op) {cpu' : ℕ → CpuSync}
    (hcpu : ∀ c' ≠ c, cpu' c' = st.cpu c') {owner' : Spinlock → Option ℕ} {halted' : Option Halt} :
    st.Local c { st.setCode t k with cpu := cpu', owner := owner', halted := halted' } := by
  have hk := Kernel.Keeps.setCode st t k
  refine of_old hR (fun x _ hx => ?_) hk.cpuId hk.priority hk.schedClass hk.gone (fun _ hl => hl)
    (fun _ _ => rfl) hcpu
  change ((st.setCode t k).tcb x).code = _
  rw [st.code_setCode, if_neg]
  rintro rfl
  exact hx hc

theorem of_spawn (hR : Roster st) (hc : st.current c = some t) (ht : t < st.nextTid) (p : ℕ)
    {kx : List Op} (hkx : kx ∈ startCodes c) (k prog : List Op) :
    st.Local c (((st.setCode t k).spawn c p .o1 kx).push t prog) := by
  have hother {x : Tid} (hx : x < st.nextTid) := (st.setCode t k).tcb_spawn_of_ne kx hx.ne c p .o1
  have hkeep := (Kernel.Keeps.refl ((st.setCode t k).spawn c p .o1 kx)).push t prog
  have hold := Kernel.Keeps.setCode st t k
  refine ⟨fun x hx hcx => ?_, fun x hx => ?_, fun x hx => ?_, fun x hx => ?_, fun x hx hg => ?_,
    fun x hx hl => ?_, fun x hx hl => ?_, fun _ _ => rfl, fun _ _ => rfl⟩
  · have hxt : x ≠ t := by
      rintro rfl
      exact hcx hc
    rw [code_push, if_neg hxt, hother hx, st.code_setCode, if_neg hxt]
  · rw [hkeep.cpuId, hother hx, hold.cpuId]
  · rw [hkeep.priority, hother hx, hold.priority]
  · rw [hkeep.schedClass, hother hx, hold.schedClass]
  · refine hold.gone x ?_
    rwa [Kernel.push_eq, (Kernel.alike_setCode _ t x _).state, hother hx] at hg
  · exact ((st.setCode t k).live_spawn_of_ne kx hx.ne c p .o1) ▸ hl
  · rcases eq_or_ne x st.nextTid with rfl | hne
    · rw [code_push, if_neg ht.ne']
      have hself := (st.setCode t k).tcb_spawn_self kx c p .o1
      exact (congrArg Tcb.code hself).symm ▸ hkx
    · have hl' : st.live x = true := ((st.setCode t k).live_spawn_of_ne kx hne c p .o1) ▸ hl
      exact absurd (hR.lt hl') (not_lt.mpr hx)

theorem of_bringUp (hR : Roster st) : st.Local c (st.bringUp c) := by
  have hold {x : Tid} (hx : x < st.nextTid) : (st.bringUp c).tcb x = st.tcb x :=
    st.bringUp_tcb c hx.ne (hx.trans (Nat.lt_succ_self _)).ne
  refine ⟨fun x hx _ => ?_, fun x hx => ?_, fun x hx => ?_, fun x hx => ?_, fun x hx hg => ?_,
    fun x hx hl => ?_, fun x hx hl => ?_, fun c' hc' => ?_, fun _ _ => rfl⟩
  · rw [hold hx]
  · rw [hold hx]
  · rw [hold hx]
  · rw [hold hx]
  · rw [hold hx] at hg
    exact .inl hg
  · rcases (st.bringUp_live c x).mp hl with rfl | rfl | hl
    · exact absurd hx (lt_irrefl _)
    · exact absurd (hx.trans (Nat.lt_succ_self _)) (lt_irrefl _)
    · exact hl
  · rcases (st.bringUp_live c x).mp hl with rfl | rfl | hl
    · rw [st.bringUp_idle]
      simp [startCodes]
    · rw [st.bringUp_boot]
      simp [startCodes]
    · exact absurd (hR.lt hl) (not_lt.mpr hx)
  · rw [st.bringUp_current, if_neg hc']

end Kernel.Local

theorem Sound.local {l : Label} (h : Sound doom st held Q K) (hs : st.Step l st') :
    st.Local l.cpu st' := by
  have hR := h.roster
  have hh := hs.halted
  have ht := hs.taken
  obtain ⟨c, act⟩ := l
  cases ht with
  | boot hdown => exact .of_bringUp hR
  | @call t a hc => exact .setCode hR hc _ fun _ _ => rfl
  | @setIntr t on hc =>
    exact .of_old hR (fun _ _ _ => rfl) (fun _ => rfl) (fun _ => rfl) (fun _ => rfl) (fun _ => .inl)
      (fun _ hl => hl) (fun _ _ => rfl) fun _ hc' => update_of_ne hc' ..
  | @irq t i hc => exact .setCode hR hc _ fun _ hc' => update_of_ne hc' ..
  | @op t op k ha hfree =>
    have hc := ha.current
    have htn := hR.lt ((h.control hh).running hc).1
    have hkeep := Kernel.Keeps.setCode st t k
    by_cases hpick : op = .pick
    · subst hpick
      obtain ⟨y, -, hsw, -⟩ := h.pick ha
      refine .of_keeps hR (hkeep.pick c t) (fun x _ hx => ?_) fun c' hc' => ?_
      · change (((st.setCode t k).pick c t).tcb x).code = _
        rw [hsw.code, if_neg]
        rintro rfl
        exact hx hc
      · exact (hsw.current c').trans (if_neg hc')
    by_cases hre : ∃ f, op = .reparent f
    · obtain ⟨f, rfl⟩ := hre
      exact (h.typed ha).elim
    have hre (f : Tid) : op ≠ .reparent f := fun he => hre ⟨f, he⟩
    have hcode (x : Tid) (hx : x < st.nextTid) (hcx : st.current c ≠ some x) :
        (((st.setCode t k).perform c t op).tcb x).code = (st.tcb x).code := by
      have hxt : x ≠ t := by
        rintro rfl
        exact hcx hc
      rw [(st.setCode t k).code_perform c t hpick hre htn.ne hx.ne, if_neg hxt, st.code_setCode,
        if_neg hxt]
    have hcur (c' : ℕ) : ((st.setCode t k).perform c t op).current c' = st.current c' :=
      (st.setCode t k).current_perform c t hpick hre c'
    by_cases hdr : op.drastic = false
    · exact .of_keeps hR (hkeep.perform c t hdr) hcode fun c' _ => hcur c'
    cases op with
    | fork ok =>
      change st.Local c (if ok then (st.setCode t k).fork c t else st.setCode t k)
      split
      exacts [.of_spawn hR hc htn _ (by simp [startCodes]) k _, .setCode hR hc k fun _ _ => rfl]
    | kthreadCreate p ok =>
      change st.Local c (if ok then (st.setCode t k).kthreadCreate c t p else st.setCode t k)
      split
      exacts [.of_spawn hR hc htn _ (by simp [startCodes]) k _, .setCode hR hc k fun _ _ => rfl]
    | acquire s =>
      change st.Local c ((st.setCode t k).acquire c s)
      unfold Kernel.acquire
      dsimp only
      split
      all_goals exact .setCode hR hc k fun _ hc' => update_of_ne hc' ..
    | release s =>
      change st.Local c ((st.setCode t k).release c s)
      unfold Kernel.release
      split
      · exact .setCode hR hc k fun _ hc' => update_of_ne hc' ..
      · exact .setCode hR hc k fun _ _ => rfl
    | intrOn | iret | userret => exact .setCode hR hc k fun _ hc' => update_of_ne hc' ..
    | unreachable => exact .setCode hR hc k fun _ _ => rfl
    | zombie =>
      obtain ⟨ops, e, he⟩ : ∃ ops e, (st.setCode t k).becomeZombie t =
          { ((st.setCode t k).setState t .zombie).push t ops with halted := e } := by
        unfold Kernel.becomeZombie
        dsimp only
        split
        · exact ⟨_, st.halted, rfl⟩
        · rename_i p _
          split
          · exact ⟨_, st.halted, rfl⟩
          · refine ⟨[], some (.reclaimed p), ?_⟩
            rw [Kernel.push_eq, List.nil_append, Kernel.setCode_self rfl]
            rfl
      have hz := (hkeep.setState t .zombie fun _ => by rw [ha.code, (h.typed ha).2.2.2]).push t ops
      change st.Local c ((st.setCode t k).becomeZombie t)
      refine .of_old hR hcode (fun x => ?_) (fun x => ?_) (fun x => ?_) (fun x hg => ?_)
        (fun x hl => ?_) (fun c' _ => hcur c') fun c' _ => ?_
      all_goals rw [he] at *
      exacts [hz.cpuId x, hz.priority x, hz.schedClass x, hz.gone x hg, hl, rfl]
    | reclaim z =>
      refine .of_old hR hcode hkeep.cpuId hkeep.priority hkeep.schedClass hkeep.gone (fun x hl => ?_)
        (fun _ _ => rfl) fun _ _ => rfl
      change update st.live z false x = true at hl
      rw [update_apply] at hl
      split at hl
      exacts [absurd hl Bool.false_ne_true, hl]
    | adopt p x =>
      have ha (y : Tid) : (((st.setCode t k).adopt p x).tcb y) =
          { (st.setCode t k).tcb y with parent := if y = x then some p else (st.tcb y).parent } := by
        change ((st.setCode t k).setTcb x fun b => { b with parent := some p }).tcb y = _
        rw [Kernel.tcb_setTcb]
        split
        · rename_i he
          rw [he]
        · rw [← st.parent_setCode t y k]
      refine .of_old hR hcode (fun y => ?_) (fun y => ?_) (fun y => ?_) (fun y hg => ?_)
        (fun _ hl => hl) (fun _ _ => rfl) fun _ _ => rfl
      · exact (congrArg Tcb.cpuId (ha y)).trans (hkeep.cpuId y)
      · exact (congrArg Tcb.priority (ha y)).trans (hkeep.priority y)
      · exact (congrArg Tcb.schedClass (ha y)).trans (hkeep.schedClass y)
      · exact hkeep.gone y ((congrArg (modeOf ·.state) (ha y)).symm.trans hg)
    | raise n all =>
      have hr := (Kernel.Keeps.refl { st.setCode t k with
        cond := update st.cond n true
        epoch := update st.epoch n (st.epoch n + 1) }).push t
          (Op.release (.external n) :: (wakeProg all (.cond n) ++ [Op.notified n (st.epoch n + 1)]))
      exact .of_old hR hcode (fun x => (hr.cpuId x).trans (hkeep.cpuId x))
        (fun x => (hr.priority x).trans (hkeep.priority x))
        (fun x => (hr.schedClass x).trans (hkeep.schedClass x))
        (fun x hg => hkeep.gone x ((congrArg modeOf (Kernel.alike_setCode _ t x _).state).symm.trans hg))
        (fun _ hl => hl) (fun _ _ => rfl) fun _ _ => rfl
    | reparent f => exact absurd rfl (hre f)
    | _ => exact absurd rfl hdr

/-! ## The current task -/

/-- How the code of the current task `t` goes on in a step. -/
inductive Kernel.Goes (st : Kernel) (l : Label) (t : Tid) : List Op → List Op → Prop
  | op {op : Op} {k : List Op} (hop : st.nextOp l = some (t, op)) :
      Goes st l t (op :: k) (st.pushes l.cpu t op ++ k)
  | call (a : Call) : Goes st l t [] (a.prog l.cpu)
  | idle : Goes st l t [] []
  | irq (i : Irq) (k : List Op) (hop : st.nextOp l = none) (hon : (st.cpu l.cpu).intrOn = true) :
      Goes st l t k (i.prog l.cpu ++ [.iret] ++ k)

theorem Kernel.pushes_setCode (st : Kernel) (t : Tid) (k : List Op) (c : ℕ) (op : Op) :
    (st.setCode t k).pushes c t op = st.pushes c t op := by
  have henq (x : Tid) : (st.setCode t k).enqueueProg x = st.enqueueProg x := by
    rw [enqueueProg, (st.alike_setCode t x k).cpuId, enqueueProg]
  cases op with
  | wakeOne w =>
    simp only [pushes, henq]
    rfl
  | wakeAll w =>
    simp only [pushes, henq]
    rfl
  | zombie =>
    simp only [pushes, parent_setCode]
    rfl
  | scan =>
    have hz : (st.setCode t k).findZombie t = st.findZombie t := by
      unfold findZombie
      simp only [(st.alike_setCode t _ k).state]
      rfl
    simp only [pushes, hz]
    rfl
  | _ => rfl

theorem Sound.goes {l : Label} (h : Sound doom st held Q K) (hs : st.Step l st')
    (hc : st.current l.cpu = some t) : st.Goes l t (st.tcb t).code (st'.tcb t).code := by
  have hh := hs.halted
  have ht := hs.taken
  obtain ⟨c, act⟩ := l
  cases ht with
  | boot hdown =>
    rw [hdown] at hc
    cases hc
  | @call x a hcx hcode =>
    obtain rfl : t = x := Option.some_injective _ (hc.symm.trans hcx)
    rw [hcode, st.code_setCode, if_pos rfl]
    exact .call a
  | @setIntr x on hcx hcode =>
    obtain rfl : t = x := Option.some_injective _ (hc.symm.trans hcx)
    change st.Goes _ t (st.tcb t).code (st.tcb t).code
    rw [hcode]
    exact .idle
  | @irq x i hcx hon =>
    obtain rfl : t = x := Option.some_injective _ (hc.symm.trans hcx)
    rw [Kernel.code_push, if_pos rfl]
    exact .irq i _ rfl hon
  | @op x op k ha hfree =>
    obtain rfl : t = x := Option.some_injective _ (hc.symm.trans ha.current)
    have htn := h.roster.lt ((h.control hh).running hc).1
    have hcode : (((st.setCode t k).perform c t op).tcb t).code = st.pushes c t op ++ k := by
      by_cases hpick : op = .pick
      · subst hpick
        obtain ⟨y, -, hsw, -⟩ := h.pick ha
        exact (hsw.code t).trans (if_pos rfl)
      have hre (f : Tid) : op ≠ .reparent f := by
        rintro rfl
        exact (h.typed ha).elim
      rw [(st.setCode t k).code_perform c t hpick hre htn.ne htn.ne, if_pos rfl, st.pushes_setCode,
        st.code_setCode, if_pos rfl]
    change st.Goes _ t (st.tcb t).code (((st.setCode t k).perform c t op).tcb t).code
    rw [hcode, ha.code]
    exact .op ha.nextOp

theorem Sound.current_step {l : Label} (h : Sound doom st held Q K) (hs : st.Step l st')
    (hc : st.current l.cpu = some t) :
    st'.current l.cpu = some t ∨ st.nextOp l = some (t, .pick) ∧ st'.pendingAt l.cpu = [] := by
  have hC := h.control hs.halted
  have ht := hs.taken
  obtain ⟨c, act⟩ := l
  cases ht with
  | boot hdown =>
    rw [hdown] at hc
    cases hc
  | call | setIntr | irq => exact .inl hc
  | @op x op k ha hfree =>
    obtain rfl : t = x := Option.some_injective _ (hc.symm.trans ha.current)
    by_cases hpick : op = .pick
    · subst hpick
      obtain ⟨y, -, hsw, ⟨hly, hcy, hry⟩, -⟩ := h.pick ha
      refine .inr ⟨ha.nextOp, ?_⟩
      have hcur := (hsw.current c).trans (if_pos rfl)
      change ((st.setCode t k).pick c t).pendingAt c = []
      rw [Kernel.pendingAt_eq hcur, hsw.code]
      split
      · exact pendingIn_of_quiet (h.typed ha).2.1
      · rename_i hyt
        have hrun := hry (Ne.symm hyt)
        refine pendingIn_of_quiet (hC.saved hly (by rw [hrun]; decide) ?_).1
        rw [hcy]
        exact fun hcy' => hyt (Option.some_injective _ (hc.symm.trans hcy')).symm
    · have hre (f : Tid) : op ≠ .reparent f := by
        rintro rfl
        exact (h.typed ha).elim
      exact .inl (((st.setCode t k).current_perform c t hpick hre c).trans hc)

theorem Kernel.becomeZombie_frame (st : Kernel) (t : Tid) :
    (st.becomeZombie t).owner = st.owner ∧ (st.becomeZombie t).epoch = st.epoch := by
  unfold Kernel.becomeZombie
  dsimp only
  split
  · exact ⟨rfl, rfl⟩
  · split <;> exact ⟨rfl, rfl⟩

section

variable (h : Sound doom st held Q K)
include h

theorem Sound.owner_step {l : Label} (hs : st.Step l st') (s : Spinlock) :
    st'.owner s = st.owner s ∨ (∃ t, st.nextOp l = some (t, .acquire s)) ∧ st.owner s = none ∨
      (∃ t, st.nextOp l = some (t, .release s)) ∧ st.owner s = some l.cpu := by
  have ht := hs.taken
  obtain ⟨c, act⟩ := l
  cases ht with
  | boot | call | setIntr | irq => exact .inl rfl
  | @op t op k ha hfree =>
    by_cases hdr : op.drastic = false
    · exact .inl (congrFun ((Kernel.Keeps.setCode st t k).perform c t hdr).owner s)
    cases op with
    | acquire s' =>
      change ((st.setCode t k).acquire c s').owner s = _ ∨ _
      unfold Kernel.acquire
      dsimp only
      split
      · exact .inl rfl
      · rename_i ho
        rcases eq_or_ne s s' with rfl | hne
        · exact .inr (.inl ⟨⟨t, ha.nextOp⟩, (hfree s rfl).resolve_right ho⟩)
        · exact .inl (update_of_ne hne ..)
    | release s' =>
      change ((st.setCode t k).release c s').owner s = _ ∨ _
      unfold Kernel.release
      split
      · rename_i ho
        rcases eq_or_ne s s' with rfl | hne
        · exact .inr (.inr ⟨⟨t, ha.nextOp⟩, ho⟩)
        · exact .inl (update_of_ne hne ..)
      · exact .inl rfl
    | zombie => exact .inl (congrFun ((st.setCode t k).becomeZombie_frame t).1 s)
    | reparent f => exact (h.typed ha).elim
    | fork ok => cases ok <;> exact .inl rfl
    | kthreadCreate p ok => cases ok <;> exact .inl rfl
    | reclaim | adopt | raise | unreachable | intrOn | iret | userret => exact .inl rfl
    | _ => exact absurd rfl hdr

theorem Sound.epoch_step {l : Label} (hs : st.Step l st') (n : ℕ) : st'.epoch n = st.epoch n ∨
      (∃ t all, st.nextOp l = some (t, .raise n all)) ∧ st'.epoch n = st.epoch n + 1 := by
  have ht := hs.taken
  obtain ⟨c, act⟩ := l
  cases ht with
  | boot | call | setIntr | irq => exact .inl rfl
  | @op t op k ha hfree =>
    by_cases hdr : op.drastic = false
    · exact .inl (congrFun ((Kernel.Keeps.setCode st t k).perform c t hdr).epoch n)
    cases op with
    | raise m all =>
      rcases eq_or_ne n m with rfl | hne
      · exact .inr ⟨⟨t, all, ha.nextOp⟩, update_self ..⟩
      · exact .inl (update_of_ne hne ..)
    | acquire s =>
      refine .inl (congrFun (?_ : ((st.setCode t k).acquire c s).epoch = st.epoch) n)
      unfold Kernel.acquire
      dsimp only
      split <;> rfl
    | release s =>
      refine .inl (congrFun (?_ : ((st.setCode t k).release c s).epoch = st.epoch) n)
      unfold Kernel.release
      split <;> rfl
    | zombie => exact .inl (congrFun ((st.setCode t k).becomeZombie_frame t).2 n)
    | reparent f => exact (h.typed ha).elim
    | fork ok => cases ok <;> exact .inl rfl
    | kthreadCreate p ok => cases ok <;> exact .inl rfl
    | reclaim | adopt | unreachable | intrOn | iret | userret => exact .inl rfl
    | _ => exact absurd rfl hdr

theorem Sound.owner_kept {l : Label} (hs : st.Step l st') {s : Spinlock}
    (ho : st.owner s = some c) (hrel : c = l.cpu → ∀ t, st.nextOp l ≠ some (t, .release s)) :
    st'.owner s = some c := by
  rcases h.owner_step hs s with he | ⟨-, hn⟩ | ⟨⟨t, hop⟩, hc⟩
  · rw [he, ho]
  · rw [ho] at hn
    cases hn
  · exact absurd hop (hrel (Option.some_injective _ (ho.symm.trans hc)) t)

theorem Sound.epoch_kept {l : Label} (hs : st.Step l st') {n : ℕ}
    (ho : st.owner (.external n) = some c) (hraise : c = l.cpu → ∀ t all, st.nextOp l ≠ some (t, .raise n all)) :
    st'.epoch n = st.epoch n := by
  rcases h.epoch_step hs n with he | ⟨⟨t, all, hop⟩, -⟩
  · exact he
  · obtain ⟨k, ha, -⟩ := hs.at_of_nextOp hop
    have hown : st.owner (.external n) = some l.cpu := by
      refine (h.control hs.halted).owner.mpr ?_
      rw [(h.typed ha).1]
      exact List.mem_cons_self ..
    exact absurd hop (hraise (Option.some_injective _ (ho.symm.trans hown)) t all)

theorem Sound.epoch_le {l : Label} (hs : st.Step l st') (n : ℕ) : st.epoch n ≤ st'.epoch n := by
  rcases h.epoch_step hs n with he | ⟨-, he⟩
  · exact he.ge
  · rw [he]
    exact Nat.le_succ _

end

/-! ## What operations leave to be done -/

/-- The wait queue from which an operation takes a task. -/
def Op.wakes? : Op → Option WaitQueue
  | .wakeOne w | .wakeAll w => some w
  | _ => none

/-- Which operations put `o` before the code that is left. -/
def Kernel.PushedBy (st : Kernel) (t : Tid) (op : Op) : Op → Prop
  | .returned _ => op = .schedule
  | .userret | .intrOn | .iret => False
  | .enqueue d x =>
    (∃ w, op.wakes? = some w ∧ st.run.first (.wait w) = some x ∧ (st.tcb x).cpuId = d) ∨ x = st.nextTid
  | .link w => op = .scan ∧ w = .chld t ∨ ∃ n, op = .check n ∧ w = .cond n ∧ st.cond n = false
  | .woken n _ => op = .check n
  | .notified n e => (∃ all, op = .raise n all) ∧ e = st.epoch n + 1
  | _ => True

theorem Kernel.pushedBy_of_mem {op : Op} : ∀ o ∈ st.pushes c t op, st.PushedBy t op o := by
  cases op with
  | checkPreempt =>
    simp only [pushes]
    split <;> simp [PushedBy]
  | wakeOne w =>
    simp only [pushes]
    split
    · simp
    · rename_i x hx
      simp [PushedBy, enqueueProg, Op.wakes?, hx]
  | wakeAll w =>
    simp only [pushes]
    split
    · simp
    · rename_i x hx
      simp [PushedBy, enqueueProg, Op.wakes?, hx]
  | exit code =>
    simp only [pushes]
    split
    · split <;> simp [PushedBy]
    · simp [PushedBy]
  | zombie =>
    simp only [pushes]
    split
    · simp [PushedBy]
    · split <;> simp [PushedBy, wakeAllProg]
  | scan =>
    simp only [pushes]
    split
    · simp [PushedBy]
    · split <;> simp [PushedBy, destroyProg, sleepProg]
  | fork ok => cases ok <;> simp [pushes, PushedBy]
  | kthreadCreate p ok =>
    cases ok with
    | false => simp [pushes]
    | true =>
      simp only [pushes]
      cases st.kernelTask <;> simp [PushedBy]
  | check n =>
    simp only [pushes]
    split
    · simp [PushedBy]
    · rename_i hn
      simp [PushedBy, sleepProg, hn]
  | raise n all => cases all <;> simp [pushes, wakeProg, wakeAllProg, wakeOneProg, PushedBy]
  | _ => simp [pushes, PushedBy]

theorem Kernel.pushes_of_wakes {op : Op} {w : WaitQueue} {x : Tid} (hop : op.wakes? = some w)
    (hx : st.run.first (.wait w) = some x) : ∃ r, st.pushes c t op = st.enqueueProg x ++ r := by
  cases op with
  | wakeOne w' =>
    obtain rfl : w' = w := Option.some_injective _ hop
    exact ⟨[], by simp only [pushes, hx, List.append_nil]⟩
  | wakeAll w' =>
    obtain rfl : w' = w := Option.some_injective _ hop
    exact ⟨[.wakeAll w'], by simp only [pushes, hx]⟩
  | _ => cases hop

end Change

end Lume.Sched
