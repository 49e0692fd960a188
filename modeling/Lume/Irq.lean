import Mathlib.Logic.Function.Basic
import Mathlib.Data.Int.Notation
import Lume.Config
import Lume.Foundation.Transition

/-!
# Interrupt handlers

`IrqManager` of `kernel/irq.cc`. A driver registers a handler and an argument for an interrupt; the
trap layer calls `dispatch`, which runs the handler with the argument that stands beside it.
`register_handler` writes the argument before it asks whether the entry is free, so a call that is
refused has already exchanged the argument of the driver that is there.

## Main definitions

* `IrqManager.registerHandler`, `unregisterHandler`, `dispatch`: the calls
* `IrqSystem`: a manager, and what each handler was registered with
* `IrqManager.Keeps`: a registration that finds the entry taken passes the argument that is there

## Main results

* `dispatch_own_argument`: a refused call changes nothing if and only if it passes that argument,
  and in a run of such calls every handler gets its own argument
* `refused_call_exchanges_argument`: otherwise a handler gets the argument of another driver
-/

namespace Lume

/-- `kMaxIrqs`. -/
def kMaxIrqs : ℕ := 64

/-- A handler, stored as a number, and its argument. -/
structure IrqEntry where
  handlerPtr : UInt64
  arg : UInt64
  deriving DecidableEq, Repr

theorem neg_eBusy_ne_zero : -eBusy ≠ 0 := by decide

structure IrqManager where
  entries : ℕ → IrqEntry

namespace IrqManager

/-- `init`. -/
def init : IrqManager := ⟨fun _ => ⟨0, 0⟩⟩

/-- An entry is written. -/
def setEntry (m : IrqManager) (irq : ℕ) (e : IrqEntry) : IrqManager :=
  ⟨Function.update m.entries irq e⟩

/-- `register_handler`: the value it returns, and the manager behind it. -/
def registerHandler (m : IrqManager) (irq : ℕ) (handler arg : UInt64) : ℤ × IrqManager :=
  if kMaxIrqs ≤ irq then (-eInval, m)
  else if handler = 0 then (-eInval, m)
  else
    -- the argument is written first
    let m := m.setEntry irq { m.entries irq with arg := arg }
    if (m.entries irq).handlerPtr = 0 then
      (0, m.setEntry irq { m.entries irq with handlerPtr := handler })
    else (-eBusy, m)

/-- `unregister_handler`. -/
def unregisterHandler (m : IrqManager) (irq : ℕ) : IrqManager :=
  if kMaxIrqs ≤ irq then m else m.setEntry irq ⟨0, 0⟩

/-- `dispatch`: the handler that is run, and what it is passed. -/
def dispatch (m : IrqManager) (irq : ℕ) : Option (UInt64 × ℕ × UInt64) :=
  if kMaxIrqs ≤ irq then none
  else if (m.entries irq).handlerPtr = 0 then none
  else some ((m.entries irq).handlerPtr, irq, (m.entries irq).arg)

/-- A registration that finds the entry taken passes the argument that is there. -/
def Keeps (m : IrqManager) (irq : ℕ) (handler arg : UInt64) : Prop :=
  irq < kMaxIrqs → handler ≠ 0 → (m.entries irq).handlerPtr ≠ 0 → (m.entries irq).arg = arg

instance (m : IrqManager) (irq : ℕ) (handler arg : UInt64) :
    Decidable (m.Keeps irq handler arg) := inferInstanceAs (Decidable (_ → _ → _ → _))

variable {m : IrqManager} {irq : ℕ} {handler arg : UInt64}

@[simp] theorem setEntry_self (e : IrqEntry) : (m.setEntry irq e).entries irq = e :=
  Function.update_self ..

theorem setEntry_of_ne {irq' : ℕ} (h : irq' ≠ irq) (e : IrqEntry) :
    (m.setEntry irq e).entries irq' = m.entries irq' := Function.update_of_ne h ..

theorem setEntry_eq_self : m.setEntry irq (m.entries irq) = m := by
  rw [setEntry, Function.update_eq_self]

theorem setEntry_setEntry (e e' : IrqEntry) : (m.setEntry irq e).setEntry irq e' = m.setEntry irq e' := by
  rw [setEntry, setEntry, Function.update_idem]
  rfl

theorem registerHandler_cases (m : IrqManager) (irq : ℕ) (handler arg : UInt64) :
    (m.registerHandler irq handler arg = (-eInval, m) ∧ ¬ (irq < kMaxIrqs ∧ handler ≠ 0)) ∨
    (m.registerHandler irq handler arg = (0, m.setEntry irq ⟨handler, arg⟩) ∧
      irq < kMaxIrqs ∧ handler ≠ 0 ∧ (m.entries irq).handlerPtr = 0) ∨
    (m.registerHandler irq handler arg =
        (-eBusy, m.setEntry irq ⟨(m.entries irq).handlerPtr, arg⟩) ∧
      irq < kMaxIrqs ∧ handler ≠ 0 ∧ (m.entries irq).handlerPtr ≠ 0) := by
  by_cases hirq : kMaxIrqs ≤ irq
  · exact .inl ⟨if_pos hirq, fun h => Nat.not_lt.mpr hirq h.1⟩
  · have hlt := Nat.not_le.mp hirq
    by_cases hh : handler = 0
    · exact .inl ⟨by rw [registerHandler, if_neg hirq, if_pos hh], fun h => h.2 hh⟩
    · rw [registerHandler, if_neg hirq, if_neg hh]
      dsimp only
      rw [setEntry_self, setEntry_setEntry]
      by_cases hfree : (m.entries irq).handlerPtr = 0
      · exact .inr (.inl ⟨if_pos hfree, hlt, hh, hfree⟩)
      · exact .inr (.inr ⟨if_neg hfree, hlt, hh, hfree⟩)

theorem registerHandler_unchanged_iff :
    ((m.registerHandler irq handler arg).1 ≠ 0 → (m.registerHandler irq handler arg).2 = m) ↔
      m.Keeps irq handler arg := by
  obtain ⟨hcall, hbad⟩ | ⟨hcall, hlt, hh, hfree⟩ | ⟨hcall, hlt, hh, htaken⟩ :=
    m.registerHandler_cases irq handler arg
  · rw [hcall]
    exact ⟨fun _ hlt hh => absurd ⟨hlt, hh⟩ hbad, fun _ _ => rfl⟩
  · rw [hcall]
    exact ⟨fun _ _ _ htaken => absurd hfree htaken, fun _ h => absurd rfl h⟩
  · rw [hcall]
    constructor
    · intro h _ _ _
      have hsame := congrArg (fun m => (m.entries irq).arg) (h neg_eBusy_ne_zero)
      rw [setEntry_self] at hsame
      exact hsame.symm
    · intro h _
      have harg := h hlt hh htaken
      subst harg
      exact setEntry_eq_self

theorem dispatch_eq_some {irq' : ℕ} (h : m.dispatch irq = some (handler, irq', arg)) :
    irq' = irq ∧ irq < kMaxIrqs ∧ handler ≠ 0 ∧ m.entries irq = ⟨handler, arg⟩ := by
  unfold dispatch at h
  split at h
  · cases h
  · rename_i hlt
    split at h
    · cases h
    · rename_i hh
      cases h
      exact ⟨rfl, Nat.not_le.mp hlt, hh, rfl⟩

end IrqManager

/-- The calls on a manager. -/
inductive IrqCall
  | register (irq : ℕ) (handler arg : UInt64)
  | unregister (irq : ℕ)
  | dispatch (irq : ℕ)

/-- A manager, and beside it the handler of each interrupt with the argument that it was registered
with, by the last call that returned 0. -/
structure IrqSystem where
  irqs : IrqManager
  installed : ℕ → Option (UInt64 × UInt64)

namespace IrqSystem

/-- No handler is registered. -/
def init : IrqSystem := ⟨.init, fun _ => none⟩

/-- What a call does. -/
def exec (x : IrqSystem) : IrqCall → IrqSystem
  | .register irq handler arg =>
    let r := x.irqs.registerHandler irq handler arg
    ⟨r.2, if r.1 = 0 then Function.update x.installed irq (some (handler, arg)) else x.installed⟩
  | .unregister irq =>
    ⟨x.irqs.unregisterHandler irq,
      if irq < kMaxIrqs then Function.update x.installed irq none else x.installed⟩
  | .dispatch _ => x

/-- The steps of the system. -/
def Step (x : IrqSystem) (call : IrqCall) (y : IrqSystem) : Prop := y = x.exec call

/-- The condition on a call. -/
def CallOk (x : IrqSystem) : IrqCall → Prop
  | .register irq handler arg => x.irqs.Keeps irq handler arg
  | _ => True

/-- Every handler stands beside its own argument. -/
def Own (x : IrqSystem) : Prop :=
  ∀ irq, (x.irqs.entries irq).handlerPtr ≠ 0 →
    x.installed irq = some ((x.irqs.entries irq).handlerPtr, (x.irqs.entries irq).arg)

theorem own_init : init.Own := fun _ h => absurd rfl h

variable {x y : IrqSystem} {call : IrqCall}

theorem Own.step (h : x.Own) (hstep : Guarded CallOk Step x call y) : y.Own := by
  obtain ⟨hok, rfl⟩ := hstep
  intro irq' hne
  cases call with
  | register irq handler arg =>
    have hunchanged := IrqManager.registerHandler_unchanged_iff.mpr hok
    obtain ⟨hcall, -⟩ | ⟨hcall, -, -, -⟩ | ⟨hcall, -⟩ :=
      x.irqs.registerHandler_cases irq handler arg
    · simp only [exec, hcall] at hne ⊢
      exact h irq' hne
    · simp only [exec, hcall, if_true] at hne ⊢
      rcases eq_or_ne irq' irq with rfl | hirq
      · rw [Function.update_self, IrqManager.setEntry_self]
      · rw [IrqManager.setEntry_of_ne hirq] at hne ⊢
        rw [Function.update_of_ne hirq]
        exact h irq' hne
    · rw [hcall] at hunchanged
      have hsame : x.irqs.setEntry irq _ = x.irqs := hunchanged neg_eBusy_ne_zero
      simp only [exec, hcall, hsame] at hne ⊢
      exact h irq' hne
  | unregister irq =>
    simp only [exec, IrqManager.unregisterHandler] at hne ⊢
    by_cases hirq : kMaxIrqs ≤ irq
    · rw [if_pos hirq] at hne ⊢
      rw [if_neg (Nat.not_lt.mpr hirq)]
      exact h irq' hne
    · rw [if_neg hirq] at hne ⊢
      rw [if_pos (Nat.not_le.mp hirq)]
      rcases eq_or_ne irq' irq with rfl | hne'
      · rw [IrqManager.setEntry_self] at hne
        exact absurd rfl hne
      · rw [IrqManager.setEntry_of_ne hne'] at hne ⊢
        rw [Function.update_of_ne hne']
        exact h irq' hne
  | dispatch irq => exact h irq' hne

end IrqSystem

/-- **An interrupt handler gets its own argument**, in every run whose registrations pass, where
they find the entry taken, the argument that is there; a call that is refused changes nothing if
and only if it does so. -/
theorem dispatch_own_argument (m : IrqManager) (irq : ℕ) (handler arg : UInt64) :
    (((m.registerHandler irq handler arg).1 ≠ 0 → (m.registerHandler irq handler arg).2 = m) ↔
      m.Keeps irq handler arg) ∧ ∀ (calls : List IrqCall) (x : IrqSystem),
      Run (Guarded IrqSystem.CallOk IrqSystem.Step) .init calls x →
      ∀ (irq irq' : ℕ) (handler arg : UInt64), x.irqs.dispatch irq = some (handler, irq', arg) →
        irq' = irq ∧ x.installed irq = some (handler, arg) := by
  refine ⟨IrqManager.registerHandler_unchanged_iff, ?_⟩
  intro calls x hrun irq irq' handler arg hcall
  have hown : x.Own := hrun.invariant IrqSystem.Own.step IrqSystem.own_init
  obtain ⟨rfl, -, hne, hentry⟩ := IrqManager.dispatch_eq_some hcall
  have hinst := hown irq' (by rw [hentry]; exact hne)
  rw [hentry] at hinst
  exact ⟨rfl, hinst⟩

/-- One driver, and its interrupt. -/
theorem dispatch_own_argument_one :
    ∃ x, Run (Guarded IrqSystem.CallOk IrqSystem.Step) .init [.register 10 1 7] x ∧
      x.irqs.dispatch 10 = some (1, 10, 7) ∧ x.installed 10 = some (1, 7) := by
  have hrun : Run (Guarded IrqSystem.CallOk IrqSystem.Step) .init [.register 10 1 7]
      (IrqSystem.init.exec (.register 10 1 7)) :=
    .snoc (.nil _) ⟨by simp [IrqSystem.CallOk, IrqManager.Keeps, IrqSystem.init, IrqManager.init], rfl⟩
  exact ⟨_, hrun, by decide, ((dispatch_own_argument .init 10 1 7).2 _ _ hrun 10 10 1 7 (by decide)).2⟩

/-- A second driver is refused, and the handler of the first one gets its argument. -/
theorem refused_call_exchanges_argument : ∃ x y : IrqSystem,
    Run IrqSystem.Step .init [.register 10 1 7] x ∧
      (x.irqs.registerHandler 10 2 9).1 = -eBusy ∧ y = x.exec (.register 10 2 9) ∧
      y.irqs.dispatch 10 = some (1, 10, 9) ∧ y.installed 10 = some (1, 7) :=
  ⟨IrqSystem.init.exec (.register 10 1 7), _, .snoc (.nil _) rfl, by decide, rfl, by decide,
    by decide⟩

end Lume
