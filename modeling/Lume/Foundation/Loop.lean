import Mathlib.Logic.Relation
import Mathlib.Data.Nat.Notation

/-!
# Loops

A loop whose body either goes on from a new state or leaves with a result. It is run for a bounded
number of rounds; that it ends is that some number of rounds is enough.

## Main definitions

* `loop step fuel s`: the loop with the body `step`, for at most `fuel` rounds
* `Ends step s a`: the loop ends with `a`, from `s`
* `Goes step s t`: a round leads from `s` to `t`

## Main results

* `ends_iff`: a loop ends if some number of rounds is enough
* `Ends.unique`: there is one result at most
* `Ends.of_goes`: rounds in front
* `not_ends_of_goes_self`: a round that changes nothing is repeated for ever
* `exists_ends`, `Ends.loop_eq`: an invariant and a number that every round lowers
* `loop_map`: a loop that follows another one
-/

namespace Lume

variable {σ α : Type*} {step : σ → σ ⊕ α} {s t : σ} {a b : α}

/-- The loop with the body `step`, for at most `fuel` rounds. -/
def loop (step : σ → σ ⊕ α) : ℕ → σ → Option α
  | 0, _ => none
  | fuel + 1, s =>
    match step s with
    | .inl t => loop step fuel t
    | .inr a => some a

/-- A round that goes on. -/
def Goes (step : σ → σ ⊕ α) (s t : σ) : Prop := step s = .inl t

/-- The loop ends. -/
inductive Ends (step : σ → σ ⊕ α) : σ → α → Prop
  | stop {s : σ} {a : α} (h : step s = .inr a) : Ends step s a
  | next {s t : σ} {a : α} (h : Goes step s t) (ht : Ends step t a) : Ends step s a

theorem ends_of_loop {fuel : ℕ} (h : loop step fuel s = some a) : Ends step s a := by
  induction fuel generalizing s with
  | zero => cases h
  | succ fuel ih =>
    rw [loop] at h
    cases hs : step s with
    | inl t =>
      rw [hs] at h
      exact .next hs (ih h)
    | inr b =>
      rw [hs] at h
      obtain rfl := Option.some.inj h
      exact .stop hs

theorem ends_iff : Ends step s a ↔ ∃ fuel, loop step fuel s = some a := by
  constructor
  · intro h
    induction h with
    | stop hs => exact ⟨1, by rw [loop, hs]⟩
    | next hs _ ih =>
      obtain ⟨fuel, hfuel⟩ := ih
      exact ⟨fuel + 1, by rw [loop, hs]; exact hfuel⟩
  · rintro ⟨fuel, h⟩
    exact ends_of_loop h

theorem Ends.unique (h : Ends step s a) (h' : Ends step s b) : a = b := by
  induction h with
  | stop hs =>
    cases h' with
    | stop hs' => exact Sum.inr.inj (hs.symm.trans hs')
    | next hs' => cases hs.symm.trans hs'
  | next hs _ ih =>
    cases h' with
    | stop hs' => cases hs.symm.trans hs'
    | next hs' ht =>
      obtain rfl := Sum.inl.inj (hs.symm.trans hs')
      exact ih ht

theorem Ends.of_goes (h : Relation.ReflTransGen (Goes step) s t) (ht : Ends step t a) :
    Ends step s a := by
  induction h using Relation.ReflTransGen.head_induction_on with
  | refl => exact ht
  | head hs _ ih => exact .next hs ih

theorem not_ends_of_goes_self (h : Goes step s s) : ¬ Ends step s a := by
  intro hends
  induction hends with
  | stop hs => cases h.symm.trans hs
  | next hs _ ih =>
    obtain rfl := Sum.inl.inj (h.symm.trans hs)
    exact ih h

/-- **Total correctness**: a loop with an invariant `P` and a number that every round lowers
ends, with what the invariant gives where it leaves. -/
theorem exists_ends {P : σ → Prop} {Q : α → Prop} (μ : σ → ℕ)
    (hgoes : ∀ s t, P s → Goes step s t → P t ∧ μ t < μ s)
    (hstop : ∀ s a, P s → step s = .inr a → Q a) (hs : P s) : ∃ a, Ends step s a ∧ Q a := by
  -- strong induction on the number
  induction hn : μ s using Nat.strongRecOn generalizing s with
  | _ n ih =>
    subst hn
    cases hstep : step s with
    | inl t =>
      obtain ⟨ht, hlt⟩ := hgoes s t hs hstep
      obtain ⟨a, hends, ha⟩ := ih (μ t) hlt ht rfl
      exact ⟨a, .next hstep hends, ha⟩
    | inr a => exact ⟨a, .stop hstep, hstop s a hs hstep⟩

theorem Ends.loop_eq {P : σ → Prop} (μ : σ → ℕ)
    (hgoes : ∀ s t, P s → Goes step s t → P t ∧ μ t < μ s) (hs : P s) (h : Ends step s a)
    {fuel : ℕ} (hfuel : μ s < fuel) : loop step fuel s = some a := by
  induction h generalizing fuel with
  | stop hstep =>
    obtain ⟨fuel, rfl⟩ := Nat.exists_eq_add_one_of_ne_zero (Nat.ne_zero_of_lt hfuel)
    rw [loop, hstep]
  | next hstep _ ih =>
    obtain ⟨fuel, rfl⟩ := Nat.exists_eq_add_one_of_ne_zero (Nat.ne_zero_of_lt hfuel)
    obtain ⟨ht, hlt⟩ := hgoes _ _ hs hstep
    rw [loop, show step _ = .inl _ from hstep]
    exact ih ht (Nat.lt_of_lt_of_le hlt (Nat.le_of_lt_succ hfuel))

/-- A loop that does on `f p` what another does on `p`, as long as an invariant holds, leaves as
the other leaves. -/
theorem loop_map {τ β : Type*} {step' : τ → τ ⊕ β} {P : τ → Prop} {p : τ} (f : τ → σ) (g : β → α)
    (hstep : ∀ p, P p → step (f p) = (step' p).map f g)
    (hgoes : ∀ p q, P p → Goes step' p q → P q) (hp : P p) (fuel : ℕ) :
    loop step fuel (f p) = (loop step' fuel p).map g := by
  induction fuel generalizing p with
  | zero => rfl
  | succ fuel ih =>
    rw [loop, loop, hstep p hp]
    cases hs : step' p with
    | inl q => exact ih (hgoes p q hp hs)
    | inr b => rfl

end Lume
