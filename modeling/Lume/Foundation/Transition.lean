import Mathlib.Logic.Relation
import Mathlib.Data.List.Forall2

/-!
# Runs of labelled transition systems

A system is a relation `step s a t` on states, labelled by the operation `a` that was issued.
`Run step s as t` is a finite run that issues `as` in order. The kernel's components are
systems of this kind, and every property of whole runs below is an invariant of `step`.

## Main definitions

* `Run step s as t`: a run from `s` to `t`
* `Guarded step ok`: the steps whose operation meets the condition `ok` in the state it is
  issued in

## Main results

* `Run.invariant`: what every step preserves, every run preserves
* `Run.simulate`: step-by-step simulation carries over to runs
* `Run.of_guarded`: a run of guarded steps is a run
* `Run.prod_iff`: a run of two systems side by side
-/

namespace Lume

variable {σ ι : Type*}

/-- A finite run of `step`, newest operation last. -/
inductive Run (step : σ → ι → σ → Prop) : σ → List ι → σ → Prop
  | nil (s : σ) : Run step s [] s
  | snoc {s t u : σ} {as : List ι} {a : ι} :
      Run step s as t → step t a u → Run step s (as ++ [a]) u

/-- The steps of `step` whose operation satisfies `ok` in the state it is issued in. -/
def Guarded (ok : σ → ι → Prop) (step : σ → ι → σ → Prop) : σ → ι → σ → Prop :=
  fun s a t => ok s a ∧ step s a t

namespace Run

variable {step step' : σ → ι → σ → Prop} {ok : σ → ι → Prop} {s t u : σ} {as : List ι}

theorem invariant {P : σ → Prop} (hstep : ∀ {s a t}, P s → step s a t → P t)
    (hr : Run step s as t) (hs : P s) : P t := by
  induction hr with
  | nil => exact hs
  | snoc _ ha ih => exact hstep ih ha

theorem simulate {σ' : Type*} {step₂ : σ' → ι → σ' → Prop} {R : σ → σ' → Prop} {s₂ : σ'}
    (hstep : ∀ {s a t s₂}, R s s₂ → step s a t → ∃ t₂, step₂ s₂ a t₂ ∧ R t t₂)
    (hr : Run step s as t) (hs : R s s₂) : ∃ t₂, Run step₂ s₂ as t₂ ∧ R t t₂ := by
  induction hr with
  | nil => exact ⟨s₂, .nil _, hs⟩
  | snoc _ ha ih =>
    obtain ⟨t₂, hrun, hR⟩ := ih
    obtain ⟨u₂, hb, hR'⟩ := hstep hR ha
    exact ⟨u₂, .snoc hrun hb, hR'⟩

theorem mono (h : ∀ {s a t}, step s a t → step' s a t) (hr : Run step s as t) :
    Run step' s as t := by
  induction hr with
  | nil => exact .nil _
  | snoc _ ha ih => exact .snoc ih (h ha)

theorem of_guarded (hr : Run (Guarded ok step) s as t) : Run step s as t :=
  hr.mono fun h => h.2

theorem cons {a : ι} (ha : step s a t) (hr : Run step t as u) : Run step s (a :: as) u := by
  induction hr with
  | nil => exact (Run.nil s).snoc ha
  | snoc _ hb ih => exact ih.snoc hb

theorem append {bs : List ι} (hr : Run step s as t) (hr' : Run step t bs u) :
    Run step s (as ++ bs) u := by
  induction hr' with
  | nil => rwa [List.append_nil]
  | snoc _ ha ih =>
    rw [← List.append_assoc]
    exact ih.snoc ha

theorem last {a : ι} (hr : Run step s (as ++ [a]) u) : ∃ t, Run step s as t ∧ step t a u := by
  generalize hbs : as ++ [a] = bs at hr
  cases hr with
  | nil => simp at hbs
  | snoc hr hb =>
    obtain ⟨rfl, rfl⟩ := List.append_inj' hbs rfl |>.imp id List.singleton_inj.mp
    exact ⟨_, hr, hb⟩

theorem prod_iff {σ' : Type*} {step₂ : σ' → ι → σ' → Prop} {p q : σ × σ'} :
    Run (fun p a q => step p.1 a q.1 ∧ step₂ p.2 a q.2) p as q ↔
      Run step p.1 as q.1 ∧ Run step₂ p.2 as q.2 := by
  constructor
  · intro hr
    induction hr with
    | nil => exact ⟨.nil _, .nil _⟩
    | snoc _ ha ih => exact ⟨ih.1.snoc ha.1, ih.2.snoc ha.2⟩
  · rintro ⟨hr, hr₂⟩
    obtain ⟨q₁, q₂⟩ := q
    dsimp only at hr hr₂
    induction hr generalizing q₂ with
    | nil =>
      generalize hnil : ([] : List ι) = bs at hr₂
      cases hr₂ with
      | nil => exact .nil _
      | snoc => simp at hnil
    | snoc _ ha ih =>
      obtain ⟨t₂, hr₂, hb⟩ := hr₂.last
      exact (ih t₂ hr₂).snoc ⟨ha, hb⟩

end Run

end Lume
