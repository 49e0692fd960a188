import Mathlib.Logic.Equiv.Basic
import Mathlib.Order.Basic

/-!
# Sorting a segment in place

A table that is sorted in place is a function from indices, and every step of the sort rearranges
a segment of it. Calls on parts of the segment report only that they rearranged their part and
sorted it. What the caller knew about all members of a part is still true of them, and the two parts
are joined at the pivot.

## Main definitions

* `Arranged l r f g`: `g` is `f` with the segment from `l` to `r` rearranged
* `SortedOn key l r f`: the segment is sorted

## Main results

* `Arranged.all`: what holds of every member of a segment holds after it is rearranged
* `SortedOn.glue`: two sorted segments on either side of a pivot
-/

namespace Lume

variable {α κ : Type*} {l r l' r' : ℕ} {f g h : ℕ → α}

/-- The members from `l` to `r` have been rearranged, and the others are where they were. -/
def Arranged (l r : ℕ) (f g : ℕ → α) : Prop :=
  ∃ σ : Equiv.Perm ℕ, (∀ i, i < l ∨ r < i → σ i = i) ∧ ∀ i, g i = f (σ i)

namespace Arranged

theorem refl (l r : ℕ) (f : ℕ → α) : Arranged l r f f := ⟨Equiv.refl ℕ, fun _ _ => rfl, fun _ => rfl⟩

theorem trans (hfg : Arranged l r f g) (hgh : Arranged l r g h) : Arranged l r f h := by
  obtain ⟨σ, hσ, hf⟩ := hfg
  obtain ⟨τ, hτ, hg⟩ := hgh
  refine ⟨τ.trans σ, fun i hi => ?_, fun i => ?_⟩
  · rw [Equiv.trans_apply, hτ i hi, hσ i hi]
  · rw [hg, hf, Equiv.trans_apply]

theorem mono (hl : l ≤ l') (hr : r' ≤ r) (hfg : Arranged l' r' f g) : Arranged l r f g := by
  obtain ⟨σ, hσ, hf⟩ := hfg
  refine ⟨σ, fun i hi => hσ i ?_, hf⟩
  omega

theorem map {β : Type*} (F : α → β) (hfg : Arranged l r f g) :
    Arranged l r (fun i => F (f i)) fun i => F (g i) := by
  obtain ⟨σ, hσ, hf⟩ := hfg
  exact ⟨σ, hσ, fun i => congrArg F (hf i)⟩

theorem swap {a b : ℕ} (ha : l ≤ a) (hab : a ≤ b) (hb : b ≤ r) (hg : ∀ i, g i = f (Equiv.swap a b i)) :
    Arranged l r f g := by
  refine ⟨Equiv.swap a b, fun i hi => ?_, hg⟩
  apply Equiv.swap_apply_of_ne_of_ne <;> omega

section

variable (hfg : Arranged l r f g)
include hfg

theorem eq_of_not_mem {i : ℕ} (hi : i < l ∨ r < i) : g i = f i := by
  obtain ⟨σ, hσ, hf⟩ := hfg
  rw [hf, hσ i hi]

theorem exists_mem {i : ℕ} (hl : l ≤ i) (hr : i ≤ r) : ∃ k, l ≤ k ∧ k ≤ r ∧ g i = f k := by
  obtain ⟨σ, hσ, hf⟩ := hfg
  refine ⟨σ i, ?_, ?_, hf i⟩
  -- a permutation that fixes what is outside maps the segment to itself
  · by_contra hlt
    have hfix := hσ (σ i) (.inl (by omega))
    have hi := σ.injective hfix
    omega
  · by_contra hlt
    have hfix := hσ (σ i) (.inr (by omega))
    have hi := σ.injective hfix
    omega

/-- **What holds of every member** holds after the segment is rearranged. -/
theorem all {P : α → Prop} (hf : ∀ i, l ≤ i → i ≤ r → P (f i)) : ∀ i, l ≤ i → i ≤ r → P (g i) := by
  intro i hl hr
  obtain ⟨k, hkl, hkr, hk⟩ := hfg.exists_mem hl hr
  rw [hk]
  exact hf k hkl hkr

theorem symm : Arranged l r g f := by
  obtain ⟨σ, hσ, hf⟩ := hfg
  refine ⟨σ.symm, fun i hi => ?_, fun i => ?_⟩
  · rw [Equiv.symm_apply_eq, hσ i hi]
  · rw [hf, Equiv.apply_symm_apply]

theorem injective {n : ℕ} (hr : r < n)
    (hf : ∀ i < n, ∀ j < n, f i = f j → i = j) : ∀ i < n, ∀ j < n, g i = g j → i = j := by
  obtain ⟨σ, hσ, hg⟩ := hfg
  -- indices below `n` go to indices below `n`
  have hlt {i : ℕ} (hi : i < n) : σ i < n := by
    by_contra hge
    have hfix := hσ (σ i) (.inr (by omega))
    have := σ.injective hfix
    omega
  intro i hi j hj he
  rw [hg, hg j] at he
  exact σ.injective (hf _ (hlt hi) _ (hlt hj) he)

end

end Arranged

variable [Preorder κ] {key : α → κ}

/-- The keys do not fall from `l` to `r`. -/
def SortedOn (key : α → κ) (l r : ℕ) (f : ℕ → α) : Prop :=
  ∀ a b, l ≤ a → a ≤ b → b ≤ r → key (f a) ≤ key (f b)

namespace SortedOn

theorem of_le (h : r ≤ l) : SortedOn key l r f := by
  intro a b hl hab hr
  obtain rfl : a = b := by omega
  exact le_refl _

theorem congr (hf : SortedOn key l r f) (hg : ∀ i, l ≤ i → i ≤ r → g i = f i) :
    SortedOn key l r g := by
  intro a b hl hab hr
  rw [hg a hl (by omega), hg b (by omega) hr]
  exact hf a b hl hab hr

/-- **Two sorted segments**: what is left of `i` is at most the pivot, and what is right of `j` at
least the pivot. -/
theorem glue {i j : ℕ} (pivot : κ) (hleft : SortedOn key l j f) (hright : SortedOn key i r f)
    (hle : ∀ k, l ≤ k → k < i → key (f k) ≤ pivot) (hge : ∀ k, j < k → k ≤ r → pivot ≤ key (f k)) :
    SortedOn key l r f := by
  intro a b hl hab hr
  rcases Nat.lt_or_ge j b with hjb | hbj
  · rcases Nat.lt_or_ge a i with hai | hia
    · exact le_trans (hle a hl hai) (hge b hjb hr)
    · exact hright a b hia hab hr
  · exact hleft a b hl hab hbj

end SortedOn

end Lume
