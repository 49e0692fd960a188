import Mathlib.Algebra.Order.Ring.Nat
import Mathlib.Data.Nat.Basic

/-!
# Rounding up to an alignment

## Main definitions

* `roundUp start align`: the least multiple of `align` at or after `start`

## Main results

* `le_roundUp`, `roundUp_le`: it is the least
* `add_le_of_dvd_of_lt`: multiples of `align` are at least `align` apart
-/

namespace Lume

variable {start align : ℕ}

/-- The least multiple of `align` at or after `start`. -/
def roundUp (start align : ℕ) : ℕ := (start + align - 1) / align * align

theorem le_roundUp (start : ℕ) (h : 0 < align) : start ≤ roundUp start align := by
  have hdiv := Nat.div_add_mod' (start + align - 1) align
  have hmod := Nat.mod_lt (start + align - 1) h
  rw [roundUp]
  omega

theorem roundUp_lt (start : ℕ) (h : 0 < align) : roundUp start align < start + align := by
  have := Nat.div_mul_le_self (start + align - 1) align
  rw [roundUp]
  omega

theorem dvd_roundUp (start align : ℕ) : align ∣ roundUp start align := Nat.dvd_mul_left ..

theorem roundUp_le {a : ℕ} (h : 0 < align) (ha : align ∣ a) (hle : start ≤ a) :
    roundUp start align ≤ a := by
  have hlt := roundUp_lt start h
  obtain ⟨m, rfl⟩ := ha
  obtain ⟨n, hn⟩ := dvd_roundUp start align
  rw [hn] at hlt ⊢
  -- two multiples less than one alignment apart in the wrong order are equal
  refine Nat.mul_le_mul_left _ (Nat.le_of_lt_succ (Nat.lt_of_mul_lt_mul_left (a := align) ?_))
  rw [Nat.mul_succ]
  omega

theorem add_le_of_dvd_of_lt {a b : ℕ} (ha : align ∣ a) (hb : align ∣ b) (h : a < b) :
    a + align ≤ b := by
  obtain ⟨m, rfl⟩ := ha
  obtain ⟨n, rfl⟩ := hb
  rw [← Nat.mul_succ]
  exact Nat.mul_le_mul_left _ (Nat.lt_of_mul_lt_mul_left h)

theorem roundUp_mono {a b : ℕ} (h : a ≤ b) : roundUp a align ≤ roundUp b align :=
  Nat.mul_le_mul_right _ (Nat.div_le_div_right (Nat.sub_le_sub_right (Nat.add_le_add_right h _) _))

theorem roundUp_of_dvd (hpos : 0 < align) (h : align ∣ start) : roundUp start align = start :=
  le_antisymm (roundUp_le hpos h le_rfl) (le_roundUp start hpos)

end Lume
