import Mathlib.Algebra.Order.Ring.Nat
import Mathlib.Tactic.Ring
import Mathlib.Data.Nat.ModEq

/-!
# Numbers as bytes

## Main definitions

* `toLe k n`, `ofLe bs`: the `k` low bytes of a number, lowest byte first, and the way back
* `toBe k n`, `ofBe bs`: the same, highest byte first

## Main results

* `ofLe_toLe`: reading back gives the number modulo `256 ^ k`
* `ofBe_toBe_of_lt`: reading back gives the number, if it fits
-/

namespace Lume

/-- The `k` low bytes of `n`, lowest byte first. -/
def toLe : ℕ → ℕ → List UInt8
  | 0, _ => []
  | k + 1, n => UInt8.ofNat n :: toLe k (n / 256)

/-- The number with the given bytes, lowest byte first. -/
def ofLe : List UInt8 → ℕ
  | [] => 0
  | b :: bs => b.toNat + 256 * ofLe bs

@[simp] theorem length_toLe (k n : ℕ) : (toLe k n).length = k := by
  induction k generalizing n with
  | zero => rfl
  | succ k ih => rw [toLe, List.length_cons, ih]

theorem ofLe_toLe (k n : ℕ) : ofLe (toLe k n) = n % 256 ^ k := by
  induction k generalizing n with
  | zero => rw [toLe, ofLe, pow_zero, Nat.mod_one]
  | succ k ih =>
    rw [toLe, ofLe, ih, pow_succ', Nat.mod_mul]
    rfl

theorem ofLe_toLe_of_lt {k n : ℕ} (h : n < 256 ^ k) : ofLe (toLe k n) = n := by
  rw [ofLe_toLe, Nat.mod_eq_of_lt h]

theorem ofLe_lt (bs : List UInt8) : ofLe bs < 256 ^ bs.length := by
  induction bs with
  | nil => exact Nat.one_pos
  | cons b bs ih =>
    have hb := b.toNat_lt
    rw [ofLe, List.length_cons, pow_succ]
    omega

theorem ofLe_append (bs cs : List UInt8) :
    ofLe (bs ++ cs) = ofLe bs + 256 ^ bs.length * ofLe cs := by
  induction bs with
  | nil => simp [ofLe]
  | cons b bs ih =>
    rw [List.cons_append, ofLe, ofLe, ih, List.length_cons]
    ring

/-- The `k` low bytes of `n`, highest byte first. -/
def toBe (k n : ℕ) : List UInt8 := (toLe k n).reverse

/-- The number with the given bytes, highest byte first. -/
def ofBe (bs : List UInt8) : ℕ := ofLe bs.reverse

@[simp] theorem length_toBe (k n : ℕ) : (toBe k n).length = k := by
  rw [toBe, List.length_reverse, length_toLe]

theorem ofBe_toBe_of_lt {k n : ℕ} (h : n < 256 ^ k) : ofBe (toBe k n) = n := by
  rw [ofBe, toBe, List.reverse_reverse, ofLe_toLe_of_lt h]

theorem ofBe_lt (bs : List UInt8) : ofBe bs < 256 ^ bs.length := by
  rw [ofBe, ← List.length_reverse]
  exact ofLe_lt _

theorem ofBe_append (bs cs : List UInt8) :
    ofBe (bs ++ cs) = ofBe bs * 256 ^ cs.length + ofBe cs := by
  rw [ofBe, List.reverse_append, ofLe_append, List.length_reverse, ← ofBe, ← ofBe]
  ring

end Lume
