import Mathlib.Data.Fintype.EquivFin
import Mathlib.Data.Nat.Notation

/-!
# Words that are mixed with their shifts

A word that is combined with a shift of itself by exclusive or can be read back, bit after bit from
the end that the shift leaves alone. Generators of the xorshift family are made of such steps.

## Main results

* `xor_shiftLeft_injective`, `xor_ushiftRight_injective`: one step
* `surjective_of_injective`: every word is reached
-/

namespace Lume

variable {w k : ℕ}

theorem xor_shiftLeft_injective (hk : 0 < k) :
    Function.Injective fun x : BitVec w => x ^^^ x <<< k := by
  intro x y h
  refine BitVec.eq_of_getLsbD_eq fun i hi => ?_
  -- upwards: the bit that is mixed in is a lower one
  induction i using Nat.strongRecOn with
  | _ i ih =>
    have hbit := congrArg (·.getLsbD i) h
    simp only [BitVec.getLsbD_xor, BitVec.getLsbD_shiftLeft, hi, decide_true, Bool.true_and] at hbit
    by_cases hik : i < k
    · simpa [hik] using hbit
    · rw [ih (i - k) (by omega) (by omega)] at hbit
      exact Bool.xor_left_inj.mp hbit

theorem xor_ushiftRight_injective (hk : 0 < k) :
    Function.Injective fun x : BitVec w => x ^^^ x >>> k := by
  intro x y h
  refine BitVec.eq_of_getLsbD_eq fun i hi => ?_
  -- downwards: the bit that is mixed in is a higher one
  induction hn : w - i using Nat.strongRecOn generalizing i with
  | _ n ih =>
    subst hn
    have hbit := congrArg (·.getLsbD i) h
    simp only [BitVec.getLsbD_xor, BitVec.getLsbD_ushiftRight] at hbit
    by_cases hik : k + i < w
    · rw [ih (w - (k + i)) (by omega) (k + i) hik rfl] at hbit
      exact Bool.xor_left_inj.mp hbit
    · rw [BitVec.getLsbD_of_ge _ _ (Nat.not_lt.mp hik), BitVec.getLsbD_of_ge _ _ (Nat.not_lt.mp hik)]
        at hbit
      simpa using hbit

theorem surjective_of_injective {f : BitVec w → BitVec w} (h : Function.Injective f) :
    Function.Surjective f := by
  have hfin : Finite (BitVec w) := Finite.of_injective BitVec.toFin fun x y he =>
    BitVec.eq_of_toFin_eq he
  exact Finite.injective_iff_surjective.mp h

end Lume
