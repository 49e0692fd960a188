import Mathlib.Data.List.Basic
import Mathlib.Data.Nat.Notation

/-!
# Copies from what has been written

The operation of the Lempel-Ziv family of compressors: append elements that are found a fixed
distance behind the end. The distance may be smaller than the number of elements, so that the copy
reads what it has written itself.

## Main definitions

* `copyBack off n out`: append `n` elements to `out`, each from `off` behind the end

## Main results

* `length_copyBack`: how much is written
-/

namespace Lume

variable {α : Type*}

/-- Append `n` elements to `out`, each from `off` behind the end. -/
def copyBack (off : ℕ) : ℕ → List α → List α
  | 0, out => out
  | n + 1, out => copyBack off n (out ++ out[out.length - off]?.toList)

variable {off n : ℕ} {out : List α}

theorem getElem?_back (hpos : 0 < off) (hle : off ≤ out.length) :
    ∃ a, out[out.length - off]? = some a :=
  ⟨_, List.getElem?_eq_getElem (Nat.sub_lt (Nat.lt_of_lt_of_le hpos hle) hpos)⟩

theorem length_copyBack (hpos : 0 < off) (hle : off ≤ out.length) :
    (copyBack off n out).length = out.length + n := by
  induction n generalizing out with
  | zero => rfl
  | succ n ih =>
    obtain ⟨a, ha⟩ := getElem?_back hpos hle
    rw [copyBack, ha, Option.toList_some, ih (by rw [List.length_append]; exact Nat.le_add_right_of_le hle),
      List.length_append, List.length_singleton]
    omega

end Lume
