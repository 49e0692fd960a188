import Mathlib.Algebra.Order.Ring.Nat
import Mathlib.Data.List.Nodup
import Mathlib.Data.List.Range
import Mathlib.Logic.Function.Basic

/-!
# Free lists threaded through memory

A page is cut into slots of one size, and the free slots are linked through their own first word:
each holds the address of the next one.

## Main definitions

* `slots base size n`: the addresses of `n` slots
* `Threaded mem head xs`: the list `xs` is linked through memory from `head` on

## Main results

* `Threaded.update`, `Threaded.push`: writes next to the list, and a new first element
* `slots_apart`: slots do not overlap
-/

namespace Lume

/-- The addresses of `n` slots of `size` bytes from `base` on. -/
def slots (base size n : ℕ) : List ℕ := (List.range n).map fun i => base + i * size

section Slots

variable {base size n a b : ℕ}

theorem mem_slots : a ∈ slots base size n ↔ ∃ i < n, base + i * size = a := by
  simp [slots]

theorem slots_succ : slots base size (n + 1) = slots base size n ++ [base + n * size] := by
  simp [slots, List.range_succ]

theorem length_slots : (slots base size n).length = n := by simp [slots]

theorem nodup_slots (hs : 0 < size) : (slots base size n).Nodup := by
  refine List.Nodup.map (fun i j hij => ?_) List.nodup_range
  have hmul : i * size = j * size := by
    omega
  exact Nat.eq_of_mul_eq_mul_right hs hmul

theorem slot_bounds (ha : a ∈ slots base size n) : base ≤ a ∧ a + size ≤ base + n * size := by
  obtain ⟨i, hi, rfl⟩ := mem_slots.mp ha
  have hle : (i + 1) * size ≤ n * size := Nat.mul_le_mul_right size hi
  rw [Nat.add_mul, Nat.one_mul] at hle
  omega

theorem slots_apart (ha : a ∈ slots base size n) (hb : b ∈ slots base size n) (hne : a ≠ b) :
    a + size ≤ b ∨ b + size ≤ a := by
  obtain ⟨i, -, rfl⟩ := mem_slots.mp ha
  obtain ⟨j, -, rfl⟩ := mem_slots.mp hb
  have hij : i ≠ j := by
    rintro rfl
    exact hne rfl
  rcases Nat.lt_or_gt_of_ne hij with hlt | hlt
  · have hle := Nat.mul_le_mul_right size (Nat.succ_le_of_lt hlt)
    rw [Nat.succ_mul] at hle
    omega
  · have hle := Nat.mul_le_mul_right size (Nat.succ_le_of_lt hlt)
    rw [Nat.succ_mul] at hle
    omega

end Slots

/-- The list is linked through memory from `head` on. -/
def Threaded {α : Type*} (mem : α → Option α) : Option α → List α → Prop
  | head, [] => head = none
  | head, x :: xs => head = some x ∧ Threaded mem (mem x) xs

namespace Threaded

variable {α : Type*} {mem mem' : α → Option α} {head : Option α} {x : α} {xs : List α}

theorem congr (h : Threaded mem head xs) (hm : ∀ x ∈ xs, mem' x = mem x) : Threaded mem' head xs := by
  induction xs generalizing head with
  | nil => exact h
  | cons x xs ih =>
    rw [List.forall_mem_cons] at hm
    refine ⟨h.1, ?_⟩
    rw [hm.1]
    exact ih h.2 hm.2

theorem update [DecidableEq α] (h : Threaded mem head xs) (hx : x ∉ xs) (v : Option α) :
    Threaded (Function.update mem x v) head xs := by
  refine h.congr fun y hy => Function.update_of_ne ?_ ..
  rintro rfl
  exact hx hy

theorem push [DecidableEq α] (h : Threaded mem head xs) (hx : x ∉ xs) :
    Threaded (Function.update mem x head) (some x) (x :: xs) := by
  refine ⟨rfl, ?_⟩
  rw [Function.update_self]
  exact h.update hx head

end Threaded

end Lume
