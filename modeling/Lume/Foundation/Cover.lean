import Lume.Foundation.Dyadic
import Mathlib.Data.List.Count
import Mathlib.Data.List.Nodup
import Mathlib.Data.List.Perm.Basic

/-!
# How often a list of blocks covers an index

`cover bs i` counts the blocks of `bs` that contain `i`. A list of blocks that covers every
index at most once is a family of pairwise disjoint blocks, and moving, splitting and merging
blocks leaves the counts unchanged.

## Main definitions

* `cover bs i`: the number of blocks of `bs` that contain `i`

## Main results

* `flatMap_range_perm`: replacing one list of a family of lists indexed by `range n`
* `cover_perm`, `cover_cons`, `cover_append`: counting is additive
* `eq_of_cover_le_one`: an index covered at most once lies in one block
-/

namespace Lume

theorem flatMap_range_perm {α : Type*} {n k : ℕ} (xs : List α) {f g : ℕ → List α} (hk : k < n)
    (hf : (g k).Perm (xs ++ f k)) (hne : ∀ j, j ≠ k → g j = f j) :
    ((List.range n).flatMap g).Perm (xs ++ (List.range n).flatMap f) := by
  induction n with
  | zero => omega
  | succ n ih =>
    simp only [List.range_succ, List.flatMap_append, List.flatMap_singleton]
    rcases eq_or_ne k n with rfl | hkn
    · have hsame : (List.range k).flatMap g = (List.range k).flatMap f := by
        refine List.flatMap_congr fun j hj => hne j ?_
        have := List.mem_range.mp hj
        omega
      rw [hsame]
      exact (hf.append_left _).trans (List.perm_append_comm_assoc _ _ _)
    · rw [hne n (Ne.symm hkn), ← List.append_assoc]
      exact (ih (by omega)).append_right _

/-- The number of blocks of `bs` that contain `i`. -/
def cover (bs : List Block) (i : ℕ) : ℕ := bs.countP fun b => decide (i ∈ b)

@[simp] theorem cover_nil (i : ℕ) : cover [] i = 0 := rfl

theorem cover_cons (b : Block) (bs : List Block) (i : ℕ) :
    cover (b :: bs) i = cover bs i + if i ∈ b then 1 else 0 := by
  simp [cover, List.countP_cons]

theorem cover_append (as bs : List Block) (i : ℕ) : cover (as ++ bs) i = cover as i + cover bs i :=
  List.countP_append

theorem cover_perm {as bs : List Block} (h : as.Perm bs) (i : ℕ) : cover as i = cover bs i :=
  h.countP_eq _

theorem cover_pos_iff {bs : List Block} {i : ℕ} : 0 < cover bs i ↔ ∃ b ∈ bs, i ∈ b := by
  simp [cover, List.countP_pos_iff]

theorem eq_of_cover_le_one {bs : List Block} {i : ℕ} (h : cover bs i ≤ 1) {a b : Block}
    (ha : a ∈ bs) (hb : b ∈ bs) (hia : i ∈ a) (hib : i ∈ b) : a = b := by
  by_contra hne
  obtain ⟨l, hl⟩ : ∃ l, bs.Perm (a :: l) := ⟨_, List.perm_cons_erase ha⟩
  have hbl : b ∈ l := (List.mem_cons.mp (hl.subset hb)).resolve_left (Ne.symm hne)
  have hpos : 0 < cover l i := cover_pos_iff.mpr ⟨b, hbl, hib⟩
  rw [cover_perm hl, cover_cons, if_pos hia] at h
  omega

theorem count_le_cover (bs : List Block) (b : Block) : bs.count b ≤ cover bs b.start := by
  refine List.countP_mono_left fun a _ h => ?_
  have : a = b := by simpa using h
  simp [this]

theorem cover_halves {b : Block} (ho : 0 < b.order) (bs : List Block) (i : ℕ) :
    cover (b.lower :: b.upper :: bs) i = cover (b :: bs) i := by
  simp only [cover_cons]
  by_cases hl : i ∈ b.lower
  · rw [if_pos hl, if_neg (Block.not_mem_upper hl), if_pos ((Block.mem_halves ho).mpr (.inl hl))]
  · by_cases hu : i ∈ b.upper
    · rw [if_neg hl, if_pos hu, if_pos ((Block.mem_halves ho).mpr (.inr hu))]
    · rw [if_neg hl, if_neg hu, if_neg fun h => ((Block.mem_halves ho).mp h).elim hl hu]

theorem cover_parent {b : Block} (h : b.Aligned) (bs : List Block) (i : ℕ) :
    cover (b.parent :: bs) i = cover (b :: b.buddy :: bs) i := by
  simp only [cover_cons]
  by_cases hb : i ∈ b
  · rw [if_pos hb, if_neg (h.not_mem_buddy hb), if_pos (h.mem_parent.mpr (.inl hb))]
  · by_cases hu : i ∈ b.buddy
    · rw [if_neg hb, if_pos hu, if_pos (h.mem_parent.mpr (.inr hu))]
    · rw [if_neg hb, if_neg hu, if_neg fun hp => (h.mem_parent.mp hp).elim hb hu]

end Lume
