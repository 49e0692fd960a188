import Mathlib.Data.Nat.Bitwise
import Mathlib.Tactic.Ring
import Mathlib.Tactic.Linarith

/-!
# Aligned power-of-two blocks

A block of order `o` is a range of `2 ^ o` consecutive indices; it is aligned when it starts at
a multiple of its length. Two aligned blocks are nested or disjoint, and the buddy of an
aligned block, found by flipping one bit of its start, is the other half of the aligned block
one order up.

## Main definitions

* `Block`, `Block.Aligned`: blocks and natural alignment
* `Block.buddy`, `Block.parent`: the other half, and the block both halves make up
* `Block.Coalesced`: sets of blocks without two buddies

## Main results

* `Block.Aligned.start_eq`: an aligned block that reaches a multiple of a larger power of two
  starts there
* `Block.Aligned.mem_of_lt`: a larger aligned block that meets an aligned block contains it
* `Block.Aligned.mem_parent`: the parent of an aligned block is the block and its buddy
* `Block.Coalesced.exists_of_covered`: what a coalesced set covers lies in one of its blocks
-/

namespace Lume

/-- The `2 ^ order` indices from `start` on. -/
@[ext] structure Block where
  start : ℕ
  order : ℕ
deriving DecidableEq, Repr

namespace Block

instance : Membership ℕ Block where
  mem b i := b.start ≤ i ∧ i < b.start + 2 ^ b.order

theorem mem_def {b : Block} {i : ℕ} : i ∈ b ↔ b.start ≤ i ∧ i < b.start + 2 ^ b.order := Iff.rfl

instance (b : Block) (i : ℕ) : Decidable (i ∈ b) :=
  inferInstanceAs (Decidable (_ ∧ _))

/-- The block starts at a multiple of its length. -/
def Aligned (b : Block) : Prop := 2 ^ b.order ∣ b.start

instance (b : Block) : Decidable b.Aligned := inferInstanceAs (Decidable (_ ∣ _))

@[simp] theorem start_mem (b : Block) : b.start ∈ b :=
  ⟨le_refl _, Nat.lt_add_of_pos_right (Nat.two_pow_pos _)⟩

@[simp] theorem mem_order_zero {p i : ℕ} : i ∈ (⟨p, 0⟩ : Block) ↔ i = p := by
  simp only [mem_def, pow_zero]
  omega

@[simp] theorem aligned_order_zero (p : ℕ) : Aligned ⟨p, 0⟩ := by simp [Aligned]

/-- The other half of the parent: one bit of the start is flipped. -/
def buddy (b : Block) : Block := ⟨b.start ^^^ 2 ^ b.order, b.order⟩

/-- The block one order up that the two buddies make up. -/
def parent (b : Block) : Block := ⟨min b.start b.buddy.start, b.order + 1⟩

/-- The lower half. -/
def lower (b : Block) : Block := ⟨b.start, b.order - 1⟩

/-- The upper half. -/
def upper (b : Block) : Block := ⟨b.start + 2 ^ (b.order - 1), b.order - 1⟩

@[simp] theorem buddy_order (b : Block) : b.buddy.order = b.order := rfl
@[simp] theorem parent_order (b : Block) : b.parent.order = b.order + 1 := rfl

@[simp] theorem buddy_buddy (b : Block) : b.buddy.buddy = b := by
  ext
  · simp [buddy]
  · rfl

theorem buddy_start_mul (k o : ℕ) :
    (buddy ⟨k * 2 ^ o, o⟩).start = (if Even k then k + 1 else k - 1) * 2 ^ o := by
  have h : k * 2 ^ o ^^^ 2 ^ o = (k ^^^ 1) * 2 ^ o := by
    simpa [Nat.shiftLeft_eq] using (Nat.shiftLeft_xor_distrib (i := o) (a := k) (b := 1)).symm
  simp only [buddy, h]
  split
  · next hk => rw [Nat.xor_one_of_even hk]
  · next hk => rw [Nat.xor_one_of_odd (Nat.not_even_iff_odd.mp hk)]

theorem Aligned.buddy_cases {b : Block} (h : b.Aligned) :
    (∃ k, b.start = 2 * k * 2 ^ b.order ∧ b.buddy.start = b.start + 2 ^ b.order) ∨
      (∃ k, b.start = (2 * k + 1) * 2 ^ b.order ∧ b.start = b.buddy.start + 2 ^ b.order) := by
  obtain ⟨p, o⟩ := b
  obtain ⟨k, rfl⟩ : 2 ^ o ∣ p := h
  rw [mul_comm (2 ^ o) k]
  rcases Nat.even_or_odd k with hk | hk
  · left
    obtain ⟨m, rfl⟩ := hk.two_dvd
    refine ⟨m, rfl, ?_⟩
    rw [buddy_start_mul, if_pos hk]
    ring
  · right
    obtain ⟨m, rfl⟩ := hk
    refine ⟨m, rfl, ?_⟩
    rw [buddy_start_mul, if_neg (Nat.not_even_iff_odd.mpr ⟨m, rfl⟩), Nat.add_sub_cancel]
    ring

theorem Aligned.buddy {b : Block} (h : b.Aligned) : b.buddy.Aligned := by
  rcases h.buddy_cases with ⟨k, hs, hb⟩ | ⟨k, hs, hb⟩
  · exact ⟨2 * k + 1, by rw [hb, hs, buddy_order]; ring⟩
  · refine ⟨2 * k, ?_⟩
    have : b.buddy.start + 2 ^ b.order = 2 * k * 2 ^ b.order + 2 ^ b.order := by
      rw [← hb, hs]; ring
    rw [buddy_order, mul_comm]
    omega

theorem Aligned.parent {b : Block} (h : b.Aligned) : b.parent.Aligned := by
  rcases h.buddy_cases with ⟨k, hs, hb⟩ | ⟨k, hs, hb⟩
  · refine ⟨k, ?_⟩
    have : b.parent.start = b.start := by simp [Block.parent, hb]
    rw [this, hs, parent_order, pow_succ]
    ring
  · refine ⟨k, ?_⟩
    have hmin : b.parent.start = b.buddy.start := min_eq_right (Nat.le.intro hb.symm)
    have : b.buddy.start + 2 ^ b.order = 2 * k * 2 ^ b.order + 2 ^ b.order := by
      rw [← hb, hs]; ring
    rw [hmin, parent_order, pow_succ]
    linarith

theorem Aligned.mem_parent {b : Block} (h : b.Aligned) {i : ℕ} :
    i ∈ b.parent ↔ i ∈ b ∨ i ∈ b.buddy := by
  rcases h.buddy_cases with ⟨k, -, hb⟩ | ⟨k, -, hb⟩ <;>
    simp only [mem_def, Block.parent, buddy_order, pow_succ] <;> omega

theorem Aligned.not_mem_buddy {b : Block} (h : b.Aligned) {i : ℕ} (hi : i ∈ b) : i ∉ b.buddy := by
  rcases h.buddy_cases with ⟨k, -, hb⟩ | ⟨k, -, hb⟩ <;>
    simp only [mem_def, buddy_order] at hi ⊢ <;> omega

theorem Aligned.start_eq {b : Block} (h : b.Aligned) {x o : ℕ} (hx : x ∈ b) (hd : 2 ^ o ∣ x)
    (ho : b.order ≤ o) : b.start = x := by
  obtain ⟨k, hk⟩ := h
  obtain ⟨m, hm⟩ := (pow_dvd_pow 2 ho).trans hd
  obtain ⟨h₁, h₂⟩ := hx
  have hpos : 0 < 2 ^ b.order := Nat.two_pow_pos _
  have hkm : k ≤ m := by
    by_contra hlt
    have : 2 ^ b.order * m < 2 ^ b.order * k := Nat.mul_lt_mul_of_pos_left (by omega) hpos
    omega
  have hmk : m < k + 1 := by
    by_contra hle
    have : 2 ^ b.order * (k + 1) ≤ 2 ^ b.order * m := Nat.mul_le_mul_left _ (by omega)
    rw [mul_add, mul_one] at this
    omega
  rw [hk, hm]
  congr 1
  omega

/-- A strictly larger aligned block that contains the start of an aligned block contains the
block and its buddy. -/
theorem Aligned.mem_of_lt {a b : Block} (ha : a.Aligned) (hb : b.Aligned)
    (hlt : b.order < a.order) (hs : b.start ∈ a) {i : ℕ} (hi : i ∈ b ∨ i ∈ b.buddy) : i ∈ a := by
  have hpar := hb.parent
  rw [← hb.mem_parent] at hi
  obtain ⟨k, hk⟩ := ha
  obtain ⟨m, hm⟩ := hpar
  obtain ⟨d, hd⟩ : ∃ d, a.order = b.order + 1 + d := ⟨a.order - (b.order + 1), by omega⟩
  have hstart : b.start ∈ b.parent := hb.mem_parent.mpr (.inl b.start_mem)
  simp only [mem_def, parent_order] at hs hi hstart ⊢
  rw [parent_order] at hm
  rw [hd, pow_add] at hk hs ⊢
  generalize hP : 2 ^ (b.order + 1) = P at *
  generalize hD : 2 ^ d = D at *
  have hPpos : 0 < P := hP ▸ Nat.two_pow_pos _
  -- in units of the parent's length: the parent is block `m`, and `a` is `[D * k, D * k + D)`
  have h₁ : D * k ≤ m := by
    by_contra hlt'
    have : P * (m + 1) ≤ P * (D * k) := Nat.mul_le_mul_left _ (by omega)
    rw [mul_add, mul_one, ← mul_assoc] at this
    omega
  have h₂ : m < D * k + D := by
    by_contra hge
    have : P * (D * k + D) ≤ P * m := Nat.mul_le_mul_left _ (by omega)
    rw [mul_add, ← mul_assoc] at this
    omega
  have h₃ : P * (D * k) ≤ P * m := Nat.mul_le_mul_left _ h₁
  have h₄ : P * (m + 1) ≤ P * (D * k + D) := Nat.mul_le_mul_left _ (by omega)
  rw [← mul_assoc] at h₃
  rw [mul_add, mul_add, mul_one, ← mul_assoc] at h₄
  omega

section Halves

variable {b : Block}

theorem mem_halves (ho : 0 < b.order) {i : ℕ} : i ∈ b ↔ i ∈ b.lower ∨ i ∈ b.upper := by
  obtain ⟨o, hb⟩ : ∃ o, b.order = o + 1 := ⟨b.order - 1, by omega⟩
  simp only [mem_def, lower, upper, hb, Nat.add_sub_cancel, pow_succ]
  omega

theorem not_mem_upper {i : ℕ} (hi : i ∈ b.lower) : i ∉ b.upper := by
  simp only [mem_def, lower, upper] at hi ⊢
  omega

theorem Aligned.lower (h : b.Aligned) : b.lower.Aligned :=
  (pow_dvd_pow 2 (Nat.sub_le _ _)).trans h

theorem Aligned.upper (h : b.Aligned) : b.upper.Aligned :=
  (Nat.dvd_add_right h.lower).mpr (dvd_refl _)

theorem Aligned.buddy_lower (h : b.Aligned) (ho : 0 < b.order) : b.lower.buddy = b.upper := by
  have hne : b.lower.buddy.start = b.upper.start := by
    obtain ⟨o, hb⟩ : ∃ o, b.order = o + 1 := ⟨b.order - 1, by omega⟩
    rcases h.lower.buddy_cases with ⟨k, -, hk⟩ | ⟨k, hk, -⟩
    · exact hk
    · -- a block that starts at a multiple of its double is the lower one of the two
      obtain ⟨m, hm⟩ := h
      simp only [Block.lower, hb, Nat.add_sub_cancel, pow_succ] at hk hm
      rw [hm, mul_assoc, mul_comm (2 ^ o), Nat.mul_left_inj (Nat.two_pow_pos o).ne'] at hk
      omega
  simp only [Block.buddy, Block.lower, Block.upper, Block.mk.injEq, and_true] at hne ⊢
  exact hne

end Halves

/-! ## Coalesced sets of blocks -/

/-- No two buddies below order `top` are both in the set. -/
def Coalesced (top : ℕ) (S : Set Block) : Prop := ∀ b ∈ S, b.order < top → b.buddy ∉ S

theorem Coalesced.mono {top : ℕ} {S T : Set Block} (h : Coalesced top T) (hsub : S ⊆ T) :
    Coalesced top S :=
  fun b hb ho hbuddy => h b (hsub hb) ho (hsub hbuddy)

theorem Coalesced.insert {top : ℕ} {S : Set Block} {b : Block} (h : Coalesced top S)
    (hal : b.Aligned) (hb : b.order < top → b.buddy ∉ S) : Coalesced top (Insert.insert b S) := by
  intro a ha ho hbuddy
  rw [Set.mem_insert_iff] at ha hbuddy
  rcases ha with rfl | ha
  · rcases hbuddy with he | hbuddy
    · refine hal.not_mem_buddy a.start_mem ?_
      rw [he]
      exact a.start_mem
    · exact hb ho hbuddy
  · rcases hbuddy with he | hbuddy
    · rw [← he, buddy_order, buddy_buddy] at hb
      exact hb ho ha
    · exact h a ha ho hbuddy

theorem Coalesced.exists_of_covered {top : ℕ} {S : Set Block} (h : Coalesced top S)
    (hal : ∀ a ∈ S, a.Aligned) {b : Block} (hb : b.Aligned) (ho : b.order ≤ top)
    (hcov : ∀ i ∈ b, ∃ a ∈ S, i ∈ a) : ∃ a ∈ S, b.order ≤ a.order ∧ b.start ∈ a := by
  induction hn : b.order generalizing b with
  | zero =>
    obtain ⟨a, ha, hmem⟩ := hcov b.start b.start_mem
    exact ⟨a, ha, Nat.zero_le _, hmem⟩
  | succ n ih =>
    have hpos : 0 < b.order := by omega
    have hlo : b.lower.order = n := by rw [lower, hn]; rfl
    have hup : b.upper.order = n := by rw [upper, hn]; rfl
    obtain ⟨a₁, ha₁, hle₁, hm₁⟩ := ih hb.lower (by omega)
      (fun i hi => hcov i ((mem_halves hpos).mpr (.inl hi))) hlo
    obtain ⟨a₂, ha₂, hle₂, hm₂⟩ := ih hb.upper (by omega)
      (fun i hi => hcov i ((mem_halves hpos).mpr (.inr hi))) hup
    have hbuddy := hb.buddy_lower hpos
    rcases hle₁.lt_or_eq with hlt | heq
    · exact ⟨a₁, ha₁, hlt, hm₁⟩
    rcases hle₂.lt_or_eq with hlt | heq₂
    · -- a larger block around the upper half contains the lower half as well
      refine ⟨a₂, ha₂, hlt, ?_⟩
      refine (hal a₂ ha₂).mem_of_lt hb.upper (hup ▸ hlt) hm₂ (.inr ?_)
      rw [← hbuddy, buddy_buddy]
      exact b.lower.start_mem
    · -- otherwise both halves are in the set
      have h₁ : a₁ = b.lower := by
        have hs := (hal a₁ ha₁).start_eq hm₁ hb.lower (by omega)
        exact Block.ext hs (by omega)
      have h₂ : a₂ = b.upper := by
        have hs := (hal a₂ ha₂).start_eq hm₂ hb.upper (by omega)
        exact Block.ext hs (by omega)
      subst h₁ h₂
      exact absurd (hbuddy ▸ ha₂) (h b.lower ha₁ (by omega))

end Block

end Lume
