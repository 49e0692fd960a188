import Mathlib.Data.Finset.Card
import Mathlib.Data.Fintype.Basic
import Mathlib.Logic.Function.Basic

/-!
# Reference counts

Objects of type `α` are referenced from finitely many places of type `κ`: `f k = some a` when
place `k` refers to `a`. A reference count is *balanced* when, on every live object, it is the
number of places that refer to the object plus what is owed to it: a reference that was counted
and is held in no place. Nothing is owed between two complete operations of a correct client,
but an operation may take a count before it stores the reference, and a leak is a debt for ever.

## Main definitions

* `fiber K f a`: the number of places in `K` that refer to `a`
* `owe leak o`: one more reference owed to the object of `o`
* `Balanced K live rc f leak`: the counts `rc` are balanced

## Main results

* `Balanced.lose`, `Balanced.gain`: a place forgets, or takes, a reference
* `Balanced.addRef`, `Balanced.dropRef`: the count itself changes
* `Balanced.alloc`, `Balanced.free`: an object comes to life, or dies
* `Balanced.forget`: a set of places is dropped at once
-/

namespace Lume

open Function (update update_eq_self update_idem update_of_ne update_self)

variable {κ α : Type*} [DecidableEq α]

/-- The number of places in `K` that refer to `a`. -/
def fiber (K : Finset κ) (f : κ → Option α) (a : α) : ℕ := (K.filter fun k => f k = some a).card

section Fiber

variable {K : Finset κ} {f g : κ → Option α} {a : α} {k : κ}

theorem fiber_congr (h : ∀ k ∈ K, f k = g k) : fiber K f a = fiber K g a := by
  rw [fiber, fiber, Finset.filter_congr fun k hk => by rw [h k hk]]

theorem fiber_pos_iff : 0 < fiber K f a ↔ ∃ k ∈ K, f k = some a := by
  simp [fiber, Finset.card_pos, Finset.Nonempty]

theorem fiber_eq_zero (h : ∀ k ∈ K, f k ≠ some a) : fiber K f a = 0 := by
  rw [fiber, Finset.filter_false_of_mem h, Finset.card_empty]

theorem fiber_mono {L : Finset κ} (h : K ⊆ L) (hL : ∀ k ∈ L, f k = some a → k ∈ K) :
    fiber L f a = fiber K f a := by
  rw [fiber, fiber]
  congr 1
  ext k
  simp only [Finset.mem_filter]
  exact ⟨fun hk => ⟨hL k hk.1 hk.2, hk.2⟩, fun hk => ⟨h hk.1, hk.2⟩⟩

variable [DecidableEq κ]

theorem fiber_erase (hk : k ∈ K) :
    fiber K f a = fiber (K.erase k) f a + if f k = some a then 1 else 0 := by
  rw [fiber, fiber, Finset.filter_erase]
  split
  · rename_i hf
    rw [Finset.card_erase_add_one (Finset.mem_filter.mpr ⟨hk, hf⟩)]
  · rename_i hf
    have hnot : k ∉ K.filter fun k => f k = some a := fun hm => hf (Finset.mem_filter.mp hm).2
    rw [Finset.erase_eq_of_notMem hnot, Nat.add_zero]

theorem fiber_update (hk : k ∈ K) (v : Option α) :
    fiber K (update f k v) a + (if f k = some a then 1 else 0) =
      fiber K f a + if v = some a then 1 else 0 := by
  have hrest : fiber (K.erase k) (update f k v) a = fiber (K.erase k) f a :=
    fiber_congr fun j hj => update_of_ne (Finset.ne_of_mem_erase hj) ..
  rw [fiber_erase hk, fiber_erase hk, hrest, update_self]
  omega

end Fiber

/-- One more reference is owed to the object of `o`. -/
def owe (leak : α → ℕ) : Option α → α → ℕ
  | none => leak
  | some a => update leak a (leak a + 1)

theorem owe_apply (leak : α → ℕ) (o : Option α) (a : α) :
    owe leak o a = leak a + if o = some a then 1 else 0 := by
  cases o with
  | none => simp [owe]
  | some b =>
    rcases eq_or_ne a b with rfl | hne
    · simp [owe]
    · simp [owe, update_of_ne hne, hne.symm]

theorem leak_le_owe (leak : α → ℕ) (o : Option α) (a : α) : leak a ≤ owe leak o a := by
  rw [owe_apply]
  omega

theorem update_owe_some (leak : α → ℕ) (a : α) :
    update (owe leak (some a)) a (owe leak (some a) a - 1) = leak := by
  funext b
  rcases eq_or_ne b a with rfl | hne
  · simp [owe]
  · simp [owe, update_of_ne hne]

/-- **Balanced reference counts** -/
structure Balanced (K : Finset κ) (live : α → Prop) (rc : α → ℕ) (f : κ → Option α)
    (leak : α → ℕ) : Prop where
  mem : ∀ k a, f k = some a → k ∈ K
  alive : ∀ k a, f k = some a → live a
  count : ∀ a, live a → rc a = fiber K f a + leak a

namespace Balanced

variable {K L : Finset κ} {live live' : α → Prop} {rc rc' : α → ℕ} {f g : κ → Option α}
  {leak : α → ℕ} {a : α} {k : κ}

section

variable (h : Balanced K live rc f leak)
include h

theorem congr (hlive : ∀ a, live' a ↔ live a)
    (hrc : ∀ a, live a → rc' a = rc a) : Balanced K live' rc' f leak where
  mem := h.mem
  alive k a hk := (hlive a).mpr (h.alive k a hk)
  count a ha := by
    rw [hrc a ((hlive a).mp ha)]
    exact h.count a ((hlive a).mp ha)

theorem extend (hK : K ⊆ L) : Balanced L live rc f leak where
  mem k a hk := hK (h.mem k a hk)
  alive := h.alive
  count a ha := by
    rw [fiber_mono hK fun k _ hk => h.mem k a hk]
    exact h.count a ha

theorem addRef (a : α) :
    Balanced K live (update rc a (rc a + 1)) f (owe leak (some a)) where
  mem := h.mem
  alive := h.alive
  count b hb := by
    rw [owe_apply]
    have := h.count b hb
    rcases eq_or_ne b a with rfl | hne
    · simp only [update_self, if_true]
      omega
    · rw [update_of_ne hne, if_neg (by simpa using hne.symm)]
      exact this

theorem dropRef (hl : 0 < leak a) :
    Balanced K live (update rc a (rc a - 1)) f (update leak a (leak a - 1)) where
  mem := h.mem
  alive := h.alive
  count b hb := by
    have := h.count b hb
    rcases eq_or_ne b a with rfl | hne
    · simp only [update_self]
      omega
    · rw [update_of_ne hne, update_of_ne hne]
      exact this

theorem alloc (ha : ¬ live a) (hrc : rc a = 1)
    (hlive : ∀ b, live' b ↔ b = a ∨ live b) :
    Balanced K live' rc f (update leak a 1) where
  mem := h.mem
  alive k b hk := (hlive b).mpr (.inr (h.alive k b hk))
  count b hb := by
    rcases eq_or_ne b a with rfl | hne
    · rw [update_self, hrc, fiber_eq_zero fun k _ hk => ha (h.alive k b hk)]
    · rw [update_of_ne hne]
      exact h.count b (((hlive b).mp hb).resolve_left hne)

theorem free (ha : ∀ k, f k ≠ some a)
    (hlive : ∀ b, live' b ↔ live b ∧ b ≠ a) : Balanced K live' rc f leak where
  mem := h.mem
  alive k b hk := (hlive b).mpr ⟨h.alive k b hk, fun he => ha k (he ▸ hk)⟩
  count b hb := h.count b ((hlive b).mp hb).1

theorem forget (D : κ → Prop) [DecidablePred D]
    (hg : ∀ k, g k = if D k then none else f k) :
    Balanced K live rc g (fun a => leak a + fiber (K.filter D) f a) where
  mem k a hk := by
    rw [hg] at hk
    split at hk
    · cases hk
    · exact h.mem k a hk
  alive k a hk := by
    rw [hg] at hk
    split at hk
    · cases hk
    · exact h.alive k a hk
  count a ha := by
    have hsplit : fiber K f a = fiber (K.filter D) f a + fiber K g a := by
      rw [fiber, fiber, fiber, ← Finset.card_filter_add_card_filter_not D, Finset.filter_filter,
        Finset.filter_filter, Finset.filter_filter]
      congr 2
      · ext k
        simp only [Finset.mem_filter]
        tauto
      · ext k
        simp only [Finset.mem_filter, hg]
        by_cases hd : D k <;> simp [hd]
    rw [h.count a ha, hsplit]
    omega

end

/-! ## One place -/

variable [DecidableEq κ]

theorem lose (h : Balanced K live rc f leak) (k : κ) :
    Balanced K live rc (update f k none) (owe leak (f k)) where
  mem j a hj := by
    rcases eq_or_ne j k with rfl | hne
    · simp at hj
    · exact h.mem j a (by rwa [update_of_ne hne] at hj)
  alive j a hj := by
    rcases eq_or_ne j k with rfl | hne
    · simp at hj
    · exact h.alive j a (by rwa [update_of_ne hne] at hj)
  count a ha := by
    rw [owe_apply, h.count a ha]
    by_cases hk : k ∈ K
    · have := fiber_update (f := f) (a := a) hk none
      simp only [reduceCtorEq, if_false] at this
      omega
    · -- a place that is not counted refers to nothing
      have hnone : f k = none := by
        by_contra hne
        obtain ⟨b, hb⟩ := Option.ne_none_iff_exists'.mp hne
        exact hk (h.mem k b hb)
      rw [hnone, if_neg (by simp), ← hnone, update_eq_self, Nat.add_zero]

theorem gain (h : Balanced K live rc f leak) (hk : k ∈ K) (hf : f k = none) (ha : live a)
    (hl : 0 < leak a) :
    Balanced K live rc (update f k (some a)) (update leak a (leak a - 1)) where
  mem j b hj := by
    rcases eq_or_ne j k with rfl | hne
    · exact hk
    · exact h.mem j b (by rwa [update_of_ne hne] at hj)
  alive j b hj := by
    rcases eq_or_ne j k with rfl | hne
    · rw [update_self] at hj
      exact Option.some.inj hj ▸ ha
    · exact h.alive j b (by rwa [update_of_ne hne] at hj)
  count b hb := by
    have hup := fiber_update (f := f) (a := b) hk (some a)
    rw [hf] at hup
    simp only [reduceCtorEq, if_false, Option.some.injEq, Nat.add_zero] at hup
    rw [h.count b hb]
    rcases eq_or_ne b a with rfl | hne
    · rw [update_self]
      simp only [if_true] at hup
      omega
    · rw [update_of_ne hne]
      rw [if_neg hne.symm] at hup
      omega

theorem exchange (h : Balanced K live rc f leak) (hk : k ∈ K) (ha : live a)
    (hl : 0 < owe leak (f k) a) : Balanced K live rc (update f k (some a))
      (update (owe leak (f k)) a (owe leak (f k) a - 1)) := by
  have := (h.lose k).gain hk (update_self ..) ha hl
  rwa [update_idem] at this

end Balanced

end Lume
