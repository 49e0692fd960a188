import Mathlib.Data.List.Pairwise
import Mathlib.Data.List.Sort

/-!
# Interval maps as sorted lists of segments

A segment is a half-open interval with a tag. A list of non-empty segments, each ending before
the next one starts, represents a partial function from points to tags. It is the contents of an
ordered search tree of segments in key order: insertion goes by the start of a segment, and a
search finds the segment around a point.

## Main definitions

* `Seg α`: a half-open interval with a tag
* `Segs.Maps t a x`: the partial function, as a relation
* `Segs.find`, `Segs.get`, `Segs.add`: search, value and insertion
* `Segs.Sorted`: non-empty segments, in order and apart

## Main results

* `Segs.get_eq_some_iff`: on a sorted list, search computes the relation
* `Segs.Sorted.add`, `Segs.Sorted.erase`: edits that keep the list sorted
-/

namespace Lume

/-- The half-open interval `[start, stop)` with a tag. -/
structure Seg (α : Type*) where
  start : ℕ
  stop : ℕ
  tag : α
deriving DecidableEq, Repr

namespace Seg

variable {α : Type*}

instance : Membership ℕ (Seg α) := ⟨fun v a => v.start ≤ a ∧ a < v.stop⟩

theorem mem_def {v : Seg α} {a : ℕ} : a ∈ v ↔ v.start ≤ a ∧ a < v.stop := Iff.rfl

instance (v : Seg α) (a : ℕ) : Decidable (a ∈ v) := inferInstanceAs (Decidable (_ ∧ _))

end Seg

namespace Segs

variable {α : Type*} {t t' : List (Seg α)} {u v w : Seg α} {a : ℕ} {x : α}

/-- The list assigns `x` to `a`. -/
def Maps (t : List (Seg α)) (a : ℕ) (x : α) : Prop := ∃ v ∈ t, a ∈ v ∧ v.tag = x

/-- The segment around a point. -/
def find (t : List (Seg α)) (a : ℕ) : Option (Seg α) := t.find? fun v => a ∈ v

/-- The tag at a point. -/
def get (t : List (Seg α)) (a : ℕ) : Option α := (find t a).map Seg.tag

/-- Insertion by start, after every segment that does not start later. -/
def add (t : List (Seg α)) (v : Seg α) : List (Seg α) :=
  t.orderedInsert (fun a b => a.start < b.start) v

/-- Overwrite a segment in place. -/
def edit [DecidableEq α] (t : List (Seg α)) (v w : Seg α) : List (Seg α) :=
  t.map fun u => if u = v then w else u

/-- Non-empty segments, each ending before the next one starts. -/
structure Sorted (t : List (Seg α)) : Prop where
  apart : t.Pairwise fun u v => u.stop ≤ v.start
  nonempty : ∀ v ∈ t, v.start < v.stop

theorem mem_add : u ∈ add t v ↔ u = v ∨ u ∈ t := List.mem_orderedInsert _

theorem add_eq_append (h : ∀ u ∈ t, u.start ≤ v.start) : add t v = t ++ [v] := by
  induction t with
  | nil => rfl
  | cons w t ih =>
    have hw := h w (List.mem_cons_self ..)
    rw [add, List.orderedInsert_cons, if_neg (by omega)]
    exact congrArg (w :: ·) (ih fun u hu => h u (List.mem_cons_of_mem _ hu))

theorem mem_edit [DecidableEq α] (hv : v ∈ t) : u ∈ edit t v w ↔ u = w ∨ u ∈ t ∧ u ≠ v := by
  simp only [edit, List.mem_map]
  constructor
  · rintro ⟨u', hu', rfl⟩
    split
    · exact .inl rfl
    · rename_i hne
      exact .inr ⟨hu', hne⟩
  · rintro (rfl | ⟨hu, hne⟩)
    · exact ⟨v, hv, if_pos rfl⟩
    · exact ⟨u, hu, if_neg hne⟩

theorem mem_of_find (h : find t a = some v) : v ∈ t ∧ a ∈ v :=
  ⟨List.mem_of_find?_eq_some h, by simpa using List.find?_some h⟩

theorem find_eq_none : find t a = none ↔ ∀ v ∈ t, a ∉ v := by
  simp [find, List.find?_eq_none]

/-! ## Sorted lists -/

namespace Sorted

theorem nil : Sorted ([] : List (Seg α)) := ⟨.nil, by simp⟩

theorem sublist (h : Sorted t) (hs : t'.Sublist t) : Sorted t' :=
  ⟨h.apart.sublist hs, fun v hv => h.nonempty v (hs.subset hv)⟩

theorem sep (h : Sorted t) (hu : u ∈ t) (hv : v ∈ t) (hne : u ≠ v) :
    u.stop ≤ v.start ∨ v.stop ≤ u.start := by
  have hsep : t.Pairwise fun u v => u.stop ≤ v.start ∨ v.stop ≤ u.start :=
    h.apart.imp fun hab => .inl hab
  have : Std.Symm fun u v : Seg α => u.stop ≤ v.start ∨ v.stop ≤ u.start :=
    ⟨fun _ _ => Or.symm⟩
  exact hsep.forall hu hv hne

theorem eq_of_mem (h : Sorted t) (hu : u ∈ t) (hv : v ∈ t) (hau : a ∈ u) (hav : a ∈ v) : u = v := by
  by_contra hne
  obtain ⟨h₁, h₂⟩ := hau
  obtain ⟨h₃, h₄⟩ := hav
  rcases h.sep hu hv hne with hsep | hsep <;> omega

theorem nodup (h : Sorted t) : t.Nodup := by
  refine List.Pairwise.imp_of_mem (fun {u v} hu _ huv he => ?_) h.apart
  have := h.nonempty u hu
  subst he
  omega

theorem add (h : Sorted t) (hv : v.start < v.stop)
    (hap : ∀ u ∈ t, u.stop ≤ v.start ∨ v.stop ≤ u.start) : Sorted (add t v) := by
  refine ⟨?_, fun u hu => ?_⟩
  · -- the segments that start later also start after the end of the new one
    induction t with
    | nil => exact List.pairwise_singleton _ _
    | cons w t ih =>
      obtain ⟨hw, ht⟩ := List.pairwise_cons.mp h.apart
      have hwv := hap w (List.mem_cons_self ..)
      have hne := h.nonempty w (List.mem_cons_self ..)
      rw [Segs.add, List.orderedInsert_cons]
      split
      · refine List.pairwise_cons.mpr ⟨fun u hu => ?_, h.apart⟩
        rcases List.mem_cons.mp hu with rfl | hu
        · omega
        · have := hw u hu
          omega
      · refine List.pairwise_cons.mpr ⟨fun u hu => ?_, ?_⟩
        · rcases (List.mem_orderedInsert _).mp hu with rfl | hu
          · omega
          · exact hw u hu
        · exact ih (h.sublist (List.sublist_cons_self ..)) fun u hu =>
            hap u (List.mem_cons_of_mem _ hu)
  · rcases mem_add.mp hu with rfl | hu
    · exact hv
    · exact h.nonempty u hu

section Edit

variable [DecidableEq α]

theorem erase (h : Sorted t) (v : Seg α) : Sorted (t.erase v) := h.sublist List.erase_sublist

theorem mem_erase (h : Sorted t) : u ∈ t.erase v ↔ u ∈ t ∧ u ≠ v := by
  rw [h.nodup.mem_erase_iff, and_comm]

theorem edit (h : Sorted t) (hw : w.start < w.stop) (hlo : v.start ≤ w.start)
    (hhi : w.stop ≤ v.stop) : Sorted (edit t v w) := by
  have hpart (u : Seg α) : u.start ≤ (if u = v then w else u).start ∧
      (if u = v then w else u).stop ≤ u.stop := by
    split
    · rename_i he
      exact ⟨he ▸ hlo, he ▸ hhi⟩
    · exact ⟨le_rfl, le_rfl⟩
  refine ⟨List.pairwise_map.mpr (h.apart.imp fun {u u'} hle => ?_), fun u hu => ?_⟩
  · exact ((hpart u).2.trans hle).trans (hpart u').1
  · obtain ⟨u', hu', rfl⟩ := List.mem_map.mp hu
    split
    · exact hw
    · exact h.nonempty u' hu'

end Edit

end Sorted

/-! ## The partial function -/

theorem maps_of_mem (hv : v ∈ t) (ha : a ∈ v) : Maps t a v.tag := ⟨v, hv, ha, rfl⟩

theorem get_eq_some_iff (h : Sorted t) : get t a = some x ↔ Maps t a x := by
  rw [get, Option.map_eq_some_iff]
  constructor
  · rintro ⟨v, hv, rfl⟩
    exact maps_of_mem (mem_of_find hv).1 (mem_of_find hv).2
  · rintro ⟨v, hv, ha, rfl⟩
    cases hf : find t a with
    | none => exact absurd ha (find_eq_none.mp hf v hv)
    | some u =>
      rw [h.eq_of_mem (mem_of_find hf).1 hv (mem_of_find hf).2 ha]
      exact ⟨v, rfl, rfl⟩

theorem get_eq_none_iff : get t a = none ↔ ∀ v ∈ t, a ∉ v := by
  rw [get, Option.map_eq_none_iff, find_eq_none]

theorem Maps.unique (h : Sorted t) {y : α} (hx : Maps t a x) (hy : Maps t a y) : x = y := by
  rw [← get_eq_some_iff h] at hx hy
  exact Option.some.inj (hx.symm.trans hy)

theorem get_congr (h : Sorted t) (h' : Sorted t') (heq : ∀ x, Maps t' a x ↔ Maps t a x) :
    get t' a = get t a :=
  Option.ext fun x => by rw [get_eq_some_iff h, get_eq_some_iff h', heq]

theorem maps_add : Maps (add t v) a x ↔ (a ∈ v ∧ v.tag = x) ∨ Maps t a x := by
  simp only [Maps, mem_add, or_and_right, exists_or, exists_eq_left]

theorem Sorted.split [DecidableEq α] (h : Sorted t) (hv : v ∈ t) {s : ℕ} (hlo : v.start < s)
    (hhi : s < v.stop) :
    Sorted (Segs.add (Segs.edit t v { v with stop := s }) { v with start := s }) ∧
      ∀ a x, Maps (Segs.add (Segs.edit t v { v with stop := s }) { v with start := s }) a x ↔
        Maps t a x := by
  constructor
  · have hleft : Sorted (Segs.edit t v { v with stop := s }) := h.edit hlo le_rfl hhi.le
    have hright : ({ v with start := s } : Seg α).start < ({ v with start := s } : Seg α).stop := hhi
    refine hleft.add hright fun u hu => ?_
    rcases (mem_edit hv).mp hu with rfl | ⟨hu, hne⟩
    · exact .inl le_rfl
    · rcases h.sep hu hv hne with hsep | hsep
      · exact .inl (hsep.trans hlo.le)
      · exact .inr hsep
  · intro a x
    rw [maps_add]
    constructor
    · rintro (⟨ha, hx⟩ | ⟨u, hu, ha, hx⟩)
      · exact ⟨v, hv, ⟨hlo.le.trans ha.1, ha.2⟩, hx⟩
      · rcases (mem_edit hv).mp hu with rfl | ⟨hu, -⟩
        · exact ⟨v, hv, ⟨ha.1, ha.2.trans hhi⟩, hx⟩
        · exact ⟨u, hu, ha, hx⟩
    · rintro ⟨u, hu, ha, hx⟩
      by_cases hne : u = v
      · subst hne
        rcases Nat.lt_or_ge a s with has | has
        · exact .inr ⟨_, (mem_edit hv).mpr (.inl rfl), ⟨ha.1, has⟩, hx⟩
        · exact .inl ⟨⟨has, ha.2⟩, hx⟩
      · exact .inr ⟨u, (mem_edit hv).mpr (.inr ⟨hu, hne⟩), ha, hx⟩

theorem Sorted.join {l r : List (Seg α)} (h : Sorted (l ++ u :: v :: r)) (hadj : u.stop = v.start)
    (htag : u.tag = v.tag) : Sorted (l ++ { u with stop := v.stop } :: r) ∧
      ∀ a x, Maps (l ++ { u with stop := v.stop } :: r) a x ↔ Maps (l ++ u :: v :: r) a x := by
  have hu := h.nonempty u (by simp)
  have hv := h.nonempty v (by simp)
  constructor
  · obtain ⟨hl, hr, hlr⟩ := List.pairwise_append.mp h.apart
    obtain ⟨hur, hvr⟩ := List.pairwise_cons.mp hr
    obtain ⟨hvr, hr⟩ := List.pairwise_cons.mp hvr
    refine ⟨List.pairwise_append.mpr ⟨hl, List.pairwise_cons.mpr ⟨hvr, hr⟩, ?_⟩, ?_⟩
    · intro w hw y hy
      rcases List.mem_cons.mp hy with rfl | hy
      · exact hlr w hw u (by simp)
      · exact hlr w hw y (by simp [hy])
    · intro w hw
      rcases List.mem_append.mp hw with hw | hw
      · exact h.nonempty w (by simp [hw])
      · rcases List.mem_cons.mp hw with rfl | hw
        · show u.start < v.stop
          omega
        · exact h.nonempty w (by simp [hw])
  · intro a x
    have hjoin : a ∈ ({ u with stop := v.stop } : Seg α) ↔ a ∈ u ∨ a ∈ v := by
      simp only [Seg.mem_def]
      omega
    simp only [Maps, List.mem_append, List.mem_cons, or_and_right, exists_or, exists_eq_left,
      hjoin, or_assoc]
    rw [htag]

end Segs

end Lume
