import Lume.Memblock.Words

/-!
# The free regions as a complement

`memblock_for_each_free` sweeps the reserved array in the order of the bases and reports the gaps.
It compares its position with the end of RAM, but it does not cut a gap there: a gap in front of a
reservation that starts past the end of RAM is reported up to that reservation.

## Main definitions

* `Gmb.YieldsComplement`: the reported ranges are non-empty, in order, apart, and make up what the
  reservations leave of RAM

## Main results

* `forEachFree_complement_iff`: this holds exactly where no reservation starts past the end of RAM,
  or one reaches over the end of RAM or up to it
-/

namespace Lume

namespace Gmb

variable {memEnd : ℕ}

/-- The gaps that a sweep from `pos` reports are what the entries leave of `[pos, memEnd)`. -/
def Exact (memEnd : ℕ) (rs : List Region) (pos : ℕ) : Prop :=
  ∀ x, (∃ f ∈ freeLoop memEnd rs pos, x ∈ f) ↔ pos ≤ x ∧ x < memEnd ∧ ∀ r ∈ rs, x ∉ r

/-- The sweep never looks past the end of RAM from inside it. -/
def Closed (memEnd : ℕ) (rs : List Region) (pos : ℕ) : Prop :=
  memEnd ≤ pos ∨ (∀ r ∈ rs, r.base ≤ memEnd) ∨ ∃ r ∈ rs, r.base ≤ memEnd ∧ memEnd ≤ r.stop

theorem freeLoop_cons {r : Region} (hr : r.stop < 2 ^ 64) (rs : List Region) {pos : ℕ}
    (hpos : pos < memEnd) : freeLoop memEnd (r :: rs) pos =
      (if pos < r.base then [⟨pos, r.base - pos⟩] else []) ++
        freeLoop memEnd rs (max pos r.stop) := by
  have hle : r.base ≤ r.stop := Nat.le_add_right ..
  rw [freeLoop, if_pos hpos, Region.stop64_eq hr]
  split
  · rename_i hlt
    rw [if_neg (by omega : ¬ pos < r.base), List.nil_append]
    congr 1
    split <;> omega
  · rw [max_eq_right (by omega)]

theorem freeLoop_of_le {rs : List Region} {pos : ℕ} (h : memEnd ≤ pos) :
    freeLoop memEnd rs pos = [] := by
  cases rs <;> rw [freeLoop, if_neg (Nat.not_lt.mpr h)]

theorem mem_gap {a b x : ℕ} :
    (∃ f ∈ (if a < b then [⟨a, b - a⟩] else [] : List Region), x ∈ f) ↔ a ≤ x ∧ x < b := by
  split <;> simp [Region.mem_def, Region.stop] <;> omega

theorem freeLoop_ordered (memEnd : ℕ) {rs : List Region} (hrs : ∀ r ∈ rs, r.stop < 2 ^ 64) (pos : ℕ) :
    (∀ f ∈ freeLoop memEnd rs pos, 0 < f.size ∧ pos ≤ f.base) ∧
      (freeLoop memEnd rs pos).Pairwise fun f g => f.stop ≤ g.base := by
  induction rs generalizing pos with
  | nil =>
    rw [freeLoop]
    split
    · simpa using by omega
    · simp
  | cons r rs ih =>
    rcases Nat.lt_or_ge pos memEnd with hpos | hpos
    · obtain ⟨hr, hrs⟩ := List.forall_mem_cons.mp hrs
      obtain ⟨hle, hpw⟩ := ih hrs (max pos r.stop)
      have hstop : r.base ≤ r.stop := Nat.le_add_right ..
      rw [freeLoop_cons hr rs hpos]
      have hrest : ∀ f ∈ freeLoop memEnd rs (max pos r.stop), 0 < f.size ∧ pos ≤ f.base :=
        fun f hf => ⟨(hle f hf).1, (le_max_left ..).trans (hle f hf).2⟩
      split
      · rename_i hlt
        refine ⟨?_, List.pairwise_cons.mpr ⟨fun f hf => ?_, hpw⟩⟩
        · rw [List.cons_append, List.nil_append, List.forall_mem_cons]
          exact ⟨⟨Nat.sub_pos_of_lt hlt, le_rfl⟩, hrest⟩
        · have := (hle f hf).2
          rw [Region.stop_gap hlt.le]
          omega
      · exact ⟨hrest, hpw⟩
    · rw [freeLoop_of_le hpos]
      simp

theorem exact_cons {r : Region} (hr : r.stop < 2 ^ 64) (hbase : r.base ≤ memEnd)
    {rs : List Region} (hrs : ∀ r' ∈ rs, r'.stop < 2 ^ 64) (hsort : ∀ r' ∈ rs, r.base ≤ r'.base)
    {pos : ℕ} (hpos : pos < memEnd) :
    Exact memEnd (r :: rs) pos ↔ Exact memEnd rs (max pos r.stop) := by
  have hstop : r.base ≤ r.stop := Nat.le_add_right ..
  refine forall_congr' fun x => ?_
  have hrest : (∃ f ∈ freeLoop memEnd rs (max pos r.stop), x ∈ f) → max pos r.stop ≤ x := by
    rintro ⟨f, hf, hx⟩
    exact ((freeLoop_ordered memEnd hrs _).1 f hf).2.trans hx.1
  have hmem : x ∈ r ↔ r.base ≤ x ∧ x < r.stop := Iff.rfl
  rw [freeLoop_cons hr rs hpos]
  simp only [List.mem_append, or_and_right, exists_or, mem_gap, List.forall_mem_cons, hmem]
  rcases Nat.lt_or_ge x (max pos r.stop) with hx | hx
  · -- before the new position only the gap in front of the entry counts
    have hno : ¬ ∃ f ∈ freeLoop memEnd rs (max pos r.stop), x ∈ f :=
      fun h => absurd (hrest h) (Nat.not_le.mpr hx)
    have hright : ¬ (max pos r.stop ≤ x ∧ x < memEnd ∧ ∀ r ∈ rs, x ∉ r) := by
      rintro ⟨h, -⟩
      omega
    have hleft : (pos ≤ x ∧ x < r.base) ↔
        pos ≤ x ∧ x < memEnd ∧ ¬ (r.base ≤ x ∧ x < r.stop) ∧ ∀ r ∈ rs, x ∉ r := by
      constructor
      · rintro ⟨h₁, h₂⟩
        refine ⟨h₁, by omega, by omega, fun r' hr' hxr => ?_⟩
        have := hsort r' hr'
        have := hxr.1
        omega
      · rintro ⟨h₁, -, h₃, -⟩
        omega
    simp only [hno, hright, or_false, hleft]
  · have hgap : ¬ (pos ≤ x ∧ x < r.base) := by omega
    have h₁ : pos ≤ x := by omega
    have h₂ : ¬ (r.base ≤ x ∧ x < r.stop) := by omega
    rw [or_iff_right hgap]
    simp only [h₁, hx, h₂, not_false_eq_true, true_and]

theorem exact_iff_closed (memEnd : ℕ) {rs : List Region} (hrs : ∀ r ∈ rs, r.stop < 2 ^ 64)
    (hsort : rs.Pairwise fun r r' => r.base ≤ r'.base) (pos : ℕ) :
    Exact memEnd rs pos ↔ Closed memEnd rs pos := by
  induction rs generalizing pos with
  | nil =>
    refine iff_of_true (fun x => ?_) (.inr (.inl (by simp)))
    rw [freeLoop, mem_gap]
    simp
  | cons r rs ih =>
    rcases Nat.lt_or_ge pos memEnd with hpos | hpos
    · obtain ⟨hr, hrs⟩ := List.forall_mem_cons.mp hrs
      obtain ⟨hle, hsort⟩ := List.pairwise_cons.mp hsort
      rcases Nat.lt_or_ge memEnd r.base with hbase | hbase
      · -- the gap in front of this entry holds the first address past RAM
        refine iff_of_false (fun h => ?_) ?_
        · have hend := (h memEnd).mp
          rw [freeLoop_cons hr rs hpos, if_pos (by omega)] at hend
          have := hend ⟨⟨pos, r.base - pos⟩, by simp, hpos.le, by rw [Region.stop_gap] <;> omega⟩
          omega
        · rintro (h | h | ⟨r', hr', h, -⟩)
          · omega
          · exact absurd (h r (List.mem_cons_self ..)) (by omega)
          · rcases List.mem_cons.mp hr' with rfl | hr'
            · omega
            · have := hle r' hr'
              omega
      · rw [exact_cons hr hbase hrs hle hpos, ih hrs hsort]
        simp only [Closed, List.forall_mem_cons, List.exists_mem_cons_iff, hbase, true_and]
        constructor
        · rintro (h | h | h)
          · exact .inr (.inr (.inl (by omega)))
          · exact .inr (.inl h)
          · exact .inr (.inr (.inr h))
        · rintro (h | h | h | h)
          · omega
          · exact .inr (.inl h)
          · exact .inl (by omega)
          · exact .inr (.inr h)
    · refine iff_of_true (fun x => ?_) (.inl hpos)
      rw [freeLoop_of_le hpos]
      simp
      omega

/-- The ranges reported by `memblock_for_each_free` are non-empty, ascending and apart, and their
union is what the pages of the given regions leave of RAM. -/
structure YieldsComplement (mb : Gmb) (calls : List Region) : Prop where
  nonempty : ∀ f ∈ mb.forEachFree, 0 < f.size
  ascending : mb.forEachFree.Pairwise fun f g => f.stop ≤ g.base
  union : ∀ x, (∃ f ∈ mb.forEachFree, x ∈ f) ↔
    mb.memBase ≤ x ∧ x < mb.memBase + mb.memSize ∧ ∀ q ∈ calls, x ∉ q.pages

end Gmb

/-- **The free regions**: after any sequence of reservations that the array has room for and that
do not wrap, the ranges reported are the complement of the reservations in RAM exactly where
RAM is empty, no reservation starts past the end of RAM, or one that starts at or before the end
of RAM reaches it. -/
theorem forEachFree_complement_iff (memBase memSize : ℕ) (hram : memBase + memSize < 2 ^ 64)
    (calls : List Region) (hlen : calls.length ≤ kMemblockMaxRegions)
    (hcalls : ∀ q ∈ calls, q.pages.stop < 2 ^ 64) :
    ∃ mb, Gmb.reserveAll ⟨memBase, memSize, []⟩ calls = some mb ∧ (mb.YieldsComplement calls ↔
        memSize = 0 ∨ (∀ q ∈ calls, q.pages.base ≤ memBase + memSize) ∨
          ∃ q ∈ calls, q.pages.base ≤ memBase + memSize ∧ memBase + memSize ≤ q.pages.stop) := by
  obtain ⟨mb, hres, hb⟩ := Gmb.reserveAll_spec memBase memSize hlen hcalls
  refine ⟨mb, hres, ?_⟩
  have hend : mb.memEnd = memBase + memSize := by
    rw [Gmb.memEnd, hb.memBase, hb.memSize, Nat.mod_eq_of_lt hram]
  have hstop : ∀ r ∈ mb.reserved, r.stop < 2 ^ 64 := by
    intro r hr
    obtain ⟨q, hq, rfl⟩ := (hb.mem r).mp hr
    exact hcalls q hq
  have hmem : ∀ p : Region → Prop, (∀ r ∈ mb.reserved, p r) ↔ ∀ q ∈ calls, p q.pages := by
    intro p
    simp only [hb.mem]
    constructor
    · exact fun h q hq => h _ ⟨q, hq, rfl⟩
    · rintro h r ⟨q, hq, rfl⟩
      exact h q hq
  have hiff := Gmb.exact_iff_closed mb.memEnd hstop hb.sorted mb.memBase
  have hordered := Gmb.freeLoop_ordered mb.memEnd hstop mb.memBase
  have hclosed : Gmb.Closed mb.memEnd mb.reserved mb.memBase ↔
      memSize = 0 ∨ (∀ q ∈ calls, q.pages.base ≤ memBase + memSize) ∨
        ∃ q ∈ calls, q.pages.base ≤ memBase + memSize ∧ memBase + memSize ≤ q.pages.stop := by
    have hex := not_congr (hmem fun r => ¬ (r.base ≤ mb.memEnd ∧ mb.memEnd ≤ r.stop))
    push Not at hex
    rw [Gmb.Closed, hmem fun r => r.base ≤ mb.memEnd, hex, hend, hb.memBase]
    exact or_congr (by omega) Iff.rfl
  have hleft : ∀ x, (mb.memBase ≤ x ∧ x < mb.memEnd ∧ ∀ r ∈ mb.reserved, x ∉ r) ↔
      mb.memBase ≤ x ∧ x < mb.memBase + mb.memSize ∧ ∀ q ∈ calls, x ∉ q.pages := by
    intro x
    rw [hmem fun r => x ∉ r, hend, hb.memBase, hb.memSize]
  rw [← hclosed, ← hiff]
  constructor
  · exact fun h x => (h.union x).trans (hleft x).symm
  · exact fun h => ⟨fun f hf => (hordered.1 f hf).1, hordered.2,
      fun x => (h x).trans (hleft x)⟩

/-- Sixteen pages of RAM of which the first two are reserved. -/
theorem forEachFree_complement_small :
    ∃ mb, Gmb.reserveAll ⟨0x80000000, 0x10000, []⟩ [⟨0x80000000, 0x2000⟩] = some mb ∧
      mb.YieldsComplement [⟨0x80000000, 0x2000⟩] := by
  obtain ⟨mb, hres, hiff⟩ := forEachFree_complement_iff 0x80000000 0x10000 (by decide)
    [⟨0x80000000, 0x2000⟩] (by decide) (by decide)
  exact ⟨mb, hres, hiff.mpr (.inr (.inl (by decide)))⟩

/-- A reservation past the end of RAM: with sixteen pages of RAM and the page at `0x80020000`
reserved, the range reported is twice as long as RAM. -/
theorem gap_past_ram :
    ∃ mb, Gmb.reserveAll ⟨0x80000000, 0x10000, []⟩ [⟨0x80020000, 0x1000⟩] = some mb ∧
      mb.forEachFree = [⟨0x80000000, 0x20000⟩] ∧ ¬ mb.YieldsComplement [⟨0x80020000, 0x1000⟩] := by
  refine ⟨⟨0x80000000, 0x10000, [⟨0x80020000, 0x1000⟩]⟩, by decide +kernel, by decide +kernel,
    fun h => ?_⟩
  have hfree : (⟨0x80000000, 0x10000, [⟨0x80020000, 0x1000⟩]⟩ : Gmb).forEachFree =
      [⟨0x80000000, 0x20000⟩] := by decide +kernel
  have := (h.union 0x80010000).mp ⟨_, by rw [hfree]; exact List.mem_singleton_self _, by decide⟩
  exact absurd this.2.1 (by decide)

end Lume
