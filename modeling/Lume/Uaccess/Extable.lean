import Mathlib.Tactic.Common
import Lume.Config
import Lume.Foundation.InPlaceSort

/-!
# The exception table

`extable_init` and `search_extable` of `arch/riscv/trap/extable.cc`. An entry holds two 32-bit
offsets, each relative to the place where it is stored: to an instruction that may fault, and to the
code that continues after the fault. Moving an entry changes both offsets, and it keeps their meaning
if the new ones fit into 32 bits.

The table is sorted in place by a quicksort whose two indices run towards each other. They have no
bounds of their own. The upward scan is stopped by a member that is not below the pivot, and the
downward scan by one that is not above it: in the first round this is the pivot itself, and in every
later round it is a member that was exchanged before (`Scanning`). The tests for index `0` are never
what stops a scan.

Reads and writes are checked: outside of the table they fail, and so does the whole call. Loops are
given a number of rounds, and fail if it does not suffice.

## Main definitions

* `ExTable`: the table and where it is
* `ExTable.insnAt`, `ExTable.fixupAt`: the absolute addresses that an entry denotes
* `sortExtable`, `extableInit`, `searchExtable`: the functions
* `ExTable.Near`: the offsets fit, wherever an entry is put

## Main results

* `ExTable.Near.swap`: exchanging two entries exchanges what they denote
* `ExTable.Scanning.partition`: the partition stays inside the table and splits the segment
* `ExTable.Near.sort`: the sort
* `extable_lookup_exact`: after `extable_init`, `search_extable` is exact
-/

namespace Lume

/-- `ExceptionTableEntry` -/
structure ExEntry where
  insn : BitVec 32
  fixup : BitVec 32
deriving DecidableEq, Inhabited

/-- The entries from `__extable_start` to `__extable_end`, and the address of the first one. -/
structure ExTable where
  base : BitVec 64
  entries : List ExEntry

namespace ExTable

variable (t : ExTable)

/-- `__extable_end - __extable_start` -/
def count : ℕ := t.entries.length

/-- `&__extable_start[i].insn` -/
def insnAddr (i : ℕ) : BitVec 64 := t.base + BitVec.ofNat 64 (8 * i)

/-- `&__extable_start[i].fixup` -/
def fixupAddr (i : ℕ) : BitVec 64 := t.base + BitVec.ofNat 64 (8 * i + 4)

/-- The instruction that entry `i` denotes. -/
def insnAt (i : ℕ) : BitVec 64 := t.insnAddr i + (t.entries.getD i default).insn.signExtend 64

/-- The fixup that entry `i` denotes. -/
def fixupAt (i : ℕ) : BitVec 64 := t.fixupAddr i + (t.entries.getD i default).fixup.signExtend 64

/-- `reinterpret_cast<uint64>(&__extable_start[i].insn) + __extable_start[i].insn` -/
def insn (i : ℕ) : Option (BitVec 64) := if i < t.count then some (t.insnAt i) else none

/-- `reinterpret_cast<uint64>(&__extable_start[i].fixup) + __extable_start[i].fixup` -/
def fixup (i : ℕ) : Option (BitVec 64) := if i < t.count then some (t.fixupAt i) else none

/-- Write entry `i` so that it denotes the two addresses. -/
def store (i : ℕ) (insn fixup : BitVec 64) : ExTable :=
  let entry : ExEntry := ⟨(insn - t.insnAddr i).setWidth 32, (fixup - t.fixupAddr i).setWidth 32⟩
  { t with entries := t.entries.set i entry }

end ExTable

/-- `swap_extable_entries` -/
def swapExtableEntries (t : ExTable) (a b : ℕ) : Option ExTable := do
  let aInsn ← t.insn a
  let aFixup ← t.fixup a
  let bInsn ← t.insn b
  let bFixup ← t.fixup b
  return (t.store a bInsn bFixup).store b aInsn aFixup

/-- The loop of `sort_extable` that moves `i` up, for at most `fuel` rounds. -/
def scanUp (t : ExTable) (pivot : BitVec 64) : ℕ → ℕ → Option ℕ
  | 0, _ => none
  | fuel + 1, i => (t.insn i).bind fun v => if v < pivot then scanUp t pivot fuel (i + 1) else some i

/-- The loop of `sort_extable` that moves `j` down. It stops at index `0` in any case. -/
def scanDown (t : ExTable) (pivot : BitVec 64) : ℕ → Option ℕ
  | 0 => (t.insn 0).bind fun _ => some 0
  | j + 1 => (t.insn (j + 1)).bind fun v => if pivot < v then scanDown t pivot j else some (j + 1)

/-- The outer loop of `sort_extable`, for at most `fuel` rounds: the table and the final `i`, `j`. -/
def partitionLoop (pivot : BitVec 64) : ℕ → ExTable → ℕ → ℕ → Option (ExTable × ℕ × ℕ)
  | 0, _, _, _ => none
  | fuel + 1, t, i, j =>
    if i ≤ j then
      (scanUp t pivot (t.count + 1) i).bind fun i =>
        (scanDown t pivot j).bind fun j =>
          if i ≤ j then
            (swapExtableEntries t i j).bind fun t =>
              -- the second break
              if j = 0 then some (t, i + 1, j) else partitionLoop pivot fuel t (i + 1) (j - 1)
          else partitionLoop pivot fuel t i j
    else some (t, i, j)

/-- `sort_extable`, to a depth of at most `fuel` calls -/
def sortExtable : ℕ → ExTable → ℕ → ℕ → Option ExTable
  | 0, _, _, _ => none
  | fuel + 1, t, left, right =>
    if right ≤ left then some t
    else
      (t.insn (left + (right - left) / 2)).bind fun pivot =>
        (partitionLoop pivot (right - left + 2) t left right).bind fun p =>
          (if left < p.2.2 then sortExtable fuel p.1 left p.2.2 else some p.1).bind fun t =>
            if p.2.1 < right then sortExtable fuel t p.2.1 right else some t

/-- `extable_init` -/
def extableInit (t : ExTable) : Option ExTable :=
  if t.count ≤ 1 then some t else sortExtable t.count t 0 (t.count - 1)

/-- The loop of `search_extable`, for at most `fuel` rounds -/
def searchLoop (t : ExTable) (pc : BitVec 64) : ℕ → ℕ → ℕ → Option (BitVec 64)
  | 0, _, _ => none
  | fuel + 1, left, right =>
    if left ≤ right then
      (t.insn (left + (right - left) / 2)).bind fun midPc =>
        if midPc = pc then t.fixup (left + (right - left) / 2)
        else if midPc < pc then searchLoop t pc fuel (left + (right - left) / 2 + 1) right
        else if left + (right - left) / 2 = 0 then some 0
        else searchLoop t pc fuel left (left + (right - left) / 2 - 1)
    else some 0

/-- `search_extable` -/
def searchExtable (t : ExTable) (pc : BitVec 64) : Option (BitVec 64) :=
  if t.count = 0 then some 0 else searchLoop t pc (t.count + 1) 0 (t.count - 1)

namespace ExTable

/-! ## What entries denote -/

/-- A distance that fits into an offset. -/
def Short (d : BitVec 64) : Prop := -2 ^ 31 ≤ d.toInt ∧ d.toInt < 2 ^ 31

/-- The instruction and the fixup of every entry are near every place in the table. -/
structure Near (t : ExTable) : Prop where
  insn : ∀ i < t.count, ∀ j < t.count, Short (t.insnAt i - t.insnAddr j)
  fixup : ∀ i < t.count, ∀ j < t.count, Short (t.fixupAt i - t.fixupAddr j)

/-- What entry `i` denotes. -/
def pair (t : ExTable) (i : ℕ) : BitVec 64 × BitVec 64 := (t.insnAt i, t.fixupAt i)

theorem Short.signExtend {d : BitVec 64} (h : Short d) : (d.setWidth 32).signExtend 64 = d := by
  obtain ⟨hlo, hhi⟩ := h
  apply BitVec.eq_of_toInt_eq
  rw [BitVec.toInt_signExtend_of_le (by decide), BitVec.toInt_setWidth]
  rw [BitVec.toInt_eq_toNat_cond] at hlo hhi ⊢
  rw [Int.bmod_def]
  have hlt := d.isLt
  split at hlo <;> split <;> omega

variable {t : ExTable} {i j : ℕ}

theorem insn_of_lt (h : i < t.count) : t.insn i = some (t.insnAt i) := if_pos h

theorem fixup_of_lt (h : i < t.count) : t.fixup i = some (t.fixupAt i) := if_pos h

section Store

variable {a f : BitVec 64}

@[simp] theorem base_store : (t.store i a f).base = t.base := rfl

@[simp] theorem count_store : (t.store i a f).count = t.count := List.length_set

theorem pair_store_self (hi : i < t.count) (ha : Short (a - t.insnAddr i))
    (hf : Short (f - t.fixupAddr i)) : (t.store i a f).pair i = (a, f) := by
  have hget : ((t.entries.set i ⟨(a - t.insnAddr i).setWidth 32,
      (f - t.fixupAddr i).setWidth 32⟩).getD i default) =
      ⟨(a - t.insnAddr i).setWidth 32, (f - t.fixupAddr i).setWidth 32⟩ := by
    rw [List.getD_eq_getElem?_getD, List.getElem?_set_self hi, Option.getD_some]
  have hinsn : (t.store i a f).insnAt i = t.insnAddr i + (a - t.insnAddr i) := by
    rw [insnAt, store, hget, ha.signExtend]
    rfl
  have hfixup : (t.store i a f).fixupAt i = t.fixupAddr i + (f - t.fixupAddr i) := by
    rw [fixupAt, store, hget, hf.signExtend]
    rfl
  rw [pair, hinsn, hfixup, BitVec.add_comm, BitVec.sub_add_cancel, BitVec.add_comm,
    BitVec.sub_add_cancel]

theorem pair_store_of_ne (h : j ≠ i) : (t.store i a f).pair j = t.pair j := by
  have hget (e : ExEntry) : (t.entries.set i e).getD j default = t.entries.getD j default := by
    rw [List.getD_eq_getElem?_getD, List.getElem?_set_ne h.symm, ← List.getD_eq_getElem?_getD]
  simp only [pair, insnAt, fixupAt, store, hget]
  rfl

end Store

/-- A table whose entries have been rearranged. -/
structure Sorts (l r : ℕ) (t t' : ExTable) : Prop where
  base : t'.base = t.base
  count : t'.count = t.count
  arranged : Arranged l r t.pair t'.pair

namespace Sorts

variable {l r l' r' : ℕ} {t t' t'' : ExTable}

theorem refl (l r : ℕ) (t : ExTable) : Sorts l r t t := ⟨rfl, rfl, .refl l r _⟩

theorem trans (h : Sorts l r t t') (h' : Sorts l r t' t'') : Sorts l r t t'' :=
  ⟨h'.base.trans h.base, h'.count.trans h.count, h.arranged.trans h'.arranged⟩

theorem mono (hl : l ≤ l') (hr : r' ≤ r) (h : Sorts l' r' t t') : Sorts l r t t' :=
  ⟨h.base, h.count, h.arranged.mono hl hr⟩

theorem near (h : Sorts l r t t') (hr : r < t.count) (ht : t.Near) : t'.Near := by
  -- an entry is what some entry was before
  have hold {i : ℕ} (hi : i < t'.count) : ∃ k < t.count, t'.pair i = t.pair k := by
    rw [h.count] at hi
    by_cases hseg : l ≤ i ∧ i ≤ r
    · obtain ⟨k, -, hk, he⟩ := h.arranged.exists_mem hseg.1 hseg.2
      exact ⟨k, by omega, he⟩
    · exact ⟨i, hi, h.arranged.eq_of_not_mem (by omega)⟩
  constructor
  · intro i hi j hj
    obtain ⟨k, hk, he⟩ := hold hi
    have hinsn : t'.insnAt i = t.insnAt k := congrArg Prod.fst he
    have haddr : t'.insnAddr j = t.insnAddr j := by rw [insnAddr, insnAddr, h.base]
    rw [hinsn, haddr]
    exact ht.insn k hk j (h.count ▸ hj)
  · intro i hi j hj
    obtain ⟨k, hk, he⟩ := hold hi
    have hfixup : t'.fixupAt i = t.fixupAt k := congrArg Prod.snd he
    have haddr : t'.fixupAddr j = t.fixupAddr j := by rw [fixupAddr, fixupAddr, h.base]
    rw [hfixup, haddr]
    exact ht.fixup k hk j (h.count ▸ hj)

end Sorts

/-- **`swap_extable_entries`** exchanges what two entries denote. -/
theorem Near.swap {a b : ℕ} (h : t.Near) (ha : a < t.count) (hb : b < t.count) :
    ∃ t', swapExtableEntries t a b = some t' ∧ t'.base = t.base ∧ t'.count = t.count ∧
      ∀ i, t'.pair i = t.pair (Equiv.swap a b i) := by
  refine ⟨(t.store a (t.insnAt b) (t.fixupAt b)).store b (t.insnAt a) (t.fixupAt a), ?_, rfl, ?_, ?_⟩
  · rw [swapExtableEntries, insn_of_lt ha, fixup_of_lt ha, insn_of_lt hb, fixup_of_lt hb]
    rfl
  · rw [count_store, count_store]
  · intro i
    have hstored : b < (t.store a (t.insnAt b) (t.fixupAt b)).count := by rwa [count_store]
    rcases eq_or_ne i b with rfl | hib
    · rw [Equiv.swap_apply_right, pair_store_self hstored (h.insn a ha i hb) (h.fixup a ha i hb)]
      rfl
    · rw [pair_store_of_ne hib]
      rcases eq_or_ne i a with rfl | hia
      · rw [Equiv.swap_apply_left, pair_store_self ha (h.insn b hb i ha) (h.fixup b hb i ha)]
        rfl
      · rw [pair_store_of_ne hia, Equiv.swap_apply_of_ne_of_ne hia hib]

/-! ## The partition -/

section Partition

variable {pivot : BitVec 64} {left right : ℕ}

theorem scanUp_spec {k : ℕ} (hik : i ≤ k) (hk : k < t.count) (hpivot : pivot ≤ t.insnAt k) (fuel : ℕ)
    (hfuel : k < fuel + i) : ∃ i', scanUp t pivot fuel i = some i' ∧ i ≤ i' ∧ i' ≤ k ∧
      pivot ≤ t.insnAt i' ∧ ∀ m, i ≤ m → m < i' → t.insnAt m < pivot := by
  induction fuel generalizing i with
  | zero => omega
  | succ fuel ih =>
    rw [scanUp, insn_of_lt (by omega), Option.bind_some]
    by_cases hlt : t.insnAt i < pivot
    · rw [if_pos hlt]
      have hne : i ≠ k := by
        rintro rfl
        exact absurd hpivot (BitVec.not_le.mpr hlt)
      obtain ⟨i', hcall, hge, hle, hstop, hbelow⟩ := ih (i := i + 1) (by omega) (by omega)
      refine ⟨i', hcall, by omega, hle, hstop, fun m hm hm' => ?_⟩
      rcases Nat.eq_or_lt_of_le hm with rfl | hgt
      · exact hlt
      · exact hbelow m hgt hm'
    · rw [if_neg hlt]
      exact ⟨i, rfl, le_refl i, hik, BitVec.not_lt.mp hlt, fun m hm hm' => absurd hm' (by omega)⟩

theorem scanDown_spec {k : ℕ} (hkj : k ≤ j) (hj : j < t.count) (hpivot : t.insnAt k ≤ pivot) :
    ∃ j', scanDown t pivot j = some j' ∧ j' ≤ j ∧ k ≤ j' ∧ t.insnAt j' ≤ pivot ∧
      ∀ m, j' < m → m ≤ j → pivot < t.insnAt m := by
  induction j with
  | zero =>
    obtain rfl : k = 0 := by omega
    rw [scanDown, insn_of_lt hj]
    exact ⟨0, rfl, le_refl 0, le_refl 0, hpivot, fun m hm hm' => absurd hm' (by omega)⟩
  | succ j ih =>
    rw [scanDown, insn_of_lt hj, Option.bind_some]
    by_cases hlt : pivot < t.insnAt (j + 1)
    · rw [if_pos hlt]
      have hne : k ≠ j + 1 := by
        rintro rfl
        exact absurd hpivot (BitVec.not_le.mpr hlt)
      obtain ⟨j', hcall, hle, hge, hstop, habove⟩ := ih (by omega) (by omega)
      refine ⟨j', hcall, by omega, hge, hstop, fun m hm hm' => ?_⟩
      rcases Nat.eq_or_lt_of_le hm' with rfl | hlt'
      · exact hlt
      · exact habove m hm (by omega)
    · rw [if_neg hlt]
      exact ⟨j + 1, rfl, le_refl _, hkj, BitVec.not_lt.mp hlt, fun m hm hm' => absurd hm' (by omega)⟩

/-- The state of the outer loop: what is left of `i` and right of `j` is on its side of the pivot,
and while the loop goes on something stops each scan. -/
structure Scanning (pivot : BitVec 64) (left right : ℕ) (t : ExTable) (i j : ℕ) : Prop where
  near : t.Near
  lower : left ≤ i
  upper : j ≤ right
  right_lt : right < t.count
  below : ∀ k, left ≤ k → k < i → t.insnAt k ≤ pivot
  above : ∀ k, j < k → k ≤ right → pivot ≤ t.insnAt k
  stopUp : i ≤ j → ∃ k, i ≤ k ∧ k ≤ right ∧ pivot ≤ t.insnAt k
  stopDown : i ≤ j → ∃ k, left ≤ k ∧ k ≤ j ∧ t.insnAt k ≤ pivot

theorem Scanning.exchanged {i j : ℕ} (h : Scanning pivot left right t i j) {i' j' : ℕ} {t' : ExTable}
    (hi : i ≤ i') (hij : i' ≤ j') (hj : j' ≤ j) (hup : pivot ≤ t.insnAt i')
    (hdown : t.insnAt j' ≤ pivot) (hbelow : ∀ m, i ≤ m → m < i' → t.insnAt m < pivot)
    (habove : ∀ m, j' < m → m ≤ j → pivot < t.insnAt m)
    (hswap : ∀ k, t'.pair k = t.pair (Equiv.swap i' j' k)) :
    (∀ k, left ≤ k → k < i' + 1 → t'.insnAt k ≤ pivot) ∧
      ∀ k, j' ≤ k → k ≤ right → pivot ≤ t'.insnAt k := by
  have hlower := h.lower
  have hupper := h.upper
  have hinsn (k : ℕ) : t'.insnAt k = t.insnAt (Equiv.swap i' j' k) := congrArg Prod.fst (hswap k)
  constructor
  · intro k hk hk'
    rw [hinsn]
    rcases eq_or_ne k i' with rfl | hne
    · rwa [Equiv.swap_apply_left]
    · rw [Equiv.swap_apply_of_ne_of_ne hne (by omega)]
      rcases Nat.lt_or_ge k i with hki | hki
      · exact h.below k hk hki
      · exact BitVec.le_of_lt (hbelow k hki (by omega))
  · intro k hk hk'
    rw [hinsn]
    rcases eq_or_ne k j' with rfl | hne
    · rwa [Equiv.swap_apply_right]
    · rw [Equiv.swap_apply_of_ne_of_ne (by omega) hne]
      rcases Nat.lt_or_ge j k with hjk | hjk
      · exact h.above k hjk hk'
      · exact BitVec.le_of_lt (habove k (by omega) hjk)

/-- **The outer loop** ends without an access outside of the table, and splits the segment. If the
pivot is between the indices, both of them move. -/
theorem Scanning.partition {i j : ℕ} (h : Scanning pivot left right t i j) (fuel : ℕ)
    (hfuel : j + 1 < fuel + i) (hzero : 0 < fuel) :
    ∃ t' i' j', partitionLoop pivot fuel t i j = some (t', i', j') ∧ Sorts left right t t' ∧
      i ≤ i' ∧ j' ≤ j ∧ j' < i' ∧ (∀ k, left ≤ k → k < i' → t'.insnAt k ≤ pivot) ∧
      (∀ k, j' < k → k ≤ right → pivot ≤ t'.insnAt k) ∧
      ∀ k, i ≤ k → k ≤ j → t.insnAt k = pivot → i < i' ∧ (j' < j ∨ j' = 0) := by
  induction fuel generalizing t i j with
  | zero => omega
  | succ fuel ih =>
    have hlower := h.lower
    have hupper := h.upper
    have hlt := h.right_lt
    rw [partitionLoop]
    by_cases hij : i ≤ j
    swap
    · -- the indices have passed each other
      rw [if_neg hij]
      exact ⟨t, i, j, rfl, .refl .., le_refl i, le_refl j, by omega, h.below, h.above,
        fun k hk hk' => absurd hk' (by omega)⟩
    obtain ⟨ku, hku, hku', hup⟩ := h.stopUp hij
    obtain ⟨kd, hkd, hkd', hdown⟩ := h.stopDown hij
    obtain ⟨i', hi', hii', hik, hstop, hbelow⟩ :=
      scanUp_spec hku (by omega) hup (t.count + 1) (by omega)
    obtain ⟨j', hj', hjj', hjk, hstop', habove⟩ := scanDown_spec hkd' (by omega) hdown
    rw [if_pos hij, hi', Option.bind_some, hj', Option.bind_some]
    by_cases hij' : i' ≤ j'
    swap
    · -- nothing is out of place any more
      rw [if_neg hij']
      have h₁ : Scanning pivot left right t i' j' := by
        refine ⟨h.near, by omega, by omega, hlt, fun k hk hk' => ?_, fun k hk hk' => ?_,
          fun hle => absurd hle hij', fun hle => absurd hle hij'⟩
        · rcases Nat.lt_or_ge k i with hki | hki
          · exact h.below k hk hki
          · exact BitVec.le_of_lt (hbelow k hki hk')
        · rcases Nat.lt_or_ge j k with hjk | hjk
          · exact h.above k hjk hk'
          · exact BitVec.le_of_lt (habove k hk hjk)
      obtain ⟨t₂, i₂, j₂, hcall, hs₂, hi₂, hj₂, hcross, hb₂, ha₂, -⟩ := ih h₁ (by omega) (by omega)
      refine ⟨t₂, i₂, j₂, hcall, hs₂, by omega, by omega, hcross, hb₂, ha₂, fun k hk hk' he => ?_⟩
      -- the pivot would have stopped both scans
      have hki : i' ≤ k := by
        by_contra hgt
        exact BitVec.lt_irrefl _ (he ▸ hbelow k hk (by omega))
      have hkj : k ≤ j' := by
        by_contra hgt
        exact BitVec.lt_irrefl _ (he ▸ habove k (by omega) hk')
      omega
    rw [if_pos hij']
    obtain ⟨t₁, hswap, hbase, hcount, hpair⟩ := h.near.swap (show i' < t.count by omega)
      (show j' < t.count by omega)
    have hsorts : Sorts left right t t₁ :=
      ⟨hbase, hcount, .swap (by omega) hij' (by omega) hpair⟩
    obtain ⟨hbelow₁, habove₁⟩ :=
      h.exchanged hii' hij' hjj' hstop hstop' hbelow habove hpair
    rw [hswap, Option.bind_some]
    by_cases hj0 : j' = 0
    · rw [if_pos hj0]
      exact ⟨t₁, i' + 1, j', rfl, hsorts, by omega, hjj', by omega, hbelow₁,
        fun k hk => habove₁ k (by omega), fun _ _ _ _ => ⟨by omega, .inr hj0⟩⟩
    · rw [if_neg hj0]
      have h₁ : Scanning pivot left right t₁ (i' + 1) (j' - 1) :=
        ⟨hsorts.near hlt h.near, by omega, by omega, by omega, hbelow₁,
          fun k hk => habove₁ k (by omega),
          fun _ => ⟨j', by omega, by omega, habove₁ j' (le_refl _) (by omega)⟩,
          fun _ => ⟨i', by omega, by omega, hbelow₁ i' (by omega) (by omega)⟩⟩
      obtain ⟨t₂, i₂, j₂, hcall, hs₂, hi₂, hj₂, hcross, hb₂, ha₂, -⟩ := ih h₁ (by omega) (by omega)
      exact ⟨t₂, i₂, j₂, hcall, hsorts.trans hs₂, by omega, by omega, hcross, hb₂, ha₂,
        fun _ _ _ _ => ⟨by omega, .inl (by omega)⟩⟩

end Partition

/-! ## The sort -/

/-- The instruction of a pair, as a number. -/
def key (e : BitVec 64 × BitVec 64) : ℕ := e.1.toNat

/-- **`sort_extable`** ends without an access outside of the table, and sorts the segment. -/
theorem Near.sort (h : t.Near) {left right : ℕ} (hright : right < t.count) (fuel : ℕ)
    (hfuel : right < fuel + left) (hzero : 0 < fuel) :
    ∃ t', sortExtable fuel t left right = some t' ∧ Sorts left right t t' ∧
      SortedOn key left right t'.pair := by
  induction fuel generalizing t left right with
  | zero => omega
  | succ fuel ih =>
    rw [sortExtable]
    by_cases hle : right ≤ left
    · rw [if_pos hle]
      exact ⟨t, rfl, .refl .., .of_le hle⟩
    have hmid : left + (right - left) / 2 < t.count := by omega
    generalize hm : left + (right - left) / 2 = mid at hmid
    rw [if_neg hle, insn_of_lt hmid, Option.bind_some]
    have hscan : Scanning (t.insnAt mid) left right t left right :=
      ⟨h, le_refl _, le_refl _, hright, fun k hk hk' => absurd hk' (by omega),
        fun k hk hk' => absurd hk' (by omega), fun _ => ⟨mid, by omega, by omega, BitVec.le_refl _⟩,
        fun _ => ⟨mid, by omega, by omega, BitVec.le_refl _⟩⟩
    obtain ⟨t₁, i, j, hcall, hs₁, hi, hj, hcross, hbelow, habove, hmove⟩ :=
      hscan.partition (right - left + 2) (by omega) (by omega)
    obtain ⟨hlt, hlt'⟩ := hmove mid (by omega) (by omega) rfl
    rw [hcall, Option.bind_some]
    dsimp only
    have hn₁ : t₁.Near := hs₁.near hright h
    -- the part that is at most the pivot
    obtain ⟨t₂, hcall₂, hs₂, hsorted₂⟩ : ∃ t₂,
        (if left < j then sortExtable fuel t₁ left j else some t₁) = some t₂ ∧ Sorts left j t₁ t₂ ∧
          SortedOn key left j t₂.pair := by
      by_cases hlj : left < j
      · rw [if_pos hlj]
        exact ih hn₁ (by rw [hs₁.count]; omega) (by omega) (by omega)
      · rw [if_neg hlj]
        exact ⟨t₁, rfl, .refl .., .of_le (by omega)⟩
    rw [hcall₂, Option.bind_some]
    have hn₂ : t₂.Near := hs₂.near (by rw [hs₁.count]; omega) hn₁
    -- and the part that is at least the pivot
    obtain ⟨t₃, hcall₃, hs₃, hsorted₃⟩ : ∃ t₃,
        (if i < right then sortExtable fuel t₂ i right else some t₂) = some t₃ ∧
          Sorts i right t₂ t₃ ∧ SortedOn key i right t₃.pair := by
      by_cases hir : i < right
      · rw [if_pos hir]
        exact ih hn₂ (by rw [hs₂.count, hs₁.count]; omega) (by omega) (by omega)
      · rw [if_neg hir]
        exact ⟨t₂, rfl, .refl .., .of_le (by omega)⟩
    refine ⟨t₃, hcall₃, ?_, ?_⟩
    · exact hs₁.trans ((hs₂.mono (le_refl _) (by omega)).trans (hs₃.mono (by omega) (le_refl _)))
    -- neither call reaches the other part, nor what is between the two
    have hkeep₂ (k : ℕ) (hk : j < k) : t₂.pair k = t₁.pair k := hs₂.arranged.eq_of_not_mem (.inr hk)
    have hkeep₃ (k : ℕ) (hk : k < i) : t₃.pair k = t₂.pair k := hs₃.arranged.eq_of_not_mem (.inl hk)
    have hlow : ∀ k, left ≤ k → k ≤ j → key (t₂.pair k) ≤ (t.insnAt mid).toNat :=
      hs₂.arranged.all (P := fun e => key e ≤ (t.insnAt mid).toNat) fun k hk hk' => BitVec.le_def.mp (hbelow k hk (by omega))
    have hhigh : ∀ k, i ≤ k → k ≤ right → (t.insnAt mid).toNat ≤ key (t₃.pair k) := by
      refine hs₃.arranged.all (P := fun e => (t.insnAt mid).toNat ≤ key e) fun k hk hk' => ?_
      rw [hkeep₂ k (by omega)]
      exact BitVec.le_def.mp (habove k (by omega) hk')
    refine SortedOn.glue (t.insnAt mid).toNat (hsorted₂.congr fun k _ hk => hkeep₃ k (by omega))
      hsorted₃ ?_ ?_
    · intro k hk hk'
      rw [hkeep₃ k hk']
      rcases Nat.lt_or_ge j k with hjk | hjk
      · rw [hkeep₂ k hjk]
        exact BitVec.le_def.mp (hbelow k hk hk')
      · exact hlow k hk hjk
    · intro k hk hk'
      rcases Nat.lt_or_ge k i with hki | hki
      · rw [hkeep₃ k hki, hkeep₂ k hk]
        exact BitVec.le_def.mp (habove k hk hk')
      · exact hhigh k hki hk'

/-! ## The search -/

/-- **The loop of `search_extable`** ends without an access outside of the table. -/
theorem searchLoop_spec {pc : BitVec 64} (hsorted : ∀ i j, i < j → j < t.count → t.insnAt i < t.insnAt j)
    (fuel : ℕ) {left right : ℕ} (hright : right < t.count) (hfuel : right + 1 < fuel + left)
    (hzero : 0 < fuel) (hin : ∀ k < t.count, t.insnAt k = pc → left ≤ k ∧ k ≤ right) :
    ∃ r, searchLoop t pc fuel left right = some r ∧
      ((∃ k < t.count, t.insnAt k = pc ∧ t.fixupAt k = r) ∨
        (∀ k < t.count, t.insnAt k ≠ pc) ∧ r = 0) := by
  induction fuel generalizing left right with
  | zero => omega
  | succ fuel ih =>
    rw [searchLoop]
    by_cases hle : left ≤ right
    swap
    · rw [if_neg hle]
      refine ⟨0, rfl, .inr ⟨fun k hk he => ?_, rfl⟩⟩
      have := hin k hk he
      omega
    have hmid : left + (right - left) / 2 < t.count := by omega
    have hmid' : left ≤ left + (right - left) / 2 ∧ left + (right - left) / 2 ≤ right := by omega
    generalize left + (right - left) / 2 = mid at hmid hmid' ⊢
    rw [if_pos hle, insn_of_lt hmid, Option.bind_some]
    by_cases heq : t.insnAt mid = pc
    · rw [if_pos heq, fixup_of_lt hmid]
      exact ⟨_, rfl, .inl ⟨mid, hmid, heq, rfl⟩⟩
    rw [if_neg heq]
    by_cases hlt : t.insnAt mid < pc
    · rw [if_pos hlt]
      refine ih hright (by omega) (by omega) fun k hk he => ?_
      -- what is denoted at or before `mid` is below `pc`
      refine ⟨?_, (hin k hk he).2⟩
      by_contra hge
      rcases Nat.eq_or_lt_of_le (show k ≤ mid by omega) with rfl | hkm
      · exact heq he
      · exact BitVec.lt_irrefl _ (BitVec.lt_trans (he ▸ hsorted k mid hkm hmid) hlt)
    rw [if_neg hlt]
    -- what is denoted at or after `mid` is above `pc`
    have hafter (k : ℕ) (hk : k < t.count) (he : t.insnAt k = pc) : k < mid := by
      by_contra hge
      rcases Nat.eq_or_lt_of_le (show mid ≤ k by omega) with rfl | hmk
      · exact heq he
      · exact hlt (he ▸ hsorted mid k hmk hk)
    by_cases h0 : mid = 0
    · rw [if_pos h0]
      refine ⟨0, rfl, .inr ⟨fun k hk he => ?_, rfl⟩⟩
      have := hafter k hk he
      omega
    · rw [if_neg h0]
      refine ih (by omega) (by omega) (by omega) fun k hk he => ⟨(hin k hk he).1, ?_⟩
      have := hafter k hk he
      omega

end ExTable

/-- **Lookup in the exception table is exact.** The entries denote different instructions, and their
offsets fit wherever they are put. Then `extable_init` ends without an access outside of the table
and leaves entries that denote the same pairs, sorted by instruction, and `search_extable` ends
without an access outside of the table and returns the fixup of the entry for `pc`, or `0` if there
is none. -/
theorem extable_lookup_exact {t : ExTable} (hnear : t.Near)
    (hdistinct : ∀ i < t.count, ∀ j < t.count, t.insnAt i = t.insnAt j → i = j) :
    ∃ t', extableInit t = some t' ∧ t'.base = t.base ∧ t'.count = t.count ∧
      (∀ e, (∃ i < t.count, t'.pair i = e) ↔ ∃ i < t.count, t.pair i = e) ∧
      (∀ i j, i < j → j < t.count → t'.insnAt i < t'.insnAt j) ∧
      ∀ pc, ∃ r, searchExtable t' pc = some r ∧
        ((∃ i < t.count, t.pair i = (pc, r)) ∨ (∀ i < t.count, t.insnAt i ≠ pc) ∧ r = 0) := by
  obtain ⟨t', hcall, hs, hsorted⟩ : ∃ t', extableInit t = some t' ∧
      ExTable.Sorts 0 (t.count - 1) t t' ∧ SortedOn ExTable.key 0 (t.count - 1) t'.pair := by
    rw [extableInit]
    by_cases hone : t.count ≤ 1
    · rw [if_pos hone]
      exact ⟨t, rfl, .refl .., .of_le (by omega)⟩
    · rw [if_neg hone]
      exact hnear.sort (by omega) t.count (by omega) (by omega)
  -- the same entries, in both directions
  have hmem {u v : ExTable} (huv : Arranged 0 (t.count - 1) u.pair v.pair) {i : ℕ}
      (hi : i < t.count) : ∃ k < t.count, u.pair k = v.pair i := by
    obtain ⟨k, -, hk, he⟩ := huv.exists_mem (Nat.zero_le i) (show i ≤ t.count - 1 by omega)
    exact ⟨k, by omega, he.symm⟩
  have hpairs (e : BitVec 64 × BitVec 64) :
      (∃ i < t.count, t'.pair i = e) ↔ ∃ i < t.count, t.pair i = e := by
    constructor
    · rintro ⟨i, hi, rfl⟩
      exact hmem hs.arranged hi
    · rintro ⟨i, hi, rfl⟩
      exact hmem hs.arranged.symm hi
  have hstrict (i j : ℕ) (hij : i < j) (hj : j < t.count) : t'.insnAt i < t'.insnAt j := by
    have hle : (t'.insnAt i).toNat ≤ (t'.insnAt j).toNat :=
      hsorted i j (Nat.zero_le i) hij.le (by omega)
    have hinj := (hs.arranged.map Prod.fst).injective (show t.count - 1 < t.count by omega) hdistinct
    refine BitVec.lt_def.mpr (Nat.lt_of_le_of_ne hle fun he => ?_)
    have := hinj i (by omega) j hj (BitVec.eq_of_toNat_eq he)
    omega
  refine ⟨t', hcall, hs.base, hs.count, hpairs, hstrict, fun pc => ?_⟩
  -- the search speaks of the sorted table
  obtain ⟨r, hsearch, hr⟩ : ∃ r, searchExtable t' pc = some r ∧
      ((∃ k < t.count, t'.insnAt k = pc ∧ t'.fixupAt k = r) ∨
        (∀ k < t.count, t'.insnAt k ≠ pc) ∧ r = 0) := by
    rw [searchExtable, hs.count]
    by_cases hzero : t.count = 0
    · rw [if_pos hzero]
      exact ⟨0, rfl, .inr ⟨fun k hk => absurd hk (by omega), rfl⟩⟩
    · rw [if_neg hzero, ← hs.count]
      rw [← hs.count] at hstrict hzero
      exact ExTable.searchLoop_spec hstrict _ (by omega) (by omega) (by omega)
        fun k hk _ => ⟨Nat.zero_le k, by omega⟩
  refine ⟨r, hsearch, ?_⟩
  rcases hr with ⟨k, hk, rfl, rfl⟩ | ⟨hnone, rfl⟩
  · exact .inl ((hpairs _).mp ⟨k, hk, rfl⟩)
  · refine .inr ⟨fun i hi he => ?_, rfl⟩
    obtain ⟨k, hk, hpair⟩ := (hpairs (t.pair i)).mpr ⟨i, hi, rfl⟩
    exact hnone k hk ((congrArg Prod.fst hpair).trans he)

/-- Two entries in the wrong order. -/
def smallExtable : ExTable := ⟨0x1000, [⟨0x100, 0x200⟩, ⟨0x80, 0x300⟩]⟩

/-- The table with two entries is sorted, and the second entry is found. -/
theorem extable_lookup_exact_two : ∃ t', extableInit smallExtable = some t' ∧
    ∃ r, searchExtable t' 0x1088 = some r ∧ smallExtable.pair 1 = (0x1088, 0x130c) := by
  have hnear : smallExtable.Near := by
    constructor <;> (simp only [ExTable.Short]; decide)
  obtain ⟨t', hcall, -, -, -, -, hsearch⟩ := extable_lookup_exact hnear (by decide)
  obtain ⟨r, hr, -⟩ := hsearch 0x1088
  exact ⟨t', hcall, r, hr, by decide⟩

end Lume
