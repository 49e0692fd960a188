import Lume.Config
import Mathlib.Data.Nat.Bitwise

/-!
# SV39 page-table entries

The entry format of `arch/riscv/mm/pmap.cc` and the translation of the machine-independent
permission flags of `include/lume/vmm.h` into it. Entries are 64-bit words; every proof about
them reads single bits.

## Main definitions

* `paToPte`, `pteToPa`: an entry from a frame and flags, and its frame
* `Word.IsValid`, `Word.IsLeaf`: the two tests of every walk
* `vmPermToPte`: the entry flags a region's permission asks for
* `Word.target`: the frame a level-0 entry maps, if it maps one

## Main results

* `pteToPa_paToPte`, `getLsbD_paToPte`: an entry keeps its frame and its flags
* `pteToPa_cowFlags`, `getLsbD_cowFlags`: marking an entry copy-on-write clears one bit and sets one
-/

namespace Lume

/-- A 64-bit word of memory, and a set of flags. -/
abbrev Word := BitVec 64

/-- `1ULL << k` -/
def bit (k : ℕ) : Word := 1#64 <<< k

/-- `PTE_V` -/
def pteV : Word := bit 0
/-- `PTE_R` -/
def pteR : Word := bit 1
/-- `PTE_W` -/
def pteW : Word := bit 2
/-- `PTE_X` -/
def pteX : Word := bit 3
/-- `PTE_U` -/
def pteU : Word := bit 4
/-- `PTE_A` -/
def pteA : Word := bit 6
/-- `PTE_D` -/
def pteD : Word := bit 7
/-- `PTE_COW` -/
def pteCow : Word := bit 8

/-- `VM_READ` -/
def vmRead : Word := bit 0
/-- `VM_WRITE` -/
def vmWrite : Word := bit 1
/-- `VM_EXEC` -/
def vmExec : Word := bit 2
/-- `VM_USER` -/
def vmUser : Word := bit 3

/-- `pte_to_pa` -/
def pteToPa (pte : Word) : ℕ := (((pte >>> 10) &&& 0xFFFFFFFFFFF#64) <<< 12).toNat

/-- `pa_to_pte` -/
def paToPte (pa : ℕ) (flags : Word) : Word := ((BitVec.ofNat 64 pa >>> 12) <<< 10) ||| flags

namespace Word

/-- `w & f` as a condition. -/
def Has (w f : Word) : Prop := w &&& f ≠ 0

instance (w f : Word) : Decidable (w.Has f) := inferInstanceAs (Decidable (_ ≠ _))

/-- `pte & PTE_V` -/
def IsValid (pte : Word) : Prop := pte.Has pteV

/-- `pte & (PTE_R | PTE_W | PTE_X)` -/
def IsLeaf (pte : Word) : Prop := pte.Has (pteR ||| pteW ||| pteX)

instance (pte : Word) : Decidable pte.IsValid := inferInstanceAs (Decidable (_ ≠ _))

instance (pte : Word) : Decidable pte.IsLeaf := inferInstanceAs (Decidable (_ ≠ _))

/-- The frame a level-0 entry maps. -/
def target (pte : Word) : Option ℕ :=
  if pte.IsValid ∧ pte.IsLeaf then some (pteToPa pte) else none

end Word

/-- `pmap::vm_perm_to_pte` -/
def vmPermToPte (perm : Word) : Word :=
  pteV ||| pteA ||| pteD ||| (if perm.Has vmRead then pteR else 0) |||
    (if perm.Has vmWrite then pteW else 0) ||| (if perm.Has vmExec then pteX else 0) |||
    (if perm.Has vmUser then pteU else 0)

/-- The flags of a copy-on-write mapping: no write bit, and the mark. -/
def cowFlags (flags : Word) : Word := (flags &&& ~~~pteW) ||| pteCow

/-! ## Single bits -/

theorem getLsbD_bit {k : ℕ} (hk : k < 64) (i : ℕ) : (bit k).getLsbD i = decide (i = k) := by
  simp only [bit, BitVec.getLsbD_shiftLeft, BitVec.getLsbD_one]
  rcases lt_trichotomy i k with h | rfl | h
  · simp [h, h.ne]
  · simp [hk]
  · simp [h.ne', show i - k ≠ 0 by omega]

theorem Word.has_iff {w f : Word} : w.Has f ↔ ∃ i, w.getLsbD i = true ∧ f.getLsbD i = true := by
  constructor
  · intro h
    by_contra hno
    refine h (BitVec.eq_of_getLsbD_eq fun i _ => ?_)
    rw [BitVec.getLsbD_and]
    by_contra hi
    exact hno ⟨i, by simpa using hi⟩
  · rintro ⟨i, hw, hf⟩ hz
    have := congrArg (fun x : Word => x.getLsbD i) hz
    simp [hw, hf] at this

theorem Word.has_bit {w : Word} {k : ℕ} (hk : k < 64) : w.Has (bit k) ↔ w.getLsbD k = true := by
  simp [Word.has_iff, getLsbD_bit hk]

theorem Word.isValid_iff {w : Word} : w.IsValid ↔ w.getLsbD 0 = true := has_bit (by decide)

theorem Word.isLeaf_iff {w : Word} : w.IsLeaf ↔
    w.getLsbD 1 = true ∨ w.getLsbD 2 = true ∨ w.getLsbD 3 = true := by
  rw [IsLeaf, has_iff]
  simp only [pteR, pteW, pteX, BitVec.getLsbD_or, getLsbD_bit (by decide : 1 < 64),
    getLsbD_bit (by decide : 2 < 64), getLsbD_bit (by decide : 3 < 64), Bool.or_eq_true,
    decide_eq_true_eq]
  constructor
  · rintro ⟨i, hi, (rfl | rfl) | rfl⟩ <;> simp [hi]
  · rintro (h | h | h)
    exacts [⟨1, h, by decide⟩, ⟨2, h, by decide⟩, ⟨3, h, by decide⟩]

/-! ## Entries -/

theorem pteToPa_congr {w w' : Word} (h : ∀ i, 10 ≤ i → w.getLsbD i = w'.getLsbD i) :
    pteToPa w = pteToPa w' := by
  have : w >>> 10 = w' >>> 10 := BitVec.eq_of_getLsbD_eq fun i _ => by
    simp only [BitVec.getLsbD_ushiftRight]
    exact h _ (Nat.le_add_right ..)
  rw [pteToPa, pteToPa, this]

/-- Entry flags are the bits below the frame number. -/
def IsFlags (f : Word) : Prop := ∀ i, 10 ≤ i → f.getLsbD i = false

theorem getLsbD_paToPte {pa : ℕ} {flags : Word} {i : ℕ} (hi : i < 10) :
    (paToPte pa flags).getLsbD i = flags.getLsbD i := by
  simp [paToPte, hi]

theorem pteToPa_paToPte {pa : ℕ} {flags : Word} (hd : kPageSize ∣ pa) (hpa : pa < 2 ^ 56)
    (hf : IsFlags flags) : pteToPa (paToPte pa flags) = pa := by
  obtain ⟨k, rfl⟩ := hd
  simp only [kPageSize] at hpa ⊢
  -- the flags do not reach the address bits
  have hzero : pteToPa (paToPte (4096 * k) flags) = pteToPa (paToPte (4096 * k) 0#64) :=
    pteToPa_congr fun i hi => by simp [paToPte, hf i hi]
  have hshift : (4096 * k) >>> 12 = k := by
    rw [Nat.shiftRight_eq_div_pow]
    omega
  have hmask : k &&& 0xFFFFFFFFFFF = k := by
    rw [show 0xFFFFFFFFFFF = 2 ^ 44 - 1 by decide, Nat.and_two_pow_sub_one_eq_mod]
    omega
  rw [hzero, pteToPa, paToPte]
  simp only [BitVec.toNat_shiftLeft, BitVec.toNat_and, BitVec.toNat_ushiftRight,
    BitVec.or_zero, BitVec.toNat_ofNat]
  rw [Nat.mod_eq_of_lt (by omega : 4096 * k < 2 ^ 64), hshift,
    Nat.mod_eq_of_lt (by decide : 0xFFFFFFFFFFF < 2 ^ 64), Nat.shiftLeft_eq k 10,
    Nat.mod_eq_of_lt (by omega : k * 2 ^ 10 < 2 ^ 64), Nat.shiftRight_eq_div_pow,
    Nat.mul_div_cancel _ (by decide), hmask, Nat.shiftLeft_eq]
  omega

theorem pteToPa_eq (w : Word) : ∃ k < 2 ^ 44, pteToPa w = 4096 * k := by
  have hlt : ((w >>> 10) &&& 0xFFFFFFFFFFF#64).toNat < 2 ^ 44 := by
    rw [BitVec.toNat_and]
    exact Nat.lt_of_le_of_lt Nat.and_le_right (by decide)
  refine ⟨_, hlt, ?_⟩
  rw [pteToPa, BitVec.toNat_shiftLeft, Nat.shiftLeft_eq]
  omega

theorem dvd_pteToPa (w : Word) : kPageSize ∣ pteToPa w := by
  obtain ⟨k, -, hk⟩ := pteToPa_eq w
  exact ⟨k, hk⟩

theorem pteToPa_lt (w : Word) : pteToPa w < 2 ^ 56 := by
  obtain ⟨k, hlt, hk⟩ := pteToPa_eq w
  omega

theorem getLsbD_cowFlags (w : Word) (i : ℕ) :
    (cowFlags w).getLsbD i = (w.getLsbD i && decide (i ≠ 2) || decide (i = 8)) := by
  by_cases hi : i < 64
  · simp only [cowFlags, pteW, pteCow, BitVec.getLsbD_or, BitVec.getLsbD_and,
      BitVec.getLsbD_not, getLsbD_bit (by decide : 2 < 64), getLsbD_bit (by decide : 8 < 64), hi,
      decide_true, Bool.true_and, ne_eq, decide_not]
  · simp [BitVec.getLsbD_of_ge _ i (by omega : 64 ≤ i), show i ≠ 8 by omega]

theorem pteToPa_cowFlags (w : Word) : pteToPa (cowFlags w) = pteToPa w :=
  pteToPa_congr fun i hi => by
    simp [getLsbD_cowFlags, show i ≠ 2 by omega, show i ≠ 8 by omega]

theorem getLsbD_vmPermToPte (perm : Word) (i : ℕ) : (vmPermToPte perm).getLsbD i =
    (decide (i = 0) || decide (i = 6) || decide (i = 7) ||
      (decide (i = 1) && perm.getLsbD 0) || (decide (i = 2) && perm.getLsbD 1) ||
      (decide (i = 3) && perm.getLsbD 2) || (decide (i = 4) && perm.getLsbD 3)) := by
  have hite (c : Prop) [Decidable c] (w : Word) :
      (if c then w else 0).getLsbD i = (w.getLsbD i && decide c) := by
    split <;> simp [*]
  simp only [vmPermToPte, BitVec.getLsbD_or, hite, pteV, pteA, pteD, pteR, pteW, pteX, pteU,
    vmRead, vmWrite, vmExec, vmUser, Word.has_bit (by decide : 0 < 64),
    Word.has_bit (by decide : 1 < 64), Word.has_bit (by decide : 2 < 64),
    Word.has_bit (by decide : 3 < 64), getLsbD_bit (by decide : 0 < 64),
    getLsbD_bit (by decide : 1 < 64), getLsbD_bit (by decide : 2 < 64),
    getLsbD_bit (by decide : 3 < 64), getLsbD_bit (by decide : 4 < 64),
    getLsbD_bit (by decide : 6 < 64), getLsbD_bit (by decide : 7 < 64), Bool.decide_eq_true]

/-! ## What an entry maps -/

theorem IsFlags.or {f f' : Word} (h : IsFlags f) (h' : IsFlags f') : IsFlags (f ||| f') := by
  intro i hi
  rw [BitVec.getLsbD_or, h i hi, h' i hi]
  rfl

theorem isFlags_bit {k : ℕ} (hk : k < 10) : IsFlags (bit k) := by
  intro i hi
  rw [getLsbD_bit (by omega)]
  exact decide_eq_false (by omega)

theorem isFlags_vmPermToPte (perm : Word) : IsFlags (vmPermToPte perm) := by
  intro i hi
  have h : i ≠ 0 ∧ i ≠ 1 ∧ i ≠ 2 ∧ i ≠ 3 ∧ i ≠ 4 ∧ i ≠ 6 ∧ i ≠ 7 := by omega
  simp [getLsbD_vmPermToPte, h]

theorem isFlags_pteV : IsFlags pteV := isFlags_bit (by decide)

theorem getLsbD_pteV : pteV.getLsbD 0 = true := by decide

theorem IsFlags.cowFlags {f : Word} (h : IsFlags f) : IsFlags (cowFlags f) := by
  intro i hi
  rw [getLsbD_cowFlags, h i hi]
  simp only [Bool.false_and, Bool.false_or, decide_eq_false_iff_not]
  omega

namespace Word

theorem target_ne_none {w : Word} : w.target ≠ none ↔ w.IsValid ∧ w.IsLeaf := by
  rw [target]
  split <;> simp [*]

theorem target_paToPte {pa : ℕ} {flags : Word} (hd : kPageSize ∣ pa) (hpa : pa < 2 ^ 56)
    (hf : IsFlags flags) (hv : flags.getLsbD 0 = true) :
    (paToPte pa flags).target = if flags.IsLeaf then some pa else none := by
  have hvalid : (paToPte pa flags).IsValid := by
    rw [isValid_iff, getLsbD_paToPte (by decide), hv]
  have hleaf : (paToPte pa flags).IsLeaf ↔ flags.IsLeaf := by
    rw [isLeaf_iff, isLeaf_iff, getLsbD_paToPte (by decide), getLsbD_paToPte (by decide),
      getLsbD_paToPte (by decide)]
  simp only [target, hvalid, hleaf, true_and, pteToPa_paToPte hd hpa hf]

theorem target_cowFlags {w : Word} (h : w.getLsbD 1 = true ∨ w.getLsbD 3 = true) :
    (cowFlags w).target = w.target := by
  have hvalid : (cowFlags w).IsValid ↔ w.IsValid := by
    rw [isValid_iff, isValid_iff, getLsbD_cowFlags]
    simp
  have hleaf : (cowFlags w).IsLeaf ∧ w.IsLeaf := by
    rw [isLeaf_iff, isLeaf_iff, getLsbD_cowFlags, getLsbD_cowFlags, getLsbD_cowFlags]
    rcases h with h | h <;> simp [h]
  simp only [target, hvalid, hleaf.1, hleaf.2, pteToPa_cowFlags]

theorem target_cowFlags_none {w : Word} (h : ¬ (w.getLsbD 1 = true ∨ w.getLsbD 3 = true)) :
    (cowFlags w).target = none := by
  by_contra hne
  have hleaf := (target_ne_none.mp hne).2
  rw [isLeaf_iff, getLsbD_cowFlags, getLsbD_cowFlags, getLsbD_cowFlags] at hleaf
  simp at hleaf
  tauto

end Word

/-! ## Entries and permissions -/

/-- An entry grants what the permission `x` of its region does, except that it withholds writing
from a page that is marked copy-on-write. -/
structure Grants (w x : Word) : Prop where
  write_eq : w.getLsbD 2 = (x.getLsbD 1 && !w.getLsbD 8)
  read_eq : w.getLsbD 1 = x.getLsbD 0
  exec_eq : w.getLsbD 3 = x.getLsbD 2
  user_eq : w.getLsbD 4 = x.getLsbD 3

theorem Grants.write {w x : Word} (h : Grants w x) (hw : w.getLsbD 2 = true) :
    x.getLsbD 1 = true := by
  rw [h.write_eq, Bool.and_eq_true] at hw
  exact hw.1

theorem grants_vmPermToPte (x : Word) : Grants (vmPermToPte x) x := by
  refine ⟨?_, ?_, ?_, ?_⟩
  · rw [getLsbD_vmPermToPte, getLsbD_vmPermToPte]
    simp
  all_goals
    rw [getLsbD_vmPermToPte]
    simp

theorem Grants.cowFlags {w x : Word} (h : Grants w x) : Grants (cowFlags w) x := by
  refine ⟨?_, ?_, ?_, ?_⟩
  · rw [getLsbD_cowFlags, getLsbD_cowFlags]
    simp
  · rw [getLsbD_cowFlags, h.read_eq]
    simp
  · rw [getLsbD_cowFlags, h.exec_eq]
    simp
  · rw [getLsbD_cowFlags, h.user_eq]
    simp

theorem not_write_cowFlags (w : Word) : (cowFlags w).getLsbD 2 = false := by
  rw [getLsbD_cowFlags]
  simp

theorem getLsbD_entry {pa i : ℕ} {f : Word} (hi : i = 1 ∨ i = 2 ∨ i = 3 ∨ i = 4 ∨ i = 8) :
    (paToPte pa (f ||| pteV)).getLsbD i = f.getLsbD i ∧
      (paToPte pa (f ||| pteV ||| pteA ||| pteD)).getLsbD i = f.getLsbD i := by
  rw [getLsbD_paToPte (by omega), getLsbD_paToPte (by omega)]
  simp only [BitVec.getLsbD_or, pteV, pteA, pteD, getLsbD_bit (by decide : 0 < 64),
    getLsbD_bit (by decide : 6 < 64), getLsbD_bit (by decide : 7 < 64)]
  rcases hi with rfl | rfl | rfl | rfl | rfl <;> simp

theorem Grants.of_bits {f w x : Word} (h : Grants f x)
    (hw : ∀ i, i = 1 ∨ i = 2 ∨ i = 3 ∨ i = 4 ∨ i = 8 → w.getLsbD i = f.getLsbD i) : Grants w x := by
  refine ⟨?_, ?_, ?_, ?_⟩
  · rw [hw 2 (by simp), hw 8 (by simp), h.write_eq]
  · rw [hw 1 (by simp), h.read_eq]
  · rw [hw 3 (by simp), h.exec_eq]
  · rw [hw 4 (by simp), h.user_eq]

theorem Grants.protected {f x : Word} (h : Grants f x) (pa : ℕ) :
    Grants (paToPte pa (f ||| pteV)) x :=
  h.of_bits fun _ hi => (getLsbD_entry hi).1

theorem Grants.mapped {f x : Word} (h : Grants f x) (pa : ℕ) :
    Grants (paToPte pa (f ||| pteV ||| pteA ||| pteD)) x :=
  h.of_bits fun _ hi => (getLsbD_entry hi).2

theorem target_mapped {pa : ℕ} {f : Word} (hd : kPageSize ∣ pa) (hpa : pa < 2 ^ 56)
    (hf : IsFlags f) : (paToPte pa (f ||| pteV ||| pteA ||| pteD)).target =
      if f.IsLeaf then some pa else none := by
  have hflags : IsFlags (f ||| pteV ||| pteA ||| pteD) :=
    ((hf.or isFlags_pteV).or (isFlags_bit (by decide))).or (isFlags_bit (by decide))
  have hleaf : (f ||| pteV ||| pteA ||| pteD).IsLeaf ↔ f.IsLeaf := by
    have hbit {i : ℕ} (hi : i = 1 ∨ i = 2 ∨ i = 3 ∨ i = 4 ∨ i = 8) :
        (paToPte pa (f ||| pteV ||| pteA ||| pteD)).getLsbD i = f.getLsbD i :=
      (getLsbD_entry hi).2
    rw [Word.isLeaf_iff, Word.isLeaf_iff, ← hbit (i := 1) (by simp), ← hbit (i := 2) (by simp),
      ← hbit (i := 3) (by simp)]
    simp only [getLsbD_paToPte (by decide : 1 < 10), getLsbD_paToPte (by decide : 2 < 10),
      getLsbD_paToPte (by decide : 3 < 10)]
  have hvalid : (f ||| pteV ||| pteA ||| pteD).getLsbD 0 = true := by
    simp only [BitVec.getLsbD_or, getLsbD_pteV, Bool.or_true, Bool.true_or]
  rw [Word.target_paToPte hd hpa hflags hvalid]
  simp only [hleaf]

theorem target_protected {pa : ℕ} {f : Word} (hd : kPageSize ∣ pa) (hpa : pa < 2 ^ 56)
    (hf : IsFlags f) : (paToPte pa (f ||| pteV)).target = if f.IsLeaf then some pa else none := by
  have hleaf : (f ||| pteV).IsLeaf ↔ f.IsLeaf := by
    simp only [Word.isLeaf_iff, BitVec.getLsbD_or, pteV, getLsbD_bit (by decide : 0 < 64)]
    simp
  have hvalid : (f ||| pteV).getLsbD 0 = true := by
    simp only [BitVec.getLsbD_or, getLsbD_pteV, Bool.or_true]
  rw [Word.target_paToPte hd hpa (hf.or isFlags_pteV) hvalid]
  simp only [hleaf]

end Lume
