import Mathlib.Data.Finset.Card
import Mathlib.Order.Interval.Finset.Nat
import Lume.Foundation.Loop
import Lume.Foundation.Transition

/-!
# Process identifiers

`PidAllocator` of `kernel/pid.cc`: a bitmap of 512 words with a bit for each identifier, and a hint
at which the search for a word with a free bit starts. The first two identifiers are never given
out.

## Main definitions

* `PidAllocator.alloc`, `PidAllocator.free`: the calls
* `PidSystem`: an allocator, and the identifiers that are given out
* `PidSystem.Valid`: the bits that are set are those of the identifiers that are given out, and the
  first two

## Main results

* `lowestBit_spec`: the loop over the bits of a word
* `PidAllocator.alloc_spec`: an identifier that was free, or none is
* `pid_unique_never_lost`: in every run
-/

namespace Lume

/-- `kMaxPid` -/
def kMaxPid : ℕ := 32768

/-- `kBitmapWords` -/
def kBitmapWords : ℕ := kMaxPid / 64

/-- One round of `while ((v & 1) == 0)`. -/
def lowestBitBody : BitVec 64 × ℕ → (BitVec 64 × ℕ) ⊕ ℕ
  | (v, bit) => if v &&& 1#64 = 0#64 then .inl (v >>> 1, bit + 1) else .inr bit

/-- The number of the lowest bit that is set. -/
def lowestBit (v : BitVec 64) : Option ℕ := loop lowestBitBody 64 (v, 0)

structure PidAllocator where
  bitmap : ℕ → BitVec 64
  nextHint : ℕ

namespace PidAllocator

/-- `init` -/
def init : PidAllocator where
  bitmap w := if w = 0 then 0x3#64 else 0#64
  nextHint := 2

/-- The rounds of `alloc` that are left, `left` of them. -/
def allocLoop (a : PidAllocator) (wordStart : ℕ) : ℕ → Option ℕ × PidAllocator
  | 0 => (none, a)
  | left + 1 =>
    let w := (wordStart + (kBitmapWords - (left + 1))) % kBitmapWords
    if ~~~a.bitmap w = 0#64 then a.allocLoop wordStart left
    else
      match lowestBit (~~~a.bitmap w) with
      | none => (none, a)
      | some bit =>
        if kMaxPid ≤ w * 64 + bit then a.allocLoop wordStart left
        else
          (some (w * 64 + bit),
            { bitmap := Function.update a.bitmap w (a.bitmap w ||| 1#64 <<< bit)
              nextHint := if kMaxPid ≤ w * 64 + bit + 1 then 2 else w * 64 + bit + 1 })

/-- `alloc`: `none` stands for -1. -/
def alloc (a : PidAllocator) : Option ℕ × PidAllocator :=
  a.allocLoop (a.nextHint / 64) kBitmapWords

/-- `free` -/
def free (a : PidAllocator) (pid : ℤ) : PidAllocator :=
  if pid < 0 ∨ kMaxPid ≤ pid then a
  else
    let w := pid.toNat / 64
    { a with bitmap := Function.update a.bitmap w (a.bitmap w &&& ~~~(1#64 <<< (pid.toNat % 64))) }

/-- The bit of an identifier is set. -/
def Used (a : PidAllocator) (pid : ℕ) : Prop := (a.bitmap (pid / 64)).getLsbD (pid % 64) = true

end PidAllocator

/-! ## The bits of a word -/

section Words

variable {v : BitVec 64} {bit : ℕ}

theorem and_one_eq_zero : v &&& 1#64 = 0#64 ↔ v.getLsbD 0 = false := by
  constructor
  · intro h
    have h0 := congrArg (·.getLsbD 0) h
    simpa using h0
  · intro h
    ext i hi
    rcases Nat.eq_zero_or_pos i with rfl | hpos
    · simpa using h
    · simp [BitVec.getElem_one, hpos.ne']

theorem lowestBit_loop (v : BitVec 64) (k bit : ℕ) (hk : k < 64) (hset : v.getLsbD k = true)
    (hlow : ∀ i < k, v.getLsbD i = false) {fuel : ℕ} (hfuel : k < fuel) :
    loop lowestBitBody fuel (v, bit) = some (bit + k) := by
  induction k generalizing v bit fuel with
  | zero =>
    obtain ⟨fuel, rfl⟩ := Nat.exists_eq_add_one_of_ne_zero hfuel.ne'
    have hodd : ¬ v &&& 1#64 = 0#64 := fun h => by
      rw [and_one_eq_zero.mp h] at hset
      cases hset
    rw [loop, lowestBitBody, if_neg hodd]
    rfl
  | succ k ih =>
    obtain ⟨fuel, rfl⟩ := Nat.exists_eq_add_one_of_ne_zero (Nat.ne_zero_of_lt hfuel)
    have heven : v &&& 1#64 = 0#64 := and_one_eq_zero.mpr (hlow 0 (Nat.succ_pos k))
    have hset' : (v >>> 1).getLsbD k = true := by
      rw [BitVec.getLsbD_ushiftRight, Nat.add_comm]
      exact hset
    have hlow' : ∀ i < k, (v >>> 1).getLsbD i = false := by
      intro i hi
      rw [BitVec.getLsbD_ushiftRight, Nat.add_comm]
      exact hlow (i + 1) (Nat.succ_lt_succ hi)
    rw [loop, lowestBitBody, if_pos heven]
    exact (ih (v >>> 1) (bit + 1) (Nat.lt_of_succ_lt hk) hset' hlow'
      (Nat.lt_of_succ_lt_succ hfuel)).trans (by congr 1; omega)

/-- **The loop over the bits finds one that is set**, if there is one. -/
theorem lowestBit_spec (h : v ≠ 0#64) :
    ∃ bit, lowestBit v = some bit ∧ bit < 64 ∧ v.getLsbD bit = true := by
  have hex : ∃ i, v.getLsbD i = true := by
    by_contra hnone
    refine h (BitVec.eq_of_getLsbD_eq fun i hi => ?_)
    simpa using fun hi => hnone ⟨i, hi⟩
  have hset := Nat.find_spec hex
  have hlt : Nat.find hex < 64 := BitVec.lt_of_getLsbD hset
  have hlow : ∀ i < Nat.find hex, v.getLsbD i = false := fun i hi =>
    Bool.eq_false_iff.mpr (Nat.find_min hex hi)
  exact ⟨Nat.find hex, (lowestBit_loop v _ 0 hlt hset hlow hlt).trans (by rw [Nat.zero_add]), hlt, hset⟩

end Words

namespace PidAllocator

variable {a : PidAllocator} {w pid pid' : ℕ}

theorem used_word {bit : ℕ} (hbit : bit < 64) :
    a.Used (w * 64 + bit) ↔ (a.bitmap w).getLsbD bit = true := by
  rw [Used, show (w * 64 + bit) / 64 = w by omega, show (w * 64 + bit) % 64 = bit by omega]

theorem used_set {bit hint : ℕ} (hbit : bit < 64) :
    (PidAllocator.mk (Function.update a.bitmap w (a.bitmap w ||| 1#64 <<< bit)) hint).Used pid ↔
      a.Used pid ∨ pid = w * 64 + bit := by
  have hmod : pid % 64 < 64 := Nat.mod_lt _ (by decide)
  unfold Used
  dsimp only
  rcases eq_or_ne (pid / 64) w with rfl | hne
  · rw [Function.update_self, BitVec.getLsbD_or, Bool.or_eq_true]
    refine or_congr_right ?_
    rw [BitVec.getLsbD_shiftLeft, BitVec.getLsbD_one]
    simp only [Bool.and_eq_true, decide_eq_true_eq, Bool.not_eq_true', decide_eq_false_iff_not]
    omega
  · rw [Function.update_of_ne hne]
    exact ⟨.inl, fun h => h.elim id fun h => absurd (by omega) hne⟩

theorem used_free (hpid : pid < kMaxPid) : (a.free pid).Used pid' ↔ a.Used pid' ∧ pid' ≠ pid := by
  have hmod : pid' % 64 < 64 := Nat.mod_lt _ (by decide)
  have hcond : ¬ ((pid : ℤ) < 0 ∨ (kMaxPid : ℤ) ≤ pid) := by omega
  unfold Used
  rw [free, if_neg hcond, Int.toNat_natCast]
  dsimp only
  rcases eq_or_ne (pid' / 64) (pid / 64) with heq | hne
  · rw [heq, Function.update_self, BitVec.getLsbD_and, Bool.and_eq_true]
    refine and_congr_right fun _ => ?_
    rw [BitVec.getLsbD_not, BitVec.getLsbD_shiftLeft, BitVec.getLsbD_one]
    simp only [Bool.and_eq_true, decide_eq_true_eq, Bool.not_eq_true', decide_eq_false_iff_not,
      Bool.and_eq_false_iff, Bool.not_eq_false']
    omega
  · rw [Function.update_of_ne hne]
    exact ⟨fun h => ⟨h, fun h => hne (by rw [h])⟩, And.left⟩

theorem allocLoop_spec (a : PidAllocator) (start left : ℕ) (hleft : left ≤ kBitmapWords) :
    (∃ pid hint, pid < kMaxPid ∧ ¬ a.Used pid ∧ (a.allocLoop start left).1 = some pid ∧
      (∀ pid', (a.allocLoop start left).2.Used pid' ↔ a.Used pid' ∨ pid' = pid) ∧
      (a.allocLoop start left).2.nextHint = hint) ∨ (a.allocLoop start left = (none, a) ∧
      ∀ k, kBitmapWords - left ≤ k → k < kBitmapWords →
        ∀ bit < 64, a.Used ((start + k) % kBitmapWords * 64 + bit)) := by
  induction left with
  | zero => exact .inr ⟨rfl, fun k hk hlt => by omega⟩
  | succ left ih =>
    have hword : (start + (kBitmapWords - (left + 1))) % kBitmapWords < kBitmapWords :=
      Nat.mod_lt _ (by decide)
    rw [allocLoop]
    by_cases hfull : ~~~a.bitmap ((start + (kBitmapWords - (left + 1))) % kBitmapWords) = 0#64
    · rw [if_pos hfull]
      refine (ih (by omega)).imp_right fun ⟨hnone, hrest⟩ => ⟨hnone, fun k hk hlt bit hbit => ?_⟩
      rcases eq_or_ne k (kBitmapWords - (left + 1)) with rfl | hne
      · rw [used_word hbit]
        have hb := congrArg (·.getLsbD bit) hfull
        simpa [hbit] using hb
      · exact hrest k (by omega) hlt bit hbit
    · obtain ⟨bit, hbit, hlt, hset⟩ := lowestBit_spec hfull
      rw [if_neg hfull, hbit]
      dsimp only
      have hmax : ¬ kMaxPid ≤ (start + (kBitmapWords - (left + 1))) % kBitmapWords * 64 + bit := by
        have hwords : kBitmapWords * 64 = kMaxPid := by decide
        omega
      rw [if_neg hmax]
      refine .inl ⟨_, _, Nat.not_le.mp hmax, ?_, rfl, fun pid' => used_set hlt, rfl⟩
      rw [used_word hlt]
      simpa [hlt] using hset

theorem add_mod_round {s w n : ℕ} (hw : w < n) : (s + (w + n - s % n) % n) % n = w := by
  have hs := Nat.mod_lt s (Nat.zero_lt_of_lt hw)
  have hdiv := Nat.div_add_mod s n
  have hsum : s + (w + n - s % n) = w + n * (s / n + 1) := by
    rw [Nat.mul_add, Nat.mul_one]
    omega
  rw [Nat.add_mod_mod, hsum, Nat.add_mul_mod_self_left, Nat.mod_eq_of_lt hw]

/-- **`alloc` gives an identifier that was free**, and marks it, or there is none. -/
theorem alloc_spec (a : PidAllocator) :
    (∃ pid a', pid < kMaxPid ∧ ¬ a.Used pid ∧ a.alloc = (some pid, a') ∧
      ∀ pid', a'.Used pid' ↔ a.Used pid' ∨ pid' = pid) ∨
    (a.alloc = (none, a) ∧ ∀ pid < kMaxPid, a.Used pid) := by
  obtain ⟨pid, hint, hlt, hfree, hsome, hused, -⟩ | ⟨hnone, hfull⟩ :=
    a.allocLoop_spec (a.nextHint / 64) kBitmapWords (Nat.le_refl _)
  · exact .inl ⟨pid, _, hlt, hfree, Prod.ext hsome rfl, hused⟩
  · refine .inr ⟨hnone, fun pid hpid => ?_⟩
    have hword : pid / 64 < kBitmapWords := Nat.div_lt_div_of_lt_of_dvd (by decide) hpid
    have hk := hfull ((pid / 64 + kBitmapWords - a.nextHint / 64 % kBitmapWords) % kBitmapWords)
      (by omega) (Nat.mod_lt _ (by omega)) (pid % 64) (Nat.mod_lt _ (by decide))
    rwa [add_mod_round hword, Nat.div_add_mod'] at hk

theorem used_init {pid : ℕ} : init.Used pid ↔ pid < 2 := by
  rw [Used, init]
  dsimp only
  split
  · have hbits : ∀ k < 64, (0x3#64).getLsbD k = true ↔ k < 2 := by decide
    rw [hbits _ (Nat.mod_lt _ (by decide))]
    omega
  · rw [BitVec.getLsbD_zero]
    simp only [Bool.false_eq_true, false_iff]
    omega

end PidAllocator

/-! ## Runs -/

inductive PidCall
  | alloc
  | free (pid : ℕ)

/-- An allocator, and the identifiers that are given out. -/
structure PidSystem where
  pids : PidAllocator
  live : Finset ℕ

namespace PidSystem

/-- After `init`. -/
def init : PidSystem := ⟨.init, ∅⟩

/-- What a call does. -/
def exec (x : PidSystem) : PidCall → PidSystem
  | .alloc =>
    match x.pids.alloc with
    | (some pid, a) => ⟨a, insert pid x.live⟩
    | (none, a) => ⟨a, x.live⟩
  | .free pid => ⟨x.pids.free pid, x.live.erase pid⟩

/-- A call is made; only identifiers that are given out are freed. -/
def Step (x : PidSystem) (call : PidCall) (y : PidSystem) : Prop :=
  (∀ pid, call = .free pid → pid ∈ x.live) ∧ y = x.exec call

/-- The bits that are set. -/
structure Valid (x : PidSystem) : Prop where
  used : ∀ pid < kMaxPid, x.pids.Used pid ↔ pid < 2 ∨ pid ∈ x.live
  range : ∀ pid ∈ x.live, 2 ≤ pid ∧ pid < kMaxPid

variable {x y : PidSystem} {call : PidCall} {pid : ℕ}

theorem valid_init : init.Valid :=
  ⟨fun pid _ => by simp [init, PidAllocator.used_init], fun _ h => absurd h (by simp [init])⟩

namespace Valid

theorem alloc_cases (h : x.Valid) :
    (∃ pid, 2 ≤ pid ∧ pid < kMaxPid ∧ pid ∉ x.live ∧ x.pids.alloc.1 = some pid ∧
      (x.exec .alloc).live = insert pid x.live ∧ (x.exec .alloc).Valid) ∨
    (x.pids.alloc.1 = none ∧ x.exec .alloc = x ∧ ∀ pid, 2 ≤ pid → pid < kMaxPid → pid ∈ x.live) := by
  obtain ⟨pid, a, hlt, hfree, hcall, hused⟩ | ⟨hcall, hfull⟩ := x.pids.alloc_spec
  · rw [h.used pid hlt, not_or, Nat.not_lt] at hfree
    have hexec : x.exec .alloc = ⟨a, insert pid x.live⟩ := by rw [exec, hcall]
    refine .inl ⟨pid, hfree.1, hlt, hfree.2, by rw [hcall], by rw [hexec], ?_⟩
    rw [hexec]
    refine ⟨fun pid' hpid' => ?_, fun pid' hpid' => ?_⟩
    · dsimp only
      rw [hused, h.used pid' hpid', Finset.mem_insert, or_assoc, or_comm (a := pid' ∈ x.live)]
    · obtain rfl | hmem := Finset.mem_insert.mp hpid'
      · exact ⟨hfree.1, hlt⟩
      · exact h.range pid' hmem
  · refine .inr ⟨by rw [hcall], by rw [exec, hcall], fun pid hlow hlt => ?_⟩
    exact ((h.used pid hlt).mp (hfull pid hlt)).resolve_left (Nat.not_lt.mpr hlow)

theorem free (h : x.Valid) (hpid : pid ∈ x.live) : (x.exec (.free pid)).Valid := by
  obtain ⟨hlow, hlt⟩ := h.range pid hpid
  refine ⟨fun pid' hpid' => ?_, fun pid' hpid' => h.range pid' (Finset.mem_of_mem_erase hpid')⟩
  rw [exec, PidAllocator.used_free hlt, h.used pid' hpid', Finset.mem_erase]
  have : pid' < 2 → pid' ≠ pid := by omega
  tauto

theorem step (h : x.Valid) (hstep : Step x call y) : y.Valid := by
  obtain ⟨hfree, rfl⟩ := hstep
  cases call with
  | alloc =>
    obtain ⟨_, -, -, -, -, -, hvalid⟩ | ⟨-, hsame, -⟩ := h.alloc_cases
    · exact hvalid
    · rw [hsame]
      exact h
  | free pid => exact h.free (hfree pid rfl)

theorem exists_allocs (h : x.Valid) (hlow : 2 ≤ pid) (hlt : pid < kMaxPid) :
    ∃ n y, Run Step x (List.replicate n .alloc) y ∧ pid ∈ y.live := by
  -- every call takes one of the identifiers that are free
  induction hn : (Finset.Ico 2 kMaxPid \ x.live).card using Nat.strongRecOn generalizing x with
  | _ n ih =>
    subst hn
    by_cases hmem : pid ∈ x.live
    · exact ⟨0, x, .nil x, hmem⟩
    · obtain ⟨q, hq, hqlt, hqfree, -, hlive, hvalid⟩ | ⟨-, -, hfull⟩ := h.alloc_cases
      · have hlt' : (Finset.Ico 2 kMaxPid \ (x.exec .alloc).live).card <
            (Finset.Ico 2 kMaxPid \ x.live).card := by
          refine Finset.card_lt_card (Finset.ssubset_iff_of_subset ?_ |>.mpr ⟨q, ?_, ?_⟩)
          · rw [hlive]
            exact Finset.sdiff_subset_sdiff (Finset.Subset.refl _) (Finset.subset_insert q _)
          · exact Finset.mem_sdiff.mpr ⟨Finset.mem_Ico.mpr ⟨hq, hqlt⟩, hqfree⟩
          · rw [hlive, Finset.mem_sdiff, not_and_not_right]
            exact fun _ => Finset.mem_insert_self q _
        obtain ⟨n, y, hrun, hy⟩ := ih _ hlt' hvalid rfl
        refine ⟨n + 1, y, ?_, hy⟩
        rw [List.replicate_succ]
        have hfirst : Step x .alloc (x.exec .alloc) := ⟨fun _ he => (nomatch he), rfl⟩
        exact hrun.cons hfirst
      · exact absurd (hfull pid hlow hlt) hmem

end Valid

end PidSystem

/-- **Identifiers are unique and never lost.** In every run, `alloc` gives an identifier between 2
and `kMaxPid` that is not given out, it fails if and only if all of them are, and one that is freed
can be given out again. -/
theorem pid_unique_never_lost (calls : List PidCall) (x : PidSystem)
    (h : Run PidSystem.Step .init calls x) :
    (∀ pid, x.pids.alloc.1 = some pid → 2 ≤ pid ∧ pid < kMaxPid ∧ pid ∉ x.live) ∧
    (x.pids.alloc.1 = none ↔ ∀ pid, 2 ≤ pid → pid < kMaxPid → pid ∈ x.live) ∧
    ∀ pid ∈ x.live, pid ∉ (x.exec (.free pid)).live ∧
      ∃ n y, Run PidSystem.Step (x.exec (.free pid)) (List.replicate n .alloc) y ∧
        pid ∈ y.live := by
  have hvalid : x.Valid := h.invariant PidSystem.Valid.step PidSystem.valid_init
  refine ⟨fun pid hpid => ?_, ⟨fun hnone => ?_, fun hfull => ?_⟩, fun pid hpid => ⟨?_, ?_⟩⟩
  · obtain ⟨q, hlow, hlt, hfree, hcall, -⟩ | ⟨hcall, -⟩ := hvalid.alloc_cases
    · cases hcall.symm.trans hpid
      exact ⟨hlow, hlt, hfree⟩
    · cases hcall.symm.trans hpid
  · obtain ⟨q, -, -, -, hcall, -⟩ | ⟨-, -, hfull⟩ := hvalid.alloc_cases
    · cases hcall.symm.trans hnone
    · exact hfull
  · obtain ⟨q, hlow, hlt, hfree, -⟩ | ⟨hcall, -⟩ := hvalid.alloc_cases
    · exact absurd (hfull q hlow hlt) hfree
    · exact hcall
  · exact Finset.notMem_erase pid x.live
  · obtain ⟨hlow, hlt⟩ := hvalid.range pid hpid
    exact (hvalid.free hpid).exists_allocs hlow hlt

/-- The first identifier that is given out is 2, and it can be given out again. -/
theorem pid_unique_never_lost_two : ∃ x, Run PidSystem.Step .init [.alloc] x ∧ 2 ∈ x.live ∧
    2 ∉ (x.exec (.free 2)).live ∧
      ∃ n y, Run PidSystem.Step (x.exec (.free 2)) (List.replicate n .alloc) y ∧ 2 ∈ y.live := by
  have hrun : Run PidSystem.Step .init [.alloc] (PidSystem.init.exec .alloc) :=
    .snoc (.nil _) ⟨fun _ he => (nomatch he), rfl⟩
  have htwo : 2 ∈ (PidSystem.init.exec .alloc).live := by decide +kernel
  exact ⟨_, hrun, htwo, (pid_unique_never_lost _ _ hrun).2.2 2 htwo⟩

end Lume
