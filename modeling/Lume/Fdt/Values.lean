import Lume.Fdt.Encoding
import Mathlib.Data.List.Infix

/-!
# Names and values of an encoding

What the string helpers of `fdt/fdt.cc`, `read_cells` and `prop_contains_string` give on the names
and values of an encoded tree.

## Main definitions

* `decodeReg`: the first address and size of a `reg`
* `propNamed`: the property of a node with a given name
* `NulTerminated`, `strings`, `stringList`: lists of strings

## Main results

* `FdtBlob.StringAt.startsWith`, `FdtBlob.StringAt.equals`: comparisons with a constant
* `CellSizes.readReg_eq`, `CellSizes.readReg_ne_none`: reading a `reg`
* `propContainsString_eq`: searching a list of strings
-/

namespace Lume

/-! ## Names -/

section Names

variable {l str pre s2 : List UInt8} {b : FdtBlob} {pos : ℕ}

theorem strStartsWith_eq (hstr : 0 ∉ str) (hpre : 0 ∉ pre) (h : str ++ [0] <+: l) :
    strStartsWith l pre = some (decide (pre <+: str)) := by
  induction str generalizing l pre with
  | nil =>
    obtain ⟨tail, rfl⟩ := h
    cases pre with
    | nil => rfl
    | cons p pre =>
      have hne : (0 : UInt8) ≠ p := fun he => hpre (he ▸ List.mem_cons_self ..)
      simp [strStartsWith, hne]
  | cons c str ih =>
    obtain ⟨tail, rfl⟩ := h
    cases pre with
    | nil => simp [strStartsWith]
    | cons p pre =>
      rw [List.cons_append, List.cons_append, strStartsWith]
      rw [List.mem_cons, not_or] at hstr hpre
      have ih' := ih hstr.2 hpre.2 ⟨tail, rfl⟩
      by_cases hc : c = p
      · subst hc
        rw [if_pos rfl, ih']
        simp [List.cons_prefix_cons]
      · rw [if_neg hc]
        simp [List.cons_prefix_cons, Ne.symm hc]

theorem strEquals_eq (hstr : 0 ∉ str) (hs2 : 0 ∉ s2) (h : str ++ [0] <+: l) :
    strEquals l s2 = some (decide (str = s2)) := by
  induction str generalizing l s2 with
  | nil =>
    obtain ⟨tail, rfl⟩ := h
    cases s2 with
    | nil => rfl
    | cons d s2 =>
      have hne : (0 : UInt8) ≠ d := fun he => hs2 (he ▸ List.mem_cons_self ..)
      simp [strEquals, hne]
  | cons c str ih =>
    obtain ⟨tail, rfl⟩ := h
    rw [List.mem_cons, not_or] at hstr
    cases s2 with
    | nil => simp [strEquals, Ne.symm hstr.1]
    | cons d s2 =>
      rw [List.cons_append, List.cons_append, strEquals]
      rw [List.mem_cons, not_or] at hs2
      have ih' := ih hstr.2 hs2.2 ⟨tail, rfl⟩
      by_cases hc : c = d
      · subst hc
        rw [if_pos ⟨Ne.symm hstr.1, rfl⟩, ih']
        simp
      · rw [if_neg fun h => hc h.2]
        simp [hc]

theorem FdtBlob.StringAt.startsWith (h : b.StringAt pos str) (hpre : 0 ∉ pre) :
    strStartsWith (b.text pos) pre = some (decide (pre <+: str)) :=
  strStartsWith_eq h.noNul hpre h.here

theorem FdtBlob.StringAt.equals (h : b.StringAt pos str) (hs2 : 0 ∉ s2) :
    strEquals (b.text pos) s2 = some (decide (str = s2)) :=
  strEquals_eq h.noNul hs2 h.here

end Names

/-! ## Numbers -/

section Numbers

variable {b : FdtBlob} {value : List UInt8} {pos n cells : ℕ}

theorem take_of_prefix {l : List UInt8} (h : value <+: l) (hn : n ≤ value.length) :
    l.take n = value.take n := by
  obtain ⟨tail, rfl⟩ := h
  exact List.take_append_of_le_length hn

theorem FdtBlob.be32_ne_none (h : pos + 4 ≤ b.length) : b.be32 pos ≠ none := by
  rw [be32, if_pos h]
  exact Option.some_ne_none _

theorem FdtBlob.be32_value (h : value <+: b.drop pos) (hlen : 4 ≤ value.length) :
    b.be32 pos = some (ofBe (value.take 4)) := by
  have hle := h.length_le
  rw [List.length_drop] at hle
  rw [be32, if_pos (by omega), take_of_prefix h hlen]

theorem prefix_drop_add {value : List UInt8} (h : value <+: b.drop pos) (n : ℕ) :
    value.drop n <+: b.drop (pos + n) := by
  rw [← List.drop_drop]
  exact h.drop n

theorem FdtBlob.readCells_value (hcells : cells = 1 ∨ cells = 2) (h : value <+: b.drop pos)
    (hlen : 4 * cells ≤ value.length) :
    b.readCells pos cells = some (ofBe (value.take (4 * cells))) := by
  rcases hcells with rfl | rfl
  · rw [readCells, if_neg (by decide)]
    exact be32_value h hlen
  · have hlow := be32_value (prefix_drop_add h 4) (by rw [List.length_drop]; omega)
    rw [readCells, if_pos rfl, be32_value h (by omega), hlow]
    have hsplit : value.take (4 * 2) = value.take 4 ++ (value.drop 4).take 4 := List.take_add
    rw [hsplit, ofBe_append, List.length_take_of_le (by rw [List.length_drop]; omega)]
    rfl

theorem FdtBlob.readCells_ne_none (b : FdtBlob) (pos cells : ℕ) (h : pos + 4 ≤ b.length)
    (h2 : cells = 2 → pos + 8 ≤ b.length) : b.readCells pos cells ≠ none := by
  rw [readCells]
  obtain ⟨high, hhigh⟩ := Option.ne_none_iff_exists'.mp (be32_ne_none h)
  split
  · rename_i hcells
    have hpos : pos + 4 + 4 ≤ b.length := h2 hcells
    obtain ⟨low, hlow⟩ := Option.ne_none_iff_exists'.mp (be32_ne_none hpos)
    rw [hhigh, hlow]
    exact Option.some_ne_none _
  · exact be32_ne_none h

/-- The first address and the first size of a `reg`, with the given numbers of cells. -/
def decodeReg (cells : ℕ × ℕ) (value : List UInt8) : ℕ × ℕ :=
  (ofBe (value.take (4 * cells.1)), ofBe ((value.drop (4 * cells.1)).take (4 * cells.2)))

namespace CellSizes

variable {c : CellSizes} {val : ℕ} {depth : ℤ} {sizes : ℕ × ℕ}

/-- The cell sizes in force at a depth. -/
def atDepth (c : CellSizes) (i : ℕ) : ℕ × ℕ := (c.addressCells i, c.sizeCells i)

theorem atDepth_setAddressCells (c : CellSizes) (d : ℤ) (n j : ℕ) :
    (c.setAddressCells d n).atDepth j =
      if j = d.toNat then (n, (c.atDepth j).2) else c.atDepth j := by
  simp only [setAddressCells, atDepth, Function.update_apply]
  split <;> rfl

theorem atDepth_setSizeCells (c : CellSizes) (d : ℤ) (n j : ℕ) : (c.setSizeCells d n).atDepth j =
      if j = d.toNat then ((c.atDepth j).1, n) else c.atDepth j := by
  simp only [setSizeCells, atDepth, Function.update_apply]
  split <;> rfl

theorem atDepth_inherit (c : CellSizes) (d : ℤ) (j : ℕ) : (c.inherit d).atDepth j =
    if 0 < d ∧ d < 16 ∧ j = d.toNat then c.atDepth (d.toNat - 1) else c.atDepth j := by
  rw [inherit]
  by_cases hd : 0 < d ∧ d < 16
  · rw [if_pos hd]
    simp only [atDepth, Function.update_apply]
    by_cases hj : j = d.toNat
    · rw [if_pos hj, if_pos hj, if_pos ⟨hd.1, hd.2, hj⟩]
    · rw [if_neg hj, if_neg hj, if_neg fun h => hj h.2.2]
  · rw [if_neg hd, if_neg fun h => hd ⟨h.1, h.2.1⟩]

theorem readReg_eq (hsizes : c.atDepth (depth - 1).toNat = sizes) (h1 : sizes.1 = 1 ∨ sizes.1 = 2)
    (h2 : sizes.2 = 1 ∨ sizes.2 = 2) (h : value <+: b.drop val)
    (hlen : 4 * (sizes.1 + sizes.2) ≤ value.length) :
    c.readReg b val depth = some (decodeReg sizes value) := by
  subst hsizes
  dsimp only [atDepth] at h1 h2 hlen
  have hmod : c.addressCells (depth - 1).toNat * 4 % 2 ^ 32 =
      4 * c.addressCells (depth - 1).toNat := by
    rw [Nat.mul_comm]
    exact Nat.mod_eq_of_lt (by omega)
  have hbase := FdtBlob.readCells_value h1 h (by omega)
  have hsize := FdtBlob.readCells_value h2
    (prefix_drop_add h (4 * c.addressCells (depth - 1).toNat)) (by rw [List.length_drop]; omega)
  rw [readReg, hmod, hbase, hsize]
  rfl

theorem readReg_ne_none (hsizes : c.atDepth (depth - 1).toNat = sizes) (hin : val + value.length + 4 ≤ b.length)
    (hlt : value.length < 2 ^ 32) (hlen : 4 * (sizes.1 + sizes.2) ≤ value.length) :
    c.readReg b val depth ≠ none := by
  subst hsizes
  dsimp only [atDepth] at hlen
  have hmod : c.addressCells (depth - 1).toNat * 4 % 2 ^ 32 =
      4 * c.addressCells (depth - 1).toNat := by
    rw [Nat.mul_comm]
    exact Nat.mod_eq_of_lt (by omega)
  obtain ⟨base, hbase⟩ := Option.ne_none_iff_exists'.mp
    (b.readCells_ne_none val (c.addressCells (depth - 1).toNat) (by omega) (by omega))
  obtain ⟨size, hsize⟩ := Option.ne_none_iff_exists'.mp
    (b.readCells_ne_none (val + 4 * c.addressCells (depth - 1).toNat)
      (c.sizeCells (depth - 1).toNat) (by omega) (by omega))
  rw [readReg, hmod, hbase, hsize]
  exact Option.some_ne_none _

end CellSizes

end Numbers

/-! ## Properties -/

/-- The property of a node with a given name. -/
def propNamed (props : List DtProp) (name : String) : Option DtProp :=
  props.find? fun p => p.name = ascii name

/-- The number in a property of 32 bits. -/
def cellProp (props : List DtProp) (name : String) (default : ℕ) : ℕ :=
  (propNamed props name).elim default fun p => ofBe (p.value.take 4)

/-- No two properties of a node have the same name. -/
def UniqueNames (props : List DtProp) : Prop := (props.map DtProp.name).Nodup

/-! ## Lists of strings -/

/-- Every string of the list ends with a NUL. -/
def NulTerminated (value : List UInt8) : Prop := ∀ c ∈ value.getLast?, c = 0

/-- The strings of the list, and what follows the last NUL. -/
def strings (value : List UInt8) : List (List UInt8) := value.splitOn 0

/-- The strings of the list. -/
def stringList (value : List UInt8) : List (List UInt8) := (strings value).dropLast

section Strings

variable {str rest value target l : List UInt8} {n : ℕ}

theorem skipString_eq (hstr : 0 ∉ str) (h : str ++ [0] <+: l) (hn : str.length < n) :
    skipString l n = some str.length := by
  induction str generalizing l n with
  | nil =>
    obtain ⟨tail, rfl⟩ := h
    cases n with
    | zero => cases hn
    | succ n => simp [skipString]
  | cons c str ih =>
    obtain ⟨tail, rfl⟩ := h
    rw [List.mem_cons, not_or] at hstr
    cases n with
    | zero => cases hn
    | succ n =>
      rw [List.cons_append, List.cons_append, skipString, if_neg (Ne.symm hstr.1),
        ih hstr.2 ⟨tail, rfl⟩ (Nat.lt_of_succ_lt_succ hn)]
      rfl

theorem NulTerminated.first (h : NulTerminated value) (hne : value ≠ []) :
    ∃ str rest, value = str ++ 0 :: rest ∧ 0 ∉ str ∧ NulTerminated rest := by
  have hmem : (0 : UInt8) ∈ value := by
    have hlast := h _ (List.getLast?_eq_getLast_of_ne_nil hne)
    rw [← hlast]
    exact List.getLast_mem hne
  obtain ⟨str, rest, rfl, hstr⟩ := List.eq_append_cons_of_mem hmem
  refine ⟨str, rest, rfl, hstr, fun c hc => h c ?_⟩
  rw [Option.mem_def] at hc ⊢
  rw [List.getLast?_append, List.getLast?_cons, hc]
  rfl

theorem strings_append (hstr : 0 ∉ str) (rest : List UInt8) :
    strings (str ++ 0 :: rest) = str :: strings rest :=
  List.splitOn_append_cons_self_of_not_mem hstr rest

theorem stringList_append (hstr : 0 ∉ str) (rest : List UInt8) :
    stringList (str ++ 0 :: rest) = str :: stringList rest := by
  rw [stringList, strings_append hstr]
  exact List.dropLast_cons_of_ne_nil (List.splitOn_ne_nil 0 rest)

theorem NulTerminated.strings_eq (h : NulTerminated value) :
    strings value = stringList value ++ [[]] := by
  induction hlen : value.length using Nat.strong_induction_on generalizing value with
  | _ n ih =>
    by_cases hne : value = []
    · rw [hne]
      rfl
    · obtain ⟨str, rest, rfl, hstr, hrest⟩ := h.first hne
      rw [List.length_append, List.length_cons] at hlen
      rw [strings_append hstr, stringList_append hstr, ih rest.length (by omega) hrest rfl]
      rfl

theorem NulTerminated.mem_strings (h : NulTerminated value) (hne : target ≠ []) :
    target ∈ strings value ↔ target ∈ stringList value := by
  rw [h.strings_eq, List.mem_append, List.mem_singleton]
  exact or_iff_left hne

theorem containsLoop_eq (hval : value <+: l) (hlt : value.length < 2 ^ 32)
    (htarget : 0 ∉ target) (fuel i : ℕ) (hfuel : value.length < i + fuel)
    (hi : i ≤ value.length) (hnul : NulTerminated (value.drop i)) :
    containsLoop l value.length target fuel i =
      some (decide (target ∈ stringList (value.drop i))) := by
  induction fuel generalizing i with
  | zero => omega
  | succ fuel ih =>
    rw [containsLoop]
    by_cases hend : i = value.length
    · have hnil : value.drop i = [] := List.drop_eq_nil_of_le hend.ge
      rw [if_neg (by omega), hnil]
      rfl
    · have hpos : value.drop i ≠ [] := by
        rw [Ne, List.drop_eq_nil_iff]
        omega
      obtain ⟨str, rest, hdrop, hstr, hrest⟩ := hnul.first hpos
      have hlen : value.length - i = str.length + 1 + rest.length := by
        rw [← List.length_drop, hdrop, List.length_append, List.length_cons]
        omega
      have hhere : str ++ [0] <+: l.drop i := by
        refine List.IsPrefix.trans ?_ (hval.drop i)
        rw [hdrop]
        exact (List.prefix_append_right_inj str).mpr ⟨rest, rfl⟩
      have hnext : value.drop (i + str.length + 1) = rest := by
        rw [Nat.add_assoc, ← List.drop_drop, hdrop, ← List.drop_drop, List.drop_left]
        rfl
      rw [if_pos (by omega), strEquals_eq hstr htarget hhere, skipString_eq hstr hhere (by omega),
        hdrop, stringList_append hstr]
      have hmod : (i + str.length + 1) % 2 ^ 32 = i + str.length + 1 := Nat.mod_eq_of_lt (by omega)
      simp only [Option.bind_eq_bind, Option.bind_some, hmod]
      by_cases heq : str = target
      · simp [heq]
      · have hrec := ih (i + str.length + 1) (by omega) (by omega) (by rw [hnext]; exact hrest)
        rw [hnext] at hrec
        rw [hrec]
        simp [heq, Ne.symm heq]

theorem propContainsString_eq (hval : value <+: l) (hlt : value.length < 2 ^ 32)
    (hnul : NulTerminated value) (htarget : 0 ∉ target) :
    propContainsString l value.length target = some (decide (target ∈ stringList value)) :=
  containsLoop_eq hval hlt htarget _ 0 (by omega) (Nat.zero_le _) hnul

end Strings

end Lume
