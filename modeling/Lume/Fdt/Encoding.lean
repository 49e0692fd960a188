import Lume.Fdt.Totality

/-!
# Encodings of device trees

A device tree and what it is for a blob to be an encoding of it: the structure block has the
tokens of the tree, with `FDT_NOP`s anywhere between them, and the names of properties are anywhere
in the blob. The tokens that a walk finds in the blob are then those of the tree.

## Main definitions

* `DeviceTree`: nodes with a name, properties and children
* `Lexeme`, `DeviceTree.lexemes`: the tokens of a tree, with what they say
* `FdtBlob.Encodes`: the blob is an encoding of a tree
* `DeviceTree.flatten`: one encoding of a tree

## Main results

* `Lexeme.readToken`: a token of an encoding is read
* `FdtBlob.Encodes.tokens`: the tokens that a walk finds in an encoding
* `DeviceTree.flatten_encodes`: flattening gives an encoding
-/

namespace Lume

/-! ## Device trees -/

/-- A property of a node. -/
structure DtProp where
  name : List UInt8
  value : List UInt8

/-- A device tree. -/
inductive DeviceTree
  | node (name : List UInt8) (props : List DtProp) (children : List DeviceTree)

/-- The tokens of the structure block, apart from the last one, with what they say. -/
inductive Lexeme
  | beginNode (name : List UInt8)
  | prop (p : DtProp)
  | endNode
  | nop

/-- Whether a token is `FDT_NOP`. -/
def Lexeme.isNop : Lexeme → Bool
  | .nop => true
  | _ => false

namespace DeviceTree

theorem induct {P : DeviceTree → Prop}
    (node : ∀ name props children, (∀ t ∈ children, P t) → P (.node name props children))
    (t : DeviceTree) : P t :=
  @DeviceTree.rec P (fun ts => ∀ t ∈ ts, P t) node
    (fun _ h => absurd h List.not_mem_nil)
    (fun _ _ ht hts _ h => (List.mem_cons.mp h).elim (fun e => e ▸ ht) (hts _)) t

mutual

/-- The tokens of a tree: a node has its properties first, and then its children. -/
def lexemes : DeviceTree → List Lexeme
  | .node name props children =>
    .beginNode name :: (props.map .prop ++ (forestLexemes children ++ [.endNode]))

/-- The tokens of the children of a node. -/
def forestLexemes : List DeviceTree → List Lexeme
  | [] => []
  | t :: ts => t.lexemes ++ forestLexemes ts

end

mutual

/-- The number of levels of a tree. -/
def levels : DeviceTree → ℕ
  | .node _ _ children => forestLevels children + 1

/-- The number of levels of the children of a node. -/
def forestLevels : List DeviceTree → ℕ
  | [] => 0
  | t :: ts => max t.levels (forestLevels ts)

end

end DeviceTree

/-! ## Encodings -/

/-- There is a string at a position of the blob. -/
structure FdtBlob.StringAt (b : FdtBlob) (pos : ℕ) (str : List UInt8) : Prop where
  noNul : 0 ∉ str
  here : str ++ [0] <+: b.drop pos

/-- The bytes of a token. Names and values are padded to a multiple of four bytes, and the name of
a property is anywhere in the blob. -/
def Lexeme.Bytes (b : FdtBlob) (dtStrings : ℕ) : Lexeme → List UInt8 → Prop
  | .beginNode name, bytes => 0 ∉ name ∧ ∃ pad, pad.length < 4 ∧ 4 ∣ bytes.length ∧
      bytes = toBe 4 1 ++ (name ++ 0 :: pad)
  | .prop p, bytes => ∃ nameoff pad, nameoff < 2 ^ 32 ∧ p.value.length < 2 ^ 32 ∧
      b.StringAt (dtStrings + nameoff) p.name ∧ pad.length < 4 ∧ 4 ∣ bytes.length ∧
      bytes = toBe 4 3 ++ (toBe 4 p.value.length ++ (toBe 4 nameoff ++ (p.value ++ pad)))
  | .endNode, bytes => bytes = toBe 4 2
  | .nop, bytes => bytes = toBe 4 4

/-- **The blob is an encoding of a tree**. -/
structure FdtBlob.Encodes (b : FdtBlob) (t : DeviceTree) : Prop where
  valid : b.Valid
  layout : ∃ dtStruct dtStrings lexs bytes, b.be32 8 = some dtStruct ∧ b.be32 12 = some dtStrings ∧
    (lexs.filter fun l => !l.isNop) = t.lexemes ∧
    List.Forall₂ (Lexeme.Bytes b dtStrings) lexs bytes ∧
    bytes.flatten ++ toBe 4 9 <+: b.drop dtStruct

/-! ## Reading -/

theorem FdtBlob.be32_of_prefix {b : FdtBlob} {pos n : ℕ} (hn : n < 2 ^ 32)
    (h : toBe 4 n <+: b.drop pos) : b.be32 pos = some n := by
  have hlen := h.length_le
  rw [length_toBe, List.length_drop] at hlen
  obtain ⟨tail, htail⟩ := h
  rw [be32, if_pos (by omega), ← htail, List.take_left' (length_toBe 4 n), ofBe_toBe_of_lt hn]

theorem FdtBlob.be32_lt {b : FdtBlob} {pos n : ℕ} (h : b.be32 pos = some n) : n < 2 ^ 32 := by
  rw [be32] at h
  split at h
  · rename_i hle
    obtain rfl := Option.some.inj h
    have hlt := ofBe_lt ((b.drop pos).take 4)
    rw [List.length_take_of_le (by rw [List.length_drop]; omega)] at hlt
    exact hlt
  · cases h

theorem FdtBlob.be32_inside {b : FdtBlob} {pos n : ℕ} (h : b.be32 pos = some n) :
    pos + 4 ≤ b.length := by
  rw [be32] at h
  split at h
  · assumption
  · cases h

theorem nameLen_append {str rest : List UInt8} (h : 0 ∉ str) :
    nameLen (str ++ 0 :: rest) = some str.length := by
  induction str with
  | nil => rfl
  | cons c str ih =>
    rw [List.mem_cons, not_or] at h
    rw [List.cons_append, nameLen, if_neg (Ne.symm h.1), ih h.2]
    rfl

/-- What a token of a walk means. -/
def FdtToken.Means (b : FdtBlob) (dtStrings : ℕ) : Lexeme → FdtToken → Prop
  | .beginNode str, .beginNode name => b.StringAt name str
  | .prop p, .prop len nameoff val => b.StringAt (dtStrings + nameoff) p.name ∧
      len = p.value.length ∧ p.value <+: b.drop val
  | .endNode, .endNode => True
  | .nop, .nop => True
  | _, _ => False

/-- The end of the value of a property. -/
def FdtToken.stop : FdtToken → ℕ
  | .prop len _ val => val + len
  | _ => 0

theorem prefix_drop_of_append {b l rest : List UInt8} {pos : ℕ} (h : l ++ rest <+: b.drop pos) :
    rest <+: b.drop (pos + l.length) := by
  obtain ⟨tail, htail⟩ := h
  refine ⟨tail, ?_⟩
  rw [← List.drop_drop, ← htail, List.append_assoc, List.drop_left]

theorem align4_of_dvd {x y : ℕ} (hdvd : 4 ∣ y) (hle : x ≤ y) (hlt : y < x + 4) (hy : y + 3 < 2 ^ 32) :
    align4 x = y := by
  rw [align4]
  omega

theorem Lexeme.readToken {b : FdtBlob} {dtStruct dtStrings off : ℕ} {lex : Lexeme}
    {bytes : List UInt8} (h : lex.Bytes b dtStrings bytes) (hoff : 4 ∣ off)
    (hlt : off + bytes.length + 3 < 2 ^ 32) (hpre : bytes <+: b.drop (dtStruct + off)) :
    ∃ tok, b.TokenStep dtStruct off tok (off + bytes.length) ∧ tok.Means b dtStrings lex ∧
      tok.stop ≤ dtStruct + off + bytes.length := by
  cases lex with
  | beginNode name =>
    obtain ⟨hnul, pad, hpad, hdvd, rfl⟩ := h
    simp only [List.length_append, length_toBe, List.length_cons] at hlt hdvd ⊢
    have htok := FdtBlob.be32_of_prefix (by decide) ((List.prefix_append _ _).trans hpre)
    have hname := prefix_drop_of_append hpre
    rw [length_toBe, Nat.add_assoc] at hname
    have hlen : nameLen (b.text (dtStruct + (off + 4))) = some name.length := by
      obtain ⟨tail, htail⟩ := hname
      rw [FdtBlob.text, ← htail, List.append_assoc, List.cons_append, nameLen_append hnul]
    have hnext : align4 (off + 4 + name.length + 1) = off + (4 + (name.length + (pad.length + 1))) :=
      align4_of_dvd (Nat.dvd_add hoff hdvd) (by omega) (by omega) (by omega)
    refine ⟨.beginNode (dtStruct + (off + 4)), ?_, ⟨hnul, ?_⟩, Nat.zero_le _⟩
    · have hmod : (off + 4) % 2 ^ 32 = off + 4 := Nat.mod_eq_of_lt (by omega)
      rw [FdtBlob.TokenStep, FdtBlob.readToken, htok]
      simp only [Option.bind_eq_bind, Option.bind_some, hmod, if_pos, hlen, hnext, Option.pure_def]
    · refine List.IsPrefix.trans ?_ hname
      exact (List.prefix_append_right_inj name).mpr ⟨pad, rfl⟩
  | prop p =>
    obtain ⟨nameoff, pad, hnameoff, hlen, hstr, hpad, hdvd, rfl⟩ := h
    simp only [List.length_append, length_toBe] at hlt hdvd ⊢
    have htok := FdtBlob.be32_of_prefix (by decide) ((List.prefix_append _ _).trans hpre)
    have hpre₁ := prefix_drop_of_append hpre
    have hpre₂ := prefix_drop_of_append hpre₁
    have hpre₃ := prefix_drop_of_append hpre₂
    simp only [length_toBe, Nat.add_assoc] at hpre₁ hpre₂ hpre₃
    have hlen' := FdtBlob.be32_of_prefix hlen ((List.prefix_append _ _).trans hpre₁)
    have hname := FdtBlob.be32_of_prefix hnameoff ((List.prefix_append _ _).trans hpre₂)
    have hnext : align4 (off + 12 + p.value.length) =
        off + (4 + (4 + (4 + (p.value.length + pad.length)))) :=
      align4_of_dvd (Nat.dvd_add hoff hdvd) (by omega) (by omega) (by omega)
    have hstop : dtStruct + (off + 12) + p.value.length ≤
        dtStruct + off + (4 + (4 + (4 + (p.value.length + pad.length)))) := by omega
    refine ⟨.prop p.value.length nameoff (dtStruct + (off + 12)), ?_,
      ⟨hstr, rfl, (List.prefix_append _ _).trans hpre₃⟩, hstop⟩
    have hmod : (off + 4) % 2 ^ 32 = off + 4 := Nat.mod_eq_of_lt (by omega)
    have hmod' : (off + 4 + 8) % 2 ^ 32 = off + 12 := Nat.mod_eq_of_lt (by omega)
    have hname' : b.be32 (dtStruct + (off + 4) + 4) = some nameoff := by
      rw [Nat.add_assoc, Nat.add_assoc]
      exact hname
    rw [FdtBlob.TokenStep, FdtBlob.readToken, htok]
    simp only [Option.bind_eq_bind, Option.bind_some, hmod, hmod', hlen', hname', hnext]
    rfl
  | endNode =>
    obtain rfl : bytes = toBe 4 2 := h
    rw [length_toBe] at hlt ⊢
    refine ⟨.endNode, ?_, trivial, Nat.zero_le _⟩
    have hmod : (off + 4) % 2 ^ 32 = off + 4 := Nat.mod_eq_of_lt (by omega)
    rw [FdtBlob.TokenStep, FdtBlob.readToken, FdtBlob.be32_of_prefix (by decide) hpre]
    simp only [Option.bind_eq_bind, Option.bind_some, hmod]
    rfl
  | nop =>
    obtain rfl : bytes = toBe 4 4 := h
    rw [length_toBe] at hlt ⊢
    refine ⟨.nop, ?_, trivial, Nat.zero_le _⟩
    have hmod : (off + 4) % 2 ^ 32 = off + 4 := Nat.mod_eq_of_lt (by omega)
    rw [FdtBlob.TokenStep, FdtBlob.readToken, FdtBlob.be32_of_prefix (by decide) hpre]
    simp only [Option.bind_eq_bind, Option.bind_some, hmod]
    rfl

theorem Lexeme.Bytes.dvd {b : FdtBlob} {dtStrings : ℕ} {lex : Lexeme} {bytes : List UInt8}
    (h : lex.Bytes b dtStrings bytes) : 4 ∣ bytes.length := by
  cases lex with
  | beginNode name =>
    obtain ⟨-, -, -, hdvd, -⟩ := h
    exact hdvd
  | prop p =>
    obtain ⟨-, -, -, -, -, -, hdvd, -⟩ := h
    exact hdvd
  | endNode =>
    obtain rfl : bytes = toBe 4 2 := h
    rw [length_toBe]
  | nop =>
    obtain rfl : bytes = toBe 4 4 := h
    rw [length_toBe]

theorem Lexeme.readTokens {b : FdtBlob} {dtStruct dtStrings off : ℕ} {lexs : List Lexeme}
    {bytes : List (List UInt8)} (h : List.Forall₂ (Lexeme.Bytes b dtStrings) lexs bytes)
    (hoff : 4 ∣ off) (hlt : off + bytes.flatten.length + 3 < 2 ^ 32)
    (hpre : bytes.flatten <+: b.drop (dtStruct + off)) :
    ∃ toks, Run (b.TokenStep dtStruct) off toks (off + bytes.flatten.length) ∧
      List.Forall₂ (fun lex tok => FdtToken.Means b dtStrings lex tok) lexs toks ∧
      ∀ tok ∈ toks, tok.stop ≤ dtStruct + off + bytes.flatten.length := by
  induction h generalizing off with
  | nil => exact ⟨[], .nil _, .nil, fun _ h => absurd h List.not_mem_nil⟩
  | @cons lex l lexs bytes hlex _ ih =>
    rw [List.flatten_cons, List.length_append] at hlt
    rw [List.flatten_cons] at hpre
    obtain ⟨tok, htok, hmeans, hstop⟩ := Lexeme.readToken hlex hoff (by omega) ((List.prefix_append _ _).trans hpre)
    have hrest := prefix_drop_of_append hpre
    rw [Nat.add_assoc] at hrest
    obtain ⟨toks, htoks, hall, hstops⟩ :=
      ih (Nat.dvd_add hoff (Lexeme.Bytes.dvd hlex)) (by omega) hrest
    rw [List.flatten_cons, List.length_append]
    refine ⟨tok :: toks, ?_, .cons hmeans hall, List.forall_mem_cons.mpr ⟨by omega, ?_⟩⟩
    · rw [← Nat.add_assoc]
      exact htoks.cons htok
    · intro tok' htok'
      have hle := hstops tok' htok'
      omega

theorem FdtToken.means_filter {b : FdtBlob} {dtStrings : ℕ} {lexs : List Lexeme}
    {toks : List FdtToken} (h : List.Forall₂ (FdtToken.Means b dtStrings) lexs toks) :
    List.Forall₂ (FdtToken.Means b dtStrings) (lexs.filter fun l => !l.isNop)
      (toks.filter fun tok => tok ≠ .nop) := by
  induction h with
  | nil => exact .nil
  | @cons lex tok lexs toks hmeans _ ih =>
    cases lex <;> cases tok <;> first | exact ih | exact .cons hmeans ih | exact hmeans.elim

/-- **The tokens of an encoding**: those of the tree, `FDT_NOP`s, and `FDT_END`. -/
theorem FdtBlob.Encodes.tokens {b : FdtBlob} {t : DeviceTree} (h : b.Encodes t) :
    ∃ dtStruct dtStrings toks off next, b.be32 8 = some dtStruct ∧ b.be32 12 = some dtStrings ∧
      Run (b.TokenStep dtStruct) 0 toks off ∧ b.TokenStep dtStruct off .fdtEnd next ∧
      List.Forall₂ (FdtToken.Means b dtStrings) t.lexemes (toks.filter fun tok => tok ≠ .nop) ∧
      ∀ tok ∈ toks, tok.stop + 4 ≤ b.length := by
  obtain ⟨dtStruct, dtStrings, lexs, bytes, hstruct, hstrings, hlexs, hbytes, hpre⟩ := h.layout
  have hsize := be32_lt h.valid.size
  have hle := hpre.length_le
  rw [List.length_append, length_toBe, List.length_drop] at hle
  obtain ⟨toks, htoks, hmeans, hstops⟩ := Lexeme.readTokens hbytes (Nat.dvd_zero 4) (by omega)
    ((List.prefix_append _ _).trans hpre)
  have hend := be32_of_prefix (by decide) (prefix_drop_of_append hpre)
  rw [Nat.zero_add] at htoks
  refine ⟨dtStruct, dtStrings, toks, bytes.flatten.length, (bytes.flatten.length + 4) % 2 ^ 32,
    hstruct, hstrings, htoks, ?_, ?_, ?_⟩
  · rw [TokenStep, readToken, hend]
    rfl
  · rw [← hlexs]
    exact FdtToken.means_filter hmeans
  · intro tok htok
    have hle := hstops tok htok
    have hinside := be32_inside hend
    omega

/-! ## Blobs with a given structure block -/

section FdtBlob

variable {structBlock strings : List UInt8}

theorem fdtBlob_drop : (fdtBlob structBlock strings).drop 40 = structBlock ++ strings := by
  rw [fdtBlob, List.append_assoc]
  exact List.drop_left' (by simp)

theorem fdtBlob_drop_strings :
    (fdtBlob structBlock strings).drop (40 + structBlock.length) = strings := by
  rw [← List.drop_drop, fdtBlob_drop, List.drop_left]

theorem fdtBlob_header (structBlock strings : List UInt8)
    (hlt : 40 + structBlock.length + strings.length < 2 ^ 32) :
    (fdtBlob structBlock strings).Valid ∧ (fdtBlob structBlock strings).be32 8 = some 40 ∧
      (fdtBlob structBlock strings).be32 12 = some (40 + structBlock.length) := by
  have hlen : (fdtBlob structBlock strings).length =
      40 + structBlock.length + strings.length := by
    simp only [fdtBlob, List.length_append, length_toBe, List.length_replicate]
  generalize hb : fdtBlob structBlock strings = b at hlen ⊢
  have hmagic : b <+: b.drop 0 := List.prefix_rfl
  nth_rewrite 1 [← hb] at hmagic
  simp only [fdtBlob, List.append_assoc] at hmagic
  have hsize := prefix_drop_of_append hmagic
  have hstruct := prefix_drop_of_append hsize
  have hstrings := prefix_drop_of_append hstruct
  simp only [length_toBe, Nat.zero_add, Nat.reduceAdd] at hsize hstruct hstrings
  refine ⟨⟨?_, ?_⟩, ?_, ?_⟩
  · exact FdtBlob.be32_of_prefix (by decide) ((List.prefix_append _ _).trans hmagic)
  · rw [hlen]
    exact FdtBlob.be32_of_prefix hlt ((List.prefix_append _ _).trans hsize)
  · exact FdtBlob.be32_of_prefix (by decide) ((List.prefix_append _ _).trans hstruct)
  · exact FdtBlob.be32_of_prefix (by omega) ((List.prefix_append _ _).trans hstrings)

end FdtBlob

/-! ## Flattening -/

/-- Zeros up to a multiple of four bytes. -/
def padding (n : ℕ) : List UInt8 := List.replicate ((4 - n % 4) % 4) 0

/-- The bytes of a token, with the names of properties at the given offsets. -/
def Lexeme.encode (offset : List UInt8 → ℕ) : Lexeme → List UInt8
  | .beginNode name => toBe 4 1 ++ (name ++ 0 :: padding (name.length + 1))
  | .prop p => toBe 4 3 ++ (toBe 4 p.value.length ++ (toBe 4 (offset p.name) ++
      (p.value ++ padding p.value.length)))
  | .endNode => toBe 4 2
  | .nop => toBe 4 4

/-- The strings block with the given names. -/
def namesBlock (names : List (List UInt8)) : List UInt8 := names.flatMap (· ++ [0])

/-- The offset of a name in the strings block. -/
def nameOffset (names : List (List UInt8)) (name : List UInt8) : ℕ :=
  (namesBlock (names.takeWhile (· ≠ name))).length

/-- The structure block of a tree. -/
def DeviceTree.structBlock (t : DeviceTree) (names : List (List UInt8)) : List UInt8 :=
  (t.lexemes.map (Lexeme.encode (nameOffset names))).flatten ++ toBe 4 9

/-- A tree, flattened, with a strings block that has the given names. -/
def DeviceTree.flatten (t : DeviceTree) (names : List (List UInt8)) : FdtBlob :=
  fdtBlob (t.structBlock names) (namesBlock names)

/-- A token that can be encoded. -/
def Lexeme.Encodable (names : List (List UInt8)) : Lexeme → Prop
  | .beginNode name => 0 ∉ name
  | .prop p => 0 ∉ p.name ∧ p.name ++ [0] <+: (namesBlock names).drop (nameOffset names p.name) ∧
      nameOffset names p.name < 2 ^ 32 ∧ p.value.length < 2 ^ 32
  | _ => True

instance (names : List (List UInt8)) (lex : Lexeme) : Decidable (lex.Encodable names) := by
  cases lex with
  | beginNode name => exact inferInstanceAs (Decidable (_ ∉ _))
  | prop p => exact inferInstanceAs (Decidable (_ ∧ _ ∧ _ ∧ _))
  | endNode => exact inferInstanceAs (Decidable True)
  | nop => exact inferInstanceAs (Decidable True)

section Flatten

variable {t : DeviceTree} {names : List (List UInt8)}

theorem length_padding (n : ℕ) : (padding n).length < 4 ∧ 4 ∣ n + (padding n).length := by
  rw [padding, List.length_replicate]
  omega

theorem Lexeme.Encodable.bytes {lex : Lexeme} (h : lex.Encodable names) :
    lex.Bytes (t.flatten names) (40 + (t.structBlock names).length)
      (lex.encode (nameOffset names)) := by
  cases lex with
  | beginNode name =>
    obtain ⟨hlt, hdvd⟩ := length_padding (name.length + 1)
    refine ⟨h, _, hlt, ?_, rfl⟩
    simp only [encode, List.length_append, length_toBe, List.length_cons]
    omega
  | prop p =>
    obtain ⟨hname, hpre, hoff, hlen⟩ := h
    obtain ⟨hlt, hdvd⟩ := length_padding p.value.length
    refine ⟨nameOffset names p.name, _, hoff, hlen, ⟨hname, ?_⟩, hlt, ?_, rfl⟩
    · rw [DeviceTree.flatten, ← List.drop_drop, fdtBlob_drop_strings]
      exact hpre
    · simp only [encode, List.length_append, length_toBe]
      omega
  | endNode => rfl
  | nop => rfl

theorem DeviceTree.not_isNop (t : DeviceTree) : ∀ lex ∈ t.lexemes, lex.isNop = false := by
  induction t using DeviceTree.induct with
  | node name props children ih =>
    have hforest : ∀ lex ∈ forestLexemes children, lex.isNop = false := by
      induction children with
      | nil => exact fun _ h => absurd h List.not_mem_nil
      | cons t ts ihts =>
        rw [forestLexemes, List.forall_mem_append]
        exact ⟨ih t (List.mem_cons_self ..), ihts fun t ht => ih t (List.mem_cons_of_mem _ ht)⟩
    intro lex hlex
    rw [lexemes, List.mem_cons, List.mem_append, List.mem_append] at hlex
    rcases hlex with rfl | hprop | hchild | hend
    · rfl
    · obtain ⟨p, -, rfl⟩ := List.mem_map.mp hprop
      rfl
    · exact hforest lex hchild
    · rw [List.mem_singleton.mp hend]
      rfl

/-- **Flattening gives an encoding**. -/
theorem DeviceTree.flatten_encodes (h : ∀ lex ∈ t.lexemes, lex.Encodable names)
    (hlt : 40 + (t.structBlock names).length + (namesBlock names).length < 2 ^ 32) :
    (t.flatten names).Encodes t := by
  obtain ⟨hvalid, hstruct, hstrings⟩ := fdtBlob_header _ _ hlt
  refine ⟨hvalid, 40, _, t.lexemes, t.lexemes.map (Lexeme.encode (nameOffset names)), hstruct,
    hstrings, ?_, ?_, ?_⟩
  · rw [List.filter_eq_self]
    intro lex hlex
    rw [t.not_isNop lex hlex]
    rfl
  · rw [List.forall₂_map_right_iff, List.forall₂_same]
    exact fun lex hlex => (h lex hlex).bytes
  · rw [flatten, fdtBlob_drop]
    exact List.prefix_append _ _

end Flatten

end Lume
