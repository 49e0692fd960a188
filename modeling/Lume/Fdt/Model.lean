import Lume.Foundation.Bytes
import Lume.Foundation.Loop
import Mathlib.Logic.Function.Basic

/-!
# The flattened device tree

The four walks of `fdt/fdt.cc` over the structure block of a flattened device tree: three that look
for something early at boot, and `unflatten`, which builds the tree of `DeviceNode`s. None of them
looks at the size of the blob. Here a read outside the blob ends a walk, and so the result says
whether there is one.

The four loops read tokens in the same way. `readToken` is this part, and `FdtWalker` is what a
walk does with a token.

## Main definitions

* `FdtBlob`: the bytes of the blob
* `FdtToken`, `readToken`: tokens
* `FdtWalker`, `fdtWalk`: walks
* `earlyScanMem`, `earlyScanUart`, `earlyScanKaslr`, `unflatten`: the four walks
-/

namespace Lume

/-! ## Reading the blob -/

/-- The bytes of the blob. -/
abbrev FdtBlob := List UInt8

/-- The string at a position, up to the end of the blob. -/
def FdtBlob.text (b : FdtBlob) (pos : ℕ) : List UInt8 := b.drop pos

/-- `bswap32` of the word at a position. -/
def FdtBlob.be32 (b : FdtBlob) (pos : ℕ) : Option ℕ :=
  if pos + 4 ≤ b.length then some (ofBe ((b.drop pos).take 4)) else none

/-- The loop that looks for the end of a name. Its counter has 32 bits, and the blob ends before it
wraps. -/
def nameLen : List UInt8 → Option ℕ
  | [] => none
  | c :: str => if c = 0 then some 0 else (nameLen str).map (· + 1)

/-- `str_starts_with` -/
def strStartsWith : List UInt8 → List UInt8 → Option Bool
  | _, [] => some true
  | [], _ :: _ => none
  | c :: str, p :: pre => if c = p then strStartsWith str pre else some false

/-- `str_equals`, with a string constant `s2` -/
def strEquals : List UInt8 → List UInt8 → Option Bool
  | [], _ => none
  | c :: _, [] => some (c = 0)
  | c :: s1, d :: s2 => if c ≠ 0 ∧ c = d then strEquals s1 s2 else some (c = d)

/-- The inner loop of `prop_contains_string`: how many of the next `n` bytes it passes. -/
def skipString : List UInt8 → ℕ → Option ℕ
  | _, 0 => some 0
  | [], _ + 1 => none
  | c :: str, n + 1 => if c = 0 then some 0 else (skipString str n).map (· + 1)

/-- The loop of `prop_contains_string`, for at most `fuel` rounds. -/
def containsLoop (val : List UInt8) (len : ℕ) (target : List UInt8) : ℕ → ℕ → Option Bool
  | 0, _ => none
  | fuel + 1, i =>
    if i < len then do
      if ← strEquals (val.drop i) target then return true
      let k ← skipString (val.drop i) (len - i)
      containsLoop val len target fuel ((i + k + 1) % 2 ^ 32)
    else some false

/-- `prop_contains_string`; `none` also if it does not end. -/
def propContainsString (val : List UInt8) (len : ℕ) (target : List UInt8) : Option Bool :=
  containsLoop val len target (len + 1) 0

/-- `read_cells` -/
def FdtBlob.readCells (b : FdtBlob) (pos cells : ℕ) : Option ℕ :=
  if cells = 2 then do
    let high ← b.be32 pos
    let low ← b.be32 (pos + 4)
    return high * 2 ^ 32 + low
  else b.be32 pos

/-! ## Tokens -/

/-- `FDT_MAGIC` -/
def kFdtMagic : ℕ := 0xd00dfeed

/-- A token: positions of names and values are in the blob. -/
inductive FdtToken
  | beginNode (name : ℕ)
  | prop (len nameoff val : ℕ)
  | endNode
  | nop
  | fdtEnd
  | unknown
  deriving DecidableEq

/-- Rounding a 32-bit offset up to a multiple of four. -/
def align4 (offset : ℕ) : ℕ := (offset + 3) % 2 ^ 32 / 4 * 4

/-- The token at an offset of the structure block, and the offset of the next one. -/
def FdtBlob.readToken (b : FdtBlob) (dtStruct offset : ℕ) : Option (FdtToken × ℕ) := do
  let token ← b.be32 (dtStruct + offset)
  let offset := (offset + 4) % 2 ^ 32
  if token = 1 then
    let len ← nameLen (b.text (dtStruct + offset))
    return (.beginNode (dtStruct + offset), align4 (offset + len + 1))
  else if token = 2 then return (.endNode, offset)
  else if token = 3 then
    let len ← b.be32 (dtStruct + offset)
    let nameoff ← b.be32 (dtStruct + offset + 4)
    let offset := (offset + 8) % 2 ^ 32
    return (.prop len nameoff (dtStruct + offset), align4 (offset + len))
  else if token = 4 then return (.nop, offset)
  else if token = 9 then return (.fdtEnd, offset)
  else return (.unknown, offset)

/-! ## Walks -/

/-- How a walk ends. -/
inductive WalkEnd (α : Type)
  | returned (a : α)
  | panicked (msg : String)
  deriving DecidableEq

/-- What a walk does with a token: it goes on from a new state or ends; `none` is a read outside the
blob. -/
structure FdtWalker (σ α : Type) where
  init : σ
  badMagic : WalkEnd α
  onToken : FdtBlob → ℕ → σ → FdtToken → Option (σ ⊕ WalkEnd α)

variable {σ α : Type}

/-- One round of a walk. It ends with `none` on a read outside the blob. -/
def FdtWalker.step (w : FdtWalker σ α) (b : FdtBlob) (dtStruct dtStrings : ℕ) :
    ℕ × σ → (ℕ × σ) ⊕ Option (WalkEnd α)
  | (offset, s) =>
    match b.readToken dtStruct offset with
    | none => .inr none
    | some (tok, next) =>
      match w.onToken b dtStrings s tok with
      | none => .inr none
      | some (.inl t) => .inl (next, t)
      | some (.inr e) => .inr (some e)

/-- A walk, for at most `fuel` rounds: `some none` is a read outside the blob, `none` is that the
rounds do not suffice. -/
def fdtWalk (w : FdtWalker σ α) (b : FdtBlob) (fuel : ℕ) : Option (Option (WalkEnd α)) :=
  match b.be32 0 with
  | none => some none
  | some magic =>
    if magic ≠ kFdtMagic then some (some w.badMagic)
    else
      match b.be32 8, b.be32 12 with
      | some dtStruct, some dtStrings => loop (w.step b dtStruct dtStrings) fuel (0, w.init)
      | _, _ => some none

/-! ## Early scans -/

/-- The characters of a string constant. -/
def ascii (s : String) : List UInt8 := s.toList.map fun c => UInt8.ofNat c.toNat

/-- The cell sizes in force at each depth. -/
structure CellSizes where
  addressCells : ℕ → ℕ
  sizeCells : ℕ → ℕ

namespace CellSizes

/-- Only the first element of either array has a value of its own. -/
def init : CellSizes := ⟨Function.update 0 0 2, Function.update 0 0 1⟩

/-- A node inherits the sizes of its parent. -/
def inherit (c : CellSizes) (depth : ℤ) : CellSizes :=
  if 0 < depth ∧ depth < 16 then
    ⟨Function.update c.addressCells depth.toNat (c.addressCells (depth.toNat - 1)),
      Function.update c.sizeCells depth.toNat (c.sizeCells (depth.toNat - 1))⟩
  else c

/-- A node sets `#address-cells`. -/
def setAddressCells (c : CellSizes) (depth : ℤ) (cells : ℕ) : CellSizes :=
  ⟨Function.update c.addressCells depth.toNat cells, c.sizeCells⟩

/-- A node sets `#size-cells`. -/
def setSizeCells (c : CellSizes) (depth : ℤ) (cells : ℕ) : CellSizes :=
  ⟨c.addressCells, Function.update c.sizeCells depth.toNat cells⟩

/-- The address and the size in a `reg` property of a node at the given depth. -/
def readReg (c : CellSizes) (b : FdtBlob) (val : ℕ) (depth : ℤ) : Option (ℕ × ℕ) := do
  let parent := (depth - 1).toNat
  let base ← b.readCells val (c.addressCells parent)
  let size ← b.readCells (val + c.addressCells parent * 4 % 2 ^ 32) (c.sizeCells parent)
  return (base, size)

end CellSizes

/-- The state of `early_scan_mem`. -/
structure MemScan where
  depth : ℤ
  cells : CellSizes
  inMemoryNode : Bool

/-- What `early_scan_mem` does with a token. -/
def MemScan.onToken (b : FdtBlob) (dtStrings : ℕ) (s : MemScan) :
    FdtToken → Option (MemScan ⊕ WalkEnd (ℕ × ℕ))
  | .beginNode name => do
    let depth := s.depth + 1
    let isMem ← if depth = 1 then strStartsWith (b.text name) (ascii "memory") else some false
    return .inl ⟨depth, s.cells.inherit depth, isMem⟩
  | .endNode =>
    some (.inl ⟨if 0 ≤ s.depth then s.depth - 1 else s.depth, s.cells, false⟩)
  | .prop _ nameoff val =>
    if 0 ≤ s.depth ∧ s.depth < 16 then do
      let name := b.text (dtStrings + nameoff)
      if ← strEquals name (ascii "#address-cells") then
        return .inl { s with cells := s.cells.setAddressCells s.depth (← b.be32 val) }
      if ← strEquals name (ascii "#size-cells") then
        return .inl { s with cells := s.cells.setSizeCells s.depth (← b.be32 val) }
      if s.inMemoryNode then
        if ← strEquals name (ascii "reg") then
          return .inr (.returned (← s.cells.readReg b val s.depth))
      return .inl s
    else some (.inl s)
  | .nop => some (.inl s)
  | .fdtEnd => some (.inr (.panicked "FDT early_scan_mem: /memory node not found"))
  | .unknown => some (.inr (.panicked "FDT early_scan_mem: unknown token"))

/-- `FdtManager::early_scan_mem`, which gives the base and the size -/
def earlyScanMem : FdtWalker MemScan (ℕ × ℕ) where
  init := ⟨-1, .init, false⟩
  badMagic := .panicked "FDT early_scan_mem: invalid magic number"
  onToken := MemScan.onToken

/-- The state of `early_scan_uart`; `nodeReg` is the `reg` of the current node, once it has been
seen. -/
structure UartScan where
  depth : ℤ
  cells : CellSizes
  inUartNode : Bool
  nodeReg : Option (ℕ × ℕ)

/-- `set_default_uart` -/
def defaultUart : ℕ × ℕ := (0x10000000, 0x100)

/-- What `early_scan_uart` does with a token. -/
def UartScan.onToken (b : FdtBlob) (dtStrings : ℕ) (s : UartScan) :
    FdtToken → Option (UartScan ⊕ WalkEnd (ℕ × ℕ))
  | .beginNode _ => some (.inl ⟨s.depth + 1, s.cells.inherit (s.depth + 1), false, none⟩)
  | .endNode => some (.inl ⟨if 0 ≤ s.depth then s.depth - 1 else s.depth, s.cells, false, none⟩)
  | .prop len nameoff val =>
    if 0 ≤ s.depth ∧ s.depth < 16 then do
      let name := b.text (dtStrings + nameoff)
      if ← strEquals name (ascii "#address-cells") then
        return .inl { s with cells := s.cells.setAddressCells s.depth (← b.be32 val) }
      if ← strEquals name (ascii "#size-cells") then
        return .inl { s with cells := s.cells.setSizeCells s.depth (← b.be32 val) }
      if ← strEquals name (ascii "compatible") then
        if ← propContainsString (b.text val) len (ascii "ns16550a") then
          match s.nodeReg with
          | some reg => return .inr (.returned reg)
          | none => return .inl { s with inUartNode := true }
        else return .inl s
      if ← strEquals name (ascii "reg") then
        let reg ← s.cells.readReg b val s.depth
        if s.inUartNode then return .inr (.returned reg)
        else return .inl { s with nodeReg := some reg }
      return .inl s
    else some (.inl s)
  | .nop => some (.inl s)
  | .fdtEnd => some (.inr (.returned defaultUart))
  | .unknown => some (.inr (.returned defaultUart))

/-- `FdtManager::early_scan_uart`, which gives the address and the size -/
def earlyScanUart : FdtWalker UartScan (ℕ × ℕ) where
  init := ⟨-1, .init, false, none⟩
  badMagic := .returned defaultUart
  onToken := UartScan.onToken

/-- The state of `early_scan_kaslr`. -/
structure KaslrScan where
  depth : ℤ
  inChosen : Bool

/-- What `early_scan_kaslr` does with a token. -/
def KaslrScan.onToken (b : FdtBlob) (dtStrings : ℕ) (s : KaslrScan) :
    FdtToken → Option (KaslrScan ⊕ WalkEnd ℕ)
  | .beginNode name => do
    let depth := s.depth + 1
    if depth = 1 then return .inl ⟨depth, ← strStartsWith (b.text name) (ascii "chosen")⟩
    else return .inl { s with depth := depth }
  | .endNode =>
    let depth := if 0 ≤ s.depth then s.depth - 1 else s.depth
    some (.inl ⟨depth, if depth < 1 then false else s.inChosen⟩)
  | .prop len nameoff val =>
    if s.inChosen then do
      if ← strStartsWith (b.text (dtStrings + nameoff)) (ascii "kaslr-seed") then
        if len = 8 then return .inr (.returned (← b.readCells val 2))
      return .inl s
    else some (.inl s)
  | .nop => some (.inl s)
  | .fdtEnd => some (.inr (.returned 0))
  | .unknown => some (.inr (.returned 0))

/-- `FdtManager::early_scan_kaslr`, which gives the seed -/
def earlyScanKaslr : FdtWalker KaslrScan ℕ where
  init := ⟨-1, false⟩
  badMagic := .returned 0
  onToken := KaslrScan.onToken

/-! ## Unflattening -/

/-- `FdtProperty`: the name and the value are positions in the blob. -/
structure FdtProperty where
  name : ℕ
  value : ℕ
  len : ℤ
  deriving DecidableEq

/-- `DeviceNode`: the name is a position in the blob, nodes are known by the order in which they
were made. -/
structure DeviceNode where
  name : ℕ
  parent : Option ℕ
  children : List ℕ
  props : List FdtProperty
  deriving DecidableEq

/-- `static_cast<int>` of a 32-bit number. -/
def int32 (n : ℕ) : ℤ := if n < 2 ^ 31 then n else n - 2 ^ 32

/-- `DeviceNode::add_child` -/
def addChild (nodes : List DeviceNode) (parent child : ℕ) : List DeviceNode :=
  nodes.modify parent fun n => { n with children := n.children ++ [child] }

/-- `DeviceNode::add_prop` -/
def addProp (nodes : List DeviceNode) (node : ℕ) (prop : FdtProperty) : List DeviceNode :=
  nodes.modify node fun n => { n with props := n.props ++ [prop] }

/-- The state of `unflatten`, with the nodes made so far and the number of allocations. -/
structure Unflatten where
  nodes : List DeviceNode
  stack : ℕ → Option ℕ
  depth : ℤ
  root : Option ℕ
  allocs : ℕ

/-- What `unflatten` does with a token; `mem` says which allocations succeed. -/
def Unflatten.onToken (mem : ℕ → Bool) (_ : FdtBlob) (dtStrings : ℕ) (s : Unflatten) :
    FdtToken → Option (Unflatten ⊕ WalkEnd (List DeviceNode × Option ℕ))
  | .beginNode name =>
    let depth := s.depth + 1
    if 16 ≤ depth then some (.inr (.panicked "fdt unflatten: tree too deep"))
    else
      let parent := if 0 < depth then s.stack (depth - 1).toNat else none
      if mem s.allocs then
        let node := s.nodes.length
        let nodes := s.nodes ++ [⟨name, parent, [], []⟩]
        let stack := Function.update s.stack depth.toNat (some node)
        some (.inl (match parent with
          | some p => ⟨addChild nodes p node, stack, depth, s.root, s.allocs + 1⟩
          | none => ⟨nodes, stack, depth, some node, s.allocs + 1⟩))
      else some (.inr (.panicked "fdt unflatten: OOM creating DeviceNode"))
  | .endNode => some (.inl { s with depth := if 0 ≤ s.depth then s.depth - 1 else s.depth })
  | .prop len nameoff val =>
    if 0 ≤ s.depth ∧ s.depth < 16 then
      match s.stack s.depth.toNat with
      | some node =>
        if mem s.allocs then
          some (.inl { s with
            nodes := addProp s.nodes node ⟨dtStrings + nameoff, val, int32 len⟩
            allocs := s.allocs + 1 })
        else some (.inr (.panicked "fdt unflatten: OOM creating FdtProperty"))
      | none => some (.inl s)
    else some (.inl s)
  | .nop => some (.inl s)
  | .fdtEnd => some (.inr (.returned (s.nodes, s.root)))
  | .unknown => some (.inr (.panicked "fdt unflatten: unknown token"))

/-- `FdtManager::unflatten`, which gives the nodes and the root -/
def unflatten (mem : ℕ → Bool) : FdtWalker Unflatten (List DeviceNode × Option ℕ) where
  init := ⟨[], fun _ => none, -1, none, 0⟩
  badMagic := .panicked "fdt unflatten: invalid magic"
  onToken := Unflatten.onToken mem

end Lume
