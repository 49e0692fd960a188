import Lume.Fdt.Uart

/-!
# The early scans for the memory and the seed

`early_scan_mem` and `early_scan_kaslr` look at the children of the root. Both compare names with
`str_starts_with`, so that `memory-controller` passes for a memory node, `chosen-1` for `/chosen`
and `kaslr-seed-2` for the seed; and the flag for `/chosen` stays set in the nodes below it.

## Main definitions

* `DeviceTree.memoryReg`: the base and size of the first child of the root with a name of some kind
* `DeviceTree.seed`, `DeviceTree.seedLike`: the seed of `/chosen`, and what passes for it
* `DeviceTree.MemoryPlain`, `DeviceTree.SeedPlain`: what passes is as good as what is asked for

## Main results

* `earlyScanMem_scans`, `earlyScanKaslr_scans`: the scans are searches in pre-order
* `early_scans_agree_iff`: when they give what the tree says
* `memory_controller_diverts`: what goes wrong otherwise
-/

namespace Lume

/-! ## The scan for the memory -/

/-- The depth of a node, and the cell sizes at the root. -/
structure RootCtx where
  depth : ℕ
  cells : ℕ × ℕ

namespace DtEntry

/-- What a node hands on to its children: the root sets the cell sizes. -/
def enterRoot (e : DtEntry RootCtx) : RootCtx :=
  ⟨e.ctx.depth + 1, if e.ctx.depth = 0 then cellsFrom e.ctx.cells e.props else e.ctx.cells⟩

/-- Whether the node passes for a memory node. -/
def passesForMemory (e : DtEntry RootCtx) : Bool :=
  e.ctx.depth = 1 && ascii "memory" <+: e.name

/-- The base and size of such a node. -/
def memoryFound (e : DtEntry RootCtx) : Option (ℕ × ℕ) :=
  if e.passesForMemory then (propNamed e.props "reg").map fun reg => decodeReg e.ctx.cells reg.value
  else none

/-- The root is as the specification has it, the sizes it sets can be read, and the `reg` of a
memory node has an entry. -/
structure MemoryOk (e : DtEntry RootCtx) : Prop where
  unique : e.ctx.depth = 0 → UniqueNames e.props
  cells : e.ctx.depth = 0 → ∀ p ∈ e.props,
    p.name = ascii "#address-cells" ∨ p.name = ascii "#size-cells" → p.value.length = 4
  memory : e.passesForMemory = true → OneOrTwo e.ctx.cells ∧ RegHolds e.props e.ctx.cells

theorem passesForMemory_of_deep {e : DtEntry RootCtx} (h : 2 ≤ e.ctx.depth) :
    e.passesForMemory = false := by
  rw [passesForMemory, decide_eq_false (by omega), Bool.false_and]

theorem memoryOk_of_deep {e : DtEntry RootCtx} (h : 2 ≤ e.ctx.depth) : e.MemoryOk where
  unique h0 := by omega
  cells h0 := by omega
  memory hpass := by
    rw [passesForMemory_of_deep h] at hpass
    cases hpass

end DtEntry

namespace MemScan

variable {b : FdtBlob} {dtStrings len nameoff val : ℕ} {s : MemScan} {p : DtProp}

theorem onToken_prop (hmeans : FdtToken.Means b dtStrings (.prop p) (.prop len nameoff val)) :
    onToken b dtStrings s (.prop len nameoff val) = if 0 ≤ s.depth ∧ s.depth < 16 then
        if p.name = ascii "#address-cells" then
          (b.be32 val).map fun n => .inl { s with cells := s.cells.setAddressCells s.depth n }
        else if p.name = ascii "#size-cells" then
          (b.be32 val).map fun n => .inl { s with cells := s.cells.setSizeCells s.depth n }
        else if s.inMemoryNode = true ∧ p.name = ascii "reg" then
          (s.cells.readReg b val s.depth).map fun reg => .inr (.returned reg) else some (.inl s)
      else some (.inl s) := by
  obtain ⟨hname, rfl, -⟩ := hmeans
  rw [onToken]
  refine ite_congr rfl (fun _ => ?_) fun _ => rfl
  simp only [hname.equals (by decide : 0 ∉ ascii "#address-cells"),
    hname.equals (by decide : 0 ∉ ascii "#size-cells"),
    hname.equals (by decide : 0 ∉ ascii "reg"), Option.bind_eq_bind, Option.bind_some,
    decide_eq_true_eq]
  refine ite_congr rfl (fun _ => ?_) fun _ => ite_congr rfl (fun _ => ?_) fun _ => ?_
  · cases b.be32 val <;> rfl
  · cases b.be32 val <;> rfl
  · cases s.inMemoryNode
    · simp
    · simp only [if_true, true_and]
      refine ite_congr rfl (fun _ => ?_) fun _ => rfl
      cases s.cells.readReg b val s.depth <;> rfl

/-- In front of a node with the given context. -/
structure Between (ctx : RootCtx) (s : MemScan) : Prop where
  depth : s.depth = ctx.depth - 1
  cells : s.cells.atDepth 0 = ctx.cells

/-- Within a node at depth `d`. -/
structure In (d : ℕ) (own : ℕ × ℕ) (inMemory : Bool) (s : MemScan) : Prop where
  depth : s.depth = d
  cells : s.cells.atDepth 0 = own
  flag : s.inMemoryNode = inMemory

variable {d : ℕ} {own : ℕ × ℕ} {inMemory : Bool}

theorem In.setAddressCells (h : In d own inMemory s) (n : ℕ) :
    In d (if d = 0 then (n, own.2) else own) inMemory
      { s with cells := s.cells.setAddressCells s.depth n } := by
  refine ⟨h.depth, ?_, h.flag⟩
  rw [CellSizes.atDepth_setAddressCells, h.depth, Int.toNat_natCast, h.cells]
  exact ite_congr (propext eq_comm) (fun _ => rfl) fun _ => rfl

theorem In.setSizeCells (h : In d own inMemory s) (n : ℕ) :
    In d (if d = 0 then (own.1, n) else own) inMemory
      { s with cells := s.cells.setSizeCells s.depth n } := by
  refine ⟨h.depth, ?_, h.flag⟩
  rw [CellSizes.atDepth_setSizeCells, h.depth, Int.toNat_natCast, h.cells]
  exact ite_congr (propext eq_comm) (fun _ => rfl) fun _ => rfl

/-- The cell sizes at the root, after the rest of the properties of a node at depth `d`. -/
def rootCellsFrom (d : ℕ) (own : ℕ × ℕ) (props : List DtProp) : ℕ × ℕ :=
  if d = 0 then cellsFrom own props else own

theorem rootCellsFrom_of_ne (ha : p.name ≠ ascii "#address-cells")
    (hz : p.name ≠ ascii "#size-cells") : rootCellsFrom d own [p] = own := by
  rw [rootCellsFrom, cellsFrom_of_ne ha hz, ite_self]

theorem rootCellsFrom_cons {props : List DtProp} (hunique : d = 0 → UniqueNames (p :: props)) :
    rootCellsFrom d own (p :: props) = rootCellsFrom d (rootCellsFrom d own [p]) props := by
  by_cases hd : d = 0
  · simp only [rootCellsFrom, if_pos hd]
    exact (hunique hd).cellsFrom_cons own
  · simp only [rootCellsFrom, if_neg hd]

theorem exists_be32 (hval : p.value <+: b.drop val) (hin : val + p.value.length + 4 ≤ b.length) :
    ∃ n, b.be32 val = some n ∧ (p.value.length = 4 → n = ofBe (p.value.take 4)) := by
  have hinside : val + 4 ≤ b.length := by omega
  obtain ⟨n, hn⟩ := Option.ne_none_iff_exists'.mp (FdtBlob.be32_ne_none hinside)
  refine ⟨n, hn, fun hlen => ?_⟩
  exact Option.some.inj (hn.symm.trans (FdtBlob.be32_value hval hlen.ge))

/-- **A property**: the scan passes it, or it is the `reg` that is looked for. -/
theorem In.step {props : List DtProp} (h : In d own inMemory s)
    (hmeans : FdtToken.Means b dtStrings (.prop p) (.prop len nameoff val))
    (hstop : val + len + 4 ≤ b.length)
    (hcells : d = 0 → p.name = ascii "#address-cells" ∨ p.name = ascii "#size-cells" →
      p.value.length = 4)
    (hmem : inMemory = true → d = 1 ∧ OneOrTwo own ∧ RegHolds (p :: props) own) :
    (∃ s', onToken b dtStrings s (.prop len nameoff val) = some (.inl s') ∧
      In d (rootCellsFrom d own [p]) inMemory s' ∧ (inMemory = true → p.name ≠ ascii "reg")) ∨
    (onToken b dtStrings s (.prop len nameoff val) =
      some (.inr (.returned (decodeReg own p.value))) ∧ inMemory = true ∧ p.name = ascii "reg") := by
  rw [onToken_prop hmeans]
  obtain ⟨-, rfl, hval⟩ := hmeans
  obtain ⟨n, hn, hnum⟩ := exists_be32 hval hstop
  by_cases hin : 0 ≤ s.depth ∧ s.depth < 16
  · rw [if_pos hin]
    by_cases haddr : p.name = ascii "#address-cells"
    · rw [if_pos haddr, hn]
      refine .inl ⟨_, rfl, ?_, fun _ => by rw [haddr]; decide⟩
      have hset := h.setAddressCells n
      have hsame : (if d = 0 then (n, own.2) else own) = rootCellsFrom d own [p] := by
        rw [rootCellsFrom, cellsFrom_address haddr]
        exact ite_congr rfl (fun hd => by rw [hnum (hcells hd (.inl haddr))]) fun _ => rfl
      rwa [hsame] at hset
    rw [if_neg haddr]
    by_cases hsize : p.name = ascii "#size-cells"
    · rw [if_pos hsize, hn]
      refine .inl ⟨_, rfl, ?_, fun _ => by rw [hsize]; decide⟩
      have hset := h.setSizeCells n
      have hsame : (if d = 0 then (own.1, n) else own) = rootCellsFrom d own [p] := by
        rw [rootCellsFrom, cellsFrom_size hsize]
        exact ite_congr rfl (fun hd => by rw [hnum (hcells hd (.inr hsize))]) fun _ => rfl
      rwa [hsame] at hset
    rw [if_neg hsize, h.flag]
    by_cases hreg : inMemory = true ∧ p.name = ascii "reg"
    · -- the parent of a memory node is the root
      obtain ⟨rfl, hsizes, hlong⟩ := hmem hreg.1
      have hroot : s.cells.atDepth (s.depth - 1).toNat = own := by
        rw [h.depth]
        exact h.cells
      rw [if_pos hreg, CellSizes.readReg_eq hroot hsizes.1 hsizes.2 hval
        (hlong p (propNamed_cons_self hreg.2))]
      exact .inr ⟨rfl, hreg⟩
    · rw [if_neg hreg]
      refine .inl ⟨s, rfl, ?_, fun htrue hname => hreg ⟨htrue, hname⟩⟩
      rwa [rootCellsFrom_of_ne haddr hsize]
  · -- too deep for the arrays
    have hdeep : d ≠ 0 ∧ d ≠ 1 := by
      rw [h.depth] at hin
      omega
    rw [if_neg hin]
    refine .inl ⟨s, rfl, ?_, fun htrue => absurd (hmem htrue).1 hdeep.2⟩
    rwa [rootCellsFrom, if_neg hdeep.1]

/-- The answer in the rest of the properties of a node. -/
def foundFrom (inMemory : Bool) (own : ℕ × ℕ) (props : List DtProp) : Option (ℕ × ℕ) :=
  if inMemory then (propNamed props "reg").map fun reg => decodeReg own reg.value else none

theorem In.props_gives {props : List DtProp} {toks : List FdtToken} (h : In d own inMemory s)
    (hmeans : List.Forall₂ (FdtToken.Means b dtStrings) (props.map .prop) toks)
    (hstops : ∀ tok ∈ toks, tok.stop + 4 ≤ b.length) (hunique : d = 0 → UniqueNames props)
    (hcells : d = 0 → ∀ p ∈ props,
      p.name = ascii "#address-cells" ∨ p.name = ascii "#size-cells" → p.value.length = 4)
    (hmem : inMemory = true → d = 1 ∧ OneOrTwo own ∧ RegHolds props own) :
    Gives True (foundFrom inMemory own props) (In d (rootCellsFrom d own props) inMemory)
      (earlyScanMem.through b dtStrings s toks) := by
  induction props generalizing s own toks with
  | nil =>
    cases hmeans
    refine ⟨ite_self _, ?_⟩
    have hsame : rootCellsFrom d own [] = own := ite_self _
    rwa [hsame]
  | cons p props ih =>
    obtain _ | ⟨htok, hmeans⟩ := hmeans
    rename_i tok toks
    cases tok with
    | prop len nameoff val =>
      rw [List.forall_mem_cons] at hstops
      have hcell (hd : d = 0) := (List.forall_mem_cons.mp (hcells hd))
      rw [FdtWalker.through, rootCellsFrom_cons hunique]
      obtain ⟨s', hpass, hs', hother⟩ | ⟨hret, htrue, hreg⟩ :=
        h.step htok hstops.1 (fun hd => (hcell hd).1) hmem
      · rw [show earlyScanMem.onToken b dtStrings s (.prop len nameoff val) = _ from hpass,
          andThen_inl]
        have hown (htrue : inMemory = true) : rootCellsFrom d own [p] = own := by
          rw [rootCellsFrom, if_neg (by rw [(hmem htrue).1]; decide)]
        have hfound : foundFrom inMemory own (p :: props) =
            foundFrom inMemory (rootCellsFrom d own [p]) props := by
          cases inMemory with
          | false => rfl
          | true => rw [foundFrom, foundFrom, propNamed_cons_of_ne (hother rfl), hown rfl]
        rw [hfound]
        refine ih hs' hmeans hstops.2 (fun hd => (hunique hd).tail) (fun hd => (hcell hd).2) ?_
        intro htrue
        obtain ⟨hd, hsizes, hlong⟩ := hmem htrue
        rw [hown htrue]
        exact ⟨hd, hsizes, (regHolds_cons_of_ne (hother htrue)).mp hlong⟩
      · rw [show earlyScanMem.onToken b dtStrings s (.prop len nameoff val) = _ from hret,
          andThen_inr, foundFrom, if_pos htrue, propNamed_cons_self hreg]
        exact ⟨_, rfl, rfl⟩
    | beginNode | endNode | nop | fdtEnd | unknown => exact htok.elim

theorem Between.enter {ctx : RootCtx} (h : Between ctx s) (inMemory : Bool) :
    In ctx.depth ctx.cells inMemory ⟨s.depth + 1, s.cells.inherit (s.depth + 1), inMemory⟩ := by
  have hdepth : s.depth + 1 = ctx.depth := by
    rw [h.depth]
    omega
  refine ⟨hdepth, ?_, rfl⟩
  rw [CellSizes.atDepth_inherit, if_neg (by omega)]
  exact h.cells

end MemScan

theorem earlyScanMem_scans (b : FdtBlob) (dtStrings : ℕ) :
    Scans earlyScanMem b dtStrings DtEntry.enterRoot DtEntry.memoryFound DtEntry.MemoryOk
      (fun _ => True) (0 < ·.depth) MemScan.Between where
  node := by
    intro e s pos toks hs hok hname hmeans hstops
    have hdepth : s.depth + 1 = e.ctx.depth := by
      rw [hs.depth]
      omega
    have hbegin : earlyScanMem.onToken b dtStrings s (.beginNode pos) =
        some (.inl ⟨s.depth + 1, s.cells.inherit (s.depth + 1), e.passesForMemory⟩) := by
      show MemScan.onToken b dtStrings s (.beginNode pos) = _
      rw [MemScan.onToken, hname.startsWith (by decide), DtEntry.passesForMemory]
      by_cases hone : e.ctx.depth = 1
      · simp [hdepth, hone]
      · simp [hdepth, hone]
    rw [FdtWalker.through, hbegin, andThen_inl]
    refine ((hs.enter e.passesForMemory).props_gives hmeans hstops hok.unique hok.cells ?_).mono id ?_
    · intro htrue
      have hone : e.ctx.depth = 1 := by
        rw [DtEntry.passesForMemory, Bool.and_eq_true] at htrue
        exact of_decide_eq_true htrue.1
      exact ⟨hone, hok.memory htrue⟩
    · intro s' hs'
      refine ⟨?_, hs'.cells⟩
      rw [hs'.depth, DtEntry.enterRoot]
      push_cast
      ring
  leave := by
    intro e s hs
    refine ⟨_, rfl, fun hpos => ⟨?_, ?_⟩⟩
    · have hdepth := hs.depth
      rw [DtEntry.enterRoot] at hdepth
      push_cast at hdepth
      show (if 0 ≤ s.depth then s.depth - 1 else s.depth) = _
      rw [if_pos (by omega)]
      omega
    · have hcells := hs.cells
      rw [DtEntry.enterRoot] at hcells
      dsimp only at hcells
      rwa [if_neg (by omega)] at hcells
  below e := Nat.succ_pos _

/-! ## The scan for the seed -/

/-- The depth of a node, and whether its parent is in a node that passes for `/chosen`. -/
structure ChosenCtx where
  depth : ℕ
  inChosen : Bool

/-- Whether a property passes for the seed. -/
def looksLikeSeed (p : DtProp) : Bool := ascii "kaslr-seed" <+: p.name && p.value.length = 8

namespace DtEntry

/-- Whether the node is in one that passes for `/chosen`: the nodes below it are, too. -/
def passesForChosen (e : DtEntry ChosenCtx) : Bool :=
  if e.ctx.depth = 1 then ascii "chosen" <+: e.name else e.ctx.inChosen

/-- What a node hands on to its children. -/
def enterChosen (e : DtEntry ChosenCtx) : ChosenCtx := ⟨e.ctx.depth + 1, e.passesForChosen⟩

/-- The number in the first property that passes for the seed. -/
def seedFound (e : DtEntry ChosenCtx) : Option ℕ :=
  if e.passesForChosen then (e.props.find? looksLikeSeed).map fun p => ofBe p.value else none

end DtEntry

namespace KaslrScan

variable {b : FdtBlob} {dtStrings len nameoff val : ℕ} {s : KaslrScan} {p : DtProp}

theorem onToken_prop (hmeans : FdtToken.Means b dtStrings (.prop p) (.prop len nameoff val)) :
    onToken b dtStrings s (.prop len nameoff val) =
      some (if s.inChosen && looksLikeSeed p then .inr (.returned (ofBe p.value)) else .inl s) := by
  obtain ⟨hname, rfl, hval⟩ := hmeans
  rw [onToken]
  cases s.inChosen with
  | false => rfl
  | true =>
    rw [if_pos rfl, hname.startsWith (by decide), Bool.true_and, looksLikeSeed]
    by_cases hpre : ascii "kaslr-seed" <+: p.name
    · by_cases hlen : p.value.length = 8
      · have hread : b.readCells val 2 = some (ofBe p.value) := by
          rw [FdtBlob.readCells_value (.inr rfl) hval hlen.ge, List.take_of_length_le hlen.le]
        simp [hpre, hlen, hread]
      · simp [hpre, hlen]
    · simp [hpre]

/-- In front of a node with the given context. The flag is set anew for a child of the root. -/
structure Between (ctx : ChosenCtx) (s : KaslrScan) : Prop where
  depth : s.depth = ctx.depth - 1
  flag : ctx.depth ≠ 1 → s.inChosen = ctx.inChosen

theorem props_gives {props : List DtProp} {toks : List FdtToken}
    (hmeans : List.Forall₂ (FdtToken.Means b dtStrings) (props.map .prop) toks) :
    Gives True (if s.inChosen then (props.find? looksLikeSeed).map fun p => ofBe p.value else none)
      (· = s) (earlyScanKaslr.through b dtStrings s toks) := by
  induction props generalizing toks with
  | nil =>
    cases hmeans
    exact ⟨ite_self _, rfl⟩
  | cons p props ih =>
    obtain _ | ⟨htok, hmeans⟩ := hmeans
    rename_i tok toks
    cases tok with
    | prop len nameoff val =>
      rw [FdtWalker.through, show earlyScanKaslr.onToken b dtStrings s (.prop len nameoff val) = _
        from onToken_prop htok, List.find?_cons]
      have hrest := ih hmeans
      cases hflag : s.inChosen
      · rw [hflag] at hrest
        exact hrest
      · rw [hflag] at hrest
        cases looksLikeSeed p
        · exact hrest
        · exact ⟨_, rfl, rfl⟩
    | beginNode | endNode | nop | fdtEnd | unknown => exact htok.elim

end KaslrScan

theorem earlyScanKaslr_scans (b : FdtBlob) (dtStrings : ℕ) :
    Scans earlyScanKaslr b dtStrings DtEntry.enterChosen DtEntry.seedFound (fun _ => True)
      (fun _ => True) (0 < ·.depth) KaslrScan.Between where
  node := by
    intro e s pos toks hs _ hname hmeans _
    have hdepth : s.depth + 1 = e.ctx.depth := by
      rw [hs.depth]
      omega
    have hbegin : earlyScanKaslr.onToken b dtStrings s (.beginNode pos) =
        some (.inl ⟨s.depth + 1, e.passesForChosen⟩) := by
      show KaslrScan.onToken b dtStrings s (.beginNode pos) = _
      rw [KaslrScan.onToken, hname.startsWith (by decide), DtEntry.passesForChosen]
      by_cases hone : e.ctx.depth = 1
      · simp [hdepth, hone]
      · simp [hdepth, hone, hs.flag hone]
    rw [FdtWalker.through, hbegin, andThen_inl]
    refine (KaslrScan.props_gives hmeans).mono id ?_
    rintro s' rfl
    refine ⟨?_, fun _ => rfl⟩
    rw [DtEntry.enterChosen]
    push_cast
    omega
  leave := by
    intro e s hs
    refine ⟨_, rfl, fun hpos => ?_⟩
    have hdepth : s.depth = e.ctx.depth := by
      rw [hs.depth, DtEntry.enterChosen]
      push_cast
      omega
    have hflag : s.inChosen = e.passesForChosen := hs.flag (by rw [DtEntry.enterChosen]; simp; omega)
    refine ⟨?_, fun hone => ?_⟩
    · show (if 0 ≤ s.depth then s.depth - 1 else s.depth) = _
      rw [if_pos (by omega), hdepth]
    · -- below a child of the root the flag stays as it is
      show (if (if 0 ≤ s.depth then s.depth - 1 else s.depth) < 1 then false else s.inChosen) = _
      rw [if_pos (by omega : 0 ≤ s.depth), if_neg (by omega), hflag, DtEntry.passesForChosen,
        if_neg hone]
  below e := Nat.succ_pos _

/-! ## The answers in the tree -/

/-- The name of a memory node: `memory` or `memory@<unit>`. -/
def isMemoryName (name : List UInt8) : Bool := name = ascii "memory" || ascii "memory@" <+: name

/-- A name that passes for one. -/
def looksLikeMemory (name : List UInt8) : Bool := ascii "memory" <+: name

namespace DeviceTree

def name : DeviceTree → List UInt8
  | .node name _ _ => name

def props : DeviceTree → List DtProp
  | .node _ props _ => props

def children : DeviceTree → List DeviceTree
  | .node _ _ children => children

/-- The cell sizes of the root, with the defaults of the specification. -/
def rootCells (t : DeviceTree) : ℕ × ℕ := cellsFrom (2, 1) t.props

/-- The base and size in the `reg` of a child of the root. -/
def baseAndSize (t c : DeviceTree) : Option (ℕ × ℕ) :=
  (propNamed c.props "reg").map fun reg => decodeReg t.rootCells reg.value

/-- The first child of the root with a name of the given kind that has a `reg`. -/
def memoryNode (t : DeviceTree) (kind : List UInt8 → Bool) : Option DeviceTree :=
  t.children.find? fun c => kind c.name && (t.baseAndSize c).isSome

/-- The base and size of that node. -/
def memoryReg (t : DeviceTree) (kind : List UInt8 → Bool) : Option (ℕ × ℕ) :=
  (t.memoryNode kind).bind t.baseAndSize

mutual

/-- The properties of a node and of the nodes below it, in the order of the blob. -/
def allProps : DeviceTree → List DtProp
  | .node _ props children => props ++ forestProps children

def forestProps : List DeviceTree → List DtProp
  | [] => []
  | t :: ts => allProps t ++ forestProps ts

end

/-- The first property that passes for the seed. -/
def seedLike (t : DeviceTree) : Option DtProp :=
  (t.children.flatMap fun c => if ascii "chosen" <+: c.name then c.allProps else []).find?
    looksLikeSeed

/-- The seed of `/chosen`: its property `kaslr-seed` of 8 bytes. -/
def seed (t : DeviceTree) : Option DtProp :=
  (t.children.find? fun c => c.name = ascii "chosen").bind fun c =>
    c.props.find? fun p => p.name = ascii "kaslr-seed" && p.value.length = 8

/-- The root is as the specification has it, with cell sizes 1 or 2, and the `reg` of a child that
passes for a memory node has an entry. -/
structure RootOk (t : DeviceTree) : Prop where
  unique : UniqueNames t.props
  cells : ∀ p ∈ t.props,
    p.name = ascii "#address-cells" ∨ p.name = ascii "#size-cells" → p.value.length = 4
  sizes : OneOrTwo t.rootCells
  regs : ∀ c ∈ t.children, looksLikeMemory c.name = true → RegHolds c.props t.rootCells

/-- A node that passes for the memory node has the base and size of the memory node. -/
def MemoryPlain (t : DeviceTree) : Prop :=
  ∀ m c, t.memoryNode isMemoryName = some m → t.memoryNode looksLikeMemory = some c →
    t.baseAndSize c = t.baseAndSize m

/-- The property that passes for the seed has the number of the seed, which is 0 without one. -/
def SeedPlain (t : DeviceTree) : Prop :=
  (t.seedLike.elim 0 fun p => ofBe p.value) = t.seed.elim 0 fun p => ofBe p.value

/-! ## From pre-order to the children of the root -/

section Preorder

variable {γ : Type} {enter : DtEntry γ → γ}

theorem mem_forestPreorder {ctx : γ} {e : DtEntry γ} {ts : List DeviceTree} :
    e ∈ forestPreorder enter ctx ts ↔ ∃ t ∈ ts, e ∈ t.preorder enter ctx := by
  induction ts with
  | nil => simp [forestPreorder]
  | cons t ts ih => rw [forestPreorder, List.mem_append, ih, List.exists_mem_cons_iff]

end Preorder

theorem depth_le_of_mem (t : DeviceTree) {d : ℕ} {ctx : RootCtx} (hctx : d ≤ ctx.depth) :
    ∀ e ∈ t.preorder DtEntry.enterRoot ctx, d ≤ e.ctx.depth := by
  induction t using DeviceTree.induct generalizing ctx with
  | node name props children ih =>
    rw [preorder, List.forall_mem_cons]
    refine ⟨hctx, fun e he => ?_⟩
    obtain ⟨c, hc, he⟩ := mem_forestPreorder.mp he
    exact ih c hc (Nat.le_succ_of_le hctx) e he

theorem findSome?_memoryFound_deep {ctx : RootCtx} (hctx : 2 ≤ ctx.depth) (t : DeviceTree) :
    (t.preorder DtEntry.enterRoot ctx).findSome? DtEntry.memoryFound = none := by
  rw [List.findSome?_eq_none_iff]
  intro e he
  rw [DtEntry.memoryFound, DtEntry.passesForMemory_of_deep (depth_le_of_mem t hctx e he)]
  rfl

theorem findSome?_memoryFound_child (cells : ℕ × ℕ) (c : DeviceTree) :
    (c.preorder DtEntry.enterRoot ⟨1, cells⟩).findSome? DtEntry.memoryFound =
      if looksLikeMemory c.name then
        (propNamed c.props "reg").map fun reg => decodeReg cells reg.value else none := by
  obtain ⟨name, props, children⟩ := c
  have hdeep : (children.findSome? fun c => (c.preorder DtEntry.enterRoot
      (DtEntry.enterRoot ⟨⟨1, cells⟩, name, props⟩)).findSome? DtEntry.memoryFound) = none := by
    rw [List.findSome?_eq_none_iff]
    exact fun c _ => findSome?_memoryFound_deep le_rfl c
  rw [findSome?_preorder, findSome?_forestPreorder, hdeep, Option.or_none]
  rfl

theorem findSome?_eq_find?_bind {ι β : Type} (P : ι → Bool) (f : ι → Option β) (l : List ι) :
    (l.findSome? fun a => if P a then f a else none) =
      (l.find? fun a => P a && (f a).isSome).bind f := by
  induction l with
  | nil => rfl
  | cons a l ih =>
    rw [List.findSome?_cons, List.find?_cons]
    cases P a with
    | false => exact ih
    | true =>
      rcases hfa : f a with _ | x
      · exact ih
      · exact hfa.symm

theorem findSome?_memoryFound (t : DeviceTree) :
    (t.preorder DtEntry.enterRoot ⟨0, (2, 1)⟩).findSome? DtEntry.memoryFound =
      t.memoryReg looksLikeMemory := by
  obtain ⟨name, props, children⟩ := t
  rw [findSome?_preorder, findSome?_forestPreorder]
  have hroot : DtEntry.memoryFound ⟨⟨0, (2, 1)⟩, name, props⟩ = none := rfl
  rw [hroot, Option.none_or, memoryReg, memoryNode,
    ← findSome?_eq_find?_bind fun c : DeviceTree => looksLikeMemory c.name]
  exact congrArg (children.findSome? ·) (funext (findSome?_memoryFound_child _))

/-- The number in the first property of a list that passes for the seed. -/
def seedIn (props : List DtProp) : Option ℕ :=
  (props.find? looksLikeSeed).map fun p => ofBe p.value

theorem seedIn_append (props props' : List DtProp) :
    seedIn (props ++ props') = (seedIn props).or (seedIn props') := by
  rw [seedIn, List.find?_append, Option.map_or]
  rfl

theorem seedIn_flatMap (f : DeviceTree → List DtProp) (ts : List DeviceTree) :
    seedIn (ts.flatMap f) = ts.findSome? fun t => seedIn (f t) := by
  induction ts with
  | nil => rfl
  | cons t ts ih =>
    rw [List.flatMap_cons, seedIn_append, ih, List.findSome?_cons]
    cases seedIn (f t) <;> rfl

theorem forestProps_eq (ts : List DeviceTree) : forestProps ts = ts.flatMap allProps := by
  induction ts with
  | nil => rfl
  | cons t ts ih => rw [forestProps, ih, List.flatMap_cons]

theorem findSome?_congr {ι β : Type} {f g : ι → Option β} {l : List ι} (h : ∀ a ∈ l, f a = g a) :
    l.findSome? f = l.findSome? g := by
  induction l with
  | nil => rfl
  | cons a l ih =>
    rw [List.forall_mem_cons] at h
    rw [List.findSome?_cons, List.findSome?_cons, h.1, ih h.2]

theorem findSome?_seedFound_below (t : DeviceTree) {ctx : ChosenCtx} (hctx : 1 ≤ ctx.depth) :
    (t.preorder DtEntry.enterChosen ctx).findSome? DtEntry.seedFound =
      if DtEntry.passesForChosen ⟨ctx, t.name, t.props⟩ then seedIn t.allProps else none := by
  induction t using DeviceTree.induct generalizing ctx with
  | node name props children ih =>
    have hnext : 1 ≤ (DtEntry.enterChosen ⟨ctx, name, props⟩).depth := Nat.le_add_left ..
    -- the children of this node are no children of the root
    have hflag (c : DeviceTree) : DtEntry.passesForChosen
        ⟨DtEntry.enterChosen ⟨ctx, name, props⟩, c.name, c.props⟩ =
          DtEntry.passesForChosen ⟨ctx, name, props⟩ :=
      if_neg (by rw [DtEntry.enterChosen]; dsimp only; omega)
    rw [findSome?_preorder, findSome?_forestPreorder, findSome?_congr fun c hc => ih c hc hnext,
      DtEntry.seedFound]
    simp only [hflag]
    show _ = if DtEntry.passesForChosen ⟨ctx, name, props⟩ then seedIn (props ++ forestProps children)
      else none
    rw [seedIn_append, forestProps_eq, seedIn_flatMap]
    cases DtEntry.passesForChosen ⟨ctx, name, props⟩ with
    | false =>
      simp only [Bool.false_eq_true, if_false, Option.none_or]
      exact List.findSome?_eq_none_iff.mpr fun _ _ => rfl
    | true =>
      simp only [if_true]
      rfl

theorem findSome?_seedFound (t : DeviceTree) :
    (t.preorder DtEntry.enterChosen ⟨0, false⟩).findSome? DtEntry.seedFound =
      t.seedLike.map fun p => ofBe p.value := by
  obtain ⟨name, props, children⟩ := t
  have hroot : DtEntry.seedFound ⟨⟨0, false⟩, name, props⟩ = none := rfl
  rw [findSome?_preorder, findSome?_forestPreorder, hroot, Option.none_or,
    findSome?_congr fun c _ => findSome?_seedFound_below c le_rfl]
  show _ = seedIn (children.flatMap _)
  rw [seedIn_flatMap]
  refine findSome?_congr fun c _ => ?_
  show (if decide (ascii "chosen" <+: c.name) = true then seedIn c.allProps else none) = _
  by_cases hname : ascii "chosen" <+: c.name
  · rw [if_pos (decide_eq_true hname), if_pos hname]
  · rw [if_neg (by simpa using hname), if_neg hname]
    rfl

theorem RootOk.memoryOk {t : DeviceTree} (h : t.RootOk) :
    ∀ e ∈ t.preorder DtEntry.enterRoot ⟨0, (2, 1)⟩, e.MemoryOk := by
  obtain ⟨name, props, children⟩ := t
  rw [preorder, List.forall_mem_cons]
  refine ⟨⟨fun _ => h.unique, fun _ => h.cells, fun hpass => ?_⟩, ?_⟩
  · cases hpass
  intro e he
  obtain ⟨c, hc, he⟩ := mem_forestPreorder.mp he
  have hregs := h.regs c hc
  obtain ⟨cname, cprops, cchildren⟩ := c
  rw [preorder, List.mem_cons] at he
  rcases he with rfl | he
  · exact ⟨fun h0 => absurd h0 one_ne_zero, fun h0 => absurd h0 one_ne_zero,
      fun hpass => ⟨h.sizes, hregs (Bool.and_eq_true_iff.mp hpass).2⟩⟩
  · obtain ⟨c, -, he⟩ := mem_forestPreorder.mp he
    exact DtEntry.memoryOk_of_deep (depth_le_of_mem c le_rfl e he)

theorem looksLikeMemory_of_isMemoryName {name : List UInt8} (h : isMemoryName name = true) :
    looksLikeMemory name = true := by
  rw [isMemoryName, Bool.or_eq_true, decide_eq_true_eq, decide_eq_true_eq] at h
  rw [looksLikeMemory, decide_eq_true_eq]
  rcases h with rfl | h
  · exact List.prefix_rfl
  · exact List.IsPrefix.trans (by decide) h

theorem memoryReg_agrees_iff (t : DeviceTree) :
    (∀ reg, t.memoryReg isMemoryName = some reg → t.memoryReg looksLikeMemory = some reg) ↔
      t.MemoryPlain := by
  constructor
  · intro h m c hm hc
    obtain ⟨reg, hreg⟩ : ∃ reg, t.baseAndSize m = some reg := by
      have hfound := List.find?_some hm
      rw [Bool.and_eq_true, Option.isSome_iff_exists] at hfound
      exact hfound.2
    have hlooks := h reg (by rw [memoryReg, hm, Option.bind_some, hreg])
    rw [memoryReg, hc, Option.bind_some] at hlooks
    rw [hlooks, hreg]
  · intro h reg hreg
    obtain ⟨m, hm, hmreg⟩ := Option.bind_eq_some_iff.mp hreg
    -- the memory node itself passes, so some node does
    obtain ⟨c, hc⟩ : ∃ c, t.memoryNode looksLikeMemory = some c := by
      rw [← Option.isSome_iff_exists, memoryNode, List.find?_isSome]
      have hfound := List.find?_some hm
      rw [Bool.and_eq_true] at hfound
      exact ⟨m, List.mem_of_find?_eq_some hm,
        Bool.and_eq_true_iff.mpr ⟨looksLikeMemory_of_isMemoryName hfound.1, hfound.2⟩⟩
    rw [memoryReg, hc, Option.bind_some, h m c hm hc, hmreg]

end DeviceTree

/-- The end of `early_scan_mem` that finds no memory. -/
def noMemory : WalkEnd (ℕ × ℕ) := .panicked "FDT early_scan_mem: /memory node not found"

/-- **What `early_scan_mem` gives.** -/
theorem earlyScanMem_eq {b : FdtBlob} {t : DeviceTree} (h : b.Encodes t) (hroot : t.RootOk) :
    ∃ fuel, fdtWalk earlyScanMem b fuel =
      some (some ((t.memoryReg looksLikeMemory).elim noMemory .returned)) := by
  have hinit : MemScan.Between ⟨0, (2, 1)⟩ earlyScanMem.init := ⟨rfl, rfl⟩
  have hend (dtStrings : ℕ) (s : MemScan) :
      earlyScanMem.onToken b dtStrings s .fdtEnd = some (.inr noMemory) := rfl
  obtain ⟨-, htotal⟩ := Scans.walk_eq h (earlyScanMem_scans b) (fun _ _ => rfl) hend hinit
    hroot.memoryOk
  rw [← t.findSome?_memoryFound]
  exact htotal fun _ _ => trivial

/-- **What `early_scan_kaslr` gives.** -/
theorem earlyScanKaslr_eq {b : FdtBlob} {t : DeviceTree} (h : b.Encodes t) :
    ∃ fuel, fdtWalk earlyScanKaslr b fuel =
      some (some (.returned (t.seedLike.elim 0 fun p => ofBe p.value))) := by
  have hinit : KaslrScan.Between ⟨0, false⟩ earlyScanKaslr.init := ⟨rfl, fun _ => rfl⟩
  have hend (dtStrings : ℕ) (s : KaslrScan) :
      earlyScanKaslr.onToken b dtStrings s .fdtEnd = some (.inr (.returned 0)) := rfl
  obtain ⟨-, htotal⟩ := Scans.walk_eq h (earlyScanKaslr_scans b) (fun _ _ => rfl) hend hinit
    fun _ _ => trivial
  obtain ⟨fuel, hwalk⟩ := htotal fun _ _ => trivial
  refine ⟨fuel, hwalk.trans ?_⟩
  rw [t.findSome?_seedFound]
  cases t.seedLike <;> rfl

/-- **The early scans** return the memory and the seed that the tree has, if what they take for a
memory node and for the seed is as good as those, and only then. -/
theorem early_scans_agree_iff {b : FdtBlob} {t : DeviceTree} (h : b.Encodes t) (hroot : t.RootOk) :
    ((∀ reg, t.memoryReg isMemoryName = some reg →
        ∃ fuel, fdtWalk earlyScanMem b fuel = some (some (.returned reg))) ∧
      ∃ fuel, fdtWalk earlyScanKaslr b fuel =
        some (some (.returned (t.seed.elim 0 fun p => ofBe p.value)))) ↔
    t.MemoryPlain ∧ t.SeedPlain := by
  have hmem (reg : ℕ × ℕ) :
      (∃ fuel, fdtWalk earlyScanMem b fuel = some (some (.returned reg))) ↔
        t.memoryReg looksLikeMemory = some reg := by
    rw [FdtWalker.fdtWalk_iff (earlyScanMem_eq h hroot)]
    rcases t.memoryReg looksLikeMemory with _ | found
    · simp [noMemory]
    · simp
  have hseed (n : ℕ) : (∃ fuel, fdtWalk earlyScanKaslr b fuel = some (some (.returned n))) ↔
      (t.seedLike.elim 0 fun p => ofBe p.value) = n := by
    rw [FdtWalker.fdtWalk_iff (earlyScanKaslr_eq h)]
    simp
  simp only [hmem, hseed]
  rw [t.memoryReg_agrees_iff, DeviceTree.SeedPlain]

/-- A tree with a memory controller before the memory, and with an older seed before the seed. -/
def divertingTree : DeviceTree :=
  .node [] []
    [.node (ascii "memory-controller@2010000") [⟨ascii "reg", toBe 8 0x2010000 ++ toBe 4 0x1000⟩] [],
      .node (ascii "memory@80000000") [⟨ascii "reg", toBe 8 0x80000000 ++ toBe 4 0x8000000⟩] [],
      .node (ascii "chosen") [⟨ascii "kaslr-seed-old", toBe 8 1⟩, ⟨ascii "kaslr-seed", toBe 8 2⟩] []]

/-- A tree without such nodes and properties in front. -/
def plainTree : DeviceTree :=
  .node [] []
    [.node (ascii "cpus") [] [.node (ascii "memory@0") [⟨ascii "reg", toBe 4 0⟩] []],
      .node (ascii "memory@80000000") [⟨ascii "reg", toBe 8 0x80000000 ++ toBe 4 0x8000000⟩] [],
      .node (ascii "chosen") [⟨ascii "kaslr-seed", toBe 8 2⟩, ⟨ascii "kaslr-seed-old", toBe 8 1⟩] []]

/-- The names of their properties. -/
def scanNames : List (List UInt8) := [ascii "reg", ascii "kaslr-seed-old", ascii "kaslr-seed"]

theorem rootOk_of_no_props {t : DeviceTree} (hprops : t.props = [])
    (hregs : ∀ c ∈ t.children, looksLikeMemory c.name = true → RegHolds c.props (2, 1)) :
    t.RootOk := by
  have hcells : t.rootCells = (2, 1) := by
    rw [DeviceTree.rootCells, hprops]
    rfl
  refine ⟨?_, ?_, ?_, ?_⟩
  · rw [hprops]
    exact List.nodup_nil
  · rw [hprops]
    exact fun p hp => absurd hp List.not_mem_nil
  · rw [hcells]
    decide
  · rw [hcells]
    exact hregs

theorem early_scans_agree_plain : (plainTree.flatten scanNames).Encodes plainTree ∧
    (∃ fuel, fdtWalk earlyScanMem (plainTree.flatten scanNames) fuel =
      some (some (.returned (0x80000000, 0x8000000)))) ∧
    ∃ fuel, fdtWalk earlyScanKaslr (plainTree.flatten scanNames) fuel =
      some (some (.returned 2)) := by
  have henc : (plainTree.flatten scanNames).Encodes plainTree :=
    DeviceTree.flatten_encodes (by decide +kernel) (by decide +kernel)
  have hroot : plainTree.RootOk := rootOk_of_no_props rfl (by decide +kernel)
  have hmem : plainTree.MemoryPlain := by
    rw [← DeviceTree.memoryReg_agrees_iff]
    decide +kernel
  have hplain : plainTree.SeedPlain := by
    rw [DeviceTree.SeedPlain]
    decide +kernel
  obtain ⟨hscan, hseed⟩ := (early_scans_agree_iff henc hroot).mpr ⟨hmem, hplain⟩
  exact ⟨henc, hscan _ (by decide +kernel), hseed⟩

/-- **The memory controller is taken for the memory** and the older seed for the seed. -/
theorem memory_controller_diverts :
    (divertingTree.flatten scanNames).Encodes divertingTree ∧ divertingTree.RootOk ∧
    divertingTree.memoryReg isMemoryName = some (0x80000000, 0x8000000) ∧
    (∃ fuel, fdtWalk earlyScanMem (divertingTree.flatten scanNames) fuel =
      some (some (.returned (0x2010000, 0x1000)))) ∧
    (divertingTree.seed.elim 0 fun p => ofBe p.value) = 2 ∧
    ∃ fuel, fdtWalk earlyScanKaslr (divertingTree.flatten scanNames) fuel =
      some (some (.returned 1)) := by
  have henc : (divertingTree.flatten scanNames).Encodes divertingTree :=
    DeviceTree.flatten_encodes (by decide +kernel) (by decide +kernel)
  have hroot : divertingTree.RootOk := rootOk_of_no_props rfl (by decide +kernel)
  exact ⟨henc, hroot, by decide +kernel, earlyScanMem_eq henc hroot, by decide +kernel,
    earlyScanKaslr_eq henc⟩

end Lume
