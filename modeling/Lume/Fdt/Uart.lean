import Lume.Fdt.Scanning
import Lume.Fdt.Values

/-!
# The early scan for the UART

`early_scan_uart` goes over the tokens once, with the cell sizes of each depth in two arrays and
what it knows about the current node in two flags. In front of a node the arrays have the cell
sizes of its ancestors, and the flags stand for the properties of the node that have been seen. So
the scan is a search in pre-order. It decodes the `reg` of every node, also of one that is no UART,
with the cell sizes in force at its parent; only for the UART do they have to be 1 or 2.

## Main definitions

* `CellStack`: the cell sizes of the ancestors of a node
* `hasCompatible`, `uartReg`: whether a node is the UART, and its address and size
* `PropsOk`, `RegFits`: what the specification asks of the properties of a node

## Main results

* `UartScan.Ready.step`: what the scan does with a property
* `earlyScanUart_scans`: the scan is a search in pre-order
-/

namespace Lume

/-- The name `ns16550a`. -/
def kUartCompatible : List UInt8 := ascii "ns16550a"

/-! ## The answer in the tree -/

/-- The cell sizes in force at the ancestors of a node, those of its parent first. -/
abbrev CellStack := List (ℕ × ℕ)

namespace DtEntry

variable (e : DtEntry CellStack)

/-- The cell sizes in force at the parent; the root has those of the specification. -/
def parentCells : ℕ × ℕ := e.ctx.head?.getD (2, 1)

/-- The cell sizes in force at the node: those it sets, and those of its parent otherwise. -/
def ownCells : ℕ × ℕ :=
  (cellProp e.props "#address-cells" e.parentCells.1, cellProp e.props "#size-cells" e.parentCells.2)

/-- What a node hands on to its children. -/
def enterCells : CellStack := e.ownCells :: e.ctx

end DtEntry

/-- The node is compatible with the given name. -/
def hasCompatible (props : List DtProp) (name : List UInt8) : Bool :=
  (propNamed props "compatible").any fun p => name ∈ strings p.value

/-- The address and size of a UART. -/
def uartReg (e : DtEntry CellStack) : Option (ℕ × ℕ) :=
  if hasCompatible e.props kUartCompatible then
    (propNamed e.props "reg").map fun reg => decodeReg e.parentCells reg.value
  else none

section Named

variable {p : DtProp} {props : List DtProp} {name : String}

theorem propNamed_cons_self (h : p.name = ascii name) : propNamed (p :: props) name = some p :=
  List.find?_cons_of_pos (by simp [h])

theorem propNamed_cons_of_ne (h : p.name ≠ ascii name) :
    propNamed (p :: props) name = propNamed props name :=
  List.find?_cons_of_neg (by simp [h])

theorem UniqueNames.propNamed_tail (h : UniqueNames (p :: props)) (hp : p.name = ascii name) :
    propNamed props name = none := by
  rw [propNamed, List.find?_eq_none]
  intro q hq hname
  rw [UniqueNames, List.map_cons, List.nodup_cons] at h
  refine h.1 (List.mem_map.mpr ⟨q, hq, ?_⟩)
  rw [hp]
  exact of_decide_eq_true hname

theorem UniqueNames.tail (h : UniqueNames (p :: props)) : UniqueNames props := by
  rw [UniqueNames, List.map_cons, List.nodup_cons] at h
  exact h.2

end Named

/-- The properties of a node are as the specification has them. -/
structure PropsOk (props : List DtProp) : Prop where
  unique : UniqueNames props
  cells : ∀ p ∈ props, p.name = ascii "#address-cells" ∨ p.name = ascii "#size-cells" →
    p.value.length = 4
  compatible : ∀ p ∈ props, p.name = ascii "compatible" → NulTerminated p.value

instance (value : List UInt8) : Decidable (NulTerminated value) :=
  inferInstanceAs (Decidable (∀ c ∈ value.getLast?, c = 0))

instance (props : List DtProp) : Decidable (UniqueNames props) :=
  inferInstanceAs (Decidable (List.Nodup _))

instance (props : List DtProp) : Decidable (PropsOk props) :=
  decidable_of_iff (UniqueNames props ∧
      (∀ p ∈ props, p.name = ascii "#address-cells" ∨ p.name = ascii "#size-cells" →
        p.value.length = 4) ∧
      ∀ p ∈ props, p.name = ascii "compatible" → NulTerminated p.value)
    ⟨fun h => ⟨h.1, h.2.1, h.2.2⟩, fun h => ⟨h.unique, h.cells, h.compatible⟩⟩

theorem PropsOk.tail {p : DtProp} {props : List DtProp} (h : PropsOk (p :: props)) :
    PropsOk props where
  unique := h.unique.tail
  cells q hq := h.cells q (List.mem_cons_of_mem _ hq)
  compatible q hq := h.compatible q (List.mem_cons_of_mem _ hq)

/-- A `reg` has at least one entry. -/
def RegHolds (props : List DtProp) (parent : ℕ × ℕ) : Prop :=
  ∀ reg, propNamed props "reg" = some reg → 4 * (parent.1 + parent.2) ≤ reg.value.length

instance (props : List DtProp) (parent : ℕ × ℕ) : Decidable (RegHolds props parent) :=
  inferInstanceAs (Decidable (∀ reg ∈ propNamed props "reg", _ ≤ _))

/-- A `reg` is in a node that has a parent, and has at least one entry. -/
def RegFits (ctx : CellStack) (parent : ℕ × ℕ) (props : List DtProp) : Prop :=
  ∀ reg, propNamed props "reg" = some reg →
    ctx ≠ [] ∧ 4 * (parent.1 + parent.2) ≤ reg.value.length

instance (ctx : CellStack) (parent : ℕ × ℕ) (props : List DtProp) :
    Decidable (RegFits ctx parent props) :=
  inferInstanceAs (Decidable (∀ reg ∈ propNamed props "reg", _ ≠ _ ∧ _ ≤ _))

/-- Sizes that `read_cells` can read. -/
def OneOrTwo (sizes : ℕ × ℕ) : Prop :=
  (sizes.1 = 1 ∨ sizes.1 = 2) ∧ (sizes.2 = 1 ∨ sizes.2 = 2)

instance (sizes : ℕ × ℕ) : Decidable (OneOrTwo sizes) :=
  inferInstanceAs (Decidable ((_ ∨ _) ∧ (_ ∨ _)))

section Cons

variable {p : DtProp} {props : List DtProp} {name : String} {parent : ℕ × ℕ}

theorem hasCompatible_cons_of_ne (h : p.name ≠ ascii "compatible") (compat : List UInt8) :
    hasCompatible (p :: props) compat = hasCompatible props compat := by
  rw [hasCompatible, propNamed_cons_of_ne h, hasCompatible]

theorem regHolds_cons_of_ne (h : p.name ≠ ascii "reg") :
    RegHolds (p :: props) parent ↔ RegHolds props parent := by
  rw [RegHolds, propNamed_cons_of_ne h, RegHolds]

theorem cellProp_cons_of_ne (h : p.name ≠ ascii name) (d : ℕ) :
    cellProp (p :: props) name d = cellProp props name d := by
  rw [cellProp, propNamed_cons_of_ne h, cellProp]

theorem UniqueNames.cellProp_cons (h : UniqueNames (p :: props)) (hp : p.name = ascii name) (d : ℕ) :
    cellProp (p :: props) name d = cellProp props name (ofBe (p.value.take 4)) := by
  rw [cellProp, propNamed_cons_self hp, cellProp, h.propNamed_tail hp]
  rfl

theorem RegFits.tail {ctx : CellStack} (h : RegFits ctx parent (p :: props))
    (hu : UniqueNames (p :: props)) : RegFits ctx parent props := by
  intro reg hreg
  by_cases hp : p.name = ascii "reg"
  · rw [hu.propNamed_tail hp] at hreg
    cases hreg
  · exact h reg (by rwa [propNamed_cons_of_ne hp])

/-- The cell sizes at a node, after the rest of its properties. -/
def cellsFrom (own : ℕ × ℕ) (props : List DtProp) : ℕ × ℕ :=
  (cellProp props "#address-cells" own.1, cellProp props "#size-cells" own.2)

theorem cellsFrom_address {own : ℕ × ℕ} (hp : p.name = ascii "#address-cells") :
    cellsFrom own [p] = (ofBe (p.value.take 4), own.2) := by
  rw [cellsFrom, cellProp, propNamed_cons_self hp, cellProp_cons_of_ne (by rw [hp]; decide)]
  rfl

theorem cellsFrom_size {own : ℕ × ℕ} (hp : p.name = ascii "#size-cells") :
    cellsFrom own [p] = (own.1, ofBe (p.value.take 4)) := by
  rw [cellsFrom, cellProp_cons_of_ne (by rw [hp]; decide), cellProp, cellProp,
    propNamed_cons_self hp]
  rfl

theorem cellsFrom_of_ne {own : ℕ × ℕ} (ha : p.name ≠ ascii "#address-cells") (hz : p.name ≠ ascii "#size-cells") :
    cellsFrom own [p] = own := by
  rw [cellsFrom, cellProp_cons_of_ne ha, cellProp_cons_of_ne hz]
  rfl

theorem UniqueNames.cellsFrom_cons (hu : UniqueNames (p :: props)) (own : ℕ × ℕ) :
    cellsFrom own (p :: props) = cellsFrom (cellsFrom own [p]) props := by
  have hone (name : String) (d : ℕ) :
      cellProp (p :: props) name d = cellProp props name (cellProp [p] name d) := by
    by_cases hp : p.name = ascii name
    · rw [hu.cellProp_cons hp, cellProp, cellProp, cellProp, propNamed_cons_self hp,
        hu.propNamed_tail hp]
      rfl
    · rw [cellProp_cons_of_ne hp, cellProp_cons_of_ne hp]
      rfl
  rw [cellsFrom, cellsFrom, cellsFrom, hone, hone]

end Cons

namespace UartScan

variable {b : FdtBlob} {dtStrings len nameoff val : ℕ} {s : UartScan} {p : DtProp}

theorem onToken_prop (hmeans : FdtToken.Means b dtStrings (.prop p) (.prop len nameoff val))
    (hdepth : 0 ≤ s.depth ∧ s.depth < 16) : onToken b dtStrings s (.prop len nameoff val) =
      if p.name = ascii "#address-cells" then
        (b.be32 val).map fun n => .inl { s with cells := s.cells.setAddressCells s.depth n }
      else if p.name = ascii "#size-cells" then
        (b.be32 val).map fun n => .inl { s with cells := s.cells.setSizeCells s.depth n }
      else if p.name = ascii "compatible" then
        (propContainsString (b.text val) p.value.length kUartCompatible).map fun found =>
          if found then
            s.nodeReg.elim (.inl { s with inUartNode := true }) fun reg => .inr (.returned reg)
          else .inl s else if p.name = ascii "reg" then
        (s.cells.readReg b val s.depth).map fun reg =>
          if s.inUartNode then .inr (.returned reg) else .inl { s with nodeReg := some reg }
      else some (.inl s) := by
  obtain ⟨hname, rfl, -⟩ := hmeans
  rw [onToken, if_pos hdepth]
  simp only [hname.equals (by decide : 0 ∉ ascii "#address-cells"),
    hname.equals (by decide : 0 ∉ ascii "#size-cells"),
    hname.equals (by decide : 0 ∉ ascii "compatible"),
    hname.equals (by decide : 0 ∉ ascii "reg"), Option.bind_eq_bind, Option.bind_some,
    decide_eq_true_eq]
  refine ite_congr rfl (fun _ => ?_) fun _ => ite_congr rfl (fun _ => ?_) fun _ =>
    ite_congr rfl (fun _ => ?_) fun _ => ite_congr rfl (fun _ => ?_) fun _ => rfl
  · cases b.be32 val <;> rfl
  · cases b.be32 val <;> rfl
  · rw [kUartCompatible]
    rcases propContainsString (b.text val) p.value.length (ascii "ns16550a") with _ | _ | _
    · rfl
    · rfl
    · cases s.nodeReg <;> rfl
  · rcases s.cells.readReg b val s.depth with _ | reg
    · rfl
    · cases s.inUartNode <;> rfl

/-- In front of a node whose ancestors have the given cell sizes: the arrays have them at the depths
of the ancestors. -/
structure Between (ctx : CellStack) (s : UartScan) : Prop where
  depth : s.depth = ctx.length - 1
  cells : ∀ j < ctx.length, ctx.reverse[j]? = some (s.cells.atDepth j)
  root : ctx = [] → s.cells.atDepth 0 = (2, 1)

variable {ctx : CellStack} {own parent : ℕ × ℕ}

theorem reverse_getElem? {own : ℕ × ℕ} {ctx : CellStack} {j : ℕ} (hj : j < ctx.length + 1) :
    (own :: ctx).reverse[j]? = if j = ctx.length then some own else ctx.reverse[j]? := by
  rw [List.reverse_cons]
  split
  · rename_i he
    rw [he, List.getElem?_append_right (by simp), List.length_reverse, Nat.sub_self]
    rfl
  · rename_i hne
    rw [List.getElem?_append_left (by rw [List.length_reverse]; omega)]

namespace Between

theorem depth_eq (h : Between (own :: ctx) s) : s.depth = ctx.length := by
  rw [h.depth, List.length_cons]
  omega

theorem own_eq (h : Between (own :: ctx) s) : s.cells.atDepth ctx.length = own := by
  have hlast := h.cells ctx.length (Nat.lt_succ_self _)
  rw [reverse_getElem? (Nat.lt_succ_self _), if_pos rfl] at hlast
  exact (Option.some.inj hlast).symm

theorem parent_eq (h : Between (own :: parent :: ctx) s) :
    s.cells.atDepth (s.depth - 1).toNat = parent := by
  have hindex : (s.depth - 1).toNat = ctx.length := by
    rw [h.depth_eq, List.length_cons]
    omega
  have hlast := h.cells ctx.length (by simp only [List.length_cons]; omega)
  rw [reverse_getElem? (by simp only [List.length_cons]; omega), if_neg (by simp),
    reverse_getElem? (Nat.lt_succ_self _), if_pos rfl] at hlast
  rw [hindex]
  exact (Option.some.inj hlast).symm

theorem setOwn {own' : ℕ × ℕ} {s' : UartScan} (h : Between (own :: ctx) s)
    (hdepth : s'.depth = s.depth) (hown : s'.cells.atDepth ctx.length = own')
    (hcells : ∀ j < ctx.length, s'.cells.atDepth j = s.cells.atDepth j) :
    Between (own' :: ctx) s' where
  depth := hdepth.trans h.depth
  cells := by
    intro j hj
    have hold := h.cells j hj
    rw [List.length_cons] at hj
    rw [reverse_getElem? hj] at hold ⊢
    split
    · rename_i he
      rw [he, hown]
    · rename_i hne
      rw [if_neg hne] at hold
      rw [hold, hcells j (by omega)]
  root := fun hnil => absurd hnil (List.cons_ne_nil _ _)

theorem setAddressCells (h : Between (own :: ctx) s) (n : ℕ) :
    Between ((n, own.2) :: ctx) { s with cells := s.cells.setAddressCells s.depth n } := by
  refine h.setOwn rfl ?_ fun j hj => ?_
  · rw [CellSizes.atDepth_setAddressCells, if_pos (by rw [h.depth_eq]; rfl), h.own_eq]
  · rw [CellSizes.atDepth_setAddressCells, if_neg (by rw [h.depth_eq]; exact hj.ne)]

theorem setSizeCells (h : Between (own :: ctx) s) (n : ℕ) :
    Between ((own.1, n) :: ctx) { s with cells := s.cells.setSizeCells s.depth n } := by
  refine h.setOwn rfl ?_ fun j hj => ?_
  · rw [CellSizes.atDepth_setSizeCells, if_pos (by rw [h.depth_eq]; rfl), h.own_eq]
  · rw [CellSizes.atDepth_setSizeCells, if_neg (by rw [h.depth_eq]; exact hj.ne)]

theorem setFlags (h : Between ctx s) (u : Bool) (r : Option (ℕ × ℕ)) :
    Between ctx { s with inUartNode := u, nodeReg := r } :=
  ⟨h.depth, h.cells, h.root⟩

theorem enter (h : Between ctx s) (hlt : ctx.length < 16) (u : Bool) (r : Option (ℕ × ℕ)) :
    Between (ctx.head?.getD (2, 1) :: ctx) ⟨s.depth + 1, s.cells.inherit (s.depth + 1), u, r⟩ := by
  have hdepth : s.depth + 1 = ctx.length := by
    rw [h.depth]
    omega
  refine ⟨?_, fun j hj => ?_, fun hnil => absurd hnil (List.cons_ne_nil _ _)⟩
  · show s.depth + 1 = ((ctx.length + 1 : ℕ) : ℤ) - 1
    omega
  · rw [List.length_cons] at hj
    rw [reverse_getElem? hj, CellSizes.atDepth_inherit, hdepth, Int.toNat_natCast]
    by_cases he : j = ctx.length
    · rw [if_pos he]
      cases ctx with
      | nil =>
        rw [if_neg (by simp), he]
        exact congrArg some (h.root rfl).symm
      | cons parent ctx =>
        rw [if_pos ⟨by simp only [List.length_cons]; omega, by exact_mod_cast hlt, he⟩]
        exact congrArg some h.own_eq.symm
    · rw [if_neg he, if_neg fun hall => he hall.2.2]
      exact h.cells j (by omega)

theorem leave (h : Between (own :: ctx) s) (hne : ctx ≠ []) (u : Bool) (r : Option (ℕ × ℕ)) :
    Between ctx ⟨if 0 ≤ s.depth then s.depth - 1 else s.depth, s.cells, u, r⟩ where
  depth := by
    rw [if_pos (by rw [h.depth_eq]; omega), h.depth_eq]
  cells := by
    intro j hj
    have hold := h.cells j (Nat.lt_succ_of_lt hj)
    rwa [reverse_getElem? (Nat.lt_succ_of_lt hj), if_neg hj.ne] at hold
  root := fun hnil => absurd hnil hne

end Between

/-- What is found in the rest of the properties of a node, after some of them have set the flags. -/
def foundFrom (s : UartScan) (parent : ℕ × ℕ) (props : List DtProp) : Option (ℕ × ℕ) :=
  if s.inUartNode || hasCompatible props kUartCompatible then
    s.nodeReg.or ((propNamed props "reg").map fun reg => decodeReg parent reg.value)
  else none

/-- The state in front of the rest of the properties of a node. -/
structure Ready (ctx : CellStack) (parent own : ℕ × ℕ) (s : UartScan) (props : List DtProp) :
    Prop where
  between : Between (own :: ctx) s
  ok : PropsOk props
  /-- a UART has a parent, with sizes that can be read, and its `reg` has an entry -/
  uart : s.inUartNode = true ∨ hasCompatible props kUartCompatible = true →
    (∃ rest, ctx = parent :: rest) ∧ OneOrTwo parent ∧ RegHolds props parent
  flags : s.inUartNode = true → s.nodeReg = none
  reg : s.nodeReg ≠ none → propNamed props "reg" = none

/-- The walk has passed a property. -/
def Passed (ctx : CellStack) (parent own : ℕ × ℕ) (s : UartScan) (p : DtProp) (props : List DtProp)
    (s' : UartScan) : Prop :=
  Ready ctx parent (cellsFrom own [p]) s' props ∧
    s'.foundFrom parent props = s.foundFrom parent (p :: props)

namespace Ready

variable {props : List DtProp} {s' : UartScan}

theorem depth_lt (h : Ready ctx parent own s props) (hlt : ctx.length < 16) :
    0 ≤ s.depth ∧ s.depth < 16 := by
  rw [h.between.depth_eq]
  omega

section

variable (h : Ready ctx parent own s (p :: props))
include h

theorem skip (hc : p.name ≠ ascii "compatible")
    (hr : p.name ≠ ascii "reg") (hs : Between (cellsFrom own [p] :: ctx) s')
    (hu : s'.inUartNode = s.inUartNode) (hn : s'.nodeReg = s.nodeReg) :
    Passed ctx parent own s p props s' := by
  obtain ⟨-, hok, huart, hflags, hreg⟩ := h
  rw [hasCompatible_cons_of_ne hc, regHolds_cons_of_ne hr, ← hu] at huart
  rw [propNamed_cons_of_ne hr, ← hn] at hreg
  rw [← hu, ← hn] at hflags
  refine ⟨⟨hs, hok.tail, huart, hflags, hreg⟩, ?_⟩
  rw [foundFrom, foundFrom, hu, hn, hasCompatible_cons_of_ne hc, propNamed_cons_of_ne hr]

theorem otherCompatible (hp : p.name = ascii "compatible")
    (hno : kUartCompatible ∉ strings p.value) : Passed ctx parent own s p props s := by
  have hr : p.name ≠ ascii "reg" := by
    rw [hp]
    decide
  have hown : cellsFrom own [p] = own :=
    cellsFrom_of_ne (by rw [hp]; decide) (by rw [hp]; decide)
  have hfirst : hasCompatible (p :: props) kUartCompatible = false := by
    rw [hasCompatible, propNamed_cons_self hp]
    simp [hno]
  have hrest : hasCompatible props kUartCompatible = false := by
    rw [hasCompatible, h.ok.unique.propNamed_tail hp]
    rfl
  obtain ⟨hs, hok, huart, hflags, hreg⟩ := h
  rw [hfirst, ← hrest, regHolds_cons_of_ne hr] at huart
  rw [propNamed_cons_of_ne hr] at hreg
  refine ⟨⟨by rwa [hown], hok.tail, huart, hflags, hreg⟩, ?_⟩
  rw [foundFrom, foundFrom, hfirst, hrest, propNamed_cons_of_ne hr]

theorem uartCompatible (hp : p.name = ascii "compatible")
    (hyes : kUartCompatible ∈ strings p.value) (hnone : s.nodeReg = none) :
    Passed ctx parent own s p props { s with inUartNode := true } := by
  have hr : p.name ≠ ascii "reg" := by
    rw [hp]
    decide
  have hown : cellsFrom own [p] = own :=
    cellsFrom_of_ne (by rw [hp]; decide) (by rw [hp]; decide)
  have hfirst : hasCompatible (p :: props) kUartCompatible = true := by
    rw [hasCompatible, propNamed_cons_self hp]
    simp [hyes]
  have huart := h.uart (.inr hfirst)
  rw [regHolds_cons_of_ne hr] at huart
  refine ⟨⟨?_, h.ok.tail, fun _ => huart, fun _ => hnone, fun hne => absurd hnone hne⟩, ?_⟩
  · rw [hown]
    exact h.between.setFlags true s.nodeReg
  · rw [foundFrom, foundFrom, hfirst, propNamed_cons_of_ne hr]
    simp

theorem nodeReg_eq_none (hp : p.name = ascii "reg") : s.nodeReg = none := by
  by_contra hne
  have hnone := h.reg hne
  rw [propNamed_cons_self hp] at hnone
  cases hnone

theorem setReg (hp : p.name = ascii "reg") (hu : s.inUartNode = false) {a : ℕ × ℕ}
    (ha : hasCompatible props kUartCompatible = true → a = decodeReg parent p.value) :
    Passed ctx parent own s p props { s with nodeReg := some a } := by
  have hc : p.name ≠ ascii "compatible" := by
    rw [hp]
    decide
  have hown : cellsFrom own [p] = own :=
    cellsFrom_of_ne (by rw [hp]; decide) (by rw [hp]; decide)
  have hnone := h.nodeReg_eq_none hp
  have htail := h.ok.unique.propNamed_tail hp
  obtain ⟨hs, hok, huart, -, -⟩ := h
  rw [hasCompatible_cons_of_ne hc] at huart
  refine ⟨⟨?_, hok.tail, fun hyes => ?_, fun htrue => ?_, fun _ => htail⟩, ?_⟩
  · rw [hown]
    exact hs.setFlags s.inUartNode (some a)
  · obtain ⟨hctx, hsizes, -⟩ := huart hyes
    refine ⟨hctx, hsizes, fun reg hreg => ?_⟩
    rw [htail] at hreg
    cases hreg
  · exact absurd (hu.symm.trans htrue) (by decide)
  · rw [foundFrom, foundFrom, hasCompatible_cons_of_ne hc, propNamed_cons_self hp, hnone, hu]
    simp only [Bool.false_or]
    refine ite_congr rfl (fun hyes => ?_) fun _ => rfl
    rw [ha hyes]
    rfl

theorem readReg_eq (hp : p.name = ascii "reg")
    (hu : s.inUartNode = true ∨ hasCompatible props kUartCompatible = true) {val : ℕ}
    (hval : p.value <+: b.drop val) :
    s.cells.readReg b val s.depth = some (decodeReg parent p.value) := by
  have hc : p.name ≠ ascii "compatible" := by
    rw [hp]
    decide
  obtain ⟨⟨rest, rfl⟩, hsizes, hlong⟩ := h.uart (by rwa [hasCompatible_cons_of_ne hc])
  exact CellSizes.readReg_eq h.between.parent_eq hsizes.1 hsizes.2 hval
    (hlong p (propNamed_cons_self hp))

/-- **A property**: the walk passes it or has found the answer, unless the `reg` is too short. -/
theorem step (hlt : b.length < 2 ^ 32)
    (hdepth : ctx.length < 16) (hparent : ∀ x ∈ ctx.head?, x = parent)
    (hmeans : FdtToken.Means b dtStrings (.prop p) (.prop len nameoff val))
    (hstop : val + len + 4 ≤ b.length) : (onToken b dtStrings s (.prop len nameoff val) = none ∧
      ¬ RegFits ctx parent (p :: props)) ∨
    (∃ s', onToken b dtStrings s (.prop len nameoff val) = some (.inl s') ∧
      Passed ctx parent own s p props s') ∨
    ∃ a, onToken b dtStrings s (.prop len nameoff val) = some (.inr (.returned a)) ∧
      s.foundFrom parent (p :: props) = some a := by
  rw [onToken_prop hmeans (h.depth_lt hdepth)]
  obtain ⟨-, rfl, hval⟩ := hmeans
  by_cases haddr : p.name = ascii "#address-cells"
  · have hlen := h.ok.cells p (List.mem_cons_self ..) (.inl haddr)
    rw [if_pos haddr, FdtBlob.be32_value hval hlen.ge]
    refine .inr (.inl ⟨_, rfl, h.skip (by rw [haddr]; decide) (by rw [haddr]; decide) ?_ rfl rfl⟩)
    rw [cellsFrom_address haddr]
    exact h.between.setAddressCells _
  rw [if_neg haddr]
  by_cases hsize : p.name = ascii "#size-cells"
  · have hlen := h.ok.cells p (List.mem_cons_self ..) (.inr hsize)
    rw [if_pos hsize, FdtBlob.be32_value hval hlen.ge]
    refine .inr (.inl ⟨_, rfl, h.skip (by rw [hsize]; decide) (by rw [hsize]; decide) ?_ rfl rfl⟩)
    rw [cellsFrom_size hsize]
    exact h.between.setSizeCells _
  rw [if_neg hsize]
  by_cases hcomp : p.name = ascii "compatible"
  · have hvlen : p.value.length < 2 ^ 32 := by omega
    have hnul := h.ok.compatible p (List.mem_cons_self ..) hcomp
    have hcontains := propContainsString_eq hval hvlen hnul (by decide : 0 ∉ kUartCompatible)
    rw [← decide_eq_decide.mpr (hnul.mem_strings (by decide))] at hcontains
    rw [if_pos hcomp, FdtBlob.text, hcontains, Option.map_some]
    by_cases hyes : kUartCompatible ∈ strings p.value
    · rw [if_pos (decide_eq_true hyes)]
      rcases hn : s.nodeReg with _ | a
      · have hpass := h.uartCompatible hcomp hyes hn
        rw [hn] at hpass
        exact .inr (.inl ⟨_, rfl, hpass⟩)
      · refine .inr (.inr ⟨a, rfl, ?_⟩)
        have hfirst : hasCompatible (p :: props) kUartCompatible = true := by
          rw [hasCompatible, propNamed_cons_self hcomp]
          simp [hyes]
        rw [foundFrom, hfirst, hn]
        simp
    · rw [if_neg (by simp [hyes])]
      exact .inr (.inl ⟨s, rfl, h.otherCompatible hcomp hyes⟩)
  rw [if_neg hcomp]
  by_cases hreg : p.name = ascii "reg"
  · rw [if_pos hreg]
    rcases hread : s.cells.readReg b val s.depth with _ | a
    · -- the `reg` of another node, decoded with sizes that do not fit it
      refine .inl ⟨rfl, fun hsafe => ?_⟩
      obtain ⟨hne, hlong⟩ := hsafe p (propNamed_cons_self hreg)
      obtain ⟨x, rest, rfl⟩ := List.exists_cons_of_ne_nil hne
      obtain rfl := hparent x rfl
      exact CellSizes.readReg_ne_none h.between.parent_eq hstop (by omega) hlong hread
    · rw [Option.map_some]
      rcases hu : s.inUartNode with _ | _
      · refine .inr (.inl ⟨_, rfl, ?_⟩)
        have hset := h.setReg (a := a) hreg hu fun hyes =>
          Option.some.inj (hread.symm.trans (h.readReg_eq hreg (.inr hyes) hval))
        rw [hu] at hset
        exact hset
      · refine .inr (.inr ⟨a, rfl, ?_⟩)
        have ha := Option.some.inj (hread.symm.trans (h.readReg_eq hreg (.inl hu) hval))
        rw [foundFrom, hu, h.nodeReg_eq_none hreg, propNamed_cons_self hreg, ha]
        simp
  · rw [if_neg hreg]
    refine .inr (.inl ⟨s, rfl, h.skip hcomp hreg ?_ rfl rfl⟩)
    rw [cellsFrom_of_ne haddr hsize]
    exact h.between

end

end Ready

theorem Ready.props_gives {props : List DtProp} {toks : List FdtToken}
    (h : Ready ctx parent own s props) (hlt : b.length < 2 ^ 32) (hdepth : ctx.length < 16)
    (hparent : ∀ x ∈ ctx.head?, x = parent)
    (hmeans : List.Forall₂ (FdtToken.Means b dtStrings) (props.map .prop) toks)
    (hstops : ∀ tok ∈ toks, tok.stop + 4 ≤ b.length) :
    Gives (RegFits ctx parent props) (s.foundFrom parent props)
      (Between (cellsFrom own props :: ctx)) (earlyScanUart.through b dtStrings s toks) := by
  induction props generalizing s own toks with
  | nil =>
    cases hmeans
    refine ⟨?_, h.between⟩
    rw [foundFrom]
    rcases hu : s.inUartNode with _ | _
    · rfl
    · rw [h.flags hu]
      rfl
  | cons p props ih =>
    obtain _ | ⟨htok, hmeans⟩ := hmeans
    rename_i tok toks
    cases tok with
    | prop len nameoff val =>
      rw [List.forall_mem_cons] at hstops
      have hstep := h.step hlt hdepth hparent htok hstops.1
      rw [FdtWalker.through, h.ok.unique.cellsFrom_cons]
      obtain ⟨hnone, hbad⟩ | ⟨s', hpass, hready, hfound⟩ | ⟨a, hret, hfound⟩ := hstep
      · rw [show earlyScanUart.onToken b dtStrings s (.prop len nameoff val) = none from hnone]
        exact hbad
      · rw [show earlyScanUart.onToken b dtStrings s (.prop len nameoff val) = _ from hpass,
          andThen_inl, ← hfound]
        exact (ih hready hmeans hstops.2).mono (·.tail h.ok.unique) fun _ => id
      · rw [show earlyScanUart.onToken b dtStrings s (.prop len nameoff val) = _ from hret,
          andThen_inr, hfound]
        exact ⟨a, rfl, rfl⟩
    | beginNode | endNode | nop | fdtEnd | unknown => exact htok.elim

end UartScan

/-! ## The scan of a tree -/

namespace DtEntry

/-- A node is as the specification has it, and if it is a UART then it has a parent, the sizes there
can be read, and its `reg` has an entry. -/
structure UartOk (e : DtEntry CellStack) : Prop where
  props : PropsOk e.props
  depth : e.ctx.length < 16
  uart : hasCompatible e.props kUartCompatible = true →
    e.ctx ≠ [] ∧ OneOrTwo e.parentCells ∧ RegHolds e.props e.parentCells

/-- The `reg` of the node, if there is one, has an entry. -/
def Fits (e : DtEntry CellStack) : Prop := RegFits e.ctx e.parentCells e.props

theorem parentCells_of_mem {e : DtEntry CellStack} {x : ℕ × ℕ} (h : x ∈ e.ctx.head?) :
    x = e.parentCells := by
  rw [parentCells, Option.mem_def.mp h]
  rfl

theorem UartOk.ready {e : DtEntry CellStack} (h : e.UartOk) {s : UartScan} (hs : s.Between e.ctx) :
    UartScan.Ready e.ctx e.parentCells e.parentCells
      ⟨s.depth + 1, s.cells.inherit (s.depth + 1), false, none⟩ e.props where
  between := hs.enter h.depth false none
  ok := h.props
  uart := by
    rintro (hu | hu)
    · cases hu
    · obtain ⟨hne, hsizes, hlong⟩ := h.uart hu
      obtain ⟨x, rest, hctx⟩ := List.exists_cons_of_ne_nil hne
      have hx : x = e.parentCells := parentCells_of_mem (by rw [hctx]; rfl)
      exact ⟨⟨rest, hx ▸ hctx⟩, hsizes, hlong⟩
  flags := fun hu => by cases hu
  reg := fun hne => absurd rfl hne

end DtEntry

theorem earlyScanUart_scans {b : FdtBlob} (hlt : b.length < 2 ^ 32) (dtStrings : ℕ) :
    Scans earlyScanUart b dtStrings DtEntry.enterCells uartReg DtEntry.UartOk DtEntry.Fits
      (· ≠ []) UartScan.Between where
  node := by
    intro e s pos toks hs hok _ hmeans hstops
    have hgives := (hok.ready hs).props_gives hlt hok.depth
      (fun x hx => DtEntry.parentCells_of_mem hx) hmeans hstops
    exact hgives
  leave := by
    intro e s hs
    exact ⟨_, rfl, fun hne => hs.leave hne false none⟩
  below e := List.cons_ne_nil _ _

end Lume
