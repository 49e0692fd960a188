import Lume.Fdt.Queries
import Mathlib.Data.List.Find

/-!
# Finding a compatible node

`find_compatible` on the nodes that `unflatten` has built, and the early scan for the UART beside
it. The nodes in memory are those of the tree in pre-order, and so a node is known by its place
there.

## Main definitions

* `LaysOut`: a tree of nodes is a device tree, with its nodes in pre-order
* `DeviceTree.cellEntries`: the nodes of a tree in pre-order, with the cell sizes of their ancestors
* `DeviceTree.uart`: the address and size of the first UART

## Main results

* `Built.nodes_eq`: the nodes in memory are in pre-order
* `Built.lies`: they are linked as the tree
* `early_uart_agrees`: the early scan finds the first UART, and `find_compatible` the same
-/

namespace Lume

/-! ## Nodes in pre-order -/

section Layout

variable {γ : Type} {b : FdtBlob} {nodes : List DeviceNode}

/-- A node in memory has the name and the properties of a node of the tree. -/
structure FdtBlob.IsEntry (b : FdtBlob) (n : DeviceNode) (e : DtEntry γ) : Prop where
  name : b.StringAt n.name e.name
  props : List.Forall₂ b.Stores n.props e.props

theorem Built.nodes_eq (enter : DtEntry γ → γ) (t : DeviceTree) {parent : Option ℕ} {base : ℕ}
    {seg : List DeviceNode} {ctx : γ} (h : Built b t parent base seg) :
    List.Forall₂ b.IsEntry seg (t.preorder enter ctx) := by
  induction t using DeviceTree.induct generalizing parent base seg ctx with
  | node name props children ih =>
    rw [Built] at h
    obtain ⟨n, segs, rfl, hname, -, hprops, hbuilt⟩ := h
    rw [DeviceTree.preorder]
    refine .cons ⟨hname, hprops⟩ ?_
    generalize enter ⟨ctx, name, props⟩ = ctx'
    generalize n.children = ids at hbuilt
    generalize base + 1 = base' at hbuilt
    induction children generalizing ids base' segs with
    | nil =>
      rw [BuiltAll] at hbuilt
      rw [hbuilt.2, DeviceTree.forestPreorder]
      exact .nil
    | cons t ts ihts =>
      rw [BuiltAll] at hbuilt
      obtain ⟨rest, seg, segs', rfl, rfl, ht, hts⟩ := hbuilt
      rw [DeviceTree.forestPreorder]
      exact List.rel_append (ih t (List.mem_cons_self ..) ht)
        (ihts (fun t ht => ih t (List.mem_cons_of_mem _ ht)) segs' rest _ hts)

/-- A tree of nodes is a device tree whose `n` nodes lie in pre-order from `base` on. -/
structure LaysOut (b : FdtBlob) (nodes : List DeviceNode) (t : DeviceTree) (base n : ℕ)
    (T : NodeTree) : Prop where
  id : T.id = base
  levels : T.levels = t.levels
  linked : T.Linked b nodes
  ids : T.preorder.map NodeTree.id = List.range' base n
  props : ∀ {γ : Type} (enter : DtEntry γ → γ) (ctx : γ),
    T.preorder.map NodeTree.props = (t.preorder enter ctx).map DtEntry.props

/-- The same for the children of a node. -/
structure LaysOutAll (b : FdtBlob) (nodes : List DeviceNode) (ts : List DeviceTree) (ids : List ℕ)
    (base n : ℕ) (Ts : List NodeTree) : Prop where
  id : Ts.map NodeTree.id = ids
  levels : NodeTree.forestLevels Ts = DeviceTree.forestLevels ts
  linked : ∀ T ∈ Ts, T.Linked b nodes
  ids : (NodeTree.forestPreorder Ts).map NodeTree.id = List.range' base n
  props : ∀ {γ : Type} (enter : DtEntry γ → γ) (ctx : γ),
    (NodeTree.forestPreorder Ts).map NodeTree.props =
      (DeviceTree.forestPreorder enter ctx ts).map DtEntry.props

/-- What `Built` says of a tree. -/
def Lies (b : FdtBlob) (nodes : List DeviceNode) (t : DeviceTree) : Prop :=
  ∀ {parent : Option ℕ} {before seg after : List DeviceNode},
    Built b t parent before.length seg → nodes = before ++ (seg ++ after) →
    ∃ T, LaysOut b nodes t before.length seg.length T

theorem exists_laysOutAll {ts : List DeviceTree} (h : ∀ t ∈ ts, Lies b nodes t)
    {parent : Option ℕ} {ids : List ℕ} {front segs after : List DeviceNode}
    (hbuilt : BuiltAll b ts parent front.length ids segs)
    (hnodes : nodes = front ++ (segs ++ after)) :
    ∃ Ts, LaysOutAll b nodes ts ids front.length segs.length Ts := by
  induction ts generalizing front segs ids with
  | nil =>
    rw [BuiltAll] at hbuilt
    obtain ⟨rfl, rfl⟩ := hbuilt
    exact ⟨[], rfl, rfl, fun T hT => absurd hT List.not_mem_nil, rfl, fun _ _ => rfl⟩
  | cons t ts ih =>
    rw [BuiltAll] at hbuilt
    obtain ⟨rest, seg, segs', rfl, rfl, ht, hts⟩ := hbuilt
    rw [List.forall_mem_cons] at h
    rw [List.append_assoc] at hnodes
    obtain ⟨T, hT⟩ := h.1 ht hnodes
    rw [← List.length_append] at hts
    obtain ⟨Ts, hTs⟩ := ih h.2 hts (hnodes.trans (List.append_assoc ..).symm)
    refine ⟨T :: Ts, ?_, ?_, List.forall_mem_cons.mpr ⟨hT.linked, hTs.linked⟩, ?_, ?_⟩
    · rw [List.map_cons, hT.id, hTs.id]
    · rw [NodeTree.forestLevels, DeviceTree.forestLevels, hT.levels, hTs.levels]
    · rw [NodeTree.forestPreorder, List.map_append, hT.ids, hTs.ids, List.length_append,
        List.length_append, List.range'_append_1]
    · intro γ enter ctx
      rw [NodeTree.forestPreorder, DeviceTree.forestPreorder, List.map_append, List.map_append,
        hT.props enter ctx, hTs.props enter ctx]

/-- **The nodes in memory are linked as the tree.** -/
theorem Built.lies (t : DeviceTree) : Lies b nodes t := by
  induction t using DeviceTree.induct with
  | node name props children ih =>
    intro parent before seg after h hnodes
    rw [Built] at h
    obtain ⟨n, segs, rfl, hname, -, hprops, hbuilt⟩ := h
    have hnode : nodes[before.length]? = some n := by
      rw [hnodes]
      simp
    -- the children follow the node
    have hfront : (before ++ [n]).length = before.length + 1 := by
      rw [List.length_append]
      rfl
    have hnodes' : nodes = (before ++ [n]) ++ (segs ++ after) := by
      rw [hnodes, List.append_assoc]
      rfl
    rw [← hfront] at hbuilt
    obtain ⟨Ts, hTs⟩ := exists_laysOutAll ih hbuilt hnodes'
    refine ⟨.node before.length name props Ts, rfl, ?_, ?_, ?_, ?_⟩
    · rw [NodeTree.levels, DeviceTree.levels, hTs.levels]
    · rw [NodeTree.Linked, NodeTree.preorder, List.forall_mem_cons]
      refine ⟨⟨n, hnode, hname, hprops, hTs.id.symm⟩, fun u hu => ?_⟩
      obtain ⟨T, hT, hu⟩ := NodeTree.mem_forestPreorder.mp hu
      exact hTs.linked T hT u hu
    · rw [NodeTree.preorder, List.map_cons, hTs.ids, hfront, List.length_cons, List.range'_succ]
      rfl
    · intro γ enter ctx
      rw [NodeTree.preorder, DeviceTree.preorder, List.map_cons, List.map_cons,
        hTs.props enter (enter ⟨ctx, name, props⟩)]
      rfl

theorem map_find? {ι β : Type} (f : ι → β) (P : ι → Bool) (l : List ι) :
    (l.find? P).map f = (l.findIdx? P).bind fun k => (l.map f)[k]? := by
  induction l with
  | nil => rfl
  | cons a l ih =>
    rw [List.find?_cons, List.findIdx?_cons]
    cases P a with
    | true => rfl
    | false =>
      dsimp only
      rw [if_neg Bool.false_ne_true, ih]
      cases l.findIdx? P <;> rfl

theorem LaysOut.map_find? {t : DeviceTree} {base n : ℕ} {T : NodeTree}
    (h : LaysOut b nodes t base n T) (enter : DtEntry γ → γ) (ctx : γ) (P : List DtProp → Bool) :
    (T.preorder.find? fun u => P u.props).map NodeTree.id =
      ((t.preorder enter ctx).findIdx? fun e => P e.props).map (base + ·) := by
  have hidx : (T.preorder.findIdx? fun u => P u.props) =
      (t.preorder enter ctx).findIdx? fun e => P e.props := by
    have hmap := congrArg (List.findIdx? P) (h.props enter ctx)
    rwa [List.findIdx?_map, List.findIdx?_map] at hmap
  have hlen : n = (t.preorder enter ctx).length := by
    have hT := congrArg List.length h.ids
    have ht := congrArg List.length (h.props enter ctx)
    rw [List.length_map, List.length_range'] at hT
    rw [List.length_map, List.length_map] at ht
    rw [← hT, ht]
  rw [Lume.map_find?, hidx, h.ids, hlen]
  rcases hfirst : (t.preorder enter ctx).findIdx? fun e => P e.props with _ | k
  · rw [hfirst]
    rfl
  · have hk := (List.findIdx?_eq_some_iff_getElem.mp hfirst).1
    rw [hfirst, Option.bind_some, Option.map_some, List.getElem?_range' hk, one_mul]

end Layout

theorem propNamed_some {props : List DtProp} {name : String} {p : DtProp}
    (h : propNamed props name = some p) : p ∈ props ∧ p.name = ascii name :=
  ⟨List.mem_of_find?_eq_some h, by simpa using List.find?_some h⟩

/-! ## The early scan beside the tree -/

namespace DeviceTree

/-- The nodes of a tree in pre-order, with the cell sizes of their ancestors. -/
def cellEntries (t : DeviceTree) : List (DtEntry CellStack) := t.preorder DtEntry.enterCells []

/-- The place in pre-order of the first node that is compatible with a name. -/
def firstCompatible (t : DeviceTree) (compat : List UInt8) : Option ℕ :=
  t.cellEntries.findIdx? fun e => hasCompatible e.props compat

/-- The place in pre-order of the first node that is compatible with the UART and has a `reg`. -/
def firstUart (t : DeviceTree) : Option ℕ :=
  t.cellEntries.findIdx? fun e =>
    hasCompatible e.props kUartCompatible && (propNamed e.props "reg").isSome

/-- The address and size of that node, or the default. -/
def uart (t : DeviceTree) : ℕ × ℕ :=
  ((t.firstUart.bind fun j => t.cellEntries[j]?).bind uartReg).getD defaultUart

/-- The properties of each node are as the specification has them. -/
def WellFormed (t : DeviceTree) : Prop := ∀ e ∈ t.cellEntries, PropsOk e.props

/-- Each UART has a parent, the cell sizes there are 1 or 2, and its `reg` has at least one entry. -/
def UartCells (t : DeviceTree) : Prop :=
  ∀ e ∈ t.cellEntries, hasCompatible e.props kUartCompatible = true →
    e.ctx ≠ [] ∧ OneOrTwo e.parentCells ∧ RegHolds e.props e.parentCells

/-- Each `reg` has at least one entry, in the cell sizes in force at the parent. -/
def RegsFit (t : DeviceTree) : Prop := ∀ e ∈ t.cellEntries, e.Fits

variable {b : FdtBlob} {nodes : List DeviceNode} {t : DeviceTree} {base n : ℕ} {T : NodeTree}

theorem exists_stores {ps : List FdtProperty} {props : List DtProp} {p : DtProp}
    (h : List.Forall₂ b.Stores ps props) (hp : p ∈ props) : ∃ q, b.Stores q p := by
  obtain ⟨k, hk, rfl⟩ := List.mem_iff_getElem.mp hp
  exact ⟨_, h.get (h.length_eq ▸ hk) hk⟩

theorem compatibleOk (h : LaysOut b nodes t base n T) (hlt : b.length < 2 ^ 32) (hwf : t.WellFormed) :
    ∀ u ∈ T.preorder, CompatibleOk u.props := by
  intro u hu p hp
  obtain ⟨hmem, hname⟩ := propNamed_some hp
  constructor
  · have hprops : u.props ∈ T.preorder.map NodeTree.props := List.mem_map_of_mem hu
    rw [h.props DtEntry.enterCells []] at hprops
    obtain ⟨e, he, heq⟩ := List.mem_map.mp hprops
    rw [← heq] at hmem
    exact (hwf e he).compatible p hmem hname
  · obtain ⟨node, -, hshows⟩ := h.linked u hu
    obtain ⟨q, hstores⟩ := exists_stores hshows.props hmem
    have hle := hstores.value.length_le
    rw [List.length_drop] at hle
    omega

theorem listsCompatible_eq {props : List DtProp} {compat : List UInt8} (hok : CompatibleOk props)
    (hne : compat ≠ []) : listsCompatible props compat = hasCompatible props compat := by
  rw [listsCompatible, hasCompatible]
  rcases hp : propNamed props "compatible" with _ | p
  · rfl
  · rw [Option.any_some, Option.any_some, List.contains_eq_mem]
    exact (decide_eq_decide.mpr ((hok p hp).1.mem_strings hne)).symm

theorem findCompatible_firstCompatible (h : LaysOut b nodes t 0 n T) (hlt : b.length < 2 ^ 32)
    (hwf : t.WellFormed) {compat : List UInt8} (hcompat : 0 ∉ compat) (hne : compat ≠ []) :
    findCompatible b nodes (some 0) compat t.levels = some (t.firstCompatible compat) := by
  have hok := compatibleOk h hlt hwf
  have hfind := findCompatible_eq h.linked hok hcompat h.levels.le
  have hsame : (T.preorder.find? fun u => listsCompatible u.props compat) =
      T.preorder.find? fun u => hasCompatible u.props compat :=
    List.find?_congr fun u hu => listsCompatible_eq (hok u hu) hne
  rw [h.id, hsame, h.map_find? DtEntry.enterCells [] fun props => hasCompatible props compat]
    at hfind
  rw [hfind, firstCompatible, cellEntries]
  simp

theorem ctx_length_lt (t : DeviceTree) {ctx : CellStack} {e : DtEntry CellStack}
    (he : e ∈ t.preorder DtEntry.enterCells ctx) : e.ctx.length < ctx.length + t.levels := by
  induction t using DeviceTree.induct generalizing ctx with
  | node name props children ih =>
    rw [preorder, List.mem_cons] at he
    rw [levels]
    rcases he with rfl | he
    · dsimp only
      omega
    · have hforest : e.ctx.length < (DtEntry.enterCells ⟨ctx, name, props⟩).length +
          forestLevels children := by
        generalize DtEntry.enterCells ⟨ctx, name, props⟩ = ctx' at he
        induction children with
        | nil =>
          rw [forestPreorder] at he
          cases he
        | cons t ts ihts =>
          rw [forestPreorder, List.mem_append] at he
          rw [forestLevels]
          rcases he with he | he
          · have hlt := ih t (List.mem_cons_self ..) he
            omega
          · have hlt := ihts (fun t ht => ih t (List.mem_cons_of_mem _ ht)) he
            omega
      rw [DtEntry.enterCells, List.length_cons] at hforest
      dsimp only at hforest
      omega

end DeviceTree

theorem findSome?_eq_bind {ι β : Type} (f : ι → Option β) (l : List ι) :
    l.findSome? f = ((l.findIdx? fun a => (f a).isSome).bind fun j => l[j]?).bind f := by
  induction l with
  | nil => rfl
  | cons a l ih =>
    rw [List.findSome?_cons, List.findIdx?_cons]
    rcases hfa : f a with _ | x
    · rw [if_neg (by simp)]
      dsimp only
      rw [ih]
      generalize (l.findIdx? fun a => (f a).isSome) = o
      cases o <;> rfl
    · simp [hfa]

theorem isSome_uartReg (e : DtEntry CellStack) : (uartReg e).isSome =
    (hasCompatible e.props kUartCompatible && (propNamed e.props "reg").isSome) := by
  rw [uartReg]
  cases hasCompatible e.props kUartCompatible
  · rfl
  · rw [if_pos rfl, Option.isSome_map, Bool.true_and]

theorem DeviceTree.uart_eq (t : DeviceTree) :
    t.uart = (t.cellEntries.findSome? uartReg).getD defaultUart := by
  rw [uart, firstUart, findSome?_eq_bind]
  simp only [isSome_uartReg]

theorem findIdx?_and {ι : Type} {l : List ι} {P Q : ι → Bool} {j : ℕ} {a : ι}
    (hfirst : l.findIdx? P = some j) (hj : l[j]? = some a) (ha : Q a = true) :
    l.findIdx? (fun x => P x && Q x) = some j := by
  rw [List.findIdx?_eq_some_iff_getElem] at hfirst ⊢
  obtain ⟨hlt, hP, hbefore⟩ := hfirst
  obtain rfl : l[j] = a := Option.some.inj ((List.getElem?_eq_getElem hlt).symm.trans hj)
  refine ⟨hlt, by rw [hP, ha]; rfl, fun k hk => ?_⟩
  have hno := hbefore k hk
  simp only [Bool.not_eq_true] at hno ⊢
  rw [hno, Bool.false_and]

/-- **The early scan for the UART**: it returns what the tree says, unless it reads outside the blob,
which it does not if every `reg` has an entry; and if the node that `find_compatible` finds in the
unflattened tree has a `reg`, then it is the node of the UART. -/
theorem early_uart_agrees {b : FdtBlob} {t : DeviceTree} (h : b.Encodes t) (hlevels : t.levels ≤ 16)
    (hwf : t.WellFormed) (huart : t.UartCells) :
    (∀ fuel e, fdtWalk earlyScanUart b fuel = some (some e) → e = .returned t.uart) ∧
    (t.RegsFit → ∃ fuel, fdtWalk earlyScanUart b fuel = some (some (.returned t.uart))) ∧
    ∃ fuel nodes, fdtWalk (unflatten fun _ => true) b fuel =
        some (some (.returned (nodes, some 0))) ∧ List.Forall₂ b.IsEntry nodes t.cellEntries ∧
      findCompatible b nodes (some 0) kUartCompatible t.levels =
        some (t.firstCompatible kUartCompatible) ∧
      ∀ j n, t.firstCompatible kUartCompatible = some j → nodes[j]? = some n →
        getProp b (ascii "reg") n.props ≠ some none → t.firstUart = some j := by
  have hlt := FdtBlob.be32_lt h.valid.size
  have hok (e : DtEntry CellStack) (he : e ∈ t.preorder DtEntry.enterCells []) : e.UartOk := by
    have hdepth := t.ctx_length_lt he
    rw [List.length_nil] at hdepth
    exact ⟨hwf e he, by omega, huart e he⟩
  have hinit : UartScan.Between [] earlyScanUart.init :=
    ⟨rfl, fun j hj => absurd hj (Nat.not_lt_zero j), fun _ => rfl⟩
  have hend (dtStrings : ℕ) (s : UartScan) : earlyScanUart.onToken b dtStrings s .fdtEnd =
      some (.inr (.returned defaultUart)) := rfl
  obtain ⟨hret, htotal⟩ :=
    Scans.walk_eq h (earlyScanUart_scans hlt) (fun _ _ => rfl) hend hinit hok
  have hanswer : ((t.preorder DtEntry.enterCells []).findSome? uartReg).elim
      (WalkEnd.returned defaultUart) .returned = .returned t.uart := by
    rw [t.uart_eq, DeviceTree.cellEntries]
    cases (t.preorder DtEntry.enterCells []).findSome? uartReg <;> rfl
  rw [hanswer] at hret htotal
  obtain ⟨fuel, nodes, hwalk, hbuilt⟩ := unflatten_built h hlevels
  have hentries : List.Forall₂ b.IsEntry nodes t.cellEntries := hbuilt.nodes_eq _ t
  refine ⟨hret, htotal, fuel, nodes, hwalk, hentries, ?_, ?_⟩
  · have hlies : Lies b nodes t := Built.lies t
    have hbuilt' : Built b t none ([] : List DeviceNode).length nodes := hbuilt
    obtain ⟨T, hT⟩ := hlies hbuilt' (List.append_nil nodes).symm
    exact DeviceTree.findCompatible_firstCompatible hT hlt hwf (by decide) (by decide)
  · intro j n hfirst hnode hreg
    obtain ⟨hj, rfl⟩ := List.getElem?_eq_some_iff.mp hnode
    have hjt : j < t.cellEntries.length := hentries.length_eq ▸ hj
    have hentry : b.IsEntry nodes[j] t.cellEntries[j] := hentries.get hj hjt
    obtain ⟨r, hr, hrel⟩ := getProp_eq hentry.props "reg" (by decide)
    refine findIdx?_and hfirst (List.getElem?_eq_getElem hjt) ?_
    rw [hr] at hreg
    generalize propNamed t.cellEntries[j].props "reg" = o at hrel ⊢
    cases hrel with
    | none => exact absurd rfl hreg
    | some _ => rfl

/-- A tree with a node that is compatible with the UART and has no `reg`, and a UART after it. -/
def uartTree : DeviceTree :=
  .node [] [⟨ascii "#address-cells", toBe 4 2⟩, ⟨ascii "#size-cells", toBe 4 1⟩]
    [.node (ascii "serial") [⟨ascii "compatible", ascii "ns16550a" ++ [0]⟩] [],
      .node (ascii "uart@10001000") [⟨ascii "reg", toBe 8 0x10001000 ++ toBe 4 0x200⟩,
        ⟨ascii "compatible", ascii "vendor" ++ 0 :: ascii "ns16550a" ++ [0]⟩] []]

/-- The names of its properties. -/
def uartNames : List (List UInt8) :=
  [ascii "#address-cells", ascii "#size-cells", ascii "compatible", ascii "reg"]

theorem uartTree_encodes : (uartTree.flatten uartNames).Encodes uartTree :=
  DeviceTree.flatten_encodes (by decide +kernel) (by decide +kernel)

theorem early_uart_agrees_small : (uartTree.flatten uartNames).Encodes uartTree ∧ ∃ fuel,
      fdtWalk earlyScanUart (uartTree.flatten uartNames) fuel =
        some (some (.returned (0x10001000, 0x200))) := by
  have hlevels : uartTree.levels ≤ 16 := by decide
  have hwf : ∀ e ∈ uartTree.cellEntries, PropsOk e.props := by decide +kernel
  have huart : ∀ e ∈ uartTree.cellEntries, hasCompatible e.props kUartCompatible = true →
      e.ctx ≠ [] ∧ OneOrTwo e.parentCells ∧ RegHolds e.props e.parentCells := by decide +kernel
  have hregs : ∀ e ∈ uartTree.cellEntries, RegFits e.ctx e.parentCells e.props := by decide +kernel
  have hanswer : uartTree.uart = (0x10001000, 0x200) := by decide +kernel
  obtain ⟨-, htotal, -⟩ := early_uart_agrees uartTree_encodes hlevels hwf huart
  rw [hanswer] at htotal
  exact ⟨uartTree_encodes, htotal hregs⟩

end Lume
