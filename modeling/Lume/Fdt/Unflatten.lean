import Lume.Fdt.Encoding
import Mathlib.Data.List.Induction

/-!
# Unflattening inverts flattening

`unflatten` on an encoding of a device tree builds the nodes of that tree. The proof follows the
tree: the tokens of the children of a node add nodes at the end of those made so far, enter them in
the list of their parent, and leave the stack up to the parent as it was.

A property keeps the length of its value in an `int`, so that a value of `2 ^ 31` bytes or more has
a negative length in the tree.

## Main definitions

* `Represents`: nodes in memory are a tree
* `FdtBlob.Holds`, `FdtBlob.Stores`: a property is what it should be, and what it is

## Main results

* `unflatten_forest`: what the tokens of the children of a node do
* `unflatten_inverts_iff`: when the nodes are the tree that was encoded
* `huge_value_has_negative_length`: what goes wrong otherwise
-/

namespace Lume

/-! ## Trees in memory -/

section Represents

variable (b : FdtBlob) (prop : FdtProperty → DtProp → Prop) (nodes : List DeviceNode)

mutual

/-- Node `i` and those below it are the tree, with properties as `prop` says. -/
def Represents : DeviceTree → Option ℕ → ℕ → Prop
  | .node name props children, parent, i => ∃ n, nodes[i]? = some n ∧ b.StringAt n.name name ∧
      n.parent = parent ∧ List.Forall₂ prop n.props props ∧ RepresentsAll children i n.children

/-- The nodes are the children of node `i`. -/
def RepresentsAll : List DeviceTree → ℕ → List ℕ → Prop
  | [], _, ids => ids = []
  | t :: ts, i, ids => ∃ c rest, ids = c :: rest ∧ Represents t (some i) c ∧ RepresentsAll ts i rest

end

end Represents

/-- A property in memory has the name, the length and the bytes of a property of the tree. -/
structure FdtBlob.Holds (b : FdtBlob) (prop : FdtProperty) (p : DtProp) : Prop where
  name : b.StringAt prop.name p.name
  len : prop.len = p.value.length
  value : p.value <+: b.drop prop.value

/-- The same, with the length as an `int`. -/
structure FdtBlob.Stores (b : FdtBlob) (prop : FdtProperty) (p : DtProp) : Prop where
  name : b.StringAt prop.name p.name
  len : prop.len = int32 p.value.length
  value : p.value <+: b.drop prop.value

/-! ## Segments of nodes -/

section Built

variable (b : FdtBlob)

mutual

/-- The nodes from `base` on are the tree, its root first. -/
def Built : DeviceTree → Option ℕ → ℕ → List DeviceNode → Prop
  | .node name props children, parent, base, seg => ∃ n segs, seg = n :: segs ∧
      b.StringAt n.name name ∧ n.parent = parent ∧ List.Forall₂ b.Stores n.props props ∧
      BuiltAll children (some base) (base + 1) n.children segs

/-- The nodes from `base` on are the trees, one after the other. -/
def BuiltAll : List DeviceTree → Option ℕ → ℕ → List ℕ → List DeviceNode → Prop
  | [], _, _, ids, segs => ids = [] ∧ segs = []
  | t :: ts, parent, base, ids, segs => ∃ rest seg segs', ids = base :: rest ∧
      segs = seg ++ segs' ∧ Built t parent base seg ∧
      BuiltAll ts parent (base + seg.length) rest segs'

end

end Built

variable {b : FdtBlob} {dtStrings : ℕ}

/-! ## The walk -/

/-- `unflatten` passes a token, with memory. -/
abbrev UnflattenStep (b : FdtBlob) (dtStrings : ℕ) : Unflatten → FdtToken → Unflatten → Prop :=
  (unflatten fun _ => true).Passes b dtStrings

/-- The children `ids` are entered in the list of the parent, if there is one. -/
def attach (nodes : List DeviceNode) (parent : Option ℕ) (ids : List ℕ) : List DeviceNode :=
  match parent with
  | none => nodes
  | some p => nodes.modify p fun n => { n with children := n.children ++ ids }

/-- A node at depth `d` with the given parent is next. -/
structure Unflatten.Ready (s : Unflatten) (d : ℕ) (parent : Option ℕ) : Prop where
  depth : s.depth = d - 1
  parent_eq : parent = if 0 < d then s.stack (d - 1) else none
  parent_lt : ∀ p ∈ parent, p < s.nodes.length

/-- What has been done for some nodes at depth `d`. -/
structure Unflatten.Grown (s : Unflatten) (d : ℕ) (parent : Option ℕ) (ids : List ℕ)
    (segs : List DeviceNode) (s' : Unflatten) : Prop where
  nodes : s'.nodes = attach s.nodes parent ids ++ segs
  depth : s'.depth = s.depth
  stack : ∀ i < d, s'.stack i = s.stack i
  root : s'.root = if parent = none then ids.getLast?.or s.root else s.root

theorem forall₂_append_left {α β : Type} {R : α → β → Prop} {l₁ l₂ : List α} {u : List β}
    (h : List.Forall₂ R (l₁ ++ l₂) u) :
    ∃ u₁ u₂, u = u₁ ++ u₂ ∧ List.Forall₂ R l₁ u₁ ∧ List.Forall₂ R l₂ u₂ := by
  induction l₁ generalizing u with
  | nil => exact ⟨[], u, rfl, .nil, h⟩
  | cons a l₁ ih =>
    cases h with
    | cons ha h =>
      obtain ⟨u₁, u₂, rfl, h₁, h₂⟩ := ih h
      exact ⟨_ :: u₁, u₂, rfl, .cons ha h₁, h₂⟩

theorem modify_append_left {α : Type} (f : α → α) {l : List α} (r : List α) {i : ℕ}
    (hi : i < l.length) : (l ++ r).modify i f = l.modify i f ++ r := by
  rw [List.modify_eq_take_drop, List.modify_eq_take_drop, List.take_append_of_le_length hi.le,
    List.drop_append_of_le_length hi.le, List.append_assoc]
  have hne : l.drop i ≠ [] := by
    rw [Ne, List.drop_eq_nil_iff]
    exact not_le.mpr hi
  obtain ⟨a, u, hu⟩ := List.exists_cons_of_ne_nil hne
  rw [hu]
  rfl

theorem modify_append_length {α : Type} (f : α → α) (l : List α) (a : α) (r : List α) :
    (l ++ a :: r).modify l.length f = l ++ f a :: r := by
  rw [List.modify_eq_take_drop, List.take_left, List.drop_left]
  rfl

namespace Unflatten

variable {s s' s₁ s₂ : Unflatten} {d : ℕ} {parent : Option ℕ} {ids rest : List ℕ}
  {seg segs : List DeviceNode}

theorem length_attach (nodes : List DeviceNode) (parent : Option ℕ) (ids : List ℕ) :
    (attach nodes parent ids).length = nodes.length := by
  cases parent with
  | none => rfl
  | some p => exact List.length_modify ..

theorem attach_append {nodes : List DeviceNode} (hlt : ∀ p ∈ parent, p < nodes.length) :
    attach (nodes ++ seg) parent ids = attach nodes parent ids ++ seg := by
  cases parent with
  | none => rfl
  | some p => exact modify_append_left _ seg (hlt p rfl)

theorem attach_attach (nodes : List DeviceNode) (parent : Option ℕ) (ids rest : List ℕ) :
    attach (attach nodes parent ids) parent rest = attach nodes parent (ids ++ rest) := by
  cases parent with
  | none => rfl
  | some p =>
    simp only [attach, List.modify_modify_eq, Function.comp_def, List.append_assoc]

/-- `FDT_BEGIN_NODE` at depth `d`. -/
def opened (s : Unflatten) (d : ℕ) (parent : Option ℕ) (name : ℕ) : Unflatten where
  nodes := attach s.nodes parent [s.nodes.length] ++ [⟨name, parent, [], []⟩]
  stack := Function.update s.stack d (some s.nodes.length)
  depth := d
  root := if parent = none then some s.nodes.length else s.root
  allocs := s.allocs + 1

theorem Ready.beginNode (h : s.Ready d parent) (hd : d < 16) (name : ℕ) :
    UnflattenStep b dtStrings s (.beginNode name) (s.opened d parent name) := by
  have hdepth : s.depth + 1 = d := by
    rw [h.depth]
    omega
  have hparent : (if 0 < (d : ℤ) then s.stack ((d : ℤ) - 1).toNat else none) = parent := by
    rw [h.parent_eq]
    by_cases hpos : 0 < d
    · rw [if_pos hpos, if_pos (by omega)]
      congr 1
      omega
    · rw [if_neg hpos, if_neg (by omega)]
  show Unflatten.onToken (fun _ => true) b dtStrings s (.beginNode name) = _
  simp only [onToken, hdepth, hparent, if_neg (by omega : ¬ 16 ≤ (d : ℤ)), if_true, Int.toNat_natCast]
  have hattach : attach (s.nodes ++ [⟨name, parent, [], []⟩]) parent [s.nodes.length] =
      attach s.nodes parent [s.nodes.length] ++ [⟨name, parent, [], []⟩] :=
    attach_append h.parent_lt
  cases parent with
  | none => rfl
  | some p =>
    simp only [opened, ← hattach]
    rfl

theorem props_spec {M R : List DeviceNode} {n : DeviceNode} {props : List DtProp}
    {toks : List FdtToken} (hmeans : List.Forall₂ (FdtToken.Means b dtStrings) (props.map .prop) toks)
    (hnodes : s.nodes = M ++ n :: R) (hdepth : s.depth = d) (hd : d < 16)
    (hstack : s.stack d = some M.length) : ∃ ps, Run (UnflattenStep b dtStrings) s toks { s with
        nodes := M ++ { n with props := n.props ++ ps } :: R, allocs := s.allocs + props.length } ∧
      List.Forall₂ b.Stores ps props := by
  induction props generalizing s n toks with
  | nil =>
    cases hmeans
    refine ⟨[], ?_, .nil⟩
    rw [List.append_nil, ← hnodes]
    exact .nil _
  | cons p props ih =>
    obtain _ | ⟨htok, hmeans⟩ := hmeans
    rename_i tok toks
    cases tok with
    | prop len nameoff val =>
      obtain ⟨hname, rfl, hval⟩ := htok
      let prop : FdtProperty := ⟨dtStrings + nameoff, val, int32 p.value.length⟩
      have hstep : UnflattenStep b dtStrings s (.prop p.value.length nameoff val) { s with
          nodes := M ++ { n with props := n.props ++ [prop] } :: R, allocs := s.allocs + 1 } := by
        simp only [UnflattenStep, FdtWalker.Passes, unflatten, onToken, hdepth, hnodes, Int.toNat_natCast, hstack, addProp, modify_append_length,
          if_pos (⟨by omega, by omega⟩ : 0 ≤ (d : ℤ) ∧ (d : ℤ) < 16), if_true]
        rfl
      obtain ⟨ps, hrun, hps⟩ := ih (s := { s with
        nodes := M ++ { n with props := n.props ++ [prop] } :: R, allocs := s.allocs + 1 })
        hmeans rfl hdepth hstack
      refine ⟨prop :: ps, ?_, .cons ⟨hname, rfl, hval⟩ hps⟩
      have hall := hrun.cons hstep
      simp only [List.append_assoc, List.singleton_append, Nat.add_assoc, Nat.add_comm 1] at hall
      exact hall
    | beginNode | endNode | nop | fdtEnd | unknown => exact htok.elim

theorem Grown.nil (s : Unflatten) (d : ℕ) (parent : Option ℕ) : s.Grown d parent [] [] s where
  nodes := by
    cases parent with
    | none => exact (List.append_nil _).symm
    | some p =>
      have hid : (fun n : DeviceNode => { n with children := n.children ++ [] }) = id := by
        funext n
        rw [List.append_nil]
        rfl
      rw [attach, hid, List.modify_id, List.append_nil]
  depth := rfl
  stack := fun _ _ => rfl
  root := by
    split <;> rfl

theorem Grown.append (h₁ : s.Grown d parent ids seg s₁) (h₂ : s₁.Grown d parent rest segs s₂)
    (hlt : ∀ p ∈ parent, p < s.nodes.length) : s.Grown d parent (ids ++ rest) (seg ++ segs) s₂ where
  nodes := by
    rw [h₂.nodes, h₁.nodes, attach_append (by rwa [length_attach]), attach_attach,
      List.append_assoc]
  depth := h₂.depth.trans h₁.depth
  stack := fun i hi => (h₂.stack i hi).trans (h₁.stack i hi)
  root := by
    rw [h₂.root, h₁.root, List.getLast?_append]
    split
    · rw [Option.or_assoc]
    · rfl

theorem Ready.grown (h : s.Ready d parent) (hg : s.Grown d parent ids segs s') :
    s'.Ready d parent where
  depth := hg.depth.trans h.depth
  parent_eq := by
    rw [h.parent_eq]
    split
    · rw [hg.stack _ (by omega)]
    · rfl
  parent_lt := by
    intro p hp
    have hlt := h.parent_lt p hp
    rw [hg.nodes, List.length_append, length_attach]
    omega

end Unflatten

/-- The tokens of a tree, at any place, make `unflatten` build the tree. -/
def Unflattens (b : FdtBlob) (dtStrings : ℕ) (t : DeviceTree) : Prop :=
  ∀ (toks : List FdtToken) (s : Unflatten) (d : ℕ) (parent : Option ℕ),
    List.Forall₂ (FdtToken.Means b dtStrings) t.lexemes toks → s.Ready d parent →
    d + t.levels ≤ 16 →
    ∃ seg s', Run (UnflattenStep b dtStrings) s toks s' ∧
      s.Grown d parent [s.nodes.length] seg s' ∧ Built b t parent s.nodes.length seg

/-- **The tokens of the children of a node** make `unflatten` build them one after the other. -/
theorem unflatten_forest {ts : List DeviceTree} (h : ∀ t ∈ ts, Unflattens b dtStrings t)
    {toks : List FdtToken} {s : Unflatten} {d : ℕ} {parent : Option ℕ}
    (hmeans : List.Forall₂ (FdtToken.Means b dtStrings) (DeviceTree.forestLexemes ts) toks)
    (hready : s.Ready d parent) (hd : d + DeviceTree.forestLevels ts ≤ 16) :
    ∃ ids segs s', Run (UnflattenStep b dtStrings) s toks s' ∧ s.Grown d parent ids segs s' ∧
      BuiltAll b ts parent s.nodes.length ids segs := by
  induction ts generalizing s toks with
  | nil =>
    cases hmeans
    exact ⟨[], [], s, .nil _, .nil s d parent, rfl, rfl⟩
  | cons t ts ih =>
    rw [DeviceTree.forestLexemes] at hmeans
    rw [DeviceTree.forestLevels] at hd
    obtain ⟨toks₁, toks₂, rfl, hmeans₁, hmeans₂⟩ := forall₂_append_left hmeans
    obtain ⟨seg, s₁, hrun₁, hgrown₁, hbuilt₁⟩ :=
      h t (List.mem_cons_self ..) toks₁ s d parent hmeans₁ hready (by omega)
    obtain ⟨ids, segs, s₂, hrun₂, hgrown₂, hbuilt₂⟩ :=
      ih (fun t ht => h t (List.mem_cons_of_mem _ ht)) hmeans₂ (hready.grown hgrown₁) (by omega)
    have hlen : s₁.nodes.length = s.nodes.length + seg.length := by
      rw [hgrown₁.nodes, List.length_append, Unflatten.length_attach]
    rw [hlen] at hbuilt₂
    exact ⟨_, _, s₂, hrun₁.append hrun₂, hgrown₁.append hgrown₂ hready.parent_lt,
      ids, seg, segs, rfl, rfl, hbuilt₁, hbuilt₂⟩

theorem FdtToken.means_node {name : List UInt8} {props : List DtProp} {children : List DeviceTree}
    {toks : List FdtToken}
    (h : List.Forall₂ (FdtToken.Means b dtStrings) (DeviceTree.node name props children).lexemes toks) :
    ∃ pos ptoks ctoks, toks = .beginNode pos :: (ptoks ++ (ctoks ++ [.endNode])) ∧
      b.StringAt pos name ∧ List.Forall₂ (FdtToken.Means b dtStrings) (props.map .prop) ptoks ∧
      List.Forall₂ (FdtToken.Means b dtStrings) (DeviceTree.forestLexemes children) ctoks := by
  rw [DeviceTree.lexemes, List.forall₂_cons_left_iff] at h
  obtain ⟨tok, toks, hbegin, hmeans, rfl⟩ := h
  obtain ⟨ptoks, toks, rfl, hprops, hmeans⟩ := forall₂_append_left hmeans
  obtain ⟨ctoks, etoks, rfl, hchildren, hend⟩ := forall₂_append_left hmeans
  rw [List.forall₂_cons_left_iff] at hend
  obtain ⟨etok, etoks, hend, hnil, rfl⟩ := hend
  obtain rfl := List.forall₂_nil_left_iff.mp hnil
  cases tok with
  | prop | endNode | nop | fdtEnd | unknown => exact hbegin.elim
  | beginNode pos =>
    cases etok with
    | prop | beginNode | nop | fdtEnd | unknown => exact hend.elim
    | endNode => exact ⟨pos, ptoks, ctoks, rfl, hbegin, hprops, hchildren⟩

/-- Node `n` at depth `d` has been made, with its properties, and is the current one. -/
structure Unflatten.Entered (s : Unflatten) (d : ℕ) (parent : Option ℕ) (n : DeviceNode)
    (s' : Unflatten) : Prop where
  nodes : s'.nodes = attach s.nodes parent [s.nodes.length] ++ [n]
  parent_eq : n.parent = parent
  children : n.children = []
  depth : s'.depth = d
  top : s'.stack d = some s.nodes.length
  stack : ∀ i < d, s'.stack i = s.stack i
  root : s'.root = if parent = none then some s.nodes.length else s.root

theorem Unflatten.Ready.enter {s : Unflatten} {d pos : ℕ} {parent : Option ℕ} {name : List UInt8}
    {props : List DtProp} {toks : List FdtToken} (h : s.Ready d parent) (hd : d < 16)
    (hname : b.StringAt pos name)
    (hmeans : List.Forall₂ (FdtToken.Means b dtStrings) (props.map .prop) toks) :
    ∃ n s', Run (UnflattenStep b dtStrings) s (.beginNode pos :: toks) s' ∧
      s.Entered d parent n s' ∧ b.StringAt n.name name ∧ List.Forall₂ b.Stores n.props props := by
  have htop : (s.opened d parent pos).stack d = some s.nodes.length := Function.update_self ..
  obtain ⟨ps, hrun, hps⟩ := Unflatten.props_spec hmeans (s := s.opened d parent pos) rfl rfl hd
    (by rw [length_attach]; exact htop)
  refine ⟨_, _, hrun.cons (h.beginNode hd pos), ⟨rfl, rfl, rfl, rfl, htop, ?_, rfl⟩, hname, hps⟩
  intro i hi
  exact Function.update_of_ne hi.ne _ _

theorem Unflatten.Entered.ready {s s' : Unflatten} {d : ℕ} {parent : Option ℕ} {n : DeviceNode}
    (h : s.Entered d parent n s') : s'.Ready (d + 1) (some s.nodes.length) where
  depth := by
    rw [h.depth]
    omega
  parent_eq := by
    rw [if_pos (Nat.succ_pos d)]
    exact h.top.symm
  parent_lt := by
    intro p hp
    obtain rfl := Option.some.inj hp
    rw [h.nodes, List.length_append, length_attach]
    exact Nat.lt_succ_self _

theorem Unflatten.Entered.leave {s s₁ s₂ : Unflatten} {d : ℕ} {parent : Option ℕ} {n : DeviceNode}
    {ids : List ℕ} {segs : List DeviceNode} (h : s.Entered d parent n s₁)
    (hg : s₁.Grown (d + 1) (some s.nodes.length) ids segs s₂) (hdepth : s.depth = d - 1) :
    UnflattenStep b dtStrings s₂ .endNode { s₂ with depth := d - 1 } ∧
      s.Grown d parent [s.nodes.length] ({ n with children := ids } :: segs)
        { s₂ with depth := d - 1 } := by
  have hdepth₂ : s₂.depth = d := hg.depth.trans h.depth
  refine ⟨?_, ?_, hdepth.symm, ?_, ?_⟩
  · simp only [UnflattenStep, FdtWalker.Passes, unflatten, onToken, hdepth₂,
      if_pos (by omega : 0 ≤ (d : ℤ))]
  · show s₂.nodes = _
    have hmodify := modify_append_length
      (fun n : DeviceNode => { n with children := n.children ++ ids })
      (attach s.nodes parent [s.nodes.length]) n []
    rw [length_attach] at hmodify
    rw [hg.nodes, h.nodes, attach, hmodify, h.children, List.append_assoc]
    rfl
  · intro i hi
    exact (hg.stack i (by omega)).trans (h.stack i hi)
  · show s₂.root = _
    rw [hg.root, if_neg (by simp), h.root]
    rfl

/-- **The tokens of a tree** make `unflatten` build it. -/
theorem unflatten_tree (t : DeviceTree) : Unflattens b dtStrings t := by
  induction t using DeviceTree.induct with
  | node name props children ih =>
    intro toks s d parent hmeans hready hd
    rw [DeviceTree.levels] at hd
    obtain ⟨pos, ptoks, ctoks, rfl, hname, hprops, hchildren⟩ := FdtToken.means_node hmeans
    obtain ⟨n, s₁, hrun₁, henter, hname', hprops'⟩ := hready.enter (by omega) hname hprops
    obtain ⟨ids, segs, s₂, hrun₂, hgrown, hbuilt⟩ :=
      unflatten_forest ih hchildren henter.ready (by omega)
    obtain ⟨hend, hgrown'⟩ := henter.leave hgrown hready.depth
    rw [henter.nodes, List.length_append, Unflatten.length_attach] at hbuilt
    refine ⟨_, _, ?_, hgrown', _, segs, rfl, hname', henter.parent_eq, hprops', hbuilt⟩
    rw [← List.cons_append, ← List.append_assoc]
    exact (hrun₁.append hrun₂).snoc hend

/-! ## From segments to trees -/

theorem represents_of_built {nodes : List DeviceNode} (t : DeviceTree) {parent : Option ℕ}
    {before seg after : List DeviceNode} (h : Built b t parent before.length seg)
    (hnodes : nodes = before ++ (seg ++ after)) :
    Represents b b.Stores nodes t parent before.length := by
  induction t using DeviceTree.induct generalizing parent before seg after with
  | node name props children ih =>
    rw [Built] at h
    obtain ⟨n, segs, rfl, hname, hparent, hprops, hbuilt⟩ := h
    rw [Represents]
    refine ⟨n, by rw [hnodes]; simp, hname, hparent, hprops, ?_⟩
    -- the children follow the node
    generalize hfront : before ++ [n] = front
    have hlen : before.length + 1 = front.length := by rw [← hfront, List.length_append]; rfl
    rw [hlen] at hbuilt
    have hnodes' : nodes = front ++ (segs ++ after) := by
      rw [hnodes, ← hfront, List.append_assoc]
      rfl
    clear hlen hfront hnodes
    generalize n.children = ids at hbuilt
    induction children generalizing ids front segs with
    | nil =>
      rw [BuiltAll] at hbuilt
      rw [RepresentsAll]
      exact hbuilt.1
    | cons t ts ihts =>
      rw [BuiltAll] at hbuilt
      obtain ⟨rest, seg, segs', rfl, rfl, ht, hts⟩ := hbuilt
      rw [RepresentsAll]
      have hhere : nodes = front ++ (seg ++ (segs' ++ after)) := by
        rw [hnodes', List.append_assoc]
      have hnext : nodes = (front ++ seg) ++ (segs' ++ after) := by
        rw [hhere, List.append_assoc]
      rw [← List.length_append] at hts
      exact ⟨_, rest, rfl, ih t (List.mem_cons_self ..) ht hhere,
        ihts (fun t ht => ih t (List.mem_cons_of_mem _ ht)) segs' (front ++ seg) hnext rest hts⟩

theorem int32_eq_iff {n : ℕ} (h : n < 2 ^ 32) : int32 n = n ↔ n < 2 ^ 31 := by
  rw [int32]
  split <;> omega

theorem FdtBlob.Stores.holds_iff {prop : FdtProperty} {p : DtProp} (h : b.Stores prop p)
    (hlt : b.length < 2 ^ 32) : b.Holds prop p ↔ p.value.length < 2 ^ 31 := by
  have hlen : p.value.length < 2 ^ 32 := by
    have := h.value.length_le
    rw [List.length_drop] at this
    omega
  rw [← int32_eq_iff hlen, ← h.len]
  exact ⟨Holds.len, fun hlen => ⟨h.name, hlen, h.value⟩⟩

theorem FdtBlob.Stores.forall_holds_iff {ps : List FdtProperty} {props : List DtProp}
    (h : List.Forall₂ b.Stores ps props) (hlt : b.length < 2 ^ 32) :
    List.Forall₂ b.Holds ps props ↔ ∀ p ∈ props, p.value.length < 2 ^ 31 := by
  induction h with
  | nil => simp
  | cons hp _ ih => rw [List.forall₂_cons, hp.holds_iff hlt, ih, List.forall_mem_cons]

theorem mem_lexemes {name : List UInt8} {props : List DtProp} {children : List DeviceTree}
    {p : DtProp} : .prop p ∈ (DeviceTree.node name props children).lexemes ↔
      p ∈ props ∨ .prop p ∈ DeviceTree.forestLexemes children := by
  rw [DeviceTree.lexemes]
  simp

theorem represents_iff {nodes : List DeviceNode} (hlt : b.length < 2 ^ 32) (t : DeviceTree)
    {parent : Option ℕ} {i : ℕ} (h : Represents b b.Stores nodes t parent i) :
    Represents b b.Holds nodes t parent i ↔ ∀ p, .prop p ∈ t.lexemes → p.value.length < 2 ^ 31 := by
  induction t using DeviceTree.induct generalizing parent i with
  | node name props children ih =>
    rw [Represents] at h ⊢
    obtain ⟨n, hn, hname, hparent, hprops, hchildren⟩ := h
    have hall : RepresentsAll b b.Holds nodes children i n.children ↔
        ∀ p, .prop p ∈ DeviceTree.forestLexemes children → p.value.length < 2 ^ 31 := by
      generalize n.children = ids at hchildren
      induction children generalizing ids with
      | nil =>
        rw [RepresentsAll] at hchildren ⊢
        simp [hchildren, DeviceTree.forestLexemes]
      | cons t ts ihts =>
        rw [RepresentsAll] at hchildren ⊢
        obtain ⟨c, rest, rfl, ht, hts⟩ := hchildren
        have hhead := ih t (List.mem_cons_self ..) ht
        have htail := ihts (fun t ht => ih t (List.mem_cons_of_mem _ ht)) rest hts
        rw [DeviceTree.forestLexemes]
        simp only [List.cons.injEq, List.mem_append]
        constructor
        · rintro ⟨_, _, ⟨rfl, rfl⟩, hc, hrest⟩ p (hp | hp)
          · exact hhead.mp hc p hp
          · exact htail.mp hrest p hp
        · intro hp
          exact ⟨c, rest, ⟨rfl, rfl⟩, hhead.mpr fun p h => hp p (.inl h),
            htail.mpr fun p h => hp p (.inr h)⟩
    have hown := FdtBlob.Stores.forall_holds_iff hprops hlt
    simp only [mem_lexemes]
    constructor
    · rintro ⟨n', hn', -, -, hprops', hchildren'⟩ p (hp | hp)
      · obtain rfl := Option.some.inj (hn.symm.trans hn')
        exact hown.mp hprops' p hp
      · obtain rfl := Option.some.inj (hn.symm.trans hn')
        exact hall.mp hchildren' p hp
    · intro hp
      exact ⟨n, hn, hname, hparent, hown.mpr fun p h => hp p (.inl h),
        hall.mpr fun p h => hp p (.inr h)⟩

/-! ## Unflattening an encoding -/

theorem unflatten_nops {toks : List FdtToken} {s s' : Unflatten}
    (h : Run (UnflattenStep b dtStrings) s (toks.filter fun tok => tok ≠ .nop) s') :
    Run (UnflattenStep b dtStrings) s toks s' := by
  induction toks using List.reverseRecOn generalizing s' with
  | nil => exact h
  | append_singleton toks tok ih =>
    rw [List.filter_append] at h
    by_cases htok : tok = .nop
    · subst htok
      have hnil : [FdtToken.nop].filter (fun tok => tok ≠ .nop) = [] := rfl
      rw [hnil, List.append_nil] at h
      exact (ih h).snoc rfl
    · have hone : [tok].filter (fun tok => tok ≠ .nop) = [tok] := by simp [htok]
      rw [hone] at h
      obtain ⟨t, hrun, hlast⟩ := h.last
      exact (ih hrun).snoc hlast

theorem unflatten_built {t : DeviceTree} (h : b.Encodes t) (hlevels : t.levels ≤ 16) :
    ∃ fuel nodes, fdtWalk (unflatten fun _ => true) b fuel =
        some (some (.returned (nodes, some 0))) ∧ Built b t none 0 nodes := by
  obtain ⟨dtStruct, dtStrings, toks, off, next, hstruct, hstrings, htoks, hend, hmeans, -⟩ := h.tokens
  have hready : Unflatten.Ready (unflatten fun _ => true).init 0 none := ⟨rfl, rfl, by simp⟩
  obtain ⟨seg, s', hrun, hgrown, hbuilt⟩ := unflatten_tree t _ _ _ _ hmeans hready (by omega)
  have hends : Ends ((unflatten fun _ => true).step b dtStruct dtStrings)
      (0, (unflatten fun _ => true).init) (some (.returned (s'.nodes, s'.root))) :=
    FdtWalker.ends_of_tokens htoks (unflatten_nops hrun) hend rfl
  obtain ⟨fuel, hloop⟩ := ends_iff.mp hends
  rw [← FdtWalker.fdtWalk_eq h.valid.magic hstruct hstrings] at hloop
  have hroot : s'.root = some 0 := hgrown.root
  have hnodes : s'.nodes = seg := hgrown.nodes
  rw [hroot, hnodes] at hloop
  exact ⟨fuel, seg, hloop, hbuilt⟩

theorem unflatten_stores {t : DeviceTree} (h : b.Encodes t) (hlevels : t.levels ≤ 16) :
    ∃ fuel nodes, fdtWalk (unflatten fun _ => true) b fuel =
        some (some (.returned (nodes, some 0))) ∧ Represents b b.Stores nodes t none 0 := by
  obtain ⟨fuel, nodes, hwalk, hbuilt⟩ := unflatten_built h hlevels
  have hnodes : nodes = [] ++ (nodes ++ []) := (List.append_nil nodes).symm
  have hbuilt' : Built b t none ([] : List DeviceNode).length nodes := hbuilt
  exact ⟨fuel, nodes, hwalk, represents_of_built t hbuilt' hnodes⟩

/-- The nodes that `unflatten` returns are the tree. -/
def UnflattensExactly (b : FdtBlob) (t : DeviceTree) : Prop :=
  ∃ fuel nodes i, fdtWalk (unflatten fun _ => true) b fuel =
      some (some (.returned (nodes, some i))) ∧
    Represents b b.Holds nodes t none i

/-- **Unflattening inverts flattening** if and only if the value of every property is shorter than
`2 ^ 31` bytes. -/
theorem unflatten_inverts_iff {t : DeviceTree} (h : b.Encodes t) (hlevels : t.levels ≤ 16) :
    UnflattensExactly b t ↔ ∀ p, .prop p ∈ t.lexemes → p.value.length < 2 ^ 31 := by
  obtain ⟨fuel, nodes, hwalk, hstores⟩ := unflatten_stores h hlevels
  rw [← represents_iff (FdtBlob.be32_lt h.valid.size) t hstores]
  constructor
  · rintro ⟨fuel', nodes', i, hwalk', hholds⟩
    have hsame := Option.some.inj (FdtWalker.fdtWalk_unique hwalk hwalk')
    obtain ⟨rfl, hi⟩ := Prod.mk.inj (WalkEnd.returned.inj hsame)
    obtain rfl := Option.some.inj hi
    exact hholds
  · intro hholds
    exact ⟨fuel, nodes, 0, hwalk, hholds⟩

/-- A root node with one property `a`. -/
def oneProp (value : List UInt8) : DeviceTree := .node [] [⟨[97], value⟩] []

/-- An encoding of it. -/
def oneBlob (value : List UInt8) : FdtBlob :=
  fdtBlob (toBe 4 1 ++ toBe 4 0 ++ (toBe 4 3 ++ toBe 4 value.length ++ toBe 4 0 ++ value) ++
    toBe 4 2 ++ toBe 4 9) [97, 0]

theorem oneBlob_encodes {value : List UInt8} (hdvd : 4 ∣ value.length)
    (hlt : value.length < 2 ^ 31 + 4) : (oneBlob value).Encodes (oneProp value) := by
  let bytes := [toBe 4 1 ++ ([] ++ 0 :: [0, 0, 0]),
    toBe 4 3 ++ (toBe 4 value.length ++ (toBe 4 0 ++ (value ++ []))), toBe 4 2]
  have hblob : oneBlob value = fdtBlob (bytes.flatten ++ toBe 4 9) [97, 0] := by
    rw [oneBlob]
    congr 1
    simp only [bytes, List.flatten_cons, List.flatten_nil, List.append_nil, List.append_assoc,
      List.nil_append]
    rfl
  have hlen : (bytes.flatten ++ toBe 4 9).length = value.length + 28 := by
    simp only [bytes, List.flatten_cons, List.flatten_nil, List.append_nil, List.length_append,
      length_toBe, List.nil_append, List.length_cons, List.length_nil]
    omega
  have hlt' : 40 + (bytes.flatten ++ toBe 4 9).length + [97, (0 : UInt8)].length < 2 ^ 32 := by
    rw [hlen]
    show 40 + (value.length + 28) + 2 < 2 ^ 32
    omega
  obtain ⟨hvalid, hstruct, hstrings⟩ := fdtBlob_header (bytes.flatten ++ toBe 4 9) [97, 0] hlt'
  rw [hblob]
  refine ⟨hvalid, 40, _, [.beginNode [], .prop ⟨[97], value⟩, .endNode], bytes, hstruct, hstrings,
    rfl, ?_, ?_⟩
  · have hname : (fdtBlob (bytes.flatten ++ toBe 4 9) [97, 0]).StringAt
        (40 + (bytes.flatten ++ toBe 4 9).length + 0) [97] := by
      refine ⟨by decide, ?_⟩
      rw [Nat.add_zero, fdtBlob_drop_strings]
      exact List.prefix_rfl
    refine .cons ⟨by simp, [0, 0, 0], by decide, by simp, rfl⟩ (.cons ?_ (.cons rfl .nil))
    refine ⟨0, [], by decide, by show value.length < _; omega, hname, by decide, ?_, rfl⟩
    simp only [List.length_append, length_toBe, List.length_nil]
    omega
  · rw [fdtBlob_drop]
    exact List.prefix_append _ _

theorem unflatten_inverts_iff_one : (oneBlob [0, 0, 0, 2]).Encodes (oneProp [0, 0, 0, 2]) ∧
    UnflattensExactly (oneBlob [0, 0, 0, 2]) (oneProp [0, 0, 0, 2]) := by
  have hencodes : (oneBlob [0, 0, 0, 2]).Encodes (oneProp [0, 0, 0, 2]) :=
    oneBlob_encodes (by decide) (by decide)
  refine ⟨hencodes, (unflatten_inverts_iff hencodes (by decide)).mpr ?_⟩
  intro p hp
  rw [oneProp, mem_lexemes, List.mem_singleton] at hp
  obtain rfl | hnone := hp
  · decide
  · cases hnone

/-- **A huge value gets a negative length**: a property of `2 ^ 31` bytes. -/
theorem huge_value_has_negative_length : ∃ b t, b.Encodes t ∧ t.levels ≤ 16 ∧
    ¬ UnflattensExactly b t ∧ ∃ fuel nodes n prop, fdtWalk (unflatten fun _ => true) b fuel =
      some (some (.returned (nodes, some 0))) ∧ nodes[0]? = some n ∧ n.props = [prop] ∧
      prop.len = -2 ^ 31 := by
  have hlen : (List.replicate (2 ^ 31) (0 : UInt8)).length = 2 ^ 31 := List.length_replicate ..
  generalize List.replicate (2 ^ 31) (0 : UInt8) = value at hlen
  have hencodes : (oneBlob value).Encodes (oneProp value) :=
    oneBlob_encodes (by rw [hlen]; decide) (by rw [hlen]; decide)
  have hlevels : (oneProp value).levels ≤ 16 := by
    show 0 + 1 ≤ 16
    decide
  obtain ⟨fuel, nodes, hwalk, hstores⟩ := unflatten_stores hencodes hlevels
  refine ⟨oneBlob value, oneProp value, hencodes, hlevels, ?_, ?_⟩
  · rintro ⟨fuel', nodes', i, hwalk', hholds⟩
    have hsame := Option.some.inj (FdtWalker.fdtWalk_unique hwalk hwalk')
    obtain ⟨rfl, hi⟩ := Prod.mk.inj (WalkEnd.returned.inj hsame)
    obtain rfl := Option.some.inj hi
    have hfits := (represents_iff (FdtBlob.be32_lt hencodes.valid.size) _ hstores).mp hholds
      ⟨[97], value⟩ (mem_lexemes.mpr (.inl (List.mem_singleton.mpr rfl)))
    exact absurd hfits (by show ¬ value.length < 2 ^ 31; omega)
  · rw [oneProp, Represents] at hstores
    obtain ⟨n, hn, -, -, hprops, -⟩ := hstores
    rw [List.forall₂_cons_right_iff] at hprops
    obtain ⟨prop, rest, hprop, hnil, hps⟩ := hprops
    obtain rfl := List.forall₂_nil_right_iff.mp hnil
    refine ⟨fuel, nodes, n, prop, hwalk, hn, hps, ?_⟩
    rw [hprop.len, hlen]
    decide

end Lume
