import Lume.Fdt.Uart

/-!
# Queries on the nodes in memory

Once the tree is unflattened the kernel asks for a node by its path, or for the first node that is
compatible with a name. Both go over the nodes in memory and compare strings in place: a component
of a path with the name of a child, without copying it, and a name with each string of a list in
turn. `NodeTree.Linked` says that nodes in memory are linked as a tree. The queries are then
searches in that tree, for every layout of the nodes.

## Main definitions

* `findCompatible`, `getNodeByPath`: the queries
* `NodeTree`, `NodeTree.Linked`: a tree of nodes, and how it lies in memory
* `pathComponents`, `NodeTree.follow`: the components of a path, and where it leads
* `listsCompatible`: a name is in the `compatible` of a node

## Main results

* `getNodeByPath_eq`, `findCompatible_eq`: what the queries give
* `tree_queries_exact`: the same, and when they give nothing
-/

namespace Lume

/-! ## The search for a compatible node -/

/-- `DeviceNode::get_prop`; `none` is a read outside the blob. -/
def getProp (b : FdtBlob) (name : List UInt8) : List FdtProperty → Option (Option FdtProperty)
  | [] => some none
  | prop :: props => do
    if ← strEquals (b.text prop.name) name then return some prop
    getProp b name props

/-- `static_cast<uint32>` of an `int`. -/
def uint32 (n : ℤ) : ℕ := (n % 2 ^ 32).toNat

/-- The loop over the children of a node. -/
def findAmong (find : ℕ → Option (Option ℕ)) : List ℕ → Option (Option ℕ)
  | [] => some none
  | child :: rest => do
    match ← find child with
    | some found => return some found
    | none => findAmong find rest

/-- The test of `find_compat_recursive`; its loop over the strings is the one of
`prop_contains_string`. -/
def testCompatible (b : FdtBlob) (compat : List UInt8) (props : List FdtProperty) : Option Bool := do
  match ← getProp b (ascii "compatible") props with
  | some prop => propContainsString (b.text prop.value) (uint32 prop.len) compat
  | none => return false

/-- `find_compat_recursive`, to a depth of at most `fuel` -/
def findCompatRecursive (b : FdtBlob) (nodes : List DeviceNode) (compat : List UInt8) :
    ℕ → ℕ → Option (Option ℕ)
  | 0, _ => none
  | fuel + 1, i => do
    let node ← nodes[i]?
    if ← testCompatible b compat node.props then return some i
    findAmong (findCompatRecursive b nodes compat fuel) node.children

/-- `FdtManager::find_compatible`, once the tree is unflattened -/
def findCompatible (b : FdtBlob) (nodes : List DeviceNode) (root : Option ℕ) (compat : List UInt8)
    (fuel : ℕ) : Option (Option ℕ) :=
  match root with
  | none => some none
  | some root => findCompatRecursive b nodes compat fuel root

/-! ## The way along a path -/

/-- The character `/`. -/
def kSlash : UInt8 := 47

/-- The comparison of `get_node_by_path`: the name of a child up to the length of the component, and
then its end. -/
def matchesComponent : List UInt8 → List UInt8 → Option Bool
  | [], _ => none
  | c :: _, [] => some (c = 0)
  | c :: cn, p :: component => if c ≠ p then some false else matchesComponent cn component

/-- The loop over the children of a node. -/
def findChild (b : FdtBlob) (nodes : List DeviceNode) (component : List UInt8) :
    List ℕ → Option (Option ℕ)
  | [] => some none
  | child :: rest => do
    let node ← nodes[child]?
    if ← matchesComponent (b.text node.name) component then return some child
    findChild b nodes component rest

/-- Where the path goes on after a component: after the slash, if there is one. -/
def afterComponent (path : List UInt8) : List UInt8 := (path.dropWhile (· ≠ kSlash)).drop 1

theorem length_afterComponent {path : List UInt8} (h : path ≠ []) :
    (afterComponent path).length < path.length := by
  have hle := (List.dropWhile_suffix (l := path) (· ≠ kSlash)).length_le
  have hpos := List.length_pos_iff.mpr h
  rw [afterComponent, List.length_drop]
  omega

/-- The loop over the components of the path. -/
def followPath (b : FdtBlob) (nodes : List DeviceNode) (cur : ℕ) (path : List UInt8) :
    Option (Option ℕ) :=
  if path = [] then some (some cur)
  else do
    let node ← nodes[cur]?
    match ← findChild b nodes (path.takeWhile (· ≠ kSlash)) node.children with
    | none => return none
    | some child => followPath b nodes child (afterComponent path)
termination_by path.length
decreasing_by exact length_afterComponent ‹_›

/-- The path without a leading slash. -/
def skipSlash (path : List UInt8) : List UInt8 :=
  if path.head? = some kSlash then path.tail else path

/-- `FdtManager::get_node_by_path`, once the tree is unflattened -/
def getNodeByPath (b : FdtBlob) (nodes : List DeviceNode) (root : Option ℕ)
    (path : Option (List UInt8)) : Option (Option ℕ) :=
  match root, path with
  | some root, some path =>
    if skipSlash path = [] then some (some root) else followPath b nodes root (skipSlash path)
  | _, _ => some none

/-! ## Trees of nodes -/

/-- A tree of nodes, each with its place in memory. -/
inductive NodeTree
  | node (id : ℕ) (name : List UInt8) (props : List DtProp) (children : List NodeTree)

namespace NodeTree

def id : NodeTree → ℕ
  | .node id _ _ _ => id

def name : NodeTree → List UInt8
  | .node _ name _ _ => name

def props : NodeTree → List DtProp
  | .node _ _ props _ => props

def children : NodeTree → List NodeTree
  | .node _ _ _ children => children

theorem induct {P : NodeTree → Prop}
    (node : ∀ id name props children, (∀ t ∈ children, P t) → P (.node id name props children))
    (t : NodeTree) : P t :=
  @NodeTree.rec P (fun ts => ∀ t ∈ ts, P t) node
    (fun _ h => absurd h List.not_mem_nil)
    (fun _ _ ht hts _ h => (List.mem_cons.mp h).elim (fun e => e ▸ ht) (hts _)) t

mutual

/-- The nodes of a tree in pre-order. -/
def preorder : NodeTree → List NodeTree
  | .node id name props children => .node id name props children :: forestPreorder children

/-- The nodes of some trees, one after the other. -/
def forestPreorder : List NodeTree → List NodeTree
  | [] => []
  | t :: ts => preorder t ++ forestPreorder ts

end

mutual

/-- The number of levels of a tree. -/
def levels : NodeTree → ℕ
  | .node _ _ _ children => forestLevels children + 1

/-- The number of levels of the children of a node. -/
def forestLevels : List NodeTree → ℕ
  | [] => 0
  | t :: ts => max t.levels (forestLevels ts)

end

/-- A node in memory is a node of the tree. -/
structure Shows (b : FdtBlob) (t : NodeTree) (n : DeviceNode) : Prop where
  name : b.StringAt n.name t.name
  props : List.Forall₂ b.Stores n.props t.props
  children : n.children = t.children.map id

/-- The nodes in memory are linked as the tree. -/
def Linked (b : FdtBlob) (nodes : List DeviceNode) (t : NodeTree) : Prop :=
  ∀ u ∈ t.preorder, ∃ n, nodes[u.id]? = some n ∧ u.Shows b n

/-- Where a path leads: from each node to its first child with the name. -/
def follow (t : NodeTree) (components : List (List UInt8)) : Option NodeTree :=
  components.foldlM (fun u component => u.children.find? fun c => c.name = component) t

theorem follow_cons (t : NodeTree) (comp : List UInt8) (comps : List (List UInt8)) :
    t.follow (comp :: comps) =
      (t.children.find? fun c => c.name = comp).bind fun c => c.follow comps := by
  rw [follow, List.foldlM_cons]
  rfl

variable {b : FdtBlob} {nodes : List DeviceNode} {t c : NodeTree}

theorem mem_forestPreorder {u : NodeTree} {ts : List NodeTree} :
    u ∈ forestPreorder ts ↔ ∃ t ∈ ts, u ∈ t.preorder := by
  induction ts with
  | nil => simp [forestPreorder]
  | cons t ts ih => rw [forestPreorder, List.mem_append, ih, List.exists_mem_cons_iff]

theorem self_mem_preorder (t : NodeTree) : t ∈ t.preorder := by
  obtain ⟨id, name, props, children⟩ := t
  rw [preorder]
  exact List.mem_cons_self ..

theorem mem_preorder_of_child {u : NodeTree} (hc : c ∈ t.children) (hu : u ∈ c.preorder) :
    u ∈ t.preorder := by
  obtain ⟨id, name, props, children⟩ := t
  rw [preorder]
  exact List.mem_cons_of_mem _ (mem_forestPreorder.mpr ⟨c, hc, hu⟩)

theorem Linked.child (h : t.Linked b nodes) (hc : c ∈ t.children) : c.Linked b nodes :=
  fun u hu => h u (mem_preorder_of_child hc hu)

end NodeTree

/-! ## Paths -/

/-- The components of the rest of a path. A slash at the end only ends the last one. -/
def components (path : List UInt8) : List (List UInt8) :=
  if (path.splitOn kSlash).getLast? = some [] then (path.splitOn kSlash).dropLast
  else path.splitOn kSlash

/-- The components of a path, without the leading slash. -/
def pathComponents (path : List UInt8) : List (List UInt8) := components (skipSlash path)

section Paths

variable {b : FdtBlob} {nodes : List DeviceNode} {t : NodeTree} {path component : List UInt8}

theorem components_nil : components [] = [] := rfl

theorem components_last (hslash : kSlash ∉ component) (hne : component ≠ []) :
    components component = [component] := by
  rw [components, List.splitOn_eq_singleton hslash, if_neg]
  simpa using hne

theorem components_cons (hslash : kSlash ∉ component) (rest : List UInt8) :
    components (component ++ kSlash :: rest) = component :: components rest := by
  have hne := List.splitOn_ne_nil kSlash rest
  rw [components, components, List.splitOn_append_cons_self_of_not_mem hslash,
    List.getLast?_cons_of_ne_nil hne, List.dropLast_cons_of_ne_nil hne]
  exact (apply_ite (component :: ·) _ _ _).symm

theorem components_eq (hne : path ≠ []) : components path =
    path.takeWhile (· ≠ kSlash) :: components (afterComponent path) := by
  have hslash : kSlash ∉ path.takeWhile (· ≠ kSlash) := fun hmem => by
    simpa using List.all_eq_true.mp List.all_takeWhile kSlash hmem
  have hsplit := List.takeWhile_append_dropWhile (p := (· ≠ kSlash)) (l := path)
  rw [afterComponent]
  rcases hrest : path.dropWhile (· ≠ kSlash) with _ | ⟨c, rest⟩
  · rw [hrest, List.append_nil] at hsplit
    rw [hsplit] at hslash ⊢
    exact components_last hslash hne
  · obtain rfl : c = kSlash := by
      have hhead := List.head?_dropWhile_not (· ≠ kSlash) path
      rw [hrest] at hhead
      simpa using hhead
    rw [hrest] at hsplit
    nth_rewrite 1 [← hsplit]
    exact components_cons hslash rest

theorem matchesComponent_eq {name l : List UInt8} (hname : 0 ∉ name) (hcomp : 0 ∉ component)
    (h : name ++ [0] <+: l) : matchesComponent l component = some (decide (name = component)) := by
  induction name generalizing l component with
  | nil =>
    obtain ⟨tail, rfl⟩ := h
    cases component with
    | nil => rfl
    | cons p component =>
      have hne : (0 : UInt8) ≠ p := fun he => hcomp (he ▸ List.mem_cons_self ..)
      simp [matchesComponent, hne]
  | cons c name ih =>
    obtain ⟨tail, rfl⟩ := h
    rw [List.mem_cons, not_or] at hname
    cases component with
    | nil => simp [matchesComponent, Ne.symm hname.1]
    | cons p component =>
      rw [List.mem_cons, not_or] at hcomp
      rw [List.cons_append, List.cons_append, matchesComponent]
      by_cases hc : c = p
      · rw [if_neg (not_not.mpr hc), ih hname.2 hcomp.2 ⟨tail, rfl⟩]
        simp [hc]
      · rw [if_pos hc]
        simp [hc]

theorem findChild_eq {cs : List NodeTree} (h : ∀ c ∈ cs, c.Linked b nodes) (hcomp : 0 ∉ component) :
    findChild b nodes component (cs.map NodeTree.id) =
      some ((cs.find? fun c => c.name = component).map NodeTree.id) := by
  induction cs with
  | nil => rfl
  | cons c cs ih =>
    rw [List.forall_mem_cons] at h
    obtain ⟨n, hn, hshows⟩ := h.1 c c.self_mem_preorder
    have hmatch : matchesComponent (b.text n.name) component =
        some (decide (c.name = component)) :=
      matchesComponent_eq hshows.name.noNul hcomp hshows.name.here
    rw [List.map_cons, findChild, hn, List.find?_cons]
    simp only [Option.bind_eq_bind, Option.bind_some, hmatch, ih h.2]
    by_cases hc : c.name = component
    · simp [hc]
    · simp [hc]

theorem followPath_eq (h : t.Linked b nodes) (hpath : 0 ∉ path) :
    followPath b nodes t.id path = some ((t.follow (components path)).map NodeTree.id) := by
  induction hlen : path.length using Nat.strong_induction_on generalizing path t with
  | _ n ih =>
    rw [followPath]
    by_cases hne : path = []
    · rw [if_pos hne, hne]
      rfl
    · obtain ⟨n, hn, hshows⟩ := h t t.self_mem_preorder
      have hcomp : 0 ∉ path.takeWhile (· ≠ kSlash) := fun hmem =>
        hpath (List.takeWhile_subset _ hmem)
      have hrest : 0 ∉ afterComponent path := fun hmem =>
        hpath (List.dropWhile_subset _ (List.mem_of_mem_drop hmem))
      rw [if_neg hne, hn, components_eq hne, NodeTree.follow_cons]
      simp only [Option.bind_eq_bind, Option.bind_some, hshows.children,
        findChild_eq (fun c hc => h.child hc) hcomp]
      rcases hfind : t.children.find? _ with _ | c
      · rfl
      · have hlinked := h.child (List.mem_of_find?_eq_some hfind)
        exact ih _ (hlen ▸ length_afterComponent hne) hlinked hrest rfl

/-- **What `get_node_by_path` gives.** -/
theorem getNodeByPath_eq (h : t.Linked b nodes) (hpath : 0 ∉ path) :
    getNodeByPath b nodes (some t.id) (some path) =
      some ((t.follow (pathComponents path)).map NodeTree.id) := by
  have hskip : 0 ∉ skipSlash path := by
    rw [skipSlash]
    split
    · exact fun hmem => hpath (List.mem_of_mem_tail hmem)
    · exact hpath
  rw [getNodeByPath, pathComponents, ← followPath_eq h hskip, followPath]
  split <;> rfl

end Paths

/-! ## Compatible nodes -/

/-- A name is in the `compatible` of a node. -/
def listsCompatible (props : List DtProp) (name : List UInt8) : Bool :=
  (propNamed props "compatible").any fun p => (stringList p.value).contains name

/-- The `compatible` of a node is a list of strings, and its length is that of a value. -/
def CompatibleOk (props : List DtProp) : Prop :=
  ∀ p, propNamed props "compatible" = some p → NulTerminated p.value ∧ p.value.length < 2 ^ 32

section Compatible

variable {b : FdtBlob} {nodes : List DeviceNode} {t : NodeTree} {compat : List UInt8}
  {props : List DtProp} {ps : List FdtProperty}

theorem getProp_eq (h : List.Forall₂ b.Stores ps props) (name : String) (hname : 0 ∉ ascii name) :
    ∃ r, getProp b (ascii name) ps = some r ∧ Option.Rel b.Stores r (propNamed props name) := by
  induction h with
  | nil => exact ⟨none, rfl, .none⟩
  | @cons prop p ps props hp _ ih =>
    rw [getProp, hp.name.equals hname]
    by_cases heq : p.name = ascii name
    · refine ⟨some prop, by simp [heq], ?_⟩
      rw [propNamed_cons_self heq]
      exact .some hp
    · obtain ⟨r, hr, hrel⟩ := ih
      refine ⟨r, by simp [heq, hr], ?_⟩
      rwa [propNamed_cons_of_ne heq]

theorem uint32_int32 {n : ℕ} (h : n < 2 ^ 32) : uint32 (int32 n) = n := by
  rw [uint32, int32]
  split <;> omega

theorem testCompatible_eq (h : List.Forall₂ b.Stores ps props) (hok : CompatibleOk props)
    (hcompat : 0 ∉ compat) : testCompatible b compat ps = some (listsCompatible props compat) := by
  obtain ⟨r, hr, hrel⟩ := getProp_eq h "compatible" (by decide)
  rw [testCompatible, hr, listsCompatible]
  generalize hp : propNamed props "compatible" = o at hrel ⊢
  cases hrel with
  | none => rfl
  | @some prop p hstores =>
    obtain ⟨hnul, hlen⟩ := hok p hp
    have hlen' : uint32 prop.len = p.value.length := by rw [hstores.len, uint32_int32 hlen]
    show propContainsString (b.text prop.value) (uint32 prop.len) compat = _
    rw [hlen', Option.any_some, List.contains_eq_mem]
    exact propContainsString_eq hstores.value hlen hnul hcompat

/-- What the search gives in a tree: the first node in pre-order. -/
def FindsFirst (b : FdtBlob) (nodes : List DeviceNode) (compat : List UInt8) (t : NodeTree) : Prop :=
  ∀ fuel, t.levels ≤ fuel → findCompatRecursive b nodes compat fuel t.id =
    some ((t.preorder.find? fun u => listsCompatible u.props compat).map NodeTree.id)

theorem findAmong_eq {ts : List NodeTree} (h : ∀ t ∈ ts, FindsFirst b nodes compat t) {fuel : ℕ}
    (hfuel : NodeTree.forestLevels ts ≤ fuel) :
    findAmong (findCompatRecursive b nodes compat fuel) (ts.map NodeTree.id) =
      some (((NodeTree.forestPreorder ts).find? fun u => listsCompatible u.props compat).map
        NodeTree.id) := by
  induction ts with
  | nil => rfl
  | cons t ts ih =>
    rw [List.forall_mem_cons] at h
    rw [NodeTree.forestLevels] at hfuel
    rw [List.map_cons, findAmong, h.1 fuel (by omega), ih h.2 (by omega), NodeTree.forestPreorder,
      List.find?_append]
    generalize (t.preorder.find? fun u => listsCompatible u.props compat) = o
    cases o <;> rfl

/-- **The search finds the first compatible node** in pre-order. -/
theorem NodeTree.Linked.findsFirst (hcompat : 0 ∉ compat) (t : NodeTree) (h : t.Linked b nodes)
    (hok : ∀ u ∈ t.preorder, CompatibleOk u.props) : FindsFirst b nodes compat t := by
  induction t using NodeTree.induct with
  | node id name props children ih =>
    intro fuel hfuel
    rw [NodeTree.levels] at hfuel
    obtain ⟨fuel, rfl⟩ : ∃ k, fuel = k + 1 := ⟨fuel - 1, by omega⟩
    obtain ⟨n, hn, hshows⟩ := h _ (NodeTree.self_mem_preorder _)
    have htest := testCompatible_eq hshows.props (hok _ (NodeTree.self_mem_preorder _)) hcompat
    have hrest := findAmong_eq (fun c hc => ih c hc (h.child hc) fun u hu =>
      hok u (NodeTree.mem_preorder_of_child hc hu)) (Nat.le_of_succ_le_succ hfuel)
    rw [findCompatRecursive, hn, NodeTree.preorder, List.find?_cons]
    simp only [Option.bind_eq_bind, Option.bind_some, htest, hshows.children]
    cases listsCompatible (NodeTree.node id name props children).props compat with
    | true => rfl
    | false => exact hrest

/-- **What `find_compatible` gives.** -/
theorem findCompatible_eq (h : t.Linked b nodes) (hok : ∀ u ∈ t.preorder, CompatibleOk u.props)
    (hcompat : 0 ∉ compat) {fuel : ℕ} (hfuel : t.levels ≤ fuel) :
    findCompatible b nodes (some t.id) compat fuel =
      some ((t.preorder.find? fun u => listsCompatible u.props compat).map NodeTree.id) :=
  NodeTree.Linked.findsFirst hcompat t h hok fuel hfuel

end Compatible

/-! ## The queries -/

theorem NodeTree.follow_eq_none_iff {t : NodeTree} {comps : List (List UInt8)} :
    t.follow comps = none ↔ ∃ before comp after u, comps = before ++ comp :: after ∧
      t.follow before = some u ∧ ∀ c ∈ u.children, c.name ≠ comp := by
  induction comps generalizing t with
  | nil =>
    refine ⟨fun h => absurd h (by simp [follow]), ?_⟩
    rintro ⟨before, comp, after, u, hcomps, -⟩
    exact absurd hcomps.symm (List.append_ne_nil_of_right_ne_nil _ (List.cons_ne_nil _ _))
  | cons comp comps ih =>
    rw [follow_cons]
    rcases hfind : t.children.find? (fun c => c.name = comp) with _ | c
    · rw [hfind]
      refine ⟨fun _ => ⟨[], comp, comps, t, rfl, rfl, fun c hc => ?_⟩, fun _ => rfl⟩
      simpa using List.find?_eq_none.mp hfind c hc
    · rw [hfind, Option.bind_some, ih]
      constructor
      · rintro ⟨before, comp', after, u, rfl, hu, hno⟩
        refine ⟨comp :: before, comp', after, u, rfl, ?_, hno⟩
        rw [follow_cons, hfind]
        exact hu
      · rintro ⟨before, comp', after, u, hcomps, hu, hno⟩
        rcases before with _ | ⟨first, before⟩
        · -- the first step does not fail
          obtain ⟨rfl, rfl⟩ := List.cons.inj hcomps
          obtain rfl : t = u := Option.some.inj hu
          exact absurd (by simpa using List.find?_some hfind)
            (hno c (List.mem_of_find?_eq_some hfind))
        · obtain ⟨rfl, rfl⟩ := List.cons.inj hcomps
          rw [follow_cons, hfind] at hu
          exact ⟨before, comp', after, u, rfl, hu, hno⟩

/-- **The queries are exact**: a path leads from each node to the first child whose whole name is the
component, and to no node if there is none; and the compatible node is the first one in pre-order
that lists the name. -/
theorem tree_queries_exact {b : FdtBlob} {nodes : List DeviceNode} {t : NodeTree}
    (h : t.Linked b nodes) (hok : ∀ u ∈ t.preorder, CompatibleOk u.props) {str : List UInt8}
    (hstr : 0 ∉ str) : getNodeByPath b nodes (some t.id) (some str) =
        some ((t.follow (pathComponents str)).map NodeTree.id) ∧
    (getNodeByPath b nodes (some t.id) (some str) = some none ↔
      ∃ before comp after u, pathComponents str = before ++ comp :: after ∧
        t.follow before = some u ∧ ∀ c ∈ u.children, c.name ≠ comp) ∧ ∀ fuel, t.levels ≤ fuel →
      findCompatible b nodes (some t.id) str fuel =
        some ((t.preorder.find? fun u => listsCompatible u.props str).map NodeTree.id) ∧
      (findCompatible b nodes (some t.id) str fuel = some none ↔
        ∀ u ∈ t.preorder, listsCompatible u.props str = false) := by
  have hpath := getNodeByPath_eq h hstr
  refine ⟨hpath, ?_, fun fuel hfuel => ?_⟩
  · rw [hpath, ← NodeTree.follow_eq_none_iff, Option.some_inj, Option.map_eq_none_iff]
  · have hfind := findCompatible_eq h hok hstr hfuel
    refine ⟨hfind, ?_⟩
    rw [hfind, Option.some_inj, Option.map_eq_none_iff, List.find?_eq_none]
    simp only [Bool.not_eq_true]

/-- Two names, the name of a property and its value. -/
def cpuBlob : FdtBlob := 0 :: ascii "cpu" ++ 0 :: ascii "compatible" ++ [0, 97, 0, 98, 0]

/-- A root with one child. -/
def cpuNodes : List DeviceNode := [⟨0, none, [1], []⟩, ⟨1, some 0, [], [⟨5, 16, 4⟩]⟩]

def cpuTree : NodeTree :=
  .node 0 [] [] [.node 1 (ascii "cpu") [⟨ascii "compatible", [97, 0, 98, 0]⟩] []]

theorem cpuTree_linked : cpuTree.Linked cpuBlob cpuNodes := by
  have hpre : cpuTree.preorder = [cpuTree, .node 1 (ascii "cpu")
      [⟨ascii "compatible", [97, 0, 98, 0]⟩] []] := rfl
  rw [NodeTree.Linked, hpre, List.forall_mem_cons, List.forall_mem_singleton]
  refine ⟨⟨_, rfl, ⟨by decide, by decide⟩, .nil, rfl⟩,
    ⟨_, rfl, ⟨by decide, by decide⟩, .cons ⟨⟨by decide, by decide⟩, rfl, by decide⟩ .nil, rfl⟩⟩

set_option maxRecDepth 10000 in
theorem tree_queries_exact_cpu :
    getNodeByPath cpuBlob cpuNodes (some 0) (some (ascii "/cpu/")) = some (some 1) ∧
    getNodeByPath cpuBlob cpuNodes (some 0) (some (ascii "/cp")) = some none ∧
    findCompatible cpuBlob cpuNodes (some 0) [98] 2 = some (some 1) := by
  have hok : ∀ u ∈ cpuTree.preorder, CompatibleOk u.props := by
    have hall : ∀ u ∈ cpuTree.preorder, ∀ p ∈ propNamed u.props "compatible",
        NulTerminated p.value ∧ p.value.length < 2 ^ 32 := by decide
    exact hall
  exact ⟨(tree_queries_exact cpuTree_linked hok (by decide)).1,
    (tree_queries_exact cpuTree_linked hok (by decide)).1,
    ((tree_queries_exact cpuTree_linked hok (by decide)).2.2 2 (by decide)).1⟩

end Lume
