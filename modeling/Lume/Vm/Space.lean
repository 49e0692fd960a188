import Lume.Vm.Pmap
import Lume.Foundation.Segments

/-!
# User address spaces

The address-space operations of `mm/vma.cc`: regions with permissions in an ordered tree, demand
paging and copy-on-write cloning. The tree of regions is the list of its nodes in key order, so
that `rb_add` is insertion by start and `rb_find` with `vma_cmp` finds the region around an
address.

The code edits a node where it sits and remembers the next node before it unlinks one, so a loop
over the tree is a loop over the nodes as they were when it began.

## Main definitions

* `Vma`, `VmSpace`: a region, and an address space
* `Machine.mapUser`, `Machine.unmapUser`, `Machine.protectUser`, `Machine.handlePageFault`,
  `Machine.clone`, `Machine.createSpace`, `Machine.destroySpace`: the operations
-/

namespace Lume

/-- `VmAreaStruct`; the tag of the segment is its permission. -/
abbrev Vma := Seg Word

/-- `VmAreaStruct::perm` -/
abbrev Seg.perm (v : Seg Word) : Word := v.tag

/-- `VmSpace` -/
structure VmSpace where
  rootPa : ℕ
  vmas : List Vma
  brkStart : ℕ
  brkEnd : ℕ

/-- `VmFaultCause` -/
inductive VmFaultCause
  | read
  | write
  | exec
deriving DecidableEq

/-- `kUserVaBase` -/
def kUserVaBase : ℕ := kPageSize

/-- `kUserVaLimit` -/
def kUserVaLimit : ℕ := 0xFFFFFFC000000000

/-- The range check shared by `vmm_map_user`, `vmm_unmap_user` and `vmm_protect_user`, in 64-bit
arithmetic. -/
def UserRange (va len : ℕ) : Prop :=
  kUserVaBase ≤ va ∧ va < kUserVaLimit ∧ va ≤ (va + len) % 2 ^ 64 ∧
    (va + len) % 2 ^ 64 ≤ kUserVaLimit

instance (va len : ℕ) : Decidable (UserRange va len) := inferInstanceAs (Decidable (_ ∧ _))

/-- The page addresses of `for (addr = start; addr < stop; addr += kPageSize)`. -/
def pageAddrs (start stop : ℕ) : List ℕ :=
  (List.range ((stop - start + kPageSize - 1) / kPageSize)).map fun i => start + kPageSize * i

/-! ## The tree of regions -/

/-- `vma_overlaps_locked` -/
def vmaOverlaps (t : List Vma) (start stop : ℕ) : Bool :=
  t.any fun v => start < v.stop ∧ v.start < stop

/-- The loop of `vma_range_covered_locked` over the nodes left. -/
def rangeCovered (stop : ℕ) : List Vma → ℕ → Bool
  | [], cursor => stop ≤ cursor
  | v :: t, cursor =>
    if cursor < stop then
      if v.stop ≤ cursor then rangeCovered stop t cursor
      else if cursor < v.start then false
      else rangeCovered stop t v.stop
    else true

/-- The second half of `vma_try_merge_neighbors_locked`, on the nodes before `v`, `v`, and the
nodes after `v`. -/
def mergeNext (before : List Vma) (v : Vma) : List Vma → List Vma
  | [] => before ++ [v]
  | next :: after =>
    if v.stop = next.start ∧ v.perm = next.perm then
      before ++ { v with stop := next.stop } :: after
    else before ++ v :: next :: after

/-- `vma_try_merge_neighbors_locked` -/
def mergeNeighbors (t : List Vma) (v : Vma) : List Vma :=
  let before := t.takeWhile (· ≠ v)
  let after := (t.dropWhile (· ≠ v)).tail
  match before.getLast? with
  | some prev =>
    if prev.stop = v.start ∧ prev.perm = v.perm then
      mergeNext before.dropLast { prev with stop := v.stop } after
    else mergeNext before v after
  | none => mergeNext before v after

namespace Machine

/-- `vma_split_locked` -/
def splitVma (m : Machine) (t : List Vma) (v : Vma) (split : ℕ) : Int × Machine × List Vma :=
  if split ≤ v.start ∨ v.stop ≤ split then (0, m, t)
  else
    match m.draw with
    | (false, m) => (-eNomem, m, t)
    | (true, m) =>
      (0, m, Segs.add (Segs.edit t v { v with stop := split }) { v with start := split })

/-- `vma_split_range_locked` -/
def splitRange (m : Machine) (t : List Vma) (start stop : ℕ) : Int × Machine × List Vma :=
  if stop ≤ start then (0, m, t)
  else
    match Segs.find t start with
    | none => (-eNomem, m, t)
    | some v =>
      match m.splitVma t v start with
      | (ret, m, t) =>
        if ret < 0 then (ret, m, t)
        else
          match Segs.find t (stop - 1) with
          | none => (-eNomem, m, t)
          | some v => m.splitVma t v stop

/-! ## Mapping and unmapping -/

/-- `vmm_map_user` -/
def mapUser (m : Machine) (space : VmSpace) (va len : ℕ) (perm : Word) :
    Int × Machine × VmSpace :=
  let va := pageAlignDown va
  let len := pageAlignUp len
  if len = 0 then (0, m, space)
  else if ¬ UserRange va len then (-eInval, m, space)
  else
    match m.draw with
    | (false, m) => (-eNomem, m, space)
    | (true, m) =>
      let vma : Vma := ⟨va, va + len, perm ||| vmUser⟩
      if vmaOverlaps space.vmas vma.start vma.stop then (-eInval, m, space)
      else (0, m, { space with vmas := mergeNeighbors (Segs.add space.vmas vma) vma })

/-- The body of `vmm_unmap_user`'s loop over the pages of a region. -/
def dropPage (m : Machine) (root addr : ℕ) : Machine :=
  match m.mem.lookup root addr with
  | some pa => (m.decref pa).unmap root addr
  | none => m

/-- The loop of `vmm_unmap_user` over the pages of a region. -/
def dropPages (m : Machine) (root start stop : ℕ) : Machine :=
  (pageAddrs start stop).foldl (fun m addr => m.dropPage root addr) m

/-- The loop of `vmm_unmap_user` over the nodes left, on the current tree. -/
def unmapLoop (root va stop : ℕ) : List Vma → Machine → List Vma → Int × Machine × List Vma
  | [], m, t => (0, m, t)
  | v :: rest, m, t =>
    if v.stop ≤ va then unmapLoop root va stop rest m t
    else if stop ≤ v.start then (0, m, t)
    else
      let unmapStart := if va < v.start then v.start else va
      let unmapStop := if v.stop < stop then v.stop else stop
      let m := if unmapStart < unmapStop then m.dropPages root unmapStart unmapStop else m
      if unmapStart = v.start ∧ unmapStop = v.stop then
        unmapLoop root va stop rest m (t.erase v)
      else if unmapStart = v.start then
        unmapLoop root va stop rest m (Segs.add (t.erase v) { v with start := unmapStop })
      else if unmapStop = v.stop then
        unmapLoop root va stop rest m (Segs.edit t v { v with stop := unmapStart })
      else
        match m.draw with
        | (false, m) => (-eNomem, m, t)
        | (true, m) =>
          (0, m, Segs.add (Segs.edit t v { v with stop := unmapStart })
            { v with start := unmapStop })

/-- `vmm_unmap_user` -/
def unmapUser (m : Machine) (space : VmSpace) (va len : ℕ) : Int × Machine × VmSpace :=
  let va := pageAlignDown va
  let len := pageAlignUp len
  if len = 0 then (0, m, space)
  else if ¬ UserRange va len then (-eInval, m, space)
  else
    match unmapLoop space.rootPa va (va + len) space.vmas m space.vmas with
    | (ret, m, t) => (ret, m, { space with vmas := t })

/-! ## Changing permissions -/

/-- The body of `vmm_protect_user`'s loop over the pages of a region with new permission
`vmaPerm`. -/
def protectPage (m : Machine) (root : ℕ) (perm vmaPerm : Word) (addr : ℕ) : Int × Machine :=
  match m.mem.lookup root addr with
  | none => (0, m)
  | some pa =>
    if perm = 0 then (0, (m.decref pa).unmap root addr)
    else
      m.protect root addr
        (if vmaPerm.Has vmWrite ∧ m.mem.isCow root addr then cowFlags (vmPermToPte vmaPerm)
        else vmPermToPte vmaPerm)

/-- The loop of `vmm_protect_user` over the page addresses left. -/
def protectPages (root : ℕ) (perm vmaPerm : Word) : List ℕ → Machine → Int × Machine
  | [], m => (0, m)
  | addr :: addrs, m =>
    match m.protectPage root perm vmaPerm addr with
    | (ret, m) => if ret < 0 then (ret, m) else protectPages root perm vmaPerm addrs m

/-- The loop of `vmm_protect_user` over the nodes left, with the nodes already passed. -/
def protectLoop (root va stop : ℕ) (perm : Word) :
    List Vma → List Vma → Machine → Int × Machine × List Vma
  | passed, [], m => (0, m, passed)
  | passed, v :: rest, m =>
    if stop ≤ v.start then (0, m, passed ++ v :: rest)
    else if v.stop ≤ va then protectLoop root va stop perm (passed ++ [v]) rest m
    else
      let v := { v with tag := perm ||| vmUser }
      match protectPages root perm v.perm (pageAddrs v.start v.stop) m with
      | (ret, m) =>
        if ret < 0 then (ret, m, passed ++ v :: rest)
        else protectLoop root va stop perm (passed ++ [v]) rest m

/-- `vmm_protect_user` -/
def protectUser (m : Machine) (space : VmSpace) (va len : ℕ) (perm : Word) :
    Int × Machine × VmSpace :=
  let va := pageAlignDown va
  let len := pageAlignUp len
  if len = 0 then (-eInval, m, space)
  else if ¬ UserRange va len then (-eInval, m, space)
  else if ¬ rangeCovered (va + len) space.vmas va then (-eNomem, m, space)
  else
    match m.splitRange space.vmas va (va + len) with
    | (ret, m, t) =>
      if ret < 0 then (ret, m, { space with vmas := t })
      else
        match protectLoop space.rootPa va (va + len) perm (t.takeWhile (va ∉ ·))
          (t.dropWhile (va ∉ ·)) m with
        | (ret, m, t) => (ret, m, { space with vmas := t })

/-! ## Page faults -/

/-- `vma_allows` -/
def vmaAllows (v : Vma) : VmFaultCause → Prop
  | .read => v.perm.Has vmRead
  | .write => v.perm.Has vmWrite
  | .exec => v.perm.Has vmExec

instance (v : Vma) (cause : VmFaultCause) : Decidable (vmaAllows v cause) := by
  cases cause <;> exact inferInstanceAs (Decidable (_ ≠ _))

/-- The copy-on-write path of `vmm_handle_page_fault`: a private copy of the frame `pa`. -/
def cowFault (m : Machine) (root addr pa : ℕ) (perm : Word) : Int × Machine :=
  match m.allocPage with
  | (none, m) => (-eNomem, m)
  | (some newPa, m) =>
    match (m.fill newPa (m.mem pa)).map root addr newPa (vmPermToPte perm) with
    | (ret, m) => if ret ≠ 0 then (-eNomem, m.freePage newPa) else (0, m.decref pa)

/-- The demand-paging path of `vmm_handle_page_fault`. -/
def demandFault (m : Machine) (root addr : ℕ) (perm : Word) : Int × Machine :=
  match m.allocPage with
  | (none, m) => (-eNomem, m)
  | (some pa, m) =>
    match m.map root addr pa (vmPermToPte perm) with
    | (ret, m) => if ret ≠ 0 then (-eNomem, m.freePage pa) else (0, m)

/-- `vmm_handle_page_fault` -/
def handlePageFault (m : Machine) (space : VmSpace) (faultAddr : ℕ) (cause : VmFaultCause) :
    Int × Machine :=
  let addr := pageAlignDown faultAddr
  match Segs.find space.vmas faultAddr with
  | none => (-eFault, m)
  | some v =>
    if ¬ vmaAllows v cause then (-eFault, m)
    else
      match m.mem.lookup space.rootPa addr with
      | some pa =>
        if cause = .write ∧ m.mem.isCow space.rootPa addr then
          m.cowFault space.rootPa addr pa v.perm
        else (0, m)
      | none => m.demandFault space.rootPa addr v.perm

/-! ## Creation, destruction and cloning -/

/-- `VmSpace::create` -/
def createSpace (m : Machine) : Option VmSpace × Machine :=
  match m.draw with
  | (false, m) => (none, m)
  | (true, m) =>
    match m.pmapCreate with
    | (none, m) => (none, m)
    | (some root, m) => (some ⟨root, [], 0, 0⟩, m)

/-- The body of `VmSpace::destroy`'s loop over the pages of a region. -/
def releasePage (m : Machine) (root addr : ℕ) : Machine :=
  match m.mem.lookup root addr with
  | some pa => m.decref pa
  | none => m

/-- `VmSpace::destroy` -/
def destroySpace (m : Machine) (space : VmSpace) : Machine :=
  (space.vmas.foldl (fun m v =>
    (pageAddrs v.start v.stop).foldl (fun m addr => m.releasePage space.rootPa addr) m)
    m).pmapDestroy space.rootPa

/-- The body of `vmm_clone`'s loop over the pages of a region; `false` when `pmap::map` fails. -/
def clonePage (m : Machine) (parentRoot childRoot : ℕ) (perm : Word) (addr : ℕ) :
    Bool × Machine :=
  match m.mem.lookup parentRoot addr with
  | none => (true, m)
  | some pa =>
    let m := if perm.Has vmWrite then (m.makeCow parentRoot addr).2 else m
    let ptePerm := if perm.Has vmWrite then cowFlags (vmPermToPte perm) else vmPermToPte perm
    match m.map childRoot addr pa ptePerm with
    | (ret, m) => if ret ≠ 0 then (false, m) else (true, m.incref pa)

/-- The loop of `vmm_clone` over the page addresses left. -/
def clonePages (parentRoot childRoot : ℕ) (perm : Word) : List ℕ → Machine → Bool × Machine
  | [], m => (true, m)
  | addr :: addrs, m =>
    match m.clonePage parentRoot childRoot perm addr with
    | (false, m) => (false, m)
    | (true, m) => clonePages parentRoot childRoot perm addrs m

/-- The loop of `vmm_clone` over the nodes of the parent that are left. -/
def cloneLoop (parentRoot : ℕ) : List Vma → VmSpace → Machine → Option VmSpace × Machine
  | [], child, m => (some child, m)
  | v :: rest, child, m =>
    match m.draw with
    | (false, m) => (none, m.destroySpace child)
    | (true, m) =>
      match clonePages parentRoot child.rootPa v.perm (pageAddrs v.start v.stop) m with
      | (false, m) => (none, m.destroySpace child)
      | (true, m) => cloneLoop parentRoot rest { child with vmas := Segs.add child.vmas v } m

/-- `vmm_clone` -/
def clone (m : Machine) (parent : VmSpace) : Option VmSpace × Machine :=
  match m.createSpace with
  | (none, m) => (none, m)
  | (some child, m) =>
    cloneLoop parent.rootPa parent.vmas
      { child with brkStart := parent.brkStart, brkEnd := parent.brkEnd } m

end Machine

end Lume
