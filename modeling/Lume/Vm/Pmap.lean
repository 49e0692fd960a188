import Lume.Vm.Pte
import Lume.Pmm.Model

/-!
# Page tables in memory

The operations of `arch/riscv/mm/pmap.cc` on three-level SV39 tables, over physical memory and
the page allocator. A table is named by its physical address, as in the code.

Memory allocation may fail at any point. A machine carries a list of outcomes, one for every
allocation to come, and an allocation with outcome `false` fails; when the list is used up only
an exhausted allocator fails.

## Main definitions

* `Machine`: physical memory, the page allocator, and the outcomes of the allocations to come
* `Machine.lookup`, `Machine.isCow`, `Machine.protect`, `Machine.makeCow`, `Machine.unmap`,
  `Machine.map`, `Machine.pmapCreate`, `Machine.pmapDestroy`: the interface of `pmap`
-/

namespace Lume

/-- Physical memory as seen through the direct map: `mem pa i` is word `i` of the page at `pa`. -/
abbrev Mem := ℕ → ℕ → Word

/-- `ptr[i] = w` for a pointer into the page at `pa` -/
def Mem.write (mem : Mem) (pa i : ℕ) (w : Word) : Mem :=
  Function.update mem pa (Function.update (mem pa) i w)

/-- The part of the machine that the memory-management code acts on, from CPU `cpu`. -/
structure Machine where
  mem : Mem
  pmm : Pmm
  cpu : ℕ
  luck : List Bool

/-- `kPtePerPage` -/
def kPtePerPage : ℕ := 512

/-- `vpn` -/
def vpn (va level : ℕ) : ℕ := (va >>> (12 + 9 * level)) &&& 0x1FF

namespace Machine

/-- Whether the next allocation is allowed to succeed. -/
def draw (m : Machine) : Bool × Machine :=
  match m.luck with
  | [] => (true, m)
  | ok :: luck => (ok, { m with luck := luck })

/-- `pmm_alloc_page`, and the physical address of the page -/
def allocPage (m : Machine) : Option ℕ × Machine :=
  match m.draw with
  | (false, m) => (none, m)
  | (true, m) =>
    let r := m.pmm.allocPage m.cpu
    (r.1.map m.pmm.ram.pageToPa, { m with pmm := r.2 })

/-- Act on the descriptor of the page at `pa`. An address outside the managed range is a panic
of `pa_to_page`, and leaves the machine as it is. -/
def onPage (m : Machine) (pa : ℕ) (f : Pmm → ℕ → Pmm) : Machine :=
  match m.pmm.ram.paToPage pa with
  | some p => { m with pmm := f m.pmm p }
  | none => m

/-- `pmm_free_page(pa_to_page(pa))` -/
def freePage (m : Machine) (pa : ℕ) : Machine := m.onPage pa fun s p => s.freePage m.cpu p

/-- `page_incref(pa_to_page(pa))` -/
def incref (m : Machine) (pa : ℕ) : Machine := m.onPage pa Pmm.incref

/-- `page_decref(pa_to_page(pa))` -/
def decref (m : Machine) (pa : ℕ) : Machine := m.onPage pa fun s p => s.decref m.cpu p

/-- Write a word of physical memory. -/
def write (m : Machine) (pa i : ℕ) (w : Word) : Machine := { m with mem := m.mem.write pa i w }

/-- Overwrite a whole page. -/
def fill (m : Machine) (pa : ℕ) (page : ℕ → Word) : Machine :=
  { m with mem := Function.update m.mem pa page }

/-- `alloc_pt_page`, once the boot-time allocator is retired -/
def allocPtPage (m : Machine) : Option ℕ × Machine :=
  match m.allocPage with
  | (none, m) => (none, m)
  | (some pa, m) => (some pa, m.fill pa fun _ => 0)

/-- `pmap::create` -/
def pmapCreate (m : Machine) : Option ℕ × Machine := m.allocPtPage

end Machine

/-! ## Walks -/

namespace Mem

/-- The walk shared by `lookup`, `is_cow`, `protect` and `make_cow`, with `n` levels left: the
table and index of the leaf entry. -/
def findLeaf (mem : Mem) (va : ℕ) : ℕ → ℕ → Option (ℕ × ℕ)
  | 0, _ => none
  | level + 1, table =>
    let idx := vpn va level
    let pte := mem table idx
    if pte.IsValid then
      if pte.IsLeaf then some (table, idx) else findLeaf mem va level (pteToPa pte)
    else none

/-- `pmap::lookup` -/
def lookup (mem : Mem) (root va : ℕ) : Option ℕ :=
  (mem.findLeaf va 3 root).map fun e => pteToPa (mem e.1 e.2)

/-- `pmap::is_cow` -/
def isCow (mem : Mem) (root va : ℕ) : Bool :=
  match mem.findLeaf va 3 root with
  | some e => decide ((mem e.1 e.2).Has pteCow)
  | none => false

/-- The walk of `unmap`, which tests `PTE_V` only, with `n` levels left: the level-0 table. -/
def findTable (mem : Mem) (va : ℕ) : ℕ → ℕ → Option ℕ
  | 0, table => some table
  | level + 1, table =>
    let pte := mem table (vpn va (level + 1))
    if pte.IsValid then findTable mem va level (pteToPa pte) else none

end Mem

namespace Machine

/-- `pmap::protect` -/
def protect (m : Machine) (root va : ℕ) (perm : Word) : Int × Machine :=
  match m.mem.findLeaf va 3 root with
  | some e => (0, m.write e.1 e.2 (paToPte (pteToPa (m.mem e.1 e.2)) (perm ||| pteV)))
  | none => (-14, m)

/-- `pmap::make_cow` -/
def makeCow (m : Machine) (root va : ℕ) : Int × Machine :=
  match m.mem.findLeaf va 3 root with
  | some e => (0, m.write e.1 e.2 (cowFlags (m.mem e.1 e.2)))
  | none => (-14, m)

/-- `pmap::unmap` -/
def unmap (m : Machine) (root va : ℕ) : Machine :=
  match m.mem.findTable va 2 root with
  | some table => m.write table (vpn va 0) 0
  | none => m

/-- The walk of `map` with `n` levels left: missing tables are allocated on the way. -/
def mapWalk (m : Machine) (va : ℕ) : ℕ → ℕ → Option ℕ × Machine
  | 0, table => (some table, m)
  | level + 1, table =>
    let idx := vpn va (level + 1)
    if (m.mem table idx).IsValid then mapWalk m va level (pteToPa (m.mem table idx))
    else
      match m.allocPtPage with
      | (none, m) => (none, m)
      | (some child, m) =>
        let m := m.write table idx (paToPte child pteV)
        mapWalk m va level (pteToPa (m.mem table idx))

/-- `pmap::map` -/
def map (m : Machine) (root va pa : ℕ) (perm : Word) : Int × Machine :=
  match m.mapWalk va 2 root with
  | (none, m) => (-12, m)
  | (some table, m) => (0, m.write table (vpn va 0) (paToPte pa (perm ||| pteV ||| pteA ||| pteD)))

/-- The loop of `pmap::destroy` over the entries of a level-1 table. -/
def destroyL1 (m : Machine) (l1 : ℕ) : Machine :=
  (List.range kPtePerPage).foldl (fun m j =>
    let pte := m.mem l1 j
    if pte.IsValid ∧ ¬ pte.IsLeaf then m.freePage (pteToPa pte) else m) m

/-- `pmap::destroy` -/
def pmapDestroy (m : Machine) (root : ℕ) : Machine :=
  ((List.range kPtePerPage).foldl (fun m i =>
    let pte := m.mem root i
    if pte.IsValid ∧ ¬ pte.IsLeaf then (m.destroyL1 (pteToPa pte)).freePage (pteToPa pte)
    else m) m).freePage root

end Machine

end Lume
