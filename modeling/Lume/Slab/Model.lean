import Lume.Pmm.Model
import Lume.Foundation.FreeList

/-!
# The slab allocator

`kmalloc` and `kfree` of `mm/slab.cc`. Each size class has a cache, which keeps one active page per
CPU; the free objects of a page are linked through their own first word, and the page descriptor
holds the head of that list and the number of objects that are in use. There is no list of partial
pages: a page that is full is forgotten until one of its objects is freed, and a page that becomes
empty goes back to the page allocator. Requests beyond the largest class take whole pages.

Objects are named by their physical addresses, as the kernel reaches all of memory through one
direct map. A panic is `none`.

## Main definitions

* `KmemCache`, `Slab`: the caches, and the state with the page allocator and the words of memory
* `Slab.alloc`, `Slab.free`: `KmemCache::alloc` and `KmemCache::free`
* `Slab.kmalloc`, `Slab.kfree`
-/

namespace Lume

/-- `kSizeClasses` -/
def kSizeClasses : List ℕ := [8, 16, 32, 64, 128, 256, 512, 1024, 2048]

/-- `align_up`, for a power of two -/
def alignUp (x align : ℕ) : ℕ := (x + align - 1) / align * align

/-- `KmemCache`, without the lock and the list that no code uses. -/
structure KmemCache where
  objAlign : ℕ
  objSize : ℕ
  objsPerSlab : ℕ
  /-- `cpu_slab_[cpu].active` -/
  active : ℕ → Option ℕ

/-- `KmemCache::init` -/
def KmemCache.init (objSize objAlign : ℕ) : KmemCache :=
  let align := if objAlign < 8 then 8 else objAlign
  let size := alignUp (if objSize < 8 then 8 else objSize) align
  ⟨align, size, kPageSize / size, fun _ => none⟩

/-- The state: the page allocator with the page descriptors, `g_size_caches`, and the pointers
stored in memory. -/
structure Slab where
  pmm : Pmm
  caches : ℕ → KmemCache
  mem : ℕ → Option ℕ

namespace Slab

variable (s : Slab)

/-- `slab_init` -/
def init (pmm : Pmm) (mem : ℕ → Option ℕ) : Slab :=
  ⟨pmm, fun i => KmemCache.init (kSizeClasses.getD i 0) 8, mem⟩

def setActive (i cpu : ℕ) (page : Option ℕ) : Slab :=
  let cache := { s.caches i with active := Function.update (s.caches i).active cpu page }
  { s with caches := Function.update s.caches i cache }

/-! ## Caches -/

/-- The loop of `new_slab`: it links the slots from the last one to the first. -/
def formatLoop (base size : ℕ) : ℕ → Option ℕ → (ℕ → Option ℕ) → Option ℕ × (ℕ → Option ℕ)
  | 0, head, mem => (head, mem)
  | i + 1, head, mem =>
    formatLoop base size i (some (base + i * size)) (Function.update mem (base + i * size) head)

/-- `KmemCache::new_slab` -/
def newSlab (i cpu : ℕ) : Option ℕ × Slab :=
  match s.pmm.allocPage cpu with
  | (none, pmm) => (none, { s with pmm := pmm })
  | (some p, pmm) =>
    let r := formatLoop (pmm.ram.pageToPa p) (s.caches i).objSize (s.caches i).objsPerSlab none s.mem
    (some p, { s with
      pmm := pmm.setPage p fun d => { d with state := .slab, slab := ⟨some i, 0, r.1⟩ }
      mem := r.2 })

/-- Take the first free object `obj` of page `p`. -/
def pop (p obj : ℕ) : Slab :=
  { s with
    pmm := s.pmm.setPage p fun d =>
      { d with
        slab.freelist := s.mem obj
        slab.objCount := (d.slab.objCount + 1) % 2 ^ 32 } }

/-- The slow path of `KmemCache::alloc`. A page that has just been formatted has a free object. -/
def allocSlow (i cpu : ℕ) : Option ℕ × Slab :=
  match s.newSlab i cpu with
  | (none, s) => (none, s)
  | (some p, s) =>
    let s := s.setActive i cpu (some p)
    match (s.pmm.pageMap p).slab.freelist with
    | none => (none, s)
    | some obj => (some obj, s.pop p obj)

/-- `KmemCache::alloc` -/
def alloc (i cpu : ℕ) : Option ℕ × Slab :=
  match (s.caches i).active cpu with
  | none => s.allocSlow i cpu
  | some p =>
    match (s.pmm.pageMap p).slab.freelist with
    | none => (s.setActive i cpu none).allocSlow i cpu
    | some obj => (some obj, s.pop p obj)

/-- Put an object back on the list of its page. -/
def push (p obj : ℕ) : Slab :=
  { s with
    mem := Function.update s.mem obj (s.pmm.pageMap p).slab.freelist
    pmm := s.pmm.setPage p fun d =>
      { d with
        slab.freelist := some obj
        slab.objCount := (d.slab.objCount + 2 ^ 32 - 1) % 2 ^ 32 } }

/-- `KmemCache::free` from the test for an empty page on: the page is given back. -/
def retire (i cpu p : ℕ) : Slab :=
  let s := if (s.caches i).active cpu = some p then s.setActive i cpu none else s
  { s with
    pmm := (s.pmm.setPage p fun d =>
      { d with slab.cache := none, slab.freelist := none }).freePage cpu p }

/-- `KmemCache::free`; `none` is its panic. -/
def free (i cpu obj : ℕ) : Option Slab :=
  match s.pmm.ram.paToPage (pageAlignDown obj) with
  | none => none
  | some p =>
    if (s.pmm.pageMap p).state ≠ .slab ∨ (s.pmm.pageMap p).slab.cache ≠ some i then none
    else
      let s := s.push p obj
      if (s.pmm.pageMap p).slab.objCount = 0 then some (s.retire i cpu p) else some s

/-! ## The public interface -/

/-- `find_cache`, from class `i` on -/
def findCache (size : ℕ) : Option ℕ := kSizeClasses.findIdx? (size ≤ ·)

/-- The loop of `kmalloc` that finds the order of a large request; `fuel` is not exhausted when it
is `needed`. -/
def orderLoop (needed : ℕ) : ℕ → ℕ → ℕ
  | 0, order => order
  | fuel + 1, order => if 2 ^ order < needed then orderLoop needed fuel (order + 1) else order

/-- The order of a large request. -/
def orderFor (size : ℕ) : ℕ :=
  let needed := (size + kPageSize - 1) / kPageSize
  orderLoop needed needed 0

/-- `kSizeClasses[kNumSizeClasses - 1]` -/
def kMaxClass : ℕ := 2048

/-- `kmalloc` -/
def kmalloc (cpu size : ℕ) : Option ℕ × Slab :=
  if size = 0 then (none, s)
  else if kMaxClass < size then
    match s.pmm.allocPages (orderFor size) with
    | (none, pmm) => (none, { s with pmm := pmm })
    | (some p, pmm) => (some (pmm.ram.pageToPa p), { s with pmm := pmm })
  else
    match findCache size with
    | none => (none, s)
    | some i => s.alloc i cpu

/-- `kfree`; `none` is a panic. -/
def kfree (cpu ptr : ℕ) : Option Slab :=
  match s.pmm.ram.paToPage (pageAlignDown ptr) with
  | none => none
  | some p =>
    match (s.pmm.pageMap p).state with
    | .slab =>
      match (s.pmm.pageMap p).slab.cache with
      | none => none
      | some i => s.free i cpu ptr
    | .allocated => some { s with pmm := s.pmm.freePages p (s.pmm.pageMap p).order }
    | _ => none

end Slab

end Lume
