import Lume.Config
import Lume.Foundation.Dyadic

/-!
# The physical memory manager

The buddy allocator with per-CPU single-page caches of `mm/pmm.cc`. A page is named by its
index in `g_page_map`. The intrusive free lists are lists of page indices, newest first, as
both `buddy_list_add` and the per-CPU caches push at the head; the page descriptors carry the
state, order and reference count that the code reads and writes.

## Main definitions

* `Page`, `Pmm`: the page descriptors and the allocator's state
* `Pmm.buddyAlloc`, `Pmm.buddyFree`: the buddy system
* `Pmm.refillPcp`, `Pmm.drainPcp`: the traffic between a per-CPU cache and the buddy system
* `Pmm.allocPage`, `Pmm.freePage`, `Pmm.allocPages`, `Pmm.freePages`, `Pmm.incref`,
  `Pmm.decref`: the public interface
-/

namespace Lume

/-- `PageState` -/
inductive PageState
  | free
  | pcpCached
  | allocated
  | slab
deriving DecidableEq, Repr

/-- `Page.slab`: read only while the page backs a slab cache. `cache` is the index of the owning
`KmemCache`, and a pointer to an object is its physical address. -/
structure SlabMeta where
  cache : Option ℕ
  objCount : ℕ
  freelist : Option ℕ
deriving DecidableEq, Repr

/-- `Page`. The union's `free_link` is the page's position in the lists of `Pmm`. -/
structure Page where
  refcount : ℕ
  state : PageState
  order : ℕ
  slab : SlabMeta
deriving DecidableEq, Repr

/-- `PerCpuCache` -/
structure PerCpuCache where
  freeList : List ℕ
  count : ℕ
deriving DecidableEq, Repr

/-- The module-private state of `pmm.cc`. -/
structure Pmm where
  ram : Ram
  pageMap : ℕ → Page
  freeAreas : ℕ → List ℕ
  pcp : ℕ → PerCpuCache
  pcpBatchSize : ℕ
  pcpHighWatermark : ℕ

namespace Pmm

/-- `g_num_pages` -/
def numPages (s : Pmm) : ℕ := s.ram.numPages

/-- Overwrite one page descriptor. -/
def setPage (s : Pmm) (p : ℕ) (f : Page → Page) : Pmm :=
  { s with pageMap := Function.update s.pageMap p (f (s.pageMap p)) }

/-! ## The buddy system -/

/-- `buddy_of` -/
def buddyOf (s : Pmm) (p order : ℕ) : Option ℕ :=
  let buddyPfn := p ^^^ 2 ^ order
  if s.numPages ≤ buddyPfn then none else some buddyPfn

/-- `buddy_list_add` -/
def buddyListAdd (s : Pmm) (p order : ℕ) : Pmm :=
  { s.setPage p fun d => { d with state := .free, order := order } with
    freeAreas := Function.update s.freeAreas order (p :: s.freeAreas order) }

/-- `buddy_list_del`: unlink the block from whatever buddy list it is on. -/
def buddyListDel (s : Pmm) (p : ℕ) : Pmm :=
  { s with freeAreas := fun o => (s.freeAreas o).erase p }

/-- The split loop of `buddy_alloc`: while `cur > order`, the upper half goes back. -/
def splitDown (s : Pmm) (p order : ℕ) : ℕ → Pmm
  | 0 => s
  | cur + 1 =>
    if order < cur + 1 then splitDown (s.buddyListAdd (p + 2 ^ cur) cur) p order cur else s

/-- The search loop of `buddy_alloc` with `n` orders left to try. -/
def buddyAllocLoop (s : Pmm) (order : ℕ) : ℕ → Option ℕ × Pmm
  | 0 => (none, s)
  | n + 1 =>
    let cur := kMaxOrder - (n + 1)
    match s.freeAreas cur with
    | [] => buddyAllocLoop s order n
    | p :: _ =>
      (some p, ((s.buddyListDel p).splitDown p order cur).setPage p fun d =>
        { d with state := .allocated, order := order, refcount := 1 })

/-- `buddy_alloc` -/
def buddyAlloc (s : Pmm) (order : ℕ) : Option ℕ × Pmm :=
  s.buddyAllocLoop order (kMaxOrder - order)

/-- The coalescing loop of `buddy_free` with `n` orders left to climb. -/
def buddyFreeLoop (s : Pmm) (p order : ℕ) : ℕ → Pmm
  | 0 => s.buddyListAdd p order
  | n + 1 =>
    match s.buddyOf p order with
    | none => s.buddyListAdd p order
    | some buddy =>
      if (s.pageMap buddy).state ≠ .free ∨ (s.pageMap buddy).order ≠ order then
        s.buddyListAdd p order
      else
        buddyFreeLoop (s.buddyListDel buddy) (if buddy < p then buddy else p) (order + 1) n

/-- `buddy_free` -/
def buddyFree (s : Pmm) (p order : ℕ) : Pmm :=
  s.buddyFreeLoop p order (kMaxOrder - 1 - order)

/-! ## The per-CPU caches -/

/-- Push a page onto a per-CPU list. -/
def pcpPush (s : Pmm) (cpu p : ℕ) : Pmm :=
  { s with
    pcp := Function.update s.pcp cpu ⟨p :: (s.pcp cpu).freeList, (s.pcp cpu).count + 1⟩ }

/-- Unlink the first page of a per-CPU list. -/
def pcpPop (s : Pmm) (cpu : ℕ) : Pmm :=
  { s with
    pcp := Function.update s.pcp cpu ⟨(s.pcp cpu).freeList.tail, (s.pcp cpu).count - 1⟩ }

/-- The loop of `refill_pcp` with `n` pages left to fetch. -/
def refillLoop (s : Pmm) (cpu : ℕ) : ℕ → Pmm
  | 0 => s
  | n + 1 =>
    match s.buddyAlloc 0 with
    | (none, s') => s'
    | (some p, s') =>
      refillLoop ((s'.setPage p fun d => { d with state := .pcpCached }).pcpPush cpu p) cpu n

/-- `refill_pcp` -/
def refillPcp (s : Pmm) (cpu : ℕ) : Pmm := s.refillLoop cpu s.pcpBatchSize

/-- The loop of `drain_pcp` with `n` pages left to return. -/
def drainLoop (s : Pmm) (cpu : ℕ) : ℕ → Pmm
  | 0 => s
  | n + 1 =>
    match (s.pcp cpu).freeList with
    | [] => s
    | p :: _ => drainLoop ((s.pcpPop cpu).buddyFree p 0) cpu n

/-- `drain_pcp` -/
def drainPcp (s : Pmm) (cpu : ℕ) : Pmm := s.drainLoop cpu ((s.pcp cpu).count / 2)

section Fields

variable (s : Pmm) (f : Page → Page) (p o c : ℕ)

@[simp] theorem numPages_setPage : (s.setPage p f).numPages = s.numPages := rfl
@[simp] theorem numPages_buddyListAdd : (s.buddyListAdd p o).numPages = s.numPages := rfl
@[simp] theorem numPages_buddyListDel : (s.buddyListDel p).numPages = s.numPages := rfl
@[simp] theorem numPages_pcpPush : (s.pcpPush c p).numPages = s.numPages := rfl
@[simp] theorem numPages_pcpPop : (s.pcpPop c).numPages = s.numPages := rfl
@[simp] theorem freeAreas_setPage : (s.setPage p f).freeAreas = s.freeAreas := rfl
@[simp] theorem pcp_setPage : (s.setPage p f).pcp = s.pcp := rfl
@[simp] theorem pageMap_buddyListDel : (s.buddyListDel p).pageMap = s.pageMap := rfl
@[simp] theorem pageMap_pcpPush : (s.pcpPush c p).pageMap = s.pageMap := rfl
@[simp] theorem pageMap_pcpPop : (s.pcpPop c).pageMap = s.pageMap := rfl
@[simp] theorem pcp_buddyListAdd : (s.buddyListAdd p o).pcp = s.pcp := rfl
@[simp] theorem pcp_buddyListDel : (s.buddyListDel p).pcp = s.pcp := rfl

@[simp] theorem pageMap_setPage_self : (s.setPage p f).pageMap p = f (s.pageMap p) :=
  Function.update_self ..

variable {s f p} in
theorem pageMap_setPage_of_ne {q : ℕ} (h : q ≠ p) : (s.setPage p f).pageMap q = s.pageMap q :=
  Function.update_of_ne h ..

theorem pageMap_buddyListAdd : (s.buddyListAdd p o).pageMap =
    (s.setPage p fun d => { d with state := .free, order := o }).pageMap := rfl

@[simp] theorem freeAreas_buddyListAdd_self :
    (s.buddyListAdd p o).freeAreas o = p :: s.freeAreas o :=
  Function.update_self ..

variable {s p o} in
theorem freeAreas_buddyListAdd_of_ne {j : ℕ} (h : j ≠ o) :
    (s.buddyListAdd p o).freeAreas j = s.freeAreas j :=
  Function.update_of_ne h ..

@[simp] theorem pcp_pcpPush_self :
    (s.pcpPush c p).pcp c = ⟨p :: (s.pcp c).freeList, (s.pcp c).count + 1⟩ :=
  Function.update_self ..

@[simp] theorem pcp_pcpPop_self :
    (s.pcpPop c).pcp c = ⟨(s.pcp c).freeList.tail, (s.pcp c).count - 1⟩ :=
  Function.update_self ..

variable {s p c} in
theorem pcp_pcpPush_of_ne {j : ℕ} (h : j ≠ c) : (s.pcpPush c p).pcp j = s.pcp j :=
  Function.update_of_ne h ..

variable {s c} in
theorem pcp_pcpPop_of_ne {j : ℕ} (h : j ≠ c) : (s.pcpPop c).pcp j = s.pcp j :=
  Function.update_of_ne h ..

end Fields

/-! ## The public interface -/

/-- `pmm_alloc_page` after the refill: take the first cached page. The bounds check on the page
is the panic the invariant excludes. -/
def takeCached (s : Pmm) (cpu : ℕ) : Option ℕ × Pmm :=
  if (s.pcp cpu).count = 0 then (none, s)
  else
    match (s.pcp cpu).freeList with
    | [] => (none, s)
    | p :: _ =>
      (some p, (s.pcpPop cpu).setPage p fun d =>
        { d with state := .allocated, order := 0, refcount := 1 })

/-- `pmm_alloc_page` -/
def allocPage (s : Pmm) (cpu : ℕ) : Option ℕ × Pmm :=
  (if (s.pcp cpu).count = 0 then s.refillPcp cpu else s).takeCached cpu

/-- `pmm_free_page` up to the watermark test: the page goes to the calling CPU's cache. -/
def cachePage (s : Pmm) (cpu p : ℕ) : Pmm :=
  (s.setPage p fun d => { d with state := .pcpCached, order := 0 }).pcpPush cpu p

/-- `pmm_free_page` -/
def freePage (s : Pmm) (cpu p : ℕ) : Pmm :=
  let s' := s.cachePage cpu p
  if s'.pcpHighWatermark ≤ (s'.pcp cpu).count then s'.drainPcp cpu else s'

/-- `pmm_alloc_pages` -/
def allocPages (s : Pmm) (order : ℕ) : Option ℕ × Pmm :=
  if kMaxOrder ≤ order then (none, s) else s.buddyAlloc order

/-- `pmm_free_pages`; the panic on an order out of range leaves the state. -/
def freePages (s : Pmm) (p order : ℕ) : Pmm :=
  if kMaxOrder ≤ order then s else s.buddyFree p order

/-- `page_incref`, on a 32-bit counter -/
def incref (s : Pmm) (p : ℕ) : Pmm :=
  s.setPage p fun d => { d with refcount := (d.refcount + 1) % 2 ^ 32 }

/-- `page_decref`: the last reference returns the block by the order in its descriptor. -/
def decref (s : Pmm) (cpu p : ℕ) : Pmm :=
  let old := (s.pageMap p).refcount
  let s' := s.setPage p fun d => { d with refcount := (d.refcount + 2 ^ 32 - 1) % 2 ^ 32 }
  if old = 1 then
    if (s'.pageMap p).order = 0 then s'.freePage cpu p
    else s'.freePages p (s'.pageMap p).order
  else s'

end Pmm

end Lume
