import Lume.Slab.Pages

/-!
# Objects on the heap

The slab allocator and its callers: any CPU allocates, writes into objects that are in use, and frees
them. Objects do not overlap as long as no call gives back a page that is the active page of another
CPU: `KmemCache::free` looks at the active page of its own CPU only.

## Main definitions

* `Heap`, `Heap.Step`: the allocator with the objects that are in use, and one call
* `Heap.Valid`: the invariant
* `Heap.ReleaseOk`: a call gives back no page that is the active one of another CPU

## Main results

* `Heap.Valid.step`: one call keeps the invariant
* `objects_apart`, with its failure `recycled_page_shared`
-/

namespace Lume

open Function (update update_apply update_of_ne update_self)

open Slab

/-! ## Requests -/

theorem le_classSize {size i : ℕ} (h : findCache size = some i) : size ≤ classSize i := by
  rw [findCache, List.findIdx?_eq_some_iff_getElem] at h
  obtain ⟨hi, hle, -⟩ := h
  have hall : ∀ j, ∀ hj : j < kSizeClasses.length, kSizeClasses[j] = classSize j := by decide
  rw [hall i hi] at hle
  simpa using hle

theorem findCache_isSome {size : ℕ} (h : size ≤ kMaxClass) : ∃ i, findCache size = some i := by
  have hsome : (findCache size).isSome = true := by
    rw [findCache, List.findIdx?_isSome, List.any_eq_true]
    exact ⟨kMaxClass, by decide, by simpa using h⟩
  exact Option.isSome_iff_exists.mp hsome

theorem le_two_pow_orderLoop {needed : ℕ} (fuel order : ℕ) (h : needed ≤ 2 ^ (order + fuel)) :
    needed ≤ 2 ^ orderLoop needed fuel order := by
  induction fuel generalizing order with
  | zero => exact h
  | succ fuel ih =>
    rw [orderLoop]
    split
    · exact ih (order + 1) (by rwa [Nat.add_right_comm])
    · rename_i hlt
      exact not_lt.mp hlt

/-- The bytes that a request of `size` bytes is given. -/
def capacity (size : ℕ) : ℕ :=
  if kMaxClass < size then 2 ^ orderFor size * kPageSize
  else match findCache size with
    | none => 0
    | some i => classSize i

theorem capacity_of_findCache {size i : ℕ} (hle : size ≤ kMaxClass) (h : findCache size = some i) :
    capacity size = classSize i := by
  rw [capacity, if_neg (not_lt.mpr hle), h]

theorem le_capacity (size : ℕ) : size ≤ capacity size := by
  rcases Nat.lt_or_ge kMaxClass size with hlt | hle
  · rw [capacity, if_pos hlt]
    have hneed := @le_two_pow_orderLoop ((size + kPageSize - 1) / kPageSize)
      ((size + kPageSize - 1) / kPageSize) 0 (by rw [Nat.zero_add]; exact Nat.lt_two_pow_self.le)
    have hmul := Nat.mul_le_mul_right kPageSize hneed
    simp only [orderFor, kPageSize] at hmul ⊢
    omega
  · obtain ⟨i, hi⟩ := findCache_isSome hle
    rw [capacity_of_findCache hle hi]
    exact le_classSize hi

/-! ## The system -/

/-- An object that is in use: what `kmalloc` returned, and the size that was asked for. -/
structure Obj where
  ptr : ℕ
  size : ℕ
deriving DecidableEq

/-- The byte ranges of two objects do not meet. -/
def Obj.Apart (o o' : Obj) : Prop :=
  o.ptr + capacity o.size ≤ o'.ptr ∨ o'.ptr + capacity o'.size ≤ o.ptr

instance (o o' : Obj) : Decidable (o.Apart o') := inferInstanceAs (Decidable (_ ∨ _))

/-- The allocator, with the objects in use. -/
structure Heap where
  slab : Slab
  live : List Obj

namespace Heap

/-- What a caller does. -/
inductive Call
  | kmalloc (cpu size : ℕ)
  | kfree (cpu ptr : ℕ)
  /-- A pointer is written into an object in use. -/
  | store (addr : ℕ) (v : Option ℕ)
deriving DecidableEq

variable (x : Heap)

/-- Callers free, and write to, objects that are in use. -/
def Permitted : Call → Prop
  | .kmalloc cpu size => cpu < kMaxCpus ∧ size < 2 ^ 32
  | .kfree cpu ptr => cpu < kMaxCpus ∧ ∃ o ∈ x.live, o.ptr = ptr
  | .store addr _ => ∃ o ∈ x.live, o.ptr ≤ addr ∧ addr < o.ptr + capacity o.size

instance : ∀ call, Decidable (x.Permitted call)
  | .kmalloc _ _ => inferInstanceAs (Decidable (_ ∧ _))
  | .kfree _ _ => inferInstanceAs (Decidable (_ ∧ _))
  | .store _ _ => inferInstanceAs (Decidable (∃ o ∈ x.live, _))

/-- The effect of a call; `none` is a panic. -/
def exec : Call → Option Heap
  | .kmalloc cpu size =>
    let r := x.slab.kmalloc cpu size
    some ⟨r.2, r.1.toList.map (⟨·, size⟩) ++ x.live⟩
  | .kfree cpu ptr => (x.slab.kfree cpu ptr).map (⟨·, x.live.filter (·.ptr ≠ ptr)⟩)
  | .store addr v => some { x with slab.mem := update x.slab.mem addr v }

/-- One call. -/
def Step (x : Heap) (call : Call) (y : Heap) : Prop := x.Permitted call ∧ x.exec call = some y

end Heap

theorem Block.apart_of_disjoint {b b' : Block} (h : ∀ i ∈ b, i ∉ b') :
    b.start + 2 ^ b.order ≤ b'.start ∨ b'.start + 2 ^ b'.order ≤ b.start := by
  have hstart := h b.start b.start_mem
  have hstart' : b'.start ∉ b := fun hmem => h _ hmem b'.start_mem
  rw [Block.mem_def] at hstart hstart'
  omega

/-! ## The objects of a page -/

section Objects

variable (ram : Ram) {live : List Obj} {o : Obj} {p : ℕ}

/-- The addresses of the small objects on page `p`. -/
def smallOn (live : List Obj) (p : ℕ) : List ℕ :=
  (live.filter fun o => o.size ≤ kMaxClass ∧ ram.pageOf o.ptr = p).map Obj.ptr

/-- The blocks of the large objects. -/
def bigBlocks (live : List Obj) : List Block :=
  (live.filter (kMaxClass < ·.size)).map fun o => ⟨ram.pageOf o.ptr, orderFor o.size⟩

variable {ram}

theorem mem_smallOn {a : ℕ} :
    a ∈ smallOn ram live p ↔ ∃ o ∈ live, o.size ≤ kMaxClass ∧ ram.pageOf o.ptr = p ∧ o.ptr = a := by
  simp [smallOn, and_assoc]

theorem mem_bigBlocks (ho : o ∈ live) (hbig : kMaxClass < o.size) :
    ⟨ram.pageOf o.ptr, orderFor o.size⟩ ∈ bigBlocks ram live :=
  List.mem_map.mpr ⟨o, List.mem_filter.mpr ⟨ho, decide_eq_true hbig⟩, rfl⟩

theorem smallOn_cons (hsmall : o.size ≤ kMaxClass) (q : ℕ) :
    smallOn ram (o :: live) q = update (smallOn ram live) (ram.pageOf o.ptr)
      (o.ptr :: smallOn ram live (ram.pageOf o.ptr)) q := by
  rcases eq_or_ne q (ram.pageOf o.ptr) with rfl | hne
  · rw [update_self, smallOn, List.filter_cons_of_pos (by simp [hsmall])]
    rfl
  · rw [update_of_ne hne, smallOn, List.filter_cons_of_neg (by simp [hne.symm])]
    rfl

theorem smallOn_cons_big (hbig : kMaxClass < o.size) (q : ℕ) :
    smallOn ram (o :: live) q = smallOn ram live q := by
  rw [smallOn, List.filter_cons_of_neg (by simp [hbig])]
  rfl

theorem bigBlocks_cons_small (live : List Obj) (hsmall : o.size ≤ kMaxClass) :
    bigBlocks ram (o :: live) = bigBlocks ram live := by
  rw [bigBlocks, List.filter_cons_of_neg (by simpa using hsmall)]
  rfl

theorem bigBlocks_cons_big (hbig : kMaxClass < o.size) : bigBlocks ram (o :: live) =
    ⟨ram.pageOf o.ptr, orderFor o.size⟩ :: bigBlocks ram live := by
  rw [bigBlocks, List.filter_cons_of_pos (by simpa using hbig)]
  rfl

theorem smallOn_perm (ram : Ram) {live' : List Obj} (h : live.Perm live') (q : ℕ) :
    (smallOn ram live q).Perm (smallOn ram live' q) := (h.filter _).map _

theorem bigBlocks_perm (ram : Ram) {live' : List Obj} (h : live.Perm live') :
    (bigBlocks ram live).Perm (bigBlocks ram live') := (h.filter _).map _

theorem perm_freed (hnodup : (live.map Obj.ptr).Nodup) (ho : o ∈ live) :
    live.Perm (o :: live.filter (·.ptr ≠ o.ptr)) := by
  have herase : live.erase o = live.filter (·.ptr ≠ o.ptr) := by
    rw [hnodup.of_map.erase_eq_filter]
    refine List.filter_congr fun o' ho' => ?_
    rcases eq_or_ne o' o with rfl | hne
    · simp
    · have hptr : o'.ptr ≠ o.ptr := fun he => hne (List.inj_on_of_nodup_map hnodup ho' ho he)
      simp [hne, hptr]
  rw [← herase]
  exact List.perm_cons_erase ho

end Objects

/-! ## The invariant -/

namespace Heap

/-- The addresses of the small objects in use on page `p`. -/
def liveOn (x : Heap) (p : ℕ) : List ℕ := smallOn x.slab.pmm.ram x.live p

/-- The invariant: `P` are the slab pages, of classes `cls`, with the free slots `F`. -/
structure Valid (x : Heap) (R : Finset ℕ) (P : List ℕ) (cls : ℕ → ℕ) (F : ℕ → List ℕ) : Prop where
  slab : x.slab.Valid R (bigBlocks x.slab.pmm.ram x.live) P cls F x.liveOn
  small : ∀ o ∈ x.live, o.size ≤ kMaxClass →
    x.slab.pmm.ram.pageOf o.ptr ∈ P ∧ findCache o.size = some (cls (x.slab.pmm.ram.pageOf o.ptr))
  big : ∀ o ∈ x.live, kMaxClass < o.size →
    o.ptr = x.slab.pmm.ram.pageToPa (x.slab.pmm.ram.pageOf o.ptr) ∧
      (x.slab.pmm.pageMap (x.slab.pmm.ram.pageOf o.ptr)).state = .allocated
  nodup : (x.live.map Obj.ptr).Nodup
  busy : ∀ p ∈ P, x.liveOn p ≠ []

/-- A call frees the last object of page `p`. -/
def Empties (x : Heap) (p : ℕ) : Call → Prop
  | .kfree _ ptr => x.liveOn p = [ptr]
  | _ => False

/-- A call that frees the last object of a page finds no other CPU with this page as its active
one. -/
def ReleaseOk (x : Heap) : Call → Prop
  | .kfree cpu ptr =>
    let p := x.slab.pmm.ram.pageOf ptr
    (x.slab.pmm.pageMap p).state = .slab → (x.slab.pmm.pageMap p).slab.objCount = 1 →
      ∀ i ∈ (x.slab.pmm.pageMap p).slab.cache, ∀ d < kMaxCpus,
        (x.slab.caches i).active d = some p → d = cpu
  | _ => True

instance (x : Heap) : ∀ call, Decidable (x.ReleaseOk call)
  | .kmalloc _ _ => inferInstanceAs (Decidable True)
  | .kfree _ _ => inferInstanceAs (Decidable (_ → _ → _))
  | .store _ _ => inferInstanceAs (Decidable True)

namespace Valid

variable {x : Heap} {R : Finset ℕ} {P : List ℕ} {cls : ℕ → ℕ} {F : ℕ → List ℕ} {o o' : Obj}
  {c size p : ℕ}

theorem mem_liveOn (ho : o ∈ x.live) (hsmall : o.size ≤ kMaxClass) :
    o.ptr ∈ x.liveOn (x.slab.pmm.ram.pageOf o.ptr) :=
  mem_smallOn.mpr ⟨o, ho, hsmall, rfl, rfl⟩

section

variable (h : x.Valid R P cls F) (ho : o ∈ x.live)
include h ho

theorem slot (hsmall : o.size ≤ kMaxClass) :
    o.ptr ∈ x.slab.slotsOf (x.slab.pmm.ram.pageOf o.ptr) (cls (x.slab.pmm.ram.pageOf o.ptr)) ∧
      capacity o.size = classSize (cls (x.slab.pmm.ram.pageOf o.ptr)) := by
  obtain ⟨hp, hcls⟩ := h.small o ho hsmall
  exact ⟨(h.slab.page _ hp).mem_slots_of_used (mem_liveOn ho hsmall), capacity_of_findCache hsmall hcls⟩

theorem exists_block : ∃ b ∈ pageBlocks P ++ bigBlocks x.slab.pmm.ram x.live,
      b.start = x.slab.pmm.ram.pageOf o.ptr ∧ x.slab.pmm.ram.pageToPa b.start ≤ o.ptr ∧
        o.ptr + capacity o.size ≤ x.slab.pmm.ram.pageToPa (b.start + 2 ^ b.order) := by
  have hend (b : Block) : x.slab.pmm.ram.pageToPa (b.start + 2 ^ b.order) =
      x.slab.pmm.ram.pageToPa b.start + 2 ^ b.order * kPageSize := by
    rw [Ram.pageToPa, Ram.pageToPa, Nat.add_mul, Nat.add_assoc]
  rcases Nat.lt_or_ge kMaxClass o.size with hbig | hsmall
  · have hptr := (h.big o ho hbig).1
    refine ⟨⟨x.slab.pmm.ram.pageOf o.ptr, orderFor o.size⟩, ?_, rfl, hptr.ge, ?_⟩
    · exact List.mem_append_right _ (mem_bigBlocks ho hbig)
    · rw [hend, ← hptr, capacity, if_pos hbig]
  · obtain ⟨hslot, hcap⟩ := h.slot ho hsmall
    obtain ⟨hle, hlt⟩ := slot_page hslot
    refine ⟨⟨x.slab.pmm.ram.pageOf o.ptr, 0⟩, Slab.Valid.held (h.small o ho hsmall).1, rfl, hle, ?_⟩
    rw [hend, hcap, pow_zero, Nat.one_mul]
    exact hlt

theorem big_not_mem (hbig : kMaxClass < o.size) : x.slab.pmm.ram.pageOf o.ptr ∉ P := by
  intro hp
  have hstate := (h.slab.page _ hp).state
  rw [(h.big o ho hbig).2] at hstate
  cases hstate

/-- **Objects in use do not overlap.** -/
theorem apart (ho' : o' ∈ x.live) (hne : o.ptr ≠ o'.ptr) : o.Apart o' := by
  obtain ⟨b, hb, hstart, hle, hend⟩ := h.exists_block ho
  obtain ⟨b', hb', hstart', hle', hend'⟩ := h.exists_block ho'
  rcases eq_or_ne (x.slab.pmm.ram.pageOf o.ptr) (x.slab.pmm.ram.pageOf o'.ptr) with hpage | hpage
  · -- two slots of one page
    have hsmall : o.size ≤ kMaxClass := by
      by_contra hbig
      have hbig := not_le.mp hbig
      rcases Nat.lt_or_ge kMaxClass o'.size with hbig' | hsmall'
      · refine hne ?_
        rw [(h.big o ho hbig).1, (h.big o' ho' hbig').1, hpage]
      · exact h.big_not_mem ho hbig (hpage ▸ (h.small o' ho' hsmall').1)
    have hsmall' : o'.size ≤ kMaxClass := by
      by_contra hbig
      exact h.big_not_mem ho' (not_le.mp hbig) (hpage ▸ (h.small o ho hsmall).1)
    obtain ⟨hslot, hcap⟩ := h.slot ho hsmall
    obtain ⟨hslot', hcap'⟩ := h.slot ho' hsmall'
    rw [← hpage] at hslot' hcap'
    rw [Obj.Apart, hcap, hcap']
    exact slots_apart hslot hslot' hne
  · -- two blocks
    have hblocks : b' ≠ b := by
      rintro rfl
      exact hpage (hstart.symm.trans hstart')
    have hdisj := (Pmm.Inv.conserved (x := ⟨x.slab.pmm, _⟩) h.slab.inv).live b hb
    rcases Block.apart_of_disjoint (hdisj.2.2.2 b' hb' hblocks) with hlt | hlt
    · refine .inl (hend.trans (le_trans ?_ hle'))
      exact Nat.add_le_add_left (Nat.mul_le_mul_right _ hlt) _
    · refine .inr (hend'.trans (le_trans ?_ hle))
      exact Nat.add_le_add_left (Nat.mul_le_mul_right _ hlt) _

end

theorem pairwise_apart (h : x.Valid R P cls F) : x.live.Pairwise Obj.Apart :=
  (List.pairwise_map.mp h.nodup).imp_of_mem fun ho ho' hne => h.apart ho ho' hne

/-! ## Allocation -/

theorem refused (h : x.Valid R P cls F) {s : Slab} {F' : ℕ → List ℕ}
    (hv : s.Valid R (bigBlocks x.slab.pmm.ram x.live) P cls F' x.liveOn)
    (hst : Pmm.Steady (bigBlocks x.slab.pmm.ram x.live) x.slab.pmm s.pmm) :
    Valid ⟨s, x.live⟩ R P cls F' := by
  have hram := hst.ram_eq
  refine ⟨?_, fun o ho hsmall => ?_, fun o ho hbig => ?_, h.nodup, fun p hp => ?_⟩
  · unfold liveOn at hv ⊢
    rwa [← hram] at hv
  · rw [hram]
    exact h.small o ho hsmall
  · rw [hram, hst.page_eq _ (mem_bigBlocks ho hbig)]
    exact h.big o ho hbig
  · rw [liveOn, hram]
    exact h.busy p hp

theorem kmallocSmall (h : x.Valid R P cls F) (hc : c < kMaxCpus) (hpos : 0 < size)
    (hle : size ≤ kMaxClass) : ∃ y P' cls' F', x.exec (.kmalloc c size) = some y ∧
      y.Valid R P' cls' F' ∧ y.slab.pmm.ram = x.slab.pmm.ram ∧ ∀ p ∈ P, p ∈ P' := by
  obtain ⟨i, hi⟩ := findCache_isSome hle
  have hk : x.slab.kmalloc c size = x.slab.alloc i c := by
    rw [kmalloc, if_neg hpos.ne', if_neg (not_lt.mpr hle), hi]
  have htaken := h.slab.alloc i hc
  dsimp only [exec]
  rw [hk]
  generalize x.slab.alloc i c = r at htaken
  cases htaken with
  | fail valid steady =>
    exact ⟨_, P, cls, _, rfl, h.refused valid steady, steady.ram_eq, fun _ hp => hp⟩
  | @grant a p s' P' cls' F' valid steady mem cls_eq slot old new =>
    have hram := steady.ram_eq
    have hpage : x.slab.pmm.ram.pageOf a = p := by
      rw [← hram]
      exact pageOf_slot slot
    have hpage' : s'.pmm.ram.pageOf a = p := pageOf_slot slot
    have hlive : Heap.liveOn ⟨s', ⟨a, size⟩ :: x.live⟩ =
        update x.liveOn p (a :: x.liveOn p) := by
      funext q
      rw [liveOn, hram, smallOn_cons hle, hpage]
      rfl
    refine ⟨_, P', cls', F', rfl, ⟨?_, ?_, ?_, ?_, fun q hq => ?_⟩, hram, fun q hq => (old q hq).1⟩
    · change s'.Valid R (bigBlocks s'.pmm.ram (⟨a, size⟩ :: x.live)) P' cls' F'
        (Heap.liveOn ⟨s', ⟨a, size⟩ :: x.live⟩)
      rw [hlive, bigBlocks_cons_small _ hle, hram]
      exact valid
    · rintro o ho hsmall
      rcases List.mem_cons.mp ho with rfl | ho
      · rw [hpage', cls_eq]
        exact ⟨mem, hi⟩
      · obtain ⟨hp, hfind⟩ := h.small o ho hsmall
        rw [hram, (old _ hp).2]
        exact ⟨(old _ hp).1, hfind⟩
    · rintro o ho hbig
      rcases List.mem_cons.mp ho with rfl | ho
      · exact absurd hbig (not_lt.mpr hle)
      · rw [hram, steady.page_eq _ (mem_bigBlocks ho hbig)]
        exact h.big o ho hbig
    · refine List.nodup_cons.mpr ⟨fun ha => ?_, h.nodup⟩
      obtain ⟨o, ho, hptr⟩ := List.mem_map.mp ha
      change o.ptr = a at hptr
      -- the slot was not in use, and a large object is not on a slab page
      rcases Nat.lt_or_ge kMaxClass o.size with hbig | hsmall
      · have hstate := (valid.page p mem).state
        rw [← hpage, ← hptr, steady.page_eq _ (mem_bigBlocks ho hbig), (h.big o ho hbig).2] at hstate
        cases hstate
      · have hnodup := (valid.page p mem).nodup
        rw [update_self] at hnodup
        have hmem := mem_liveOn ho hsmall
        rw [hptr, hpage] at hmem
        exact (List.nodup_cons.mp (List.nodup_append.mp hnodup).2.1).1 hmem
    · change Heap.liveOn ⟨s', ⟨a, size⟩ :: x.live⟩ q ≠ []
      rw [hlive, update_apply]
      split
      · exact List.cons_ne_nil _ _
      · rename_i hne
        exact h.busy q ((new q hq).resolve_left hne)

theorem kmallocBig (h : x.Valid R P cls F) (hbig : kMaxClass < size) :
    ∃ y, x.exec (.kmalloc c size) = some y ∧ y.Valid R P cls F ∧
      y.slab.pmm.ram = x.slab.pmm.ram := by
  have hpos : size ≠ 0 := by
    rintro rfl
    exact absurd hbig (Nat.not_lt_zero _)
  have hout := h.slab.inv.allocPages (orderFor size)
  have hslab := x.slab.pmm.noNewSlab_allocPages (orderFor size)
  dsimp only [exec]
  rw [kmalloc, if_neg hpos, if_pos hbig]
  generalize x.slab.pmm.allocPages (orderFor size) = r at hout hslab
  have hsub : ∀ b ∈ pageBlocks P, b ∈ pageBlocks P ++ bigBlocks x.slab.pmm.ram x.live :=
    fun b hb => List.mem_append_left _ hb
  have hsub' : ∀ b ∈ bigBlocks x.slab.pmm.ram x.live,
      b ∈ pageBlocks P ++ bigBlocks x.slab.pmm.ram x.live := fun b hb => List.mem_append_right _ hb
  cases hout with
  | fail inv steady =>
    exact ⟨_, rfl, h.refused (h.slab.others inv (steady.mono hsub) hslab) (steady.mono hsub'),
      steady.ram_eq⟩
  | @grant p pmm inv steady state_eq =>
    have hram := steady.ram_eq
    have hpage : x.slab.pmm.ram.pageOf (x.slab.pmm.ram.pageToPa p) = p :=
      Ram.pageOf_eq le_rfl (Nat.lt_add_of_pos_right (by decide))
    -- the block is not that of another object
    have hfresh (b : Block) (hb : b ∈ pageBlocks P ++ bigBlocks x.slab.pmm.ram x.live) :
        b.start ≠ p := by
      have hdrop := inv.accounted.drop (List.mem_cons_self ..)
      rw [List.erase_cons_head] at hdrop
      exact hdrop.start_ne_of_loose (Pmm.Accounted.mem_blocks_held hb)
    have hlive : smallOn x.slab.pmm.ram (⟨x.slab.pmm.ram.pageToPa p, size⟩ :: x.live) =
        smallOn x.slab.pmm.ram x.live := funext fun q => smallOn_cons_big hbig q
    refine ⟨_, rfl, ⟨?_, ?_, ?_, ?_, fun q hq => ?_⟩, hram⟩
    · have hblocks : bigBlocks x.slab.pmm.ram (⟨x.slab.pmm.ram.pageToPa p, size⟩ :: x.live) =
          ⟨p, orderFor size⟩ :: bigBlocks x.slab.pmm.ram x.live := by
        rw [bigBlocks_cons_big hbig, hpage]
      have hv := h.slab.others (inv.perm List.perm_middle.symm) (steady.mono hsub) hslab
      change Slab.Valid { x.slab with pmm := pmm } R (bigBlocks pmm.ram (⟨pmm.ram.pageToPa p, size⟩ ::
        x.live)) P cls F (smallOn pmm.ram (⟨pmm.ram.pageToPa p, size⟩ :: x.live))
      rw [hram, hlive, hblocks]
      exact hv
    · rintro o ho hsmall
      rcases List.mem_cons.mp ho with rfl | ho
      · exact absurd hbig (not_lt.mpr hsmall)
      · change pmm.ram.pageOf o.ptr ∈ P ∧ findCache o.size = some (cls (pmm.ram.pageOf o.ptr))
        rw [hram]
        exact h.small o ho hsmall
    · rintro o ho hbig'
      change o.ptr = pmm.ram.pageToPa (pmm.ram.pageOf o.ptr) ∧
        (pmm.pageMap (pmm.ram.pageOf o.ptr)).state = .allocated
      rcases List.mem_cons.mp ho with rfl | ho
      · dsimp only
        rw [hram, hpage]
        exact ⟨rfl, state_eq⟩
      · rw [hram, steady.page_eq _ (hsub' _ (mem_bigBlocks ho hbig'))]
        exact h.big o ho hbig'
    · refine List.nodup_cons.mpr ⟨fun ha => ?_, h.nodup⟩
      obtain ⟨o, ho, hptr⟩ := List.mem_map.mp ha
      obtain ⟨b, hb, hstart, -⟩ := h.exists_block ho
      change o.ptr = pmm.ram.pageToPa p at hptr
      rw [hptr, hram, hpage] at hstart
      exact hfresh b hb hstart
    · change smallOn pmm.ram (⟨pmm.ram.pageToPa p, size⟩ :: x.live) q ≠ []
      rw [hram, hlive]
      exact h.busy q hq

/-! ## Release -/

theorem nodup_filter (h : x.Valid R P cls F) (f : Obj → Bool) : ((x.live.filter f).map Obj.ptr).Nodup :=
  h.nodup.sublist (List.filter_sublist.map _)

theorem kfreeSmall (h : x.Valid R P cls F) (hc : c < kMaxCpus) (ho : o ∈ x.live)
    (hsmall : o.size ≤ kMaxClass) (hok : x.ReleaseOk (.kfree c o.ptr)) :
    ∃ y P' F', x.exec (.kfree c o.ptr) = some y ∧ y.Valid R P' cls F' ∧
      y.slab.pmm.ram = x.slab.pmm.ram ∧ ∀ p ∈ P, p ∈ P' ↔ ¬ x.Empties p (.kfree c o.ptr) := by
  obtain ⟨hp, -⟩ := h.small o ho hsmall
  have ha := mem_liveOn ho hsmall
  have hpage := h.slab.page _ hp
  have hfind := h.slab.find hp ha
  obtain ⟨s', F', hfree, hv, hst⟩ := h.slab.free hp ha hc fun hlast d hd => by
    refine hok hpage.state ?_ _ hpage.cache d (h.slab.active hd).2.2 hd
    rw [hpage.count, hlast, List.length_singleton]
  have hkfree : x.slab.kfree c o.ptr = some s' := by
    rw [kfree, hfind]
    dsimp only
    rw [hpage.state, hpage.cache]
    exact hfree
  generalize hpo : x.slab.pmm.ram.pageOf o.ptr = p at *
  have hram := hst.ram_eq
  have hperm := perm_freed h.nodup ho
  have hleft (q : ℕ) : (update x.liveOn p ((x.liveOn p).erase o.ptr) q).Perm
      (smallOn s'.pmm.ram (x.live.filter (·.ptr ≠ o.ptr)) q) := by
    have hq := smallOn_perm x.slab.pmm.ram hperm q
    rw [smallOn_cons hsmall, hpo] at hq
    rw [hram]
    rcases eq_or_ne q p with rfl | hne
    · rw [update_self] at hq ⊢
      have herase := hq.erase o.ptr
      rwa [List.erase_cons_head] at herase
    · rw [update_of_ne hne] at hq ⊢
      exact hq
  refine ⟨⟨s', x.live.filter (·.ptr ≠ o.ptr)⟩, if x.liveOn p = [o.ptr] then P.erase p else P, F', ?_,
    ⟨?_, ?_, ?_, h.nodup_filter _, fun q hq hnil => ?_⟩, hram, fun q hq => ?_⟩
  · rw [exec, hkfree]
    rfl
  · refine hv.perm ?_ hleft
    rw [hram, ← bigBlocks_cons_small (x.live.filter (·.ptr ≠ o.ptr)) hsmall]
    exact bigBlocks_perm _ hperm
  · intro o' ho' hsmall'
    obtain ⟨ho', hne⟩ := List.mem_filter.mp ho'
    obtain ⟨hp', hfind'⟩ := h.small o' ho' hsmall'
    have hne : o'.ptr ≠ o.ptr := of_decide_eq_true hne
    dsimp only
    rw [hram]
    refine ⟨?_, hfind'⟩
    split
    · -- the page is not that of the last object
      rename_i hlast
      refine (h.slab.nodup.mem_erase_iff).mpr ⟨fun he => hne ?_, hp'⟩
      have hmem := mem_liveOn ho' hsmall'
      rwa [he, hlast, List.mem_singleton] at hmem
    · exact hp'
  · intro o' ho' hbig'
    obtain ⟨ho', -⟩ := List.mem_filter.mp ho'
    dsimp only
    rw [hram, hst.page_eq _ (mem_bigBlocks ho' hbig')]
    exact h.big o' ho' hbig'
  · have hq' := hleft q
    rw [show smallOn s'.pmm.ram (x.live.filter (·.ptr ≠ o.ptr)) q = [] from hnil] at hq'
    have hqnil := hq'.eq_nil
    split at hq
    · obtain ⟨hne, hqP⟩ := h.slab.nodup.mem_erase_iff.mp hq
      rw [update_of_ne hne] at hqnil
      exact h.busy q hqP hqnil
    · rename_i hlast
      rcases eq_or_ne q p with rfl | hne
      · rw [update_self] at hqnil
        refine hlast ?_
        have hback := List.perm_cons_erase ha
        rw [hqnil] at hback
        exact List.perm_singleton.mp hback
      · rw [update_of_ne hne] at hqnil
        exact h.busy q hq hqnil
  · change _ ↔ ¬ x.liveOn q = [o.ptr]
    have hown : x.liveOn q = [o.ptr] → q = p := by
      intro hlast
      have hmem : o.ptr ∈ x.liveOn q := by
        rw [hlast]
        exact List.mem_singleton_self _
      obtain ⟨o', -, -, hpage', hptr⟩ := mem_smallOn.mp hmem
      rw [← hpage', hptr, hpo]
    split
    · rename_i hlast
      rw [h.slab.nodup.mem_erase_iff]
      refine ⟨fun hmem hlast' => hmem.1 (hown hlast'), fun hnot => ⟨?_, hq⟩⟩
      rintro rfl
      exact hnot hlast
    · rename_i hlast
      refine iff_of_true hq fun hlast' => hlast ?_
      rw [← hown hlast']
      exact hlast'

theorem kfreeBig (h : x.Valid R P cls F) (ho : o ∈ x.live) (hbig : kMaxClass < o.size) :
    ∃ y, x.exec (.kfree c o.ptr) = some y ∧ y.Valid R P cls F ∧
      y.slab.pmm.ram = x.slab.pmm.ram := by
  obtain ⟨hptr, hstate⟩ := h.big o ho hbig
  have hb : (⟨x.slab.pmm.ram.pageOf o.ptr, orderFor o.size⟩ : Block) ∈
      pageBlocks P ++ bigBlocks x.slab.pmm.ram x.live :=
    List.mem_append_right _ (mem_bigBlocks ho hbig)
  obtain ⟨hfit, -, -, horder⟩ := h.slab.inv.accounted.held_ok _ hb
  obtain ⟨hinv, hst⟩ := h.slab.inv.freePages hb
  have hslab := x.slab.pmm.noNewSlab_freePages (x.slab.pmm.ram.pageOf o.ptr) (orderFor o.size)
  have hkfree : x.slab.kfree c o.ptr = some { x.slab with
      pmm := x.slab.pmm.freePages (x.slab.pmm.ram.pageOf o.ptr) (orderFor o.size) } := by
    have hfind : x.slab.pmm.ram.paToPage (pageAlignDown o.ptr) =
        some (x.slab.pmm.ram.pageOf o.ptr) :=
      Ram.paToPage_pageAlignDown hfit.start_lt hptr.ge
        (hptr ▸ Nat.lt_add_of_pos_right (by decide))
    rw [kfree, hfind]
    dsimp only
    rw [hstate, horder]
  dsimp only at hinv hst
  generalize x.slab.pmm.freePages (x.slab.pmm.ram.pageOf o.ptr) (orderFor o.size) = pmm at *
  -- what is left of the blocks
  have hperm := perm_freed h.nodup ho
  have hblocks := bigBlocks_perm x.slab.pmm.ram hperm
  rw [bigBlocks_cons_big hbig] at hblocks
  have hnot : (⟨x.slab.pmm.ram.pageOf o.ptr, orderFor o.size⟩ : Block) ∉ pageBlocks P := by
    intro hmem
    obtain ⟨p, hp, he⟩ := List.mem_map.mp hmem
    have hstart : p = x.slab.pmm.ram.pageOf o.ptr := congrArg Block.start he
    exact h.big_not_mem ho hbig (hstart ▸ hp)
  have hleft : ((pageBlocks P ++ bigBlocks x.slab.pmm.ram x.live).erase
      ⟨x.slab.pmm.ram.pageOf o.ptr, orderFor o.size⟩).Perm
        (pageBlocks P ++ bigBlocks x.slab.pmm.ram (x.live.filter (·.ptr ≠ o.ptr))) := by
    rw [List.erase_append_right _ hnot]
    refine List.Perm.append_left _ ?_
    have herase := hblocks.erase ⟨x.slab.pmm.ram.pageOf o.ptr, orderFor o.size⟩
    rwa [List.erase_cons_head] at herase
  have hkept (b : Block) (hb : b ∈ pageBlocks P ++
      bigBlocks x.slab.pmm.ram (x.live.filter (·.ptr ≠ o.ptr))) :
      pmm.pageMap b.start = x.slab.pmm.pageMap b.start := hst.page_eq b (hleft.symm.subset hb)
  have hram := hst.ram_eq
  have hsmall (q : ℕ) : (smallOn x.slab.pmm.ram x.live q).Perm
      (smallOn x.slab.pmm.ram (x.live.filter (·.ptr ≠ o.ptr)) q) := by
    have hq := smallOn_perm x.slab.pmm.ram hperm q
    rwa [smallOn_cons_big hbig] at hq
  refine ⟨⟨{ x.slab with pmm := pmm }, x.live.filter (·.ptr ≠ o.ptr)⟩, ?_,
    ⟨?_, ?_, ?_, h.nodup_filter _, fun q hq hnil => ?_⟩, hram⟩
  · rw [exec, hkfree]
    rfl
  · have hv := h.slab.others (hinv.perm hleft) (hst.mono fun b hb => hleft.symm.subset
      (List.mem_append_left _ hb)) hslab
    change Slab.Valid { x.slab with pmm := pmm } R
      (bigBlocks pmm.ram (x.live.filter (·.ptr ≠ o.ptr))) P cls F
      (smallOn pmm.ram (x.live.filter (·.ptr ≠ o.ptr)))
    rw [hram]
    exact hv.perm (.refl _) hsmall
  · intro o' ho' hsmall'
    obtain ⟨ho', -⟩ := List.mem_filter.mp ho'
    dsimp only
    rw [hram]
    exact h.small o' ho' hsmall'
  · intro o' ho' hbig'
    dsimp only
    have hpage := hkept _ (List.mem_append_right _ (mem_bigBlocks ho' hbig'))
    rw [hram, hpage]
    exact h.big o' (List.mem_filter.mp ho').1 hbig'
  · change smallOn pmm.ram (x.live.filter (·.ptr ≠ o.ptr)) q = [] at hnil
    have hq' := hsmall q
    rw [← hram, hnil] at hq'
    rw [hram] at hq'
    exact h.busy q hq hq'.eq_nil

/-! ## Writes of the callers -/

theorem not_free (h : x.Valid R P cls F) (ho : o ∈ x.live) {addr : ℕ} (hle : o.ptr ≤ addr)
    (hlt : addr < o.ptr + capacity o.size) (hp : p ∈ P) : addr ∉ F p := by
  intro hfree
  have hpage := h.slab.page p hp
  have hslot := hpage.mem_slots_of_free hfree
  obtain ⟨hle', hlt'⟩ := slot_page hslot
  have hpos := classSize_pos (cls p)
  obtain ⟨b, hb, hstart, hle₁, hend⟩ := h.exists_block ho
  -- the page is one of those of the object
  have hpb : p ∈ b := by
    rw [Block.mem_def]
    simp only [Ram.pageToPa, kPageSize] at *
    omega
  have hblock : b = ⟨p, 0⟩ := by
    by_contra hne
    have hdisj := (Pmm.Inv.conserved (x := ⟨x.slab.pmm, _⟩) h.slab.inv).live b hb
    exact hdisj.2.2.2 ⟨p, 0⟩ (Slab.Valid.held hp) (Ne.symm hne) p hpb (Block.start_mem _)
  have hpo : x.slab.pmm.ram.pageOf o.ptr = p := by
    rw [← hstart, hblock]
  have hsmall : o.size ≤ kMaxClass := by
    by_contra hbig
    exact h.big_not_mem ho (not_le.mp hbig) (hpo ▸ hp)
  obtain ⟨hslot', hcap⟩ := h.slot ho hsmall
  have hused := mem_liveOn ho hsmall
  rw [hpo] at hslot' hcap hused
  have hne : addr ≠ o.ptr := by
    rintro rfl
    exact List.disjoint_of_nodup_append hpage.nodup hfree hused
  rcases slots_apart hslot hslot' hne with hap | hap
  · omega
  · rw [hcap] at hlt
    omega

theorem store (h : x.Valid R P cls F) (ho : o ∈ x.live) {addr : ℕ} (hle : o.ptr ≤ addr)
    (hlt : addr < o.ptr + capacity o.size) (v : Option ℕ) :
    Valid { x with slab.mem := update x.slab.mem addr v } R P cls F := by
  refine ⟨⟨h.slab.inv, h.slab.caches, fun p hp => ?_, h.slab.only, h.slab.unused, h.slab.active⟩,
    h.small, h.big, h.nodup, h.busy⟩
  refine (h.slab.page p hp).congr rfl rfl fun a ha => update_of_ne ?_ ..
  rintro rfl
  exact h.not_free ho hle hlt hp ha

/-- **One call keeps the invariant**, and gives back the page that it empties. -/
theorem step (h : x.Valid R P cls F) {call : Call} (hp : x.Permitted call) (hok : x.ReleaseOk call) :
    ∃ y P' cls' F', x.exec call = some y ∧ y.Valid R P' cls' F' ∧
      y.slab.pmm.ram = x.slab.pmm.ram ∧ ∀ p ∈ P, p ∈ P' ↔ ¬ x.Empties p call := by
  cases call with
  | kmalloc c size =>
    rcases Nat.eq_zero_or_pos size with rfl | hpos
    · exact ⟨x, P, cls, F, rfl, h, rfl, fun p hp => iff_of_true hp id⟩
    rcases Nat.lt_or_ge kMaxClass size with hbig | hle
    · obtain ⟨y, hy, hv, hram⟩ := h.kmallocBig (c := c) hbig
      exact ⟨y, P, cls, F, hy, hv, hram, fun p hp => iff_of_true hp id⟩
    · obtain ⟨y, P', cls', F', hy, hv, hram, hsub⟩ := h.kmallocSmall hp.1 hpos hle
      exact ⟨y, P', cls', F', hy, hv, hram, fun p hp => iff_of_true (hsub p hp) id⟩
  | kfree c ptr =>
    obtain ⟨hc, o, ho, rfl⟩ := hp
    rcases Nat.lt_or_ge kMaxClass o.size with hbig | hsmall
    · obtain ⟨y, hy, hv, hram⟩ := h.kfreeBig (c := c) ho hbig
      refine ⟨y, P, cls, F, hy, hv, hram, fun p hp => iff_of_true hp fun hlast => ?_⟩
      -- a large object is not among those of a slab page
      have hmem : o.ptr ∈ x.liveOn p := by
        rw [show x.liveOn p = [o.ptr] from hlast]
        exact List.mem_singleton_self _
      obtain ⟨o', ho', hsmall', -, hptr⟩ := mem_smallOn.mp hmem
      obtain rfl := List.inj_on_of_nodup_map h.nodup ho' ho hptr
      exact absurd hbig (not_lt.mpr hsmall')
    · obtain ⟨y, P', F', hy, hv, hram, hback⟩ := h.kfreeSmall hc ho hsmall hok
      exact ⟨y, P', cls, F', hy, hv, hram, hback⟩
  | store addr v =>
    obtain ⟨o, ho, hle, hlt⟩ := hp
    exact ⟨_, P, cls, F, rfl, h.store ho hle hlt v, rfl, fun p hp => iff_of_true hp id⟩

end Valid

theorem valid_init {mb : Memblock} (h : mb.Inv) (mem : ℕ → Option ℕ) :
    Valid ⟨Slab.init (pmmInit mb) mem, []⟩ mb.reservedPages [] (fun _ => 0) (fun _ => []) := by
  refine ⟨⟨(pmmInit_inv h).1, fun i => ⟨rfl, rfl⟩, nofun, fun p hp => ?_, fun _ _ => rfl, nofun⟩,
    nofun, nofun, List.nodup_nil, nofun⟩
  exact absurd hp (pmmInit_not_slab mb p)

theorem valid_of_run {x y : Heap} {R : Finset ℕ} {calls : List Call}
    (hrun : Run (Guarded ReleaseOk Step) x calls y) (h : ∃ P cls F, x.Valid R P cls F) :
    ∃ P cls F, y.Valid R P cls F := by
  refine hrun.invariant (P := fun z => ∃ P cls F, z.Valid R P cls F) ?_ h
  rintro x call y ⟨P, cls, F, h⟩ ⟨hok, hp, hy⟩
  obtain ⟨y', P', cls', F', hy', hv, -⟩ := h.step hp hok
  obtain rfl := Option.some_injective _ (hy.symm.trans hy')
  exact ⟨P', cls', F', hv⟩

/-- The state after a list of calls that all meet the condition `ok`, and that do not panic. -/
def execAll (ok : Heap → Call → Prop) [∀ x call, Decidable (ok x call)] : Heap → List Call → Option Heap
  | x, [] => some x
  | x, call :: calls =>
    if ok x call ∧ x.Permitted call then (x.exec call).bind (execAll ok · calls) else none

theorem run_execAll {ok : Heap → Call → Prop} [∀ x call, Decidable (ok x call)] {x y : Heap}
    {calls : List Call} (h : x.execAll ok calls = some y) : Run (Guarded ok Step) x calls y := by
  induction calls generalizing x with
  | nil =>
    obtain rfl := Option.some_injective _ h
    exact .nil _
  | cons call calls ih =>
    rw [execAll] at h
    split at h
    · rename_i hok
      obtain ⟨z, hz, hy⟩ := Option.bind_eq_some_iff.mp h
      exact .cons ⟨hok.1, hok.2, hz⟩ (ih hy)
    · cases h

end Heap

/-- **Objects in use do not overlap**, on any number of CPUs, in every run in which no call gives
back a page that is the active page of another CPU. Every object has room for what was asked for,
lies in RAM, and the active pages of a cache belong to it. -/
theorem objects_apart {ram : Ram} {image : KernelImage ram} {fdt : ℕ} {mb₀ mb : Memblock}
    {requests : List (Memblock.Request × ℕ)} {mem : ℕ → Option ℕ} {calls : List Heap.Call} {x : Heap}
    (hinit : memblockInit image fdt = some mb₀) (hboot : Run Memblock.Step mb₀ requests mb)
    (hrun : Run (Guarded Heap.ReleaseOk Heap.Step) ⟨Slab.init (pmmInit mb) mem, []⟩ calls x) :
    (∀ o ∈ x.live, o.size ≤ capacity o.size ∧ x.slab.pmm.ram.memBase ≤ o.ptr ∧
      o.ptr + capacity o.size ≤ x.slab.pmm.ram.memEnd) ∧ x.live.Pairwise Obj.Apart ∧
      ∀ {i c p}, (x.slab.caches i).active c = some p →
        (x.slab.pmm.pageMap p).state = .slab ∧ (x.slab.pmm.pageMap p).slab.cache = some i := by
  have hmb := Memblock.run_inv hboot (memblockInit_spec hinit).2.1
  obtain ⟨P, cls, F, h⟩ := Heap.valid_of_run hrun ⟨_, _, _, Heap.valid_init hmb mem⟩
  refine ⟨fun o ho => ⟨le_capacity _, ?_⟩, h.pairwise_apart, fun {i c p} hact => ?_⟩
  · obtain ⟨b, hb, -, hle, hend⟩ := h.exists_block ho
    have hfit := (h.slab.inv.accounted.held_ok b hb).1.le
    refine ⟨le_trans (Nat.le_add_right ..) hle, hend.trans ?_⟩
    rw [Ram.memEnd, ← x.slab.pmm.ram.numPages_mul]
    exact Nat.add_le_add_left (Nat.mul_le_mul_right _ hfit) _
  · obtain ⟨hp, rfl, -⟩ := h.slab.active hact
    exact ⟨(h.slab.page p hp).state, (h.slab.page p hp).cache⟩

/-- The heap of the small machine. -/
def smallHeap : Heap := ⟨Slab.init (pmmInit (smallBoot [])) fun _ => none, []⟩

set_option maxRecDepth 100000 in
/-- A CPU allocates objects of two classes, frees one and allocates again. -/
theorem objects_apart_small : ∃ x, Run (Guarded Heap.ReleaseOk Heap.Step) smallHeap
    [.kmalloc 0 16, .kmalloc 0 8, .kfree 0 0x8000F000, .kmalloc 0 16] x ∧ x.live.length = 2 ∧
      x.live.Pairwise Obj.Apart := by
  have hrun : (smallHeap.execAll Heap.ReleaseOk
      [.kmalloc 0 16, .kmalloc 0 8, .kfree 0 0x8000F000, .kmalloc 0 16]).map (·.live.length) =
        some 2 := by decide +kernel
  obtain ⟨x, hx, hlive⟩ := Option.map_eq_some_iff.mp hrun
  have hr := Heap.run_execAll hx
  exact ⟨x, hr, hlive, (objects_apart (memblockInit_small 0x80008000) (.nil _) hr).2.1⟩

set_option maxRecDepth 100000 in
/-- CPU 1 frees the only object of a page, which stays the active page of CPU 0. The page comes back
as a slab page of another class, and both CPUs allocate from it. -/
theorem recycled_page_shared : ∃ x, Run Heap.Step smallHeap
    [.kmalloc 0 16, .kfree 1 0x8000F000, .kmalloc 1 8, .kmalloc 0 16, .kmalloc 1 8] x ∧
      ¬ x.live.Pairwise Obj.Apart := by
  have hrun : (smallHeap.execAll (fun _ _ => True)
      [.kmalloc 0 16, .kfree 1 0x8000F000, .kmalloc 1 8, .kmalloc 0 16, .kmalloc 1 8]).map (·.live) =
        some [⟨0x8000F010, 8⟩, ⟨0x8000F008, 16⟩, ⟨0x8000F000, 8⟩] := by decide +kernel
  obtain ⟨x, hx, hlive⟩ := Option.map_eq_some_iff.mp hrun
  refine ⟨x, (Heap.run_execAll hx).of_guarded, ?_⟩
  rw [hlive]
  decide

end Lume
