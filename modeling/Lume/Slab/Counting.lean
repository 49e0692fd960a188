import Lume.Slab.Heap

/-!
# Slab pages on one CPU

When one CPU makes all the calls, no other CPU has an active page, and the condition of
`objects_apart` always holds. The counter of a slab page is then exact, its free list visits every
slot that is not in use, the page goes back to the page allocator with its last object, and an empty
heap holds no page.

## Main definitions

* `Pmm.Owns`: the pages that are in the hands of the page allocator
* `Heap.OnCpu`: the calls of one CPU

## Main results

* `slab_pages_counted`
-/

namespace Lume

/-! ## The pages of the page allocator -/

namespace Pmm

/-- The page allocator has page `p`: it is in a free block, or in the cache of a CPU. -/
def Owns (s : Pmm) (p : ℕ) : Prop :=
  (∃ b : Block, b.start ∈ s.freeAreas b.order ∧ p ∈ b) ∨ ∃ c, p ∈ (s.pcp c).freeList

theorem Inv.owns_iff {s : Pmm} {R : Finset ℕ} {held : List Block} (h : Inv s R held) {p : ℕ}
    (hp : p < s.numPages) : s.Owns p ↔ p ∉ R ∧ ∀ b ∈ held, p ∉ b := by
  have huniq {pl pl' : Place} (hat : Client.At ⟨s, held⟩ R p pl) (hat' : Client.At ⟨s, held⟩ R p pl') :
      pl = pl' := Client.At.unique (x := ⟨s, held⟩) h.accounted hp hat hat'
  constructor
  · intro hown
    obtain ⟨pl, hat, hpl⟩ : ∃ pl, Client.At ⟨s, held⟩ R p pl ∧ ((∃ b, pl = .free b) ∨ ∃ c, pl = .cached c) := by
      rcases hown with ⟨b, hb⟩ | ⟨c, hc⟩
      · exact ⟨.free b, hb, .inl ⟨b, rfl⟩⟩
      · exact ⟨.cached c, hc, .inr ⟨c, rfl⟩⟩
    refine ⟨fun hR => ?_, fun b hb hpb => ?_⟩
    · have he : _ = Place.reserved := huniq hat hR
      subst he
      simp at hpl
    · have he : _ = Place.live b := huniq hat ⟨hb, hpb⟩
      subst he
      simp at hpl
  · rintro ⟨hR, hheld⟩
    obtain ⟨pl, hat⟩ := Client.exists_at (x := ⟨s, held⟩) h.accounted hp
    cases pl with
    | free b => exact .inl ⟨b, hat⟩
    | cached c => exact .inr ⟨c, hat⟩
    | live b => exact absurd hat.2 (hheld b hat.1)
    | reserved => exact absurd hat hR

end Pmm

/-! ## The active pages of other CPUs -/

namespace Slab

variable (s : Slab) {i j cpu d : ℕ}

theorem active_setActive (hd : d ≠ cpu) (o : Option ℕ) :
    ((s.setActive i cpu o).caches j).active d = (s.caches j).active d := by
  rcases eq_or_ne j i with rfl | hne
  · simp [setActive, Function.update_of_ne hd]
  · simp [setActive, Function.update_of_ne hne]

theorem caches_newSlab (i cpu : ℕ) : (s.newSlab i cpu).2.caches = s.caches := by
  unfold newSlab
  split <;> rfl

theorem active_allocSlow (hd : d ≠ cpu) :
    ((s.allocSlow i cpu).2.caches j).active d = (s.caches j).active d := by
  have hnew := s.caches_newSlab i cpu
  unfold allocSlow
  generalize s.newSlab i cpu = r at hnew
  obtain ⟨o, s'⟩ := r
  rw [← show s'.caches = s.caches from hnew]
  cases o with
  | none => rfl
  | some p =>
    dsimp only
    split
    · exact s'.active_setActive hd _
    · exact s'.active_setActive hd _

theorem active_alloc (hd : d ≠ cpu) :
    ((s.alloc i cpu).2.caches j).active d = (s.caches j).active d := by
  unfold alloc
  split
  · exact s.active_allocSlow hd
  · split
    · exact (active_allocSlow _ hd).trans (s.active_setActive hd _)
    · rfl

theorem active_kmalloc (hd : d ≠ cpu) (size : ℕ) :
    ((s.kmalloc cpu size).2.caches j).active d = (s.caches j).active d := by
  unfold kmalloc
  split
  · rfl
  · split
    · split <;> rfl
    · split
      · rfl
      · exact s.active_alloc hd

theorem active_free (hd : d ≠ cpu) {obj : ℕ} {s' : Slab} (h : s.free i cpu obj = some s') :
    (s'.caches j).active d = (s.caches j).active d := by
  unfold free at h
  split at h
  · cases h
  · rename_i p _
    split at h
    · cases h
    · dsimp only at h
      split at h
      · obtain rfl := Option.some_injective _ h
        unfold retire
        dsimp only
        split
        · exact (s.push p obj).active_setActive hd none
        · rfl
      · obtain rfl := Option.some_injective _ h
        rfl

theorem active_kfree (hd : d ≠ cpu) {ptr : ℕ} {s' : Slab} (h : s.kfree cpu ptr = some s') :
    (s'.caches j).active d = (s.caches j).active d := by
  unfold kfree at h
  split at h
  · cases h
  · split at h
    · split at h
      · cases h
      · exact s.active_free hd h
    · obtain rfl := Option.some_injective _ h
      rfl
    · cases h

end Slab

/-! ## Runs of one CPU -/

namespace Heap

/-- The calls of CPU `c`. -/
def OnCpu (c : ℕ) (_ : Heap) : Call → Prop
  | .kmalloc cpu _ | .kfree cpu _ => cpu = c
  | .store .. => True

instance (c : ℕ) (x : Heap) : ∀ call, Decidable (OnCpu c x call)
  | .kmalloc cpu _ | .kfree cpu _ => inferInstanceAs (Decidable (cpu = c))
  | .store .. => inferInstanceAs (Decidable True)

/-- No other CPU has an active page. -/
def Alone (c : ℕ) (x : Heap) : Prop := ∀ j d, d ≠ c → (x.slab.caches j).active d = none

variable {c : ℕ} {x y : Heap} {call : Call}

theorem Alone.step (h : x.Alone c) (hon : OnCpu c x call) (hy : x.exec call = some y) :
    y.Alone c := by
  intro j d hd
  cases call with
  | kmalloc cpu size =>
    obtain rfl : cpu = c := hon
    obtain rfl := Option.some_injective _ hy
    exact (x.slab.active_kmalloc hd size).trans (h j d hd)
  | kfree cpu ptr =>
    obtain rfl : cpu = c := hon
    obtain ⟨s', hs', rfl⟩ := Option.map_eq_some_iff.mp hy
    exact (x.slab.active_kfree hd hs').trans (h j d hd)
  | store addr v =>
    obtain rfl := Option.some_injective _ hy
    exact h j d hd

theorem Alone.releaseOk (h : x.Alone c) (hon : OnCpu c x call) : x.ReleaseOk call := by
  cases call with
  | kmalloc => trivial
  | store => trivial
  | kfree cpu ptr =>
    obtain rfl : cpu = c := hon
    intro _ _ i _ d _ hact
    by_contra hne
    rw [h i d hne] at hact
    cases hact

theorem valid_alone {R : Finset ℕ} {calls : List Call} (hrun : Run (Guarded (OnCpu c) Step) x calls y)
    (h : ∃ P cls F, x.Valid R P cls F) (halone : x.Alone c) :
    (∃ P cls F, y.Valid R P cls F) ∧ y.Alone c := by
  refine hrun.invariant (P := fun z => (∃ P cls F, z.Valid R P cls F) ∧ z.Alone c) ?_ ⟨h, halone⟩
  rintro x call y ⟨⟨P, cls, F, h⟩, halone⟩ ⟨hon, hp, hy⟩
  obtain ⟨y', P', cls', F', hy', hv, -⟩ := h.step hp (halone.releaseOk hon)
  obtain rfl := Option.some_injective _ (hy.symm.trans hy')
  exact ⟨⟨P', cls', F', hv⟩, halone.step hon hy⟩

namespace Valid

variable {R : Finset ℕ} {P : List ℕ} {cls : ℕ → ℕ} {F : ℕ → List ℕ} {p : ℕ}

theorem not_owns (h : x.Valid R P cls F) (hp : p ∈ P) : ¬ x.slab.pmm.Owns p := by
  intro hown
  have hall := (h.slab.inv.owns_iff (h.slab.lt hp)).mp hown
  exact hall.2 ⟨p, 0⟩ (Slab.Valid.held hp) (Block.start_mem _)

theorem mem_free_iff (h : x.Valid R P cls F) (hp : p ∈ P) {a : ℕ} :
    a ∈ F p ↔ a ∈ x.slab.slotsOf p (cls p) ∧ a ∉ x.liveOn p := by
  have hpage := h.slab.page p hp
  refine ⟨fun ha => ⟨hpage.mem_slots_of_free ha, fun hlive => ?_⟩, fun ⟨hslot, hfree⟩ => ?_⟩
  · exact List.disjoint_of_nodup_append hpage.nodup ha hlive
  · exact (List.mem_append.mp (hpage.perm.symm.subset hslot)).resolve_right hfree

theorem owns_iff (h : x.Valid R P cls F) {P' : List ℕ} {cls' : ℕ → ℕ} {F' : ℕ → List ℕ}
    (h' : y.Valid R P' cls' F') (hy : x.exec call = some y)
    (hram : y.slab.pmm.ram = x.slab.pmm.ram) (hback : ∀ p ∈ P, p ∈ P' ↔ ¬ x.Empties p call)
    (hp : p ∈ P) : y.slab.pmm.Owns p ↔ x.Empties p call := by
  refine ⟨fun hown => ?_, fun hempty => ?_⟩
  · by_contra hnot
    exact h'.not_owns ((hback p hp).mpr hnot) hown
  · have hlt : p < y.slab.pmm.numPages := by
      rw [Pmm.numPages, hram]
      exact h.slab.lt hp
    have hheld : (⟨p, 0⟩ : Block) ∈ Slab.pageBlocks P ++ bigBlocks x.slab.pmm.ram x.live :=
      Slab.Valid.held hp
    have hplace := (Pmm.Inv.conserved (x := ⟨x.slab.pmm, _⟩) h.slab.inv).live ⟨p, 0⟩ hheld
    refine (h'.slab.inv.owns_iff hlt).mpr ⟨fun hR => ?_, fun b hb hpb => ?_⟩
    · have hat : Pmm.Client.At ⟨x.slab.pmm, _⟩ R p (.live ⟨p, 0⟩) := ⟨hheld, Block.start_mem _⟩
      have he : _ = Pmm.Place.reserved :=
        Pmm.Client.At.unique (x := ⟨x.slab.pmm, _⟩) h.slab.inv.accounted (h.slab.lt hp) hat hR
      cases he
    · rcases List.mem_append.mp hb with hb | hb
      · obtain ⟨q, hq, rfl⟩ := List.mem_map.mp hb
        obtain rfl := Block.mem_order_zero.mp hpb
        exact ((hback p hp).mp hq) hempty
      · -- a call that frees an object leaves the blocks of the large ones
        cases call with
        | kmalloc | store => exact hempty
        | kfree cpu ptr =>
          obtain ⟨s', -, rfl⟩ := Option.map_eq_some_iff.mp hy
          have hold : b ∈ bigBlocks x.slab.pmm.ram x.live := by
            obtain ⟨o, ho, rfl⟩ := List.mem_map.mp hb
            obtain ⟨ho, hbig⟩ := List.mem_filter.mp ho
            change (⟨s'.pmm.ram.pageOf o.ptr, Slab.orderFor o.size⟩ : Block) ∈ _
            rw [show s'.pmm.ram = x.slab.pmm.ram from hram]
            exact mem_bigBlocks (List.mem_filter.mp ho).1 (of_decide_eq_true hbig)
          refine hplace.2.2.2 b (List.mem_append_right _ hold) ?_ p (Block.start_mem _) hpb
          rintro rfl
          obtain ⟨o, ho, he⟩ := List.mem_map.mp hold
          obtain ⟨ho, hbig⟩ := List.mem_filter.mp ho
          have hstart : x.slab.pmm.ram.pageOf o.ptr = p := congrArg Block.start he
          exact h.big_not_mem ho (of_decide_eq_true hbig) (hstart ▸ hp)

end Valid

end Heap

/-- **Slab pages are counted exactly**, when all calls are made by one CPU. The counter of a slab page
is the number of its objects in use, and its free list visits every other slot once and ends. No call
panics, and a call gives a slab page back exactly when it frees its last object. Once all objects are
freed, no page is a slab page, no cache has an active page, and the page allocator has every page
that is not reserved. -/
theorem slab_pages_counted {ram : Ram} {image : KernelImage ram} {fdt : ℕ} {mb₀ mb : Memblock}
    {requests : List (Memblock.Request × ℕ)} {mem : ℕ → Option ℕ} {c : ℕ} {calls : List Heap.Call}
    {x : Heap} (hinit : memblockInit image fdt = some mb₀) (hboot : Run Memblock.Step mb₀ requests mb)
    (hrun : Run (Guarded (Heap.OnCpu c) Heap.Step) ⟨Slab.init (pmmInit mb) mem, []⟩ calls x) :
    (∀ p, (x.slab.pmm.pageMap p).state = .slab → ∃ i F, (x.slab.pmm.pageMap p).slab.cache = some i ∧
      (x.slab.pmm.pageMap p).slab.objCount = (x.liveOn p).length ∧
      Threaded x.slab.mem (x.slab.pmm.pageMap p).slab.freelist F ∧ F.Nodup ∧
      F.length = (x.slab.caches i).objsPerSlab - (x.slab.pmm.pageMap p).slab.objCount ∧
      ∀ a, a ∈ F ↔ a ∈ slots (x.slab.pmm.ram.pageToPa p) (x.slab.caches i).objSize
        (x.slab.caches i).objsPerSlab ∧ a ∉ x.liveOn p) ∧
    (∀ call, Heap.OnCpu c x call → x.Permitted call → ∃ y, x.exec call = some y ∧
      ∀ p, (x.slab.pmm.pageMap p).state = .slab → (y.slab.pmm.Owns p ↔ x.Empties p call)) ∧
    (x.live = [] → (∀ p, (x.slab.pmm.pageMap p).state ≠ .slab) ∧
      (∀ i d, (x.slab.caches i).active d = none) ∧
      ∀ p < x.slab.pmm.numPages, p ∉ mb.reservedPages → x.slab.pmm.Owns p) := by
  have hmb := Memblock.run_inv hboot (memblockInit_spec hinit).2.1
  obtain ⟨⟨P, cls, F, h⟩, halone⟩ := Heap.valid_alone hrun ⟨_, _, _, Heap.valid_init hmb mem⟩
    fun _ _ _ => rfl
  refine ⟨fun p hp => ?_, fun call hon hp => ?_, fun hempty => ?_⟩
  · have hpage := h.slab.page p (h.slab.only p hp)
    have hlen := hpage.length
    refine ⟨cls p, F p, hpage.cache, hpage.count, hpage.thread, ?_, ?_, fun a => ?_⟩
    · exact (List.nodup_append.mp hpage.nodup).1
    · rw [hpage.count, (h.slab.caches _).2]
      omega
    · rw [(h.slab.caches _).1, (h.slab.caches _).2]
      exact h.mem_free_iff (h.slab.only p hp)
  · obtain ⟨y, P', cls', F', hy, h', hram, hback⟩ := h.step hp (halone.releaseOk hon)
    exact ⟨y, hy, fun p hp => h.owns_iff h' hy hram hback (h.slab.only p hp)⟩
  · -- every slab page has an object
    have hnone (p : ℕ) : p ∉ P := by
      intro hp
      refine h.busy p hp ?_
      rw [Heap.liveOn, hempty]
      rfl
    refine ⟨fun p hp => hnone p (h.slab.only p hp), fun i d => ?_, fun p hp hR => ?_⟩
    · cases hact : (x.slab.caches i).active d with
      | none => rfl
      | some p => exact absurd (h.slab.active hact).1 (hnone p)
    · refine (h.slab.inv.owns_iff hp).mpr ⟨hR, fun b hb => ?_⟩
      rcases List.mem_append.mp hb with hb | hb
      · obtain ⟨q, hq, -⟩ := List.mem_map.mp hb
        exact absurd hq (hnone q)
      · rw [hempty] at hb
        cases hb

set_option maxRecDepth 100000 in
/-- Three objects of two classes; the second one of its page is freed first. -/
theorem slab_pages_counted_small : ∃ x, Run (Guarded (Heap.OnCpu 0) Heap.Step) smallHeap
    [.kmalloc 0 16, .kmalloc 0 8, .kmalloc 0 16, .kfree 0 0x8000F010] x ∧ x.liveOn 15 = [0x8000F000] ∧
      (x.slab.pmm.pageMap 15).slab.objCount = (x.liveOn 15).length ∧
      ∃ y, x.exec (.kfree 0 0x8000F000) = some y ∧ y.slab.pmm.Owns 15 := by
  have hrun : (smallHeap.execAll (Heap.OnCpu 0)
      [.kmalloc 0 16, .kmalloc 0 8, .kmalloc 0 16, .kfree 0 0x8000F010]).map (fun x =>
        (x.liveOn 15, (x.slab.pmm.pageMap 15).state, decide (x.Permitted (.kfree 0 0x8000F000)))) =
          some ([0x8000F000], .slab, true) := by decide +kernel
  obtain ⟨x, hx, hfacts⟩ := Option.map_eq_some_iff.mp hrun
  obtain ⟨hlive, hstate, hp⟩ : x.liveOn 15 = [0x8000F000] ∧
      (x.slab.pmm.pageMap 15).state = .slab ∧ x.Permitted (.kfree 0 0x8000F000) := by
    simpa using hfacts
  have hr := Heap.run_execAll hx
  obtain ⟨hpages, hcalls, -⟩ := slab_pages_counted (memblockInit_small 0x80008000) (.nil _) hr
  obtain ⟨i, F, -, hcount, -⟩ := hpages 15 hstate
  obtain ⟨y, hy, hback⟩ := hcalls (.kfree 0 0x8000F000) rfl hp
  exact ⟨x, hr, hlive, hcount, y, hy, (hback 15 hstate).mpr hlive⟩

end Lume
