import Lume.Vm.Regions
import Lume.Vm.System

/-!
# The regions refine a partial function

An address space is meant to be a partial function from user addresses to permissions. In every
state that the system can reach, the tree of regions represents one, and every operation acts on
it as its contract says, whatever the state of the machine and whichever allocations fail.

## Main definitions

* `VmSpace.permAt`: the partial function
* `VmSpace.RefinesPerms`: the contract of the operations on one address space

## Main results

* `regions_of_run`: the invariant of the tree, in every reachable state
* `regions_refine`: the contract, in every reachable state
-/

namespace Lume

open Segs (Maps Sorted)

/-- The permission of an address. -/
def VmSpace.permAt (s : VmSpace) (a : ℕ) : Option Word := Segs.get s.vmas a

/-- The operations act on the partial function as they should. -/
structure VmSpace.RefinesPerms (s : VmSpace) : Prop where
  /-- the regions are non-empty, page aligned, in the user range, and apart in tree order -/
  inv : RegionInv kUserVaLimit s.vmas
  /-- mapping is refused, with the tree unchanged, where the range meets a mapped page -/
  map_refused : ∀ {m m' : Machine} {va len : ℕ} {perm : Word} {ret : Int} {s' : VmSpace},
    kPageSize ∣ va →
    m.mapUser s va len perm = (ret, m', s') → pageAlignUp len ≠ 0 →
    (∃ a, va ≤ a ∧ a < va + pageAlignUp len ∧ s.permAt a ≠ none) → ret ≠ 0 ∧ s' = s
  /-- mapping extends the function by exactly the range -/
  map : ∀ {m m' : Machine} {va len : ℕ} {perm : Word} {s' : VmSpace}, kPageSize ∣ va →
    m.mapUser s va len perm = (0, m', s') →
    pageAlignUp len ≠ 0 → ∀ a, s'.permAt a =
      if va ≤ a ∧ a < va + pageAlignUp len then some (perm ||| vmUser) else s.permAt a
  /-- unmapping removes exactly the range -/
  unmap : ∀ {m m' : Machine} {va len : ℕ} {s' : VmSpace}, kPageSize ∣ va →
    m.unmapUser s va len = (0, m', s') →
    ∀ a, s'.permAt a = if va ≤ a ∧ a < va + pageAlignUp len then none else s.permAt a
  /-- changing permissions sets exactly the range -/
  protect : ∀ {m m' : Machine} {va len : ℕ} {perm : Word} {s' : VmSpace}, kPageSize ∣ va →
    m.protectUser s va len perm = (0, m', s') → ∀ a, s'.permAt a =
      if va ≤ a ∧ a < va + pageAlignUp len then some (perm ||| vmUser) else s.permAt a
  /-- a failed change of permissions leaves the function as it was -/
  protect_failed : ∀ {m m' : Machine} {va len : ℕ} {perm : Word} {ret : Int} {s' : VmSpace},
    kPageSize ∣ va →
    m.protectUser s va len perm = (ret, m', s') → ret ≠ 0 → ∀ a, s'.permAt a = s.permAt a
  /-- merging a region with its neighbours keeps the function -/
  merge : ∀ v ∈ s.vmas, ∀ a, Segs.get (mergeNeighbors s.vmas v) a = s.permAt a
  /-- splitting a region keeps the function -/
  split : ∀ v ∈ s.vmas, ∀ {m m' : Machine} {b : ℕ} {ret : Int} {t' : List Vma}, kPageSize ∣ b →
    m.splitVma s.vmas v b = (ret, m', t') → ∀ a, Segs.get t' a = s.permAt a

theorem RegionInv.refinesPerms {s : VmSpace} (h : RegionInv kUserVaLimit s.vmas) :
    s.RefinesPerms where
  inv := h
  map_refused {m m' va len perm ret s'} hva hr hlen := by
    rintro ⟨a, hlo, hhi, hmapped⟩
    obtain ⟨x, hx⟩ := Option.ne_none_iff_exists'.mp hmapped
    obtain ⟨-, hfail, hok⟩ := mapUser_spec hr h fun _ hrange =>
      (hrange.bounds (pageAlignUp_lt len)).2
    rw [pageAlignDown_of_dvd hva] at hok
    have hne : ret ≠ 0 := fun h₀ =>
      (hok h₀ hlen).2 a x ((Segs.get_eq_some_iff h.sorted).mp hx) ⟨hlo, hhi⟩
    exact ⟨hne, hfail hne⟩
  map {m m' va len perm s'} hva hr hlen a := by
    obtain ⟨hinv, -, hok⟩ := mapUser_spec hr h fun _ hrange =>
      (hrange.bounds (pageAlignUp_lt len)).2
    rw [pageAlignDown_of_dvd hva] at hok
    obtain ⟨hmaps, hfree⟩ := hok rfl hlen
    split
    · rename_i hin
      exact (Segs.get_eq_some_iff hinv.sorted).mpr ((hmaps a _).mpr (.inl ⟨hin.1, hin.2, rfl⟩))
    · rename_i hout
      refine Segs.get_congr h.sorted hinv.sorted fun x => (hmaps a x).trans ?_
      exact or_iff_right fun hin => hout ⟨hin.1, hin.2.1⟩
  unmap {m m' va len s'} hva hr a := by
    have hun := unmapUser_spec hr h
    rw [pageAlignDown_of_dvd hva] at hun
    split
    · rename_i hin
      refine Segs.get_eq_none_iff.mpr fun v hv ha => ?_
      exact hun.gone rfl a v.tag (Segs.maps_of_mem hv ha) hin
    · rename_i hout
      exact Segs.get_congr h.sorted hun.inv.sorted fun x =>
        ⟨hun.maps a x, fun ha => hun.keep a x ha hout⟩
  protect {m m' va len perm s'} hva hr a := by
    obtain ⟨hinv, -, hok⟩ := protectUser_spec hr h
    have hmaps := hok rfl a
    rw [pageAlignDown_of_dvd hva] at hmaps
    split
    · rename_i hin
      exact (Segs.get_eq_some_iff hinv.sorted).mpr ((hmaps _).mpr (by rw [if_pos hin]))
    · rename_i hout
      exact Segs.get_congr h.sorted hinv.sorted fun x => by rw [hmaps, if_neg hout]
  protect_failed {m m' va len perm ret s'} _ hr hne a := by
    obtain ⟨hinv, hfail, -⟩ := protectUser_spec hr h
    exact Segs.get_congr h.sorted hinv.sorted fun x => hfail hne a x
  merge v hv a := by
    obtain ⟨hinv, hmaps⟩ := mergeNeighbors_spec h hv
    exact Segs.get_congr h.sorted hinv.sorted fun x => hmaps a x
  split v hv {m m' b ret t'} hb hr a := by
    obtain ⟨href, -⟩ := splitVma_spec hr h hv hb
    exact Segs.get_congr h.sorted href.inv.sorted fun x => href.maps a x

/-! ## Reachable states -/

section Run

variable {st st' : VmState}

/-- Every live address space satisfies the invariant of the tree. -/
def VmState.RegionsOk (hi : ℕ) (st : VmState) : Prop :=
  ∀ sid s, st.space sid = some s → RegionInv hi s.vmas

theorem VmState.RegionsOk.put {hi sid : ℕ} {s : VmSpace} (h : st.RegionsOk hi)
    (hs : st.space sid = some s) (m : Machine) {s' : Option VmSpace}
    (hs' : ∀ x, s' = some x → RegionInv hi x.vmas) : (st.put m sid s').RegionsOk hi := by
  intro j x hx
  rw [space_put hs] at hx
  split at hx
  · exact hs' x hx
  · exact h j x hx

theorem VmState.RegionsOk.push {hi : ℕ} (h : st.RegionsOk hi) {r : Option VmSpace × Machine}
    (hr : ∀ x, r.1 = some x → RegionInv hi x.vmas) : (st.push r).RegionsOk hi := by
  intro j x hx
  rw [space_push] at hx
  split at hx
  · exact hr x hx
  · exact h j x hx

/-- The regions of an address space and the bounds of its heap. -/
def VmSpace.shape (s : VmSpace) : List Vma × ℕ × ℕ := (s.vmas, s.brkStart, s.brkEnd)

theorem createSpace_shape {m m' : Machine} {s : VmSpace} (hr : m.createSpace = (some s, m')) :
    s.shape = ([], 0, 0) := by
  rw [Machine.createSpace] at hr
  split at hr
  · cases hr
  split at hr <;> cases hr
  rfl

/-- The mapped ranges of a call end at or before `hi`. -/
def VmCall.MapsBelow (hi : ℕ) : VmCall → Prop
  | .mapUser _ va len _ => pageAlignUp len ≠ 0 → UserRange (pageAlignDown va) (pageAlignUp len) →
      pageAlignDown va + pageAlignUp len ≤ hi
  | _ => True

/-- Where the shape of a live address space comes from when machine `m` runs an action. -/
inductive VmState.ShapeFrom (st : VmState) (m : Machine) (call : VmCall) :
    List Vma × ℕ × ℕ → Prop
  | new : ShapeFrom st m call ([], 0, 0)
  | kept {sid : ℕ} {s : VmSpace} : st.space sid = some s → ShapeFrom st m call s.shape
  | mapUser {sid va len : ℕ} {perm : Word} {s : VmSpace} : st.space sid = some s →
      call = .mapUser sid va len perm →
      ShapeFrom st m call ((m.mapUser s va len perm).2.2.vmas, s.brkStart, s.brkEnd)
  | unmapUser {sid va len : ℕ} {s : VmSpace} : st.space sid = some s →
      call = .unmapUser sid va len →
      ShapeFrom st m call ((m.unmapUser s va len).2.2.vmas, s.brkStart, s.brkEnd)
  | protectUser {sid va len : ℕ} {perm : Word} {s : VmSpace} : st.space sid = some s →
      call = .protectUser sid va len perm →
      ShapeFrom st m call ((m.protectUser s va len perm).2.2.vmas, s.brkStart, s.brkEnd)

theorem VmState.RegionsOk.shapeFrom {hi : ℕ} (h : st.RegionsOk hi) (m : Machine) (call : VmCall)
    {j : ℕ} {x : VmSpace} (hx : (st.run m call).space j = some x) : st.ShapeFrom m call x.shape := by
  -- a call on an address space that is not live does nothing
  have hon (sid : ℕ) (f : VmSpace → VmState) (hx : (st.onSpace sid f).space j = some x)
      (hf : ∀ s, st.space sid = some s → (f s).space j = some x → st.ShapeFrom m call x.shape) :
      st.ShapeFrom m call x.shape := by
    rw [VmState.onSpace] at hx
    split at hx
    · exact hf _ ‹_› hx
    · exact .kept hx
  -- the other address spaces are as before
  have hput {sid : ℕ} {s : VmSpace} {m' : Machine} {o : Option VmSpace}
      (hs : st.space sid = some s) (hx : (st.put m' sid o).space j = some x)
      (hf : o = some x → st.ShapeFrom m call x.shape) : st.ShapeFrom m call x.shape := by
    rw [space_put hs] at hx
    split at hx
    · exact hf hx
    · exact .kept hx
  have hpush {r : Option VmSpace × Machine} (hx : (st.push r).space j = some x)
      (hf : r.1 = some x → st.ShapeFrom m call x.shape) : st.ShapeFrom m call x.shape := by
    rw [space_push] at hx
    split at hx
    · exact hf hx
    · exact .kept hx
  cases call with
  | create =>
    refine hpush hx fun hs => ?_
    rw [createSpace_shape (Prod.ext hs rfl : m.createSpace = (some x, m.createSpace.2))]
    exact .new
  | mapUser sid va len perm =>
    refine hon sid _ hx fun s hs hx => hput hs hx fun he => ?_
    cases he
    have hshape : (m.mapUser s va len perm).2.2.shape =
        ((m.mapUser s va len perm).2.2.vmas, s.brkStart, s.brkEnd) :=
      congrArg VmSpace.shape (mapUser_vmas ..)
    rw [hshape]
    exact .mapUser hs rfl
  | unmapUser sid va len =>
    refine hon sid _ hx fun s hs hx => hput hs hx fun he => ?_
    cases he
    have hshape : (m.unmapUser s va len).2.2.shape =
        ((m.unmapUser s va len).2.2.vmas, s.brkStart, s.brkEnd) :=
      congrArg VmSpace.shape (unmapUser_vmas ..)
    rw [hshape]
    exact .unmapUser hs rfl
  | protectUser sid va len perm =>
    refine hon sid _ hx fun s hs hx => hput hs hx fun he => ?_
    cases he
    have hshape : (m.protectUser s va len perm).2.2.shape =
        ((m.protectUser s va len perm).2.2.vmas, s.brkStart, s.brkEnd) :=
      congrArg VmSpace.shape (protectUser_vmas ..)
    rw [hshape]
    exact .protectUser hs rfl
  | pageFault sid addr cause =>
    refine hon sid _ hx fun s hs hx => hput hs hx fun he => ?_
    cases he
    exact .kept hs
  | clone sid =>
    refine hon sid _ hx fun s hs hx => hpush hx fun he => ?_
    have hclone : m.clone s = (some x, (m.clone s).2) := Prod.ext he rfl
    obtain ⟨hstart, hend⟩ := clone_brk hclone
    rw [VmSpace.shape, clone_vmas hclone (h sid s hs).sorted, hstart, hend]
    exact .kept hs
  | destroy sid =>
    refine hon sid _ hx fun s hs hx => hput hs hx fun he => ?_
    cases he
  | store sid va w =>
    refine hon sid _ hx fun s hs hx => hput hs hx fun he => ?_
    cases he
    exact .kept hs
  | kernel call => exact .kept hx
  | kernelWrite pa i w => exact .kept hx

theorem VmState.RegionsOk.step {hi : ℕ} {l : VmLabel} (h : st.RegionsOk hi)
    (hl : l.call.MapsBelow hi) (hs : VmState.Step st l st') : st'.RegionsOk hi := by
  obtain ⟨-, rfl⟩ := hs
  intro j x hx
  have hfrom := h.shapeFrom _ _ hx
  rw [show x.vmas = x.shape.1 from rfl]
  generalize x.shape = t at hfrom
  cases hfrom with
  | new => exact .nil hi
  | kept hs => exact h _ _ hs
  | mapUser hs he =>
    rw [he] at hl
    exact (mapUser_spec rfl (h _ _ hs) hl).1
  | unmapUser hs he => exact (unmapUser_spec rfl (h _ _ hs)).inv
  | protectUser hs he => exact (protectUser_spec rfl (h _ _ hs)).1

/-- Every region of a live address space is open to user mode. -/
def VmState.UserRegions (st : VmState) : Prop :=
  ∀ sid s, st.space sid = some s → ∀ a x, Maps s.vmas a x → x.getLsbD 3 = true

theorem getLsbD_or_vmUser (perm : Word) : (perm ||| vmUser).getLsbD 3 = true := by
  have huser : vmUser.getLsbD 3 = true := by decide
  rw [BitVec.getLsbD_or, huser, Bool.or_true]

theorem VmState.UserRegions.step {hi : ℕ} {l : VmLabel} (hu : st.UserRegions)
    (h : st.RegionsOk hi) (hl : l.call.MapsBelow hi) (hs : VmState.Step st l st') :
    st'.UserRegions := by
  obtain ⟨-, rfl⟩ := hs
  intro j x hx a w hw
  have hfrom := h.shapeFrom _ _ hx
  rw [show x.vmas = x.shape.1 from rfl] at hw
  generalize x.shape = t at hfrom hw
  generalize ({ st.machine with cpu := l.cpu, luck := l.luck } : Machine) = m at hfrom
  cases hfrom with
  | new => simp [Maps] at hw
  | kept hs => exact hu _ _ hs a w hw
  | @mapUser sid va len perm s hs he =>
    obtain ⟨⟨ret, m', s'⟩, hr⟩ : ∃ r, m.mapUser s va len perm = r := ⟨_, rfl⟩
    rw [hr] at hw
    rw [he] at hl
    have hok := (mapUser_spec hr (h _ _ hs) hl).2.2
    rcases mapUser_cases hr with ⟨rfl, -⟩ | ⟨hret, hlen, -⟩
    · exact hu _ _ hs a w hw
    · rcases ((hok hret hlen).1 a w).mp hw with ⟨-, -, rfl⟩ | hold
      · exact getLsbD_or_vmUser perm
      · exact hu _ _ hs a w hold
  | unmapUser hs he => exact hu _ _ hs a w ((unmapUser_spec rfl (h _ _ hs)).maps a w hw)
  | @protectUser sid va len perm s hs he =>
    obtain ⟨⟨ret, m', s'⟩, hr⟩ : ∃ r, m.protectUser s va len perm = r := ⟨_, rfl⟩
    rw [hr] at hw
    obtain ⟨-, hfail, hok⟩ := protectUser_spec hr (h _ _ hs)
    by_cases hret : ret = 0
    · have hin := (hok hret a w).mp hw
      split at hin
      · rw [← hin]
        exact getLsbD_or_vmUser perm
      · exact hu _ _ hs a w hin
    · exact hu _ _ hs a w ((hfail hret a w).mp hw)

theorem regions_of_run {st₀ : VmState} {ls : List VmLabel} (h₀ : st₀.spaces = [])
    (hr : Run VmState.Step st₀ ls st) : st.RegionsOk kUserVaLimit := by
  have hstep {s : VmState} {l : VmLabel} {s' : VmState} (h : s.RegionsOk kUserVaLimit)
      (hs : VmState.Step s l s') : s'.RegionsOk kUserVaLimit := by
    refine h.step ?_ hs
    -- the code's own range check keeps every mapping below the limit
    cases l.call with
    | mapUser sid va len perm => exact fun _ hrange => (hrange.bounds (pageAlignUp_lt len)).2
    | _ => trivial
  refine hr.invariant hstep fun sid s hs => ?_
  simp [VmState.space, h₀] at hs

/-- **The tree of regions refines a partial function** from user addresses to permissions. -/
theorem regions_refine {st₀ : VmState} {ls : List VmLabel} {sid : ℕ} {s : VmSpace}
    (h₀ : st₀.spaces = []) (hr : Run VmState.Step st₀ ls st) (hs : st.space sid = some s) :
    s.RefinesPerms :=
  (regions_of_run h₀ hr sid s hs).refinesPerms

set_option maxRecDepth 100000 in
/-- On the small machine: an address space with one region. -/
theorem regions_refine_small : ∃ s,
    ((smallState.exec ⟨0, [], .create⟩).exec ⟨0, [], .mapUser 0 0x200000 0x2000 3⟩).space 0 =
      some s ∧ s.RefinesPerms := by
  obtain ⟨s, hs⟩ := Option.isSome_iff_exists.mp (by decide +kernel :
    (((smallState.exec ⟨0, [], .create⟩).exec ⟨0, [], .mapUser 0 0x200000 0x2000 3⟩).space
      0).isSome)
  have hcpu : 0 < kMaxCpus := by decide
  have hcreate : smallState.Permitted ⟨0, [], .create⟩ := ⟨hcpu, trivial⟩
  have hmap : (smallState.exec ⟨0, [], .create⟩).Permitted
      ⟨0, [], .mapUser 0 0x200000 0x2000 3⟩ := ⟨hcpu, trivial⟩
  exact ⟨s, hs, regions_refine rfl (.snoc (.snoc (.nil _) hcreate.step) hmap.step) hs⟩

end Run

end Lume
