import Lume.Vm.Space
import Lume.Pmm.System

/-!
# The memory-management system

Any number of address spaces over one machine. A step is one call, by the kernel on behalf of a
process, or one store by a process, or an action of the rest of the kernel on memory it holds.
Every step runs on some CPU and with some outcome for each allocation it makes.

## Main definitions

* `VmState`: the machine, the address spaces, and what the rest of the kernel holds
* `VmCall`, `VmState.exec`: the calls and what they do
* `VmState.Permitted`, `VmState.Step`: one step
-/

namespace Lume

/-- The machine, the address spaces ever created (`none` once destroyed), and the blocks of
physical memory that the rest of the kernel holds. -/
structure VmState where
  machine : Machine
  spaces : List (Option VmSpace)
  other : List Block

/-- One action; an address space is named by its index. -/
inductive VmCall
  | create
  | mapUser (sid va len : ℕ) (perm : Word)
  | unmapUser (sid va len : ℕ)
  | protectUser (sid va len : ℕ) (perm : Word)
  | pageFault (sid addr : ℕ) (cause : VmFaultCause)
  | clone (sid : ℕ)
  | destroy (sid : ℕ)
  | store (sid va : ℕ) (w : Word)
  | kernel (call : Pmm.Call)
  | kernelWrite (pa i : ℕ) (w : Word)

/-- The call acts on address spaces, not on what the rest of the kernel holds. -/
def VmCall.isUser : VmCall → Bool
  | .kernel _ => false
  | .kernelWrite _ _ _ => false
  | _ => true

/-- A call, the CPU it runs on, and the outcomes of the allocations it makes. -/
structure VmLabel where
  cpu : ℕ
  luck : List Bool
  call : VmCall

/-- A store of a word by a process: the hardware walks the tables and faults unless the leaf
entry allows a write from user mode. -/
def Machine.storeUser (m : Machine) (root va : ℕ) (w : Word) : Machine :=
  match m.mem.findLeaf va 3 root with
  | some e =>
    if (m.mem e.1 e.2).Has pteW ∧ (m.mem e.1 e.2).Has pteU then
      m.write (pteToPa (m.mem e.1 e.2)) (va % kPageSize / 8) w
    else m
  | none => m

namespace VmState

variable (st : VmState)

/-- The live address space with this index. -/
def space (sid : ℕ) : Option VmSpace := st.spaces[sid]?.join

/-- Replace the machine and one address space. -/
def put (m : Machine) (sid : ℕ) (s : Option VmSpace) : VmState :=
  { st with machine := m, spaces := st.spaces.set sid s }

/-- Replace the machine, and add an address space if there is a new one. -/
def push (r : Option VmSpace × Machine) : VmState :=
  { st with machine := r.2, spaces := st.spaces ++ r.1.toList.map some }

/-- Run an action on a live address space; without one the call does nothing. -/
def onSpace (sid : ℕ) (f : VmSpace → VmState) : VmState :=
  match st.space sid with
  | some s => f s
  | none => st

/-- The effect of one action on machine `m`. -/
def run (m : Machine) : VmCall → VmState
  | .create => st.push m.createSpace
  | .mapUser sid va len perm => st.onSpace sid fun s =>
      st.put (m.mapUser s va len perm).2.1 sid (some (m.mapUser s va len perm).2.2)
  | .unmapUser sid va len => st.onSpace sid fun s =>
      st.put (m.unmapUser s va len).2.1 sid (some (m.unmapUser s va len).2.2)
  | .protectUser sid va len perm => st.onSpace sid fun s =>
      st.put (m.protectUser s va len perm).2.1 sid (some (m.protectUser s va len perm).2.2)
  | .pageFault sid addr cause => st.onSpace sid fun s =>
      st.put (m.handlePageFault s addr cause).2 sid (some s)
  | .clone sid => st.onSpace sid fun s => st.push (m.clone s)
  | .destroy sid => st.onSpace sid fun s => st.put (m.destroySpace s) sid none
  | .store sid va w => st.onSpace sid fun s => st.put (m.storeUser s.rootPa va w) sid (some s)
  | .kernel call =>
    let c := (⟨m.pmm, st.other⟩ : Pmm.Client).exec call
    { st with machine := { m with pmm := c.pmm }, other := c.held }
  | .kernelWrite pa i w => { st with machine := m.write pa i w }

/-- The effect of a step. -/
def exec (l : VmLabel) : VmState :=
  st.run { st.machine with cpu := l.cpu, luck := l.luck } l.call

/-- The rest of the kernel keeps to the blocks it holds. -/
def KernelPermitted : Pmm.Call → Prop
  | .incref p => ∃ order, ⟨p, order⟩ ∈ st.other
  | .decref cpu p => cpu < kMaxCpus ∧ ∃ order, ⟨p, order⟩ ∈ st.other
  | call => (⟨st.machine.pmm, st.other⟩ : Pmm.Client).Permitted call

/-- The CPU exists, and the rest of the kernel acts on memory it holds. -/
def Permitted (l : VmLabel) : Prop :=
  l.cpu < kMaxCpus ∧
    match l.call with
    | .kernel call => st.KernelPermitted call
    | .kernelWrite pa _ _ =>
      ∃ b ∈ st.other, ∃ p ∈ b, pa = st.machine.pmm.ram.pageToPa p
    | _ => True

/-- One permitted step. -/
def Step (st : VmState) (l : VmLabel) (st' : VmState) : Prop := st.Permitted l ∧ st' = st.exec l

theorem Permitted.step {st : VmState} {l : VmLabel} (h : st.Permitted l) : Step st l (st.exec l) :=
  ⟨h, rfl⟩

theorem permitted_of_isUser {st : VmState} {l : VmLabel} (hcpu : l.cpu < kMaxCpus)
    (hl : l.call.isUser = true) : st.Permitted l := by
  refine ⟨hcpu, ?_⟩
  split <;> simp_all [VmCall.isUser]

theorem run_guarded {ok : VmState → VmLabel → Prop} (st : VmState) (ls : List VmLabel)
    (h : ∀ l ∈ ls, l.cpu < kMaxCpus ∧ l.call.isUser = true) (hok : ∀ l ∈ ls, ∀ s, ok s l) :
    Run (Guarded ok Step) st ls (ls.foldl exec st) := by
  induction ls using List.reverseRecOn with
  | nil => exact .nil st
  | append_singleton ls l ih =>
    have hl := h l (by simp)
    rw [List.foldl_append]
    refine .snoc (ih (fun l' hl' => h l' (by simp [hl'])) fun l' hl' => hok l' (by simp [hl'])) ?_
    exact ⟨hok l (by simp) _, (permitted_of_isUser hl.1 hl.2).step⟩

theorem run_foldl (st : VmState) (ls : List VmLabel)
    (h : ∀ l ∈ ls, l.cpu < kMaxCpus ∧ l.call.isUser = true) : Run Step st ls (ls.foldl exec st) :=
  (run_guarded st ls h fun _ _ _ => trivial : Run (Guarded (fun _ _ => True) Step) _ _ _).of_guarded

theorem space_put {st : VmState} {sid : ℕ} {s : VmSpace} (h : st.space sid = some s) (m : Machine)
    (s' : Option VmSpace) (j : ℕ) :
    (st.put m sid s').space j = if j = sid then s' else st.space j := by
  have hlt : sid < st.spaces.length := by
    by_contra hge
    simp [space, List.getElem?_eq_none (not_lt.mp hge)] at h
  simp only [space, put, List.getElem?_set]
  split
  · rename_i he
    subst he
    simp
  · rename_i hne
    rw [if_neg (Ne.symm hne)]

theorem space_push (st : VmState) (r : Option VmSpace × Machine) (j : ℕ) :
    (st.push r).space j = if j = st.spaces.length then r.1 else st.space j := by
  simp only [space, push, List.getElem?_append]
  rcases lt_trichotomy j st.spaces.length with h | rfl | h
  · simp [h, h.ne]
  · cases r.1 <;> simp
  · have hsub : j - st.spaces.length ≠ 0 := by omega
    rw [if_neg (by omega), if_neg h.ne', List.getElem?_eq_none (by omega : st.spaces.length ≤ j)]
    cases r.1 <;> simp [hsub]

end VmState

/-- The small machine after boot, with no address space yet and with memory cleared. -/
def smallState : VmState := ⟨⟨fun _ _ => 0, pmmInit (smallBoot []), 0, []⟩, [], []⟩

end Lume
