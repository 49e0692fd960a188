import Lume.Uaccess.Copy
import Lume.Uaccess.Extable
import Lume.Vm.Faults

/-!
# User copies and demand paging

`copy_from_user` and `copy_to_user` on the memory of an address space whose page table is active.
A load or store of the copy loop is translated by the page table. If that fails there is a page
fault in the kernel, and `kernel_trap_handler` looks the instruction up in the exception table before
it does anything else. Both instructions of the loop are in the table, so that the loop is left with
`-EFAULT`: `vmm_handle_page_fault` is not called, and a page that would be filled in or copied on the
first access of the process is as bad as one that does not exist.

## Main definitions

* `kernelTrapHandler`: where a fault in the kernel goes
* `Mem.translate`, `userMemory`: user memory as the copy loop reaches it
* `Mem.userByte`: what is at an address

## Main results

* `Ledger.store_spec`: a store changes one byte, and no table
* `Ledger.copyToLoop_ok`, `copyFromLoop_ok`: what the loops leave
* `VmState.Sound.translate_iff`: which accesses end in a frame
* `user_copy_succeeds_iff`: when a copy on permitted memory succeeds
* `copy_to_untouched_page_fails`: what goes wrong otherwise
-/

namespace Lume

/-! ## Bytes of words -/

namespace Word

/-- Byte `i` of a word. -/
def byte (w : Word) (i : ℕ) : UInt8 := ⟨(w >>> (8 * i)).setWidth 8⟩

/-- The lowest byte of a word. -/
def byteMask : Word := (BitVec.allOnes 8).setWidth 64

/-- Replace byte `i` of a word. -/
def setByte (w : Word) (i : ℕ) (b : UInt8) : Word :=
  (w &&& ~~~(byteMask <<< (8 * i))) ||| (b.toBitVec.setWidth 64 <<< (8 * i))

theorem getLsbD_byteMask (k : ℕ) : byteMask.getLsbD k = decide (k < 8) := by
  rw [byteMask, BitVec.getLsbD_setWidth, BitVec.getLsbD_allOnes, ← Bool.decide_and]
  exact decide_eq_decide.mpr (by omega)

theorem getLsbD_byte (w : Word) (j : ℕ) {k : ℕ} (hk : k < 8) :
    (w.byte j).toBitVec.getLsbD k = w.getLsbD (8 * j + k) := by
  rw [byte, BitVec.getLsbD_setWidth, BitVec.getLsbD_ushiftRight, decide_eq_true hk, Bool.true_and]

theorem getLsbD_setByte (w : Word) (i : ℕ) (b : UInt8) {k : ℕ} (hk : k < 64) :
    (w.setByte i b).getLsbD k = if 8 * i ≤ k ∧ k < 8 * i + 8 then b.toBitVec.getLsbD (k - 8 * i)
      else w.getLsbD k := by
  rw [setByte, BitVec.getLsbD_or, BitVec.getLsbD_and, BitVec.getLsbD_not, BitVec.getLsbD_shiftLeft,
    BitVec.getLsbD_shiftLeft, BitVec.getLsbD_setWidth, getLsbD_byteMask]
  split
  · rename_i hin
    have hlow : k - 8 * i < 8 := by omega
    simp [hk, hlow, Nat.not_lt.mpr hin.1]
    omega
  · rename_i hout
    by_cases hlt : k < 8 * i
    · simp [hk, hlt]
    · have hbig : 8 ≤ k - 8 * i := by omega
      rw [BitVec.getLsbD_of_ge _ _ hbig]
      simp [hk, hlt, hbig]

theorem byte_setByte {w : Word} {i j : ℕ} {b : UInt8} (hj : j < 8) :
    (w.setByte i b).byte j = if j = i then b else w.byte j := by
  apply UInt8.toBitVec_inj.mp
  apply BitVec.eq_of_getLsbD_eq
  intro k hk
  rw [getLsbD_byte _ _ hk, getLsbD_setByte _ _ _ (by omega)]
  by_cases he : j = i
  · rw [if_pos (by omega), if_pos he, he, Nat.add_sub_cancel_left]
  · rw [if_neg (by omega), if_neg he, getLsbD_byte _ _ hk]

/-- The leaf entry lets an access of the kernel complete while the `SUM` bit is set: the bit for user
mode does not matter. -/
def LetsKernel (w : Word) (cause : VmFaultCause) : Prop :=
  w.Has pteV ∧ w.Has cause.pteBit ∧ ¬ (w.Has pteW ∧ ¬ w.Has pteR)

instance (w : Word) (cause : VmFaultCause) : Decidable (w.LetsKernel cause) :=
  inferInstanceAs (Decidable (_ ∧ _ ∧ ¬ _))

end Word

/-! ## Faults in the kernel -/

/-- `EXC_LOAD_PAGE_FAULT` -/
def excLoadPageFault : BitVec 64 := 13

/-- `EXC_STORE_PAGE_FAULT` -/
def excStorePageFault : BitVec 64 := 15

/-- What becomes of a trap in the kernel. -/
inductive TrapAction where
  /-- execution goes on at an address -/
  | resume (epc : BitVec 64)
  /-- `trap_handle` is called; from there `vmm_handle_page_fault` can be reached -/
  | handle
deriving DecidableEq

/-- `kernel_trap_handler`; `none` if the search does not end. -/
def kernelTrapHandler (t : ExTable) (scause epc : BitVec 64) : Option TrapAction :=
  if scause = excLoadPageFault ∨ scause = excStorePageFault then
    (searchExtable t epc).map fun fixup => if fixup ≠ 0 then .resume fixup else .handle
  else some .handle

/-! ## User memory under a page table -/

/-- SV39 translates addresses whose upper bits all equal bit 38. -/
def Canonical (va : ℕ) : Prop := va < 2 ^ 38 ∨ 2 ^ 64 - 2 ^ 38 ≤ va

instance (va : ℕ) : Decidable (Canonical va) := inferInstanceAs (Decidable (_ ∨ _))

namespace Mem

/-- The frame in which an access of the kernel to a user address ends; `none` is a page fault. -/
def translate (mem : Mem) (root va : ℕ) (cause : VmFaultCause) : Option ℕ :=
  if Canonical va then
    (mem.findLeaf va 3 root).bind fun e =>
      if (mem e.1 e.2).LetsKernel cause then some (pteToPa (mem e.1 e.2)) else none
  else none

/-- The byte of a frame that belongs to a virtual address. -/
def frameByte (mem : Mem) (va pa : ℕ) : UInt8 := (mem pa (va % kPageSize / 8)).byte (va % 8)

/-- Replace that byte. -/
def setFrameByte (mem : Mem) (va : ℕ) (b : UInt8) (pa : ℕ) : Mem :=
  mem.write pa (va % kPageSize / 8) ((mem pa (va % kPageSize / 8)).setByte (va % 8) b)

/-- What is at a mapped address. -/
def userByte (mem : Mem) (root va : ℕ) : Option UInt8 := (mem.lookup root va).map (mem.frameByte va)

end Mem

/-- User memory as `lb` and `sb` of the copy loop reach it, with the page table at `root` active. -/
def userMemory (root : ℕ) : UserSide Mem where
  load mem va := (mem.translate root va .read).map (mem.frameByte va)
  store mem va b := (mem.translate root va .write).map (mem.setFrameByte va b)

theorem userMemory_store (root : ℕ) (mem : Mem) (va : ℕ) (b : UInt8) :
    (userMemory root).store mem va b = (mem.translate root va .write).map (mem.setFrameByte va b) :=
  rfl

theorem kVaSpan_le_kKernelVABase : kVaSpan ≤ kKernelVABase := by decide

namespace Mem

variable {mem : Mem} {va va' pa pa' : ℕ} {b : UInt8}

theorem frameByte_setFrameByte_self : (mem.setFrameByte va b pa).frameByte va pa = b := by
  rw [frameByte, setFrameByte, write_self, Word.byte_setByte (Nat.mod_lt _ (by decide)), if_pos rfl]

theorem frameByte_setFrameByte_of_ne (hne : pa' = pa → va' % kPageSize ≠ va % kPageSize) :
    (mem.setFrameByte va b pa).frameByte va' pa' = mem.frameByte va' pa' := by
  rw [frameByte, setFrameByte, frameByte]
  by_cases hpa : pa' = pa
  · subst hpa
    have hoff := hne rfl
    by_cases hword : va' % kPageSize / 8 = va % kPageSize / 8
    · -- another byte of the same word
      have hbyte : va' % 8 ≠ va % 8 := by
        simp only [kPageSize] at hoff hword
        omega
      rw [hword, write_self, Word.byte_setByte (Nat.mod_lt _ (by decide)), if_neg hbyte]
    · rw [write_of_ne hword]
  · rw [write_of_ne_pa hpa]

end Mem

namespace Ledger

variable {m : Machine} {other : List Block} {roots : Roots} {g : Ghost} {sid root va va' : ℕ}
  {cause : VmFaultCause} {b : UInt8} {mem' : Mem}

section

variable (h : Ledger m other roots g) (hr : roots sid = some root)
include h hr

theorem translate_eq (va : ℕ) (cause : VmFaultCause) : m.mem.translate root va cause =
      if Canonical va ∧ (m.mem.slots roots (sid, slotNo va)).LetsKernel cause then
        (m.mem.slots roots (sid, slotNo va)).target else none := by
  rw [Mem.translate, ite_and]
  refine ite_congr rfl (fun _ => ?_) fun _ => rfl
  rcases hleaf : m.mem.findLeaf va 3 root with _ | e
  · have hnone : (m.mem.slots roots (sid, slotNo va)).target = none := by
      rw [← h.lookup_slot hr, Mem.lookup, hleaf, Option.map_none]
    rw [hnone, ite_self, Option.bind_none]
  · obtain ⟨hslot, htarget⟩ := h.leaf_eq hr hleaf
    rw [Option.bind_some, hslot] at *
    rw [htarget]

theorem translate_ne_none : m.mem.translate root va cause ≠ none ↔ Canonical va ∧
      (m.mem.slots roots (sid, slotNo va)).LetsKernel cause ∧
        (m.mem.slots roots (sid, slotNo va)).target ≠ none := by
  rw [h.translate_eq hr]
  split
  · rename_i hok
    exact ⟨fun ht => ⟨hok.1, hok.2, ht⟩, fun ht => ht.2.2⟩
  · rename_i hbad
    exact ⟨fun ht => absurd rfl ht, fun ht => absurd ⟨ht.1, ht.2.1⟩ hbad⟩

theorem lookup_of_translate {pa : ℕ}
    (ht : m.mem.translate root va cause = some pa) : m.mem.lookup root va = some pa := by
  rw [h.translate_eq hr] at ht
  rw [h.lookup_slot hr]
  split at ht
  · exact ht
  · cases ht

theorem load_eq (ht : m.mem.translate root va .read ≠ none) :
    (userMemory root).load m.mem va = m.mem.userByte root va := by
  obtain ⟨pa, hpa⟩ := Option.ne_none_iff_exists'.mp ht
  rw [userMemory, Mem.userByte, h.lookup_of_translate hr hpa]
  dsimp only
  rw [hpa]

/-- **A store** changes one byte, and no table. -/
theorem store_spec (hva : va < kVaSpan) (hs : (userMemory root).store m.mem va b = some mem') :
    ∃ m', m'.mem = mem' ∧ Ledger m' other roots g ∧ mem'.slots roots = m.mem.slots roots ∧
      mem'.userByte root va = some b ∧
      ∀ va' < kVaSpan, va' ≠ va → mem'.userByte root va' = m.mem.userByte root va' := by
  obtain ⟨pa, hpa, rfl⟩ := Option.map_eq_some_iff.mp hs
  have hlook := h.lookup_of_translate hr hpa
  have htarget := h.lookup_slot hr va
  rw [hlook] at htarget
  obtain ⟨p, -, hp, hframe, hown⟩ := h.frame_of_target htarget.symm
  -- the byte is in a data frame, so that all tables stay
  have htable (sid : ℕ) (path : List ℕ) : g.own p ≠ .table sid path := by simp [hown]
  obtain ⟨hslots, hl⟩ := h.write_other htable (va % kPageSize / 8)
    ((m.mem pa (va % kPageSize / 8)).setByte (va % 8) b)
  rw [← hp] at hslots hl
  have hlook' (a : ℕ) : (m.mem.setFrameByte va b pa).lookup root a = m.mem.lookup root a := by
    rw [h.lookup_slot hr, ← hslots]
    exact hl.lookup_slot hr a
  refine ⟨_, rfl, hl, hslots, ?_, ?_⟩
  · rw [Mem.userByte, hlook', hlook, Option.map_some, Mem.frameByte_setFrameByte_self]
  · intro va' hva' hne
    rw [Mem.userByte, hlook', Mem.userByte]
    rcases hlook'' : m.mem.lookup root va' with _ | pa'
    · rfl
    · rw [Option.map_some, Option.map_some, Mem.frameByte_setFrameByte_of_ne]
      rintro rfl hoff
      -- one frame is mapped at one page of an address space only
      rw [h.lookup_slot hr] at hlook''
      obtain ⟨p', -, hp', hframe', -⟩ := h.frame_of_target hlook''
      have hpp : p' = p := g.ram.pageToPa_injective (hp'.symm.trans hp)
      have hpage : slotNo va' = slotNo va := h.same_page _ _ p (hpp ▸ hframe') hframe
      apply hne
      simp only [slotNo, kVaSpan, kPageNumbers, kPageSize] at hpage hva hva' hoff
      omega

end

end Ledger

/-! ## The loops -/

section Loops

variable {load : ℕ → Option UInt8} {n src dst : ℕ} {buf bytes : List UInt8}

theorem copyFromLoop_ok (buf : List UInt8) (hend : src + n ≤ kKernelVABase)
    (hload : ∀ a ∈ List.range' src n, load a ≠ none) : (copyFromLoop load n src buf).ret = 0 ∧
      (copyFromLoop load n src buf).state.map some = buf.map some ++ (List.range' src n).map load := by
  induction n generalizing src buf with
  | zero => simp [copyFromLoop]
  | succ n ih =>
    rw [List.range'_succ, List.forall_mem_cons] at hload
    obtain ⟨b, hb⟩ := Option.ne_none_iff_exists'.mp hload.1
    obtain ⟨hret, hstate⟩ := ih (buf ++ [b]) (by omega) hload.2
    rw [copyFromLoop, hb]
    dsimp only
    rw [next_addr (by omega)]
    refine ⟨hret, hstate.trans ?_⟩
    rw [List.range'_succ, List.map_cons, hb, List.map_append, List.append_assoc]
    rfl

theorem copyFromLoop_fault (hend : src + n ≤ kKernelVABase)
    (hload : ∃ a ∈ List.range' src n, load a = none) :
    (copyFromLoop load n src buf).ret = -eFault := by
  induction n generalizing src buf with
  | zero => simp at hload
  | succ n ih =>
    rw [copyFromLoop]
    rcases hb : load src with _ | b
    · rfl
    · dsimp only
      rw [next_addr (by omega)]
      refine ih (by omega) ?_
      rw [List.range'_succ] at hload
      simp only [List.mem_cons, exists_eq_or_imp] at hload
      exact hload.resolve_left (by simp [hb])

end Loops

namespace Ledger

variable {m : Machine} {other : List Block} {roots : Roots} {g : Ghost} {sid root dst : ℕ}
  {bytes : List UInt8}

section

variable (h : Ledger m other roots g) (hr : roots sid = some root)
  (hend : dst + bytes.length ≤ kVaSpan)
include h hr hend

theorem copyToLoop_ok
    (hok : ∀ a ∈ List.range' dst bytes.length, m.mem.translate root a .write ≠ none) :
    (copyToLoop (userMemory root) bytes dst m.mem).ret = 0 ∧ (List.range' dst bytes.length).map
        ((copyToLoop (userMemory root) bytes dst m.mem).state.userByte root) = bytes.map some ∧
      ∀ a < dst, (copyToLoop (userMemory root) bytes dst m.mem).state.userByte root a =
        m.mem.userByte root a := by
  induction bytes generalizing m dst with
  | nil => simp [copyToLoop]
  | cons b bytes ih =>
    have hspan := kVaSpan_le_kKernelVABase
    rw [List.length_cons] at hend hok ⊢
    rw [List.range'_succ] at hok ⊢
    rw [List.forall_mem_cons] at hok
    obtain ⟨pa, hpa⟩ := Option.ne_none_iff_exists'.mp hok.1
    have hstore : (userMemory root).store m.mem dst b = some (m.mem.setFrameByte dst b pa) := by
      rw [userMemory_store, hpa, Option.map_some]
    obtain ⟨m', hm', hl', hslots, hself, hother⟩ := h.store_spec hr (by omega) hstore
    have htail : ∀ a ∈ List.range' (dst + 1) bytes.length, m'.mem.translate root a .write ≠ none := by
      intro a ha
      rw [hl'.translate_ne_none hr, hm', hslots]
      exact (h.translate_ne_none hr).mp (hok.2 a ha)
    obtain ⟨hret, hbytes, hbelow⟩ := ih hl' (by omega) htail
    rw [copyToLoop, hstore]
    dsimp only
    rw [next_addr (by omega), ← hm']
    refine ⟨hret, ?_, fun a ha => ?_⟩
    · -- the rest of the copy is above the first byte
      rw [List.map_cons, List.map_cons, hbytes, hbelow dst (by omega), hm', hself]
    · rw [hbelow a (by omega), hm', hother a (by omega) (by omega)]

theorem copyToLoop_fault
    (hbad : ∃ a ∈ List.range' dst bytes.length, m.mem.translate root a .write = none) :
    (copyToLoop (userMemory root) bytes dst m.mem).ret = -eFault := by
  induction bytes generalizing m dst with
  | nil => simp at hbad
  | cons b bytes ih =>
    have hspan := kVaSpan_le_kKernelVABase
    rw [List.length_cons] at hend
    rw [copyToLoop]
    rcases hstore : (userMemory root).store m.mem dst b with _ | mem'
    · rfl
    · dsimp only
      obtain ⟨m', hm', hl', hslots, -⟩ := h.store_spec hr (by omega) hstore
      rw [next_addr (by omega), ← hm']
      refine ih hl' (by omega) ?_
      rw [List.length_cons, List.range'_succ] at hbad
      simp only [List.mem_cons, exists_eq_or_imp] at hbad
      obtain ⟨a, ha, hnone⟩ := hbad.resolve_left fun hfirst => by
        rw [userMemory_store, hfirst] at hstore
        cases hstore
      refine ⟨a, ha, ?_⟩
      by_contra hne
      rw [← Ne, hl'.translate_ne_none hr, hm', hslots] at hne
      exact (h.translate_ne_none hr).mpr hne hnone

end

end Ledger

/-! ## Copies on permitted memory -/

/-- The regions of an address space permit an access to each of `n` addresses. -/
def VmSpace.Permits (s : VmSpace) (addr n : ℕ) (cause : VmFaultCause) : Prop :=
  ∀ a ∈ List.range' addr n, ∃ v ∈ s.vmas, a ∈ v ∧ Machine.vmaAllows v cause

/-- The page of `a` has been faulted in and is not waiting for a copy, and its entry is one that the
hardware accepts. -/
def Machine.Resident (m : Machine) (s : VmSpace) (cause : VmFaultCause) (a : ℕ) : Prop :=
  a < 2 ^ 38 ∧ m.mem.lookup s.rootPa a ≠ none ∧
    (cause = .write → m.mem.isCow s.rootPa a = false ∧ ∃ v ∈ s.vmas, a ∈ v ∧ v.perm.Has vmRead)

theorem isUserRange_of_le {addr n : ℕ} (h : addr + n ≤ kVaSpan) (hn : n ≠ 0) :
    isUserRange addr n = true := by
  have hspan := kVaSpan_le_kKernelVABase
  have hbase : kKernelVABase < 2 ^ 64 := by decide
  exact (isUserRange_iff (by omega) (by omega)).mpr (by omega)

namespace VmState

variable {st : VmState} {g : Ghost} {sid a : ℕ} {s : VmSpace} {cause : VmFaultCause}

/-- Where a region permits it, an access of the kernel ends in a frame exactly when the page is
resident. -/
theorem Sound.translate_iff (h : st.Sound g) (hs : st.space sid = some s) {v : Vma} (hv : v ∈ s.vmas)
    (hin : a ∈ v) (hallow : Machine.vmaAllows v cause) (hexec : cause ≠ .exec) :
    st.machine.mem.translate s.rootPa a cause ≠ none ↔ st.machine.Resident s cause a := by
  have hr := roots_eq hs
  have hcanon : Canonical a ↔ a < 2 ^ 38 := by
    have hstop := ((h.regions sid s hs).bounds v hv).2
    have hlt := hin.2
    have hspan : kVaSpan = 2 ^ 39 := by decide
    rw [Canonical]
    omega
  rw [h.ledger.translate_ne_none hr, hcanon, Machine.Resident, h.ledger.lookup_slot hr,
    ← Bool.not_eq_true, h.isCow_iff hs]
  change _ ∧ (st.slots (sid, slotNo a)).LetsKernel cause ∧ (st.slots (sid, slotNo a)).target ≠ none ↔
    _ ∧ (st.slots (sid, slotNo a)).target ≠ none ∧ _
  refine and_congr_right fun _ => ?_
  rw [and_comm]
  refine and_congr_right fun ht => ?_
  have hgrants := h.grants_of_mem hs hv hin ht
  have hvalid : (st.slots (sid, slotNo a)).Has pteV := (Word.target_ne_none.mp ht).1
  cases cause with
  | read =>
    have hread : (st.slots (sid, slotNo a)).Has pteR := hgrants.has_pteR.mpr hallow
    exact ⟨fun _ hc => absurd hc (by decide), fun _ => ⟨hvalid, hread, fun hw => hw.2 hread⟩⟩
  | write =>
    constructor
    · rintro ⟨-, hwrite, hreserved⟩ -
      have hread : (st.slots (sid, slotNo a)).Has pteR := by
        by_contra hno
        exact hreserved ⟨hwrite, hno⟩
      exact ⟨fun hc => (hgrants.has_pteW.mp hwrite).2 hc.2, v, hv, hin, hgrants.has_pteR.mp hread⟩
    · intro hres
      obtain ⟨hcow, u, hu, hinu, hread⟩ := hres rfl
      have hwrite : (st.slots (sid, slotNo a)).Has pteW :=
        hgrants.has_pteW.mpr ⟨hallow, fun hc => hcow ⟨ht, hc⟩⟩
      have hreadable := (h.grants_of_mem hs hu hinu ht).has_pteR.mpr hread
      exact ⟨hvalid, hwrite, fun hw => hw.2 hreadable⟩
  | exec => exact absurd rfl hexec

theorem Sound.permits_le (h : st.Sound g) (hs : st.space sid = some s) {addr n : ℕ}
    (hp : s.Permits addr n cause) (hn : n ≠ 0) : addr + n ≤ kVaSpan := by
  have hlast : addr + n - 1 ∈ List.range' addr n := List.mem_range'_1.mpr (by omega)
  obtain ⟨v, hv, hin, -⟩ := hp _ hlast
  have hstop := ((h.regions sid s hs).bounds v hv).2
  have hlt := hin.2
  omega

variable {addr len : ℕ} {bytes : List UInt8}

section

variable (h : st.Sound g) (hs : st.space sid = some s)
include h hs

theorem Sound.translate_all (hp : s.Permits addr len cause) (hexec : cause ≠ .exec) :
    (∀ a ∈ List.range' addr len, st.machine.mem.translate s.rootPa a cause ≠ none) ↔
      ∀ a ∈ List.range' addr len, st.machine.Resident s cause a := by
  refine forall₂_congr fun a ha => ?_
  obtain ⟨v, hv, hin, hallow⟩ := hp a ha
  exact h.translate_iff hs hv hin hallow hexec

theorem Sound.copyFromUser_spec (hp : s.Permits addr len .read) {r : Copied (List UInt8)}
    (hr : copyFromUser (userMemory s.rootPa) st.machine.mem addr len = r) :
    ((∀ a ∈ List.range' addr len, st.machine.Resident s .read a) → r.ret = 0 ∧
      r.state.map some = (List.range' addr len).map (st.machine.mem.userByte s.rootPa)) ∧
    ((¬ ∀ a ∈ List.range' addr len, st.machine.Resident s .read a) → r.ret = -eFault) := by
  rw [← h.translate_all hs hp (by decide)]
  rw [copyFromUser] at hr
  split at hr
  · rename_i hzero
    subst hr hzero
    simp
  · rename_i hlen
    have hle := h.permits_le hs hp hlen
    have hend := hle.trans kVaSpan_le_kKernelVABase
    rw [if_pos (isUserRange_of_le hle hlen)] at hr
    subst hr
    refine ⟨fun hall => ?_, fun hbad => copyFromLoop_fault hend ?_⟩
    · have hload : ∀ a ∈ List.range' addr len, (userMemory s.rootPa).load st.machine.mem a =
          st.machine.mem.userByte s.rootPa a := fun a ha => h.ledger.load_eq (roots_eq hs) (hall a ha)
      have hsome : ∀ a ∈ List.range' addr len, (userMemory s.rootPa).load st.machine.mem a ≠ none :=
        fun a ha hnone => hall a ha (Option.map_eq_none_iff.mp hnone)
      obtain ⟨hret, hstate⟩ := copyFromLoop_ok [] hend hsome
      refine ⟨hret, hstate.trans ?_⟩
      rw [List.map_nil, List.nil_append]
      exact List.map_congr_left hload
    · push Not at hbad
      obtain ⟨a, ha, hnone⟩ := hbad
      exact ⟨a, ha, Option.map_eq_none_iff.mpr hnone⟩

theorem Sound.copyToUser_spec (hp : s.Permits addr bytes.length .write) {r : Copied Mem}
    (hr : copyToUser (userMemory s.rootPa) st.machine.mem addr bytes = r) :
    ((∀ a ∈ List.range' addr bytes.length, st.machine.Resident s .write a) → r.ret = 0 ∧
      (List.range' addr bytes.length).map (r.state.userByte s.rootPa) = bytes.map some) ∧
    ((¬ ∀ a ∈ List.range' addr bytes.length, st.machine.Resident s .write a) →
      r.ret = -eFault) := by
  rw [← h.translate_all hs hp (by decide)]
  rw [copyToUser] at hr
  split at hr
  · rename_i hzero
    obtain rfl := List.length_eq_zero_iff.mp hzero
    subst hr
    simp
  · rename_i hlen
    have hle := h.permits_le hs hp hlen
    rw [if_pos (isUserRange_of_le hle hlen)] at hr
    subst hr
    refine ⟨fun hall => ?_, fun hbad => h.ledger.copyToLoop_fault (roots_eq hs) hle ?_⟩
    · obtain ⟨hret, hbytes, -⟩ := h.ledger.copyToLoop_ok (roots_eq hs) hle hall
      exact ⟨hret, hbytes⟩
    · push Not at hbad
      exact hbad

end

end VmState

theorem outcome_iff {P Q : Prop} {ret : ℤ} (hok : P → ret = 0 ∧ Q) (hbad : ¬ P → ret = -eFault) :
    (ret = 0 ∧ Q ↔ P) ∧ (ret = -eFault ↔ ¬ P) := by
  have hne : (0 : ℤ) ≠ -eFault := by decide
  by_cases hP : P
  · obtain ⟨rfl, hQ⟩ := hok hP
    exact ⟨iff_of_true ⟨rfl, hQ⟩ hP, iff_of_false hne (not_not_intro hP)⟩
  · obtain rfl := hbad hP
    exact ⟨iff_of_false (fun h => hne h.1.symm) hP, iff_of_true rfl hP⟩

/-- **Copies on permitted memory**: a fault of the loop goes to its fixup, and so a copy succeeds
exactly when every page of the range is resident already. -/
theorem user_copy_succeeds_iff {R : Finset ℕ} {st₀ st : VmState} {ls : List VmLabel} {sid : ℕ}
    {s : VmSpace} (h₀ : st₀.Booted R)
    (hr : Run (Guarded VmState.Injective VmState.Step) st₀ ls st) (hs : st.space sid = some s)
    {t : ExTable} {loadPc storePc fixup : BitVec 64} (hload : searchExtable t loadPc = some fixup)
    (hstore : searchExtable t storePc = some fixup) (hfixup : fixup ≠ 0) (addr : ℕ) :
    kernelTrapHandler t excLoadPageFault loadPc = some (.resume fixup) ∧
    kernelTrapHandler t excStorePageFault storePc = some (.resume fixup) ∧
    (∀ len, s.Permits addr len .read →
      let r := copyFromUser (userMemory s.rootPa) st.machine.mem addr len
      (r.ret = 0 ∧ r.state.map some =
        (List.range' addr len).map (st.machine.mem.userByte s.rootPa) ↔
        ∀ a ∈ List.range' addr len, st.machine.Resident s .read a) ∧
      (r.ret = -eFault ↔ ¬ ∀ a ∈ List.range' addr len, st.machine.Resident s .read a)) ∧
    ∀ bytes, s.Permits addr bytes.length .write →
      let r := copyToUser (userMemory s.rootPa) st.machine.mem addr bytes
      (r.ret = 0 ∧ (List.range' addr bytes.length).map (r.state.userByte s.rootPa) =
        bytes.map some ↔ ∀ a ∈ List.range' addr bytes.length, st.machine.Resident s .write a) ∧
      (r.ret = -eFault ↔ ¬ ∀ a ∈ List.range' addr bytes.length,
        st.machine.Resident s .write a) := by
  obtain ⟨g, h, -⟩ := VmState.sound_of_injective h₀ hr
  refine ⟨?_, ?_, fun len hp => ?_, fun bytes hp => ?_⟩
  · rw [kernelTrapHandler, if_pos (.inl rfl), hload, Option.map_some, if_pos hfixup]
  · rw [kernelTrapHandler, if_pos (.inr rfl), hstore, Option.map_some, if_pos hfixup]
  · obtain ⟨hok, hbad⟩ := h.copyFromUser_spec hs hp rfl
    exact outcome_iff hok hbad
  · obtain ⟨hok, hbad⟩ := h.copyToUser_spec hs hp rfl
    exact outcome_iff hok hbad

/-- The calls of the small machine: a process maps a page and writes to it. -/
def touchedLabels : List VmLabel :=
  pageLabels 3 ++ [⟨0, [], .pageFault 0 0x200000 .write⟩]

theorem touchedLabels_run : Run (Guarded VmState.Injective VmState.Step) smallState touchedLabels
    (touchedLabels.foldl VmState.exec smallState) := by
  rw [touchedLabels, List.foldl_append]
  refine .snoc (pageLabels_run 3) ⟨⟨trivial, trivial⟩, ?_⟩
  exact (VmState.permitted_of_isUser (by decide) rfl).step

/-- Two instructions with one fixup. -/
def loopTable : ExTable := ⟨0x1000, [⟨0x80, 0x200⟩, ⟨0x7C, 0x1F8⟩]⟩

theorem permits_of_vmas {s : VmSpace} (hvmas : s.vmas = [⟨0x200000, 0x201000, 11⟩]) :
    s.Permits 0x200007 2 .write := by
  intro a ha
  have hrange := List.mem_range'_1.mp ha
  refine ⟨⟨0x200000, 0x201000, 11⟩, by rw [hvmas]; exact List.mem_singleton_self _, ⟨?_, ?_⟩, by decide⟩
  · dsimp only
    omega
  · dsimp only
    omega

set_option maxRecDepth 100000 in
/-- On the small machine: bytes are copied to a page to which the process has written. -/
theorem user_copy_succeeds_iff_small : ∃ s : VmSpace,
    (touchedLabels.foldl VmState.exec smallState).space 0 = some s ∧ s.Permits 0x200007 2 .write ∧
      (copyToUser (userMemory s.rootPa) (touchedLabels.foldl VmState.exec smallState).machine.mem
        0x200007 [0x41, 0x42]).ret = 0 := by
  obtain ⟨s, hs⟩ := Option.isSome_iff_exists.mp (by decide +kernel :
    ((touchedLabels.foldl VmState.exec smallState).space 0).isSome)
  have hfacts : ((touchedLabels.foldl VmState.exec smallState).space 0).map (fun s => (s.vmas,
      (List.range' 0x200007 2).all fun a =>
        ((touchedLabels.foldl VmState.exec smallState).machine.mem.lookup s.rootPa a).isSome &&
        !(touchedLabels.foldl VmState.exec smallState).machine.mem.isCow s.rootPa a)) =
      some ([⟨0x200000, 0x201000, 11⟩], true) := by decide +kernel
  rw [hs, Option.map_some, Option.some.injEq, Prod.mk.injEq] at hfacts
  obtain ⟨hvmas, hpages⟩ := hfacts
  have hp := permits_of_vmas hvmas
  have hload : searchExtable loopTable 0x1080 = some 0x1204 := by decide
  have hstore : searchExtable loopTable 0x1084 = some 0x1204 := by decide
  obtain ⟨-, -, -, hto⟩ := user_copy_succeeds_iff smallState_booted touchedLabels_run hs
    hload hstore (by decide) 0x200007
  refine ⟨s, hs, hp, ((hto [0x41, 0x42] hp).1.mpr fun a ha => ?_).1⟩
  have hpage := List.all_eq_true.mp hpages a ha
  rw [Bool.and_eq_true, Bool.not_eq_true'] at hpage
  obtain ⟨v, hv, hin, hallow⟩ := hp a ha
  have hrange : _ ∧ a < 0x200007 + 2 := List.mem_range'_1.mp ha
  refine ⟨by omega, Option.isSome_iff_ne_none.mp hpage.1, fun _ => ⟨hpage.2, v, hv, hin, ?_⟩⟩
  rw [hvmas] at hv
  rw [List.mem_singleton.mp hv]
  decide

set_option maxRecDepth 100000 in
/-- **A copy to a fresh page fails**: a process maps a page that it may read and write. A write of
its own would be handled; `copy_to_user` takes the fault to the fixup, and returns `-EFAULT`. -/
theorem copy_to_untouched_page_fails : smallState.Booted (smallBoot []).reservedPages ∧
    Run (Guarded VmState.Injective VmState.Step) smallState (pageLabels 3)
      ((pageLabels 3).foldl VmState.exec smallState) ∧
    kernelTrapHandler loopTable excStorePageFault 0x1084 = some (.resume 0x1204) ∧
    ∃ s : VmSpace, ((pageLabels 3).foldl VmState.exec smallState).space 0 = some s ∧
      s.Permits 0x200007 2 .write ∧
      (Machine.handlePageFault { ((pageLabels 3).foldl VmState.exec smallState).machine with
        cpu := 0, luck := [] } s 0x200007 .write).1 = 0 ∧
      (copyToUser (userMemory s.rootPa) ((pageLabels 3).foldl VmState.exec smallState).machine.mem
        0x200007 [0x41, 0x42]).ret = -eFault := by
  obtain ⟨s, hs⟩ := Option.isSome_iff_exists.mp (by decide +kernel :
    (((pageLabels 3).foldl VmState.exec smallState).space 0).isSome)
  have hfacts : (((pageLabels 3).foldl VmState.exec smallState).space 0).map (fun s => (s.vmas,
      (Machine.handlePageFault { ((pageLabels 3).foldl VmState.exec smallState).machine with
        cpu := 0, luck := [] } s 0x200007 .write).1,
      (copyToUser (userMemory s.rootPa) ((pageLabels 3).foldl VmState.exec smallState).machine.mem
        0x200007 [0x41, 0x42]).ret)) =
      some ([⟨0x200000, 0x201000, 11⟩], 0, -eFault) := by decide +kernel
  rw [hs, Option.map_some, Option.some.injEq, Prod.mk.injEq, Prod.mk.injEq] at hfacts
  obtain ⟨hvmas, hhandled, hret⟩ := hfacts
  exact ⟨smallState_booted, pageLabels_run 3, by decide, s, hs, permits_of_vmas hvmas, hhandled, hret⟩

end Lume
