import Mathlib.Data.BitVec
import Mathlib.Logic.Function.Basic

/-!
# Traps and context switches

The assembly of `arch/riscv/trap/trap_vector.S` and `swtch.S`. `kernelvec` saves the registers of interrupted
kernel code in a `TrapFrame` on the stack and restores them after the handler; `trap_vector` and
`userret` do the same for a user program, with the `TrapFrame` of its task. `kernelvec` computes the
old `sp` in `t0` before it has saved `t0`. `context_switch` saves the registers that a call preserves
in the `Context` of one task and loads those of another.

## Main definitions

* `Cpu`, `Instr.exec`: registers and memory, and the effect of an instruction
* `kernelvecEntry`, `kernelvecExit`, `trapVector`, `userret`, `contextSwitch`: the code

## Main results

* `trap_restores`: what a trap leaves of the registers
* `switch_resumes`: a task goes on with the registers it had
-/

open Function (update update_apply update_of_ne update_self)

namespace Lume

/-- The general-purpose registers, without `x0`, in the order of their fields in a `TrapFrame`. -/
inductive Reg
  | ra | sp | gp | tp
  | t0 | t1 | t2 | t3 | t4 | t5 | t6
  | s0 | s1 | s2 | s3 | s4 | s5 | s6 | s7 | s8 | s9 | s10 | s11
  | a0 | a1 | a2 | a3 | a4 | a5 | a6 | a7
  deriving DecidableEq

/-- The field of a register: `TF_RA` to `TF_A7`. The fields below are `TF_KERNEL_SATP` at 0,
`TF_KERNEL_SP` at 8, `TF_KERNEL_TRAP` at 16, `TF_KERNEL_CPUID` at 24, `TF_EPC` at 32 and `TF_SSTATUS`
at 40. -/
def Reg.tf (r : Reg) : ℕ := 48 + 8 * r.ctorIdx

/-- The control registers that the code uses. -/
inductive Csr
  | sscratch | sstatus | sepc | satp
  deriving DecidableEq

/-- Registers and memory. All accesses are to the double words of a frame, so that memory is a
function of their addresses. -/
structure Cpu where
  regs : Reg → BitVec 64
  csr : Csr → BitVec 64
  mem : BitVec 64 → BitVec 64

/-- The instructions of the code. -/
inductive Instr
  | sd (rs : Reg) (off : ℕ) (base : Reg)
  | ld (rd : Reg) (off : ℕ) (base : Reg)
  | addi (rd rs : Reg) (imm : ℤ)
  | mv (rd rs : Reg)
  | csrr (rd : Reg) (csr : Csr)
  | csrw (csr : Csr) (rs : Reg)
  | csrrw (rd : Reg) (csr : Csr) (rs : Reg)
  | sfenceVma

/-- The effect of an instruction. -/
def Instr.exec (c : Cpu) : Instr → Cpu
  | sd rs off base => { c with mem := update c.mem (c.regs base + .ofNat 64 off) (c.regs rs) }
  | ld rd off base => { c with regs := update c.regs rd (c.mem (c.regs base + .ofNat 64 off)) }
  | addi rd rs imm => { c with regs := update c.regs rd (c.regs rs + .ofInt 64 imm) }
  | mv rd rs => { c with regs := update c.regs rd (c.regs rs) }
  | csrr rd csr => { c with regs := update c.regs rd (c.csr csr) }
  | csrw csr rs => { c with csr := update c.csr csr (c.regs rs) }
  | csrrw rd csr rs =>
    { c with regs := update c.regs rd (c.csr csr), csr := update c.csr csr (c.regs rs) }
  | sfenceVma => c

/-- `sd r, off(base)` for each register of a list. -/
def saves (off : Reg → ℕ) (base : Reg) (rs : List Reg) : List Instr :=
  rs.map fun r => .sd r (off r) base

/-- `ld r, off(base)` for each register of a list. -/
def loads (off : Reg → ℕ) (base : Reg) (rs : List Reg) : List Instr :=
  rs.map fun r => .ld r (off r) base

/-- Save a control register, through `t0`. -/
def saveCsr (csr : Csr) (off : ℕ) (base : Reg) : List Instr := [.csrr .t0 csr, .sd .t0 off base]

/-- The registers from `t0` on, in the order of the code. -/
def fromT0 : List Reg :=
  [.t0, .t1, .t2, .s0, .s1, .a0, .a1, .a2, .a3, .a4, .a5, .a6, .a7, .s2, .s3, .s4, .s5, .s6, .s7,
    .s8, .s9, .s10, .s11, .t3, .t4, .t5, .t6]

/-- `kernelvec`, up to the call of `kernel_trap_handler` -/
def kernelvecEntry : List Instr :=
  [.addi .sp .sp (-296), .sd .ra Reg.ra.tf .sp, .addi .t0 .sp 296, .sd .t0 Reg.sp.tf .sp] ++
    saves Reg.tf .sp (.gp :: .tp :: fromT0) ++ saveCsr .sstatus 40 .sp ++ saveCsr .sepc 32 .sp ++
    [.mv .a0 .sp]

/-- `kernelvec`, from the return of `kernel_trap_handler` to `sret` -/
def kernelvecExit : List Instr :=
  [.ld .t0 40 .sp, .csrw .sstatus .t0, .ld .t0 32 .sp, .csrw .sepc .t0] ++
    (loads Reg.tf .sp (.ra :: .gp :: .tp :: fromT0) ++ [.ld .sp Reg.sp.tf .sp])

/-- `trap_vector`, up to the jump to the handler in `t3` -/
def trapVector : List Instr :=
  [.csrrw .tp .sscratch .tp] ++ saves Reg.tf .tp (.ra :: .sp :: .gp :: fromT0) ++
    saveCsr .sscratch Reg.tp.tf .tp ++ saveCsr .sstatus 40 .tp ++ saveCsr .sepc 32 .tp ++
    [.ld .sp 8 .tp, .ld .t1 0 .tp, .ld .t2 24 .tp, .ld .t3 16 .tp, .csrw .satp .t1, .sfenceVma,
      .mv .a0 .tp, .mv .tp .t2]

/-- `userret`, up to `sret` -/
def userret : List Instr :=
  [.ld .t0 32 .a0, .csrw .sepc .t0, .ld .t0 40 .a0, .csrw .sstatus .t0, .csrw .sscratch .a0,
    .mv .tp .a0] ++
    (loads Reg.tf .tp (.ra :: .sp :: .gp :: fromT0) ++ [.ld .tp Reg.tp.tf .tp])

/-- The registers of a `Context`, in the order of its fields. -/
def calleeSaved : List Reg :=
  [.ra, .sp, .s0, .s1, .s2, .s3, .s4, .s5, .s6, .s7, .s8, .s9, .s10, .s11]

/-- The field of a register in a `Context`. -/
def Reg.ctx (r : Reg) : ℕ := 8 * calleeSaved.idxOf r

/-- `context_switch` -/
def contextSwitch : List Instr :=
  saves Reg.ctx .a0 calleeSaved ++ loads Reg.ctx .a1 calleeSaved

theorem Reg.tf_lt (r : Reg) : r.tf < 296 := by cases r <;> decide

theorem Reg.tf_injective : Function.Injective Reg.tf := fun r s h => by
  have hidx : r.ctorIdx = s.ctorIdx := by
    rw [tf, tf] at h
    omega
  rw [← Reg.ofNat_ctorIdx r, hidx, Reg.ofNat_ctorIdx]

namespace Cpu

variable {c : Cpu} {base r : Reg} {rs : List Reg} {f : BitVec 64} {off : Reg → ℕ} {n : ℕ}

/-- The effect of a list of instructions. -/
def run (c : Cpu) (code : List Instr) : Cpu := code.foldl Instr.exec c

/-- The field at an offset in the frame at `f`. -/
def field (c : Cpu) (f : BitVec 64) (n : ℕ) : BitVec 64 := c.mem (f + .ofNat 64 n)

theorem run_append (c : Cpu) (code code' : List Instr) :
    c.run (code ++ code') = (c.run code).run code' := List.foldl_append

/-- A store to a frame changes the field at its offset. -/
theorem field_sd (hf : c.regs base = f) {m : ℕ} (hm : m < 296) (hn : n < 296) (s : Reg) :
    ((Instr.sd s m base).exec c).field f n = if n = m then c.regs s else c.field f n := by
  have haddr : f + .ofNat 64 n = f + .ofNat 64 m ↔ n = m := by
    refine ⟨fun h => ?_, fun h => h ▸ rfl⟩
    have h := congrArg BitVec.toNat (add_left_cancel h)
    rwa [BitVec.toNat_ofNat, BitVec.toNat_ofNat, Nat.mod_eq_of_lt (by omega),
      Nat.mod_eq_of_lt (by omega)] at h
  simp only [field, Instr.exec, update_apply, hf, haddr]

theorem regs_saves (c : Cpu) (off : Reg → ℕ) (base : Reg) (rs : List Reg) :
    (c.run (saves off base rs)).regs = c.regs ∧ (c.run (saves off base rs)).csr = c.csr := by
  induction rs generalizing c with
  | nil => exact ⟨rfl, rfl⟩
  | cons r rs ih => exact ih _

theorem mem_saves {a : BitVec 64} (ha : ∀ s ∈ rs, a ≠ c.regs base + .ofNat 64 (off s)) :
    (c.run (saves off base rs)).mem a = c.mem a := by
  induction rs generalizing c with
  | nil => rfl
  | cons s rs ih =>
    rw [List.forall_mem_cons] at ha
    exact (ih ha.2 : (((Instr.sd s (off s) base).exec c).run _).mem a = _).trans (update_of_ne ha.1 _ _)

/-- A run of saves fills the fields of the registers that it names. -/
theorem field_saves (hf : c.regs base = f) (hlt : ∀ s, off s < 296) (rs : List Reg) (r : Reg)
    (hinj : ∀ s ∈ rs, off r = off s → r = s) :
    (c.run (saves off base rs)).field f (off r) = if r ∈ rs then c.regs r else c.field f (off r) := by
  induction rs generalizing c with
  | nil => rfl
  | cons s rs ih =>
    rw [List.forall_mem_cons] at hinj
    refine (ih hf hinj.2 : ((Instr.sd s (off s) base).exec c |>.run (saves off base rs)).field f _ =
      _).trans ?_
    rw [field_sd hf (hlt s) (hlt r)]
    rcases eq_or_ne r s with rfl | hne
    · simp [Instr.exec]
    · simp [Instr.exec, hne, mt hinj.1 hne]

theorem field_saveCsr (hf : c.regs base = f) (hbase : base ≠ .t0) {m : ℕ} (hm : m < 296)
    (hn : n < 296) (csr : Csr) : (c.run (saveCsr csr m base)).regs base = f ∧
      (c.run (saveCsr csr m base)).field f n = if n = m then c.csr csr else c.field f n := by
  have hf' : ((Instr.csrr .t0 csr).exec c).regs base = f := (update_of_ne hbase _ _).trans hf
  refine ⟨hf', (field_sd hf' hm hn .t0).trans ?_⟩
  simp [Instr.exec, field]

/-- The saves of `sstatus` and `sepc` touch no field of a register. -/
theorem field_saveCsrs (hf : c.regs base = f) (hbase : base ≠ .t0) (r : Reg) :
    ((c.run (saveCsr .sstatus 40 base)).run (saveCsr .sepc 32 base)).regs base = f ∧
      ((c.run (saveCsr .sstatus 40 base)).run (saveCsr .sepc 32 base)).field f r.tf =
        c.field f r.tf := by
  have hr : r.tf ≠ 40 ∧ r.tf ≠ 32 := by
    rw [Reg.tf]
    omega
  obtain ⟨hf₁, hstatus⟩ := field_saveCsr hf hbase (by decide : 40 < 296) r.tf_lt .sstatus
  obtain ⟨hf₂, hepc⟩ := field_saveCsr hf₁ hbase (by decide : 32 < 296) r.tf_lt .sepc
  refine ⟨hf₂, hepc.trans ?_⟩
  rw [if_neg hr.2, hstatus, if_neg hr.1]

/-- A run of loads fills the registers that it names. -/
theorem run_loads (c : Cpu) (off : Reg → ℕ) (hbase : base ∉ rs) : (c.run (loads off base rs)).mem = c.mem ∧
    ∀ r, (c.run (loads off base rs)).regs r =
      if r ∈ rs then c.field (c.regs base) (off r) else c.regs r := by
  induction rs generalizing c with
  | nil => exact ⟨rfl, fun _ => rfl⟩
  | cons s rs ih =>
    rw [List.mem_cons, not_or] at hbase
    obtain ⟨hmem, hregs⟩ := ih ((Instr.ld s (off s) base).exec c) hbase.2
    have hkept : ((Instr.ld s (off s) base).exec c).regs base = c.regs base :=
      update_of_ne hbase.1 _ _
    refine ⟨hmem, fun r => (hregs r).trans ?_⟩
    rw [hkept]
    rcases eq_or_ne r s with rfl | hne
    · simp [field, Instr.exec]
    · simp [field, Instr.exec, hne]

/-- The last of the loads from a frame replaces the address of the frame. -/
theorem regs_loads (hbase : base ∉ rs) (hall : ∀ r, r ≠ base → r ∈ rs) (r : Reg) :
    (c.run (loads Reg.tf base rs ++ [.ld base base.tf base])).regs r =
      c.field (c.regs base) r.tf := by
  obtain ⟨hmem, hregs⟩ := c.run_loads Reg.tf hbase
  rw [run_append]
  rcases eq_or_ne r base with rfl | hne
  · refine (update_self r _ _).trans ?_
    rw [hmem, hregs, if_neg hbase]
    rfl
  · refine (update_of_ne hne _ _).trans ?_
    rw [hregs, if_pos (hall r hne)]

/-- What `kernelvec` has saved: in the field of `t0`, the old stack pointer. -/
theorem field_kernelvecEntry (c : Cpu) (r : Reg) :
    (c.run kernelvecEntry).field ((c.run kernelvecEntry).regs .sp) r.tf =
      update c.regs .t0 (c.regs .sp) r := by
  simp only [kernelvecEntry, run_append]
  generalize hd : c.run [.addi .sp .sp (-296), .sd .ra Reg.ra.tf .sp, .addi .t0 .sp 296,
    .sd .t0 Reg.sp.tf .sp] = d
  have hsaved := field_saves (rfl : d.regs .sp = _) Reg.tf_lt (.gp :: .tp :: fromT0) r
    fun s _ h => Reg.tf_injective h
  obtain ⟨hregs, -⟩ := regs_saves d Reg.tf .sp (.gp :: .tp :: fromT0)
  obtain ⟨hsp, hkept⟩ := field_saveCsrs (congrFun hregs .sp) (by decide) r
  generalize ((d.run _).run _).run _ = e at hsp hkept
  have hend : (e.run [.mv .a0 .sp]).field ((e.run [.mv .a0 .sp]).regs .sp) r.tf =
      e.field (e.regs .sp) r.tf := by
    simp [run, Instr.exec, field]
  rw [hend, hsp, hkept, hsaved, ← hd]
  by_cases hr : r ∈ [.t0, .sp, .ra]
  · -- the registers that the first instructions treat apart
    simp only [List.mem_cons, List.not_mem_nil, or_false] at hr
    rcases hr with rfl | rfl | rfl <;>
      simp [run, Instr.exec, field, fromT0, add_assoc, show Reg.ra.tf = 48 from rfl,
        show Reg.sp.tf = 56 from rfl]
  · have hmem : r ∈ .gp :: .tp :: fromT0 := by cases r <;> first | decide | simp at hr
    simp only [List.mem_cons, List.not_mem_nil, or_false, not_or] at hr
    rw [if_pos hmem]
    simp [run, Instr.exec, hr]

/-- What `trap_vector` has saved. -/
theorem field_trapVector (c : Cpu) (r : Reg) :
    (c.run trapVector).field (c.csr .sscratch) r.tf = c.regs r := by
  simp only [trapVector, run_append]
  generalize hd : c.run [.csrrw .tp .sscratch .tp] = d
  have hf : d.regs .tp = c.csr .sscratch := by simp [← hd, run, Instr.exec]
  have hsaved := field_saves hf Reg.tf_lt (.ra :: .sp :: .gp :: fromT0) r
    fun s _ h => Reg.tf_injective h
  obtain ⟨hregs, hcsr⟩ := regs_saves d Reg.tf .tp (.ra :: .sp :: .gp :: fromT0)
  obtain ⟨htp, htp'⟩ := field_saveCsr ((congrFun hregs .tp).trans hf) (by decide) Reg.tp.tf_lt
    r.tf_lt .sscratch
  obtain ⟨-, hkept⟩ := field_saveCsrs htp (by decide) r
  rw [htp', hsaved, hcsr] at hkept
  generalize ((((d.run _).run _).run _).run _) = e at hkept
  have hend (f : BitVec 64) : (e.run [.ld .sp 8 .tp, .ld .t1 0 .tp, .ld .t2 24 .tp, .ld .t3 16 .tp,
      .csrw .satp .t1, .sfenceVma, .mv .a0 .tp, .mv .tp .t2]).field f r.tf = e.field f r.tf := by
    simp [run, Instr.exec, field]
  simp only [hend, hkept, Reg.tf_injective.eq_iff]
  rcases eq_or_ne r .tp with rfl | hne
  · simp [← hd, run, Instr.exec]
  · have hmem : r ∈ .ra :: .sp :: .gp :: fromT0 := by cases r <;> first | decide | contradiction
    rw [if_neg hne, if_pos hmem]
    simp [← hd, run, Instr.exec, hne]

end Cpu

/-- **What a trap leaves of the registers**, when the handler keeps the register fields of the frame:
`kernelvec` puts the interrupted stack pointer into `t0` and restores all other registers, and
`userret` restores all that `trap_vector` has found. -/
theorem trap_restores (c : Cpu) :
    (∀ c' : Cpu, c'.regs .sp = (c.run kernelvecEntry).regs .sp →
      (∀ r : Reg, c'.field (c'.regs .sp) r.tf = (c.run kernelvecEntry).field (c'.regs .sp) r.tf) →
      (c'.run kernelvecExit).regs = update c.regs .t0 (c.regs .sp)) ∧
    ∀ c' : Cpu, c'.regs .a0 = c.csr .sscratch →
      (∀ r : Reg, c'.field (c'.regs .a0) r.tf = (c.run trapVector).field (c'.regs .a0) r.tf) →
      (c'.run userret).regs = c.regs := by
  refine ⟨fun c' hsp hframe => funext fun r => ?_, fun c' ha0 hframe => funext fun r => ?_⟩
  · have hall (r : Reg) (hr : r ≠ .sp) : r ∈ .ra :: .gp :: .tp :: fromT0 := by
      cases r <;> first | decide | contradiction
    rw [kernelvecExit, Cpu.run_append, Cpu.regs_loads (by decide) hall]
    refine (hframe r).trans ?_
    rw [hsp, Cpu.field_kernelvecEntry]
  · have hall (r : Reg) (hr : r ≠ .tp) : r ∈ .ra :: .sp :: .gp :: fromT0 := by
      cases r <;> first | decide | contradiction
    rw [userret, Cpu.run_append, Cpu.regs_loads (by decide) hall]
    refine (hframe r).trans ?_
    rw [ha0, Cpu.field_trapVector]

/-- **A task goes on with the registers it had**: after a `context_switch` away from a task, whatever
runs in between but keeps its `Context`, the switch back to it restores the registers that a call
preserves. The other task of the switch has a `Context` apart. -/
theorem switch_resumes (c c' : Cpu) (hback : c'.regs .a1 = c.regs .a0)
    (hkept : ∀ r ∈ calleeSaved,
      c'.field (c.regs .a0) r.ctx = (c.run contextSwitch).field (c.regs .a0) r.ctx)
    (hapart : ∀ r ∈ calleeSaved, ∀ s ∈ calleeSaved,
      c'.regs .a1 + .ofNat 64 r.ctx ≠ c'.regs .a0 + .ofNat 64 s.ctx) :
    ∀ r ∈ calleeSaved, (c'.run contextSwitch).regs r = c.regs r := by
  intro r hr
  have hlt (r : Reg) : r.ctx < 296 := by cases r <;> decide
  have hinj : ∀ r ∈ calleeSaved, ∀ s ∈ calleeSaved, r.ctx = s.ctx → r = s := by decide
  have hne : Reg.a1 ∉ calleeSaved := by decide
  -- what the switch away has saved
  have hsaved : (c.run contextSwitch).field (c.regs .a0) r.ctx = c.regs r := by
    rw [contextSwitch, Cpu.run_append, Cpu.field, (Cpu.run_loads _ _ hne).1]
    refine (Cpu.field_saves rfl hlt calleeSaved r (hinj r hr)).trans ?_
    rw [if_pos hr]
  -- the switch back saves elsewhere before it loads
  rw [contextSwitch, Cpu.run_append, (Cpu.run_loads _ _ hne).2, if_pos hr,
    (Cpu.regs_saves ..).1, Cpu.field, Cpu.mem_saves (hapart r hr), hback]
  exact (hkept r hr).trans hsaved

theorem switch_resumes_changed : ∃ c c' : Cpu, c'.regs .s3 ≠ c.regs .s3 ∧
    (c'.run contextSwitch).regs .s3 = c.regs .s3 := by
  let c : Cpu := ⟨fun r => if r = .a0 then 0x2000 else 7, fun _ => 0, fun _ => 0⟩
  let c' : Cpu := { c.run contextSwitch with regs := fun r => if r = .a1 then 0x2000 else 0x1000 }
  refine ⟨c, c', by decide, switch_resumes c c' rfl (fun _ _ => rfl) ?_ .s3 (by decide)⟩
  decide

end Lume
