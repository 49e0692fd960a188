import Lume.Vm.Snapshot

/-!
# The memory system calls

`sys_brk`, `sys_mmap`, `sys_munmap` and `sys_mprotect` of `kernel/sys_mm.cc`, and the search for a
free range of `mm/vma.cc`. The arguments are any 64-bit values: rounding up and adding wraps. A
system call returns a signed 64-bit value, negative for an error; the addresses from `2 ^ 63` on
are negative, too.

## Main definitions

* `mmFindFreeVa`: the search for a free range
* `Machine.sysBrk`, `Machine.sysMmap`, `Machine.sysMunmap`, `Machine.sysMprotect`: the calls

## Main results

* `mapUser_ret`, `unmapUser_ret`: success and failure of the operations below
* `unmapUser_of_apart`: what unmapping does when nothing is in its range
* `mmFindFreeVa_spec`: the range that was found is free
-/

namespace Lume

open Segs (Sorted)

/-- `ENOSYS` -/
def eNosys : Int := 38

/-- `PROT_READ` -/
def protRead : Word := 1

/-- `PROT_WRITE` -/
def protWrite : Word := 2

/-- `PROT_EXEC` -/
def protExec : Word := 4

/-- `MAP_SHARED` -/
def mapShared : Word := 0x01

/-- `MAP_PRIVATE` -/
def mapPrivate : Word := 0x02

/-- `MAP_FIXED` -/
def mapFixed : Word := 0x10

/-- `MAP_ANONYMOUS` -/
def mapAnonymous : Word := 0x20

/-- `static_cast<int64>` of a 64-bit value -/
def int64 (a : ℕ) : Int := if a < 2 ^ 63 then a else a - 2 ^ 64

/-- The returned value is an error code. -/
def IsErr (ret : Int) : Prop := -4096 < ret ∧ ret < 0

instance (ret : Int) : Decidable (IsErr ret) := inferInstanceAs (Decidable (_ ∧ _))

/-- The conversion of the `PROT` flags in `sys_mmap` and `sys_mprotect`. -/
def protToPerm (prot : Word) : Word :=
  (if prot.Has protRead then vmRead else 0) ||| (if prot.Has protWrite then vmWrite else 0) |||
    (if prot.Has protExec then vmExec else 0)

/-- `align_up_any` -/
def alignUpAny (value align : ℕ) : ℕ :=
  if align = 0 then value else (value + align - 1) % 2 ^ 64 / align * align

/-- The loop of `mm_find_free_va` over the nodes left; `0` when there is no room. -/
def findFreeLoop (length align : ℕ) : List Vma → ℕ → ℕ
  | [], cursor => if (kUserVaLimit + 2 ^ 64 - length) % 2 ^ 64 < cursor then 0 else cursor
  | v :: rest, cursor =>
    if cursor ≤ v.start ∧ (kUserVaLimit + 2 ^ 64 - length) % 2 ^ 64 < cursor then 0
    else if cursor ≤ v.start ∧ (cursor + length) % 2 ^ 64 ≤ v.start then cursor
    else findFreeLoop length align rest (alignUpAny (if cursor < v.stop then v.stop else cursor) align)

/-- `mm_find_free_va` -/
def mmFindFreeVa (s : VmSpace) (length align : ℕ) : ℕ :=
  let length := pageAlignUp length
  if length = 0 then 0
  else
    let align := if align < kPageSize then kPageSize else align
    findFreeLoop length align s.vmas (alignUpAny kUserVaBase align)

namespace Machine

/-- `sys_brk` -/
def sysBrk (m : Machine) (s : VmSpace) (newBrk : ℕ) : Int × Machine × VmSpace :=
  if newBrk = 0 then (int64 s.brkEnd, m, s)
  else
    let s := if s.brkStart = 0 then
      { s with brkStart := pageAlignUp newBrk, brkEnd := pageAlignUp newBrk } else s
    if newBrk < s.brkStart then (-eInval, m, s)
    else
      let newEnd := pageAlignUp newBrk
      match
        if s.brkEnd < newEnd then m.mapUser s s.brkEnd (newEnd - s.brkEnd) (vmRead ||| vmWrite)
        else if newEnd < s.brkEnd then m.unmapUser s newEnd (s.brkEnd - newEnd)
        else (0, m, s) with
      | (ret, m, s) =>
        if ret < 0 then (ret, m, s) else (int64 newBrk, m, { s with brkEnd := newEnd })

/-- The checks of `sys_mmap` before it looks at the address space: the error, if there is one.
`length` is the argument as the process gave it. -/
def mmapRefused (addr length : ℕ) (flags : Word) (offset : ℕ) : Option Int :=
  if length = 0 then some (-eInval)
  else if offset % kPageSize ≠ 0 then some (-eInval)
  else if flags.Has mapPrivate ∧ flags.Has mapShared then some (-eInval)
  else if ¬ flags.Has mapPrivate ∧ ¬ flags.Has mapShared then some (-eInval)
  else if ¬ flags.Has mapAnonymous then some (-eNosys)
  else if flags.Has mapShared then some (-eNosys)
  else if flags.Has mapFixed ∧ addr % kPageSize ≠ 0 then some (-eInval)
  else none

/-- The last part of `sys_mmap`: map the range, or, if `addr` was only a hint, a free one. -/
def mmapAt (m : Machine) (s : VmSpace) (va addr length : ℕ) (perm flags : Word) :
    Int × Machine × VmSpace :=
  match m.mapUser s va length perm with
  | (ret, m, s) =>
    if ret < 0 ∧ ¬ flags.Has mapFixed ∧ addr ≠ 0 then
      let fallback := mmFindFreeVa s length kPageSize
      if fallback = 0 then (ret, m, s)
      else
        match m.mapUser s fallback length perm with
        | (ret, m, s) => if ret < 0 then (ret, m, s) else (int64 fallback, m, s)
    else if ret < 0 then (ret, m, s)
    else (int64 va, m, s)

/-- `sys_mmap`; the file descriptor is not used. -/
def sysMmap (m : Machine) (s : VmSpace) (addr length : ℕ) (prot flags : Word) (offset : ℕ) :
    Int × Machine × VmSpace :=
  match mmapRefused addr length flags offset with
  | some err => (err, m, s)
  | none =>
    let length := pageAlignUp length
    let perm := protToPerm prot ||| vmUser
    let hint := if flags.Has mapFixed then addr else pageAlignDown addr
    let va := if hint = 0 then mmFindFreeVa s length kPageSize else hint
    if va = 0 then (-eNomem, m, s)
    else if flags.Has mapFixed then
      match m.unmapUser s va length with
      | (ret, m, s) => if ret < 0 then (ret, m, s) else m.mmapAt s va addr length perm flags
    else m.mmapAt s va addr length perm flags

/-- `sys_munmap` -/
def sysMunmap (m : Machine) (s : VmSpace) (addr length : ℕ) : Int × Machine × VmSpace :=
  if length = 0 then (-eInval, m, s)
  else if addr % kPageSize ≠ 0 then (-eInval, m, s)
  else m.unmapUser s addr (pageAlignUp length)

/-- `sys_mprotect` -/
def sysMprotect (m : Machine) (s : VmSpace) (addr len : ℕ) (prot : Word) :
    Int × Machine × VmSpace :=
  if len = 0 then (-eInval, m, s)
  else if addr % kPageSize ≠ 0 then (-eInval, m, s)
  else m.protectUser s addr len (protToPerm prot)

end Machine

section Results

variable {m m' : Machine} {s s' : VmSpace} {va len root stop hi : ℕ} {perm : Word} {ret : Int}
  {rest t t' : List Vma} {v : Vma}

/-! ## Success and failure of the operations -/

theorem mapUser_ret (hr : m.mapUser s va len perm = (ret, m', s')) :
    ret = 0 ∨ IsErr ret ∧ s' = s ∧ ∃ luck, m' = { m with luck := luck } := by
  rw [Machine.mapUser] at hr
  dsimp only at hr
  split at hr
  · cases hr
    exact .inl rfl
  split at hr
  · cases hr
    exact .inr ⟨by decide, rfl, m.luck, rfl⟩
  split at hr
  · rename_i hd
    cases hr
    exact .inr ⟨by decide, rfl, draw_eq hd⟩
  · rename_i hd
    split at hr
    · cases hr
      exact .inr ⟨by decide, rfl, draw_eq hd⟩
    · cases hr
      exact .inl rfl

theorem mapUser_of_apart (hlen : pageAlignUp len ≠ 0)
    (hrange : UserRange (pageAlignDown va) (pageAlignUp len))
    (hap : ∀ v ∈ s.vmas, v.stop ≤ pageAlignDown va ∨ pageAlignDown va + pageAlignUp len ≤ v.start)
    (hr : m.mapUser s va len perm = (ret, m', s')) : ret = 0 ↔ m.draw.1 = true := by
  have hover : vmaOverlaps s.vmas (pageAlignDown va) (pageAlignDown va + pageAlignUp len) =
      false := vmaOverlaps_eq_false.mpr hap
  rw [Machine.mapUser] at hr
  dsimp only at hr
  rw [if_neg hlen, if_neg (not_not.mpr hrange)] at hr
  split at hr
  · rename_i hd
    cases hr
    simp [hd, eNomem]
  · rename_i hd
    rw [if_neg (by rw [hover]; decide)] at hr
    cases hr
    simp [hd]

theorem unmapLoop_of_le (hsort : Sorted rest) (hlt : va < stop) (hle : ∀ v ∈ rest, va ≤ v.start) :
    (Machine.unmapLoop root va stop rest m t).1 = 0 := by
  induction rest generalizing m t with
  | nil => rfl
  | cons v rest ih =>
    have ih {m : Machine} {t : List Vma} : (Machine.unmapLoop root va stop rest m t).1 = 0 :=
      ih (hsort.sublist (List.sublist_cons_self ..)) fun u hu => hle u (List.mem_cons_of_mem _ hu)
    have hv := hle v (List.mem_cons_self ..)
    have hne := hsort.nonempty v (List.mem_cons_self ..)
    by_cases hafter : stop ≤ v.start
    · rw [Machine.unmapLoop, if_neg (by omega), if_pos hafter]
    · rw [unmapLoop_meets hne hlt (by omega) (by omega) rfl,
        if_pos (by omega : max v.start va = v.start), show max v.start va = v.start by omega]
      simp only [true_and]
      split
      · exact ih
      · exact ih

theorem unmapLoop_of_apart (hap : ∀ v ∈ rest, v.stop ≤ va ∨ stop ≤ v.start) :
    Machine.unmapLoop root va stop rest m t = (0, m, t) := by
  induction rest with
  | nil => rfl
  | cons v rest ih =>
    rw [Machine.unmapLoop]
    split
    · exact ih fun u hu => hap u (List.mem_cons_of_mem _ hu)
    · rename_i hbefore
      rw [if_pos ((hap v (List.mem_cons_self ..)).resolve_left hbefore)]

theorem unmapLoop_failed (hsort : Sorted rest) (hlt : va < stop)
    (hr : Machine.unmapLoop root va stop rest m t = (ret, m', t')) (hret : ret ≠ 0) :
    IsErr ret ∧ t' = t ∧ (∃ v ∈ rest, v.start < va ∧ stop < v.stop) ∧
      (m.dropPages root va stop).draw = (false, m') := by
  induction rest with
  | nil =>
    cases hr
    exact absurd rfl hret
  | cons v rest ih =>
    have hsort' : Sorted rest := hsort.sublist (List.sublist_cons_self ..)
    obtain ⟨hfirst, -⟩ := List.pairwise_cons.mp hsort.apart
    by_cases hbefore : v.stop ≤ va
    · rw [Machine.unmapLoop, if_pos hbefore] at hr
      obtain ⟨herr, ht, ⟨u, hu, hin⟩, hd⟩ := ih hsort' hr
      exact ⟨herr, ht, ⟨u, List.mem_cons_of_mem _ hu, hin⟩, hd⟩
    by_cases hafter : stop ≤ v.start
    · rw [Machine.unmapLoop, if_neg hbefore, if_pos hafter] at hr
      cases hr
      exact absurd rfl hret
    -- the regions after this one start behind the beginning of the range
    have hrest {m₁ : Machine} {t₁ : List Vma}
        (hr : Machine.unmapLoop root va stop rest m₁ t₁ = (ret, m', t')) : ret = 0 := by
      have hle : ∀ u ∈ rest, va ≤ u.start := fun u hu => by
        have := hfirst u hu
        omega
      have := @unmapLoop_of_le m₁ va root stop rest t₁ hsort' hlt hle
      rwa [hr] at this
    rw [unmapLoop_meets (hsort.nonempty v (List.mem_cons_self ..)) hlt (by omega) (by omega)
      rfl] at hr
    split at hr
    · exact absurd (hrest hr) hret
    split at hr
    · exact absurd (hrest hr) hret
    split at hr
    · exact absurd (hrest hr) hret
    rename_i hwhole hfront hback
    rw [show max v.start va = va by omega, show min v.stop stop = stop by omega] at hr
    split at hr
    · rename_i hd
      cases hr
      exact ⟨by decide, rfl, ⟨v, List.mem_cons_self .., by omega, by omega⟩, hd⟩
    · cases hr
      exact absurd rfl hret

theorem unmapLoop_inside (hsort : Sorted rest) (hlt : va < stop) (hv : v ∈ rest)
    (hlo : v.start < va) (hhi : stop < v.stop)
    (hr : Machine.unmapLoop root va stop rest m t = (ret, m', t')) :
    ret = 0 ↔ (m.dropPages root va stop).draw.1 = true := by
  induction rest with
  | nil => cases hv
  | cons u rest ih =>
    obtain ⟨hfirst, -⟩ := List.pairwise_cons.mp hsort.apart
    rcases List.mem_cons.mp hv with rfl | hv
    · rw [unmapLoop_meets (by omega) hlt (by omega) (by omega) rfl,
        show max v.start va = va by omega, show min v.stop stop = stop by omega, if_neg (by omega),
        if_neg (by omega), if_neg (by omega)] at hr
      split at hr
      · rename_i hd
        cases hr
        simp [hd, eNomem]
      · rename_i hd
        cases hr
        simp [hd]
    · have := hfirst v hv
      rw [Machine.unmapLoop, if_pos (by omega)] at hr
      exact ih (hsort.sublist (List.sublist_cons_self ..)) hv hr

theorem dropPages_luck (m : Machine) (root start stop : ℕ) :
    (m.dropPages root start stop).luck = m.luck := by
  have hpage (m : Machine) (addr : ℕ) : (m.dropPage root addr).luck = m.luck := by
    rw [Machine.dropPage]
    split
    · rw [Machine.unmap, Machine.decref, Machine.onPage]
      split <;> split <;> rfl
    · rfl
  rw [Machine.dropPages]
  induction pageAddrs start stop generalizing m with
  | nil => rfl
  | cons addr addrs ih => rw [List.foldl_cons, ih, hpage]

theorem draw_dropPages (m : Machine) (root start stop : ℕ) :
    (m.dropPages root start stop).draw.1 = m.draw.1 := by
  rw [Machine.draw, Machine.draw, dropPages_luck]
  split <;> rfl

theorem dropPages_of_unmapped (h : ∀ a ∈ pageAddrs va stop, m.mem.lookup root a = none) :
    m.dropPages root va stop = m := by
  rw [Machine.dropPages]
  generalize pageAddrs va stop = addrs at h ⊢
  induction addrs with
  | nil => rfl
  | cons a addrs ih =>
    have ha : m.dropPage root a = m := by
      rw [Machine.dropPage, h a (List.mem_cons_self ..)]
    rw [List.foldl_cons, ha]
    exact ih fun b hb => h b (List.mem_cons_of_mem _ hb)

/-- `vmm_unmap_user` returns 0 or an error. With an error it has left the regions alone: the range
was refused, or it lies inside one region, whose pages in the range have been dropped. -/
theorem unmapUser_ret (hsort : Sorted s.vmas) (hr : m.unmapUser s va len = (ret, m', s')) :
    ret = 0 ∨ IsErr ret ∧ s' = s ∧ (¬ UserRange (pageAlignDown va) (pageAlignUp len) ∧ m' = m ∨
      UserRange (pageAlignDown va) (pageAlignUp len) ∧ pageAlignUp len ≠ 0 ∧
        (∃ v ∈ s.vmas, v.start < pageAlignDown va ∧ pageAlignDown va + pageAlignUp len < v.stop) ∧
        (m.dropPages s.rootPa (pageAlignDown va) (pageAlignDown va + pageAlignUp len)).draw =
          (false, m')) := by
  rw [Machine.unmapUser] at hr
  dsimp only at hr
  split at hr
  · cases hr
    exact .inl rfl
  split at hr
  · rename_i hno
    cases hr
    exact .inr ⟨by decide, rfl, .inl ⟨hno, rfl⟩⟩
  · rename_i hlen hrange
    cases hr
    by_cases hret : (Machine.unmapLoop s.rootPa (pageAlignDown va)
      (pageAlignDown va + pageAlignUp len) s.vmas m s.vmas).1 = 0
    · exact .inl hret
    · obtain ⟨herr, ht, hin, hd⟩ := unmapLoop_failed hsort (by omega) rfl hret
      refine .inr ⟨herr, ?_, .inr ⟨not_not.mp hrange, hlen, hin, hd⟩⟩
      rw [ht]

theorem unmapUser_of_apart (hap : pageAlignUp len ≠ 0 →
      UserRange (pageAlignDown va) (pageAlignUp len) →
      ∀ v ∈ s.vmas, v.stop ≤ pageAlignDown va ∨ pageAlignDown va + pageAlignUp len ≤ v.start)
    (hr : m.unmapUser s va len = (ret, m', s')) : m' = m ∧ s' = s := by
  rcases unmapUser_cases hr with ⟨rfl, rfl, -⟩ | ⟨hlen, hrange, t', hloop, rfl⟩
  · exact ⟨rfl, rfl⟩
  · rw [unmapLoop_of_apart (hap hlen hrange)] at hloop
    cases hloop
    exact ⟨rfl, rfl⟩

theorem unmapUser_inside (hsort : Sorted s.vmas) (hlen : pageAlignUp len ≠ 0)
    (hrange : UserRange (pageAlignDown va) (pageAlignUp len)) (hv : v ∈ s.vmas)
    (hlo : v.start < pageAlignDown va) (hhi : pageAlignDown va + pageAlignUp len < v.stop)
    (hr : m.unmapUser s va len = (ret, m', s')) : ret = 0 ↔ m.draw.1 = true := by
  rw [Machine.unmapUser] at hr
  dsimp only at hr
  rw [if_neg hlen, if_neg (not_not.mpr hrange)] at hr
  cases hr
  rw [unmapLoop_inside hsort (by omega) hv hlo hhi rfl, draw_dropPages]

theorem pageAlignUp_pageAlignUp (a : ℕ) : pageAlignUp (pageAlignUp a) = pageAlignUp a := by
  simp only [pageAlignUp, pageAlignDown, kPageSize]
  omega

/-! ## The checks of `sys_mmap` -/

theorem mmapRefused_eq_none {addr length offset : ℕ} {flags : Word} :
    Machine.mmapRefused addr length flags offset = none ↔ length ≠ 0 ∧ kPageSize ∣ offset ∧
      flags.Has mapPrivate ∧ ¬ flags.Has mapShared ∧ flags.Has mapAnonymous ∧
      (flags.Has mapFixed → kPageSize ∣ addr) := by
  have hite {c : Prop} [Decidable c] {err : Int} {r : Option Int} :
      (if c then some err else r) = none ↔ ¬ c ∧ r = none := by
    split <;> simp [*]
  simp only [Machine.mmapRefused, hite, Nat.dvd_iff_mod_eq_zero]
  tauto

theorem isErr_of_mmapRefused {addr length offset : ℕ} {flags : Word} {err : Int}
    (h : Machine.mmapRefused addr length flags offset = some err) : IsErr err := by
  have hite {c : Prop} [Decidable c] {err' : Int} {r : Option Int} (herr : IsErr err')
      (h : (if c then some err' else r) = some err) : IsErr err ∨ r = some err := by
    split at h
    · exact .inl (Option.some.inj h ▸ herr)
    · exact .inr h
  rw [Machine.mmapRefused] at h
  rcases hite (by decide) h with h | h
  · exact h
  rcases hite (by decide) h with h | h
  · exact h
  rcases hite (by decide) h with h | h
  · exact h
  rcases hite (by decide) h with h | h
  · exact h
  rcases hite (by decide) h with h | h
  · exact h
  rcases hite (by decide) h with h | h
  · exact h
  rcases hite (by decide) h with h | h
  · exact h
  · cases h

/-! ## The search for a free range -/

theorem alignUpAny_of_dvd {a : ℕ} (hd : kPageSize ∣ a) (hle : a ≤ kUserVaLimit) :
    alignUpAny a kPageSize = a := by
  obtain ⟨i, rfl⟩ := hd
  rw [alignUpAny, if_neg (by decide)]
  simp only [kPageSize, kUserVaLimit] at hle ⊢
  omega

theorem findFreeLoop_spec {length cursor c : ℕ} (hv : RegionInv hi rest) (hhi : hi ≤ kUserVaLimit)
    (hd : kPageSize ∣ cursor) (hle : cursor ≤ kUserVaLimit)
    (hc : findFreeLoop length kPageSize rest cursor = c) (hne : c ≠ 0) :
    kPageSize ∣ c ∧ cursor ≤ c ∧ c ≤ max cursor hi ∧
      (c + length < 2 ^ 64 → ∀ v ∈ rest, v.stop ≤ c ∨ c + length ≤ v.start) := by
  induction rest generalizing cursor with
  | nil =>
    rw [findFreeLoop] at hc
    split at hc
    · exact absurd hc.symm hne
    · subst hc
      exact ⟨hd, le_rfl, le_max_left .., by simp⟩
  | cons v rest ih =>
    have hrest : RegionInv hi rest :=
      ⟨hv.sorted.sublist (List.sublist_cons_self ..),
        fun u hu => hv.aligned u (List.mem_cons_of_mem _ hu),
        fun u hu => hv.bounds u (List.mem_cons_of_mem _ hu)⟩
    have hvm : v ∈ v :: rest := List.mem_cons_self ..
    have hstop := (hv.bounds v hvm).2
    have hvne := hv.sorted.nonempty v hvm
    obtain ⟨hfirst, -⟩ := List.pairwise_cons.mp hv.sorted.apart
    rw [findFreeLoop] at hc
    split at hc
    · exact absurd hc.symm hne
    split at hc
    · -- the gap before this region is large enough
      rename_i hgap
      subst hc
      refine ⟨hd, le_rfl, le_max_left .., fun hfit u hu => .inr ?_⟩
      rw [Nat.mod_eq_of_lt hfit] at hgap
      rcases List.mem_cons.mp hu with rfl | hu
      · exact hgap.2
      · have := hfirst u hu
        omega
    · have hmax : (if cursor < v.stop then v.stop else cursor) = max cursor v.stop := by
        split <;> omega
      have hdvd : kPageSize ∣ max cursor v.stop := by
        rcases max_choice cursor v.stop with he | he <;> rw [he]
        exacts [hd, (hv.aligned v hvm).2]
      rw [hmax, alignUpAny_of_dvd hdvd (by omega)] at hc
      obtain ⟨hcd, hlo, hup, hfree⟩ := ih hrest hdvd (by omega) hc
      refine ⟨hcd, by omega, by omega, fun hfit u hu => ?_⟩
      rcases List.mem_cons.mp hu with rfl | hu
      · exact .inl (by omega)
      · exact hfree hfit u hu

/-- **`mm_find_free_va`** returns 0 or a page address, behind which there is room. -/
theorem mmFindFreeVa_spec {length c : ℕ} (hv : RegionInv hi s.vmas) (hhi : hi ≤ kUserVaLimit)
    (hc : mmFindFreeVa s length kPageSize = c) (hne : c ≠ 0) :
    kPageSize ∣ c ∧ c ≤ max kUserVaBase hi ∧ (UserRange c (pageAlignUp length) →
      ∀ v ∈ s.vmas, v.stop ≤ c ∨ c + pageAlignUp length ≤ v.start) := by
  have hbase : alignUpAny kUserVaBase kPageSize = kUserVaBase := by decide
  rw [mmFindFreeVa] at hc
  dsimp only at hc
  split at hc
  · exact absurd hc.symm hne
  rw [if_neg (lt_irrefl _), hbase] at hc
  obtain ⟨hd, -, hup, hfree⟩ := findFreeLoop_spec hv hhi (dvd_refl _) (by decide) hc hne
  refine ⟨hd, hup, fun hrange => hfree ?_⟩
  have := hrange.2.2.1
  have := pageAlignUp_lt length
  omega

end Results

end Lume
