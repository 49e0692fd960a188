import Lume.Vm.Tree

/-!
# Large pages

`pmap::map_2mb` of `arch/riscv/mm/pmap.cc` and `map_range_at_huge` of `mm/vmm.cc`, at boot, where
tables are taken from the early allocator: here, from a list of pages. Large pages are leaves of
level-1 tables, so the tables below a root are followed by their entries that are valid and no
leaves.

`pmap::lookup` returns the address in the leaf it finds. In a large page this is the address of the
large page, and not that of the page that was asked for.

## Main definitions

* `BootVm`: memory, and the pages that become tables
* `BootVm.map2mb`, `BootVm.mapRangeAtHuge`: the operations
* `Mem.nodeAt`, `Mem.entry`: the table at a path, and an entry
* `BootVm.Apart`: the tables of a root are different pages

## Main results

* `Mem.lookup_iff`: `pmap::lookup` by entries
* `BootVm.Apart.map_spec`, `BootVm.Apart.map2mb_spec`: the two ways to map
* `mapRangeAtHuge_lookup_iff`: the range is translated if and only if it has no large page
-/

namespace Lume

/-- `PTE_G` -/
def pteG : Word := bit 5

/-- `k2MB` -/
def k2MB : ℕ := 2 * 1024 * 1024

/-- Memory at boot, and the pages that `alloc_pt_page` hands out, in this order. -/
structure BootVm where
  mem : Mem
  fresh : List ℕ

namespace BootVm

/-- `alloc_pt_page` -/
def allocPtPage (b : BootVm) : Option ℕ × BootVm :=
  match b.fresh with
  | [] => (none, b)
  | p :: fresh => (some p, ⟨Function.update b.mem p fun _ => 0, fresh⟩)

/-- Write an entry. -/
def write (b : BootVm) (table idx : ℕ) (w : Word) : BootVm := { b with mem := b.mem.write table idx w }

/-- One level of the walks of `map` and `map_2mb`: the next table, which is allocated if there is
none. -/
def descend (b : BootVm) (table idx : ℕ) : Option ℕ × BootVm :=
  if (b.mem table idx).IsValid then (some (pteToPa (b.mem table idx)), b)
  else
    match b.allocPtPage with
    | (none, b) => (none, b)
    | (some child, b) =>
      let b := b.write table idx (paToPte child pteV)
      (some (pteToPa (b.mem table idx)), b)

/-- `pmap::map` -/
def map (b : BootVm) (root va pa : ℕ) (perm : Word) : ℤ × BootVm :=
  match b.descend root (vpn va 2) with
  | (none, b) => (-12, b)
  | (some l1, b) =>
    match b.descend l1 (vpn va 1) with
    | (none, b) => (-12, b)
    | (some l0, b) => (0, b.write l0 (vpn va 0) (paToPte pa (perm ||| pteV ||| pteA ||| pteD)))

/-- `pmap::map_2mb` -/
def map2mb (b : BootVm) (root va pa : ℕ) (perm : Word) : ℤ × BootVm :=
  if va % k2MB ≠ 0 ∨ pa % k2MB ≠ 0 then (-22, b)
  else
    match b.descend root (vpn va 2) with
    | (none, b) => (-12, b)
    | (some l1, b) => (0, b.write l1 (vpn va 1) (paToPte pa (perm ||| pteV ||| pteA ||| pteD)))

/-- The first loop of `map_range_at_huge`, for at most `fuel` rounds; `none` where it panics. -/
def megaLoop (root paEnd : ℕ) (perm : Word) : ℕ → BootVm → ℕ → ℕ → Option (BootVm × ℕ × ℕ)
  | 0, _, _, _ => none
  | fuel + 1, b, va, pa =>
    if (pa + k2MB) % 2 ^ 64 ≤ paEnd then
      if va % k2MB = 0 ∧ pa % k2MB = 0 then
        match b.map2mb root va pa (perm ||| pteG) with
        | (ret, b) =>
          if ret ≠ 0 then none
          else megaLoop root paEnd perm fuel b ((va + k2MB) % 2 ^ 64) ((pa + k2MB) % 2 ^ 64)
      else some (b, va, pa)
    else some (b, va, pa)

/-- The second loop of `map_range_at_huge`, for at most `fuel` rounds; `none` where it panics. -/
def tailLoop (root paEnd : ℕ) (perm : Word) : ℕ → BootVm → ℕ → ℕ → Option BootVm
  | 0, _, _, _ => none
  | fuel + 1, b, va, pa =>
    if pa < paEnd then
      match b.map root va pa (perm ||| pteG) with
      | (ret, b) =>
        if ret ≠ 0 then none
        else tailLoop root paEnd perm fuel b ((va + kPageSize) % 2 ^ 64) ((pa + kPageSize) % 2 ^ 64)
    else some b

/-- `map_range_at_huge`; `none` where it panics. -/
def mapRangeAtHuge (b : BootVm) (root vaBase paStart paEnd : ℕ) (perm : Word) : Option BootVm :=
  (megaLoop root paEnd perm ((paEnd - paStart) / k2MB + 1) b vaBase paStart).bind fun r =>
    tailLoop root paEnd perm ((paEnd - r.2.2) / kPageSize + 1) r.1 r.2.1 r.2.2

end BootVm

/-! ## Tables and entries -/

/-- An entry that leads to a table. -/
def Word.IsInner (w : Word) : Prop := w.IsValid ∧ ¬ w.IsLeaf

instance (w : Word) : Decidable w.IsInner := inferInstanceAs (Decidable (_ ∧ _))

/-- An entry that maps a page. -/
def Word.Maps (w : Word) : Prop := w.IsValid ∧ w.IsLeaf

namespace Mem

/-- The table reached from the root by the indices of `path`, innermost index first. -/
def nodeAt (mem : Mem) (root : ℕ) : List ℕ → Option ℕ
  | [] => some root
  | i :: up => (nodeAt mem root up).bind fun t =>
    if (mem t i).IsInner then some (pteToPa (mem t i)) else none

/-- The entry at a path. -/
def entry (mem : Mem) (root : ℕ) : List ℕ → Option Word
  | [] => none
  | i :: up => (nodeAt mem root up).map fun t => mem t i

/-- The path of the entry of a level that a walk for `va` reads. -/
def walkPath (va level : ℕ) : List ℕ := ((List.range 3).drop level).map (vpn va)

theorem walkPath_two (va : ℕ) : walkPath va 2 = [vpn va 2] := rfl

theorem walkPath_one (va : ℕ) : walkPath va 1 = [vpn va 1, vpn va 2] := rfl

theorem walkPath_zero (va : ℕ) : walkPath va 0 = [vpn va 0, vpn va 1, vpn va 2] := rfl

variable {mem : Mem} {root t i : ℕ} {up path : List ℕ} {w : Word}

theorem nodeAt_cons (ht : mem.nodeAt root up = some t) :
    mem.nodeAt root (i :: up) = if (mem t i).IsInner then some (pteToPa (mem t i)) else none := by
  rw [nodeAt, ht, Option.bind_some]

theorem entry_cons (ht : mem.nodeAt root up = some t) : mem.entry root (i :: up) = some (mem t i) := by
  rw [entry, ht, Option.map_some]

theorem nodeAt_cons_none (ht : mem.nodeAt root up = none) : mem.nodeAt root (i :: up) = none := by
  rw [nodeAt, ht, Option.bind_none]

theorem entry_cons_none (ht : mem.nodeAt root up = none) : mem.entry root (i :: up) = none := by
  rw [entry, ht, Option.map_none]

/-- **`pmap::lookup` by entries**: it finds the one that maps, on one of the three levels. -/
theorem lookup_iff {va pa : ℕ} : mem.lookup root va = some pa ↔
    ∃ level ≤ 2, ∃ w, mem.entry root (walkPath va level) = some w ∧ w.Maps ∧ pteToPa w = pa := by
  have hroot : mem.nodeAt root [] = some root := rfl
  have hlevels (P : ℕ → Prop) : (∃ level ≤ 2, P level) ↔ P 2 ∨ P 1 ∨ P 0 := by
    constructor
    · rintro ⟨level, hle, h⟩
      obtain rfl | rfl | rfl : level = 0 ∨ level = 1 ∨ level = 2 := by omega
      exacts [.inr (.inr h), .inr (.inl h), .inl h]
    · rintro (h | h | h)
      exacts [⟨2, by decide, h⟩, ⟨1, by decide, h⟩, ⟨0, by decide, h⟩]
  rw [hlevels, walkPath_two, walkPath_one, walkPath_zero, entry_cons hroot, lookup]
  simp only [findLeaf, Option.some.injEq, exists_eq_left']
  by_cases hv : (mem root (vpn va 2)).IsValid
  · by_cases hl : (mem root (vpn va 2)).IsLeaf
    · have hnone : mem.nodeAt root [vpn va 2] = none := by
        rw [nodeAt_cons hroot, if_neg fun h => h.2 hl]
      rw [if_pos hv, if_pos hl, entry_cons_none hnone, entry_cons_none (nodeAt_cons_none hnone)]
      simp [Word.Maps, hv, hl]
    · have hsome : mem.nodeAt root [vpn va 2] = some (pteToPa (mem root (vpn va 2))) := by
        rw [nodeAt_cons hroot, if_pos ⟨hv, hl⟩]
      rw [if_pos hv, if_neg hl, entry_cons hsome]
      generalize pteToPa (mem root (vpn va 2)) = l1 at hsome
      by_cases hv' : (mem l1 (vpn va 1)).IsValid
      · by_cases hl' : (mem l1 (vpn va 1)).IsLeaf
        · have hnone : mem.nodeAt root [vpn va 1, vpn va 2] = none := by
            rw [nodeAt_cons hsome, if_neg fun h => h.2 hl']
          rw [if_pos hv', if_pos hl', entry_cons_none hnone]
          simp [Word.Maps, hv', hl', hl]
        · have hsome' : mem.nodeAt root [vpn va 1, vpn va 2] =
              some (pteToPa (mem l1 (vpn va 1))) := by
            rw [nodeAt_cons hsome, if_pos ⟨hv', hl'⟩]
          rw [if_pos hv', if_neg hl', entry_cons hsome']
          generalize pteToPa (mem l1 (vpn va 1)) = l0
          by_cases hv₀ : (mem l0 (vpn va 0)).IsValid <;> by_cases hl₀ : (mem l0 (vpn va 0)).IsLeaf <;>
            simp [Word.Maps, hv₀, hl₀, hl, hl']
      · have hnone : mem.nodeAt root [vpn va 1, vpn va 2] = none := by
          rw [nodeAt_cons hsome, if_neg fun h => hv' h.1]
        rw [if_neg hv', entry_cons_none hnone]
        simp [Word.Maps, hv', hl]
  · have hnone : mem.nodeAt root [vpn va 2] = none := by
      rw [nodeAt_cons hroot, if_neg fun h => hv h.1]
    rw [if_neg hv, entry_cons_none hnone, entry_cons_none (nodeAt_cons_none hnone)]
    simp [Word.Maps, hv]

theorem lookup_congr {mem' : Mem} {va : ℕ}
    (h : ∀ level ≤ 2, ∀ w, w.Maps → (mem'.entry root (walkPath va level) = some w ↔
      mem.entry root (walkPath va level) = some w)) : mem'.lookup root va = mem.lookup root va := by
  refine Option.ext fun pa => ?_
  rw [lookup_iff, lookup_iff]
  refine exists_congr fun level => and_congr_right fun hle => exists_congr fun w => ?_
  constructor
  · rintro ⟨he, hw, hpa⟩
    exact ⟨(h level hle w hw).mp he, hw, hpa⟩
  · rintro ⟨he, hw, hpa⟩
    exact ⟨(h level hle w hw).mpr he, hw, hpa⟩

end Mem

/-! ## Writes -/

namespace BootVm

/-- The tables below the root are different pages, and the pages that are handed out are neither
tables nor handed out twice. -/
structure Apart (b : BootVm) (root : ℕ) : Prop where
  inj : ∀ path path' t, path.length ≤ 2 → path'.length ≤ 2 → b.mem.nodeAt root path = some t →
    b.mem.nodeAt root path' = some t → path = path'
  nodup : b.fresh.Nodup
  address : ∀ p ∈ b.fresh, kPageSize ∣ p ∧ p < 2 ^ 56
  unused : ∀ p ∈ b.fresh, ∀ path, path.length ≤ 2 → b.mem.nodeAt root path ≠ some p

namespace Apart

variable {b : BootVm} {root t i : ℕ} {up path : List ℕ} {w : Word}

section

variable (h : b.Apart root) (hup : up.length ≤ 2) (ht : b.mem.nodeAt root up = some t)
  (hold : up.length ≤ 1 → ¬ (b.mem t i).IsInner)
include h hup ht hold

theorem nodeAt_write (hnew : up.length ≤ 1 → ¬ w.IsInner) (hlen : path.length ≤ 2) :
    (b.mem.write t i w).nodeAt root path = b.mem.nodeAt root path := by
  induction path with
  | nil => rfl
  | cons j q ih =>
    have hq : q.length ≤ 1 := Nat.le_of_succ_le_succ hlen
    have ih := ih (by omega)
    cases hs : b.mem.nodeAt root q with
    | none =>
      rw [hs] at ih
      rw [Mem.nodeAt_cons_none ih, Mem.nodeAt_cons_none hs]
    | some s =>
      rw [hs] at ih
      rw [Mem.nodeAt_cons ih, Mem.nodeAt_cons hs]
      rcases eq_or_ne s t with rfl | hne
      · obtain rfl := h.inj q up s (by omega) hup hs ht
        rcases eq_or_ne j i with rfl | hji
        · rw [Mem.write_self, if_neg (hnew hq), if_neg (hold hq)]
        · rw [Mem.write_of_ne hji]
      · rw [Mem.write_of_ne_pa hne]

theorem entry_write (hnew : up.length ≤ 1 → ¬ w.IsInner)
    (hlen : path.length ≤ 3) : (b.mem.write t i w).entry root path =
      if path = i :: up then some w else b.mem.entry root path := by
  cases path with
  | nil => rfl
  | cons j q =>
    have hq : q.length ≤ 2 := Nat.le_of_succ_le_succ hlen
    have hnode := h.nodeAt_write hup ht hold hnew hq
    cases hs : b.mem.nodeAt root q with
    | none =>
      have hne : j :: q ≠ i :: up := by
        rintro he
        rw [(List.cons.inj he).2, ht] at hs
        cases hs
      rw [hs] at hnode
      rw [if_neg hne, Mem.entry_cons_none hnode, Mem.entry_cons_none hs]
    | some s =>
      rw [hs] at hnode
      rw [Mem.entry_cons hnode, Mem.entry_cons hs]
      rcases eq_or_ne s t with rfl | hne
      · obtain rfl := h.inj q up s hq hup hs ht
        rcases eq_or_ne j i with rfl | hji
        · rw [Mem.write_self, if_pos rfl]
        · rw [Mem.write_of_ne hji, if_neg fun he => hji (List.cons.inj he).1]
      · have hne' : j :: q ≠ i :: up := by
          rintro he
          rw [(List.cons.inj he).2, ht] at hs
          exact hne (Option.some.inj hs).symm
        rw [Mem.write_of_ne_pa hne, if_neg hne']

theorem write (hnew : up.length ≤ 1 → ¬ w.IsInner) : (b.write t i w).Apart root := by
  have hnode (path : List ℕ) (hlen : path.length ≤ 2) :
      (b.write t i w).mem.nodeAt root path = b.mem.nodeAt root path :=
    h.nodeAt_write hup ht hold hnew hlen
  refine ⟨fun path path' s hlen hlen' hs hs' => ?_, h.nodup, h.address, fun p hp path hlen => ?_⟩
  · rw [hnode path hlen] at hs
    rw [hnode path' hlen'] at hs'
    exact h.inj path path' s hlen hlen' hs hs'
  · rw [hnode path hlen]
    exact h.unused p hp path hlen

end

section Link

variable {c : ℕ} {fresh : List ℕ}

section

variable (h : b.Apart root) (hfresh : b.fresh = c :: fresh) (hup : up.length ≤ 1)
  (ht : b.mem.nodeAt root up = some t)
include h hfresh hup ht

theorem nodeAt_link (hi : ¬ (b.mem t i).IsValid) (hlen : path.length ≤ 2) :
    (b.mem.link t i c).nodeAt root path =
      if path = i :: up then some c else b.mem.nodeAt root path := by
  have hmem : c ∈ b.fresh := by rw [hfresh]; exact List.mem_cons_self
  obtain ⟨haligned, hlt⟩ := h.address c hmem
  have hct : c ≠ t := fun he => h.unused c hmem up (by omega) (he ▸ ht)
  induction path with
  | nil => rfl
  | cons j q ih =>
    have hq : q.length ≤ 1 := Nat.le_of_succ_le_succ hlen
    have ih := ih (by omega)
    by_cases hqi : q = i :: up
    · -- the new table is empty
      subst hqi
      have hne : j :: i :: up ≠ i :: up := fun he => by simpa using congrArg List.length he
      have hold : b.mem.nodeAt root (i :: up) = none := by
        rw [Mem.nodeAt_cons ht, if_neg fun hin => hi hin.1]
      rw [if_pos rfl] at ih
      rw [if_neg hne, Mem.nodeAt_cons ih, Mem.link_child hct, Mem.nodeAt_cons_none hold,
        if_neg fun hin => Tree.not_isValid_zero hin.1]
    · rw [if_neg hqi] at ih
      cases hs : b.mem.nodeAt root q with
      | none =>
        have hne : j :: q ≠ i :: up := by
          rintro he
          rw [(List.cons.inj he).2, ht] at hs
          cases hs
        rw [hs] at ih
        rw [if_neg hne, Mem.nodeAt_cons_none ih, Mem.nodeAt_cons_none hs]
      | some s =>
        have hcs : c ≠ s := fun he => h.unused c hmem q (by omega) (he ▸ hs)
        rw [hs] at ih
        rw [Mem.nodeAt_cons ih, Mem.nodeAt_cons hs]
        rcases eq_or_ne s t with rfl | hst
        · obtain rfl := h.inj q up s (by omega) (by omega) hs ht
          rcases eq_or_ne j i with rfl | hji
          · rw [Mem.link_self, if_pos ⟨Tree.isValid_link_entry c, Tree.not_isLeaf_link_entry c⟩,
              if_pos rfl, pteToPa_paToPte haligned hlt isFlags_pteV]
          · rw [Mem.link_of_ne hct hji, if_neg fun he => hji (List.cons.inj he).1]
        · have hne : j :: q ≠ i :: up := by
            rintro he
            rw [(List.cons.inj he).2, ht] at hs
            exact hst (Option.some.inj hs).symm
          rw [Mem.link_of_ne_pa hst hcs.symm, if_neg hne]

theorem entry_link (hi : ¬ (b.mem t i).IsValid) (hlen : path.length ≤ 3)
    (hw : w.Maps) : (b.mem.link t i c).entry root path = some w ↔ b.mem.entry root path = some w := by
  have hmem : c ∈ b.fresh := by rw [hfresh]; exact List.mem_cons_self
  have hct : c ≠ t := fun he => h.unused c hmem up (by omega) (he ▸ ht)
  cases path with
  | nil => exact Iff.rfl
  | cons j q =>
    have hq : q.length ≤ 2 := Nat.le_of_succ_le_succ hlen
    have hnode := h.nodeAt_link hfresh hup ht hi hq
    by_cases hqi : q = i :: up
    · subst hqi
      have hold : b.mem.nodeAt root (i :: up) = none := by
        rw [Mem.nodeAt_cons ht, if_neg fun hin => hi hin.1]
      rw [if_pos rfl] at hnode
      rw [Mem.entry_cons hnode, Mem.entry_cons_none hold, Mem.link_child hct]
      refine ⟨fun he => ?_, fun he => nomatch he⟩
      rw [← Option.some.inj he] at hw
      exact absurd hw.1 Tree.not_isValid_zero
    · rw [if_neg hqi] at hnode
      cases hs : b.mem.nodeAt root q with
      | none =>
        rw [hs] at hnode
        rw [Mem.entry_cons_none hnode, Mem.entry_cons_none hs]
      | some s =>
        have hcs : c ≠ s := fun he => h.unused c hmem q hq (he ▸ hs)
        rw [hs] at hnode
        rw [Mem.entry_cons hnode, Mem.entry_cons hs]
        rcases eq_or_ne s t with rfl | hst
        · rcases eq_or_ne j i with rfl | hji
          · -- an invalid entry became one that leads to the table
            rw [Mem.link_self]
            refine ⟨fun he => ?_, fun he => ?_⟩
            · rw [← Option.some.inj he] at hw
              exact absurd hw.2 (Tree.not_isLeaf_link_entry c)
            · rw [← Option.some.inj he] at hw
              exact absurd hw.1 hi
          · rw [Mem.link_of_ne hct hji]
        · rw [Mem.link_of_ne_pa hst hcs.symm]

theorem link (hi : ¬ (b.mem t i).IsValid) : Apart ⟨b.mem.link t i c, fresh⟩ root := by
  have hmem : c ∈ b.fresh := by rw [hfresh]; exact List.mem_cons_self
  have hsub : ∀ p ∈ fresh, p ∈ b.fresh := fun p hp => by
    rw [hfresh]
    exact List.mem_cons_of_mem _ hp
  have hnodup := h.nodup
  rw [hfresh, List.nodup_cons] at hnodup
  have hnode (path : List ℕ) (hlen : path.length ≤ 2) := h.nodeAt_link hfresh hup ht hi hlen
  refine ⟨fun path path' s hlen hlen' hs hs' => ?_, hnodup.2, fun p hp => h.address p (hsub p hp),
    fun p hp path hlen => ?_⟩
  · dsimp only at hs hs'
    rw [hnode path hlen] at hs
    rw [hnode path' hlen'] at hs'
    split at hs <;> split at hs'
    · rename_i he he'
      rw [he, he']
    · cases hs
      exact absurd hs' (h.unused c hmem path' hlen')
    · cases hs'
      exact absurd hs (h.unused c hmem path hlen)
    · exact h.inj path path' s hlen hlen' hs hs'
  · dsimp only
    rw [hnode path hlen]
    split
    · intro he
      cases he
      exact hnodup.1 hp
    · exact h.unused p (hsub p hp) path hlen

end

end Link

end Apart

/-! ## Walks -/

/-- What a level of a walk leaves: a table, and all that was mapped. -/
structure Descends (b : BootVm) (root : ℕ) (path : List ℕ) (t : ℕ) (b' : BootVm) : Prop where
  apart : b'.Apart root
  node : b'.mem.nodeAt root path = some t
  others : ∀ q, q.length ≤ 2 → q ≠ path → b'.mem.nodeAt root q = b.mem.nodeAt root q
  lookup : ∀ va, b'.mem.lookup root va = b.mem.lookup root va
  fresh : b.fresh.length ≤ b'.fresh.length + 1

variable {b : BootVm} {root t i : ℕ} {up : List ℕ}

/-- **A level of a walk**, at an entry that maps nothing. -/
theorem Apart.descend (h : b.Apart root) (hup : up.length ≤ 1) (ht : b.mem.nodeAt root up = some t)
    (hmaps : ¬ (b.mem t i).Maps) (hfresh : b.fresh ≠ []) :
    ∃ c b', b.descend t i = (some c, b') ∧ b.Descends root (i :: up) c b' := by
  by_cases hv : (b.mem t i).IsValid
  · have hinner : (b.mem t i).IsInner := ⟨hv, fun hl => hmaps ⟨hv, hl⟩⟩
    refine ⟨_, b, by rw [BootVm.descend, if_pos hv], h, ?_, fun _ _ _ => rfl, fun _ => rfl,
      Nat.le_succ _⟩
    rw [Mem.nodeAt_cons ht, if_pos hinner]
  · obtain ⟨c, fresh, hcons⟩ := List.exists_cons_of_ne_nil hfresh
    obtain ⟨haligned, hlt⟩ := h.address c (by rw [hcons]; exact List.mem_cons_self)
    refine ⟨c, ⟨b.mem.link t i c, fresh⟩, ?_, h.link hcons hup ht hv, ?_, fun q hq hne => ?_,
      fun va => ?_, by rw [hcons, List.length_cons]⟩
    · rw [BootVm.descend, if_neg hv, allocPtPage, hcons]
      dsimp only [BootVm.write]
      rw [Mem.write_self, pteToPa_paToPte haligned hlt isFlags_pteV]
      rfl
    · exact (h.nodeAt_link hcons hup ht hv (by simpa using hup)).trans (if_pos rfl)
    · exact (h.nodeAt_link hcons hup ht hv hq).trans (if_neg hne)
    · refine Mem.lookup_congr fun level hle w hw => h.entry_link hcons hup ht hv ?_ hw
      rw [Mem.walkPath, List.length_map, List.length_drop, List.length_range]
      omega

theorem not_maps_of_lookup {mem : Mem} {va level : ℕ} (hnone : mem.lookup root va = none)
    (hle : level ≤ 2) (hpath : Mem.walkPath va level = i :: up) (ht : mem.nodeAt root up = some t) :
    ¬ (mem t i).Maps := by
  intro hmaps
  have hsome := Mem.lookup_iff.mpr ⟨level, hle, mem t i, hpath ▸ Mem.entry_cons ht, hmaps, rfl⟩
  rw [hnone] at hsome
  cases hsome

theorem leaf_entry {pa : ℕ} {perm : Word} (hpa : kPageSize ∣ pa) (hlt : pa < 2 ^ 56)
    (hflags : IsFlags perm) (hleaf : perm.IsLeaf) :
    (paToPte pa (perm ||| pteV ||| pteA ||| pteD)).Maps ∧
      pteToPa (paToPte pa (perm ||| pteV ||| pteA ||| pteD)) = pa := by
  have hall : IsFlags (perm ||| pteV ||| pteA ||| pteD) :=
    ((hflags.or isFlags_pteV).or (isFlags_bit (by decide))).or (isFlags_bit (by decide))
  refine ⟨⟨?_, ?_⟩, pteToPa_paToPte hpa hlt hall⟩
  · rw [Word.isValid_iff, getLsbD_paToPte (by decide)]
    simp [getLsbD_pteV]
  · rw [Word.isLeaf_iff] at hleaf ⊢
    rw [(getLsbD_entry (by simp)).2, (getLsbD_entry (by simp)).2, (getLsbD_entry (by simp)).2]
    exact hleaf

theorem Apart.lookup_write {w : Word} (level : ℕ) (h : b.Apart root) (hlevel : level ≤ 2)
    (hup : (i :: up).length = 3 - level) (ht : b.mem.nodeAt root up = some t)
    (hold : up.length ≤ 1 → ¬ (b.mem t i).IsInner) (hw : w.Maps) (va : ℕ) :
    (b.mem.write t i w).lookup root va =
      if Mem.walkPath va level = i :: up then some (pteToPa w) else b.mem.lookup root va := by
  have hlen (l : ℕ) : (Mem.walkPath va l).length = 3 - l := by simp [Mem.walkPath]
  rw [List.length_cons] at hup
  have hentry (l : ℕ) : (b.mem.write t i w).entry root (Mem.walkPath va l) = _ :=
    h.entry_write (by omega) ht hold (fun _ hin => hin.2 hw.2) (by rw [hlen]; omega)
  split
  · rename_i hpath
    refine Mem.lookup_iff.mpr ⟨level, hlevel, w, ?_, hw, rfl⟩
    rw [hentry, if_pos hpath]
  · rename_i hpath
    refine Mem.lookup_congr fun l hl w' hw' => ?_
    rw [hentry, if_neg]
    -- paths of other levels have another length
    intro he
    have hll : l = level := by
      have hlen' := congrArg List.length he
      rw [hlen, List.length_cons] at hlen'
      omega
    exact hpath (hll ▸ he)

/-- **`pmap::map`** of an address that is not mapped maps its page, and changes nothing else. -/
theorem Apart.map_spec {va pa : ℕ} {perm : Word} (h : b.Apart root)
    (hnone : b.mem.lookup root va = none) (hfresh : 2 ≤ b.fresh.length) (hpa : kPageSize ∣ pa)
    (hlt : pa < 2 ^ 56) (hflags : IsFlags perm) (hleaf : perm.IsLeaf) :
    ∃ b', b.map root va pa perm = (0, b') ∧ b'.Apart root ∧ b.fresh.length ≤ b'.fresh.length + 2 ∧
      ∀ va', b'.mem.lookup root va' =
        if Mem.walkPath va' 0 = Mem.walkPath va 0 then some pa else b.mem.lookup root va' := by
  obtain ⟨hmaps, hpte⟩ := leaf_entry hpa hlt hflags hleaf
  have hroot : b.mem.nodeAt root [] = some root := rfl
  obtain ⟨l1, b₁, hcall₁, hd₁⟩ := h.descend (by simp) hroot
    (not_maps_of_lookup hnone (by decide) (Mem.walkPath_two va) hroot) (by rintro he; simp [he] at hfresh)
  have hnone₁ : b₁.mem.lookup root va = none := (hd₁.lookup va).trans hnone
  have hlen₁ := hd₁.fresh
  obtain ⟨l0, b₂, hcall₂, hd₂⟩ := hd₁.apart.descend (by simp) hd₁.node
    (not_maps_of_lookup hnone₁ (by decide) (Mem.walkPath_one va) hd₁.node)
    (by rintro he; simp [he] at hlen₁; omega)
  refine ⟨_, by rw [BootVm.map, hcall₁]; dsimp only; rw [hcall₂], ?_, ?_, fun va' => ?_⟩
  · exact hd₂.apart.write (by simp) hd₂.node (fun hle => by simp at hle) fun hle => by simp at hle
  · have hlen₂ := hd₂.fresh
    show _ ≤ b₂.fresh.length + 2
    omega
  · have hlook := hd₂.apart.lookup_write (i := vpn va 0) 0 (by decide) rfl
      hd₂.node (fun hle => by simp at hle) hmaps va'
    rw [hpte] at hlook
    refine hlook.trans ?_
    rw [hd₂.lookup, hd₁.lookup, Mem.walkPath_zero va]

/-- **`pmap::map_2mb`** of a large page in which nothing is mapped maps it, and changes nothing
else. -/
theorem Apart.map2mb_spec {va pa : ℕ} {perm : Word} (h : b.Apart root)
    (hnone : b.mem.lookup root va = none) (htable : b.mem.nodeAt root (Mem.walkPath va 1) = none)
    (hfresh : 1 ≤ b.fresh.length) (hva : k2MB ∣ va) (hpa : k2MB ∣ pa) (hlt : pa < 2 ^ 56)
    (hflags : IsFlags perm) (hleaf : perm.IsLeaf) :
    ∃ b', b.map2mb root va pa perm = (0, b') ∧ b'.Apart root ∧
      b.fresh.length ≤ b'.fresh.length + 1 ∧
      (∀ q, q.length = 2 → b'.mem.nodeAt root q = b.mem.nodeAt root q) ∧
      ∀ va', b'.mem.lookup root va' =
        if Mem.walkPath va' 1 = Mem.walkPath va 1 then some pa else b.mem.lookup root va' := by
  obtain ⟨hmaps, hpte⟩ := leaf_entry ((show kPageSize ∣ k2MB by decide).trans hpa) hlt hflags hleaf
  have hroot : b.mem.nodeAt root [] = some root := rfl
  obtain ⟨l1, b₁, hcall, hd⟩ := h.descend (by simp) hroot
    (not_maps_of_lookup hnone (by decide) (Mem.walkPath_two va) hroot) (by rintro he; simp [he] at hfresh)
  -- there is no table, also after the walk
  have hinner : ¬ (b₁.mem l1 (vpn va 1)).IsInner := by
    intro hin
    have hnode := hd.others (Mem.walkPath va 1) (by simp [Mem.walkPath]) (by simp [Mem.walkPath_one])
    rw [htable, Mem.walkPath_one, Mem.nodeAt_cons hd.node, if_pos hin] at hnode
    cases hnode
  refine ⟨_, ?_, hd.apart.write (by simp) hd.node (fun _ => hinner) fun _ hin => hin.2 hmaps.2, hd.fresh,
    fun q hq => ?_, fun va' => ?_⟩
  · rw [BootVm.map2mb, if_neg (by simp [Nat.mod_eq_zero_of_dvd hva, Nat.mod_eq_zero_of_dvd hpa]), hcall]
  · refine (hd.apart.nodeAt_write (by simp) hd.node (fun _ => hinner) (fun _ hin => hin.2 hmaps.2)
      (by omega)).trans (hd.others q (by omega) ?_)
    rintro rfl
    simp at hq
  · have hlook := hd.apart.lookup_write 1 (by decide) rfl hd.node (fun _ => hinner) hmaps va'
    rw [hpte] at hlook
    refine hlook.trans ?_
    rw [hd.lookup, Mem.walkPath_one va]

/-! ## Ranges -/

/-- The number of the large page of an address. -/
def megaNo (va : ℕ) : ℕ := slotNo va / kPtePerPage

theorem walkPath_zero_eq_iff {va va' : ℕ} :
    Mem.walkPath va' 0 = Mem.walkPath va 0 ↔ slotNo va' = slotNo va := by
  simp only [Mem.walkPath_zero, List.cons.injEq, and_true, vpn_eq, index, slotNo, kPtePerPage, kPageNumbers]
  omega

theorem walkPath_one_eq_iff {va va' : ℕ} :
    Mem.walkPath va' 1 = Mem.walkPath va 1 ↔ megaNo va' = megaNo va := by
  simp only [Mem.walkPath_one, List.cons.injEq, and_true, vpn_eq, index, megaNo, slotNo, kPtePerPage,
    kPageNumbers]
  omega

theorem lookup_eq_of_slotNo {mem : Mem} {va va' : ℕ} (h : slotNo va' = slotNo va) :
    mem.lookup root va' = mem.lookup root va := by
  have hpath (level : ℕ) : Mem.walkPath va' level = Mem.walkPath va level := by
    have hdrop (v : ℕ) : Mem.walkPath v level = (Mem.walkPath v 0).drop level := List.map_drop ..
    rw [hdrop, hdrop va, walkPath_zero_eq_iff.mpr h]
  refine Option.ext fun pa => ?_
  simp only [Mem.lookup_iff, hpath]

theorem slotNo_congr {va va' : ℕ} (h : va' % kVaSpan = va % kVaSpan) : slotNo va' = slotNo va := by
  rw [← page_mod, h, page_mod]

theorem slotNo_next {va : ℕ} (h : slotNo va + 1 < kPageNumbers) :
    slotNo ((va + kPageSize) % 2 ^ 64) = slotNo va + 1 := by
  simp only [slotNo, kPageNumbers, kPageSize] at *
  omega

theorem megaNo_next {va : ℕ} (h : megaNo va + 1 < 2 ^ 18) :
    megaNo ((va + k2MB) % 2 ^ 64) = megaNo va + 1 := by
  simp only [megaNo, slotNo, kPageNumbers, kPageSize, kPtePerPage, k2MB] at *
  omega

/-- The number of large pages in a range of `n` pages. -/
def megas (vaBase paStart n : ℕ) : ℕ := if k2MB ∣ vaBase ∧ k2MB ∣ paStart then n / kPtePerPage else 0

theorem megas_le (vaBase paStart n : ℕ) : kPtePerPage * megas vaBase paStart n ≤ n := by
  rw [megas]
  split
  · exact Nat.mul_div_le n kPtePerPage
  · exact Nat.zero_le n

section Loops

variable {perm : Word} (hflags : IsFlags perm) (hleaf : perm.IsLeaf)
include hflags hleaf

theorem flags_global : IsFlags (perm ||| pteG) ∧ (perm ||| pteG).IsLeaf := by
  refine ⟨hflags.or (isFlags_bit (by decide)), ?_⟩
  rw [Word.isLeaf_iff] at hleaf ⊢
  simp only [BitVec.getLsbD_or, Bool.or_eq_true]
  tauto

/-- **The loop over the pages**, `n` of them. -/
theorem Apart.tailLoop_spec {paEnd : ℕ} {b : BootVm} (n va pa fuel : ℕ) (h : b.Apart root)
    (hslots : slotNo va + n ≤ kPageNumbers) (hpa : kPageSize ∣ pa) (hstop : paEnd = pa + kPageSize * n)
    (hend : paEnd ≤ 2 ^ 56) (hnone : ∀ va', slotNo va ≤ slotNo va' → slotNo va' < slotNo va + n →
      b.mem.lookup root va' = none) (hfresh : 2 * n ≤ b.fresh.length) (hfuel : n < fuel) :
    ∃ b', tailLoop root paEnd perm fuel b va pa = some b' ∧
      (∀ va', slotNo va ≤ slotNo va' → slotNo va' < slotNo va + n →
        b'.mem.lookup root va' = some (pa + kPageSize * (slotNo va' - slotNo va))) ∧
      ∀ va', ¬ (slotNo va ≤ slotNo va' ∧ slotNo va' < slotNo va + n) →
        b'.mem.lookup root va' = b.mem.lookup root va' := by
  induction n generalizing b va pa fuel with
  | zero =>
    obtain ⟨fuel, rfl⟩ := Nat.exists_eq_add_one_of_ne_zero hfuel.ne'
    refine ⟨b, ?_, fun va' hle hlt => by omega, fun _ _ => rfl⟩
    rw [tailLoop, if_neg (by omega)]
  | succ n ih =>
    obtain ⟨fuel, rfl⟩ := Nat.exists_eq_add_one_of_ne_zero (Nat.ne_zero_of_lt hfuel)
    obtain ⟨hflags', hleaf'⟩ := flags_global hflags hleaf
    have hsize : kPageSize = 4096 := rfl
    have hmul := Nat.mul_add_one kPageSize n
    obtain ⟨b₁, hcall, hapart, hlen, hlook⟩ := h.map_spec (hnone va (Nat.le_refl _) (by omega))
      (by omega) hpa (by omega) hflags' hleaf'
    have hmod : (pa + kPageSize) % 2 ^ 64 = pa + kPageSize := Nat.mod_eq_of_lt (by omega)
    simp only [walkPath_zero_eq_iff] at hlook
    -- the slot behind the last one does not matter
    have hnext : slotNo ((va + kPageSize) % 2 ^ 64) = slotNo va + 1 ∨ n = 0 := by
      rcases Nat.eq_zero_or_pos n with hn | hn
      · exact .inr hn
      · exact .inl (slotNo_next (by omega))
    have hslots' : slotNo ((va + kPageSize) % 2 ^ 64) + n ≤ kPageNumbers := by
      have hlt := slotNo_lt ((va + kPageSize) % 2 ^ 64)
      omega
    obtain ⟨b₂, hrest, hin, hout⟩ := ih ((va + kPageSize) % 2 ^ 64) (pa + kPageSize) fuel hapart hslots' (Nat.dvd_add hpa (Nat.dvd_refl _)) (by omega)
      (fun va' hle hlt => by
        rw [hlook, if_neg (by omega)]
        exact hnone va' (by omega) (by omega)) (by omega) (by omega)
    refine ⟨b₂, ?_, fun va' hle hlt => ?_, fun va' hnot => ?_⟩
    · rw [tailLoop, if_pos (by omega), hcall]
      dsimp only
      rw [if_neg (by decide), hmod]
      exact hrest
    · rcases Nat.eq_or_lt_of_le hle with heq | hgt
      · rw [hout va' (by omega), hlook, if_pos heq.symm, heq, Nat.sub_self, Nat.mul_zero, Nat.add_zero]
      · have hn : slotNo ((va + kPageSize) % 2 ^ 64) = slotNo va + 1 := hnext.resolve_right (by omega)
        obtain ⟨d, hd⟩ := Nat.exists_eq_add_of_le (Nat.succ_le_of_lt hgt)
        rw [hin va' (by omega) (by omega), hn, hd, Nat.add_sub_cancel_left, Nat.succ_eq_add_one,
          Nat.add_assoc, Nat.add_assoc, Nat.add_sub_cancel_left, Nat.mul_add, Nat.mul_one]
    · rw [hout va' (by omega), hlook, if_neg (by omega)]

/-- **The loop over the large pages**, `n` of them. -/
theorem Apart.megaLoop_spec {paEnd : ℕ} {b : BootVm} (n va pa fuel : ℕ) (h : b.Apart root)
    (hva : k2MB ∣ va) (hmegas : megaNo va + n ≤ 2 ^ 18) (hpa : k2MB ∣ pa)
    (hle : pa + k2MB * n ≤ paEnd) (hstop : paEnd < pa + k2MB * (n + 1)) (hend : paEnd ≤ 2 ^ 56)
    (hnone : ∀ va', megaNo va ≤ megaNo va' → megaNo va' < megaNo va + n →
      b.mem.lookup root va' = none ∧ b.mem.nodeAt root (Mem.walkPath va' 1) = none)
    (hfresh : n ≤ b.fresh.length) (hfuel : n < fuel) :
    ∃ b' va', megaLoop root paEnd perm fuel b va pa = some (b', va', pa + k2MB * n) ∧
      b'.Apart root ∧ b.fresh.length ≤ b'.fresh.length + n ∧
      (megaNo va + n < 2 ^ 18 → slotNo va' = slotNo va + kPtePerPage * n) ∧
      (∀ va', megaNo va ≤ megaNo va' → megaNo va' < megaNo va + n →
        b'.mem.lookup root va' = some (pa + k2MB * (megaNo va' - megaNo va))) ∧
      ∀ va', ¬ (megaNo va ≤ megaNo va' ∧ megaNo va' < megaNo va + n) →
        b'.mem.lookup root va' = b.mem.lookup root va' := by
  have hk : k2MB = 2097152 := rfl
  induction n generalizing b va pa fuel with
  | zero =>
    obtain ⟨fuel, rfl⟩ := Nat.exists_eq_add_one_of_ne_zero hfuel.ne'
    refine ⟨b, va, ?_, h, Nat.le_refl _, fun _ => rfl, fun va' hge hlt => by omega, fun _ _ => rfl⟩
    rw [megaLoop, if_neg (by omega)]
    rfl
  | succ n ih =>
    obtain ⟨fuel, rfl⟩ := Nat.exists_eq_add_one_of_ne_zero (Nat.ne_zero_of_lt hfuel)
    obtain ⟨hflags', hleaf'⟩ := flags_global hflags hleaf
    have hmul := Nat.mul_add_one k2MB n
    have hmul' := Nat.mul_add_one k2MB (n + 1)
    obtain ⟨hnone₀, htable₀⟩ := hnone va (Nat.le_refl _) (by omega)
    obtain ⟨b₁, hcall, hapart, hlen, hnodes, hlook⟩ := h.map2mb_spec hnone₀ htable₀ (by omega) hva hpa
      (by omega) hflags' hleaf'
    have hmod : (pa + k2MB) % 2 ^ 64 = pa + k2MB := Nat.mod_eq_of_lt (by omega)
    simp only [walkPath_one_eq_iff] at hlook
    have hnext : megaNo ((va + k2MB) % 2 ^ 64) = megaNo va + 1 ∨ n = 0 := by
      rcases Nat.eq_zero_or_pos n with hn | hn
      · exact .inr hn
      · exact .inl (megaNo_next (by omega))
    have hmegas' : megaNo ((va + k2MB) % 2 ^ 64) + n ≤ 2 ^ 18 := by
      rcases hnext with hn | hn
      · omega
      · have hlt := slotNo_lt ((va + k2MB) % 2 ^ 64)
        simp only [megaNo, kPageNumbers, kPtePerPage] at hlt ⊢
        omega
    obtain ⟨b₂, va₂, hrest, hapart₂, hlen₂, hslot, hin, hout⟩ := ih ((va + k2MB) % 2 ^ 64)
      (pa + k2MB) fuel hapart
      ((Nat.dvd_mod_iff (by decide)).mpr (Nat.dvd_add hva (Nat.dvd_refl _))) hmegas'
      (Nat.dvd_add hpa (Nat.dvd_refl _)) (by omega) (by omega)
      (fun va' hge hlt => by
        obtain ⟨hl, hn⟩ := hnone va' (by omega) (by omega)
        refine ⟨?_, (hnodes _ (by simp [Mem.walkPath])).trans hn⟩
        rw [hlook, if_neg (by omega)]
        exact hl) (by omega) (by omega)
    have hsum : pa + k2MB + k2MB * n = pa + k2MB * (n + 1) := by omega
    refine ⟨b₂, va₂, ?_, hapart₂, by omega, fun hlt => ?_, fun va' hge hlt => ?_, fun va' hnot => ?_⟩
    · rw [megaLoop, if_pos (by omega),
        if_pos ⟨Nat.mod_eq_zero_of_dvd hva, Nat.mod_eq_zero_of_dvd hpa⟩, hcall]
      dsimp only
      rw [if_neg (by decide), hmod, hrest, hsum]
    · have hn := megaNo_next (show megaNo va + 1 < 2 ^ 18 by omega)
      rw [hslot (by omega)]
      simp only [slotNo, megaNo, kPtePerPage, kPageSize, kPageNumbers] at *
      omega
    · rcases Nat.eq_or_lt_of_le hge with heq | hgt
      · rw [hout va' (by omega), hlook, if_pos heq.symm, heq, Nat.sub_self, Nat.mul_zero, Nat.add_zero]
      · have hn : megaNo ((va + k2MB) % 2 ^ 64) = megaNo va + 1 := hnext.resolve_right (by omega)
        obtain ⟨d, hd⟩ := Nat.exists_eq_add_of_le (Nat.succ_le_of_lt hgt)
        rw [hin va' (by omega) (by omega), hn, hd, Nat.add_sub_cancel_left, Nat.succ_eq_add_one,
          Nat.add_assoc, Nat.add_assoc, Nat.add_sub_cancel_left, Nat.mul_add, Nat.mul_one]
    · rw [hout va' (by omega), hlook, if_neg (by omega)]

theorem Apart.megaLoop_megas {b : BootVm} {vaBase paStart n : ℕ} (h : b.Apart root)
    (hslots : slotNo vaBase + n ≤ kPageNumbers) (hva : kPageSize ∣ vaBase)
    (hend : paStart + kPageSize * n ≤ 2 ^ 56)
    (hnone : ∀ va, slotNo vaBase ≤ slotNo va → slotNo va < slotNo vaBase + n →
      b.mem.lookup root va = none)
    (htable : ∀ va, megaNo vaBase ≤ megaNo va → megaNo va < megaNo vaBase + megas vaBase paStart n →
      b.mem.nodeAt root (Mem.walkPath va 1) = none) (hfresh : 2 * n ≤ b.fresh.length) :
    ∃ b₁ va₁, megaLoop root (paStart + kPageSize * n) perm (kPageSize * n / k2MB + 1) b vaBase paStart =
        some (b₁, va₁, paStart + k2MB * megas vaBase paStart n) ∧ b₁.Apart root ∧
      2 * (n - kPtePerPage * megas vaBase paStart n) ≤ b₁.fresh.length ∧
      (slotNo va₁ = slotNo vaBase + kPtePerPage * megas vaBase paStart n ∨
        n = kPtePerPage * megas vaBase paStart n) ∧ (∀ va, slotNo vaBase ≤ slotNo va →
        slotNo va < slotNo vaBase + kPtePerPage * megas vaBase paStart n →
        b₁.mem.lookup root va = some (paStart + k2MB * (megaNo va - megaNo vaBase))) ∧
      ∀ va, ¬ (slotNo vaBase ≤ slotNo va ∧
          slotNo va < slotNo vaBase + kPtePerPage * megas vaBase paStart n) →
        b₁.mem.lookup root va = b.mem.lookup root va := by
  have hk : k2MB = 2097152 := rfl
  have hp : kPtePerPage = 512 := rfl
  have hsize : kPageSize = 4096 := rfl
  by_cases halign : k2MB ∣ vaBase ∧ k2MB ∣ paStart
  · have hm : megas vaBase paStart n = n / kPtePerPage := if_pos halign
    -- a large page is a row of slots
    have hrow : slotNo vaBase = kPtePerPage * megaNo vaBase := by
      obtain ⟨q, rfl⟩ := halign.1
      simp only [megaNo, slotNo, kPtePerPage, kPageSize, kPageNumbers, k2MB]
      omega
    have hmega (va : ℕ) : megaNo va = slotNo va / 512 := rfl
    have hnumbers : kPageNumbers = 134217728 := rfl
    rw [hm] at htable ⊢
    simp only [hk, hp, hsize, hnumbers] at hslots hend htable hrow ⊢
    obtain ⟨b₁, va₁, hcall, hapart, hlen, hslot, hin, hout⟩ := h.megaLoop_spec hflags hleaf
      (n / 512) vaBase paStart (4096 * n / 2097152 + 1) halign.1 (by omega) halign.2 (by rw [hk]; omega) (by rw [hk]; omega) hend
      (fun va hge hlt => ⟨hnone va (by rw [hmega va] at hge; omega) (by rw [hmega va] at hlt; omega),
        htable va hge hlt⟩)
      (by omega) (by omega)
    refine ⟨b₁, va₁, hcall, hapart, by omega, ?_, fun va hge hlt => hin va ?_ ?_,
      fun va hnot => hout va fun hboth => hnot ?_⟩
    · rcases Nat.lt_or_ge (megaNo vaBase + n / 512) (2 ^ 18) with hlt | hge
      · exact .inl (hslot hlt)
      · exact .inr (by omega)
    · rw [hmega va]
      omega
    · rw [hmega va]
      omega
    · rw [hmega va] at hboth
      omega
  · have hm : megas vaBase paStart n = 0 := if_neg halign
    rw [hm] at htable ⊢
    refine ⟨b, vaBase, ?_, h, by omega, .inl rfl, fun va hge hlt => by omega, fun _ _ => rfl⟩
    rw [megaLoop, if_neg (c := vaBase % k2MB = 0 ∧ _) fun hmod =>
      halign ⟨Nat.dvd_of_mod_eq_zero hmod.1, Nat.dvd_of_mod_eq_zero hmod.2⟩, ite_self]
    rfl

/-- **A range of pages is mapped**: by large pages first, whose pages all get the address of the
large page, and by pages. -/
theorem Apart.mapRangeAtHuge_spec {b : BootVm} {vaBase paStart n : ℕ} (h : b.Apart root)
    (hslots : slotNo vaBase + n ≤ kPageNumbers) (hva : kPageSize ∣ vaBase) (hpa : kPageSize ∣ paStart)
    (hend : paStart + kPageSize * n ≤ 2 ^ 56)
    (hnone : ∀ va, slotNo vaBase ≤ slotNo va → slotNo va < slotNo vaBase + n →
      b.mem.lookup root va = none)
    (htable : ∀ va, megaNo vaBase ≤ megaNo va → megaNo va < megaNo vaBase + megas vaBase paStart n →
      b.mem.nodeAt root (Mem.walkPath va 1) = none) (hfresh : 2 * n ≤ b.fresh.length) :
    ∃ b', b.mapRangeAtHuge root vaBase paStart (paStart + kPageSize * n) perm = some b' ∧
      (∀ va, slotNo vaBase ≤ slotNo va →
        slotNo va < slotNo vaBase + kPtePerPage * megas vaBase paStart n →
        b'.mem.lookup root va = some (paStart + k2MB * (megaNo va - megaNo vaBase))) ∧
      (∀ va, slotNo vaBase + kPtePerPage * megas vaBase paStart n ≤ slotNo va →
        slotNo va < slotNo vaBase + n →
        b'.mem.lookup root va = some (paStart + kPageSize * (slotNo va - slotNo vaBase))) ∧
      ∀ va, ¬ (slotNo vaBase ≤ slotNo va ∧ slotNo va < slotNo vaBase + n) →
        b'.mem.lookup root va = b.mem.lookup root va := by
  obtain ⟨b₁, va₁, hcall, hapart, hlen, hslot, hin, hout⟩ :=
    h.megaLoop_megas hflags hleaf hslots hva hend hnone htable hfresh
  have hle : kPtePerPage * megas vaBase paStart n ≤ n := megas_le vaBase paStart n
  generalize hmdef : megas vaBase paStart n = m at *
  obtain ⟨d, rfl⟩ := Nat.exists_eq_add_of_le hle
  rw [Nat.add_sub_cancel_left] at hlen
  have hk : k2MB = kPageSize * kPtePerPage := rfl
  have hsum : paStart + kPageSize * (kPtePerPage * m + d) = paStart + k2MB * m + kPageSize * d := by
    rw [hk, Nat.mul_add, Nat.mul_assoc, Nat.add_assoc]
  have hslots₁ : slotNo va₁ + d ≤ kPageNumbers := by
    have hlt := slotNo_lt va₁
    omega
  obtain ⟨b₂, hrest, hin₂, hout₂⟩ := hapart.tailLoop_spec hflags hleaf d va₁
    (paStart + k2MB * m) (d + 1) hslots₁ (Nat.dvd_add hpa (by rw [hk, Nat.mul_assoc]; exact Nat.dvd_mul_right _ _))
    rfl (hsum ▸ hend)
    (fun va hge hlt => by
      rw [hout va (by omega)]
      exact hnone va (by omega) (by omega)) hlen (Nat.lt_succ_self d)
  refine ⟨b₂, ?_, fun va hge hlt => ?_, fun va hge hlt => ?_, fun va hnot => ?_⟩
  · rw [mapRangeAtHuge, Nat.add_sub_cancel_left, hcall, Option.bind_some]
    dsimp only
    rw [hsum, Nat.add_sub_cancel_left, Nat.mul_div_cancel_left d (by decide)]
    exact hrest
  · rw [hout₂ va (by omega)]
    exact hin va hge hlt
  · have hn : slotNo va₁ = slotNo vaBase + kPtePerPage * m := hslot.resolve_right (by omega)
    obtain ⟨e, he⟩ := Nat.exists_eq_add_of_le hge
    have hsub : slotNo va - slotNo vaBase = kPtePerPage * m + e := by omega
    rw [hin₂ va (by omega) (by omega), hn, hsub, he, Nat.add_sub_cancel_left, Nat.mul_add, hk,
      Nat.mul_assoc, Nat.add_assoc]
  · rw [hout₂ va (by omega), hout va (by omega)]

end Loops

theorem slotNo_range {vaBase n k : ℕ} (hva : kPageSize ∣ vaBase)
    (hspan : vaBase % kVaSpan + kPageSize * n ≤ kVaSpan) (hk : k < kPageSize * n) :
    slotNo (vaBase + k) = slotNo vaBase + k / kPageSize := by
  obtain ⟨q, rfl⟩ := hva
  simp only [slotNo, kPageSize, kVaSpan, kPageNumbers] at *
  omega

theorem slotNo_range_le {vaBase n : ℕ} (hva : kPageSize ∣ vaBase)
    (hspan : vaBase % kVaSpan + kPageSize * n ≤ kVaSpan) : slotNo vaBase + n ≤ kPageNumbers := by
  obtain ⟨q, rfl⟩ := hva
  simp only [slotNo, kPageSize, kVaSpan, kPageNumbers] at *
  omega

theorem exists_of_slotNo_range {vaBase n va : ℕ} (hva : kPageSize ∣ vaBase)
    (hspan : vaBase % kVaSpan + kPageSize * n ≤ kVaSpan) (hge : slotNo vaBase ≤ slotNo va)
    (hlt : slotNo va < slotNo vaBase + n) :
    ∃ k < kPageSize * n, va % kVaSpan = (vaBase + k) % kVaSpan := by
  obtain ⟨q, rfl⟩ := hva
  refine ⟨kPageSize * (slotNo va - slotNo (kPageSize * q)) + va % kPageSize, ?_⟩
  simp only [slotNo, kPageSize, kVaSpan, kPageNumbers] at *
  omega

theorem megas_pos_iff {vaBase paStart n : ℕ} : 0 < megas vaBase paStart n ↔
    k2MB ∣ vaBase ∧ k2MB ∣ paStart ∧ paStart + k2MB ≤ paStart + kPageSize * n := by
  rw [megas]
  split
  · simp only [k2MB, kPageSize, kPtePerPage] at *
    omega
  · tauto

theorem nodeAt_none_of_range {b : BootVm} {vaBase paStart n : ℕ} (hva : kPageSize ∣ vaBase)
    (hspan : vaBase % kVaSpan + kPageSize * n ≤ kVaSpan)
    (htable : ∀ k, k + k2MB ≤ kPageSize * n → k2MB ∣ vaBase + k →
      b.mem.nodeAt root (Mem.walkPath (vaBase + k) 1) = none) {va : ℕ}
    (hge : megaNo vaBase ≤ megaNo va) (hlt : megaNo va < megaNo vaBase + megas vaBase paStart n) :
    b.mem.nodeAt root (Mem.walkPath va 1) = none := by
  obtain ⟨halign, -⟩ := megas_pos_iff.mp (show 0 < megas vaBase paStart n by omega)
  have hle := megas_le vaBase paStart n
  have hspace : k2MB * (megaNo va - megaNo vaBase) + k2MB ≤ kPageSize * n := by
    simp only [kPageSize, k2MB, kPtePerPage] at *
    omega
  have hpath := htable (k2MB * (megaNo va - megaNo vaBase)) hspace
    (Nat.dvd_add halign (Nat.dvd_mul_right _ _))
  rw [walkPath_one_eq_iff.mpr ?_]
  · exact hpath
  · have hslot := slotNo_range (k := k2MB * (megaNo va - megaNo vaBase)) hva hspan
      (by simp only [k2MB] at *; omega)
    simp only [megaNo, kPtePerPage, k2MB, kPageSize] at *
    omega

end BootVm

open BootVm in
/-- **Where a mapped range is translated.** After `map_range_at_huge`, `pmap::lookup` reports the page
of every address of the range, and nothing is mapped outside of it, if and only if the range has no
large page: in the first one, the second page is reported as the first. -/
theorem mapRangeAtHuge_lookup_iff {b : BootVm} {root vaBase paStart paEnd : ℕ} {perm : Word}
    (h : b.Apart root) (hflags : IsFlags perm) (hleaf : perm.IsLeaf) (hva : kPageSize ∣ vaBase)
    (hstart : kPageSize ∣ paStart) (hend : kPageSize ∣ paEnd) (hle : paStart ≤ paEnd)
    (hpa : paEnd ≤ 2 ^ 56) (hspan : vaBase % kVaSpan + (paEnd - paStart) ≤ kVaSpan)
    (hnone : ∀ k < paEnd - paStart, b.mem.lookup root (vaBase + k) = none)
    (htable : ∀ k, k + k2MB ≤ paEnd - paStart → k2MB ∣ vaBase + k →
      b.mem.nodeAt root (Mem.walkPath (vaBase + k) 1) = none)
    (hfresh : 2 * ((paEnd - paStart) / kPageSize) ≤ b.fresh.length) :
    (∃ b', b.mapRangeAtHuge root vaBase paStart paEnd perm = some b' ∧ (∀ k < paEnd - paStart,
        b'.mem.lookup root (vaBase + k) = some (pageAlignDown (paStart + k))) ∧
      ∀ va, (∀ k < paEnd - paStart, va % kVaSpan ≠ (vaBase + k) % kVaSpan) →
        b.mem.lookup root va = none → b'.mem.lookup root va = none) ↔
    ¬ (k2MB ∣ vaBase ∧ k2MB ∣ paStart ∧ paStart + k2MB ≤ paEnd) := by
  obtain ⟨n, hn⟩ := Nat.dvd_sub hend hstart
  obtain rfl : paEnd = paStart + kPageSize * n := by omega
  simp only [Nat.add_sub_cancel_left] at hspan hnone htable hfresh ⊢
  rw [Nat.mul_div_cancel_left n (by decide)] at hfresh
  rw [← megas_pos_iff]
  obtain ⟨b', hcall, hlarge, hsmall, hout⟩ := h.mapRangeAtHuge_spec hflags hleaf
    (slotNo_range_le hva hspan) hva hstart hpa
    (fun va hge hlt => by
      obtain ⟨k, hk, hmod⟩ := exists_of_slotNo_range hva hspan hge hlt
      rw [lookup_eq_of_slotNo (slotNo_congr hmod)]
      exact hnone k hk)
    (fun va => nodeAt_none_of_range hva hspan htable) hfresh
  rw [hcall]
  constructor
  · -- the second page of the first large page
    rintro ⟨_, ⟨⟩, hall, -⟩ hpos
    have hle := megas_le vaBase paStart n
    have hrange : kPageSize < kPageSize * n := by
      simp only [kPtePerPage, kPageSize] at *
      omega
    have hslot := slotNo_range hva hspan hrange
    rw [Nat.div_self (by decide)] at hslot
    have hrow : kPtePerPage ∣ slotNo vaBase := by
      obtain ⟨⟨q, rfl⟩, -⟩ := megas_pos_iff.mp hpos
      simp only [slotNo, kPtePerPage, kPageSize, kPageNumbers, k2MB]
      omega
    have hfirst := hlarge (vaBase + kPageSize) (by omega)
      (by simp only [kPtePerPage, kPageSize] at *; omega)
    have hsame : megaNo (vaBase + kPageSize) - megaNo vaBase = 0 := by
      simp only [megaNo, kPtePerPage, kPageSize] at *
      omega
    rw [hall kPageSize hrange, hsame, Option.some_inj] at hfirst
    simp only [pageAlignDown, kPageSize] at *
    omega
  · intro hpos
    have hzero : megas vaBase paStart n = 0 := Nat.eq_zero_of_not_pos hpos
    refine ⟨b', rfl, fun k hk => ?_, fun va houtside hva' => ?_⟩
    · have hslot := slotNo_range hva hspan hk
      have hdiv : k / kPageSize < n := Nat.div_lt_of_lt_mul hk
      rw [hsmall (vaBase + k) (by rw [hzero, hslot]; exact Nat.le_add_right _ _) (by omega), hslot,
        Nat.add_sub_cancel_left]
      obtain ⟨q, rfl⟩ := hstart
      simp only [pageAlignDown, kPageSize, Option.some_inj]
      omega
    · rw [hout va fun hin => ?_]
      · exact hva'
      · obtain ⟨k, hk, hmod⟩ := exists_of_slotNo_range hva hspan hin.1 hin.2
        exact houtside k hk hmod

/-- Empty memory and two pages for tables. -/
def emptyBoot : BootVm := ⟨fun _ _ => 0, [0x80001000, 0x80002000]⟩

theorem emptyBoot_nodeAt {path : List ℕ} {t : ℕ} (h : emptyBoot.mem.nodeAt 0x80000000 path = some t) :
    path = [] ∧ t = 0x80000000 := by
  cases path with
  | nil => exact ⟨rfl, (Option.some_inj.mp h).symm⟩
  | cons i up =>
    obtain ⟨_, -, hif⟩ := Option.bind_eq_some_iff.mp h
    exact absurd hif (by simp [emptyBoot, Word.IsInner, Word.IsValid, Word.Has])

theorem emptyBoot_lookup (va : ℕ) : emptyBoot.mem.lookup 0x80000000 va = none := by
  refine Option.eq_none_iff_forall_ne_some.mpr fun pa h => ?_
  obtain ⟨level, -, w, hentry, hmaps, -⟩ := Mem.lookup_iff.mp h
  cases hpath : Mem.walkPath va level with
  | nil =>
    rw [hpath] at hentry
    exact nomatch hentry
  | cons i up =>
    rw [hpath] at hentry
    obtain ⟨_, -, rfl⟩ := Option.map_eq_some_iff.mp hentry
    exact absurd hmaps.1 (by simp [emptyBoot, Word.IsValid, Word.Has])

theorem emptyBoot_apart : emptyBoot.Apart 0x80000000 where
  inj _ _ := by
    rintro _ - - h h'
    rw [(emptyBoot_nodeAt h).1, (emptyBoot_nodeAt h').1]
  nodup := by decide
  address := by decide
  unused := by
    rintro p hp path - h
    rw [(emptyBoot_nodeAt h).2] at hp
    revert hp
    decide

/-- One page, mapped below empty memory. -/
theorem mapRangeAtHuge_lookup_iff_page :
    (∃ b', emptyBoot.mapRangeAtHuge 0x80000000 0x1000 0x80003000 0x80004000 pteR = some b' ∧
      (∀ k < 0x1000, b'.mem.lookup 0x80000000 (0x1000 + k) = some (pageAlignDown (0x80003000 + k))) ∧
      ∀ va, (∀ k < 0x1000, va % kVaSpan ≠ (0x1000 + k) % kVaSpan) →
        emptyBoot.mem.lookup 0x80000000 va = none → b'.mem.lookup 0x80000000 va = none) ↔
    ¬ (k2MB ∣ 0x1000 ∧ k2MB ∣ 0x80003000 ∧ 0x80003000 + k2MB ≤ 0x80004000) :=
  mapRangeAtHuge_lookup_iff emptyBoot_apart (isFlags_bit (by decide)) (by decide) (by decide)
    (by decide) (by decide) (by decide) (by decide) (by decide) (fun _ _ => emptyBoot_lookup _)
    (fun _ hk => absurd (Nat.le_of_add_left_le hk) (by decide)) (by decide)

/-- One large page: its second page is reported as its first. -/
theorem lookup_ignores_page_bits :
    (emptyBoot.mapRangeAtHuge 0x80000000 0 0x80200000 0x80400000 pteR).map
      (fun b => b.mem.lookup 0x80000000 0x1000) = some (some 0x80200000) ∧
    pageAlignDown (0x80200000 + 0x1000) = 0x80201000 := by
  decide

end Lume
