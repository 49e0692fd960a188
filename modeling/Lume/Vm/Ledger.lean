import Lume.Vm.Tree
import Lume.Pmm.System
import Lume.Foundation.RefCount

/-!
# The ledger of physical pages

Every page that the memory-management code holds is a table of one address space or a data
frame, and the reference count of a frame is the number of slots that map it plus what is owed
to it. The ledger ties the machine to this ghost accounting. Each lemma below is one elementary
change of the machine: an operation on address spaces is a sequence of them, and owes something
only between two of them, unless it leaks.

## Main definitions

* `Mem.slots`, `Ram.frameOf`: the slots of all address spaces, and the frame of a slot
* `Ghost`: the ghost accounting
* `Ledger m other roots g`: machine `m`, with the tables of address space `sid` below
  `roots sid`, is accounted for by `g`

## Main results

* `Ledger.allocPage`, `Ledger.free`, `Ledger.incref`, `Ledger.decref`: pages and counts
* `Ledger.write_slot`, `Ledger.link`, `Ledger.fill`: memory
* `Ledger.addRoot`, `Ledger.kill`, `Ledger.bury`: address spaces come and go
-/

namespace Lume

open Function (update update_of_ne update_self)

/-- The root table of each live address space. -/
abbrev Roots := ℕ → Option ℕ

/-- The slot of address space `k.1` at page number `k.2`. -/
def Mem.slots (mem : Mem) (roots : Roots) (k : ℕ × ℕ) : Word :=
  if k.2 < kPageNumbers then
    match roots k.1 with
    | some root => mem.slot root k.2
    | none => 0
  else 0

/-- The data frame that an entry maps, as a page index. -/
def Ram.frameOf (ram : Ram) (w : Word) : Option ℕ := w.target.bind ram.paToPage

/-- The slots of the first `bound` address spaces. -/
def slotKeys (bound : ℕ) : Finset (ℕ × ℕ) := Finset.range bound ×ˢ Finset.range kPageNumbers

/-- The ghost accounting: the blocks that the memory-management code holds, what each page is,
what is owed to each frame, how many address spaces there have been, and the one that is being
taken apart. -/
structure Ghost where
  ram : Ram
  reserved : Finset ℕ
  mine : List Block
  own : ℕ → Owner
  leak : ℕ → ℕ
  bound : ℕ
  dying : Option ℕ

namespace Ghost

variable (g : Ghost)

/-- Page `p` becomes a data frame with one reference, which is owed. -/
def addFrame (p : ℕ) : Ghost :=
  { g with
    mine := ⟨p, 0⟩ :: g.mine
    own := update g.own p .frame
    leak := update g.leak p 1 }

/-- Page `p` goes back to the allocator. -/
def drop (p : ℕ) : Ghost :=
  { g with mine := g.mine.erase ⟨p, 0⟩, own := update g.own p .nobody }

/-- One reference owed to `p` is paid. -/
def pay (p : ℕ) : Ghost := { g with leak := update g.leak p (g.leak p - 1) }

/-- One more reference is owed to the frame of `o`. -/
def owed (o : Option ℕ) : Ghost := { g with leak := owe g.leak o }

/-- One reference owed to `p` is paid, and `p` goes back to the allocator if it was the last. -/
def settle (p : ℕ) (last : Prop) [Decidable last] : Ghost :=
  if last then (g.pay p).drop p else g.pay p

/-- Page `p` becomes the table of `sid` at `path`. -/
def addTable (p sid : ℕ) (path : List ℕ) : Ghost :=
  { g with
    own := update g.own p (.table sid path)
    bound := max g.bound (sid + 1) }

end Ghost

/-- What is owed to frame `p`; nothing is owed to other pages. -/
def Ghost.debt (g : Ghost) (p : ℕ) : ℕ := if g.own p = .frame then g.leak p else 0

/-- The machine changes and the constants of the accounting do not. -/
structure Ghost.Kin (g g' : Ghost) : Prop where
  ram_eq : g'.ram = g.ram
  reserved_eq : g'.reserved = g.reserved
  dying_eq : g'.dying = g.dying

namespace Ghost

variable {g g' g'' : Ghost} {p q : ℕ}

theorem Kin.refl (g : Ghost) : Kin g g := ⟨rfl, rfl, rfl⟩

theorem Kin.trans (h : Kin g g') (h' : Kin g' g'') : Kin g g'' :=
  ⟨h'.ram_eq.trans h.ram_eq, h'.reserved_eq.trans h.reserved_eq, h'.dying_eq.trans h.dying_eq⟩

theorem debt_addFrame : (g.addFrame p).debt q = if q = p then 1 else g.debt q := by
  rcases eq_or_ne q p with rfl | hne
  · simp [debt, addFrame]
  · simp [debt, addFrame, hne]

theorem debt_drop : (g.drop p).debt q = if q = p then 0 else g.debt q := by
  rcases eq_or_ne q p with rfl | hne
  · simp [debt, drop]
  · simp [debt, drop, hne]

theorem debt_pay : (g.pay p).debt q = if q = p then g.debt p - 1 else g.debt q := by
  rcases eq_or_ne q p with rfl | hne
  · by_cases hf : g.own q = .frame <;> simp [debt, pay, hf]
  · simp [debt, pay, hne]

theorem kin_settle (last : Prop) [Decidable last] : Kin g (g.settle p last) := by
  rw [settle]
  split <;> exact ⟨rfl, rfl, rfl⟩

theorem debt_settle_le (last : Prop) [Decidable last] :
    (g.settle p last).debt q ≤ if q = p then g.debt p - 1 else g.debt q := by
  rw [settle]
  split
  · rw [debt_drop]
    split
    · exact Nat.zero_le _
    · rename_i hne
      rw [debt_pay, if_neg hne]
  · rw [debt_pay]

theorem own_settle (last : Prop) [Decidable last] : (g.settle p last).own q = g.own q ∨
    (q = p ∧ last ∧ (g.settle p last).own q = .nobody) := by
  rw [settle]
  split
  · rename_i hl
    rcases eq_or_ne q p with rfl | hne
    · exact .inr ⟨rfl, hl, by simp [drop]⟩
    · exact .inl (by simp [drop, pay, hne])
  · exact .inl rfl

theorem leak_settle (last : Prop) [Decidable last] :
    (g.settle p last).leak = update g.leak p (g.leak p - 1) := by
  rw [settle]
  split <;> rfl

theorem debt_owed (hp : g.own p = .frame) :
    (g.owed (some p)).debt q = if q = p then g.debt p + 1 else g.debt q := by
  rcases eq_or_ne q p with rfl | hne
  · simp [debt, owed, owe, hp]
  · simp [debt, owed, owe, hne]

end Ghost

/-- **The ledger** -/
structure Ledger (m : Machine) (other : List Block) (roots : Roots) (g : Ghost) : Prop where
  cpu_lt : m.cpu < kMaxCpus
  ram_eq : m.pmm.ram = g.ram
  pmm : m.pmm.Inv g.reserved (g.mine ++ other)
  mem_mine : ∀ b, b ∈ g.mine ↔ b.order = 0 ∧ g.own b.start ≠ .nobody
  root_lt : ∀ sid root, roots sid = some root → sid < g.bound
  tree : ∀ sid root, roots sid = some root → Tree g.ram m.mem g.own sid root
  tabled : ∀ p sid path, g.own p = .table sid path → (roots sid).isSome ∨ g.dying = some sid
  refs : Balanced (slotKeys g.bound) (g.own · = .frame) (fun p => (m.pmm.pageMap p).refcount)
    (fun k => g.ram.frameOf (m.mem.slots roots k)) g.leak
  target : ∀ k pa, (m.mem.slots roots k).target = some pa →
    ∃ p < g.ram.numPages, pa = g.ram.pageToPa p
  count_pos : ∀ p, g.own p = .frame →
    0 < (m.pmm.pageMap p).refcount ∧ (m.pmm.pageMap p).refcount < 2 ^ 32
  same_page : ∀ k k' p, g.ram.frameOf (m.mem.slots roots k) = some p →
    g.ram.frameOf (m.mem.slots roots k') = some p → k.2 = k'.2

namespace Mem

variable {mem mem' : Mem} {roots : Roots} {sid root n : ℕ}

theorem slots_of_root (hr : roots sid = some root) (hn : n < kPageNumbers) :
    mem.slots roots (sid, n) = mem.slot root n := by
  simp [slots, hr, hn]

theorem slots_congr (h : ∀ sid root n, roots sid = some root → mem'.slot root n = mem.slot root n) :
    mem'.slots roots = mem.slots roots := by
  funext k
  rw [slots, slots]
  split
  · cases hr : roots k.1 with
    | none => rfl
    | some root => exact h k.1 root k.2 hr
  · rfl

end Mem

@[simp] theorem Word.target_zero : Word.target 0#64 = none := by decide

@[simp] theorem Ram.frameOf_zero (ram : Ram) : ram.frameOf 0#64 = none := rfl

theorem Ram.frameOf_eq {ram : Ram} {w : Word} {p : ℕ} (hp : p < ram.numPages)
    (h : w.target = some (ram.pageToPa p)) : ram.frameOf w = some p := by
  rw [frameOf, h]
  exact ram.paToPage_pageToPa hp

theorem Machine.fill_of_ne {m : Machine} {pa pa' : ℕ} {page : ℕ → Word} (h : pa' ≠ pa) :
    (m.fill pa page).mem pa' = m.mem pa' := by
  simp [fill, h]

theorem Machine.onPage_pageToPa {m : Machine} {ram : Ram} {p : ℕ} (hram : m.pmm.ram = ram)
    (hp : p < ram.numPages) (f : Pmm → ℕ → Pmm) :
    m.onPage (ram.pageToPa p) f = { m with pmm := f m.pmm p } := by
  rw [onPage, hram, ram.paToPage_pageToPa hp]

namespace Ledger

variable {m m' : Machine} {other : List Block} {roots : Roots} {g : Ghost} {p sid root n t : ℕ}
  {k : ℕ × ℕ} {w : Word}

/-! ## Reading the ledger -/

section

variable (h : Ledger m other roots g)
include h

theorem mem_held (hp : g.own p ≠ .nobody) : (⟨p, 0⟩ : Block) ∈ g.mine ++ other :=
  List.mem_append_left _ ((h.mem_mine ⟨p, 0⟩).mpr ⟨rfl, hp⟩)

theorem own_lt (hp : g.own p ≠ .nobody) : p < g.ram.numPages := by
  have := (h.pmm.accounted.held_ok _ (h.mem_held hp)).1.start_lt
  rwa [Pmm.numPages, h.ram_eq] at this

theorem nodup : (g.mine ++ other).Nodup :=
  h.pmm.accounted.nodup_blocks.sublist (by simp [Pmm.blocks])

theorem own_of_other {b : Block} (hb : b ∈ other) (hp : p ∈ b) : g.own p = .nobody := by
  by_contra hne
  have hp' : p ∈ (⟨p, 0⟩ : Block) := Block.start_mem _
  have hfit := (h.pmm.accounted.held_ok _ (h.mem_held hne)).1
  have hlt : p < m.pmm.numPages := hfit.start_lt
  have hcover := h.pmm.accounted.cover_parts hlt
  have hbe : (⟨p, 0⟩ : Block) = b :=
    eq_of_cover_le_one (by omega) (h.mem_held hne) (List.mem_append_right _ hb) hp' hp
  have hdisj := (List.nodup_append'.mp h.nodup).2.2
  exact hdisj ((h.mem_mine ⟨p, 0⟩).mpr ⟨rfl, hne⟩) (hbe ▸ hb)

theorem frame_of_target {pa : ℕ}
    (hk : (m.mem.slots roots k).target = some pa) : ∃ p < g.ram.numPages, pa = g.ram.pageToPa p ∧
      g.ram.frameOf (m.mem.slots roots k) = some p ∧ g.own p = .frame := by
  obtain ⟨p, hp, rfl⟩ := h.target k pa hk
  have hf := Ram.frameOf_eq hp hk
  exact ⟨p, hp, rfl, hf, h.refs.alive k p hf⟩

theorem target_of_frame (hk : g.ram.frameOf (m.mem.slots roots k) = some p) :
    (m.mem.slots roots k).target = some (g.ram.pageToPa p) := by
  obtain ⟨pa, hpa, -⟩ := Option.bind_eq_some_iff.mp hk
  obtain ⟨q, -, rfl, hq, -⟩ := h.frame_of_target hpa
  rw [hpa, Option.some.inj (hq.symm.trans hk)]

theorem mem_slotKeys (hr : roots sid = some root)
    (hn : n < kPageNumbers) : (sid, n) ∈ slotKeys g.bound := by
  simp [slotKeys, h.root_lt sid root hr, hn]

theorem congr (hmem : m'.mem = m.mem) (hpmm : m'.pmm = m.pmm)
    (hcpu : m'.cpu < kMaxCpus) : Ledger m' other roots g := by
  obtain ⟨_, _, _, _⟩ := m'
  obtain rfl : _ = m.mem := hmem
  obtain rfl : _ = m.pmm := hpmm
  exact { h with cpu_lt := hcpu }

end

/-! ## Pages and reference counts -/

section

variable (h : Ledger m other roots g)
include h

theorem repage {pmm' : Pmm} {mine' : List Block} {own' : ℕ → Owner}
    {leak' : ℕ → ℕ} (hram : pmm'.ram = m.pmm.ram) (hinv : pmm'.Inv g.reserved (mine' ++ other))
    (hmine : ∀ b, b ∈ mine' ↔ b.order = 0 ∧ own' b.start ≠ .nobody)
    (hold : ∀ p sid path, own' p = .table sid path → g.own p = .table sid path)
    (hnew : ∀ sid root, roots sid = some root → ∀ p path, g.own p = .table sid path →
      own' p = .table sid path)
    (hrefs : Balanced (slotKeys g.bound) (own' · = .frame) (fun p => (pmm'.pageMap p).refcount)
      (fun k => g.ram.frameOf (m.mem.slots roots k)) leak')
    (hpos : ∀ p, own' p = .frame → 0 < (pmm'.pageMap p).refcount ∧
      (pmm'.pageMap p).refcount < 2 ^ 32) :
    Ledger { m with pmm := pmm' } other roots { g with mine := mine', own := own', leak := leak' } where
  cpu_lt := h.cpu_lt
  ram_eq := hram.trans h.ram_eq
  pmm := hinv
  mem_mine := hmine
  root_lt := h.root_lt
  tree sid root hr := ((h.tree sid root hr).congr (fun _ _ _ => rfl) fun p path =>
    ⟨hold p sid path, hnew sid root hr p path⟩).1
  tabled p sid path hp := h.tabled p sid path (hold p sid path hp)
  refs := hrefs
  target := h.target
  count_pos := hpos
  same_page := h.same_page

theorem refcount_steady {pmm' : Pmm}
    (hst : Pmm.Steady (g.mine ++ other) m.pmm pmm') (hp : g.own p = .frame) :
    (pmm'.pageMap p).refcount = (m.pmm.pageMap p).refcount := by
  rw [hst.page_eq ⟨p, 0⟩ (h.mem_held (by simp [hp]))]

theorem draw {ok : Bool} (hd : m.draw = (ok, m')) : m'.mem = m.mem ∧ Ledger m' other roots g := by
  rw [Machine.draw] at hd
  split at hd
  · cases hd
    exact ⟨rfl, h⟩
  · cases hd
    exact ⟨rfl, h.congr rfl rfl h.cpu_lt⟩

/-- **`pmm_alloc_page`**: either nothing happens, or a page that nobody used is handed out. -/
theorem allocPage {r : Option ℕ} (hr : m.allocPage = (r, m')) :
    m'.mem = m.mem ∧
      match r with
      | none => Ledger m' other roots g
      | some pa => ∃ p, pa = g.ram.pageToPa p ∧ g.own p = .nobody ∧
          Ledger m' other roots (g.addFrame p) := by
  rw [Machine.allocPage] at hr
  split at hr
  · rename_i m₁ hd
    cases hr
    exact h.draw hd
  rename_i m₁ hd
  obtain ⟨hmem, h₁⟩ := h.draw hd
  generalize hres : m₁.pmm.allocPage m₁.cpu = res at hr
  have hout := h₁.pmm.allocPage h₁.cpu_lt
  rw [hres] at hout
  cases hout with
  | fail inv steady =>
    cases hr
    refine ⟨hmem, h₁.repage steady.ram_eq inv h₁.mem_mine (fun _ _ _ => id)
      (fun _ _ _ _ _ => id) (h₁.refs.congr (fun _ => Iff.rfl) fun p => h₁.refcount_steady steady) ?_⟩
    intro p hp
    rw [h₁.refcount_steady steady hp]
    exact h₁.count_pos p hp
  | grant inv steady state_eq refcount_eq =>
    rename_i p pmm'
    cases hr
    -- a page that was just handed out was held by nobody
    have hnew : g.own p = .nobody := by
      by_contra hne
      have hnd : (⟨p, 0⟩ :: (g.mine ++ other)).Nodup :=
        inv.accounted.nodup_blocks.sublist (by simp [Pmm.blocks])
      exact (List.nodup_cons.mp hnd).1 (h₁.mem_held hne)
    refine ⟨hmem, p, by rw [h₁.ram_eq], hnew, h₁.repage steady.ram_eq inv ?_ ?_ ?_ ?_ ?_⟩
    · intro b
      rw [List.mem_cons, h₁.mem_mine b]
      rcases eq_or_ne b.start p with he | hne
      · simp [he, Block.ext_iff, hnew]
      · simp [Block.ext_iff, hne]
    · intro q sid path hq
      rcases eq_or_ne q p with rfl | hne
      · simp at hq
      · rwa [update_of_ne hne] at hq
    · intro sid root _ q path hq
      rcases eq_or_ne q p with rfl | hne
      · simp [hnew] at hq
      · rwa [update_of_ne hne]
    · refine (h₁.refs.congr (fun _ => Iff.rfl) fun q => h₁.refcount_steady steady).alloc
        (by simp [hnew]) refcount_eq fun q => ?_
      rcases eq_or_ne q p with rfl | hne
      · simp
      · simp [hne]
    · intro q hq
      rcases eq_or_ne q p with rfl | hne
      · rw [refcount_eq]
        decide
      · rw [update_of_ne hne] at hq
        rw [h₁.refcount_steady steady hq]
        exact h₁.count_pos q hq

theorem dropped {pmm' : Pmm} (hp : g.own p ≠ .nobody)
    (hfree : ∀ k, g.ram.frameOf (m.mem.slots roots k) ≠ some p)
    (htab : ∀ sid path, g.own p = .table sid path → roots sid = none)
    (hinv : pmm'.Inv g.reserved ((g.mine ++ other).erase ⟨p, 0⟩))
    (hst : Pmm.Steady ((g.mine ++ other).erase ⟨p, 0⟩) m.pmm pmm') :
    Ledger { m with pmm := pmm' } other roots (g.drop p) := by
  have hmem : (⟨p, 0⟩ : Block) ∈ g.mine := (h.mem_mine ⟨p, 0⟩).mpr ⟨rfl, hp⟩
  have hnd : g.mine.Nodup := (List.nodup_append'.mp h.nodup).1
  have herase : (g.mine ++ other).erase ⟨p, 0⟩ = g.mine.erase ⟨p, 0⟩ ++ other :=
    List.erase_append_left _ hmem
  rw [herase] at hinv hst
  have hrc {q : ℕ} (hq : g.own q = .frame) (hne : q ≠ p) :
      (pmm'.pageMap q).refcount = (m.pmm.pageMap q).refcount := by
    have hq' : (⟨q, 0⟩ : Block) ∈ g.mine.erase ⟨p, 0⟩ :=
      (List.Nodup.mem_erase_iff hnd).mpr
        ⟨by simpa [Block.ext_iff] using hne, (h.mem_mine ⟨q, 0⟩).mpr ⟨rfl, by simp [hq]⟩⟩
    rw [hst.page_eq ⟨q, 0⟩ (List.mem_append_left _ hq')]
  have hkeep {q : ℕ} {o : Owner} (ho : o ≠ .nobody) :
      update g.own p .nobody q = o ↔ g.own q = o ∧ q ≠ p := by
    rcases eq_or_ne q p with rfl | hne
    · simp [ho.symm]
    · simp [hne]
  refine h.repage hst.ram_eq hinv ?_ ?_ ?_ ?_ ?_
  · intro b
    rw [List.Nodup.mem_erase_iff hnd, h.mem_mine b]
    rcases eq_or_ne b.start p with he | hne
    · simp only [ne_eq, Block.ext_iff, he, update_self]
      tauto
    · simp [Block.ext_iff, hne]
  · exact fun q sid path hq => ((hkeep (by simp)).mp hq).1
  · intro sid root hr q path hq
    refine (hkeep (by simp)).mpr ⟨hq, ?_⟩
    rintro rfl
    rw [htab sid path hq] at hr
    cases hr
  · refine (h.refs.free hfree fun q => hkeep (by simp)).congr (fun _ => Iff.rfl) fun q hq => ?_
    obtain ⟨hq, hne⟩ := (hkeep (by simp)).mp hq
    exact hrc hq hne
  · intro q hq
    obtain ⟨hq, hne⟩ := (hkeep (by simp)).mp hq
    rw [hrc hq hne]
    exact h.count_pos q hq

/-- **`pmm_free_page`** of a page to which no slot refers -/
theorem freePage (hp : g.own p ≠ .nobody)
    (hfree : ∀ k, g.ram.frameOf (m.mem.slots roots k) ≠ some p)
    (htab : ∀ sid path, g.own p = .table sid path → roots sid = none) :
    (m.freePage (g.ram.pageToPa p)).mem = m.mem ∧
      Ledger (m.freePage (g.ram.pageToPa p)) other roots (g.drop p) := by
  rw [Machine.freePage, Machine.onPage_pageToPa h.ram_eq (h.own_lt hp)]
  obtain ⟨hinv, hst⟩ := h.pmm.freePage h.cpu_lt (h.mem_held hp)
  exact ⟨rfl, h.dropped hp hfree htab hinv hst⟩

/-- **`page_incref`**: one more reference, which is owed. -/
theorem incref (hp : g.own p = .frame) (hlt : (m.pmm.pageMap p).refcount < 2 ^ 32 - 1) :
    (m.incref (g.ram.pageToPa p)).mem = m.mem ∧
      Ledger (m.incref (g.ram.pageToPa p)) other roots (g.owed (some p)) := by
  have hp' : g.own p ≠ .nobody := by simp [hp]
  rw [Machine.incref, Machine.onPage_pageToPa h.ram_eq (h.own_lt hp')]
  have hrc (q : ℕ) : ((m.pmm.incref p).pageMap q).refcount =
      update (fun p => (m.pmm.pageMap p).refcount) p
        ((m.pmm.pageMap p).refcount + 1) q := by
    rcases eq_or_ne q p with rfl | hne
    · simp only [Pmm.incref, Pmm.pageMap_setPage_self, update_self]
      omega
    · rw [Pmm.incref, Pmm.pageMap_setPage_of_ne hne, update_of_ne hne]
  refine ⟨rfl, h.repage rfl (h.pmm.incref p) h.mem_mine (fun _ _ _ => id) (fun _ _ _ _ _ => id)
    ((h.refs.addRef p).congr (fun _ => Iff.rfl) fun q _ => hrc q) fun q hq => ?_⟩
  have := h.count_pos q hq
  rw [hrc]
  rcases eq_or_ne q p with rfl | hne
  · rw [update_self]
    omega
  · rwa [update_of_ne hne]

/-- **`page_decref`** pays one reference that is owed; a frame with no other goes back to the
allocator. -/
theorem decref (hp : g.own p = .frame) (hl : 0 < g.leak p) :
    (m.decref (g.ram.pageToPa p)).mem = m.mem ∧ Ledger (m.decref (g.ram.pageToPa p)) other roots
        (g.settle p ((m.pmm.pageMap p).refcount = 1)) := by
  have hp' : g.own p ≠ .nobody := by simp [hp]
  have hcount := h.refs.count p hp
  have hpos := h.count_pos p hp
  have hdec := h.pmm.decref h.cpu_lt (h.mem_held hp')
  rw [Machine.decref, Machine.onPage_pageToPa h.ram_eq (h.own_lt hp')]
  refine ⟨rfl, ?_⟩
  rw [Ghost.settle]
  by_cases hlast : (m.pmm.pageMap p).refcount = 1
  · rw [if_pos hlast] at hdec ⊢
    have hfree (k : ℕ × ℕ) : g.ram.frameOf (m.mem.slots roots k) ≠ some p := by
      intro hk
      have : 0 < fiber (slotKeys g.bound) (fun k => g.ram.frameOf (m.mem.slots roots k)) p :=
        fiber_pos_iff.mpr ⟨k, h.refs.mem k p hk, hk⟩
      omega
    -- the page leaves the ledger with nothing owed to it
    have hdrop := h.dropped hp' hfree (fun sid path he => by simp [hp] at he) hdec.1 hdec.2
    refine { hdrop with refs := ⟨hdrop.refs.mem, hdrop.refs.alive, fun q hq => ?_⟩ }
    have hne : q ≠ p := by
      rintro rfl
      simp [Ghost.drop] at hq
    have := hdrop.refs.count q hq
    rw [this]
    simp [Ghost.drop, Ghost.pay, update_of_ne hne]
  · rw [if_neg hlast] at hdec ⊢
    obtain ⟨hinv, heq⟩ := hdec
    have hrc (q : ℕ) : ((m.pmm.decref m.cpu p).pageMap q).refcount =
        update (fun p => (m.pmm.pageMap p).refcount) p
          ((m.pmm.pageMap p).refcount - 1) q := by
      rw [heq]
      rcases eq_or_ne q p with rfl | hne
      · simp only [Pmm.pageMap_setPage_self, update_self]
        omega
      · rw [Pmm.pageMap_setPage_of_ne hne, update_of_ne hne]
    refine h.repage (by rw [heq]; rfl) hinv h.mem_mine (fun _ _ _ => id) (fun _ _ _ _ _ => id)
      ((h.refs.dropRef hl).congr (fun _ => Iff.rfl) fun q _ => hrc q) fun q hq => ?_
    have := h.count_pos q hq
    rw [hrc]
    rcases eq_or_ne q p with rfl | hne
    · rw [update_self]
      omega
    · rwa [update_of_ne hne]

theorem reheld {pmm' : Pmm} {other' : List Block}
    (hinv : pmm'.Inv g.reserved (g.mine ++ other')) (hram : pmm'.ram = m.pmm.ram)
    (hpage : ∀ b ∈ g.mine, pmm'.pageMap b.start = m.pmm.pageMap b.start) :
    Ledger { m with pmm := pmm' } other' roots g := by
  have hrc (p : ℕ) (hp : g.own p = .frame) :
      (pmm'.pageMap p).refcount = (m.pmm.pageMap p).refcount := by
    rw [hpage ⟨p, 0⟩ ((h.mem_mine ⟨p, 0⟩).mpr ⟨rfl, by simp [hp]⟩)]
  exact { h with
    ram_eq := hram.trans h.ram_eq
    pmm := hinv
    refs := h.refs.congr (fun _ => Iff.rfl) hrc
    count_pos := fun p hp => by
      rw [hrc p hp]
      exact h.count_pos p hp }

end

/-! ## Memory -/

section

variable (h : Ledger m other roots g)
include h

theorem remem {mem' : Mem} (hmem : ∀ p sid path, g.own p = .table sid path →
      mem' (g.ram.pageToPa p) = m.mem (g.ram.pageToPa p)) :
    mem'.slots roots = m.mem.slots roots ∧ Ledger { m with mem := mem' } other roots g := by
  have hs : mem'.slots roots = m.mem.slots roots := Mem.slots_congr fun sid root n hr =>
    ((h.tree sid root hr).congr (fun p path => hmem p sid path) fun _ _ => Iff.rfl).2 n
  refine ⟨hs, { h with
    tree := fun sid root hr =>
      ((h.tree sid root hr).congr (fun p path => hmem p sid path) fun _ _ => Iff.rfl).1
    refs := ?_, target := ?_, same_page := ?_ }⟩ <;> dsimp only <;> rw [hs]
  · exact h.refs
  · exact h.target
  · exact h.same_page

theorem write_other (hp : ∀ sid path, g.own p ≠ .table sid path)
    (i : ℕ) (w : Word) : (m.write (g.ram.pageToPa p) i w).mem.slots roots = m.mem.slots roots ∧
      Ledger (m.write (g.ram.pageToPa p) i w) other roots g := by
  have hmem (q sid : ℕ) (path : List ℕ) (hq : g.own q = .table sid path) :
      (m.mem.write (g.ram.pageToPa p) i w) (g.ram.pageToPa q) = m.mem (g.ram.pageToPa q) := by
    refine Mem.write_of_ne_pa fun he => ?_
    rw [g.ram.pageToPa_injective he] at hq
    exact hp sid path hq
  exact h.remem hmem

theorem fill (hp : ∀ sid path, g.own p ≠ .table sid path)
    (page : ℕ → Word) : (m.fill (g.ram.pageToPa p) page).mem.slots roots = m.mem.slots roots ∧
      Ledger (m.fill (g.ram.pageToPa p) page) other roots g := by
  have hmem (q sid : ℕ) (path : List ℕ) (hq : g.own q = .table sid path) :
      (m.fill (g.ram.pageToPa p) page).mem (g.ram.pageToPa q) = m.mem (g.ram.pageToPa q) := by
    refine Machine.fill_of_ne fun he => ?_
    rw [g.ram.pageToPa_injective he] at hq
    exact hp sid path hq
  exact h.remem hmem

theorem ne_of_tableAt (hr : roots sid = some root)
    {path path' : List ℕ} (hlen : path.length ≤ 2) (ht : m.mem.tableAt root path = some t)
    {sid' : ℕ} (hne : sid' ≠ sid) (hp : g.own p = .table sid' path') : g.ram.pageToPa p ≠ t := by
  obtain ⟨q, -, rfl, hq⟩ := (h.tree sid root hr).table path t hlen ht
  intro he
  rw [g.ram.pageToPa_injective he, hq] at hp
  exact hne (Owner.table.inj hp).1.symm

theorem slots_write (hr : roots sid = some root)
    (hn : n < kPageNumbers) (ht : m.mem.tableAt root (tablePath n) = some t) (w : Word) :
    (m.write t (index n 0) w).mem.slots roots = update (m.mem.slots roots) (sid, n) w := by
  funext ⟨sid', n'⟩
  by_cases hn' : n' < kPageNumbers
  swap
  · have hne : (sid', n') ≠ (sid, n) := by
      rintro ⟨⟩
      exact hn' hn
    simp [Mem.slots, hn', update_of_ne hne]
  by_cases hsid : sid' = sid
  · subst hsid
    rw [Mem.slots_of_root hr hn']
    refine (((h.tree sid' root hr).write_slot ht w).2 n' hn' hn).trans ?_
    by_cases hnn : n' = n
    · subst hnn
      simp
    · simp [hnn, Mem.slots_of_root hr hn']
  · have hne : (sid', n') ≠ (sid, n) := fun he => hsid (Prod.ext_iff.mp he).1
    rw [update_of_ne hne]
    cases hr' : roots sid' with
    | none => simp [Mem.slots, hr']
    | some root' =>
      rw [Mem.slots_of_root hr' hn', Mem.slots_of_root hr' hn']
      refine ((h.tree sid' root' hr').congr (fun p path hp => ?_) fun _ _ => Iff.rfl).2 n'
      exact Mem.write_of_ne_pa (h.ne_of_tableAt hr (by simp [tablePath]) ht hsid hp)

theorem tree_write (hr : roots sid = some root)
    (ht : m.mem.tableAt root (tablePath n) = some t) (w : Word) (sid' root' : ℕ)
    (hr' : roots sid' = some root') :
    Tree g.ram (m.mem.write t (index n 0) w) g.own sid' root' := by
  by_cases hsid : sid' = sid
  · subst hsid
    rw [hr] at hr'
    cases hr'
    exact ((h.tree sid' root hr).write_slot ht w).1
  · refine ((h.tree sid' root' hr').congr (fun p path hp => ?_) fun _ _ => Iff.rfl).1
    exact Mem.write_of_ne_pa (h.ne_of_tableAt hr (by simp [tablePath]) ht hsid hp)

end

theorem frames_update (ram : Ram) (σ : ℕ × ℕ → Word) (k : ℕ × ℕ) (w : Word) :
    (fun j => ram.frameOf (update σ k w j)) =
      update (fun j => ram.frameOf (σ j)) k (ram.frameOf w) := by
  funext j
  rcases eq_or_ne j k with rfl | hne
  · simp
  · simp [hne]

section

variable (h : Ledger m other roots g) (hr : roots sid = some root) (hn : n < kPageNumbers)
  (ht : m.mem.tableAt root (tablePath n) = some t)
include h hr hn ht

theorem write_none (hw : w.target = none) : Ledger (m.write t (index n 0) w) other roots
      (g.owed (g.ram.frameOf (m.mem.slots roots (sid, n)))) := by
  have hs := h.slots_write hr hn ht w
  have hf : g.ram.frameOf w = none := by simp [Ram.frameOf, hw]
  -- what a slot maps after the write it mapped before
  have hold {k : ℕ × ℕ} {p : ℕ} (hk : g.ram.frameOf
      (update (m.mem.slots roots) (sid, n) w k) = some p) :
      g.ram.frameOf (m.mem.slots roots k) = some p := by
    rcases eq_or_ne k (sid, n) with rfl | hne
    · rw [update_self, hf] at hk
      cases hk
    · rwa [update_of_ne hne] at hk
  refine { h with
    tree := h.tree_write hr ht w
    refs := ?_, target := ?_, same_page := ?_ } <;> rw [hs]
  · have := h.refs.lose (sid, n)
    rwa [← hf, ← frames_update] at this
  · intro k pa hk
    rcases eq_or_ne k (sid, n) with rfl | hne
    · rw [update_self, hw] at hk
      cases hk
    · rw [update_of_ne hne] at hk
      exact h.target k pa hk
  · exact fun k k' p hk hk' => h.same_page k k' p (hold hk) (hold hk')

theorem write_some (hw : w.target = some (g.ram.pageToPa p)) (hp : g.own p = .frame)
    (hl : 0 < owe g.leak (g.ram.frameOf (m.mem.slots roots (sid, n))) p)
    (hpage : ∀ k, g.ram.frameOf (m.mem.slots roots k) = some p → k.2 = n) :
    Ledger (m.write t (index n 0) w) other roots
      ((g.owed (g.ram.frameOf (m.mem.slots roots (sid, n)))).pay p) := by
  have hs := h.slots_write hr hn ht w
  have hlt := h.own_lt (by simp [hp] : g.own p ≠ .nobody)
  have hf : g.ram.frameOf w = some p := Ram.frameOf_eq hlt hw
  have hpage' {k : ℕ × ℕ} (hk : g.ram.frameOf
      (update (m.mem.slots roots) (sid, n) w k) = some p) : k.2 = n := by
    rcases eq_or_ne k (sid, n) with rfl | hne
    · rfl
    · rw [update_of_ne hne] at hk
      exact hpage k hk
  refine { h with
    tree := h.tree_write hr ht w
    refs := ?_, target := ?_, same_page := ?_ } <;> rw [hs]
  · have := h.refs.exchange (h.mem_slotKeys hr hn) hp hl
    rwa [← hf, ← frames_update] at this
  · intro k pa hk
    rcases eq_or_ne k (sid, n) with rfl | hne
    · rw [update_self, hw] at hk
      cases hk
      exact ⟨p, hlt, rfl⟩
    · rw [update_of_ne hne] at hk
      exact h.target k pa hk
  · intro k k' q hk hk'
    by_cases hq : q = p
    · subst hq
      rw [hpage' hk, hpage' hk']
    · have hold {k : ℕ × ℕ} (hk : g.ram.frameOf
          (update (m.mem.slots roots) (sid, n) w k) = some q) :
          g.ram.frameOf (m.mem.slots roots k) = some q := by
        rcases eq_or_ne k (sid, n) with rfl | hne
        · rw [update_self, hf] at hk
          exact absurd (Option.some.inj hk).symm hq
        · rwa [update_of_ne hne] at hk
      exact h.same_page k k' q (hold hk) (hold hk')

theorem write_kept (hold : g.ram.frameOf (m.mem.slots roots (sid, n)) = some p)
    (hw : w.target = some (g.ram.pageToPa p)) : Ledger (m.write t (index n 0) w) other roots g := by
  have hp := h.refs.alive _ _ hold
  have hpos : 0 < owe g.leak (g.ram.frameOf (m.mem.slots roots (sid, n))) p := by
    rw [hold, owe_apply, if_pos rfl]
    omega
  have hnew := h.write_some hr hn ht hw hp hpos fun k hk => h.same_page k (sid, n) p hk hold
  have hg : (g.owed (some p)).pay p = g := by
    simp only [Ghost.pay, Ghost.owed, update_owe_some]
  rwa [hold, hg] at hnew

end

/-! ## Tables -/

section

variable (h : Ledger m other roots g)
include h

theorem unmapped (hp : g.own p ≠ .frame) (k : ℕ × ℕ) :
    g.ram.frameOf (m.mem.slots roots k) ≠ some p :=
  fun hk => hp (h.refs.alive k p hk)

theorem retable {c sid : ℕ} {path : List ℕ} {mem' : Mem} {roots' : Roots} (hc : g.own c = .frame)
    (hfree : ∀ k, g.ram.frameOf (m.mem.slots roots k) ≠ some c)
    (hslots : mem'.slots roots' = m.mem.slots roots)
    (hroots : ∀ sid', (roots' sid').isSome ↔ (roots sid').isSome ∨ sid' = sid)
    (htree : ∀ sid' root, roots' sid' = some root →
      Tree g.ram mem' (update g.own c (.table sid path)) sid' root) :
    Ledger { m with mem := mem' } other roots' (g.addTable c sid path) := by
  have hframe (q : ℕ) : (g.addTable c sid path).own q = .frame ↔ g.own q = .frame ∧ q ≠ c := by
    rcases eq_or_ne q c with rfl | hne
    · simp [Ghost.addTable]
    · simp [Ghost.addTable, hne]
  constructor
  case cpu_lt => exact h.cpu_lt
  case ram_eq => exact h.ram_eq
  case pmm => exact h.pmm
  case mem_mine =>
    intro b
    refine (h.mem_mine b).trans ?_
    rcases eq_or_ne b.start c with he | hne
    · simp [Ghost.addTable, he, hc]
    · simp [Ghost.addTable, hne]
  case root_lt =>
    intro sid' root hr
    refine lt_max_iff.mpr ?_
    rcases (hroots sid').mp (by simp [hr]) with hold | rfl
    · obtain ⟨root', hr'⟩ := Option.isSome_iff_exists.mp hold
      exact .inl (h.root_lt sid' root' hr')
    · exact .inr (Nat.lt_succ_self _)
  case tree => exact htree
  case tabled =>
    intro p sid' path' hp
    rcases eq_or_ne p c with rfl | hne
    · simp only [Ghost.addTable, update_self, Owner.table.injEq] at hp
      exact .inl ((hroots sid').mpr (.inr hp.1.symm))
    · simp only [Ghost.addTable, update_of_ne hne] at hp
      exact (h.tabled p sid' path' hp).imp_left fun hs => (hroots sid').mpr (.inl hs)
  case refs =>
    dsimp only
    rw [hslots]
    refine (h.refs.free hfree hframe).extend fun k hk => ?_
    simp only [slotKeys, Finset.mem_product, Finset.mem_range] at hk ⊢
    exact ⟨lt_max_of_lt_left hk.1, hk.2⟩
  case target =>
    dsimp only
    rw [hslots]
    exact h.target
  case count_pos => exact fun p hp => h.count_pos p ((hframe p).mp hp).1
  case same_page =>
    dsimp only
    rw [hslots]
    exact h.same_page

theorem tree_of_other {sid' root' c : ℕ} (hsid : sid' ≠ sid)
    (hr : roots sid' = some root') (hc : g.own c = .frame) (path : List ℕ) {mem' : Mem}
    (hmem : ∀ p path, g.own p = .table sid' path →
      mem' (g.ram.pageToPa p) = m.mem (g.ram.pageToPa p)) :
    Tree g.ram mem' (update g.own c (.table sid path)) sid' root' ∧
      ∀ n, mem'.slot root' n = m.mem.slot root' n := by
  refine (h.tree sid' root' hr).congr hmem fun p path' => ?_
  rcases eq_or_ne p c with rfl | hne
  · simp only [update_self, hc, Owner.table.injEq, reduceCtorEq, iff_false, not_and]
    exact fun he => absurd he.symm hsid
  · rw [update_of_ne hne]

theorem link (hr : roots sid = some root) {up : List ℕ} {i c : ℕ}
    (hup : up.length ≤ 1) (ht : m.mem.tableAt root up = some t) (hi : ¬ (m.mem t i).IsValid)
    (hlt : i < kPtePerPage) (hc : g.own c = .frame)
    (hfree : ∀ k, g.ram.frameOf (m.mem.slots roots k) ≠ some c) :
    (m.mem.link t i (g.ram.pageToPa c)).slots roots = m.mem.slots roots ∧
      Ledger { m with mem := m.mem.link t i (g.ram.pageToPa c) } other roots
        (g.addTable c sid (i :: up)) := by
  have hne : g.own c ≠ .nobody := by simp [hc]
  have hinst := (h.tree sid root hr).install hup ht hi hlt (h.own_lt hne) (by simp [hc])
  -- the other address spaces have none of the two pages
  have hother (sid' root' : ℕ) (hsid : sid' ≠ sid) (hr' : roots sid' = some root') :
      Tree g.ram (m.mem.link t i (g.ram.pageToPa c))
          (update g.own c (.table sid (i :: up))) sid' root' ∧
        ∀ n, (m.mem.link t i (g.ram.pageToPa c)).slot root' n = m.mem.slot root' n := by
    refine h.tree_of_other hsid hr' hc _ fun p path hp => ?_
    refine Mem.link_of_ne_pa (h.ne_of_tableAt hr (by omega) ht hsid hp) fun he => ?_
    rw [g.ram.pageToPa_injective he, hc] at hp
    cases hp
  have hslots : (m.mem.link t i (g.ram.pageToPa c)).slots roots = m.mem.slots roots := by
    refine Mem.slots_congr fun sid' root' n hr' => ?_
    by_cases hsid : sid' = sid
    · subst hsid
      rw [hr] at hr'
      cases hr'
      exact hinst.2 n
    · exact (hother sid' root' hsid hr').2 n
  refine ⟨hslots, h.retable hc hfree hslots (fun sid' => ?_) fun sid' root' hr' => ?_⟩
  · refine ⟨.inl, ?_⟩
    rintro (hs | rfl)
    · exact hs
    · simp [hr]
  · by_cases hsid : sid' = sid
    · subst hsid
      rw [hr] at hr'
      cases hr'
      exact hinst.1
    · exact (hother sid' root' hsid hr').1

end

theorem tree_empty {ram : Ram} {mem : Mem} {own : ℕ → Owner} {p sid : ℕ} (hp : p < ram.numPages)
    (hzero : ∀ i, mem (ram.pageToPa p) i = 0) (hown : ∀ q path, own q = .table sid path ↔
      q = p ∧ path = []) : Tree ram mem own sid (ram.pageToPa p) ∧
        ∀ n, mem.slot (ram.pageToPa p) n = 0 := by
  have hnone : ∀ path : List ℕ, path ≠ [] → mem.tableAt (ram.pageToPa p) path = none := by
    intro path
    induction path with
    | nil => exact fun h => absurd rfl h
    | cons i up ih =>
      intro _
      cases up with
      | nil => exact Mem.tableAt_cons_none rfl (by rw [hzero]; exact Tree.not_isValid_zero)
      | cons j up => rw [Mem.tableAt, ih (by simp)]
  have hroot {path : List ℕ} {t : ℕ} (ht : mem.tableAt (ram.pageToPa p) path = some t) :
      path = [] ∧ t = ram.pageToPa p := by
    by_cases he : path = []
    · subst he
      exact ⟨rfl, (Option.some.inj ht).symm⟩
    · rw [hnone path he] at ht
      cases ht
  refine ⟨⟨fun path t _ ht => ?_, fun path t i _ ht => ?_, fun q path hq => ?_⟩, fun n => ?_⟩
  · obtain ⟨rfl, rfl⟩ := hroot ht
    exact ⟨p, hp, rfl, (hown p []).mpr ⟨rfl, rfl⟩⟩
  · obtain ⟨rfl, rfl⟩ := hroot ht
    rw [hzero]
    exact fun hv => absurd hv Tree.not_isValid_zero
  · obtain ⟨rfl, rfl⟩ := (hown q path).mp hq
    exact ⟨by simp, by simp, rfl⟩
  · exact Mem.slot_of_none (hnone _ (by simp [tablePath]))

/-! ## Address spaces come and go -/

theorem addRoot (h : Ledger m other roots g) (hd : g.dying = none) {c : ℕ} (hc : g.own c = .frame)
    (hfree : ∀ k, g.ram.frameOf (m.mem.slots roots k) ≠ some c) (hnone : roots sid = none) :
    (m.fill (g.ram.pageToPa c) fun _ => 0).mem.slots
        (update roots sid (some (g.ram.pageToPa c))) = m.mem.slots roots ∧
      Ledger (m.fill (g.ram.pageToPa c) fun _ => 0) other
        (update roots sid (some (g.ram.pageToPa c))) (g.addTable c sid []) := by
  have hne : g.own c ≠ .nobody := by simp [hc]
  have hown (q : ℕ) (path : List ℕ) :
      update g.own c (.table sid []) q = .table sid path ↔ q = c ∧ path = [] := by
    rcases eq_or_ne q c with rfl | hqc
    · simp [eq_comm]
    · -- no other page is a table of an address space that did not exist
      simp only [update_of_ne hqc, hqc, false_and, iff_false]
      intro hq
      rcases h.tabled q sid path hq with hs | hs
      · simp [hnone] at hs
      · simp [hd] at hs
  have hzero (i : ℕ) : (m.fill (g.ram.pageToPa c) fun _ => 0).mem (g.ram.pageToPa c) i = 0 := by
    simp [Machine.fill]
  have hempty := tree_empty (h.own_lt hne) hzero hown
  have hother (sid' root' : ℕ) (hsid : sid' ≠ sid) (hr' : roots sid' = some root') :
      Tree g.ram (m.fill (g.ram.pageToPa c) fun _ => 0).mem
          (update g.own c (.table sid [])) sid' root' ∧
        ∀ n, (m.fill (g.ram.pageToPa c) fun _ => 0).mem.slot root' n = m.mem.slot root' n := by
    refine h.tree_of_other hsid hr' hc _ fun p path hp => ?_
    refine Machine.fill_of_ne fun he => ?_
    rw [g.ram.pageToPa_injective he, hc] at hp
    cases hp
  have hslots : (m.fill (g.ram.pageToPa c) fun _ => 0).mem.slots
      (update roots sid (some (g.ram.pageToPa c))) = m.mem.slots roots := by
    funext k
    rw [Mem.slots, Mem.slots]
    by_cases hk : k.1 = sid
    · simp only [hk, update_self, hnone, hempty.2]
    · rw [update_of_ne hk]
      cases hr' : roots k.1 with
      | none => rfl
      | some root' => simp only [(hother k.1 root' hk hr').2]
  refine ⟨hslots, h.retable hc hfree hslots (fun sid' => ?_) fun sid' root' hr' => ?_⟩
  · rcases eq_or_ne sid' sid with rfl | hne
    · simp
    · simp [hne]
  · rcases eq_or_ne sid' sid with rfl | hne
    · rw [update_self] at hr'
      cases hr'
      exact hempty.1
    · rw [update_of_ne hne] at hr'
      exact (hother sid' root' hne hr').1

/-- The slots of one address space. -/
def keysOf (bound sid : ℕ) : Finset (ℕ × ℕ) := (slotKeys bound).filter fun k => k.1 = sid

theorem slots_kill (mem : Mem) (roots : Roots) (sid : ℕ) (k : ℕ × ℕ) :
    mem.slots (update roots sid none) k = if k.1 = sid then 0 else mem.slots roots k := by
  rw [Mem.slots, Mem.slots]
  split
  · rename_i hk
    rcases eq_or_ne k.1 sid with he | hne
    · simp [he]
    · simp [hne]
  · simp

theorem kill (h : Ledger m other roots g) (hd : g.dying = none) (sid : ℕ) :
    Ledger m other (update roots sid none) { g with
        leak := fun p => g.leak p +
          fiber (keysOf g.bound sid) (fun k => g.ram.frameOf (m.mem.slots roots k)) p
        dying := some sid } := by
  have hroots {sid' root : ℕ} (hr : update roots sid none sid' = some root) :
      roots sid' = some root := by
    rcases eq_or_ne sid' sid with rfl | hne
    · simp at hr
    · rwa [update_of_ne hne] at hr
  have hold {k : ℕ × ℕ} {p : ℕ} (hk : g.ram.frameOf
      (m.mem.slots (update roots sid none) k) = some p) :
      g.ram.frameOf (m.mem.slots roots k) = some p := by
    rw [slots_kill] at hk
    split at hk
    · simp [Ram.frameOf] at hk
    · exact hk
  refine { h with
    root_lt := fun sid' root hr => h.root_lt sid' root (hroots hr)
    tree := fun sid' root hr => h.tree sid' root (hroots hr)
    tabled := fun p sid' path hp => ?_
    refs := h.refs.forget (fun k => k.1 = sid) fun k => ?_
    target := fun k pa hk => ?_
    same_page := fun k k' p hk hk' => h.same_page k k' p (hold hk) (hold hk') }
  · rcases eq_or_ne sid' sid with rfl | hne
    · exact .inr rfl
    · rw [update_of_ne hne]
      refine .inl ((h.tabled p sid' path hp).resolve_right ?_)
      simp [hd]
  · rw [slots_kill]
    split <;> simp [Ram.frameOf]
  · rw [slots_kill] at hk
    split at hk
    · simp at hk
    · exact h.target k pa hk

theorem bury (h : Ledger m other roots g) (hd : g.dying = some sid)
    (hgone : ∀ p path, g.own p ≠ .table sid path) :
    Ledger m other roots { g with dying := none } := by
  refine { h with tabled := fun p sid' path hp => .inl ((h.tabled p sid' path hp).resolve_right ?_) }
  rw [hd]
  rintro ⟨⟩
  exact hgone p path hp

end Ledger

end Lume
