import Mathlib.Data.Finset.Card
import Mathlib.Data.Finset.Range
import Mathlib.Data.List.Chain
import Mathlib.Data.List.Nodup
import Mathlib.Data.Sum.Basic
import Mathlib.Logic.Function.Basic

/-!
# Intrusive rings

Circular doubly linked lists whose nodes lie inside the objects they link. A node is a list head
or the link of an element; `Links` is the memory of all of them, and the operations are the
pointer assignments of the usual C idiom. A family of heads whose rings share no element is
described by the list of elements of each head.

## Main definitions

* `Links.init`, `Links.pushBack`, `Links.unlink`: the pointer assignments
* `Links.walk`: the elements met from a head
* `Rings l L`: the ring of head `i` holds the elements `L i`, and no element is on two rings

## Main results

* `Rings.pushBack`, `Rings.unlink`, `Rings.takeOff`, `Rings.initHead`, `Rings.initElem`: the rings
  after an operation
* `Rings.first`, `Rings.isEmpty`, `Rings.walk`: what is read
-/

namespace Lume

open Function (update update_apply update_of_ne update_self)

variable {ι β : Type*} [DecidableEq ι] [DecidableEq β]

/-- The links of a family of list heads `ι` and of elements `β`. -/
structure Links (ι β : Type*) where
  prev : ι ⊕ β → ι ⊕ β
  next : ι ⊕ β → ι ⊕ β

namespace Links

/-- Point a node to itself. -/
def init (l : Links ι β) (n : ι ⊕ β) : Links ι β :=
  ⟨update l.prev n n, update l.next n n⟩

def setPrev (l : Links ι β) (n m : ι ⊕ β) : Links ι β := { l with prev := update l.prev n m }

def setNext (l : Links ι β) (n m : ι ⊕ β) : Links ι β := { l with next := update l.next n m }

/-- Link element `x` in at the tail of the ring of head `i`. -/
def pushBack (l : Links ι β) (i : ι) (x : β) : Links ι β :=
  let l₁ := l.setPrev (.inr x) (l.prev (.inl i))
  let l₂ := l₁.setNext (.inr x) (.inl i)
  let l₃ := l₂.setNext (l₂.prev (.inl i)) (.inr x)
  l₃.setPrev (.inl i) (.inr x)

/-- Take element `x` out of the ring it is on. -/
def unlink (l : Links ι β) (x : β) : Links ι β :=
  let l₁ := l.setNext (l.prev (.inr x)) (l.next (.inr x))
  l₁.setPrev (l₁.next (.inr x)) (l₁.prev (.inr x))

def isEmpty (l : Links ι β) (i : ι) : Bool := l.next (.inl i) = .inl i

/-- The first element of the ring of head `i`. -/
def first (l : Links ι β) (i : ι) : Option β := (l.next (.inl i)).getRight?

/-- The elements met from node `n` on, up to a head. -/
def walk (l : Links ι β) : ℕ → ι ⊕ β → List β
  | 0, _ => []
  | _ + 1, .inl _ => []
  | fuel + 1, .inr x => x :: l.walk fuel (l.next (.inr x))

/-- Node `b` follows node `a`, and knows it. -/
def Adj (l : Links ι β) (a b : ι ⊕ β) : Prop := l.next a = b ∧ l.prev b = a

/-- From head `i` the links lead through `xs` and back. -/
def Ring (l : Links ι β) (i : ι) (xs : List β) : Prop :=
  (.inl i :: (xs.map .inr ++ [.inl i])).IsChain l.Adj

variable {l l' : Links ι β}

theorem next_pushBack (l : Links ι β) (i : ι) (x : β) (n : ι ⊕ β) : (l.pushBack i x).next n =
      if n = l.prev (.inl i) then .inr x else if n = .inr x then .inl i else l.next n := by
  simp [pushBack, setNext, setPrev, update_apply]

theorem prev_pushBack (l : Links ι β) (i : ι) (x : β) (n : ι ⊕ β) : (l.pushBack i x).prev n =
      if n = .inl i then .inr x else if n = .inr x then l.prev (.inl i) else l.prev n := by
  simp [pushBack, setNext, setPrev, update_apply]

theorem next_unlink (l : Links ι β) (x : β) (n : ι ⊕ β) :
    (l.unlink x).next n = if n = l.prev (.inr x) then l.next (.inr x) else l.next n := by
  simp [unlink, setNext, setPrev, update_apply]

theorem prev_unlink (l : Links ι β) (x : β) (n : ι ⊕ β) :
    (l.unlink x).prev n = if n = l.next (.inr x) then l.prev (.inr x) else l.prev n := by
  simp only [unlink, setNext, setPrev, update_apply, ite_self]

omit [DecidableEq ι] [DecidableEq β] in
/-- A chain depends on the `next` links of its nodes but the last one and on the `prev` links
of its nodes but the first one. -/
theorem chain_congr {a : ι ⊕ β} {ns : List (ι ⊕ β)} (h : (a :: ns).IsChain l.Adj)
    (hnext : ∀ n ∈ (a :: ns).dropLast, l'.next n = l.next n)
    (hprev : ∀ n ∈ ns, l'.prev n = l.prev n) : (a :: ns).IsChain l'.Adj := by
  induction ns generalizing a with
  | nil => exact .singleton _
  | cons b ns ih =>
    rw [List.isChain_cons_cons] at h ⊢
    refine ⟨⟨?_, ?_⟩, ih h.2 (fun n hn => hnext n (by simp [hn])) fun n hn => hprev n (by simp [hn])⟩
    · rw [hnext a (by simp), h.1.1]
    · rw [hprev b (by simp), h.1.2]

omit [DecidableEq ι] [DecidableEq β] in
theorem Ring.congr {i : ι} {xs : List β} (h : l.Ring i xs)
    (hhead : l'.next (.inl i) = l.next (.inl i) ∧ l'.prev (.inl i) = l.prev (.inl i))
    (helem : ∀ x ∈ xs, l'.next (.inr x) = l.next (.inr x) ∧ l'.prev (.inr x) = l.prev (.inr x)) :
    l'.Ring i xs := by
  have hnode (n : ι ⊕ β) (hn : n ∈ .inl i :: (xs.map .inr ++ [.inl i])) :
      l'.next n = l.next n ∧ l'.prev n = l.prev n := by
    simp only [List.mem_cons, List.mem_append, List.mem_map, List.not_mem_nil, or_false] at hn
    rcases hn with rfl | ⟨x, hx, rfl⟩ | rfl
    exacts [hhead, helem x hx, hhead]
  exact chain_congr h (fun n hn => (hnode n (List.dropLast_subset _ hn)).1)
    fun n hn => (hnode n (List.mem_cons_of_mem _ hn)).2

end Links

/-- The ring of each head `i` holds the elements `L i`, and no element is on two rings. -/
structure Rings (l : Links ι β) (L : ι → List β) : Prop where
  ring : ∀ i, l.Ring i (L i)
  nodup : ∀ i, (L i).Nodup
  disjoint : ∀ {i j x}, x ∈ L i → x ∈ L j → i = j

namespace Rings

variable {l : Links ι β} {L : ι → List β} {i : ι} {x : β} {as bs : List β}

/-! ## The nodes of a ring -/

/-- The nodes of a ring, up to the place after the elements `as`. -/
def upTo (i : ι) (as : List β) : List (ι ⊕ β) := .inl i :: as.map .inr

/-- The nodes of a ring, from the place before the elements `bs` back to the head. -/
def onFrom (i : ι) (bs : List β) : List (ι ⊕ β) := bs.map .inr ++ [.inl i]

omit [DecidableEq ι] [DecidableEq β] in
theorem ring_split (h : Rings l L) (hL : L i = as ++ bs) :
    (upTo i as).IsChain l.Adj ∧ (onFrom i bs).IsChain l.Adj ∧
      ∀ a ∈ (upTo i as).getLast?, ∀ b ∈ (onFrom i bs).head?, l.Adj a b := by
  have hring := h.ring i
  rw [Links.Ring, hL, List.map_append, List.append_assoc, ← List.cons_append] at hring
  exact List.isChain_append.mp hring

omit [DecidableEq ι] [DecidableEq β] in
theorem upTo_eq (i : ι) (as : List β) : ∃ pre p, upTo i as = pre ++ [p] :=
  ⟨_, _, (List.dropLast_append_getLast (List.cons_ne_nil _ _)).symm⟩

omit [DecidableEq ι] [DecidableEq β] in
theorem onFrom_eq (i : ι) (bs : List β) : ∃ s post, onFrom i bs = s :: post := by
  cases bs with
  | nil => exact ⟨_, _, rfl⟩
  | cons b bs => exact ⟨_, _, rfl⟩

omit [DecidableEq ι] [DecidableEq β] in
theorem mem_upTo {n : ι ⊕ β} : n ∈ upTo i as ↔ n = .inl i ∨ ∃ a ∈ as, n = .inr a := by
  simp [upTo, eq_comm]

omit [DecidableEq ι] [DecidableEq β] in
theorem mem_onFrom {n : ι ⊕ β} : n ∈ onFrom i bs ↔ n = .inl i ∨ ∃ b ∈ bs, n = .inr b := by
  simp [onFrom, eq_comm, or_comm]

omit [DecidableEq ι] [DecidableEq β] in
theorem upTo_nodup (h : as.Nodup) : (upTo i as).Nodup := by
  rw [upTo, List.nodup_cons]
  exact ⟨by simp, h.map Sum.inr_injective⟩

omit [DecidableEq ι] [DecidableEq β] in
theorem onFrom_nodup (h : bs.Nodup) : (onFrom i bs).Nodup := by
  rw [onFrom, List.nodup_append]
  exact ⟨h.map Sum.inr_injective, List.nodup_singleton _, by simp⟩

omit [DecidableEq ι] [DecidableEq β] in
theorem around (h : Rings l L) (hL : L i = as ++ bs) {pre post : List (ι ⊕ β)} {p s : ι ⊕ β}
    (hp : upTo i as = pre ++ [p]) (hs : onFrom i bs = s :: post) :
    (pre ++ [p]).IsChain l.Adj ∧ (s :: post).IsChain l.Adj ∧ l.Adj p s := by
  obtain ⟨hup, hon, hadj⟩ := h.ring_split hL
  rw [hp, hs] at hadj
  exact ⟨hp ▸ hup, hs ▸ hon, hadj p (by simp) s (by simp)⟩

omit [DecidableEq ι] [DecidableEq β] in
theorem ring_other (h : Rings l L) {l' : Links ι β} {j : ι} (hj : j ≠ i) (hx : x ∉ L j)
    (hl : ∀ n, n ≠ .inl i → (∀ a ∈ L i, n ≠ .inr a) → n ≠ .inr x →
      l'.next n = l.next n ∧ l'.prev n = l.prev n) : l'.Ring j (L j) := by
  refine (h.ring j).congr (hl _ (by simpa using hj) (by simp) (by simp)) fun y hy => ?_
  refine hl _ (by simp) (fun a ha hay => ?_) fun hyx => ?_
  · cases hay
    exact hj (h.disjoint hy ha)
  · cases hyx
    exact hx hy

/-! ## The operations -/

omit [DecidableEq β] in
theorem mem_update_append {j : ι} {y : β} :
    y ∈ update L i (L i ++ [x]) j ↔ y ∈ L j ∨ j = i ∧ y = x := by
  rcases eq_or_ne j i with rfl | hj
  · simp
  · simp [hj]

theorem pushBack (h : Rings l L) (hx : ∀ j, x ∉ L j) (i : ι) :
    Rings (l.pushBack i x) (update L i (L i ++ [x])) := by
  obtain ⟨pre, p, hp⟩ := upTo_eq i (L i)
  have hL : L i = L i ++ [] := by simp
  obtain ⟨hup, -, hadj⟩ := h.around hL hp rfl
  have hnodup := hp ▸ upTo_nodup (i := i) (h.nodup i)
  have hmem : p = .inl i ∨ ∃ a ∈ L i, p = .inr a := mem_upTo.mp (hp ▸ by simp)
  have hnew {n : ι ⊕ β} (hn : n ∈ pre ++ [p]) : n ≠ .inr x := by
    rintro rfl
    rcases mem_upTo.mp (hp ▸ hn) with hn | ⟨a, ha, hn⟩
    · cases hn
    · cases hn
      exact hx i ha
  refine ⟨fun j => ?_, fun j => ?_, fun {j k y} hj hk => ?_⟩
  · rcases eq_or_ne j i with rfl | hj
    · rw [update_self, Links.Ring, List.map_append, List.append_assoc, ← List.cons_append]
      change (upTo j (L j) ++ [Sum.inr x, Sum.inl j]).IsChain _
      have hnext : (l.pushBack j x).next p = .inr x := by rw [Links.next_pushBack, hadj.2, if_pos rfl]
      have hprev : (l.pushBack j x).prev (.inr x) = p := by
        rw [Links.prev_pushBack, if_neg (by simp), if_pos rfl, hadj.2]
      have hnext' : (l.pushBack j x).next (.inr x) = .inl j := by
        rw [Links.next_pushBack, hadj.2, if_neg (hnew (by simp)).symm, if_pos rfl]
      have hprev' : (l.pushBack j x).prev (.inl j) = .inr x := by rw [Links.prev_pushBack, if_pos rfl]
      rw [hp, List.isChain_append]
      refine ⟨?_, by simp [Links.Adj, hnext', hprev'], by simp [Links.Adj, hnext, hprev]⟩
      -- the nodes up to the old tail keep their links
      rw [← hp, upTo]
      refine Links.chain_congr (upTo.eq_1 j (L j) ▸ hp ▸ hup) (fun n hn => ?_) fun n hn => ?_
      · change n ∈ (upTo j (L j)).dropLast at hn
        rw [hp, List.dropLast_concat] at hn
        have hne : n ≠ p := by
          rintro rfl
          exact (List.nodup_append.mp hnodup).2.2 n hn n (by simp) rfl
        rw [Links.next_pushBack, hadj.2, if_neg hne, if_neg (hnew (by simp [hn]))]
      · obtain ⟨a, ha, rfl⟩ := List.mem_map.mp hn
        have hne : a ≠ x := by
          rintro rfl
          exact hx j ha
        rw [Links.prev_pushBack, if_neg (by simp), if_neg (by simpa using hne)]
    · rw [update_of_ne hj]
      refine h.ring_other hj (hx j) fun n hi hL hn => ?_
      have hnp : n ≠ p := by
        rcases hmem with rfl | ⟨a, ha, rfl⟩
        exacts [hi, hL a ha]
      rw [Links.next_pushBack, hadj.2, if_neg hnp, if_neg hn, Links.prev_pushBack, if_neg hi, if_neg hn]
      exact ⟨rfl, rfl⟩
  · rcases eq_or_ne j i with rfl | hj
    · rw [update_self]
      exact List.nodup_append.mpr ⟨h.nodup j, List.nodup_singleton _, by
        rintro a ha b hb rfl
        exact hx j (List.mem_singleton.mp hb ▸ ha)⟩
    · rw [update_of_ne hj]
      exact h.nodup j
  · rcases mem_update_append.mp hj with hyj | ⟨rfl, rfl⟩ <;>
      rcases mem_update_append.mp hk with hyk | ⟨rfl, hyx⟩
    · exact h.disjoint hyj hyk
    · subst hyx
      exact absurd hyj (hx _)
    · exact absurd hyk (hx _)
    · rfl

omit [DecidableEq β] in
theorem of_sublist (h : Rings l L) {l' : Links ι β} {as' : List β} (hsub : as'.Sublist (L i))
    (hring : ∀ j, l'.Ring j (update L i as' j)) : Rings l' (update L i as') := by
  have hmem {j : ι} {y : β} (hy : y ∈ update L i as' j) : y ∈ L j := by
    rcases eq_or_ne j i with rfl | hj
    · rw [update_self] at hy
      exact hsub.subset hy
    · rwa [update_of_ne hj] at hy
  refine ⟨hring, fun j => ?_, fun hj hk => h.disjoint (hmem hj) (hmem hk)⟩
  rcases eq_or_ne j i with rfl | hj
  · rw [update_self]
    exact (h.nodup j).sublist hsub
  · rw [update_of_ne hj]
    exact h.nodup j

theorem unlink (h : Rings l L) (hx : x ∈ L i) :
    Rings (l.unlink x) (update L i ((L i).erase x)) := by
  refine h.of_sublist List.erase_sublist fun j => ?_
  obtain ⟨as, bs, hL⟩ := List.append_of_mem hx
  have hnodup := hL ▸ h.nodup i
  have hxas : x ∉ as := fun hx => (List.nodup_append.mp hnodup).2.2 x hx x (by simp) rfl
  have herase : (L i).erase x = as ++ bs := by
    rw [hL, List.erase_append_right _ hxas, List.erase_cons_head]
  have hnodup' : (as ++ bs).Nodup := herase ▸ (h.nodup i).erase x
  obtain ⟨pre, p, hp⟩ := upTo_eq i as
  obtain ⟨s, post, hs⟩ := onFrom_eq i bs
  obtain ⟨hup, -, hprev⟩ := h.around hL hp rfl
  have hL' : L i = (as ++ [x]) ++ bs := by simp [hL]
  have hp' : upTo i (as ++ [x]) = upTo i as ++ [.inr x] := by simp [upTo]
  obtain ⟨-, hon, hnext⟩ := h.around hL' hp' hs
  have hpmem : p = .inl i ∨ ∃ a ∈ as, p = .inr a := mem_upTo.mp (hp ▸ by simp)
  have hsmem : s = .inl i ∨ ∃ b ∈ bs, s = .inr b := mem_onFrom.mp (hs ▸ by simp)
  rcases eq_or_ne j i with rfl | hj
  · rw [update_self, herase, Links.Ring, List.map_append, List.append_assoc,
      ← List.cons_append]
    change (upTo j as ++ onFrom j bs).IsChain _
    have hadj : (l.unlink x).Adj p s := by
      refine ⟨?_, ?_⟩
      · rw [Links.next_unlink, hprev.2, if_pos rfl, hnext.1]
      · rw [Links.prev_unlink, hnext.1, if_pos rfl, hprev.2]
    rw [List.isChain_append, hp, hs]
    refine ⟨?_, ?_, by simpa using hadj⟩
    · -- up to the predecessor of `x`
      rw [← hp, upTo]
      refine Links.chain_congr (upTo.eq_1 j as ▸ hp ▸ hup) (fun n hn => ?_) fun n hn => ?_
      · change n ∈ (upTo j as).dropLast at hn
        rw [hp, List.dropLast_concat] at hn
        have hnp : n ≠ p := by
          rintro rfl
          have hnd := hp ▸ upTo_nodup (i := j) (List.nodup_append.mp hnodup').1
          exact (List.nodup_append.mp hnd).2.2 n hn n (by simp) rfl
        rw [Links.next_unlink, hprev.2, if_neg hnp]
      · obtain ⟨a, ha, rfl⟩ := List.mem_map.mp hn
        have hns : Sum.inr a ≠ s := by
          rcases hsmem with rfl | ⟨b, hb, rfl⟩
          · simp
          · intro he
            cases he
            exact (List.nodup_append.mp hnodup').2.2 a ha a hb rfl
        rw [Links.prev_unlink, hnext.1, if_neg hns]
    · -- from the successor of `x` on
      refine Links.chain_congr hon (fun n hn => ?_) fun n hn => ?_
      · have hnb : ∃ b ∈ bs, n = .inr b := by
          rw [← hs, onFrom, List.dropLast_concat] at hn
          obtain ⟨b, hb, rfl⟩ := List.mem_map.mp hn
          exact ⟨b, hb, rfl⟩
        obtain ⟨b, hb, rfl⟩ := hnb
        have hnp : Sum.inr b ≠ p := by
          rcases hpmem with rfl | ⟨a, ha, rfl⟩
          · simp
          · intro he
            cases he
            exact (List.nodup_append.mp hnodup').2.2 b ha b hb rfl
        rw [Links.next_unlink, hprev.2, if_neg hnp]
      · have hnd := hs ▸ onFrom_nodup (i := j) (List.nodup_append.mp hnodup').2.1
        have hns : n ≠ s := by
          rintro rfl
          exact (List.nodup_cons.mp hnd).1 hn
        rw [Links.prev_unlink, hnext.1, if_neg hns]
  · rw [update_of_ne hj]
    have hxj : x ∉ L j := fun hxj => hj (h.disjoint hxj hx)
    refine h.ring_other hj hxj fun n hi hni _ => ?_
    have hnp : n ≠ p := by
      rcases hpmem with rfl | ⟨a, ha, rfl⟩
      exacts [hi, hni a (by simp [hL, ha])]
    have hns : n ≠ s := by
      rcases hsmem with rfl | ⟨b, hb, rfl⟩
      exacts [hi, hni b (by simp [hL, hb])]
    rw [Links.next_unlink, hprev.2, if_neg hnp, Links.prev_unlink, hnext.1, if_neg hns]
    exact ⟨rfl, rfl⟩

theorem initHead (h : Rings l L) (i : ι) : Rings (l.init (.inl i)) (update L i []) := by
  refine h.of_sublist (List.nil_sublist _) fun j => ?_
  rcases eq_or_ne j i with rfl | hj
  · simp [Links.Ring, Links.Adj, Links.init]
  · rw [update_of_ne hj]
    refine (h.ring j).congr ?_ fun y _ => ?_
    all_goals simp [Links.init, hj]

theorem initElem (h : Rings l L) (hx : ∀ j, x ∉ L j) : Rings (l.init (.inr x)) L := by
  refine ⟨fun j => ?_, h.nodup, h.disjoint⟩
  refine (h.ring j).congr (by simp [Links.init]) fun y hy => ?_
  have hne : y ≠ x := by
    rintro rfl
    exact hx j hy
  simp [Links.init, hne]

theorem takeOff (h : Rings l L) (hx : x ∈ L i) :
    Rings ((l.unlink x).init (.inr x)) (update L i ((L i).erase x)) := by
  refine (h.unlink hx).initElem fun j hj => ?_
  rcases eq_or_ne j i with rfl | hne
  · rw [update_self] at hj
    exact (h.nodup j).not_mem_erase hj
  · rw [update_of_ne hne] at hj
    exact hne (h.disjoint hj hx)

/-! ## What is read -/

omit [DecidableEq ι] [DecidableEq β] in
theorem next_head (h : Rings l L) (i : ι) :
    l.next (.inl i) = match L i with | [] => .inl i | x :: _ => .inr x := by
  have hring := h.ring i
  rw [Links.Ring] at hring
  split
  · rename_i he
    rw [he] at hring
    exact (List.isChain_cons_cons.mp hring).1.1
  · rename_i x xs he
    rw [he] at hring
    exact (List.isChain_cons_cons.mp hring).1.1

theorem isEmpty (h : Rings l L) (i : ι) : l.isEmpty i = true ↔ L i = [] := by
  rw [Links.isEmpty, decide_eq_true_iff, h.next_head]
  cases L i <;> simp

omit [DecidableEq ι] [DecidableEq β] in
theorem first (h : Rings l L) (i : ι) : l.first i = (L i).head? := by
  rw [Links.first, h.next_head]
  cases L i <;> rfl

omit [DecidableEq ι] [DecidableEq β] in
theorem walk_chain {xs : List β} {n : ι ⊕ β} {fuel : ℕ}
    (h : (n :: (xs.map .inr ++ [.inl i])).IsChain l.Adj) (hfuel : xs.length < fuel) :
    l.walk fuel (l.next n) = xs := by
  obtain ⟨fuel, rfl⟩ : ∃ f, fuel = f + 1 := ⟨fuel - 1, by omega⟩
  induction xs generalizing n fuel with
  | nil =>
    rw [(List.isChain_cons_cons.mp h).1.1]
    rfl
  | cons x xs ih =>
    obtain ⟨hadj, hrest⟩ := List.isChain_cons_cons.mp h
    rw [List.length_cons] at hfuel
    obtain ⟨fuel, rfl⟩ : ∃ f, fuel = f + 1 := ⟨fuel - 1, by omega⟩
    rw [hadj.1, Links.walk, ih hrest _ (by omega)]

omit [DecidableEq ι] [DecidableEq β] in
theorem walk (h : Rings l L) {fuel : ℕ} (hfuel : (L i).length < fuel) :
    l.walk fuel (l.next (.inl i)) = L i :=
  walk_chain (h.ring i) hfuel

omit [DecidableEq ι] in
theorem walk_lt {l : Links ι ℕ} {L : ι → List ℕ} (h : Rings l L) {n : ℕ} (hlt : ∀ x ∈ L i, x < n) :
    l.walk (n + 1) (l.next (.inl i)) = L i := by
  have hsub : (L i).toFinset ⊆ Finset.range n := by
    intro x hx
    exact Finset.mem_range.mpr (hlt x (List.mem_toFinset.mp hx))
  have hcard := Finset.card_le_card hsub
  rw [List.toFinset_card_of_nodup (h.nodup i), Finset.card_range] at hcard
  exact h.walk (Nat.lt_succ_of_le hcard)

end Rings

end Lume
