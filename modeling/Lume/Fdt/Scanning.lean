import Lume.Fdt.Unflatten

/-!
# Scans of an encoded tree

A walk over an encoding of a device tree sees the nodes in pre-order, each with its properties. The
early scans look for the first node that answers their question. What they need to know about the
ancestors of a node they keep in their state, and restore when they leave it. `Scans` says this for
a walk, node by node, and `Scans.walk_eq` is what follows for the whole tree.

## Main definitions

* `FdtWalker.through`: a walk over a list of tokens
* `DeviceTree.preorder`: the nodes of a tree in pre-order, with what they have from their ancestors
* `Gives`: what a part of a scan gives
* `Scans`: a walk is a search in pre-order

## Main results

* `FdtWalker.walk_through`: a walk over a blob is a walk over the tokens of the tree
* `Scans.tree`: what the tokens of a tree give
* `Scans.walk_eq`: what the walk gives
-/

namespace Lume

variable {σ α γ : Type}

/-! ## Walks over lists of tokens -/

/-- Go on with `f` if the walk has not ended. -/
def andThen (r : Option (σ ⊕ WalkEnd α)) (f : σ → Option (σ ⊕ WalkEnd α)) :
    Option (σ ⊕ WalkEnd α) :=
  r.bind (Sum.elim f fun e => some (.inr e))

@[simp] theorem andThen_none (f : σ → Option (σ ⊕ WalkEnd α)) : andThen none f = none := rfl

@[simp] theorem andThen_inl (s : σ) (f : σ → Option (σ ⊕ WalkEnd α)) :
    andThen (some (.inl s)) f = f s := rfl

@[simp] theorem andThen_inr (e : WalkEnd α) (f : σ → Option (σ ⊕ WalkEnd α)) :
    andThen (some (.inr e)) f = some (.inr e) := rfl

theorem andThen_assoc (r : Option (σ ⊕ WalkEnd α)) (f g : σ → Option (σ ⊕ WalkEnd α)) :
    andThen (andThen r f) g = andThen r fun s => andThen (f s) g := by
  rcases r with _ | s | e <;> rfl

namespace FdtWalker

variable {w : FdtWalker σ α} {b : FdtBlob} {dtStruct dtStrings : ℕ} {s : σ} {tok : FdtToken}
  {toks : List FdtToken}

/-- A walk over some tokens. -/
def through (w : FdtWalker σ α) (b : FdtBlob) (dtStrings : ℕ) :
    σ → List FdtToken → Option (σ ⊕ WalkEnd α)
  | s, [] => some (.inl s)
  | s, tok :: toks => andThen (w.onToken b dtStrings s tok) fun t => w.through b dtStrings t toks

theorem through_append (s : σ) (toks toks' : List FdtToken) :
    w.through b dtStrings s (toks ++ toks') =
      andThen (w.through b dtStrings s toks) fun t => w.through b dtStrings t toks' := by
  induction toks generalizing s with
  | nil => rfl
  | cons tok toks ih =>
    rw [List.cons_append, through, through, andThen_assoc]
    simp only [ih]

theorem through_singleton : w.through b dtStrings s [tok] = w.onToken b dtStrings s tok := by
  rw [through]
  rcases w.onToken b dtStrings s tok with _ | t | e <;> rfl

theorem through_nops (hnop : ∀ s, w.onToken b dtStrings s .nop = some (.inl s)) (s : σ)
    (toks : List FdtToken) :
    w.through b dtStrings s (toks.filter fun tok => tok ≠ .nop) = w.through b dtStrings s toks := by
  induction toks generalizing s with
  | nil => rfl
  | cons tok toks ih =>
    by_cases htok : tok = .nop
    · subst htok
      rw [List.filter_cons_of_neg (by simp), ih, through, hnop, andThen_inl]
    · rw [List.filter_cons_of_pos (by simp [htok]), through, through]
      simp only [ih]

theorem ends_of_through (w : FdtWalker σ α) (dtStrings : ℕ) {p : ℕ × σ} {off : ℕ}
    (htoks : Run (b.TokenStep dtStruct) p.1 toks off) :
    (∀ t, w.through b dtStrings p.2 toks = some (.inl t) →
      Relation.ReflTransGen (Goes (w.step b dtStruct dtStrings)) p (off, t)) ∧
    (∀ e, w.through b dtStrings p.2 toks = some (.inr e) →
      Ends (w.step b dtStruct dtStrings) p (some e)) ∧
    (w.through b dtStrings p.2 toks = none → Ends (w.step b dtStruct dtStrings) p none) := by
  induction htoks with
  | nil =>
    refine ⟨fun t ht => ?_, fun e he => ?_, fun hnone => ?_⟩
    · cases ht
      exact .refl
    · cases he
    · cases hnone
  | @snoc offset next toks tok _ htok ih =>
    obtain ⟨hgo, hend, hout⟩ := ih
    rw [through_append]
    simp only [through_singleton]
    rcases hr : w.through b dtStrings p.2 toks with _ | t | e
    · refine ⟨fun t ht => ?_, fun e he => ?_, fun _ => hout hr⟩
      · cases ht
      · cases he
    · -- the last token
      have hlast := hgo t hr
      rw [andThen_inl]
      refine ⟨fun u hu => hlast.tail (step_of_passes htok hu),
        fun e he => .of_goes hlast (.stop (step_of_ends htok he)), fun hnone => ?_⟩
      refine .of_goes hlast (.stop ?_)
      rw [step, htok]
      dsimp only
      rw [hnone]
    · refine ⟨fun t ht => ?_, fun e' he => ?_, fun hnone => ?_⟩
      · cases ht
      · cases he
        exact hend e hr
      · cases hnone

/-- **A walk over an encoding** is a walk over the tokens of the tree, with `FDT_END` after them. -/
theorem walk_through {t : DeviceTree} (h : b.Encodes t)
    (hnop : ∀ dtStrings s, w.onToken b dtStrings s .nop = some (.inl s)) :
    ∃ dtStrings toks, List.Forall₂ (FdtToken.Means b dtStrings) t.lexemes toks ∧
      (∀ tok ∈ toks, tok.stop + 4 ≤ b.length) ∧
      (∀ e, w.through b dtStrings w.init (toks ++ [.fdtEnd]) = some (.inr e) →
        ∃ fuel, fdtWalk w b fuel = some (some e)) ∧
      (w.through b dtStrings w.init (toks ++ [.fdtEnd]) = none →
        ∃ fuel, fdtWalk w b fuel = some none) := by
  obtain ⟨dtStruct, dtStrings, toks, off, next, hstruct, hstrings, htoks, hend, hmeans, hstops⟩ :=
    h.tokens
  obtain ⟨-, hret, hout⟩ := ends_of_through w dtStrings (p := (0, w.init)) (htoks.snoc hend)
  have hsame : w.through b dtStrings w.init ((toks.filter fun tok => tok ≠ .nop) ++ [.fdtEnd]) =
      w.through b dtStrings w.init (toks ++ [.fdtEnd]) := by
    rw [through_append, through_append, through_nops (hnop dtStrings)]
  refine ⟨dtStrings, _, hmeans, fun tok htok => hstops tok (List.mem_of_mem_filter htok), ?_, ?_⟩
  · intro e he
    rw [hsame] at he
    obtain ⟨fuel, hloop⟩ := ends_iff.mp (hret e he)
    exact ⟨fuel, (fdtWalk_eq h.valid.magic hstruct hstrings fuel).trans hloop⟩
  · intro hnone
    rw [hsame] at hnone
    obtain ⟨fuel, hloop⟩ := ends_iff.mp (hout hnone)
    exact ⟨fuel, (fdtWalk_eq h.valid.magic hstruct hstrings fuel).trans hloop⟩

theorem fdtWalk_iff {r r' : Option (WalkEnd α)} (h : ∃ fuel, fdtWalk w b fuel = some r) :
    (∃ fuel, fdtWalk w b fuel = some r') ↔ r = r' := by
  constructor
  · rintro ⟨fuel', h'⟩
    obtain ⟨fuel, h⟩ := h
    exact fdtWalk_unique h h'
  · rintro rfl
    exact h

end FdtWalker

/-! ## Pre-order -/

/-- A node of a tree, with what it has from its ancestors. -/
structure DtEntry (γ : Type) where
  ctx : γ
  name : List UInt8
  props : List DtProp

namespace DeviceTree

mutual

/-- The nodes of a tree in pre-order; `enter` is what a node hands on to its children. -/
def preorder (enter : DtEntry γ → γ) (ctx : γ) : DeviceTree → List (DtEntry γ)
  | .node name props children =>
    ⟨ctx, name, props⟩ :: forestPreorder enter (enter ⟨ctx, name, props⟩) children

/-- The nodes of some trees, one after the other. -/
def forestPreorder (enter : DtEntry γ → γ) (ctx : γ) : List DeviceTree → List (DtEntry γ)
  | [] => []
  | t :: ts => preorder enter ctx t ++ forestPreorder enter ctx ts

end

theorem findSome?_preorder (enter : DtEntry γ → γ) (ctx : γ) (found : DtEntry γ → Option α)
    (name : List UInt8) (props : List DtProp) (children : List DeviceTree) :
    (preorder enter ctx (.node name props children)).findSome? found = (found ⟨ctx, name, props⟩).or
        ((forestPreorder enter (enter ⟨ctx, name, props⟩) children).findSome? found) := by
  rw [preorder, List.findSome?_cons]
  cases found ⟨ctx, name, props⟩ <;> rfl

theorem findSome?_forestPreorder (enter : DtEntry γ → γ) (ctx : γ) (found : DtEntry γ → Option α)
    (ts : List DeviceTree) : (forestPreorder enter ctx ts).findSome? found =
      ts.findSome? fun t => (t.preorder enter ctx).findSome? found := by
  induction ts with
  | nil => rfl
  | cons t ts ih =>
    rw [forestPreorder, List.findSome?_append, List.findSome?_cons, ih]
    cases (t.preorder enter ctx).findSome? found <;> rfl

end DeviceTree

/-! ## Searches -/

/-- What a part of a scan gives: the answer, or a state in which there is none so far. If the part
is safe it reads inside the blob only. -/
def Gives (safe : Prop) (answer : Option α) (left : σ → Prop) : Option (σ ⊕ WalkEnd α) → Prop
  | none => ¬ safe
  | some (.inl s) => answer = none ∧ left s
  | some (.inr e) => ∃ a, answer = some a ∧ e = .returned a

namespace Gives

variable {safe safe' : Prop} {answer answer' : Option α} {left left' : σ → Prop}
  {r : Option (σ ⊕ WalkEnd α)} {f : σ → Option (σ ⊕ WalkEnd α)}

theorem mono (h : Gives safe answer left r) (hsafe : safe' → safe) (hleft : ∀ s, left s → left' s) :
    Gives safe' answer left' r := by
  rcases r with _ | s | e
  · exact fun hs => h (hsafe hs)
  · exact ⟨h.1, hleft s h.2⟩
  · exact h

theorem andThen (h : Gives safe answer left r)
    (hf : ∀ s, left s → Gives safe' answer' left' (f s)) :
    Gives (safe ∧ safe') (answer.or answer') left' (Lume.andThen r f) := by
  rcases r with _ | s | e
  · exact fun hs => h hs.1
  · obtain ⟨rfl, hs⟩ := h
    rw [andThen_inl, Option.none_or]
    exact (hf s hs).mono And.right fun _ => id
  · obtain ⟨a, rfl, rfl⟩ := h
    exact ⟨a, rfl, rfl⟩

end Gives

/-- **The walk is a search in pre-order**: `Between ctx` says what its state is in front of a node
with this context. What holds of the root alone is no context of a node below it. -/
structure Scans (w : FdtWalker σ α) (b : FdtBlob) (dtStrings : ℕ) (enter : DtEntry γ → γ)
    (found : DtEntry γ → Option α) (ok safe : DtEntry γ → Prop) (Below : γ → Prop)
    (Between : γ → σ → Prop) : Prop where
  /-- a node and its properties -/
  node : ∀ {e : DtEntry γ} {s : σ} {pos : ℕ} {toks : List FdtToken}, Between e.ctx s → ok e →
    b.StringAt pos e.name → List.Forall₂ (FdtToken.Means b dtStrings) (e.props.map .prop) toks →
    (∀ tok ∈ toks, tok.stop + 4 ≤ b.length) →
    Gives (safe e) (found e) (Between (enter e)) (w.through b dtStrings s (.beginNode pos :: toks))
  /-- the end of a node -/
  leave : ∀ {e : DtEntry γ} {s : σ}, Between (enter e) s →
    ∃ s', w.onToken b dtStrings s .endNode = some (.inl s') ∧ (Below e.ctx → Between e.ctx s')
  below : ∀ e, Below (enter e)

namespace Scans

variable {w : FdtWalker σ α} {b : FdtBlob} {dtStrings : ℕ} {enter : DtEntry γ → γ}
  {found : DtEntry γ → Option α} {ok safe : DtEntry γ → Prop} {Below : γ → Prop}
  {Between : γ → σ → Prop}

/-- What the tokens of a tree give, in front of which the context is `ctx`. -/
def OnTree (w : FdtWalker σ α) (b : FdtBlob) (dtStrings : ℕ) (enter : DtEntry γ → γ)
    (found : DtEntry γ → Option α) (ok safe : DtEntry γ → Prop) (Below : γ → Prop)
    (Between : γ → σ → Prop) (t : DeviceTree) : Prop :=
  ∀ {ctx : γ} {s : σ} {toks : List FdtToken}, Between ctx s →
    List.Forall₂ (FdtToken.Means b dtStrings) t.lexemes toks →
    (∀ tok ∈ toks, tok.stop + 4 ≤ b.length) → (∀ e ∈ t.preorder enter ctx, ok e) →
    Gives (∀ e ∈ t.preorder enter ctx, safe e) ((t.preorder enter ctx).findSome? found)
      (fun s => Below ctx → Between ctx s) (w.through b dtStrings s toks)

theorem forest {ts : List DeviceTree}
    (h : ∀ t ∈ ts, OnTree w b dtStrings enter found ok safe Below Between t) {ctx : γ}
    (hbelow : Below ctx) {s : σ} {toks : List FdtToken} (hs : Between ctx s)
    (hmeans : List.Forall₂ (FdtToken.Means b dtStrings) (DeviceTree.forestLexemes ts) toks)
    (hstops : ∀ tok ∈ toks, tok.stop + 4 ≤ b.length)
    (hok : ∀ e ∈ DeviceTree.forestPreorder enter ctx ts, ok e) :
    Gives (∀ e ∈ DeviceTree.forestPreorder enter ctx ts, safe e)
      ((DeviceTree.forestPreorder enter ctx ts).findSome? found) (Between ctx)
      (w.through b dtStrings s toks) := by
  induction ts generalizing s toks with
  | nil =>
    cases hmeans
    exact ⟨rfl, hs⟩
  | cons t ts ih =>
    rw [DeviceTree.forestLexemes] at hmeans
    obtain ⟨toks₁, toks₂, rfl, hmeans₁, hmeans₂⟩ := forall₂_append_left hmeans
    rw [DeviceTree.forestPreorder, List.forall_mem_append] at hok
    rw [List.forall_mem_append] at hstops
    rw [DeviceTree.forestPreorder, FdtWalker.through_append, List.findSome?_append]
    have hhead := h t (List.mem_cons_self ..) hs hmeans₁ hstops.1 hok.1
    have htail (s' : σ) (hs' : Below ctx → Between ctx s') :
        Gives (∀ e ∈ DeviceTree.forestPreorder enter ctx ts, safe e)
          ((DeviceTree.forestPreorder enter ctx ts).findSome? found) (Between ctx)
          (w.through b dtStrings s' toks₂) :=
      ih (fun t ht => h t (List.mem_cons_of_mem _ ht)) (hs' hbelow) hmeans₂ hstops.2 hok.2
    exact (hhead.andThen htail).mono (List.forall_mem_append.mp ·) fun _ => id

/-- **What the tokens of a tree give**: the first answer in pre-order. -/
theorem tree (h : Scans w b dtStrings enter found ok safe Below Between) (t : DeviceTree) :
    OnTree w b dtStrings enter found ok safe Below Between t := by
  induction t using DeviceTree.induct with
  | node name props children ih =>
    intro ctx s toks hs hmeans hstops hok
    obtain ⟨pos, ptoks, ctoks, rfl, hname, hprops, hchildren⟩ := FdtToken.means_node hmeans
    rw [DeviceTree.preorder, List.forall_mem_cons] at hok
    rw [← List.cons_append] at hstops ⊢
    simp only [List.forall_mem_append, List.forall_mem_cons] at hstops
    obtain ⟨⟨-, hpstops⟩, hcstops, -⟩ := hstops
    have hnode := h.node (e := ⟨ctx, name, props⟩) hs hok.1 hname hprops hpstops
    rw [DeviceTree.findSome?_preorder, FdtWalker.through_append]
    have hleave (s₂ : σ) (hs₂ : Between (enter ⟨ctx, name, props⟩) s₂) :
        Gives True none (fun s => Below ctx → Between ctx s)
          (w.through b dtStrings s₂ [.endNode]) := by
      obtain ⟨s₃, hend, hback⟩ := h.leave (e := ⟨ctx, name, props⟩) hs₂
      rw [FdtWalker.through_singleton, hend]
      exact ⟨rfl, hback⟩
    have hrest (s₁ : σ) (hs₁ : Between (enter ⟨ctx, name, props⟩) s₁) :
        Gives (∀ e ∈ DeviceTree.forestPreorder enter (enter ⟨ctx, name, props⟩) children, safe e)
          ((DeviceTree.forestPreorder enter (enter ⟨ctx, name, props⟩) children).findSome? found)
          (fun s => Below ctx → Between ctx s)
          (w.through b dtStrings s₁ (ctoks ++ [.endNode])) := by
      have hforest := forest ih (h.below _) hs₁ hchildren hcstops hok.2
      rw [FdtWalker.through_append, ← Option.or_none (o := List.findSome? ..)]
      exact (hforest.andThen hleave).mono (fun hsafe => ⟨hsafe, trivial⟩) fun _ => id
    refine (hnode.andThen hrest).mono (fun hsafe => ?_) fun _ => id
    rw [DeviceTree.preorder] at hsafe
    exact List.forall_mem_cons.mp hsafe

/-- **What the walk gives**: the first answer in pre-order, or the end that it comes to without
one. -/
theorem walk_eq {t : DeviceTree} (henc : b.Encodes t)
    (h : ∀ dtStrings, Scans w b dtStrings enter found ok safe Below Between)
    (hnop : ∀ dtStrings s, w.onToken b dtStrings s .nop = some (.inl s)) {e₀ : WalkEnd α}
    (hend : ∀ dtStrings s, w.onToken b dtStrings s .fdtEnd = some (.inr e₀)) {ctx : γ}
    (hinit : Between ctx w.init) (hok : ∀ e ∈ t.preorder enter ctx, ok e) :
    (∀ fuel e, fdtWalk w b fuel = some (some e) →
      e = ((t.preorder enter ctx).findSome? found).elim e₀ .returned) ∧
    ((∀ e ∈ t.preorder enter ctx, safe e) → ∃ fuel, fdtWalk w b fuel =
      some (some (((t.preorder enter ctx).findSome? found).elim e₀ .returned))) := by
  obtain ⟨dtStrings, toks, hmeans, hstops, hret, hout⟩ := FdtWalker.walk_through (w := w) henc hnop
  have htree := (h dtStrings).tree t hinit hmeans hstops hok
  rw [FdtWalker.through_append] at hret hout
  simp only [FdtWalker.through_singleton, hend] at hret hout
  generalize (t.preorder enter ctx).findSome? found = answer at htree ⊢
  rcases hr : w.through b dtStrings w.init toks with _ | s | e
  · rw [hr] at htree hout
    obtain ⟨fuel, hnone⟩ := hout rfl
    refine ⟨fun fuel' e he => ?_, fun hsafe => absurd hsafe htree⟩
    cases FdtWalker.fdtWalk_unique he hnone
  · rw [hr] at htree hret
    obtain ⟨rfl, -⟩ := htree
    obtain ⟨fuel, hwalk⟩ := hret e₀ rfl
    refine ⟨fun fuel' e he => ?_, fun _ => ⟨fuel, hwalk⟩⟩
    exact Option.some.inj (FdtWalker.fdtWalk_unique he hwalk)
  · rw [hr] at htree hret
    obtain ⟨a, rfl, rfl⟩ := htree
    obtain ⟨fuel, hwalk⟩ := hret (.returned a) rfl
    refine ⟨fun fuel' e he => ?_, fun _ => ⟨fuel, hwalk⟩⟩
    exact Option.some.inj (FdtWalker.fdtWalk_unique he hwalk)

end Scans

end Lume
