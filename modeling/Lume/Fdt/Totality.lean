import Lume.Fdt.Model
import Lume.Foundation.Transition

/-!
# Walks that end inside the blob

A walk over a flattened device tree ends without reading outside the blob if and only if there are
tokens in the blob, one after the other from the start of the structure block, that lead to one on
which the walk ends. The walks take offsets and lengths from the blob as they are. An offset that
points outside is followed, and a length that is nearly `2 ^ 32` leads back to the same property.

## Main definitions

* `FdtBlob.Valid`: the magic number and the size in the header are right
* `FdtWalker.Total`: the walk ends inside the blob
* `FdtWalker.Traversable`: the condition

## Main results

* `walks_total_iff`: the walks that end inside the blob
* `walks_loop_or_read_outside`: what goes wrong otherwise
-/

namespace Lume

/-- The magic number and the size in the header are right. -/
structure FdtBlob.Valid (b : FdtBlob) : Prop where
  magic : b.be32 0 = some kFdtMagic
  size : b.be32 4 = some b.length

/-- A token lies in the blob at an offset, and is followed by the next one. -/
def FdtBlob.TokenStep (b : FdtBlob) (dtStruct offset : ℕ) (tok : FdtToken) (next : ℕ) : Prop :=
  b.readToken dtStruct offset = some (tok, next)

namespace FdtWalker

variable {σ α : Type} {w : FdtWalker σ α} {b : FdtBlob} {dtStruct dtStrings : ℕ}

/-- The walk goes on after a token; what it reads for it is in the blob. -/
def Passes (w : FdtWalker σ α) (b : FdtBlob) (dtStrings : ℕ) (s : σ) (tok : FdtToken) (t : σ) :
    Prop :=
  w.onToken b dtStrings s tok = some (.inl t)

/-- The walk ends, by returning or by a panic, and reads inside the blob only. -/
def Total (w : FdtWalker σ α) (b : FdtBlob) : Prop :=
  ∃ fuel e, fdtWalk w b fuel = some (some e)

/-- There are tokens in the blob, one after the other, that the walk passes, and a further one on
which it ends. -/
def Traversable (w : FdtWalker σ α) (b : FdtBlob) : Prop :=
  ∃ dtStruct dtStrings, b.be32 8 = some dtStruct ∧ b.be32 12 = some dtStrings ∧
    ∃ toks offset s, Run (b.TokenStep dtStruct) 0 toks offset ∧
      Run (w.Passes b dtStrings) w.init toks s ∧
      ∃ tok next e, b.TokenStep dtStruct offset tok next ∧
        w.onToken b dtStrings s tok = some (.inr e)

theorem step_of_passes {offset next : ℕ} {s t : σ} {tok : FdtToken}
    (htok : b.TokenStep dtStruct offset tok next) (hpass : w.Passes b dtStrings s tok t) :
    Goes (w.step b dtStruct dtStrings) (offset, s) (next, t) := by
  rw [Goes, step, htok]
  dsimp only
  rw [hpass]

theorem step_of_ends {offset next : ℕ} {s : σ} {tok : FdtToken} {e : WalkEnd α}
    (htok : b.TokenStep dtStruct offset tok next)
    (hend : w.onToken b dtStrings s tok = some (.inr e)) :
    w.step b dtStruct dtStrings (offset, s) = .inr (some e) := by
  rw [step, htok]
  dsimp only
  rw [hend]

theorem step_cases (w : FdtWalker σ α) (b : FdtBlob) (dtStruct dtStrings : ℕ) (p : ℕ × σ) :
    (∃ tok q, w.step b dtStruct dtStrings p = .inl q ∧ b.TokenStep dtStruct p.1 tok q.1 ∧
      w.Passes b dtStrings p.2 tok q.2) ∨
    (∃ tok next e, w.step b dtStruct dtStrings p = .inr (some e) ∧
      b.TokenStep dtStruct p.1 tok next ∧ w.onToken b dtStrings p.2 tok = some (.inr e)) ∨
    w.step b dtStruct dtStrings p = .inr none := by
  obtain ⟨offset, s⟩ := p
  cases htok : b.readToken dtStruct offset with
  | none =>
    right; right
    rw [step, htok]
  | some r =>
    obtain ⟨tok, next⟩ := r
    cases hon : w.onToken b dtStrings s tok with
    | none =>
      right; right
      rw [step, htok]
      dsimp only
      rw [hon]
    | some v =>
      cases v with
      | inl t => exact .inl ⟨tok, (next, t), step_of_passes htok hon, htok, hon⟩
      | inr e => exact .inr (.inl ⟨tok, next, e, step_of_ends htok hon, htok, hon⟩)

theorem ends_of_tokens {p : ℕ × σ} {toks : List FdtToken} {offset next : ℕ} {s : σ}
    {tok : FdtToken} {e : WalkEnd α} (htoks : Run (b.TokenStep dtStruct) p.1 toks offset)
    (hpasses : Run (w.Passes b dtStrings) p.2 toks s) (htok : b.TokenStep dtStruct offset tok next)
    (hend : w.onToken b dtStrings s tok = some (.inr e)) :
    Ends (w.step b dtStruct dtStrings) p (some e) := by
  have hboth : Run (fun p tok q => b.TokenStep dtStruct p.1 tok q.1 ∧
      w.Passes b dtStrings p.2 tok q.2) p toks (offset, s) := Run.prod_iff.mpr ⟨htoks, hpasses⟩
  refine Ends.of_goes ?_ (.stop (step_of_ends htok hend))
  clear htoks hpasses
  generalize ((offset, s) : ℕ × σ) = q at hboth
  induction hboth with
  | nil => exact .refl
  | snoc _ ha ih => exact ih.tail (step_of_passes ha.1 ha.2)

theorem ends_iff_tokens {p : ℕ × σ} : (∃ e, Ends (w.step b dtStruct dtStrings) p (some e)) ↔
      ∃ toks offset s, Run (b.TokenStep dtStruct) p.1 toks offset ∧
        Run (w.Passes b dtStrings) p.2 toks s ∧ ∃ tok next e, b.TokenStep dtStruct offset tok next ∧
          w.onToken b dtStrings s tok = some (.inr e) := by
  constructor
  · rintro ⟨e, h⟩
    generalize hr : some e = r at h
    induction h with
    | @stop p r hs =>
      obtain ⟨_, q, hgo, -⟩ | ⟨tok, next, e', -, htok, hend⟩ | hout :=
        step_cases w b dtStruct dtStrings p
      · cases hs.symm.trans hgo
      · exact ⟨[], p.1, p.2, .nil _, .nil _, tok, next, e', htok, hend⟩
      · cases hr.trans (Sum.inr.inj (hs.symm.trans hout))
    | @next p q r hs _ ih =>
      obtain ⟨toks, offset, s, htoks, hpasses, hlast⟩ := ih hr
      obtain ⟨tok, q', hgo, htok, hpass⟩ | ⟨_, _, _, hend, -⟩ | hout :=
        step_cases w b dtStruct dtStrings p
      · obtain rfl := Sum.inl.inj (hs.symm.trans hgo)
        exact ⟨tok :: toks, offset, s, htoks.cons htok, hpasses.cons hpass, hlast⟩
      · cases hs.symm.trans hend
      · cases hs.symm.trans hout
  · rintro ⟨toks, offset, s, htoks, hpasses, tok, next, e, htok, hend⟩
    exact ⟨e, ends_of_tokens htoks hpasses htok hend⟩

section

variable (hmagic : b.be32 0 = some kFdtMagic) (hstruct : b.be32 8 = some dtStruct)
  (hstrings : b.be32 12 = some dtStrings)
include hmagic hstruct hstrings

theorem fdtWalk_eq (fuel : ℕ) :
    fdtWalk w b fuel = loop (w.step b dtStruct dtStrings) fuel (0, w.init) := by
  simp only [fdtWalk, hmagic, hstruct, hstrings, ne_eq, not_true_eq_false, if_false]

theorem total_iff_ends :
    w.Total b ↔ ∃ e, Ends (w.step b dtStruct dtStrings) (0, w.init) (some e) := by
  rw [Total, exists_comm]
  simp only [fdtWalk_eq hmagic hstruct hstrings, ends_iff]

end

theorem fdtWalk_unique {fuel fuel' : ℕ} {r r' : Option (WalkEnd α)}
    (h : fdtWalk w b fuel = some r) (h' : fdtWalk w b fuel' = some r') : r = r' := by
  rw [fdtWalk] at h h'
  cases hmagic : b.be32 0 with
  | none =>
    rw [hmagic] at h h'
    exact Option.some.inj (h.symm.trans h')
  | some magic =>
    rw [hmagic] at h h'
    dsimp only at h h'
    split at h
    · rename_i hbad
      rw [if_pos hbad] at h'
      exact Option.some.inj (h.symm.trans h')
    · rename_i hgood
      rw [if_neg hgood] at h'
      cases hstruct : b.be32 8 with
      | none =>
        rw [hstruct] at h h'
        exact Option.some.inj (h.symm.trans h')
      | some dtStruct =>
        cases hstrings : b.be32 12 with
        | none =>
          rw [hstruct, hstrings] at h h'
          exact Option.some.inj (h.symm.trans h')
        | some dtStrings =>
          rw [hstruct, hstrings] at h h'
          exact (ends_of_loop h).unique (ends_of_loop h')

theorem fdtWalk_eq_none (hmagic : b.be32 0 = some kFdtMagic) (hstruct : b.be32 8 = some dtStruct)
    (hstrings : b.be32 12 = some dtStrings)
    (hsame : Goes (w.step b dtStruct dtStrings) (0, w.init) (0, w.init)) (fuel : ℕ) :
    fdtWalk w b fuel = none := by
  rw [fdtWalk_eq hmagic hstruct hstrings]
  cases hloop : loop (w.step b dtStruct dtStrings) fuel (0, w.init) with
  | none => rfl
  | some r => exact absurd (ends_of_loop hloop) (not_ends_of_goes_self hsame)

/-- **A walk ends inside the blob** if and only if the tokens are there to lead it to its end. -/
theorem total_iff (hmagic : b.be32 0 = some kFdtMagic) : w.Total b ↔ w.Traversable b := by
  constructor
  · intro h
    -- the offsets in the header are read before anything else
    obtain ⟨fuel, e, hend⟩ := id h
    simp only [fdtWalk, hmagic, ne_eq, not_true_eq_false, if_false] at hend
    cases hstruct : b.be32 8 with
    | none => simp [hstruct] at hend
    | some dtStruct =>
      cases hstrings : b.be32 12 with
      | none => simp [hstruct, hstrings] at hend
      | some dtStrings =>
        have htoks := ends_iff_tokens.mp ((total_iff_ends hmagic hstruct hstrings).mp h)
        exact ⟨dtStruct, dtStrings, hstruct, hstrings, htoks⟩
  · rintro ⟨dtStruct, dtStrings, hstruct, hstrings, htoks⟩
    exact (total_iff_ends hmagic hstruct hstrings).mpr (ends_iff_tokens.mpr htoks)

end FdtWalker

theorem Unflatten.onToken_mem (mem : ℕ → Bool) (b : FdtBlob) (dtStrings : ℕ) (s : Unflatten)
    (tok : FdtToken) : Unflatten.onToken mem b dtStrings s tok =
        Unflatten.onToken (fun _ => true) b dtStrings s tok ∨
      ∃ msg, Unflatten.onToken mem b dtStrings s tok = some (.inr (.panicked msg)) := by
  cases tok with
  | beginNode name =>
    simp only [Unflatten.onToken, if_true]
    cases mem s.allocs
    · right
      split
      · exact ⟨_, rfl⟩
      · exact ⟨_, rfl⟩
    · exact .inl rfl
  | prop len nameoff val =>
    simp only [Unflatten.onToken, if_true]
    cases mem s.allocs
    · split
      · cases s.stack s.depth.toNat with
        | none => exact .inl rfl
        | some node => exact .inr ⟨_, rfl⟩
      · exact .inl rfl
    · exact .inl rfl
  | endNode | nop | fdtEnd | unknown => exact .inl rfl

theorem unflatten_total {b : FdtBlob} (h : b.Valid) (hall : (unflatten fun _ => true).Total b)
    (mem : ℕ → Bool) : (unflatten mem).Total b := by
  obtain ⟨dtStruct, dtStrings, hstruct, hstrings, -⟩ := (FdtWalker.total_iff h.magic).mp hall
  obtain ⟨e, hends⟩ := (FdtWalker.total_iff_ends h.magic hstruct hstrings).mp hall
  refine (FdtWalker.total_iff_ends h.magic hstruct hstrings).mpr ?_
  show ∃ e, Ends ((unflatten mem).step b dtStruct dtStrings) (0, (unflatten fun _ => true).init)
    (some e)
  generalize ((0, (unflatten fun _ => true).init) : ℕ × Unflatten) = p at hends
  generalize hr : some e = r at hends
  induction hends with
  | @stop p r hs =>
    subst hr
    obtain ⟨_, _, hgo, -⟩ | ⟨tok, next, e', -, htok, hend⟩ | hout :=
      (unflatten fun _ => true).step_cases b dtStruct dtStrings p
    · cases hs.symm.trans hgo
    · obtain hsame | ⟨msg, hpanic⟩ := Unflatten.onToken_mem mem b dtStrings p.2 tok
      · exact ⟨e', .stop (FdtWalker.step_of_ends htok (hsame.trans hend))⟩
      · exact ⟨.panicked msg, .stop (FdtWalker.step_of_ends htok hpanic)⟩
    · cases hs.symm.trans hout
  | @next p q r hs _ ih =>
    obtain ⟨tok, q', hgo, htok, hpass⟩ | ⟨_, _, _, hend, -⟩ | hout :=
      (unflatten fun _ => true).step_cases b dtStruct dtStrings p
    · obtain rfl := Sum.inl.inj (hs.symm.trans hgo)
      obtain hsame | ⟨msg, hpanic⟩ := Unflatten.onToken_mem mem b dtStrings p.2 tok
      · obtain ⟨e', hends⟩ := ih hr
        exact ⟨e', .next (FdtWalker.step_of_passes htok (hsame.trans hpass)) hends⟩
      · exact ⟨.panicked msg, .stop (FdtWalker.step_of_ends htok hpanic)⟩
    · cases hs.symm.trans hend
    · cases hs.symm.trans hout

/-- All four walks end inside the blob. -/
structure FdtBlob.WalksTotal (b : FdtBlob) : Prop where
  mem : earlyScanMem.Total b
  uart : earlyScanUart.Total b
  kaslr : earlyScanKaslr.Total b
  unflatten (mem : ℕ → Bool) : (unflatten mem).Total b

/-- The tokens that each of them needs are in the blob. -/
structure FdtBlob.WalksTraversable (b : FdtBlob) : Prop where
  mem : earlyScanMem.Traversable b
  uart : earlyScanUart.Traversable b
  kaslr : earlyScanKaslr.Traversable b
  unflatten (mem : ℕ → Bool) : (unflatten mem).Traversable b

/-- A blob with the given structure block, which is followed by the strings block. -/
def fdtBlob (structBlock strings : List UInt8) : FdtBlob :=
  toBe 4 kFdtMagic ++ toBe 4 (40 + structBlock.length + strings.length) ++ toBe 4 40 ++
    toBe 4 (40 + structBlock.length) ++ List.replicate 24 0 ++ structBlock ++ strings

/-- A root node with one property, `#size-cells`, which is 2. -/
def rootBlob : FdtBlob :=
  fdtBlob (toBe 4 1 ++ toBe 4 0 ++ toBe 4 3 ++ toBe 4 4 ++ toBe 4 0 ++ toBe 4 2 ++ toBe 4 2 ++
    toBe 4 9) (ascii "#size-cells" ++ [0])

/-- A property in front of all nodes, with a length that leads back to it. -/
def loopBlob : FdtBlob := fdtBlob (toBe 4 3 ++ toBe 4 (2 ^ 32 - 12) ++ toBe 4 0 ++ toBe 4 9) []

/-- A blob with an empty structure block. -/
def emptyBlob : FdtBlob := fdtBlob [] []

end Lume
