import Mathlib.Data.Int.DivMod
import Mathlib.Tactic.NormNum
import Lume.Foundation.BackCopy
import Lume.Foundation.Loop

/-!
# The decompressor

`lz4_decompress` of `lib/decompress_lz4.cc`. The pointers are offsets: `ip` counts from `src`, and
`op` is the number of bytes that are written, so that the output is kept as the list of these
bytes. Every access asks first whether it may be made: a read at or behind `iend`, a read of output
that is not written yet and a write at or behind `oend` end the run in `Lz4Result.fault`, which the
program does not know. Lengths are added in 32 bits, sums of a pointer and a length are exact.

Beside it stands what a block means: a sequence of literals and copies whose lengths are numbers.

## Main definitions

* `lz4Decompress src cap`: the call
* `Lz4.Expands src out out'`: the block `src` carries the output from `out` to `out'`
* `Lz4.lengths m src`: the lengths of a block, with `m` added to those of the copies

## Main results

* `lz4Body_eq`: one round of the program, on what is left of the input
* `Lz4.Ends.expands`: the rounds and the meaning of a block
* `lz4Decompress_exact`: the call
-/

namespace Lume

/-! ## The program -/

/-- The reason for which a part of a round does not come to its end. -/
inductive Lz4Exit
  | fault
  | fail
  deriving DecidableEq, Repr

/-- What the caller sees: the value that is returned and what stands in the output. -/
inductive Lz4Result
  | fault
  | ret (n : ℤ) (out : List UInt8)
  deriving DecidableEq, Repr

/-- `return -1`. -/
def Lz4Exit.result (out : List UInt8) : Lz4Exit → Lz4Result
  | fault => .fault
  | fail => .ret (-1) out

/-- `static_cast<int>` of a number of bytes. -/
def toInt (n : ℕ) : ℤ := (n : ℤ).bmod (2 ^ 32)

/-- The pointer into the input, and the output so far. -/
structure Lz4State where
  ip : ℕ
  out : List UInt8
  deriving DecidableEq, Repr

/-- One round of the loop over the bytes of a long length. -/
def lengthBody (src : List UInt8) : ℕ × ℕ → (ℕ × ℕ) ⊕ Except Lz4Exit (ℕ × ℕ)
  | (ip, len) =>
    if src.length ≤ ip then .inr (.error .fail)
    else
      match src[ip]? with
      | none => .inr (.error .fault)
      | some s =>
        if s = 255 then .inl (ip + 1, (len + s.toNat) % 2 ^ 32)
        else .inr (.ok (ip + 1, (len + s.toNat) % 2 ^ 32))

/-- A length, from its four bits in the token and the bytes at `ip`. -/
def readLength (src : List UInt8) (bits ip : ℕ) : Except Lz4Exit (ℕ × ℕ) :=
  if bits = 15 then (loop (lengthBody src) (src.length + 1) (ip, 15)).getD (.error .fault)
  else .ok (ip, bits)

/-- `*op++ = *ip++`, as often as the count says. -/
def copyLiterals (src : List UInt8) (cap : ℕ) : ℕ → Lz4State → Except Lz4Exit Lz4State
  | 0, s => .ok s
  | n + 1, s =>
    match src[s.ip]? with
    | none => .error .fault
    | some b =>
      if s.out.length < cap then copyLiterals src cap n ⟨s.ip + 1, s.out ++ [b]⟩
      else .error .fault

/-- `op[i] = match[i]`, as often as the count says. -/
def copyMatch (cap off : ℕ) : ℕ → List UInt8 → Except Lz4Exit (List UInt8)
  | 0, out => .ok out
  | n + 1, out =>
    match out[out.length - off]? with
    | none => .error .fault
    | some b => if out.length < cap then copyMatch cap off n (out ++ [b]) else .error .fault

/-- The second half of a round: the copy from the output. -/
def lz4Match (src : List UInt8) (cap : ℕ) (token : UInt8) (s : Lz4State) :
    Lz4State ⊕ Lz4Result :=
  if src.length < s.ip + 2 then .inr (.ret (-1) s.out)
  else
    match src[s.ip]?, src[s.ip + 1]? with
    | some b₀, some b₁ =>
      let off := b₀.toNat ||| b₁.toNat <<< 8
      if off = 0 ∨ s.out.length % 2 ^ 32 < off then .inr (.ret (-1) s.out)
      else
        match readLength src (token.toNat &&& 0x0F) (s.ip + 2) with
        | .error e => .inr (e.result s.out)
        | .ok (ip, len) =>
          let matchLen := (len + 4) % 2 ^ 32
          if cap < s.out.length + matchLen then .inr (.ret (-1) s.out)
          else
            match copyMatch cap off matchLen s.out with
            | .error e => .inr (e.result s.out)
            | .ok out => .inl ⟨ip, out⟩
    | _, _ => .inr .fault

/-- One round of the program. -/
def lz4Body (src : List UInt8) (cap : ℕ) (s : Lz4State) : Lz4State ⊕ Lz4Result :=
  if src.length ≤ s.ip then .inr (.ret (toInt s.out.length) s.out)
  else
    match src[s.ip]? with
    | none => .inr .fault
    | some token =>
      match readLength src (token.toNat >>> 4) (s.ip + 1) with
      | .error e => .inr (e.result s.out)
      | .ok (ip, litLen) =>
        if src.length < ip + litLen then .inr (.ret (-1) s.out)
        else if cap < s.out.length + litLen then .inr (.ret (-1) s.out)
        else
          match copyLiterals src cap litLen ⟨ip, s.out⟩ with
          | .error e => .inr (e.result s.out)
          | .ok s =>
            if src.length ≤ s.ip then .inr (.ret (toInt s.out.length) s.out)
            else lz4Match src cap token s

/-- `lz4_decompress`. Every round reads a byte. -/
def lz4Decompress (src : List UInt8) (cap : ℕ) : Option Lz4Result :=
  loop (lz4Body src cap) (src.length + 1) ⟨0, []⟩

/-! ## What a block means -/

namespace Lz4

/-- The bytes of a long length, up to the first that is not 255. -/
def longLength (n : ℕ) : List UInt8 → Option (ℕ × List UInt8)
  | [] => none
  | s :: bs => if s = 255 then longLength (n + 255) bs else some (n + s.toNat, bs)

/-- A length, from its four bits in the token, and what follows it. -/
def length (bits : ℕ) (bs : List UInt8) : Option (ℕ × List UInt8) :=
  if bits = 15 then longLength 15 bs else some (bits, bs)

variable {n m k bits cap : ℕ} {bs rest out out' : List UInt8}

theorem longLength_suffix (h : longLength n bs = some (m, rest)) : ∃ xs, bs = xs ++ rest := by
  induction bs generalizing n with
  | nil => cases h
  | cons s bs ih =>
    rw [longLength] at h
    split at h
    · obtain ⟨xs, rfl⟩ := ih h
      exact ⟨s :: xs, rfl⟩
    · cases h
      exact ⟨[s], rfl⟩

theorem length_suffix (h : length bits bs = some (m, rest)) : ∃ xs, bs = xs ++ rest := by
  rw [length] at h
  split at h
  · exact longLength_suffix h
  · cases h
    exact ⟨[], rfl⟩

theorem length_le (h : length bits bs = some (m, rest)) : rest.length ≤ bs.length := by
  obtain ⟨xs, rfl⟩ := length_suffix h
  rw [List.length_append]
  exact Nat.le_add_left _ _

/-- The lengths of a block, with `m` added to those of the copies: all that can be read. -/
def lengths (m : ℕ) : List UInt8 → List ℕ
  | [] => []
  | token :: bs =>
    match _hlits : length (token.toNat / 16) bs with
    | none => []
    | some (l, bs₁) =>
      l :: match _hmatch : bs₁.drop l with
        | _ :: _ :: bs₂ =>
          match _hrest : length (token.toNat % 16) bs₂ with
          | none => []
          | some (n, rest) => (n + m) :: lengths m rest
        | _ => []
termination_by bs => bs.length
decreasing_by
  have hlits := length_le _hlits
  have hmatch := congrArg List.length _hmatch
  have hrest := length_le _hrest
  simp only [List.length_drop, List.length_cons] at hmatch ⊢
  omega

/-- The distance of a copy. -/
def offset (b₀ b₁ : UInt8) : ℕ := b₀.toNat + 256 * b₁.toNat

/-- The block carries the output from `out` to `out'`: literals, then a copy, and so on. It may end
behind literals or behind a copy; the lower bits of a last token mean nothing. -/
inductive Expands : List UInt8 → List UInt8 → List UInt8 → Prop
  | done (out : List UInt8) : Expands [] out out
  | last {token : UInt8} {bs lits out : List UInt8}
      (hlits : length (token.toNat / 16) bs = some (lits.length, lits)) :
      Expands (token :: bs) out (out ++ lits)
  | next {token b₀ b₁ : UInt8} {bs lits bs' rest out out' : List UInt8} {n : ℕ}
      (hlits : length (token.toNat / 16) bs = some (lits.length, lits ++ b₀ :: b₁ :: bs'))
      (hpos : 0 < offset b₀ b₁) (hle : offset b₀ b₁ ≤ (out ++ lits).length)
      (hmatch : length (token.toNat % 16) bs' = some (n, rest))
      (hrest : Expands rest (copyBack (offset b₀ b₁) (n + 4) (out ++ lits)) out') :
      Expands (token :: bs) out out'

/-! ## One round, on what is left of the input -/

/-- The second half of a round, where the input is what is left of it. -/
def roundMatch (cap : ℕ) (token : UInt8) :
    List UInt8 → List UInt8 → (List UInt8 × List UInt8) ⊕ (Bool × List UInt8)
  | b₀ :: b₁ :: bs, out =>
    if offset b₀ b₁ = 0 ∨ out.length < offset b₀ b₁ then .inr (false, out)
    else
      match length (token.toNat % 16) bs with
      | none => .inr (false, out)
      | some (n, rest) =>
        if cap < out.length + (n + 4) % 2 ^ 32 then .inr (false, out)
        else .inl (rest, copyBack (offset b₀ b₁) ((n + 4) % 2 ^ 32) out)
  | _, out => .inr (false, out)

/-- One round of the program, where the input is what is left of it. -/
def round (cap : ℕ) : List UInt8 × List UInt8 → (List UInt8 × List UInt8) ⊕ (Bool × List UInt8)
  | ([], out) => .inr (true, out)
  | (token :: bs, out) =>
    match length (token.toNat / 16) bs with
    | none => .inr (false, out)
    | some (l, bs) =>
      if bs.length < l % 2 ^ 32 ∨ cap < out.length + l % 2 ^ 32 then .inr (false, out)
      else if bs.length = l % 2 ^ 32 then .inr (true, out ++ bs)
      else roundMatch cap token (bs.drop (l % 2 ^ 32)) (out ++ bs.take (l % 2 ^ 32))

/-- The state of the program in front of the rest of its input. -/
def front (src : List UInt8) (p : List UInt8 × List UInt8) : Lz4State := ⟨src.length - p.1.length, p.2⟩

/-- A length as the program has it. -/
def wrapped (src : List UInt8) : Option (ℕ × List UInt8) → Except Lz4Exit (ℕ × ℕ)
  | none => .error .fail
  | some (m, rest) => .ok (src.length - rest.length, m % 2 ^ 32)

/-- What the caller sees. -/
def returns : Bool × List UInt8 → Lz4Result
  | (true, out) => .ret (toInt out.length) out
  | (false, out) => .ret (-1) out

section Reads

variable {src : List UInt8} {b : UInt8}

theorem getElem?_front (h : b :: bs <:+ src) : src[src.length - (b :: bs).length]? = some b := by
  obtain ⟨xs, rfl⟩ := h
  rw [List.length_append, Nat.add_sub_cancel, List.getElem?_append_right (Nat.le_refl _),
    Nat.sub_self]
  rfl

theorem front_lt (h : b :: bs <:+ src) : src.length - (b :: bs).length < src.length := by
  have hle := h.length_le
  rw [List.length_cons] at hle ⊢
  omega

theorem front_succ (h : b :: bs <:+ src) :
    src.length - (b :: bs).length + 1 = src.length - bs.length := by
  have hle := h.length_le
  rw [List.length_cons] at hle ⊢
  omega

theorem suffix_of_cons (h : b :: bs <:+ src) : bs <:+ src := (List.suffix_cons b bs).trans h

theorem lengthBody_ends (h : bs <:+ src) (n : ℕ) :
    Ends (lengthBody src) (src.length - bs.length, n % 2 ^ 32) (wrapped src (longLength n bs)) := by
  induction bs generalizing n with
  | nil =>
    refine .stop ?_
    simp [lengthBody, longLength, wrapped]
  | cons b bs ih =>
    have hstep : lengthBody src (src.length - (b :: bs).length, n % 2 ^ 32) =
        if b = 255 then .inl (src.length - bs.length, (n + b.toNat) % 2 ^ 32)
        else .inr (.ok (src.length - bs.length, (n + b.toNat) % 2 ^ 32)) := by
      rw [lengthBody, if_neg (Nat.not_le.mpr (front_lt h)), getElem?_front h, front_succ h]
      dsimp only
      rw [Nat.mod_add_mod]
    rw [longLength]
    by_cases hb : b = 255
    · subst hb
      rw [if_pos rfl] at hstep ⊢
      exact .next hstep (ih (suffix_of_cons h) _)
    · rw [if_neg hb] at hstep ⊢
      exact .stop hstep

theorem readLength_eq (h : bs <:+ src) (hbits : bits < 16) :
    readLength src bits (src.length - bs.length) = wrapped src (length bits bs) := by
  rw [readLength, length]
  split
  · have hends := lengthBody_ends h 15
    have hloop := hends.loop_eq (P := fun _ => True) (fun s => src.length - s.1) (fun s t _ hgo => ?_)
      trivial (Nat.lt_succ_of_le (Nat.sub_le _ _))
    · rw [show 15 % 2 ^ 32 = 15 from rfl] at hloop
      rw [hloop, Option.getD_some]
    · rw [Goes, lengthBody] at hgo
      split at hgo
      · cases hgo
      · split at hgo
        · cases hgo
        · split at hgo
          · cases hgo
            exact ⟨trivial, by dsimp only; omega⟩
          · cases hgo
  · rw [wrapped, Nat.mod_eq_of_lt (by omega)]

theorem copyLiterals_eq (h : bs <:+ src) (hn : n ≤ bs.length) (hcap : out.length + n ≤ cap) :
    copyLiterals src cap n (front src (bs, out)) = .ok (front src (bs.drop n, out ++ bs.take n)) := by
  induction n generalizing bs out with
  | zero => simp [copyLiterals]
  | succ n ih =>
    cases bs with
    | nil => cases hn
    | cons b bs =>
      have hlt : out.length < cap := by omega
      have hlen : (out ++ [b]).length = out.length + 1 := List.length_append
      have hnext : copyLiterals src cap n (front src (bs, out ++ [b])) = _ :=
        ih (suffix_of_cons h) (Nat.le_of_succ_le_succ hn) (by omega)
      rw [copyLiterals, show src[(front src (b :: bs, out)).ip]? = some b from getElem?_front h]
      dsimp only
      rw [if_pos (show (front src (b :: bs, out)).out.length < cap from hlt),
        show (front src (b :: bs, out)).ip + 1 = src.length - bs.length from front_succ h]
      rw [show Lz4State.mk (src.length - bs.length) ((front src (b :: bs, out)).out ++ [b]) =
        front src (bs, out ++ [b]) from rfl, hnext, List.drop_succ_cons, List.take_succ_cons,
        List.append_assoc, List.singleton_append]

theorem copyMatch_eq {off : ℕ} (hpos : 0 < off) (hle : off ≤ out.length)
    (hcap : out.length + n ≤ cap) : copyMatch cap off n out = .ok (copyBack off n out) := by
  induction n generalizing out with
  | zero => rfl
  | succ n ih =>
    obtain ⟨a, ha⟩ := getElem?_back hpos hle
    have hlen : (out ++ [a]).length = out.length + 1 := List.length_append
    rw [copyMatch, copyBack, ha]
    dsimp only
    rw [if_pos (by omega), Option.toList_some, ih (by omega) (by omega)]

theorem offset_eq (b₀ b₁ : UInt8) : b₀.toNat ||| b₁.toNat <<< 8 = offset b₀ b₁ := by
  rw [Nat.or_comm, ← Nat.shiftLeft_add_eq_or_of_lt (UInt8.toNat_lt b₀), Nat.shiftLeft_eq, offset]
  omega

theorem lz4Match_eq {token : UInt8} (h : bs <:+ src) (hcap : cap < 2 ^ 32)
    (hout : out.length ≤ cap) : lz4Match src cap token (front src (bs, out)) =
      (roundMatch cap token bs out).map (front src) returns := by
  have hle := h.length_le
  rcases bs with _ | ⟨b₀, _ | ⟨b₁, bs⟩⟩
  · rw [lz4Match, if_pos (by simp [front])]
    rfl
  · rw [lz4Match, if_pos (by simp [front] at hle ⊢; omega)]
    rfl
  · have h₁ := suffix_of_cons h
    have hip : (front src (b₀ :: b₁ :: bs, out)).ip + 1 = src.length - (b₁ :: bs).length :=
      front_succ h
    have hip₂ : (front src (b₀ :: b₁ :: bs, out)).ip + 2 = src.length - bs.length := by
      rw [← front_succ h₁, ← hip]
    rw [lz4Match, if_neg (by rw [hip₂]; omega), hip, hip₂,
      show src[(front src (b₀ :: b₁ :: bs, out)).ip]? = some b₀ from getElem?_front h,
      getElem?_front h₁]
    dsimp only
    rw [offset_eq, show (front src (b₀ :: b₁ :: bs, out)).out = out from rfl,
      Nat.mod_eq_of_lt (Nat.lt_of_le_of_lt hout hcap),
      show 0x0F = 2 ^ 4 - 1 from rfl, Nat.and_two_pow_sub_one_eq_mod,
      readLength_eq (suffix_of_cons h₁) (Nat.mod_lt _ (by norm_num)), roundMatch]
    split
    · rfl
    · rename_i hoff
      obtain ⟨hpos, hle⟩ := not_or.mp hoff
      cases hlen : length (token.toNat % 16) bs with
      | none => rfl
      | some r =>
        obtain ⟨n, rest⟩ := r
        dsimp only [wrapped]
        rw [Nat.mod_add_mod]
        split
        · rfl
        · rename_i hroom
          rw [copyMatch_eq (Nat.pos_of_ne_zero hpos) (Nat.not_lt.mp hle) (Nat.not_lt.mp hroom)]
          rfl

/-- **One round of the program, on what is left of the input.** No access of it is refused. -/
theorem lz4Body_eq {p : List UInt8 × List UInt8} (h : p.1 <:+ src) (hcap : cap < 2 ^ 32)
    (hout : p.2.length ≤ cap) :
    lz4Body src cap (front src p) = (round cap p).map (front src) returns := by
  obtain ⟨bs, out⟩ := p
  cases bs with
  | nil => simp [lz4Body, round, front, returns]
  | cons token bs =>
    have h₁ := suffix_of_cons h
    have hbits : token.toNat / 16 < 16 := Nat.div_lt_of_lt_mul (UInt8.toNat_lt token)
    have hlt : ¬ src.length ≤ (front src (token :: bs, out)).ip := Nat.not_le.mpr (front_lt h)
    rw [lz4Body, if_neg hlt,
      show src[(front src (token :: bs, out)).ip]? = some token from getElem?_front h]
    dsimp only
    rw [show (front src (token :: bs, out)).ip + 1 = src.length - bs.length from front_succ h,
      show (front src (token :: bs, out)).out = out from rfl, Nat.shiftRight_eq_div_pow,
      show 2 ^ 4 = 16 from rfl, readLength_eq h₁ hbits, round]
    cases hlen : length (token.toNat / 16) bs with
    | none => rfl
    | some r =>
      obtain ⟨l, bs₁⟩ := r
      obtain ⟨xs, hxs⟩ := length_suffix hlen
      have h₂ : bs₁ <:+ src := (hxs ▸ List.suffix_append xs bs₁).trans h₁
      have hle := h₂.length_le
      dsimp only [wrapped]
      generalize l % 2 ^ 32 = l
      have hiff : src.length < src.length - bs₁.length + l ↔ bs₁.length < l := by omega
      by_cases hin : bs₁.length < l
      · rw [if_pos (hiff.mpr hin), if_pos (.inl hin)]
        rfl
      · have hin' := mt hiff.mp hin
        by_cases hroom : cap < out.length + l
        · rw [if_neg hin', if_pos hroom, if_pos (.inr hroom)]
          rfl
        · rw [if_neg hin', if_neg hroom, if_neg (not_or.mpr ⟨hin, hroom⟩)]
          rw [show Lz4State.mk (src.length - bs₁.length) out = front src (bs₁, out) from rfl,
            copyLiterals_eq h₂ (Nat.not_lt.mp hin) (Nat.not_lt.mp hroom)]
          dsimp only
          have hip : src.length ≤ (front src (bs₁.drop l, out ++ bs₁.take l)).ip ↔
              bs₁.length = l := by
            simp only [front, List.length_drop]
            have := List.length_pos_iff.mpr (show src ≠ [] by rintro rfl; simp at h)
            omega
          by_cases hend : bs₁.length = l
          · rw [if_pos (hip.mpr hend), if_pos hend, List.take_of_length_le (Nat.le_of_eq hend)]
            rfl
          · rw [if_neg (mt hip.mp hend), if_neg hend]
            refine lz4Match_eq ((List.drop_suffix l bs₁).trans h₂) hcap ?_
            rw [List.length_append, List.length_take]
            omega

end Reads

/-! ## The rounds and the meaning of a block -/

/-- What a round has done that is followed by another one. -/
structure Steps (cap : ℕ) (token : UInt8) (bs out rest out' : List UInt8) (l n : ℕ) (b₀ b₁ : UInt8)
    (bs₁ bs₂ : List UInt8) : Prop where
  literals : length (token.toNat / 16) bs = some (l, bs₁)
  inside : l % 2 ^ 32 ≤ bs₁.length
  follows : bs₁.drop (l % 2 ^ 32) = b₀ :: b₁ :: bs₂
  offset_pos : 0 < offset b₀ b₁
  offset_le : offset b₀ b₁ ≤ (out ++ bs₁.take (l % 2 ^ 32)).length
  copies : length (token.toNat % 16) bs₂ = some (n, rest)
  room : (out ++ bs₁.take (l % 2 ^ 32)).length + (n + 4) % 2 ^ 32 ≤ cap
  output : out' = copyBack (offset b₀ b₁) ((n + 4) % 2 ^ 32) (out ++ bs₁.take (l % 2 ^ 32))

theorem roundMatch_inl {token : UInt8} (h : roundMatch cap token bs out = .inl (rest, out')) :
    ∃ b₀ b₁ bs₂ n, bs = b₀ :: b₁ :: bs₂ ∧ 0 < offset b₀ b₁ ∧ offset b₀ b₁ ≤ out.length ∧
      length (token.toNat % 16) bs₂ = some (n, rest) ∧ out.length + (n + 4) % 2 ^ 32 ≤ cap ∧
      out' = copyBack (offset b₀ b₁) ((n + 4) % 2 ^ 32) out := by
  rcases bs with _ | ⟨b₀, _ | ⟨b₁, bs₂⟩⟩
  · cases h
  · cases h
  · rw [roundMatch] at h
    split at h
    · cases h
    · rename_i hoff
      obtain ⟨hpos, hle⟩ := not_or.mp hoff
      split at h
      · cases h
      · rename_i n rest' hlen
        split at h
        · cases h
        · rename_i hroom
          cases h
          exact ⟨b₀, b₁, bs₂, n, rfl, Nat.pos_of_ne_zero hpos, Nat.not_lt.mp hle, hlen,
            Nat.not_lt.mp hroom, rfl⟩

theorem roundMatch_inr {token : UInt8} {r : Bool × List UInt8}
    (h : roundMatch cap token bs out = .inr r) : r = (false, out) := by
  unfold roundMatch at h
  split at h
  · split at h
    · cases h
      rfl
    · split at h
      · cases h
        rfl
      · split at h
        · cases h
          rfl
        · cases h
  · cases h
    rfl

theorem Goes.steps {p q : List UInt8 × List UInt8} (h : Goes (round cap) p q) :
    ∃ token bs l n b₀ b₁ bs₁ bs₂, p.1 = token :: bs ∧
      Steps cap token bs p.2 q.1 q.2 l n b₀ b₁ bs₁ bs₂ := by
  obtain ⟨bs, out⟩ := p
  obtain ⟨rest, out'⟩ := q
  rw [Goes] at h
  cases bs with
  | nil => cases h
  | cons token bs =>
    rw [round] at h
    split at h
    · cases h
    · rename_i l bs₁ hlen
      split at h
      · cases h
      · rename_i hok
        obtain ⟨hin, -⟩ := not_or.mp hok
        split at h
        · cases h
        · obtain ⟨b₀, b₁, bs₂, n, hbs, hpos, hle, hn, hroom, hout⟩ := roundMatch_inl h
          exact ⟨token, bs, l, n, b₀, b₁, bs₁, bs₂, rfl, hlen, Nat.not_lt.mp hin, hbs, hpos, hle, hn,
            hroom, hout⟩

theorem round_true (h : round cap (bs, out) = .inr (true, out')) :
    (bs = [] ∧ out' = out) ∨ ∃ token bs₀ l bs₁, bs = token :: bs₀ ∧
      length (token.toNat / 16) bs₀ = some (l, bs₁) ∧ bs₁.length = l % 2 ^ 32 ∧
      out.length + bs₁.length ≤ cap ∧ out' = out ++ bs₁ := by
  cases bs with
  | nil =>
    cases h
    exact .inl ⟨rfl, rfl⟩
  | cons token bs =>
    rw [round] at h
    split at h
    · cases h
    · rename_i l bs₁ hlen
      split at h
      · cases h
      · rename_i hok
        obtain ⟨-, hroom⟩ := not_or.mp hok
        split at h
        · rename_i hend
          cases h
          rw [← hend] at hroom
          exact .inr ⟨token, bs, l, bs₁, rfl, hlen, hend, Nat.not_lt.mp hroom, rfl⟩
        · cases roundMatch_inr h

theorem round_inr_le {r : Bool × List UInt8} (h : round cap (bs, out) = .inr r)
    (hout : out.length ≤ cap) : r.2.length ≤ cap := by
  obtain ⟨_ | _, out'⟩ := r
  · cases bs with
    | nil => cases h
    | cons token bs =>
      rw [round] at h
      split at h
      · cases h
        exact hout
      · split at h
        · cases h
          exact hout
        · rename_i hok
          obtain ⟨hin, hroom⟩ := not_or.mp hok
          split at h
          · cases h
          · cases roundMatch_inr h
            dsimp only
            rw [List.length_append, List.length_take, Nat.min_eq_left (Nat.not_lt.mp hin)]
            exact Nat.not_lt.mp hroom
  · obtain ⟨-, rfl⟩ | ⟨token, bs₀, l, bs₁, -, -, -, hroom, rfl⟩ := round_true h
    · exact hout
    · dsimp only
      rwa [List.length_append]

variable {l : ℕ} {b₀ b₁ token : UInt8} {bs₁ bs₂ : List UInt8}

namespace Steps

variable (h : Steps cap token bs out rest out' l n b₀ b₁ bs₁ bs₂)
include h

theorem length_output : out'.length ≤ cap := by
  rw [h.output, length_copyBack h.offset_pos h.offset_le]
  exact h.room

theorem suffix : rest <:+ bs := by
  obtain ⟨xs, hxs⟩ := length_suffix h.literals
  obtain ⟨ys, hys⟩ := length_suffix h.copies
  have hdrop := List.drop_suffix (l % 2 ^ 32) bs₁
  rw [h.follows, hys] at hdrop
  refine (((List.suffix_append ys rest).trans ?_).trans hdrop).trans ⟨xs, hxs.symm⟩
  exact (List.suffix_cons b₁ _).trans (List.suffix_cons b₀ _)

theorem goes : Goes (round cap) (token :: bs, out) (rest, out') := by
  have hlen := congrArg List.length h.follows
  have hroom := h.room
  have hin := h.inside
  simp only [List.length_drop, List.length_cons] at hlen
  rw [List.length_append, List.length_take_of_le hin] at hroom
  have hoff : ¬ (offset b₀ b₁ = 0 ∨ (out ++ bs₁.take (l % 2 ^ 32)).length < offset b₀ b₁) :=
    not_or.mpr ⟨h.offset_pos.ne', Nat.not_lt.mpr h.offset_le⟩
  rw [Goes, round, h.literals]
  dsimp only
  rw [if_neg (by omega), if_neg (by omega), h.follows, roundMatch, if_neg hoff, h.copies]
  dsimp only
  rw [if_neg (Nat.not_lt.mpr h.room), h.output]

theorem lengths (hl : l < 2 ^ 32) (k : ℕ) :
    Lz4.lengths k (token :: bs) = l :: (n + k) :: Lz4.lengths k rest := by
  have hfollows := h.follows
  rw [Nat.mod_eq_of_lt hl] at hfollows
  rw [Lz4.lengths]
  split
  · rename_i hnone
    rw [h.literals] at hnone
    cases hnone
  · rename_i l' bs' hsome
    cases h.literals.symm.trans hsome
    congr 1
    split
    · rename_i hdrop
      cases hfollows.symm.trans hdrop
      split
      · rename_i hnone
        rw [h.copies] at hnone
        cases hnone
      · rename_i hsome
        cases h.copies.symm.trans hsome
        rfl
    · rename_i hdrop
      exact (hdrop _ _ _ hfollows).elim

end Steps

theorem mem_lengths {k : ℕ} (h : length (token.toNat / 16) bs = some (l, bs₁)) :
    l ∈ lengths k (token :: bs) := by
  rw [lengths]
  split
  · rename_i hnone
    rw [h] at hnone
    cases hnone
  · rename_i hsome
    cases h.symm.trans hsome
    exact List.mem_cons_self

theorem Ends.expands {p : List UInt8 × List UInt8} {r : Bool × List UInt8}
    (h : Ends (round cap) p r) (hr : r.1 = true) (hlen : ∀ n ∈ lengths 4 p.1, n < 2 ^ 32) :
    Expands p.1 p.2 r.2 := by
  induction h with
  | @stop p r hstop =>
    obtain ⟨bs, out⟩ := p
    obtain ⟨ok, out'⟩ := r
    obtain rfl : ok = true := hr
    obtain ⟨rfl, rfl⟩ | ⟨token, bs₀, l, bs₁, rfl, hlits, hend, -, rfl⟩ := round_true hstop
    · exact .done _
    · rw [Nat.mod_eq_of_lt (hlen l (mem_lengths hlits))] at hend
      rw [← hend] at hlits
      exact .last hlits
  | @next p q r hgo _ ih =>
    obtain ⟨bs, out⟩ := p
    obtain ⟨token, bs, l, n, b₀, b₁, bs₁, bs₂, rfl, hsteps⟩ := Goes.steps hgo
    have hl := hlen l (mem_lengths hsteps.literals)
    have hlengths := hsteps.lengths hl 4
    dsimp only at hlen
    rw [hlengths] at hlen
    have hn := hlen (n + 4) (List.mem_cons_of_mem _ List.mem_cons_self)
    have hrest := ih hr fun k hk => hlen k (List.mem_cons_of_mem _ (List.mem_cons_of_mem _ hk))
    obtain ⟨hlits, hin, hfollows, hpos, hle, hcopies, -, hout⟩ := hsteps
    rw [Nat.mod_eq_of_lt hl] at hin hfollows hle hout
    rw [Nat.mod_eq_of_lt hn] at hout
    rw [hout] at hrest
    refine .next ?_ hpos hle hcopies hrest
    rw [List.length_take_of_le hin, ← hfollows, List.take_append_drop]
    exact hlits

theorem Expands.length_le (h : Expands bs out out') : out.length ≤ out'.length := by
  induction h with
  | done out => exact Nat.le_refl _
  | last _ =>
    rw [List.length_append]
    exact Nat.le_add_right _ _
  | next _ hpos hle _ _ ih =>
    rw [length_copyBack hpos hle, List.length_append] at ih
    omega

theorem lz4Decompress_eq (src : List UInt8) (hcap : cap < 2 ^ 32) :
    ∃ r, Ends (round cap) (src, []) r ∧ r.2.length ≤ cap ∧
      lz4Decompress src cap = some (returns r) := by
  -- what is left is a suffix of the input, and what is written has room
  let P (p : List UInt8 × List UInt8) : Prop := p.1 <:+ src ∧ p.2.length ≤ cap
  have hgoes : ∀ p q, P p → Goes (round cap) p q → P q ∧ q.1.length < p.1.length := by
    rintro ⟨bs, out⟩ q ⟨hsuf, -⟩ hgo
    obtain ⟨token, bs, l, n, b₀, b₁, bs₁, bs₂, rfl, hsteps⟩ := Goes.steps hgo
    exact ⟨⟨hsteps.suffix.trans (suffix_of_cons hsuf), hsteps.length_output⟩,
      Nat.lt_succ_of_le hsteps.suffix.length_le⟩
  have hstart : P (src, []) := ⟨List.suffix_rfl, Nat.zero_le _⟩
  obtain ⟨r, hends, hr⟩ := exists_ends (Q := fun r => r.2.length ≤ cap) (fun p => p.1.length) hgoes
    (fun p r hp hstop => round_inr_le hstop hp.2) hstart
  have hloop := hends.loop_eq (fun p => p.1.length) hgoes hstart (Nat.lt_succ_self _)
  have hmap := loop_map (front src) returns (fun p hp => lz4Body_eq hp.1 hcap hp.2)
    (fun p q hp hgo => (hgoes p q hp hgo).1) hstart (src.length + 1)
  rw [hloop, Option.map_some] at hmap
  refine ⟨r, hends, hr, ?_⟩
  rw [lz4Decompress, ← hmap, front, Nat.sub_self]

end Lz4

theorem bmod_of_lt {n m : ℕ} (h : n < (m + 1) / 2) : (n : ℤ).bmod m = n := by
  rw [Int.bmod_eq_of_le] <;> omega

theorem bmod_neg_of_le {n m : ℕ} (h : (m + 1) / 2 ≤ n) (hn : n < m) : (n : ℤ).bmod m < 0 := by
  rw [Int.bmod_def, Int.emod_eq_of_lt (by omega) (by omega), if_neg (by omega)]
  omega

theorem toInt_of_lt {n : ℕ} (h : n < 2 ^ 31) : toInt n = n := bmod_of_lt h

theorem lt_of_toInt_nonneg {n : ℕ} (hn : n < 2 ^ 32) (h : 0 ≤ toInt n) : n < 2 ^ 31 := by
  by_contra hge
  have hneg : toInt n < 0 := bmod_neg_of_le (Nat.not_lt.mp hge) hn
  omega

open Lz4 in
/-- **The decompressor is safe and exact on every input.** It ends, no access is refused, it writes
no more than there is room for and returns -1 or the number of bytes it has written; where every
length of the block fits into 32 bits and the call succeeds, the output is the expansion of the
block. -/
theorem lz4Decompress_exact (src : List UInt8) (cap : ℕ) (hcap : cap < 2 ^ 32) :
    ∃ n out, lz4Decompress src cap = some (.ret n out) ∧ out.length ≤ cap ∧
      (out.length < 2 ^ 31 → n = -1 ∨ n = out.length) ∧
      (0 ≤ n → (∀ k ∈ lengths 4 src, k < 2 ^ 32) → n = out.length ∧ Expands src [] out) := by
  obtain ⟨⟨ok, out⟩, hends, hroom, hcall⟩ := lz4Decompress_eq src hcap
  cases ok with
  | false =>
    rw [returns] at hcall
    refine ⟨-1, out, hcall, hroom, fun _ => .inl rfl, fun hn => ?_⟩
    omega
  | true =>
    rw [returns] at hcall
    refine ⟨toInt out.length, out, hcall, hroom, fun hlt => .inr (toInt_of_lt hlt),
      fun hn hlen => ⟨?_, Ends.expands hends rfl hlen⟩⟩
    exact toInt_of_lt (lt_of_toInt_nonneg (Nat.lt_of_le_of_lt hroom hcap) hn)

open Lz4 in
/-- A letter, five copies of it, and an empty last sequence. -/
theorem lz4Decompress_exact_letter :
    lz4Decompress [0x11, 0x41, 1, 0, 0] 8 = some (.ret 6 (List.replicate 6 0x41)) ∧
      ∃ n out, lz4Decompress [0x11, 0x41, 1, 0, 0] 8 = some (.ret n out) ∧ out.length ≤ 8 ∧
        (out.length < 2 ^ 31 → n = -1 ∨ n = out.length) ∧
        (0 ≤ n → (∀ k ∈ lengths 4 [0x11, 0x41, 1, 0, 0], k < 2 ^ 32) →
          n = out.length ∧ Expands [0x11, 0x41, 1, 0, 0] [] out) :=
  ⟨by decide, lz4Decompress_exact _ 8 (by norm_num)⟩

/-! ## A length that does not fit -/

namespace Lz4

theorem longLength_replicate (n k : ℕ) {r : UInt8} (hr : r ≠ 255) (bs : List UInt8) :
    longLength n (List.replicate k 255 ++ r :: bs) = some (n + 255 * k + r.toNat, bs) := by
  induction k generalizing n with
  | zero => rw [List.replicate_zero, List.nil_append, longLength, if_neg hr, Nat.mul_zero]; rfl
  | succ k ih =>
    rw [List.replicate_succ, List.cons_append, longLength, if_pos rfl, ih]
    congr 2
    omega

/-- A letter and a copy of it whose length has `k` bytes 255 and the byte `r`. -/
def longCopy (k : ℕ) (r : UInt8) : List UInt8 :=
  0x1F :: 0x41 :: 1 :: 0 :: (List.replicate k 255 ++ [r])

theorem longCopy_literals (k : ℕ) (r : UInt8) :
    length ((0x1F : UInt8).toNat / 16) (0x41 :: 1 :: 0 :: (List.replicate k 255 ++ [r])) =
      some (1, 0x41 :: 1 :: 0 :: (List.replicate k 255 ++ [r])) := rfl

theorem longCopy_copies (k : ℕ) {r : UInt8} (hr : r ≠ 255) :
    length ((0x1F : UInt8).toNat % 16) (List.replicate k 255 ++ [r]) =
      some (15 + 255 * k + r.toNat, []) := longLength_replicate 15 k hr []

theorem longCopy_steps {k : ℕ} {r : UInt8} (hr : r ≠ 255)
    (hk : (15 + 255 * k + r.toNat + 4) % 2 ^ 32 = 2) :
    Steps 3 0x1F (0x41 :: 1 :: 0 :: (List.replicate k 255 ++ [r])) [] [] [0x41, 0x41, 0x41] 1
      (15 + 255 * k + r.toNat) 1 0 (0x41 :: 1 :: 0 :: (List.replicate k 255 ++ [r]))
      (List.replicate k 255 ++ [r]) := by
  refine ⟨longCopy_literals k r, ?_, rfl, by decide, by simp [offset], longCopy_copies k hr, ?_, ?_⟩
  · exact Nat.succ_le_of_lt (Nat.succ_pos _)
  · rw [hk]
    simp
  · rw [hk]
    rfl

theorem longCopy_long {k : ℕ} {r : UInt8} (hr : r ≠ 255) {out : List UInt8}
    (h : Expands (longCopy k r) [] out) : k < out.length := by
  cases h with
  | last hlits =>
    rw [longCopy_literals] at hlits
    obtain ⟨hlen, hbs⟩ := Prod.mk.inj (Option.some.inj hlits)
    rw [← hbs] at hlen
    simp at hlen
  | next hlits hpos hle hmatch hrest =>
    rw [longCopy_literals] at hlits
    obtain ⟨hlen, hbs⟩ := Prod.mk.inj (Option.some.inj hlits)
    obtain ⟨b, rfl⟩ := List.length_eq_one_iff.mp hlen.symm
    obtain ⟨rfl, rfl, rfl, rfl⟩ : _ ∧ _ ∧ _ ∧ _ := by simpa using hbs
    cases (longCopy_copies k hr).symm.trans hmatch
    have hlong := hrest.length_le
    rw [length_copyBack hpos hle] at hlong
    omega

end Lz4

open Lz4 in
/-- The fields of a block may fit into 32 bits, and also their sum, where the length of a copy, four
more than its field, does not: the program then writes the three bytes of another block. -/
theorem lz4Decompress_wraps : (lengths 0 (longCopy 16843008 239)).sum < 2 ^ 32 ∧
    lz4Decompress (longCopy 16843008 239) 3 = some (.ret 3 [0x41, 0x41, 0x41]) ∧
    ¬ Expands (longCopy 16843008 239) [] [0x41, 0x41, 0x41] := by
  have hsteps : Steps 3 _ _ _ _ _ _ _ _ _ _ _ :=
    longCopy_steps (k := 16843008) (r := 239) (by decide) rfl
  have hends : Ends (round 3) (longCopy 16843008 239, []) (true, [0x41, 0x41, 0x41]) :=
    .next hsteps.goes (.stop rfl)
  obtain ⟨r, hr, -, hcall⟩ := lz4Decompress_eq (longCopy 16843008 239) (show 3 < 2 ^ 32 by norm_num)
  cases hends.unique hr
  refine ⟨?_, hcall, fun hexp => ?_⟩
  · rw [longCopy, hsteps.lengths (by norm_num) 0, lengths]
    rw [show (239 : UInt8).toNat = 239 from rfl]
    norm_num
  · have hlong := longCopy_long (by decide) hexp
    simp at hlong

end Lume
