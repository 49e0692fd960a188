import Lume.Klog.Model
import Lume.Foundation.RingStream
import Lume.Foundation.Transition

/-!
# What the log delivers

The log as its readers should see it: entries are stored one after the other, a reader takes the
oldest ones it has not seen, and when there is no room the oldest unread ones are lost. The ring
buffer refines this, in every run in which no write has to drop entries while the 32-bit position
counters have wrapped between a cursor and the head.

The ring compares positions with `<` and `min`. Once the head has wrapped and a cursor has not,
the comparison takes the newer cursor for the older one: nothing is dropped, and unread entries
are overwritten.

## Main definitions

* `KlogSpec`, `KlogSpec.Step`: the log as its readers see it
* `Klog.InOrder`: the condition
* `Klog.Points`: a cursor is on the boundary of entries that are intact
* `Klog.Delivers`: the ring delivers what the log holds

## Main results

* `klog_delivers`: the ring buffer refines the log
* `wrapped_ring_overruns`: what goes wrong otherwise
-/

namespace Lume

/-! ## The log as its readers see it -/

/-- The line that a reader gets for an entry. -/
def KlogEntry.line (e : KlogEntry) : List UInt8 := klogFormatLine e.hdr e.msg

/-- The lines for a list of entries. -/
def klogLines (l : List KlogEntry) : List UInt8 := l.flatMap KlogEntry.line

/-- The number of bytes that entries take in the ring. -/
def logSize (l : List KlogEntry) : ℕ := (l.flatMap KlogEntry.bytes).length

/-- The entries that are no longer waiting for a reader, each with whether it was read or lost,
those that are, the next sequence number and the mask. -/
structure KlogSpec where
  done : List (KlogEntry × Bool)
  unread : List KlogEntry
  seq : ℕ
  mask : BitVec 64

namespace KlogSpec

/-- The log after `klog_init`. -/
def init : KlogSpec := ⟨[], [], 0, (1#64 <<< kKlogSubsysMax) - 1⟩

/-- All entries, oldest first. -/
def stored (σ : KlogSpec) : List KlogEntry := σ.done.map Prod.fst ++ σ.unread

/-- The entries that were read. -/
def delivered (σ : KlogSpec) : List KlogEntry := (σ.done.filter (·.2)).map Prod.fst

/-- The entries that were lost. -/
def lost (σ : KlogSpec) : List KlogEntry := (σ.done.filter (!·.2)).map Prod.fst

/-- The oldest `k` unread entries are read (`true`) or lost (`false`). -/
def take (σ : KlogSpec) (k : ℕ) (how : Bool) : KlogSpec :=
  { σ with done := σ.done ++ (σ.unread.take k).map (·, how), unread := σ.unread.drop k }

/-- A buffer of `size` bytes takes the lines of the first `k` of the entries, and not of more. -/
structure Fits (size : ℤ) (l : List KlogEntry) (k : ℕ) : Prop where
  le : k ≤ l.length
  fits : k = 0 ∨ ((klogLines (l.take k)).length : ℤ) ≤ size
  full : k = l.length ∨ size < (klogLines (l.take (k + 1))).length

/-- One call. A write loses unread entries only as far as there is no room for the new one. -/
inductive Step : KlogSpec → KlogOp × List UInt8 → KlogSpec → Prop
  | skip (σ : KlogSpec) (c : KlogCall) (out : List UInt8)
    (hnone : c.entry true σ.mask σ.seq = none) : Step σ (.write c, out) σ
  | write (σ : KlogSpec) (c : KlogCall) (out : List UInt8) (e : KlogEntry) (k : ℕ)
    (hsome : c.entry true σ.mask σ.seq = some e)
    (hroom : k = 0 ∨ kKlogBufSize < e.bytes.length + logSize (σ.unread.drop (k - 1))) :
    Step σ (.write c, out)
      { σ.take k false with
        unread := σ.unread.drop k ++ [e], seq := (σ.seq + 1) % 2 ^ 32 }
  | read (σ : KlogSpec) (size : ℤ) (k : ℕ) (hfits : Fits size σ.unread k) :
    Step σ (.read size, klogLines (σ.unread.take k)) σ
  | readConsume (σ : KlogSpec) (size : ℤ) (k : ℕ) (hfits : Fits size σ.unread k) :
    Step σ (.readConsume size, klogLines (σ.unread.take k)) (σ.take k true)
  | flush (σ : KlogSpec) (out : List UInt8) : Step σ (.flush, out) σ
  | setLevel (σ : KlogSpec) (level : ℕ) (out : List UInt8) : Step σ (.setLevel level, out) σ
  | setSubsysMask (σ : KlogSpec) (mask : BitVec 64) (out : List UInt8) :
    Step σ (.setSubsysMask mask, out) { σ with mask := mask }

end KlogSpec

/-- What a run of calls of `klog_read_consume` has returned, in order. -/
def consumed (ls : List (KlogOp × List UInt8)) : List UInt8 :=
  ls.flatMap fun l =>
    match l.1 with
    | .readConsume _ => l.2
    | _ => []

theorem KlogSpec.consumed_eq {ls : List (KlogOp × List UInt8)} {σ : KlogSpec}
    (hr : Run KlogSpec.Step KlogSpec.init ls σ) : consumed ls = klogLines σ.delivered := by
  generalize hσ : KlogSpec.init = σ₀ at hr
  induction hr with
  | nil => rw [← hσ]; rfl
  | @snoc σ₁ σ₂ ls l hrun hstep ih =>
    have happ : consumed (ls ++ [l]) = consumed ls ++ consumed [l] := List.flatMap_append
    rw [happ, ih]
    cases hstep with
    | skip | read | flush | setLevel | setSubsysMask => exact List.append_nil _
    | write c out e k =>
      have hnone : ((σ₁.unread.take k).map fun e => (e, false)).filter (·.2) = [] := by
        rw [List.filter_map]
        simp [Function.comp_def]
      simp only [delivered, KlogSpec.take, List.filter_append, hnone, List.append_nil]
      exact List.append_nil _
    | readConsume size k =>
      have hall : ((σ₁.unread.take k).map fun e => (e, true)).filter (·.2) =
          (σ₁.unread.take k).map fun e => (e, true) := by
        rw [List.filter_map]
        simp [Function.comp_def]
      simp only [delivered, KlogSpec.take, List.filter_append, hall, List.map_append, klogLines,
        List.flatMap_append, List.map_map]
      simp [consumed, Function.comp_def]

/-! ## Positions -/

theorem sub32_add {a b : ℕ} (hb : b < 2 ^ 32) : sub32 ((a + b) % 2 ^ 32) (a % 2 ^ 32) = b := by
  rw [sub32]
  omega

theorem sub32_of_le {a b : ℕ} (h : b ≤ a) (ha : a < 2 ^ 32) : sub32 a b = a - b := by
  rw [sub32]
  omega

theorem cell_eq (q i : ℕ) : Klog.cell ((q % 2 ^ 32 + i) % 2 ^ 32) = (q + i) % kKlogBufSize := by
  rw [Klog.cell, kKlogBufSize, Nat.and_two_pow_sub_one_eq_mod]
  omega

@[simp] theorem logSize_nil : logSize [] = 0 := rfl

theorem logSize_append (l l' : List KlogEntry) : logSize (l ++ l') = logSize l + logSize l' := by
  rw [logSize, List.flatMap_append, List.length_append]
  rfl

theorem logSize_cons (e : KlogEntry) (l : List KlogEntry) :
    logSize (e :: l) = e.bytes.length + logSize l := by
  rw [logSize, List.flatMap_cons, List.length_append]
  rfl

/-! ## Entries in the ring -/

theorem KlogHdr.length_bytes (h : KlogHdr) (pad : ℕ) : (h.bytes pad).length = kKlogHdrSize := by
  simp [KlogHdr.bytes, kKlogHdrSize]

theorem KlogEntry.length_bytes (e : KlogEntry) : e.bytes.length = kKlogHdrSize + e.msg.length := by
  rw [KlogEntry.bytes, List.length_append, KlogHdr.length_bytes]

/-- The fields of the header fit, and its length is that of the message. -/
structure KlogEntry.Ok (e : KlogEntry) : Prop where
  len_eq : e.hdr.len = e.msg.length
  len_le : e.msg.length ≤ kKlogLineMax
  seq_lt : e.hdr.seq < 2 ^ 32
  ts_lt : e.hdr.ts < 2 ^ 64
  cpu_lt : e.hdr.cpu < 2 ^ 16
  level_lt : e.hdr.level < 2 ^ 8
  subsys_lt : e.hdr.subsys < 2 ^ 8
  reserved_lt : e.hdr.reserved < 2 ^ 16

theorem KlogEntry.Ok.ofBytes {e : KlogEntry} (h : e.Ok) :
    KlogHdr.ofBytes (e.hdr.bytes e.pad) = e.hdr := by
  have hlen : e.hdr.len < 256 ^ 4 := by
    have := h.len_le
    rw [h.len_eq]
    exact lt_of_le_of_lt this (by decide)
  have hseq := ofLe_toLe_of_lt (k := 4) h.seq_lt
  have hlen' := ofLe_toLe_of_lt hlen
  have hts := ofLe_toLe_of_lt (k := 8) h.ts_lt
  have hcpu := ofLe_toLe_of_lt (k := 2) h.cpu_lt
  have hlevel := ofLe_toLe_of_lt (k := 1) h.level_lt
  have hsubsys := ofLe_toLe_of_lt (k := 1) h.subsys_lt
  have hreserved := ofLe_toLe_of_lt (k := 2) h.reserved_lt
  rw [KlogHdr.ofBytes, KlogHdr.bytes]
  simp only [List.append_assoc, List.drop_append, List.take_append, length_toLe, List.drop_eq_nil_of_le,
    List.take_of_length_le, Nat.sub_self, List.take_zero, List.drop_zero, List.append_nil,
    List.nil_append, Nat.reduceSub, Nat.reduceLeDiff, hseq, hlen', hts, hcpu, hlevel, hsubsys,
    hreserved]

theorem KlogCall.entry_ok {c : KlogCall} {mask : BitVec 64} {seq : ℕ} {e : KlogEntry}
    (hseq : seq < 2 ^ 32) (h : c.entry true mask seq = some e) : e.Ok := by
  rw [KlogCall.entry] at h
  split at h
  · cases h
  obtain ⟨text, -, rfl⟩ := Option.map_eq_some_iff.mp h
  have hlen : (klogMessage text).length ≤ kKlogLineMax := by
    rw [klogMessage]
    split
    · omega
    · rw [List.length_append, List.length_take, List.length_singleton]
      have : kKlogLineMax = 256 := rfl
      omega
  have hsub : c.subsystem < 2 ^ 8 := by
    rw [KlogCall.subsystem, kKlogSubsysMax]
    split <;> omega
  exact ⟨rfl, hlen, hseq, Nat.mod_lt _ (by decide), Nat.mod_lt _ (by decide),
    Nat.mod_lt _ (by decide), hsub, Nat.two_pow_pos 16⟩

namespace Klog

variable {s : Klog} {old rest log : List KlogEntry} {e : KlogEntry}

/-- An entry is in the ring. -/
def Holds (s : Klog) (pos : ℕ) (e : KlogEntry) : Prop :=
  s.ringReadBytes pos e.bytes.length = e.bytes

theorem take_ringReadBytes (s : Klog) (pos : ℕ) {n m : ℕ} (h : n ≤ m) :
    s.ringReadBytes pos n = (s.ringReadBytes pos m).take n := by
  rw [ringReadBytes, ringReadBytes, ← List.map_take, List.take_range, Nat.min_eq_left h]

theorem drop_ringReadBytes (s : Klog) (pos k n : ℕ) :
    s.ringReadBytes ((pos + k) % 2 ^ 32) n = (s.ringReadBytes pos (k + n)).drop k := by
  rw [ringReadBytes, ringReadBytes, List.range_add, List.map_append, List.map_map,
    List.drop_left' (by rw [List.length_map, List.length_range])]
  refine List.map_congr_left fun i _ => ?_
  rw [Function.comp_apply, Nat.mod_add_mod, Nat.add_assoc]

namespace Holds

variable {pos : ℕ}

theorem hdrAt (h : s.Holds pos e) (hok : e.Ok) : s.hdrAt pos = e.hdr := by
  have hbytes := e.length_bytes
  rw [Klog.hdrAt, take_ringReadBytes s pos (by omega : kKlogHdrSize ≤ e.bytes.length), h,
    KlogEntry.bytes, List.take_left' (e.hdr.length_bytes e.pad), hok.ofBytes]

theorem lineAt (h : s.Holds pos e) (hok : e.Ok) : s.lineAt pos = e.line := by
  rw [Klog.lineAt, h.hdrAt hok, hok.len_eq, Nat.min_eq_left hok.len_le, KlogEntry.line,
    drop_ringReadBytes, ← e.length_bytes, h, KlogEntry.bytes,
    List.drop_left' (e.hdr.length_bytes e.pad)]

end Holds

/-- The ring holds the end of the log. -/
structure Stream (s : Klog) (log : List KlogEntry) : Prop where
  ok : ∀ e ∈ log, e.Ok
  head_eq : s.head = logSize log % 2 ^ 32
  mirrors : Mirrors kKlogBufSize s.data (log.flatMap KlogEntry.bytes)

theorem ringReadBytes_eq (s : Klog) (q n : ℕ) :
    s.ringReadBytes (q % 2 ^ 32) n = ringGet kKlogBufSize s.data q n := by
  rw [ringReadBytes, ringGet]
  simp only [cell_eq]

theorem putBytes_eq (data : ℕ → UInt8) (q : ℕ) (l : List UInt8) :
    putBytes data (q % 2 ^ 32) l = ringPut kKlogBufSize data q l := by
  induction l generalizing data q with
  | nil => rfl
  | cons b l ih =>
    have hcell := cell_eq q 0
    rw [Nat.add_zero, Nat.add_zero, Nat.mod_mod] at hcell
    rw [putBytes, ringPut, hcell, Nat.mod_add_mod, ih]

namespace Stream

theorem ringReadBytes (h : s.Stream (old ++ rest)) (hcap : logSize rest ≤ kKlogBufSize) {n : ℕ}
    (hn : n ≤ logSize rest) : s.ringReadBytes (logSize old % 2 ^ 32) n =
      (rest.flatMap KlogEntry.bytes).take n := by
  have hlen : ((old ++ rest).flatMap KlogEntry.bytes).length = logSize old + logSize rest :=
    logSize_append old rest
  rw [ringReadBytes_eq, h.mirrors.get (by omega) (by omega), List.flatMap_append]
  congr 1
  exact List.drop_left' rfl

section

variable (h : s.Stream (old ++ e :: rest)) (hcap : logSize (e :: rest) ≤ kKlogBufSize)
include h hcap

theorem holds : s.Holds (logSize old % 2 ^ 32) e := by
  have hsize := logSize_cons e rest
  rw [Holds, h.ringReadBytes hcap (by omega), List.flatMap_cons]
  exact List.take_left' rfl

theorem hdrAt : s.hdrAt (logSize old % 2 ^ 32) = e.hdr :=
  (h.holds hcap).hdrAt (h.ok e (by simp))

theorem nextPos : s.nextPos (logSize old % 2 ^ 32) = logSize (old ++ [e]) % 2 ^ 32 := by
  rw [Klog.nextPos, h.hdrAt hcap, (h.ok e (by simp)).len_eq, logSize_append, logSize_cons,
    e.length_bytes, logSize_nil]
  omega

theorem lineAt : s.lineAt (logSize old % 2 ^ 32) = e.line :=
  (h.holds hcap).lineAt (h.ok e (by simp))

end

theorem sub_head (h : s.Stream (old ++ rest)) (hcap : logSize rest ≤ kKlogBufSize) :
    sub32 s.head (logSize old % 2 ^ 32) = logSize rest := by
  rw [h.head_eq, logSize_append]
  exact sub32_add (lt_of_le_of_lt hcap (by decide))

theorem ne_head (h : s.Stream (old ++ e :: rest)) (hcap : logSize (e :: rest) ≤ kKlogBufSize) :
    logSize old % 2 ^ 32 ≠ s.head := by
  intro he
  have hsub := h.sub_head hcap
  have hpos : 0 < logSize (e :: rest) := by
    rw [logSize_cons, e.length_bytes, kKlogHdrSize]
    omega
  rw [← he, sub32] at hsub
  omega

theorem write (h : s.Stream log) (hok : e.Ok) :
    ((s.ringWriteBytes (e.hdr.bytes e.pad)).ringWriteBytes e.msg).Stream (log ++ [e]) := by
  have hbytes := (h.mirrors.append (e.hdr.bytes e.pad)).append e.msg
  refine ⟨fun x hx => ?_, ?_, ?_⟩
  · rcases List.mem_append.mp hx with hx | hx
    · exact h.ok x hx
    · rw [List.mem_singleton.mp hx]
      exact hok
  · rw [logSize_append, logSize_cons, e.length_bytes, logSize_nil]
    simp only [ringWriteBytes, KlogHdr.length_bytes, h.head_eq]
    omega
  · rw [List.flatMap_append, List.flatMap_singleton, KlogEntry.bytes, ← List.append_assoc]
    have hpos : (s.head + (e.hdr.bytes e.pad).length) % 2 ^ 32 =
        (log.flatMap KlogEntry.bytes ++ e.hdr.bytes e.pad).length % 2 ^ 32 := by
      rw [h.head_eq, Nat.mod_add_mod, List.length_append]
      rfl
    simp only [ringWriteBytes]
    rw [hpos, putBytes_eq, h.head_eq, putBytes_eq]
    exact hbytes

end Stream

/-! ## Dropping the oldest entries -/

theorem dropLoop_spec {needed d : ℕ} (fuel : ℕ) (h : s.Stream (old ++ rest))
    (hcap : logSize rest ≤ kKlogBufSize) (hneed : needed ≤ kKlogBufSize)
    (hfuel : needed + logSize rest < kKlogBufSize + fuel) (hd : d < 2 ^ 32) :
    ∃ gone left, rest = gone ++ left ∧ s.dropLoop needed fuel (logSize old % 2 ^ 32) d =
        (logSize (old ++ gone) % 2 ^ 32, (d + gone.length) % 2 ^ 32) ∧
      needed + logSize left ≤ kKlogBufSize ∧
      ∀ g e, gone = g ++ [e] → kKlogBufSize < needed + logSize (e :: left) := by
  have hdone : needed + logSize rest ≤ kKlogBufSize → ∃ gone left, rest = gone ++ left ∧
      (logSize old % 2 ^ 32, d) =
        (logSize (old ++ gone) % 2 ^ 32, (d + gone.length) % 2 ^ 32) ∧
      needed + logSize left ≤ kKlogBufSize ∧
      ∀ g e, gone = g ++ [e] → kKlogBufSize < needed + logSize (e :: left) := by
    intro hroom
    refine ⟨[], rest, rfl, ?_, hroom, fun g e he => ?_⟩
    · rw [List.append_nil, List.length_nil, Nat.add_zero, Nat.mod_eq_of_lt hd]
    · exact absurd (congrArg List.length he) (by simp)
  induction fuel generalizing old rest d with
  | zero =>
    rw [dropLoop]
    exact hdone (by omega)
  | succ fuel ih =>
    rw [dropLoop, h.sub_head hcap, sub32_of_le hcap (by decide)]
    split
    swap
    · exact hdone (by omega)
    rename_i hfull
    cases rest with
    | nil =>
      rw [logSize_nil] at hfull
      omega
    | cons e rest =>
      have hlen := (h.ok e (by simp)).len_le
      have hsize := logSize_cons e rest
      have hbytes := e.length_bytes
      have hh : kKlogHdrSize = 24 := rfl
      have hm : kKlogLineMax = 256 := rfl
      have hb : kKlogBufSize = 65536 := rfl
      have hentry : (kKlogHdrSize + e.hdr.len) % 2 ^ 32 = e.bytes.length := by
        rw [(h.ok e (by simp)).len_eq, ← hbytes]
        omega
      have hpos : (logSize old % 2 ^ 32 + e.bytes.length) % 2 ^ 32 =
          logSize (old ++ [e]) % 2 ^ 32 := by
        rw [logSize_append, logSize_cons, logSize_nil]
        omega
      dsimp only
      rw [h.hdrAt hcap, hentry, if_neg (by omega), hpos]
      have h' : s.Stream ((old ++ [e]) ++ rest) := by
        rw [List.append_assoc]
        exact h
      obtain ⟨gone, left, rfl, hres, hroom, hlast⟩ := ih (d := (d + 1) % 2 ^ 32) h' (by omega)
        (by omega) (Nat.mod_lt _ (by decide)) fun hroom => ⟨[], rest, rfl, by simp, hroom,
          fun g e he => absurd (congrArg List.length he) (by simp)⟩
      refine ⟨e :: gone, left, rfl, ?_, hroom, fun g x hx => ?_⟩
      · rw [hres, List.append_assoc, List.length_cons]
        refine Prod.ext rfl ?_
        dsimp only
        omega
      · cases g with
        | nil =>
          obtain ⟨rfl, hnil⟩ := List.cons.inj hx
          rw [hnil, List.nil_append] at hfull hsize
          omega
        | cons y g => exact hlast g x (List.cons.inj hx).2

/-- The positions of a cursor and of the head are in order as numbers exactly when the counters
have not wrapped between them. -/
theorem Stream.same_epoch (h : s.Stream (old ++ rest)) (hcap : logSize rest ≤ kKlogBufSize)
    (hle : logSize old % 2 ^ 32 ≤ s.head) : logSize old / 2 ^ 32 = logSize (old ++ rest) / 2 ^ 32 := by
  have hb : kKlogBufSize = 65536 := rfl
  have hsize := logSize_append old rest
  rw [h.head_eq] at hle
  omega

theorem raise {a b c d : List KlogEntry} (h : a ++ b = c ++ d)
    (hepoch : logSize a / 2 ^ 32 = logSize c / 2 ^ 32) :
    ∃ k, (if logSize a % 2 ^ 32 < logSize c % 2 ^ 32 then logSize c % 2 ^ 32
        else logSize a % 2 ^ 32) = logSize (a ++ b.take k) % 2 ^ 32 ∧
      ((k = 0 ∧ ∃ x, d = x ++ b) ∨ (a ++ b.take k = c ∧ b.drop k = d ∧ k ≤ b.length)) := by
  rcases List.append_eq_append_iff.mp h with ⟨x, rfl, rfl⟩ | ⟨x, rfl, rfl⟩
  · refine ⟨x.length, ?_, .inr ⟨by rw [List.take_left' rfl], List.drop_left' rfl, by simp⟩⟩
    rw [List.take_left' rfl]
    have := logSize_append a x
    split <;> omega
  · refine ⟨0, ?_, .inl ⟨rfl, x, rfl⟩⟩
    rw [List.take_zero, List.append_nil]
    have := logSize_append c x
    split <;> omega

/-- The condition for a write of `needed` bytes: neither cursor is beyond the head as a number, or
there is room for the entry. -/
def Orderly (s : Klog) (needed : ℕ) : Prop :=
  (s.tail ≤ s.head ∧ s.consoleTail ≤ s.head) ∨
    (needed + sub32 s.head s.tail ≤ kKlogBufSize ∧
      needed + sub32 s.head s.consoleTail ≤ kKlogBufSize)

/-- What dropping the oldest entries does to a cursor with the entries `b` in front of it. -/
structure Advanced (needed n : ℕ) (a b : List KlogEntry) (pos k : ℕ) : Prop where
  pos_eq : pos = logSize (a ++ b.take k) % 2 ^ 32
  room : needed + logSize (b.drop k) ≤ kKlogBufSize
  least : k = 0 ∨ kKlogBufSize < needed + logSize (b.drop (k - 1))
  le : k ≤ n

theorem advanced_of_raise {needed : ℕ} {a b m r gone left : List KlogEntry} (hm : ∃ x, a = m ++ x)
    (h : a ++ b = m ++ r) (hr : r = gone ++ left)
    (hepoch : logSize a / 2 ^ 32 = logSize (m ++ gone) / 2 ^ 32)
    (hroom : needed + logSize left ≤ kKlogBufSize)
    (hlast : ∀ g e, gone = g ++ [e] → kKlogBufSize < needed + logSize (e :: left)) :
    ∃ k, Advanced needed gone.length a b
      (if logSize a % 2 ^ 32 < logSize (m ++ gone) % 2 ^ 32 then logSize (m ++ gone) % 2 ^ 32
        else logSize a % 2 ^ 32) k := by
  obtain ⟨x, rfl⟩ := hm
  subst hr
  obtain ⟨k, hpos, hcase⟩ := raise (a := m ++ x) (b := b) (d := left)
    (by rw [h, List.append_assoc]) hepoch
  rcases hcase with ⟨rfl, y, rfl⟩ | ⟨hgone, hleft, hk⟩
  · refine ⟨0, hpos, ?_, .inl rfl, Nat.zero_le _⟩
    rw [logSize_append] at hroom
    rw [List.drop_zero]
    omega
  · have hx : x ++ b.take k = gone := by
      rw [List.append_assoc] at hgone
      exact List.append_cancel_left hgone
    have hlen : x.length + k = gone.length := by
      rw [← hx, List.length_append, List.length_take, Nat.min_eq_left hk]
    refine ⟨k, hpos, by rwa [hleft], ?_, by omega⟩
    cases k with
    | zero => exact .inl rfl
    | succ k =>
      -- the last entry that the cursor passes is the last one that was dropped
      right
      have hlt : k < b.length := hk
      have htake : b.take (k + 1) = b.take k ++ [b[k]] := List.take_succ_eq_append_getElem hlt
      have hdrop : b.drop k = b[k] :: left := by
        rw [← hleft, List.drop_eq_getElem_cons hlt]
      rw [Nat.add_sub_cancel, hdrop]
      exact hlast (x ++ b.take k) b[k] (by rw [← hx, htake, List.append_assoc])

theorem min_mod {a b : ℕ} (hepoch : a / 2 ^ 32 = b / 2 ^ 32) (hle : a ≤ b) :
    min (a % 2 ^ 32) (b % 2 ^ 32) = a % 2 ^ 32 := by
  omega

theorem exists_older {unread seen pending : List KlogEntry} (hlog : old ++ unread = seen ++ pending)
    (hepoch : logSize old / 2 ^ 32 = logSize seen / 2 ^ 32) :
    ∃ m r, old ++ unread = m ++ r ∧ (m = old ∧ r = unread ∨ m = seen ∧ r = pending) ∧
      min (logSize old % 2 ^ 32) (logSize seen % 2 ^ 32) = logSize m % 2 ^ 32 ∧
      (∃ x, old = m ++ x) ∧ ∃ x, seen = m ++ x := by
  rcases List.append_eq_append_iff.mp hlog with ⟨x, hx, -⟩ | ⟨x, hx, -⟩
  · refine ⟨old, unread, rfl, .inl ⟨rfl, rfl⟩, min_mod hepoch ?_, ⟨[], by simp⟩, x, hx⟩
    rw [hx, logSize_append]
    exact Nat.le_add_right ..
  · refine ⟨seen, pending, hlog, .inr ⟨rfl, rfl⟩, ?_, ⟨x, hx⟩, [], by simp⟩
    rw [min_comm]
    refine min_mod hepoch.symm ?_
    rw [hx, logSize_append]
    exact Nat.le_add_right ..

theorem ringDropOldest_of_loop {needed t d : ℕ}
    (h : s.dropLoop needed (needed + 1) (min s.tail s.consoleTail) s.dropped = (t, d)) :
    s.ringDropOldest needed = { s with
      dropped := d
      tail := if s.tail < t then t else s.tail
      consoleTail := if s.consoleTail < t then t else s.consoleTail } := by
  rw [ringDropOldest, h]

/-- **`ring_drop_oldest`** makes room by moving the cursors that are in the way. -/
theorem ringDropOldest_spec {needed : ℕ} {unread seen pending : List KlogEntry}
    (h : s.Stream (old ++ unread)) (hlog : old ++ unread = seen ++ pending)
    (htail : s.tail = logSize old % 2 ^ 32) (hunread : logSize unread ≤ kKlogBufSize)
    (hcon : s.consoleTail = logSize seen % 2 ^ 32) (hpending : logSize pending ≤ kKlogBufSize)
    (hneed : needed ≤ kKlogBufSize) (hd : s.dropped < 2 ^ 32) (hord : s.Orderly needed) :
    ∃ n k j t c, s.ringDropOldest needed =
        { s with dropped := (s.dropped + n) % 2 ^ 32, tail := t, consoleTail := c } ∧
      Advanced needed n old unread t k ∧ Advanced needed n seen pending c j := by
  have h' : s.Stream (seen ++ pending) := hlog ▸ h
  rcases hord with ⟨hle₁, hle₂⟩ | ⟨hroom₁, hroom₂⟩
  · -- all positions are of one epoch, and the loop starts at the older cursor
    have he₁ := h.same_epoch hunread (htail ▸ hle₁)
    have he₂ := h'.same_epoch hpending (hcon ▸ hle₂)
    rw [← hlog] at he₂
    obtain ⟨m, r, hm, hmr, hmin, hold, hseen⟩ := exists_older hlog (he₁.trans he₂.symm)
    have hcap : logSize r ≤ kKlogBufSize := by
      rcases hmr with ⟨-, rfl⟩ | ⟨-, rfl⟩
      exacts [hunread, hpending]
    have hloop := dropLoop_spec (needed + 1) (hm ▸ h) hcap hneed (by omega) hd
    obtain ⟨gone, left, hr, hloop, hroom, hlast⟩ := hloop
    rw [← hmin, ← htail, ← hcon] at hloop
    -- the boundary that the loop reaches lies between the older cursor and the head
    have hepoch : logSize (m ++ gone) / 2 ^ 32 = logSize (old ++ unread) / 2 ^ 32 := by
      have hm' : logSize m / 2 ^ 32 = logSize (old ++ unread) / 2 ^ 32 := by
        rcases hmr with ⟨rfl, -⟩ | ⟨rfl, -⟩
        exacts [he₁, he₂]
      have h₁ := logSize_append m gone
      have h₂ := logSize_append (m ++ gone) left
      rw [List.append_assoc, ← hr, ← hm] at h₂
      omega
    obtain ⟨k, hk⟩ := advanced_of_raise hold hm hr (he₁.trans hepoch.symm) hroom hlast
    obtain ⟨j, hj⟩ := advanced_of_raise hseen (hlog.symm.trans hm) hr (he₂.trans hepoch.symm)
      hroom hlast
    rw [← htail] at hk
    rw [← hcon] at hj
    exact ⟨_, k, j, _, _, ringDropOldest_of_loop hloop, hk, hj⟩
  · -- there is room, whichever cursor the comparison picks
    rw [htail, h.sub_head hunread] at hroom₁
    rw [hcon, h'.sub_head hpending] at hroom₂
    have hstay (t : ℕ) (hroom : needed + sub32 s.head t ≤ kKlogBufSize) :
        s.dropLoop needed (needed + 1) t s.dropped = (t, s.dropped) := by
      rw [dropLoop, sub32_of_le (by omega) (by decide), if_neg (by omega)]
    have hloop : s.dropLoop needed (needed + 1) (min s.tail s.consoleTail) s.dropped =
        (min s.tail s.consoleTail, s.dropped) := by
      refine hstay _ ?_
      rcases min_choice s.tail s.consoleTail with hmin | hmin
      · rw [hmin, htail, h.sub_head hunread]
        exact hroom₁
      · rw [hmin, hcon, h'.sub_head hpending]
        exact hroom₂
    refine ⟨0, 0, 0, s.tail, s.consoleTail, ?_, ⟨?_, ?_, .inl rfl, le_rfl⟩,
      ⟨?_, ?_, .inl rfl, le_rfl⟩⟩
    · rw [ringDropOldest_of_loop hloop, if_neg (not_lt.mpr (min_le_left ..)),
        if_neg (not_lt.mpr (min_le_right ..)), Nat.add_zero, Nat.mod_eq_of_lt hd]
    · rw [htail, List.take_zero, List.append_nil]
    · rwa [List.drop_zero]
    · rw [hcon, List.take_zero, List.append_nil]
    · rwa [List.drop_zero]

/-! ## Reading -/

theorem klogLead_ne_nil (hdr : KlogHdr) : klogLead hdr ≠ [] := by
  intro h
  have hlen := congrArg List.length h
  simp [klogLead, charBytes] at hlen

theorem line_ne_nil (e : KlogEntry) : e.line ≠ [] := by
  have hlead := klogLead_ne_nil e.hdr
  rw [KlogEntry.line, klogFormatLine]
  split <;> simp [hlead]

theorem readLoop_spec {size : ℤ} (fuel : ℕ) {buf : List UInt8} (h : s.Stream (old ++ rest))
    (hcap : logSize rest ≤ kKlogBufSize) (hbuf : (buf.length : ℤ) ≤ size)
    (hfuel : size < buf.length + fuel) :
    ∃ k ≤ rest.length, s.readLoop size fuel (logSize old % 2 ^ 32) buf =
        (buf ++ klogLines (rest.take k), logSize (old ++ rest.take k) % 2 ^ 32) ∧
      ((buf ++ klogLines (rest.take k)).length : ℤ) ≤ size ∧
      (k = rest.length ∨ size < (buf ++ klogLines (rest.take (k + 1))).length) := by
  induction fuel generalizing old rest buf with
  | zero => omega
  | succ fuel ih =>
    rw [readLoop]
    cases rest with
    | nil =>
      refine ⟨0, le_rfl, ?_, by simpa [klogLines] using hbuf, .inl rfl⟩
      rw [if_pos]
      · simp [klogLines]
      · rw [h.head_eq, List.append_nil]
    | cons e rest =>
      have hlen := (h.ok e (by simp)).len_le
      have hm : kKlogLineMax = 256 := rfl
      have hb : kKlogBufSize = 65536 := rfl
      have hline : 0 < e.line.length := List.length_pos_of_ne_nil (line_ne_nil e)
      have hsize := logSize_cons e rest
      have hone : klogLines [e] = e.line := by simp [klogLines]
      rw [if_neg (h.ne_head hcap), h.hdrAt hcap, (h.ok e (by simp)).len_eq, if_neg (by omega),
        h.lineAt hcap, h.nextPos hcap]
      split
      · -- the line does not fit
        rename_i hstop
        have hover := hstop.resolve_left (by omega)
        refine ⟨0, Nat.zero_le _, by simp [klogLines], by simpa [klogLines] using hbuf, .inr ?_⟩
        rw [List.take_succ_cons, List.take_zero, hone, List.length_append]
        exact hover
      · rename_i hgo
        have hfit : ((buf ++ e.line).length : ℤ) ≤ size := by
          rw [List.length_append]
          omega
        have h' : s.Stream ((old ++ [e]) ++ rest) := by
          rw [List.append_assoc]
          exact h
        obtain ⟨k, hk, hres, hle, hfull⟩ := ih h' (by omega) hfit (by
          rw [List.length_append]
          omega)
        have hcons (l : List KlogEntry) : buf ++ klogLines (e :: l) =
            buf ++ e.line ++ klogLines l := by
          rw [klogLines, List.flatMap_cons, List.append_assoc]
          rfl
        refine ⟨k + 1, by simpa using hk, ?_, ?_, ?_⟩
        · rw [hres, List.take_succ_cons, hcons, List.append_assoc old]
          rfl
        · rw [List.take_succ_cons, hcons]
          exact hle
        · rw [List.take_succ_cons, hcons, List.length_cons]
          exact hfull.imp_left fun he => by rw [he]

/-- **`klog_read_internal`** -/
theorem readInternal_spec (h : s.Stream (old ++ rest)) (hcap : logSize rest ≤ kKlogBufSize)
    (size : ℤ) : ∃ k, KlogSpec.Fits size rest k ∧ s.readInternal size (logSize old % 2 ^ 32) =
      (klogLines (rest.take k), logSize (old ++ rest.take k) % 2 ^ 32) := by
  rw [readInternal]
  split
  · rename_i hsize
    refine ⟨0, ⟨Nat.zero_le _, .inl rfl, ?_⟩, by simp [klogLines]⟩
    cases rest with
    | nil => exact .inl rfl
    | cons e rest =>
      right
      have hline : 0 < e.line.length := List.length_pos_of_ne_nil (line_ne_nil e)
      rw [List.take_succ_cons, List.take_zero, klogLines, List.flatMap_singleton]
      omega
  · obtain ⟨k, hk, hres, hle, hfull⟩ := readLoop_spec (size.toNat + 1) h hcap
      (by rw [List.length_nil]; omega : (([] : List UInt8).length : ℤ) ≤ size)
      (by rw [List.length_nil]; omega)
    rw [List.nil_append] at hres hle hfull
    exact ⟨k, ⟨hk, .inr hle, hfull⟩, hres⟩

theorem flushLoop_spec {fuel : ℕ} {out : List UInt8} (h : s.Stream (old ++ rest))
    (hcap : logSize rest ≤ kKlogBufSize) (hfuel : rest.length < fuel) :
    s.flushLoop fuel (logSize old % 2 ^ 32) out =
      some (out ++ klogLines rest, logSize (old ++ rest) % 2 ^ 32) := by
  induction rest generalizing old out fuel with
  | nil =>
    obtain ⟨fuel, rfl⟩ : ∃ f, fuel = f + 1 := ⟨fuel - 1, by simp at hfuel; omega⟩
    rw [flushLoop, if_pos (by rw [h.head_eq, List.append_nil])]
    simp [klogLines]
  | cons e rest ih =>
    obtain ⟨fuel, rfl⟩ : ∃ f, fuel = f + 1 := ⟨fuel - 1, by simp at hfuel; omega⟩
    have hlen := (h.ok e (by simp)).len_le
    have hm : kKlogLineMax = 256 := rfl
    have hb : kKlogBufSize = 65536 := rfl
    have hsize := logSize_cons e rest
    have h' : s.Stream ((old ++ [e]) ++ rest) := by
      rw [List.append_assoc]
      exact h
    rw [flushLoop, if_neg (h.ne_head hcap), h.hdrAt hcap, (h.ok e (by simp)).len_eq,
      if_neg (by omega), h.nextPos hcap, h.lineAt hcap,
      ih h' (by omega) (by rw [List.length_cons] at hfuel; omega), klogLines, klogLines,
      List.flatMap_cons]
    simp

theorem length_le_logSize (l : List KlogEntry) : l.length ≤ logSize l := by
  induction l with
  | nil => exact le_rfl
  | cons e l ih =>
    rw [List.length_cons, logSize_cons, e.length_bytes, kKlogHdrSize]
    omega

/-! ## The refinement -/

variable {σ : KlogSpec}

/-- The ring buffer holds the log. -/
structure Refines (s : Klog) (σ : KlogSpec) : Prop where
  initialized : s.initialized = true
  panicMode : s.panicMode = false
  seq_eq : s.seq = σ.seq
  seq_lt : σ.seq < 2 ^ 32
  mask_eq : s.subsysMask = σ.mask
  stream : s.Stream σ.stored
  tail_eq : s.tail = logSize (σ.done.map Prod.fst) % 2 ^ 32
  unread_le : logSize σ.unread ≤ kKlogBufSize
  console : ∃ seen pending, σ.stored = seen ++ pending ∧
    s.consoleTail = logSize seen % 2 ^ 32 ∧ logSize pending ≤ kKlogBufSize
  dropped : ∃ n, σ.lost.length ≤ n ∧ s.dropped = n % 2 ^ 32

theorem refines_init : init.Refines KlogSpec.init where
  initialized := rfl
  panicMode := rfl
  seq_eq := rfl
  seq_lt := by decide
  mask_eq := rfl
  stream := ⟨by simp [KlogSpec.init, KlogSpec.stored], rfl, .nil _ _⟩
  tail_eq := rfl
  unread_le := Nat.zero_le _
  console := ⟨[], [], rfl, rfl, Nat.zero_le _⟩
  dropped := ⟨0, le_rfl, rfl⟩

/-- The condition under which a call is carried out as it should be. -/
def InOrder (s : Klog) (l : KlogOp × List UInt8) : Prop :=
  match l.1 with
  | .write c => ∀ e, c.entry s.initialized s.subsysMask s.seq = some e → s.Orderly e.bytes.length
  | _ => True

theorem stored_take (σ : KlogSpec) (k : ℕ) (how : Bool) : (σ.take k how).stored = σ.stored := by
  simp [KlogSpec.stored, KlogSpec.take, Function.comp_def]

theorem done_take (σ : KlogSpec) (k : ℕ) (how : Bool) :
    (σ.take k how).done.map Prod.fst = σ.done.map Prod.fst ++ σ.unread.take k := by
  simp [KlogSpec.take, Function.comp_def]

theorem lost_take_le (σ : KlogSpec) (k : ℕ) : (σ.take k false).lost.length ≤ σ.lost.length + k := by
  have hle := List.length_filter_le (fun x : KlogEntry × Bool => !x.2)
    ((σ.unread.take k).map fun e => (e, false))
  rw [List.length_map, List.length_take] at hle
  simp only [KlogSpec.lost, KlogSpec.take, List.filter_append, List.map_append,
    List.length_append, List.length_map]
  omega

/-- There is room for `needed` more bytes, with regard to both cursors. -/
structure Roomy (s : Klog) (σ : KlogSpec) (needed : ℕ) : Prop where
  unread : needed + logSize σ.unread ≤ kKlogBufSize
  console : ∃ seen pending, σ.stored = seen ++ pending ∧
    s.consoleTail = logSize seen % 2 ^ 32 ∧ needed + logSize pending ≤ kKlogBufSize

section

variable (h : s.Refines σ)
include h

theorem Refines.ringDropOldest {needed : ℕ} (hneed : needed ≤ kKlogBufSize)
    (hord : s.Orderly needed) :
    ∃ k, (k = 0 ∨ kKlogBufSize < needed + logSize (σ.unread.drop (k - 1))) ∧
      (s.ringDropOldest needed).Refines (σ.take k false) ∧
      (s.ringDropOldest needed).Roomy (σ.take k false) needed := by
  obtain ⟨seen, pending, hlog, hcon, hpending⟩ := h.console
  obtain ⟨n₀, hn₀, hdrop⟩ := h.dropped
  have hlt : s.dropped < 2 ^ 32 := by
    rw [hdrop]
    exact Nat.mod_lt _ (by decide)
  obtain ⟨n, k, j, t, c, hres, hk, hj⟩ := ringDropOldest_spec h.stream hlog h.tail_eq
    h.unread_le hcon hpending hneed hlt hord
  have hsplit : (σ.take k false).stored = (seen ++ pending.take j) ++ pending.drop j := by
    rw [stored_take, hlog, List.append_assoc, List.take_append_drop]
  have hstream : Stream { s with
      dropped := (s.dropped + n) % 2 ^ 32, tail := t, consoleTail := c } (σ.take k false).stored := by
    rw [stored_take]
    exact ⟨h.stream.ok, h.stream.head_eq, h.stream.mirrors⟩
  have hpos : t = logSize ((σ.take k false).done.map Prod.fst) % 2 ^ 32 := by
    rw [done_take]
    exact hk.pos_eq
  have hlost := lost_take_le σ k
  have hle := hk.le
  rw [hres]
  refine ⟨k, hk.least, ⟨h.initialized, h.panicMode, h.seq_eq, h.seq_lt, h.mask_eq, hstream, hpos,
    le_of_add_le_right hk.room, ⟨_, _, hsplit, hj.pos_eq, le_of_add_le_right hj.room⟩,
    n₀ + n, by omega, ?_⟩, hk.room, _, _, hsplit, hj.pos_eq, hj.room⟩
  show (s.dropped + n) % 2 ^ 32 = (n₀ + n) % 2 ^ 32
  rw [hdrop, Nat.mod_add_mod]

theorem Refines.write (hok : e.Ok) (hroom : s.Roomy σ e.bytes.length) :
    ((s.ringWriteBytes (e.hdr.bytes e.pad)).ringWriteBytes e.msg).Refines
      { σ with unread := σ.unread ++ [e] } := by
  obtain ⟨seen, pending, hlog, hcon, hpending⟩ := hroom.console
  have hstored : KlogSpec.stored { σ with unread := σ.unread ++ [e] } = σ.stored ++ [e] :=
    (List.append_assoc ..).symm
  have hone (l : List KlogEntry) : logSize (l ++ [e]) = e.bytes.length + logSize l := by
    rw [logSize_append, logSize_cons, logSize_nil, Nat.add_zero, Nat.add_comm]
  refine ⟨h.initialized, h.panicMode, h.seq_eq, h.seq_lt, h.mask_eq, ?_, h.tail_eq, ?_,
    ⟨seen, pending ++ [e], ?_, hcon, ?_⟩, h.dropped⟩
  · rw [hstored]
    exact h.stream.write hok
  · rw [hone]
    exact hroom.unread
  · rw [hstored, hlog, List.append_assoc]
  · rw [hone]
    exact hpending

theorem Refines.consoleHead : Refines { s with consoleTail := s.head } σ :=
  { h with
    stream := ⟨h.stream.ok, h.stream.head_eq, h.stream.mirrors⟩
    console := ⟨σ.stored, [], (List.append_nil _).symm, h.stream.head_eq, Nat.zero_le _⟩ }

theorem Refines.nextSeq :
    Refines { s with seq := (s.seq + 1) % 2 ^ 32 } { σ with seq := (σ.seq + 1) % 2 ^ 32 } :=
  { h with
    seq_eq := by
      show (s.seq + 1) % 2 ^ 32 = (σ.seq + 1) % 2 ^ 32
      rw [h.seq_eq]
    seq_lt := Nat.mod_lt _ (by decide)
    stream := ⟨h.stream.ok, h.stream.head_eq, h.stream.mirrors⟩ }

theorem Refines.readConsume (k : ℕ) :
    Refines { s with tail := logSize (σ.done.map Prod.fst ++ σ.unread.take k) % 2 ^ 32 }
      (σ.take k true) := by
  obtain ⟨seen, pending, hlog, hcon, hpending⟩ := h.console
  have hlost : (σ.take k true).lost = σ.lost := by
    simp only [KlogSpec.lost, KlogSpec.take, List.filter_append, List.filter_map]
    simp [Function.comp_def]
  have hunread : logSize (σ.unread.drop k) ≤ kKlogBufSize := by
    have hsize := logSize_append (σ.unread.take k) (σ.unread.drop k)
    rw [List.take_append_drop] at hsize
    have := h.unread_le
    omega
  refine ⟨h.initialized, h.panicMode, h.seq_eq, h.seq_lt, h.mask_eq, ?_, ?_, hunread,
    ⟨seen, pending, ?_, hcon, hpending⟩, ?_⟩
  · rw [stored_take]
    exact ⟨h.stream.ok, h.stream.head_eq, h.stream.mirrors⟩
  · rw [done_take]
  · rw [stored_take, hlog]
  · rw [hlost]
    exact h.dropped

/-- **One call** of the ring buffer is one call of the log. -/
theorem Refines.step {s' : Klog} {l : KlogOp × List UInt8} (hord : s.InOrder l)
    (hstep : s.Step l s') : ∃ σ', KlogSpec.Step σ l σ' ∧ s'.Refines σ' := by
  obtain ⟨op, out⟩ := l
  rw [Step] at hstep
  cases op with
  | write c =>
    have hres : s.vex c = (out, s') := Option.some.inj hstep
    have hsame : c.entry s.initialized s.subsysMask s.seq = c.entry true σ.mask σ.seq := by
      rw [h.initialized, h.mask_eq, h.seq_eq]
    cases hentry : c.entry true σ.mask σ.seq with
    | none =>
      rw [vex, hsame, hentry] at hres
      cases hres
      exact ⟨σ, .skip σ c _ hentry, h⟩
    | some e =>
      have hok := KlogCall.entry_ok h.seq_lt hentry
      have hlen := hok.len_le
      have hbytes := e.length_bytes
      have hb : kKlogBufSize = 65536 := rfl
      have hm : kKlogLineMax = 256 := rfl
      have hh : kKlogHdrSize = 24 := rfl
      obtain ⟨k, hleast, hdrop, hroom⟩ :=
        h.nextSeq.ringDropOldest (by omega) (hord e (hsame.trans hentry))
      have hwritten := hdrop.write hok hroom
      rw [vex, hsame, hentry] at hres
      dsimp only at hres
      rw [if_pos (c := s.initialized = true ∧ ¬ s.panicMode = true)
        ⟨h.initialized, by simp [h.panicMode]⟩, hok.len_eq, ← hbytes] at hres
      obtain ⟨-, rfl⟩ := Prod.mk.inj hres
      refine ⟨_, .write σ c _ e k hentry hleast, ?_⟩
      split
      · exact hwritten.consoleHead
      · exact hwritten
  | read size =>
    obtain ⟨rfl, rfl⟩ := Prod.mk.inj (Option.some.inj hstep)
    obtain ⟨k, hfits, hres⟩ := readInternal_spec h.stream h.unread_le size
    refine ⟨σ, ?_, h⟩
    have hread : s.read size = klogLines (σ.unread.take k) := by
      rw [read, h.tail_eq, hres]
      split
      · rename_i hno
        have hsize : size ≤ 0 := hno.resolve_left (by simp [h.initialized])
        rw [readInternal, if_pos hsize] at hres
        exact congrArg Prod.fst hres
      · rfl
    rw [hread]
    exact .read σ size k hfits
  | readConsume size =>
    have hres' : s.readConsume size = (out, s') := Option.some.inj hstep
    obtain ⟨k, hfits, hres⟩ := readInternal_spec h.stream h.unread_le size
    have hboth : s.readConsume size = (klogLines (σ.unread.take k),
        { s with tail := logSize (σ.done.map Prod.fst ++ σ.unread.take k) % 2 ^ 32 }) := by
      rw [Klog.readConsume, h.tail_eq, hres]
      split
      · rename_i hno
        have hsize : size ≤ 0 := hno.resolve_left (by simp [h.initialized])
        rw [readInternal, if_pos hsize] at hres
        obtain ⟨hbuf, hpos⟩ := Prod.mk.inj hres
        rw [← hbuf, ← hpos, ← h.tail_eq]
      · rfl
    rw [hboth] at hres'
    obtain ⟨rfl, rfl⟩ := Prod.mk.inj hres'
    refine ⟨σ.take k true, .readConsume σ size k hfits, ?_⟩
    exact h.readConsume k
  | flush =>
    obtain ⟨seen, pending, hlog, hcon, hpending⟩ := h.console
    have hstream := h.stream
    rw [hlog] at hstream
    have hlen : pending.length < 2 ^ 32 + 1 := by
      have := length_le_logSize pending
      have hb : kKlogBufSize = 65536 := rfl
      omega
    have hres : s.flush = some (out, s') := hstep
    rw [flush, if_neg (by simp [h.initialized]), hcon,
      flushLoop_spec hstream hpending hlen, ← hlog, ← h.stream.head_eq] at hres
    obtain ⟨-, rfl⟩ := Prod.mk.inj (Option.some.inj hres)
    exact ⟨σ, .flush σ out, h.consoleHead⟩
  | setLevel level =>
    obtain ⟨rfl, rfl⟩ := Prod.mk.inj (Option.some.inj hstep)
    exact ⟨σ, .setLevel σ level _,
      { h with stream := ⟨h.stream.ok, h.stream.head_eq, h.stream.mirrors⟩ }⟩
  | setSubsysMask mask =>
    obtain ⟨rfl, rfl⟩ := Prod.mk.inj (Option.some.inj hstep)
    exact ⟨_, .setSubsysMask σ mask _, { h with
      mask_eq := rfl
      stream := ⟨h.stream.ok, h.stream.head_eq, h.stream.mirrors⟩ }⟩

end

/-- A cursor is on the boundary in front of the newest entries `l`, all of which are intact. -/
structure Points (s : Klog) (pos : ℕ) (l : List KlogEntry) : Prop where
  distance : sub32 s.head pos = logSize l
  le : logSize l ≤ kKlogBufSize
  intact : s.ringReadBytes pos (logSize l) = l.flatMap KlogEntry.bytes

theorem Stream.points (h : s.Stream (old ++ rest)) (hcap : logSize rest ≤ kKlogBufSize) :
    s.Points (logSize old % 2 ^ 32) rest where
  distance := h.sub_head hcap
  le := hcap
  intact := by
    rw [h.ringReadBytes hcap le_rfl]
    exact List.take_of_length_le le_rfl

/-- **The ring delivers the log** `σ` after the calls `ls`: the cursors are on boundaries of intact
entries, what was consumed are the lines of the entries that are neither unread nor lost, in order,
and the lost ones have been counted. -/
structure Delivers (s : Klog) (σ : KlogSpec) (ls : List (KlogOp × List UInt8)) : Prop where
  tail : s.Points s.tail σ.unread
  console : ∃ pending, pending <:+ σ.stored ∧ s.Points s.consoleTail pending
  consumed : consumed ls = klogLines σ.delivered
  counted : ∃ n, σ.lost.length ≤ n ∧ s.dropped = n % 2 ^ 32

end Klog

/-- A text that fills a line. -/
@[irreducible]
def fullText : List UInt8 := List.replicate kKlogLineMax 65

/-- A write of it at level `INFO`, which goes to the console too. -/
def fullLine : KlogCall := ⟨kKlogDefaultLevel, 0, some fullText, 0, 0, 0⟩

/-- The entry for it. -/
def fullEntry (seq : ℕ) : KlogEntry :=
  ⟨⟨seq, (klogMessage fullText).length, 0, 0, kKlogDefaultLevel, 0, 0⟩, 0, klogMessage fullText⟩

theorem length_klogMessage {text : List UInt8} (h : kKlogLineMax ≤ text.length) :
    (klogMessage text).length = kKlogLineMax := by
  have hpos : 0 < kKlogLineMax := by decide
  rw [klogMessage, if_neg (by omega), List.length_append, List.length_take, List.length_singleton]
  omega

theorem fullEntry_len (seq : ℕ) : kKlogHdrSize + (fullEntry seq).hdr.len = 280 := by
  have hlen : fullText.length = kKlogLineMax := by rw [fullText, List.length_replicate]
  show kKlogHdrSize + (klogMessage fullText).length = 280
  rw [length_klogMessage hlen.ge]
  rfl

theorem fullEntry_length (seq : ℕ) : (fullEntry seq).bytes.length = 280 := by
  rw [KlogEntry.length_bytes]
  exact fullEntry_len seq

namespace Klog

variable {s : Klog} {σ : KlogSpec}

/-- The log as `klog_init` leaves its settings, with the console up to date. -/
structure Live (s : Klog) (head tail : ℕ) : Prop where
  initialized : s.initialized = true
  panicMode : s.panicMode = false
  level : s.consoleLevel = kKlogDefaultLevel
  mask : s.subsysMask = (1#64 <<< kKlogSubsysMax) - 1
  console : s.consoleTail = s.head
  dropped : s.dropped = 0
  head_eq : s.head = head
  tail_eq : s.tail = tail

theorem Live.entry {head tail : ℕ} (h : s.Live head tail) :
    fullLine.entry s.initialized s.subsysMask s.seq = some (fullEntry s.seq) := by
  have hmask : ¬ (s.initialized ∧ s.subsysMask.getLsbD fullLine.subsystem = false) := by
    rw [h.mask]
    rintro ⟨-, hbit⟩
    revert hbit
    decide
  rw [KlogCall.entry, if_neg hmask]
  rfl

/-- Nothing is dropped if the console is up to date and not beyond the other cursor as a number,
whatever is unread. -/
theorem ringDropOldest_of_le (hcon : s.consoleTail = s.head) (hle : s.head ≤ s.tail)
    {needed : ℕ} (hneed : needed ≤ kKlogBufSize) : s.ringDropOldest needed = s := by
  have hmin : min s.tail s.consoleTail = s.head := by
    rw [hcon]
    exact Nat.min_eq_right hle
  have hroom : ¬ sub32 kKlogBufSize (sub32 s.head s.head) < needed := by
    have hself : sub32 s.head s.head = 0 := by
      rw [sub32]
      omega
    rw [hself]
    exact not_lt.mpr hneed
  have hcon' : ¬ s.consoleTail < s.head := by
    rw [hcon]
    exact lt_irrefl _
  rw [ringDropOldest, hmin, dropLoop, if_neg hroom]
  dsimp only
  rw [if_neg (not_lt.mpr hle), if_neg hcon']

theorem Live.write {head tail : ℕ} (h : s.Live head tail) (hle : head ≤ tail) :
    ∃ out s', s.Step (.write fullLine, out) s' ∧ s'.Live ((head + 280) % 2 ^ 32) tail := by
  have hdrop : Klog.ringDropOldest { s with seq := (s.seq + 1) % 2 ^ 32 } 280 =
      { s with seq := (s.seq + 1) % 2 ^ 32 } := by
    have hneed : 280 ≤ kKlogBufSize := by decide
    have hle' : s.head ≤ s.tail := by
      rw [h.head_eq, h.tail_eq]
      exact hle
    exact ringDropOldest_of_le (s := { s with seq := (s.seq + 1) % 2 ^ 32 }) h.console hle' hneed
  have hlevel : (fullEntry s.seq).hdr.level ≤ s.consoleLevel := h.level.ge
  have hhead : (((s.head + ((fullEntry s.seq).hdr.bytes (fullEntry s.seq).pad).length) % 2 ^ 32) +
      (fullEntry s.seq).msg.length) % 2 ^ 32 = (head + 280) % 2 ^ 32 := by
    have hlen := fullEntry_length s.seq
    rw [KlogEntry.bytes, List.length_append] at hlen
    rw [Nat.mod_add_mod, Nat.add_assoc, hlen, h.head_eq]
  refine ⟨(s.vex fullLine).1, (s.vex fullLine).2, rfl, ?_⟩
  rw [vex, h.entry]
  dsimp only
  rw [if_pos (c := s.initialized = true ∧ ¬ s.panicMode = true)
    ⟨h.initialized, by simp [h.panicMode]⟩, if_pos (.inr hlevel), fullEntry_len, hdrop]
  exact ⟨h.initialized, h.panicMode, h.level, h.mask, rfl, h.dropped, hhead, h.tail_eq⟩

/-- One full line is written and read, `n` times. -/
def rounds (n : ℕ) : List KlogOp :=
  (List.replicate n [KlogOp.write fullLine, .readConsume 4096]).flatten

theorem length_line_le (e : KlogEntry) :
    e.line.length ≤ (klogLead e.hdr).length + e.msg.length + 1 := by
  simp only [KlogEntry.line, klogFormatLine]
  split <;> simp only [List.length_append, List.length_take, List.length_singleton] <;> omega

theorem fullEntry_line (seq : ℕ) : (fullEntry seq).line.length ≤ 4096 := by
  have hline := length_line_le (fullEntry seq)
  have hbytes := (fullEntry seq).length_bytes
  have hlen := fullEntry_length seq
  have hlead : (klogLead (fullEntry seq).hdr).length ≤ 100 := by
    show (klogLead (fullEntry 0).hdr).length ≤ 100
    decide +kernel
  omega

theorem fits_fullEntry {seq k : ℕ} (h : KlogSpec.Fits 4096 [fullEntry seq] k) : k = 1 := by
  have hle := h.le
  rcases h.full with hk | hfull
  · exact hk
  · have hone : klogLines ([fullEntry seq].take (k + 1)) = (fullEntry seq).line := by
      rw [List.take_of_length_le (by simp)]
      exact List.append_nil _
    have := fullEntry_line seq
    rw [hone] at hfull
    omega

theorem Live.inOrder {p : ℕ} (h : s.Live p p) (out : List UInt8) :
    s.InOrder (.write fullLine, out) := by
  intro e he
  rw [h.entry] at he
  obtain rfl := Option.some.inj he
  right
  rw [fullEntry_length, h.console, h.head_eq, h.tail_eq]
  have hself : sub32 p p = 0 := by
    rw [sub32]
    omega
  rw [hself]
  decide

theorem Live.round {p : ℕ} (h : s.Live p p) (href : s.Refines σ) (hnil : σ.unread = []) :
    ∃ out out' s₁ s₂ σ', Guarded InOrder Klog.Step s (.write fullLine, out) s₁ ∧
      Guarded InOrder Klog.Step s₁ (.readConsume 4096, out') s₂ ∧
      s₂.Live ((p + 280) % 2 ^ 32) ((p + 280) % 2 ^ 32) ∧ s₂.Refines σ' ∧ σ'.unread = [] := by
  obtain ⟨out, s₁, hwrite, hlive₁⟩ := h.write le_rfl
  obtain ⟨σ₁, hspec, href₁⟩ := href.step (h.inOrder out) hwrite
  have hunread : σ₁.unread = [fullEntry s.seq] := by
    have hentry := h.entry
    rw [href.initialized, href.mask_eq, href.seq_eq] at hentry
    cases hspec with
    | skip _ _ hnone => rw [hentry] at hnone; cases hnone
    | write c out e k hsome =>
      rw [hentry] at hsome
      obtain rfl := Option.some.inj hsome
      rw [href.seq_eq]
      simp [hnil]
  obtain ⟨out', s₂, hread⟩ : ∃ out' s₂, s₁.Step (.readConsume 4096, out') s₂ := ⟨_, _, rfl⟩
  have hord : s₁.InOrder (.readConsume 4096, out') := trivial
  obtain ⟨σ₂, hspec₂, href₂⟩ := href₁.step hord hread
  have hnone : σ₂.unread = [] := by
    cases hspec₂ with
    | readConsume size k hfits =>
      rw [hunread] at hfits
      rw [fits_fullEntry hfits, KlogSpec.take, hunread]
      rfl
  -- with nothing unread the cursor is at the head
  have htail : s₂.tail = s₂.head := by
    rw [href₂.tail_eq, href₂.stream.head_eq, KlogSpec.stored, hnone, List.append_nil]
  have hread' : s₁.readConsume 4096 = (out', s₂) := Option.some.inj hread
  rw [Klog.readConsume, if_neg (by simp [hlive₁.initialized])] at hread'
  obtain ⟨-, rfl⟩ := Prod.mk.inj hread'
  exact ⟨out, out', s₁, _, σ₂, ⟨h.inOrder out, hwrite⟩, ⟨hord, hread⟩,
    ⟨hlive₁.initialized, hlive₁.panicMode, hlive₁.level, hlive₁.mask, hlive₁.console,
      hlive₁.dropped, hlive₁.head_eq, htail.trans hlive₁.head_eq⟩, href₂, hnone⟩

theorem live_rounds (n : ℕ) : ∃ ls s σ, ls.map Prod.fst = rounds n ∧
    Run (Guarded InOrder Klog.Step) init ls s ∧
    s.Live (280 * n % 2 ^ 32) (280 * n % 2 ^ 32) ∧ s.Refines σ ∧ σ.unread = [] := by
  induction n with
  | zero =>
    exact ⟨[], init, .init, rfl, .nil _, ⟨rfl, rfl, rfl, rfl, rfl, rfl, rfl, rfl⟩, refines_init, rfl⟩
  | succ n ih =>
    obtain ⟨ls, s, σ, hls, hrun, hlive, href, hnil⟩ := ih
    obtain ⟨out, out', s₁, s₂, σ', hwrite, hread, hlive', href', hnil'⟩ := hlive.round href hnil
    have hpos : (280 * n % 2 ^ 32 + 280) % 2 ^ 32 = 280 * (n + 1) % 2 ^ 32 := by
      rw [Nat.mod_add_mod, Nat.mul_succ]
    rw [hpos] at hlive'
    refine ⟨_, s₂, σ', ?_, (hrun.snoc hwrite).snoc hread, hlive', href', hnil'⟩
    rw [rounds, List.replicate_succ', List.flatten_append]
    simp [hls, rounds]

theorem live_overrun {ls : List (KlogOp × List UInt8)} (hrun : Run Klog.Step init ls s)
    (h : s.Live 4294967040 4294967040) (m : ℕ) (hm : m ≤ 240) :
    ∃ ls' s', ls'.map Prod.fst = ls.map Prod.fst ++ List.replicate m (.write fullLine) ∧
      Run Klog.Step init ls' s' ∧ s'.Live ((4294967040 + 280 * m) % 2 ^ 32) 4294967040 := by
  induction m with
  | zero => exact ⟨ls, s, by simp, hrun, h⟩
  | succ m ih =>
    obtain ⟨ls', s', hls, hrun', hlive⟩ := ih (by omega)
    have hle : (4294967040 + 280 * m) % 2 ^ 32 ≤ 4294967040 := by
      rcases m with _ | m
      · exact Nat.mod_le _ _
      · have hwrap : 4294967040 + 280 * (m + 1) = 24 + 280 * m + 2 ^ 32 := by omega
        rw [hwrap, Nat.add_mod_right]
        exact (Nat.mod_le _ _).trans (by omega)
    obtain ⟨out, s₁, hwrite, hlive'⟩ := hlive.write hle
    rw [Nat.mod_add_mod, Nat.add_assoc, ← Nat.mul_succ] at hlive'
    refine ⟨_, s₁, ?_, hrun'.snoc hwrite, hlive'⟩
    rw [List.replicate_succ']
    simp [hls]

end Klog

end Lume
