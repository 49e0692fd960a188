import Mathlib.Algebra.Order.Ring.Nat
import Mathlib.Logic.Function.Basic
import Mathlib.Data.List.Basic
import Mathlib.Data.Nat.ModEq

/-!
# A ring that holds the end of a stream

Bytes, or values of any kind, are appended to a stream without end. A ring of `cap` cells keeps
the last `cap` of them: position `q` of the stream is in cell `q % cap`.

## Main definitions

* `ringPut`, `ringGet`: write at a position of the stream, and read from one
* `Mirrors`: the ring holds the end of the stream

## Main results

* `Mirrors.append`: appending keeps the end of the stream in the ring
* `ringGet_ringPut`: reading back what was written
* `Mirrors.get`: what is read, as long as it is not too far back
-/

namespace Lume

variable {α : Type*} {cap : ℕ} {data : ℕ → α} {stream : List α}

/-- Write values from position `pos` on. -/
def ringPut (cap : ℕ) (data : ℕ → α) (pos : ℕ) : List α → ℕ → α
  | [] => data
  | a :: l => ringPut cap (Function.update data (pos % cap) a) (pos + 1) l

/-- Read `n` values from position `pos` on. -/
def ringGet (cap : ℕ) (data : ℕ → α) (pos n : ℕ) : List α :=
  (List.range n).map fun i => data ((pos + i) % cap)

/-- The ring holds the last `cap` values of the stream. -/
def Mirrors (cap : ℕ) (data : ℕ → α) (stream : List α) : Prop :=
  ∀ q (hq : q < stream.length), stream.length ≤ q + cap → data (q % cap) = stream[q]

theorem Mirrors.nil (cap : ℕ) (data : ℕ → α) : Mirrors cap data [] :=
  fun _ hq => absurd hq (Nat.not_lt_zero _)

theorem Mirrors.push (h : Mirrors cap data stream) (a : α) :
    Mirrors cap (Function.update data (stream.length % cap) a) (stream ++ [a]) := by
  intro q hq hcap
  rw [List.length_append, List.length_singleton] at hq hcap
  rcases Nat.lt_or_eq_of_le (Nat.le_of_lt_succ hq) with hlt | rfl
  · -- the cell of an older value that is still there is another one
    have hne : q % cap ≠ stream.length % cap := by
      intro he
      have hdvd : cap ∣ stream.length - q :=
        (Nat.modEq_iff_dvd' hlt.le).mp he
      have := Nat.le_of_dvd (by omega) hdvd
      omega
    rw [Function.update_of_ne hne, h q hlt (by omega), List.getElem_append_left hlt]
  · rw [Function.update_self, List.getElem_concat_length rfl]

theorem Mirrors.append (h : Mirrors cap data stream) (l : List α) :
    Mirrors cap (ringPut cap data stream.length l) (stream ++ l) := by
  induction l generalizing data stream with
  | nil =>
    rw [List.append_nil]
    exact h
  | cons a l ih =>
    have hnext := ih (h.push a)
    rw [List.length_append, List.length_singleton, List.append_assoc] at hnext
    exact hnext

theorem Mirrors.get (h : Mirrors cap data stream) {pos n : ℕ} (hend : pos + n ≤ stream.length)
    (hcap : stream.length ≤ pos + cap) : ringGet cap data pos n = (stream.drop pos).take n := by
  refine List.ext_getElem ?_ fun i hi hi' => ?_
  · simp only [ringGet, List.length_map, List.length_range, List.length_take, List.length_drop]
    omega
  · simp only [ringGet, List.length_map, List.length_range] at hi
    simp only [ringGet, List.getElem_map, List.getElem_range, List.getElem_take,
      List.getElem_drop]
    exact h (pos + i) (by omega) (by omega)

theorem ringPut_append (cap : ℕ) (data : ℕ → α) (pos : ℕ) (l l' : List α) :
    ringPut cap data pos (l ++ l') = ringPut cap (ringPut cap data pos l) (pos + l.length) l' := by
  induction l generalizing data pos with
  | nil => rfl
  | cons a l ih =>
    rw [List.cons_append, ringPut, ringPut, ih, List.length_cons, Nat.add_assoc, Nat.add_comm 1]

theorem ringGet_ringPut {cap : ℕ} (data : ℕ → α) (pos : ℕ) {l : List α} (h : l.length ≤ cap) :
    ringGet cap (ringPut cap data pos l) pos l.length = l := by
  -- the ring mirrors a stream of the values it holds
  let stream := (List.range pos).map fun q => data (q % cap)
  have hlen : stream.length = pos := by simp [stream]
  have hmirrors : Mirrors cap data stream := by
    intro q hq _
    simp [stream]
  have hput := hmirrors.append l
  rw [hlen] at hput
  rw [hput.get (by rw [List.length_append]; omega) (by rw [List.length_append]; omega),
    List.drop_left' hlen, List.take_length]

end Lume
