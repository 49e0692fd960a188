import Lume.Klog.Delivery
import Mathlib.Data.Nat.Digits.Defs

/-!
# What becomes of a message

A message is formatted into a buffer, stored in the ring and printed by a reader, each with a bound
of its own. A line has room for every header and a whole message, so nothing is lost there. The
buffer of `klog_vex` is given to `vsnprintf_` with the size `KLOG_LINE_MAX`, of which the last byte is
for a NUL; but the length is cut to `KLOG_LINE_MAX`, so that a long message is stored with the NUL in
place of its last byte.

## Main definitions

* `Klog.Holds`: an entry is in the ring
* `Klog.Keeps`: a message is stored as it should be, and printed as long as it is in the ring

## Main results

* `KlogEntry.Ok.line_eq`: a line is the header, the whole message and a newline
* `Klog.Holds.readConsume`: `klog_read_consume` prints an entry
* `message_kept_iff`: which messages are kept
* `full_message_loses_last_byte`: what happens to the others
-/

namespace Lume

/-- A message and a newline, if it does not end with one. -/
def withNewline (msg : List UInt8) : List UInt8 := if msg.getLast? = some 10 then msg else msg ++ [10]

/-! ## Lines -/

theorem length_charBytes (s : String) : (charBytes s).length = s.length := by
  rw [charBytes, List.length_map, String.length_toList]

theorem length_toString_le {n k : ℕ} (hk : 0 < k) (h : n < 10 ^ k) : (toString n).length ≤ k :=
  (Nat.length_repr_le_iff hk).mpr h

theorem length_name_le {names : List String} {k : ℕ} (hk : 1 ≤ k) (h : ∀ s ∈ names, s.length ≤ k)
    (i : ℕ) : (names[i]?.getD "?").length ≤ k := by
  rcases hname : names[i]? with _ | s
  · exact hk
  · exact h s (List.mem_of_getElem? hname)

theorem KlogEntry.Ok.length_klogLead {e : KlogEntry} (h : e.Ok) : (klogLead e.hdr).length ≤ 48 := by
  have hlevel : (klogLevelName e.hdr.level).length ≤ 6 := length_name_le (by decide) (by decide) _
  have hsubsys : (klogSubsysName e.hdr.subsys).length ≤ 5 :=
    length_name_le (by decide) (by decide) _
  have hcpu : (toString e.hdr.cpu).length ≤ 5 :=
    length_toString_le (by decide) (h.cpu_lt.trans (by decide))
  have hts : (toString e.hdr.ts).length ≤ 20 :=
    length_toString_le (by decide) (h.ts_lt.trans (by decide))
  rw [klogLead, length_charBytes]
  simp only [String.length_append]
  have hopen : "[".length = 1 := by decide
  have hat : "][cpu".length = 5 := by decide
  have hmid : "][".length = 2 := by decide
  have hclose : "] ".length = 2 := by decide
  omega

theorem getLast?_klogLead (hdr : KlogHdr) : (klogLead hdr).getLast? = some 32 := by
  rw [klogLead, charBytes, String.toList_append, List.map_append, List.getLast?_append]
  rfl

/-- **A line** is the header, the whole message and a newline. -/
theorem KlogEntry.Ok.line_eq {e : KlogEntry} (h : e.Ok) :
    e.line = klogLead e.hdr ++ withNewline e.msg := by
  have hlead := h.length_klogLead
  have hmsg := h.len_le
  have hmax : kKlogLineMax = 256 := rfl
  have hout : kKlogOutSize = 320 := rfl
  have hlast : (klogLead e.hdr ++ e.msg).getLast? = some 10 ↔ e.msg.getLast? = some 10 := by
    rw [List.getLast?_append, getLast?_klogLead]
    cases e.msg.getLast? with
    | none => decide
    | some c => rfl
  have hroom : (klogLead e.hdr ++ e.msg).length < kKlogOutSize - 1 := by
    rw [List.length_append]
    omega
  rw [KlogEntry.line, klogFormatLine, List.take_of_length_le (by omega), withNewline]
  by_cases hnl : e.msg.getLast? = some 10
  · rw [if_neg (fun hc => hc.1 (hlast.mpr hnl)), if_pos hnl]
  · rw [if_pos ⟨fun hc => hnl (hlast.mp hc), hroom⟩, if_neg hnl, List.append_assoc]

namespace Klog

variable {s t : Klog} {c : KlogCall} {e : KlogEntry} {text : List UInt8} {pos : ℕ}

/-! ## Storing -/

/-- The log records a call: it is ready, it does not mask out the subsystem, and its counters have 32
bits. -/
structure Records (s : Klog) (c : KlogCall) : Prop where
  initialized : s.initialized = true
  panicMode : s.panicMode = false
  unmasked : s.subsysMask.getLsbD c.subsystem = true
  head_lt : s.head < 2 ^ 32
  seq_lt : s.seq < 2 ^ 32

theorem Records.entry (h : s.Records c) (htext : c.text = some text) :
    ∃ e, c.entry s.initialized s.subsysMask s.seq = some e ∧ e.Ok ∧ e.msg = klogMessage text := by
  have hmask : ¬ (s.initialized ∧ s.subsysMask.getLsbD c.subsystem = false) := by
    rw [h.unmasked]
    rintro ⟨-, hbit⟩
    cases hbit
  have hentry : ∃ e, c.entry s.initialized s.subsysMask s.seq = some e ∧ e.msg = klogMessage text := by
    rw [KlogCall.entry, if_neg hmask, htext]
    exact ⟨_, rfl, rfl⟩
  obtain ⟨e, he, hmsg⟩ := hentry
  refine ⟨e, he, ?_, hmsg⟩
  rw [h.initialized] at he
  exact KlogCall.entry_ok h.seq_lt he

theorem data_ringDropOldest (s : Klog) (needed : ℕ) : (s.ringDropOldest needed).data = s.data := by
  rw [ringDropOldest]

theorem head_ringDropOldest (s : Klog) (needed : ℕ) : (s.ringDropOldest needed).head = s.head := by
  rw [ringDropOldest]

theorem data_ringWriteBytes (s : Klog) (l : List UInt8) :
    (s.ringWriteBytes l).data = putBytes s.data s.head l := by
  rw [ringWriteBytes]

theorem head_ringWriteBytes (s : Klog) (l : List UInt8) :
    (s.ringWriteBytes l).head = (s.head + l.length) % 2 ^ 32 := by
  rw [ringWriteBytes]

theorem data_consoleTail (P : Prop) [Decidable P] (s : Klog) :
    (if P then { s with consoleTail := s.head } else s).data = s.data := by
  split <;> rfl

theorem Records.vex_data (h : s.Records c)
    (he : c.entry s.initialized s.subsysMask s.seq = some e) :
    (s.vex c).2.data = putBytes (putBytes s.data s.head (e.hdr.bytes e.pad))
      ((s.head + kKlogHdrSize) % 2 ^ 32) e.msg := by
  have hlog : s.initialized = true ∧ ¬ s.panicMode = true := ⟨h.initialized, by simp [h.panicMode]⟩
  rw [vex, he]
  dsimp only
  rw [if_pos hlog, data_consoleTail, data_ringWriteBytes, data_ringWriteBytes, head_ringWriteBytes,
    data_ringDropOldest, head_ringDropOldest, KlogHdr.length_bytes]

/-- **`klog_vex` stores its entry** at the head. -/
theorem Records.holds (h : s.Records c) (he : c.entry s.initialized s.subsysMask s.seq = some e)
    (hok : e.Ok) : (s.vex c).2.Holds s.head e := by
  have hhead : s.head = s.head % 2 ^ 32 := (Nat.mod_eq_of_lt h.head_lt).symm
  have hbuf : e.bytes.length ≤ kKlogBufSize := by
    have hmsg := hok.len_le
    rw [e.length_bytes]
    simp only [kKlogLineMax, kKlogHdrSize, kKlogBufSize] at *
    omega
  have hput : (s.vex c).2.data = ringPut kKlogBufSize s.data s.head e.bytes := by
    rw [h.vex_data he, putBytes_eq, KlogEntry.bytes, ringPut_append, e.hdr.length_bytes]
    nth_rewrite 1 [hhead]
    rw [putBytes_eq]
  rw [Holds]
  nth_rewrite 1 [hhead]
  rw [ringReadBytes_eq, hput]
  exact ringGet_ringPut s.data s.head hbuf

/-! ## Printing -/

theorem prefix_readLoop (s : Klog) (size : ℤ) (fuel pos : ℕ) (buf : List UInt8) :
    buf <+: (s.readLoop size fuel pos buf).1 := by
  induction fuel generalizing pos buf with
  | zero => exact List.prefix_rfl
  | succ fuel ih =>
    rw [readLoop]
    split
    · exact List.prefix_rfl
    split
    · exact List.prefix_rfl
    split
    · exact List.prefix_rfl
    · exact (List.prefix_append buf _).trans (ih _ _)

/-- A reader is about to read the entry at a position, with room for its line. -/
structure Reads (t : Klog) (size : ℤ) (pos : ℕ) (line : List UInt8) : Prop where
  initialized : t.initialized = true
  tail_eq : t.tail = pos
  unread : pos ≠ t.head
  room : (line.length : ℤ) ≤ size

/-- **`klog_read_consume` prints an entry** that is in the ring. -/
theorem Holds.readConsume (h : t.Holds pos e) (hok : e.Ok) {size : ℤ}
    (hreads : t.Reads size pos e.line) : e.line <+: (t.readConsume size).1 := by
  have hne := line_ne_nil e
  have hpos : 0 < e.line.length := List.length_pos_iff.mpr hne
  have hroom := hreads.room
  have hlen : e.msg.length ≤ kKlogBufSize := hok.len_le.trans (by decide)
  rw [Klog.readConsume, if_neg (by rw [hreads.initialized]; simp; omega), hreads.tail_eq,
    readInternal, if_neg (by omega), readLoop, if_neg hreads.unread, h.hdrAt hok, hok.len_eq,
    if_neg (by omega), h.lineAt hok, List.nil_append, List.length_nil, Nat.zero_add,
    if_neg (by omega)]
  exact prefix_readLoop t size _ _ _

/-! ## Messages -/

/-- The first `KLOG_LINE_MAX` bytes of the text are stored as the message of an entry, and as long as
the entry is in the ring a reader prints them, with a newline. -/
def Keeps (s : Klog) (c : KlogCall) (text : List UInt8) : Prop :=
  ∃ e : KlogEntry, e.hdr.len = min text.length kKlogLineMax ∧ e.msg = text.take kKlogLineMax ∧
    (s.vex c).2.Holds s.head e ∧ ∀ (t : Klog) (size : ℤ), t.Holds s.head e →
      t.Reads size s.head (klogLead e.hdr ++ withNewline (text.take kKlogLineMax)) →
      klogLead e.hdr ++ withNewline (text.take kKlogLineMax) <+: (t.readConsume size).1

end Klog

theorem length_klogMessage_eq (text : List UInt8) :
    (klogMessage text).length = min text.length kKlogLineMax := by
  by_cases hlt : text.length < kKlogLineMax
  · rw [klogMessage, if_pos hlt, Nat.min_eq_left hlt.le]
  · rw [length_klogMessage (not_lt.mp hlt), Nat.min_eq_right (not_lt.mp hlt)]

theorem klogMessage_eq_iff (text : List UInt8) : klogMessage text = text.take kKlogLineMax ↔
      text.length < kKlogLineMax ∨ text[kKlogLineMax - 1]? = some 0 := by
  rw [klogMessage]
  by_cases hlt : text.length < kKlogLineMax
  · rw [if_pos hlt, List.take_of_length_le hlt.le]
    exact iff_of_true rfl (.inl hlt)
  · rw [if_neg hlt, or_iff_right hlt]
    have hin : kKlogLineMax - 1 < text.length := by
      have hpos : 0 < kKlogLineMax := by decide
      omega
    have htake : text.take kKlogLineMax =
        text.take (kKlogLineMax - 1) ++ [text[kKlogLineMax - 1]] :=
      List.take_succ_eq_append_getElem hin
    rw [htake, List.append_cancel_left_eq, List.singleton_inj, List.getElem?_eq_getElem hin,
      Option.some_inj, eq_comm]

/-- **A message is kept** if it is shorter than a line, and only then, unless the NUL was in it. -/
theorem message_kept_iff {s : Klog} {c : KlogCall} {text : List UInt8} (h : s.Records c)
    (htext : c.text = some text) :
    s.Keeps c text ↔ text.length < kKlogLineMax ∨ text[kKlogLineMax - 1]? = some 0 := by
  obtain ⟨e, he, hok, hmsg⟩ := h.entry htext
  have hholds := h.holds he hok
  rw [← klogMessage_eq_iff, ← hmsg]
  constructor
  · rintro ⟨e', hlen, hmsg', hholds', -⟩
    -- both entries are in the same place, with messages of one length
    have hsame : e'.bytes.length = e.bytes.length := by
      rw [e'.length_bytes, e.length_bytes, hmsg', hmsg, List.length_take, length_klogMessage_eq,
        Nat.min_comm]
    have hbytes : e'.bytes = e.bytes := by
      rw [← hholds', ← hholds, hsame]
    rw [← hmsg']
    exact (List.append_inj_right hbytes.symm (by rw [KlogHdr.length_bytes, KlogHdr.length_bytes]))
  · intro heq
    refine ⟨e, ?_, heq, hholds, fun t size ht hreads => ?_⟩
    · rw [hok.len_eq, heq, List.length_take, Nat.min_comm]
    · have hline := hok.line_eq
      rw [heq] at hline
      rw [← hline] at hreads ⊢
      exact ht.readConsume hok hreads

/-- A short message at level `INFO`. -/
def shortLine : KlogCall := ⟨kKlogDefaultLevel, 0, some [104, 105], 0, 0, 0⟩

theorem records_init (c : KlogCall) (hc : c.subsystem < kKlogSubsysMax) : Klog.init.Records c := by
  have hmask : ∀ i < kKlogSubsysMax, ((1#64 <<< kKlogSubsysMax) - 1).getLsbD i = true := by decide
  exact ⟨rfl, rfl, hmask _ hc, by decide, by decide⟩

theorem message_kept_short : Klog.init.Keeps shortLine [104, 105] :=
  (message_kept_iff (records_init shortLine (by decide)) rfl).mpr (.inl (by decide))

/-- **A message that fills a line loses its last byte**: what is stored has a NUL there. -/
theorem full_message_loses_last_byte :
    (Klog.init.vex fullLine).2.ringReadBytes kKlogHdrSize kKlogLineMax =
        List.replicate (kKlogLineMax - 1) 65 ++ [0] ∧
      fullText.take kKlogLineMax = List.replicate kKlogLineMax 65 := by
  have hrecords : Klog.init.Records fullLine := records_init fullLine (by decide)
  have htext : fullText = List.replicate kKlogLineMax 65 := by rw [fullText]
  obtain ⟨e, he, hok, hmsg⟩ := hrecords.entry (show fullLine.text = some fullText from rfl)
  have hholds := hrecords.holds he hok
  have hstored : klogMessage fullText = List.replicate (kKlogLineMax - 1) 65 ++ [0] := by
    rw [htext]
    decide +kernel
  have hlen : e.msg.length = kKlogLineMax := by
    rw [hmsg, hstored]
    decide +kernel
  have hpos : (Klog.init.head + kKlogHdrSize) % 2 ^ 32 = kKlogHdrSize := by decide
  constructor
  · have hread : (Klog.init.vex fullLine).2.ringReadBytes
        ((Klog.init.head + kKlogHdrSize) % 2 ^ 32) e.msg.length = e.msg := by
      rw [Klog.drop_ringReadBytes, ← e.length_bytes, hholds, KlogEntry.bytes,
        List.drop_left' (e.hdr.length_bytes e.pad)]
    rwa [hpos, hlen, hmsg, hstored] at hread
  · rw [htext, List.take_of_length_le (by rw [List.length_replicate])]

end Lume
