import Lume.Foundation.Bytes
import Mathlib.Logic.Function.Basic

/-!
# The kernel log

The ring buffer of `lib/klog.cc`. Entries of variable length, a header and a message, are written
to a ring of `KLOG_BUF_SIZE` bytes. All positions are free-running 32-bit counters. There are two
read cursors, one for readers and one for the console, and one routine that drops the oldest
entries to make room.

What is written to the console is the output of a call here, and so is what a reader gets.

## Main definitions

* `KlogHdr`, `KlogEntry`: the header and an entry
* `Klog`: the state `g_klog`
* `Klog.ringDropOldest`, `Klog.readInternal`, `Klog.vex`, `Klog.flush`: the operations
* `KlogOp`, `Klog.exec`, `Klog.Step`: one call
-/

namespace Lume

/-- `KLOG_BUF_SIZE` -/
def kKlogBufSize : ℕ := 2 ^ 16

/-- `KLOG_LINE_MAX` -/
def kKlogLineMax : ℕ := 256

/-- `KLOG_SUBSYS_MAX` -/
def kKlogSubsysMax : ℕ := 11

/-- `KLOG_DEFAULT_LEVEL`, which is `KLOG_INFO` -/
def kKlogDefaultLevel : ℕ := 6

/-- Subtraction of `uint32`. -/
def sub32 (a b : ℕ) : ℕ := (a + 2 ^ 32 - b) % 2 ^ 32

/-! ## Entries -/

/-- `KlogEntryHdr` -/
structure KlogHdr where
  seq : ℕ
  len : ℕ
  ts : ℕ
  cpu : ℕ
  level : ℕ
  subsys : ℕ
  reserved : ℕ

/-- `sizeof(KlogEntryHdr)` -/
def kKlogHdrSize : ℕ := 24

/-- The bytes of a header in memory; `pad` is what the padding at its end holds. -/
def KlogHdr.bytes (h : KlogHdr) (pad : ℕ) : List UInt8 :=
  toLe 4 h.seq ++ toLe 4 h.len ++ toLe 8 h.ts ++ toLe 2 h.cpu ++ toLe 1 h.level ++
    toLe 1 h.subsys ++ toLe 2 h.reserved ++ toLe 2 pad

/-- The header with the given bytes in memory. -/
def KlogHdr.ofBytes (l : List UInt8) : KlogHdr where
  seq := ofLe (l.take 4)
  len := ofLe ((l.drop 4).take 4)
  ts := ofLe ((l.drop 8).take 8)
  cpu := ofLe ((l.drop 16).take 2)
  level := ofLe ((l.drop 18).take 1)
  subsys := ofLe ((l.drop 19).take 1)
  reserved := ofLe ((l.drop 20).take 2)

/-- An entry: its header, what the padding of the header holds, and its message. -/
structure KlogEntry where
  hdr : KlogHdr
  pad : ℕ
  msg : List UInt8

/-- The bytes of an entry in the ring. -/
def KlogEntry.bytes (e : KlogEntry) : List UInt8 := e.hdr.bytes e.pad ++ e.msg

/-! ## Formatting -/

/-- The characters of a text. -/
def charBytes (s : String) : List UInt8 := s.toList.map fun c => UInt8.ofNat c.toNat

/-- `klog_level_name` -/
def klogLevelName (level : ℕ) : String :=
  (["EMERG", "ALERT", "CRIT", "ERR", "WARN", "NOTICE", "INFO", "DEBUG"][level]?).getD "?"

/-- `klog_subsys_name` -/
def klogSubsysName (subsys : ℕ) : String :=
  (["GEN", "SCHED", "TRAP", "IRQ", "TIMER", "VMM", "PMM", "SLAB", "FS", "DRV",
    "TEST"][subsys]?).getD "?"

/-- The size of the buffers for a line. -/
def kKlogOutSize : ℕ := kKlogLineMax + 64

/-- What `ksnprintf` writes in front of a message. -/
def klogLead (hdr : KlogHdr) : List UInt8 :=
  charBytes ("[" ++ klogLevelName hdr.level ++ "][cpu" ++ toString hdr.cpu ++ "][" ++
    toString hdr.ts ++ "][" ++ klogSubsysName hdr.subsys ++ "] ")

/-- `klog_format_line` -/
def klogFormatLine (hdr : KlogHdr) (msg : List UInt8) : List UInt8 :=
  let out := klogLead hdr ++ msg.take (kKlogOutSize - 1 - (klogLead hdr).length)
  if out.getLast? ≠ some 10 ∧ out.length < kKlogOutSize - 1 then out ++ [10] else out

/-! ## The ring -/

/-- `g_klog` -/
structure Klog where
  data : ℕ → UInt8
  head : ℕ
  tail : ℕ
  consoleTail : ℕ
  dropped : ℕ
  seq : ℕ
  subsysMask : BitVec 64
  consoleLevel : ℕ
  initialized : Bool
  panicMode : Bool

namespace Klog

/-- `klog_init`; the data are static, and so zero at first. -/
def init : Klog where
  data := fun _ => 0
  head := 0
  tail := 0
  consoleTail := 0
  dropped := 0
  seq := 0
  subsysMask := (1#64 <<< kKlogSubsysMax) - 1
  consoleLevel := kKlogDefaultLevel
  initialized := true
  panicMode := false

/-- The index of a position in the ring. -/
def cell (pos : ℕ) : ℕ := pos &&& (kKlogBufSize - 1)

/-- The loop of `ring_write_bytes`. -/
def putBytes (data : ℕ → UInt8) (pos : ℕ) : List UInt8 → ℕ → UInt8
  | [] => data
  | b :: l => putBytes (Function.update data (cell pos) b) ((pos + 1) % 2 ^ 32) l

/-- `ring_write_bytes` -/
def ringWriteBytes (s : Klog) (src : List UInt8) : Klog :=
  { s with data := putBytes s.data s.head src, head := (s.head + src.length) % 2 ^ 32 }

/-- `ring_read_bytes` -/
def ringReadBytes (s : Klog) (pos len : ℕ) : List UInt8 :=
  (List.range len).map fun i => s.data (cell ((pos + i) % 2 ^ 32))

/-- The header at a position. -/
def hdrAt (s : Klog) (pos : ℕ) : KlogHdr := .ofBytes (s.ringReadBytes pos kKlogHdrSize)

/-- The loop of `ring_drop_oldest`, for at most `fuel` rounds, with `min_tail` and `dropped`. -/
def dropLoop (s : Klog) (needed : ℕ) : ℕ → ℕ → ℕ → ℕ × ℕ
  | 0, minTail, dropped => (minTail, dropped)
  | fuel + 1, minTail, dropped =>
    if sub32 kKlogBufSize (sub32 s.head minTail) < needed then
      let entry := (kKlogHdrSize + (s.hdrAt minTail).len) % 2 ^ 32
      if entry = 0 ∨ kKlogBufSize < entry then
        dropLoop s needed fuel ((minTail + 1) % 2 ^ 32) ((dropped + 1) % 2 ^ 32)
      else dropLoop s needed fuel ((minTail + entry) % 2 ^ 32) ((dropped + 1) % 2 ^ 32)
    else (minTail, dropped)

/-- `ring_drop_oldest`. Each round moves on by a byte at least, so that as many rounds as bytes are
needed are enough. -/
def ringDropOldest (s : Klog) (needed : ℕ) : Klog :=
  let r := s.dropLoop needed (needed + 1) (min s.tail s.consoleTail) s.dropped
  { s with
    dropped := r.2
    tail := if s.tail < r.1 then r.1 else s.tail
    consoleTail := if s.consoleTail < r.1 then r.1 else s.consoleTail }

/-- The message at a position, and the line for it. -/
def lineAt (s : Klog) (pos : ℕ) : List UInt8 :=
  klogFormatLine (s.hdrAt pos)
    (s.ringReadBytes ((pos + kKlogHdrSize) % 2 ^ 32) (min (s.hdrAt pos).len kKlogLineMax))

/-- The position after the entry at a position. -/
def nextPos (s : Klog) (pos : ℕ) : ℕ := (pos + kKlogHdrSize + (s.hdrAt pos).len) % 2 ^ 32

/-- The loop of `klog_read_internal`, for at most `fuel` rounds: what has been written to the
buffer of the given size, and the position. -/
def readLoop (s : Klog) (size : ℤ) : ℕ → ℕ → List UInt8 → List UInt8 × ℕ
  | 0, pos, buf => (buf, pos)
  | fuel + 1, pos, buf =>
    if pos = s.head then (buf, pos)
    else if kKlogBufSize < (s.hdrAt pos).len then (buf, pos)
    else if (s.lineAt pos).length = 0 ∨ size < (buf.length + (s.lineAt pos).length : ℕ) then
      (buf, pos)
    else readLoop s size fuel (s.nextPos pos) (buf ++ s.lineAt pos)

/-- `klog_read_internal`: what is written to the buffer, and the position reached. Each round
writes a byte at least, so that as many rounds as the buffer has bytes are enough. -/
def readInternal (s : Klog) (size : ℤ) (pos : ℕ) : List UInt8 × ℕ :=
  if size ≤ 0 then ([], pos) else s.readLoop size (size.toNat + 1) pos []

/-- `klog_read` -/
def read (s : Klog) (size : ℤ) : List UInt8 :=
  if ¬ s.initialized ∨ size ≤ 0 then [] else (s.readInternal size s.tail).1

/-- `klog_read_consume` -/
def readConsume (s : Klog) (size : ℤ) : List UInt8 × Klog :=
  if ¬ s.initialized ∨ size ≤ 0 then ([], s)
  else
    let r := s.readInternal size s.tail
    (r.1, { s with tail := r.2 })

/-- The loop of `klog_flush`, for at most `fuel` rounds: what goes to the console, and the position
reached; `none` if the rounds do not suffice. -/
def flushLoop (s : Klog) : ℕ → ℕ → List UInt8 → Option (List UInt8 × ℕ)
  | 0, _, _ => none
  | fuel + 1, pos, out =>
    if pos = s.head then some (out, pos)
    else if kKlogBufSize < (s.hdrAt pos).len then some (out, pos)
    else flushLoop s fuel (s.nextPos pos) (out ++ s.lineAt pos)

/-- `klog_flush`. There are `2 ^ 32` positions: a loop that goes on for longer does not end, and
the result is then `none`. -/
def flush (s : Klog) : Option (List UInt8 × Klog) :=
  if ¬ s.initialized then some ([], s)
  else
    (s.flushLoop (2 ^ 32 + 1) s.consoleTail []).map fun r => (r.1, { s with consoleTail := r.2 })

end Klog

/-! ## Writing -/

/-- The arguments of `klog_vex` and what it reads from the machine: `text` is what `vsnprintf_`
would write into a buffer without end, and `none` if it fails. -/
structure KlogCall where
  level : ℕ
  subsys : ℕ
  text : Option (List UInt8)
  ts : ℕ
  cpu : ℕ
  pad : ℕ

/-- The first `msg_len` bytes of `msg`: `vsnprintf_` ends a text that is too long with a zero in
the last byte it may write. -/
def klogMessage (text : List UInt8) : List UInt8 :=
  if text.length < kKlogLineMax then text else text.take (kKlogLineMax - 1) ++ [0]

/-- The subsystem that `klog_vex` uses. -/
def KlogCall.subsystem (c : KlogCall) : ℕ := if kKlogSubsysMax ≤ c.subsys then 0 else c.subsys

/-- The entry that `klog_vex` makes, unless the subsystem is masked out or the text cannot be
formatted. -/
def KlogCall.entry (c : KlogCall) (initialized : Bool) (mask : BitVec 64) (seq : ℕ) :
    Option KlogEntry :=
  if initialized ∧ mask.getLsbD c.subsystem = false then none
  else c.text.map fun text =>
    { hdr :=
        { seq := seq
          len := (klogMessage text).length
          ts := c.ts % 2 ^ 64
          cpu := c.cpu % 2 ^ 16
          level := c.level % 2 ^ 8
          subsys := c.subsystem
          reserved := 0 }
      pad := c.pad
      msg := klogMessage text }

namespace Klog

/-- `klog_vex`, with what it writes to the console -/
def vex (s : Klog) (c : KlogCall) : List UInt8 × Klog :=
  match c.entry s.initialized s.subsysMask s.seq with
  | none => ([], s)
  | some e =>
    let doConsole := ¬ s.initialized ∨ e.hdr.level ≤ s.consoleLevel
    let s := { s with seq := (s.seq + 1) % 2 ^ 32 }
    let s :=
      if s.initialized ∧ ¬ s.panicMode then
        let s := ((s.ringDropOldest (kKlogHdrSize + e.hdr.len)).ringWriteBytes
          (e.hdr.bytes e.pad)).ringWriteBytes e.msg
        if doConsole then { s with consoleTail := s.head } else s
      else s
    (if doConsole then klogFormatLine e.hdr e.msg else [], s)

end Klog

/-! ## The interface -/

/-- One call. -/
inductive KlogOp
  | write (c : KlogCall)
  | read (size : ℤ)
  | readConsume (size : ℤ)
  | flush
  | setLevel (level : ℕ)
  | setSubsysMask (mask : BitVec 64)

namespace Klog

/-- The effect of a call, with what it returns to a reader or writes to the console; `none` if it
does not end. -/
def exec (s : Klog) : KlogOp → Option (List UInt8 × Klog)
  | .write c => some (s.vex c)
  | .read size => some (s.read size, s)
  | .readConsume size => some (s.readConsume size)
  | .flush => s.flush
  | .setLevel level => some ([], { s with consoleLevel := level })
  | .setSubsysMask mask => some ([], { s with subsysMask := mask })

/-- One call, labelled with its output. -/
def Step (s : Klog) (l : KlogOp × List UInt8) (s' : Klog) : Prop :=
  s.exec l.1 = some (l.2, s')

end Klog

end Lume
