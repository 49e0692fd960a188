import Mathlib.Data.Int.Notation
import Mathlib.Data.List.TakeWhile
import Mathlib.Tactic.NormNum
import Lume.Config

/-!
# Copies from and to user memory

`copy_from_user`, `copy_to_user` and `strncpy_from_user` of `kernel/uaccess.cc`, with the loops of
`arch/riscv/uaccess/uaccess_memcpy.S`. A load or store of user memory may fault; the fault handler
then goes on at the fixup of the loop, which returns `-EFAULT`. The kernel's own buffer is there.
What the calls do on the user's side is logged, address by address, the one that faults included.

## Main definitions

* `UserSide σ`: loads and stores of user memory in a state `σ`
* `copyFromUser`, `copyToUser`, `strncpyFromUser`: the calls
* `cutString`: the string at an address, cut to a number of characters

## Main results

* `isUserRange_iff`: the range check, for every address and length
* `copyFromLoop_log`, `copyToLoop_log`, `strncpyLoop_log`: what the loops touch
* `strncpyLoop_spec`: what the string loop leaves in the buffer
* `user_copies_confined`: the three calls
-/

namespace Lume

/-- `kKernelVABase` -/
def kKernelVABase : ℕ := 0xFFFFFFC000000000

/-- Loads and stores of user memory, by the kernel; `none` is a page fault. -/
structure UserSide (σ : Type) where
  load : σ → ℕ → Option UInt8
  store : σ → ℕ → UInt8 → Option σ

/-- `is_user_range`, in 64-bit arithmetic. -/
def isUserRange (addr len : ℕ) : Bool :=
  if kKernelVABase ≤ addr then false
  else if (addr + len) % 2 ^ 64 < addr then false
  else if kKernelVABase < (addr + len) % 2 ^ 64 then false
  else true

/-- What a copy leaves: the value it returns, the state, and the user addresses it touched. -/
structure Copied (β : Type) where
  ret : ℤ
  state : β
  log : List ℕ

/-- `__uaccess_memcpy` out of user memory: `len` bytes are left, `buf` is in the buffer. -/
def copyFromLoop (load : ℕ → Option UInt8) : ℕ → ℕ → List UInt8 → Copied (List UInt8)
  | 0, _, buf => ⟨0, buf, []⟩
  | len + 1, src, buf =>
    match load src with
    | none => ⟨-eFault, buf, [src]⟩
    | some b =>
      let r := copyFromLoop load len ((src + 1) % 2 ^ 64) (buf ++ [b])
      { r with log := src :: r.log }

/-- `__uaccess_memcpy` into user memory, of the bytes that are left. -/
def copyToLoop {σ : Type} (u : UserSide σ) : List UInt8 → ℕ → σ → Copied σ
  | [], _, s => ⟨0, s, []⟩
  | b :: bytes, dst, s =>
    match u.store s dst b with
    | none => ⟨-eFault, s, [dst]⟩
    | some s =>
      let r := copyToLoop u bytes ((dst + 1) % 2 ^ 64) s
      { r with log := dst :: r.log }

/-- `copy_from_user`: the state is what it has put into the kernel's buffer. -/
def copyFromUser {σ : Type} (u : UserSide σ) (s : σ) (src len : ℕ) : Copied (List UInt8) :=
  if len = 0 then ⟨0, [], []⟩
  else if isUserRange src len then copyFromLoop (u.load s) len src []
  else ⟨-eFault, [], []⟩

/-- `copy_to_user`, of the bytes of the kernel's buffer. -/
def copyToUser {σ : Type} (u : UserSide σ) (s : σ) (dst : ℕ) (bytes : List UInt8) : Copied σ :=
  if bytes.length = 0 then ⟨0, s, []⟩
  else if isUserRange dst bytes.length then copyToLoop u bytes dst s
  else ⟨-eFault, s, []⟩

/-- What the string copy leaves: the register that it returns, the bytes from the start of the
kernel's buffer on that it has written, and the user addresses it touched. -/
structure CopiedString where
  ret : ℕ
  buf : List UInt8
  log : List ℕ

/-- `-EFAULT` in the register. -/
def efaultReg : ℕ := 2 ^ 64 - 14

/-- The loop of `__uaccess_strncpy`: `left` bytes have room, `buf` is written. -/
def strncpyLoop (load : ℕ → Option UInt8) : ℕ → ℕ → List UInt8 → CopiedString
  | 0, _, buf =>
    -- the last byte is overwritten by the terminator, and is not counted
    ⟨(buf.length + 2 ^ 64 - 1) % 2 ^ 64, buf.dropLast ++ [0], []⟩
  | left + 1, src, buf =>
    match load src with
    | none => ⟨efaultReg, buf, [src]⟩
    | some b =>
      if b = 0 then ⟨buf.length, buf ++ [b], [src]⟩
      else
        let r := strncpyLoop load left ((src + 1) % 2 ^ 64) (buf ++ [b])
        { r with log := src :: r.log }

/-- `__uaccess_strncpy` -/
def uaccessStrncpy (load : ℕ → Option UInt8) (src maxLen : ℕ) : CopiedString :=
  if maxLen = 0 then ⟨0, [], []⟩ else strncpyLoop load maxLen src []

/-- `strncpy_from_user` -/
def strncpyFromUser {σ : Type} (u : UserSide σ) (s : σ) (src maxLen : ℕ) : CopiedString :=
  if isUserRange src 1 then
    let maxAllowed := kKernelVABase - src
    uaccessStrncpy (u.load s) src (if maxAllowed < maxLen then maxAllowed else maxLen)
  else ⟨efaultReg, [], []⟩

/-! ## What is touched -/

/-- **The range check**, for every address and length. -/
theorem isUserRange_iff {addr len : ℕ} (haddr : addr < 2 ^ 64) (hlen : len < 2 ^ 64) :
    isUserRange addr len = true ↔ addr < kKernelVABase ∧ addr + len ≤ kKernelVABase := by
  rw [isUserRange, kKernelVABase]
  constructor
  · intro h
    split at h
    · cases h
    · split at h
      · cases h
      · split at h
        · cases h
        · omega
  · rintro ⟨h, h'⟩
    rw [if_neg (by omega), if_neg (by omega), if_neg (by omega)]

theorem next_addr {a : ℕ} (h : a < kKernelVABase) : (a + 1) % 2 ^ 64 = a + 1 :=
  Nat.mod_eq_of_lt (by rw [kKernelVABase] at h; omega)

section Logs

variable {σ : Type} {n a src dst : ℕ} {buf : List UInt8}

theorem copyFromLoop_log (load : ℕ → Option UInt8) (hend : src + n ≤ kKernelVABase)
    (ha : a ∈ (copyFromLoop load n src buf).log) : a < src + n := by
  induction n generalizing src buf with
  | zero => cases ha
  | succ n ih =>
    rw [copyFromLoop] at ha
    split at ha
    · obtain rfl := List.mem_singleton.mp ha
      omega
    · obtain rfl | ha := List.mem_cons.mp ha
      · omega
      · rw [next_addr (by omega)] at ha
        have hlt := ih (by omega) ha
        omega

theorem copyToLoop_log (u : UserSide σ) {s : σ} {bytes : List UInt8}
    (hend : dst + bytes.length ≤ kKernelVABase) (ha : a ∈ (copyToLoop u bytes dst s).log) :
    a < dst + bytes.length := by
  induction bytes generalizing dst s with
  | nil => cases ha
  | cons b bytes ih =>
    rw [copyToLoop] at ha
    rw [List.length_cons] at hend ⊢
    split at ha
    · obtain rfl := List.mem_singleton.mp ha
      omega
    · obtain rfl | ha := List.mem_cons.mp ha
      · omega
      · rw [next_addr (by omega)] at ha
        have hlt := ih (by omega) ha
        omega

theorem strncpyLoop_log (load : ℕ → Option UInt8) (hend : src + n ≤ kKernelVABase)
    (ha : a ∈ (strncpyLoop load n src buf).log) : a < src + n := by
  induction n generalizing src buf with
  | zero => cases ha
  | succ n ih =>
    rw [strncpyLoop] at ha
    split at ha
    · obtain rfl := List.mem_singleton.mp ha
      omega
    · split at ha
      · obtain rfl := List.mem_singleton.mp ha
        omega
      · obtain rfl | ha := List.mem_cons.mp ha
        · omega
        · rw [next_addr (by omega)] at ha
          have hlt := ih (by omega) ha
          omega

end Logs

/-! ## The string -/

/-- The string at `src`, cut to `n` characters; `none` if one of its bytes faults. -/
def cutString (load : ℕ → Option UInt8) (src : ℕ) : ℕ → Option (List UInt8)
  | 0 => some []
  | n + 1 =>
    match load src with
    | none => none
    | some b => if b = 0 then some [] else (cutString load (src + 1) n).map (b :: ·)

/-- **What the string loop leaves**, with room for `n + 1` bytes: a fault, or the string that was
there, cut to `n` characters, and its terminator. -/
theorem strncpyLoop_spec (load : ℕ → Option UInt8) (n src : ℕ) (buf : List UInt8)
    (hend : src + (n + 1) ≤ kKernelVABase) (hbuf : buf.length + (n + 1) ≤ kKernelVABase) :
    (strncpyLoop load (n + 1) src buf).buf.length ≤ buf.length + (n + 1) ∧
    ((strncpyLoop load (n + 1) src buf).ret = efaultReg ∨ ∃ str, cutString load src n = some str ∧
        (strncpyLoop load (n + 1) src buf).buf = buf ++ str ++ [0] ∧
        (strncpyLoop load (n + 1) src buf).ret = buf.length + str.length) := by
  induction n generalizing src buf with
  | zero =>
    rw [strncpyLoop]
    cases hload : load src with
    | none => exact ⟨Nat.le_add_right _ _, .inl rfl⟩
    | some b =>
      dsimp only
      by_cases hb : b = 0
      · subst hb
        rw [if_pos rfl]
        exact ⟨by simp, .inr ⟨[], rfl, by simp, by simp⟩⟩
      · rw [if_neg hb, strncpyLoop]
        have hret : (buf.length + 1 + 2 ^ 64 - 1) % 2 ^ 64 = buf.length := by
          rw [kKernelVABase] at hbuf
          omega
        refine ⟨by simp, .inr ⟨[], rfl, by simp, ?_⟩⟩
        rw [List.length_append, List.length_singleton]
        exact hret
  | succ n ih =>
    rw [strncpyLoop, cutString]
    cases hload : load src with
    | none => exact ⟨Nat.le_add_right _ _, .inl rfl⟩
    | some b =>
      dsimp only
      by_cases hb : b = 0
      · subst hb
        rw [if_pos rfl, if_pos rfl]
        exact ⟨by simp, .inr ⟨[], rfl, by simp, by simp⟩⟩
      · rw [if_neg hb, if_neg hb, next_addr (by omega)]
        have hlen : (buf ++ [b]).length = buf.length + 1 := List.length_append
        obtain ⟨hle, hspec⟩ := ih (src + 1) (buf ++ [b]) (by omega) (by omega)
        refine ⟨by dsimp only; omega, hspec.imp_right fun ⟨str, hcut, hbuf', hret⟩ => ⟨b :: str, ?_, ?_, ?_⟩⟩
        · rw [hcut, Option.map_some]
        · dsimp only
          rw [hbuf', List.append_assoc buf [b] str, List.singleton_append]
        · dsimp only
          rw [hret, hlen, List.length_cons]
          omega

/-! ## The calls -/

/-- **User copies are confined.** No call touches an address of the kernel on the user's side. The
string copy writes no more bytes than it has room for, and if it does not fail it leaves the
string, cut to what has room below the kernel's addresses, its terminator, and returns its
length. -/
theorem user_copies_confined {σ : Type} (u : UserSide σ) (s : σ) (addr len : ℕ) (bytes : List UInt8)
    (haddr : addr < 2 ^ 64) (hlen : len < 2 ^ 64) (hbytes : bytes.length < 2 ^ 64) :
    (∀ a ∈ (copyFromUser u s addr len).log, a < kKernelVABase) ∧
    (∀ a ∈ (copyToUser u s addr bytes).log, a < kKernelVABase) ∧
    (∀ a ∈ (strncpyFromUser u s addr len).log, a < kKernelVABase) ∧
    (strncpyFromUser u s addr len).buf.length ≤ len ∧
    (0 < len → (strncpyFromUser u s addr len).ret ≠ efaultReg →
      ∃ str, cutString (u.load s) addr (min len (kKernelVABase - addr) - 1) = some str ∧
        (strncpyFromUser u s addr len).buf = str ++ [0] ∧
        (strncpyFromUser u s addr len).ret = str.length) := by
  refine ⟨fun a ha => ?_, fun a ha => ?_, ?_⟩
  · rw [copyFromUser] at ha
    split at ha
    · cases ha
    · split at ha
      · rename_i hrange
        obtain ⟨-, hend⟩ := (isUserRange_iff haddr hlen).mp hrange
        exact Nat.lt_of_lt_of_le (copyFromLoop_log _ hend ha) hend
      · cases ha
  · rw [copyToUser] at ha
    split at ha
    · cases ha
    · split at ha
      · rename_i hrange
        obtain ⟨-, hend⟩ := (isUserRange_iff haddr hbytes).mp hrange
        exact Nat.lt_of_lt_of_le (copyToLoop_log _ hend ha) hend
      · cases ha
  · rw [strncpyFromUser]
    by_cases hrange : isUserRange addr 1 = true
    · obtain ⟨hlt, -⟩ := (isUserRange_iff haddr (by norm_num)).mp hrange
      have hmin : (if kKernelVABase - addr < len then kKernelVABase - addr else len) =
          min len (kKernelVABase - addr) := by
        split <;> omega
      rw [if_pos hrange]
      dsimp only
      rw [hmin, uaccessStrncpy]
      by_cases hzero : len = 0
      · subst hzero
        rw [Nat.zero_min, if_pos rfl]
        exact ⟨fun a ha => (nomatch ha), Nat.le_refl _, fun hpos => absurd hpos (Nat.lt_irrefl 0)⟩
      · have hpos : min len (kKernelVABase - addr) ≠ 0 := by omega
        obtain ⟨n, hn⟩ := Nat.exists_eq_add_one_of_ne_zero hpos
        rw [if_neg hpos, hn, Nat.add_sub_cancel]
        obtain ⟨hle, hspec⟩ := strncpyLoop_spec (u.load s) n addr [] (by omega)
          (by rw [List.length_nil]; omega)
        refine ⟨fun a ha => ?_, ?_, fun _ hret => ?_⟩
        · have ha' := strncpyLoop_log (u.load s) (by omega) ha
          omega
        · rw [List.length_nil] at hle
          omega
        · obtain ⟨str, hcut, hbuf, hlen'⟩ := hspec.resolve_left hret
          exact ⟨str, hcut, by simpa using hbuf, by simpa using hlen'⟩
    · rw [if_neg hrange]
      exact ⟨fun a ha => (nomatch ha), Nat.zero_le _, fun _ h => absurd rfl h⟩

/-- User memory that holds one letter everywhere. -/
def letters : UserSide Unit := ⟨fun _ _ => some 0x41, fun _ _ _ => none⟩

/-- A string without end is cut at the room that there is, and below the kernel's addresses. -/
theorem user_copies_confined_letters :
    (strncpyFromUser letters () (kKernelVABase - 3) 8).buf = [0x41, 0x41, 0] ∧
    (∀ a ∈ (strncpyFromUser letters () (kKernelVABase - 3) 8).log, a < kKernelVABase) ∧
    ∃ str, cutString (letters.load ()) (kKernelVABase - 3) 2 = some str ∧
      (strncpyFromUser letters () (kKernelVABase - 3) 8).ret = str.length := by
  have h := user_copies_confined letters () (kKernelVABase - 3) 8 [] (by decide) (by decide) (by decide)
  obtain ⟨str, hcut, -, hret⟩ := h.2.2.2.2 (by decide) (by decide)
  exact ⟨by decide, h.2.2.1, str, hcut, hret⟩

end Lume
