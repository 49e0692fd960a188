import Lume.Foundation.Bytes

/-!
# The header of a compressed kernel image

The header of `include/lume/compressed.h`, as it lies in memory, and the checksum of
`arch/riscv/boot/compressed.cc`.

## Main definitions

* `crc32Update`, `crc32Bytes`: the checksum
* `CompressedKernelHeader`, `CompressedKernelHeader.bytes`: the header
* `CompressedKernelHeader.crc`: the checksum of a header, as the boot code computes it
-/

namespace Lume

/-- One of the eight steps of `crc32_update` for a byte. -/
def crc32Shift (crc : BitVec 32) : BitVec 32 := crc >>> 1 ^^^ (0xEDB88320#32 &&& -(crc &&& 1#32))

/-- The eight steps for a byte. -/
def crc32Byte (crc : BitVec 32) (b : UInt8) : BitVec 32 :=
  (List.range 8).foldl (fun crc _ => crc32Shift crc) (crc ^^^ BitVec.ofNat 32 b.toNat)

/-- `crc32_update` -/
def crc32Update (crc : BitVec 32) (data : List UInt8) : BitVec 32 := data.foldl crc32Byte crc

/-- `crc32_init` -/
def crc32Init : BitVec 32 := 0xFFFFFFFF#32

/-- `crc32_final` -/
def crc32Final (crc : BitVec 32) : BitVec 32 := crc ^^^ 0xFFFFFFFF#32

/-- `crc32_bytes` -/
def crc32Bytes (data : List UInt8) : BitVec 32 := crc32Final (crc32Update crc32Init data)

/-- `kCompressedKernelMagic` -/
def kCompressedKernelMagic : ℕ := 0x4C554D45434F4D50

/-- `kCompressedKernelVersion` -/
def kCompressedKernelVersion : ℕ := 1

/-- `KERNEL_COMP_NONE` -/
def kernelCompNone : ℕ := 0

/-- `KERNEL_COMP_LZ4` -/
def kernelCompLz4 : ℕ := 1

/-- `CompressedKernelHeader` -/
structure CompressedKernelHeader where
  magic : ℕ
  version : ℕ
  headerSize : ℕ
  flags : ℕ
  compression : ℕ
  reserved0 : ℕ
  uncompressedSize : ℕ
  compressedSize : ℕ
  loadPhysBase : ℕ
  relocOffset : ℕ
  relocSize : ℕ
  payloadOffset : ℕ
  headerCrc32 : ℕ
  payloadCrc32 : ℕ
  deriving DecidableEq, Repr

namespace CompressedKernelHeader

/-- `sizeof(CompressedKernelHeader)` -/
def size : ℕ := 80

variable (hdr : CompressedKernelHeader)

/-- The bytes in front of `header_crc32`. -/
def front : List UInt8 :=
  toLe 8 hdr.magic ++ toLe 4 hdr.version ++ toLe 2 hdr.headerSize ++ toLe 2 hdr.flags ++
    toLe 4 hdr.compression ++ toLe 4 hdr.reserved0 ++ toLe 8 hdr.uncompressedSize ++
    toLe 8 hdr.compressedSize ++ toLe 8 hdr.loadPhysBase ++ toLe 8 hdr.relocOffset ++
    toLe 8 hdr.relocSize ++ toLe 8 hdr.payloadOffset

/-- The header in memory. -/
def bytes : List UInt8 := hdr.front ++ toLe 4 hdr.headerCrc32 ++ toLe 4 hdr.payloadCrc32

/-- The checksum of the header, with zeros in the place of the checksum itself. -/
def crc : BitVec 32 :=
  let headerSize := if size < hdr.headerSize then size else hdr.headerSize
  let crc := crc32Update crc32Init (hdr.bytes.take 72)
  let crc := crc32Update crc (toLe 4 0)
  crc32Final
    (if 76 < headerSize then crc32Update crc ((hdr.bytes.drop 76).take (headerSize - 76)) else crc)

/-- The header is one, and of this version. -/
def Known : Prop :=
  hdr.magic = kCompressedKernelMagic ∧ hdr.version = kCompressedKernelVersion ∧
    size ≤ hdr.headerSize

instance : Decidable hdr.Known := inferInstanceAs (Decidable (_ ∧ _ ∧ _))

/-- The checksum of the header does not match, and the boot code gives up. -/
def CrcFails : Prop := hdr.headerCrc32 ≠ 0 ∧ hdr.crc.toNat ≠ hdr.headerCrc32

instance : Decidable hdr.CrcFails := inferInstanceAs (Decidable (_ ∧ _))

end CompressedKernelHeader

end Lume
