import Mathlib.Algebra.Group.Nat.Basic
import Mathlib.Data.Nat.Defs

/-!
# The format's constants, statuses and assertions

Minfs stores files in blocks of `kMinfsBlockSize` bytes addressed by 32-bit block numbers
(`blk_t`). An inode reaches its data through `kMinfsDirect` direct pointers, `kMinfsIndirect`
indirect blocks and `kMinfsDoublyIndirect` doubly indirect blocks, an indirect block holding
`kMinfsDirectPerIndirect` pointers. The block size is fixed; the pointer counts and the largest
file size are a `Format`, so that what is proved holds for every choice of them.

A failed `ZX_ASSERT` aborts the filesystem: the model returns it as a `Panic`, so that an
assertion that fires is a value a theorem can talk about.
-/

namespace Minfs

/-- Bytes in a filesystem block. -/
def kMinfsBlockSize : ℕ := 8192

/-- Pointers in an indirect block: a block of 4-byte `blk_t`s. -/
def kMinfsDirectPerIndirect : ℕ := kMinfsBlockSize / 4

/-- The pointer counts of an inode and the largest file size. -/
structure Format where
  kMinfsDirect : ℕ
  kMinfsIndirect : ℕ
  kMinfsDoublyIndirect : ℕ
  kMinfsMaxFileSize : ℕ

/-- The format Minfs ships: 16 direct, 31 indirect and 1 doubly indirect pointer, and files of at
most `UINT32_MAX / kMinfsBlockSize - 1` blocks. -/
def Format.minfs : Format where
  kMinfsDirect := 16
  kMinfsIndirect := 31
  kMinfsDoublyIndirect := 1
  kMinfsMaxFileSize := ((2 ^ 32 - 1) / kMinfsBlockSize - 1) * kMinfsBlockSize

/-- `fbl::round_up`. -/
def roundUp (x m : ℕ) : ℕ := (x + m - 1) / m * m

/-- The `zx_status_t` values of the write path. -/
inductive Status
  | ok
  | errFileBig
  | errInvalidArgs
  | errNoSpace
  | errOutOfRange
  | errNoMemory
  deriving DecidableEq, Repr

/-- A `ZX_ASSERT` that fails, named after what it checks. -/
inductive Panic
  /-- `expected_blocks <= max_blocks` in `AllocateAndCommitData`. -/
  | pendingOverMax
  /-- `GetNextRange` found a range. -/
  | noNextRange
  /-- `bno_count <= max_blocks`. -/
  | rangeOverMax
  /-- `last_byte <= fbl::round_up(GetNodeSize(), BlockSize())`. -/
  | lastByte
  /-- `GetNodeSize() == GetInode()->size` once nothing is pending. -/
  | nodeSize
  /-- `GetTotalPending() == 0` after the loop. -/
  | pendingLeft
  /-- `cached_transaction == nullptr` when the dirty cache is off. -/
  | cachedTransaction
  /-- The allocator's: a block taken past the transaction's reservation. -/
  | reservation
  /-- `AllocateAndCommitData`'s loop did not end within one round per pending block and one
  more; `allocateAndCommitLoop_ok` shows that it always does. -/
  | unfinished
  deriving DecidableEq, Repr

/-- A `storage::Operation` of type `kWrite`, in blocks: the page buffer's block `vmoOffset` goes to
device block `devOffset`. -/
structure Operation where
  vmoOffset : ℕ
  devOffset : ℕ
  length : ℕ
  deriving DecidableEq, Repr

end Minfs
