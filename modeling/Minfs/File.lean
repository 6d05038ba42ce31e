import Minfs.AllocationState
import Minfs.BlockMap
import Minfs.Vfs

/-!
# `File`: pending blocks and their allocation

The Fuchsia build of `file.cc` defers allocation: a write marks file blocks pending
(`AcquireWritableBlock`) and counts their bytes as dirty, and `AllocateAndCommitData` later takes
the pending blocks run by run (`GetNextRange`), gives each a new disk block (`BlocksSwap`, copy on
write), enqueues one data write per block and commits the transaction. `DeleteBlock` frees a
block during a truncate and drops its pending mark; `CancelPendingWriteback` drops every mark.

`AllocateAndCommitData`'s `while (true)` runs here with one round per pending block and one more
(`allocateAndCommitLoop`); `Minfs.Proofs.Commit` shows that this always suffices.
-/

namespace Minfs

/-- The inode fields the write path reads and writes. -/
structure Inode where
  size : ℕ
  blockCount : ℕ
  modifyTime : ℕ
  tree : BlockMap

/-- A file vnode: its inode, its pending allocations, and the transaction it holds open. -/
structure File where
  inode : Inode
  allocationState : AllocationState
  cachedTransaction : Option Transaction

/-- A file operation's world: the filesystem, the file and the transaction in hand. -/
structure Ctx where
  fs : Vfs
  file : File
  txn : Transaction

theorem bind_eq_ok {ε α β : Type} {x : Except ε α} {f : α → Except ε β} {b : β} :
    x >>= f = .ok b ↔ ∃ a, x = .ok a ∧ f a = .ok b := by
  cases x <;> simp [bind, Except.bind]

theorem map_eq_ok {ε α β : Type} {x : Except ε α} {f : α → β} {b : β} :
    x.map f = .ok b ↔ ∃ a, x = .ok a ∧ f a = b := by
  cases x <;> simp [Except.map]

@[simp] theorem ok_bind {ε α β : Type} (a : α) (f : α → Except ε β) :
    (Except.ok a >>= f : Except ε β) = f a := rfl

@[simp] theorem throw_bind {ε α β : Type} (e : ε) (f : α → Except ε β) :
    (throw e >>= f : Except ε β) = throw e := rfl

@[simp] theorem throw_ne_ok {ε α : Type} (e : ε) (a : α) : (throw e : Except ε α) ≠ .ok a := by
  intro h
  cases h

namespace File

/-- A new, empty file. -/
def empty : File := ⟨⟨0, 0, 0, .empty⟩, .reset 0, none⟩

def getBlockCount (f : File) : ℕ := f.inode.blockCount + f.allocationState.getNewPending

def getSize (f : File) : ℕ := f.allocationState.getNodeSize

/-- `SetSize(uint32_t new_size)`. -/
def setSize (f : File) (newSize : ℕ) : File :=
  { f with allocationState := f.allocationState.setNodeSize (newSize % 2 ^ 32) }

def updateModificationTime (f : File) (now : ℕ) : File :=
  { f with inode := { f.inode with modifyTime := now } }

/-- `HasPendingAllocation(vmo_offset)`. -/
def hasPendingAllocation (f : File) (b : ℕ) : Bool := f.allocationState.isPending b

def cancelPendingWriteback (f : File) : File :=
  { f with allocationState := .reset f.inode.size }

section Fields

variable (f : File) (n : ℕ)

@[simp] theorem setSize_inode : (f.setSize n).inode = f.inode := rfl
@[simp] theorem setSize_allocationState :
    (f.setSize n).allocationState = f.allocationState.setNodeSize (n % 2 ^ 32) := rfl
@[simp] theorem setSize_cachedTransaction :
    (f.setSize n).cachedTransaction = f.cachedTransaction := rfl
@[simp] theorem updateModificationTime_tree :
    (f.updateModificationTime n).inode.tree = f.inode.tree := rfl
@[simp] theorem updateModificationTime_size :
    (f.updateModificationTime n).inode.size = f.inode.size := rfl
@[simp] theorem updateModificationTime_blockCount :
    (f.updateModificationTime n).inode.blockCount = f.inode.blockCount := rfl
@[simp] theorem updateModificationTime_allocationState :
    (f.updateModificationTime n).allocationState = f.allocationState := rfl
@[simp] theorem updateModificationTime_cachedTransaction :
    (f.updateModificationTime n).cachedTransaction = f.cachedTransaction := rfl
@[simp] theorem cancelPendingWriteback_inode : f.cancelPendingWriteback.inode = f.inode := rfl
@[simp] theorem cancelPendingWriteback_allocationState :
    f.cancelPendingWriteback.allocationState = .reset f.inode.size := rfl
@[simp] theorem cancelPendingWriteback_cachedTransaction :
    f.cancelPendingWriteback.cachedTransaction = f.cachedTransaction := rfl

end Fields

end File

/-- `AcquireWritableBlock`: the block is pending, its dirty bytes counted. -/
def acquireWritableBlock (fs : Vfs) (f : File) (localBno oldBno : ℕ) : Vfs × File :=
  let usingNewBlock := decide (oldBno = 0)
  (fs.addDirtyBytes kMinfsBlockSize !usingNewBlock,
    { f with allocationState := f.allocationState.setPending localBno !usingNewBlock })

/-- `DeleteBlock`: a mapped block is freed and uncounted; a data block loses its pending mark
and, if it had one, its dirty bytes. -/
def deleteBlock (fs : Vfs) (f : File) (localBno oldBno : ℕ) (indirect : Bool) : Vfs × File :=
  let (fs, f) :=
    if oldBno ≠ 0 then
      (fs.deallocateBlock oldBno,
        { f with inode := { f.inode with blockCount := f.inode.blockCount - 1 } })
    else (fs, f)
  if indirect then (fs, f)
  else
    let fs :=
      if f.allocationState.isPending localBno then
        fs.subtractDirtyBytes kMinfsBlockSize (oldBno ≠ 0)
      else fs
    (fs, { f with allocationState := f.allocationState.clearPending localBno (oldBno ≠ 0) })

@[simp] theorem acquireWritableBlock_fst (fs : Vfs) (f : File) (b old : ℕ) :
    (acquireWritableBlock fs f b old).1 = fs.addDirtyBytes kMinfsBlockSize !decide (old = 0) :=
  rfl

@[simp] theorem acquireWritableBlock_snd (fs : Vfs) (f : File) (b old : ℕ) :
    (acquireWritableBlock fs f b old).2 =
      { f with allocationState := f.allocationState.setPending b !decide (old = 0) } := rfl

section DeleteBlock

variable (fs : Vfs) (f : File) (b old : ℕ) (indirect : Bool)

@[simp] theorem deleteBlock_dirtyBytes :
    (deleteBlock fs f b old indirect).1.dirtyBytes =
      if !indirect ∧ b ∈ f.allocationState.pending then fs.dirtyBytes - kMinfsBlockSize
      else fs.dirtyBytes := by
  unfold deleteBlock
  by_cases ho : old = 0 <;> cases indirect <;>
    simp [ho, Vfs.deallocateBlock, Vfs.subtractDirtyBytes] <;> split <;> rfl

@[simp] theorem deleteBlock_allocator :
    (deleteBlock fs f b old indirect).1.allocator =
      if old ≠ 0 then fs.allocator.free old else fs.allocator := by
  unfold deleteBlock
  by_cases ho : old = 0 <;> cases indirect <;>
    simp [ho, Vfs.deallocateBlock, Vfs.subtractDirtyBytes] <;> split <;> rfl

@[simp] theorem deleteBlock_allocationState :
    (deleteBlock fs f b old indirect).2.allocationState =
      if indirect then f.allocationState
      else f.allocationState.clearPending b (decide (old ≠ 0)) := by
  unfold deleteBlock
  by_cases ho : old = 0 <;> cases indirect <;> simp [ho]

@[simp] theorem deleteBlock_blockCount :
    (deleteBlock fs f b old indirect).2.inode.blockCount =
      if old ≠ 0 then f.inode.blockCount - 1 else f.inode.blockCount := by
  unfold deleteBlock
  by_cases ho : old = 0 <;> cases indirect <;> simp [ho]

@[simp] theorem deleteBlock_tree :
    (deleteBlock fs f b old indirect).2.inode.tree = f.inode.tree := by
  unfold deleteBlock
  by_cases ho : old = 0 <;> cases indirect <;> simp [ho]

@[simp] theorem deleteBlock_cachedTransaction :
    (deleteBlock fs f b old indirect).2.cachedTransaction = f.cachedTransaction := by
  unfold deleteBlock
  by_cases ho : old = 0 <;> cases indirect <;> simp [ho]

theorem deleteBlock_allocator_eq_free :
    (deleteBlock fs f b old indirect).1.allocator = fs.allocator.free old := by
  rw [deleteBlock_allocator]
  split
  · rfl
  · rename_i h
    rw [not_not.1 h, Allocator.free_zero]

@[simp] theorem deleteBlock_size :
    (deleteBlock fs f b old indirect).2.inode.size = f.inode.size := by
  unfold deleteBlock
  by_cases ho : old = 0 <;> cases indirect <;> simp [ho]

end DeleteBlock

namespace Ctx

def withTree (c : Ctx) (t : BlockMap) (extra : ℕ) : Ctx :=
  { c with file := { c.file with inode :=
      { c.file.inode with tree := t, blockCount := c.file.inode.blockCount + extra } } }

end Ctx

section Commit

variable (F : Format)

/-- The iterator's `SetBlk` with its write-back: the missing indirect blocks on the way, taken
from the reservation and counted in `block_count`. Modelled from the spec: "set_blk(absolute_block)
(writes through the in-memory indirect cache, marks dirty)". -/
def allocateIndirects (c : Ctx) : List IndirectSlot → Except Panic Ctx
  | [] => .ok c
  | s :: ss =>
    if c.file.inode.tree.ind s = 0 then do
      let (n, fs, txn) ← c.fs.blockNew c.txn
      allocateIndirects ({ c with fs, txn }.withTree (c.file.inode.tree.setIndirect s n) 1) ss
    else allocateIndirects c ss

/-- `VnodeIterator::SetBlk`. -/
def setBlk (c : Ctx) (b v : ℕ) : Except Panic Ctx :=
  if v = 0 then .ok (c.withTree (c.file.inode.tree.setLeaf b 0) 0)
  else do
    let c ← allocateIndirects c (F.indirectPath b)
    return c.withTree (c.file.inode.tree.setLeaf b v) 0

/-- One round of `BlocksSwap`'s loop: file block `fileBlock` gets a new disk block, copy on
write, and stops being pending. -/
def swapBlock (c : Ctx) (fileBlock : ℕ) : Except Panic (ℕ × Ctx) := do
  let oldBlock := c.file.inode.tree.ptr fileBlock
  let c := if oldBlock = 0 then c.withTree c.file.inode.tree 1 else c
  let (newBlock, fs, txn) ← c.fs.blockSwap c.txn oldBlock
  let c ← setBlk F { c with fs, txn } fileBlock newBlock
  return (newBlock, ⟨c.fs.subtractDirtyBytes kMinfsBlockSize (oldBlock ≠ 0),
    { c.file with
      allocationState := c.file.allocationState.clearPending fileBlock (oldBlock ≠ 0) },
    c.txn⟩)

/-- `BlocksSwap` over `count` blocks from `start`: the new block of each, in order. -/
def blocksSwap (c : Ctx) (start : ℕ) : ℕ → Except Panic (List ℕ × Ctx)
  | 0 => .ok ([], c)
  | count + 1 => do
    let (newBlock, c) ← swapBlock F c start
    let (bnos, c) ← blocksSwap c (start + 1) count
    return (newBlock :: bnos, c)

/-- The data writes for the blocks from `start`, one block each, to their new disk blocks. -/
def dataOperations (datBlock : ℕ) : ℕ → List ℕ → List Operation
  | _, [] => []
  | start, bno :: bnos => ⟨start, bno + datBlock, 1⟩ :: dataOperations datBlock (start + 1) bnos

/-- `AllocateAndCommitData`'s bound on the blocks of one transaction. -/
def maxBlocks (fs : Vfs) : ℕ :=
  min (F.kMinfsDirect + kMinfsDirectPerIndirect * fs.maxMetaDataBlocks) (fs.writebackCapacity / 2)

/-- The inode size after writing up to `lastByte`. -/
def advanceSize (size nodeSize lastByte : ℕ) : ℕ :=
  if size < lastByte ∧ lastByte < nodeSize then lastByte
  else if nodeSize ≤ lastByte then nodeSize
  else size

/-- The loop's exit, once nothing is pending: the inode takes the in-memory size, and the
allocation state is reset. -/
def finishAllocation (c : Ctx) : Except Panic Ctx := do
  let a := c.file.allocationState
  let c := if c.file.inode.size ≠ a.getNodeSize then
    { c with file := { c.file with inode := { c.file.inode with size := a.getNodeSize } } }
    else c
  if a.getNodeSize ≠ c.file.inode.size then throw .nodeSize
  return { c with file := { c.file with allocationState := .reset a.getNodeSize } }

/-- The rest of a round, after `BlocksSwap`: the run's data writes are enqueued, the inode size
advances to the run's last byte, and the transaction pins the vnode. -/
def enqueueRange (c : Ctx) (bnoStart bnoCount : ℕ) (bnos : List ℕ) : Except Panic Ctx := do
  let c := { c with txn := { c.txn with
    data := c.txn.data ++ dataOperations c.fs.datBlock bnoStart bnos } }
  let lastByte := (bnoStart + bnoCount) * kMinfsBlockSize % 2 ^ 32
  let a := c.file.allocationState
  if roundUp a.getNodeSize kMinfsBlockSize < lastByte then throw .lastByte
  let c := { c with file := { c.file with inode := { c.file.inode with
    size := advanceSize c.file.inode.size a.getNodeSize lastByte } } }
  return { c with txn := { c.txn with pinned := true } }

/-- `AllocateAndCommitData`'s loop, one round per range. -/
def allocateAndCommitLoop (maxBlocks : ℕ) : ℕ → Ctx → Except Panic Ctx
  | 0, _ => .error .unfinished
  | fuel + 1, c => do
    let a := c.file.allocationState
    if maxBlocks < a.getTotalPending then throw .pendingOverMax
    if a.getTotalPending = 0 then finishAllocation c
    else
      let some (bnoStart, bnoCount) := a.getNextRange | throw .noNextRange
      if maxBlocks < bnoCount then throw .rangeOverMax
      let (bnos, c) ← blocksSwap F c bnoStart bnoCount
      let c ← enqueueRange c bnoStart bnoCount bnos
      allocateAndCommitLoop maxBlocks fuel c

/-- `AllocateAndCommitData`: every pending block gets its disk block, then the transaction
commits. -/
def allocateAndCommitData (c : Ctx) : Except Panic (Vfs × File) := do
  let c ← allocateAndCommitLoop F (maxBlocks F c.fs) (c.file.allocationState.getTotalPending + 1) c
  if c.file.allocationState.getTotalPending ≠ 0 then throw .pendingLeft
  return (c.fs.commitTransaction c.txn, c.file)

end Commit

end Minfs
