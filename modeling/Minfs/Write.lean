import Mathlib.Data.Nat.Lattice
import Minfs.File

/-!
# `Write`, `Append` and `Truncate`

`File::Write` checks the size, lets `CheckAndFlush` flush the cached writes, reserves blocks
through `GetTransaction` (a new transaction, or the cached one continued), marks the written
blocks pending, copies the bytes (`WriteInternal`) and hands the transaction to
`FlushTransaction`, which in dirty-cache mode keeps it as the file's cached transaction.
`Truncate` flushes the cached writes, reserves one block, frees what lies past the new end and
forces the flush.

Of what these call, only `file.cc` and `minfs_host.cc` are here: `FlushTransaction`,
`FlushCachedWrites`, `ShouldFlush`, `MarkRequiredBlocksPending`, `WriteInternal`,
`TruncateInternal`, `GetRequiredBlockCount` and `GetRequiredBlockCountForDirtyCache` are modelled
from the spec, each saying so. A write's `copied` is how many of its bytes the page buffer takes
before it can grow no further: all of them, only some (a short write), or none, and then
`WriteInternal` fails. `MarkRequiredBlocksPending` cannot fail, so the return after it is never
taken; `AddDirtyBytes` cannot fail either, and `AcquireWritableBlock` drops its status.

With the dirty cache on, `MarkRequiredBlocksPending` marks the whole range before `WriteInternal`
decides how much of it is written, and no return after it takes the marks back
(`write_failure_keeps_marks`).
-/

namespace Minfs

section Write

variable (F : Format)

/-- The file blocks `length` bytes at `offset` touch. -/
def blockRange (offset length : ℕ) : List ℕ :=
  if length = 0 then []
  else List.range' (offset / kMinfsBlockSize)
    ((offset + length - 1) / kMinfsBlockSize + 1 - offset / kMinfsBlockSize)

/-- `AcquireWritableBlock` on each block of the list not yet pending, with its current pointer. -/
def acquireBlocks (fs : Vfs) (f : File) : List ℕ → Vfs × File
  | [] => (fs, f)
  | b :: bs =>
    let (fs, f) :=
      if f.hasPendingAllocation b then (fs, f) else acquireWritableBlock fs f b (f.inode.tree.ptr b)
    acquireBlocks fs f bs

theorem acquireBlocks_cons (fs : Vfs) (f : File) (b : ℕ) (bs : List ℕ) :
    acquireBlocks fs f (b :: bs) =
      acquireBlocks (if f.hasPendingAllocation b then (fs, f)
        else acquireWritableBlock fs f b (f.inode.tree.ptr b)).1
        (if f.hasPendingAllocation b then (fs, f)
          else acquireWritableBlock fs f b (f.inode.tree.ptr b)).2 bs := rfl

/-- Marking blocks pending leaves the cached transaction alone. -/
theorem acquireBlocks_cachedTransaction {fs : Vfs} :
    ∀ {f : File} {L : List ℕ}, (acquireBlocks fs f L).2.cachedTransaction = f.cachedTransaction
  | _, [] => rfl
  | f, b :: bs => by
    rw [acquireBlocks_cons, acquireBlocks_cachedTransaction]
    split <;> rfl

/-- Marking blocks pending takes no block from the allocator. -/
theorem acquireBlocks_allocator {fs : Vfs} :
    ∀ {f : File} {L : List ℕ}, (acquireBlocks fs f L).1.allocator = fs.allocator
  | _, [] => rfl
  | f, b :: bs => by
    rw [acquireBlocks_cons, acquireBlocks_allocator]
    split <;> rfl

/-- Marking blocks pending leaves the inode alone. -/
theorem acquireBlocks_inode {fs : Vfs} :
    ∀ {f : File} {L : List ℕ}, (acquireBlocks fs f L).2.inode = f.inode
  | _, [] => rfl
  | f, b :: bs => by
    rw [acquireBlocks_cons, acquireBlocks_inode]
    split <;> rfl

/-- Marking blocks pending changes only the filesystem's dirty bytes. -/
theorem acquireBlocks_fst {fs : Vfs} :
    ∀ {f : File} {L : List ℕ},
      (acquireBlocks fs f L).1 = { fs with dirtyBytes := (acquireBlocks fs f L).1.dirtyBytes }
  | _, [] => rfl
  | f, b :: bs => by
    rw [acquireBlocks_cons, acquireBlocks_fst]
    split <;> rfl

/-- Marking blocks pending adds them to the pending set. -/
theorem acquireBlocks_pending {fs : Vfs} :
    ∀ {f : File} {L : List ℕ},
      (acquireBlocks fs f L).2.allocationState.pending = f.allocationState.pending ∪ L.toFinset
  | _, [] => by simp [acquireBlocks]
  | f, b :: bs => by
    rw [acquireBlocks_cons, acquireBlocks_pending, List.toFinset_cons, Finset.union_insert]
    split
    · rename_i h
      simp only [File.hasPendingAllocation, AllocationState.isPending_eq,
        decide_eq_true_eq] at h
      rw [Finset.insert_eq_of_mem (Finset.mem_union_left _ h)]
    · simp only [acquireWritableBlock_snd, AllocationState.setPending_pending,
        Finset.insert_union]

/-- Marking blocks pending leaves the size alone. -/
theorem getSize_acquireBlocks {fs : Vfs} :
    ∀ {f : File} {L : List ℕ}, (acquireBlocks fs f L).2.getSize = f.getSize
  | _, [] => rfl
  | f, b :: bs => by
    rw [acquireBlocks_cons, getSize_acquireBlocks]
    split <;> rfl

theorem acquireBlocks_singleton (fs : Vfs) (f : File) (b : ℕ) :
    acquireBlocks fs f [b] = if f.hasPendingAllocation b then (fs, f)
      else acquireWritableBlock fs f b (f.inode.tree.ptr b) := rfl

/-- `GetRequiredBlockCount(offset, length, block_size)`: the data blocks the range touches, and
the indirect and doubly indirect blocks above them. Modelled from the spec: "accounting for
newly touched direct, indirect, and double-indirect slots". -/
def getRequiredBlockCount (offset length : ℕ) : Except Status ℕ :=
  if length = 0 then .ok 0 else
  let firstDirect := offset / kMinfsBlockSize
  let lastDirect := (offset + length - 1) / kMinfsBlockSize
  let reserve := lastDirect - firstDirect + 1
  if lastDirect < F.kMinfsDirect then .ok reserve else
  let firstIndirect := (max firstDirect F.kMinfsDirect - F.kMinfsDirect) / kMinfsDirectPerIndirect
  let lastIndirect := (lastDirect - F.kMinfsDirect) / kMinfsDirectPerIndirect
  let reserve := reserve + (lastIndirect - firstIndirect) + 1
  if lastIndirect < F.kMinfsIndirect then .ok reserve else
  let firstDindirect :=
    (max firstIndirect F.kMinfsIndirect - F.kMinfsIndirect) / kMinfsDirectPerIndirect
  let lastDindirect := (lastIndirect - F.kMinfsIndirect) / kMinfsDirectPerIndirect
  let reserve := reserve + (lastDindirect - firstDindirect) + 1
  if lastDindirect < F.kMinfsDoublyIndirect then .ok reserve else .error .errOutOfRange

/-- `GetRequiredBlockCountForDirtyCache`. Modelled from the spec: "if dirty-cache is enabled, add
any slots already pending". -/
def getRequiredBlockCountForDirtyCache (f : File) (uncached : ℕ) : ℕ :=
  uncached + f.allocationState.getTotalPending

/-- `File::GetRequiredBlockCount`. -/
def File.getRequiredBlockCount (fs : Vfs) (f : File) (offset length : ℕ) : Except Status ℕ :=
  let uncached := Minfs.getRequiredBlockCount F offset length
  if !fs.dirtyCacheEnabled then uncached
  else
    match uncached with
    | .error e => .error e
    | .ok n => .ok (getRequiredBlockCountForDirtyCache f n)

/-- `ShouldFlush`. Modelled from the spec: a write flushes first "if the in-memory dirty set
would exceed a threshold, or if the filesystem is near-full". -/
def shouldFlush (fs : Vfs) (isTruncate : Bool) (length offset : ℕ) : Except Status Bool := do
  let required ← getRequiredBlockCount F offset length
  return isTruncate || decide (fs.maxDirtyBytes < fs.dirtyBytes + length) ||
    decide (fs.allocator.freeCount < required)

/-- `FlushTransaction`. Modelled from the spec: in dirty-cache mode an unforced flush "may be
deferred", the transaction kept as the file's cached one; otherwise `AllocateAndCommitData`. -/
def flushTransaction (fs : Vfs) (f : File) (txn : Transaction) (forceFlush : Bool) :
    Except Panic (Vfs × File) :=
  if fs.dirtyCacheEnabled && !forceFlush then .ok (fs, { f with cachedTransaction := some txn })
  else allocateAndCommitData F ⟨fs, f, txn⟩

/-- `FlushCachedWrites`. Modelled from the spec: "flush any cached writes", the cached
transaction, if any, by force. -/
def flushCachedWrites (fs : Vfs) (f : File) : Except Panic (Vfs × File) :=
  match f.cachedTransaction with
  | none => .ok (fs, f)
  | some txn => flushTransaction F fs { f with cachedTransaction := none } txn true

/-- `CheckAndFlush`. -/
def checkAndFlush (fs : Vfs) (f : File) (isTruncate : Bool) (length offset : ℕ) :
    Except Panic (Status × Vfs × File) :=
  match shouldFlush F fs isTruncate length offset with
  | .error e => .ok (e, fs, f)
  | .ok false => .ok (.ok, fs, f)
  | .ok true => do
    let (fs, f) ← flushCachedWrites F fs f
    return (.ok, fs, f)

/-- `GetTransaction`: the cached transaction moves out of the file; a new one is begun, or the
cached one continued, and if its reservation cannot grow it is flushed by force. -/
def getTransaction (fs : Vfs) (f : File) (reserveBlocks : ℕ) :
    Except Panic (Except Status Transaction × Vfs × File) := do
  let cached := f.cachedTransaction
  let f := { f with cachedTransaction := none }
  if !fs.dirtyCacheEnabled && cached.isSome then throw .cachedTransaction
  match cached with
  | some t =>
    let (status, fs, txn) := fs.continueTransaction reserveBlocks t
    if status ≠ .ok then
      let (fs, f) ← flushTransaction F fs f txn true
      return (.error status, fs, f)
    return (.ok txn, fs, f)
  | none =>
    match fs.beginTransaction reserveBlocks with
    | .error status => return (.error status, fs, f)
    | .ok (fs, txn) => return (.ok txn, fs, f)

/-- `MarkRequiredBlocksPending`. Modelled from the spec: "mark each affected file-block in the
allocation state, updating per-filesystem dirty-byte accounting". The spec names no way for it to
fail, and none is modelled. -/
def markRequiredBlocksPending (fs : Vfs) (f : File) (offset length : ℕ) : Vfs × File :=
  acquireBlocks fs f (blockRange offset length)

/-- `WriteInternal`. Modelled from the spec: "copy bytes into the VNode's in-memory page buffer,
growing the buffer if needed; record each touched file-block as pending; update the in-memory
node_size to max(old_size, off+actual)". The buffer takes `copied` of the `length` bytes; if it
takes none, nothing is written and the call fails. -/
def writeInternal (fs : Vfs) (f : File) (length offset copied : ℕ) :
    Except Status (ℕ × Vfs × File) :=
  if length = 0 then .ok (0, fs, f)
  else
    let actual := min copied length
    if actual = 0 then .error .errNoMemory
    else
      let (fs, f) := acquireBlocks fs f (blockRange offset actual)
      .ok (actual, fs, f.setSize (max f.getSize (offset + actual)))

/-- What `WriteInternal` returns: the bytes the buffer took, and either nothing written, or their
blocks marked pending and the size moved to the end of what was written. -/
theorem writeInternal_eq_ok {fs fs' : Vfs} {f f' : File} {length offset copied actual : ℕ}
    (h : writeInternal fs f length offset copied = .ok (actual, fs', f')) :
    actual = min copied length ∧ (actual = 0 ∧ fs' = fs ∧ f' = f ∨
      0 < actual ∧ fs' = (acquireBlocks fs f (blockRange offset actual)).1 ∧
        f' = (acquireBlocks fs f (blockRange offset actual)).2.setSize
          (max f.getSize (offset + actual))) := by
  unfold writeInternal at h
  split at h
  · cases h
    exact ⟨by simp [*], .inl ⟨rfl, rfl, rfl⟩⟩
  dsimp only at h
  split at h
  · cases h
  cases h
  rw [getSize_acquireBlocks]
  exact ⟨rfl, .inr ⟨Nat.pos_of_ne_zero ‹_›, rfl, rfl⟩⟩

/-- `WriteInternal` fails only when bytes were asked for and the buffer took none. -/
theorem writeInternal_eq_error {fs : Vfs} {f : File} {length offset copied : ℕ} {st : Status}
    (h : writeInternal fs f length offset copied = .error st) : length ≠ 0 ∧ copied = 0 := by
  unfold writeInternal at h
  split at h
  · cases h
  dsimp only at h
  split at h
  · exact ⟨‹_›, by omega⟩
  · cases h

/-- `File::Write`: the status and the bytes written. -/
def write (fs : Vfs) (f : File) (length offset copied : ℕ) :
    Except Panic (Status × ℕ × Vfs × File) := do
  if 2 ^ 64 ≤ offset + length ∨ F.kMinfsMaxFileSize < offset + length then
    return (.errFileBig, 0, fs, f)
  let (status, fs, f) ← checkAndFlush F fs f false length offset
  if status ≠ .ok then return (status, 0, fs, f)
  match File.getRequiredBlockCount F fs f offset length with
  | .error status => return (status, 0, fs, f)
  | .ok reserveBlocks =>
    let (transaction, fs, f) ← getTransaction F fs f reserveBlocks
    match transaction with
    | .error status => return (status, 0, fs, f)
    | .ok txn =>
      let (fs, f) :=
        if fs.dirtyCacheEnabled then markRequiredBlocksPending fs f offset length else (fs, f)
      match writeInternal fs f length offset copied with
      | .error status => return (status, 0, fs.dropTransaction txn, f)
      | .ok (actual, fs, f) =>
        if actual = 0 then return (.ok, 0, fs.dropTransaction txn, f)
        let (fs, f) ← flushTransaction F fs (f.updateModificationTime fs.now) txn false
        return (.ok, actual, fs, f)

/-- A one-block write whose page buffer takes none of its bytes fails with `ZX_ERR_NO_MEMORY`,
and leaves block `0` pending, counted in `GetBlockCount` and in the dirty bytes. -/
theorem write_failure_keeps_marks :
    ∃ n fs f, write .minfs .sample .empty kMinfsBlockSize 0 0 = .ok (.errNoMemory, n, fs, f) ∧
      File.empty.allocationState.pending = ∅ ∧ f.allocationState.pending = {0} ∧
      File.empty.getBlockCount = 0 ∧ f.getBlockCount = 1 ∧
      Vfs.sample.dirtyBytes = 0 ∧ fs.dirtyBytes = kMinfsBlockSize :=
  ⟨_, _, _, rfl, rfl, by decide, rfl, by decide, rfl, by decide⟩

/-- `File::Append`: the status, the end offset and the bytes written. -/
def append (fs : Vfs) (f : File) (length copied : ℕ) :
    Except Panic (Status × ℕ × ℕ × Vfs × File) := do
  let (status, actual, fs, f) ← write F fs f length f.getSize copied
  return (status, f.getSize, actual, fs, f)

end Write

section Truncate

variable (F : Format)

/-- Each listed block is deleted (`DeleteBlock`) and its pointer cleared; for a block neither
mapped nor pending this changes nothing. -/
def deleteBlocks (fs : Vfs) (f : File) : List ℕ → Vfs × File
  | [] => (fs, f)
  | b :: bs =>
    let (fs, f) := deleteBlock fs f b (f.inode.tree.ptr b) false
    deleteBlocks fs { f with inode := { f.inode with tree := f.inode.tree.setLeaf b 0 } } bs

/-- Each listed indirect block with nothing left below is deleted and its pointer cleared. -/
def freeEmptyIndirects (fs : Vfs) (f : File) : List IndirectSlot → Vfs × File
  | [] => (fs, f)
  | s :: ss =>
    if f.inode.tree.ind s ≠ 0 ∧ f.inode.tree.EmptyBelow F s then
      let (fs, f) := deleteBlock fs f 0 (f.inode.tree.ind s) true
      freeEmptyIndirects fs
        { f with inode := { f.inode with tree := f.inode.tree.setIndirect s 0 } } ss
    else freeEmptyIndirects fs f ss

theorem deleteBlocks_cons (fs : Vfs) (f : File) (b : ℕ) (bs : List ℕ) :
    deleteBlocks fs f (b :: bs) = deleteBlocks (deleteBlock fs f b (f.inode.tree.ptr b) false).1
      { (deleteBlock fs f b (f.inode.tree.ptr b) false).2 with inode :=
        { (deleteBlock fs f b (f.inode.tree.ptr b) false).2.inode with
          tree := (deleteBlock fs f b (f.inode.tree.ptr b) false).2.inode.tree.setLeaf b 0 } } bs :=
  rfl

theorem freeEmptyIndirects_cons (fs : Vfs) (f : File) (s : IndirectSlot) (ss : List IndirectSlot) :
    freeEmptyIndirects F fs f (s :: ss) =
      if f.inode.tree.ind s ≠ 0 ∧ f.inode.tree.EmptyBelow F s then
        freeEmptyIndirects F (deleteBlock fs f 0 (f.inode.tree.ind s) true).1
          { (deleteBlock fs f 0 (f.inode.tree.ind s) true).2 with inode :=
            { (deleteBlock fs f 0 (f.inode.tree.ind s) true).2.inode with
              tree :=
                (deleteBlock fs f 0 (f.inode.tree.ind s) true).2.inode.tree.setIndirect s 0 } }
          ss
      else freeEmptyIndirects F fs f ss := rfl

theorem deleteBlocks_singleton (fs : Vfs) (f : File) (b : ℕ) :
    deleteBlocks fs f [b] = ((deleteBlock fs f b (f.inode.tree.ptr b) false).1,
      { (deleteBlock fs f b (f.inode.tree.ptr b) false).2 with inode :=
        { (deleteBlock fs f b (f.inode.tree.ptr b) false).2.inode with
          tree := (deleteBlock fs f b (f.inode.tree.ptr b) false).2.inode.tree.setLeaf b 0 } }) :=
  rfl

theorem freeEmptyIndirects_singleton (fs : Vfs) (f : File) (s : IndirectSlot) :
    freeEmptyIndirects F fs f [s] =
      if f.inode.tree.ind s ≠ 0 ∧ f.inode.tree.EmptyBelow F s then
        ((deleteBlock fs f 0 (f.inode.tree.ind s) true).1,
          { (deleteBlock fs f 0 (f.inode.tree.ind s) true).2 with inode :=
            { (deleteBlock fs f 0 (f.inode.tree.ind s) true).2.inode with
              tree :=
                (deleteBlock fs f 0 (f.inode.tree.ind s) true).2.inode.tree.setIndirect s 0 } })
      else (fs, f) := rfl

/-- `TruncateInternal`. Modelled from the spec: "walk the pointer tree from len/BlockSize upward,
freeing any allocated blocks past the new end; free now-empty indirect/double-indirect blocks;
update size". The block the new end falls in keeps its head; when it is mapped its tail is zeroed
in the page buffer, which makes it pending, the one copy-on-write block `Truncate` reserves for. -/
def truncateInternal (fs : Vfs) (f : File) (len : ℕ) : Vfs × File :=
  if len < f.getSize then
    let startBno := (len + kMinfsBlockSize - 1) / kMinfsBlockSize
    let lastBno := (f.inode.tree.leaves ∪ f.allocationState.pending).sup id
    let doomed := List.range' startBno (lastBno + 1 - startBno)
    let (fs, f) := deleteBlocks fs f doomed
    let (fs, f) := freeEmptyIndirects F fs f (doomed.flatMap fun b => (F.indirectPath b).reverse)
    let tail := len / kMinfsBlockSize
    let (fs, f) :=
      if len % kMinfsBlockSize ≠ 0 ∧ f.inode.tree.ptr tail ≠ 0 then
        acquireBlocks fs f [tail]
      else (fs, f)
    (fs, f.setSize len)
  else if f.getSize < len then (fs, f.setSize len)
  else (fs, f)

/-- `File::Truncate`. -/
def truncate (fs : Vfs) (f : File) (len : ℕ) : Except Panic (Status × Vfs × File) := do
  if F.kMinfsMaxFileSize < len then return (.errInvalidArgs, fs, f)
  let (fs, f) ← flushCachedWrites F fs f
  match fs.beginTransaction 1 with
  | .error status => return (status, fs, f)
  | .ok (fs, txn) =>
    let (fs, f) := truncateInternal F fs f len
    let (fs, f) ← flushTransaction F fs (f.updateModificationTime fs.now) txn true
    return (.ok, fs, f)

end Truncate

end Minfs
