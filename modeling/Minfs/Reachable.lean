import Minfs.Write

/-!
# Runs of a file

A file is created empty on a filesystem with nothing reserved and nothing dirty, and then
anything may happen to it: writes and appends, whose page buffer may take all, some or none of
their bytes, truncates, syncs (`FlushCachedWrites`), and the outer layer's
`CancelPendingWriteback`. A state is `Reachable` when some run gets there without an assertion
firing.

`FileOp.exec` is an operation as its caller sees it return, with its status and the bytes it
wrote; `execOps` runs a list of them and keeps what each returned, and `runOps` keeps only the
states.

One level down, `BlockOp` is a step on a file's blocks with a transaction in hand, the steps the
operations are made of, for invariants that hold between any two of them.
-/

namespace Minfs

/-- What a client, or the layer above, can do to an open file. A write or an append carries how
many of its bytes the page buffer takes (`copied`). -/
inductive FileOp
  | write (length offset copied : ℕ)
  | append (length copied : ℕ)
  | truncate (len : ℕ)
  | sync
  | cancelPendingWriteback
  deriving DecidableEq, Repr

variable (F : Format)

/-- The operation as its caller sees it return: the status and the bytes written (none for a
truncate, a sync or a cancel), with the filesystem and the file after it. -/
def FileOp.exec : FileOp → Vfs × File → Except Panic (Status × ℕ × Vfs × File)
  | .write length offset copied, (fs, f) => Minfs.write F fs f length offset copied
  | .append length copied, (fs, f) =>
    (Minfs.append F fs f length copied).map fun r => (r.1, r.2.2.1, r.2.2.2)
  | .truncate len, (fs, f) => (Minfs.truncate F fs f len).map fun r => (r.1, 0, r.2)
  | .sync, (fs, f) => (flushCachedWrites F fs f).map fun r => (.ok, 0, r)
  | .cancelPendingWriteback, (fs, f) => .ok (.ok, 0, fs, f.cancelPendingWriteback)

/-- The filesystem and the file after the operation. -/
def FileOp.run (op : FileOp) (s : Vfs × File) : Except Panic (Vfs × File) :=
  (op.exec F s).map (·.2.2)

namespace FileOp

variable (fs : Vfs) (f : File)

theorem run_write (length offset copied : ℕ) : (write length offset copied).run F (fs, f) =
    (Minfs.write F fs f length offset copied).map (·.2.2) := rfl

theorem run_append (length copied : ℕ) :
    (append length copied).run F (fs, f) = (Minfs.append F fs f length copied).map (·.2.2.2) := by
  simp only [run, exec]
  cases Minfs.append F fs f length copied <;> rfl

theorem run_truncate (len : ℕ) :
    (truncate len).run F (fs, f) = (Minfs.truncate F fs f len).map (·.2) := by
  simp only [run, exec]
  cases Minfs.truncate F fs f len <;> rfl

theorem run_sync : sync.run F (fs, f) = flushCachedWrites F fs f := by
  simp only [run, exec]
  cases flushCachedWrites F fs f <;> rfl

theorem run_cancelPendingWriteback :
    cancelPendingWriteback.run F (fs, f) = .ok (fs, f.cancelPendingWriteback) := rfl

end FileOp

/-- A filesystem with nothing reserved and nothing dirty. -/
def Vfs.Idle (fs : Vfs) : Prop := fs.allocator.reserved = 0 ∧ fs.dirtyBytes = 0

inductive Reachable : Vfs × File → Prop
  | init (fs : Vfs) : fs.Idle → Reachable (fs, File.empty)
  | step {s s' : Vfs × File} (op : FileOp) : Reachable s → op.run F s = .ok s' → Reachable s'

/-- The operations of the list, one after the other. -/
def runOps : List FileOp → Vfs × File → Except Panic (Vfs × File)
  | [], s => .ok s
  | op :: ops, s => (op.run F s).bind (runOps ops)

/-- The operations of the list, one after the other, with the status and the bytes written each
returned. -/
def execOps : List FileOp → Vfs × File → Except Panic (List (Status × ℕ) × Vfs × File)
  | [], s => .ok ([], s)
  | op :: ops, s => (op.exec F s).bind fun r =>
    (execOps ops r.2.2).map fun q => ((r.1, r.2.1) :: q.1, q.2)

theorem FileOp.run_of_exec {op : FileOp} {s : Vfs × File} {r : Status × ℕ × Vfs × File}
    (h : op.exec F s = .ok r) : op.run F s = .ok r.2.2 := by
  rw [FileOp.run, h]
  rfl

theorem execOps_cons {op : FileOp} {ops : List FileOp} {s : Vfs × File}
    {r : Status × ℕ × Vfs × File} (h : op.exec F s = .ok r) :
    execOps F (op :: ops) s = (execOps F ops r.2.2).map fun q => ((r.1, r.2.1) :: q.1, q.2) := by
  rw [execOps, h]
  rfl

/-- Each operation returns once. -/
theorem execOps_length : ∀ (ops : List FileOp) {s : Vfs × File}
    {r : List (Status × ℕ) × Vfs × File}, execOps F ops s = .ok r → r.1.length = ops.length
  | [], _, _, h => by cases h; rfl
  | op :: ops, _, _, h => by
    obtain ⟨r₁, -, h₂⟩ := bind_eq_ok.1 h
    obtain ⟨q, hq, rfl⟩ := map_eq_ok.1 h₂
    exact congrArg (· + 1) (execOps_length ops hq)

theorem reachable_runOps : ∀ (ops : List FileOp) {s s' : Vfs × File},
    Reachable F s → runOps F ops s = .ok s' → Reachable F s'
  | [], s, s', hs, h => by cases h; exact hs
  | op :: ops, s, s', hs, h => by
    obtain ⟨s₁, h₁, h₂⟩ := bind_eq_ok.1 h
    exact reachable_runOps ops (.step op hs h₁) h₂

theorem Vfs.sample_idle : Vfs.sample.Idle := ⟨rfl, rfl⟩

/-- A zero-length write after a cached two-block write returns `ZX_OK`, and the cached
transaction is gone with its reservation: nothing was committed, nothing is reserved, and both
blocks are still pending. -/
theorem write_empty_drops_cached_transaction :
    ∃ fs f, runOps .minfs [.write (2 * kMinfsBlockSize) 0 (2 * kMinfsBlockSize)] (.sample, .empty) =
        .ok (fs, f) ∧
      Reachable .minfs (fs, f) ∧ f.cachedTransaction.map (·.reserved) = some 2 ∧
      f.allocationState.pending = {0, 1} ∧
      ∃ fs' f', write .minfs fs f 0 0 0 = .ok (.ok, 0, fs', f') ∧
        f'.cachedTransaction.isNone ∧ f'.allocationState.pending = {0, 1} ∧
        fs'.committed = [] ∧ fs'.allocator.reserved = 0 :=
  ⟨_, _, rfl, reachable_runOps _ [.write (2 * kMinfsBlockSize) 0 (2 * kMinfsBlockSize)]
    (.init _ Vfs.sample_idle) rfl,
    by decide, by decide, _, _, rfl, by decide, by decide, by decide, by decide⟩

/-- The operations on a file's blocks, with a transaction in hand: `AcquireWritableBlock` on a
block not yet pending, with its current pointer, as `MarkRequiredBlocksPending` calls it;
`BlocksSwap` on a run of pending blocks (its debug assertion); `DeleteBlock` with the pointer
cleared after it, on a data block or on an indirect block with nothing left below;
`CancelPendingWriteback`; and `AllocateAndCommitData`, after which a new transaction is in hand. -/
inductive BlockOp : Ctx → Ctx → Prop
  | acquire (c : Ctx) (b : ℕ) :
    BlockOp c ⟨(acquireBlocks c.fs c.file [b]).1, (acquireBlocks c.fs c.file [b]).2, c.txn⟩
  | swap {c c' : Ctx} {start count : ℕ} {bnos : List ℕ} :
    (∀ i < count, start + i ∈ c.file.allocationState.pending) →
    blocksSwap F c start count = .ok (bnos, c') → BlockOp c c'
  | deleteData (c : Ctx) (b : ℕ) :
    BlockOp c ⟨(deleteBlocks c.fs c.file [b]).1, (deleteBlocks c.fs c.file [b]).2, c.txn⟩
  | deleteIndirect (c : Ctx) (s : IndirectSlot) :
    BlockOp c ⟨(freeEmptyIndirects F c.fs c.file [s]).1,
      (freeEmptyIndirects F c.fs c.file [s]).2, c.txn⟩
  | cancel (c : Ctx) : BlockOp c { c with file := c.file.cancelPendingWriteback }
  | commit {c : Ctx} {fs : Vfs} {f : File} (txn : Transaction) :
    allocateAndCommitData F c = .ok (fs, f) → BlockOp c ⟨fs, f, txn⟩

end Minfs
