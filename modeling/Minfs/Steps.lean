import Minfs.Reachable

/-!
# The steps a file operation is made of

`Write`, `Append`, `Truncate`, `FlushCachedWrites` and `CancelPendingWriteback` move the
filesystem and the file through a handful of primitive steps, the calls that `file.cc` makes:
the cached transaction moves out of the file into hand (`GetTransaction`, `FlushCachedWrites`); a
transaction is begun, or the one in hand continued (`BeginTransaction`, `ContinueTransaction`); it
is dropped, committed (`AllocateAndCommitData`) or cached in the file (`FlushTransaction` in
dirty-cache mode); a block within the largest file size is marked pending
(`AcquireWritableBlock`, on the blocks of a range the size checks accepted); a data block or an
indirect block is deleted (`DeleteBlock`); the size or the modification time is set; and every
pending mark is dropped (`CancelPendingWriteback`).

`Minfs.Proofs.Steps` shows that every operation is a run of these steps (`run_steps`), so that an
invariant each step keeps holds in every reachable state.
-/

namespace Minfs

/-- Between two calls of an operation: the filesystem, the file, and the transaction in hand. -/
structure OpState where
  fs : Vfs
  file : File
  txn : Option Transaction

variable (F : Format)

/-- File block `b` ends within the largest file size, rounded up to a block. -/
def InBounds (b : ℕ) : Prop :=
  (b + 1) * kMinfsBlockSize ≤ roundUp F.kMinfsMaxFileSize kMinfsBlockSize

/-- The primitive steps of the file operations. -/
inductive Step : OpState → OpState → Prop
  | take {fs : Vfs} {f : File} :
    Step ⟨fs, f, none⟩ ⟨fs, { f with cachedTransaction := none }, f.cachedTransaction⟩
  | start {fs fs' : Vfs} {f : File} {t : Transaction} {n : ℕ} :
    fs.beginTransaction n = .ok (fs', t) → Step ⟨fs, f, none⟩ ⟨fs', f, some t⟩
  | extend {fs : Vfs} {f : File} {t : Transaction} (n : ℕ) :
    Step ⟨fs, f, some t⟩
      ⟨(fs.continueTransaction n t).2.1, f, some (fs.continueTransaction n t).2.2⟩
  | drop {fs : Vfs} {f : File} {t : Transaction} :
    Step ⟨fs, f, some t⟩ ⟨fs.dropTransaction t, f, none⟩
  | commit {fs fs' : Vfs} {f f' : File} {t : Transaction} :
    allocateAndCommitData F ⟨fs, f, t⟩ = .ok (fs', f') → Step ⟨fs, f, some t⟩ ⟨fs', f', none⟩
  | cache {fs : Vfs} {f : File} {t : Transaction} :
    fs.dirtyCacheEnabled = true → f.cachedTransaction = none →
      Step ⟨fs, f, some t⟩ ⟨fs, { f with cachedTransaction := some t }, none⟩
  | acquire {fs : Vfs} {f : File} {o : Option Transaction} (b : ℕ) : InBounds F b →
    Step ⟨fs, f, o⟩ ⟨(acquireBlocks fs f [b]).1, (acquireBlocks fs f [b]).2, o⟩
  | deleteData {fs : Vfs} {f : File} {o : Option Transaction} (b : ℕ) :
    Step ⟨fs, f, o⟩ ⟨(deleteBlocks fs f [b]).1, (deleteBlocks fs f [b]).2, o⟩
  | deleteIndirect {fs : Vfs} {f : File} {o : Option Transaction} (s : IndirectSlot) :
    Step ⟨fs, f, o⟩
      ⟨(freeEmptyIndirects F fs f [s]).1, (freeEmptyIndirects F fs f [s]).2, o⟩
  | setSize {fs : Vfs} {f : File} {o : Option Transaction} (n : ℕ) :
    Step ⟨fs, f, o⟩ ⟨fs, f.setSize n, o⟩
  | touch {fs : Vfs} {f : File} {o : Option Transaction} :
    Step ⟨fs, f, o⟩ ⟨fs, f.updateModificationTime fs.now, o⟩
  | cancel {fs : Vfs} {f : File} :
    Step ⟨fs, f, none⟩ ⟨fs, f.cancelPendingWriteback, none⟩

end Minfs
