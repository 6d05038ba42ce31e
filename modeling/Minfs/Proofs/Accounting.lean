import Minfs.Proofs.Steps
import Minfs.Proofs.BlockCount
import Minfs.Proofs.DirtyBytes

/-!
# Three counts kept over every run

Every step keeps each of these, so each holds after any run of operations on a new file:

* the allocator's reservations are those it held at the start and those of the transactions the
  file holds, in hand or cached (`Reserved`): a dropped or committed transaction gives back what
  it did not take, and a swap takes each block from the allocator and the transaction at once.
  Between operations only the cached transaction's are left (`runOps_reserved`). What the count
  does not say is that they cover what is pending: a write of no bytes drops the cached
  transaction and its reservation while its blocks stay pending, and the one block `Truncate`
  reserves then falls short of the drain it forces (`truncate_after_dropped_transaction`);
* `block_count` counts the tree's non-zero pointers, and the blocks marked pending over a hole are
  the pending holes (`BlockCountInv`, `runOps_blockCountInv`);
* the dirty bytes cover a block's worth per pending block. `CancelPendingWriteback` drops marks
  and not their bytes, so the counter may run ahead of the pending blocks, never behind
  (`runOps_dirtyBytes`).
-/

namespace Minfs

/-- The blocks a transaction still holds in reservation; none without a transaction. -/
def heldBlocks (t : Option Transaction) : ℕ := (t.map (·.reserved)).getD 0

@[simp] theorem heldBlocks_none : heldBlocks none = 0 := rfl
@[simp] theorem heldBlocks_some (t : Transaction) : heldBlocks (some t) = t.reserved := rfl

/-- The allocator's reservations: `r₀` for the rest of the disk, and those of the transaction in
hand and of the cached one. -/
def Reserved (r₀ : ℕ) (a : OpState) : Prop :=
  a.fs.allocator.reserved = r₀ + heldBlocks a.txn + heldBlocks a.file.cachedTransaction

/-- The dirty bytes: at least `d₀` for the rest of the disk, and a block's worth for each block
the file has pending. -/
def DirtyCovered (d₀ : ℕ) (a : OpState) : Prop :=
  ∃ other, d₀ ≤ other ∧ DirtyAccounted other ⟨a.fs, a.file, ⟨0, [], false⟩⟩

section Steps

variable (F : Format)

/-- A round of `BlocksSwap` takes each block from the allocator's reservation and from the
transaction's, and the loop leaves the cached transaction alone. -/
theorem reserved_loop {K m fuel : ℕ} {C : Option Transaction} {c c' : Ctx}
    (h : allocateAndCommitLoop F m fuel c = .ok c')
    (hc : c.fs.allocator.reserved = K + c.txn.reserved ∧ c.file.cachedTransaction = C) :
    c'.fs.allocator.reserved = K + c'.txn.reserved ∧ c'.file.cachedTransaction = C :=
  allocateAndCommitLoop_preserves F
    (fun c => c.fs.allocator.reserved = K + c.txn.reserved ∧ c.file.cachedTransaction = C)
    (fun hc _ h => by
      obtain ⟨a, t, r, rfl, -, -, -, -, hr, ha⟩ := swapBlock_spec F h
      exact ⟨by dsimp only; omega, hc.2⟩)
    (fun hc h => by obtain ⟨-, rfl⟩ := enqueueRange_spec h; exact hc)
    (fun hc _ h => by rw [finishAllocation_eq] at h; cases h; exact hc) hc h

theorem reserved_commit {r₀ : ℕ} {fs fs' : Vfs} {f f' : File} {t : Transaction}
    (h : allocateAndCommitData F ⟨fs, f, t⟩ = .ok (fs', f'))
    (ha : Reserved r₀ ⟨fs, f, some t⟩) :
    Reserved r₀ ⟨fs', f', none⟩ := by
  obtain ⟨c', h₁, rfl, rfl, -⟩ := allocateAndCommitData_spec F h
  obtain ⟨hr, hC⟩ := reserved_loop F (K := r₀ + heldBlocks f.cachedTransaction) h₁
    ⟨by unfold Reserved at ha; simp only [heldBlocks_some] at ha; dsimp only; omega, rfl⟩
  unfold Reserved
  simp only [Vfs.commitTransaction, Allocator.unreserve_reserved, hr, hC, heldBlocks_none]
  omega

theorem reserved_step {r₀ : ℕ} {a b : OpState} (h : Step F a b) (ha : Reserved r₀ a) :
    Reserved r₀ b := by
  cases h with
  | take | setSize _ | touch | cancel =>
    unfold Reserved at ha ⊢
    simp only [File.setSize_cachedTransaction, File.updateModificationTime_cachedTransaction,
      File.cancelPendingWriteback_cachedTransaction, heldBlocks_none] at ha ⊢
    omega
  | start h =>
    obtain ⟨a', rfl, rfl, -, hr⟩ := Vfs.beginTransaction_spec h
    unfold Reserved at ha ⊢
    simp only [heldBlocks_none, heldBlocks_some] at ha ⊢
    omega
  | @extend fs f t n =>
    obtain ⟨a', k, h₁, h₂, -, hr⟩ := Vfs.extendBlockReservation_spec fs t n
    unfold Reserved at ha ⊢
    unfold Vfs.continueTransaction
    rw [h₁, h₂]
    simp only [heldBlocks_some] at ha ⊢
    omega
  | drop =>
    unfold Reserved at ha ⊢
    simp only [Vfs.dropTransaction, Allocator.unreserve_reserved, heldBlocks_none,
      heldBlocks_some] at ha ⊢
    omega
  | commit h => exact reserved_commit F h ha
  | cache _ hc =>
    unfold Reserved at ha ⊢
    simp only [hc, heldBlocks_none, heldBlocks_some] at ha ⊢
    omega
  | acquire b _ =>
    unfold Reserved
    rw [acquireBlocks_allocator, acquireBlocks_cachedTransaction]
    exact ha
  | deleteData b =>
    unfold Reserved
    rw [deleteBlocks_singleton]
    simp only [deleteBlock_allocator_eq_free, Allocator.free_reserved,
      deleteBlock_cachedTransaction]
    exact ha
  | deleteIndirect s =>
    unfold Reserved
    rw [freeEmptyIndirects_singleton]
    split
    · simp only [deleteBlock_allocator_eq_free, Allocator.free_reserved,
        deleteBlock_cachedTransaction]
      exact ha
    · exact ha

theorem blockCountInv_step {a b : OpState} (h : Step F a b) (ha : BlockCountInv a.file) :
    BlockCountInv b.file := by
  cases h with
  | take | start _ | extend _ | drop | cache _ _ => exact ⟨ha.exact, ha.holes⟩
  | touch => exact ⟨by simpa using ha.exact, by simpa using ha.holes⟩
  | setSize n => exact ⟨by simpa using ha.exact, by simpa using ha.holes⟩
  | commit h => exact blockCountInv_commit ha h
  | acquire b _ => exact blockCountInv_acquire (c := ⟨_, _, ⟨0, [], false⟩⟩) b ha
  | deleteData b => exact blockCountInv_deleteData (c := ⟨_, _, ⟨0, [], false⟩⟩) b ha
  | deleteIndirect s =>
    exact blockCountInv_deleteIndirect (c := ⟨_, _, ⟨0, [], false⟩⟩) s ha
  | cancel => exact blockCountInv_cancel ha

theorem dirtyCovered_step {d₀ : ℕ} {a b : OpState} (h : Step F a b) (ha : DirtyCovered d₀ a) :
    DirtyCovered d₀ b := by
  obtain ⟨o, ho, hd⟩ := ha
  cases h with
  | take | cache _ _ | drop => exact ⟨o, ho, hd⟩
  | start h =>
    obtain ⟨a', rfl, -⟩ := Vfs.beginTransaction_spec h
    exact ⟨o, ho, hd⟩
  | @extend fs f t n =>
    obtain ⟨a', k, h₁, -⟩ := Vfs.extendBlockReservation_spec fs t n
    refine ⟨o, ho, ?_⟩
    unfold DirtyAccounted at hd ⊢
    unfold Vfs.continueTransaction
    rw [h₁]
    exact hd
  | @commit fs _ f _ t h => exact ⟨o, ho, dirtyAccounted_commit (c := ⟨fs, f, t⟩) _ hd h⟩
  | @acquire fs f _ b _ => exact ⟨o, ho, dirtyAccounted_acquire (c := ⟨fs, f, _⟩) b hd⟩
  | @deleteData fs f _ b => exact ⟨o, ho, dirtyAccounted_deleteData (c := ⟨fs, f, _⟩) b hd⟩
  | @deleteIndirect fs f _ s =>
    exact ⟨o, ho, dirtyAccounted_deleteIndirect (c := ⟨fs, f, _⟩) s hd⟩
  | setSize n | touch =>
    refine ⟨o, ho, ?_⟩
    unfold DirtyAccounted at hd ⊢
    simpa [AllocationState.getTotalPending] using hd
  | @cancel fs f =>
    refine ⟨o + kMinfsBlockSize * f.allocationState.getTotalPending, by omega, ?_⟩
    unfold DirtyAccounted at hd ⊢
    simpa [AllocationState.getTotalPending] using hd

end Steps

/-- Between operations on a new file, the allocator holds in reservation what it held at the
start and what the file's cached transaction holds: no reservation is lost or left behind. -/
theorem runOps_reserved (F : Format) (fs₀ : Vfs) (ops : List FileOp) {fs : Vfs} {f : File}
    (h : runOps F ops (fs₀, .empty) = .ok (fs, f)) :
    fs.allocator.reserved = fs₀.allocator.reserved + heldBlocks f.cachedTransaction := by
  have := steps_preserve F (Reserved fs₀.allocator.reserved) (reserved_step F)
    (runOps_steps F ops h) (by simp [Reserved, File.empty])
  simpa [Reserved] using this

theorem runOps_reserved_cached_write : ∃ fs f,
    runOps .minfs [.write kMinfsBlockSize 0 kMinfsBlockSize] (.sample, .empty) = .ok (fs, f) ∧
      fs.allocator.reserved = Vfs.sample.allocator.reserved + heldBlocks f.cachedTransaction :=
  ⟨_, _, rfl, runOps_reserved .minfs _ [.write kMinfsBlockSize 0 kMinfsBlockSize] rfl⟩

/-- A zero-length write drops the cached transaction with the reservation of the blocks still
pending (`write_empty_drops_cached_transaction`); `Truncate` then reserves one block and forces
a flush of two pending blocks, and the second swap takes a block past the reservation. -/
theorem truncate_after_dropped_transaction :
    ∃ fs f, runOps .minfs [.write (2 * kMinfsBlockSize) 0 (2 * kMinfsBlockSize), .write 0 0 0]
        (.sample, .empty) = .ok (fs, f) ∧ Reachable .minfs (fs, f) ∧
      f.allocationState.pending = {0, 1} ∧ f.cachedTransaction.isNone ∧
      truncate .minfs fs f (2 * kMinfsBlockSize) = .error .reservation :=
  ⟨_, _, rfl, reachable_runOps _ [.write (2 * kMinfsBlockSize) 0 (2 * kMinfsBlockSize),
    .write 0 0 0] (.init _ Vfs.sample_idle) rfl, by decide, by decide, rfl⟩

/-- Between operations on a new file, `block_count` counts the tree's non-zero pointers, and the
blocks marked pending over a hole are the pending holes. -/
theorem runOps_blockCountInv (F : Format) (fs₀ : Vfs) (ops : List FileOp) {fs : Vfs} {f : File}
    (h : runOps F ops (fs₀, .empty) = .ok (fs, f)) : BlockCountInv f :=
  steps_preserve F (fun a => BlockCountInv a.file) (blockCountInv_step F) (runOps_steps F ops h)
    (BlockCountInv.init rfl rfl)

theorem runOps_blockCountInv_write_sync : ∃ fs f,
    runOps .minfs [.write kMinfsBlockSize 0 kMinfsBlockSize, .sync] (.sample, .empty) =
      .ok (fs, f) ∧ BlockCountInv f :=
  ⟨_, _, rfl,
    runOps_blockCountInv .minfs .sample [.write kMinfsBlockSize 0 kMinfsBlockSize, .sync] rfl⟩

/-- Between operations on a new file, the dirty bytes cover those at the start and a block's worth
for each block the file has pending. -/
theorem runOps_dirtyBytes (F : Format) (fs₀ : Vfs) (ops : List FileOp) {fs : Vfs} {f : File}
    (h : runOps F ops (fs₀, .empty) = .ok (fs, f)) :
    fs₀.dirtyBytes + kMinfsBlockSize * f.allocationState.getTotalPending ≤ fs.dirtyBytes := by
  obtain ⟨o, ho, hd⟩ := steps_preserve F (DirtyCovered fs₀.dirtyBytes) (dirtyCovered_step F)
    (runOps_steps F ops h) ⟨fs₀.dirtyBytes, le_rfl, by simp [DirtyAccounted, File.empty,
      AllocationState.getTotalPending]⟩
  unfold DirtyAccounted at hd
  dsimp only at hd
  omega

theorem runOps_dirtyBytes_cancel : ∃ fs f,
    runOps .minfs [.write kMinfsBlockSize 0 kMinfsBlockSize, .cancelPendingWriteback]
      (.sample, .empty) = .ok (fs, f) ∧
      Vfs.sample.dirtyBytes + kMinfsBlockSize * f.allocationState.getTotalPending ≤
        fs.dirtyBytes :=
  ⟨_, _, rfl,
    runOps_dirtyBytes .minfs _
      [.write kMinfsBlockSize 0 kMinfsBlockSize, .cancelPendingWriteback] rfl⟩

end Minfs
