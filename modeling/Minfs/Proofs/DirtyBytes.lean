import Minfs.Proofs.Commit

/-!
# The dirty-byte counter

`AcquireWritableBlock` adds a block's worth of dirty bytes for each block it marks pending, and
`BlocksSwap` and `DeleteBlock` take them back when the mark goes. So with the bytes of the other
files set apart, the counter is a block's worth per pending block (`DirtyAccounted`), and every
block operation keeps that (`dirtyAccounted_blockOp`), except `CancelPendingWriteback`: it drops
every mark and subtracts nothing (`cancel_keeps_dirty_bytes`).
-/

namespace Minfs

variable (F : Format)

/-- The filesystem's dirty bytes: `other` for the other files, and a block's worth for each
block this file has pending. -/
def DirtyAccounted (other : ℕ) (c : Ctx) : Prop :=
  c.fs.dirtyBytes = other + kMinfsBlockSize * c.file.allocationState.getTotalPending

section Accounting

variable {F} {other : ℕ}

theorem dirtyAccounted_acquire {c : Ctx} (b : ℕ) (hc : DirtyAccounted other c) :
    DirtyAccounted other
      ⟨(acquireBlocks c.fs c.file [b]).1, (acquireBlocks c.fs c.file [b]).2, c.txn⟩ := by
  unfold DirtyAccounted AllocationState.getTotalPending at hc ⊢
  rw [acquireBlocks_singleton]
  by_cases hb : b ∈ c.file.allocationState.pending
  · simpa [File.hasPendingAllocation, hb] using hc
  · simp only [File.hasPendingAllocation, AllocationState.isPending_eq, hb, decide_False,
      Bool.false_eq_true, ite_false, acquireWritableBlock_fst, acquireWritableBlock_snd,
      Vfs.addDirtyBytes_dirtyBytes, AllocationState.setPending_pending,
      Finset.card_insert_of_not_mem hb]
    rw [hc, Nat.mul_succ, Nat.add_assoc]

theorem dirtyAccounted_swapBlock {c c' : Ctx} {b v : ℕ} (hc : DirtyAccounted other c)
    (hb : b ∈ c.file.allocationState.pending) (h : swapBlock F c b = .ok (v, c')) :
    DirtyAccounted other c' := by
  obtain ⟨a, t, r, rfl, -⟩ := swapBlock_spec F h
  have hP := Finset.card_erase_add_one hb
  unfold DirtyAccounted AllocationState.getTotalPending at hc ⊢
  simp only [AllocationState.clearPending_pending] at hP ⊢
  rw [hc, ← hP, Nat.mul_succ, ← Nat.add_assoc, Nat.add_sub_cancel]

theorem dirtyAccounted_deleteData {c : Ctx} (b : ℕ) (hc : DirtyAccounted other c) :
    DirtyAccounted other
      ⟨(deleteBlocks c.fs c.file [b]).1, (deleteBlocks c.fs c.file [b]).2, c.txn⟩ := by
  unfold DirtyAccounted AllocationState.getTotalPending at hc ⊢
  rw [deleteBlocks_singleton]
  by_cases hb : b ∈ c.file.allocationState.pending
  · have hP := Finset.card_erase_add_one hb
    rw [deleteBlock_dirtyBytes, deleteBlock_allocationState, if_pos ⟨rfl, hb⟩,
      if_neg Bool.false_ne_true, AllocationState.clearPending_pending, hc, ← hP, Nat.mul_succ,
      ← Nat.add_assoc, Nat.add_sub_cancel]
  · simpa [hb, Finset.erase_eq_of_not_mem hb] using hc

theorem dirtyAccounted_deleteIndirect {c : Ctx} (s : IndirectSlot) (hc : DirtyAccounted other c) :
    DirtyAccounted other ⟨(freeEmptyIndirects F c.fs c.file [s]).1,
      (freeEmptyIndirects F c.fs c.file [s]).2, c.txn⟩ := by
  rw [freeEmptyIndirects_singleton]
  split
  · simpa [DirtyAccounted] using hc
  · exact hc

theorem dirtyAccounted_commit {c : Ctx} {fs : Vfs} {f : File} (txn : Transaction)
    (hc : DirtyAccounted other c) (h : allocateAndCommitData F c = .ok (fs, f)) :
    DirtyAccounted other ⟨fs, f, txn⟩ := by
  obtain ⟨c', h₁, rfl, rfl, -⟩ := allocateAndCommitData_spec F h
  have := allocateAndCommitLoop_preserves F (DirtyAccounted other)
    (fun hc hb h => dirtyAccounted_swapBlock hc hb h)
    (fun hc h => by obtain ⟨-, rfl⟩ := enqueueRange_spec h; exact hc)
    (fun hc hp h => by
      rw [finishAllocation_eq] at h
      cases h
      simpa [DirtyAccounted, AllocationState.getTotalPending, hp] using hc) hc h₁
  exact this

end Accounting

/-- Every block operation keeps the dirty bytes at a block's worth per pending block, except
`CancelPendingWriteback`. -/
theorem dirtyAccounted_blockOp {other : ℕ} {c c' : Ctx} (h : BlockOp F c c')
    (hc : DirtyAccounted other c) :
    DirtyAccounted other c' ∨ c' = { c with file := c.file.cancelPendingWriteback } := by
  cases h with
  | acquire b => exact .inl (dirtyAccounted_acquire b hc)
  | swap hrun hs =>
    exact .inl (blocksSwap_preserves F _ (fun hc hb h => dirtyAccounted_swapBlock hc hb h) hc
      hrun hs)
  | deleteData b => exact .inl (dirtyAccounted_deleteData b hc)
  | deleteIndirect s => exact .inl (dirtyAccounted_deleteIndirect s hc)
  | cancel => exact .inr rfl
  | commit txn h => exact .inl (dirtyAccounted_commit txn hc h)

/-- A one-block write, then `CancelPendingWriteback`: nothing is pending, and the block's dirty
bytes are still counted. -/
theorem cancel_keeps_dirty_bytes :
    ∃ fs f, runOps .minfs [.write kMinfsBlockSize 0 kMinfsBlockSize] (.sample, .empty) =
        .ok (fs, f) ∧
      Reachable .minfs (fs, f) ∧ f.allocationState.pending = {0} ∧
      fs.dirtyBytes = kMinfsBlockSize ∧
      Reachable .minfs (fs, f.cancelPendingWriteback) ∧
      f.cancelPendingWriteback.allocationState.pending = ∅ ∧
      fs.dirtyBytes ≠ kMinfsBlockSize * f.cancelPendingWriteback.allocationState.getTotalPending :=
  ⟨_, _, rfl,
    reachable_runOps _ [.write kMinfsBlockSize 0 kMinfsBlockSize] (.init _ Vfs.sample_idle) rfl,
    by decide, by decide,
    reachable_runOps _ [.write kMinfsBlockSize 0 kMinfsBlockSize, .cancelPendingWriteback]
      (.init _ Vfs.sample_idle) rfl, rfl, by decide⟩

end Minfs
