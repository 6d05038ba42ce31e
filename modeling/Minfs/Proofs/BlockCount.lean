import Mathlib.Logic.Relation
import Minfs.Proofs.Commit

/-!
# `block_count` and `GetBlockCount`

Two facts survive every block operation (`blockCountInv_blockOp`): `block_count` counts the
tree's non-zero pointers, indirect blocks included, and the blocks marked pending over a hole are
exactly the pending blocks whose pointer is zero (`BlockCountInv`). The second holds because the
bit `SetPending` records is recomputed from the current pointer, and a pointer changes only when
its block stops being pending.

`GetBlockCount()` adds to `block_count` one block per pending hole, but a drain also creates the
indirect blocks missing on the pending blocks' paths: the count the inode holds after
`AllocateAndCommitData` is `GetBlockCount()` plus those (`blockCount_after_drain`), which one
pending block in the first indirect range already shows (`getBlockCount_misses_indirect`).
-/

namespace Minfs

variable (F : Format)

/-- `block_count` counts the tree's non-zero pointers, and the blocks marked pending over a hole
are the pending blocks whose pointer is zero. -/
structure BlockCountInv (f : File) : Prop where
  exact : f.inode.blockCount = f.inode.tree.nonzeroCount
  holes : f.allocationState.newPending =
    f.allocationState.pending.filter (f.inode.tree.ptr · = 0)

theorem BlockCountInv.init {f : File} (h : f.inode.blockCount = f.inode.tree.nonzeroCount)
    (hp : f.allocationState.pending = ∅) : BlockCountInv f :=
  ⟨h, by simpa [hp] using Finset.subset_empty.1 (hp ▸ f.allocationState.newPending_subset)⟩

section Steps

variable {F}

theorem blockCountInv_acquire {c : Ctx} (b : ℕ) (hc : BlockCountInv c.file) :
    BlockCountInv (acquireBlocks c.fs c.file [b]).2 := by
  rw [acquireBlocks_singleton]
  by_cases hb : b ∈ c.file.allocationState.pending
  · simpa [File.hasPendingAllocation, hb] using hc
  · simp only [File.hasPendingAllocation, AllocationState.isPending_eq, hb, decide_False,
      Bool.false_eq_true, ite_false, acquireWritableBlock_snd]
    refine ⟨hc.exact, ?_⟩
    have hnp : b ∉ c.file.allocationState.newPending :=
      fun h => hb (c.file.allocationState.newPending_subset h)
    ext x
    rcases eq_or_ne x b with rfl | hx
    · by_cases h0 : c.file.inode.tree.ptr x = 0 <;> simp [h0]
    · by_cases h0 : c.file.inode.tree.ptr b = 0 <;> simp [h0, hx, hc.holes]

theorem blockCountInv_swapBlock {c c' : Ctx} {b v : ℕ} (hc : BlockCountInv c.file)
    (h : swapBlock F c b = .ok (v, c')) : BlockCountInv c'.file := by
  obtain ⟨a, t, r, rfl, hv, hptr, -, hcount, -⟩ := swapBlock_spec F h
  refine ⟨by simp [hc.exact, hcount], ?_⟩
  ext x
  by_cases hx : x = b
  · subst hx; simp [hptr, hv]
  · simp [hptr, hx, hc.holes]

theorem blockCountInv_deleteData {c : Ctx} (b : ℕ) (hc : BlockCountInv c.file) :
    BlockCountInv (deleteBlocks c.fs c.file [b]).2 := by
  rw [deleteBlocks_singleton]
  refine ⟨?_, ?_⟩
  · have := hc.exact
    by_cases hb : c.file.inode.tree.ptr b = 0
    · simp [hb, BlockMap.setLeaf_zero_nonzeroCount_of_eq_zero hb, hc.exact]
    · have := BlockMap.setLeaf_zero_nonzeroCount hb
      simp only [deleteBlock_blockCount, deleteBlock_tree, if_pos hb]
      omega
  · ext x
    rcases eq_or_ne x b with rfl | hx
    · simp
    · simp [hx, hc.holes]

theorem blockCountInv_deleteIndirect {c : Ctx} (s : IndirectSlot) (hc : BlockCountInv c.file) :
    BlockCountInv (freeEmptyIndirects F c.fs c.file [s]).2 := by
  rw [freeEmptyIndirects_singleton]
  split
  · rename_i hs
    have := BlockMap.setIndirect_zero_nonzeroCount hs.1
    have := hc.exact
    refine ⟨?_, by simp [hc.holes]⟩
    simp only [deleteBlock_blockCount, deleteBlock_tree, if_pos hs.1]
    omega
  · exact hc

theorem blockCountInv_cancel {f : File} (hc : BlockCountInv f) :
    BlockCountInv f.cancelPendingWriteback :=
  ⟨hc.exact, by simp [File.cancelPendingWriteback]⟩

theorem blockCountInv_commit {c : Ctx} {fs : Vfs} {f : File} (hc : BlockCountInv c.file)
    (h : allocateAndCommitData F c = .ok (fs, f)) : BlockCountInv f := by
  obtain ⟨c', h₁, -, rfl, -⟩ := allocateAndCommitData_spec F h
  exact allocateAndCommitLoop_preserves F (fun c => BlockCountInv c.file)
    (fun hc _ h => blockCountInv_swapBlock (by exact hc) h)
    (fun hc h => by obtain ⟨-, rfl⟩ := enqueueRange_spec h; exact ⟨hc.1, hc.2⟩)
    (fun hc _ h => by
      rw [finishAllocation_eq] at h
      cases h
      exact ⟨hc.exact, by simp⟩) hc h₁

end Steps

theorem blockCountInv_blockOp {c c' : Ctx} (h : BlockOp F c c') (hc : BlockCountInv c.file) :
    BlockCountInv c'.file := by
  cases h with
  | acquire b => exact blockCountInv_acquire b hc
  | swap _ hs =>
    exact blocksSwap_preserves F (fun c => BlockCountInv c.file)
      (fun hc _ h => blockCountInv_swapBlock (by exact hc) h) hc (by assumption) hs
  | deleteData b => exact blockCountInv_deleteData b hc
  | deleteIndirect s => exact blockCountInv_deleteIndirect s hc
  | cancel => exact blockCountInv_cancel hc
  | commit txn h => exact blockCountInv_commit hc h

/-- What a drain adds to `block_count`: a block per pending hole, and the indirect blocks missing
on the pending blocks' paths. Each swap of a pending block moves one of these into
`block_count`. -/
def drainTotal (f : File) : ℕ :=
  f.getBlockCount + (f.inode.tree.missingFor F f.allocationState.pending).card

theorem drainTotal_swapBlock {c c' : Ctx} {b v : ℕ} (hc : BlockCountInv c.file)
    (hb : b ∈ c.file.allocationState.pending) (h : swapBlock F c b = .ok (v, c')) :
    drainTotal F c'.file = drainTotal F c.file := by
  obtain ⟨a, t, r, rfl, -, -, hind, -, -⟩ := swapBlock_spec F h
  have hk := BlockMap.missingFor_erase hb hind
  have hnp : b ∈ c.file.allocationState.newPending ↔ c.file.inode.tree.ptr b = 0 := by
    simp [hc.holes, hb]
  unfold drainTotal File.getBlockCount AllocationState.getNewPending at *
  simp only [AllocationState.clearPending_pending, AllocationState.clearPending_newPending] at hk ⊢
  by_cases h0 : c.file.inode.tree.ptr b = 0
  · have := Finset.card_erase_add_one (hnp.2 h0)
    simp only [h0, ite_true]
    omega
  · rw [Finset.erase_eq_of_not_mem (mt hnp.1 h0)]
    simp only [h0, ite_false]
    omega

/-- The `block_count` a drain leaves: `GetBlockCount()` and the indirect blocks missing on the
pending blocks' paths. -/
theorem blockCount_after_drain {c : Ctx} {fs : Vfs} {f : File} (hc : BlockCountInv c.file)
    (h : allocateAndCommitData F c = .ok (fs, f)) :
    f.inode.blockCount = drainTotal F c.file := by
  obtain ⟨c', h₁, -, rfl, hp⟩ := allocateAndCommitData_spec F h
  obtain ⟨hinv, hq⟩ := allocateAndCommitLoop_preserves F
    (fun c' => BlockCountInv c'.file ∧ drainTotal F c'.file = drainTotal F c.file)
    (fun hc hb h => ⟨blockCountInv_swapBlock (by exact hc.1) h,
      (drainTotal_swapBlock F (by exact hc.1) hb h).trans hc.2⟩)
    (fun hc h => by obtain ⟨-, rfl⟩ := enqueueRange_spec h; exact ⟨⟨hc.1.1, hc.1.2⟩, hc.2⟩)
    (fun hc hp h => by
      rw [finishAllocation_eq] at h
      cases h
      refine ⟨⟨hc.1.exact, by simp⟩, ?_⟩
      rw [← hc.2]
      simp [drainTotal, File.getBlockCount, AllocationState.getNewPending, hc.1.holes, hp])
    ⟨hc, rfl⟩ h₁
  rw [← hq]
  simp [drainTotal, File.getBlockCount, AllocationState.getNewPending, hinv.holes, hp]

/-- From an inode whose `block_count` counts its tree, with nothing pending, every run of block
operations keeps `block_count` equal to the tree's non-zero pointers and `GetNewPending()` equal
to the number of pending holes; a drain then leaves `GetBlockCount()` plus the indirect blocks
missing on the pending blocks' paths. -/
theorem blockCount_runs {c c' : Ctx}
    (h0 : c.file.inode.blockCount = c.file.inode.tree.nonzeroCount)
    (hp : c.file.allocationState.pending = ∅) (hrun : Relation.ReflTransGen (BlockOp F) c c') :
    c'.file.inode.blockCount = c'.file.inode.tree.nonzeroCount ∧
      c'.file.allocationState.getNewPending =
        (c'.file.allocationState.pending.filter (c'.file.inode.tree.ptr · = 0)).card ∧
      ∀ fs f, allocateAndCommitData F c' = .ok (fs, f) →
        f.inode.blockCount = c'.file.getBlockCount +
          (c'.file.inode.tree.missingFor F c'.file.allocationState.pending).card := by
  have hinv : BlockCountInv c'.file := by
    induction hrun with
    | refl => exact BlockCountInv.init h0 hp
    | tail _ hstep ih => exact blockCountInv_blockOp F hstep ih
  exact ⟨hinv.exact, congrArg Finset.card hinv.holes,
    fun _ _ h => blockCount_after_drain F hinv h⟩

/-- A sparse file of 17 blocks, one block marked pending in the first indirect range. -/
theorem blockCount_runs_sparse :
    ∃ fs₀ txn c', Vfs.sample.beginTransaction 2 = .ok (fs₀, txn) ∧
      ((File.empty.setSize (17 * kMinfsBlockSize)).inode.blockCount =
          (File.empty.setSize (17 * kMinfsBlockSize)).inode.tree.nonzeroCount ∧
        (File.empty.setSize (17 * kMinfsBlockSize)).allocationState.pending = ∅ ∧
        Relation.ReflTransGen (BlockOp .minfs)
          ⟨fs₀, File.empty.setSize (17 * kMinfsBlockSize), txn⟩ c') ∧
      c'.file.inode.blockCount = c'.file.inode.tree.nonzeroCount ∧
      c'.file.allocationState.getNewPending =
        (c'.file.allocationState.pending.filter (c'.file.inode.tree.ptr · = 0)).card ∧
      ∀ fs f, allocateAndCommitData .minfs c' = .ok (fs, f) →
        f.inode.blockCount = c'.file.getBlockCount +
          (c'.file.inode.tree.missingFor .minfs c'.file.allocationState.pending).card :=
  ⟨_, _, _, rfl, ⟨rfl, rfl, .single (.acquire _ 16)⟩,
    blockCount_runs .minfs rfl rfl (.single (.acquire _ 16))⟩

/-- In that file, `GetBlockCount()` says 1, but the drain also creates the indirect block
`inum[0]`, and `block_count` ends at 2. -/
theorem getBlockCount_misses_indirect :
    ∃ fs₀ txn c fs f, Vfs.sample.beginTransaction 2 = .ok (fs₀, txn) ∧
      (File.empty.setSize (17 * kMinfsBlockSize)).inode.blockCount =
        (File.empty.setSize (17 * kMinfsBlockSize)).inode.tree.nonzeroCount ∧
      (File.empty.setSize (17 * kMinfsBlockSize)).allocationState.pending = ∅ ∧
      BlockOp .minfs ⟨fs₀, File.empty.setSize (17 * kMinfsBlockSize), txn⟩ c ∧
      allocateAndCommitData .minfs c = .ok (fs, f) ∧
      c.file.getBlockCount = 1 ∧ f.inode.blockCount = 2 :=
  ⟨_, _, _, _, _, rfl, rfl, rfl, .acquire _ 16, rfl, by decide, by decide⟩

end Minfs
