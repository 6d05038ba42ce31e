import Minfs.Proofs.Frame

/-!
# `Truncate` frees the file's tail

`DeleteBlock` over the blocks from `⌈len / BlockSize⌉` to the last mapped or pending one clears
their pointers and pending marks (`deleteBlocks_ptr`, `deleteBlocks_pending`); freeing the indirect
blocks left empty touches neither (`freeEmptyIndirects_file`); and the block an unaligned new end
falls in lies below the cut. So a truncate that shrinks the file and returns `ZX_OK` leaves no
block mapped or pending at or past the new end, rounded up to a block (`truncate_clears_tail`),
with the dirty cache on or off.

On a file with nothing pending, what `TruncateInternal` leaves pending is at most that one block,
and only when it is mapped (`truncateInternal_pending`): the block `Truncate` reserves for.
-/

namespace Minfs

variable (F : Format)

theorem flushTransaction_force (fs : Vfs) (f : File) (txn : Transaction) :
    flushTransaction F fs f txn true = allocateAndCommitData F ⟨fs, f, txn⟩ := by
  simp [flushTransaction]

/-- `DeleteBlock` over a list takes each listed block out of the pending set. -/
theorem deleteBlocks_pending : ∀ {fs : Vfs} {f : File} (L : List ℕ),
    (deleteBlocks fs f L).2.allocationState.pending = f.allocationState.pending \ L.toFinset
  | _, _, [] => by simp [deleteBlocks]
  | fs, f, b :: bs => by
    rw [deleteBlocks_cons, deleteBlocks_pending bs, List.toFinset_cons, Finset.sdiff_insert,
      ← Finset.erase_sdiff_comm]
    simp

/-- `DeleteBlock` over a list clears each listed block's pointer. -/
theorem deleteBlocks_ptr : ∀ {fs : Vfs} {f : File} (L : List ℕ) (b : ℕ),
    (deleteBlocks fs f L).2.inode.tree.ptr b = if b ∈ L then 0 else f.inode.tree.ptr b
  | _, _, [], _ => by simp [deleteBlocks]
  | fs, f, b' :: bs, b => by
    rw [deleteBlocks_cons, deleteBlocks_ptr bs]
    by_cases e : b = b' <;> simp [e, Function.update_apply]

theorem deleteBlocks_cachedTransaction : ∀ {fs : Vfs} {f : File} (L : List ℕ),
    (deleteBlocks fs f L).2.cachedTransaction = f.cachedTransaction
  | _, _, [] => rfl
  | fs, f, b :: bs => by
    rw [deleteBlocks_cons, deleteBlocks_cachedTransaction bs]
    simp

/-- Freeing indirect blocks leaves the pending set and the file blocks' pointers alone. -/
theorem freeEmptyIndirects_file : ∀ {fs : Vfs} {f : File} (L : List IndirectSlot),
    (freeEmptyIndirects F fs f L).2.allocationState = f.allocationState ∧
      (freeEmptyIndirects F fs f L).2.inode.tree.ptr = f.inode.tree.ptr ∧
      (freeEmptyIndirects F fs f L).2.cachedTransaction = f.cachedTransaction
  | _, _, [] => ⟨rfl, rfl, rfl⟩
  | fs, f, s :: ss => by
    rw [freeEmptyIndirects_cons]
    split
    · refine ⟨(freeEmptyIndirects_file ss).1.trans ?_, (freeEmptyIndirects_file ss).2.1.trans ?_,
        (freeEmptyIndirects_file ss).2.2.trans ?_⟩ <;> simp
    · exact freeEmptyIndirects_file ss

/-- The block an unaligned new end falls in, marked when it is mapped: nothing else is pending. -/
theorem markTail_pending {r : Vfs × File} {len b : ℕ} (hp : r.2.allocationState.pending = ∅)
    (hb : b ∈
      (if len % kMinfsBlockSize ≠ 0 ∧ r.2.inode.tree.ptr (len / kMinfsBlockSize) ≠ 0 then
        acquireBlocks r.1 r.2 [len / kMinfsBlockSize] else r).2.allocationState.pending) :
    b = len / kMinfsBlockSize ∧ len % kMinfsBlockSize ≠ 0 ∧
      (if len % kMinfsBlockSize ≠ 0 ∧ r.2.inode.tree.ptr (len / kMinfsBlockSize) ≠ 0 then
        acquireBlocks r.1 r.2 [len / kMinfsBlockSize] else r).2.inode.tree.ptr b ≠ 0 := by
  by_cases hc : len % kMinfsBlockSize ≠ 0 ∧ r.2.inode.tree.ptr (len / kMinfsBlockSize) ≠ 0
  · rw [if_pos hc] at hb ⊢
    rw [acquireBlocks_pending, hp, Finset.empty_union, List.toFinset_cons, List.toFinset_nil,
      insert_emptyc_eq, Finset.mem_singleton] at hb
    subst hb
    exact ⟨rfl, hc.1, by rw [acquireBlocks_inode]; exact hc.2⟩
  · rw [if_neg hc] at hb
    exact absurd (hp ▸ hb) (Finset.not_mem_empty b)

/-- On a file with nothing pending, `TruncateInternal` leaves at most the block the new end falls
in pending, when the end is unaligned and that block is mapped. -/
theorem truncateInternal_pending {fs : Vfs} {f : File} {len b : ℕ}
    (hp : f.allocationState.pending = ∅)
    (hb : b ∈ (truncateInternal F fs f len).2.allocationState.pending) :
    b = len / kMinfsBlockSize ∧ len % kMinfsBlockSize ≠ 0 ∧
      (truncateInternal F fs f len).2.inode.tree.ptr b ≠ 0 := by
  by_cases hlt : len < f.getSize
  · simp only [truncateInternal_of_lt F hlt, File.setSize_allocationState,
      AllocationState.setNodeSize_pending, File.setSize_inode] at hb ⊢
    refine markTail_pending ?_ hb
    rw [(freeEmptyIndirects_file F _).1, deleteBlocks_pending, hp, Finset.empty_sdiff]
  · rw [truncateInternal, if_neg hlt] at hb
    split at hb <;> simp [hp] at hb

/-- Marking the block an unaligned new end falls in touches no block at or past the end, rounded
up to a block. -/
theorem markTail_frame {r : Vfs × File} {len b : ℕ}
    (hb : (len + kMinfsBlockSize - 1) / kMinfsBlockSize ≤ b)
    (hr : r.2.inode.tree.ptr b = 0 ∧ b ∉ r.2.allocationState.pending) :
    (if len % kMinfsBlockSize ≠ 0 ∧ r.2.inode.tree.ptr (len / kMinfsBlockSize) ≠ 0 then
      acquireBlocks r.1 r.2 [len / kMinfsBlockSize] else r).2.inode.tree.ptr b = 0 ∧
    b ∉ (if len % kMinfsBlockSize ≠ 0 ∧ r.2.inode.tree.ptr (len / kMinfsBlockSize) ≠ 0 then
      acquireBlocks r.1 r.2 [len / kMinfsBlockSize] else r).2.allocationState.pending := by
  split
  · rename_i hc
    have hne : b ≠ len / kMinfsBlockSize := by
      simp only [kMinfsBlockSize] at hb hc ⊢
      omega
    rw [acquireBlocks_inode, acquireBlocks_pending]
    simp [hne, hr]
  · exact hr

/-- `TruncateInternal` shrinking the file leaves no block mapped or pending at or past the new
end, rounded up to a block: those up to the last mapped or pending one are deleted, and there are
none past it. -/
theorem truncateInternal_clears (fs : Vfs) {f : File} {len b : ℕ} (hlt : len < f.getSize)
    (hb : (len + kMinfsBlockSize - 1) / kMinfsBlockSize ≤ b) :
    (truncateInternal F fs f len).2.inode.tree.ptr b = 0 ∧
      b ∉ (truncateInternal F fs f len).2.allocationState.pending := by
  simp only [truncateInternal_of_lt F hlt, File.setSize_inode, File.setSize_allocationState,
    AllocationState.setNodeSize_pending]
  refine markTail_frame hb ?_
  rw [(freeEmptyIndirects_file F _).2.1, (freeEmptyIndirects_file F _).1, deleteBlocks_ptr,
    deleteBlocks_pending]
  by_cases hin : b ∈ List.range' ((len + kMinfsBlockSize - 1) / kMinfsBlockSize)
      ((f.inode.tree.leaves ∪ f.allocationState.pending).sup id + 1 -
        (len + kMinfsBlockSize - 1) / kMinfsBlockSize)
  · simp [hin]
  · have hout : b ∉ f.inode.tree.leaves ∪ f.allocationState.pending := fun h => by
      have := Finset.le_sup (f := id) h
      simp only [List.mem_range'_1, not_and, not_lt] at hin
      simp only [id] at this
      omega
    rw [Finset.mem_union, not_or, f.inode.tree.mem_leaves, not_not] at hout
    simp [hin, hout]

/-- `TruncateInternal` clears the pointers at or past the new end, rounded up to a block, when it
shrinks the file, and leaves every other pointer as it was. -/
theorem truncateInternal_ptr (fs : Vfs) (f : File) (len b : ℕ) :
    (truncateInternal F fs f len).2.inode.tree.ptr b =
      if len < f.getSize ∧ (len + kMinfsBlockSize - 1) / kMinfsBlockSize ≤ b then 0
      else f.inode.tree.ptr b := by
  by_cases hlt : len < f.getSize
  · by_cases hb : (len + kMinfsBlockSize - 1) / kMinfsBlockSize ≤ b
    · rw [if_pos ⟨hlt, hb⟩]
      exact (truncateInternal_clears F fs hlt hb).1
    · rw [if_neg fun h => hb h.2]
      simp only [truncateInternal_of_lt F hlt, File.setSize_inode, apply_ite, acquireBlocks_inode,
        ite_self, (freeEmptyIndirects_file F _).2.1, deleteBlocks_ptr, List.mem_range'_1, hb,
        false_and, ite_false]
  · rw [if_neg fun h => hlt h.1, truncateInternal, if_neg hlt]
    split <;> rfl

/-- A truncate that returns `ZX_OK` flushed the cached writes, began its one-block transaction and
committed what `TruncateInternal` left. -/
theorem truncate_of_ok {fs fs' : Vfs} {f f' : File} {len : ℕ}
    (h : truncate F fs f len = .ok (.ok, fs', f')) :
    ∃ fs₁ f₁ fs₂ t, flushCachedWrites F fs f = .ok (fs₁, f₁) ∧
      fs₁.beginTransaction 1 = .ok (fs₂, t) ∧
      allocateAndCommitData F ⟨(truncateInternal F fs₂ f₁ len).1,
        (truncateInternal F fs₂ f₁ len).2.updateModificationTime
          (truncateInternal F fs₂ f₁ len).1.now, t⟩ = .ok (fs', f') := by
  unfold truncate at h
  split at h
  · cases h
  simp only [pure_bind] at h
  obtain ⟨⟨fs₁, f₁⟩, h₁, h₂⟩ := bind_eq_ok.1 h
  dsimp only at h₂
  split at h₂
  · rename_i hb
    cases h₂
    unfold Vfs.beginTransaction at hb
    split at hb <;> cases hb
  · rename_i fs₂ t hb
    obtain ⟨⟨fs₃, f₃⟩, h₃, h₄⟩ := bind_eq_ok.1 h₂
    cases h₄
    exact ⟨fs₁, f₁, fs₂, t, h₁, hb, by rwa [flushTransaction_force] at h₃⟩

/-- A truncate that shrinks the file and returns `ZX_OK` leaves no block mapped or pending at or
past the new end, rounded up to a block. -/
theorem truncate_clears_tail {fs fs' : Vfs} {f f' : File} {len : ℕ}
    (h : truncate F fs f len = .ok (.ok, fs', f')) (hlt : len < f.getSize) {b : ℕ}
    (hb : (len + kMinfsBlockSize - 1) / kMinfsBlockSize ≤ b) :
    f'.inode.tree.ptr b = 0 ∧ b ∉ f'.allocationState.pending := by
  obtain ⟨fs₁, f₁, fs₂, t, h₁, -, h₃⟩ := truncate_of_ok F h
  have hsize : f₁.getSize = f.getSize :=
    (flushStable_getSize (· = f.getSize)).of_flushCachedWrites rfl h₁
  obtain ⟨hptr, hpend⟩ := truncateInternal_clears F fs₂ (hsize ▸ hlt) hb
  obtain ⟨c', -, -, rfl, hp⟩ := allocateAndCommitData_spec F h₃
  refine ⟨((ptr_commit F h₃ b).2 hpend).trans hptr, by rw [hp]; exact Finset.not_mem_empty b⟩

theorem truncate_clears_tail_after_write : ∃ fs f,
    runOps .minfs [.write (2 * kMinfsBlockSize) 0 (2 * kMinfsBlockSize)] (.sample, .empty) =
      .ok (fs, f) ∧ 100 < f.getSize ∧ ∃ fs' f', truncate .minfs fs f 100 = .ok (.ok, fs', f') ∧
        f'.inode.tree.ptr 1 = 0 ∧ 1 ∉ f'.allocationState.pending := by
  refine ⟨_, _, rfl, by decide, ?_⟩
  exact Exists.imp (fun _ => Exists.imp fun _ h =>
    ⟨h, truncate_clears_tail .minfs h (by decide) (by decide)⟩) ⟨_, _, rfl⟩

theorem truncateInternal_cachedTransaction (fs : Vfs) (f : File) (len : ℕ) :
    (truncateInternal F fs f len).2.cachedTransaction = f.cachedTransaction := by
  by_cases hlt : len < f.getSize
  · simp only [truncateInternal_of_lt F hlt, File.setSize_cachedTransaction]
    split <;> simp [acquireBlocks_cachedTransaction, (freeEmptyIndirects_file F _).2.2,
      deleteBlocks_cachedTransaction]
  · rw [truncateInternal, if_neg hlt]
    split <;> rfl

end Minfs
