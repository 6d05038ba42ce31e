import Minfs.Proofs.Truncate
import Minfs.Proofs.Reserve
import Minfs.Proofs.Ownership
import Minfs.Proofs.Accounting

/-!
# With the dirty cache off, every operation writes through

Mounted with the dirty cache off, `FlushTransaction` commits at once, so a file holds no cached
transaction between operations, and each operation leaves it settled: nothing pending and the
inode's size the file's size (`File.Settled`). `Write` either returns before it changes anything,
or commits the blocks of the bytes its page buffer took, a short write included
(`write_of_cacheOff`).

No assertion fires on such a run: the commit of a write is `Ready`, its range all that is pending
and funded by what `GetRequiredBlockCount` reserved (`ready_write`), and so is the commit of a
truncate, whose one reserved block covers the block its end falls in (`ready_truncate`). Every run
of operations that fit `max_blocks` returns, and leaves the file settled (`runOps_writeThrough`).
-/

namespace Minfs

variable (F : Format)

/-- Between operations with the dirty cache off: no cached transaction, nothing pending, and the
in-memory size the inode's. -/
structure File.Settled (f : File) : Prop where
  cached : f.cachedTransaction = none
  clean : f.allocationState = .reset f.inode.size

theorem File.with_cachedTransaction_none {f : File} (h : f.cachedTransaction = none) :
    { f with cachedTransaction := none } = f := by
  cases f
  cases h
  rfl

/-- With nothing pending, the file's size is the inode's. -/
theorem File.getSize_of_reset {f : File} (h : f.allocationState = .reset f.inode.size) :
    f.getSize = f.inode.size := by
  rw [File.getSize, AllocationState.getNodeSize, h]
  rfl

theorem getRequiredBlockCount_of_cacheOff {fs : Vfs} (hd : fs.dirtyCacheEnabled = false)
    (f : File) (offset length : ℕ) :
    File.getRequiredBlockCount F fs f offset length = getRequiredBlockCount F offset length := by
  simp [File.getRequiredBlockCount, hd]

theorem flushTransaction_of_cacheOff {fs : Vfs} (hd : fs.dirtyCacheEnabled = false) (f : File)
    (txn : Transaction) (force : Bool) :
    flushTransaction F fs f txn force = allocateAndCommitData F ⟨fs, f, txn⟩ := by
  simp [flushTransaction, hd]

section Uncached

variable {fs : Vfs} {f : File} (hc : f.cachedTransaction = none)
include hc

theorem flushCachedWrites_of_none : flushCachedWrites F fs f = .ok (fs, f) := by
  unfold flushCachedWrites
  rw [hc]

theorem checkAndFlush_of_none (t : Bool) (length offset : ℕ) :
    ∃ st, checkAndFlush F fs f t length offset = .ok (st, fs, f) := by
  unfold checkAndFlush
  split
  · exact ⟨_, rfl⟩
  · exact ⟨_, rfl⟩
  · exact ⟨.ok, by rw [flushCachedWrites_of_none F hc]; rfl⟩

theorem getTransaction_of_none (n : ℕ) :
    getTransaction F fs f n = match fs.beginTransaction n with
      | .error st => .ok (.error st, fs, f)
      | .ok (fs', t) => .ok (.ok t, fs', f) := by
  unfold getTransaction
  simp only [hc, Option.isSome_none, Bool.and_false, Bool.false_eq_true, ite_false, pure_bind,
    File.with_cachedTransaction_none hc]
  cases fs.beginTransaction n <;> rfl

/-- With the dirty cache off, `Write` returns before it changes anything, or it commits the file
with the bytes the buffer took marked pending and the size moved to the end of what it wrote. -/
theorem write_of_none (hd : fs.dirtyCacheEnabled = false) (length offset copied : ℕ) :
    (∃ st, write F fs f length offset copied = .ok (st, 0, fs, f)) ∨
      ∃ N fs₁ t, 0 < min copied length ∧ offset + length ≤ F.kMinfsMaxFileSize ∧
        getRequiredBlockCount F offset length = .ok N ∧ fs.beginTransaction N = .ok (fs₁, t) ∧
        write F fs f length offset copied =
          (allocateAndCommitData F
            ⟨(acquireBlocks fs₁ f (blockRange offset (min copied length))).1,
              ((acquireBlocks fs₁ f (blockRange offset (min copied length))).2.setSize
                (max f.getSize (offset + min copied length))).updateModificationTime
                (acquireBlocks fs₁ f (blockRange offset (min copied length))).1.now, t⟩).map
            fun r => (.ok, min copied length, r.1, r.2) := by
  unfold write
  split
  · exact .inl ⟨_, rfl⟩
  rename_i hbig
  obtain ⟨st, h₁⟩ := @checkAndFlush_of_none F fs f hc false length offset
  simp only [pure_bind, h₁, ok_bind]
  by_cases hst : st ≠ .ok
  · exact .inl ⟨st, by rw [if_pos hst]; rfl⟩
  rw [if_neg hst, getRequiredBlockCount_of_cacheOff F hd]
  rcases hN : getRequiredBlockCount F offset length with e | N
  · exact .inl ⟨e, rfl⟩
  dsimp only
  rw [getTransaction_of_none F hc]
  rcases hb : fs.beginTransaction N with e | ⟨fs₁, t⟩
  · exact .inl ⟨e, rfl⟩
  obtain ⟨a, hfs₁, -⟩ := Vfs.beginTransaction_spec hb
  have hd₁ : fs₁.dirtyCacheEnabled = false := by rw [hfs₁]; exact hd
  simp only [ok_bind, hd₁, Bool.false_eq_true, ite_false]
  have hdrop := Vfs.dropTransaction_of_beginTransaction hb
  by_cases h0 : length = 0
  · exact .inl ⟨.ok, by simp [writeInternal, h0, hdrop]; rfl⟩
  by_cases hc0 : min copied length = 0
  · exact .inl ⟨.errNoMemory, by simp [writeInternal, h0, hc0, hdrop]; rfl⟩
  have hd₂ : (acquireBlocks fs₁ f (blockRange offset (min copied length))).1.dirtyCacheEnabled =
      false := by
    rw [acquireBlocks_fst]; exact hd₁
  refine .inr ⟨N, fs₁, t, Nat.pos_of_ne_zero hc0, by omega, rfl, hb, ?_⟩
  simp only [writeInternal, h0, hc0, ite_false, getSize_acquireBlocks,
    flushTransaction_of_cacheOff F hd₂]
  cases allocateAndCommitData F _ <;> rfl

/-- With the dirty cache off, `Truncate` fails before it changes anything, or it commits what
`TruncateInternal` made of the file. -/
theorem truncate_of_none (len : ℕ) :
    (∃ st, st ≠ .ok ∧ truncate F fs f len = .ok (st, fs, f)) ∨
      ∃ fs₁ t, len ≤ F.kMinfsMaxFileSize ∧ fs.beginTransaction 1 = .ok (fs₁, t) ∧
        truncate F fs f len =
          (allocateAndCommitData F ⟨(truncateInternal F fs₁ f len).1,
            (truncateInternal F fs₁ f len).2.updateModificationTime
              (truncateInternal F fs₁ f len).1.now, t⟩).map fun r => (.ok, r.1, r.2) := by
  unfold truncate
  split
  · exact .inl ⟨_, Status.noConfusion, rfl⟩
  rw [flushCachedWrites_of_none F hc, ok_bind]
  simp only [pure_bind]
  rcases hb : fs.beginTransaction 1 with e | ⟨fs₁, t⟩
  · exact .inl ⟨e, by rw [Vfs.beginTransaction_eq_error hb]; exact Status.noConfusion, rfl⟩
  refine .inr ⟨fs₁, t, by omega, rfl, ?_⟩
  simp only [flushTransaction_force]
  cases allocateAndCommitData F _ <;> rfl

end Uncached

/-- The indirect blocks above the mapped blocks of a linked tree all exist. -/
theorem BlockMap.missingFor_eq_empty {t : BlockMap} {P : Finset ℕ} (h : t.Linked F)
    (hP : ∀ b ∈ P, t.ptr b ≠ 0) : t.missingFor F P = ∅ := by
  refine Finset.eq_empty_of_forall_not_mem fun s hs => ?_
  simp only [BlockMap.missingFor, Finset.mem_filter, Finset.mem_biUnion, List.mem_toFinset] at hs
  obtain ⟨⟨b, hb, hs⟩, h0⟩ := hs
  exact (t.mem_indirects s).1 (h.1 b ((t.mem_leaves b).2 (hP b hb)) s hs) h0

/-- A range of `length` bytes touches at most `length / BlockSize + 2` blocks, wherever it
starts. -/
theorem blockRange_length_le (offset length : ℕ) :
    (blockRange offset length).length ≤ length / kMinfsBlockSize + 2 := by
  unfold blockRange
  split
  · simp
  · simp only [List.length_range', kMinfsBlockSize]
    omega

/-- The blocks the first `actual` bytes of a range touch are among the range's. -/
theorem blockRange_subset {offset length actual : ℕ} (ha : actual ≤ length) :
    (blockRange offset actual).toFinset ⊆ (blockRange offset length).toFinset := by
  intro b hb
  rw [List.mem_toFinset, mem_blockRange] at hb ⊢
  exact ⟨by omega, hb.2.1, hb.2.2.trans (Nat.div_le_div_right (by omega))⟩

theorem blockRange_length_mono {offset length actual : ℕ} (ha : actual ≤ length) :
    (blockRange offset actual).length ≤ (blockRange offset length).length := by
  unfold blockRange
  split_ifs
  · exact le_rfl
  · exact Nat.zero_le _
  · omega
  · simp only [List.length_range']
    exact Nat.sub_le_sub_right (Nat.add_le_add_right (Nat.div_le_div_right (by omega)) 1) _

section Ready

variable {F} (hmax : F.kMinfsMaxFileSize ≤ 2 ^ 32 - kMinfsBlockSize)
include hmax

/-- The commit of a write on a settled file is ready: the blocks of the bytes written are all
that is pending, they lie within the new size, and the reservation `GetRequiredBlockCount` made
for the whole range covers them. -/
theorem ready_write {fs fs₁ : Vfs} {f : File} {t : Transaction} {offset length actual N : ℕ}
    (hs : f.Settled) (hb : SizeBounds F f) (hl : offset + length ≤ F.kMinfsMaxFileSize)
    (ha : actual ≤ length) (hfit : (blockRange offset length).length ≤ maxBlocks F fs)
    (hN : getRequiredBlockCount F offset length = .ok N)
    (ht : fs.beginTransaction N = .ok (fs₁, t)) :
    Ready F (maxBlocks F fs) ⟨(acquireBlocks fs₁ f (blockRange offset actual)).1,
      ((acquireBlocks fs₁ f (blockRange offset actual)).2.setSize
        (max f.getSize (offset + actual))).updateModificationTime
        (acquireBlocks fs₁ f (blockRange offset actual)).1.now, t⟩ := by
  obtain ⟨a, hfs₁, rfl, -, ha'⟩ := Vfs.beginTransaction_spec ht
  have hP : (acquireBlocks fs₁ f (blockRange offset actual)).2.allocationState.pending =
      (blockRange offset actual).toFinset := by
    simp [acquireBlocks_pending, hs.clean]
  have hsize : ((acquireBlocks fs₁ f (blockRange offset actual)).2.setSize
      (max f.getSize (offset + actual))).getSize = max f.getSize (offset + actual) :=
    setSize_getSize hmax _ (max_le hb.nodeSize_le (by omega))
  have hsub := @blockRange_subset offset _ _ ha
  have hcard := ((blockRange offset actual).toFinset_card_le).trans (blockRange_length_mono ha)
  have hmiss := Finset.card_le_card (f.inode.tree.missingFor_mono (F := F) hsub)
  have hcover := getRequiredBlockCount_covers F f.inode.tree hN
  refine ⟨?_, fun b hbp => ?_, ⟨?_, ?_⟩⟩
  · simp only [AllocationState.getTotalPending, File.updateModificationTime_allocationState,
      File.setSize_allocationState, AllocationState.setNodeSize_pending, hP]
    omega
  · simp only [File.updateModificationTime_allocationState, File.setSize_allocationState,
      AllocationState.setNodeSize_pending, hP, List.mem_toFinset, mem_blockRange] at hbp
    simp only [File.updateModificationTime_allocationState]
    rw [show AllocationState.getNodeSize _ = _ from hsize]
    simp only [roundUp, kMinfsBlockSize] at hbp ⊢
    omega
  · simp only [File.need, File.updateModificationTime_allocationState,
      File.setSize_allocationState, AllocationState.setNodeSize_pending,
      File.updateModificationTime_tree, File.setSize_inode, acquireBlocks_inode, hP]
    omega
  · rw [acquireBlocks_allocator, hfs₁]
    dsimp only
    omega

/-- The commit of a write on a settled file returns, leaving the file settled, the blocks of the
bytes written mapped besides those that were, and the inode's size at the end of what was
written, if past it. -/
theorem commit_write {fs fs₁ : Vfs} {f : File} {t : Transaction} {offset length actual N : ℕ}
    (hs : f.Settled) (hb : SizeBounds F f) (hl : offset + length ≤ F.kMinfsMaxFileSize)
    (ha : actual ≤ length) (hfit : (blockRange offset length).length ≤ maxBlocks F fs)
    (hN : getRequiredBlockCount F offset length = .ok N)
    (ht : fs.beginTransaction N = .ok (fs₁, t)) :
    ∃ fs' f', allocateAndCommitData F ⟨(acquireBlocks fs₁ f (blockRange offset actual)).1,
        ((acquireBlocks fs₁ f (blockRange offset actual)).2.setSize
          (max f.getSize (offset + actual))).updateModificationTime
          (acquireBlocks fs₁ f (blockRange offset actual)).1.now, t⟩ = .ok (fs', f') ∧
      f'.Settled ∧ f'.inode.size = max f.getSize (offset + actual) ∧
      f'.inode.tree.leaves = f.inode.tree.leaves ∪ (blockRange offset actual).toFinset := by
  have hready := ready_write hmax hs hb hl ha hfit hN ht
  rw [← Vfs.maxBlocks_eq F ((acquireBlocks_mountSettings fs₁ f (blockRange offset actual)).trans
    (Vfs.beginTransaction_mountSettings ht))] at hready
  obtain ⟨fs', f', hc, hclean⟩ := allocateAndCommitData_settles F hready
  refine ⟨fs', f', hc, ⟨(commit_frame F hc).1.trans ?_, hclean⟩, ?_, ?_⟩
  · simp [acquireBlocks_cachedTransaction, hs.cached]
  · rw [← File.getSize_of_reset hclean, getSize_commit hc]
    exact setSize_getSize hmax _ (max_le hb.nodeSize_le (by omega))
  · rw [leaves_commit F hc]
    simp [acquireBlocks_inode, acquireBlocks_pending, hs.clean]

/-- The commit of a truncate of a settled file is ready: at most the mapped block the new end
falls in is pending, and the one block `Truncate` reserved covers it. -/
theorem ready_truncate {fs fs₁ : Vfs} {f : File} {t : Transaction} {len : ℕ}
    (hs : f.Settled) (hlk : f.inode.tree.Linked F) (hl : len ≤ F.kMinfsMaxFileSize)
    (hm : 1 ≤ maxBlocks F fs) (ht : fs.beginTransaction 1 = .ok (fs₁, t)) :
    Ready F (maxBlocks F fs) ⟨(truncateInternal F fs₁ f len).1,
      (truncateInternal F fs₁ f len).2.updateModificationTime
        (truncateInternal F fs₁ f len).1.now, t⟩ := by
  obtain ⟨a, hfs₁, rfl, -, ha⟩ := Vfs.beginTransaction_spec ht
  set r := truncateInternal F fs₁ f len
  have hpend : ∀ b ∈ r.2.allocationState.pending,
      b = len / kMinfsBlockSize ∧ len % kMinfsBlockSize ≠ 0 ∧ r.2.inode.tree.ptr b ≠ 0 :=
    fun b hb => truncateInternal_pending F (by rw [hs.clean]; rfl) hb
  have hone : r.2.allocationState.pending.card ≤ 1 :=
    Finset.card_le_one.2 fun a ha b hb => (hpend a ha).1.trans (hpend b hb).1.symm
  have hlinked : r.2.inode.tree.Linked F := by
    have hsteps : Relation.ReflTransGen (Step F) ⟨fs₁, f, none⟩ ⟨r.1, r.2, none⟩ :=
      steps_truncateInternal F hl
    exact steps_preserve F (fun a => a.file.inode.tree.Linked F) (linked_step F) hsteps hlk
  have hR : Reserved fs.allocator.reserved ⟨r.1, r.2, some ⟨1, [], false⟩⟩ := by
    have hsteps : Relation.ReflTransGen (Step F) ⟨fs₁, f, some ⟨1, [], false⟩⟩
        ⟨r.1, r.2, some ⟨1, [], false⟩⟩ := steps_truncateInternal F hl
    refine steps_preserve F _ (reserved_step F) hsteps ?_
    simp only [Reserved, hfs₁, ha, heldBlocks_some, hs.cached, heldBlocks_none, add_zero]
  have hsize : r.2.getSize = len := getSize_truncateInternal hmax fs₁ f hl
  refine ⟨?_, fun b hb => ?_, ⟨?_, ?_⟩⟩
  · exact hone.trans hm
  · obtain ⟨rfl, hr, -⟩ := hpend b hb
    dsimp only
    rw [File.updateModificationTime_allocationState,
      show AllocationState.getNodeSize _ = _ from hsize]
    simp only [roundUp, kMinfsBlockSize] at hr ⊢
    omega
  · simp only [File.need, File.updateModificationTime_allocationState,
      File.updateModificationTime_tree,
      BlockMap.missingFor_eq_empty F hlinked fun b hb => (hpend b hb).2.2, Finset.card_empty]
    exact hone
  · simp only [Reserved, heldBlocks_some] at hR
    dsimp only
    omega

/-- The commit of a truncate of a settled file returns, leaving the file settled, the inode's size
`len`, and mapped the blocks `TruncateInternal` left mapped. -/
theorem commit_truncate {fs fs₁ : Vfs} {f : File} {t : Transaction} {len : ℕ}
    (hs : f.Settled) (hlk : f.inode.tree.Linked F) (hl : len ≤ F.kMinfsMaxFileSize)
    (hm : 1 ≤ maxBlocks F fs) (ht : fs.beginTransaction 1 = .ok (fs₁, t)) :
    ∃ fs' f', allocateAndCommitData F ⟨(truncateInternal F fs₁ f len).1,
        (truncateInternal F fs₁ f len).2.updateModificationTime
          (truncateInternal F fs₁ f len).1.now, t⟩ = .ok (fs', f') ∧
      f'.Settled ∧ f'.inode.size = len ∧
      f'.inode.tree.leaves = (truncateInternal F fs₁ f len).2.inode.tree.leaves := by
  have hready := ready_truncate hmax hs hlk hl hm ht
  rw [← Vfs.maxBlocks_eq F ((truncateInternal_mountSettings F fs₁ f hl).trans
    (Vfs.beginTransaction_mountSettings ht))] at hready
  obtain ⟨fs', f', hc, hclean⟩ := allocateAndCommitData_settles F hready
  refine ⟨fs', f', hc, ⟨(commit_frame F hc).1.trans ?_, hclean⟩, ?_, ?_⟩
  · simp [truncateInternal_cachedTransaction, hs.cached]
  · rw [← File.getSize_of_reset hclean, getSize_commit hc]
    exact getSize_truncateInternal hmax fs₁ f hl
  · rw [leaves_commit F hc, File.updateModificationTime_tree,
      File.updateModificationTime_allocationState, Finset.union_eq_left]
    intro b hb
    rw [(truncateInternal F fs₁ f len).2.inode.tree.mem_leaves]
    exact (truncateInternal_pending F (by rw [hs.clean]; rfl) hb).2.2

end Ready

/-- What an operation may touch, whatever the file's size, against `AllocateAndCommitData`'s
`max_blocks` of `m`: a write its range, an append at most `length / BlockSize + 2` blocks, a
truncate the one block its new end falls in. -/
def FileOp.Fits (m : ℕ) : FileOp → Prop
  | .write length offset _ => (blockRange offset length).length ≤ m
  | .append length _ => length / kMinfsBlockSize + 2 ≤ m
  | .truncate _ => 1 ≤ m
  | .sync | .cancelPendingWriteback => True

instance (m : ℕ) : (op : FileOp) → Decidable (op.Fits m)
  | .write length offset _ => inferInstanceAs (Decidable ((blockRange offset length).length ≤ m))
  | .append length _ => inferInstanceAs (Decidable (length / kMinfsBlockSize + 2 ≤ m))
  | .truncate _ => inferInstanceAs (Decidable (1 ≤ m))
  | .sync => inferInstanceAs (Decidable True)
  | .cancelPendingWriteback => inferInstanceAs (Decidable True)

/-- A state between operations with the dirty cache off: `max_blocks` at `m`, the file settled,
within the size bounds, and its tree linked. -/
structure WriteThrough (m : ℕ) (s : Vfs × File) : Prop where
  cacheOff : s.1.dirtyCacheEnabled = false
  maxBlocks_eq : maxBlocks F s.1 = m
  settled : s.2.Settled
  bounds : SizeBounds F s.2
  linked : s.2.inode.tree.Linked F

section Operations

variable {F} (hmax : F.kMinfsMaxFileSize ≤ 2 ^ 32 - kMinfsBlockSize) {m : ℕ}
  {fs : Vfs} {f : File} (hs : WriteThrough F m (fs, f))
include hmax hs

theorem write_settles (length offset copied : ℕ)
    (hfit : (blockRange offset length).length ≤ m) :
    ∃ r, write F fs f length offset copied = .ok r ∧ r.2.2.2.Settled := by
  have hset : f.Settled := hs.settled
  rcases write_of_none F hset.cached hs.cacheOff length offset copied with
    ⟨st, h⟩ | ⟨N, fs₁, t, -, hl, hN, ht, h⟩
  · exact ⟨_, h, hset⟩
  obtain ⟨fs', f', hc, hset', -⟩ :=
    commit_write hmax hset hs.bounds hl (min_le_right _ _) (hs.maxBlocks_eq ▸ hfit) hN ht
  exact ⟨_, by rw [h, hc]; rfl, hset'⟩

theorem truncate_settles (len : ℕ) (hm : 1 ≤ m) :
    ∃ r, truncate F fs f len = .ok r ∧ r.2.2.Settled := by
  have hset : f.Settled := hs.settled
  rcases truncate_of_none F hset.cached len with ⟨st, -, h⟩ | ⟨fs₁, t, hl, ht, h⟩
  · exact ⟨_, h, hset⟩
  obtain ⟨fs', f', hc, hset', -⟩ :=
    commit_truncate hmax hset hs.linked hl (hs.maxBlocks_eq ▸ hm) ht
  exact ⟨_, by rw [h, hc]; rfl, hset'⟩

/-- Every operation that fits returns, and leaves the file settled. -/
theorem exec_settles {op : FileOp} (hop : op.Fits m) :
    ∃ r, op.exec F (fs, f) = .ok r ∧ r.2.2.2.Settled := by
  cases op with
  | write length offset copied => exact write_settles hmax hs length offset copied hop
  | append length copied =>
    obtain ⟨r, h, hr⟩ := write_settles hmax hs length f.getSize copied
      ((blockRange_length_le _ _).trans hop)
    exact ⟨_, by simp only [FileOp.exec, append, h]; rfl, hr⟩
  | truncate len =>
    obtain ⟨r, h, hr⟩ := truncate_settles hmax hs len hop
    exact ⟨_, by simp only [FileOp.exec, h]; rfl, hr⟩
  | sync =>
    exact ⟨_, by simp only [FileOp.exec, flushCachedWrites_of_none F hs.settled.cached]; rfl,
      hs.settled⟩
  | cancelPendingWriteback => exact ⟨_, rfl, ⟨hs.settled.cached, rfl⟩⟩

/-- Every operation that fits returns, and keeps the state written through. -/
theorem writeThrough_exec {op : FileOp} (hop : op.Fits m) :
    ∃ r, op.exec F (fs, f) = .ok r ∧ WriteThrough F m r.2.2 := by
  obtain ⟨r, h, hset⟩ := exec_settles hmax hs hop
  have hrun : op.run F (fs, f) = .ok r.2.2 := by rw [FileOp.run, h]; rfl
  have hsteps := run_steps F hrun
  have hms : r.2.2.1.mountSettings = fs.mountSettings :=
    steps_preserve F (fun a => a.fs.mountSettings = fs.mountSettings)
      (fun h ha => (mountSettings_step F h).trans ha) hsteps rfl
  exact ⟨r, h, (Vfs.dirtyCacheEnabled_eq hms).trans hs.cacheOff,
    (Vfs.maxBlocks_eq F hms).trans hs.maxBlocks_eq, hset, sizeBounds_run hmax hs.bounds hrun,
    steps_preserve F (fun a => a.file.inode.tree.Linked F) (linked_step F) hsteps hs.linked⟩

theorem writeThrough_run {op : FileOp} (hop : op.Fits m) :
    ∃ s', op.run F (fs, f) = .ok s' ∧ WriteThrough F m s' := by
  obtain ⟨r, h, hr⟩ := writeThrough_exec hmax hs hop
  exact ⟨r.2.2, by rw [FileOp.run, h]; rfl, hr⟩

end Operations

/-- The sample filesystem mounted with the dirty cache off. -/
def Vfs.sampleCacheOff : Vfs := { Vfs.sample with dirtyCacheEnabled := false }

/-- With the dirty cache off, `Write` on a settled file either returns before it changes anything,
with no byte written, or commits before it returns: `ZX_OK` and the bytes its page buffer took,
the file settled, every block of those bytes mapped, and the inode's size at
`max(GetSize(), offset + actual)`. -/
theorem write_of_cacheOff (hmax : F.kMinfsMaxFileSize ≤ 2 ^ 32 - kMinfsBlockSize) {fs : Vfs}
    {f : File} (hd : fs.dirtyCacheEnabled = false) (hs : f.Settled) (hb : SizeBounds F f)
    (length offset copied : ℕ) (hfit : (blockRange offset length).length ≤ maxBlocks F fs) :
    (∃ st, write F fs f length offset copied = .ok (st, 0, fs, f)) ∨
      ∃ fs' f', write F fs f length offset copied = .ok (.ok, min copied length, fs', f') ∧
        0 < min copied length ∧ f'.Settled ∧
        f'.inode.size = max f.getSize (offset + min copied length) ∧
        ∀ b ∈ blockRange offset (min copied length), f'.inode.tree.ptr b ≠ 0 := by
  rcases write_of_none F hs.cached hd length offset copied with
    ⟨st, h⟩ | ⟨N, fs₁, t, h0, hl, hN, ht, h⟩
  · exact .inl ⟨st, h⟩
  obtain ⟨fs', f', hc, hset, hsize, hleaves⟩ :=
    commit_write hmax hs hb hl (min_le_right _ _) hfit hN ht
  refine .inr ⟨fs', f', by rw [h, hc]; rfl, h0, hset, hsize, fun b hb => ?_⟩
  rw [← f'.inode.tree.mem_leaves, hleaves]
  exact Finset.mem_union_right _ (List.mem_toFinset.2 hb)

/-- A three-block write at offset 100 whose page buffer takes only 10000 bytes: a short write. -/
theorem write_of_cacheOff_short :
    (∃ st, write .minfs .sampleCacheOff .empty (3 * kMinfsBlockSize) 100 10000 =
        .ok (st, 0, .sampleCacheOff, .empty)) ∨
      ∃ fs' f', write .minfs .sampleCacheOff .empty (3 * kMinfsBlockSize) 100 10000 =
          .ok (.ok, min 10000 (3 * kMinfsBlockSize), fs', f') ∧
        0 < min 10000 (3 * kMinfsBlockSize) ∧ f'.Settled ∧
        f'.inode.size = max File.empty.getSize (100 + min 10000 (3 * kMinfsBlockSize)) ∧
        ∀ b ∈ blockRange 100 (min 10000 (3 * kMinfsBlockSize)), f'.inode.tree.ptr b ≠ 0 :=
  write_of_cacheOff .minfs (by decide) rfl ⟨rfl, rfl⟩ sizeBounds_empty _ _ _ (by decide)

theorem writeThrough_runOps (hmax : F.kMinfsMaxFileSize ≤ 2 ^ 32 - kMinfsBlockSize) {m : ℕ} :
    ∀ (ops : List FileOp) {s : Vfs × File}, WriteThrough F m s →
      (∀ op ∈ ops, op.Fits m) → ∃ s', runOps F ops s = .ok s' ∧ WriteThrough F m s'
  | [], s, hs, _ => ⟨s, rfl, hs⟩
  | op :: ops, (fs, f), hs, hops => by
    obtain ⟨s₁, h₁, hs₁⟩ := writeThrough_run hmax hs (hops op (List.mem_cons_self _ _))
    obtain ⟨s', h', hs'⟩ :=
      writeThrough_runOps hmax ops hs₁ fun o ho => hops o (List.mem_cons_of_mem _ ho)
    exact ⟨s', by rw [runOps, h₁]; exact h', hs'⟩

/-- With the dirty cache off, no assertion fires on any run of operations on a new file whose
writes, appends and truncates fit `AllocateAndCommitData`'s `max_blocks`, and after each the file
is settled: no transaction is cached, nothing is pending, and the inode's size is the file's
size. -/
theorem runOps_writeThrough (hmax : F.kMinfsMaxFileSize ≤ 2 ^ 32 - kMinfsBlockSize) (fs₀ : Vfs)
    (hd : fs₀.dirtyCacheEnabled = false) (ops : List FileOp)
    (hops : ∀ op ∈ ops, op.Fits (maxBlocks F fs₀)) :
    ∃ fs f, runOps F ops (fs₀, .empty) = .ok (fs, f) ∧ f.Settled := by
  have h₀ : WriteThrough F (maxBlocks F fs₀) (fs₀, .empty) :=
    ⟨hd, rfl, ⟨rfl, rfl⟩, sizeBounds_empty, BlockMap.empty_linked F⟩
  obtain ⟨⟨fs, f⟩, h, hs⟩ := writeThrough_runOps F hmax ops h₀ hops
  exact ⟨fs, f, h, hs.settled⟩

theorem runOps_writeThrough_write_truncate :
    ∃ fs f, runOps .minfs [.write (3 * kMinfsBlockSize) 0 (3 * kMinfsBlockSize), .truncate 100,
      .append 10 10] (.sampleCacheOff, .empty) = .ok (fs, f) ∧ f.Settled :=
  runOps_writeThrough .minfs (by decide) _ rfl _ (by decide)

end Minfs
