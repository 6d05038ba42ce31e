import Minfs.Proofs.Steps

/-!
# What the drain and the steps leave alone

A mount fixes whether the dirty cache is on, the dirty-byte limit, the limits `max_blocks` is
computed from and where the data region starts (`Vfs.mountSettings`). No step changes them
(`mountSettings_step`), which the write-through results use to keep `max_blocks` and the dirty
cache's setting fixed along a run.

`AllocateAndCommitData` keeps the file's cached transaction (`commit_frame`); it maps every block
that was pending and re-points no other (`ptr_commit`); and from a `Ready` state it returns with
nothing pending and the inode at the in-memory size (`allocateAndCommitData_settles`).
-/

namespace Minfs

/-- What the mount fixes: whether the dirty cache is on, the dirty-byte limit, the metadata and
write-back limits `max_blocks` comes from, and where the data region starts. -/
def Vfs.mountSettings (fs : Vfs) : Bool × ℕ × ℕ × ℕ × ℕ :=
  (fs.dirtyCacheEnabled, fs.maxDirtyBytes, fs.maxMetaDataBlocks, fs.writebackCapacity, fs.datBlock)

namespace Vfs

theorem mountSettings_with (fs : Vfs) (a : Allocator) (d : ℕ) :
    { fs with allocator := a, dirtyBytes := d }.mountSettings = fs.mountSettings := rfl

@[simp] theorem mountSettings_commitTransaction (fs : Vfs) (t : Transaction) :
    (fs.commitTransaction t).mountSettings = fs.mountSettings := rfl
@[simp] theorem mountSettings_deallocateBlock (fs : Vfs) (b : ℕ) :
    (fs.deallocateBlock b).mountSettings = fs.mountSettings := rfl
@[simp] theorem mountSettings_subtractDirtyBytes (fs : Vfs) (n : ℕ) (x : Bool) :
    (fs.subtractDirtyBytes n x).mountSettings = fs.mountSettings := rfl

theorem dirtyCacheEnabled_eq {fs fs' : Vfs} (h : fs'.mountSettings = fs.mountSettings) :
    fs'.dirtyCacheEnabled = fs.dirtyCacheEnabled :=
  congrArg Prod.fst h

theorem maxBlocks_eq (F : Format) {fs fs' : Vfs} (h : fs'.mountSettings = fs.mountSettings) :
    maxBlocks F fs' = maxBlocks F fs := by
  simp only [mountSettings, Prod.mk.injEq] at h
  simp only [maxBlocks, h]

end Vfs

variable (F : Format)

/-- With nothing pending, an allocation state is a reset one. -/
theorem AllocationState.eq_reset {a : AllocationState} (hp : a.pending = ∅) :
    a = .reset a.nodeSize := by
  obtain ⟨p, n, s, h⟩ := a
  dsimp only at hp
  subst hp
  cases Finset.subset_empty.1 h
  rfl

/-- From a ready state `AllocateAndCommitData` returns, leaving nothing pending and the inode at
the in-memory size. -/
theorem allocateAndCommitData_settles {fs : Vfs} {f : File} {t : Transaction}
    (hc : Ready F (maxBlocks F fs) ⟨fs, f, t⟩) :
    ∃ fs' f', allocateAndCommitData F ⟨fs, f, t⟩ = .ok (fs', f') ∧
      f'.allocationState = .reset f'.inode.size := by
  obtain ⟨c', ops, h, -, -, hp, -, hsize, -⟩ :=
    allocateAndCommitLoop_ok F _ _ t.data _ _ [] (Nat.lt_succ_self _) hc
      (Enqueued.init _) (List.append_nil _).symm
  refine ⟨c'.fs.commitTransaction c'.txn, c'.file, ?_,
    by rw [hsize]; exact AllocationState.eq_reset hp⟩
  unfold allocateAndCommitData
  rw [h]
  simp [AllocationState.getTotalPending, hp]
  rfl

/-- The drain leaves the cached transaction and the mount's settings alone. -/
theorem commit_frame {c : Ctx} {fs : Vfs} {f : File} (h : allocateAndCommitData F c = .ok (fs, f)) :
    f.cachedTransaction = c.file.cachedTransaction ∧ fs.mountSettings = c.fs.mountSettings := by
  obtain ⟨c', h₁, rfl, rfl, -⟩ := allocateAndCommitData_spec F h
  refine allocateAndCommitLoop_preserves F (fun c' => c'.file.cachedTransaction =
      c.file.cachedTransaction ∧ c'.fs.mountSettings = c.fs.mountSettings)
    (fun hc _ h => ?_) (fun hc h => ?_) (fun hc _ h => ?_) ⟨rfl, rfl⟩ h₁
  · obtain ⟨a, t, r, rfl, -⟩ := swapBlock_spec F h
    exact ⟨hc.1, (Vfs.mountSettings_with _ _ _).trans hc.2⟩
  · obtain ⟨-, rfl⟩ := enqueueRange_spec h
    exact hc
  · rw [finishAllocation_eq] at h
    cases h
    exact hc

/-- The drain maps every block that was pending, and re-points no other. -/
theorem ptr_commit {c : Ctx} {fs : Vfs} {f : File} (h : allocateAndCommitData F c = .ok (fs, f))
    (b : ℕ) : (b ∈ c.file.allocationState.pending → f.inode.tree.ptr b ≠ 0) ∧
      (b ∉ c.file.allocationState.pending → f.inode.tree.ptr b = c.file.inode.tree.ptr b) := by
  obtain ⟨c', h₁, -, rfl, hp⟩ := allocateAndCommitData_spec F h
  set S := c.file.allocationState.pending
  have key : c'.file.allocationState.pending ⊆ S ∧
      (b ∈ S → b ∈ c'.file.allocationState.pending ∨ c'.file.inode.tree.ptr b ≠ 0) ∧
      (b ∉ S → c'.file.inode.tree.ptr b = c.file.inode.tree.ptr b) := by
    refine allocateAndCommitLoop_preserves F (fun c' => c'.file.allocationState.pending ⊆ S ∧
        (b ∈ S → b ∈ c'.file.allocationState.pending ∨ c'.file.inode.tree.ptr b ≠ 0) ∧
        (b ∉ S → c'.file.inode.tree.ptr b = c.file.inode.tree.ptr b))
      (fun hc hb₀ h => ?_) (fun hc h => ?_) (fun hc hp₀ h => ?_)
      ⟨subset_rfl, .inl, fun _ => rfl⟩ h₁
    · obtain ⟨a, t, r, rfl, hv, hptr, -⟩ := swapBlock_spec F h
      rename_i c₀ _ b₀ _
      obtain ⟨hS, hin, hout⟩ := hc
      dsimp only
      simp only [AllocationState.clearPending_pending, hptr]
      refine ⟨(Finset.erase_subset _ _).trans hS, fun hb => ?_, fun hb => ?_⟩
      · by_cases e : b = b₀
        · exact .inr (by rw [e, Function.update_same]; exact hv)
        · rcases hin hb with hb' | hb'
          · exact .inl (Finset.mem_erase.2 ⟨e, hb'⟩)
          · exact .inr (by rwa [Function.update_noteq e])
      · rw [Function.update_noteq (by rintro rfl; exact hb (hS hb₀))]
        exact hout hb
    · obtain ⟨-, rfl⟩ := enqueueRange_spec h
      exact hc
    · rw [finishAllocation_eq] at h
      cases h
      exact ⟨by simp, fun hb => .inr ((hc.2.1 hb).resolve_left (by rw [hp₀]; simp)), hc.2.2⟩
  rw [hp] at key
  exact ⟨fun hb => (key.2.1 hb).resolve_left (Finset.not_mem_empty b), key.2.2⟩

/-- The commit maps what was pending and leaves the other blocks' pointers alone. -/
theorem leaves_commit {c : Ctx} {fs : Vfs} {f : File}
    (h : allocateAndCommitData F c = .ok (fs, f)) :
    f.inode.tree.leaves = c.file.inode.tree.leaves ∪ c.file.allocationState.pending := by
  ext b
  rw [Finset.mem_union, f.inode.tree.mem_leaves, c.file.inode.tree.mem_leaves]
  by_cases hb : b ∈ c.file.allocationState.pending
  · simp [hb, (ptr_commit F h b).1 hb]
  · simp [hb, (ptr_commit F h b).2 hb]

@[simp] theorem deleteBlock_mountSettings (fs : Vfs) (f : File) (b old : ℕ) (indirect : Bool) :
    (deleteBlock fs f b old indirect).1.mountSettings = fs.mountSettings := by
  unfold deleteBlock
  by_cases ho : old = 0 <;> cases indirect <;>
    simp [ho, Vfs.mountSettings, Vfs.deallocateBlock, Vfs.subtractDirtyBytes] <;> split <;> simp

/-- No step changes the mount's settings. -/
theorem mountSettings_step {a b : OpState} (h : Step F a b) :
    b.fs.mountSettings = a.fs.mountSettings := by
  cases h with
  | take | cache _ _ | setSize _ | touch | cancel | drop => rfl
  | start h =>
    obtain ⟨a', rfl, -⟩ := Vfs.beginTransaction_spec h
    rfl
  | @extend fs f t n =>
    obtain ⟨a', k, h₁, -⟩ := Vfs.extendBlockReservation_spec fs t n
    exact (congrArg Vfs.mountSettings h₁).trans rfl
  | commit h => exact (commit_frame F h).2
  | acquire b _ =>
    dsimp only
    rw [acquireBlocks_fst]
    exact Vfs.mountSettings_with _ _ _
  | deleteData b =>
    dsimp only
    rw [deleteBlocks_singleton, deleteBlock_mountSettings]
  | deleteIndirect s =>
    dsimp only
    rw [freeEmptyIndirects_singleton]
    split
    · exact deleteBlock_mountSettings _ _ _ _ _
    · rfl

theorem Vfs.beginTransaction_mountSettings {fs fs' : Vfs} {n : ℕ} {t : Transaction}
    (h : fs.beginTransaction n = .ok (fs', t)) : fs'.mountSettings = fs.mountSettings := by
  obtain ⟨a, rfl, -⟩ := Vfs.beginTransaction_spec h
  rfl

theorem acquireBlocks_mountSettings (fs : Vfs) (f : File) (L : List ℕ) :
    (acquireBlocks fs f L).1.mountSettings = fs.mountSettings := by
  rw [acquireBlocks_fst]
  exact Vfs.mountSettings_with _ _ _

theorem truncateInternal_mountSettings (fs : Vfs) (f : File) {len : ℕ}
    (hl : len ≤ F.kMinfsMaxFileSize) :
    (truncateInternal F fs f len).1.mountSettings = fs.mountSettings := by
  have hsteps : Relation.ReflTransGen (Step F) ⟨fs, f, none⟩
      ⟨(truncateInternal F fs f len).1, (truncateInternal F fs f len).2, none⟩ :=
    steps_truncateInternal F hl
  exact steps_preserve F (fun a => a.fs.mountSettings = fs.mountSettings)
    (fun h ha => (mountSettings_step F h).trans ha) hsteps rfl

end Minfs
