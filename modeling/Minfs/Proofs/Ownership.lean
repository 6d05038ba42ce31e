import Minfs.Proofs.Steps

/-!
# The tree over every run: one owner per block, and linked

A file starts with no blocks, on a filesystem whose allocator has the blocks `U` in use for the
rest of the disk. From then on every block the allocator hands out goes into the file's tree, and
every block the file frees comes out of it: between any two steps, the blocks in use are `U` and
the tree's blocks, apart, and no block is pointed at twice (`Owned`). So the file never frees a
block it does not hold, never loses one, and never points at one twice (`runOps_owned`).

`BlocksSwap` is the step that takes and frees at once: the new block is held apart while the old
one is freed and the indirect blocks on the path are created, then it goes into the emptied
pointer (`owned_swapBlock`).

Every step also keeps the tree linked (`linked_step`): a swap creates the indirect blocks on a
block's path before it sets the block's pointer, and a truncate frees an indirect block only once
nothing hangs below it.
-/

namespace Minfs

open BlockMap

/-- The blocks in use are `U` and the tree's blocks, apart, and no block is pointed at twice. -/
structure Owned (U used : Finset ℕ) (t : BlockMap) : Prop where
  used_eq : used = U ∪ t.blocks
  disjoint : Disjoint U t.blocks
  noAlias : t.NoAlias

namespace Owned

variable {U used : Finset ℕ} {t t' : BlockMap} {x : ℕ ⊕ IndirectSlot} {v : ℕ}

theorem init (U : Finset ℕ) : Owned U U .empty :=
  ⟨by simp, by simp, noAlias_empty⟩

theorem not_mem_left (h : Owned U used t) (hv : v ∉ used) : v ∉ U :=
  fun hm => hv (h.used_eq ▸ Finset.mem_union_left _ hm)

/-- A block taken from the free ones is held apart from the tree. -/
theorem hold (h : Owned U used t) (hv : v ∉ used) : Owned (insert v U) (insert v used) t :=
  ⟨by rw [h.used_eq, Finset.insert_union],
    Finset.disjoint_insert_left.2 ⟨fun hm => hv (h.used_eq ▸ Finset.mem_union_right _ hm),
      h.disjoint⟩,
    h.noAlias⟩

/-- A held block goes into an empty pointer. -/
theorem claim (h : Owned (insert v U) used t) (hx : t.slot x = 0) (hv : v ≠ 0) (hvU : v ∉ U)
    (ht : t'.slot = Function.update t.slot x v) : Owned U used t' := by
  have hvt : v ∉ t.blocks := Finset.disjoint_left.1 h.disjoint (Finset.mem_insert_self v U)
  have hb := blocks_of_slot_update_fresh h.noAlias ht hx hv
  refine ⟨by rw [h.used_eq, hb, Finset.insert_union, Finset.union_insert], ?_,
    noAlias_of_slot_update h.noAlias ht ?_⟩
  · exact hb ▸ Finset.disjoint_insert_right.2
      ⟨hvU, Finset.disjoint_of_subset_left (Finset.subset_insert v U) h.disjoint⟩
  · rw [hx, Finset.erase_eq_of_not_mem (zero_not_mem_blocks t)]
    exact hvt

/-- A block taken from the free ones goes into an empty pointer. -/
theorem fresh (h : Owned U used t) (hv : v ∉ used) (hv0 : v ≠ 0) (hx : t.slot x = 0)
    (ht : t'.slot = Function.update t.slot x v) : Owned U (insert v used) t' :=
  (h.hold hv).claim hx hv0 (h.not_mem_left hv) ht

/-- A pointer is cleared and its block freed. -/
theorem free {a : Allocator} (h : Owned U a.used t) (ht : t'.slot = Function.update t.slot x 0) :
    Owned U (a.free (t.slot x)).used t' := by
  have hb := blocks_of_slot_update_zero h.noAlias ht rfl
  have hU : t.slot x ∉ U ∨ t.slot x = 0 := by
    by_cases hx : t.slot x = 0
    · exact .inr hx
    · exact .inl (Finset.disjoint_right.1 h.disjoint (slot_mem_blocks hx))
  refine ⟨?_, hb ▸ h.disjoint.mono_right (Finset.erase_subset _ _),
    noAlias_of_slot_update h.noAlias ht fun hm =>
      zero_not_mem_blocks t (Finset.mem_of_mem_erase hm)⟩
  rw [Allocator.free_used, hb, h.used_eq]
  split
  · rename_i hx
    rw [hx, Finset.erase_eq_of_not_mem (zero_not_mem_blocks t)]
  · rw [Finset.erase_union_distrib, Finset.erase_eq_of_not_mem (hU.resolve_right ‹_›)]

end Owned

section Steps

variable (F : Format) {U : Finset ℕ}

/-- The indirect blocks `SetBlk` creates go into the tree, with file block `b`'s pointer set
aside. -/
theorem owned_allocateIndirects {W : Finset ℕ} {b : ℕ} :
    ∀ {c c' : Ctx} {L : List IndirectSlot}, allocateIndirects c L = .ok c' →
      Owned W c.fs.allocator.used (c.file.inode.tree.setLeaf b 0) →
      Owned W c'.fs.allocator.used (c'.file.inode.tree.setLeaf b 0)
  | _, _, [], hc, h => by cases hc; exact h
  | c, c', s :: ss, hc, h => by
    unfold allocateIndirects at hc
    split at hc
    · obtain ⟨⟨n, fs₁, t₁⟩, h₁, h₂⟩ := bind_eq_ok.1 hc
      obtain ⟨a, r, rfl, rfl, hn, -, -, hnu, ha⟩ := Vfs.blockNew_spec h₁
      refine owned_allocateIndirects h₂ ?_
      dsimp only [Ctx.withTree]
      rw [ha]
      exact h.fresh hnu hn (x := .inr s) ‹_› (by
        rw [setLeaf_slot, setIndirect_slot, setLeaf_slot, Function.update_comm Sum.inr_ne_inl])
    · exact owned_allocateIndirects hc h

/-- One round of `BlocksSwap`: the new block is held apart, the old one freed, the indirect
blocks on the path created, and the new block put in the emptied pointer. -/
theorem owned_swapBlock {c c' : Ctx} {b v : ℕ} (hs : swapBlock F c b = .ok (v, c'))
    (h : Owned U c.fs.allocator.used c.file.inode.tree) :
    Owned U c'.fs.allocator.used c'.file.inode.tree := by
  unfold swapBlock at hs
  dsimp only at hs
  rw [ite_withTree] at hs
  obtain ⟨⟨n, fs₁, t₁⟩, h₁, h₂⟩ := bind_eq_ok.1 hs
  obtain ⟨c₂, h₃, h₄⟩ := bind_eq_ok.1 h₂
  obtain ⟨rfl, rfl⟩ := Prod.mk.inj (Except.ok.inj h₄)
  obtain ⟨a, ha, hau, hn⟩ := Vfs.blockSwap_allocator h₁
  obtain ⟨-, -, -, -, hn0, -⟩ := Vfs.blockSwap_spec h₁
  have h₅ : Owned (insert n U) fs₁.allocator.used (c.file.inode.tree.setLeaf b 0) := by
    rw [ha]
    exact (hau ▸ h.hold hn).free (x := .inl b) (setLeaf_slot _ _ _)
  unfold setBlk at h₃
  rw [if_neg hn0] at h₃
  obtain ⟨c₃, h₆, h₇⟩ := bind_eq_ok.1 h₃
  cases h₇
  dsimp only [Ctx.withTree]
  rw [Vfs.subtractDirtyBytes_allocator]
  exact (owned_allocateIndirects h₆ h₅).claim (x := .inl b)
    (by rw [setLeaf_slot, Function.update_same]) hn0 (h.not_mem_left hn)
    (by rw [setLeaf_slot, setLeaf_slot, Function.update_idem])

theorem owned_commit {c : Ctx} {fs : Vfs} {f : File} (h : allocateAndCommitData F c = .ok (fs, f))
    (hc : Owned U c.fs.allocator.used c.file.inode.tree) :
    Owned U fs.allocator.used f.inode.tree := by
  obtain ⟨c', h₁, rfl, rfl, -⟩ := allocateAndCommitData_spec F h
  exact allocateAndCommitLoop_preserves F (fun c => Owned U c.fs.allocator.used c.file.inode.tree)
    (fun hc _ h => owned_swapBlock F h hc)
    (fun hc h => by obtain ⟨-, rfl⟩ := enqueueRange_spec h; exact hc)
    (fun hc _ h => by rw [finishAllocation_eq] at h; cases h; exact hc) hc h₁

/-- Every step keeps the blocks in use those of the rest of the disk and the tree's, apart. -/
theorem owned_step {a b : OpState} (h : Step F a b)
    (ha : Owned U a.fs.allocator.used a.file.inode.tree) :
    Owned U b.fs.allocator.used b.file.inode.tree := by
  cases h with
  | take | drop | cache _ _ | setSize _ | touch | cancel => exact ha
  | start h =>
    obtain ⟨a', rfl, -, hu, -⟩ := Vfs.beginTransaction_spec h
    exact hu ▸ ha
  | @extend fs f t n =>
    obtain ⟨a', k, h₁, -, hu, -⟩ := Vfs.extendBlockReservation_spec fs t n
    exact (congrArg (·.allocator.used) h₁).trans hu ▸ ha
  | commit h => exact owned_commit F h ha
  | acquire b _ =>
    rw [acquireBlocks_allocator, acquireBlocks_inode]
    exact ha
  | @deleteData fs f _ b =>
    rw [deleteBlocks_singleton]
    dsimp only
    rw [deleteBlock_allocator_eq_free, deleteBlock_tree]
    exact ha.free (x := .inl b) (setLeaf_slot _ _ _)
  | @deleteIndirect fs f _ s =>
    rw [freeEmptyIndirects_singleton]
    split
    · dsimp only
      rw [deleteBlock_allocator_eq_free, deleteBlock_tree]
      exact ha.free (x := .inr s) (setIndirect_slot _ _ _)
    · exact ha

end Steps

/-- Along every run of operations on a new file, the blocks in use are those in use at the start
and the blocks of the file's tree, apart, and no block is pointed at twice. -/
theorem runOps_owned (F : Format) (fs₀ : Vfs) (ops : List FileOp) {fs : Vfs} {f : File}
    (h : runOps F ops (fs₀, .empty) = .ok (fs, f)) :
    Owned fs₀.allocator.used fs.allocator.used f.inode.tree :=
  steps_preserve F (fun a => Owned fs₀.allocator.used a.fs.allocator.used a.file.inode.tree)
    (owned_step F) (runOps_steps F ops h) (Owned.init _)

theorem runOps_owned_write_sync : ∃ fs f,
    runOps .minfs [.write kMinfsBlockSize 0 kMinfsBlockSize, .sync] (.sample, .empty) =
      .ok (fs, f) ∧ Owned Vfs.sample.allocator.used fs.allocator.used f.inode.tree :=
  ⟨_, _, rfl, runOps_owned .minfs _ [.write kMinfsBlockSize 0 kMinfsBlockSize, .sync] rfl⟩

section Linked

variable (F : Format)

theorem linked_commit {c : Ctx} {fs : Vfs} {f : File} (h : allocateAndCommitData F c = .ok (fs, f))
    (hc : c.file.inode.tree.Linked F) : f.inode.tree.Linked F := by
  obtain ⟨c', h₁, -, rfl, -⟩ := allocateAndCommitData_spec F h
  exact allocateAndCommitLoop_preserves F (fun c => c.file.inode.tree.Linked F)
    (fun hc _ h => by
      obtain ⟨a, t, r, rfl, -, hptr, hind, -⟩ := swapBlock_spec F h
      exact hc.of_path hptr hind)
    (fun hc h => by obtain ⟨-, rfl⟩ := enqueueRange_spec h; exact hc)
    (fun hc _ h => by rw [finishAllocation_eq] at h; cases h; exact hc) hc h₁

theorem linked_step {a b : OpState} (h : Step F a b) (ha : a.file.inode.tree.Linked F) :
    b.file.inode.tree.Linked F := by
  cases h with
  | take | start _ | extend _ | drop | cache _ _ | setSize _ | touch | cancel => exact ha
  | commit h => exact linked_commit F h ha
  | acquire b _ =>
    rw [acquireBlocks_inode]
    exact ha
  | deleteData b =>
    rw [deleteBlocks_singleton]
    dsimp only
    rw [deleteBlock_tree]
    exact ha.setLeaf_zero b
  | deleteIndirect s =>
    rw [freeEmptyIndirects_singleton]
    split
    · rename_i hs
      dsimp only
      rw [deleteBlock_tree]
      exact ha.setIndirect_zero hs.2
    · exact ha

end Linked

end Minfs
