import Mathlib.Logic.Relation
import Minfs.Proofs.Swap
import Minfs.Reachable

/-!
# `AllocateAndCommitData` drains the pending set

Each round of the loop takes the lowest run of pending blocks (`GetNextRange`), swaps it in
(`BlocksSwap`) and enqueues one write per block. A run is never empty and leaves the pending set,
so the count of pending blocks falls every round and the loop's `while (true)` ends within one
round per pending block and one more (`allocateAndCommitLoop_ok`).

What the loop needs is `Ready`: at most `max_blocks` blocks pending, none past the file's
in-memory size, and a reservation covering the drain (`Funded`). The writes enqueued so far are
described by `Enqueued`: each block that has left the pending set is written once, as a
one-block write to the disk block now mapped there.

The states the loop runs its rounds on are those `DrainRound` reaches from the state it starts
in (`allocateAndCommitLoop_rounds`); a round only takes blocks out of the pending set.
-/

namespace Minfs

variable (F : Format)

/-- The exit always succeeds: the inode takes the in-memory size and nothing stays pending. -/
theorem finishAllocation_eq (c : Ctx) : finishAllocation c = .ok
    { c with file := { c.file with
      inode := { c.file.inode with size := c.file.allocationState.getNodeSize },
      allocationState := .reset c.file.allocationState.getNodeSize } } := by
  unfold finishAllocation
  by_cases h : c.file.inode.size = c.file.allocationState.getNodeSize <;>
    simp only [h, ne_eq, not_true_eq_false, not_false_eq_true, ite_true, ite_false]
  · rw [← h]; rfl
  · rfl

/-- The rest of a round, when the run ends inside the file. -/
theorem enqueueRange_eq {c : Ctx} {start count : ℕ} (bnos : List ℕ)
    (hl : (start + count) * kMinfsBlockSize % 2 ^ 32 ≤
      roundUp c.file.allocationState.getNodeSize kMinfsBlockSize) :
    enqueueRange c start count bnos = .ok ⟨c.fs,
      { c.file with
        inode := { c.file.inode with
          size := advanceSize c.file.inode.size c.file.allocationState.getNodeSize
            ((start + count) * kMinfsBlockSize % 2 ^ 32) } },
      { c.txn with
        data := c.txn.data ++ dataOperations c.fs.datBlock start bnos, pinned := true }⟩ := by
  unfold enqueueRange
  simp only [not_lt.2 hl, ite_false, pure_bind]
  rfl

theorem enqueueRange_spec {c c' : Ctx} {start count : ℕ} {bnos : List ℕ}
    (h : enqueueRange c start count bnos = .ok c') :
    (start + count) * kMinfsBlockSize % 2 ^ 32 ≤
      roundUp c.file.allocationState.getNodeSize kMinfsBlockSize ∧
    c' = ⟨c.fs,
      { c.file with
        inode := { c.file.inode with
          size := advanceSize c.file.inode.size c.file.allocationState.getNodeSize
            ((start + count) * kMinfsBlockSize % 2 ^ 32) } },
      { c.txn with
        data := c.txn.data ++ dataOperations c.fs.datBlock start bnos, pinned := true }⟩ := by
  by_cases hl : (start + count) * kMinfsBlockSize % 2 ^ 32 ≤
      roundUp c.file.allocationState.getNodeSize kMinfsBlockSize
  · rw [enqueueRange_eq bnos hl] at h
    exact ⟨hl, (Except.ok.inj h).symm⟩
  · unfold enqueueRange at h
    simp only [not_le.1 hl, ite_true, throw_bind] at h
    exact absurd h (throw_ne_ok _ _)

/-- What one round of the loop can do: stop, when nothing is pending, or swap the next run,
finish the round and go on. -/
theorem allocateAndCommitLoop_cases {m fuel : ℕ} {c c' : Ctx}
    (h : allocateAndCommitLoop F m (fuel + 1) c = .ok c') :
    c.file.allocationState.getTotalPending ≤ m ∧
    ((c.file.allocationState.getTotalPending = 0 ∧ finishAllocation c = .ok c') ∨
      ∃ start count bnos c₁ c₂, c.file.allocationState.getNextRange = some (start, count) ∧
        count ≤ m ∧ blocksSwap F c start count = .ok (bnos, c₁) ∧
        enqueueRange c₁ start count bnos = .ok c₂ ∧
        allocateAndCommitLoop F m fuel c₂ = .ok c') := by
  rw [allocateAndCommitLoop] at h
  by_cases hm : m < c.file.allocationState.getTotalPending
  · simp [hm] at h
  refine ⟨not_lt.1 hm, ?_⟩
  simp only [hm, ite_false, pure_bind] at h
  split at h
  · exact .inl ⟨‹_›, h⟩
  · right
    split at h
    · rename_i start count hr
      split at h
      · simp at h
      · obtain ⟨⟨bnos, c₁⟩, h₁, h₂⟩ := bind_eq_ok.1 h
        obtain ⟨c₂, h₃, h₄⟩ := bind_eq_ok.1 h₂
        exact ⟨start, count, bnos, c₁, c₂, hr, not_lt.1 ‹_›, h₁, h₃, h₄⟩
    · simp at h

theorem allocateAndCommitLoop_of_empty {m fuel : ℕ} {c : Ctx}
    (hz : c.file.allocationState.getTotalPending = 0) :
    allocateAndCommitLoop F m (fuel + 1) c = finishAllocation c := by
  rw [allocateAndCommitLoop]
  simp [hz]

theorem allocateAndCommitLoop_of_range {m fuel : ℕ} {c : Ctx} {start count : ℕ}
    (hm : c.file.allocationState.getTotalPending ≤ m)
    (hz : c.file.allocationState.getTotalPending ≠ 0)
    (hr : c.file.allocationState.getNextRange = some (start, count)) (hc : count ≤ m) :
    allocateAndCommitLoop F m (fuel + 1) c = blocksSwap F c start count >>= fun r =>
      enqueueRange r.2 start count r.1 >>= allocateAndCommitLoop F m fuel := by
  rw [allocateAndCommitLoop]
  simp only [not_lt.2 hm, hz, hr, not_lt.2 hc, ite_false, pure_bind]

/-- What every swap of a pending block, the rest of every round and the exit keep, the whole
loop keeps. -/
theorem allocateAndCommitLoop_preserves (P : Ctx → Prop)
    (hswap : ∀ {c c' : Ctx} {b v : ℕ}, P c → b ∈ c.file.allocationState.pending →
      swapBlock F c b = .ok (v, c') → P c')
    (henq : ∀ {c c' : Ctx} {start count : ℕ} {bnos : List ℕ}, P c →
      enqueueRange c start count bnos = .ok c' → P c')
    (hfin : ∀ {c c' : Ctx}, P c → c.file.allocationState.pending = ∅ →
      finishAllocation c = .ok c' → P c') {m : ℕ} :
    ∀ {fuel : ℕ} {c c' : Ctx}, P c → allocateAndCommitLoop F m fuel c = .ok c' → P c'
  | 0, _, _, _, h => by cases h
  | fuel + 1, c, c', hc, h => by
    rcases (allocateAndCommitLoop_cases F h).2 with
      ⟨hz, hf⟩ | ⟨start, count, bnos, c₁, c₂, hr, -, hs, hq, hl⟩
    · exact hfin hc (Finset.card_eq_zero.1 hz) hf
    · have h₁ := blocksSwap_preserves F P hswap hc (AllocationState.getNextRange_spec hr).2.2 hs
      exact allocateAndCommitLoop_preserves P hswap henq hfin (henq h₁ hq) hl

/-- One round of `AllocateAndCommitData`'s loop: the next run of pending blocks is swapped in and
enqueued. -/
def DrainRound (c c' : Ctx) : Prop :=
  ∃ start count bnos c₁, c.file.allocationState.getNextRange = some (start, count) ∧
    blocksSwap F c start count = .ok (bnos, c₁) ∧ enqueueRange c₁ start count bnos = .ok c'

/-- The loop goes round after round from the state it starts in, and exits from the last. -/
theorem allocateAndCommitLoop_rounds {m : ℕ} : ∀ {fuel : ℕ} {c c' : Ctx},
    allocateAndCommitLoop F m fuel c = .ok c' →
      ∃ c₁, Relation.ReflTransGen (DrainRound F) c c₁ ∧ finishAllocation c₁ = .ok c'
  | 0, _, _, h => by cases h
  | fuel + 1, c, c', h => by
    rcases (allocateAndCommitLoop_cases F h).2 with
      ⟨-, hf⟩ | ⟨start, count, bnos, c₁, c₂, hr, -, hs, hq, hl⟩
    · exact ⟨c, .refl, hf⟩
    · obtain ⟨c₃, hc₃, hf⟩ := allocateAndCommitLoop_rounds hl
      exact ⟨c₃, .head ⟨start, count, bnos, c₁, hr, hs, hq⟩ hc₃, hf⟩

/-- A round only takes blocks out of the pending set. -/
theorem DrainRound.pending_subset {c c' : Ctx} (h : DrainRound F c c') :
    c'.file.allocationState.pending ⊆ c.file.allocationState.pending := by
  obtain ⟨start, count, bnos, c₁, hr, hs, hq⟩ := h
  have h₁ : c₁.file.allocationState.pending ⊆ c.file.allocationState.pending :=
    blocksSwap_preserves F (fun c' => c'.file.allocationState.pending ⊆
      c.file.allocationState.pending) (fun hc _ h => by
        obtain ⟨a, t, r, rfl, -⟩ := swapBlock_spec F h
        exact (Finset.erase_subset _ _).trans hc) subset_rfl
      (AllocationState.getNextRange_spec hr).2.2 hs
  obtain ⟨-, rfl⟩ := enqueueRange_spec hq
  exact h₁

theorem DrainRound.pending_subset_of_reaches {c c₁ : Ctx}
    (h : Relation.ReflTransGen (DrainRound F) c c₁) :
    c₁.file.allocationState.pending ⊆ c.file.allocationState.pending := by
  induction h with
  | refl => exact subset_rfl
  | tail _ hround ih => exact (DrainRound.pending_subset F hround).trans ih

/-- `AllocateAndCommitData` hands back the file the loop ends with, and commits its
transaction. -/
theorem allocateAndCommitData_spec {c : Ctx} {fs : Vfs} {f : File}
    (h : allocateAndCommitData F c = .ok (fs, f)) :
    ∃ c', allocateAndCommitLoop F (maxBlocks F c.fs) (c.file.allocationState.getTotalPending + 1)
      c = .ok c' ∧ fs = c'.fs.commitTransaction c'.txn ∧ f = c'.file ∧
      c'.file.allocationState.pending = ∅ := by
  obtain ⟨c', h₁, h₂⟩ := bind_eq_ok.1 h
  refine ⟨c', h₁, ?_⟩
  split at h₂
  · cases h₂
  · obtain ⟨rfl, rfl⟩ := Prod.mk.inj (Except.ok.inj h₂)
    exact ⟨rfl, rfl, Finset.card_eq_zero.1 (not_not.1 ‹_›)⟩

/-- `b` is below `⌈size / BlockSize⌉` exactly when its last byte is within the rounded size. -/
theorem lt_ceil_iff (b size : ℕ) :
    b < (size + kMinfsBlockSize - 1) / kMinfsBlockSize ↔
      (b + 1) * kMinfsBlockSize ≤ roundUp size kMinfsBlockSize := by
  simp only [roundUp, kMinfsBlockSize]
  omega

/-- The data writes enqueued in a drain of the pending set `P`: one for each block that has left
it, each of one block, to the disk block now mapped there. -/
structure Enqueued (P : Finset ℕ) (c : Ctx) (ops : List Operation) : Prop where
  nodup : (ops.map (·.vmoOffset)).Nodup
  covers : (ops.map (·.vmoOffset)).toFinset ∪ c.file.allocationState.pending = P
  not_pending : ∀ op ∈ ops, op.vmoOffset ∉ c.file.allocationState.pending
  mapped : ∀ op ∈ ops,
    op.length = 1 ∧ op.devOffset = c.file.inode.tree.ptr op.vmoOffset + c.fs.datBlock

theorem Enqueued.init (c : Ctx) : Enqueued c.file.allocationState.pending c [] :=
  ⟨List.nodup_nil, by simp, by simp, by simp⟩

/-- Swapping a pending run and enqueuing its writes keeps the description. -/
theorem Enqueued.swap {P : Finset ℕ} {c c₁ : Ctx} {ops : List Operation} {start count : ℕ}
    {bnos : List ℕ} (he : Enqueued P c ops)
    (hrun : ∀ i < count, start + i ∈ c.file.allocationState.pending)
    (hs : blocksSwap F c start count = .ok (bnos, c₁)) :
    Enqueued P c₁ (ops ++ dataOperations c.fs.datBlock start bnos) := by
  obtain ⟨a, t, r, m, s, rfl, hp, -, -, hptr, hops⟩ := blocksSwap_spec F hs
  obtain ⟨hmap, hnew⟩ := hops c.fs.datBlock
  have hIco : ∀ x, start ≤ x → x < start + count → x ∈ c.file.allocationState.pending := by
    intro x h₁ h₂
    simpa [Nat.add_sub_cancel' h₁] using hrun (x - start) (by omega)
  have hout : ∀ op ∈ ops, op.vmoOffset ∉ Finset.Ico start (start + count) := by
    intro op hop hx
    rw [Finset.mem_Ico] at hx
    exact he.not_pending op hop (hIco _ hx.1 hx.2)
  have hnew_mem : ∀ op ∈ dataOperations c.fs.datBlock start bnos,
      start ≤ op.vmoOffset ∧ op.vmoOffset < start + count := by
    intro op hop
    have := List.mem_map_of_mem (·.vmoOffset) hop
    rwa [hmap, List.mem_range'_1] at this
  refine ⟨?_, ?_, ?_, ?_⟩
  · rw [List.map_append, hmap]
    refine he.nodup.append (List.nodup_range' _ _) fun x hx hx' => ?_
    obtain ⟨op, hop, rfl⟩ := List.mem_map.1 hx
    rw [List.mem_range'_1] at hx'
    exact hout op hop (Finset.mem_Ico.2 hx')
  · rw [← he.covers, hp, List.map_append, hmap, List.toFinset_append]
    ext x
    simp only [Finset.mem_union, Finset.mem_sdiff, List.mem_toFinset, List.mem_range'_1,
      Finset.mem_Ico]
    constructor
    · rintro ((h | ⟨h₁, h₂⟩) | ⟨h, -⟩)
      exacts [.inl h, .inr (hIco x h₁ h₂), .inr h]
    · rintro (h | h)
      · exact .inl (.inl h)
      · exact (em (start ≤ x ∧ x < start + count)).imp .inr (⟨h, ·⟩)
  · intro op hop
    simp only [hp, Finset.mem_sdiff, not_and, not_not]
    rcases List.mem_append.1 hop with hop | hop
    · exact fun h => absurd h (he.not_pending op hop)
    · exact fun _ => Finset.mem_Ico.2 (hnew_mem op hop)
  · intro op hop
    rcases List.mem_append.1 hop with hop | hop
    · rw [hptr _ (hout op hop)]
      exact he.mapped op hop
    · exact hnew op hop

/-- What `AllocateAndCommitData`'s loop needs of a state: at most `m` blocks pending, none past
the file's in-memory size, and a reservation covering their drain. -/
structure Ready (m : ℕ) (c : Ctx) : Prop where
  pending_le : c.file.allocationState.getTotalPending ≤ m
  inside : ∀ b ∈ c.file.allocationState.pending,
    (b + 1) * kMinfsBlockSize ≤ roundUp c.file.allocationState.getNodeSize kMinfsBlockSize
  funded : Funded F c

/-- A round from a ready state: the swap and the rest of the round succeed, the state stays
ready, and fewer blocks are pending. -/
theorem Ready.round {m : ℕ} {c : Ctx} {start count : ℕ} (hc : Ready F m c)
    (hr : c.file.allocationState.getNextRange = some (start, count)) :
    ∃ bnos c₁ c₂, blocksSwap F c start count = .ok (bnos, c₁) ∧
      enqueueRange c₁ start count bnos = .ok c₂ ∧ Ready F m c₂ ∧
      c₂.file.allocationState.getTotalPending < c.file.allocationState.getTotalPending ∧
      c₂.file.allocationState.nodeSize = c.file.allocationState.nodeSize := by
  obtain ⟨hpos, -, hrun⟩ := AllocationState.getNextRange_spec hr
  obtain ⟨bnos, c₁, hs⟩ := blocksSwap_ok F hc.funded hrun
  have hf₁ := blocksSwap_preserves F (Funded F) (funded_swapBlock F) hc.funded hrun hs
  obtain ⟨a, t, r, k, s, rfl, hp, -, hns, -⟩ := blocksSwap_spec F hs
  have hlast : (start + count) * kMinfsBlockSize ≤
      roundUp c.file.allocationState.getNodeSize kMinfsBlockSize := by
    have := hc.inside _ (hrun (count - 1) (by omega))
    rwa [show start + (count - 1) + 1 = start + count by omega] at this
  have hsub : Finset.Ico start (start + count) ⊆ c.file.allocationState.pending := by
    intro x hx
    rw [Finset.mem_Ico] at hx
    simpa [Nat.add_sub_cancel' hx.1] using hrun (x - start) (by omega)
  have hcard : (c.file.allocationState.pending \ Finset.Ico start (start + count)).card <
      c.file.allocationState.pending.card := by
    have := Finset.card_pos.2 ⟨start, hsub (Finset.mem_Ico.2 ⟨le_rfl, by omega⟩)⟩
    rw [Finset.card_sdiff hsub, Nat.card_Ico]
    omega
  refine ⟨bnos, _, _, hs, enqueueRange_eq bnos ?_, ⟨?_, ?_, hf₁.1, hf₁.2⟩, ?_, hns⟩
  · simp only [AllocationState.getNodeSize, hns]
    exact (Nat.mod_le _ _).trans hlast
  · simp only [AllocationState.getTotalPending, hp] at hcard ⊢
    exact hcard.le.trans hc.pending_le
  · intro b hb
    simp only [AllocationState.getNodeSize, hns, hp, Finset.mem_sdiff] at hb ⊢
    exact hc.inside b hb.1
  · simpa [AllocationState.getTotalPending, hp] using hcard

/-- The loop from a ready state, with one round of fuel per pending block and one more: it ends
with nothing pending, the inode at the in-memory size, and one write enqueued for each block
that was pending. -/
theorem allocateAndCommitLoop_ok (m : ℕ) (P : Finset ℕ) (base : List Operation) :
    ∀ (fuel : ℕ) (c : Ctx) (ops : List Operation),
      c.file.allocationState.getTotalPending < fuel → Ready F m c → Enqueued P c ops →
      c.txn.data = base ++ ops →
      ∃ c' ops', allocateAndCommitLoop F m fuel c = .ok c' ∧ c'.txn.data = base ++ ops' ∧
        Enqueued P c' ops' ∧ c'.file.allocationState.pending = ∅ ∧
        c'.file.allocationState.newPending = ∅ ∧
        c'.file.inode.size = c'.file.allocationState.getNodeSize ∧
        c'.file.allocationState.nodeSize = c.file.allocationState.nodeSize ∧
        c'.fs.committed = c.fs.committed ∧ c'.fs.datBlock = c.fs.datBlock
  | 0, _, _, hfuel, _, _, _ => absurd hfuel (Nat.not_lt_zero _)
  | fuel + 1, c, ops, hfuel, hc, he, hdata => by
    by_cases hz : c.file.allocationState.getTotalPending = 0
    · rw [allocateAndCommitLoop_of_empty F hz, finishAllocation_eq]
      have hp : c.file.allocationState.pending = ∅ := Finset.card_eq_zero.1 hz
      refine ⟨_, ops, rfl, hdata, ⟨he.nodup, ?_, by simp, he.mapped⟩, rfl, rfl, rfl, rfl, rfl,
        rfl⟩
      simpa [hp] using he.covers
    · rcases hr : c.file.allocationState.getNextRange with _ | ⟨start, count⟩
      · exact absurd (AllocationState.getNextRange_eq_none.1 hr) hz
      obtain ⟨-, hcount, hrun⟩ := AllocationState.getNextRange_spec hr
      obtain ⟨bnos, c₁, c₂, hs, hq, hc₂, hlt, hns⟩ := hc.round F hr
      have he₂ := he.swap F hrun hs
      obtain ⟨hl, rfl⟩ := enqueueRange_spec hq
      obtain ⟨a, t, r, k, s, rfl, -⟩ := blocksSwap_spec F hs
      obtain ⟨c', ops', h', hdata', he', hp, hnp, hsize, hns', hcom, hdat⟩ :=
        allocateAndCommitLoop_ok m P base fuel _ _ (by omega) hc₂
          ⟨he₂.nodup, he₂.covers, he₂.not_pending, he₂.mapped⟩ (by simp [hdata])
      refine ⟨c', ops', ?_, hdata', he', hp, hnp, hsize, hns'.trans hns, hcom, hdat⟩
      rw [allocateAndCommitLoop_of_range F hc.pending_le hz hr (hcount.trans hc.pending_le), hs]
      exact bind_eq_ok.2 ⟨_, rfl, bind_eq_ok.2 ⟨_, enqueueRange_eq bnos hl, h'⟩⟩

/-- `AllocateAndCommitData` on a transaction whose reservation covers the drain, with at most
`max_blocks` blocks pending, all below `⌈node_size / BlockSize⌉`: it returns, having committed,
after the transaction's earlier writes, one write of one block for each pending block, to the
disk block `BlocksSwap` mapped there (plus `dat_block`). Nothing is left pending and the inode
takes the in-memory size. The loop runs with one round per pending block and one more, so it
swaps at most `GetTotalPending()` runs. -/
theorem allocateAndCommitData_drains (c : Ctx)
    (hmax : c.file.allocationState.getTotalPending ≤ maxBlocks F c.fs)
    (hinside : ∀ b ∈ c.file.allocationState.pending,
      b < (c.file.allocationState.getNodeSize + kMinfsBlockSize - 1) / kMinfsBlockSize)
    (hfunded : Funded F c) :
    ∃ fs f ops, allocateAndCommitData F c = .ok (fs, f) ∧
      fs.committed = c.fs.committed ++ c.txn.data ++ ops ∧
      (ops.map (·.vmoOffset)).Nodup ∧
      (ops.map (·.vmoOffset)).toFinset = c.file.allocationState.pending ∧
      (∀ op ∈ ops,
        op.length = 1 ∧ op.devOffset = f.inode.tree.ptr op.vmoOffset + c.fs.datBlock) ∧
      f.allocationState.getTotalPending = 0 ∧ f.allocationState.getNewPending = 0 ∧
      f.inode.size = f.allocationState.getNodeSize ∧
      f.allocationState.getNodeSize = c.file.allocationState.getNodeSize := by
  have hready : Ready F (maxBlocks F c.fs) c :=
    ⟨hmax, fun b hb => (lt_ceil_iff b _).1 (hinside b hb), hfunded⟩
  obtain ⟨c', ops, h, hdata, he, hp, hnp, hsize, hns, hcom, hdat⟩ :=
    allocateAndCommitLoop_ok F _ _ c.txn.data _ c [] (Nat.lt_succ_self _) hready
      (Enqueued.init c) (List.append_nil _).symm
  have hcommit : allocateAndCommitData F c = .ok (c'.fs.commitTransaction c'.txn, c'.file) := by
    unfold allocateAndCommitData
    rw [h]
    simp [AllocationState.getTotalPending, hp]
    rfl
  refine ⟨_, _, ops, hcommit, by simp [Vfs.commitTransaction, hdata, hcom], he.nodup,
    by simpa [hp] using he.covers, fun op hop => hdat ▸ he.mapped op hop,
    by simp [AllocationState.getTotalPending, hp],
    by simp [AllocationState.getNewPending, hnp], hsize, hns⟩

/-- The cached transaction of a two-block write, flushed as `FlushCachedWrites` flushes it. -/
theorem allocateAndCommitData_drains_cached_write :
    ∃ fs f txn, runOps .minfs [.write (2 * kMinfsBlockSize) 0 (2 * kMinfsBlockSize)]
        (.sample, .empty) = .ok (fs, f) ∧ f.cachedTransaction = some txn ∧
      (f.allocationState.getTotalPending ≤ maxBlocks .minfs fs ∧
        (∀ b ∈ f.allocationState.pending,
          b < (f.allocationState.getNodeSize + kMinfsBlockSize - 1) / kMinfsBlockSize) ∧
        Funded .minfs ⟨fs, { f with cachedTransaction := none }, txn⟩) ∧
      ∃ fs' f' ops, allocateAndCommitData .minfs ⟨fs, { f with cachedTransaction := none }, txn⟩ =
          .ok (fs', f') ∧
        fs'.committed = fs.committed ++ txn.data ++ ops ∧
        (ops.map (·.vmoOffset)).Nodup ∧
        (ops.map (·.vmoOffset)).toFinset = f.allocationState.pending ∧
        (∀ op ∈ ops,
          op.length = 1 ∧ op.devOffset = f'.inode.tree.ptr op.vmoOffset + fs.datBlock) ∧
        f'.allocationState.getTotalPending = 0 ∧ f'.allocationState.getNewPending = 0 ∧
        f'.inode.size = f'.allocationState.getNodeSize ∧
        f'.allocationState.getNodeSize = f.allocationState.getNodeSize :=
  ⟨_, _, _, rfl, rfl, ⟨by decide, by decide, ⟨by decide, by decide⟩⟩,
    allocateAndCommitData_drains .minfs _ (by decide) (by decide) ⟨by decide, by decide⟩⟩

end Minfs
