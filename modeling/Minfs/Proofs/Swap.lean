import Mathlib.Order.Interval.Finset.Nat
import Minfs.File

/-!
# What a swap takes and gives

`SetBlk` creates the indirect blocks a pointer needs (`allocateIndirects_spec`); one round of
`BlocksSwap` gives a pending block a fresh disk block, one more reserved block per indirect block
created, and drops its pending mark (`swapBlock_spec`). Each is stated as the one shape the result
can have, so that callers never unfold the functions; `allocateIndirects_ok` and `swapBlock_ok`
say when they cannot fail: the reservation covers what they take.
-/

namespace Minfs

variable (F : Format)

theorem allocateIndirects_spec : ∀ {c c' : Ctx} {L : List IndirectSlot},
    allocateIndirects c L = .ok c' →
    ∃ (a : Allocator) (t : BlockMap) (r m : ℕ),
      c' = ⟨{ c.fs with allocator := a },
        { c.file with inode := { c.file.inode with tree := t, blockCount := m } },
        { c.txn with reserved := r }⟩ ∧
      m = c.file.inode.blockCount + (c.file.inode.tree.missing L).card ∧
      t.ptr = c.file.inode.tree.ptr ∧
      (∀ s, t.ind s = 0 ↔ c.file.inode.tree.ind s = 0 ∧ s ∉ L) ∧
      t.nonzeroCount = c.file.inode.tree.nonzeroCount + (c.file.inode.tree.missing L).card ∧
      c.txn.reserved = r + (c.file.inode.tree.missing L).card ∧
      c.fs.allocator.reserved = a.reserved + (c.file.inode.tree.missing L).card
  | c, c', [], h => by
    cases h
    exact ⟨c.fs.allocator, c.file.inode.tree, c.txn.reserved, _, rfl, by simp, rfl, by simp,
      by simp, by simp, by simp⟩
  | c, c', s :: ss, h => by
    unfold allocateIndirects at h
    split at h
    · rename_i hs
      obtain ⟨⟨n, fs₁, t₁⟩, h₁, h₂⟩ := bind_eq_ok.1 h
      obtain ⟨a, r, rfl, rfl, hn, ha, hr, -⟩ := Vfs.blockNew_spec h₁
      obtain ⟨a', t', r', m', rfl, hm, hptr, hind, hcount, hr', ha'⟩ := allocateIndirects_spec h₂
      have hk := BlockMap.missing_cons_of_eq_zero ss hs hn
      simp only [Ctx.withTree] at hm hptr hind hcount hr' ha'
      refine ⟨a', t', r', m', rfl, by omega, by simpa using hptr, fun x => ?_, ?_, by omega,
        by omega⟩
      · by_cases hx : x = s <;> simp_all
      · rw [hcount, BlockMap.setIndirect_nonzeroCount_of_eq_zero hs hn]
        omega
    · rename_i hs
      obtain ⟨a', t', r', m', rfl, hm, hptr, hind, hcount, hr', ha'⟩ := allocateIndirects_spec h
      rw [BlockMap.missing_cons_of_ne_zero ss hs]
      refine ⟨a', t', r', m', rfl, hm, hptr, fun x => ?_, hcount, hr', ha'⟩
      by_cases hx : x = s
      · subst hx; simp [hind, hs]
      · simp [hind, hx]

theorem allocateIndirects_ok : ∀ (c : Ctx) (L : List IndirectSlot),
    (c.file.inode.tree.missing L).card ≤ c.txn.reserved →
    c.txn.reserved ≤ c.fs.allocator.reserved → ∃ c', allocateIndirects c L = .ok c'
  | c, [], _, _ => ⟨c, rfl⟩
  | c, s :: ss, hk, hr => by
    unfold allocateIndirects
    split
    · rename_i hs
      have hc : 0 < c.txn.reserved := by
        have := BlockMap.missing_cons_of_eq_zero ss hs (n := 1) one_ne_zero
        omega
      obtain ⟨n, fs₁, t₁, h₁⟩ := Vfs.blockNew_ok c.fs c.txn hc (by omega)
      obtain ⟨a, r, rfl, rfl, hn, ha, hr₁, -⟩ := Vfs.blockNew_spec h₁
      have hk' := BlockMap.missing_cons_of_eq_zero ss hs hn
      obtain ⟨c', h'⟩ := allocateIndirects_ok
        ({ c with fs := { c.fs with allocator := a }, txn := { c.txn with reserved := r } }.withTree
          (c.file.inode.tree.setIndirect s n) 1) ss
        (by dsimp only [Ctx.withTree]; omega) (by dsimp only [Ctx.withTree]; omega)
      exact ⟨c', bind_eq_ok.2 ⟨_, h₁, h'⟩⟩
    · rename_i hs
      rw [BlockMap.missing_cons_of_ne_zero ss hs] at hk
      exact allocateIndirects_ok c ss hk hr

/-- `SetBlk` to a block: the path's missing indirect blocks are created, then the pointer set. -/
theorem setBlk_spec {c c' : Ctx} {b v : ℕ} (hv : v ≠ 0) (h : setBlk F c b v = .ok c') :
    ∃ a t r, c' = ⟨{ c.fs with allocator := a },
        { c.file with inode := { c.file.inode with tree := t, blockCount :=
          c.file.inode.blockCount + (c.file.inode.tree.missing (F.indirectPath b)).card } },
        { c.txn with reserved := r }⟩ ∧
      t.ptr = Function.update c.file.inode.tree.ptr b v ∧
      (∀ s, t.ind s = 0 ↔ c.file.inode.tree.ind s = 0 ∧ s ∉ F.indirectPath b) ∧
      t.nonzeroCount = c.file.inode.tree.nonzeroCount +
        (c.file.inode.tree.missing (F.indirectPath b)).card +
        (if c.file.inode.tree.ptr b = 0 then 1 else 0) ∧
      c.txn.reserved = r + (c.file.inode.tree.missing (F.indirectPath b)).card ∧
      c.fs.allocator.reserved =
        a.reserved + (c.file.inode.tree.missing (F.indirectPath b)).card := by
  unfold setBlk at h
  rw [if_neg hv] at h
  obtain ⟨c₁, h₁, h₂⟩ := bind_eq_ok.1 h
  cases h₂
  obtain ⟨a, t, r, m, rfl, rfl, hptr, hind, hcount, hr, ha⟩ := allocateIndirects_spec h₁
  refine ⟨a, t.setLeaf b v, r, rfl, by simp [hptr], hind, ?_, hr, ha⟩
  by_cases hb : c.file.inode.tree.ptr b = 0
  · rw [BlockMap.setLeaf_nonzeroCount_of_eq_zero (by rw [hptr]; exact hb) hv, hcount, if_pos hb]
  · rw [BlockMap.setLeaf_nonzeroCount_of_ne_zero (by rw [hptr]; exact hb) hv, hcount, if_neg hb]
    rfl

/-- `BlocksSwap`'s `block_count++` for a hole, as one update. -/
theorem ite_withTree (c : Ctx) (b : ℕ) :
    (if c.file.inode.tree.ptr b = 0 then c.withTree c.file.inode.tree 1 else c) =
      c.withTree c.file.inode.tree (if c.file.inode.tree.ptr b = 0 then 1 else 0) := by
  split <;> rfl

/-- One round of `BlocksSwap` on file block `b`: a new block `v` for it, one block and one more
per indirect block created taken from the reservation, the block's pending mark and dirty bytes
dropped. `block_count` and the tree's non-zero pointers grow alike. -/
theorem swapBlock_spec {c c' : Ctx} {b v : ℕ} (h : swapBlock F c b = .ok (v, c')) :
    ∃ a t r, c' = ⟨{ c.fs with allocator := a, dirtyBytes := c.fs.dirtyBytes - kMinfsBlockSize },
        { c.file with
          inode := { c.file.inode with tree := t, blockCount := c.file.inode.blockCount +
            (if c.file.inode.tree.ptr b = 0 then 1 else 0) +
            (c.file.inode.tree.missing (F.indirectPath b)).card }
          allocationState := c.file.allocationState.clearPending b (c.file.inode.tree.ptr b ≠ 0) },
        { c.txn with reserved := r }⟩ ∧ v ≠ 0 ∧
      t.ptr = Function.update c.file.inode.tree.ptr b v ∧
      (∀ s, t.ind s = 0 ↔ c.file.inode.tree.ind s = 0 ∧ s ∉ F.indirectPath b) ∧
      t.nonzeroCount = c.file.inode.tree.nonzeroCount +
        (if c.file.inode.tree.ptr b = 0 then 1 else 0) +
        (c.file.inode.tree.missing (F.indirectPath b)).card ∧
      c.txn.reserved = r + 1 + (c.file.inode.tree.missing (F.indirectPath b)).card ∧
      c.fs.allocator.reserved = a.reserved + 1 +
        (c.file.inode.tree.missing (F.indirectPath b)).card := by
  unfold swapBlock at h
  dsimp only at h
  rw [ite_withTree] at h
  obtain ⟨⟨n, fs₁, t₁⟩, h₁, h₂⟩ := bind_eq_ok.1 h
  obtain ⟨c₂, h₃, h₄⟩ := bind_eq_ok.1 h₂
  obtain ⟨rfl, rfl⟩ := Prod.mk.inj (Except.ok.inj h₄)
  obtain ⟨a, r, rfl, rfl, hn, ha, hr⟩ := Vfs.blockSwap_spec h₁
  obtain ⟨a', t, r', rfl, hptr, hind, hcount, hr', ha'⟩ := setBlk_spec F hn h₃
  dsimp only [Ctx.withTree] at hptr hind hcount hr hr' ha ha'
  exact ⟨a', t, r', rfl, hn, hptr, hind, by omega, by omega, by omega⟩

theorem setBlk_ok (c : Ctx) (b v : ℕ)
    (hk : (c.file.inode.tree.missing (F.indirectPath b)).card ≤ c.txn.reserved)
    (hr : c.txn.reserved ≤ c.fs.allocator.reserved) : ∃ c', setBlk F c b v = .ok c' := by
  unfold setBlk
  split
  · exact ⟨_, rfl⟩
  · obtain ⟨c', h⟩ := allocateIndirects_ok c _ hk hr
    exact ⟨_, bind_eq_ok.2 ⟨c', h, rfl⟩⟩

/-- A round of `BlocksSwap` cannot fail when the reservation covers the new block and the
indirect blocks on its path. -/
theorem swapBlock_ok (c : Ctx) (b : ℕ)
    (hk : 1 + (c.file.inode.tree.missing (F.indirectPath b)).card ≤ c.txn.reserved)
    (hr : c.txn.reserved ≤ c.fs.allocator.reserved) : ∃ v c', swapBlock F c b = .ok (v, c') := by
  obtain ⟨n, fs₁, t₁, h₁⟩ :=
    Vfs.blockSwap_ok c.fs c.txn (c.file.inode.tree.ptr b) (by omega) (by omega)
  obtain ⟨a, r, rfl, rfl, -, ha, hr₁⟩ := Vfs.blockSwap_spec h₁
  obtain ⟨c₂, h₂⟩ := setBlk_ok F
    { c.withTree c.file.inode.tree (if c.file.inode.tree.ptr b = 0 then 1 else 0) with
      fs := { c.fs with allocator := a }, txn := { c.txn with reserved := r } } b n
    (by dsimp only [Ctx.withTree]; omega) (by dsimp only [Ctx.withTree]; omega)
  unfold swapBlock
  dsimp only
  rw [ite_withTree]
  exact ⟨n, _, bind_eq_ok.2 ⟨_, h₁, bind_eq_ok.2 ⟨c₂, h₂, rfl⟩⟩⟩

/-- What draining the pending set takes from the reservation: a new block for each pending block,
and each indirect block missing on their paths. -/
def File.need (f : File) : ℕ :=
  f.allocationState.pending.card +
    (f.inode.tree.missingFor F f.allocationState.pending).card

/-- The transaction's reservation covers the drain, and the allocator holds it. -/
structure Funded (c : Ctx) : Prop where
  need_le : c.file.need F ≤ c.txn.reserved
  reserved_le : c.txn.reserved ≤ c.fs.allocator.reserved

/-- Swapping a pending block takes exactly what it removes from the need. -/
theorem need_swapBlock {c c' : Ctx} {b v : ℕ} (hb : b ∈ c.file.allocationState.pending)
    (h : swapBlock F c b = .ok (v, c')) :
    c'.file.need F + (c.txn.reserved - c'.txn.reserved) = c.file.need F ∧
      c.txn.reserved - c'.txn.reserved = c.fs.allocator.reserved - c'.fs.allocator.reserved ∧
      c'.txn.reserved ≤ c.txn.reserved := by
  obtain ⟨a, t, r, rfl, -, -, hind, -, hr, ha⟩ := swapBlock_spec F h
  have hk := BlockMap.missingFor_erase hb hind
  have hP := Finset.card_erase_add_one hb
  simp only [File.need, AllocationState.clearPending_pending] at hk hP ⊢
  omega

theorem funded_swapBlock {c c' : Ctx} {b v : ℕ} (hc : Funded F c)
    (hb : b ∈ c.file.allocationState.pending) (h : swapBlock F c b = .ok (v, c')) :
    Funded F c' := by
  obtain ⟨h₁, h₂, h₃⟩ := need_swapBlock F hb h
  exact ⟨by have := hc.need_le; omega, by have := hc.reserved_le; omega⟩

/-- A funded round of `BlocksSwap` on a pending block cannot fail. -/
theorem swapBlock_ok_of_funded {c : Ctx} {b : ℕ} (hc : Funded F c)
    (hb : b ∈ c.file.allocationState.pending) : ∃ v c', swapBlock F c b = .ok (v, c') := by
  refine swapBlock_ok F c b ?_ hc.reserved_le
  have hk := Finset.card_le_card (BlockMap.missing_subset_missingFor (F := F)
    (t := c.file.inode.tree) hb)
  have hP := Finset.card_pos.2 ⟨b, hb⟩
  have := hc.need_le
  unfold File.need at this
  omega

theorem swapBlock_allocationState {c c' : Ctx} {b v : ℕ} (h : swapBlock F c b = .ok (v, c')) :
    c'.file.allocationState =
      c.file.allocationState.clearPending b (c.file.inode.tree.ptr b ≠ 0) := by
  obtain ⟨a, t, r, rfl, -⟩ := swapBlock_spec F h
  rfl

/-- The rest of a pending run, once its first block is swapped. -/
theorem run_tail_pending {c c' : Ctx} {start count v : ℕ}
    (hr : ∀ i < count + 1, start + i ∈ c.file.allocationState.pending)
    (h : swapBlock F c start = .ok (v, c')) :
    ∀ i < count, start + 1 + i ∈ c'.file.allocationState.pending := by
  intro i hi
  rw [swapBlock_allocationState F h, AllocationState.clearPending_pending,
    Finset.mem_erase, Nat.add_assoc, Nat.add_comm 1]
  exact ⟨by omega, hr (i + 1) (by omega)⟩

/-- What every round of `BlocksSwap` on a pending block keeps, the swap of a pending run keeps. -/
theorem blocksSwap_preserves (P : Ctx → Prop)
    (hP : ∀ {c c' : Ctx} {b v : ℕ}, P c → b ∈ c.file.allocationState.pending →
      swapBlock F c b = .ok (v, c') → P c') :
    ∀ {count : ℕ} {c c' : Ctx} {start : ℕ} {bnos : List ℕ}, P c →
      (∀ i < count, start + i ∈ c.file.allocationState.pending) →
      blocksSwap F c start count = .ok (bnos, c') → P c'
  | 0, c, c', start, bnos, hc, _, h => by cases h; exact hc
  | count + 1, c, c', start, bnos, hc, hr, h => by
    obtain ⟨⟨v, c₁⟩, h₁, h₂⟩ := bind_eq_ok.1 h
    obtain ⟨⟨bnos', c₂⟩, h₃, h₄⟩ := bind_eq_ok.1 h₂
    obtain ⟨-, rfl⟩ := Prod.mk.inj (Except.ok.inj h₄)
    exact blocksSwap_preserves P hP (hP hc (by simpa using hr 0 (by omega)) h₁)
      (run_tail_pending F hr h₁) h₃

/-- A funded swap of a pending run cannot fail. -/
theorem blocksSwap_ok : ∀ {count : ℕ} {c : Ctx} {start : ℕ}, Funded F c →
    (∀ i < count, start + i ∈ c.file.allocationState.pending) →
    ∃ bnos c', blocksSwap F c start count = .ok (bnos, c')
  | 0, c, start, _, _ => ⟨[], c, rfl⟩
  | count + 1, c, start, hc, hr => by
    have hs : start ∈ c.file.allocationState.pending := by simpa using hr 0 (by omega)
    obtain ⟨v, c₁, h₁⟩ := swapBlock_ok_of_funded F hc hs
    obtain ⟨bnos, c', h₂⟩ :=
      blocksSwap_ok (funded_swapBlock F hc hs h₁) (run_tail_pending F hr h₁)
    exact ⟨v :: bnos, c', bind_eq_ok.2 ⟨_, h₁, bind_eq_ok.2 ⟨_, h₂, rfl⟩⟩⟩

theorem erase_sdiff_Ico (A : Finset ℕ) (n k : ℕ) :
    A.erase n \ Finset.Ico (n + 1) (n + 1 + k) = A \ Finset.Ico n (n + (k + 1)) := by
  ext x
  simp only [Finset.mem_sdiff, Finset.mem_erase, Finset.mem_Ico]
  by_cases hx : x ∈ A <;> simp [hx]
  omega

/-- `BlocksSwap` over the run of `count` blocks from `start`: the run leaves the pending set, its
blocks get the new blocks `bnos`, every other pointer stays, and the data writes enqueued for
`bnos` write each block of the run once, to the block now mapped there. -/
theorem blocksSwap_spec : ∀ {count : ℕ} {c c' : Ctx} {start : ℕ} {bnos : List ℕ},
    blocksSwap F c start count = .ok (bnos, c') →
    ∃ a t r m s, c' = ⟨{ c.fs with
          allocator := a, dirtyBytes := c.fs.dirtyBytes - count * kMinfsBlockSize },
        { c.file with
          inode := { c.file.inode with tree := t, blockCount := m }, allocationState := s },
        { c.txn with reserved := r }⟩ ∧
      s.pending = c.file.allocationState.pending \ Finset.Ico start (start + count) ∧
      s.newPending = c.file.allocationState.newPending \ Finset.Ico start (start + count) ∧
      s.nodeSize = c.file.allocationState.nodeSize ∧
      (∀ x ∉ Finset.Ico start (start + count), t.ptr x = c.file.inode.tree.ptr x) ∧
      ∀ d, (dataOperations d start bnos).map (·.vmoOffset) = List.range' start count ∧
        ∀ op ∈ dataOperations d start bnos,
          op.length = 1 ∧ op.devOffset = t.ptr op.vmoOffset + d
  | 0, c, c', start, bnos, h => by
    cases h
    exact ⟨c.fs.allocator, c.file.inode.tree, c.txn.reserved, c.file.inode.blockCount,
      c.file.allocationState, rfl, by simp, by simp, rfl, fun _ _ => rfl,
      fun d => ⟨rfl, by simp [dataOperations]⟩⟩
  | count + 1, c, c', start, bnos, h => by
    obtain ⟨⟨v, c₁⟩, h₁, h₂⟩ := bind_eq_ok.1 h
    obtain ⟨⟨bnos', c₂⟩, h₃, h₄⟩ := bind_eq_ok.1 h₂
    obtain ⟨rfl, rfl⟩ := Prod.mk.inj (Except.ok.inj h₄)
    obtain ⟨a₁, t₁, r₁, rfl, -, hptr₁, -⟩ := swapBlock_spec F h₁
    obtain ⟨a, t, r, m, s, rfl, hp, hnp, hns, hptr, hops⟩ := blocksSwap_spec h₃
    simp only [AllocationState.clearPending_pending, AllocationState.clearPending_newPending,
      AllocationState.clearPending_nodeSize] at hp hnp hns
    have hptr' : ∀ x ∉ Finset.Ico start (start + (count + 1)),
        t.ptr x = c.file.inode.tree.ptr x := by
      intro x hx
      rw [hptr x (by simp only [Finset.mem_Ico] at hx ⊢; omega), hptr₁,
        Function.update_noteq (by simp only [Finset.mem_Ico] at hx; omega)]
    refine ⟨a, t, r, m, s, ?_, by rw [hp, erase_sdiff_Ico], by rw [hnp, erase_sdiff_Ico], hns,
      hptr', fun d => ?_⟩
    · rw [Nat.succ_mul, Nat.add_comm _ kMinfsBlockSize, ← Nat.sub_sub]
    · obtain ⟨hmap, hops⟩ := hops d
      refine ⟨by simp [dataOperations, hmap, List.range'_succ], ?_⟩
      intro op hop
      rcases List.mem_cons.1 hop with rfl | hop
      · refine ⟨rfl, ?_⟩
        dsimp only
        rw [hptr start (by simp), hptr₁, Function.update_same]
      · exact hops op hop

end Minfs
