import Mathlib.Data.Finset.Card
import Mathlib.Data.Finset.Max
import Minfs.Format

/-!
# A file's pending allocations

`PendingAllocationData` keeps, for one file, the blocks written into the page buffer that have
no disk block yet, and for each whether its slot held a block when it was marked. Modelled from
the spec: "a mapping from file-logical block index to a pending marker with a bit indicating
whether the slot was previously allocated". The blocks whose bit says it did not are `newPending`,
counted by `GetNewPending`.

`GetNextRange` hands out the run of pending blocks that starts at the lowest one: never empty,
and never longer than the pending count (`getNextRange_spec`).
-/

namespace Minfs

/-- `PendingAllocationData`: the pending blocks, those of them marked over a hole, and the
in-memory file size. -/
structure AllocationState where
  pending : Finset ℕ
  newPending : Finset ℕ
  nodeSize : ℕ
  newPending_subset : newPending ⊆ pending

namespace AllocationState

/-- `Reset(size)`: nothing pending, and the given size. -/
def reset (size : ℕ) : AllocationState := ⟨∅, ∅, size, subset_rfl⟩

def isPending (a : AllocationState) (b : ℕ) : Bool := b ∈ a.pending

def getTotalPending (a : AllocationState) : ℕ := a.pending.card

def getNewPending (a : AllocationState) : ℕ := a.newPending.card

def getNodeSize (a : AllocationState) : ℕ := a.nodeSize

def setNodeSize (a : AllocationState) (size : ℕ) : AllocationState := { a with nodeSize := size }

/-- `SetPending(b, allocated)`: `b` is pending, its bit set to `allocated`. -/
def setPending (a : AllocationState) (b : ℕ) (allocated : Bool) : AllocationState where
  pending := insert b a.pending
  newPending := if allocated then a.newPending.erase b else insert b a.newPending
  nodeSize := a.nodeSize
  newPending_subset := by
    split
    · exact (Finset.erase_subset _ _).trans (a.newPending_subset.trans (Finset.subset_insert _ _))
    · exact Finset.insert_subset_insert _ a.newPending_subset

/-- `ClearPending(b, allocated)`: `b` is no longer pending. The mapping keeps the bit itself, so
`allocated` is not read. -/
def clearPending (a : AllocationState) (b : ℕ) (_allocated : Bool) : AllocationState where
  pending := a.pending.erase b
  newPending := a.newPending.erase b
  nodeSize := a.nodeSize
  newPending_subset := Finset.erase_subset_erase _ a.newPending_subset

/-- How many blocks from `b` on are pending one after the other, looking at most `n` ahead. -/
def runFrom (s : Finset ℕ) (b : ℕ) : ℕ → ℕ
  | 0 => 0
  | n + 1 => if b ∈ s then runFrom s (b + 1) n + 1 else 0

/-- `GetNextRange`: the lowest pending block and the length of the run of pending blocks it
starts; `none` when nothing is pending. -/
def getNextRange (a : AllocationState) : Option (ℕ × ℕ) :=
  match a.pending.min with
  | ⊤ => none
  | (start : ℕ) => some (start, runFrom a.pending start a.pending.card)

@[simp] theorem reset_pending (size : ℕ) : (reset size).pending = ∅ := rfl
@[simp] theorem reset_newPending (size : ℕ) : (reset size).newPending = ∅ := rfl
@[simp] theorem reset_nodeSize (size : ℕ) : (reset size).nodeSize = size := rfl

@[simp] theorem setNodeSize_pending (a : AllocationState) (n : ℕ) :
    (a.setNodeSize n).pending = a.pending := rfl
@[simp] theorem setNodeSize_newPending (a : AllocationState) (n : ℕ) :
    (a.setNodeSize n).newPending = a.newPending := rfl
@[simp] theorem setNodeSize_nodeSize (a : AllocationState) (n : ℕ) :
    (a.setNodeSize n).nodeSize = n := rfl

@[simp] theorem setPending_pending (a : AllocationState) (b : ℕ) (x : Bool) :
    (a.setPending b x).pending = insert b a.pending := rfl
@[simp] theorem setPending_newPending (a : AllocationState) (b : ℕ) (x : Bool) :
    (a.setPending b x).newPending =
      if x then a.newPending.erase b else insert b a.newPending := rfl
@[simp] theorem setPending_nodeSize (a : AllocationState) (b : ℕ) (x : Bool) :
    (a.setPending b x).nodeSize = a.nodeSize := rfl

@[simp] theorem clearPending_pending (a : AllocationState) (b : ℕ) (x : Bool) :
    (a.clearPending b x).pending = a.pending.erase b := rfl
@[simp] theorem clearPending_newPending (a : AllocationState) (b : ℕ) (x : Bool) :
    (a.clearPending b x).newPending = a.newPending.erase b := rfl
@[simp] theorem clearPending_nodeSize (a : AllocationState) (b : ℕ) (x : Bool) :
    (a.clearPending b x).nodeSize = a.nodeSize := rfl

@[simp] theorem isPending_eq (a : AllocationState) (b : ℕ) :
    a.isPending b = decide (b ∈ a.pending) := rfl

theorem getNewPending_le (a : AllocationState) : a.getNewPending ≤ a.getTotalPending :=
  Finset.card_le_card a.newPending_subset

theorem runFrom_le (s : Finset ℕ) : ∀ b n, runFrom s b n ≤ n
  | _, 0 => le_rfl
  | b, n + 1 => by
    have := runFrom_le s (b + 1) n
    unfold runFrom
    split <;> omega

theorem runFrom_mem (s : Finset ℕ) : ∀ b n i, i < runFrom s b n → b + i ∈ s
  | _, 0, _, h => absurd h (Nat.not_lt_zero _)
  | b, n + 1, i, h => by
    unfold runFrom at h
    split at h
    · rcases i with _ | i
      · simpa
      · simpa [Nat.add_assoc, Nat.add_comm 1] using runFrom_mem s (b + 1) n i (by omega)
    · omega

theorem runFrom_pos {s : Finset ℕ} {b n : ℕ} (hb : b ∈ s) (hn : 0 < n) : 0 < runFrom s b n := by
  obtain ⟨n, rfl⟩ := Nat.exists_eq_add_of_lt hn
  simp [runFrom, hb]

/-- What `GetNextRange` hands out: a non-empty run of pending blocks, no longer than their count. -/
theorem getNextRange_spec {a : AllocationState} {start count : ℕ}
    (h : a.getNextRange = some (start, count)) :
    0 < count ∧ count ≤ a.getTotalPending ∧ ∀ i < count, start + i ∈ a.pending := by
  unfold getNextRange at h
  split at h
  · cases h
  · rename_i m hm
    simp only [Option.some.injEq, Prod.mk.injEq] at h
    obtain ⟨rfl, rfl⟩ := h
    have hs : m ∈ a.pending := Finset.mem_of_min hm
    exact ⟨runFrom_pos hs (Finset.card_pos.2 ⟨_, hs⟩), runFrom_le _ _ _, runFrom_mem _ _ _⟩

theorem getNextRange_eq_none {a : AllocationState} :
    a.getNextRange = none ↔ a.getTotalPending = 0 := by
  unfold getNextRange getTotalPending
  split
  · rename_i hm; simpa using Finset.min_eq_top.1 hm
  · rename_i m hm
    simp only [reduceCtorEq, false_iff, Finset.card_eq_zero]
    intro h
    simp [h] at hm

end AllocationState

end Minfs
