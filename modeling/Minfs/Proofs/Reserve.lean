import Minfs.Write

/-!
# `GetRequiredBlockCount` covers a write

A write reserves `GetRequiredBlockCount(offset, length)` blocks before it marks its blocks
pending, and the drain later takes from that reservation a block for each pending block and one
for each indirect block missing on their paths. Past the direct blocks, file block `b` hangs below
the indirect block of index `(b - kMinfsDirect) / kMinfsDirectPerIndirect`, and past the indirect
blocks also below a doubly indirect block (`indirectPath_of_le`); the count adds one block per
index the range spans at each level, so it covers the data blocks and every indirect block on
their paths, whatever the tree already has (`getRequiredBlockCount_covers`).
-/

namespace Minfs

variable (F : Format)

/-- The indirect block of index `L` past the direct blocks: `inum[L]`, or the
`(L - kMinfsIndirect)`-th below the doubly indirect blocks. -/
def Format.indirectSlot (L : ℕ) : IndirectSlot :=
  if L < F.kMinfsIndirect then .inum L else .dind (L - F.kMinfsIndirect)

theorem kMinfsDirectPerIndirect_eq : kMinfsDirectPerIndirect = 2048 := rfl

/-- A block past the direct ones hangs below the indirect block of index
`(b - kMinfsDirect) / kMinfsDirectPerIndirect`, and past the indirect blocks also below a doubly
indirect block. -/
theorem indirectPath_of_le {b : ℕ} (hb : F.kMinfsDirect ≤ b) :
    F.indirectPath b =
      if (b - F.kMinfsDirect) / kMinfsDirectPerIndirect < F.kMinfsIndirect then
        [F.indirectSlot ((b - F.kMinfsDirect) / kMinfsDirectPerIndirect)]
      else
        [.dinum (((b - F.kMinfsDirect) / kMinfsDirectPerIndirect - F.kMinfsIndirect) /
            kMinfsDirectPerIndirect),
          F.indirectSlot ((b - F.kMinfsDirect) / kMinfsDirectPerIndirect)] := by
  unfold Format.indirectPath Format.indirectSlot
  rw [if_neg (not_lt.2 hb), kMinfsDirectPerIndirect_eq]
  split_ifs with h₁ h₂ h₂ <;> first | rfl | omega | skip
  simp only [List.cons.injEq, IndirectSlot.dinum.injEq, IndirectSlot.dind.injEq, and_true]
  omega

theorem mem_blockRange {offset length b : ℕ} :
    b ∈ blockRange offset length ↔
      length ≠ 0 ∧ offset / kMinfsBlockSize ≤ b ∧
        b ≤ (offset + length - 1) / kMinfsBlockSize := by
  unfold blockRange
  split
  · simp [*]
  · simp only [List.mem_range'_1, ne_eq, *, not_false_eq_true, true_and]
    omega

/-- `GetRequiredBlockCount` reserves a block for each data block of the range and for each indirect
and doubly indirect block on their paths, so for whatever of them the tree lacks. -/
theorem getRequiredBlockCount_covers (t : BlockMap) {offset length n : ℕ}
    (h : getRequiredBlockCount F offset length = .ok n) :
    (blockRange offset length).length +
      (t.missingFor F (blockRange offset length).toFinset).card ≤ n := by
  unfold getRequiredBlockCount at h
  split at h
  · cases h
    simp [blockRange, *]
  rename_i h0
  have hlen : (blockRange offset length).length =
      (offset + length - 1) / kMinfsBlockSize + 1 - offset / kMinfsBlockSize := by
    simp [blockRange, h0]
  have hord : offset / kMinfsBlockSize ≤ (offset + length - 1) / kMinfsBlockSize := by
    unfold kMinfsBlockSize; omega
  have hsub : ∀ {T : Finset IndirectSlot},
      (∀ b ∈ blockRange offset length, ∀ s ∈ F.indirectPath b, s ∈ T) →
      (t.missingFor F (blockRange offset length).toFinset).card ≤ T.card := fun hT =>
    Finset.card_le_card fun s hs => by
      simp only [BlockMap.missingFor, Finset.mem_filter, Finset.mem_biUnion,
        List.mem_toFinset] at hs
      obtain ⟨⟨b, hb, hs⟩, -⟩ := hs
      exact hT b hb s hs
  dsimp only at h
  set fi := (max (offset / kMinfsBlockSize) F.kMinfsDirect - F.kMinfsDirect) /
    kMinfsDirectPerIndirect
  set li := ((offset + length - 1) / kMinfsBlockSize - F.kMinfsDirect) / kMinfsDirectPerIndirect
  have hL : ∀ b, length ≠ 0 ∧ offset / kMinfsBlockSize ≤ b ∧
      b ≤ (offset + length - 1) / kMinfsBlockSize → F.kMinfsDirect ≤ b →
      fi ≤ (b - F.kMinfsDirect) / kMinfsDirectPerIndirect ∧
        (b - F.kMinfsDirect) / kMinfsDirectPerIndirect ≤ li := fun b hb hbD =>
    ⟨Nat.div_le_div_right (by omega), Nat.div_le_div_right (by omega)⟩
  split_ifs at h with h₁ h₂ h₃ <;> cases h
  · -- within the direct blocks
    have := hsub (T := ∅) fun b hb s hs => by
      rw [mem_blockRange] at hb
      rw [Format.indirectPath, if_pos (by omega)] at hs
      cases hs
    simp only [Finset.card_empty] at this
    omega
  · -- the indirect blocks `inum[fi..li]`
    have := hsub (T := (Finset.Icc fi li).image F.indirectSlot) fun b hb s hs => by
      rw [mem_blockRange] at hb
      by_cases hbD : F.kMinfsDirect ≤ b
      · obtain ⟨hfi, hli⟩ := hL b hb hbD
        rw [indirectPath_of_le F hbD, if_pos (by omega), List.mem_singleton] at hs
        exact hs ▸ Finset.mem_image_of_mem _ (Finset.mem_Icc.2 ⟨hfi, hli⟩)
      · rw [Format.indirectPath, if_pos (by omega)] at hs
        cases hs
    have := this.trans Finset.card_image_le
    simp only [Nat.card_Icc] at this
    omega
  · -- and the doubly indirect blocks `dinum[fdi..ldi]`
    have := hsub (T := (Finset.Icc fi li).image F.indirectSlot ∪
        (Finset.Icc ((max fi F.kMinfsIndirect - F.kMinfsIndirect) / kMinfsDirectPerIndirect)
          ((li - F.kMinfsIndirect) / kMinfsDirectPerIndirect)).image .dinum) fun b hb s hs => by
      rw [mem_blockRange] at hb
      by_cases hbD : F.kMinfsDirect ≤ b
      · obtain ⟨hfi, hli⟩ := hL b hb hbD
        rw [indirectPath_of_le F hbD] at hs
        split_ifs at hs
        · rw [List.mem_singleton] at hs
          exact Finset.mem_union_left _
            (hs ▸ Finset.mem_image_of_mem _ (Finset.mem_Icc.2 ⟨hfi, hli⟩))
        · simp only [List.mem_cons, List.mem_singleton, List.not_mem_nil, or_false] at hs
          rcases hs with rfl | rfl
          · refine Finset.mem_union_right _
              (Finset.mem_image_of_mem _ (Finset.mem_Icc.2 ⟨?_, ?_⟩))
            all_goals exact Nat.div_le_div_right (by omega)
          · exact Finset.mem_union_left _
              (Finset.mem_image_of_mem _ (Finset.mem_Icc.2 ⟨hfi, hli⟩))
      · rw [Format.indirectPath, if_pos (by omega)] at hs
        cases hs
    have := this.trans ((Finset.card_union_le _ _).trans
      (Nat.add_le_add Finset.card_image_le Finset.card_image_le))
    simp only [Nat.card_Icc] at this
    omega

/-- A one-block write past the direct blocks, on a file with no indirect block yet: the block and
`inum[0]` are both reserved. -/
example :
    getRequiredBlockCount .minfs (16 * kMinfsBlockSize) kMinfsBlockSize = .ok 2 ∧
      (blockRange (16 * kMinfsBlockSize) kMinfsBlockSize).length +
        (BlockMap.empty.missingFor .minfs
          (blockRange (16 * kMinfsBlockSize) kMinfsBlockSize).toFinset).card ≤ 2 :=
  ⟨rfl, getRequiredBlockCount_covers .minfs .empty rfl⟩

end Minfs
