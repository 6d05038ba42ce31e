import Mathlib.Data.Finset.Card
import Minfs.Format

/-!
# The block pointer tree

An inode maps file block `b` to a disk block through `dnum`, or through the indirect block
`inum[i]`, or through a doubly indirect block `dinum[k]` and the indirect block it points to.
`BlockMap` flattens the tree into two maps, the pointer of each file block and the pointer of each
indirect block, `0` meaning none, together with the finite sets of the non-zero ones. So
`nonzeroCount`, the number of non-zero pointers in the tree, is a cardinality.

A tree is `Linked` when every non-zero pointer hangs below indirect blocks that exist, so that
`nonzeroCount` counts only pointers reachable from the inode. The tree's `blocks` are the disk
blocks its pointers hold; it has `NoAlias` when no disk block is held by two pointers, and then
re-pointing one pointer takes its old block out of `blocks` and puts the new one in
(`blocks_of_slot_update`). Modelled from the spec: the mapper turns a file block
into "(level ∈ {direct, indirect, double-indirect}, indices into
dnum/inum/dinum, relative offsets)" (`Format.indirectPath`).
-/

namespace Minfs

/-- An indirect block an inode can point to: `inum[i]`, `dinum[k]`, or the `j`-th indirect block
below the doubly indirect blocks. -/
inductive IndirectSlot
  | inum (i : ℕ)
  | dinum (k : ℕ)
  | dind (j : ℕ)
  deriving DecidableEq, Repr

/-- The indirect block that points at `s`, for one below a doubly indirect block. -/
def IndirectSlot.parent : IndirectSlot → Option IndirectSlot
  | .dind j => some (.dinum (j / kMinfsDirectPerIndirect))
  | _ => none

/-- The indirect blocks between the inode and file block `b`'s pointer. -/
def Format.indirectPath (F : Format) (b : ℕ) : List IndirectSlot :=
  if b < F.kMinfsDirect then []
  else if b - F.kMinfsDirect < F.kMinfsIndirect * kMinfsDirectPerIndirect then
    [.inum ((b - F.kMinfsDirect) / kMinfsDirectPerIndirect)]
  else
    let r := b - F.kMinfsDirect - F.kMinfsIndirect * kMinfsDirectPerIndirect
    [.dinum (r / (kMinfsDirectPerIndirect * kMinfsDirectPerIndirect)),
      .dind (r / kMinfsDirectPerIndirect)]

/-- The parent of an indirect block on a path is on the path. -/
theorem Format.parent_mem_indirectPath (F : Format) {b : ℕ} {s p : IndirectSlot}
    (hs : s ∈ F.indirectPath b) (hp : s.parent = some p) : p ∈ F.indirectPath b := by
  unfold Format.indirectPath at hs ⊢
  split_ifs at hs ⊢
  · simp at hs
  · rw [List.mem_singleton] at hs
    subst hs
    cases hp
  · simp only [List.mem_cons, List.mem_singleton, List.not_mem_nil, or_false] at hs ⊢
    rcases hs with rfl | rfl
    · cases hp
    · cases hp
      exact .inl (by rw [Nat.div_div_eq_div_mul])

/-- The pointers of an inode's tree, with the sets of the non-zero ones. -/
structure BlockMap where
  ptr : ℕ → ℕ
  ind : IndirectSlot → ℕ
  leaves : Finset ℕ
  indirects : Finset IndirectSlot
  mem_leaves : ∀ b, b ∈ leaves ↔ ptr b ≠ 0
  mem_indirects : ∀ s, s ∈ indirects ↔ ind s ≠ 0

namespace BlockMap

/-- The tree of an inode with no blocks. -/
def empty : BlockMap where
  ptr _ := 0
  ind _ := 0
  leaves := ∅
  indirects := ∅
  mem_leaves := by simp
  mem_indirects := by simp

/-- Non-zero pointers in the tree, indirect blocks included. -/
def nonzeroCount (t : BlockMap) : ℕ := t.leaves.card + t.indirects.card

/-- File block `b` now points at `v`. -/
def setLeaf (t : BlockMap) (b v : ℕ) : BlockMap where
  ptr := Function.update t.ptr b v
  ind := t.ind
  leaves := if v = 0 then t.leaves.erase b else insert b t.leaves
  indirects := t.indirects
  mem_leaves c := by
    by_cases hc : c = b
    · subst hc; split <;> simp_all
    · split <;> simp [hc, t.mem_leaves]
  mem_indirects := t.mem_indirects

/-- Indirect block `s` now is `v`. -/
def setIndirect (t : BlockMap) (s : IndirectSlot) (v : ℕ) : BlockMap where
  ptr := t.ptr
  ind := Function.update t.ind s v
  leaves := t.leaves
  indirects := if v = 0 then t.indirects.erase s else insert s t.indirects
  mem_leaves := t.mem_leaves
  mem_indirects c := by
    by_cases hc : c = s
    · subst hc; split <;> simp_all
    · split <;> simp [hc, t.mem_indirects]

/-- Every non-zero pointer hangs below indirect blocks that exist. -/
def Linked (F : Format) (t : BlockMap) : Prop :=
  (∀ b ∈ t.leaves, ∀ s ∈ F.indirectPath b, s ∈ t.indirects) ∧
    ∀ s ∈ t.indirects, ∀ p, s.parent = some p → p ∈ t.indirects

/-- Nothing non-zero hangs below indirect block `s`, so a truncate may free it. -/
def EmptyBelow (F : Format) (t : BlockMap) (s : IndirectSlot) : Prop :=
  (∀ b ∈ t.leaves, s ∉ F.indirectPath b) ∧ ∀ s' ∈ t.indirects, s'.parent ≠ some s

instance (F : Format) (t : BlockMap) (s : IndirectSlot) : Decidable (t.EmptyBelow F s) :=
  inferInstanceAs (Decidable (_ ∧ _))

@[simp] theorem empty_ptr (b : ℕ) : empty.ptr b = 0 := rfl
@[simp] theorem empty_ind (s : IndirectSlot) : empty.ind s = 0 := rfl
@[simp] theorem empty_nonzeroCount : empty.nonzeroCount = 0 := rfl

@[simp] theorem setLeaf_ptr (t : BlockMap) (b v : ℕ) :
    (t.setLeaf b v).ptr = Function.update t.ptr b v := rfl
@[simp] theorem setLeaf_ind (t : BlockMap) (b v : ℕ) : (t.setLeaf b v).ind = t.ind := rfl
@[simp] theorem setIndirect_ptr (t : BlockMap) (s : IndirectSlot) (v : ℕ) :
    (t.setIndirect s v).ptr = t.ptr := rfl
@[simp] theorem setIndirect_ind (t : BlockMap) (s : IndirectSlot) (v : ℕ) :
    (t.setIndirect s v).ind = Function.update t.ind s v := rfl

/-- Pointing a hole at a block adds one pointer to the tree. -/
theorem setLeaf_nonzeroCount_of_eq_zero {t : BlockMap} {b v : ℕ} (hb : t.ptr b = 0)
    (hv : v ≠ 0) : (t.setLeaf b v).nonzeroCount = t.nonzeroCount + 1 := by
  have : b ∉ t.leaves := by simp [t.mem_leaves, hb]
  simp [nonzeroCount, setLeaf, hv, Finset.card_insert_of_not_mem this]
  omega

/-- Re-pointing a mapped block keeps the count. -/
theorem setLeaf_nonzeroCount_of_ne_zero {t : BlockMap} {b v : ℕ} (hb : t.ptr b ≠ 0)
    (hv : v ≠ 0) : (t.setLeaf b v).nonzeroCount = t.nonzeroCount := by
  have : b ∈ t.leaves := by simp [t.mem_leaves, hb]
  simp [nonzeroCount, setLeaf, hv, Finset.insert_eq_of_mem this]

/-- Clearing a mapped block removes one pointer. -/
theorem setLeaf_zero_nonzeroCount {t : BlockMap} {b : ℕ} (hb : t.ptr b ≠ 0) :
    (t.setLeaf b 0).nonzeroCount + 1 = t.nonzeroCount := by
  have : b ∈ t.leaves := by simp [t.mem_leaves, hb]
  simp [nonzeroCount, setLeaf, Finset.card_erase_of_mem this]
  have := Finset.card_pos.2 ⟨b, this⟩
  omega

/-- Clearing a hole changes nothing in the count. -/
theorem setLeaf_zero_nonzeroCount_of_eq_zero {t : BlockMap} {b : ℕ} (hb : t.ptr b = 0) :
    (t.setLeaf b 0).nonzeroCount = t.nonzeroCount := by
  have : b ∉ t.leaves := by simp [t.mem_leaves, hb]
  simp [nonzeroCount, setLeaf, Finset.erase_eq_of_not_mem this]

/-- Creating an indirect block adds one pointer. -/
theorem setIndirect_nonzeroCount_of_eq_zero {t : BlockMap} {s : IndirectSlot} {v : ℕ}
    (hs : t.ind s = 0) (hv : v ≠ 0) :
    (t.setIndirect s v).nonzeroCount = t.nonzeroCount + 1 := by
  have : s ∉ t.indirects := by simp [t.mem_indirects, hs]
  simp [nonzeroCount, setIndirect, hv, Finset.card_insert_of_not_mem this]
  omega

/-- Freeing an indirect block removes one pointer. -/
theorem setIndirect_zero_nonzeroCount {t : BlockMap} {s : IndirectSlot} (hs : t.ind s ≠ 0) :
    (t.setIndirect s 0).nonzeroCount + 1 = t.nonzeroCount := by
  have : s ∈ t.indirects := by simp [t.mem_indirects, hs]
  simp [nonzeroCount, setIndirect, Finset.card_erase_of_mem this]
  have := Finset.card_pos.2 ⟨s, this⟩
  omega

/-- The listed indirect blocks the tree lacks. -/
def missing (t : BlockMap) (L : List IndirectSlot) : Finset IndirectSlot :=
  L.toFinset.filter (t.ind · = 0)

@[simp] theorem missing_nil (t : BlockMap) : t.missing [] = ∅ := rfl

theorem missing_cons_of_ne_zero {t : BlockMap} {s : IndirectSlot} (ss : List IndirectSlot)
    (hs : t.ind s ≠ 0) : t.missing (s :: ss) = t.missing ss := by
  ext x
  by_cases hx : x = s <;> simp [missing, hx, hs]

theorem missing_cons_of_eq_zero {t : BlockMap} {s : IndirectSlot} (ss : List IndirectSlot) {n : ℕ}
    (hs : t.ind s = 0) (hn : n ≠ 0) :
    (t.missing (s :: ss)).card = ((t.setIndirect s n).missing ss).card + 1 := by
  have h : (t.setIndirect s n).missing ss = (t.missing (s :: ss)).erase s := by
    ext x
    by_cases hx : x = s <;> simp [missing, hx, hn]
  rw [h, Finset.card_erase_add_one]
  simp [missing, hs]

/-- The indirect blocks the tree lacks on the paths of the blocks of `P`. -/
def missingFor (F : Format) (t : BlockMap) (P : Finset ℕ) : Finset IndirectSlot :=
  (P.biUnion fun b => (F.indirectPath b).toFinset).filter (t.ind · = 0)

@[simp] theorem missingFor_empty (F : Format) (t : BlockMap) : t.missingFor F ∅ = ∅ := rfl

theorem missingFor_mono {F : Format} (t : BlockMap) {P Q : Finset ℕ} (h : P ⊆ Q) :
    t.missingFor F P ⊆ t.missingFor F Q :=
  Finset.filter_subset_filter _ (Finset.biUnion_subset_biUnion_of_subset_left _ h)

theorem missing_subset_missingFor {F : Format} {t : BlockMap} {P : Finset ℕ} {b : ℕ}
    (hb : b ∈ P) : t.missing (F.indirectPath b) ⊆ t.missingFor F P := by
  intro s hs
  simp only [missing, missingFor, Finset.mem_filter, List.mem_toFinset, Finset.mem_biUnion] at hs ⊢
  exact ⟨⟨b, hb, hs.1⟩, hs.2⟩

/-- Once the indirect blocks on `b`'s path exist, the other blocks of `P` lack what `P` lacked
off that path. -/
theorem missingFor_erase {F : Format} {t t' : BlockMap} {P : Finset ℕ} {b : ℕ} (hb : b ∈ P)
    (hind : ∀ s, t'.ind s = 0 ↔ t.ind s = 0 ∧ s ∉ F.indirectPath b) :
    (t'.missingFor F (P.erase b)).card + (t.missing (F.indirectPath b)).card =
      (t.missingFor F P).card := by
  have heq : t'.missingFor F (P.erase b) = t.missingFor F P \ t.missing (F.indirectPath b) := by
    ext s
    simp only [missing, missingFor, Finset.mem_sdiff, Finset.mem_filter, List.mem_toFinset,
      Finset.mem_biUnion, Finset.mem_erase, hind]
    constructor
    · rintro ⟨⟨x, ⟨-, hx⟩, hs⟩, h0, hn⟩
      exact ⟨⟨⟨x, hx, hs⟩, h0⟩, fun h => hn h.1⟩
    · rintro ⟨⟨⟨x, hx, hs⟩, h0⟩, hn⟩
      have hb' : s ∉ F.indirectPath b := fun h => hn ⟨h, h0⟩
      exact ⟨⟨x, ⟨fun e => hb' (e ▸ hs), hx⟩, hs⟩, h0, hb'⟩
  rw [heq, Finset.card_sdiff_add_card_eq_card (missing_subset_missingFor hb)]

theorem empty_linked (F : Format) : empty.Linked F := by
  simp [Linked, empty]

/-- Clearing a file block's pointer keeps the tree linked. -/
theorem Linked.setLeaf_zero {F : Format} {t : BlockMap} (h : t.Linked F) (b : ℕ) :
    (t.setLeaf b 0).Linked F :=
  ⟨fun x hx => h.1 x (Finset.mem_of_mem_erase hx), h.2⟩

/-- Freeing an indirect block with nothing below it keeps the tree linked. -/
theorem Linked.setIndirect_zero {F : Format} {t : BlockMap} {s : IndirectSlot} (h : t.Linked F)
    (hs : t.EmptyBelow F s) : (t.setIndirect s 0).Linked F :=
  ⟨fun x hx s' hs' => Finset.mem_erase.2 ⟨fun e => hs.1 x hx (e ▸ hs'), h.1 x hx s' hs'⟩,
    fun s' hs' p hp => Finset.mem_erase.2
      ⟨fun e => hs.2 s' (Finset.mem_of_mem_erase hs') (e ▸ hp),
        h.2 s' (Finset.mem_of_mem_erase hs') p hp⟩⟩

/-- Pointing file block `b` at a block once the indirect blocks on its path exist keeps the tree
linked. -/
theorem Linked.of_path {F : Format} {t t' : BlockMap} {b v : ℕ} (h : t.Linked F)
    (hptr : t'.ptr = Function.update t.ptr b v)
    (hind : ∀ s, t'.ind s = 0 ↔ t.ind s = 0 ∧ s ∉ F.indirectPath b) : t'.Linked F := by
  have hi : ∀ s, s ∈ t'.indirects ↔ s ∈ t.indirects ∨ s ∈ F.indirectPath b := by
    intro s
    rw [t'.mem_indirects, t.mem_indirects, Ne, hind]
    tauto
  refine ⟨fun x hx s hs => (hi s).2 ?_, fun s hs p hp => (hi p).2 ?_⟩
  · by_cases hxb : x = b
    · exact .inr (hxb ▸ hs)
    · rw [t'.mem_leaves, hptr, Function.update_noteq hxb, ← t.mem_leaves] at hx
      exact .inl (h.1 x hx s hs)
  · rcases (hi s).1 hs with hs | hs
    · exact .inl (h.2 s hs p hp)
    · exact .inr (F.parent_mem_indirectPath hs hp)

/-- Every pointer of the tree, of a file block or of an indirect block. -/
def slot (t : BlockMap) : ℕ ⊕ IndirectSlot → ℕ := Sum.elim t.ptr t.ind

theorem setLeaf_slot (t : BlockMap) (b v : ℕ) :
    (t.setLeaf b v).slot = Function.update t.slot (.inl b) v :=
  Sum.elim_update_left _ _ _ _

theorem setIndirect_slot (t : BlockMap) (s : IndirectSlot) (v : ℕ) :
    (t.setIndirect s v).slot = Function.update t.slot (.inr s) v :=
  Sum.elim_update_right _ _ _ _

/-- The disk blocks the tree points at: its data blocks and its indirect blocks. -/
def blocks (t : BlockMap) : Finset ℕ := t.leaves.image t.ptr ∪ t.indirects.image t.ind

theorem mem_blocks {t : BlockMap} {d : ℕ} : d ∈ t.blocks ↔ d ≠ 0 ∧ ∃ x, t.slot x = d := by
  simp only [blocks, Finset.mem_union, Finset.mem_image, t.mem_leaves, t.mem_indirects, slot,
    Sum.exists, Sum.elim_inl, Sum.elim_inr]
  constructor
  · rintro (⟨b, hb, rfl⟩ | ⟨s, hs, rfl⟩)
    exacts [⟨hb, .inl ⟨b, rfl⟩⟩, ⟨hs, .inr ⟨s, rfl⟩⟩]
  · rintro ⟨hd, ⟨b, rfl⟩ | ⟨s, rfl⟩⟩
    exacts [.inl ⟨b, hd, rfl⟩, .inr ⟨s, hd, rfl⟩]

theorem zero_not_mem_blocks (t : BlockMap) : 0 ∉ t.blocks := fun h => (mem_blocks.1 h).1 rfl

theorem slot_mem_blocks {t : BlockMap} {x : ℕ ⊕ IndirectSlot} (h : t.slot x ≠ 0) :
    t.slot x ∈ t.blocks :=
  mem_blocks.2 ⟨h, x, rfl⟩

@[simp] theorem empty_blocks : empty.blocks = ∅ := rfl

/-- No disk block is pointed at twice. -/
def NoAlias (t : BlockMap) : Prop := ∀ x y, t.slot x ≠ 0 → t.slot x = t.slot y → x = y

theorem noAlias_empty : empty.NoAlias := fun x _ h => absurd (by cases x <;> rfl) h

section Update

variable {t t' : BlockMap} {x : ℕ ⊕ IndirectSlot} {v : ℕ} (h : t.NoAlias)
  (ht : t'.slot = Function.update t.slot x v)
include h ht

/-- Re-pointing one pointer at `v`: its old block leaves the tree, `v` joins it. -/
theorem blocks_of_slot_update : t'.blocks = (insert v (t.blocks.erase (t.slot x))).erase 0 := by
  ext d
  simp only [mem_blocks, ht, Finset.mem_erase, Finset.mem_insert, Function.update_apply]
  constructor
  · rintro ⟨hd, y, hy⟩
    split at hy
    · exact ⟨hd, .inl hy.symm⟩
    · subst hy
      exact ⟨hd, .inr ⟨fun e => ‹¬y = x› (h y x hd e), hd, y, rfl⟩⟩
  · rintro ⟨hd, rfl | ⟨hx, -, y, rfl⟩⟩
    · exact ⟨hd, x, if_pos rfl⟩
    · exact ⟨hd, y, if_neg fun e => hx (congrArg t.slot e)⟩

theorem noAlias_of_slot_update (hv : v ∉ t.blocks.erase (t.slot x)) : t'.NoAlias := by
  have hv' : ∀ y, y ≠ x → t.slot y ≠ 0 → t.slot y ≠ v := fun y hy h0 e =>
    hv (Finset.mem_erase.2 ⟨fun e' => hy (h y x h0 (e.trans e')), e ▸ slot_mem_blocks h0⟩)
  intro y z hy e
  rw [ht] at hy e
  simp only [Function.update_apply] at hy e
  by_cases hyx : y = x <;> by_cases hzx : z = x <;>
    simp only [hyx, hzx, ite_true, ite_false] at hy e
  · exact hyx.trans hzx.symm
  · exact absurd e.symm (hv' z hzx (e ▸ hy))
  · exact absurd e (hv' y hyx hy)
  · exact h y z hy e

/-- A non-zero block put into an empty pointer joins the tree. -/
theorem blocks_of_slot_update_fresh (hx : t.slot x = 0) (hv : v ≠ 0) :
    t'.blocks = insert v t.blocks := by
  rw [blocks_of_slot_update h ht, hx, Finset.erase_eq_of_not_mem (zero_not_mem_blocks t),
    Finset.erase_insert_of_ne hv, Finset.erase_eq_of_not_mem (zero_not_mem_blocks t)]

/-- A cleared pointer's block leaves the tree. -/
theorem blocks_of_slot_update_zero (hv : v = 0) : t'.blocks = t.blocks.erase (t.slot x) := by
  rw [blocks_of_slot_update h ht, hv, Finset.erase_insert_eq_erase, Finset.erase_right_comm,
    Finset.erase_eq_of_not_mem (zero_not_mem_blocks t)]

end Update

end BlockMap

end Minfs
