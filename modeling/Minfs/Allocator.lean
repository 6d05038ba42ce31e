import Mathlib.Data.Finset.Card
import Minfs.Format

/-!
# The data-block allocator

The blocks in use and the count promised to reservations. Modelled from the spec: `reserve(n)`
fails with `NoSpace` when fewer than `n` blocks are free; `allocate_from` takes the first free
block, first fit; `free` gives a block back. Block `0` is in use from the start and never freed,
so a zero pointer can mean a hole (`allocate_ne_zero`).

The structure carries the allocator's invariant: every block in use is below `capacity`, and the
blocks in use together with the reserved count never exceed it. So a reservation is always
backed by a free block (`allocate_isSome`).
-/

namespace Minfs

/-- The data-block allocator: blocks in use, and the count held by reservations. -/
structure Allocator where
  capacity : ℕ
  used : Finset ℕ
  reserved : ℕ
  zero_mem : 0 ∈ used
  lt_capacity : ∀ b ∈ used, b < capacity
  card_add_reserved_le : used.card + reserved ≤ capacity

namespace Allocator

/-- Blocks neither in use nor reserved. -/
def freeCount (a : Allocator) : ℕ := a.capacity - a.used.card - a.reserved

/-- `reserve(n)`; `none` is `NoSpace`. -/
def reserve (a : Allocator) (n : ℕ) : Option Allocator :=
  if h : n ≤ a.freeCount then
    some { a with
      reserved := a.reserved + n
      card_add_reserved_le := by have := a.card_add_reserved_le; unfold freeCount at h; omega }
  else none

/-- `drop(reservation)`: `n` reserved blocks are free again. -/
def unreserve (a : Allocator) (n : ℕ) : Allocator :=
  { a with
    reserved := a.reserved - n
    card_add_reserved_le := by have := a.card_add_reserved_le; omega }

/-- The first block not in use. -/
def firstFree (a : Allocator) : Option ℕ := (List.range a.capacity).find? (· ∉ a.used)

theorem firstFree_spec {a : Allocator} {b : ℕ} (h : a.firstFree = some b) :
    b ∉ a.used ∧ b < a.capacity := by
  have hm := List.mem_of_find?_eq_some h
  have hp := List.find?_some h
  simp only [decide_eq_true_eq] at hp
  exact ⟨hp, List.mem_range.1 hm⟩

/-- `allocate_from`: the first free block, taken from the reservation. -/
def allocate (a : Allocator) : Option (ℕ × Allocator) :=
  match h : a.firstFree with
  | none => none
  | some b =>
    if hr : 0 < a.reserved then
      some (b, {
        capacity := a.capacity
        used := insert b a.used
        reserved := a.reserved - 1
        zero_mem := Finset.mem_insert_of_mem a.zero_mem
        lt_capacity := by
          intro c hc
          rcases Finset.mem_insert.1 hc with rfl | hc
          · exact (firstFree_spec h).2
          · exact a.lt_capacity c hc
        card_add_reserved_le := by
          have := a.card_add_reserved_le
          rw [Finset.card_insert_of_not_mem (firstFree_spec h).1]
          omega })
    else none

/-- `free(index)`; block `0` stays in use. -/
def free (a : Allocator) (b : ℕ) : Allocator :=
  if hb : b = 0 then a
  else
    { a with
      used := a.used.erase b
      zero_mem := Finset.mem_erase.2 ⟨Ne.symm hb, a.zero_mem⟩
      lt_capacity := fun c hc => a.lt_capacity c (Finset.mem_of_mem_erase hc)
      card_add_reserved_le := by
        have := a.card_add_reserved_le
        have := Finset.card_erase_le (s := a.used) (a := b)
        omega }

/-- A reservation is backed by a free block. -/
theorem firstFree_isSome (a : Allocator) (hr : 0 < a.reserved) : a.firstFree.isSome := by
  by_contra hn
  have hnone : a.firstFree = none := by simpa using hn
  have hall : ∀ b < a.capacity, b ∈ a.used := by
    intro b hb
    have := List.find?_eq_none.1 hnone b (List.mem_range.2 hb)
    simpa using this
  have hsub : Finset.range a.capacity ⊆ a.used := fun b hb => hall b (Finset.mem_range.1 hb)
  have := Finset.card_le_card hsub
  have := a.card_add_reserved_le
  simp at *
  omega

theorem allocate_isSome (a : Allocator) (hr : 0 < a.reserved) : a.allocate.isSome := by
  unfold allocate
  split
  · rename_i h; have := a.firstFree_isSome hr; simp [h] at this
  · simp [hr]

theorem allocate_spec {a a' : Allocator} {b : ℕ} (h : a.allocate = some (b, a')) :
    b ∉ a.used ∧ a'.used = insert b a.used ∧ a'.reserved + 1 = a.reserved ∧
      a'.capacity = a.capacity := by
  unfold allocate at h
  split at h
  · cases h
  · rename_i b' hb
    split at h
    · simp only [Option.some.injEq, Prod.mk.injEq] at h
      obtain ⟨rfl, rfl⟩ := h
      refine ⟨(firstFree_spec hb).1, rfl, ?_, rfl⟩
      simp only
      omega
    · cases h

theorem allocate_ne_zero {a a' : Allocator} {b : ℕ} (h : a.allocate = some (b, a')) : b ≠ 0 := by
  rintro rfl
  exact (allocate_spec h).1 a.zero_mem

@[simp] theorem unreserve_used (a : Allocator) (n : ℕ) : (a.unreserve n).used = a.used := rfl
@[simp] theorem unreserve_reserved (a : Allocator) (n : ℕ) :
    (a.unreserve n).reserved = a.reserved - n := rfl

theorem reserve_spec {a a' : Allocator} {n : ℕ} (h : a.reserve n = some a') :
    n ≤ a.freeCount ∧ a'.used = a.used ∧ a'.reserved = a.reserved + n := by
  unfold reserve at h
  split at h
  · cases h; exact ⟨‹_›, rfl, rfl⟩
  · cases h

/-- Dropping a reservation right after taking it leaves the allocator as it was. -/
theorem unreserve_of_reserve {a a' : Allocator} {n : ℕ} (h : a.reserve n = some a') :
    a'.unreserve n = a := by
  unfold reserve at h
  split at h
  · cases h
    cases a
    simp [unreserve]
  · cases h

theorem reserve_eq_none {a : Allocator} {n : ℕ} : a.reserve n = none ↔ a.freeCount < n := by
  unfold reserve; split <;> simp <;> omega

@[simp] theorem free_reserved (a : Allocator) (b : ℕ) : (a.free b).reserved = a.reserved := by
  unfold free; split <;> rfl

@[simp] theorem free_zero (a : Allocator) : a.free 0 = a := rfl

theorem free_used (a : Allocator) (b : ℕ) :
    (a.free b).used = if b = 0 then a.used else a.used.erase b := by
  unfold free; split <;> simp_all

end Allocator

end Minfs
