import Minfs.Allocator

/-!
# The filesystem a file lives in

What `File` reaches through `Vfs()`: the data-block allocator, the dirty-byte counter, the mount's
settings, and the transactions. A `Transaction` holds the blocks reserved for it and not yet
taken, and the data writes enqueued on it; dropping it gives the reservation back, committing it
hands its writes to the journal (`committed`).

`ContinueTransaction` is `minfs_host.cc`'s: the cached transaction is reopened and its reservation
extended. The rest is modelled from the spec: `BeginTransaction` reserves, `BlockSwap` is
"allocate a new absolute block and free the old one in one step", and a block taken past the
transaction's reservation is an assertion.
-/

namespace Minfs

/-- A transaction: its unused block reservation, its enqueued data writes, whether it pins the
vnode. -/
structure Transaction where
  reserved : ℕ
  data : List Operation
  pinned : Bool

/-- The filesystem: its allocator, its dirty bytes, its settings and what it has committed. -/
structure Vfs where
  allocator : Allocator
  dirtyBytes : ℕ
  /-- `DirtyCacheEnabled()`: a mount option. -/
  dirtyCacheEnabled : Bool
  /-- The dirty-byte count past which a write flushes first: the spec's throttle knob. -/
  maxDirtyBytes : ℕ
  /-- `Limits().GetMaximumMetaDataBlocks()`. -/
  maxMetaDataBlocks : ℕ
  /-- `WritebackCapacity()`. -/
  writebackCapacity : ℕ
  /-- `Info().dat_block`: where the data region starts. -/
  datBlock : ℕ
  /-- `GetTimeUTC()`. -/
  now : ℕ
  /-- The data writes of committed transactions, in order. -/
  committed : List Operation

namespace Vfs

/-- `BeginTransaction(0, reserve_blocks)`. -/
def beginTransaction (fs : Vfs) (reserveBlocks : ℕ) : Except Status (Vfs × Transaction) :=
  match fs.allocator.reserve reserveBlocks with
  | none => .error .errNoSpace
  | some a => .ok ({ fs with allocator := a }, ⟨reserveBlocks, [], false⟩)

/-- `Transaction::ExtendBlockReservation`. -/
def extendBlockReservation (fs : Vfs) (t : Transaction) (reserveBlocks : ℕ) :
    Status × Vfs × Transaction :=
  match fs.allocator.reserve reserveBlocks with
  | none => (.errNoSpace, fs, t)
  | some a => (.ok, { fs with allocator := a }, { t with reserved := t.reserved + reserveBlocks })

/-- `Minfs::ContinueTransaction`: the cached transaction comes back whether or not its
reservation could be extended. -/
def continueTransaction (fs : Vfs) (reserveBlocks : ℕ) (cached : Transaction) :
    Status × Vfs × Transaction :=
  fs.extendBlockReservation cached reserveBlocks

/-- The transaction's destructor: its unused reservation goes back to the allocator. -/
def dropTransaction (fs : Vfs) (t : Transaction) : Vfs :=
  { fs with allocator := fs.allocator.unreserve t.reserved }

/-- `CommitTransaction`: the data writes go to the journal and the unused reservation back. -/
def commitTransaction (fs : Vfs) (t : Transaction) : Vfs :=
  { fs with allocator := fs.allocator.unreserve t.reserved, committed := fs.committed ++ t.data }

/-- A block taken from the transaction's reservation. -/
def blockNew (fs : Vfs) (t : Transaction) : Except Panic (ℕ × Vfs × Transaction) :=
  if 0 < t.reserved then
    match fs.allocator.allocate with
    | none => .error .reservation
    | some (b, a) => .ok (b, { fs with allocator := a }, { t with reserved := t.reserved - 1 })
  else .error .reservation

/-- `BlockSwap(transaction, old, &new)`: a new block, and the old one, if any, freed. -/
def blockSwap (fs : Vfs) (t : Transaction) (old : ℕ) : Except Panic (ℕ × Vfs × Transaction) :=
  match fs.blockNew t with
  | .error p => .error p
  | .ok (b, fs, t) => .ok (b, { fs with allocator := fs.allocator.free old }, t)

/-- `PendingWork::DeallocateBlock`. -/
def deallocateBlock (fs : Vfs) (b : ℕ) : Vfs := { fs with allocator := fs.allocator.free b }

/-- `AddDirtyBytes(bytes, allocated)`. -/
def addDirtyBytes (fs : Vfs) (bytes : ℕ) (_allocated : Bool) : Vfs :=
  { fs with dirtyBytes := fs.dirtyBytes + bytes }

/-- `SubtractDirtyBytes(bytes, allocated)`. -/
def subtractDirtyBytes (fs : Vfs) (bytes : ℕ) (_allocated : Bool) : Vfs :=
  { fs with dirtyBytes := fs.dirtyBytes - bytes }

@[simp] theorem addDirtyBytes_dirtyBytes (fs : Vfs) (bytes : ℕ) (x : Bool) :
    (fs.addDirtyBytes bytes x).dirtyBytes = fs.dirtyBytes + bytes := rfl
@[simp] theorem subtractDirtyBytes_dirtyBytes (fs : Vfs) (bytes : ℕ) (x : Bool) :
    (fs.subtractDirtyBytes bytes x).dirtyBytes = fs.dirtyBytes - bytes := rfl
@[simp] theorem addDirtyBytes_allocator (fs : Vfs) (bytes : ℕ) (x : Bool) :
    (fs.addDirtyBytes bytes x).allocator = fs.allocator := rfl
@[simp] theorem subtractDirtyBytes_allocator (fs : Vfs) (bytes : ℕ) (x : Bool) :
    (fs.subtractDirtyBytes bytes x).allocator = fs.allocator := rfl
@[simp] theorem deallocateBlock_dirtyBytes (fs : Vfs) (b : ℕ) :
    (fs.deallocateBlock b).dirtyBytes = fs.dirtyBytes := rfl
@[simp] theorem commitTransaction_dirtyBytes (fs : Vfs) (t : Transaction) :
    (fs.commitTransaction t).dirtyBytes = fs.dirtyBytes := rfl
@[simp] theorem dropTransaction_dirtyBytes (fs : Vfs) (t : Transaction) :
    (fs.dropTransaction t).dirtyBytes = fs.dirtyBytes := rfl

theorem blockNew_spec {fs fs' : Vfs} {t t' : Transaction} {b : ℕ}
    (h : fs.blockNew t = .ok (b, fs', t')) :
    ∃ a r, fs' = { fs with allocator := a } ∧ t' = { t with reserved := r } ∧ b ≠ 0 ∧
      a.reserved + 1 = fs.allocator.reserved ∧ r + 1 = t.reserved ∧
      b ∉ fs.allocator.used ∧ a.used = insert b fs.allocator.used := by
  unfold blockNew at h
  split at h
  · split at h
    · cases h
    · rename_i b' a ha
      simp only [Except.ok.injEq, Prod.mk.injEq] at h
      obtain ⟨rfl, rfl, rfl⟩ := h
      obtain ⟨h1, h2, h3, -⟩ := Allocator.allocate_spec ha
      exact ⟨a, _, rfl, rfl, Allocator.allocate_ne_zero ha, h3, by omega, h1, h2⟩
  · cases h

theorem blockSwap_spec {fs fs' : Vfs} {t t' : Transaction} {old b : ℕ}
    (h : fs.blockSwap t old = .ok (b, fs', t')) :
    ∃ a r, fs' = { fs with allocator := a } ∧ t' = { t with reserved := r } ∧ b ≠ 0 ∧
      a.reserved + 1 = fs.allocator.reserved ∧ r + 1 = t.reserved := by
  unfold blockSwap at h
  split at h
  · cases h
  · rename_i b' fs₁ t₁ h₁
    simp only [Except.ok.injEq, Prod.mk.injEq] at h
    obtain ⟨rfl, rfl, rfl⟩ := h
    obtain ⟨a, r, rfl, rfl, h1, h2, h3, -⟩ := blockNew_spec h₁
    exact ⟨a.free old, r, rfl, rfl, h1, by simpa using h2, h3⟩

/-- `BlockSwap`'s allocator: the new block taken from the free ones, then the old one freed. -/
theorem blockSwap_allocator {fs fs' : Vfs} {t t' : Transaction} {old b : ℕ}
    (h : fs.blockSwap t old = .ok (b, fs', t')) :
    ∃ a : Allocator, fs'.allocator = a.free old ∧ a.used = insert b fs.allocator.used ∧
      b ∉ fs.allocator.used := by
  unfold blockSwap at h
  split at h
  · cases h
  · rename_i b' fs₁ t₁ h₁
    simp only [Except.ok.injEq, Prod.mk.injEq] at h
    obtain ⟨rfl, rfl, rfl⟩ := h
    obtain ⟨a, r, rfl, rfl, -, -, -, h1, h2⟩ := blockNew_spec h₁
    exact ⟨a, rfl, h2, h1⟩

theorem beginTransaction_spec {fs fs' : Vfs} {n : ℕ} {t : Transaction}
    (h : fs.beginTransaction n = .ok (fs', t)) :
    ∃ a, fs' = { fs with allocator := a } ∧ t = ⟨n, [], false⟩ ∧
      a.used = fs.allocator.used ∧ a.reserved = fs.allocator.reserved + n := by
  unfold beginTransaction at h
  split at h
  · cases h
  · rename_i a ha
    cases h
    obtain ⟨-, h1, h2⟩ := Allocator.reserve_spec ha
    exact ⟨a, rfl, rfl, h1, h2⟩

/-- `BeginTransaction` fails only for want of space. -/
theorem beginTransaction_eq_error {fs : Vfs} {n : ℕ} {st : Status}
    (h : fs.beginTransaction n = .error st) : st = .errNoSpace := by
  unfold beginTransaction at h
  split at h
  · cases h; rfl
  · cases h

/-- A transaction dropped as soon as it is begun leaves the filesystem as it was. -/
theorem dropTransaction_of_beginTransaction {fs fs' : Vfs} {n : ℕ} {t : Transaction}
    (h : fs.beginTransaction n = .ok (fs', t)) : fs'.dropTransaction t = fs := by
  unfold beginTransaction at h
  split at h
  · cases h
  · rename_i a ha
    cases h
    show { fs with allocator := a.unreserve n } = fs
    rw [Allocator.unreserve_of_reserve ha]

/-- `ExtendBlockReservation` grows the reservation by `n` blocks, or by none when they are not
free. -/
theorem extendBlockReservation_spec (fs : Vfs) (t : Transaction) (n : ℕ) :
    ∃ a k, (fs.extendBlockReservation t n).2.1 = { fs with allocator := a } ∧
      (fs.extendBlockReservation t n).2.2 = { t with reserved := t.reserved + k } ∧
      a.used = fs.allocator.used ∧ a.reserved = fs.allocator.reserved + k := by
  unfold extendBlockReservation
  split
  · exact ⟨fs.allocator, 0, rfl, rfl, rfl, rfl⟩
  · rename_i a ha
    obtain ⟨-, h1, h2⟩ := Allocator.reserve_spec ha
    exact ⟨a, n, rfl, rfl, h1, h2⟩

/-- With reservation left on the transaction and in the allocator, a block comes. -/
theorem blockNew_ok (fs : Vfs) (t : Transaction) (ht : 0 < t.reserved)
    (ha : 0 < fs.allocator.reserved) : ∃ b fs' t', fs.blockNew t = .ok (b, fs', t') := by
  unfold blockNew
  have := fs.allocator.allocate_isSome ha
  rcases h : fs.allocator.allocate with _ | ⟨b, a⟩
  · simp [h] at this
  · exact ⟨b, _, _, by simp [ht, h]; exact ⟨rfl, rfl⟩⟩

theorem blockSwap_ok (fs : Vfs) (t : Transaction) (old : ℕ) (ht : 0 < t.reserved)
    (ha : 0 < fs.allocator.reserved) : ∃ b fs' t', fs.blockSwap t old = .ok (b, fs', t') := by
  obtain ⟨b, fs', t', h⟩ := blockNew_ok fs t ht ha
  exact ⟨b, _, t', by rw [blockSwap, h]⟩

theorem blockNew_eq_error {fs : Vfs} {t : Transaction} {p : Panic}
    (h : fs.blockNew t = .error p) : t.reserved = 0 ∨ fs.allocator.reserved = 0 := by
  by_contra hc
  push_neg at hc
  obtain ⟨b, fs', t', h'⟩ := blockNew_ok fs t (Nat.pos_of_ne_zero hc.1) (Nat.pos_of_ne_zero hc.2)
  rw [h] at h'
  cases h'

/-- A mounted filesystem of eight data blocks with the dirty cache on, nothing written yet. -/
def sample : Vfs where
  allocator := {
    capacity := 8
    used := {0}
    reserved := 0
    zero_mem := by decide
    lt_capacity := by decide
    card_add_reserved_le := by decide }
  dirtyBytes := 0
  dirtyCacheEnabled := true
  maxDirtyBytes := 16 * kMinfsBlockSize
  maxMetaDataBlocks := 8
  writebackCapacity := 64
  datBlock := 100
  now := 0
  committed := []

end Vfs

end Minfs
