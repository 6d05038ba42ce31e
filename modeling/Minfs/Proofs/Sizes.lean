import Mathlib.Logic.Relation
import Minfs.Proofs.Commit
import Minfs.Steps

/-!
# 32-bit sizes

`SetSize` takes a `uint32_t`, the inode's size field is 32 bits, and `AllocateAndCommitData`
computes a range's last byte as a `blk_t`: the model keeps each `% 2 ^ 32` the code has. None of
them wraps when the largest file size leaves a block below `2 ^ 32`: a write, an append or a
truncate that passes the size check ends below the largest file size, and every block that is
ever pending lies within it, rounded up to a block (`SizeBounds`, kept by every operation:
`sizeBounds_reachable`).

`Write` and `Truncate` flush before and after their own step. A property the flushes keep
(`FlushStable`) is followed through each of them once (`FlushStable.of_write`,
`FlushStable.of_truncate`), for the bounds and for the size itself, which a write sets to exactly
the end of what it wrote and a truncate to exactly its length (`getSize_write`,
`getSize_truncate`).

Every step marks only blocks within the largest file size (`inBounds_step`), and a round of a
drain only takes blocks out of the pending set: so every range `GetNextRange` returns to a drain
started anywhere in an operation ends below `2 ^ 32` bytes.
-/

namespace Minfs

variable (F : Format)

/-- The in-memory size and the inode's size within the largest file size, and every pending block
within it. -/
structure SizeBounds (f : File) : Prop where
  nodeSize_le : f.allocationState.nodeSize ≤ F.kMinfsMaxFileSize
  size_le : f.inode.size ≤ F.kMinfsMaxFileSize
  pending_le : ∀ b ∈ f.allocationState.pending, InBounds F b

variable {F}

theorem SizeBounds.mono {f f' : File} (h : SizeBounds F f)
    (hn : f'.allocationState.nodeSize = f.allocationState.nodeSize)
    (hs : f'.inode.size = f.inode.size)
    (hp : f'.allocationState.pending ⊆ f.allocationState.pending) : SizeBounds F f' :=
  ⟨hn ▸ h.nodeSize_le, hs ▸ h.size_le, fun b hb => h.pending_le b (hp hb)⟩

theorem sizeBounds_empty : SizeBounds F File.empty :=
  ⟨Nat.zero_le _, Nat.zero_le _, by simp [File.empty]⟩

theorem SizeBounds.cached {f : File} (h : SizeBounds F f) (t : Option Transaction) :
    SizeBounds F { f with cachedTransaction := t } := h.mono rfl rfl subset_rfl

theorem SizeBounds.modified {f : File} (h : SizeBounds F f) (now : ℕ) :
    SizeBounds F (f.updateModificationTime now) := h.mono rfl rfl subset_rfl

/-- A size within the largest file size survives `SetSize`'s `uint32_t`. -/
theorem setSize_getSize (hmax : F.kMinfsMaxFileSize ≤ 2 ^ 32 - kMinfsBlockSize) (f : File)
    {n : ℕ} (hn : n ≤ F.kMinfsMaxFileSize) : (f.setSize n).getSize = n := by
  simp only [File.setSize, File.getSize, AllocationState.getNodeSize,
    AllocationState.setNodeSize_nodeSize]
  exact Nat.mod_eq_of_lt (by simp only [kMinfsBlockSize] at hmax; omega)

theorem SizeBounds.setSize (hmax : F.kMinfsMaxFileSize ≤ 2 ^ 32 - kMinfsBlockSize) {f : File}
    (h : SizeBounds F f) {n : ℕ} (hn : n ≤ F.kMinfsMaxFileSize) : SizeBounds F (f.setSize n) :=
  ⟨(setSize_getSize hmax f hn).trans_le hn, h.size_le, h.pending_le⟩

theorem sizeBounds_acquireBlocks {fs : Vfs} :
    ∀ {f : File} {L : List ℕ}, SizeBounds F f → (∀ b ∈ L, InBounds F b) →
      SizeBounds F (acquireBlocks fs f L).2
  | _, [], h, _ => h
  | f, b :: bs, h, hL => by
    rw [acquireBlocks_cons]
    refine sizeBounds_acquireBlocks (L := bs) ?_ fun x hx => hL x (List.mem_cons_of_mem _ hx)
    split
    · exact h
    · refine ⟨h.nodeSize_le, h.size_le, fun x hx => ?_⟩
      simp only [acquireWritableBlock_snd, AllocationState.setPending_pending,
        Finset.mem_insert] at hx
      rcases hx with rfl | hx
      · exact hL x (List.mem_cons_self _ _)
      · exact h.pending_le x hx

/-- Every block of an accepted range ends within the largest file size, rounded up. -/
theorem inBounds_of_mem_blockRange {offset length b : ℕ}
    (hl : offset + length ≤ F.kMinfsMaxFileSize) (hb : b ∈ blockRange offset length) :
    InBounds F b := by
  unfold blockRange at hb
  split at hb
  · simp at hb
  · rw [List.mem_range'_1] at hb
    simp only [InBounds, roundUp, kMinfsBlockSize] at hb ⊢
    omega

/-- The block a truncate to an unaligned `len` keeps the head of. -/
theorem inBounds_tail {len : ℕ} (hl : len ≤ F.kMinfsMaxFileSize)
    (hr : len % kMinfsBlockSize ≠ 0) : InBounds F (len / kMinfsBlockSize) := by
  simp only [InBounds, roundUp, kMinfsBlockSize] at hr ⊢
  omega

theorem pending_deleteBlock_subset (fs : Vfs) (f : File) (b old : ℕ) (indirect : Bool) :
    (deleteBlock fs f b old indirect).2.allocationState.pending ⊆ f.allocationState.pending := by
  cases indirect <;> simp [Finset.erase_subset]

theorem sizeBounds_deleteBlock {fs : Vfs} {f : File} {b old : ℕ} {indirect : Bool}
    (h : SizeBounds F f) : SizeBounds F (deleteBlock fs f b old indirect).2 :=
  h.mono (by cases indirect <;> simp) (by simp) (pending_deleteBlock_subset _ _ _ _ _)

theorem sizeBounds_deleteBlocks : ∀ {fs : Vfs} {f : File} {L : List ℕ}, SizeBounds F f →
    SizeBounds F (deleteBlocks fs f L).2
  | _, _, [], h => h
  | _, _, _ :: bs, h => by
    rw [deleteBlocks_cons]
    exact sizeBounds_deleteBlocks (L := bs) ((sizeBounds_deleteBlock h).mono rfl rfl subset_rfl)

theorem sizeBounds_freeEmptyIndirects : ∀ {fs : Vfs} {f : File} {L : List IndirectSlot},
    SizeBounds F f → SizeBounds F (freeEmptyIndirects F fs f L).2
  | _, _, [], h => h
  | _, _, _ :: ss, h => by
    rw [freeEmptyIndirects_cons]
    split
    · exact sizeBounds_freeEmptyIndirects (L := ss)
        ((sizeBounds_deleteBlock h).mono rfl rfl subset_rfl)
    · exact sizeBounds_freeEmptyIndirects h

theorem advanceSize_le (size nodeSize lastByte : ℕ) :
    advanceSize size nodeSize lastByte ≤ max size nodeSize := by
  unfold advanceSize
  split_ifs <;> omega

/-- A drain keeps the bounds: it only takes blocks out of the pending set, and sets the inode's
size to at most the in-memory size. -/
theorem sizeBounds_commit {c : Ctx} {fs : Vfs} {f : File} (hc : SizeBounds F c.file)
    (h : allocateAndCommitData F c = .ok (fs, f)) : SizeBounds F f := by
  obtain ⟨c', h₁, -, rfl, -⟩ := allocateAndCommitData_spec F h
  refine allocateAndCommitLoop_preserves F (fun c => SizeBounds F c.file)
    (fun hc _ h => ?_) (fun hc h => ?_) (fun hc _ h => ?_) hc h₁
  · obtain ⟨a, t, r, rfl, -⟩ := swapBlock_spec F h
    exact hc.mono rfl rfl (Finset.erase_subset _ _)
  · obtain ⟨-, rfl⟩ := enqueueRange_spec h
    exact ⟨hc.nodeSize_le, (advanceSize_le _ _ _).trans (max_le hc.size_le hc.nodeSize_le),
      hc.pending_le⟩
  · rw [finishAllocation_eq] at h
    cases h
    exact ⟨hc.nodeSize_le, hc.nodeSize_le, by simp⟩

/-- A drain leaves the in-memory size alone. -/
theorem getSize_commit {c : Ctx} {fs : Vfs} {f : File}
    (h : allocateAndCommitData F c = .ok (fs, f)) : f.getSize = c.file.getSize := by
  obtain ⟨c', h₁, -, rfl, -⟩ := allocateAndCommitData_spec F h
  refine allocateAndCommitLoop_preserves F (fun c' => c'.file.getSize = c.file.getSize)
    (fun hc _ h => ?_) (fun hc h => ?_) (fun hc _ h => ?_) rfl h₁
  · obtain ⟨a, t, r, rfl, -⟩ := swapBlock_spec F h
    exact hc
  · obtain ⟨-, rfl⟩ := enqueueRange_spec h
    exact hc
  · rw [finishAllocation_eq] at h
    cases h
    exact hc

section Flush

variable (F)

/-- A property of the file that the flushes keep: caching or dropping the transaction, a new
modification time, and a drain. -/
structure FlushStable (P : File → Prop) : Prop where
  cached : ∀ {f : File} (t : Option Transaction), P f → P { f with cachedTransaction := t }
  modified : ∀ {f : File} (now : ℕ), P f → P (f.updateModificationTime now)
  commit : ∀ {c : Ctx} {fs : Vfs} {f : File}, P c.file → allocateAndCommitData F c = .ok (fs, f) →
    P f

variable {F} {P : File → Prop}

theorem flushStable_sizeBounds : FlushStable F (SizeBounds F) :=
  ⟨fun t h => h.cached t, fun now h => h.modified now, sizeBounds_commit⟩

/-- Every property of the size alone is kept by the flushes. -/
theorem flushStable_getSize (R : ℕ → Prop) : FlushStable F fun f => R f.getSize :=
  ⟨fun _ h => h, fun _ h => h, fun h hc => by rwa [getSize_commit hc]⟩

variable {fs fs' : Vfs} {f f' : File}

theorem FlushStable.of_flushTransaction (hP : FlushStable F P) {txn : Transaction} {force : Bool}
    (hf : P f) (h : flushTransaction F fs f txn force = .ok (fs', f')) : P f' := by
  unfold flushTransaction at h
  split at h
  · cases h; exact hP.cached _ hf
  · exact hP.commit hf h

theorem FlushStable.of_flushCachedWrites (hP : FlushStable F P) (hf : P f)
    (h : flushCachedWrites F fs f = .ok (fs', f')) : P f' := by
  unfold flushCachedWrites at h
  split at h
  · cases h; exact hf
  · exact hP.of_flushTransaction (hP.cached none hf) h

theorem FlushStable.of_checkAndFlush (hP : FlushStable F P) {st : Status} {t : Bool}
    {length offset : ℕ} (hf : P f) (h : checkAndFlush F fs f t length offset = .ok (st, fs', f')) :
    P f' := by
  unfold checkAndFlush at h
  split at h
  · cases h; exact hf
  · cases h; exact hf
  · obtain ⟨⟨fs₁, f₁⟩, h₁, h₂⟩ := bind_eq_ok.1 h
    cases h₂
    exact hP.of_flushCachedWrites hf h₁

/-- `GetTransaction` hands back the file without its cached transaction, or what flushing that
transaction by force made of it. -/
theorem getTransaction_file {n : ℕ} {t : Except Status Transaction}
    (h : getTransaction F fs f n = .ok (t, fs', f')) :
    f' = { f with cachedTransaction := none } ∨
      ∃ fs₁ txn, flushTransaction F fs₁ { f with cachedTransaction := none } txn true =
        .ok (fs', f') := by
  unfold getTransaction at h
  rcases hc : f.cachedTransaction with _ | t₀
  · simp only [hc, Option.isSome_none, Bool.and_false, Bool.false_eq_true, ite_false,
      pure_bind] at h
    split at h <;> exact .inl (congrArg (fun r => r.2.2) (Except.ok.inj h)).symm
  · simp only [hc] at h
    split at h
    · simp at h
    · simp only [pure_bind] at h
      split at h
      · obtain ⟨⟨fs₁, f₁⟩, h₁, h₂⟩ := bind_eq_ok.1 h
        cases h₂
        exact .inr ⟨_, _, h₁⟩
      · exact .inl (congrArg (fun r => r.2.2) (Except.ok.inj h)).symm

theorem FlushStable.of_getTransaction (hP : FlushStable F P) {n : ℕ}
    {t : Except Status Transaction} (hf : P f) (h : getTransaction F fs f n = .ok (t, fs', f')) :
    P f' := by
  rcases getTransaction_file h with rfl | ⟨fs₁, txn, h₁⟩
  · exact hP.cached none hf
  · exact hP.of_flushTransaction (hP.cached none hf) h₁

/-- What `Write` makes of a file, by what it returns: `P` holds up to the marks, which leave `M`
(as does marking nothing); `WriteInternal` turns `M` into `Q .ok actual` for the bytes it wrote,
or into `Q st 0` when it fails; every other return reports no byte, and the flushes keep `Q`. -/
theorem FlushStable.of_write (hP : FlushStable F P) {M : File → Prop}
    {Q : Status → ℕ → File → Prop} (hQ : ∀ st n, FlushStable F (Q st n))
    (hPQ : ∀ {st f}, P f → Q st 0 f) {length offset copied n : ℕ} {st : Status}
    (hPM : ∀ {f}, P f → M f)
    (hmark : ∀ {fs f}, offset + length ≤ F.kMinfsMaxFileSize → P f →
      M (markRequiredBlocksPending fs f offset length).2)
    (hwe : ∀ {fs f st}, M f → writeInternal fs f length offset copied = .error st → Q st 0 f)
    (hwi : ∀ {fs fs' f f' actual}, offset + length ≤ F.kMinfsMaxFileSize → M f →
      writeInternal fs f length offset copied = .ok (actual, fs', f') → Q .ok actual f')
    (hf : P f) (h : write F fs f length offset copied = .ok (st, n, fs', f')) : Q st n f' := by
  unfold write at h
  split at h
  · cases h; exact hPQ hf
  rename_i hacc
  have hl : offset + length ≤ F.kMinfsMaxFileSize := by omega
  simp only [pure_bind] at h
  obtain ⟨⟨st₁, fs₁, f₁⟩, h₁, h₂⟩ := bind_eq_ok.1 h
  have hf₁ := hP.of_checkAndFlush hf h₁
  dsimp only at h₂
  split at h₂
  · cases h₂; exact hPQ hf₁
  split at h₂
  · cases h₂; exact hPQ hf₁
  obtain ⟨⟨t, fs₂, f₂⟩, h₃, h₄⟩ := bind_eq_ok.1 h₂
  have hf₂ := hP.of_getTransaction hf₁ h₃
  dsimp only at h₄
  split at h₄
  · cases h₄; exact hPQ hf₂
  have hf₃ : M (if fs₂.dirtyCacheEnabled then markRequiredBlocksPending fs₂ f₂ offset length
      else (fs₂, f₂)).2 := by
    split
    · exact hmark hl hf₂
    · exact hPM hf₂
  split at h₄
  · rename_i hw
    cases h₄
    exact hwe hf₃ hw
  rename_i hw
  have hf₄ := hwi hl hf₃ hw
  split at h₄
  · rename_i h0
    cases h₄
    exact h0 ▸ hf₄
  · obtain ⟨⟨fs₅, f₅⟩, h₅, h₆⟩ := bind_eq_ok.1 h₄
    cases h₆
    exact (hQ _ _).of_flushTransaction ((hQ _ _).modified _ hf₄) h₅

/-- What `Truncate` makes of a file, by the status it returns: `TruncateInternal` turns `P` into
`Q .ok`, every other return is an error, and the flushes keep `Q .ok`. -/
theorem FlushStable.of_truncate (hP : FlushStable F P) {Q : Status → File → Prop}
    (hQ : FlushStable F (Q .ok)) (hPQ : ∀ {st f}, st ≠ .ok → P f → Q st f) {len : ℕ}
    {st : Status} (hti : ∀ {fs f}, len ≤ F.kMinfsMaxFileSize → P f →
      Q .ok (truncateInternal F fs f len).2)
    (hf : P f) (h : truncate F fs f len = .ok (st, fs', f')) : Q st f' := by
  unfold truncate at h
  split at h
  · cases h; exact hPQ Status.noConfusion hf
  rename_i hl
  simp only [pure_bind] at h
  obtain ⟨⟨fs₁, f₁⟩, h₁, h₂⟩ := bind_eq_ok.1 h
  have hf₁ := hP.of_flushCachedWrites hf h₁
  dsimp only at h₂
  split at h₂
  · rename_i hb
    cases h₂
    exact hPQ (by rw [Vfs.beginTransaction_eq_error hb]; exact Status.noConfusion) hf₁
  · obtain ⟨⟨fs₃, f₃⟩, h₃, h₄⟩ := bind_eq_ok.1 h₂
    cases h₄
    exact hQ.of_flushTransaction (hQ.modified _ (hti (by omega) hf₁)) h₃

end Flush

section Accepted

variable (hmax : F.kMinfsMaxFileSize ≤ 2 ^ 32 - kMinfsBlockSize)
include hmax

theorem sizeBounds_writeInternal {fs fs' : Vfs} {f f' : File} {length offset copied actual : ℕ}
    (hl : offset + length ≤ F.kMinfsMaxFileSize) (hf : SizeBounds F f)
    (h : writeInternal fs f length offset copied = .ok (actual, fs', f')) : SizeBounds F f' := by
  obtain ⟨rfl, ⟨-, -, rfl⟩ | ⟨-, -, rfl⟩⟩ := writeInternal_eq_ok h
  · exact hf
  · exact (sizeBounds_acquireBlocks hf fun b hb => inBounds_of_mem_blockRange (by omega) hb).setSize
      hmax (max_le hf.nodeSize_le (by omega))

/-- `WriteInternal` within the largest file size reports no byte and leaves the size, or reports
the bytes the buffer took and moves the size to exactly the end of what it wrote. -/
theorem getSize_writeInternal {fs fs' : Vfs} {f f' : File} {length offset copied actual : ℕ}
    (hl : offset + length ≤ F.kMinfsMaxFileSize) (hf : f.getSize ≤ F.kMinfsMaxFileSize)
    (h : writeInternal fs f length offset copied = .ok (actual, fs', f')) :
    (actual = 0 ∨ actual = min copied length) ∧
      f'.getSize = if actual = 0 then f.getSize else max f.getSize (offset + actual) := by
  obtain ⟨rfl, ⟨h0, -, rfl⟩ | ⟨h0, -, rfl⟩⟩ := writeInternal_eq_ok h
  · exact ⟨.inr rfl, by rw [if_pos h0]⟩
  · rw [if_neg h0.ne', setSize_getSize hmax _ (max_le hf (by omega))]
    exact ⟨.inr rfl, rfl⟩

theorem sizeBounds_truncateInternal {fs : Vfs} {f : File} {len : ℕ}
    (hl : len ≤ F.kMinfsMaxFileSize) (hf : SizeBounds F f) :
    SizeBounds F (truncateInternal F fs f len).2 := by
  unfold truncateInternal
  split
  · dsimp only
    refine SizeBounds.setSize hmax ?_ hl
    split
    · rename_i hr
      exact sizeBounds_acquireBlocks (sizeBounds_freeEmptyIndirects (sizeBounds_deleteBlocks hf))
        (by simpa using inBounds_tail hl hr.1)
    · exact sizeBounds_freeEmptyIndirects (sizeBounds_deleteBlocks hf)
  · split
    · exact hf.setSize hmax hl
    · exact hf

/-- `TruncateInternal` within the largest file size leaves the size at exactly `len`. -/
theorem getSize_truncateInternal (fs : Vfs) (f : File) {len : ℕ}
    (hl : len ≤ F.kMinfsMaxFileSize) : (truncateInternal F fs f len).2.getSize = len := by
  unfold truncateInternal
  split
  · exact setSize_getSize hmax _ hl
  · split
    · exact setSize_getSize hmax _ hl
    · exact le_antisymm (not_lt.1 ‹_›) (not_lt.1 ‹_›)

/-- `Write` keeps the bounds: it marks only blocks of the accepted range, and its size is at most
the end of that range. -/
theorem sizeBounds_write {fs fs' : Vfs} {f f' : File} {length offset copied n : ℕ}
    {st : Status} (hf : SizeBounds F f)
    (h : write F fs f length offset copied = .ok (st, n, fs', f')) : SizeBounds F f' :=
  flushStable_sizeBounds.of_write (fun _ _ => flushStable_sizeBounds) id id
    (fun hl hf => sizeBounds_acquireBlocks hf fun _ hb => inBounds_of_mem_blockRange hl hb)
    (fun hf _ => hf) (sizeBounds_writeInternal hmax) hf h

/-- `Write` reports no byte and leaves the size, or reports the bytes the buffer took and moves
the size to exactly `max(GetSize(), offset + actual)`, unwrapped. -/
theorem getSize_write {fs fs' : Vfs} {f f' : File} {length offset copied n : ℕ}
    {st : Status} (hf : f.getSize ≤ F.kMinfsMaxFileSize)
    (h : write F fs f length offset copied = .ok (st, n, fs', f')) :
    (n = 0 ∨ n = min copied length) ∧
      f'.getSize = if n = 0 then f.getSize else max f.getSize (offset + n) :=
  (flushStable_getSize (· = f.getSize)).of_write
    (fun _ n => flushStable_getSize fun x => (n = 0 ∨ n = min copied length) ∧
      x = if n = 0 then f.getSize else max f.getSize (offset + n))
    (fun hm => ⟨.inl rfl, hm⟩) id (fun _ hm => getSize_acquireBlocks.trans hm)
    (fun hm _ => ⟨.inl rfl, hm⟩)
    (fun hl hm hw => hm ▸ getSize_writeInternal hmax hl (hm.trans_le hf) hw) rfl h

/-- `Append` writes at the end: the file grows by exactly the bytes it reports, and the end it
returns is the new size. -/
theorem getSize_append {fs fs' : Vfs} {f f' : File} {length copied e n : ℕ} {st : Status}
    (hf : f.getSize ≤ F.kMinfsMaxFileSize)
    (h : append F fs f length copied = .ok (st, e, n, fs', f')) :
    (n = 0 ∨ n = min copied length) ∧ e = f.getSize + n ∧ f'.getSize = f.getSize + n := by
  obtain ⟨⟨st₁, n₁, fs₁, f₁⟩, h₁, h₂⟩ := bind_eq_ok.1 h
  cases h₂
  obtain ⟨hn, hsize⟩ := getSize_write hmax hf h₁
  have : f'.getSize = f.getSize + n := by
    rw [hsize]
    split_ifs <;> omega
  exact ⟨hn, this, this⟩

theorem sizeBounds_truncate {fs fs' : Vfs} {f f' : File} {len : ℕ} {st : Status}
    (hf : SizeBounds F f) (h : truncate F fs f len = .ok (st, fs', f')) : SizeBounds F f' :=
  flushStable_sizeBounds.of_truncate flushStable_sizeBounds (fun _ => id)
    (sizeBounds_truncateInternal hmax) hf h

/-- `Truncate` that returns `ZX_OK` leaves the size at exactly `len`; one that fails leaves it. -/
theorem getSize_truncate {fs fs' : Vfs} {f f' : File} {len : ℕ} {st : Status}
    (h : truncate F fs f len = .ok (st, fs', f')) :
    f'.getSize = if st = .ok then len else f.getSize :=
  (flushStable_getSize (· = f.getSize)).of_truncate
    (Q := fun st f' => f'.getSize = if st = .ok then len else f.getSize)
    (flushStable_getSize (· = if Status.ok = .ok then len else f.getSize))
    (fun hst hm => by dsimp only; rw [if_neg hst]; exact hm)
    (fun hl _ => getSize_truncateInternal hmax _ _ hl) rfl h

/-- Every operation keeps the bounds. -/
theorem sizeBounds_run {op : FileOp} {s s' : Vfs × File} (hs : SizeBounds F s.2)
    (h : op.run F s = .ok s') : SizeBounds F s'.2 := by
  obtain ⟨fs, f⟩ := s
  cases op with
  | write length offset copied =>
    rw [FileOp.run_write] at h
    obtain ⟨⟨st, n, fs', f'⟩, h₁, rfl⟩ := map_eq_ok.1 h
    exact sizeBounds_write hmax hs h₁
  | append length copied =>
    rw [FileOp.run_append] at h
    obtain ⟨⟨st, e, n, fs', f'⟩, h₁, rfl⟩ := map_eq_ok.1 h
    obtain ⟨⟨st₁, n₁, fs₁, f₁⟩, h₂, h₃⟩ := bind_eq_ok.1 h₁
    cases h₃
    exact sizeBounds_write hmax hs h₂
  | truncate len =>
    rw [FileOp.run_truncate] at h
    obtain ⟨⟨st, fs', f'⟩, h₁, rfl⟩ := map_eq_ok.1 h
    exact sizeBounds_truncate hmax hs h₁
  | sync =>
    rw [FileOp.run_sync] at h
    exact flushStable_sizeBounds.of_flushCachedWrites hs h
  | cancelPendingWriteback =>
    cases h
    exact ⟨hs.size_le, hs.size_le, by simp [File.cancelPendingWriteback]⟩

theorem sizeBounds_reachable {s : Vfs × File} (hs : Reachable F s) : SizeBounds F s.2 := by
  induction hs with
  | init => exact sizeBounds_empty
  | step op _ h ih => exact sizeBounds_run hmax ih h

end Accepted

/-- After a write whose page buffer took none of its bytes, block `0` is pending past the size,
and the forced flush of a `Truncate` fires the assertion on the last byte. -/
theorem write_failure_leaves_block_past_size :
    ∃ fs f, runOps .minfs [.write kMinfsBlockSize 0 0] (.sample, .empty) = .ok (fs, f) ∧
      Reachable .minfs (fs, f) ∧ 0 ∈ f.allocationState.pending ∧
      roundUp f.allocationState.getNodeSize kMinfsBlockSize < (0 + 1) * kMinfsBlockSize ∧
      truncate .minfs fs f 0 = .error .lastByte :=
  ⟨_, _, rfl, reachable_runOps _ [.write kMinfsBlockSize 0 0] (.init _ Vfs.sample_idle) rfl,
    by decide, by decide, rfl⟩

section Drains

open Relation

/-- No step marks a block past the largest file size, rounded up. -/
theorem inBounds_step {a b : OpState} (h : Step F a b)
    (ha : ∀ x ∈ a.file.allocationState.pending, InBounds F x) :
    ∀ x ∈ b.file.allocationState.pending, InBounds F x := by
  cases h with
  | take | start _ | extend _ | drop | cache _ _ | setSize _ | touch => exact ha
  | commit h =>
    obtain ⟨c', -, -, rfl, hp⟩ := allocateAndCommitData_spec F h
    simp [hp]
  | acquire x hx =>
    intro y hy
    rw [acquireBlocks_pending, List.toFinset_cons, List.toFinset_nil, insert_emptyc_eq,
      Finset.mem_union, Finset.mem_singleton] at hy
    rcases hy with hy | rfl
    exacts [ha y hy, hx]
  | deleteData x =>
    rw [deleteBlocks_singleton]
    exact fun y hy => ha y (pending_deleteBlock_subset _ _ _ _ _ hy)
  | deleteIndirect s =>
    rw [freeEmptyIndirects_singleton]
    split
    · exact fun y hy => ha y (pending_deleteBlock_subset _ _ _ _ _ hy)
    · exact ha
  | cancel => simp [File.cancelPendingWriteback]

theorem inBounds_steps {a b : OpState} (h : ReflTransGen (Step F) a b)
    (ha : ∀ x ∈ a.file.allocationState.pending, InBounds F x) :
    ∀ x ∈ b.file.allocationState.pending, InBounds F x := by
  induction h with
  | refl => exact ha
  | tail _ hst ih => exact inBounds_step hst ih

variable (hmax : F.kMinfsMaxFileSize ≤ 2 ^ 32 - kMinfsBlockSize)
include hmax

/-- A run of pending blocks within the largest file size ends below `2 ^ 32` bytes. -/
theorem getNextRange_end_lt {a : AllocationState} {start count : ℕ}
    (hp : ∀ b ∈ a.pending, InBounds F b) (h : a.getNextRange = some (start, count)) :
    (start + count) * kMinfsBlockSize < 2 ^ 32 := by
  obtain ⟨hpos, -, hrun⟩ := AllocationState.getNextRange_spec h
  have hlast := hp _ (hrun (count - 1) (by omega))
  simp only [InBounds, roundUp, kMinfsBlockSize] at hlast hmax ⊢
  omega

/-- At every round of a drain that starts with its pending blocks within the largest file size,
the range `GetNextRange` returns ends below `2 ^ 32` bytes: the `blk_t` product is exact. -/
theorem drainRound_end_exact {c c₁ : Ctx}
    (hc : ∀ b ∈ c.file.allocationState.pending, InBounds F b)
    (h : ReflTransGen (DrainRound F) c c₁) {start count : ℕ}
    (hr : c₁.file.allocationState.getNextRange = some (start, count)) :
    (start + count) * kMinfsBlockSize % 2 ^ 32 = (start + count) * kMinfsBlockSize :=
  Nat.mod_eq_of_lt (getNextRange_end_lt hmax
    (fun b hb => hc b (DrainRound.pending_subset_of_reaches F h hb)) hr)

/-- With the largest file size a block below `2 ^ 32`, nothing wraps. Every reachable file has
its in-memory and inode sizes within the largest file size. From it, a write that reports `n`
bytes, no more than its page buffer took, leaves the size, if `n` is `0`, or moves it to exactly
`max(GetSize(), offset + n)`; an append moves it to exactly `GetSize() + n` and returns that as
its end; and a truncate moves it to exactly `len` if it returns `ZX_OK`, and leaves it otherwise.
`SetSize` would wrap each of them modulo `2 ^ 32` without the bound. Every drain started at any
state the steps of an operation reach, at every round, gets from `GetNextRange` a range that ends
below `2 ^ 32` bytes, so the `blk_t` product of `AllocateAndCommitData` is exact. -/
theorem size_arithmetic_exact {s : Vfs × File} (hs : Reachable F s) :
    s.2.getSize ≤ F.kMinfsMaxFileSize ∧ s.2.inode.size ≤ F.kMinfsMaxFileSize ∧
    (∀ length offset copied st n fs' f',
      write F s.1 s.2 length offset copied = .ok (st, n, fs', f') →
      (n = 0 ∨ n = min copied length) ∧
        f'.getSize = if n = 0 then s.2.getSize else max s.2.getSize (offset + n)) ∧
    (∀ length copied st e n fs' f', append F s.1 s.2 length copied = .ok (st, e, n, fs', f') →
      (n = 0 ∨ n = min copied length) ∧ e = s.2.getSize + n ∧ f'.getSize = s.2.getSize + n) ∧
    (∀ len st fs' f', truncate F s.1 s.2 len = .ok (st, fs', f') →
      f'.getSize = if st = .ok then len else s.2.getSize) ∧
    ∀ o, ReflTransGen (Step F) ⟨s.1, s.2, none⟩ o → ∀ t c,
      ReflTransGen (DrainRound F) ⟨o.fs, o.file, t⟩ c → ∀ start count,
      c.file.allocationState.getNextRange = some (start, count) →
      (start + count) * kMinfsBlockSize % 2 ^ 32 = (start + count) * kMinfsBlockSize := by
  have hb := sizeBounds_reachable hmax hs
  refine ⟨hb.nodeSize_le, hb.size_le, fun _ _ _ _ _ _ _ h => getSize_write hmax hb.nodeSize_le h,
    fun _ _ _ _ _ _ _ h => getSize_append hmax hb.nodeSize_le h,
    fun _ _ _ _ h => getSize_truncate hmax h, fun o ho t c hc _ _ hr => ?_⟩
  exact drainRound_end_exact hmax (inBounds_steps ho hb.pending_le) hc hr

end Drains

theorem size_arithmetic_exact_minfs :
    Format.minfs.kMinfsMaxFileSize ≤ 2 ^ 32 - kMinfsBlockSize ∧
      Reachable .minfs (Vfs.sample, File.empty) ∧
      (File.empty.getSize ≤ Format.minfs.kMinfsMaxFileSize ∧
        File.empty.inode.size ≤ Format.minfs.kMinfsMaxFileSize ∧
        (∀ length offset copied st n fs' f',
          write .minfs Vfs.sample File.empty length offset copied = .ok (st, n, fs', f') →
          (n = 0 ∨ n = min copied length) ∧
            f'.getSize = if n = 0 then File.empty.getSize
              else max File.empty.getSize (offset + n)) ∧
        (∀ length copied st e n fs' f',
          append .minfs Vfs.sample File.empty length copied = .ok (st, e, n, fs', f') →
          (n = 0 ∨ n = min copied length) ∧ e = File.empty.getSize + n ∧
            f'.getSize = File.empty.getSize + n) ∧
        (∀ len st fs' f', truncate .minfs Vfs.sample File.empty len = .ok (st, fs', f') →
          f'.getSize = if st = .ok then len else File.empty.getSize) ∧
        ∀ o, Relation.ReflTransGen (Step .minfs) ⟨Vfs.sample, File.empty, none⟩ o → ∀ t c,
          Relation.ReflTransGen (DrainRound .minfs) ⟨o.fs, o.file, t⟩ c → ∀ start count,
          c.file.allocationState.getNextRange = some (start, count) →
          (start + count) * kMinfsBlockSize % 2 ^ 32 = (start + count) * kMinfsBlockSize) :=
  ⟨by decide, .init _ Vfs.sample_idle,
    size_arithmetic_exact (by decide) (.init _ Vfs.sample_idle)⟩

end Minfs
