import Minfs.Proofs.View

/-!
# What the mapped and pending blocks hold

With the dirty cache on, a write leaves its blocks pending, their data in the page buffer, and a
later drain maps them; so what a file holds is its mapped blocks and its pending ones together
(`File.content`). A drain maps what was pending and nothing else, so it keeps them
(`content_commit`), and `TruncateInternal` keeps those below the new end, rounded up to a block
(`truncateInternal_content`).

So, with the dirty cache on or off, a run of operations that returns, whose writes' page buffer
takes every byte and which cancels no pending writeback, leaves the file's size and its mapped and
pending blocks those of the view of the run as each operation reported it (`execOps_holds`). What
it leaves out is where a file loses track of its data: a write whose buffer takes fewer bytes
than it marked keeps the blocks past them with the size short of them, and cancelling the
writeback drops what is pending.
-/

namespace Minfs

/-- The blocks that hold the file's data: those mapped, and those pending, whose data waits in
the page buffer for the drain. -/
def File.content (f : File) : Finset ℕ := f.inode.tree.leaves ∪ f.allocationState.pending

/-- The file holds the view: its size is the view's, and its mapped and pending blocks are the
view's blocks. -/
structure File.Holds (f : File) (v : FileView) : Prop where
  size_eq : f.getSize = v.size
  content_eq : f.content = v.blocks

/-- An operation that keeps track of the data: a write or an append whose page buffer takes every
byte, a truncate or a sync; not a cancelled writeback, which drops what is pending. -/
def FileOp.KeepsData : FileOp → Prop
  | .write length _ copied | .append length copied => length ≤ copied
  | .truncate _ | .sync => True
  | .cancelPendingWriteback => False

instance : (op : FileOp) → Decidable op.KeepsData
  | .write length _ copied | .append length copied => inferInstanceAs (Decidable (length ≤ copied))
  | .truncate _ => inferInstanceAs (Decidable True)
  | .sync => inferInstanceAs (Decidable True)
  | .cancelPendingWriteback => inferInstanceAs (Decidable False)

theorem File.Holds.empty : File.empty.Holds .empty := ⟨rfl, rfl⟩

/-- The file holds the view, but for the blocks of the range `MarkRequiredBlocksPending` may have
marked ahead of `WriteInternal`. -/
structure File.HoldsMarked (f : File) (v : FileView) (offset length : ℕ) : Prop where
  size_eq : f.getSize = v.size
  content_eq : f.content = v.blocks ∨ f.content = v.blocks ∪ (blockRange offset length).toFinset

@[simp] theorem File.content_setSize (f : File) (n : ℕ) : (f.setSize n).content = f.content := by
  simp [File.content]

theorem content_acquireBlocks (fs : Vfs) (f : File) (L : List ℕ) :
    (acquireBlocks fs f L).2.content = f.content ∪ L.toFinset := by
  rw [File.content, File.content, acquireBlocks_inode, acquireBlocks_pending, Finset.union_assoc]

theorem content_deleteBlocks (fs : Vfs) (f : File) (L : List ℕ) :
    (deleteBlocks fs f L).2.content = f.content \ L.toFinset := by
  ext b
  simp only [File.content, Finset.mem_union, Finset.mem_sdiff, BlockMap.mem_leaves,
    deleteBlocks_ptr, deleteBlocks_pending, List.mem_toFinset]
  by_cases hb : b ∈ L <;> simp [hb]

variable (F : Format)

/-- The drain maps what was pending and nothing else: the file holds the same blocks. -/
theorem content_commit {c : Ctx} {fs : Vfs} {f : File}
    (h : allocateAndCommitData F c = .ok (fs, f)) : f.content = c.file.content := by
  obtain ⟨c', -, -, hf, hp⟩ := allocateAndCommitData_spec F h
  rw [File.content, leaves_commit F h, hf, hp, Finset.union_empty]
  rfl

theorem content_freeEmptyIndirects (fs : Vfs) (f : File) (L : List IndirectSlot) :
    (freeEmptyIndirects F fs f L).2.content = f.content := by
  ext b
  simp only [File.content, Finset.mem_union, BlockMap.mem_leaves, (freeEmptyIndirects_file F L).1,
    (freeEmptyIndirects_file F L).2.1]

/-- The blocks of a set from `s` up to its largest, taken out of it, leave those below `s`. -/
theorem sdiff_range'_sup (S : Finset ℕ) (s : ℕ) :
    S \ (List.range' s (S.sup id + 1 - s)).toFinset = S.filter (· < s) := by
  ext b
  simp only [Finset.mem_sdiff, List.mem_toFinset, List.mem_range'_1, Finset.mem_filter]
  refine ⟨fun ⟨hb, hn⟩ => ⟨hb, ?_⟩, fun ⟨hb, hlt⟩ => ⟨hb, by omega⟩⟩
  have : b ≤ S.sup id := Finset.le_sup (f := id) hb
  omega

/-- `TruncateInternal` shrinking the file keeps what it holds below the new end, rounded up to a
block: the blocks from there up to the last it holds are deleted, freeing indirect blocks moves
no data, and the block the end falls in is marked only when it is mapped. -/
theorem truncateInternal_content (fs : Vfs) {f : File} {len : ℕ} (hlt : len < f.getSize) :
    (truncateInternal F fs f len).2.content =
      f.content.filter (· < (len + kMinfsBlockSize - 1) / kMinfsBlockSize) := by
  rw [truncateInternal_of_lt F hlt]
  dsimp only
  rw [File.content_setSize]
  split
  · rename_i hc
    rw [content_acquireBlocks, Finset.union_eq_left.2 ?_]
    · rw [content_freeEmptyIndirects, content_deleteBlocks]
      exact sdiff_range'_sup f.content _
    · simpa [File.content, BlockMap.mem_leaves] using Or.inl hc.2
  · rw [content_freeEmptyIndirects, content_deleteBlocks]
    exact sdiff_range'_sup f.content _

/-- The flushes keep what the file holds. -/
theorem flushStable_holds (v : FileView) : FlushStable F (·.Holds v) :=
  ⟨fun _ h => ⟨h.size_eq, h.content_eq⟩, fun _ h => ⟨h.size_eq, h.content_eq⟩,
    fun h hc =>
      ⟨(getSize_commit hc).trans h.size_eq, (content_commit F hc).trans h.content_eq⟩⟩

section Holds

variable {F} (hmax : F.kMinfsMaxFileSize ≤ 2 ^ 32 - kMinfsBlockSize) {v : FileView}
include hmax

/-- `WriteInternal` with a buffer that takes every byte, on a file that holds the view but for
the marks `MarkRequiredBlocksPending` may have made on the range: all the bytes written, and the
file holding the view's write. The marks add nothing `WriteInternal` does not. -/
theorem holds_writeInternal {fs fs' : Vfs} {f f' : File} {length offset copied actual : ℕ}
    (hc : length ≤ copied) (hv : v.size ≤ F.kMinfsMaxFileSize)
    (hl : offset + length ≤ F.kMinfsMaxFileSize) (hf : f.HoldsMarked v offset length)
    (h : writeInternal fs f length offset copied = .ok (actual, fs', f')) :
    f'.Holds (v.apply (.write length offset copied) (.ok, actual)) := by
  obtain ⟨rfl, hw⟩ := writeInternal_eq_ok h
  rw [min_eq_right hc] at hw ⊢
  rcases hw with ⟨rfl, -, rfl⟩ | ⟨h0, -, rfl⟩
  · have hc := hf.content_eq
    rw [blockRange, if_pos rfl, List.toFinset_nil, Finset.union_empty, or_self] at hc
    exact ⟨hf.size_eq, hc⟩
  show (_ : File).Holds (v.write length offset)
  rw [FileView.write, if_neg h0.ne']
  refine ⟨(setSize_getSize hmax _ (max_le (hf.size_eq.trans_le hv) hl)).trans
    (by rw [hf.size_eq]), ?_⟩
  show _ = v.blocks ∪ _
  rw [File.content_setSize, content_acquireBlocks]
  rcases hf.content_eq with hc | hc <;> rw [hc]
  rw [Finset.union_assoc, Finset.union_self]

/-- A write whose page buffer takes every byte leaves the file holding the view of what it
returned. -/
theorem holds_write {fs fs' : Vfs} {f f' : File} {length offset copied n : ℕ} {st : Status}
    (hc : length ≤ copied) (hb : SizeBounds F f) (hf : f.Holds v)
    (h : write F fs f length offset copied = .ok (st, n, fs', f')) :
    f'.Holds (v.apply (.write length offset copied) (st, n)) :=
  (flushStable_holds F v).of_write (M := (·.HoldsMarked v offset length))
    (Q := fun st n g => g.Holds (v.apply (.write length offset copied) (st, n)))
    (fun _ _ => flushStable_holds F _)
    (fun hg => by dsimp only; rw [FileView.apply_write_zero]; exact hg)
    (fun hg => ⟨hg.size_eq, .inl hg.content_eq⟩)
    (fun _ hg => ⟨getSize_acquireBlocks.trans hg.size_eq,
      .inr ((content_acquireBlocks _ _ _).trans (congrArg (· ∪ _) hg.content_eq))⟩)
    (fun _ hw => absurd (writeInternal_eq_error hw) (by omega))
    (fun hl hg hw => holds_writeInternal hmax hc (hf.size_eq.symm.trans_le hb.nodeSize_le) hl hg hw)
    hf h

/-- `TruncateInternal` leaves a file that holds the view holding the view's truncate. -/
theorem holds_truncateInternal (fs : Vfs) {f : File} {len : ℕ} (hl : len ≤ F.kMinfsMaxFileSize)
    (hf : f.Holds v) : (truncateInternal F fs f len).2.Holds (v.truncate len) := by
  refine ⟨getSize_truncateInternal hmax fs f hl, ?_⟩
  show _ = v.blocks.filter _
  by_cases hlt : len < f.getSize
  · rw [truncateInternal_content F fs hlt, hf.content_eq]
  · have hsame : (truncateInternal F fs f len).2.content = f.content := by
      rw [truncateInternal, if_neg hlt]
      split <;> simp
    rw [hsame, hf.content_eq, eq_comm, Finset.filter_true_of_mem fun b hb => ?_]
    rw [hf.size_eq] at hlt
    exact (v.below b hb).trans_le (FileView.ceil_mono (not_lt.1 hlt))

/-- A truncate leaves the file holding the view of the status it returned. -/
theorem holds_truncate {fs fs' : Vfs} {f f' : File} {len : ℕ} {st : Status} (hf : f.Holds v)
    (h : truncate F fs f len = .ok (st, fs', f')) :
    f'.Holds (v.apply (.truncate len) (st, 0)) :=
  (flushStable_holds F v).of_truncate (Q := fun st f => f.Holds (v.apply (.truncate len) (st, 0)))
    (flushStable_holds F _)
    (fun hst hf => by dsimp only; rw [FileView.apply_truncate_of_ne _ _ _ hst]; exact hf)
    (fun hl hf => holds_truncateInternal hmax _ hl hf) hf h

/-- Each operation that keeps track of the data leaves the file holding the view of what it
returned. -/
theorem holds_exec {op : FileOp} (hop : op.KeepsData) {s : Vfs × File}
    {r : Status × ℕ × Vfs × File} (hb : SizeBounds F s.2) (hf : s.2.Holds v)
    (h : op.exec F s = .ok r) : r.2.2.2.Holds (v.apply op (r.1, r.2.1)) := by
  obtain ⟨fs, f⟩ := s
  cases op with
  | write length offset copied => exact holds_write hmax hop hb hf h
  | append length copied =>
    obtain ⟨a, ha, rfl⟩ := map_eq_ok.1 h
    obtain ⟨⟨st, n, fs', f'⟩, h₁, ha⟩ := bind_eq_ok.1 ha
    cases ha
    rw [FileView.apply_append, ← hf.size_eq]
    exact holds_write hmax hop hb hf h₁
  | truncate len =>
    obtain ⟨⟨st, fs', f'⟩, h₁, rfl⟩ := map_eq_ok.1 h
    exact holds_truncate hmax hf h₁
  | sync =>
    obtain ⟨⟨fs', f'⟩, h₁, rfl⟩ := map_eq_ok.1 h
    exact (flushStable_holds F v).of_flushCachedWrites hf h₁
  | cancelPendingWriteback => exact hop.elim

end Holds

/-- A run of operations that keep track of the data, from a file holding the view, returns the
file holding the view of the run as each operation reported it. -/
theorem holds_execOps {F : Format} (hmax : F.kMinfsMaxFileSize ≤ 2 ^ 32 - kMinfsBlockSize) :
    ∀ (ops : List FileOp) {s s' : Vfs × File} {outs : List (Status × ℕ)} {v : FileView},
      SizeBounds F s.2 → s.2.Holds v → (∀ op ∈ ops, op.KeepsData) →
      execOps F ops s = .ok (outs, s') → s'.2.Holds (v.run (ops.zip outs))
  | [], _, _, _, _, _, hv, _, h => by cases h; exact hv
  | op :: ops, _, _, _, _, hb, hv, hops, h => by
    obtain ⟨r, h₁, h₂⟩ := bind_eq_ok.1 h
    obtain ⟨⟨outs, s'⟩, h₃, h₄⟩ := map_eq_ok.1 h₂
    cases h₄
    exact holds_execOps hmax ops (sizeBounds_run hmax hb (FileOp.run_of_exec F h₁))
      (holds_exec hmax (hops op (List.mem_cons_self _ _)) hb hv h₁)
      (fun o ho => hops o (List.mem_cons_of_mem _ ho)) h₃

end Minfs
