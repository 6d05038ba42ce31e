import Minfs.Proofs.WriteThrough

/-!
# What a file written through holds

As its user sees it, a file is a size and the blocks that hold its data, all below the size
rounded up to a block (`FileView`). What an operation did to it is read off what the operation
returned: a write or an append that returned `ZX_OK` with `n` bytes written added the blocks of
those bytes and moved the size to `max(size, offset + n)`; a truncate that returned `ZX_OK` set the
size and dropped the blocks at or past it, rounded up to a block; a failure, a sync or a cancelled
writeback changed nothing the user sees.

With the dirty cache off, each operation leaves the inode showing the view of what it returned
(`shows_exec`). So after any run of operations on a new file, the inode shows the view of the run
as each operation reported it (`execOps_shows`): a write that reports bytes has mapped their
blocks, no block is mapped that no reported write covered, and no block a later truncate cut off
is mapped again.
-/

namespace Minfs

/-- A file as its user sees it: its size, and the blocks that hold its data, all below the size
rounded up to a block. -/
structure FileView where
  size : ℕ
  blocks : Finset ℕ
  below : ∀ b ∈ blocks, b < (size + kMinfsBlockSize - 1) / kMinfsBlockSize

namespace FileView

/-- A new file. -/
def empty : FileView := ⟨0, ∅, fun _ h => absurd h (Finset.not_mem_empty _)⟩

/-- A size's blocks, rounded up, grow with the size. -/
theorem ceil_mono {n n' : ℕ} (h : n ≤ n') :
    (n + kMinfsBlockSize - 1) / kMinfsBlockSize ≤ (n' + kMinfsBlockSize - 1) / kMinfsBlockSize :=
  Nat.div_le_div_right (by omega)

theorem write_below (v : FileView) (length offset : ℕ) :
    ∀ b ∈ v.blocks ∪ (blockRange offset length).toFinset,
      b < (max v.size (offset + length) + kMinfsBlockSize - 1) / kMinfsBlockSize := by
  intro b hb
  rcases Finset.mem_union.1 hb with hb | hb
  · exact (v.below b hb).trans_le (ceil_mono (le_max_left _ _))
  · rw [List.mem_toFinset, mem_blockRange] at hb
    refine lt_of_lt_of_le ?_ (ceil_mono (le_max_right _ _))
    simp only [kMinfsBlockSize] at hb ⊢
    omega

/-- `length` bytes written at `offset`: the blocks they touch added, and the size moved to
`max(size, offset + length)`. No byte written changes nothing. -/
def write (v : FileView) (length offset : ℕ) : FileView :=
  if length = 0 then v
  else ⟨max v.size (offset + length), v.blocks ∪ (blockRange offset length).toFinset,
    v.write_below length offset⟩

/-- A truncate to `len` bytes: the size set, and the blocks at or past it, rounded up to a block,
dropped. -/
def truncate (v : FileView) (len : ℕ) : FileView :=
  ⟨len, v.blocks.filter (· < (len + kMinfsBlockSize - 1) / kMinfsBlockSize),
    fun _ hb => (Finset.mem_filter.1 hb).2⟩

/-- What an operation that returned a status and a count of bytes written did to the file its
user sees. -/
def apply (v : FileView) : FileOp → Status × ℕ → FileView
  | .write _ offset _, (.ok, n) => v.write n offset
  | .append _ _, (.ok, n) => v.write n v.size
  | .truncate len, (.ok, _) => v.truncate len
  | _, _ => v

/-- The file its user sees after a run of operations, each with what it returned. -/
def run (v : FileView) (ops : List (FileOp × Status × ℕ)) : FileView :=
  ops.foldl (fun v p => v.apply p.1 p.2) v

@[simp] theorem run_nil (v : FileView) : v.run [] = v := rfl

@[simp] theorem run_cons (v : FileView) (op : FileOp) (r : Status × ℕ)
    (ops : List (FileOp × Status × ℕ)) : v.run ((op, r) :: ops) = (v.apply op r).run ops := rfl

/-- A write that returns no byte written changes nothing, whatever its status. -/
theorem apply_write_zero (v : FileView) (length offset copied : ℕ) (st : Status) :
    v.apply (.write length offset copied) (st, 0) = v := by
  cases st <;> rfl

/-- An append is a write at the end. -/
theorem apply_append (v : FileView) (length copied : ℕ) (r : Status × ℕ) :
    v.apply (.append length copied) r = v.apply (.write length v.size copied) r := by
  obtain ⟨st, n⟩ := r
  cases st <;> rfl

/-- A truncate that fails changes nothing. -/
theorem apply_truncate_of_ne (v : FileView) (len n : ℕ) {st : Status} (h : st ≠ .ok) :
    v.apply (.truncate len) (st, n) = v := by
  cases st
  · exact absurd rfl h
  all_goals rfl

/-- Three blocks written of which the page buffer took 10000 bytes, cut to 100 bytes, and 10 bytes
appended: 110 bytes, in the first block. -/
example : (empty.run [(.write (3 * kMinfsBlockSize) 0 10000, .ok, 10000), (.truncate 100, .ok, 0),
      (.append 10 10, .ok, 10)]).size = 110 ∧
    (empty.run [(.write (3 * kMinfsBlockSize) 0 10000, .ok, 10000), (.truncate 100, .ok, 0),
      (.append 10 10, .ok, 10)]).blocks = {0} := by
  decide

end FileView

/-- The inode shows the view: its size is the view's, and its mapped blocks are the view's. -/
structure File.Shows (f : File) (v : FileView) : Prop where
  size_eq : f.inode.size = v.size
  leaves_eq : f.inode.tree.leaves = v.blocks

theorem File.Shows.empty : File.empty.Shows .empty := ⟨rfl, rfl⟩

variable {F : Format}

/-- What `TruncateInternal` leaves mapped is what the view's truncate keeps: the mapped blocks below
the new end, rounded up to a block, and none at or past it, since a file that does not shrink has
none there. -/
theorem truncateInternal_leaves (fs : Vfs) {f : File} {v : FileView} (hv : f.Shows v)
    (hsize : f.getSize = f.inode.size) (len : ℕ) :
    (truncateInternal F fs f len).2.inode.tree.leaves = (v.truncate len).blocks := by
  ext b
  rw [FileView.truncate, Finset.mem_filter, ← hv.leaves_eq,
    (truncateInternal F fs f len).2.inode.tree.mem_leaves, f.inode.tree.mem_leaves,
    truncateInternal_ptr]
  by_cases hlt : len < f.getSize
  · by_cases hb : (len + kMinfsBlockSize - 1) / kMinfsBlockSize ≤ b
    · simp [hlt, hb]
    · simp [hlt, hb, Nat.lt_of_not_le hb]
  · rw [if_neg fun h => hlt h.1]
    refine ⟨fun hp => ⟨hp, ?_⟩, And.left⟩
    have hb := v.below b (hv.leaves_eq ▸ (f.inode.tree.mem_leaves b).2 hp)
    rw [← hv.size_eq, ← hsize] at hb
    exact hb.trans_le (FileView.ceil_mono (not_lt.1 hlt))

section Refinement

variable (hmax : F.kMinfsMaxFileSize ≤ 2 ^ 32 - kMinfsBlockSize) {m : ℕ} {fs : Vfs} {f : File}
  (hs : WriteThrough F m (fs, f)) {v : FileView} (hv : f.Shows v)
include hmax hs hv

/-- A write leaves the inode showing the view of what it returned. -/
theorem shows_write {length offset copied : ℕ} {r : Status × ℕ × Vfs × File}
    (h : write F fs f length offset copied = .ok r)
    (hfit : (blockRange offset length).length ≤ m) :
    r.2.2.2.Shows (v.apply (.write length offset copied) (r.1, r.2.1)) := by
  have hset : f.Settled := hs.settled
  rcases write_of_none F hset.cached hs.cacheOff length offset copied with
    ⟨st, h'⟩ | ⟨N, fs₁, t, h0, hl, hN, ht, h'⟩
  · rw [h'] at h
    cases h
    rw [FileView.apply_write_zero]
    exact hv
  obtain ⟨fs', f', hc, -, hsize, hleaves⟩ :=
    commit_write hmax hset hs.bounds hl (min_le_right _ _) (hs.maxBlocks_eq ▸ hfit) hN ht
  rw [h', hc] at h
  cases h
  show f'.Shows (v.write _ offset)
  rw [FileView.write, if_neg h0.ne']
  exact ⟨hsize.trans (by rw [File.getSize_of_reset hset.clean, hv.size_eq]),
    hleaves.trans (by rw [hv.leaves_eq])⟩

/-- A truncate leaves the inode showing the view of the status it returned. -/
theorem shows_truncate {len : ℕ} {r : Status × Vfs × File} (h : truncate F fs f len = .ok r)
    (hm : 1 ≤ m) : r.2.2.Shows (v.apply (.truncate len) (r.1, 0)) := by
  have hset : f.Settled := hs.settled
  rcases truncate_of_none F hset.cached len with ⟨st, hst, h'⟩ | ⟨fs₁, t, hl, ht, h'⟩
  · rw [h'] at h
    cases h
    rw [FileView.apply_truncate_of_ne _ _ _ hst]
    exact hv
  obtain ⟨fs', f', hc, -, hsize, hleaves⟩ :=
    commit_truncate hmax hset hs.linked hl (hs.maxBlocks_eq ▸ hm) ht
  rw [h', hc] at h
  cases h
  exact ⟨hsize, hleaves.trans
    (truncateInternal_leaves fs₁ hv (File.getSize_of_reset hset.clean) len)⟩

/-- Each operation that fits leaves the inode showing the view of what it returned. -/
theorem shows_exec {op : FileOp} (hop : op.Fits m) {r : Status × ℕ × Vfs × File}
    (h : op.exec F (fs, f) = .ok r) : r.2.2.2.Shows (v.apply op (r.1, r.2.1)) := by
  cases op with
  | write length offset copied => exact shows_write hmax hs hv h hop
  | append length copied =>
    obtain ⟨a, ha, rfl⟩ := map_eq_ok.1 h
    obtain ⟨⟨st, n, fs', f'⟩, hr, ha⟩ := bind_eq_ok.1 ha
    cases ha
    have hsize : f.getSize = v.size := (File.getSize_of_reset hs.settled.clean).trans hv.size_eq
    rw [FileView.apply_append, ← hsize]
    exact shows_write hmax hs hv hr ((blockRange_length_le _ _).trans hop)
  | truncate len =>
    obtain ⟨r, hr, rfl⟩ := map_eq_ok.1 h
    exact shows_truncate hmax hs hv hr hop
  | sync =>
    rw [FileOp.exec, flushCachedWrites_of_none F hs.settled.cached] at h
    cases h
    exact hv
  | cancelPendingWriteback =>
    cases h
    exact ⟨hv.size_eq, hv.leaves_eq⟩

end Refinement

/-- With the dirty cache off, a run of operations that fit returns, and leaves the inode showing
the view of the run as each operation reported it. -/
theorem writeThrough_shows (hmax : F.kMinfsMaxFileSize ≤ 2 ^ 32 - kMinfsBlockSize) {m : ℕ} :
    ∀ (ops : List FileOp) {s : Vfs × File} {v : FileView}, WriteThrough F m s → s.2.Shows v →
      (∀ op ∈ ops, op.Fits m) →
      ∃ outs s', execOps F ops s = .ok (outs, s') ∧ s'.2.Shows (v.run (ops.zip outs))
  | [], s, _, _, hv, _ => ⟨[], s, rfl, hv⟩
  | op :: ops, (fs, f), v, hs, hv, hops => by
    have hop := hops op (List.mem_cons_self _ _)
    obtain ⟨r, h₁, hs₁⟩ := writeThrough_exec hmax hs hop
    obtain ⟨outs, s', h', hv'⟩ := writeThrough_shows hmax ops hs₁ (shows_exec hmax hs hv hop h₁)
      fun o ho => hops o (List.mem_cons_of_mem _ ho)
    exact ⟨(r.1, r.2.1) :: outs, s', by rw [execOps_cons F h₁, h']; rfl, hv'⟩

/-- With the dirty cache off, every run of operations on a new file whose writes, appends and
truncates fit `AllocateAndCommitData`'s `max_blocks` returns a status and a count of bytes
written for each operation, and leaves the inode's size and mapped blocks those of the file its
user sees after the operations as they reported: each write or append that returned `ZX_OK` with
`n` bytes written maps the blocks of those bytes and moves the size to their end if past it, each
truncate that returned `ZX_OK` sets the size and unmaps the blocks at or past it, and nothing else
maps or unmaps a block or moves the size. -/
theorem execOps_shows (F : Format) (hmax : F.kMinfsMaxFileSize ≤ 2 ^ 32 - kMinfsBlockSize)
    (fs₀ : Vfs) (hd : fs₀.dirtyCacheEnabled = false) (ops : List FileOp)
    (hops : ∀ op ∈ ops, op.Fits (maxBlocks F fs₀)) :
    ∃ outs fs f, execOps F ops (fs₀, .empty) = .ok (outs, fs, f) ∧ outs.length = ops.length ∧
      f.inode.size = (FileView.empty.run (ops.zip outs)).size ∧
      f.inode.tree.leaves = (FileView.empty.run (ops.zip outs)).blocks := by
  have h₀ : WriteThrough F (maxBlocks F fs₀) (fs₀, .empty) :=
    ⟨hd, rfl, ⟨rfl, rfl⟩, sizeBounds_empty, BlockMap.empty_linked F⟩
  obtain ⟨outs, ⟨fs, f⟩, h, hv⟩ := writeThrough_shows hmax ops h₀ File.Shows.empty hops
  exact ⟨outs, fs, f, h, execOps_length F ops h, hv.size_eq, hv.leaves_eq⟩

theorem execOps_shows_short_write :
    ∃ outs fs f, execOps .minfs [.write (3 * kMinfsBlockSize) 0 10000, .truncate 100,
        .append 10 10] (.sampleCacheOff, .empty) = .ok (outs, fs, f) ∧ outs.length = 3 ∧
      f.inode.size = (FileView.empty.run ([.write (3 * kMinfsBlockSize) 0 10000, .truncate 100,
        .append 10 10].zip outs)).size ∧
      f.inode.tree.leaves = (FileView.empty.run ([.write (3 * kMinfsBlockSize) 0 10000,
        .truncate 100, .append 10 10].zip outs)).blocks :=
  execOps_shows .minfs (by decide) _ rfl _ (by decide)

end Minfs
