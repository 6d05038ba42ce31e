import Mathlib.Logic.Relation
import Minfs.Steps
import Minfs.Proofs.Sizes

/-!
# Every operation is a run of steps

Each file operation that returns is a run of the primitive steps of `Minfs.Steps`, from the state
before it with no transaction in hand to the state after it with none (`run_steps`): `Write`
takes or begins its transaction, marks its blocks, sets the size and the modification time, and
drops, caches or commits the transaction; `Truncate` deletes the blocks past the new end and the
indirect blocks left empty, marks the block the end falls in, and commits. So a property every
step keeps holds after every run of operations (`steps_preserve`, `runOps_steps`).
-/

namespace Minfs

open Relation

variable (F : Format)

section Pieces

variable {fs fs' : Vfs} {f f' : File}

theorem steps_acquireBlocks : ∀ {fs : Vfs} {f : File} {o : Option Transaction} (L : List ℕ),
    (∀ b ∈ L, InBounds F b) →
    ReflTransGen (Step F) ⟨fs, f, o⟩ ⟨(acquireBlocks fs f L).1, (acquireBlocks fs f L).2, o⟩
  | _, _, _, [], _ => .refl
  | _, _, _, b :: bs, hL => .head (.acquire b (hL b (List.mem_cons_self _ _)))
    (steps_acquireBlocks bs fun x hx => hL x (List.mem_cons_of_mem _ hx))

theorem steps_deleteBlocks : ∀ {fs : Vfs} {f : File} {o : Option Transaction} (L : List ℕ),
    ReflTransGen (Step F) ⟨fs, f, o⟩ ⟨(deleteBlocks fs f L).1, (deleteBlocks fs f L).2, o⟩
  | _, _, _, [] => .refl
  | _, _, _, b :: bs => .head (.deleteData b) (steps_deleteBlocks bs)

theorem freeEmptyIndirects_cons_eq (fs : Vfs) (f : File) (s : IndirectSlot)
    (ss : List IndirectSlot) :
    freeEmptyIndirects F fs f (s :: ss) = freeEmptyIndirects F (freeEmptyIndirects F fs f [s]).1
      (freeEmptyIndirects F fs f [s]).2 ss := by
  rw [freeEmptyIndirects_cons, freeEmptyIndirects_singleton]
  split <;> rfl

theorem steps_freeEmptyIndirects :
    ∀ {fs : Vfs} {f : File} {o : Option Transaction} (L : List IndirectSlot),
      ReflTransGen (Step F) ⟨fs, f, o⟩
        ⟨(freeEmptyIndirects F fs f L).1, (freeEmptyIndirects F fs f L).2, o⟩
  | _, _, _, [] => .refl
  | fs, f, _, s :: ss => by
    rw [freeEmptyIndirects_cons_eq]
    exact .head (.deleteIndirect s) (steps_freeEmptyIndirects ss)

/-- `TruncateInternal` shrinking the file, its steps written over the pairs they return: the
one place its `let`s and matches are unfolded. -/
theorem truncateInternal_of_lt {len : ℕ} (h : len < f.getSize) :
    truncateInternal F fs f len =
      let doomed := List.range' ((len + kMinfsBlockSize - 1) / kMinfsBlockSize)
        ((f.inode.tree.leaves ∪ f.allocationState.pending).sup id + 1 -
          (len + kMinfsBlockSize - 1) / kMinfsBlockSize)
      let r := freeEmptyIndirects F (deleteBlocks fs f doomed).1 (deleteBlocks fs f doomed).2
        (doomed.flatMap fun b => (F.indirectPath b).reverse)
      let r :=
        if len % kMinfsBlockSize ≠ 0 ∧ r.2.inode.tree.ptr (len / kMinfsBlockSize) ≠ 0 then
          acquireBlocks r.1 r.2 [len / kMinfsBlockSize] else r
      (r.1, r.2.setSize len) := by
  rw [truncateInternal, if_pos h]

theorem steps_truncateInternal {o : Option Transaction} {len : ℕ}
    (hl : len ≤ F.kMinfsMaxFileSize) :
    ReflTransGen (Step F) ⟨fs, f, o⟩
      ⟨(truncateInternal F fs f len).1, (truncateInternal F fs f len).2, o⟩ := by
  by_cases hlt : len < f.getSize
  · rw [truncateInternal_of_lt F hlt]
    dsimp only
    exact (steps_deleteBlocks F _).trans ((steps_freeEmptyIndirects F _).trans
      (.tail (by
        split
        · exact steps_acquireBlocks F _ (by simpa using inBounds_tail hl ‹_ ∧ _›.1)
        · exact .refl) (.setSize len)))
  · rw [truncateInternal, if_neg hlt]
    split
    · exact .single (.setSize len)
    · exact .refl

theorem steps_flushTransaction {t : Transaction} {force : Bool}
    (hc : force = false → f.cachedTransaction = none)
    (h : flushTransaction F fs f t force = .ok (fs', f')) :
    ReflTransGen (Step F) ⟨fs, f, some t⟩ ⟨fs', f', none⟩ := by
  unfold flushTransaction at h
  split at h
  · rename_i hd
    cases h
    simp only [Bool.and_eq_true, Bool.not_eq_true'] at hd
    exact .single (.cache hd.1 (hc hd.2))
  · exact .single (.commit h)

theorem steps_flushCachedWrites (h : flushCachedWrites F fs f = .ok (fs', f')) :
    ReflTransGen (Step F) ⟨fs, f, none⟩ ⟨fs', f', none⟩ := by
  unfold flushCachedWrites at h
  split at h
  · cases h; exact .refl
  · rename_i t ht
    have h₀ : Step F ⟨fs, f, none⟩ ⟨fs, { f with cachedTransaction := none }, some t⟩ :=
      ht ▸ .take
    exact .head h₀ (steps_flushTransaction F (fun h => Bool.noConfusion h) h)

theorem steps_checkAndFlush {st : Status} {t : Bool} {length offset : ℕ}
    (h : checkAndFlush F fs f t length offset = .ok (st, fs', f')) :
    ReflTransGen (Step F) ⟨fs, f, none⟩ ⟨fs', f', none⟩ := by
  unfold checkAndFlush at h
  split at h
  · cases h; exact .refl
  · cases h; exact .refl
  · obtain ⟨⟨fs₁, f₁⟩, h₁, h₂⟩ := bind_eq_ok.1 h
    cases h₂
    exact steps_flushCachedWrites F h₁

/-- `GetTransaction` ends with the transaction it returns in hand, and the file without a cached
one. -/
theorem steps_getTransaction {n : ℕ} {r : Except Status Transaction}
    (h : getTransaction F fs f n = .ok (r, fs', f')) :
    ReflTransGen (Step F) ⟨fs, f, none⟩ ⟨fs', f', r.toOption⟩ ∧
      ∀ t, r = .ok t → f'.cachedTransaction = none := by
  have h₀ : Step F ⟨fs, f, none⟩
      ⟨fs, { f with cachedTransaction := none }, f.cachedTransaction⟩ := .take
  unfold getTransaction at h
  rcases hc : f.cachedTransaction with _ | t₀
  · rw [hc] at h₀
    simp only [hc, Option.isSome_none, Bool.and_false, Bool.false_eq_true, ite_false,
      pure_bind] at h
    split at h
    · cases Except.ok.inj h
      exact ⟨.single h₀, fun _ h => by cases h⟩
    · rename_i fs₁ t₁ hb
      cases Except.ok.inj h
      exact ⟨.tail (.single h₀) (.start hb), fun _ _ => rfl⟩
  · rw [hc] at h₀
    simp only [hc] at h
    split at h
    · simp at h
    simp only [pure_bind] at h
    rcases hk : fs.continueTransaction n t₀ with ⟨st, fs₁, t₁⟩
    have h₁ : Step F ⟨fs, { f with cachedTransaction := none }, some t₀⟩
        ⟨(fs.continueTransaction n t₀).2.1, { f with cachedTransaction := none },
          some (fs.continueTransaction n t₀).2.2⟩ := .extend n
    rw [hk] at h₁ h
    dsimp only at h h₁
    split at h
    · obtain ⟨⟨fs₂, f₂⟩, h₂, h₃⟩ := bind_eq_ok.1 h
      cases Except.ok.inj h₃
      exact ⟨(ReflTransGen.single h₀).trans
        (.head h₁ (steps_flushTransaction F (fun h => Bool.noConfusion h) h₂)),
        fun _ h => by cases h⟩
    · cases Except.ok.inj h
      exact ⟨.tail (.single h₀) h₁, fun _ _ => rfl⟩

theorem steps_writeInternal {o : Option Transaction} {length offset copied actual : ℕ}
    (hl : offset + length ≤ F.kMinfsMaxFileSize)
    (h : writeInternal fs f length offset copied = .ok (actual, fs', f')) :
    ReflTransGen (Step F) ⟨fs, f, o⟩ ⟨fs', f', o⟩ ∧
      f'.cachedTransaction = f.cachedTransaction := by
  obtain ⟨rfl, ⟨-, rfl, rfl⟩ | ⟨-, rfl, rfl⟩⟩ := writeInternal_eq_ok h
  · exact ⟨.refl, rfl⟩
  · exact ⟨(steps_acquireBlocks F _ fun b hb => inBounds_of_mem_blockRange (by omega) hb).tail
      (.setSize _), acquireBlocks_cachedTransaction⟩

end Pieces

section Operations

variable {fs fs' : Vfs} {f f' : File}

theorem steps_write {length offset copied n : ℕ} {st : Status}
    (h : write F fs f length offset copied = .ok (st, n, fs', f')) :
    ReflTransGen (Step F) ⟨fs, f, none⟩ ⟨fs', f', none⟩ := by
  unfold write at h
  split at h
  · cases h; exact .refl
  have hl : offset + length ≤ F.kMinfsMaxFileSize := by omega
  simp only [pure_bind] at h
  obtain ⟨⟨st₁, fs₁, f₁⟩, h₁, h₂⟩ := bind_eq_ok.1 h
  have s₁ := steps_checkAndFlush F h₁
  dsimp only at h₂
  split at h₂
  · cases h₂; exact s₁
  split at h₂
  · cases h₂; exact s₁
  obtain ⟨⟨t, fs₂, f₂⟩, h₃, h₄⟩ := bind_eq_ok.1 h₂
  obtain ⟨s₂, hc₂⟩ := steps_getTransaction F h₃
  dsimp only at h₄
  split at h₄
  · cases h₄; exact s₁.trans s₂
  rename_i txn
  have s₃ : ReflTransGen (Step F) ⟨fs₂, f₂, some txn⟩
      ⟨(if fs₂.dirtyCacheEnabled then markRequiredBlocksPending fs₂ f₂ offset length
        else (fs₂, f₂)).1,
        (if fs₂.dirtyCacheEnabled then markRequiredBlocksPending fs₂ f₂ offset length
          else (fs₂, f₂)).2, some txn⟩ := by
    split
    · exact steps_acquireBlocks F _ fun b hb => inBounds_of_mem_blockRange hl hb
    · exact .refl
  have hc₃ : (if fs₂.dirtyCacheEnabled then markRequiredBlocksPending fs₂ f₂ offset length
      else (fs₂, f₂)).2.cachedTransaction = none := by
    split
    · exact acquireBlocks_cachedTransaction.trans (hc₂ txn rfl)
    · exact hc₂ txn rfl
  split at h₄
  · cases h₄; exact (s₁.trans s₂).trans (s₃.tail .drop)
  rename_i hw
  obtain ⟨s₄, hc₄⟩ := steps_writeInternal F (o := some txn) hl hw
  split at h₄
  · cases h₄; exact (s₁.trans s₂).trans (s₃.trans (s₄.tail .drop))
  · obtain ⟨⟨fs₅, f₅⟩, h₅, h₆⟩ := bind_eq_ok.1 h₄
    cases h₆
    exact (s₁.trans s₂).trans (s₃.trans (s₄.trans
      (.head .touch (steps_flushTransaction F (fun _ => hc₄.trans hc₃) h₅))))

theorem steps_truncate {len : ℕ} {st : Status} (h : truncate F fs f len = .ok (st, fs', f')) :
    ReflTransGen (Step F) ⟨fs, f, none⟩ ⟨fs', f', none⟩ := by
  unfold truncate at h
  split at h
  · cases h; exact .refl
  simp only [pure_bind] at h
  obtain ⟨⟨fs₁, f₁⟩, h₁, h₂⟩ := bind_eq_ok.1 h
  have s₁ := steps_flushCachedWrites F h₁
  dsimp only at h₂
  split at h₂
  · cases h₂; exact s₁
  · rename_i fs₂ txn hb
    obtain ⟨⟨fs₃, f₃⟩, h₃, h₄⟩ := bind_eq_ok.1 h₂
    cases h₄
    exact s₁.trans (.head (.start hb) ((steps_truncateInternal F (by omega)).trans
      (.head .touch (steps_flushTransaction F (fun h => Bool.noConfusion h) h₃))))

/-- Every operation that returns is a run of steps, with no transaction in hand before or
after. -/
theorem run_steps {op : FileOp} {s s' : Vfs × File} (h : op.run F s = .ok s') :
    ReflTransGen (Step F) ⟨s.1, s.2, none⟩ ⟨s'.1, s'.2, none⟩ := by
  obtain ⟨fs, f⟩ := s
  cases op with
  | write length offset copied =>
    rw [FileOp.run_write] at h
    obtain ⟨⟨st, n, fs', f'⟩, h₁, rfl⟩ := map_eq_ok.1 h
    exact steps_write F h₁
  | append length copied =>
    rw [FileOp.run_append] at h
    obtain ⟨⟨st, e, n, fs', f'⟩, h₁, rfl⟩ := map_eq_ok.1 h
    obtain ⟨⟨st₁, n₁, fs₁, f₁⟩, h₂, h₃⟩ := bind_eq_ok.1 h₁
    cases h₃
    exact steps_write F h₂
  | truncate len =>
    rw [FileOp.run_truncate] at h
    obtain ⟨⟨st, fs', f'⟩, h₁, rfl⟩ := map_eq_ok.1 h
    exact steps_truncate F h₁
  | sync =>
    rw [FileOp.run_sync] at h
    exact steps_flushCachedWrites F h
  | cancelPendingWriteback => cases h; exact .single .cancel

end Operations

theorem runOps_steps : ∀ (ops : List FileOp) {s s' : Vfs × File}, runOps F ops s = .ok s' →
    ReflTransGen (Step F) ⟨s.1, s.2, none⟩ ⟨s'.1, s'.2, none⟩
  | [], _, _, h => by cases h; exact .refl
  | op :: ops, _, _, h => by
    obtain ⟨s₁, h₁, h₂⟩ := bind_eq_ok.1 h
    exact (run_steps F h₁).trans (runOps_steps ops h₂)

/-- A property every step keeps holds along every run of steps. -/
theorem steps_preserve (P : OpState → Prop) (hP : ∀ {a b : OpState}, Step F a b → P a → P b)
    {a b : OpState} (h : ReflTransGen (Step F) a b) (ha : P a) : P b := by
  induction h with
  | refl => exact ha
  | tail _ hs ih => exact hP hs ih

end Minfs
