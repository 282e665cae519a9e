import Ucore.Sfs.FileSpec
import Ucore.Sfs.Spending

/-!
# Truncating a file

Specifications of the two loops of `sfs_truncfile` and of the whole function. A call
that fails keeps the size, but may have added or freed some blocks already.
-/

namespace Ucore.Sfs

open Kern Fs

variable {H : Prop} {E : Err → Fs → Prop} {φ : Faults} {L : Finset ℕ} {x len n : ℕ} {s s' : Fs}
  {sin : SfsInode} {Q : Unit → Fs → Prop}

/-- The growing loop. -/
theorem wp_grow {nblks : ℕ} (hown : Owned L s) (hsin : s.inodes x = some sin)
    (hb : nblks = sin.din.blocks) (hok : ¬nblks + n ≤ maxBlocks → H)
    (hQ : ∀ s', Grows L x n s s' → Q () s')
    (hE : ∀ k e s', k < n → Grows L x k s s' → Caused (φ.at (.turn (nblks + k))) 1 e s' →
      s.unusedBlocks ≤ s'.unusedBlocks + 4 * (k + 1) → E e s') :
    (sfsGrow φ x n nblks).wp H E Q s := by
  induction n generalizing nblks s sin with
  | zero => exact hQ s (.refl hown)
  | succ n ih =>
    rw [sfsGrow, wp_bind]
    refine wp.both (Spends.bmapLoad _ _ _ s) ?_
    refine wp_bmapLoad hown hsin (fun h => hok fun hmax => h ⟨hb.le, by omega, by omega⟩)
      (fun hlt => by omega) (fun _ _ s₁ hgrows _ hspent => ?_)
      (fun hφ _ => hE 0 _ _ (by omega) (.refl hown) (.of_ne hφ) (by omega))
      (fun _ e s₁ hgrows hcause hspent => hE 0 e s₁ (by omega) hgrows hcause hspent)
    obtain ⟨sin₁, hsin₁, hgrown⟩ := hgrows.inode sin hsin
    refine ih hgrows.toLocal.owned hsin₁ (by rw [hgrown.blocks, hb]) (fun h => hok (by omega))
      (fun s' hmore => ?_) (fun k e s' hk hmore hcause hspent' => ?_)
    · have := hgrows.trans hmore hsin
      rw [Nat.add_comm 1 n] at this
      exact hQ s' this
    · rw [Nat.add_assoc, Nat.add_comm 1 k] at hcause
      have := hgrows.trans hmore hsin
      rw [Nat.add_comm 1 k] at this
      exact hE (k + 1) e s' (by omega) this hcause (by omega)

/-- The last `n` blocks of `x` were freed. -/
structure ShrunkBy (L : Finset ℕ) (x n : ℕ) (s s' : Fs) : Prop where
  edit : FileEdit L x s s'
  size : (s'.din x).size = (s.din x).size
  blocks : (s'.din x).blocks = (s.din x).blocks - n
  content : ∀ j, s'.content x j =
    if (s.din x).blocks - n ≤ j ∧ j < (s.din x).blocks then Bytes.zero else s.content x j

theorem ShrunkBy.zero (h : Owned L s) (hsin : s.inodes x = some sin) : ShrunkBy L x 0 s s :=
  ⟨(Edits.refl h).fileEdit hsin, rfl, rfl, fun j => by rw [if_neg (by omega)]⟩

theorem ShrunkBy.cons {s₁ : Fs} (h : Shrinks L x s s₁) (hsin : s.inodes x = some sin)
    (hpos : sin.din.blocks ≠ 0) (h' : ShrunkBy L x n s₁ s') : ShrunkBy L x (n + 1) s s' := by
  obtain ⟨sin₁, hsin₁, heq⟩ := h.inode sin hsin
  have hsize : (s₁.din x).size = (s.din x).size := by
    rw [din_eq hsin₁, din_eq hsin, heq]
  have hblocks : (s₁.din x).blocks = (s.din x).blocks - 1 := by
    rw [din_eq hsin₁, din_eq hsin, heq]
  have hb : (s.din x).blocks ≠ 0 := by rwa [din_eq hsin]
  refine ⟨(h.fileEdit hsin).trans h'.edit, h'.size.trans hsize, ?_, fun j => ?_⟩
  · rw [h'.blocks]
    omega
  · rw [h'.content, h.content]
    by_cases hlast : j = (s.din x).blocks - 1
    · rw [if_pos hlast, ite_self, if_pos (by omega)]
    · rw [if_neg hlast]
      by_cases hin : (s.din x).blocks - (n + 1) ≤ j ∧ j < (s.din x).blocks
      · rw [if_pos (by omega), if_pos hin]
      · rw [if_neg (by omega), if_neg hin]

/-- The shrinking loop. -/
theorem wp_shrink (hown : Owned L s) (hsin : s.inodes x = some sin)
    (hmax : sin.din.blocks ≤ maxBlocks) (hok : ¬n ≤ sin.din.blocks → H)
    (hQ : ∀ s', ShrunkBy L x n s s' → Q () s')
    (hE : ∀ k s', k < n → ShrunkBy L x k s s' → φ.at (.turn (n - 1 - k)) ≠ Faults.none →
      E .io s') : (sfsShrink φ x n).wp H E Q s := by
  induction n generalizing s sin with
  | zero => exact hQ s (.zero hown hsin)
  | succ n ih =>
    rw [sfsShrink, wp_bind]
    refine wp_bmapTruncate hown hsin hmax (fun h0 => hok (by omega))
      (fun hφ => hE 0 s (by omega) (.zero hown hsin) (by simpa using hφ)) (fun hpos s₁ hs => ?_)
    obtain ⟨sin₁, hsin₁, heq⟩ := hs.inode sin hsin
    have hblocks : sin₁.din.blocks = sin.din.blocks - 1 := by rw [heq]
    refine ih hs.toLocal.owned hsin₁ (by omega) (fun h => hok (by omega))
      (fun s' hmore => hQ s' (.cons hs hsin hpos hmore)) (fun k s' hk hmore hφ => ?_)
    refine hE (k + 1) s' (by omega) (.cons hs hsin hpos hmore) ?_
    rwa [show n + 1 - 1 - (k + 1) = n - 1 - k by omega]

/-- A call that changes the number of blocks from `b` to `t` may fail after its first block: a later
transfer fails, or there are not more free blocks than four for each new block and one, which is
more than the block and its tables take. -/
def Halfway (φ : Faults) (b t unused : ℕ) : Prop :=
  (∃ k, b < k ∧ k < t ∧ (φ.at (.turn k) ≠ Faults.none ∨ unused ≤ 4 * (k + 1 - b) + 1)) ∨
    ∃ k, k + 1 < b - t ∧ φ.at (.turn k) ≠ Faults.none

/-- What a successful truncation does. -/
structure TruncStep (φ : Faults) (L : Finset ℕ) (x len : ℕ) (s s' : Fs) : Prop extends
    FileEdit L x s s' where
  size : (s'.din x).size = len
  blocks : (s'.din x).blocks = blocksOf len
  byteAt : ∀ p, s'.byteAt x p =
    if blocksOf len ≤ p / blkSize ∧ p / blkSize < (s.din x).blocks then 0 else s.byteAt x p

/-- What a failed truncation does. -/
structure TruncFail (φ : Faults) (L : Finset ℕ) (x len : ℕ) (e : Err) (s s' : Fs) : Prop extends
    FileEdit L x s s' where
  size : (s'.din x).size = (s.din x).size
  blocks : (s'.din x).blocks = (s.din x).blocks ∨
    Halfway φ (s.din x).blocks (blocksOf len) s.unusedBlocks
  cause : Caused φ 1 e s'
  /-- Without faults only a growing file runs out of blocks. -/
  growing : φ = Faults.none → (s.din x).blocks < blocksOf len

/-- The part of `sfs_truncfile` that runs with the semaphore. -/
theorem wp_truncfileNolock (hown : Owned L s) (hsin : s.inodes x = some sin)
    (hmax : sin.din.blocks ≤ maxBlocks) (hlen : len ≤ maxFileSize)
    (hQ : ∀ s', TruncStep φ L x len s s' → Q () s')
    (hE : ∀ e s', TruncFail φ L x len e s s' → E e s') :
    (sfsTruncfileNolock φ x len).wp H E Q s := by
  have hdin := din_eq hsin
  -- the end of the function, after either loop
  have hfinish : ∀ s₁, FileEdit L x s s₁ → (s₁.din x).blocks = blocksOf len →
      (∀ j, s₁.content x j = if blocksOf len ≤ j ∧ j < (s.din x).blocks then Bytes.zero
        else s.content x j) →
      (do
        let sin ← getSin x
        assert (sin.din.blocks = blocksOf len)
        modifySin x fun sin => { sin with dirty := true, din := { sin.din with size := len } } :
        K Unit).wp H E Q s₁ := by
    intro s₁ hedit hblocks hcontent
    obtain ⟨sin₁, hsin₁, -⟩ := hedit.inode sin hsin
    rw [din_eq hsin₁] at hblocks
    rw [wp_bind, wp_getSin hsin₁]
    refine wp_check hblocks ?_
    rw [wp_modifySin hsin₁]
    have hset := din_eq (s₁.setInode_self x (some
      { sin₁ with dirty := true, din := { sin₁.din with size := len } }))
    refine hQ _ ⟨hedit.trans (.resize hedit.toLocal.owned hsin₁ len), ?_, ?_, fun p => ?_⟩
    · rw [hset]
    · rw [hset]
      exact hblocks
    · have hsame := content_setInode
        { sin₁ with dirty := true, din := { sin₁.din with size := len } } hsin₁ ⟨rfl, rfl, rfl⟩
        (p / blkSize)
      rw [Fs.byteAt, hsame, hcontent]
      split <;> rfl
  unfold sfsTruncfileNolock
  rw [wp_bind, wp_getSin hsin]
  by_cases hgrow : sin.din.blocks < blocksOf len
  · rw [if_pos hgrow, wp_bind]
    refine wp_grow hown hsin rfl (fun h => absurd ?_ h) (fun s₁ hgrows => ?_)
      (fun k e s₁ hk hgrows hcause hspent => ?_)
    · have : blocksOf len ≤ 32768 := blocksOf_le_iff.mpr hlen
      simp only [maxBlocks]
      omega
    · refine hfinish s₁ (hgrows.toEdits.fileEdit hsin) ?_ (fun j => ?_)
      · rw [hgrows.toEdits.din_blocks hsin, hdin]
        omega
      · rw [hgrows.content, if_neg (by rw [hdin]; omega)]
    · obtain ⟨sin₁, hsin₁, hgrown⟩ := hgrows.inode sin hsin
      refine hE e s₁ ⟨hgrows.toEdits.fileEdit hsin, ?_, ?_, hcause.of_at, fun _ => hdin ▸ hgrow⟩
      · rw [din_eq hsin₁, hdin, hgrown.eq]
      · rw [hgrows.toEdits.din_blocks hsin, hdin]
        refine (Nat.eq_zero_or_pos k).imp (fun h0 => by rw [h0, Nat.add_zero])
          (fun hpos => .inl ⟨sin.din.blocks + k, by omega, by omega, ?_⟩)
        by_cases hφ : φ.at (.turn (sin.din.blocks + k)) = Faults.none
        · have := (hcause hφ).2
          exact .inr (by omega)
        · exact .inl hφ
  · rw [if_neg hgrow, wp_bind]
    refine wp_shrink hown hsin hmax (fun h => absurd (Nat.sub_le _ _) h) (fun s₁ hs => ?_)
      (fun k s₁ hk hs hφ => ?_)
    · have hb := hs.blocks
      rw [hdin] at hb
      refine hfinish s₁ hs.edit (by omega) (fun j => ?_)
      rw [hs.content, hdin, show sin.din.blocks - (sin.din.blocks - blocksOf len) = blocksOf len by
        omega]
    · have hfault := Faults.ne_none_of_at hφ
      refine hE _ s₁ ⟨hs.edit, hs.size, ?_, .of_ne hfault, fun h => absurd h hfault⟩
      rw [hs.blocks, hdin]
      refine (Nat.eq_zero_or_pos k).imp (fun h0 => by rw [h0, Nat.sub_zero])
        (fun hpos => .inr ⟨_, by omega, hφ⟩)

theorem TruncStep.unlock (h : TruncStep φ L x len (s.setLocked x true) s') (hown : Owned L s)
    (hsin : s.inodes x = some sin) (hfree : sin.locked = false) :
    TruncStep φ L x len s (s'.setLocked x false) := by
  refine ⟨h.toFileEdit.unlock hown hsin hfree, ?_, ?_, fun p => ?_⟩
  · rw [din_setLocked, h.size]
  · rw [din_setLocked, h.blocks]
  · have := h.byteAt p
    rw [din_setLocked, byteAt_setLocked] at this
    rw [byteAt_setLocked, this]

theorem TruncFail.unlock {e : Err} (h : TruncFail φ L x len e (s.setLocked x true) s')
    (hown : Owned L s) (hsin : s.inodes x = some sin) (hfree : sin.locked = false) :
    TruncFail φ L x len e s (s'.setLocked x false) := by
  have hsize := h.size
  have hblocks := h.blocks
  rw [din_setLocked] at hsize hblocks
  refine ⟨h.toFileEdit.unlock hown hsin hfree, ?_, ?_, h.cause, fun hφ => ?_⟩
  · rw [din_setLocked, hsize]
  · rw [din_setLocked]
    exact hblocks
  · have := h.growing hφ
    rwa [din_setLocked] at this

/-- `sfs_truncfile`. A call with the current size only checks the number of blocks. -/
theorem wp_truncfile {len : ℤ} (hown : Owned L s) (hsin : s.inodes x = some sin)
    (hmax : sin.din.blocks ≤ maxBlocks) (hremoved : sin.removed = true → E .noent s)
    (hlocked : sin.locked = true → H) (htype : sin.din.type = .dir → H)
    (hbad : len < 0 ∨ maxFileSize < len → E .inval s)
    (hsame : 0 ≤ len → sin.din.size = len.toNat →
      (blocksOf len.toNat = sin.din.blocks → Q () s) ∧ (blocksOf len.toNat ≠ sin.din.blocks → H))
    (hQ : 0 ≤ len → len ≤ maxFileSize → ∀ s', TruncStep φ L x len.toNat s s' → Q () s')
    (hE : 0 ≤ len → len ≤ maxFileSize → ∀ e s', TruncFail φ L x len.toNat e s s' → E e s') :
    (sfsTruncfile φ x len).wp H E Q s := by
  refine wp_if (fun h => hbad (by simpa using h)) fun hgood => ?_
  have hlo : 0 ≤ len := by omega
  have hhi : len ≤ maxFileSize := by omega
  rw [wp_bind, wp_getSin hsin, wp_bind, wp_assert]
  refine ⟨fun _ => ?_, fun h => htype (by simpa using h)⟩
  refine wp_if (fun hsize => ?_) fun _ => ?_
  · rw [wp_assert]
    exact hsame hlo hsize
  · refine wp_withSin hsin hremoved hlocked fun _ hfree => ?_
    refine wp_truncfileNolock (Local.setLocked hown hsin true).owned
      (inodes_setLocked hsin true) hmax (by omega)
      (fun s' hs => hQ hlo hhi _ (hs.unlock hown hsin hfree))
      (fun e s' hs => hE hlo hhi e _ (hs.unlock hown hsin hfree))

end Ucore.Sfs
