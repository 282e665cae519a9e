import Ucore.Sfs.MapGet

/-!
# Changes of one inode

`Local` relates two volumes that differ in one inode only: its copy in memory, its
tables and its data blocks. Functions on files and directories are specified by
it, together with what they do to the contents of that inode, and the block map
is not looked at again above this file.
-/

namespace Ucore.Sfs

open Kern Function Fs

variable {H : Prop} {E : Err → Fs → Prop} {φ : Faults} {L : Finset ℕ} {x n y i : ℕ} {s s' s'' : Fs}
  {sin sin' : SfsInode} {p : Site} {I : Set ℕ}

/-- From `s` to `s'` only the inode `x` changed. -/
structure Local (L : Finset ℕ) (x : ℕ) (s s' : Fs) : Prop where
  owned : Owned L s'
  inode : ∀ y, y ≠ x → s'.inodes y = s.inodes y
  disk : ∀ y ∈ L, y ≠ x → ∀ σ, s.blk y σ ≠ 0 → s'.disk (s.blk y σ) = s.disk (s.blk y σ)

theorem Local.refl (h : Owned L s) : Local L x s s :=
  ⟨h, fun _ _ => rfl, fun _ _ _ _ _ => rfl⟩

section

variable (h : Local L x s s') (h0 : 0 ∉ L) (hy : y ∈ L) (hyx : y ≠ x)
include h h0 hy hyx

theorem Local.blk (σ : Slot) : s'.blk y σ = s.blk y σ :=
  blk_eq_of_same (h.inode y hyx) (h.disk y hy hyx .self (fun h => h0 (h ▸ hy)))
    (fun τ _ => h.disk y hy hyx τ) σ

theorem Local.din : s'.din y = s.din y := by
  have hself := h.disk y hy hyx .self (fun h => h0 (h ▸ hy))
  simp only [blk_self] at hself
  simp only [Fs.din, h.inode y hyx, hself]

theorem Local.content (i : ℕ) : s'.content y i = s.content y i := by
  unfold Fs.content
  rw [h.blk h0 hy hyx]
  split
  · rfl
  · rename_i hne
    exact h.disk y hy hyx _ hne

omit h0 hy hyx

theorem Local.trans (h' : Local L x s' s'') : Local L x s s'' where
  owned := h'.owned
  inode y hy := (h'.inode y hy).trans (h.inode y hy)
  disk y hy hyx σ hne := by
    have hblk := h.blk h.owned.zero hy hyx σ
    have := h'.disk y hy hyx σ (hblk ▸ hne)
    rw [hblk] at this
    rw [this, h.disk y hy hyx σ hne]

end

/-! ## Writing a data block and the copy in memory -/

/-- Two disk inodes with the same block numbers. -/
structure DiskInode.SameMap (d d' : DiskInode) : Prop where
  direct : d'.direct = d.direct
  indirect : d'.indirect = d.indirect
  dbIndirect : d'.dbIndirect = d.dbIndirect

theorem blkOf_sameMap {disk : ℕ → Bytes} {ino : ℕ} {d d' : DiskInode} (h : d.SameMap d')
    (σ : Slot) : blkOf disk ino d' σ = blkOf disk ino d σ := by
  obtain ⟨hdirect, hind, hdb⟩ := h
  cases σ <;> simp only [blkOf, DiskInode.directAt, hdirect, hind, hdb]

theorem Fs.blk_setInode (sin' : SfsInode) (hsin : s.inodes x = some sin)
    (hmap : sin.din.SameMap sin'.din) (σ : Slot) :
    (s.setInode x (some sin')).blk x σ = s.blk x σ := by
  rw [Fs.blk, Fs.blk, din_eq (s.setInode_self x _), din_eq hsin]
  exact blkOf_sameMap hmap σ

/-- Changing the copy in memory without its block numbers. -/
theorem Local.setInode (hown : Owned L s) (hsin : s.inodes x = some sin)
    (hmap : sin.din.SameMap sin'.din) : Local L x s (s.setInode x (some sin')) := by
  have hblk : ∀ y σ, (s.setInode x (some sin')).blk y σ = s.blk y σ := by
    intro y σ
    rcases eq_or_ne y x with rfl | hyx
    · exact blk_setInode sin' hsin hmap σ
    · exact blk_eq_of_same (s.setInode_of_ne hyx _) rfl (fun _ _ _ => rfl) σ
  have howned : (s.setInode x (some sin')).owned L = s.owned L := by
    funext i
    simp only [Fs.owned, hblk]
  refine ⟨⟨?_, ?_, { hown.freemap with }, hown.zero, fun y hy => ?_,
    hown.width⟩, fun y hy => s.setInode_of_ne hy _, fun _ _ _ _ _ => rfl⟩
  · rw [howned]
    exact hown.sep
  · rw [howned]
    exact hown.inuse
  · by_cases hyx : y = x
    · exact hyx ▸ hown.mem hsin
    · exact hown.cached y (by rwa [s.setInode_of_ne hyx] at hy)

theorem Fs.content_setInode (sin' : SfsInode) (hsin : s.inodes x = some sin)
    (hmap : sin.din.SameMap sin'.din) (i : ℕ) :
    (s.setInode x (some sin')).content x i = s.content x i := by
  unfold Fs.content
  rw [blk_setInode sin' hsin hmap]
  rfl

section

variable (hown : Owned L s) (hx : x ∈ L) (hne : s.blk x (.data i) ≠ 0) (d : Bytes)
include hown hx hne d

/-- Writing a data block does not move any block. -/
theorem Fs.blk_setBlock (hy : y ∈ L) (σ : Slot) :
    (s.setBlock (s.blk x (.data i)) d).blk y σ = s.blk y σ := by
  have hdisk : ∀ τ, τ ≠ .data i → (s.setBlock (s.blk x (.data i)) d).disk (s.blk y τ) =
      s.disk (s.blk y τ) := fun τ hτ =>
    update_of_ne (hown.blk_ne hx hy (fun h => hτ (Prod.ext_iff.mp h).2.symm) hne) _ _
  have htable : ∀ τ, τ.isTable → s.blk y τ ≠ 0 →
      (s.setBlock (s.blk x (.data i)) d).disk (s.blk y τ) = s.disk (s.blk y τ) := by
    intro τ hτ _
    refine hdisk τ ?_
    rintro rfl
    exact hτ
  have hinode : (s.setBlock (s.blk x (.data i)) d).inodes y = s.inodes y := rfl
  exact blk_eq_of_same hinode (hdisk .self (by simp)) htable σ

theorem Local.setBlock : Local L x s (s.setBlock (s.blk x (.data i)) d) := by
  have howned : (s.setBlock (s.blk x (.data i)) d).owned L = s.owned L := by
    funext j
    unfold Fs.owned
    split
    · rename_i hj
      exact blk_setBlock hown hx hne d hj j.2
    · rfl
  refine ⟨⟨?_, ?_, { hown.freemap with }, hown.zero, hown.cached, hown.width⟩,
    fun _ _ => rfl, fun y hy hyx σ _ => ?_⟩
  · rw [howned]
    exact hown.sep
  · rw [howned]
    exact hown.inuse
  · exact update_of_ne (hown.blk_ne hx hy (fun h => hyx (Prod.ext_iff.mp h).1.symm) hne) _ _

theorem Fs.content_setBlock (j : ℕ) :
    (s.setBlock (s.blk x (.data i)) d).content x j = if j = i then d else s.content x j := by
  unfold Fs.content
  rw [blk_setBlock hown hx hne d hx]
  rcases eq_or_ne j i with rfl | hj
  · rw [if_neg hne, if_pos rfl]
    exact update_self _ _ _
  · split
    · rfl
    · have hother : s.blk x (.data j) ≠ s.blk x (.data i) :=
        hown.blk_ne hx hx (fun h => hj (by simpa using h.symm)) hne
      exact update_of_ne hother _ _

end

/-! ## Growing -/

/-- Only the inode `x` changed, and it got `n` more blocks. -/
structure Edits (L : Finset ℕ) (x n : ℕ) (s s' : Fs) : Prop where
  toLocal : Local L x s s'
  inode : ∀ sin, s.inodes x = some sin → ∃ sin', s'.inodes x = some sin' ∧ sin.Grown n sin'
  keep : ∀ σ, s.blk x σ ≠ 0 → s'.blk x σ = s.blk x σ
  new : ∀ i, s.blk x (.data i) = 0 → s'.blk x (.data i) ≠ 0 →
    (s.din x).blocks ≤ i ∧ i < (s.din x).blocks + n
  full : ∀ i, (s.din x).blocks ≤ i → i < (s.din x).blocks + n → s'.blk x (.data i) ≠ 0

/-- The inode `x` got `n` more blocks, and its contents did not change. -/
structure Grows (L : Finset ℕ) (x n : ℕ) (s s' : Fs) : Prop extends
    Edits L x n s s' where
  content : ∀ i, s'.content x i = s.content x i

theorem Edits.refl (h : Owned L s) : Edits L x 0 s s :=
  ⟨.refl h, fun sin hsin => ⟨sin, hsin, .refl sin⟩, fun _ _ => rfl,
    fun _ => absurd, fun i _ _ => by omega⟩

theorem SfsInode.Grown.blocks (h : sin.Grown n sin') : sin'.din.blocks = sin.din.blocks + n := by
  rw [h.eq]

theorem Edits.trans {m : ℕ} (h : Edits L x n s s') (h' : Edits L x m s' s'')
    (hsin : s.inodes x = some sin) : Edits L x (n + m) s s'' := by
  obtain ⟨sin', hsin', hgrown⟩ := h.inode sin hsin
  have hblocks : (s'.din x).blocks = (s.din x).blocks + n := by
    rw [din_eq hsin', din_eq hsin, hgrown.blocks]
  refine ⟨h.toLocal.trans h'.toLocal, fun sin₀ hsin₀ => ?_, fun σ hne => ?_, fun i h0 hne => ?_,
    fun i hlo hhi => ?_⟩
  · rw [hsin] at hsin₀
    cases hsin₀
    obtain ⟨sin'', hsin'', hgrown'⟩ := h'.inode sin' hsin'
    exact ⟨sin'', hsin'', hgrown.trans hgrown'⟩
  · have hk := h.keep σ hne
    rw [h'.keep σ (by rwa [hk]), hk]
  · by_cases h1 : s'.blk x (.data i) = 0
    · have := h'.new i h1 hne
      omega
    · have := h.new i h0 h1
      omega
  · by_cases hi : i < (s.din x).blocks + n
    · have hne := h.full i hlo hi
      rwa [h'.keep _ hne]
    · exact h'.full i (by omega) (by omega)

theorem Grows.refl (h : Owned L s) : Grows L x 0 s s := ⟨.refl h, fun _ => rfl⟩

theorem Grows.trans {m : ℕ} (h : Grows L x n s s') (h' : Grows L x m s' s'')
    (hsin : s.inodes x = some sin) : Grows L x (n + m) s s'' :=
  ⟨h.toEdits.trans h'.toEdits hsin, fun i => (h'.content i).trans (h.content i)⟩

theorem Extends.toLocal (h : Extends L x I s s') : Local L x s s' where
  owned := h.owned
  inode := h.others
  disk y hy hyx σ hne := by
    have := h.disk (y, σ) (by rwa [owned_mem hy]) (fun ht => hyx ht.1)
    rwa [owned_mem hy] at this

theorem Extends.content (h : Extends L x I s s') (hx : x ∈ L) (i : ℕ) :
    s'.content x i = s.content x i := by
  have hkeep := h.keep (x, .data i)
  have hdisk := h.disk (x, .data i)
  have hfresh := h.fresh i
  simp only [owned_mem hx] at hkeep hdisk hfresh
  unfold Fs.content
  by_cases hne : s.blk x (.data i) = 0
  · rw [if_pos hne]
    by_cases hne' : s'.blk x (.data i) = 0
    · rw [if_pos hne']
    · rw [if_neg hne', hfresh hne hne']
  · rw [hkeep hne, if_neg hne, if_neg hne, hdisk hne (fun ht => ht.2)]

/-- An extension without new data blocks. -/
theorem Extends.grows (h : Extends L x ∅ s s') (hx : x ∈ L) : Grows L x 0 s s' where
  toLocal := h.toLocal
  inode := h.inode
  keep σ hne := by
    have := h.keep (x, σ)
    rw [owned_mem hx, owned_mem hx] at this
    exact this hne
  content := h.content hx
  new i hi hne := by
    have := h.new i (by rwa [owned_mem hx]) (by rwa [owned_mem hx])
    exact this.elim
  full i _ _ := by omega

/-- Counting a block. -/
theorem SfsInode.Grown.count (h : sin.Grown n sin') : sin.Grown (n + 1)
      { sin' with din := { sin'.din with blocks := sin'.din.blocks + 1 } } where
  eq := by rw [h.eq]; rfl

/-- An extension at the index past the end, after which the block is counted. -/
theorem Extends.grows_count {sin₁ : SfsInode} (h : Extends L x {sin.din.blocks} s s')
    (hsin : s.inodes x = some sin) (hsin' : s'.inodes x = some sin')
    (hgrown : sin.Grown 1 sin₁) (hmap : sin'.din.SameMap sin₁.din)
    (hne : s'.blk x (.data sin.din.blocks) ≠ 0) : Grows L x 1 s (s'.setInode x (some sin₁)) := by
  have hx := h.owned.mem hsin'
  refine ⟨⟨h.toLocal.trans (.setInode h.owned hsin' hmap), fun sin₀ hsin₀ => ?_,
    fun σ hne => ?_, fun i hi hne => ?_, fun i hlo hhi => ?_⟩, fun i => ?_⟩
  · rw [hsin] at hsin₀
    cases hsin₀
    exact ⟨_, setInode_self _ _ _, hgrown⟩
  · have := h.keep (x, σ)
    rw [owned_mem hx, owned_mem hx] at this
    rw [blk_setInode sin₁ hsin' hmap, this hne]
  · rw [blk_setInode sin₁ hsin' hmap] at hne
    have := h.new i (by rwa [owned_mem hx]) (by rwa [owned_mem hx])
    rw [Set.mem_singleton_iff] at this
    rw [din_eq hsin]
    omega
  · rw [din_eq hsin] at hlo hhi
    obtain rfl : i = sin.din.blocks := by omega
    rwa [blk_setInode sin₁ hsin' hmap]
  · rw [content_setInode sin₁ hsin' hmap, h.content hx]

/-- `sfs_bmap_load_nolock`: a block of the inode is returned as it is; the index past
the end gets a new block, or one that the map has already. -/
theorem wp_bmapLoad {index : ℕ} {Q : ℕ → Fs → Prop} (hown : Owned L s)
    (hsin : s.inodes x = some sin)
    (hH : ¬(index ≤ sin.din.blocks ∧ index < maxBlocks ∧
      (index < sin.din.blocks → s.blk x (.data index) ≠ 0)) → H)
    (hold : index < sin.din.blocks → s.blk x (.data index) ≠ 0 → Q (s.blk x (.data index)) s)
    (hnew : index = sin.din.blocks → index < maxBlocks → ∀ s', Grows L x 1 s s' →
      s'.blk x (.data index) ≠ 0 → Q (s'.blk x (.data index)) s')
    (hread : φ ≠ Faults.none → E .io s)
    (hE : index = sin.din.blocks → ∀ e s', Grows L x 0 s s' → Caused φ 1 e s' → E e s') :
    (sfsBmapLoadNolock φ x index).wp H E Q s := by
  have hx := hown.mem hsin
  unfold sfsBmapLoadNolock
  rw [wp_bind, wp_getSin hsin, wp_bind, wp_assert]
  refine ⟨fun hle => ?_, fun hle => hH fun h => hle h.1⟩
  have hidx : ¬index < maxBlocks → H := fun hmax => hH fun h => hmax h.2.1
  rw [wp_bind]
  by_cases hlt : index < sin.din.blocks
  · have hcreate : decide (index = sin.din.blocks) = false := by simpa using hlt.ne
    rw [hcreate]
    refine wp_bmapGet hown hsin hidx ⟨fun _ => ?_, Bool.noConfusion,
      fun h => hread (Faults.ne_none_of_at h), Bool.noConfusion⟩
    rw [wp_bind, if_neg hlt.ne]
    by_cases hne : s.blk x (.data index) = 0
    · exact wp_assertInuse_of (fun h => absurd hne h.1) (fun _ => hH fun h => h.2.2 hlt hne)
    · exact wp_assertInuse (hown.blk_inuse hx hne) (hold hlt hne)
  · obtain rfl : index = sin.din.blocks := by omega
    have hcreate : decide (sin.din.blocks = sin.din.blocks) = true := by simp
    -- the block is in the map, and is counted now
    have hcount : ∀ s', Extends L x {sin.din.blocks} s s' → s'.blk x (.data sin.din.blocks) ≠ 0 →
        (do
          assertInuse (s'.blk x (.data sin.din.blocks))
          if sin.din.blocks = sin.din.blocks then
            modifyDin x fun din => { din with blocks := din.blocks + 1 }
          return s'.blk x (.data sin.din.blocks) : K ℕ).wp H E Q s' := by
      intro s' hext hne
      obtain ⟨sin', hsin', hgrown⟩ := hext.inode sin hsin
      have hmap : sin'.din.SameMap { sin'.din with blocks := sin'.din.blocks + 1 } :=
        ⟨rfl, rfl, rfl⟩
      refine wp_seq (wp_assertInuse (hext.owned.blk_inuse hx hne) ?_)
      rw [if_pos rfl, wp_bind, modifyDin, wp_modifySin hsin']
      have hgrows := hext.grows_count hsin hsin' hgrown.count hmap hne
      have hblk : (s'.setInode x (some { sin' with
          din := { sin'.din with blocks := sin'.din.blocks + 1 } })).blk x
            (.data sin.din.blocks) = s'.blk x (.data sin.din.blocks) :=
        blk_setInode { sin' with din := { sin'.din with blocks := sin'.din.blocks + 1 } }
          hsin' hmap _
      have hQ := hnew rfl (lt_maxBlocks hne) _ hgrows (by rwa [hblk])
      rwa [hblk] at hQ
    rw [hcreate]
    refine wp_bmapGet hown hsin hidx ⟨fun h => ?_, fun _ _ s' hext hne => ?_,
      fun h => hread (Faults.ne_none_of_at h), fun _ _ e s' hext hcause => ?_⟩
    · exact hcount s (.refl hown) (h.resolve_right Bool.noConfusion)
    · exact hcount s' hext hne
    · exact hE rfl e s' (hext.grows hx) hcause.of_at

end Ucore.Sfs
