import Ucore.Sfs.MapLoad

/-!
# Removing a block from an inode

Specifications of `sfs_bmap_free_nolock` and `sfs_bmap_truncate_nolock`. A freed
block leaves the map and becomes free; a failed transfer leaves everything as it was.
-/

namespace Ucore.Sfs

open Kern Function Fs

variable {H : Prop} {E : Err → Fs → Prop} {φ : Faults} {L : Finset ℕ} {x i : ℕ} {s s' : Fs}
  {sin : SfsInode} {Q : Unit → Fs → Prop}

/-- The data block `i` of `x` was freed. -/
structure Frees (L : Finset ℕ) (x i : ℕ) (s s' : Fs) : Prop where
  toLocal : Local L x s s'
  inode : ∀ sin, s.inodes x = some sin → ∃ sin', s'.inodes x = some sin' ∧ sin.Grown 0 sin'
  blk : ∀ σ, s'.blk x σ = update (s.blk x) (.data i) 0 σ
  disk : ∀ j, s.blk x (.data j) ≠ 0 → s'.disk (s.blk x (.data j)) = s.disk (s.blk x (.data j))

/-- Freeing a missing block. -/
theorem Frees.of_zero (hown : Owned L s) (h0 : s.blk x (.data i) = 0) : Frees L x i s s where
  toLocal := .refl hown
  inode sin hsin := ⟨sin, hsin, .refl sin⟩
  blk σ := by rw [← h0, update_eq_self]
  disk _ _ := rfl

/-- The common part of the three ways to remove a block: the block of a slot is
given back, the slot is cleared, and otherwise only tables of `x` are written. -/
theorem Frees.detach {sin' : SfsInode} (hown : Owned L s)
    (hsin : s.inodes x = some sin) (hne : s.blk x (.data i) ≠ 0)
    (h : Rewires L x sin' s (s.give (s.blk x (.data i))) s') (hgrown : sin.Grown 0 sin')
    (hblk : ∀ σ, s'.blk x σ = update (s.blk x) (.data i) 0 σ) : Frees L x i s s' := by
  have hx := hown.mem hsin
  have howned := h.owned_update hown hx hblk
  have hslot : s.owned L (x, .data i) = s.blk x (.data i) := owned_mem hx _
  have hle : ∀ j, s'.owned L j = s.owned L j ∨ s'.owned L j = 0 := by
    intro j
    rw [howned, update_apply]
    split
    · exact .inr rfl
    · exact .inl rfl
  refine ⟨⟨h.owned hown hx (hown.freemap.give (hown.blk_inuse hx hne)) rfl (hown.sep.drop hle)
    fun j hj => ?_, fun y => h.others, fun y hy hyx σ hσ => h.disk_blk hy hσ fun h => hyx h.1⟩,
    h.inode hsin hgrown, hblk, fun j hj => h.disk_blk hx hj fun h => h.2⟩
  have hj' := (hle j).resolve_right hj
  rw [hj'] at hj ⊢
  have hother : s.owned L j ≠ s.blk x (.data i) := by
    intro heq
    have := hown.sep j (x, .data i) (heq.trans hslot.symm) hj
    subst this
    rw [howned, update_self, hslot] at hj'
    exact hne hj'.symm
  obtain ⟨hpos, hlt, hused⟩ := hown.inuse j hj
  refine ⟨hpos, h.blocks ▸ hlt, ?_⟩
  rw [h.freemap]
  simpa [Fs.give, update_of_ne hother] using hused

theorem Frees.content (h : Frees L x i s s') (j : ℕ) :
    s'.content x j = if j = i then Bytes.zero else s.content x j := by
  unfold Fs.content
  rw [h.blk]
  by_cases hj : j = i
  · rw [hj, update_self, if_pos rfl, if_pos rfl]
  · rw [update_of_ne (fun h => hj (Slot.data.inj h)), if_neg hj]
    by_cases hne : s.blk x (.data j) = 0
    · rw [if_pos hne, if_pos hne]
    · rw [if_neg hne, if_neg hne, h.disk j hne]

/-- `sfs_bmap_free_sub_nolock`: the block in an entry of a table is given back. -/
theorem wp_bmapFreeSub {ent j : ℕ} (hent : s.Inuse ent) (hj : j < blkNEntry)
    (hread : φ ≠ Faults.none → E .io s) (hzero : tableAt s.disk ent j = 0 → Q () s)
    (hH : tableAt s.disk ent j ≠ 0 → ¬s.Inuse (tableAt s.disk ent j) → H)
    (hfree : s.Inuse (tableAt s.disk ent j) →
      Q () ((s.setEntry ent j 0).give (tableAt s.disk ent j))) :
    (sfsBmapFreeSubNolock φ ent j).wp H E Q s := by
  obtain ⟨hoff, hlen⟩ := entry_bounds hj
  have hvalue : leValue ((s.disk ent).read (j * 4) 4) = tableAt s.disk ent j := by
    rw [tableAt, if_neg hent.1]
  unfold sfsBmapFreeSubNolock
  refine wp_seq (wp_assertInuse hent ?_)
  refine wp_check hj ?_
  refine wp_seq (wp_rbuf hent.valid hoff (by simpa using hlen)
    (fun hhit => hread (Faults.ne_none [.rbuf, .rd] hhit)) ?_)
  rw [hvalue]
  refine wp_if (fun hne => ?_) fun h0 => hzero (by simpa using h0)
  refine wp_seq (wp_wbuf hent.valid hoff hlen (fun hhit => hread (hhit.elim
    (Faults.ne_none [.wbuf, .rd]) (Faults.ne_none [.wbuf, .wr]))) ?_)
  exact wp_blockFree_of hfree (hH hne)

theorem Fs.blkOf_eq (hsin : s.inodes x = some sin) : blkOf s.disk x sin.din = s.blk x := by
  funext σ
  rw [Fs.blk, din_eq hsin]

/-- Removing a block that is an entry of the table in slot `τ`. -/
theorem Frees.detach_entry {τ : Slot} {j : ℕ} (hown : Owned L s)
    (hsin : s.inodes x = some sin) (hτ : τ.isTable) (hj : j < 1024) (hi : τ.entry j = .data i)
    (hent : s.blk x τ ≠ 0) (hne : s.blk x (.data i) ≠ 0) :
    Frees L x i s ((s.setEntry (s.blk x τ) j 0).give (s.blk x (.data i))) := by
  have hx := hown.mem hsin
  have hwrite := blkOf_write (b := 0) s.disk x sin.din (by decide) hτ hj
  rw [blkOf_eq hsin] at hwrite
  have hblk := hwrite hent (fun σ hσ => hown.table_ne hx hσ hent) fun ht => by
    rw [hi] at ht
    exact ht.elim
  refine .detach hown hsin hne ⟨rfl, rfl, rfl, ?_, fun k hk ht => ?_⟩ (.refl sin) fun σ => ?_
  · rw [← hsin, update_eq_self]
    rfl
  · exact update_of_ne (hown.owned_ne_table hx hτ hent ht) _ _
  · have hinode : ((s.setEntry (s.blk x τ) j 0).give (s.blk x (.data i))).inodes x = some sin :=
      hsin
    rw [Fs.blk, din_eq hinode, ← hi]
    exact congrFun hblk σ

/-- `sfs_bmap_free_nolock` frees the block, if there is one. -/
theorem wp_bmapFree {index : ℕ} (hown : Owned L s) (hsin : s.inodes x = some sin)
    (hidx : index < maxBlocks) (hread : φ ≠ Faults.none → E .io s)
    (hfree : ∀ s', Frees L x index s s' → Q () s') : (sfsBmapFreeNolock φ x index).wp H E Q s := by
  have hx := hown.mem hsin
  have hzero := fun h0 => hfree s (.of_zero hown h0)
  -- the block is an entry of the table in slot `τ`
  have hsub : ∀ site (τ : Slot) {j}, τ.isTable → j < 1024 → τ.entry j = .data index →
      (s.blk x τ ≠ 0 → (sfsBmapFreeSubNolock (φ.at site) (s.blk x τ) j).wp H E Q s) ∧
        (¬s.blk x τ ≠ 0 → Q () s) := by
    intro site τ j hτ hj hi
    have hdata := blk_entry (s := s) (x := x) hτ hj
    rw [hi] at hdata
    refine ⟨fun hent => ?_, fun h0 => hzero (by rw [hdata, not_not.mp h0, tableAt_none])⟩
    refine wp_bmapFreeSub (hown.blk_inuse hx hent) hj (fun h => hread (Faults.ne_none_of_at h))
      (fun h0 => hzero (hdata.trans h0))
      (fun hne hnot => absurd (hown.blk_inuse hx (hdata ▸ hne)) (hdata ▸ hnot)) (fun hused => ?_)
    rw [← hdata] at hused ⊢
    exact hfree _ (.detach_entry hown hsin hτ hj hi hent hused.1)
  unfold sfsBmapFreeNolock
  rw [wp_bind, wp_getSin hsin]
  refine wp_if (fun hdirect => ?_) fun hfar => ?_
  · have hblk := blk_direct hsin hdirect
    rw [← hblk]
    refine wp_if (fun hne => ?_) fun h0 => hzero (by simpa using h0)
    refine wp_seq (wp_blockFree (hown.blk_inuse hx hne) ?_)
    have hsin' : (s.give (s.blk x (.data index))).inodes x = some sin := hsin
    rw [wp_modifySin hsin']
    refine hfree _ (.detach hown hsin hne ⟨rfl, rfl, rfl, rfl, fun _ _ _ => rfl⟩ ⟨rfl⟩
      fun σ => ?_)
    rw [Fs.blk, din_eq (setInode_self _ _ _), ← blkOf_eq hsin]
    exact congrFun (blkOf_setDirect hdirect 0) σ
  · refine wp_if (fun hindirect => ?_) fun hdouble => ?_
    · obtain ⟨j, hj, rfl, hsub'⟩ := exists_indirect hfar hindirect
      rw [hsub', ← blk_indirect hsin, wp_ite]
      exact hsub _ .indirect trivial hj rfl
    · obtain ⟨k, j, hj, rfl, hdiv, hmod⟩ := exists_second hfar hdouble
      have hk : k < 1024 := by simp only [maxBlocks] at hidx; omega
      have hsecond : s.blk x (.second k) = tableAt s.disk (s.blk x .dbIndirect) k :=
        blk_entry (τ := .dbIndirect) trivial hk
      have hlast := hsub .sub2 (.second k) trivial hj rfl
      dsimp only
      rw [hdiv, hmod, ← blk_dbIndirect hsin]
      refine wp_if (fun hent => ?_) fun h0 => hlast.2 ?_
      · refine wp_seq (wp_bmapGetSub hown.freemap (fun _ => hown.blk_inuse hx hent) hk (fun _ => ?_)
          Bool.noConfusion Bool.noConfusion
          (fun h => hread (Faults.ne_none_of_at h)) Bool.noConfusion)
        rw [← hsecond]
        rw [wp_ite]
        exact hlast
      · rw [not_not, hsecond, not_not.mp h0, tableAt_none]

/-- The last block of `x` was freed and is not counted any more. -/
structure Shrinks (L : Finset ℕ) (x : ℕ) (s s' : Fs) : Prop where
  toLocal : Local L x s s'
  inode : ∀ sin, s.inodes x = some sin → ∃ sin', s'.inodes x = some sin' ∧ sin' = { sin with
      din := { sin.din with blocks := sin.din.blocks - 1, direct := sin'.din.direct,
                            indirect := sin'.din.indirect, dbIndirect := sin'.din.dbIndirect }
      dirty := true }
  blk : ∀ σ, s'.blk x σ = update (s.blk x) (.data ((s.din x).blocks - 1)) 0 σ
  content : ∀ j, s'.content x j =
    if j = (s.din x).blocks - 1 then Bytes.zero else s.content x j

/-- `sfs_bmap_truncate_nolock` frees the last block; a failed transfer changes
nothing. -/
theorem wp_bmapTruncate (hown : Owned L s) (hsin : s.inodes x = some sin)
    (hmax : sin.din.blocks ≤ maxBlocks) (hH : sin.din.blocks = 0 → H)
    (hread : φ ≠ Faults.none → E .io s)
    (hQ : sin.din.blocks ≠ 0 → ∀ s', Shrinks L x s s' → Q () s') :
    (sfsBmapTruncateNolock φ x).wp H E Q s := by
  unfold sfsBmapTruncateNolock
  rw [wp_bind, wp_getSin hsin, wp_bind, wp_assert]
  refine ⟨fun hpos => ?_, fun h => hH (by simpa using h)⟩
  refine wp_seq (wp_bmapFree hown hsin (by omega) (fun h => hread (Faults.ne_none_of_at h))
    (fun s' hfrees => ?_))
  obtain ⟨sin', hsin', hgrown⟩ := hfrees.inode sin hsin
  have hmap : sin'.din.SameMap { sin'.din with blocks := sin'.din.blocks - 1 } := ⟨rfl, rfl, rfl⟩
  have hlast : (s.din x).blocks - 1 = sin.din.blocks - 1 := by rw [din_eq hsin]
  rw [wp_modifySin hsin']
  refine hQ hpos _ ⟨hfrees.toLocal.trans (.setInode hfrees.toLocal.owned hsin' hmap),
    fun sin₀ hsin₀ => ?_, fun σ => ?_, fun j => ?_⟩
  · rw [hsin] at hsin₀
    cases hsin₀
    refine ⟨_, setInode_self _ _ _, ?_⟩
    rw [hgrown.eq]
    rfl
  · rw [hlast, ← hfrees.blk]
    exact blk_setInode { sin' with
      din := { sin'.din with blocks := sin'.din.blocks - 1 }, dirty := true } hsin' hmap σ
  · rw [hlast, ← hfrees.content]
    exact content_setInode { sin' with
      din := { sin'.din with blocks := sin'.din.blocks - 1 }, dirty := true } hsin' hmap j

end Ucore.Sfs
