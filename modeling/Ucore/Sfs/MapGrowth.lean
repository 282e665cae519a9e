import Ucore.Sfs.Inode
import Ucore.Sfs.Ownership

/-!
# Adding a block to an inode

How the slots of an inode change when a number is stored in its disk inode or in
one of its tables, and the relation `Extends` between two volumes of which the
second has a larger block map for one inode. `sfs_bmap_get_nolock` extends the
map and changes no contents, whether it succeeds or fails.
-/

namespace Ucore.Sfs

open Kern Function Fs

/-! ## Indirect blocks

A lookup changes nothing, a creation takes one or two blocks and stores a number, and a failure
leaves a quiet change: at most blocks whose clearing write failed are lost. -/

section Rules

variable {H : Prop} {E : Err → Fs → Prop} {s s' : Fs} {φ : Faults} {n j b entp : ℕ} {e : Err}
  {Q : ℕ × ℕ → Fs → Prop} {x : Site}

theorem Faults.ne_none (path : List Site) (h : φ path = true) : φ ≠ Faults.none := by
  rintro rfl
  cases h

theorem Faults.ne_none_of_at (h : φ.at x ≠ Faults.none) : φ ≠ Faults.none := by
  rintro rfl
  exact h rfl

/-- An error code that this schedule explains: without faults only `E_NO_MEM` is
left, for a volume with at most `n` free blocks. -/
def Caused (φ : Faults) (n : ℕ) (e : Err) (s : Fs) : Prop :=
  φ = Faults.none → e = .noMem ∧ s.unusedBlocks ≤ n

theorem Caused.of_ne (h : φ ≠ Faults.none) : Caused φ n e s :=
  fun hφ => absurd hφ h

theorem Caused.of_at (h : Caused (φ.at x) n e s) : Caused φ n e s := by
  rintro rfl
  exact h rfl

/-- What a failed allocation leaves: a quiet change. -/
structure Lost (φ : Faults) (n : ℕ) (e : Err) (s s' : Fs) : Prop where
  quiet : Quiet s s'
  cause : Caused φ n e s'

theorem Lost.of_at (h : Lost (φ.at x) n e s s') : Lost φ n e s s' :=
  ⟨h.quiet, h.cause.of_at⟩

theorem Lost.mono {m : ℕ} (h : Lost φ n e s s') (hnm : n ≤ m) : Lost φ m e s s' :=
  ⟨h.quiet, fun hφ => ⟨(h.cause hφ).1, (h.cause hφ).2.trans hnm⟩⟩

/-- Taking a block and giving it back is quiet. -/
theorem Lost.take_give (h : s.FreemapOk) (hb : s.freemap b = true) (path : List Site)
    (hhit : φ path = true) : Lost φ n e s ((s.take b).give b) where
  quiet := (Quiet.take h hb).give hb ⟨(h.free b hb).1, (h.free b hb).2, by simp [Fs.take]⟩
  cause := .of_ne (Faults.ne_none path hhit)

/-- After a failure inside a bracket that took a block, the block is given back. -/
theorem Lost.give (h : s.FreemapOk) (hb : s.freemap b = true) (hl : Lost φ n e (s.take b) s') :
    Lost φ (n + 1) e s (s'.give b) where
  quiet := ((Quiet.take h hb).trans hl.quiet).give hb
    (hl.quiet.inuse ⟨(h.free b hb).1, (h.free b hb).2, by simp [Fs.take]⟩)
  cause hφ := ⟨(hl.cause hφ).1, Nat.succ_le_succ (hl.cause hφ).2⟩

theorem Fs.FreemapOk.unused_eq_zero (hok : s.FreemapOk) (h : ∀ b, s.freemap b = false) :
    s.unusedBlocks = 0 := by
  rw [hok.count, Finset.card_eq_zero]
  simp [h]

theorem wp_blockAlloc_lost {Q : ℕ → Fs → Prop} (hok : s.FreemapOk)
    (hQ : ∀ b, s.freemap b = true → Q b (s.take b))
    (hE : ∀ e s', Lost φ 0 e s s' → E e s') : (sfsBlockAlloc φ).wp H E Q s := by
  refine wp_blockAlloc hok hQ
    (fun hfull => hE _ _ ⟨Quiet.refl hok, fun _ => ⟨rfl, (hok.unused_eq_zero hfull).le⟩⟩)
    (fun b hb hhit => hE _ _ ⟨Quiet.lose hok hb, .of_ne (Faults.ne_none [.clear] hhit)⟩)

/-- The volume after entry `j` of the table `ent` was set to the block `b`. -/
def Fs.setEntry (s : Fs) (ent j b : ℕ) : Fs :=
  s.setBlock ent ((s.disk ent).write (j * 4) (leBytes 4 b))

theorem entry_bounds (hj : j < blkNEntry) :
    j * 4 < blkSize ∧ j * 4 + (leBytes 4 b).length ≤ blkSize := by
  simp only [blkNEntry, blkSize, length_leBytes] at *
  omega

/-- `sfs_bmap_get_sub_nolock` from the allocation on. -/
theorem wp_bmapFill {ent : ℕ} (hok : s.FreemapOk) (hent : s.Inuse ent) (hj : j < blkNEntry)
    (hQ : ∀ b, s.freemap b = true → Q (ent, b) ((s.take b).setEntry ent j b))
    (hE : ∀ e s', Lost φ 0 e s s' → E e (if ent ≠ entp then s'.give ent else s')) :
    (sfsBmapFillNolock φ entp ent j).wp H E Q s := by
  -- the outer cleanup runs after each failure of the bracket
  have hcleanup : ∀ e s', Lost φ 0 e s s' →
      (if ent ≠ entp then sfsBlockFree ent else pure ()).wp H (fun _ => E e) (fun _ => E e) s' := by
    intro e s' hl
    have hE' := hE e s' hl
    split
    · rename_i hne
      rw [if_pos hne] at hE'
      exact wp_blockFree (hl.quiet.inuse hent) hE'
    · rename_i hne
      rwa [if_neg hne] at hE'
  unfold sfsBmapFillNolock
  rw [wp_onError, wp_bind]
  refine wp_blockAlloc_lost hok (fun b hb => ?_) (fun e s' hl => hcleanup e s' hl.of_at)
  have hent' : (s.take b).Inuse ent := (Quiet.take hok hb).inuse hent
  obtain ⟨hoff, hlen⟩ := entry_bounds hj
  rw [wp_bind, wp_onError]
  refine wp_wbuf hent'.valid hoff hlen (fun hhit => ?_) (hQ b hb)
  refine wp_blockFree ⟨(hok.free b hb).1, (hok.free b hb).2, by simp [Fs.take]⟩ ?_
  exact hcleanup _ _ (hhit.elim (Lost.take_give hok hb [.wbuf, .rd])
    (Lost.take_give hok hb [.wbuf, .wr]))

/-- `sfs_bmap_get_sub_nolock`: a lookup changes nothing; a creation takes a block
for the entry, and first one for the table if there is none. -/
theorem wp_bmapGetSub {create : Bool} (hok : s.FreemapOk) (hent : entp ≠ 0 → s.Inuse entp)
    (hj : j < blkNEntry)
    (hfound : tableAt s.disk entp j ≠ 0 ∨ create = false → Q (entp, tableAt s.disk entp j) s)
    (hentry : create = true → entp ≠ 0 → tableAt s.disk entp j = 0 →
      ∀ b, s.freemap b = true → Q (entp, b) ((s.take b).setEntry entp j b))
    (htable : create = true → entp = 0 → ∀ t, s.freemap t = true →
      ∀ b, (s.take t).freemap b = true → Q (t, b) (((s.take t).take b).setEntry t j b))
    (hread : φ ≠ Faults.none → E .io s)
    (hE : create = true → tableAt s.disk entp j = 0 → ∀ e s', Lost φ 1 e s s' → E e s') :
    (sfsBmapGetSubNolock φ entp j create).wp H E Q s := by
  refine wp_check hj ?_
  refine wp_if (fun hne => ?_) fun hzero => ?_
  · obtain ⟨hoff, hlen⟩ := entry_bounds (b := 0) hj
    refine wp_seq (wp_rbuf (hent hne).valid hoff (by simpa using hlen) (fun hhit =>
      hread (Faults.ne_none [.rbuf, .rd] hhit)) ?_)
    have hvalue : leValue ((s.disk entp).read (j * 4) 4) = tableAt s.disk entp j := by
      rw [tableAt, if_neg hne]
    rw [hvalue]
    refine wp_if hfound fun h => ?_
    obtain ⟨h0, hcreate⟩ : tableAt s.disk entp j = 0 ∧ create = true := by simpa using h
    refine wp_bmapFill hok (hent hne) hj (hentry hcreate hne h0) (fun e s' hl => ?_)
    rw [if_neg (not_not.mpr rfl)]
    exact hE hcreate h0 e s' (hl.mono (Nat.zero_le 1))
  · have hzero' : entp = 0 := by simpa using hzero
    have h0 : tableAt s.disk entp j = 0 := by rw [tableAt, if_pos hzero']
    refine wp_if (fun hcreate => ?_) fun hcreate => ?_
    · have := hfound (.inr hcreate)
      rwa [h0] at this
    · have hcreate' : create = true := by simpa using hcreate
      refine wp_seq (wp_blockAlloc_lost hok (fun t ht => ?_) (fun e s' hl =>
        hE hcreate' h0 e s' (hl.of_at.mono (Nat.zero_le 1))))
      have hpos := (hok.free t ht).1
      refine wp_bmapFill (hok.take ht) ⟨hpos, (hok.free t ht).2, by simp [Fs.take]⟩ hj
        (htable hcreate' hzero' t ht) (fun e s' hl => ?_)
      rw [if_pos (by rw [hzero']; exact hpos)]
      exact hE hcreate' h0 e _ (hl.give hok ht)

end Rules

/-! ## Storing a number changes one slot -/

section Slots

variable {disk : ℕ → Bytes} {ino : ℕ} {din : DiskInode} {ent j b : ℕ}

theorem blkOf_setDirect {i : ℕ} (hi : i < nDirect) (b : ℕ) :
    blkOf disk ino (din.setDirect i b) = update (blkOf disk ino din) (.data i) b := by
  funext σ
  by_cases hσ : σ = .data i
  · subst hσ
    rw [update_self]
    simp only [blkOf, DiskInode.directAt, DiskInode.setDirect, if_pos hi, dif_pos hi, if_true]
  · rw [update_of_ne hσ]
    cases σ with
    | data k =>
      have hk : k ≠ i := fun h => hσ (h ▸ rfl)
      simp only [blkOf, DiskInode.directAt, DiskInode.setDirect, hk, if_false]
    | _ => rfl

/-- The disk inode with another indirect or double indirect block. -/
def DiskInode.setTable (din : DiskInode) (b : ℕ) : Slot → DiskInode
  | .indirect => { din with indirect := b }
  | .dbIndirect => { din with dbIndirect := b }
  | _ => din

/-- A new table, without entries, takes the place of a missing one. -/
theorem blkOf_setTable {τ : Slot} (hτ : τ = .indirect ∨ τ = .dbIndirect)
    (h0 : blkOf disk ino din τ = 0) (hz : disk b = Bytes.zero) :
    blkOf disk ino (din.setTable b τ) = update (blkOf disk ino din) τ b := by
  have htable : ∀ j, tableAt disk b j = tableAt disk (blkOf disk ino din τ) j := by
    intro j
    rw [tableAt_zero fun _ => hz, h0, tableAt_none]
  funext σ
  rcases hτ with rfl | rfl
  all_goals
    cases σ with
    | self | indirect | dbIndirect => simp [blkOf, DiskInode.setTable]
    | second k | data k =>
      simp only [blkOf, DiskInode.setTable, DiskInode.directAt, update_apply, htable,
        reduceCtorEq, if_false]

/-- A number is stored in an entry of a table. If the entry is for a table, it was empty, and
gets the number of a block of zeros. -/
theorem blkOf_write (disk : ℕ → Bytes) (ino : ℕ) (din : DiskInode) {τ : Slot}
    (hb : b < 2 ^ 32) (hτ : τ.isTable) (hj : j < 1024) (hent : blkOf disk ino din τ ≠ 0)
    (hsep : ∀ σ, σ ≠ τ → blkOf disk ino din σ ≠ blkOf disk ino din τ)
    (hsub : (τ.entry j).isTable → blkOf disk ino din (τ.entry j) = 0 ∧ disk b = Bytes.zero ∧
      b ≠ blkOf disk ino din τ) :
    blkOf (update disk (blkOf disk ino din τ)
        ((disk (blkOf disk ino din τ)).write (j * 4) (leBytes 4 b))) ino din =
      update (blkOf disk ino din) (τ.entry j) b := by
  funext σ
  induction σ using Slot.entry_induction with
  | hinode σ hne hsame => rw [update_of_ne (hne τ j hτ hj), hsame disk]
  | hentry υ i hυ hi ih =>
    rw [blkOf_entry hυ hi, ih, tableAt_write disk j hb hent]
    by_cases hnew : υ = τ.entry j
    · -- both the new table and the missing one are empty
      subst hnew
      obtain ⟨h0, hz, hne⟩ := hsub hυ
      rw [update_self, if_neg fun h => hne h.1, tableAt_zero fun _ => hz, update_of_ne,
        blkOf_entry hυ hi, h0, tableAt_none]
      intro heq
      rw [(Slot.entry_inj hυ hτ hi hj heq).1] at h0
      exact hent h0
    · rw [update_of_ne hnew]
      by_cases heq : υ = τ ∧ i = j
      · obtain ⟨rfl, rfl⟩ := heq
        rw [if_pos ⟨rfl, rfl⟩, update_self]
      · rw [if_neg, update_of_ne fun h => heq (Slot.entry_inj hυ hτ hi hj h), blkOf_entry hυ hi]
        rintro ⟨hsame, rfl⟩
        exact hsep υ (fun h => heq ⟨h, rfl⟩) hsame

end Slots

/-! ## Extensions of the block map of one inode -/

/-- `sin'` is `sin` with `n` more blocks and perhaps other block numbers. -/
structure SfsInode.Grown (n : ℕ) (sin sin' : SfsInode) : Prop where
  eq : sin' = { sin with
    din := { sin.din with blocks := sin.din.blocks + n, direct := sin'.din.direct,
                          indirect := sin'.din.indirect, dbIndirect := sin'.din.dbIndirect }
    dirty := sin'.dirty }

theorem SfsInode.Grown.refl (sin : SfsInode) : sin.Grown 0 sin := ⟨rfl⟩

theorem SfsInode.Grown.trans {a b c : SfsInode} {n m : ℕ} (h : a.Grown n b) (h' : b.Grown m c) :
    a.Grown (n + m) c where
  eq := by
    rw [h'.eq, h.eq, Nat.add_assoc]

/-- The slots of `x` grew from `s` to `s'`, with new data blocks at indices in `I`
only, and nothing else changed. -/
structure Extends (L : Finset ℕ) (x : ℕ) (I : Set ℕ) (s s' : Fs) : Prop where
  owned : Owned L s'
  others : ∀ y, y ≠ x → s'.inodes y = s.inodes y
  inode : ∀ sin, s.inodes x = some sin → ∃ sin', s'.inodes x = some sin' ∧ sin.Grown 0 sin'
  /-- A slot that holds a block keeps it. -/
  keep : ∀ i, s.owned L i ≠ 0 → s'.owned L i = s.owned L i
  /-- Only tables of `x` are written. -/
  disk : ∀ i, s.owned L i ≠ 0 → ¬(i.1 = x ∧ i.2.isTable) →
    s'.disk (s.owned L i) = s.disk (s.owned L i)
  /-- New data blocks are zero. -/
  fresh : ∀ i, s.owned L (x, .data i) = 0 → s'.owned L (x, .data i) ≠ 0 →
    s'.disk (s'.owned L (x, .data i)) = Bytes.zero
  new : ∀ i, s.owned L (x, .data i) = 0 → s'.owned L (x, .data i) ≠ 0 → i ∈ I

variable {φ : Faults} {L : Finset ℕ} {x : ℕ} {I : Set ℕ} {s s' : Fs} {σ₀ : Slot}

theorem Extends.refl (h : Owned L s) : Extends L x I s s where
  owned := h
  others _ _ := rfl
  inode sin hsin := ⟨sin, hsin, .refl sin⟩
  keep _ _ := rfl
  disk _ _ _ := rfl
  fresh _ h0 hne := absurd h0 hne
  new _ h0 hne := absurd h0 hne

theorem Extends.trans {s'' : Fs} (h : Extends L x I s s') (h' : Extends L x I s' s'') :
    Extends L x I s s'' where
  owned := h'.owned
  others y hy := (h'.others y hy).trans (h.others y hy)
  inode sin hsin := by
    obtain ⟨sin', hsin', hmap⟩ := h.inode sin hsin
    obtain ⟨sin'', hsin'', hmap'⟩ := h'.inode sin' hsin'
    exact ⟨sin'', hsin'', hmap.trans hmap'⟩
  keep i hi := by
    have hk := h.keep i hi
    rw [h'.keep i (by rwa [hk]), hk]
  disk i hi ht := by
    have hk := h.keep i hi
    have hd := h'.disk i (by rwa [hk]) ht
    rw [hk] at hd
    rw [hd, h.disk i hi ht]
  fresh i h0 hne := by
    by_cases h1 : s'.owned L (x, .data i) = 0
    · exact h'.fresh i h1 hne
    · rw [h'.keep _ h1, h'.disk _ h1 (fun ht => ht.2), h.fresh i h0 h1]
  new i h0 hne := by
    by_cases h1 : s'.owned L (x, .data i) = 0
    · exact h'.new i h1 hne
    · exact h.new i h0 h1

/-- A quiet change loses nothing. -/
theorem Lost.extends {n : ℕ} {e : Err} (h : Lost φ n e s s') (hown : Owned L s) :
    Extends L x I s s' where
  owned := h.quiet.toOwned hown
  others y _ := by rw [h.quiet.inodes]
  inode sin hsin := ⟨sin, by rw [h.quiet.inodes, hsin], .refl sin⟩
  keep i _ := by rw [h.quiet.owned hown]
  disk i hi _ := h.quiet.disk _ (hown.inuse i hi).2.2
  fresh i h0 hne := by
    rw [h.quiet.owned hown] at hne
    exact absurd h0 hne
  new i h0 hne := by
    rw [h.quiet.owned hown] at hne
    exact absurd h0 hne

/-- Slots of a live inode whose disk inode and tables are the same in `s'`. -/
theorem Fs.blk_eq_of_same {y : ℕ} (hinode : s'.inodes y = s.inodes y) (hself : s'.disk y = s.disk y)
    (htable : ∀ τ, τ.isTable → s.blk y τ ≠ 0 → s'.disk (s.blk y τ) = s.disk (s.blk y τ))
    (σ : Slot) : s'.blk y σ = s.blk y σ := by
  have hdin : s'.din y = s.din y := by simp only [Fs.din, hinode, hself]
  unfold Fs.blk
  rw [hdin]
  exact blkOf_congr htable σ

/-- The inode `x` and its tables are written, and the free map becomes that of `s₁`. -/
structure Rewires (L : Finset ℕ) (x : ℕ) (sin' : SfsInode) (s s₁ s' : Fs) : Prop where
  blocks : s'.blocks = s.blocks
  freemap : s'.freemap = s₁.freemap
  unused : s'.unusedBlocks = s₁.unusedBlocks
  inodes : s'.inodes = update s.inodes x (some sin')
  disk : ∀ i, s.owned L i ≠ 0 → ¬(i.1 = x ∧ i.2.isTable) →
    s'.disk (s.owned L i) = s.disk (s.owned L i)

section Rewires

variable {s₁ : Fs} {sin sin' : SfsInode} {y : ℕ} {σ : Slot} (h : Rewires L x sin' s s₁ s')
include h

theorem Rewires.others (hy : y ≠ x) : s'.inodes y = s.inodes y := by
  rw [h.inodes, update_of_ne hy]

theorem Rewires.inode (hsin : s.inodes x = some sin) (hgrown : sin.Grown 0 sin') :
    ∀ sin, s.inodes x = some sin → ∃ sin', s'.inodes x = some sin' ∧ sin.Grown 0 sin' := by
  intro sin₀ hsin₀
  rw [hsin] at hsin₀
  cases hsin₀
  exact ⟨sin', by rw [h.inodes, update_self], hgrown⟩

theorem Rewires.disk_blk (hy : y ∈ L) (hne : s.blk y σ ≠ 0) (hno : ¬(y = x ∧ σ.isTable)) :
    s'.disk (s.blk y σ) = s.disk (s.blk y σ) := by
  have := h.disk (y, σ) (by rwa [owned_mem hy]) hno
  rwa [owned_mem hy] at this

variable (hown : Owned L s) (hx : x ∈ L)
include hown hx

/-- If one slot of `x` gets a new value, then that is the only slot that changes. -/
theorem Rewires.owned_update {v : ℕ} (hblk : ∀ σ, s'.blk x σ = update (s.blk x) σ₀ v σ) :
    s'.owned L = update (s.owned L) (x, σ₀) v := by
  have hslots : ∀ y ∈ L, y ≠ x → ∀ σ, s'.blk y σ = s.blk y σ := by
    intro y hy hyx σ
    have hd : ∀ τ, s.blk y τ ≠ 0 → s'.disk (s.blk y τ) = s.disk (s.blk y τ) := fun τ hτ =>
      h.disk_blk hy hτ fun h => hyx h.1
    exact blk_eq_of_same (h.others hyx) (hd .self (hown.self_inuse hy).1) (fun τ _ => hd τ) σ
  funext ⟨y, σ⟩
  rcases eq_or_ne y x with rfl | hyx
  · rw [owned_mem hx, hblk, update_apply, update_apply, owned_mem hx]
    simp only [Prod.mk.injEq, true_and]
  · rw [update_of_ne (fun h => hyx (Prod.ext_iff.mp h).1)]
    by_cases hy : y ∈ L
    · rw [owned_mem hy, owned_mem hy, hslots y hy hyx]
    · simp [Fs.owned, hy]

theorem Rewires.owned (hok : s₁.FreemapOk) (hblocks : s₁.blocks = s.blocks)
    (hsep : Separated (s'.owned L)) (hinuse : ∀ i, s'.owned L i ≠ 0 → s'.Inuse (s'.owned L i)) :
    Owned L s' := by
  refine ⟨hsep, hinuse, ⟨fun c hc => ?_, ?_⟩, hown.zero, fun y hy => ?_, h.blocks ▸ hown.width⟩
  · rw [h.freemap] at hc
    rw [h.blocks, ← hblocks]
    exact hok.free c hc
  · rw [h.unused, hok.count, h.freemap, h.blocks, hblocks]
  · by_cases hyx : y = x
    · exact hyx ▸ hx
    · exact hown.cached y (by rwa [← h.others hyx])

end Rewires

/-- The common part of the four ways to add a block: a taken block `b` enters the
slot `σ₀`, which was empty, and otherwise only tables of `x` are written. -/
theorem Extends.attach {b : ℕ} {sin sin' : SfsInode} (hown : Owned L s)
    (hb : s.freemap b = true) (hsin : s.inodes x = some sin) (h0 : s.blk x σ₀ = 0)
    (h : Rewires L x sin' s (s.take b) s') (hmap : sin.Grown 0 sin')
    (hzero : ∀ i, σ₀ = .data i → s'.disk b = Bytes.zero) (hnew : ∀ i, σ₀ = .data i → i ∈ I)
    (hblk : ∀ σ, s'.blk x σ = update (s.blk x) σ₀ b σ) : Extends L x I s s' := by
  obtain ⟨hpos, hlt⟩ := hown.freemap.free b hb
  have hx := hown.mem hsin
  have howned := h.owned_update hown hx hblk
  have hfree := hown.not_owned_of_free hb
  have hmono : ∀ c, s.Inuse c → s'.Inuse c := fun c hc =>
    ⟨hc.1, h.blocks ▸ hc.2.1, by
      rw [h.freemap]; exact ((Quiet.take hown.freemap hb).inuse hc).2.2⟩
  have hbused : s'.Inuse b := ⟨hpos, h.blocks ▸ hlt, by rw [h.freemap]; simp [Fs.take]⟩
  have hkeep : ∀ i, s.owned L i ≠ 0 → s'.owned L i = s.owned L i := by
    intro i hi
    rw [howned, update_of_ne]
    rintro rfl
    rw [owned_mem hx] at hi
    exact hi h0
  refine ⟨h.owned hown hx (hown.freemap.take hb) rfl ?_ fun i hi => ?_, fun y => h.others,
    h.inode hsin hmap, hkeep, h.disk, fun i hi0 hne => ?_, fun i hi0 hne => ?_⟩
  · rw [howned]
    exact hown.sep.update hfree
  · rw [howned] at hi ⊢
    by_cases hix : i = (x, σ₀)
    · rw [hix, update_self]
      exact hbused
    · rw [update_of_ne hix] at hi ⊢
      exact hmono _ (hown.inuse i hi)
  · rw [howned] at hne ⊢
    by_cases hσ : Slot.data i = σ₀
    · rw [hσ, update_self]
      exact hzero i hσ.symm
    · rw [update_of_ne (fun h => hσ (Prod.ext_iff.mp h).2)] at hne
      exact absurd hi0 hne
  · rw [howned] at hne
    by_cases hσ : Slot.data i = σ₀
    · exact hnew i hσ.symm
    · rw [update_of_ne (fun h => hσ (Prod.ext_iff.mp h).2)] at hne
      exact absurd hi0 hne

section Attach

variable {sin : SfsInode} {b : ℕ}

/-- Taking a free block does not change what the slots hold. -/
theorem Owned.take_slots (hown : Owned L s) (hb : s.freemap b = true)
    (hsin : s.inodes x = some sin) : blkOf (s.take b).disk x sin.din = s.blk x := by
  have hsin' : (s.take b).inodes x = some sin := hsin
  funext σ
  rw [← (Quiet.take hown.freemap hb).blk hown (hown.mem hsin) σ, Fs.blk, din_eq hsin']

/-- A taken block enters a slot of the disk inode itself. -/
theorem Extends.attach_din (din' : DiskInode) (hown : Owned L s)
    (hb : s.freemap b = true) (hsin : s.inodes x = some sin) (h0 : s.blk x σ₀ = 0)
    (hdin : din' = { sin.din with direct := din'.direct, indirect := din'.indirect,
                                  dbIndirect := din'.dbIndirect })
    (hnew : ∀ i, σ₀ = .data i → i ∈ I)
    (hblk : blkOf (s.take b).disk x din' = update (blkOf (s.take b).disk x sin.din) σ₀ b) :
    Extends L x I s ((s.take b).setInode x (some { sin with din := din', dirty := true })) ∧
      ((s.take b).setInode x (some { sin with din := din', dirty := true })).blk x =
        update (s.blk x) σ₀ b := by
  have hq := Quiet.take hown.freemap hb
  have hblk' : ((s.take b).setInode x (some { sin with din := din', dirty := true })).blk x =
      update (s.blk x) σ₀ b := by
    funext σ
    rw [← hown.take_slots hb hsin, ← hblk]
    simp only [Fs.blk, Fs.din, Fs.setInode, update_self]
  refine ⟨.attach hown hb hsin h0 ⟨rfl, rfl, rfl, rfl, fun i hi _ => ?_⟩ ⟨?_⟩ (fun _ _ => ?_)
    hnew (congrFun hblk'), hblk'⟩
  · exact hq.disk _ (hown.inuse i hi).2.2
  · exact congrArg (fun d => ({ sin with din := d, dirty := true } : SfsInode)) hdin
  · exact update_self _ _ _

/-- The block numbers of the tables of `x` differ from each other. -/
theorem Owned.table_ne (hown : Owned L s) (hx : x ∈ L) {σ τ : Slot} (hne : σ ≠ τ)
    (hτ : s.blk x τ ≠ 0) : s.blk x σ ≠ s.blk x τ :=
  hown.blk_ne hx hx (fun h => hne (Prod.ext_iff.mp h).2.symm) hτ

/-- Nothing but a table of `x` is in its block. -/
theorem Owned.owned_ne_table (hown : Owned L s) (hx : x ∈ L) {τ : Slot} {i : ℕ × Slot}
    (hτ : τ.isTable) (hent : s.blk x τ ≠ 0) (hi : ¬(i.1 = x ∧ i.2.isTable)) :
    s.owned L i ≠ s.blk x τ := by
  intro heq
  have := hown.sep (x, τ) i (by rw [owned_mem hx, heq]) (by rwa [owned_mem hx])
  subst this
  exact hi ⟨rfl, hτ⟩

theorem Owned.lt_width (hown : Owned L s) (hb : s.freemap b = true) : b < 2 ^ 32 :=
  lt_of_lt_of_le (hown.freemap.free b hb).2 hown.width

/-- A taken block enters an empty entry of the table in slot `τ`. -/
theorem Extends.attach_entry {τ : Slot} {j : ℕ} (hown : Owned L s)
    (hb : s.freemap b = true) (hsin : s.inodes x = some sin) (hτ : τ.isTable) (hj : j < 1024)
    (hent : s.blk x τ ≠ 0) (h0 : s.blk x (τ.entry j) = 0)
    (hnew : ∀ i, τ.entry j = .data i → i ∈ I) :
    Extends L x I s ((s.take b).setEntry (s.blk x τ) j b) ∧
      ((s.take b).setEntry (s.blk x τ) j b).blk x (τ.entry j) = b := by
  have hx := hown.mem hsin
  have hq := Quiet.take hown.freemap hb
  have hbent : s.blk x τ ≠ b := by
    have := hown.not_owned_of_free hb (x, τ)
    rwa [owned_mem hx] at this
  have hblk : ((s.take b).setEntry (s.blk x τ) j b).blk x = update (s.blk x) (τ.entry j) b := by
    have hinode : ((s.take b).setEntry (s.blk x τ) j b).inodes x = some sin := hsin
    have hslots := hown.take_slots hb hsin
    have hwrite := blkOf_write (s.take b).disk x sin.din (hown.lt_width hb) hτ hj
    rw [hslots] at hwrite
    funext σ
    rw [Fs.blk, din_eq hinode, ← hwrite hent (fun σ hne => hown.table_ne hx hne hent)
      fun _ => ⟨h0, update_self .., hbent.symm⟩]
    rfl
  refine ⟨.attach hown hb hsin h0 ⟨rfl, rfl, rfl, ?_, fun i hi ht => ?_⟩ (.refl sin)
    (fun _ _ => ?_) hnew (congrFun hblk), ?_⟩
  · rw [← hsin, update_eq_self]
    rfl
  · rw [← hq.disk _ (hown.inuse i hi).2.2]
    exact update_of_ne (hown.owned_ne_table hx hτ hent ht) _ _
  · exact (update_of_ne hbent.symm _ _).trans (update_self _ _ _)
  · rw [hblk, update_self]

end Attach

end Ucore.Sfs
