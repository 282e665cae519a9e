import Ucore.Lib.Separation
import Ucore.Sfs.Rules

/-!
# Which inode owns which block

The slots of an inode are its own block, its indirect blocks and its data
blocks; `Fs.blk` reads the block of a slot from the disk inode and the indirect
blocks. A volume is well owned if the slots of its live inodes hold pairwise
different blocks, all of them in use. Blocks in use that no slot holds are
loose; a leak makes one.
-/

namespace Ucore.Sfs

open Function Fs

/-- The number of block indices of an inode. -/
abbrev maxBlocks : ℕ := 1049612

/-- The places at which an inode holds a block. -/
inductive Slot where
  /-- The block of the inode itself. -/
  | self
  /-- The indirect block. -/
  | indirect
  /-- The double indirect block. -/
  | dbIndirect
  /-- The indirect block in entry `j` of the double indirect block. -/
  | second (j : ℕ)
  /-- The data block with index `i`. -/
  | data (i : ℕ)
  deriving DecidableEq

/-- The slots that hold tables of block numbers. -/
def Slot.isTable : Slot → Prop
  | .indirect | .dbIndirect | .second _ => True
  | .self | .data _ => False

/-- The entry `j` of the indirect block `ent`, or zero without such a block. -/
def tableAt (disk : ℕ → Bytes) (ent j : ℕ) : ℕ :=
  if ent = 0 then 0 else leValue ((disk ent).read (j * 4) 4)

/-- The block in a slot of the inode `ino` with disk inode `din`. -/
def blkOf (disk : ℕ → Bytes) (ino : ℕ) (din : DiskInode) : Slot → ℕ
  | .self => ino
  | .indirect => din.indirect
  | .dbIndirect => din.dbIndirect
  | .second j => if j < 1024 then tableAt disk din.dbIndirect j else 0
  | .data i =>
    if i < 12 then din.directAt i
    else if i < 1036 then tableAt disk din.indirect (i - 12)
    else if i < maxBlocks then
      tableAt disk (tableAt disk din.dbIndirect ((i - 1036) / 1024)) ((i - 1036) % 1024)
    else 0

/-- The inode as it is now: the copy in memory, or the one on disk. -/
def Fs.din (s : Fs) (x : ℕ) : DiskInode :=
  match s.inodes x with
  | some sin => sin.din
  | none => DiskInode.decode ((s.disk x).read 0 diskInodeSize)

/-- The block in a slot. -/
def Fs.blk (s : Fs) (x : ℕ) (σ : Slot) : ℕ := blkOf s.disk x (s.din x) σ

/-- The contents of the data block with index `i`; a missing block reads as zeros. -/
def Fs.content (s : Fs) (x i : ℕ) : Bytes :=
  if s.blk x (.data i) = 0 then Bytes.zero else s.disk (s.blk x (.data i))

theorem Fs.din_eq {s : Fs} {x : ℕ} {sin : SfsInode} (h : s.inodes x = some sin) :
    s.din x = sin.din := by
  simp only [Fs.din, h]

@[simp] theorem Fs.blk_self (s : Fs) (x : ℕ) : s.blk x .self = x := rfl

/-! ## What the block of a slot depends on -/

@[simp] theorem tableAt_none (disk : ℕ → Bytes) (j : ℕ) : tableAt disk 0 j = 0 := if_pos rfl

variable {disk disk' : ℕ → Bytes} {τ : Slot} {ent ino : ℕ}

theorem tableAt_congr (h : ent ≠ 0 → disk' ent = disk ent) (j : ℕ) :
    tableAt disk' ent j = tableAt disk ent j := by
  unfold tableAt
  by_cases hent : ent = 0
  · rw [if_pos hent, if_pos hent]
  · rw [if_neg hent, if_neg hent, h hent]

/-- The slot in entry `j` of the table in a slot. -/
def Slot.entry : Slot → ℕ → Slot
  | .indirect, j => .data (12 + j)
  | .second k, j => .data (1036 + 1024 * k + j)
  | _, j => .second j

theorem blkOf_entry {din : DiskInode} {j : ℕ} (hτ : τ.isTable) (hj : j < 1024) :
    blkOf disk ino din (τ.entry j) = tableAt disk (blkOf disk ino din τ) j := by
  cases τ with
  | self | data => exact hτ.elim
  | dbIndirect => exact if_pos hj
  | indirect =>
    simp only [Slot.entry, blkOf]
    rw [if_neg (by omega), if_pos (by omega), Nat.add_sub_cancel_left]
  | second k =>
    have hdiv : (1036 + 1024 * k + j - 1036) / 1024 = k := by omega
    have hmod : (1036 + 1024 * k + j - 1036) % 1024 = j := by omega
    simp only [Slot.entry, blkOf, maxBlocks, hdiv, hmod]
    rw [if_neg (by omega), if_neg (by omega)]
    by_cases hk : k < 1024
    · rw [if_pos hk, if_pos (by omega)]
    · rw [if_neg hk, if_neg (by omega), tableAt_none]

theorem Slot.entry_inj {τ' : Slot} {j j' : ℕ} (hτ : τ.isTable) (hτ' : τ'.isTable) (hj : j < 1024)
    (hj' : j' < 1024) (h : τ.entry j = τ'.entry j') : τ = τ' ∧ j = j' := by
  cases τ <;> cases τ' <;> simp_all [Slot.entry, Slot.isTable] <;> omega

/-- A slot is read from the disk inode alone, or it is an entry of a table. -/
theorem Slot.entry_induction {P : Slot → Prop}
    (hinode : ∀ σ, (∀ (τ : Slot) j, τ.isTable → j < 1024 → σ ≠ τ.entry j) →
      (∀ disk disk' ino din, blkOf disk' ino din σ = blkOf disk ino din σ) → P σ)
    (hentry : ∀ (τ : Slot) j, τ.isTable → j < 1024 → P τ → P (τ.entry j)) (σ : Slot) : P σ := by
  have hsecond : ∀ k, P (.second k) := by
    intro k
    by_cases hk : k < 1024
    · refine hentry .dbIndirect k trivial hk (hinode _ (fun τ _ _ _ => ?_) fun _ _ _ _ => rfl)
      cases τ <;> simp [Slot.entry]
    · refine hinode _ (fun τ j _ hj => ?_) fun _ _ _ _ => by simp only [blkOf, if_neg hk]
      cases τ <;> simp [Slot.entry] <;> omega
  cases σ with
  | second k => exact hsecond k
  | self | indirect | dbIndirect =>
    refine hinode _ (fun τ _ _ _ => ?_) fun _ _ _ _ => rfl
    cases τ <;> simp [Slot.entry]
  | data i =>
    by_cases h12 : i < 12
    · refine hinode _ (fun τ j hτ hj => ?_) fun _ _ _ _ => by simp only [blkOf, if_pos h12]
      cases τ <;> simp [Slot.entry] <;> omega
    · by_cases hlo : i < 1036
      · have hi := hentry .indirect (i - 12) trivial (by omega)
          (hinode _ (fun τ _ _ _ => by cases τ <;> simp [Slot.entry]) fun _ _ _ _ => rfl)
        rwa [Slot.entry, Nat.add_sub_cancel' (by omega)] at hi
      · have hi := hentry (.second ((i - 1036) / 1024)) ((i - 1036) % 1024) trivial (by omega)
          (hsecond _)
        rwa [Slot.entry, Nat.add_assoc, Nat.div_add_mod, Nat.add_sub_cancel' (by omega)] at hi

/-- The slots of an inode depend on its disk inode and on its tables only. -/
theorem blkOf_congr {din : DiskInode} (h : ∀ σ, σ.isTable → blkOf disk ino din σ ≠ 0 →
      disk' (blkOf disk ino din σ) = disk (blkOf disk ino din σ))
    (σ : Slot) : blkOf disk' ino din σ = blkOf disk ino din σ := by
  induction σ using Slot.entry_induction with
  | hinode σ _ hsame => exact hsame ..
  | hentry τ j hτ hj ih =>
    rw [blkOf_entry hτ hj, blkOf_entry hτ hj, ih, tableAt_congr (h τ hτ)]

/-- Storing a block number in a table changes that entry only. -/
theorem tableAt_write (disk : ℕ → Bytes) {v : ℕ} (j : ℕ) (hv : v < 2 ^ 32) (hent : ent ≠ 0)
    (e k : ℕ) :
    tableAt (update disk ent ((disk ent).write (j * 4) (leBytes 4 v))) e k =
      if e = ent ∧ k = j then v else tableAt disk e k := by
  unfold tableAt
  rcases eq_or_ne e ent with rfl | he
  · rw [if_neg hent, if_neg hent, update_self]
    rcases eq_or_ne k j with rfl | hk
    · have hread := Bytes.read_write_same (disk e) (k * 4) (leBytes 4 v)
      rw [length_leBytes] at hread
      rw [if_pos ⟨rfl, rfl⟩, hread, leValue_leBytes_of_lt (by simpa using hv)]
    · rw [if_neg (fun h => hk h.2), Bytes.read_write_disjoint _ (by simp; omega)]
  · have hne : ¬(e = ent ∧ k = j) := fun h => he h.1
    simp only [update_of_ne he, hne, if_false]

theorem tableAt_zero (h : ent ≠ 0 → disk ent = Bytes.zero) (j : ℕ) : tableAt disk ent j = 0 := by
  unfold tableAt
  by_cases hent : ent = 0
  · rw [if_pos hent]
  · rw [if_neg hent, h hent, Bytes.read_zero, leValue_replicate_zero]

/-! ## Well-owned volumes -/

/-- The block in a slot of a live inode; zero for an inode that is not live. -/
def Fs.owned (s : Fs) (L : Finset ℕ) (i : ℕ × Slot) : ℕ := if i.1 ∈ L then s.blk i.1 i.2 else 0

theorem Fs.owned_mem {s : Fs} {L : Finset ℕ} {x : ℕ} (hx : x ∈ L) (σ : Slot) :
    s.owned L (x, σ) = s.blk x σ := by
  simp [Fs.owned, hx]

/-- The slots of the live inodes `L` hold different blocks, all of them in use. -/
structure Owned (L : Finset ℕ) (s : Fs) : Prop where
  /-- No block is held twice. -/
  sep : Separated (s.owned L)
  /-- Every block that is held is in use. -/
  inuse : ∀ i, s.owned L i ≠ 0 → s.Inuse (s.owned L i)
  /-- The free map is well formed. -/
  freemap : s.FreemapOk
  /-- Inode numbers are not zero. -/
  zero : 0 ∉ L
  /-- The inodes in memory are live. -/
  cached : ∀ x, s.inodes x ≠ none → x ∈ L
  /-- Block numbers have 32 bits. -/
  width : s.blocks ≤ 2 ^ 32

variable {L : Finset ℕ} {s s' : Fs} {x b : ℕ} {σ : Slot}

theorem Owned.mem {sin : SfsInode} (h : Owned L s) (hsin : s.inodes x = some sin) : x ∈ L :=
  h.cached x (by rw [hsin]; simp)

theorem Owned.blk_inuse (h : Owned L s) (hx : x ∈ L) (hne : s.blk x σ ≠ 0) :
    s.Inuse (s.blk x σ) := by
  have := h.inuse (x, σ)
  rw [owned_mem hx] at this
  exact this hne

theorem Owned.self_inuse (h : Owned L s) (hx : x ∈ L) : s.Inuse x :=
  h.blk_inuse (σ := .self) hx (fun h0 => h.zero (h0 ▸ hx))

/-- A free block is held by no live inode. -/
theorem Owned.not_owned_of_free (h : Owned L s) (hb : s.freemap b = true) (i : ℕ × Slot) :
    s.owned L i ≠ b := by
  intro heq
  have hne : s.owned L i ≠ 0 := heq ▸ (h.freemap.free b hb).1
  have := (h.inuse i hne).2.2
  rw [heq, hb] at this
  cases this

theorem Owned.blk_ne (h : Owned L s) {y : ℕ} (hx : x ∈ L) (hy : y ∈ L) (hne : (x, σ) ≠ (y, τ))
    (h0 : s.blk x σ ≠ 0) : s.blk y τ ≠ s.blk x σ := by
  have := h.sep.ne hne (by rwa [owned_mem hx])
  rwa [owned_mem hx, owned_mem hy] at this

/-! ## Changes outside the live inodes -/

/-- `s'` is `s` with some free blocks taken, and perhaps written: what a failed
allocation leaves. -/
structure Quiet (s s' : Fs) : Prop where
  blocks : s'.blocks = s.blocks
  inodes : s'.inodes = s.inodes
  disk : ∀ b, s.freemap b = false → s'.disk b = s.disk b
  taken : ∀ b, s'.freemap b = true → s.freemap b = true
  freemap : s'.FreemapOk

theorem Quiet.refl (h : s.FreemapOk) : Quiet s s := ⟨rfl, rfl, fun _ _ => rfl, fun _ h => h, h⟩

theorem Quiet.trans {s'' : Fs} (h : Quiet s s') (h' : Quiet s' s'') : Quiet s s'' where
  blocks := h'.blocks.trans h.blocks
  inodes := h'.inodes.trans h.inodes
  disk b hb := by
    have hb' : s'.freemap b = false := by
      by_contra hne
      rw [h.taken b (by simpa using hne)] at hb
      cases hb
    rw [h'.disk b hb', h.disk b hb]
  taken b hb := h.taken b (h'.taken b hb)
  freemap := h'.freemap

theorem Quiet.lose (h : s.FreemapOk) (hb : s.freemap b = true) : Quiet s (s.lose b) where
  blocks := rfl
  inodes := rfl
  disk _ _ := rfl
  taken c hc := by
    by_cases hcb : c = b
    · exact hcb ▸ hb
    · simpa [Fs.lose, update_apply, hcb] using hc
  freemap := h.lose hb

theorem Quiet.take (h : s.FreemapOk) (hb : s.freemap b = true) : Quiet s (s.take b) where
  blocks := rfl
  inodes := rfl
  disk c hc := by
    have hcb : c ≠ b := by
      rintro rfl
      rw [hb] at hc
      cases hc
    exact update_of_ne hcb _ _
  taken := (Quiet.lose h hb).taken
  freemap := h.take hb

section

variable (h : Quiet s s')
include h

/-- Giving back a block that was free before, after a quiet change, is quiet. -/
theorem Quiet.give (hb : s.freemap b = true) (hused : s'.Inuse b) : Quiet s (s'.give b) where
  blocks := h.blocks
  inodes := h.inodes
  disk := h.disk
  taken c hc := by
    by_cases hcb : c = b
    · exact hcb ▸ hb
    · exact h.taken c (by simpa [Fs.give, update_apply, hcb] using hc)
  freemap := h.freemap.give hused

/-- A block in use stays so in a quiet change. -/
theorem Quiet.inuse (hb : s.Inuse b) : s'.Inuse b := by
  refine ⟨hb.1, h.blocks ▸ hb.2.1, ?_⟩
  by_contra hne
  have := h.taken b (by simpa using hne)
  rw [hb.2.2] at this
  cases this

theorem Quiet.din (hown : Owned L s) (hx : x ∈ L) : s'.din x = s.din x := by
  simp only [Fs.din, h.inodes, h.disk x (hown.self_inuse hx).2.2]

theorem Quiet.blk (hown : Owned L s) (hx : x ∈ L) (σ : Slot) : s'.blk x σ = s.blk x σ := by
  unfold Fs.blk
  rw [h.din hown hx]
  exact blkOf_congr (fun τ _ hne => h.disk _ (hown.blk_inuse hx hne).2.2) σ

theorem Quiet.owned (hown : Owned L s) : s'.owned L = s.owned L := by
  funext i
  unfold Fs.owned
  split
  · rename_i hx
    exact h.blk hown hx i.2
  · rfl

/-- Quiet changes keep a volume well owned. -/
theorem Quiet.toOwned (hown : Owned L s) : Owned L s' where
  sep := by rw [h.owned hown]; exact hown.sep
  inuse i hi := by
    rw [h.owned hown] at hi ⊢
    exact h.inuse (hown.inuse i hi)
  freemap := h.freemap
  zero := hown.zero
  cached y hy := hown.cached y (by rwa [← h.inodes])
  width := h.blocks ▸ hown.width

end

end Ucore.Sfs
