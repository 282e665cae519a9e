import Ucore.Sfs.State

/-!
# Inodes

The functions of `sfs_inode.c` that translate a block index of a file to a block number, with
the cleanup after a failed allocation or write, and those that load an inode, write it back, and
reclaim it when its last reference is dropped, with the reference counter of `vfs/inode.c`. One
thread runs at a time here, so a `down` that would wait is a deadlock.
-/

namespace Ucore.Sfs

open Kern

/-! ## The block map -/

/-- The second half of `sfs_bmap_get_sub_nolock`: allocate a block and store its
number in the indirect block `ent`. An indirect block that is not the caller's
own `entp` was allocated for this call and is given back on failure. -/
def sfsBmapFillNolock (φ : Faults) (entp ent index : ℕ) : K (ℕ × ℕ) :=
  onError (do
      let ino ← sfsBlockAlloc (φ.at .ino)
      onError (sfsWbuf (φ.at .wbuf) (leBytes 4 ino) ent (index * 4)) (sfsBlockFree ino)
      return (ent, ino))
    (if ent ≠ entp then sfsBlockFree ent else pure ())

/-- `sfs_bmap_get_sub_nolock`: the entry `index` of the indirect block `entp`.
Returns the indirect block, which is allocated on demand, and the entry. -/
def sfsBmapGetSubNolock (φ : Faults) (entp index : ℕ) (create : Bool) : K (ℕ × ℕ) := do
  assert (index < blkNEntry)
  if entp ≠ 0 then
    let bytes ← sfsRbuf (φ.at .rbuf) 4 entp (index * 4)
    if leValue bytes ≠ 0 ∨ create = false then return (entp, leValue bytes)
    else sfsBmapFillNolock φ entp entp index
  else if create = false then return (entp, 0)
  else
    let ent ← sfsBlockAlloc (φ.at .ent)
    sfsBmapFillNolock φ entp ent index

/-- The label `out` of `sfs_bmap_get_nolock`. -/
def sfsBmapOut (blk : ℕ) : K ℕ := do
  if blk ≠ 0 then assertInuse blk
  return blk

/-- `sfs_bmap_get_nolock`: the block with index `index`, or zero. -/
def sfsBmapGetNolock (φ : Faults) (ino index : ℕ) (create : Bool) : K ℕ := do
  let sin ← getSin ino
  if index < nDirect then
    if sin.din.directAt index = 0 ∧ create = true then
      let blk ← sfsBlockAlloc (φ.at .ino)
      modifySin ino fun sin => { sin with din := sin.din.setDirect index blk, dirty := true }
      sfsBmapOut blk
    else sfsBmapOut (sin.din.directAt index)
  else if index - nDirect < blkNEntry then
    let (ent, blk) ←
      sfsBmapGetSubNolock (φ.at .sub) sin.din.indirect (index - nDirect) create
    if ent ≠ sin.din.indirect then
      assert (sin.din.indirect = 0)
      modifySin ino fun sin => { sin with din := { sin.din with indirect := ent }, dirty := true }
    sfsBmapOut blk
  else
    let rest := index - nDirect - blkNEntry
    let (ent, second) ←
      sfsBmapGetSubNolock (φ.at .sub) sin.din.dbIndirect (rest / blkNEntry) create
    if ent ≠ sin.din.dbIndirect then
      assert (sin.din.dbIndirect = 0)
      modifySin ino fun sin => { sin with din := { sin.din with dbIndirect := ent }, dirty := true }
    if second ≠ 0 then
      let (_, blk) ← sfsBmapGetSubNolock (φ.at .sub2) second (rest % blkNEntry) create
      sfsBmapOut blk
    else sfsBmapOut second

/-- `sfs_bmap_free_sub_nolock`: free the entry `index` of the indirect block `ent`. -/
def sfsBmapFreeSubNolock (φ : Faults) (ent index : ℕ) : K Unit := do
  assertInuse ent
  assert (index < blkNEntry)
  let bytes ← sfsRbuf (φ.at .rbuf) 4 ent (index * 4)
  if leValue bytes ≠ 0 then
    sfsWbuf (φ.at .wbuf) (leBytes 4 0) ent (index * 4)
    sfsBlockFree (leValue bytes)

/-- `sfs_bmap_free_nolock`: free the block with index `index`. -/
def sfsBmapFreeNolock (φ : Faults) (ino index : ℕ) : K Unit := do
  let sin ← getSin ino
  if index < nDirect then
    if sin.din.directAt index ≠ 0 then
      sfsBlockFree (sin.din.directAt index)
      modifySin ino fun sin => { sin with din := sin.din.setDirect index 0, dirty := true }
  else if index - nDirect < blkNEntry then
    if sin.din.indirect ≠ 0 then
      sfsBmapFreeSubNolock (φ.at .sub) sin.din.indirect (index - nDirect)
  else
    let rest := index - nDirect - blkNEntry
    if sin.din.dbIndirect ≠ 0 then
      let (_, second) ←
        sfsBmapGetSubNolock (φ.at .sub) sin.din.dbIndirect (rest / blkNEntry) false
      if second ≠ 0 then
        sfsBmapFreeSubNolock (φ.at .sub2) second (rest % blkNEntry)

/-- `sfs_bmap_load_nolock`: the block with index `index`; the index one past the
end appends a block. -/
def sfsBmapLoadNolock (φ : Faults) (ino index : ℕ) : K ℕ := do
  let sin ← getSin ino
  assert (index ≤ sin.din.blocks)
  let blk ← sfsBmapGetNolock (φ.at .bmap) ino index (decide (index = sin.din.blocks))
  assertInuse blk
  if index = sin.din.blocks then
    modifyDin ino fun din => { din with blocks := din.blocks + 1 }
  return blk

/-- `sfs_bmap_truncate_nolock`: free the last block. -/
def sfsBmapTruncateNolock (φ : Faults) (ino : ℕ) : K Unit := do
  let sin ← getSin ino
  assert (sin.din.blocks ≠ 0)
  sfsBmapFreeNolock (φ.at .bmap) ino (sin.din.blocks - 1)
  modifySin ino fun sin =>
    { sin with din := { sin.din with blocks := sin.din.blocks - 1 }, dirty := true }

/-! ## In-memory inodes -/

/-- `trylock_sin`. -/
def trylockSin (ino : ℕ) : K Unit := do
  let sin ← getSin ino
  if sin.removed = true then throw .noent
  else if sin.locked = true then stop .deadlock
  else modifySin ino fun sin => { sin with locked := true }

/-- `unlock_sin`. -/
def unlockSin (ino : ℕ) : K Unit := modifySin ino fun sin => { sin with locked := false }

/-- Run `body` with the semaphore of `ino`, as the callers of the `nolock` functions do. -/
def withSin (ino : ℕ) {α : Type} (body : K α) : K α := do
  trylockSin ino
  body.thenRelease (unlockSin ino)

/-- `sfs_create_inode`, after which the inode is entered in the lists by
`sfs_set_links`. The type must have operations (`sfs_get_ops`). -/
def sfsCreateInode (φ : Faults) (din : DiskInode) (ino : ℕ) : K Unit := do
  kmalloc φ
  assert (din.type = .dir ∨ din.type = .file)
  modify fun s => s.setInode ino (some
    { din, dirty := false, removed := false, reclaimCount := 1, refCount := 1,
      openCount := 0, locked := false })

/-- `inode_ref_inc`. -/
def vopRefInc (ino : ℕ) : K Unit :=
  modifySin ino fun sin => { sin with refCount := sin.refCount + 1 }

/-- `lookup_sfs_nolock`: find a loaded inode and take a reference; the first
reference also counts as a pending reclaim. -/
def lookupSfsNolock (ino : ℕ) : K Bool := do
  let found ← gets fun s => s.inodes ino
  match found with
  | none => return false
  | some sin =>
    vopRefInc ino
    if sin.refCount + 1 = 1 then
      modifySin ino fun sin => { sin with reclaimCount := sin.reclaimCount + 1 }
    return true

/-- `sfs_load_inode`. -/
def sfsLoadInode (φ : Faults) (ino : ℕ) : K Unit := do
  let found ← lookupSfsNolock ino
  if found = true then return ()
  else
    kmalloc (φ.at .kmalloc)
    assertInuse ino
    let bytes ← sfsRbuf (φ.at .rbuf) diskInodeSize ino 0
    assert ((DiskInode.decode bytes).nlinks ≠ 0)
    sfsCreateInode (φ.at .create) (DiskInode.decode bytes) ino

/-- `sfs_fsync`. -/
def sfsFsync (φ : Faults) (ino : ℕ) : K Unit := do
  let sin ← getSin ino
  if sin.din.nlinks = 0 ∨ sin.dirty = false then return ()
  else
    trylockSin ino
    modifySin ino fun sin => { sin with dirty := false }
    let ret ← (sfsWbuf (φ.at .wbuf) sin.din.encode ino 0).attempt
    match ret with
    | .ok _ => unlockSin ino
    | .error e =>
      setDirty ino
      unlockSin ino
      throw e

/-- The loop of `sfs_reclaim` that frees the data blocks, whatever each call returns. -/
def sfsTruncateAll (φ : Faults) (ino : ℕ) : ℕ → K Unit
  | 0 => pure ()
  | nblks + 1 => do
    (sfsBmapTruncateNolock (φ.at (.turn nblks)) ino).ignore
    sfsTruncateAll φ ino nblks

/-- The loop of `sfs_reclaim` that frees the blocks named by the double indirect
block, from the entry `i` on. -/
def sfsFreeSecond (φ : Faults) (ent : ℕ) : ℕ → ℕ → K Unit
  | 0, _ => pure ()
  | n + 1, i => do
    (sfsBmapFreeSubNolock (φ.at (.turn i)) ent i).ignore
    sfsFreeSecond φ ent n (i + 1)

/-- The part of `sfs_reclaim` that gives the blocks of an unlinked inode back. -/
def sfsFreeInodeBlocks (φ : Faults) (din : DiskInode) (ino : ℕ) : K Unit := do
  sfsBlockFree ino
  if din.indirect ≠ 0 then sfsBlockFree din.indirect
  if din.dbIndirect ≠ 0 then
    sfsFreeSecond φ din.dbIndirect blkNEntry 0
    sfsBlockFree din.dbIndirect

/-- `sfs_reclaim`. -/
def sfsReclaim (φ : Faults) (ino : ℕ) : K Unit := do
  let sin ← getSin ino
  assert (0 < sin.reclaimCount)
  modifySin ino fun sin => { sin with reclaimCount := sin.reclaimCount - 1 }
  if sin.reclaimCount - 1 ≠ 0 then throw .busy
  else
    assert (sin.refCount = 0 ∧ sin.openCount = 0)
    if sin.din.nlinks = 0 then sfsTruncateAll (φ.at .bmap) ino sin.din.blocks
    else if sin.dirty = true then sfsFsync (φ.at .fsync) ino
    let sin ← getSin ino
    modify fun s => s.setInode ino none
    if sin.din.nlinks = 0 then sfsFreeInodeBlocks (φ.at .sub2) sin.din ino

/-- `inode_ref_dec`: the last reference reclaims the inode, and the error code of
the reclaim is only printed. -/
def vopRefDec (φ : Faults) (ino : ℕ) : K Unit := do
  let sin ← getSin ino
  assert (0 < sin.refCount)
  modifySin ino fun sin => { sin with refCount := sin.refCount - 1 }
  if sin.refCount - 1 = 0 then (sfsReclaim φ ino).ignore

end Ucore.Sfs
