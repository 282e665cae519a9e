import Ucore.Sfs.Inode

/-!
# Reading, writing and truncating a regular file

`sfs_io_nolock` moves an unaligned head, whole blocks and a tail, each through
the block map; `sfs_truncfile` adds or frees blocks one at a time and stores the
size last. Offsets are 32-bit signed integers, as `off_t` is on this machine.
-/

namespace Ucore.Sfs

open Kern

/-- The value that a computed `off_t` holds: 32-bit two's complement. -/
def toOff (x : ℤ) : ℤ := Int.bmod x (2 ^ 32)

/-- `sfs_buf_op`: `sfs_wbuf` of the next `size` bytes of the caller's buffer, or
`sfs_rbuf`. Returns the bytes that were moved. -/
def sfsBufOp (φ : Faults) (write : Bool) (data : List UInt8) (size blk off : ℕ) :
    K (List UInt8) :=
  if write = true then do
    sfsWbuf φ (data.take size) blk off
    return data.take size
  else sfsRbuf φ size blk off

/-- `sfs_block_op`: `sfs_wblock` of the next block of the caller's buffer, or
`sfs_rblock`. -/
def sfsBlockOp (φ : Faults) (write : Bool) (data : List UInt8) (blk : ℕ) : K (List UInt8) :=
  if write = true then do
    sfsWblock φ (data.take blkSize) blk 1
    return data.take blkSize
  else sfsRblock φ blk 1

/-- One part of a transfer: map the block, then move its bytes. -/
def sfsIoPart (φ : Faults) (ino blkno : ℕ) (op : Faults → ℕ → K (List UInt8)) :
    K (List UInt8) := do
  let blk ← sfsBmapLoadNolock (φ.at .load) ino blkno
  op (φ.at .wbuf) blk

/-- The whole-block loop of `sfs_io_nolock`: the return code, and the bytes moved
before it. -/
def sfsIoBlocks (φ : Faults) (ino : ℕ) (write : Bool) :
    ℕ → ℕ → List UInt8 → K (Option Err × List UInt8)
  | 0, _, _ => pure (none, [])
  | nblks + 1, blkno, data => do
    match ← (sfsIoPart (φ.at (.turn blkno)) ino blkno
        fun φ blk => sfsBlockOp φ write data blk).attempt with
    | .error e => return (some e, [])
    | .ok bytes =>
      let (ret, more) ← sfsIoBlocks φ ino write nblks (blkno + 1) (data.drop blkSize)
      return (ret, bytes ++ more)

/-- The tail of `sfs_io_nolock`: `size` bytes at the start of the last block. -/
def sfsIoTail (φ : Faults) (ino : ℕ) (write : Bool) (size blkno : ℕ) (data : List UInt8) :
    K (Option Err × List UInt8) := do
  if size ≠ 0 then
    match ← (sfsIoPart (φ.at (.turn blkno)) ino blkno
        fun φ blk => sfsBufOp φ write data size blk 0).attempt with
    | .error e => return (some e, [])
    | .ok bytes => return (none, bytes)
  else return (none, [])

/-- The whole blocks and the tail of `sfs_io_nolock`. -/
def sfsIoRest (φ : Faults) (ino : ℕ) (write : Bool) (nblks blkno endpos : ℕ)
    (data : List UInt8) : K (Option Err × List UInt8) := do
  let (ret, bytes) ← sfsIoBlocks φ ino write nblks blkno data
  match ret with
  | some e => return (some e, bytes)
  | none =>
    let (ret, more) ← sfsIoTail φ ino write (endpos % blkSize) (blkno + nblks)
      (data.drop (nblks * blkSize))
    return (ret, bytes ++ more)

/-- The transfer of `sfs_io_nolock`, from the unaligned head on. -/
def sfsIoMove (φ : Faults) (ino : ℕ) (write : Bool) (offset endpos : ℕ) (data : List UInt8) :
    K (Option Err × List UInt8) := do
  let blkno := offset / blkSize
  let nblks := endpos / blkSize - blkno
  let blkoff := offset % blkSize
  if blkoff ≠ 0 then
    let size := if nblks ≠ 0 then blkSize - blkoff else endpos - offset
    match ← (sfsIoPart (φ.at (.turn blkno)) ino blkno
        fun φ blk => sfsBufOp φ write data size blk blkoff).attempt with
    | .error e => return (some e, [])
    | .ok bytes =>
      if nblks = 0 then return (none, bytes)
      else
        let (ret, more) ← sfsIoRest φ ino write (nblks - 1) (blkno + 1) endpos (data.drop size)
        return (ret, bytes ++ more)
  else sfsIoRest φ ino write nblks blkno endpos data

/-- The label `out` of `sfs_io_nolock`: a transfer past the end moves the end. -/
def sfsIoOut (ino offset alen : ℕ) : K Unit := do
  let sin ← getSin ino
  if sin.din.size < offset + alen then
    modifySin ino fun sin =>
      { sin with dirty := true, din := { sin.din with size := offset + alen } }

/-- `sfs_io_nolock`: `data` is the caller's buffer of a write, and `len` the
requested length. Returns the return code and the bytes moved, whose number is
stored in `alenp`. -/
def sfsIoNolock (φ : Faults) (ino : ℕ) (write : Bool) (offset : ℤ) (len : ℕ)
    (data : List UInt8) : K (Option Err × List UInt8) := do
  let sin ← getSin ino
  assert (sin.din.type ≠ .dir)
  let endpos := toOff (offset + len)
  if offset < 0 ∨ (maxFileSize : ℤ) ≤ offset ∨ endpos < offset then return (some .inval, [])
  else if offset = endpos then return (none, [])
  else if write = false ∧ sin.din.size ≤ offset.toNat then return (none, [])
  else
    let endpos := min endpos.toNat maxFileSize
    let endpos := if write = true then endpos else min endpos sin.din.size
    let (ret, bytes) ← sfsIoMove φ ino write offset.toNat endpos data
    sfsIoOut ino offset.toNat bytes.length
    return (ret, bytes)

/-- `sfs_io`: the return code and the bytes by which the I/O buffer is advanced. -/
def sfsIo (φ : Faults) (ino : ℕ) (write : Bool) (offset : ℤ) (len : ℕ) (data : List UInt8) :
    K (Option Err × List UInt8) :=
  withSin ino (sfsIoNolock φ ino write offset len data)

/-- `sfs_read`. -/
def sfsRead (φ : Faults) (ino : ℕ) (offset : ℤ) (len : ℕ) : K (Option Err × List UInt8) :=
  sfsIo φ ino false offset len []

/-- `sfs_write`. -/
def sfsWrite (φ : Faults) (ino : ℕ) (offset : ℤ) (data : List UInt8) :
    K (Option Err × List UInt8) :=
  sfsIo φ ino true offset data.length data

/-- The growing loop of `sfs_truncfile`: append `n` blocks from the index `nblks` on. -/
def sfsGrow (φ : Faults) (ino : ℕ) : ℕ → ℕ → K Unit
  | 0, _ => pure ()
  | n + 1, nblks => do
    let _ ← sfsBmapLoadNolock (φ.at (.turn nblks)) ino nblks
    sfsGrow φ ino n (nblks + 1)

/-- The shrinking loop of `sfs_truncfile`: free `n` blocks, the last one first. -/
def sfsShrink (φ : Faults) (ino : ℕ) : ℕ → K Unit
  | 0 => pure ()
  | n + 1 => do
    sfsBmapTruncateNolock (φ.at (.turn n)) ino
    sfsShrink φ ino n

/-- `ROUNDUP_DIV(len, SFS_BLKSIZE)`. -/
def blocksOf (len : ℕ) : ℕ := (len + (blkSize - 1)) / blkSize

/-- The part of `sfs_truncfile` that runs with the inode locked. -/
def sfsTruncfileNolock (φ : Faults) (ino len : ℕ) : K Unit := do
  let sin ← getSin ino
  if sin.din.blocks < blocksOf len then
    sfsGrow φ ino (blocksOf len - sin.din.blocks) sin.din.blocks
  else sfsShrink φ ino (sin.din.blocks - blocksOf len)
  let sin ← getSin ino
  assert (sin.din.blocks = blocksOf len)
  modifySin ino fun sin => { sin with dirty := true, din := { sin.din with size := len } }

/-- `sfs_truncfile`. -/
def sfsTruncfile (φ : Faults) (ino : ℕ) (len : ℤ) : K Unit := do
  if len < 0 ∨ (maxFileSize : ℤ) < len then throw .inval
  else
    let sin ← getSin ino
    assert (sin.din.type ≠ .dir)
    if sin.din.size = len.toNat then assert (blocksOf len.toNat = sin.din.blocks)
    else withSin ino (sfsTruncfileNolock φ ino len.toNat)

/-- `sfs_tryseek`: a position past the end extends the file. -/
def sfsTryseek (φ : Faults) (ino : ℕ) (pos : ℤ) : K Unit := do
  if pos < 0 ∨ (maxFileSize : ℤ) ≤ pos then throw .inval
  else
    let sin ← getSin ino
    if sin.din.size < pos.toNat then sfsTruncfile φ ino pos

end Ucore.Sfs
