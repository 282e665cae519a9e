import Ucore.Sfs.FileIo

/-!
# From block numbers to sectors

The transfers of `sfs_io.c` down to the sectors of the disk. A block number becomes
a byte offset of type `off_t`, goes through an `iobuf` to `disk0_io`, and becomes a
block number and a sector number again. What the caller's memory held before is a
byte buffer, of which a transfer uses the part from a position on.
-/

namespace Ucore.Sfs.BlockIo

open Kern

/-- The disk under `disk0`: the sectors that `ide_device_size` reports, and the bytes,
sector after sector. -/
structure Disk where
  size : ℕ
  hsize : size < 2 ^ 32
  bytes : Bytes

/-- `DISK0_BLK_NSECT`. -/
abbrev disk0BlkNsect : ℕ := 8

/-- `SECTSIZE`. -/
abbrev sectSize : ℕ := 512

/-- `DISK0_BUFSIZE`. -/
abbrev disk0BufSize : ℕ := 4 * blkSize

/-- `dev->d_blocks`, as `disk0_device_init` sets it. -/
def Disk.dBlocks (d : Disk) : ℕ := d.size / disk0BlkNsect

/-- Store on the disk. -/
def Disk.store (d : Disk) (addr : ℕ) (data : List UInt8) : Disk :=
  { d with bytes := d.bytes.write addr data }

/-- Conversion to `uint32_t`. -/
def toU32 (x : ℤ) : ℕ := (x % 2 ^ 32).toNat

/-- `struct iobuf`: `io_base` points to position `base` of the memory `buf`. -/
structure Iobuf where
  buf : Bytes
  base : ℕ
  offset : ℤ
  resid : ℕ

/-- `iobuf_skip`. -/
def Iobuf.skip (iob : Iobuf) (n : ℕ) : Iobuf :=
  { iob with base := iob.base + n, offset := iob.offset + n, resid := iob.resid - n }

/-- Code of the transfers. -/
abbrev D := Kern Err Disk

/-- `disk0_read_blks_nolock`: what it leaves in `disk0_buffer`. -/
def disk0ReadBlksNolock (blkno nblks : ℕ) : D (List UInt8) :=
  gets fun d => d.bytes.read (toU32 (blkno * disk0BlkNsect) * sectSize)
    (toU32 (nblks * disk0BlkNsect) * sectSize)

/-- `disk0_write_blks_nolock` of `disk0_buffer`. -/
def disk0WriteBlksNolock (buffer : List UInt8) (blkno nblks : ℕ) : D Unit :=
  modify fun d => d.store (toU32 (blkno * disk0BlkNsect) * sectSize)
    (buffer.take (toU32 (nblks * disk0BlkNsect) * sectSize))

/-- The loop of `disk0_io`, a bufferful a turn. -/
def disk0Loop (write : Bool) : ℕ → Iobuf → ℕ → D Iobuf
  | 0, _, _ => stop .running
  | fuel + 1, iob, blkno =>
    if iob.resid = 0 then pure iob
    else do
      let alen := min iob.resid disk0BufSize
      let nblks := alen / blkSize
      assert (alen ≠ 0 ∧ alen % blkSize = 0)
      let buf ← if write then do
          disk0WriteBlksNolock (iob.buf.read iob.base alen) blkno nblks
          pure iob.buf
        else do
          let buffer ← disk0ReadBlksNolock blkno nblks
          pure (iob.buf.write iob.base (buffer.take alen))
      disk0Loop write fuel ({ iob with buf }.skip alen) (toU32 (blkno + nblks))

/-- `disk0_io`. A turn moves a block at least, so the loop ends within `nblks` turns. -/
def disk0Io (iob : Iobuf) (write : Bool) : D Iobuf := do
  let dBlocks ← gets Disk.dBlocks
  let blkno := toU32 (iob.offset.tdiv blkSize)
  let nblks := iob.resid / blkSize
  if iob.offset.tmod blkSize ≠ 0 ∨ iob.resid % blkSize ≠ 0 then throw .inval
  else if dBlocks < toU32 (blkno + nblks) then throw .inval
  else if nblks = 0 then return iob
  else disk0Loop write (nblks + 1) iob blkno

variable (blocks : ℕ)

/-- `sfs_rwblock_nolock` on a volume with `blocks` blocks. -/
def sfsRwblockNolock (buf : Bytes) (base blkno : ℕ) (write check : Bool) : D Bytes := do
  assert ((blkno ≠ 0 ∨ check = false) ∧ blkno < blocks)
  let iob ← disk0Io ⟨buf, base, toOff (blkno * blkSize), blkSize⟩ write
  return iob.buf

/-- `sfs_rwblock`. A block number that was asserted below `super.blocks` can be counted up. -/
def sfsRwblock (buf : Bytes) (base blkno : ℕ) (write : Bool) : ℕ → D Bytes
  | 0 => pure buf
  | nblks + 1 => do
    let buf ← sfsRwblockNolock blocks buf base blkno write true
    sfsRwblock buf (base + blkSize) (blkno + 1) write nblks

/-- `sfs_rblock`. -/
def sfsRblock (buf : Bytes) (base blkno nblks : ℕ) : D Bytes :=
  sfsRwblock blocks buf base blkno false nblks

/-- `sfs_wblock`. -/
def sfsWblock (buf : Bytes) (base blkno nblks : ℕ) : D Bytes :=
  sfsRwblock blocks buf base blkno true nblks

/-- `sfs_rbuf`, with what `sfs_buffer` held before. -/
def sfsRbuf (sfsBuffer buf : Bytes) (base len blkno : ℕ) (offset : ℤ) : D Bytes := do
  assert (0 ≤ offset ∧ offset < blkSize ∧ toU32 (offset + len) ≤ blkSize)
  let sfsBuffer ← sfsRwblockNolock blocks sfsBuffer 0 blkno false true
  return buf.write base (sfsBuffer.read offset.toNat len)

/-- `sfs_wbuf`, with what `sfs_buffer` held before. -/
def sfsWbuf (sfsBuffer buf : Bytes) (base len blkno : ℕ) (offset : ℤ) : D Bytes := do
  assert (0 ≤ offset ∧ offset < blkSize ∧ toU32 (offset + len) ≤ blkSize)
  let sfsBuffer ← sfsRwblockNolock blocks sfsBuffer 0 blkno false true
  sfsRwblockNolock blocks (sfsBuffer.write offset.toNat (buf.read base len)) 0 blkno true true

/-- Memory and disk after `len` bytes went between position `base` of the memory and
address `addr` of the disk, and nothing else changed. -/
def Moved (write : Bool) (buf : Bytes) (base : ℕ) (d : Disk) (addr len : ℕ) (buf' : Bytes)
    (d' : Disk) : Prop :=
  if write then buf' = buf ∧ d' = d.store addr (buf.read base len)
  else buf' = buf.write base (d.bytes.read addr len) ∧ d' = d

/-- Every block but the super block is transferred where it lies, whole or in part. -/
def Exact (d : Disk) : Prop :=
  (∀ buf base blkno nblks, 0 < blkno → blkno + nblks ≤ blocks →
    (sfsRblock blocks buf base blkno nblks).wp False Never
      (Moved false buf base d (blkno * blkSize) (nblks * blkSize)) d ∧
    (sfsWblock blocks buf base blkno nblks).wp False Never
      (Moved true buf base d (blkno * blkSize) (nblks * blkSize)) d) ∧
  ∀ sfsBuffer buf base len blkno (offset : ℕ), 0 < blkno → blkno < blocks →
    offset < blkSize → offset + len ≤ blkSize →
    (sfsRbuf blocks sfsBuffer buf base len blkno offset).wp False Never
      (Moved false buf base d (blkno * blkSize + offset) len) d ∧
    (sfsWbuf blocks sfsBuffer buf base len blkno offset).wp False Never
      (fun _ d' => d' = d.store (blkno * blkSize + offset) (buf.read base len)) d

variable {blocks : ℕ} {d : Disk} {buf : Bytes} {base blkno : ℕ} {write : Bool}

theorem toU32_natCast {n : ℕ} (h : n < 2 ^ 32) : toU32 n = n := by
  rw [toU32, Int.emod_eq_of_lt (by omega) (by omega), Int.toNat_natCast]

theorem toOff_natCast {n : ℕ} (h : n < 2 ^ 31) : toOff n = n :=
  Int.bmod_eq_of_le (by omega) (by omega)

/-- A block below `2 ^ 19` is moved where it lies: its offset is positive, so that
`disk0_io` finds the same block number again, and one bufferful holds the block. -/
theorem wp_sfsRwblockNolock (hpos : 0 < blkno) (hblk : blkno < blocks) (hlow : blkno < 2 ^ 19)
    (hmount : blocks ≤ d.dBlocks) : (sfsRwblockNolock blocks buf base blkno write true).wp False
      Never (Moved write buf base d (blkno * blkSize) blkSize) d := by
  have hoff : toOff (blkno * blkSize) = (blkno * blkSize : ℕ) := by
    rw [← Int.natCast_mul, toOff_natCast (by simp only [blkSize]; omega)]
  have hback : toU32 (((blkno * blkSize : ℕ) : ℤ).tdiv blkSize) = blkno := by
    rw [← Int.ofNat_tdiv, Nat.mul_div_cancel _ (by decide), toU32_natCast (by omega)]
  have hend : toU32 (blkno + 1) = blkno + 1 := toU32_natCast (n := blkno + 1) (by omega)
  have hsect : toU32 (blkno * 8) * sectSize = blkno * blkSize := by
    rw [show (blkno * 8 : ℤ) = (blkno * 8 : ℕ) by rfl, toU32_natCast (by omega)]
    exact Nat.mul_assoc ..
  have hlen : toU32 8 * sectSize = blkSize := rfl
  rw [sfsRwblockNolock, hoff]
  refine wp_check ⟨.inl (by omega), hblk⟩ ?_
  rw [wp_bind, disk0Io, wp_get]
  simp only [hback]
  rw [if_neg (by simp), if_neg (by simp [hend]; omega)]
  cases write
  · simp [disk0Loop, disk0ReadBlksNolock, Iobuf.skip, Moved, wp_assert, hsect, hlen,
      Bytes.take_read]
  · simp [disk0Loop, disk0WriteBlksNolock, Iobuf.skip, Moved, wp_assert, hsect, hlen,
      Bytes.take_read]

/-- Blocks one after another, moved one by one. -/
theorem wp_sfsRwblock (nblks : ℕ) (hpos : 0 < blkno) (hblk : blkno + nblks ≤ blocks)
    (hlow : blocks ≤ 2 ^ 19) (hmount : blocks ≤ d.dBlocks) :
    (sfsRwblock blocks buf base blkno write nblks).wp False Never
      (Moved write buf base d (blkno * blkSize) (nblks * blkSize)) d := by
  induction nblks generalizing buf base blkno d with
  | zero => cases write <;> simp [sfsRwblock, Moved, Bytes.read, Disk.store]
  | succ nblks ih =>
    rw [sfsRwblock, wp_bind]
    refine (wp_sfsRwblockNolock hpos (by omega) (by omega) hmount).imp ?_
    have hnext : (blkno + 1) * blkSize = blkno * blkSize + blkSize := Nat.succ_mul ..
    have hlen : (nblks + 1) * blkSize = blkSize + nblks * blkSize := by
      rw [Nat.succ_mul, Nat.add_comm]
    cases write
    · rintro _ _ ⟨rfl, rfl⟩
      refine (ih (by omega) (by omega) hmount).imp ?_
      rintro _ _ ⟨rfl, rfl⟩
      refine ⟨?_, rfl⟩
      rw [hlen, Bytes.read_add, ← Bytes.write_write, Bytes.length_read, hnext]
    · rintro _ _ ⟨rfl, rfl⟩
      refine (ih (by omega) (by omega) (by exact hmount)).imp ?_
      rintro _ _ ⟨rfl, rfl⟩
      refine ⟨rfl, ?_⟩
      rw [hlen, Bytes.read_add, hnext]
      simp only [Disk.store, ← Bytes.write_write, Bytes.length_read]

/-- Block `2 ^ 19` has a negative offset, which `disk0_io` takes for a block past the end. -/
theorem wp_sfsRwblockNolock_refused (hblk : 2 ^ 19 < blocks) :
    (sfsRwblockNolock blocks buf base (2 ^ 19) write true).wp False
      (fun e d' => e = .inval ∧ d' = d) (fun _ _ => False) d := by
  have hsize : d.dBlocks < 2 ^ 32 - 2 ^ 19 + 1 := by
    have hdisk := d.hsize
    simp only [Disk.dBlocks, disk0BlkNsect]
    omega
  refine wp_check ⟨.inl (by decide), hblk⟩ ?_
  rw [wp_bind, disk0Io, wp_get]
  dsimp only
  rw [if_neg (by decide), if_pos (lt_of_lt_of_eq hsize (by decide))]
  exact ⟨rfl, rfl⟩

/-- The transfers are exact on the volumes of at most `2 ^ 19` blocks, and on no other. -/
theorem transfers_exact_iff (hmount : blocks ≤ d.dBlocks) : Exact blocks d ↔ blocks ≤ 2 ^ 19 := by
  refine ⟨fun h => ?_, fun hlow => ⟨fun buf base blkno nblks hpos hblk => ⟨?_, ?_⟩, ?_⟩⟩
  · by_contra hbig
    have hread := (h.1 .zero 0 (2 ^ 19) 1 (by decide) (by omega)).1
    rw [sfsRblock, sfsRwblock, wp_bind] at hread
    obtain ⟨_, _, hdone, -⟩ := hread.returns_done
    exact (wp_sfsRwblockNolock_refused (Nat.lt_of_not_le hbig)).of_done hdone
  · exact wp_sfsRwblock nblks hpos hblk hlow hmount
  · exact wp_sfsRwblock nblks hpos hblk hlow hmount
  · intro sfsBuffer buf base len blkno offset hpos hblk hoff hlen
    have hsmall : toU32 (offset + len) ≤ blkSize := by
      rw [← Int.natCast_add, toU32_natCast (by simp only [blkSize] at hlen; omega)]
      exact hlen
    have hrange : 0 ≤ (offset : ℤ) ∧ (offset : ℤ) < blkSize ∧ toU32 (offset + len) ≤ blkSize :=
      ⟨Int.natCast_nonneg _, Int.ofNat_lt.mpr hoff, hsmall⟩
    have hlow := Nat.lt_of_lt_of_le hblk hlow
    constructor
    · rw [sfsRbuf, wp_bind, wp_assert]
      refine ⟨fun _ => ?_, fun h => h hrange⟩
      refine wp_seq ((wp_sfsRwblockNolock hpos hblk hlow hmount).imp ?_)
      rintro _ _ ⟨rfl, rfl⟩
      rw [wp_pure, Int.toNat_natCast, Bytes.read_copied _ _ hlen]
      exact ⟨rfl, rfl⟩
    · rw [sfsWbuf, wp_bind, wp_assert]
      refine ⟨fun _ => ?_, fun h => h hrange⟩
      refine wp_seq ((wp_sfsRwblockNolock hpos hblk hlow hmount).imp ?_)
      rintro _ _ ⟨rfl, rfl⟩
      refine (wp_sfsRwblockNolock hpos hblk hlow hmount).imp ?_
      rintro _ _ ⟨-, rfl⟩
      rw [Disk.store, Bytes.write_copied _ _ (by simpa using hlen)]
      rfl

/-- A disk of `2 ^ 20` blocks. -/
def largeDisk : Disk := ⟨2 ^ 23, by decide, .zero⟩

theorem transfers_exact_iff_half : Exact (2 ^ 19) largeDisk :=
  (transfers_exact_iff (by decide)).mpr le_rfl

/-- A block inside the volume that is refused because of its number. -/
theorem block_refused : 2 ^ 19 + 1 ≤ largeDisk.dBlocks ∧
    (sfsRblock (2 ^ 19 + 1) .zero 0 (2 ^ 19) 1).wp False (fun e d' => e = .inval ∧ d' = largeDisk)
      (fun _ _ => False) largeDisk := by
  refine ⟨by decide, ?_⟩
  rw [sfsRblock, sfsRwblock, wp_bind]
  exact (wp_sfsRwblockNolock_refused (by decide)).imp (fun _ _ h => h.elim)

end Ucore.Sfs.BlockIo
