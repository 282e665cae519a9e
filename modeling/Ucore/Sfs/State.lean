import Ucore.Lib.Outcome
import Ucore.Lib.Bytes
import Mathlib.Data.Fintype.Basic

/-!
# A mounted SFS volume

The state of `struct sfs_fs`: the super block, the free map, the device and the
in-memory inodes, with the block transfers of `sfs_io.c`, the free map of
`bitmap.c` and the block allocator. Every transfer and every `kmalloc` may fail,
as a fault schedule says.
-/

namespace Ucore.Sfs

open Kern Function

/-! ## The on-disk format

The constants of `sfs.h`, the disk inode and the directory entry, with the byte layout that
`sfs_rbuf` and `sfs_wbuf` transfer. -/

/-- `SFS_BLKSIZE`: the size of a block in bytes. -/
abbrev blkSize : ℕ := 4096

/-- `SFS_NDIRECT`: the number of direct blocks of an inode. -/
abbrev nDirect : ℕ := 12

/-- `SFS_BLK_NENTRY`: the number of block numbers in an indirect block. -/
abbrev blkNEntry : ℕ := 1024

/-- `SFS_MAX_FNAME_LEN`: the longest file name. -/
abbrev maxFnameLen : ℕ := 255

/-- `SFS_MAX_FILE_SIZE`: the largest size of a regular file, 128 MiB. -/
abbrev maxFileSize : ℕ := 134217728

/-- `SFS_BLKN_ROOT`: the block of the root directory's inode. -/
abbrev blknRoot : ℕ := 1

/-- `SFS_BLKN_FREEMAP`: the first block of the free map. -/
abbrev blknFreemap : ℕ := 2

/-- `SFS_BLKBITS`: the number of bits in a block. -/
abbrev blkBits : ℕ := 32768

/-- The file types of a disk inode. -/
inductive FileType where
  /-- `SFS_TYPE_INVAL`, and every code that is none of the others. -/
  | inval
  /-- `SFS_TYPE_FILE`. -/
  | file
  /-- `SFS_TYPE_DIR`. -/
  | dir
  /-- `SFS_TYPE_LINK`. -/
  | link
  deriving DecidableEq, Repr

/-- The stored code of a file type. -/
def FileType.code : FileType → ℕ
  | .inval => 0
  | .file => 1
  | .dir => 2
  | .link => 3

/-- The file type of a stored code. -/
def FileType.ofCode : ℕ → FileType
  | 1 => .file
  | 2 => .dir
  | 3 => .link
  | _ => .inval

/-- `struct sfs_disk_inode`. The union of the source is two words: `size` is
`fileinfo.size` of a file and `dirinfo.slots` of a directory, and `parent` is
`dirinfo.parent`. -/
structure DiskInode where
  /-- The size of a file in bytes, or the number of entries of a directory. -/
  size : ℕ
  /-- The inode number of a directory's parent. -/
  parent : ℕ
  /-- The file type. -/
  type : FileType
  /-- The number of hard links. -/
  nlinks : ℕ
  /-- The number of blocks. -/
  blocks : ℕ
  /-- The direct blocks. -/
  direct : Fin nDirect → ℕ
  /-- The indirect block, or zero. -/
  indirect : ℕ
  /-- The double indirect block, or zero. -/
  dbIndirect : ℕ
  deriving DecidableEq

/-- `dirinfo.slots`, which shares its word with `fileinfo.size`. -/
abbrev DiskInode.slots (din : DiskInode) : ℕ := din.size

/-- `din->direct[i]`. -/
def DiskInode.directAt (din : DiskInode) (i : ℕ) : ℕ :=
  if h : i < nDirect then din.direct ⟨i, h⟩ else 0

/-- `din->direct[i] = blk`. -/
def DiskInode.setDirect (din : DiskInode) (i blk : ℕ) : DiskInode :=
  { din with direct := fun j => if j.val = i then blk else din.direct j }

/-- The inode that `memset(din, 0, ...)` leaves, with its type stored. -/
def DiskInode.empty (type : FileType) : DiskInode :=
  { size := 0, parent := 0, type, nlinks := 0, blocks := 0, direct := fun _ => 0,
    indirect := 0, dbIndirect := 0 }

/-- `sizeof(struct sfs_disk_inode)`. -/
abbrev diskInodeSize : ℕ := 72

/-- The bytes of a disk inode, in the order of the declaration. -/
def DiskInode.encode (din : DiskInode) : List UInt8 :=
  leBytes 4 din.size ++ leBytes 4 din.parent ++ leBytes 2 din.type.code ++
    leBytes 2 din.nlinks ++ leBytes 4 din.blocks ++
    ((List.ofFn din.direct).flatMap (leBytes 4)) ++
    leBytes 4 din.indirect ++ leBytes 4 din.dbIndirect

/-- The integer in the bytes `off ≤ i < off + n` of a record. -/
def field (bs : List UInt8) (off n : ℕ) : ℕ := leValue ((bs.drop off).take n)

/-- The disk inode stored in a list of bytes. -/
def DiskInode.decode (bs : List UInt8) : DiskInode :=
  { size := field bs 0 4, parent := field bs 4 4, type := .ofCode (field bs 8 2),
    nlinks := field bs 10 2, blocks := field bs 12 4,
    direct := fun i => field bs (16 + 4 * i.val) 4,
    indirect := field bs 64 4, dbIndirect := field bs 68 4 }

@[simp] theorem DiskInode.length_encode (din : DiskInode) : din.encode.length = diskInodeSize := by
  simp [DiskInode.encode]

/-- `struct sfs_disk_entry`, with its name as a string. -/
structure DiskEntry where
  /-- The inode number, or zero in an unused slot. -/
  ino : ℕ
  /-- The file name. -/
  name : List UInt8
  deriving DecidableEq

/-- `sizeof(struct sfs_disk_entry)`. -/
abbrev diskEntrySize : ℕ := 260

/-- The bytes of an entry: the number, the name, and zeros to the end. -/
def DiskEntry.encode (e : DiskEntry) : List UInt8 :=
  leBytes 4 e.ino ++ (e.name ++ List.replicate (maxFnameLen + 1 - e.name.length) 0)

/-! ## The volume -/

/-- The error codes that SFS returns. -/
inductive Err where
  /-- `E_NO_MEM`: no memory, or no free block. -/
  | noMem
  /-- `E_NOENT`. -/
  | noent
  /-- `E_INVAL`. -/
  | inval
  /-- `E_ISDIR`. -/
  | isdir
  /-- `E_NOTDIR`. -/
  | notdir
  /-- `E_EXISTS`. -/
  | exists
  /-- `E_TOO_BIG`. -/
  | tooBig
  /-- `E_BUSY`. -/
  | busy
  /-- `E_NOTEMPTY`. -/
  | notempty
  /-- `E_MAX_OPEN`. -/
  | maxOpen
  /-- The error code of the device. -/
  | io
  deriving DecidableEq, Repr

/-- The places in a function from which a call can fail. -/
inductive Site where
  /-- A `kmalloc`. -/
  | kmalloc
  /-- The read transfer of a buffer access. -/
  | rd
  /-- The write transfer of a buffer access. -/
  | wr
  /-- The write transfer of `sfs_clear_block`. -/
  | clear
  /-- The transfers of one turn of a loop. -/
  | turn (i : ℕ)
  /-- `sfs_block_alloc` for an indirect block. -/
  | ent
  /-- `sfs_block_alloc` for the block itself. -/
  | ino
  /-- `sfs_rbuf`. -/
  | rbuf
  /-- `sfs_wbuf`, or `sfs_wblock`. -/
  | wbuf
  /-- The first `sfs_bmap_get_sub_nolock` of a function, or its only one. -/
  | sub
  /-- The second `sfs_bmap_get_sub_nolock`, or `sfs_bmap_free_sub_nolock`. -/
  | sub2
  /-- `sfs_bmap_get_nolock` or `sfs_bmap_free_nolock`. -/
  | bmap
  /-- `sfs_bmap_load_nolock`. -/
  | load
  /-- `sfs_dirent_search_nolock`. -/
  | search
  /-- The second `sfs_dirent_search_nolock`. -/
  | search2
  /-- `sfs_dirent_write_nolock`. -/
  | write
  /-- `sfs_load_inode`. -/
  | inode
  /-- `sfs_dirent_create_inode`. -/
  | create
  /-- `sfs_dirent_link_nolock`. -/
  | link
  /-- The `sfs_dirent_link_nolock` that puts an old link back. -/
  | relink
  /-- `sfs_dirent_unlink_nolock`. -/
  | unlink
  /-- `vop_fsync`. -/
  | fsync
  /-- `vop_ref_dec`. -/
  | drop
  deriving DecidableEq

/-- A fault schedule: for each call path of a function, whether the device
transfer or the `kmalloc` at its end fails. Different calls have different
paths, so a schedule can let any set of them fail. -/
def Faults : Type := List Site → Bool

/-- The schedule of the call made from `x`. -/
def Faults.at (φ : Faults) (x : Site) : Faults := fun path => φ (x :: path)

/-- Whether this transfer or `kmalloc` itself fails. -/
def Faults.hit (φ : Faults) : Bool := φ []

/-- The schedule without failures. -/
def Faults.none : Faults := fun _ => false

/-- `struct sfs_inode`, with the counters of its `struct inode`. -/
structure SfsInode where
  /-- The copy of the disk inode. -/
  din : DiskInode
  /-- Whether the copy was changed. -/
  dirty : Bool
  /-- The `SFS_removed` bit of `flags`. -/
  removed : Bool
  /-- `reclaim_count`. -/
  reclaimCount : ℕ
  /-- `ref_count` of the inode. -/
  refCount : ℕ
  /-- `open_count` of the inode. -/
  openCount : ℕ
  /-- Whether `sem` is held. -/
  locked : Bool

/-- `struct sfs_fs`, with the device it is mounted on. The hash list is a map
from inode numbers, since `lookup_sfs_nolock` finds inodes by number only. -/
structure Fs where
  /-- `super.blocks`. -/
  blocks : ℕ
  /-- `super.unused_blocks`. -/
  unusedBlocks : ℕ
  /-- `super_dirty`. -/
  superDirty : Bool
  /-- The free map: a set bit is a free block. -/
  freemap : ℕ → Bool
  /-- The blocks of the device. -/
  disk : ℕ → Bytes
  /-- The in-memory inodes. -/
  inodes : ℕ → Option SfsInode

/-- Code that runs on a mounted volume. -/
abbrev K := Kern Err Fs

/-- `sfs_freemap_bits`. -/
def Fs.freemapBits (s : Fs) : ℕ := (s.blocks + (blkBits - 1)) / blkBits * blkBits

/-- `sfs_freemap_blocks`. -/
def Fs.freemapBlocks (s : Fs) : ℕ := (s.blocks + (blkBits - 1)) / blkBits

/-- Replace the contents of a block. -/
def Fs.setBlock (s : Fs) (blkno : ℕ) (b : Bytes) : Fs :=
  { s with disk := update s.disk blkno b }

/-- Replace an in-memory inode, or drop it. -/
def Fs.setInode (s : Fs) (ino : ℕ) (sin : Option SfsInode) : Fs :=
  { s with inodes := update s.inodes ino sin }

theorem Fs.setInode_self (s : Fs) (ino : ℕ) (sin : Option SfsInode) :
    (s.setInode ino sin).inodes ino = sin := update_self _ _ _

theorem Fs.setInode_setInode (s : Fs) (x : ℕ) (o o' : Option SfsInode) :
    (s.setInode x o).setInode x o' = s.setInode x o' := by
  simp only [Fs.setInode, update_idem]

theorem Fs.setInode_of_ne (s : Fs) {ino ino' : ℕ} (h : ino' ≠ ino) (sin : Option SfsInode) :
    (s.setInode ino sin).inodes ino' = s.inodes ino' := update_of_ne h _ _

/-- Follow a pointer to an in-memory inode. -/
def getSin (ino : ℕ) : K SfsInode := fun s =>
  match s.inodes ino with
  | some sin => .done sin s
  | none => .halt .assertion

/-- Store through a pointer to an in-memory inode. -/
def modifySin (ino : ℕ) (f : SfsInode → SfsInode) : K Unit :=
  modify fun s => s.setInode ino ((s.inodes ino).map f)

/-- Store in the copied disk inode. -/
def modifyDin (ino : ℕ) (f : DiskInode → DiskInode) : K Unit :=
  modifySin ino fun sin => { sin with din := f sin.din }

/-- `sin->dirty = 1`. -/
def setDirty (ino : ℕ) : K Unit := modifySin ino fun sin => { sin with dirty := true }

/-- `kmalloc` of a buffer. -/
def kmalloc (φ : Faults) : K Unit := if φ.hit then throw .noMem else pure ()

/-! ## Transfers: `sfs_io.c` -/

/-- `sfs_rwblock_nolock` for a read, with `check` set. -/
def sfsReadBlockNolock (φ : Faults) (blkno : ℕ) : K Bytes := do
  let blocks ← gets Fs.blocks
  assert (blkno ≠ 0 ∧ blkno < blocks)
  if φ.hit then throw .io else gets fun s => s.disk blkno

/-- `sfs_rwblock_nolock` for a write, with `check` set. -/
def sfsWriteBlockNolock (φ : Faults) (blkno : ℕ) (b : Bytes) : K Unit := do
  let blocks ← gets Fs.blocks
  assert (blkno ≠ 0 ∧ blkno < blocks)
  if φ.hit then throw .io else modify fun s => s.setBlock blkno b

/-- `sfs_rblock`: read `nblks` whole blocks. -/
def sfsRblock (φ : Faults) (blkno : ℕ) : ℕ → K (List UInt8)
  | 0 => pure []
  | nblks + 1 => do
    let b ← sfsReadBlockNolock (φ.at .rd) blkno
    let rest ← sfsRblock (φ.at (.turn 1)) (blkno + 1) nblks
    return b.read 0 blkSize ++ rest

/-- `sfs_wblock`: write `nblks` whole blocks. -/
def sfsWblock (φ : Faults) (data : List UInt8) (blkno : ℕ) : ℕ → K Unit
  | 0 => pure ()
  | nblks + 1 => do
    sfsWriteBlockNolock (φ.at .wr) blkno (Bytes.zero.write 0 (data.take blkSize))
    sfsWblock (φ.at (.turn 1)) (data.drop blkSize) (blkno + 1) nblks

/-- `sfs_rbuf`: read part of a block. -/
def sfsRbuf (φ : Faults) (len blkno offset : ℕ) : K (List UInt8) := do
  assert (offset < blkSize ∧ offset + len ≤ blkSize)
  let b ← sfsReadBlockNolock (φ.at .rd) blkno
  return b.read offset len

/-- `sfs_wbuf`: replace part of a block. -/
def sfsWbuf (φ : Faults) (data : List UInt8) (blkno offset : ℕ) : K Unit := do
  assert (offset < blkSize ∧ offset + data.length ≤ blkSize)
  let b ← sfsReadBlockNolock (φ.at .rd) blkno
  sfsWriteBlockNolock (φ.at .wr) blkno (b.write offset data)

/-- `sfs_clear_block`: write zeros to `nblks` blocks. -/
def sfsClearBlock (φ : Faults) (blkno : ℕ) : ℕ → K Unit
  | 0 => pure ()
  | nblks + 1 => do
    sfsWriteBlockNolock (φ.at .clear) blkno Bytes.zero
    sfsClearBlock (φ.at (.turn 1)) (blkno + 1) nblks

/-! ## The free map: `bitmap.c` -/

/-- The first set bit among the `n` bits from `i` on. -/
def firstSet (map : ℕ → Bool) : ℕ → ℕ → Option ℕ
  | 0, _ => none
  | n + 1, i => if map i then some i else firstSet map n (i + 1)

/-- The scan of `bitmap_alloc`: take the first set bit, the words and the bits of a
word being scanned upwards. -/
def bitmapScan (nbits : ℕ) : K ℕ := fun s =>
  match firstSet s.freemap nbits 0 with
  | some i => .done i { s with freemap := update s.freemap i false }
  | none => .fail .noMem s

/-- `bitmap_alloc`. -/
def bitmapAlloc : K ℕ := do
  let nbits ← gets Fs.freemapBits
  bitmapScan nbits

/-- `bitmap_test`. -/
def bitmapTest (i : ℕ) : K Bool := do
  let nbits ← gets Fs.freemapBits
  assert (i < nbits)
  gets fun s => s.freemap i

/-- `bitmap_free`. -/
def bitmapFree (i : ℕ) : K Unit := do
  let used ← bitmapTest i
  assert (used = false)
  modify fun s => { s with freemap := update s.freemap i true }

/-! ## The block allocator: `sfs_inode.c` -/

/-- `sfs_block_inuse`; it panics outside the volume. -/
def sfsBlockInuse (ino : ℕ) : K Bool := do
  let blocks ← gets Fs.blocks
  if ino ≠ 0 ∧ ino < blocks then
    let free ← bitmapTest ino
    return !free
  else stop .assertion

/-- `assert(sfs_block_inuse(sfs, ino))`. -/
def assertInuse (ino : ℕ) : K Unit := do
  let used ← sfsBlockInuse ino
  assert (used = true)

/-- `sfs_block_alloc`. A failed clearing write is returned with the block still
marked in the free map. -/
def sfsBlockAlloc (φ : Faults) : K ℕ := do
  let ino ← bitmapAlloc
  let unused ← gets Fs.unusedBlocks
  assert (0 < unused)
  modify fun s => { s with unusedBlocks := s.unusedBlocks - 1, superDirty := true }
  assertInuse ino
  sfsClearBlock φ ino 1
  return ino

/-- `sfs_block_free`. -/
def sfsBlockFree (ino : ℕ) : K Unit := do
  assertInuse ino
  bitmapFree ino
  modify fun s => { s with unusedBlocks := s.unusedBlocks + 1, superDirty := true }

end Ucore.Sfs
