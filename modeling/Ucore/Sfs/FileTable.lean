import Ucore.Sfs.FileIo

/-!
# The open files of a process

The table of open files of `file.c`, with a position for each, over one volume.
`vfs_open` is modelled from the inode that the lookup of its path returns.
-/

namespace Ucore.Sfs

open Kern

/-- `file->status`. -/
inductive FdStatus where
  | none | init | opened | closed
  deriving DecidableEq, Repr

/-- `struct file`; the node is an inode number, zero for `NULL`. -/
structure File where
  status : FdStatus
  readable : Bool
  writable : Bool
  pos : ℤ
  node : ℕ
  openCount : ℕ
  deriving DecidableEq, Repr

/-- A process with its `FS_STRUCT_NENTRY` files, and the volume. -/
structure Proc where
  fs : Fs
  nentry : ℕ
  filemap : ℕ → File

/-- Code of `file.c`. -/
abbrev F := Kern Err Proc

/-- Code of the volume. -/
def onFs {α : Type} (m : K α) : F α := m.zoom Proc.fs fun s p => { p with fs := s }

/-- Change one file of the table. -/
def Proc.setFile (p : Proc) (fd : ℕ) (f : File) : Proc :=
  { p with filemap := Function.update p.filemap fd f }

/-- Update one file of the table. -/
def modifyFile (fd : ℕ) (g : File → File) : F Unit :=
  modify fun p => p.setFile fd (g (p.filemap fd))

/-- `open_flags & O_ACCMODE`. -/
inductive AccMode where
  | rdonly | wronly | rdwr | other
  deriving DecidableEq, Repr

/-- `open_flags`. -/
structure OpenFlags where
  mode : AccMode
  creat : Bool
  excl : Bool
  trunc : Bool
  append : Bool

/-- `inode_open_inc`. -/
def vopOpenInc (ino : ℕ) : K Unit :=
  modifySin ino fun sin => { sin with openCount := sin.openCount + 1 }

/-- `inode_open_dec`: the last one calls `sfs_close`, whose error code is only printed. -/
def vopOpenDec (φ : Faults) (ino : ℕ) : K Unit := do
  let sin ← getSin ino
  assert (0 < sin.openCount)
  modifySin ino fun sin => { sin with openCount := sin.openCount - 1 }
  if sin.openCount - 1 = 0 then (sfsFsync φ ino).ignore

/-- `vfs_close`. -/
def vfsClose (φ : Faults) (ino : ℕ) : K Unit := do
  vopOpenDec (φ.at .fsync) ino
  vopRefDec (φ.at .drop) ino

/-- `vfs_open` of a path that names the regular file `ino`. -/
def vfsOpen (φ : Faults) (ino : ℕ) (flags : OpenFlags) : K Unit := do
  if flags.mode = .other then throw .inval
  else if flags.trunc = true ∧ flags.mode = .rdonly then throw .inval
  else if flags.creat = true ∧ flags.excl = true then throw .exists
  else
    sfsLoadInode (φ.at .inode) ino
    vopOpenInc ino
    if flags.trunc = true then
      (sfsTruncfile (φ.at .write) ino 0).onError do
        vopOpenDec (φ.at .fsync) ino
        vopRefDec (φ.at .drop) ino

/-- The first free entry of the table from `fd` on, among the next `n`. -/
def findFree (p : Proc) : ℕ → ℕ → Option ℕ
  | 0, _ => none
  | n + 1, fd => if (p.filemap fd).status = .none then some fd else findFree p n (fd + 1)

/-- `filemap_alloc` with `NO_FD`. -/
def filemapAlloc : F ℕ := do
  let found ← gets fun p => findFree p p.nentry 0
  match found with
  | none => throw .maxOpen
  | some fd => do
    let p ← get
    assert ((p.filemap fd).openCount = 0)
    modifyFile fd fun f => { f with status := .init, node := 0 }
    return fd

/-- `filemap_free`. -/
def filemapFree (φ : Faults) (fd : ℕ) : F Unit := do
  let p ← get
  assert ((p.filemap fd).status = .init ∨ (p.filemap fd).status = .closed)
  assert ((p.filemap fd).openCount = 0)
  if (p.filemap fd).status = .closed then onFs (vfsClose φ (p.filemap fd).node)
  modifyFile fd fun f => { f with status := .none }

/-- `filemap_acquire`. -/
def filemapAcquire (fd : ℕ) : F Unit := do
  let p ← get
  assert ((p.filemap fd).status = .opened)
  modifyFile fd fun f => { f with openCount := f.openCount + 1 }

/-- `filemap_release`. -/
def filemapRelease (φ : Faults) (fd : ℕ) : F Unit := do
  let p ← get
  assert ((p.filemap fd).status = .opened ∨ (p.filemap fd).status = .closed)
  assert (0 < (p.filemap fd).openCount)
  modifyFile fd fun f => { f with openCount := f.openCount - 1 }
  if (p.filemap fd).openCount - 1 = 0 then filemapFree φ fd

/-- `filemap_open`. -/
def filemapOpen (fd : ℕ) : F Unit := do
  let p ← get
  assert ((p.filemap fd).status = .init ∧ (p.filemap fd).node ≠ 0)
  modifyFile fd fun f => { f with status := .opened, openCount := f.openCount + 1 }

/-- `fd2file`: the entry of an open descriptor. -/
def fd2file (fd : ℤ) : F ℕ := do
  let p ← get
  if 0 ≤ fd ∧ fd < p.nentry ∧ (p.filemap fd.toNat).status = .opened then return fd.toNat
  else throw .inval

/-- `file_open` of a path that names the regular file `ino`. -/
def fileOpen (φ : Faults) (ino : ℕ) (flags : OpenFlags) : F ℕ := do
  if flags.mode = .other then throw .inval
  else
    let fd ← filemapAlloc
    (onFs (vfsOpen φ ino flags)).onError (filemapFree φ fd)
    let pos ← if flags.append = true then do
        let sin ← onFs (getSin ino)
        pure (toOff sin.din.size)
      else pure 0
    modifyFile fd fun f =>
      { f with pos, node := ino, readable := flags.mode = .rdonly ∨ flags.mode = .rdwr,
               writable := flags.mode = .wronly ∨ flags.mode = .rdwr }
    filemapOpen fd
    return fd

/-- The common part of `file_read` and `file_write`: `move` transfers at the position of
the file, which then advances by what was moved. -/
def fileMove (φ : Faults) (fd : ℕ) (move : ℕ → ℤ → K (Option Err × List UInt8)) :
    F (Option Err × List UInt8) := do
  filemapAcquire fd
  let p ← get
  let moved ← (onFs (move (p.filemap fd).node (p.filemap fd).pos)).attempt
  let r := match moved with
    | .ok r => r
    | .error e => (some e, [])
  modifyFile fd fun f =>
    if f.status = .opened then { f with pos := toOff (f.pos + r.2.length) } else f
  filemapRelease (φ.at .drop) fd
  return r

/-- `file_read`. -/
def fileRead (φ : Faults) (fd : ℤ) (len : ℕ) : F (Option Err × List UInt8) := do
  let fd ← fd2file fd
  let p ← get
  if (p.filemap fd).readable = false then throw .inval
  else fileMove φ fd fun ino pos => sfsRead (φ.at .rbuf) ino pos len

/-- `file_write`. -/
def fileWrite (φ : Faults) (fd : ℤ) (data : List UInt8) : F (Option Err × List UInt8) := do
  let fd ← fd2file fd
  let p ← get
  if (p.filemap fd).writable = false then throw .inval
  else fileMove φ fd fun ino pos => sfsWrite (φ.at .wbuf) ino pos data

/-- The argument `whence` of `file_seek`. -/
inductive Whence where
  | set | cur | atEnd | other
  deriving DecidableEq, Repr

/-- The position that `file_seek` asks for. -/
def seekTarget (fd : ℕ) (pos : ℤ) : Whence → F ℤ
  | .set => pure pos
  | .cur => do
    let p ← get
    return toOff (pos + (p.filemap fd).pos)
  | .atEnd => do
    let p ← get
    let sin ← onFs (getSin (p.filemap fd).node)
    return toOff (pos + sin.din.size)
  | .other => throw .inval

/-- `file_seek`. -/
def fileSeek (φ : Faults) (fd : ℤ) (pos : ℤ) (whence : Whence) : F Unit := do
  let fd ← fd2file fd
  filemapAcquire fd
  (do
    let target ← seekTarget fd pos whence
    let p ← get
    onFs (sfsTryseek (φ.at .write) (p.filemap fd).node target)
    modifyFile fd fun f => { f with pos := target }).thenRelease (filemapRelease (φ.at .drop) fd)

/-- `vop_truncate` of the inode of an open file. -/
def fileTruncate (φ : Faults) (fd : ℤ) (len : ℤ) : F Unit := do
  let fd ← fd2file fd
  let p ← get
  onFs (sfsTruncfile φ (p.filemap fd).node len)

end Ucore.Sfs
