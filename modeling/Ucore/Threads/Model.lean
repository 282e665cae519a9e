import Mathlib.Algebra.Group.Nat.Defs
import Mathlib.Data.List.Basic

/-!
# Threads on one file system

The calls of several threads on one mounted SFS, taken apart at the semaphores. A call is
a program over the state that the threads share: the semaphores, the inodes in memory with
their two counters, and the links between the disk inodes. What the source reads elsewhere
(names, file contents, the success of a transfer or of `kmalloc`) is a choice. A thread can
be interrupted between any two operations, hence at every `down`.
-/

namespace Ucore.Threads

open Function

/-- The semaphores of a file system. -/
inductive Lock
  /-- `mutex_sem`. -/
  | mutex
  /-- `sem` of the inode in memory at `n`. -/
  | sem (n : ℕ)
  /-- `fs_sem`. -/
  | fs
  /-- `io_sem`. -/
  | io
  deriving DecidableEq

/-- An inode in memory: `struct inode` with its `struct sfs_inode`. -/
structure Node where
  /-- The block of the disk inode. -/
  ino : ℕ
  refCount : ℕ
  reclaimCount : ℕ
  /-- The node is in the hash list and in the inode list. -/
  hashed : Bool
  deriving DecidableEq

/-- A disk inode, as far as links go. -/
structure Inode where
  /-- The type is `SFS_TYPE_DIR`. -/
  isDir : Bool
  nlinks : ℕ
  /-- The inode numbers in the used slots of a directory. -/
  entries : List ℕ
  /-- `dirinfo.parent`. -/
  parent : ℕ
  /-- The link `.` of the directory is counted in its `nlinks`. No branch reads this. -/
  dot : Bool
  /-- The link `..` of the directory is counted in its parent. No branch reads this. -/
  dotDot : Bool
  deriving DecidableEq

/-- What follows the write of a directory entry, up to the next `down`. -/
inductive Edit
  /-- `sfs_dirent_link_nolock`. -/
  | link
  /-- `sfs_dirent_link_nolock`, and the links `.` and `..` of a new directory. -/
  | mkdir
  /-- `sfs_dirent_link_nolock` at the new place of a renamed directory, with its `..`. -/
  | moveIn
  /-- `sfs_dirent_link_nolock_check` at the old place, with the `..`. -/
  | moveBack
  /-- `sfs_dirent_unlink_nolock`. -/
  | unlink
  /-- `sfs_dirent_unlink_nolock`, and the links `.` and `..` of a removed directory. -/
  | rmdir
  /-- `sfs_dirent_unlink_nolock` of a directory that is renamed, with its `..`. -/
  | moveOut
  deriving DecidableEq

/-- A program: an operation on the shared state, and how the call goes on. -/
inductive Prog
  /-- The call returns. -/
  | ret
  /-- A branch on data that is not part of the state. -/
  | choose (k : ℕ → Prog)
  | down (l : Lock) (k : Prog)
  | up (l : Lock) (k : Prog)
  /-- The flag `SFS_removed`. -/
  | isRemoved (n : ℕ) (k : Bool → Prog)
  /-- `lookup_sfs_nolock`. -/
  | lookup (ino : ℕ) (k : Option ℕ → Prog)
  /-- `sfs_create_inode` and `sfs_set_links`, in `sfs_load_inode`. -/
  | install (ino : ℕ) (k : ℕ → Prog)
  /-- `sfs_block_alloc` and `sfs_create_inode`, in `sfs_dirent_create_inode`. -/
  | alloc (isDir : Bool) (k : ℕ → Prog)
  /-- `sfs_set_links`, in `sfs_dirent_create_inode`. -/
  | setLinks (n : ℕ) (k : Prog)
  /-- `sfs_remove_links`, and whether the inode has no link left. -/
  | removeLinks (n : ℕ) (k : Bool → Prog)
  /-- `sfs_block_free` of the inode block. -/
  | freeIno (n : ℕ) (k : Prog)
  /-- `vop_kill`. -/
  | kill (n : ℕ) (k : Prog)
  /-- `vop_ref_inc`. -/
  | refInc (n : ℕ) (k : Prog)
  /-- The decrement in `inode_ref_dec`, and whether it reaches zero. -/
  | refDec (n : ℕ) (k : Bool → Prog)
  /-- The decrement of `reclaim_count`, and whether it reaches zero. -/
  | reclaimDec (n : ℕ) (k : Bool → Prog)
  /-- The next inode of the inode list. -/
  | listNext (k : ℕ → Prog)
  /-- `sfs_dirent_search_nolock`. -/
  | search (n : ℕ) (k : Option ℕ → Prog)
  /-- Whether the type is `SFS_TYPE_DIR`. -/
  | isDir (n : ℕ) (k : Bool → Prog)
  /-- Whether `dirinfo.slots` is zero. -/
  | isEmpty (n : ℕ) (k : Bool → Prog)
  /-- `dirinfo.parent`. -/
  | getParent (n : ℕ) (k : ℕ → Prog)
  /-- A change of the entry for `m` in the directory `n`. -/
  | edit (e : Edit) (n m : ℕ) (k : Prog)

/-! ## The links of the disk inodes -/

/-- The disk inodes in use, by their blocks. -/
abbrev Links := ℕ → Option Inode

def Links.modify (f : Links) (x : ℕ) (g : Inode → Inode) : Links :=
  update f x ((f x).map g)

/-- `sfs_nlinks_inc_nolock`, on sixteen bits. -/
def Links.inc (f : Links) (x : ℕ) : Links :=
  f.modify x fun i => { i with nlinks := (i.nlinks + 1) % 2 ^ 16 }

/-- `sfs_nlinks_dec_nolock`, with its assertion. -/
def Links.dec (f : Links) (x : ℕ) : Option Links :=
  match f x with
  | some i =>
    if i.nlinks = 0 then none else some (f.modify x fun i => { i with nlinks := i.nlinks - 1 })
  | none => none

/-- `sfs_dirent_link_nolock` of `x` in the directory `d`. -/
def Links.link (f : Links) (d x : ℕ) : Links :=
  (f.modify d fun i => { i with entries := x :: i.entries }).inc x

/-- `sfs_dirent_unlink_nolock` of `x` in the directory `d`. -/
def Links.unlink (f : Links) (d x : ℕ) : Option Links :=
  (f.modify d fun i => { i with entries := i.entries.erase x }).dec x

/-- One change of a directory entry, or `none` where an assertion fails. -/
def Edit.apply (f : Links) (d x : ℕ) : Edit → Option Links
  | .link => some (f.link d x)
  | .mkdir => some ((((f.link d x).modify x fun i =>
      { i with parent := d, dot := true, dotDot := true }).inc x).inc d)
  | .moveIn => some (((f.link d x).inc d).modify x fun i =>
      { i with parent := d, dotDot := true })
  | .moveBack => some (((f.link d x).inc d).modify x fun i => { i with dotDot := true })
  | .unlink => f.unlink d x
  | .rmdir => do
      let f ← f.unlink d x
      let f ← f.dec x
      (f.modify x fun i => { i with dot := false, dotDot := false }).dec d
  | .moveOut => do
      let f ← f.unlink d x
      (f.modify x fun i => { i with dotDot := false }).dec d

/-! ## The shared state -/

/-- How far a thread is in the life of an inode in memory. No branch reads this. -/
inductive Task
  | none
  /-- The reference count of `n` has reached zero, and `sfs_reclaim` has been called. -/
  | pending (n : ℕ)
  /-- The reclaim has brought `reclaim_count` of `n` to zero. -/
  | reclaiming (n : ℕ)
  /-- The reclaim has taken `n` off the lists. -/
  | killing (n : ℕ)
  /-- `lookup_sfs_nolock` has found no node for `ino`. -/
  | absent (ino : ℕ)
  /-- The node `n` of a new inode is not yet on the lists. -/
  | making (n : ℕ)
  deriving DecidableEq

/-- A call on nodes that the thread refers to, or on the whole file system. -/
inductive Call
  /-- `sfs_load_inode`, from `sfs_get_root`. -/
  | load (ino : ℕ)
  | refInc (n : ℕ)
  | refDec (n : ℕ)
  /-- `sfs_read`, `sfs_write` or `sfs_truncfile`. -/
  | readWrite (n : ℕ)
  | fsync (n : ℕ)
  /-- `sfs_lookup` or `sfs_lookup_parent`, of so many components. -/
  | lookup (n : ℕ) (components : ℕ)
  /-- `sfs_namefile`, through so many parents. -/
  | namefile (n : ℕ) (parents : ℕ)
  | getdirentry (n : ℕ)
  | create (n : ℕ)
  | mkdir (n : ℕ)
  | link (n m : ℕ)
  | unlink (n : ℕ)
  | rename (n m : ℕ)
  | sync
  deriving DecidableEq

/-- The nodes that a call is given. -/
def Call.nodes : Call → List ℕ
  | load _ | sync => []
  | refInc n | refDec n | readWrite n | fsync n | lookup n _ | namefile n _ | getdirentry n
  | create n | mkdir n | unlink n => [n]
  | link n m | rename n m => [n, m]

/-- A file system with the threads `T` on it. -/
structure Sys (T : Type) where
  /-- The inodes in memory. -/
  node : ℕ → Option Node
  /-- The flag `SFS_removed` of each. -/
  removed : ℕ → Bool
  /-- The place of the next inode in memory. -/
  next : ℕ
  /-- `super.blocks`. -/
  blocks : ℕ
  /-- The disk inodes in use. -/
  links : Links
  /-- The thread that is past its `down`, for each semaphore. -/
  owner : Lock → Option T
  /-- The references that a thread holds. -/
  held : T → ℕ → ℕ
  task : T → Task
  /-- The last call of a thread. -/
  call : T → Call
  /-- What is left of it. -/
  prog : T → Prog

variable {T : Type} [DecidableEq T]

/-- The disk inode of a node in memory. -/
def Sys.inodeAt (s : Sys T) (n : ℕ) : Inode :=
  ((s.node n).bind fun nd => s.links nd.ino).getD ⟨false, 0, [], 0, false, false⟩

/-- The first node of the hash list for `ino`. -/
def Sys.find (s : Sys T) (ino : ℕ) : Option ℕ :=
  (List.range s.next).find? fun n =>
    match s.node n with
    | some nd => nd.hashed && nd.ino == ino
    | none => false

/-- A reference taken by `lookup_sfs_nolock`. -/
def Node.referenced (nd : Node) : Node :=
  { nd with
    refCount := nd.refCount + 1
    reclaimCount := nd.reclaimCount + if nd.refCount = 0 then 1 else 0 }

def Sys.goto (s : Sys T) (t : T) (p : Prog) : Sys T :=
  { s with prog := update s.prog t p }

def Sys.setTask (s : Sys T) (t : T) (k : Task) : Sys T :=
  { s with task := update s.task t k }

def Sys.setNode (s : Sys T) (n : ℕ) (nd : Option Node) : Sys T :=
  { s with node := update s.node n nd }

def Sys.setOwner (s : Sys T) (l : Lock) (t : Option T) : Sys T :=
  { s with owner := update s.owner l t }

/-- The thread `t` now holds `c` references to `n`. -/
def Sys.setHeld (s : Sys T) (t : T) (n c : ℕ) : Sys T :=
  { s with held := update s.held t (update (s.held t) n c) }

/-- A new node, with the reference of `vop_init`. -/
def Sys.addNode (s : Sys T) (t : T) (ino : ℕ) (hashed : Bool) : Sys T :=
  { s.setNode s.next (some ⟨ino, 1, 1, hashed⟩) with
    removed := update s.removed s.next false
    next := s.next + 1 }.setHeld t s.next 1

/-- What is left of a task once `fs_sem` is released. -/
def Task.unlocked : Task → Task
  | reclaiming _ | absent _ => none
  | task => task

/-- The next operation of `t`, with the choice `c`. There is none while its semaphore is
taken, and none behind a failed assertion. -/
def Sys.step (s : Sys T) (t : T) (c : ℕ) : Option (Sys T) :=
  match s.prog t with
  | .ret => none
  | .choose k => some (s.goto t (k c))
  | .down l k => if s.owner l = none then some ((s.setOwner l (some t)).goto t k) else none
  | .up l k => some
      (((s.setOwner l none).setTask t (if l = .fs then (s.task t).unlocked else s.task t)).goto t k)
  | .isRemoved n k => some (s.goto t (k (s.removed n)))
  | .lookup ino k =>
      match s.find ino with
      | none => some ((s.setTask t (.absent ino)).goto t (k none))
      | some n => (s.node n).map fun nd =>
          ((s.setNode n (some nd.referenced)).setHeld t n (s.held t n + 1)).goto t (k (some n))
  | .install ino k => some (((s.addNode t ino true).setTask t .none).goto t (k s.next))
  | .alloc isDir k =>
      if c ≠ 0 ∧ c < s.blocks ∧ s.links c = none then
        some (({ s.addNode t c false with
          links := update s.links c (some ⟨isDir, 0, [], 0, false, false⟩)
          }.setTask t (.making s.next)).goto t (k s.next))
      else none
  | .setLinks n k => (s.node n).map fun nd =>
      ((s.setNode n (some { nd with hashed := true })).setTask t .none).goto t k
  | .removeLinks n k => (s.node n).map fun nd =>
      ((s.setNode n (some { nd with hashed := false })).setTask t (.killing n)).goto t
        (k ((s.inodeAt n).nlinks = 0))
  | .freeIno n k => (s.node n).map fun nd =>
      { s with links := update s.links nd.ino none }.goto t k
  | .kill n k => (s.node n).map fun _ => ((s.setNode n none).setTask t .none).goto t k
  | .refInc n k => (s.node n).map fun nd =>
      ((s.setNode n (some { nd with refCount := nd.refCount + 1 })).setHeld t n
        (s.held t n + 1)).goto t k
  | .refDec n k => (s.node n).bind fun nd =>
      if nd.refCount = 0 then none
      else some ((((s.setNode n (some { nd with refCount := nd.refCount - 1 })).setHeld t n
          (s.held t n - 1)).setTask t (if nd.refCount = 1 then .pending n else s.task t)).goto t
          (k (nd.refCount = 1)))
  | .reclaimDec n k => (s.node n).bind fun nd =>
      if nd.reclaimCount = 0 then none
      else some (((s.setNode n (some { nd with reclaimCount := nd.reclaimCount - 1 })).setTask t
          (if nd.reclaimCount = 1 then .reclaiming n else .none)).goto t
          (k (nd.reclaimCount = 1)))
  | .listNext k => (s.node c).bind fun nd => if nd.hashed then some (s.goto t (k c)) else none
  | .search n k => some (s.goto t (k (if c = 0 then none else (s.inodeAt n).entries[c - 1]?)))
  | .isDir n k => some (s.goto t (k (s.inodeAt n).isDir))
  | .isEmpty n k => some (s.goto t (k (s.inodeAt n).entries.isEmpty))
  | .getParent n k => some (s.goto t (k (s.inodeAt n).parent))
  | .edit e n m k => (s.node n).bind fun nd => (s.node m).bind fun md =>
      (e.apply s.links nd.ino md.ino).map fun links =>
        { s with
          links := links
          removed := update s.removed m (s.removed m || decide (e = Edit.rmdir))
          }.goto t k

end Ucore.Threads
