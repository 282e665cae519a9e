import Ucore.Lib.Runs
import Ucore.Vm.Space
import Ucore.Vm.Tables

/-!
# Address spaces of processes

The parts of `proc.c` that make, copy and end address spaces, and the calls on them, for any
number of address spaces. A page directory takes a run of pages of its own. A new `mm_struct`
gets a number that has no areas and no tables; what `mm_struct` and `shmem_struct` themselves
take from `kmalloc` is not modelled, except that `shmem_create` may get nothing.
-/

namespace Ucore.Vm

open Kern Function

/-- Address spaces, and the pages of their directories. -/
structure Sys where
  spaces : Spaces
  /-- The runs of eight pages that hold page directories. -/
  runs : Heap ℕ
  /-- `pgdir_alloc_addr`. -/
  pgdirAlloc : ℕ → Option ℕ

/-- Code on all address spaces. -/
abbrev SysM := Kern Err Sys

def onSpaces {α : Type} (c : SpacesM α) : SysM α :=
  zoom Sys.spaces (fun v k => { k with spaces := v }) c

/-- The return code of a call is looked at; a call that does not return has none. -/
def orUndo {α : Type} (c : SysM α) (undo : SysM Unit) : SysM α := do
  match ← c.attempt with
  | .ok a => return a
  | .error .nullAccess => throw .nullAccess
  | .error e => do
    undo
    throw e

/-! ## Making and ending address spaces -/

/-- `mm_create`. -/
def mmCreate (d : ℕ) : SpacesM Unit :=
  onMm d (modify fun m => { m with
    mmapList := [], mmapTree := none, mmapCache := none, mapCount := 0, mmCount := 0 })

/-- `setup_pgdir`. The user part of the directory that is copied is empty. -/
def setupPgdir (d : ℕ) : SysM Unit := do
  match ← zoom Sys.runs (fun h k => { k with runs := h }) Heap.alloc with
  | none => throw .noMem
  | some a => do
    modify fun k => { k with pgdirAlloc := update k.pgdirAlloc d (some a) }
    onSpaces (onMem (modify fun s =>
      { s with pgdir := update s.pgdir d fun _ => none }))

/-- `put_pgdir`. -/
def putPgdir (d : ℕ) : SysM Unit := do
  match ← gets fun k => k.pgdirAlloc d with
  | none => stop .assertion
  | some a => do
    zoom Sys.runs (fun h k => { k with runs := h }) (Heap.free a)
    modify fun k => { k with pgdirAlloc := update k.pgdirAlloc d none }

/-- `mm_count_inc`. -/
def mmCountInc (d : ℕ) : SpacesM Unit :=
  onMm d (modify fun m => { m with mmCount := m.mmCount + 1 })

/-- `mm_count_dec`. -/
def mmCountDec (d : ℕ) : SpacesM ℤ := do
  onMm d (modify fun m => { m with mmCount := m.mmCount - 1 })
  gets fun v => (v.mm d).mmCount

/-- What is done with an address space that nobody counts. -/
def endMm (d : ℕ) : SysM Unit := do
  onSpaces (exitMmap d)
  putPgdir d
  onSpaces (mmDestroy d)

/-- The part of `do_exit` and `do_execve` that gives up the address space of a process. -/
def exitMm (d : ℕ) : SysM Unit := do
  let n ← onSpaces (mmCountDec d)
  if n = 0 then endMm d

/-- The new address space of `load_icode`, before it has any areas. -/
def newMm (d : ℕ) : SysM Unit := do
  onSpaces (mmCreate d)
  orUndo (setupPgdir d) (onSpaces (mmDestroy d))
  onSpaces (mmCountInc d)

/-- `copy_mm` without `CLONE_VM`. -/
def copyMm (dst src : ℕ) : SysM Unit := do
  onSpaces (mmCreate dst)
  orUndo (setupPgdir dst) (onSpaces (mmDestroy dst))
  orUndo (onSpaces (dupMmap dst src)) (endMm dst)
  onSpaces (mmCountInc dst)

/-! ## Shared memory for a process -/

/-- The loop of `get_unmapped_area`, over the list from its end. -/
def unmappedFrom (m : Mm) (len : ℕ) : ℕ → List ℕ → ℕ
  | start, [] => if userBase ≤ start then start else 0
  | start, x :: rest =>
    if (m.vma x).vmEnd ≤ start then start
    else if (m.vma x).vmStart < start + len then
      if (m.vma x).vmStart ≤ len then 0 else unmappedFrom m len ((m.vma x).vmStart - len) rest
    else unmappedFrom m len start rest

/-- `get_unmapped_area`. -/
def getUnmappedArea (m : Mm) (len : ℕ) : ℕ :=
  if len = 0 ∨ userTop < len then 0 else unmappedFrom m len (userTop - len) m.mmapList.reverse

/-- The size that `do_mmap` and `do_shmem` compute. -/
def reqSize (addr len : ℕ) : ℕ := (reqEnd addr len + 2 ^ 32 - roundDown addr pgSize) % 2 ^ 32

/-- The address at which they map, and that they store for the user; 0 if there is none. -/
def Mm.reqPlace (m : Mm) (addr len : ℕ) : ℕ :=
  if roundDown addr pgSize = 0 then getUnmappedArea m (reqSize addr len) else roundDown addr pgSize

/-- The flags of the area that `do_mmap` and `do_shmem` map. -/
def shmemFlags (write stack : Bool) : Flags :=
  vmRead ||| (if write then vmWrite else 0) ||| (if stack then vmStack else 0)

/-- `do_shmem` for the address that it has read from the user; `new` is the structure that
`shmem_create` gets from `kmalloc`. -/
def doShmem (d addr len : ℕ) (write stack : Bool) (new : Option ℕ) : SysM Unit :=
  if len = 0 then throw .inval
  else do
    let start := roundDown addr pgSize
    let size := (reqEnd addr len + 2 ^ 32 - start) % 2 ^ 32
    let k ← get
    let place := if start = 0 then getUnmappedArea (k.spaces.mm d) size else start
    match new.filter fun _ => place ≠ 0 with
    | none => throw .noMem
    | some m => do
      onSpaces (onMem (shmemCreate m size))
      orUndo (onSpaces (mmMapShmem d place (shmemFlags write stack) (some m))) do
        let k ← get
        assert ((k.spaces.mem.shmem m).ref = 0)
        onSpaces (onMem (shmemDestroy m))

/-! ## The calls -/

inductive Call where
  /-- A process gets a new address space. -/
  | create (d : ℕ)
  /-- `copy_mm` with `CLONE_VM`, and without. -/
  | clone (d : ℕ)
  | fork (dst src : ℕ)
  /-- A process gives up its address space. -/
  | exit (d : ℕ)
  | map (d addr len : ℕ) (vmFlags : Flags)
  | mapShmem (d addr : ℕ) (vmFlags : Flags) (m : Option ℕ)
  | doShmem (d addr len : ℕ) (write stack : Bool) (new : Option ℕ)
  | unmap (d addr len : ℕ)
  | brk (d addr len : ℕ)
  | find (d addr : ℕ)
  | fault (d : ℕ) (e : FaultCode) (addr : ℕ)

namespace Call

/-- The code of a call. -/
def code : Call → SysM Unit
  | create d => newMm d
  | clone d => onSpaces (mmCountInc d)
  | fork dst src => copyMm dst src
  | exit d => exitMm d
  | map d addr len vmFlags => onSpaces (onMm d (mmMap addr len vmFlags) >>= fun _ => pure ())
  | mapShmem d addr vmFlags m => onSpaces (mmMapShmem d addr vmFlags m)
  | doShmem d addr len write stack new => Vm.doShmem d addr len write stack new
  | unmap d addr len => onSpaces (mmUnmap d addr len)
  | brk d addr len => onSpaces (mmBrk d addr len)
  | find d addr => onSpaces (onMm d (findVma addr) >>= fun _ => pure ())
  | fault d e addr => onSpaces (doPgfault d e addr)

end Call

/-- A number for a new address space. -/
structure Sys.Unused (k : Sys) (d : ℕ) : Prop where
  count : (k.spaces.mm d).mmCount = 0
  tables : ∀ i, k.spaces.mem.pgdir d i = none

/-- A process has the address space. -/
def Sys.Used (k : Sys) (d : ℕ) : Prop := 0 < (k.spaces.mm d).mmCount

/-- A call is made on an address space that is in use, with a shared memory that exists, and a
new structure was not in use before. -/
def Call.Enabled (k : Sys) : Call → Prop
  | create d => k.Unused d
  | clone d => k.Used d
  | fork dst src => dst ≠ src ∧ k.Unused dst ∧ k.Used src
  | exit d => k.Used d
  | map d _ _ _ => k.Used d
  | mapShmem d _ _ m => k.Used d ∧ ∀ i ∈ m, (k.spaces.mem.shmem i).len ≠ 0
  | doShmem d _ _ _ _ new => k.Used d ∧ ∀ i ∈ new, k.spaces.mem.shmem i = ⟨[], none, 0, 0⟩
  | unmap d _ _ => k.Used d
  | brk d _ _ => k.Used d
  | find d _ => k.Used d
  | fault d _ _ => k.Used d

/-- One call that returns, with 0 or with an error. -/
def SysStep (k : Sys) (c : Call) (k' : Sys) : Prop :=
  c.Enabled k ∧ (c.code k = .done () k' ∨ ∃ e, e ≠ .nullAccess ∧ c.code k = .fail e k')

/-- No process has an address space, and there are no shared memories. -/
structure Sys.Boot (k : Sys) : Prop where
  mem : k.spaces.mem.Fresh
  shmem : ∀ m, k.spaces.mem.shmem m = ⟨[], none, 0, 0⟩
  mm : ∀ d, (k.spaces.mm d).mmapList = [] ∧ (k.spaces.mm d).mmapTree = none ∧
    (k.spaces.mm d).mmapCache = none ∧ (k.spaces.mm d).mapCount = 0 ∧
    (k.spaces.mm d).mmCount = 0 ∧ (k.spaces.mm d).heap.live = []
  runs : k.runs.live = [] ∧ ∀ d, k.pgdirAlloc d = none

end Ucore.Vm
