import Ucore.Vm.Areas

/-!
# Address spaces

The functions of `vmm.c` that change both the areas of an address space and its pages. The
directory of the `mm_struct` with the number `d` has the number `d`.
-/

namespace Ucore.Vm

open Kern

/-- Pages and address spaces. -/
structure Spaces where
  mem : Mem
  mm : ℕ → Mm

/-- Code on address spaces. -/
abbrev SpacesM := Kern Err Spaces

def Spaces.setMem (v : Spaces) (s : Mem) : Spaces := { v with mem := s }

def Spaces.setMm (v : Spaces) (d : ℕ) (m : Mm) : Spaces :=
  { v with mm := Function.update v.mm d m }

def onMem {α : Type} (c : MemM α) : SpacesM α := zoom Spaces.mem (fun s v => v.setMem s) c

def onMm {α : Type} (d : ℕ) (c : MmM α) : SpacesM α :=
  zoom (fun v => v.mm d) (fun m v => v.setMm d m) c

/-! ## References to shared memories -/

/-- `shmem_ref_inc`. -/
def shmemRefInc (m : ℕ) : MemM Unit := modifyShmem m fun x => { x with ref := x.ref + 1 }

/-- `shmem_ref_dec`. -/
def shmemRefDec (m : ℕ) : MemM ℤ := do
  modifyShmem m fun x => { x with ref := x.ref - 1 }
  gets fun s => (s.shmem m).ref

/-- The reference of an area is dropped, and the shared memory with the last one. -/
def shmemPut : Option ℕ → MemM Unit
  | none => throw .nullAccess
  | some m => do
    let n ← shmemRefDec m
    if n = 0 then shmemDestroy m

/-- What `vma_destroy` does with the shared memory of an area. -/
def vmaPut (v : Vma) : MemM Unit := if v.has vmShare then shmemPut v.shmem else return ()

/-- `vma_destroy`. -/
def vmaDestroy (d vma : ℕ) : SpacesM Unit := do
  let v ← get
  onMem (vmaPut ((v.mm d).vma vma))
  onMm d (Mm.kfree vma)

/-! ## Mapping and unmapping -/

/-- `mm_map_shmem`. -/
def mmMapShmem (d addr : ℕ) (vmFlags : Flags) (shmem : Option ℕ) : SpacesM Unit := do
  match shmem.filter fun _ => addr % pgSize = 0 with
  | none => throw .inval
  | some m => do
    onMem (shmemRefInc m)
    let v ← get
    match ← (onMm d (mmMap addr (v.mem.shmem m).len vmFlags)).attempt with
    | .error e => do
      let _ ← onMem (shmemRefDec m)
      throw e
    | .ok vma => onMm d (modify fun mm => mm.setVma vma fun v => { v with
        shmem := some m, shmemOff := 0, vmFlags := v.vmFlags ||| vmShare })

/-- The range lies inside of one area, which is cut in two. -/
def punchHole (d vma start fin : ℕ) : SpacesM Unit := do
  let v ← get
  let old := (v.mm d).vma vma
  match ← onMm d (vmaCreate old.vmStart start old.vmFlags) with
  | none => throw .noMem
  | some nvma => do
    onMm d (vmaResize vma fin old.vmEnd)
    onMm d (insertVmaStruct nvma)
    onMem (unmapRange d start fin)

/-- The body of the second loop of `mm_unmap`. -/
def trimVma (d start fin vma : ℕ) : SpacesM Unit := do
  let v ← get
  let old := (v.mm d).vma vma
  if old.vmStart < start then do
    onMm d (vmaResize vma old.vmStart start)
    onMm d (insertVmaStruct vma)
    onMem (unmapRange d start old.vmEnd)
  else if fin < old.vmEnd then do
    onMm d (vmaResize vma fin old.vmEnd)
    onMm d (insertVmaStruct vma)
    onMem (unmapRange d old.vmStart fin)
  else do
    vmaDestroy d vma
    onMem (unmapRange d old.vmStart old.vmEnd)

/-- The second loop of `mm_unmap`. -/
def trimVmas (d start fin : ℕ) : List ℕ → SpacesM Unit
  | [] => return ()
  | vma :: rest => do
    trimVma d start fin vma
    trimVmas d start fin rest

/-- `mm_unmap` from the first area that ends after the start of the range. -/
def unmapFrom (d start fin vma : ℕ) : SpacesM Unit := do
  let v ← get
  let old := (v.mm d).vma vma
  if fin ≤ old.vmStart then return ()
  else if old.vmStart < start ∧ fin < old.vmEnd then punchHole d vma start fin
  else do
    let freeList ← onMm d (takeVmas fin (v.mm d).turns vma [])
    trimVmas d start fin freeList

/-- `mm_unmap`. -/
def mmUnmap (d addr len : ℕ) : SpacesM Unit :=
  let start := roundDown addr pgSize
  let fin := reqEnd addr len
  if ¬UserAccess start fin then throw .inval
  else do
    match ← onMm d (findVma start) with
    | none => return ()
    | some vma => unmapFrom d start fin vma

/-- `mm_brk`. -/
def mmBrk (d addr len : ℕ) : SpacesM Unit :=
  let start := roundDown addr pgSize
  let fin := reqEnd addr len
  if ¬UserAccess start fin then throw .inval
  else do
    mmUnmap d start (fin - start)
    onMm d (extendOrMap start fin)

/-! ## Copying and the end of an address space -/

/-- The shared memory of a copied area. -/
def dupShmem (dst nvma : ℕ) (old : Vma) : SpacesM Unit :=
  if old.has vmShare then
    match old.shmem with
    | none => throw .nullAccess
    | some m => do
      onMm dst (modify fun mm => mm.setVma nvma fun v => { v with
        shmem := some m, shmemOff := old.shmemOff })
      onMem (shmemRefInc m)
  else return ()

/-- The body of the loop of `dup_mmap`. -/
def dupVma (dst src vma : ℕ) : SpacesM Unit := do
  let v ← get
  let old := (v.mm src).vma vma
  match ← onMm dst (vmaCreate old.vmStart old.vmEnd old.vmFlags) with
  | none => throw .noMem
  | some nvma => do
    dupShmem dst nvma old
    onMm dst (insertVmaStruct nvma)
    onMem (copyRange dst src old.vmStart old.vmEnd (old.has vmShare))

/-- The loop of `dup_mmap`, which goes through the list from its end. -/
def dupVmas (dst src : ℕ) : List ℕ → SpacesM Unit
  | [] => return ()
  | vma :: rest => do
    dupVma dst src vma
    dupVmas dst src rest

/-- `dup_mmap`. -/
def dupMmap (dst src : ℕ) : SpacesM Unit := do
  let v ← get
  dupVmas dst src (v.mm src).mmapList.reverse

/-- The two loops of `exit_mmap`. -/
def overVmas (d : ℕ) (c : ℕ → ℕ → ℕ → MemM Unit) : List ℕ → SpacesM Unit
  | [] => return ()
  | vma :: rest => do
    let v ← get
    onMem (c d ((v.mm d).vma vma).vmStart ((v.mm d).vma vma).vmEnd)
    overVmas d c rest

/-- `exit_mmap`. -/
def exitMmap (d : ℕ) : SpacesM Unit := do
  let v ← get
  assert ((v.mm d).mmCount = 0)
  overVmas d unmapRange (v.mm d).mmapList
  overVmas d exitRange (v.mm d).mmapList

/-- `rb_tree_destroy`. -/
def treeDestroy : MmM Unit := do
  let m ← get
  match m.mmapTree with
  | some p => do
    Mm.kfree p.root
    Mm.kfree p.nil
    Mm.kfree p.addr
  | none => return ()

/-- The loop of `mm_destroy`. -/
def destroyVmas (d : ℕ) : List ℕ → SpacesM Unit
  | [] => return ()
  | vma :: rest => do
    onMm d (modify fun m => { m with mmapList := rest })
    vmaDestroy d vma
    destroyVmas d rest

/-- `mm_destroy`. What the structure holds is lost with it. -/
def mmDestroy (d : ℕ) : SpacesM Unit := do
  let v ← get
  assert ((v.mm d).mmCount = 0)
  onMm d treeDestroy
  destroyVmas d (v.mm d).mmapList
  onMm d (modify fun m => { m with mmapTree := none, mmapCache := none, mapCount := 0 })

/-! ## Faults -/

/-- The bits of an error code that `do_pgfault` looks at: bit 0 and bit 1. -/
structure FaultCode where
  present : Bool
  write : Bool
  deriving DecidableEq, Repr

/-- The switch of `do_pgfault`: whether the area allows the access. -/
def Vma.allows (v : Vma) (e : FaultCode) : Bool :=
  match e.write, e.present with
  | true, _ => v.has vmWrite
  | false, true => false
  | false, false => v.has (vmRead ||| vmExec)

/-- The permissions of a new entry. -/
def Vma.perm (v : Vma) : Perm := ⟨true, v.has vmWrite⟩

/-- An area whose pages are copied when they are written. -/
def Vma.cow (v : Vma) : Bool := v.vmFlags &&& (vmShare ||| vmWrite) == vmWrite

/-- A fault on an empty entry of a shared area. -/
def faultShared (d : ℕ) (v : Vma) (addr : ℕ) : MemM Unit := do
  match v.shmem with
  | none => throw .nullAccess
  | some m => do
    match ← shmemGetEntry m (addr - v.vmStart + v.shmemOff) true with
    | none => throw .noMem
    | some p => do
      match ← gets fun s => s.pte p with
      | .none => throw .noMem
      | .page f _ => (pageInsert d f addr v.perm).ignore

/-- A fault on an empty entry. -/
def faultEmpty (d : ℕ) (v : Vma) (addr : ℕ) : MemM Unit :=
  if v.has vmShare = false then do
    match ← pgdirAllocPage d addr v.perm with
    | none => throw .noMem
    | some _ => return ()
  else faultShared d v addr

/-- The page for the copy, which is allocated before it is known to be needed. -/
def sparePage (cow : Bool) : MemM (Option ℕ) := if cow then allocPage else return none

/-- A page that was not needed. -/
def freeSpare : Option ℕ → MemM Unit
  | some page => freePage page
  | none => return ()

/-- A fault on an entry with a page. -/
def faultPresent (d : ℕ) (v : Vma) (e : FaultCode) (addr page : ℕ) (prot : Prot) : MemM Unit := do
  assert (e.write = true ∧ prot.uWrite = false ∧ v.cow = true)
  let newpage ← sparePage v.cow
  let s ← get
  if v.cow = true ∧ 1 < s.ref page then do
    match newpage with
    | none => throw .noMem
    | some copy => do
      copyPage copy page
      (pageInsert d copy addr v.perm).ignore
  else do
    (pageInsert d page addr v.perm).ignore
    freeSpare newpage

/-- `do_pgfault` once it has an area that allows the access. -/
def fault (d : ℕ) (v : Vma) (e : FaultCode) (addr : ℕ) : MemM Unit := do
  match ← getPte d addr true with
  | none => throw .noMem
  | some p => do
    match ← gets fun s => s.pte p with
    | .none => faultEmpty d v addr
    | .page page prot => faultPresent d v e addr page prot

/-- Whether `do_pgfault` goes on with an area. -/
def Vma.Takes (v : Vma) (e : FaultCode) (addr : ℕ) : Prop :=
  v.vmStart ≤ addr ∧ ¬(v.has vmStack ∧ addr < v.vmStart + pgSize) ∧ v.has vmIo = false ∧
    v.allows e = true

instance (v : Vma) (e : FaultCode) (addr : ℕ) : Decidable (v.Takes e addr) := by
  unfold Vma.Takes
  infer_instance

/-- `do_pgfault`. -/
def doPgfault (d : ℕ) (e : FaultCode) (addr : ℕ) : SpacesM Unit := do
  let found ← onMm d (findVma addr)
  let v ← get
  match (found.map (v.mm d).vma).filter fun a => a.Takes e addr with
  | none => throw .inval
  | some a => onMem (fault d a e (roundDown addr pgSize))

end Ucore.Vm
