import Ucore.Lib.Links
import Ucore.Rb.Tree
import Ucore.Vm.Memory

/-!
# Areas of an address space

The functions of `vmm.c` on one `mm_struct`: its areas are in a list, in a red-black tree once
there are enough of them, and in a cache of one. The addresses of areas and of the parts of
the tree are numbers of one address space, each `mm_struct` with blocks of its own. The turns
of a loop over the tree or the list are bounded by the length of the list.
-/

namespace Ucore.Vm

open Kern Rb RedBlack

/-- The flags of an area. -/
abbrev Flags := BitVec 32

def vmRead : Flags := 0x1

def vmWrite : Flags := 0x2

def vmExec : Flags := 0x4

def vmStack : Flags := 0x8

def vmShare : Flags := 0x10

def vmIo : Flags := 0x4000

/-- `vma_struct`, without its links. -/
structure Vma where
  vmStart : ℕ
  vmEnd : ℕ
  vmFlags : Flags
  shmem : Option ℕ
  shmemOff : ℕ
  /-- Whether `vm_mm` is the structure that has the area. -/
  vmMm : Bool

/-- Some flag of `mask` is set. -/
def Vma.has (v : Vma) (mask : Flags) : Bool := v.vmFlags &&& mask != 0

/-- `rb_tree`: where it is, and its two nodes. -/
structure TreePtr where
  addr : ℕ
  nil : ℕ
  root : ℕ

/-- `mm_struct`, with the memory of its areas. -/
structure Mm where
  vma : ℕ → Vma
  rbLink : ℕ → Node ℕ
  mmapList : List ℕ
  mmapTree : Option TreePtr
  mmapCache : Option ℕ
  mapCount : ℤ
  mmCount : ℤ
  /-- The blocks that `kmalloc` has given to areas and to the tree. -/
  heap : Heap ℕ

/-- Code on one `mm_struct`. -/
abbrev MmM := Kern Err Mm

/-- `RB_MIN_MAP_COUNT`. -/
def rbMinMapCount : ℤ := 32

def Mm.kmalloc : MmM (Option ℕ) := zoom Mm.heap (fun h m => { m with heap := h }) Heap.alloc

def Mm.kfree (a : ℕ) : MmM Unit :=
  zoom Mm.heap (fun h m => { m with heap := h }) (Heap.free a)

/-- Code on the tree. -/
def onTree {α : Type} (p : TreePtr) (c : TreeM ℕ α) : MmM α := fun m =>
  match c ⟨m.rbLink, p.nil, p.root⟩ with
  | .done a t => .done a { m with rbLink := t.node }
  | .fail e _ => e.elim
  | .halt h => .halt h

/-- The turns of a loop over the areas. -/
def Mm.turns (m : Mm) : ℕ := m.mmapList.length + 3

def Mm.setVma (m : Mm) (x : ℕ) (g : Vma → Vma) : Mm :=
  { m with vma := Function.update m.vma x (g (m.vma x)) }

/-- `vma_create`. -/
def vmaCreate (vmStart vmEnd : ℕ) (vmFlags : Flags) : MmM (Option ℕ) := do
  match ← Mm.kmalloc with
  | none => return none
  | some a => do
    modify fun m => m.setVma a fun v => ⟨vmStart, vmEnd, vmFlags, none, 0, v.vmMm⟩
    return some a

/-! ## Lookup -/

/-- The loop of `find_vma_rb`. -/
def findVmaRbFrom (p : TreePtr) (addr : ℕ) : ℕ → Option ℕ → Option ℕ → MmM (Option ℕ)
  | 0, _, _ => stop .running
  | _ + 1, none, vma => return vma
  | fuel + 1, some x, vma => do
    let m ← get
    let tree : RbTree ℕ := ⟨m.rbLink, p.nil, p.root⟩
    if addr < (m.vma x).vmEnd then
      if (m.vma x).vmStart ≤ addr then return some x
      else findVmaRbFrom p addr fuel (tree.rbNodeChild .left x) (some x)
    else findVmaRbFrom p addr fuel (tree.rbNodeChild .right x) vma

/-- `find_vma_rb`. -/
def findVmaRb (p : TreePtr) (addr : ℕ) : MmM (Option ℕ) := do
  let m ← get
  findVmaRbFrom p addr m.turns (RbTree.rbNodeRoot ⟨m.rbLink, p.nil, p.root⟩) none

/-- The area that `find_vma` returns. -/
def lookupVma (addr : ℕ) : MmM (Option ℕ) := do
  let m ← get
  match m.mmapCache.filter fun x => (m.vma x).vmStart ≤ addr ∧ addr < (m.vma x).vmEnd with
  | some x => return some x
  | none =>
    match m.mmapTree with
    | some p => findVmaRb p addr
    | none => return m.mmapList.find? fun x => addr < (m.vma x).vmEnd

/-- What has been found goes into the cache. -/
def cacheVma : Option ℕ → MmM (Option ℕ)
  | some x => do
    modify fun m => { m with mmapCache := some x }
    return some x
  | none => return none

/-- `find_vma`. -/
def findVma (addr : ℕ) : MmM (Option ℕ) := do
  let vma ← lookupVma addr
  cacheVma vma

/-! ## Insertion and removal -/

/-- `vma_compare`. -/
def Mm.vmaCompare (m : Mm) (a b : ℕ) : ℤ :=
  if (m.vma a).vmStart < (m.vma b).vmStart then -1
  else if (m.vma b).vmStart < (m.vma a).vmStart then 1
  else 0

/-- `check_vma_overlap`. -/
def checkVmaOverlap (prev next : Vma) : MmM Unit := do
  assert (prev.vmStart < prev.vmEnd)
  assert (prev.vmEnd ≤ next.vmStart)
  assert (next.vmStart < next.vmEnd)

/-- The check of `insert_vma_struct` between two areas, one of which may be the head of the
list. -/
def checkVmaPlace (prev next : Option ℕ) : MmM Unit := do
  let m ← get
  match prev, next with
  | some x, some y => checkVmaOverlap (m.vma x) (m.vma y)
  | _, _ => return ()

/-- `rb_insert` for an area. -/
def rbInsertVma (p : TreePtr) (vma : ℕ) : MmM Unit := do
  let m ← get
  onTree p (rbInsert m.vmaCompare m.turns vma)

/-- `insert_vma_rb`, which also returns the area before the new one. -/
def insertVmaRb (p : TreePtr) (vma : ℕ) : MmM (Option ℕ) := do
  rbInsertVma p vma
  let m ← get
  onTree p (rbNodePrev m.turns vma)

/-- The link of the list after which an area goes. -/
def prevLink (vma : ℕ) : MmM (Option ℕ) := do
  let m ← get
  match m.mmapTree with
  | some p => insertVmaRb p vma
  | none =>
    return (m.mmapList.takeWhile fun x => (m.vma x).vmStart ≤ (m.vma vma).vmStart).getLast?

/-- `rb_tree_create`, with its calls of `kmalloc`. -/
def treeCreate : MmM (Option TreePtr) := do
  match ← Mm.kmalloc with
  | none => return none
  | some tree => do
    match ← Mm.kmalloc with
    | none => do
      Mm.kfree tree
      return none
    | some nil => do
      match ← Mm.kmalloc with
      | none => do
        Mm.kfree nil
        Mm.kfree tree
        return none
      | some root => do
        modify fun m => { m with rbLink := (rbTreeCreate m.rbLink nil root).node }
        return some ⟨tree, nil, root⟩

/-- All areas go into the tree. -/
def rbInsertVmas (p : TreePtr) : List ℕ → MmM Unit
  | [] => return ()
  | x :: rest => do
    rbInsertVma p x
    rbInsertVmas p rest

/-- The tree is built when there are enough areas; this may fail. -/
def buildTree : MmM Unit := do
  let m ← get
  if m.mmapTree.isNone ∧ rbMinMapCount ≤ m.mapCount then do
    match ← treeCreate with
    | none => return ()
    | some p => do
      modify fun m => { m with mmapTree := some p }
      rbInsertVmas p m.mmapList
  else return ()

/-- `insert_vma_struct`. -/
def insertVmaStruct (vma : ℕ) : MmM Unit := do
  let m ← get
  assert ((m.vma vma).vmStart < (m.vma vma).vmEnd)
  let prev ← prevLink vma
  let m ← get
  checkVmaPlace prev (some vma)
  checkVmaPlace (some vma) (nextOf m.mmapList prev)
  modify fun m => m.setVma vma fun v => { v with vmMm := true }
  modify fun m => { m with
    mmapList := insertAfter vma m.mmapList prev, mapCount := m.mapCount + 1 }
  buildTree

/-- `rb_delete` for an area. -/
def rbDeleteVma (vma : ℕ) : MmM Unit := do
  let m ← get
  match m.mmapTree with
  | some p => onTree p (rbDelete m.turns vma)
  | none => return ()

/-- `remove_vma_struct`. -/
def removeVmaStruct (vma : ℕ) : MmM Unit := do
  let m ← get
  assert ((m.vma vma).vmMm = true)
  rbDeleteVma vma
  modify fun m => { m with
    mmapList := m.mmapList.erase vma
    mmapCache := if m.mmapCache = some vma then none else m.mmapCache
    mapCount := m.mapCount - 1 }

/-- `vma_resize`. -/
def vmaResize (vma start fin : ℕ) : MmM Unit := do
  let m ← get
  assert (start % pgSize = 0 ∧ fin % pgSize = 0)
  assert ((m.vma vma).vmStart ≤ start ∧ start < fin ∧ fin ≤ (m.vma vma).vmEnd)
  modify fun m => m.setVma vma fun v => { v with
    vmStart := start
    vmEnd := fin
    shmemOff := if v.has vmShare then v.shmemOff + (start - v.vmStart) else v.shmemOff }

/-! ## Mapping -/

/-- The end of a request, rounded up; both sums may wrap. -/
def reqEnd (addr len : ℕ) : ℕ := roundUp ((addr + len) % 2 ^ 32) pgSize

/-- A new area, which is put into the list. -/
def mapNew (start fin : ℕ) (vmFlags : Flags) : MmM ℕ := do
  match ← vmaCreate start fin vmFlags with
  | none => throw .noMem
  | some vma => do
    insertVmaStruct vma
    return vma

/-- `mm_map`. -/
def mmMap (addr len : ℕ) (vmFlags : Flags) : MmM ℕ :=
  let start := roundDown addr pgSize
  let fin := reqEnd addr len
  if ¬UserAccess start fin then throw .inval
  else do
    let found ← findVma start
    let m ← get
    if found.any fun x => (m.vma x).vmStart < fin then throw .inval
    else mapNew start fin (vmFlags &&& ~~~vmShare)

/-- The first loop of `mm_unmap`: the areas from `vma` to the end of the range, last first. -/
def takeVmas (fin : ℕ) : ℕ → ℕ → List ℕ → MmM (List ℕ)
  | 0, _, _ => stop .running
  | fuel + 1, vma, freeList => do
    let m ← get
    if (m.vma vma).vmStart < fin then do
      removeVmaStruct vma
      match nextOf m.mmapList (some vma) with
      | none => return vma :: freeList
      | some next => takeVmas fin fuel next (vma :: freeList)
    else return freeList

/-- The end of an area moves, or a new area is made: the last part of `mm_brk`. -/
def extendOrMap (start fin : ℕ) : MmM Unit := do
  let found ← findVma (start - 1)
  let m ← get
  match found.filter fun x => (m.vma x).vmEnd = start ∧ (m.vma x).vmFlags = vmRead ||| vmWrite with
  | some x => modify fun m => m.setVma x fun v => { v with vmEnd := fin }
  | none => do
    let _ ← mapNew start fin (vmRead ||| vmWrite)
    return ()

end Ucore.Vm
