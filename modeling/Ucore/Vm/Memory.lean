import Ucore.Lib.Heap
import Mathlib.Algebra.Group.Nat.Defs

/-!
# Page tables and shared memory

`glue-ucore/pmm.c` and `shmem.c`, for the page tables of ARM (a directory of 4096 entries, one
table of 256 entries for each, a page for each table) and without swap. Addresses are numbers
below `2 ^ 32`; sums that an assertion before them keeps in this range are not reduced. Loops
are given the number of turns that they may take.
-/

namespace Ucore.Vm

open Kern Function

/-- `PGSIZE`. -/
def pgSize : ℕ := 4096

/-- `NPTEENTRY`, which is also `SHMN_NENTRY`. -/
def nptEntry : ℕ := 256

/-- `NPDEENTRY`. -/
def npdEntry : ℕ := 4096

/-- `PTSIZE`. -/
def ptSize : ℕ := pgSize * nptEntry

def userBase : ℕ := 0x30000000

def userTop : ℕ := 0x70000000

/-- `PDX`. -/
def pdx (la : ℕ) : ℕ := la / ptSize % npdEntry

/-- `PTX`. -/
def ptx (la : ℕ) : ℕ := la / pgSize % nptEntry

/-- `ROUNDDOWN`. -/
def roundDown (a n : ℕ) : ℕ := a - a % n

/-- `ROUNDUP`, whose sum may wrap. -/
def roundUp (a n : ℕ) : ℕ := roundDown ((a + n - 1) % 2 ^ 32) n

/-- `USER_ACCESS`. -/
def UserAccess (start fin : ℕ) : Prop := userBase ≤ start ∧ start < fin ∧ fin ≤ userTop

instance (start fin : ℕ) : Decidable (UserAccess start fin) := by
  unfold UserAccess
  infer_instance

/-- The codes with which a call ends early. -/
inductive Err where
  /-- `-E_INVAL`. -/
  | inval
  /-- `-E_NO_MEM`. -/
  | noMem
  /-- An access through a pointer that is `NULL`, from which the call does not return. -/
  | nullAccess
  deriving DecidableEq, Repr

/-- `PTE_U` and `PTE_W` of a `pte_perm_t`; `PTE_P` is always there. -/
structure Perm where
  u : Bool
  w : Bool
  deriving DecidableEq, Repr

/-- The protection bits of an entry. -/
inductive Prot where
  /-- `PTEX_R`: the supervisor reads. -/
  | r
  /-- `PTEX_W`: the supervisor reads and writes. -/
  | w
  /-- `PTEX_U`: the supervisor reads and writes, the user reads. -/
  | u
  /-- `PTEX_UW`: both read and write. -/
  | uw
  deriving DecidableEq, Repr

/-- `_arm_pte_setflags`. -/
def Perm.prot : Perm → Prot
  | ⟨true, true⟩ => .uw
  | ⟨true, false⟩ => .u
  | ⟨false, true⟩ => .w
  | ⟨false, false⟩ => .r

/-- `ptep_u_read`. -/
def Prot.uRead : Prot → Bool
  | .u => true
  | .uw => true
  | _ => false

/-- `ptep_u_write`. -/
def Prot.uWrite : Prot → Bool
  | .uw => true
  | _ => false

/-- An entry of a page table, or of a shared memory: zero, or a page. -/
inductive Pte where
  | none
  | page (frame : ℕ) (prot : Prot)
  deriving DecidableEq, Repr

/-- The page that an entry names. -/
def Pte.frame? : Pte → Option ℕ
  | .none => Option.none
  | .page f _ => some f

/-- `shmn_t`. -/
structure Shmn where
  /-- The address of the structure. -/
  addr : ℕ
  start : ℕ
  /-- The page that holds the entries. -/
  entry : ℕ
  deriving DecidableEq, Repr

/-- The field `end`. -/
def Shmn.fin (n : Shmn) : ℕ := n.start + pgSize * nptEntry

/-- `shmem_struct`. -/
structure Shmem where
  /-- `shmn_list`. -/
  nodes : List Shmn
  /-- `shmn_cache`. -/
  cache : Option Shmn
  len : ℕ
  ref : ℤ

/-- Pages, page tables and shared memories. -/
structure Mem where
  /-- The pages in use. -/
  heap : Heap ℕ
  /-- `page_ref`. -/
  ref : ℕ → ℤ
  /-- `PageIO`. -/
  io : ℕ → Bool
  /-- What a page holds. -/
  data : ℕ → ℕ → UInt8
  /-- The entries that a page holds if it is a table. -/
  table : ℕ → ℕ → Pte
  /-- The user part of the page directories: the page of each table. -/
  pgdir : ℕ → ℕ → Option ℕ
  /-- The structures in use. -/
  kheap : Heap ℕ
  shmem : ℕ → Shmem

/-- Code on memory. -/
abbrev MemM := Kern Err Mem

/-- Where an entry is: the page of a table and an index. -/
abbrev Ptep := ℕ × ℕ

def Mem.pte (s : Mem) (p : Ptep) : Pte := s.table p.1 p.2

def Mem.setPte (s : Mem) (p : Ptep) (v : Pte) : Mem :=
  { s with table := update s.table p.1 (update (s.table p.1) p.2 v) }

def setPte (p : Ptep) (v : Pte) : MemM Unit := modify fun s => s.setPte p v

/-! ## Pages -/

/-- `alloc_page`. -/
def allocPage : MemM (Option ℕ) := zoom Mem.heap (fun h s => { s with heap := h }) Heap.alloc

/-- `set_page_ref`. -/
def setPageRef (f : ℕ) (n : ℤ) : MemM Unit :=
  modify fun s => { s with ref := update s.ref f n }

/-- `free_page`, which also clears the count and the flags. -/
def freePage (f : ℕ) : MemM Unit := do
  setPageRef f 0
  modify fun s => { s with io := update s.io f false }
  zoom Mem.heap (fun h s => { s with heap := h }) (Heap.free f)

/-- `page_ref_inc`. -/
def pageRefInc (f : ℕ) : MemM Unit :=
  modify fun s => { s with ref := update s.ref f (s.ref f + 1) }

/-- `page_ref_dec`. -/
def pageRefDec (f : ℕ) : MemM ℤ := do
  modify fun s => { s with ref := update s.ref f (s.ref f - 1) }
  gets fun s => s.ref f

/-- `memset` on a page of data. -/
def clearPage (f : ℕ) : MemM Unit :=
  modify fun s => { s with data := update s.data f fun _ => 0 }

/-- `memcpy` from one page of data to another. -/
def copyPage (dst src : ℕ) : MemM Unit :=
  modify fun s => { s with data := update s.data dst (s.data src) }

/-- `memset` on a page of entries. -/
def clearTable (t : ℕ) : MemM Unit :=
  modify fun s => { s with table := update s.table t fun _ => .none }

/-! ## Page tables -/

/-- The new table of `get_pte`. -/
def newTable (d la : ℕ) : MemM (Option Ptep) := do
  match ← allocPage with
  | none => return none
  | some t => do
    setPageRef t 1
    clearTable t
    modify fun s =>
      { s with pgdir := update s.pgdir d (update (s.pgdir d) (pdx la) (some t)) }
    return some (t, ptx la)

/-- `get_pte`. -/
def getPte (d la : ℕ) (create : Bool) : MemM (Option Ptep) := do
  match ← gets fun s => s.pgdir d (pdx la) with
  | some t => return some (t, ptx la)
  | none => if create = true then newTable d la else return none

/-- A page loses a reference, and is freed with the last one. -/
def unrefPage (f : ℕ) : MemM Unit := do
  let n ← pageRefDec f
  let s ← get
  if n = 0 ∧ s.io f = false then freePage f

/-- `page_remove_pte`. -/
def pageRemovePte (p : Ptep) : MemM Unit := do
  match ← gets fun s => s.pte p with
  | .page f _ => do
    unrefPage f
    setPte p .none
  | .none => return ()

/-- What `page_insert` does with the entry that is there. -/
def replacePte (page : ℕ) (p : Ptep) : MemM Unit := do
  match ← gets fun s => s.pte p with
  | .page f _ =>
    if f = page then do
      let _ ← pageRefDec page
      return ()
    else pageRemovePte p
  | .none => return ()

/-- `page_insert`. -/
def pageInsert (d page la : ℕ) (perm : Perm) : MemM Unit := do
  match ← getPte d la true with
  | none => throw .noMem
  | some p => do
    pageRefInc page
    replacePte page p
    setPte p (.page page perm.prot)

/-- `page_remove`. -/
def pageRemove (d la : ℕ) : MemM Unit := do
  match ← getPte d la false with
  | none => return ()
  | some p => pageRemovePte p

/-- `pgdir_alloc_page`. -/
def pgdirAllocPage (d la : ℕ) (perm : Perm) : MemM (Option ℕ) := do
  match ← allocPage with
  | none => return none
  | some page => do
    clearPage page
    match ← (pageInsert d page la perm).attempt with
    | .ok _ => return some page
    | .error _ => do
      freePage page
      return none

/-! ## Ranges -/

/-- The body of the loop of `unmap_range_pte`. -/
def unmapEntry (p : Ptep) : MemM Unit := do
  let s ← get
  if s.pte p ≠ .none then pageRemovePte p

/-- The loop of `unmap_range_pte`. -/
def unmapEntries (t : ℕ) : ℕ → ℕ → ℕ → MemM Unit
  | 0, _, _ => stop .running
  | fuel + 1, start, fin => do
    unmapEntry (t, ptx start)
    if start + pgSize < fin then unmapEntries t fuel (start + pgSize) fin else return ()

/-- `unmap_range_pte`, where `start` and `fin` are offsets in the region of the table. -/
def unmapRangePte (t start fin : ℕ) : MemM Unit := do
  assert (start < fin ∧ fin ≤ ptSize)
  assert (start % pgSize = 0 ∧ fin % pgSize = 0)
  unmapEntries t nptEntry start fin

/-- The body of the loop of `unmap_range_pgd`. -/
def unmapRegion (d la off size : ℕ) : MemM Unit := do
  match ← gets fun s => s.pgdir d (pdx la) with
  | some t => unmapRangePte t off (off + size)
  | none => return ()

/-- `unmap_range_pgd`. -/
def unmapRangePgd (d : ℕ) : ℕ → ℕ → ℕ → ℕ → MemM Unit
  | 0, _, _, _ => stop .running
  | fuel + 1, start, la, fin => do
    let off := start - la
    let size := if ptSize - off > fin - start then fin - start else ptSize - off
    unmapRegion d la off size
    if start + size < fin then unmapRangePgd d fuel (start + size) (la + ptSize) fin
    else return ()

/-- `unmap_range`. -/
def unmapRange (d start fin : ℕ) : MemM Unit := do
  assert (start % pgSize = 0 ∧ fin % pgSize = 0)
  assert (UserAccess start fin)
  unmapRangePgd d npdEntry start (roundDown start ptSize) fin

/-- The body of the loop of `exit_range_pgd`. -/
def exitRegion (d la : ℕ) : MemM Unit := do
  match ← gets fun s => s.pgdir d (pdx la) with
  | some t => do
    freePage t
    modify fun s =>
      { s with pgdir := update s.pgdir d (update (s.pgdir d) (pdx la) none) }
  | none => return ()

/-- `exit_range_pgd`. -/
def exitRangePgd (d : ℕ) : ℕ → ℕ → ℕ → MemM Unit
  | 0, _, _ => stop .running
  | fuel + 1, start, fin => do
    exitRegion d start
    if start + ptSize < fin then exitRangePgd d fuel (start + ptSize) fin else return ()

/-- `exit_range`. -/
def exitRange (d start fin : ℕ) : MemM Unit := do
  assert (start % pgSize = 0 ∧ fin % pgSize = 0)
  assert (UserAccess start fin)
  exitRangePgd d npdEntry (roundDown start ptSize) fin

/-- The entry of the parent becomes read-only, unless the page is shared. -/
def protectPte (share : Bool) (p : Ptep) (page : ℕ) (perm : Perm) : MemM Unit :=
  if share = false then setPte p (.page page perm.prot) else return ()

/-- One entry of `copy_range`. -/
def copyEntry (dst la : ℕ) (share : Bool) (p : Ptep) : MemM Unit := do
  match ← gets fun s => s.pte p with
  | .none => return ()
  | .page page prot => do
    match ← getPte dst la true with
    | none => throw .noMem
    | some np => do
      let s ← get
      assert (s.pte np = .none)
      let perm : Perm := ⟨prot.uRead, share && prot.uWrite⟩
      protectPte share p page perm
      (pageInsert dst page la perm).ignore

/-- The loop of `copy_range`: without a table in the parent, it goes on with the next region. -/
def copyPages (dst src : ℕ) (share : Bool) : ℕ → ℕ → ℕ → MemM Unit
  | 0, _, _ => stop .running
  | fuel + 1, start, fin => do
    match ← getPte src start false with
    | none =>
      if roundDown (start + ptSize) ptSize < fin then
        copyPages dst src share fuel (roundDown (start + ptSize) ptSize) fin
      else return ()
    | some p => do
      copyEntry dst start share p
      if start + pgSize < fin then copyPages dst src share fuel (start + pgSize) fin
      else return ()

/-- `copy_range`. -/
def copyRange (dst src start fin : ℕ) (share : Bool) : MemM Unit := do
  assert (start % pgSize = 0 ∧ fin % pgSize = 0)
  assert (UserAccess start fin)
  copyPages dst src share (npdEntry * nptEntry) start fin

/-! ## Shared memory -/

def modifyShmem (m : ℕ) (g : Shmem → Shmem) : MemM Unit :=
  modify fun s => { s with shmem := update s.shmem m (g (s.shmem m)) }

/-- `kmalloc` of a structure. -/
def kmalloc : MemM (Option ℕ) := zoom Mem.kheap (fun h s => { s with kheap := h }) Heap.alloc

def kfree (a : ℕ) : MemM Unit :=
  zoom Mem.kheap (fun h s => { s with kheap := h }) (Heap.free a)

/-- `shmn_create`. -/
def shmnCreate (start : ℕ) : MemM (Option Shmn) := do
  assert (start % pgSize * nptEntry = 0)
  match ← kmalloc with
  | none => return none
  | some a => do
    match ← allocPage with
    | none => do
      kfree a
      return none
    | some page => do
      clearTable page
      return some ⟨a, start, page⟩

/-- A page loses the reference of a shared memory; whether it is for IO is not asked. -/
def shmemUnref (f : ℕ) : MemM Unit := do
  let n ← pageRefDec f
  if n = 0 then freePage f

/-- `shmem_remove_entry_pte`. -/
def shmemRemoveEntryPte (p : Ptep) : MemM Unit := do
  match ← gets fun s => s.pte p with
  | .page f _ => do
    shmemUnref f
    setPte p .none
  | .none => return ()

/-- The loop of `shmn_destroy`. -/
def removeEntries (t : ℕ) : ℕ → ℕ → MemM Unit
  | 0, _ => return ()
  | n + 1, i => do
    shmemRemoveEntryPte (t, i)
    removeEntries t n (i + 1)

/-- `shmn_destroy`. -/
def shmnDestroy (n : Shmn) : MemM Unit := do
  removeEntries n.entry nptEntry 0
  freePage n.entry
  kfree n.addr

def Shmn.Has (n : Shmn) (addr : ℕ) : Prop := n.start ≤ addr ∧ addr < n.fin

instance (n : Shmn) (addr : ℕ) : Decidable (n.Has addr) := by
  unfold Shmn.Has
  infer_instance

/-- The node that `find_shmn` returns. -/
def Shmem.lookup (m : Shmem) (addr : ℕ) : Option Shmn :=
  match m.cache.filter fun n => n.Has addr with
  | some n => some n
  | none => m.nodes.find? fun n => n.Has addr

/-- `find_shmn`. -/
def findShmn (m addr : ℕ) : MemM (Option Shmn) := do
  match ← gets fun s => (s.shmem m).lookup addr with
  | some n => do
    modifyShmem m fun x => { x with cache := some n }
    return some n
  | none => return none

/-- `check_shmn_overlap`. -/
def checkShmnOverlap (prev next : Shmn) : MemM Unit := do
  assert (prev.start < prev.fin)
  assert (prev.fin ≤ next.start)
  assert (next.start < next.fin)

/-- The check of `insert_shmn` between two nodes, one of which may be the head of the list. -/
def checkShmnPlace : Option Shmn → Option Shmn → MemM Unit
  | some prev, some next => checkShmnOverlap prev next
  | _, _ => return ()

/-- `insert_shmn`. -/
def insertShmn (m : ℕ) (n : Shmn) : MemM Unit := do
  let s ← get
  let before := (s.shmem m).nodes.takeWhile fun x => x.start ≤ n.start
  let after := (s.shmem m).nodes.dropWhile fun x => x.start ≤ n.start
  checkShmnPlace before.getLast? (some n)
  checkShmnPlace (some n) after.head?
  modifyShmem m fun x => { x with nodes := before ++ n :: after }

/-- The loop of `shmem_destroy`. -/
def destroyNodes (m : ℕ) : List Shmn → MemM Unit
  | [] => return ()
  | n :: rest => do
    modifyShmem m fun x => { x with nodes := rest }
    shmnDestroy n
    destroyNodes m rest

/-- `shmem_create`, once the structure has been allocated. -/
def shmemCreate (m len : ℕ) : MemM Unit := modifyShmem m fun _ => ⟨[], none, len, 0⟩

/-- `shmem_destroy`. What the structure holds is lost with it. -/
def shmemDestroy (m : ℕ) : MemM Unit := do
  let s ← get
  destroyNodes m (s.shmem m).nodes
  modifyShmem m fun _ => ⟨[], none, 0, 0⟩

/-- The node for an address, created if it is missing. -/
def getShmn (m addr : ℕ) (create : Bool) : MemM (Option Shmn) := do
  match ← findShmn m addr with
  | some n => do
    assert (n.Has addr)
    return some n
  | none =>
    if create = true then do
      match ← shmnCreate (roundDown addr (pgSize * nptEntry)) with
      | none => return none
      | some n => do
        insertShmn m n
        return some n
    else return none

/-- A page for an entry that is zero; `alloc_page` does not clear it. -/
def fillEntry (p : Ptep) (create : Bool) : MemM Unit := do
  let s ← get
  if s.pte p = .none ∧ create = true then do
    match ← allocPage with
    | none => return ()
    | some page => do
      setPte p (.page page .r)
      pageRefInc page
  else return ()

/-- `shmem_get_entry`. -/
def shmemGetEntry (m addr : ℕ) (create : Bool) : MemM (Option Ptep) := do
  let s ← get
  assert (addr < (s.shmem m).len)
  let addr := roundDown addr pgSize
  match ← getShmn m addr create with
  | none => return none
  | some n => do
    let p : Ptep := (n.entry, (addr - n.start) / pgSize)
    fillEntry p create
    return some p

/-- The new reference of `shmem_insert_entry`. -/
def refEntry : Pte → MemM Unit
  | .page f _ => pageRefInc f
  | .none => return ()

/-- `shmem_insert_entry`. -/
def shmemInsertEntry (m addr : ℕ) (entry : Pte) : MemM Unit := do
  match ← shmemGetEntry m addr true with
  | none => throw .noMem
  | some p => do
    shmemRemoveEntryPte p
    refEntry entry
    setPte p entry

end Ucore.Vm
