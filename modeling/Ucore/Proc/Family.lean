import Ucore.Lib.Outcome
import Ucore.Lib.Runs

/-!
# The family of processes

The links between the structures of processes in `process/proc.c`: parents and chains of
siblings, thread groups, and the list of all processes, under `do_fork`, `__do_exit` and
`do_wait`. A process is the number of its structure; every access asks whether the structure is
allocated. What these functions do beside (memory, files, wake-ups, process ids) is left out.
`do_exit` for a group marks the other threads, which then exit one by one as any thread does, and
`do_linux_waitpid` differs from `do_wait` only in what it returns.
-/

namespace Ucore.Family

open Kern

/-- The links of `struct proc_struct`; the pointers are `none` for `NULL`. -/
structure Task where
  /-- The state is `PROC_ZOMBIE`. -/
  zombie : Bool
  parent : Option ℕ
  cptr : Option ℕ
  optr : Option ℕ
  yptr : Option ℕ
  /-- The links of `thread_group`. -/
  nextThread : ℕ
  prevThread : ℕ
  deriving DecidableEq, Repr

/-- All structures by number, those that are allocated, and the globals of `proc.c`. -/
structure Table where
  task : ℕ → Task
  allocated : List ℕ
  procList : List ℕ
  nrProcess : ℕ

def idleproc : ℕ := 0

def initproc : ℕ := 1

/-- `MAX_PROCESS`. -/
def maxProcess : ℕ := 4096

/-- Accesses that the source never checks. -/
inductive Access where
  | null
  | dangling
  deriving DecidableEq, Repr

abbrev FamM := Kern Access Table

def Table.setTask (s : Table) (p : ℕ) (t : Task) : Table :=
  { s with task := Function.update s.task p t }

/-- Read the structure of a process. -/
def read (p : ℕ) : FamM Task := fun s =>
  if p ∈ s.allocated then .done (s.task p) s else .fail .dangling s

/-- Write fields of the structure of a process. -/
def write (p : ℕ) (f : Task → Task) : FamM Unit := fun s =>
  if p ∈ s.allocated then .done () (s.setTask p (f (s.task p))) else .fail .dangling s

/-- Go through a pointer. -/
def follow : Option ℕ → FamM ℕ
  | none => throw .null
  | some p => return p

/-- The assignment of `yptr` through a pointer that may be `NULL`. -/
def setYounger (y : Option ℕ) : Option ℕ → FamM Unit
  | none => return ()
  | some o => write o fun t => { t with yptr := y }

/-! ## Siblings -/

/-- `set_links`. -/
def setLinks (p : ℕ) : FamM Unit := do
  modify fun s => { s with procList := p :: s.procList }
  write p fun t => { t with yptr := none }
  let t ← read p
  let parent ← follow t.parent
  let q ← read parent
  write p fun t => { t with optr := q.cptr }
  setYounger (some p) q.cptr
  write parent fun t => { t with cptr := some p }
  modify fun s => { s with nrProcess := s.nrProcess + 1 }

/-- The last test of `remove_links`. -/
def setOlder (t : Task) : Option ℕ → FamM Unit
  | none => do
    let parent ← follow t.parent
    write parent fun q => { q with cptr := t.optr }
  | some y => write y fun u => { u with optr := t.optr }

/-- `remove_links`. -/
def removeLinks (p : ℕ) : FamM Unit := do
  modify fun s => { s with procList := s.procList.erase p }
  let t ← read p
  setYounger t.yptr t.optr
  let t ← read p
  setOlder t t.yptr
  modify fun s => { s with nrProcess := s.nrProcess - 1 }

/-! ## Threads -/

/-- `list_add_before` for the links of a thread group. -/
def addThread (cur n : ℕ) : FamM Unit := do
  let t ← read cur
  write cur fun t => { t with prevThread := n }
  write t.prevThread fun t => { t with nextThread := n }
  write n fun u => { u with nextThread := cur, prevThread := t.prevThread }

/-- `de_thread`. -/
def deThread (p : ℕ) : FamM Unit := do
  let t ← read p
  if t.nextThread = p then return ()
  else do
    write t.prevThread fun u => { u with nextThread := t.nextThread }
    write t.nextThread fun u => { u with prevThread := t.prevThread }
    write p fun u => { u with nextThread := p, prevThread := p }

/-! ## Fork, exit and wait -/

/-- What `alloc_proc` and `do_fork` write into a new structure. -/
def newTask (cur n : ℕ) : Task := ⟨false, some cur, none, none, none, n, n⟩

/-- `do_fork` with memory for everything; `n` is the answer of `kmalloc`. -/
def doFork (cur n : ℕ) (thread : Bool) : FamM Bool := do
  let count ← gets Table.nrProcess
  if maxProcess ≤ count then return false
  else do
    modify fun s => { s.setTask n (newTask cur n) with allocated := n :: s.allocated }
    setLinks n
    if thread then do
      addThread cur n
      return true
    else return true

/-- The loop of `__do_exit` that gives the children to another process. -/
def adopt (cur par : ℕ) : ℕ → FamM Unit
  | 0 => stop .running
  | fuel + 1 => do
    let c ← read cur
    match c.cptr with
    | none => return ()
    | some p => do
      let t ← read p
      write cur fun u => { u with cptr := t.optr }
      write p fun u => { u with yptr := none }
      let q ← read par
      write p fun u => { u with optr := q.cptr }
      setYounger (some p) q.cptr
      write p fun u => { u with parent := some par }
      write par fun u => { u with cptr := some p }
      adopt cur par fuel

/-- Who gets the children of a thread that exits. -/
def heir (s : Table) (cur : ℕ) : ℕ :=
  if (s.task cur).nextThread = cur then initproc else (s.task cur).nextThread

/-- `__do_exit`. -/
def doExit (cur : ℕ) : FamM Unit := do
  assert (cur ≠ idleproc)
  assert (cur ≠ initproc)
  write cur fun t => { t with zombie := true }
  let par ← gets fun s => heir s cur
  deThread cur
  let count ← gets Table.nrProcess
  adopt cur par (count + 1)

/-- What `do_wait` finds. -/
inductive WaitScan where
  | nobody
  /-- There are children, all alive. -/
  | kid
  | dead (p : ℕ)
  deriving DecidableEq, Repr

/-- The loop of `do_wait` for one child: is its parent in the group of `cur`? -/
def scanParents (cur z : ℕ) : ℕ → ℕ → FamM WaitScan
  | 0, _ => stop .running
  | fuel + 1, cproc => do
    let t ← read z
    if t.parent = some cproc then return if t.zombie then .dead z else .kid
    else do
      let c ← read cproc
      if c.nextThread = cur then return .nobody
      else scanParents cur z fuel c.nextThread

/-- The inner loop of `do_wait` for any child. -/
def scanKids : ℕ → Option ℕ → WaitScan → FamM WaitScan
  | 0, _, _ => stop .running
  | _ + 1, none, found => return found
  | fuel + 1, some p, _ => do
    let t ← read p
    if t.zombie then return .dead p
    else scanKids fuel t.optr .kid

/-- The loop of `do_wait` for any child. -/
def scanGroup (cur fuel : ℕ) : ℕ → ℕ → WaitScan → FamM WaitScan
  | 0, _, _ => stop .running
  | turns + 1, cproc, found => do
    let c ← read cproc
    match ← scanKids fuel c.cptr found with
    | .dead p => return .dead p
    | found =>
      if c.nextThread = cur then return found
      else scanGroup cur fuel turns c.nextThread found

/-- The end of `do_wait` for a child that has exited. -/
def reap (p : ℕ) : FamM Unit := do
  assert (p ≠ idleproc)
  assert (p ≠ initproc)
  removeLinks p
  modify fun s => { s with allocated := s.allocated.erase p }

/-- The search of `do_wait`; `target` is the process with the given id, if one was given. -/
def scan (cur : ℕ) (target : Option ℕ) : FamM WaitScan := do
  let count ← gets Table.nrProcess
  let list ← gets Table.procList
  match target with
  | none => scanGroup cur (count + 1) (count + 1) cur .nobody
  | some z => if z ∈ list then scanParents cur z (count + 1) cur else return .nobody

/-- `do_wait` up to its return or its sleep. -/
def doWait (cur : ℕ) (target : Option ℕ) : FamM WaitScan := do
  match ← scan cur target with
  | .dead p => do
    reap p
    return .dead p
  | found => return found

/-! ## The system -/

/-- The steps. -/
inductive FamilyCall where
  | fork (cur n : ℕ) (thread : Bool)
  | exit (cur : ℕ)
  | wait (cur : ℕ) (target : Option ℕ)
  deriving DecidableEq, Repr

/-- A process that can run. -/
def Table.Alive (s : Table) (p : ℕ) : Prop := p ∈ s.allocated ∧ (s.task p).zombie = false

instance (s : Table) (p : ℕ) : Decidable (s.Alive p) :=
  inferInstanceAs (Decidable (p ∈ s.allocated ∧ (s.task p).zombie = false))

/-- One step of a process that can run; `kmalloc` gives out what is not allocated. -/
def Step (s : Table) : FamilyCall → Table → Prop
  | .fork cur n thread, s' => s.Alive cur ∧ n ∉ s.allocated ∧
      ∃ ok, doFork cur n thread s = .done ok s'
  | .exit cur, s' => s.Alive cur ∧ doExit cur s = .done () s'
  | .wait cur target, s' => s.Alive cur ∧ ∃ found, doWait cur target s = .done found s'

/-- After `proc_init`: `idleproc` and its child `initproc`. -/
def boot : Table where
  task := fun p => if p = idleproc then ⟨false, none, some initproc, none, none, 0, 0⟩
    else ⟨false, some idleproc, none, none, none, p, p⟩
  allocated := [initproc, idleproc]
  procList := [initproc]
  nrProcess := 2

end Ucore.Family
