import Mathlib.Algebra.Group.Int.Defs
import Ucore.Lib.Runs
import Ucore.Sync.Sched

/-!
# Run queues

The scheduling core of `schedule/sched.c` on one CPU with both scheduling classes, `sched_RR.c` and
`sched_MLFQ.c`, and the parts of `do_fork`, `__do_exit` and `do_wait` that the scheduler sees. A
process is the number of its structure, a run queue its place in `__rq`. The assertions on the
links of a process return an error here, so that it can be said that they never fail; the other
assertions stop the kernel. Statistics (`runs`, `sched_info_*`) are left out, and the timers that
expire at a tick are chosen by the run.
-/

namespace Ucore.RunQueue

open Kern

open Sync (ProcState WaitState Interruptible wtSignal)

/-- What `struct proc_struct` tells the scheduler. -/
structure Proc where
  state : ProcState
  waitState : WaitState
  pid : ℤ
  needResched : Bool
  /-- The queue it was put on last; `none` for `NULL`. -/
  rq : Option ℕ
  timeSlice : ℤ
  deriving DecidableEq, Repr

/-- `struct run_queue`, with the processes of `run_list` from its head on. -/
structure Queue where
  runList : List ℕ
  procNum : ℕ
  maxTimeSlice : ℤ
  deriving DecidableEq, Repr

/-- Structures by number, those that are allocated, `__rq`, and `current`. -/
structure Sys where
  proc : ℕ → Proc
  allocated : List ℕ
  queue : ℕ → Queue
  current : ℕ

def idleproc : ℕ := 0

def initproc : ℕ := 1

def lcpuCount : ℤ := 1

/-- The length of `__rq`. -/
def numQueues : ℕ := 4

/-- `list_next` on the ring of queues that `sched_init` builds. -/
def rqNext (rq : ℕ) : ℕ := if rq + 1 = numQueues then 0 else rq + 1

/-- The assertions on `run_link` and `rq` that could fail. -/
inductive LinkError where
  | linked
  | unlinked
  | otherQueue
  | noQueue
  deriving DecidableEq, Repr

abbrev SchedM := Kern LinkError Sys

def Sys.setProc (s : Sys) (p : ℕ) (t : Proc) : Sys :=
  { s with proc := Function.update s.proc p t }

def Sys.setQueue (s : Sys) (rq : ℕ) (q : Queue) : Sys :=
  { s with queue := Function.update s.queue rq q }

/-- The negation of `list_empty(&(proc->run_link))`. -/
def Sys.Linked (s : Sys) (p : ℕ) : Prop := ∃ rq < numQueues, p ∈ (s.queue rq).runList

instance (s : Sys) (p : ℕ) : Decidable (s.Linked p) :=
  inferInstanceAs (Decidable (∃ rq < numQueues, p ∈ (s.queue rq).runList))

def modifyProc (p : ℕ) (f : Proc → Proc) : SchedM Unit :=
  modify fun s => s.setProc p (f (s.proc p))

def modifyQueue (rq : ℕ) (f : Queue → Queue) : SchedM Unit :=
  modify fun s => s.setQueue rq (f (s.queue rq))

/-- An assertion about links. -/
def assertLink (e : LinkError) (test : Sys → Prop) [DecidablePred test] : SchedM Unit := do
  let s ← gets id
  if test s then pure () else throw e

/-- `list_del_init(&(proc->run_link))`, on whatever list the process is. -/
def delLink (p : ℕ) : SchedM Unit :=
  modify fun s =>
    { s with queue := fun rq => { s.queue rq with runList := (s.queue rq).runList.erase p } }

/-! ## The round-robin class -/

/-- `RR_enqueue`. -/
def rrEnqueue (rq p : ℕ) : SchedM Unit := do
  assertLink .linked fun s => ¬s.Linked p
  modifyQueue rq fun q => { q with runList := q.runList ++ [p] }
  let q ← gets fun s => s.queue rq
  modifyProc p fun t => if t.timeSlice = 0 ∨ q.maxTimeSlice < t.timeSlice
    then { t with timeSlice := q.maxTimeSlice } else t
  modifyProc p fun t => { t with rq := some rq }
  modifyQueue rq fun q => { q with procNum := q.procNum + 1 }

/-- `RR_dequeue`. -/
def rrDequeue (rq p : ℕ) : SchedM Unit := do
  assertLink .unlinked fun s => s.Linked p
  assertLink .otherQueue fun s => (s.proc p).rq = some rq
  delLink p
  modifyQueue rq fun q => { q with procNum := q.procNum - 1 }

/-- `RR_pick_next`. -/
def rrPickNext (rq : ℕ) : SchedM (Option ℕ) := gets fun s => (s.queue rq).runList.head?

/-- `RR_proc_tick`, which does not look at the queue. -/
def rrProcTick (_rq : Option ℕ) (p : ℕ) : SchedM Unit := do
  modifyProc p fun t => if 0 < t.timeSlice then { t with timeSlice := t.timeSlice - 1 } else t
  modifyProc p fun t => if t.timeSlice = 0 then { t with needResched := true } else t

/-! ## The multi-level feedback queue class -/

/-- The queue that `MLFQ_enqueue` chooses: a process that has used up its slice goes down one
level, if there is one. -/
def mlfqChoose (rq : ℕ) (t : Proc) : ℕ :=
  match t.rq with
  | none => rq
  | some old =>
    if t.timeSlice = 0 then if rqNext old = rq then old else rqNext old else rq

/-- `MLFQ_enqueue`. -/
def mlfqEnqueue (rq p : ℕ) : SchedM Unit := do
  assertLink .linked fun s => ¬s.Linked p
  let t ← gets fun s => s.proc p
  rrEnqueue (mlfqChoose rq t) p

/-- `MLFQ_dequeue`. -/
def mlfqDequeue (_rq p : ℕ) : SchedM Unit := do
  assertLink .unlinked fun s => s.Linked p
  let t ← gets fun s => s.proc p
  match t.rq with
  | none => throw .noQueue
  | some old => rrDequeue old p

/-- The loop of `MLFQ_pick_next` over the ring, as the list of its queues from the head on. -/
def mlfqPickFrom : List ℕ → SchedM (Option ℕ)
  | [] => return none
  | rq :: rest => do
    match ← rrPickNext rq with
    | some p => return some p
    | none => mlfqPickFrom rest

/-- `MLFQ_pick_next`, called with the head of the ring. -/
def mlfqPickNext (_rq : ℕ) : SchedM (Option ℕ) := mlfqPickFrom (List.range numQueues)

/-- `MLFQ_proc_tick`. -/
def mlfqProcTick (_rq p : ℕ) : SchedM Unit := do
  let t ← gets fun s => s.proc p
  rrProcTick t.rq p

/-! ## The scheduler -/

/-- `struct sched_class`. -/
structure SchedClass where
  enqueue : ℕ → ℕ → SchedM Unit
  dequeue : ℕ → ℕ → SchedM Unit
  pickNext : ℕ → SchedM (Option ℕ)
  procTick : ℕ → ℕ → SchedM Unit

/-- `RR_sched_class`. -/
def rrSchedClass : SchedClass := ⟨rrEnqueue, rrDequeue, rrPickNext, fun rq => rrProcTick (some rq)⟩

/-- `MLFQ_sched_class`. -/
def mlfqSchedClass : SchedClass := ⟨mlfqEnqueue, mlfqDequeue, mlfqPickNext, mlfqProcTick⟩

/-- The class that `sched_init` chooses; `mlfq` is `UCONFIG_SCHEDULER_MLFQ`. -/
def schedClass (mlfq : Bool) : SchedClass := if mlfq then mlfqSchedClass else rrSchedClass

variable (cls : SchedClass)

/-- `sched_class_enqueue`; `rq` is the first queue. -/
def schedClassEnqueue (p : ℕ) : SchedM Unit := if p ≠ idleproc then cls.enqueue 0 p else return ()

/-- `sched_class_proc_tick`. -/
def schedClassProcTick (p : ℕ) : SchedM Unit :=
  if p ≠ idleproc then cls.procTick 0 p else modifyProc p fun t => { t with needResched := true }

/-- `stop_proc`. -/
def stopProc (p : ℕ) (wait : WaitState) : SchedM Unit := do
  modifyProc p fun t => { t with state := .sleeping, waitState := wait }
  let s ← gets id
  if s.Linked p then cls.dequeue 0 p else return ()

/-- `wakeup_proc`. -/
def wakeupProc (p : ℕ) : SchedM Unit := do
  let t ← gets fun s => s.proc p
  assert (t.state ≠ .zombie)
  if t.state ≠ .runnable then do
    modifyProc p fun t => { t with state := .runnable, waitState := 0 }
    let cur ← gets Sys.current
    if p ≠ cur then do
      assert (lcpuCount ≤ t.pid)
      schedClassEnqueue cls p
    else return ()
  else return ()

/-- A process becomes runnable in `try_to_wakeup`. -/
def makeRunnable (p : ℕ) : SchedM Unit := do
  modifyProc p fun t => { t with state := .runnable, waitState := 0 }
  let cur ← gets Sys.current
  if p ≠ cur then schedClassEnqueue cls p else return ()

/-- The body of the loop of `try_to_wakeup`. -/
def wakeThread (next : ℕ) : SchedM Unit := do
  let t ← gets fun s => s.proc next
  if t.state = .sleeping ∧ t.waitState = wtSignal then makeRunnable cls next else return ()

/-- The loop of `try_to_wakeup` over the other threads of the group. -/
def wakeThreads : List ℕ → SchedM Unit
  | [] => return ()
  | next :: rest => do
    wakeThread cls next
    wakeThreads rest

/-- The process itself in `try_to_wakeup`, and the value to return. -/
def wakeTarget (p : ℕ) : SchedM Bool := do
  let t ← gets fun s => s.proc p
  if t.state ≠ .runnable then do
    makeRunnable cls p
    return true
  else return false

/-- `try_to_wakeup`; `others` are the other threads of the group, as `next_thread` gives them. -/
def tryToWakeup (p : ℕ) (others : List ℕ) : SchedM Bool := do
  let t ← gets fun s => s.proc p
  assert (t.state ≠ .zombie)
  let ret ← wakeTarget cls p
  wakeThreads cls others
  return ret

/-- The first half of `schedule`: `current` is put back if it can go on. -/
def requeue : SchedM Unit := do
  let cur ← gets Sys.current
  modifyProc cur fun t => { t with needResched := false }
  let t ← gets fun s => s.proc cur
  if t.state = .runnable ∧ lcpuCount ≤ t.pid then schedClassEnqueue cls cur else return ()

/-- The choice of the next process in `schedule`. -/
def takeNext : SchedM ℕ := do
  match ← cls.pickNext 0 with
  | none => return idleproc
  | some next => do
    cls.dequeue 0 next
    return next

/-- `schedule`, with `proc_run`. -/
def schedule : SchedM Unit := do
  requeue cls
  let next ← takeNext cls
  modify fun s => { s with current := next }

/-- The timers of processes that expire in `run_timer_list`. -/
def expireTimers : List ℕ → SchedM Unit
  | [] => return ()
  | p :: rest => do
    let t ← gets fun s => s.proc p
    assert (t.waitState ≠ 0 → Interruptible t.waitState)
    wakeupProc cls p
    expireTimers rest

/-- `run_timer_list`. -/
def runTimerList (expired : List ℕ) : SchedM Unit := do
  expireTimers cls expired
  let cur ← gets Sys.current
  schedClassProcTick cls cur

/-! ## Processes come and go -/

/-- What `alloc_proc` writes. -/
def newProc : Proc := ⟨.uninit, 0, -1, false, none, 0⟩

/-- `do_fork` gives the new process half of the time of `current`. -/
def splitSlice (n : ℕ) : SchedM Unit := do
  let cur ← gets Sys.current
  let t ← gets fun s => s.proc cur
  assert (t.waitState = 0)
  assert (0 ≤ t.timeSlice)
  modifyProc n fun u => { u with timeSlice := t.timeSlice.tdiv 2 }
  modifyProc cur fun u => { u with timeSlice := u.timeSlice - t.timeSlice.tdiv 2 }

/-- The first part of `do_fork`, with `n` the answer of `kmalloc`. -/
def doFork (n : ℕ) : SchedM Unit := do
  modify fun s => { s.setProc n newProc with allocated := n :: s.allocated }
  splitSlice n

/-- `__do_exit` up to its call of `schedule`. -/
def doExit : SchedM Unit := do
  let cur ← gets Sys.current
  assert (cur ≠ idleproc)
  assert (cur ≠ initproc)
  modifyProc cur fun t => { t with state := .zombie }

/-- `kfree` of a structure. -/
def freeProc (p : ℕ) : SchedM Unit :=
  modify fun s => { s with allocated := s.allocated.erase p }

/-- What can happen between two points where the CPU is given up. -/
inductive Call where
  | wakeup (p : ℕ)
  | tryToWakeup (p : ℕ) (others : List ℕ)
  | stop (p : ℕ) (wait : WaitState)
  | schedule
  | tick (expired : List ℕ)
  /-- `current` sets its `state` and `wait_state` before it calls `schedule`. -/
  | sleep (wait : WaitState)
  /-- `do_yield`. -/
  | yield
  | fork (n : ℕ)
  /-- `do_fork` gives the new process the id that `get_pid` found. -/
  | hash (n : ℕ) (pid : ℤ)
  /-- `do_fork` fails and frees the new structure. -/
  | abandon (n : ℕ)
  | exit
  /-- `do_wait` frees a process that has exited. -/
  | reap (p : ℕ)
  deriving DecidableEq, Repr

def Call.code : Call → SchedM Unit
  | .wakeup p => wakeupProc cls p
  | .tryToWakeup p others => do
    let _ ← RunQueue.tryToWakeup cls p others
    return ()
  | .stop p wait => stopProc cls p wait
  | .schedule => RunQueue.schedule cls
  | .tick expired => runTimerList cls expired
  | .sleep wait => do
    let cur ← gets Sys.current
    modifyProc cur fun t => { t with state := .sleeping, waitState := wait }
  | .yield => do
    let cur ← gets Sys.current
    modifyProc cur fun t => { t with needResched := true }
  | .fork n => doFork n
  | .hash n pid => modifyProc n fun t => { t with pid := pid }
  | .abandon n => freeProc n
  | .exit => doExit
  | .reap p => freeProc p

/-- A process that others can find: it has its id. -/
def Sys.Known (s : Sys) (p : ℕ) : Prop :=
  p ∈ s.allocated ∧ (p = idleproc ∨ lcpuCount ≤ (s.proc p).pid)

/-- When each call can be made: on processes that can be found, on structures that `kmalloc` may
give out or that are being set up, and on what has exited and does not run any more. -/
def Enabled (s : Sys) : Call → Prop
  | .wakeup p => s.Known p
  | .tryToWakeup p others => s.Known p ∧ ∀ q ∈ others, s.Known q
  | .stop p _ => s.Known p
  | .schedule => True
  | .tick expired => ∀ p ∈ expired, s.Known p
  | .sleep _ => True
  | .yield => True
  | .fork n => n ∉ s.allocated
  | .hash n pid => n ∈ s.allocated ∧ (s.proc n).pid = -1 ∧ lcpuCount ≤ pid
  | .abandon n => n ∈ s.allocated ∧ (s.proc n).state = .uninit ∧ n ≠ s.current ∧ n ≠ idleproc
  | .exit => True
  | .reap p => p ∈ s.allocated ∧ (s.proc p).state = .zombie ∧ p ≠ s.current ∧ p ≠ idleproc

/-- One step. -/
def Step (s : Sys) (call : Call) (s' : Sys) : Prop :=
  Enabled s call ∧ call.code cls s = .done () s'

instance (s : Sys) (p : ℕ) : Decidable (s.Known p) :=
  inferInstanceAs (Decidable (p ∈ s.allocated ∧ (p = idleproc ∨ lcpuCount ≤ (s.proc p).pid)))

instance (s : Sys) : (call : Call) → Decidable (Enabled s call)
  | .wakeup p => inferInstanceAs (Decidable (s.Known p))
  | .tryToWakeup p others => inferInstanceAs (Decidable (s.Known p ∧ ∀ q ∈ others, s.Known q))
  | .stop p _ => inferInstanceAs (Decidable (s.Known p))
  | .schedule => inferInstanceAs (Decidable True)
  | .tick expired => inferInstanceAs (Decidable (∀ p ∈ expired, s.Known p))
  | .sleep _ => inferInstanceAs (Decidable True)
  | .yield => inferInstanceAs (Decidable True)
  | .fork n => inferInstanceAs (Decidable (n ∉ s.allocated))
  | .hash n pid =>
    inferInstanceAs (Decidable (n ∈ s.allocated ∧ (s.proc n).pid = -1 ∧ lcpuCount ≤ pid))
  | .abandon n => inferInstanceAs (Decidable
      (n ∈ s.allocated ∧ (s.proc n).state = .uninit ∧ n ≠ s.current ∧ n ≠ idleproc))
  | .exit => inferInstanceAs (Decidable True)
  | .reap p => inferInstanceAs (Decidable
      (p ∈ s.allocated ∧ (s.proc p).state = .zombie ∧ p ≠ s.current ∧ p ≠ idleproc))

/-- The state after a call, if it can be made and returns. -/
def exec (call : Call) (s : Sys) : Option Sys :=
  if Enabled s call then
    match call.code cls s with
    | .done _ s' => some s'
    | _ => none
  else none

/-- After `sched_init` and the first lines of `proc_init`: only `idleproc`, which runs. -/
def boot : Sys where
  proc := fun p => if p = idleproc then ⟨.runnable, 0, 0, true, none, 0⟩ else newProc
  allocated := [idleproc]
  queue := fun rq => ⟨[], 0, 8 * 2 ^ rq⟩
  current := idleproc

end Ucore.RunQueue
