import Ucore.Lib.Links
import Ucore.Lib.Outcome

/-!
# Sleeping, waking and timers

The part of `schedule/sched.c` that other modules sleep and wake by: the states of processes,
`wakeup_proc` and `stop_proc`, and the list of timers with `add_timer`, `del_timer` and
`run_timer_list`. The choice of the next process is left to the runs over this model: any
runnable process may go on. Each function runs with interrupts off and is one step.

Timers of processes live on their stacks; timers of drivers come from `kmalloc` and are freed
by `run_timer_list`. Every access to a timer asks whether it was freed.
-/

namespace Ucore.Sync

open Kern Function

/-- `enum proc_state`. -/
inductive ProcState where
  | uninit
  | sleeping
  | runnable
  | zombie
  deriving DecidableEq, Repr

/-- The values of `wait_state`. -/
abbrev WaitState := BitVec 32

/-- `WT_INTERRUPTED`. -/
def wtInterrupted : WaitState := 0x80000000

/-- `WT_TIMER`. -/
def wtTimer : WaitState := 0x00000002 ||| wtInterrupted

/-- `WT_KSEM`. -/
def wtKsem : WaitState := 0x00000100

/-- `WT_USEM`. -/
def wtUsem : WaitState := 0x00000101 ||| wtInterrupted

/-- `WT_MBOX_SEND`. -/
def wtMboxSend : WaitState := 0x00000120 ||| wtInterrupted

/-- `WT_MBOX_RECV`. -/
def wtMboxRecv : WaitState := 0x00000121 ||| wtInterrupted

/-- `WT_SIGNAL`. -/
def wtSignal : WaitState := 0x00000400 ||| wtInterrupted

/-- The test `wait_state & WT_INTERRUPTED`. -/
def Interruptible (w : WaitState) : Prop := w &&& wtInterrupted ≠ 0

instance (w : WaitState) : Decidable (Interruptible w) :=
  inferInstanceAs (Decidable (w &&& wtInterrupted ≠ 0))

/-- What `struct proc_struct` says about sleep. -/
structure Proc where
  state : ProcState
  waitState : WaitState
  deriving DecidableEq, Repr

/-- `struct __ucore_linux_timer`; pointers are `none` for `NULL`. -/
structure LinuxTimer where
  linuxTimer : Option ℕ
  data : ℕ
  function : Option ℕ
  deriving DecidableEq, Repr

/-- `timer_t`; its link is the place in the list. -/
structure Timer where
  expires : ℕ
  proc : Option ℕ
  linuxTimer : LinuxTimer
  deriving DecidableEq, Repr

/-- What an observer sees of the timer interrupt. -/
inductive Event where
  /-- A call of `wakeup_proc`. -/
  | wakeup (p : ℕ)
  /-- A call of a driver's function with its datum. -/
  | call (function data : ℕ)
  /-- A timer given to `kfree`. -/
  | free (t : ℕ)
  deriving DecidableEq, Repr

/-- Processes and timers by number, and `timer_list` from its head on. -/
structure Sched where
  proc : ℕ → Proc
  timer : ℕ → Timer
  timerList : List ℕ
  /-- The timers that were given to `kfree`. -/
  freed : List ℕ
  ticks : ℕ
  /-- What was observed so far. -/
  trace : List Event

/-- Accesses that the source never checks. -/
inductive Fault where
  /-- A read of a timer after `kfree`. -/
  | useAfterFree
  /-- A second `kfree` of the same timer. -/
  | doubleFree
  /-- A timer without a process is taken for a process's timer. -/
  | nullAccess
  deriving DecidableEq, Repr

abbrev SchedM := Kern Fault Sched

namespace Sched

/-- The field `expires` of a timer. -/
def expires (s : Sched) (t : ℕ) : ℕ := (s.timer t).expires

def setExpires (s : Sched) (t e : ℕ) : Sched :=
  { s with timer := update s.timer t { s.timer t with expires := e } }

/-- The fields that `timer_init` sets. -/
def initTimer (s : Sched) (t : ℕ) (proc : Option ℕ) (expires : ℕ) : Sched :=
  { s with
    timer := update s.timer t ⟨expires, proc, { (s.timer t).linuxTimer with linuxTimer := none }⟩ }

def setList (s : Sched) (l : List ℕ) : Sched := { s with timerList := l }

def setProc (s : Sched) (p : ℕ) (v : Proc) : Sched :=
  { s with proc := update s.proc p v }

def record (s : Sched) (e : Event) : Sched := { s with trace := s.trace ++ [e] }

/-- The body of `wakeup_proc`: a process that is runnable already is only warned about. -/
def wake (s : Sched) (p : ℕ) : Sched :=
  if (s.proc p).state = .runnable then s else s.setProc p ⟨.runnable, 0⟩

/-- A process sets its own `state` and `wait_state` before it calls `schedule`. -/
def sleep (s : Sched) (p : ℕ) (w : WaitState) : Sched := s.setProc p ⟨.sleeping, w⟩

end Sched

/-! ## Processes -/

/-- `wakeup_proc`. -/
def wakeupProc (p : ℕ) : SchedM Unit := do
  let state ← gets fun s => (s.proc p).state
  assert (state ≠ .zombie)
  modify fun s => (s.wake p).record (.wakeup p)

/-- `stop_proc`. -/
def stopProc (p : ℕ) (w : WaitState) : SchedM Unit := modify fun s => s.sleep p w

/-- The wake-up of `__do_kill`. -/
def killWakeup (p : ℕ) : SchedM Unit := do
  let waitState ← gets fun s => (s.proc p).waitState
  if Interruptible waitState then wakeupProc p else return ()

/-! ## Timers -/

/-- An access through a pointer to a timer. -/
def getTimer (t : ℕ) : SchedM Timer := fun s =>
  if t ∈ s.freed then .fail .useAfterFree s else .done (s.timer t) s

/-- `timer_init`. -/
def timerInit (t : ℕ) (proc : Option ℕ) (expires : ℕ) : SchedM Unit :=
  modify fun s => s.initTimer t proc expires

/-- What a call with a time-out keeps across its sleep. -/
structure WaitCall where
  timeout : ℕ
  savedTicks : ℕ
  deriving DecidableEq, Repr

/-- The timer that `ipc_timer_init` returns: that of the process, or `NULL`. -/
def WaitCall.timer (c : WaitCall) (p : ℕ) : Option ℕ := if c.timeout ≠ 0 then some p else none

/-- `__ucore_is_linux_timer`. -/
def Timer.isLinuxTimer (timer : Timer) : Bool := timer.linuxTimer.linuxTimer.isSome

/-- The loop of `add_timer`, between the timers that were passed and those that were not. -/
def placeTimer (t : ℕ) : List ℕ → List ℕ → SchedM Unit
  | before, [] => modify fun s => s.setList (before ++ [t])
  | before, next :: rest => do
    let timer ← getTimer t
    let nextTimer ← getTimer next
    if timer.expires < nextTimer.expires then do
      modify fun s => s.setExpires next (nextTimer.expires - timer.expires)
      modify fun s => s.setList (before ++ t :: next :: rest)
    else do
      modify fun s => s.setExpires t (timer.expires - nextTimer.expires)
      placeTimer t (before ++ [next]) rest

/-- `add_timer`. -/
def addTimer (t : ℕ) : SchedM Unit := do
  let timer ← getTimer t
  assert (0 < timer.expires ∧ timer.proc ≠ none)
  let list ← gets Sched.timerList
  assert (t ∉ list)
  placeTimer t [] list

/-- What `del_timer` gives to the next timer. -/
def passExpires (t expires : ℕ) : SchedM Unit := do
  match ← gets fun s => nextOf s.timerList (some t) with
  | none => return ()
  | some next => do
    let nextTimer ← getTimer next
    modify fun s => s.setExpires next (nextTimer.expires + expires)

/-- `list_del_init` on the link of a timer. -/
def unlinkTimer (t : ℕ) : SchedM Unit := modify fun s => s.setList (s.timerList.erase t)

/-- The part of `del_timer` for a timer that is queued. -/
def removeTimer (t expires : ℕ) : SchedM Unit :=
  if expires ≠ 0 then do
    passExpires t expires
    unlinkTimer t
  else unlinkTimer t

/-- `del_timer`. -/
def delTimer (t : ℕ) : SchedM Unit := do
  let timer ← getTimer t
  let list ← gets Sched.timerList
  if t ∈ list then removeTimer t timer.expires else return ()

/-- `kfree` of a timer. -/
def freeTimer (t : ℕ) : SchedM Unit := fun s =>
  if t ∈ s.freed then .fail .doubleFree s
  else .done () ({ s with freed := t :: s.freed }.record (.free t))

/-- `__ucore_add_timer`; `block` is the answer of `kmalloc`. -/
def ucoreAddTimer (block : Option ℕ) (linuxTimer expires data : ℕ) (function : Option ℕ) :
    SchedM Unit :=
  match block with
  | none => stop .assertion
  | some t => do
    modify fun s => { s with freed := s.freed.filter (· ≠ t) }
    timerInit t none expires
    modify fun s => { s with
      timer := update s.timer t
        { s.timer t with linuxTimer := ⟨some linuxTimer, data, function⟩ } }
    addTimer t

section

-- the functions of the drivers: any code
variable (driver : ℕ → ℕ → SchedM Unit)

/-- The call through `lt->function`, if it is not `NULL`. -/
def callDriver (timer : Timer) : SchedM Unit :=
  match timer.linuxTimer.function with
  | none => return ()
  | some f => do
    modify fun s => s.record (.call f timer.linuxTimer.data)
    driver f timer.linuxTimer.data

/-- The first branch of the loop of `run_timer_list`, up to its `continue`. -/
def fireLinuxTimer (t : ℕ) (timer : Timer) : SchedM Unit := do
  callDriver driver timer
  delTimer t
  freeTimer t

/-- The wake-up in the loop of `run_timer_list`. -/
def wakeOwner (timer : Timer) : SchedM Unit :=
  match timer.proc with
  | none => throw .nullAccess
  | some p => do
    let waitState ← gets fun s => (s.proc p).waitState
    assert (waitState = 0 ∨ Interruptible waitState)
    wakeupProc p

/-- The loop of `run_timer_list`: `t` is `timer` and `le` is the link, `none` for the list's
own. A driver's timer is not advanced: `continue` reads it again. -/
def expireTimers : ℕ → ℕ → Option ℕ → SchedM Unit
  | 0, _, _ => stop .running
  | fuel + 1, t, le => do
    let timer ← getTimer t
    if timer.expires = 0 then do
      let next ← gets fun s => nextOf s.timerList le
      if timer.isLinuxTimer then do
        fireLinuxTimer driver t timer
        expireTimers fuel t next
      else do
        wakeOwner timer
        delTimer t
        match next with
        | none => return ()
        | some u => expireTimers fuel u next
    else return ()

/-- `run_timer_list`, without the accounting of time slices. -/
def runTimerList : SchedM Unit := do
  let list ← gets Sched.timerList
  match list with
  | [] => return ()
  | t :: rest => do
    let timer ← getTimer t
    assert (timer.expires ≠ 0)
    modify fun s => s.setExpires t (timer.expires - 1)
    expireTimers driver (rest.length + 2) t (some t)

/-- The clock interrupt. -/
def clockTick : SchedM Unit := do
  modify fun s => { s with ticks := s.ticks + 1 }
  runTimerList driver

end

end Ucore.Sync
