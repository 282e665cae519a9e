import Ucore.Sync.TimerRuns

/-!
# Mailboxes

One mailbox of `sync/mbox.c` under `ipc_mbox_send`, `ipc_mbox_recv` and `ipc_mbox_free`. The
functions are cut at their calls of `schedule`, and `ipc_mbox_recv` also between `recv_msg` and
the copy to user memory, which may wait for the address space. What `load_msg` copied is a
message with a length; whether a copy succeeds is a choice of the environment.
-/

namespace Ucore.Sync

open Kern

/-- `enum mbox_state`. -/
inductive MboxState where
  | closed
  | opened
  | closing
  deriving DecidableEq, Repr

/-- `struct msg_msg`. -/
structure Msg where
  pid : ℕ
  bytes : ℕ
  deriving DecidableEq, Repr

/-- `struct msg_mbox`; the queues are lists of processes. -/
structure Mbox where
  inuse : ℕ
  state : MboxState
  maxSlots : ℕ
  slots : ℕ
  msgs : List Msg
  senders : List ℕ
  receivers : List ℕ

/-- The two wait queues of a mailbox. -/
inductive Side where
  | send
  | recv
  deriving DecidableEq, Repr

/-- The reason for which a process sleeps in a queue. -/
def Side.waitState : Side → WaitState
  | send => wtMboxSend
  | recv => wtMboxRecv

/-- A mailbox, the scheduler and the field `wakeup_flags` of every process's `wait_t`. -/
structure MboxSys where
  sched : Sched
  mbox : Mbox
  wakeupFlags : ℕ → WaitState

abbrev MboxM := Kern Fault MboxSys

def Mbox.queue (m : Mbox) : Side → List ℕ
  | .send => m.senders
  | .recv => m.receivers

def Mbox.setQueue (m : Mbox) (l : List ℕ) : Side → Mbox
  | .send => { m with senders := l }
  | .recv => { m with receivers := l }

namespace MboxSys

def setSched (s : MboxSys) (v : Sched) : MboxSys := { s with sched := v }

def setMbox (s : MboxSys) (m : Mbox) : MboxSys := { s with mbox := m }

def setFlags (s : MboxSys) (p : ℕ) (w : WaitState) : MboxSys :=
  { s with wakeupFlags := Function.update s.wakeupFlags p w }

def setQueue (s : MboxSys) (side : Side) (l : List ℕ) : MboxSys :=
  s.setMbox (s.mbox.setQueue l side)

end MboxSys

/-- A function of the scheduler. -/
def inSched {α : Type} (m : SchedM α) : MboxM α := m.zoom MboxSys.sched fun v s => s.setSched v

/-! ## Wait queues -/

/-- `wait_current_set`. -/
def mboxWaitSet (p : ℕ) (side : Side) : MboxM Unit :=
  modify fun s => ((s.setFlags p wtInterrupted).setSched
    (s.sched.sleep p side.waitState)).setQueue side (s.mbox.queue side ++ [p])

/-- `wait_current_del`. -/
def mboxWaitDel (p : ℕ) (side : Side) : MboxM Unit :=
  modify fun s => s.setQueue side ((s.mbox.queue side).erase p)

/-- `wakeup_wait` for an entry that is taken out of its queue. -/
def mboxWakeupWait (p : ℕ) (side : Side) (flags : WaitState) : MboxM Unit := do
  modify fun s => (s.setQueue side ((s.mbox.queue side).erase p)).setFlags p flags
  inSched (wakeupProc p)

/-- `wakeup_first`. -/
def wakeupFirst (side : Side) (flags : WaitState) : MboxM Unit := do
  match ← gets fun s => s.mbox.queue side with
  | [] => return ()
  | p :: _ => mboxWakeupWait p side flags

/-- `wakeup_queue` for entries that are taken out: all processes of the list, in turn. -/
def wakeupQueue (side : Side) (flags : WaitState) : List ℕ → MboxM Unit
  | [] => return ()
  | p :: l => do
    mboxWakeupWait p side flags
    wakeupQueue side flags l

/-! ## Messages -/

/-- `mbox_free`. -/
def mboxFree : MboxM Unit := do
  let m ← gets MboxSys.mbox
  assert (m.state = .closing ∧ m.inuse = 0)
  assert (m.msgs = [])
  assert (m.senders = [])
  assert (m.receivers = [])
  modify fun s => s.setMbox { m with state := .closed, maxSlots := 0, slots := 0 }

/-- `add_msg`. -/
def addMsg (msg : Msg) (append : Bool) : MboxM Unit := do
  let m ← gets MboxSys.mbox
  assert (m.state = .opened)
  modify fun s => s.setMbox { m with
    slots := m.slots + 1
    msgs := if append then m.msgs ++ [msg] else msg :: m.msgs }
  wakeupFirst .recv wtMboxRecv

/-- `pick_msg`; `none` is `-E_TOO_BIG`. -/
def pickMsg (maxBytes : ℕ) : MboxM (Option Msg) := do
  let m ← gets MboxSys.mbox
  assert (m.state = .opened ∧ 0 < m.slots)
  match m.msgs with
  | [] => stop .assertion
  | msg :: rest =>
    if maxBytes < msg.bytes then return none
    else do
      modify fun s => s.setMbox { m with slots := m.slots - 1, msgs := rest }
      wakeupFirst .send wtMboxSend
      return some msg

/-- The label `out` of `send_msg` and `recv_msg`. -/
def mboxOut (failed : Bool) : MboxM Unit := do
  modify fun s => s.setMbox { s.mbox with inuse := s.mbox.inuse - 1 }
  let m ← gets MboxSys.mbox
  if m.state ≠ .opened then do
    assert (failed = true ∧ m.state = .closing)
    if m.inuse = 0 then mboxFree else return ()
  else return ()

/-! ## Calls that may sleep -/

/-- `ipc_add_timer`. -/
def mboxAddTimer : Option ℕ → MboxM Unit
  | none => return ()
  | some t => inSched (addTimer t)

/-- `ipc_del_timer`. -/
def mboxDelTimer : Option ℕ → MboxM Unit
  | none => return ()
  | some t => inSched (delTimer t)

/-- The body of the loops in `send_msg` and `recv_msg` up to `schedule`. -/
def mboxSleep (p : ℕ) (side : Side) (timer : Option ℕ) : MboxM Unit := do
  let m ← gets MboxSys.mbox
  assert (m.state = .opened)
  mboxWaitSet p side
  mboxAddTimer timer

/-- What a part of `ipc_mbox_send` or `ipc_mbox_recv` ends with: the call of `schedule`, or a
return of `send_msg` or `recv_msg`. -/
inductive MboxResult where
  | asleep
  | sent
  | got (msg : Msg)
  | tooBig
  | interrupted
  deriving DecidableEq, Repr

/-- `send_msg` from the test of its loop on. -/
def sendLoop (p : ℕ) (msg : Msg) (timer : Option ℕ) : MboxM MboxResult := do
  let m ← gets MboxSys.mbox
  if m.maxSlots ≤ m.slots then do
    mboxSleep p .send timer
    return .asleep
  else do
    assert (m.state = .opened ∧ m.slots < m.maxSlots)
    addMsg msg true
    mboxOut false
    return .sent

/-- The end of `recv_msg`. -/
def recvPick (maxBytes : ℕ) : MboxM MboxResult := do
  match ← pickMsg maxBytes with
  | none => do
    wakeupFirst .recv wtMboxRecv
    mboxOut true
    return .tooBig
  | some msg => do
    mboxOut false
    return .got msg

/-- `recv_msg` from the test of its loop on. -/
def recvLoop (p maxBytes : ℕ) (timer : Option ℕ) : MboxM MboxResult := do
  let m ← gets MboxSys.mbox
  if m.slots = 0 then do
    mboxSleep p .recv timer
    return .asleep
  else do
    assert (m.state = .opened ∧ 0 < m.slots)
    recvPick maxBytes

/-- What a process wants from the mailbox. -/
inductive Want where
  | send (msg : Msg)
  | recv (maxBytes : ℕ)
  deriving DecidableEq, Repr

def Want.side : Want → Side
  | send _ => .send
  | recv _ => .recv

/-- The loop of `send_msg` or `recv_msg`. -/
def mboxLoop (p : ℕ) (timer : Option ℕ) : Want → MboxM MboxResult
  | .send msg => sendLoop p msg timer
  | .recv maxBytes => recvLoop p maxBytes timer

/-- `ipc_timer_init`; the timer of a process has the number of the process. -/
def mboxTimerInit (p timeout : ℕ) : MboxM (Option ℕ) :=
  if timeout ≠ 0 then do
    inSched (timerInit p (some p) timeout)
    return some p
  else return none

/-- `ipc_mbox_send` and `ipc_mbox_recv` from the second call of `get_mbox` on. -/
def mboxCall (p : ℕ) (want : Want) (timeout : ℕ) : MboxM MboxResult := do
  let timer ← mboxTimerInit p timeout
  modify fun s => s.setMbox { s.mbox with inuse := s.mbox.inuse + 1 }
  mboxLoop p timer want

/-- What follows the call of `schedule` in `send_msg` and `recv_msg`. -/
def mboxResume (p : ℕ) (want : Want) (timer : Option ℕ) : MboxM MboxResult := do
  mboxDelTimer timer
  mboxWaitDel p want.side
  let state ← gets fun s => s.mbox.state
  let flags ← gets fun s => s.wakeupFlags p
  if state ≠ .opened ∨ flags ≠ want.side.waitState then do
    mboxOut true
    return .interrupted
  else mboxLoop p timer want

/-- The end of `ipc_mbox_recv`: a message that could not be copied goes back to the head of the
queue, if the mailbox is open. -/
def putBack (msg : Msg) : MboxM Unit := do
  let state ← gets fun s => s.mbox.state
  if state = .opened then addMsg msg false else return ()

/-- `ipc_mbox_free`. -/
def ipcMboxFree : MboxM Unit := do
  modify fun s => s.setMbox { s.mbox with state := .closing, msgs := [] }
  let senders ← gets fun s => s.mbox.senders
  wakeupQueue .send wtInterrupted senders
  let receivers ← gets fun s => s.mbox.receivers
  wakeupQueue .recv wtInterrupted receivers
  let m ← gets MboxSys.mbox
  if m.inuse = 0 then mboxFree else return ()

/-- `MAX_MSG_SLOTS`. -/
def maxMsgSlots : ℕ := 0x1000

/-- `new_mbox` gives out a mailbox that is closed. -/
def newMbox (maxSlots : ℕ) : MboxM Unit :=
  modify fun s => s.setMbox { s.mbox with state := .opened, maxSlots := maxSlots }

/-! ## The system -/

/-- Where a process is. -/
inductive Phase where
  | idle
  /-- In `send_msg` or `recv_msg`, after `schedule` was called. -/
  | waiting (want : Want) (c : WaitCall)
  /-- In `ipc_mbox_recv`, before the copy to user memory. -/
  | copying (msg : Msg)
  /-- In `do_sleep`. -/
  | sleeping
  deriving DecidableEq, Repr

/-- The kernel's state and the places of the processes. -/
structure Mailbox where
  sys : MboxSys
  phase : ℕ → Phase

/-- The steps of the system; `call` and `resume` say what the part ends with. -/
inductive MboxCall where
  | call (p : ℕ) (want : Want) (timeout : ℕ) (result : MboxResult)
  | resume (p : ℕ) (result : MboxResult)
  /-- The copy to user memory ends, well or not. -/
  | finish (p : ℕ) (ok : Bool)
  | free
  | init (maxSlots : ℕ)
  | sleep (p time : ℕ)
  | wake (p : ℕ)
  | tick
  | kill (p : ℕ)

/-- `do_sleep` up to its call of `schedule`. -/
def doSleep (p time : ℕ) : SchedM Unit := do
  timerInit p (some p) time
  modify fun s => s.sleep p wtTimer
  addTimer p

namespace Mailbox

def proc (s : Mailbox) (p : ℕ) : Proc := s.sys.sched.proc p

/-- The place of a process after a part of its call. -/
def phaseAfter (want : Want) (c : WaitCall) : MboxResult → Phase
  | .asleep => .waiting want c
  | .got msg => .copying msg
  | _ => .idle

/-- The state after a step of one process. -/
def move (s : Mailbox) (p : ℕ) (sys : MboxSys) (ph : Phase) : Mailbox :=
  ⟨sys, Function.update s.phase p ph⟩

/-- One step: only a running process calls and goes on. -/
def Step (driver : ℕ → ℕ → SchedM Unit) (s : Mailbox) : MboxCall → Mailbox → Prop
  | .call p want timeout result, s' => (s.proc p).state = .runnable ∧ s.phase p = .idle ∧
      s.sys.mbox.state = .opened ∧ ∃ sys, mboxCall p want timeout s.sys = .done result sys ∧
        s' = s.move p sys (phaseAfter want ⟨timeout, s.sys.sched.ticks⟩ result)
  | .resume p result, s' => (s.proc p).state = .runnable ∧ ∃ want c, s.phase p = .waiting want c ∧
      ∃ sys, mboxResume p want (c.timer p) s.sys = .done result sys ∧
        s' = s.move p sys (phaseAfter want c result)
  | .finish p ok, s' => (s.proc p).state = .runnable ∧ ∃ msg, s.phase p = .copying msg ∧
      ∃ sys, (if ok then pure () else putBack msg) s.sys = .done () sys ∧ s' = s.move p sys .idle
  | .free, s' => s.sys.mbox.state = .opened ∧
      ∃ sys, ipcMboxFree s.sys = .done () sys ∧ s' = { s with sys := sys }
  | .init maxSlots, s' => s.sys.mbox.state = .closed ∧ 1 ≤ maxSlots ∧ maxSlots ≤ maxMsgSlots ∧
      ∃ sys, newMbox maxSlots s.sys = .done () sys ∧ s' = { s with sys := sys }
  | .sleep p time, s' => (s.proc p).state = .runnable ∧ s.phase p = .idle ∧ 1 ≤ time ∧
      ∃ sys, inSched (doSleep p time) s.sys = .done () sys ∧ s' = s.move p sys .sleeping
  | .wake p, s' => (s.proc p).state = .runnable ∧ s.phase p = .sleeping ∧
      ∃ sys, inSched (delTimer p) s.sys = .done () sys ∧ s' = s.move p sys .idle
  | .tick, s' => ∃ sys, inSched (clockTick driver) s.sys = .done () sys ∧ s' = { s with sys := sys }
  | .kill p, s' => ∃ sys, inSched (killWakeup p) s.sys = .done () sys ∧ s' = { s with sys := sys }

/-- Running processes and a closed mailbox. -/
def idleMailbox : Mailbox where
  sys := ⟨⟨fun _ => ⟨.runnable, 0⟩, fun _ => ⟨0, none, ⟨none, 0, none⟩⟩, [], [], 0, []⟩,
    ⟨0, .closed, 0, 0, [], [], []⟩, fun _ => 0⟩
  phase := fun _ => .idle

end Mailbox

end Ucore.Sync
