import Ucore.Sync.Signals

/-!
# Signal handlers, masks and delivery

The system calls of `process/signal.c` and `arch_signal.c` over the functions that send signals:
`do_sigaction`, `do_sigprocmask`, `do_sigsuspend`, `do_sigwaitinfo`, `do_sigreturn`, `do_sigtkill`
and `do_sigkill`, and `do_signal`, which a thread runs on its way back to user mode. What
`do_fork` and `do_exit` do to the tables of signals is here too.

No function sleeps between `lock_sig` and `unlock_sig`. A thread sleeps in `do_sigsuspend` and
`do_sigwaitinfo`, in `do_signal_stop`, in `__sig_setup_frame`, which writes to the user's stack,
and in the copy that `do_sigaction` makes into the table of handlers; these calls are in parts,
and `Place` says which part comes next.
-/

namespace Ucore.Sync

open Kern Function

/-- `E_INVAL`. -/
def eInval : ℤ := 22

/-- `MAX_PID`. -/
def maxPid : ℤ := 8192

/-- `SIG_BLOCK`. -/
def sigBlock : ℤ := 0

/-- `SIG_UNBLOCK`. -/
def sigUnblock : ℤ := 1

/-- `SIG_SETMASK`. -/
def sigSetmask : ℤ := 2

/-- A pointer that a system call is given: `NULL`, one that fails `user_mem_check`, or one to a
value. -/
inductive UserArg (α : Type) where
  | null
  | bad
  | good (a : α)

/-- The fields `sa_mask` and `sa_flags` of `struct sigaction`. -/
structure SaFields where
  mask : SigSet
  nodefer : Bool
  oneshot : Bool
  deriving DecidableEq, Repr

/-- `struct sigaction`. -/
structure SigAction extends SaFields where
  handler : Handler
  deriving DecidableEq, Repr

/-- `sigset_del` of `SIGKILL` and `SIGSTOP`. -/
def SigSet.strip (set : SigSet) : SigSet := sigsetDel (sigsetDel set sigKill) sigStop

/-- The signals, with the masks and flags of the handlers. -/
structure SigSys extends SigState where
  /-- By `struct sighand_struct` and signal, as `action`. -/
  fields : ℕ → ℕ → SaFields
  initproc : ℕ

/-- Accesses that the source does not check. -/
inductive SigFault where
  /-- One made while a signal is sent. -/
  | fault (f : Fault)
  /-- An entry of `action` that there is not, or a shift of a mask by no number of its bits. -/
  | outside (sign : ℤ)
  deriving DecidableEq, Repr

abbrev SysM := Kern SigFault SigSys

/-- Code that knows nothing of masks and flags. -/
def inSig {α : Type} (m : SigM α) : SysM α :=
  (m.mapError .fault).zoom SigSys.toSigState fun v s => { s with toSigState := v }

/-! ## Taking signals -/

/-- The loop of `dequeue_signal` over one set. -/
def firstSign (blocked set : SigSet) : Option ℕ :=
  (List.range' 1 63).find? fun sign => !sigismember blocked sign && sigismember set sign

namespace SigState

/-- `find_proc`. -/
def findProc (s : SigState) (pid : ℤ) : Option ℕ :=
  if 0 < pid ∧ pid < maxPid ∧ (s.sched.proc pid.toNat).state ≠ .uninit then some pid.toNat
  else none

/-- `signal->shared_pending.signal` of a thread. -/
def shared (s : SigState) (p : ℕ) : SigSet := (s.signal (s.info p).signal).sharedPending

/-- The signals that wait for a thread and are not blocked. -/
def deliverable (s : SigState) (p : ℕ) : SigSet :=
  ((s.info p).pending ||| s.shared p) &&& ~~~(s.info p).blocked

/-- `dequeue_signal`, with the signal it returns. -/
def dequeueSignal (s : SigState) (p : ℕ) : ℕ × SigState :=
  match firstSign (s.info p).blocked (s.info p).pending with
  | some sign => (sign, s.dropPending [sign] p)
  | none =>
    match firstSign (s.info p).blocked (s.shared p) with
    | some sign => (sign, (s.dropShared [sign] (s.info p).signal).recalcPending p)
    | none => (0, s)

/-- Give a thread another mask. -/
def setBlocked (s : SigState) (p : ℕ) (set : SigSet) : SigState :=
  s.setInfo p { s.info p with blocked := set }

/-- `__do_kill`. -/
def killThread (s : SigState) (q : ℕ) : SigState :=
  if (s.info q).exiting then s
  else
    let s' := s.setInfo q { s.info q with exiting := true }
    if Interruptible (s.sched.proc q).waitState then s'.setSched (s'.sched.wake q) else s'

/-- What `__do_exit` does: `put_sighand`, `put_signal`, `PROC_ZOMBIE` and `de_thread`. -/
def exitThread (s : SigState) (p : ℕ) : SigState :=
  { (s.setInfo p { s.info p with sighand := none }).setSched (s.sched.setProc p ⟨.zombie, 0⟩) with
    others := fun q => if q = p then [] else (s.others q).erase p }

/-- `do_exit`. -/
def doExit (s : SigState) (p : ℕ) : SigState := ((s.others p).foldl killThread s).exitThread p

/-- The threads of a group after `list_add_before(&(current->thread_group), ...)`. -/
def joinGroup (s : SigState) (p c q : ℕ) : List ℕ :=
  if q = c then p :: s.others p
  else if q = p then s.others p ++ [c]
  else (s.others q).flatMap fun r => if r = p then [c, p] else [r]

/-- What `do_fork` makes of a new process `c` of the thread `p`: `copy_signal` creates
`struct signal_struct` `n` even for a thread, and `copy_sighand` shares the handlers of a thread
or creates `struct sighand_struct` `h`. -/
def fork (s : SigState) (p c n h : ℕ) (thread sighand : Bool) : SigState :=
  { s with
    info := update s.info c
      ⟨n, if thread || sighand then (s.info p).sighand else some h, 0, 0, false, false⟩
    signal := update s.signal n ⟨none, 0⟩
    action := if thread || sighand then s.action
      else update s.action h fun _ => .dfl
    others := if thread then s.joinGroup p c else update s.others c []
    sched := s.sched.setProc c ⟨.runnable, 0⟩ }

end SigState

namespace SigSys

def setSig (s : SigSys) (v : SigState) : SigSys := { s with toSigState := v }

/-- Write `action[sign - 1]`. -/
def setAction (s : SigSys) (h sign : ℕ) (act : SigAction) : SigSys :=
  { s with
    action := update s.action h (update (s.action h) sign act.handler)
    fields := update s.fields h (update (s.fields h) sign act.toSaFields) }

/-- The part of `do_fork` that `SigState.fork` says, and the fields of new handlers. -/
def fork (s : SigSys) (p c n h : ℕ) (thread sighand : Bool) : SigSys :=
  { s with
    toSigState := s.toSigState.fork p c n h thread sighand
    fields := if thread || sighand then s.fields
      else update s.fields h fun _ => ⟨0, false, false⟩ }

end SigSys

/-! ## System calls -/

/-- The address `&action[sign - 1]`, when it is used. -/
def actionEntry (sign : ℤ) : SysM ℕ :=
  if 1 ≤ sign ∧ sign ≤ 64 then return sign.toNat else throw (.outside sign)

/-- `do_sigaction` reports the old handler; the answer is that of `copy_to_user`. -/
def copyOldAction (sign : ℤ) : UserArg Unit → SysM Bool
  | .null => return true
  | .bad => return false
  | .good _ => do
    let _ ← actionEntry sign
    return true

/-- The end of `do_sigaction`: an ignored signal is taken out of all sets of the group. -/
def SigState.dropIgnored (s : SigState) (p sign : ℕ) : SigState :=
  (p :: s.others p).foldl (SigState.dropPending [sign]) (s.dropShared [sign] (s.info p).signal)

/-- `do_sigaction` after its `copy_from_user`: the mask that was copied into the table loses
`SIGKILL` and `SIGSTOP`. -/
def finishAction (p h sign : ℕ) (act : SigAction) : SysM ℤ := do
  modify fun s => s.setAction h sign { act with mask := act.mask.strip }
  if ← inSig (ignoreSig sign p) then do
    modify fun s => s.setSig (s.dropIgnored p sign)
    return 0
  else return 0

/-- `do_sigaction` from its `copy_from_user` on. -/
def setNewAction (p h : ℕ) (sign : ℤ) : UserArg SigAction → SysM ℤ
  | .null => return -eInval
  | .bad => return -eInval
  | .good act => do
    let n ← actionEntry sign
    finishAction p h n act

/-- `do_sigaction`. -/
def doSigaction (p : ℕ) (sign : ℤ) (act : UserArg SigAction) (old : UserArg Unit) : SysM ℤ := do
  match ← gets fun s => (s.info p).sighand with
  | none => stop .assertion
  | some h =>
    if ← copyOldAction sign old then setNewAction p h sign act else return -eInval

/-- The new mask of `do_sigprocmask`; other values of `how` leave the mask alone. -/
def maskBy (how : ℤ) (blocked set : SigSet) : SigSet :=
  if how = sigBlock then blocked ||| set
  else if how = sigUnblock then blocked &&& ~~~set
  else if how = sigSetmask then set
  else blocked

/-- The mask of a thread is replaced, and the flag computed again. -/
def SigState.changeMask (s : SigState) (p : ℕ) (set : SigSet) : SigState :=
  (s.setBlocked p set).recalcPending p

/-- `do_sigprocmask` after its `copy_from_user`. -/
def setProcmask (p : ℕ) (how : ℤ) (set : SigSet) : UserArg Unit → SysM ℤ
  | .bad => return -eInval
  | _ => do
    modify fun s => s.setSig (s.changeMask p (maskBy how (s.info p).blocked set.strip))
    return if how = sigBlock ∨ how = sigUnblock ∨ how = sigSetmask then 0 else -eInval

/-- `do_sigprocmask`. -/
def doSigprocmask (p : ℕ) (how : ℤ) (old : UserArg Unit) : UserArg SigSet → SysM ℤ
  | .good set => setProcmask p how set old
  | _ => return -eInval

/-- A thread that waits for signals under another mask goes to sleep. Its own mask is kept by
the caller, and the flag is not computed again. -/
def SigState.waitUnder (s : SigState) (p : ℕ) (set : SigSet) : SigState :=
  (s.setBlocked p set).setSched (s.sched.sleep p wtSignal)

/-- The mask under which `do_sigsuspend` waits. -/
def suspendMask (mask : SigSet) : SigSet := SigSet.strip mask

/-- The mask under which `do_sigwaitinfo` waits. -/
def waitinfoMask (set : SigSet) : SigSet := ~~~(sigsetAdd (sigsetAdd set sigKill) sigStop)

/-- `do_sigsuspend` up to its first call of `schedule`; the answer is whether it gets there. -/
def doSigsuspend (p : ℕ) : UserArg SigSet → SysM Bool
  | .good mask => do
    modify fun s => s.setSig (s.waitUnder p (suspendMask mask))
    return true
  | _ => return false

/-- `do_sigwaitinfo` up to its first call of `schedule`. -/
def doSigwaitinfo (p : ℕ) : UserArg SigSet → SysM Unit
  | .good set => modify fun s => s.setSig (s.waitUnder p (waitinfoMask set))
  | _ => stop .assertion

/-- `do_sigtkill`. The first thing that `specific_send_sig_info` does with the number is a
shift. -/
def doSigtkill (pid sign : ℤ) : SysM ℤ := do
  match ← gets fun s => s.findProc pid with
  | none => return -eInval
  | some dst => do
    let state ← gets fun s => (s.sched.proc dst).state
    if state = .zombie then return -eInval
    else if 1 ≤ sign ∧ sign ≤ 64 then inSig (specificSendSigInfo sign.toNat dst)
    else throw (.outside sign)

/-- `group_send_sig_info`. -/
def groupSend (p : ℕ) (sign : ℤ) (dst : ℕ) : SysM ℤ := do
  let sighand ← gets fun s => (s.info dst).sighand
  if sign < 0 ∨ 64 < sign then return -eInval
  else if sign = 0 ∨ sighand = none then return 0
  else inSig (groupSendSigInfo p sign.toNat dst)

/-- `do_sigkill`. -/
def doSigkill (p : ℕ) (pid sign : ℤ) : SysM ℤ := do
  match ← gets fun s => s.findProc pid with
  | none => return -eInval
  | some dst => do
    let state ← gets fun s => (s.sched.proc dst).state
    if state = .zombie then return -eInval else groupSend p sign dst

/-! ## Delivery -/

/-- How `do_signal` ends or goes to sleep. -/
inductive SignalEnd where
  /-- It returns 0. -/
  | none
  /-- It calls `__sig_setup_frame` for a handler of the user. -/
  | frames (sign : ℕ)
  /-- It sleeps in `do_signal_stop`. -/
  | stops
  /-- The process exits. -/
  | exits
  deriving DecidableEq, Repr

/-- The signals whose default is to do nothing, or to do nothing yet. -/
def ignoredByDefault (sign : ℕ) : Bool :=
  sign = sigCont || sign = sigChld || sign = sigWinch || sign = sigUrg || sign = sigTstp ||
    sign = sigTtin || sign = sigTtou

/-- The loop of `do_signal`. -/
def signalLoop (p h : ℕ) : ℕ → SysM SignalEnd
  | 0 => stop .running
  | fuel + 1 => do
    let sign ← gets fun s => (s.dequeueSignal p).1
    modify fun s => s.setSig (s.dequeueSignal p).2
    if sign = 0 then return .none
    else if sign = sigKill then do
      modify fun s => s.setSig (s.doExit p)
      return .exits
    else if sign = sigStop then do
      inSig (doSignalStop p)
      return .stops
    else do
      match ← gets fun s => s.action h sign with
      | .ign => signalLoop p h fuel
      | .user => return .frames sign
      | .dfl => do
        let initproc ← gets SigSys.initproc
        if p = initproc ∨ ignoredByDefault sign then signalLoop p h fuel
        else do
          modify fun s => s.setSig (s.doExit p)
          return .exits

/-- Each turn of the loop takes one of the signals 1 to 63 out of one of two sets. -/
def signalTurns : ℕ := 127

/-- `do_signal`. -/
def doSignal (p : ℕ) : SysM SignalEnd := do
  let i ← gets fun s => s.info p
  match i.sighand with
  | none => return .none
  | some h => if i.sigPending then signalLoop p h signalTurns else return .none

/-- What `handle_signal` does with the mask after the frame is written. -/
def SigSys.deferSignals (s : SigSys) (p h sign : ℕ) : SigState :=
  if (s.fields h sign).nodefer then s.toSigState
  else s.changeMask p (sigsetAdd ((s.info p).blocked ||| (s.fields h sign).mask) sign)

/-- `do_signal` after `__sig_setup_frame`; `written` is its success. -/
def finishFrame (p sign : ℕ) (written : Bool) : SysM Unit := do
  match ← gets fun s => (s.info p).sighand with
  | none => throw (.fault .nullAccess)
  | some h => do
    modify fun s => s.setSig (if written then s.deferSignals p h sign else s.toSigState)
    modify fun s => if (s.fields h sign).oneshot then
      s.setAction h sign ⟨s.fields h sign, .dfl⟩ else s

/-- The frame that `do_sigreturn` finds on the stack of the user. -/
structure SigFrame where
  oldBlocked : SigSet
  /-- The answer of `trap_in_kernel` for the frame's registers. -/
  inKernel : Bool
  deriving DecidableEq, Repr

/-- `do_sigreturn`; the answer is whether the thread lives on. Without memory for the frame, or
without a frame, nothing happens. -/
def doSigreturn (p : ℕ) (frame : Option SigFrame) : SysM Bool :=
  match frame with
  | none => return true
  | some f =>
    if f.inKernel then do
      modify fun s => s.setSig (s.doExit p)
      return false
    else do
      modify fun s => s.setSig (s.changeMask p f.oldBlocked)
      return true

/-! ## Threads -/

/-- Where a thread is in the code of signals. -/
inductive Place where
  | user
  /-- Asleep in `do_sigsuspend` or `do_sigwaitinfo`, with the mask it had before. -/
  | suspended (old : SigSet)
  /-- Asleep in `do_signal_stop`; the mask is that of `do_sigsuspend`, if it called `do_signal`. -/
  | stopped (old : Option SigSet)
  /-- In `__sig_setup_frame`, which writes the mask to the stack of the user. -/
  | framing (sign : ℕ) (old : SigSet)
  /-- In the `copy_from_user` of `do_sigaction`. -/
  | copying (sign : ℕ) (act : SigAction)
  | gone
  deriving DecidableEq, Repr

/-- The tables, and where each thread is. -/
structure SigMachine where
  sys : SigSys
  place : ℕ → Place

/-- What threads do. -/
inductive SigOp where
  | fork (p c n h : ℕ) (thread sighand : Bool)
  /-- `do_exit`, or `do_exit_thread`. -/
  | exit (p : ℕ) (group : Bool)
  | sigaction (p : ℕ) (sign : ℤ) (act : UserArg SigAction) (old : UserArg Unit)
  /-- `do_sigaction` sleeps in its copy when the entry of the table is `part`. -/
  | copyAction (p : ℕ) (sign : ℕ) (act part : SigAction)
  /-- The copy of `do_sigaction` comes to its end. -/
  | copied (p : ℕ)
  | sigprocmask (p : ℕ) (how : ℤ) (old : UserArg Unit) (set : UserArg SigSet)
  | sigsuspend (p : ℕ) (mask : UserArg SigSet)
  | sigwaitinfo (p : ℕ) (set : UserArg SigSet)
  | sigreturn (p : ℕ) (frame : Option SigFrame)
  | tkill (p : ℕ) (pid sign : ℤ)
  | kill (p : ℕ) (pid sign : ℤ)
  /-- `do_signal` before the return to user mode. -/
  | signal (p : ℕ)
  /-- A thread that slept in `do_sigsuspend` or `do_sigwaitinfo` calls `do_signal`. -/
  | awake (p : ℕ)
  /-- A thread that slept in `do_signal_stop` goes on in the loop of `do_signal`. -/
  | continued (p : ℕ)
  /-- `__sig_setup_frame` returns. -/
  | frame (p : ℕ) (written : Bool)
  /-- Any other call goes to sleep. -/
  | sleep (p : ℕ) (w : WaitState)
  /-- Any other wake-up. -/
  | wake (p : ℕ)

namespace SigMachine

/-- The thread runs outside of the code of signals, and has handlers. -/
def Runs (s : SigMachine) (p : ℕ) : Prop :=
  s.place p = .user ∧ (s.sys.sched.proc p).state = .runnable ∧ (s.sys.info p).sighand ≠ none

def setSys (s : SigMachine) (v : SigSys) : SigMachine := { s with sys := v }

/-- A thread gets to another place. -/
def moveTo (s : SigMachine) (p : ℕ) (v : SigSys) (place : Place) : SigMachine :=
  ⟨v, update s.place p place⟩

/-- After the loop of `do_signal`, called by the trap handler or, with its old mask, by a thread
that waits for signals. -/
def settle (s : SigMachine) (p : ℕ) (old : Option SigSet) (v : SigSys) : SignalEnd → SigMachine
  | .none => match old with
    | none => s.moveTo p v .user
    | some set => s.moveTo p (v.setSig (v.setSched (v.sched.sleep p wtSignal))) (.suspended set)
  | .frames sign => s.moveTo p v (.framing sign (old.getD (v.info p).blocked))
  | .stops => s.moveTo p v (.stopped old)
  | .exits => s.moveTo p v .gone

/-- Numbers that no process and no thread with handlers uses. -/
def Unused (s : SigMachine) (c n h : ℕ) : Prop :=
  0 < c ∧ (c : ℤ) < maxPid ∧ (s.sys.sched.proc c).state = .uninit ∧
    ∀ q, (s.sys.info q).sighand ≠ none → (s.sys.info q).signal ≠ n ∧ (s.sys.info q).sighand ≠ some h

/-- An entry that a copy has written in part: each field, and each bit of the mask, is the old one
or the new one. -/
structure Between (part old new : SigAction) : Prop where
  handler : part.handler = old.handler ∨ part.handler = new.handler
  nodefer : part.nodefer = old.nodefer ∨ part.nodefer = new.nodefer
  oneshot : part.oneshot = old.oneshot ∨ part.oneshot = new.oneshot
  mask : ∀ n, sigismember part.mask n = sigismember old.mask n ∨
    sigismember part.mask n = sigismember new.mask n

/-- The steps of the threads. -/
def Step (s : SigMachine) : SigOp → SigMachine → Prop
  | .fork p c n h thread sighand, s' => s.Runs p ∧ s.Unused c n h ∧
      s' = s.moveTo c (s.sys.fork p c n h thread sighand) .user
  | .exit p group, s' => s.Runs p ∧ s' = s.moveTo p (s.sys.setSig
      (if group then s.sys.doExit p else s.sys.exitThread p)) .gone
  | .sigaction p sign act old, s' => s.Runs p ∧ ∃ r v,
      doSigaction p sign act old s.sys = .done r v ∧ s' = s.setSys v
  | .copyAction p sign act part, s' => s.Runs p ∧ 1 ≤ sign ∧ sign ≤ 64 ∧ ∃ h,
      (s.sys.info p).sighand = some h ∧
      Between part ⟨s.sys.fields h sign, s.sys.action h sign⟩ act ∧
      s' = s.moveTo p (s.sys.setAction h sign part) (.copying sign act)
  | .copied p, s' => ∃ sign act h, s.place p = .copying sign act ∧
      (s.sys.sched.proc p).state = .runnable ∧ (s.sys.info p).sighand = some h ∧ ∃ r v,
        finishAction p h sign act s.sys = .done r v ∧ s' = s.moveTo p v .user
  | .sigprocmask p how old set, s' => s.Runs p ∧ ∃ r v,
      doSigprocmask p how old set s.sys = .done r v ∧ s' = s.setSys v
  | .sigsuspend p mask, s' => s.Runs p ∧ ∃ waits v, doSigsuspend p mask s.sys = .done waits v ∧
      s' = s.moveTo p v (if waits then .suspended (s.sys.info p).blocked else .user)
  | .sigwaitinfo p set, s' => s.Runs p ∧ ∃ v, doSigwaitinfo p set s.sys = .done () v ∧
      s' = s.moveTo p v (.suspended (s.sys.info p).blocked)
  | .sigreturn p frame, s' => s.Runs p ∧ ∃ alive v,
      doSigreturn p frame s.sys = .done alive v ∧ s' = s.moveTo p v (if alive then .user else .gone)
  | .tkill p pid sign, s' => s.Runs p ∧ ∃ r v,
      doSigtkill pid sign s.sys = .done r v ∧ s' = s.setSys v
  | .kill p pid sign, s' => s.Runs p ∧ ∃ r v,
      doSigkill p pid sign s.sys = .done r v ∧ s' = s.setSys v
  | .signal p, s' => s.Runs p ∧ ∃ e v,
      doSignal p s.sys = .done e v ∧ s' = s.settle p none v e
  | .awake p, s' => ∃ old, s.place p = .suspended old ∧
      (s.sys.sched.proc p).state = .runnable ∧ ∃ e v,
        doSignal p s.sys = .done e v ∧ s' = s.settle p (some old) v e
  | .continued p, s' => ∃ old h, s.place p = .stopped old ∧
      (s.sys.sched.proc p).state = .runnable ∧ (s.sys.info p).sighand = some h ∧ ∃ e v,
        signalLoop p h signalTurns s.sys = .done e v ∧ s' = s.settle p old v e
  | .frame p written, s' => ∃ sign old, s.place p = .framing sign old ∧
      (s.sys.sched.proc p).state = .runnable ∧ ∃ v,
        finishFrame p sign written s.sys = .done () v ∧ s' = s.moveTo p v .user
  | .sleep p w, s' => (s.place p = .user ∨ (∃ sign old, s.place p = .framing sign old) ∨
        ∃ sign act, s.place p = .copying sign act) ∧
      (s.sys.sched.proc p).state = .runnable ∧
      s' = s.setSys (s.sys.setSig (s.sys.setSched (s.sys.sched.sleep p w)))
  | .wake p, s' => (s.sys.sched.proc p).state = .sleeping ∧
      s' = s.setSys (s.sys.setSig (s.sys.setSched (s.sys.sched.wake p)))

/-- No signal was sent yet, and every process is alone. -/
structure Start (s : SigMachine) : Prop where
  place : ∀ p, s.place p = .user
  pending : ∀ p, (s.sys.info p).pending = 0
  blocked : ∀ p, (s.sys.info p).blocked = 0
  flag : ∀ p, (s.sys.info p).sigPending = false
  shared : ∀ n, (s.sys.signal n).sharedPending = 0
  mask : ∀ h sign, (s.sys.fields h sign).mask = 0
  alone : ∀ p, s.sys.others p = []
  own : ∀ p q, (s.sys.info p).sighand ≠ none → (s.sys.info q).sighand ≠ none →
    (s.sys.info p).signal = (s.sys.info q).signal → p = q

end SigMachine

/-- Process 1 is the kernel thread `kinit`, which has no handlers; 2 to 8 are programs that have not
used signals yet; there are no other processes. -/
def quietSys : SigSys where
  info := fun p => ⟨p, if 2 ≤ p ∧ p ≤ 8 then some p else none, 0, 0, false, false⟩
  signal := fun _ => ⟨none, 0⟩
  action := fun _ _ => .dfl
  others := fun _ => []
  sched := ⟨fun p => ⟨if p ≤ 8 then .runnable else .uninit, 0⟩, fun _ => ⟨0, none, ⟨none, 0, none⟩⟩,
    [], [], 0, []⟩
  fields := fun _ _ => ⟨0, false, false⟩
  initproc := 1

/-- All threads of `quietSys` are in user mode. -/
def quiet : SigMachine := ⟨quietSys, fun _ => .user⟩

theorem start_quiet : quiet.Start :=
  ⟨fun _ => rfl, fun _ => rfl, fun _ => rfl, fun _ => rfl, fun _ => rfl, fun _ _ => rfl,
    fun _ => rfl, fun _ _ _ _ h => h⟩

end Ucore.Sync
