import Ucore.Sync.Timers

/-!
# Sending signals

The functions of `process/signal.c` that send a signal to a thread or to a thread group, and
the ones of `schedule/sched.c` they wake threads up by. `lock_sig` and `unlock_sig` are calls of
`down` and `up`; the functions here are what is between them and runs with interrupts off.
-/

namespace Ucore.Sync

open Kern Function

/-- `SIGKILL`. -/
def sigKill : ℕ := 9

/-- `SIGCHLD`. -/
def sigChld : ℕ := 17

/-- `SIGCONT`. -/
def sigCont : ℕ := 18

/-- `SIGSTOP`. -/
def sigStop : ℕ := 19

/-- `SIGTSTP`. -/
def sigTstp : ℕ := 20

/-- `SIGTTIN`. -/
def sigTtin : ℕ := 21

/-- `SIGTTOU`. -/
def sigTtou : ℕ := 22

/-- `SIGURG`. -/
def sigUrg : ℕ := 23

/-- `SIGWINCH`. -/
def sigWinch : ℕ := 28

/-- `sigset_t`. -/
abbrev SigSet := BitVec 64

/-- `sigismember`. -/
def sigismember (set : SigSet) (sign : ℕ) : Bool := set.getLsbD (sign - 1)

/-- `sigset_add`. -/
def sigsetAdd (set : SigSet) (sign : ℕ) : SigSet := set ||| (1#64 <<< (sign - 1))

/-- `sigset_del`, and `remove_from_queue`. -/
def sigsetDel (set : SigSet) (sign : ℕ) : SigSet := set &&& ~~~(1#64 <<< (sign - 1))

/-- The field `sa_handler`. -/
inductive Handler where
  | dfl
  | ign
  | user
  deriving DecidableEq, Repr

/-- `struct proc_signal`, with the flags `TIF_SIGPENDING` and `PF_EXITING` of the process. -/
structure SigInfo where
  signal : ℕ
  sighand : Option ℕ
  blocked : SigSet
  pending : SigSet
  sigPending : Bool
  exiting : Bool

/-- `struct signal_struct`. -/
structure SignalStruct where
  currTarget : Option ℕ
  sharedPending : SigSet

/-- What the kernel knows about signals, by process. -/
structure SigTables where
  info : ℕ → SigInfo
  signal : ℕ → SignalStruct
  /-- The handlers of a `struct sighand_struct`, by signal. -/
  action : ℕ → ℕ → Handler
  /-- The other threads of a group, in the order of `next_thread`. -/
  others : ℕ → List ℕ

/-- Signals and the states of the processes. -/
structure SigState extends SigTables where
  sched : Sched

abbrev SigM := Kern Fault SigState

namespace SigState

def setSched (s : SigState) (v : Sched) : SigState := { s with sched := v }

def setInfo (s : SigState) (p : ℕ) (i : SigInfo) : SigState :=
  { s with info := update s.info p i }

def setSignal (s : SigState) (n : ℕ) (v : SignalStruct) : SigState :=
  { s with signal := update s.signal n v }

/-- `sig_recalc_pending`. -/
def recalcPending (s : SigState) (p : ℕ) : SigState :=
  let i := s.info p
  s.setInfo p { i with
    sigPending := i.pending &&& ~~~i.blocked ≠ 0 ∨
      (s.signal i.signal).sharedPending &&& ~~~i.blocked ≠ 0 }

/-- Take signals out of the set of one thread. -/
def dropPending (signs : List ℕ) (s : SigState) (p : ℕ) : SigState :=
  (s.setInfo p { s.info p with
    pending := signs.foldl sigsetDel (s.info p).pending }).recalcPending p

/-- Take signals out of the set of a thread group. -/
def dropShared (signs : List ℕ) (s : SigState) (n : ℕ) : SigState :=
  s.setSignal n { s.signal n with
    sharedPending := signs.foldl sigsetDel (s.signal n).sharedPending }

end SigState

/-! ## Waking threads up -/

/-- A thread that only waits for signals is woken up with the others of its group. -/
def wakeStopped (v : Sched) (q : ℕ) : Sched :=
  if v.proc q = ⟨.sleeping, wtSignal⟩ then v.setProc q ⟨.runnable, 0⟩ else v

/-- `try_to_wakeup`. -/
def tryToWakeup (p : ℕ) : SigM Unit := do
  let state ← gets fun s => (s.sched.proc p).state
  assert (state ≠ .zombie)
  modify fun s => s.setSched ((s.others p).foldl wakeStopped (s.sched.wake p))

/-- `signal_wakeup`. -/
def signalWakeup (sign p : ℕ) : SigM Unit := do
  modify fun s => s.setInfo p { s.info p with sigPending := true }
  let v ← gets fun s => s.sched.proc p
  if v.state = .sleeping ∧ (Interruptible v.waitState ∨ sign = sigKill) then tryToWakeup p
  else return ()

/-! ## Sending -/

/-- `ignore_sig`. -/
def ignoreSig (sign p : ℕ) : SigM Bool :=
  if sign = sigKill ∨ sign = sigStop then return false
  else do
    match ← gets fun s => (s.info p).sighand with
    | none => throw .nullAccess
    | some h => gets fun s => decide (s.action h sign = .ign ∨ s.action h sign = .dfl ∧
        (sign = sigCont ∨ sign = sigChld ∨ sign = sigWinch ∨ sign = sigUrg))

/-- The first test of both functions: the signal is neither blocked nor wanted. -/
def unwanted (sign dst : ℕ) : SigM Bool := do
  let i ← gets fun s => s.info dst
  if sigismember i.blocked sign then return false else ignoreSig sign dst

/-- `send_signal` to one thread, and the wake-up after it. -/
def queueSpecific (sign dst : ℕ) : SigM ℤ := do
  let i ← gets fun s => s.info dst
  if sigismember i.pending sign then return 0
  else do
    modify fun s => s.setInfo dst { s.info dst with pending := sigsetAdd i.pending sign }
    if sigismember i.blocked sign then return 1
    else do
      signalWakeup sign dst
      return 1

/-- `specific_send_sig_info` between `lock_sig` and `unlock_sig`. -/
def specificSendSigInfo (sign dst : ℕ) : SigM ℤ := do
  if ← unwanted sign dst then return 0 else queueSpecific sign dst

/-- `handle_stop_signal`; it goes through the threads of the caller. -/
def handleStopSignal (current sign dst : ℕ) : SigM Unit :=
  if sign = sigStop ∨ sign = sigTstp ∨ sign = sigTtin ∨ sign = sigTtou then
    modify fun s => (current :: s.others current).foldl (SigState.dropPending [sigCont])
      (s.dropShared [sigCont] (s.info dst).signal)
  else if sign = sigCont then
    modify fun s => (current :: s.others current).foldl
      (SigState.dropPending [sigCont, sigTstp, sigTtin, sigTtou])
      (s.dropShared [sigStop, sigTstp, sigTtin, sigTtou] (s.info dst).signal)
  else return ()

/-- `wants_signal`. -/
def SigState.wantsSignal (s : SigState) (sign p : ℕ) : Bool :=
  if sigismember (s.info p).blocked sign then false
  else if (s.info p).exiting ∨ (s.sched.proc p).state = .zombie then false
  else if sign = sigKill then true
  else !(s.info p).sigPending

/-- The threads that `group_complete_send` asks, in turn. -/
def SigState.candidates (s : SigState) (p : ℕ) : List ℕ :=
  let target := (s.signal (s.info p).signal).currTarget.getD p
  target :: s.others target

/-- `group_complete_send`. -/
def groupCompleteSend (sign p : ℕ) : SigM Unit := do
  let n ← gets fun s => (s.info p).signal
  let found ← gets fun s => (s.candidates p).find? (s.wantsSignal sign)
  modify fun s => s.setSignal n
    { s.signal n with currTarget := some ((s.signal n).currTarget.getD p) }
  match found with
  | none => return ()
  | some pick => do
    modify fun s => s.setSignal n { s.signal n with currTarget := some pick }
    signalWakeup sign pick

/-- `send_signal` to a thread group, and the wake-up after it. -/
def queueGroup (sign dst : ℕ) : SigM ℤ := do
  let n ← gets fun s => (s.info dst).signal
  let shared ← gets fun s => (s.signal n).sharedPending
  if sigismember shared sign then return 0
  else do
    modify fun s => s.setSignal n { s.signal n with sharedPending := sigsetAdd shared sign }
    groupCompleteSend sign dst
    return 0

/-- `group_send_sig_info` between `lock_sig` and `unlock_sig`. -/
def groupSendSigInfo (current sign dst : ℕ) : SigM ℤ := do
  handleStopSignal current sign dst
  if ← unwanted sign dst then return 0 else queueGroup sign dst

/-- What `do_signal_stop` does to one thread. -/
def SigState.stopThread (s : SigState) (q : ℕ) : SigState :=
  let v := s.sched.proc q
  if v.state = .uninit ∨ v.state = .zombie ∨ (s.info q).exiting then s
  else if v.state = .sleeping ∧ ¬Interruptible v.waitState then s
  else s.setSched (s.sched.sleep q wtSignal)

/-- `do_signal_stop` up to its call of `schedule`. -/
def doSignalStop (p : ℕ) : SigM Unit :=
  modify fun s => (p :: s.others p).foldl SigState.stopThread s

/-! ## Threads that sleep in `down` -/

/-- The thread sleeps in `down`. -/
def InDown (v : Proc) : Prop := v = ⟨.sleeping, wtKsem⟩

instance (v : Proc) : Decidable (InDown v) :=
  inferInstanceAs (Decidable (v = ⟨.sleeping, wtKsem⟩))

/-- No thread begins or stops to sleep in `down`. -/
def KeepsDown (v v' : Sched) : Prop := ∀ p, InDown (v'.proc p) ↔ InDown (v.proc p)

variable {s : SigState} {v v' v'' : Sched} {p q : ℕ} {l : List ℕ}

theorem KeepsDown.refl : KeepsDown v v := fun _ => Iff.rfl

theorem KeepsDown.trans (h : KeepsDown v v') (h' : KeepsDown v' v'') : KeepsDown v v'' :=
  fun p => (h' p).trans (h p)

theorem keepsDown_setProc {w : Proc} (hq : ¬InDown (v.proc q)) (hw : ¬InDown w) :
    KeepsDown v (v.setProc q w) := by
  intro p
  show InDown (update v.proc q w p) ↔ _
  by_cases hp : p = q
  · rw [hp, update_self]
    exact ⟨fun h => absurd h hw, fun h => absurd h hq⟩
  · rw [update_of_ne hp]

theorem not_inDown_of_runnable {w : Proc} (hw : w.state = .runnable) : ¬InDown w := by
  intro h
  rw [h] at hw
  cases hw

theorem keepsDown_wake (hq : ¬InDown (v.proc q)) : KeepsDown v (v.wake q) := by
  rw [wake_eq]
  exact keepsDown_setProc hq (not_inDown_of_runnable Proc.state_woken)

theorem keepsDown_wakeStopped : KeepsDown v (wakeStopped v q) := by
  unfold wakeStopped
  split
  · rename_i hstopped
    refine keepsDown_setProc (fun hdown => ?_) (not_inDown_of_runnable rfl)
    cases hstopped.symm.trans hdown
  · exact .refl

theorem keepsDown_foldl : KeepsDown v (l.foldl wakeStopped v) := by
  induction l generalizing v with
  | nil => exact .refl
  | cons q l ih => exact keepsDown_wakeStopped.trans ih

/-- A thread that sleeps in `down` is not interruptible. -/
theorem InDown.not_interruptible {v : Proc} (h : InDown v) : ¬Interruptible v.waitState := by
  rw [h]
  decide

theorem sched_dropPending {signs : List ℕ} :
    (l.foldl (SigState.dropPending signs) s).sched = s.sched := by
  induction l generalizing s with
  | nil => rfl
  | cons q l ih =>
    rw [List.foldl_cons, ih]
    rfl

theorem candidates_setSignal {n : ℕ} {w : SignalStruct}
    (hw : w.currTarget = (s.signal n).currTarget) :
    (s.setSignal n w).candidates p = s.candidates p := by
  have htarget : ∀ m, ((s.setSignal n w).signal m).currTarget = (s.signal m).currTarget := by
    intro m
    show (update s.signal n w m).currTarget = _
    by_cases hm : m = n
    · rw [hm, update_self, hw]
    · rw [update_of_ne hm]
  unfold SigState.candidates
  rw [htarget]
  rfl

theorem keepsDown_stopThread : KeepsDown s.sched (s.stopThread q).sched := by
  unfold SigState.stopThread
  dsimp only
  split
  · exact .refl
  · split
    · exact .refl
    · rename_i hnot
      refine keepsDown_setProc (fun hdown => hnot ⟨?_, hdown.not_interruptible⟩) (by decide)
      rw [hdown]

/-- `do_signal_stop` leaves the sleepers in `down` alone. -/
theorem keepsDown_doSignalStop : KeepsDown s.sched (l.foldl SigState.stopThread s).sched := by
  induction l generalizing s with
  | nil => exact .refl
  | cons q l ih => exact keepsDown_stopThread.trans ih

end Ucore.Sync
