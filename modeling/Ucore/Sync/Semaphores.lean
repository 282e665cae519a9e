import Mathlib.Algebra.Order.Ring.Int
import Ucore.Sync.TimerRuns

/-!
# Semaphores

`__up` and `__down` of `sync/sem.c` over the wait queues of `sync/wait.c`. A call of `__down`
that has to wait is in two parts, before and after its call of `schedule`; every part runs with
interrupts off. The entry `wait_t` of a process is on its stack, so there is one for each
process, and a queue is a list of processes.
-/

namespace Ucore.Sync

open Kern Function

/-- A value of type `int` after an operation. -/
def intWrap (v : ℤ) : ℤ := (v + 2 ^ 31) % 2 ^ 32 - 2 ^ 31

theorem intWrap_of_lt {v : ℤ} (hlow : -2 ^ 31 ≤ v) (hhigh : v < 2 ^ 31) : intWrap v = v := by
  rw [intWrap]
  omega

/-- `semaphore_t`. -/
structure Semaphore where
  value : ℤ
  valid : Bool
  waitQueue : List ℕ

/-- The semaphores, and the field `wakeup_flags` of every process's `wait_t`. -/
structure Sems where
  sched : Sched
  sem : ℕ → Semaphore
  wakeupFlags : ℕ → WaitState

abbrev SemsM := Kern Fault Sems

namespace Sems

def setSched (s : Sems) (v : Sched) : Sems := { s with sched := v }

def setSem (s : Sems) (x : ℕ) (v : Semaphore) : Sems :=
  { s with sem := update s.sem x v }

def setFlags (s : Sems) (p : ℕ) (w : WaitState) : Sems :=
  { s with wakeupFlags := update s.wakeupFlags p w }

/-- Replace a semaphore's queue. -/
def setQueue (s : Sems) (x : ℕ) (l : List ℕ) : Sems :=
  s.setSem x { s.sem x with waitQueue := l }

def setValue (s : Sems) (x : ℕ) (v : ℤ) : Sems := s.setSem x { s.sem x with value := v }

variable {s : Sems} {x : ℕ} {l : List ℕ} {v : ℤ}

@[simp] theorem sem_setQueue_self : (s.setQueue x l).sem x = { s.sem x with waitQueue := l } :=
  update_self x _ s.sem

@[simp] theorem sem_setValue_self : (s.setValue x v).sem x = { s.sem x with value := v } :=
  update_self x _ s.sem

end Sems

/-- A function of the scheduler. -/
def onSched {α : Type} (m : SchedM α) : SemsM α := m.zoom Sems.sched fun v s => s.setSched v

/-- `wait_current_set`. -/
def waitCurrentSet (p x : ℕ) (w : WaitState) : SemsM Unit :=
  modify fun s => ((s.setFlags p wtInterrupted).setSched (s.sched.sleep p w)).setQueue x
    ((s.sem x).waitQueue ++ [p])

/-- `wait_current_del`. -/
def waitCurrentDel (p x : ℕ) : SemsM Unit :=
  modify fun s => s.setQueue x ((s.sem x).waitQueue.erase p)

/-- `wakeup_wait` for an entry that is taken out of its queue. -/
def wakeupWait (p x : ℕ) (flags : WaitState) : SemsM Unit := do
  modify fun s => (s.setQueue x ((s.sem x).waitQueue.erase p)).setFlags p flags
  onSched (wakeupProc p)

/-- `__up`. -/
def semUp (x : ℕ) (w : WaitState) : SemsM Unit := do
  let sem ← gets fun s => s.sem x
  assert (sem.valid = true)
  match sem.waitQueue with
  | [] => modify fun s => s.setValue x (intWrap (sem.value + 1))
  | p :: _ => do
    let waitState ← gets fun s => (s.sched.proc p).waitState
    assert (waitState = w)
    wakeupWait p x w

/-- `ipc_add_timer`. -/
def ipcAddTimer : Option ℕ → SemsM Unit
  | none => return ()
  | some t => onSched (addTimer t)

/-- `ipc_del_timer`. -/
def ipcDelTimer : Option ℕ → SemsM Unit
  | none => return ()
  | some t => onSched (delTimer t)

/-- `__down` by process `p` up to its call of `schedule`; it answers whether it returned 0
before that. -/
def semDown (p x : ℕ) (w : WaitState) (timer : Option ℕ) : SemsM Bool := do
  let sem ← gets fun s => s.sem x
  assert (sem.valid = true)
  if 0 < sem.value then do
    modify fun s => s.setValue x (sem.value - 1)
    return true
  else do
    waitCurrentSet p x w
    ipcAddTimer timer
    return false

/-- `__down` by process `p` after its call of `schedule`. -/
def semDownResume (p x : ℕ) (w : WaitState) (timer : Option ℕ) : SemsM WaitState := do
  ipcDelTimer timer
  waitCurrentDel p x
  let flags ← gets fun s => s.wakeupFlags p
  return if flags ≠ w then flags else 0

/-! ## What the functions do -/

variable {s : Sems} {p x : ℕ} {w : WaitState} {H : Prop} {E : Fault → Sems → Prop}
  {timer : Option ℕ}

namespace Sems

/-- Process `p` sleeps in the queue of a semaphore. -/
def enqueue (s : Sems) (p x : ℕ) (w : WaitState) : Sems :=
  ((s.setFlags p wtInterrupted).setSched (s.sched.sleep p w)).setQueue x
    ((s.sem x).waitQueue ++ [p])

/-- `__up` hands the token to process `p`. -/
def handOver (s : Sems) (p x : ℕ) (w : WaitState) : Sems :=
  ((s.setQueue x ((s.sem x).waitQueue.erase p)).setFlags p w).setSched
    ((s.sched.wake p).record (.wakeup p))

end Sems

theorem wp_onSched {α : Type} {m : SchedM α} {Q : α → Sems → Prop} : (onSched m).wp H E Q s ↔
      m.wp H (fun e v => E e (s.setSched v)) (fun a v => Q a (s.setSched v)) s.sched :=
  wp_zoom

theorem wp_semUp {Q : Unit → Sems → Prop} (hvalid : (s.sem x).valid = true)
    (hnone : (s.sem x).waitQueue = [] → Q () (s.setValue x (intWrap ((s.sem x).value + 1))))
    (hsome : ∀ p rest, (s.sem x).waitQueue = p :: rest →
      (s.sched.proc p).waitState = w ∧ (s.sched.proc p).state ≠ .zombie ∧ Q () (s.handOver p x w)) :
    (semUp x w).wp H E Q s := by
  refine wp_check hvalid ?_
  cases hqueue : (s.sem x).waitQueue with
  | nil => exact hnone hqueue
  | cons p rest =>
    obtain ⟨hwait, hstate, hQ⟩ := hsome p rest hqueue
    refine wp_check hwait ?_
    rw [wakeupWait, wp_put, wp_onSched]
    exact wp_wakeupProc hstate hQ

theorem wp_semDown {Q : Bool → Sems → Prop} (hvalid : (s.sem x).valid = true)
    (htake : 0 < (s.sem x).value → Q true (s.setValue x ((s.sem x).value - 1)))
    (hwait : ¬0 < (s.sem x).value →
      (ipcAddTimer timer).wp H E (fun _ => Q false) (s.enqueue p x w)) :
    (semDown p x w timer).wp H E Q s := by
  refine wp_check hvalid ?_
  refine wp_if htake fun hpos => ?_
  rw [wp_bind, waitCurrentSet, wp_modify, wp_bind]
  exact hwait hpos

theorem wp_semDownResume {Q : WaitState → Sems → Prop}
    (h : (ipcDelTimer timer).wp H E (fun _ s' => Q (if s'.wakeupFlags p ≠ w then s'.wakeupFlags p
      else 0) (s'.setQueue x ((s'.sem x).waitQueue.erase p))) s) :
    (semDownResume p x w timer).wp H E Q s := by
  rw [semDownResume, wp_bind]
  exact h

end Ucore.Sync
