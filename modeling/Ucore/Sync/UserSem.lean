import Ucore.Lib.TokenQueue
import Ucore.Sync.Semaphores

/-!
# User semaphores

One semaphore under `ipc_sem_wait`, with and without a time-out, `ipc_sem_post`, the clock and
the wake-ups of `__do_kill`, in any order. The state keeps, beside what the kernel keeps, which
processes are inside `__down`, which of them `__up` has handed a token, and how often `__up`
was called and `__down` returned 0.
-/

namespace Ucore.Sync

open Kern Function List

/-- What `usem_down` returns: 0, `-E_TIMEOUT` or -1. -/
inductive DownResult where
  | ok
  | timeout
  | interrupted
  deriving DecidableEq, Repr

/-- `ipc_timer_init`; the timer of a process has the number of the process. -/
def ipcTimerInit (p timeout : ℕ) : SemsM (Option ℕ) :=
  if timeout ≠ 0 then do
    onSched (timerInit p (some p) timeout)
    return some p
  else return none

/-- `ipc_check_timeout`. -/
def ipcCheckTimeout (c : WaitCall) : SemsM DownResult := do
  let ticks ← gets fun s => s.sched.ticks
  return if c.timeout ≠ 0 ∧ c.timeout ≤ ticks - c.savedTicks then .timeout else .interrupted

/-- `usem_down` up to the call of `schedule`. -/
def usemDown (p x timeout : ℕ) : SemsM Bool := do
  let timer ← ipcTimerInit p timeout
  semDown p x wtUsem timer

/-- `usem_down` after the call of `schedule`. -/
def usemDownResume (p x : ℕ) (c : WaitCall) : SemsM DownResult := do
  let flags ← semDownResume p x wtUsem (c.timer p)
  if flags = 0 then return .ok
  else do
    assert (flags = wtInterrupted)
    ipcCheckTimeout c

/-- `usem_up`. -/
def usemUp (x : ℕ) : SemsM Unit := semUp x wtUsem

/-- The kernel's state and the history of one semaphore. -/
structure UserSem where
  sems : Sems
  /-- The processes that are inside `__down`, after `schedule` was called. -/
  waiting : ℕ → Option WaitCall
  /-- Those among them that `__up` has handed a token. -/
  handed : List ℕ
  /-- The calls of `__up`. -/
  ups : ℕ
  /-- The calls of `__down` that returned 0. -/
  downs : ℕ

/-- The steps of the system; `wait` and `resume` say what the call answers. -/
inductive UsemCall where
  | wait (p timeout : ℕ) (got : Bool)
  | resume (p : ℕ) (result : DownResult)
  | post
  | tick
  | kill (p : ℕ)

namespace UserSem

variable (x : ℕ)

/-- The queue of the semaphore. -/
def queue (s : UserSem) : List ℕ := (s.sems.sem x).waitQueue

/-- The field `value` of the semaphore. -/
def value (s : UserSem) : ℤ := (s.sems.sem x).value

def proc (s : UserSem) (p : ℕ) : Proc := s.sems.sched.proc p

/-- The state after the first part of a call of `__down`. -/
def enter (s : UserSem) (p timeout : ℕ) (sems : Sems) : Bool → UserSem
  | true => { s with sems := sems, downs := s.downs + 1 }
  | false => { s with
      sems := sems
      waiting := update s.waiting p (some ⟨timeout, s.sems.sched.ticks⟩) }

/-- The state after a call of `__down` returned. -/
def leave (s : UserSem) (p : ℕ) (sems : Sems) (result : DownResult) : UserSem where
  sems := sems
  waiting := update s.waiting p none
  handed := s.handed.erase p
  ups := s.ups
  downs := if result = .ok then s.downs + 1 else s.downs

/-- The state after a call of `__up`. -/
def posted (s : UserSem) (sems : Sems) : UserSem where
  sems := sems
  waiting := s.waiting
  handed := (s.queue x).head?.toList ++ s.handed
  ups := s.ups + 1
  downs := s.downs

/-- One step: only a running process calls, and only one that runs again returns. -/
def Step (driver : ℕ → ℕ → SchedM Unit) (s : UserSem) : UsemCall → UserSem → Prop
  | .wait p timeout got, s' => (s.proc p).state = .runnable ∧ s.waiting p = none ∧
      ∃ sems, usemDown p x timeout s.sems = .done got sems ∧ s' = s.enter p timeout sems got
  | .resume p result, s' => (s.proc p).state = .runnable ∧ ∃ c, s.waiting p = some c ∧
      ∃ sems, usemDownResume p x c s.sems = .done result sems ∧ s' = s.leave p sems result
  | .post, s' => ∃ sems, usemUp x s.sems = .done () sems ∧ s' = s.posted x sems
  | .tick, s' => ∃ sems, onSched (clockTick driver) s.sems = .done () sems ∧
      s' = { s with sems := sems }
  | .kill p, s' => ∃ sems, onSched (killWakeup p) s.sems = .done () sems ∧
      s' = { s with sems := sems }

/-- When `__up` may be called: the first process in the queue, if there is one, still sleeps,
and otherwise the value does not overflow. -/
def Calm (s : UserSem) : Prop :=
  (∀ p ∈ (s.queue x).head?, (s.proc p).state = .sleeping) ∧
  (s.queue x = [] → s.value x + 1 < 2 ^ 31)

/-- The process waits in the queue; the clock or `__do_kill` may have woken it up. -/
def Asleep (s : UserSem) (p : ℕ) : Prop := s.sems.wakeupFlags p = wtInterrupted ∧
  (s.proc p = ⟨.sleeping, wtUsem⟩ ∨ (s.proc p).state = .runnable)

/-- What holds between the steps, from an initial value on. -/
structure Inv (init : ℤ) (s : UserSem) : Prop where
  timers : TimersInv s.sems.sched
  valid : (s.sems.sem x).valid = true
  low : -2 ^ 31 ≤ s.value x
  high : s.value x < 2 ^ 31
  tokens : TokenQueue s.Asleep (fun p => s.sems.wakeupFlags p = wtUsem)
    (fun p => s.waiting p ≠ none) (s.value x) (s.queue x) s.handed
  timer : ∀ t ∈ s.sems.sched.timerList,
    (s.sems.sched.timer t).proc = some t ∧ ∃ c, s.waiting t = some c ∧ c.timeout ≠ 0
  count : s.value x + s.handed.length + s.downs = init + s.ups

variable {x} {s s' : UserSem} {init : ℤ} {driver : ℕ → ℕ → SchedM Unit} {p timeout : ℕ}
  {E : Fault → Sems → Prop} {H : Prop} {v : Sched} {timer : Option ℕ} {c : WaitCall}

theorem Inv.of_parts {sem : Semaphore} {handed : List ℕ} (hsem : s.sems.sem x = sem)
    (hhanded : s.handed = handed) (htimers : TimersInv s.sems.sched)
    (hvalid : sem.valid = true) (hvalue : -2 ^ 31 ≤ sem.value ∧ sem.value < 2 ^ 31)
    (htokens : TokenQueue s.Asleep (fun p => s.sems.wakeupFlags p = wtUsem)
      (fun p => s.waiting p ≠ none) sem.value sem.waitQueue handed)
    (htimer : ∀ t ∈ s.sems.sched.timerList,
      (s.sems.sched.timer t).proc = some t ∧ ∃ c, s.waiting t = some c ∧ c.timeout ≠ 0)
    (hcount : sem.value + handed.length + s.downs = init + s.ups) : Inv x init s := by
  subst hsem hhanded
  exact ⟨htimers, hvalid, hvalue.1, hvalue.2, htokens, htimer, hcount⟩

section

variable (h : Inv x init s)
include h

/-- The clock and `__do_kill` take timers out and wake processes up, no more. -/
theorem Inv.setSched (ht : TimersInv v) (hlist : ∀ t ∈ v.timerList, t ∈ s.sems.sched.timerList)
    (howner : ∀ t ∈ v.timerList, (v.timer t).proc = (s.sems.sched.timer t).proc)
    (hproc : ∀ p, v.proc p = s.proc p ∨ (v.proc p).state = .runnable) :
    Inv x init { s with sems := s.sems.setSched v } := by
  refine ⟨ht, h.valid, h.low, h.high, h.tokens.frame (fun _ => Iff.rfl) (fun p _ ha => ?_)
    (fun _ _ hg => hg), fun t ht => ?_, h.count⟩
  · refine ⟨ha.1, ?_⟩
    show v.proc p = _ ∨ (v.proc p).state = _
    rcases hproc p with heq | hrun
    · rw [heq]
      exact ha.2
    · exact .inr hrun
  · rw [← (h.timer t (hlist t ht)).1]
    exact ⟨howner t ht, (h.timer t (hlist t ht)).2⟩

theorem Inv.tick (hstep : Step x driver s .tick s') : Inv x init s' := by
  obtain ⟨sems, hcall, rfl⟩ := hstep
  obtain ⟨v, hdone, rfl⟩ := of_zoom_done hcall
  obtain ⟨hv, hticked⟩ := clockTick_done h.timers hdone
  exact h.setSched hv (fun t ht => ((hticked.mem t).mp ht).1) (fun t _ => hticked.owner t)
    hticked.proc_eq_or

theorem Inv.kill (hstep : Step x driver s (.kill p) s') : Inv x init s' := by
  obtain ⟨sems, hcall, rfl⟩ := hstep
  have hwp : (onSched (killWakeup p)).wp True Any
      (fun _ sems => Inv x init { s with sems := sems }) s.sems := by
    rw [wp_onSched]
    refine wp_killWakeup h (h.setSched h.timers.wakeup (fun t ht => ?_) (fun t _ => ?_)
      proc_wake_eq_or)
    · change t ∈ (s.sems.sched.wake p).timerList at ht
      rwa [timerList_wake] at ht
    · show ((s.sems.sched.wake p).timer t).proc = _
      rw [timer_wake]
  exact hwp.of_done hcall

/-- `__up` finds the queue empty. -/
theorem Inv.increment (hqueue : s.queue x = []) (hvalue : s.value x + 1 < 2 ^ 31) :
    Inv x init (s.posted x (s.sems.setValue x (intWrap (s.value x + 1)))) := by
  have hlow := h.low
  have hcount := h.count
  rw [intWrap_of_lt (by omega) hvalue]
  have hhanded : (s.queue x).head?.toList ++ s.handed = s.handed := by
    rw [hqueue]
    rfl
  refine .of_parts Sems.sem_setValue_self hhanded h.timers h.valid
    (show -2 ^ 31 ≤ s.value x + 1 ∧ s.value x + 1 < 2 ^ 31 by omega)
    (h.tokens.setValue hqueue) h.timer ?_
  show s.value x + 1 + (s.handed.length : ℤ) + (s.downs : ℤ) = init + ((s.ups + 1 : ℕ) : ℤ)
  omega

/-- `__up` hands its token to the first process of the queue. -/
theorem Inv.handOver {rest : List ℕ} (hqueue : s.queue x = p :: rest) :
    Inv x init (s.posted x (s.sems.handOver p x wtUsem)) := by
  have hcount := h.count
  have hhanded : (s.queue x).head?.toList ++ s.handed = p :: s.handed := by
    rw [hqueue]
    rfl
  refine .of_parts Sems.sem_setQueue_self hhanded h.timers.wakeup h.valid ⟨h.low, h.high⟩ ?_
    (fun t ht => ?_) ?_
  · refine h.tokens.handOver hqueue (update_self p _ s.sems.wakeupFlags) (fun q hq ha => ?_)
      fun q hq hg => (update_of_ne hq _ s.sems.wakeupFlags).trans hg
    refine ⟨(update_of_ne hq _ s.sems.wakeupFlags).trans ha.1, ?_⟩
    show (s.sems.sched.wake p).proc q = _ ∨ ((s.sems.sched.wake p).proc q).state = _
    rw [proc_wake_of_ne hq]
    exact ha.2
  · change t ∈ (s.sems.sched.wake p).timerList at ht
    rw [timerList_wake] at ht
    show ((s.sems.sched.wake p).timer t).proc = _ ∧ _
    rw [timer_wake]
    exact h.timer t ht
  · show s.value x + ((s.handed.length + 1 : ℕ) : ℤ) + (s.downs : ℤ) = init + ((s.ups + 1 : ℕ) : ℤ)
    omega

/-- `__up` returns if the first process of the queue has not been woken up. -/
theorem wp_usemUp (hcalm : s.Calm x) :
    (usemUp x).wp H E (fun _ sems => Inv x init (s.posted x sems)) s.sems := by
  refine wp_semUp h.valid (fun hqueue => h.increment hqueue (hcalm.2 hqueue)) ?_
  intro p rest hqueue
  have hmem : p ∈ s.queue x := by
    rw [queue, hqueue]
    exact .head _
  have hasleep : s.proc p = ⟨.sleeping, wtUsem⟩ := by
    refine (h.tokens.queued p hmem).2.2.resolve_right fun hrun => ?_
    have hsleep := hcalm.1 p (by rw [queue, hqueue]; rfl)
    rw [hrun] at hsleep
    cases hsleep
  change (s.proc p).waitState = wtUsem ∧ (s.proc p).state ≠ .zombie ∧ _
  rw [hasleep]
  exact ⟨rfl, by simp, h.handOver hqueue⟩

theorem Inv.notMem_timerList (hp : s.waiting p = none) : p ∉ s.sems.sched.timerList := by
  intro hmem
  obtain ⟨-, c, hc, -⟩ := h.timer p hmem
  rw [hp] at hc
  cases hc

/-- `ipc_timer_init` sets a timer that is not queued. -/
theorem Inv.initTimer {e : ℕ} (hp : s.waiting p = none) :
    Inv x init { s with sems := s.sems.setSched (s.sems.sched.initTimer p (some p) e) } := by
  have hnot := h.notMem_timerList hp
  refine h.setSched (h.timers.initTimer hnot) (fun t ht => ht) (fun t ht => ?_) fun q => .inl rfl
  have hne : t ≠ p := fun heq => hnot (heq ▸ ht)
  rw [timer_initTimer_of_ne hne]

/-- `__down` finds a token. -/
theorem Inv.take (hpos : 0 < s.value x) :
    Inv x init (s.enter p timeout (s.sems.setValue x (s.value x - 1)) true) := by
  have hhigh := h.high
  have hcount := h.count
  refine .of_parts Sems.sem_setValue_self rfl h.timers h.valid
    (show -2 ^ 31 ≤ s.value x - 1 ∧ s.value x - 1 < 2 ^ 31 by omega)
    (h.tokens.setValue (h.tokens.empty hpos)) h.timer ?_
  show s.value x - 1 + (s.handed.length : ℤ) + ((s.downs + 1 : ℕ) : ℤ) = init + (s.ups : ℤ)
  omega

/-- `__down` puts the process to sleep, with the scheduler left in `v`. -/
theorem Inv.sleep (hp : s.waiting p = none) (hpos : ¬0 < s.value x) (htimers : TimersInv v)
    (hproc : v.proc = (s.sems.sched.sleep p wtUsem).proc)
    (htimer : ∀ t ∈ v.timerList, (v.timer t).proc = some t ∧
      (t = p ∧ timeout ≠ 0 ∨ t ≠ p ∧ ∃ c, s.waiting t = some c ∧ c.timeout ≠ 0)) :
    Inv x init (s.enter p timeout ((s.sems.enqueue p x wtUsem).setSched v) false) := by
  refine .of_parts Sems.sem_setQueue_self rfl htimers h.valid ⟨h.low, h.high⟩ ?_ (fun t ht => ?_)
    h.count
  · refine h.tokens.enqueue (by simp [hp]) hpos (fun q => ?_)
      ⟨update_self p _ s.sems.wakeupFlags, ?_⟩
      (fun q hq ha => ⟨(update_of_ne hq _ s.sems.wakeupFlags).trans ha.1, ?_⟩)
      fun q hq hg => (update_of_ne hq _ s.sems.wakeupFlags).trans hg
    · show update s.waiting p _ q ≠ none ↔ _
      by_cases hq : q = p
      · simp [hq]
      · simp [hq]
    · show v.proc p = _ ∨ (v.proc p).state = _
      rw [hproc]
      exact .inl (update_self p _ s.sems.sched.proc)
    · show v.proc q = _ ∨ (v.proc q).state = _
      have hq' : v.proc q = s.proc q := by
        rw [hproc]
        exact update_of_ne hq _ s.sems.sched.proc
      rw [hq']
      exact ha.2
  · refine ⟨(htimer t ht).1, ?_⟩
    rcases (htimer t ht).2 with ⟨rfl, htimeout⟩ | ⟨hne, hc⟩
    · exact ⟨_, update_self t _ s.waiting, htimeout⟩
    · show ∃ c, update s.waiting p _ t = some c ∧ _
      rwa [update_of_ne hne]

/-- `__down` with a timer that `ipc_timer_init` set, or with none. -/
theorem wp_semDown_of_inv (hp : s.waiting p = none)
    (htimer : ∀ t ∈ timer, t = p ∧ timeout ≠ 0 ∧ 0 < s.sems.sched.expires p ∧
      (s.sems.sched.timer p).isLinuxTimer = false ∧ (s.sems.sched.timer p).proc = some p) :
    (semDown p x wtUsem timer).wp H E (fun got sems => Inv x init (s.enter p timeout sems got))
      s.sems := by
  have hwake : Wakeable ⟨.sleeping, wtUsem⟩ := ⟨by simp, .inr (by decide)⟩
  have hasleep : TimersInv (s.sems.sched.sleep p wtUsem) := h.timers.setProc fun _ => hwake
  have hold : ∀ t ∈ s.sems.sched.timerList, (s.sems.sched.timer t).proc = some t ∧
      (t = p ∧ timeout ≠ 0 ∨ t ≠ p ∧ ∃ c, s.waiting t = some c ∧ c.timeout ≠ 0) := by
    intro t ht
    obtain ⟨howner, hc⟩ := h.timer t ht
    exact ⟨howner, .inr ⟨fun heq => h.notMem_timerList hp (heq ▸ ht), hc⟩⟩
  refine wp_semDown h.valid h.take fun hpos => ?_
  cases timer with
  | none => exact h.sleep hp hpos hasleep rfl hold
  | some t =>
    obtain ⟨rfl, htimeout, hexpires, hlinux, howner⟩ := htimer t rfl
    have hwaits : ¬(s.sems.sched.sleep t wtUsem).Waits t := by
      rintro ⟨u, hu, hproc⟩
      cases (h.timer u hu).1.symm.trans hproc
      exact h.notMem_timerList hp hu
    show (onSched (addTimer t)).wp H E _ (s.sems.enqueue t x wtUsem)
    rw [wp_onSched]
    refine wp_armTimer hasleep (h.notMem_timerList hp) hexpires hlinux howner ?_ hwaits
      fun v pre post hinv hplaced _ => ?_
    · show Wakeable (update s.sems.sched.proc t _ t)
      rw [update_self]
      exact hwake
    · refine h.sleep hp hpos hinv hplaced.same.proc fun u hu => ?_
      rw [hplaced.same.owner]
      rcases hplaced.mem.mp hu with rfl | hu
      · exact ⟨howner, .inl ⟨rfl, htimeout⟩⟩
      · exact hold u hu

theorem wp_usemDown (hp : s.waiting p = none) :
    (usemDown p x timeout).wp H E (fun got sems => Inv x init (s.enter p timeout sems got))
      s.sems := by
  rw [usemDown, wp_bind, ipcTimerInit]
  refine wp_if (fun htimeout => ?_) fun _ => ?_
  · refine wp_semDown_of_inv (h.initTimer hp) hp fun t ht => ?_
    obtain rfl : p = t := by simpa using ht
    show p = p ∧ timeout ≠ 0 ∧ 0 < ((s.sems.sched.initTimer p (some p) timeout).timer p).expires ∧
      ((s.sems.sched.initTimer p (some p) timeout).timer p).isLinuxTimer = false ∧
      ((s.sems.sched.initTimer p (some p) timeout).timer p).proc = some p
    rw [timer_initTimer_self]
    exact ⟨rfl, htimeout, Nat.pos_of_ne_zero htimeout, rfl, rfl⟩
  · exact wp_semDown_of_inv h hp nofun

/-- A process that runs again leaves `__down`, with 0 if it was handed a token. -/
theorem Inv.resume {result : DownResult} (htimers : TimersInv v)
    (hproc : v.proc = s.sems.sched.proc)
    (htimer : ∀ t ∈ v.timerList, t ∈ s.sems.sched.timerList ∧ t ≠ p ∧
      (v.timer t).proc = (s.sems.sched.timer t).proc)
    (hresult : result = .ok ↔ p ∈ s.handed) :
    Inv x init (s.leave p ((s.sems.setSched v).setQueue x ((s.queue x).erase p)) result) := by
  refine .of_parts Sems.sem_setQueue_self rfl htimers h.valid ⟨h.low, h.high⟩ ?_ (fun t ht => ?_) ?_
  · refine (h.tokens.frame (fun _ => Iff.rfl) (fun q _ ha => ⟨ha.1, ?_⟩) fun _ _ hg => hg).leave
      fun q => ?_
    · show update s.waiting p none q ≠ none ↔ _
      by_cases hq : q = p
      · simp [hq]
      · simp [hq]
    · show v.proc q = _ ∨ (v.proc q).state = _
      rw [hproc]
      exact ha.2
  · obtain ⟨hold, hne, howner⟩ := htimer t ht
    obtain ⟨howner', hc⟩ := h.timer t hold
    refine ⟨howner.trans howner', ?_⟩
    show ∃ c, update s.waiting p none t = some c ∧ _
    rwa [update_of_ne hne]
  · have hcount := h.count
    show s.value x + ((s.handed.erase p).length : ℤ) +
      ((if result = .ok then s.downs + 1 else s.downs : ℕ) : ℤ) = init + (s.ups : ℤ)
    by_cases hok : result = .ok
    · have hlength := length_erase_add_one (hresult.mp hok)
      rw [if_pos hok]
      omega
    · rw [if_neg hok, erase_of_not_mem (mt hresult.mpr hok)]
      exact hcount

/-- The timer of a process that runs again is not queued any more. -/
theorem wp_ipcDelTimer {Q : Unit → Sems → Prop} (hc : s.waiting p = some c)
    (hQ : ∀ v : Sched, TimersInv v → v.proc = s.sems.sched.proc → v.ticks = s.sems.sched.ticks →
      (∀ t ∈ v.timerList, t ∈ s.sems.sched.timerList ∧ t ≠ p ∧
        (v.timer t).proc = (s.sems.sched.timer t).proc) → Q () (s.sems.setSched v)) :
    (ipcDelTimer (c.timer p)).wp H E Q s.sems := by
  unfold WaitCall.timer
  by_cases htimeout : c.timeout ≠ 0
  · rw [if_pos htimeout]
    show (onSched (delTimer p)).wp H E Q s.sems
    rw [wp_onSched]
    refine wp_delTimer h.timers.toQueued (by simp [h.timers.nofree]) (fun hnot => ?_)
      fun v pre post hplaced _ => ?_
    · exact hQ _ h.timers rfl rfl fun t ht => ⟨ht, fun heq => hnot (heq ▸ ht), rfl⟩
    · refine hQ v (h.timers.remove hplaced) hplaced.same.proc.symm hplaced.same.ticks.symm
        fun t ht => ⟨hplaced.mem.mpr (.inr ht), fun heq => ?_, (hplaced.same.owner t).symm⟩
      rw [hplaced.erase h.timers.nodup, heq] at ht
      exact h.timers.nodup.not_mem_erase ht
  · rw [if_neg htimeout]
    refine hQ _ h.timers rfl rfl fun t ht => ⟨ht, fun heq => ?_, rfl⟩
    obtain ⟨-, c', hc', htimeout'⟩ := h.timer t ht
    rw [heq, hc, Option.some.injEq] at hc'
    exact htimeout (hc' ▸ htimeout')

theorem wp_usemDownResume (hc : s.waiting p = some c) :
    (usemDownResume p x c).wp H E (fun result sems => (result = .ok ↔ p ∈ s.handed) ∧
      Inv x init (s.leave p sems result)) s.sems := by
  have hwaiting : s.waiting p ≠ none := by simp [hc]
  rw [usemDownResume, wp_bind]
  refine wp_semDownResume (wp_ipcDelTimer h hc fun v htimers hproc _ htimer => ?_)
  by_cases hmem : p ∈ s.queue x
  · -- nobody took the process out of the queue: it was interrupted
    have hnot : p ∉ s.handed := fun hp => ((h.tokens.mem_handed p).mp hp).2 hmem
    have hflags' : (if wtInterrupted ≠ wtUsem then wtInterrupted else 0) = wtInterrupted := by
      decide
    have hself : (s.sems.setSched v).wakeupFlags p = wtInterrupted := (h.tokens.queued p hmem).2.1
    rw [hself]
    refine wp_check rfl ?_
    have hne : ∀ b : Prop, [Decidable b] →
        ((if b then .timeout else .interrupted : DownResult) = .ok ↔ p ∈ s.handed) := by
      intro b _
      refine ⟨fun heq => ?_, fun hp => absurd hp hnot⟩
      split at heq <;> cases heq
    exact ⟨hne _, h.resume htimers hproc htimer (hne _)⟩
  · have hhanded : p ∈ s.handed := (h.tokens.mem_handed p).mpr ⟨hwaiting, hmem⟩
    have hself : (s.sems.setSched v).wakeupFlags p = wtUsem := h.tokens.of_handed p hhanded
    rw [hself]
    have hok : DownResult.ok = .ok ↔ p ∈ s.handed := ⟨fun _ => hhanded, fun _ => rfl⟩
    exact ⟨hok, h.resume htimers hproc htimer hok⟩

end

/-! ## Runs -/

/-- A semaphore that nobody has used yet. -/
structure Init (x : ℕ) (init : ℤ) (s : UserSem) : Prop where
  value : s.value x = init
  low : -2 ^ 31 ≤ init
  high : init < 2 ^ 31
  valid : (s.sems.sem x).valid = true
  queue : s.queue x = []
  waiting : ∀ p, s.waiting p = none
  handed : s.handed = []
  ups : s.ups = 0
  downs : s.downs = 0
  timerList : s.sems.sched.timerList = []
  freed : s.sems.sched.freed = []

theorem Init.inv (h : Init x init s) : Inv x init s := by
  refine ⟨.boot h.timerList h.freed, h.valid, by rw [h.value]; exact h.low,
    by rw [h.value]; exact h.high, ?_, ?_, ?_⟩
  · rw [h.queue, h.handed]
    exact .nil fun p => by simp [h.waiting p]
  · rw [h.timerList]
    exact nofun
  · rw [h.value, h.handed, h.ups, h.downs]
    simp

/-- A step in which `__up` is called only when the first process of the queue still sleeps. -/
def CalmStep (x : ℕ) (driver : ℕ → ℕ → SchedM Unit) (s : UserSem) (c : UsemCall) (s' : UserSem) :
    Prop := Step x driver s c s' ∧ (c = .post → s.Calm x)

theorem CalmStep.inv {c : UsemCall} (hstep : CalmStep x driver s c s') (h : Inv x init s) :
    Inv x init s' := by
  obtain ⟨hstep, hcalm⟩ := hstep
  cases c with
  | wait p timeout got =>
    obtain ⟨-, hp, sems, hcall, rfl⟩ := hstep
    exact (wp_usemDown h hp).of_call hcall
  | resume p result =>
    obtain ⟨-, c, hc, sems, hcall, rfl⟩ := hstep
    exact ((wp_usemDownResume h hc).of_call hcall).2
  | post =>
    obtain ⟨sems, hcall, rfl⟩ := hstep
    exact (wp_usemUp h (hcalm rfl)).of_call hcall
  | tick => exact h.tick hstep
  | kill p => exact h.kill hstep

theorem wp_semDown_value {w : WaitState} {m : Sems} :
    (semDown p x w timer).wp True Any (fun got sems => (sems.sem x).value =
      if got then (m.sem x).value - 1 else (m.sem x).value) m := by
  refine wp_assume trivial fun _ => ?_
  refine wp_if (fun _ => congrArg Semaphore.value Sems.sem_setValue_self) fun _ => ?_
  have hsem : (m.enqueue p x w).sem x = { m.sem x with waitQueue := (m.sem x).waitQueue ++ [p] } :=
    Sems.sem_setQueue_self
  have hvalue : ((m.enqueue p x w).sem x).value = (m.sem x).value := by rw [hsem]
  rw [wp_bind, waitCurrentSet, wp_modify, wp_bind]
  cases timer with
  | none => exact hvalue
  | some t =>
    show (onSched (addTimer t)).wp _ _ _ (m.enqueue p x w)
    rw [wp_onSched]
    exact wp_any fun _ _ => hvalue

/-- A call of `__down` that returns at once has taken one from the value; one that sleeps has
taken nothing. -/
theorem usemDown_value {got : Bool} {m sems : Sems}
    (hcall : usemDown p x timeout m = .done got sems) :
    (sems.sem x).value = if got then (m.sem x).value - 1 else (m.sem x).value := by
  have hwp : (usemDown p x timeout).wp True Any (fun got sems => (sems.sem x).value =
      if got then (m.sem x).value - 1 else (m.sem x).value) m := by
    rw [usemDown, wp_bind, ipcTimerInit]
    refine wp_if (fun _ => ?_) fun _ => wp_semDown_value
    rw [wp_bind, wp_onSched]
    exact wp_semDown_value
  exact hwp.of_done hcall

/-- As long as `__up` is only called when the first process of the queue still sleeps: every
token is in the value, in the hands of a waiter or returned; a positive value leaves nobody
asleep in the queue; a call returns 0 exactly if it took or was handed a token; and no assertion
fails. -/
theorem user_sem_hands_over {s₀ : UserSem} {cs : List UsemCall} (hinit : Init x init s₀)
    (hrun : Run (CalmStep x driver) s₀ cs s) :
    s.value x + s.handed.length + s.downs - s.ups = init ∧
    (0 < s.value x → ∀ p ∈ s.queue x, (s.proc p).state ≠ .sleeping) ∧
    (∀ p timeout got s', Step x driver s (.wait p timeout got) s' →
      s'.value x = if got then s.value x - 1 else s.value x) ∧
    (∀ p result s', Step x driver s (.resume p result) s' → (result = .ok ↔ p ∈ s.handed)) ∧
    (∀ p c, s.waiting p = some c → ∃ result sems, usemDownResume p x c s.sems = .done result sems) ∧
    (s.Calm x → ∃ sems, usemUp x s.sems = .done () sems) := by
  have h : Inv x init s := hrun.invariant (fun _ _ _ h hstep => hstep.inv h) hinit.inv
  refine ⟨?_, fun hpos => ?_, fun p timeout got s' hstep => ?_, fun p result s' hstep => ?_,
    fun p c hc => ?_, fun hcalm => ?_⟩
  · have hcount := h.count
    omega
  · rw [h.tokens.empty hpos]
    exact nofun
  · obtain ⟨-, -, sems, hcall, rfl⟩ := hstep
    cases got with
    | true | false => exact usemDown_value hcall
  · obtain ⟨-, c, hc, sems, hcall, -⟩ := hstep
    exact ((wp_usemDownResume h hc).of_call hcall).1
  · obtain ⟨result, sems, hcall, -⟩ := (wp_usemDownResume h hc).returns_done
    exact ⟨result, sems, hcall⟩
  · obtain ⟨_, sems, hcall, -⟩ := (wp_usemUp h hcalm).returns_done
    exact ⟨sems, hcall⟩

/-- Running processes and a semaphore without tokens. -/
def idleSem : UserSem where
  sems := ⟨⟨fun _ => ⟨.runnable, 0⟩, fun _ => ⟨0, none, ⟨none, 0, none⟩⟩, [], [], 0, []⟩,
    fun _ => ⟨0, true, []⟩, fun _ => 0⟩
  waiting := fun _ => none
  handed := []
  ups := 0
  downs := 0

theorem init_idleSem : Init 0 0 idleSem :=
  ⟨rfl, by decide, by decide, rfl, rfl, fun _ => rfl, rfl, rfl, rfl, rfl, rfl⟩

/-- A process waits, another posts, and the first returns 0. -/
theorem user_sem_hands_over_once : ∃ s,
    Run (CalmStep 0 fun _ _ => return ()) idleSem [.wait 5 0 false, .post] s ∧
      s.value 0 = 0 ∧ s.handed = [5] ∧
      ∃ result sems, usemDownResume 5 0 ⟨0, 0⟩ s.sems = .done result sems := by
  refine Run.exists_imp (P := fun s => s.value 0 = 0 ∧ s.handed = [5] ∧ s.waiting 5 = some ⟨0, 0⟩)
    ?_ ?_
  · refine ⟨_, .cons ⟨⟨rfl, rfl, _, rfl, rfl⟩, by simp⟩ (.cons ⟨⟨_, rfl, rfl⟩, fun _ => ?_⟩
      (.nil _)), ?_, ?_, ?_⟩
    · exact ⟨by decide, by decide⟩
    · rfl
    · rfl
    · rfl
  · rintro s hrun ⟨hvalue, hhanded, hwaiting⟩
    obtain ⟨-, -, -, -, hresume, -⟩ := user_sem_hands_over init_idleSem hrun
    exact ⟨hvalue, hhanded, hresume 5 ⟨0, 0⟩ hwaiting⟩

/-- A process waits with a time-out of one tick. After the tick it is runnable but still first
in the queue, and `__up` fails its assertion. -/
theorem user_sem_post_after_timeout : ∃ s,
    Run (Step 0 fun _ _ => return ()) idleSem [.wait 5 1 false, .tick] s ∧
      s.queue 0 = [5] ∧ usemUp 0 s.sems = .halt .assertion := by
  refine ⟨_, .cons ⟨rfl, rfl, _, rfl, rfl⟩ (.cons ⟨_, rfl, rfl⟩ (.nil _)), ?_, ?_⟩
  · rfl
  · rfl

end UserSem

end Ucore.Sync
