import Ucore.Lib.TokenQueue
import Ucore.Signal.Send
import Ucore.Sync.Semaphores

/-!
# Kernel semaphores

Any number of semaphores that start at 1 under `down` and `up`, together with signals: threads
and thread groups are sent signals, are stopped, go to sleep for other reasons and are woken up
again, in any order. The state keeps, beside what the kernel keeps, where each process waits,
which processes were handed a token and which are between `down` and `up`.
-/

namespace Ucore.Sync

open Kern Function List

/-- `down` up to its call of `schedule`; it answers whether it returned before that. -/
def ksemDown (p x : ℕ) : SemsM Bool := semDown p x wtKsem none

/-- `down` after its call of `schedule`. -/
def ksemDownResume (p x : ℕ) : SemsM Unit := do
  let flags ← semDownResume p x wtKsem none
  assert (flags = 0)

/-- `up`. -/
def ksemUp (x : ℕ) : SemsM Unit := semUp x wtKsem

/-- The kernel's state and the whereabouts of the tokens. -/
structure KernSem where
  sems : Sems
  sig : SigTables
  /-- The semaphore in whose `down` a process is, after `schedule` was called. -/
  waiting : ℕ → Option ℕ
  /-- The processes that `up` has handed a semaphore's token and that have not returned yet. -/
  handed : ℕ → List ℕ
  /-- The processes between `down` and `up` of a semaphore. -/
  holders : ℕ → List ℕ

/-- The steps of the system; the first process is the one that runs. -/
inductive KsemCall where
  | down (p x : ℕ) (got : Bool)
  | resume (p : ℕ)
  | up (p x : ℕ)
  | sendSpecific (p sign dst : ℕ)
  | sendGroup (p sign dst : ℕ)
  | signalStop (p : ℕ)
  /-- Sleep for another reason. -/
  | sleep (p : ℕ) (w : WaitState)
  /-- A wake-up by code that has looked at the reason of the sleep. -/
  | wakeup (q : ℕ)

namespace KernSem

def queue (s : KernSem) (x : ℕ) : List ℕ := (s.sems.sem x).waitQueue

def value (s : KernSem) (x : ℕ) : ℤ := (s.sems.sem x).value

def proc (s : KernSem) (p : ℕ) : Proc := s.sems.sched.proc p

/-- The process runs and is not inside `down`. -/
def Runs (s : KernSem) (p : ℕ) : Prop := (s.proc p).state = .runnable ∧ s.waiting p = none

def sigState (s : KernSem) : SigState := ⟨s.sig, s.sems.sched⟩

def setSig (s : KernSem) (v : SigState) : KernSem :=
  { s with sems := s.sems.setSched v.sched, sig := v.toSigTables }

/-- The state after the first part of a call of `down`. -/
def enter (s : KernSem) (p x : ℕ) (sems : Sems) : Bool → KernSem
  | true => { s with
      sems := sems
      holders := update s.holders x (p :: s.holders x) }
  | false => { s with
      sems := sems
      waiting := update s.waiting p (some x) }

/-- The state after `down` returned. -/
def leave (s : KernSem) (p x : ℕ) (sems : Sems) : KernSem where
  sems := sems
  sig := s.sig
  waiting := update s.waiting p none
  handed := update s.handed x ((s.handed x).erase p)
  holders := update s.holders x (p :: s.holders x)

/-- The state after `up` returned. -/
def posted (s : KernSem) (p x : ℕ) (sems : Sems) : KernSem where
  sems := sems
  sig := s.sig
  waiting := s.waiting
  handed := update s.handed x ((s.queue x).head?.toList ++ s.handed x)
  holders := update s.holders x ((s.holders x).erase p)

/-- One step. -/
def Step (s : KernSem) : KsemCall → KernSem → Prop
  | .down p x got, s' => s.Runs p ∧
      ∃ sems, ksemDown p x s.sems = .done got sems ∧ s' = s.enter p x sems got
  | .resume p, s' => (s.proc p).state = .runnable ∧ ∃ x, s.waiting p = some x ∧
      ∃ sems, ksemDownResume p x s.sems = .done () sems ∧ s' = s.leave p x sems
  | .up p x, s' => s.Runs p ∧ p ∈ s.holders x ∧
      ∃ sems, ksemUp x s.sems = .done () sems ∧ s' = s.posted p x sems
  | .sendSpecific p sign dst, s' => s.Runs p ∧
      ∃ r v, specificSendSigInfo sign dst s.sigState = .done r v ∧ s' = s.setSig v
  | .sendGroup p sign dst, s' => s.Runs p ∧
      ∃ r v, groupSendSigInfo p sign dst s.sigState = .done r v ∧ s' = s.setSig v
  | .signalStop p, s' => s.Runs p ∧
      ∃ v, doSignalStop p s.sigState = .done () v ∧ s' = s.setSig v
  | .sleep p w, s' => s.Runs p ∧ w ≠ wtKsem ∧
      s' = { s with sems := s.sems.setSched (s.sems.sched.sleep p w) }
  | .wakeup q, s' => ¬InDown (s.proc q) ∧
      ∃ sems, onSched (wakeupProc q) s.sems = .done () sems ∧ s' = { s with sems := sems }

/-- When a signal may be sent: `SIGKILL` goes to no thread, and to no thread group with a
thread, that sleeps in `down`. -/
def Calm (s : KernSem) : KsemCall → Prop
  | .sendSpecific _ sign dst => sign = sigKill → ¬InDown (s.proc dst)
  | .sendGroup _ sign dst => sign = sigKill → ∀ q ∈ s.sigState.candidates dst, ¬InDown (s.proc q)
  | _ => True

/-- The process sleeps in `down`, and nobody has woken it up. -/
def Asleep (s : KernSem) (p : ℕ) : Prop :=
  InDown (s.proc p) ∧ s.sems.wakeupFlags p = wtInterrupted

/-- The process was woken up with the token. -/
def Given (s : KernSem) (p : ℕ) : Prop := s.sems.wakeupFlags p = wtKsem ∧ ¬InDown (s.proc p)

/-- What holds of one semaphore between the steps. -/
structure SemOk (s : KernSem) (x : ℕ) : Prop where
  valid : (s.sems.sem x).valid = true
  nonneg : 0 ≤ s.value x
  tokens : TokenQueue s.Asleep s.Given (fun p => s.waiting p = some x) (s.value x) (s.queue x)
    (s.handed x)
  count : s.value x + (s.holders x).length + (s.handed x).length = 1

/-- What holds between the steps. -/
def Inv (s : KernSem) : Prop := ∀ x, s.SemOk x

variable {s s' : KernSem} {p x y : ℕ} {E : Fault → Sems → Prop} {c : KsemCall} {H : Prop}

theorem SemOk.of_parts {sem : Semaphore} {handed holders : List ℕ} (hsem : s.sems.sem x = sem)
    (hhanded : s.handed x = handed) (hholders : s.holders x = holders) (hvalid : sem.valid = true)
    (hnonneg : 0 ≤ sem.value)
    (htokens : TokenQueue s.Asleep s.Given (fun p => s.waiting p = some x) sem.value sem.waitQueue
      handed) (hcount : sem.value + holders.length + handed.length = 1) : s.SemOk x := by
  subst hsem hhanded hholders
  exact ⟨hvalid, hnonneg, htokens, hcount⟩

/-- A step that leaves a semaphore and the processes in its `down` alone. -/
theorem SemOk.frame (h : s.SemOk x) (hsem : s'.sems.sem x = s.sems.sem x)
    (hhanded : s'.handed x = s.handed x) (hholders : s'.holders x = s.holders x)
    (hwaiting : ∀ p, s'.waiting p = some x ↔ s.waiting p = some x)
    (hflags : ∀ p, s.waiting p = some x → s'.sems.wakeupFlags p = s.sems.wakeupFlags p)
    (hproc : ∀ p, s.waiting p = some x → (InDown (s'.proc p) ↔ InDown (s.proc p))) :
    s'.SemOk x :=
  .of_parts hsem hhanded hholders h.valid h.nonneg (h.tokens.frame hwaiting
    (fun p hw ha => ⟨(hproc p hw).mpr ha.1, (hflags p hw).trans ha.2⟩)
    fun p hw hg => ⟨(hflags p hw).trans hg.1, mt (hproc p hw).mp hg.2⟩) h.count

/-! ## `down` -/

/-- `down` finds the token. -/
theorem Inv.take (h : Inv s) (hpos : 0 < s.value x) :
    Inv (s.enter p x (s.sems.setValue x (s.value x - 1)) true) := by
  intro y
  rcases eq_or_ne y x with rfl | hy
  · have hcount := (h y).count
    refine .of_parts Sems.sem_setValue_self rfl (update_self y _ s.holders) (h y).valid
      (show 0 ≤ s.value y - 1 by omega) ((h y).tokens.setValue ((h y).tokens.empty hpos)) ?_
    show s.value y - 1 + (((s.holders y).length + 1 : ℕ) : ℤ) + ((s.handed y).length : ℤ) = 1
    omega
  · exact (h y).frame (update_of_ne hy _ s.sems.sem) rfl
      (update_of_ne hy _ s.holders) (fun _ => Iff.rfl) (fun _ _ => rfl) fun _ _ => Iff.rfl

/-- `down` puts the process to sleep. -/
theorem Inv.sleep (h : Inv s) (hp : s.waiting p = none) (hpos : ¬0 < s.value x) :
    Inv (s.enter p x (s.sems.enqueue p x wtKsem) false) := by
  have hwaiting : ∀ q y, (s.enter p x (s.sems.enqueue p x wtKsem) false).waiting q = some y ↔
      q = p ∧ y = x ∨ s.waiting q = some y := by
    intro q y
    show update s.waiting p _ q = some y ↔ _
    by_cases hq : q = p
    · rw [hq, update_self, hp]
      simp [eq_comm]
    · simp [hq]
  have hflags : ∀ q, q ≠ p →
      (s.enter p x (s.sems.enqueue p x wtKsem) false).sems.wakeupFlags q = s.sems.wakeupFlags q :=
    fun q hq => update_of_ne hq _ s.sems.wakeupFlags
  have hproc : ∀ q, q ≠ p → (s.enter p x (s.sems.enqueue p x wtKsem) false).proc q = s.proc q :=
    fun q hq => update_of_ne hq _ s.sems.sched.proc
  intro y
  rcases eq_or_ne y x with rfl | hy
  · refine .of_parts Sems.sem_setQueue_self rfl rfl (h y).valid (h y).nonneg ?_ (h y).count
    refine (h y).tokens.enqueue (by simp [hp]) hpos (fun q => by simp [hwaiting])
      ⟨update_self p _ s.sems.sched.proc, update_self p _ s.sems.wakeupFlags⟩
      (fun q hq ha => ?_) fun q hq hg => ?_
    · rwa [Asleep, hproc q hq, hflags q hq]
    · rwa [Given, hproc q hq, hflags q hq]
  · have hne : ∀ q, s.waiting q = some y → q ≠ p := by
      rintro q hq rfl
      rw [hp] at hq
      cases hq
    exact (h y).frame (update_of_ne hy _ _) rfl rfl (fun q => by simp [hwaiting, hy])
      (fun q hq => hflags q (hne q hq)) fun q hq => by rw [hproc q (hne q hq)]

/-- A process that was handed the token leaves `down` with it. -/
theorem Inv.resume (h : Inv s) (hp : p ∈ s.handed x) :
    Inv (s.leave p x (s.sems.setQueue x ((s.queue x).erase p))) := by
  have hpx := (((h x).tokens.mem_handed p).mp hp).1
  have hwaiting : ∀ q y, (s.leave p x (s.sems.setQueue x ((s.queue x).erase p))).waiting q =
      some y ↔ q ≠ p ∧ s.waiting q = some y := by
    intro q y
    show update s.waiting p none q = some y ↔ _
    by_cases hq : q = p
    · simp [hq]
    · simp [hq]
  intro y
  rcases eq_or_ne y x with rfl | hy
  · have hcount := (h y).count
    have hlength := length_erase_add_one hp
    refine .of_parts Sems.sem_setQueue_self (update_self y _ s.handed) (update_self y _ s.holders)
      (h y).valid (h y).nonneg ((h y).tokens.leave fun q => hwaiting q y) ?_
    show s.value y + (((s.holders y).length + 1 : ℕ) : ℤ) + _ = 1
    omega
  · refine (h y).frame (update_of_ne hy _ _) (update_of_ne hy _ s.handed)
      (update_of_ne hy _ s.holders) (fun q => ?_) (fun _ _ => rfl) fun _ _ => Iff.rfl
    rw [hwaiting]
    refine ⟨And.right, fun hq => ⟨fun heq => hy ?_, hq⟩⟩
    exact Option.some.inj (hq.symm.trans (heq ▸ hpx))

/-! ## `up` -/

/-- `up` finds nobody in the queue. -/
theorem Inv.increment (h : Inv s) (hp : p ∈ s.holders x) (hqueue : s.queue x = []) :
    Inv (s.posted p x (s.sems.setValue x (intWrap (s.value x + 1)))) := by
  have hlength := length_erase_add_one hp
  have hcount := (h x).count
  have hnonneg := (h x).nonneg
  rw [intWrap_of_lt (by omega) (by omega)]
  intro y
  rcases eq_or_ne y x with rfl | hy
  · have hhanded : (s.posted p y (s.sems.setValue y (s.value y + 1))).handed y = s.handed y := by
      show update s.handed y _ y = _
      rw [update_self, hqueue]
      rfl
    refine .of_parts Sems.sem_setValue_self hhanded (update_self y _ s.holders) (h y).valid
      (show 0 ≤ s.value y + 1 by omega) ((h y).tokens.setValue hqueue) ?_
    show s.value y + 1 + _ + _ = (1 : ℤ)
    omega
  · exact (h y).frame (update_of_ne hy _ s.sems.sem) (update_of_ne hy _ s.handed)
      (update_of_ne hy _ s.holders) (fun _ => Iff.rfl) (fun _ _ => rfl) fun _ _ => Iff.rfl

/-- `up` hands the token to the first process of the queue. -/
theorem Inv.handOver {q : ℕ} {rest : List ℕ} (h : Inv s) (hp : p ∈ s.holders x)
    (hqueue : s.queue x = q :: rest) : Inv (s.posted p x (s.sems.handOver q x wtKsem)) := by
  have hqx := ((h x).tokens.queued q (by rw [hqueue]; exact .head _)).1
  have hflags : ∀ r, r ≠ q → (s.posted p x (s.sems.handOver q x wtKsem)).sems.wakeupFlags r =
      s.sems.wakeupFlags r := fun r hr => update_of_ne hr _ s.sems.wakeupFlags
  have hproc : ∀ r, r ≠ q → (s.posted p x (s.sems.handOver q x wtKsem)).proc r = s.proc r :=
    fun r => proc_wake_of_ne
  intro y
  rcases eq_or_ne y x with rfl | hy
  · have hhanded : (s.posted p y (s.sems.handOver q y wtKsem)).handed y = q :: s.handed y := by
      show update s.handed y _ y = _
      rw [update_self, hqueue]
      rfl
    have hcount := (h y).count
    have hlength := length_erase_add_one hp
    refine .of_parts Sems.sem_setQueue_self hhanded (update_self y _ s.holders) (h y).valid
      (h y).nonneg ?_ ?_
    · refine (h y).tokens.handOver hqueue
        ⟨update_self q _ s.sems.wakeupFlags, not_inDown_of_runnable ?_⟩
        (fun r hr ha => ?_) fun r hr hg => ?_
      · show ((s.sems.sched.wake q).proc q).state = .runnable
        rw [proc_wake_self, Proc.state_woken]
      · rwa [Asleep, hproc r hr, hflags r hr]
      · rwa [Given, hproc r hr, hflags r hr]
    · show s.value y + _ + (((s.handed y).length + 1 : ℕ) : ℤ) = 1
      omega
  · have hne : ∀ r, s.waiting r = some y → r ≠ q := by
      rintro r hr rfl
      exact hy (Option.some.inj (hr.symm.trans hqx))
    exact (h y).frame (update_of_ne hy _ s.sems.sem) (update_of_ne hy _ s.handed)
      (update_of_ne hy _ s.holders) (fun _ => Iff.rfl) (fun r hr => hflags r (hne r hr))
      fun r hr => by rw [hproc r (hne r hr)]

/-! ## Runs -/

/-- What a step does to the state; the calls other than `down` and `up` touch nobody who sleeps
in `down`. -/
inductive Effect (s : KernSem) : KsemCall → KernSem → Prop
  | take {p x : ℕ} (hpos : 0 < s.value x) :
      Effect s (.down p x true) (s.enter p x (s.sems.setValue x (s.value x - 1)) true)
  | sleep {p x : ℕ} (hruns : s.Runs p) (hpos : ¬0 < s.value x) :
      Effect s (.down p x false) (s.enter p x (s.sems.enqueue p x wtKsem) false)
  | resume {p x : ℕ} (hp : p ∈ s.handed x) :
      Effect s (.resume p) (s.leave p x (s.sems.setQueue x ((s.queue x).erase p)))
  | increment {p x : ℕ} (hp : p ∈ s.holders x) (hqueue : s.queue x = []) :
      Effect s (.up p x) (s.posted p x (s.sems.setValue x (intWrap (s.value x + 1))))
  | handOver {p x q : ℕ} {rest : List ℕ} (hp : p ∈ s.holders x) (hqueue : s.queue x = q :: rest) :
      Effect s (.up p x) (s.posted p x (s.sems.handOver q x wtKsem))
  | other {c : KsemCall} {v : Sched} {sig : SigTables} (hkeeps : KeepsDown s.sems.sched v) :
      Effect s c { s with sems := s.sems.setSched v, sig := sig }

/-- `up` by a process between `down` and `up` returns. -/
theorem wp_ksemUp (h : Inv s) (hp : p ∈ s.holders x) :
    (ksemUp x).wp H E (fun _ sems => Effect s (.up p x) (s.posted p x sems)) s.sems := by
  refine wp_semUp (h x).valid (.increment hp) fun q rest hqueue => ?_
  have hdown : InDown (s.sems.sched.proc q) := by
    refine ((h x).tokens.queued q ?_).2.1
    rw [queue, hqueue]
    exact .head _
  rw [hdown]
  exact ⟨rfl, by simp, .handOver hp hqueue⟩

/-- `down` returns to a process that was handed the token. -/
theorem wp_ksemDownResume (h : Inv s) (hp : p ∈ s.handed x) :
    (ksemDownResume p x).wp H E (fun _ sems => Effect s (.resume p) (s.leave p x sems)) s.sems := by
  have hflags : (if s.sems.wakeupFlags p ≠ wtKsem then s.sems.wakeupFlags p else 0) = 0 := by
    rw [((h x).tokens.of_handed p hp).1]
    decide
  rw [ksemDownResume, wp_bind]
  exact wp_semDownResume (wp_assert_of hflags (.resume hp))

/-- A process in `down` that does not sleep there was handed the token. -/
theorem Inv.handed_of_runnable (h : Inv s) (hp : s.waiting p = some x)
    (hrun : (s.proc p).state = .runnable) : p ∈ s.handed x :=
  ((h x).tokens.mem_handed p).mpr
    ⟨hp, fun hmem => not_inDown_of_runnable hrun ((h x).tokens.queued p hmem).2.1⟩

/-- A step in which `SIGKILL` spares the sleepers in `down`. -/
def CalmStep (s : KernSem) (c : KsemCall) (s' : KernSem) : Prop := s.Step c s' ∧ s.Calm c

theorem CalmStep.effect (hstep : CalmStep s c s') (h : Inv s) : Effect s c s' := by
  obtain ⟨hstep, hcalm⟩ := hstep
  cases c with
  | down p x got =>
    obtain ⟨hruns, sems, hcall, rfl⟩ := hstep
    have hwp : (ksemDown p x).wp True Any
        (fun got sems => Effect s (.down p x got) (s.enter p x sems got)) s.sems :=
      wp_semDown (h x).valid .take (.sleep hruns)
    exact hwp.of_done hcall
  | resume p =>
    obtain ⟨hrun, x, hp, sems, hcall, rfl⟩ := hstep
    exact (wp_ksemDownResume h (h.handed_of_runnable hp hrun)).of_call hcall
  | up p x =>
    obtain ⟨-, hp, sems, hcall, rfl⟩ := hstep
    exact (wp_ksemUp h hp).of_call hcall
  | sendSpecific p sign dst =>
    obtain ⟨-, r, v, hcall, rfl⟩ := hstep
    have hwp : (specificSendSigInfo sign dst).wp True Any
        (fun _ v => KeepsDown s.sems.sched v.sched) s.sigState :=
      SigState.wp_specificSend (fun _ => trivial) (fun _ _ => .refl) fun _ _ v hv =>
        hv.down fun hsign q hq => List.mem_singleton.mp hq ▸ hcalm hsign
    exact .other (hwp.of_done hcall)
  | sendGroup p sign dst =>
    obtain ⟨-, r, v, hcall, rfl⟩ := hstep
    have hwp : (groupSendSigInfo p sign dst).wp True Any
        (fun _ v => KeepsDown s.sems.sched v.sched) s.sigState := by
      refine SigState.wp_groupSendInfo (fun _ => trivial) (fun _ => ?_) fun _ _ v hv => ?_
      · rw [SigState.sched_stopHandled]
        exact .refl
      · have hkeeps := hv.down fun hsign q hq => ?_
        · rwa [SigState.sched_stopHandled] at hkeeps
        · subst hsign
          rw [SigState.stopHandled, if_neg (by decide)] at hq ⊢
          exact hcalm rfl q hq
    exact .other (hwp.of_done hcall)
  | signalStop p =>
    obtain ⟨-, v, hcall, rfl⟩ := hstep
    have hwp : (doSignalStop p).wp True Any
        (fun _ v => KeepsDown s.sems.sched v.sched) s.sigState := keepsDown_doSignalStop
    exact .other (hwp.of_done hcall)
  | sleep p w =>
    obtain ⟨hruns, hw, rfl⟩ := hstep
    exact .other (keepsDown_setProc (not_inDown_of_runnable hruns.1) fun hdown =>
      hw (congrArg Proc.waitState hdown))
  | wakeup q =>
    obtain ⟨hq, sems, hcall, rfl⟩ := hstep
    have hwp : (onSched (wakeupProc q)).wp True Any
        (fun _ sems => Effect s (.wakeup q) { s with sems := sems }) s.sems := by
      rw [wp_onSched, wakeupProc, wp_get]
      exact wp_assume trivial fun _ => .other (keepsDown_wake hq)
    exact hwp.of_done hcall

theorem Effect.inv (heffect : Effect s c s') (h : Inv s) : Inv s' := by
  cases heffect with
  | take hpos => exact h.take hpos
  | sleep hruns hpos => exact h.sleep hruns.2 hpos
  | resume hp => exact h.resume hp
  | increment hp hqueue => exact h.increment hp hqueue
  | handOver hp hqueue => exact h.handOver hp hqueue
  | other hkeeps =>
    intro x
    exact (h x).frame rfl rfl rfl (fun _ => Iff.rfl) (fun _ _ => rfl) fun p _ => hkeeps p

/-- Who sleeps in `down` is woken up by the `up` that hands over the token, and by nothing
else. -/
theorem Effect.handed_of_woken (heffect : Effect s c s') (h : Inv s) (hp : s.waiting p = some x)
    (hdown : InDown (s.proc p)) (hwoken : ¬InDown (s'.proc p)) :
    ∃ q, c = .up q x ∧ p ∈ s'.handed x := by
  cases heffect with
  | @sleep q y hruns hpos =>
    have hne : p ≠ q := fun heq => not_inDown_of_runnable hruns.1 (heq ▸ hdown)
    have hsame : (s.sems.enqueue q y wtKsem).sched.proc p = s.proc p :=
      update_of_ne hne _ s.sems.sched.proc
    exact absurd (hsame.trans hdown) hwoken
  | take | resume | increment => exact absurd hdown hwoken
  | @handOver q y r rest hq hqueue =>
    have hmem : r ∈ s.queue y := by
      rw [hqueue]
      exact .head _
    rcases eq_or_ne p r with rfl | hpr
    · obtain rfl : y = x := Option.some.inj (((h y).tokens.queued p hmem).1.symm.trans hp)
      refine ⟨q, rfl, ?_⟩
      show p ∈ update s.handed y _ y
      rw [update_self, hqueue]
      exact .head _
    · have hsame : (s.sems.handOver r y wtKsem).sched.proc p = s.proc p := proc_wake_of_ne hpr
      exact absurd (hsame.trans hdown) hwoken
  | other hkeeps => exact absurd ((hkeeps p).mpr hdown) hwoken

/-- All semaphores are at 1 and nobody uses them. -/
structure Init (s : KernSem) : Prop where
  sem : ∀ x, s.sems.sem x = ⟨1, true, []⟩
  waiting : ∀ p, s.waiting p = none
  handed : ∀ x, s.handed x = []
  holders : ∀ x, s.holders x = []

theorem Init.inv (h : Init s) : Inv s := by
  intro x
  exact .of_parts (h.sem x) (h.handed x) (h.holders x) rfl (by decide)
    (.nil fun p => by simp [h.waiting p]) rfl

/-- As long as `SIGKILL` spares the threads that sleep in `down`: at most one process is between
`down` and `up` of a semaphore; who sleeps in `down` is woken up only by the `up` that hands over
the token; a process that runs again in `down` has been handed the token, and `down` returns; and
`up` returns. -/
theorem kernel_sem_excludes {s₀ : KernSem} {cs : List KsemCall} (hinit : Init s₀)
    (hrun : Run CalmStep s₀ cs s) :
    (∀ x, (s.holders x).length ≤ 1) ∧
    (∀ c s' p x, CalmStep s c s' → s.waiting p = some x → InDown (s.proc p) →
      ¬InDown (s'.proc p) → ∃ q, c = .up q x ∧ p ∈ s'.handed x) ∧
    (∀ p x, s.waiting p = some x → (s.proc p).state = .runnable → p ∈ s.handed x ∧
      ∃ sems, ksemDownResume p x s.sems = .done () sems) ∧
    ∀ p x, p ∈ s.holders x → ∃ sems, ksemUp x s.sems = .done () sems := by
  have h : Inv s := hrun.invariant (fun _ _ _ h hstep => (hstep.effect h).inv h) hinit.inv
  refine ⟨fun x => ?_, fun c s' p x hstep hp hdown hwoken => ?_, fun p x hp hrunnable => ?_,
    fun p x hp => ?_⟩
  · have hcount := (h x).count
    have hnonneg := (h x).nonneg
    omega
  · exact (hstep.effect h).handed_of_woken h hp hdown hwoken
  · have hhanded := h.handed_of_runnable hp hrunnable
    obtain ⟨_, sems, hcall, -⟩ := (wp_ksemDownResume h hhanded).returns_done
    exact ⟨hhanded, sems, hcall⟩
  · obtain ⟨_, sems, hcall, -⟩ := (wp_ksemUp h hp).returns_done
    exact ⟨sems, hcall⟩

/-- Running processes with default handlers, each its own thread group. -/
def idleKernel : KernSem where
  sems := ⟨⟨fun _ => ⟨.runnable, 0⟩, fun _ => ⟨0, none, ⟨none, 0, none⟩⟩, [], [], 0, []⟩,
    fun _ => ⟨1, true, []⟩, fun _ => 0⟩
  sig := ⟨fun p => ⟨p, some p, 0, 0, false, false⟩, fun _ => ⟨none, 0⟩, fun _ _ => .dfl,
    fun _ => []⟩
  waiting := fun _ => none
  handed := fun _ => []
  holders := fun _ => []

theorem init_idleKernel : Init idleKernel :=
  ⟨fun _ => rfl, fun _ => rfl, fun _ => rfl, fun _ => rfl⟩

/-- Process 1 holds semaphore 0 and process 2 waits for it; `SIGSTOP` to process 2 changes
nothing. -/
theorem kernel_sem_excludes_stop : ∃ s,
    Run CalmStep idleKernel [.down 1 0 true, .down 2 0 false, .down 1 7 true,
      .sendSpecific 1 sigStop 2, .up 1 7] s ∧
      s.holders 0 = [1] ∧ InDown (s.proc 2) ∧ ∃ sems, ksemUp 0 s.sems = .done () sems := by
  refine Run.exists_imp (P := fun s => s.holders 0 = [1] ∧ InDown (s.proc 2)) ?_ fun s hrun hs => ?_
  · refine ⟨_, .cons ⟨⟨⟨rfl, rfl⟩, _, rfl, rfl⟩, trivial⟩
      (.cons ⟨⟨⟨rfl, rfl⟩, _, rfl, rfl⟩, trivial⟩
      (.cons ⟨⟨⟨rfl, rfl⟩, _, rfl, rfl⟩, trivial⟩ (.cons ⟨⟨⟨rfl, rfl⟩, _, _, rfl, rfl⟩, ?_⟩
      (.cons ⟨⟨⟨rfl, rfl⟩, ?_, _, rfl, rfl⟩, trivial⟩ (.nil _))))), ?_, ?_⟩
    · intro hkill
      cases hkill
    · exact .head _
    · rfl
    · rfl
  · obtain ⟨-, -, -, hup⟩ := kernel_sem_excludes init_idleKernel hrun
    exact ⟨hs.1, hs.2, hup 1 0 (by rw [hs.1]; exact .head _)⟩

/-- Process 1 holds semaphore 0 and process 2 waits for it. `SIGKILL` makes process 2 runnable,
and its `down` fails the assertion. -/
theorem kernel_sem_killed_sleeper : ∃ s,
    Run Step idleKernel [.down 1 0 true, .down 2 0 false, .down 1 7 true,
      .sendSpecific 1 sigKill 2, .up 1 7] s ∧
      s.holders 0 = [1] ∧ (s.proc 2).state = .runnable ∧ s.waiting 2 = some 0 ∧
      ksemDownResume 2 0 s.sems = .halt .assertion := by
  refine ⟨_, .cons ⟨⟨rfl, rfl⟩, _, rfl, rfl⟩ (.cons ⟨⟨rfl, rfl⟩, _, rfl, rfl⟩
    (.cons ⟨⟨rfl, rfl⟩, _, rfl, rfl⟩ (.cons ⟨⟨rfl, rfl⟩, _, _, rfl, rfl⟩
    (.cons ⟨⟨rfl, rfl⟩, ?_, _, rfl, rfl⟩ (.nil _))))), ?_, ?_, ?_, ?_⟩
  · exact .head _
  · rfl
  · rfl
  · rfl
  · rfl

end KernSem

end Ucore.Sync
