import Mathlib.Tactic.Linarith
import Ucore.Sched.QueueRuns

/-!
# Waiting under the round-robin class

The calls of the scheduler are made by a CPU that runs user code, is trapped into the kernel, and
leaves it again through the end of `trap`, which calls `schedule` if `need_resched` is set. A
process on the queue is passed by nobody, every call of `schedule` brings it one place nearer, and
between two calls user code is interrupted by no more ticks than the time slice has.
-/

namespace Ucore.RunQueue

open Kern List

/-- What the CPU does. -/
inductive Mode where
  | user
  /-- In the kernel, before the test of `need_resched` at the end of `trap`. -/
  | trapped
  /-- After that test, or in a process that does not come to it. -/
  | leaving

structure Cpu where
  sys : Sys
  mode : Mode

inductive Event where
  /-- A tick while user code runs. -/
  | userTick (expired : List ℕ)
  /-- Kernel code calls the scheduler, or a tick interrupts it. -/
  | kernel (call : Call)
  | turn

/-- User code is trapped, the test at the end of `trap` finds `need_resched` clear, or user code
runs again. -/
def Cpu.Turns (c : Cpu) : Mode → Prop
  | .trapped => c.mode = .user
  | .leaving => c.mode = .trapped ∧ (c.sys.proc c.sys.current).needResched = false
  | .user => c.mode = .leaving

/-- One event. The process that `schedule` returns to may be at any place in the kernel. -/
def CpuStep (c : Cpu) : Event → Cpu → Prop
  | .userTick expired, c' => c.mode = .user ∧ c'.mode = .trapped ∧
      Step rrSchedClass c.sys (.tick expired) c'.sys
  | .kernel call, c' => c.mode ≠ .user ∧ c'.mode ≠ .user ∧
      (call ≠ .schedule → c'.mode = c.mode) ∧ Step rrSchedClass c.sys call c'.sys
  | .turn, c' => c.Turns c'.mode ∧ c'.sys = c.sys

def Event.isSchedule : Event → Bool
  | .kernel call => call = .schedule
  | _ => false

def Event.isUserTick : Event → Bool
  | .userTick _ => true
  | _ => false

/-- The calls of `schedule` among some events. -/
def schedules (es : List Event) : ℕ := es.countP Event.isSchedule

/-- The ticks among them that interrupt user code. -/
def userTicks (es : List Event) : ℕ := es.countP Event.isUserTick

variable {s s' : Sys} {p k n : ℕ} {c c' : Cpu} {e : Event} {es : List Event} {calls : List Call}

theorem schedules_cons : schedules (e :: es) = schedules [e] + schedules es :=
  (countP_append : countP _ ([e] ++ es) = _)

theorem userTicks_cons : userTicks (e :: es) = userTicks [e] + userTicks es :=
  (countP_append : countP _ ([e] ++ es) = _)

/-! ## Time -/

/-- User code was interrupted by `n` ticks since the last call of `schedule`: it is to be called
again, or some time is left. -/
def Spent (n : ℕ) (c : Cpu) : Prop :=
  n ≤ 8 ∧ (c.mode = .trapped ∧ (c.sys.proc c.sys.current).needResched = true ∨
    n < 8 ∧ n + (c.sys.proc c.sys.current).timeSlice ≤ 8)

theorem Orderly.spent (h : Orderly false c.sys) : Spent 0 c := by
  have hslice := (h.queues.fits c.sys.current).2 rfl
  exact ⟨by decide, .inr ⟨by decide, by omega⟩⟩

/-- Some time is left when `schedule` is not called. -/
theorem Spent.left (hn : Spent n c)
    (hmode : c.mode = .trapped → (c.sys.proc c.sys.current).needResched = false) :
    n < 8 ∧ n + (c.sys.proc c.sys.current).timeSlice ≤ 8 := by
  refine hn.2.resolve_left fun hset => ?_
  cases (hmode hset.1).symm.trans hset.2

/-- One event. -/
theorem Orderly.event (h : Orderly false c.sys) (hn : Spent n c) (hstep : CpuStep c e c') :
    Orderly false c'.sys ∧ ∃ n', Spent n' c' ∧ userTicks [e] + n ≤ schedules [e] * 8 + n' := by
  cases e with
  | userTick expired =>
    obtain ⟨huser, htrap, hcall⟩ := hstep
    have hwp : (runTimerList rrSchedClass expired).wp True Any (fun _ s' =>
        Kept false none c.sys s' ∧ Ticked c.sys s') c.sys :=
      wp_runTimerList lawful_rr h hcall.1 trivial fun _ h' hticked => ⟨h', hticked⟩
    obtain ⟨⟨h', hids⟩, hticked⟩ := hwp.of_call hcall.2
    have hleft := hn.left fun hmode => by cases huser.symm.trans hmode
    have hone : userTicks [.userTick expired] = 1 := rfl
    refine ⟨h', n + 1, ⟨hleft.1, ?_⟩, by omega⟩
    rw [hids.current]
    refine hticked.imp (⟨htrap, ·⟩) fun hslice => ?_
    omega
  | kernel call =>
    obtain ⟨-, -, hmode, hcall⟩ := hstep
    obtain ⟨h', hkeeps⟩ := h.step lawful_rr hcall
    refine ⟨h', ?_⟩
    by_cases hschedule : call = .schedule
    · subst hschedule
      exact ⟨0, h'.spent, Nat.le_trans (Nat.le_of_eq (Nat.zero_add n)) hn.1⟩
    · have hslice := (hkeeps hschedule).slice
      refine ⟨n, ⟨hn.1, ?_⟩, Nat.add_le_add_right (Nat.zero_le _) n⟩
      rw [hmode hschedule, (hkeeps hschedule).current]
      refine hn.2.imp (.imp_right (hkeeps hschedule).resched) fun hleft => ?_
      omega
  | turn =>
    obtain ⟨hturn, hsys⟩ := hstep
    rw [hsys]
    refine ⟨h, n, ⟨hn.1, .inr ?_⟩, le_rfl⟩
    rw [hsys]
    refine hn.left fun hmode => ?_
    cases hmode' : c'.mode <;>
    · rw [hmode'] at hturn
      first
        | exact hturn.2
        | cases hturn.symm.trans hmode

/-- User code is interrupted by at most one time slice of ticks for every call of `schedule`, and
once more. -/
theorem Orderly.events (h : Orderly false c.sys) (hn : Spent n c) (hrun : Run CpuStep c es c') :
    Orderly false c'.sys ∧ userTicks es + n ≤ (schedules es + 1) * 8 := by
  induction hrun generalizing n with
  | nil => exact ⟨h, Nat.le_trans (Nat.le_of_eq (Nat.zero_add n)) hn.1⟩
  | cons hstep _ ih =>
    obtain ⟨h₁, n₁, hn₁, hle₁⟩ := h.event hn hstep
    obtain ⟨h₂, hle₂⟩ := ih h₁ hn₁
    rw [userTicks_cons, schedules_cons]
    exact ⟨h₂, by omega⟩

/-! ## Order -/

/-- The first process of the queue runs, and the others come one place nearer. -/
theorem Orderly.behind_schedule (h : Orderly false s) (hstep : Step rrSchedClass s .schedule s')
    (hp : s.Behind p k) : s'.current = p ∨ ∃ j, s'.Behind p j ∧ j + 1 = k := by
  obtain ⟨s₁, s₂, -, hdone, hpicks, hbehind, hlists, -⟩ := h.schedule lawful_rr
  cases hdone.symm.trans hstep.2
  obtain ⟨pre, post, hlist, hk⟩ := hbehind p k hp
  have hfirst : ∀ q rest, (s₁.queue 0).runList = q :: rest → s'.current = q := fun q rest hq =>
    hpicks.first 0 (by decide) q rest hq fun j hj => absurd hj (Nat.not_lt_zero j)
  cases pre with
  | nil => exact .inl (hfirst p post hlist)
  | cons q pre =>
    obtain ⟨j, rfl⟩ := Nat.exists_eq_add_of_le' (Nat.le_trans (Nat.succ_pos _) hk)
    refine .inr ⟨j, ⟨pre, post, ?_, Nat.le_of_succ_le_succ hk⟩, rfl⟩
    rw [hlists, hfirst q _ hlist, hlist, cons_append, erase_cons_head]

theorem Orderly.behind_event (h : Orderly false c.sys) (hstep : CpuStep c e c')
    (hstop : ∀ wait, e ≠ .kernel (.stop p wait)) (hp : c.sys.Behind p k) :
    e = .kernel .schedule ∧ c'.sys.current = p ∨
      ∃ j, c'.sys.Behind p j ∧ j + schedules [e] = k := by
  cases e with
  | userTick expired =>
    have hkeeps := (h.step lawful_rr hstep.2.2).2 (by simp)
    exact .inr ⟨k, hkeeps.behind p k (by simp [Call.stopped]) hp, rfl⟩
  | kernel call =>
    obtain ⟨-, -, -, hcall⟩ := hstep
    by_cases hschedule : call = .schedule
    · subst hschedule
      exact (h.behind_schedule hcall hp).imp_left (⟨rfl, ·⟩)
    · refine .inr ⟨k, ((h.step lawful_rr hcall).2 hschedule).behind p k ?_ hp, ?_⟩
      · intro hp
        cases call <;> cases hp
        exact hstop _ rfl
      · simp [schedules, Event.isSchedule, hschedule]
  | turn => exact .inr ⟨k, hstep.2 ▸ hp, rfl⟩

/-- A waiting process comes nearer with every call of `schedule`. -/
theorem Orderly.behind_run (h : Orderly false c.sys) (hrun : Run CpuStep c es c')
    (hstop : ∀ wait, .kernel (.stop p wait) ∉ es) (hp : c.sys.Behind p k) :
    (∃ es₁ es₂ c₁ c₂, es = es₁ ++ .kernel .schedule :: es₂ ∧ Run CpuStep c es₁ c₁ ∧
      CpuStep c₁ (.kernel .schedule) c₂ ∧ Run CpuStep c₂ es₂ c' ∧ c₂.sys.current = p ∧
      schedules es₁ ≤ k) ∨ ∃ j, c'.sys.Behind p j ∧ j + schedules es = k := by
  induction hrun generalizing k with
  | nil => exact .inr ⟨k, hp, rfl⟩
  | @cons c₀ c₁ c₂ e es hstep hrest ih =>
    have hne : ∀ wait, e ≠ .kernel (.stop p wait) := fun wait heq =>
      hstop wait (heq ▸ mem_cons_self)
    rcases h.behind_event hstep hne hp with ⟨rfl, hcur⟩ | ⟨j, hj, rfl⟩
    · exact .inl ⟨[], es, c₀, c₁, rfl, .nil c₀, hstep, hrest, hcur, Nat.zero_le k⟩
    · have hlater := ih (h.event h.spent hstep).1
        (fun wait hmem => hstop wait (mem_cons_of_mem e hmem)) hj
      rcases hlater with ⟨es₁, es₂, d₁, d₂, rfl, hrun₁, hstep', hrun₂, hcur, hle⟩ | ⟨i, hi, rfl⟩
      · refine .inl ⟨e :: es₁, es₂, d₁, d₂, rfl, .cons hstep hrun₁, hstep', hrun₂, hcur, ?_⟩
        rw [schedules_cons]
        omega
      · refine .inr ⟨i, hi, ?_⟩
        rw [schedules_cons]
        omega

/-- Under the round-robin class, from every state that is reached on: user code is interrupted by
at most `max_time_slice` ticks between two calls of `schedule`, and a process with some processes
before it on the queue that nobody stops is passed by nobody, comes one place nearer with every
call of `schedule`, and thus runs after as many calls and one more, and after as many time
slices. -/
theorem rr_waiting_bounded {es₀ : List Event} (hboot : Run CpuStep ⟨boot, .trapped⟩ es₀ c)
    (hrun : Run CpuStep c es c') :
    (userTicks es : ℤ) ≤ (schedules es + 1) * (c.sys.queue 0).maxTimeSlice ∧
    ∀ p pre post, (c.sys.queue 0).runList = pre ++ p :: post →
      (∀ wait, .kernel (.stop p wait) ∉ es) →
      (∃ es₁ es₂ c₁ c₂, es = es₁ ++ .kernel .schedule :: es₂ ∧ Run CpuStep c es₁ c₁ ∧
        CpuStep c₁ (.kernel .schedule) c₂ ∧ Run CpuStep c₂ es₂ c' ∧ c₂.sys.current = p ∧
        schedules es₁ ≤ pre.length ∧
        (userTicks es₁ : ℤ) ≤ (pre.length + 1) * (c.sys.queue 0).maxTimeSlice) ∨
      ∃ pre' post', (c'.sys.queue 0).runList = pre' ++ p :: post' ∧
        pre'.length + schedules es ≤ pre.length := by
  have hfirst : Orderly false (⟨boot, .trapped⟩ : Cpu).sys := orderly_boot
  have h : Orderly false c.sys := (hfirst.events hfirst.spent hboot).1
  have hmax : (c.sys.queue 0).maxTimeSlice = 8 := h.queues.max 0
  have hticks : ∀ {es c'}, Run CpuStep c es c' → userTicks es ≤ (schedules es + 1) * 8 :=
    fun hrun => (h.events h.spent hrun).2
  rw [hmax]
  refine ⟨by exact_mod_cast hticks hrun, fun p pre post hlist hstop => ?_⟩
  refine (h.behind_run hrun hstop ⟨pre, post, hlist, le_rfl⟩).imp ?_ ?_
  · rintro ⟨es₁, es₂, c₁, c₂, heq, hrun₁, hstep, hrun₂, hcur, hle⟩
    refine ⟨es₁, es₂, c₁, c₂, heq, hrun₁, hstep, hrun₂, hcur, hle, ?_⟩
    have hle₁ := hticks hrun₁
    omega
  · rintro ⟨j, ⟨pre', post', hlist', hj⟩, hsum⟩
    exact ⟨pre', post', hlist', by omega⟩

/-- The event of a CPU that leaves the kernel as soon as it can. -/
def execEvent (e : Event) (c : Cpu) : Option Cpu :=
  match e, c.mode with
  | .userTick expired, .user => (exec rrSchedClass (.tick expired) c.sys).map (⟨·, .trapped⟩)
  | .kernel .schedule, .trapped => (exec rrSchedClass .schedule c.sys).map (⟨·, .leaving⟩)
  | .kernel call, .trapped => (exec rrSchedClass call c.sys).map (⟨·, .trapped⟩)
  | .turn, .trapped =>
    if (c.sys.proc c.sys.current).needResched then none else some ⟨c.sys, .leaving⟩
  | .turn, .leaving => some ⟨c.sys, .user⟩
  | _, _ => none

theorem execEvent_sound (c : Cpu) (e : Event) (c' : Cpu) (h : execEvent e c = some c') :
    CpuStep c e c' := by
  unfold execEvent at h
  split at h
  · rename_i hmode
    obtain ⟨s, hexec, rfl⟩ := Option.map_eq_some_iff.mp h
    exact ⟨hmode, rfl, exec_sound c.sys _ s hexec⟩
  · rename_i hmode
    obtain ⟨s, hexec, rfl⟩ := Option.map_eq_some_iff.mp h
    exact ⟨by simp [hmode], Mode.noConfusion, fun hne => absurd rfl hne, exec_sound c.sys _ s hexec⟩
  · rename_i hmode
    obtain ⟨s, hexec, rfl⟩ := Option.map_eq_some_iff.mp h
    exact ⟨by simp [hmode], Mode.noConfusion, fun _ => hmode.symm, exec_sound c.sys _ s hexec⟩
  · rename_i hmode
    split at h
    · cases h
    · rename_i hclear
      cases h
      exact ⟨⟨hmode, Bool.eq_false_iff.mpr hclear⟩, rfl⟩
  · rename_i hmode
    cases h
    exact ⟨hmode, rfl⟩
  · cases h

/-- `initproc` and a second process are woken. -/
def wakeups : List Event :=
  map .kernel [.fork 1, .hash 1 1, .wakeup 1, .fork 2, .hash 2 2, .wakeup 2]

/-- `initproc` runs until its time slice is used up, and `schedule` is called for the second
time. -/
def slice : List Event :=
  [.kernel .schedule, .turn, .userTick []] ++
    (replicate 7 [.turn, .turn, .userTick []]).flatten ++ [.kernel .schedule]

/-- The process behind `initproc` runs after its time slice. -/
theorem rr_waiting_bounded_second : ∃ c c', Run CpuStep ⟨boot, .trapped⟩ wakeups c ∧
    (c.sys.queue 0).runList = [1, 2] ∧ Run CpuStep c slice c' ∧ userTicks slice = 8 ∧
    ∃ es₁ es₂ c₁ c₂, slice = es₁ ++ .kernel .schedule :: es₂ ∧ Run CpuStep c es₁ c₁ ∧
      CpuStep c₁ (.kernel .schedule) c₂ ∧ Run CpuStep c₂ es₂ c' ∧ c₂.sys.current = 2 ∧
      schedules es₁ ≤ 1 ∧ (userTicks es₁ : ℤ) ≤ 2 * (c.sys.queue 0).maxTimeSlice := by
  have hcheck : (execAll execEvent wakeups ⟨boot, .trapped⟩).any (fun c =>
      decide ((c.sys.queue 0).runList = [1, 2]) && (execAll execEvent slice c).isSome) = true := by
    decide +kernel
  obtain ⟨c, hboot, htest⟩ := exists_run_of_execAll execEvent_sound hcheck
  rw [Bool.and_eq_true, decide_eq_true_iff] at htest
  obtain ⟨hlist, hsome⟩ := htest
  obtain ⟨c', hexec⟩ := Option.isSome_iff_exists.mp hsome
  have hrun := Run.of_execAll execEvent_sound hexec
  have hstop : ∀ wait, Event.kernel (.stop 2 wait) ∉ slice := fun wait => by simp [slice]
  refine ⟨c, c', hboot, hlist, hrun, rfl, ?_⟩
  refine ((rr_waiting_bounded hboot hrun).2 2 [1] [] hlist hstop).resolve_right ?_
  rintro ⟨pre', post', -, hle⟩
  have htwo : schedules slice = 2 := rfl
  simp only [htwo, length_singleton] at hle
  omega

end Ucore.RunQueue
