import Ucore.Lib.Runs
import Ucore.Sync.Timers

/-!
# Runs of the timer list

Processes sleep with or without a timer, are woken up and stopped, delete their timers and
exit, and the clock ticks, in any order. A process that waits for a timer is inside the
function that queued it until it runs again, so it neither exits nor queues another.
-/

namespace Ucore.Sync

open Kern Function List

variable {s s' : Sched} {t u p e : ℕ} {H : Prop} {E : Fault → Sched → Prop}
  {Q : Unit → Sched → Prop} {driver : ℕ → ℕ → SchedM Unit} {o : Option ℕ}

/-- What happens to processes and their timers. -/
inductive TimerCall where
  /-- Process `p` queues the timer `t` for `e` ticks and sleeps. -/
  | sleep (p t e : ℕ) (w : WaitState)
  /-- Process `p` sleeps without a timer. -/
  | wait (p : ℕ) (w : WaitState)
  | delTimer (t : ℕ)
  | wakeup (p : ℕ)
  | stop (p : ℕ)
  | exit (p : ℕ)
  | tick

/-- The process waits for a queued timer. -/
def Sched.Waits (s : Sched) (p : ℕ) : Prop := ∃ t ∈ s.timerList, (s.timer t).proc = some p

/-- The code of a call. -/
def TimerCall.code (driver : ℕ → ℕ → SchedM Unit) : TimerCall → SchedM Unit
  | sleep p t e w => do
    timerInit t (some p) e
    modify fun s => s.sleep p w
    addTimer t
  | wait p w => modify fun s => s.sleep p w
  | delTimer t => Sync.delTimer t
  | wakeup p => wakeupProc p
  | stop p => stopProc p wtSignal
  | exit p => modify fun s => s.setProc p ⟨.zombie, 0⟩
  | tick => clockTick driver

/-- When a call happens: only a running process sleeps or exits, and none that exited is woken
up or stopped. -/
def TimerCall.Enabled (s : Sched) : TimerCall → Prop
  | sleep p t e w => (s.proc p).state = .runnable ∧ ¬s.Waits p ∧ t ∉ s.timerList ∧ 1 ≤ e ∧
      Interruptible w
  | wait p _ => (s.proc p).state = .runnable ∧ ¬s.Waits p
  | exit p => (s.proc p).state = .runnable ∧ ¬s.Waits p
  | wakeup p => (s.proc p).state ≠ .zombie
  | stop p => (s.proc p).state ≠ .zombie
  | delTimer _ => True
  | tick => True

/-- One call that returns. -/
def TimerStep (driver : ℕ → ℕ → SchedM Unit) (s : Sched) (c : TimerCall) (s' : Sched) : Prop :=
  c.Enabled s ∧ c.code driver s = .done () s'

/-- What holds between the calls. -/
structure TimersInv (s : Sched) : Prop extends TimersOk s where
  nofree : s.freed = []
  owner : ∀ t ∈ s.timerList, (s.timer t).isLinuxTimer = false ∧
    ∃ p, (s.timer t).proc = some p ∧ Wakeable (s.proc p)
  single : ∀ t ∈ s.timerList, ∀ u ∈ s.timerList, (s.timer t).proc = (s.timer u).proc → t = u

theorem wtSignal_interruptible : Interruptible wtSignal := by decide

section

variable (h : TimersInv s)
include h

/-- A step that queues no timer and leaves the processes that wait fit for a wake-up. -/
theorem TimersInv.keep (hok : TimersOk s') (hfreed : s'.freed = s.freed)
    (htimer : ∀ t ∈ s'.timerList, t ∈ s.timerList ∧ (s'.timer t).proc = (s.timer t).proc ∧
      (s'.timer t).linuxTimer = (s.timer t).linuxTimer)
    (hproc : ∀ p, s.Waits p → Wakeable (s.proc p) → Wakeable (s'.proc p)) : TimersInv s' := by
  refine ⟨hok, hfreed.trans h.nofree, fun t ht => ?_, fun t ht u hu heq => ?_⟩
  · obtain ⟨hmem, howner, hlinux⟩ := htimer t ht
    obtain ⟨hnot, p, hp, hwake⟩ := h.owner t hmem
    rw [Timer.isLinuxTimer, hlinux, howner]
    exact ⟨hnot, p, hp, hproc p ⟨t, hmem, hp⟩ hwake⟩
  · obtain ⟨htmem, htowner, -⟩ := htimer t ht
    obtain ⟨humem, huowner, -⟩ := htimer u hu
    rw [htowner, huowner] at heq
    exact h.single t htmem u humem heq

/-- A change of one process's state that leaves it fit for a wake-up. -/
theorem TimersInv.setProc {v : Proc} (hv : s.Waits p → Wakeable v) : TimersInv (s.setProc p v) := by
  refine h.keep ⟨{ h with }, h.head⟩ rfl (fun t ht => ⟨ht, rfl, rfl⟩) fun q hq hwake => ?_
  show Wakeable (update s.proc p v q)
  rw [update_apply]
  split
  · rename_i hqp
    exact hv (hqp ▸ hq)
  · exact hwake

theorem TimersInv.wakeup {e : Event} : TimersInv ((s.wake p).record e) := by
  rw [wake_eq]
  refine h.keep ⟨{ h with }, h.head⟩ rfl (fun t ht => ⟨ht, rfl, rfl⟩) fun q _ hwake => ?_
  show Wakeable (update s.proc p _ q)
  rw [update_apply]
  split
  · rename_i hqp
    exact hqp ▸ hwake.woken
  · exact hwake

/-- One of the timers goes. -/
theorem TimersInv.remove {pre post : List ℕ} (hplaced : Placed s' s t pre post) : TimersInv s' := by
  have hsame := hplaced.same
  refine h.keep (h.toTimersOk.remove hplaced) hsame.freed.symm (fun u hu => ?_) fun q _ hwake => ?_
  · exact ⟨hplaced.mem.mpr (.inr hu), (hsame.owner u).symm, (hsame.linux u).symm⟩
  · rwa [← hsame.proc]

theorem TimersInv.tick (hok : TimersOk s') (hticked : Ticked s s') : TimersInv s' := by
  refine h.keep hok hticked.freed (fun t ht => ?_) fun q _ hwake => ?_
  · exact ⟨((hticked.mem t).mp ht).1, hticked.owner t, hticked.linux t⟩
  · by_cases hexpired : q ∈ s.owners s.expired
    · rw [hticked.woken q hexpired]
      exact hwake.woken
    · rwa [hticked.asleep q hexpired]

/-- The clock interrupt returns. -/
theorem wp_clockTick
    (hQ : ∀ s', TimersInv s' → Ticked { s with ticks := s.ticks + 1 } s' → Q () s') :
    (clockTick driver).wp H E Q s := by
  have h₁ : TimersInv { s with ticks := s.ticks + 1 } :=
    { h with toTimersOk := ⟨{ h with }, h.head⟩ }
  refine wp_runTimerList h₁.toTimersOk (fun a ha => .inl (h₁.owner a (mem_of_mem_filter ha)))
    fun s' hok hticked _ => hQ s' (h₁.tick hok hticked) hticked

theorem clockTick_done (hcall : clockTick driver s = .done () s') :
    TimersInv s' ∧ Ticked { s with ticks := s.ticks + 1 } s' := by
  have hwp : (clockTick driver).wp True Any
      (fun _ s' => TimersInv s' ∧ Ticked { s with ticks := s.ticks + 1 } s') s :=
    wp_clockTick h fun _ hv hticked => ⟨hv, hticked⟩
  exact hwp.of_done hcall

end

theorem timer_initTimer_of_ne (hu : u ≠ t) : (s.initTimer t o e).timer u = s.timer u :=
  update_of_ne hu _ s.timer

theorem timer_initTimer_self : (s.initTimer t o e).timer t =
    ⟨e, o, { (s.timer t).linuxTimer with linuxTimer := none }⟩ :=
  update_self t _ s.timer

/-- A timer that is not queued may be set. -/
theorem TimersInv.initTimer (h : TimersInv s) (ht : t ∉ s.timerList) :
    TimersInv (s.initTimer t o e) := by
  have hne : ∀ u ∈ s.timerList, (s.initTimer t o e).timer u = s.timer u :=
    fun u hu => timer_initTimer_of_ne fun heq => ht (heq ▸ hu)
  refine h.keep ⟨{ h with }, fun u hu => ?_⟩ rfl (fun u hu => ⟨hu, ?_, ?_⟩) fun _ _ hp => hp
  · rw [Sched.expires, hne u (mem_of_mem_head? hu)]
    exact h.head u hu
  · rw [hne u hu]
  · rw [hne u hu]

/-- `add_timer` for a process that waits for no other timer. -/
theorem wp_armTimer (h : TimersInv s) (ht : t ∉ s.timerList) (hexpires : 0 < s.expires t)
    (hlinux : (s.timer t).isLinuxTimer = false) (hproc : (s.timer t).proc = some p)
    (hwake : Wakeable (s.proc p)) (hwaits : ¬s.Waits p)
    (hQ : ∀ s' pre post, TimersInv s' → Placed s s' t pre post →
      s'.remaining t = some (s.expires t) → Q () s') :
    (addTimer t).wp H E Q s := by
  have hlive : t ∉ s.freed := by
    rw [h.nofree]
    exact not_mem_nil
  refine wp_addTimer h.toTimersOk hlive ht hexpires (by simp [hproc])
    fun s' pre post hok hplaced hself => hQ s' pre post ?_ hplaced hself
  have hsame := hplaced.same
  have howner : ∀ u ∈ s'.timerList, (s.timer u).isLinuxTimer = false ∧
      ∃ q, (s.timer u).proc = some q ∧ Wakeable (s.proc q) := by
    intro u hu
    rcases hplaced.mem.mp hu with rfl | hu
    · exact ⟨hlinux, p, hproc, hwake⟩
    · exact h.owner u hu
  refine ⟨hok, hsame.freed.trans h.nofree, fun u hu => ?_, fun u hu v hv heq => ?_⟩
  · obtain ⟨hlinux, q, hq, hwake⟩ := howner u hu
    refine ⟨?_, q, (hsame.owner u).trans hq, ?_⟩
    · rw [Timer.isLinuxTimer, hsame.linux]
      exact hlinux
    · rw [hsame.proc]
      exact hwake
  · rw [hsame.owner, hsame.owner] at heq
    rcases hplaced.mem.mp hu with rfl | hu
    · rcases hplaced.mem.mp hv with rfl | hv
      · rfl
      · exact absurd ⟨v, hv, heq.symm.trans hproc⟩ hwaits
    · rcases hplaced.mem.mp hv with rfl | hv
      · exact absurd ⟨u, hu, heq.trans hproc⟩ hwaits
      · exact h.single u hu v hv heq

/-- Every call that happens keeps the list sound. -/
theorem TimerStep.inv {c : TimerCall} (hstep : TimerStep driver s c s') (h : TimersInv s) :
    TimersInv s' := by
  obtain ⟨henabled, hcall⟩ := hstep
  have hwp : (c.code driver).wp True Any (fun _ => TimersInv) s := by
    cases c with
    | sleep p t e w =>
      obtain ⟨-, hwaits, ht, he, hw⟩ := henabled
      have hinit : TimersInv (s.initTimer t (some p) e) := h.initTimer ht
      have hasleep : Wakeable ⟨.sleeping, w⟩ := ⟨by simp, .inr hw⟩
      have hset : TimersInv ((s.initTimer t (some p) e).setProc p ⟨.sleeping, w⟩) :=
        hinit.setProc fun _ => hasleep
      have htimer : ((s.initTimer t (some p) e).setProc p ⟨.sleeping, w⟩).timer t =
        ⟨e, some p, { (s.timer t).linuxTimer with linuxTimer := none }⟩ := timer_initTimer_self
      show (timerInit t (some p) e >>= _).wp _ _ _ s
      rw [wp_bind]
      show (modify _ >>= _).wp _ _ _ (s.initTimer t (some p) e)
      rw [wp_put]
      refine wp_armTimer (p := p) hset ht ?_ ?_ ?_ ?_ ?_ fun s' _ _ hinv _ _ => hinv
      · rw [Sched.expires]
        show 0 < (((s.initTimer t (some p) e).setProc p ⟨.sleeping, w⟩).timer t).expires
        rw [htimer]
        exact he
      · show (((s.initTimer t (some p) e).setProc p ⟨.sleeping, w⟩).timer t).isLinuxTimer = false
        rw [htimer]
        rfl
      · show (((s.initTimer t (some p) e).setProc p ⟨.sleeping, w⟩).timer t).proc = some p
        rw [htimer]
      · show Wakeable (update s.proc p ⟨.sleeping, w⟩ p)
        rw [update_self]
        exact hasleep
      · rintro ⟨u, hu, hproc⟩
        change ((s.initTimer t (some p) e).timer u).proc = some p at hproc
        have hne : u ≠ t := fun heq => ht (heq ▸ hu)
        rw [timer_initTimer_of_ne hne] at hproc
        exact hwaits ⟨u, hu, hproc⟩
    | wait | exit => exact h.setProc fun hwaits => absurd hwaits henabled.2
    | delTimer t =>
      refine wp_delTimer h.toQueued (by simp [h.nofree]) (fun _ => h) ?_
      exact fun s' pre post hplaced _ => h.remove hplaced
    | wakeup p =>
      exact wp_wakeupProc henabled h.wakeup
    | stop p => exact h.setProc fun _ => ⟨by simp, .inr wtSignal_interruptible⟩
    | tick => exact wp_clockTick h fun s' hinv _ => hinv
  exact hwp.of_done hcall

/-- No timer is queued at boot. -/
theorem TimersInv.boot (hlist : s.timerList = []) (hfreed : s.freed = []) : TimersInv s := by
  have hnot : ∀ t, t ∉ s.timerList := fun t => by
    rw [hlist]
    exact not_mem_nil
  refine ⟨⟨⟨?_, fun t ht => absurd ht (hnot t)⟩, fun t ht => ?_⟩, hfreed,
    fun t ht => absurd ht (hnot t), fun t ht => absurd ht (hnot t)⟩
  · rw [hlist]
    exact nodup_nil
  · exact absurd (mem_of_mem_head? ht) (hnot t)

/-- The expired timers have different processes. -/
theorem TimersInv.nodup_owners (h : TimersInv s) : (s.owners s.expired).Nodup := by
  have hexpired : s.expired.Pairwise (· ≠ ·) := h.nodup.filter _
  refine pairwise_filterMap.mpr (hexpired.imp_of_mem ?_)
  rintro t u ht hu hne p hp _ hp' rfl
  exact hne (h.single t (mem_of_mem_filter ht) u (mem_of_mem_filter hu) (hp.trans hp'.symm))

/-- After any sequence of calls the first timer has not expired; `add_timer` gives the timer the
time it asks for, `del_timer` takes it out, and neither changes another timer's remaining time;
`run_timer_list` takes one tick from every remaining time and wakes up exactly the processes
for which nothing remains, each once and in the order of the list. -/
theorem timer_list_keeps_remaining_times {s₀ : Sched} {cs : List TimerCall}
    (hlist : s₀.timerList = []) (hfreed : s₀.freed = []) (hrun : Run (TimerStep driver) s₀ cs s) :
    (∀ t ∈ s.timerList.head?, s.expires t ≠ 0) ∧
    (∀ t, t ∉ s.timerList → 1 ≤ s.expires t → (s.timer t).proc ≠ none →
      ∃ s', addTimer t s = .done () s' ∧ s'.remaining t = some (s.expires t) ∧
        ∀ u, u ≠ t → s'.remaining u = s.remaining u) ∧
    (∀ t, ∃ s', delTimer t s = .done () s' ∧ s'.remaining t = none ∧
      ∀ u, u ≠ t → s'.remaining u = s.remaining u) ∧
    ∃ s', runTimerList driver s = .done () s' ∧
      (∀ u, s'.remaining u = (s.remaining u).bind fun r => if r = 1 then none else some (r - 1)) ∧
      s'.trace = s.trace ++ (s.owners s.expired).map .wakeup ∧ (s.owners s.expired).Nodup ∧
      ∀ p, (p ∈ s.owners s.expired → (s'.proc p).state = .runnable) ∧
        (p ∉ s.owners s.expired → s'.proc p = s.proc p) := by
  have h : TimersInv s := hrun.invariant (fun _ _ _ h hstep => hstep.inv h) (.boot hlist hfreed)
  have hlive : ∀ t, t ∉ s.freed := fun t => by
    rw [h.nofree]
    exact not_mem_nil
  refine ⟨h.head, fun t ht hexpires hproc => ?_, fun t => ?_, ?_⟩
  · have hwp : (addTimer t).wp False Never (fun _ s' =>
        s'.remaining t = some (s.expires t) ∧ ∀ u, u ≠ t → s'.remaining u = s.remaining u) s :=
      wp_addTimer h.toTimersOk (hlive t) ht hexpires hproc fun s' pre post hok hplaced hself =>
        ⟨hself, fun u => hplaced.remaining hok.nodup⟩
    obtain ⟨_, s', hcall, hpost⟩ := hwp.returns_done
    exact ⟨s', hcall, hpost⟩
  · have hwp : (delTimer t).wp False Never (fun _ s' =>
        s'.remaining t = none ∧ ∀ u, u ≠ t → s'.remaining u = s.remaining u) s := by
      refine wp_delTimer h.toQueued (hlive t) (fun ht => ⟨due_eq_none.mpr ht, fun _ _ => rfl⟩) ?_
      intro s' pre post hplaced _
      refine ⟨due_eq_none.mpr ?_, fun u hu => (hplaced.remaining h.nodup hu).symm⟩
      rw [hplaced.erase h.nodup]
      exact h.nodup.not_mem_erase
    obtain ⟨_, s', hcall, hpost⟩ := hwp.returns_done
    exact ⟨s', hcall, hpost⟩
  · have hwp : (runTimerList driver).wp False Never (fun _ => Ticked s) s :=
      wp_runTimerList h.toTimersOk (fun a ha => .inl (h.owner a (mem_of_mem_filter ha)))
        fun s' _ hticked _ => hticked
    obtain ⟨_, s', hcall, hticked⟩ := hwp.returns_done
    refine ⟨s', hcall, hticked.remaining, hticked.trace, h.nodup_owners, fun p => ⟨fun hp => ?_,
      hticked.asleep p⟩⟩
    rw [hticked.woken p hp, Proc.state_woken]

/-- A process sleeps for two ticks, and after one of them it has one left. -/
theorem timer_list_keeps_remaining_times_sleep : ∃ s,
    Run (TimerStep fun _ _ => return ()) (mixedTimers [] 0 0) [.wakeup 0, .sleep 0 4 2 wtTimer] s ∧
      s.remaining 4 = some 2 ∧
      ∃ s', runTimerList (fun _ _ => return ()) s = .done () s' ∧ s'.remaining 4 = some 1 := by
  have hstart : TimerCall.Enabled (mixedTimers [] 0 0) (.wakeup 0) := by
    show ProcState.sleeping ≠ .zombie
    decide
  have hwaits : ∀ s : Sched, s.timerList = [] → ∀ p, ¬s.Waits p := by
    rintro s hs p ⟨t, ht, -⟩
    rw [hs] at ht
    cases ht
  refine Run.exists_imp (P := fun s => s.remaining 4 = some 2) ?_ fun s hrun hremaining => ?_
  · refine ⟨_, .cons ⟨hstart, rfl⟩ (.cons ⟨⟨rfl, hwaits _ rfl 0, not_mem_nil, by decide,
      by decide⟩, rfl⟩ (.nil _)), ?_⟩
    rfl
  · obtain ⟨-, -, -, s', hcall, htime, -⟩ := timer_list_keeps_remaining_times rfl rfl hrun
    refine ⟨hremaining, s', hcall, ?_⟩
    rw [htime, hremaining]
    rfl

end Ucore.Sync
