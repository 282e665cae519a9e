import Ucore.Sched.QueueSpec

/-!
# The run queues over whole runs

Between two calls the processes on the queues are those that are runnable, do not run and are not
`idleproc`. Every call keeps this over any class that does what `Lawful` says, whatever the order
of wake-ups, ticks, forks and exits, and `schedule` switches to the first process of the first
queue that has one.
-/

namespace Ucore.RunQueue

open Kern List

variable {mlfq : Bool} {cls : SchedClass} {s s' : Sys} {W : ℕ → Prop} {p q : ℕ} {H : Prop}
  {E : LinkError → Sys → Prop} {Q : Unit → Sys → Prop} {t : Proc} {expired others : List ℕ}
  {o : Option ℕ}

/-- The processes that should be on a queue. -/
def Sys.Waiting (s : Sys) (p : ℕ) : Prop :=
  p ∈ s.allocated ∧ (s.proc p).state = .runnable ∧ p ≠ s.current ∧ p ≠ idleproc

/-- What holds between two calls. -/
structure Orderly (mlfq : Bool) (s : Sys) : Prop where
  queues : Queues mlfq s s.Waiting
  idle : idleproc ∈ s.allocated
  current : s.Known s.current
  /-- A process without an id was never woken. -/
  known : ∀ p ∈ s.allocated, (s.proc p).state ≠ .uninit → s.Known p

/-- What all calls but `schedule` keep: `current` runs on with no more time than it had, and nobody
on the first queue falls back, but for a process that is stopped. -/
structure Keeps (o : Option ℕ) (s s' : Sys) : Prop where
  current : s'.current = s.current
  resched : (s.proc s.current).needResched = true → (s'.proc s.current).needResched = true
  slice : (s'.proc s.current).timeSlice ≤ (s.proc s.current).timeSlice
  behind : ∀ p k, some p ≠ o → s.Behind p k → s'.Behind p k

theorem Keeps.of_same (hcurrent : s'.current = s.current)
    (hproc : s'.proc s.current = s.proc s.current)
    (hbehind : ∀ p k, some p ≠ o → s.Behind p k → s'.Behind p k) : Keeps o s s' := by
  refine ⟨hcurrent, ?_, ?_, hbehind⟩
  · rw [hproc]
    exact id
  · exact Int.le_of_eq (congrArg Proc.timeSlice hproc)

theorem Keeps.trans {s'' : Sys} (h : Keeps o s s') (h' : Keeps o s' s'') : Keeps o s s'' := by
  have hresched := h'.resched
  have hslice := h'.slice
  rw [h.current] at hresched hslice
  exact ⟨h'.current.trans h.current, fun hset => hresched (h.resched hset),
    Int.le_trans hslice h.slice, fun p k hp hold => h'.behind p k hp (h.behind p k hp hold)⟩

theorem keeps_setProc (hslice : t.timeSlice ≤ (s.proc p).timeSlice)
    (hresched : (s.proc p).needResched = true → t.needResched = true) :
    Keeps o s (s.setProc p t) := by
  rcases eq_or_ne s.current p with rfl | hp
  · have hself : (s.setProc s.current t).proc s.current = t := by
      rw [proc_setProc, if_pos rfl]
    exact ⟨rfl, hself.symm ▸ hresched, hself.symm ▸ hslice, fun _ _ _ => id⟩
  · refine .of_same rfl ?_ fun _ _ _ => id
    rw [proc_setProc, if_neg hp]

/-- The processes and their ids are the same, too. -/
structure SameIds (o : Option ℕ) (s s' : Sys) : Prop extends Keeps o s s' where
  allocated : s'.allocated = s.allocated
  pid : ∀ p, (s'.proc p).pid = (s.proc p).pid

theorem SameIds.refl (s : Sys) : SameIds o s s :=
  ⟨.of_same rfl rfl fun _ _ _ => id, rfl, fun _ => rfl⟩

theorem SameIds.trans {s'' : Sys} (h : SameIds o s s') (h' : SameIds o s' s'') : SameIds o s s'' :=
  ⟨h.toKeeps.trans h'.toKeeps, h'.allocated.trans h.allocated, fun p => (h'.pid p).trans (h.pid p)⟩

/-- The queues are in order again. -/
structure Kept (mlfq : Bool) (o : Option ℕ) (s s' : Sys) : Prop where
  orderly : Orderly mlfq s'
  ids : SameIds o s s'

theorem Sys.Known.of_eq (hp : s.Known p) (hallocated : s'.allocated = s.allocated)
    (hpid : (s'.proc p).pid = (s.proc p).pid) : s'.Known p := by
  unfold Sys.Known
  rw [hallocated, hpid]
  exact hp

theorem SameIds.known (h : SameIds o s s') (hp : s.Known p) : s'.Known p :=
  hp.of_eq h.allocated (h.pid p)

theorem sameIds_setProc (ht : t.pid = (s.proc p).pid) (hslice : t.timeSlice ≤ (s.proc p).timeSlice)
    (hresched : (s.proc p).needResched = true → t.needResched = true) :
    SameIds o s (s.setProc p t) := by
  refine ⟨keeps_setProc hslice hresched, rfl, fun x => ?_⟩
  rw [proc_setProc]
  by_cases hx : x = p
  · rw [if_pos hx, ht, hx]
  · rw [if_neg hx]

theorem Enqueued.sameIds {rq : ℕ} (h : Enqueued s s' rq p) (hp : p ≠ s.current) :
    SameIds o s s' := by
  refine ⟨.of_same h.current ?_ fun _ _ _ => h.behind, h.allocated, h.sameProcs.pid⟩
  rw [h.proc, if_neg hp.symm]

theorem Dequeued.sameIds {rq : ℕ} (h : Dequeued s s' rq p) : SameIds (some p) s s' := by
  refine ⟨.of_same h.current ?_ fun x k hx => h.behind ?_, h.allocated, h.sameProcs.pid⟩
  · rw [h.proc]
  · exact fun heq => hx (heq ▸ rfl)

/-- One process changes its state; the queues are brought in line. -/
theorem Orderly.of_queues (h : Orderly mlfq s) (hids : SameIds o s s') (hp : s.Known p)
    (hstate : ∀ x, x ≠ p → (s'.proc x).state = (s.proc x).state)
    (hqueues : Queues mlfq s' W) (hself : W p ↔ s'.Waiting p)
    (hother : ∀ x, x ≠ p → (W x ↔ s.Waiting x)) : Orderly mlfq s' := by
  refine ⟨hqueues.congr fun x => ?_, hids.allocated ▸ h.idle, ?_, fun x hx hx' => ?_⟩
  · by_cases hxp : x = p
    · rw [hxp]
      exact hself.symm
    · rw [hother x hxp]
      unfold Sys.Waiting
      rw [hids.allocated, hids.current, hstate x hxp]
  · rw [hids.current]
    exact hids.known h.current
  · by_cases hxp : x = p
    · rw [hxp]
      exact hids.known hp
    · rw [hids.allocated] at hx
      rw [hstate x hxp] at hx'
      exact hids.known (h.known x hx hx')

/-! ## Waking -/

/-- A process that was not runnable becomes so. -/
def Sys.wake (s : Sys) (p : ℕ) : Sys :=
  s.setProc p { s.proc p with state := .runnable, waitState := 0 }

theorem proc_wake (x : ℕ) : (s.wake p).proc x =
    if x = p then { s.proc p with state := .runnable, waitState := 0 } else s.proc x :=
  proc_setProc x

/-- The queues do not depend on the states of processes. -/
theorem Queues.setState (h : Queues mlfq s W) (hrq : t.rq = (s.proc p).rq)
    (hslice : t.timeSlice = (s.proc p).timeSlice) : Queues mlfq (s.setProc p t) W := by
  refine h.modify rfl (fun x => ?_) fun x => ?_ <;>
  · rw [proc_setProc]
    rcases eq_or_ne x p with rfl | hx
    · rw [if_pos rfl]
      assumption
    · rw [if_neg hx]

theorem Queues.wake (h : Queues mlfq s W) : Queues mlfq (s.wake p) W := h.setState rfl rfl

/-- `current` changes its state or spends its time: it is on no queue in any case. -/
theorem Orderly.set_current (h : Orderly mlfq s) (hp : p = s.current)
    (hpid : t.pid = (s.proc p).pid) (hrq : t.rq = (s.proc p).rq)
    (hslice : 0 ≤ (s.proc p).timeSlice → 0 ≤ t.timeSlice ∧ t.timeSlice ≤ (s.proc p).timeSlice)
    (hresched : (s.proc p).needResched = true → t.needResched = true) :
    Kept mlfq none s (s.setProc p t) := by
  have hfits := h.queues.fits p
  have hle := hslice hfits.1
  have hids : SameIds none s (s.setProc p t) := sameIds_setProc hpid hle.2 hresched
  have hnot : ¬s.Waiting p := fun hw => hw.2.2.1 hp
  have hqueues : Queues mlfq (s.setProc p t) s.Waiting :=
    h.queues.setProc hnot (fun j hj => h.queues.used p j (hrq ▸ hj)) (hfits.shorter hle)
  refine ⟨h.of_queues hids (hp ▸ h.current) (fun x hx => ?_) hqueues ?_ fun x _ => Iff.rfl, hids⟩
  · rw [proc_setProc, if_neg hx]
  · exact iff_of_false hnot fun hw => hw.2.2.1 hp

section

variable (hcls : Lawful mlfq cls) (h : Orderly mlfq s)
include hcls h

section

variable (hQ : ∀ s', Kept mlfq none s s' → Q () s')
include hQ

/-- Another process is woken and put on a queue. -/
theorem wp_schedClassEnqueue_woken (hp : s.Known p) (hstate : (s.proc p).state ≠ .runnable)
    (hcur : p ≠ s.current) : (schedClassEnqueue cls p).wp H E Q (s.wake p) := by
  have hnot : ¬s.Waiting p := fun hw => hstate hw.2.1
  have hids : SameIds none s (s.wake p) := sameIds_setProc rfl (Int.le_refl _) id
  have hother : ∀ x, x ≠ p → ((s.wake p).proc x).state = (s.proc x).state := fun x hx => by
    rw [proc_wake, if_neg hx]
  have hrunnable : ((s.wake p).proc p).state = .runnable := by
    rw [proc_wake, if_pos rfl]
  rw [schedClassEnqueue]
  refine wp_if (fun hidle => ?_) fun hidle => ?_
  · refine hcls.enqueue h.queues.wake hnot fun rq s' hqueues henq => ?_
    have hsame := henq.sameProcs
    have hids' := hids.trans (henq.sameIds hcur)
    refine hQ s' ⟨h.of_queues hids' hp (fun x hx => ?_) hqueues ?_ fun x hx => ?_, hids'⟩
    · rw [hsame.state, hother x hx]
    · refine iff_of_true (.inl rfl) ⟨?_, ?_, ?_, hidle⟩
      · rw [hids'.allocated]
        exact hp.1
      · rw [hsame.state, hrunnable]
      · rw [hids'.current]
        exact hcur
    · exact or_iff_right hx
  · refine hQ _ ⟨h.of_queues hids hp hother h.queues.wake ?_ fun x _ => Iff.rfl, hids⟩
    exact iff_of_false hnot fun hw => hidle hw.2.2.2

theorem wp_wakeupProc (hp : s.Known p) (hhalt : H) : (wakeupProc cls p).wp H E Q s := by
  refine wp_assume hhalt fun _ => ?_
  refine wp_if (fun hstate => ?_) fun _ => hQ s ⟨h, .refl s⟩
  refine wp_seq (wp_modifyProc ?_)
  rw [wp_get]
  refine wp_if (fun hcur => ?_) fun hcur => ?_
  · exact wp_assume hhalt fun _ => wp_schedClassEnqueue_woken hcls h hQ hp hstate hcur
  · exact hQ _ (h.set_current (not_not.mp hcur) rfl rfl (⟨·, Int.le_refl _⟩) id)

theorem wp_makeRunnable (hp : s.Known p) (hstate : (s.proc p).state ≠ .runnable) :
    (makeRunnable cls p).wp H E Q s := by
  rw [makeRunnable, wp_bind]
  refine wp_modifyProc ?_
  rw [wp_get]
  refine wp_if (fun hcur => wp_schedClassEnqueue_woken hcls h hQ hp hstate hcur) fun hcur => ?_
  exact hQ _ (h.set_current (not_not.mp hcur) rfl rfl (⟨·, Int.le_refl _⟩) id)

theorem wp_wakeThreads (hothers : ∀ q ∈ others, s.Known q) :
    (wakeThreads cls others).wp H E Q s := by
  induction others generalizing s with
  | nil => exact hQ s ⟨h, .refl s⟩
  | cons next rest ih =>
    -- the rest of the threads are found as before
    have hrest : ∀ s', Kept mlfq none s s' → (wakeThreads cls rest).wp H E Q s' :=
      fun s' h' => ih h'.1 (fun s'' h'' => hQ s'' ⟨h''.1, h'.2.trans h''.2⟩)
        fun q hq => h'.2.known (hothers q (.tail _ hq))
    rw [wakeThreads, wp_bind, wakeThread, wp_get]
    refine wp_if (fun hstate => ?_) fun _ => hrest s ⟨h, .refl s⟩
    refine wp_makeRunnable hcls h hrest (hothers next (.head _)) ?_
    rw [hstate.1]
    decide

end

theorem wp_tryToWakeup {Q : Bool → Sys → Prop} (hp : s.Known p) (hothers : ∀ q ∈ others, s.Known q)
    (hhalt : H) (hQ : ∀ ret s', Kept mlfq none s s' → Q ret s') :
    (tryToWakeup cls p others).wp H E Q s := by
  have hrest : ∀ ret s', Kept mlfq none s s' →
      (wakeThreads cls others >>= fun _ => return ret).wp H E Q s' := by
    intro ret s' h'
    exact wp_seq (wp_wakeThreads hcls h'.1 (fun s'' h'' => hQ ret s'' ⟨h''.1, h'.2.trans h''.2⟩)
      fun q hq => h'.2.known (hothers q hq))
  refine wp_assume hhalt fun _ => ?_
  rw [wp_bind, wakeTarget, wp_get]
  refine wp_if (fun hstate => ?_) fun _ => hrest false s ⟨h, .refl s⟩
  exact wp_seq (wp_makeRunnable hcls h (hrest true) hp hstate)

end

/-! ## Ticks -/

theorem wp_expireTimers (hcls : Lawful mlfq cls) (h : Orderly mlfq s)
    (hexpired : ∀ p ∈ expired, s.Known p) (hhalt : H)
    (hQ : ∀ s', Kept mlfq none s s' → Q () s') :
    (expireTimers cls expired).wp H E Q s := by
  induction expired generalizing s with
  | nil => exact hQ s ⟨h, .refl s⟩
  | cons p rest ih =>
    refine wp_assume hhalt fun _ => ?_
    refine wp_seq (wp_wakeupProc hcls h (fun s' h' => ?_) (hexpired p (.head _)) hhalt)
    exact ih h'.1 (fun q hq => h'.2.known (hexpired q (mem_cons_of_mem p hq)))
      fun s'' h'' => hQ s'' ⟨h''.1, h'.2.trans h''.2⟩

theorem not_waiting_current : ¬s.Waiting s.current := fun hw => hw.2.2.1 rfl

/-- After a tick `current` is to be switched, or some of its time is left. -/
def Ticked (s s' : Sys) : Prop :=
  (s'.proc s.current).needResched = true ∨ 1 ≤ (s'.proc s.current).timeSlice ∧
    (s'.proc s.current).timeSlice < (s.proc s.current).timeSlice

theorem wp_runTimerList (hcls : Lawful mlfq cls) (h : Orderly mlfq s)
    (hexpired : ∀ p ∈ expired, s.Known p) (hhalt : H)
    (hQ : ∀ s', Kept mlfq none s s' → Ticked s s' → Q () s') :
    (runTimerList cls expired).wp H E Q s := by
  rw [runTimerList, wp_bind]
  refine wp_expireTimers hcls h hexpired hhalt fun s₁ h₁ => ?_
  -- the tick changes `current` only
  have hlast : ∀ t, Kept mlfq none s₁ (s₁.setProc s₁.current t) → (t.needResched = true ∨
        1 ≤ t.timeSlice ∧ t.timeSlice < (s₁.proc s₁.current).timeSlice) →
      Q () (s₁.setProc s₁.current t) := by
    intro t h₂ hspent
    refine hQ _ ⟨h₂.1, h₁.2.trans h₂.2⟩ ?_
    have hslice := h₁.2.slice
    unfold Ticked
    rw [← h₁.2.current] at hslice ⊢
    rw [proc_setProc, if_pos rfl]
    exact hspent.imp_right fun hleft => ⟨hleft.1, Int.lt_of_lt_of_le hleft.2 hslice⟩
  rw [wp_get, schedClassProcTick]
  refine wp_if (fun _ => hcls.procTick ?_) fun _ => ?_
  · obtain ⟨hle, hresched, hspent⟩ := tick_spent (h₁.1.queues.fits s₁.current).1
    exact hlast _ (h₁.1.set_current rfl tick_same.1 tick_same.2 (fun _ => hle) hresched) hspent
  · exact hlast _ (h₁.1.set_current rfl rfl rfl (⟨·, Int.le_refl _⟩) fun _ => rfl) (.inl rfl)

/-! ## Stopping and sleeping -/

theorem wp_stopProc (hcls : Lawful mlfq cls) {wait : Sync.WaitState} (h : Orderly mlfq s)
    (hp : s.Known p) (hQ : ∀ s', Kept mlfq (some p) s s' → Q () s') :
    (stopProc cls p wait).wp H E Q s := by
  rw [stopProc, wp_bind]
  refine wp_modifyProc ?_
  generalize hs₁ : s.setProc p { s.proc p with state := .sleeping, waitState := wait } = s₁
  have hids : SameIds (some p) s s₁ := hs₁ ▸ sameIds_setProc rfl (Int.le_refl _) id
  have hqueues : Queues mlfq s₁ s.Waiting := hs₁ ▸ h.queues.setState rfl rfl
  have hself : (s₁.proc p).state = .sleeping := by
    rw [← hs₁, proc_setProc, if_pos rfl]
  have hother : ∀ x, x ≠ p → (s₁.proc x).state = (s.proc x).state := fun x hx => by
    rw [← hs₁, proc_setProc, if_neg hx]
  rw [wp_get]
  refine wp_if (fun hlinked => ?_) fun hlinked => ?_
  · refine hcls.dequeue hqueues (hqueues.linked_iff.mp hlinked) fun rq s₂ hqueues' hdeq => ?_
    have hsame := hdeq.sameProcs
    have hids' := hids.trans hdeq.sameIds
    refine hQ s₂ ⟨h.of_queues hids' hp (fun x hx => ?_) hqueues' ?_ fun x hx => ?_, hids'⟩
    · rw [hsame.state, hother x hx]
    · refine iff_of_false (fun hw => hw.1 rfl) fun hw => ?_
      cases hw.2.1.symm.trans ((hsame.state p).trans hself)
    · exact and_iff_right hx
  · refine hQ s₁ ⟨h.of_queues hids hp hother hqueues ?_ fun x _ => Iff.rfl, hids⟩
    refine iff_of_false (fun hw => hlinked (hqueues.linked_iff.mpr hw)) fun hw => ?_
    cases hw.2.1.symm.trans hself

/-! ## Switching -/

/-- Who may run next. -/
def Sys.Ready (s : Sys) (p : ℕ) : Prop :=
  p ∈ s.allocated ∧ (s.proc p).state = .runnable ∧ p ≠ idleproc

/-- After the first half of `schedule` all who may run are on the queues. -/
theorem wp_requeue (hcls : Lawful mlfq cls) (h : Orderly mlfq s) :
    (requeue cls).wp False Never (fun _ s' => Queues mlfq s' s'.Ready ∧ SameProcs s s' ∧
      ∀ p k, s.Behind p k → s'.Behind p k) s := by
  have hready : ∀ {s'}, SameProcs s s' → ∀ x, s'.Ready x ↔ s.Ready x := fun hsame x => by
    unfold Sys.Ready
    rw [hsame.allocated, hsame.state]
  -- if `current` is not put on a queue, it does not belong there
  have hsame : ((s.proc s.current).state = .runnable → s.current = idleproc) →
      ∀ x, s.Ready x ↔ s.Waiting x := by
    intro hcur x
    refine ⟨fun hx => ⟨hx.1, hx.2.1, ?_, hx.2.2⟩, fun hx => ⟨hx.1, hx.2.1, hx.2.2.2⟩⟩
    rintro rfl
    exact hx.2.2 (hcur hx.2.1)
  rw [requeue, wp_get, wp_bind]
  refine wp_modifyProc ?_
  generalize hs₁ : s.setProc s.current { s.proc s.current with needResched := false } = s₁
  have h₁ : Queues mlfq s₁ s.Waiting := hs₁ ▸ h.queues.setState rfl rfl
  have hsame₁ : SameProcs s s₁ := hs₁ ▸ sameProcs_setProc rfl rfl
  have hbehind₁ : ∀ p k, s.Behind p k → s₁.Behind p k := hs₁ ▸ fun _ _ => id
  rw [wp_get]
  refine wp_if (fun hgo => ?_) fun hstay => ?_
  · rw [schedClassEnqueue]
    refine wp_if (fun hidle => ?_) fun hidle => ?_
    · refine hcls.enqueue h₁ not_waiting_current fun rq s₂ h₂ henq => ?_
      have hsame₂ := hsame₁.trans henq.sameProcs
      refine ⟨h₂.congr fun x => (hready hsame₂ x).trans ?_, hsame₂,
        fun p k hp => henq.behind (hbehind₁ p k hp)⟩
      refine ⟨fun hx => ?_, ?_⟩
      · by_cases hxc : x = s.current
        · exact .inl hxc
        · exact .inr ⟨hx.1, hx.2.1, hxc, hx.2.2⟩
      · rintro (rfl | hx)
        · exact ⟨h.current.1, (hsame₁.state _).symm.trans hgo.1, hidle⟩
        · exact ⟨hx.1, hx.2.1, hx.2.2.2⟩
    · refine ⟨h₁.congr fun x => (hready hsame₁ x).trans (hsame ?_ x), hsame₁, hbehind₁⟩
      exact fun _ => not_not.mp hidle
  · refine ⟨h₁.congr fun x => (hready hsame₁ x).trans (hsame ?_ x), hsame₁, hbehind₁⟩
    intro hrunnable
    refine h.current.2.resolve_right fun hpid => hstay ⟨?_, ?_⟩
    · rw [hsame₁.state, hrunnable]
    · rw [hsame₁.pid]
      exact hpid

/-- `schedule` switches to the first process of the first queue that has one, or to `idleproc`. -/
structure Picks (s : Sys) (next : ℕ) : Prop where
  idle : next = idleproc ↔ ∀ rq < numQueues, (s.queue rq).runList = []
  first : ∀ rq < numQueues, ∀ p rest, (s.queue rq).runList = p :: rest →
    (∀ j < rq, (s.queue j).runList = []) → next = p

theorem wp_takeNext (hcls : Lawful mlfq cls) (h : Queues mlfq s s.Ready) :
    (takeNext cls).wp False Never (fun next s' =>
      Queues mlfq s' (fun x => x ≠ next ∧ s'.Ready x) ∧ SameProcs s s' ∧ Picks s next ∧
        (next = idleproc ∨ s.Ready next) ∧
        ∀ rq, (s'.queue rq).runList = (s.queue rq).runList.erase next) s := by
  rw [takeNext, wp_bind]
  refine hcls.pickNext h (fun hempty => ?_) fun rq p rest hlist hbefore => ?_
  · refine ⟨h.congr fun x => ?_, .refl s, ?_, .inl rfl, fun rq => ?_⟩
    · exact and_iff_right_of_imp fun hx => hx.2.2
    · refine ⟨iff_of_true rfl fun rq _ => hempty rq, fun rq _ p rest hlist => ?_⟩
      cases (hempty rq).symm.trans hlist
    · rw [hempty rq, erase_nil]
  · have hp : p ∈ (s.queue rq).runList := hlist ▸ mem_cons_self
    have hready : s.Ready p := (h.mem p).mpr ⟨rq, hp⟩
    have hrq : rq < numQueues := (h.used p rq (h.home rq p hp)).lt
    refine wp_seq (hcls.dequeue h hready fun _ s' hqueues hdeq => ?_)
    have hsame := hdeq.sameProcs
    refine ⟨hqueues.congr fun x => and_congr_right fun _ => ?_, hsame, ?_, .inr hready,
      hdeq.runList⟩
    · unfold Sys.Ready
      rw [hsame.allocated, hsame.state]
    · refine ⟨iff_of_false hready.2.2 fun hempty => ?_, fun j hj q rest' hlist' hbefore' => ?_⟩
      · cases (hempty rq hrq).symm.trans hlist
      · -- both are the first queue with a process
        rcases Nat.lt_trichotomy j rq with hlt | rfl | hlt
        · cases (hbefore j hlt).symm.trans hlist'
        · exact (List.cons.inj (hlist.symm.trans hlist')).1
        · cases (hbefore' rq hlt).symm.trans hlist

/-- `schedule` returns, with the next process running. -/
theorem Orderly.schedule (hcls : Lawful mlfq cls) (h : Orderly mlfq s) : ∃ s₁ s',
    requeue cls s = .done () s₁ ∧ RunQueue.schedule cls s = .done () s' ∧ Picks s₁ s'.current ∧
      (∀ p k, s.Behind p k → s₁.Behind p k) ∧
      (∀ rq, (s'.queue rq).runList = (s₁.queue rq).runList.erase s'.current) ∧
      Orderly mlfq s' := by
  obtain ⟨⟨⟩, s₁, hrequeue, h₁, hsame₁, hbehind⟩ := (wp_requeue hcls h).returns_done
  obtain ⟨next, s₂, htake, h₂, hsame₂, hpicks, hnext, hlists⟩ :=
    (wp_takeNext hcls h₁).returns_done
  have hsame := hsame₁.trans hsame₂
  refine ⟨s₁, { s₂ with current := next }, hrequeue, ?_, hpicks, hbehind, hlists, ?_, ?_, ?_, ?_⟩
  · show Kern.bind _ _ s = _
    unfold Kern.bind
    rw [hrequeue]
    show Kern.bind _ _ s₁ = _
    unfold Kern.bind
    rw [htake]
    rfl
  · have hqueues : Queues mlfq { s₂ with current := next } fun x => x ≠ next ∧ s₂.Ready x :=
      h₂.modify rfl (fun _ => rfl) fun _ => rfl
    refine hqueues.congr fun x => ?_
    unfold Sys.Waiting Sys.Ready
    tauto
  · exact hsame.allocated ▸ h.idle
  · have hknown : s.Known next := by
      rcases hnext with rfl | hready
      · exact ⟨h.idle, .inl rfl⟩
      · refine h.known next (hsame₁.allocated ▸ hready.1) ?_
        rw [← hsame₁.state, hready.2.1]
        decide
    exact hknown.of_eq hsame.allocated (hsame.pid next)
  · intro x hx hx'
    have hold : s.Known x := h.known x (hsame.allocated ▸ hx) (hsame.state x ▸ hx')
    exact hold.of_eq hsame.allocated (hsame.pid x)

/-! ## Processes come and go -/

/-- A new structure. -/
def Sys.alloc (s : Sys) (p : ℕ) (t : Proc) : Sys :=
  { s.setProc p t with allocated := p :: s.allocated }

theorem proc_alloc (x : ℕ) : (s.alloc p t).proc x = if x = p then t else s.proc x := proc_setProc x

theorem alloc_setProc {u : Proc} : (s.alloc p t).setProc p u = s.alloc p u :=
  congrArg (fun s' : Sys => { s' with allocated := p :: s.allocated }) setProc_setProc

theorem wp_splitSlice (hp : s.current ≠ p) (hhalt : H) (hQ : Q () ((s.setProc p
      { s.proc p with timeSlice := (s.proc s.current).timeSlice.tdiv 2 }).setProc s.current
      { s.proc s.current with timeSlice :=
          (s.proc s.current).timeSlice - (s.proc s.current).timeSlice.tdiv 2 })) :
    (splitSlice p).wp H E Q s := by
  rw [splitSlice, wp_get, wp_get]
  refine wp_assume hhalt fun _ => wp_assume hhalt fun _ => ?_
  refine wp_seq (wp_modifyProc (wp_modifyProc ?_))
  rw [proc_setProc, if_neg hp]
  exact hQ

section

variable (h : Orderly mlfq s)
include h

/-- It is on no queue. -/
theorem Orderly.alloc (hp : p ∉ s.allocated) (hstate : t.state = .uninit) (hrq : t.rq = none)
    (hslice : Fits mlfq t.timeSlice) : Orderly mlfq (s.alloc p t) := by
  have hproc : ∀ x, x ≠ p → (s.alloc p t).proc x = s.proc x := fun x hx => by
    rw [proc_alloc, if_neg hx]
  have hnew : (s.alloc p t).proc p = t := by
    rw [proc_alloc, if_pos rfl]
  have hknown : ∀ x, s.Known x → (s.alloc p t).Known x := by
    intro x hx
    refine ⟨mem_cons_of_mem p hx.1, ?_⟩
    rw [hproc x fun heq => hp (heq ▸ hx.1)]
    exact hx.2
  have hqueues : Queues mlfq (s.setProc p t) s.Waiting :=
    h.queues.setProc (fun hw => hp hw.1) (fun j hj => by cases hrq.symm.trans hj) hslice
  have hqueues' : Queues mlfq (s.alloc p t) s.Waiting :=
    hqueues.modify rfl (fun _ => rfl) fun _ => rfl
  refine ⟨hqueues'.congr fun x => ?_, mem_cons_of_mem p h.idle, hknown _ h.current,
    fun x hx hx' => ?_⟩
  · show (x ∈ p :: s.allocated ∧ ((s.alloc p t).proc x).state = _ ∧ x ≠ s.current ∧
      x ≠ idleproc) ↔ s.Waiting x
    by_cases hxp : x = p
    · rw [hxp, hnew]
      exact iff_of_false (fun hw => by cases hstate.symm.trans hw.2.1) fun hw => hp hw.1
    · rw [hproc x hxp, mem_cons, or_iff_right hxp]
      rfl
  · by_cases hxp : x = p
    · rw [hxp, hnew] at hx'
      exact absurd hstate hx'
    · rw [hproc x hxp] at hx'
      exact hknown x (h.known x ((mem_cons.mp hx).resolve_left hxp) hx')

/-- A new process gets half of the time of `current`. -/
theorem wp_doFork (hp : p ∉ s.allocated) (hhalt : H)
    (hQ : ∀ s', Orderly mlfq s' ∧ Keeps none s s' → Q () s') : (doFork p).wp H E Q s := by
  have hne : s.current ≠ p := fun heq => hp (heq ▸ h.current.1)
  have hcur : ∀ t, (s.alloc p t).proc (s.alloc p t).current = s.proc s.current := fun t => by
    rw [proc_alloc]
    exact if_neg hne
  refine wp_splitSlice (s := s.alloc p newProc) hne hhalt ?_
  rw [hcur, proc_alloc, if_pos rfl, alloc_setProc]
  have hfits := h.queues.fits s.current
  have hhalf : 0 ≤ (s.proc s.current).timeSlice.tdiv 2 ∧
      (s.proc s.current).timeSlice.tdiv 2 ≤ (s.proc s.current).timeSlice := by
    have hpos := hfits.1
    rw [Int.tdiv_eq_ediv_of_nonneg hpos]
    omega
  generalize (s.proc s.current).timeSlice.tdiv 2 = half at hhalf ⊢
  have h₁ := h.alloc (t := { newProc with timeSlice := half }) hp rfl rfl (hfits.shorter hhalf)
  have h₂ : Keeps none s (s.alloc p { newProc with timeSlice := half }) :=
    .of_same rfl (hcur _) fun _ _ _ => id
  have h₃ := h₁.set_current (t := { s.proc s.current with
    timeSlice := (s.proc s.current).timeSlice - half }) rfl
  rw [hcur] at h₃
  have h₄ := h₃ rfl rfl (fun _ => ⟨Int.sub_nonneg_of_le hhalf.2, Int.sub_le_self _ hhalf.1⟩) id
  exact hQ _ ⟨h₄.1, h₂.trans h₄.2.toKeeps⟩

/-- A structure is freed whose process is on no queue. -/
theorem Orderly.freeProc (hp : ¬s.Waiting p) (hcur : p ≠ s.current) (hidle : p ≠ idleproc) :
    Orderly mlfq { s with allocated := s.allocated.erase p } := by
  have hmem : ∀ x, x ≠ p → (x ∈ s.allocated.erase p ↔ x ∈ s.allocated) :=
    fun x => mem_erase_of_ne
  have hqueues : Queues mlfq { s with allocated := s.allocated.erase p } s.Waiting :=
    h.queues.modify rfl (fun _ => rfl) fun _ => rfl
  refine ⟨hqueues.congr fun x => ?_, (hmem _ hidle.symm).mpr h.idle,
    ⟨(hmem _ hcur.symm).mpr h.current.1, h.current.2⟩,
    fun x hx hx' => ⟨hx, (h.known x (mem_of_mem_erase hx) hx').2⟩⟩
  by_cases hxp : x = p
  · rw [hxp]
    exact iff_of_false (fun hw => hp ⟨mem_of_mem_erase hw.1, hw.2⟩) hp
  · show (x ∈ s.allocated.erase p ∧ _) ↔ s.Waiting x
    rw [hmem x hxp]
    rfl

/-- A new process gets its id. -/
theorem Orderly.hash {pid : ℤ} (hp : p ∈ s.allocated) (hpid : lcpuCount ≤ pid) :
    Orderly mlfq (s.setProc p { s.proc p with pid := pid }) := by
  have hstate : ∀ x, ((s.setProc p { s.proc p with pid := pid }).proc x).state =
      (s.proc x).state := by
    intro x
    rw [proc_setProc]
    by_cases hx : x = p
    · rw [if_pos hx, hx]
    · rw [if_neg hx]
  have hknown : ∀ x, s.Known x ∨ x = p → (s.setProc p { s.proc p with pid := pid }).Known x := by
    intro x hx
    unfold Sys.Known
    rw [proc_setProc]
    by_cases hxp : x = p
    · rw [if_pos hxp, hxp]
      exact ⟨hp, .inr hpid⟩
    · rw [if_neg hxp]
      exact hx.resolve_right hxp
  have hqueues : Queues mlfq (s.setProc p { s.proc p with pid := pid }) s.Waiting :=
    h.queues.setState rfl rfl
  refine ⟨hqueues.congr fun x => ?_, h.idle, hknown _ (.inl h.current),
    fun x hx hx' => hknown x (.inl (h.known x hx ?_))⟩
  · unfold Sys.Waiting
    rw [hstate]
    rfl
  · rw [← hstate]
    exact hx'

end

/-! ## Runs -/

/-- The process that a call takes off the queues. -/
def Call.stopped : Call → Option ℕ
  | .stop p _ => some p
  | _ => none

/-- Every call keeps the queues in order, and the assertions on links hold. -/
theorem Orderly.call (hcls : Lawful mlfq cls) {call : Call} (h : Orderly mlfq s)
    (hcall : Enabled s call) : (call.code cls).wp True (fun _ _ => False)
      (fun _ s' => Orderly mlfq s' ∧ (call ≠ .schedule → Keeps call.stopped s s')) s := by
  have hsame : ∀ s', Kept mlfq call.stopped s s' →
      Orderly mlfq s' ∧ (call ≠ .schedule → Keeps call.stopped s s') :=
    fun s' h' => ⟨h'.1, fun _ => h'.2.toKeeps⟩
  have hfree : ∀ {p}, Keeps none s { s with allocated := s.allocated.erase p } :=
    .of_same rfl rfl fun _ _ _ => id
  cases call with
  | wakeup p => exact wp_wakeupProc hcls h hsame hcall trivial
  | tryToWakeup p others =>
    rw [Call.code, wp_bind]
    exact wp_tryToWakeup hcls h hcall.1 hcall.2 trivial fun _ => hsame
  | stop p wait => exact wp_stopProc hcls h hcall hsame
  | schedule =>
    obtain ⟨-, s', -, hdone, -, -, -, h'⟩ := h.schedule hcls
    show (RunQueue.schedule cls).wp _ _ _ s
    unfold wp
    rw [hdone]
    exact ⟨h', absurd rfl⟩
  | tick expired => exact wp_runTimerList hcls h hcall trivial fun s' h' _ => hsame s' h'
  | sleep wait => exact hsame _ (h.set_current rfl rfl rfl (⟨·, Int.le_refl _⟩) id)
  | yield => exact hsame _ (h.set_current rfl rfl rfl (⟨·, Int.le_refl _⟩) fun _ => rfl)
  | fork n => exact wp_doFork h hcall trivial fun _ h' => ⟨h'.1, fun _ => h'.2⟩
  | hash n pid =>
    exact ⟨h.hash hcall.1 hcall.2.2, fun _ => keeps_setProc (Int.le_refl _) id⟩
  | exit =>
    refine wp_assume trivial fun _ => wp_assume trivial fun _ => ?_
    exact hsame _ (h.set_current rfl rfl rfl (⟨·, Int.le_refl _⟩) id)
  | abandon n | reap n =>
    obtain ⟨-, hstate, hcur, hidle⟩ := hcall
    refine ⟨h.freeProc (fun hw => ?_) hcur hidle, fun _ => hfree⟩
    cases hstate.symm.trans hw.2.1

theorem Orderly.step (hcls : Lawful mlfq cls) {call : Call} (h : Orderly mlfq s)
    (hstep : Step cls s call s') :
    Orderly mlfq s' ∧ (call ≠ .schedule → Keeps call.stopped s s') :=
  ((h.call hcls hstep.1).of_done hstep.2 :)

theorem orderly_boot : Orderly mlfq boot := by
  have hempty : ∀ rq, (boot.queue rq).runList = [] := fun _ => rfl
  have hproc : ∀ p, (boot.proc p).rq = none ∧ (boot.proc p).timeSlice = 0 := by
    intro p
    by_cases hp : p = idleproc
    · rw [hp]
      exact ⟨rfl, rfl⟩
    · rw [show boot.proc p = newProc from if_neg hp]
      exact ⟨rfl, rfl⟩
  have hnone : ∀ {p : ℕ} {rq : ℕ}, p ∉ (boot.queue rq).runList := fun hp => by
    cases hp
  refine ⟨⟨fun p => iff_of_false (fun hw => ?_) fun hex => hex.elim fun _ hp => hnone hp,
    fun _ => nodup_nil, fun _ _ hp => absurd hp hnone, fun _ _ hp => absurd hp hnone,
    fun _ => rfl, fun _ => rfl, fun p rq hp => ?_, fun p => ?_⟩, mem_singleton_self _,
    ⟨mem_singleton_self _, .inl rfl⟩, fun p hp _ => ⟨hp, .inl (mem_singleton.mp hp)⟩⟩
  · exact hw.2.2.2 (mem_singleton.mp hw.1)
  · rw [(hproc p).1] at hp
    cases hp
  · rw [(hproc p).2]
    exact ⟨Int.le_refl 0, fun _ => by decide⟩

/-- The processes on the run queues. -/
structure Consistent (s : Sys) : Prop where
  /-- Who is runnable and does not run is on exactly one queue, once. -/
  waiting : ∀ p ∈ s.allocated, (s.proc p).state = .runnable → p ≠ s.current → p ≠ idleproc →
    ∃ rq < numQueues, (s.queue rq).runList.count p = 1 ∧
      ∀ j < numQueues, j ≠ rq → p ∉ (s.queue j).runList
  /-- Nobody else is on a queue. -/
  others : ∀ rq < numQueues, ∀ p ∈ (s.queue rq).runList,
    p ∈ s.allocated ∧ (s.proc p).state = .runnable ∧ p ≠ s.current ∧ p ≠ idleproc
  procNum : ∀ rq < numQueues, (s.queue rq).procNum = (s.queue rq).runList.length
  slice : ∀ rq < numQueues, ∀ p ∈ (s.queue rq).runList, 1 ≤ (s.proc p).timeSlice ∧
    (s.proc p).timeSlice ≤ (s.queue rq).maxTimeSlice ∧ (s.proc p).rq = some rq

theorem Orderly.consistent (h : Orderly mlfq s) : Consistent s := by
  refine ⟨fun p hp hstate hcur hidle => ?_,
    fun rq _ p hp => (h.queues.mem p).mpr ⟨rq, hp⟩, fun rq _ => h.queues.num rq,
    fun rq _ p hp =>
      ⟨(h.queues.slice rq p hp).1, (h.queues.slice rq p hp).2, h.queues.home rq p hp⟩⟩
  obtain ⟨rq, hrq⟩ := (h.queues.mem p).mp ⟨hp, hstate, hcur, hidle⟩
  have hhome := h.queues.home rq p hrq
  refine ⟨rq, (h.queues.used p rq hhome).lt, count_eq_one_of_mem (h.queues.nodup rq) hrq,
    fun j _ hne hj => hne ?_⟩
  exact Option.some.inj ((h.queues.home j p hj).symm.trans hhome)

/-- With either class, in every state that any run reaches: the processes that are runnable and do
not run are on the queues, each once, with their counters and time slices right; no assertion on
links can fail; and `schedule` returns and picks the first process of the first queue that has
one. -/
theorem run_queues_consistent {calls : List Call}
    (hrun : Run (Step (schedClass mlfq)) boot calls s) :
    Consistent s ∧ (∀ call, Enabled s call → ∀ e s', call.code (schedClass mlfq) s ≠ .fail e s') ∧
      ∃ s₁ s', requeue (schedClass mlfq) s = .done () s₁ ∧
        schedule (schedClass mlfq) s = .done () s' ∧ Picks s₁ s'.current := by
  have h : Orderly mlfq s := hrun.invariant
    (fun _ _ _ h hstep => h.step lawful_schedClass hstep |>.1) orderly_boot
  refine ⟨h.consistent, fun call hcall e s' hfail => ?_, ?_⟩
  · exact (h.call lawful_schedClass hcall).of_fail hfail
  · obtain ⟨s₁, s', hrequeue, hdone, hpicks, -, -, -⟩ := h.schedule lawful_schedClass
    exact ⟨s₁, s', hrequeue, hdone, hpicks⟩

theorem exec_sound (s : Sys) (call : Call) (s' : Sys) (h : exec cls call s = some s') :
    Step cls s call s' := by
  unfold exec at h
  by_cases hcall : Enabled s call
  · rw [if_pos hcall] at h
    refine ⟨hcall, ?_⟩
    cases hdone : call.code cls s with
    | done a t =>
      rw [hdone] at h
      rw [Option.some.inj h]
    | fail e t | halt e =>
      rw [hdone] at h
      cases h
  · rw [if_neg hcall] at h
    cases h

/-- With feedback queues: `initproc` forks, uses up its time and goes down one level, and its child
runs. -/
theorem run_queues_consistent_demoted : ∃ s,
    Run (Step (schedClass true)) boot [.fork 1, .hash 1 1, .wakeup 1, .schedule, .fork 2,
      .hash 2 2, .wakeup 2, .tick [], .tick [], .tick [], .tick [], .schedule] s ∧
      s.current = 2 ∧ (s.queue 1).runList = [1] ∧ (s.proc 1).timeSlice = 16 ∧ Consistent s := by
  have hcheck : (execAll (exec (schedClass true)) [.fork 1, .hash 1 1, .wakeup 1, .schedule,
      .fork 2, .hash 2 2, .wakeup 2, .tick [], .tick [], .tick [], .tick [], .schedule] boot).any
      (fun s => decide (s.current = 2 ∧ (s.queue 1).runList = [1] ∧
        (s.proc 1).timeSlice = 16)) = true := by
    decide +kernel
  obtain ⟨s, hrun, htest⟩ := exists_run_of_execAll exec_sound hcheck
  obtain ⟨hcurrent, hlist, hslice⟩ := of_decide_eq_true htest
  exact ⟨s, hrun, hcurrent, hlist, hslice, (run_queues_consistent hrun).1⟩

end Ucore.RunQueue
