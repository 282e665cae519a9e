import Mathlib.Data.List.TakeWhile
import Ucore.Lib.Deltas
import Ucore.Sync.Sched

/-!
# The list of timers

The list is a queue of differences: the remaining time of a timer is the sum of the fields
`expires` up to it. `Placed` relates the lists with and without one timer, and serves both
`add_timer` and `del_timer`; the expiry loop takes the leading timers without a difference.
-/

namespace Ucore.Sync

open Kern Function List

variable {s s' : Sched} {t u p e : ℕ} {pre post rest l : List ℕ} {H : Prop}
  {E : Fault → Sched → Prop} {Q : Unit → Sched → Prop} {v : Proc}

/-- The time after which a queued timer expires. -/
def Sched.remaining (s : Sched) (t : ℕ) : Option ℕ := due s.expires s.timerList t

/-! ## Small steps -/

@[simp] theorem expires_setExpires_self : (s.setExpires t e).expires t = e := by
  simp [Sched.setExpires, Sched.expires]

theorem expires_setExpires_of_ne (h : u ≠ t) : (s.setExpires t e).expires u = s.expires u := by
  simp [Sched.setExpires, Sched.expires, h]

/-- Only the fields `expires` and the list differ. -/
structure SameTimers (s s' : Sched) : Prop where
  proc : s'.proc = s.proc
  owner : ∀ u, (s'.timer u).proc = (s.timer u).proc
  linux : ∀ u, (s'.timer u).linuxTimer = (s.timer u).linuxTimer
  freed : s'.freed = s.freed
  ticks : s'.ticks = s.ticks
  trace : s'.trace = s.trace

theorem SameTimers.refl : SameTimers s s :=
  ⟨rfl, fun _ => rfl, fun _ => rfl, rfl, rfl, rfl⟩

theorem SameTimers.symm (h : SameTimers s s') : SameTimers s' s :=
  ⟨h.proc.symm, fun u => (h.owner u).symm, fun u => (h.linux u).symm, h.freed.symm, h.ticks.symm,
    h.trace.symm⟩

theorem SameTimers.trans {s'' : Sched} (h : SameTimers s s') (h' : SameTimers s' s'') :
    SameTimers s s'' :=
  ⟨h'.proc.trans h.proc, fun u => (h'.owner u).trans (h.owner u),
    fun u => (h'.linux u).trans (h.linux u), h'.freed.trans h.freed, h'.ticks.trans h.ticks,
    h'.trace.trans h.trace⟩

theorem sameTimers_setList : SameTimers s (s.setList l) :=
  ⟨rfl, fun _ => rfl, fun _ => rfl, rfl, rfl, rfl⟩

theorem sameTimers_setExpires : SameTimers s (s.setExpires t e) := by
  have htimer : ∀ u, (s.setExpires t e).timer u = { s.timer u with
      expires := (s.setExpires t e).expires u } := by
    intro u
    rcases eq_or_ne u t with rfl | hu
    · simp [Sched.setExpires, Sched.expires]
    · simp [Sched.setExpires, Sched.expires, hu]
  exact ⟨rfl, fun u => by rw [htimer], fun u => by rw [htimer], rfl, rfl, rfl⟩

theorem wp_getTimer {Q : Timer → Sched → Prop} (ht : t ∉ s.freed) (hQ : Q (s.timer t) s) :
    (getTimer t).wp H E Q s := by
  unfold wp getTimer
  rw [if_neg ht]
  exact hQ

/-- No timer is queued twice or freed. -/
structure Queued (s : Sched) : Prop where
  nodup : s.timerList.Nodup
  live : ∀ t ∈ s.timerList, t ∉ s.freed

/-- Between calls the first timer has not expired, either. -/
structure TimersOk (s : Sched) : Prop extends Queued s where
  head : ∀ t ∈ s.timerList.head?, s.expires t ≠ 0

/-! ## One timer more or less -/

/-- `s'` has one timer more than `s`, behind `pre` and before `post`. -/
structure Placed (s s' : Sched) (t : ℕ) (pre post : List ℕ) : Prop where
  same : SameTimers s s'
  without : s.timerList = pre ++ post
  list : s'.timerList = pre ++ t :: post
  next : Shifted (s'.expires t) s.expires s'.expires post
  others : ∀ u, u ≠ t → u ∉ post → s'.expires u = s.expires u

theorem Placed.expires_pre (h : Placed s s' t pre post) (hnodup : s'.timerList.Nodup)
    (hu : u ∈ pre) : s'.expires u = s.expires u := by
  rw [h.list] at hnodup
  have hdisjoint := (nodup_append.mp hnodup).2.2 u hu
  exact h.others u (hdisjoint t (.head _)) fun hpost => hdisjoint u (mem_cons_of_mem t hpost) rfl

/-- No other timer's remaining time differs. -/
theorem Placed.remaining (h : Placed s s' t pre post) (hnodup : s'.timerList.Nodup) (hu : u ≠ t) :
    s'.remaining u = s.remaining u := by
  rw [Sched.remaining, Sched.remaining, h.list, h.without]
  exact due_splice (fun a => h.expires_pre hnodup) h.next hu

theorem Placed.remaining_self (h : Placed s s' t pre post) (hnodup : s'.timerList.Nodup) :
    s'.remaining t = some ((pre.map s.expires).sum + s'.expires t) := by
  rw [Sched.remaining, h.list, due_self (notMem_front (h.list ▸ hnodup)),
    map_congr_left fun a ha => h.expires_pre hnodup ha]

theorem Placed.mem (h : Placed s s' t pre post) : u ∈ s'.timerList ↔ u = t ∨ u ∈ s.timerList := by
  rw [h.list, h.without, mem_append, mem_cons, mem_append]
  tauto

theorem Placed.erase (h : Placed s s' t pre post) (hnodup : s'.timerList.Nodup) :
    s.timerList = s'.timerList.erase t := by
  rw [h.list, h.without, erase_middle (h.list ▸ hnodup)]

/-! ## `add_timer` -/

/-- The loop finds a place: the timers it passes take their share of the new one's time. -/
theorem wp_placeTimer {before : List ℕ} (hlive : ∀ u ∈ t :: rest, u ∉ s.freed) (hnodup : rest.Nodup)
    (ht : t ∉ rest) (hlist : s.timerList = before ++ rest)
    (hQ : ∀ s' mid post, rest = mid ++ post → Placed s s' t (before ++ mid) post →
      (mid.map s.expires).sum + s'.expires t = s.expires t → Q () s') :
    (placeTimer t before rest).wp H E Q s := by
  induction rest generalizing before s with
  | nil =>
    refine hQ _ [] [] rfl ⟨sameTimers_setList, ?_, ?_, trivial, fun _ _ _ => rfl⟩ ?_
    · rw [hlist, append_nil, append_nil]
    · rw [append_nil]
      rfl
    · exact Nat.zero_add _
  | cons next rest ih =>
    obtain ⟨htnext, htrest⟩ := not_or.mp (mt mem_cons.mpr ht)
    obtain ⟨hnext, hnodup⟩ := nodup_cons.mp hnodup
    rw [placeTimer, wp_bind]
    refine wp_getTimer (hlive t (.head _)) ?_
    refine wp_seq (wp_getTimer (hlive next (by simp)) ?_)
    refine wp_if (fun hlt => ?_) fun hge => ?_
    · have hrest : ∀ u, u ≠ next → (s.setExpires next (s.expires next - s.expires t)).expires u =
          s.expires u := fun u => expires_setExpires_of_ne
      refine hQ _ [] (next :: rest) rfl ⟨sameTimers_setExpires.trans sameTimers_setList, ?_, ?_, ?_,
        fun u _ hu => hrest u fun h => hu (h ▸ mem_cons_self)⟩ ?_
      · rw [hlist, append_nil]
      · rw [append_nil]
        rfl
      · refine ⟨?_, fun u hu => hrest u fun h => hnext (h ▸ hu)⟩
        have hself : (s.setExpires next (s.expires next - s.expires t)).expires next =
            s.expires next - s.expires t := expires_setExpires_self
        change s.expires t < s.expires next at hlt
        show s.expires next = (s.setExpires next (s.expires next - s.expires t)).expires t +
          (s.setExpires next (s.expires next - s.expires t)).expires next
        rw [hrest t htnext]
        omega
      · rw [map_nil, sum_nil, Nat.zero_add]
        exact hrest t htnext
    · -- the timer passes `next`, whose difference comes off its time
      have hother : ∀ u, u ≠ t → (s.setExpires t (s.expires t - s.expires next)).expires u =
          s.expires u := fun u => expires_setExpires_of_ne
      refine ih (s := s.setExpires t (s.expires t - s.expires next)) ?_ hnodup htrest ?_ ?_
      · exact fun u hu => hlive u (by
          rcases mem_cons.mp hu with h | h
          · exact h ▸ mem_cons_self
          · exact .tail _ (.tail _ h))
      · rw [append_assoc]
        exact hlist
      · intro s' mid post hsplit hplaced hsum
        have hmid : ∀ u ∈ mid ++ post, u ≠ t := fun u hu h => htrest (by rwa [hsplit, ← h])
        refine hQ s' (next :: mid) post (by rw [hsplit]; rfl) ⟨sameTimers_setExpires.trans
          hplaced.same, ?_, ?_, hplaced.next.congr fun u hu => ?_, fun u hu hpost => ?_⟩ ?_
        · rw [hlist, hsplit, append_assoc]
          rfl
        · rw [hplaced.list]
          simp
        · exact (hother u (hmid u (mem_append_right _ hu))).symm
        · rw [hplaced.others u hu hpost, hother u hu]
        · rw [map_congr_left fun u hu => hother u (hmid u (mem_append_left _ hu)),
            expires_setExpires_self] at hsum
          rw [map_cons, sum_cons]
          change ¬s.expires t < s.expires next at hge
          omega

/-- `add_timer` gives the timer the remaining time that its field `expires` asks for. -/
theorem wp_addTimer (hok : TimersOk s) (hlive : t ∉ s.freed) (hnew : t ∉ s.timerList)
    (hexpires : 0 < s.expires t) (hproc : (s.timer t).proc ≠ none)
    (hQ : ∀ s' pre post, TimersOk s' → Placed s s' t pre post →
      s'.remaining t = some (s.expires t) → Q () s') :
    (addTimer t).wp H E Q s := by
  rw [addTimer, wp_bind]
  refine wp_getTimer hlive ?_
  refine wp_check ⟨hexpires, hproc⟩ ?_
  refine wp_check hnew (wp_placeTimer ?_ hok.nodup hnew rfl fun s' mid post hsplit hplaced
    hsum => ?_)
  · intro u hu
    rcases mem_cons.mp hu with h | h
    · exact h ▸ hlive
    · exact hok.live u h
  · rw [nil_append] at hplaced
    have hnodup : s'.timerList.Nodup := by
      rw [hplaced.list, perm_middle.nodup_iff, ← hsplit, nodup_cons]
      exact ⟨hnew, hok.nodup⟩
    refine hQ s' mid post ⟨⟨hnodup, fun u hu => ?_⟩, fun u hu => ?_⟩ hplaced ?_
    · rw [hplaced.same.freed]
      rcases hplaced.mem.mp hu with h | h
      · exact h ▸ hlive
      · exact hok.live u h
    · -- either the timer is the first one, or the first one has not changed
      rw [hplaced.list] at hu
      cases mid with
      | nil =>
        obtain rfl : t = u := by simpa using hu
        simp only [map_nil, sum_nil] at hsum
        omega
      | cons a mid =>
        obtain rfl : a = u := by simpa using hu
        rw [hplaced.expires_pre hnodup (.head _)]
        exact hok.head a (by rw [hsplit]; rfl)
    · rw [hplaced.remaining_self hnodup, hsum]

/-! ## `del_timer` -/

theorem wp_passExpires (hok : Queued s) (hlist : s.timerList = pre ++ t :: post)
    (hQ : ∀ s', SameTimers s s' → s'.timerList = s.timerList → Shifted e s'.expires s.expires post →
      (∀ u, u ∉ post → s'.expires u = s.expires u) → Q () s') : (passExpires t e).wp H E Q s := by
  have hnodup := hok.nodup
  rw [hlist] at hnodup
  rw [passExpires, wp_get, hlist, nextOf_some (notMem_front hnodup)]
  cases post with
  | nil => exact hQ s .refl rfl trivial fun _ _ => rfl
  | cons next rest =>
    have hnext : next ∉ rest :=
      (nodup_cons.mp (nodup_cons.mp (nodup_append.mp hnodup).2.1).2).1
    show (getTimer next >>= _).wp H E Q s
    refine wp_seq (wp_getTimer (hok.live next (by rw [hlist]; simp)) ?_)
    refine hQ _ sameTimers_setExpires rfl ⟨?_, fun u hu => ?_⟩ fun u hu => ?_
    · rw [expires_setExpires_self]
      exact Nat.add_comm _ _
    · have hne : u ≠ next := fun h => hnext (h ▸ hu)
      exact (expires_setExpires_of_ne hne).symm
    · exact expires_setExpires_of_ne fun h => hu (h ▸ mem_cons_self)

theorem Queued.remove (hok : Queued s) (h : Placed s' s t pre post) : Queued s' := by
  have hnodup := hok.nodup
  rw [h.list] at hnodup
  refine ⟨?_, fun u hu => ?_⟩
  · rw [h.without]
    exact hnodup.sublist (List.Sublist.append_left (sublist_cons_self t post) pre)
  · rw [← h.same.freed]
    exact hok.live u (h.mem.mpr (.inr hu))

/-- The list without one of its timers is still sound. -/
theorem TimersOk.remove (hok : TimersOk s) (h : Placed s' s t pre post) : TimersOk s' := by
  refine ⟨hok.toQueued.remove h, fun u hu => ?_⟩
  rw [h.without] at hu
  cases pre with
  | nil =>
    -- the timer was the first one, and the next one has its time now
    have htime := hok.head t (by rw [h.list]; rfl)
    cases post with
    | nil => cases hu
    | cons next post =>
      obtain rfl : next = u := by simpa using hu
      have hnext := h.next.1
      omega
  | cons a pre =>
    obtain rfl : a = u := by simpa using hu
    rw [← h.expires_pre hok.nodup (.head _)]
    exact hok.head a (by rw [h.list]; rfl)

/-- `del_timer` on a queued timer: the field `expires` of the timer itself stays. -/
theorem wp_delTimer (hok : Queued s) (hlive : t ∉ s.freed) (hnot : t ∉ s.timerList → Q () s)
    (hQ : ∀ s' pre post, Placed s' s t pre post → s'.expires t = s.expires t → Q () s') :
    (delTimer t).wp H E Q s := by
  rw [delTimer, wp_bind]
  refine wp_getTimer hlive ?_
  rw [wp_get]
  refine wp_if (fun ht => ?_) hnot
  obtain ⟨pre, post, hlist⟩ := append_of_mem ht
  have hnodup := hok.nodup
  rw [hlist] at hnodup
  have htpost : t ∉ post := (nodup_cons.mp (nodup_append.mp hnodup).2.1).1
  have herase : s.timerList.erase t = pre ++ post := by rw [hlist, erase_middle hnodup]
  -- whatever was passed on, the list and the timer's neighbours are as they should be
  have hunlink : ∀ s₁, SameTimers s s₁ → s₁.timerList = s.timerList →
      Shifted (s.expires t) s₁.expires s.expires post →
      (∀ u, u ∉ post → s₁.expires u = s.expires u) → (unlinkTimer t).wp H E Q s₁ := by
    intro s₁ hsame hlist₁ hnext hothers
    have hplaced : Placed (s₁.setList (s₁.timerList.erase t)) s t pre post :=
      ⟨(hsame.trans sameTimers_setList).symm, by rw [hlist₁]; exact herase, hlist, hnext,
        fun u _ hu => (hothers u hu).symm⟩
    exact hQ _ pre post hplaced (hothers t htpost)
  rw [removeTimer]
  refine wp_if (fun _ => ?_) fun hzero => ?_
  · exact wp_seq (wp_passExpires hok hlist hunlink)
  · refine hunlink s .refl rfl ?_ fun _ _ => rfl
    have htime : s.expires t = 0 := not_not.mp hzero
    rw [htime]
    cases post with
    | nil => trivial
    | cons next post => exact ⟨(Nat.zero_add _).symm, fun _ _ => rfl⟩

/-! ## Wake-ups -/

/-- A process that the timer interrupt may wake up. -/
def Wakeable (v : Proc) : Prop := v.state ≠ .zombie ∧ (v.waitState = 0 ∨ Interruptible v.waitState)

/-- What `wakeup_proc` makes of a process. -/
def Proc.woken (v : Proc) : Proc := if v.state = .runnable then v else ⟨.runnable, 0⟩

theorem wake_eq : s.wake p = s.setProc p (s.proc p).woken := by
  unfold Sched.wake Proc.woken
  split
  · simp [Sched.setProc]
  · rfl

@[simp] theorem timerList_wake : (s.wake p).timerList = s.timerList := by
  rw [wake_eq]
  rfl

@[simp] theorem timer_wake : (s.wake p).timer = s.timer := by
  rw [wake_eq]
  rfl

theorem Wakeable.woken (h : Wakeable v) : Wakeable v.woken := by
  unfold Proc.woken
  split
  · exact h
  · exact ⟨by simp, .inl rfl⟩

theorem Proc.state_woken : v.woken.state = .runnable := by
  unfold Proc.woken
  split
  · assumption
  · rfl

theorem woken_woken : v.woken.woken = v.woken := by
  rw [Proc.woken, if_pos Proc.state_woken]

theorem wp_wakeupProc (hstate : (s.proc p).state ≠ .zombie)
    (hQ : Q () ((s.wake p).record (.wakeup p))) : (wakeupProc p).wp H E Q s := by
  rw [wakeupProc, wp_get, wp_bind]
  exact wp_assert_of hstate hQ

theorem wp_killWakeup (hstay : Q () s) (hwake : Q () ((s.wake p).record (.wakeup p))) :
    (killWakeup p).wp True Any Q s := by
  rw [killWakeup, wp_get]
  refine wp_if (fun _ => ?_) fun _ => hstay
  exact wp_assume trivial fun _ => hwake

/-! ## `run_timer_list` -/

/-- The processes that wait for timers of a list. -/
def Sched.owners (s : Sched) (l : List ℕ) : List ℕ := l.filterMap fun t => (s.timer t).proc

/-- The timers of `pre` have expired and are gone, and their processes were woken up, in the
order of the list. -/
def Sched.expire (s : Sched) (pre post : List ℕ) : Sched :=
  { s with
    timerList := post
    proc := fun p => if p ∈ s.owners pre then (s.proc p).woken else s.proc p
    trace := s.trace ++ (s.owners pre).map .wakeup }

variable {driver : ℕ → ℕ → SchedM Unit} {a fuel : ℕ} {timer : Timer}

theorem proc_wake_self : (s.wake p).proc p = (s.proc p).woken := by
  rw [wake_eq]
  exact update_self p _ s.proc

theorem proc_wake_of_ne {q : ℕ} (hq : q ≠ p) : (s.wake p).proc q = s.proc q := by
  rw [wake_eq]
  exact update_of_ne hq _ s.proc

theorem proc_wake_eq_or (q : ℕ) :
    (s.wake p).proc q = s.proc q ∨ ((s.wake p).proc q).state = .runnable := by
  by_cases hq : q = p
  · rw [hq, proc_wake_self]
    exact .inr Proc.state_woken
  · exact .inl (proc_wake_of_ne hq)

/-- The state after the timer at the head of the list has woken up its process. -/
def Sched.serve (s : Sched) (p : ℕ) (l : List ℕ) : Sched :=
  ((s.setProc p (s.proc p).woken).record (.wakeup p)).setList l

theorem expire_nil (h : s.timerList = post) : s.expire [] post = s := by
  rw [← h]
  simp [Sched.expire, Sched.owners]

theorem expire_serve (hproc : (s.timer a).proc = some p) :
    (s.serve p l).expire pre post = s.expire (a :: pre) post := by
  have howners : s.owners (a :: pre) = p :: s.owners pre :=
    filterMap_cons_some hproc
  have hprocs : ∀ q, (if q ∈ s.owners pre then ((s.serve p l).proc q).woken
      else (s.serve p l).proc q) =
      if q ∈ p :: s.owners pre then (s.proc q).woken else s.proc q := by
    intro q
    show (if q ∈ s.owners pre then (update s.proc p _ q).woken
      else update s.proc p _ q) = _
    by_cases hq : q = p
    · rw [hq, update_self, woken_woken, ite_self, if_pos (.head _)]
    · rw [update_of_ne hq]
      exact if_congr (by simp [hq]) rfl rfl
  rw [Sched.expire, Sched.expire, howners, ← funext hprocs]
  simp [Sched.serve, Sched.record, Sched.setList, Sched.setProc, Sched.owners]

/-- A wake-up that returns has found a process that may be woken up. -/
theorem wp_wakeOwner (hbad : (∀ p, timer.proc = some p → ¬Wakeable (s.proc p)) → H ∧ ∀ e s', E e s')
    (hQ : ∀ p, timer.proc = some p → Wakeable (s.proc p) →
      Q () ((s.setProc p (s.proc p).woken).record (.wakeup p))) : (wakeOwner timer).wp H E Q s := by
  unfold wakeOwner
  cases hproc : timer.proc with
  | none => exact (hbad (by simp [hproc])).2 _ _
  | some p =>
    have hnot : ¬Wakeable (s.proc p) → H := fun hp =>
      (hbad fun q hq => by rw [hproc] at hq; cases hq; exact hp).1
    rw [wp_get, wp_bind, wp_assert, wakeupProc, wp_get, wp_bind, wp_assert, wp_modify, wake_eq]
    exact ⟨fun hwait => ⟨fun hstate => hQ p hproc ⟨hstate, hwait⟩, fun hstate => hnot fun hp =>
      hstate hp.1⟩, fun hwait => hnot fun hp => hwait hp.2⟩

/-- `del_timer` on an expired timer at the head of the list. -/
theorem wp_delTimer_head (hlive : a ∉ s.freed) (hlist : s.timerList = a :: rest)
    (hzero : s.expires a = 0) (hQ : Q () (s.setList rest)) : (delTimer a).wp H E Q s := by
  rw [delTimer, wp_bind]
  refine wp_getTimer hlive ?_
  rw [wp_get, hlist, if_pos (.head _), removeTimer]
  rw [if_neg (show ¬(s.timer a).expires ≠ 0 from not_not.mpr hzero), unlinkTimer, wp_modify, hlist,
    erase_cons_head]
  exact hQ

/-- Once a driver's timer was freed, the loop reads it and does not return. -/
theorem wp_fireLinuxTimer {next : Option ℕ} :
    (fireLinuxTimer driver a timer >>= fun _ => expireTimers driver fuel a next).wp True
      Any (fun _ _ => False) s := by
  rw [wp_bind, fireLinuxTimer, wp_bind]
  refine wp_any fun _ s₁ => ?_
  refine wp_seq (wp_any fun _ s₂ => ?_)
  have hfree : (freeTimer a).wp True Any (fun _ s' => a ∈ s'.freed) s₂ := by
    unfold wp freeTimer
    by_cases ha : a ∈ s₂.freed
    · rw [if_pos ha]
      trivial
    · rw [if_neg ha]
      exact .head _
  refine hfree.imp fun _ s₃ hfreed => ?_
  cases fuel with
  | zero => trivial
  | succ fuel =>
    rw [expireTimers, wp_bind]
    unfold wp getTimer
    rw [if_pos hfreed]
    trivial

/-- A timer whose expiry wakes up its process. -/
def Sched.Serves (s : Sched) (a : ℕ) : Prop :=
  (s.timer a).isLinuxTimer = false ∧ ∃ p, (s.timer a).proc = some p ∧ Wakeable (s.proc p)

/-- The loop ends, and has taken the leading timers without a difference. If it meets a timer
that does not serve a process, it does not return. -/
theorem wp_expireTimers (hok : Queued s) (hlist : s.timerList = pre ++ post)
    (hcons : pre ++ post = t :: rest) (hfuel : rest.length < fuel)
    (hzero : ∀ a ∈ pre, s.expires a = 0) (hhead : ∀ a ∈ post.head?, s.expires a ≠ 0)
    (howner : ∀ a ∈ pre, s.Serves a ∨ H ∧ ∀ e s', E e s')
    (hQ : (∀ a ∈ pre, (s.timer a).isLinuxTimer = false) → Q () (s.expire pre post)) :
    (expireTimers driver fuel t (some t)).wp H E Q s := by
  induction pre generalizing s t rest fuel with
  | nil =>
    rw [nil_append] at hlist hcons
    obtain ⟨fuel, rfl⟩ := Nat.exists_eq_succ_of_ne_zero (by omega : fuel ≠ 0)
    have ht : s.expires t ≠ 0 := hhead t (by rw [hcons]; rfl)
    rw [expireTimers, wp_bind]
    refine wp_getTimer (hok.live t (by rw [hlist, hcons]; exact .head _)) ?_
    exact wp_if (fun h => absurd h ht) fun _ => expire_nil hlist ▸ hQ (by simp)
  | cons a pre ih =>
    obtain ⟨rfl, hrest⟩ := List.cons.inj hcons
    obtain ⟨fuel, rfl⟩ := Nat.exists_eq_succ_of_ne_zero (by omega : fuel ≠ 0)
    have hown := howner a (.head _)
    have hzero_a := hzero a (.head _)
    have hlive : a ∉ s.freed := hok.live a (by rw [hlist]; exact .head _)
    rw [expireTimers, wp_bind]
    refine wp_getTimer hlive ?_
    refine wp_if (fun _ => ?_) (absurd hzero_a)
    rw [wp_get]
    refine wp_if (fun hlinux => ?_) fun hlinux => ?_
    · obtain ⟨hH, hE⟩ := hown.resolve_left fun h => absurd (hlinux.symm.trans h.1) (by simp)
      exact wp_fireLinuxTimer.weaken hH hE fun _ _ hfalse => hfalse.elim
    have hnext : nextOf s.timerList (some a) = (pre ++ post).head? := by
      rw [hlist]
      exact nextOf_some not_mem_nil
    rw [wp_bind, hnext]
    refine wp_wakeOwner (fun hnone => ?_) fun p hproc _ => ?_
    · refine hown.resolve_left fun h => ?_
      obtain ⟨q, hq, hwake⟩ := h.2
      exact hnone q hq hwake
    refine wp_seq (wp_delTimer_head hlive hlist hzero_a ?_)
    change wp _ H E Q (s.serve p (pre ++ post))
    have hdone : (∀ b ∈ pre, (s.timer b).isLinuxTimer = false) →
        Q () ((s.serve p (pre ++ post)).expire pre post) := by
      intro hall
      rw [expire_serve hproc]
      refine hQ fun b hb => (mem_cons.mp hb).elim (fun heq => ?_) (hall b)
      rw [heq]
      simpa using hlinux
    have hserves : ∀ b, s.Serves b → (s.serve p (pre ++ post)).Serves b := by
      rintro b ⟨hb, q, hq, hwake⟩
      refine ⟨hb, q, hq, ?_⟩
      show Wakeable (update s.proc p _ q)
      rcases eq_or_ne q p with rfl | heq
      · rw [update_self]
        exact hwake.woken
      · rwa [update_of_ne heq]
    have hok' : Queued (s.serve p (pre ++ post)) := by
      have hnodup := hok.nodup
      have hall := hok.live
      rw [hlist] at hnodup hall
      exact ⟨(nodup_cons.mp hnodup).2, fun b hb => hall b (mem_cons_of_mem a hb)⟩
    cases hl : pre ++ post with
    | nil =>
      obtain ⟨rfl, rfl⟩ := append_eq_nil_iff.mp hl
      have hstay : (s.serve p []).expire [] [] = s.serve p [] := expire_nil rfl
      exact hstay ▸ hdone (by simp)
    | cons u rest' =>
      change wp (expireTimers driver fuel u (some u)) H E Q (s.serve p (u :: rest'))
      rw [← hl]
      refine ih hok' rfl hl ?_ (fun b hb => hzero b (mem_cons_of_mem a hb)) hhead
        (fun b hb => (howner b (mem_cons_of_mem a hb)).imp (hserves b) id) hdone
      change pre ++ post = rest at hrest
      rw [← hrest, hl, length_cons] at hfuel
      omega

/-- The timers that the next call of `run_timer_list` finds expired. -/
def Sched.expired (s : Sched) : List ℕ := s.timerList.filter fun t => s.remaining t = some 1

/-- One call of `run_timer_list`: all remaining times are shorter by one, the timers for which
nothing remains are gone, and their processes were woken up in the order of the list. -/
structure Ticked (s s' : Sched) : Prop where
  remaining : ∀ u, s'.remaining u =
    (s.remaining u).bind fun r => if r = 1 then none else some (r - 1)
  mem : ∀ u, u ∈ s'.timerList ↔ u ∈ s.timerList ∧ u ∉ s.expired
  owner : ∀ u, (s'.timer u).proc = (s.timer u).proc
  linux : ∀ u, (s'.timer u).linuxTimer = (s.timer u).linuxTimer
  freed : s'.freed = s.freed
  ticks : s'.ticks = s.ticks
  trace : s'.trace = s.trace ++ (s.owners s.expired).map .wakeup
  woken : ∀ p ∈ s.owners s.expired, s'.proc p = (s.proc p).woken
  asleep : ∀ p, p ∉ s.owners s.expired → s'.proc p = s.proc p

/-- The clock only wakes processes up. -/
theorem Ticked.proc_eq_or (h : Ticked s s') (p : ℕ) :
    s'.proc p = s.proc p ∨ (s'.proc p).state = .runnable := by
  by_cases hp : p ∈ s.owners s.expired
  · rw [h.woken p hp]
    exact .inr Proc.state_woken
  · exact .inl (h.asleep p hp)

theorem remaining_pos (hok : TimersOk s) {r : ℕ} (h : s.remaining t = some r) : 0 < r :=
  due_pos hok.head h

/-- The list after its first timer lost one tick: the expired timers, then the others. -/
theorem exists_expired (hok : TimersOk s) (hlist : s.timerList = t :: rest) :
    ∃ post, t :: rest = s.expired ++ post ∧
      Shifted 1 s.expires (s.setExpires t (s.expires t - 1)).expires (t :: rest) ∧
      (∀ a ∈ s.expired, (s.setExpires t (s.expires t - 1)).expires a = 0) ∧
      ∀ a ∈ post.head?, (s.setExpires t (s.expires t - 1)).expires a ≠ 0 := by
  have hhead : s.expires t ≠ 0 := hok.head t (by rw [hlist]; rfl)
  have hnodup := hok.nodup
  rw [hlist] at hnodup
  generalize hs₁ : s.setExpires t (s.expires t - 1) = s₁
  have hshift : Shifted 1 s.expires s₁.expires (t :: rest) := by
    refine ⟨?_, fun b hb => ?_⟩
    · rw [← hs₁, expires_setExpires_self]
      omega
    · rw [← hs₁]
      exact expires_setExpires_of_ne fun h => (nodup_cons.mp hnodup).1 (h ▸ hb)
  have hsplit := takeWhile_append_dropWhile (p := fun a => decide (s₁.expires a = 0))
    (l := t :: rest)
  have hzero : ∀ a ∈ (t :: rest).takeWhile fun a => decide (s₁.expires a = 0),
      s₁.expires a = 0 := by
    intro a ha
    have htrue := mem_takeWhile_imp ha
    simpa using htrue
  have hpost : ∀ a ∈ ((t :: rest).dropWhile fun a => decide (s₁.expires a = 0)).head?,
      s₁.expires a ≠ 0 := by
    intro a ha
    have hnot := List.head?_dropWhile_not (fun a => decide (s₁.expires a = 0)) (t :: rest)
    rw [ha] at hnot
    simpa using hnot
  have hexpired : s.expired = (t :: rest).takeWhile fun a => decide (s₁.expires a = 0) := by
    rw [← filter_due_zero (by rwa [hsplit]) hzero hpost, hsplit, Sched.expired, hlist]
    refine filter_congr fun a _ => ?_
    rw [Sched.remaining, hlist, hshift.due]
    cases due s₁.expires (t :: rest) a with
    | none => rfl
    | some r => simp
  refine ⟨_, ?_, hshift, ?_, hpost⟩
  · rw [hexpired, hsplit]
  · rw [hexpired]
    exact hzero

/-- The first timer loses one tick and the expired ones go. -/
theorem ticked_of_expired (hok : TimersOk s) (hlist : s.timerList = t :: rest)
    (hsplit : t :: rest = s.expired ++ post)
    (hshift : Shifted 1 s.expires (s.setExpires t (s.expires t - 1)).expires (t :: rest))
    (hzero : ∀ a ∈ s.expired, (s.setExpires t (s.expires t - 1)).expires a = 0)
    (hpost : ∀ a ∈ post.head?, (s.setExpires t (s.expires t - 1)).expires a ≠ 0) :
    Ticked s ((s.setExpires t (s.expires t - 1)).expire s.expired post) ∧
      TimersOk ((s.setExpires t (s.expires t - 1)).expire s.expired post) := by
  have hnodup := hok.nodup
  rw [hlist, hsplit] at hnodup
  have hsame : SameTimers s (s.setExpires t (s.expires t - 1)) := sameTimers_setExpires
  generalize s.setExpires t (s.expires t - 1) = s₁ at *
  have howners : s₁.owners s.expired = s.owners s.expired := by
    unfold Sched.owners
    simp only [hsame.owner]
  refine ⟨⟨fun u => ?_, fun u => ?_, hsame.owner, hsame.linux, hsame.freed, hsame.ticks, ?_,
    fun p hp => ?_, fun p hp => ?_⟩, ⟨⟨(nodup_append.mp hnodup).2.1, fun u hu => ?_⟩, hpost⟩⟩
  · show due s₁.expires post u = _
    rw [Sched.remaining, hlist, hshift.due, hsplit]
    by_cases hu : u ∈ s.expired
    · have hnot : u ∉ post := fun hp => (nodup_append.mp hnodup).2.2 u hu u hp rfl
      rw [due_zeros hzero hu, due_eq_none.mpr hnot]
      rfl
    · rw [due_drop_zeros hzero hu]
      cases hdue : due s₁.expires post u with
      | none => rfl
      | some r =>
        have hr : 0 < r := due_pos hpost hdue
        rw [Option.map_some, Option.bind_some, if_neg (by omega), Nat.add_sub_cancel_left]
  · rw [hlist, hsplit, mem_append]
    refine ⟨fun hu => ⟨.inr hu, fun he => ?_⟩, fun hu => hu.1.resolve_left hu.2⟩
    exact (nodup_append.mp hnodup).2.2 u he u hu rfl
  · show s₁.trace ++ (s₁.owners s.expired).map .wakeup = _
    rw [hsame.trace, howners]
  · show (if p ∈ s₁.owners s.expired then (s₁.proc p).woken else s₁.proc p) = _
    rw [howners, if_pos hp, hsame.proc]
  · show (if p ∈ s₁.owners s.expired then (s₁.proc p).woken else s₁.proc p) = _
    rw [howners, if_neg hp, hsame.proc]
  · show u ∉ s₁.freed
    rw [hsame.freed]
    exact hok.live u (by rw [hlist, hsplit]; exact mem_append_right _ hu)

/-- `run_timer_list` returns if every expired timer serves a process, and it does not return
if one of them is a driver's. -/
theorem wp_runTimerList (hok : TimersOk s)
    (howner : ∀ a ∈ s.expired, s.Serves a ∨ H ∧ ∀ e s', E e s')
    (hQ : ∀ s', TimersOk s' → Ticked s s' →
      (∀ a ∈ s.expired, (s.timer a).isLinuxTimer = false) → Q () s') :
    (runTimerList driver).wp H E Q s := by
  rw [runTimerList, wp_get]
  cases hlist : s.timerList with
  | nil =>
    have hnone : ∀ u, s.remaining u = none := fun u => by rw [Sched.remaining, hlist]; rfl
    have hexpired : s.expired = [] := by rw [Sched.expired, hlist]; rfl
    refine hQ s hok ⟨fun u => by rw [hnone]; rfl, fun u => ?_, fun _ => rfl, fun _ => rfl,
      rfl, rfl, ?_, ?_, fun _ _ => rfl⟩ ?_
    · rw [hlist]
      simp
    · rw [hexpired]
      exact (append_nil _).symm
    · rw [hexpired]
      exact nofun
    · rw [hexpired]
      exact nofun
  | cons t rest =>
    obtain ⟨post, hsplit, hshift, hzero, hpost⟩ := exists_expired hok hlist
    refine wp_seq (wp_getTimer (hok.live t (by rw [hlist]; exact .head _)) ?_)
    refine wp_check (hok.head t (by rw [hlist]; rfl)) ?_
    obtain ⟨hticked, hok'⟩ := ticked_of_expired hok hlist hsplit hshift hzero hpost
    have hsame : SameTimers s (s.setExpires t (s.expires t - 1)) := sameTimers_setExpires
    have hlinux : ∀ a, ((s.setExpires t (s.expires t - 1)).timer a).isLinuxTimer =
        (s.timer a).isLinuxTimer := fun a => by
      rw [Timer.isLinuxTimer, hsame.linux]
      rfl
    refine wp_expireTimers { hok with } (hlist.trans hsplit) hsplit.symm (by omega) hzero hpost
      (fun a ha => (howner a ha).imp_left ?_) fun hall =>
        hQ _ hok' hticked fun a ha => (hlinux a).symm.trans (hall a ha)
    rintro ⟨hnot, p, hproc, hp⟩
    exact ⟨(hlinux a).trans hnot, p, (hsame.owner a).trans hproc, hp⟩

/-! ## Timers of drivers -/

/-- What the expiry of a timer should be seen to do. -/
def Sched.eventsOf (s : Sched) (t : ℕ) : List Event :=
  if (s.timer t).isLinuxTimer then
    (s.timer t).linuxTimer.function.toList.map (.call · (s.timer t).linuxTimer.data) ++ [.free t]
  else (s.timer t).proc.toList.map .wakeup

/-- `__ucore_add_timer` never returns: `add_timer` insists on a process. -/
theorem ucoreAddTimer_halts {block function : Option ℕ} {linuxTimer expires data : ℕ} :
    ucoreAddTimer block linuxTimer expires data function s = .halt .assertion := by
  cases block with
  | none => rfl
  | some t =>
    simp [ucoreAddTimer, timerInit, Sched.initTimer, addTimer, getTimer, Bind.bind, Kern.bind,
      Kern.modify, Kern.assert]

/-- The events of processes' timers are their wake-ups. -/
theorem flatMap_eventsOf (hl : ∀ t ∈ l, (s.timer t).isLinuxTimer = false) :
    l.flatMap s.eventsOf = (s.owners l).map .wakeup := by
  induction l with
  | nil => rfl
  | cons t l ih =>
    have ht := hl t (.head _)
    rw [flatMap_cons, ih fun u hu => hl u (mem_cons_of_mem t hu), Sched.eventsOf, ht]
    unfold Sched.owners
    cases hproc : (s.timer t).proc with
    | none =>
      rw [filterMap_cons_none (f := fun t => (s.timer t).proc) hproc]
      rfl
    | some p =>
      rw [filterMap_cons_some (f := fun t => (s.timer t).proc) hproc]
      rfl

/-- Whatever the drivers' functions do, one call of `run_timer_list` returns after the events
of the expired timers exactly if none of these is a driver's timer. -/
theorem run_timer_list_completes_iff (hok : TimersOk s)
    (howner : ∀ t ∈ s.timerList, (s.timer t).isLinuxTimer = false →
      ∃ p, (s.timer t).proc = some p ∧ Wakeable (s.proc p)) :
    (∃ s', runTimerList driver s = .done () s' ∧
      s'.trace = s.trace ++ s.expired.flatMap s.eventsOf) ↔
    ∀ t ∈ s.expired, (s.timer t).isLinuxTimer = false := by
  constructor
  · rintro ⟨s', hcall, -⟩
    have hwp : (runTimerList driver).wp True Any
        (fun _ _ => ∀ t ∈ s.expired, (s.timer t).isLinuxTimer = false) s :=
      wp_runTimerList hok (fun _ _ => .inr ⟨trivial, fun _ _ => trivial⟩) fun _ _ _ hall => hall
    exact hwp.of_done hcall
  · intro hlinux
    have hwp : (runTimerList driver).wp False Never
        (fun _ s' => s'.trace = s.trace ++ s.expired.flatMap s.eventsOf) s := by
      refine wp_runTimerList hok (fun t ht => .inl ⟨hlinux t ht, ?_⟩) fun s' _ hticked _ => ?_
      · exact howner t (mem_of_mem_filter ht) (hlinux t ht)
      · rw [hticked.trace, flatMap_eventsOf hlinux]
    obtain ⟨_, s', hcall, htrace⟩ := hwp.returns_done
    exact ⟨s', hcall, htrace⟩

/-- Process 3 waits for timer 0; timer 1 is a driver's, with function 5. -/
def mixedTimers (l : List ℕ) (e₀ e₁ : ℕ) : Sched where
  proc := fun _ => ⟨.sleeping, wtTimer⟩
  timer := fun t => if t = 0 then ⟨e₀, some 3, ⟨none, 0, none⟩⟩ else ⟨e₁, none, ⟨some 7, 8, some 5⟩⟩
  timerList := l
  freed := []
  ticks := 0
  trace := []

/-- The driver's timer is behind the process's and does not expire with it. -/
theorem run_timer_list_completes_mixed :
    ∃ s', runTimerList (fun _ _ => return ()) (mixedTimers [0, 1] 1 4) = .done () s' ∧
      s'.trace = [.wakeup 3] := by
  have hok : TimersOk (mixedTimers [0, 1] 1 4) :=
    ⟨⟨by decide, by decide⟩, by decide⟩
  refine (run_timer_list_completes_iff hok fun t _ ht => ?_).mpr (by decide)
  rcases eq_or_ne t 0 with rfl | h
  · exact ⟨3, rfl, by decide, .inr (by decide)⟩
  · exact absurd ht (by simp [mixedTimers, h, Timer.isLinuxTimer])

/-- A driver's timer expires: its function is called and the timer is freed, and then the loop
reads its field `expires`. -/
theorem run_timer_list_reads_freed_timer :
    ∃ s', runTimerList (fun _ _ => return ()) (mixedTimers [1] 9 1) = .fail .useAfterFree s' ∧
      s'.trace = [.call 5 8, .free 1] ∧ s'.freed = [1] := by
  refine ⟨_, rfl, ?_, ?_⟩
  · rfl
  · rfl

end Ucore.Sync
