import Ucore.Sync.MailboxSpec

/-!
# Time-outs of mailbox calls

A process that goes back to sleep in `send_msg` or `recv_msg` queues its timer again with what
`del_timer` left in the field `expires`. That is the time that remains only for the first timer
of the list. If every such process finds its own timer there, no call sleeps longer than its
time-out.
-/

namespace Ucore.Sync

open Kern Function

variable {Q : Unit → Sched → Prop} {r : MboxResult}

section OneTimer

variable {v v' v'' : Sched} {p q : ℕ} {c : WaitCall} {P : Prop} {w : WaitState}

/-- Every queued timer belongs to the process with its number. -/
structure OwnTimers (v : Sched) : Prop extends TimersInv v where
  own : ∀ t ∈ v.timerList, (v.timer t).proc = some t

theorem OwnTimers.not_waits (h : OwnTimers v) (hp : p ∉ v.timerList) : ¬v.Waits p := by
  rintro ⟨t, ht, hproc⟩
  rw [h.own t ht, Option.some.injEq] at hproc
  exact hp (hproc ▸ ht)

/-- The process is the owner of its timer, and a driver is not. -/
def Sched.OwnTimer (v : Sched) (p : ℕ) : Prop :=
  (v.timer p).proc = some p ∧ (v.timer p).isLinuxTimer = false

theorem Sched.OwnTimer.congr (h : v.OwnTimer p) (howner : (v'.timer p).proc = (v.timer p).proc)
    (hlinux : (v'.timer p).linuxTimer = (v.timer p).linuxTimer) : v'.OwnTimer p := by
  rw [Sched.OwnTimer, Timer.isLinuxTimer, howner, hlinux]
  exact h

/-- What happens to one process and its timer, seen from the others. -/
structure Elsewhere (v v' : Sched) (p : ℕ) : Prop where
  ticks : v'.ticks = v.ticks
  timer : ∀ q, q ≠ p → (v'.timer q).proc = (v.timer q).proc ∧
    (v'.timer q).linuxTimer = (v.timer q).linuxTimer ∧ v'.remaining q = v.remaining q
  proc : ∀ q, q ≠ p → v'.proc q = v.proc q ∨ (v'.proc q).state = .runnable

theorem Elsewhere.refl : Elsewhere v v p := ⟨rfl, fun _ _ => ⟨rfl, rfl, rfl⟩, fun _ _ => .inl rfl⟩

theorem Elsewhere.trans (h : Elsewhere v v' p) (h' : Elsewhere v' v'' p) : Elsewhere v v'' p := by
  refine ⟨h'.ticks.trans h.ticks, fun q hq => ?_, fun q hq => ?_⟩
  · obtain ⟨howner, hlinux, hremaining⟩ := h'.timer q hq
    rw [howner, hlinux, hremaining]
    exact h.timer q hq
  · rcases h'.proc q hq with heq | hrunnable
    · rw [heq]
      exact h.proc q hq
    · exact .inr hrunnable

theorem OnlyWoken.runnable (h : OnlyWoken v v') (q : ℕ) :
    v'.proc q = v.proc q ∨ (v'.proc q).state = .runnable := by
  rcases h.proc q with heq | heq
  · exact .inl heq
  · rw [heq]
    exact .inr Proc.state_woken

theorem OnlyWoken.elsewhere (h : OnlyWoken v v') : Elsewhere v v' p := by
  refine ⟨h.ticks, fun q _ => ?_, fun q _ => h.runnable q⟩
  unfold Sched.remaining Sched.expires
  rw [h.timer, h.list]
  exact ⟨rfl, rfl, rfl⟩

theorem OwnTimers.woken (hown : OwnTimers v) (h : OnlyWoken v v') : OwnTimers v' := by
  refine ⟨hown.toTimersInv.keep ⟨⟨?_, ?_⟩, ?_⟩ h.freed (fun t ht => ?_) fun q _ hwake => ?_, ?_⟩
  · rw [h.list]
    exact hown.nodup
  · rw [h.list, h.freed]
    exact hown.live
  · unfold Sched.expires
    rw [h.list, h.timer]
    exact hown.head
  · rw [h.timer, ← h.list]
    exact ⟨ht, rfl, rfl⟩
  · rcases h.proc q with heq | heq
    · rwa [heq]
    · rw [heq]
      exact hwake.woken
  · rw [h.list, h.timer]
    exact hown.own

theorem elsewhere_sleep : Elsewhere v (v.sleep p w) p :=
  ⟨rfl, fun _ _ => ⟨rfl, rfl, rfl⟩, fun _ hq => .inl (update_of_ne hq _ v.proc)⟩

theorem elsewhere_initTimer {e : ℕ} (hp : p ∉ v.timerList) :
    Elsewhere v (v.initTimer p (some p) e) p := by
  have htimer : ∀ q, q ≠ p → (v.initTimer p (some p) e).timer q = v.timer q :=
    fun q => timer_initTimer_of_ne
  refine ⟨rfl, fun q hq => ?_, fun _ _ => .inl rfl⟩
  rw [htimer q hq]
  refine ⟨rfl, rfl, due_congr fun a ha => ?_⟩
  rw [Sched.expires, htimer a fun heq => hp (heq ▸ ha)]
  rfl

theorem SameTimers.elsewhere (h : SameTimers v v')
    (hremaining : ∀ q, q ≠ p → v'.remaining q = v.remaining q) : Elsewhere v v' p :=
  ⟨h.ticks, fun q hq => ⟨h.owner q, h.linux q, hremaining q hq⟩,
    fun q _ => .inl (congrFun h.proc q)⟩

theorem OwnTimers.initTimer {e : ℕ} (h : OwnTimers v) (hp : p ∉ v.timerList) :
    OwnTimers (v.initTimer p (some p) e) := by
  refine ⟨h.toTimersInv.initTimer hp, fun t ht => ?_⟩
  have hne : t ≠ p := fun heq => hp (heq ▸ ht)
  rw [timer_initTimer_of_ne hne]
  exact h.own t ht

/-- A process goes to sleep with its timer queued for what the field `expires` says. -/
theorem wp_sleepTimer {H : Prop} {E : Fault → Sched → Prop} (h : OwnTimers v) (hp : p ∉ v.timerList)
    (hown : v.OwnTimer p) (hexpires : 0 < v.expires p) (hw : Interruptible w)
    (hQ : ∀ v', OwnTimers v' → Elsewhere v v' p → v'.OwnTimer p → p ∈ v'.timerList →
      v'.remaining p = some (v.expires p) → Q () v') : (addTimer p).wp H E Q (v.sleep p w) := by
  have hwaits : ¬v.Waits p := h.not_waits hp
  have hset : TimersInv (v.sleep p w) := h.toTimersInv.setProc fun hwait => absurd hwait hwaits
  refine wp_armTimer hset hp hexpires hown.2 hown.1 ?_ hwaits
    fun v' pre post hinv hplaced hself => ?_
  · show Wakeable (update v.proc p ⟨.sleeping, w⟩ p)
    rw [update_self]
    exact ⟨by simp, .inr hw⟩
  have hsame := hplaced.same
  refine hQ v' ⟨hinv, fun t ht => ?_⟩ ?_ (hown.congr (hsame.owner p) (hsame.linux p))
    (hplaced.mem.mpr (.inl rfl)) hself
  · rw [hsame.owner]
    rcases hplaced.mem.mp ht with rfl | ht
    · exact hown.1
    · exact h.own t ht
  · exact elsewhere_sleep.trans (hsame.elsewhere fun q => hplaced.remaining hinv.nodup)

/-- `del_timer` leaves the field `expires` of the timer alone. -/
theorem wp_delOwn {H : Prop} {E : Fault → Sched → Prop} (h : OwnTimers v)
    (hQ : ∀ v', OwnTimers v' → Elsewhere v v' p → p ∉ v'.timerList → v'.expires p = v.expires p →
      (v.OwnTimer p → v'.OwnTimer p) → Q () v') : (delTimer p).wp H E Q v := by
  refine wp_delTimer h.toQueued (by simp [h.nofree]) (fun hp => ?_)
    fun v' pre post hplaced hself => ?_
  · exact hQ v h .refl hp rfl fun hown => hown
  have hsame := hplaced.same.symm
  refine hQ v' ⟨h.toTimersInv.remove hplaced, fun t ht => ?_⟩ ?_ ?_ hself
    fun hown => hown.congr (hsame.owner p) (hsame.linux p)
  · rw [hsame.owner]
    exact h.own t (hplaced.mem.mpr (.inr ht))
  · exact hsame.elsewhere fun q hq => (hplaced.remaining h.nodup hq).symm
  · rw [hplaced.erase h.nodup]
    exact h.nodup.not_mem_erase

theorem delTimer_done (h : OwnTimers v) (hcall : delTimer p v = .done () v') :
    OwnTimers v' ∧ Elsewhere v v' p ∧ p ∉ v'.timerList := by
  have hwp : (delTimer p).wp True Any
      (fun _ v' => OwnTimers v' ∧ Elsewhere v v' p ∧ p ∉ v'.timerList) v :=
    wp_delOwn h fun _ hv' hother hmem _ _ => ⟨hv', hother, hmem⟩
  exact hwp.of_done hcall

theorem onlyWoken_killWakeup : (killWakeup p).wp True Any (fun _ => OnlyWoken v) v :=
  wp_killWakeup .refl onlyWoken_wake

/-! ## A call with a time-out -/

/-- The ticks since a call began. -/
def WaitCall.elapsed (c : WaitCall) (v : Sched) : ℕ := v.ticks - c.savedTicks

/-- A process inside a call with its timer, which is queued while the process sleeps. Under the
condition `P` what remains and the ticks since the call began are together the time-out. -/
structure Armed (P : Prop) (v : Sched) (p : ℕ) (c : WaitCall) : Prop where
  saved : c.savedTicks ≤ v.ticks
  own : c.timeout ≠ 0 → v.OwnTimer p
  asleep : c.timeout ≠ 0 → (v.proc p).state = .sleeping → p ∈ v.timerList
  remaining : P → ∀ r, v.remaining p = some r → r + c.elapsed v = c.timeout

theorem Sched.mem_timerList_iff : p ∈ v.timerList ↔ v.remaining p ≠ none := by
  rw [Sched.remaining, Ne, due_eq_none, not_not]

theorem Armed.elsewhere (h : Armed P v q c) (hother : Elsewhere v v' p) (hq : q ≠ p) :
    Armed P v' q c := by
  obtain ⟨howner, hlinux, hremaining⟩ := hother.timer q hq
  refine ⟨?_, fun htimeout => (h.own htimeout).congr howner hlinux, fun htimeout hasleep => ?_,
    fun hP r hr => ?_⟩
  · rw [hother.ticks]
    exact h.saved
  · rw [Sched.mem_timerList_iff, hremaining, ← Sched.mem_timerList_iff]
    rcases hother.proc q hq with heq | hrunnable
    · rw [heq] at hasleep
      exact h.asleep htimeout hasleep
    · cases hrunnable.symm.trans hasleep
  · rw [hremaining] at hr
    rw [WaitCall.elapsed, hother.ticks]
    exact h.remaining hP r hr

/-- A tick is one tick less that remains, and the last one wakes the process up. -/
theorem Armed.tick (h : Armed P v p c) (hv : OwnTimers v)
    (hticked : Ticked { v with ticks := v.ticks + 1 } v') : Armed P v' p c := by
  have hticks : v'.ticks = v.ticks + 1 := hticked.ticks
  have hremaining : v'.remaining p =
    (v.remaining p).bind fun r => if r = 1 then none else some (r - 1) := hticked.remaining p
  have hsaved := h.saved
  refine ⟨by omega, fun htimeout => (h.own htimeout).congr (hticked.owner p) (hticked.linux p),
    fun htimeout hasleep => ?_, fun hP r hr => ?_⟩
  · have hproc : v'.proc p = v.proc p := by
      rcases hticked.proc_eq_or p with heq | hrunnable
      · exact heq
      · cases hrunnable.symm.trans hasleep
    rw [hproc] at hasleep
    refine (hticked.mem p).mpr ⟨h.asleep htimeout hasleep, fun hexpired => ?_⟩
    -- an expired timer wakes its process up
    have howner : p ∈ Sched.owners { v with ticks := v.ticks + 1 }
        (Sched.expired { v with ticks := v.ticks + 1 }) :=
      List.mem_filterMap.mpr ⟨p, hexpired, (h.own htimeout).1⟩
    have hwoken : v'.proc p = (v.proc p).woken := hticked.woken p howner
    rw [← hproc, hwoken, Proc.state_woken] at hasleep
    cases hasleep
  · rw [hremaining, Option.bind_eq_some_iff] at hr
    obtain ⟨r₀, hr₀, hr⟩ := hr
    have hsum := h.remaining hP r₀ hr₀
    have hpos := remaining_pos hv.toTimersOk hr₀
    split at hr
    · cases hr
    · rw [Option.some.injEq] at hr
      rw [WaitCall.elapsed] at hsum ⊢
      omega

/-- The time that the loop finds in the field of a timer that was the first of the list. -/
theorem Armed.expires_left (h : Armed P v p c) (hP : P) (hown : OwnTimers v)
    (hother : Elsewhere v v' p) (hexpires : v'.expires p = v.expires p)
    (hhead : v.timerList.head? = some p) :
    0 < v'.expires p ∧ v'.expires p + c.elapsed v' = c.timeout := by
  obtain ⟨l, hl⟩ := List.head?_eq_some_iff.mp hhead
  rw [WaitCall.elapsed, hother.ticks, hexpires]
  refine ⟨Nat.pos_of_ne_zero (hown.head p hhead), h.remaining hP _ ?_⟩
  rw [Sched.remaining, hl]
  exact due_cons_self

/-- What a part of a call does to the timers. -/
structure After (P : Prop) (v v' : Sched) (p : ℕ) (c : WaitCall) (r : MboxResult) : Prop where
  own : OwnTimers v'
  others : Elsewhere v v' p
  queued : p ∈ v'.timerList ↔ r = .asleep ∧ c.timeout ≠ 0
  armed : r = .asleep → Armed P v' p c

/-- Nothing but wake-ups after the timer was left. -/
theorem After.of_woken (h : OwnTimers v') (hp : p ∉ v'.timerList) (hother : Elsewhere v v' p)
    (hwoken : OnlyWoken v' v'') (hr : r ≠ .asleep) : After P v v'' p c r := by
  refine ⟨h.woken hwoken, hother.trans hwoken.elsewhere, ?_, fun heq => absurd heq hr⟩
  rw [hwoken.list]
  exact iff_of_false hp fun hand => hr hand.1

end OneTimer

variable {s s' : MboxSys} {v : Sched} {p : ℕ} {c : WaitCall} {want : Want} {H P : Prop}
  {E : Fault → MboxSys → Prop}

theorem Side.interruptible (side : Side) : Interruptible side.waitState := by
  cases side <;> decide

section

variable (h : OwnTimers s.sched) (hp : p ∉ s.sched.timerList) (hother : Elsewhere v s.sched p)
  (hsaved : c.savedTicks ≤ v.ticks) (hown : c.timeout ≠ 0 → s.sched.OwnTimer p)
include h hp hother hsaved hown

/-- The process goes to sleep, with its timer if the call has a time-out. A timer that has no time
stops the kernel. -/
theorem wp_mboxAddTimer_after (htimer : P → c.timeout ≠ 0 → 0 < s.sched.expires p ∧
      s.sched.expires p + c.elapsed s.sched = c.timeout)
    (hH : ¬P → H) :
    (mboxAddTimer (c.timer p)).wp H E (fun _ s' => After P v s'.sched p c .asleep)
      (s.wait p want.side) := by
  have hsaved' : c.savedTicks ≤ s.sched.ticks := hother.ticks ▸ hsaved
  rw [WaitCall.timer]
  split
  · rename_i htimeout
    show (inSched (addTimer p)).wp _ _ _ _
    rw [wp_inSched]
    by_cases hexpires : 0 < s.sched.expires p
    · refine wp_sleepTimer h hp (hown htimeout) hexpires want.side.interruptible
        fun v' hv' hother' hown' hmem hself => ?_
      have hticks : v'.ticks = s.sched.ticks := hother'.ticks
      refine ⟨hv', hother.trans hother', iff_of_true hmem ⟨rfl, htimeout⟩, fun _ =>
        ⟨hsaved'.trans hticks.ge, fun _ => hown', fun _ _ => hmem, fun hP r hr => ?_⟩⟩
      have hself' : v'.remaining p = some r := hr
      rw [hself, Option.some.injEq] at hself'
      show r + (v'.ticks - c.savedTicks) = c.timeout
      rw [hticks, ← hself']
      exact (htimer hP htimeout).2
    · have hH := hH fun hP => hexpires (htimer hP htimeout).1
      rw [addTimer, wp_bind]
      refine wp_getTimer (fun hfreed => ?_) ?_
      · have hmem : p ∈ s.sched.freed := hfreed
        rw [h.nofree] at hmem
        exact List.not_mem_nil hmem
      exact wp_assume hH fun hand => absurd hand.1 hexpires
  · rename_i htimeout
    have hset : TimersInv (s.sched.sleep p want.side.waitState) :=
      h.toTimersInv.setProc fun hwait => absurd hwait (h.not_waits hp)
    have hnone : s.sched.remaining p = none := due_eq_none.mpr hp
    exact ⟨⟨hset, h.own⟩, hother.trans elsewhere_sleep, iff_of_false hp fun h => htimeout h.2,
      fun _ => ⟨hsaved', fun h => absurd h htimeout, fun h => absurd h htimeout,
        fun _ r hr => absurd (hnone.symm.trans hr) (by simp)⟩⟩

/-- The loop of a process whose timer is not queued. -/
theorem wp_mboxLoop_after
    (htimer : P → s.mbox.state = .opened → want.Blocked s.mbox → c.timeout ≠ 0 →
      0 < s.sched.expires p ∧ s.sched.expires p + c.elapsed s.sched = c.timeout) :
    (mboxLoop p (c.timer p) want).wp True Any (fun r s' => After P v s'.sched p c r) s := by
  refine wp_mboxLoop (fun hblocked hopened => ?_) fun r s' hr hkept _ =>
    .of_woken h hp hother hkept.sched hr
  exact wp_mboxAddTimer_after h hp hother hsaved hown (fun hP => htimer hP hopened hblocked)
    fun _ => trivial

end

/-- A call queues its timer for the whole time-out. -/
theorem wp_mboxCall_after {timeout : ℕ} (h : OwnTimers s.sched) (hp : p ∉ s.sched.timerList) :
    (mboxCall p want timeout).wp True Any
      (fun r s' => After P s.sched s'.sched p ⟨timeout, s.sched.ticks⟩ r) s := by
  have hgo : ∀ timer : Option ℕ, timer = WaitCall.timer ⟨timeout, s.sched.ticks⟩ p → ∀ v,
      OwnTimers v → Elsewhere s.sched v p → p ∉ v.timerList →
      (timeout ≠ 0 → v.OwnTimer p ∧ v.expires p = timeout) →
      (mboxLoop p timer want).wp True Any
        (fun r s' => After P s.sched s'.sched p ⟨timeout, s.sched.ticks⟩ r)
        ((s.setSched v).setMbox { s.mbox with inuse := s.mbox.inuse + 1 }) := by
    rintro _ rfl v hv hother hmem hown
    refine wp_mboxLoop_after hv hmem hother le_rfl (fun htimeout => (hown htimeout).1)
      fun _ _ _ htimeout => ?_
    have hexpires := (hown htimeout).2
    constructor
    · show 0 < v.expires p
      rw [hexpires]
      exact Nat.pos_of_ne_zero htimeout
    · show v.expires p + (v.ticks - s.sched.ticks) = timeout
      rw [hexpires, hother.ticks, Nat.sub_self, Nat.add_zero]
  rw [mboxCall, wp_bind, mboxTimerInit]
  refine wp_if (fun htimeout => ?_) fun htimeout => ?_
  · refine hgo _ (if_pos htimeout).symm _ (h.initTimer hp) (elsewhere_initTimer hp) hp fun _ => ?_
    have htimer := timer_initTimer_self (s := s.sched) (t := p) (o := some p) (e := timeout)
    exact ⟨⟨congrArg Timer.proc htimer, congrArg Timer.isLinuxTimer htimer⟩,
      congrArg Timer.expires htimer⟩
  · exact hgo _ (if_neg htimeout).symm s.sched h .refl hp fun h => absurd h htimeout

/-- `del_timer` before the loop goes on. -/
theorem wp_mboxDelTimer_after {Q : Unit → MboxSys → Prop} (h : OwnTimers s.sched)
    (hp : p ∈ s.sched.timerList → c.timeout ≠ 0)
    (hQ : ∀ v, OwnTimers v → Elsewhere s.sched v p → p ∉ v.timerList →
      v.expires p = s.sched.expires p → (s.sched.OwnTimer p → v.OwnTimer p) →
      Q () (s.setSched v)) :
    (mboxDelTimer (c.timer p)).wp H E Q s := by
  rw [WaitCall.timer]
  split
  · show (inSched (delTimer p)).wp _ _ _ _
    rw [wp_inSched]
    exact wp_delOwn h hQ
  · rename_i htimeout
    exact hQ s.sched h .refl (fun hmem => htimeout (hp hmem)) rfl fun hown => hown

/-- When a process goes back to sleep with its timer, the timer is the first of the list. -/
def Prompt (s : MboxSys) (p : ℕ) (want : Want) (c : WaitCall) : Prop :=
  c.timeout ≠ 0 → s.mbox.state = .opened → s.wakeupFlags p = want.side.waitState →
    want.Blocked s.mbox → s.sched.timerList.head? = some p

theorem Want.blocked_same {m m' : Mbox} (h : SameBox m m') : want.Blocked m' ↔ want.Blocked m := by
  cases want with
  | send msg =>
    show m'.maxSlots ≤ m'.slots ↔ m.maxSlots ≤ m.slots
    rw [h.maxSlots, h.slots]
  | recv maxBytes =>
    show m'.slots = 0 ↔ m.slots = 0
    rw [h.slots]

theorem wp_mboxResume_after (h : OwnTimers s.sched) (hp : p ∈ s.sched.timerList → c.timeout ≠ 0)
    (harmed : Armed P s.sched p c) (hprompt : P → Prompt s p want c) :
    (mboxResume p want (c.timer p)).wp True Any (fun r s' => After P s.sched s'.sched p c r) s := by
  rw [wp_mboxResume]
  refine wp_mboxDelTimer_after h hp fun v hv hother hmem hexpires hown =>
    ⟨fun _ => ?_, fun hgo => ?_⟩
  · exact wp_mboxOut fun s' hkept _ => .of_woken hv hmem hother hkept.sched (by simp)
  · have hbox : SameBox s.mbox ((s.setSched v).unwait p want.side).mbox := sameBox_setQueue
    rw [not_or, not_not, not_not] at hgo
    refine wp_mboxLoop_after hv hmem hother harmed.saved
      (fun htimeout => hown (harmed.own htimeout)) fun hP hopened hblocked htimeout => ?_
    have hhead := hprompt hP htimeout (hbox.state.symm.trans hopened) hgo.2
      ((Want.blocked_same hbox).mp hblocked)
    exact harmed.expires_left hP h hother hexpires hhead

/-- A process that goes back to sleep with its timer first in the list has its timer queued again
for what remains of its time-out. -/
theorem mboxResume_sleeps (h : OwnTimers s.sched) (htimeout : c.timeout ≠ 0)
    (harmed : Armed True s.sched p c) (hopened : s.mbox.state = .opened)
    (hflags : s.wakeupFlags p = want.side.waitState) (hblocked : want.Blocked s.mbox)
    (hhead : s.sched.timerList.head? = some p) :
    ∃ s', mboxResume p want (c.timer p) s = .done .asleep s' ∧
      ∃ r, 0 < r ∧ s'.sched.remaining p = some r ∧ r + c.elapsed s.sched = c.timeout := by
  have hwp : (mboxResume p want (c.timer p)).wp False Never
      (fun r s' => r = .asleep ∧ After True s.sched s'.sched p c .asleep) s := by
    rw [wp_mboxResume]
    refine wp_mboxDelTimer_after h (fun _ => htimeout) fun v hv hother hmem hexpires hown => ?_
    have hbox : SameBox s.mbox ((s.setSched v).unwait p want.side).mbox := sameBox_setQueue
    have hopened' := hbox.state.trans hopened
    refine ⟨fun hnot => absurd hnot (not_or.mpr ⟨not_not.mpr hopened', not_not.mpr hflags⟩),
      fun _ => ?_⟩
    refine wp_mboxLoop_blocked ((Want.blocked_same hbox).mpr hblocked) (fun _ => hopened')
      fun _ => ?_
    refine (wp_mboxAddTimer_after hv hmem hother harmed.saved
      (fun htimeout => hown (harmed.own htimeout)) (fun hP _ => ?_) fun hnot => hnot trivial).mono
      (fun _ _ hE => hE) fun _ s' hafter => ⟨rfl, hafter⟩
    exact harmed.expires_left hP h hother hexpires hhead
  obtain ⟨_, s', hcall, rfl, hafter⟩ := hwp.returns_done
  refine ⟨s', hcall, ?_⟩
  have hmem := hafter.queued.mpr ⟨rfl, htimeout⟩
  obtain ⟨r, hr⟩ := Option.ne_none_iff_exists'.mp (Sched.mem_timerList_iff.mp hmem)
  refine ⟨r, remaining_pos hafter.own.toTimersOk hr, hr, ?_⟩
  have hsum := (hafter.armed rfl).remaining trivial r hr
  rw [WaitCall.elapsed, hafter.others.ticks] at hsum
  exact hsum

/-! ## Runs -/

/-- The places at which the timer of a process may be queued. -/
def Phase.Timed : Phase → Prop
  | waiting _ c => c.timeout ≠ 0
  | sleeping => True
  | _ => False

namespace Mailbox

variable {s s' : Mailbox} {driver : ℕ → ℕ → SchedM Unit} {sys : MboxSys} {v : Sched}

/-- What holds between the steps. The times for which the timers are queued are right under the
condition `P`. -/
structure TimeInv (P : Prop) (s : Mailbox) : Prop where
  own : OwnTimers s.sys.sched
  armed : ∀ p want c, s.phase p = .waiting want c → Armed P s.sys.sched p c
  timed : ∀ p ∈ s.sys.sched.timerList, (s.phase p).Timed

section

variable (h : TimeInv P s)
include h

/-- A step of one process, which is not inside a call after it or has just slept in it. -/
theorem TimeInv.move {ph : Phase} (hown : OwnTimers sys.sched)
    (hother : Elsewhere s.sys.sched sys.sched p)
    (hin : ∀ want c, ph = .waiting want c → Armed P sys.sched p c)
    (htimed : p ∈ sys.sched.timerList → ph.Timed) : TimeInv P (s.move p sys ph) := by
  have hself : (s.move p sys ph).phase p = ph := update_self p _ s.phase
  have hne : ∀ q, q ≠ p → (s.move p sys ph).phase q = s.phase q :=
    fun q hq => update_of_ne hq _ s.phase
  refine ⟨hown, fun q want c hq => ?_, fun q hq => ?_⟩
  · rcases eq_or_ne q p with rfl | hqp
    · exact hin want c (hself.symm.trans hq)
    · exact (h.armed q want c ((hne q hqp).symm.trans hq)).elsewhere hother hqp
  · rcases eq_or_ne q p with rfl | hqp
    · rw [hself]
      exact htimed hq
    · rw [hne q hqp]
      refine h.timed q ?_
      have hmem : sys.sched.remaining q ≠ none := Sched.mem_timerList_iff.mp hq
      rw [(hother.timer q hqp).2.2] at hmem
      exact Sched.mem_timerList_iff.mpr hmem

/-- A step of one process inside a call. -/
theorem TimeInv.after {want : Want} (hafter : After P s.sys.sched sys.sched p c r) :
    TimeInv P (s.move p sys (phaseAfter want c r)) := by
  refine h.move hafter.own hafter.others (fun want' c' heq => ?_) fun hmem => ?_
  · cases r with
    | asleep =>
      injection heq with _ hc
      subst hc
      exact hafter.armed rfl
    | sent | got | tooBig | interrupted => cases heq
  · obtain ⟨rfl, htimeout⟩ := hafter.queued.mp hmem
    exact htimeout

/-- A step that only wakes processes up. -/
theorem TimeInv.woken (hwoken : OnlyWoken s.sys.sched sys.sched) :
    TimeInv P { s with sys := sys } :=
  ⟨h.own.woken hwoken, fun p want c hp => (h.armed p want c hp).elsewhere hwoken.elsewhere
    (Nat.succ_ne_self p).symm, fun p hp => h.timed p (hwoken.list ▸ hp)⟩

theorem TimeInv.timed_of {ph : Phase} (hp : s.phase p = ph) (hmem : p ∈ s.sys.sched.timerList) :
    ph.Timed :=
  hp ▸ h.timed p hmem

theorem TimeInv.tick (hv : TimersInv v)
    (hticked : Ticked { s.sys.sched with ticks := s.sys.sched.ticks + 1 } v) :
    TimeInv P { s with sys := s.sys.setSched v } := by
  have hmem : ∀ t ∈ v.timerList, t ∈ s.sys.sched.timerList := fun t ht => ((hticked.mem t).mp ht).1
  exact ⟨⟨hv, fun t ht => (hticked.owner t).trans (h.own.own t (hmem t ht))⟩,
    fun p want c hp => (h.armed p want c hp).tick h.own hticked, fun p hp => h.timed p (hmem p hp)⟩

end

/-- Every process that goes back to sleep with a time-out finds its timer first in the list. -/
def PromptResume (s : Mailbox) : MboxCall → Prop
  | .resume p _ => ∀ want c, s.phase p = .waiting want c → Prompt s.sys p want c
  | _ => True

/-- A step of the system in which no timer is queued again with another timer's time. -/
def PromptStep (driver : ℕ → ℕ → SchedM Unit) (s : Mailbox) (c : MboxCall) (s' : Mailbox) : Prop :=
  Step driver s c s' ∧ s.PromptResume c

theorem wp_doSleep {time : ℕ} (h : OwnTimers v) (hp : p ∉ v.timerList) (htime : 1 ≤ time) :
    (doSleep p time).wp True Any (fun _ v' => OwnTimers v' ∧ Elsewhere v v' p) v := by
  have htimer := timer_initTimer_self (s := v) (t := p) (o := some p) (e := time)
  refine wp_sleepTimer (h.initTimer hp) hp ⟨?_, ?_⟩ ?_ (by decide) fun v' hv' hother _ _ _ =>
    ⟨hv', (elsewhere_initTimer hp).trans hother⟩
  · rw [htimer]
  · rw [htimer]
    rfl
  · rw [Sched.expires, htimer]
    exact htime

theorem Step.timeInv {call : MboxCall} (hstep : Step driver s call s') (h : TimeInv P s)
    (hprompt : P → s.PromptResume call) : TimeInv P s' := by
  cases call with
  | call p want timeout result =>
    obtain ⟨-, hidle, -, sys, hcall, rfl⟩ := hstep
    exact h.after ((wp_mboxCall_after h.own (h.timed_of hidle)).of_done hcall)
  | resume p result =>
    obtain ⟨-, want, c, hphase, sys, hcall, rfl⟩ := hstep
    exact h.after ((wp_mboxResume_after h.own (h.timed_of hphase) (h.armed p want c hphase)
      fun hP => hprompt hP want c hphase).of_done hcall)
  | finish p ok =>
    obtain ⟨-, msg, hphase, sys, hcall, rfl⟩ := hstep
    have hwp : (if ok then pure () else putBack msg).wp True Any
        (fun _ sys => OnlyWoken s.sys.sched sys.sched) s.sys := by
      cases ok with
      | true => exact .refl
      | false => exact wp_putBack fun s' hwoken _ _ => hwoken
    have hwoken := hwp.of_done hcall
    refine h.move (h.own.woken hwoken) hwoken.elsewhere (nofun) fun hmem => ?_
    have hnever := h.timed_of hphase (hwoken.list ▸ hmem)
    exact hnever
  | free =>
    obtain ⟨-, sys, hcall, rfl⟩ := hstep
    have hwp : (ipcMboxFree).wp True Any (fun _ sys => OnlyWoken s.sys.sched sys.sched) s.sys :=
      wp_ipcMboxFree fun s' hkept => hkept.sched
    exact h.woken (hwp.of_done hcall)
  | init maxSlots =>
    obtain ⟨-, -, -, sys, hcall, rfl⟩ := hstep
    cases hcall
    exact h.woken .refl
  | sleep p time =>
    obtain ⟨-, hidle, htime, sys, hcall, rfl⟩ := hstep
    obtain ⟨v, hdone, rfl⟩ := of_zoom_done hcall
    obtain ⟨hown, hother⟩ := (wp_doSleep h.own (h.timed_of hidle) htime).of_call hdone
    exact h.move hown hother (nofun) fun _ => trivial
  | wake p =>
    obtain ⟨-, -, sys, hcall, rfl⟩ := hstep
    obtain ⟨v, hdone, rfl⟩ := of_zoom_done hcall
    obtain ⟨hown, hother, hmem⟩ := delTimer_done h.own hdone
    exact h.move hown hother (nofun) fun h => absurd h hmem
  | tick =>
    obtain ⟨sys, hcall, rfl⟩ := hstep
    obtain ⟨v, hdone, rfl⟩ := of_zoom_done hcall
    obtain ⟨hv, hticked⟩ := clockTick_done h.own.toTimersInv hdone
    exact h.tick hv hticked
  | kill p =>
    obtain ⟨sys, hcall, rfl⟩ := hstep
    obtain ⟨v, hdone, rfl⟩ := of_zoom_done hcall
    exact h.woken (onlyWoken_killWakeup.of_call hdone)

/-- No process is inside a call and no timer is queued. -/
structure Quiet (s : Mailbox) : Prop where
  phase : ∀ p, s.phase p = .idle
  list : s.sys.sched.timerList = []
  freed : s.sys.sched.freed = []

theorem Quiet.timeInv (h : Quiet s) : TimeInv P s := by
  have hnot : ∀ t, t ∉ s.sys.sched.timerList := fun t => by
    rw [h.list]
    exact List.not_mem_nil
  have hout : ∀ p want c, s.phase p ≠ .waiting want c := fun p want c hp =>
    absurd ((h.phase p).symm.trans hp) (by simp)
  exact ⟨⟨.boot h.list h.freed, fun t ht => absurd ht (hnot t)⟩,
    fun p want c hp => absurd hp (hout p want c), fun t ht => absurd ht (hnot t)⟩

/-- In a run in which every process that goes back to sleep with a time-out finds its timer first
in the list: a process that sleeps in a call with a time-out has less than the time-out behind
it, and its timer is queued for the rest; and one that goes back to sleep has its timer queued
again for the rest, which is positive. -/
theorem mailbox_timeouts {s₀ : Mailbox} {cs : List MboxCall} {p : ℕ} {want : Want} {c : WaitCall}
    (hquiet : Quiet s₀) (hrun : Run (PromptStep driver) s₀ cs s)
    (hphase : s.phase p = .waiting want c) (htimeout : c.timeout ≠ 0) :
    ((s.proc p).state = .sleeping → ∃ r, 0 < r ∧ s.sys.sched.remaining p = some r ∧
      r + c.elapsed s.sys.sched = c.timeout) ∧
    (s.sys.mbox.state = .opened → s.sys.wakeupFlags p = want.side.waitState →
      want.Blocked s.sys.mbox → Prompt s.sys p want c →
      0 < s.sys.sched.expires p ∧ ∃ sys, mboxResume p want (c.timer p) s.sys = .done .asleep sys ∧
        ∃ r, 0 < r ∧ sys.sched.remaining p = some r ∧ r + c.elapsed s.sys.sched = c.timeout) := by
  have h : TimeInv True s := hrun.invariant
    (fun _ _ _ h hstep => hstep.1.timeInv h fun _ => hstep.2) hquiet.timeInv
  have harmed := h.armed p want c hphase
  refine ⟨fun hasleep => ?_, fun hopened hflags hblocked hprompt => ?_⟩
  · obtain ⟨r, hr⟩ := Option.ne_none_iff_exists'.mp
      (Sched.mem_timerList_iff.mp (harmed.asleep htimeout hasleep))
    exact ⟨r, remaining_pos h.own.toTimersOk hr, hr, harmed.remaining trivial r hr⟩
  · have hhead := hprompt htimeout hopened hflags hblocked
    exact ⟨Nat.pos_of_ne_zero (h.own.head p hhead),
      mboxResume_sleeps h.own htimeout harmed hopened hflags hblocked hhead⟩

theorem quiet_idleMailbox : Quiet idleMailbox := ⟨fun _ => rfl, rfl, rfl⟩

/-- A sender waits at a full mailbox and is woken up, but another takes the slot; the sender goes
back to sleep. -/
theorem mailbox_timeouts_retry : ∃ s,
    Run (PromptStep fun _ _ => return ()) idleMailbox [.init 1, .call 0 (.send ⟨0, 4⟩) 0 .sent,
      .call 1 (.send ⟨1, 4⟩) 5 .asleep, .tick, .call 2 (.recv 9) 0 (.got ⟨0, 4⟩), .finish 2 true,
      .call 0 (.send ⟨0, 4⟩) 0 .sent] s ∧
    ∃ sys, mboxResume 1 (.send ⟨1, 4⟩) (some 1) s.sys = .done .asleep sys ∧
      ∃ r, 0 < r ∧ sys.sched.remaining 1 = some r ∧
        r + WaitCall.elapsed ⟨5, 0⟩ s.sys.sched = 5 := by
  refine Run.exists_imp (P := fun s => s.phase 1 = .waiting (.send ⟨1, 4⟩) ⟨5, 0⟩ ∧
      s.sys.mbox.state = .opened ∧ s.sys.wakeupFlags 1 = wtMboxSend ∧
      Want.Blocked s.sys.mbox (.send ⟨1, 4⟩) ∧ s.sys.sched.timerList.head? = some 1) ?_ ?_
  · refine ⟨_, .cons ⟨⟨rfl, by decide, by decide, _, rfl, rfl⟩, trivial⟩
      (.cons ⟨⟨rfl, rfl, rfl, _, rfl, rfl⟩, trivial⟩
      (.cons ⟨⟨rfl, rfl, rfl, _, rfl, rfl⟩, trivial⟩
      (.cons ⟨⟨_, rfl, rfl⟩, trivial⟩
      (.cons ⟨⟨rfl, rfl, rfl, _, rfl, rfl⟩, trivial⟩
      (.cons ⟨⟨rfl, _, rfl, _, rfl, rfl⟩, trivial⟩
      (.cons ⟨⟨rfl, rfl, rfl, _, rfl, rfl⟩, trivial⟩ (.nil _))))))), ?_, ?_, ?_, ?_, ?_⟩
    · rfl
    · rfl
    · rfl
    · exact le_refl 1
    · rfl
  · rintro s hrun ⟨hphase, hopened, hflags, hblocked, hhead⟩
    exact ((mailbox_timeouts quiet_idleMailbox hrun hphase (by decide)).2 hopened hflags
      hblocked fun _ _ _ _ => hhead).2

/-- Two senders wait with the same time-out, so that the second timer's field `expires` is zero.
Both are woken up and the slot is taken again; the second one runs first, and `add_timer` stops
the kernel. -/
theorem mailbox_timer_queued_again : ∃ s,
    Run (Step fun _ _ => return ()) idleMailbox [.init 1, .call 0 (.send ⟨0, 4⟩) 0 .sent,
      .call 1 (.send ⟨1, 4⟩) 5 .asleep, .call 2 (.send ⟨2, 4⟩) 5 .asleep,
      .call 3 (.recv 9) 0 (.got ⟨0, 4⟩), .finish 3 true, .call 0 (.send ⟨0, 4⟩) 0 .sent,
      .call 3 (.recv 9) 0 (.got ⟨0, 4⟩), .finish 3 true, .call 0 (.send ⟨0, 4⟩) 0 .sent] s ∧
    s.phase 2 = .waiting (.send ⟨2, 4⟩) ⟨5, 0⟩ ∧ (s.proc 2).state = .runnable ∧
    s.sys.sched.remaining 2 = some 5 ∧
    mboxResume 2 (.send ⟨2, 4⟩) (WaitCall.timer ⟨5, 0⟩ 2) s.sys = .halt .assertion := by
  refine ⟨_, .cons ⟨rfl, by decide, by decide, _, rfl, rfl⟩
    (.cons ⟨rfl, rfl, rfl, _, rfl, rfl⟩ (.cons ⟨rfl, rfl, rfl, _, rfl, rfl⟩
    (.cons ⟨rfl, rfl, rfl, _, rfl, rfl⟩ (.cons ⟨rfl, rfl, rfl, _, rfl, rfl⟩
    (.cons ⟨rfl, _, rfl, _, rfl, rfl⟩ (.cons ⟨rfl, rfl, rfl, _, rfl, rfl⟩
    (.cons ⟨rfl, rfl, rfl, _, rfl, rfl⟩ (.cons ⟨rfl, _, rfl, _, rfl, rfl⟩
    (.cons ⟨rfl, rfl, rfl, _, rfl, rfl⟩ (.nil _)))))))))), ?_, ?_, ?_, ?_⟩
  · rfl
  · rfl
  · rfl
  · rfl

end Mailbox

end Ucore.Sync
