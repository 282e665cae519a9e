import Ucore.Sync.Mailbox

/-!
# What the functions on a mailbox do

Wake-ups leave the messages alone, and the functions that move messages do nothing to the
scheduler but wake up. The loops of `send_msg` and `recv_msg` either end so or go to sleep.
-/

namespace Ucore.Sync

open Kern List

section Woken

variable {v v' v'' : Sched} {p : ℕ}

/-- Nothing happened but wake-ups. -/
structure OnlyWoken (v v' : Sched) : Prop where
  timer : v'.timer = v.timer
  list : v'.timerList = v.timerList
  freed : v'.freed = v.freed
  ticks : v'.ticks = v.ticks
  proc : ∀ q, v'.proc q = v.proc q ∨ v'.proc q = (v.proc q).woken

theorem OnlyWoken.refl : OnlyWoken v v := ⟨rfl, rfl, rfl, rfl, fun _ => .inl rfl⟩

theorem OnlyWoken.trans (h : OnlyWoken v v') (h' : OnlyWoken v' v'') : OnlyWoken v v'' := by
  refine ⟨h'.timer.trans h.timer, h'.list.trans h.list, h'.freed.trans h.freed,
    h'.ticks.trans h.ticks, fun q => ?_⟩
  rcases h'.proc q with heq' | heq' <;> rcases h.proc q with heq | heq <;> rw [heq', heq]
  · exact .inl rfl
  · exact .inr rfl
  · exact .inr rfl
  · exact .inr woken_woken

theorem onlyWoken_wake {e : Event} : OnlyWoken v ((v.wake p).record e) := by
  rw [wake_eq]
  refine ⟨rfl, rfl, rfl, rfl, fun q => ?_⟩
  rcases eq_or_ne q p with rfl | hq
  · exact .inr (Function.update_self q _ v.proc)
  · exact .inl (Function.update_of_ne hq _ v.proc)

end Woken

variable {s s' s'' : MboxSys} {m m' m'' : Mbox} {p : ℕ} {side : Side} {α : Type} {l : List ℕ}
  {msg : Msg} {room : Prop}

/-! ## Wake-ups -/

/-- The queues of processes may differ. -/
structure SameBox (m m' : Mbox) : Prop where
  inuse : m'.inuse = m.inuse
  state : m'.state = m.state
  maxSlots : m'.maxSlots = m.maxSlots
  slots : m'.slots = m.slots
  msgs : m'.msgs = m.msgs

theorem SameBox.refl : SameBox m m := ⟨rfl, rfl, rfl, rfl, rfl⟩

theorem SameBox.trans (h : SameBox m m') (h' : SameBox m' m'') : SameBox m m'' :=
  ⟨h'.inuse.trans h.inuse, h'.state.trans h.state, h'.maxSlots.trans h.maxSlots,
    h'.slots.trans h.slots, h'.msgs.trans h.msgs⟩

theorem sameBox_setQueue : SameBox m (m.setQueue l side) := by
  cases side <;> exact ⟨rfl, rfl, rfl, rfl, rfl⟩

/-- Processes were taken out of the queues and woken up. -/
structure Woke (s s' : MboxSys) : Prop where
  box : SameBox s.mbox s'.mbox
  sched : OnlyWoken s.sched s'.sched

theorem Woke.refl : Woke s s := ⟨.refl, .refl⟩

theorem Woke.trans (h : Woke s s') (h' : Woke s' s'') : Woke s s'' :=
  ⟨h.box.trans h'.box, h.sched.trans h'.sched⟩

theorem wp_inSched {H : Prop} {E : Fault → MboxSys → Prop} {m : SchedM α}
    {Q : α → MboxSys → Prop} : (inSched m).wp H E Q s ↔
      m.wp H (fun e v => E e (s.setSched v)) (fun a v => Q a (s.setSched v)) s.sched :=
  wp_zoom

/-- Code of the scheduler does not see the mailbox. -/
theorem wp_inSched_mbox {m : SchedM α} {Q : α → MboxSys → Prop} (hQ : ∀ a v, Q a (s.setSched v)) :
    (inSched m).wp True Any Q s := by
  rw [wp_inSched]
  exact wp_any hQ

section Wakeups

variable {flags : WaitState} {Q : Unit → MboxSys → Prop}

theorem wp_mboxWakeupWait (hQ : ∀ s', Woke s s' → Q () s') :
    (mboxWakeupWait p side flags).wp True Any Q s := by
  rw [mboxWakeupWait, wp_put, wp_inSched]
  exact wp_assume trivial fun _ => hQ _ ⟨sameBox_setQueue, onlyWoken_wake⟩

theorem wp_wakeupFirst (hQ : ∀ s', Woke s s' → Q () s') :
    (wakeupFirst side flags).wp True Any Q s := by
  rw [wakeupFirst, wp_get]
  cases s.mbox.queue side with
  | nil => exact hQ s .refl
  | cons q l => exact wp_mboxWakeupWait hQ

theorem wp_wakeupQueue (hQ : ∀ s', Woke s s' → Q () s') :
    (wakeupQueue side flags l).wp True Any Q s := by
  induction l generalizing s with
  | nil => exact hQ s .refl
  | cons q l ih =>
    rw [wakeupQueue, wp_bind]
    exact wp_mboxWakeupWait fun s₁ h₁ => ih fun s₂ h₂ => hQ s₂ (h₁.trans h₂)

end Wakeups

/-! ## Messages -/

/-- What the slots of a mailbox mean in each of its states; `room` says that no message was put
back into a full one. -/
structure SlotsOk (room : Prop) (m : Mbox) : Prop where
  opened : m.state = .opened → m.slots = m.msgs.length ∧ (room → m.slots ≤ m.maxSlots)
  closed : m.state = .closed → m.slots = 0 ∧ m.msgs = []

theorem SlotsOk.same (h : SlotsOk room m) (hsame : SameBox m m') : SlotsOk room m' := by
  refine ⟨fun hstate => ?_, fun hstate => ?_⟩
  · rw [hsame.slots, hsame.msgs, hsame.maxSlots]
    exact h.opened (hsame.state.symm.trans hstate)
  · rw [hsame.slots, hsame.msgs]
    exact h.closed (hsame.state.symm.trans hstate)

/-- An open mailbox has its slots in use counted by a list of messages. -/
theorem SlotsOk.of_opened (hopened : m.state = .opened) (hslots : m.slots = m.msgs.length)
    (hmax : room → m.slots ≤ m.maxSlots) : SlotsOk room m :=
  ⟨fun _ => ⟨hslots, hmax⟩, fun hstate => absurd (hopened.symm.trans hstate) (by simp)⟩

/-- A part of a call that does not sleep: it keeps the capacity and only wakes up. -/
structure Kept (s s' : MboxSys) : Prop where
  slots : ∀ {room}, SlotsOk room s.mbox → SlotsOk room s'.mbox
  sched : OnlyWoken s.sched s'.sched

theorem Kept.trans (h : Kept s s') (h' : Kept s' s'') : Kept s s'' :=
  ⟨fun hslots => h'.slots (h.slots hslots), h.sched.trans h'.sched⟩

theorem Woke.kept (h : Woke s s') : Kept s s' := ⟨fun hslots => hslots.same h.box, h.sched⟩

theorem kept_setInuse {n : ℕ} : Kept s (s.setMbox { s.mbox with inuse := n }) :=
  ⟨fun h => { h with }, .refl⟩

theorem wp_mboxFree {Q : Unit → MboxSys → Prop}
    (hQ : ∀ m, (∀ {room}, SlotsOk room m) → m.msgs = s.mbox.msgs → Q () (s.setMbox m)) :
    (mboxFree).wp True Any Q s := by
  refine wp_assume trivial fun _ => ?_
  refine wp_assume trivial fun hmsgs => ?_
  refine wp_assume trivial fun _ => ?_
  refine wp_assume trivial fun _ => hQ _ ⟨fun h => ?_, fun _ => ⟨rfl, hmsgs⟩⟩ rfl
  cases h

/-- One message more, whether or not there is room for it. -/
theorem wp_addMsg {append : Bool} {Q : Unit → MboxSys → Prop}
    (hQ : ∀ s', OnlyWoken s.sched s'.sched → (∀ room, (room → s.mbox.slots < s.mbox.maxSlots) →
      SlotsOk room s.mbox → SlotsOk room s'.mbox) →
      s'.mbox.msgs = (if append then s.mbox.msgs ++ [msg] else msg :: s.mbox.msgs) → Q () s') :
    (addMsg msg append).wp True Any Q s := by
  refine wp_assume trivial fun hopened => ?_
  refine wp_wakeupFirst fun s' hwoke => hQ s' hwoke.sched (fun _ hroom h => ?_) hwoke.box.msgs
  have hslots := (h.opened hopened).1
  refine SlotsOk.same ?_ hwoke.box
  refine .of_opened hopened ?_ hroom
  cases append with
  | true =>
    show s.mbox.slots + 1 = (s.mbox.msgs ++ [msg]).length
    rw [length_append, length_singleton, hslots]
  | false =>
    show s.mbox.slots + 1 = (msg :: s.mbox.msgs).length
    rw [length_cons, hslots]

theorem wp_mboxOut {failed : Bool} {Q : Unit → MboxSys → Prop}
    (hQ : ∀ s', Kept s s' → s'.mbox.msgs = s.mbox.msgs → Q () s') :
    (mboxOut failed).wp True Any Q s := by
  rw [mboxOut, wp_put, wp_get]
  refine wp_if (fun _ => ?_) fun _ => hQ _ kept_setInuse rfl
  refine wp_assume trivial fun _ => ?_
  exact wp_if (fun _ => wp_mboxFree fun m hm hmsgs => hQ _ ⟨fun _ => hm, .refl⟩ hmsgs)
    fun _ => hQ _ kept_setInuse rfl

theorem wp_putBack {Q : Unit → MboxSys → Prop}
    (hQ : ∀ s', OnlyWoken s.sched s'.sched → (∀ room, (room → s.mbox.state = .opened →
      s.mbox.slots < s.mbox.maxSlots) → SlotsOk room s.mbox → SlotsOk room s'.mbox) →
      s'.mbox.msgs = (if s.mbox.state = .opened then msg :: s.mbox.msgs else s.mbox.msgs) →
      Q () s') : (putBack msg).wp True Any Q s := by
  rw [putBack, wp_get]
  refine wp_if (fun hopened => ?_) fun hnot => hQ s .refl (fun _ _ h => h) (if_neg hnot).symm
  exact wp_addMsg fun s' hsched hkept hmsgs =>
    hQ s' hsched (fun _ hroom => hkept _ fun h => hroom h hopened)
      (hmsgs.trans (if_pos hopened).symm)

theorem wp_ipcMboxFree {Q : Unit → MboxSys → Prop} (hQ : ∀ s', Kept s s' → Q () s') :
    (ipcMboxFree).wp True Any Q s := by
  rw [ipcMboxFree, wp_put, wp_get, wp_bind]
  have hclosing : Kept s (s.setMbox { s.mbox with state := .closing, msgs := [] }) :=
    ⟨fun _ => ⟨nofun, nofun⟩, .refl⟩
  refine wp_wakeupQueue fun s₁ h₁ => ?_
  rw [wp_get, wp_bind]
  refine wp_wakeupQueue fun s₂ h₂ => ?_
  have hkept := hclosing.trans (h₁.trans h₂).kept
  rw [wp_get]
  exact wp_if (fun _ => wp_mboxFree fun m hm _ => hQ _ ⟨fun _ => hm, hkept.sched⟩)
    fun _ => hQ _ hkept

/-! ## The loops -/

/-- The test of the loops in `send_msg` and `recv_msg`. -/
def Want.Blocked (m : Mbox) : Want → Prop
  | send _ => m.maxSlots ≤ m.slots
  | recv _ => m.slots = 0

/-- The state after `wait_current_set`. -/
def MboxSys.wait (s : MboxSys) (p : ℕ) (side : Side) : MboxSys :=
  ((s.setFlags p wtInterrupted).setSched (s.sched.sleep p side.waitState)).setQueue side
    (s.mbox.queue side ++ [p])

/-- The state after `wait_current_del`. -/
def MboxSys.unwait (s : MboxSys) (p : ℕ) (side : Side) : MboxSys :=
  s.setQueue side ((s.mbox.queue side).erase p)

variable {timer : Option ℕ} {want : Want} {H : Prop} {E : Fault → MboxSys → Prop}
  {Q : MboxResult → MboxSys → Prop}

theorem wp_mboxSleep {Q : Unit → MboxSys → Prop} (hopened : ¬H → s.mbox.state = .opened)
    (hQ : s.mbox.state = .opened → (mboxAddTimer timer).wp H E Q (s.wait p side)) :
    (mboxSleep p side timer).wp H E Q s := by
  rw [mboxSleep, wp_get, wp_bind, wp_assert]
  exact ⟨hQ, fun hstate => not_not.mp fun hH => hstate (hopened hH)⟩

/-- A blocked process goes to sleep. -/
theorem wp_mboxLoop_blocked (hblocked : want.Blocked s.mbox) (hopened : ¬H → s.mbox.state = .opened)
    (hQ : s.mbox.state = .opened →
      (mboxAddTimer timer).wp H E (fun _ => Q .asleep) (s.wait p want.side)) :
    (mboxLoop p timer want).wp H E Q s := by
  cases want with
  | send msg =>
    show (sendLoop p msg timer).wp H E Q s
    rw [sendLoop, wp_get]
    refine wp_if (fun _ => ?_) (absurd hblocked)
    exact wp_seq (wp_mboxSleep hopened hQ)
  | recv maxBytes =>
    show (recvLoop p maxBytes timer).wp H E Q s
    rw [recvLoop, wp_get]
    refine wp_if (fun _ => ?_) (absurd hblocked)
    exact wp_seq (wp_mboxSleep hopened hQ)

/-- What a part of a call does to the queue of messages. -/
def Want.Moves (before after : List Msg) : Want → MboxResult → Prop
  | send msg, .sent => after = before ++ [msg]
  | send _, .asleep => after = before
  | send _, .interrupted => after = before
  | recv _, .got msg => before = msg :: after
  | recv _, .asleep => after = before
  | recv _, .tooBig => after = before
  | recv _, .interrupted => after = before
  | _, _ => False

/-- A receiver takes the first message, or leaves one that is too big. -/
theorem wp_recvPick {maxBytes : ℕ} (hQ : ∀ r s', r ≠ .asleep → Kept s s' →
      (Want.recv maxBytes).Moves s.mbox.msgs s'.mbox.msgs r → Q r s') :
    (recvPick maxBytes).wp True Any Q s := by
  rw [recvPick, wp_bind, pickMsg, wp_get]
  refine wp_assume trivial fun hopened => ?_
  cases hmsgs : s.mbox.msgs with
  | nil => trivial
  | cons msg rest =>
    refine wp_if (fun _ => ?_) fun _ => ?_
    · show (wakeupFirst .recv wtMboxRecv >>= _).wp _ _ Q s
      refine wp_seq (wp_wakeupFirst fun s₁ hwoke => ?_)
      exact wp_seq (wp_mboxOut fun s' hkept hs' => hQ _ s' (by simp) (hwoke.kept.trans hkept)
        (hs'.trans hwoke.box.msgs))
    · rw [wp_put, wp_bind]
      refine wp_wakeupFirst fun s₁ hwoke => ?_
      have hpicked : Kept s s₁ := by
        refine ⟨fun h => ?_, hwoke.sched⟩
        obtain ⟨hslots, hmax⟩ := h.opened hopened.1
        rw [hmsgs, length_cons] at hslots
        refine SlotsOk.same ?_ hwoke.box
        refine .of_opened hopened.1 ?_ ?_
        · show s.mbox.slots - 1 = rest.length
          omega
        · exact fun hroom => (Nat.sub_le ..).trans (hmax hroom)
      show (mboxOut false >>= _).wp _ _ Q s₁
      refine wp_seq (wp_mboxOut fun s' hkept hs' => hQ _ s' (by simp) (hpicked.trans hkept) ?_)
      rw [hs', hwoke.box.msgs, hmsgs]
      rfl

/-- The loop ends, or the process goes to sleep. -/
theorem wp_mboxLoop
    (hasleep : want.Blocked s.mbox → s.mbox.state = .opened → (mboxAddTimer timer).wp True
      Any (fun _ => Q .asleep) (s.wait p want.side))
    (hdone : ∀ r s', r ≠ .asleep → Kept s s' → want.Moves s.mbox.msgs s'.mbox.msgs r → Q r s') :
    (mboxLoop p timer want).wp True Any Q s := by
  by_cases hblocked : want.Blocked s.mbox
  · exact wp_mboxLoop_blocked hblocked (absurd trivial) (hasleep hblocked)
  cases want with
  | send msg =>
    show (sendLoop p msg timer).wp _ _ Q s
    rw [sendLoop, wp_get]
    refine wp_if (fun hfull => absurd hfull hblocked) fun hroom => ?_
    refine wp_assume trivial fun _ => ?_
    refine wp_seq (wp_addMsg fun s₁ hsched hslots hmsgs => ?_)
    have hkept : Kept s s₁ := ⟨hslots _ fun _ => Nat.lt_of_not_le hroom, hsched⟩
    rw [wp_bind]
    exact wp_mboxOut fun s' h' hs' => hdone _ s' (by simp) (hkept.trans h') (hs'.trans hmsgs)
  | recv maxBytes =>
    show (recvLoop p maxBytes timer).wp _ _ Q s
    rw [recvLoop, wp_get]
    refine wp_if (fun hempty => absurd hempty hblocked) fun _ => ?_
    exact wp_assume trivial fun _ => wp_recvPick hdone

/-- After `schedule` the timer and the queue are left, and the loop goes on if the mailbox was
the reason for the wake-up. -/
theorem wp_mboxResume : (mboxResume p want timer).wp H E Q s ↔
    (mboxDelTimer timer).wp H E (fun _ s₁ =>
      ((s₁.unwait p want.side).mbox.state ≠ .opened ∨ s₁.wakeupFlags p ≠ want.side.waitState →
        (mboxOut true).wp H E (fun _ => Q .interrupted) (s₁.unwait p want.side)) ∧
      (¬((s₁.unwait p want.side).mbox.state ≠ .opened ∨ s₁.wakeupFlags p ≠ want.side.waitState) →
        (mboxLoop p timer want).wp H E Q (s₁.unwait p want.side))) s := by
  rw [mboxResume, wp_bind]
  simp only [mboxWaitDel, wp_bind, wp_modify, wp_gets, wp_ite, wp_pure]
  rfl

/-- What a part of a call does to the mailbox. -/
structure Dealt (want : Want) (s : MboxSys) (r : MboxResult) (s' : MboxSys) : Prop where
  slots : ∀ {room}, SlotsOk room s.mbox → SlotsOk room s'.mbox
  moves : want.Moves s.mbox.msgs s'.mbox.msgs r

theorem Dealt.of_same {r : MboxResult} (h : SameBox s.mbox s'.mbox) (hr : r = .asleep) :
    Dealt want s r s' := by
  refine ⟨fun hslots => hslots.same h, ?_⟩
  rw [h.msgs, hr]
  cases want <;> rfl

theorem wp_mboxLoop_dealt : (mboxLoop p timer want).wp True Any (Dealt want s) s := by
  refine wp_mboxLoop (fun _ _ => ?_) fun _ _ _ hkept hmoves => ⟨hkept.slots, hmoves⟩
  cases timer with
  | none => exact .of_same sameBox_setQueue rfl
  | some t => exact wp_inSched_mbox fun _ _ => .of_same sameBox_setQueue rfl

theorem wp_mboxCall_dealt {timeout : ℕ} :
    (mboxCall p want timeout).wp True Any (Dealt want s) s := by
  have hgo : ∀ s₁ : MboxSys, s₁.mbox = s.mbox → ∀ timer, (mboxLoop p timer want).wp True
      Any (Dealt want s)
      (s₁.setMbox { s₁.mbox with inuse := s₁.mbox.inuse + 1 }) := by
    intro s₁ hs₁ timer
    refine wp_mboxLoop_dealt.imp fun r s' h => ⟨fun hslots => h.slots ?_, ?_⟩
    · exact kept_setInuse.slots (hs₁ ▸ hslots)
    · rw [← hs₁]
      exact h.moves
  rw [mboxCall, wp_bind, mboxTimerInit]
  refine wp_if (fun _ => ?_) fun _ => hgo s rfl none
  exact wp_seq (wp_inSched_mbox fun _ v => hgo (s.setSched v) rfl (some p))

theorem wp_mboxResume_dealt : (mboxResume p want timer).wp True Any (Dealt want s) s := by
  have hdel : (mboxDelTimer timer).wp True Any (fun _ s₁ => s₁.mbox = s.mbox) s := by
    cases timer with
    | none => rfl
    | some t => exact wp_inSched_mbox fun _ _ => rfl
  rw [wp_mboxResume]
  refine hdel.imp fun _ s₁ hs₁ => ?_
  have hsame : SameBox s.mbox (s₁.unwait p want.side).mbox := hs₁ ▸ sameBox_setQueue
  refine ⟨fun _ => wp_mboxOut fun s' hkept hs' => ?_, fun _ => ?_⟩
  · refine ⟨fun hslots => hkept.slots (hslots.same hsame), ?_⟩
    rw [hs', hsame.msgs]
    cases want <;> rfl
  · refine wp_mboxLoop_dealt.imp fun r s' h =>
      ⟨fun hslots => h.slots (hslots.same hsame), ?_⟩
    rw [← hsame.msgs]
    exact h.moves

end Ucore.Sync
