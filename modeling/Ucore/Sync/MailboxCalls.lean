import Ucore.Sync.MailboxQueues

/-!
# Calls on a mailbox and its queues

The parts of `ipc_mbox_send` and `ipc_mbox_recv` between two calls of `schedule`, the message that
is put back, and `ipc_mbox_free` keep the count of processes inside and of rights to look.
-/

namespace Ucore.Sync

open Kern Function

variable {ph : ℕ → Phase} {s : MboxSys} {p k t : ℕ} {want : Want} {c : WaitCall}
  {timer : Option ℕ} {H : Prop} {E : Fault → MboxSys → Prop}

/-! ## Timers -/

section Timers

variable {v : Sched} {Q : Unit → Sched → Prop} {a : ℕ}

theorem wp_getTimer_any {Q : Timer → Sched → Prop} (hQ : Q (v.timer a) v) :
    (getTimer a).wp True Any Q v := by
  unfold wp getTimer
  by_cases ha : a ∈ v.freed
  · rw [if_pos ha]
    trivial
  · rw [if_neg ha]
    exact hQ

theorem wp_placeTimer_proc {before rest : List ℕ} (hQ : ∀ v', v'.proc = v.proc → Q () v') :
    (placeTimer a before rest).wp True Any Q v := by
  induction rest generalizing before v with
  | nil => exact hQ _ rfl
  | cons next rest ih =>
    rw [placeTimer, wp_bind]
    refine wp_getTimer_any ?_
    refine wp_seq (wp_getTimer_any ?_)
    refine wp_if (fun _ => hQ _ rfl) fun _ => ?_
    exact ih hQ

/-- `add_timer` does not touch the processes. -/
theorem wp_addTimer_proc (hQ : ∀ v', v'.proc = v.proc → Q () v') :
    (addTimer a).wp True Any Q v := by
  rw [addTimer, wp_bind]
  refine wp_getTimer_any ?_
  refine wp_assume trivial fun _ => ?_
  exact wp_assume trivial fun _ => wp_placeTimer_proc hQ

end Timers

theorem wp_mboxAddTimer_box {Q : Unit → MboxSys → Prop} (h : BoxInv ph k t s)
    (hQ : ∀ s', BoxInv ph k t s' → s'.mbox = s.mbox → Q () s') :
    (mboxAddTimer timer).wp True Any Q s := by
  cases timer with
  | none => exact hQ s h rfl
  | some a =>
    show (inSched (addTimer a)).wp _ _ _ _
    rw [wp_inSched]
    refine wp_addTimer_proc fun v hproc => hQ _ (h.sched rfl rfl fun q _ => .inl ?_) rfl
    exact congrFun hproc q

/-! ## Calls -/

/-- The right with which the loop of a call begins: a receiver looks at the mailbox. -/
def Want.right : Want → ℕ
  | send _ => 0
  | recv _ => 1

/-- A place outside of `send_msg` and `recv_msg`. -/
theorem BoxInv.place {x : Phase} (h : BoxInv ph k t s) (hp : (ph p).side = none)
    (hx : x.side = none) : BoxInv (update ph p x) k t s := by
  refine h.congr fun q => ?_
  rcases eq_or_ne q p with rfl | hq
  · rw [update_self, hp, hx]
  · rw [update_of_ne hq]

theorem side_phaseAfter {r : MboxResult} (hr : r ≠ .asleep) :
    (Mailbox.phaseAfter want c r).side = none := by
  cases r with
  | asleep => exact absurd rfl hr
  | sent | got | tooBig | interrupted => rfl

theorem Out.opened {m m' : Mbox} (h : Out m m') (hopened : m.state = .opened) :
    m'.state = .opened := by
  rw [h.state, if_neg fun hand => absurd (hopened.symm.trans hand.1) (by simp)]
  exact hopened

/-- The loops of `send_msg` and `recv_msg` in an open mailbox. -/
theorem wp_mboxLoop_box (h : BoxInv ph 1 want.right s) (hp : (ph p).side = none)
    (hopened : s.mbox.state = .opened) :
    (mboxLoop p timer want).wp True Any (fun r s' =>
      BoxInv (update ph p (Mailbox.phaseAfter want c r)) 0 0 s' ∧ s'.mbox.state = .opened) s := by
  -- the end of a call that does not sleep
  have hout : ∀ (failed : Bool) (r : MboxResult) (s₁ : MboxSys), r ≠ .asleep → BoxInv ph 1 0 s₁ →
      s₁.mbox.state = .opened → (mboxOut failed >>= fun _ => pure r).wp True Any
        (fun r s' => BoxInv (update ph p (Mailbox.phaseAfter want c r)) 0 0 s' ∧
          s'.mbox.state = .opened) s₁ := by
    intro failed r s₁ hr h₁ hopened₁
    refine wp_seq (wp_mboxOut_box h₁ (absurd hopened₁) fun s' h' hout => ?_)
    exact ⟨h'.place hp (side_phaseAfter hr), hout.opened hopened₁⟩
  by_cases hblocked : want.Blocked s.mbox
  · refine wp_mboxLoop_blocked hblocked (absurd trivial) fun _ => ?_
    have hwait : BoxInv (update ph p (.waiting want c)) 0 0 (s.wait p want.side) := by
      refine h.wait hp hopened (fun hside => ?_) fun hside => ?_
      · cases want with
        | send msg => cases hside
        | recv maxBytes => exact hblocked
      · cases want with
        | send msg => rfl
        | recv maxBytes => cases hside
    refine wp_mboxAddTimer_box hwait fun s' h' hmbox => ⟨h', ?_⟩
    rw [hmbox]
    exact sameBox_setQueue.state.trans hopened
  cases want with
  | send msg =>
    show (sendLoop p msg timer).wp _ _ _ s
    rw [sendLoop, wp_get]
    refine wp_if (fun hfull => absurd hfull hblocked) fun _ => ?_
    refine wp_assume trivial fun _ => ?_
    exact wp_seq (wp_addMsg_box h hopened fun s₁ h₁ hopened₁ _ => hout _ _ s₁ (by simp) h₁ hopened₁)
  | recv maxBytes =>
    show (recvLoop p maxBytes timer).wp _ _ _ s
    rw [recvLoop, wp_get]
    refine wp_if (fun hempty => absurd hempty hblocked) fun _ => ?_
    refine wp_assume trivial fun _ => ?_
    rw [recvPick, wp_bind]
    refine wp_pickMsg_box h (fun _ => ?_) fun msg s₁ h₁ hopened₁ => ?_
    · exact wp_seq (wp_wakeupFirst_recv h fun s₁ h₁ hsame =>
        hout _ _ s₁ (by simp) h₁ (hsame.state.trans hopened))
    · exact hout _ _ s₁ (by simp) h₁ hopened₁

theorem wp_mboxCall_box {timeout : ℕ} (h : BoxInv ph 0 0 s) (hp : (ph p).side = none)
    (hopened : s.mbox.state = .opened) :
    (mboxCall p want timeout).wp True Any (fun r s' =>
      BoxInv (update ph p (Mailbox.phaseAfter want c r)) 0 0 s' ∧ s'.mbox.state = .opened) s := by
  have hgo : ∀ s₁ : MboxSys, BoxInv ph 0 0 s₁ → s₁.mbox.state = .opened → ∀ timer,
      (mboxLoop p timer want).wp True Any (fun r s' =>
        BoxInv (update ph p (Mailbox.phaseAfter want c r)) 0 0 s' ∧ s'.mbox.state = .opened)
        (s₁.setMbox { s₁.mbox with inuse := s₁.mbox.inuse + 1 }) := by
    intro s₁ h₁ hopened₁ timer
    have hinside : BoxInv ph 1 0 (s₁.setMbox { s₁.mbox with inuse := s₁.mbox.inuse + 1 }) := by
      refine h₁.setInuse (by simp [hopened₁]) ?_
      have hinuse := h₁.inuse
      rw [Nat.cast_zero, add_zero] at hinuse
      rw [hinuse]
      rfl
    exact wp_mboxLoop_box (hinside.le (Nat.zero_le _)) hp hopened₁
  rw [mboxCall, wp_bind, mboxTimerInit]
  refine wp_if (fun _ => ?_) fun _ => hgo s h hopened none
  exact hgo (s.setSched (s.sched.initTimer p (some p) timeout))
    (h.sched rfl rfl fun _ _ => .inl rfl) hopened (some p)

/-- A process goes on after `schedule`. Only `del_timer` could keep it from leaving a mailbox
that is closing. -/
theorem wp_mboxResume_box (h : BoxInv ph 0 0 s) (hp : ph p = .waiting want c)
    (hH : s.mbox.state = .opened → H ∧ ∀ e s', E e s')
    (hdel : (mboxDelTimer timer).wp H E (fun _ s' => s'.mbox = s.mbox ∧
      s'.wakeupFlags = s.wakeupFlags ∧ s'.sched.proc = s.sched.proc) s) :
    (mboxResume p want timer).wp H E (fun r s' =>
      BoxInv (update ph p (Mailbox.phaseAfter want c r)) 0 0 s' ∧
        (s.mbox.state ≠ .opened → r = .interrupted ∧ s'.mbox.inuse = s.mbox.inuse - 1) ∧
        s'.mbox.state = if s.mbox.state = .closing ∧ s.mbox.inuse = 1 then .closed
          else s.mbox.state) s := by
  have hside : (ph p).side = some want.side := by
    rw [hp]
    rfl
  have hself : (update ph p Phase.idle p).side = none := by
    rw [update_self]
    rfl
  rw [wp_mboxResume]
  refine hdel.imp ?_
  rintro _ s₁ ⟨hmbox, hflags, hproc⟩
  have h₁ : BoxInv ph 0 0 s₁ := h.sched hmbox hflags fun q _ => .inl (congrFun hproc q)
  have hsame : SameBox s.mbox (s₁.unwait p want.side).mbox := by
    rw [← hmbox]
    exact sameBox_setQueue
  refine ⟨fun hleave => ?_, fun hgo => ?_⟩
  · have hout : BoxInv (update ph p .idle) 1 0 (s₁.unwait p want.side) := by
      refine h₁.leave hside fun hopened hrecv hwoken => ?_
      rw [hsame.state, hrecv] at hleave
      rw [hmbox] at hopened
      exact absurd hleave (not_or.mpr ⟨not_not.mpr hopened, not_not.mpr hwoken⟩)
    refine wp_mboxOut_box hout (fun _ => rfl) fun s' h' hleft =>
      ⟨?_, fun _ => ⟨rfl, ?_⟩, ?_⟩
    · have hplace := h'.place hself (x := .idle) rfl
      rw [update_idem] at hplace
      exact hplace
    · rw [hleft.inuse, hsame.inuse]
    · rw [hleft.state, hsame.state, hsame.inuse]
  · rw [not_or, not_not, hsame.state] at hgo
    obtain ⟨hhalt, herror⟩ := hH hgo.1
    have hin : BoxInv (update ph p .idle) 1 want.right (s₁.unwait p want.side) := by
      refine h₁.leave hside fun _ hrecv _ => ?_
      cases want with
      | send msg => cases hrecv
      | recv maxBytes => exact le_refl 1
    have hloop : (mboxLoop p timer want).wp True Any (fun r s' =>
        BoxInv (update (update ph p .idle) p
          (Mailbox.phaseAfter want c r)) 0 0 s' ∧ s'.mbox.state = .opened)
        (s₁.unwait p want.side) :=
      wp_mboxLoop_box hin hself (hsame.state.trans hgo.1)
    obtain rfl : H = True := eq_true hhalt
    refine hloop.mono (fun e s' _ => herror e s') ?_
    rintro r s' ⟨h', hopened⟩
    rw [update_idem] at h'
    refine ⟨h', absurd hgo.1, ?_⟩
    rw [if_neg fun hand => absurd (hgo.1.symm.trans hand.1) (by simp), hopened, hgo.1]

/-- A message that could not be copied is put back. -/
theorem wp_putBack_box {msg : Msg} {Q : Unit → MboxSys → Prop} (h : BoxInv ph k t s)
    (hQ : ∀ s', BoxInv ph k t s' → s'.mbox.state = s.mbox.state →
      s'.mbox.inuse = s.mbox.inuse → Q () s') : (putBack msg).wp H E Q s := by
  rw [putBack, wp_get]
  refine wp_if (fun hopened => ?_) fun _ => hQ s h rfl rfl
  exact wp_addMsg_box h hopened fun s' h' hopened' => hQ s' h' (hopened'.trans hopened.symm)

/-- `ipc_mbox_free` on an open mailbox. -/
theorem wp_ipcMboxFree_box {Q : Unit → MboxSys → Prop} (h : BoxInv ph 0 0 s)
    (hQ : ∀ s', BoxInv ph 0 0 s' → s'.mbox.inuse = s.mbox.inuse →
      s'.mbox.state = (if s.mbox.inuse = 0 then .closed else .closing) → Q () s') :
    (ipcMboxFree).wp H E Q s := by
  rw [ipcMboxFree, wp_put, wp_get, wp_bind]
  have hclosing : Queues ph (s.setMbox { s.mbox with state := .closing, msgs := [] }) :=
    h.toQueues.setMbox rfl rfl
  refine wp_wakeupQueue_all hclosing rfl fun s₁ h₁ hsame₁ hsend₁ _ => ?_
  rw [wp_get, wp_bind]
  refine wp_wakeupQueue_all h₁ rfl fun s₂ h₂ hsame₂ hrecv₂ hother₂ => ?_
  have hsame := hsame₁.trans hsame₂
  have hstate : s₂.mbox.state = .closing := hsame.state
  have hinuse : s₂.mbox.inuse = s.mbox.inuse := hsame.inuse
  have hempty : s₂.mbox.Emptied :=
    ⟨(hother₂ .send (by simp)).trans hsend₁, hrecv₂, hsame.msgs⟩
  have hbox : BoxInv ph 0 0 s₂ := by
    refine ⟨h₂, ?_, fun hopen => absurd (hstate.symm.trans hopen) (by simp), fun _ => hempty,
      fun hclosed => absurd (hstate.symm.trans hclosed) (by simp)⟩
    rw [hinuse]
    exact h.inuse
  rw [wp_get]
  refine wp_if (fun hzero => wp_mboxFree_box hbox hstate hzero fun s' h' hclosed hzero' =>
    hQ s' h' ?_ ?_) fun hne => hQ s₂ hbox hinuse ?_
  · rw [← hinuse, hzero, hzero']
  · rw [← hinuse, if_pos hzero]
    exact hclosed
  · rw [← hinuse, if_neg hne]
    exact hstate

end Ucore.Sync
