import Ucore.Sync.MailboxSpec

/-!
# The capacity of a mailbox

While a mailbox is open, its field `slots` is the number of queued messages and does not exceed
`max_slots`, as long as no message is put back into a full mailbox.
-/

namespace Ucore.Sync

open Kern

namespace Mailbox

variable {s s' : Mailbox} {driver : ℕ → ℕ → SchedM Unit}

/-- When a message may be put back: an open mailbox has room for it. -/
def Room (s : Mailbox) : MboxCall → Prop
  | .finish _ false => s.sys.mbox.state = .opened → s.sys.mbox.slots < s.sys.mbox.maxSlots
  | _ => True

/-- A step that puts no message back into a full mailbox. -/
def RoomStep (driver : ℕ → ℕ → SchedM Unit) (s : Mailbox) (c : MboxCall) (s' : Mailbox) : Prop :=
  Step driver s c s' ∧ s.Room c

theorem Step.slots {room : Prop} {c : MboxCall} (hstep : Step driver s c s')
    (hroom : room → s.Room c) (h : SlotsOk room s.sys.mbox) : SlotsOk room s'.sys.mbox := by
  cases c with
  | call p want timeout result =>
    obtain ⟨-, -, -, sys, hcall, rfl⟩ := hstep
    exact (wp_mboxCall_dealt.of_done hcall).slots h
  | resume p result =>
    obtain ⟨-, want, c, -, sys, hcall, rfl⟩ := hstep
    exact (wp_mboxResume_dealt.of_done hcall).slots h
  | finish p ok =>
    obtain ⟨-, msg, -, sys, hcall, rfl⟩ := hstep
    have hwp : (if ok then pure () else putBack msg).wp True Any
        (fun _ sys => SlotsOk room sys.mbox) s.sys := by
      cases ok with
      | true => exact h
      | false => exact wp_putBack fun s' _ hkept _ => hkept room hroom h
    exact hwp.of_done hcall
  | free =>
    obtain ⟨-, sys, hcall, rfl⟩ := hstep
    have hwp : (ipcMboxFree).wp True Any (fun _ sys => SlotsOk room sys.mbox) s.sys :=
      wp_ipcMboxFree fun s' hkept => hkept.slots h
    exact hwp.of_done hcall
  | init maxSlots =>
    obtain ⟨hclosed, -, -, sys, hcall, rfl⟩ := hstep
    obtain ⟨hslots, hmsgs⟩ := h.closed hclosed
    cases hcall
    refine .of_opened rfl ?_ ?_
    · show s.sys.mbox.slots = s.sys.mbox.msgs.length
      rw [hslots, hmsgs]
      rfl
    · show room → s.sys.mbox.slots ≤ maxSlots
      omega
  | sleep p time =>
    obtain ⟨-, -, -, sys, hcall, rfl⟩ := hstep
    obtain ⟨v, -, rfl⟩ := of_zoom_done hcall
    exact h
  | wake p =>
    obtain ⟨-, -, sys, hcall, rfl⟩ := hstep
    obtain ⟨v, -, rfl⟩ := of_zoom_done hcall
    exact h
  | tick | kill =>
    obtain ⟨sys, hcall, rfl⟩ := hstep
    obtain ⟨v, -, rfl⟩ := of_zoom_done hcall
    exact h

/-- A mailbox that was never opened. -/
structure Fresh (s : Mailbox) : Prop where
  state : s.sys.mbox.state = .closed
  slots : s.sys.mbox.slots = 0
  msgs : s.sys.mbox.msgs = []

theorem Fresh.slotsOk {room : Prop} (h : Fresh s) : SlotsOk room s.sys.mbox :=
  ⟨fun hstate => absurd (h.state.symm.trans hstate) (by simp), fun _ => ⟨h.slots, h.msgs⟩⟩

/-- As long as no message is put back into a full mailbox, an open mailbox has as many messages
as slots in use, and not more than it was created for. -/
theorem mailbox_capacity {s₀ : Mailbox} {cs : List MboxCall} (hfresh : Fresh s₀)
    (hrun : Run (RoomStep driver) s₀ cs s) (hopened : s.sys.mbox.state = .opened) :
    s.sys.mbox.slots = s.sys.mbox.msgs.length ∧ s.sys.mbox.slots ≤ s.sys.mbox.maxSlots := by
  have hslots : SlotsOk True s.sys.mbox := hrun.invariant
    (fun _ _ _ h hstep => hstep.1.slots (fun _ => hstep.2) h) hfresh.slotsOk
  obtain ⟨hcount, hmax⟩ := hslots.opened hopened
  exact ⟨hcount, hmax trivial⟩

theorem fresh_idleMailbox : Fresh idleMailbox := ⟨rfl, rfl, rfl⟩

/-- A message is received, cannot be copied and is put back. -/
theorem mailbox_capacity_put_back : ∃ s,
    Run (RoomStep fun _ _ => return ()) idleMailbox [.init 1, .call 1 (.send ⟨1, 4⟩) 0 .sent,
      .call 2 (.recv 9) 0 (.got ⟨1, 4⟩), .finish 2 false] s ∧
      s.sys.mbox.slots = s.sys.mbox.msgs.length ∧ s.sys.mbox.slots ≤ s.sys.mbox.maxSlots := by
  refine Run.exists_imp (P := fun s => s.sys.mbox.state = .opened) ?_ fun s hrun hopened =>
    mailbox_capacity fresh_idleMailbox hrun hopened
  refine ⟨_, .cons ⟨⟨rfl, by decide, by decide, _, rfl, rfl⟩, trivial⟩
    (.cons ⟨⟨rfl, rfl, rfl, _, rfl, rfl⟩, trivial⟩
    (.cons ⟨⟨rfl, rfl, rfl, _, rfl, rfl⟩, trivial⟩
    (.cons ⟨⟨rfl, _, rfl, _, rfl, rfl⟩, fun _ => by decide⟩ (.nil _)))), ?_⟩
  rfl

/-- A mailbox for one message: the message is received, another is sent into the free slot, and
the first is put back because it cannot be copied. -/
theorem mailbox_overfull : ∃ s,
    Run (Step fun _ _ => return ()) idleMailbox [.init 1, .call 1 (.send ⟨1, 4⟩) 0 .sent,
      .call 2 (.recv 9) 0 (.got ⟨1, 4⟩), .call 1 (.send ⟨1, 5⟩) 0 .sent, .finish 2 false] s ∧
      s.sys.mbox.state = .opened ∧ s.sys.mbox.slots = 2 ∧ s.sys.mbox.maxSlots = 1 := by
  refine ⟨_, .cons ⟨rfl, by decide, by decide, _, rfl, rfl⟩
    (.cons ⟨rfl, rfl, rfl, _, rfl, rfl⟩ (.cons ⟨rfl, rfl, rfl, _, rfl, rfl⟩
    (.cons ⟨rfl, rfl, rfl, _, rfl, rfl⟩ (.cons ⟨rfl, _, rfl, _, rfl, rfl⟩ (.nil _))))), ?_, ?_, ?_⟩
  · rfl
  · rfl
  · rfl

end Mailbox

end Ucore.Sync
