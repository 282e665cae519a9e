import Ucore.Sync.MailboxCalls
import Ucore.Sync.MailboxTimers

/-!
# Wake-ups and the end of a mailbox

In every run of calls, time-outs and kills on one mailbox: no receiver is left in the queue of an
open mailbox beside a message that nobody was woken up for, the field `inuse` counts the processes
inside `send_msg` and `recv_msg`, and a mailbox that is closed is freed once, when the last of them
has left.
-/

namespace Ucore.Sync

open Kern

/-- `ipc_del_timer` touches timers only, and returns. -/
theorem wp_mboxDelTimer_same {s : MboxSys} {timer : Option ℕ} {H : Prop}
    {E : Fault → MboxSys → Prop} (h : OwnTimers s.sched) :
    (mboxDelTimer timer).wp H E (fun _ s' => s'.mbox = s.mbox ∧ s'.wakeupFlags = s.wakeupFlags ∧
      s'.sched.proc = s.sched.proc) s := by
  cases timer with
  | none => exact ⟨rfl, rfl, rfl⟩
  | some a =>
    show (inSched (delTimer a)).wp _ _ _ _
    rw [wp_inSched]
    refine wp_delTimer h.toQueued (by simp [h.nofree]) (fun _ => ⟨rfl, rfl, rfl⟩)
      fun v pre post hplaced _ => ⟨rfl, rfl, ?_⟩
    exact hplaced.same.proc.symm

namespace Mailbox

variable {s s' : Mailbox} {p : ℕ} {driver : ℕ → ℕ → SchedM Unit} {call : MboxCall} {sys : MboxSys}

/-! ## Steps -/

/-- The state of the mailbox after a step. -/
def stateAfter (m : Mbox) : MboxCall → MboxState
  | .resume _ _ => if m.state = .closing ∧ m.inuse = 1 then .closed else m.state
  | .free => if m.inuse = 0 then .closed else .closing
  | .init _ => .opened
  | _ => m.state

/-- What holds between the steps; a mailbox that is closing has somebody inside. -/
structure Attended (s : Mailbox) : Prop extends BoxInv s.phase 0 0 s.sys where
  timers : TimeInv False s
  busy : s.sys.mbox.state = .closing → 0 < s.sys.mbox.inuse

/-- A step of the scheduler: the processes inside are not disturbed but by wake-ups. -/
theorem Attended.sched {v : Sched} {ph : ℕ → Phase} (h : Attended s)
    (htimers : TimeInv False ⟨s.sys.setSched v, ph⟩)
    (hside : ∀ q, (ph q).side = (s.phase q).side) (hproc : ∀ q, (s.phase q).side ≠ none →
      v.proc q = s.sys.sched.proc q ∨ (v.proc q).state = .runnable) :
    Attended ⟨s.sys.setSched v, ph⟩ := by
  have hbox : BoxInv s.phase 0 0 (s.sys.setSched v) := h.toBoxInv.sched rfl rfl hproc
  exact ⟨hbox.congr hside, htimers, h.busy⟩

/-- A step of the scheduler for a process that is not inside. -/
theorem Attended.elsewhere {v : Sched} {x : Phase} (h : Attended s)
    (htimers : TimeInv False (s.move p (s.sys.setSched v) x)) (hp : (s.phase p).side = none)
    (hx : x.side = none) (hother : Elsewhere s.sys.sched v p) :
    Attended (s.move p (s.sys.setSched v) x) := by
  refine h.sched htimers (fun q => ?_) fun q hq => hother.proc q ?_
  · rcases eq_or_ne q p with rfl | hqp
    · rw [Function.update_self, hp, hx]
    · rw [Function.update_of_ne hqp]
  · rintro rfl
    exact hq hp

theorem Step.attended (hstep : Step driver s call s') (h : Attended s) :
    Attended s' ∧ s'.sys.mbox.state = stateAfter s.sys.mbox call := by
  have htimers := hstep.timeInv h.timers False.elim
  have hown := h.timers.own
  cases call with
  | call p want timeout result =>
    obtain ⟨-, hidle, hopened, sys, hcall, rfl⟩ := hstep
    have hside : (s.phase p).side = none := by
      rw [hidle]
      rfl
    obtain ⟨hbox, hopened'⟩ := (wp_mboxCall_box h.toBoxInv hside hopened).of_done hcall
    refine ⟨⟨hbox, htimers, fun hclosing => ?_⟩, ?_⟩
    · cases hopened'.symm.trans hclosing
    · exact hopened'.trans hopened.symm
  | resume p result =>
    obtain ⟨-, want, c, hphase, sys, hcall, rfl⟩ := hstep
    obtain ⟨hbox, hshut, hstate⟩ := (wp_mboxResume_box h.toBoxInv hphase (fun _ => ⟨trivial, fun _
      _ => trivial⟩) (wp_mboxDelTimer_same hown)).of_call hcall
    refine ⟨⟨hbox, htimers, fun hclosing => ?_⟩, hstate⟩
    -- it was closing before, and this process was not the last
    have hclosing' : sys.mbox.state = .closing := hclosing
    rw [hclosing'] at hstate
    split at hstate
    · cases hstate
    · rename_i hnot
      have hbusy := h.busy hstate.symm
      have hone : s.sys.mbox.inuse ≠ 1 := fun hone => hnot ⟨hstate.symm, hone⟩
      have hinuse : sys.mbox.inuse = s.sys.mbox.inuse - 1 := (hshut (by simp [← hstate])).2
      show 0 < sys.mbox.inuse
      omega
  | finish p ok =>
    obtain ⟨-, msg, hphase, sys, hcall, rfl⟩ := hstep
    have hside : (s.phase p).side = none := by
      rw [hphase]
      rfl
    have hwp : (if ok then pure () else putBack msg).wp True Any
        (fun _ sys => BoxInv s.phase 0 0 sys ∧ sys.mbox.state = s.sys.mbox.state ∧
          sys.mbox.inuse = s.sys.mbox.inuse) s.sys := by
      cases ok with
      | true => exact ⟨h.toBoxInv, rfl, rfl⟩
      | false => exact wp_putBack_box h.toBoxInv fun s' h' hstate hinuse => ⟨h', hstate, hinuse⟩
    obtain ⟨hbox, hstate, hinuse⟩ := hwp.of_done hcall
    refine ⟨⟨hbox.place hside rfl, htimers, fun hclosing => ?_⟩, hstate⟩
    show 0 < sys.mbox.inuse
    rw [hinuse]
    exact h.busy (hstate.symm.trans hclosing)
  | free =>
    obtain ⟨-, sys, hcall, rfl⟩ := hstep
    have hwp : (ipcMboxFree).wp True Any (fun _ sys => BoxInv s.phase 0 0 sys ∧
        sys.mbox.inuse = s.sys.mbox.inuse ∧
        sys.mbox.state = if s.sys.mbox.inuse = 0 then .closed else .closing) s.sys :=
      wp_ipcMboxFree_box h.toBoxInv fun s' h' hinuse hstate => ⟨h', hinuse, hstate⟩
    obtain ⟨hbox, hinuse, hstate⟩ := hwp.of_done hcall
    refine ⟨⟨hbox, htimers, fun hclosing => ?_⟩, hstate⟩
    have hclosing' : sys.mbox.state = .closing := hclosing
    rw [hclosing'] at hstate
    split at hstate
    · cases hstate
    · show 0 < sys.mbox.inuse
      omega
  | init maxSlots =>
    obtain ⟨hclosed, -, -, sys, hcall, rfl⟩ := hstep
    have hempty := h.shut (by simp [hclosed])
    cases hcall
    exact ⟨⟨⟨h.toQueues.setMbox rfl rfl, h.inuse, fun _ => absurd hempty.receivers,
      (absurd rfl), nofun⟩, htimers,
      nofun⟩, rfl⟩
  | sleep p time =>
    obtain ⟨-, hidle, htime, sys, hcall, rfl⟩ := hstep
    obtain ⟨v, hdone, rfl⟩ := of_zoom_done hcall
    exact ⟨h.elsewhere htimers (by rw [hidle]; rfl) rfl
      ((wp_doSleep hown (h.timers.timed_of hidle) htime).of_call hdone).2, rfl⟩
  | wake p =>
    obtain ⟨-, hphase, sys, hcall, rfl⟩ := hstep
    obtain ⟨v, hdone, rfl⟩ := of_zoom_done hcall
    exact ⟨h.elsewhere htimers (by rw [hphase]; rfl) rfl (delTimer_done hown hdone).2.1, rfl⟩
  | tick =>
    obtain ⟨sys, hcall, rfl⟩ := hstep
    obtain ⟨v, hdone, rfl⟩ := of_zoom_done hcall
    have hticked := (clockTick_done hown.toTimersInv hdone).2
    exact ⟨h.sched htimers (fun _ => rfl) fun q _ => hticked.proc_eq_or q, rfl⟩
  | kill p =>
    obtain ⟨sys, hcall, rfl⟩ := hstep
    obtain ⟨v, hdone, rfl⟩ := of_zoom_done hcall
    have hwoken := onlyWoken_killWakeup.of_call hdone
    exact ⟨h.sched htimers (fun _ => rfl) fun q _ => hwoken.runnable q, rfl⟩

/-! ## Runs -/

/-- A closed mailbox that nobody uses, and no timer is queued. -/
structure Unopened (s : Mailbox) : Prop extends Quiet s where
  state : s.sys.mbox.state = .closed
  inuse : s.sys.mbox.inuse = 0
  empty : s.sys.mbox.Emptied

theorem Unopened.attended (h : Unopened s) : Attended s := by
  have hside : ∀ p, (s.phase p).side = none := fun p => by
    rw [h.phase]
    rfl
  have hinsiders : insiders s.phase = ∅ := by
    ext p
    exact iff_of_false (fun hp => hp (hside p)) (Set.notMem_empty p)
  refine ⟨⟨⟨fun side => ?_, fun side p hp => ?_, fun p hp => absurd (hside p) hp,
    fun p side hp => absurd ((hside p).symm.trans hp) (by simp)⟩, ?_,
    fun hopened => absurd (h.state.symm.trans hopened) (by simp), fun _ => h.empty,
    fun _ => h.inuse⟩, h.toQuiet.timeInv,
    fun hclosing => absurd (h.state.symm.trans hclosing) (by simp)⟩
  · rw [h.empty.queue]
    exact List.nodup_nil
  · rw [h.empty.queue] at hp
    cases hp
  · rw [hinsiders, Set.encard_empty, h.inuse]
    rfl

/-- A mailbox with the numbers of times it was closed and freed. -/
structure Tally where
  box : Mailbox
  /-- The calls of `ipc_mbox_free`. -/
  closes : ℕ
  /-- The times `mbox_free` was executed. -/
  frees : ℕ

/-- Whether a step closes the mailbox. -/
def closesBy : MboxCall → ℕ
  | .free => 1
  | _ => 0

/-- Whether `mbox_free` is executed: nothing else makes a mailbox closed. -/
def freesBy (m m' : Mbox) : ℕ := if m.state ≠ .closed ∧ m'.state = .closed then 1 else 0

/-- A step, counted. -/
def TallyStep (driver : ℕ → ℕ → SchedM Unit) (t : Tally) (call : MboxCall) (t' : Tally) : Prop :=
  ∃ box, Step driver t.box call box ∧
    t' = ⟨box, t.closes + closesBy call, t.frees + freesBy t.box.sys.mbox box.sys.mbox⟩

/-- Whether a mailbox was closed and is not yet free. -/
def pending (m : Mbox) : ℕ := if m.state = .closing then 1 else 0

/-- What is closed is freed, at once or later. -/
theorem closes_eq_frees {m m' : Mbox} (hfree : call = .free → m.state = .opened)
    (hinit : ∀ maxSlots, call = .init maxSlots → m.state = .closed)
    (hstate : m'.state = stateAfter m call) :
    closesBy call + pending m = freesBy m m' + pending m' := by
  have hsame : m'.state = m.state → closesBy call = 0 →
      closesBy call + pending m = freesBy m m' + pending m' := by
    intro heq hzero
    rw [hzero, freesBy, if_neg fun hand => hand.1 (heq ▸ hand.2), pending, pending, heq]
  cases call with
  | free =>
    have hopened := hfree rfl
    simp only [stateAfter] at hstate
    split at hstate
    · simp [closesBy, pending, freesBy, hopened, hstate]
    · simp [closesBy, pending, freesBy, hopened, hstate]
  | init maxSlots =>
    have hclosed := hinit maxSlots rfl
    have hopened : m'.state = .opened := hstate
    simp [closesBy, pending, freesBy, hclosed, hopened]
  | resume p result =>
    simp only [stateAfter] at hstate
    split at hstate
    · rename_i hlast
      simp [closesBy, pending, freesBy, hlast.1, hstate]
    · exact hsame hstate rfl
  | call | finish | sleep | wake | tick | kill => exact hsame hstate rfl

theorem TallyStep.counts {t t' : Tally} (hstep : TallyStep driver t call t')
    (h : Attended t.box ∧ t.closes = t.frees + pending t.box.sys.mbox) :
    Attended t'.box ∧ t'.closes = t'.frees + pending t'.box.sys.mbox := by
  obtain ⟨box, hstep, rfl⟩ := hstep
  obtain ⟨hattended, hstate⟩ := hstep.attended h.1
  refine ⟨hattended, ?_⟩
  have hcounts : closesBy call + pending t.box.sys.mbox =
      freesBy t.box.sys.mbox box.sys.mbox + pending box.sys.mbox := by
    refine closes_eq_frees (fun heq => ?_) (fun maxSlots heq => ?_) hstate
    · subst heq
      exact hstep.1
    · subst heq
      exact hstep.1
  show t.closes + closesBy call = t.frees + freesBy t.box.sys.mbox box.sys.mbox +
    pending box.sys.mbox
  omega

/-- Every run can be counted. -/
theorem exists_tally {cs : List MboxCall} (hrun : Run (Step driver) s cs s') (closes frees : ℕ) :
    ∃ t, Run (TallyStep driver) ⟨s, closes, frees⟩ cs t ∧ t.box = s' := by
  induction hrun generalizing closes frees with
  | nil s => exact ⟨_, .nil _, rfl⟩
  | cons hstep _ ih =>
    obtain ⟨t, hrun, hbox⟩ := ih _ _
    exact ⟨t, .cons ⟨_, hstep, rfl⟩ hrun, hbox⟩

/-- The processes inside `send_msg` and `recv_msg`. -/
def inside (s : Mailbox) : Set ℕ := {p | ∃ want c, s.phase p = .waiting want c}

/-- The receivers that were woken up for a message and have not looked at the queue again. -/
def woken (s : Mailbox) : Set ℕ :=
  {p | (∃ maxBytes c, s.phase p = .waiting (.recv maxBytes) c) ∧ p ∉ s.sys.mbox.receivers ∧
    s.sys.wakeupFlags p = wtMboxRecv ∧ (s.proc p).state = .runnable}

theorem inside_eq : s.inside = insiders s.phase := by
  ext p
  show (∃ want c, s.phase p = .waiting want c) ↔ (s.phase p).side ≠ none
  cases hp : s.phase p with
  | waiting want c => exact iff_of_true ⟨want, c, rfl⟩ (by simp [Phase.side])
  | idle | copying | sleeping => exact iff_of_false (by simp) (by simp [Phase.side])

theorem Attended.lookers_subset (h : Attended s) : lookers s.phase s.sys ⊆ s.woken := by
  rintro p ⟨hside, hmem, hflags⟩
  refine ⟨?_, hmem, hflags, h.awake p .recv hside hmem⟩
  cases hp : s.phase p with
  | waiting want c =>
    cases want with
    | send msg =>
      rw [hp] at hside
      cases hside
    | recv maxBytes => exact ⟨maxBytes, c, rfl⟩
  | idle | copying | sleeping =>
    rw [hp] at hside
    cases hside

theorem Attended.inside_encard (h : Attended s) : s.inside.encard = s.sys.mbox.inuse := by
  have hinuse := h.inuse
  rw [Nat.cast_zero, add_zero] at hinuse
  rw [inside_eq]
  exact hinuse

/-- `ipc_mbox_free` returns, and leaves the mailbox free if nobody is inside. -/
theorem Attended.frees (h : Attended s) : ∃ sys, ipcMboxFree s.sys = .done () sys ∧
    sys.mbox.Emptied ∧ (sys.mbox.state = .closed ↔ s.inside = ∅) := by
  have hwp : (ipcMboxFree).wp False Never (fun _ sys => sys.mbox.Emptied ∧
      (sys.mbox.state = .closed ↔ s.inside = ∅)) s.sys := by
    refine wp_ipcMboxFree_box h.toBoxInv fun s' h' _ hstate => ⟨h'.shut ?_, ?_⟩
    · rw [hstate]
      split <;> simp
    · rw [← Set.encard_eq_zero, h.inside_encard, Nat.cast_eq_zero, hstate]
      split
      · rename_i hzero
        exact iff_of_true rfl hzero
      · rename_i hne
        exact iff_of_false (by simp) hne
  obtain ⟨_, sys, hcall, hsys⟩ := hwp.returns_done
  exact ⟨sys, hcall, hsys⟩

/-- A process that goes on in a mailbox that is closing leaves it, and frees it if it is the
last. -/
theorem Attended.leaves {want : Want} {c : WaitCall} (h : Attended s)
    (hclosing : s.sys.mbox.state = .closing) (hp : s.phase p = .waiting want c) :
    ∃ sys, mboxResume p want (c.timer p) s.sys = .done .interrupted sys ∧ sys.mbox.Emptied ∧
      (sys.mbox.state = .closed ↔ s.inside = {p}) := by
  have hnot : s.sys.mbox.state ≠ .opened := by simp [hclosing]
  obtain ⟨r, sys, hcall, hbox, hshut, hstate⟩ := (wp_mboxResume_box h.toBoxInv hp (fun hopened =>
    absurd hopened hnot) (wp_mboxDelTimer_same h.timers.own)).returns_done
  obtain ⟨rfl, -⟩ := hshut hnot
  refine ⟨sys, hcall, hbox.shut ?_, ?_⟩
  · rw [hstate]
    split
    · simp
    · exact hnot
  · have hmem : p ∈ s.inside := ⟨want, c, hp⟩
    have hone : s.inside = {p} ↔ s.sys.mbox.inuse = 1 := by
      rw [← Nat.cast_inj (R := ℕ∞), ← h.inside_encard, Nat.cast_one, Set.encard_eq_one]
      constructor
      · exact fun heq => ⟨p, heq⟩
      · rintro ⟨q, heq⟩
        rw [heq] at hmem ⊢
        rw [Set.mem_singleton_iff.mp hmem]
    rw [hone, hstate]
    split
    · rename_i hlast
      exact iff_of_true rfl hlast.2
    · rename_i hmore
      exact iff_of_false (by simp [hclosing]) fun hlast => hmore ⟨hclosing, hlast⟩

/-- In every run from a mailbox that was never opened: while the mailbox is open and receivers are
queued, it has not more messages than receivers that were woken up for one; `inuse` counts the
processes inside; every close but a pending one was followed by one `mbox_free`. That one is
executed by `ipc_mbox_free` if nobody is inside, and by the last process that leaves otherwise:
all who are inside are awake, and each that goes on leaves. Queues and messages are then empty. -/
theorem mailbox_wakeups_and_closing {t₀ t : Tally} {cs : List MboxCall} (hstart : Unopened t₀.box)
    (hcount : t₀.closes = t₀.frees) (hrun : Run (TallyStep driver) t₀ cs t) :
    (t.box.sys.mbox.state = .opened → t.box.sys.mbox.receivers ≠ [] →
      (t.box.sys.mbox.slots : ℕ∞) ≤ t.box.woken.encard) ∧
    t.box.inside.encard = t.box.sys.mbox.inuse ∧
    t.closes = t.frees + (if t.box.sys.mbox.state = .closing then 1 else 0) ∧
    (t.box.sys.mbox.state = .opened → ∃ sys, ipcMboxFree t.box.sys = .done () sys ∧
      sys.mbox.Emptied ∧ (sys.mbox.state = .closed ↔ t.box.inside = ∅)) ∧
    (t.box.sys.mbox.state = .closing → t.box.sys.mbox.Emptied ∧ t.box.inside.Nonempty ∧
      ∀ p want c, t.box.phase p = .waiting want c → (t.box.proc p).state = .runnable ∧
        ∃ sys, mboxResume p want (c.timer p) t.box.sys = .done .interrupted sys ∧
          sys.mbox.Emptied ∧ (sys.mbox.state = .closed ↔ t.box.inside = {p})) := by
  have hpending : t₀.closes = t₀.frees + pending t₀.box.sys.mbox := by
    rw [hcount, pending, hstart.state]
    rfl
  obtain ⟨h, hcloses⟩ := hrun.invariant
    (fun _ _ _ h hstep => hstep.counts h) ⟨hstart.attended, hpending⟩
  refine ⟨fun hopened hne => ?_, h.inside_encard, hcloses, fun _ => h.frees, fun hclosing => ?_⟩
  · have hrights := h.rights hopened hne
    rw [Nat.cast_zero, add_zero] at hrights
    exact hrights.trans (Set.encard_mono h.lookers_subset)
  · have hempty := h.shut (by simp [hclosing])
    refine ⟨hempty, ?_, fun p want c hp => ⟨?_, h.leaves hclosing hp⟩⟩
    · rw [← Set.encard_pos, h.inside_encard]
      exact_mod_cast h.busy hclosing
    · refine h.awake p want.side ?_ ?_
      · rw [hp]
        rfl
      · rw [hempty.queue]
        exact List.not_mem_nil

theorem unopened_idleMailbox : Unopened idleMailbox :=
  ⟨quiet_idleMailbox, rfl, rfl, ⟨rfl, rfl, rfl⟩⟩

/-- Two receivers wait, a message wakes the first, and a third process takes it; the mailbox is
then closed while both are still inside. -/
theorem mailbox_wakeups_and_closing_stolen : ∃ t, Run (TallyStep fun _ _ => return ())
    ⟨idleMailbox, 0, 0⟩ [.init 1, .call 1 (.recv 9) 0 .asleep, .call 2 (.recv 9) 5 .asleep,
      .call 3 (.send ⟨3, 4⟩) 0 .sent, .call 4 (.recv 9) 0 (.got ⟨3, 4⟩), .free] t ∧
      t.box.inside.encard = 2 ∧ t.closes = t.frees + 1 := by
  have hrun : ∃ s, Run (Step fun _ _ => return ()) idleMailbox [.init 1,
      .call 1 (.recv 9) 0 .asleep, .call 2 (.recv 9) 5 .asleep, .call 3 (.send ⟨3, 4⟩) 0 .sent,
      .call 4 (.recv 9) 0 (.got ⟨3, 4⟩), .free] s ∧ s.sys.mbox.state = .closing ∧
      s.sys.mbox.inuse = 2 := by
    refine ⟨_, .cons ⟨rfl, by decide, by decide, _, rfl, rfl⟩
      (.cons ⟨rfl, rfl, rfl, _, rfl, rfl⟩ (.cons ⟨rfl, rfl, rfl, _, rfl, rfl⟩
      (.cons ⟨rfl, rfl, rfl, _, rfl, rfl⟩ (.cons ⟨rfl, rfl, rfl, _, rfl, rfl⟩
      (.cons ⟨rfl, _, rfl, rfl⟩ (.nil _)))))), ?_, ?_⟩
    · rfl
    · rfl
  obtain ⟨s, hrun, hclosing, hinuse⟩ := hrun
  obtain ⟨t, htally, rfl⟩ := exists_tally hrun 0 0
  have h := mailbox_wakeups_and_closing unopened_idleMailbox rfl htally
  rw [if_pos hclosing, hinuse] at h
  exact ⟨t, htally, h.2.1, h.2.2.1⟩

/-- In every run, whoever sleeps inside of a mailbox is in the queue of its side, once. -/
theorem mailbox_sleepers_queued {s₀ : Mailbox} {cs : List MboxCall} {side : Side}
    (hstart : Unopened s₀) (hrun : Run (Step driver) s₀ cs s) (hp : (s.phase p).side = some side)
    (hasleep : (s.proc p).state ≠ .runnable) : (s.sys.mbox.queue side).count p = 1 := by
  have h : Attended s := hrun.invariant (fun _ _ _ h hstep => (hstep.attended h).1) hstart.attended
  exact List.count_eq_one_of_mem (h.nodup side) (not_not.mp (mt (h.awake p side hp) hasleep))

theorem mailbox_sleepers_queued_recv : ∃ s : Mailbox, (s.phase 1).side = some .recv ∧
    (s.sys.mbox.queue .recv).count 1 = 1 := by
  obtain ⟨s, hrun, hp, hasleep⟩ : ∃ s, Run (Step fun _ _ => return ()) idleMailbox
      [.init 1, .call 1 (.recv 9) 0 .asleep] s ∧ (s.phase 1).side = some .recv ∧
      (s.proc 1).state ≠ .runnable :=
    ⟨_, .cons ⟨rfl, by decide, by decide, _, rfl, rfl⟩
      (.cons ⟨rfl, rfl, rfl, _, rfl, rfl⟩ (.nil _)), rfl, nofun⟩
  exact ⟨s, hp, mailbox_sleepers_queued unopened_idleMailbox hrun hp hasleep⟩

end Mailbox

end Ucore.Sync
