import Mathlib.Data.Set.Card
import Ucore.Sync.MailboxSpec

/-!
# The queues of a mailbox

A wake-up takes one entry out of a wait queue, so a message that is added hands one receiver the
right to look at the mailbox. `BoxInv` counts these rights and the processes inside `send_msg`
and `recv_msg`, also while one process runs there; each step of these functions is followed
through it.
-/

namespace Ucore.Sync

open Kern Function List MboxSys

/-- The queue in which a process waits, if it is inside `send_msg` or `recv_msg`. -/
def Phase.side : Phase → Option Side
  | waiting want _ => some want.side
  | _ => none

/-- Nothing is left in the mailbox and nobody waits for it. -/
structure Mbox.Emptied (m : Mbox) : Prop where
  senders : m.senders = []
  receivers : m.receivers = []
  msgs : m.msgs = []

variable {ph ph' : ℕ → Phase} {s s' : MboxSys} {m : Mbox} {p k t t' : ℕ} {side side' : Side}
  {flags : WaitState} {want : Want} {c : WaitCall} {timer : Option ℕ} {H : Prop}
  {E : Fault → MboxSys → Prop} {Q : Unit → MboxSys → Prop} {l : List ℕ}

theorem Mbox.queue_setQueue :
    (m.setQueue l side).queue side' = if side' = side then l else m.queue side' := by
  cases side <;> cases side' <;> rfl

theorem Mbox.Emptied.queue (h : m.Emptied) (side : Side) : m.queue side = [] := by
  cases side with
  | send => exact h.senders
  | recv => exact h.receivers

/-- An entry was taken out of its queue and its process woken up. -/
def MboxSys.rouse (s : MboxSys) (p : ℕ) (side : Side) (flags : WaitState) : MboxSys :=
  ((s.setQueue side ((s.mbox.queue side).erase p)).setFlags p flags).setSched
    ((s.sched.wake p).record (.wakeup p))

theorem MboxSys.queue_rouse : (s.rouse p side flags).mbox.queue side' =
    if side' = side then (s.mbox.queue side).erase p else s.mbox.queue side' :=
  Mbox.queue_setQueue

theorem MboxSys.rouse_proc (q : ℕ) : (s.rouse p side flags).sched.proc q = s.sched.proc q ∨
    ((s.rouse p side flags).sched.proc q).state = .runnable :=
  proc_wake_eq_or q

theorem sameBox_rouse : SameBox s.mbox (s.rouse p side flags).mbox := sameBox_setQueue

/-! ## Processes in queues -/

/-- Who is in the queues, and that all others inside are awake. -/
structure Queues (ph : ℕ → Phase) (s : MboxSys) : Prop where
  nodup : ∀ side, (s.mbox.queue side).Nodup
  queued : ∀ side, ∀ p ∈ s.mbox.queue side, (ph p).side = some side
  live : ∀ p, (ph p).side ≠ none → (s.sched.proc p).state ≠ .zombie
  awake : ∀ p side, (ph p).side = some side → p ∉ s.mbox.queue side →
    (s.sched.proc p).state = .runnable

theorem state_of_eq_or {v v' : Proc} (h : v' = v ∨ v'.state = .runnable) :
    (v.state ≠ .zombie → v'.state ≠ .zombie) ∧ (v.state = .runnable → v'.state = .runnable) := by
  rcases h with rfl | hrunnable
  · exact ⟨fun h => h, fun h => h⟩
  · exact ⟨fun _ => by simp [hrunnable], fun _ => hrunnable⟩

/-- The fields of the mailbox other than the queues do not matter. -/
theorem Queues.setMbox {m : Mbox} (h : Queues ph s) (hsenders : m.senders = s.mbox.senders)
    (hreceivers : m.receivers = s.mbox.receivers) : Queues ph (s.setMbox m) := by
  have hqueue : ∀ side, m.queue side = s.mbox.queue side := fun side => by
    cases side with
    | send => exact hsenders
    | recv => exact hreceivers
  refine ⟨fun side => ?_, fun side q hq => ?_, h.live, fun q side hq hmem => ?_⟩
  · show (m.queue side).Nodup
    rw [hqueue]
    exact h.nodup side
  · refine h.queued side q ?_
    rw [← hqueue]
    exact hq
  · refine h.awake q side hq ?_
    rw [← hqueue]
    exact hmem

theorem Queues.rouse (h : Queues ph s) (hp : p ∈ s.mbox.queue side) :
    Queues ph (s.rouse p side flags) := by
  refine ⟨fun side' => ?_, fun side' q hq => ?_, fun q hq => ?_, fun q side' hq hmem => ?_⟩
  · rw [queue_rouse]
    split
    · exact (h.nodup side).erase p
    · exact h.nodup side'
  · rw [queue_rouse] at hq
    split at hq
    · rename_i heq
      subst heq
      exact h.queued side' q (mem_of_mem_erase hq)
    · exact h.queued side' q hq
  · exact (state_of_eq_or (rouse_proc q)).1 (h.live q hq)
  · rcases eq_or_ne q p with rfl | hqp
    · show ((s.sched.wake q).proc q).state = .runnable
      rw [proc_wake_self]
      exact Proc.state_woken
    · refine (state_of_eq_or (rouse_proc q)).2 (h.awake q side' hq fun hold => hmem ?_)
      rw [queue_rouse]
      split
      · rename_i heq
        subst heq
        exact (mem_erase_of_ne hqp).mpr hold
      · exact hold

theorem wp_mboxWakeupWait_rouse (h : Queues ph s) (hp : p ∈ s.mbox.queue side)
    (hQ : Q () (s.rouse p side flags)) : (mboxWakeupWait p side flags).wp H E Q s := by
  have hlive := h.live p (by simp [h.queued side p hp])
  rw [mboxWakeupWait, wp_put, wp_inSched]
  exact wp_wakeupProc hlive hQ

/-- `wakeup_queue` empties a queue. -/
theorem wp_wakeupQueue_all (h : Queues ph s) (hl : s.mbox.queue side = l)
    (hQ : ∀ s', Queues ph s' → SameBox s.mbox s'.mbox → s'.mbox.queue side = [] →
      (∀ side', side' ≠ side → s'.mbox.queue side' = s.mbox.queue side') → Q () s') :
    (wakeupQueue side flags l).wp H E Q s := by
  induction l generalizing s with
  | nil => exact hQ s h .refl hl fun _ _ => rfl
  | cons q l ih =>
    have hq : q ∈ s.mbox.queue side := by
      rw [hl]
      exact .head _
    rw [wakeupQueue, wp_bind]
    refine wp_mboxWakeupWait_rouse h hq (ih (h.rouse hq) ?_ fun s' h' hsame hnil hother => ?_)
    · rw [queue_rouse, if_pos rfl, hl, erase_cons_head]
    · refine hQ s' h' (sameBox_rouse.trans hsame) hnil fun side' hside => ?_
      rw [hother side' hside, queue_rouse, if_neg hside]

/-! ## Rights to look -/

/-- The processes inside `send_msg` and `recv_msg`. -/
def insiders (ph : ℕ → Phase) : Set ℕ := {p | (ph p).side ≠ none}

/-- The receivers that were taken out of the queue for a message and have not looked yet. -/
def lookers (ph : ℕ → Phase) (s : MboxSys) : Set ℕ :=
  {p | (ph p).side = some .recv ∧ p ∉ s.mbox.receivers ∧ s.wakeupFlags p = wtMboxRecv}

/-- What holds while `k` more processes run inside, which hold `t` more rights to look. -/
structure BoxInv (ph : ℕ → Phase) (k t : ℕ) (s : MboxSys) : Prop extends Queues ph s where
  inuse : (insiders ph).encard + k = s.mbox.inuse
  rights : s.mbox.state = .opened → s.mbox.receivers ≠ [] →
    (s.mbox.slots : ℕ∞) ≤ (lookers ph s).encard + t
  shut : s.mbox.state ≠ .opened → s.mbox.Emptied
  ended : s.mbox.state = .closed → s.mbox.inuse = 0

theorem BoxInv.le (h : BoxInv ph k t s) (ht : t ≤ t') : BoxInv ph k t' s := by
  refine { h with rights := fun hopened hne => (h.rights hopened hne).trans ?_ }
  gcongr

/-- Only the sides of the places matter. -/
theorem BoxInv.congr (h : BoxInv ph k t s) (hside : ∀ q, (ph' q).side = (ph q).side) :
    BoxInv ph' k t s := by
  have hinsiders : insiders ph' = insiders ph := by
    ext q
    show (ph' q).side ≠ none ↔ (ph q).side ≠ none
    rw [hside]
  have hlookers : lookers ph' s = lookers ph s := by
    ext q
    show (ph' q).side = some .recv ∧ _ ↔ (ph q).side = some .recv ∧ _
    rw [hside]
  refine ⟨⟨h.nodup, fun side q hq => ?_, fun q hq => ?_, fun q side hq => ?_⟩, ?_,
    fun hopened hne => ?_, h.shut, h.ended⟩
  · rw [hside]
    exact h.queued side q hq
  · rw [hside] at hq
    exact h.live q hq
  · rw [hside] at hq
    exact h.awake q side hq
  · rw [hinsiders]
    exact h.inuse
  · rw [hlookers]
    exact h.rights hopened hne

/-- A change of the scheduler only. -/
theorem BoxInv.sched (h : BoxInv ph k t s) (hmbox : s'.mbox = s.mbox)
    (hflags : s'.wakeupFlags = s.wakeupFlags)
    (hproc : ∀ q, (ph q).side ≠ none →
      s'.sched.proc q = s.sched.proc q ∨ (s'.sched.proc q).state = .runnable) :
    BoxInv ph k t s' := by
  have hlookers : lookers ph s' = lookers ph s := by
    rw [lookers, lookers, hmbox, hflags]
  refine ⟨⟨?_, ?_, fun q hq => (state_of_eq_or (hproc q hq)).1 (h.live q hq),
    fun q side hq hmem => ?_⟩, ?_, ?_, ?_, ?_⟩
  · rw [hmbox]
    exact h.nodup
  · rw [hmbox]
    exact h.queued
  · rw [hmbox] at hmem
    exact (state_of_eq_or (hproc q (by simp [hq]))).2 (h.awake q side hq hmem)
  · rw [hmbox]
    exact h.inuse
  · rw [hmbox, hlookers]
    exact h.rights
  · rw [hmbox]
    exact h.shut
  · rw [hmbox]
    exact h.ended

/-- A process inside makes the mailbox one that was not closed. -/
theorem BoxInv.closing_of_ne (h : BoxInv ph (k + 1) t s) (hstate : s.mbox.state ≠ .opened) :
    s.mbox.state = .closing := by
  cases hs : s.mbox.state with
  | opened => exact absurd hs hstate
  | closing => rfl
  | closed =>
    have hinuse := h.inuse
    rw [h.ended hs] at hinuse
    simp at hinuse

theorem BoxInv.rouse (h : BoxInv ph k t' s) (hp : p ∈ s.mbox.queue side)
    (hrights : s.mbox.state = .opened → s.mbox.receivers ≠ [] →
      (lookers ph s).encard + t' ≤ (lookers ph (s.rouse p side flags)).encard + t) :
    BoxInv ph k t (s.rouse p side flags) := by
  have hsame : SameBox s.mbox (s.rouse p side flags).mbox := sameBox_rouse
  have hopened : s.mbox.state = .opened := by
    by_contra hstate
    rw [(h.shut hstate).queue] at hp
    cases hp
  refine ⟨h.toQueues.rouse hp, ?_, fun _ hne => ?_, fun hstate => ?_, fun hstate => ?_⟩
  · rw [hsame.inuse]
    exact h.inuse
  · have hreceivers : s.mbox.receivers ≠ [] := by
      intro hnil
      cases side with
      | send => exact hne hnil
      | recv =>
        refine absurd hp ?_
        show p ∉ s.mbox.receivers
        rw [hnil]
        exact not_mem_nil
    rw [hsame.slots]
    exact (h.rights hopened hreceivers).trans (hrights hopened hreceivers)
  · exact absurd (hsame.state.trans hopened) hstate
  · cases hopened.symm.trans (hsame.state.symm.trans hstate)

/-- A wake-up takes no right to look away. -/
theorem lookers_rouse (h : Queues ph s) (hp : p ∈ s.mbox.queue side) :
    lookers ph s ⊆ lookers ph (s.rouse p side flags) := by
  rintro q ⟨hside, hmem, hflags⟩
  have hqp : q ≠ p := by
    rintro rfl
    have heq := h.queued side q hp
    cases hside.symm.trans heq
    exact hmem hp
  refine ⟨hside, fun hq => hmem ?_, ?_⟩
  · have hmem' : q ∈ (s.rouse p side flags).mbox.queue .recv := hq
    rw [queue_rouse] at hmem'
    split at hmem'
    · rename_i heq
      subst heq
      exact mem_of_mem_erase hmem'
    · exact hmem'
  · show update s.wakeupFlags p flags q = wtMboxRecv
    rw [update_of_ne hqp]
    exact hflags

/-- `wakeup_first` for the senders. -/
theorem wp_wakeupFirst_send (h : BoxInv ph k t s)
    (hQ : ∀ s', BoxInv ph k t s' → SameBox s.mbox s'.mbox → Q () s') :
    (wakeupFirst .send flags).wp H E Q s := by
  rw [wakeupFirst, wp_get]
  cases hqueue : s.mbox.queue .send with
  | nil => exact hQ s h .refl
  | cons q l =>
    have hq : q ∈ s.mbox.queue .send := by
      rw [hqueue]
      exact .head _
    refine wp_mboxWakeupWait_rouse h.toQueues hq (hQ _ (h.rouse hq fun _ _ => ?_) sameBox_rouse)
    gcongr
    exact lookers_rouse h.toQueues hq

/-- `wakeup_first` for the receivers hands a right to look to the first of them. -/
theorem wp_wakeupFirst_recv (h : BoxInv ph k (t + 1) s)
    (hQ : ∀ s', BoxInv ph k t s' → SameBox s.mbox s'.mbox → Q () s') :
    (wakeupFirst .recv wtMboxRecv).wp H E Q s := by
  rw [wakeupFirst, wp_get]
  cases hqueue : s.mbox.queue .recv with
  | nil => exact hQ s { h with rights := fun _ => absurd hqueue } .refl
  | cons q l =>
    have hq : q ∈ s.mbox.queue .recv := by
      rw [hqueue]
      exact .head _
    refine wp_mboxWakeupWait_rouse h.toQueues hq (hQ _ (h.rouse hq fun _ _ => ?_) sameBox_rouse)
    -- the process that is woken up was no looker and is one now
    have hnot : q ∉ lookers ph s := fun hlook => hlook.2.1 hq
    have hsub : insert q (lookers ph s) ⊆ lookers ph (s.rouse q .recv wtMboxRecv) := by
      refine Set.insert_subset ⟨h.queued .recv q hq, ?_, ?_⟩ (lookers_rouse h.toQueues hq)
      · exact (h.nodup .recv).not_mem_erase
      · exact update_self q _ s.wakeupFlags
    calc (lookers ph s).encard + (t + 1 : ℕ) = (insert q (lookers ph s)).encard + t := by
          rw [Set.encard_insert_of_notMem hnot, Nat.cast_add, Nat.cast_one, add_assoc,
            add_comm (t : ℕ∞) 1]
      _ ≤ (lookers ph (s.rouse q .recv wtMboxRecv)).encard + t := by
          gcongr

/-! ## Messages -/

/-- The messages of an open mailbox may change if the rights to look allow it. -/
theorem BoxInv.setMsgs {slots : ℕ} {msgs : List Msg} (h : BoxInv ph k t s)
    (hopened : s.mbox.state = .opened)
    (hslots : s.mbox.slots ≤ (lookers ph s).encard + t → (slots : ℕ∞) ≤
      (lookers ph s).encard + t') :
    BoxInv ph k t' (s.setMbox { s.mbox with slots := slots, msgs := msgs }) := by
  exact ⟨h.toQueues.setMbox rfl rfl, h.inuse, fun _ hne => hslots (h.rights hopened hne),
    (absurd hopened), h.ended⟩

/-- A message that is added wakes a receiver up to look at it. -/
theorem wp_addMsg_box {msg : Msg} {append : Bool} (h : BoxInv ph k t s)
    (hopened : s.mbox.state = .opened)
    (hQ : ∀ s', BoxInv ph k t s' → s'.mbox.state = .opened → s'.mbox.inuse = s.mbox.inuse →
      Q () s') : (addMsg msg append).wp H E Q s := by
  refine wp_check hopened ?_
  have hadd : BoxInv ph k (t + 1) (s.setMbox { s.mbox with
      slots := s.mbox.slots + 1
      msgs := if append then s.mbox.msgs ++ [msg] else msg :: s.mbox.msgs }) := by
    refine h.setMsgs hopened fun hle => ?_
    rw [Nat.cast_add, Nat.cast_add, ← add_assoc]
    gcongr
  exact wp_wakeupFirst_recv hadd fun s' h' hsame =>
    hQ s' h' (hsame.state.trans hopened) hsame.inuse

/-- A receiver that looks takes a message, or keeps its right. -/
theorem wp_pickMsg_box {maxBytes : ℕ} {Q : Option Msg → MboxSys → Prop} (h : BoxInv ph k 1 s)
    (hnone : s.mbox.state = .opened → Q none s)
    (hsome : ∀ msg s', BoxInv ph k 0 s' → s'.mbox.state = .opened → Q (some msg) s') :
    (pickMsg maxBytes).wp True Any Q s := by
  refine wp_assume trivial fun hopened => ?_
  cases s.mbox.msgs with
  | nil => trivial
  | cons msg rest =>
    refine wp_if (fun _ => hnone hopened.1) fun _ => ?_
    rw [wp_put, wp_bind]
    have hpick : BoxInv ph k 0
        (s.setMbox { s.mbox with slots := s.mbox.slots - 1, msgs := rest }) := by
      refine h.setMsgs hopened.1 fun hle => ?_
      obtain ⟨n, hn⟩ := Nat.exists_eq_succ_of_ne_zero (Nat.ne_of_gt hopened.2)
      rw [hn, Nat.succ_eq_add_one] at hle
      rw [hn, Nat.cast_zero, add_zero]
      exact (ENat.add_le_add_iff_right (by simp)).mp hle
    exact wp_wakeupFirst_send hpick fun s' h' hsame => hsome msg s' h' (hsame.state.trans hopened.1)

/-! ## Coming and going -/

/-- What the end of `send_msg` and `recv_msg` does to the state of the mailbox: the last process
to leave a mailbox that is closing frees it. -/
structure Out (m m' : Mbox) : Prop where
  state : m'.state = if m.state = .closing ∧ m.inuse = 1 then .closed else m.state
  inuse : m'.inuse = m.inuse - 1

/-- `mbox_free` finds what it asserts. -/
theorem wp_mboxFree_box (h : BoxInv ph k t s) (hclosing : s.mbox.state = .closing)
    (hinuse : s.mbox.inuse = 0)
    (hQ : ∀ s', BoxInv ph k t s' → s'.mbox.state = .closed → s'.mbox.inuse = 0 → Q () s') :
    (mboxFree).wp H E Q s := by
  have hempty := h.shut (by simp [hclosing])
  refine wp_check ⟨hclosing, hinuse⟩ ?_
  refine wp_check hempty.msgs ?_
  refine wp_check hempty.senders ?_
  refine wp_check hempty.receivers (hQ _ ?_ rfl hinuse)
  exact ⟨h.toQueues.setMbox rfl rfl, h.inuse, fun hopened => absurd hopened (by simp [setMbox]),
    fun _ => { hempty with }, fun _ => hinuse⟩

/-- The number of processes inside may change while the mailbox is not closed. -/
theorem BoxInv.setInuse {n : ℕ} {k' : ℕ} (h : BoxInv ph k t s) (hstate : s.mbox.state ≠ .closed)
    (hn : (insiders ph).encard + k' = n) :
    BoxInv ph k' t (s.setMbox { s.mbox with inuse := n }) := by
  exact ⟨h.toQueues.setMbox rfl rfl, hn, h.rights,
    fun hnot => ⟨(h.shut hnot).senders, (h.shut hnot).receivers, (h.shut hnot).msgs⟩,
    fun hclosed => absurd hclosed hstate⟩

theorem wp_mboxOut_box {failed : Bool} (h : BoxInv ph 1 t s)
    (hfailed : s.mbox.state ≠ .opened → failed = true)
    (hQ : ∀ s', BoxInv ph 0 t s' → Out s.mbox s'.mbox → Q () s') : (mboxOut failed).wp H E Q s := by
  have hopen : s.mbox.state ≠ .closed := fun hclosed => by
    have hclosing := BoxInv.closing_of_ne h (by simp [hclosed])
    cases hclosed.symm.trans hclosing
  obtain ⟨n, hn⟩ : ∃ n, s.mbox.inuse = n + 1 := by
    refine Nat.exists_eq_succ_of_ne_zero fun hzero => ?_
    have hinuse := h.inuse
    rw [hzero] at hinuse
    simp at hinuse
  have hcount : (insiders ph).encard + (0 : ℕ) = (s.mbox.inuse - 1 : ℕ) := by
    have hinuse := h.inuse
    rw [hn] at hinuse
    rw [hn, Nat.cast_zero, add_zero]
    exact ENat.add_left_injective_of_ne_top (by simp) hinuse
  have hleft := h.setInuse hopen hcount
  rw [mboxOut, wp_put, wp_get]
  refine wp_if (fun hstate => ?_) fun hstate => hQ _ hleft ⟨?_, rfl⟩
  · have hclosing : s.mbox.state = .closing := BoxInv.closing_of_ne h hstate
    refine wp_check ⟨hfailed hstate, hclosing⟩ ?_
    refine wp_if (fun hzero => wp_mboxFree_box hleft hclosing hzero fun s' h' hclosed hinuse =>
      hQ s' h' ⟨?_, ?_⟩) fun hnot => hQ _ hleft ⟨?_, rfl⟩
    · have hone : s.mbox.inuse - 1 = 0 := hzero
      rw [if_pos ⟨hclosing, by omega⟩]
      exact hclosed
    · exact hinuse.trans hzero.symm
    · have hone : s.mbox.inuse - 1 ≠ 0 := hnot
      rw [if_neg fun hand => hone (by omega)]
      rfl
  · have hopened : s.mbox.state = .opened := not_not.mp hstate
    rw [if_neg fun hand => absurd (hopened.symm.trans hand.1) (by simp)]
    rfl

/-- What one process does to its own place and entry, seen from the others. -/
structure Apart (ph ph' : ℕ → Phase) (s s' : MboxSys) (p : ℕ) : Prop where
  place : ∀ q, q ≠ p → ph' q = ph q
  queue : ∀ side q, q ≠ p → (q ∈ s'.mbox.queue side ↔ q ∈ s.mbox.queue side)
  proc : ∀ q, q ≠ p → s'.sched.proc q = s.sched.proc q
  flags : ∀ q, q ≠ p → s'.wakeupFlags q = s.wakeupFlags q

theorem Queues.apart (h : Queues ph s) (hapart : Apart ph ph' s s' p)
    (hnodup : ∀ side, (s'.mbox.queue side).Nodup)
    (hqueued : ∀ side, p ∈ s'.mbox.queue side → (ph' p).side = some side)
    (hlive : (ph' p).side ≠ none → (s'.sched.proc p).state ≠ .zombie)
    (hawake : ∀ side, (ph' p).side = some side → p ∉ s'.mbox.queue side →
      (s'.sched.proc p).state = .runnable) : Queues ph' s' := by
  refine ⟨hnodup, fun side q hq => ?_, fun q hq => ?_, fun q side hq hnot => ?_⟩
  · rcases eq_or_ne q p with rfl | hqp
    · exact hqueued side hq
    · rw [hapart.place q hqp]
      exact h.queued side q ((hapart.queue side q hqp).mp hq)
  · rcases eq_or_ne q p with rfl | hqp
    · exact hlive hq
    · rw [hapart.place q hqp] at hq
      rw [hapart.proc q hqp]
      exact h.live q hq
  · rcases eq_or_ne q p with rfl | hqp
    · exact hawake side hq hnot
    · rw [hapart.place q hqp] at hq
      rw [hapart.proc q hqp]
      exact h.awake q side hq fun hold => hnot ((hapart.queue side q hqp).mpr hold)

theorem Apart.lookers (hapart : Apart ph ph' s s' p) {q : ℕ} (hq : q ∈ lookers ph s)
    (hqp : q ≠ p) : q ∈ lookers ph' s' := by
  obtain ⟨hside, hnot, hflags⟩ := hq
  refine ⟨?_, fun hmem => hnot ((hapart.queue .recv q hqp).mp hmem), ?_⟩
  · rw [hapart.place q hqp]
    exact hside
  · rw [hapart.flags q hqp]
    exact hflags

/-- One process more is inside. -/
theorem encard_insiders (hplace : ∀ q, q ≠ p → ph' q = ph q) (hp : (ph p).side = none)
    (hp' : (ph' p).side ≠ none) : (insiders ph').encard = (insiders ph).encard + 1 := by
  have hinsert : insiders ph' = insert p (insiders ph) := by
    ext q
    rcases eq_or_ne q p with rfl | hqp
    · exact iff_of_true hp' (.inl rfl)
    · show (ph' q).side ≠ none ↔ q = p ∨ (ph q).side ≠ none
      rw [hplace q hqp]
      exact (or_iff_right hqp).symm
  have hnot : p ∉ insiders ph := fun hmem => hmem hp
  rw [hinsert, Set.encard_insert_of_notMem hnot]

theorem apart_unwait : Apart ph (update ph p .idle) s (s.unwait p side) p := by
  refine ⟨fun q hq => update_of_ne hq _ ph, fun side' q hq => ?_, fun _ _ => rfl, fun _ _ => rfl⟩
  rw [unwait, setQueue, setMbox, Mbox.queue_setQueue]
  split
  · rename_i heq
    rw [heq, mem_erase_of_ne hq]
  · rfl

theorem Queues.notMem_unwait (h : Queues ph s) (hp : (ph p).side = some side) (side' : Side) :
    p ∉ (s.unwait p side).mbox.queue side' := by
  rw [unwait, setQueue, MboxSys.setMbox, Mbox.queue_setQueue]
  split
  · exact (h.nodup side).not_mem_erase
  · rename_i hside
    intro hmem
    have heq := h.queued side' p hmem
    rw [hp, Option.some.injEq] at heq
    exact hside heq.symm

theorem Queues.leave (h : Queues ph s) (hp : (ph p).side = some side) :
    Queues (update ph p .idle) (s.unwait p side) := by
  have hself : (update ph p Phase.idle p).side = none := by
    rw [update_self]
    rfl
  refine h.apart apart_unwait (fun side' => ?_)
    (fun side' hmem => absurd hmem (h.notMem_unwait hp side')) (absurd hself)
    fun side' hside => absurd (hself.symm.trans hside) (by simp)
  rw [unwait, setQueue, MboxSys.setMbox, Mbox.queue_setQueue]
  split
  · exact (h.nodup side).erase p
  · exact h.nodup side'

/-- A process leaves its queue after `schedule`. What it was woken up for counts as a right to
look. -/
theorem BoxInv.leave (h : BoxInv ph 0 0 s) (hp : (ph p).side = some side)
    (ht : s.mbox.state = .opened → side = .recv → s.wakeupFlags p = wtMboxRecv → 1 ≤ t) :
    BoxInv (update ph p .idle) 1 t (s.unwait p side) := by
  have hsame : SameBox s.mbox (s.unwait p side).mbox := sameBox_setQueue
  have hapart : Apart ph (update ph p .idle) s (s.unwait p side) p := apart_unwait
  have hout := h.toQueues.notMem_unwait hp
  -- the queues only lose the process
  have hnil : ∀ side', s.mbox.queue side' = [] → (s.unwait p side).mbox.queue side' = [] := by
    intro side' hnil
    refine eq_nil_iff_forall_not_mem.mpr fun q hq => ?_
    have hqp : q ≠ p := fun heq => hout side' (heq ▸ hq)
    have hold := (hapart.queue side' q hqp).mp hq
    rw [hnil] at hold
    cases hold
  refine ⟨h.toQueues.leave hp, ?_, fun hopened hreceivers => ?_, fun hstate => ?_, fun hstate => ?_⟩
  · have hself : (update ph p Phase.idle p).side = none := by
      rw [update_self]
      rfl
    have hinuse := h.inuse
    rw [encard_insiders (fun q hq => (hapart.place q hq).symm) hself (by simp [hp]), Nat.cast_zero,
      add_zero] at hinuse
    rw [hsame.inuse]
    exact hinuse
  · rw [hsame.slots]
    have hopened' := hsame.state.symm.trans hopened
    refine (h.rights hopened' fun hempty => hreceivers (hnil .recv hempty)).trans ?_
    rw [Nat.cast_zero, add_zero]
    by_cases hlook : p ∈ lookers ph s
    · have hside : side = .recv := Option.some.inj (hp.symm.trans hlook.1)
      have hone : (1 : ℕ∞) ≤ t := by
        exact_mod_cast ht hopened' hside hlook.2.2
      calc (lookers ph s).encard
          ≤ (insert p (lookers (update ph p .idle) (s.unwait p side))).encard := by
            refine Set.encard_mono fun q hq => ?_
            by_cases hqp : q = p
            · exact .inl hqp
            · exact .inr (hapart.lookers hq hqp)
        _ ≤ (lookers (update ph p .idle) (s.unwait p side)).encard + 1 :=
            Set.encard_insert_le _ _
        _ ≤ _ := by gcongr
    · refine le_add_right (Set.encard_mono fun q hq => hapart.lookers hq ?_)
      rintro rfl
      exact hlook hq
  · have hempty := h.shut fun hopened => hstate (hsame.state.trans hopened)
    exact ⟨hnil .send hempty.senders, hnil .recv hempty.receivers, hsame.msgs.trans hempty.msgs⟩
  · exact hsame.inuse.trans (h.ended (hsame.state.symm.trans hstate))

theorem apart_wait : Apart ph (update ph p (.waiting want c)) s (s.wait p side) p := by
  refine ⟨fun q hq => update_of_ne hq _ ph, fun side' q hq => ?_,
    fun q hq => update_of_ne hq _ s.sched.proc,
    fun q hq => update_of_ne hq _ s.wakeupFlags⟩
  rw [wait, setQueue, setMbox, Mbox.queue_setQueue]
  split
  · rename_i heq
    rw [heq, mem_append, mem_singleton, or_iff_left hq]
  · rfl

theorem Queues.wait (h : Queues ph s) (hp : (ph p).side = none) :
    Queues (update ph p (.waiting want c)) (s.wait p want.side) := by
  have hself : (update ph p (Phase.waiting want c) p).side = some want.side := by
    rw [update_self]
    rfl
  have hqueue : ∀ side', (s.wait p want.side).mbox.queue side' =
      if side' = want.side then s.mbox.queue want.side ++ [p] else s.mbox.queue side' :=
    fun _ => Mbox.queue_setQueue
  have hout : ∀ side', p ∉ s.mbox.queue side' := fun side' hmem => by
    have hside := h.queued side' p hmem
    rw [hp] at hside
    cases hside
  refine h.apart apart_wait (fun side' => ?_) (fun side' hmem => ?_) (fun _ => ?_)
    fun side' hside hnot => absurd ?_ hnot
  · rw [hqueue]
    split
    · exact nodup_append.mpr ⟨h.nodup want.side, nodup_singleton p, fun a ha b hb heq =>
        hout want.side (mem_singleton.mp hb ▸ heq ▸ ha)⟩
    · exact h.nodup side'
  · rw [hqueue] at hmem
    split at hmem
    · rename_i heq
      rw [heq]
      exact hself
    · exact absurd hmem (hout side')
  · have hsleep : (s.wait p want.side).sched.proc p = ⟨.sleeping, want.side.waitState⟩ :=
      update_self p _ s.sched.proc
    rw [hsleep]
    simp
  · rw [hqueue, if_pos (Option.some.inj (hself.symm.trans hside)).symm]
    exact mem_append_right _ (mem_singleton_self p)

/-- A process that runs inside goes to sleep: a receiver only if there is nothing to look at. -/
theorem BoxInv.wait (h : BoxInv ph 1 t s) (hp : (ph p).side = none)
    (hopened : s.mbox.state = .opened) (hslots : want.side = .recv → s.mbox.slots = 0)
    (ht : want.side = .send → t = 0) :
    BoxInv (update ph p (.waiting want c)) 0 0 (s.wait p want.side) := by
  have hsame : SameBox s.mbox (s.wait p want.side).mbox := sameBox_setQueue
  have hopened' := hsame.state.trans hopened
  have hself : (update ph p (Phase.waiting want c) p).side = some want.side := by
    rw [update_self]
    rfl
  refine ⟨h.toQueues.wait hp, ?_, fun _ hreceivers => ?_, absurd hopened',
    fun hstate => absurd (hopened'.symm.trans hstate) (by simp)⟩
  · have hne : (update ph p (Phase.waiting want c) p).side ≠ none := fun hnone =>
      absurd (hself.symm.trans hnone) (by simp)
    rw [encard_insiders (fun q hq => update_of_ne hq _ ph) hp hne, hsame.inuse,
      Nat.cast_zero, add_zero]
    exact h.inuse
  · rw [hsame.slots]
    cases hside : want.side with
    | recv =>
      rw [hslots hside]
      exact zero_le
    | send =>
      rw [hside] at hreceivers
      have hrights := h.rights hopened hreceivers
      rw [ht hside] at hrights
      refine hrights.trans ?_
      gcongr
      intro q hq
      refine apart_wait.lookers hq ?_
      rintro rfl
      cases hp.symm.trans hq.1

end Ucore.Sync
