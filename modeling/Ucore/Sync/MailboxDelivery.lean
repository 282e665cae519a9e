import Ucore.Sync.MailboxLedger
import Ucore.Sync.MailboxWakeups

/-!
# Delivery of messages

In every run in which a message that could not be copied is put back only while its mailbox is
still open and no message was taken after it, each message is received at most once, on the
opening it was sent to and in its turn. Every message is freed once. A message that is put back
later can come into a mailbox that was closed and opened again under the same number.
-/

namespace Ucore.Sync

open Kern Function List

namespace Ledger

variable {l l' l'' : Ledger} {p n : ℕ} {msg : Msg}

/-- What happens to the message of one process, seen from the others. -/
structure Apart (l l' : Ledger) (p : ℕ) : Prop where
  hand : ∀ q, q ≠ p → l'.hand q = l.hand q
  source : ∀ q, q ≠ p → l'.source q = l.source q
  content : ∀ q m, q ≠ p → l.hand q = some m → l'.content m = l.content m
  home : ∀ q m, q ≠ p → l.hand q = some m → l'.home m = l.home m
  taken : ∀ q m, q ≠ p → l.hand q = some m → m ∈ l.taken → m ∈ l'.taken

theorem Apart.refl : Apart l l p :=
  ⟨fun _ _ => rfl, fun _ _ => rfl, fun _ _ _ _ => rfl, fun _ _ _ _ => rfl, fun _ _ _ _ h => h⟩

theorem Apart.trans (h : Apart l l' p) (h' : Apart l' l'' p) : Apart l l'' p := by
  have hhand : ∀ q m, q ≠ p → l.hand q = some m → l'.hand q = some m :=
    fun q m hq hm => (h.hand q hq).trans hm
  refine ⟨fun q hq => (h'.hand q hq).trans (h.hand q hq),
    fun q hq => (h'.source q hq).trans (h.source q hq), fun q m hq hm => ?_, fun q m hq hm => ?_,
    fun q m hq hm hmem => ?_⟩
  · exact (h'.content q m hq (hhand q m hq hm)).trans (h.content q m hq hm)
  · exact (h'.home q m hq (hhand q m hq hm)).trans (h.home q m hq hm)
  · exact h'.taken q m hq (hhand q m hq hm) (h.taken q m hq hm hmem)

/-- Two processes hold two messages. -/
theorem Orderly.ne_of_hand {q m : ℕ} (h : l.Orderly) (hp : l.hand p = some n) (hq : q ≠ p)
    (hm : l.hand q = some m) : m ≠ n := by
  rintro rfl
  exact hq (h.custody.oneHand q p m hm hp)

theorem Orderly.apart_load (h : l.Orderly) : Apart l (l.load p msg) p := by
  refine ⟨fun q hq => update_of_ne hq _ l.hand, fun _ _ => rfl, fun q m _ hm => ?_,
    fun _ _ _ _ => rfl, fun _ _ _ _ h => h⟩
  exact update_of_ne (h.custody.lt_of_hand hm).ne _ l.content

theorem Orderly.apart_post (h : l.Orderly) (hp : l.hand p = some n) : Apart l (l.post p) p := by
  rw [post_eq hp]
  exact ⟨fun q hq => update_of_ne hq _ l.hand, fun _ _ => rfl, fun _ _ _ _ => rfl,
    fun q m hq hm => update_of_ne (h.ne_of_hand hp hq hm) _ l.home, fun _ _ _ _ h => h⟩

theorem apart_pick {queue : List ℕ} (hqueue : l.queue = n :: queue) : Apart l (l.pick p) p := by
  rw [pick_eq hqueue]
  exact ⟨fun q hq => update_of_ne hq _ l.hand,
    fun q hq => update_of_ne hq _ l.source, fun _ _ _ _ => rfl, fun _ _ _ _ => rfl,
    fun _ _ _ _ h => mem_append_left [n] h⟩

theorem apart_release : Apart l (l.release p) p := by
  cases hp : l.hand p with
  | none =>
    rw [release_of_none hp]
    exact .refl
  | some n =>
    rw [release_eq hp]
    exact ⟨fun q hq => update_of_ne hq _ l.hand, fun _ _ => rfl, fun _ _ _ _ => rfl,
      fun _ _ _ _ => rfl, fun _ _ _ _ h => h⟩

theorem apart_receive (hp : l.hand p = some n) : Apart l (l.receive p) p := by
  rw [receive_eq hp]
  exact ⟨fun q hq => update_of_ne hq _ l.hand, fun _ _ => rfl, fun _ _ _ _ => rfl,
    fun _ _ _ _ => rfl, fun _ _ _ _ h => h⟩

theorem Orderly.apart_restore (h : l.Orderly) (hp : l.hand p = some n) :
    Apart l (l.restore p) p := by
  rw [restore_eq hp]
  exact ⟨fun q hq => update_of_ne hq _ l.hand, fun _ _ => rfl, fun _ _ _ _ => rfl,
    fun _ _ _ _ => rfl,
    fun q m hq hm hmem => (mem_erase_of_ne (h.ne_of_hand hp hq hm)).mpr hmem⟩

/-- What a process holds in its place. -/
def Holds (l : Ledger) (p : ℕ) : Phase → Prop
  | .waiting (.send msg) _ => ∃ n, l.hand p = some n ∧ l.content n = msg ∧ l.home n = none
  | .copying msg => ∃ n, l.hand p = some n ∧ l.content n = msg ∧
      l.home n = some (l.source p) ∧ n ∈ l.taken
  | _ => l.hand p = none

theorem Apart.holds {q : ℕ} {x : Phase} (h : Apart l l' p) (hq : q ≠ p) (hx : l.Holds q x) :
    l'.Holds q x := by
  have hhand := h.hand q hq
  cases x with
  | idle | sleeping => exact hhand.trans hx
  | copying msg =>
    obtain ⟨n, hn, hcontent, hhome, htaken⟩ := hx
    refine ⟨n, hhand.trans hn, (h.content q n hq hn).trans hcontent, ?_, h.taken q n hq hn htaken⟩
    rw [h.home q n hq hn, h.source q hq]
    exact hhome
  | waiting want c =>
    cases want with
    | recv maxBytes => exact hhand.trans hx
    | send msg =>
      obtain ⟨n, hn, hcontent, hhome⟩ := hx
      exact ⟨n, hhand.trans hn, (h.content q n hq hn).trans hcontent,
        (h.home q n hq hn).trans hhome⟩

end Ledger

/-! ## The mailbox and its ledger -/

/-- A mailbox with the ledger of its messages. -/
structure Post where
  box : Mailbox
  ledger : Ledger

/-- The steps: those of the mailbox, and a call of `ipc_mbox_send` that has loaded its message and
then finds no mailbox. -/
inductive PostCall where
  | call (c : MboxCall)
  | refuse (p : ℕ) (msg : Msg)

namespace Post

variable {s s' : Post} {driver : ℕ → ℕ → SchedM Unit} {p : ℕ}

/-- One step, recorded. -/
def Step (driver : ℕ → ℕ → SchedM Unit) (s : Post) : PostCall → Post → Prop
  | .call c, s' => ∃ box, Mailbox.Step driver s.box c box ∧
      s' = ⟨box, s.ledger.record s.box.sys.mbox c⟩
  | .refuse p msg, s' => (s.box.proc p).state = .runnable ∧ s.box.phase p = .idle ∧
      s.box.sys.mbox.state ≠ .opened ∧ s' = { s with ledger := (s.ledger.load p msg).release p }

/-- The kernel's state and the ledger agree. -/
structure Agrees (s : Post) : Prop where
  attended : s.box.Attended
  orderly : s.ledger.Orderly
  msgs : s.ledger.queue.map s.ledger.content = s.box.sys.mbox.msgs
  holds : ∀ p, s.ledger.Holds p (s.box.phase p)

variable {sys : MboxSys} {m : Mbox} {box : Mailbox} {l : Ledger} {msg : Msg} {n : ℕ} {x : Phase}
  {r : MboxResult} {c : WaitCall}

section

variable (h : s.Agrees)
include h

/-- A step of one process. -/
theorem Agrees.move (hattended : (s.box.move p sys x).Attended) (horderly : l.Orderly)
    (hapart : s.ledger.Apart l p) (hmsgs : l.queue.map l.content = sys.mbox.msgs)
    (hself : l.Holds p x) : Agrees ⟨s.box.move p sys x, l⟩ := by
  refine ⟨hattended, horderly, hmsgs, fun q => ?_⟩
  show l.Holds q (update s.box.phase p x q)
  by_cases hq : q = p
  · rw [hq, update_self]
    exact hself
  · rw [update_of_ne hq]
    exact hapart.holds hq (h.holds q)

/-- A process that holds no message goes to a place where it holds none. -/
theorem Agrees.stays (hattended : (s.box.move p sys x).Attended) (hx : s.ledger.Holds p x)
    (hmsgs : sys.mbox.msgs = s.box.sys.mbox.msgs) : Agrees ⟨s.box.move p sys x, s.ledger⟩ :=
  h.move hattended h.orderly .refl (h.msgs.trans hmsgs.symm) hx

section

variable (hattended : (s.box.move p sys .idle).Attended) (horderly : l.Orderly)
  (hapart : s.ledger.Apart l p)
include hattended horderly hapart

/-- `send_msg` returns 0. -/
theorem Agrees.sends (hn : l.hand p = some n) (hhome : l.home n = none)
    (hqueue : l.queue.map l.content = s.box.sys.mbox.msgs)
    (hmsgs : sys.mbox.msgs = s.box.sys.mbox.msgs ++ [l.content n]) :
    Agrees ⟨s.box.move p sys .idle, l.post p⟩ := by
  refine h.move hattended (horderly.post hn hhome) (hapart.trans (horderly.apart_post hn)) ?_ ?_
  · rw [Ledger.post_eq hn, hmsgs, ← hqueue]
    exact map_append
  · rw [Ledger.post_eq hn]
    exact update_self p _ l.hand

/-- The message of a process is freed. -/
theorem Agrees.drops (hqueue : l.queue.map l.content = sys.mbox.msgs) :
    Agrees ⟨s.box.move p sys .idle, l.release p⟩ := by
  refine h.move hattended (horderly.release p) (hapart.trans Ledger.apart_release) ?_ ?_
  · cases hp : l.hand p with
    | none =>
      rw [Ledger.release_of_none hp]
      exact hqueue
    | some n =>
      rw [Ledger.release_eq hp]
      exact hqueue
  · cases hp : l.hand p with
    | none =>
      rw [Ledger.release_of_none hp]
      exact hp
    | some n =>
      rw [Ledger.release_eq hp]
      exact update_self p _ l.hand

end

/-- `recv_msg` takes a message. -/
theorem Agrees.picks (hattended : (s.box.move p sys (.copying msg)).Attended)
    (hhand : s.ledger.hand p = none) (hmsgs : s.box.sys.mbox.msgs = msg :: sys.mbox.msgs) :
    Agrees ⟨s.box.move p sys (.copying msg), s.ledger.pick p⟩ := by
  obtain ⟨n, queue, hqueue, hn, hrest⟩ := map_eq_cons_iff.mp (h.msgs.trans hmsgs)
  have hpick := Ledger.pick_eq (p := p) hqueue
  refine h.move hattended (h.orderly.pick hhand hqueue) (Ledger.apart_pick hqueue) ?_ ?_
  · rw [hpick]
    exact hrest
  · rw [hpick]
    refine ⟨n, update_self p _ s.ledger.hand, hn, ?_,
      mem_append_right s.ledger.taken (mem_singleton_self n)⟩
    show s.ledger.home n = some (update s.ledger.source p s.ledger.opening p)
    rw [update_self]
    exact h.orderly.here n (hqueue ▸ mem_cons_self)

/-- A part of a call of `ipc_mbox_recv`. -/
theorem Agrees.recv {maxBytes : ℕ}
    (hattended : (s.box.move p sys (Mailbox.phaseAfter (.recv maxBytes) c r)).Attended)
    (hhand : s.ledger.hand p = none)
    (hmoves : (Want.recv maxBytes).Moves s.box.sys.mbox.msgs sys.mbox.msgs r) :
    Agrees ⟨s.box.move p sys (Mailbox.phaseAfter (.recv maxBytes) c r),
      s.ledger.record m (.resume p r)⟩ := by
  cases r with
  | got msg => exact h.picks hattended hhand hmoves
  | interrupted => exact h.drops hattended h.orderly .refl (h.msgs.trans hmoves.symm)
  | asleep | tooBig => exact h.stays hattended hhand hmoves
  | sent => exact hmoves.elim

/-- A part of a call of `ipc_mbox_send`, of which `l` is the ledger with its message loaded. -/
theorem Agrees.send (hattended : (s.box.move p sys (Mailbox.phaseAfter (.send msg) c r)).Attended)
    (horderly : l.Orderly) (hapart : s.ledger.Apart l p)
    (hholds : l.Holds p (.waiting (.send msg) c))
    (hqueue : l.queue.map l.content = s.box.sys.mbox.msgs)
    (hmoves : (Want.send msg).Moves s.box.sys.mbox.msgs sys.mbox.msgs r) :
    Agrees ⟨s.box.move p sys (Mailbox.phaseAfter (.send msg) c r), l.record m (.resume p r)⟩ := by
  cases r with
  | sent =>
    obtain ⟨n, hn, hcontent, hhome⟩ := hholds
    refine h.sends hattended horderly hapart hn hhome hqueue ?_
    rw [hcontent]
    exact hmoves
  | interrupted => exact h.drops hattended horderly hapart (hqueue.trans hmoves.symm)
  | asleep => exact h.move hattended horderly hapart (hqueue.trans hmoves.symm) hholds
  | got msg' | tooBig => exact hmoves.elim

end

/-- A message is put back only while the mailbox is still that to which it was sent, and no other
message was taken after it. -/
def InPlace (s : Post) : PostCall → Prop
  | .call (.finish p false) => s.box.sys.mbox.state = .opened → ∀ n, s.ledger.hand p = some n →
      s.ledger.home n = some s.ledger.opening ∧ s.ledger.taken.getLast? = some n
  | _ => True

/-- A step that puts no message back out of its place. -/
def InPlaceStep (driver : ℕ → ℕ → SchedM Unit) (s : Post) (c : PostCall) (s' : Post) : Prop :=
  Step driver s c s' ∧ s.InPlace c

theorem Agrees.load (h : s.Agrees) (hp : s.ledger.hand p = none) (msg : Msg) :
    (s.ledger.load p msg).Orderly ∧ s.ledger.Apart (s.ledger.load p msg) p ∧
      (∃ n, (s.ledger.load p msg).hand p = some n ∧ (s.ledger.load p msg).content n = msg ∧
        (s.ledger.load p msg).home n = none) ∧
      (s.ledger.load p msg).queue.map (s.ledger.load p msg).content = s.box.sys.mbox.msgs := by
  refine ⟨h.orderly.load hp, h.orderly.apart_load, ⟨s.ledger.next, update_self p _ s.ledger.hand,
    update_self s.ledger.next _ s.ledger.content, h.orderly.home_next⟩, ?_⟩
  rw [← h.msgs]
  refine map_congr_left fun n hn => ?_
  exact update_of_ne (h.orderly.custody.lt_of_queue hn).ne _ s.ledger.content

/-- A call starts. -/
theorem Agrees.call {want : Want} {timeout : ℕ} (h : s.Agrees)
    (hstep : Mailbox.Step driver s.box (.call p want timeout r) box) :
    Agrees ⟨box, s.ledger.record s.box.sys.mbox (.call p want timeout r)⟩ := by
  obtain ⟨hattended, -⟩ := hstep.attended h.attended
  obtain ⟨-, hidle, -, sys, hcall, rfl⟩ := hstep
  have hhand := h.holds p
  rw [hidle] at hhand
  have hmoves := (wp_mboxCall_dealt.of_done hcall).moves
  cases want with
  | send msg =>
    obtain ⟨horderly, hapart, hholds, hqueue⟩ := h.load hhand msg
    have hagrees := h.send (m := s.box.sys.mbox) hattended horderly hapart hholds hqueue hmoves
    cases r with
    | sent | interrupted | asleep => exact hagrees
    | got msg' | tooBig => exact hmoves.elim
  | recv maxBytes =>
    have hagrees := h.recv (m := s.box.sys.mbox) hattended hhand hmoves
    cases r with
    | got msg | asleep | tooBig => exact hagrees
    -- The ledger of a receiver that gives up stays as it is: it has no message to free.
    | interrupted => exact Ledger.release_of_none hhand ▸ hagrees
    | sent => exact hmoves.elim

/-- The copy of a received message ends. -/
theorem Agrees.finish {ok : Bool} (h : s.Agrees)
    (hstep : Mailbox.Step driver s.box (.finish p ok) box)
    (hplace : s.InPlace (.call (.finish p ok))) :
    Agrees ⟨box, s.ledger.record s.box.sys.mbox (.finish p ok)⟩ := by
  obtain ⟨hattended, -⟩ := hstep.attended h.attended
  obtain ⟨-, msg, hphase, sys, hcall, rfl⟩ := hstep
  have hholds := h.holds p
  rw [hphase] at hholds
  obtain ⟨n, hn, hcontent, hhome, htaken⟩ := hholds
  cases ok with
  | true =>
    have hsys : s.box.sys = sys := by
      injection hcall
    subst hsys
    refine h.move hattended (h.orderly.receive hn hhome htaken) (Ledger.apart_receive hn) ?_ ?_
    · show (s.ledger.receive p).queue.map (s.ledger.receive p).content = _
      rw [Ledger.receive_eq hn]
      exact h.msgs
    · show (s.ledger.receive p).hand p = none
      rw [Ledger.receive_eq hn]
      exact update_self p _ s.ledger.hand
  | false =>
    have hwp : (putBack msg).wp True Any (fun _ sys => sys.mbox.msgs =
        if s.box.sys.mbox.state = .opened then msg :: s.box.sys.mbox.msgs
        else s.box.sys.mbox.msgs) s.box.sys := wp_putBack fun _ _ _ hmsgs => hmsgs
    have hmsgs := hwp.of_done hcall
    show Agrees ⟨_, if s.box.sys.mbox.state = .opened then s.ledger.restore p
      else s.ledger.release p⟩
    by_cases hopened : s.box.sys.mbox.state = .opened
    · rw [if_pos hopened] at hmsgs ⊢
      obtain ⟨hthere, hlast⟩ := hplace hopened n hn
      refine h.move hattended (h.orderly.restore hn hthere hlast) (h.orderly.apart_restore hn) ?_ ?_
      · rw [Ledger.restore_eq hn, hmsgs, ← h.msgs, ← hcontent]
        rfl
      · rw [Ledger.restore_eq hn]
        exact update_self p _ s.ledger.hand
    · rw [if_neg hopened] at hmsgs ⊢
      exact h.drops hattended h.orderly .refl (h.msgs.trans hmsgs.symm)

/-- A step of the mailbox, recorded. -/
theorem Agrees.step {c : MboxCall} (h : s.Agrees) (hstep : Mailbox.Step driver s.box c box)
    (hplace : s.InPlace (.call c)) : Agrees ⟨box, s.ledger.record s.box.sys.mbox c⟩ := by
  obtain ⟨hattended, -⟩ := hstep.attended h.attended
  cases c with
  | call p want timeout result => exact h.call hstep
  | finish p ok => exact h.finish hstep hplace
  | resume p result =>
    obtain ⟨-, want, c, hphase, sys, hcall, rfl⟩ := hstep
    have hmoves := (wp_mboxResume_dealt.of_done hcall).moves
    have hholds := h.holds p
    rw [hphase] at hholds
    cases want with
    | send msg => exact h.send hattended h.orderly .refl hholds h.msgs hmoves
    | recv maxBytes => exact h.recv hattended hholds hmoves
  | free =>
    obtain ⟨-, sys, hcall, rfl⟩ := hstep
    have hstate : sys.mbox.state ≠ .opened := by
      have hwp : (ipcMboxFree).wp True Any (fun _ sys =>
          sys.mbox.state ≠ .opened) s.box.sys := by
        refine wp_ipcMboxFree_box h.attended.toBoxInv fun s' _ _ hstate => ?_
        rw [hstate]
        split <;> simp
      exact hwp.of_done hcall
    exact ⟨hattended, h.orderly.clear, (hattended.shut hstate).msgs.symm, h.holds⟩
  | init maxSlots =>
    obtain ⟨hclosed, -, -, sys, hcall, rfl⟩ := hstep
    have hempty := (h.attended.shut (by simp [hclosed])).msgs
    have hqueue : s.ledger.queue = [] := map_eq_nil_iff.mp (h.msgs.trans hempty)
    cases hcall
    exact ⟨hattended, h.orderly.reopen hqueue, h.msgs, h.holds⟩
  | sleep p time =>
    obtain ⟨-, hidle, -, sys, hcall, rfl⟩ := hstep
    obtain ⟨v, -, rfl⟩ := of_zoom_done hcall
    have hholds := h.holds p
    rw [hidle] at hholds
    exact h.stays hattended hholds rfl
  | wake p =>
    obtain ⟨-, hphase, sys, hcall, rfl⟩ := hstep
    obtain ⟨v, -, rfl⟩ := of_zoom_done hcall
    have hholds := h.holds p
    rw [hphase] at hholds
    exact h.stays hattended hholds rfl
  | tick | kill =>
    obtain ⟨sys, hcall, rfl⟩ := hstep
    obtain ⟨v, -, rfl⟩ := of_zoom_done hcall
    exact { h with attended := hattended }

theorem InPlaceStep.agrees {c : PostCall} (hstep : InPlaceStep driver s c s') (h : s.Agrees) :
    s'.Agrees := by
  obtain ⟨hstep, hplace⟩ := hstep
  cases c with
  | call c =>
    obtain ⟨box, hstep, rfl⟩ := hstep
    exact h.step hstep hplace
  | refuse p msg =>
    obtain ⟨-, hidle, -, rfl⟩ := hstep
    have hhand := h.holds p
    rw [hidle] at hhand
    have hmove : s.box.move p s.box.sys .idle = s.box := by
      have hphase : update s.box.phase p .idle = s.box.phase := by
        rw [← hidle]
        exact update_eq_self p s.box.phase
      rw [Mailbox.move, hphase]
    obtain ⟨horderly, hapart, -, hqueue⟩ := h.load hhand msg
    have hdrop := h.drops (hmove.symm ▸ h.attended) horderly hapart hqueue
    rw [hmove] at hdrop
    exact hdrop

/-! ## Runs -/

/-- Nothing was recorded yet. -/
def blank : Ledger :=
  ⟨⟨0, fun _ => none, [], []⟩, fun _ => ⟨0, 0⟩, 0, fun _ => none, fun _ => 0, [], [], []⟩

/-- Before any message: a closed mailbox that nobody uses, and a blank ledger. -/
structure Start (s : Post) : Prop where
  box : s.box.Unopened
  ledger : s.ledger = blank

theorem orderly_blank : blank.Orderly := by
  refine ⟨⟨nodup_nil, nodup_nil, nofun, nofun, nofun, fun n => ?_⟩,
    nofun, nodup_nil, fun n => ?_, List.Sublist.refl [],
    nofun, nofun, nodup_nil⟩
  · simp [blank]
  · simp [blank]

theorem Start.agrees (h : Start s) : s.Agrees := by
  have hphase : ∀ p, s.box.phase p = .idle := h.box.phase
  refine ⟨h.box.attended, ?_, ?_, fun p => ?_⟩
  · rw [h.ledger]
    exact orderly_blank
  · rw [h.ledger, h.box.empty.msgs]
    rfl
  · rw [h.ledger, hphase]
    rfl

/-- What should become of the messages. -/
structure Delivered (s : Post) : Prop where
  /-- The ledger speaks of the messages in the mailbox. -/
  queue : s.ledger.queue.map s.ledger.content = s.box.sys.mbox.msgs
  /-- No message is received twice. -/
  once : (s.ledger.received.map Prod.fst).Nodup
  /-- A message is received from the opening to which it was sent. -/
  own : ∀ n i, (n, i) ∈ s.ledger.received → s.ledger.home n = some i
  /-- What is received was taken, and in the order of sending. -/
  order : (∀ n i, (n, i) ∈ s.ledger.received → n ∈ s.ledger.taken) ∧
    (s.ledger.taken.filter fun n => n ∈ s.ledger.received.map Prod.fst).Sublist s.ledger.sent
  /-- What can be received was sent to the present opening. -/
  here : ∀ n ∈ s.ledger.queue, s.ledger.home n = some s.ledger.opening
  /-- Every message that was loaded is freed once, or it is in the queue, or one process holds
  it. -/
  freed : s.ledger.Exact
  /-- A process holds a message only inside a call. -/
  held : ∀ p n, s.ledger.hand p = some n → s.box.phase p ≠ .idle

/-- In every run in which messages are put back only in their place, each message is received at
most once, from the opening it was sent to and in its turn, no message can be received from a
later opening, and every message is freed once. -/
theorem mailbox_delivery {s₀ : Post} {cs : List PostCall} (hstart : Start s₀)
    (hrun : Run (InPlaceStep driver) s₀ cs s) : Delivered s := by
  have h : s.Agrees := hrun.invariant (fun _ _ _ h hstep => hstep.agrees h) hstart.agrees
  refine ⟨h.msgs, h.orderly.once, fun n i hn => (h.orderly.got n i hn).1,
    ⟨fun n i hn => (h.orderly.got n i hn).2.2, ?_⟩, h.orderly.here, h.orderly.custody,
    fun p n hn hidle => ?_⟩
  · exact filter_sublist.trans ((sublist_append_left _ _).trans h.orderly.turns)
  · have hnone := h.holds p
    rw [hidle] at hnone
    cases hn.symm.trans hnone

theorem start_idle : Start ⟨Mailbox.idleMailbox, blank⟩ := ⟨Mailbox.unopened_idleMailbox, rfl⟩

/-- A message that cannot be copied is put back and then received. -/
theorem mailbox_delivery_put_back : ∃ s,
    Run (InPlaceStep fun _ _ => return ()) ⟨Mailbox.idleMailbox, blank⟩ [.call (.init 1),
      .call (.call 1 (.send ⟨1, 4⟩) 0 .sent), .call (.call 2 (.recv 9) 0 (.got ⟨1, 4⟩)),
      .call (.finish 2 false), .call (.call 2 (.recv 9) 0 (.got ⟨1, 4⟩)),
      .call (.finish 2 true)] s ∧ s.ledger.received = [(0, 1)] ∧ Delivered s := by
  refine Run.exists_imp (P := fun s => s.ledger.received = [(0, 1)]) ?_ fun s hrun hreceived =>
    ⟨hreceived, mailbox_delivery start_idle hrun⟩
  refine ⟨_, .cons ⟨⟨_, ⟨rfl, by decide, by decide, _, rfl, rfl⟩, rfl⟩, trivial⟩
    (.cons ⟨⟨_, ⟨rfl, rfl, rfl, _, rfl, rfl⟩, rfl⟩, trivial⟩
    (.cons ⟨⟨_, ⟨rfl, rfl, rfl, _, rfl, rfl⟩, rfl⟩, trivial⟩
    (.cons ⟨⟨_, ⟨rfl, _, rfl, _, rfl, rfl⟩, rfl⟩, ?_⟩
    (.cons ⟨⟨_, ⟨rfl, rfl, rfl, _, rfl, rfl⟩, rfl⟩, trivial⟩
    (.cons ⟨⟨_, ⟨rfl, _, rfl, _, rfl, rfl⟩, rfl⟩, trivial⟩ (.nil _)))))), ?_⟩
  · rintro - n hn
    cases hn
    exact ⟨rfl, rfl⟩
  · rfl

/-- A message is taken, and before it turns out that it cannot be copied the mailbox is closed and
opened again. It is put into the new mailbox, where another process receives it. -/
theorem mailbox_message_to_next_opening : ∃ s,
    Run (Step fun _ _ => return ()) ⟨Mailbox.idleMailbox, blank⟩ [.call (.init 1),
      .call (.call 1 (.send ⟨1, 4⟩) 0 .sent), .call (.call 2 (.recv 9) 0 (.got ⟨1, 4⟩)),
      .call .free, .call (.init 1), .call (.finish 2 false),
      .call (.call 3 (.recv 9) 0 (.got ⟨1, 4⟩)), .call (.finish 3 true)] s ∧
    s.ledger.home 0 = some 1 ∧ s.ledger.received = [(0, 2)] := by
  refine ⟨_, .cons ⟨_, ⟨rfl, by decide, by decide, _, rfl, rfl⟩, rfl⟩
    (.cons ⟨_, ⟨rfl, rfl, rfl, _, rfl, rfl⟩, rfl⟩ (.cons ⟨_, ⟨rfl, rfl, rfl, _, rfl, rfl⟩, rfl⟩
    (.cons ⟨_, ⟨rfl, _, rfl, rfl⟩, rfl⟩ (.cons ⟨_, ⟨rfl, by decide, by decide, _, rfl, rfl⟩, rfl⟩
    (.cons ⟨_, ⟨rfl, _, rfl, _, rfl, rfl⟩, rfl⟩ (.cons ⟨_, ⟨rfl, rfl, rfl, _, rfl, rfl⟩, rfl⟩
    (.cons ⟨_, ⟨rfl, _, rfl, _, rfl, rfl⟩, rfl⟩ (.nil _)))))))), ?_, ?_⟩
  · rfl
  · rfl

end Post

end Ucore.Sync
