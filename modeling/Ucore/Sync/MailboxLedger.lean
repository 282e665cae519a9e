import Ucore.Lib.Custody
import Ucore.Sync.MailboxSpec

/-!
# Messages of a mailbox by number

Every message that `load_msg` makes has a number, and a ledger beside the kernel's state records
who holds it, to which opening of the mailbox it was sent, in which order messages were sent and
taken, which were received and which were freed. `Ledger.Orderly` says what should hold of them;
every operation keeps it, a message that is put back only in its place.
-/

namespace Ucore.Sync

open Kern Function List

/-! ## The ledger -/

/-- What is recorded about the messages, by number. -/
structure Ledger extends Custody ℕ where
  content : ℕ → Msg
  /-- How often the mailbox was opened. -/
  opening : ℕ
  /-- The opening to which a message was sent. -/
  home : ℕ → Option ℕ
  /-- The opening from which a process took the message that it holds. -/
  source : ℕ → ℕ
  /-- The messages for which `send_msg` returned 0, in this order. -/
  sent : List ℕ
  /-- The messages that were taken and not put back, in the order of taking. -/
  taken : List ℕ
  /-- The successful receives: the message and the opening it was taken from. -/
  received : List (ℕ × ℕ)

namespace Ledger

variable {l l' l'' : Ledger} {p n : ℕ} {msg : Msg} {queue : List ℕ}

/-- `load_msg`. -/
def load (l : Ledger) (p : ℕ) (msg : Msg) : Ledger :=
  { l with toCustody := l.make p, content := update l.content l.next msg }

/-- `add_msg` in `send_msg`. -/
def post (l : Ledger) (p : ℕ) : Ledger :=
  match l.hand p with
  | none => l
  | some n => { l with
      toCustody := l.enqueue p
      home := update l.home n (some l.opening)
      sent := l.sent ++ [n] }

/-- `pick_msg`. -/
def pick (l : Ledger) (p : ℕ) : Ledger :=
  match l.queue with
  | [] => l
  | n :: _ => { l with
      toCustody := l.take p
      source := update l.source p l.opening
      taken := l.taken ++ [n] }

/-- `free_msg`. -/
def release (l : Ledger) (p : ℕ) : Ledger := { l with toCustody := l.drop p }

/-- A receive that ends well: `free_msg` and the return of 0. -/
def receive (l : Ledger) (p : ℕ) : Ledger :=
  match l.hand p with
  | none => l
  | some n => { l with
      toCustody := l.drop p
      received := l.received ++ [(n, l.source p)] }

/-- `add_msg` in `ipc_mbox_recv`. -/
def restore (l : Ledger) (p : ℕ) : Ledger :=
  match l.hand p with
  | none => l
  | some n => { l with toCustody := l.putBack p, taken := l.taken.erase n }

/-- The loop over the messages in `ipc_mbox_free`. -/
def clear (l : Ledger) : Ledger := { l with toCustody := l.dropAll }

/-- `ipc_mbox_init`. -/
def reopen (l : Ledger) : Ledger := { l with opening := l.opening + 1 }

/-- What a step of the system with a mailbox in the state `m` does to the messages. -/
def record (l : Ledger) (m : Mbox) : MboxCall → Ledger
  | .call p (.send msg) _ .sent => (l.load p msg).post p
  | .call p (.send msg) _ .interrupted => (l.load p msg).release p
  | .call p (.send msg) _ _ => l.load p msg
  | .call p (.recv _) _ (.got _) => l.pick p
  | .resume p .sent => l.post p
  | .resume p (.got _) => l.pick p
  | .resume p .interrupted => l.release p
  | .finish p true => l.receive p
  | .finish p false => if m.state = .opened then l.restore p else l.release p
  | .free => l.clear
  | .init _ => l.reopen
  | _ => l

theorem post_eq (hp : l.hand p = some n) : l.post p = { l with
    toCustody := { l.toCustody with
      hand := update l.hand p none, queue := l.queue ++ [n] }
    home := update l.home n (some l.opening)
    sent := l.sent ++ [n] } := by
  simp only [post, hp, Custody.enqueue_eq hp]

theorem pick_eq (hqueue : l.queue = n :: queue) : l.pick p = { l with
    toCustody := { l.toCustody with
      hand := update l.hand p (some n), queue := queue }
    source := update l.source p l.opening
    taken := l.taken ++ [n] } := by
  simp only [pick, hqueue, Custody.take_eq hqueue]

theorem receive_eq (hp : l.hand p = some n) : l.receive p = { l with
    toCustody := { l.toCustody with
      hand := update l.hand p none, gone := l.gone ++ [n] }
    received := l.received ++ [(n, l.source p)] } := by
  simp only [receive, hp, Custody.drop_eq hp]

theorem restore_eq (hp : l.hand p = some n) : l.restore p = { l with
    toCustody := { l.toCustody with
      hand := update l.hand p none, queue := n :: l.queue }
    taken := l.taken.erase n } := by
  simp only [restore, hp, Custody.putBack_eq hp]

theorem release_eq (hp : l.hand p = some n) : l.release p = { l with
    toCustody := { l.toCustody with
      hand := update l.hand p none, gone := l.gone ++ [n] } } := by
  simp only [release, Custody.drop_eq hp]

theorem release_of_none (hp : l.hand p = none) : l.release p = l := by
  rw [release, Custody.drop_of_none hp]

/-! ## Messages in order -/

/-- The messages are where they belong: each at one place, sent to one opening, in the queue of
that opening only, taken in the order in which they were sent, and received once. -/
structure Orderly (l : Ledger) : Prop where
  custody : l.Exact
  known : ∀ n ∈ l.sent, n < l.next
  nodup : l.sent.Nodup
  homed : ∀ n, n ∈ l.sent ↔ l.home n ≠ none
  turns : (l.taken ++ l.queue).Sublist l.sent
  here : ∀ n ∈ l.queue, l.home n = some l.opening
  got : ∀ n i, (n, i) ∈ l.received → l.home n = some i ∧ n ∈ l.gone ∧ n ∈ l.taken
  once : (l.received.map Prod.fst).Nodup

theorem Orderly.load (h : l.Orderly) (hp : l.hand p = none) : (l.load p msg).Orderly :=
  { h with custody := h.custody.make hp, known := fun n hn => Nat.lt_succ_of_lt (h.known n hn) }

theorem Orderly.home_next (h : l.Orderly) : l.home l.next = none := by
  by_contra hne
  exact absurd (h.known l.next ((h.homed l.next).mpr hne)) (Nat.lt_irrefl _)

theorem Orderly.post (h : l.Orderly) (hp : l.hand p = some n) (hhome : l.home n = none) :
    (l.post p).Orderly := by
  have hnew : n ∉ l.sent := fun hmem => (h.homed n).mp hmem hhome
  have hcustody := h.custody.enqueue hp
  rw [Custody.enqueue_eq hp] at hcustody
  rw [post_eq hp]
  refine ⟨hcustody, fun m hm => ?_, ?_, fun m => ?_, ?_, fun m hm => ?_, fun m i hm => ?_, h.once⟩
  · rcases mem_append.mp hm with hm | hm
    · exact h.known m hm
    · rw [mem_singleton.mp hm]
      exact h.custody.lt_of_hand hp
  · exact (perm_append_singleton n l.sent).nodup_iff.mpr (nodup_cons.mpr ⟨hnew, h.nodup⟩)
  · show m ∈ l.sent ++ [n] ↔ update l.home n (some l.opening) m ≠ none
    rw [mem_append, mem_singleton]
    rcases eq_or_ne m n with rfl | hmn
    · exact iff_of_true (.inr rfl) (by simp)
    · rw [update_of_ne hmn, or_iff_left hmn]
      exact h.homed m
  · rw [← append_assoc]
    exact h.turns.append (List.Sublist.refl [n])
  · show update l.home n (some l.opening) m = some l.opening
    rcases eq_or_ne m n with rfl | hmn
    · exact update_self m _ l.home
    · rw [update_of_ne hmn]
      refine h.here m ((mem_append.mp hm).resolve_right fun hm => ?_)
      exact hmn (mem_singleton.mp hm)
  · obtain ⟨hold, hgone, htaken⟩ := h.got m i hm
    have hmn : m ≠ n := fun heq => absurd (hold.symm.trans (heq ▸ hhome)) (by simp)
    refine ⟨?_, hgone, htaken⟩
    show update l.home n (some l.opening) m = some i
    rw [update_of_ne hmn]
    exact hold

theorem Orderly.pick (h : l.Orderly) (hp : l.hand p = none) (hqueue : l.queue = n :: queue) :
    (l.pick p).Orderly := by
  have hcustody := h.custody.take hp
  rw [Custody.take_eq hqueue] at hcustody
  have hturns := h.turns
  rw [pick_eq hqueue]
  refine ⟨hcustody, h.known, h.nodup, h.homed, ?_, fun m hm => ?_, fun m i hm => ?_, h.once⟩
  · rw [hqueue] at hturns
    rw [append_assoc]
    exact hturns
  · exact h.here m (hqueue ▸ mem_cons_of_mem n hm)
  · obtain ⟨hhome, hgone, htaken⟩ := h.got m i hm
    exact ⟨hhome, hgone, mem_append_left [n] htaken⟩

theorem Orderly.release (h : l.Orderly) (p : ℕ) : (l.release p).Orderly := by
  cases hp : l.hand p with
  | none =>
    rw [release_of_none hp]
    exact h
  | some n =>
    have hcustody := h.custody.drop (p := p)
    rw [Custody.drop_eq hp] at hcustody
    rw [release_eq hp]
    refine { h with custody := hcustody, got := fun m i hm => ?_ }
    obtain ⟨hhome, hgone, htaken⟩ := h.got m i hm
    exact ⟨hhome, mem_append_left [n] hgone, htaken⟩

theorem Orderly.receive (h : l.Orderly) (hp : l.hand p = some n)
    (hhome : l.home n = some (l.source p)) (htaken : n ∈ l.taken) : (l.receive p).Orderly := by
  have hcustody := h.custody.drop (p := p)
  rw [Custody.drop_eq hp] at hcustody
  rw [receive_eq hp]
  refine { h with custody := hcustody, got := fun m i hm => ?_, once := ?_ }
  · rcases mem_append.mp hm with hm | hm
    · obtain ⟨hhome, hgone, htaken⟩ := h.got m i hm
      exact ⟨hhome, mem_append_left [n] hgone, htaken⟩
    · obtain ⟨rfl, rfl⟩ := Prod.mk.inj (mem_singleton.mp hm)
      exact ⟨hhome, mem_append_right l.gone (mem_singleton_self m), htaken⟩
  · have hnew : n ∉ l.received.map Prod.fst := by
      intro hmem
      obtain ⟨⟨m, i⟩, hm, rfl⟩ := mem_map.mp hmem
      exact (h.custody.inHand p m hp).2 (h.got m i hm).2.1
    rw [map_append]
    exact (perm_append_singleton n _).nodup_iff.mpr (nodup_cons.mpr ⟨hnew, h.once⟩)

/-- A message is put back in its place: it is the last that was taken, and the mailbox is the
one it was sent to. -/
theorem Orderly.restore (h : l.Orderly) (hp : l.hand p = some n)
    (hhome : l.home n = some l.opening) (hlast : l.taken.getLast? = some n) :
    (l.restore p).Orderly := by
  obtain ⟨before, hbefore⟩ := List.getLast?_eq_some_iff.mp hlast
  have hnodup : (before ++ [n]).Nodup := by
    rw [← hbefore]
    exact ((sublist_append_left l.taken l.queue).trans h.turns).nodup h.nodup
  have hn : n ∉ before := fun hmem =>
    (nodup_append.mp hnodup).2.2 n hmem n (mem_singleton_self n) rfl
  have herase : l.taken.erase n = before := by
    rw [hbefore, erase_append_right _ hn, erase_cons_head, append_nil]
  have hcustody := h.custody.putBack hp
  rw [Custody.putBack_eq hp] at hcustody
  rw [restore_eq hp]
  refine ⟨hcustody, h.known, h.nodup, h.homed, ?_, fun m hm => ?_, fun m i hm => ?_, h.once⟩
  · have hturns := h.turns
    rw [hbefore, append_assoc] at hturns
    rw [herase]
    exact hturns
  · rcases mem_cons.mp hm with rfl | hm
    · exact hhome
    · exact h.here m hm
  · obtain ⟨hhome, hgone, htaken⟩ := h.got m i hm
    have hmn : m ≠ n := fun heq => (h.custody.inHand p n hp).2 (heq ▸ hgone)
    exact ⟨hhome, hgone, (mem_erase_of_ne hmn).mpr htaken⟩

theorem Orderly.clear (h : l.Orderly) : l.clear.Orderly := by
  refine ⟨h.custody.dropAll, h.known, h.nodup, h.homed, ?_, nofun, fun m i hm => ?_, h.once⟩
  · exact ((List.Sublist.refl l.taken).append (nil_sublist l.queue)).trans h.turns
  · obtain ⟨hhome, hgone, htaken⟩ := h.got m i hm
    exact ⟨hhome, mem_append_left l.queue hgone, htaken⟩

theorem Orderly.reopen (h : l.Orderly) (hqueue : l.queue = []) : l.reopen.Orderly := by
  refine { h with here := fun m hm => ?_ }
  have hmem : m ∈ l.queue := hm
  rw [hqueue] at hmem
  cases hmem

end Ledger

end Ucore.Sync
