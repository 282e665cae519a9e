import Mathlib.Data.List.Nodup

/-!
# Things that change hands

Things are numbered as they are made. Each of them is in somebody's hand, in a queue that all
share, or gone. `Custody.Exact` says that no thing is at two places and none is lost; the
operations that pass things on keep it.
-/

namespace Ucore

open Function List

/-- Who has which thing: everybody has a hand for one. -/
structure Custody (P : Type) where
  /-- The number of things that were made. -/
  next : ℕ
  hand : P → Option ℕ
  queue : List ℕ
  gone : List ℕ

namespace Custody

variable {P : Type} {c : Custody P} {p : P} {n : ℕ}

/-- Every thing that was made is at exactly one place, and at that place once. -/
structure Exact (c : Custody P) : Prop where
  queueNodup : c.queue.Nodup
  goneNodup : c.gone.Nodup
  oneHand : ∀ p q n, c.hand p = some n → c.hand q = some n → p = q
  inHand : ∀ p n, c.hand p = some n → n ∉ c.queue ∧ n ∉ c.gone
  inQueue : ∀ n ∈ c.queue, n ∉ c.gone
  made : ∀ n, n < c.next ↔ n ∈ c.queue ∨ n ∈ c.gone ∨ ∃ p, c.hand p = some n

/-- The orders of the queue and of what is gone do not matter. -/
theorem Exact.perm {queue gone : List ℕ} (h : c.Exact) (hqueue : queue.Perm c.queue)
    (hgone : gone.Perm c.gone) : Exact { c with queue := queue, gone := gone } := by
  refine ⟨hqueue.nodup_iff.mpr h.queueNodup, hgone.nodup_iff.mpr h.goneNodup, h.oneHand,
    fun p n hp => ?_, fun n hn => ?_, fun n => ?_⟩
  · obtain ⟨hq, hg⟩ := h.inHand p n hp
    exact ⟨fun hmem => hq (hqueue.mem_iff.mp hmem), fun hmem => hg (hgone.mem_iff.mp hmem)⟩
  · exact fun hmem => h.inQueue n (hqueue.mem_iff.mp hn) (hgone.mem_iff.mp hmem)
  · rw [hqueue.mem_iff, hgone.mem_iff]
    exact h.made n

theorem Exact.lt_of_hand (h : c.Exact) (hp : c.hand p = some n) : n < c.next :=
  (h.made n).mpr (.inr (.inr ⟨p, hp⟩))

theorem Exact.lt_of_queue (h : c.Exact) (hn : n ∈ c.queue) : n < c.next := (h.made n).mpr (.inl hn)

theorem Exact.lt_of_gone (h : c.Exact) (hn : n ∈ c.gone) : n < c.next :=
  (h.made n).mpr (.inr (.inl hn))

variable [DecidableEq P]

/-- Somebody makes a thing. -/
def make (c : Custody P) (p : P) : Custody P :=
  { c with next := c.next + 1, hand := update c.hand p (some c.next) }

/-- Somebody puts a thing into the queue, at its end. -/
def enqueue (c : Custody P) (p : P) : Custody P :=
  match c.hand p with
  | none => c
  | some n => { c with hand := update c.hand p none, queue := c.queue ++ [n] }

/-- Somebody puts a thing back to the head of the queue. -/
def putBack (c : Custody P) (p : P) : Custody P :=
  match c.hand p with
  | none => c
  | some n => { c with hand := update c.hand p none, queue := n :: c.queue }

/-- Somebody takes the first thing of the queue. -/
def take (c : Custody P) (p : P) : Custody P :=
  match c.queue with
  | [] => c
  | n :: queue => { c with hand := update c.hand p (some n), queue := queue }

/-- Somebody does away with a thing. -/
def drop (c : Custody P) (p : P) : Custody P :=
  match c.hand p with
  | none => c
  | some n => { c with hand := update c.hand p none, gone := c.gone ++ [n] }

/-- The whole queue is done away with. -/
def dropAll (c : Custody P) : Custody P := { c with queue := [], gone := c.gone ++ c.queue }

theorem enqueue_eq (hp : c.hand p = some n) : c.enqueue p =
    { c with hand := update c.hand p none, queue := c.queue ++ [n] } := by
  simp only [enqueue, hp]

theorem putBack_eq (hp : c.hand p = some n) : c.putBack p =
    { c with hand := update c.hand p none, queue := n :: c.queue } := by
  simp only [putBack, hp]

theorem take_eq {l : List ℕ} (hqueue : c.queue = n :: l) : c.take p =
    { c with hand := update c.hand p (some n), queue := l } := by
  simp only [take, hqueue]

theorem drop_eq (hp : c.hand p = some n) : c.drop p =
    { c with hand := update c.hand p none, gone := c.gone ++ [n] } := by
  simp only [drop, hp]

theorem drop_of_none (hp : c.hand p = none) : c.drop p = c := by
  simp only [drop, hp]

/-- A hand that is written with a thing nobody else has. -/
theorem oneHand_update {f : P → Option ℕ} {v : Option ℕ}
    (h : ∀ p q n, f p = some n → f q = some n → p = q) (hv : ∀ n q, v = some n → f q ≠ some n) :
    ∀ a b m, update f p v a = some m → update f p v b = some m → a = b := by
  intro a b m ha hb
  rcases eq_or_ne a p with rfl | hap
  · rw [update_self] at ha
    by_cases hba : b = a
    · exact hba.symm
    · rw [update_of_ne hba] at hb
      exact absurd hb (hv m b ha)
  · rw [update_of_ne hap] at ha
    rcases eq_or_ne b p with rfl | hbp
    · rw [update_self] at hb
      exact absurd ha (hv m a hb)
    · rw [update_of_ne hbp] at hb
      exact h a b m ha hb

/-- The things in hands after one hand lets go of a thing. -/
theorem Exact.hand_none (h : c.Exact) (hp : c.hand p = some n) (q : P) (m : ℕ) :
    update c.hand p none q = some m ↔ c.hand q = some m ∧ m ≠ n := by
  rcases eq_or_ne q p with rfl | hq
  · rw [update_self, hp, Option.some.injEq]
    exact ⟨nofun, fun heq => absurd heq.1.symm heq.2⟩
  · rw [update_of_ne hq]
    refine ⟨fun heq => ⟨heq, ?_⟩, fun heq => heq.1⟩
    rintro rfl
    exact hq (h.oneHand q p m heq hp)

/-- The things in hands after an empty hand gets a thing. -/
theorem hand_some (hp : c.hand p = none) (m : ℕ) :
    (∃ q, update c.hand p (some n) q = some m) ↔ m = n ∨ ∃ q, c.hand q = some m := by
  constructor
  · rintro ⟨q, hq⟩
    rcases eq_or_ne q p with rfl | hqp
    · rw [update_self, Option.some.injEq] at hq
      exact .inl hq.symm
    · rw [update_of_ne hqp] at hq
      exact .inr ⟨q, hq⟩
  · rintro (rfl | ⟨q, hq⟩)
    · exact ⟨p, update_self p _ c.hand⟩
    · refine ⟨q, ?_⟩
      have hqp : q ≠ p := fun heq => absurd (hp.symm.trans (heq ▸ hq)) (by simp)
      rw [update_of_ne hqp]
      exact hq

theorem Exact.make (h : c.Exact) (hp : c.hand p = none) : (c.make p).Exact := by
  have hnew : ∀ q, c.hand q ≠ some c.next := fun q hq => absurd (h.lt_of_hand hq) (Nat.lt_irrefl _)
  refine { h with
    oneHand := oneHand_update h.oneHand fun n q hn => ?_
    inHand := fun q m hq => ?_
    made := fun m => ?_ }
  · exact Option.some.inj hn ▸ hnew q
  · have hmem : m = c.next ∨ ∃ q, c.hand q = some m := (hand_some hp m).mp ⟨q, hq⟩
    rcases hmem with rfl | ⟨q, hq⟩
    · exact ⟨fun hmem => absurd (h.lt_of_queue hmem) (Nat.lt_irrefl _),
        fun hmem => absurd (h.lt_of_gone hmem) (Nat.lt_irrefl _)⟩
    · exact h.inHand q m hq
  · show m < c.next + 1 ↔ m ∈ c.queue ∨ m ∈ c.gone ∨ ∃ q, update c.hand p (some c.next) q = some m
    rw [hand_some hp, Nat.lt_succ_iff_lt_or_eq, h.made m]
    tauto

theorem Exact.putBack (h : c.Exact) (hp : c.hand p = some n) : (c.putBack p).Exact := by
  rw [putBack_eq hp]
  obtain ⟨hqueue, hgone⟩ := h.inHand p n hp
  refine ⟨nodup_cons.mpr ⟨hqueue, h.queueNodup⟩, h.goneNodup,
    oneHand_update h.oneHand nofun, fun q m hq => ?_,
    fun m hm => ?_, fun m => ?_⟩
  · obtain ⟨hq, hne⟩ := (h.hand_none hp q m).mp hq
    obtain ⟨hm, hm'⟩ := h.inHand q m hq
    exact ⟨fun hmem => (mem_cons.mp hmem).elim hne hm, hm'⟩
  · rcases mem_cons.mp hm with rfl | hm
    · exact hgone
    · exact h.inQueue m hm
  · rw [h.made m, mem_cons]
    simp only [h.hand_none hp]
    constructor
    · rintro (hm | hm | ⟨q, hq⟩)
      · exact .inl (.inr hm)
      · exact .inr (.inl hm)
      · by_cases hmn : m = n
        · exact .inl (.inl hmn)
        · exact .inr (.inr ⟨q, hq, hmn⟩)
    · rintro ((rfl | hm) | hm | ⟨q, hq, -⟩)
      · exact .inr (.inr ⟨p, hp⟩)
      · exact .inl hm
      · exact .inr (.inl hm)
      · exact .inr (.inr ⟨q, hq⟩)

/-- The end of the queue is as good as its head. -/
theorem Exact.enqueue (h : c.Exact) (hp : c.hand p = some n) : (c.enqueue p).Exact := by
  have hback := h.putBack hp
  rw [putBack_eq hp] at hback
  rw [enqueue_eq hp]
  exact hback.perm (perm_append_singleton n c.queue) (List.Perm.refl c.gone)

theorem Exact.drop (h : c.Exact) : (c.drop p).Exact := by
  cases hp : c.hand p with
  | none =>
    rw [drop_of_none hp]
    exact h
  | some n =>
    rw [drop_eq hp]
    obtain ⟨hqueue, hgone⟩ := h.inHand p n hp
    refine ⟨h.queueNodup, ?_, oneHand_update h.oneHand nofun,
      fun q m hq => ?_, fun m hm => ?_, fun m => ?_⟩
    · exact (perm_append_singleton n c.gone).nodup_iff.mpr (nodup_cons.mpr ⟨hgone, h.goneNodup⟩)
    · obtain ⟨hq, hne⟩ := (h.hand_none hp q m).mp hq
      obtain ⟨hm, hm'⟩ := h.inHand q m hq
      refine ⟨hm, fun hmem => (mem_append.mp hmem).elim hm' fun hmem => ?_⟩
      exact hne (mem_singleton.mp hmem)
    · intro hmem
      rcases mem_append.mp hmem with hmem | hmem
      · exact h.inQueue m hm hmem
      · exact hqueue (mem_singleton.mp hmem ▸ hm)
    · rw [h.made m, mem_append, mem_singleton]
      simp only [h.hand_none hp]
      constructor
      · rintro (hm | hm | ⟨q, hq⟩)
        · exact .inl hm
        · exact .inr (.inl (.inl hm))
        · by_cases hmn : m = n
          · exact .inr (.inl (.inr hmn))
          · exact .inr (.inr ⟨q, hq, hmn⟩)
      · rintro (hm | (hm | rfl) | ⟨q, hq, -⟩)
        · exact .inl hm
        · exact .inr (.inl hm)
        · exact .inr (.inr ⟨p, hp⟩)
        · exact .inr (.inr ⟨q, hq⟩)

theorem Exact.take (h : c.Exact) (hp : c.hand p = none) : (c.take p).Exact := by
  cases hqueue : c.queue with
  | nil =>
    have htake : c.take p = c := by simp only [Custody.take, hqueue]
    rw [htake]
    exact h
  | cons n l =>
    rw [take_eq hqueue]
    have hnodup := h.queueNodup
    rw [hqueue, nodup_cons] at hnodup
    have hmem : ∀ {m}, m ∈ l → m ∈ c.queue := fun hm => hqueue ▸ mem_cons_of_mem n hm
    have hn : n ∈ c.queue := hqueue ▸ mem_cons_self
    refine ⟨hnodup.2, h.goneNodup, oneHand_update h.oneHand fun m q hm hq => ?_, fun q m hq => ?_,
      fun m hm => h.inQueue m (hmem hm), fun m => ?_⟩
    · exact (h.inHand q m hq).1 (Option.some.inj hm ▸ hn)
    · have hhand : m = n ∨ ∃ q, c.hand q = some m := (hand_some hp m).mp ⟨q, hq⟩
      rcases hhand with rfl | ⟨q, hq⟩
      · exact ⟨hnodup.1, h.inQueue m hn⟩
      · exact ⟨fun hm => (h.inHand q m hq).1 (hmem hm), (h.inHand q m hq).2⟩
    · rw [hand_some hp, h.made m, hqueue, mem_cons]
      tauto

omit [DecidableEq P] in
theorem Exact.dropAll (h : c.Exact) : c.dropAll.Exact := by
  refine ⟨nodup_nil, ?_, h.oneHand, fun p m hp => ⟨not_mem_nil, fun hm => ?_⟩, nofun, fun m => ?_⟩
  · exact nodup_append.mpr ⟨h.goneNodup, h.queueNodup, fun a ha b hb heq =>
      h.inQueue b hb (heq ▸ ha)⟩
  · obtain ⟨hq, hg⟩ := h.inHand p m hp
    exact (mem_append.mp hm).elim hg hq
  · show m < c.next ↔ m ∈ [] ∨ m ∈ c.gone ++ c.queue ∨ ∃ q, c.hand q = some m
    rw [h.made m, mem_append]
    tauto

end Custody

end Ucore
