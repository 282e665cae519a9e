import Mathlib.Data.List.Nodup
import Ucore.Sched.Classes

/-!
# What the scheduling classes do to the queues

`Queues mlfq s W` says that the processes on the queues are those in `W`, each once and on the
queue its `rq` names, with a time slice that fits the queue, and that the counters are right. Both
classes keep this: `enqueue` adds a process to `W`, `dequeue` takes one out, and none of their
assertions fails.
-/

namespace Ucore.RunQueue

open Kern List

variable {mlfq : Bool} {s s' : Sys} {W W' : ℕ → Prop} {p rq : ℕ} {H : Prop}
  {E : LinkError → Sys → Prop} {Q : Unit → Sys → Prop} {t : Proc} {f : Proc → Proc} {q : Queue}

/-! ## States -/

theorem proc_setProc (x : ℕ) : (s.setProc p t).proc x = if x = p then t else s.proc x :=
  Function.update_apply s.proc p t x

theorem queue_setQueue (x : ℕ) : (s.setQueue rq q).queue x = if x = rq then q else s.queue x :=
  Function.update_apply s.queue rq q x

theorem setProc_setProc {u : Proc} : (s.setProc p t).setProc p u = s.setProc p u := by
  unfold Sys.setProc
  rw [Function.update_idem]

@[simp] theorem queue_setProc : (s.setProc p t).queue = s.queue := rfl

@[simp] theorem proc_setQueue : (s.setQueue rq q).proc = s.proc := rfl

theorem wp_modifyProc (hQ : Q () (s.setProc p (f (s.proc p)))) : (modifyProc p f).wp H E Q s := hQ

theorem wp_modifyQueue {f : Queue → Queue} (hQ : Q () (s.setQueue rq (f (s.queue rq)))) :
    (modifyQueue rq f).wp H E Q s := hQ

theorem wp_assertLink {e : LinkError} {test : Sys → Prop} [DecidablePred test] (htest : test s)
    (hQ : Q () s) : (assertLink e test).wp H E Q s := by
  rw [assertLink, wp_get]
  exact wp_if (fun _ => hQ) (absurd htest)

/-- What the classes leave as it is. -/
structure SameProcs (s s' : Sys) : Prop where
  allocated : s'.allocated = s.allocated
  state : ∀ p, (s'.proc p).state = (s.proc p).state
  pid : ∀ p, (s'.proc p).pid = (s.proc p).pid

theorem SameProcs.refl (s : Sys) : SameProcs s s := ⟨rfl, fun _ => rfl, fun _ => rfl⟩

theorem SameProcs.trans {s'' : Sys} (h : SameProcs s s') (h' : SameProcs s' s'') :
    SameProcs s s'' :=
  ⟨h'.allocated.trans h.allocated, fun p => (h'.state p).trans (h.state p),
    fun p => (h'.pid p).trans (h.pid p)⟩

theorem sameProcs_setProc (hstate : t.state = (s.proc p).state)
    (hpid : t.pid = (s.proc p).pid) : SameProcs s (s.setProc p t) := by
  refine ⟨rfl, fun x => ?_, fun x => ?_⟩ <;>
  · rw [proc_setProc]
    rcases eq_or_ne x p with rfl | hx
    · rw [if_pos rfl]
      assumption
    · rw [if_neg hx]

/-! ## The queues -/

/-- The queues of each class. -/
def Uses (mlfq : Bool) (rq : ℕ) : Prop := rq = 0 ∨ mlfq = true ∧ rq < numQueues

theorem Uses.lt (h : Uses mlfq rq) : rq < numQueues := by
  rcases h with rfl | ⟨-, h⟩
  · decide
  · exact h

theorem uses_rqNext (h : rq < numQueues) : Uses true (rqNext rq) := by
  refine .inr ⟨rfl, ?_⟩
  unfold rqNext
  by_cases hlast : rq + 1 = numQueues
  · rw [if_pos hlast]
    decide
  · rw [if_neg hlast]
    omega

/-- What is left of a time slice, which is no longer than the one of the first queue if there is no
other. -/
def Fits (mlfq : Bool) (slice : ℤ) : Prop := 0 ≤ slice ∧ (mlfq = false → slice ≤ 8)

theorem Fits.shorter {slice slice' : ℤ} (h : Fits mlfq slice)
    (hle : 0 ≤ slice' ∧ slice' ≤ slice) : Fits mlfq slice' :=
  ⟨hle.1, fun hrr => Int.le_trans hle.2 (h.2 hrr)⟩

/-- The processes on the queues are those in `W`. -/
structure Queues (mlfq : Bool) (s : Sys) (W : ℕ → Prop) : Prop where
  mem : ∀ p, W p ↔ ∃ rq, p ∈ (s.queue rq).runList
  nodup : ∀ rq, (s.queue rq).runList.Nodup
  home : ∀ rq, ∀ p ∈ (s.queue rq).runList, (s.proc p).rq = some rq
  slice : ∀ rq, ∀ p ∈ (s.queue rq).runList,
    1 ≤ (s.proc p).timeSlice ∧ (s.proc p).timeSlice ≤ (s.queue rq).maxTimeSlice
  num : ∀ rq, (s.queue rq).procNum = (s.queue rq).runList.length
  max : ∀ rq, (s.queue rq).maxTimeSlice = 8 * 2 ^ rq
  used : ∀ p rq, (s.proc p).rq = some rq → Uses mlfq rq
  fits : ∀ p, Fits mlfq (s.proc p).timeSlice

theorem Queues.congr (h : Queues mlfq s W) (hW : ∀ p, W' p ↔ W p) : Queues mlfq s W' :=
  { h with mem := fun p => (hW p).trans (h.mem p) }

theorem Queues.linked_iff (h : Queues mlfq s W) : s.Linked p ↔ W p := by
  rw [h.mem p]
  constructor
  · rintro ⟨rq, -, hp⟩
    exact ⟨rq, hp⟩
  · rintro ⟨rq, hp⟩
    exact ⟨rq, (h.used p rq (h.home rq p hp)).lt, hp⟩

theorem Queues.max_pos (h : Queues mlfq s W) : 1 ≤ (s.queue rq).maxTimeSlice := by
  rw [h.max rq]
  have hpow : (0 : ℤ) < 2 ^ rq := Int.pow_pos (by decide)
  omega

/-- Fields that the queues do not depend on may change. -/
theorem Queues.modify (h : Queues mlfq s W) (hqueue : s'.queue = s.queue)
    (hrq : ∀ p, (s'.proc p).rq = (s.proc p).rq)
    (hslice : ∀ p, (s'.proc p).timeSlice = (s.proc p).timeSlice) : Queues mlfq s' W := by
  constructor
  · rw [hqueue]
    exact h.mem
  · rw [hqueue]
    exact h.nodup
  · intro rq p hp
    rw [hqueue] at hp
    rw [hrq]
    exact h.home rq p hp
  · intro rq p hp
    rw [hqueue] at hp ⊢
    rw [hslice]
    exact h.slice rq p hp
  · rw [hqueue]
    exact h.num
  · rw [hqueue]
    exact h.max
  · intro p rq hp
    rw [hrq] at hp
    exact h.used p rq hp
  · intro p
    rw [hslice]
    exact h.fits p

/-- A process that is on no queue may change. -/
theorem Queues.setProc (h : Queues mlfq s W) (hp : ¬W p) (hrq : ∀ j, t.rq = some j → Uses mlfq j)
    (hslice : Fits mlfq t.timeSlice) : Queues mlfq (s.setProc p t) W := by
  have hsame : ∀ j, ∀ x ∈ (s.queue j).runList, (s.setProc p t).proc x = s.proc x := by
    intro j x hx
    rw [proc_setProc, if_neg]
    rintro rfl
    exact hp ((h.mem x).mpr ⟨j, hx⟩)
  refine ⟨h.mem, h.nodup, fun j x hx => ?_, fun j x hx => ?_, h.num, h.max, fun x j hx => ?_,
    fun x => ?_⟩
  · rw [hsame j x hx]
    exact h.home j x hx
  · rw [hsame j x hx]
    exact h.slice j x hx
  · rw [proc_setProc] at hx
    by_cases hxp : x = p
    · rw [if_pos hxp] at hx
      exact hrq j hx
    · rw [if_neg hxp] at hx
      exact h.used x j hx
  · rw [proc_setProc]
    by_cases hxp : x = p
    · rw [if_pos hxp]
      exact hslice
    · rw [if_neg hxp]
      exact h.fits x

/-- At most `k` processes are before `p` on the first queue. -/
def Sys.Behind (s : Sys) (p k : ℕ) : Prop :=
  ∃ pre post, (s.queue 0).runList = pre ++ p :: post ∧ pre.length ≤ k

/-! ## A process is put on a queue -/

/-- The time slice that `RR_enqueue` gives. -/
def fitSlice (max slice : ℤ) : ℤ := if slice = 0 ∨ max < slice then max else slice

/-- What `RR_enqueue` does. -/
structure Enqueued (s s' : Sys) (rq p : ℕ) : Prop where
  queue : ∀ j, s'.queue j = if j = rq then ⟨(s.queue rq).runList ++ [p],
    (s.queue rq).procNum + 1, (s.queue rq).maxTimeSlice⟩ else s.queue j
  proc : ∀ x, s'.proc x = if x = p then { s.proc p with
    rq := some rq, timeSlice := fitSlice (s.queue rq).maxTimeSlice (s.proc p).timeSlice }
    else s.proc x
  allocated : s'.allocated = s.allocated
  current : s'.current = s.current

theorem wp_rrEnqueue_any (hp : ¬s.Linked p) (hQ : ∀ s', Enqueued s s' rq p → Q () s') :
    (rrEnqueue rq p).wp H E Q s := by
  rw [rrEnqueue, wp_bind]
  refine wp_assertLink hp ?_
  refine wp_seq (wp_modifyQueue ?_)
  rw [wp_get, wp_bind]
  refine wp_modifyProc ?_
  refine wp_seq (wp_modifyProc (wp_modifyQueue (hQ _ ⟨fun j => ?_, fun x => ?_, rfl, rfl⟩)))
  · rw [queue_setQueue]
    by_cases hj : j = rq
    · rw [if_pos hj, if_pos hj]
      simp [queue_setQueue]
    · simp [queue_setQueue, hj]
  · rw [proc_setQueue, proc_setProc]
    by_cases hx : x = p
    · rw [if_pos hx, proc_setProc, if_pos rfl, proc_setQueue, queue_setQueue, if_pos rfl]
      unfold fitSlice
      split <;> rfl
    · rw [if_neg hx, if_neg hx, proc_setProc, if_neg hx, proc_setQueue]

theorem Enqueued.sameProcs (h : Enqueued s s' rq p) : SameProcs s s' := by
  refine ⟨h.allocated, fun x => ?_, fun x => ?_⟩ <;>
  · rw [h.proc x]
    by_cases hx : x = p
    · rw [if_pos hx, hx]
    · rw [if_neg hx]

/-- It is put behind the others. -/
theorem Enqueued.behind {x k : ℕ} (h : Enqueued s s' rq p) (hx : s.Behind x k) : s'.Behind x k := by
  obtain ⟨pre, post, hlist, hk⟩ := hx
  unfold Sys.Behind
  rw [h.queue]
  rcases eq_or_ne 0 rq with rfl | hrq
  · refine ⟨pre, post ++ [p], ?_, hk⟩
    rw [if_pos rfl, hlist, append_assoc, cons_append]
  · rw [if_neg hrq]
    exact ⟨pre, post, hlist, hk⟩

theorem fitSlice_bounds {max slice : ℤ} (hmax : 1 ≤ max) (hslice : 0 ≤ slice) :
    1 ≤ fitSlice max slice ∧ fitSlice max slice ≤ max := by
  unfold fitSlice
  split
  · omega
  · omega

theorem Queues.enqueued (h : Queues mlfq s W) (hp : ¬W p) (hrq : Uses mlfq rq)
    (henq : Enqueued s s' rq p) : Queues mlfq s' fun x => x = p ∨ W x := by
  have hout : ∀ j, p ∉ (s.queue j).runList := fun j hmem => hp ((h.mem p).mpr ⟨j, hmem⟩)
  have hself : s'.queue rq = ⟨(s.queue rq).runList ++ [p], (s.queue rq).procNum + 1,
      (s.queue rq).maxTimeSlice⟩ := by
    rw [henq.queue, if_pos rfl]
  have hother : ∀ j, j ≠ rq → s'.queue j = s.queue j := fun j hj => by
    rw [henq.queue, if_neg hj]
  have hsame : ∀ x, x ≠ p → s'.proc x = s.proc x := fun x hx => by
    rw [henq.proc, if_neg hx]
  have hnew : (s'.proc p).rq = some rq ∧ (s'.proc p).timeSlice =
      fitSlice (s.queue rq).maxTimeSlice (s.proc p).timeSlice := by
    rw [henq.proc, if_pos rfl]
    exact ⟨rfl, rfl⟩
  have hpos : 1 ≤ (s.queue rq).maxTimeSlice := h.max_pos
  have hbounds := fitSlice_bounds hpos (h.fits p).1
  -- who is on a queue now was there before, or is the new one on its queue
  have hcases : ∀ j x, x ∈ (s'.queue j).runList → x ∈ (s.queue j).runList ∨ j = rq ∧ x = p := by
    intro j x hx
    rcases eq_or_ne j rq with rfl | hj
    · rw [hself] at hx
      rcases mem_append.mp hx with hx | hx
      · exact .inl hx
      · exact .inr ⟨rfl, mem_singleton.mp hx⟩
    · rw [hother j hj] at hx
      exact .inl hx
  have hmax : ∀ j, (s'.queue j).maxTimeSlice = (s.queue j).maxTimeSlice := by
    intro j
    rcases eq_or_ne j rq with rfl | hj
    · rw [hself]
    · rw [hother j hj]
  refine ⟨fun x => ⟨?_, ?_⟩, fun j => ?_, fun j x hx => ?_, fun j x hx => ?_, fun j => ?_,
    fun j => (hmax j).trans (h.max j), fun x j hx => ?_, fun x => ?_⟩
  · rintro (rfl | hx)
    · refine ⟨rq, ?_⟩
      rw [hself]
      exact mem_append_right _ (mem_singleton_self x)
    · obtain ⟨j, hj⟩ := (h.mem x).mp hx
      refine ⟨j, ?_⟩
      rcases eq_or_ne j rq with rfl | hjrq
      · rw [hself]
        exact mem_append_left _ hj
      · rw [hother j hjrq]
        exact hj
  · rintro ⟨j, hj⟩
    rcases hcases j x hj with hj | ⟨-, rfl⟩
    · exact .inr ((h.mem x).mpr ⟨j, hj⟩)
    · exact .inl rfl
  · rcases eq_or_ne j rq with rfl | hj
    · rw [hself]
      refine nodup_append.mpr ⟨h.nodup j, nodup_singleton p, fun a ha b hb => ?_⟩
      rw [mem_singleton.mp hb]
      exact fun heq => hout j (heq ▸ ha)
    · rw [hother j hj]
      exact h.nodup j
  · rcases hcases j x hx with hx | ⟨rfl, rfl⟩
    · rw [hsame x fun heq => hout j (heq ▸ hx)]
      exact h.home j x hx
    · exact hnew.1
  · rw [hmax]
    rcases hcases j x hx with hx | ⟨rfl, rfl⟩
    · rw [hsame x fun heq => hout j (heq ▸ hx)]
      exact h.slice j x hx
    · rw [hnew.2]
      exact hbounds
  · rcases eq_or_ne j rq with rfl | hj
    · rw [hself, length_append, length_singleton, h.num j]
    · rw [hother j hj]
      exact h.num j
  · rcases eq_or_ne x p with rfl | hxp
    · rw [← Option.some.inj (hnew.1.symm.trans hx)]
      exact hrq
    · rw [hsame x hxp] at hx
      exact h.used x j hx
  · rcases eq_or_ne x p with rfl | hxp
    · refine ⟨by omega, fun hrr => ?_⟩
      obtain rfl : rq = 0 := hrq.resolve_right fun hused => by cases hrr.symm.trans hused.1
      have hfirst := h.max 0
      omega
    · rw [hsame x hxp]
      exact h.fits x

/-! ## A process is taken off its queue -/

/-- What `RR_dequeue` does. -/
structure Dequeued (s s' : Sys) (rq p : ℕ) : Prop where
  runList : ∀ j, (s'.queue j).runList = (s.queue j).runList.erase p
  procNum : ∀ j, (s'.queue j).procNum =
    if j = rq then (s.queue rq).procNum - 1 else (s.queue j).procNum
  maxTimeSlice : ∀ j, (s'.queue j).maxTimeSlice = (s.queue j).maxTimeSlice
  proc : s'.proc = s.proc
  allocated : s'.allocated = s.allocated
  current : s'.current = s.current

theorem wp_rrDequeue_any (hp : s.Linked p) (hrq : (s.proc p).rq = some rq)
    (hQ : ∀ s', Dequeued s s' rq p → Q () s') : (rrDequeue rq p).wp H E Q s := by
  rw [rrDequeue, wp_bind]
  refine wp_assertLink hp ?_
  refine wp_seq (wp_assertLink hrq ?_)
  rw [wp_bind, delLink, wp_modify]
  refine wp_modifyQueue (hQ _ ⟨fun j => ?_, fun j => ?_, fun j => ?_, rfl, rfl, rfl⟩)
  all_goals
    rw [queue_setQueue]
    rcases eq_or_ne j rq with rfl | hj
    · simp
    · simp [hj]

theorem Dequeued.sameProcs (h : Dequeued s s' rq p) : SameProcs s s' :=
  ⟨h.allocated, fun x => by rw [h.proc], fun x => by rw [h.proc]⟩

/-- The others stay where they are, or come nearer. -/
theorem Dequeued.behind {x k : ℕ} (h : Dequeued s s' rq p) (hne : x ≠ p) (hx : s.Behind x k) :
    s'.Behind x k := by
  obtain ⟨pre, post, hlist, hk⟩ := hx
  unfold Sys.Behind
  rw [h.runList, hlist, erase_append]
  split
  · exact ⟨pre.erase p, post, rfl, Nat.le_trans length_erase_le hk⟩
  · rw [erase_cons_tail (by simpa using hne)]
    exact ⟨pre, post.erase p, rfl, hk⟩

theorem Queues.dequeued (h : Queues mlfq s W) (hp : p ∈ (s.queue rq).runList)
    (hdeq : Dequeued s s' rq p) : Queues mlfq s' fun x => x ≠ p ∧ W x := by
  have hmem : ∀ j x, x ∈ (s'.queue j).runList ↔ x ≠ p ∧ x ∈ (s.queue j).runList := by
    intro j x
    rw [hdeq.runList]
    exact (h.nodup j).mem_erase_iff
  refine ⟨fun x => ?_, fun j => ?_, fun j x hx => ?_, fun j x hx => ?_, fun j => ?_, fun j => ?_,
    ?_, ?_⟩
  · simp only [hmem, h.mem x, exists_and_left]
  · rw [hdeq.runList]
    exact (h.nodup j).erase p
  · rw [hdeq.proc]
    exact h.home j x ((hmem j x).mp hx).2
  · rw [hdeq.proc, hdeq.maxTimeSlice]
    exact h.slice j x ((hmem j x).mp hx).2
  · rw [hdeq.procNum, hdeq.runList]
    rcases eq_or_ne j rq with rfl | hj
    · rw [if_pos rfl, length_erase_of_mem hp, h.num j]
    · -- it is on no other queue
      have hout : p ∉ (s.queue j).runList := fun hmem =>
        hj (Option.some.inj ((h.home j p hmem).symm.trans (h.home rq p hp)))
      rw [if_neg hj, erase_of_not_mem hout, h.num j]
  · rw [hdeq.maxTimeSlice]
    exact h.max j
  · rw [hdeq.proc]
    exact h.used
  · rw [hdeq.proc]
    exact h.fits

/-! ## A tick -/

/-- A process after `RR_proc_tick`. -/
def Proc.tick (t : Proc) : Proc :=
  let u := if 0 < t.timeSlice then { t with timeSlice := t.timeSlice - 1 } else t
  if u.timeSlice = 0 then { u with needResched := true } else u

theorem wp_rrProcTick {old : Option ℕ} (hQ : Q () (s.setProc p (s.proc p).tick)) :
    (rrProcTick old p).wp H E Q s := by
  rw [rrProcTick, wp_bind]
  refine wp_modifyProc (wp_modifyProc ?_)
  rw [setProc_setProc, proc_setProc, if_pos rfl]
  exact hQ

theorem tick_same : t.tick.pid = t.pid ∧ t.tick.rq = t.rq := by
  unfold Proc.tick
  split <;>
  · dsimp only
    split <;> exact ⟨rfl, rfl⟩

/-- Some time is spent; the process is to be switched, or some is left. -/
theorem tick_spent (h : 0 ≤ t.timeSlice) : (0 ≤ t.tick.timeSlice ∧ t.tick.timeSlice ≤ t.timeSlice) ∧
      (t.needResched = true → t.tick.needResched = true) ∧
      (t.tick.needResched = true ∨ 1 ≤ t.tick.timeSlice ∧ t.tick.timeSlice < t.timeSlice) := by
  unfold Proc.tick
  split
  · dsimp only
    split
    · dsimp only
      exact ⟨by omega, fun _ => rfl, .inl rfl⟩
    · dsimp only
      exact ⟨by omega, id, .inr (by omega)⟩
  · rw [if_pos (by omega)]
    exact ⟨⟨h, Int.le_refl _⟩, fun _ => rfl, .inl rfl⟩

/-! ## The classes -/

/-- What the scheduler relies on. -/
structure Lawful (mlfq : Bool) (cls : SchedClass) : Prop where
  enqueue : ∀ {s W p H E Q}, Queues mlfq s W → ¬W p →
    (∀ rq s', Queues mlfq s' (fun x => x = p ∨ W x) → Enqueued s s' rq p → Q () s') →
    (cls.enqueue 0 p).wp H E Q s
  dequeue : ∀ {s W p H E Q}, Queues mlfq s W → W p →
    (∀ rq s', Queues mlfq s' (fun x => x ≠ p ∧ W x) → Dequeued s s' rq p → Q () s') →
    (cls.dequeue 0 p).wp H E Q s
  /-- The first process of the first queue that has one. -/
  pickNext : ∀ {s W H E Q}, Queues mlfq s W → ((∀ rq, (s.queue rq).runList = []) → Q none s) →
    (∀ rq p rest, (s.queue rq).runList = p :: rest →
      (∀ j < rq, (s.queue j).runList = []) → Q (some p) s) →
    (cls.pickNext 0).wp H E Q s
  procTick : ∀ {s p H E} {Q : Unit → Sys → Prop}, Q () (s.setProc p (s.proc p).tick) →
    (cls.procTick 0 p).wp H E Q s

section

variable (h : Queues mlfq s W)
include h

theorem wp_rrEnqueue (hp : ¬W p) (hrq : Uses mlfq rq)
    (hQ : ∀ rq s', Queues mlfq s' (fun x => x = p ∨ W x) → Enqueued s s' rq p → Q () s') :
    (rrEnqueue rq p).wp H E Q s :=
  wp_rrEnqueue_any (h.linked_iff.not.mpr hp) fun s' henq => hQ rq s' (h.enqueued hp hrq henq) henq

theorem wp_rrDequeue (hp : p ∈ (s.queue rq).runList)
    (hQ : ∀ rq s', Queues mlfq s' (fun x => x ≠ p ∧ W x) → Dequeued s s' rq p → Q () s') :
    (rrDequeue rq p).wp H E Q s :=
  wp_rrDequeue_any (h.linked_iff.mpr ((h.mem p).mpr ⟨rq, hp⟩)) (h.home rq p hp)
    fun s' hdeq => hQ rq s' (h.dequeued hp hdeq) hdeq

end

/-- The round-robin class uses the first queue only. -/
theorem Queues.first_of_rr (h : Queues false s W) (hp : p ∈ (s.queue rq).runList) : rq = 0 := by
  rcases h.used p rq (h.home rq p hp) with heq | ⟨hfalse, -⟩
  · exact heq
  · cases hfalse

theorem lawful_rr : Lawful false rrSchedClass := by
  constructor
  · intro s W p H E Q h hp hQ
    exact wp_rrEnqueue h hp (.inl rfl) hQ
  · intro s W p H E Q h hp hQ
    obtain ⟨rq, hmem⟩ := (h.mem p).mp hp
    obtain rfl := h.first_of_rr hmem
    exact wp_rrDequeue h hmem hQ
  · intro s W H E Q h hnone hsome
    show Q (s.queue 0).runList.head? s
    cases hlist : (s.queue 0).runList with
    | nil =>
      refine hnone fun rq => eq_nil_iff_forall_not_mem.mpr fun p hp => ?_
      obtain rfl := h.first_of_rr hp
      rw [hlist] at hp
      cases hp
    | cons p rest => exact hsome 0 p rest hlist fun j hj => absurd hj (Nat.not_lt_zero j)
  · intro s p H E Q hQ
    show (rrProcTick (some 0) p).wp H E Q s
    exact wp_rrProcTick hQ

theorem uses_mlfqChoose (ht : ∀ j, t.rq = some j → Uses true j) : Uses true (mlfqChoose 0 t) := by
  unfold mlfqChoose
  cases hrq : t.rq with
  | none => exact .inl rfl
  | some old =>
    by_cases hslice : t.timeSlice = 0
    · simp only [if_pos hslice]
      split
      · exact ht old hrq
      · exact uses_rqNext (ht old hrq).lt
    · simp only [if_neg hslice]
      exact .inl rfl

/-- The loop of `MLFQ_pick_next` after `k` queues without processes. -/
theorem wp_mlfqPickFrom {Q : Option ℕ → Sys → Prop} {k n : ℕ} (hkn : k + n = numQueues)
    (hbefore : ∀ j < k, (s.queue j).runList = [])
    (hnone : (∀ j < numQueues, (s.queue j).runList = []) → Q none s)
    (hsome : ∀ rq p rest, (s.queue rq).runList = p :: rest →
      (∀ j < rq, (s.queue j).runList = []) → Q (some p) s) :
    (mlfqPickFrom (List.range' k n)).wp H E Q s := by
  induction n generalizing k with
  | zero =>
    refine hnone fun j hj => hbefore j ?_
    omega
  | succ n ih =>
    rw [List.range'_succ, mlfqPickFrom, wp_bind, rrPickNext, wp_gets]
    cases hlist : (s.queue k).runList with
    | nil =>
      refine ih (by omega) fun j hj => ?_
      rcases Nat.lt_succ_iff_lt_or_eq.mp hj with hj | rfl
      · exact hbefore j hj
      · exact hlist
    | cons p rest => exact hsome k p rest hlist hbefore

theorem lawful_mlfq : Lawful true mlfqSchedClass := by
  constructor
  · intro s W p H E Q h hp hQ
    show (mlfqEnqueue 0 p).wp H E Q s
    rw [mlfqEnqueue, wp_bind]
    refine wp_assertLink (h.linked_iff.not.mpr hp) ?_
    rw [wp_get]
    exact wp_rrEnqueue h hp (uses_mlfqChoose (h.used p)) hQ
  · intro s W p H E Q h hp hQ
    obtain ⟨rq, hmem⟩ := (h.mem p).mp hp
    show (mlfqDequeue 0 p).wp H E Q s
    rw [mlfqDequeue, wp_bind]
    refine wp_assertLink (h.linked_iff.mpr hp) ?_
    rw [wp_get, h.home rq p hmem]
    exact wp_rrDequeue h hmem hQ
  · intro s W H E Q h hnone hsome
    show (mlfqPickFrom (List.range numQueues)).wp H E Q s
    refine wp_mlfqPickFrom (Nat.zero_add numQueues) (fun j hj => absurd hj (Nat.not_lt_zero j))
      (fun hempty => hnone fun rq => ?_) hsome
    refine eq_nil_iff_forall_not_mem.mpr fun p hp => ?_
    rw [hempty rq (h.used p rq (h.home rq p hp)).lt] at hp
    cases hp
  · intro s p H E Q hQ
    show (mlfqProcTick 0 p).wp H E Q s
    rw [mlfqProcTick, wp_get]
    exact wp_rrProcTick hQ

/-- Both classes do what the scheduler relies on. -/
theorem lawful_schedClass : Lawful mlfq (schedClass mlfq) := by
  cases mlfq with
  | false => exact lawful_rr
  | true => exact lawful_mlfq

end Ucore.RunQueue
