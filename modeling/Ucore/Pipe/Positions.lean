import Mathlib.Algebra.GroupWithZero.Nat
import Ucore.Lib.Runs
import Ucore.Lib.Window

/-!
# The positions of a pipe

`pipe_state.c` counts the bytes that were read and written in fields of 32 bits and stores a byte
in the slot that its position has modulo the size of the ring. That size does not divide `2 ^ 32`,
so that after the fields have wrapped around, a byte may go to the slot of an unread one.
-/

namespace Ucore.Pipe

open Function List

/-- `PIPE_BUFSIZE`: a page without the 56 bytes of `struct pipe_state`. -/
def pipeBufsize : ℕ := 4096 - 56

/-- `struct pipe_state`, as far as the loops that move bytes use it. -/
structure PipeState where
  pRpos : ℕ
  pWpos : ℕ
  buf : ℕ → UInt8

/-- `pipe_state_create`. The ring is what `kmalloc` returns. -/
def pipeStateCreate (buf : ℕ → UInt8) : PipeState := ⟨0, 0, buf⟩

/-- `pipe_state_size`, for a reader. -/
def pipeStateSize (s : PipeState) : ℕ := (s.pWpos + 2 ^ 32 - s.pRpos) % 2 ^ 32

/-- `is_empty`. -/
def isEmpty (s : PipeState) : Bool := s.pRpos = s.pWpos

/-- `is_full`. -/
def isFull (s : PipeState) : Bool := pipeBufsize ≤ pipeStateSize s

/-- The byte that the loop of `pipe_state_read` takes. -/
def nextByte (s : PipeState) : UInt8 := s.buf (s.pRpos % pipeBufsize)

/-- The rest of the body of that loop. -/
def passByte (s : PipeState) : PipeState := { s with pRpos := (s.pRpos + 1) % 2 ^ 32 }

/-- The body of the loop of `pipe_state_write`. -/
def putByte (b : UInt8) (s : PipeState) : PipeState :=
  { s with buf := update s.buf (s.pWpos % pipeBufsize) b, pWpos := (s.pWpos + 1) % 2 ^ 32 }

/-- The loop of `pipe_state_read` for `n` bytes, with the bytes that were read. -/
def readLoop : ℕ → PipeState → List UInt8 × PipeState
  | 0, s => ([], s)
  | n + 1, s =>
    if isEmpty s then ([], s)
    else ((nextByte s) :: (readLoop n (passByte s)).1, (readLoop n (passByte s)).2)

/-- The loop of `pipe_state_write`, with the number of bytes that were written. -/
def writeLoop : List UInt8 → PipeState → ℕ × PipeState
  | [], s => (0, s)
  | b :: bs, s =>
    if isFull s then (0, s)
    else ((writeLoop bs (putByte b s)).1 + 1, (writeLoop bs (putByte b s)).2)

/-- A pipe with all bytes that were written and all that were read. -/
structure Traffic where
  state : PipeState
  sent : List UInt8
  taken : List UInt8

/-- A byte moves. -/
inductive Move
  | read
  | write (b : UInt8)

/-- One turn of a loop. -/
def Step (p : Traffic) : Move → Traffic → Prop
  | .read, p' => isEmpty p.state = false ∧
    p' = ⟨passByte p.state, p.sent, p.taken ++ [nextByte p.state]⟩
  | .write b, p' => isFull p.state = false ∧ p' = ⟨putByte b p.state, p.sent ++ [b], p.taken⟩

variable {p p' : Traffic} {ms : List Move} {m : Move} {buf : ℕ → UInt8} {n : ℕ} {bs : List UInt8}

/-- A pipe before its first byte. -/
def Traffic.fresh (buf : ℕ → UInt8) : Traffic := ⟨pipeStateCreate buf, [], []⟩

/-- `pipe_state_read` moves bytes one by one. -/
theorem run_readLoop : ∃ ms, Run Step p ms
    ⟨(readLoop n p.state).2, p.sent, p.taken ++ (readLoop n p.state).1⟩ := by
  induction n generalizing p with
  | zero => exact ⟨[], by rw [readLoop, append_nil]; exact .nil p⟩
  | succ n ih =>
    rw [readLoop]
    split
    · exact ⟨[], by rw [append_nil]; exact .nil p⟩
    · rename_i hempty
      obtain ⟨ms, hrun⟩ := ih (p := ⟨passByte p.state, p.sent, p.taken ++ [nextByte p.state]⟩)
      rw [append_assoc] at hrun
      exact ⟨.read :: ms, .cons ⟨Bool.eq_false_iff.mpr hempty, rfl⟩ hrun⟩

/-- `pipe_state_write` moves bytes one by one, until the pipe is full. -/
theorem run_writeLoop : ∃ ms, Run Step p ms
    ⟨(writeLoop bs p.state).2, p.sent ++ bs.take (writeLoop bs p.state).1, p.taken⟩ := by
  induction bs generalizing p with
  | nil => exact ⟨[], by rw [writeLoop, take_nil, append_nil]; exact .nil p⟩
  | cons b bs ih =>
    rw [writeLoop]
    split
    · exact ⟨[], by rw [take_zero, append_nil]; exact .nil p⟩
    · rename_i hfull
      obtain ⟨ms, hrun⟩ := ih (p := ⟨putByte b p.state, p.sent ++ [b], p.taken⟩)
      rw [append_assoc] at hrun
      exact ⟨.write b :: ms, .cons ⟨Bool.eq_false_iff.mpr hfull, rfl⟩ hrun⟩

/-! ## Counting -/

/-- The fields count modulo `2 ^ 32`, and no more than the ring is unread. -/
structure Counts (p : Traffic) : Prop where
  rpos : p.state.pRpos = p.taken.length % 2 ^ 32
  wpos : p.state.pWpos = p.sent.length % 2 ^ 32
  le : p.taken.length ≤ p.sent.length
  bound : p.sent.length ≤ p.taken.length + pipeBufsize

theorem counts_fresh : Counts (.fresh buf) := ⟨rfl, rfl, Nat.le_refl 0, Nat.zero_le _⟩

section

variable (h : Counts p)
include h

/-- The code's number of unread bytes is the true one. -/
theorem Counts.size : pipeStateSize p.state = p.sent.length - p.taken.length := by
  obtain ⟨hr, hw, hle, hbound⟩ := h
  rw [pipeStateSize]
  rw [pipeBufsize] at hbound
  omega

theorem Counts.isEmpty : isEmpty p.state = false ↔ p.taken.length < p.sent.length := by
  obtain ⟨hr, hw, hle, hbound⟩ := h
  rw [Pipe.isEmpty, decide_eq_false_iff_not, hr, hw]
  rw [pipeBufsize] at hbound
  omega

theorem Counts.isFull : isFull p.state = false ↔ p.sent.length < p.taken.length + pipeBufsize := by
  have hle := h.le
  rw [Pipe.isFull, decide_eq_false_iff_not, h.size]
  omega

theorem Counts.step (hstep : Step p m p') : Counts p' := by
  have hle := h.le
  have hbound := h.bound
  cases m with
  | read =>
    obtain ⟨hmore, rfl⟩ := hstep
    rw [h.isEmpty] at hmore
    refine ⟨?_, h.wpos, ?_, ?_⟩
    · rw [passByte, h.rpos, length_append, length_singleton, Nat.mod_add_mod]
    · rw [length_append]
      exact hmore
    · rw [length_append]
      exact Nat.le_trans hbound (by omega)
  | write b =>
    obtain ⟨hroom, rfl⟩ := hstep
    rw [h.isFull] at hroom
    refine ⟨h.rpos, ?_, ?_, ?_⟩
    · rw [putByte, h.wpos, length_append, length_singleton, Nat.mod_add_mod]
    · rw [length_append]
      exact Nat.le_add_right_of_le hle
    · rw [length_append]
      exact hroom

end

/-! ## Slots -/

/-- The slot of a position of the stream. -/
def slot (i : ℕ) : ℕ := i % 2 ^ 32 % pipeBufsize

/-- Two positions of the ring have one slot only if they are 2896 apart, on two sides of a multiple
of `2 ^ 32`. -/
theorem slot_eq_iff {i j : ℕ} (hij : i < j) (hj : j < i + pipeBufsize) :
    slot i = slot j ↔ i + 2896 = j ∧ i / 2 ^ 32 ≠ j / 2 ^ 32 := by
  rw [pipeBufsize] at hj
  rw [slot, slot, pipeBufsize]
  have hwrap : j / 2 ^ 32 = i / 2 ^ 32 ∨ j / 2 ^ 32 = i / 2 ^ 32 + 1 := by omega
  rcases hwrap with hwrap | hwrap
  · omega
  · omega

/-- What should hold at every moment. -/
structure Sound (p : Traffic) : Prop extends Counts p,
    Window slot p.state.buf p.sent p.taken.length where
  size : pipeStateSize p.state = p.sent.length - p.taken.length
  next : p.taken.length < p.sent.length → p.sent[p.taken.length]? = some (nextByte p.state)

theorem Sound.of_window (h : Counts p) (hwindow : Window slot p.state.buf p.sent p.taken.length) :
    Sound p := by
  refine ⟨h, hwindow, h.size, fun hlt => ?_⟩
  rw [nextByte, h.rpos]
  exact hwindow.held _ (Nat.le_refl _) hlt

/-- The byte before which the fields have not wrapped around, `2 ^ 32` modulo the size of the ring
places before the next one, is not unread. -/
def Clear (p : Traffic) : Move → Prop
  | .read => True
  | .write _ => ∀ i, p.taken.length ≤ i → i + 2896 = p.sent.length →
    i / 2 ^ 32 = p.sent.length / 2 ^ 32

theorem Sound.step (h : Sound p) (hstep : Step p m p') (hclear : Clear p m) : Sound p' := by
  refine .of_window (h.toCounts.step hstep) ?_
  cases m with
  | read =>
    obtain ⟨-, rfl⟩ := hstep
    exact h.toWindow.drop (by rw [length_append]; exact Nat.le_add_right _ _)
  | write b =>
    obtain ⟨hroom, rfl⟩ := hstep
    have hslot : p.state.pWpos % pipeBufsize = slot p.sent.length := by rw [h.wpos, slot]
    rw [putByte, hslot]
    refine h.toWindow.push fun i hi hlt => ?_
    rw [h.toCounts.isFull] at hroom
    rw [Ne, slot_eq_iff hlt (by omega)]
    exact fun hsame => hsame.2 (hclear i hi hsame.1)

/-- A byte that is written without that goes to the slot of an unread one. -/
theorem clear_of_apart (hstep : Step p m p')
    (hapart : ∀ i j, p'.taken.length ≤ i → i < j → j < p'.sent.length → slot i ≠ slot j) :
    Clear p m := by
  cases m with
  | read => trivial
  | write b =>
    intro i hi hlast
    obtain ⟨-, rfl⟩ := hstep
    have hne := hapart i p.sent.length hi (by omega) (by simp)
    rw [Ne, slot_eq_iff (by omega) (by rw [← hlast, pipeBufsize]; omega)] at hne
    exact not_not.mp fun hwrap => hne ⟨hlast, hwrap⟩

/-- The count of unread bytes, their slots and the next byte are right after every step of a run
exactly if every byte is written while the byte 2896 places before it is read or both have their
positions in the same `2 ^ 32`. -/
theorem pipe_sound_iff : Run (fun p m p' => Step p m p' ∧ Sound p') (.fresh buf) ms p ↔
    Run (fun p m p' => Step p m p' ∧ Clear p m) (.fresh buf) ms p := by
  constructor
  · intro hrun
    exact hrun.mono fun _ _ _ h => ⟨h.1, clear_of_apart h.1 h.2.apart⟩
  · intro hrun
    have hfresh : Sound (.fresh buf) := .of_window counts_fresh
      ⟨fun _ _ _ _ h => absurd h (Nat.not_lt_zero _), fun _ _ h => absurd h (Nat.not_lt_zero _)⟩
    exact hrun.simulate (f := id) (fun _ _ _ h hstep => h.step hstep.1 hstep.2)
      (fun _ _ _ h hstep => ⟨hstep.1, h.step hstep.1 hstep.2⟩) hfresh

/-- Zeros were sent, and all but `n` of them read. -/
def Zeros (buf : ℕ → UInt8) (k n : ℕ) : Prop :=
  ∃ ms p, Run Step (.fresh buf) ms p ∧ Counts p ∧ p.taken.length = k ∧ p.sent = replicate (k + n) 0

theorem Zeros.write {k : ℕ} (h : Zeros buf k n) (hn : n < pipeBufsize) : Zeros buf k (n + 1) := by
  obtain ⟨ms, p, hrun, hcounts, hk, hsent⟩ := h
  have hstep : Step p (.write 0) ⟨putByte 0 p.state, p.sent ++ [0], p.taken⟩ := by
    refine ⟨hcounts.isFull.mpr ?_, rfl⟩
    rw [hsent, length_replicate]
    omega
  refine ⟨_, _, hrun.snoc hstep, hcounts.step hstep, hk, ?_⟩
  rw [hsent, ← replicate_succ', Nat.add_assoc]

theorem Zeros.read {k : ℕ} (h : Zeros buf k (n + 1)) : Zeros buf (k + 1) n := by
  obtain ⟨ms, p, hrun, hcounts, hk, hsent⟩ := h
  have hstep : Step p .read ⟨passByte p.state, p.sent, p.taken ++ [nextByte p.state]⟩ := by
    refine ⟨hcounts.isEmpty.mpr ?_, rfl⟩
    rw [hsent, length_replicate]
    omega
  refine ⟨_, _, hrun.snoc hstep, hcounts.step hstep, ?_, ?_⟩
  · rw [length_append, hk, length_singleton]
  · rw [hsent, Nat.add_right_comm, Nat.add_assoc]

theorem zeros (k : ℕ) (hn : n < pipeBufsize) : Zeros buf k n := by
  induction k with
  | zero =>
    induction n with
    | zero => exact ⟨[], _, .nil _, counts_fresh, rfl, rfl⟩
    | succ n ih => exact (ih (by omega)).write (by omega)
  | succ k ih => exact (ih.write hn).read

/-- After `2 ^ 32 - 1` bytes of zeros 2896 more are sent, and then a one: it is read before the
zeros, the oldest of which it has overwritten. -/
theorem pipe_overwrites_unread : ∃ ms p, Run Step (.fresh fun _ => 0) ms p ∧
    p.taken.length < p.sent.length ∧ p.sent[p.taken.length]? = some 0 ∧ nextByte p.state = 1 := by
  have hzeros : Zeros (fun _ => 0) (2 ^ 32 - 1) 2896 := zeros _ (by decide)
  obtain ⟨ms, p, hrun, hcounts, hk, hsent⟩ := hzeros
  have hlt : p.taken.length < p.sent.length := by
    rw [hsent, length_replicate]
    omega
  have hstep : Step p (.write 1) ⟨putByte 1 p.state, p.sent ++ [1], p.taken⟩ := by
    refine ⟨hcounts.isFull.mpr ?_, rfl⟩
    rw [hsent, length_replicate, pipeBufsize]
    omega
  refine ⟨_, _, hrun.snoc hstep, ?_, ?_, ?_⟩
  · rw [length_append]
    exact Nat.lt_succ_of_lt hlt
  · rw [getElem?_append_left hlt, hsent]
    exact getElem?_replicate_of_lt (by omega)
  · have hslot : p.state.pRpos % pipeBufsize = p.state.pWpos % pipeBufsize := by
      rw [hcounts.rpos, hcounts.wpos, hsent, length_replicate, hk]
      rfl
    show update p.state.buf (p.state.pWpos % pipeBufsize) 1 (p.state.pRpos % pipeBufsize) = 1
    rw [hslot, update_self]

end Ucore.Pipe
