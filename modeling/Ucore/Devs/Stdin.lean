import Ucore.Lib.Runs
import Ucore.Lib.Window
import Ucore.Sfs.BlockIo

/-!
# Console input

`dev_stdin.c` keeps the characters that arrive in interrupts in a ring until processes read them.
A character is stored before the test whether the ring has room for it, in the slot that its
position has, so that in a full ring it replaces the oldest character that is not read yet.
-/

namespace Ucore.Stdin

open Function List

open Sfs (toOff)

/-- `STDIN_BUFSIZE`. -/
def stdinBufsize : ℕ := 4096

/-- The ring; the positions are of the type `off_t`, which is signed and has 32 bits. -/
structure Ring where
  pRpos : ℤ
  pWpos : ℤ
  buffer : ℤ → UInt8

/-- The test of `dev_stdin_write` for room. -/
def Ring.room (r : Ring) : Bool := toOff (r.pWpos - r.pRpos) < stdinBufsize

/-- What `dev_stdin_write` does to the ring, for a character other than 0. -/
def devStdinWrite (c : UInt8) (r : Ring) : Ring :=
  { r with
    buffer := update r.buffer (r.pWpos.tmod stdinBufsize) c
    pWpos := if r.room then toOff (r.pWpos + 1) else r.pWpos }

/-- The test of the loop of `dev_stdin_read`. -/
def Ring.ready (r : Ring) : Bool := r.pRpos < r.pWpos

/-- The character that the loop takes. -/
def Ring.next (r : Ring) : UInt8 := r.buffer (r.pRpos.tmod stdinBufsize)

def Ring.pass (r : Ring) : Ring := { r with pRpos := toOff (r.pRpos + 1) }

/-- The loop of `dev_stdin_read` for at most `len` characters, from a turn on that finds one. -/
def readLoop : ℕ → Ring → List UInt8 × Ring
  | 0, r => ([], r)
  | len + 1, r =>
    if r.ready then (r.next :: (readLoop len r.pass).1, (readLoop len r.pass).2) else ([], r)

/-- The ring, the processes in the wait queue, and the characters that were typed, that were not
dropped, and that were read. -/
structure Console where
  ring : Ring
  queue : List ℕ
  typed : List UInt8
  kept : List UInt8
  taken : List UInt8

inductive Event
  | type (c : UInt8)
  /-- A turn of the loop that finds a character. -/
  | take
  /-- A turn that finds none, by a process. -/
  | sleep (p : ℕ)
  /-- A process that was woken up for another reason leaves the queue and its call. -/
  | leave (p : ℕ)

/-- One step: an interrupt, or a turn of the loop of a reader. A character that arrives wakes all
processes in the queue up. -/
def Step (s : Console) : Event → Console → Prop
  | .type c, s' => c ≠ 0 ∧ s' = ⟨devStdinWrite c s.ring, [], s.typed ++ [c],
      if s.ring.room then s.kept ++ [c] else s.kept, s.taken⟩
  | .take, s' => s.ring.ready = true ∧
      s' = { s with ring := s.ring.pass, taken := s.taken ++ [s.ring.next] }
  | .sleep p, s' => s.ring.ready = false ∧ s' = { s with queue := s.queue ++ [p] }
  | .leave p, s' => s' = { s with queue := s.queue.erase p }

/-- After `stdin_device_init`. -/
def Console.fresh (buffer : ℤ → UInt8) : Console := ⟨⟨0, 0, buffer⟩, [], [], [], []⟩

variable {s s' : Console} {es : List Event} {e : Event} {buffer : ℤ → UInt8} {len : ℕ} {c : UInt8}

/-- A call of `dev_stdin_read` that finds characters is a run of turns. -/
theorem run_readLoop : Run Step s (replicate (readLoop len s.ring).1.length .take)
    { s with ring := (readLoop len s.ring).2, taken := s.taken ++ (readLoop len s.ring).1 } := by
  induction len generalizing s with
  | zero =>
    rw [readLoop, append_nil]
    exact .nil s
  | succ len ih =>
    rw [readLoop]
    split
    · rename_i hready
      have hrest := ih (s := { s with ring := s.ring.pass, taken := s.taken ++ [s.ring.next] })
      rw [append_assoc] at hrest
      exact .cons ⟨hready, rfl⟩ hrest
    · rw [append_nil]
      exact .nil s

/-- The slot of a position of the stream. -/
def slot (i : ℕ) : ℤ := Int.tmod i stdinBufsize

theorem slot_eq_iff {i j : ℕ} : slot i = slot j ↔ i % stdinBufsize = j % stdinBufsize := by
  rw [slot, slot, ← Int.ofNat_tmod, ← Int.ofNat_tmod, Int.natCast_inj]

theorem toOff_succ {n : ℕ} (hn : n + 1 < 2 ^ 31) : toOff (n + 1) = (n + 1 : ℕ) := by
  exact Sfs.BlockIo.toOff_natCast hn

/-- What should hold at every moment: the readers get the characters that were not dropped, in
their order; the others are in their slots; and nobody waits beside a character. -/
structure Sound (s : Console) : Prop extends
    Window slot s.ring.buffer s.kept s.taken.length where
  taken : s.taken <+: s.kept
  kept : s.kept <+ s.typed
  awake : s.queue ≠ [] → s.taken = s.kept
  drops : ∀ c s', Step s (.type c) s' → s'.kept =
    if s.kept.length < s.taken.length + stdinBufsize then s.kept ++ [c] else s.kept

/-- The positions count, and no more than the ring is not read. -/
structure Counts (s : Console) : Prop where
  rpos : s.ring.pRpos = s.taken.length
  wpos : s.ring.pWpos = s.kept.length
  le : s.taken.length ≤ s.kept.length
  bound : s.kept.length ≤ s.taken.length + stdinBufsize
  small : s.kept.length < 2 ^ 31

/-- The ring has room and its positions do not overflow, or the character is the same as the oldest
one that is not read. -/
def Clear (s : Console) : Event → Prop
  | .type c => if s.kept.length < s.taken.length + stdinBufsize then s.kept.length + 1 < 2 ^ 31
      else s.ring.next = c
  | _ => True

section

variable (h : Counts s)
include h

theorem Counts.ready : s.ring.ready = true ↔ s.taken.length < s.kept.length := by
  rw [Ring.ready, decide_eq_true_iff, h.rpos, h.wpos, Int.ofNat_lt]

theorem Counts.room : s.ring.room = true ↔ s.kept.length < s.taken.length + stdinBufsize := by
  have hle := h.le
  have hsmall := h.small
  rw [Ring.room, decide_eq_true_iff, h.rpos, h.wpos, ← Int.ofNat_sub hle,
    Sfs.BlockIo.toOff_natCast (by omega)]
  omega

/-- A character is stored behind the others, or nothing in the ring changes. -/
theorem Counts.type (hstep : Step s (.type c) s') (hclear : Clear s (.type c)) :
    (s.kept.length < s.taken.length + stdinBufsize ∧ s.kept.length + 1 < 2 ^ 31 ∧
      s' = ⟨⟨s.taken.length, (s.kept ++ [c]).length, update s.ring.buffer (slot s.kept.length) c⟩,
        [], s.typed ++ [c], s.kept ++ [c], s.taken⟩) ∨
    s' = { s with queue := [], typed := s.typed ++ [c] } := by
  obtain ⟨-, rfl⟩ := hstep
  rw [devStdinWrite, h.wpos, h.rpos]
  by_cases hroom : s.kept.length < s.taken.length + stdinBufsize
  · rw [Clear, if_pos hroom] at hclear
    refine .inl ⟨hroom, hclear, ?_⟩
    rw [if_pos (h.room.mpr hroom), if_pos (h.room.mpr hroom), length_append, ← slot,
      toOff_succ hclear]
    rfl
  · -- the position after the last character has the slot of the oldest one
    have hbound := h.bound
    have hslot : slot s.kept.length = s.ring.pRpos.tmod stdinBufsize := by
      rw [h.rpos, ← slot, slot_eq_iff]
      rw [Nat.le_antisymm hbound (Nat.le_of_not_lt hroom), Nat.add_mod_right]
    rw [Clear, if_neg hroom] at hclear
    rw [if_neg (mt h.room.mp hroom), if_neg (mt h.room.mp hroom), ← slot, hslot, ← hclear,
      Ring.next, update_eq_self, ← h.wpos, ← h.rpos]
    exact .inr rfl

theorem Counts.step (hstep : Step s e s') (hclear : Clear s e) : Counts s' := by
  have hle := h.le
  have hbound := h.bound
  cases e with
  | type c =>
    obtain ⟨hroom, hsmall, rfl⟩ | rfl := h.type hstep hclear
    · refine ⟨rfl, rfl, ?_, ?_, ?_⟩ <;>
      · simp only [length_append, length_singleton]
        omega
    · exact { h with le := hle, bound := hbound }
  | take =>
    obtain ⟨hready, rfl⟩ := hstep
    rw [h.ready] at hready
    have hsmall := h.small
    refine ⟨?_, h.wpos, ?_, ?_, hsmall⟩
    · rw [Ring.pass, h.rpos, length_append, toOff_succ (by omega)]
      rfl
    · simp only [length_append, length_singleton]
      omega
    · simp only [length_append, length_singleton]
      omega
  | sleep p =>
    obtain ⟨-, rfl⟩ := hstep
    exact { h with le := hle, bound := hbound }
  | leave p =>
    obtain rfl := hstep
    exact { h with le := hle, bound := hbound }

theorem Counts.drops (hstep : Step s (.type c) s') : s'.kept =
    if s.kept.length < s.taken.length + stdinBufsize then s.kept ++ [c] else s.kept := by
  obtain ⟨-, rfl⟩ := hstep
  simp only [h.room]

theorem Counts.sound_step (hs : Sound s) (hstep : Step s e s') (hclear : Clear s e) : Sound s' := by
  have h' := h.step hstep hclear
  cases e with
  | type c =>
    obtain ⟨hroom, -, rfl⟩ | rfl := h.type hstep hclear
    · refine ⟨hs.toWindow.push fun i hi hlt => ?_, hs.taken.trans (prefix_append _ _),
        hs.kept.append_right _, absurd rfl, fun _ _ => h'.drops⟩
      rw [Ne, slot_eq_iff]
      unfold stdinBufsize at *
      omega
    · exact ⟨hs.toWindow, hs.taken, hs.kept.trans (sublist_append_left _ _), absurd rfl,
        fun _ _ => h'.drops⟩
  | take =>
    obtain ⟨hready, rfl⟩ := hstep
    rw [h.ready] at hready
    refine ⟨hs.toWindow.drop ?_, ?_, hs.kept, fun hqueue => ?_, fun _ _ => h'.drops⟩
    · rw [length_append]
      exact Nat.le_add_right _ _
    · have hnext : s.kept.take (s.taken.length + 1) = s.taken ++ [s.ring.next] := by
        rw [take_add_one, ← prefix_iff_eq_take.mp hs.taken, hs.held _ le_rfl hready,
          Ring.next, h.rpos]
        rfl
      exact hnext ▸ take_prefix _ _
    · rw [hs.awake hqueue] at hready
      exact absurd hready (Nat.lt_irrefl _)
  | sleep p =>
    obtain ⟨hempty, rfl⟩ := hstep
    refine ⟨hs.toWindow, hs.taken, hs.kept, fun _ => hs.taken.eq_of_length_le ?_,
      fun _ _ => h'.drops⟩
    have hnot := mt h.ready.mpr (Bool.eq_false_iff.mp hempty)
    exact Nat.le_of_not_lt hnot
  | leave p =>
    obtain rfl := hstep
    refine ⟨hs.toWindow, hs.taken, hs.kept, fun hqueue => hs.awake fun hnil => hqueue ?_,
      fun _ _ => h'.drops⟩
    rw [hnil, erase_nil]

end

theorem counts_fresh : Counts (.fresh buffer) :=
  ⟨rfl, rfl, Nat.le_refl 0, Nat.zero_le _, Nat.two_pow_pos 31⟩

/-- In every run in which characters arrive only while the ring has room and fewer than `2 ^ 31`
have been kept, or are those that stand at the front of the full ring: the readers get the
characters that were not dropped, in their order, the unread ones are in their slots, nobody
waits beside one, and a character is dropped only by a full ring. -/
theorem console_sound (hrun : Run (fun s e s' => Step s e s' ∧ Clear s e) (.fresh buffer) es s) :
    Sound s := by
  have hfresh : Sound (.fresh buffer) := ⟨⟨fun _ _ _ _ h => absurd h (Nat.not_lt_zero _),
    fun _ _ h => absurd h (Nat.not_lt_zero _)⟩, prefix_rfl, .refl _, absurd rfl,
    fun _ _ => counts_fresh.drops⟩
  exact (hrun.invariant (I := fun s => Counts s ∧ Sound s) (fun _ _ _ h hstep =>
    ⟨h.1.step hstep.1 hstep.2, h.1.sound_step h.2 hstep.1 hstep.2⟩) ⟨counts_fresh, hfresh⟩).2

/-- A reader sleeps, and a character wakes it up. -/
theorem console_sound_woken : ∃ s, Run (fun s e s' => Step s e s' ∧ Clear s e)
    (.fresh fun _ => 0) [.sleep 3, .type 65] s ∧ s.kept = [65] ∧ s.queue = [] ∧ Sound s := by
  refine Run.exists_imp (P := fun s => s.kept = [65] ∧ s.queue = []) ?_
    fun s hrun hs => ⟨hs.1, hs.2, console_sound hrun⟩
  exact ⟨_, .cons ⟨⟨rfl, rfl⟩, trivial⟩
    (.cons ⟨⟨by decide, rfl⟩, by unfold Clear; decide⟩ (.nil _)), rfl, rfl⟩

/-- The same character is typed again and again. -/
theorem run_type {n : ℕ} (hn : n ≤ stdinBufsize) : ∃ s,
    Run Step (.fresh buffer) (replicate n (.type 1)) s ∧ Counts s ∧ s.taken = [] ∧
      s.kept = replicate n 1 := by
  induction n with
  | zero => exact ⟨_, .nil _, counts_fresh, rfl, rfl⟩
  | succ n ih =>
    obtain ⟨s, hrun, hcounts, htaken, hkept⟩ := ih (by omega)
    have hroom : s.kept.length < s.taken.length + stdinBufsize := by
      rw [hkept, htaken, length_replicate]
      omega
    have hstep : Step s (.type 1) _ := ⟨by decide, rfl⟩
    rw [replicate_succ']
    refine ⟨_, hrun.snoc hstep, hcounts.step hstep ?_, htaken, ?_⟩
    · rw [Clear, if_pos hroom, hkept, length_replicate]
      unfold stdinBufsize at hn
      omega
    · rw [hcounts.drops hstep, if_pos hroom, hkept, replicate_succ']

/-- After as many characters as the ring holds another one is typed, and is read first. -/
theorem console_overwrites_unread : ∃ es s, Run Step (.fresh fun _ => 0) es s ∧ s.taken = [] ∧
    s.kept[0]? = some 1 ∧ s.ring.next = 2 := by
  obtain ⟨s, hrun, hcounts, htaken, hkept⟩ := run_type le_rfl
  have hfull : ¬s.kept.length < s.taken.length + stdinBufsize := by
    rw [hkept, htaken, length_replicate, length_nil]
    omega
  have hstep : Step s (.type 2) _ := ⟨by decide, rfl⟩
  refine ⟨_, _, hrun.snoc hstep, htaken, ?_, ?_⟩
  · rw [hcounts.drops hstep, if_neg hfull, hkept]
    rfl
  · show update s.ring.buffer (s.ring.pWpos.tmod stdinBufsize) 2 (s.ring.pRpos.tmod _) = 2
    rw [hcounts.wpos, hcounts.rpos, hkept, htaken, length_replicate]
    exact update_self _ _ _

end Ucore.Stdin
