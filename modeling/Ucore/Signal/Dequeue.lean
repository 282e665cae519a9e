import Ucore.Signal.Sets

/-!
# Signals are taken one by one

`dequeue_signal` returns a signal that waits for the thread and is not blocked, and takes it out
of one set. So a signal up to 63 that is not blocked is returned after finitely many calls, and
the loop of `do_signal` ends. The signal 64 is never returned.
-/

namespace Ucore.Sync

open Function

namespace SigState

variable {s s' : SigState} {p q sign n : ℕ} {signs : List ℕ} {i : SigInfo}

/-- The signal waits for the thread, in its own set or in that of its group. -/
def Waits (s : SigState) (p sign : ℕ) : Prop :=
  sigismember (s.info p).pending sign = true ∨ sigismember (s.shared p) sign = true

/-! ## What the updates leave alone -/

theorem info_setInfo_self : (s.setInfo p i).info p = i := update_self p _ _

theorem info_setInfo_of_ne (hq : q ≠ p) : (s.setInfo p i).info q = s.info q :=
  update_of_ne hq ..

/-- The parts of the tables that a change of the sets of signals leaves alone. -/
structure SameMasks (s s' : SigState) : Prop where
  blocked : ∀ q, (s'.info q).blocked = (s.info q).blocked
  signal : ∀ q, (s'.info q).signal = (s.info q).signal
  sighand : ∀ q, (s'.info q).sighand = (s.info q).sighand
  exiting : ∀ q, (s'.info q).exiting = (s.info q).exiting
  others : s'.others = s.others
  action : s'.action = s.action

theorem SameMasks.refl : SameMasks s s :=
  ⟨fun _ => rfl, fun _ => rfl, fun _ => rfl, fun _ => rfl, rfl, rfl⟩

theorem SameMasks.trans {s'' : SigState} (h : SameMasks s s') (h' : SameMasks s' s'') :
    SameMasks s s'' :=
  ⟨fun q => (h'.blocked q).trans (h.blocked q), fun q => (h'.signal q).trans (h.signal q),
    fun q => (h'.sighand q).trans (h.sighand q), fun q => (h'.exiting q).trans (h.exiting q),
    h'.others.trans h.others, h'.action.trans h.action⟩

/-- A change of one thread's set and flag. -/
theorem sameMasks_setInfo (p : ℕ) (pending : SigSet) (flag : Bool) :
    SameMasks s (s.setInfo p { s.info p with pending := pending, sigPending := flag }) := by
  have hinfo : ∀ q, ∃ set b, (s.setInfo p
      { s.info p with pending := pending, sigPending := flag }).info q =
        { s.info q with pending := set, sigPending := b } := by
    intro q
    rcases eq_or_ne q p with rfl | hq
    · exact ⟨pending, flag, info_setInfo_self⟩
    · exact ⟨(s.info q).pending, (s.info q).sigPending, info_setInfo_of_ne hq⟩
  refine ⟨fun q => ?_, fun q => ?_, fun q => ?_, fun q => ?_, rfl, rfl⟩ <;>
  · obtain ⟨set, b, heq⟩ := hinfo q
    rw [heq]

theorem sameMasks_dropShared : SameMasks s (s.dropShared signs n) :=
  ⟨fun _ => rfl, fun _ => rfl, fun _ => rfl, fun _ => rfl, rfl, rfl⟩

theorem sameMasks_recalcPending : SameMasks s (s.recalcPending p) :=
  sameMasks_setInfo p (s.info p).pending _

theorem sameMasks_dropPending : SameMasks s (s.dropPending signs p) :=
  (sameMasks_setInfo p _ (s.info p).sigPending).trans sameMasks_recalcPending

/-- A thread's view of the group's set depends on two tables only. -/
theorem shared_congr (hinfo : (s'.info q).signal = (s.info q).signal)
    (hsignal : s'.signal = s.signal) : s'.shared q = s.shared q := by
  unfold shared
  rw [hinfo, hsignal]

theorem shared_recalcPending : (s.recalcPending p).shared q = s.shared q :=
  shared_congr (sameMasks_recalcPending.signal q) rfl

theorem shared_dropPending : (s.dropPending signs p).shared q = s.shared q :=
  shared_congr (sameMasks_dropPending.signal q) rfl

theorem shared_dropShared_self (hq : (s.info q).signal = n) :
    (s.dropShared signs n).shared q = signs.foldl sigsetDel (s.shared q) := by
  subst hq
  show (update s.signal _ _ (s.info q).signal).sharedPending = _
  rw [update_self]
  rfl

theorem shared_dropShared_of_ne (hq : (s.info q).signal ≠ n) :
    (s.dropShared signs n).shared q = s.shared q :=
  congrArg SignalStruct.sharedPending (update_of_ne hq ..)

theorem pending_recalcPending : ((s.recalcPending p).info q).pending = (s.info q).pending := by
  unfold recalcPending
  rcases eq_or_ne q p with rfl | hq
  · rw [info_setInfo_self]
  · rw [info_setInfo_of_ne hq]

theorem pending_dropPending_self :
    ((s.dropPending signs p).info p).pending = signs.foldl sigsetDel (s.info p).pending := by
  unfold dropPending
  rw [pending_recalcPending, info_setInfo_self]

theorem info_recalcPending_of_ne (hq : q ≠ p) : (s.recalcPending p).info q = s.info q :=
  info_setInfo_of_ne hq

theorem info_dropPending_of_ne (hq : q ≠ p) : (s.dropPending signs p).info q = s.info q := by
  unfold dropPending
  rw [info_recalcPending_of_ne hq, info_setInfo_of_ne hq]

/-- Nothing waits after signals are taken out that did not wait before. -/
theorem waits_of_dropShared (h : (s.dropShared signs n).Waits q sign) : s.Waits q sign := by
  refine h.imp id fun hshared => ?_
  by_cases hq : (s.info q).signal = n
  · rw [shared_dropShared_self hq] at hshared
    exact sigismember_of_foldl_sigsetDel hshared
  · rwa [shared_dropShared_of_ne hq] at hshared

theorem waits_recalcPending : (s.recalcPending p).Waits q sign ↔ s.Waits q sign := by
  unfold Waits
  rw [pending_recalcPending, shared_recalcPending]

theorem waits_of_dropPending (h : (s.dropPending signs p).Waits q sign) : s.Waits q sign := by
  unfold Waits at h
  rw [shared_dropPending] at h
  refine h.imp (fun hpending => ?_) id
  rcases eq_or_ne q p with rfl | hq
  · rw [pending_dropPending_self] at hpending
    exact sigismember_of_foldl_sigsetDel hpending
  · rwa [info_dropPending_of_ne hq] at hpending

/-! ## The flag -/

/-- Some signal waits and is not blocked. -/
theorem deliverable_ne_zero : s.deliverable p ≠ 0 ↔
    ∃ n, 1 ≤ n ∧ n ≤ 64 ∧ s.Waits p n ∧ sigismember (s.info p).blocked n = false := by
  have hmem : ∀ n, sigismember (s.deliverable p) n = true ↔
      s.Waits p n ∧ sigismember (s.info p).blocked n = false := by
    intro n
    rw [deliverable, sigismember_and_not, sigismember_or, Bool.and_eq_true, Bool.or_eq_true,
      Bool.not_eq_true']
    rfl
  constructor
  · intro hne
    by_contra hnone
    refine hne (sigSet_eq_zero fun n hpos hn => ?_)
    by_contra hbit
    rw [Bool.not_eq_false] at hbit
    exact hnone ⟨n, hpos, hn, (hmem n).mp hbit⟩
  · rintro ⟨n, -, -, hn⟩
    exact sigSet_ne_zero ((hmem n).mpr hn)

/-- `sig_recalc_pending` computes the flag. -/
theorem sigPending_recalcPending :
    ((s.recalcPending p).info p).sigPending = true ↔ s.deliverable p ≠ 0 := by
  unfold recalcPending
  rw [info_setInfo_self]
  rw [decide_eq_true_iff]
  have hsplit : s.deliverable p = ((s.info p).pending &&& ~~~(s.info p).blocked) |||
      (s.shared p &&& ~~~(s.info p).blocked) := by
    apply BitVec.eq_of_getLsbD_eq
    intro i _
    simp only [deliverable, BitVec.getLsbD_and, BitVec.getLsbD_or, Bool.and_or_distrib_right]
  rw [hsplit, ← not_and_or]
  exact not_congr BitVec.or_eq_zero_iff.symm

/-! ## One call -/

/-- What `dequeue_signal` returns and does. -/
theorem dequeueSignal_cases (s : SigState) (p : ℕ) :
    (∃ sign, firstSign (s.info p).blocked (s.info p).pending = some sign ∧
      s.dequeueSignal p = (sign, s.dropPending [sign] p)) ∨
    (∃ sign, firstSign (s.info p).blocked (s.shared p) = some sign ∧
      s.dequeueSignal p = (sign, (s.dropShared [sign] (s.info p).signal).recalcPending p)) ∨
    (s.dequeueSignal p = (0, s) ∧ ∀ sign, 1 ≤ sign → sign ≤ 63 →
      sigismember (s.info p).blocked sign = false → ¬s.Waits p sign) := by
  unfold dequeueSignal
  cases hown : firstSign (s.info p).blocked (s.info p).pending with
  | some sign => exact .inl ⟨sign, rfl, rfl⟩
  | none =>
    cases hgroup : firstSign (s.info p).blocked (s.shared p) with
    | some sign => exact .inr (.inl ⟨sign, rfl, rfl⟩)
    | none =>
      refine .inr (.inr ⟨rfl, fun sign hpos hsign hblocked hwaits => ?_⟩)
      rcases hwaits with hpending | hshared
      · rw [firstSign_none hown hpos hsign hblocked] at hpending
        exact absurd hpending Bool.false_ne_true
      · rw [firstSign_none hgroup hpos hsign hblocked] at hshared
        exact absurd hshared Bool.false_ne_true

theorem sameMasks_dequeueSignal : SameMasks s (s.dequeueSignal p).2 := by
  obtain ⟨sign, -, heq⟩ | ⟨sign, -, heq⟩ | ⟨heq, -⟩ := s.dequeueSignal_cases p <;> rw [heq]
  · exact sameMasks_dropPending
  · exact sameMasks_dropShared.trans sameMasks_recalcPending
  · exact .refl

/-- Taking signals adds none. -/
theorem waits_of_dequeueSignal (h : (s.dequeueSignal p).2.Waits q sign) : s.Waits q sign := by
  obtain ⟨m, -, heq⟩ | ⟨m, -, heq⟩ | ⟨heq, -⟩ := s.dequeueSignal_cases p <;> rw [heq] at h
  · exact waits_of_dropPending h
  · exact waits_of_dropShared (waits_recalcPending.mp h)
  · exact h

/-- The signal returned was waiting and not blocked. -/
theorem dequeueSignal_ne_zero (h : (s.dequeueSignal p).1 ≠ 0) :
    1 ≤ (s.dequeueSignal p).1 ∧ (s.dequeueSignal p).1 ≤ 63 ∧
      sigismember (s.info p).blocked (s.dequeueSignal p).1 = false ∧
      s.Waits p (s.dequeueSignal p).1 := by
  obtain ⟨m, hfirst, heq⟩ | ⟨m, hfirst, heq⟩ | ⟨heq, -⟩ := s.dequeueSignal_cases p <;>
    rw [heq] at h ⊢
  · obtain ⟨hpos, hm, hblocked, hmem⟩ := firstSign_some hfirst
    exact ⟨hpos, hm, hblocked, .inl hmem⟩
  · obtain ⟨hpos, hm, hblocked, hmem⟩ := firstSign_some hfirst
    exact ⟨hpos, hm, hblocked, .inr hmem⟩
  · exact absurd rfl h

/-- If 0 is returned, every signal up to 63 that waits is blocked. -/
theorem not_waits_of_dequeueSignal_zero (h : (s.dequeueSignal p).1 = 0) (hpos : 1 ≤ sign)
    (hsign : sign ≤ 63) (hblocked : sigismember (s.info p).blocked sign = false) :
    ¬s.Waits p sign := by
  obtain ⟨m, hfirst, heq⟩ | ⟨m, hfirst, heq⟩ | ⟨-, hnone⟩ := s.dequeueSignal_cases p
  · have := (firstSign_some hfirst).1
    rw [heq] at h
    omega
  · have := (firstSign_some hfirst).1
    rw [heq] at h
    omega
  · exact hnone sign hpos hsign hblocked

/-- A signal that is not returned goes on waiting. -/
theorem waits_dequeueSignal (h : s.Waits p sign) (hpos : 1 ≤ sign)
    (hother : (s.dequeueSignal p).1 ≠ sign) : (s.dequeueSignal p).2.Waits p sign := by
  obtain ⟨m, hfirst, heq⟩ | ⟨m, hfirst, heq⟩ | ⟨heq, -⟩ := s.dequeueSignal_cases p <;>
    rw [heq] at hother ⊢
  · obtain ⟨hm, hle, -⟩ := firstSign_some hfirst
    unfold Waits
    rw [pending_dropPending_self, shared_dropPending]
    refine h.imp (fun hpending => ?_) id
    show sigismember (sigsetDel _ m) sign = true
    rw [sigismember_sigsetDel (by omega), hpending]
    simp
    omega
  · obtain ⟨hm, hle, -⟩ := firstSign_some hfirst
    rw [waits_recalcPending]
    unfold Waits
    rw [shared_dropShared_self rfl]
    refine h.imp id fun hshared => ?_
    show sigismember (sigsetDel _ m) sign = true
    rw [sigismember_sigsetDel (by omega), hshared]
    simp
    omega
  · exact h

/-! ## Many calls -/

/-- How many signals calls of `dequeue_signal` can still return. -/
def left (s : SigState) (p : ℕ) : ℕ :=
  (openSigns (s.info p).blocked (s.info p).pending).card +
    (openSigns (s.info p).blocked (s.shared p)).card

theorem left_lt_signalTurns : s.left p < signalTurns := by
  have hown : (openSigns (s.info p).blocked (s.info p).pending).card ≤ 63 := card_openSigns_le
  have hgroup : (openSigns (s.info p).blocked (s.shared p)).card ≤ 63 := card_openSigns_le
  unfold left signalTurns
  omega

/-- Each signal that is returned is one less. -/
theorem left_dequeueSignal (h : (s.dequeueSignal p).1 ≠ 0) :
    (s.dequeueSignal p).2.left p < s.left p := by
  obtain ⟨m, hfirst, heq⟩ | ⟨m, hfirst, heq⟩ | ⟨heq, -⟩ := s.dequeueSignal_cases p <;>
    rw [heq] at h ⊢
  · have hless := card_openSigns_sigsetDel hfirst
    unfold left
    rw [sameMasks_dropPending.blocked, pending_dropPending_self, shared_dropPending]
    exact Nat.add_lt_add_right hless _
  · have hless := card_openSigns_sigsetDel hfirst
    unfold left
    rw [sameMasks_recalcPending.blocked, pending_recalcPending, shared_recalcPending,
      shared_dropShared_self rfl]
    exact Nat.add_lt_add_left hless _
  · exact absurd rfl h

/-- The call number `k`, from 0 on, returns the signal. -/
def Dequeues (p sign : ℕ) : ℕ → SigState → Prop
  | 0, s => (s.dequeueSignal p).1 = sign
  | k + 1, s => Dequeues p sign k (s.dequeueSignal p).2

/-- A signal up to 63 that waits and is not blocked is returned by one of the next calls. -/
theorem exists_dequeues (h : s.Waits p sign) (hpos : 1 ≤ sign) (hsign : sign ≤ 63)
    (hblocked : sigismember (s.info p).blocked sign = false) : ∃ k, Dequeues p sign k s := by
  -- every call before it returns another signal that waited, and these are finitely many
  induction hleft : s.left p using Nat.strong_induction_on generalizing s with
  | _ m ih =>
    subst hleft
    by_cases hzero : (s.dequeueSignal p).1 = 0
    · exact absurd h (not_waits_of_dequeueSignal_zero hzero hpos hsign hblocked)
    by_cases hfound : (s.dequeueSignal p).1 = sign
    · exact ⟨0, hfound⟩
    · obtain ⟨k, hk⟩ := ih _ (left_dequeueSignal hzero) (waits_dequeueSignal h hpos hfound)
        (by rw [sameMasks_dequeueSignal.blocked]; exact hblocked) rfl
      exact ⟨k + 1, hk⟩

/-- Only a signal up to 63 that waits and is not blocked is returned by any call. -/
theorem of_dequeues {k : ℕ} (h : Dequeues p sign k s) (hne : sign ≠ 0) :
    sign ≤ 63 ∧ s.Waits p sign ∧ sigismember (s.info p).blocked sign = false := by
  induction k generalizing s with
  | zero =>
    obtain rfl : (s.dequeueSignal p).1 = sign := h
    obtain ⟨-, hle, hblocked, hwaits⟩ := dequeueSignal_ne_zero hne
    exact ⟨hle, hwaits, hblocked⟩
  | succ k ih =>
    obtain ⟨hle, hwaits, hblocked⟩ := ih h
    rw [sameMasks_dequeueSignal.blocked] at hblocked
    exact ⟨hle, waits_of_dequeueSignal hwaits, hblocked⟩

end SigState

end Ucore.Sync
