import Ucore.Signal.Steps

/-!
# The flag `TIF_SIGPENDING`

The flag of a thread says whether a signal that it does not block waits for it. `Flagged` is the
invariant; every thread has a `struct signal_struct` of its own, so an operation on one set of
signals concerns one thread. Four operations break it: `do_sigsuspend` and `do_sigwaitinfo` change
the mask without a look at the flag, `do_sigkill` may set the flag of a thread that does not look
at the set, `handle_stop_signal` looks at the threads of the sender, and signal 64 is queued but
never taken.
-/

namespace Ucore.Sync

open Function List

namespace SigState

variable {s s' s'' : SigState} {p q sign dst n current m : ℕ} {signs l : List ℕ} {set : SigSet}

/-- The flag of the thread is right. -/
def FlagOk (s : SigState) (p : ℕ) : Prop := (s.info p).sigPending = true ↔ s.deliverable p ≠ 0

/-- What the flag of a thread depends on is the same. -/
structure SameView (s s' : SigState) (q : ℕ) : Prop where
  flag : (s'.info q).sigPending = (s.info q).sigPending
  pending : (s'.info q).pending = (s.info q).pending
  blocked : (s'.info q).blocked = (s.info q).blocked
  shared : s'.shared q = s.shared q

theorem SameView.flagOk (h : SameView s s' q) (hq : s.FlagOk q) : s'.FlagOk q := by
  unfold FlagOk deliverable at hq ⊢
  rwa [h.flag, h.pending, h.blocked, h.shared]

theorem SameView.waits (h : SameView s s' q) : s'.Waits q sign ↔ s.Waits q sign := by
  unfold Waits
  rw [h.pending, h.shared]

theorem SameView.trans (h : SameView s s' q) (h' : SameView s' s'' q) : SameView s s'' q :=
  ⟨h'.flag.trans h.flag, h'.pending.trans h.pending, h'.blocked.trans h.blocked,
    h'.shared.trans h.shared⟩

theorem SameSets.view (h : SameSets s s') : SameView s s' q :=
  ⟨h.flag q, h.pending q, h.blocked q, shared_congr (h.number q) h.signal⟩

/-- Another thread's entry is written. -/
theorem sameView_setInfo {i : SigInfo} (hq : q ≠ p) : SameView s (s.setInfo p i) q := by
  have hinfo : (s.setInfo p i).info q = s.info q := info_setInfo_of_ne hq
  exact ⟨by rw [hinfo], by rw [hinfo], by rw [hinfo], shared_congr (by rw [hinfo]) rfl⟩

theorem sameView_recalcPending (hq : q ≠ p) : SameView s (s.recalcPending p) q :=
  sameView_setInfo hq

theorem sameView_dropPending (hq : q ≠ p) : SameView s (s.dropPending signs p) q :=
  (sameView_setInfo hq).trans (sameView_recalcPending hq)

/-- Another thread's `struct signal_struct` is written. -/
theorem sameView_setSignal {w : SignalStruct} (hq : (s.info q).signal ≠ n) :
    SameView s (s.setSignal n w) q :=
  ⟨rfl, rfl, rfl, congrArg SignalStruct.sharedPending (update_of_ne hq ..)⟩

/-- Only `curr_target` is written. -/
theorem sameView_target : SameView s (s.target n m) q := by
  refine ⟨rfl, rfl, rfl, ?_⟩
  show (update s.signal n _ (s.info q).signal).sharedPending = _
  by_cases hq : (s.info q).signal = n
  · subst hq
    rw [update_self]
    rfl
  · rw [update_of_ne hq]
    rfl

theorem deliverable_recalcPending : (s.recalcPending p).deliverable q = s.deliverable q := by
  unfold deliverable
  rw [pending_recalcPending, shared_recalcPending, sameMasks_recalcPending.blocked]

theorem flagOk_recalcPending : (s.recalcPending p).FlagOk p := by
  unfold FlagOk
  rw [deliverable_recalcPending]
  exact sigPending_recalcPending

/-- A right flag stays right when signals are taken out of a thread's set. -/
theorem FlagOk.dropPending (hq : s.FlagOk q) : (s.dropPending signs p).FlagOk q := by
  rcases eq_or_ne q p with rfl | hqp
  · exact flagOk_recalcPending
  · exact (sameView_dropPending hqp).flagOk hq

/-- The loops over the threads of a group make all flags there right. -/
theorem flagOk_foldl_dropPending (hq : q ∈ l ∨ s.FlagOk q) :
    (l.foldl (SigState.dropPending signs) s).FlagOk q := by
  induction l generalizing s with
  | nil => exact hq.resolve_left not_mem_nil
  | cons a l ih =>
    refine ih ?_
    rcases hq with hmem | hok
    · rcases mem_cons.mp hmem with rfl | hmem
      · exact .inr flagOk_recalcPending
      · exact .inl hmem
    · exact .inr hok.dropPending

theorem waits_of_foldl_dropPending (h : (l.foldl (SigState.dropPending signs) s).Waits q sign) :
    s.Waits q sign := by
  induction l generalizing s with
  | nil => exact h
  | cons a l ih => exact waits_of_dropPending (ih h)

/-! ## The invariant -/

/-- The threads that live have lived before, with the same `struct signal_struct`. -/
structure SameThreads (s s' : SigState) : Prop where
  live : ∀ q, s'.Live q → s.Live q
  signal : ∀ q, (s'.info q).signal = (s.info q).signal

/-- Every thread has a `struct signal_struct` of its own. -/
def Own (s : SigState) : Prop :=
  ∀ p q, s.Live p → s.Live q → (s.info p).signal = (s.info q).signal → p = q

theorem SameMasks.threads (h : SameMasks s s') : SameThreads s s' :=
  ⟨fun q hq => by unfold Live at hq ⊢; rwa [h.sighand] at hq, h.signal⟩

theorem SameSets.threads (h : SameSets s s') : SameThreads s s' :=
  ⟨fun q hq => by unfold Live at hq ⊢; rwa [h.sighand q hq] at hq, h.number⟩

theorem SameThreads.trans (h : SameThreads s s') (h' : SameThreads s' s'') : SameThreads s s'' :=
  ⟨fun q hq => h.live q (h'.live q hq), fun q => (h'.signal q).trans (h.signal q)⟩

theorem SameThreads.own (h : SameThreads s s') (hown : s.Own) : s'.Own := by
  intro p q hp hq heq
  rw [h.signal, h.signal] at heq
  exact hown p q (h.live p hp) (h.live q hq) heq

/-- The flags of the threads are right, and signal 64 waits for nobody. -/
structure Flagged (s : SigState) : Prop where
  own : s.Own
  last : ∀ p, ¬s.Waits p 64
  flag : ∀ p, s.Live p → s.FlagOk p

theorem Flagged.of_sameSets (h : s.Flagged) (hs : SameSets s s') : s'.Flagged :=
  ⟨hs.threads.own h.own, fun p hp => h.last p (hs.view.waits.mp hp),
    fun p hp => hs.view.flagOk (h.flag p (hs.threads.live p hp))⟩

/-- An operation that concerns one thread. -/
theorem Flagged.of_view (h : s.Flagged) (hs : SameThreads s s')
    (hlast : ∀ q, s'.Waits q 64 → s.Waits q 64)
    (hother : ∀ q, q ≠ p → s'.Live q → SameView s s' q) (hp : s'.Live p → s'.FlagOk p) :
    s'.Flagged := by
  refine ⟨hs.own h.own, fun q hq => h.last q (hlast q hq), fun q hq => ?_⟩
  rcases eq_or_ne q p with rfl | hqp
  · exact hp hq
  · exact (hother q hqp hq).flagOk (h.flag q (hs.live q hq))

/-! ## Masks and handlers -/

theorem sameThreads_setBlocked : SameThreads s (s.setBlocked p set) := by
  have hinfo : ∀ q, ∃ b, (s.setBlocked p set).info q = { s.info q with blocked := b } := by
    intro q
    rcases eq_or_ne q p with rfl | hq
    · exact ⟨set, info_setInfo_self⟩
    · exact ⟨(s.info q).blocked, info_setInfo_of_ne hq⟩
  refine ⟨fun q hq => ?_, fun q => ?_⟩
  · obtain ⟨b, heq⟩ := hinfo q
    unfold Live at hq ⊢
    rwa [heq] at hq
  · obtain ⟨b, heq⟩ := hinfo q
    rw [heq]

theorem waits_setBlocked : (s.setBlocked p set).Waits q sign ↔ s.Waits q sign := by
  have hpending : ((s.setBlocked p set).info q).pending = (s.info q).pending := by
    unfold setBlocked
    rcases eq_or_ne q p with rfl | hq
    · rw [info_setInfo_self]
    · rw [info_setInfo_of_ne hq]
  unfold Waits
  rw [hpending, shared_congr (sameThreads_setBlocked.signal q) rfl]

/-- A mask is changed and the flag computed again. -/
theorem Flagged.changeMask (h : s.Flagged) : (s.changeMask p set).Flagged := by
  refine h.of_view (sameThreads_setBlocked.trans sameMasks_recalcPending.threads)
    (fun q hq => ?_) (fun q hqp _ => ?_) fun _ => flagOk_recalcPending
  · exact waits_setBlocked.mp (waits_recalcPending.mp hq)
  · exact (sameView_setInfo hqp).trans (sameView_recalcPending hqp)

/-- A thread waits under another mask, under which as many or as few signals wait for it. -/
theorem Flagged.waitUnder (h : s.Flagged)
    (hsame : (s.setBlocked p set).deliverable p ≠ 0 ↔ s.deliverable p ≠ 0) :
    (s.waitUnder p set).Flagged := by
  refine Flagged.of_sameSets ?_ sameSets_setSched
  refine h.of_view sameThreads_setBlocked (fun q => waits_setBlocked.mp)
    (fun q hqp _ => sameView_setInfo hqp) fun hp => ?_
  have hflag : (s.info p).sigPending = true ↔ s.deliverable p ≠ 0 :=
    h.flag p (sameThreads_setBlocked.live p hp)
  unfold FlagOk
  rw [hsame, ← hflag]
  unfold setBlocked
  rw [info_setInfo_self]

/-- A thread's own `struct signal_struct` is not that of another. -/
theorem Own.signal_ne (h : s.Own) (hp : s.Live p) (hq : s.Live q) (hne : q ≠ p) :
    (s.info q).signal ≠ (s.info p).signal := fun heq => hne (h q p hq hp heq)

/-- An ignored signal is taken out of all sets of the group. -/
theorem Flagged.dropIgnored (h : s.Flagged) (hp : s.Live p) : (s.dropIgnored p sign).Flagged := by
  refine ⟨sameMasks_dropIgnored.threads.own h.own, fun q hq => ?_, fun q hq => ?_⟩
  · exact h.last q (waits_of_dropShared (waits_of_foldl_dropPending hq))
  · refine flagOk_foldl_dropPending ?_
    by_cases hqp : q = p
    · exact .inl (hqp ▸ mem_cons_self)
    · have hlive : s.Live q := sameMasks_dropIgnored.threads.live q hq
      exact .inr ((sameView_setSignal (h.own.signal_ne hp hlive hqp)).flagOk (h.flag q hlive))

/-! ## Taking signals -/

theorem Flagged.dequeueSignal (h : s.Flagged) (hp : s.Live p) : (s.dequeueSignal p).2.Flagged := by
  refine h.of_view (p := p) sameMasks_dequeueSignal.threads (fun q => waits_of_dequeueSignal) ?_ ?_
  · intro q hqp hq
    have hlive : s.Live q := sameMasks_dequeueSignal.threads.live q hq
    obtain ⟨m, -, heq⟩ | ⟨m, -, heq⟩ | ⟨heq, -⟩ := s.dequeueSignal_cases p <;> rw [heq]
    · exact sameView_dropPending hqp
    · exact (sameView_setSignal (h.own.signal_ne hp hlive hqp)).trans (sameView_recalcPending hqp)
    · exact SameSets.refl.view
  · intro _
    obtain ⟨m, -, heq⟩ | ⟨m, -, heq⟩ | ⟨heq, -⟩ := s.dequeueSignal_cases p <;> rw [heq]
    · exact flagOk_recalcPending
    · exact flagOk_recalcPending
    · exact h.flag p hp

/-- When `dequeue_signal` finds nothing, nothing is left to deliver. -/
theorem Flagged.deliverable_eq_zero (h : s.Flagged) (hzero : (s.dequeueSignal p).1 = 0) :
    s.deliverable p = 0 := by
  by_contra hne
  obtain ⟨n, hpos, hle, hwaits, hopen⟩ := deliverable_ne_zero.mp hne
  by_cases hlast : n = 64
  · exact h.last p (hlast ▸ hwaits)
  · exact not_waits_of_dequeueSignal_zero hzero hpos (by omega) hopen hwaits

/-! ## Sending -/

theorem waits_queued (hpos : 1 ≤ sign) (hle : sign ≤ 64) (hn : 1 ≤ n) :
    (s.queued p sign).Waits p n ↔ s.Waits p n ∨ n = sign := by
  have hshared : (s.queued p sign).shared p = s.shared p :=
    shared_congr (sameMasks_queued.signal p) rfl
  unfold Waits
  rw [hshared]
  unfold queued
  rw [info_setInfo_self, sigismember_sigsetAdd hle, Bool.or_eq_true, decide_eq_true_iff]
  have heq : n - 1 = sign - 1 ↔ n = sign := by omega
  rw [heq, or_right_comm]

theorem Flagged.queued (h : s.Flagged) (hpos : 1 ≤ sign) (hle : sign ≤ 63) :
    (s.queued p sign).Flagged := by
  refine h.of_view sameMasks_queued.threads (fun q hq => ?_)
    (fun q hqp _ => sameView_setInfo hqp) fun hp => ?_
  · rcases eq_or_ne q p with rfl | hqp
    · exact ((waits_queued hpos (by omega) (by decide)).mp hq).resolve_right (by omega)
    · exact (sameView_setInfo hqp).waits.mp hq
  · have hflag := h.flag p (sameMasks_queued.threads.live p hp)
    unfold FlagOk at hflag ⊢
    rw [deliverable_ne_zero, sameMasks_queued.blocked]
    rw [deliverable_ne_zero] at hflag
    have hnew : ((s.queued p sign).info p).sigPending = true ↔
        (s.info p).sigPending = true ∨ sigismember (s.info p).blocked sign = false := by
      unfold SigState.queued
      rw [info_setInfo_self, Bool.or_eq_true, Bool.not_eq_true']
    rw [hnew, hflag]
    constructor
    · rintro (⟨n, hn, hn64, hwaits, hopen⟩ | hopen)
      · exact ⟨n, hn, hn64, (waits_queued hpos (by omega) hn).mpr (.inl hwaits), hopen⟩
      · exact ⟨sign, hpos, by omega, (waits_queued hpos (by omega) hpos).mpr (.inr rfl), hopen⟩
    · rintro ⟨n, hn, hn64, hwaits, hopen⟩
      rcases (waits_queued hpos (by omega) hn).mp hwaits with hold | rfl
      · exact .inl ⟨n, hn, hn64, hold, hopen⟩
      · exact .inr hopen

/-! ### Stop signals -/

theorem sharedDropped_range (hm : m ∈ sharedDropped sign) : 1 ≤ m ∧ m ≤ 64 := by
  unfold sharedDropped at hm
  split at hm
  · obtain rfl := mem_singleton.mp hm
    decide
  · split at hm
    · revert m
      decide
    · cases hm

theorem not_mem_sharedDropped : sign ∉ sharedDropped sign := by
  intro hm
  unfold sharedDropped at hm
  split at hm
  · rename_i hstop
    rw [mem_singleton.mp hm] at hstop
    exact absurd hstop (by decide)
  · split at hm
    · rename_i hcont
      rw [hcont] at hm
      exact absurd hm (by decide)
    · cases hm

theorem waits_of_stopHandled (h : (s.stopHandled current sign dst).Waits q n) : s.Waits q n := by
  unfold stopHandled at h
  split at h
  · exact waits_of_dropShared (waits_of_foldl_dropPending h)
  · exact h

theorem shared_foldl_dropPending :
    (l.foldl (SigState.dropPending signs) s).shared q = s.shared q := by
  induction l generalizing s with
  | nil => rfl
  | cons a l ih =>
    rw [foldl_cons, ih]
    exact shared_dropPending

/-- The signal that is sent is not one that `handle_stop_signal` takes out of the group's set. -/
theorem sigismember_shared_stopHandled (hpos : 1 ≤ sign) :
    sigismember ((s.stopHandled current sign dst).shared dst) sign =
      sigismember (s.shared dst) sign := by
  unfold stopHandled
  split
  · rw [shared_foldl_dropPending, shared_dropShared_self rfl]
    exact sigismember_foldl_sigsetDel (fun m => sharedDropped_range) hpos not_mem_sharedDropped
  · rfl

/-- `handle_stop_signal` keeps the flags right if it comes to the thread that gets the signal, or
has nothing to take from it. -/
theorem Flagged.stopHandled (h : s.Flagged) (hdst : s.Live dst)
    (hdrop : dst ∈ current :: s.others current ∨
      ∀ m ∈ sharedDropped sign, sigismember (s.shared dst) m = false) :
    (s.stopHandled current sign dst).Flagged := by
  refine ⟨sameMasks_stopHandled.threads.own h.own, fun q hq => h.last q (waits_of_stopHandled hq),
    fun q hq => ?_⟩
  have hlive : s.Live q := sameMasks_stopHandled.threads.live q hq
  unfold SigState.stopHandled
  split
  · refine flagOk_foldl_dropPending ?_
    rcases eq_or_ne q dst with rfl | hqd
    · refine hdrop.imp id fun habsent => ?_
      have hshared : (s.dropShared (sharedDropped sign) (s.info q).signal).shared q =
          s.shared q := by
        rw [shared_dropShared_self rfl]
        exact foldl_sigsetDel_eq_self (fun m hm => (sharedDropped_range hm).2) habsent
      have hview : SameView s (s.dropShared (sharedDropped sign) (s.info q).signal) q :=
        ⟨rfl, rfl, rfl, hshared⟩
      exact hview.flagOk (h.flag q hlive)
    · exact .inr ((sameView_setSignal (h.own.signal_ne hdst hlive hqd)).flagOk (h.flag q hlive))
  · exact h.flag q hlive

/-! ### Groups -/

theorem waits_addShared (hpos : 1 ≤ sign) (hle : sign ≤ 64) (hn : 1 ≤ n) :
    (s.addShared m sign).Waits q n ↔ s.Waits q n ∨ (s.info q).signal = m ∧ n = sign := by
  by_cases hq : (s.info q).signal = m
  · subst hq
    have hshared : (s.addShared (s.info q).signal sign).shared q = sigsetAdd (s.shared q) sign := by
      show (update s.signal _ _ (s.info q).signal).sharedPending = _
      rw [update_self]
      rfl
    have heq : n - 1 = sign - 1 ↔ n = sign := by omega
    unfold Waits
    rw [hshared, sigismember_sigsetAdd hle, Bool.or_eq_true, decide_eq_true_iff, heq, ← or_assoc]
    simp only [true_and]
    rfl
  · have hview : SameView s (s.addShared m sign) q := sameView_setSignal hq
    rw [hview.waits]
    simp [hq]

theorem waits_raise : (s.raise p).Waits q n ↔ s.Waits q n := by
  have hpending : ((s.raise p).info q).pending = (s.info q).pending := by
    unfold raise
    rcases eq_or_ne q p with rfl | hq
    · rw [info_setInfo_self]
    · rw [info_setInfo_of_ne hq]
  have hshared : (s.raise p).shared q = s.shared q := shared_congr (sameMasks_raise.signal q) rfl
  unfold Waits
  rw [hpending, hshared]

/-- The sets after a send to a group. -/
theorem waits_groupSent (hpos : 1 ≤ sign) (hle : sign ≤ 64) (hn : 1 ≤ n) :
    (s.groupSent sign dst).Waits q n ↔
      s.Waits q n ∨ (s.info q).signal = (s.info dst).signal ∧ n = sign := by
  rw [← waits_addShared hpos hle hn]
  unfold groupSent
  cases s.pick sign dst with
  | none => exact sameView_target.waits
  | some r => exact waits_raise.trans sameView_target.waits

/-- What a send to a group means for a thread that it does not pick. -/
theorem sameView_groupSent (hq : (s.info q).signal ≠ (s.info dst).signal)
    (hpick : s.pick sign dst ≠ some q) : SameView s (s.groupSent sign dst) q := by
  have hadd : SameView s (s.addShared (s.info dst).signal sign) q := sameView_setSignal hq
  unfold groupSent
  cases hfound : s.pick sign dst with
  | none => exact hadd.trans sameView_target
  | some r =>
    refine (hadd.trans sameView_target).trans (sameView_setInfo fun hqr => ?_)
    rw [hqr] at hpick
    exact hpick hfound

theorem sigPending_groupSent : ((s.groupSent sign dst).info q).sigPending = true ↔
    (s.info q).sigPending = true ∨ s.pick sign dst = some q := by
  unfold groupSent
  cases hfound : s.pick sign dst with
  | none =>
    show (s.info q).sigPending = true ↔ _
    simp
  | some r =>
    unfold raise
    rcases eq_or_ne q r with rfl | hq
    · rw [info_setInfo_self]
      simp
    · rw [info_setInfo_of_ne hq]
      show (s.info q).sigPending = true ↔ _
      have hne : ¬some r = some q := fun h => hq (Option.some.inj h).symm
      simp [hne]

/-- The conditions under which a send to a group concerns the right thread: the thread is the one
that is asked first, it is not exiting, and either it has no others or it is free to take the
signal. -/
structure Aimed (s : SigState) (sign dst : ℕ) : Prop where
  exiting : (s.info dst).exiting = false
  target : (s.signal (s.info dst).signal).currTarget.getD dst = dst
  free : s.others dst = [] ∨ sigismember (s.info dst).blocked sign = false ∧
    ((s.info dst).sigPending = false ∨ sign = sigKill)

theorem Aimed.pick (h : s.Aimed sign dst) (hzombie : (s.sched.proc dst).state ≠ .zombie) :
    s.pick sign dst = some dst ∧ sigismember (s.info dst).blocked sign = false ∨
    s.pick sign dst = none ∧ (sigismember (s.info dst).blocked sign = true ∨
      (s.info dst).sigPending = true) := by
  have hcandidates : s.candidates dst = dst :: s.others dst := by
    unfold candidates
    rw [h.target]
  unfold SigState.pick
  rw [hcandidates]
  by_cases hblocked : sigismember (s.info dst).blocked sign = true
  · have halone : s.others dst = [] := h.free.resolve_right fun hfree => by
      rw [hblocked] at hfree
      cases hfree.1
    have hwants : s.wantsSignal sign dst = false := by
      unfold wantsSignal
      rw [if_pos hblocked]
    rw [halone, List.find?_cons_of_neg (by rw [hwants]; simp)]
    exact .inr ⟨rfl, .inl hblocked⟩
  rw [Bool.not_eq_true] at hblocked
  by_cases hfree : (s.info dst).sigPending = false ∨ sign = sigKill
  · have hwants : s.wantsSignal sign dst = true := by
      unfold wantsSignal
      rw [hblocked, h.exiting]
      simp only [Bool.false_eq_true, ite_false, false_or, if_neg hzombie]
      split
      · rfl
      · rename_i hkill
        rw [hfree.resolve_right hkill]
        rfl
    rw [List.find?_cons_of_pos hwants]
    exact .inl ⟨rfl, hblocked⟩
  · have halone : s.others dst = [] := h.free.resolve_right fun hboth => hfree hboth.2
    obtain ⟨hflag, hkill⟩ := not_or.mp hfree
    rw [Bool.not_eq_false] at hflag
    have hwants : s.wantsSignal sign dst = false := by
      unfold wantsSignal
      rw [hblocked, h.exiting]
      simp only [Bool.false_eq_true, ite_false, false_or, if_neg hzombie, if_neg hkill, hflag]
      rfl
    rw [halone, List.find?_cons_of_neg (by rw [hwants]; simp)]
    exact .inr ⟨rfl, .inr hflag⟩

/-- A send to a group that concerns the right thread keeps the flags right. -/
theorem Flagged.groupSent (h : s.Flagged) (hdst : s.Live dst)
    (hzombie : (s.sched.proc dst).state ≠ .zombie) (hpos : 1 ≤ sign) (hle : sign ≤ 63)
    (haimed : s.Aimed sign dst) : (s.groupSent sign dst).Flagged := by
  have hpick := haimed.pick hzombie
  have hother : ∀ q, q ≠ dst → s.pick sign dst ≠ some q := by
    intro q hq heq
    rcases hpick with ⟨hsome, -⟩ | ⟨hnone, -⟩
    · exact hq (Option.some.inj (heq.symm.trans hsome))
    · cases heq.symm.trans hnone
  refine ⟨sameMasks_groupSent.threads.own h.own, fun q hq => ?_, fun q hq => ?_⟩
  · rcases (waits_groupSent hpos (by omega) (by decide)).mp hq with hold | ⟨-, heq⟩
    · exact h.last q hold
    · omega
  · have hlive : s.Live q := sameMasks_groupSent.threads.live q hq
    rcases eq_or_ne q dst with rfl | hqd
    · have hflag := h.flag q hlive
      unfold FlagOk at hflag ⊢
      rw [sigPending_groupSent, deliverable_ne_zero, sameMasks_groupSent.blocked]
      rw [deliverable_ne_zero] at hflag
      rw [hflag]
      constructor
      · rintro (⟨n, hn, hn64, hwaits, hopen⟩ | hpicked)
        · exact ⟨n, hn, hn64, (waits_groupSent hpos (by omega) hn).mpr (.inl hwaits), hopen⟩
        · refine ⟨sign, hpos, by omega, (waits_groupSent hpos (by omega) hpos).mpr
            (.inr ⟨rfl, rfl⟩), ?_⟩
          rcases hpick with ⟨-, hopen⟩ | ⟨hnone, -⟩
          · exact hopen
          · cases hpicked.symm.trans hnone
      · rintro ⟨n, hn, hn64, hwaits, hopen⟩
        rcases (waits_groupSent hpos (by omega) hn).mp hwaits with hold | ⟨-, rfl⟩
        · exact .inl ⟨n, hn, hn64, hold, hopen⟩
        · rcases hpick with ⟨hpicked, -⟩ | ⟨-, hblocked | hpending⟩
          · exact .inr hpicked
          · rw [hblocked] at hopen
            cases hopen
          · exact .inl (hflag.mp hpending)
    · exact (sameView_groupSent (h.own.signal_ne hdst hlive hqd) (hother q hqd)).flagOk
        (h.flag q hlive)

end SigState

end Ucore.Sync
