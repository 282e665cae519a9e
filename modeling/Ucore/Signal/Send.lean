import Ucore.Signal.Dequeue

/-!
# What sending a signal does

One rule for each function that sends signals, with everything it does to the tables except the
wake-up itself, which only changes the states of processes. The rules owe nothing to halts: the
assertions on the way never fail.
-/

namespace Ucore.Sync

open Kern Function

namespace SigState

variable {s s' : SigState} {p q sign dst n current : ℕ} {signs l : List ℕ} {H : Prop}
  {E : Fault → SigState → Prop} {v v' : Sched}

/-! ## The updates -/

/-- Set `TIF_SIGPENDING`. -/
def raise (s : SigState) (p : ℕ) : SigState := s.setInfo p { s.info p with sigPending := true }

/-- A signal is added to the set of a thread; if it is not blocked, the flag is set. -/
def queued (s : SigState) (p sign : ℕ) : SigState :=
  s.setInfo p { s.info p with
    pending := sigsetAdd (s.info p).pending sign
    sigPending := (s.info p).sigPending || !sigismember (s.info p).blocked sign }

/-- A signal is added to the set of a group. -/
def addShared (s : SigState) (n sign : ℕ) : SigState :=
  s.setSignal n { s.signal n with sharedPending := sigsetAdd (s.signal n).sharedPending sign }

/-- Set `curr_target`. -/
def target (s : SigState) (n q : ℕ) : SigState :=
  s.setSignal n { s.signal n with currTarget := some q }

/-- The signals that `handle_stop_signal` takes out of the set of the group. -/
def sharedDropped (sign : ℕ) : List ℕ :=
  if sign = sigStop ∨ sign = sigTstp ∨ sign = sigTtin ∨ sign = sigTtou then [sigCont]
  else if sign = sigCont then [sigStop, sigTstp, sigTtin, sigTtou]
  else []

/-- The signals that `handle_stop_signal` takes out of the sets of the threads. -/
def ownDropped (sign : ℕ) : List ℕ :=
  if sign = sigStop ∨ sign = sigTstp ∨ sign = sigTtin ∨ sign = sigTtou then [sigCont]
  else if sign = sigCont then [sigCont, sigTstp, sigTtin, sigTtou]
  else []

/-- `handle_stop_signal` does something. -/
def StopOrCont (sign : ℕ) : Prop :=
  (sign = sigStop ∨ sign = sigTstp ∨ sign = sigTtin ∨ sign = sigTtou) ∨ sign = sigCont

instance : Decidable (StopOrCont sign) :=
  inferInstanceAs (Decidable ((sign = sigStop ∨ sign = sigTstp ∨ sign = sigTtin ∨ sign = sigTtou) ∨
    sign = sigCont))

/-- The tables after `handle_stop_signal`. -/
def stopHandled (s : SigState) (current sign dst : ℕ) : SigState :=
  if StopOrCont sign then
    (current :: s.others current).foldl (dropPending (ownDropped sign))
      (s.dropShared (sharedDropped sign) (s.info dst).signal)
  else s

/-- The signal is ignored by its handler. -/
def Ignored (s : SigState) (p sign : ℕ) : Prop :=
  sign ≠ sigKill ∧ sign ≠ sigStop ∧ ∃ h, (s.info p).sighand = some h ∧
    (s.action h sign = .ign ∨ s.action h sign = .dfl ∧
      (sign = sigCont ∨ sign = sigChld ∨ sign = sigWinch ∨ sign = sigUrg))

/-- Sending the signal reads no handler, or there are handlers. -/
def Reaches (s : SigState) (p sign : ℕ) : Prop :=
  sigismember (s.info p).blocked sign = true ∨ sign = sigKill ∨ sign = sigStop ∨
    (s.info p).sighand ≠ none

/-- The signal is dropped on arrival. -/
def Drops (s : SigState) (p sign : ℕ) : Prop :=
  sigismember (s.info p).blocked sign = false ∧ s.Ignored p sign

/-- Some sleepers have been woken up, and nothing else has happened. -/
structure OnlyWakes (v v' : Sched) : Prop where
  proc : ∀ q, v'.proc q = v.proc q ∨ (v.proc q).state = .sleeping ∧ v'.proc q = ⟨.runnable, 0⟩
  rest : v' = { v with proc := v'.proc }

/-- What sending a signal to one of the threads `l` does to the states of processes. -/
structure Rouses (sign : ℕ) (l : List ℕ) (v v' : Sched) : Prop extends OnlyWakes v v' where
  /-- Only `SIGKILL` wakes up a thread that sleeps in `down`. -/
  down : (sign = sigKill → ∀ q ∈ l, ¬InDown (v.proc q)) → KeepsDown v v'

theorem Drops.reaches (h : s.Drops p sign) : s.Reaches p sign := by
  obtain ⟨-, -, -, h', hsighand, -⟩ := h
  exact .inr (.inr (.inr (by rw [hsighand]; simp)))

/-! ## Waking up -/

theorem OnlyWakes.refl : OnlyWakes v v := ⟨fun _ => .inl rfl, rfl⟩

theorem OnlyWakes.trans {v'' : Sched} (h : OnlyWakes v v') (h' : OnlyWakes v' v'') :
    OnlyWakes v v'' := by
  refine ⟨fun q => ?_, ?_⟩
  · rcases h'.proc q with hsame | ⟨hsleeping, hwoken⟩
    · rw [hsame]
      exact h.proc q
    · rcases h.proc q with hsame | ⟨-, hrunnable⟩
      · rw [hsame] at hsleeping
        exact .inr ⟨hsleeping, hwoken⟩
      · rw [hrunnable] at hsleeping
        cases hsleeping
  · rw [h'.rest, h.rest]

theorem OnlyWakes.zombie (h : OnlyWakes v v') :
    (v'.proc q).state = .zombie ↔ (v.proc q).state = .zombie := by
  rcases h.proc q with hsame | ⟨hsleeping, hwoken⟩
  · rw [hsame]
  · rw [hsleeping, hwoken]
    simp

theorem onlyWakes_setProc (hp : (v.proc p).state = .sleeping) :
    OnlyWakes v (v.setProc p ⟨.runnable, 0⟩) := by
  refine ⟨fun q => ?_, rfl⟩
  show update v.proc p _ q = _ ∨ _ ∧ update v.proc p _ q = _
  rcases eq_or_ne q p with rfl | hq
  · rw [update_self]
    exact .inr ⟨hp, rfl⟩
  · rw [update_of_ne hq]
    exact .inl rfl

theorem onlyWakes_wake (hp : (v.proc p).state = .sleeping) : OnlyWakes v (v.wake p) := by
  unfold Sched.wake
  split
  · exact .refl
  · exact onlyWakes_setProc hp

theorem onlyWakes_wakeStopped : OnlyWakes v (wakeStopped v p) := by
  unfold wakeStopped
  split
  · rename_i hstopped
    exact onlyWakes_setProc (congrArg Proc.state hstopped)
  · exact .refl

theorem onlyWakes_foldl : OnlyWakes v (l.foldl wakeStopped v) := by
  induction l generalizing v with
  | nil => exact .refl
  | cons q l ih => exact onlyWakes_wakeStopped.trans ih

theorem Rouses.refl : Rouses sign l v v := ⟨.refl, fun _ => .refl⟩

theorem wp_signalWakeup_raise {Q : Unit → SigState → Prop}
    (hQ : ∀ v, Rouses sign [p] s.sched v → Q () ((s.raise p).setSched v)) :
    (signalWakeup sign p).wp H E Q s := by
  rw [signalWakeup, wp_put, wp_get]
  refine wp_if (fun hwake => ?_) fun _ => hQ s.sched .refl
  have hsleeping : (s.sched.proc p).state = .sleeping := hwake.1
  have hnot : (s.sched.proc p).state ≠ .zombie := by
    rw [hsleeping]
    simp
  rw [tryToWakeup, wp_get, wp_bind]
  refine wp_assert_of hnot (hQ _ ⟨(onlyWakes_wake hsleeping).trans onlyWakes_foldl,
    fun hkill => ?_⟩)
  refine (keepsDown_wake fun hdown => ?_).trans keepsDown_foldl
  rcases hwake.2 with hint | hsign
  · exact hdown.not_interruptible hint
  · exact hkill hsign p (.head _) hdown

/-! ## The first test -/

theorem wp_ignoreSig {Q : Bool → SigState → Prop}
    (hsafe : sign = sigKill ∨ sign = sigStop ∨ (s.info p).sighand ≠ none)
    (hyes : s.Ignored p sign → Q true s) (hno : ¬s.Ignored p sign → Q false s) :
    (ignoreSig sign p).wp H E Q s := by
  rw [ignoreSig]
  refine wp_if (fun hnever => hno fun hign => ?_) fun hnot => ?_
  · exact hnever.elim hign.1 hign.2.1
  rw [not_or] at hnot
  obtain ⟨h, hsighand⟩ : ∃ h, (s.info p).sighand = some h :=
    Option.ne_none_iff_exists'.mp ((hsafe.resolve_left hnot.1).resolve_left hnot.2)
  rw [wp_get, hsighand]
  show Q (decide _) s
  by_cases hact : s.action h sign = .ign ∨ s.action h sign = .dfl ∧
      (sign = sigCont ∨ sign = sigChld ∨ sign = sigWinch ∨ sign = sigUrg)
  · rw [decide_eq_true hact]
    exact hyes ⟨hnot.1, hnot.2, h, hsighand, hact⟩
  · rw [decide_eq_false hact]
    refine hno fun hign => ?_
    obtain ⟨-, -, h', hsighand', hact'⟩ := hign
    cases hsighand.symm.trans hsighand'
    exact hact hact'

theorem wp_unwanted_drops {Q : Bool → SigState → Prop}
    (hfail : ¬s.Reaches dst sign → E .nullAccess s)
    (hyes : s.Drops dst sign → Q true s)
    (hno : s.Reaches dst sign → ¬s.Drops dst sign → Q false s) :
    (unwanted sign dst).wp H E Q s := by
  rw [unwanted, wp_get]
  refine wp_if (fun hblocked => hno (.inl hblocked) fun hdrops => ?_) fun hopen => ?_
  · rw [hdrops.1] at hblocked
    exact absurd hblocked Bool.false_ne_true
  rw [Bool.not_eq_true] at hopen
  by_cases hsafe : sign = sigKill ∨ sign = sigStop ∨ (s.info dst).sighand ≠ none
  · exact wp_ignoreSig hsafe (fun hign => hyes ⟨hopen, hign⟩)
      fun hnot => hno (.inr hsafe) fun hdrops => hnot hdrops.2
  · rw [ignoreSig, if_neg fun hnever => hsafe (hnever.imp id Or.inl), wp_get]
    have hnone : (s.info dst).sighand = none := by
      by_contra hne
      exact hsafe (.inr (.inr hne))
    rw [hnone]
    refine hfail fun hreach => ?_
    rcases hreach with hblocked | hrest
    · rw [hopen] at hblocked
      exact absurd hblocked Bool.false_ne_true
    · exact hsafe hrest

/-! ## One thread -/

/-- `specific_send_sig_info`: the signal is dropped, or it waits already, or it is queued. -/
theorem wp_specificSend {Q : ℤ → SigState → Prop} (hfail : ¬s.Reaches dst sign → E .nullAccess s)
    (hskip : s.Reaches dst sign →
      s.Drops dst sign ∨ sigismember (s.info dst).pending sign = true → Q 0 s)
    (hsend : s.Reaches dst sign → ¬s.Drops dst sign → ∀ v, Rouses sign [dst] s.sched v →
      Q 1 ((s.queued dst sign).setSched v)) :
    (specificSendSigInfo sign dst).wp H E Q s := by
  rw [specificSendSigInfo, wp_bind]
  refine wp_unwanted_drops hfail (fun hdrops => hskip hdrops.reaches (.inl hdrops))
    fun hreach hkeep => ?_
  show (queueSpecific sign dst).wp H E Q s
  rw [queueSpecific, wp_get]
  refine wp_if (fun hpending => hskip hreach (.inr hpending)) fun _ => ?_
  rw [wp_put]
  refine wp_if (fun hblocked => ?_) fun hopen => ?_
  · have hqueued : s.queued dst sign = s.setInfo dst { s.info dst with
        pending := sigsetAdd (s.info dst).pending sign } := by
      unfold queued
      rw [hblocked]
      simp
    have hdone := hsend hreach hkeep s.sched .refl
    rw [hqueued] at hdone
    exact hdone
  · rw [Bool.not_eq_true] at hopen
    refine wp_seq (wp_signalWakeup_raise fun v hv => ?_)
    have hqueued : s.queued dst sign = (s.setInfo dst { s.info dst with
        pending := sigsetAdd (s.info dst).pending sign }).raise dst := by
      unfold queued raise
      rw [hopen]
      simp [setInfo]
    have hdone := hsend hreach hkeep v hv
    rw [hqueued] at hdone
    exact hdone

/-! ## A group -/

theorem wp_handleStop {Q : Unit → SigState → Prop} (hQ : Q () (s.stopHandled current sign dst)) :
    (handleStopSignal current sign dst).wp H E Q s := by
  unfold stopHandled ownDropped sharedDropped at hQ
  rw [handleStopSignal]
  refine wp_if (fun hstop => ?_) fun hnot => ?_
  · have heither : StopOrCont sign := .inl hstop
    rw [if_pos heither, if_pos hstop, if_pos hstop] at hQ
    exact hQ
  refine wp_if (fun hcont => ?_) fun hneither => ?_
  · have heither : StopOrCont sign := .inr hcont
    rw [if_pos heither, if_neg hnot, if_neg hnot, if_pos hcont, if_pos hcont] at hQ
    exact hQ
  · have hnone : ¬StopOrCont sign := not_or.mpr ⟨hnot, hneither⟩
    rw [if_neg hnone] at hQ
    exact hQ

/-- The thread that `group_complete_send` picks. -/
def pick (s : SigState) (sign dst : ℕ) : Option ℕ :=
  (s.candidates dst).find? (s.wantsSignal sign)

/-- The tables after the signal is added to the set of the group and a thread is picked. -/
def groupSent (s : SigState) (sign dst : ℕ) : SigState :=
  match s.pick sign dst with
  | none => (s.addShared (s.info dst).signal sign).target (s.info dst).signal
      ((s.signal (s.info dst).signal).currTarget.getD dst)
  | some q => ((s.addShared (s.info dst).signal sign).target (s.info dst).signal q).raise q

theorem target_target {m : ℕ} : (s.target n m).target n q = s.target n q := by
  unfold target setSignal
  simp

theorem wantsSignal_addShared : (s.addShared n sign).wantsSignal = s.wantsSignal := rfl

theorem pick_addShared : (s.addShared n sign).pick sign dst = s.pick sign dst := by
  unfold pick
  rw [wantsSignal_addShared]
  unfold addShared
  rw [candidates_setSignal (by rfl)]

theorem wp_groupComplete {Q : Unit → SigState → Prop}
    (hQ : ∀ v, Rouses sign (s.candidates dst) s.sched v →
      Q () ((s.groupSent sign dst).setSched v)) :
    (groupCompleteSend sign dst).wp H E Q (s.addShared (s.info dst).signal sign) := by
  rw [groupCompleteSend, wp_get, wp_get, wp_put]
  have hpick : ((s.addShared (s.info dst).signal sign).candidates dst).find?
      ((s.addShared (s.info dst).signal sign).wantsSignal sign) = s.pick sign dst := pick_addShared
  rw [hpick]
  have hsame : ((s.addShared (s.info dst).signal sign).signal (s.info dst).signal).currTarget =
      (s.signal (s.info dst).signal).currTarget := by
    show (update s.signal _ _ _).currTarget = _
    rw [update_self]
  cases hfound : s.pick sign dst with
  | none =>
    have hdone := hQ s.sched .refl
    unfold groupSent at hdone
    rw [hfound, ← hsame] at hdone
    exact hdone
  | some q =>
    refine wp_signalWakeup_raise fun v hv => ?_
    have hsent : s.groupSent sign dst =
        (((s.addShared (s.info dst).signal sign).target (s.info dst).signal
          (((s.addShared (s.info dst).signal sign).signal (s.info dst).signal).currTarget.getD
            dst)).target (s.info dst).signal q).raise q := by
      rw [target_target]
      unfold groupSent
      rw [hfound]
    have hdone := hQ v ⟨hv.toOnlyWakes, fun hkill => hv.down fun hsign r hr => ?_⟩
    · rw [hsent] at hdone
      exact hdone
    · rw [List.mem_singleton.mp hr]
      exact hkill hsign q (List.mem_of_find?_eq_some hfound)

/-- `group_send_sig_info`: the signal is dropped, or it waits already, or it is added to the set of
the group and a thread is picked. -/
theorem wp_groupSendInfo {Q : ℤ → SigState → Prop}
    (hfail : ¬(s.stopHandled current sign dst).Reaches dst sign →
      E .nullAccess (s.stopHandled current sign dst))
    (hskip : (s.stopHandled current sign dst).Drops dst sign ∨
      sigismember ((s.stopHandled current sign dst).shared dst) sign = true →
        Q 0 (s.stopHandled current sign dst))
    (hsend : ¬(s.stopHandled current sign dst).Drops dst sign →
      ¬sigismember ((s.stopHandled current sign dst).shared dst) sign = true → ∀ v,
        Rouses sign ((s.stopHandled current sign dst).candidates dst)
            (s.stopHandled current sign dst).sched v →
          Q 0 (((s.stopHandled current sign dst).groupSent sign dst).setSched v)) :
    (groupSendSigInfo current sign dst).wp H E Q s := by
  rw [groupSendSigInfo, wp_bind]
  refine wp_handleStop ?_
  refine wp_seq (wp_unwanted_drops hfail (fun hdrops => hskip (.inl hdrops)) fun _ hkeep => ?_)
  show (queueGroup sign dst).wp H E Q _
  rw [queueGroup, wp_get, wp_get]
  refine wp_if (fun hshared => hskip (.inr hshared)) fun hnew => ?_
  rw [wp_put, wp_bind]
  exact wp_groupComplete (hsend hkeep hnew)

/-! ## What the tables keep -/

theorem sched_stopHandled : (s.stopHandled current sign dst).sched = s.sched := by
  unfold stopHandled
  split
  · exact sched_dropPending
  · rfl

theorem sameMasks_foldl_dropPending : SameMasks s (l.foldl (dropPending signs) s) := by
  induction l generalizing s with
  | nil => exact .refl
  | cons q l ih => exact sameMasks_dropPending.trans ih

theorem signal_foldl_dropPending : (l.foldl (dropPending signs) s).signal = s.signal := by
  induction l generalizing s with
  | nil => rfl
  | cons a l ih =>
    rw [List.foldl_cons, ih]
    rfl

theorem sameMasks_stopHandled : SameMasks s (s.stopHandled current sign dst) := by
  unfold stopHandled
  split
  · exact sameMasks_dropShared.trans sameMasks_foldl_dropPending
  · exact .refl

theorem sameMasks_setSched : SameMasks s (s.setSched v) :=
  ⟨fun _ => rfl, fun _ => rfl, fun _ => rfl, fun _ => rfl, rfl, rfl⟩

theorem sameMasks_setSignal {w : SignalStruct} : SameMasks s (s.setSignal n w) :=
  ⟨fun _ => rfl, fun _ => rfl, fun _ => rfl, fun _ => rfl, rfl, rfl⟩

theorem sameMasks_raise : SameMasks s (s.raise p) := sameMasks_setInfo p (s.info p).pending true

theorem sameMasks_queued : SameMasks s (s.queued p sign) := sameMasks_setInfo p _ _

theorem sameMasks_groupSent : SameMasks s (s.groupSent sign dst) := by
  unfold groupSent
  cases s.pick sign dst with
  | none => exact sameMasks_setSignal.trans sameMasks_setSignal
  | some q => exact (sameMasks_setSignal.trans sameMasks_setSignal).trans sameMasks_raise

theorem sameMasks_dropIgnored : SameMasks s (s.dropIgnored p sign) :=
  sameMasks_dropShared.trans sameMasks_foldl_dropPending

theorem SameMasks.ignored (h : SameMasks s s') : s'.Ignored p sign ↔ s.Ignored p sign := by
  unfold Ignored
  rw [h.sighand, h.action]

theorem SameMasks.drops (h : SameMasks s s') : s'.Drops p sign ↔ s.Drops p sign := by
  unfold Drops
  rw [h.blocked, h.ignored]

theorem SameMasks.reaches (h : SameMasks s s') : s'.Reaches p sign ↔ s.Reaches p sign := by
  unfold Reaches
  rw [h.blocked, h.sighand]

end SigState

/-! ## System calls -/

/-- The pointer leads to a value. -/
def UserArg.isGood {α : Type} : UserArg α → Prop
  | .good _ => True
  | _ => False

/-- The pointer is `NULL`. -/
def UserArg.isNull {α : Type} : UserArg α → Prop
  | .null => True
  | _ => False

variable {s : SigSys} {p dst : ℕ} {pid sign : ℤ} {H : Prop} {E : SigFault → SigSys → Prop}
  {Q : ℤ → SigSys → Prop}

theorem wp_inSig {α : Type} {m : SigM α} {Q : α → SigSys → Prop} : (inSig m).wp H E Q s ↔
      m.wp H (fun e v => E (.fault e) (s.setSig v)) (fun a v => Q a (s.setSig v)) s.toSigState := by
  rw [inSig, wp_zoom, wp_mapError]
  rfl

/-! ## Handlers -/

/-- The end of `do_sigaction`. -/
theorem wp_finishAction {h n : ℕ} {act : SigAction} (hsighand : (s.info p).sighand = some h)
    (hkeep : Q 0 (s.setAction h n { act with mask := act.mask.strip }))
    (hdrop : Q 0 ((s.setAction h n { act with mask := act.mask.strip }).setSig
      ((s.setAction h n { act with mask := act.mask.strip }).dropIgnored p n))) :
    (finishAction p h n act).wp H E Q s := by
  rw [finishAction, wp_put, wp_bind, wp_inSig]
  refine SigState.wp_ignoreSig (.inr (.inr ?_)) (fun _ => hdrop) fun _ => hkeep
  show (s.info p).sighand ≠ none
  rw [hsighand]
  simp

/-- `do_sigaction`: an argument is refused, or the entry of the table is read or written. -/
theorem wp_doSigaction {h : ℕ} {act : UserArg SigAction} {old : UserArg Unit}
    (hsighand : (s.info p).sighand = some h)
    (hinval : (old.isGood ∨ old.isNull ∧ act.isGood → 1 ≤ sign ∧ sign ≤ 64) → Q (-eInval) s)
    (hout : old.isGood ∨ old.isNull ∧ act.isGood → ¬(1 ≤ sign ∧ sign ≤ 64) → E (.outside sign) s)
    (hset : ∀ new, act = .good new → 1 ≤ sign → sign ≤ 64 →
      (finishAction p h sign.toNat new).wp H E Q s) : (doSigaction p sign act old).wp H E Q s := by
  rw [doSigaction, wp_get, hsighand]
  have hnew : (old.isNull ∨ 1 ≤ sign ∧ sign ≤ 64) → (setNewAction p h sign act).wp H E Q s := by
    intro hold
    have hrange : ¬act.isGood → old.isGood ∨ old.isNull ∧ act.isGood → 1 ≤ sign ∧ sign ≤ 64 := by
      intro hnot huse
      refine hold.resolve_left fun hnull => ?_
      rcases huse with hgood | ⟨-, hgood⟩
      · cases old with
        | null | bad => exact hgood
        | good u => exact hnull
      · exact hnot hgood
    cases act with
    | null | bad => exact hinval (hrange id)
    | good new =>
      show (actionEntry sign >>= _).wp H E Q s
      rw [wp_bind, actionEntry]
      refine wp_if (fun hsign => hset new rfl hsign.1 hsign.2)
        fun hsign => hout (.inr ⟨?_, trivial⟩) hsign
      exact hold.resolve_right hsign
  rw [wp_bind]
  cases old with
  | null => exact hnew (.inl trivial)
  | bad => exact hinval fun huse => huse.elim False.elim fun h => h.1.elim
  | good u =>
    show (actionEntry sign >>= _).wp H E _ s
    rw [wp_bind, actionEntry]
    exact wp_if (fun hsign => hnew (.inr hsign)) fun hsign => hout (.inl trivial) hsign

/-! ## Sending by number -/

/-- The process that the number names is not there, or is a zombie. -/
def SigState.Gone (s : SigState) (pid : ℤ) : Prop :=
  ∀ dst, s.findProc pid = some dst → (s.sched.proc dst).state = .zombie

/-- The number names a process. -/
def SigState.Names (s : SigState) (pid : ℤ) (dst : ℕ) : Prop :=
  s.findProc pid = some dst ∧ (s.sched.proc dst).state ≠ .zombie

theorem SigState.Names.not_gone {s : SigState} (h : s.Names pid dst) : ¬s.Gone pid :=
  fun hgone => h.2 (hgone dst h.1)

theorem SigState.Names.unique {s : SigState} {dst' : ℕ} (h : s.Names pid dst)
    (h' : s.Names pid dst') : dst = dst' := Option.some.inj (h.1.symm.trans h'.1)

theorem wp_doSigtkill (hgone : s.Gone pid → Q (-eInval) s)
    (hsend : ∀ dst, s.Names pid dst → 1 ≤ sign → sign ≤ 64 →
      (inSig (specificSendSigInfo sign.toNat dst)).wp H E Q s)
    (hout : ∀ dst, s.Names pid dst → ¬(1 ≤ sign ∧ sign ≤ 64) → E (.outside sign) s) :
    (doSigtkill pid sign).wp H E Q s := by
  rw [doSigtkill, wp_get]
  cases hfind : s.findProc pid with
  | none => exact hgone fun dst hdst => absurd (hfind.symm.trans hdst) (by simp)
  | some dst =>
    rw [wp_get]
    refine wp_if (fun hzombie => hgone fun q hq => ?_) fun hlive => ?_
    · cases hfind.symm.trans hq
      exact hzombie
    · exact wp_if (fun hsign => hsend dst ⟨hfind, hlive⟩ hsign.1 hsign.2) (hout dst ⟨hfind, hlive⟩)

theorem wp_doSigkill (hgone : s.Gone pid → Q (-eInval) s)
    (hinval : sign < 0 ∨ 64 < sign → Q (-eInval) s)
    (hnothing : 0 ≤ sign → sign ≤ 64 → ∀ dst, s.Names pid dst →
      sign = 0 ∨ (s.info dst).sighand = none → Q 0 s)
    (hsend : ∀ dst, s.Names pid dst → 1 ≤ sign → sign ≤ 64 → (s.info dst).sighand ≠ none →
      (inSig (groupSendSigInfo p sign.toNat dst)).wp H E Q s) :
    (doSigkill p pid sign).wp H E Q s := by
  rw [doSigkill, wp_get]
  cases hfind : s.findProc pid with
  | none => exact hgone fun dst hdst => absurd (hfind.symm.trans hdst) (by simp)
  | some dst =>
    rw [wp_get]
    refine wp_if (fun hzombie => hgone fun q hq => ?_) fun hlive => ?_
    · cases hfind.symm.trans hq
      exact hzombie
    · rw [groupSend, wp_get]
      refine wp_if hinval fun hrange => ?_
      refine wp_if (hnothing (by omega) (by omega) dst ⟨hfind, hlive⟩) fun hsome => ?_
      rw [not_or] at hsome
      exact hsend dst ⟨hfind, hlive⟩ (by omega) (by omega) hsome.2

end Ucore.Sync
