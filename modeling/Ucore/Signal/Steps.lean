import Ucore.Signal.Send

/-!
# What the operations do to the tables

`Keeps` lists the changes that one operation makes to the tables, each with what the code has
tested before it. What these changes keep is kept by the operation, so an invariant is shown for
the changes and not for the calls.
-/

namespace Ucore.Sync

open Kern SigState

/-! ## The loop of `do_signal`

What every turn keeps, the loop keeps. It has an end, since each turn takes a signal out of a
set, and it says which signals get to a handler of the user. -/

namespace SigState

variable {s s' : SigState} {p q : ℕ} {l : List ℕ}

/-- The thread has handlers: it has not exited. -/
def Live (s : SigState) (p : ℕ) : Prop := (s.info p).sighand ≠ none

theorem live_of_eq {h : ℕ} (hsighand : (s.info p).sighand = some h) : s.Live p := by
  unfold Live
  rw [hsighand]
  simp

/-- The sets, masks and flags are the same; threads may have lost their handlers. -/
structure SameSets (s s' : SigState) : Prop where
  blocked : ∀ q, (s'.info q).blocked = (s.info q).blocked
  pending : ∀ q, (s'.info q).pending = (s.info q).pending
  flag : ∀ q, (s'.info q).sigPending = (s.info q).sigPending
  number : ∀ q, (s'.info q).signal = (s.info q).signal
  sighand : ∀ q, (s'.info q).sighand ≠ none → (s'.info q).sighand = (s.info q).sighand
  signal : s'.signal = s.signal

theorem SameSets.refl : SameSets s s :=
  ⟨fun _ => rfl, fun _ => rfl, fun _ => rfl, fun _ => rfl, fun _ _ => rfl, rfl⟩

theorem SameSets.trans {s'' : SigState} (h : SameSets s s') (h' : SameSets s' s'') :
    SameSets s s'' :=
  ⟨fun q => (h'.blocked q).trans (h.blocked q), fun q => (h'.pending q).trans (h.pending q),
    fun q => (h'.flag q).trans (h.flag q), fun q => (h'.number q).trans (h.number q),
    fun q hq => (h'.sighand q hq).trans (h.sighand q (by rwa [← h'.sighand q hq])),
    h'.signal.trans h.signal⟩

theorem sameSets_setSched {v : Sched} : SameSets s (s.setSched v) :=
  ⟨fun _ => rfl, fun _ => rfl, fun _ => rfl, fun _ => rfl, fun _ _ => rfl, rfl⟩

/-- A thread loses its handlers, or is marked as exiting. -/
theorem sameSets_setInfo {i : SigInfo} (hblocked : i.blocked = (s.info p).blocked)
    (hpending : i.pending = (s.info p).pending) (hflag : i.sigPending = (s.info p).sigPending)
    (hnumber : i.signal = (s.info p).signal)
    (hsighand : i.sighand ≠ none → i.sighand = (s.info p).sighand) :
    SameSets s (s.setInfo p i) := by
  have hcases : ∀ q, q = p ∧ (s.setInfo p i).info q = i ∨ (s.setInfo p i).info q = s.info q := by
    intro q
    rcases eq_or_ne q p with rfl | hq
    · exact .inl ⟨rfl, info_setInfo_self⟩
    · exact .inr (info_setInfo_of_ne hq)
  refine ⟨fun q => ?_, fun q => ?_, fun q => ?_, fun q => ?_, fun q => ?_, rfl⟩ <;>
  obtain ⟨rfl, hq⟩ | hq := hcases q <;> rw [hq]
  · exact hblocked
  · exact hpending
  · exact hflag
  · exact hnumber
  · exact hsighand
  · exact fun _ => rfl

theorem sameSets_killThread : SameSets s (s.killThread q) := by
  have hmark : SameSets s (s.setInfo q { s.info q with exiting := true }) :=
    sameSets_setInfo rfl rfl rfl rfl fun _ => rfl
  unfold killThread
  split
  · exact .refl
  · split
    · exact hmark.trans sameSets_setSched
    · exact hmark

theorem sameSets_foldl_killThread : SameSets s (l.foldl killThread s) := by
  induction l generalizing s with
  | nil => exact .refl
  | cons q l ih => exact sameSets_killThread.trans ih

theorem sameSets_exitThread : SameSets s (s.exitThread p) := by
  have hinfo : SameSets s (s.setInfo p { s.info p with sighand := none }) :=
    sameSets_setInfo rfl rfl rfl rfl (absurd rfl)
  exact { hinfo with signal := rfl }

theorem sameSets_doExit : SameSets s (s.doExit p) :=
  sameSets_foldl_killThread.trans sameSets_exitThread

theorem sameSets_foldl_stopThread : SameSets s (l.foldl stopThread s) := by
  induction l generalizing s with
  | nil => exact .refl
  | cons q l ih =>
    refine SameSets.trans ?_ ih
    unfold stopThread
    dsimp only
    split
    · exact .refl
    · split
      · exact .refl
      · exact sameSets_setSched

end SigState

variable {s : SigSys} {p h : ℕ}

/-- What the end of the loop says. -/
def SignalEnd.Tells (s : SigSys) (p : ℕ) : SignalEnd → Prop
  | .none => (s.dequeueSignal p).1 = 0
  | .frames sign => 1 ≤ sign ∧ sign ≤ 63 ∧ sign ≠ sigKill ∧ sign ≠ sigStop
  | .stops => True
  | .exits => True

section

variable {I : SigSys → Prop}
  (htaken : ∀ v, I v → v.Live p → I (v.setSig (v.dequeueSignal p).2))
  (hsame : ∀ v w, I v → SigState.SameSets v.toSigState w → I (v.setSig w))

include htaken hsame

/-- What taking signals, stopping and exiting keep, the loop of `do_signal` keeps. -/
theorem wp_signalLoop {fuel : ℕ} (hI : I s) (hlive : s.Live p) (hfuel : s.left p < fuel) :
    (signalLoop p h fuel).wp False Never (fun e s' => I s' ∧ e.Tells s' p) s := by
  induction fuel generalizing s with
  | zero => omega
  | succ fuel ih =>
    rw [signalLoop, wp_get, wp_put, wp_ite]
    have hI' := htaken s hI hlive
    have hlive' : (s.setSig (s.dequeueSignal p).2).Live p := by
      unfold SigState.Live
      rw [SigSys.setSig, sameMasks_dequeueSignal.sighand]
      exact hlive
    have hexit := hsame _ _ hI' (sameSets_doExit (p := p))
    refine ⟨fun hzero => ⟨hI', ?_⟩, fun hsome => ?_⟩
    · obtain ⟨m, hfirst, heq⟩ | ⟨m, hfirst, heq⟩ | ⟨heq, -⟩ := s.toSigState.dequeueSignal_cases p
      · have := (firstSign_some hfirst).1
        rw [heq] at hzero
        exact absurd hzero (by omega)
      · have := (firstSign_some hfirst).1
        rw [heq] at hzero
        exact absurd hzero (by omega)
      · rw [heq]
        exact hzero
    have hagain : (signalLoop p h fuel).wp False Never
        (fun e s' => I s' ∧ e.Tells s' p) (s.setSig (s.dequeueSignal p).2) := by
      refine ih hI' hlive' ?_
      have hless : (s.dequeueSignal p).2.left p < s.left p := left_dequeueSignal hsome
      show (s.dequeueSignal p).2.left p < fuel
      omega
    refine wp_if (fun _ => ⟨hexit, trivial⟩) fun hkill => ?_
    refine wp_if (fun _ => ?_) fun hnot => ?_
    · exact ⟨hsame _ _ hI' sameSets_foldl_stopThread, trivial⟩
    rw [wp_get]
    cases (s.setSig (s.dequeueSignal p).2).action h (s.dequeueSignal p).1 with
    | ign => exact hagain
    | user =>
      obtain ⟨hpos, hle, -, -⟩ := dequeueSignal_ne_zero hsome
      exact ⟨hI', hpos, hle, hkill, hnot⟩
    | dfl =>
      rw [wp_get]
      exact wp_if (fun _ => hagain) fun _ => ⟨hexit, trivial⟩

/-- `do_signal` returns, and a return of 0 is one of the loop or the flag is not set. -/
theorem wp_doSignal (hI : I s) : (doSignal p).wp False Never (fun e s' => I s' ∧
      (e.Tells s' p ∨ e = .none ∧ s' = s ∧
        ((s.info p).sighand = none ∨ (s.info p).sigPending = false))) s := by
  rw [doSignal, wp_get]
  cases hsighand : (s.info p).sighand with
  | none => exact ⟨hI, .inr ⟨rfl, rfl, .inl rfl⟩⟩
  | some h =>
    refine wp_if (fun _ => ?_) fun hflag => ⟨hI, .inr ⟨rfl, rfl, .inr ?_⟩⟩
    · exact (wp_signalLoop htaken hsame hI (live_of_eq hsighand) left_lt_signalTurns).imp
        fun e s' hs' => ⟨hs'.1, .inl hs'.2⟩
    · rwa [Bool.not_eq_true] at hflag

end

/-! ## The operations -/

namespace SigMachine

variable {s s' : SigMachine} {op : SigOp} {p sign : ℕ} {I : SigSys → Prop}

/-- The masks that an operation gives to a thread. -/
inductive GivesMask (s : SigMachine) : SigOp → SigSet → Prop
  | procmask {p how old set} : GivesMask s (.sigprocmask p how old (.good set))
      (maskBy how (s.sys.info p).blocked set.strip)
  | handler {p written h sign old} (hplace : s.place p = .framing sign old) :
      GivesMask s (.frame p written)
        (sigsetAdd ((s.sys.info p).blocked ||| (s.sys.fields h sign).mask) sign)
  | frame {p f} : GivesMask s (.sigreturn p (some f)) f.oldBlocked

/-- The masks under which an operation lets a thread wait. -/
inductive WaitsUnder : SigOp → ℕ → SigSet → Prop
  | suspend {p mask} : WaitsUnder (.sigsuspend p (.good mask)) p (suspendMask mask)
  | waitinfo {p set} : WaitsUnder (.sigwaitinfo p (.good set)) p (waitinfoMask set)

/-- The masks that an operation writes into the table of handlers. -/
inductive WritesMask (s : SigMachine) (op : SigOp) (h sign : ℕ) : SigSet → Prop
  | stripped {set : SigSet} : WritesMask s op h sign set.strip
  | same : WritesMask s op h sign (s.sys.fields h sign).mask
  | part {p act part} (hop : op = .copyAction p sign act part)
      (hpart : Between part ⟨s.sys.fields h sign, s.sys.action h sign⟩ act) :
      WritesMask s op h sign part.mask

/-- The operation sends a signal to a group. -/
structure Sends (s : SigMachine) (op : SigOp) (p : ℕ) (sign : ℤ) (dst : ℕ) : Prop where
  names : ∃ pid, op = .kill p pid sign ∧ s.sys.Names pid dst
  pos : 1 ≤ sign
  le : sign ≤ 64
  live : s.sys.Live dst

/-- What every change that an operation makes to the tables keeps. -/
structure Keeps (s : SigMachine) (op : SigOp) (I : SigSys → Prop) : Prop where
  fork : ∀ p c n h thread sighand, s.Unused c n h → I (s.sys.fork p c n h thread sighand)
  same : ∀ v w, I v → SigState.SameSets v.toSigState w → I (v.setSig w)
  action : ∀ v h sign act, I v → s.WritesMask op h sign act.mask → I (v.setAction h sign act)
  ignored : ∀ v p sign, I v → v.Live p → I (v.setSig (v.dropIgnored p sign))
  taken : ∀ p v, I v → v.Live p → I (v.setSig (v.dequeueSignal p).2)
  mask : ∀ p set, s.GivesMask op set → I (s.sys.setSig (s.sys.changeMask p set))
  waits : ∀ p set, WaitsUnder op p set → I (s.sys.setSig (s.sys.waitUnder p set))
  queued : ∀ p pid sign dst, op = .tkill p pid sign → 1 ≤ sign → sign ≤ 64 →
    I (s.sys.setSig (s.sys.queued dst sign.toNat))
  stopped : ∀ p sign dst, s.Sends op p sign dst →
    I (s.sys.setSig (s.sys.stopHandled p sign.toNat dst))
  sent : ∀ p sign dst, s.Sends op p sign dst →
    ¬(s.sys.stopHandled p sign.toNat dst).Drops dst sign.toNat →
    ¬sigismember ((s.sys.stopHandled p sign.toNat dst).shared dst) sign.toNat = true →
    I (s.sys.setSig ((s.sys.stopHandled p sign.toNat dst).groupSent sign.toNat dst))

theorem Keeps.finishAction {h : ℕ} {act : SigAction} (hk : s.Keeps op I) (hs : I s.sys)
    (hsighand : (s.sys.info p).sighand = some h) :
    (finishAction p h sign act).wp False (fun _ _ => True) (fun _ => I) s.sys := by
  have hset := hk.action s.sys h sign { act with mask := act.mask.strip } hs .stripped
  exact wp_finishAction hsighand hset (hk.ignored _ p sign hset (live_of_eq hsighand))

theorem Keeps.finishFrame {old : SigSet} {written : Bool} (hk : s.Keeps (.frame p written) I)
    (hs : I s.sys) (hplace : s.place p = .framing sign old) :
    (finishFrame p sign written).wp False (fun _ _ => True) (fun _ => I) s.sys := by
  rw [Sync.finishFrame, wp_get]
  cases (s.sys.info p).sighand with
  | none => trivial
  | some h =>
    rw [wp_put, wp_modify]
    have hmask : I (s.sys.setSig (if written then s.sys.deferSignals p h sign
        else s.sys.toSigState)) := by
      unfold SigSys.deferSignals
      split
      · split
        · exact hs
        · exact hk.mask p _ (.handler hplace)
      · exact hs
    generalize hv : s.sys.setSig (if written then s.sys.deferSignals p h sign
      else s.sys.toSigState) = v at hmask
    have hfields : v.fields = s.sys.fields := by
      rw [← hv]
      rfl
    split
    · refine hk.action v h sign _ hmask ?_
      rw [hfields]
      exact .same
    · exact hmask

/-- Wake-ups after a change of the tables. -/
theorem Keeps.setSched {w : SigState} {v : Sched} (hk : s.Keeps op I) (hw : I (s.sys.setSig w)) :
    I (s.sys.setSig (w.setSched v)) := hk.same (s.sys.setSig w) _ hw sameSets_setSched

theorem Keeps.settle {v : SigSys} {old : Option SigSet} {e : SignalEnd} (hk : s.Keeps op I)
    (hv : I v) : I (s.settle p old v e).sys := by
  cases e with
  | none =>
    cases old with
    | none => exact hv
    | some set => exact hk.same _ _ hv sameSets_setSched
  | frames | stops | exits => exact hv

/-- What the changes keep, the operation keeps. -/
theorem Step.keeps (hstep : s.Step op s') (hs : I s.sys) (hk : s.Keeps op I) : I s'.sys := by
  cases op with
  | fork p c n h thread sighand =>
    obtain ⟨-, hunused, rfl⟩ := hstep
    exact hk.fork p c n h thread sighand hunused
  | exit p group =>
    obtain ⟨-, rfl⟩ := hstep
    refine hk.same _ _ hs ?_
    split
    · exact sameSets_doExit
    · exact sameSets_exitThread
  | sigaction p sign act old =>
    obtain ⟨hruns, r, v, hcall, rfl⟩ := hstep
    obtain ⟨h, hsome⟩ := Option.ne_none_iff_exists'.mp hruns.2.2
    have hwp : (doSigaction p sign act old).wp False (fun _ _ => True) (fun _ => I) s.sys :=
      wp_doSigaction hsome (fun _ => hs) (fun _ _ => trivial)
        fun new _ _ _ => hk.finishAction hs hsome
    exact hwp.of_done hcall
  | copyAction p sign act part =>
    obtain ⟨-, -, -, h, -, hpart, rfl⟩ := hstep
    exact hk.action _ h sign part hs (.part rfl hpart)
  | copied p =>
    obtain ⟨sign, act, h, -, -, hsighand, r, v, hcall, rfl⟩ := hstep
    exact (hk.finishAction hs hsighand).of_done hcall
  | sigprocmask p how old set =>
    obtain ⟨-, r, v, hcall, rfl⟩ := hstep
    cases set with
    | good set =>
      cases old with
      | bad =>
        cases hcall
        exact hs
      | null | good =>
        cases hcall
        exact hk.mask p _ .procmask
    | null | bad =>
      cases hcall
      exact hs
  | sigsuspend p mask =>
    obtain ⟨-, waits, v, hcall, rfl⟩ := hstep
    cases mask with
    | good mask =>
      cases hcall
      exact hk.waits p _ .suspend
    | null | bad =>
      cases hcall
      exact hs
  | sigwaitinfo p set =>
    obtain ⟨-, v, hcall, rfl⟩ := hstep
    cases set with
    | good set =>
      cases hcall
      exact hk.waits p _ .waitinfo
    | null | bad => cases hcall
  | sigreturn p frame =>
    obtain ⟨-, alive, v, hcall, rfl⟩ := hstep
    have hwp : (doSigreturn p frame).wp False Never (fun _ => I) s.sys := by
      cases frame with
      | none => exact hs
      | some f =>
        rw [doSigreturn]
        exact wp_if (fun _ => hk.same _ _ hs sameSets_doExit) fun _ => hk.mask p _ .frame
    exact hwp.of_done hcall
  | tkill p pid sign =>
    obtain ⟨-, r, v, hcall, rfl⟩ := hstep
    have hwp : (doSigtkill pid sign).wp False (fun _ _ => True) (fun _ => I) s.sys := by
      refine wp_doSigtkill (fun _ => hs) (fun dst _ hpos hle => ?_) fun _ _ _ => trivial
      rw [wp_inSig]
      exact wp_specificSend (fun _ => trivial) (fun _ _ => hs) fun _ _ v _ =>
        hk.setSched (hk.queued p pid sign dst rfl hpos hle)
    exact hwp.of_done hcall
  | kill p pid sign =>
    obtain ⟨-, r, v, hcall, rfl⟩ := hstep
    have hwp : (doSigkill p pid sign).wp False (fun _ _ => True) (fun _ => I) s.sys := by
      refine wp_doSigkill (fun _ => hs) (fun _ => hs) (fun _ _ _ _ _ => hs)
        fun dst hdst hpos hle hlive => ?_
      have hsends : s.Sends (.kill p pid sign) p sign dst := ⟨⟨pid, rfl, hdst⟩, hpos, hle, hlive⟩
      rw [wp_inSig]
      exact wp_groupSendInfo (fun _ => trivial) (fun _ => hk.stopped p sign dst hsends)
        fun hkeep hnew v _ => hk.setSched (hk.sent p sign dst hsends hkeep hnew)
    exact hwp.of_done hcall
  | signal p =>
    obtain ⟨-, e, v, hcall, rfl⟩ := hstep
    exact hk.settle ((wp_doSignal (hk.taken p) hk.same hs).of_done hcall).1
  | awake p =>
    obtain ⟨old, -, -, e, v, hcall, rfl⟩ := hstep
    exact hk.settle ((wp_doSignal (hk.taken p) hk.same hs).of_done hcall).1
  | continued p =>
    obtain ⟨old, h, -, -, hsighand, e, v, hcall, rfl⟩ := hstep
    exact hk.settle ((wp_signalLoop (hk.taken p) hk.same hs (live_of_eq hsighand)
      left_lt_signalTurns).of_done hcall).1
  | frame p written =>
    obtain ⟨sign, old, hplace, -, v, hcall, rfl⟩ := hstep
    exact (hk.finishFrame hs hplace).of_done hcall
  | sleep p w =>
    obtain ⟨-, -, rfl⟩ := hstep
    exact hk.same _ _ hs sameSets_setSched
  | wake p =>
    obtain ⟨-, rfl⟩ := hstep
    exact hk.same _ _ hs sameSets_setSched

end SigMachine

end Ucore.Sync
