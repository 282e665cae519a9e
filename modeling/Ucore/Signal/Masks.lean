import Ucore.Lib.Runs
import Ucore.Signal.Steps

/-!
# `SIGKILL` and `SIGSTOP` are not blocked

Every mask that a program passes loses `SIGKILL` and `SIGSTOP`, except for two: the one in the
frame that `do_sigreturn` reads from the stack of the user, and the one in the table of handlers
while `do_sigaction` copies it there. As long as these spare the two signals, no thread blocks
them, and a pending `SIGKILL` is taken.
-/

namespace Ucore.Sync

open Kern Function SigState

variable {set : SigSet}

namespace SigSys

variable {s s' : SigSys} {p h sign : ℕ} {v : SigState}

/-- No mask holds `SIGKILL` or `SIGSTOP`: neither that of a thread nor that of a handler. -/
structure Spared (s : SigSys) : Prop where
  blocked : ∀ p, (s.info p).blocked.Spares
  mask : ∀ h sign, (s.fields h sign).mask.Spares

theorem Spared.setSig (hs : s.Spared) (hv : ∀ q, (v.info q).blocked.Spares) :
    (s.setSig v).Spared := ⟨hv, hs.mask⟩

theorem Spared.of_sameMasks (hs : s.Spared) (hv : SigState.SameMasks s.toSigState v) :
    (s.setSig v).Spared :=
  hs.setSig fun q => by rw [hv.blocked]; exact hs.blocked q

theorem Spared.of_sameSets (hs : s.Spared) (hv : SigState.SameSets s.toSigState v) :
    (s.setSig v).Spared :=
  hs.setSig fun q => by rw [hv.blocked]; exact hs.blocked q

theorem Spared.setAction {act : SigAction} (hs : s.Spared) (hact : act.mask.Spares) :
    (s.setAction h sign act).Spared := by
  refine ⟨hs.blocked, fun g n => ?_⟩
  show (update s.fields h _ g n).mask.Spares
  rcases eq_or_ne g h with rfl | hg
  · rw [update_self]
    by_cases hn : n = sign
    · rw [hn, update_self]
      exact hact
    · rw [update_of_ne hn]
      exact hs.mask g n
  · rw [update_of_ne hg]
    exact hs.mask g n

theorem blocked_setBlocked {q : ℕ} (hv : ∀ q, (v.info q).blocked.Spares) (hset : set.Spares) :
    ((v.setBlocked p set).info q).blocked.Spares := by
  unfold SigState.setBlocked
  rcases eq_or_ne q p with rfl | hq
  · rw [info_setInfo_self]
    exact hset
  · rw [info_setInfo_of_ne hq]
    exact hv q

theorem Spared.changeMask (hs : s.Spared) (hset : set.Spares) :
    (s.setSig (s.changeMask p set)).Spared := by
  refine hs.setSig fun q => ?_
  unfold SigState.changeMask
  rw [sameMasks_recalcPending.blocked]
  exact blocked_setBlocked hs.blocked hset

theorem Spared.waitUnder (hs : s.Spared) (hset : set.Spares) :
    (s.setSig (s.waitUnder p set)).Spared :=
  hs.setSig fun _ => blocked_setBlocked hs.blocked hset

theorem Spared.fork {c n : ℕ} {thread sighand : Bool} (hs : s.Spared) :
    (s.fork p c n h thread sighand).Spared := by
  refine ⟨fun q => ?_, fun g m => ?_⟩
  · show (update s.info c _ q).blocked.Spares
    by_cases hq : q = c
    · rw [hq, update_self]
      exact spares_zero
    · rw [update_of_ne hq]
      exact hs.blocked q
  · show ((if _ then s.fields else update s.fields h _) g m).mask.Spares
    split
    · exact hs.mask g m
    · by_cases hg : g = h
      · rw [hg, update_self]
        exact spares_zero
      · rw [update_of_ne hg]
        exact hs.mask g m

end SigSys

/-- A thread carries a mask from before it slept. -/
def Place.Spares : Place → Prop
  | .user => True
  | .suspended old => old.Spares
  | .stopped old => ∀ set, old = some set → set.Spares
  | .framing sign old => (1 ≤ sign ∧ sign ≤ 63 ∧ sign ≠ sigKill ∧ sign ≠ sigStop) ∧ old.Spares
  | .copying .. => True
  | .gone => True

namespace SigMachine

variable {s s' : SigMachine} {p sign : ℕ} {op : SigOp} {old : Option SigSet} {e : SignalEnd}

/-- No mask holds `SIGKILL` or `SIGSTOP`. -/
structure Spared (s : SigMachine) : Prop where
  sys : s.sys.Spared
  place : ∀ p, (s.place p).Spares

/-- The masks that the kernel takes over as they are. -/
def Trusts : SigOp → Prop
  | .sigreturn _ (some frame) => frame.oldBlocked.Spares
  | .copyAction _ _ act _ => act.mask.Spares
  | _ => True

/-- A step in which the user's frame, and a handler's mask on which the copy sleeps, spare
`SIGKILL` and `SIGSTOP`. -/
def SparingStep (s : SigMachine) (op : SigOp) (s' : SigMachine) : Prop := Trusts op ∧ s.Step op s'

section

variable (hs : s.Spared)
include hs

theorem Spared.moveTo {v : SigSys} {place : Place} (hv : v.Spared) (hplace : place.Spares) :
    (s.moveTo p v place).Spared := by
  refine ⟨hv, fun q => ?_⟩
  show (update s.place p place q).Spares
  by_cases hq : q = p
  · rw [hq, update_self]
    exact hplace
  · rw [update_of_ne hq]
    exact hs.place q

theorem Spared.framing {old : SigSet} (hplace : s.place p = .framing sign old) :
    (1 ≤ sign ∧ sign ≤ 63 ∧ sign ≠ sigKill ∧ sign ≠ sigStop) ∧ old.Spares := by
  have hframe := hs.place p
  rwa [hplace] at hframe

theorem Spared.givesMask (htrust : Trusts op) (hset : s.GivesMask op set) : set.Spares := by
  cases hset with
  | procmask => exact spares_maskBy (hs.sys.blocked _) spares_strip
  | handler hplace =>
    obtain ⟨⟨hpos, hle, hkill, hstop⟩, -⟩ := hs.framing hplace
    exact ((hs.sys.blocked _).or (hs.sys.mask _ _)).add hpos (by omega) hkill hstop
  | frame => exact htrust

theorem Spared.writesMask {h : ℕ} (htrust : Trusts op) (hset : s.WritesMask op h sign set) :
    set.Spares := by
  cases hset with
  | stripped => exact spares_strip
  | same => exact hs.sys.mask h sign
  | @part p act part hop hpart =>
    subst hop
    have hbit : ∀ n, sigismember (s.sys.fields h sign).mask n = false →
        sigismember act.mask n = false → sigismember part.mask n = false := by
      intro n hold hnew
      exact (hpart.mask n).elim (fun h => h.trans hold) fun h => h.trans hnew
    exact ⟨hbit _ (hs.sys.mask h sign).1 htrust.1, hbit _ (hs.sys.mask h sign).2 htrust.2⟩

/-- The changes that an operation makes spare `SIGKILL` and `SIGSTOP`. -/
theorem Spared.keeps (htrust : Trusts op) : s.Keeps op SigSys.Spared where
  fork _ _ _ _ _ _ _ := hs.sys.fork
  same _ _ hv hw := hv.of_sameSets hw
  action _ _ _ _ hv hmask := hv.setAction (hs.writesMask htrust hmask)
  ignored _ _ _ hv _ := hv.of_sameMasks sameMasks_dropIgnored
  taken _ _ hv _ := hv.of_sameMasks sameMasks_dequeueSignal
  mask _ _ hset := hs.sys.changeMask (hs.givesMask htrust hset)
  waits _ _ hset := by
    cases hset with
    | suspend => exact hs.sys.waitUnder spares_strip
    | waitinfo => exact hs.sys.waitUnder spares_waitinfoMask
  queued _ _ _ _ _ _ _ := hs.sys.of_sameMasks sameMasks_queued
  stopped _ _ _ _ := hs.sys.of_sameMasks sameMasks_stopHandled
  sent _ _ _ _ _ _ :=
    hs.sys.of_sameMasks (sameMasks_stopHandled.trans sameMasks_groupSent)

theorem Spared.settle {v : SigSys} (hold : ∀ set, old = some set → set.Spares) (hv : v.Spared)
    (hend : e.Tells v p ∨ e = .none) : (s.settle p old v e).Spared := by
  cases e with
  | none =>
    cases old with
    | none => exact hs.moveTo hv trivial
    | some set => exact hs.moveTo (hv.of_sameSets sameSets_setSched) (hold set rfl)
  | frames sign =>
    refine hs.moveTo hv ⟨hend.resolve_right (by simp), ?_⟩
    cases old with
    | none => exact hv.blocked p
    | some set => exact hold set rfl
  | stops => exact hs.moveTo hv hold
  | exits => exact hs.moveTo hv trivial

theorem Spared.doSignal {v : SigSys} (hold : ∀ set, old = some set → set.Spares)
    (hcall : doSignal p s.sys = .done e v) : (s.settle p old v e).Spared := by
  have hk : s.Keeps (.signal p) SigSys.Spared := hs.keeps trivial
  obtain ⟨hv, hend⟩ := (wp_doSignal (hk.taken p) hk.same hs.sys).of_done hcall
  exact hs.settle hold hv (hend.imp id fun h => h.1)

end

/-- Every step keeps `SIGKILL` and `SIGSTOP` out of the masks. -/
theorem SparingStep.spared (hstep : SparingStep s op s') (hs : s.Spared) : s'.Spared := by
  obtain ⟨htrust, hstep⟩ := hstep
  have hk := hs.keeps htrust
  have hsys : s'.sys.Spared := hstep.keeps hs.sys hk
  cases op with
  | fork p c n h thread sighand =>
    obtain ⟨-, -, rfl⟩ := hstep
    exact hs.moveTo hsys trivial
  | exit p group =>
    obtain ⟨-, rfl⟩ := hstep
    exact hs.moveTo hsys trivial
  | copyAction p sign act part =>
    obtain ⟨-, -, -, h, -, -, rfl⟩ := hstep
    exact hs.moveTo hsys trivial
  | copied p =>
    obtain ⟨sign, act, h, -, -, -, r, v, -, rfl⟩ := hstep
    exact hs.moveTo hsys trivial
  | sigsuspend p mask =>
    obtain ⟨-, waits, v, -, rfl⟩ := hstep
    refine hs.moveTo hsys ?_
    split
    · exact hs.sys.blocked p
    · trivial
  | sigwaitinfo p set =>
    obtain ⟨-, v, -, rfl⟩ := hstep
    exact hs.moveTo hsys (hs.sys.blocked p)
  | sigreturn p frame =>
    obtain ⟨-, alive, v, -, rfl⟩ := hstep
    refine hs.moveTo hsys ?_
    split <;> trivial
  | sigaction | sigprocmask | tkill | kill =>
    obtain ⟨-, r, v, -, rfl⟩ := hstep
    exact ⟨hsys, hs.place⟩
  | signal p =>
    obtain ⟨-, e, v, hcall, rfl⟩ := hstep
    exact hs.doSignal (by simp) hcall
  | awake p =>
    obtain ⟨old, hplace, -, e, v, hcall, rfl⟩ := hstep
    have hold := hs.place p
    rw [hplace] at hold
    exact hs.doSignal (fun set hset => Option.some.inj hset ▸ hold) hcall
  | continued p =>
    obtain ⟨old, h, hplace, -, hsighand, e, v, hcall, rfl⟩ := hstep
    have hold := hs.place p
    rw [hplace] at hold
    have hlive : s.sys.Live p := live_of_eq hsighand
    obtain ⟨hv, hend⟩ := (wp_signalLoop (hk.taken p) hk.same hs.sys hlive
      left_lt_signalTurns).of_done hcall
    exact hs.settle hold hv (.inl hend)
  | frame p written =>
    obtain ⟨sign, old, -, -, v, -, rfl⟩ := hstep
    exact hs.moveTo hsys trivial
  | sleep p w =>
    obtain ⟨-, -, rfl⟩ := hstep
    exact ⟨hsys, hs.place⟩
  | wake p =>
    obtain ⟨-, rfl⟩ := hstep
    exact ⟨hsys, hs.place⟩

theorem Start.spared (h : s.Start) : s.Spared := by
  refine ⟨⟨fun p => ?_, fun g n => ?_⟩, fun p => ?_⟩
  · rw [h.blocked]
    exact spares_zero
  · rw [h.mask]
    exact spares_zero
  · rw [h.place]
    trivial

/-- **`SIGKILL` and `SIGSTOP` are not blocked**, as long as the frames that `do_sigreturn` reads and
the masks on whose copy `do_sigaction` sleeps spare them: no thread blocks them, a `SIGKILL` that
waits is returned by `dequeue_signal`, and the mask that goes to the stack of the user spares
them too. -/
theorem kill_and_stop_unblocked {s₀ : SigMachine} {ops : List SigOp} (hstart : s₀.Start)
    (hrun : Run SparingStep s₀ ops s) :
    (∀ p, (s.sys.info p).blocked.Spares) ∧
    (∀ p, s.sys.Waits p sigKill → ∃ k, SigState.Dequeues p sigKill k s.sys.toSigState) ∧
    ∀ p sign old, s.place p = .framing sign old → old.Spares := by
  have hs : s.Spared := hrun.invariant (fun _ _ _ hs hstep => hstep.spared hs) hstart.spared
  refine ⟨hs.sys.blocked, fun p hwaits => ?_, fun p sign old hplace => ?_⟩
  · exact exists_dequeues hwaits (by decide) (by decide) (hs.sys.blocked p).1
  · exact (hs.framing hplace).2

/-- Program 2 blocks everything it can, and `SIGKILL` is sent to it. -/
theorem kill_and_stop_unblocked_all : ∃ s, quiet.Start ∧
    Run SparingStep quiet [.sigprocmask 2 sigSetmask .null (.good (BitVec.allOnes 64)),
      .tkill 3 2 9] s ∧ ∃ k, SigState.Dequeues 2 sigKill k s.sys.toSigState := by
  obtain ⟨s, hrun, hwaits⟩ : ∃ s, Run SparingStep quiet
      [.sigprocmask 2 sigSetmask .null (.good (BitVec.allOnes 64)), .tkill 3 2 9] s ∧
        s.sys.Waits 2 sigKill := by
    refine ⟨_, .cons ⟨trivial, ⟨rfl, rfl, by decide⟩, _, _, rfl, rfl⟩
      (.cons ⟨trivial, ⟨rfl, rfl, by decide⟩, _, _, rfl, rfl⟩ (.nil _)), .inl ?_⟩
    rfl
  obtain ⟨-, htaken, -⟩ := kill_and_stop_unblocked start_quiet hrun
  exact ⟨s, start_quiet, hrun, htaken 2 hwaits⟩

/-- Program 2 puts a frame on its stack and calls `do_sigreturn`; then it blocks `SIGKILL`, which
is never taken. -/
theorem kill_blocked_by_frame : ∃ s, quiet.Start ∧
    Run Step quiet [.sigreturn 2 (some ⟨BitVec.allOnes 64, false⟩), .tkill 3 2 9] s ∧
      sigismember (s.sys.info 2).blocked sigKill = true ∧ s.sys.Waits 2 sigKill ∧
      ∀ k, ¬SigState.Dequeues 2 sigKill k s.sys.toSigState := by
  obtain ⟨s, hrun, hblocked, hwaits⟩ : ∃ s, Run Step quiet
      [.sigreturn 2 (some ⟨BitVec.allOnes 64, false⟩), .tkill 3 2 9] s ∧
        sigismember (s.sys.info 2).blocked sigKill = true ∧ s.sys.Waits 2 sigKill := by
    refine ⟨_, .cons ⟨⟨rfl, rfl, by decide⟩, _, _, rfl, rfl⟩
      (.cons ⟨⟨rfl, rfl, by decide⟩, _, _, rfl, rfl⟩ (.nil _)), ?_, .inl ?_⟩
    · rfl
    · rfl
  refine ⟨s, start_quiet, hrun, hblocked, hwaits, fun k hk => ?_⟩
  obtain ⟨-, -, hopen⟩ := of_dequeues hk (by decide)
  rw [hblocked] at hopen
  cases hopen

end SigMachine

end Ucore.Sync
