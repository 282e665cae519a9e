import Ucore.Lib.Runs
import Ucore.Signal.Flags

/-!
# The flag over runs

Every operation under the conditions of `Steady` keeps the flags of all threads right, so they
are right in every state of a run, and `do_signal` leaves nothing behind when it returns 0.
-/

namespace Ucore.Sync

open Kern Function SigState

namespace SigState

variable {s s' : SigState} {p n h c : ℕ} {sighand thread : Bool}

theorem sameSets_of_eq (hinfo : s'.info = s.info) (hsignal : s'.signal = s.signal) :
    SameSets s s' :=
  ⟨fun _ => by rw [hinfo], fun _ => by rw [hinfo], fun _ => by rw [hinfo], fun _ => by rw [hinfo],
    fun _ _ => by rw [hinfo], hsignal⟩

theorem info_fork_of_ne {q : ℕ} (hq : q ≠ c) :
    (s.fork p c n h thread sighand).info q = s.info q := update_of_ne hq ..

theorem info_fork_self :
    (s.fork p c n h thread sighand).info c = ⟨n, if thread || sighand then (s.info p).sighand
      else some h, 0, 0, false, false⟩ := update_self ..

/-- A new thread gets a `struct signal_struct` of its own. -/
theorem Own.fork (hs : s.Own) (hfresh : ∀ q, s.Live q → (s.info q).signal ≠ n) :
    (s.fork p c n h thread sighand).Own := by
  have hlive : ∀ q, q ≠ c → (s.fork p c n h thread sighand).Live q → s.Live q := by
    intro q hq hlive
    unfold Live at hlive ⊢
    rwa [info_fork_of_ne hq] at hlive
  intro q r hq hr heq
  by_cases hqc : q = c
  · by_cases hrc : r = c
    · rw [hqc, hrc]
    · rw [hqc, info_fork_self, info_fork_of_ne hrc] at heq
      exact absurd heq.symm (hfresh r (hlive r hrc hr))
  · by_cases hrc : r = c
    · rw [hrc, info_fork_self, info_fork_of_ne hqc] at heq
      exact absurd heq (hfresh q (hlive q hqc hq))
    · rw [info_fork_of_ne hqc, info_fork_of_ne hrc] at heq
      exact hs q r (hlive q hqc hq) (hlive r hrc hr) heq

/-- A new thread has no signals. -/
theorem Flagged.fork (hs : s.Flagged) (hfresh : ∀ q, s.Live q → (s.info q).signal ≠ n) :
    (s.fork p c n h thread sighand).Flagged := by
  have hshared : (s.fork p c n h thread sighand).shared c = 0 := by
    unfold shared
    rw [info_fork_self]
    show (update s.signal n _ n).sharedPending = 0
    rw [update_self]
  have hview : ∀ q, q ≠ c → (s.info q).signal ≠ n →
      SameView s (s.fork p c n h thread sighand) q := by
    intro q hq hne
    refine ⟨by rw [info_fork_of_ne hq], by rw [info_fork_of_ne hq], by rw [info_fork_of_ne hq], ?_⟩
    unfold shared
    rw [info_fork_of_ne hq]
    exact congrArg SignalStruct.sharedPending (update_of_ne hne ..)
  refine ⟨hs.own.fork hfresh, fun q hq => ?_, fun q hq => ?_⟩
  · rcases eq_or_ne q c with rfl | hqc
    · unfold Waits at hq
      rw [info_fork_self, hshared] at hq
      have hzero : sigismember 0 64 = true := hq.elim id id
      cases hzero
    · by_cases hqn : (s.info q).signal = n
      · unfold Waits shared at hq
        rw [info_fork_of_ne hqc, hqn] at hq
        refine hs.last q (hq.imp id fun hbit => ?_)
        have hzero : (s.fork p c n h thread sighand).signal n = ⟨none, 0⟩ :=
          update_self ..
        rw [hzero] at hbit
        cases hbit
      · exact hs.last q ((hview q hqc hqn).waits.mp hq)
  · rcases eq_or_ne q c with rfl | hqc
    · unfold FlagOk deliverable
      rw [hshared, info_fork_self]
      simp
    · have hq' : s.Live q := by
        unfold Live at hq ⊢
        rwa [info_fork_of_ne hqc] at hq
      exact (hview q hqc (hfresh q hq')).flagOk (hs.flag q hq')

end SigState

namespace SigSys

variable {s : SigSys} {p h sign : ℕ}

/-- The conditions for a send to a group: signal 64 is not sent, the send concerns the thread whose
set gets the signal, and `handle_stop_signal` comes to it or has nothing to do. A signal that is
ignored or waits already may be sent in any case, as far as `handle_stop_signal` allows it. -/
def GroupSteady (s : SigState) (current sign dst : ℕ) : Prop :=
  (dst ∈ current :: s.others current ∨
    ∀ m ∈ SigState.sharedDropped sign, sigismember (s.shared dst) m = false) ∧
  (s.Drops dst sign ∨ sigismember (s.shared dst) sign = true ∨ sign ≠ 64 ∧ s.Aimed sign dst)

theorem currTarget_stopHandled {s : SigState} {current sign dst m : ℕ} :
    ((s.stopHandled current sign dst).signal m).currTarget = (s.signal m).currTarget := by
  unfold SigState.stopHandled
  split
  · rw [SigState.signal_foldl_dropPending]
    show (update s.signal _ _ m).currTarget = _
    by_cases hm : m = (s.info dst).signal
    · subst hm
      rw [update_self]
    · rw [update_of_ne hm]
  · rfl

/-- `handle_stop_signal` does not spoil the conditions: it takes signals away only. -/
theorem aimed_stopHandled {s : SigState} {current sign dst : ℕ} (hs : s.Flagged)
    (hs' : (s.stopHandled current sign dst).Flagged) (hdst : s.Live dst)
    (haimed : s.Aimed sign dst) : (s.stopHandled current sign dst).Aimed sign dst := by
  have hmasks : SigState.SameMasks s (s.stopHandled current sign dst) :=
    sameMasks_stopHandled
  have hdst' : (s.stopHandled current sign dst).Live dst := by
    unfold SigState.Live
    rw [hmasks.sighand]
    exact hdst
  refine ⟨(hmasks.exiting dst).trans haimed.exiting, ?_, ?_⟩
  · rw [hmasks.signal, currTarget_stopHandled]
    exact haimed.target
  · rw [hmasks.others, hmasks.blocked]
    refine haimed.free.imp id fun hfree => ⟨hfree.1, hfree.2.imp (fun hflag => ?_) id⟩
    by_contra hset
    rw [Bool.not_eq_false] at hset
    obtain ⟨n, hpos, hle, hwaits, hopen⟩ :=
      deliverable_ne_zero.mp ((hs'.flag dst hdst').mp hset)
    rw [hmasks.blocked] at hopen
    have hraised := (hs.flag dst hdst).mpr (deliverable_ne_zero.mpr
      ⟨n, hpos, hle, waits_of_stopHandled hwaits, hopen⟩)
    rw [hflag] at hraised
    cases hraised

/-- A send to a group under these conditions. -/
theorem flagged_sent {current dst : ℕ} (hs : s.toSigState.Flagged) (hlive : s.Live dst)
    (hzombie : (s.sched.proc dst).state ≠ .zombie) (hpos : 1 ≤ sign) (hle : sign ≤ 64)
    (hsteady : GroupSteady s.toSigState current sign dst)
    (hkeep : ¬(s.stopHandled current sign dst).Drops dst sign)
    (hnew : ¬sigismember ((s.stopHandled current sign dst).shared dst) sign = true) :
    ((s.stopHandled current sign dst).groupSent sign dst).Flagged := by
  have hflagged := hs.stopHandled hlive hsteady.1
  have hlive' : (s.stopHandled current sign dst).Live dst := by
    unfold SigState.Live
    rw [sameMasks_stopHandled.sighand]
    exact hlive
  rw [sameMasks_stopHandled.drops] at hkeep
  rw [sigismember_shared_stopHandled hpos] at hnew
  obtain ⟨hlast, haimed⟩ := (hsteady.2.resolve_left hkeep).resolve_left hnew
  have haimed' := aimed_stopHandled hs hflagged hlive haimed
  have hzombie' : ((s.stopHandled current sign dst).sched.proc dst).state ≠ .zombie := by
    rw [sched_stopHandled]
    exact hzombie
  exact hflagged.groupSent hlive' hzombie' hpos (by omega) haimed'

/-! ## Delivery -/

/-- `do_signal` keeps the flags right, and nothing is left to deliver when it returns 0. -/
theorem flagged_doSignal (hs : s.toSigState.Flagged) (hlive : s.Live p) :
    (doSignal p).wp False Never (fun e s' => s'.toSigState.Flagged ∧
      (e = .none → s'.deliverable p = 0)) s := by
  refine (wp_doSignal (fun _ hv => hv.dequeueSignal) (fun _ _ hv => hv.of_sameSets) hs).mono
    (fun _ _ hfalse => hfalse) fun e s' hend => ⟨hend.1, fun he => ?_⟩
  subst he
  obtain ⟨hs', htells | ⟨-, rfl, hnone | hflag⟩⟩ := hend
  · exact hs'.deliverable_eq_zero htells
  · exact absurd hnone hlive
  · by_contra hne
    rw [(hs.flag p hlive).mpr hne] at hflag
    cases hflag

end SigSys

namespace SigMachine

variable {s s' : SigMachine} {p : ℕ} {op : SigOp}

/-- The conditions under which an operation keeps the flags right: another mask to wait under makes
no difference to whether a signal can be delivered, signal 64 is not sent, and a send to a group
concerns the right thread. -/
def Steady (s : SigMachine) : SigOp → Prop
  | .sigsuspend p (.good mask) =>
      (s.sys.setBlocked p (suspendMask mask)).deliverable p ≠ 0 ↔ s.sys.deliverable p ≠ 0
  | .sigwaitinfo p (.good set) =>
      (s.sys.setBlocked p (waitinfoMask set)).deliverable p ≠ 0 ↔ s.sys.deliverable p ≠ 0
  | .tkill _ _ sign => sign ≠ 64
  | .kill p pid sign => ∀ dst, s.sys.Names pid dst → 1 ≤ sign → sign ≤ 64 → s.sys.Live dst →
      SigSys.GroupSteady s.sys.toSigState p sign.toNat dst
  | _ => True

/-- A step under these conditions. -/
def SteadyStep (s : SigMachine) (op : SigOp) (s' : SigMachine) : Prop := s.Steady op ∧ s.Step op s'

/-- The changes that an operation makes under these conditions. -/
theorem Steady.keeps (hsteady : s.Steady op) (hs : s.sys.toSigState.Flagged) :
    s.Keeps op fun v => v.toSigState.Flagged where
  fork _ _ _ _ _ _ hunused := hs.fork fun q hq => (hunused.2.2.2 q hq).1
  same _ _ hv hw := hv.of_sameSets hw
  action _ _ _ _ hv _ := hv.of_sameSets (sameSets_of_eq rfl rfl)
  ignored _ _ _ hv hlive := hv.dropIgnored hlive
  taken _ _ hv hlive := hv.dequeueSignal hlive
  mask _ _ _ := hs.changeMask
  waits _ _ hset := by
    cases hset with
    | suspend | waitinfo => exact hs.waitUnder hsteady
  queued p pid sign dst hop hpos hle := by
    subst hop
    have hne : sign ≠ 64 := hsteady
    exact hs.queued (by omega) (by omega)
  stopped p sign dst hsends := by
    obtain ⟨⟨pid, rfl, hdst⟩, hpos, hle, hlive⟩ := hsends
    exact hs.stopHandled hlive (hsteady dst hdst hpos hle hlive).1
  sent p sign dst hsends hkeep hnew := by
    obtain ⟨⟨pid, rfl, hdst⟩, hpos, hle, hlive⟩ := hsends
    exact SigSys.flagged_sent hs hlive hdst.2 (by omega) (by omega)
      (hsteady dst hdst hpos hle hlive) hkeep hnew

theorem Start.flagged (h : s.Start) : s.sys.toSigState.Flagged := by
  refine ⟨h.own, fun p hp => ?_, fun p _ => ?_⟩
  · unfold SigState.Waits SigState.shared at hp
    rw [h.pending, h.shared] at hp
    have hzero : sigismember 0 64 = true := hp.elim id id
    cases hzero
  · unfold SigState.FlagOk SigState.deliverable SigState.shared
    rw [h.flag, h.pending, h.shared]
    simp

/-- **The flag `TIF_SIGPENDING` is right** in every state of a run under the conditions of `Steady`:
it is set exactly if a signal that the thread does not block waits for it. When `do_signal` returns
0, or its loop after `do_signal_stop` comes to 0, there is no such signal. -/
theorem sigpending_flag {s₀ : SigMachine} {ops : List SigOp} (hstart : s₀.Start)
    (hrun : Run SteadyStep s₀ ops s) :
    (∀ p, s.sys.Live p → ((s.sys.info p).sigPending = true ↔
      ((s.sys.info p).pending ||| s.sys.shared p) &&& ~~~(s.sys.info p).blocked ≠ 0)) ∧
    (∀ p v, s.sys.Live p → doSignal p s.sys = .done .none v →
      ((v.info p).pending ||| v.shared p) &&& ~~~(v.info p).blocked = 0) ∧
    ∀ p h v, s.sys.Live p → signalLoop p h signalTurns s.sys = .done .none v →
      ((v.info p).pending ||| v.shared p) &&& ~~~(v.info p).blocked = 0 := by
  have hs : s.sys.toSigState.Flagged :=
    hrun.invariant (fun _ _ _ hs hstep => hstep.2.keeps hs (hstep.1.keeps hs)) hstart.flagged
  refine ⟨hs.flag, fun p v hp hcall => ?_, fun p h v hp hcall => ?_⟩
  · exact ((SigSys.flagged_doSignal hs hp).of_done hcall).2 rfl
  · obtain ⟨hv, htells⟩ := (wp_signalLoop (I := fun v => v.toSigState.Flagged)
      (fun _ hv => hv.dequeueSignal) (fun _ _ hv => hv.of_sameSets) hs hp
      left_lt_signalTurns).of_done hcall
    exact hv.deliverable_eq_zero htells

theorem unused_quiet : quiet.Unused 9 20 20 := by
  refine ⟨by decide, by decide, rfl, fun q hq => ?_⟩
  have hrange : 2 ≤ q ∧ q ≤ 8 := by
    by_contra hnot
    exact hq (if_neg hnot)
  refine ⟨by show q ≠ 20; omega, ?_⟩
  show (if 2 ≤ q ∧ q ≤ 8 then some q else none) ≠ some 20
  rw [if_pos hrange]
  intro heq
  have := Option.some.inj heq
  omega

/-- Program 2 starts a thread and sets a handler; signal 10 is sent to it, and `do_signal` takes
it. -/
theorem sigpending_flag_handler : ∃ s, quiet.Start ∧
    Run SteadyStep quiet [.fork 2 9 20 20 true true,
      .sigaction 2 10 (.good ⟨⟨0, false, false⟩, .user⟩) .null, .kill 3 2 10] s ∧
    (s.sys.info 2).sigPending = true ∧
    ((s.sys.info 2).pending ||| s.sys.shared 2) &&& ~~~(s.sys.info 2).blocked ≠ 0 := by
  obtain ⟨s, hrun, hlive, hflag⟩ : ∃ s, Run SteadyStep quiet [.fork 2 9 20 20 true true,
      .sigaction 2 10 (.good ⟨⟨0, false, false⟩, .user⟩) .null, .kill 3 2 10] s ∧
      s.sys.Live 2 ∧ (s.sys.info 2).sigPending = true := by
    refine ⟨_, .cons ⟨trivial, ⟨rfl, rfl, by decide⟩, unused_quiet, rfl⟩
      (.cons ⟨trivial, ⟨rfl, rfl, by decide⟩, _, _, rfl, rfl⟩
      (.cons ⟨fun dst hdst _ _ _ => ?_, ⟨rfl, rfl, by decide⟩, _, _, rfl, rfl⟩ (.nil _))), ?_, ?_⟩
    · obtain rfl : 2 = dst := Option.some.inj hdst.1
      exact ⟨.inr nofun, .inr (.inr ⟨by decide, rfl, rfl, .inr ⟨rfl, .inl rfl⟩⟩)⟩
    · show some 2 ≠ none
      simp
    · rfl
  exact ⟨s, start_quiet, hrun, hflag, ((sigpending_flag start_quiet hrun).1 2 hlive).mp hflag⟩

/-- Program 2 blocks signal 10, which is sent to it, and then waits for it in `do_sigsuspend`
with its flag not set. Program 3 is sent signal 64, which `do_signal` does not take. -/
theorem sigpending_flag_stale : ∃ s, quiet.Start ∧
    Run Step quiet [.sigprocmask 2 sigBlock .null (.good (sigsetAdd 0 10)), .tkill 3 2 10,
      .sigsuspend 2 (.good 0), .kill 3 3 64] s ∧
    (s.sys.info 2).sigPending = false ∧
    ((s.sys.info 2).pending ||| s.sys.shared 2) &&& ~~~(s.sys.info 2).blocked ≠ 0 ∧
    ∃ v, doSignal 3 s.sys = .done .none v ∧
      ((v.info 3).pending ||| v.shared 3) &&& ~~~(v.info 3).blocked ≠ 0 := by
  refine ⟨_, start_quiet, .cons ⟨⟨rfl, rfl, by decide⟩, _, _, rfl, rfl⟩
    (.cons ⟨⟨rfl, rfl, by decide⟩, _, _, rfl, rfl⟩
    (.cons ⟨⟨rfl, rfl, by decide⟩, _, _, rfl, rfl⟩
    (.cons ⟨⟨rfl, rfl, by decide⟩, _, _, rfl, rfl⟩ (.nil _)))), rfl, ?_, _, rfl, ?_⟩
  · decide
  · decide

end SigMachine

end Ucore.Sync
