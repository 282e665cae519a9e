import Ucore.Signal.FlagRuns

/-!
# Signals to a thread group

`do_sigkill` adds a signal to the set of the thread it names and picks a thread of the group to
take it. Threads of one group do not share that set: `copy_signal` creates one for each. So the
signal gets through exactly if the thread that is named can take it and hears of it.
-/

namespace Ucore.Sync

open Kern SigState

/-! ## Every thread has a set of its own -/

/-- Every step leaves each thread a `struct signal_struct` of its own. -/
theorem SigMachine.keeps_own {s : SigMachine} {op : SigOp} (hs : s.sys.Own) :
    s.Keeps op fun v => v.toSigState.Own where
  fork _ _ _ _ _ _ hunused := SigState.Own.fork hs fun q hq => (hunused.2.2.2 q hq).1
  same _ _ hv hw := hw.threads.own hv
  action _ _ _ _ hv _ := hv
  ignored _ _ _ hv _ := sameMasks_dropIgnored.threads.own hv
  taken _ _ hv _ := sameMasks_dequeueSignal.threads.own hv
  mask _ _ _ := (sameThreads_setBlocked.trans sameMasks_recalcPending.threads).own hs
  waits _ _ _ := sameThreads_setBlocked.own hs
  queued _ _ _ _ _ _ _ := sameMasks_queued.threads.own hs
  stopped _ _ _ _ := sameMasks_stopHandled.threads.own hs
  sent _ _ _ _ _ _ :=
    (sameMasks_stopHandled.trans sameMasks_groupSent).threads.own hs

/-! ## Delivery -/

namespace SigState

variable {s s' : SigState} {p sign dst : ℕ}

/-- The signal waits for a thread of the group. -/
def GroupWaits (s : SigState) (dst sign : ℕ) : Prop :=
  ∃ t ∈ dst :: s.others dst, s.Live t ∧ s.Waits t sign

/-- A living thread of the group does not block the signal, is told of it, and one of its next calls
of `dequeue_signal` returns it. -/
def GroupTakes (s : SigState) (dst sign : ℕ) : Prop :=
  ∃ t ∈ dst :: s.others dst, s.Live t ∧ (s.sched.proc t).state ≠ .zombie ∧
    sigismember (s.info t).blocked sign = false ∧ (s.info t).sigPending = true ∧
    ∃ k, Dequeues t sign k s

/-- The thread that is named can take the signal and is told of it: its flag is set, or it is the
first of the threads asked that wants the signal. `handle_stop_signal` comes before that. -/
structure Hears (s : SigState) (current sign dst : ℕ) : Prop where
  small : sign ≤ 63
  unblocked : sigismember (s.info dst).blocked sign = false
  told : ((s.stopHandled current sign dst).info dst).sigPending = true ∨
    (s.stopHandled current sign dst).wantsSignal sign dst = true ∧
      ∃ before after, (s.stopHandled current sign dst).candidates dst = before ++ dst :: after ∧
        ∀ q ∈ before, (s.stopHandled current sign dst).wantsSignal sign q = false

theorem pick_eq_some : s.pick sign dst = some p ↔ s.wantsSignal sign p = true ∧
    ∃ before after, s.candidates dst = before ++ p :: after ∧
      ∀ q ∈ before, s.wantsSignal sign q = false := by
  unfold pick
  rw [List.find?_eq_some_iff_append]
  simp

/-- The sets of the other threads of the group do not get the signal. -/
theorem groupTakes_iff_hears {current : ℕ} {v : Sched} (hown : s.Own) (hdst : s.Live dst)
    (hzombie : (s.sched.proc dst).state ≠ .zombie) (hpos : 1 ≤ sign) (hle : sign ≤ 64)
    (hnew : ¬s.GroupWaits dst sign) (hv : OnlyWakes s.sched v) :
    (((s.stopHandled current sign dst).groupSent sign dst).setSched v).GroupTakes dst sign ↔
      s.Hears current sign dst := by
  have hmasks : SameMasks s ((s.stopHandled current sign dst).groupSent sign dst) :=
    sameMasks_stopHandled.trans sameMasks_groupSent
  have hstop : SameMasks s (s.stopHandled current sign dst) := sameMasks_stopHandled
  constructor
  · rintro ⟨t, ht, hlive, -, hopen, hflag, k, hk⟩
    have hlive' : s.Live t := hmasks.threads.live t hlive
    have ht' : t ∈ dst :: s.others dst := by
      rw [← hmasks.others]
      exact ht
    obtain ⟨hsmall, hwaits, -⟩ := of_dequeues hk (by omega)
    have hsent : ((s.stopHandled current sign dst).groupSent sign dst).Waits t sign := hwaits
    rcases (waits_groupSent hpos hle hpos).mp hsent with hold | ⟨hsame, -⟩
    · exact absurd ⟨t, ht', hlive', waits_of_stopHandled hold⟩ hnew
    · rw [hstop.signal, hstop.signal] at hsame
      obtain rfl := hown t dst hlive' hdst hsame
      have hopen' : sigismember (s.info t).blocked sign = false := by
        rw [← hmasks.blocked]
        exact hopen
      exact ⟨hsmall, hopen', (sigPending_groupSent.mp hflag).imp id pick_eq_some.mp⟩
  · intro hhears
    have hopen : sigismember (((s.stopHandled current sign dst).groupSent sign dst).info
        dst).blocked sign = false := by
      rw [hmasks.blocked]
      exact hhears.unblocked
    refine ⟨dst, .head _, ?_, ?_, hopen, ?_, ?_⟩
    · show (((s.stopHandled current sign dst).groupSent sign dst).info dst).sighand ≠ none
      rw [hmasks.sighand]
      exact hdst
    · exact fun h => hzombie (hv.zombie.mp h)
    · exact sigPending_groupSent.mpr (hhears.told.imp id pick_eq_some.mpr)
    · refine exists_dequeues ?_ hpos hhears.small hopen
      exact (waits_groupSent hpos hle hpos).mpr (.inr ⟨rfl, rfl⟩)

end SigState

namespace SigMachine

variable {s s₀ : SigMachine} {p dst : ℕ} {pid sign : ℤ} {ops : List SigOp}

/-- **A signal to a thread group gets through** exactly if it waited already or the thread that is
named hears of it, in every state of every run. -/
theorem group_signal_taken (hstart : s₀.Start) (hrun : Run Step s₀ ops s)
    (hdst : s.sys.Names pid dst) (hlive : s.sys.Live dst) (hpos : 1 ≤ sign) (hle : sign ≤ 64)
    (hign : ¬s.sys.Ignored dst sign.toNat) :
    ∃ v, doSigkill p pid sign s.sys = .done 0 v ∧
      (s.sys.GroupWaits dst sign.toNat ∨ v.GroupTakes dst sign.toNat ↔
        s.sys.GroupWaits dst sign.toNat ∨ s.sys.Hears p sign.toNat dst) := by
  have hown : s.sys.Own := hrun.invariant
    (fun _ _ _ hs hstep => hstep.keeps hs (keeps_own hs)) hstart.own
  have hwp : (doSigkill p pid sign).wp False Never (fun r v => r = 0 ∧
      (s.sys.GroupWaits dst sign.toNat ∨ v.GroupTakes dst sign.toNat ↔
        s.sys.GroupWaits dst sign.toNat ∨ s.sys.Hears p sign.toNat dst)) s.sys := by
    refine wp_doSigkill (fun hgone => absurd hgone hdst.not_gone) (fun hrange => by omega)
      (fun _ _ t ht hnothing => ?_) fun t ht _ _ _ => ?_
    · obtain rfl := hdst.unique ht
      exact absurd hnothing (not_or.mpr ⟨by omega, hlive⟩)
    obtain rfl := hdst.unique ht
    have hmasks : SigState.SameMasks s.sys.toSigState (s.sys.stopHandled p sign.toNat dst) :=
      sameMasks_stopHandled
    rw [wp_inSig]
    refine wp_groupSendInfo (fun hnot => hnot (hmasks.reaches.mpr ?_)) (fun hskip => ?_)
      fun _ _ v hv => ⟨rfl, ?_⟩
    · exact .inr (.inr (.inr hlive))
    · have hwaits : s.sys.GroupWaits dst sign.toNat := by
        refine ⟨dst, .head _, hlive, .inr ?_⟩
        rcases hskip with hdrops | hshared
        · exact absurd (hmasks.drops.mp hdrops).2 hign
        · rwa [sigismember_shared_stopHandled (by omega)] at hshared
      exact ⟨rfl, fun _ => .inl hwaits, fun _ => .inl hwaits⟩
    · rw [sched_stopHandled] at hv
      by_cases hwaits : s.sys.GroupWaits dst sign.toNat
      · exact ⟨fun _ => .inl hwaits, fun _ => .inl hwaits⟩
      · exact or_congr_right (groupTakes_iff_hears hown hlive hdst.2 (by omega) (by omega)
          hwaits hv.toOnlyWakes)
  obtain ⟨r, v, hcall, rfl, hiff⟩ := hwp.returns_done
  exact ⟨v, hcall, hiff⟩

/-- Program 2 starts the thread 9, and signal 10 is sent to its number. -/
theorem group_signal_taken_first : ∃ s v, Run Step quiet [.fork 2 9 20 20 true true] s ∧
    doSigkill 3 2 10 s.sys = .done 0 v ∧ (s.sys.GroupWaits 2 10 ∨ v.GroupTakes 2 10) := by
  have hrun : Run Step quiet [.fork 2 9 20 20 true true]
      (quiet.moveTo 9 (quietSys.fork 2 9 20 20 true true) .user) :=
    .cons ⟨⟨rfl, rfl, by decide⟩, unused_quiet, rfl⟩ (.nil _)
  have hlive : (quietSys.fork 2 9 20 20 true true).Live 2 := by
    show some 2 ≠ none
    simp
  have hign : ¬(quietSys.fork 2 9 20 20 true true).Ignored 2 (10 : ℤ).toNat := by
    rintro ⟨-, -, h, -, hact⟩
    have hdfl : Handler.dfl = .ign ∨ Handler.dfl = .dfl ∧
      (10 = sigCont ∨ 10 = sigChld ∨ 10 = sigWinch ∨ 10 = sigUrg) := hact
    exact absurd hdfl (by decide)
  have hnames : (quietSys.fork 2 9 20 20 true true).Names 2 2 := ⟨rfl, by decide⟩
  obtain ⟨v, hcall, hiff⟩ := group_signal_taken start_quiet hrun hnames hlive (by decide)
    (by decide) hign
  have hhears : (quietSys.fork 2 9 20 20 true true).Hears 3 (10 : ℤ).toNat 2 :=
    ⟨by decide, rfl, .inr ⟨rfl, [], [9], rfl, by simp⟩⟩
  exact ⟨_, v, hrun, hcall, hiff.mpr (.inr hhears)⟩

/-- Program 2 starts the thread 9 and blocks signal 10; the signal is sent to the group. Thread 9
does not block it, but no thread takes it. -/
theorem group_signal_lost : ∃ s v, quiet.Start ∧ Run Step quiet [.fork 2 9 20 20 true true,
      .sigprocmask 2 sigBlock .null (.good (sigsetAdd 0 10))] s ∧
    doSigkill 3 2 10 s.sys = .done 0 v ∧
    9 ∈ s.sys.others 2 ∧ s.sys.Live 9 ∧ (s.sys.sched.proc 9).state = .runnable ∧
    (s.sys.info 9).exiting = false ∧ sigismember (s.sys.info 9).blocked 10 = false ∧
    ¬s.sys.GroupWaits 2 10 ∧ ¬v.GroupTakes 2 10 := by
  refine ⟨_, _, start_quiet, .cons ⟨⟨rfl, rfl, by decide⟩, unused_quiet, rfl⟩
    (.cons ⟨⟨rfl, rfl, by decide⟩, _, _, rfl, rfl⟩ (.nil _)), rfl, .head _, ?_, rfl, rfl,
    rfl, ?_, ?_⟩
  · show some 2 ≠ none
    simp
  · rintro ⟨t, ht, -, hwaits⟩
    have hmem : t = 2 ∨ t = 9 := by simpa using (show t ∈ [2, 9] from ht)
    rcases hmem with rfl | rfl
    · exact hwaits.elim (absurd · (by decide)) (absurd · (by decide))
    · exact hwaits.elim (absurd · (by decide)) (absurd · (by decide))
  · rintro ⟨t, ht, -, -, hopen, -, k, hk⟩
    have hmem : t = 2 ∨ t = 9 := by simpa using (show t ∈ [2, 9] from ht)
    rcases hmem with rfl | rfl
    · cases hopen
    · obtain ⟨-, hwaits, -⟩ := of_dequeues hk (by decide)
      exact hwaits.elim (absurd · (by decide)) (absurd · (by decide))

end SigMachine

end Ucore.Sync
