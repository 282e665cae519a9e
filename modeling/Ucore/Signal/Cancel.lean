import Ucore.Lib.Runs
import Ucore.Signal.Flags

/-!
# Stop signals and `SIGCONT`

A stop signal for a thread group is meant to take `SIGCONT` out of the sets of the group, and
`SIGCONT` the stop signals. `handle_stop_signal` reads the set of the group through the thread that
gets the signal, but goes through the threads of the sender, and for `SIGCONT` it leaves `SIGSTOP`
in their sets. So the two cancel each other only for a stop signal that a thread sends to its own
group, if the group has one `struct signal_struct`.
-/

namespace Ucore.Sync

open Kern List

namespace SigState

variable {s s' : SigState} {p q dst sign m : ℕ} {l signs : List ℕ}

/-- The threads of the group of a thread. -/
def group (s : SigState) (p : ℕ) : List ℕ := p :: s.others p

/-- `SIGSTOP`, `SIGTSTP`, `SIGTTIN` or `SIGTTOU`. -/
def Stops (sign : ℕ) : Prop :=
  sign = sigStop ∨ sign = sigTstp ∨ sign = sigTtin ∨ sign = sigTtou

/-- The signals that a signal takes back: `SIGCONT`, or the four stop signals. -/
def Opposite (sign m : ℕ) : Prop := Stops sign ∧ m = sigCont ∨ sign = sigCont ∧ Stops m

/-- The opposite signals wait for no thread of the group, and nothing has changed for a thread
outside. -/
structure Cancels (s s' : SigState) (sign dst : ℕ) : Prop where
  gone : ∀ q ∈ s.group dst, ∀ m, Opposite sign m → ¬s'.Waits q m
  rest : ∀ q, q ∉ s.group dst → SameView s s' q

/-- The same thread groups; sets, flags, masks, handlers and states may differ. -/
structure SameGroups (s s' : SigState) : Prop where
  others : s'.others = s.others
  signal : ∀ q, (s'.info q).signal = (s.info q).signal
  live : ∀ q, s'.Live q ↔ s.Live q
  target : ∀ n, (s'.signal n).currTarget = (s.signal n).currTarget

/-- What it takes for a signal to cancel the opposite ones. -/
structure Cancellable (s : SigState) (p sign dst : ℕ) : Prop where
  stops : Stops sign
  live : s.Live dst
  /-- The sender is in the group. -/
  sender : ∀ q, q ∈ s.group p ↔ q ∈ s.group dst
  /-- The `struct signal_struct` is that of the group. -/
  signal : ∀ q, q ∈ s.group dst ↔ (s.info q).signal = (s.info dst).signal
  /-- `curr_target` is in the group. -/
  target : ∀ q ∈ s.candidates dst, q ∈ s.group dst

theorem SameGroups.cancellable (h : SameGroups s s') (hs : s.Cancellable p sign dst) :
    s'.Cancellable p sign dst := by
  have hgroup : s'.group = s.group := by
    unfold group
    rw [h.others]
  have hcandidates : s'.candidates dst = s.candidates dst := by
    unfold candidates
    rw [h.others, h.signal, h.target]
  refine ⟨hs.stops, (h.live dst).mpr hs.live, ?_, fun q => ?_, ?_⟩
  · rw [hgroup]
    exact hs.sender
  · rw [hgroup, h.signal, h.signal]
    exact hs.signal q
  · rw [hgroup, hcandidates]
    exact hs.target

/-! ## `handle_stop_signal` -/

theorem info_foldl_dropPending (hq : q ∉ l) :
    (l.foldl (dropPending signs) s).info q = s.info q := by
  induction l generalizing s with
  | nil => rfl
  | cons a l ih =>
    obtain ⟨hne, hrest⟩ := not_or.mp (mt mem_cons.mpr hq)
    rw [foldl_cons, ih hrest, info_dropPending_of_ne hne]

/-- A signal that is taken out of the sets of some threads waits for the others. -/
theorem pending_foldl_dropPending (hm : m ≤ 64) :
    sigismember ((l.foldl (dropPending [m]) s).info q).pending m = true ↔
      q ∉ l ∧ sigismember (s.info q).pending m = true := by
  induction l generalizing s with
  | nil => simp
  | cons a l ih =>
    rw [foldl_cons, ih, mem_cons]
    rcases eq_or_ne q a with rfl | hq
    · have hgone : sigismember ((s.dropPending [m] q).info q).pending m = false := by
        rw [pending_dropPending_self]
        exact sigismember_sigsetDel_self hm
      simp [hgone]
    · rw [info_dropPending_of_ne hq]
      simp [hq]

theorem pending_foldl_dropPending_of_not_mem (hsigns : ∀ n ∈ signs, 1 ≤ n ∧ n ≤ 64) (hm : 1 ≤ m)
    (hnot : m ∉ signs) : sigismember ((l.foldl (dropPending signs) s).info q).pending m =
      sigismember (s.info q).pending m := by
  induction l generalizing s with
  | nil => rfl
  | cons a l ih =>
    rw [foldl_cons, ih]
    rcases eq_or_ne q a with rfl | hq
    · rw [pending_dropPending_self]
      exact sigismember_foldl_sigsetDel hsigns hm hnot
    · rw [info_dropPending_of_ne hq]

/-- A stop signal leaves `SIGCONT` where it does not look. -/
theorem waits_stopHandled (hstops : Stops sign) : (s.stopHandled p sign dst).Waits q sigCont ↔
      q ∉ s.group p ∧ sigismember (s.info q).pending sigCont = true ∨
        (s.info q).signal ≠ (s.info dst).signal ∧ sigismember (s.shared q) sigCont = true := by
  have heither : StopOrCont sign := .inl hstops
  have hown : ownDropped sign = [sigCont] := if_pos hstops
  have hshared : sharedDropped sign = [sigCont] := if_pos hstops
  unfold stopHandled Waits
  rw [if_pos heither, hown, hshared, pending_foldl_dropPending (by decide),
    shared_foldl_dropPending]
  refine or_congr Iff.rfl ?_
  by_cases hq : (s.info q).signal = (s.info dst).signal
  · rw [shared_dropShared_self hq, foldl_cons, foldl_nil, sigismember_sigsetDel_self (by decide)]
    simp [hq]
  · rw [shared_dropShared_of_ne hq]
    simp [hq]

/-- `SIGCONT` leaves `SIGSTOP` in the sets of all threads. -/
theorem waits_stop_stopHandled (h : sigismember (s.info q).pending sigStop = true) :
    (s.stopHandled p sigCont dst).Waits q sigStop := by
  have heither : StopOrCont sigCont := .inr rfl
  refine .inl ?_
  unfold stopHandled
  rw [if_pos heither, pending_foldl_dropPending_of_not_mem (by decide) (by decide) (by decide)]
  exact h

theorem sameView_stopHandled (hq : q ∉ s.group p)
    (hsignal : (s.info q).signal ≠ (s.info dst).signal) :
    SameView s (s.stopHandled p sign dst) q := by
  unfold stopHandled
  split
  · have hinfo : ((p :: s.others p).foldl (dropPending (ownDropped sign))
        (s.dropShared (sharedDropped sign) (s.info dst).signal)).info q = s.info q :=
      info_foldl_dropPending hq
    refine ⟨by rw [hinfo], by rw [hinfo], by rw [hinfo], ?_⟩
    rw [shared_foldl_dropPending, shared_dropShared_of_ne hsignal]
  · exact SameSets.refl.view

theorem candidates_stopHandled : (s.stopHandled p sign dst).candidates q = s.candidates q := by
  unfold stopHandled
  split
  · have hmasks : SameMasks (s.dropShared (sharedDropped sign) (s.info dst).signal) _ :=
      @sameMasks_foldl_dropPending _ (ownDropped sign) (p :: s.others p)
    unfold candidates
    rw [hmasks.others, hmasks.signal, signal_foldl_dropPending]
    exact candidates_setSignal rfl
  · rfl

/-- A signal that waited waits no longer exactly for the threads of the group. -/
theorem Cancels.mem_group_iff (h : Cancels s s' sign dst) (hm : Opposite sign m)
    (hwaits : s.Waits q m) : q ∈ s.group dst ↔ ¬s'.Waits q m := by
  refine ⟨fun hq => h.gone q hq m hm, fun hgone => ?_⟩
  by_contra hout
  exact hgone ((h.rest q hout).waits.mpr hwaits)

end SigState

/-! ## `group_send_sig_info` -/

open SigState

variable {s s' : SigSys} {p q dst sign m : ℕ}

/-- What `group_send_sig_info` does to the sets and the flags. -/
structure GroupSends (s s' : SigSys) (p sign dst : ℕ) : Prop where
  dead : ¬s.Live dst → s' = s
  waits : s.Live dst → ∀ q m, 1 ≤ m → m ≠ sign →
    (s'.Waits q m ↔ (s.stopHandled p sign dst).Waits q m)
  view : s.Live dst → ∀ q, (s.info q).signal ≠ (s.info dst).signal →
    (s.stopHandled p sign dst).pick sign dst ≠ some q →
      SameView (s.stopHandled p sign dst) s'.toSigState q
  flag : s.Live dst → ¬s.Drops dst sign → sigismember (s.shared dst) sign = false → ∀ q,
    (s.stopHandled p sign dst).pick sign dst = some q → (s'.info q).sigPending = true

theorem groupSend_sends (hpos : 1 ≤ sign) (hle : sign ≤ 64) :
    ∃ s', groupSend p sign dst s = .done 0 s' ∧ GroupSends s s' p sign dst := by
  have hmasks : SameMasks s.toSigState (s.stopHandled p sign dst) :=
    sameMasks_stopHandled
  have hwp : (groupSend p sign dst).wp False Never
      (fun r s' => r = 0 ∧ GroupSends s s' p sign dst) s := by
    rw [groupSend, wp_get]
    refine wp_if (fun hrange => by omega) fun _ => ?_
    refine wp_if (fun hdead => ⟨rfl, fun _ => rfl, ?_, ?_, ?_⟩) fun hlive => ?_
    · exact fun hlive => absurd (hdead.resolve_left (by omega)) hlive
    · exact fun hlive => absurd (hdead.resolve_left (by omega)) hlive
    · exact fun hlive => absurd (hdead.resolve_left (by omega)) hlive
    have hlive : s.Live dst := (not_or.mp hlive).2
    rw [wp_inSig, Int.toNat_natCast]
    refine wp_groupSendInfo (fun hnot => hnot (hmasks.reaches.mpr ?_))
      (fun hskip => ⟨rfl, absurd hlive, fun _ q m _ _ => Iff.rfl,
        fun _ q _ _ => SameSets.refl.view, fun _ hkeep hnew => ?_⟩)
      fun _ _ v _ => ⟨rfl, absurd hlive, fun _ q m hm hne => ?_,
        fun _ q hq hpick => ?_, fun _ _ _ q hpick => ?_⟩
    · exact .inr (.inr (.inr hlive))
    · rcases hskip with hdrops | hshared
      · exact absurd (hmasks.drops.mp hdrops) hkeep
      · rw [sigismember_shared_stopHandled hpos, hnew] at hshared
        exact absurd hshared Bool.false_ne_true
    · refine (waits_groupSent hpos hle hm).trans (or_iff_left ?_)
      exact fun heq => hne heq.2
    · rw [← hmasks.signal q, ← hmasks.signal dst] at hq
      exact (sameView_groupSent hq hpick).trans ⟨rfl, rfl, rfl, rfl⟩
    · exact sigPending_groupSent.mpr (.inr hpick)
  obtain ⟨r, s', hcall, rfl, hsends⟩ := hwp.returns_done
  exact ⟨s', hcall, hsends⟩

/-- A stop signal that a thread sends to its own group takes `SIGCONT` back. -/
theorem GroupSends.cancels (h : GroupSends s s' p sign dst) (hs : s.Cancellable p sign dst) :
    Cancels s.toSigState s'.toSigState sign dst := by
  have hstops := hs.stops
  refine ⟨fun q hq m hm => ?_, fun q hq => ?_⟩
  · obtain ⟨-, rfl⟩ | ⟨rfl, -⟩ := hm
    · have hne : sigCont ≠ sign := by
        rintro rfl
        exact absurd hstops (by unfold Stops; decide)
      rw [h.waits hs.live q sigCont (by decide) hne, waits_stopHandled hstops]
      rintro (⟨hout, -⟩ | ⟨hother, -⟩)
      · exact hout ((hs.sender q).mpr hq)
      · exact hother ((hs.signal q).mp hq)
    · exact absurd hstops (by unfold Stops; decide)
  · have hsignal : (s.info q).signal ≠ (s.info dst).signal := fun heq => hq ((hs.signal q).mpr heq)
    refine (sameView_stopHandled (fun hp => hq ((hs.sender q).mp hp)) hsignal).trans
      (h.view hs.live q hsignal fun hpick => hq (hs.target q ?_))
    have hmem := mem_of_find?_eq_some hpick
    rwa [candidates_stopHandled] at hmem

/-- The same groups with other sets; every signal has a handler and is let through. -/
def SigSys.withSets (s : SigSys) (pending shared : ℕ → SigSet) (exiting : ℕ → Bool) : SigSys :=
  { s with
    info := fun q => ⟨(s.info q).signal, (s.info q).sighand, 0, pending q, false, exiting q⟩
    signal := fun n => ⟨(s.signal n).currTarget, shared n⟩
    action := fun _ _ => .user
    sched := { s.sched with proc := fun _ => ⟨.runnable, 0⟩ } }

variable {pending shared : ℕ → SigSet} {exiting : ℕ → Bool}

/-- The one thread that is not exiting is picked. -/
theorem pick_withSets (hstops : Stops sign) (hq : q ∈ s.candidates dst)
    (hout : q ∉ s.group p) (hsignal : (s.info q).signal ≠ (s.info dst).signal) :
    ((s.withSets pending shared fun r => decide (r ≠ q)).stopHandled p sign dst).pick sign dst =
      some q := by
  have hmasks := @sameMasks_stopHandled
    (s.withSets pending shared fun r => decide (r ≠ q)).toSigState sign dst p
  have hview := @sameView_stopHandled
    (s.withSets pending shared fun r => decide (r ≠ q)).toSigState p q dst sign hout hsignal
  have hkill : sign ≠ sigKill := by
    rintro rfl
    exact absurd hstops (by unfold Stops; decide)
  have hwants : ∀ r, ((s.withSets pending shared fun r => decide (r ≠ q)).stopHandled p sign
      dst).wantsSignal sign r = true ↔ r = q := by
    intro r
    unfold wantsSignal
    rw [hmasks.blocked, hmasks.exiting, sched_stopHandled]
    rcases eq_or_ne r q with rfl | hr
    · rw [hview.flag]
      simp [SigSys.withSets, sigismember]
    · simp [SigSys.withSets, hr]
  unfold pick
  rw [candidates_stopHandled]
  cases hfound : List.find? _ _ with
  | none => exact absurd ((hwants q).mpr rfl) (List.find?_eq_none.mp hfound q hq)
  | some r => rw [(hwants r).mp (List.find?_some hfound)]

theorem cancellable_of_cancels (hsign : StopOrCont sign)
    (h : ∀ pending shared exiting, ∃ s', GroupSends (s.withSets pending shared exiting) s' p sign
      dst ∧ Cancels (s.withSets pending shared exiting).toSigState s'.toSigState sign dst) :
    s.Cancellable p sign dst := by
  have hstop : sigismember (sigsetAdd 0 sigStop) sigStop = true := by decide
  have hcont : sigismember (sigsetAdd 0 sigCont) sigCont = true := by decide
  have hstops : Stops sign := by
    refine hsign.resolve_right ?_
    rintro rfl
    obtain ⟨s', hsends, hcancels⟩ :=
      h (fun _ => sigsetAdd 0 sigStop) (fun _ => 0) (fun _ => false)
    refine hcancels.gone dst mem_cons_self sigStop (.inr ⟨rfl, .inl rfl⟩) ?_
    by_cases hlive : s.Live dst
    · refine (hsends.waits hlive dst sigStop (by decide) (by decide)).mpr ?_
      exact waits_stop_stopHandled hstop
    · rw [hsends.dead hlive]
      exact .inl hstop
  have hopposite : Opposite sign sigCont := .inl ⟨hstops, rfl⟩
  have hlive : s.Live dst := by
    by_contra hdead
    obtain ⟨s', hsends, hcancels⟩ :=
      h (fun _ => sigsetAdd 0 sigCont) (fun _ => 0) (fun _ => false)
    refine hcancels.gone dst mem_cons_self sigCont hopposite ?_
    rw [hsends.dead hdead]
    exact .inl hcont
  have hne : sigCont ≠ sign := by
    rintro rfl
    exact absurd hstops (by unfold Stops; decide)
  -- `SIGCONT` waits in the sets of the threads only, and then in the sets of the groups only.
  have hsender : ∀ q, q ∈ s.group p ↔ q ∈ s.group dst := by
    intro q
    obtain ⟨s', hsends, hcancels⟩ :=
      h (fun _ => sigsetAdd 0 sigCont) (fun _ => 0) (fun _ => false)
    have hmem : q ∈ s.group dst ↔ _ := hcancels.mem_group_iff hopposite (.inl hcont)
    rw [hmem, hsends.waits hlive q sigCont (by decide) hne, waits_stopHandled hstops]
    show q ∈ s.group p ↔ ¬(q ∉ s.group p ∧ sigismember (sigsetAdd 0 sigCont) sigCont = true ∨
      _ ∧ sigismember 0 sigCont = true)
    rw [hcont, sigismember_zero]
    simp
  have hsignal : ∀ q, q ∈ s.group dst ↔ (s.info q).signal = (s.info dst).signal := by
    intro q
    obtain ⟨s', hsends, hcancels⟩ :=
      h (fun _ => 0) (fun _ => sigsetAdd 0 sigCont) (fun _ => false)
    have hmem : q ∈ s.group dst ↔ _ := hcancels.mem_group_iff hopposite (.inr hcont)
    rw [hmem, hsends.waits hlive q sigCont (by decide) hne, waits_stopHandled hstops]
    show ¬(_ ∧ sigismember 0 sigCont = true ∨ (s.info q).signal ≠ (s.info dst).signal ∧
      sigismember (sigsetAdd 0 sigCont) sigCont = true) ↔ _
    rw [hcont, sigismember_zero]
    simp
  refine ⟨hstops, hlive, hsender, hsignal, fun q hq => ?_⟩
  by_contra hout
  obtain ⟨s', hsends, hcancels⟩ := h (fun _ => 0) (fun _ => 0) (fun r => decide (r ≠ q))
  have hkeep : ¬(s.withSets (fun _ => 0) (fun _ => 0) fun r => decide (r ≠ q)).Drops dst sign := by
    rintro ⟨-, -, -, g, -, hign⟩
    simp [SigSys.withSets] at hign
  have hraised := hsends.flag hlive hkeep sigismember_zero q
    (pick_withSets hstops hq (fun hp => hout ((hsender q).mp hp))
      fun heq => hout ((hsignal q).mpr heq))
  rw [(hcancels.rest q hout).flag] at hraised
  exact absurd hraised Bool.false_ne_true

/-- **Stop signals and `SIGCONT` cancel each other** in all sets of a thread group and nowhere else,
whatever waits before, exactly if a thread sends a stop signal to its own group and the group has
one `struct signal_struct`, which names one of its threads. -/
theorem stop_cont_cancel (hsign : StopOrCont sign) :
    (∀ s₁ : SigSys, SameGroups s.toSigState s₁.toSigState →
      ∃ s₂, groupSend p sign dst s₁ = .done 0 s₂ ∧
        Cancels s₁.toSigState s₂.toSigState sign dst) ↔ s.Cancellable p sign dst := by
  have hrange : 1 ≤ sign ∧ sign ≤ 64 := by
    obtain (rfl | rfl | rfl | rfl) | rfl := hsign <;> decide
  constructor
  · intro h
    refine cancellable_of_cancels hsign fun pending shared exiting => ?_
    obtain ⟨s', hcall, hsends⟩ :=
      @groupSend_sends (s.withSets pending shared exiting) p dst sign hrange.1 hrange.2
    obtain ⟨s'', hcall', hcancels⟩ := h (s.withSets pending shared exiting)
      ⟨rfl, fun _ => rfl, fun _ => Iff.rfl, fun _ => rfl⟩
    rw [hcall] at hcall'
    cases hcall'
    exact ⟨s', hsends, hcancels⟩
  · intro hs s₁ hgroups
    obtain ⟨s₂, hcall, hsends⟩ := groupSend_sends hrange.1 hrange.2
    exact ⟨s₂, hcall, hsends.cancels (hgroups.cancellable hs)⟩

/-- Program 2 sends `SIGSTOP` to its own group. -/
theorem stop_cont_cancel_alone : quietSys.Cancellable 2 sigStop 2 ∧
    ∃ s', groupSend 2 sigStop 2 quietSys = .done 0 s' ∧
      Cancels quietSys.toSigState s'.toSigState sigStop 2 := by
  have hs : quietSys.Cancellable 2 sigStop 2 := by
    refine ⟨.inl rfl, ?_, fun _ => Iff.rfl, fun q => mem_singleton, fun q hq => hq⟩
    show some 2 ≠ none
    simp
  have hcancel : _ ↔ quietSys.Cancellable 2 sigStop 2 := stop_cont_cancel (.inl (.inl rfl))
  exact ⟨hs, hcancel.mpr hs quietSys ⟨rfl, fun _ => rfl, fun _ => Iff.rfl, fun _ => rfl⟩⟩

/-- Program 3 sends `SIGSTOP` to program 2 and then `SIGCONT` to its group: `SIGSTOP` still
waits. -/
theorem stop_survives_cont : ∃ s v, quiet.Start ∧
    Run SigMachine.Step quiet [.tkill 3 2 sigStop] s ∧ groupSend 3 sigCont 2 s.sys = .done 0 v ∧
    v.Waits 2 sigStop ∧ ¬Cancels s.sys.toSigState v.toSigState sigCont 2 := by
  refine ⟨_, _, start_quiet, .cons ⟨⟨rfl, rfl, by decide⟩, _, _, rfl, rfl⟩ (.nil _), rfl, ?_,
    fun hcancels => ?_⟩
  · exact .inl (by decide)
  · exact hcancels.gone 2 mem_cons_self sigStop (.inr ⟨rfl, .inl rfl⟩) (.inl (by decide))

end Ucore.Sync
