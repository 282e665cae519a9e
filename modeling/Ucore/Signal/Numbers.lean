import Ucore.Signal.Send

/-!
# Signal numbers that a program passes

`do_sigkill` checks the number it is given; `do_sigaction` and `do_sigtkill` do not. `Confined`
says that a call returns, touches only the table of handlers and the sets of signals, and refuses
a number outside of 1 to 64. It holds of a call exactly when `Checked` holds of its arguments.
-/

namespace Ucore.Sync

open Kern Function SigState

/-- The calls to which a program passes the number of a signal. -/
inductive SignCall where
  | sigaction (p : ℕ) (sign : ℤ) (act : UserArg SigAction) (old : UserArg Unit)
  | sigtkill (pid sign : ℤ)
  | sigkill (p : ℕ) (pid sign : ℤ)

namespace SignCall

variable {s s' : SigSys} {c : SignCall} {p dst n : ℕ} {pid sign : ℤ} {old : UserArg Unit}
  {act : UserArg SigAction} {v : SigState}

def run : SignCall → SysM ℤ
  | .sigaction p sign act old => doSigaction p sign act old
  | .sigtkill pid sign => doSigtkill pid sign
  | .sigkill p pid sign => doSigkill p pid sign

/-- The number that is passed. -/
def number : SignCall → ℤ
  | .sigaction _ sign _ _ => sign
  | .sigtkill _ sign => sign
  | .sigkill _ _ sign => sign

/-- A program made the call: it has handlers. -/
def FromUser (s : SigSys) : SignCall → Prop
  | .sigaction p _ _ _ => (s.info p).sighand ≠ none
  | .sigtkill .. => True
  | .sigkill .. => True

/-- The entries of the tables of handlers that the call may write: those of the caller. -/
def Writes (s : SigSys) (h n : ℕ) : SignCall → Prop
  | .sigaction p sign _ _ => (s.info p).sighand = some h ∧ (n : ℤ) = sign
  | .sigtkill .. => False
  | .sigkill .. => False

/-- What a call leaves alone: all but one entry of `action`, the masks of blocked signals, the
threads and their groups, and all processes that do not sleep. -/
structure Frame (c : SignCall) (s s' : SigSys) : Prop where
  action : ∀ h n, s'.action h n ≠ s.action h n ∨ s'.fields h n ≠ s.fields h n →
    c.Writes s h n ∧ 1 ≤ n ∧ n ≤ 64
  blocked : ∀ q, (s'.info q).blocked = (s.info q).blocked
  signal : ∀ q, (s'.info q).signal = (s.info q).signal
  sighand : ∀ q, (s'.info q).sighand = (s.info q).sighand
  exiting : ∀ q, (s'.info q).exiting = (s.info q).exiting
  others : s'.others = s.others
  initproc : s'.initproc = s.initproc
  sched : SigState.OnlyWakes s.sched s'.sched

/-- The call returns without an access outside of the tables; it changes only what the frame
leaves it; and for a number that is not 1 to 64 it changes nothing and returns an error, or 0 if
`do_sigkill` is passed 0. -/
def Confined (c : SignCall) (s : SigSys) : Prop :=
  c.run.wp False Never (fun r s' => c.Frame s s' ∧ (¬(1 ≤ c.number ∧ c.number ≤ 64) → s' = s ∧
      (r = -eInval ∨ r = 0 ∧ c.number = 0 ∧ ∃ p pid, c = .sigkill p pid 0))) s

/-- The arguments with which a call is confined. -/
def Checked (s : SigSys) : SignCall → Prop
  | .sigaction _ sign act old =>
      (1 ≤ sign ∧ sign ≤ 64) ∨ ¬(old.isGood ∨ old.isNull ∧ act.isGood)
  | .sigtkill pid sign => ∀ dst, s.Names pid dst →
      (1 ≤ sign ∧ sign ≤ 64) ∧ s.Reaches dst sign.toNat
  | .sigkill .. => True

theorem Frame.refl : c.Frame s s :=
  ⟨nofun, fun _ => rfl, fun _ => rfl, fun _ => rfl, fun _ => rfl, rfl, rfl, .refl⟩

/-- A call that changes the sets of signals only. -/
theorem Frame.of_sameMasks (h : SigState.SameMasks s.toSigState v)
    (hsched : SigState.OnlyWakes s.sched v.sched) : c.Frame s (s.setSig v) := by
  refine { h with action := fun g n hne => ?_, initproc := rfl, sched := hsched }
  rcases hne with haction | hfields
  · exact absurd (congrFun (congrFun h.action g) n) haction
  · exact absurd rfl hfields

/-! ## The three calls -/

theorem confined_sigkill : (sigkill p pid sign).Confined s := by
  refine wp_doSigkill (fun _ => ⟨.refl, fun _ => ⟨rfl, .inl rfl⟩⟩)
    (fun _ => ⟨.refl, fun _ => ⟨rfl, .inl rfl⟩⟩)
    (fun hge hle dst _ _ => ⟨.refl, fun hsign => ?_⟩) fun dst _ hpos hle hsighand => ?_
  · have hzero : sign = 0 := by
      have hsign : ¬(1 ≤ sign ∧ sign ≤ 64) := hsign
      omega
    subst hzero
    exact ⟨rfl, .inr ⟨rfl, rfl, p, pid, rfl⟩⟩
  · have hreach : (s.stopHandled p sign.toNat dst).Reaches dst sign.toNat :=
      sameMasks_stopHandled.reaches.mpr (.inr (.inr (.inr hsighand)))
    rw [wp_inSig]
    refine wp_groupSendInfo (absurd hreach) (fun _ => ⟨?_, ?_⟩) fun _ _ v hv => ⟨?_, ?_⟩
    · refine .of_sameMasks sameMasks_stopHandled ?_
      rw [sched_stopHandled]
      exact .refl
    · exact fun hsign => absurd ⟨hpos, hle⟩ hsign
    · refine .of_sameMasks ((sameMasks_stopHandled.trans
        sameMasks_groupSent).trans sameMasks_setSched) ?_
      rw [sched_stopHandled] at hv
      exact hv.toOnlyWakes
    · exact fun hsign => absurd ⟨hpos, hle⟩ hsign

theorem confined_sigtkill (hchecked : (sigtkill pid sign).Checked s) :
    (sigtkill pid sign).Confined s := by
  refine wp_doSigtkill (fun _ => ⟨.refl, fun _ => ⟨rfl, .inl rfl⟩⟩) (fun dst hdst hpos hle => ?_)
    fun dst hdst hsign => hsign (hchecked dst hdst).1
  rw [wp_inSig]
  refine wp_specificSend (fun hnot => hnot (hchecked dst hdst).2)
    (fun _ _ => ⟨.refl, ?_⟩) fun _ _ v hv => ⟨?_, ?_⟩
  · exact fun hsign => absurd ⟨hpos, hle⟩ hsign
  · exact .of_sameMasks (sameMasks_queued.trans sameMasks_setSched) hv.toOnlyWakes
  · exact fun hsign => absurd ⟨hpos, hle⟩ hsign

/-- The entries that `do_sigaction` leaves alone. -/
theorem frame_setAction {h : ℕ} {new : SigAction} {arg : UserArg SigAction}
    (hsighand : (s.info p).sighand = some h) (hpos : 1 ≤ sign) (hle : sign ≤ 64)
    (hv : SigState.SameMasks (s.setAction h sign.toNat new).toSigState v)
    (hsched : v.sched = s.sched) :
    (sigaction p sign arg old).Frame s ((s.setAction h sign.toNat new).setSig v) := by
  refine { hv with action := fun g n hne => ?_, initproc := rfl, sched := ?_ }
  · have haction : v.action = (s.setAction h sign.toNat new).action := hv.action
    by_cases hg : g = h
    · by_cases hn : n = sign.toNat
      · subst hg
        refine ⟨⟨hsighand, ?_⟩, ?_, ?_⟩ <;> omega
      · refine absurd hne ?_
        show ¬(v.action g n ≠ _ ∨ update s.fields h _ g n ≠ _)
        rw [haction, hg]
        show ¬(update s.action h _ h n ≠ _ ∨ _)
        rw [update_self, update_self, update_of_ne hn, update_of_ne hn]
        simp
    · refine absurd hne ?_
      show ¬(v.action g n ≠ _ ∨ update s.fields h _ g n ≠ _)
      rw [haction]
      show ¬(update s.action h _ g n ≠ _ ∨ _)
      rw [update_of_ne hg, update_of_ne hg]
      simp
  · show SigState.OnlyWakes s.sched v.sched
    rw [hsched]
    exact .refl

theorem confined_sigaction (huser : (s.info p).sighand ≠ none)
    (hchecked : (sigaction p sign act old).Checked s) : (sigaction p sign act old).Confined s := by
  obtain ⟨h, hsighand⟩ := Option.ne_none_iff_exists'.mp huser
  refine wp_doSigaction hsighand (fun _ => ⟨.refl, fun _ => ⟨rfl, .inl rfl⟩⟩)
    (fun huse hsign => hchecked.elim hsign fun hnot => hnot huse) fun new _ hpos hle => ?_
  refine wp_finishAction hsighand ⟨?_, fun hsign => absurd ⟨hpos, hle⟩ hsign⟩
    ⟨?_, fun hsign => absurd ⟨hpos, hle⟩ hsign⟩
  · exact frame_setAction hsighand hpos hle .refl rfl
  · exact frame_setAction hsighand hpos hle sameMasks_dropIgnored sched_dropPending

/-! ## Calls that are not checked -/

/-- A call of which only errors are possible is not confined. -/
theorem not_confined_of_fails
    (h : c.run.wp False (fun _ _ => True) (fun _ _ => False) s) : ¬c.Confined s := by
  intro hconfined
  obtain ⟨_, _, _, hfalse⟩ | ⟨f, s', hfail, -⟩ := h.returns
  · exact hfalse
  · exact wp.of_fail hconfined hfail

theorem not_confined_sigtkill (hchecked : ¬(sigtkill pid sign).Checked s) :
    ¬(sigtkill pid sign).Confined s := by
  apply not_confined_of_fails
  have hbad : ∃ dst, s.Names pid dst ∧ ¬((1 ≤ sign ∧ sign ≤ 64) ∧ s.Reaches dst sign.toNat) := by
    simpa [Checked] using hchecked
  obtain ⟨dst, hdst, hnot⟩ := hbad
  refine wp_doSigtkill hdst.not_gone (fun dst' hdst' hpos hle => ?_) fun _ _ _ => trivial
  obtain rfl := hdst.unique hdst'
  have hreach : ¬s.Reaches dst sign.toNat := fun hreach => hnot ⟨⟨hpos, hle⟩, hreach⟩
  rw [wp_inSig]
  exact wp_specificSend (fun _ => trivial) (fun h _ => hreach h) fun h _ _ _ => hreach h

theorem not_confined_sigaction (huser : (s.info p).sighand ≠ none)
    (hchecked : ¬(sigaction p sign act old).Checked s) :
    ¬(sigaction p sign act old).Confined s := by
  apply not_confined_of_fails
  obtain ⟨h, hsighand⟩ := Option.ne_none_iff_exists'.mp huser
  obtain ⟨hsign, huse⟩ := not_or.mp hchecked
  rw [not_not] at huse
  exact wp_doSigaction hsighand (fun hrange => hsign (hrange huse)) (fun _ _ => trivial)
    fun _ _ hpos hle => absurd ⟨hpos, hle⟩ hsign

/-- **The numbers of signals are confined** exactly when `do_sigaction` gets a number from 1 to 64
or pointers it does not follow, and `do_sigtkill` gets a number from 1 to 64 and a process that
either has handlers or is sent a signal for which none is looked up. -/
theorem signal_numbers_confined (huser : c.FromUser s) : c.Confined s ↔ c.Checked s := by
  cases c with
  | sigaction p sign act old =>
    exact ⟨fun h => by_contra fun hnot => not_confined_sigaction huser hnot h,
      confined_sigaction huser⟩
  | sigtkill pid sign =>
    exact ⟨fun h => by_contra fun hnot => not_confined_sigtkill hnot h, confined_sigtkill⟩
  | sigkill p pid sign => exact ⟨fun _ => trivial, fun _ => confined_sigkill⟩

/-- A program sets a handler for signal 10. -/
theorem signal_numbers_confined_handler :
    (sigaction 2 10 (.good ⟨⟨0, false, false⟩, .user⟩) .null).FromUser quietSys ∧
      (sigaction 2 10 (.good ⟨⟨0, false, false⟩, .user⟩) .null).Confined quietSys := by
  have huser : (sigaction 2 10 (.good ⟨⟨0, false, false⟩, .user⟩) .null).FromUser quietSys := by
    show some 2 ≠ none
    simp
  exact ⟨huser, (signal_numbers_confined huser).mpr (.inl ⟨by decide, by decide⟩)⟩

/-- A program sends signal 65 to itself, sets a handler for signal 0, and sends `SIGTERM` to a
kernel thread. -/
theorem signal_numbers_outside : doSigtkill 2 65 quietSys = .fail (.outside 65) quietSys ∧
      doSigaction 2 0 (.good ⟨⟨0, false, false⟩, .user⟩) .null quietSys =
        .fail (.outside 0) quietSys ∧
      doSigtkill 1 15 quietSys = .fail (.fault .nullAccess) quietSys := ⟨rfl, rfl, rfl⟩

end SignCall

end Ucore.Sync
