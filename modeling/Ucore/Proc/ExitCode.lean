import Mathlib.Data.Int.Notation
import Ucore.Lib.Runs

/-!
# Exit codes

The field `exit_code` of a process from `do_exit`, `do_exit_thread` or `do_kill` to the `do_wait`
that stores it. A process leaves in two steps, since `__do_exit` may sleep before it sets
`PROC_ZOMBIE`. `find_proc` finds zombies too, and a process that was not killed has no
`PF_EXITING`: so a `do_kill` that comes late still writes `exit_code`.
-/

namespace Ucore.ExitCode

open Function

/-- How far a process is. -/
inductive Phase where
  /-- There is no such process. -/
  | unused
  | running
  /-- In `__do_exit`, before `PROC_ZOMBIE` is set. -/
  | leaving
  | zombie
  deriving DecidableEq, Repr

/-- The fields of `struct proc_struct` that matter here. -/
structure Task where
  phase : Phase
  /-- `PF_EXITING`. -/
  exiting : Bool
  exitCode : ℤ
  parent : ℕ
  /-- The code with which the process leaves: that of its `do_exit`, or of the kill that it
  obeys. -/
  left : ℤ
  deriving DecidableEq, Repr

/-- Processes by pid. -/
structure Table where
  task : ℕ → Task
  /-- The other threads of a group, in the order of `next_thread`. -/
  others : ℕ → List ℕ

def initproc : ℕ := 1

/-- `__do_kill`, but for the wake-up. -/
def Task.kill (t : Task) (code : ℤ) : Task :=
  if t.exiting then t
  else { t with
    exiting := true, exitCode := code, left := if t.phase = .running then code else t.left }

/-- Enter `__do_exit`. -/
def Task.leave (t : Task) (code : ℤ) : Task :=
  { t with phase := .leaving, exitCode := code, left := code }

namespace Table

def setTask (s : Table) (p : ℕ) (t : Task) : Table := { s with task := update s.task p t }

/-- `do_kill` for a pid that is in use. -/
def doKill (code : ℤ) (s : Table) (p : ℕ) : Table := s.setTask p ((s.task p).kill code)

/-- `do_exit_thread` up to `__do_exit`. -/
def doExitThread (s : Table) (p : ℕ) (code : ℤ) : Table := s.setTask p ((s.task p).leave code)

/-- `do_exit` up to `__do_exit`. -/
def doExit (s : Table) (p : ℕ) (code : ℤ) : Table :=
  ((s.others p).foldl (doKill code) s).doExitThread p code

/-- The end of `__do_exit`: the children go to the next thread of the group, or to `initproc`. -/
def finishExit (s : Table) (p : ℕ) : Table where
  task := fun c =>
    if c = p then { s.task p with phase := .zombie }
    else if (s.task c).parent = p then { s.task c with parent := (s.others p).headD initproc }
    else s.task c
  others := fun q => if q = p then [] else (s.others q).erase p

/-- `do_fork`. -/
def doFork (s : Table) (p c : ℕ) (thread : Bool) (code : ℤ) : Table where
  task := update s.task c ⟨.running, false, code, p, 0⟩
  others := if thread then fun q =>
      if q = c then p :: s.others p
      else if q = p then s.others p ++ [c]
      else (s.others q).flatMap fun r => if r = p then [c, p] else [r]
    else update s.others c []

/-- `do_wait` for a pid, or for any child with 0, comes upon the child. -/
def Finds (s : Table) (p : ℕ) (pid : ℕ) (c : ℕ) : Prop :=
  (s.task c).phase = .zombie ∧ (s.task c).parent ∈ p :: s.others p ∧ (pid = 0 ∨ pid = c)

end Table

/-- The code of a process that was killed, leaves or has left is the one it leaves with. -/
def Task.Settled (t : Task) : Prop :=
  t.phase = .leaving ∨ t.phase = .zombie ∨ t.phase = .running ∧ t.exiting = true →
    t.exitCode = t.left

/-- A kill finds the process before it leaves, or with `PF_EXITING` set. -/
def Task.Killable (t : Task) : Prop := t.phase = .running ∨ t.exiting = true

/-- A step that keeps codes settled, and those of zombies as they are. -/
structure Task.Keeps (t t' : Task) : Prop where
  settled : t.Settled → t'.Settled
  phase : t.phase = .zombie → t'.phase = .zombie
  code : t.phase = .zombie → t'.exitCode = t.exitCode

namespace Task

variable {t t' t'' : Task} {code : ℤ}

theorem Keeps.refl : t.Keeps t := ⟨id, id, fun _ => rfl⟩

theorem Keeps.trans (h : t.Keeps t') (h' : t'.Keeps t'') : t.Keeps t'' :=
  ⟨h'.settled ∘ h.settled, h'.phase ∘ h.phase, fun hz => (h'.code (h.phase hz)).trans (h.code hz)⟩

/-- A step of a process that is not a zombie. -/
theorem keeps_of_ne (h : t.phase ≠ .zombie) (hsettled : t.Settled → t'.Settled) : t.Keeps t' :=
  ⟨hsettled, fun hz => absurd hz h, fun hz => absurd hz h⟩

theorem keeps_kill (h : t.Killable) : t.Keeps (t.kill code) := by
  unfold kill
  split
  · exact .refl
  · rename_i hexiting
    have hrunning := h.resolve_right hexiting
    exact keeps_of_ne (by rw [hrunning]; simp) fun _ _ => (if_pos hrunning).symm

theorem Killable.kill (h : t.Killable) : (t.kill code).Killable := by
  unfold Task.kill
  split
  · exact h
  · exact .inr rfl

theorem keeps_leave (h : t.phase = .running) : t.Keeps (t.leave code) :=
  keeps_of_ne (by rw [h]; simp) fun _ _ => rfl

end Task

/-- What processes do. -/
inductive Op where
  /-- The new process finds any code in its structure. -/
  | fork (p c : ℕ) (thread : Bool) (code : ℤ)
  | kill (pid : ℕ) (code : ℤ)
  | exit (p : ℕ) (code : ℤ)
  | exitThread (p : ℕ) (code : ℤ)
  /-- `may_killed` calls `__do_exit`. -/
  | mayKilled (p : ℕ)
  /-- `__do_exit` comes to its end. -/
  | finish (p : ℕ)
  /-- `do_wait` stores the code of a child. -/
  | wait (p pid c : ℕ) (code : ℤ)

namespace Table

variable {s s' s₀ : Table} {op : Op} {ops : List Op} {p c : ℕ} {code : ℤ} {l : List ℕ}

def Step (s : Table) : Op → Table → Prop
  | .fork p c thread code, s' => (s.task p).phase = .running ∧ (s.task c).phase = .unused ∧
      s' = s.doFork p c thread code
  | .kill pid code, s' => (s.task pid).phase ≠ .unused ∧ s' = s.doKill code pid
  | .exit p code, s' => (s.task p).phase = .running ∧ s' = s.doExit p code
  | .exitThread p code, s' => (s.task p).phase = .running ∧ s' = s.doExitThread p code
  | .mayKilled p, s' => (s.task p).phase = .running ∧ (s.task p).exiting = true ∧
      s' = s.setTask p { s.task p with phase := .leaving }
  | .finish p, s' => (s.task p).phase = .leaving ∧ s' = s.finishExit p
  | .wait p pid c code, s' => (s.task p).phase = .running ∧ s.Finds p pid c ∧
      code = (s.task c).exitCode ∧ s' = s.setTask c { s.task c with phase := .unused }

/-- No kill comes to a process that leaves or has left without `PF_EXITING`. -/
def Proper (s : Table) : Op → Prop
  | .kill pid _ => (s.task pid).Killable
  | .exit p _ => ∀ q ∈ s.others p, (s.task q).Killable
  | _ => True

theorem keeps_setTask {t : Task} (h : (s.task p).Keeps t) :
    (s.task c).Keeps ((s.setTask p t).task c) := by
  show (s.task c).Keeps (update s.task p t c)
  rcases eq_or_ne c p with rfl | hc
  · rwa [update_self]
  · rw [update_of_ne hc]
    exact .refl

theorem keeps_kills (h : ∀ q ∈ l, (s.task q).Killable) :
    (s.task c).Keeps ((l.foldl (doKill code) s).task c) := by
  induction l generalizing s with
  | nil => exact .refl
  | cons p l ih =>
    obtain ⟨hp, hl⟩ := List.forall_mem_cons.mp h
    refine (keeps_setTask (Task.keeps_kill hp)).trans (ih fun q hq => ?_)
    show (update s.task p _ q).Killable
    rcases eq_or_ne q p with rfl | hqp
    · rw [update_self]
      exact hp.kill
    · rw [update_of_ne hqp]
      exact hl q hq

/-- `do_exit` does not kill the process itself. -/
theorem phase_kills : ((l.foldl (doKill code) s).task p).phase = (s.task p).phase := by
  induction l generalizing s with
  | nil => rfl
  | cons q l ih =>
    rw [List.foldl_cons, ih]
    show (update s.task q _ p).phase = _
    rcases eq_or_ne p q with rfl | hp
    · rw [update_self]
      unfold Task.kill
      split <;> rfl
    · rw [update_of_ne hp]

/-- One step keeps the codes, and only `do_wait` lets go of a zombie. -/
theorem Step.keeps (hstep : s.Step op s') (hproper : s.Proper op)
    (hwait : ∀ p pid code, op ≠ .wait p pid c code) : (s.task c).Keeps (s'.task c) := by
  cases op with
  | fork p d thread code =>
    obtain ⟨-, hunused, rfl⟩ := hstep
    refine keeps_setTask (Task.keeps_of_ne (by rw [hunused]; simp) fun _ hout => ?_)
    simp at hout
  | kill pid code =>
    obtain ⟨-, rfl⟩ := hstep
    exact keeps_setTask (Task.keeps_kill hproper)
  | exit p code =>
    obtain ⟨hrunning, rfl⟩ := hstep
    refine (keeps_kills hproper).trans (keeps_setTask (Task.keeps_leave ?_))
    rw [phase_kills, hrunning]
  | exitThread p code =>
    obtain ⟨hrunning, rfl⟩ := hstep
    exact keeps_setTask (Task.keeps_leave hrunning)
  | mayKilled p =>
    obtain ⟨hrunning, hexiting, rfl⟩ := hstep
    exact keeps_setTask (Task.keeps_of_ne (by rw [hrunning]; simp) fun h _ =>
      h (.inr (.inr ⟨hrunning, hexiting⟩)))
  | finish p =>
    obtain ⟨hleaving, rfl⟩ := hstep
    show (s.task c).Keeps (if c = p then _ else _)
    split
    · rename_i hc
      subst hc
      exact Task.keeps_of_ne (by rw [hleaving]; simp) fun h _ => h (.inl hleaving)
    · split
      · exact ⟨id, id, fun _ => rfl⟩
      · exact .refl
  | wait p pid d code =>
    obtain ⟨-, -, -, rfl⟩ := hstep
    show (s.task c).Keeps (update s.task d _ c)
    by_cases hc : c = d
    · exact absurd (hc ▸ rfl) (hwait p pid code)
    · rw [update_of_ne hc]
      exact .refl

/-- `do_wait` keeps the codes of the others. -/
theorem Step.settled (hstep : s.Step op s') (hproper : s.Proper op)
    (hs : ∀ c, (s.task c).Settled) (c : ℕ) : (s'.task c).Settled := by
  by_cases hwait : ∀ p pid code, op ≠ .wait p pid c code
  · exact (hstep.keeps hproper hwait).settled (hs c)
  · simp only [not_forall, not_not] at hwait
    obtain ⟨p, pid, code, rfl⟩ := hwait
    obtain ⟨-, -, -, rfl⟩ := hstep
    have hphase : ((s.setTask c { s.task c with phase := .unused }).task c).phase = .unused := by
      show (update s.task c _ c).phase = _
      rw [update_self]
    intro hout
    rw [hphase] at hout
    simp at hout

/-- **The code of a zombie is the one it left with**, it stays as it is until `do_wait` comes upon
the zombie, and that code is stored, in every run in which no kill comes to a process that leaves
or has left without `PF_EXITING`. -/
theorem exit_code_kept (hstart : ∀ c, (s₀.task c).Settled)
    (hrun : Run (fun s op s' => s.Step op s' ∧ s.Proper op) s₀ ops s)
    (hzombie : (s.task c).phase = .zombie) :
    (s.task c).exitCode = (s.task c).left ∧
    (∀ ops' s', Run (fun s op s' => s.Step op s' ∧ s.Proper op) s ops' s' →
      (∀ p pid code, .wait p pid c code ∉ ops') →
        (s'.task c).phase = .zombie ∧ (s'.task c).exitCode = (s.task c).exitCode) ∧
    ∀ p pid code s', s.Step (.wait p pid c code) s' → code = (s.task c).left := by
  have hsettled : ∀ c, (s.task c).Settled :=
    hrun.invariant (fun _ _ _ hs hstep => hstep.1.settled hstep.2 hs) hstart
  have hleft := hsettled c (.inr (.inl hzombie))
  refine ⟨hleft, fun ops' s' hrun' hwait => ?_, fun p pid code s' hstep => ?_⟩
  · have hkeeps : (s.task c).Keeps (s'.task c) := by
      refine hrun'.invariant_of_mem (I := fun v => (s.task c).Keeps (v.task c))
        (fun v op v' hmem hv hstep => hv.trans (hstep.1.keeps hstep.2 ?_)) .refl
      rintro p pid code rfl
      exact hwait p pid code hmem
    exact ⟨hkeeps.phase hzombie, hkeeps.code hzombie⟩
  · obtain ⟨-, -, hcode, -⟩ := hstep
    rw [hcode, hleft]

/-- `initproc` and a shell. -/
def shell : Table :=
  ⟨fun p => ⟨if p = 1 ∨ p = 2 then .running else .unused, false, 0, 1, 0⟩, fun _ => []⟩

/-- A child of the shell is killed with -9, and the shell waits for it. -/
theorem exit_code_kept_child : ∃ s, Run (fun s op s' => s.Step op s' ∧ s.Proper op) shell
    [.fork 2 3 false 0, .kill 3 (-9), .mayKilled 3, .finish 3] s ∧ (s.task 3).phase = .zombie ∧
    ∀ p pid code s', s.Step (.wait p pid 3 code) s' → code = -9 := by
  have hrun : Run (fun s op s' => s.Step op s' ∧ s.Proper op) shell
      [.fork 2 3 false 0, .kill 3 (-9), .mayKilled 3, .finish 3] _ :=
    .cons ⟨⟨rfl, rfl, rfl⟩, trivial⟩ (.cons ⟨⟨by decide, rfl⟩, .inl rfl⟩
      (.cons ⟨⟨rfl, rfl, rfl⟩, trivial⟩ (.cons ⟨⟨rfl, rfl⟩, trivial⟩ (.nil _))))
  exact ⟨_, hrun, rfl, (exit_code_kept (fun _ _ => rfl) hrun rfl).2.2⟩

/-- A child of the shell exits with 7 and is killed as a zombie: the shell gets the code of the
kill. -/
theorem zombie_code_overwritten : ∃ s v, Run Step shell
    [.fork 2 3 false 0, .exit 3 7, .finish 3] s ∧ (s.task 3).phase = .zombie ∧
    (s.task 3).exitCode = 7 ∧ Run Step s [.kill 3 (-9), .wait 2 3 3 (-9)] v :=
  ⟨_, _, .cons ⟨rfl, rfl, rfl⟩ (.cons ⟨rfl, rfl⟩ (.cons ⟨rfl, rfl⟩ (.nil _))), rfl, rfl,
    .cons ⟨by decide, rfl⟩ (.cons ⟨rfl, ⟨rfl, by decide, .inr rfl⟩, rfl, rfl⟩ (.nil _))⟩

end Table

end Ucore.ExitCode
