import Ucore.Lib.Runs

/-!
# The locks of the system calls

The system calls that take `mm_sem` or `sig_sem`, reduced to what they do with these locks. A copy
succeeds or fails by the pointer it gets, which `user_mem_check` judges anew at each copy; the
accesses after the check may fault, and `do_pgfault` takes `mm_sem` unless the thread has it. An
access that `do_pgfault` refuses although `user_mem_check` has accepted it panics; like the kernel's
assertions and panics on its own state it is left out: the call does not return. Everything else
that decides the path of a call is a choice.

The threads share an address space and run in any order; each has the signal handlers that its
number says. Drivers reach user memory through the functions of `module/ucore_glue` only.
-/

namespace Ucore.Syscall

open Function

/-- `mm_sem` of the address space, and `sig_sem` of the signal handlers. -/
inductive Lock where
  | mm
  | sig (sighand : ℕ)
  deriving DecidableEq, Repr

/-- A user pointer: `NULL`, or what `user_mem_check` says of it. -/
inductive Ptr where
  | null
  | good
  | bad
  deriving DecidableEq, Repr

/-- What a thread still does with the locks. -/
inductive Flow where
  /-- The call returns, or the thread exits. -/
  | ret
  /-- An assertion on a user pointer fails. -/
  | fail
  | lock (l : Lock) (k : Flow)
  | unlock (l : Lock) (k : Flow)
  /-- Accesses to user memory. -/
  | access (k : Flow)
  /-- A choice of code that takes neither lock. -/
  | choose (k k' : Flow)
  deriving DecidableEq, Repr

/-- `copy_from_user`, `copy_to_user`, `copy_string`, and `user_mem_check` with the accesses that
follow it. -/
def copy : Ptr → Flow → Flow → Flow
  | .good, ok, _ => .access ok
  | _, _, failed => failed

/-- A copy that is left out for `NULL`. -/
def copyOpt : Ptr → Flow → Flow → Flow
  | .null, ok, _ => ok
  | p, ok, failed => copy p ok failed

/-- `unlock_mm` before the call returns. -/
def outUnlock : Flow := .unlock .mm .ret

/-- A copy between `lock_mm` and `unlock_mm`. -/
def lockedCopy (p : Ptr) (ok failed : Flow) : Flow :=
  .lock .mm (copy p (.unlock .mm ok) (.unlock .mm failed))

/-- `copy_path`; the caller returns if it fails. -/
def copyPath (path : Ptr) (k : Flow) : Flow := .choose .ret (lockedCopy path k .ret)

/-- The loop around `schedule` and `do_signal`. It ends when the thread exits or `handle_signal`
sets up a frame; the turns before that take no lock. -/
def awaitSignal (sighand : ℕ) (frame : Ptr) : Flow := .choose .ret (lockedCopy frame
  (.access (.choose .ret (.lock (.sig sighand) (.unlock (.sig sighand) .ret)))) .ret)

/-- The loops of `sysfile_read` and `sysfile_write`, with the pointers of their turns. -/
def pieces : List Ptr → Flow
  | [] => .ret
  | p :: ps => .choose .ret (lockedCopy p (pieces ps) .ret)

/-- A driver's function: `__ucore_copy_to_user`, `__ucore_copy_from_user` and
`ucore_map_pfn_range`, each under `mm_sem`. -/
def driver : List Ptr → Flow
  | [] => .ret
  | p :: ps => lockedCopy p (driver ps) (driver ps)

/-- The calls with their user pointers, one for each copy. -/
inductive Call where
  | doSigaction (act old : Ptr) | doSigprocmask (set old : Ptr)
  | doSigsuspend (pmask frame : Ptr) | doSigaltstack (ss old : Ptr)
  | doSigwaitinfo (setp frame : Ptr)
  | doBrk (brkStore again : Ptr) | doLinuxBrk
  | doMmap (addrStore again : Ptr) | doMunmap | doShmem (addrStore again : Ptr)
  | ipcMboxSend (buf data : Ptr) | ipcMboxRecv (buf data buf' data' : Ptr)
  | sysfileOpen (path : Ptr) | sysfileClose | sysfileRead (base : List Ptr)
  | sysfileWrite (base : List Ptr) | sysfileSeek | sysfileFstat (stat : Ptr)
  | sysfileLinuxFstat (buf : Ptr) | sysfileLinuxStat (fn buf : Ptr) | sysfileFsync
  | sysfileChdir (path : Ptr) | sysfileMkdir (path : Ptr) | sysfileLink (path1 path2 : Ptr)
  | sysfileRename (path1 path2 : Ptr) | sysfileUnlink (path : Ptr) | sysfileGetcwd (buf : Ptr)
  | sysfileGetdirentry (off direntp : Ptr) | sysfileDup | sysfilePipe (fdStore again : Ptr)
  | sysfileMkfifo (name : Ptr) | sysfileIoctl (args : List Ptr)
  | sysfileLinuxMmap2 (args : List Ptr)

open Ucore.Syscall.Flow in
/-- What a call does with the locks. -/
def Call.flow (sighand : ℕ) : Call → Flow
  | doSigaction act old => lock .mm (copyOpt old
      (copy act (unlock .mm (lock (.sig sighand) (unlock (.sig sighand) ret))) outUnlock) outUnlock)
  | doSigprocmask set old => if set = .null then ret else
      lock .mm (copy set (copyOpt old outUnlock outUnlock) outUnlock)
  | doSigsuspend pmask frame => lockedCopy pmask (awaitSignal sighand frame) ret
  | doSigaltstack ss old => if ss = .null then ret else
      -- `goto out` passes over `unlock_mm`
      lock .mm (copyOpt old (copy ss outUnlock outUnlock) ret)
  | doSigwaitinfo setp frame =>
      lock .mm (copy setp (unlock .mm (awaitSignal sighand frame)) fail)
  | doBrk brkStore again => if brkStore = .null then ret else
      lock .mm (copy brkStore (copy again outUnlock outUnlock) outUnlock)
  | doLinuxBrk | doMunmap => choose ret (lock .mm outUnlock)
  | doMmap addrStore again | doShmem addrStore again => if addrStore = .null then ret else
      choose ret (lock .mm
        (copy addrStore (choose outUnlock (copy again outUnlock outUnlock)) outUnlock))
  | ipcMboxSend buf data => choose ret (lock .mm
      (copy buf (choose outUnlock (copy data outUnlock outUnlock)) outUnlock))
  | ipcMboxRecv buf data buf' data' => choose ret (lock .mm (copy buf
      (choose outUnlock (copy data (unlock .mm (choose ret (lock .mm
        (copy buf' (copy data' outUnlock outUnlock) outUnlock)))) outUnlock)) outUnlock))
  | sysfileOpen path | sysfileChdir path | sysfileMkdir path | sysfileUnlink path
  | sysfileMkfifo path => copyPath path ret
  | sysfileLink path1 path2 | sysfileRename path1 path2 => copyPath path1 (copyPath path2 ret)
  | sysfileClose | sysfileSeek | sysfileFsync | sysfileDup => ret
  | sysfileRead base | sysfileWrite base => choose (driver base) (pieces base)
  | sysfileFstat buf | sysfileLinuxFstat buf | sysfileGetcwd buf =>
      choose ret (lockedCopy buf ret ret)
  | sysfileLinuxStat fn buf => copyPath fn (choose ret (lockedCopy buf ret ret))
  | sysfileGetdirentry off direntp =>
      choose ret (lockedCopy off (choose ret (lockedCopy direntp ret ret)) ret)
  | sysfilePipe fdStore again => copy fdStore (choose ret (lockedCopy again ret ret)) ret
  | sysfileIoctl args | sysfileLinuxMmap2 args => choose ret (driver args)

/-- `old` of `do_sigaltstack` and the set of `do_sigwaitinfo` are valid. -/
def Call.Safe : Call → Prop
  | doSigaltstack ss old => ss = .null ∨ old ≠ .bad
  | doSigwaitinfo setp _ => setp = .good
  | _ => True

/-! ## Flows that give back what they take -/

/-- With the lock that the thread has, the flow takes one lock at a time, accesses user memory with
no lock or `mm_sem`, and ends with no lock. -/
def Ok : Option Lock → Flow → Prop
  | h, .ret => h = none
  | _, .fail => False
  | h, .lock l k => h = none ∧ Ok (some l) k
  | h, .unlock l k => h = some l ∧ Ok none k
  | h, .access k => (h = none ∨ h = some .mm) ∧ Ok h k
  | h, .choose k k' => Ok h k ∧ Ok h k'

variable {p : Ptr} {k k' : Flow} {h : Option Lock} {sighand : ℕ}

theorem ok_ite {c : Prop} [Decidable c] :
    Ok h (if c then k else k') ↔ if c then Ok h k else Ok h k' := by
  split <;> rfl

theorem ok_copy : Ok h (copy p k k') ↔
    if p = .good then (h = none ∨ h = some .mm) ∧ Ok h k else Ok h k' := by
  cases p <;> simp [copy, Ok]

theorem ok_copyOpt : Ok h (copyOpt p k k') ↔ if p = .null then Ok h k else Ok h (copy p k k') := by
  cases p <;> simp [copyOpt]

theorem ok_lockedCopy (hk : Ok none k) (hk' : Ok none k') : Ok none (lockedCopy p k k') := by
  simp [lockedCopy, Ok, ok_copy, hk, hk']

theorem ok_pieces (ps : List Ptr) : Ok none (pieces ps) := by
  induction ps with
  | nil => rfl
  | cons p ps ih => exact ⟨rfl, ok_lockedCopy ih rfl⟩

theorem ok_driver (ps : List Ptr) : Ok none (driver ps) := by
  induction ps with
  | nil => rfl
  | cons p ps ih => exact ok_lockedCopy ih ih

/-- The calls with valid pointers where the code relies on them are the ones that give back every
lock. -/
theorem Call.ok_flow_iff {c : Call} : Ok none (c.flow sighand) ↔ c.Safe := by
  cases c with
  | doSigaltstack ss old =>
    cases ss <;> cases old <;> simp [flow, Safe, Ok, outUnlock, copy, copyOpt]
  | doSigwaitinfo setp frame =>
    cases setp <;> simp [flow, Safe, Ok, ok_copy, awaitSignal, lockedCopy]
  | _ =>
    simp [flow, Safe, Ok, outUnlock, lockedCopy, copyPath, awaitSignal, ok_ite, ok_copy, ok_copyOpt,
      ok_pieces, ok_driver]

/-! ## Threads -/

/-- The threads of an address space: what each still does, who has a lock, and `locked_by`. -/
structure Sys (T : Type) where
  flow : T → Flow
  owner : Lock → Option T
  lockedBy : Option T

variable {T : Type} [DecidableEq T]

namespace Sys

section Steps

variable (s : Sys T) (t : T)

def goto (k : Flow) : Sys T := { s with flow := update s.flow t k }

/-- The lock passes to `o`; `lock_mm` and `unlock_mm` also write `locked_by`. -/
def pass (l : Lock) (o : Option T) : Sys T :=
  { s with
    owner := update s.owner l o
    lockedBy := if l = .mm then o else s.lockedBy }

/-- `do_pgfault`: a thread that has `mm_sem` does not take it again. -/
def pgfault (k : Flow) : Flow :=
  if s.owner .mm ≠ none ∧ s.lockedBy = some t then k else .lock .mm (.unlock .mm k)

/-- A step of the thread `t`. -/
def Moves : Flow → Sys T → Prop
  | .ret, _ | .fail, _ => False
  | .lock l k, s' => s.owner l = none ∧ s' = (s.goto t k).pass l (some t)
  | .unlock l k, s' => s' = (s.goto t k).pass l none
  | .access k, s' => s' = s.goto t k ∨ s' = s.goto t (s.pgfault t (.access k))
  | .choose k k', s' => s' = s.goto t k ∨ s' = s.goto t k'

end Steps

/-- A thread that is in no call makes one, or a thread goes on. -/
def Step (sighand : T → ℕ) (s : Sys T) : T × Option Call → Sys T → Prop
  | (t, some c), s' => s.flow t = .ret ∧ s' = s.goto t (c.flow (sighand t))
  | (t, none), s' => s.Moves t (s.flow t) s'

/-- A step whose call has valid pointers where the code relies on them. -/
def SafeStep (sighand : T → ℕ) (s : Sys T) (a : T × Option Call) (s' : Sys T) : Prop :=
  s.Step sighand a s' ∧ ∀ c ∈ a.2, c.Safe

/-- Every thread has at most one lock, and its flow gives it back. -/
structure Inv (s : Sys T) : Prop where
  ok : ∀ t, ∃ h, Ok h (s.flow t) ∧ ∀ l, s.owner l = some t ↔ h = some l
  lockedBy : ∀ t, s.owner .mm = some t → s.lockedBy = some t

variable {s s' : Sys T} {t : T} {l : Lock} {o : Option T}

theorem Inv.goto (hinv : s.Inv) (hok : Ok h k) (howner : ∀ l, s.owner l = some t ↔ h = some l) :
    (s.goto t k).Inv := by
  refine ⟨fun u => ?_, hinv.lockedBy⟩
  show ∃ h, Ok h (update s.flow t k u) ∧ _
  rw [update_apply]
  split_ifs with hu
  · rw [hu]
    exact ⟨h, hok, howner⟩
  · exact hinv.ok u

/-- A lock that was free or the thread's own passes to the thread or becomes free. -/
theorem Inv.pass (hinv : s.Inv) (hbefore : s.owner l = none ∨ s.owner l = some t)
    (hafter : o = none ∨ o = some t) (hok : Ok h k)
    (howner : ∀ l', update s.owner l o l' = some t ↔ h = some l') :
    ((s.goto t k).pass l o).Inv := by
  refine ⟨fun u => ?_, fun u hu => ?_⟩
  · show ∃ h, Ok h (update s.flow t k u) ∧ ∀ l', update s.owner l o l' = some u ↔ _
    rw [update_apply]
    split_ifs with hu
    · rw [hu]
      exact ⟨h, hok, howner⟩
    · obtain ⟨h, hok, howner⟩ := hinv.ok u
      refine ⟨h, hok, fun l' => ?_⟩
      grind
  · have hold := hinv.lockedBy u
    simp only [Sys.pass, Sys.goto, update_apply] at hu ⊢
    grind

theorem Inv.moves (hinv : s.Inv) (hmoves : s.Moves t (s.flow t) s') : s'.Inv := by
  obtain ⟨h, hok, howner⟩ := hinv.ok t
  cases hflow : s.flow t with
  | ret | fail =>
    rw [hflow] at hmoves
    exact hmoves.elim
  | lock l k =>
    rw [hflow] at hmoves hok
    obtain ⟨hfree, rfl⟩ := hmoves
    obtain ⟨rfl, hok⟩ := hok
    refine hinv.pass (.inl hfree) (.inr rfl) hok fun l' => ?_
    grind
  | unlock l k =>
    rw [hflow] at hmoves hok
    obtain rfl := hmoves
    obtain ⟨rfl, hok⟩ := hok
    refine hinv.pass (.inr ((howner l).mpr rfl)) (.inl rfl) hok fun l' => ?_
    grind
  | access k =>
    rw [hflow] at hmoves hok
    rcases hmoves with rfl | rfl
    · exact hinv.goto hok.2 howner
    · refine hinv.goto ?_ howner
      rw [pgfault]
      split
      · exact hok
      · rename_i hnot
        obtain ⟨rfl | rfl, hk⟩ := hok
        · exact ⟨rfl, rfl, .inl rfl, hk⟩
        · -- the thread has `mm_sem`, and `locked_by` says so
          have hmm := (howner .mm).mpr rfl
          exact absurd ⟨by simp [hmm], hinv.lockedBy t hmm⟩ hnot
  | choose k k' =>
    rw [hflow] at hmoves hok
    rcases hmoves with rfl | rfl
    · exact hinv.goto hok.1 howner
    · exact hinv.goto hok.2 howner

theorem SafeStep.inv {sighand : T → ℕ} {a : T × Option Call} (hstep : SafeStep sighand s a s')
    (hinv : s.Inv) : s'.Inv := by
  obtain ⟨t, c⟩ := a
  obtain ⟨hstep, hsafe⟩ := hstep
  cases c with
  | none => exact hinv.moves hstep
  | some c =>
    obtain ⟨hret, rfl⟩ := hstep
    obtain ⟨h, hok, howner⟩ := hinv.ok t
    rw [hret] at hok
    obtain rfl : h = none := hok
    exact hinv.goto (Call.ok_flow_iff.mpr (hsafe c rfl)) howner

/-- No thread is in a call and no lock is taken. -/
def Idle (s : Sys T) : Prop := (∀ t, s.flow t = .ret) ∧ ∀ l, s.owner l = none

omit [DecidableEq T] in
theorem Idle.inv (h : s.Idle) : s.Inv := by
  refine ⟨fun t => ⟨none, h.1 t ▸ rfl, fun l => ?_⟩, fun t ht => ?_⟩
  · simp [h.2 l]
  · simp [h.2] at ht

end Sys

/-- However threads call, as long as `old` of `do_sigaltstack` and the set of `do_sigwaitinfo` are
valid: a thread that is in no call has neither lock, no assertion on a user pointer fails, and
who has a lock does not wait for one, so that it goes on to release it. -/
theorem syscalls_balanced {sighand : T → ℕ} {s₀ s : Sys T} {steps : List (T × Option Call)}
    (hidle : s₀.Idle) (hrun : Run (Sys.SafeStep sighand) s₀ steps s) :
    (∀ t, s.flow t = .ret → ∀ l, s.owner l ≠ some t) ∧ (∀ t, s.flow t ≠ .fail) ∧
    ∀ t l, s.owner l = some t → ∀ l' k, s.flow t ≠ .lock l' k := by
  have hinv : s.Inv := hrun.invariant (fun _ _ _ hinv hstep => hstep.inv hinv) hidle.inv
  refine ⟨fun t ht l hl => ?_, fun t ht => ?_, fun t l hl l' k ht => ?_⟩
  all_goals
    obtain ⟨h, hok, howner⟩ := hinv.ok t
    rw [ht] at hok
  · obtain rfl : h = none := hok
    simp [howner] at hl
  · exact hok
  · obtain ⟨rfl, -⟩ := hok
    simp [howner] at hl

/-- Threads in no call. -/
def idleSys : Sys ℕ := ⟨fun _ => .ret, fun _ => none, none⟩

/-- Thread 1 has `mm_sem` in `do_sigaltstack` and waits for nothing. -/
theorem syscalls_balanced_held : ∃ s, Run (Sys.SafeStep id) idleSys
    [(1, some (.doSigaltstack .good .good)), (1, none)] s ∧ s.owner .mm = some 1 ∧
      ∀ l k, s.flow 1 ≠ .lock l k := by
  refine Run.exists_imp (P := fun s => s.owner .mm = some 1) ?_ fun s hrun howner =>
    ⟨howner, (syscalls_balanced ⟨fun _ => rfl, fun _ => rfl⟩ hrun).2.2 1 .mm howner⟩
  refine ⟨_, .cons ⟨⟨rfl, rfl⟩, ?_⟩ (.cons ⟨⟨rfl, rfl⟩, by simp⟩ (.nil _)), rfl⟩
  rintro _ ⟨⟩
  exact .inr (by decide)

/-- `do_sigaltstack` with an invalid `old` returns with `mm_sem`, for which thread 2 then waits, and
`do_sigwaitinfo` with an invalid set fails an assertion. -/
theorem syscalls_unbalanced :
    (∃ s, Run (Sys.Step id) idleSys [(1, some (.doSigaltstack .good .bad)), (1, none),
      (2, some .doMunmap), (2, none)] s ∧ s.flow 1 = .ret ∧ s.owner .mm = some 1 ∧
      s.flow 2 = .lock .mm outUnlock) ∧
    ∃ s, Run (Sys.Step id) idleSys [(1, some (.doSigwaitinfo .null .good)), (1, none)] s ∧
      s.flow 1 = .fail := by
  refine ⟨⟨_, .cons ⟨rfl, rfl⟩ (.cons ⟨rfl, rfl⟩ (.cons ⟨rfl, rfl⟩ (.cons (.inr rfl) (.nil _)))),
    rfl, rfl, rfl⟩, _, .cons ⟨rfl, rfl⟩ (.cons ⟨rfl, rfl⟩ (.nil _)), rfl⟩

end Ucore.Syscall
