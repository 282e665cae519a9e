import Mathlib.Order.BooleanAlgebra.Set
import Ucore.Threads.Calls

/-!
# What every program respects

A program is read against what its thread has in hand: the semaphores, the references and
the task. `Ok` says that each `down` obeys the lock order, that a counter is only changed
by a thread entitled to it, and that the call ends with no semaphore. It is shown once for
each function of the source, and an operation of a thread leaves it true of the rest.
-/

namespace Ucore.Threads

/-- What a thread has in hand. -/
structure Ctx where
  locks : Set Lock
  held : ℕ → ℕ
  task : Task

namespace Ctx

variable (x : Ctx)

/-- One more reference to `n`. -/
def hold (n : ℕ) : Ctx := { x with held := Function.update x.held n (x.held n + 1) }

/-- One reference to `n` less. -/
def drop (n : ℕ) : Ctx := { x with held := Function.update x.held n (x.held n - 1) }

/-- The thread is past its `down` on `l`. -/
def lock (l : Lock) : Ctx := { x with locks := insert l x.locks }

/-- The thread has released `l`. -/
def unlock (l : Lock) : Ctx :=
  { x with
    locks := x.locks \ {l}
    task := if l = .fs then x.task.unlocked else x.task }

/-- The thread refers to every inode whose semaphore it has. -/
def Guarded : Prop := ∀ n, .sem n ∈ x.locks → 0 < x.held n

/-- The thread has no semaphore of an inode. -/
def NoSem : Prop := ∀ n, .sem n ∉ x.locks

end Ctx

open Ctx

/-- The calls that take `fs_sem` under the semaphore of a directory. -/
def Call.nests : Call → Bool
  | create _ | mkdir _ | unlink _ | rename _ _ => true
  | _ => false

/-- The calls that make inodes. -/
def Call.creates : Call → Bool
  | create _ | mkdir _ => true
  | _ => false

/-- The directory that `sfs_unlink` must not find in itself. -/
def Call.target : Call → Option ℕ
  | unlink n => some n
  | _ => none

/-- The lock order: `mutex_sem`, the semaphore of a directory, that of a second inode under
`mutex_sem`, `fs_sem`, the semaphore of an inode in `sfs_reclaim` or `sfs_sync`, `io_sem`. -/
def Ctx.InOrder (c : Call) (x : Ctx) : Lock → Prop
  | .mutex => x.locks = ∅
  | .sem n => .sem n ∉ x.locks ∧ .io ∉ x.locks ∧
      (.fs ∈ x.locks → x.task = .reclaiming n ∨ c = .sync ∧ x.NoSem) ∧
      (.fs ∉ x.locks → 0 < x.held n ∧ (x.NoSem ∨ .mutex ∈ x.locks ∧ c.nests))
  | .fs => .fs ∉ x.locks ∧ .io ∉ x.locks ∧ (x.NoSem ∨ c.nests)
  | .io => .io ∉ x.locks

/-- A thread refers to the inode whose semaphore it takes, or has `fs_sem`. In a `strict`
reading it also keeps the lock order. -/
def Ctx.MayDown (strict : Prop) (c : Call) (x : Ctx) (l : Lock) : Prop :=
  (∀ n, l = .sem n → 0 < x.held n ∨ .fs ∈ x.locks) ∧ (strict → x.InOrder c l)

/-- A program that respects the lock order and the counters, in what the thread has. -/
def Ok (strict : Prop) (c : Call) : Ctx → Prog → Prop
  | x, .ret => x.locks = ∅ ∧ x.task = .none
  | x, .choose k => ∀ i, Ok strict c x (k i)
  | x, .down l k => x.MayDown strict c l ∧ (l ∉ x.locks → Ok strict c (x.lock l) k)
  | x, .up l k => l ∈ x.locks ∧ (l = .fs → x.Guarded) ∧ Ok strict c (x.unlock l) k
  | x, .isRemoved _ k | x, .isDir _ k | x, .isEmpty _ k => ∀ b, Ok strict c x (k b)
  | x, .lookup ino k => .fs ∈ x.locks ∧ x.task = .none ∧
      Ok strict c { x with task := .absent ino } (k none) ∧
      ∀ n, (strict → c.target ≠ some n) → Ok strict c (x.hold n) (k (some n))
  | x, .install ino k => .fs ∈ x.locks ∧ x.task = .absent ino ∧
      ∀ n, x.held n = 0 → Ok strict c { x.hold n with task := .none } (k n)
  | x, .alloc _ k => c.creates ∧ x.task = .none ∧
      ∀ n, x.held n = 0 → Ok strict c { x.hold n with task := .making n } (k n)
  | x, .setLinks n k => c.creates ∧ .fs ∈ x.locks ∧ x.task = .making n ∧
      Ok strict c { x with task := .none } k
  | x, .removeLinks n k => .fs ∈ x.locks ∧ x.task = .reclaiming n ∧
      ∀ b, Ok strict c { x with task := .killing n } (k b)
  | x, .freeIno n k => x.task = .killing n ∧ Ok strict c x k
  | x, .kill n k => x.task = .killing n ∧ Ok strict c { x with task := .none } k
  | x, .refInc n k => 0 < x.held n ∧ x.task = .none ∧ Ok strict c (x.hold n) k
  | x, .refDec n k => 0 < x.held n ∧ x.task = .none ∧ (x.drop n).Guarded ∧
      ∀ b, (b = true → x.held n = 1) →
        Ok strict c { x.drop n with task := if b then .pending n else .none } (k b)
  | x, .reclaimDec n k => .fs ∈ x.locks ∧ x.task = .pending n ∧
      ∀ b, Ok strict c { x with task := if b then .reclaiming n else .none } (k b)
  | x, .listNext k => ∀ n, Ok strict c x (k n)
  | x, .search _ k => ∀ r, Ok strict c x (k r)
  | x, .getParent _ k => ∀ ino, Ok strict c x (k ino)
  | x, .edit _ _ _ k => Ok strict c x k

/-! ## The functions of the source -/

namespace Ctx

variable {x : Ctx} {l : Lock} {n : ℕ}

theorem unlock_lock (hl : l ∉ x.locks) (htask : l = .fs → x.task.unlocked = x.task) :
    (x.lock l).unlock l = x := by
  have hlocks : insert l x.locks \ {l} = x.locks := Set.insert_sdiff_self_of_notMem hl
  have htask' : (if l = .fs then x.task.unlocked else x.task) = x.task := by
    split
    · next h => exact htask h
    · rfl
  simp only [lock, unlock, hlocks, htask']

theorem drop_hold : (x.hold n).drop n = x := by
  simp [hold, drop]

theorem Guarded.hold (h : x.Guarded) : (x.hold n).Guarded := by
  intro m hm
  have hheld := h m hm
  rcases eq_or_ne m n with rfl | hmn
  · simp [hold]
  · simpa [Ctx.hold, hmn] using hheld

end Ctx

variable {strict : Prop} {c : Call} {x : Ctx} {n m : ℕ} {k : Prog}

theorem ok_transfers (hio : strict → .io ∉ x.locks) (hk : Ok strict c x k) :
    Ok strict c x (transfers k) := by
  intro i
  induction i with
  | zero => exact hk
  | succ i ih =>
    refine ⟨⟨fun n => Lock.noConfusion, hio⟩, fun hfree => ?_⟩
    refine ⟨Set.mem_insert _ _, Lock.noConfusion, ?_⟩
    rw [unlock_lock hfree fun h => Lock.noConfusion h]
    exact ih

/-- The semaphore taken by `trylock_sin` is released. -/
theorem ok_unlockSin (hsem : .sem n ∉ x.locks) (hk : Ok strict c x k) :
    Ok strict c (x.lock (.sem n)) (unlockSin n k) := by
  refine ⟨Set.mem_insert _ _, Lock.noConfusion, ?_⟩
  rw [unlock_lock hsem fun h => Lock.noConfusion h]
  exact hk

theorem ok_trylockSin {k : Bool → Prog} (hmay : x.MayDown strict c (.sem n))
    (hfalse : Ok strict c x (k false))
    (htrue : .sem n ∉ x.locks → Ok strict c (x.lock (.sem n)) (k true)) :
    Ok strict c x (trylockSin n k) := by
  intro removed
  cases removed with
  | true => exact hfalse
  | false =>
    refine ⟨hmay, fun hfree removed => ?_⟩
    cases removed with
    | false => exact htrue hfree
    | true => exact ok_unlockSin hfree hfalse

/-- `fs_sem` is released, with a task that ends there. -/
theorem ok_unlockFs {w : Task} (hfs : .fs ∉ x.locks) (hguard : x.Guarded)
    (htask : w.unlocked = x.task) (hk : Ok strict c x k) :
    Ok strict c { x.lock .fs with task := w } (.up .fs k) := by
  refine ⟨Set.mem_insert _ _, fun _ m hm => ?_, ?_⟩
  · apply hguard
    simpa [lock] using hm
  · have hctx : unlock { x.lock .fs with task := w } .fs = x := by
      have hlocks : insert Lock.fs x.locks \ {.fs} = x.locks :=
        Set.insert_sdiff_self_of_notMem hfs
      simp [lock, unlock, hlocks, htask]
    rw [hctx]
    exact hk

/-- `fs_sem` may be taken: it and `io_sem` are free, and no directory is locked unless the
call nests. -/
theorem mayDown_fs (h : strict → x.InOrder c .fs) : x.MayDown strict c .fs :=
  ⟨fun _ => Lock.noConfusion, h⟩

/-- A choice between two ways to go on. -/
theorem ok_choose {k' : Prog} (hk : Ok strict c x k) (hk' : Ok strict c x k') :
    Ok strict c x (.choose fun i => if i = 0 then k else k') := by
  intro i
  dsimp only
  split
  · exact hk
  · exact hk'

theorem ok_sfsLoadInode {ino : ℕ} {k : Option ℕ → Prog} (hmay : strict → x.InOrder c .fs)
    (hguard : x.Guarded) (htask : x.task = .none) (hnone : Ok strict c x (k none))
    (hsome : ∀ n, (strict → c.target = some n → x.held n = 0) →
      Ok strict c (x.hold n) (k (some n))) : Ok strict c x (sfsLoadInode ino k) := by
  refine ⟨mayDown_fs hmay, fun hfs => ⟨Set.mem_insert _ _, htask, ?_, fun n hn => ?_⟩⟩
  · apply ok_transfers (fun hs => by simpa [lock] using (hmay hs).2.1)
    refine ok_choose (ok_unlockFs hfs hguard htask.symm hnone)
      ⟨Set.mem_insert _ _, rfl, fun n hn => ?_⟩
    exact ok_unlockFs (x := x.hold n) hfs hguard.hold htask.symm (hsome n fun _ _ => hn)
  · have hsame : x.task.unlocked = x.task := by
      rw [htask]
      rfl
    exact ok_unlockFs (x := x.hold n) hfs hguard.hold hsame (hsome n fun hs h => absurd h (hn hs))

theorem ok_sfsFsync {k : Bool → Prog} (hmay : x.MayDown strict c (.sem n))
    (hk : ∀ b, Ok strict c x (k b)) : Ok strict c x (sfsFsync n k) := by
  refine ok_choose (hk true) (ok_trylockSin hmay (hk false) fun hsem => ?_)
  apply ok_transfers (fun hs => by simpa [lock] using (hmay.2 hs).2.1)
  exact fun failed => ok_unlockSin hsem (hk _)

section

variable (hmay : strict → x.InOrder c .fs)
include hmay

/-- `sfs_reclaim`, called with the task it has been given by the last `vop_ref_dec`. -/
theorem ok_sfsReclaim (hguard : x.Guarded) (htask : x.task = .none) (hsem : .sem n ∉ x.locks)
    (hk : Ok strict c x k) : Ok strict c { x with task := .pending n } (sfsReclaim n k) := by
  have hio : strict → Lock.io ∉ x.locks := fun hs => (hmay hs).2.1
  have hio' : strict → Lock.io ∉ insert Lock.fs x.locks := by simpa using hio
  have hsem' : Lock.sem n ∉ insert Lock.fs x.locks := by simpa
  have hkill : Ok strict c { x with task := .killing n } (.kill n k) := by
    refine ⟨rfl, ?_⟩
    rw [← htask]
    exact hk
  refine ⟨mayDown_fs hmay, fun hfs => ⟨Set.mem_insert _ _, rfl, fun last => ?_⟩⟩
  have hfinish : Ok strict c { x.lock .fs with task := .reclaiming n } (sfsReclaim.finish n k) := by
    refine ⟨Set.mem_insert _ _, rfl, fun unlinked => ?_⟩
    cases unlinked with
    | true =>
      refine ok_unlockFs (x := { x with task := .killing n }) hfs hguard rfl ⟨rfl, ?_⟩
      exact ok_transfers hio hkill
    | false => exact ok_unlockFs (x := { x with task := .killing n }) hfs hguard rfl hkill
  cases last with
  | false => exact ok_unlockFs (x := x) hfs hguard htask.symm hk
  | true =>
    show Ok strict c { x.lock .fs with task := .reclaiming n } _
    refine ok_choose (ok_transfers hio' hfinish) (ok_sfsFsync ?_ ?_)
    · refine ⟨fun _ _ => .inr (Set.mem_insert _ _), fun hs => ⟨hsem', hio' hs, ?_, ?_⟩⟩
      · exact fun _ => .inl rfl
      · exact fun h => absurd (Set.mem_insert _ _) h
    · rintro (_ | _)
      · exact ok_unlockFs hfs hguard htask.symm hk
      · exact hfinish

theorem ok_vopRefDec (hguard : (x.drop n).Guarded) (htask : x.task = .none) (hheld : 0 < x.held n)
    (hk : Ok strict c (x.drop n) k) : Ok strict c x (vopRefDec n k) := by
  refine ⟨hheld, htask, hguard, fun zero hzero => ?_⟩
  cases zero with
  | false =>
    have hctx : { x.drop n with task := .none } = x.drop n := by rw [← htask]; rfl
    rw [if_neg Bool.false_ne_true, hctx]
    exact hk
  | true =>
    refine ok_sfsReclaim hmay hguard htask (fun hsem => ?_) hk
    -- the semaphore of the node would need a second reference
    have hlast := hzero rfl
    have hdrop := hguard n hsem
    simp [drop, hlast] at hdrop

/-- A reference that was taken on the way is dropped. -/
theorem ok_vopRefDec_hold (hguard : x.Guarded) (htask : x.task = .none) (hk : Ok strict c x k) :
    Ok strict c (x.hold n) (vopRefDec n k) := by
  apply ok_vopRefDec (x := x.hold n) hmay
  · rwa [drop_hold]
  · exact htask
  · simp [hold]
  · rwa [drop_hold]

end

theorem ok_sfsDirentSearchNolock {k : Option ℕ → Prog} (hio : strict → .io ∉ x.locks)
    (hk : ∀ r, Ok strict c x (k r)) : Ok strict c x (sfsDirentSearchNolock n k) :=
  ok_transfers hio hk

theorem ok_writeEntry {e : Edit} {k : Bool → Prog} (hio : strict → .io ∉ x.locks)
    (hk : ∀ b, Ok strict c x (k b)) : Ok strict c x (writeEntry e n m k) :=
  ok_transfers hio (ok_choose (hk false) (hk true))

theorem ok_sfsDirentCreateInode {isDir : Bool} {k : Option ℕ → Prog}
    (hmay : strict → x.InOrder c .fs) (hcreates : c.creates) (hguard : x.Guarded)
    (htask : x.task = .none) (hnone : Ok strict c x (k none))
    (hsome : ∀ n, Ok strict c (x.hold n) (k (some n))) :
    Ok strict c x (sfsDirentCreateInode isDir k) := by
  apply ok_transfers (fun hs => (hmay hs).2.1)
  refine ok_choose hnone ⟨hcreates, htask, fun n _ => ⟨mayDown_fs hmay, fun hfs => ?_⟩⟩
  refine ⟨hcreates, Set.mem_insert _ _, rfl, ?_⟩
  exact ok_unlockFs (x := x.hold n) hfs hguard.hold htask.symm (hsome n)

/-! ## The calls -/

section Calls

variable {held : ℕ → ℕ}

/-- The context of a thread between two calls. -/
def Ctx.idle (held : ℕ → ℕ) : Ctx := ⟨∅, held, .none⟩

theorem ok_ret_idle : Ok strict c (.idle held) .ret := ⟨rfl, rfl⟩

theorem inOrder_idle_fs : strict → (idle held).InOrder c .fs := by
  simp [idle, InOrder, NoSem]

theorem guarded_idle : (idle held).Guarded := by
  intro n hn
  simp [idle] at hn

theorem mayDown_idle_sem (hheld : 0 < held n) : (idle held).MayDown strict c (.sem n) := by
  simp [idle, MayDown, InOrder, NoSem, hheld]

/-- A directory is locked, in a call that nests. -/
theorem inOrder_dir_fs (hnests : c.nests) : strict → ((idle held).lock (.sem n)).InOrder c .fs := by
  simp [idle, lock, InOrder, hnests]

theorem guarded_dir (hheld : 0 < held n) : ((idle held).lock (.sem n)).Guarded := by
  intro m hm
  simp only [lock, idle, Set.mem_insert_iff, Lock.sem.injEq, Set.mem_empty_iff_false,
    or_false] at hm
  subst hm
  exact hheld

theorem io_notMem_dir : strict → .io ∉ ((idle held).lock (.sem n)).locks := by
  simp [idle, lock]

/-- The end of a call on one directory. -/
theorem ok_unlockSin_ret : Ok strict c ((idle held).lock (.sem n)) (unlockSin n .ret) :=
  ok_unlockSin (by simp [idle]) ok_ret_idle

/-- The end of a call on one directory that has taken a reference to return it. -/
theorem ok_unlockSin_ret_hold :
    Ok strict c (((idle held).lock (.sem n)).hold m) (unlockSin n .ret) :=
  ok_unlockSin (x := (idle held).hold m) (by simp [hold, idle]) ⟨rfl, rfl⟩

section

variable (hheld : 0 < held n)
include hheld

theorem ok_sfsCreate : Ok strict (.create n) (.idle held) (sfsCreate n) := by
  have hmay : strict → ((idle held).lock (.sem n)).InOrder (.create n) .fs :=
    inOrder_dir_fs rfl
  have hguard := guarded_dir hheld
  refine ok_trylockSin (mayDown_idle_sem hheld) ok_ret_idle fun _ => ?_
  apply ok_sfsDirentSearchNolock io_notMem_dir
  rintro (_ | ino)
  · apply ok_choose ok_unlockSin_ret
    apply ok_sfsDirentCreateInode hmay rfl hguard rfl ok_unlockSin_ret
    intro m
    apply ok_writeEntry (by simp [hold, lock, idle])
    rintro (_ | _)
    · exact ok_vopRefDec_hold hmay hguard rfl ok_unlockSin_ret
    · exact ok_unlockSin_ret_hold
  · apply ok_choose ok_unlockSin_ret
    apply ok_sfsLoadInode hmay hguard rfl ok_unlockSin_ret
    rintro m - (_ | _)
    · exact ok_unlockSin_ret_hold
    · exact ok_vopRefDec_hold hmay hguard rfl ok_unlockSin_ret

theorem ok_sfsMkdir : Ok strict (.mkdir n) (.idle held) (sfsMkdir n) := by
  have hmay : strict → ((idle held).lock (.sem n)).InOrder (.mkdir n) .fs :=
    inOrder_dir_fs rfl
  have hguard := guarded_dir hheld
  refine ok_trylockSin (mayDown_idle_sem hheld) ok_ret_idle fun _ => ?_
  apply ok_sfsDirentSearchNolock io_notMem_dir
  rintro (_ | ino)
  · apply ok_choose ok_unlockSin_ret
    apply ok_sfsDirentCreateInode hmay rfl hguard rfl ok_unlockSin_ret
    intro m
    apply ok_writeEntry (by simp [hold, lock, idle])
    exact fun _ => ok_vopRefDec_hold hmay hguard rfl ok_unlockSin_ret
  · exact ok_unlockSin_ret

theorem ok_sfsLink : Ok strict c (.idle held) (sfsLink n m) := by
  rintro (_ | _)
  · refine ok_trylockSin (mayDown_idle_sem hheld) ok_ret_idle fun _ => ?_
    apply ok_sfsDirentSearchNolock io_notMem_dir
    rintro (_ | ino)
    · exact ok_choose ok_unlockSin_ret (ok_writeEntry io_notMem_dir fun _ => ok_unlockSin_ret)
    · exact ok_unlockSin_ret
  · exact ok_ret_idle

theorem ok_sfsReadWrite : Ok strict c (.idle held) (sfsReadWrite n) := by
  refine ok_choose ok_ret_idle (ok_trylockSin (mayDown_idle_sem hheld) ok_ret_idle fun _ => ?_)
  exact ok_transfers io_notMem_dir ok_unlockSin_ret

/-- A walk goes from `n` to `m`: it takes a reference to `m` and drops that to `n`. -/
theorem ok_vopRefDec_next (hk : ∀ held', 0 < held' m → Ok strict c (.idle held') k) :
    Ok strict c ((idle held).hold m) (vopRefDec n k) := by
  apply ok_vopRefDec (x := (idle held).hold m) inOrder_idle_fs guarded_idle rfl
  · rcases eq_or_ne n m with rfl | hnm
    · simp [hold]
    · simpa [hold, hnm, idle] using hheld
  · apply hk
    rcases eq_or_ne m n with rfl | hmn
    · simpa [hold, idle] using hheld
    · simp [hold, hmn]

theorem ok_vopRefDec_ret : Ok strict c (.idle held) (vopRefDec n .ret) :=
  ok_vopRefDec inOrder_idle_fs guarded_idle rfl hheld ⟨rfl, rfl⟩

theorem ok_lookupFrom {components : ℕ} : Ok strict c (.idle held) (lookupFrom n components) := by
  induction components generalizing n held with
  | zero => exact ok_choose (ok_vopRefDec_ret hheld) ok_ret_idle
  | succ components ih =>
    have hload : ∀ ino next, next none = vopRefDec n .ret →
        (∀ m, next (some m) = vopRefDec n (lookupFrom m components)) →
        Ok strict c (.idle held) (sfsLoadInode ino next) := by
      intro ino next hnone hsome
      apply ok_sfsLoadInode inOrder_idle_fs guarded_idle rfl
      · rw [hnone]
        exact ok_vopRefDec_ret hheld
      · intro m _
        rw [hsome]
        exact ok_vopRefDec_next hheld fun _ => ih
    rintro (_ | _)
    · exact ok_vopRefDec_ret hheld
    · apply ok_choose
      · exact fun ino => hload ino _ rfl fun _ => rfl
      · refine ok_trylockSin (mayDown_idle_sem hheld) (ok_vopRefDec_ret hheld) fun hsem => ?_
        apply ok_sfsDirentSearchNolock io_notMem_dir
        rintro (_ | ino)
        · exact ok_unlockSin hsem (ok_vopRefDec_ret hheld)
        · exact ok_unlockSin hsem (hload ino _ rfl fun _ => rfl)

end

theorem ok_namefileFrom {parents : ℕ} (hheld : 0 < held n) :
    Ok strict c (.idle held) (namefileFrom n parents) := by
  induction parents generalizing n held with
  | zero => exact ok_vopRefDec_ret hheld
  | succ parents ih =>
    intro ino
    apply ok_sfsLoadInode inOrder_idle_fs guarded_idle rfl (ok_vopRefDec_ret hheld)
    intro m _
    apply ok_vopRefDec_next hheld
    intro held' hm
    refine ok_trylockSin (mayDown_idle_sem hm) (ok_vopRefDec_ret hm) fun hsem => ?_
    apply ok_transfers io_notMem_dir
    exact ok_unlockSin hsem (ok_choose (ok_vopRefDec_ret hm) (ih hm))

theorem ok_sfsSync : Ok strict .sync (.idle held) sfsSync := by
  refine ⟨mayDown_fs inOrder_idle_fs, fun hfs inodes => ?_⟩
  induction inodes with
  | zero =>
    apply ok_unlockFs hfs guarded_idle rfl
    exact ok_transfers (by simp [idle]) ok_ret_idle
  | succ inodes ih =>
    intro n
    apply ok_sfsFsync _ fun _ => ih
    simp [MayDown, InOrder, lock, idle, NoSem]

theorem ok_unlockMutex : Ok strict c ((idle held).lock .mutex) (.up .mutex .ret) := by
  refine ⟨Set.mem_insert _ _, Lock.noConfusion, ?_⟩
  rw [unlock_lock (by simp [idle]) fun h => Lock.noConfusion h]
  exact ok_ret_idle

/-- The end of a call on the directory `n` under the mutex. -/
theorem ok_unlockSin_mutex : Ok strict c (((idle held).lock .mutex).lock (.sem n))
      (unlockSin n (.up .mutex .ret)) :=
  ok_unlockSin (by simp [lock, idle]) ok_unlockMutex

theorem mayDown_mutex_sem (hheld : 0 < held n) :
    ((idle held).lock .mutex).MayDown strict c (.sem n) := by
  simp [MayDown, InOrder, lock, idle, NoSem, hheld]

theorem mayDown_idle_mutex : (idle held).MayDown strict c .mutex :=
  ⟨fun _ => Lock.noConfusion, fun _ => rfl⟩

theorem guarded_mutex_dir (hheld : 0 < held n) :
    (((idle held).lock .mutex).lock (.sem n)).Guarded := by
  intro m hm
  simp only [lock, idle, Set.mem_insert_iff, Lock.sem.injEq, reduceCtorEq,
    Set.mem_empty_iff_false, or_false] at hm
  subst hm
  exact hheld

theorem ok_sfsUnlink (hheld : 0 < held n) : Ok strict (.unlink n) (.idle held) (sfsUnlink n) := by
  have hguard := guarded_mutex_dir hheld
  have hmay : strict → (((idle held).lock .mutex).lock (.sem n)).InOrder (.unlink n) .fs := by
    simp [InOrder, lock, idle, Call.nests]
  have hdone : Ok strict (.unlink n) (((idle held).lock .mutex).lock (.sem n))
      (sfsUnlink.done n) := ok_unlockSin_mutex
  refine ⟨mayDown_idle_mutex, fun _ => ?_⟩
  refine ok_trylockSin (mayDown_mutex_sem hheld) ok_unlockMutex fun _ => ?_
  apply ok_sfsDirentSearchNolock (by simp [lock, idle])
  rintro (_ | ino)
  · exact hdone
  apply ok_sfsLoadInode hmay hguard rfl hdone
  intro m hm
  have hdrop := ok_vopRefDec_hold (n := m) hmay hguard rfl hdone
  have hmn : strict → m ≠ n := by
    intro hs h
    subst h
    exact hheld.ne' (hm hs rfl)
  rintro (_ | _)
  · exact ok_writeEntry (by simp [hold, lock, idle]) fun _ => hdrop
  · refine ok_trylockSin ⟨fun j hj => .inl ?_, fun hs => ?_⟩ hdrop fun hsem => ?_
    · cases hj
      simp [hold]
    · simp [InOrder, hold, lock, idle, Call.nests, hmn hs]
    · rintro (_ | _)
      · exact ok_unlockSin hsem hdrop
      · apply ok_writeEntry (by simp [hold, lock, idle])
        exact fun _ => ok_unlockSin hsem hdrop

theorem ok_sfsRename2Nolock (hmay : strict → x.InOrder c .fs) (hguard : x.Guarded)
    (htask : x.task = .none) (hk : Ok strict c x k) : Ok strict c x (sfsRename2Nolock n m k) := by
  have hio : strict → Lock.io ∉ x.locks := fun hs => (hmay hs).2.1
  have hmove : ∀ e₁ e₂ e₃ j, Ok strict c (x.hold j) (sfsRename2Nolock.move n m k e₁ e₂ e₃ j) := by
    intro e₁ e₂ e₃ j
    have hdrop := ok_vopRefDec_hold (n := j) hmay hguard htask hk
    have hio' : strict → Lock.io ∉ (x.hold j).locks := hio
    apply ok_writeEntry hio'
    rintro (_ | _)
    · exact hdrop
    apply ok_writeEntry hio'
    rintro (_ | _)
    · exact ok_writeEntry hio' fun _ => hdrop
    · exact hdrop
  apply ok_sfsDirentSearchNolock hio
  rintro (_ | ino)
  · exact hk
  apply ok_sfsDirentSearchNolock hio
  rintro (_ | _)
  · apply ok_choose hk
    apply ok_sfsLoadInode hmay hguard htask hk
    rintro j - (_ | _)
    · exact hmove .unlink .link .link j
    · exact hmove .moveOut .moveIn .moveBack j
  · exact hk

theorem ok_sfsRename (hn : 0 < held n) (hm : 0 < held m) :
    Ok strict (.rename n m) (.idle held) (sfsRename n m) := by
  refine ⟨mayDown_idle_mutex, fun _ => ?_⟩
  refine ok_trylockSin (mayDown_mutex_sem hn) ok_unlockMutex fun _ => ?_
  dsimp only
  split
  · exact ok_transfers (by simp [lock, idle]) ok_unlockSin_mutex
  · next hnm =>
    have hmn : m ≠ n := fun h => hnm h.symm
    refine ok_trylockSin ?_ ok_unlockSin_mutex fun hsem => ?_
    · simp [MayDown, InOrder, lock, idle, Call.nests, hmn, hm]
    · apply ok_sfsRename2Nolock _ _ rfl (ok_unlockSin hsem ok_unlockSin_mutex)
      · simp [InOrder, lock, idle, Call.nests]
      · intro j hj
        simp only [lock, idle, Set.mem_insert_iff, Lock.sem.injEq, reduceCtorEq,
          Set.mem_empty_iff_false, or_false] at hj
        rcases hj with rfl | rfl
        · exact hm
        · exact hn

/-- Every call respects the counters and, in the strict reading, the lock order. -/
theorem ok_prog (c : Call) (hheld : ∀ n ∈ c.nodes, 0 < held n) :
    Ok strict c (.idle held) c.prog := by
  cases c with
  | load ino =>
    apply ok_sfsLoadInode (k := fun _ => .ret) inOrder_idle_fs guarded_idle rfl ok_ret_idle
    exact fun _ _ => ⟨rfl, rfl⟩
  | refInc n => exact ⟨hheld n (.head _), rfl, rfl, rfl⟩
  | refDec n => exact ok_vopRefDec_ret (hheld n (.head _))
  | readWrite n | getdirentry n => exact ok_sfsReadWrite (hheld n (.head _))
  | fsync n =>
    exact ok_sfsFsync (mayDown_idle_sem (hheld n (.head _))) fun _ => ok_ret_idle
  | lookup n components =>
    exact ⟨hheld n (.head _), rfl, ok_lookupFrom (by simp)⟩
  | namefile n parents =>
    exact ⟨hheld n (.head _), rfl, ok_namefileFrom (by simp)⟩
  | create n => exact ok_sfsCreate (hheld n (.head _))
  | mkdir n => exact ok_sfsMkdir (hheld n (.head _))
  | link n m => exact ok_sfsLink (hheld n (.head _))
  | unlink n => exact ok_sfsUnlink (hheld n (.head _))
  | rename n m =>
    exact ok_sfsRename (hheld n (.head _)) (hheld m (.tail _ (.head _)))
  | sync => exact ok_sfsSync

end Calls

end Ucore.Threads
