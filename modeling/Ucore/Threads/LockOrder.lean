import Ucore.Lib.Waiting
import Ucore.Threads.LifetimeRuns

/-!
# The lock order

`mutex_sem`, the semaphore of a directory, that of a second inode under `mutex_sem`,
`fs_sem`, the semaphore of an inode under it, `io_sem`: every call takes them in this order.
The semaphore that `sfs_reclaim` takes under `fs_sem` is free, since nobody refers to the
node. That of `sfs_sync` need not be: its owner may wait for `fs_sem` in turn.
-/

namespace Ucore.Threads

open Function Ctx

variable {T : Type} [Fintype T] [DecidableEq T] {s s' : Sys T} {t u : T} {e : Event T}

/-- The thread `t` is at a `down` that `u` is past. -/
def Sys.WaitsFor (s : Sys T) (t u : T) : Prop :=
  ∃ l k, s.prog t = .down l k ∧ s.owner l = some u

/-- The thread is in `sfs_sync`. -/
def Sys.Syncs (s : Sys T) (t : T) : Prop := ¬s.Idle t ∧ s.call t = .sync

/-- The thread is in a call that takes `fs_sem` under the semaphore of a directory. -/
def Sys.Nests (s : Sys T) (t : T) : Prop := ¬s.Idle t ∧ (s.call t).nests = true

/-- `sfs_sync` does not overlap with `sfs_create`, `sfs_mkdir`, `sfs_unlink` or `sfs_rename`,
and `sfs_unlink` does not load the directory that it works in. -/
def Sys.Apart (s : Sys T) : Event T → Prop
  | .call _ .sync => ∀ u, ¬s.Nests u
  | .call _ c => c.nests = true → ∀ u, ¬s.Syncs u
  | .op t _ => s.Avoids t
  | .give _ _ _ => True

open Classical in
/-- The place in the order of a lock that a thread waits for. -/
noncomputable def Ctx.level (x : Ctx) : Lock → ℕ
  | .mutex => 0
  | .sem _ => if .fs ∈ x.locks then 4 else if x.NoSem then 1 else 2
  | .fs => 3
  | .io => 5

/-- The invariant of the runs in which `sfs_sync` stays apart. -/
structure Sys.Ordered (s : Sys T) : Prop where
  inv : s.Inv True
  apart : ∀ t u, s.Syncs t → ¬s.Nests u

theorem Sys.Ordered.step (h : s.Ordered) (hstep : SysStep s e s') (hapart : s.Apart e) :
    s'.Ordered := by
  refine ⟨h.inv.step (fun t c he _ => by subst he; exact hapart) hstep, fun u v hu hv => ?_⟩
  cases hstep with
  | @op _ t c hop =>
    have hturn := h.inv.turn_of_step hop fun _ => hapart
    obtain ⟨hbusy, hcall⟩ := hturn.busy hop hu.1
    obtain ⟨hbusy', hcall'⟩ := hturn.busy hop hv.1
    exact h.apart u v ⟨hbusy, hcall ▸ hu.2⟩ ⟨hbusy', hcall' ▸ hv.2⟩
  | give => exact h.apart u v hu hv
  | @call t c hidle hnodes =>
    -- the other threads are in the calls they were in
    have hsame : ∀ w, w ≠ t → update s.call t c w = s.call w ∧
        update s.prog t c.prog w = s.prog w :=
      fun w hw => ⟨update_of_ne hw .., update_of_ne hw ..⟩
    have hsync : u ≠ t → s.Syncs u := by
      intro hut
      obtain ⟨hcall, hprog⟩ := hsame u hut
      exact ⟨fun hret => hu.1 (hprog.trans hret), hcall.symm.trans hu.2⟩
    have hnest : v ≠ t → s.Nests v := by
      intro hvt
      obtain ⟨hcall, hprog⟩ := hsame v hvt
      refine ⟨fun hret => hv.1 (hprog.trans hret), ?_⟩
      rw [← hcall]
      exact hv.2
    have hcall : update s.call t c t = c := update_self ..
    by_cases hut : u = t
    · have hc : c = .sync := by
        have hu' := hu.2
        rw [hut] at hu'
        exact hcall.symm.trans hu'
      subst hc
      by_cases hvt : v = t
      · have hv' := hv.2
        rw [hvt] at hv'
        have hnests : Call.nests .sync = true := by rwa [← hcall]
        cases hnests
      · exact hapart v (hnest hvt)
    · by_cases hvt : v = t
      · have hnests : c.nests = true := by
          have hv' := hv.2
          rw [hvt] at hv'
          rwa [← hcall]
        have hapart' : ∀ u, ¬s.Syncs u := by
          cases c <;> first | exact hapart hnests | cases hnests
        exact hapart' u (hsync hut)
      · exact h.apart u v (hsync hut) (hnest hvt)

omit [DecidableEq T] in
/-- If `t` waits for `u` and `u` waits in turn, then for a lock that comes later. -/
theorem Sys.Ordered.level_lt {l l' : Lock} {k k' : Prog} (h : s.Ordered)
    (ht : s.prog t = .down l k) (hu : s.prog u = .down l' k') (howner : s.owner l = some u) :
    (s.ctx t).level l < (s.ctx u).level l' := by
  have hokt := h.inv.ok t
  have hoku := h.inv.ok u
  rw [ht] at hokt
  rw [hu] at hoku
  have hmayt := hokt.1.2 trivial
  have hmayu := hoku.1.2 trivial
  have hlock : l ∈ (s.ctx u).locks := howner
  have hbusy : ∀ {v l k}, s.prog v = .down l k → ¬s.Idle v := by
    intro v l k hv hidle
    rw [hidle] at hv
    cases hv
  -- a thread that has a lock does not wait for the mutex
  have hmutex : l' ≠ .mutex := by
    rintro rfl
    have hempty : (s.ctx u).locks = ∅ := hmayu
    rw [hempty] at hlock
    exact hlock
  cases l with
  | mutex =>
    cases l' with
    | mutex => exact absurd rfl hmutex
    | sem m =>
      simp only [level]
      split
      · decide
      · split <;> decide
    | fs => exact Nat.succ_pos 2
    | io => exact Nat.succ_pos 4
  | fs =>
    cases l' with
    | mutex => exact absurd rfl hmutex
    | sem m =>
      simp only [level, if_pos hlock]
      decide
    | fs => exact absurd hlock hmayu.1
    | io => exact Nat.lt_add_of_pos_right (Nat.succ_pos 1)
  | io =>
    cases l' with
    | mutex => exact absurd rfl hmutex
    | sem | fs => exact absurd hlock hmayu.2.1
    | io => exact absurd hlock hmayu
  | sem n =>
    obtain ⟨hnot, -, hunder, hfree⟩ := hmayt
    have hut : u ≠ t := by
      rintro rfl
      exact hnot hlock
    have hsem : ¬(s.ctx u).NoSem := fun hno => hno n hlock
    by_cases hfs : Lock.fs ∈ (s.ctx t).locks
    · -- `u` can only wait for `io_sem`
      have hnotfs : Lock.fs ∉ (s.ctx u).locks := by
        intro hfs'
        have htu : some t = some u := Eq.trans (Eq.symm hfs) hfs'
        exact hut (Option.some.inj htu).symm
      have hnests : (s.call u).nests = false := by
        rcases hunder hfs with htask | ⟨hsync, -⟩
        · obtain ⟨-, nd, hn, hzero, -⟩ := h.inv.life.taskOk htask
          rcases h.inv.life.guarded howner with hheld | hfs'
          · rw [h.inv.life.held_eq_zero hn hzero] at hheld
            exact absurd hheld (Nat.lt_irrefl 0)
          · exact absurd hfs' hnotfs
        · have hapart := h.apart t u ⟨hbusy ht, hsync⟩
          exact Bool.eq_false_iff.mpr fun htrue => hapart ⟨hbusy hu, htrue⟩
      cases l' with
      | mutex => exact absurd rfl hmutex
      | sem m =>
        rcases (hmayu.2.2.2 hnotfs).2 with hno | ⟨-, htrue⟩
        · exact absurd hno hsem
        · rw [hnests] at htrue
          cases htrue
      | fs =>
        rcases hmayu.2.2 with hno | htrue
        · exact absurd hno hsem
        · rw [hnests] at htrue
          cases htrue
      | io =>
        simp only [level, if_pos hfs]
        decide
    · have hlevel : (s.ctx t).level (.sem n) ≤ 2 := by
        simp only [level, if_neg hfs]
        split <;> decide
      cases l' with
      | mutex => exact absurd rfl hmutex
      | fs => exact Nat.lt_succ_of_le hlevel
      | io => exact Nat.lt_of_le_of_lt hlevel (by simp [level])
      | sem m =>
        by_cases hfs' : Lock.fs ∈ (s.ctx u).locks
        · simp only [level, if_pos hfs', if_neg hfs]
          split <;> decide
        · -- `u` waits for a second inode, hence has the mutex
          rcases (hmayu.2.2.2 hfs').2 with hno | ⟨hmutex', -⟩
          · exact absurd hno hsem
          · rcases (hfree hfs).2 with hno | ⟨hmutex'', -⟩
            · simp only [level, if_neg hfs, if_neg hfs', if_pos hno, if_neg hsem]
              decide
            · have htu : some t = some u := Eq.trans (Eq.symm hmutex'') hmutex'
              exact absurd (Option.some.inj htu).symm hut

/-- In every run in which `sfs_sync` stays apart from the calls that take `fs_sem` under the
semaphore of a directory, and `sfs_unlink` does not load its own directory, no state has a
cycle of threads that wait for each other. -/
theorem no_wait_cycle {s₀ : Sys T} {es : List (Event T)} (h0 : s₀.Mounted)
    (hrun : Run (fun s e s' => SysStep s e s' ∧ s.Apart e) s₀ es s) : ¬Cyclic s.WaitsFor := by
  have hinit : s₀.Ordered := ⟨h0.inv, fun t _ ht => absurd (h0.idle t) ht.1⟩
  have h : s.Ordered := hrun.invariant (fun _ _ _ h hs => h.step hs.1 hs.2) hinit
  apply not_cyclic_of_level fun t => match s.prog t with
    | .down l _ => (s.ctx t).level l
    | _ => 0
  rintro t u v ⟨l, k, ht, howner⟩ ⟨l', k', hu, -⟩
  simp only [ht, hu]
  exact h.level_lt ht hu howner

/-- A thread has `fs_sem` in `sfs_load_inode` when another one calls `sfs_sync`: it waits,
and not in a circle. -/
theorem no_wait_cycle_load : ∃ s : Sys Bool,
    Run (fun s e s' => SysStep s e s' ∧ s.Apart e) (Sys.mount Bool 8)
      [.call true (.load 1), .op true 0, .call false .sync] s ∧
    s.WaitsFor false true ∧ ¬Cyclic s.WaitsFor := by
  refine Run.exists_imp (P := fun s => s.WaitsFor false true) ?_ fun s hrun hwait =>
    ⟨hwait, no_wait_cycle Sys.mounted_mount hrun⟩
  refine ⟨_, .cons ⟨.of_after rfl, fun hnests => Bool.noConfusion hnests⟩
    (.cons ⟨.of_after rfl, fun _ _ _ _ _ htarget => by cases htarget⟩
    (.cons ⟨.of_after rfl, fun u hu => ?_⟩ (.nil _))), .fs, _, rfl, rfl⟩
  cases u with
  | true | false => exact Bool.noConfusion hu.2

/-- The operations of one thread, with their choices. -/
def opsOf (t : T) (choices : List ℕ) : List (Event T) := choices.map (.op t)

/-- A thread loads the root, and creates a file in it. -/
def createFile : List (Event Bool) :=
  .call true (.load 1) :: opsOf true [0, 0, 0, 1, 0, 0] ++
  .call true (.create 0) :: opsOf true [0, 0, 0, 0, 0, 1, 0, 1, 2, 0, 0, 0, 0, 1, 0, 0]

/-- It is in `sfs_create` once more, and has locked the root, when another thread calls
`sfs_sync`. The root is dirty from the first file. -/
def createWhileSyncing : List (Event Bool) :=
  createFile ++ .call true (.create 0) :: opsOf true [0, 0, 0, 0, 0, 1, 0, 1, 3] ++
  .call false .sync :: opsOf false [0, 1, 0, 1, 0]

/-- `sfs_create` has the semaphore of the root and waits for `fs_sem`, which `sfs_sync` has
while it waits for the semaphore of the root. -/
theorem sync_create_deadlock : ∃ s, Run SysStep (Sys.mount Bool 8) createWhileSyncing s ∧
    s.WaitsFor true false ∧ s.WaitsFor false true ∧ Cyclic s.WaitsFor := by
  have hex : ∃ s, (Sys.mount Bool 8).exec createWhileSyncing = some s ∧
      (∃ k, s.prog true = .down .fs k) ∧ s.owner .fs = some false ∧
      (∃ k, s.prog false = .down (.sem 0) k) ∧ s.owner (.sem 0) = some true :=
    ⟨_, rfl, ⟨_, rfl⟩, rfl, ⟨_, rfl⟩, rfl⟩
  obtain ⟨s, hexec, ⟨k, hk⟩, hfs, ⟨k', hk'⟩, hsem⟩ := hex
  have htrue : s.WaitsFor true false := ⟨.fs, k, hk, hfs⟩
  have hfalse : s.WaitsFor false true := ⟨.sem 0, k', hk', hsem⟩
  refine ⟨s, Run.of_exec (fun _ _ _ _ h => h) hexec, htrue, hfalse, true, ?_⟩
  exact .tail (.single htrue) hfalse

end Ucore.Threads
