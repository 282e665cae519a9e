import Ucore.Threads.Lifetime

/-!
# Runs and the hash list

What one step can do to a node of the hash list: put it there, take it off, free it. Along
a run of calls that make no inodes, a node leaves the list once, at the hands of the reclaim
that has brought `reclaim_count` to zero, and no two nodes of the list have one number.
-/

namespace Ucore.Threads

open Function Option

variable {T : Type} [DecidableEq T] {s s' : Sys T} {t : T} {n c : ℕ}

/-- What stays of a node while its counters change. -/
def Node.key (nd : Node) : ℕ × Bool := (nd.ino, nd.hashed)

/-- How an operation of `t` changes the task of a thread: a reclaim gets alone with a node by
bringing its `reclaim_count` to zero, and then takes it off the lists. -/
theorem Effect.task {u : T} (h : Effect s s' t) :
    (s'.task u = .reclaiming n → s.task u = .reclaiming n ∨ ∃ nd, s.node n = some nd ∧
      nd.reclaimCount = 1 ∧ s'.node n = some { nd with reclaimCount := 0 }) ∧
    (s'.task u = .killing n → s.task u = .killing n ∨ s.task u = .reclaiming n) := by
  cases h with
  | lock hlocks =>
    have hun := (s.task t).unlocked_cases
    rw [hlocks.task]
    grind
  | change hsets hchange =>
    rw [hsets.task, hsets.node]
    cases hchange <;> grind

theorem Effect.next_le (h : Effect s s' t) : s.next ≤ s'.next := by
  cases h with
  | lock hlocks => exact hlocks.next.ge
  | change hsets hchange =>
    rw [hsets.next]
    cases hchange <;> omega

/-! ## Runs of calls that make no inodes -/

/-- The node is in the hash list. -/
def Sys.Hashed (s : Sys T) (n : ℕ) : Prop := ∃ nd, s.node n = some nd ∧ nd.hashed = true

/-- The hash list has at most one node for each inode number. -/
def Sys.HashUnique (s : Sys T) : Prop :=
  ∀ n m nd md, s.node n = some nd → s.node m = some md → nd.hashed = true → md.hashed = true →
    nd.ino = md.ino → n = m

/-- The event is not a call that makes an inode. -/
def Event.Loads : Event T → Prop
  | .call _ c => c.creates = false
  | _ => True

/-- The steps of threads that load inodes, refer to them and reclaim them. -/
def LoadStep (s : Sys T) (e : Event T) (s' : Sys T) : Prop := SysStep s e s' ∧ e.Loads

variable [Fintype T] {e : Event T}

/-- The invariant of such runs. -/
structure Sys.Loading (s : Sys T) : Prop where
  inv : s.Inv False
  loads : ∀ t, s.Idle t ∨ (s.call t).creates = false
  unique : s.HashUnique

theorem Sys.Loading.turn (h : s.Loading) (hstep : s.step t c = some s') : Turn False s s' t :=
  h.inv.turn_of_step hstep fun hfalse => hfalse.elim

/-- What a step can do to a node. -/
theorem Sys.Loading.nodeStep (h : s.Loading) (hstep : s.step t c = some s') (n : ℕ) :
    (s'.node n).map Node.key = (s.node n).map Node.key ∨
    (∃ ino, n = s.next ∧ s.task t = .absent ino ∧ s'.node n = some ⟨ino, 1, 1, true⟩) ∨
    (s.task t = .reclaiming n ∧ ∃ nd, s'.node n = some nd ∧ nd.hashed = false) ∨
    s.task t = .killing n ∧ s'.node n = none := by
  have hload : ¬(s.call t).creates = true := by
    refine Bool.not_eq_true _ ▸ (h.loads t).resolve_left fun hidle => ?_
    have hret : s.prog t = .ret := hidle
    simp [Sys.step, hret] at hstep
  cases (h.turn hstep).effect with
  | lock hlocks => exact .inl (by rw [hlocks.node])
  | @change m o c k x hsets hchange =>
    rw [hsets.node]
    rcases eq_or_ne n m with rfl | hnm
    · rw [update_self]
      cases hchange with
      | stay | absent => exact .inl rfl
      | find hn | refInc hn | refDec hn | reclaimDec hn =>
        rw [hn]
        exact .inl rfl
      | install hnext htask => exact .inr (.inl ⟨_, hnext, htask, rfl⟩)
      | alloc hcreates | setLinks hcreates => exact absurd hcreates hload
      | removeLinks hn htask => exact .inr (.inr (.inl ⟨htask, _, rfl, rfl⟩))
      | kill hn htask => exact .inr (.inr (.inr ⟨htask, rfl⟩))
    · exact .inl (by rw [update_of_ne hnm])

theorem Sys.Loading.hashUnique_op (h : s.Loading) (hstep : s.step t c = some s') :
    s'.HashUnique := by
  -- a hashed node was hashed before, or is the one that `t` has looked for in vain
  have hcases : ∀ n nd, s'.node n = some nd → nd.hashed = true →
      (∃ nd₀, s.node n = some nd₀ ∧ nd₀.hashed = true ∧ nd₀.ino = nd.ino) ∨
      n = s.next ∧ s.task t = .absent nd.ino := by
    intro n nd hn hhashed
    obtain hkeep | ⟨ino, hnext, htask, hnode⟩ | ⟨-, nd', hnode, hfalse⟩ | ⟨-, hnode⟩ :=
      h.nodeStep hstep n
    · rw [hn] at hkeep
      obtain ⟨nd₀, hnd₀, hkey⟩ := map_eq_some_iff.mp hkeep.symm
      obtain ⟨hino, hhash⟩ := Prod.mk.inj hkey
      exact .inl ⟨nd₀, hnd₀, hhash.trans hhashed, hino⟩
    · rw [hn] at hnode
      cases hnode
      exact .inr ⟨hnext, htask⟩
    · rw [hn] at hnode
      cases hnode
      rw [hfalse] at hhashed
      cases hhashed
    · rw [hn] at hnode
      cases hnode
  intro n m nd md hn hm hnd hmd hino
  rcases hcases n nd hn hnd with ⟨nd₀, hn₀, hnd₀, hi⟩ | ⟨hnext, htask⟩ <;>
    rcases hcases m md hm hmd with ⟨md₀, hm₀, hmd₀, hj⟩ | ⟨hnext', htask'⟩
  · exact h.unique n m nd₀ md₀ hn₀ hm₀ hnd₀ hmd₀ (by rw [hi, hj, hino])
  · exact absurd (hi.trans hino) ((h.inv.life.taskOk htask').2 n nd₀ hn₀ hnd₀)
  · exact absurd (hj.trans hino.symm) ((h.inv.life.taskOk htask).2 m md₀ hm₀ hmd₀)
  · rw [hnext, hnext']

theorem Sys.Loading.step (h : s.Loading) (hstep : LoadStep s e s') : s'.Loading := by
  obtain ⟨hstep, hloads⟩ := hstep
  refine ⟨h.inv.step (fun _ _ _ hfalse => hfalse.elim) hstep, fun u => ?_, ?_⟩
  · cases hstep with
    | @call t c hidle hnodes =>
      rcases eq_or_ne u t with rfl | hu
      · right
        show (update s.call u c u).creates = false
        rw [update_self]
        exact hloads
      · have hcall : update s.call t c u = s.call u := update_of_ne hu ..
        have hprog : update s.prog t c.prog u = s.prog u := update_of_ne hu ..
        rcases h.loads u with hidle' | hcreates
        · exact .inl (hprog.trans hidle')
        · exact .inr (by rw [← hcreates, ← hcall])
    | give => exact h.loads u
    | @op _ t c hop =>
      by_cases hidle : s'.Idle u
      · exact .inl hidle
      · obtain ⟨hbusy, hcall⟩ := (h.turn hop).busy hop hidle
        exact .inr (hcall ▸ (h.loads u).resolve_left hbusy)
  · cases hstep with
    | call | give => exact h.unique
    | op hop => exact h.hashUnique_op hop

/-- The node has left the hash list, or has never been in it. -/
def Sys.Off (s : Sys T) (n : ℕ) : Prop := n < s.next ∧ ¬s.Hashed n

/-- The node has been freed. -/
def Sys.Freed (s : Sys T) (n : ℕ) : Prop := n < s.next ∧ s.node n = none

omit [DecidableEq T] in
omit [Fintype T] in
theorem Sys.hashed_congr (hkey : (s'.node n).map Node.key = (s.node n).map Node.key) :
    s'.Hashed n ↔ s.Hashed n := by
  have hall : ∀ s : Sys T, s.Hashed n ↔ ∃ i, (s.node n).map Node.key = some (i, true) := by
    intro s
    constructor
    · rintro ⟨nd, hn, hhashed⟩
      exact ⟨nd.ino, by rw [hn, map_some, Node.key, hhashed]⟩
    · rintro ⟨i, hi⟩
      obtain ⟨nd, hn, hkey⟩ := map_eq_some_iff.mp hi
      exact ⟨nd, hn, (Prod.mk.inj hkey).2⟩
  rw [hall, hall, hkey]

/-- What one step does to the nodes of the hash list. -/
structure Retires (s : Sys T) (e : Event T) (s' : Sys T) (n : ℕ) : Prop where
  /-- A node is taken off by a reclaim that is alone with it. -/
  removed : s.Hashed n → ¬s'.Hashed n →
    ∃ t c, e = .op t c ∧ s.task t = .reclaiming n ∧ ∀ u, s.held u n = 0
  /-- That is the reclaim that has brought `reclaim_count` to zero. -/
  alone : ∀ t, s'.task t = .reclaiming n → s.task t = .reclaiming n ∨
    ∃ nd, s.node n = some nd ∧ nd.reclaimCount = 1 ∧ s'.node n = some { nd with reclaimCount := 0 }
  /-- A node is freed by the reclaim that has taken it off. -/
  freed : s.node n ≠ none → s'.node n = none →
    ∃ t c, e = .op t c ∧ s.task t = .killing n ∧ ∀ u, s.held u n = 0
  same : ∀ t, s'.task t = .killing n → s.task t = .killing n ∨ s.task t = .reclaiming n
  /-- Both happen once. -/
  off : s.Off n → s'.Off n
  dead : s.Freed n → s'.Freed n

theorem Sys.Loading.retires_op (h : s.Loading) (hstep : s.step t c = some s') :
    Retires s (.op t c) s' n := by
  have hlife := h.inv.life
  have hnode := h.nodeStep hstep n
  have heffect := (h.turn hstep).effect
  have hnext := heffect.next_le
  constructor
  case removed =>
    intro hhashed hnot
    obtain hkeep | ⟨ino, rfl, -, -⟩ | ⟨htask, -⟩ | ⟨htask, -⟩ := hnode
    · exact absurd ((Sys.hashed_congr hkeep).mpr hhashed) hnot
    · obtain ⟨nd, hn, -⟩ := hhashed
      rw [hlife.fresh le_rfl] at hn
      cases hn
    · obtain ⟨-, nd, hn, hzero, -⟩ := hlife.taskOk htask
      exact ⟨t, c, rfl, htask, hlife.held_eq_zero hn hzero⟩
    · obtain ⟨-, nd, hn, -, hfalse⟩ := hlife.taskOk htask
      obtain ⟨nd', hn', htrue⟩ := hhashed
      rw [hn] at hn'
      cases hn'
      rw [hfalse] at htrue
      cases htrue
  case alone => exact fun u => heffect.task.1
  case freed =>
    intro hne hnone
    obtain hkeep | ⟨ino, -, -, hsome⟩ | ⟨-, nd, hsome, -⟩ | ⟨htask, -⟩ := hnode
    · rw [hnone] at hkeep
      exact absurd (map_eq_none_iff.mp hkeep.symm) hne
    · rw [hnone] at hsome
      cases hsome
    · rw [hnone] at hsome
      cases hsome
    · obtain ⟨-, nd, hn, hzero, -⟩ := hlife.taskOk htask
      exact ⟨t, c, rfl, htask, hlife.held_eq_zero hn hzero⟩
  case same => exact fun u => heffect.task.2
  case off =>
    rintro ⟨hlt, hnot⟩
    refine ⟨hlt.trans_le hnext, fun hhashed => ?_⟩
    obtain hkeep | ⟨ino, rfl, -, -⟩ | ⟨-, nd, hsome, hfalse⟩ | ⟨-, hnone⟩ := hnode
    · exact hnot ((Sys.hashed_congr hkeep).mp hhashed)
    · exact Nat.lt_irrefl _ hlt
    · obtain ⟨nd', hn', htrue⟩ := hhashed
      rw [hsome] at hn'
      cases hn'
      rw [hfalse] at htrue
      cases htrue
    · obtain ⟨nd', hn', -⟩ := hhashed
      rw [hnone] at hn'
      cases hn'
  case dead =>
    rintro ⟨hlt, hnone⟩
    refine ⟨hlt.trans_le hnext, ?_⟩
    obtain hkeep | ⟨ino, rfl, -, -⟩ | ⟨htask, -⟩ | ⟨-, hnone'⟩ := hnode
    · rw [hnone] at hkeep
      exact map_eq_none_iff.mp hkeep
    · exact absurd hlt (Nat.lt_irrefl _)
    · obtain ⟨-, nd, hn, -⟩ := hlife.taskOk htask
      rw [hnone] at hn
      cases hn
    · exact hnone'

theorem Sys.Loading.retires (h : s.Loading) (hstep : LoadStep s e s') : Retires s e s' n := by
  obtain ⟨hstep, -⟩ := hstep
  cases hstep with
  | op hop => exact h.retires_op hop
  | call | give =>
    exact ⟨absurd, fun _ => .inl, fun h h' => absurd h' h, fun _ => .inl, id, id⟩

omit [DecidableEq T] in
theorem Sys.Mounted.loading (h : s.Mounted) : s.Loading where
  inv := h.inv
  loads t := .inl (h.idle t)
  unique n m nd md hn := by
    rw [h.node n] at hn
    cases hn

/-- In every run of threads that load inodes, refer to them and reclaim them,
`reclaim_count` is the number of the triggered reclaims that have not decremented it, and
one more while there are references. A node is taken off the hash list and freed once, by
the reclaim that brings the count to zero and while no thread refers to it, and no two
nodes of the list have one inode number. -/
theorem inode_lifetime {s₀ : Sys T} {es : List (Event T)} (h0 : s₀.Mounted)
    (hrun : Run LoadStep s₀ es s) :
    (∀ n nd, s.node n = some nd → nd.refCount = ∑ t, s.held t n ∧
      nd.reclaimCount = s.pendings n + if 0 < nd.refCount then 1 else 0) ∧
    s.HashUnique ∧ ∀ e s' n, LoadStep s e s' → Retires s e s' n := by
  have h : s.Loading := hrun.invariant (fun _ _ _ h => h.step) h0.loading
  refine ⟨fun n nd hn => ?_, h.unique, fun e s' n => h.retires⟩
  obtain ⟨hcount, hreclaims⟩ := h.inv.life.counts hn
  refine ⟨hcount, ?_⟩
  rw [← hcount] at hreclaims
  by_cases hzero : nd.refCount = 0
  · simpa [hzero] using hreclaims
  · rw [if_neg hzero] at hreclaims
    rw [if_pos (Nat.pos_of_ne_zero hzero)]
    exact hreclaims

/-- A thread loads the root, and drops its reference while another one looks the root up. -/
def dropWhileLoading : List (Event Bool) :=
  [.call true (.load 1), .op true 0, .op true 0, .op true 0, .op true 1, .op true 0, .op true 0,
    .call true (.refDec 0), .op true 0, .call false (.load 1), .op false 0, .op false 0]

/-- The second thread has found the root again before the reclaim of the first one: the
count is two, and the node stays. -/
theorem inode_lifetime_resurrect : ∃ s nd, Run LoadStep (Sys.mount Bool 8) dropWhileLoading s ∧
    s.node 0 = some nd ∧ nd.refCount = 1 ∧ s.pendings 0 = 1 ∧ nd.reclaimCount = 2 := by
  have hex : ∃ s, (Sys.mount Bool 8).exec dropWhileLoading = some s ∧
      s.node 0 = some ⟨1, 1, 2, true⟩ ∧ s.task true = .pending 0 ∧ s.task false = .none :=
    ⟨_, rfl, rfl, rfl, rfl⟩
  obtain ⟨s, hexec, hnode, htrue, hfalse⟩ := hex
  have hrun : Run LoadStep (Sys.mount Bool 8) dropWhileLoading s := by
    refine Run.of_exec (fun s e s' he hs => ⟨hs, ?_⟩) hexec
    simp only [dropWhileLoading, List.mem_cons, List.not_mem_nil, or_false] at he
    rcases he with rfl | rfl | rfl | rfl | rfl | rfl | rfl | rfl | rfl | rfl | rfl | rfl <;>
      trivial
  have hcount := ((inode_lifetime Sys.mounted_mount hrun).1 0 _ hnode).2
  have hpendings : s.pendings 0 = 1 := by
    rw [Sys.pendings, Fintype.sum_bool, htrue, hfalse]
    rfl
  exact ⟨s, _, hrun, hnode, rfl, hpendings, by rw [hcount, hpendings]; rfl⟩

end Ucore.Threads
