import Ucore.Lib.Sums
import Ucore.Threads.Discipline

/-!
# The life of an inode in memory

A node is found again by `lookup_sfs_nolock` while a reclaim of it is on its way, so that
the reference count alone does not tell who may free it. The second counter does:
`reclaim_count` is the number of reclaims that have been triggered and have not decremented
it, and one more while there are references. The reclaim that brings it to zero is alone
with the node.
-/

namespace Ucore.Threads

open Function Option

variable {T : Type} {s s₁ s' : Sys T} {t u : T} {n c x ino : ℕ} {nd : Node} {o : Option Node}
  {k : Task} {l : Lock} {strict : Prop} {p : Prog}

/-- What the thread `t` has in hand. -/
def Sys.ctx (s : Sys T) (t : T) : Ctx := ⟨{l | s.owner l = some t}, s.held t, s.task t⟩

/-- The counters of a node, which are zero where there is none. -/
def Sys.counters (s : Sys T) (n : ℕ) : ℕ × ℕ :=
  (s.node n).elim (0, 0) fun nd => (nd.refCount, nd.reclaimCount)

/-- What the task of a thread says of the nodes. -/
def Sys.TaskOk (s : Sys T) (t : T) : Task → Prop
  | .none | .pending _ => True
  | .reclaiming n => s.owner .fs = some t ∧
      ∃ nd, s.node n = some nd ∧ nd.reclaimCount = 0 ∧ nd.hashed = true
  | .killing n => (∀ u, s.task u = .killing n → u = t) ∧
      ∃ nd, s.node n = some nd ∧ nd.reclaimCount = 0 ∧ nd.hashed = false
  | .making n => (∀ u, s.task u = .making n → u = t) ∧ 0 < s.held t n ∧
      ∃ nd, s.node n = some nd ∧ nd.hashed = false
  | .absent ino => s.owner .fs = some t ∧
      ∀ n nd, s.node n = some nd → nd.hashed = true → nd.ino ≠ ino

/-! ## What an operation changes -/

/-- What an operation of `t` can make of the node `n`, of its references to it, of its task and
of the place for the next node. -/
inductive Change (s : Sys T) (t : T) (n : ℕ) : Option Node → ℕ → Task → ℕ → Prop
  | stay : Change s t n (s.node n) (s.held t n) (s.task t) s.next
  | absent {ino : ℕ} (htask : s.task t = .none) (howner : s.owner .fs = some t)
      (hnone : ∀ m nd, s.node m = some nd → nd.hashed = true → nd.ino ≠ ino) :
      Change s t n (s.node n) (s.held t n) (.absent ino) s.next
  | find {nd : Node} (hn : s.node n = some nd) (hhashed : nd.hashed = true)
      (htask : s.task t = .none) (howner : s.owner .fs = some t) :
      Change s t n (some nd.referenced) (s.held t n + 1) .none s.next
  | install {ino : ℕ} (hnext : n = s.next) (htask : s.task t = .absent ino) :
      Change s t n (some ⟨ino, 1, 1, true⟩) 1 .none (s.next + 1)
  | alloc {ino : ℕ} (hcreates : (s.call t).creates) (hnext : n = s.next)
      (htask : s.task t = .none) :
      Change s t n (some ⟨ino, 1, 1, false⟩) 1 (.making n) (s.next + 1)
  | setLinks {nd : Node} (hcreates : (s.call t).creates) (hn : s.node n = some nd)
      (htask : s.task t = .making n) (howner : s.owner .fs = some t) :
      Change s t n (some { nd with hashed := true }) (s.held t n) .none s.next
  | removeLinks {nd : Node} (hn : s.node n = some nd) (htask : s.task t = .reclaiming n) :
      Change s t n (some { nd with hashed := false }) (s.held t n) (.killing n) s.next
  | kill {nd : Node} (hn : s.node n = some nd) (htask : s.task t = .killing n) :
      Change s t n none (s.held t n) .none s.next
  | refInc {nd : Node} (hn : s.node n = some nd) (hheld : 0 < s.held t n)
      (htask : s.task t = .none) :
      Change s t n (some { nd with refCount := nd.refCount + 1 }) (s.held t n + 1) .none s.next
  | refDec {nd : Node} (hn : s.node n = some nd) (hheld : 0 < s.held t n)
      (htask : s.task t = .none) (hguard : s.owner (.sem n) = some t → 1 < s.held t n) :
      Change s t n (some { nd with refCount := nd.refCount - 1 }) (s.held t n - 1)
        (if nd.refCount = 1 then .pending n else .none) s.next
  | reclaimDec {nd : Node} (hn : s.node n = some nd) (hne : nd.reclaimCount ≠ 0)
      (htask : s.task t = .pending n) (howner : s.owner .fs = some t) :
      Change s t n (some { nd with reclaimCount := nd.reclaimCount - 1 }) (s.held t n)
        (if nd.reclaimCount = 1 then .reclaiming n else .none) s.next

theorem Sys.find_eq_some (hfind : s.find ino = some n) :
    ∃ nd, s.node n = some nd ∧ nd.hashed = true ∧ nd.ino = ino := by
  have h := List.find?_some hfind
  cases hn : s.node n with
  | none => simp [hn] at h
  | some nd =>
    simp only [hn, Bool.and_eq_true, beq_iff_eq] at h
    exact ⟨nd, rfl, h.1, h.2⟩

section Operations

variable [DecidableEq T]

/-- The node, the references and the task are set. -/
structure Sets (s s' : Sys T) (t : T) (n : ℕ) (o : Option Node) (c : ℕ) (k : Task) (x : ℕ) :
    Prop where
  node : s'.node = update s.node n o
  held : s'.held = update s.held t (update (s.held t) n c)
  task : s'.task = update s.task t k
  next : s'.next = x
  owner : s'.owner = s.owner

/-- A semaphore is taken or released, and what the thread did under `fs_sem` goes with it. -/
structure Locks (s s' : Sys T) (t : T) (l : Lock) (o : Option T) : Prop where
  owner : s'.owner = update s.owner l o
  task : s'.task = update s.task t (if l = .fs ∧ o = none then (s.task t).unlocked else s.task t)
  node : s'.node = s.node
  held : s'.held = s.held
  next : s'.next = s.next
  before : s.owner l = none ∨ s.owner l = some t
  after : o = none ∨ o = some t
  may : ∀ n, l = .sem n → o = some t → 0 < s.held t n ∨ s.owner .fs = some t
  guard : l = .fs → o = none → ∀ n, s.owner (.sem n) = some t → 0 < s.held t n

/-- What an operation of `t` does. -/
inductive Effect (s s' : Sys T) (t : T) : Prop
  | change {n : ℕ} {o : Option Node} {c : ℕ} {k : Task} {x : ℕ}
      (hsets : Sets s s' t n o c k x) (hchange : Change s t n o c k x)
  | lock {l : Lock} {o : Option T} (hlocks : Locks s s' t l o)

theorem Task.unlocked_cases (k : Task) : k.unlocked = k ∧ (∀ n, k ≠ .reclaiming n) ∧
      (∀ ino, k ≠ .absent ino) ∨
    k.unlocked = .none ∧ ∀ n, k ≠ .pending n ∧ k ≠ .killing n ∧ k ≠ .making n := by
  cases k <;> simp [Task.unlocked]

theorem Sets.node_apply (hsets : Sets s s' t n o c k x) (m : ℕ) :
    s'.node m = if m = n then o else s.node m := by
  rw [hsets.node, update_apply]

theorem Sets.held_apply (hsets : Sets s s' t n o c k x) (u : T) (m : ℕ) :
    s'.held u m = if u = t ∧ m = n then c else s.held u m := by
  rw [hsets.held, update_apply]
  grind

theorem Sets.task_apply (hsets : Sets s s' t n o c k x) (u : T) :
    s'.task u = if u = t then k else s.task u := by
  rw [hsets.task, update_apply]

/-- The other threads keep what they have in hand. -/
theorem Effect.ctx_of_ne (h : Effect s s' t) (hu : u ≠ t) : s'.ctx u = s.ctx u := by
  cases h with
  | change hsets _ =>
    rw [Sys.ctx, hsets.owner, hsets.held, hsets.task, update_of_ne hu, update_of_ne hu]
    rfl
  | lock hlocks =>
    have hall : ∀ l, s'.owner l = some u ↔ s.owner l = some u := by
      have hbefore := hlocks.before
      have hafter := hlocks.after
      intro l
      rw [hlocks.owner]
      grind
    simp only [Sys.ctx, hall, hlocks.held, hlocks.task, update_of_ne hu]

/-- An operation of `t`, after which its program still respects the counters. -/
structure Turn (strict : Prop) (s s' : Sys T) (t : T) : Prop where
  effect : Effect s s' t
  call : s'.call = s.call
  prog : ∀ u, u ≠ t → s'.prog u = s.prog u
  ok : Ok strict (s.call t) (s'.ctx t) (s'.prog t)

/-- A step of `t` leaves every thread in the call it is in, or lets `t` return. -/
theorem Turn.busy (h : Turn strict s s' t) (hstep : s.step t c = some s') (hbusy : ¬s'.Idle u) :
    ¬s.Idle u ∧ s'.call u = s.call u := by
  refine ⟨fun hidle => ?_, by rw [h.call]⟩
  have hret : s.prog u = .ret := hidle
  rcases eq_or_ne u t with rfl | hu
  · simp [Sys.step, hret] at hstep
  · exact hbusy ((h.prog u hu).trans hret)

theorem Turn.of_change (hsets : Sets s s' t n o c k x) (hchange : Change s t n o c k x)
    (hcall : s'.call = s.call) (hprog : s'.prog = update s.prog t p)
    (hok : Ok strict (s.call t) ⟨(s.ctx t).locks, update (s.held t) n c, k⟩ p) :
    Turn strict s s' t := by
  refine ⟨.change hsets hchange, hcall, fun u hu => by rw [hprog, update_of_ne hu], ?_⟩
  rw [hprog, update_self, Sys.ctx, hsets.owner, hsets.held, hsets.task, update_self, update_self]
  exact hok

theorem Turn.of_lock {o : Option T} (hlocks : Locks s s' t l o) (hcall : s'.call = s.call)
    (hprog : s'.prog = update s.prog t p)
    (hok : Ok strict (s.call t) ⟨{l' | update s.owner l o l' = some t}, s.held t,
      if l = .fs ∧ o = none then (s.task t).unlocked else s.task t⟩ p) : Turn strict s s' t := by
  refine ⟨.lock hlocks, hcall, fun u hu => by rw [hprog, update_of_ne hu], ?_⟩
  rw [hprog, update_self, Sys.ctx, hlocks.owner, hlocks.held, hlocks.task, update_self]
  exact hok

theorem Sys.held_same (s : Sys T) (t : T) (n : ℕ) :
    s.held = update s.held t (update (s.held t) n (s.held t n)) := by
  rw [update_eq_self, update_eq_self]

/-- An operation that changes nothing of this. -/
theorem Turn.of_same (hok : Ok strict (s.call t) (s.ctx t) p) (f : Links) (r : ℕ → Bool) :
    Turn strict s { s.goto t p with links := f, removed := r } t := by
  refine Turn.of_change (n := 0) ⟨?_, ?_, ?_, rfl, rfl⟩ .stay rfl rfl ?_
  · exact (update_eq_self ..).symm
  · exact s.held_same t 0
  · exact (update_eq_self ..).symm
  · rw [update_eq_self]
    exact hok

end Operations

/-! ## The counters -/

variable [Fintype T]

/-- The references to `n` that the threads hold. -/
def Sys.refs (s : Sys T) (n : ℕ) : ℕ := ∑ t, s.held t n

/-- The reclaims of `n` that have been triggered and have not yet decremented its
`reclaim_count`. -/
def Sys.pendings (s : Sys T) (n : ℕ) : ℕ := ∑ t, if s.task t = .pending n then 1 else 0

/-- The counters of the nodes, and what the threads know of them. -/
structure Lifetimes (s : Sys T) : Prop where
  count : ∀ n, s.counters n = (s.refs n, s.pendings n + if s.refs n = 0 then 0 else 1)
  fresh : ∀ {n}, s.next ≤ n → s.node n = none
  task : ∀ t, s.TaskOk t (s.task t)
  unhashed : ∀ {n nd}, s.node n = some nd → nd.hashed = false →
    ∃ t, s.task t = .killing n ∨ s.task t = .making n
  guarded : ∀ {t n}, s.owner (.sem n) = some t → 0 < s.held t n ∨ s.owner .fs = some t

theorem Sys.held_le_refs (s : Sys T) (t : T) (n : ℕ) : s.held t n ≤ s.refs n :=
  Finset.single_le_sum (f := fun t => s.held t n) (fun _ _ => Nat.zero_le _) (Finset.mem_univ t)

theorem Sys.pendings_pos (s : Sys T) (htask : s.task t = .pending n) : 0 < s.pendings n := by
  have h := Finset.single_le_sum (f := fun t => if s.task t = .pending n then 1 else 0)
    (fun _ _ => Nat.zero_le _) (Finset.mem_univ t)
  rw [if_pos htask] at h
  exact h

namespace Lifetimes

variable (h : Lifetimes s)
include h

theorem taskOk {k : Task} (htask : s.task t = k) : s.TaskOk t k := by
  rw [← htask]
  exact h.task t

theorem counts (hn : s.node n = some nd) : nd.refCount = s.refs n ∧
    nd.reclaimCount = s.pendings n + if s.refs n = 0 then 0 else 1 := by
  have hcount := h.count n
  rw [Sys.counters, hn] at hcount
  exact Prod.mk.inj hcount

theorem missing (hn : s.node n = none) : s.refs n = 0 ∧ s.pendings n = 0 := by
  have hcount := h.count n
  rw [Sys.counters, hn] at hcount
  obtain ⟨hrefs, hpendings⟩ := Prod.mk.inj hcount
  omega

/-- No thread refers to a node whose `reclaim_count` is zero. -/
theorem held_eq_zero (hn : s.node n = some nd) (hzero : nd.reclaimCount = 0) (u : T) :
    s.held u n = 0 := by
  have hcount := (h.counts hn).2
  have hle := s.held_le_refs u n
  split_ifs at hcount <;> omega

/-- The counters after an operation of one thread. -/
theorem count_of (hheld : ∀ u, u ≠ t → s₁.held u = s.held u)
    (htask : ∀ u, u ≠ t → s₁.task u = s.task u)
    (hrefs : (s₁.counters n).1 + s.held t n = (s.counters n).1 + s₁.held t n)
    (hreclaims : (s₁.counters n).2 + (if s.task t = .pending n then 1 else 0) +
      (if (s.counters n).1 = 0 then 0 else 1) = (s.counters n).2 +
      (if s₁.task t = .pending n then 1 else 0) + if (s₁.counters n).1 = 0 then 0 else 1) :
    s₁.counters n = (s₁.refs n, s₁.pendings n + if s₁.refs n = 0 then 0 else 1) := by
  have hsum : s₁.refs n + s.held t n = s.refs n + s₁.held t n :=
    sum_add_of_eq (s₁.held · n) (s.held · n) fun u hu => by rw [hheld u hu]
  have hsum' : s₁.pendings n + (if s.task t = .pending n then 1 else 0) =
      s.pendings n + if s₁.task t = .pending n then 1 else 0 :=
    sum_add_of_eq (fun u => if s₁.task u = .pending n then 1 else 0)
      (fun u => if s.task u = .pending n then 1 else 0) fun u hu => by rw [htask u hu]
  rw [h.count] at hrefs hreclaims
  dsimp only at hrefs hreclaims
  have hself : (s₁.counters n).1 = s₁.refs n := by omega
  rw [hself] at hreclaims
  exact Prod.ext hself (by omega)

end Lifetimes

theorem Lifetimes.find_eq_none (h : Lifetimes s) (hfind : s.find ino = none) :
    ∀ n nd, s.node n = some nd → nd.hashed = true → nd.ino ≠ ino := by
  intro n nd hn hhashed hino
  have hlt : n < s.next := by
    by_contra hle
    have hnone := h.fresh (Nat.le_of_not_lt hle)
    rw [hn] at hnone
    cases hnone
  have hnot := List.find?_eq_none.mp hfind n (List.mem_range.mpr hlt)
  simp [hn, hhashed, hino] at hnot

/-- The counters are right, and every thread is in a program that respects them. -/
structure Sys.Inv (strict : Prop) (s : Sys T) : Prop where
  life : Lifetimes s
  ok : ∀ t, Ok strict (s.call t) (s.ctx t) (s.prog t)

/-- A thread between two calls has nothing in hand but its references. -/
theorem Sys.Inv.ctx_idle (h : s.Inv strict) (hidle : s.Idle t) : s.ctx t = .idle (s.held t) := by
  have hok := h.ok t
  rw [hidle] at hok
  obtain ⟨hlocks, htask⟩ := hok
  rw [Ctx.idle, ← hlocks, ← htask]
  rfl

theorem Sys.Mounted.inv (h : s.Mounted) : s.Inv strict := by
  have hrefs : ∀ n, s.refs n = 0 := fun n => by simp [Sys.refs, h.held]
  have hpendings : ∀ n, s.pendings n = 0 := fun n => by simp [Sys.pendings, h.task]
  refine ⟨?_, fun t => ?_⟩
  · constructor
    case count => exact fun n => by rw [hrefs, hpendings, Sys.counters, h.node n]; rfl
    case fresh => exact fun _ => h.node _
    case task => exact fun t => by rw [h.task t]; trivial
    all_goals simp [h.node, h.owner]
  · rw [h.idle t]
    refine ⟨?_, h.task t⟩
    ext l
    simp [Sys.ctx, h.owner]

/-! ## What an operation keeps -/

variable [DecidableEq T]

theorem Lifetimes.lock {o : Option T} (h : Lifetimes s) (hlocks : Locks s s' t l o) :
    Lifetimes s' := by
  obtain ⟨howner, htask, hnode, hheld, hnext, hbefore, hafter, hmay, hguard⟩ := hlocks
  have hun := (s.task t).unlocked_cases
  simp only [funext_iff, update_apply] at howner htask hnode
  constructor
  case count =>
    intro n
    refine h.count_of (fun u _ => by rw [hheld]) (fun u hu => by rw [htask, if_neg hu])
      (by rw [Sys.counters, hnode, hheld]; rfl) ?_
    simp only [Sys.counters, hnode]
    grind
  case fresh =>
    intro n hn
    rw [hnode]
    exact h.fresh (hnext ▸ hn)
  case task =>
    intro u
    have hu := h.task u
    cases hnew : s'.task u <;> grind [Sys.TaskOk]
  case unhashed =>
    intro m nd hm hhashed
    rw [hnode] at hm
    have hold := h.unhashed hm hhashed
    grind
  case guarded =>
    intro u m hu
    have hold := h.guarded (t := u) (n := m)
    grind

section Change

variable (h : Lifetimes s) (hsets : Sets s s' t n o c k x) (hchange : Change s t n o c k x)
include h hsets hchange

theorem Lifetimes.count_change (m : ℕ) :
    s'.counters m = (s'.refs m, s'.pendings m + if s'.refs m = 0 then 0 else 1) := by
  have hall := h.task
  have hle := fun u => s.held_le_refs u n
  have hcount := h.count n
  have hfresh := @h.fresh n
  have hcounts : s'.counters m = if m = n then
      o.elim (0, 0) fun nd => (nd.refCount, nd.reclaimCount) else s.counters m := by
    rw [Sys.counters, hsets.node_apply]
    split <;> rfl
  refine h.count_of (fun u hu => by rw [hsets.held, update_of_ne hu])
    (fun u hu => by rw [hsets.task_apply, if_neg hu]) ?_ ?_
  · rw [hcounts, hsets.held_apply]
    rcases eq_or_ne m n with rfl | hmn
    · cases hchange <;> grind [Sys.counters, Sys.TaskOk, Node.referenced]
    · simp [hmn]
  · rw [hsets.task_apply]
    rcases eq_or_ne m n with rfl | hmn
    · cases hchange <;> grind [Sys.counters, Sys.TaskOk, Node.referenced]
    · cases hchange <;> grind

theorem Lifetimes.task_change_self : s'.TaskOk t k := by
  have hnode := hsets.node_apply
  have hheld := hsets.held_apply
  have htask := hsets.task_apply
  have howner := hsets.owner
  have hall := h.task
  have hle := fun u => s.held_le_refs u n
  have hcount := h.count n
  have hfresh := @h.fresh n
  have hunhashed := @h.unhashed n
  have hpos := s.pendings_pos (t := t) (n := n)
  cases hchange with
  | stay => cases hk : s.task t <;> grind [Sys.TaskOk]
  | _ => grind [Sys.TaskOk, Sys.counters, Node.referenced]

theorem Lifetimes.task_change_of_ne (hu : u ≠ t) : s'.TaskOk u (s.task u) := by
  have hnode := hsets.node_apply
  have hheld := hsets.held_apply
  have htask := hsets.task_apply
  have howner := hsets.owner
  have hall := h.task
  have hfresh := @h.fresh n
  have halone := @h.held_eq_zero _ _ n
  cases hku : s.task u with
  | none | pending m => trivial
  | reclaiming | killing | making | absent => cases hchange <;> grind [Sys.TaskOk, Node.referenced]

/-- Every change keeps the counters right. -/
theorem Lifetimes.change : Lifetimes s' where
  count := h.count_change hsets hchange
  task u := by
    rw [hsets.task_apply]
    split_ifs with hu
    · rw [hu]
      exact h.task_change_self hsets hchange
    · exact h.task_change_of_ne hsets hchange hu
  fresh {m} hm := by
    have hold := @h.fresh m
    have hnext := hsets.next
    rw [hsets.node_apply]
    cases hchange <;> grind
  unhashed {m md} hm hmd := by
    have hold := @h.unhashed m
    have htask := hsets.task_apply
    rw [hsets.node_apply] at hm
    cases hchange <;> grind [Node.referenced, Sys.TaskOk]
  guarded {u m} hu := by
    have hold := @h.guarded u m
    rw [hsets.owner] at hu ⊢
    rw [hsets.held_apply]
    cases hchange <;> grind

end Change

/-- A thread between two calls leaves a reference to another one. -/
theorem Lifetimes.give (h : Lifetimes s) (htask : s.task t = .none)
    (hlocks : ∀ l, s.owner l ≠ some t) (hheld : 0 < s.held t n) :
    Lifetimes ((s.setHeld t n (s.held t n - 1)).setHeld u n
      ((s.setHeld t n (s.held t n - 1)).held u n + 1)) := by
  generalize hs₁ : s.setHeld t n (s.held t n - 1) = s₁
  generalize hs' : s₁.setHeld u n (s₁.held u n + 1) = s'
  have hheld₁ : ∀ v m, s₁.held v m = s.held v m - if v = t ∧ m = n then 1 else 0 := by
    rw [← hs₁]
    simp only [Sys.setHeld, update_apply]
    grind
  have hheld' : ∀ v m, s'.held v m = s₁.held v m + if v = u ∧ m = n then 1 else 0 := by
    rw [← hs']
    simp only [Sys.setHeld, update_apply]
    grind
  have hrefs : s'.refs = s.refs := by
    funext m
    have hfirst : s₁.refs m + s.held t m = s.refs m + s₁.held t m :=
      sum_add_of_eq (s₁.held · m) (s.held · m) fun v hv => by simp [hheld₁, hv]
    have hsecond : s'.refs m + s₁.held u m = s₁.refs m + s'.held u m :=
      sum_add_of_eq (s'.held · m) (s₁.held · m) fun v hv => by simp [hheld', hv]
    grind
  have hsame : (∀ m, s'.node m = s.node m) ∧ s'.next = s.next ∧ (∀ v, s'.task v = s.task v) ∧
      ∀ l, s'.owner l = s.owner l := by
    rw [← hs', ← hs₁]
    exact ⟨fun _ => rfl, rfl, fun _ => rfl, fun _ => rfl⟩
  obtain ⟨hnode, hnext, htask', howner⟩ := hsame
  have hpendings : s'.pendings = s.pendings := by
    funext m
    simp only [Sys.pendings, htask']
  constructor
  case count =>
    intro m
    rw [Sys.counters, hnode, hrefs, hpendings]
    exact h.count m
  case task =>
    intro v
    have hv := h.task v
    cases hnew : s'.task v <;> grind [Sys.TaskOk]
  case guarded =>
    intro v m hv
    have hold := @h.guarded v m
    grind
  case fresh =>
    intro m hm
    rw [hnode]
    exact h.fresh (hnext ▸ hm)
  case unhashed =>
    simp only [hnode, htask']
    exact h.unhashed

/-! ## Steps -/

theorem Sys.Inv.turn (h : s.Inv strict) (hturn : Turn strict s s' t) : s'.Inv strict where
  life := by
    cases hturn.effect with
    | change hsets hchange => exact h.life.change hsets hchange
    | lock hlocks => exact h.life.lock hlocks
  ok u := by
    rw [hturn.call]
    rcases eq_or_ne u t with rfl | hu
    · exact hturn.ok
    · rw [hturn.effect.ctx_of_ne hu, hturn.prog u hu]
      exact h.ok u

/-- `sfs_unlink` does not look up its own directory. -/
def Sys.Avoids (s : Sys T) (t : T) : Prop :=
  ∀ ino k d nd, s.prog t = .lookup ino k → (s.call t).target = some d → s.node d = some nd →
    nd.ino ≠ ino

section

variable (h : s.Inv strict) (hstep : s.step t c = some s')
include h hstep

/-- `down` gives the lock to the thread. -/
theorem Sys.Inv.turn_of_down {k : Prog} (hp : s.prog t = .down l k) : Turn strict s s' t := by
  have hok := h.ok t
  unfold Sys.step at hstep
  simp only [hp, ite_none_right_eq_some, Option.some.injEq] at hstep hok
  obtain ⟨hfree, rfl⟩ := hstep
  obtain ⟨hmay, hk⟩ := hok
  have hlocks : {l' | update s.owner l (some t) l' = some t} = insert l (s.ctx t).locks := by
    ext l'
    simp only [update_apply, Sys.ctx, Set.mem_ofPred_eq, Set.mem_insert_iff]
    grind
  have hnot : l ∉ (s.ctx t).locks := fun hl => by
    have howner : s.owner l = some t := hl
    rw [hfree] at howner
    cases howner
  refine .of_lock ⟨rfl, ?_, rfl, rfl, rfl, .inl hfree, .inr rfl,
    fun n hl _ => hmay.1 n hl, nofun⟩ rfl rfl ?_
  · simp [Sys.goto, Sys.setOwner]
  · rw [hlocks, if_neg (by simp)]
    exact hk hnot

/-- `up` takes it away. -/
theorem Sys.Inv.turn_of_up {k : Prog} (hp : s.prog t = .up l k) : Turn strict s s' t := by
  have hok := h.ok t
  unfold Sys.step at hstep
  simp only [hp, Option.some.injEq] at hstep hok
  subst hstep
  obtain ⟨howner, hguard, hk⟩ := hok
  have hlocks : {l' | update s.owner l none l' = some t} = (s.ctx t).locks \ {l} := by
    ext l'
    simp only [update_apply, Sys.ctx, Set.mem_ofPred_eq, Set.mem_sdiff, Set.mem_singleton_iff]
    grind
  refine .of_lock ⟨rfl, ?_, rfl, rfl, rfl, .inr howner, .inl rfl,
    nofun, fun hl _ => hguard hl⟩ rfl rfl ?_
  · simp [Sys.goto, Sys.setTask, Sys.setOwner]
  · simp only [hlocks, and_true]
    exact hk

/-- `lookup_sfs_nolock` returns a hashed inode, or there is none. -/
theorem Sys.Inv.turn_of_lookup {k : Option ℕ → Prog} (hp : s.prog t = .lookup ino k)
    (havoid : strict → s.Avoids t) : Turn strict s s' t := by
  have hok := h.ok t
  unfold Sys.step at hstep
  simp only [hp] at hstep hok
  obtain ⟨howner, htask, hnone, hsome⟩ := hok
  cases hfind : s.find ino with
  | none =>
    simp only [hfind, Option.some.injEq] at hstep
    subst hstep
    refine .of_change ⟨(update_eq_self ..).symm, s.held_same t 0, rfl, rfl, rfl⟩
      (.absent htask howner (h.life.find_eq_none hfind)) rfl rfl ?_
    rw [update_eq_self]
    exact hnone
  | some n =>
    obtain ⟨nd, hn, hhashed, hino⟩ := Sys.find_eq_some hfind
    simp only [hfind, hn, map_some, Option.some.injEq] at hstep
    subst hstep
    refine .of_change ⟨rfl, rfl, ?_, rfl, rfl⟩ (.find hn hhashed htask howner) rfl rfl ?_
    · exact (update_eq_self_iff.mpr htask.symm).symm
    · have hok' := hsome n fun hs htarget => havoid hs ino k n nd hp htarget hn hino
      rw [← htask]
      exact hok'

/-- `inode_ref_dec` gives a reference back. -/
theorem Sys.Inv.turn_of_refDec {k : Bool → Prog} (hp : s.prog t = .refDec n k) :
    Turn strict s s' t := by
  have hok := h.ok t
  unfold Sys.step at hstep
  simp only [hp, bind_eq_some_iff, ite_none_left_eq_some, Option.some.injEq] at hstep hok
  obtain ⟨nd, hn, -, rfl⟩ := hstep
  obtain ⟨hpos, htask, hguard, hk⟩ := hok
  have htask' : s.task t = .none := htask
  refine .of_change ⟨rfl, rfl, ?_, rfl, rfl⟩ (.refDec hn hpos htask fun hsem => ?_) rfl rfl ?_
  · rw [← htask']
    rfl
  · have hdrop := hguard n hsem
    simp only [Ctx.drop, update_self] at hdrop
    exact Nat.lt_of_sub_pos hdrop
  · have hk' := hk (decide (nd.refCount = 1)) fun hone => by
      have hone' := of_decide_eq_true hone
      have hcount := (h.life.counts hn).1
      have hle := s.held_le_refs t n
      have hpos' : 0 < s.held t n := hpos
      show s.held t n = 1
      omega
    simp only [decide_eq_true_eq] at hk'
    exact hk'

/-- What a step of one thread is. -/
theorem Sys.Inv.turn_of_step (havoid : strict → s.Avoids t) : Turn strict s s' t := by
  have hlife := h.life
  have hok := h.ok t
  have hmove := hstep
  have hnew : s.held t s.next = 0 := by
    have hle := s.held_le_refs t s.next
    have hzero := (hlife.missing (hlife.fresh (Nat.le_refl s.next))).1
    omega
  unfold Sys.step at hstep
  cases hp : s.prog t with
  | ret => simp [hp] at hstep
  | choose k | isRemoved m k | search m k | isDir m k | isEmpty m k | getParent m k =>
    simp only [hp, Option.some.injEq] at hstep hok
    subst hstep
    exact .of_same (hok _) _ _
  | listNext k =>
    simp only [hp, bind_eq_some_iff, ite_none_right_eq_some, Option.some.injEq] at hstep hok
    obtain ⟨nd, -, -, rfl⟩ := hstep
    exact .of_same (hok c) _ _
  | freeIno n k =>
    simp only [hp, map_eq_some_iff] at hstep hok
    obtain ⟨nd, -, rfl⟩ := hstep
    exact .of_same hok.2 _ _
  | edit e n m k =>
    simp only [hp, bind_eq_some_iff, map_eq_some_iff] at hstep hok
    obtain ⟨nd, -, md, -, links, -, rfl⟩ := hstep
    exact Turn.of_same (p := k) hok _ _
  | down l k => exact h.turn_of_down hmove hp
  | up l k => exact h.turn_of_up hmove hp
  | lookup ino k => exact h.turn_of_lookup hmove hp havoid
  | install ino k =>
    simp only [hp, Option.some.injEq] at hstep hok
    subst hstep
    obtain ⟨howner, htask, hk⟩ := hok
    refine .of_change ⟨rfl, rfl, rfl, rfl, rfl⟩ (.install rfl htask) rfl rfl ?_
    have hk' := hk s.next hnew
    simp only [Sys.ctx, Ctx.hold, hnew] at hk'
    exact hk'
  | alloc isDir k =>
    simp only [hp, ite_none_right_eq_some, Option.some.injEq] at hstep hok
    obtain ⟨-, rfl⟩ := hstep
    obtain ⟨hcreates, htask, hk⟩ := hok
    refine .of_change ⟨rfl, rfl, rfl, rfl, rfl⟩ (.alloc hcreates rfl htask) rfl rfl ?_
    have hk' := hk s.next hnew
    simp only [Sys.ctx, Ctx.hold, hnew] at hk'
    exact hk'
  | setLinks n k =>
    simp only [hp, map_eq_some_iff] at hstep hok
    obtain ⟨nd, hn, rfl⟩ := hstep
    obtain ⟨hcreates, howner, htask, hk⟩ := hok
    refine .of_change ⟨rfl, s.held_same t n, rfl, rfl, rfl⟩ (.setLinks hcreates hn htask howner)
      rfl rfl ?_
    rw [update_eq_self]
    exact hk
  | removeLinks n k =>
    simp only [hp, map_eq_some_iff] at hstep hok
    obtain ⟨nd, hn, rfl⟩ := hstep
    obtain ⟨-, htask, hk⟩ := hok
    refine .of_change ⟨rfl, s.held_same t n, rfl, rfl, rfl⟩ (.removeLinks hn htask) rfl rfl ?_
    rw [update_eq_self]
    exact hk _
  | kill n k =>
    simp only [hp, map_eq_some_iff] at hstep hok
    obtain ⟨nd, hn, rfl⟩ := hstep
    refine .of_change ⟨rfl, s.held_same t n, rfl, rfl, rfl⟩ (.kill hn hok.1) rfl rfl ?_
    rw [update_eq_self]
    exact hok.2
  | refInc n k =>
    simp only [hp, map_eq_some_iff] at hstep hok
    obtain ⟨nd, hn, rfl⟩ := hstep
    obtain ⟨hpos, htask, hk⟩ := hok
    refine .of_change ⟨rfl, rfl, ?_, rfl, rfl⟩ (.refInc hn hpos htask) rfl rfl ?_
    · exact (update_eq_self_iff.mpr htask.symm).symm
    · rw [← htask]
      exact hk
  | refDec n k => exact h.turn_of_refDec hmove hp
  | reclaimDec n k =>
    simp only [hp, bind_eq_some_iff, ite_none_left_eq_some, Option.some.injEq] at hstep hok
    obtain ⟨nd, hn, hne, rfl⟩ := hstep
    obtain ⟨howner, htask, hk⟩ := hok
    refine .of_change ⟨rfl, s.held_same t n, rfl, rfl, rfl⟩ (.reclaimDec hn hne htask howner)
      rfl rfl ?_
    have hk' := hk (decide (nd.reclaimCount = 1))
    simp only [decide_eq_true_eq] at hk'
    rw [update_eq_self]
    exact hk'

end

theorem Sys.Inv.step {e : Event T} (h : s.Inv strict)
    (havoid : ∀ t c, e = .op t c → strict → s.Avoids t) (hstep : SysStep s e s') :
    s'.Inv strict := by
  cases hstep with
  | op hop => exact h.turn (h.turn_of_step hop (havoid _ _ rfl))
  | @call t c hidle hnodes =>
    refine ⟨{ h.life with }, fun u => ?_⟩
    rcases eq_or_ne u t with rfl | hu
    · show Ok strict (update s.call u c u) (s.ctx u) (update s.prog u c.prog u)
      rw [update_self, update_self, h.ctx_idle hidle]
      exact ok_prog c hnodes
    · show Ok strict (update s.call t c u) (s.ctx u) (update s.prog t c.prog u)
      rw [update_of_ne hu, update_of_ne hu]
      exact h.ok u
  | @give t u n hidle hidle' hheld =>
    have hctx := h.ctx_idle hidle
    have htask : s.task t = .none := congrArg Ctx.task hctx
    have hlocks : ∀ l, s.owner l ≠ some t := by
      intro l hl
      have hmem : l ∈ (s.ctx t).locks := hl
      rw [hctx] at hmem
      exact hmem
    refine ⟨h.life.give htask hlocks hheld, fun v => ?_⟩
    by_cases hv : v = t ∨ v = u
    · -- the program is over, and asks for no reference
      have hret : s.prog v = .ret := by
        rcases hv with rfl | rfl
        · exact hidle
        · exact hidle'
      have hok := h.ok v
      show Ok strict _ _ (s.prog v)
      rw [hret] at hok ⊢
      exact hok
    · obtain ⟨hvt, hvu⟩ := not_or.mp hv
      have hsame : Sys.ctx ((s.setHeld t n (s.held t n - 1)).setHeld u n
          ((s.setHeld t n (s.held t n - 1)).held u n + 1)) v = s.ctx v := by
        simp only [Sys.ctx, Sys.setHeld, update_of_ne hvt, update_of_ne hvu]
      rw [hsame]
      exact h.ok v

end Ucore.Threads
