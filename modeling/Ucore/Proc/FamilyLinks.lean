import Mathlib.Data.List.Perm.Subperm
import Ucore.Lib.Siblings
import Ucore.Proc.Family

/-!
# The links of a family

`Kin s kids cur loose` says that the pointers of the table form a tree with the lists `kids` of
children: every process is in the list of its parent, the chains of siblings run through these
lists, and the parents lead to `idleproc`. Between two halves of a change the process `loose` is
in no list, and while `cur` exits the pointers back along its list are out of use. A new process
is loose and then attached; an exiting one has its children unhooked and attached one by one; a
process that is reaped is taken out and is loose until its structure is freed.
-/

namespace Ucore.Family

open Kern Function List

variable {s s' : Table} {p q n c par z : ℕ} {cur loose : Option ℕ} {kids : ℕ → List ℕ}
  {rest : List ℕ} {H : Prop} {E : Access → Table → Prop} {Q : Unit → Table → Prop} {f : Task → Task}

/-! ## Accesses -/

theorem wp_read {Q : Task → Table → Prop} (hp : p ∈ s.allocated) (hQ : Q (s.task p) s) :
    (read p).wp H E Q s := by
  unfold wp read
  rw [if_pos hp]
  exact hQ

/-- A read that goes well was one of an allocated structure. -/
theorem wp_read_any {Q : Task → Table → Prop} (hQ : p ∈ s.allocated → Q (s.task p) s) :
    (read p).wp True Any Q s := by
  by_cases hp : p ∈ s.allocated
  · exact wp_read hp (hQ hp)
  · unfold wp read
    rw [if_neg hp]
    trivial

theorem of_task_eq {P : Table → Prop} (h : P s') (htask : ∀ x, s.task x = s'.task x)
    (halloc : s.allocated = s'.allocated) (hlist : s.procList = s'.procList)
    (hcount : s.nrProcess = s'.nrProcess) : P s := by
  cases s
  cases s'
  obtain rfl := funext htask
  simp_all

/-- Fields of one structure are written. -/
def Table.edit (s : Table) (p : ℕ) (f : Task → Task) : Table :=
  { s with task := fun x => if x = p then f (s.task x) else s.task x }

theorem task_edit (x : ℕ) : (s.edit p f).task x = if x = p then f (s.task x) else s.task x := rfl

theorem wp_write (hp : p ∈ s.allocated) (hQ : Q () (s.edit p f)) : (write p f).wp H E Q s := by
  unfold wp write
  rw [if_pos hp]
  refine of_task_eq hQ (fun x => ?_) rfl rfl rfl
  show update s.task p (f (s.task p)) x = if x = p then f (s.task x) else s.task x
  rw [update_apply]
  split
  · rename_i hx
    rw [hx]
  · rfl

/-- `yptr` after a write through a pointer that may be `NULL`. -/
def Table.younger (s : Table) (y o : Option ℕ) : Table :=
  { s with task := fun x => { s.task x with yptr := if o = some x then y else (s.task x).yptr } }

theorem wp_setYounger {y o : Option ℕ} (ho : ∀ a, o = some a → a ∈ s.allocated)
    (hQ : Q () (s.younger y o)) : (setYounger y o).wp H E Q s := by
  cases o with
  | none => exact hQ
  | some a =>
    show (write a fun t => { t with yptr := y }).wp H E Q s
    refine wp_write (ho a rfl) (of_task_eq hQ (fun x => ?_) rfl rfl rfl)
    by_cases hx : x = a
    · simp [Table.younger, task_edit, hx]
    · simp [Table.younger, task_edit, hx, Ne.symm hx]

/-! ## The tree -/

/-- The field `parent` of every process. -/
def Table.parentOf (s : Table) (p : ℕ) : Option ℕ := (s.task p).parent

/-- The list of all processes, with `idleproc` counted but not on it. -/
structure Census (s : Table) : Prop where
  alloc : s.allocated.Nodup
  idle : idleproc ∈ s.allocated
  init : initproc ∈ s.allocated
  listed : ∀ p, p ∈ s.procList ↔ p ∈ s.allocated ∧ p ≠ idleproc
  listNodup : s.procList.Nodup
  count : s.nrProcess = s.procList.length + 1

theorem Census.congr (h : Census s) (halloc : s'.allocated = s.allocated)
    (hlist : s'.procList = s.procList) (hcount : s'.nrProcess = s.nrProcess) : Census s' := by
  constructor
  · rw [halloc]
    exact h.alloc
  · rw [halloc]
    exact h.idle
  · rw [halloc]
    exact h.init
  · rw [halloc, hlist]
    exact h.listed
  · rw [hlist]
    exact h.listNodup
  · rw [hlist, hcount]
    exact h.count

/-- The list of the children of one process. -/
structure Chain (s : Table) (cur loose : Option ℕ) (p : ℕ) (l : List ℕ) : Prop where
  mem : ∀ c, c ∈ l ↔ c ∈ s.allocated ∧ (s.task c).parent = some p ∧ some c ≠ loose
  nodup : l.Nodup
  first : p ∈ s.allocated → (s.task p).cptr = l.head?
  older : Forward (fun a => (s.task a).optr) l
  younger : some p ≠ cur → Backward (fun a => (s.task a).yptr) l

theorem Chain.congr {loose' : Option ℕ} {l : List ℕ} (h : Chain s cur loose p l)
    (hmem : ∀ c, c ∈ s'.allocated ∧ (s'.task c).parent = some p ∧ some c ≠ loose' ↔
      c ∈ s.allocated ∧ (s.task c).parent = some p ∧ some c ≠ loose)
    (hfirst : p ∈ s'.allocated → (s'.task p).cptr = l.head?)
    (hoptr : ∀ a ∈ l, (s'.task a).optr = (s.task a).optr)
    (hyptr : ∀ a ∈ l, (s'.task a).yptr = (s.task a).yptr) : Chain s' cur loose' p l :=
  ⟨fun c => (h.mem c).trans (hmem c).symm, h.nodup, hfirst, h.older.congr hoptr,
    fun hp => (h.younger hp).congr hyptr⟩

/-- The pointers form a tree. -/
structure Kin (s : Table) (kids : ℕ → List ℕ) (cur loose : Option ℕ) : Prop where
  census : Census s
  noParent : (s.task idleproc).parent = none
  initParent : (s.task initproc).parent = some idleproc
  chain : ∀ p, Chain s cur loose p (kids p)
  alone : (s.task idleproc).optr = none ∧ (s.task idleproc).yptr = none
  closed : ∀ p ∈ s.allocated, ∀ q, (s.task p).parent = some q → q ∈ s.allocated
  rooted : ∀ p ∈ s.allocated, Leads s.parentOf p idleproc

section

variable (h : Kin s kids cur loose)
include h

theorem Kin.kid (hc : c ∈ kids p) :
    c ∈ s.allocated ∧ (s.task c).parent = some p ∧ some c ≠ loose := ((h.chain p).mem c).mp hc

/-- No process is its own child. -/
theorem Kin.ne_of_kid (hc : c ∈ kids p) : c ≠ p := by
  rintro rfl
  obtain ⟨halloc, hparent, -⟩ := h.kid hc
  refine (h.rooted c halloc).not_ancestor h.noParent (.single ?_)
  exact hparent

theorem Kin.eq_of_kid (hp : c ∈ kids p) (hq : c ∈ kids q) : p = q :=
  Option.some.inj ((h.kid hp).2.1.symm.trans (h.kid hq).2.1)

theorem Kin.ne_idleproc (hc : c ∈ kids p) : c ≠ idleproc := by
  rintro rfl
  cases (h.kid hc).2.1.symm.trans h.noParent

/-- The first child. -/
theorem Kin.mem_of_cptr (hp : p ∈ s.allocated) (hc : (s.task p).cptr = some c) : c ∈ kids p :=
  mem_of_mem_head? (((h.chain p).first hp).symm.trans hc)

end

/-- Two states with the same tree. -/
structure SameTree (s s' : Table) : Prop where
  allocated : s'.allocated = s.allocated
  procList : s'.procList = s.procList
  nrProcess : s'.nrProcess = s.nrProcess
  parent : ∀ x, (s'.task x).parent = (s.task x).parent
  cptr : ∀ x, (s'.task x).cptr = (s.task x).cptr
  optr : ∀ x, (s'.task x).optr = (s.task x).optr
  yptr : ∀ x, (s'.task x).yptr = (s.task x).yptr

/-- The parents of all processes but `idleproc`. -/
theorem Kin.exists_parent (h : Kin s kids cur none) (hc : c ∈ s.allocated) (hne : c ≠ idleproc) :
    ∃ p ∈ s.allocated, c ∈ kids p := by
  rcases Relation.ReflTransGen.cases_head (h.rooted c hc) with heq | ⟨p, hparent, -⟩
  · exact absurd heq hne
  · exact ⟨p, h.closed c hc p hparent, ((h.chain p).mem c).mpr ⟨hc, hparent, by simp⟩⟩

theorem Kin.weaken (h : Kin s kids none loose) : Kin s kids cur loose :=
  { h with chain := fun p => { h.chain p with
    younger := fun _ => (h.chain p).younger (by simp) } }

/-- There are at most as many children as processes on the list of all. -/
theorem Kin.length_le (h : Kin s kids cur loose) : (kids p).length ≤ s.procList.length := by
  refine ((h.chain p).nodup.subperm fun c hc => ?_).length_le
  exact (h.census.listed c).mpr ⟨(h.kid hc).1, h.ne_idleproc hc⟩

/-- When its list is empty a process has been left by all its children. -/
theorem Kin.settle (h : Kin s kids (some p) none) (hkids : kids p = []) : Kin s kids none none := by
  refine { h with chain := fun q => { h.chain q with younger := fun _ => ?_ } }
  rcases eq_or_ne q p with rfl | hq
  · rw [hkids]
    exact backward_nil
  · exact (h.chain q).younger fun heq => hq (Option.some.inj heq)

theorem Kin.sameTree (h : Kin s kids cur loose) (hsame : SameTree s s') :
    Kin s' kids cur loose := by
  have hparent : s'.parentOf = s.parentOf := funext hsame.parent
  refine ⟨h.census.congr hsame.allocated hsame.procList hsame.nrProcess,
    (hsame.parent _).trans h.noParent, (hsame.parent _).trans h.initParent,
    fun p => (h.chain p).congr (fun c => ?_) (fun hp => ?_) (fun a _ => hsame.optr a)
      fun a _ => hsame.yptr a,
    ⟨(hsame.optr _).trans h.alone.1, (hsame.yptr _).trans h.alone.2⟩, fun p hp q hq => ?_,
    fun p hp => ?_⟩
  · rw [hsame.allocated, hsame.parent]
  · rw [hsame.allocated] at hp
    rw [hsame.cptr]
    exact (h.chain p).first hp
  · rw [hsame.allocated] at hp ⊢
    exact h.closed p hp q ((hsame.parent p).symm.trans hq)
  · rw [hsame.allocated] at hp
    rw [hparent]
    exact h.rooted p hp

/-! ## A process is attached -/

/-- A loose process becomes the first child of `par`: what `set_links` and the loop in
`__do_exit` write. -/
def Table.attach (s : Table) (par c : ℕ) : Table :=
  { s with task := fun x => { s.task x with
      parent := if x = c then some par else (s.task x).parent
      cptr := if x = par then some c else (s.task x).cptr
      optr := if x = c then (s.task par).cptr else (s.task x).optr
      yptr := if x = c then none
        else if (s.task par).cptr = some x then some c else (s.task x).yptr } }

theorem Kin.attach (h : Kin s kids cur (some c)) (hc : c ∈ s.allocated) (hidle : c ≠ idleproc)
    (hinit : c ≠ initproc) (hpar : par ∈ s.allocated) (hcur : some par ≠ cur)
    (hnot : ¬Leads s.parentOf par c) :
    Kin (s.attach par c) (update kids par (c :: kids par)) cur none := by
  have hloose : ∀ p, c ∉ kids p := fun p hmem => (h.kid hmem).2.2 rfl
  have hne : ∀ {p a}, a ∈ kids p → a ≠ c := fun hmem heq => hloose _ (heq ▸ hmem)
  have hparent : ∀ x, x ≠ c → ((s.attach par c).task x).parent = (s.task x).parent :=
    fun x hx => if_neg hx
  have hcparent : ((s.attach par c).task c).parent = some par := if_pos rfl
  have hmem : ∀ p x, x ≠ c → (x ∈ s.allocated ∧ ((s.attach par c).task x).parent = some p ∧
      some x ≠ none ↔ x ∈ s.allocated ∧ (s.task x).parent = some p ∧ some x ≠ some c) := by
    intro p x hx
    rw [hparent x hx]
    simp [hx]
  have hold := h.chain par
  -- the back pointer changes for the old first child of the heir only
  have hyptr : ∀ x, x ≠ c → (s.task par).cptr ≠ some x →
      ((s.attach par c).task x).yptr = (s.task x).yptr :=
    fun x hx hfirst => (if_neg hx).trans (if_neg hfirst)
  refine ⟨h.census.congr rfl rfl rfl, (hparent _ hidle.symm).trans h.noParent,
    (hparent _ hinit.symm).trans h.initParent, (forall_update_iff kids _).mpr ⟨?_, fun q hq => ?_⟩,
    ⟨(if_neg hidle.symm).trans h.alone.1, ?_⟩, fun p hp q hq => ?_, fun p hp => ?_⟩
  · refine ⟨fun x => ?_, nodup_cons.mpr ⟨hloose par, hold.nodup⟩, fun _ => if_pos rfl,
      (hold.older.congr fun a ha => if_neg (hne ha)).cons ((if_pos rfl).trans (hold.first hpar)),
      fun _ => (hold.younger hcur).cons hold.nodup (if_pos rfl) (fun a ha => ?_)
        fun a ha hhead => ?_⟩
    · rcases eq_or_ne x c with rfl | hx
      · exact iff_of_true mem_cons_self ⟨hc, hcparent, by simp⟩
      · rw [mem_cons, or_iff_right hx, hold.mem]
        exact (hmem par x hx).symm
    · exact (if_neg (hne (mem_of_mem_head? ha))).trans (if_pos ((hold.first hpar).trans ha))
    · exact hyptr a (hne ha) fun heq => hhead ((hold.first hpar).symm.trans heq)
  · refine (h.chain q).congr (fun x => ?_) (fun hqa => (if_neg hq).trans ((h.chain q).first hqa))
      (fun a ha => if_neg (hne ha)) fun a ha => hyptr a (hne ha) fun heq => ?_
    · rcases eq_or_ne x c with rfl | hx
      · refine iff_of_false (fun hnew => hq ?_) fun hold => hold.2.2 rfl
        exact (Option.some.inj (hcparent.symm.trans hnew.2.1)).symm
      · exact hmem q x hx
    · exact hq (h.eq_of_kid ha (h.mem_of_cptr hpar heq))
  · refine (hyptr _ hidle.symm fun heq => ?_).trans h.alone.2
    exact h.ne_idleproc (h.mem_of_cptr hpar heq) rfl
  · rcases eq_or_ne p c with rfl | hpc
    · exact Option.some.inj (hcparent.symm.trans hq) ▸ hpar
    · exact h.closed p hp q ((hparent p hpc).symm.trans hq)
  · exact leads_root hparent hcparent hnot (h.rooted par hpar) (h.rooted p hp)

/-! ## A process is unhooked -/

/-- The first child `c` of a process that exits is taken off its list. -/
def Table.unhook (s : Table) (p c : ℕ) : Table :=
  { s with task := fun x => { s.task x with
      cptr := if x = p then (s.task c).optr else (s.task x).cptr } }

/-- The pointers back along the list are not kept. -/
theorem Kin.unhook (h : Kin s kids (some p) none) (hkids : kids p = c :: rest) :
    Kin (s.unhook p c) (update kids p rest) (some p) (some c) := by
  have hc : c ∈ kids p := hkids ▸ mem_cons_self
  have hold := h.chain p
  rw [hkids] at hold
  obtain ⟨hout, hnodup⟩ := nodup_cons.mp hold.nodup
  refine { h with
    census := h.census.congr rfl rfl rfl
    chain := (forall_update_iff kids _).mpr ⟨?_, fun q hq => ?_⟩ }
  · refine ⟨fun x => ?_, hnodup, fun _ => (if_pos rfl).trans hold.older.head, hold.older.tail,
      (absurd rfl)⟩
    have hmem := hold.mem x
    rw [mem_cons] at hmem
    constructor
    · intro hx
      obtain ⟨halloc, hpar, -⟩ := hmem.mp (.inr hx)
      exact ⟨halloc, hpar, fun heq => hout (Option.some.inj heq ▸ hx)⟩
    · rintro ⟨halloc, hpar, hne⟩
      exact (hmem.mpr ⟨halloc, hpar, by simp⟩).resolve_left fun heq => hne (heq ▸ rfl)
  · refine (h.chain q).congr (fun x => ?_) (fun hqa => (if_neg hq).trans ((h.chain q).first hqa))
      (fun _ _ => rfl) fun _ _ => rfl
    refine and_congr_right fun _ => and_congr_right fun hpar => iff_of_true ?_ (by simp)
    rintro heq
    rw [Option.some.inj heq] at hpar
    exact hq (Option.some.inj (hpar.symm.trans (h.kid hc).2.1))

/-! ## A new process -/

/-- A new structure is filled in and put on the list of all processes. -/
def Table.enrol (s : Table) (p n : ℕ) : Table :=
  { s.setTask n (newTask p n) with
    allocated := n :: s.allocated, procList := n :: s.procList, nrProcess := s.nrProcess + 1 }

theorem task_enrol (x : ℕ) :
    (s.enrol p n).task x = if x = n then newTask p n else s.task x := update_apply s.task n _ x

theorem task_enrol_of_ne {x : ℕ} (hx : x ≠ n) : (s.enrol p n).task x = s.task x :=
  update_of_ne hx _ s.task

theorem task_enrol_self : (s.enrol p n).task n = newTask p n := update_self n _ s.task

theorem Census.enrol (h : Census s) (hn : n ∉ s.allocated) : Census (s.enrol p n) := by
  have hlist : n ∉ s.procList := fun hmem => hn ((h.listed n).mp hmem).1
  refine ⟨nodup_cons.mpr ⟨hn, h.alloc⟩, mem_cons_of_mem n h.idle,
    mem_cons_of_mem n h.init, fun x => ?_, nodup_cons.mpr ⟨hlist, h.listNodup⟩, ?_⟩
  · show x ∈ n :: s.procList ↔ x ∈ n :: s.allocated ∧ x ≠ idleproc
    rw [mem_cons, mem_cons, h.listed x]
    refine ⟨?_, fun hx => hx.1.imp_right fun halloc => ⟨halloc, hx.2⟩⟩
    rintro (rfl | hx)
    · exact ⟨.inl rfl, fun heq => hn (heq ▸ h.idle)⟩
    · exact ⟨.inr hx.1, hx.2⟩
  · exact congrArg (· + 1) h.count

/-- Nobody is a child of what is not allocated. -/
theorem Kin.kids_eq_nil (h : Kin s kids cur loose) (hn : n ∉ s.allocated) : kids n = [] := by
  refine eq_nil_iff_forall_not_mem.mpr fun c hc => hn ?_
  obtain ⟨halloc, hparent, -⟩ := h.kid hc
  exact h.closed c halloc n hparent

theorem Kin.enrol (h : Kin s kids none none) (hn : n ∉ s.allocated) (hp : p ∈ s.allocated) :
    Kin (s.enrol p n) kids none (some n) := by
  have hne : ∀ x ∈ s.allocated, x ≠ n := fun x hx heq => hn (heq ▸ hx)
  have htask : ∀ x ∈ s.allocated, (s.enrol p n).task x = s.task x :=
    fun x hx => task_enrol_of_ne (hne x hx)
  have hkids : ∀ {q a}, a ∈ kids q → (s.enrol p n).task a = s.task a :=
    fun ha => htask _ (h.kid ha).1
  have hold : ∀ q ∈ s.allocated, Leads (s.enrol p n).parentOf q idleproc := fun q hq =>
    (h.rooted q hq).congr hq (fun a b ha => h.closed a ha b)
      fun x hx => congrArg Task.parent (htask x hx)
  refine ⟨h.census.enrol hn, ?_, ?_, fun q => (h.chain q).congr (fun x => ?_) (fun hq => ?_)
    (fun a ha => congrArg Task.optr (hkids ha)) fun a ha => congrArg Task.yptr (hkids ha), ?_,
    fun q hq r hr => ?_, fun q hq => ?_⟩
  · rw [htask _ h.census.idle]
    exact h.noParent
  · rw [htask _ h.census.init]
    exact h.initParent
  · constructor
    · rintro ⟨halloc, hpar, hx⟩
      have hx' : x ≠ n := fun heq => hx (heq ▸ rfl)
      rw [task_enrol_of_ne hx'] at hpar
      exact ⟨(mem_cons.mp halloc).resolve_left hx', hpar, by simp⟩
    · rintro ⟨halloc, hpar, -⟩
      rw [htask x halloc]
      exact ⟨mem_cons_of_mem n halloc, hpar, fun heq => hne x halloc (Option.some.inj heq)⟩
  · rcases mem_cons.mp hq with rfl | hq
    · rw [task_enrol_self, h.kids_eq_nil hn]
      rfl
    · rw [htask q hq]
      exact (h.chain q).first hq
  · rw [htask _ h.census.idle]
    exact h.alone
  · rcases mem_cons.mp hq with rfl | hq
    · rw [task_enrol_self] at hr
      exact .tail _ (Option.some.inj hr ▸ hp)
    · rw [htask q hq] at hr
      exact mem_cons_of_mem n (h.closed q hq r hr)
  · rcases mem_cons.mp hq with rfl | hq
    · refine (hold p hp).head ?_
      exact congrArg Task.parent task_enrol_self
    · exact hold q hq

/-! ## A process is taken out -/

/-- What `remove_links` does to the chain of siblings. -/
def Table.unlink (s : Table) (z : ℕ) : Table :=
  { s with task := fun x => { s.task x with
      cptr := if (s.task z).yptr = none ∧ (s.task z).parent = some x then (s.task z).optr
        else (s.task x).cptr
      optr := if (s.task z).yptr = some x then (s.task z).optr else (s.task x).optr
      yptr := if (s.task z).optr = some x then (s.task z).yptr else (s.task x).yptr } }

theorem Kin.unlink {pre post : List ℕ} (h : Kin s kids none none)
    (hkids : kids p = pre ++ z :: post) :
    Kin (s.unlink z) (update kids p (pre ++ post)) none (some z) := by
  have hz : z ∈ kids p := by
    rw [hkids]
    simp
  have hzparent := (h.kid hz).2.1
  have hold := h.chain p
  rw [hkids] at hold
  have hbackward := hold.younger (by simp)
  have hzopt : (s.task z).optr = post.head? := hold.older pre z post rfl
  have hzypt : (s.task z).yptr = pre.getLast? := hbackward pre z post rfl
  have hsplit : ∀ x, x ∈ pre ++ post ↔ x ∈ pre ++ z :: post ∧ x ≠ z := by
    have hperm := nodup_middle.mp hold.nodup
    intro x
    rw [perm_middle.mem_iff, mem_cons]
    refine ⟨fun hx => ⟨.inr hx, fun heq => ?_⟩, fun hx => hx.1.resolve_left hx.2⟩
    exact (nodup_cons.mp hperm).1 (heq ▸ hx)
  have hin : ∀ x, x ∈ pre ++ post → x ∈ kids p := fun x hx => hkids ▸ ((hsplit x).mp hx).1
  -- the neighbours are on the same list
  have hyoung : ∀ x, (s.task z).yptr = some x → x ∈ kids p := fun x hx =>
    hin x (mem_append_left post (mem_of_getLast? (hzypt.symm.trans hx)))
  have hnext : ∀ x, (s.task z).optr = some x → x ∈ kids p := fun x hx =>
    hin x (mem_append_right pre (mem_of_mem_head? (hzopt.symm.trans hx)))
  refine { h with
    census := h.census.congr rfl rfl rfl
    chain := (forall_update_iff kids _).mpr ⟨?_, fun q hq => ?_⟩
    alone := ⟨(if_neg fun heq => h.ne_idleproc (hyoung _ heq) rfl).trans h.alone.1,
      (if_neg fun heq => h.ne_idleproc (hnext _ heq) rfl).trans h.alone.2⟩ }
  · refine ⟨fun x => ?_, hold.nodup.sublist
      (List.Sublist.append_left (sublist_cons_self z post) pre), fun hp => ?_,
      hold.older.remove hold.nodup (fun a ha => (if_pos (hzypt.trans ha)).trans hzopt)
        fun a ha hne => if_neg fun heq => hne (hzypt.symm.trans heq),
      fun _ => hbackward.remove hold.nodup (fun a ha => (if_pos (hzopt.trans ha)).trans hzypt)
        fun a ha hne => if_neg fun heq => hne (hzopt.symm.trans heq)⟩
    · rw [hsplit, hold.mem]
      show _ ↔ x ∈ s.allocated ∧ (s.task x).parent = some p ∧ _
      simp [and_assoc]
    · show (if _ then _ else _) = _
      cases pre with
      | nil => rw [if_pos ⟨hzypt, hzparent⟩, hzopt, nil_append]
      | cons y pre =>
        rw [if_neg fun hnone => ?_, hold.first hp]
        · rfl
        · rw [hzypt] at hnone
          simp at hnone
  · refine (h.chain q).congr (fun x => ?_) (fun hqa => ?_)
      (fun a ha => if_neg fun heq => hq (h.eq_of_kid ha (hyoung a heq)))
      fun a ha => if_neg fun heq => hq (h.eq_of_kid ha (hnext a heq))
    · refine and_congr_right fun _ => and_congr_right fun hpar => iff_of_true ?_ (by simp)
      rintro heq
      rw [Option.some.inj heq] at hpar
      exact hq (Option.some.inj (hpar.symm.trans hzparent))
    · refine (if_neg fun heq => ?_).trans ((h.chain q).first hqa)
      exact hq (Option.some.inj (heq.2.symm.trans hzparent))

/-- A structure is freed and taken off the list of all processes. -/
def Table.dismiss (s : Table) (z : ℕ) : Table :=
  { s with allocated := s.allocated.erase z, procList := s.procList.erase z,
           nrProcess := s.nrProcess - 1 }

theorem Census.dismiss (h : Census s) (hz : z ∈ s.allocated) (hidle : z ≠ idleproc)
    (hinit : z ≠ initproc) : Census (s.dismiss z) := by
  have hlist : z ∈ s.procList := (h.listed z).mpr ⟨hz, hidle⟩
  refine ⟨h.alloc.erase z, (mem_erase_of_ne hidle.symm).mpr h.idle,
    (mem_erase_of_ne hinit.symm).mpr h.init, fun x => ?_, h.listNodup.erase z, ?_⟩
  · show x ∈ s.procList.erase z ↔ x ∈ s.allocated.erase z ∧ x ≠ idleproc
    rw [h.listNodup.mem_erase_iff, h.alloc.mem_erase_iff, h.listed x, and_assoc]
  · show s.nrProcess - 1 = (s.procList.erase z).length + 1
    have hlength := length_erase_of_mem hlist
    have hpos := length_pos_of_mem hlist
    have hcount := h.count
    omega

theorem Kin.dismiss (h : Kin s kids none (some z)) (hz : z ∈ s.allocated) (hidle : z ≠ idleproc)
    (hinit : z ≠ initproc) (hkids : kids z = []) : Kin (s.dismiss z) kids none none := by
  have halloc : ∀ x, x ∈ (s.dismiss z).allocated ↔ x ≠ z ∧ x ∈ s.allocated :=
    fun x => h.census.alloc.mem_erase_iff
  refine ⟨h.census.dismiss hz hidle hinit, h.noParent, h.initParent,
    fun q => (h.chain q).congr (fun x => ?_) (fun hq => (h.chain q).first ((halloc q).mp hq).2)
      (fun _ _ => rfl) fun _ _ => rfl, h.alone, fun q hq r hr => ?_,
    fun q hq => h.rooted q ((halloc q).mp hq).2⟩
  · rw [halloc x, ne_eq (some x) (some z), Option.some.injEq]
    tauto
  · obtain ⟨hne, hold⟩ := (halloc q).mp hq
    refine (halloc r).mpr ⟨?_, h.closed q hold r hr⟩
    rintro rfl
    have hmem : q ∈ kids r :=
      ((h.chain r).mem q).mpr ⟨hold, hr, fun heq => hne (Option.some.inj heq)⟩
    rw [hkids] at hmem
    cases hmem

end Ucore.Family
