import Ucore.Proc.FamilyCalls

/-!
# Families over whole runs

What the calls keep: the pointers form a tree, the thread groups are rings, and a process that
has exited is alone in its group and has no children. A thread that exits gives its children to
the next thread of its group. If that thread is below it in the tree, as the threads are that it
created itself, then the loop makes a process its own parent; the invariant holds over all runs in
which this does not happen.
-/

namespace Ucore.Family

open Kern Function List

variable {s s' : Table} {p q n cur : ℕ} {kids : ℕ → List ℕ} {thread : Bool}

/-- What holds between two calls. -/
structure Household (s : Table) (kids : ℕ → List ℕ) : Prop where
  kin : Kin s kids none none
  rings : Rings s
  /-- A process that has exited is alone. -/
  retired : ∀ p ∈ s.allocated, (s.task p).zombie = true → (s.task p).nextThread = p ∧ kids p = []
  init : (s.task initproc).zombie = false

/-- The other threads of a group are alive. -/
theorem Household.next_alive (h : Household s kids) (hp : p ∈ s.allocated)
    (hne : (s.task p).nextThread ≠ p) : (s.task (s.task p).nextThread).zombie = false := by
  obtain ⟨hnext, -⟩ := h.rings.next p hp
  refine Bool.eq_false_iff.mpr fun hzombie => hne ?_
  exact (h.rings.next_injective hnext hp (h.retired _ hnext hzombie).1)

/-! ## Fork -/

section

variable (h : Household s kids) (hp : s.Alive p)
include h hp

/-- A new process, attached to the one that called `do_fork`. -/
theorem Household.enrol (hn : n ∉ s.allocated) :
    Household ((s.enrol p n).attach p n) (update kids p (n :: kids p)) := by
  obtain ⟨hpalloc, halive⟩ := hp
  have hne : ∀ x ∈ s.allocated, x ≠ n := fun x hx heq => hn (heq ▸ hx)
  have htask : ∀ x ∈ s.allocated, (s.enrol p n).task x = s.task x :=
    fun x hx => task_enrol_of_ne (hne x hx)
  have hnot : ¬Leads (s.enrol p n).parentOf p n := by
    intro hleads
    refine hn (hleads.mem hpalloc fun a b ha hab => h.kin.closed a ha b ?_)
    exact (congrArg Task.parent (htask a ha)).symm.trans hab
  refine ⟨(h.kin.enrol hn hpalloc).attach mem_cons_self (hne _ h.kin.census.idle).symm
    (hne _ h.kin.census.init).symm (mem_cons_of_mem n hpalloc) (by simp) hnot,
    (h.rings.enrol hn).sameThreads ⟨rfl, fun _ => rfl, fun _ => rfl, fun _ => rfl⟩,
    fun x hx hzombie => ?_, (congrArg Task.zombie (htask _ h.kin.census.init)).trans h.init⟩
  rcases mem_cons.mp hx with rfl | hx
  · have hnew : ((s.enrol p x).task x).zombie = true := hzombie
    rw [task_enrol_self] at hnew
    cases hnew
  · have hzombie : (s.task x).zombie = true :=
      (congrArg Task.zombie (htask x hx)).symm.trans hzombie
    have hxp : x ≠ p := fun heq => absurd (hzombie.symm.trans (heq ▸ halive)) (by simp)
    obtain ⟨hnext, hkids⟩ := h.retired x hx hzombie
    exact ⟨(congrArg Task.nextThread (htask x hx)).trans hnext, (update_of_ne hxp ..).trans hkids⟩

/-- A new thread joins the group of the one that called `do_fork`. -/
theorem Household.join (hn : s.Alive n) (hne : n ≠ p) (halone : (s.task n).nextThread = n) :
    Household (s.join p n) kids := by
  refine ⟨h.kin.sameTree ⟨rfl, rfl, rfl, fun _ => rfl, fun _ => rfl, fun _ => rfl, fun _ => rfl⟩,
    h.rings.join hp.1 hn.1 hne halone, fun x hx hzombie => ?_, h.init⟩
  obtain ⟨hnext, hkids⟩ := h.retired x hx hzombie
  have hxn : x ≠ n := by
    rintro rfl
    cases hzombie.symm.trans hn.2
  -- the thread before `p` is not one that has exited
  have hxq : x ≠ (s.task p).prevThread := by
    intro heq
    have hforth := (h.rings.prev p hp.1).2
    rw [← heq, hnext] at hforth
    rw [hforth] at hzombie
    cases hzombie.symm.trans hp.2
  exact ⟨(if_neg hxn).trans ((if_neg hxq).trans hnext), hkids⟩

theorem Household.fork (hn : n ∉ s.allocated) :
    (doFork p n thread).wp True Any (fun _ s' => ∃ kids', Household s' kids') s := by
  have hpn : p ≠ n := fun heq => hn (heq ▸ hp.1)
  have hhouse := h.enrol hp hn
  rw [doFork, wp_get]
  refine wp_if (fun _ => ⟨kids, h⟩) fun _ => ?_
  rw [wp_put, wp_bind]
  refine wp_setLinks h.kin hn hp.1 ?_
  refine wp_if (fun _ => ?_) fun _ => ⟨_, hhouse⟩
  have hnew : ((s.enrol p n).attach p n).Alive n :=
    ⟨.head _, congrArg Task.zombie task_enrol_self⟩
  have hold : ((s.enrol p n).attach p n).Alive p :=
    ⟨mem_cons_of_mem n hp.1, (congrArg Task.zombie (task_enrol_of_ne hpn)).trans hp.2⟩
  refine wp_seq (wp_addThread hhouse.rings hold.1 hnew.1 ?_)
  exact ⟨_, hhouse.join hold hnew hpn.symm (congrArg Task.nextThread task_enrol_self)⟩

end

/-! ## Exit -/

/-- A thread does not exit while the next thread of its group is below it in the tree. -/
def Table.Calm (s : Table) (p : ℕ) : Prop :=
  (s.task p).nextThread ≠ p → ¬Leads s.parentOf (s.task p).nextThread p

/-- Above `initproc` there is only `idleproc`. -/
theorem eq_of_leads_initproc (hinit : s.parentOf initproc = some idleproc)
    (hidle : s.parentOf idleproc = none) (hleads : Leads s.parentOf initproc p) :
    p = initproc ∨ p = idleproc := by
  rcases Relation.ReflTransGen.cases_head hleads with heq | ⟨a, ha, hleads⟩
  · exact .inl heq.symm
  · cases hinit.symm.trans ha
    rcases Relation.ReflTransGen.cases_head hleads with heq | ⟨b, hb, -⟩
    · exact .inr heq.symm
    · cases hidle.symm.trans hb

/-- The process that gets the children is alive and not below the one that exits. -/
theorem Household.heir_alive (h : Household s kids) (hp : p ∈ s.allocated) (hidle : p ≠ idleproc)
    (hinit : p ≠ initproc) (hcalm : s.Calm p) : heir s p ∈ s.allocated ∧
      (s.task (heir s p)).zombie = false ∧ ¬Leads s.parentOf (heir s p) p := by
  unfold heir
  by_cases hnext : (s.task p).nextThread = p
  · rw [if_pos hnext]
    refine ⟨h.kin.census.init, h.init, fun hleads => ?_⟩
    exact (eq_of_leads_initproc h.kin.initParent h.kin.noParent hleads).elim hinit hidle
  · rw [if_neg hnext]
    exact ⟨(h.rings.next p hp).1, h.next_alive hp hnext, hcalm hnext⟩

/-- A thread is marked as one that has exited. -/
def Table.mark (s : Table) (p : ℕ) : Table :=
  { s with task := fun x => { s.task x with
      zombie := if x = p then true else (s.task x).zombie } }

theorem wp_mark {H : Prop} {E : Access → Table → Prop} {Q : Unit → Table → Prop}
    (hp : p ∈ s.allocated) (hQ : Q () (s.mark p)) :
    (write p fun t => { t with zombie := true }).wp H E Q s := by
  refine wp_write hp (of_task_eq hQ (fun x => ?_) rfl rfl rfl)
  simp only [Table.mark, task_edit]
  split_ifs <;> rfl

theorem Household.exit (h : Household s kids) (hp : s.Alive p) (hcalm : s.Calm p) :
    (doExit p).wp True Any (fun _ s' => ∃ kids', Household s' kids') s := by
  obtain ⟨hpalloc, halive⟩ := hp
  refine wp_assume trivial fun hidle => ?_
  refine wp_assume trivial fun hinit => ?_
  obtain ⟨hheir, halive', hnot⟩ := h.heir_alive hpalloc hidle hinit hcalm
  refine wp_seq (wp_mark hpalloc ?_)
  rw [wp_get, wp_bind]
  have hrings : Rings (s.mark p) := h.rings
  refine wp_deThread hrings hpalloc ?_
  have hkin : Kin ((s.mark p).leave p) kids none none := h.kin.sameTree
    ⟨rfl, rfl, rfl, fun _ => rfl, fun _ => rfl, fun _ => rfl, fun _ => rfl⟩
  refine wp_adopt hkin.weaken hpalloc hheir hnot (fun c hc => ?_) ?_
    fun s' kids' hkin' hnil hkids hthreads => ⟨kids', hkin',
      (hrings.leave hpalloc).sameThreads hthreads, fun x hx hzombie => ?_, ?_⟩
  · rintro rfl
    have hidle' : p = idleproc :=
      Option.some.inj ((h.kin.kid hc).2.1.symm.trans h.kin.initParent)
    exact hidle hidle'
  · have hle := hkin.length_le (p := p)
    have hcount := hkin.census.count
    omega
  · rw [hthreads.allocated] at hx
    rw [hthreads.zombie] at hzombie
    rw [hthreads.nextThread]
    rcases eq_or_ne x p with rfl | hxp
    · exact ⟨if_pos rfl, hnil⟩
    · have hzombie : (s.task x).zombie = true := (if_neg hxp).symm.trans hzombie
      obtain ⟨hnext, hlist⟩ := h.retired x hx hzombie
      -- neither the heir nor the thread before it has exited
      have hxheir : x ≠ heir s p := by
        rintro rfl
        cases hzombie.symm.trans halive'
      have hxprev : x ≠ (s.task p).prevThread := by
        intro heq
        have hforth := (h.rings.prev p hpalloc).2
        rw [← heq, hnext] at hforth
        exact hxp hforth
      exact ⟨(if_neg hxp).trans ((if_neg hxprev).trans hnext), (hkids x hxp hxheir).trans hlist⟩
  · exact (hthreads.zombie _).trans ((if_neg (Ne.symm hinit)).trans h.init)

/-! ## Wait -/

/-- A process that has exited is taken out and freed. -/
theorem Household.dismiss {pre post : List ℕ} {z : ℕ} (h : Household s kids)
    (hz : z ∈ s.allocated) (hzombie : (s.task z).zombie = true)
    (hkids : kids p = pre ++ z :: post) :
    Household ((s.unlink z).dismiss z) (update kids p (pre ++ post)) := by
  have hmem : z ∈ kids p := by
    rw [hkids]
    simp
  have hinit : z ≠ initproc := by
    rintro rfl
    cases hzombie.symm.trans h.init
  obtain ⟨halone, hnil⟩ := h.retired z hz hzombie
  have hkin := h.kin.unlink hkids
  have hlist : ∀ x, x ≠ p → update kids p (pre ++ post) x = kids x :=
    fun x hx => update_of_ne hx _ kids
  refine ⟨?_, ?_, fun x hx hx' => ?_, h.init⟩
  · refine hkin.dismiss hz (h.kin.ne_idleproc hmem) hinit ?_
    rw [hlist z (h.kin.ne_of_kid hmem), hnil]
  · have hrings : Rings (s.unlink z) := h.rings
    exact hrings.dismiss hz halone hkin.census.alloc
  · obtain ⟨hnext, hnone⟩ := h.retired x (hkin.census.alloc.mem_erase_iff.mp hx).2 hx'
    refine ⟨hnext, ?_⟩
    by_cases hxp : x = p
    · rw [hxp] at hnone
      rw [hnone] at hmem
      cases hmem
    · rw [hlist x hxp, hnone]

theorem Household.wait {target : Option ℕ} (h : Household s kids) :
    (doWait p target).wp True Any (fun _ s' => ∃ kids', Household s' kids') s := by
  rw [doWait, wp_bind]
  refine wp_scan.imp ?_
  rintro found _ ⟨rfl, hfound⟩
  cases found with
  | nobody | kid => exact ⟨kids, h⟩
  | dead z =>
    obtain ⟨hz, hzombie⟩ := hfound z rfl
    have hinit : z ≠ initproc := by
      rintro rfl
      cases hzombie.symm.trans h.init
    rw [wp_bind]
    by_cases hidle : z = idleproc
    · rw [reap, wp_bind, wp_assert]
      exact ⟨(absurd hidle), fun _ => trivial⟩
    · obtain ⟨q, hq, hmem⟩ := h.kin.exists_parent hz hidle
      obtain ⟨pre, post, hkids⟩ := append_of_mem hmem
      refine wp_reap h.kin hmem hq hinit ?_
      exact ⟨_, h.dismiss hz hzombie hkids⟩

/-! ## Runs -/

/-- One step in which nobody exits while the next thread of its group is below it. -/
def CalmStep (s : Table) (call : FamilyCall) (s' : Table) : Prop :=
  Step s call s' ∧ ∀ p, call = .exit p → s.Calm p

theorem census_boot : Census boot := by
  refine ⟨by decide, by decide, by decide, fun p => ?_, by decide, rfl⟩
  simp only [boot, idleproc, initproc, mem_cons, not_mem_nil, or_false]
  omega

/-- The lists of children after `proc_init`. -/
def bootKids (p : ℕ) : List ℕ := if p = idleproc then [initproc] else []

theorem kin_boot : Kin boot bootKids none none := by
  have hidle : bootKids idleproc = [initproc] := rfl
  have hother : ∀ p, p ≠ idleproc → bootKids p = [] := fun p hp => if_neg hp
  have hparent : ∀ c, (boot.task c).parent = if c = idleproc then none else some idleproc := by
    intro c
    by_cases hc : c = idleproc
    · rw [hc]
      rfl
    · rw [if_neg hc]
      exact congrArg Task.parent (if_neg hc)
  have hchildless : ∀ p, p ≠ idleproc → p ∈ boot.allocated → (boot.task p).cptr = none := by
    intro p hp hmem
    obtain rfl : p = initproc := by simpa [boot, hp] using hmem
    rfl
  refine ⟨census_boot, rfl, rfl, fun p => ?_, ⟨rfl, rfl⟩, ?_, ?_⟩
  · rcases eq_or_ne p idleproc with rfl | hp
    · refine ⟨fun c => ?_, nodup_singleton initproc, fun _ => rfl, forward_nil.cons rfl,
        fun _ => (backward_nil (f := fun a => (boot.task a).yptr)).cons nodup_nil rfl (nofun) nofun⟩
      rw [hidle]
      by_cases hc : c = idleproc
      · simp [hc, boot, idleproc, initproc]
      · simp [hc, boot]
    · rw [hother p hp]
      refine ⟨fun c => ?_, nodup_nil, hchildless p hp, forward_nil, fun _ => backward_nil⟩
      rw [hparent c]
      by_cases hc : c = idleproc
      · simp [hc]
      · simp [hc, Ne.symm hp]
  · intro p _ q hq
    rw [hparent p] at hq
    by_cases hp : p = idleproc
    · rw [if_pos hp] at hq
      cases hq
    · rw [if_neg hp] at hq
      exact Option.some.inj hq ▸ census_boot.idle
  · intro p _
    by_cases hp : p = idleproc
    · exact hp ▸ .refl
    · exact .single ((hparent p).trans (if_neg hp))

theorem household_boot : Household boot bootKids := by
  refine ⟨kin_boot, ⟨?_, ?_⟩, ?_, rfl⟩
  · decide
  · decide
  · intro p hp hzombie
    have hfalse : ∀ p ∈ boot.allocated, (boot.task p).zombie = false := by decide
    cases hzombie.symm.trans (hfalse p hp)

theorem CalmStep.household {call : FamilyCall} (h : Household s kids) (hstep : CalmStep s call s') :
    ∃ kids', Household s' kids' := by
  obtain ⟨hstep, hcalm⟩ := hstep
  cases call with
  | fork p n thread =>
    obtain ⟨halive, hn, ok, hdone⟩ := hstep
    exact (h.fork halive hn).of_done hdone
  | exit p =>
    obtain ⟨halive, hdone⟩ := hstep
    exact (h.exit halive (hcalm p rfl)).of_done hdone
  | wait p target =>
    obtain ⟨-, found, hdone⟩ := hstep
    exact h.wait.of_done hdone

/-- The list of children that `cptr` and `optr` lead through. -/
def Table.ChildList (s : Table) (p : ℕ) (l : List ℕ) : Prop :=
  (s.task p).cptr = l.head? ∧ Forward (fun a => (s.task a).optr) l

/-- The processes form a tree, and the pointers say so. -/
structure Genealogy (s : Table) : Prop where
  /-- The parents of every process lead to `idleproc`, and no process is its own ancestor. -/
  ancestors : ∀ p ∈ s.allocated, Leads s.parentOf p idleproc ∧
    ¬Relation.TransGen (fun a b => s.parentOf a = some b) p p
  /-- The list of a process has its children, each once. -/
  children : ∀ p ∈ s.allocated, ∃ l, s.ChildList p l ∧ l.Nodup ∧
    ∀ c, c ∈ l ↔ c ∈ s.allocated ∧ s.parentOf c = some p
  inverse : ∀ a ∈ s.allocated, ∀ b ∈ s.allocated,
    ((s.task a).optr = some b ↔ (s.task b).yptr = some a)
  /-- No process that has been freed is named. -/
  named : ∀ p ∈ s.allocated, ∀ q, (s.task p).parent = some q ∨ (s.task p).cptr = some q ∨
    (s.task p).optr = some q ∨ (s.task p).yptr = some q → q ∈ s.allocated
  /-- All processes but `idleproc` are on the list of all, and all are counted. -/
  listed : (∀ p, p ∈ s.procList ↔ p ∈ s.allocated ∧ p ≠ idleproc) ∧ s.procList.Nodup ∧
    s.nrProcess = s.procList.length + 1

theorem Household.optr_named (h : Household s kids) (hp : p ∈ s.allocated)
    (hq : (s.task p).optr = some q) : q ∈ s.allocated ∧ (s.task q).yptr = some p := by
  have hidle : p ≠ idleproc := by
    rintro rfl
    cases hq.symm.trans h.kin.alone.1
  obtain ⟨r, -, hmem⟩ := h.kin.exists_parent hp hidle
  obtain ⟨hq, hback⟩ := (h.kin.chain r).older.inverse ((h.kin.chain r).younger (by simp)) hmem hq
  exact ⟨(h.kin.kid hq).1, hback⟩

theorem Household.yptr_named (h : Household s kids) (hp : p ∈ s.allocated)
    (hq : (s.task p).yptr = some q) : q ∈ s.allocated ∧ (s.task q).optr = some p := by
  have hidle : p ≠ idleproc := by
    rintro rfl
    cases hq.symm.trans h.kin.alone.2
  obtain ⟨r, -, hmem⟩ := h.kin.exists_parent hp hidle
  obtain ⟨hq, hforth⟩ := Backward.inverse (h.kin.chain r).older
    ((h.kin.chain r).younger (by simp)) hmem hq
  exact ⟨(h.kin.kid hq).1, hforth⟩

theorem Household.genealogy (h : Household s kids) : Genealogy s := by
  refine ⟨fun p hp => ⟨h.kin.rooted p hp, (h.kin.rooted p hp).not_ancestor h.kin.noParent⟩,
    fun p hp => ⟨kids p, ⟨(h.kin.chain p).first hp, (h.kin.chain p).older⟩, (h.kin.chain p).nodup,
      fun c => ?_⟩,
    fun a ha b hb => ⟨fun hab => (h.optr_named ha hab).2, fun hba => (h.yptr_named hb hba).2⟩,
    fun p hp q hq => ?_, h.kin.census.listed, h.kin.census.listNodup, h.kin.census.count⟩
  · rw [(h.kin.chain p).mem c]
    exact and_congr_right fun _ => and_iff_left (by simp)
  · rcases hq with hq | hq | hq | hq
    · exact h.kin.closed p hp q hq
    · exact (h.kin.kid (h.kin.mem_of_cptr hp hq)).1
    · exact (h.optr_named hp hq).1
    · exact (h.yptr_named hp hq).1

/-- In every run in which no thread exits while the next thread of its group is below it in the
tree, the processes form a tree and the pointers say so. -/
theorem processes_form_tree {calls : List FamilyCall} (hrun : Run CalmStep boot calls s) :
    Genealogy s := by
  have h : ∃ kids, Household s kids :=
    hrun.invariant (fun s _ s' (h : ∃ kids, Household s kids) hstep =>
      h.elim fun _ => hstep.household) ⟨_, household_boot⟩
  obtain ⟨kids, h⟩ := h
  exact h.genealogy

set_option synthInstance.maxSize 400

/-- A thread of `initproc` with a child exits and is reaped: the child goes to `initproc`. -/
theorem processes_form_tree_thread : ∃ s,
    Run CalmStep boot [.fork 1 2 true, .fork 2 3 false, .exit 2, .wait 1 none] s ∧
      s.allocated = [3, 1, 0] ∧ (s.task 3).parent = some 1 ∧ Genealogy s := by
  have hcheck : (doFork 1 2 true).wp False Never (fun _ s₁ =>
      s₁.Alive 2 ∧ 3 ∉ s₁.allocated ∧ (doFork 2 3 false).wp False Never (fun _ s₂ =>
        s₂.Alive 2 ∧ (s₂.task 2).nextThread = initproc ∧
        (s₂.task initproc).parent = some idleproc ∧ (s₂.task idleproc).parent = none ∧
        (doExit 2).wp False Never (fun _ s₃ =>
          s₃.Alive 1 ∧ (doWait 1 none).wp False Never (fun _ s =>
            s.allocated = [3, 1, 0] ∧ (s.task 3).parent = some 1) s₃) s₂) s₁) boot := by
    decide +kernel
  obtain ⟨ok, s₁, hcall₁, halive₁, hfree, hcheck⟩ := hcheck.returns_done
  obtain ⟨ok', s₂, hcall₂, halive₂, hnext, hinit, hidle, hcheck⟩ := hcheck.returns_done
  obtain ⟨⟨⟩, s₃, hcall₃, halive₃, hcheck⟩ := hcheck.returns_done
  obtain ⟨found, s, hcall, hallocated, hparent⟩ := hcheck.returns_done
  have hcalm : s₂.Calm 2 := by
    rw [Table.Calm, hnext]
    rintro - hleads
    exact absurd (eq_of_leads_initproc hinit hidle hleads) (by decide)
  have hrun : Run CalmStep boot [.fork 1 2 true, .fork 2 3 false, .exit 2, .wait 1 none] s :=
    .cons ⟨⟨by decide, by decide, ok, hcall₁⟩, by simp⟩
      (.cons ⟨⟨halive₁, hfree, ok', hcall₂⟩, by simp⟩
      (.cons ⟨⟨halive₂, hcall₃⟩, fun p hp => FamilyCall.exit.inj hp ▸ hcalm⟩
      (.cons ⟨⟨halive₃, found, hcall⟩, by simp⟩ (.nil s))))
  exact ⟨s, hrun, hallocated, hparent, processes_form_tree hrun⟩

/-- A process exits whose group has a thread that it created: the thread gets itself as a child,
and is its own parent. `nr_process` counts one more than there are on `proc_list`. -/
theorem thread_its_own_parent : ∃ s,
    Run Step boot [.fork 1 2 false, .fork 2 3 true, .exit 2] s ∧ (s.task 3).parent = some 3 ∧
      (s.task 3).cptr = some 3 ∧ s.nrProcess ≠ s.procList.length := by
  have hcheck : (doFork 1 2 false).wp False Never (fun _ s₁ =>
      s₁.Alive 2 ∧ 3 ∉ s₁.allocated ∧ (doFork 2 3 true).wp False Never (fun _ s₂ =>
        s₂.Alive 2 ∧ (doExit 2).wp False Never (fun _ s => (s.task 3).parent = some 3 ∧
          (s.task 3).cptr = some 3 ∧ s.nrProcess ≠ s.procList.length) s₂) s₁) boot := by
    decide +kernel
  obtain ⟨ok, s₁, hcall₁, halive₁, hfree, hcheck⟩ := hcheck.returns_done
  obtain ⟨ok', s₂, hcall₂, halive₂, hcheck⟩ := hcheck.returns_done
  obtain ⟨⟨⟩, s, hcall, hcheck⟩ := hcheck.returns_done
  exact ⟨s, .cons ⟨by decide, by decide, ok, hcall₁⟩ (.cons ⟨halive₁, hfree, ok', hcall₂⟩
    (.cons ⟨halive₂, hcall⟩ (.nil s))), hcheck⟩

end Ucore.Family
