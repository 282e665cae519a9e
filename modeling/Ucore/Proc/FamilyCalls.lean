import Ucore.Proc.FamilyLinks

/-!
# What the calls do to a family

Specifications of the functions of `Proc.Family` over tables whose pointers form a tree:
`set_links` and a turn of the loop in `__do_exit` attach a process, `remove_links` takes one out,
`list_add_before` and `de_thread` change thread groups only, and the search of `do_wait` changes
nothing and finds processes that have exited.
-/

namespace Ucore.Family

open Kern Function Table

variable {s s' : Table} {p q n c par z fuel : ℕ} {cur loose : Option ℕ} {kids : ℕ → List ℕ}
  {rest : List ℕ} {H : Prop} {E : Access → Table → Prop} {Q : Unit → Table → Prop}

/-! ## Links are set -/

/-- The links of a new process. -/
theorem wp_setLinks (h : Kin s kids none none) (hn : n ∉ s.allocated) (hp : p ∈ s.allocated)
    (hQ : Q () ((s.enrol p n).attach p n)) :
    (setLinks n).wp H E Q { s.setTask n (newTask p n) with allocated := n :: s.allocated } := by
  have hpn : p ≠ n := fun heq => hn (heq ▸ hp)
  have hparent : (s.enrol p n).task p = s.task p := task_enrol_of_ne hpn
  have hnin : n ∈ (s.enrol p n).allocated := List.mem_cons_self
  have hpin : p ∈ (s.enrol p n).allocated := List.mem_cons_of_mem n hp
  rw [setLinks, wp_put, wp_bind]
  refine wp_write hnin ?_
  refine wp_seq (wp_read hnin ?_)
  rw [task_edit, if_pos rfl]
  show wp (follow ((s.enrol p n).task n).parent >>= _) H E Q _
  rw [task_enrol_self]
  show wp (read p >>= _) H E Q _
  refine wp_seq (wp_read hpin ?_)
  rw [task_edit, if_neg hpn, wp_bind]
  refine wp_write hnin ?_
  refine wp_seq (wp_setYounger (fun o ho => ?_) ?_)
  · exact List.mem_cons_of_mem n (h.kid (h.mem_of_cptr hp (hparent ▸ ho))).1
  · refine wp_seq (wp_write hpin (of_task_eq (P := Q ()) hQ (fun x => ?_) rfl rfl rfl))
    have hfresh : (s.task p).cptr ≠ some n := fun heq => hn (h.kid (h.mem_of_cptr hp heq)).1
    by_cases hxn : x = n
    · simp [attach, younger, task_edit, task_enrol, hpn, hpn.symm, hxn, hfresh, newTask, setTask]
    · by_cases hxp : x = p
      · simp [attach, younger, task_edit, task_enrol, hpn, hxp, setTask]
      · simp [attach, younger, task_edit, task_enrol, hpn, hxn, hxp, setTask]

/-- One turn of the loop in `__do_exit`. -/
theorem wp_adopt_turn (h : Kin s kids (some p) none) (hkids : kids p = c :: rest)
    (hp : p ∈ s.allocated) (hpar : par ∈ s.allocated) (hnot : ¬Leads s.parentOf par p)
    (hQ : (adopt p par fuel).wp H E Q ((s.unhook p c).attach par c)) :
    (adopt p par (fuel + 1)).wp H E Q s := by
  have hc : c ∈ kids p := hkids ▸ List.mem_cons_self
  obtain ⟨hcalloc, hcparent, -⟩ := h.kid hc
  have hpp : par ≠ p := fun heq => hnot (heq ▸ .refl)
  have hcpar : c ≠ par := fun heq => hnot (heq ▸ .single hcparent)
  have hcp : c ≠ p := h.ne_of_kid hc
  have hcptr : (s.task p).cptr = some c := by
    rw [(h.chain p).first hp, hkids]
    rfl
  rw [adopt, wp_bind]
  refine wp_read hp ?_
  rw [hcptr]
  refine wp_seq (wp_read hcalloc ?_)
  refine wp_seq (wp_write hp ?_)
  refine wp_seq (wp_write hcalloc ?_)
  refine wp_seq (wp_read hpar ?_)
  refine wp_seq (wp_write hcalloc ?_)
  rw [wp_bind, task_edit, if_neg hcpar.symm, task_edit, if_neg hpp]
  refine wp_setYounger (fun o ho => (h.kid (h.mem_of_cptr hpar ho)).1) ?_
  refine wp_seq (wp_write hcalloc ?_)
  refine wp_seq (wp_write hpar (of_task_eq hQ (fun x => ?_) rfl rfl rfl))
  have hother : (s.task par).cptr ≠ some c := fun heq =>
    hpp (h.eq_of_kid (h.mem_of_cptr hpar heq) hc)
  by_cases hxc : x = c
  · simp [attach, unhook, younger, task_edit, hcpar, hpp, hcp, hxc, hother]
  · by_cases hxpar : x = par
    · simp [attach, unhook, younger, task_edit, hpp, hcpar.symm, hxpar]
    · by_cases hxp : x = p
      · simp [attach, unhook, younger, task_edit, hpp, hpp.symm, hcp.symm, hxp]
      · simp [attach, unhook, younger, task_edit, hpp, hxc, hxpar, hxp]

/-! ## All children are handed over -/

/-- Two states with the same processes and thread groups. -/
structure SameThreads (s s' : Table) : Prop where
  allocated : s'.allocated = s.allocated
  zombie : ∀ x, (s'.task x).zombie = (s.task x).zombie
  nextThread : ∀ x, (s'.task x).nextThread = (s.task x).nextThread
  prevThread : ∀ x, (s'.task x).prevThread = (s.task x).prevThread

theorem SameThreads.refl (s : Table) : SameThreads s s :=
  ⟨rfl, fun _ => rfl, fun _ => rfl, fun _ => rfl⟩

theorem SameThreads.trans {s'' : Table} (h : SameThreads s s') (h' : SameThreads s' s'') :
    SameThreads s s'' :=
  ⟨h'.allocated.trans h.allocated, fun x => (h'.zombie x).trans (h.zombie x),
    fun x => (h'.nextThread x).trans (h.nextThread x),
    fun x => (h'.prevThread x).trans (h.prevThread x)⟩

/-- The loop in `__do_exit`, when the heir is not below the process that exits: it ends, and the
children are on the list of the heir. -/
theorem wp_adopt (h : Kin s kids (some p) none) (hp : p ∈ s.allocated) (hpar : par ∈ s.allocated)
    (hnot : ¬Leads s.parentOf par p) (hinit : ∀ c ∈ kids p, c ≠ initproc)
    (hfuel : (kids p).length < fuel)
    (hQ : ∀ s' kids', Kin s' kids' none none → kids' p = [] →
      (∀ q, q ≠ p → q ≠ par → kids' q = kids q) → SameThreads s s' → Q () s') :
    (adopt p par fuel).wp H E Q s := by
  induction fuel generalizing s kids with
  | zero => exact absurd hfuel (Nat.not_lt_zero _)
  | succ fuel ih =>
    cases hkids : kids p with
    | nil =>
      rw [adopt, wp_bind]
      refine wp_read hp ?_
      rw [(h.chain p).first hp, hkids]
      exact hQ s kids (h.settle hkids) hkids (fun _ _ _ => rfl) (.refl s)
    | cons c rest =>
      refine wp_adopt_turn h hkids hp hpar hnot ?_
      have hc : c ∈ kids p := hkids ▸ List.mem_cons_self
      obtain ⟨hcalloc, hcparent, -⟩ := h.kid hc
      have hpp : par ≠ p := fun heq => hnot (heq ▸ .refl)
      have hparc : ¬Leads s.parentOf par c := fun hleads => hnot (hleads.tail hcparent)
      have hkin := (h.unhook hkids).attach hcalloc (h.ne_idleproc hc) (hinit c hc) hpar
        (fun heq => hpp (Option.some.inj heq)) hparc
      have hlist : ∀ q, q ≠ par → update (update kids p rest) par
          (c :: update kids p rest par) q = update kids p rest q :=
        fun q hq => update_of_ne hq ..
      have hother : ∀ x, x ≠ c → ((s.unhook p c).attach par c).parentOf x = s.parentOf x :=
        fun x hx => if_neg hx
      refine ih hkin hp hpar ((leads_of_not_leads hother hparc).not.mpr hnot) (fun x hx => ?_) ?_ ?_
      · rw [hlist p hpp.symm, update_self] at hx
        exact hinit x (hkids ▸ List.mem_cons_of_mem c hx)
      · rw [hkids, List.length_cons] at hfuel
        rw [hlist p hpp.symm, update_self]
        omega
      · intro s' kids' hkin' hnil hsame hthreads
        have hturn : SameThreads s ((s.unhook p c).attach par c) :=
          ⟨rfl, fun _ => rfl, fun _ => rfl, fun _ => rfl⟩
        refine hQ s' kids' hkin' hnil (fun q hq hq' => ?_) (hturn.trans hthreads)
        rw [hsame q hq hq', hlist q hq', update_of_ne hq]

/-! ## Links are removed -/

/-- What the last test of `remove_links` writes. -/
def Table.older (s : Table) (t : Task) : Table :=
  { s with task := fun x => { s.task x with
      cptr := if t.yptr = none ∧ t.parent = some x then t.optr else (s.task x).cptr
      optr := if t.yptr = some x then t.optr else (s.task x).optr } }

theorem wp_setOlder {t : Task} (hparent : t.parent = some p) (hp : p ∈ s.allocated)
    (hy : ∀ a, t.yptr = some a → a ∈ s.allocated) (hQ : Q () (s.older t)) :
    (setOlder t t.yptr).wp H E Q s := by
  cases hyptr : t.yptr with
  | none =>
    rw [setOlder, hparent]
    show (write p fun q => { q with cptr := t.optr }).wp H E Q s
    refine wp_write hp (of_task_eq hQ (fun x => ?_) rfl rfl rfl)
    rw [task_edit]
    by_cases hx : x = p
    · simp [older, hyptr, hparent, hx]
    · simp [older, hyptr, hparent, hx, Ne.symm hx]
  | some a =>
    show (write a fun u => { u with optr := t.optr }).wp H E Q s
    refine wp_write (hy a hyptr) (of_task_eq hQ (fun x => ?_) rfl rfl rfl)
    rw [task_edit]
    by_cases hx : x = a
    · simp [older, hyptr, hx]
    · simp [older, hyptr, hx, Ne.symm hx]

/-- The end of `do_wait`. -/
theorem wp_reap (h : Kin s kids none none) (hz : z ∈ kids p) (hp : p ∈ s.allocated)
    (hinit : z ≠ initproc) (hQ : Q () ((s.unlink z).dismiss z)) : (reap z).wp H E Q s := by
  obtain ⟨hzalloc, hzparent, -⟩ := h.kid hz
  obtain ⟨-, -, -, holder, hyounger⟩ := h.chain p
  have hopt : ∀ o, (s.task z).optr = some o → o ∈ s.allocated := fun o ho =>
    (h.kid (holder.inverse (hyounger (by simp)) hz ho).1).1
  have hypt : ∀ y, (s.task z).yptr = some y → y ∈ s.allocated := fun y hy =>
    (h.kid (Backward.inverse holder (hyounger (by simp)) hz hy).1).1
  refine wp_check (h.ne_idleproc hz) ?_
  refine wp_check hinit ?_
  rw [wp_bind, removeLinks, wp_put, wp_bind]
  refine wp_read hzalloc ?_
  refine wp_seq (wp_setYounger hopt ?_)
  refine wp_seq (wp_read hzalloc ?_)
  have hread : (younger { s with procList := s.procList.erase z } (s.task z).yptr
      (s.task z).optr).task z = s.task z := by
    simp [younger]
  rw [hread, wp_bind]
  exact wp_setOlder hzparent hp hypt hQ

/-! ## Thread groups -/

/-- The thread groups are rings. -/
def Rings (s : Table) : Prop :=
  Ring (· ∈ s.allocated) (fun p => (s.task p).nextThread) fun p => (s.task p).prevThread

theorem Rings.sameThreads (h : Rings s) (hsame : SameThreads s s') : Rings s' := by
  unfold Rings
  rw [hsame.allocated, funext hsame.nextThread, funext hsame.prevThread]
  exact h

theorem Rings.enrol (h : Rings s) (hn : n ∉ s.allocated) : Rings (s.enrol p n) := by
  have hnext : ∀ x, ((s.enrol p n).task x).nextThread =
      if x = n then n else (s.task x).nextThread := by
    intro x
    rw [task_enrol]
    split <;> rfl
  have hprev : ∀ x, ((s.enrol p n).task x).prevThread =
      if x = n then n else (s.task x).prevThread := by
    intro x
    rw [task_enrol]
    split <;> rfl
  exact ⟨h.extend_next hn (fun _ => List.mem_cons) hnext hprev,
    h.symm.extend_next hn (fun _ => List.mem_cons) hprev hnext⟩

/-- A new thread joins the group of `p`, before it. -/
def Table.join (s : Table) (p n : ℕ) : Table :=
  { s with task := fun x => { s.task x with
      nextThread := if x = n then p else if x = (s.task p).prevThread then n
        else (s.task x).nextThread
      prevThread := if x = n then (s.task p).prevThread else if x = p then n
        else (s.task x).prevThread } }

theorem wp_addThread (h : Rings s) (hp : p ∈ s.allocated) (hn : n ∈ s.allocated)
    (hQ : Q () (s.join p n)) : (addThread p n).wp H E Q s := by
  obtain ⟨hq, -⟩ := h.prev p hp
  rw [addThread, wp_bind]
  refine wp_read hp ?_
  refine wp_seq (wp_write hp ?_)
  refine wp_seq (wp_write hq (wp_write hn (of_task_eq hQ (fun x => ?_) rfl rfl rfl)))
  simp only [join, task_edit]
  split_ifs <;> rfl

/-- A thread leaves its group. -/
def Table.leave (s : Table) (p : ℕ) : Table :=
  { s with task := fun x => { s.task x with
      nextThread := if x = p then p else if x = (s.task p).prevThread then (s.task p).nextThread
        else (s.task x).nextThread
      prevThread := if x = p then p else if x = (s.task p).nextThread then (s.task p).prevThread
        else (s.task x).prevThread } }

theorem wp_deThread (h : Rings s) (hp : p ∈ s.allocated) (hQ : Q () (s.leave p)) :
    (deThread p).wp H E Q s := by
  obtain ⟨hnext, hback⟩ := h.next p hp
  obtain ⟨hprev, hforth⟩ := h.prev p hp
  rw [deThread, wp_bind]
  refine wp_read hp ?_
  refine wp_if (fun halone => ?_) fun hothers => ?_
  · refine of_task_eq hQ (fun x => ?_) rfl rfl rfl
    have hself : (s.task p).prevThread = p := by
      rw [halone] at hback
      exact hback
    simp only [leave, halone, hself]
    split_ifs with hx
    · have hfields : s.task p = { s.task p with
          nextThread := (s.task p).nextThread, prevThread := (s.task p).prevThread } := rfl
      rw [halone, hself] at hfields
      exact hx ▸ hfields
    · rfl
  · refine wp_seq (wp_write hprev ?_)
    refine wp_seq (wp_write hnext (wp_write hp (of_task_eq hQ (fun x => ?_) rfl rfl rfl)))
    simp only [leave, task_edit]
    split_ifs <;> rfl

/-- A new thread, alone so far, joins a group. -/
theorem Rings.join (h : Rings s) (hp : p ∈ s.allocated) (hn : n ∈ s.allocated) (hne : n ≠ p)
    (halone : (s.task n).nextThread = n) : Rings (s.join p n) := by
  obtain ⟨hq, hforth⟩ := h.prev p hp
  refine ⟨h.insert_next hq hn (fun heq => hne ?_) halone hforth (fun _ => rfl) fun _ => rfl,
    h.symm.insert_next hp hn hne (h.alone hn halone) rfl (fun _ => rfl) fun _ => rfl⟩
  rw [← hforth, ← heq, halone]

theorem Rings.leave (h : Rings s) (hp : p ∈ s.allocated) : Rings (s.leave p) :=
  ⟨h.remove_next hp (fun _ => rfl) fun _ => rfl, h.symm.remove_next hp (fun _ => rfl) fun _ => rfl⟩

/-- A thread that is alone in its group can be freed. -/
theorem Rings.dismiss (h : Rings s) (hz : z ∈ s.allocated) (halone : (s.task z).nextThread = z)
    (hnodup : s.allocated.Nodup) : Rings (s.dismiss z) :=
  ⟨h.drop_next hz halone fun _ => hnodup.mem_erase_iff,
    h.symm.drop_next hz (h.alone hz halone) fun _ => hnodup.mem_erase_iff⟩

/-! ## The search of `do_wait` -/

/-- Who is found has exited. -/
def Table.Found (s : Table) (found : WaitScan) : Prop :=
  ∀ z, found = .dead z → z ∈ s.allocated ∧ (s.task z).zombie = true

theorem found_nobody : s.Found .nobody := nofun

theorem found_kid : s.Found .kid := nofun

theorem found_dead (hz : z ∈ s.allocated) (hzombie : (s.task z).zombie = true) :
    s.Found (.dead z) := fun _ h => WaitScan.dead.inj h ▸ ⟨hz, hzombie⟩

variable {me fuel turns : ℕ} {found : WaitScan}

theorem wp_scanParents : (scanParents me z fuel p).wp True Any
    (fun found s' => s' = s ∧ s.Found found) s := by
  induction fuel generalizing p with
  | zero => trivial
  | succ fuel ih =>
    rw [scanParents, wp_bind]
    refine wp_read_any fun hz => ?_
    refine wp_if (fun _ => ⟨rfl, ?_⟩) fun _ => ?_
    · by_cases hzombie : (s.task z).zombie = true
      · rw [if_pos hzombie]
        exact found_dead hz hzombie
      · rw [if_neg hzombie]
        exact found_kid
    · refine wp_seq (wp_read_any fun _ => ?_)
      exact wp_if (fun _ => ⟨rfl, found_nobody⟩) fun _ => ih

theorem wp_scanKids {first : Option ℕ} (hfound : s.Found found) :
    (scanKids fuel first found).wp True Any (fun found s' => s' = s ∧ s.Found found) s := by
  induction fuel generalizing first found with
  | zero => trivial
  | succ fuel ih =>
    cases first with
    | none => exact ⟨rfl, hfound⟩
    | some c =>
      rw [scanKids, wp_bind]
      refine wp_read_any fun hc => ?_
      exact wp_if (fun hzombie => ⟨rfl, found_dead hc hzombie⟩) fun _ => ih found_kid

theorem wp_scanGroup (hfound : s.Found found) : (scanGroup me fuel turns p found).wp True Any
      (fun found s' => s' = s ∧ s.Found found) s := by
  induction turns generalizing p found with
  | zero => trivial
  | succ turns ih =>
    rw [scanGroup, wp_bind]
    refine wp_read_any fun hp => ?_
    refine wp_seq ((wp_scanKids hfound).imp ?_)
    rintro found' _ ⟨rfl, hfound'⟩
    cases found' with
    | dead z => exact ⟨rfl, hfound'⟩
    | nobody | kid =>
      refine (wp_ite _ _ _ _).mpr ⟨fun _ => ⟨rfl, hfound'⟩, fun _ => ih hfound'⟩

theorem wp_scan {target : Option ℕ} : (scan me target).wp True Any
    (fun found s' => s' = s ∧ s.Found found) s := by
  cases target with
  | none => exact wp_scanGroup found_nobody
  | some z =>
    refine (wp_ite _ _ _ _).mpr ⟨fun _ => wp_scanParents, fun _ => ⟨rfl, found_nobody⟩⟩

end Ucore.Family
