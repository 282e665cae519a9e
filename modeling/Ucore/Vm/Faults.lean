import Ucore.Vm.Unmap

/-!
# Page faults

What `do_pgfault` does once it has an area that allows the access: a page of zeros, the page of
a shared memory, a copy of a page that others use too, or the page itself if no other slot
names it.
-/

namespace Ucore.Vm

open Kern Function Finset

variable {H : Prop} {E : Err → Mem → Prop} {s s' s₁ : Mem} {hand : Finset ℕ}
  {d la t f page off m : ℕ} {v : Vma} {e : FaultCode} {prot : Prot} {Q : Unit → Mem → Prop}

/-- The place in a shared memory of an address in an area. -/
def Vma.offset (v : Vma) (la : ℕ) : ℕ := la - v.vmStart + v.shmemOff

/-- What a fault at `la` does when it succeeds: the slot has the page `f`. -/
inductive Faulted (s s' : Mem) (d la : ℕ) (v : Vma) (f : ℕ) : Prop
  | zero (hempty : s.entry (slot d la) = .none) (hprivate : v.has vmShare = false)
      (hnew : f ∉ s.heap.live) (hsets : Sets s s' d la (.page f v.perm.prot))
  | shared {m : ℕ} {s₁ : Mem} {prot : Prot} (hempty : s.entry (slot d la) = .none)
      (hshare : v.has vmShare = true) (hshmem : v.shmem = some m)
      (hshared : SharedPage s s₁ m (v.offset la))
      (hfound : s₁.entry (shSlot m (v.offset la)) = .page f prot)
      (hsets : Sets s₁ s' d la (.page f v.perm.prot))
  | copy {page : ℕ} {prot : Prot} (hpage : s.entry (slot d la) = .page page prot)
      (hcow : v.cow = true) (href : 1 < s.ref page) (hnew : f ∉ s.heap.live)
      (hsets : Sets s s' d la (.page f v.perm.prot))
  | last {prot : Prot} (hpage : s.entry (slot d la) = .page f prot) (hcow : v.cow = true)
      (href : s.ref f ≤ 1) (hsets : Sets s s' d la (.page f v.perm.prot))

/-- What a fault leaves alone that sets no slot of an address. -/
structure FaultFailed (s s' : Mem) : Prop where
  dir : ∀ d i j, s'.entry (.dir d i, j) = s.entry (.dir d i, j)
  attr : ∀ m, (s'.shmem m).len = (s.shmem m).len ∧ (s'.shmem m).ref = (s.shmem m).ref
  blank : ∀ m, (s.shmem m).len = 0 → s'.shmem m = s.shmem m

theorem Opened.sets {x : Pte} (hopen : Opened s s₁ d la t) (hsets : Sets s₁ s' d la x) :
    Sets s s' d la x := by
  refine ⟨?_, hsets.shmem.trans hopen.shmem⟩
  rw [hsets.entry, hopen.entry]

theorem FaultFailed.of_eq (hentry : s'.entry = s.entry) (hshmem : s'.shmem = s.shmem) :
    FaultFailed s s' := by
  refine ⟨fun d i j => ?_, fun m => ?_, fun m _ => ?_⟩
  · rw [hentry]
  · rw [hshmem]
    exact ⟨rfl, rfl⟩
  · rw [hshmem]

theorem SharedPage.failed (h : SharedPage s s' m off) : FaultFailed s s' := by
  refine { h with dir := fun d i j => ?_ }
  rcases h.entry with heq | ⟨f, -, -, heq⟩
  · rw [heq]
  · rw [heq]
    simp [shSlot]

theorem Opened.failed (hopen : Opened s s₁ d la t) (hfailed : FaultFailed s₁ s') :
    FaultFailed s s' := by
  refine ⟨fun d i j => ?_, fun m => ?_, fun m => ?_⟩
  · rw [hfailed.dir, hopen.entry]
  · rw [← hopen.shmem]
    exact hfailed.attr m
  · rw [← hopen.shmem]
    exact hfailed.blank m

section Fault

variable (h : MemOk hand s) (hE : ∀ s', MemOk hand s' → FaultFailed s s' → E .noMem s')
  (hQ : ∀ s' f, MemOk hand s' → Faulted s s' d la v f → Q () s')
include h hE hQ

/-- A slot without a page in a private area. -/
theorem wp_faultPrivate (hempty : s.entry (slot d la) = .none) (hprivate : v.has vmShare = false) :
    (faultEmpty d v la).wp H E Q s := by
  rw [faultEmpty]
  refine wp_if (fun _ => ?_) (absurd hprivate)
  refine wp_seq (wp_pgdirAllocPage h (fun s' h' hentry hshmem => ?_) fun s' f h' hf hsets => ?_)
  · exact hE s' h' (.of_eq hentry hshmem)
  · exact hQ s' f h' (.zero hempty hprivate hf hsets)

/-- A slot without a page in a shared area. -/
theorem wp_faultShared (hempty : s.entry (slot d la) = .none) (hshare : v.has vmShare = true)
    (hdir : (s.tableOf (.dir d (pdx la))).isSome)
    (hlen : H ∨ ∀ m, v.shmem = some m → v.offset la < (s.shmem m).len)
    (hnull : v.shmem = none → E .nullAccess s) :
    (faultEmpty d v la).wp H E Q s := by
  rw [faultEmpty]
  refine wp_if (fun hprivate => absurd (hshare.symm.trans hprivate) (by simp)) fun _ => ?_
  rw [faultShared]
  cases hshmem : v.shmem with
  | none => exact hnull hshmem
  | some m =>
    refine wp_seq (wp_shmemGetEntry h (hlen.imp_right fun hlen => hlen m hshmem)
      (fun s' h' hquiet => hE s' h' (.of_eq hquiet.entry hquiet.shmem)) fun s₁ t h₁ hgot => ?_)
    have hpage : SharedPage s s₁ m (v.offset la) := hgot.toSharedPage
    have hpte : s₁.pte (t, ptx (la - v.vmStart + v.shmemOff)) = s₁.entry (shSlot m (v.offset la)) :=
      (entry_eq hgot.table).symm
    rw [wp_get, hpte]
    cases hfound : s₁.entry (shSlot m (v.offset la)) with
    | none => exact hE s₁ h₁ hpage.failed
    | page f prot =>
      have hnames : s₁.names (shSlot m (v.offset la)) = some f := by
        rw [Mem.names, hfound, Pte.frame?]
      obtain ⟨hlive, htable, hhand⟩ := h₁.named hnames
      rw [wp_ignore]
      refine wp_pageInsert h₁ hlive htable (fun s' _ _ hnone => ?_) fun s' h' hsets => ?_
      · rw [← hgot.other _ (by simp), hnone] at hdir
        cases hdir
      · rw [erase_eq_of_notMem hhand] at h'
        exact hQ s' f h' (.shared hempty hshare hshmem hpage hfound hsets)

/-- A page that nobody else uses, or a copy of it. -/
theorem wp_faultPresent (hpage : s.entry (slot d la) = .page page prot)
    (hdir : (s.tableOf (.dir d (pdx la))).isSome)
    (hcow : H ∨ e.write = true ∧ prot.uWrite = false ∧ v.cow = true) :
    (faultPresent d v e la page prot).wp H E Q s := by
  have hnames : s.names (slot d la) = some page := by rw [Mem.names, hpage, Pte.frame?]
  obtain ⟨hlive, htable, hhand⟩ := h.named hnames
  have hnone : ∀ {s₁ : Mem}, s₁.tableOf = s.tableOf →
      s₁.tableOf (.dir d (pdx la)) = none → False := by
    intro s₁ htables hnone
    rw [← htables, hnone] at hdir
    cases hdir
  rw [faultPresent, wp_bind, wp_assert]
  refine ⟨fun hassert => ?_, hcow.resolve_right⟩
  obtain ⟨-, -, hcow⟩ := hassert
  rw [hcow, wp_bind]
  refine wp_allocPage (fun h' hlive' => ?_) fun f h' hf hlive' => ?_
  · have hok := h.failed hlive'
    rw [wp_get]
    refine wp_if (fun _ => hE _ hok (.of_eq rfl rfl)) fun href => ?_
    rw [not_and] at href
    rw [wp_bind, wp_ignore]
    refine wp_pageInsert hok (hlive' ▸ hlive) htable (fun s' _ _ hno => (hnone rfl hno).elim)
      fun s' hok' hsets => ?_
    rw [erase_eq_of_notMem hhand] at hok'
    exact hQ s' page hok' (.last hpage hcow (not_lt.mp (href rfl)) { hsets with })
  · have hok := h.alloc hf hlive'
    have hne : page ≠ f := by
      rintro rfl
      exact hf hlive
    have hfhand : f ∉ hand := fun hmem => hf (h.hand_live hmem).1
    have hpagelive : page ∈ h'.live := by
      rw [hlive']
      exact .tail _ hlive
    have hflive : f ∈ h'.live := by
      rw [hlive']
      exact .head _
    rw [wp_get]
    refine wp_if (fun href => ?_) fun href => ?_
    · rw [wp_bind, copyPage, wp_modify, wp_ignore]
      have hcopy : MemOk (insert f hand) { s with
          heap := h', data := update s.data f (s.data page) } :=
        hok.same rfl rfl rfl rfl rfl (fun _ => rfl) hok.cache
      refine wp_pageInsert hcopy hflive (h.not_table hf) (fun s' _ _ hno => (hnone rfl hno).elim)
        fun s' hok' hsets => ?_
      rw [erase_insert hfhand] at hok'
      exact hQ s' f hok' (.copy hpage hcow href.2 hf { hsets with })
    · rw [not_and] at href
      rw [wp_bind, wp_ignore]
      refine wp_pageInsert hok hpagelive htable (fun s' _ _ hno => (hnone rfl hno).elim)
        fun s' hok' hsets => ?_
      have hhand' : page ∉ insert f hand := by
        rw [mem_insert, not_or]
        exact ⟨hne, hhand⟩
      rw [erase_eq_of_notMem hhand'] at hok'
      show (freePage f).wp H E Q s'
      rw [wp_freePage]
      have hnames' : ∀ x, s'.names x ≠ some f := fun x hx =>
        (hok'.named hx).2.2 (mem_insert_self f hand)
      have hfree := hok'.free hnames' (hok'.hand_live (mem_insert_self f hand)).2
      rw [erase_insert hfhand] at hfree
      refine hQ _ page hfree (.last hpage hcow (not_lt.mp (href rfl)) ?_)
      exact ⟨quiet_freed.entry.trans hsets.entry, hsets.shmem⟩

end Fault

/-- What is found in the way of a fault: a page that the access does not need a copy of, or a
shared memory that is missing or too short. -/
structure FaultOk (s : Mem) (d la : ℕ) (v : Vma) (e : FaultCode) : Prop where
  present : ∀ page prot, s.entry (slot d la) = .page page prot →
    e.write = true ∧ prot.uWrite = false ∧ v.cow = true
  shared : s.entry (slot d la) = .none → v.has vmShare = true →
    ∀ m, v.shmem = some m → v.offset la < (s.shmem m).len

/-- Equal slots are counted equally. -/
theorem MemOk.ref_eq {hand' : Finset ℕ} (h : MemOk hand s) (h' : MemOk hand' s')
    (hnames : s'.names = s.names) (hf : ¬s.IsTable f) (hf' : ¬s'.IsTable f) :
    s'.ref f = s.ref f := by
  obtain ⟨n, hn, href⟩ := h.counts hf
  obtain ⟨n', hn', href'⟩ := h'.counts hf'
  rw [hnames] at hn'
  rw [href, href', hn.unique hn']

/-- A fault after the table of its slot was opened. -/
theorem Opened.faulted (h : MemOk hand s) (h₁ : MemOk hand s₁) (hopen : Opened s s₁ d la t)
    (hfaulted : Faulted s₁ s' d la v f) : Faulted s s' d la v f := by
  have hlive : ∀ {g}, g ∉ s₁.heap.live → g ∉ s.heap.live := fun hg hmem => hg (hopen.live _ hmem).1
  have hnames : s₁.names = s.names := by
    funext x
    rw [Mem.names, Mem.names, hopen.entry]
  have href : ∀ {page prot}, s₁.entry (slot d la) = .page page prot → s₁.ref page = s.ref page := by
    intro page prot hpage
    have hname : s₁.names (slot d la) = some page := by rw [Mem.names, hpage, Pte.frame?]
    exact h.ref_eq h₁ hnames (h.named (hnames ▸ hname)).2.1 (h₁.named hname).2.1
  cases hfaulted with
  | zero hempty hprivate hnew hsets =>
    rw [hopen.entry] at hempty
    exact .zero hempty hprivate (hlive hnew) (hopen.sets hsets)
  | shared hempty hshare hshmem hshared hfound hsets =>
    rw [hopen.entry] at hempty
    refine .shared hempty hshare hshmem ⟨?_, fun m => ?_, fun m => ?_⟩ hfound hsets
    · rcases hshared.entry with heq | ⟨g, hg, hslot, heq⟩
      · exact .inl (heq.trans hopen.entry)
      · rw [hopen.entry] at hslot heq
        exact .inr ⟨g, hlive hg, hslot, heq⟩
    · rw [← hopen.shmem]
      exact hshared.attr m
    · rw [← hopen.shmem]
      exact hshared.blank m
  | copy hpage hcow hcount hnew hsets =>
    rw [href hpage] at hcount
    rw [hopen.entry] at hpage
    exact .copy hpage hcow hcount (hlive hnew) (hopen.sets hsets)
  | last hpage hcow hcount hsets =>
    rw [href hpage] at hcount
    rw [hopen.entry] at hpage
    exact .last hpage hcow hcount (hopen.sets hsets)

/-- `do_pgfault` in an area that allows the access. -/
theorem wp_fault (h : MemOk hand s) (hok : H ∨ FaultOk s d la v e)
    (hnull : s.entry (slot d la) = .none → v.has vmShare = true → v.shmem = none →
      ∀ s', MemOk hand s' → FaultFailed s s' → E .nullAccess s')
    (hE : ∀ s', MemOk hand s' → FaultFailed s s' → E .noMem s')
    (hQ : ∀ s' f, MemOk hand s' → Faulted s s' d la v f → Q () s') :
    (fault d v e la).wp H E Q s := by
  rw [fault, wp_bind]
  refine wp_getPte h (fun s' h' hquiet _ _ => hE s' h' (.of_eq hquiet.entry hquiet.shmem))
    fun s₁ t h₁ hopen _ => ?_
  have hpte : s₁.pte (t, ptx la) = s₁.entry (slot d la) := (entry_eq hopen.table).symm
  have hdir : (s₁.tableOf (.dir d (pdx la))).isSome := by rw [hopen.table]; rfl
  -- what comes after the table was opened
  have hE₁ : ∀ s', MemOk hand s' → FaultFailed s₁ s' → E .noMem s' := fun s' h' hf =>
    hE s' h' (hopen.failed hf)
  have hQ₁ : ∀ s' f, MemOk hand s' → Faulted s₁ s' d la v f → Q () s' := fun s' f h' hfaulted =>
    hQ s' f h' (hopen.faulted h h₁ hfaulted)
  rw [wp_get, hpte]
  cases hentry : s₁.entry (slot d la) with
  | none =>
    have hempty : s.entry (slot d la) = .none := by rw [← hopen.entry, hentry]
    by_cases hshare : v.has vmShare = true
    · refine wp_faultShared h₁ hE₁ hQ₁ hentry hshare hdir ?_ ?_
      · refine hok.imp_right fun hok m hm => ?_
        rw [hopen.shmem]
        exact hok.shared hempty hshare m hm
      · exact fun hno => hnull hempty hshare hno s₁ h₁ (hopen.failed (.of_eq rfl rfl))
    · rw [Bool.not_eq_true] at hshare
      exact wp_faultPrivate h₁ hE₁ hQ₁ hentry hshare
  | page page prot =>
    have hpage : s.entry (slot d la) = .page page prot := by rw [← hopen.entry, hentry]
    exact wp_faultPresent h₁ hE₁ hQ₁ hentry hdir
      (hok.imp_right fun hok => hok.present page prot hpage)

/-- A fault sets its slot, after the page of a shared memory was found. -/
theorem Faulted.sets (h : Faulted s s' d la v f) :
    ∃ s₀, FaultFailed s s₀ ∧ Sets s₀ s' d la (.page f v.perm.prot) := by
  cases h with
  | zero _ _ _ hsets => exact ⟨s, .of_eq rfl rfl, hsets⟩
  | shared _ _ _ hshared _ hsets => exact ⟨_, hshared.failed, hsets⟩
  | copy _ _ _ _ hsets => exact ⟨s, .of_eq rfl rfl, hsets⟩
  | last _ _ _ hsets => exact ⟨s, .of_eq rfl rfl, hsets⟩

/-- No other slot of an address changes. -/
theorem Faulted.entry_dir {i j : ℕ} {d' : ℕ} (h : Faulted s s' d la v f)
    (hne : ((.dir d' i, j) : Slot) ≠ slot d la) :
    s'.entry (.dir d' i, j) = s.entry (.dir d' i, j) := by
  obtain ⟨s₀, hs₀, hsets⟩ := h.sets
  rw [hsets.entry, update_of_ne hne, hs₀.dir]

/-- No shared memory changes but for its nodes. -/
theorem Faulted.attr (h : Faulted s s' d la v f) (m : ℕ) :
    (s'.shmem m).len = (s.shmem m).len ∧ (s'.shmem m).ref = (s.shmem m).ref ∧
      ((s.shmem m).len = 0 → s'.shmem m = s.shmem m) := by
  obtain ⟨s₀, hs₀, hsets⟩ := h.sets
  rw [hsets.shmem]
  exact ⟨(hs₀.attr m).1, (hs₀.attr m).2, hs₀.blank m⟩

/-! ## `do_pgfault` -/

variable {S : Spaces} {loose : List ℕ} {x addr : ℕ}

/-- `do_pgfault` finds the area of an address and only changes the cache before it goes on. -/
theorem wp_doPgfault {E : Err → Spaces → Prop} {Q : Unit → Spaces → Prop}
    (hmm : MmOk loose (S.mm d))
    (hinval : ∀ m', MmOk loose m' → SameAreas (S.mm d) m' →
      (∀ x, (S.mm d).firstAfter addr (S.mm d).mmapList = some x →
        ¬((S.mm d).vma x).Takes e addr) → E .inval (S.setMm d m'))
    (htakes : ∀ x m', MmOk loose m' → SameAreas (S.mm d) m' →
      (S.mm d).firstAfter addr (S.mm d).mmapList = some x → ((S.mm d).vma x).Takes e addr →
      (fault d ((S.mm d).vma x) e (roundDown addr pgSize)).wp H
        (fun e s => E e (S.put d m' s)) (fun _ s => Q () (S.put d m' s))
        S.mem) :
    (doPgfault d e addr).wp H E Q S := by
  rw [doPgfault, wp_bind, wp_onMm]
  refine wp_findVma hmm (fun hnone => ?_) fun x hx => ?_
  · refine hinval _ hmm .refl fun x hx => ?_
    rw [hnone] at hx
    cases hx
  · have hcached := hmm.cached (mem_of_firstAfter hx).1
    rw [wp_get, mm_setMm_self, Option.map_some]
    by_cases htakes' : ((S.mm d).vma x).Takes e addr
    · rw [Option.filter_some, if_pos (decide_eq_true htakes')]
      rw [wp_onMem]
      exact htakes x _ hcached ⟨rfl, rfl, rfl⟩ hx htakes'
    · rw [Option.filter_some, if_neg (by simpa using htakes')]
      refine hinval _ hcached ⟨rfl, rfl, rfl⟩ fun y hy => ?_
      rw [hx, Option.some.injEq] at hy
      exact hy ▸ htakes'

end Ucore.Vm
