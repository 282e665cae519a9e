import Ucore.Lib.Ledger
import Ucore.Vm.Memory

/-!
# What the page tables hold

A table belongs to an entry of a page directory or to a node of a shared memory, its owner. The
entries of all tables are the slots. `MemOk` says that every page counts the slots that name
it, that pages that are named are not free, and that every page in use has an owner, is named,
or is in the hand of the code that has just allocated it.
-/

namespace Ucore.Vm

open Kern Function List Finset Mem

/-- The owner of a table. -/
inductive Owner where
  | dir (d i : ℕ)
  | shmn (m start : ℕ)
  deriving DecidableEq

/-- A place for an entry. -/
abbrev Slot := Owner × ℕ

/-- The slot of an address. -/
def slot (d la : ℕ) : Slot := (.dir d (pdx la), ptx la)

/-- The table of an owner. -/
def Mem.tableOf (s : Mem) : Owner → Option ℕ
  | .dir d i => s.pgdir d i
  | .shmn m start => ((s.shmem m).nodes.find? fun n => n.start = start).map (·.entry)

/-- What a slot holds. -/
def Mem.entry (s : Mem) (x : Slot) : Pte :=
  match s.tableOf x.1 with
  | some t => s.table t x.2
  | none => .none

/-- The page that a slot names. -/
def Mem.names (s : Mem) (x : Slot) : Option ℕ := (s.entry x).frame?

/-- No table has two owners. -/
def Mem.TablesInj (s : Mem) : Prop :=
  ∀ o o' t, s.tableOf o = some t → s.tableOf o' = some t → o = o'

/-- The page is a table. -/
def Mem.IsTable (s : Mem) (f : ℕ) : Prop := ∃ o, s.tableOf o = some f

structure MemOk (hand : Finset ℕ) (s : Mem) : Prop where
  nodup : s.heap.live.Nodup
  inj : s.TablesInj
  table_live : ∀ {f}, s.IsTable f → f ∈ s.heap.live
  /-- A page that is named is in use, and is neither a table nor new. -/
  named : ∀ {x f}, s.names x = some f → f ∈ s.heap.live ∧ ¬s.IsTable f ∧ f ∉ hand
  /-- A table has `NPTEENTRY` entries. -/
  bounded : ∀ {x f}, s.names x = some f → x.2 < nptEntry
  hand_live : ∀ {f}, f ∈ hand → f ∈ s.heap.live ∧ ¬s.IsTable f
  /-- A page counts the slots that name it. -/
  counts : ∀ {f}, ¬s.IsTable f → ∃ n : ℕ, Counts s.names f n ∧ s.ref f = n
  io_live : ∀ {f}, s.io f = true → f ∈ s.heap.live
  /-- A page in use that is not for IO has a reason to be. -/
  owned : ∀ {f}, f ∈ s.heap.live → s.io f = false → f ∈ hand ∨ s.IsTable f ∨ ∃ x, s.names x = some f
  nodes : ∀ m, (s.shmem m).nodes.Pairwise fun a b => a.fin ≤ b.start
  aligned : ∀ m, ∀ n ∈ (s.shmem m).nodes, n.start % (pgSize * nptEntry) = 0
  cache : ∀ m n, (s.shmem m).cache = some n → n ∈ (s.shmem m).nodes

variable {H : Prop} {E : Err → Mem → Prop} {s s' : Mem} {hand : Finset ℕ} {x : Slot} {o : Owner}
  {d f la page t j : ℕ} {v : Pte} {perm : Perm} {prot : Prot} {Q : Unit → Mem → Prop} {keep : Bool}
  {p : Ptep} {h' : Heap ℕ}

theorem entry_eq (h : s.tableOf o = some t) : s.entry (o, j) = s.table t j := by
  rw [entry, h]

theorem entry_none (h : s.tableOf o = none) : s.entry (o, j) = .none := by
  rw [entry, h]

/-- The nodes of a shared area. -/
structure Shmem.Ok (m : Shmem) : Prop where
  nodes : m.nodes.Pairwise fun a b => a.fin ≤ b.start
  aligned : ∀ n ∈ m.nodes, n.start % (pgSize * nptEntry) = 0
  cache : ∀ n, m.cache = some n → n ∈ m.nodes

theorem MemOk.shares (h : MemOk hand s) (m : ℕ) : (s.shmem m).Ok :=
  ⟨h.nodes m, h.aligned m, h.cache m⟩

theorem MemOk.ledger (h : MemOk hand s) : Ledger s.heap.live hand s.IsTable s.names s.ref s.io :=
  ⟨h.nodup, fun _ => ⟨h.table_live, h.named, h.hand_live, h.counts, h.io_live, h.owned⟩⟩

theorem MemOk.of_ledger (h : Ledger s.heap.live hand s.IsTable s.names s.ref s.io)
    (hinj : s.TablesInj) (hbounded : ∀ {x f}, s.names x = some f → x.2 < nptEntry)
    (hshares : ∀ m, (s.shmem m).Ok) : MemOk hand s :=
  ⟨h.nodup, hinj, (h.page _).table_live, (h.page _).named, hbounded, (h.page _).hand_live,
    (h.page _).counts, (h.page _).pinned_live, (h.page _).owned, fun m => (hshares m).nodes,
    fun m => (hshares m).aligned, fun m => (hshares m).cache⟩

/-- What a change leaves alone if it does not concern what the tables hold. -/
structure Quiet (s s' : Mem) : Prop where
  table : s'.table = s.table
  pgdir : s'.pgdir = s.pgdir
  shmem : s'.shmem = s.shmem

theorem Quiet.refl (s : Mem) : Quiet s s := ⟨rfl, rfl, rfl⟩

theorem Quiet.tableOf (h : Quiet s s') : s'.tableOf = s.tableOf := by
  funext o
  cases o with
  | dir d i => rw [Mem.tableOf, Mem.tableOf, h.pgdir]
  | shmn m start => rw [Mem.tableOf, Mem.tableOf, h.shmem]

theorem Quiet.entry (h : Quiet s s') : s'.entry = s.entry := by
  funext x
  rw [Mem.entry, Mem.entry, h.tableOf, h.table]

theorem Quiet.names (h : Quiet s s') : s'.names = s.names := by
  funext x
  rw [Mem.names, Mem.names, h.entry]

theorem Quiet.inj (h : Quiet s s') (hinj : s.TablesInj) : s'.TablesInj := by
  intro o o' t
  rw [h.tableOf]
  exact hinj o o' t

theorem Quiet.isTable (h : Quiet s s') : s'.IsTable = s.IsTable := by
  funext f
  rw [IsTable, IsTable, h.tableOf]

/-- No page is in use. -/
structure Mem.Fresh (s : Mem) : Prop where
  live : s.heap.live = []
  ref : ∀ f, s.ref f = 0
  io : ∀ f, s.io f = false
  pgdir : ∀ d i, s.pgdir d i = none
  shmem : ∀ m, (s.shmem m).nodes = [] ∧ (s.shmem m).cache = none

theorem Mem.Fresh.tableOf (h : s.Fresh) : s.tableOf o = none := by
  cases o with
  | dir d i => exact h.pgdir d i
  | shmn m start =>
    rw [tableOf, (h.shmem m).1]
    rfl

theorem Mem.Fresh.memOk (h : s.Fresh) : MemOk ∅ s := by
  have htable : ∀ f, ¬s.IsTable f := by
    rintro f ⟨o, ho⟩
    rw [h.tableOf] at ho
    cases ho
  have hnames : ∀ x f, s.names x ≠ some f := by
    rintro ⟨o, j⟩ f hx
    rw [names, entry_none h.tableOf] at hx
    cases hx
  refine ⟨?_, ?_, fun hf => absurd hf (htable _), fun hx => absurd hx (hnames _ _),
    fun hx => absurd hx (hnames _ _), fun hf => absurd hf (notMem_empty _), ?_, ?_, ?_,
    ?_, ?_, ?_⟩
  · rw [h.live]
    exact nodup_nil
  · intro o o' t ho
    exact absurd ⟨o, ho⟩ (htable t)
  · intro f _
    exact ⟨0, counts_zero.mpr fun x => hnames x f, h.ref f⟩
  · intro f hf
    rw [h.io f] at hf
    cases hf
  · intro f hf
    rw [h.live] at hf
    cases hf
  · intro m
    rw [(h.shmem m).1]
    exact List.Pairwise.nil
  · intro m n hn
    rw [(h.shmem m).1] at hn
    cases hn
  · intro m n hn
    rw [(h.shmem m).2] at hn
    cases hn

/-! ## Pages in the hand -/

theorem wp_allocPage {Q : Option ℕ → Mem → Prop}
    (hnone : ∀ h', h'.live = s.heap.live → Q none { s with heap := h' })
    (hsome : ∀ f h', f ∉ s.heap.live → h'.live = f :: s.heap.live →
      Q (some f) { s with heap := h' }) : allocPage.wp H E Q s := by
  rw [allocPage, wp_zoom]
  exact Heap.wp_alloc (fun h' _ => hnone h') hsome

/-- What `MemOk` depends on. -/
theorem MemOk.same (h : MemOk hand s) (hlive : s'.heap.live = s.heap.live)
    (htableOf : s'.tableOf = s.tableOf) (htable : s'.table = s.table) (href : s'.ref = s.ref)
    (hio : s'.io = s.io) (hnodes : ∀ m, (s'.shmem m).nodes = (s.shmem m).nodes)
    (hcache : ∀ m n, (s'.shmem m).cache = some n → n ∈ (s.shmem m).nodes) : MemOk hand s' := by
  have hentry : s'.entry = s.entry := by
    funext x
    rw [entry, entry, htableOf, htable]
  have hnames : s'.names = s.names := by
    funext x
    rw [names, names, hentry]
  have htables : s'.IsTable = s.IsTable := by
    funext f
    rw [IsTable, IsTable, htableOf]
  refine .of_ledger ?_ ?_ ?_ fun m => ⟨?_, ?_, fun n hn => ?_⟩
  · rw [hlive, htables, hnames, href, hio]
    exact h.ledger
  · rw [TablesInj, htableOf]
    exact h.inj
  · rw [hnames]
    exact h.bounded
  · rw [hnodes]
    exact h.nodes m
  · rw [hnodes]
    exact h.aligned m
  · rw [hnodes]
    exact hcache m n hn

theorem MemOk.failed (h : MemOk hand s) (hlive : h'.live = s.heap.live) :
    MemOk hand { s with heap := h' } :=
  h.same hlive rfl rfl rfl rfl (fun _ => rfl) h.cache

theorem MemOk.not_table (h : MemOk hand s) (hf : f ∉ s.heap.live) : ¬s.IsTable f :=
  fun htable => hf (h.table_live htable)

/-- A new page is in the hand. -/
theorem MemOk.alloc (h : MemOk hand s) (hf : f ∉ s.heap.live) (hlive : h'.live = f :: s.heap.live) :
    MemOk (insert f hand) { s with heap := h' } := by
  refine .of_ledger ?_ h.inj h.bounded h.shares
  rw [hlive]
  exact h.ledger.alloc hf

/-- The state after `free_page`. -/
def Mem.freed (s : Mem) (f : ℕ) : Mem :=
  { s with
    ref := update s.ref f 0
    io := update s.io f false
    heap := { s.heap with live := s.heap.live.erase f } }

theorem wp_freePage : (freePage f).wp H E Q s ↔ Q () (s.freed f) := Iff.rfl

theorem quiet_freed : Quiet s (s.freed f) := ⟨rfl, rfl, rfl⟩

/-- A page that no slot names is freed. -/
theorem MemOk.free (h : MemOk hand s) (hnames : ∀ x, s.names x ≠ some f) (htable : ¬s.IsTable f) :
    MemOk (hand.erase f) (s.freed f) :=
  .of_ledger (.retire h.nodup (fun g _ => h.ledger.page g) hnames htable) h.inj h.bounded h.shares

/-! ## One slot -/

theorem tableOf_setPte : (s.setPte p v).tableOf = s.tableOf := by
  funext o
  cases o <;> rfl

/-- A write to a table is a write to one slot. -/
theorem Mem.TablesInj.entry_setPte (hinj : s.TablesInj) (ho : s.tableOf o = some t) :
    (s.setPte (t, j) v).entry = update s.entry (o, j) v := by
  funext x
  obtain ⟨o', i⟩ := x
  have htable : (s.setPte (t, j) v).tableOf o' = s.tableOf o' := by rw [tableOf_setPte]
  by_cases hx : (o', i) = (o, j)
  · cases hx
    rw [entry_eq (htable.trans ho)]
    simp [setPte]
  · rw [update_of_ne hx]
    cases ho' : s.tableOf o' with
    | none => rw [entry_none (htable.trans ho'), entry_none ho']
    | some t' =>
      rw [entry_eq (htable.trans ho'), entry_eq ho']
      rcases eq_or_ne t' t with rfl | ht
      · obtain rfl := hinj _ _ _ ho' ho
        have hi : i ≠ j := fun hi => hx (by rw [hi])
        simp [setPte, hi]
      · simp [setPte, ht]

theorem Mem.TablesInj.names_setPte (hinj : s.TablesInj) (ho : s.tableOf o = some t) :
    (s.setPte (t, j) v).names = update s.names (o, j) v.frame? := by
  funext x
  rw [names, hinj.entry_setPte ho]
  by_cases hx : x = (o, j)
  · rw [hx, update_self, update_self]
  · rw [update_of_ne hx, update_of_ne hx]
    rfl

theorem isTable_setPte : (s.setPte p v).IsTable = s.IsTable := by
  funext f
  rw [IsTable, IsTable, tableOf_setPte]

/-- The state after a reference to `f` is dropped; the last one frees the page, unless it is to
be kept. -/
def Mem.unref (s : Mem) (f : ℕ) (keep : Bool) : Mem :=
  if s.ref f - 1 = 0 ∧ keep = false then s.freed f
  else { s with ref := update s.ref f (s.ref f - 1) }

theorem quiet_unref (s : Mem) (f : ℕ) (keep : Bool) : Quiet s (s.unref f keep) := by
  rw [unref]
  split
  · exact quiet_freed
  · exact ⟨rfl, rfl, rfl⟩

theorem ref_unref : (s.unref f keep).ref = update s.ref f (s.ref f - 1) := by
  rw [unref]
  split
  · rename_i hfree
    rw [hfree.1]
    rfl
  · rfl

theorem mem_live_unref {g : ℕ} (hne : g ≠ f) (hg : g ∈ s.heap.live) :
    g ∈ (s.unref f keep).heap.live := by
  rw [unref]
  split
  · exact (mem_erase_of_ne hne).mpr hg
  · exact hg

theorem wp_unrefPage (hQ : Q () (s.unref f (s.io f))) : (unrefPage f).wp H E Q s := by
  rw [unrefPage, wp_bind, pageRefDec, wp_put, wp_gets, wp_get, wp_ite]
  dsimp only
  rw [update_self]
  constructor
  · intro hfree
    rw [unref, if_pos hfree] at hQ
    refine wp_freePage.mpr ?_
    rw [freed, update_idem]
    exact hQ
  · intro hkeep
    rw [unref, if_neg hkeep] at hQ
    exact hQ

theorem wp_shmemUnref (hQ : Q () (s.unref f false)) : (shmemUnref f).wp H E Q s := by
  rw [shmemUnref, wp_bind, pageRefDec, wp_put, wp_gets, wp_ite]
  dsimp only
  rw [update_self]
  constructor
  · intro hzero
    rw [unref, if_pos ⟨hzero, rfl⟩] at hQ
    refine wp_freePage.mpr ?_
    rw [freed, update_idem]
    exact hQ
  · intro hne
    rw [unref, if_neg fun hfree => hne hfree.1] at hQ
    exact hQ

/-- A slot is cleared, and its reference dropped. -/
theorem MemOk.clear (h : MemOk hand s) (ho : s.tableOf o = some t) (hx : s.names (o, j) = some f)
    (hkeep : keep = true → s.io f = true) : MemOk hand ((s.unref f keep).setPte (t, j) .none) := by
  have hquiet := quiet_unref s f keep
  have hnames : ((s.unref f keep).setPte (t, j) .none).names = update s.names (o, j) none := by
    rw [(hquiet.inj h.inj).names_setPte (by rw [hquiet.tableOf]; exact ho), hquiet.names]
    rfl
  have htables : ((s.unref f keep).setPte (t, j) .none).IsTable = s.IsTable := by
    rw [isTable_setPte, hquiet.isTable]
  have hshmem : ((s.unref f keep).setPte (t, j) .none).shmem = s.shmem := hquiet.shmem
  refine .of_ledger ?_ ?_ (fun {y g} hy => ?_) ?_
  · rw [hnames]
    rw [unref]
    split
    · rename_i hfree
      exact h.ledger.unname_last hx hfree.1
    · rename_i hnot
      refine h.ledger.unname hx fun hzero => ?_
      cases hk : keep with
      | true => exact hkeep hk
      | false => exact absurd ⟨hzero, hk⟩ hnot
  · rw [TablesInj, tableOf_setPte, hquiet.tableOf]
    exact h.inj
  · rw [hnames] at hy
    by_cases heq : y = (o, j)
    · rw [heq, update_self] at hy
      cases hy
    · rw [update_of_ne heq] at hy
      exact h.bounded hy
  · rw [hshmem]
    exact h.shares

/-- The state after an empty slot gets a page, which counts it. -/
def Mem.fill (s : Mem) (p : Ptep) (f : ℕ) (prot : Prot) : Mem :=
  { s with ref := update s.ref f (s.ref f + 1) }.setPte p (.page f prot)

theorem Mem.TablesInj.entry_fill (hinj : s.TablesInj) (ho : s.tableOf o = some t) :
    (s.fill (t, j) f prot).entry = update s.entry (o, j) (.page f prot) :=
  TablesInj.entry_setPte hinj ho

/-- An empty slot gets a page that is in use. -/
theorem MemOk.fill (h : MemOk hand s) (ho : s.tableOf o = some t) (hj : j < nptEntry)
    (hx : s.entry (o, j) = .none) (hlive : f ∈ s.heap.live) (htable : ¬s.IsTable f) :
    MemOk (hand.erase f) (s.fill (t, j) f prot) := by
  have hnone : s.names (o, j) = none := by rw [names, hx, Pte.frame?]
  have hnames : (s.fill (t, j) f prot).names = update s.names (o, j) (some f) :=
    TablesInj.names_setPte h.inj ho
  have htables : (s.fill (t, j) f prot).IsTable = s.IsTable := isTable_setPte
  refine .of_ledger ?_ h.inj (fun {y g} hy => ?_) h.shares
  · rw [hnames]
    exact h.ledger.name hnone hlive htable
  · rw [hnames] at hy
    by_cases heq : y = (o, j)
    · rw [heq]
      exact hj
    · rw [update_of_ne heq] at hy
      exact h.bounded hy

/-- A slot keeps its page, with other permissions. -/
theorem MemOk.protect {prot' : Prot} (h : MemOk hand s) (ho : s.tableOf o = some t)
    (hx : s.entry (o, j) = .page f prot) : MemOk hand (s.setPte (t, j) (.page f prot')) := by
  have hnames : (s.setPte (t, j) (.page f prot')).names = s.names := by
    rw [TablesInj.names_setPte h.inj ho, Pte.frame?]
    refine update_eq_self_iff.mpr ?_
    rw [names, hx, Pte.frame?]
  have htables : (s.setPte (t, j) (.page f prot')).IsTable = s.IsTable := isTable_setPte
  refine .of_ledger ?_ h.inj ?_ h.shares
  · rw [hnames]
    exact h.ledger
  · rw [hnames]
    exact h.bounded

/-- A page from the hand becomes a table without entries. -/
theorem MemOk.addTable (h : MemOk hand s) (ht : t ∈ hand) (ho : s.tableOf o = none)
    (hheap : s'.heap = s.heap) (hio : s'.io = s.io)
    (htableOf : s'.tableOf = update s.tableOf o (some t))
    (htable : s'.table = update s.table t fun _ => .none)
    (href : ∀ g, g ≠ t → s'.ref g = s.ref g)
    (hshares : ∀ m, (s'.shmem m).Ok) :
    MemOk (hand.erase t) s' ∧ s'.entry = s.entry := by
  have htnot := (h.hand_live ht).2
  have hentry : s'.entry = s.entry := by
    funext y
    obtain ⟨o', i⟩ := y
    rcases eq_or_ne o' o with rfl | heq
    · have ho' : s'.tableOf o' = some t := by rw [htableOf, update_self]
      rw [entry_none ho, entry_eq ho', htable, update_self]
    · have ho' : s'.tableOf o' = s.tableOf o' := by rw [htableOf, update_of_ne heq]
      cases hu : s.tableOf o' with
      | none => rw [entry_none hu, entry_none (ho'.trans hu)]
      | some u =>
        have hne : u ≠ t := by
          rintro rfl
          exact htnot ⟨o', hu⟩
        rw [entry_eq hu, entry_eq (ho'.trans hu), htable, update_of_ne hne]
  have hnames : s'.names = s.names := by
    funext y
    rw [names, names, hentry]
  have htables : s'.IsTable = fun g => g = t ∨ s.IsTable g := by
    funext g
    rw [IsTable, htableOf]
    refine propext ⟨?_, ?_⟩
    · rintro ⟨o', hg⟩
      by_cases heq : o' = o
      · rw [heq, update_self] at hg
        exact .inl (Option.some.inj hg).symm
      · rw [update_of_ne heq] at hg
        exact .inr ⟨o', hg⟩
    · rintro (rfl | ⟨o', hg⟩)
      · exact ⟨o, update_self ..⟩
      · refine ⟨o', ?_⟩
        rw [update_of_ne]
        · exact hg
        · rintro rfl
          rw [ho] at hg
          cases hg
  refine ⟨.of_ledger ?_ ?_ ?_ hshares, hentry⟩
  · rw [hheap, hio, hnames, htables]
    exact h.ledger.addTable ht href
  · intro o₁ o₂ u h₁ h₂
    rw [htableOf] at h₁ h₂
    by_cases heq₁ : o₁ = o <;> by_cases heq₂ : o₂ = o
    · rw [heq₁, heq₂]
    · rw [heq₁, update_self] at h₁
      rw [update_of_ne heq₂] at h₂
      cases h₁
      exact absurd ⟨o₂, h₂⟩ htnot
    · rw [heq₂, update_self] at h₂
      rw [update_of_ne heq₁] at h₁
      cases h₂
      exact absurd ⟨o₁, h₁⟩ htnot
    · rw [update_of_ne heq₁] at h₁
      rw [update_of_ne heq₂] at h₂
      exact h.inj o₁ o₂ u h₁ h₂
  · rw [hnames]
    exact h.bounded

/-- A table without entries is freed. -/
theorem MemOk.dropTable (s' : Mem) (o : Owner) (h : MemOk hand s) (ho : s.tableOf o = some t)
    (hempty : ∀ j, s.entry (o, j) = .none) (hlive : s'.heap.live = s.heap.live.erase t)
    (hio : s'.io = update s.io t false) (href : s'.ref = update s.ref t 0)
    (htable : s'.table = s.table) (htableOf : s'.tableOf = update s.tableOf o none)
    (hshares : ∀ m, (s'.shmem m).Ok) :
    MemOk hand s' ∧ s'.entry = s.entry := by
  have hentry : s'.entry = s.entry := by
    funext y
    obtain ⟨o', i⟩ := y
    rcases eq_or_ne o' o with rfl | heq
    · rw [hempty, entry_none (by rw [htableOf, update_self])]
    · rw [entry, entry, htable, htableOf, update_of_ne heq]
  have hnames : s'.names = s.names := by
    funext y
    rw [names, names, hentry]
  have hof : ∀ {o' u}, s'.tableOf o' = some u → s.tableOf o' = some u ∧ u ≠ t := by
    intro o' u ho'
    rw [htableOf] at ho'
    by_cases heq : o' = o
    · rw [heq, update_self] at ho'
      cases ho'
    · rw [update_of_ne heq] at ho'
      refine ⟨ho', ?_⟩
      rintro rfl
      exact heq (h.inj _ _ _ ho' ho)
  have htables : s'.IsTable = fun g => g ≠ t ∧ s.IsTable g := by
    funext g
    refine propext ⟨?_, ?_⟩
    · rintro ⟨o', hg⟩
      exact ⟨(hof hg).2, o', (hof hg).1⟩
    · rintro ⟨hne, o', hg⟩
      refine ⟨o', ?_⟩
      rw [htableOf, update_of_ne]
      · exact hg
      · rintro rfl
        rw [ho] at hg
        exact hne (Option.some.inj hg).symm
  refine ⟨.of_ledger ?_ ?_ ?_ hshares, hentry⟩
  · rw [hlive, hio, href, hnames, htables]
    exact h.ledger.dropTable ⟨o, ho⟩
  · intro o₁ o₂ u h₁ h₂
    exact h.inj o₁ o₂ u (hof h₁).1 (hof h₂).1
  · rw [hnames]
    exact h.bounded

/-! ## The functions of `pmm.c` -/

theorem ptx_lt (la : ℕ) : ptx la < nptEntry := Nat.mod_lt _ (by decide)

/-- What a change of the slot of an address leaves alone. -/
structure Sets (s s' : Mem) (d la : ℕ) (v : Pte) : Prop where
  entry : s'.entry = update s.entry (slot d la) v
  shmem : s'.shmem = s.shmem

/-- The state with a new table. -/
def Mem.withTable (s : Mem) (d i t : ℕ) : Mem :=
  { s with
    ref := update s.ref t 1
    table := update s.table t fun _ => .none
    pgdir := update s.pgdir d (update (s.pgdir d) i (some t)) }

theorem tableOf_withTable {i : ℕ} :
    (s.withTable d i t).tableOf = update s.tableOf (.dir d i) (some t) := by
  funext o
  cases o with
  | dir d' i' =>
    rcases eq_or_ne d' d with rfl | hd
    · rcases eq_or_ne i' i with rfl | hi
      · simp [tableOf, withTable]
      · simp [tableOf, withTable, hi]
    · simp [tableOf, withTable, hd]
  | shmn m start => rfl

theorem MemOk.withTable {i : ℕ} (h : MemOk hand s) (ht : t ∈ hand)
    (hnone : s.tableOf (.dir d i) = none) :
    MemOk (hand.erase t) (s.withTable d i t) ∧ (s.withTable d i t).entry = s.entry :=
  h.addTable ht hnone rfl rfl tableOf_withTable rfl (fun _ hg => update_of_ne hg ..) h.shares

/-- What `get_pte` changes if it returns a place. -/
structure Opened (s s' : Mem) (d la t : ℕ) : Prop where
  table : s'.tableOf (.dir d (pdx la)) = some t
  entry : s'.entry = s.entry
  shmem : s'.shmem = s.shmem
  other : ∀ o, o ≠ .dir d (pdx la) → s'.tableOf o = s.tableOf o
  live : ∀ g ∈ s.heap.live, g ∈ s'.heap.live ∧ (s'.IsTable g → s.IsTable g)

theorem Opened.refl (h : s.tableOf (.dir d (pdx la)) = some t) : Opened s s d la t :=
  ⟨h, rfl, rfl, fun _ _ => rfl, fun _ hg => ⟨hg, id⟩⟩

/-- `get_pte` finds the place of a slot. -/
theorem wp_getPte {create : Bool} {Q : Option Ptep → Mem → Prop} (h : MemOk hand s)
    (hnone : ∀ s', MemOk hand s' → Quiet s s' → s.tableOf (.dir d (pdx la)) = none →
      (create = false → s' = s) → Q none s')
    (hsome : ∀ s' t, MemOk hand s' → Opened s s' d la t → (create = false → s' = s) →
      Q (some (t, ptx la)) s') :
    (getPte d la create).wp H E Q s := by
  rw [getPte, wp_get]
  cases hdir : s.pgdir d (pdx la) with
  | some t => exact hsome s t h (.refl hdir) fun _ => rfl
  | none =>
    refine wp_if (fun hcreate => ?_) fun _ => hnone s h (.refl s) hdir fun _ => rfl
    have hnot : create = false → ∀ {P : Prop}, P := fun hfalse => by simp [hcreate] at hfalse
    rw [newTable, wp_bind]
    refine wp_allocPage (fun h' hlive => ?_) fun t h' ht hlive => ?_
    · exact hnone _ (h.failed hlive) ⟨rfl, rfl, rfl⟩ hdir fun hfalse => hnot hfalse
    · obtain ⟨hok, hentry⟩ :=
        (h.alloc ht hlive).withTable (mem_insert_self t hand) hdir
      rw [erase_insert fun hmem => ht (h.hand_live hmem).1] at hok
      refine hsome ({ s with heap := h' }.withTable d (pdx la) t) t hok
        ⟨?_, hentry, rfl, fun o ho => ?_, fun g hg => ⟨?_, ?_⟩⟩ fun hfalse => hnot hfalse
      · rw [tableOf_withTable, update_self]
      · rw [tableOf_withTable, update_of_ne ho]
        rfl
      · show g ∈ h'.live
        rw [hlive]
        exact .tail _ hg
      · rintro ⟨o, ho⟩
        rw [tableOf_withTable] at ho
        by_cases heq : o = .dir d (pdx la)
        · rw [heq, update_self] at ho
          cases ho
          exact absurd hg ht
        · rw [update_of_ne heq] at ho
          exact ⟨o, ho⟩

/-- The state after a slot has been cleared. -/
theorem MemOk.cleared (h : MemOk hand s) (ho : s.tableOf o = some t) (f j : ℕ) (keep : Bool) :
    ((s.unref f keep).setPte (t, j) .none).entry = update s.entry (o, j) .none ∧
      ((s.unref f keep).setPte (t, j) .none).tableOf = s.tableOf := by
  have hquiet := quiet_unref s f keep
  refine ⟨?_, tableOf_setPte.trans hquiet.tableOf⟩
  rw [(hquiet.inj h.inj).entry_setPte (by rw [hquiet.tableOf]; exact ho), hquiet.entry]

/-- `page_remove_pte` clears a slot. -/
theorem wp_pageRemovePte (h : MemOk hand s) (ho : s.tableOf o = some t)
    (hQ : ∀ s', MemOk hand s' → s'.entry = update s.entry (o, j) .none →
      s'.shmem = s.shmem → s'.tableOf = s.tableOf → Q () s') :
    (pageRemovePte (t, j)).wp H E Q s := by
  rw [pageRemovePte, wp_get]
  have hpte : s.pte (t, j) = s.entry (o, j) := (entry_eq ho).symm
  cases hx : s.entry (o, j) with
  | none =>
    rw [hpte, hx]
    refine hQ s h ?_ rfl rfl
    rw [← hx, update_eq_self]
  | page f prot =>
    rw [hpte, hx]
    refine wp_seq (wp_unrefPage ?_)
    obtain ⟨hentry, htableOf⟩ := h.cleared ho f j (s.io f)
    exact hQ _ (h.clear ho (by rw [names, hx, Pte.frame?]) id) hentry
      (quiet_unref s f (s.io f)).shmem htableOf

/-- `unref` does not look at the count of another page. -/
theorem unref_ref_comm {g : ℕ} {n : ℤ} (hne : g ≠ f) :
    { s with ref := update s.ref f n }.unref g keep =
      { s.unref g keep with ref := update (s.unref g keep).ref f n } := by
  have hg : update s.ref f n g = s.ref g := update_of_ne hne ..
  rw [ref_unref]
  by_cases hfree : s.ref g - 1 = 0 ∧ keep = false
  · rw [unref, unref, if_pos hfree, if_pos (by dsimp only; rwa [hg]), freed, freed,
      hfree.1, update_comm hne.symm]
  · rw [unref, unref, if_neg hfree, if_neg (by dsimp only; rwa [hg])]
    dsimp only
    rw [hg, update_comm hne.symm]

/-- `page_insert` puts a page that is in use into a slot. -/
theorem wp_pageInsert (h : MemOk hand s) (hlive : page ∈ s.heap.live) (htable : ¬s.IsTable page)
    (hE : ∀ s', MemOk hand s' → Quiet s s' → s.tableOf (.dir d (pdx la)) = none → E .noMem s')
    (hQ : ∀ s', MemOk (hand.erase page) s' → Sets s s' d la (.page page perm.prot) → Q () s') :
    (pageInsert d page la perm).wp H E Q s := by
  rw [pageInsert, wp_bind]
  refine wp_getPte h (fun s₁ h₁ hquiet hdir _ => hE s₁ h₁ hquiet hdir) fun s₁ t h₁ hopen _ => ?_
  have ho := hopen.table
  obtain ⟨hlive₁, htable₁⟩ := hopen.live page hlive
  replace htable₁ := mt htable₁ htable
  have hsets : ∀ {s' : Mem},
      s'.entry = update s₁.entry (slot d la) (.page page perm.prot) → s'.shmem = s₁.shmem →
      Sets s s' d la (.page page perm.prot) := by
    intro s' hentry hshmem
    refine ⟨?_, hshmem.trans hopen.shmem⟩
    rw [hentry, hopen.entry]
  rw [wp_bind, pageRefInc, wp_modify, wp_bind, replacePte, wp_get]
  have hpte : s₁.table t (ptx la) = s₁.entry (slot d la) := (entry_eq ho).symm
  dsimp only [pte]
  cases hx : s₁.entry (slot d la) with
  | none =>
    rw [hpte, hx]
    exact hQ _ (h₁.fill ho (ptx_lt la) hx hlive₁ htable₁) (hsets (h₁.inj.entry_fill ho) rfl)
  | page f prot =>
    rw [hpte, hx]
    rw [wp_ite]
    constructor
    · rintro rfl
      have hhand := (h₁.named (by rw [names, hx, Pte.frame?])).2.2
      rw [wp_bind, pageRefDec, wp_put, wp_gets, wp_pure, setPte, wp_modify]
      dsimp only
      rw [update_self, update_idem, add_sub_cancel_right, update_eq_self]
      rw [erase_eq_of_notMem hhand] at hQ
      exact hQ _ (h₁.protect ho hx) (hsets (h₁.inj.entry_setPte ho) rfl)
    · intro hne
      have hnames : s₁.names (slot d la) = some f := by rw [names, hx, Pte.frame?]
      have hquiet := quiet_unref s₁ f (s₁.io f)
      have hclear : MemOk hand ((s₁.unref f (s₁.io f)).setPte (t, ptx la) .none) :=
        h₁.clear ho hnames id
      have hinj := hquiet.inj h₁.inj
      have ho' : (s₁.unref f (s₁.io f)).tableOf (.dir d (pdx la)) = some t := by
        rw [hquiet.tableOf]
        exact ho
      have hempty : ((s₁.unref f (s₁.io f)).setPte (t, ptx la) .none).entry (slot d la) =
          .none := by
        rw [hinj.entry_setPte ho']
        exact update_self ..
      have ho'' : ((s₁.unref f (s₁.io f)).setPte (t, ptx la) .none).tableOf (.dir d (pdx la)) =
          some t := by
        exact ho'
      have hfill : MemOk (hand.erase page)
          (((s₁.unref f (s₁.io f)).setPte (t, ptx la) .none).fill (t, ptx la) page perm.prot) :=
        hclear.fill ho'' (ptx_lt la) hempty (mem_live_unref (Ne.symm hne) hlive₁)
          (by rwa [isTable_setPte, hquiet.isTable])
      have hfilled : Sets s
          (((s₁.unref f (s₁.io f)).setPte (t, ptx la) .none).fill (t, ptx la) page perm.prot) d la
          (.page page perm.prot) := by
        refine hsets ?_ hquiet.shmem
        rw [hclear.inj.entry_fill ho'', hinj.entry_setPte ho', hquiet.entry]
        exact update_idem ..
      rw [pageRemovePte, wp_get]
      dsimp only [pte]
      rw [hpte, hx]
      refine wp_seq (wp_unrefPage ?_)
      rw [unref_ref_comm hne, setPte, wp_modify, setPte, wp_modify]
      have href : (s₁.unref f (s₁.io f)).ref page = s₁.ref page := by
        rw [ref_unref, update_of_ne (Ne.symm hne)]
      rw [← href]
      exact hQ _ hfill hfilled

/-- `page_remove`. -/
theorem wp_pageRemove (h : MemOk hand s) (hQ : ∀ s', MemOk hand s' → Q () s') :
    (pageRemove d la).wp H E Q s := by
  rw [pageRemove, wp_bind]
  refine wp_getPte h (fun s₁ h₁ _ _ _ => hQ s₁ h₁) fun s₁ t h₁ hopen _ => ?_
  exact wp_pageRemovePte h₁ hopen.table fun s₂ h₂ _ _ _ => hQ s₂ h₂

/-- `pgdir_alloc_page` puts a new page of zeros into a slot. -/
theorem wp_pgdirAllocPage {Q : Option ℕ → Mem → Prop} (h : MemOk hand s)
    (hnone : ∀ s', MemOk hand s' → s'.entry = s.entry → s'.shmem = s.shmem → Q none s')
    (hsome : ∀ s' page, MemOk hand s' → page ∉ s.heap.live →
      Sets s s' d la (.page page perm.prot) → Q (some page) s') :
    (pgdirAllocPage d la perm).wp H E Q s := by
  rw [pgdirAllocPage, wp_bind]
  refine wp_allocPage (fun h' hlive => ?_) fun page h' hpage hlive => ?_
  · exact hnone _ (h.failed hlive) rfl rfl
  · have halloc := h.alloc hpage hlive
    have hhand : page ∉ hand := fun hmem => hpage (h.hand_live hmem).1
    have hclear : MemOk (insert page hand) { s with
        heap := h', data := update s.data page fun _ => 0 } :=
      halloc.same rfl rfl rfl rfl rfl (fun _ => rfl) halloc.cache
    rw [wp_bind, clearPage, wp_modify, wp_bind, wp_attempt]
    refine wp_pageInsert hclear ?_ (h.not_table hpage) (fun s₁ h₁ hquiet _ => ?_)
      fun s₁ h₁ hsets => ?_
    · rw [hlive]
      exact .head _
    · rw [wp_bind, wp_freePage, wp_pure]
      have hnames : ∀ x, s₁.names x ≠ some page := fun x hx =>
        (h₁.named hx).2.2 (mem_insert_self page hand)
      have hfree := h₁.free hnames (h₁.hand_live (mem_insert_self page hand)).2
      rw [erase_insert hhand] at hfree
      exact hnone _ hfree (quiet_freed.entry.trans hquiet.entry) hquiet.shmem
    · rw [erase_insert hhand] at h₁
      exact hsome s₁ page h₁ hpage { hsets with }

end Ucore.Vm
