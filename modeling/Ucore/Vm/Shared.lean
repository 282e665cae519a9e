import Ucore.Lib.Links
import Ucore.Vm.Ranges
import Mathlib.Data.List.TakeWhile

/-!
# Shared memories

The nodes of a shared memory are the tables of its regions. `shmem_get_entry` finds the slot of
an address and may give it a page, `shmem_insert_entry` writes it, and `shmem_destroy` clears
all slots.
-/

namespace Ucore.Vm

open Kern Function List Option Mem

variable {H : Prop} {E : Err → Mem → Prop} {s s' : Mem} {hand : Finset ℕ} {x : Slot} {o : Owner}
  {f m addr start t j : ℕ} {create : Bool} {n : Shmn} {l : List Shmn} {Q : Unit → Mem → Prop}

/-- The slot of an address in a shared memory. -/
def shSlot (m addr : ℕ) : Slot := (.shmn m (roundDown addr ptSize), ptx addr)

theorem fin_eq (n : Shmn) : n.fin = n.start + ptSize := rfl

/-! ## Nodes -/

/-- The region of a node with an address. -/
theorem Shmn.Has.start_eq (hhas : n.Has addr) (halign : n.start % (pgSize * nptEntry) = 0) :
    n.start = roundDown addr ptSize := by
  rw [Shmn.Has, fin_eq, ptSize_eq] at hhas
  rw [pgSize_eq, nptEntry_eq] at halign
  rw [roundDown, ptSize_eq]
  omega

/-- The node with a start is the one that `find?` finds. -/
theorem find_start (hnodes : l.Pairwise fun a b => a.fin ≤ b.start) (hn : n ∈ l) :
    l.find? (fun x => x.start = n.start) = some n := by
  induction l with
  | nil => cases hn
  | cons a l ih =>
    obtain ⟨ha, hl⟩ := pairwise_cons.mp hnodes
    rcases mem_cons.mp hn with rfl | hn
    · simp
    · have hle := ha n hn
      rw [fin_eq, ptSize_eq] at hle
      have hne : a.start ≠ n.start := by omega
      rw [List.find?_cons_of_neg (by simpa using hne)]
      exact ih hl hn

/-- The state with another cache. -/
def Mem.cached (s : Mem) (m : ℕ) (n : Shmn) : Mem :=
  { s with shmem := update s.shmem m { s.shmem m with cache := some n } }

theorem shmem_cached (m' : ℕ) : ((s.cached m n).shmem m').nodes = (s.shmem m').nodes ∧
    ((s.cached m n).shmem m').len = (s.shmem m').len ∧
    ((s.cached m n).shmem m').ref = (s.shmem m').ref := by
  rcases eq_or_ne m' m with rfl | hm
  · simp [cached]
  · simp [cached, hm]

theorem tableOf_cached : (s.cached m n).tableOf = s.tableOf := by
  funext o
  cases o with
  | dir d i => rfl
  | shmn m' start => rw [tableOf, tableOf, (shmem_cached m').1]

theorem MemOk.cached (h : MemOk hand s) (hn : n ∈ (s.shmem m).nodes) :
    MemOk hand (s.cached m n) := by
  refine h.same rfl tableOf_cached rfl rfl rfl (fun m' => (shmem_cached m').1) fun m' n' hn' => ?_
  rcases eq_or_ne m' m with rfl | hm
  · simp only [Mem.cached, update_self, Option.some.injEq] at hn'
    exact hn' ▸ hn
  · simp only [Mem.cached, update_of_ne hm] at hn'
    exact h.cache m' n' hn'

/-- `find_shmn` finds the node of an address. -/
theorem wp_findShmn {Q : Option Shmn → Mem → Prop} (h : MemOk hand s)
    (hsome : ∀ n, n ∈ (s.shmem m).nodes → n.Has addr → Q (some n) (s.cached m n))
    (hnone : (∀ n ∈ (s.shmem m).nodes, ¬n.Has addr) → Q none s) :
    (findShmn m addr).wp H E Q s := by
  rw [findShmn, wp_get, Shmem.lookup]
  cases hcache : (s.shmem m).cache.filter fun n => n.Has addr with
  | some n =>
    obtain ⟨hn, hhas⟩ := filter_eq_some_iff.mp hcache
    exact hsome n (h.cache m n hn) (of_decide_eq_true hhas)
  | none =>
    cases hfind : (s.shmem m).nodes.find? fun n => n.Has addr with
    | some n =>
      have hhas := List.find?_some hfind
      exact hsome n (mem_of_find?_eq_some hfind) (of_decide_eq_true hhas)
    | none =>
      refine hnone fun n hn => ?_
      have hno := List.find?_eq_none.mp hfind n hn
      simpa using hno

/-- `shmn_create` takes a page, and clears it. -/
theorem wp_shmnCreate {Q : Option Shmn → Mem → Prop} (halign : start % ptSize = 0)
    (hnone : ∀ h' k', h'.live = s.heap.live → Q none { s with heap := h', kheap := k' })
    (hsome : ∀ a f h' k', f ∉ s.heap.live → h'.live = f :: s.heap.live →
      Q (some ⟨a, start, f⟩) { s with
        heap := h', kheap := k', table := update s.table f fun _ => .none }) :
    (shmnCreate start).wp H E Q s := by
  have hpage : start % pgSize * nptEntry = 0 := by
    rw [ptSize_eq] at halign
    rw [pgSize_eq, nptEntry_eq]
    omega
  refine wp_check hpage ?_
  rw [wp_bind, kmalloc, wp_zoom]
  refine Heap.wp_alloc (fun k' _ _ => hnone s.heap k' rfl) fun a k' _ _ => ?_
  refine wp_seq (wp_allocPage (fun h' hlive => ?_) fun f h' hf hlive => ?_)
  · exact hnone h' _ hlive
  · exact hsome a f h' k' hf hlive

/-- The nodes before and after a new one. -/
theorem pairwise_insert (hnodes : l.Pairwise fun a b => a.fin ≤ b.start)
    (haligned : ∀ x ∈ l, x.start % (pgSize * nptEntry) = 0) (halign : n.start % ptSize = 0)
    (hno : ∀ x ∈ l, ¬x.Has n.start) :
    (∀ x ∈ l.takeWhile (fun x => x.start ≤ n.start), x.fin ≤ n.start) ∧
      ∀ x ∈ l.dropWhile (fun x => x.start ≤ n.start), n.fin ≤ x.start := by
  constructor
  · intro x hx
    have hle := mem_takeWhile_imp hx
    have hnot := hno x ((takeWhile_sublist _).subset hx)
    rw [Shmn.Has] at hnot
    simp only [decide_eq_true_eq] at hle
    omega
  · intro x hx
    have hmem := (dropWhile_sublist _).subset hx
    have hmono : l.Pairwise fun a b =>
        decide (b.start ≤ n.start) = true → decide (a.start ≤ n.start) = true := by
      refine hnodes.imp fun {a b} hab => ?_
      rw [fin_eq] at hab
      simp only [decide_eq_true_eq]
      omega
    have hlt : n.start < x.start := by simpa using not_of_mem_dropWhile hmono hx
    have hx' := haligned x hmem
    rw [fin_eq]
    rw [ptSize_eq] at halign ⊢
    rw [pgSize_eq, nptEntry_eq] at hx'
    omega

/-- The state with a new node. -/
def Mem.withNode (s : Mem) (m : ℕ) (n : Shmn) : Mem :=
  { s with shmem := update s.shmem m { s.shmem m with
      nodes := (s.shmem m).nodes.takeWhile (fun x => x.start ≤ n.start) ++
        n :: (s.shmem m).nodes.dropWhile (fun x => x.start ≤ n.start) } }

/-- The check of `insert_shmn` between nodes that do not overlap. -/
theorem wp_checkShmnPlace {prev next : Option Shmn}
    (hle : ∀ x ∈ prev, ∀ y ∈ next, x.fin ≤ y.start) (hQ : Q () s) :
    (checkShmnPlace prev next).wp H E Q s := by
  have hpos : ∀ x : Shmn, x.start < x.fin := fun x => by
    rw [fin_eq, ptSize_eq]
    omega
  cases prev with
  | none => exact hQ
  | some x =>
    cases next with
    | none => exact hQ
    | some y =>
      refine wp_check (hpos x) ?_
      refine wp_check (hle x rfl y rfl) ?_
      exact wp_assert_of (hpos y) hQ

/-- `insert_shmn` puts a node between those before and after it. -/
theorem wp_insertShmn (hnodes : (s.shmem m).nodes.Pairwise fun a b => a.fin ≤ b.start)
    (haligned : ∀ x ∈ (s.shmem m).nodes, x.start % (pgSize * nptEntry) = 0)
    (halign : n.start % ptSize = 0) (hno : ∀ x ∈ (s.shmem m).nodes, ¬x.Has n.start)
    (hQ : Q () (s.withNode m n)) : (insertShmn m n).wp H E Q s := by
  obtain ⟨hbefore, hafter⟩ := pairwise_insert hnodes haligned halign hno
  rw [insertShmn, wp_get, wp_bind]
  refine wp_checkShmnPlace (fun x hx y hy => ?_) ?_
  · cases hy
    exact hbefore x (mem_of_getLast? hx)
  refine wp_seq (wp_checkShmnPlace (fun x hx y hy => ?_) hQ)
  cases hx
  exact hafter y (mem_of_head? hy)

theorem nodes_withNode (m' : ℕ) (hm : m' ≠ m) :
    ((s.withNode m n).shmem m') = s.shmem m' := update_of_ne hm ..

/-- Among the nodes with a new one `find?` finds that, and the others as before. -/
theorem find_insert (hne : ∀ x ∈ l, x.start ≠ n.start) (a : ℕ) :
    (l.takeWhile (fun x => x.start ≤ n.start) ++ n :: l.dropWhile fun x => x.start ≤ n.start).find?
      (fun x => x.start = a) = if a = n.start then some n else l.find? fun x => x.start = a := by
  rw [List.find?_append]
  split_ifs with ha
  · subst ha
    rw [List.find?_eq_none.mpr fun x hx => by simpa using hne x ((takeWhile_sublist _).subset hx)]
    simp
  · rw [List.find?_cons_of_neg (by simpa using Ne.symm ha), ← List.find?_append,
      takeWhile_append_dropWhile]

theorem start_ne_of_not_has (hno : ∀ x ∈ l, ¬x.Has n.start) (x : Shmn) (hx : x ∈ l) :
    x.start ≠ n.start := by
  intro heq
  refine hno x hx ⟨heq.le, ?_⟩
  rw [fin_eq, ptSize_eq]
  omega

theorem tableOf_withNode (hno : ∀ x ∈ (s.shmem m).nodes, ¬x.Has n.start) :
    (s.withNode m n).tableOf = update s.tableOf (.shmn m n.start) (some n.entry) := by
  funext o
  cases o with
  | dir d i => rfl
  | shmn m' start =>
    rcases eq_or_ne m' m with rfl | hm
    · rw [tableOf, withNode]
      simp only [update_self]
      rw [find_insert (start_ne_of_not_has hno)]
      split_ifs with hstart
      · rw [hstart, update_self, map_some]
      · rw [update_of_ne (by simp [hstart]), tableOf]
    · rw [update_of_ne (by simp [hm]), tableOf, tableOf, nodes_withNode m' hm]

/-- What finding or creating a node changes. -/
structure Found (s s' : Mem) (m start t : ℕ) : Prop where
  table : s'.tableOf (.shmn m start) = some t
  entry : s'.entry = s.entry
  other : ∀ o, o ≠ .shmn m start → s'.tableOf o = s.tableOf o
  attr : ∀ m', (s'.shmem m').len = (s.shmem m').len ∧ (s'.shmem m').ref = (s.shmem m').ref
  shmem : ∀ m', m' ≠ m → s'.shmem m' = s.shmem m'
  live : ∀ g ∈ s.heap.live, g ∈ s'.heap.live ∧ (s'.IsTable g → s.IsTable g)

/-- A node for a region that has none. -/
theorem MemOk.withNode {a : ℕ} {h' k' : Heap ℕ} (h : MemOk hand s)
    (hno : ∀ x ∈ (s.shmem m).nodes, ¬x.Has start) (halign : start % ptSize = 0)
    (hf : f ∉ s.heap.live) (hlive : h'.live = f :: s.heap.live)
    (hs' : s' = withNode { s with
      heap := h', kheap := k', table := update s.table f fun _ => .none } m
      ⟨a, start, f⟩) : MemOk hand s' ∧ Found s s' m start f := by
  have htableOf : s'.tableOf = update s.tableOf (.shmn m start) (some f) := by
    rw [hs']
    exact tableOf_withNode hno
  have hnone : s.tableOf (.shmn m start) = none := by
    rw [tableOf, map_eq_none_iff, List.find?_eq_none]
    intro x hx
    have hhas := hno x hx
    rw [Shmn.Has, fin_eq, ptSize_eq] at hhas
    simp only [decide_eq_true_eq]
    omega
  have hother : ∀ m', m' ≠ m → s'.shmem m' = s.shmem m' := by
    intro m' hm
    rw [hs']
    exact nodes_withNode m' hm
  have hshmem : s'.shmem m = { s.shmem m with
      nodes := (s.shmem m).nodes.takeWhile (fun x => x.start ≤ start) ++
        ⟨a, start, f⟩ :: (s.shmem m).nodes.dropWhile (fun x => x.start ≤ start) } := by
    rw [hs']
    exact update_self ..
  have hmem : ∀ x, x ∈ (s'.shmem m).nodes ↔ x = ⟨a, start, f⟩ ∨ x ∈ (s.shmem m).nodes := by
    intro x
    rw [hshmem]
    rw [mem_append, mem_cons]
    rw [or_left_comm, ← mem_append, takeWhile_append_dropWhile]
  obtain ⟨hbefore, hafter⟩ :=
    pairwise_insert (n := ⟨a, start, f⟩) (h.nodes m) (h.aligned m) halign hno
  have hshares : ∀ m', (s'.shmem m').Ok := by
    intro m'
    rcases eq_or_ne m' m with rfl | hm
    · refine ⟨?_, fun x hx => ?_, fun x hx => (hmem x).mpr (.inr (h.cache m' x ?_))⟩
      · rw [hshmem]
        refine pairwise_append.mpr ⟨(h.nodes m').sublist (takeWhile_sublist _),
          pairwise_cons.mpr ⟨hafter, (h.nodes m').sublist (dropWhile_sublist _)⟩, ?_⟩
        intro x hx y hy
        rcases mem_cons.mp hy with rfl | hy
        · exact hbefore x hx
        · have hxle := hbefore x hx
          have hyle := hafter y hy
          rw [fin_eq] at hyle
          dsimp only at hxle hyle
          omega
      · rcases (hmem x).mp hx with rfl | hx
        · exact halign
        · exact h.aligned m' x hx
      · rw [hshmem] at hx
        exact hx
    · rw [hother m' hm]
      exact h.shares m'
  have hheap : s'.heap = h' := by rw [hs']; rfl
  obtain ⟨hok, hentry⟩ := (h.alloc hf hlive).addTable (o := .shmn m start)
    (Finset.mem_insert_self f hand) hnone hheap (by rw [hs']; rfl) htableOf (by rw [hs']; rfl)
    (fun g _ => by rw [hs']; rfl) hshares
  rw [Finset.erase_insert fun hmem => hf (h.hand_live hmem).1] at hok
  refine ⟨hok, ?_, hentry, fun o ho => ?_, fun m' => ?_, hother, fun g hg => ⟨?_, ?_⟩⟩
  · rw [htableOf, update_self]
  · rw [htableOf, update_of_ne ho]
  · by_cases hm : m' = m
    · rw [hm, hshmem]
      exact ⟨rfl, rfl⟩
    · rw [hother m' hm]
      exact ⟨rfl, rfl⟩
  · rw [hheap, hlive]
    exact .tail _ hg
  · rintro ⟨o, ho⟩
    rw [htableOf] at ho
    by_cases heq : o = .shmn m start
    · rw [heq, update_self] at ho
      cases ho
      exact absurd hg hf
    · rw [update_of_ne heq] at ho
      exact ⟨o, ho⟩

/-- The node of an address, which is created if it is missing. -/
theorem wp_getShmn {Q : Option Shmn → Mem → Prop} (h : MemOk hand s)
    (hnone : ∀ s', MemOk hand s' → Quiet s s' → Q none s')
    (hsome : ∀ s' n, MemOk hand s' → n.start = roundDown addr ptSize →
      Found s s' m n.start n.entry → Q (some n) s') :
    (getShmn m addr create).wp H E Q s := by
  rw [getShmn, wp_bind]
  refine wp_findShmn h (fun n hn hhas => ?_) fun hno => ?_
  · refine wp_check hhas ?_
    rw [wp_pure]
    refine hsome _ n (h.cached hn) (hhas.start_eq (h.aligned m n hn)) ⟨?_, ?_, fun o _ => ?_,
      fun m' => (shmem_cached m').2, fun m' hm => update_of_ne hm .., fun g hg => ⟨hg, ?_⟩⟩
    · rw [tableOf_cached, tableOf, find_start (h.nodes m) hn, map_some]
    · funext x
      rw [entry, entry, tableOf_cached]
      rfl
    · rw [tableOf_cached]
    · rw [IsTable, tableOf_cached]
      exact id
  · refine wp_if (fun _ => ?_) fun _ => hnone s h (.refl s)
    have halign : roundDown addr (pgSize * nptEntry) % ptSize = 0 := by
      rw [roundDown, ptSize_eq, pgSize_eq, nptEntry_eq]
      omega
    have hno' : ∀ x ∈ (s.shmem m).nodes, ¬x.Has (roundDown addr (pgSize * nptEntry)) := by
      intro x hx hhas
      refine hno x hx ?_
      have hx' := h.aligned m x hx
      rw [Shmn.Has, fin_eq, roundDown, ptSize_eq, pgSize_eq, nptEntry_eq] at hhas
      rw [pgSize_eq, nptEntry_eq] at hx'
      rw [Shmn.Has, fin_eq, ptSize_eq]
      omega
    refine wp_seq (wp_shmnCreate halign (fun h' k' hlive => ?_) fun a f h' k' hf hlive => ?_)
    · have hok : MemOk hand { s with heap := h', kheap := k' } :=
        h.same hlive rfl rfl rfl rfl (fun _ => rfl) h.cache
      exact hnone _ hok ⟨rfl, rfl, rfl⟩
    · refine wp_seq (wp_insertShmn (h.nodes m) (h.aligned m) halign hno' ?_)
      exact hsome _ _ (h.withNode hno' halign hf hlive rfl).1 rfl
        (h.withNode hno' halign hf hlive rfl).2

/-! ## Entries -/

/-- The slot of a shared memory may have got a page, as `alloc_page` returns it. -/
structure SharedPage (s s' : Mem) (m addr : ℕ) : Prop where
  entry : s'.entry = s.entry ∨ ∃ f, f ∉ s.heap.live ∧ s.entry (shSlot m addr) = .none ∧
    s'.entry = update s.entry (shSlot m addr) (.page f .r)
  attr : ∀ m', (s'.shmem m').len = (s.shmem m').len ∧ (s'.shmem m').ref = (s.shmem m').ref
  blank : ∀ m', (s.shmem m').len = 0 → s'.shmem m' = s.shmem m'

/-- What `shmem_get_entry` changes. -/
structure Got (s s' : Mem) (m addr t : ℕ) : Prop extends SharedPage s s' m addr where
  table : s'.tableOf (.shmn m (roundDown addr ptSize)) = some t
  other : ∀ o, o ≠ .shmn m (roundDown addr ptSize) → s'.tableOf o = s.tableOf o
  live : ∀ g ∈ s.heap.live, g ∈ s'.heap.live ∧ (s'.IsTable g → s.IsTable g)

/-- A slot without a page may get one. -/
theorem wp_fillEntry (h : MemOk hand s) (ho : s.tableOf o = some t) (hj : j < nptEntry)
    (hQ : ∀ s', MemOk hand s' → s'.tableOf = s.tableOf → s'.shmem = s.shmem →
      (∀ g ∈ s.heap.live, g ∈ s'.heap.live) →
      (s'.entry = s.entry ∨ ∃ f, f ∉ s.heap.live ∧ s.entry (o, j) = .none ∧
        s'.entry = update s.entry (o, j) (.page f .r)) → Q () s') :
    (fillEntry (t, j) create).wp H E Q s := by
  rw [fillEntry, wp_get]
  refine wp_if (fun hcond => ?_) fun _ => hQ s h rfl rfl (fun _ => id) (.inl rfl)
  have hx : s.entry (o, j) = .none := (entry_eq ho).trans hcond.1
  refine wp_seq (wp_allocPage (fun h' hlive => ?_) fun f h' hf hlive => ?_)
  · exact hQ _ (h.failed hlive) rfl rfl (fun g hg => hlive ▸ hg) (.inl rfl)
  · have halloc := h.alloc hf hlive
    have hkept : ∀ g ∈ f :: s.heap.live, g ∈ h'.live := fun g hg => hlive ▸ hg
    have hok : MemOk ((insert f hand).erase f) (fill { s with heap := h' } (t, j) f .r) :=
      halloc.fill ho hj hx (hkept f (.head _)) (h.not_table hf)
    rw [Finset.erase_insert fun hmem => hf (h.hand_live hmem).1] at hok
    exact hQ _ hok rfl rfl (fun g hg => hkept g (mem_cons_of_mem f hg))
      (.inr ⟨f, hf, hx, halloc.inj.entry_fill ho⟩)

/-- `shmem_get_entry` finds the place of a slot. -/
theorem wp_shmemGetEntry {Q : Option Ptep → Mem → Prop} (h : MemOk hand s)
    (hlen : H ∨ addr < (s.shmem m).len) (hnone : ∀ s', MemOk hand s' → Quiet s s' → Q none s')
    (hsome : ∀ s' t, MemOk hand s' → Got s s' m addr t → Q (some (t, ptx addr)) s') :
    (shmemGetEntry m addr create).wp H E Q s := by
  rw [shmemGetEntry, wp_get, wp_bind, wp_assert]
  refine ⟨fun haddr => ?_, hlen.resolve_right⟩
  refine wp_seq (wp_getShmn h hnone fun s₁ n h₁ hstart hfound => ?_)
  have hblank : ∀ m', (s.shmem m').len = 0 → s₁.shmem m' = s.shmem m' := by
    intro m' hm'
    refine hfound.shmem m' ?_
    rintro rfl
    omega
  have hregion : roundDown (roundDown addr pgSize) ptSize = roundDown addr ptSize := by
    rw [roundDown, roundDown, roundDown, ptSize_eq, pgSize_eq]
    omega
  rw [hregion] at hstart
  have hindex : (roundDown addr pgSize - n.start) / pgSize = ptx addr := by
    rw [hstart, roundDown, roundDown, ptx, ptSize_eq, pgSize_eq, nptEntry_eq]
    omega
  rw [hstart] at hfound
  dsimp only
  rw [hindex, wp_bind]
  refine wp_fillEntry h₁ hfound.table (ptx_lt addr) fun s₂ h₂ htableOf hshmem hlive hentry => ?_
  refine hsome s₂ _ h₂ ⟨⟨?_, fun m' => ?_, fun m' => ?_⟩, ?_, fun o ho => ?_, fun g hg => ⟨?_, ?_⟩⟩
  · rw [hfound.entry] at hentry
    exact hentry.imp_right <| Exists.imp fun f => And.imp_left fun hf hmem =>
      hf (hfound.live f hmem).1
  · rw [hshmem]
    exact hfound.attr m'
  · rw [hshmem]
    exact hblank m'
  · rw [htableOf]
    exact hfound.table
  · rw [htableOf, hfound.other o ho]
  · exact hlive g (hfound.live g hg).1
  · rw [IsTable, htableOf]
    exact (hfound.live g hg).2

/-- `shmem_remove_entry_pte` clears a slot. -/
theorem wp_shmemRemoveEntryPte (h : MemOk hand s) (ho : s.tableOf o = some t)
    (hQ : ∀ s', MemOk hand s' → s'.entry = update s.entry (o, j) .none →
      s'.shmem = s.shmem → s'.tableOf = s.tableOf →
      (∀ g ∈ s.heap.live, s.names (o, j) ≠ some g → g ∈ s'.heap.live) → Q () s') :
    (shmemRemoveEntryPte (t, j)).wp H E Q s := by
  rw [shmemRemoveEntryPte, wp_get]
  have hpte : s.pte (t, j) = s.entry (o, j) := (entry_eq ho).symm
  cases hx : s.entry (o, j) with
  | none =>
    rw [hpte, hx]
    refine hQ s h ?_ rfl rfl fun g hg _ => hg
    rw [← hx, update_eq_self]
  | page f prot =>
    have hnames : s.names (o, j) = some f := by rw [names, hx, Pte.frame?]
    rw [hpte, hx]
    refine wp_seq (wp_shmemUnref ?_)
    obtain ⟨hentry, htableOf⟩ := h.cleared ho f j false
    refine hQ _ (h.clear ho hnames (by simp)) hentry (quiet_unref s f false).shmem htableOf
      fun g hg hne => mem_live_unref ?_ hg
    rintro rfl
    exact hne hnames

/-- A page may be put into a slot of a shared memory if it is in use, and stays so when the slot
is cleared. -/
def Insertable (s : Mem) (x : Slot) (f : ℕ) : Prop :=
  f ∈ s.heap.live ∧ ¬s.IsTable f ∧ (s.names x = some f → ∃ y, y ≠ x ∧ s.names y = some f)

/-- `shmem_insert_entry` writes a slot. -/
theorem wp_shmemInsertEntry {v : Pte} (h : MemOk hand s) (hlen : H ∨ addr < (s.shmem m).len)
    (hv : ∀ f ∈ v.frame?, Insertable s (shSlot m addr) f)
    (hE : ∀ s', MemOk hand s' → E .noMem s')
    (hQ : ∀ s', MemOk (v.frame?.elim hand hand.erase) s' → Q () s') :
    (shmemInsertEntry m addr v).wp H E Q s := by
  rw [shmemInsertEntry, wp_bind]
  refine wp_shmemGetEntry h hlen (fun s₁ h₁ _ => hE s₁ h₁) fun s₁ t h₁ hgot => ?_
  refine wp_seq (wp_shmemRemoveEntryPte h₁ hgot.table fun s₂ h₂ hentry₂ _ htableOf₂ hkeep₂ => ?_)
  have ho₂ : s₂.tableOf (.shmn m (roundDown addr ptSize)) = some t := by
    rw [htableOf₂]
    exact hgot.table
  have hupdate : update s₁.entry (shSlot m addr) .none = update s.entry (shSlot m addr) .none := by
    rcases hgot.entry with heq | ⟨f, -, -, heq⟩
    · rw [heq]
    · rw [heq, update_idem]
  have hentry : s₂.entry = update s.entry (shSlot m addr) .none := hentry₂.trans hupdate
  have hx : s₂.entry (.shmn m (roundDown addr ptSize), ptx addr) = .none := by
    rw [hentry]
    exact update_self ..
  cases v with
  | none =>
    rw [wp_bind, refEntry, wp_pure, setPte, wp_modify]
    have hsame : s₂.setPte (t, ptx addr) .none = s₂ := by
      have hpte : s₂.table t (ptx addr) = .none := (entry_eq ho₂).symm.trans hx
      rw [Mem.setPte]
      rw [← hpte, update_eq_self, update_eq_self]
    rw [hsame]
    exact hQ s₂ h₂
  | page f prot =>
    obtain ⟨hlive, htable, hother⟩ := hv f rfl
    have hlive₂ : f ∈ s₂.heap.live := by
      by_cases hnames : s.names (shSlot m addr) = some f
      · obtain ⟨y, hne, hy⟩ := hother hnames
        refine (h₂.named (x := y) ?_).1
        rw [names, hentry, update_of_ne hne]
        exact hy
      · refine hkeep₂ f (hgot.live f hlive).1 fun hnames₁ => ?_
        rcases hgot.entry with heq | ⟨f', hf', -, heq⟩
        · rw [names, heq] at hnames₁
          exact hnames hnames₁
        · rw [names, heq] at hnames₁
          have hself : update s.entry (shSlot m addr) (.page f' .r)
              (.shmn m (roundDown addr ptSize), ptx addr) = .page f' .r :=
            update_self ..
          rw [hself] at hnames₁
          cases hnames₁
          exact hf' hlive
    have htable₂ : ¬s₂.IsTable f := by
      rintro ⟨o, ho⟩
      rw [htableOf₂] at ho
      exact htable ((hgot.live f hlive).2 ⟨o, ho⟩)
    exact hQ _ (h₂.fill ho₂ (ptx_lt addr) hx hlive₂ htable₂)

/-! ## The end of a shared memory -/

/-- The state with other shared memories. -/
def Mem.withShmem (s : Mem) (g : ℕ → Shmem) : Mem := { s with shmem := g }

/-- Code that does not look at shared memories. -/
def Blind {α : Type} (c : MemM α) : Prop :=
  ∀ (H : Prop) (E : Err → Mem → Prop) (Q : α → Mem → Prop) (s : Mem) (g : ℕ → Shmem),
    c.wp H (fun e s' => E e (s'.withShmem g)) (fun a s' => Q a (s'.withShmem g)) s →
      c.wp H E Q (s.withShmem g)

theorem Blind.bind {α β : Type} {c : MemM α} {k : α → MemM β} (hc : Blind c)
    (hk : ∀ a, Blind (k a)) : Blind (c >>= k) := by
  intro H E Q s g hwp
  rw [wp_bind] at hwp ⊢
  exact hc H E _ s g (hwp.imp fun a s' => hk a H E Q s' g)

theorem blind_shmemRemoveEntryPte (p : Ptep) : Blind (shmemRemoveEntryPte p) := by
  intro H E Q s g hwp
  rw [shmemRemoveEntryPte, wp_get] at hwp ⊢
  have hpte : (s.withShmem g).pte p = s.pte p := rfl
  rw [hpte]
  cases hx : s.pte p with
  | none =>
    rw [hx] at hwp
    exact hwp
  | page f prot =>
    rw [hx] at hwp
    rw [wp_bind, shmemUnref, wp_bind, pageRefDec, wp_put, wp_gets, wp_ite] at hwp ⊢
    exact hwp

theorem blind_removeEntries (n i : ℕ) : Blind (removeEntries t n i) := by
  induction n generalizing i with
  | zero =>
    intro H E Q s g hwp
    exact hwp
  | succ n ih => exact (blind_shmemRemoveEntryPte (t, i)).bind fun _ => ih (i + 1)

/-- The loop of `shmn_destroy` clears the slots of a node. -/
theorem wp_removeEntries {n i : ℕ} (h : MemOk hand s) (ho : s.tableOf o = some t)
    (hQ : ∀ s', MemOk hand s' → (∀ j, i ≤ j → j < i + n → s'.entry (o, j) = .none) →
      (∀ x, x.1 ≠ o ∨ x.2 < i → s'.entry x = s.entry x) → s'.shmem = s.shmem →
      s'.tableOf = s.tableOf → Q () s') :
    (removeEntries t n i).wp H E Q s := by
  induction n generalizing s i with
  | zero => exact hQ s h (fun j hlo hhi => by omega) (fun _ _ => rfl) rfl rfl
  | succ n ih =>
    rw [removeEntries, wp_bind]
    refine wp_shmemRemoveEntryPte h ho fun s₁ h₁ hentry₁ hshmem₁ htableOf₁ _ => ?_
    refine ih h₁ (by rw [htableOf₁]; exact ho) fun s₂ h₂ hnone₂ hkept₂ hshmem₂ htableOf₂ => ?_
    refine hQ s₂ h₂ (fun j hlo hhi => ?_) (fun x hx => ?_)
      (hshmem₂.trans hshmem₁) (htableOf₂.trans htableOf₁)
    · by_cases hj : j = i
      · rw [hj, hkept₂ _ (.inr (Nat.lt_succ_self i)), hentry₁, update_self]
      · exact hnone₂ j (by omega) (by omega)
    · rw [hkept₂ x (hx.imp_right fun hlt => by omega), hentry₁, update_of_ne]
      rintro rfl
      rcases hx with hne | hlt
      · exact hne rfl
      · exact Nat.lt_irrefl _ hlt

/-- A shared memory with other nodes and no cache. -/
def Mem.withNodes (s : Mem) (m : ℕ) (l : List Shmn) : Mem :=
  s.withShmem (update s.shmem m ⟨l, none, 0, 0⟩)

theorem shmem_withNodes : (s.withNodes m l).shmem = update s.shmem m ⟨l, none, 0, 0⟩ := rfl

theorem tableOf_withNodes_of_ne (ho : ∀ start, o ≠ .shmn m start) :
    (s.withNodes m l).tableOf o = s.tableOf o := by
  cases o with
  | dir d i => rfl
  | shmn m' start =>
    have hm : m' ≠ m := by
      rintro rfl
      exact ho start rfl
    rw [tableOf, tableOf, shmem_withNodes, update_of_ne hm]

theorem tableOf_withNodes : (s.withNodes m l).tableOf (.shmn m start) =
    (l.find? fun n => n.start = start).map (·.entry) := by
  rw [tableOf, shmem_withNodes, update_self]

/-- Without the node, its table is free. -/
theorem MemOk.dropNode {rest : List Shmn} {g : ℕ → Shmem} (h : MemOk hand s) (k' : Heap ℕ)
    (hs : s.shmem m = ⟨n :: rest, none, 0, 0⟩)
    (hempty : ∀ j, s.entry (.shmn m n.start, j) = .none)
    (hs' : s' = withNodes { (s.withShmem g).freed n.entry with kheap := k' } m rest)
    (hg : ∀ m', m' ≠ m → g m' = s.shmem m') : MemOk hand s' ∧ s'.entry = s.entry := by
  have hnodes : (n :: rest).Pairwise fun a b => a.fin ≤ b.start := by
    have hnodes := h.nodes m
    rw [hs] at hnodes
    exact hnodes
  have hother : ∀ m', m' ≠ m → s'.shmem m' = s.shmem m' := by
    intro m' hm
    rw [hs', ← hg m' hm]
    exact update_of_ne hm ..
  have hself : s'.shmem m = ⟨rest, none, 0, 0⟩ := by
    rw [hs']
    exact update_self ..
  have ho : s.tableOf (.shmn m n.start) = some n.entry := by
    rw [tableOf, hs]
    simp
  have htableOf : s'.tableOf = update s.tableOf (.shmn m n.start) none := by
    funext o
    cases o with
    | dir d i =>
      rw [hs']
      rfl
    | shmn m' start =>
      rcases eq_or_ne m' m with rfl | hm
      · by_cases hstart : start = n.start
        · rw [hstart, update_self, tableOf, hself, map_eq_none_iff, List.find?_eq_none]
          intro x hx
          have hle := (pairwise_cons.mp hnodes).1 x hx
          rw [fin_eq, ptSize_eq] at hle
          simp only [decide_eq_true_eq]
          omega
        · rw [update_of_ne (by simp [hstart]), tableOf, tableOf, hself, hs]
          rw [List.find?_cons_of_neg (by simpa using Ne.symm hstart)]
      · rw [update_of_ne (by simp [hm]), tableOf, tableOf, hother m' hm]
  refine h.dropTable _ _ ho hempty (by rw [hs']; rfl) (by rw [hs']; rfl) (by rw [hs']; rfl)
    (by rw [hs']; rfl) htableOf fun m' => ?_
  by_cases hm : m' = m
  · rw [hm, hself]
    refine ⟨(pairwise_cons.mp hnodes).2, fun x hx => h.aligned m x ?_, fun x hx => ?_⟩
    · rw [hs]
      exact .tail _ hx
    · cases hx
  · rw [hother m' hm]
    exact h.shares m'

/-- The loop of `shmem_destroy`. The shared memory already lacks a node when its entries are
removed, so the invariant is about the nodes that are left to the loop. -/
theorem wp_destroyNodes (h : MemOk hand (s.withNodes m l))
    (hQ : ∀ s', MemOk hand (s'.withNodes m []) →
      (∀ x, (∀ start, x.1 ≠ .shmn m start) → s'.entry x = s.entry x) →
      s'.pgdir = s.pgdir → (∀ m', m' ≠ m → s'.shmem m' = s.shmem m') → Q () s') :
    (destroyNodes m l).wp H E Q s := by
  induction l generalizing s with
  | nil => exact hQ s h (fun _ _ => rfl) rfl fun _ _ => rfl
  | cons n rest ih =>
    rw [destroyNodes, wp_bind, modifyShmem, wp_modify, wp_bind, shmnDestroy, wp_bind]
    generalize hg : update s.shmem m { s.shmem m with nodes := rest } = g
    have hgm : ∀ m', m' ≠ m → g m' = s.shmem m' := by
      intro m' hm
      rw [← hg]
      exact update_of_ne hm ..
    have ho : (s.withNodes m (n :: rest)).tableOf (.shmn m n.start) = some n.entry := by
      rw [tableOf_withNodes]
      simp
    refine blind_removeEntries nptEntry 0 H E _ (s.withNodes m (n :: rest)) g ?_
    refine wp_removeEntries h ho fun s₁ h₁ hnone₁ hkept₁ hshmem₁ htableOf₁ => ?_
    have hempty : ∀ j, s₁.entry (.shmn m n.start, j) = .none := by
      intro j
      by_cases hj : j < nptEntry
      · exact hnone₁ j (Nat.zero_le j) (by omega)
      · cases hx : s₁.entry (.shmn m n.start, j) with
        | none => rfl
        | page f prot =>
          have hnames : s₁.names (.shmn m n.start, j) = some f := by rw [names, hx, Pte.frame?]
          exact absurd (h₁.bounded hnames) hj
    have hs₁ : s₁.shmem m = ⟨n :: rest, none, 0, 0⟩ := by
      rw [hshmem₁]
      exact update_self ..
    have hother₁ : ∀ m', m' ≠ m → s₁.shmem m' = s.shmem m' := by
      intro m' hm
      rw [hshmem₁]
      exact update_of_ne hm ..
    have hdrop := fun k' => h₁.dropNode k' hs₁ hempty rfl
      fun m' hm => (hgm m' hm).trans (hother₁ m' hm).symm
    refine ih (hdrop _).1 fun s' h' hkept hpgdir hother => hQ s' h' (fun x hx => ?_)
      (hpgdir.trans ?_) fun m' hm => (hother m' hm).trans (hgm m' hm)
    · rw [hkept x hx]
      have hgone := congrFun (hdrop { s₁.kheap with live := s₁.kheap.live.erase n.addr }).2 x
      rw [hkept₁ x (.inl (hx n.start))] at hgone
      rw [entry, tableOf_withNodes_of_ne hx] at hgone
      rw [entry] at hgone
      rw [tableOf_withNodes_of_ne hx] at hgone
      exact hgone
    · funext d i
      exact congrFun htableOf₁ (.dir d i)

/-- `shmem_destroy` clears the slots of a shared memory. -/
theorem wp_shmemDestroy (h : MemOk hand s) (hQ : ∀ s', MemOk hand s' →
      (∀ x, s'.entry x = .none ∧ (∃ start, x.1 = .shmn m start) ∨ s'.entry x = s.entry x) →
      s'.shmem m = ⟨[], none, 0, 0⟩ → s'.pgdir = s.pgdir →
      (∀ m', m' ≠ m → s'.shmem m' = s.shmem m') → Q () s') : (shmemDestroy m).wp H E Q s := by
  have htableOf : (s.withNodes m (s.shmem m).nodes).tableOf = s.tableOf := by
    funext o
    cases o with
    | dir d i => rfl
    | shmn m' start =>
      by_cases hm : m' = m
      · rw [hm, tableOf_withNodes, tableOf]
      · exact tableOf_withNodes_of_ne (by simp [hm])
  have hok : MemOk hand (s.withNodes m (s.shmem m).nodes) := by
    refine h.same rfl htableOf rfl rfl rfl (fun m' => ?_) fun m' n hn => ?_
    · by_cases hm : m' = m
      · rw [hm, shmem_withNodes, update_self]
      · rw [shmem_withNodes, update_of_ne hm]
    · by_cases hm : m' = m
      · rw [hm, shmem_withNodes, update_self] at hn
        cases hn
      · rw [shmem_withNodes, update_of_ne hm] at hn
        exact h.cache m' n hn
  rw [shmemDestroy, wp_get, wp_bind]
  refine wp_destroyNodes hok fun s₁ h₁ hkept hpgdir hother => ?_
  have hgone : ∀ start, (s₁.withNodes m []).tableOf (.shmn m start) = none := by
    intro start
    rw [tableOf_withNodes]
    rfl
  refine hQ (s₁.withNodes m []) h₁ (fun x => ?_) (update_self ..) hpgdir fun m' hm => ?_
  · by_cases hx : ∃ start, x.1 = .shmn m start
    · obtain ⟨start, hstart⟩ := hx
      obtain ⟨o, j⟩ := x
      rw [show o = .shmn m start from hstart]
      exact .inl ⟨entry_none (hgone start), start, rfl⟩
    · have hne : ∀ start, x.1 ≠ .shmn m start := fun start hstart => hx ⟨start, hstart⟩
      rw [← hkept x hne, entry, entry, tableOf_withNodes_of_ne hne]
      exact .inr rfl
  · exact (update_of_ne hm ..).trans (hother m' hm)

end Ucore.Vm
