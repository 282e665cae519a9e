import Ucore.Vm.SystemSpec

/-!
# The areas of an address space in every run

After any sequence of calls, the list of areas of every address space is in order, the tree and
the cache agree with it, and `find_vma` finds the first area that ends after an address.
-/

namespace Ucore.Vm

open Kern List

variable {k k₀ : Sys} {cs : List Call} {m : Mm} {loose : List ℕ}

/-- The area of the list that `find_vma` has to find: the one with the smallest start of those
that end after the address. -/
def Mm.Finds (m : Mm) (addr : ℕ) : Option ℕ → Prop
  | none => ∀ x ∈ m.mmapList, (m.vma x).vmEnd ≤ addr
  | some x => x ∈ m.mmapList ∧ addr < (m.vma x).vmEnd ∧
    ∀ y ∈ m.mmapList, addr < (m.vma y).vmEnd → y ≠ x → (m.vma x).vmStart < (m.vma y).vmStart

theorem MmOk.finds (h : MmOk loose m) (addr : ℕ) : m.Finds addr (m.firstAfter addr m.mmapList) := by
  cases hfirst : m.firstAfter addr m.mmapList with
  | none =>
    intro x hx
    have hno := List.find?_eq_none.mp hfirst x hx
    simpa using hno
  | some x =>
    obtain ⟨hx, hend⟩ := mem_of_firstAfter hfirst
    obtain ⟨-, pre, post, hlist, hpre⟩ := List.find?_eq_some_iff_append.mp hfirst
    refine ⟨hx, hend, fun y hy hyend hne => ?_⟩
    have hstarts := h.ordered.starts
    rw [hlist] at hstarts hy
    rcases mem_append.mp hy with hy | hy
    · have hle := hpre y hy
      simp only [Bool.not_eq_eq_eq_not, Bool.not_true, decide_eq_false_iff_not] at hle
      exact absurd hyend hle
    · exact (pairwise_cons.mp (pairwise_append.mp hstarts).2.1).1 y
        ((mem_cons.mp hy).resolve_left hne)

theorem findVma_done (h : MmOk loose m) (addr : ℕ) :
    ∃ r m', findVma addr m = .done r m' ∧ m.Finds addr r := by
  have hwp : (findVma addr).wp False Never (fun r _ => m.Finds addr r) m := by
    have hfinds := h.finds addr
    refine wp_findVma h (fun hnone => ?_) fun x hx => ?_
    · rw [hnone] at hfinds
      exact hfinds
    · rw [hx] at hfinds
      exact hfinds
  obtain ⟨r, m', hcall, hfinds⟩ := hwp.returns_done
  exact ⟨r, m', hcall, hfinds⟩

/-- After any sequence of calls on any number of address spaces: the list of areas is sorted,
and its ranges are not empty and have no address in common; `map_count` is its length; the tree
has the areas of the list in their order; the cache is an area of the list; `find_vma` returns
the area with the smallest start of those that end after an address; and no call that is not a
fault fails an assertion. -/
theorem vma_lists_agree (hboot : k₀.Boot) (hrun : Run SysStep k₀ cs k) :
    (∀ d, (k.spaces.mm d).mmapList.Pairwise (k.spaces.mm d).Before ∧
      (∀ x ∈ (k.spaces.mm d).mmapList,
        ((k.spaces.mm d).vma x).vmStart < ((k.spaces.mm d).vma x).vmEnd) ∧
      (k.spaces.mm d).mapCount = (k.spaces.mm d).mmapList.length ∧
      (∀ p, (k.spaces.mm d).mmapTree = some p →
        TreeOf (k.spaces.mm d).rbLink p (k.spaces.mm d).mmapList) ∧
      (∀ x, (k.spaces.mm d).mmapCache = some x → x ∈ (k.spaces.mm d).mmapList) ∧
      ∀ addr, ∃ r m', findVma addr (k.spaces.mm d) = .done r m' ∧ (k.spaces.mm d).Finds addr r) ∧
    ∀ c : Call, c.Enabled k → ¬c.MayHalt → ∀ h, c.code k ≠ .halt h := by
  have hok : SysOk k := hrun.invariant (fun _ _ _ hok hstep => (hstep.keeps hok).1) hboot.sysOk
  refine ⟨fun d => ?_, fun c henabled hmay h hhalt => ?_⟩
  · have hmm := hok.spaces.mm d
    exact ⟨hmm.sorted, fun x hx => (hmm.ok x hx).lt, hmm.count, hmm.tree, hmm.cache,
      (findVma_done hmm)⟩
  · have hwp := c.keeps hok henabled
    rw [Keeps, wp, hhalt] at hwp
    exact hmay hwp

/-- No process has an address space, and there is memory. -/
def bootSys : Sys where
  spaces :=
    { mem := emptyMem
      mm := fun _ =>
        { vma := fun _ => ⟨0, 0, 0, none, 0, false⟩
          rbLink := fun _ => ⟨false, 0, 0, 0⟩
          mmapList := []
          mmapTree := none
          mmapCache := none
          mapCount := 0
          mmCount := 0
          heap := ⟨fun n => some n, 0, []⟩ } }
  runs := ⟨fun n => some n, 0, []⟩
  pgdirAlloc := fun _ => none

theorem boot_bootSys : bootSys.Boot where
  mem := fresh_emptyMem
  shmem _ := rfl
  mm _ := ⟨rfl, rfl, rfl, rfl, rfl, rfl⟩
  runs := ⟨rfl, fun _ => rfl⟩

/-- Maps of one page with a free page behind each, from the last to the first. -/
def maps (n : ℕ) : List Call :=
  (List.range n).map fun i => .map 0 (0x30100000 - 0x2000 * i) 0x1000 vmRead

/-- A map that succeeds. -/
def execMap (c : Call) (k : Sys) : Option Sys :=
  match c, c.code k with
  | .map d _ _ _, .done _ k' => if 0 < (k.spaces.mm d).mmCount then some k' else none
  | _, _ => none

theorem execMap_sound (k : Sys) (c : Call) (k' : Sys) (h : execMap c k = some k') :
    SysStep k c k' := by
  unfold execMap at h
  split at h
  · rename_i d addr len flags _ k₁ hcall
    split at h
    · rename_i hused
      cases h
      exact ⟨hused, .inl hcall⟩
    · cases h
  · cases h

/-- An address space with so many areas that they are in a tree too. -/
theorem vma_lists_agree_tree : ∃ k p, Run SysStep bootSys (.create 0 :: maps 33) k ∧
    (k.spaces.mm 0).mmapList.length = 33 ∧ (k.spaces.mm 0).mmapTree = some p ∧
    TreeOf (k.spaces.mm 0).rbLink p (k.spaces.mm 0).mmapList ∧
    ∃ r m', findVma 0x300E1000 (k.spaces.mm 0) = .done r m' ∧
      (k.spaces.mm 0).Finds 0x300E1000 r := by
  have hcheck : (execAll execMap (maps 33) (((Call.create 0).code bootSys).after.get rfl)).any
      (fun k => (k.spaces.mm 0).mmapTree.isSome && (k.spaces.mm 0).mmapList.length == 33) =
        true := by
    decide +kernel
  obtain ⟨k, hmaps, htest⟩ := exists_run_of_execAll execMap_sound hcheck
  rw [Bool.and_eq_true, Option.isSome_iff_exists, beq_iff_eq] at htest
  obtain ⟨⟨p, hp⟩, hlength⟩ := htest
  have hrun : Run SysStep bootSys (.create 0 :: maps 33) k :=
    .cons ⟨⟨rfl, fun _ => rfl⟩, .inl rfl⟩ hmaps
  obtain ⟨-, -, -, htree, -, hfind⟩ := (vma_lists_agree boot_bootSys hrun).1 0
  exact ⟨k, p, hrun, hlength, hp, htree p hp, hfind _⟩

/-- After any sequence of calls every page of a directory lies in an area of its address space,
and no page is left where no process is. -/
theorem pages_lie_in_areas (hboot : k₀.Boot) (hrun : Run SysStep k₀ cs k) (d : ℕ) :
    Backed k.spaces.mem (k.spaces.mm d) d ∧ ((k.spaces.mm d).mmCount = 0 →
      ∀ i j, k.spaces.mem.entry (.dir d i, j) = .none) := by
  have hok : SysOk k := hrun.invariant (fun _ _ _ hok hstep => (hstep.keeps hok).1) hboot.sysOk
  exact ⟨hok.spaces.backed d, fun hzero => hok.spaces.empty (hok.unused d hzero)⟩

/-- A page that a fault has mapped. -/
theorem pages_lie_in_areas_fault : ∃ k, Run SysStep bootSys
      [.create 0, .map 0 0x30001000 0x1000 vmRead, .fault 0 ⟨false, false⟩ 0x30001000] k ∧
    (k.spaces.mem.entry (slot 0 0x30001000)).frame? = some 1 ∧
    Backed k.spaces.mem (k.spaces.mm 0) 0 := by
  refine Run.exists_imp (P := fun k => (k.spaces.mem.entry (slot 0 0x30001000)).frame? = some 1) ?_
    fun k hrun hentry => ⟨hentry, (pages_lie_in_areas boot_bootSys hrun 0).1⟩
  exact ⟨_, .cons ⟨⟨rfl, fun _ => rfl⟩, .inl rfl⟩
    (.cons ⟨Int.one_pos, .inl rfl⟩ (.cons ⟨Int.one_pos, .inl rfl⟩ (.nil _))), rfl⟩

end Ucore.Vm
