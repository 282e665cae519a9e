import Ucore.Vm.AreaRuns

/-!
# What the end of an address space returns

When the last process gives up an address space, `exit_mmap`, `put_pgdir` and `mm_destroy` return
everything that it has, except for page tables in regions where nothing is mapped any more:
`mm_unmap` does not free tables, and `exit_mmap` looks at the regions of the areas only.
-/

namespace Ucore.Vm

open Kern

variable {k k₀ k' : Sys} {cs : List Call} {d a : ℕ}

/-- Nothing is left of an address space whose directory was the run of pages `a`. -/
structure Returned (k' : Sys) (d a : ℕ) : Prop where
  /-- A page in use is for IO, or has another owner. -/
  pages : ∀ f ∈ k'.spaces.mem.heap.live, k'.spaces.mem.io f = false → ∃ o, (∀ i, o ≠ .dir d i) ∧
      (k'.spaces.mem.tableOf o = some f ∨ ∃ j, k'.spaces.mem.names (o, j) = some f)
  tables : ∀ i, k'.spaces.mem.pgdir d i = none
  directory : k'.pgdirAlloc d = none ∧ a ∉ k'.runs.live
  /-- The areas and the tree. -/
  areas : (k'.spaces.mm d).heap.live = []

/-- The pages of a memory in which a directory is empty. -/
theorem MemOk.pages {s : Mem} (h : MemOk ∅ s) (hempty : ∀ i j, s.entry (.dir d i, j) = .none)
    (htables : ∀ i, s.pgdir d i = none) :
    ∀ f ∈ s.heap.live, s.io f = false →
      ∃ o, (∀ i, o ≠ .dir d i) ∧ (s.tableOf o = some f ∨ ∃ j, s.names (o, j) = some f) := by
  intro f hf hio
  rcases h.owned hf hio with hhand | ⟨o, ho⟩ | ⟨x, hx⟩
  · exact absurd hhand (Finset.notMem_empty f)
  · refine ⟨o, fun i hi => ?_, .inl ho⟩
    rw [hi, Mem.tableOf, htables] at ho
    exact absurd ho (Option.some_ne_none f).symm
  · refine ⟨x.1, fun i hi => ?_, .inr ⟨x.2, hx⟩⟩
    have hnone := hempty i x.2
    rw [← hi] at hnone
    rw [Mem.names, hnone] at hx
    exact absurd hx (Option.some_ne_none f).symm

/-- No table is left if all of them were in regions of areas. -/
theorem Ended.tables {s s' : Mem} {m : Mm} (h : Ended s s' m d)
    (hcovers : ∀ i, s.pgdir d i ≠ none → m.Covers i) (i : ℕ) : s'.pgdir d i = none := by
  by_cases hi : s.pgdir d i = none
  · by_cases hcov : m.Covers i
    · exact h.gone i hcov
    · exact (h.kept d i fun hin => hcov hin.2).trans hi
  · exact h.gone i (hcovers i hi)

/-- The last process gives up an address space. -/
theorem wp_exitMm_last (h : SysOk k) (hlast : (k.spaces.mm d).mmCount = 1)
    (ha : k.pgdirAlloc d = some a) :
    (exitMm d).wp False
      (fun _ _ => ¬∀ x ∈ (k.spaces.mm d).mmapList, ((k.spaces.mm d).vma x).HasShmem)
      (fun _ k' => (∀ x ∈ (k.spaces.mm d).mmapList, ((k.spaces.mm d).vma x).HasShmem) ∧
        (Returned k' d a ↔ ∀ i, k.spaces.mem.pgdir d i ≠ none → (k.spaces.mm d).Covers i)) k := by
  rw [exitMm, wp_bind, wp_onSpaces, mmCountDec, wp_bind, wp_onMm, wp_modify, wp_gets, mm_setMm_self]
  refine wp_if (fun _ => ?_) fun hne => absurd (by rw [hlast]; rfl) hne
  have hself : ((k.spaces.setMm d { k.spaces.mm d with
      mmCount := (k.spaces.mm d).mmCount - 1 }).mm d) =
      { k.spaces.mm d with mmCount := (k.spaces.mm d).mmCount - 1 } := mm_setMm_self
  refine wp_endMm h.spaces.count ?_ ha (fun x hx hno k' hall => ?_)
    fun m' s' hmem' hblank hcount' hended _ _ => ?_
  · rw [hself, hlast]
    rfl
  · rw [hself] at hx hno
    exact hno (hall x hx)
  · rw [hself] at hended
    refine ⟨hended.shmem, fun hret i hi => ?_, fun hcovers => ?_⟩
    · by_contra hno
      exact hi ((hended.kept d i fun hcov => hno hcov.2).symm.trans (hret.tables i))
    · have htables := hended.tables hcovers
      refine ⟨hmem'.pages hended.empty htables, htables, ⟨?_, ?_⟩, ?_⟩
      · exact Function.update_self ..
      · exact h.dirs.not_mem_erase
      · rw [Sys.ended, mm_put_self, hblank.live]

/-- After any sequence of calls, the end of an address space returns everything exactly if every
page table lies in a region of an area that is still there and every shared area has a shared
memory. -/
theorem exit_returns_iff (hboot : k₀.Boot) (hrun : Run SysStep k₀ cs k)
    (hlast : (k.spaces.mm d).mmCount = 1) (ha : k.pgdirAlloc d = some a) :
    (∃ k', exitMm d k = .done () k' ∧ Returned k' d a) ↔
      (∀ i, k.spaces.mem.pgdir d i ≠ none → (k.spaces.mm d).Covers i) ∧
        ∀ x ∈ (k.spaces.mm d).mmapList, ((k.spaces.mm d).vma x).HasShmem := by
  have hok : SysOk k := hrun.invariant (fun _ _ _ hok hstep => (hstep.keeps hok).1) hboot.sysOk
  have hwp := wp_exitMm_last hok hlast ha
  constructor
  · rintro ⟨k', hcall, hret⟩
    obtain ⟨hshmem, hiff⟩ := hwp.of_done hcall
    exact ⟨hiff.mp hret, hshmem⟩
  · rintro ⟨hcovers, hshmem⟩
    rcases hwp.returns with ⟨u, k', hcall, -, hiff⟩ | ⟨e, k', -, hno⟩
    · exact ⟨k', hcall, hiff.mpr hcovers⟩
    · exact absurd hshmem hno

/-- A process with one page ends. -/
theorem exit_returns_page : ∃ k,
    Run SysStep bootSys [.create 0, .map 0 0x30001000 0x1000 (vmRead ||| vmWrite),
      .fault 0 ⟨false, true⟩ 0x30001000] k ∧
      ∃ k', exitMm 0 k = .done () k' ∧ Returned k' 0 0 := by
  refine Run.exists_imp (P := fun k => (k.spaces.mm 0).mmCount = 1 ∧ k.pgdirAlloc 0 = some 0 ∧
    (∀ i, i ≠ 0x300 → k.spaces.mem.pgdir 0 i = none) ∧ (k.spaces.mm 0).mmapList = [0] ∧
    (k.spaces.mm 0).vma 0 = ⟨0x30001000, 0x30002000, vmRead ||| vmWrite, none, 0, true⟩)
    ⟨_, .cons ⟨⟨rfl, fun _ => rfl⟩, .inl rfl⟩ (.cons ⟨Int.one_pos, .inl rfl⟩
      (.cons ⟨Int.one_pos, .inl rfl⟩ (.nil _))), rfl, rfl,
      fun _ hi => Function.update_of_ne hi .., rfl, rfl⟩ ?_
  rintro k hrun ⟨hlast, ha, htables, hlist, hvma⟩
  refine (exit_returns_iff boot_bootSys hrun hlast ha).mpr ⟨fun i hi => ?_, fun x hx => ?_⟩
  · have hi : i = 0x300 := by
      by_contra hne
      exact hi (htables i hne)
    refine ⟨0, by rw [hlist]; exact .head _, ?_⟩
    rw [hvma, hi]
    exact ⟨by decide, by decide⟩
  · rw [hlist] at hx
    rw [List.mem_singleton.mp hx, hvma]
    intro hshare
    cases hshare

/-- A process unmaps its only page and ends. The page table stays allocated. -/
theorem exit_leaves_table : ∃ k k',
    Run SysStep bootSys [.create 0, .map 0 0x30001000 0x1000 (vmRead ||| vmWrite),
      .fault 0 ⟨false, true⟩ 0x30001000, .unmap 0 0x30001000 0x1000] k ∧
      (k.spaces.mm 0).mmCount = 1 ∧ exitMm 0 k = .done () k' ∧
      ∃ f ∈ k'.spaces.mem.heap.live, k'.spaces.mem.pgdir 0 0x300 = some f := by
  obtain ⟨k₃, hrun, hused, hcheck⟩ : ∃ k₃,
      (∀ k, SysStep k₃ (.unmap 0 0x30001000 0x1000) k → Run SysStep bootSys [.create 0,
        .map 0 0x30001000 0x1000 (vmRead ||| vmWrite), .fault 0 ⟨false, true⟩ 0x30001000,
        .unmap 0 0x30001000 0x1000] k) ∧
      0 < (k₃.spaces.mm 0).mmCount ∧
      (Call.unmap 0 0x30001000 0x1000).code.wp False Never (fun _ k =>
        (k.spaces.mm 0).mmCount = 1 ∧ (exitMm 0).wp False Never (fun _ k' =>
          ∃ f ∈ k'.spaces.mem.heap.live, k'.spaces.mem.pgdir 0 0x300 = some f) k) k₃ :=
    ⟨_, fun k hstep => .cons ⟨⟨rfl, fun _ => rfl⟩, .inl rfl⟩ (.cons ⟨Int.one_pos, .inl rfl⟩
      (.cons ⟨Int.one_pos, .inl rfl⟩ (.cons hstep (.nil k)))), by decide +kernel⟩
  obtain ⟨⟨⟩, k, hcall, hlast, hcheck⟩ := hcheck.returns_done
  obtain ⟨⟨⟩, k', hcall', hcheck⟩ := hcheck.returns_done
  exact ⟨k, k', hrun k ⟨hused, .inl hcall⟩, hlast, hcall', hcheck⟩

end Ucore.Vm
