import Ucore.Buddy.Zones
import Ucore.Lib.Runs

/-!
# Runs of the buddy allocator

Sequences of calls of the allocator, with the set of the allocated pages. The invariant
`BuddyOk` holds in every state, and every call within the contract returns; the contract
has to say that the pages freed by one call are of one zone.
-/

namespace Ucore.Buddy

open Kern

variable {U : Finset ℕ} {s t : Pmm} {c : PmmCall}

/-- The allocator, and the pages of the live allocations. -/
structure Sys where
  pmm : Pmm
  live : Finset ℕ

/-- The calls of the page allocator. -/
inductive PmmCall where
  /-- `buddy_init_memmap`. -/
  | initMemmap (base n : ℕ)
  /-- `alloc_pages`. -/
  | allocPages (n : ℕ)
  /-- `free_pages`. -/
  | freePages (base n : ℕ)

/-- A call that returns. -/
inductive PmmStep : Sys → PmmCall → Sys → Prop
  | initMemmap {s t : Pmm} {live : Finset ℕ} {base n : ℕ} :
      buddyInitMemmap base n s = .done () t → PmmStep ⟨s, live⟩ (.initMemmap base n) ⟨t, live⟩
  | allocNone {s t : Pmm} {live : Finset ℕ} {n : ℕ} :
      buddyAllocPages n s = .done none t → PmmStep ⟨s, live⟩ (.allocPages n) ⟨t, live⟩
  | allocSome {s t : Pmm} {live : Finset ℕ} {n page : ℕ} :
      buddyAllocPages n s = .done (some page) t →
        PmmStep ⟨s, live⟩ (.allocPages n) ⟨t, live ∪ Finset.Ico page (page + n)⟩
  | freePages {s t : Pmm} {live : Finset ℕ} {base n : ℕ} :
      buddyFreePages base n s = .done () t →
        PmmStep ⟨s, live⟩ (.freePages base n) ⟨t, live \ Finset.Ico base (base + n)⟩

/-- The calls that the allocator has to serve: a new zone consists of reserved pages, a
request has at most 1024 pages, and only allocated pages are freed. -/
def PmmCall.Legal (S : Sys) : PmmCall → Prop
  | .initMemmap base n => 0 < n ∧ S.pmm.zoneNum < maxZoneNum ∧ base + n ≤ S.pmm.npage ∧
      ∀ q ∈ Finset.Ico base (base + n), (S.pmm.page q).reserved = true
  | .allocPages n => 1 ≤ n ∧ n ≤ 1024
  | .freePages base n => 1 ≤ n ∧ n ≤ 1024 ∧ Finset.Ico base (base + n) ⊆ S.live

/-- The pages that one call frees are of one zone. -/
def PmmCall.OneZone (S : Sys) : PmmCall → Prop
  | .freePages base n =>
      ∀ q ∈ Finset.Ico base (base + n), (S.pmm.page q).zoneNum = (S.pmm.page base).zoneNum
  | _ => True

instance (S : Sys) (c : PmmCall) : Decidable (c.Legal S) := by
  cases c <;> unfold PmmCall.Legal <;> infer_instance

instance (S : Sys) (c : PmmCall) : Decidable (c.OneZone S) := by
  cases c <;> unfold PmmCall.OneZone <;> infer_instance

/-- The state before `buddy_init`: all pages are reserved and there is no zone. -/
structure Booted (s : Pmm) : Prop where
  reserved : ∀ q, (s.page q).reserved = true
  zones : s.zoneNum = 0
  lists : ∀ k, maxOrder < k → s.freeList k = [] ∧ s.nrFree k = 0

theorem Booted.buddyOk (h : Booted s) (hinit : buddyInit s = .done () t) : BuddyOk ∅ t := by
  cases hinit
  have hlist : ∀ k, (if k ≤ maxOrder then [] else s.freeList k) = [] := by
    intro k
    split
    · rfl
    · exact (h.lists k (by omega)).1
  have hempty : ∀ k p, p ∉ (if k ≤ maxOrder then [] else s.freeList k) := by
    intro k p
    rw [hlist k]
    exact List.not_mem_nil
  have hres : ∀ q, (s.page q).reserved ≠ false := fun q => by rw [h.reserved q]; simp
  refine ⟨fun q hq => absurd hq (hres q), fun k p hp => absurd hp (hempty k p),
    fun k p hp => absurd hp (hempty k p), fun q hq => absurd hq (hres q), fun k => ?_,
    fun k p hp => absurd hp (hempty k p), fun k => ?_, fun k _ p hp => absurd hp (hempty k p),
    fun q => ⟨fun hq => absurd hq (Finset.notMem_empty q), fun hq => absurd hq.1 (hres q)⟩⟩
  · show (if k ≤ maxOrder then [] else s.freeList k).Nodup
    rw [hlist k]
    exact List.nodup_nil
  · show (if k ≤ maxOrder then 0 else s.nrFree k) =
      (if k ≤ maxOrder then [] else s.freeList k).length
    rw [hlist k]
    split
    · rfl
    · exact (h.lists k (by omega)).2

/-- The pages of a legal `free_pages`. -/
theorem BuddyOk.span {base n : ℕ} (h : BuddyOk U s) (hpos : 1 ≤ n)
    (hU : Finset.Ico base (base + n) ⊆ U)
    (hzone : ∀ q ∈ Finset.Ico base (base + n), (s.page q).zoneNum = (s.page base).zoneNum) :
    Span U s (s.page base).zoneNum base n :=
  ⟨h, hU, hzone, (h.zone base ((h.used base).mp (hU (Finset.mem_Ico.mpr (by omega)))).1).2.2⟩

theorem PmmStep.ok {S S' : Sys} (h : BuddyOk S.live S.pmm) (hstep : PmmStep S c S')
    (hlegal : c.Legal S) (hzone : c.OneZone S) : BuddyOk S'.live S'.pmm := by
  cases hstep with
  | initMemmap hrun =>
    obtain ⟨hpos, hzones, hle, hres⟩ := hlegal
    exact (wp_buddyInitMemmap (Q := fun _ => BuddyOk _) h hpos hzones hle
      (fun q hlo hhi => hres q (Finset.mem_Ico.mpr ⟨hlo, hhi⟩)) fun _ hok => hok).of_call hrun
  | allocNone hrun =>
    exact (wp_buddyAllocPages (Q := fun r t => r = none → BuddyOk _ t) h hlegal.1 hlegal.2
      (fun _ => h) nofun).of_call hrun rfl
  | allocSome hrun =>
    exact (wp_buddyAllocPages
      (Q := fun r t => ∀ page, r = some page → BuddyOk (_ ∪ Finset.Ico page (page + _)) t) h
      hlegal.1 hlegal.2 (nofun) fun _ _ hok _ _ hr => by
        cases hr
        exact hok).of_call hrun _ rfl
  | freePages hrun =>
    obtain ⟨hpos, hle, hU⟩ := hlegal
    exact (wp_buddyFreePages (Q := fun _ => BuddyOk _) (h.span hpos hU hzone) hpos hle
      fun _ hok _ => hok).of_call hrun

theorem PmmStep.exists {S : Sys} (h : BuddyOk S.live S.pmm) (hlegal : c.Legal S)
    (hzone : c.OneZone S) : ∃ S', PmmStep S c S' := by
  cases c with
  | initMemmap base n =>
    obtain ⟨hpos, hzones, hle, hres⟩ := hlegal
    obtain ⟨_, t, ht, -⟩ := (wp_buddyInitMemmap (Q := fun _ _ => True) h hpos hzones hle
      (fun q hlo hhi => hres q (Finset.mem_Ico.mpr ⟨hlo, hhi⟩)) fun _ _ => trivial).returns_done
    exact ⟨_, .initMemmap ht⟩
  | allocPages n =>
    obtain ⟨r, t, ht, -⟩ := (wp_buddyAllocPages (Q := fun _ _ => True) h hlegal.1 hlegal.2 trivial
      fun _ _ _ _ => trivial).returns_done
    cases r with
    | none => exact ⟨_, .allocNone ht⟩
    | some page => exact ⟨_, .allocSome ht⟩
  | freePages base n =>
    obtain ⟨hpos, hle, hU⟩ := hlegal
    obtain ⟨_, t, ht, -⟩ := (wp_buddyFreePages (Q := fun _ _ => True) (h.span hpos hU hzone) hpos
      hle fun _ _ _ => trivial).returns_done
    exact ⟨_, .freePages ht⟩

/-- In every run of legal calls that free pages of one zone at a time, the free lists hold
aligned, disjoint and maximally merged blocks of the pages that are not allocated, and the
next such call returns. -/
theorem buddy_run_invariant {S : Sys} {cs : List PmmCall} (hboot : Booted s)
    (hinit : buddyInit s = .done () t)
    (hrun : Run (fun S c S' => PmmStep S c S' ∧ c.Legal S ∧ c.OneZone S) ⟨t, ∅⟩ cs S) :
    BuddyOk S.live S.pmm ∧ ∀ c : PmmCall, c.Legal S → c.OneZone S → ∃ S', PmmStep S c S' := by
  have hok : BuddyOk S.live S.pmm := hrun.invariant
    (fun _ _ _ h hs => hs.1.ok h hs.2.1 hs.2.2) (hboot.buddyOk hinit)
  exact ⟨hok, fun _ => PmmStep.exists hok⟩

/-! ## Two adjacent zones -/

/-- Ten reserved pages. -/
def tenPages : Pmm where
  npage := 10
  page _ := { reserved := true, hasProperty := false, property := 0, zoneNum := 0 }
  memBase _ := 0
  zoneNum := 0
  freeList _ := []
  nrFree _ := 0

theorem booted_tenPages : Booted tenPages := ⟨fun _ => rfl, rfl, fun _ _ => ⟨rfl, rfl⟩⟩

/-- A zone of ten pages, of which three are allocated and two freed again. -/
theorem buddy_run_invariant_ten : ∃ t S, buddyInit tenPages = .done () t ∧
    Run PmmStep ⟨t, ∅⟩ [.initMemmap 0 10, .allocPages 3, .freePages 1 2] S ∧
    BuddyOk S.live S.pmm := by
  have hrun : ∃ t S, buddyInit tenPages = .done () t ∧
      Run (fun S c S' => PmmStep S c S' ∧ c.Legal S ∧ c.OneZone S) ⟨t, ∅⟩
        [.initMemmap 0 10, .allocPages 3, .freePages 1 2] S :=
    ⟨_, _, rfl, .cons ⟨.initMemmap rfl, by decide, by decide⟩
      (.cons ⟨.allocSome rfl, by decide, by decide⟩
      (.cons ⟨.freePages rfl, by decide, by decide⟩ (.nil _)))⟩
  obtain ⟨t, S, hinit, hrun⟩ := hrun
  exact ⟨t, S, hinit, hrun.mono fun _ _ _ h => h.1,
    (buddy_run_invariant booted_tenPages hinit hrun).1⟩

/-- The last page of a zone and the first page of the next one, freed in one call. -/
def freeAcross : List PmmCall :=
  [.initMemmap 0 5, .initMemmap 5 5, .allocPages 1, .allocPages 1, .allocPages 4, .freePages 4 2]

/-- All pages were allocated, and they become one free block that lies in two zones. -/
theorem free_across_zones : ∃ t S, Booted tenPages ∧ buddyInit tenPages = .done () t ∧
    Run (fun S c S' => PmmStep S c S' ∧ c.Legal S) ⟨t, ∅⟩ freeAcross S ∧
    4 ∈ S.pmm.freeList 1 ∧ (S.pmm.page 4).zoneNum ≠ (S.pmm.page 5).zoneNum := by
  exact ⟨_, _, booted_tenPages, rfl,
    .cons ⟨.initMemmap rfl, by decide⟩ (.cons ⟨.initMemmap rfl, by decide⟩
    (.cons ⟨.allocSome rfl, by decide⟩ (.cons ⟨.allocSome rfl, by decide⟩
    (.cons ⟨.allocSome rfl, by decide⟩ (.cons ⟨.freePages rfl, by decide⟩ (.nil _)))))),
    by decide, by decide⟩

end Ucore.Buddy
