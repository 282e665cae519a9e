import Ucore.Buddy.Pmm
import Mathlib.Order.Interval.Finset.Nat

/-!
# The invariant of the buddy allocator

`BuddyOk U s` says that the free lists of `s` hold aligned, disjoint and maximally
merged blocks, and that `U` is the set of the pages of the zones that lie in no free
block. The allocator moves blocks between the lists and `U`: `BuddyOk.take` and
`BuddyOk.put` are the two moves.
-/

namespace Ucore.Buddy

open Function Finset Pmm

variable {U : Finset ℕ} {s s' : Pmm} {k p q a b c : ℕ}

/-- The pages of the block of order `k` at `p`. -/
def blockPages (p k : ℕ) : Finset ℕ := Ico p (p + 2 ^ k)

theorem mem_blockPages : q ∈ blockPages p k ↔ p ≤ q ∧ q < p + 2 ^ k := mem_Ico

theorem sdiff_Ico_sdiff (hab : a ≤ b) (hbc : b ≤ c) : (U \ Ico a b) \ Ico b c = U \ Ico a c := by
  rw [sdiff_sdiff_left, ← Finset.Ico_union_Ico_eq_Ico hab hbc]
  rfl

theorem union_Ico_sdiff (hbc : b ≤ c) (hU : Disjoint U (Ico b c)) :
    (U ∪ Ico a c) \ Ico b c = U ∪ Ico a b := by
  rw [union_sdiff_distrib, sdiff_eq_self_of_disjoint hU, Finset.Ico_sdiff_Ico_right,
    min_eq_right hbc]

theorem self_mem_blockPages : p ∈ blockPages p k :=
  mem_blockPages.mpr ⟨le_rfl, Nat.lt_add_of_pos_right (Nat.two_pow_pos k)⟩

/-- A block consists of the two halves of the order below. -/
theorem blockPages_succ (p k : ℕ) :
    blockPages p (k + 1) = blockPages p k ∪ blockPages (p + 2 ^ k) k := by
  ext q
  simp only [mem_union, mem_blockPages, pow_succ]
  omega

/-- An aligned block of pages of one zone. -/
structure Pmm.IsBlock (s : Pmm) (k p : ℕ) : Prop where
  order : k ≤ maxOrder
  zone : ∀ q ∈ blockPages p k, (s.page q).reserved = false ∧ (s.page q).zoneNum = (s.page p).zoneNum
  aligned : 2 ^ k ∣ s.page2idx p

/-- The state of the allocator, where `U` is the set of the pages in no free block. -/
structure BuddyOk (U : Finset ℕ) (s : Pmm) : Prop where
  zone : ∀ q, (s.page q).reserved = false →
    q < s.npage ∧ (s.page q).zoneNum < s.zoneNum ∧ s.memBase (s.page q).zoneNum ≤ q
  block : ∀ k, ∀ p ∈ s.freeList k, s.IsBlock k p
  flag : ∀ k, ∀ p ∈ s.freeList k, (s.page p).hasProperty = true ∧ (s.page p).property = k
  /-- Only the first page of a free block has the flag. -/
  head : ∀ q, (s.page q).reserved = false → (s.page q).hasProperty = true →
    q ∈ s.freeList (s.page q).property
  nodup : ∀ k, (s.freeList k).Nodup
  apart : ∀ k, ∀ p ∈ s.freeList k, ∀ k', ∀ p' ∈ s.freeList k',
    ∀ q ∈ blockPages p k, q ∈ blockPages p' k' → p = p'
  count : ∀ k, s.nrFree k = (s.freeList k).length
  /-- No two buddies are free. -/
  merged : ∀ k < maxOrder, ∀ p ∈ s.freeList k, ∀ p' ∈ s.freeList k,
    (s.page p').zoneNum = (s.page p).zoneNum → s.page2idx p' ≠ buddyOf (s.page2idx p) k
  used : ∀ q, q ∈ U ↔ (s.page q).reserved = false ∧ ∀ k, ∀ p ∈ s.freeList k, q ∉ blockPages p k

/-- The zones of `s` and `s'` are the same. -/
structure SameZones (s s' : Pmm) : Prop where
  npage : s'.npage = s.npage
  memBase : s'.memBase = s.memBase
  zones : s'.zoneNum = s.zoneNum
  reserved : ∀ q, (s'.page q).reserved = (s.page q).reserved
  zoneNum : ∀ q, (s'.page q).zoneNum = (s.page q).zoneNum

theorem SameZones.refl (s : Pmm) : SameZones s s :=
  ⟨rfl, rfl, rfl, fun _ => rfl, fun _ => rfl⟩

theorem SameZones.trans {s'' : Pmm} (h : SameZones s s') (h' : SameZones s' s'') :
    SameZones s s'' :=
  ⟨h'.npage.trans h.npage, h'.memBase.trans h.memBase, h'.zones.trans h.zones,
    fun q => (h'.reserved q).trans (h.reserved q), fun q => (h'.zoneNum q).trans (h.zoneNum q)⟩

theorem SameZones.page2idx (h : SameZones s s') (q : ℕ) : s'.page2idx q = s.page2idx q := by
  rw [Pmm.page2idx, Pmm.page2idx, h.memBase, h.zoneNum]

theorem SameZones.isBlock (h : SameZones s s') (hb : s.IsBlock k p) : s'.IsBlock k p where
  order := hb.order
  zone q hq := by
    rw [h.reserved, h.zoneNum, h.zoneNum]
    exact hb.zone q hq
  aligned := by
    rw [h.page2idx]
    exact hb.aligned

theorem SameZones.setPage (s : Pmm) (q : ℕ) {f : Page → Page}
    (hr : (f (s.page q)).reserved = (s.page q).reserved)
    (hz : (f (s.page q)).zoneNum = (s.page q).zoneNum) : SameZones s (s.setPage q f) := by
  refine ⟨rfl, rfl, rfl, fun q' => ?_, fun q' => ?_⟩
  all_goals
    rcases eq_or_ne q' q with rfl | hq
    · simp only [Pmm.setPage, update_self]
      assumption
    · simp only [Pmm.setPage, update_of_ne hq]

theorem sameZones_putBlock (s : Pmm) (k p : ℕ) : SameZones s (s.putBlock k p) :=
  (SameZones.setPage s p (f := fun page => { page with property := k, hasProperty := true })
    rfl rfl).trans ⟨rfl, rfl, rfl, fun _ => rfl, fun _ => rfl⟩

theorem sameZones_takeBlock (s : Pmm) (k p : ℕ) : SameZones s (s.takeBlock k p) :=
  SameZones.trans (show SameZones s (s.listDel k p) from
      ⟨rfl, rfl, rfl, fun _ => rfl, fun _ => rfl⟩)
    (.setPage _ p (f := fun page => { page with hasProperty := false }) rfl rfl)

theorem Pmm.page_putBlock (s : Pmm) (k p q : ℕ) : (s.putBlock k p).page q =
    if q = p then { s.page p with property := k, hasProperty := true } else s.page q := by
  simp only [putBlock, listAdd, setPage, update_apply]

theorem Pmm.freeList_putBlock (s : Pmm) (k p j : ℕ) : (s.putBlock k p).freeList j =
    if j = k then p :: s.freeList k else s.freeList j := by
  simp only [putBlock, listAdd, setPage, update_apply]

theorem Pmm.mem_freeList_putBlock {j : ℕ} : q ∈ (s.putBlock k p).freeList j ↔
    (j = k ∧ q = p) ∨ q ∈ s.freeList j := by
  rw [freeList_putBlock]
  split
  · rename_i hj
    subst hj
    simp
  · rename_i hj
    simp [hj]

theorem Pmm.page_takeBlock (s : Pmm) (k p q : ℕ) : (s.takeBlock k p).page q =
    if q = p then { s.page p with hasProperty := false } else s.page q := by
  simp only [takeBlock, clearProperty, listDel, setPage, update_apply]

theorem Pmm.freeList_takeBlock (s : Pmm) (k p j : ℕ) : (s.takeBlock k p).freeList j =
    if j = k then (s.freeList k).erase p else s.freeList j := by
  simp only [takeBlock, clearProperty, listDel, setPage, update_apply]

/-! ## Consequences -/

variable (h : BuddyOk U s)
include h

theorem BuddyOk.mem_used (hp : p ∈ s.freeList k) (hq : q ∈ blockPages p k) : q ∉ U :=
  fun hU => ((h.used q).mp hU).2 k p hp hq

/-- A page that is in use has no flag. -/
theorem BuddyOk.hasProperty_of_used (hq : q ∈ U) : (s.page q).hasProperty = false := by
  obtain ⟨hr, hfree⟩ := (h.used q).mp hq
  by_contra hne
  exact hfree _ q (h.head q hr (by simpa using hne)) self_mem_blockPages

theorem BuddyOk.add_page2idx (hq : (s.page q).reserved = false) :
    s.memBase (s.page q).zoneNum + s.page2idx q = q :=
  Nat.add_sub_cancel' (h.zone q hq).2.2

/-- The first pages of two free blocks determine each other's order. -/
theorem BuddyOk.order_eq {k' : ℕ} (hp : p ∈ s.freeList k) (hp' : p ∈ s.freeList k') : k = k' :=
  (h.flag k p hp).2.symm.trans (h.flag k' p hp').2

theorem BuddyOk.mem_freeList_takeBlock (hp : p ∈ s.freeList k) {j : ℕ} :
    q ∈ (s.takeBlock k p).freeList j ↔ q ∈ s.freeList j ∧ q ≠ p := by
  rw [freeList_takeBlock]
  split
  · rename_i hj
    subst hj
    rw [(h.nodup j).mem_erase_iff]
    exact and_comm
  · rename_i hj
    refine ⟨fun hq => ⟨hq, ?_⟩, fun hq => hq.1⟩
    rintro rfl
    exact hj (h.order_eq hq hp)

/-! ## The two moves -/

/-- Taking a block from its list. -/
theorem BuddyOk.take (hp : p ∈ s.freeList k) : BuddyOk (U ∪ blockPages p k) (s.takeBlock k p) := by
  have hz := sameZones_takeBlock s k p
  have hmem : ∀ {j q}, q ∈ (s.takeBlock k p).freeList j ↔ q ∈ s.freeList j ∧ q ≠ p :=
    h.mem_freeList_takeBlock hp
  refine ⟨fun q hq => ?_, fun j q hq => hz.isBlock (h.block j q (hmem.mp hq).1),
    fun j q hq => ?_, fun q hr hprop => ?_, fun j => ?_, fun j q hq j' q' hq' => ?_, fun j => ?_,
    fun j hj q hq q' hq' hzone => ?_, fun q => ?_⟩
  · rw [hz.zoneNum]
    exact h.zone q (by rwa [hz.reserved] at hq)
  · obtain ⟨hq, hne⟩ := hmem.mp hq
    rw [page_takeBlock, if_neg hne]
    exact h.flag j q hq
  · rw [hz.reserved] at hr
    rw [page_takeBlock] at hprop
    split at hprop
    · cases hprop
    · rename_i hne
      rw [page_takeBlock, if_neg hne]
      exact hmem.mpr ⟨h.head q hr hprop, hne⟩
  · rw [freeList_takeBlock]
    split
    · exact (h.nodup k).erase p
    · exact h.nodup j
  · exact h.apart j q (hmem.mp hq).1 j' q' (hmem.mp hq').1
  · rw [freeList_takeBlock]
    show update s.nrFree k (s.nrFree k - 1) j = _
    rw [update_apply]
    split
    · rw [List.length_erase_of_mem hp, h.count]
    · exact h.count j
  · rw [hz.zoneNum, hz.zoneNum] at hzone
    rw [hz.page2idx, hz.page2idx]
    exact h.merged j hj q (hmem.mp hq).1 q' (hmem.mp hq').1 hzone
  · rw [mem_union, h.used, hz.reserved]
    constructor
    · rintro (⟨hr, hfree⟩ | hq)
      · exact ⟨hr, fun j q' hq' => hfree j q' (hmem.mp hq').1⟩
      · refine ⟨((h.block k p hp).zone q hq).1, fun j q' hq' hin => ?_⟩
        obtain ⟨hq', hne⟩ := hmem.mp hq'
        exact hne (h.apart j q' hq' k p hp q hin hq)
    · rintro ⟨hr, hfree⟩
      by_cases hq : q ∈ blockPages p k
      · exact .inr hq
      · refine .inl ⟨hr, fun j q' hq' hin => ?_⟩
        rcases eq_or_ne q' p with rfl | hne
        · rw [h.order_eq hq' hp] at hin
          exact hq hin
        · exact hfree j q' (hmem.mpr ⟨hq', hne⟩) hin

/-- Listing a block whose buddy is not free. -/
theorem BuddyOk.put (hblock : s.IsBlock k p) (hU : blockPages p k ⊆ U)
    (hbuddy : k < maxOrder → ∀ p' ∈ s.freeList k, (s.page p').zoneNum = (s.page p).zoneNum →
      s.page2idx p' ≠ buddyOf (s.page2idx p) k) :
    BuddyOk (U \ blockPages p k) (s.putBlock k p) := by
  have hz := sameZones_putBlock s k p
  have hnew : ∀ {j}, p ∉ s.freeList j := fun hp =>
    h.mem_used hp self_mem_blockPages (hU self_mem_blockPages)
  have hother : ∀ {j q}, q ∈ s.freeList j → q ≠ p := by
    rintro j q hq rfl
    exact hnew hq
  -- a listed block does not meet the pages in use
  have hout : ∀ {j q' q}, q' ∈ s.freeList j → q ∈ blockPages q' j → q ∉ blockPages p k :=
    fun hq' hq hp => h.mem_used hq' hq (hU hp)
  have hself : s.page2idx p ≠ buddyOf (s.page2idx p) k := by
    intro heq
    have hzero := Nat.xor_eq_zero_iff.mpr heq
    rw [buddyOf, ← Nat.xor_assoc, Nat.xor_self, Nat.zero_xor] at hzero
    exact absurd hzero (Nat.two_pow_pos k).ne'
  refine ⟨fun q hq => ?_, fun j q hq => ?_, fun j q hq => ?_, fun q hr hprop => ?_, fun j => ?_,
    fun j q hq j' q' hq' x hx hx' => ?_, fun j => ?_, fun j hj q hq q' hq' hzone => ?_,
    fun q => ?_⟩
  · rw [hz.zoneNum]
    exact h.zone q (by rwa [hz.reserved] at hq)
  · rcases mem_freeList_putBlock.mp hq with ⟨rfl, rfl⟩ | hq
    · exact hz.isBlock hblock
    · exact hz.isBlock (h.block j q hq)
  · rw [page_putBlock]
    rcases mem_freeList_putBlock.mp hq with ⟨rfl, rfl⟩ | hq
    · rw [if_pos rfl]
      exact ⟨rfl, rfl⟩
    · rw [if_neg (hother hq)]
      exact h.flag j q hq
  · rw [hz.reserved] at hr
    rw [mem_freeList_putBlock]
    rw [page_putBlock] at hprop ⊢
    split
    · rename_i heq
      exact .inl ⟨rfl, heq⟩
    · rename_i hne
      rw [if_neg hne] at hprop
      exact .inr (h.head q hr hprop)
  · rw [freeList_putBlock]
    split
    · exact List.nodup_cons.mpr ⟨hnew, h.nodup k⟩
    · exact h.nodup j
  · rcases mem_freeList_putBlock.mp hq with ⟨rfl, rfl⟩ | hold
    · rcases mem_freeList_putBlock.mp hq' with ⟨-, rfl⟩ | hq'
      · rfl
      · exact absurd hx (hout hq' hx')
    · rcases mem_freeList_putBlock.mp hq' with ⟨rfl, rfl⟩ | hq'
      · exact absurd hx' (hout hold hx)
      · exact h.apart j q hold j' q' hq' x hx hx'
  · rw [freeList_putBlock]
    show update s.nrFree k (s.nrFree k + 1) j = _
    rw [update_apply]
    split
    · rw [List.length_cons, h.count]
    · exact h.count j
  · rw [hz.zoneNum, hz.zoneNum] at hzone
    rw [hz.page2idx, hz.page2idx]
    rcases mem_freeList_putBlock.mp hq with ⟨rfl, rfl⟩ | hold
    · rcases mem_freeList_putBlock.mp hq' with ⟨-, rfl⟩ | hq'
      · exact hself
      · exact hbuddy hj q' hq' hzone
    · rcases mem_freeList_putBlock.mp hq' with ⟨rfl, rfl⟩ | hq'
      · intro heq
        refine hbuddy hj q hold hzone.symm ?_
        rw [heq, buddyOf, buddyOf, Nat.xor_xor_cancel_right]
      · exact h.merged j hj q hold q' hq' hzone
  · rw [mem_sdiff, h.used, hz.reserved]
    constructor
    · rintro ⟨⟨hr, hfree⟩, hq⟩
      refine ⟨hr, fun j q' hq' => ?_⟩
      rcases mem_freeList_putBlock.mp hq' with ⟨rfl, rfl⟩ | hq'
      · exact hq
      · exact hfree j q' hq'
    · rintro ⟨hr, hfree⟩
      exact ⟨⟨hr, fun j q' hq' => hfree j q' (mem_freeList_putBlock.mpr (.inr hq'))⟩,
        hfree k p (mem_freeList_putBlock.mpr (.inl ⟨rfl, rfl⟩))⟩

end Ucore.Buddy
