import Ucore.Buddy.Free

/-!
# Allocating pages and adding zones

`buddy_alloc_pages` takes the smallest block that is large enough, gives its upper halves
back while it is too large, and frees the tail behind the last page asked for.
`buddy_init_memmap` adds a zone and cuts it into blocks of decreasing order.
-/

namespace Ucore.Buddy

open Kern Function Finset Pmm

variable {H : Prop} {E : Empty → Pmm → Prop} {U : Finset ℕ} {s s' s₁ : Pmm}
  {k p q page order base zone n count : ℕ} {Q : Option ℕ → Pmm → Prop}

theorem Pmm.clearProperty_putBlock (s : Pmm) (k : ℕ) (hne : p ≠ page) :
    (s.putBlock k p).clearProperty page = (s.clearProperty page).putBlock k p := by
  unfold putBlock clearProperty listAdd setPage
  simp only [update_of_ne hne, update_of_ne hne.symm]
  rw [update_comm hne]

/-- The flag of the block that is split may as well be cleared first. -/
theorem Pmm.clearProperty_split (count : ℕ) (s : Pmm) :
    (split page order count s).clearProperty page =
      split page order count (s.clearProperty page) := by
  induction count generalizing s with
  | zero => rfl
  | succ count ih =>
    have hpos := Nat.two_pow_pos (order + count)
    rw [split, split, ih, clearProperty_putBlock _ _ (by omega)]

/-- The first pages of an aligned block of a smaller order. -/
theorem Pmm.IsBlock.mono (h : s.IsBlock k p) {j : ℕ} (hj : j ≤ k) : s.IsBlock j p where
  order := hj.trans h.order
  zone q hq := by
    have := Nat.pow_le_pow_right (Nat.zero_lt_two) hj
    refine h.zone q ?_
    rw [mem_blockPages] at hq ⊢
    omega
  aligned := (Nat.pow_dvd_pow 2 hj).trans h.aligned

/-- The upper half of a block. -/
theorem Pmm.IsBlock.upper (hok : BuddyOk U s) (h : s.IsBlock (k + 1) p) :
    s.IsBlock k (p + 2 ^ k) ∧ (s.page (p + 2 ^ k)).zoneNum = (s.page p).zoneNum ∧
      s.page2idx (p + 2 ^ k) = s.page2idx p + 2 ^ k := by
  have hsub : ∀ q ∈ blockPages (p + 2 ^ k) k, q ∈ blockPages p (k + 1) := by
    intro q hq
    rw [blockPages_succ]
    exact mem_union_right _ hq
  have hz := (h.zone _ (hsub _ self_mem_blockPages)).2
  have hstart := (hok.zone p (h.zone p self_mem_blockPages).1).2.2
  have hidx : s.page2idx (p + 2 ^ k) = s.page2idx p + 2 ^ k := by
    rw [page2idx, page2idx, hz]
    exact Nat.sub_add_comm hstart
  refine ⟨⟨(Nat.le_succ k).trans h.order, fun q hq => ?_, ?_⟩, hz, hidx⟩
  · rw [hz]
    exact h.zone q (hsub q hq)
  · rw [hidx]
    exact Nat.dvd_add ((Nat.pow_dvd_pow 2 (Nat.le_succ k)).trans h.aligned) (dvd_refl _)

/-- Splitting a block in hand leaves its first `2 ^ order` pages in hand. -/
theorem BuddyOk.split (h : BuddyOk U s) (hblock : s.IsBlock (order + count) page)
    (hU : blockPages page (order + count) ⊆ U) :
    BuddyOk (U \ Ico (page + 2 ^ order) (page + 2 ^ (order + count)))
      (split page order count s) ∧ SameZones s (split page order count s) := by
  induction count generalizing s U with
  | zero =>
    rw [Nat.add_zero, Finset.Ico_self, sdiff_empty]
    exact ⟨h, .refl s⟩
  | succ count ih =>
    obtain ⟨hupper, hz, hidx⟩ := IsBlock.upper (k := order + count) h hblock
    rw [← Nat.add_assoc, blockPages_succ] at hU
    have haligned : 2 ^ (order + count + 1) ∣ s.page2idx page := hblock.aligned
    -- the buddy of the upper half is the lower one, which is in hand
    have hput := h.put hupper (union_subset_right hU) fun _ p' hp' hzone heq => by
      rw [hidx, buddyOf_upper haligned] at heq
      have hr' := ((h.block _ p' hp').zone p' self_mem_blockPages).1
      have hr := (hblock.zone page self_mem_blockPages).1
      have hsame : p' = page := by
        rw [← h.add_page2idx hr', ← h.add_page2idx hr, heq, hzone, hz]
      subst hsame
      exact h.mem_used hp' self_mem_blockPages (hU (mem_union_left _ self_mem_blockPages))
    have hzput := sameZones_putBlock s (order + count) (page + 2 ^ (order + count))
    have hblock' : s.IsBlock (order + count) page := hblock.mono (Nat.le_succ _)
    have hlower : blockPages page (order + count) ⊆
        U \ blockPages (page + 2 ^ (order + count)) (order + count) := by
      intro q hq
      refine mem_sdiff.mpr ⟨hU (mem_union_left _ hq), ?_⟩
      rw [mem_blockPages] at hq ⊢
      omega
    obtain ⟨hok, hzones⟩ := ih hput (hzput.isBlock hblock') hlower
    refine ⟨?_, hzput.trans hzones⟩
    have hle : 2 ^ order ≤ 2 ^ (order + count) :=
      Nat.pow_le_pow_right Nat.zero_lt_two (Nat.le_add_right _ _)
    rwa [sdiff_sdiff_comm, blockPages, sdiff_Ico_sdiff (by omega) (by omega), Nat.add_assoc,
      ← Nat.two_mul, ← pow_succ'] at hok

/-- What an allocation of a block did: the block was free and is now in use. -/
structure Allocated (U : Finset ℕ) (s : Pmm) (order page : ℕ) (s' : Pmm) : Prop where
  ok : BuddyOk (U ∪ blockPages page order) s'
  block : s'.IsBlock order page
  fresh : Disjoint U (blockPages page order)
  zones : SameZones s s'

/-- The search for a block. -/
theorem wp_allocFrom {fuel : ℕ} (h : BuddyOk U s) (hnone : Q none s)
    (hsome : ∀ page s', Allocated U s order page s' → Q (some page) s') :
    (allocFrom order fuel count).wp H E Q s := by
  induction fuel generalizing count with
  | zero => exact hnone
  | succ fuel ih =>
    rw [allocFrom, wp_get]
    cases hlist : s.freeList (order + count) with
    | nil => exact ih
    | cons page rest =>
      have hmem : page ∈ s.freeList (order + count) := by rw [hlist]; exact .head _
      rw [wp_put, wp_pure, clearProperty_split]
      have hz := sameZones_takeBlock s (order + count) page
      have hblock := h.block _ page hmem
      obtain ⟨hok, hzones⟩ := (h.take hmem).split (hz.isBlock hblock) subset_union_right
      have hle : 2 ^ order ≤ 2 ^ (order + count) :=
        Nat.pow_le_pow_right Nat.zero_lt_two (Nat.le_add_right _ _)
      refine hsome page _ ⟨?_, (hz.trans hzones).isBlock (hblock.mono (Nat.le_add_right _ _)),
        disjoint_left.mpr fun q hq hin => ?_, hz.trans hzones⟩
      · rwa [blockPages, union_Ico_sdiff (by omega) (disjoint_left.mpr fun q hq hin =>
          h.mem_used hmem (Finset.Ico_subset_Ico_left (Nat.le_add_right _ _) hin) hq)] at hok
      · refine h.mem_used hmem ?_ hq
        rw [mem_blockPages] at hin ⊢
        omega

/-- `getorder`: no smaller order has a block of `n` pages. -/
theorem wp_getorder {Q : ℕ → Pmm → Prop} (hn : n ≤ 2 ^ maxOrder)
    (hQ : ∀ order ≤ maxOrder, n ≤ 2 ^ order → (∀ j < order, 2 ^ j < n) → Q order s) :
    (getorder n).wp H E Q s := by
  have hfrom : ∀ fuel k, k + fuel = maxOrder + 1 → 0 < fuel → (∀ j < k, 2 ^ j < n) →
      (getorderFrom n fuel k).wp H E Q s := by
    intro fuel
    induction fuel with
    | zero => intro k _ h0; omega
    | succ fuel ih =>
      intro k hk _ hlow
      rw [getorderFrom]
      refine wp_if (fun hle => hQ k (by omega) hle hlow) fun hlt => ih (k + 1) (by omega) ?_ ?_
      · by_contra hzero
        have hmax : k = maxOrder := by omega
        rw [hmax] at hlt
        exact hlt hn
      · intro j hj
        rcases Nat.lt_succ_iff_lt_or_eq.mp hj with hj | rfl
        · exact hlow j hj
        · exact not_le.mp hlt
  exact hfrom _ 0 (Nat.zero_add _) (Nat.succ_pos _) fun j hj => absurd hj (Nat.not_lt_zero j)

section

variable (h : Allocated U s order page s₁) (hle : n ≤ 2 ^ order)
include h hle

/-- The pages of a block that a request does not need. -/
theorem Allocated.tail :
    Span (U ∪ blockPages page order) s₁ (s₁.page page).zoneNum (page + n) (2 ^ order - n) := by
  have hr := (h.block.zone page self_mem_blockPages).1
  have hin : ∀ q ∈ Ico (page + n) (page + n + (2 ^ order - n)), q ∈ blockPages page order := by
    intro q hq
    rw [mem_Ico] at hq
    rw [mem_blockPages]
    omega
  exact ⟨h.ok, fun q hq => mem_union_right _ (hin q hq), fun q hq => (h.block.zone q (hin q hq)).2,
    (h.ok.zone page hr).2.2.trans (Nat.le_add_right _ _)⟩

/-- The pages in use once these have been given back. -/
theorem Allocated.cut : (U ∪ blockPages page order) \ Ico (page + n) (page + n + (2 ^ order - n)) =
      U ∪ Ico page (page + n) := by
  rw [show page + n + (2 ^ order - n) = page + 2 ^ order by omega, blockPages]
  exact union_Ico_sdiff (by omega) (disjoint_of_subset_right
    (Finset.Ico_subset_Ico_left (Nat.le_add_right _ _)) h.fresh)

theorem Allocated.disjoint : Disjoint U (Ico page (page + n)) :=
  disjoint_of_subset_right (Finset.Ico_subset_Ico_right (by omega)) h.fresh

end

/-- `buddy_alloc_pages`. -/
theorem wp_buddyAllocPages (h : BuddyOk U s) (hpos : 0 < n) (hn : n ≤ 2 ^ maxOrder)
    (hnone : Q none s)
    (hsome : ∀ page s', BuddyOk (U ∪ Ico page (page + n)) s' →
      Disjoint U (Ico page (page + n)) → Q (some page) s') :
    (buddyAllocPages n).wp H E Q s := by
  refine wp_check hpos ?_
  refine wp_seq (wp_getorder hn fun order horder hle _ => ?_)
  rw [wp_bind, buddyAllocPagesSub]
  refine wp_check horder (wp_allocFrom h hnone fun page s₁ halloc => ?_)
  have hfresh := halloc.disjoint hle
  refine wp_if (fun hne => ?_) fun heq => ?_
  · have hmax : 2 ^ order ≤ 2 ^ maxOrder := Nat.pow_le_pow_right Nat.zero_lt_two horder
    refine wp_seq (wp_buddyFreePages (halloc.tail hle) (by omega) (by omega) fun s' hok _ => ?_)
    rw [halloc.cut hle] at hok
    exact hsome page s' hok hfresh
  · have hn' : n = 2 ^ order := by simpa using heq
    refine hsome page s₁ ?_ hfresh
    rw [hn']
    exact halloc.ok

end Ucore.Buddy
