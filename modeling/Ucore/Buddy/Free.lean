import Ucore.Buddy.Invariant

/-!
# Freeing pages

`buddy_free_pages_sub` returns one aligned block, merged with its buddies;
`buddy_free_pages` cuts a range of pages into such blocks, first upwards and then
downwards.
-/

namespace Ucore.Buddy

open Kern Finset

variable {H : Prop} {E : Empty → Pmm → Prop} {U : Finset ℕ} {s s' : Pmm}
  {k p q base zone n idx fuel : ℕ} {Q : Unit → Pmm → Prop}

/-- The check of the pages changes nothing, as their flags are already clear. -/
theorem wp_freeCheck (hclear : ∀ q, p ≤ q → q < p + n →
      (s.page q).reserved = false ∧ (s.page q).hasProperty = false)
    (hQ : Q () s) : (freeCheck n p).wp H E Q s := by
  induction n generalizing p with
  | zero => exact hQ
  | succ n ih =>
    obtain ⟨hr, hp⟩ := hclear p le_rfl (by omega)
    refine wp_check ⟨hr, hp⟩ ?_
    rw [wp_put]
    have hsame : { s.page p with reserved := false, hasProperty := false } = s.page p := by
      cases hpage : s.page p
      simp only [hpage] at hr hp
      rw [hr, hp]
    rw [Pmm.setPage, hsame, Function.update_eq_self]
    exact ih fun q hlo hhi => hclear q (by omega) (by omega)

/-- A block in hand: `U` is in use except that the block of order `k` at `idx` waits to be
listed. -/
structure InHand (U : Finset ℕ) (s : Pmm) (zone idx k : ℕ) : Prop where
  ok : BuddyOk U s
  block : s.IsBlock k (s.idx2page zone idx)
  inZone : (s.page (s.idx2page zone idx)).zoneNum = zone
  held : blockPages (s.idx2page zone idx) k ⊆ U

section

variable (h : InHand U s zone idx k)
include h

theorem InHand.page2idx : s.page2idx (s.idx2page zone idx) = idx := by
  rw [Pmm.page2idx, h.inZone, Pmm.idx2page, Nat.add_sub_cancel_left]

theorem InHand.aligned : 2 ^ k ∣ idx := by
  have := h.block.aligned
  rwa [h.page2idx] at this

/-- The buddy of the block in hand is free exactly if `page_is_buddy` says so. -/
theorem InHand.pageIsBuddy_iff : s.pageIsBuddy (s.idx2page zone (buddyOf idx k)) k zone = true ↔
      ∃ p ∈ s.freeList k, (s.page p).zoneNum = zone ∧ s.page2idx p = buddyOf idx k := by
  unfold Pmm.pageIsBuddy
  simp only [Bool.and_eq_true, decide_eq_true_eq, Bool.not_eq_true']
  constructor
  · rintro ⟨⟨-, hz⟩, ⟨hr, hprop⟩, hk⟩
    have hmem := h.ok.head _ hr hprop
    rw [hk] at hmem
    exact ⟨_, hmem, hz, by rw [Pmm.page2idx, hz, Pmm.idx2page, Nat.add_sub_cancel_left]⟩
  · rintro ⟨p, hp, hz, hidx⟩
    have hr := ((h.ok.block k p hp).zone p self_mem_blockPages).1
    have hpage : s.idx2page zone (buddyOf idx k) = p := by
      rw [← hidx, ← hz]
      exact h.ok.add_page2idx hr
    rw [hpage]
    obtain ⟨hprop, hk⟩ := h.ok.flag k p hp
    exact ⟨⟨(h.ok.zone p hr).1, hz⟩, ⟨hr, hprop⟩, hk⟩

/-- Merging with a free buddy. -/
theorem InHand.merge (hk : k < maxOrder) (hp : p ∈ s.freeList k) (hzone : (s.page p).zoneNum = zone)
    (hidx : s.page2idx p = buddyOf idx k) :
    InHand (U ∪ blockPages p k) (s.takeBlock k p) zone (idx &&& buddyOf idx k) (k + 1) ∧
    blockPages (s.idx2page zone (idx &&& buddyOf idx k)) (k + 1) =
      blockPages (s.idx2page zone idx) k ∪ blockPages p k := by
  have hz := sameZones_takeBlock s k p
  have hfree := h.ok.block k p hp
  have hr := (hfree.zone p self_mem_blockPages).1
  have hpage : p = s.idx2page zone (buddyOf idx k) := by
    rw [← hidx, ← hzone]
    exact (h.ok.add_page2idx hr).symm
  -- the merged block consists of the two blocks
  have hunion : blockPages (s.idx2page zone (idx &&& buddyOf idx k)) (k + 1) =
      blockPages (s.idx2page zone idx) k ∪ blockPages p k ∧
      2 ^ (k + 1) ∣ idx &&& buddyOf idx k := by
    rw [hpage, blockPages_succ]
    rcases lower_or_upper h.aligned with hlow | ⟨j, hj, rfl⟩
    · rw [and_buddyOf_lower hlow, buddyOf_lower hlow]
      exact ⟨by simp only [Pmm.idx2page, Nat.add_assoc], hlow⟩
    · rw [and_buddyOf_upper hj, buddyOf_upper hj]
      exact ⟨by rw [union_comm]; simp only [Pmm.idx2page, Nat.add_assoc], hj⟩
  obtain ⟨hunion, hdvd⟩ := hunion
  have hsame : (s.takeBlock k p).idx2page zone = s.idx2page zone := by
    funext i
    rfl
  -- all its pages are of the zone
  have hall : ∀ q ∈ blockPages (s.idx2page zone (idx &&& buddyOf idx k)) (k + 1),
      (s.page q).reserved = false ∧ (s.page q).zoneNum = zone := by
    intro q hq
    rw [hunion, mem_union] at hq
    rcases hq with hq | hq
    · have := h.block.zone q hq
      rwa [h.inZone] at this
    · have := hfree.zone q hq
      rwa [hzone] at this
  have hfirst := (hall _ self_mem_blockPages).2
  refine ⟨⟨h.ok.take hp, ⟨hk, fun q hq => ?_, ?_⟩, ?_, ?_⟩, hunion⟩
  · rw [hsame] at hq ⊢
    rw [hz.reserved, hz.zoneNum, hz.zoneNum, hfirst]
    exact hall q hq
  · rw [hsame, hz.page2idx, Pmm.page2idx, hfirst, Pmm.idx2page, Nat.add_sub_cancel_left]
    exact hdvd
  · rw [hsame, hz.zoneNum, hfirst]
  · rw [hsame, hunion]
    exact union_subset_union_left h.held

/-- The merging loop. -/
theorem wp_mergeFrom {Q : ℕ × ℕ → Pmm → Prop} (hfuel : k + fuel = maxOrder)
    (hQ : ∀ U' s' idx' k', InHand U' s' zone idx' k' → SameZones s s' →
      U' \ blockPages (s'.idx2page zone idx') k' = U \ blockPages (s.idx2page zone idx) k →
      (k' < maxOrder → ∀ p ∈ s'.freeList k', (s'.page p).zoneNum = zone →
        s'.page2idx p ≠ buddyOf idx' k') → Q (idx', k') s') :
    (mergeFrom zone fuel idx k).wp H E Q s := by
  induction fuel generalizing s U idx k with
  | zero => exact hQ U s idx k h (.refl s) rfl fun hk => by omega
  | succ fuel ih =>
    rw [mergeFrom, wp_get]
    refine wp_if (fun hbuddy => ?_) fun hbuddy => ?_
    · obtain ⟨p, hp, hzone, hidx⟩ := h.pageIsBuddy_iff.mp hbuddy
      have hr := ((h.ok.block k p hp).zone p self_mem_blockPages).1
      have hpage : s.idx2page zone (buddyOf idx k) = p := by
        rw [← hidx, ← hzone]
        exact h.ok.add_page2idx hr
      rw [wp_put, hpage]
      obtain ⟨hmerged, hunion⟩ := h.merge (by omega) hp hzone hidx
      have hz := sameZones_takeBlock s k p
      refine ih hmerged (by omega) fun U' s' idx' k' hhand hz' hdiff hfree =>
        hQ U' s' idx' k' hhand (hz.trans hz') ?_ hfree
      have hsame : (s.takeBlock k p).idx2page zone (idx &&& buddyOf idx k) =
          s.idx2page zone (idx &&& buddyOf idx k) := by
        rfl
      rw [hdiff, hsame, hunion]
      ext q
      simp only [mem_sdiff, mem_union, not_or]
      constructor
      · rintro ⟨hq | hq, hout, hout'⟩
        · exact ⟨hq, hout⟩
        · exact absurd hq hout'
      · rintro ⟨hq, hout⟩
        exact ⟨.inl hq, hout, fun hin => h.ok.mem_used hp hin hq⟩
    · refine hQ U s idx k h (.refl s) rfl fun _ p hp hzone hidx => hbuddy ?_
      exact h.pageIsBuddy_iff.mpr ⟨p, hp, hzone, hidx⟩

end

/-- `buddy_free_pages_sub`. -/
theorem wp_buddyFreePagesSub (h : BuddyOk U s) (hblock : s.IsBlock k base)
    (hU : blockPages base k ⊆ U)
    (hQ : ∀ s', BuddyOk (U \ blockPages base k) s' → SameZones s s' → Q () s') :
    (buddyFreePagesSub base k).wp H E Q s := by
  have hr := (hblock.zone base self_mem_blockPages).1
  have hbase : s.idx2page (s.page base).zoneNum (s.page2idx base) = base := h.add_page2idx hr
  refine wp_check (and_mask_eq_zero.mpr hblock.aligned) ?_
  refine wp_seq (wp_freeCheck (fun q hlo hhi => ?_) ?_)
  · have hq : q ∈ blockPages base k := mem_blockPages.mpr ⟨hlo, hhi⟩
    exact ⟨(hblock.zone q hq).1, h.hasProperty_of_used (hU hq)⟩
  rw [wp_bind]
  have hhand : InHand U s (s.page base).zoneNum (s.page2idx base) k :=
    ⟨h, by rwa [hbase], by rw [hbase], by rwa [hbase]⟩
  refine wp_mergeFrom hhand (Nat.add_sub_cancel' hblock.order)
    fun U' s' idx' k' hhand' hz hdiff hfree => ?_
  refine hQ _ ?_ (hz.trans (sameZones_putBlock _ _ _))
  rw [hbase] at hdiff
  rw [← hdiff]
  refine hhand'.ok.put hhand'.block hhand'.held fun hk p hp hzone => ?_
  rw [hhand'.page2idx]
  exact hfree hk p hp (hzone.trans hhand'.inZone)

/-! ## Ranges of pages -/

/-- A range of pages in use, all of one zone. -/
structure Span (U : Finset ℕ) (s : Pmm) (zone base n : ℕ) : Prop where
  ok : BuddyOk U s
  held : Ico base (base + n) ⊆ U
  inZone : ∀ q ∈ Ico base (base + n), (s.page q).zoneNum = zone
  start : s.memBase zone ≤ base

theorem Span.page2idx (h : Span U s zone base n) (hn : 0 < n) :
    s.page2idx base = base - s.memBase zone := by
  rw [Pmm.page2idx, h.inZone base (mem_Ico.mpr (by omega))]

/-- An aligned block at the start of a range. -/
theorem Span.isBlock (h : Span U s zone base n) (hk : k ≤ maxOrder) (hn : 2 ^ k ≤ n)
    (hdvd : 2 ^ k ∣ base - s.memBase zone) : s.IsBlock k base ∧ blockPages base k ⊆ U := by
  have hsub : blockPages base k ⊆ Ico base (base + n) :=
    Finset.Ico_subset_Ico_right (by omega)
  refine ⟨⟨hk, fun q hq => ?_, by rwa [h.page2idx (by omega)]⟩, hsub.trans h.held⟩
  rw [h.inZone q (hsub hq), h.inZone base (hsub self_mem_blockPages)]
  exact ⟨((h.ok.used q).mp (h.held (hsub hq))).1, rfl⟩

/-- The rest of a range, after a block at its start was freed. -/
theorem Span.rest (h : Span U s zone base n) (hn : 2 ^ k ≤ n)
    (hok : BuddyOk (U \ blockPages base k) s') (hz : SameZones s s') :
    Span (U \ blockPages base k) s' zone (base + 2 ^ k) (n - 2 ^ k) := by
  have hpos := Nat.two_pow_pos k
  have hin : ∀ q ∈ Ico (base + 2 ^ k) (base + 2 ^ k + (n - 2 ^ k)),
      q ∈ Ico base (base + n) ∧ q ∉ blockPages base k := by
    intro q hq
    rw [mem_blockPages]
    rw [mem_Ico] at hq ⊢
    omega
  refine ⟨hok, fun q hq => mem_sdiff.mpr ⟨h.held (hin q hq).1, (hin q hq).2⟩, fun q hq => ?_, ?_⟩
  · rw [hz.zoneNum]
    exact h.inZone q (hin q hq).1
  · rw [hz.memBase]
    exact h.start.trans (Nat.le_add_right _ _)

theorem sdiff_blockPages_sdiff {b e : ℕ} (hk : p + 2 ^ k = b) (he : b ≤ e) :
    (U \ blockPages p k) \ Ico b e = U \ Ico p e := by
  rw [blockPages, hk]
  exact sdiff_Ico_sdiff (hk ▸ Nat.le_add_right p _) he

/-- The first loop of `buddy_free_pages`: it ends at a page that is aligned to more than
the remaining pages. -/
theorem wp_freeUp {Q : ℕ × ℕ × ℕ → Pmm → Prop} (h : Span U s zone base n) (hn : n ≤ 2 ^ maxOrder)
    (hfuel : k + fuel = maxOrder + 1) (hdvd : 2 ^ k ∣ base - s.memBase zone)
    (hQ : ∀ base' n' k' s', base ≤ base' → base' + n' = base + n → n' < 2 ^ k' →
      2 ^ k' ∣ base' - s'.memBase zone → Span (U \ Ico base base') s' zone base' n' →
      SameZones s s' → Q (base', n', k') s') : (freeUp fuel base n k).wp H E Q s := by
  have hstop : ¬2 ^ k ≤ n → Q (base, n, k) s := fun hlt =>
    hQ base n k s le_rfl rfl (by omega) hdvd (by simpa using h) (.refl s)
  induction fuel generalizing s U base n k with
  | zero =>
    have hlt : ¬2 ^ k ≤ n := by
      have : 2 ^ maxOrder < 2 ^ k := Nat.pow_lt_pow_right (by decide) (by omega)
      omega
    rw [freeUp, if_neg hlt]
    exact hstop hlt
  | succ fuel ih =>
    rw [freeUp]
    refine wp_if (fun hle => ?_) hstop
    rw [wp_get, wp_ite, h.page2idx (by omega)]
    refine ⟨fun hbit => ?_, fun hbit => ?_⟩
    · obtain ⟨hblock, hU⟩ := h.isBlock (by omega) hle hdvd
      refine wp_seq (wp_buddyFreePagesSub h.ok hblock hU fun s₁ hok hz => ?_)
      have hspan := h.rest hle hok hz
      have hdvd₁ : 2 ^ (k + 1) ∣ base + 2 ^ k - s₁.memBase zone := by
        have hstart := h.start
        have := dvd_succ_add_of_and hdvd hbit
        rwa [hz.memBase, show base + 2 ^ k - s.memBase zone = base - s.memBase zone + 2 ^ k by
          omega]
      have hmore : ∀ base' n' k' s', base + 2 ^ k ≤ base' →
          base' + n' = base + 2 ^ k + (n - 2 ^ k) → n' < 2 ^ k' →
          2 ^ k' ∣ base' - s'.memBase zone →
          Span ((U \ blockPages base k) \ Ico (base + 2 ^ k) base') s' zone base' n' →
          SameZones s₁ s' → Q (base', n', k') s' := by
        intro base' n' k' s' hb hsum hlt hd hs hz'
        rw [sdiff_blockPages_sdiff rfl hb] at hs
        exact hQ base' n' k' s' (by omega) (by omega) hlt hd hs (hz.trans hz')
      exact ih hspan (by omega) (by omega) hdvd₁ hmore fun hlt =>
        hmore _ _ _ s₁ le_rfl rfl (by omega) hdvd₁ (by simpa using hspan) (.refl s₁)
    · have hdvd₁ := dvd_succ_of_and hdvd (by simpa using hbit)
      exact ih h hn (by omega) hdvd₁ hQ fun hlt =>
        hQ base n (k + 1) s le_rfl rfl (by omega) hdvd₁ (by simpa using h) (.refl s)

theorem fitOrder_spec (hn : 0 < n) (hk : n < 2 ^ k) :
    fitOrder n k ≤ k ∧ 2 ^ fitOrder n k ≤ n ∧ n < 2 ^ (fitOrder n k + 1) := by
  induction k with
  | zero => omega
  | succ k ih =>
    rw [fitOrder, if_pos hk]
    by_cases hlt : n < 2 ^ k
    · obtain ⟨hle, hlo, hhi⟩ := ih hlt
      exact ⟨by omega, hlo, hhi⟩
    · have hself : fitOrder n k = k := by
        cases k with
        | zero => rfl
        | succ k => rw [fitOrder, if_neg hlt]
      rw [hself]
      exact ⟨by omega, by omega, hk⟩

/-- The second loop of `buddy_free_pages`. -/
theorem wp_freeDown (h : Span U s zone base n) (hn : n ≤ 2 ^ maxOrder) (hk : n < 2 ^ k)
    (hfuel : n ≤ fuel) (hdvd : 2 ^ k ∣ base - s.memBase zone)
    (hQ : ∀ s', BuddyOk (U \ Ico base (base + n)) s' → SameZones s s' → Q () s') :
    (freeDown fuel base n k).wp H E Q s := by
  have hdone : n = 0 → Q () s := by
    rintro rfl
    exact hQ s (by simpa using h.ok) (.refl s)
  induction fuel generalizing s U base n k with
  | zero => exact hdone (by omega)
  | succ fuel ih =>
    rw [freeDown]
    refine wp_if hdone fun hne => ?_
    obtain ⟨hle, hlo, hhi⟩ := fitOrder_spec (Nat.pos_of_ne_zero hne) hk
    generalize fitOrder n k = j at hle hlo hhi ⊢
    have hj : j ≤ maxOrder := (Nat.pow_le_pow_iff_right (by decide)).mp (hlo.trans hn)
    have hdvd₁ : 2 ^ j ∣ base - s.memBase zone := (Nat.pow_dvd_pow 2 hle).trans hdvd
    obtain ⟨hblock, hU⟩ := h.isBlock hj hlo hdvd₁
    refine wp_seq (wp_buddyFreePagesSub h.ok hblock hU fun s₁ hok hz => ?_)
    have hspan := h.rest hlo hok hz
    have hsum : base + 2 ^ j + (n - 2 ^ j) = base + n := by omega
    have hmore : ∀ s', BuddyOk ((U \ blockPages base j) \
        Ico (base + 2 ^ j) (base + 2 ^ j + (n - 2 ^ j))) s' → SameZones s₁ s' → Q () s' := by
      intro s' hs hz'
      rw [hsum, sdiff_blockPages_sdiff rfl (by omega)] at hs
      exact hQ s' hs (hz.trans hz')
    have hdvd₂ : 2 ^ j ∣ base + 2 ^ j - s₁.memBase zone := by
      have hstart := h.start
      rw [hz.memBase, show base + 2 ^ j - s.memBase zone = base - s.memBase zone + 2 ^ j by omega]
      exact Nat.dvd_add hdvd₁ (dvd_refl _)
    refine ih hspan (by omega) (by omega) (by omega) hdvd₂ hmore fun hzero => ?_
    rw [hzero] at hspan hmore
    exact hmore s₁ (by simpa using hspan.ok) (.refl s₁)

/-- `buddy_free_pages` of a range of pages of one zone. -/
theorem wp_buddyFreePages (h : Span U s zone base n) (hpos : 0 < n) (hn : n ≤ 2 ^ maxOrder)
    (hQ : ∀ s', BuddyOk (U \ Ico base (base + n)) s' → SameZones s s' → Q () s') :
    (buddyFreePages base n).wp H E Q s := by
  refine wp_check hpos ?_
  refine wp_if (fun hone => ?_) fun _ => ?_
  · subst hone
    obtain ⟨hblock, hU⟩ := h.isBlock (Nat.zero_le _) le_rfl (one_dvd _)
    exact wp_buddyFreePagesSub h.ok hblock hU hQ
  · refine wp_seq (wp_freeUp h hn (Nat.zero_add _) (one_dvd _)
      fun base' n' k' s₁ hle hsum hlt hdvd hspan hz => ?_)
    refine wp_freeDown hspan (by omega) hlt le_rfl hdvd fun s' hok hz' => hQ s' ?_ (hz.trans hz')
    rwa [sdiff_Ico_sdiff hle (Nat.le_add_right _ _), hsum] at hok

end Ucore.Buddy
