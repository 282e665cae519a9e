import Ucore.Sfs.MapGrowth

/-!
# The block map functions

Specifications of `sfs_bmap_get_nolock`, `sfs_bmap_load_nolock` and their error
exits over all three levels of the map.
-/

namespace Ucore.Sfs

open Kern Function Fs

variable {H : Prop} {E : Err → Fs → Prop} {φ : Faults} {L : Finset ℕ} {x j i blk : ℕ} {s s' : Fs}
  {sin : SfsInode} {create : Bool} {Q : ℕ → Fs → Prop} {τ : Slot}

theorem Fs.blk_direct (hsin : s.inodes x = some sin) (hi : i < nDirect) :
    s.blk x (.data i) = sin.din.directAt i := by
  rw [Fs.blk, din_eq hsin]
  simp only [blkOf, if_pos hi]

theorem Fs.blk_indirect (hsin : s.inodes x = some sin) : s.blk x .indirect = sin.din.indirect := by
  rw [Fs.blk, din_eq hsin]
  rfl

theorem Fs.blk_dbIndirect (hsin : s.inodes x = some sin) :
    s.blk x .dbIndirect = sin.din.dbIndirect := by
  rw [Fs.blk, din_eq hsin]
  rfl

/-- The blocks behind the direct ones are entries of the indirect block. -/
theorem exists_indirect (hfar : ¬i < nDirect) (hi : i - nDirect < blkNEntry) :
    ∃ j < 1024, i = 12 + j ∧ i - nDirect = j := by
  simp only [nDirect, blkNEntry] at *
  exact ⟨i - 12, hi, by omega, rfl⟩

/-- The blocks behind these are entries of the tables in the double indirect block. -/
theorem exists_second (hfar : ¬i < nDirect) (hi : ¬i - nDirect < blkNEntry) :
    ∃ k j, j < 1024 ∧ i = 1036 + 1024 * k + j ∧ (i - nDirect - blkNEntry) / blkNEntry = k ∧
      (i - nDirect - blkNEntry) % blkNEntry = j := by
  simp only [nDirect, blkNEntry, Nat.sub_sub] at *
  exact ⟨(i - 1036) / 1024, (i - 1036) % 1024, by omega, by omega, rfl, rfl⟩

theorem Fs.blk_entry (hτ : τ.isTable) (hj : j < 1024) :
    s.blk x (τ.entry j) = tableAt s.disk (s.blk x τ) j :=
  blkOf_entry hτ hj

/-- Only indices below `maxBlocks` have a block. -/
theorem Fs.lt_maxBlocks (h : s.blk x (.data i) ≠ 0) : i < maxBlocks := by
  by_contra hi
  refine h ?_
  simp only [maxBlocks] at hi
  simp only [Fs.blk, blkOf, maxBlocks]
  rw [if_neg (by omega), if_neg (by omega), if_neg hi]

theorem wp_bmapOut (hused : blk ≠ 0 → s.Inuse blk) (hQ : Q blk s) :
    (sfsBmapOut blk).wp H E Q s := by
  unfold sfsBmapOut
  rcases eq_or_ne blk 0 with rfl | hblk
  · simpa using hQ
  · rw [if_pos hblk, wp_bind]
    exact wp_assertInuse (hused hblk) hQ

/-- The label `out` when the block is the one of a slot. -/
theorem wp_bmapOut_slot {σ : Slot} (hown : Owned L s) (hx : x ∈ L) (hblk : s.blk x σ = blk)
    (hQ : Q (s.blk x σ) s) : (sfsBmapOut blk).wp H E Q s := by
  subst hblk
  exact wp_bmapOut (hown.blk_inuse hx) hQ

/-- `sfs_bmap_get_sub_nolock` on a table of an inode. A table that is missing is not in the
inode yet when the function returns. -/
theorem wp_bmapGetSub_slot {site : Site} {I : Set ℕ} {Q : ℕ × ℕ → Fs → Prop} (hown : Owned L s)
    (hsin : s.inodes x = some sin) (hτ : τ.isTable) (hj : j < 1024)
    (hI : ∀ i, τ.entry j = .data i → i ∈ I)
    (hfound : s.blk x (τ.entry j) ≠ 0 ∨ create = false → Q (s.blk x τ, s.blk x (τ.entry j)) s)
    (hentry : create = true → s.blk x (τ.entry j) = 0 → ∀ b s', b ≠ 0 → s'.inodes x = some sin →
      Extends L x I s s' → s'.blk x (τ.entry j) = b → Q (s.blk x τ, b) s')
    (htable : create = true → s.blk x (τ.entry j) = 0 → s.blk x τ = 0 → ∀ t b s', t ≠ 0 → b ≠ 0 →
      s'.inodes x = some sin → (τ = .indirect ∨ τ = .dbIndirect → ∀ s'', s'' = s'.setInode x
        (some { sin with din := sin.din.setTable t τ, dirty := true }) →
          Extends L x I s s'' ∧ s''.blk x (τ.entry j) = b) → Q (t, b) s')
    (hread : φ ≠ Faults.none → E .io s)
    (hE : create = true → s.blk x (τ.entry j) = 0 →
      ∀ e s', Extends L x ∅ s s' → Caused φ 1 e s' → E e s') :
    (sfsBmapGetSubNolock (φ.at site) (s.blk x τ) j create).wp H E Q s := by
  have hdata := blk_entry (s := s) (x := x) hτ hj
  refine wp_bmapGetSub hown.freemap (hown.blk_inuse (hown.mem hsin)) hj (fun h => ?_)
    (fun hcreate hent h0 b hb => ?_) (fun hcreate hzero t ht b hb => ?_)
    (fun h => hread (Faults.ne_none_of_at h))
    (fun hcreate h0 e s' hl => hE hcreate (hdata ▸ h0) e s' (hl.extends hown) hl.cause.of_at)
  · rw [← hdata] at h ⊢
    exact hfound h
  · rw [← hdata] at h0
    obtain ⟨hext, hb'⟩ := Extends.attach_entry hown hb hsin hτ hj hent h0 hI
    exact hentry hcreate h0 b _ (hown.freemap.free b hb).1 hsin hext hb'
  · -- the table enters the inode first, and is then filled
    have h0 : s.blk x (τ.entry j) = 0 := by rw [hdata, hzero, tableAt_none]
    have hb0 := ((Quiet.take hown.freemap ht).freemap.free b hb).1
    refine htable hcreate h0 hzero t b _ (hown.freemap.free t ht).1 hb0 hsin fun htop s'' hs'' => ?_
    have hslots := hown.take_slots ht hsin
    obtain ⟨hext, hblk⟩ := Extends.attach_din (I := I) (sin.din.setTable t τ)
      hown ht hsin hzero (by rcases htop with rfl | rfl <;> rfl)
      (fun _ hi => by rcases htop with rfl | rfl <;> cases hi)
      (blkOf_setTable htop (by rw [hslots]; exact hzero) (update_self ..))
    have hne : τ.entry j ≠ τ := by rcases htop with rfl | rfl <;> simp [Slot.entry]
    have hτt := congrFun hblk τ
    rw [update_self] at hτt
    obtain ⟨hext', hb'⟩ := Extends.attach_entry hext.owned hb
      (update_self ..) hτ hj (by rw [hτt]; exact (hown.freemap.free t ht).1)
      (by rw [hblk, update_of_ne hne, h0]) hI
    rw [hτt] at hext' hb'
    rw [hs'']
    exact ⟨hext.trans hext', hb'⟩

variable (E φ L x create Q) in
/-- What a lookup of the block with index `i`, or its creation, has to lead to. -/
structure BmapGet (i : ℕ) (s : Fs) : Prop where
  found : s.blk x (.data i) ≠ 0 ∨ create = false → Q (s.blk x (.data i)) s
  new : create = true → s.blk x (.data i) = 0 → ∀ s', Extends L x {i} s s' →
    s'.blk x (.data i) ≠ 0 → Q (s'.blk x (.data i)) s'
  read : φ ≠ Faults.none → E .io s
  fail : create = true → s.blk x (.data i) = 0 →
    ∀ e s', Extends L x ∅ s s' → Caused φ 1 e s' → E e s'

/-- A creation goes on after it has added a table. -/
theorem BmapGet.grown (h : BmapGet E φ L x create Q i s) (hcreate : create = true)
    (h0 : s.blk x (.data i) = 0) (hext : Extends L x ∅ s s') : BmapGet E φ L x create Q i s' := by
  have hext' : Extends L x {i} s s' :=
    { hext with new := fun j hzero hne => (hext.new j hzero hne).elim }
  refine ⟨fun hfound => h.new hcreate h0 s' hext' (hfound.resolve_right ?_),
    fun _ _ s'' hmore => h.new hcreate h0 s'' (hext'.trans hmore),
    fun hφ => h.fail hcreate h0 _ _ hext (.of_ne hφ),
    fun _ _ e s'' hmore => h.fail hcreate h0 e s'' (hext.trans hmore)⟩
  rw [hcreate]
  exact Bool.noConfusion

section

variable (hown : Owned L s) (hsin : s.inodes x = some sin)
include hown hsin

/-- The second level of the double indirect range. -/
private theorem wp_bmapGet_second {k : ℕ} (hj : j < 1024)
    (hget : BmapGet E φ L x create Q (1036 + 1024 * k + j) s)
    (hsecond : create = true → s.blk x (.second k) ≠ 0) :
    (if s.blk x (.second k) ≠ 0 then do
        let (_, blk) ← sfsBmapGetSubNolock (φ.at .sub2) (s.blk x (.second k)) j create
        sfsBmapOut blk
      else sfsBmapOut (s.blk x (.second k))).wp H E Q s := by
  have hx := hown.mem hsin
  by_cases hne : s.blk x (.second k) = 0
  · have hcreate : create = false := by
      by_contra h
      exact hsecond (by simpa using h) hne
    have h0 : s.blk x (.data (1036 + 1024 * k + j)) = 0 :=
      (blk_entry (τ := .second k) trivial hj).trans (by rw [hne, tableAt_none])
    have hfound := hget.found (.inr hcreate)
    rw [h0] at hfound
    rw [hne]
    exact wp_bmapOut (absurd rfl) hfound
  · rw [if_pos hne, wp_bind]
    refine wp_bmapGetSub_slot hown hsin trivial hj
      (fun i hi => (Slot.data.inj hi).symm) (fun h => wp_bmapOut_slot hown hx rfl (hget.found h))
      (fun hcreate h0 b s' hb _ hext hb' => ?_) (fun _ _ h0 => absurd h0 hne) hget.read hget.fail
    exact wp_bmapOut_slot hext.owned hx hb' (hget.new hcreate h0 s' hext (hb' ▸ hb))

/-- The double indirect range. -/
private theorem wp_bmapGet_double {k : ℕ} (hk : k < 1024) (hj : j < 1024)
    (hget : BmapGet E φ L x create Q (1036 + 1024 * k + j) s) :
    (do
      let (ent, second) ← sfsBmapGetSubNolock (φ.at .sub) sin.din.dbIndirect k create
      if ent ≠ sin.din.dbIndirect then
        assert (sin.din.dbIndirect = 0)
        modifySin x fun sin =>
          { sin with din := { sin.din with dbIndirect := ent }, dirty := true }
      if second ≠ 0 then
        let (_, blk) ← sfsBmapGetSubNolock (φ.at .sub2) second j create
        sfsBmapOut blk
      else sfsBmapOut second : K ℕ).wp H E Q s := by
  have hτ := blk_dbIndirect hsin
  have hdata : s.blk x (.second k) = 0 → s.blk x (.data (1036 + 1024 * k + j)) = 0 := fun h0 =>
    (blk_entry (τ := .second k) trivial hj).trans (by rw [h0, tableAt_none])
  -- the second level, after the first one added a table
  have hgrown : ∀ {b s' sin'}, s'.inodes x = some sin' → create = true →
      s.blk x (.second k) = 0 → b ≠ 0 → Extends L x ∅ s s' → s'.blk x (.second k) = b →
      (if b ≠ 0 then do
          let r ← sfsBmapGetSubNolock (φ.at .sub2) b j create
          sfsBmapOut r.2
        else sfsBmapOut b : K ℕ).wp H E Q s' := by
    intro b s' sin' hsin' hcreate h0 hb hext hb'
    subst hb'
    exact wp_bmapGet_second hext.owned hsin' hj (hget.grown hcreate (hdata h0) hext) fun _ => hb
  rw [← hτ, wp_bind]
  refine wp_bmapGetSub_slot (I := ∅) hown hsin trivial hk
    (fun _ => Slot.noConfusion) (fun h => ?_) (fun hcreate h0 b s' hb hsin' hext hb' => ?_)
    (fun hcreate h0 hzero t b s' ht hb hsin' hnew => ?_) hget.read
    fun hcreate h0 => hget.fail hcreate (hdata h0)
  · simp only [ne_eq, not_true_eq_false, if_false]
    refine wp_bmapGet_second hown hsin hj hget fun hcreate => h.resolve_right ?_
    rw [hcreate]
    exact Bool.noConfusion
  · simp only [ne_eq, not_true_eq_false, if_false]
    exact hgrown hsin' hcreate h0 hb hext hb'
  · simp only [hzero, ne_eq, ht, not_false_eq_true, if_true]
    refine wp_check hzero ?_
    rw [wp_bind, wp_modifySin hsin']
    obtain ⟨hext, hb'⟩ := hnew (.inr rfl) _ rfl
    exact hgrown (update_self ..) hcreate h0 hb hext hb'

/-- `sfs_bmap_get_nolock`: a block that is there is returned, and a lookup changes
nothing; a creation extends the map, and so does a creation that fails. -/
theorem wp_bmapGet {index : ℕ} (hidx : ¬index < maxBlocks → H)
    (hget : BmapGet E φ L x create Q index s) : (sfsBmapGetNolock φ x index create).wp H E Q s := by
  have hx := hown.mem hsin
  have hout : ∀ {b s'}, b ≠ 0 → create = true → s.blk x (.data index) = 0 →
      Extends L x {index} s s' → s'.blk x (.data index) = b → (sfsBmapOut b).wp H E Q s' := by
    intro b s' hb hcreate h0 hext hblk
    exact wp_bmapOut_slot hext.owned hx hblk (hget.new hcreate h0 s' hext (hblk ▸ hb))
  unfold sfsBmapGetNolock
  rw [wp_bind, wp_getSin hsin]
  refine wp_if (fun hdirect => ?_) fun hfar => ?_
  · have hblk := blk_direct hsin hdirect
    refine wp_if (fun h => ?_) fun h => ?_
    · obtain ⟨h0, hcreate⟩ := h
      rw [← hblk] at h0
      refine wp_seq (wp_blockAlloc_lost hown.freemap (fun b hb => ?_) fun e s' hl =>
        hget.fail hcreate h0 _ _ (hl.extends hown) (hl.mono (Nat.zero_le 1)).cause.of_at)
      have hsin' : (s.take b).inodes x = some sin := hsin
      obtain ⟨hext, hblk'⟩ := Extends.attach_din _ hown hb hsin h0 rfl
        (fun i hi => (Slot.data.inj hi).symm) (blkOf_setDirect hdirect b)
      rw [wp_bind, wp_modifySin hsin']
      exact hout (hown.freemap.free b hb).1 hcreate h0 hext
        ((congrFun hblk' _).trans (update_self ..))
    · rw [← hblk] at h
      refine wp_bmapOut_slot hown hx hblk (hget.found ?_)
      by_cases h0 : s.blk x (.data index) = 0
      · exact .inr (by simpa using fun hcreate => h ⟨h0, hcreate⟩)
      · exact .inl h0
  · refine wp_if (fun hindirect => ?_) fun hdouble => ?_
    · obtain ⟨j, hj, rfl, hsub⟩ := exists_indirect hfar hindirect
      rw [hsub, ← blk_indirect hsin, wp_bind]
      refine wp_bmapGetSub_slot hown hsin trivial hj
        (fun i hi => (Slot.data.inj hi).symm) (fun h => ?_)
        (fun hcreate h0 b s' hb _ hext hb' => ?_)
        (fun hcreate h0 hzero t b s' ht hb hsin' hnew => ?_) hget.read hget.fail
      · simp only [ne_eq, not_true_eq_false, if_false]
        exact wp_bmapOut_slot hown hx rfl (hget.found h)
      · simp only [ne_eq, not_true_eq_false, if_false]
        exact hout hb hcreate h0 hext hb'
      · simp only [hzero, ne_eq, ht, not_false_eq_true, if_true]
        refine wp_check hzero ?_
        rw [wp_bind, wp_modifySin hsin']
        obtain ⟨hext, hb'⟩ := hnew (.inl rfl) _ rfl
        exact hout hb hcreate h0 hext hb'
    · obtain ⟨k, j, hj, rfl, hdiv, hmod⟩ := exists_second hfar hdouble
      dsimp only
      rw [hdiv, hmod]
      by_cases hk : k < 1024
      · exact wp_bmapGet_double hown hsin hk hj hget
      · simp only [sfsBmapGetSubNolock, wp_bind, wp_assert]
        exact ⟨fun h => absurd h hk, fun _ => hidx (by simp only [maxBlocks]; omega)⟩

end

end Ucore.Sfs
