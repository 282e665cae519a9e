import Ucore.Buddy.Alloc

/-!
# Adding zones

`buddy_init_memmap` takes a range of reserved pages into a new zone and cuts it into free
blocks, the largest first. No two of them are buddies, because below the greatest order
each order is used at most once, at a multiple of the next power.
-/

namespace Ucore.Buddy

open Kern Function Finset Pmm

variable {H : Prop} {E : Empty → Pmm → Prop} {U : Finset ℕ} {s s' : Pmm}
  {k p q n order base zone : ℕ} {Q : Unit → Pmm → Prop}

/-- The state with the descriptors of a range reset for the next zone. -/
def Pmm.resetPages (s : Pmm) (base n : ℕ) : Pmm :=
  { s with page := fun q => if base ≤ q ∧ q < base + n then
      { reserved := false, hasProperty := false, property := 0, zoneNum := s.zoneNum }
      else s.page q }

theorem wp_initPages (hreserved : ∀ q, p ≤ q → q < p + n → (s.page q).reserved = true)
    (hQ : Q () (s.resetPages p n)) : (initPages n p).wp H E Q s := by
  induction n generalizing s p with
  | zero =>
    have hsame : s.resetPages p 0 = s := by
      unfold resetPages
      have hfun : (fun q => if p ≤ q ∧ q < p + 0 then
          { reserved := false, hasProperty := false, property := 0, zoneNum := s.zoneNum }
          else s.page q) = s.page := by
        funext q
        rw [if_neg (by omega)]
      rw [hfun]
    rwa [hsame] at hQ
  | succ n ih =>
    refine wp_check (hreserved p le_rfl (by omega)) ?_
    refine ih (fun q hlo hhi => ?_) ?_
    · simp only [setPage]
      rw [update_of_ne (by omega)]
      exact hreserved q (by omega) (by omega)
    · have hsame : (s.setPage p fun _ =>
            ⟨false, false, 0, s.zoneNum⟩).resetPages (p + 1) n = s.resetPages p (n + 1) := by
        unfold resetPages setPage
        congr 1
        funext q
        dsimp only
        rcases eq_or_ne q p with rfl | hp
        · rw [if_neg (by omega), update_self, if_pos (by omega)]
        · rw [update_of_ne hp]
          refine if_congr ?_ rfl rfl
          omega
      rwa [hsame]

/-- The state in which the reset pages are the new zone. -/
def Pmm.addZone (s : Pmm) (base n : ℕ) : Pmm :=
  { s.resetPages base n with
    memBase := update s.memBase s.zoneNum base, zoneNum := s.zoneNum + 1 }

theorem Pmm.page_addZone (s : Pmm) (base n q : ℕ) : (s.addZone base n).page q =
    if base ≤ q ∧ q < base + n then
      { reserved := false, hasProperty := false, property := 0, zoneNum := s.zoneNum }
      else s.page q := rfl

/-- The pages of the new zone are in use until its blocks are listed. -/
theorem BuddyOk.addZone (h : BuddyOk U s) (hle : base + n ≤ s.npage)
    (hreserved : ∀ q, base ≤ q → q < base + n → (s.page q).reserved = true) :
    BuddyOk (U ∪ Ico base (base + n)) (s.addZone base n) := by
  have hold : ∀ {q}, (s.page q).reserved = false → ¬(base ≤ q ∧ q < base + n) := by
    intro q hq hin
    rw [hreserved q hin.1 hin.2] at hq
    cases hq
  have hpage : ∀ {q}, (s.page q).reserved = false → (s.addZone base n).page q = s.page q := by
    intro q hq
    rw [page_addZone, if_neg (hold hq)]
  have hbase : ∀ {q}, (s.page q).reserved = false →
      (s.addZone base n).memBase (s.page q).zoneNum = s.memBase (s.page q).zoneNum := fun hq =>
    update_of_ne (h.zone _ hq).2.1.ne _ _
  have hidx : ∀ {q}, (s.page q).reserved = false →
      (s.addZone base n).page2idx q = s.page2idx q := by
    intro q hq
    rw [page2idx, hpage hq, hbase hq, page2idx]
  have hfree : ∀ {k p q}, p ∈ s.freeList k → q ∈ blockPages p k → (s.page q).reserved = false :=
    fun hp hq => ((h.block _ _ hp).zone _ hq).1
  have hhead : ∀ {k p}, p ∈ s.freeList k → (s.page p).reserved = false := fun hp =>
    hfree hp self_mem_blockPages
  refine ⟨fun q hq => ?_, fun k p hp => ⟨(h.block k p hp).order, fun q hq => ?_, ?_⟩,
    fun k p hp => ?_, fun q hr hprop => ?_, h.nodup, h.apart, h.count,
    fun k hk p hp p' hp' hzone => ?_, fun q => ?_⟩
  · rw [page_addZone] at hq ⊢
    split at hq
    · rename_i hin
      rw [if_pos hin]
      refine ⟨by show q < s.npage; omega, Nat.lt_succ_self _, ?_⟩
      show update s.memBase s.zoneNum base s.zoneNum ≤ q
      rw [update_self]
      exact hin.1
    · rename_i hout
      rw [if_neg hout, hbase hq]
      obtain ⟨hn, hz, hb⟩ := h.zone q hq
      exact ⟨hn, hz.trans (Nat.lt_succ_self _), hb⟩
  · rw [hpage (hfree hp hq), hpage (hhead hp)]
    exact (h.block k p hp).zone q hq
  · rw [hidx (hhead hp)]
    exact (h.block k p hp).aligned
  · rw [hpage (hhead hp)]
    exact h.flag k p hp
  · rw [page_addZone] at hr hprop ⊢
    split at hprop
    · cases hprop
    · rename_i hout
      rw [if_neg hout] at hr ⊢
      exact h.head q hr hprop
  · rw [hpage (hhead hp), hpage (hhead hp')] at hzone
    rw [hidx (hhead hp), hidx (hhead hp')]
    exact h.merged k hk p hp p' hp' hzone
  · rw [mem_union, mem_Ico, h.used, page_addZone]
    constructor
    · rintro (⟨hr, hout⟩ | hin)
      · rw [if_neg (hold hr)]
        exact ⟨hr, hout⟩
      · rw [if_pos hin]
        exact ⟨rfl, fun k p hp hq => hold (hfree hp hq) hin⟩
    · rintro ⟨hr, hout⟩
      by_cases hin : base ≤ q ∧ q < base + n
      · exact .inr hin
      · rw [if_neg hin] at hr
        exact .inl ⟨hr, hout⟩

/-- The rest of a zone that is being cut into blocks. -/
structure Rest (U : Finset ℕ) (s : Pmm) (zone p n : ℕ) : Prop extends Span U s zone p n where
  last : ∀ q, (s.page q).reserved = false → (s.page q).zoneNum = zone → q < p + n

section

variable (h : Rest U s zone p n) (hk : order ≤ maxOrder)
include h hk

/-- The largest block that fits is listed. -/
theorem Rest.put (hn : 2 ^ order ≤ n) (hdvd : 2 ^ order ∣ p - s.memBase zone)
    (hbig : order < maxOrder → n < 2 ^ (order + 1) ∧ 2 ^ (order + 1) ∣ p - s.memBase zone) :
    Rest (U \ blockPages p order) (s.putBlock order p) zone (p + 2 ^ order) (n - 2 ^ order) := by
  have hz := sameZones_putBlock s order p
  obtain ⟨hblock, hU⟩ := h.isBlock hk hn hdvd
  have hzone : (s.page p).zoneNum = zone := h.inZone p (mem_Ico.mpr (by omega))
  have hput := h.ok.put hblock hU fun hlt p' hp' hzone' heq => by
    obtain ⟨hsmall, hdvd'⟩ := hbig hlt
    rw [h.page2idx (by omega), buddyOf_lower hdvd'] at heq
    -- the buddy would be the block right behind, which is in use or behind the zone
    have hr' := ((h.ok.block _ p' hp').zone p' self_mem_blockPages).1
    have hstart := h.start
    have hp : p' = p + 2 ^ order := by
      have := h.ok.add_page2idx hr'
      rw [hzone', hzone] at this
      omega
    have hlast := h.last p' hr' (hzone'.trans hzone)
    exact h.ok.mem_used hp' self_mem_blockPages (h.held (mem_Ico.mpr (by omega)))
  refine ⟨h.toSpan.rest hn hput hz, fun q hr hq => ?_⟩
  rw [hz.reserved] at hr
  rw [hz.zoneNum] at hq
  have := h.last q hr hq
  omega

/-- The inner loop of `buddy_init_memmap`. -/
theorem wp_initOrder {fuel : ℕ} {Q : ℕ × ℕ → Pmm → Prop} (hdvd : 2 ^ order ∣ p - s.memBase zone)
    (hbig : order < maxOrder → 2 ^ order ≤ n →
      n < 2 ^ (order + 1) ∧ 2 ^ (order + 1) ∣ p - s.memBase zone)
    (hfuel : n ≤ fuel)
    (hQ : ∀ p' n' s', p ≤ p' → p' + n' = p + n → n' < 2 ^ order →
      2 ^ order ∣ p' - s'.memBase zone → Rest (U \ Ico p p') s' zone p' n' →
      Q (p', n') s') : (initOrder order fuel p n).wp H E Q s := by
  have hstop : n < 2 ^ order → Q (p, n) s := fun hlt =>
    hQ p n s le_rfl rfl hlt hdvd (by simpa using h)
  induction fuel generalizing s U p n with
  | zero => exact hstop (by omega)
  | succ fuel ih =>
    rw [initOrder]
    refine wp_if (fun hle => ?_) fun hlt => hstop (by omega)
    have hrest := h.put hk hle hdvd fun hlt => hbig hlt hle
    have hz := sameZones_putBlock s order p
    have hdvd₁ : 2 ^ order ∣ p + 2 ^ order - (s.putBlock order p).memBase zone := by
      have hstart := h.start
      rw [hz.memBase, show p + 2 ^ order - s.memBase zone = p - s.memBase zone + 2 ^ order by omega]
      exact Nat.dvd_add hdvd (dvd_refl _)
    have hmore : ∀ p' n' s', p + 2 ^ order ≤ p' → p' + n' = p + 2 ^ order + (n - 2 ^ order) →
        n' < 2 ^ order → 2 ^ order ∣ p' - s'.memBase zone →
        Rest ((U \ blockPages p order) \ Ico (p + 2 ^ order) p') s' zone p' n' →
        Q (p', n') s' := by
      intro p' n' s' hp hsum hlt hd hr
      rw [sdiff_blockPages_sdiff rfl hp] at hr
      exact hQ p' n' s' (by omega) (by omega) hlt hd hr
    refine ih hrest hdvd₁ (fun hlt hle' => ?_) (by omega) hmore fun hlt =>
      hmore _ _ _ le_rfl rfl hlt hdvd₁ (by simpa using hrest)
    -- below the greatest order there is no second block
    omega

/-- The outer loop of `buddy_init_memmap` lists all pages of the zone. -/
theorem wp_initBlocks (hdvd : 2 ^ order ∣ p - s.memBase zone)
    (hbig : order < maxOrder → n < 2 ^ (order + 1) ∧ 2 ^ (order + 1) ∣ p - s.memBase zone)
    (hQ : ∀ s', BuddyOk (U \ Ico p (p + n)) s' → Q () s') :
    (initBlocks order p n).wp H E Q s := by
  induction order generalizing s U p n with
  | zero =>
    rw [initBlocks, wp_bind]
    refine wp_initOrder h hk hdvd (fun hlt _ => hbig hlt) le_rfl fun p' n' s' hp hsum hlt _ hr => ?_
    have hzero : n' = 0 := by simpa using hlt
    rw [hzero, Nat.add_zero] at hsum
    rw [hsum] at hr
    exact hQ s' hr.ok
  | succ order ih =>
    rw [initBlocks]
    refine wp_if (fun hzero => ?_) fun _ => ?_
    · subst hzero
      exact hQ s (by simpa using h.ok)
    · refine wp_seq (wp_initOrder h hk hdvd (fun hlt _ => hbig hlt) le_rfl
        fun p' n' s' hp hsum hlt hd hr => ?_)
      refine ih hr (by omega) ((Nat.pow_dvd_pow 2 (Nat.le_succ order)).trans hd)
        (fun _ => ⟨hlt, hd⟩) fun s'' hok => hQ s'' ?_
      rwa [sdiff_Ico_sdiff hp (Nat.le_add_right _ _), hsum] at hok

end

/-- `buddy_init_memmap`: the pages of the new zone are free. -/
theorem wp_buddyInitMemmap (h : BuddyOk U s) (hpos : 0 < n) (hzones : s.zoneNum < maxZoneNum)
    (hle : base + n ≤ s.npage)
    (hreserved : ∀ q, base ≤ q → q < base + n → (s.page q).reserved = true)
    (hQ : ∀ s', BuddyOk U s' → Q () s') : (buddyInitMemmap base n).wp H E Q s := by
  refine wp_check ⟨hpos, hzones⟩ ?_
  refine wp_seq (wp_initPages hreserved ?_)
  have hok := h.addZone hle hreserved
  have hbase : (s.addZone base n).memBase s.zoneNum = base := update_self ..
  have hrest : Rest (U ∪ Ico base (base + n)) (s.addZone base n) s.zoneNum base n := by
    refine ⟨⟨hok, subset_union_right, fun q hq => ?_, hbase.le⟩, fun q hr hq => ?_⟩
    · rw [page_addZone, if_pos (mem_Ico.mp hq)]
    · rw [page_addZone] at hr hq
      split at hq
      · rename_i hin
        exact hin.2
      · rename_i hout
        rw [if_neg hout] at hr
        exact absurd hq (h.zone q hr).2.1.ne
  refine wp_initBlocks (s := s.addZone base n) hrest le_rfl ?_ (fun hlt => absurd hlt (lt_irrefl _))
    fun s' hok' => hQ s' ?_
  · rw [hbase, Nat.sub_self]
    exact Nat.dvd_zero _
  · have hcut : (U ∪ Ico base (base + n)) \ Ico base (base + n) = U := by
      rw [union_sdiff_right, Finset.sdiff_eq_self_iff_disjoint, disjoint_left]
      intro q hq hin
      obtain ⟨hlo, hhi⟩ := mem_Ico.mp hin
      have hr := ((h.used q).mp hq).1
      rw [hreserved q hlo hhi] at hr
      cases hr
    rwa [hcut] at hok'

end Ucore.Buddy
