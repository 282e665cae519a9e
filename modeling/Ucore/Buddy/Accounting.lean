import Ucore.Buddy.Runs
import Mathlib.Algebra.Order.BigOperators.Group.Finset
import Mathlib.Data.BitVec

/-!
# Page accounting

`pmm.c` keeps the number `used_pages` in the functions `alloc_pages` and `free_pages`
around the allocator. The allocator gives back the pages that a request does not need by
`free_pages`, so it enters the wrapper again from inside `alloc_pages`, and the counter
loses these pages although it never counted them.
-/

namespace Ucore.Buddy

open Kern Finset

variable {H : Prop} {U : Finset ℕ} {s s' : Pmm} {n : ℕ}

/-- The allocator and `used_pages`, which is a `size_t`. -/
structure Counted where
  pmm : Pmm
  usedPages : BitVec 32

/-- Code of the wrappers. -/
abbrev W := Kern Empty Counted

/-- A function of the allocator that does not call a wrapper. -/
def onPmm {α : Type} (m : P α) : W α := zoom Counted.pmm (fun s c => { c with pmm := s }) m

/-- `free_pages`. -/
def freePages (base n : ℕ) : W Unit := do
  onPmm (buddyFreePages base n)
  modify fun c => { c with usedPages := c.usedPages - BitVec.ofNat 32 n }

/-- `buddy_alloc_pages`, with the wrapper that it calls. -/
def buddyAllocPagesCounted (n : ℕ) : W (Option ℕ) := do
  assert (0 < n)
  let order ← onPmm (getorder n)
  match ← onPmm (buddyAllocPagesSub order) with
  | none => return none
  | some page => do
    if n ≠ 2 ^ order then freePages (page + n) (2 ^ order - n)
    return some page

/-- `alloc_pages`. -/
def allocPages (n : ℕ) : W (Option ℕ) := do
  match ← buddyAllocPagesCounted n with
  | none => return none
  | some page => do
    modify fun c => { c with usedPages := c.usedPages + BitVec.ofNat 32 n }
    return some page

/-- `nr_used_pages`. -/
def Counted.nrUsedPages (c : Counted) : ℕ := c.usedPages.toNat

/-- `buddy_nr_free_pages`. -/
def Pmm.nrFreePages (s : Pmm) : ℕ :=
  ∑ order ∈ Finset.range (maxOrder + 1), s.nrFree order * 2 ^ order

/-! ## Free pages -/

/-- The pages of all zones. -/
def Pmm.zonePages (s : Pmm) : Finset ℕ :=
  (Finset.range s.npage).filter fun q => (s.page q).reserved = false

theorem SameZones.zonePages (h : SameZones s s') : s'.zonePages = s.zonePages := by
  rw [Pmm.zonePages, Pmm.zonePages, h.npage]
  refine filter_congr fun q _ => ?_
  rw [h.reserved]

/-- The pages of the free blocks of one order. -/
def Pmm.freeOf (s : Pmm) (k : ℕ) : Finset ℕ :=
  (s.freeList k).toFinset.biUnion fun p => blockPages p k

theorem Pmm.mem_freeOf {k q : ℕ} : q ∈ s.freeOf k ↔ ∃ p ∈ s.freeList k, q ∈ blockPages p k := by
  simp [Pmm.freeOf]

theorem BuddyOk.card_freeOf (h : BuddyOk U s) (k : ℕ) : (s.freeOf k).card = s.nrFree k * 2 ^ k := by
  have hapart : ((s.freeList k).toFinset : Set ℕ).PairwiseDisjoint fun p => blockPages p k := by
    intro p hp p' hp' hne
    rw [mem_coe, List.mem_toFinset] at hp hp'
    refine disjoint_left.mpr fun q hq hq' => hne ?_
    exact h.apart k p hp k p' hp' q hq hq'
  have hblock : ∀ p ∈ (s.freeList k).toFinset, (blockPages p k).card = 2 ^ k := by
    intro p _
    rw [blockPages, Nat.card_Ico, Nat.add_sub_cancel_left]
  rw [Pmm.freeOf, card_biUnion hapart, sum_const_nat hblock,
    List.toFinset_card_of_nodup (h.nodup k), h.count]

/-- The pages that are not in use are those of the free blocks. -/
theorem BuddyOk.zonePages_eq (h : BuddyOk U s) :
    s.zonePages = U ∪ (Finset.range (maxOrder + 1)).biUnion s.freeOf := by
  ext q
  simp only [Pmm.zonePages, mem_union, mem_filter, mem_range, mem_biUnion, Pmm.mem_freeOf]
  constructor
  · rintro ⟨-, hr⟩
    by_cases hq : q ∈ U
    · exact .inl hq
    · rw [h.used] at hq
      push Not at hq
      obtain ⟨k, p, hp, hin⟩ := hq hr
      exact .inr ⟨k, Nat.lt_succ_of_le (h.block k p hp).order, p, hp, hin⟩
  · rintro (hq | ⟨k, -, p, hp, hin⟩)
    · have hr := ((h.used q).mp hq).1
      exact ⟨(h.zone q hr).1, hr⟩
    · have hr := ((h.block k p hp).zone q hin).1
      exact ⟨(h.zone q hr).1, hr⟩

/-- `buddy_nr_free_pages` counts the pages that are not in use. -/
theorem BuddyOk.nrFreePages_add_card (h : BuddyOk U s) :
    s.nrFreePages + U.card = s.zonePages.card := by
  have hapart : ((Finset.range (maxOrder + 1) : Finset ℕ) : Set ℕ).PairwiseDisjoint s.freeOf := by
    intro k _ k' _ hne
    refine disjoint_left.mpr fun q hq hq' => hne ?_
    obtain ⟨p, hp, hin⟩ := Pmm.mem_freeOf.mp hq
    obtain ⟨p', hp', hin'⟩ := Pmm.mem_freeOf.mp hq'
    have heq := h.apart k p hp k' p' hp' q hin hin'
    subst heq
    exact h.order_eq hp hp'
  have hdisj : Disjoint U ((Finset.range (maxOrder + 1)).biUnion s.freeOf) := by
    refine disjoint_left.mpr fun q hq hfree => ?_
    obtain ⟨k, -, hk⟩ := mem_biUnion.mp hfree
    obtain ⟨p, hp, hin⟩ := Pmm.mem_freeOf.mp hk
    exact h.mem_used hp hin hq
  rw [h.zonePages_eq, card_union_of_disjoint hdisj, card_biUnion hapart,
    sum_congr rfl fun k _ => h.card_freeOf k, Nat.add_comm]
  rfl

/-! ## The wrappers -/

variable {E : Empty → Counted → Prop} {c : Counted} {zone base : ℕ}

theorem wp_onPmm {α : Type} {m : P α} {Q : α → Counted → Prop} : (onPmm m).wp H E Q c ↔
      m.wp H (fun e s => E e { c with pmm := s }) (fun a s => Q a { c with pmm := s }) c.pmm :=
  wp_zoom

/-- `free_pages` of a range of pages of one zone. -/
theorem wp_freePages {Q : Unit → Counted → Prop} (h : Span U c.pmm zone base n) (hpos : 0 < n)
    (hn : n ≤ 2 ^ maxOrder)
    (hQ : ∀ s', BuddyOk (U \ Ico base (base + n)) s' → SameZones c.pmm s' →
      Q () ⟨s', c.usedPages - BitVec.ofNat 32 n⟩) : (freePages base n).wp H E Q c := by
  rw [freePages, wp_bind, wp_onPmm]
  exact wp_buddyFreePages h hpos hn hQ

/-- What a successful `alloc_pages` did to the allocator. -/
structure Handed (U : Finset ℕ) (s : Pmm) (n page : ℕ) (s' : Pmm) : Prop where
  ok : BuddyOk (U ∪ Ico page (page + n)) s'
  zones : SameZones s s'
  fresh : Disjoint U (Ico page (page + n))
  oneZone : ∀ q ∈ Ico page (page + n), (s'.page q).zoneNum = (s'.page page).zoneNum

theorem Allocated.handed {order page : ℕ} {s₁ s₂ : Pmm} (h : Allocated U s order page s₁)
    (hle : n ≤ 2 ^ order) (hok : BuddyOk (U ∪ Ico page (page + n)) s₂)
    (hz : SameZones s₁ s₂) : Handed U s n page s₂ := by
  refine ⟨hok, h.zones.trans hz, h.disjoint hle, fun q hq => ?_⟩
  rw [hz.zoneNum, hz.zoneNum]
  refine (h.block.zone q ?_).2
  rw [mem_Ico] at hq
  rw [mem_blockPages]
  omega

/-- A request for a power of two is one for a whole block. -/
theorem isPow_iff {order : ℕ} (hle : n ≤ 2 ^ order) (hlow : ∀ j < order, 2 ^ j < n) :
    (∃ k, n = 2 ^ k) ↔ n = 2 ^ order := by
  constructor
  · rintro ⟨k, rfl⟩
    have hk : k ≤ order := (Nat.pow_le_pow_iff_right Nat.one_lt_two).mp hle
    have hk' : ¬k < order := fun hlt => (hlow k hlt).false
    rw [le_antisymm hk (not_lt.mp hk')]
  · intro heq
    exact ⟨order, heq⟩

/-- `alloc_pages`: the counter rises by `n` and falls by the rest of the block. -/
theorem wp_allocPages {Q : Option ℕ → Counted → Prop} (h : BuddyOk U c.pmm) (hpos : 0 < n)
    (hn : n ≤ 2 ^ maxOrder) (hnone : Q none c)
    (hsome : ∀ page s' rest, Handed U c.pmm n page s' → rest < 2 ^ maxOrder →
      ((∃ k, n = 2 ^ k) ↔ rest = 0) →
      Q (some page) ⟨s', c.usedPages - BitVec.ofNat 32 rest + BitVec.ofNat 32 n⟩) :
    (allocPages n).wp H E Q c := by
  rw [allocPages, wp_bind, buddyAllocPagesCounted]
  refine wp_check hpos ?_
  rw [wp_bind, wp_onPmm]
  refine wp_getorder hn fun order horder hle hlow => ?_
  have hmax : 2 ^ order ≤ 2 ^ maxOrder := Nat.pow_le_pow_right Nat.zero_lt_two horder
  have hpow := isPow_iff hle hlow
  rw [wp_bind, wp_onPmm, buddyAllocPagesSub]
  refine wp_check horder (wp_allocFrom h hnone fun page s₁ halloc => ?_)
  refine wp_if (fun hne => ?_) fun heq => ?_
  · refine wp_seq (wp_freePages (halloc.tail hle) (by omega) (by omega) fun s₂ hok hz => ?_)
    rw [halloc.cut hle] at hok
    exact hsome page s₂ _ (halloc.handed hle hok hz) (by omega) (hpow.trans (by omega))
  · have hn' : n = 2 ^ order := by simpa using heq
    have hok : BuddyOk (U ∪ Ico page (page + n)) s₁ := by
      rw [hn']
      exact halloc.ok
    have hcount := hsome page s₁ 0 (halloc.handed hle hok (.refl s₁)) (Nat.two_pow_pos _)
      (by simpa using hpow.mpr hn')
    rwa [BitVec.sub_zero] at hcount

/-! ## Runs -/

/-- The memory, and the ranges of pages that are allocated: the first page and the number. -/
structure Book where
  mem : Counted
  live : List (ℕ × ℕ)

/-- The calls of the wrappers. -/
inductive PageCall where
  /-- `alloc_pages`. -/
  | alloc (n : ℕ)
  /-- `free_pages`. -/
  | free (base n : ℕ)

/-- A call that returns. -/
inductive PageStep : Book → PageCall → Book → Prop
  | allocNone {c c' : Counted} {live : List (ℕ × ℕ)} {n : ℕ} :
      allocPages n c = .done none c' → PageStep ⟨c, live⟩ (.alloc n) ⟨c', live⟩
  | allocSome {c c' : Counted} {live : List (ℕ × ℕ)} {n page : ℕ} :
      allocPages n c = .done (some page) c' → PageStep ⟨c, live⟩ (.alloc n) ⟨c', (page, n) :: live⟩
  | free {c c' : Counted} {live : List (ℕ × ℕ)} {base n : ℕ} :
      freePages base n c = .done () c' →
        PageStep ⟨c, live⟩ (.free base n) ⟨c', live.erase (base, n)⟩

/-- A request is for at most 1024 pages, and what is freed is a range that was allocated. -/
def PageCall.Legal (B : Book) : PageCall → Prop
  | .alloc n => 1 ≤ n ∧ n ≤ 1024
  | .free base n => (base, n) ∈ B.live

/-- A request is for a power of two. -/
def PageCall.PowerOfTwo : PageCall → Prop
  | .alloc n => ∃ k, n = 2 ^ k
  | .free _ _ => True

/-- A new zone at boot: a range of reserved pages. -/
def ZoneStep (s : Pmm) (zone : ℕ × ℕ) (s' : Pmm) : Prop :=
  buddyInitMemmap zone.1 zone.2 s = .done () s' ∧ (PmmCall.initMemmap zone.1 zone.2).Legal ⟨s, ∅⟩

/-- The pages of a range. -/
def rangePages (r : ℕ × ℕ) : Finset ℕ := Ico r.1 (r.1 + r.2)

/-- The pages of a list of ranges. -/
def livePages (live : List (ℕ × ℕ)) : Finset ℕ := live.toFinset.biUnion rangePages

/-- The number of pages of a list of ranges. -/
def liveCount (live : List (ℕ × ℕ)) : ℕ := (live.map Prod.snd).sum

/-- Separate ranges in one zone each, of one to 1024 pages. -/
structure RangesOk (s : Pmm) (live : List (ℕ × ℕ)) : Prop where
  size : ∀ r ∈ live, 1 ≤ r.2 ∧ r.2 ≤ 1024
  oneZone : ∀ r ∈ live, ∀ q ∈ rangePages r, (s.page q).zoneNum = (s.page r.1).zoneNum
  apart : live.Pairwise fun r r' => Disjoint (rangePages r) (rangePages r')

variable {live live' : List (ℕ × ℕ)} {r : ℕ × ℕ}

theorem livePages_cons : livePages (r :: live) = rangePages r ∪ livePages live := by
  rw [livePages, List.toFinset_cons, biUnion_insert, livePages]

theorem livePages_perm (h : live.Perm live') : livePages live = livePages live' := by
  rw [livePages, livePages, List.toFinset_eq_of_perm _ _ h]

theorem RangesOk.perm (h : RangesOk s live) (hperm : live.Perm live') : RangesOk s live' where
  size r hr := h.size r (hperm.mem_iff.mpr hr)
  oneZone r hr := h.oneZone r (hperm.mem_iff.mpr hr)
  apart := hperm.pairwise h.apart fun hdisj => hdisj.symm

theorem RangesOk.zones (h : RangesOk s live) (hz : SameZones s s') : RangesOk s' live where
  size := h.size
  oneZone r hr q hq := by
    rw [hz.zoneNum, hz.zoneNum]
    exact h.oneZone r hr q hq
  apart := h.apart

theorem RangesOk.tail (h : RangesOk s (r :: live)) : RangesOk s live where
  size r' hr' := h.size r' (.tail _ hr')
  oneZone r' hr' := h.oneZone r' (.tail _ hr')
  apart := (List.pairwise_cons.mp h.apart).2

/-- The first range shares no page with the others. -/
theorem RangesOk.disjoint (h : RangesOk s (r :: live)) :
    Disjoint (rangePages r) (livePages live) := by
  rw [livePages, disjoint_biUnion_right]
  intro r' hr'
  exact (List.pairwise_cons.mp h.apart).1 r' (List.mem_toFinset.mp hr')

theorem RangesOk.card (h : RangesOk s live) : (livePages live).card = liveCount live := by
  induction live with
  | nil => rfl
  | cons r live ih =>
    rw [livePages_cons, card_union_of_disjoint h.disjoint, ih h.tail, rangePages,
      Nat.card_Ico, Nat.add_sub_cancel_left]
    rfl

/-- The allocator and the ranges in use, out of `total` pages. -/
structure Book.Ok (total : ℕ) (B : Book) : Prop where
  ok : BuddyOk (livePages B.live) B.mem.pmm
  ranges : RangesOk B.mem.pmm B.live
  total : B.mem.pmm.zonePages.card = total

variable {total : ℕ} {B B' : Book} {call : PageCall}

/-- The free pages and the pages of the live ranges are all pages. -/
theorem Book.Ok.nrFreePages (h : B.Ok total) :
    B.mem.pmm.nrFreePages + liveCount B.live = total := by
  rw [← h.ranges.card, h.ok.nrFreePages_add_card, h.total]

/-- A range that `alloc_pages` hands out joins the live ones. -/
theorem Book.Ok.alloc {page : ℕ} {u : BitVec 32} (h : B.Ok total) (hpos : 1 ≤ n) (hn : n ≤ 1024)
    (hnew : Handed (livePages B.live) B.mem.pmm n page s') :
    Book.Ok total ⟨⟨s', u⟩, (page, n) :: B.live⟩ := by
  refine ⟨?_, ⟨?_, ?_, ?_⟩, ?_⟩
  · rw [livePages_cons, union_comm]
    exact hnew.ok
  · intro r hr
    rcases List.mem_cons.mp hr with rfl | hr
    · exact ⟨hpos, hn⟩
    · exact h.ranges.size r hr
  · intro r hr
    rcases List.mem_cons.mp hr with rfl | hr
    · exact hnew.oneZone
    · exact (h.ranges.zones hnew.zones).oneZone r hr
  · refine List.pairwise_cons.mpr ⟨fun r hr => ?_, h.ranges.apart⟩
    refine (disjoint_of_subset_left ?_ hnew.fresh).symm
    exact subset_biUnion_of_mem rangePages (List.mem_toFinset.mpr hr)
  · rw [hnew.zones.zonePages]
    exact h.total

/-- A live range is one that `free_pages` can take. -/
theorem Book.Ok.span (h : B.Ok total) (hr : (base, n) ∈ B.live) :
    Span (livePages B.live) B.mem.pmm (B.mem.pmm.page base).zoneNum base n :=
  h.ok.span (h.ranges.size _ hr).1
    (subset_biUnion_of_mem rangePages (List.mem_toFinset.mpr hr)) (h.ranges.oneZone _ hr)

/-- A range that is freed leaves the live ones. -/
theorem Book.Ok.free {u : BitVec 32} (h : B.Ok total) (hr : (base, n) ∈ B.live)
    (hok : BuddyOk (livePages B.live \ Ico base (base + n)) s')
    (hz : SameZones B.mem.pmm s') : Book.Ok total ⟨⟨s', u⟩, B.live.erase (base, n)⟩ := by
  have hperm := List.perm_cons_erase hr
  have hranges := h.ranges.perm hperm
  refine ⟨?_, hranges.tail.zones hz, ?_⟩
  · rw [livePages_perm hperm, livePages_cons] at hok
    have hcut : (rangePages (base, n) ∪ livePages (B.live.erase (base, n))) \
        Ico base (base + n) = livePages (B.live.erase (base, n)) :=
      union_sdiff_cancel_left hranges.disjoint
    rwa [hcut] at hok
  · rw [hz.zonePages]
    exact h.total

/-- A call changes the counter by the pages it moves, apart from the rest of a block. -/
theorem PageStep.ok (h : B.Ok total) (hstep : PageStep B call B') (hlegal : call.Legal B) :
    B'.Ok total ∧ (call.PowerOfTwo → B.mem.usedPages = BitVec.ofNat 32 (liveCount B.live) →
      B'.mem.usedPages = BitVec.ofNat 32 (liveCount B'.live)) := by
  cases hstep with
  | @allocNone c c' live n hrun =>
    have hsame := (wp_allocPages (Q := fun r c'' => r = none → c'' = c) h.ok hlegal.1 hlegal.2
      (fun _ => rfl) nofun).of_call hrun rfl
    subst hsame
    exact ⟨h, fun _ hused => hused⟩
  | @allocSome c c' live n page hrun =>
    obtain ⟨s', rest, hnew, hpow, rfl⟩ := (wp_allocPages
      (Q := fun r c'' => ∀ page, r = some page → ∃ s' rest,
        Handed (livePages live) c.pmm n page s' ∧ ((∃ k, n = 2 ^ k) ↔ rest = 0) ∧
        c'' = ⟨s', c.usedPages - BitVec.ofNat 32 rest + BitVec.ofNat 32 n⟩)
      h.ok hlegal.1 hlegal.2 (nofun)
      fun page s' rest hnew _ hpow _ hr => by
        cases hr
        exact ⟨s', rest, hnew, hpow, rfl⟩).of_call hrun page rfl
    refine ⟨Book.Ok.alloc h hlegal.1 hlegal.2 hnew, fun htwo hused => ?_⟩
    have hzero := hpow.mp htwo
    rw [hzero, BitVec.sub_zero, hused, ← BitVec.ofNat_add, Nat.add_comm]
    rfl
  | @free c c' live base n hrun =>
    obtain ⟨s', hok, hz, rfl⟩ := (wp_freePages
      (Q := fun _ c'' => ∃ s', BuddyOk (livePages live \ Ico base (base + n)) s' ∧
        SameZones c.pmm s' ∧ c'' = ⟨s', c.usedPages - BitVec.ofNat 32 n⟩)
      (h.span hlegal) (h.ranges.size _ hlegal).1 (h.ranges.size _ hlegal).2
      fun s' hok hz => ⟨s', hok, hz, rfl⟩).of_call hrun
    refine ⟨Book.Ok.free h hlegal hok hz, fun _ hused => ?_⟩
    have hsum : liveCount live = n + liveCount (live.erase (base, n)) := by
      rw [liveCount, ((List.perm_cons_erase hlegal).map Prod.snd).sum_eq]
      rfl
    rw [hused, hsum, BitVec.ofNat_add, BitVec.add_comm, BitVec.add_sub_cancel]

theorem PageStep.exists (h : B.Ok total) (hlegal : call.Legal B) : ∃ B', PageStep B call B' := by
  cases call with
  | alloc n =>
    obtain ⟨r, c', hc, -⟩ := (wp_allocPages (Q := fun _ _ => True) h.ok hlegal.1 hlegal.2 trivial
      fun _ _ _ _ _ _ => trivial).returns_done
    cases r with
    | none => exact ⟨_, .allocNone hc⟩
    | some page => exact ⟨_, .allocSome hc⟩
  | free base n =>
    obtain ⟨_, c', hc, -⟩ := (wp_freePages (Q := fun _ _ => True) (h.span hlegal)
      (h.ranges.size _ hlegal).1 (h.ranges.size _ hlegal).2 fun _ _ _ => trivial).returns_done
    exact ⟨_, .free hc⟩

/-- The memory after boot. -/
theorem Booted.book {t u : Pmm} {zones : List (ℕ × ℕ)} (h : Booted s)
    (hinit : buddyInit s = .done () t) (hzones : Run ZoneStep t zones u) :
    Book.Ok u.nrFreePages ⟨⟨u, 0⟩, []⟩ := by
  have hok : BuddyOk ∅ u := by
    refine hzones.invariant (fun s z s' hs hz => ?_) (h.buddyOk hinit)
    have hstep : PmmStep ⟨s, ∅⟩ (.initMemmap z.1 z.2) ⟨s', ∅⟩ := .initMemmap hz.1
    exact hstep.ok hs hz.2 trivial
  have hcard := hok.nrFreePages_add_card
  have hnil : ∀ r : ℕ × ℕ, r ∉ ([] : List (ℕ × ℕ)) := fun _ => List.not_mem_nil
  exact ⟨hok, ⟨fun r hr => absurd hr (hnil r), fun r hr => absurd hr (hnil r), .nil⟩, hcard.symm⟩

theorem Book.Ok.le_npage (h : B.Ok total) : total ≤ B.mem.pmm.npage := by
  rw [← h.total, ← card_range B.mem.pmm.npage]
  exact card_filter_le _ _

/-- A request that is served. -/
theorem Book.Ok.served {page : ℕ} {c : Counted} (h : B.Ok total) (hpos : 1 ≤ n) (hn : n ≤ 1024)
    (hrun : allocPages n B.mem = .done (some page) c) :
    c.pmm.nrFreePages + n = B.mem.pmm.nrFreePages ∧
      (c.usedPages = B.mem.usedPages + BitVec.ofNat 32 n ↔ ∃ k, n = 2 ^ k) := by
  have hfree := h.nrFreePages
  have hspec := wp_allocPages (H := True) (E := fun _ _ => True)
    (Q := fun r c => r.isSome → c.pmm.nrFreePages + n = B.mem.pmm.nrFreePages ∧
      (c.usedPages = B.mem.usedPages + BitVec.ofNat 32 n ↔ ∃ k, n = 2 ^ k))
    h.ok hpos hn (nofun) fun page s' rest hnew hlt hpow _ => ?_
  · exact hspec.of_call hrun rfl
  · have hfree' := (h.alloc (u := 0) hpos hn hnew).nrFreePages
    have hcount : liveCount ((page, n) :: B.live) = n + liveCount B.live := rfl
    dsimp only at hfree' ⊢
    refine ⟨by omega, ?_⟩
    -- the counter is right if the pages given back are none
    rw [hpow, BitVec.add_left_inj, BitVec.sub_eq_iff_eq_add]
    have hrest : rest < 2 ^ 32 := hlt.trans (by decide)
    rw [BitVec.self_eq_add_right, ← BitVec.toNat_inj, BitVec.toNat_ofNat, Nat.mod_eq_of_lt hrest]
    rfl

/-- Every legal call returns. A request that is served takes `n` pages from the free ones,
and counts `n` more pages as used exactly if `n` is a power of two; after a run in which all
requests are powers of two, the used and the free pages are all pages. -/
theorem page_accounting {t u : Pmm} {zones : List (ℕ × ℕ)} {calls : List PageCall}
    (hboot : Booted s) (hinit : buddyInit s = .done () t) (hzones : Run ZoneStep t zones u)
    (hnpage : u.npage < 2 ^ 32)
    (hrun : Run (fun B c B' => PageStep B c B' ∧ c.Legal B) ⟨⟨u, 0⟩, []⟩ calls B) :
    (∀ c : PageCall, c.Legal B → ∃ B', PageStep B c B') ∧
    (∀ n page c, 1 ≤ n → n ≤ 1024 → allocPages n B.mem = .done (some page) c →
      c.pmm.nrFreePages + n = B.mem.pmm.nrFreePages ∧
      (c.usedPages = B.mem.usedPages + BitVec.ofNat 32 n ↔ ∃ k, n = 2 ^ k)) ∧
    ((∀ c ∈ calls, c.PowerOfTwo) → B.mem.nrUsedPages + B.mem.pmm.nrFreePages = u.nrFreePages) := by
  have hstart := hboot.book hinit hzones
  have hok : B.Ok u.nrFreePages :=
    hrun.invariant (fun _ _ _ h hs => (hs.1.ok h hs.2).1) hstart
  refine ⟨fun c => PageStep.exists hok, fun n page c => hok.served, fun htwo => ?_⟩
  have hused : B.mem.usedPages = BitVec.ofNat 32 (liveCount B.live) :=
    (hrun.invariant_of_mem (I := fun B => B.Ok u.nrFreePages ∧
        B.mem.usedPages = BitVec.ofNat 32 (liveCount B.live))
      (fun _ c _ hc h hs => (hs.1.ok h.1 hs.2).imp_right fun hnext => hnext (htwo c hc) h.2)
      ⟨hstart, rfl⟩).2
  have hle := hstart.le_npage
  have hfree := hok.nrFreePages
  dsimp only at hle
  rw [Counted.nrUsedPages, hused, BitVec.toNat_ofNat]
  omega

/-- A zone of eight pages, of which four are allocated, and then two. -/
theorem page_accounting_eight : ∃ t u B, buddyInit tenPages = .done () t ∧
    Run ZoneStep t [(0, 8)] u ∧
    Run (fun B c B' => PageStep B c B' ∧ c.Legal B) ⟨⟨u, 0⟩, []⟩ [.alloc 4, .alloc 2] B ∧
    u.nrFreePages = 8 ∧ B.mem.nrUsedPages = 6 ∧ B.mem.pmm.nrFreePages = 2 := by
  have hrun : ∃ t u B, buddyInit tenPages = .done () t ∧ Run ZoneStep t [(0, 8)] u ∧
      Run (fun B c B' => PageStep B c B' ∧ c.Legal B) ⟨⟨u, 0⟩, []⟩ [.alloc 4, .alloc 2] B ∧
      u.npage = 10 ∧ u.nrFreePages = 8 ∧ B.mem.pmm.nrFreePages = 2 :=
    ⟨_, _, _, rfl, .cons ⟨rfl, by decide⟩ (.nil _), .cons ⟨.allocSome rfl, by decide, by decide⟩
        (.cons ⟨.allocSome rfl, by decide, by decide⟩ (.nil _)), rfl, by decide, by decide⟩
  obtain ⟨t, u, B, hinit, hzones, hrun, hnpage, hfree, hfree'⟩ := hrun
  have htwo : ∀ c ∈ [PageCall.alloc 4, .alloc 2], c.PowerOfTwo := by
    intro c hc
    simp only [List.mem_cons, List.not_mem_nil, or_false] at hc
    rcases hc with rfl | rfl
    · exact ⟨2, rfl⟩
    · exact ⟨1, rfl⟩
  have hsum := (page_accounting booted_tenPages hinit hzones (by omega) hrun).2.2 htwo
  exact ⟨t, u, B, hinit, hzones, hrun, hfree, by omega, hfree'⟩

/-- Five pages of a zone of eight are allocated and freed again: all pages are free, and the
counter of the used ones has gone below zero. -/
theorem used_pages_wraps : ∃ t u B, Booted tenPages ∧ buddyInit tenPages = .done () t ∧
    Run ZoneStep t [(0, 8)] u ∧
    Run (fun B c B' => PageStep B c B' ∧ c.Legal B) ⟨⟨u, 0⟩, []⟩ [.alloc 5, .free 0 5] B ∧
    u.nrFreePages = 8 ∧ B.mem.pmm.nrFreePages = 8 ∧ B.mem.nrUsedPages = 2 ^ 32 - 3 :=
  ⟨_, _, _, booted_tenPages, rfl, .cons ⟨rfl, by decide⟩ (.nil _),
    .cons ⟨.allocSome rfl, by decide, by decide⟩
      (.cons ⟨.free rfl, .head _⟩ (.nil _)), by decide, by decide, by decide⟩

end Ucore.Buddy
