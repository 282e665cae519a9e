import Mathlib.Data.Finset.Card
import Mathlib.Algebra.Order.Group.Int

/-!
# A ledger of pages

Pages are allocated, named by slots that they count, made into tables of slots, and freed.
`Ledger` says that a page counts the slots that name it, and that every page in use has a
reason to be: it is pinned, it is a table, it is named, or it is in the hand of the code that
has just allocated it. What each operation does to the other pages is nothing.
-/

namespace Ucore

open Function List Finset

variable {S F : Type}

/-! ## Counting references

Slots name objects, and an object counts the slots that name it. -/

section Counts

variable {names : S → Option F} {f : F} {x : S} {v : Option F} {n : ℕ}

/-- Exactly `n` slots name `f`. -/
def Counts (names : S → Option F) (f : F) (n : ℕ) : Prop :=
  ∃ R : Finset S, (∀ x, x ∈ R ↔ names x = some f) ∧ R.card = n

theorem Counts.unique {m : ℕ} (h : Counts names f n) (h' : Counts names f m) : n = m := by
  obtain ⟨R, hR, rfl⟩ := h
  obtain ⟨R', hR', rfl⟩ := h'
  have heq : R = R' := Finset.ext fun x => (hR x).trans (hR' x).symm
  rw [heq]

theorem Counts.congr {names' : S → Option F} (h : Counts names f n)
    (hnames : ∀ x, names' x = some f ↔ names x = some f) : Counts names' f n := by
  obtain ⟨R, hR, hn⟩ := h
  exact ⟨R, fun x => (hR x).trans (hnames x).symm, hn⟩

theorem counts_zero : Counts names f 0 ↔ ∀ x, names x ≠ some f := by
  constructor
  · rintro ⟨R, hR, hcard⟩ x hx
    rw [card_eq_zero] at hcard
    subst hcard
    exact absurd ((hR x).mpr hx) (notMem_empty x)
  · intro h
    exact ⟨∅, fun x => ⟨fun hx => absurd hx (notMem_empty x), fun hx => absurd hx (h x)⟩, rfl⟩

/-- A slot that names an object is counted. -/
theorem Counts.pos (h : Counts names f n) (hx : names x = some f) : 0 < n := by
  refine Nat.pos_of_ne_zero fun hzero => ?_
  subst hzero
  exact counts_zero.mp h x hx

theorem Counts.exists_name (h : Counts names f n) (hn : 0 < n) : ∃ x, names x = some f := by
  obtain ⟨R, hR, rfl⟩ := h
  obtain ⟨x, hx⟩ := card_pos.mp hn
  exact ⟨x, (hR x).mp hx⟩

variable [DecidableEq S]

/-- A slot that names other objects before and after it is written. -/
theorem update_eq_some_iff (hx : names x ≠ some f) (hv : v ≠ some f) (y : S) :
    update names x v y = some f ↔ names y = some f := by
  rcases eq_or_ne y x with rfl | hy
  · rw [update_self]
    exact ⟨fun heq => absurd heq hv, fun heq => absurd heq hx⟩
  · rw [update_of_ne hy]

theorem Counts.update_of_ne (h : Counts names f n) (hx : names x ≠ some f) (hv : v ≠ some f) :
    Counts (update names x v) f n :=
  h.congr (update_eq_some_iff hx hv)

/-- A slot gets a name. -/
theorem Counts.update_self (h : Counts names f n) (hx : names x ≠ some f) :
    Counts (update names x (some f)) f (n + 1) := by
  obtain ⟨R, hR, rfl⟩ := h
  refine ⟨insert x R, fun y => ?_, card_insert_of_notMem (mt (hR x).mp hx)⟩
  rcases eq_or_ne y x with rfl | hy
  · simp
  · rw [mem_insert, hR, Function.update_of_ne hy]
    exact ⟨fun h => h.resolve_left hy, Or.inr⟩

/-- A slot loses its name. -/
theorem Counts.update_drop (h : Counts names f n) (hx : names x = some f) (hv : v ≠ some f) :
    ∃ m, n = m + 1 ∧ Counts (update names x v) f m := by
  obtain ⟨R, hR, rfl⟩ := h
  have hmem := (hR x).mpr hx
  refine ⟨(R.erase x).card, (card_erase_add_one hmem).symm, R.erase x, fun y => ?_, rfl⟩
  rcases eq_or_ne y x with rfl | hy
  · simp [hv]
  · rw [mem_erase, hR, Function.update_of_ne hy]
    exact ⟨fun h => h.2, fun h => ⟨hy, h⟩⟩

end Counts

/-! ## Pages -/

/-- What holds of one page. -/
structure Accounted (names : S → Option F) (f : F) (live hand table : Prop) (ref : ℤ)
    (pinned : Bool) : Prop where
  table_live : table → live
  named : ∀ {x}, names x = some f → live ∧ ¬table ∧ ¬hand
  hand_live : hand → live ∧ ¬table
  counts : ¬table → ∃ n : ℕ, Counts names f n ∧ ref = n
  pinned_live : pinned = true → live
  owned : live → pinned = false → hand ∨ table ∨ ∃ x, names x = some f

theorem Accounted.congr {names names' : S → Option F} {f : F}
    {live hand table live' hand' table' : Prop} {ref ref' : ℤ} {pinned pinned' : Bool}
    (h : Accounted names f live hand table ref pinned) (hlive : live' ↔ live)
    (hhand : hand' ↔ hand) (htable : table' ↔ table) (href : ref' = ref)
    (hpinned : pinned' = pinned) (hnames : ∀ x, names' x = some f ↔ names x = some f) :
    Accounted names' f live' hand' table' ref' pinned' := by
  rw [propext hlive, propext hhand, propext htable, href, hpinned]
  refine { h with
    named := fun hx => h.named ((hnames _).mp hx)
    counts := fun ht => ?_
    owned := fun hl hp => ?_ }
  · obtain ⟨n, hn, href⟩ := h.counts ht
    exact ⟨n, hn.congr hnames, href⟩
  · rw [exists_congr hnames]
    exact h.owned hl hp

variable [DecidableEq F]

structure Ledger (live : List F) (hand : Finset F) (table : F → Prop) (names : S → Option F)
    (ref : F → ℤ) (pinned : F → Bool) : Prop where
  nodup : live.Nodup
  page : ∀ f, Accounted names f (f ∈ live) (f ∈ hand) (table f) (ref f) (pinned f)

namespace Ledger

variable {live : List F} {hand : Finset F} {table : F → Prop} {names : S → Option F} {ref : F → ℤ}
  {pinned : F → Bool} {f t : F} {x : S}

/-- A new page is in the hand. -/
theorem alloc (h : Ledger live hand table names ref pinned) (hf : f ∉ live) :
    Ledger (f :: live) (insert f hand) table names ref pinned := by
  refine ⟨nodup_cons.mpr ⟨hf, h.nodup⟩, fun g => ?_⟩
  have hg := h.page g
  rcases eq_or_ne g f with rfl | heq
  · exact ⟨fun _ => mem_cons_self, fun hx => absurd (hg.named hx).1 hf,
      fun _ => ⟨.head _, fun ht => hf (hg.table_live ht)⟩, hg.counts,
      fun _ => mem_cons_self, fun _ _ => .inl (mem_insert_self _ _)⟩
  · exact hg.congr (by simp [heq]) (by simp [heq]) Iff.rfl rfl rfl fun _ => Iff.rfl

/-- A page that no slot names goes out of use, whatever it was before. -/
theorem retire (hnodup : live.Nodup) (hpage : ∀ g, g ≠ f →
      Accounted names g (g ∈ live) (g ∈ hand) (table g) (ref g) (pinned g))
    (hnames : ∀ x, names x ≠ some f) (htable : ¬table f) :
    Ledger (live.erase f) (hand.erase f) table names (update ref f 0) (update pinned f false) := by
  refine ⟨hnodup.erase f, fun g => ?_⟩
  rcases eq_or_ne g f with rfl | heq
  · exact ⟨fun ht => absurd ht htable, fun hx => absurd hx (hnames _),
      fun hmem => absurd hmem (notMem_erase _ _),
      fun _ => ⟨0, counts_zero.mpr hnames, update_self ..⟩, fun hp => by simp at hp,
      fun hmem => absurd hmem hnodup.not_mem_erase⟩
  · exact (hpage g heq).congr (mem_erase_of_ne heq) (by simp [heq]) Iff.rfl
      (update_of_ne heq ..) (update_of_ne heq ..) fun _ => Iff.rfl

section

variable (h : Ledger live hand table names ref pinned)
include h

/-- A page in use is pinned. -/
theorem pin (hf : f ∈ live) : Ledger live hand table names ref (update pinned f true) := by
  refine ⟨h.nodup, fun g => ?_⟩
  have hg := h.page g
  rcases eq_or_ne g f with rfl | heq
  · exact { hg with pinned_live := fun _ => hf, owned := fun _ hp => by simp at hp }
  · exact hg.congr Iff.rfl Iff.rfl Iff.rfl rfl (update_of_ne heq ..) fun _ => Iff.rfl

/-- A page from the hand becomes a table. -/
theorem addTable {ref' : F → ℤ} (ht : t ∈ hand) (href : ∀ g, g ≠ t → ref' g = ref g) :
    Ledger live (hand.erase t) (fun g => g = t ∨ table g) names ref' pinned := by
  refine ⟨h.nodup, fun g => ?_⟩
  have hg := h.page g
  rcases eq_or_ne g t with rfl | heq
  · have hlive := (hg.hand_live ht).1
    exact ⟨fun _ => hlive, fun hx => absurd ht (hg.named hx).2.2,
      fun hmem => absurd hmem (notMem_erase _ _), fun hnot => absurd (.inl rfl) hnot,
      fun _ => hlive, fun _ _ => .inr (.inl (.inl rfl))⟩
  · exact hg.congr Iff.rfl (by simp [heq]) (by simp [heq]) (href g heq) rfl fun _ => Iff.rfl

/-- A table goes out of use. -/
theorem dropTable (ht : table t) :
    Ledger (live.erase t) hand (fun g => g ≠ t ∧ table g) names (update ref t 0)
      (update pinned t false) := by
  have hnot : t ∉ hand := fun hmem => ((h.page t).hand_live hmem).2 ht
  rw [← erase_eq_of_notMem hnot]
  refine retire h.nodup (fun g heq => ?_) (fun x hx => ((h.page t).named hx).2.1 ht)
    fun hgone => hgone.1 rfl
  exact (h.page g).congr Iff.rfl Iff.rfl (by simp [heq]) rfl rfl fun _ => Iff.rfl

end

variable [DecidableEq S]

section

variable (h : Ledger live hand table names ref pinned)
include h

/-- An empty slot gets a page that is in use. -/
theorem name (hx : names x = none) (hf : f ∈ live) (htable : ¬table f) :
    Ledger live (hand.erase f) table (update names x (some f))
      (update ref f (ref f + 1)) pinned := by
  refine ⟨h.nodup, fun g => ?_⟩
  have hg := h.page g
  rcases eq_or_ne g f with rfl | heq
  · obtain ⟨n, hn, href⟩ := hg.counts htable
    have hone := hn.update_self (by rw [hx]; simp)
    refine ⟨hg.table_live, fun _ => ⟨hf, htable, notMem_erase _ _⟩,
      fun hmem => absurd hmem (notMem_erase _ _), fun _ => ⟨n + 1, hone, ?_⟩,
      hg.pinned_live, fun _ _ => .inr (.inr ⟨x, update_self ..⟩)⟩
    rw [update_self, href]
    rfl
  · refine hg.congr Iff.rfl (by simp [heq]) Iff.rfl (update_of_ne heq ..) rfl
      (update_eq_some_iff (by rw [hx]; simp) ?_)
    exact fun hfg => heq (Option.some.inj hfg).symm

/-- A slot is cleared. A page that this was the last slot of is pinned. -/
theorem unname (hx : names x = some f) (hlast : ref f - 1 = 0 → pinned f = true) :
    Ledger live hand table (update names x none) (update ref f (ref f - 1)) pinned := by
  refine ⟨h.nodup, fun g => ?_⟩
  have hg := h.page g
  rcases eq_or_ne g f with rfl | heq
  · have hself := hg.named hx
    obtain ⟨n, hn, href⟩ := hg.counts hself.2.1
    obtain ⟨m, rfl, hm⟩ := hn.update_drop hx (v := none) (by simp)
    refine { hg with
      named := fun _ => hself
      counts := fun _ => ⟨m, hm, ?_⟩
      owned := fun _ hpin =>
        .inr (.inr (hm.exists_name (Nat.pos_of_ne_zero fun hzero => ?_))) }
    · rw [update_self]
      omega
    · rw [hlast (by omega)] at hpin
      cases hpin
  · refine hg.congr Iff.rfl Iff.rfl Iff.rfl (update_of_ne heq ..) rfl
      (update_eq_some_iff ?_ (by simp))
    rw [hx]
    exact fun hfg => heq (Option.some.inj hfg).symm

/-- The last slot of a page is cleared, and the page goes out of use. -/
theorem unname_last (hx : names x = some f) (hlast : ref f - 1 = 0) :
    Ledger (live.erase f) hand table (update names x none)
      (update ref f 0) (update pinned f false) := by
  obtain ⟨-, htable, hnot⟩ := (h.page f).named hx
  obtain ⟨n, hn, href⟩ := (h.page f).counts htable
  obtain ⟨m, rfl, hm⟩ := hn.update_drop hx (v := none) (by simp)
  obtain rfl : m = 0 := by omega
  rw [← erase_eq_of_notMem hnot]
  refine retire h.nodup (fun g heq => ?_) (counts_zero.mp hm) htable
  refine (h.page g).congr Iff.rfl Iff.rfl Iff.rfl rfl rfl (update_eq_some_iff ?_ (by simp))
  rw [hx]
  exact fun hfg => heq (Option.some.inj hfg).symm

end

end Ledger

end Ucore
