import Mathlib.Algebra.BigOperators.Group.List.Basic
import Mathlib.Algebra.GroupWithZero.Nat

/-!
# Queues of differences

A queue of events keeps for each event only the time that passes between the event before it
and itself. The time at which an event is due is the sum of the differences up to it. An event
is put in or taken out by correcting one neighbour, and time passes for all of them by
changing the first.
-/

namespace Ucore

open List Option

variable {α : Type} [DecidableEq α] {d d' : α → ℕ} {l pre post : List α} {x k : α} {c r : ℕ}

/-- The sum of the differences from the head of a queue up to and including an event. -/
def due (d : α → ℕ) : List α → α → Option ℕ
  | [], _ => none
  | a :: l, k => if a = k then some (d a) else (due d l k).map (d a + ·)

theorem due_cons_self : due d (k :: l) k = some (d k) := if_pos rfl

theorem due_cons_of_ne (hk : x ≠ k) : due d (x :: l) k = (due d l k).map (d x + ·) := if_neg hk

theorem due_eq_none : due d l k = none ↔ k ∉ l := by
  induction l with
  | nil => simp [due]
  | cons a l ih =>
    rcases eq_or_ne a k with rfl | ha
    · simp [due]
    · rw [due_cons_of_ne ha, map_eq_none_iff, ih, mem_cons, not_or]
      exact ⟨fun h => ⟨Ne.symm ha, h⟩, fun h => h.2⟩

theorem due_congr (h : ∀ a ∈ l, d a = d' a) : due d l k = due d' l k := by
  induction l with
  | nil => rfl
  | cons a l ih =>
    rw [due, due, h a (.head _), ih fun b hb => h b (mem_cons_of_mem a hb)]

theorem due_append_of_mem (hk : k ∈ pre) : due d (pre ++ post) k = due d pre k := by
  induction pre with
  | nil => cases hk
  | cons a pre ih =>
    rw [cons_append]
    by_cases ha : a = k
    · rw [due, due, if_pos ha, if_pos ha]
    · have hmem := (mem_cons.mp hk).resolve_left (Ne.symm ha)
      rw [due_cons_of_ne ha, due_cons_of_ne ha, ih hmem]

theorem due_append_of_notMem (hk : k ∉ pre) :
    due d (pre ++ post) k = (due d post k).map ((pre.map d).sum + ·) := by
  induction pre with
  | nil =>
    cases hdue : due d post k <;> simp [hdue]
  | cons a pre ih =>
    obtain ⟨ha, hpre⟩ := not_or.mp (mt mem_cons.mpr hk)
    rw [cons_append, due_cons_of_ne (Ne.symm ha), ih hpre, Option.map_map]
    congr 1
    funext r
    simp only [Function.comp_apply, map_cons, sum_cons]
    omega

/-- Where the time of an event comes from. -/
theorem due_self (hx : x ∉ pre) : due d (pre ++ x :: post) x = some ((pre.map d).sum + d x) := by
  rw [due_append_of_notMem hx, due_cons_self, map_some]

/-! ## Events come and go -/

/-- The first event of a list gives up `c` of its difference. -/
def Shifted (c : ℕ) (d d' : α → ℕ) : List α → Prop
  | [] => True
  | a :: l => d a = c + d' a ∧ ∀ b ∈ l, d' b = d b

omit [DecidableEq α] in
theorem Shifted.congr {e : α → ℕ} (h : Shifted c d d' l) (hd : ∀ a ∈ l, e a = d a) :
    Shifted c e d' l := by
  cases l with
  | nil => trivial
  | cons a l =>
    refine ⟨(hd a (.head _)).trans h.1, fun b hb => ?_⟩
    rw [h.2 b hb, hd b (mem_cons_of_mem a hb)]

theorem Shifted.due (h : Shifted c d d' l) : due d l k = (due d' l k).map (c + ·) := by
  cases l with
  | nil => rfl
  | cons a l =>
    obtain ⟨ha, hl⟩ := h
    rcases eq_or_ne a k with rfl | hk
    · rw [due_cons_self, due_cons_self, map_some, ha]
    · rw [due_cons_of_ne hk, due_cons_of_ne hk, due_congr hl, Option.map_map, ha]
      congr 1
      funext r
      exact Nat.add_assoc c (d' a) r

/-- An event among others takes its difference from the one behind it, so that none of the
others is due at another time. -/
theorem due_splice (hpre : ∀ a ∈ pre, d' a = d a) (hpost : Shifted (d' x) d d' post)
    (hk : k ≠ x) : due d' (pre ++ x :: post) k = due d (pre ++ post) k := by
  by_cases hmem : k ∈ pre
  · rw [due_append_of_mem hmem, due_append_of_mem hmem, due_congr hpre]
  · rw [due_append_of_notMem hmem, due_append_of_notMem hmem, due_cons_of_ne (Ne.symm hk),
      hpost.due, map_congr_left hpre]

/-! ## Time passes -/

/-- Events at the head without a difference of their own are due at once. -/
theorem due_zeros (hzero : ∀ a ∈ pre, d a = 0) (hk : k ∈ pre) : due d (pre ++ post) k = some 0 := by
  induction pre with
  | nil => cases hk
  | cons a pre ih =>
    rw [cons_append]
    by_cases ha : a = k
    · rw [ha, due_cons_self, hzero k hk]
    · rw [due_cons_of_ne ha, hzero a (.head _), ih (fun b hb => hzero b (mem_cons_of_mem a hb))
          ((mem_cons.mp hk).resolve_left (Ne.symm ha)), map_some]

/-- They delay nobody behind them. -/
theorem due_drop_zeros (hzero : ∀ a ∈ pre, d a = 0) (hk : k ∉ pre) :
    due d (pre ++ post) k = due d post k := by
  have hsum : (pre.map d).sum = 0 := by
    apply sum_eq_zero
    intro r hr
    obtain ⟨a, ha, rfl⟩ := mem_map.mp hr
    exact hzero a ha
  rw [due_append_of_notMem hk, hsum]
  cases due d post k <;> simp

/-- If the first event is not due at once, then none is. -/
theorem due_pos (hhead : ∀ a ∈ l.head?, d a ≠ 0) (h : due d l k = some r) : 0 < r := by
  cases l with
  | nil => cases h
  | cons a l =>
    have ha : d a ≠ 0 := hhead a rfl
    rcases eq_or_ne a k with rfl | hk
    · rw [due_cons_self, Option.some.injEq] at h
      omega
    · rw [due_cons_of_ne hk, map_eq_some_iff] at h
      omega

/-- The events that are due at once are those at the head without a difference. -/
theorem filter_due_zero (hnodup : (pre ++ post).Nodup) (hzero : ∀ a ∈ pre, d a = 0)
    (hhead : ∀ a ∈ post.head?, d a ≠ 0) :
    (pre ++ post).filter (fun k => due d (pre ++ post) k = some 0) = pre := by
  have hdisjoint := (nodup_append.mp hnodup).2.2
  rw [filter_append, filter_eq_self.mpr, filter_eq_nil_iff.mpr, append_nil]
  · intro k hk
    have hpre : k ∉ pre := fun hmem => hdisjoint k hmem k hk rfl
    rw [due_drop_zeros hzero hpre, decide_eq_true_eq]
    exact fun hdue => absurd (due_pos hhead hdue) (Nat.lt_irrefl 0)
  · intro k hk
    rw [due_zeros hzero hk, decide_eq_true_eq]

end Ucore
