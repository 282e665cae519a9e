import Mathlib.Order.Interval.Finset.Nat
import Ucore.Signal.Model

/-!
# Sets of signals

What `sigset_add`, `sigset_del` and the masks do, signal by signal, and which signal the loop of
`dequeue_signal` finds. A set of 64 bits has room for the signals 1 to 64; the loop looks at the
signals 1 to 63.
-/

namespace Ucore.Sync

open List BitVec

variable {set blocked a b : SigSet} {m n sign : ℕ} {signs : List ℕ}

theorem sigismember_or : sigismember (a ||| b) n = (sigismember a n || sigismember b n) := by
  unfold sigismember
  rw [getLsbD_or]

theorem sigismember_and_not :
    sigismember (a &&& ~~~b) n = (sigismember a n && !sigismember b n) := by
  unfold sigismember
  rw [getLsbD_and]
  by_cases hn : n - 1 < 64
  · simp [hn]
  · rw [getLsbD_of_ge a _ (by omega)]
    rfl

theorem sigismember_zero : sigismember 0 n = false := getLsbD_zero

theorem sigismember_shift (hm : m ≤ 64) :
    sigismember (1#64 <<< (m - 1)) n = decide (n - 1 = m - 1) := by
  unfold sigismember
  rw [← twoPow_eq]
  by_cases heq : n - 1 = m - 1
  · simp [heq]
    omega
  · have hne : ¬m - 1 = n - 1 := fun h => heq h.symm
    simp [heq, hne]

theorem sigismember_sigsetAdd (hm : m ≤ 64) :
    sigismember (sigsetAdd set m) n = (sigismember set n || decide (n - 1 = m - 1)) := by
  rw [sigsetAdd, sigismember_or, sigismember_shift hm]

theorem sigismember_sigsetDel (hm : m ≤ 64) :
    sigismember (sigsetDel set m) n = (sigismember set n && !decide (n - 1 = m - 1)) := by
  rw [sigsetDel, sigismember_and_not, sigismember_shift hm]

theorem sigismember_sigsetAdd_self (hm : m ≤ 64) : sigismember (sigsetAdd set m) m = true := by
  rw [sigismember_sigsetAdd hm]
  simp

theorem sigismember_sigsetDel_self (hm : m ≤ 64) : sigismember (sigsetDel set m) m = false := by
  rw [sigismember_sigsetDel hm]
  simp

/-- `sigset_del` only takes away. -/
theorem sigismember_of_sigsetDel (h : sigismember (sigsetDel set m) n = true) :
    sigismember set n = true := by
  rw [sigsetDel, sigismember_and_not, Bool.and_eq_true] at h
  exact h.1

theorem sigismember_of_foldl_sigsetDel (h : sigismember (signs.foldl sigsetDel set) n = true) :
    sigismember set n = true := by
  induction signs generalizing set with
  | nil => exact h
  | cons m signs ih => exact sigismember_of_sigsetDel (ih h)

/-- Taking out a signal that is not there. -/
theorem sigsetDel_eq_self (hm : m ≤ 64) (h : sigismember set m = false) :
    sigsetDel set m = set := by
  apply eq_of_getLsbD_eq
  intro i _
  have hbit := @sigismember_sigsetDel set m (i + 1) hm
  rw [sigismember, sigismember, Nat.add_sub_cancel] at hbit
  rw [hbit]
  by_cases hi : i = m - 1
  · rw [sigismember, ← hi] at h
    rw [h]
    rfl
  · simp [hi]

theorem foldl_sigsetDel_eq_self (hsigns : ∀ m ∈ signs, m ≤ 64)
    (h : ∀ m ∈ signs, sigismember set m = false) : signs.foldl sigsetDel set = set := by
  induction signs with
  | nil => rfl
  | cons m signs ih =>
    rw [foldl_cons, sigsetDel_eq_self (hsigns m (.head _)) (h m (.head _))]
    exact ih (fun n hn => hsigns n (.tail _ hn)) fun n hn => h n (.tail _ hn)

/-- Taking out other signals. -/
theorem sigismember_foldl_sigsetDel (hsigns : ∀ m ∈ signs, 1 ≤ m ∧ m ≤ 64) (hn : 1 ≤ n)
    (hnot : n ∉ signs) : sigismember (signs.foldl sigsetDel set) n = sigismember set n := by
  induction signs generalizing set with
  | nil => rfl
  | cons m signs ih =>
    obtain ⟨hne, hrest⟩ := not_or.mp (mt mem_cons.mpr hnot)
    obtain ⟨hpos, hle⟩ := hsigns m (.head _)
    rw [foldl_cons, ih (fun k hk => hsigns k (.tail _ hk)) hrest, sigismember_sigsetDel hle]
    have hbit : ¬n - 1 = m - 1 := by omega
    simp [hbit]

/-- The set is empty if none of the 64 signals is in it. -/
theorem sigSet_eq_zero (h : ∀ n, 1 ≤ n → n ≤ 64 → sigismember set n = false) : set = 0 := by
  apply eq_of_getLsbD_eq
  intro i hi
  have hbit := h (i + 1) (by omega) (by omega)
  rw [sigismember, Nat.add_sub_cancel] at hbit
  rw [hbit]
  exact getLsbD_zero.symm

theorem sigSet_ne_zero (h : sigismember set n = true) : set ≠ 0 := by
  intro hzero
  rw [hzero, sigismember_zero] at h
  exact absurd h Bool.false_ne_true

/-- Neither `SIGKILL` nor `SIGSTOP` is in the set. -/
def SigSet.Spares (set : SigSet) : Prop :=
  sigismember set sigKill = false ∧ sigismember set sigStop = false

instance : Decidable (SigSet.Spares set) :=
  inferInstanceAs (Decidable (sigismember set sigKill = false ∧ sigismember set sigStop = false))

theorem spares_zero : SigSet.Spares 0 := by decide

theorem spares_strip : (SigSet.strip set).Spares := by
  unfold SigSet.strip
  refine ⟨?_, sigismember_sigsetDel_self (by decide)⟩
  rw [sigismember_sigsetDel (by decide), sigismember_sigsetDel_self (by decide)]
  rfl

theorem SigSet.Spares.or (ha : a.Spares) (hb : b.Spares) : (a ||| b).Spares := by
  unfold SigSet.Spares
  rw [sigismember_or, sigismember_or, ha.1, hb.1, ha.2, hb.2]
  exact ⟨rfl, rfl⟩

theorem SigSet.Spares.and_not (ha : a.Spares) : (a &&& ~~~b).Spares := by
  unfold SigSet.Spares
  rw [sigismember_and_not, sigismember_and_not, ha.1, ha.2]
  exact ⟨rfl, rfl⟩

/-- Another signal may join. -/
theorem SigSet.Spares.add (ha : a.Spares) (hpos : 1 ≤ sign) (hsign : sign ≤ 64)
    (hkill : sign ≠ sigKill) (hstop : sign ≠ sigStop) : (sigsetAdd a sign).Spares := by
  unfold SigSet.Spares
  rw [sigismember_sigsetAdd hsign, sigismember_sigsetAdd hsign, ha.1, ha.2]
  unfold sigKill at hkill ⊢
  unfold sigStop at hstop ⊢
  refine ⟨?_, ?_⟩ <;> simp <;> omega

theorem spares_maskBy {how : ℤ} (hblocked : SigSet.Spares blocked) (hset : SigSet.Spares set) :
    (maskBy how blocked set).Spares := by
  unfold maskBy
  split
  · exact hblocked.or hset
  · split
    · exact hblocked.and_not
    · split
      · exact hset
      · exact hblocked

theorem spares_waitinfoMask : (waitinfoMask set).Spares := by
  have hnot : ∀ {a : SigSet} {n}, 1 ≤ n → n ≤ 64 → sigismember a n = true →
      sigismember (~~~a) n = false := by
    intro a n hpos hn hmem
    unfold sigismember at hmem ⊢
    rw [getLsbD_not, hmem]
    simp
  refine ⟨hnot (by decide) (by decide) ?_, hnot (by decide) (by decide) ?_⟩
  · rw [sigismember_sigsetAdd (by decide), sigismember_sigsetAdd_self (by decide)]
    rfl
  · exact sigismember_sigsetAdd_self (by decide)

/-! ## The loop of `dequeue_signal` -/

/-- The signal that the loop finds is in the set and not blocked. -/
theorem firstSign_some (h : firstSign blocked set = some sign) :
    1 ≤ sign ∧ sign ≤ 63 ∧ sigismember blocked sign = false ∧ sigismember set sign = true := by
  have hfound := List.find?_some h
  have hmem := mem_of_find?_eq_some h
  rw [mem_range'_1] at hmem
  rw [Bool.and_eq_true, Bool.not_eq_true'] at hfound
  exact ⟨hmem.1, by omega, hfound.1, hfound.2⟩

/-- If the loop finds nothing, the signals up to 63 are blocked or not in the set. -/
theorem firstSign_none (h : firstSign blocked set = none) (hpos : 1 ≤ sign) (hsign : sign ≤ 63)
    (hblocked : sigismember blocked sign = false) : sigismember set sign = false := by
  have hnot := List.find?_eq_none.mp h sign (mem_range'_1.mpr ⟨hpos, by omega⟩)
  rw [hblocked] at hnot
  simpa using hnot

/-- The signals that the loop may still find in a set. -/
def openSigns (blocked set : SigSet) : Finset ℕ :=
  (Finset.Icc 1 63).filter fun sign =>
    sigismember blocked sign = false ∧ sigismember set sign = true

theorem card_openSigns_le : (openSigns blocked set).card ≤ 63 :=
  (Finset.card_filter_le _ _).trans (by decide)

/-- A signal that was found and taken out is one less to find. -/
theorem card_openSigns_sigsetDel (h : firstSign blocked set = some sign) :
    (openSigns blocked (sigsetDel set sign)).card < (openSigns blocked set).card := by
  obtain ⟨hpos, hsign, hblocked, hmem⟩ := firstSign_some h
  refine Finset.card_lt_card ((Finset.ssubset_iff_of_subset fun n hn => ?_).mpr ⟨sign, ?_, ?_⟩)
  · obtain ⟨hrange, hopen, hset⟩ := Finset.mem_filter.mp hn
    exact Finset.mem_filter.mpr ⟨hrange, hopen, sigismember_of_sigsetDel hset⟩
  · exact Finset.mem_filter.mpr ⟨Finset.mem_Icc.mpr ⟨hpos, hsign⟩, hblocked, hmem⟩
  · intro hn
    rw [openSigns, Finset.mem_filter, sigismember_sigsetDel_self (by omega)] at hn
    exact absurd hn.2.2 Bool.false_ne_true

end Ucore.Sync
