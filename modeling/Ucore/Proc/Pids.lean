import Mathlib.Data.List.Count
import Mathlib.Data.List.Range
import Ucore.Lib.Runs

/-!
# Process ids

`get_pid` of `process/proc.c`, which looks for an id that no process on `proc_list` has. Its static
variables remember the last id and the next one that may be in use; between them it returns
without a look at the list. Past `MAX_PID` it begins again at `lcpu_count`, but at 1 if it gets
there inside the loop.
-/

namespace Ucore.Pids

open List

/-- `MAX_PROCESS`. -/
def maxProcess : ℕ := 4096

/-- `MAX_PID`. -/
def maxPid : ℕ := maxProcess * 2

/-- The ids on `proc_list` and the static variables of `get_pid`. -/
structure Table where
  pids : List ℕ
  lastPid : ℕ
  nextSafe : ℕ

/-- The ends of a walk through `proc_list`: the head of the list, or `goto repeat`. -/
inductive Scan where
  | stop (lastPid nextSafe : ℕ)
  | again (lastPid : ℕ)

/-- The loop of `get_pid`, from an entry of the list on. -/
def scan (lastPid nextSafe : ℕ) : List ℕ → Scan
  | [] => .stop lastPid nextSafe
  | pid :: rest =>
    if pid = lastPid then
      if nextSafe ≤ lastPid + 1 then .again (if maxPid ≤ lastPid + 1 then 1 else lastPid + 1)
      else scan (lastPid + 1) nextSafe rest
    else if lastPid < pid ∧ pid < nextSafe then scan lastPid pid rest
    else scan lastPid nextSafe rest

/-- `get_pid` from the label `repeat` on, for a number of walks; `none` if it is still walking. -/
def rescan (pids : List ℕ) : ℕ → ℕ → Option (ℕ × ℕ)
  | 0, _ => none
  | fuel + 1, lastPid =>
    match scan lastPid maxPid pids with
    | .stop lastPid nextSafe => some (lastPid, nextSafe)
    | .again lastPid => rescan pids fuel lastPid

/-- `get_pid` from the label `inside` on. -/
def inside (t : Table) (fuel lastPid : ℕ) : Option (ℕ × Table) :=
  (rescan t.pids fuel lastPid).map fun r => (r.1, { t with lastPid := r.1, nextSafe := r.2 })

/-- `get_pid`. -/
def getPid (lcpuCount fuel : ℕ) (t : Table) : Option (ℕ × Table) :=
  if maxPid ≤ t.lastPid + 1 then inside t fuel lcpuCount
  else if t.nextSafe ≤ t.lastPid + 1 then inside t fuel (t.lastPid + 1)
  else some (t.lastPid + 1, { t with lastPid := t.lastPid + 1 })

/-- The changes of `proc_list`. -/
inductive Change where
  /-- `do_fork` gives a new process its id and puts it at the head of the list. -/
  | fork
  /-- `do_wait` takes a process out of the list. -/
  | reap (pid : ℕ)

def Step (lcpuCount : ℕ) (t : Table) : Change → Table → Prop
  | .fork, t' => t.pids.length < maxProcess ∧ ∃ pid u,
      getPid lcpuCount (2 * maxPid) t = some (pid, u) ∧ t' = { u with pids := pid :: u.pids }
  | .reap pid, t' => t' = { t with pids := t.pids.erase pid }

/-- The static variables before the first call. -/
def boot (pids : List ℕ) : Table := ⟨pids, maxPid, maxPid⟩

variable {lcpuCount fuel a f l n last next pid : ℕ} {pids pre rest : List ℕ} {t t' : Table}

/-! ## One walk -/

/-- An id is free, and no process has one between it and the next safe id. -/
def Clear (pids : List ℕ) (last next : ℕ) : Prop := ∀ p ∈ pids, p < last ∨ last < p ∧ next ≤ p

theorem Clear.notMem (h : Clear pids last next) : last ∉ pids := fun hmem => by
  have := h last hmem
  omega

/-- All ids of a range are in use. -/
def Taken (pids : List ℕ) (a b : ℕ) : Prop := ∀ q, a ≤ q → q < b → q ∈ pids

theorem Taken.trans {b c : ℕ} (h : Taken pids a b) (h' : Taken pids b c) : Taken pids a c := by
  intro q hq hqc
  by_cases hqb : q < b
  · exact h q hq hqb
  · exact h' q (by omega) hqc

theorem Taken.le_free (h : Taken pids a l) (hf : f ∉ pids) (ha : a ≤ f) : l ≤ f := by
  by_contra hlt
  exact hf (h f ha (by omega))

/-- What a walk has found out when it ends. -/
def Scan.Sound (pids : List ℕ) (last next : ℕ) : Scan → Prop
  | .stop l n => Clear pids l n ∧ last ≤ l ∧ Taken pids last l ∧ (last < next → l < next)
  | .again l' => ∃ l, last < l ∧ Taken pids last l ∧ (last < next → l ≤ next) ∧
      l' = if maxPid ≤ l then 1 else l

/-- What is found out from a later id on is found out from an earlier one. -/
theorem Scan.Sound.mono {r : Scan} {last' next' : ℕ} (h : r.Sound pids last' next')
    (hlast : last ≤ last') (htaken : Taken pids last last') (hnext : next' ≤ next)
    (hlt : last < next → last' < next') : r.Sound pids last next := by
  cases r with
  | stop l n =>
    obtain ⟨hclear, hle, hl, hlt'⟩ := h
    exact ⟨hclear, by omega, htaken.trans hl, fun hlast => by have := hlt' (hlt hlast); omega⟩
  | again l' =>
    obtain ⟨l, hle, hl, hlt', hl'⟩ := h
    exact ⟨l, by omega, htaken.trans hl, fun hlast => by have := hlt' (hlt hlast); omega, hl'⟩

/-- The walk keeps the entries behind it clear of the ids from the last one to the next safe
one. -/
theorem scan_sound (hpids : pids = pre ++ rest) (hpre : Clear pre last next) :
    (scan last next rest).Sound pids last next := by
  induction rest generalizing pre last next with
  | nil =>
    rw [append_nil] at hpids
    subst hpids
    exact ⟨hpre, le_rfl, fun q hq hlt => absurd hlt (by omega), id⟩
  | cons pid rest ih =>
    have hgo : ∀ last' next', (∀ p ∈ pre, p < last' ∨ last' < p ∧ next' ≤ p) →
        (pid < last' ∨ last' < pid ∧ next' ≤ pid) →
        (scan last' next' rest).Sound pids last' next' := by
      intro last' next' hold hnew
      have hpids' : pids = (pre ++ [pid]) ++ rest := by simp [hpids]
      refine ih hpids' fun p hp => ?_
      rcases mem_append.mp hp with hp | hp
      · exact hold p hp
      · rwa [mem_singleton.mp hp]
    have hself : pid = last → Taken pids last (last + 1) := by
      rintro rfl q hq hlt
      obtain rfl : q = pid := by omega
      simp [hpids]
    rw [scan]
    by_cases heq : pid = last
    · rw [if_pos heq]
      by_cases hnext : next ≤ last + 1
      · rw [if_pos hnext]
        exact ⟨last + 1, by omega, hself heq, by omega, rfl⟩
      · rw [if_neg hnext]
        exact (hgo (last + 1) next (fun p hp => by have := hpre p hp; omega) (by omega)).mono
          (by omega) (hself heq) le_rfl (by omega)
    · rw [if_neg heq]
      have hnone : Taken pids last last := fun q hq hlt => absurd hlt (by omega)
      by_cases hbetween : last < pid ∧ pid < next
      · rw [if_pos hbetween]
        exact (hgo last pid (fun p hp => by have := hpre p hp; omega) (by omega)).mono
          le_rfl hnone hbetween.2.le fun _ => hbetween.1
      · rw [if_neg hbetween]
        exact hgo last next hpre (by omega)

/-! ## `get_pid` -/

/-- The first id that is free, from where the walks begin or from 1. -/
def Found (pids : List ℕ) (a l : ℕ) : Prop :=
  a ≤ l ∧ Taken pids a l ∧ (a < maxPid → l < maxPid) ∨ 1 ≤ l ∧ Taken pids 1 l ∧ Taken pids a maxPid

theorem Found.of_later {b : ℕ} (h : Found pids b l) (hab : a ≤ b) (htaken : Taken pids a b)
    (hb : b < maxPid) : Found pids a l :=
  h.imp (fun h => ⟨hab.trans h.1, htaken.trans h.2.1, fun _ => h.2.2 hb⟩)
    fun h => ⟨h.1, h.2.1, htaken.trans h.2.2⟩

/-- The walks end, if there is a free id: each one begins later, and only one goes back to 1. -/
theorem rescan_found (hf : f ∉ pids) (hf1 : 1 ≤ f) (hmax : f < maxPid)
    (hfuel : (if a ≤ f then f - a else maxPid - a + f) < fuel) :
    ∃ l n, rescan pids fuel a = some (l, n) ∧ Clear pids l n ∧ Found pids a l := by
  induction fuel generalizing a with
  | zero => omega
  | succ fuel ih =>
    have hsound : (scan a maxPid pids).Sound pids a maxPid :=
      scan_sound (nil_append pids).symm nofun
    rw [rescan]
    cases hscan : scan a maxPid pids with
    | stop l n =>
      rw [hscan] at hsound
      exact ⟨l, n, rfl, hsound.1, .inl hsound.2⟩
    | again l' =>
      rw [hscan] at hsound
      obtain ⟨l, hlt, htaken, hle, rfl⟩ := hsound
      have hlf : a ≤ f → l ≤ f := htaken.le_free hf
      by_cases hl : maxPid ≤ l
      · rw [if_pos hl]
        have hfull : Taken pids a maxPid := fun q hq hqmax => htaken q hq (by omega)
        obtain ⟨m, n, hm, hclear, hfound⟩ := @ih 1 (by split_ifs at hfuel ⊢ <;> omega)
        exact ⟨m, n, hm, hclear, .inr (hfound.elim (fun h => ⟨h.1, h.2.1, hfull⟩)
          fun h => ⟨h.1, h.2.1, hfull⟩)⟩
      · rw [if_neg hl]
        obtain ⟨m, n, hm, hclear, hfound⟩ := @ih l (by split_ifs at hfuel ⊢ <;> omega)
        exact ⟨m, n, hm, hclear, hfound.of_later hlt.le htaken (by omega)⟩

/-- Fewer than `MAX_PROCESS` processes leave an id. -/
theorem exists_free (hcount : pids.length < maxProcess) : ∃ f, 1 ≤ f ∧ f < maxPid ∧ f ∉ pids := by
  by_contra hnone
  have hsub : List.range' 1 maxProcess ⊆ pids := by
    intro q hq
    rw [mem_range'_1] at hq
    by_contra hmem
    exact hnone ⟨q, hq.1, by rw [maxPid]; omega, hmem⟩
  have hle := (subperm_of_subset nodup_range' hsub).length_le
  rw [length_range'] at hle
  omega

/-- The id that the walks begin with, or that is returned without one. -/
def start (lcpuCount : ℕ) (t : Table) : ℕ :=
  if maxPid ≤ t.lastPid + 1 then lcpuCount else t.lastPid + 1

/-- No process has an id between the static variables. -/
def Table.Safe (t : Table) : Prop := ∀ p ∈ t.pids, p ≤ t.lastPid ∨ t.nextSafe ≤ p

/-- `get_pid` returns the first free id, and its static variables say where the next one in use
is. Without a walk the id is free because they were safe. -/
theorem getPid_found (lcpuCount : ℕ) (hsafe : t.Safe) (hcount : t.pids.length < maxProcess)
    (hfuel : 2 * maxPid ≤ fuel) : ∃ l n, getPid lcpuCount fuel t =
      some (l, { t with lastPid := l, nextSafe := n }) ∧ Clear t.pids l n ∧
      Found t.pids (start lcpuCount t) l := by
  have hinside : ∀ a, ∃ l n, inside t fuel a =
      some (l, { t with lastPid := l, nextSafe := n }) ∧ Clear t.pids l n ∧ Found t.pids a l := by
    intro a
    obtain ⟨f, hf1, hmax, hf⟩ := exists_free hcount
    obtain ⟨l, n, hrescan, hl⟩ := @rescan_found fuel a f t.pids hf hf1 hmax (by split_ifs <;> omega)
    exact ⟨l, n, by rw [inside, hrescan]; rfl, hl⟩
  rw [getPid, start]
  split_ifs with hmax hnext
  · exact hinside lcpuCount
  · exact hinside (t.lastPid + 1)
  · exact ⟨_, t.nextSafe, rfl, fun p hp => by have := hsafe p hp; omega,
      .inl ⟨le_rfl, fun q hq hlt => by omega, id⟩⟩

/-! ## All runs -/

theorem Step.safe {c : Change} (hsafe : t.Safe) (hstep : Step lcpuCount t c t') : t'.Safe := by
  cases c with
  | fork =>
    obtain ⟨hcount, pid, u, hpid, rfl⟩ := hstep
    obtain ⟨l, n, hreturns, hclear, -⟩ := getPid_found lcpuCount hsafe hcount le_rfl
    obtain ⟨rfl, rfl⟩ := Prod.mk.inj (Option.some.inj (hpid.symm.trans hreturns))
    intro p hp
    rcases mem_cons.mp hp with rfl | hp
    · exact .inl (Nat.le_refl p)
    · exact (hclear p hp).imp Nat.le_of_lt And.right
  | reap pid =>
    obtain rfl := hstep
    exact fun p hp => hsafe p (mem_of_mem_erase hp)

/-- An id from `lcpu_count` on is free, and the walk meets no free id below `lcpu_count`. -/
def Table.Fits (t : Table) (lcpuCount : ℕ) : Prop :=
  ∃ q, q ∉ t.pids ∧ lcpuCount ≤ q ∧ q < maxPid ∧
    (start lcpuCount t ≤ q ∧ Taken t.pids (start lcpuCount t) lcpuCount ∨ Taken t.pids 1 lcpuCount)

/-- With one processor the table always fits. -/
theorem fits_one (hcount : t.pids.length < maxProcess) : t.Fits 1 := by
  obtain ⟨q, hq1, hmax, hq⟩ := exists_free hcount
  exact ⟨q, hq, hq1, hmax, .inr fun p hp hlt => by omega⟩

/-- In every state that creations and reapings lead to, `get_pid` returns an id that no process
has, and one between `lcpu_count` and `MAX_PID` exactly if the table fits. -/
theorem get_pid_unique {pids₀ : List ℕ} {changes : List Change} (hlcpu : 1 ≤ lcpuCount)
    (hboot : ∀ p ∈ pids₀, p < maxPid) (hrun : Run (Step lcpuCount) (boot pids₀) changes t)
    (hcount : t.pids.length < maxProcess) (hfuel : 2 * maxPid ≤ fuel) :
    ∃ pid t', getPid lcpuCount fuel t = some (pid, t') ∧ pid ∉ t.pids ∧
      (lcpuCount ≤ pid ∧ pid < maxPid ↔ t.Fits lcpuCount) := by
  have hsafe : t.Safe := hrun.invariant (fun _ _ _ => Step.safe) fun p hp =>
    .inl (hboot p hp).le
  obtain ⟨l, n, hreturns, hclear, hfound⟩ := getPid_found lcpuCount hsafe hcount hfuel
  have hfree := hclear.notMem
  refine ⟨l, _, hreturns, hfree, fun hl => ⟨l, hfree, hl.1, hl.2, ?_⟩, ?_⟩
  · exact hfound.imp (fun h => ⟨h.1, fun q hq hlt => h.2.1 q hq (by omega)⟩)
      fun h q hq hlt => h.2.1 q hq (by omega)
  · rintro ⟨q, hq, hlq, hqmax, hway⟩
    have hstart : 1 ≤ start lcpuCount t ∧ start lcpuCount t < maxPid := by
      rw [start]
      split_ifs <;> omega
    rcases hfound with ⟨hsl, -, hlmax⟩ | ⟨hl1, htaken, hfull⟩
    · refine ⟨by_contra fun hlt => hfree ?_, hlmax hstart.2⟩
      exact hway.elim (fun h => h.2 l hsl (by omega)) fun h => h l (by omega) (by omega)
    · rcases hway with ⟨hsq, -⟩ | hlow
      · exact absurd (hfull q hsq hqmax) hq
      · exact ⟨by_contra fun hlt => hfree (hlow l hl1 (by omega)),
          Nat.lt_of_le_of_lt (htaken.le_free hq (by omega)) hqmax⟩

/-- One process with the id 3, and then a second one. -/
theorem get_pid_unique_second : ∃ pid t', getPid 1 (2 * maxPid) ⟨[1, 3], 1, 3⟩ = some (pid, t') ∧
    pid ∉ [1, 3] ∧ (1 ≤ pid ∧ pid < maxPid ↔ (⟨[1, 3], 1, 3⟩ : Table).Fits 1) := by
  have hfork : Step 1 (boot [3]) .fork ⟨[1, 3], 1, 3⟩ :=
    ⟨by decide, 1, ⟨[3], 1, 3⟩, rfl, rfl⟩
  exact get_pid_unique (Nat.le_refl 1) (by decide) (.cons hfork (.nil _)) (by decide) le_rfl

/-- Processes come and go without a walk through the list. -/
theorem exists_run_fast (k : ℕ) (hk : t.lastPid + k < t.nextSafe) (hmax : t.nextSafe ≤ maxPid)
    (hcount : t.pids.length < maxProcess) :
    ∃ changes, Run (Step lcpuCount) t changes { t with lastPid := t.lastPid + k } := by
  induction k generalizing t with
  | zero => exact ⟨[], .nil t⟩
  | succ k ih =>
    have hfork : Step lcpuCount t .fork ⟨(t.lastPid + 1) :: t.pids, t.lastPid + 1, t.nextSafe⟩ := by
      refine ⟨hcount, t.lastPid + 1, { t with lastPid := t.lastPid + 1 }, ?_, rfl⟩
      rw [getPid, if_neg (by omega), if_neg (by omega)]
    have hreap : Step lcpuCount ⟨(t.lastPid + 1) :: t.pids, t.lastPid + 1, t.nextSafe⟩
        (.reap (t.lastPid + 1)) { t with lastPid := t.lastPid + 1 } := by
      simp [Step]
    obtain ⟨changes, hrun⟩ := @ih { t with lastPid := t.lastPid + 1 }
      (show t.lastPid + 1 + k < t.nextSafe by omega) hmax hcount
    have hlast : t.lastPid + 1 + k = t.lastPid + (k + 1) := by omega
    exact ⟨_, .cons hfork (.cons hreap (hlast ▸ hrun))⟩

/-- With two processors and one process that has the last id: when the ids below it have been
given out, the next one is 1. -/
theorem get_pid_below_lcpu_count : ∃ changes t, Run (Step 2) (boot [maxPid - 1]) changes t ∧
    t.pids = [maxPid - 1] ∧ ∀ fuel, 2 * maxPid ≤ fuel → ∃ t', getPid 2 fuel t = some (1, t') := by
  have hfork : Step 2 (boot [maxPid - 1]) .fork ⟨[2, maxPid - 1], 2, maxPid - 1⟩ :=
    ⟨by decide, 2, ⟨[maxPid - 1], 2, maxPid - 1⟩, rfl, rfl⟩
  have hreap : Step 2 ⟨[2, maxPid - 1], 2, maxPid - 1⟩ (.reap 2) ⟨[maxPid - 1], 2, maxPid - 1⟩ :=
    rfl
  obtain ⟨changes, hrun⟩ := @exists_run_fast 2 ⟨[maxPid - 1], 2, maxPid - 1⟩ (maxPid - 4)
    (by decide) (by decide) (by decide)
  refine ⟨_, _, .cons hfork (.cons hreap hrun), rfl, fun fuel hfuel => ?_⟩
  obtain ⟨k, rfl⟩ : ∃ k, fuel = k + 2 := ⟨fuel - 2, by rw [maxPid, maxProcess] at hfuel; omega⟩
  exact ⟨_, rfl⟩

end Ucore.Pids
