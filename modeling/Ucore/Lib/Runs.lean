import Mathlib.Data.List.Basic

/-!
# Labelled runs

Finite runs of a labelled step relation, with the two rules by which facts about
single steps become facts about runs: invariants and simulations.
-/

namespace Ucore

variable {σ τ ι : Type*} {step : σ → ι → σ → Prop} {s s' : σ} {ls : List ι} {I : σ → Prop}

/-- The runs of a step relation, with the labels of their steps. -/
inductive Run (step : σ → ι → σ → Prop) : σ → List ι → σ → Prop
  | nil (s : σ) : Run step s [] s
  | cons {s s' s'' : σ} {l : ι} {ls : List ι} : step s l s' → Run step s' ls s'' →
      Run step s (l :: ls) s''

section

variable (hrun : Run step s ls s')
include hrun

/-- What every step preserves, every run preserves. -/
theorem Run.invariant (hstep : ∀ s l s', I s → step s l s' → I s') (hs : I s) : I s' := by
  induction hrun with
  | nil => exact hs
  | cons h _ ih => exact ih (hstep _ _ _ hs h)

/-- What every step with a label of the run preserves, the run preserves. -/
theorem Run.invariant_of_mem (hstep : ∀ s l s', l ∈ ls → I s → step s l s' → I s') (hs : I s) :
    I s' := by
  induction hrun with
  | nil => exact hs
  | cons h _ ih =>
    exact ih (fun s l s' hl => hstep s l s' (.tail _ hl)) (hstep _ _ _ List.mem_cons_self hs h)

/-- Runs of a relation are runs of every larger one. -/
theorem Run.mono {step' : σ → ι → σ → Prop} (h : ∀ s l s', step s l s' → step' s l s') :
    Run step' s ls s' := by
  induction hrun with
  | nil => exact .nil _
  | cons hs _ ih => exact .cons (h _ _ _ hs) ih

/-- If every step is a step of another relation under an invariant, then every run is a
run of that relation. -/
theorem Run.simulate {step' : τ → ι → τ → Prop} {f : σ → τ}
    (hinv : ∀ s l s', I s → step s l s' → I s')
    (hstep : ∀ s l s', I s → step s l s' → step' (f s) l (f s')) (hs : I s) :
    Run step' (f s) ls (f s') := by
  induction hrun with
  | nil => exact .nil _
  | cons h _ ih => exact .cons (hstep _ _ _ hs h) (ih (hinv _ _ _ hs h))

/-- One more step at the end. -/
theorem Run.snoc {l : ι} {s'' : σ} (hstep : step s' l s'') : Run step s (ls ++ [l]) s'' := by
  induction hrun with
  | nil => exact .cons hstep (.nil _)
  | cons h _ ih => exact .cons h (ih hstep)

end

/-- A run whose last state satisfies `P` is one whose last state satisfies what follows. -/
theorem Run.exists_imp {P Q : σ → Prop} (hrun : ∃ s', Run step s ls s' ∧ P s')
    (h : ∀ s', Run step s ls s' → P s' → Q s') : ∃ s', Run step s ls s' ∧ Q s' := by
  obtain ⟨s', hrun, hP⟩ := hrun
  exact ⟨s', hrun, h s' hrun hP⟩

/-! ## Executable runs -/

variable {exec : ι → σ → Option σ}

/-- The state after steps that a function computes, if all of them can be made. -/
def execAll (exec : ι → σ → Option σ) : List ι → σ → Option σ
  | [], s => some s
  | l :: ls, s => (exec l s).bind (execAll exec ls)

theorem Run.of_execAll (hexec : ∀ s l s', exec l s = some s' → step s l s')
    (h : execAll exec ls s = some s') : Run step s ls s' := by
  induction ls generalizing s with
  | nil =>
    obtain rfl : s = s' := Option.some.inj h
    exact .nil s
  | cons l ls ih =>
    obtain ⟨t, hstep, hrest⟩ := Option.bind_eq_some_iff.mp h
    exact .cons (hexec s l t hstep) (ih hrest)

/-- A run is found by computing it, and its last state passes a test. -/
theorem exists_run_of_execAll {test : σ → Bool} (hexec : ∀ s l s', exec l s = some s' → step s l s')
    (h : (execAll exec ls s).any test = true) : ∃ s', Run step s ls s' ∧ test s' = true := by
  cases hs' : execAll exec ls s with
  | none =>
    rw [hs'] at h
    exact absurd h Bool.false_ne_true
  | some s' =>
    rw [hs'] at h
    exact ⟨s', .of_execAll hexec hs', h⟩

end Ucore
