import Mathlib.Data.Nat.Notation
import Mathlib.Logic.Relation

/-!
# Waiting in circles

A relation between members that wait for each other has no cycle if a level rises along it.
The last member of a chain may be one that waits for nobody, and its level then says
nothing.
-/

namespace Ucore

variable {T : Type*} {R : T → T → Prop} {a b : T}

/-- Some member waits for itself, through others or at once. -/
def Cyclic (R : T → T → Prop) : Prop := ∃ a, Relation.TransGen R a a

/-- A level that rises whenever the member waited for waits in turn. -/
theorem not_cyclic_of_level (level : T → ℕ)
    (hlevel : ∀ a b c, R a b → R b c → level a < level b) : ¬Cyclic R := by
  -- along a chain the level rises up to any member that still waits
  have hchain : ∀ {a b}, Relation.TransGen R a b → ∀ c, R b c → level a < level b := by
    intro a b hab
    induction hab with
    | single h => exact fun c => hlevel _ _ c h
    | tail _ h ih => exact fun c hc => Nat.lt_trans (ih _ h) (hlevel _ _ c h hc)
  rintro ⟨a, ha⟩
  obtain ⟨b, hab, -⟩ := Relation.TransGen.head'_iff.mp ha
  exact Nat.lt_irrefl _ (hchain ha b hab)

end Ucore
