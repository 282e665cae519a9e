import Mathlib.Logic.Basic

/-!
# Kernel code as state transformers

Kernel functions return an error code or a value, change the state on both
paths, and stop for ever at a failed assertion or at a semaphore that is never
released. `Kern` is the monad of such functions. Weakest preconditions have one
postcondition for values, one for errors and one proposition owed by a halt, so
the same rules serve partial correctness (`True`) and the absence of failed
assertions (`False`).
-/

namespace Ucore

/-- The ways in which kernel code fails to return. -/
inductive Halt where
  /-- A failed `assert`, or a call of `panic`. -/
  | assertion
  /-- A `down` on a semaphore that the caller itself holds. -/
  | deadlock
  /-- A loop that has not ended within the turns it was given. -/
  | running
  deriving DecidableEq, Repr

/-- The result of running kernel code from one state. -/
inductive Outcome (ε σ α : Type) where
  /-- A normal return. -/
  | done (a : α) (s : σ)
  /-- A return with an error code; the state keeps every change made before it. -/
  | fail (e : ε) (s : σ)
  /-- No return. -/
  | halt (h : Halt)

/-- The state after a return of either kind. -/
def Outcome.after {ε σ α : Type} : Outcome ε σ α → Option σ
  | .done _ s => some s
  | .fail _ s => some s
  | .halt _ => none

/-- Outcomes that differ at most in the values that are returned, and in these by `R`. -/
inductive Outcome.Rel {ε σ α : Type} (R : α → α → Prop) : Outcome ε σ α → Outcome ε σ α → Prop
  | done {a a' : α} (s : σ) (h : R a a') : Rel R (.done a s) (.done a' s)
  | fail (e : ε) (s : σ) : Rel R (.fail e s) (.fail e s)
  | halt (h : Halt) : Rel R (.halt h) (.halt h)

theorem Outcome.Rel.refl {ε σ α : Type} {R : α → α → Prop} {o : Outcome ε σ α}
    (hR : ∀ a, R a a) : o.Rel R o := by
  cases o with
  | done a s => exact .done s (hR a)
  | fail e s => exact .fail e s
  | halt h => exact .halt h

/-- Outcomes are equal if all values that may be returned are. -/
theorem Outcome.Rel.eq {ε σ α : Type} {R : α → α → Prop} {o o' : Outcome ε σ α} (h : o.Rel R o')
    (hR : ∀ a a' s, o = .done a s → R a a' → a = a') : o = o' := by
  cases h with
  | done s h => rw [hR _ _ s rfl h]
  | fail | halt => rfl

/-- Kernel code over the state `σ`, with error codes in `ε`. -/
def Kern (ε σ α : Type) : Type := σ → Outcome ε σ α

namespace Kern

variable {ε σ α β : Type}

/-- Sequencing: errors and halts of the first part are those of the whole. -/
def bind (m : Kern ε σ α) (f : α → Kern ε σ β) : Kern ε σ β := fun s =>
  match m s with
  | .done a s' => f a s'
  | .fail e s' => .fail e s'
  | .halt h => .halt h

instance : Monad (Kern ε σ) where
  pure a := fun s => .done a s
  bind := bind

/-- Return with an error code. -/
def throw (e : ε) : Kern ε σ α := fun s => .fail e s

/-- Stop without returning. -/
def stop (h : Halt) : Kern ε σ α := fun _ => .halt h

/-- Read a part of the state. -/
def gets (f : σ → α) : Kern ε σ α := fun s => .done (f s) s

/-- Read the state. -/
abbrev get : Kern ε σ σ := gets fun s => s

/-- Change the state. -/
def modify (f : σ → σ) : Kern ε σ Unit := fun s => .done () (f s)

/-- The kernel's `assert`. -/
def assert (p : Prop) [Decidable p] : Kern ε σ Unit := fun s =>
  if p then .done () s else .halt .assertion

/-- Run `cleanup` before an error of `m` is passed on: the `failed_cleanup`
labels of the source. The code of `m` is returned, whatever `cleanup` returns. -/
def onError (m : Kern ε σ α) (cleanup : Kern ε σ Unit) : Kern ε σ α := fun s =>
  match m s with
  | .done a s' => .done a s'
  | .fail e s' => match cleanup s' with
    | .done _ s'' => .fail e s''
    | .fail _ s'' => .fail e s''
    | .halt h => .halt h
  | .halt h => .halt h

/-- Run `m` and hand its return code to the caller as a value, as C does. -/
def attempt (m : Kern ε σ α) : Kern ε σ (Except ε α) := fun s =>
  match m s with
  | .done a s' => .done (.ok a) s'
  | .fail e s' => .done (.error e) s'
  | .halt h => .halt h

/-- Run `m` for its effect and drop its return code. -/
def ignore (m : Kern ε σ α) : Kern ε σ Unit := do
  let _ ← m.attempt
  return ()

/-- Run `release` after `m`, on both paths, and return what `m` returned. -/
def thenRelease (m : Kern ε σ α) (release : Kern ε σ Unit) : Kern ε σ α := do
  match ← m.attempt with
  | .ok a => do release; return a
  | .error e => do release; throw e

/-- Run code on a part of a larger state. -/
def zoom {τ : Type} (get : τ → σ) (set : σ → τ → τ) (m : Kern ε σ α) : Kern ε τ α := fun t =>
  match m (get t) with
  | .done a s => .done a (set s t)
  | .fail e s => .fail e (set s t)
  | .halt h => .halt h

/-- Code whose errors are a part of the errors of other code. -/
def mapError {ε' : Type} (f : ε → ε') (m : Kern ε σ α) : Kern ε' σ α := fun s =>
  match m s with
  | .done a s' => .done a s'
  | .fail e s' => .fail (f e) s'
  | .halt h => .halt h

/-- Weakest precondition: `Q` for a value, `E` for an error, and `H` if the
code never returns. -/
def wp (m : Kern ε σ α) (H : Prop) (E : ε → σ → Prop) (Q : α → σ → Prop) (s : σ) : Prop :=
  match m s with
  | .done a s' => Q a s'
  | .fail e s' => E e s'
  | .halt _ => H

variable {H : Prop} {E E' : ε → σ → Prop} {s s' : σ} {m : Kern ε σ α} {Q Q' : α → σ → Prop}

/-- Whatever error is returned. -/
abbrev Any : ε → σ → Prop := fun _ _ => True

/-- No error is returned. -/
abbrev Never : ε → σ → Prop := fun _ _ => False

/-- Postconditions may be weakened. -/
theorem wp.mono (h : m.wp H E Q s) (hE : ∀ e s', E e s' → E' e s') (hQ : ∀ a s', Q a s' → Q' a s') :
    m.wp H E' Q' s := by
  unfold wp at h ⊢
  cases hm : m s with
  | done a s' => rw [hm] at h; exact hQ a s' h
  | fail e s' => rw [hm] at h; exact hE e s' h
  | halt _ => rw [hm] at h; exact h

/-- The postcondition for values may be weakened. -/
theorem wp.imp (h : m.wp H E Q s) (hQ : ∀ a s', Q a s' → Q' a s') : m.wp H E Q' s :=
  h.mono (fun _ _ he => he) hQ

/-- Where errors and halts are of no concern, only a normal return counts. -/
theorem wp.weaken (h : m.wp True Any Q s) (hH : H) (hE : ∀ e s', E e s')
    (hQ : ∀ a s', Q a s' → Q' a s') : m.wp H E Q' s := by
  unfold wp at h ⊢
  cases hm : m s with
  | done a s' => rw [hm] at h; exact hQ a s' h
  | fail e s' => exact hE e s'
  | halt _ => exact hH

/-- Two facts about the same code. -/
theorem wp.both (h : m.wp True E' Q' s)
    (h' : m.wp H (fun e s' => E' e s' → E e s') (fun a s' => Q' a s' → Q a s') s) :
    m.wp H E Q s := by
  unfold wp at h h' ⊢
  cases hm : m s with
  | done | fail => rw [hm] at h h'; exact h' h
  | halt _ => rw [hm] at h'; exact h'

/-- Code about which nothing is known. -/
theorem wp_any (hQ : ∀ a s', Q a s') : m.wp True Any Q s := by
  unfold wp
  cases m s with
  | done a s' => exact hQ a s'
  | fail | halt => trivial

/-- Two continuations that agree wherever the first part returns. -/
theorem bind_congr {f g : α → Kern ε σ β} (h : m.wp True Any (fun a s' => f a s' = g a s') s) :
    (m >>= f) s = (m >>= g) s := by
  show Kern.bind m f s = Kern.bind m g s
  unfold wp at h
  unfold Kern.bind
  cases hm : m s with
  | done a s' => rw [hm] at h; exact h
  | fail | halt => rfl

@[simp] theorem wp_pure (a : α) (Q : α → σ → Prop) :
    (pure a : Kern ε σ α).wp H E Q s ↔ Q a s := Iff.rfl

@[simp] theorem wp_bind (m : Kern ε σ α) (f : α → Kern ε σ β) (Q : β → σ → Prop) :
    (m >>= f).wp H E Q s ↔ m.wp H E (fun a s' => (f a).wp H E Q s') s := by
  show (Kern.bind m f).wp H E Q s ↔ _
  unfold wp bind
  cases m s <;> rfl

/-- The rule for a sequence. -/
theorem wp_seq {f : α → Kern ε σ β} {Q : β → σ → Prop}
    (h : m.wp H E (fun a s' => (f a).wp H E Q s') s) : (m >>= f).wp H E Q s :=
  (wp_bind m f Q).mpr h

theorem wp_zoom {τ : Type} {get : τ → σ} {set : σ → τ → τ} {t : τ} {E : ε → τ → Prop}
    {Q : α → τ → Prop} : (zoom get set m).wp H E Q t ↔
      m.wp H (fun e s => E e (set s t)) (fun a s => Q a (set s t)) (get t) := by
  unfold wp zoom
  cases m (get t) <;> rfl

theorem of_zoom_done {τ : Type} {get : τ → σ} {set : σ → τ → τ} {t t' : τ} {a : α}
    (h : zoom get set m t = .done a t') : ∃ s', m (get t) = .done a s' ∧ t' = set s' t := by
  unfold zoom at h
  cases hm : m (get t) with
  | done b s' =>
    rw [hm] at h
    cases h
    exact ⟨s', rfl, rfl⟩
  | fail | halt => simp [hm] at h

theorem wp_mapError {ε' : Type} {f : ε → ε'} {E : ε' → σ → Prop} :
    (m.mapError f).wp H E Q s ↔ m.wp H (fun e s' => E (f e) s') Q s := by
  unfold wp mapError
  cases m s <;> rfl

@[simp] theorem wp_throw (e : ε) (Q : α → σ → Prop) :
    (throw e : Kern ε σ α).wp H E Q s ↔ E e s := Iff.rfl

@[simp] theorem wp_stop (h : Halt) (Q : α → σ → Prop) :
    (stop h : Kern ε σ α).wp H E Q s ↔ H := Iff.rfl

@[simp] theorem wp_gets (f : σ → α) (Q : α → σ → Prop) :
    (gets f : Kern ε σ α).wp H E Q s ↔ Q (f s) s := Iff.rfl

@[simp] theorem wp_modify (f : σ → σ) (Q : Unit → σ → Prop) :
    (modify f : Kern ε σ Unit).wp H E Q s ↔ Q () (f s) := Iff.rfl

/-- A read, then the rest. -/
theorem wp_get (f : σ → α) (g : α → Kern ε σ β) (Q : β → σ → Prop) :
    (gets f >>= g).wp H E Q s ↔ (g (f s)).wp H E Q s := Iff.rfl

/-- A change, then the rest. -/
theorem wp_put (f : σ → σ) (g : Unit → Kern ε σ β) (Q : β → σ → Prop) :
    (modify f >>= g).wp H E Q s ↔ (g ()).wp H E Q (f s) := Iff.rfl

/-- An assertion that holds is passed; one that does not is a halt. -/
theorem wp_assert (p : Prop) [Decidable p] (Q : Unit → σ → Prop) :
    (assert p : Kern ε σ Unit).wp H E Q s ↔ (p → Q () s) ∧ (¬p → H) := by
  unfold wp assert
  by_cases hp : p <;> simp [hp]

/-- The rule for an assertion that is known to hold. -/
theorem wp_assert_of {p : Prop} [Decidable p] {Q : Unit → σ → Prop} (hp : p) (hQ : Q () s) :
    (assert p : Kern ε σ Unit).wp H E Q s :=
  (wp_assert p Q).mpr ⟨fun _ => hQ, absurd hp⟩

/-- An assertion that is known to hold, then the rest. -/
theorem wp_check {p : Prop} [Decidable p] {f : Unit → Kern ε σ α} (hp : p)
    (h : (f ()).wp H E Q s) : (assert p >>= f).wp H E Q s :=
  (wp_bind _ f Q).mpr (wp_assert_of hp h)

/-- An assertion that may fail where a halt is accepted, then the rest. -/
theorem wp_assume {p : Prop} [Decidable p] {f : Unit → Kern ε σ α} (hH : H)
    (h : p → (f ()).wp H E Q s) : (assert p >>= f).wp H E Q s :=
  (wp_bind _ f Q).mpr ((wp_assert p _).mpr ⟨h, fun _ => hH⟩)

@[simp] theorem wp_ite (p : Prop) [Decidable p] (m m' : Kern ε σ α) (Q : α → σ → Prop) :
    (if p then m else m').wp H E Q s ↔ (p → m.wp H E Q s) ∧ (¬p → m'.wp H E Q s) := by
  by_cases hp : p <;> simp [hp]

/-- The rule for a branch. -/
theorem wp_if {p : Prop} [Decidable p] {m' : Kern ε σ α} (h : p → m.wp H E Q s)
    (h' : ¬p → m'.wp H E Q s) : (if p then m else m').wp H E Q s :=
  (wp_ite p m m' Q).mpr ⟨h, h'⟩

theorem wp_onError (m : Kern ε σ α) (cleanup : Kern ε σ Unit) (Q : α → σ → Prop) :
    (m.onError cleanup).wp H E Q s ↔
      m.wp H (fun e s' => cleanup.wp H (fun _ => E e) (fun _ => E e) s') Q s := by
  unfold wp onError
  cases m s with
  | done a s' => rfl
  | fail e s' => simp only; cases cleanup s' <;> rfl
  | halt h => rfl

@[simp] theorem wp_attempt (m : Kern ε σ α) (Q : Except ε α → σ → Prop) :
    m.attempt.wp H E Q s ↔ m.wp H (fun e s' => Q (.error e) s') (fun a s' => Q (.ok a) s') s := by
  unfold wp attempt
  cases m s <;> rfl

@[simp] theorem wp_ignore (m : Kern ε σ α) (Q : Unit → σ → Prop) :
    m.ignore.wp H E Q s ↔ m.wp H (fun _ s' => Q () s') (fun _ s' => Q () s') s := by
  simp [ignore]

theorem wp_thenRelease (m : Kern ε σ α) (release : Kern ε σ Unit) (Q : α → σ → Prop) :
    (m.thenRelease release).wp H E Q s ↔ m.wp H (fun e s' => release.wp H E (fun _ => E e) s')
        (fun a s' => release.wp H E (fun _ => Q a) s') s := by
  simp [thenRelease]

/-- What a weakest precondition says about a normal return. -/
theorem wp.of_done {a : α} (h : m.wp H E Q s) (hm : m s = .done a s') : Q a s' := by
  unfold wp at h
  rwa [hm] at h

/-- The same where nothing is said about errors and halts. -/
theorem wp.of_call {a : α} (h : m.wp True Any Q s) (hm : m s = .done a s') : Q a s' := h.of_done hm

/-- What a weakest precondition says about an error return. -/
theorem wp.of_fail {e : ε} (h : m.wp H E Q s) (hm : m s = .fail e s') : E e s' := by
  unfold wp at h
  rwa [hm] at h

/-- Code whose halts owe `False` returns. -/
theorem wp.returns (h : m.wp False E Q s) :
    (∃ a s', m s = .done a s' ∧ Q a s') ∨ ∃ e s', m s = .fail e s' ∧ E e s' := by
  unfold wp at h
  cases hm : m s with
  | done a s' => rw [hm] at h; exact .inl ⟨a, s', rfl, h⟩
  | fail e s' => rw [hm] at h; exact .inr ⟨e, s', rfl, h⟩
  | halt _ => rw [hm] at h; exact h.elim

theorem wp.after_ne_none (h : m.wp False E Q s) : (m s).after ≠ none := by
  rcases h.returns with ⟨a, s', hm, -⟩ | ⟨e, s', hm, -⟩ <;>
  · rw [hm]
    exact Option.some_ne_none s'

/-- Code whose halts and errors owe `False` returns normally. -/
theorem wp.returns_done (h : m.wp False Never Q s) : ∃ a s', m s = .done a s' ∧ Q a s' := by
  obtain hdone | ⟨_, _, -, hfalse⟩ := h.returns
  · exact hdone
  · exact hfalse.elim

/-- On concrete states a weakest precondition can be evaluated. -/
instance [Decidable H] [∀ e s, Decidable (E e s)] [∀ a s, Decidable (Q a s)] :
    Decidable (m.wp H E Q s) :=
  match hm : m s with
  | .done a s' => decidable_of_iff (Q a s') (by rw [wp, hm])
  | .fail e s' => decidable_of_iff (E e s') (by rw [wp, hm])
  | .halt _ => decidable_of_iff H (by rw [wp, hm])

/-- A condition that both postconditions state holds after any return. -/
theorem wp.of_after {P : σ → Prop} (h : m.wp H (fun _ => P) (fun _ => P) s)
    (hm : (m s).after = some s') : P s' := by
  unfold wp at h
  cases hs : m s with
  | done | fail => rw [hs] at h hm; cases hm; exact h
  | halt _ => rw [hs] at hm; cases hm

/-! ## Code that differs only in the values that it returns -/

variable {m' : Kern ε σ α} {R : α → α → Prop} {R' : β → β → Prop} {f f' : α → Kern ε σ β}

theorem rel_bind (hm : (m s).Rel R (m' s)) (hf : ∀ a a' s, R a a' → (f a s).Rel R' (f' a' s)) :
    ((m >>= f) s).Rel R' ((m' >>= f') s) := by
  show (Kern.bind m f s).Rel R' (Kern.bind m' f' s)
  unfold Kern.bind
  generalize m s = o, m' s = o' at hm ⊢
  cases hm with
  | done s h => exact hf _ _ s h
  | fail e s => exact .fail e s
  | halt h => exact .halt h

/-- Code that begins in the same way. -/
theorem rel_bind_same (hf : ∀ a s, (f a s).Rel R' (f' a s)) : ((m >>= f) s).Rel R' ((m >>= f') s) :=
  rel_bind (.refl fun _ => rfl) fun a _ s heq => heq ▸ hf a s

theorem rel_thenRelease (hm : (m s).Rel R (m' s)) (release : Kern ε σ Unit) :
    (m.thenRelease release s).Rel R (m'.thenRelease release s) := by
  show (Kern.bind m.attempt _ s).Rel R (Kern.bind m'.attempt _ s)
  unfold Kern.bind attempt
  generalize m s = o, m' s = o' at hm ⊢
  cases hm with
  | done s h => exact rel_bind_same fun _ s => .done s h
  | fail e s => exact rel_bind_same fun _ s => .fail e s
  | halt h => exact .halt h

theorem rel_zoom {τ : Type} {get : τ → σ} {set : σ → τ → τ} {t : τ}
    (hm : (m (get t)).Rel R (m' (get t))) : (m.zoom get set t).Rel R (m'.zoom get set t) := by
  unfold zoom
  generalize m (get t) = o, m' (get t) = o' at hm ⊢
  cases hm with
  | done s h => exact .done _ h
  | fail e s => exact .fail e _
  | halt h => exact .halt h

end Kern

end Ucore
