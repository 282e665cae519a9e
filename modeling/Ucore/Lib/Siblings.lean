import Mathlib.Data.List.Nodup
import Mathlib.Logic.Relation

/-!
# Siblings and ancestors

Members of a family keep a pointer to their parent, and siblings are chained in both directions.
`Forward f l` and `Backward f l` say that a field leads from every member of a list to the next
or to the one before; `Leads parent a b` says that the parents of `a` lead to `b`. The lemmas say
how a list may grow at its head and lose a member, and when a member may get another parent.
-/

namespace Ucore

open List

variable {α : Type} {f f' g : α → Option α} {l pre post : List α} {x z a b c q root : α}

/-! ## Chains -/

/-- The field leads from each member of the list to the next. -/
def Forward (f : α → Option α) (l : List α) : Prop :=
  ∀ pre a post, l = pre ++ a :: post → f a = post.head?

/-- The field leads from each member of the list to the one before. -/
def Backward (f : α → Option α) (l : List α) : Prop :=
  ∀ pre a post, l = pre ++ a :: post → f a = pre.getLast?

theorem backward_iff_reverse : Backward f l ↔ Forward f l.reverse := by
  constructor
  · intro h pre a post heq
    have hl : l = post.reverse ++ a :: pre.reverse := by
      rw [← reverse_reverse l, heq]
      simp
    rw [h _ a _ hl, List.getLast?_reverse]
  · intro h pre a post heq
    have hl : l.reverse = post.reverse ++ a :: pre.reverse := by
      rw [heq]
      simp
    rw [h _ a _ hl, List.head?_reverse]

theorem forward_nil : Forward f [] := fun _ _ _ heq => absurd heq (by simp)

theorem backward_nil : Backward f [] := fun _ _ _ heq => absurd heq (by simp)

theorem Forward.congr (h : Forward f l) (hf : ∀ a ∈ l, f' a = f a) : Forward f' l := by
  rintro pre a post rfl
  rw [hf a (by simp)]
  exact h pre a post rfl

theorem Backward.congr (h : Backward f l) (hf : ∀ a ∈ l, f' a = f a) : Backward f' l := by
  rintro pre a post rfl
  rw [hf a (by simp)]
  exact h pre a post rfl

theorem Forward.tail (h : Forward f (x :: l)) : Forward f l := by
  rintro pre a post rfl
  exact h (x :: pre) a post rfl

theorem Forward.head (h : Forward f (x :: l)) : f x = l.head? := h [] x l rfl

theorem Forward.cons (h : Forward f l) (hx : f x = l.head?) : Forward f (x :: l) := by
  intro pre a post heq
  cases pre with
  | nil =>
    obtain ⟨rfl, rfl⟩ := List.cons.inj heq
    exact hx
  | cons y pre => exact h pre a post (List.cons.inj heq).2

/-- A new head: the old one leads to it. -/
theorem Backward.cons (h : Backward f l) (hl : l.Nodup) (hx : f' x = none)
    (hhead : ∀ a, l.head? = some a → f' a = some x)
    (hother : ∀ a ∈ l, l.head? ≠ some a → f' a = f a) : Backward f' (x :: l) := by
  intro pre a post heq
  cases pre with
  | nil =>
    obtain ⟨rfl, -⟩ := List.cons.inj heq
    exact hx
  | cons y pre =>
    obtain ⟨rfl, hl'⟩ := List.cons.inj heq
    have hl' : l = pre ++ a :: post := hl'
    cases pre with
    | nil =>
      refine hhead a ?_
      rw [hl']
      rfl
    | cons w pre =>
      have hne : l.head? ≠ some a := by
        intro hhead
        rw [hl', cons_append, List.head?_cons, Option.some.injEq] at hhead
        rw [hl', hhead] at hl
        exact (nodup_cons.mp hl).1 (by simp)
      rw [hother a (by rw [hl']; simp) hne, h (w :: pre) a post hl']
      simp

/-- A member is taken out, and the one before it leads on. -/
theorem Forward.remove (h : Forward f (pre ++ z :: post)) (hnodup : (pre ++ z :: post).Nodup)
    (hlast : ∀ a, pre.getLast? = some a → f' a = post.head?)
    (hother : ∀ a ∈ pre ++ post, pre.getLast? ≠ some a → f' a = f a) :
    Forward f' (pre ++ post) := by
  induction pre with
  | nil => exact h.tail.congr fun a ha => hother a ha (by simp)
  | cons b pre ih =>
    obtain ⟨hb, hnodup⟩ := nodup_cons.mp hnodup
    have hout : b ∉ pre ++ post := fun hmem => hb (by simp_all)
    cases pre with
    | nil =>
      refine (ih h.tail hnodup (by simp) fun a ha _ => hother a (.tail b ha) ?_).cons (hlast b rfl)
      rintro heq
      rw [List.getLast?_singleton, Option.some.injEq] at heq
      exact hout (heq ▸ ha)
    | cons c pre =>
      refine (ih h.tail hnodup hlast fun a ha => hother a (.tail b ha)).cons ?_
      rw [hother b mem_cons_self fun heq => hb ?_, h.head]
      · rfl
      · exact mem_append_left _ (mem_of_getLast? heq)

/-- A member is taken out, and the one after it leads back. -/
theorem Backward.remove (h : Backward f (pre ++ z :: post)) (hnodup : (pre ++ z :: post).Nodup)
    (hhead : ∀ a, post.head? = some a → f' a = pre.getLast?)
    (hother : ∀ a ∈ pre ++ post, post.head? ≠ some a → f' a = f a) :
    Backward f' (pre ++ post) := by
  rw [backward_iff_reverse] at h ⊢
  rw [reverse_append, reverse_cons, append_assoc, singleton_append] at h
  rw [reverse_append]
  refine h.remove ?_ (fun a ha => ?_) fun a ha hne => ?_
  · rw [← nodup_reverse] at hnodup
    rw [reverse_append, reverse_cons, append_assoc] at hnodup
    exact hnodup
  · rw [List.getLast?_reverse] at ha
    rw [hhead a ha, List.head?_reverse]
  · rw [List.getLast?_reverse] at hne
    refine hother a ?_ hne
    rw [mem_append, mem_reverse, mem_reverse] at ha
    exact mem_append.mpr ha.symm

/-- The two fields are inverse to each other. -/
theorem Forward.inverse (hf : Forward f l) (hg : Backward g l) (ha : a ∈ l) (hab : f a = some b) :
    b ∈ l ∧ g b = some a := by
  obtain ⟨pre, post, rfl⟩ := append_of_mem ha
  rw [hf pre a post rfl] at hab
  obtain ⟨rest, rfl⟩ := List.head?_eq_some_iff.mp hab
  rw [hg (pre ++ [a]) b rest (by simp)]
  simp

theorem Backward.inverse (hf : Forward f l) (hg : Backward g l) (hb : b ∈ l)
    (hba : g b = some a) : a ∈ l ∧ f a = some b := by
  obtain ⟨pre, post, rfl⟩ := append_of_mem hb
  rw [hg pre b post rfl] at hba
  obtain ⟨front, rfl⟩ := List.getLast?_eq_some_iff.mp hba
  refine ⟨by simp, ?_⟩
  rw [hf front a (b :: post) (by simp)]
  rfl

/-! ## Rings -/

/-- Two fields lead around within a set, in opposite directions. -/
structure Ring (S : α → Prop) (f g : α → α) : Prop where
  next : ∀ a, S a → S (f a) ∧ g (f a) = a
  prev : ∀ a, S a → S (g a) ∧ f (g a) = a

section

variable {S S' : α → Prop} {next prev next' prev' : α → α} {p n : α}

theorem Ring.symm (h : Ring S next prev) : Ring S prev next := ⟨h.prev, h.next⟩

theorem Ring.next_injective (h : Ring S next prev) (ha : S a) (hb : S b)
    (heq : next a = next b) : a = b := by
  rw [← (h.next a ha).2, heq, (h.next b hb).2]

theorem Ring.alone (h : Ring S next prev) (ha : S a) (halone : next a = a) : prev a = a := by
  have hback := (h.next a ha).2
  rwa [halone] at hback

/-- A member that is alone may leave the set. -/
theorem Ring.drop_next (h : Ring S next prev) (hz : S z) (halone : next z = z)
    (hS : ∀ a, S' a ↔ a ≠ z ∧ S a) : ∀ a, S' a → S' (next a) ∧ prev (next a) = a := by
  intro a ha
  obtain ⟨hne, ha⟩ := (hS a).mp ha
  refine ⟨(hS _).mpr ⟨fun heq => hne ?_, (h.next a ha).1⟩, (h.next a ha).2⟩
  exact h.next_injective ha hz (heq.trans halone.symm)

variable [DecidableEq α]

/-- A member that is alone is new. -/
theorem Ring.extend_next (h : Ring S next prev) (hn : ¬S n) (hS : ∀ a, S' a ↔ a = n ∨ S a)
    (hnext : ∀ x, next' x = if x = n then n else next x)
    (hprev : ∀ x, prev' x = if x = n then n else prev x) :
    ∀ a, S' a → S' (next' a) ∧ prev' (next' a) = a := by
  intro a ha
  rcases (hS a).mp ha with rfl | ha
  · rw [hnext, if_pos rfl, hprev, if_pos rfl]
    exact ⟨(hS a).mpr (.inl rfl), rfl⟩
  · obtain ⟨hmem, hret⟩ := h.next a ha
    have hne : a ≠ n := fun heq => hn (heq ▸ ha)
    have hne' : next a ≠ n := fun heq => hn (heq ▸ hmem)
    rw [hnext, if_neg hne, hprev, if_neg hne']
    exact ⟨(hS _).mpr (.inr hmem), hret⟩

/-- A member that is alone is put between `q` and the one after it. -/
theorem Ring.insert_next (h : Ring S next prev) (hq : S q) (hn : S n) (hne : n ≠ q)
    (halone : next n = n) (hsame : next q = p)
    (hnext : ∀ x, next' x = if x = n then p else if x = q then n else next x)
    (hprev : ∀ x, prev' x = if x = n then q else if x = p then n else prev x) :
    ∀ a, S a → S (next' a) ∧ prev' (next' a) = a := by
  intro a ha
  have hpn : p ≠ n := fun heq => hne (h.next_injective hn hq (by rw [halone, hsame, heq]))
  rw [hnext]
  by_cases han : a = n
  · rw [if_pos han, hprev, if_neg hpn, if_pos rfl]
    exact ⟨hsame ▸ (h.next q hq).1, han.symm⟩
  · rw [if_neg han]
    by_cases haq : a = q
    · rw [if_pos haq, hprev, if_pos rfl]
      exact ⟨hn, haq.symm⟩
    · rw [if_neg haq, hprev, if_neg fun heq => ?_, if_neg fun heq => ?_]
      · exact h.next a ha
      · exact haq (h.next_injective ha hq (heq.trans hsame.symm))
      · exact han (h.next_injective ha hn (heq.trans halone.symm))

/-- A member is taken out and is alone then. -/
theorem Ring.remove_next (h : Ring S next prev) (hp : S p)
    (hnext : ∀ x, next' x = if x = p then p else if x = prev p then next p else next x)
    (hprev : ∀ x, prev' x = if x = p then p else if x = next p then prev p else prev x) :
    ∀ a, S a → S (next' a) ∧ prev' (next' a) = a := by
  intro a ha
  rw [hnext]
  by_cases hap : a = p
  · rw [if_pos hap, hprev, if_pos rfl]
    exact ⟨hp, hap.symm⟩
  · rw [if_neg hap]
    by_cases haq : a = prev p
    · rw [if_pos haq, hprev, if_neg fun heq => ?_, if_pos rfl]
      · exact ⟨(h.next p hp).1, haq.symm⟩
      · exact hap (haq.trans (h.alone hp heq))
    · obtain ⟨hmem, hret⟩ := h.next a ha
      rw [if_neg haq, hprev, if_neg fun heq => ?_, if_neg fun heq => ?_]
      · exact ⟨hmem, hret⟩
      · exact hap (h.next_injective ha hp heq)
      · exact haq (hret.symm.trans (congrArg prev heq))

end

/-! ## Ancestors -/

/-- The parents of a member lead to another, or it is that one. -/
def Leads (parent : α → Option α) : α → α → Prop :=
  Relation.ReflTransGen fun a b => parent a = some b

variable {parent parent' : α → Option α}

/-- If the parents of `q` do not lead to `c`, they are the same when only `c` gets another. -/
theorem leads_of_not_leads (hother : ∀ a, a ≠ c → parent' a = parent a) (hq : ¬Leads parent q c) :
    Leads parent' q a ↔ Leads parent q a := by
  constructor
  · intro h
    induction h with
    | refl => exact .refl
    | tail _ hstep ih =>
      refine ih.tail ?_
      rw [← hother _ fun heq => hq (heq ▸ ih)]
      exact hstep
  · intro h
    have hpath : ∀ b, Leads parent q b → Leads parent' q b := by
      intro b hb
      induction hb with
      | refl => exact .refl
      | tail hto hstep ih =>
        refine ih.tail ?_
        rw [hother _ fun heq => hq (heq ▸ hto)]
        exact hstep
    exact hpath a h

/-- A member may get another parent that is not below it. -/
theorem leads_root (hother : ∀ a, a ≠ c → parent' a = parent a) (hc : parent' c = some q)
    (hq : ¬Leads parent q c) (hroot : Leads parent q root) (ha : Leads parent a root) :
    Leads parent' a root := by
  have hnew : Leads parent' q root := (leads_of_not_leads hother hq).mpr hroot
  induction ha using Relation.ReflTransGen.head_induction_on with
  | refl => exact .refl
  | @head a b hstep _ ih =>
    rcases eq_or_ne a c with rfl | hac
    · exact hnew.head hc
    · refine ih.head ?_
      rw [hother a hac]
      exact hstep

/-- The parents do not lead out of a closed set. -/
theorem Leads.mem {S : α → Prop} (h : Leads parent a b) (ha : S a)
    (hclosed : ∀ a b, S a → parent a = some b → S b) : S b := by
  induction h with
  | refl => exact ha
  | tail _ hstep ih => exact hclosed _ _ ih hstep

/-- The parents of the members of a closed set do not depend on others. -/
theorem Leads.congr {S : α → Prop} (h : Leads parent a b) (ha : S a)
    (hclosed : ∀ a b, S a → parent a = some b → S b) (hother : ∀ a, S a → parent' a = parent a) :
    Leads parent' a b := by
  induction h with
  | refl => exact .refl
  | tail hto hstep ih =>
    refine ih.tail ?_
    rw [hother _ (Leads.mem hto ha hclosed)]
    exact hstep

/-- Whoever's parents lead to a member without parent is not its own ancestor. -/
theorem Leads.not_ancestor (h : Leads parent a root) (hroot : parent root = none) :
    ¬Relation.TransGen (fun a b => parent a = some b) a a := by
  intro hcycle
  have hback : Relation.TransGen (fun a b => parent a = some b) root a := by
    clear hroot
    induction h with
    | refl => exact hcycle
    | @tail b d _ hstep ih =>
      -- the parent of a member is the only way on from it
      obtain ⟨e, hbe, hea⟩ := Relation.TransGen.head'_iff.mp ih
      cases hbe.symm.trans hstep
      rcases Relation.reflTransGen_iff_eq_or_transGen.mp hea with rfl | htrans
      · exact hcycle
      · exact htrans
  obtain ⟨e, hstep, -⟩ := Relation.TransGen.head'_iff.mp hback
  rw [hroot] at hstep
  cases hstep

end Ucore
