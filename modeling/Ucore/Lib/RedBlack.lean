import Mathlib.Data.List.Nodup

/-!
# Red-black trees with a focus

Binary trees with red and black nodes, and the path from a subtree up to the root. A
rebalancing loop looks at a subtree and the path above it: what the loop keeps is that the
subtree is balanced by itself and that the path accepts a subtree of some height. The two
sides are treated at once, as `ColorTree.fork side` has its first subtree on `side`.
-/

namespace Ucore.RedBlack

open List

/-- The two sides of a node. -/
inductive Side where
  | left
  | right
  deriving DecidableEq, Repr

/-- The opposite side. -/
def Side.other : Side → Side
  | .left => .right
  | .right => .left

theorem Side.eq_other_of_ne {side side' : Side} (h : side ≠ side') : side = side'.other := by
  cases side <;> cases side' <;> first | rfl | exact absurd rfl h

/-- Trees with coloured nodes. -/
inductive ColorTree (α : Type*) where
  | leaf
  | node (red : Bool) (l : ColorTree α) (x : α) (r : ColorTree α)
  deriving DecidableEq, Repr

/-- One step of a path: the node above, the side from which it is reached, its colour and its
subtree on the other side. -/
structure Frame (α : Type*) where
  side : Side
  red : Bool
  x : α
  sib : ColorTree α

variable {α : Type*} {t near far sib : ColorTree α} {side : Side} {red : Bool} {x q : α}
  {f : Frame α} {ctx ctx' : List (Frame α)} {n m : ℕ} {c c' b : Bool}

namespace ColorTree

/-- A node with the subtree `near` on `side` and `far` on the other side. -/
def fork (side : Side) (red : Bool) (x : α) (near far : ColorTree α) : ColorTree α :=
  match side with
  | .left => .node red near x far
  | .right => .node red far x near

theorem fork_other : fork side.other red x near far = fork side red x far near := by
  cases side <;> rfl

theorem fork_ne_leaf : fork side red x near far ≠ leaf := by
  cases side <;> exact nofun

/-- The nodes of a tree from left to right. -/
def toList : ColorTree α → List α
  | .leaf => []
  | .node _ l x r => l.toList ++ x :: r.toList

/-- Whether the root is red. -/
def isRed : ColorTree α → Bool
  | .leaf => false
  | .node red _ _ _ => red

/-- The tree with a black root. -/
def blacken : ColorTree α → ColorTree α
  | .leaf => .leaf
  | .node _ l x r => .node false l x r

@[simp] theorem isRed_fork : (fork side red x near far).isRed = red := by cases side <;> rfl

@[simp] theorem blacken_fork : (fork side red x near far).blacken = fork side false x near far := by
  cases side <;> rfl

theorem blacken_eq_self (h : t.isRed = false) : t.blacken = t := by
  cases t with
  | leaf => rfl
  | node red l x r => rw [blacken, show red = false from h]

/-- The order of the nodes does not depend on their colours. -/
theorem toList_fork_congr {near' far' : ColorTree α} (hnear : near.toList = near'.toList)
    (hfar : far.toList = far'.toList) :
    (fork side red x near far).toList = (fork side b x near' far').toList := by
  cases side <;> simp [fork, toList, hnear, hfar]

/-- A rotation does not change the order of the nodes. -/
theorem toList_rotate {red' : Bool} {y : α} {mid : ColorTree α} :
    (fork side red y (fork side red' x near mid) far).toList =
      (fork side red' x near (fork side red y mid far)).toList := by
  cases side <;> simp [fork, toList]

theorem toList_fork_perm : (fork side red x near far).toList.Perm
    (x :: (near.toList ++ far.toList)) := by
  cases side with
  | left => exact perm_middle
  | right => exact perm_middle.trans (List.Perm.cons x perm_append_comm)

theorem mem_toList_fork : q ∈ (fork side red x near far).toList ↔
    q = x ∨ q ∈ near.toList ∨ q ∈ far.toList := by
  rw [toList_fork_perm.mem_iff, mem_cons, mem_append]

/-- A tree that is no leaf, seen from one of its sides. -/
theorem eq_leaf_or_fork (side : Side) (t : ColorTree α) :
    t = .leaf ∨ ∃ red x near far, t = fork side red x near far := by
  cases t with
  | leaf => exact .inl rfl
  | node red l x r =>
    cases side with
    | left => exact .inr ⟨red, x, l, r, rfl⟩
    | right => exact .inr ⟨red, x, r, l, rfl⟩

end ColorTree

open ColorTree

/-! ## Paths -/

/-- The tree that a step of a path completes. -/
def Frame.plug (f : Frame α) (t : ColorTree α) : ColorTree α := fork f.side f.red f.x t f.sib

/-- The whole tree, from a subtree and the path above it. -/
def plug : List (Frame α) → ColorTree α → ColorTree α
  | [], t => t
  | f :: ctx, t => plug ctx (f.plug t)

/-- The nodes of a path, and those of its subtrees. -/
def nodes : List (Frame α) → List α
  | [] => []
  | f :: ctx => f.x :: (f.sib.toList ++ nodes ctx)

/-- The nodes to the left of the subtree under a path. -/
def before : List (Frame α) → List α
  | [] => []
  | f :: ctx => match f.side with
    | .left => before ctx
    | .right => before ctx ++ (f.sib.toList ++ [f.x])

/-- The nodes to the right of the subtree under a path. -/
def after : List (Frame α) → List α
  | [] => []
  | f :: ctx => match f.side with
    | .left => f.x :: f.sib.toList ++ after ctx
    | .right => after ctx

theorem plug_append : plug (ctx ++ ctx') t = plug ctx' (plug ctx t) := by
  induction ctx generalizing t with
  | nil => rfl
  | cons f ctx ih => exact ih

theorem plug_ne_leaf (h : t ≠ leaf) : plug ctx t ≠ leaf := by
  induction ctx generalizing t with
  | nil => exact h
  | cons f ctx ih => exact ih fork_ne_leaf

theorem toList_plug : (plug ctx t).toList = before ctx ++ t.toList ++ after ctx := by
  induction ctx generalizing t with
  | nil => simp [plug, before, after]
  | cons f ctx ih =>
    obtain ⟨side, red, x, sib⟩ := f
    rw [plug, ih]
    cases side <;> simp [Frame.plug, fork, toList, before, after]

/-- Only the order of the nodes of the subtree matters to that of the whole. -/
theorem toList_plug_congr {t' : ColorTree α} (h : t.toList = t'.toList) :
    (plug ctx t).toList = (plug ctx t').toList := by
  rw [toList_plug, toList_plug, h]

theorem plug_perm : (plug ctx t).toList.Perm (t.toList ++ nodes ctx) := by
  induction ctx generalizing t with
  | nil => simp [plug, nodes]
  | cons f ctx ih =>
    refine ih.trans ?_
    refine (toList_fork_perm.append_right _).trans ?_
    rw [nodes, cons_append, append_assoc]
    exact perm_middle.symm

theorem nodes_append : nodes (ctx ++ ctx') = nodes ctx ++ nodes ctx' := by
  induction ctx with
  | nil => rfl
  | cons f ctx ih => simp [nodes, ih]

/-- Every node of a tree is at the end of a path. -/
theorem exists_plug (h : q ∈ t.toList) : ∃ ctx red l r, plug ctx (.node red l q r) = t := by
  induction t with
  | leaf => cases h
  | node red l x r ihl ihr =>
    rw [toList, mem_append, mem_cons] at h
    rcases h with h | rfl | h
    · obtain ⟨ctx, red', l', r', hplug⟩ := ihl h
      refine ⟨ctx ++ [⟨.left, red, x, r⟩], red', l', r', ?_⟩
      rw [plug_append, hplug]
      rfl
    · exact ⟨[], red, l, r, rfl⟩
    · obtain ⟨ctx, red', l', r', hplug⟩ := ihr h
      refine ⟨ctx ++ [⟨.right, red, x, l⟩], red', l', r', ?_⟩
      rw [plug_append, hplug]
      rfl

/-- A path that goes down to the left only has nothing to its left. -/
theorem before_eq_nil (h : ∀ f ∈ ctx, f.side = .left) : before ctx = [] := by
  induction ctx with
  | nil => rfl
  | cons f ctx ih =>
    rw [before, h f (.head _)]
    exact ih fun g hg => h g (.tail _ hg)

/-- A path that goes down to the right only has nothing to its right. -/
theorem after_eq_nil (h : ∀ f ∈ ctx, f.side = .right) : after ctx = [] := by
  induction ctx with
  | nil => rfl
  | cons f ctx ih =>
    rw [after, h f (.head _)]
    exact ih fun g hg => h g (.tail _ hg)

/-! ## Balance -/

/-- A red-black tree: the colour of its root and the number of black nodes on each path down
from it. -/
inductive Balanced : ColorTree α → Bool → ℕ → Prop
  | leaf : Balanced .leaf false 0
  | red {l r : ColorTree α} {x : α} {n : ℕ} : Balanced l false n → Balanced r false n →
      Balanced (.node true l x r) true n
  | black {l r : ColorTree α} {x : α} {c c' : Bool} {n : ℕ} : Balanced l c n → Balanced r c' n →
      Balanced (.node false l x r) false (n + 1)

theorem Balanced.isRed_eq (h : Balanced t c n) : t.isRed = c := by cases h <;> rfl

theorem balanced_fork_red : Balanced (fork side true x near far) c n ↔
    c = true ∧ Balanced near false n ∧ Balanced far false n := by
  constructor
  · intro h
    cases side with
    | left => cases h with | red hl hr => exact ⟨rfl, hl, hr⟩
    | right => cases h with | red hl hr => exact ⟨rfl, hr, hl⟩
  · rintro ⟨rfl, hnear, hfar⟩
    cases side with
    | left => exact .red hnear hfar
    | right => exact .red hfar hnear

/-- A red tree has a root, and black subtrees. -/
theorem Balanced.exists_red (side : Side) (h : Balanced t true n) :
    ∃ x near far, t = fork side true x near far ∧ Balanced near false n ∧ Balanced far false n := by
  cases h with
  | @red l r x n hl hr =>
    cases side with
    | left => exact ⟨x, l, r, rfl, hl, hr⟩
    | right => exact ⟨x, r, l, rfl, hr, hl⟩

theorem balanced_fork_black : Balanced (fork side false x near far) c n ↔
    c = false ∧ ∃ m, n = m + 1 ∧ (∃ c, Balanced near c m) ∧ ∃ c, Balanced far c m := by
  constructor
  · intro h
    cases side with
    | left => cases h with | black hl hr => exact ⟨rfl, _, rfl, ⟨_, hl⟩, ⟨_, hr⟩⟩
    | right => cases h with | black hl hr => exact ⟨rfl, _, rfl, ⟨_, hr⟩, ⟨_, hl⟩⟩
  · rintro ⟨rfl, m, rfl, ⟨_, hnear⟩, ⟨_, hfar⟩⟩
    cases side with
    | left => exact .black hnear hfar
    | right => exact .black hfar hnear

/-- A black root can be given to every balanced tree. -/
theorem Balanced.blacken (h : Balanced t c n) : ∃ m, Balanced t.blacken false m := by
  cases h with
  | leaf => exact ⟨0, .leaf⟩
  | red hl hr => exact ⟨_, .black hl hr⟩
  | black hl hr => exact ⟨_, .black hl hr⟩

/-- A black tree of positive height has a root. -/
theorem Balanced.exists_fork (side : Side) (h : Balanced t c (n + 1)) :
    ∃ red x near far, t = fork side red x near far := by
  rcases t.eq_leaf_or_fork side with rfl | hfork
  · cases h
  · exact hfork

/-- A path that makes a red-black tree with black root from a subtree of height `n`, which
has to be black unless `b`. -/
inductive Accepts : List (Frame α) → Bool → ℕ → Prop
  | root (n : ℕ) : Accepts [] false n
  | black {f : Frame α} {ctx : List (Frame α)} {c b : Bool} {n : ℕ} : f.red = false →
      Balanced f.sib c n → Accepts ctx b (n + 1) → Accepts (f :: ctx) true n
  | red {f : Frame α} {ctx : List (Frame α)} {n : ℕ} : f.red = true →
      Balanced f.sib false n → Accepts ctx true n → Accepts (f :: ctx) false n

/-- The subtree beside the last step of a path has the height that is accepted. -/
theorem Accepts.beside (h : Accepts (f :: ctx) b n) : ∃ c, Balanced f.sib c n := by
  cases h with
  | black _ hsib _ => exact ⟨_, hsib⟩
  | red _ hsib _ => exact ⟨_, hsib⟩

/-- A subtree that the path accepts completes a balanced tree. -/
theorem Accepts.plug (h : Accepts ctx b n) (ht : Balanced t c n) (hc : c = true → b = true) :
    ∃ m, Balanced (plug ctx t) false m := by
  induction h generalizing t c with
  | root n =>
    cases c with
    | false => exact ⟨n, ht⟩
    | true => cases hc rfl
  | @black f ctx c' b n hred hsib _ ih =>
    refine ih (c := false) ?_ (fun h => absurd h (by decide))
    rw [Frame.plug, hred]
    exact balanced_fork_black.mpr ⟨rfl, n, rfl, ⟨c, ht⟩, ⟨c', hsib⟩⟩
  | @red f ctx n hred hsib _ ih =>
    have hfalse : c = false := by
      cases c with
      | false => rfl
      | true => cases hc rfl
    subst hfalse
    refine ih (c := true) ?_ (fun _ => rfl)
    rw [Frame.plug, hred]
    exact balanced_fork_red.mpr ⟨rfl, ht, hsib⟩

/-- A path of a balanced tree accepts the subtree at its end. -/
theorem Accepts.of_plug (h : Balanced (RedBlack.plug ctx t) false m) :
    ∃ n c b, Balanced t c n ∧ Accepts ctx b n ∧ (c = true → b = true) := by
  induction ctx generalizing t with
  | nil => exact ⟨m, false, false, h, .root m, id⟩
  | cons f ctx ih =>
    obtain ⟨n, c, b, ht, hctx, hc⟩ := ih h
    rw [Frame.plug] at ht
    cases hred : f.red with
    | true =>
      rw [hred, balanced_fork_red] at ht
      obtain ⟨rfl, hnear, hfar⟩ := ht
      have hb := hc rfl
      subst hb
      exact ⟨n, false, false, hnear, .red hred hfar hctx, id⟩
    | false =>
      rw [hred, balanced_fork_black] at ht
      obtain ⟨rfl, m, rfl, ⟨c, hnear⟩, ⟨c', hfar⟩⟩ := ht
      exact ⟨m, c, true, hnear, .black hred hfar hctx, fun _ => rfl⟩

/-- A path accepts the same subtrees whatever the names of its nodes are. -/
theorem Accepts.rename {pre : List (Frame α)} {y : α}
    (h : Accepts (pre ++ ⟨side, red, x, sib⟩ :: ctx) b n) :
    Accepts (pre ++ ⟨side, red, y, sib⟩ :: ctx) b n := by
  induction pre generalizing b n with
  | nil =>
    cases h with
    | black hred hsib hctx => exact .black hred hsib hctx
    | red hred hsib hctx => exact .red hred hsib hctx
  | cons f pre ih =>
    cases h with
    | black hred hsib hctx => exact .black hred hsib (ih hctx)
    | red hred hsib hctx => exact .red hred hsib (ih hctx)

/-- The root of a balanced tree is black, if it is on the path. -/
theorem Accepts.last (h : Accepts ctx b n) (hctx : ctx ≠ []) :
    ∃ pre f, ctx = pre ++ [f] ∧ f.red = false := by
  induction h with
  | root n => exact absurd rfl hctx
  | @black f ctx c b n hred _ _ ih =>
    by_cases hnil : ctx = []
    · subst hnil
      exact ⟨[], f, rfl, hred⟩
    · obtain ⟨pre, g, rfl, hg⟩ := ih hnil
      exact ⟨f :: pre, g, rfl, hg⟩
  | @red f ctx n _ _ hup ih =>
    have hnil : ctx ≠ [] := by
      rintro rfl
      cases hup
    obtain ⟨pre, g, rfl, hg⟩ := ih hnil
    exact ⟨f :: pre, g, rfl, hg⟩

end Ucore.RedBlack
