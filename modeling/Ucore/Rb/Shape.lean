import Ucore.Lib.Cells
import Ucore.Rb.Tree

/-!
# The tree in memory

`At s ctx t` says that the memory of `s` holds the subtree `t` under the path `ctx`: each node
has the colour, the parent and the children that the tree gives it. Every change of the
pointers is a change of one spot of the tree, and one rule for each says which.
-/

namespace Ucore.Rb

open Kern RedBlack RedBlack.ColorTree List

variable {α : Type} {H : Prop} {E : Empty → RbTree α → Prop} {s s' : RbTree α}
  {t near far : ColorTree α} {side : Side} {red : Bool} {a p q x y z nil root : α} {f : Frame α}
  {ctx pre : List (Frame α)}

/-- A node with the child `a` on `side` and `b` on the other side. -/
def cell (side : Side) (red : Bool) (p a b : α) : Node α :=
  match side with
  | .left => ⟨red, p, a, b⟩
  | .right => ⟨red, p, b, a⟩

section Cell

variable {b c : α} {r : Bool}

@[simp] theorem cell_red : (cell side red p a b).red = red := by cases side <;> rfl

@[simp] theorem cell_parent : (cell side red p a b).parent = p := by cases side <;> rfl

@[simp] theorem cell_child : (cell side red p a b).child side = a := by cases side <;> rfl

@[simp] theorem cell_child_other : (cell side red p a b).child side.other = b := by
  cases side <;> rfl

@[simp] theorem cell_setRed : (cell side red p a b).setRed r = cell side r p a b := by
  cases side <;> rfl

@[simp] theorem cell_setParent : (cell side red p a b).setParent c = cell side red c a b := by
  cases side <;> rfl

@[simp] theorem cell_setChild : (cell side red p a b).setChild side c = cell side red p c b := by
  cases side <;> rfl

@[simp] theorem cell_setChild_other :
    (cell side red p a b).setChild side.other c = cell side red p a c := by
  cases side <;> rfl

theorem cell_other : cell side.other red p a b = cell side red p b a := by cases side <;> rfl

end Cell

/-- The address of a subtree. -/
def addr (nil : α) : ColorTree α → α
  | .leaf => nil
  | .node _ _ x _ => x

@[simp] theorem addr_fork : addr nil (fork side red x near far) = x := by cases side <;> rfl

theorem addr_mem (h : t ≠ .leaf) : addr nil t ∈ t.toList := by
  cases t with
  | leaf => exact absurd rfl h
  | node red l x r => simp [addr, toList]

/-- The memory of a subtree whose parent is `p`. -/
def Shape (s : RbTree α) : α → ColorTree α → Prop
  | _, .leaf => True
  | p, .node red l x r =>
    s.node x = ⟨red, p, addr s.nil l, addr s.nil r⟩ ∧ Shape s x l ∧ Shape s x r

/-- The parent of the subtree under a path. -/
def up (nil : α) : List (Frame α) → α
  | [] => nil
  | f :: _ => f.x

@[simp] theorem up_cons : up nil (f :: ctx) = f.x := rfl

/-- The memory of a path, with the subtree at `a` under it. -/
def PathShape (s : RbTree α) : α → List (Frame α) → Prop
  | _, [] => True
  | a, f :: ctx => s.node f.x = cell f.side f.red (up s.nil ctx) a (addr s.nil f.sib) ∧
      Shape s f.x f.sib ∧ PathShape s f.x ctx

/-- The memory of a tree with the subtree `t` under the path `ctx`. -/
structure At (s : RbTree α) (ctx : List (Frame α)) (t : ColorTree α) : Prop where
  path : PathShape s (addr s.nil t) ctx
  tree : Shape s (up s.nil ctx) t
  nodup : (t.toList ++ nodes ctx).Nodup
  nil : s.nil ∉ t.toList ++ nodes ctx

theorem shape_fork : Shape s p (fork side red x near far) ↔
    s.node x = cell side red p (addr s.nil near) (addr s.nil far) ∧ Shape s x near ∧
      Shape s x far := by
  cases side with
  | left => rfl
  | right => exact and_congr_right' and_comm

/-! ## The cells of a tree -/

/-- The cells of a subtree whose parent is `p`. -/
def cells (nil : α) : α → ColorTree α → Multiset (α × Node α)
  | _, .leaf => 0
  | p, .node red l x r =>
    {(x, ⟨red, p, addr nil l, addr nil r⟩)} + (cells nil x l + cells nil x r)

/-- The cells of a path, with the subtree at `a` under it. -/
def pathCells (nil : α) : α → List (Frame α) → Multiset (α × Node α)
  | _, [] => 0
  | a, f :: ctx => {(f.x, cell f.side f.red (up nil ctx) a (addr nil f.sib))} +
      (cells nil f.x f.sib + pathCells nil f.x ctx)

/-- The cells of a tree with the subtree `t` under the path `ctx`. -/
def spot (nil : α) (ctx : List (Frame α)) (t : ColorTree α) : Multiset (α × Node α) :=
  cells nil (up nil ctx) t + pathCells nil (addr nil t) ctx

theorem cells_fork : cells nil p (fork side red x near far) =
    {(x, cell side red p (addr nil near) (addr nil far))} +
      (cells nil x near + cells nil x far) := by
  cases side with
  | left => rfl
  | right => exact congrArg _ (add_comm ..)

/-- A step of the path belongs to the subtree as well. -/
theorem spot_cons : spot nil (f :: ctx) t = spot nil ctx (f.plug t) := by
  rw [spot, spot, Frame.plug, cells_fork, addr_fork, pathCells, up_cons]
  ac_rfl

theorem spot_append : spot nil (pre ++ ctx) t = spot nil ctx (plug pre t) := by
  induction pre generalizing t with
  | nil => rfl
  | cons f pre ih => rw [cons_append, spot_cons, ih, plug]

theorem map_cells : (cells nil p t).map Prod.fst = t.toList := by
  induction t generalizing p with
  | leaf => rfl
  | node red l x r ihl ihr =>
    rw [cells, Multiset.map_add, Multiset.map_add, ihl, ihr, add_left_comm]
    rfl

theorem map_pathCells : (pathCells nil a ctx).map Prod.fst = nodes ctx := by
  induction ctx generalizing a with
  | nil => rfl
  | cons f ctx ih =>
    rw [pathCells, Multiset.map_add, Multiset.map_add, ih, map_cells]
    rfl

theorem map_spot : (spot nil ctx t).map Prod.fst = t.toList ++ nodes ctx := by
  rw [spot, Multiset.map_add, map_cells, map_pathCells, Multiset.coe_add]

theorem shape_iff : Shape s p t ↔ ∀ c ∈ cells s.nil p t, s.node c.1 = c.2 := by
  induction t generalizing p with
  | leaf => simp [Shape, cells]
  | node red l x r ihl ihr =>
    simp only [Shape, cells, ihl, ihr, Multiset.mem_add, Multiset.mem_singleton, or_imp,
      forall_and, forall_eq]

theorem pathShape_iff : PathShape s a ctx ↔ ∀ c ∈ pathCells s.nil a ctx, s.node c.1 = c.2 := by
  induction ctx generalizing a with
  | nil => simp [PathShape, pathCells]
  | cons f ctx ih =>
    simp only [PathShape, pathCells, shape_iff, ih, Multiset.mem_add, Multiset.mem_singleton,
      or_imp, forall_and, forall_eq]

/-- The memory of a tree, and that of `nil`, as cells. -/
theorem at_iff : At s ctx t ↔ Holds s.node ({(s.nil, s.node s.nil)} + spot s.nil ctx t) := by
  rw [Holds.holds_cell, map_spot]
  constructor
  · rintro ⟨hpath, htree, hnodup, hnil⟩
    refine ⟨rfl, hnil, by rwa [map_spot, Multiset.coe_nodup], fun c hc => ?_⟩
    rcases Multiset.mem_add.mp hc with hc | hc
    · exact shape_iff.mp htree c hc
    · exact pathShape_iff.mp hpath c hc
  · rintro ⟨-, hnil, hholds⟩
    have hnodup := hholds.nodup
    rw [map_spot] at hnodup
    exact ⟨pathShape_iff.mpr fun c hc => hholds.eq c (Multiset.mem_add.mpr (.inr hc)),
      shape_iff.mpr fun c hc => hholds.eq c (Multiset.mem_add.mpr (.inl hc)), hnodup, hnil⟩

theorem at_cons : At s (f :: ctx) t ↔ At s ctx (f.plug t) := by
  rw [at_iff, at_iff, spot_cons]

/-! ## The whole tree -/

/-- The node `root` above the tree. -/
def top (root : α) : Frame α := ⟨.left, false, root, .leaf⟩

/-- The memory of the tree below `root`, with the subtree `t` under the path `ctx`. -/
structure On (s : RbTree α) (ctx : List (Frame α)) (t : ColorTree α) : Prop where
  mem : At s (ctx ++ [top s.root]) t
  black : (s.node s.nil).red = false

theorem up_append_top : up nil (ctx ++ [top root]) = up root ctx := by cases ctx <;> rfl

/-- The side of its parent on which the subtree under a path is. -/
def holeSide : List (Frame α) → Side
  | [] => .left
  | f :: _ => f.side

theorem exists_frame (root : α) (ctx : List (Frame α)) :
    ∃ f ctx', ctx ++ [top root] = f :: ctx' ∧ f.x = up root ctx ∧ f.side = holeSide ctx := by
  cases ctx with
  | nil => exact ⟨_, _, rfl, rfl, rfl⟩
  | cons f ctx => exact ⟨f, _, rfl, rfl, rfl⟩

theorem on_cons : On s (f :: ctx) t ↔ On s ctx (f.plug t) := by
  constructor
  · rintro ⟨hmem, hblack⟩
    exact ⟨at_cons.mp hmem, hblack⟩
  · rintro ⟨hmem, hblack⟩
    exact ⟨at_cons.mpr hmem, hblack⟩

theorem on_fork : On s ctx (fork side red x near far) ↔ On s (⟨side, red, x, far⟩ :: ctx) near :=
  (on_cons (f := ⟨side, red, x, far⟩)).symm

theorem on_append : On s (pre ++ ctx) t ↔ On s ctx (plug pre t) := by
  induction pre generalizing t with
  | nil => rfl
  | cons f pre ih => rw [cons_append, on_cons, ih, plug]

theorem on_plug : On s ctx t ↔ On s [] (plug ctx t) := by
  rw [← on_append, append_nil]

theorem On.ne_nil (h : On s ctx t) (hq : q ∈ t.toList ++ nodes ctx) : q ≠ s.nil := by
  rintro rfl
  refine h.mem.nil ?_
  rw [nodes_append, ← append_assoc]
  exact mem_append_left _ hq

theorem On.nodup (h : On s ctx t) : (t.toList ++ nodes ctx ++ [s.root]).Nodup := by
  have hnodup := h.mem.nodup
  rw [nodes_append] at hnodup
  simpa [top, nodes, toList] using hnodup

theorem On.ne_root (h : On s ctx t) (hq : q ∈ t.toList ++ nodes ctx) : q ≠ s.root :=
  (nodup_append.mp h.nodup).2.2 q hq _ (.head _)

/-- What the memory holds at the root of the subtree. -/
theorem On.node_fork (h : On s ctx (fork side red x near far)) :
    s.node x = cell side red (up s.root ctx) (addr s.nil near) (addr s.nil far) := by
  have hup : up s.nil (ctx ++ [top s.root]) = up s.root ctx := up_append_top
  rw [← hup]
  exact (shape_fork.mp h.mem.tree).1

/-- `On.node_fork` at a node that is not seen from one of its sides. -/
theorem On.node_eq {l r : ColorTree α} (h : On s ctx (node red l x r)) :
    s.node x = ⟨red, up s.root ctx, addr s.nil l, addr s.nil r⟩ := by
  have hfork : On s ctx (fork .left red x l r) := h
  exact hfork.node_fork

/-- What the memory holds at the end of the path. -/
theorem On.node_frame (h : On s (f :: ctx) t) :
    s.node f.x = cell f.side f.red (up s.root ctx) (addr s.nil t) (addr s.nil f.sib) := by
  rw [on_cons] at h
  exact h.node_fork

/-- The node `root` has the tree as its left child. -/
theorem On.node_root (h : On s [] t) : s.node s.root = ⟨false, s.nil, addr s.nil t, s.nil⟩ :=
  h.mem.path.1

/-- The colour of a subtree is that of its root in memory. -/
theorem On.red_addr (h : On s ctx t) : (s.node (addr s.nil t)).red = t.isRed := by
  cases t with
  | leaf => exact h.black
  | node red l x r =>
    rw [addr, h.mem.tree.1]
    rfl

/-- The parent pointer of a subtree that is no leaf. -/
theorem On.parent_addr (h : On s ctx t) (ht : t ≠ .leaf) :
    (s.node (addr s.nil t)).parent = up s.root ctx := by
  obtain ⟨red, x, near, far, rfl⟩ := (t.eq_leaf_or_fork .left).resolve_left ht
  exact h.node_fork ▸ cell_parent

theorem On.addr_eq_nil (h : On s ctx t) : addr s.nil t = s.nil ↔ t = .leaf := by
  constructor
  · intro heq
    by_contra ht
    exact h.ne_nil (mem_append_left _ (addr_mem ht)) heq
  · rintro rfl
    rfl

/-- The subtree under a path is not the other one of its parent. -/
theorem On.ne_sib {ctx' : List (Frame α)} (h : On s ctx t) (ht : t ≠ .leaf)
    (heq : ctx ++ [top s.root] = f :: ctx') : addr s.nil t ≠ addr s.nil f.sib := by
  have hholds := at_iff.mp h.mem
  obtain ⟨red, x, near, far, rfl⟩ := (t.eq_leaf_or_fork .left).resolve_left ht
  rw [heq, spot, cells_fork, pathCells, add_assoc] at hholds
  refine hholds.swap.ne ?_
  rcases eq_or_ne f.sib .leaf with hleaf | hleaf
  · simp [hleaf, addr]
  · simp [map_cells, addr_mem hleaf]

theorem On.addr_ne_sib (h : On s (f :: ctx) t) (ht : t ≠ .leaf) : addr s.nil t ≠ addr s.nil f.sib :=
  h.ne_sib ht rfl

/-! ## Rules for the changes of the pointers -/

/-- The cells that the memory of `s` holds. -/
structure Mem (nil root : α) (s : RbTree α) (M : Multiset (α × Node α)) : Prop where
  nil : s.nil = nil
  root : s.root = root
  holds : Holds s.node M

variable {M N K L : Multiset (α × Node α)} {n n₀ : Node α} {Q : Unit → RbTree α → Prop}

theorem Mem.map (h : Mem nil root s M) (hM : Holds s.node M → Holds s.node N) : Mem nil root s N :=
  ⟨h.nil, h.root, hM h.holds⟩

theorem Mem.of_eq (h : Mem nil root s M) (heq : M = N) : Mem nil root s N := heq ▸ h

theorem Mem.head (h : Mem nil root s ({(x, n)} + M)) : s.node x = n := h.holds.head

theorem Mem.get (h : Mem nil root s M) (hx : (x, n) ∈ M) : s.node x = n := h.holds.eq _ hx

theorem Mem.swap (h : Mem nil root s (M + (N + K))) : Mem nil root s (N + (M + K)) :=
  h.map Holds.swap

theorem Mem.third (h : Mem nil root s (M + (N + (K + L)))) : Mem nil root s (K + (M + (N + L))) :=
  h.map Holds.third

/-- The cells of a tree in memory. -/
theorem On.held (h : On s ctx t) : Mem s.nil s.root s
    ({(s.nil, s.node s.nil)} + spot s.nil (ctx ++ [top s.root]) t) :=
  ⟨rfl, rfl, at_iff.mp h.mem⟩

theorem Mem.on (h : Mem nil root s ({(nil, n₀)} + spot nil (ctx ++ [top root]) t))
    (hred : n₀.red = false) : On s ctx t := by
  have hhead := h.head
  subst hhead
  obtain ⟨rfl, rfl, hholds⟩ := h
  exact ⟨at_iff.mpr hholds, hred⟩

/-- What the rebalancing keeps: the two special nodes, what `nil` holds, and the order of the
nodes of the tree. -/
structure Outline (α : Type) where
  nil : α
  root : α
  sentinel : Node α
  list : List α

/-- The outline of a memory that holds the tree `t`. -/
def RbTree.outline (s : RbTree α) (t : ColorTree α) : Outline α :=
  ⟨s.nil, s.root, s.node s.nil, t.toList⟩

/-- The memory holds `t` under `ctx`, with the outline `o`. -/
def Focus (o : Outline α) (s : RbTree α) (ctx : List (Frame α)) (t : ColorTree α) : Prop :=
  On s ctx t ∧ s.outline (plug ctx t) = o

section Focus

variable {o : Outline α}

theorem focus_cons : Focus o s (f :: ctx) t ↔ Focus o s ctx (f.plug t) := and_congr on_cons Iff.rfl

theorem focus_fork : Focus o s ctx (fork side red x near far) ↔
    Focus o s (⟨side, red, x, far⟩ :: ctx) near :=
  and_congr on_fork Iff.rfl

theorem focus_flip {u : ColorTree α} :
    Focus o s (⟨side, red, x, u⟩ :: ctx) t ↔ Focus o s (⟨side.other, red, x, t⟩ :: ctx) u := by
  rw [← focus_fork, ← focus_fork, fork_other]

theorem focus_plug : Focus o s ctx t ↔ Focus o s [] (plug ctx t) := and_congr on_plug Iff.rfl

theorem Focus.nil_eq (h : Focus o s ctx t) : s.nil = o.nil := congrArg Outline.nil h.2

theorem Focus.root_eq (h : Focus o s ctx t) : s.root = o.root := congrArg Outline.root h.2

theorem Focus.list (h : Focus o s ctx t) : (plug ctx t).toList = o.list :=
  congrArg Outline.list h.2

theorem Focus.black (h : Focus o s ctx t) : o.sentinel.red = false := by
  obtain ⟨hon, rfl⟩ := h
  exact hon.black

theorem Focus.held (h : Focus o s ctx t) :
    Mem o.nil o.root s ({(o.nil, o.sentinel)} + spot o.nil (ctx ++ [top o.root]) t) := by
  obtain ⟨hon, rfl⟩ := h
  exact hon.held

theorem Mem.focus
    (h : Mem o.nil o.root s ({(o.nil, o.sentinel)} + spot o.nil (ctx ++ [top o.root]) t))
    (hblack : o.sentinel.red = false) (hlist : (plug ctx t).toList = o.list) :
    Focus o s ctx t := by
  refine ⟨h.on hblack, ?_⟩
  rw [RbTree.outline, h.nil, h.root, h.head, hlist]

theorem Focus.node_fork (h : Focus o s ctx (fork side red x near far)) :
    s.node x = cell side red (up o.root ctx) (addr o.nil near) (addr o.nil far) := by
  rw [← h.nil_eq, ← h.root_eq]
  exact h.1.node_fork

theorem Focus.node_frame (h : Focus o s (f :: ctx) t) :
    s.node f.x = cell f.side f.red (up o.root ctx) (addr o.nil t) (addr o.nil f.sib) :=
  (focus_cons.mp h).node_fork

theorem Focus.red_addr (h : Focus o s ctx t) : (s.node (addr o.nil t)).red = t.isRed := by
  rw [← h.nil_eq]
  exact h.1.red_addr

/-- The parent pointer of a subtree, if `nil` has it too. -/
theorem Focus.parent_addr (h : Focus o s ctx t)
    (hnil : t = .leaf → o.sentinel.parent = up o.root ctx) :
    (s.node (addr o.nil t)).parent = up o.root ctx := by
  by_cases ht : t = .leaf
  · rw [ht, addr, h.held.head, hnil ht]
  · rw [← h.nil_eq, ← h.root_eq]
    exact h.1.parent_addr ht

end Focus

variable [DecidableEq α] {g : Node α → Node α} {side' : Side}

/-- A write to one cell. -/
theorem Mem.set (h : Mem nil root s ({(x, n)} + M)) :
    Mem nil root (s.setNode x g) ({(x, g n)} + M) := by
  refine ⟨h.nil, h.root, ?_⟩
  rw [RbTree.setNode, h.head]
  exact h.holds.write

theorem Mem.wp_set (h : Mem nil root s ({(x, n)} + M))
    (hQ : ∀ s', Mem nil root s' ({(x, g n)} + M) → Q () s') :
    (modify fun s => s.setNode x g : TreeM α Unit).wp H E Q s :=
  hQ _ h.set

/-- The child `x` of `p` is replaced on the side on which it is. -/
theorem Mem.wp_replaceChild {b pp : α} (h : Mem nil root s ({(p, cell side' red pp x b)} + M))
    (hne : x ≠ b) (hQ : ∀ s', Mem nil root s' ({(p, cell side' red pp y b)} + M) → Q () s') :
    (replaceChild side p x y).wp H E Q s := by
  have hset : (setChild side' p y : TreeM α Unit).wp H E Q s := h.wp_set fun s' h' => by
    rw [cell_setChild] at h'
    exact hQ s' h'
  rw [replaceChild, wp_get, wp_ite, h.head]
  rcases eq_or_ne side' side with rfl | hside
  · exact ⟨fun _ => hset, absurd cell_child.symm⟩
  · have hother := Side.eq_other_of_ne hside
    subst hother
    refine ⟨fun heq => absurd ?_ hne, fun _ => hset⟩
    rwa [cell_other, cell_child] at heq

/-- A subtree gets another parent. -/
theorem Mem.wp_setParent {q : α} (ht : t ≠ .leaf) (h : Mem nil root s (cells nil p t + M))
    (hQ : ∀ s', Mem nil root s' (cells nil q t + M) → Q () s') :
    (setParent (addr nil t) q).wp H E Q s := by
  obtain ⟨red, x, near, far, rfl⟩ := (t.eq_leaf_or_fork .left).resolve_left ht
  simp only [cells_fork, add_assoc] at h hQ
  exact h.wp_set hQ

/-- A subtree gets another parent, or `nil` does. -/
theorem Mem.wp_reparent {q : α} (h : Mem nil root s ((cells nil p t + {(nil, n₀)}) + M))
    (hQ : ∀ s', Mem nil root s' ((cells nil q t +
      {(nil, if t = .leaf then n₀.setParent q else n₀)}) + M) → Q () s') :
    (setParent (addr nil t) q).wp H E Q s := by
  by_cases ht : t = .leaf
  · subst ht
    exact h.wp_set hQ
  · rw [if_neg ht, add_assoc] at hQ
    rw [add_assoc] at h
    exact h.wp_setParent ht hQ

/-- A subtree gets another parent, unless it is missing. -/
theorem Mem.wp_adopt (h : Mem nil root s ((cells nil p t + {(nil, n₀)}) + M))
    (hQ : ∀ s', Mem nil root s' ((cells nil x t + {(nil, n₀)}) + M) → Q () s') :
    (adopt (addr nil t) x).wp H E Q s := by
  rw [adopt, wp_get, wp_ite, h.nil]
  by_cases ht : t = .leaf
  · subst ht
    exact ⟨(absurd rfl), fun _ => hQ s h⟩
  · simp only [add_assoc] at h hQ
    refine ⟨fun _ => h.wp_setParent ht hQ, fun heq => ?_⟩
    refine absurd (not_not.mp heq).symm (h.swap.holds.ne ?_)
    simp [map_cells, addr_mem ht]

section Rules

variable {o : Outline α} {r : Bool}

/-- The test of the source finds the side on which the subtree is. -/
theorem Focus.side_eq (h : Focus o s (f :: ctx) t) (hne : t ≠ .leaf ∨ f.sib ≠ .leaf) :
    (if addr o.nil t = (s.node f.x).left then Side.left else .right) = f.side := by
  obtain ⟨side, red, x, sib⟩ := f
  have haddr : addr o.nil t ≠ addr o.nil sib := by
    rw [← h.nil_eq]
    rcases hne with ht | hsib
    · exact h.1.addr_ne_sib ht
    · exact ((focus_flip.mp h).1.addr_ne_sib hsib).symm
  rw [h.node_frame]
  cases side with
  | left => exact if_pos rfl
  | right => exact if_neg haddr

/-- Another colour for the root of the subtree. -/
theorem Focus.wp_setRed (h : Focus o s ctx (fork side red x near far))
    (hQ : ∀ s', Focus o s' ctx (fork side r x near far) → Q () s') : (setRed x r).wp H E Q s := by
  have hcells := h.held
  rw [spot, cells_fork, add_assoc] at hcells
  refine hcells.swap.wp_set fun s' h' => hQ s' (Mem.focus (h'.swap.of_eq ?_) h.black ?_)
  · rw [spot, cells_fork, add_assoc {_}, cell_setRed, addr_fork, addr_fork]
  · rw [← h.list]
    exact toList_plug_congr (toList_fork_congr rfl rfl)

/-- Another colour for the parent of the subtree. -/
theorem Focus.wp_setRed_frame {sib : ColorTree α} (h : Focus o s (⟨side, red, p, sib⟩ :: ctx) t)
    (hQ : ∀ s', Focus o s' (⟨side, r, p, sib⟩ :: ctx) t → Q () s') : (setRed p r).wp H E Q s :=
  (focus_fork.mpr h).wp_setRed fun s' h' => hQ s' (focus_fork.mp h')

/-- Another colour for the sibling of the subtree. -/
theorem Focus.wp_setRed_sib {c : Bool} {w : α}
    (h : Focus o s (⟨side, c, p, fork side' red w near far⟩ :: ctx) t)
    (hQ : ∀ s', Focus o s' (⟨side, c, p, fork side' r w near far⟩ :: ctx) t → Q () s') :
    (setRed w r).wp H E Q s :=
  (focus_flip.mp h).wp_setRed fun s' h' => hQ s' (focus_flip.mpr h')

/-- `rb_left_rotate` and `rb_right_rotate`. -/
theorem Focus.wp_rotate {rx ry : Bool} {mid : ColorTree α}
    (h : Focus o s ctx (fork side rx x near (fork side ry y mid far)))
    (hQ : ∀ s', Focus o s' ctx (fork side ry y (fork side rx x near mid) far) → Q () s') :
    (rotate side x).wp H E Q s := by
  have hxmem : x ∈ (fork side rx x near (fork side ry y mid far)).toList ++ nodes ctx := by
    simp [mem_toList_fork]
  have hynil : y ≠ s.nil := h.1.ne_nil (by simp [mem_toList_fork])
  obtain ⟨f, ctx', heq, -, -⟩ := exists_frame o.root ctx
  have hsib : x ≠ addr o.nil f.sib := by
    have hne := h.1.ne_sib fork_ne_leaf (h.root_eq ▸ heq)
    rwa [addr_fork, h.nil_eq] at hne
  have h₀ : Mem o.nil o.root s ({(x, cell side rx f.x (addr o.nil near) y)} +
      ((cells o.nil y mid + {(o.nil, o.sentinel)}) +
      ({(y, cell side ry x (addr o.nil mid) (addr o.nil far))} +
      ({(f.x, cell f.side f.red (up o.nil ctx') x (addr o.nil f.sib))} +
      (cells o.nil x near + cells o.nil y far +
        (cells o.nil f.x f.sib + pathCells o.nil f.x ctx')))))) := by
    refine h.held.of_eq ?_
    rw [heq, spot, pathCells, cells_fork, cells_fork, addr_fork, addr_fork]
    ac_rfl
  rw [Rb.rotate, wp_get, wp_bind, h₀.head, cell_child_other]
  refine wp_assert_of ⟨h.1.ne_root hxmem, h.1.ne_nil hxmem, hynil⟩ ?_
  rw [h₀.third.head, cell_child, wp_bind]
  refine h₀.wp_set fun s₁ h₁ => ?_
  refine wp_seq (h₁.swap.wp_adopt fun s₂ h₂ => ?_)
  rw [wp_get, h₂.swap.head, cell_setChild_other, cell_parent, wp_bind]
  refine h₂.third.wp_set fun s₃ h₃ => ?_
  refine wp_seq ((h₃.map Holds.fourth).wp_replaceChild hsib fun s₄ h₄ => ?_)
  refine wp_seq (h₄.swap.wp_set fun s₅ h₅ => ?_)
  refine wp_seq ((h₅.map Holds.fourth).wp_set fun s₆ h₆ => ?_)
  have h' : Focus o s₆ ctx (fork side ry y (fork side rx x near mid) far) := by
    refine Mem.focus (h₆.of_eq ?_) h.black ?_
    · rw [heq, spot, pathCells, cells_fork, cells_fork, addr_fork, addr_fork, cell_setChild_other,
        cell_setParent, cell_setParent, cell_setChild]
      ac_rfl
    · rw [← h.list]
      exact toList_plug_congr toList_rotate
  exact wp_assert_of h'.1.black (hQ s₆ h')

end Rules

end Ucore.Rb
