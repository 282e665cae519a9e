import Ucore.Rb.Delete

/-!
# Search and neighbours

What `rb_search`, `rb_node_next` and `rb_node_prev` return, in terms of the list of the nodes
from left to right.
-/

namespace Ucore.Rb

open Kern RedBlack RedBlack.ColorTree List

variable {α : Type} [DecidableEq α] {H : Prop} {E : Empty → RbTree α → Prop} {s : RbTree α}
  {t l r : ColorTree α} {red : Bool} {x : α} {ctx : List (Frame α)} {compare : α → α → ℤ}
  {key : α → ℤ} {fuel : ℕ} {Q : α → RbTree α → Prop}

/-! ## Search -/

/-- A key splits the nodes in order into those before it, those at it and those after it. -/
structure KeyFor (compare : α → α → ℤ) (key : α → ℤ) : Prop where
  after : ∀ a b, compare a b ≤ 0 → 0 < key a → 0 < key b
  before : ∀ a b, compare a b ≤ 0 → key b < 0 → key a < 0

/-- The loop of `rb_search` ends at a node with the key, or at `nil` if there is none. -/
theorem wp_searchFrom (hkey : KeyFor compare key) (h : On s ctx t)
    (hsorted : Sorted compare t.toList) (hfuel : H ∨ t.toList.length < fuel)
    (hfound : ∀ x ∈ t.toList, key x = 0 → Q x s) (hnone : (∀ x ∈ t.toList, key x ≠ 0) → Q s.nil s) :
    (searchFrom key fuel (addr s.nil t)).wp H E Q s := by
  induction fuel generalizing ctx t with
  | zero => exact hfuel.resolve_right (Nat.not_lt_zero _)
  | succ fuel ih =>
    cases t with
    | leaf =>
      rw [searchFrom, wp_get]
      exact wp_if (fun hne => absurd rfl hne.1) fun _ => hnone nofun
    | node red l x r =>
      have hx : x ≠ s.nil := h.ne_nil (mem_append_left _ (by simp [toList]))
      have hl : On s (⟨.left, red, x, r⟩ :: ctx) l := on_fork.mp h
      have hr : On s (⟨.right, red, x, l⟩ :: ctx) r := on_fork.mp h
      obtain ⟨hsl, hsr, hlr⟩ := pairwise_append.mp hsorted
      obtain ⟨hxr, hsr⟩ := pairwise_cons.mp hsr
      rw [toList, length_append, length_cons] at hfuel
      rw [searchFrom, wp_get, wp_ite, addr, h.node_eq]
      refine ⟨fun hgo => ?_, fun hstop => ?_⟩
      · by_cases hpos : 0 < key x
        · rw [if_pos hpos]
          refine ih hl hsl (hfuel.imp_right fun hlt => by omega)
            (fun y hy => hfound y (mem_append_left _ hy)) fun hno => hnone fun y hy => ?_
          rcases mem_append.mp hy with hy | hy
          · exact hno y hy
          · rcases mem_cons.mp hy with rfl | hy
            · exact hgo.2
            · exact (Int.ne_of_lt (hkey.after x y (hxr y hy) hpos)).symm
        · rw [if_neg hpos]
          have hneg : key x < 0 := by
            omega
          refine ih hr hsr (hfuel.imp_right fun hlt => by omega)
            (fun y hy => hfound y (mem_append_right _ (.tail _ hy)))
            fun hno => hnone fun y hy => ?_
          rcases mem_append.mp hy with hy | hy
          · exact Int.ne_of_lt (hkey.before y x (hlr y hy x (.head _)) hneg)
          · rcases mem_cons.mp hy with rfl | hy
            · exact hgo.2
            · exact hno y hy
      · have hzero : key x = 0 := by
          by_contra hne
          exact hstop ⟨hx, hne⟩
        exact hfound x (mem_append_right _ (.head _)) hzero

theorem RbTree.orNull_getD {o : Option α} (ho : ∀ x ∈ o, x ≠ s.nil) :
    s.orNull (o.getD s.nil) = o := by
  cases o with
  | none => exact if_neg (not_not.mpr rfl)
  | some x => exact if_pos (ho x rfl)

/-- `rb_search` finds a node with the key, if there is one. -/
theorem wp_rbSearch {Q : Option α → RbTree α → Prop} (hkey : KeyFor compare key) (h : On s [] t)
    (hsorted : Sorted compare t.toList) (hfuel : H ∨ t.toList.length < fuel)
    (hfound : ∀ x ∈ t.toList, key x = 0 → Q (some x) s)
    (hnone : (∀ x ∈ t.toList, key x ≠ 0) → Q none s) :
    (rbSearch key fuel).wp H E Q s := by
  rw [rbSearch, wp_get, h.node_root, wp_bind]
  refine wp_searchFrom hkey h hsorted hfuel (fun x hx hzero => ?_) fun hno => ?_
  · have hne : x ≠ s.nil := h.ne_nil (mem_append_left _ hx)
    rw [wp_pure, RbTree.orNull, if_pos hne]
    exact hfound x hx hzero
  · rw [wp_pure, RbTree.orNull, if_neg (not_not.mpr rfl)]
    exact hnone hno

/-! ## Neighbours -/

omit [DecidableEq α] in
/-- The nodes beside a subtree are nodes of the tree. -/
theorem On.of_mem_beside {q : α} (h : On s ctx t) (hq : q ∈ before ctx ∨ q ∈ after ctx) :
    q ≠ s.nil ∧ q ≠ s.root := by
  have hmem : q ∈ (plug ctx t).toList := by
    rw [toList_plug, mem_append, mem_append]
    exact hq.imp .inl id
  have hmem' := mem_append_left (nodes []) hmem
  exact ⟨(on_plug.mp h).ne_nil hmem', (on_plug.mp h).ne_root hmem'⟩

section

variable (h : On s ctx t) (ht : t ≠ .leaf) (hfuel : H ∨ ctx.length < fuel)
include h ht hfuel

/-- The way up from a subtree to the first node to its right. -/
theorem wp_successorUp (hQ : Q ((after ctx).head?.getD s.root) s) :
    (successorUp fuel (addr s.nil t) (up s.root ctx)).wp H E Q s := by
  induction fuel generalizing ctx t with
  | zero => exact hfuel.resolve_right (Nat.not_lt_zero _)
  | succ fuel ih =>
    rw [successorUp, wp_get, wp_ite]
    cases ctx with
    | nil =>
      rw [up, h.node_root]
      refine ⟨fun heq => absurd heq (mt h.addr_eq_nil.mp ht), fun _ => hQ⟩
    | cons f ctx =>
      obtain ⟨side, red, x, sib⟩ := f
      have hnode := h.node_frame
      have hne := h.addr_ne_sib ht
      rw [up_cons, hnode]
      cases side with
      | left => exact ⟨fun heq => absurd heq hne, fun _ => hQ⟩
      | right =>
        refine ⟨fun _ => ?_, absurd rfl⟩
        have hup : On s ctx (node red sib x t) := on_cons.mp h
        exact ih hup (by simp) (hfuel.imp_right Nat.lt_of_succ_lt_succ) hQ

/-- The way up from a subtree to the last node to its left. -/
theorem wp_predecessorUp (hQ : Q ((before ctx).getLast?.getD s.nil) s) :
    (predecessorUp fuel (addr s.nil t) (up s.root ctx)).wp H E Q s := by
  induction fuel generalizing ctx t with
  | zero => exact hfuel.resolve_right (Nat.not_lt_zero _)
  | succ fuel ih =>
    rw [predecessorUp, wp_get, wp_ite, wp_ite]
    cases ctx with
    | nil =>
      rw [up, h.node_root]
      exact ⟨fun _ => ⟨fun _ => hQ, absurd rfl⟩, absurd rfl⟩
    | cons f ctx =>
      obtain ⟨side, red, x, sib⟩ := f
      have hnode := h.node_frame
      have hne := h.addr_ne_sib ht
      rw [up_cons, hnode]
      cases side with
      | left =>
        have hroot : x ≠ s.root := h.ne_root (mem_append_right _ (.head _))
        refine ⟨fun _ => ⟨fun heq => absurd heq hroot, fun _ => ?_⟩, absurd rfl⟩
        have hup : On s ctx (node red t x sib) := on_cons.mp h
        exact ih hup (by simp) (hfuel.imp_right Nat.lt_of_succ_lt_succ) hQ
      | right =>
        refine ⟨fun heq => absurd heq hne, fun _ => ?_⟩
        simpa [before] using hQ

end

/-- `rb_tree_successor` returns the next node from left to right. -/
theorem wp_rbTreeSuccessor (h : On s ctx (node red l x r))
    (hfuel : H ∨ r.toList.length + ctx.length < fuel)
    (hQ : Q ((r.toList ++ after ctx).head?.getD s.nil) s) :
    (rbTreeSuccessor fuel x).wp H E Q s := by
  have hr : On s (⟨.right, red, x, l⟩ :: ctx) r := on_fork.mp h
  rw [rbTreeSuccessor, wp_get, wp_ite, h.node_eq, ne_eq, hr.addr_eq_nil]
  refine ⟨fun hleaf => ?_, fun hleaf => ?_⟩
  · refine wp_bottom hr hleaf (hfuel.imp_right fun hlt => by omega)
      fun pre yred y far _ hplug hside => ?_
    have hlist : r.toList = y :: (far.toList ++ after pre) := by
      rw [← hplug, toList_plug, before_eq_nil hside]
      rfl
    rw [hlist] at hQ
    exact hQ
  · rw [not_not] at hleaf
    subst hleaf
    refine wp_seq (wp_successorUp h (by simp) (hfuel.imp_right fun hlt => by omega) ?_)
    cases hafter : after ctx with
    | nil =>
      rw [hafter] at hQ
      rw [List.head?_nil, Option.getD_none, if_pos rfl]
      exact hQ
    | cons a as =>
      rw [hafter] at hQ
      have ha : a ∈ after ctx := by rw [hafter]; exact .head _
      rw [List.head?_cons, Option.getD_some, if_neg (h.of_mem_beside (.inr ha)).2]
      exact hQ

/-- `rb_tree_predecessor` returns the node before from left to right. -/
theorem wp_rbTreePredecessor (h : On s ctx (node red l x r))
    (hfuel : H ∨ l.toList.length + ctx.length < fuel)
    (hQ : Q ((before ctx ++ l.toList).getLast?.getD s.nil) s) :
    (rbTreePredecessor fuel x).wp H E Q s := by
  have hl : On s (⟨.left, red, x, r⟩ :: ctx) l := on_fork.mp h
  rw [rbTreePredecessor, wp_get, wp_ite, h.node_eq, ne_eq, hl.addr_eq_nil]
  refine ⟨fun hleaf => ?_, fun hleaf => ?_⟩
  · refine wp_bottom hl hleaf (hfuel.imp_right fun hlt => by omega)
      fun pre yred y far _ hplug hside => ?_
    have hlist : l.toList = before pre ++ (far.toList ++ [y]) := by
      rw [← hplug, toList_plug, after_eq_nil hside, append_nil]
      rfl
    rw [hlist] at hQ
    simpa using hQ
  · rw [not_not] at hleaf
    subst hleaf
    rw [toList, append_nil] at hQ
    exact wp_predecessorUp h (by simp) (hfuel.imp_right fun hlt => by omega) hQ

omit [DecidableEq α] in
/-- A node of the list at the end of its path. -/
theorem On.exists_path {pre post : List α} (h : On s [] t) (hlist : t.toList = pre ++ x :: post) :
    ∃ ctx red l r, On s ctx (node red l x r) ∧ pre = before ctx ++ l.toList ∧
      post = r.toList ++ after ctx ∧
      l.toList.length + r.toList.length + ctx.length < t.toList.length := by
  have hmem : x ∈ t.toList := by
    rw [hlist]
    exact mem_append_right _ (.head _)
  obtain ⟨ctx, red, l, r, rfl⟩ := exists_plug hmem
  have hnodup : (plug ctx (node red l x r)).toList.Nodup :=
    (nodup_append.mp (nodup_append.mp h.nodup).1).1
  have hpath : (plug ctx (node red l x r)).toList =
      (before ctx ++ l.toList) ++ x :: (r.toList ++ after ctx) := by
    rw [toList_plug, toList]
    simp
  have hnot : x ∉ pre ∧ x ∉ post := by
    rw [hlist, nodup_middle, nodup_cons, mem_append, not_or] at hnodup
    exact hnodup.1
  obtain ⟨hpre, -, hpost⟩ :=
    (append_cons_inj_of_notMem hnot.1 hnot.2).mp (hlist.symm.trans hpath)
  refine ⟨ctx, red, l, r, on_plug.mpr h, hpre, hpost, ?_⟩
  have hlen := length_le_nodes ctx
  rw [plug_perm.length_eq, length_append, toList, length_append, length_cons]
  omega

/-- `rb_node_next` goes through the list from left to right. -/
theorem wp_rbNodeNext {pre post : List α} {Q : Option α → RbTree α → Prop} (h : On s [] t)
    (hlist : t.toList = pre ++ x :: post) (hfuel : H ∨ t.toList.length < fuel)
    (hQ : Q post.head? s) : (rbNodeNext fuel x).wp H E Q s := by
  obtain ⟨ctx, red, l, r, hx, -, rfl, hlen⟩ := h.exists_path hlist
  rw [rbNodeNext, wp_bind]
  refine wp_rbTreeSuccessor hx (hfuel.imp_right fun hlt => by omega) ?_
  rw [wp_gets, RbTree.orNull_getD fun a ha => h.ne_nil (mem_append_left _ ?_)]
  · exact hQ
  · rw [hlist]
    exact mem_append_right _ (.tail _ (mem_of_head? ha))

/-- `rb_node_prev` goes through the list from right to left. -/
theorem wp_rbNodePrev {pre post : List α} {Q : Option α → RbTree α → Prop} (h : On s [] t)
    (hlist : t.toList = pre ++ x :: post) (hfuel : H ∨ t.toList.length < fuel)
    (hQ : Q pre.getLast? s) : (rbNodePrev fuel x).wp H E Q s := by
  obtain ⟨ctx, red, l, r, hx, rfl, -, hlen⟩ := h.exists_path hlist
  rw [rbNodePrev, wp_bind]
  refine wp_rbTreePredecessor hx (hfuel.imp_right fun hlt => by omega) ?_
  rw [wp_gets, RbTree.orNull_getD fun a ha => h.ne_nil (mem_append_left _ ?_)]
  · exact hQ
  · rw [hlist]
    exact mem_append_left _ (mem_of_getLast? ha)

end Ucore.Rb
