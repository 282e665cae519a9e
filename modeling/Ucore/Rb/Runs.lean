import Ucore.Lib.Runs
import Ucore.Rb.Search

/-!
# Runs of a red-black tree

Sequences of insertions and deletions from an empty tree. In every state the memory holds a
red-black tree in the order of `compare`, with the nodes that were inserted and not deleted;
the pointers and colours of the nodes say so, and search and neighbours follow its order.
-/

namespace Ucore.Rb

open Kern RedBlack RedBlack.ColorTree Function List

variable {α : Type} [DecidableEq α] {s : RbTree α} {t : ColorTree α} {c : Bool} {m n : ℕ} {x : α}
  {ctx : List (Frame α)} {compare : α → α → ℤ} {live : List α}

/-! ## What the pointers say -/

/-- The pointers and colours of the nodes. -/
structure Linked (s : RbTree α) (live : List α) : Prop where
  /-- `nil` is black. -/
  nil : (s.node s.nil).red = false
  /-- `root` is black and has a left child only. -/
  header : s.node s.root = ⟨false, s.nil, (s.node s.root).left, s.nil⟩
  /-- The root of the tree is black, and its parent is `root`. -/
  root : (s.node s.root).left ≠ s.nil → (s.node s.root).left ∈ live ∧
    (s.node (s.node s.root).left).parent = s.root ∧ (s.node (s.node s.root).left).red = false
  /-- Children have their parent, and are black if it is red. -/
  child : ∀ x ∈ live, ∀ side, (s.node x).child side ≠ s.nil →
    (s.node x).child side ∈ live ∧ (s.node ((s.node x).child side)).parent = x ∧
      ((s.node x).red = true → (s.node ((s.node x).child side)).red = false)
  /-- A parent has the child. -/
  parent : ∀ x ∈ live, (s.node x).parent = s.root ∧ (s.node s.root).left = x ∨
    (s.node x).parent ∈ live ∧ ∃ side, (s.node (s.node x).parent).child side = x

/-- A way down from a node to `nil`, with the number of its black nodes. -/
inductive BlackPath (s : RbTree α) : α → ℕ → Prop
  | nil : BlackPath s s.nil 0
  | red {x : α} {n : ℕ} (side : Side) : x ≠ s.nil → (s.node x).red = true →
      BlackPath s ((s.node x).child side) n → BlackPath s x n
  | black {x : α} {n : ℕ} (side : Side) : x ≠ s.nil → (s.node x).red = false →
      BlackPath s ((s.node x).child side) n → BlackPath s x (n + 1)

omit [DecidableEq α] in
/-- Every way down from a subtree has its number of black nodes. -/
theorem BlackPath.eq (hpath : BlackPath s (addr s.nil t) n) (h : On s ctx t)
    (hbal : Balanced t c m) : n = m := by
  induction hbal generalizing ctx n with
  | leaf =>
    cases hpath with
    | nil => rfl
    | red _ hne => exact absurd rfl hne
    | black _ hne => exact absurd rfl hne
  | @red l r x m hl hr ihl ihr =>
    have hx : x ≠ s.nil := h.ne_nil (mem_append_left _ (by simp [toList]))
    have hnode := h.node_eq
    have hol : On s (⟨.left, true, x, r⟩ :: ctx) l := on_fork.mp h
    have hor : On s (⟨.right, true, x, l⟩ :: ctx) r := on_fork.mp h
    rw [addr] at hpath
    cases hpath with
    | nil => exact absurd rfl hx
    | black side _ hblack =>
      rw [hnode] at hblack
      cases hblack
    | red side _ _ hpath =>
      rw [hnode] at hpath
      cases side with
      | left => exact ihl hpath hol
      | right => exact ihr hpath hor
  | @black l r x c c' m hl hr ihl ihr =>
    have hx : x ≠ s.nil := h.ne_nil (mem_append_left _ (by simp [toList]))
    have hnode := h.node_eq
    have hol : On s (⟨.left, false, x, r⟩ :: ctx) l := on_fork.mp h
    have hor : On s (⟨.right, false, x, l⟩ :: ctx) r := on_fork.mp h
    rw [addr] at hpath
    cases hpath with
    | nil => exact absurd rfl hx
    | red side _ hred =>
      rw [hnode] at hred
      cases hred
    | black side _ _ hpath =>
      rw [hnode] at hpath
      cases side with
      | left => exact congrArg (· + 1) (ihl hpath hol)
      | right => exact congrArg (· + 1) (ihr hpath hor)

omit [DecidableEq α] in
/-- A node of a balanced tree and its child on one side. -/
theorem On.linked_child {side : Side} (h : On s [] t) (hbal : Balanced t false m)
    (hx : x ∈ t.toList) (hne : (s.node x).child side ≠ s.nil) :
    (s.node x).child side ∈ t.toList ∧ (s.node ((s.node x).child side)).parent = x ∧
      ((s.node x).red = true → (s.node ((s.node x).child side)).red = false) := by
  obtain ⟨ctx, red, l, r, rfl⟩ := exists_plug hx
  obtain ⟨n, c, b, hxbal, -, -⟩ := Accepts.of_plug hbal
  have hon := on_plug.mpr h
  obtain ⟨red', x', near, far, hfork⟩ := ((node red l x r).eq_leaf_or_fork side).resolve_left
    (by simp)
  rw [hfork] at hon hxbal
  have heq : x = x' ∧ red = red' := by
    cases side <;> (simp only [fork, node.injEq] at hfork; exact ⟨hfork.2.2.1, hfork.1⟩)
  obtain ⟨rfl, rfl⟩ := heq
  have hcell := hon.node_fork
  have hchild : (s.node x).child side = addr s.nil near := by rw [hcell, cell_child]
  have hnear := on_fork.mp hon
  rw [hchild] at hne ⊢
  have hleaf := mt hnear.addr_eq_nil.mpr hne
  refine ⟨?_, hnear.parent_addr hleaf, fun hred => ?_⟩
  · rw [hfork]
    exact plug_perm.mem_iff.mpr (mem_append_left _
      (mem_toList_fork.mpr (.inr (.inl (addr_mem hleaf)))))
  · rw [hcell, cell_red] at hred
    subst hred
    rw [hnear.red_addr]
    exact (balanced_fork_red.mp hxbal).2.1.isRed_eq

omit [DecidableEq α] in
/-- A node of the tree and its parent. -/
theorem On.linked_parent (h : On s [] t) (hx : x ∈ t.toList) :
    (s.node x).parent = s.root ∧ (s.node s.root).left = x ∨
      (s.node x).parent ∈ t.toList ∧ ∃ side, (s.node (s.node x).parent).child side = x := by
  obtain ⟨ctx, red, l, r, rfl⟩ := exists_plug hx
  have hon := on_plug.mpr h
  rw [hon.node_eq]
  cases ctx with
  | nil =>
    left
    exact ⟨rfl, by rw [hon.node_root]; rfl⟩
  | cons f ctx =>
    right
    refine ⟨plug_perm.mem_iff.mpr (mem_append_right _ (.head _)), f.side, ?_⟩
    rw [up_cons, hon.node_frame, cell_child]
    rfl

omit [DecidableEq α] in
theorem On.linked (h : On s [] t) (hbal : Balanced t false m) (hperm : t.toList.Perm live) :
    Linked s live where
  nil := h.black
  header := by rw [h.node_root]
  root hne := by
    rw [h.node_root] at hne ⊢
    have hleaf := mt h.addr_eq_nil.mpr hne
    exact ⟨hperm.mem_iff.mp (addr_mem hleaf), h.parent_addr hleaf, h.red_addr.trans hbal.isRed_eq⟩
  child x hx side hne := by
    rw [← hperm.mem_iff] at hx ⊢
    exact h.linked_child hbal hx hne
  parent x hx := by
    rw [← hperm.mem_iff] at hx ⊢
    exact h.linked_parent hx

/-! ## Runs -/

/-- The tree, and the nodes that were inserted and not deleted. -/
structure RbSys (α : Type) where
  tree : RbTree α
  live : List α

/-- The calls that change a tree. -/
inductive RbCall (α : Type) where
  /-- `rb_insert`. -/
  | insert (x : α)
  /-- `rb_delete`. -/
  | delete (x : α)

/-- A call that returns. -/
inductive RbStep (compare : α → α → ℤ) : RbSys α → RbCall α → RbSys α → Prop
  | insert {s s' : RbTree α} {live : List α} {x : α} (fuel : ℕ) :
      rbInsert compare fuel x s = .done () s' → RbStep compare ⟨s, live⟩ (.insert x) ⟨s', x :: live⟩
  | delete {s s' : RbTree α} {live : List α} {x : α} (fuel : ℕ) :
      rbDelete fuel x s = .done () s' → RbStep compare ⟨s, live⟩ (.delete x) ⟨s', live.erase x⟩

/-- A node is inserted if it is not in the tree, and deleted if it is. -/
def RbCall.Legal (S : RbSys α) : RbCall α → Prop
  | .insert x => x ∉ S.live ∧ x ≠ S.tree.nil ∧ x ≠ S.tree.root
  | .delete x => x ∈ S.live

instance (S : RbSys α) (call : RbCall α) : Decidable (call.Legal S) := by
  cases call <;> unfold RbCall.Legal <;> infer_instance

/-- The memory holds a red-black tree with the live nodes in the order of `compare`. -/
structure RbSys.Holds (compare : α → α → ℤ) (S : RbSys α) (t : ColorTree α) : Prop where
  memory : On S.tree [] t
  balanced : ∃ m, Balanced t false m
  sorted : Sorted compare t.toList
  live : t.toList.Perm S.live

variable {S S' : RbSys α} {call : RbCall α} {fuel : ℕ} {E : Empty → RbTree α → Prop}
  {Q : Unit → RbTree α → Prop}

omit [DecidableEq α] in
theorem RbSys.Holds.nodup (h : S.Holds compare t) : t.toList.Nodup :=
  (nodup_append.mp (nodup_append.mp h.memory.nodup).1).1

/-- The effect of `rb_insert` on the whole tree. -/
theorem RbSys.Holds.wp_insert {H : Prop} (hcmp : TotalPreorder compare) (h : S.Holds compare t)
    (hlegal : (RbCall.insert x).Legal S) (hfuel : H ∨ S.live.length < fuel)
    (hQ : ∀ s' t', RbSys.Holds compare ⟨s', x :: S.live⟩ t' → s'.nil = S.tree.nil →
      s'.root = S.tree.root → Q () s') : (rbInsert compare fuel x).wp H E Q S.tree := by
  obtain ⟨hx, hnil, hroot⟩ := hlegal
  obtain ⟨m, hbal⟩ := h.balanced
  rw [← h.live.mem_iff] at hx
  rw [← h.live.length_eq] at hfuel
  exact wp_rbInsert hcmp h.memory hbal h.sorted hx hroot hnil hfuel
    fun s' t' m' h' hbal' hsorted hperm =>
      hQ s' t' ⟨h', ⟨m', hbal'⟩, hsorted, hperm.trans (h.live.cons x)⟩

/-- The effect of `rb_delete` on the whole tree. -/
theorem RbSys.Holds.wp_delete {H : Prop} (h : S.Holds compare t)
    (hlegal : (RbCall.delete x).Legal S) (hfuel : H ∨ S.live.length + 2 ≤ fuel)
    (hQ : ∀ s' t', RbSys.Holds compare ⟨s', S.live.erase x⟩ t' → s'.nil = S.tree.nil →
      s'.root = S.tree.root → Q () s') : (rbDelete fuel x).wp H E Q S.tree := by
  have hx : x ∈ t.toList := h.live.mem_iff.mpr hlegal
  obtain ⟨m, hbal⟩ := h.balanced
  rw [← h.live.length_eq] at hfuel
  refine wp_rbDelete h.memory hbal hx hfuel
    fun s' t' m' pre post h' hbal' hlist hlist' hnil hroot =>
      hQ s' t' ⟨h', ⟨m', hbal'⟩, ?_, ?_⟩ hnil hroot
  · have hsub : (pre ++ post).Sublist (pre ++ x :: post) :=
      (List.Sublist.refl pre).append (sublist_cons_self x post)
    rw [hlist']
    have hsorted := h.sorted
    rw [hlist] at hsorted
    exact hsorted.sublist hsub
  · have hnodup := h.nodup
    rw [hlist, nodup_middle, nodup_cons, mem_append, not_or] at hnodup
    have herase : t.toList.erase x = pre ++ post := by
      rw [hlist, erase_append_right _ hnodup.1.1, erase_cons_head]
    rw [hlist', ← herase]
    exact h.live.erase x

/-- Every call keeps a red-black tree. -/
theorem RbStep.holds (hcmp : TotalPreorder compare) (hstep : RbStep compare S call S')
    (hlegal : call.Legal S) (h : S.Holds compare t) :
    (∃ t', S'.Holds compare t') ∧ S'.tree.nil = S.tree.nil ∧ S'.tree.root = S.tree.root := by
  cases hstep with
  | @insert s s' live x fuel hcall =>
    refine wp.of_call (Q := fun _ s' =>
      (∃ t', RbSys.Holds compare ⟨s', x :: live⟩ t') ∧ s'.nil = s.nil ∧ s'.root = s.root) ?_ hcall
    exact h.wp_insert hcmp hlegal (.inl trivial) fun s' t' h' hnil hroot => ⟨⟨t', h'⟩, hnil, hroot⟩
  | @delete s s' live x fuel hcall =>
    refine wp.of_call (Q := fun _ s' =>
      (∃ t', RbSys.Holds compare ⟨s', live.erase x⟩ t') ∧ s'.nil = s.nil ∧ s'.root = s.root) ?_
      hcall
    exact h.wp_delete hlegal (.inl trivial) fun s' t' h' hnil hroot => ⟨⟨t', h'⟩, hnil, hroot⟩

/-- Every legal call returns. -/
theorem RbStep.exists (hcmp : TotalPreorder compare) (h : S.Holds compare t)
    (hlegal : call.Legal S) : ∃ S', RbStep compare S call S' := by
  cases call with
  | insert x =>
    obtain ⟨_, s', hcall, -⟩ := (h.wp_insert (Q := fun _ _ => True) hcmp hlegal
      (.inr (Nat.lt_succ_self _)) fun _ _ _ _ _ => trivial).returns_done
    exact ⟨_, .insert _ hcall⟩
  | delete x =>
    obtain ⟨_, s', hcall, -⟩ := (h.wp_delete (Q := fun _ _ => True) hlegal
      (.inr le_rfl) fun _ _ _ _ _ => trivial).returns_done
    exact ⟨_, .delete _ hcall⟩

/-- The tree of `rb_tree_create` is empty. -/
theorem holds_rbTreeCreate {nil root : α} (node : α → Node α) (hne : nil ≠ root) :
    RbSys.Holds compare ⟨rbTreeCreate node nil root, []⟩ .leaf where
  memory := by
    refine ⟨⟨⟨?_, trivial, trivial⟩, trivial, ?_, ?_⟩, ?_⟩
    · exact update_self ..
    · exact nodup_singleton root
    · simpa [rbTreeCreate, top, nodes, toList] using hne
    · rw [rbTreeCreate]
      dsimp only
      rw [update_of_ne hne, update_self]
  balanced := ⟨0, .leaf⟩
  sorted := .nil
  live := .nil

/-- The result of `rb_search`: a node with the key, or none if there is none. -/
def Finds (key : α → ℤ) (live : List α) : Option α → Prop
  | some x => x ∈ live ∧ key x = 0
  | none => ∀ x ∈ live, key x ≠ 0

/-- What `rb_search` returns. -/
theorem RbSys.Holds.rbSearch_eq {key : α → ℤ} (h : S.Holds compare t) (hkey : KeyFor compare key)
    (hfuel : S.live.length < fuel) :
    ∃ found, rbSearch key fuel S.tree = .done found S.tree ∧ Finds key S.live found := by
  have hwp := wp_rbSearch (H := False) (E := fun _ _ => False)
    (Q := fun found s' => s' = S.tree ∧ Finds key S.live found) hkey h.memory h.sorted
    (.inr (h.live.length_eq ▸ hfuel))
    (fun x hx hzero => ⟨rfl, h.live.mem_iff.mp hx, hzero⟩)
    fun hno => ⟨rfl, fun x hx => hno x (h.live.mem_iff.mpr hx)⟩
  obtain ⟨found, s', hcall, rfl, hfinds⟩ := hwp.returns_done
  exact ⟨found, hcall, hfinds⟩

/-- What `rb_node_next` and `rb_node_prev` return. -/
theorem RbSys.Holds.neighbours {pre post : List α} (h : S.Holds compare t)
    (hlist : t.toList = pre ++ x :: post) (hfuel : S.live.length < fuel) :
    rbNodeNext fuel x S.tree = .done post.head? S.tree ∧
      rbNodePrev fuel x S.tree = .done pre.getLast? S.tree := by
  rw [← h.live.length_eq] at hfuel
  constructor
  · obtain ⟨_, _, hcall, rfl, rfl⟩ := (wp_rbNodeNext (Q := fun next s' => next = post.head? ∧
      s' = S.tree) h.memory hlist (.inr hfuel) ⟨rfl, rfl⟩).returns_done
    exact hcall
  · obtain ⟨_, _, hcall, rfl, rfl⟩ := (wp_rbNodePrev (Q := fun prev s' => prev = pre.getLast? ∧
      s' = S.tree) h.memory hlist (.inr hfuel) ⟨rfl, rfl⟩).returns_done
    exact hcall

/-- After every run of legal insertions and deletions from an empty tree, the memory holds a
red-black tree with exactly the live nodes. Every legal call returns, `rb_search` finds a node
with the key if and only if there is one, and `rb_node_next` and `rb_node_prev` go through the
nodes in order. -/
theorem rb_tree_run {nil root : α} (node : α → Node α) (hcmp : TotalPreorder compare)
    (hne : nil ≠ root) {calls : List (RbCall α)}
    (hrun : Run (fun S call S' => RbStep compare S call S' ∧ call.Legal S)
      ⟨rbTreeCreate node nil root, []⟩ calls S) :
    ∃ t, S.Holds compare t ∧ t.toList.Nodup ∧ S.tree.nil = nil ∧ S.tree.root = root ∧
      Linked S.tree S.live ∧
      (∃ m, ∀ n, BlackPath S.tree (S.tree.node root).left n → n = m) ∧
      (∀ call : RbCall α, call.Legal S → ∃ S', RbStep compare S call S') ∧
      ∀ fuel, S.live.length < fuel →
        (∀ key, KeyFor compare key → ∃ found, rbSearch key fuel S.tree = .done found S.tree ∧
          Finds key S.live found) ∧
        ∀ pre x post, t.toList = pre ++ x :: post →
          rbNodeNext fuel x S.tree = .done post.head? S.tree ∧
          rbNodePrev fuel x S.tree = .done pre.getLast? S.tree := by
  have hinv : (∃ t, S.Holds compare t) ∧ S.tree.nil = nil ∧ S.tree.root = root := by
    refine hrun.invariant (I := fun S => (∃ t, S.Holds compare t) ∧ S.tree.nil = nil ∧
      S.tree.root = root) (fun S call S' hS hstep => ?_)
      ⟨⟨_, holds_rbTreeCreate node hne⟩, rfl, rfl⟩
    obtain ⟨⟨t, h⟩, hnil, hroot⟩ := hS
    obtain ⟨h', hnil', hroot'⟩ := hstep.1.holds hcmp hstep.2 h
    exact ⟨h', hnil'.trans hnil, hroot'.trans hroot⟩
  obtain ⟨⟨t, h⟩, rfl, rfl⟩ := hinv
  obtain ⟨m, hbal⟩ := h.balanced
  refine ⟨t, h, h.nodup, rfl, rfl, h.memory.linked hbal h.live, ⟨m, fun n hpath => ?_⟩,
    fun call => RbStep.exists hcmp h,
    fun fuel hfuel => ⟨fun key hkey => h.rbSearch_eq hkey hfuel,
      fun pre x post hlist => h.neighbours hlist hfuel⟩⟩
  rw [h.memory.node_root] at hpath
  exact hpath.eq h.memory hbal

/-- The order of the natural numbers. -/
def compareNat (a b : ℕ) : ℤ := a - b

theorem totalPreorder_compareNat : TotalPreorder compareNat := by
  constructor
  · unfold compareNat
    omega
  · intro a b c hab hbc
    unfold compareNat at hab hbc ⊢
    omega

/-- Two nodes, of which the root is deleted again. -/
theorem rb_tree_run_two : ∃ S t, Run (fun S call S' => RbStep compareNat S call S' ∧ call.Legal S)
      ⟨rbTreeCreate (fun _ => ⟨false, 0, 0, 0⟩) 0 1, []⟩ [.insert 4, .insert 2, .delete 4] S ∧
    S.Holds compareNat t ∧ S.live = [2] := by
  have hrun : ∃ S, Run (fun S call S' => RbStep compareNat S call S' ∧ call.Legal S)
      ⟨rbTreeCreate (fun _ => ⟨false, 0, 0, 0⟩) 0 1, []⟩ [.insert 4, .insert 2, .delete 4] S ∧
      S.live = [2] :=
    ⟨_, .cons ⟨.insert 4 rfl, by decide⟩ (.cons ⟨.insert 4 rfl, by decide⟩
      (.cons ⟨.delete 4 rfl, by decide⟩ (.nil _))), rfl⟩
  obtain ⟨S, hrun, hlive⟩ := hrun
  obtain ⟨t, h, -⟩ := rb_tree_run _ totalPreorder_compareNat (by decide) hrun
  exact ⟨S, t, hrun, h, hlive⟩

end Ucore.Rb
