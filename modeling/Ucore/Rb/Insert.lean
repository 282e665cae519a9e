import Ucore.Rb.Shape

/-!
# Insertion

A new node is put under the path on which the comparison leads down; red nodes with a red
parent are then moved up until there is none.
-/

namespace Ucore.Rb

open Kern RedBlack RedBlack.ColorTree List

variable {α : Type} [DecidableEq α] {H : Prop} {E : Empty → RbTree α → Prop} {s s' : RbTree α}
  {t near far r l : ColorTree α} {side : Side} {red : Bool} {a p q x y z : α} {f : Frame α}
  {ctx : List (Frame α)} {compare : α → α → ℤ} {fuel n : ℕ} {b : Bool} {Q : Unit → RbTree α → Prop}

/-- The sign of `compare` gives a total preorder. -/
structure TotalPreorder (compare : α → α → ℤ) : Prop where
  anti : ∀ a b, 0 < compare a b ↔ compare b a < 0
  trans : ∀ a b c, compare a b ≤ 0 → compare b c ≤ 0 → compare a c ≤ 0

/-- A list in the order of `compare`. -/
def Sorted (compare : α → α → ℤ) (l : List α) : Prop := l.Pairwise fun a b => compare a b ≤ 0

/-- The place for `z` under a path: what is to the left is not greater, what is to the right
is. -/
structure Place (compare : α → α → ℤ) (z : α) (ctx : List (Frame α)) : Prop where
  left : ∀ a ∈ before ctx, compare a z ≤ 0
  right : ∀ a ∈ after ctx, 0 < compare a z
  last : ∀ f ctx', ctx = f :: ctx' → (f.side = .left ↔ 0 < compare f.x z)

omit [DecidableEq α] in
theorem Place.nil : Place compare z [] where
  left a ha := absurd ha not_mem_nil
  right a ha := absurd ha not_mem_nil
  last f ctx' h := absurd h (by simp)

omit [DecidableEq α] in
/-- The way down to the left. -/
theorem Place.cons_left (hcmp : TotalPreorder compare) (h : Place compare z ctx)
    (hsorted : Sorted compare (node red l x r).toList) (hx : 0 < compare x z) :
    Place compare z (⟨.left, red, x, r⟩ :: ctx) := by
  have hxr : ∀ a ∈ r.toList, compare x a ≤ 0 :=
    (pairwise_cons.mp (pairwise_append.mp hsorted).2.1).1
  refine ⟨h.left, fun a ha => ?_, fun f ctx' heq => ?_⟩
  · simp only [RedBlack.after, cons_append, mem_cons, mem_append] at ha
    rcases ha with rfl | ha | ha
    · exact hx
    · by_contra hle
      exact Int.not_lt.mpr (hcmp.trans x a z (hxr a ha) (Int.not_lt.mp hle)) hx
    · exact h.right a ha
  · cases heq
    exact ⟨fun _ => hx, fun _ => rfl⟩

omit [DecidableEq α] in
/-- The way down to the right. -/
theorem Place.cons_right (hcmp : TotalPreorder compare) (h : Place compare z ctx)
    (hsorted : Sorted compare (node red l x r).toList) (hx : ¬0 < compare x z) :
    Place compare z (⟨.right, red, x, l⟩ :: ctx) := by
  have hlx : ∀ a ∈ l.toList, compare a x ≤ 0 := fun a ha =>
    (pairwise_append.mp hsorted).2.2 a ha x (.head _)
  refine ⟨fun a ha => ?_, h.right, fun f ctx' heq => ?_⟩
  · simp only [before, mem_append, mem_singleton] at ha
    rcases ha with ha | ha | rfl
    · exact h.left a ha
    · exact hcmp.trans a x z (hlx a ha) (Int.not_lt.mp hx)
    · exact Int.not_lt.mp hx
  · cases heq
    exact ⟨fun h => absurd h (by simp), fun h => absurd h hx⟩

omit [DecidableEq α] in
/-- A node in its place keeps the list sorted. -/
theorem Place.sorted (hcmp : TotalPreorder compare) (h : Place compare z ctx)
    (hsorted : Sorted compare (plug ctx .leaf).toList) :
    Sorted compare (plug ctx (node red .leaf z .leaf)).toList := by
  rw [Sorted, toList_plug] at hsorted ⊢
  simp only [toList, append_nil, nil_append, append_assoc, cons_append] at hsorted ⊢
  obtain ⟨hb, ha, hba⟩ := pairwise_append.mp hsorted
  refine pairwise_append.mpr ⟨hb, pairwise_cons.mpr ⟨fun c hc => ?_, ha⟩, ?_⟩
  · exact Int.le_of_lt ((hcmp.anti c z).mp (h.right c hc))
  · intro c hc d hd
    rcases mem_cons.mp hd with rfl | hd
    · exact h.left c hc
    · exact hba c hc d hd

/-- The loop of `rb_insert_binary` ends under a path with the place for `z`. -/
theorem wp_insertFrom {Q : α → RbTree α → Prop} (hcmp : TotalPreorder compare) (h : On s ctx t)
    (hsorted : Sorted compare t.toList) (hplace : Place compare z ctx)
    (hfuel : H ∨ t.toList.length < fuel)
    (hQ : ∀ ctx', On s ctx' .leaf → plug ctx' .leaf = plug ctx t → Place compare z ctx' →
      Q (up s.root ctx') s) :
    (insertFrom compare z fuel (up s.root ctx) (addr s.nil t)).wp H E Q s := by
  induction fuel generalizing ctx t with
  | zero => exact hfuel.resolve_right (Nat.not_lt_zero _)
  | succ fuel ih =>
    cases t with
    | leaf =>
      rw [insertFrom, wp_get]
      exact wp_if (fun _ => hQ ctx h rfl hplace) (absurd rfl)
    | node red l x r =>
      have hfork : On s ctx (fork .left red x l r) := h
      have hx : x ≠ s.nil := h.ne_nil (mem_append_left _ (by simp [toList]))
      have hnode := hfork.node_fork
      obtain ⟨hsl, hsr, -⟩ := pairwise_append.mp hsorted
      rw [toList, length_append, length_cons] at hfuel
      rw [insertFrom, wp_get]
      refine wp_if (fun heq => absurd heq hx) fun _ => ?_
      rw [addr, hnode]
      refine wp_if (fun hpos => ?_) fun hneg => ?_
      · have hl : On s (⟨.left, red, x, r⟩ :: ctx) l := on_fork.mp h
        exact ih hl hsl (hplace.cons_left hcmp hsorted hpos)
          (hfuel.imp_right fun hlt => by omega) hQ
      · have hr : On s (⟨.right, red, x, l⟩ :: ctx) r := on_fork.mp h
        exact ih hr (pairwise_cons.mp hsr).2 (hplace.cons_right hcmp hsorted hneg)
          (hfuel.imp_right fun hlt => by omega) hQ

/-- `rb_insert_binary`. -/
theorem wp_rbInsertBinary (hcmp : TotalPreorder compare) (h : On s [] t)
    (hsorted : Sorted compare t.toList) (hz : z ∉ t.toList) (hzroot : z ≠ s.root)
    (hznil : z ≠ s.nil) (hfuel : H ∨ t.toList.length < fuel)
    (hQ : ∀ s' ctx red, On s' ctx (node red .leaf z .leaf) → plug ctx .leaf = t →
      Place compare z ctx → s'.nil = s.nil → s'.root = s.root → Q () s') :
    (rbInsertBinary compare fuel z).wp H E Q s := by
  -- the cell of `z` is apart from the tree
  have h₀ : Mem s.nil s.root s ({(z, s.node z)} + ({(s.nil, s.node s.nil)} +
      spot s.nil [top s.root] t)) := by
    refine ⟨rfl, rfl, Holds.holds_cell.mpr ⟨rfl, ?_, h.held.holds⟩⟩
    simp [map_spot, top, nodes, toList, hz, hzroot, hznil]
  rw [rbInsertBinary, wp_get, wp_bind]
  refine h₀.wp_set fun s₁ h₁ => ?_
  refine wp_seq (h₁.wp_set fun s₂ h₂ => ?_)
  have hon₂ : On s₂ [] t := Mem.on (h₂.map Holds.right) h.black
  rw [wp_get, hon₂.node_root, wp_bind, ← h₂.root]
  refine wp_insertFrom hcmp hon₂ hsorted .nil hfuel fun ctx hctx hplug hplace => ?_
  -- the test finds the side under which the place is
  have hcond : (up s₂.root ctx = s₂.root ∨ 0 < compare (up s₂.root ctx) z) ↔
      holeSide ctx = .left := by
    cases ctx with
    | nil => exact ⟨fun _ => rfl, fun _ => .inl rfl⟩
    | cons f ctx' =>
      have hroot : f.x ≠ s₂.root := hctx.ne_root (.head _)
      exact ⟨fun hor => (hplace.last f ctx' rfl).mpr (hor.resolve_left hroot),
        fun hside => .inr ((hplace.last f ctx' rfl).mp hside)⟩
  rw [h₂.root] at hcond ⊢
  refine wp_seq (h₂.wp_set fun s₃ h₃ => ?_)
  obtain ⟨f, ctx', heq, hup, hside⟩ := exists_frame s.root ctx
  have hspot : spot s.nil [top s.root] t = spot s.nil (f :: ctx') .leaf := by
    rw [← heq, spot_append, hplug]
    rfl
  have h₃ : Mem s.nil s.root s₃ ({(f.x, cell f.side f.red (up s.nil ctx') s.nil
      (addr s.nil f.sib))} + ({(z, ⟨(s.node z).red, f.x, s.nil, s.nil⟩)} +
      ({(s.nil, s.node s.nil)} + (cells s.nil f.x f.sib + pathCells s.nil f.x ctx')))) := by
    refine h₃.of_eq ?_
    rw [hspot, spot, cells, pathCells, hup]
    ac_rfl
  have hset : (setChild (holeSide ctx) (up s.root ctx) z : TreeM α Unit).wp H E Q s₃ := by
    rw [← hside, ← hup]
    refine h₃.wp_set fun s₄ h₄ => ?_
    refine hQ s₄ ctx (s.node z).red (Mem.on (h₄.of_eq ?_) h.black) hplug hplace h₄.nil h₄.root
    rw [cell_setChild, heq, spot, pathCells]
    simp only [cells, addr, add_zero, up_cons]
    ac_rfl
  rw [wp_ite, hcond]
  refine ⟨fun hleft => hleft ▸ hset, fun hright => ?_⟩
  have hright' : holeSide ctx = .right := Side.eq_other_of_ne hright
  exact hright' ▸ hset

/-! ## Moving red nodes up -/

section Fixup

variable {o : Outline α} {g : α} {sib uncle : ColorTree α} {side' : Side} {n : ℕ}

/-- A red node with a red parent, both on one side, under a black grandparent. -/
theorem wp_rotateGrandparent (h : Focus o s (⟨side, true, p, sib⟩ :: ⟨side, false, g, uncle⟩ :: ctx)
      (fork side' red x near far))
    (hQ : ∀ s', Focus o s' (⟨side, false, p, fork side.other true g uncle sib⟩ :: ctx)
      (fork side' red x near far) → Q () s') : (rotateGrandparent side x).wp H E Q s := by
  rw [rotateGrandparent, wp_get]
  dsimp only
  rw [h.node_fork, cell_parent, up_cons, h.node_frame, cell_parent, wp_bind]
  refine h.wp_setRed_frame fun s₁ h₁ => ?_
  refine wp_seq ((focus_cons.mp h₁).wp_setRed_frame fun s₂ h₂ => ?_)
  have hflip : Focus o s₂ ctx (fork side.other true g uncle (fork side.other false p sib
      (fork side' red x near far))) := by
    rw [fork_other, fork_other]
    exact focus_fork.mpr h₂
  refine hflip.wp_rotate fun s' h' => hQ s' (focus_fork.mp ?_)
  rw [← fork_other]
  exact h'

/-- A red node with a red parent, moved to the side on which the parent is. -/
theorem wp_outerChild {Q : α → RbTree α → Prop}
    (h : Focus o s (⟨side', true, p, sib⟩ :: ctx) (fork side true x near far))
    (hnear : Balanced near false n) (hfar : Balanced far false n) (hsib : Balanced sib false n)
    (hQ : ∀ s' x' p' near' far' sib',
      Focus o s' (⟨side, true, p', sib'⟩ :: ctx) (fork side true x' near' far') →
      Balanced near' false n → Balanced far' false n → Balanced sib' false n → Q x' s') :
    (outerChild side x).wp H E Q s := by
  have hpnode := h.node_frame
  rw [addr_fork] at hpnode
  rw [outerChild, wp_get]
  dsimp only
  rw [h.node_fork, cell_parent, up_cons, hpnode, wp_ite]
  rcases eq_or_ne side' side with rfl | hside
  · refine ⟨fun heq => ?_, fun _ => hQ s x p near far sib h hnear hfar hsib⟩
    have hne := h.1.addr_ne_sib fork_ne_leaf
    rw [addr_fork, h.nil_eq] at hne
    rw [cell_child_other] at heq
    exact absurd heq hne
  · have hother := Side.eq_other_of_ne hside
    subst hother
    refine ⟨fun _ => ?_, absurd cell_child.symm⟩
    rw [← focus_fork, fork_other] at h
    rw [wp_bind]
    exact h.wp_rotate fun s' h' => hQ s' p x sib near far (focus_fork.mp h') hsib hnear hfar

/-- The step from a red node under a red parent: the next red node has a shorter path. -/
theorem wp_rbInsertSub {c b : Bool} {Q : α → RbTree α → Prop}
    (h : Focus o s (⟨side', true, p, sib⟩ :: ⟨side, false, g, uncle⟩ :: ctx) t)
    (ht : Balanced t true n) (hsib : Balanced sib false n) (huncle : Balanced uncle c n)
    (hctx : Accepts ctx b (n + 1))
    (hQ : ∀ s' ctx' t' n' b', Focus o s' ctx' t' → Balanced t' true n' → Accepts ctx' b' n' →
      ctx'.length ≤ ctx.length + 1 → Q (addr o.nil t') s') :
    (rbInsertSub side (addr o.nil t)).wp H E Q s := by
  obtain ⟨x, near, far, rfl, hnear, hfar⟩ := ht.exists_red side
  have hgnode := (focus_cons.mp h).node_frame
  have hured := (focus_flip.mp (focus_cons.mp h)).red_addr
  rw [huncle.isRed_eq] at hured
  rw [addr_fork, rbInsertSub, wp_get]
  dsimp only
  rw [h.node_fork, cell_parent, up_cons, h.node_frame, cell_parent, up_cons, hgnode,
    cell_child_other, hured]
  refine wp_if (fun hc => ?_) fun hc => ?_
  · -- the uncle is red: the colours change, and the grandparent is the next red node
    subst hc
    obtain ⟨u, un, uf, rfl, hun, huf⟩ := huncle.exists_red side
    rw [addr_fork, wp_bind]
    refine h.wp_setRed_frame fun s₁ h₁ => ?_
    refine wp_seq ((focus_cons.mp h₁).wp_setRed_sib fun s₂ h₂ => ?_)
    refine wp_seq (h₂.wp_setRed_frame fun s₃ h₃ => ?_)
    have hg := hQ s₃ ctx _ (n + 1) b (focus_fork.mpr h₃) ?_ hctx (by omega)
    · rwa [addr_fork] at hg
    · exact balanced_fork_red.mpr ⟨rfl, balanced_fork_black.mpr ⟨rfl, n, rfl, ⟨_, ht⟩, ⟨_, hsib⟩⟩,
        balanced_fork_black.mpr ⟨rfl, n, rfl, ⟨_, hun⟩, ⟨_, huf⟩⟩⟩
  · -- the uncle is black: after a rotation the parent is black
    have hcfalse : c = false := by simpa using hc
    subst hcfalse
    rw [wp_bind]
    refine wp_outerChild h hnear hfar hsib fun s₁ x' p' near' far' sib' h₁ hnear' hfar' hsib' => ?_
    refine wp_seq (wp_rotateGrandparent h₁ fun s₂ h₂ => ?_)
    have hx := hQ s₂ _ _ n true h₂ (balanced_fork_red.mpr ⟨rfl, hnear', hfar'⟩)
      (.black rfl (balanced_fork_red.mpr ⟨rfl, huncle, hsib'⟩) hctx) le_rfl
    rwa [addr_fork] at hx

/-- The loop of `rb_insert`. -/
theorem wp_insertFixup {b : Bool} (h : Focus o s ctx t) (ht : Balanced t true n)
    (hctx : Accepts ctx b n) (hfuel : H ∨ ctx.length < fuel)
    (hQ : ∀ s' t' c m, Focus o s' [] t' → Balanced t' c m → Q () s') :
    (insertFixup fuel (addr o.nil t)).wp H E Q s := by
  induction fuel generalizing s ctx t n b with
  | zero => exact hfuel.resolve_right (Nat.not_lt_zero _)
  | succ fuel ih =>
    have hparent := h.parent_addr fun hleaf => by
      subst hleaf
      cases ht
    rw [insertFixup, wp_get]
    rw [hparent, wp_ite]
    cases hctx with
    | root n =>
      have hroot : (s.node (up o.root [])).red = false := by
        rw [up, ← h.root_eq, h.1.node_root]
      rw [hroot]
      exact ⟨fun hred => absurd hred (by decide), fun _ => hQ s t true n h ht⟩
    | @black f ctx c b n hred hsib hctx =>
      rw [up_cons, h.node_frame, cell_red, hred]
      refine ⟨fun hred => absurd hred (by decide), fun _ => ?_⟩
      obtain ⟨m, hplug⟩ := Accepts.plug (.black hred hsib hctx) ht fun _ => rfl
      exact hQ s _ false m (focus_plug.mp h) hplug
    | @red f ctx n hred hsib hctx =>
      rw [up_cons, h.node_frame, cell_red, hred]
      refine ⟨fun _ => ?_, absurd rfl⟩
      cases hctx with
      | @black g ctx c b n hgred huncle hctx =>
        obtain ⟨side', redf, p, sib⟩ := f
        obtain ⟨side, redg, g, uncle⟩ := g
        subst hred hgred
        have hside := (focus_cons.mp h).side_eq (.inl fork_ne_leaf)
        rw [Frame.plug, addr_fork] at hside
        rw [cell_parent, up_cons, hside, wp_bind]
        refine wp_rbInsertSub h ht hsib huncle hctx fun s' ctx' t' n' b' h' ht' hctx' hlen => ?_
        refine ih h' ht' hctx' (hfuel.imp_right fun hlt => ?_)
        simp only [length_cons] at hlt
        omega

end Fixup

omit [DecidableEq α] in
theorem length_le_nodes (ctx : List (Frame α)) : ctx.length ≤ (nodes ctx).length := by
  induction ctx with
  | nil => exact le_rfl
  | cons f ctx ih =>
    rw [nodes, length_cons, length_cons, length_append]
    omega

/-- `rb_insert`. -/
theorem wp_rbInsert {m : ℕ} (hcmp : TotalPreorder compare) (h : On s [] t)
    (hbal : Balanced t false m) (hsorted : Sorted compare t.toList) (hz : z ∉ t.toList)
    (hzroot : z ≠ s.root) (hznil : z ≠ s.nil) (hfuel : H ∨ t.toList.length < fuel)
    (hQ : ∀ s' t' m', On s' [] t' → Balanced t' false m' → Sorted compare t'.toList →
      t'.toList.Perm (z :: t.toList) → s'.nil = s.nil → s'.root = s.root → Q () s') :
    (rbInsert compare fuel z).wp H E Q s := by
  rw [rbInsert, wp_bind]
  refine wp_rbInsertBinary hcmp h hsorted hz hzroot hznil hfuel
    fun s₁ ctx red h₁ hplug hplace hnil₁ hroot₁ => ?_
  rw [← hplug] at hbal hsorted
  obtain ⟨n, c, b, hleaf, hctx, -⟩ := Accepts.of_plug hbal
  cases hleaf with
  | leaf =>
    have hlen : H ∨ ctx.length < fuel := hfuel.imp_right fun hlt => by
      have hperm : (plug ctx .leaf).toList.Perm (nodes ctx) := plug_perm
      have hlen := hperm.length_eq
      have hnodes := length_le_nodes ctx
      rw [hplug] at hlen
      omega
    have hfocus : Focus _ s₁ ctx (fork .left red z .leaf .leaf) := ⟨h₁, rfl⟩
    refine wp_seq (hfocus.wp_setRed fun s₂ h₂ => ?_)
    refine wp_seq (wp_insertFixup h₂ (.red .leaf .leaf) hctx hlen fun s₃ t₃ c₃ m₃ h₃ ht₃ => ?_)
    obtain ⟨red₃, x, near, far, rfl⟩ := (t₃.eq_leaf_or_fork .left).resolve_left (by
      rintro rfl
      have hlist := h₃.list.trans toList_plug
      simp [plug, toList, fork] at hlist)
    rw [wp_get, h₃.1.node_root, wp_bind]
    refine h₃.wp_setRed fun s' h' => ?_
    refine wp_assert_of ⟨h'.1.black, by rw [h'.1.node_root]⟩ ?_
    obtain ⟨m', hbal'⟩ := ht₃.blacken
    have hlist : (fork .left false x near far).toList =
        (plug ctx (node red .leaf z .leaf)).toList := h'.list
    refine hQ s' _ m' h'.1 hbal' ?_ ?_ (h'.nil_eq.trans hnil₁) (h'.root_eq.trans hroot₁)
    · rw [hlist]
      exact hplace.sorted hcmp hsorted
    · rw [hlist, ← hplug]
      exact plug_perm.trans (plug_perm.symm.cons z)

end Ucore.Rb
