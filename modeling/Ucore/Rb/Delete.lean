import Ucore.Rb.Insert

/-!
# Deletion

A node with two children gives its place to its successor, so the node that leaves its place
has at most one child. If it was black, then the subtree in its place has one black node too
few on each path, and the loop of `rb_delete_fixup` moves this lack up.
-/

namespace Ucore.Rb

open Kern RedBlack RedBlack.ColorTree List

variable {α : Type} [DecidableEq α] {H : Prop} {E : Empty → RbTree α → Prop} {s s' : RbTree α}
  {t near far r l : ColorTree α} {side : Side} {red c pc b : Bool} {p q r₀ x y z : α} {f : Frame α}
  {ctx : List (Frame α)} {fuel n : ℕ}

section Fixup

variable {o : Outline α} {xt wt wn wf : ColorTree α} {w : α} {cn : Bool}

/-- The outermost node of the path is `r₀`, and black. -/
def Outer (r₀ : α) (ctx : List (Frame α)) : Prop :=
  ∃ pre f, ctx = pre ++ [f] ∧ f.x = r₀ ∧ f.red = false

omit [DecidableEq α] in
theorem Outer.cons (h : Outer r₀ ctx) (f : Frame α) : Outer r₀ (f :: ctx) := by
  obtain ⟨pre, g, rfl, hx, hred⟩ := h
  exact ⟨f :: pre, g, rfl, hx, hred⟩

omit [DecidableEq α] in
theorem Outer.isBlack (h : Outer r₀ ctx) (hon : On s ctx t) : (s.node r₀).red = false := by
  obtain ⟨pre, g, rfl, rfl, hred⟩ := h
  rw [(on_append.mp hon).node_frame, cell_red, hred]

/-- The sibling is made black. -/
theorem wp_blackSibling {Q : α → RbTree α → Prop} (h : Focus o s (⟨side, pc, p, wt⟩ :: ctx) xt)
    (hnil : xt = .leaf → o.sentinel.parent = p)
    (hacc : Accepts (⟨side, pc, p, wt⟩ :: ctx) b (n + 1))
    (hroot : (ctx = [] ∧ p = r₀) ∨ Outer r₀ ctx)
    (hQ : ∀ s' pc' w' wn' wf' ctx' b',
      Focus o s' (⟨side, pc', p, fork side false w' wn' wf'⟩ :: ctx') xt →
      Accepts (⟨side, pc', p, fork side false w' wn' wf'⟩ :: ctx') b' (n + 1) →
      ((pc' = false → ctx' = []) ∧ p = r₀ ∨ Outer r₀ ctx') →
      (pc' = false → ctx'.length ≤ ctx.length) → Q w' s') :
    (blackSibling side (addr o.nil xt)).wp H E Q s := by
  have hpnode := h.node_frame
  obtain ⟨c, hbal⟩ := hacc.beside
  obtain ⟨wred, w, wn, wf, rfl⟩ := hbal.exists_fork side
  rw [blackSibling, wp_get]
  dsimp only
  rw [h.parent_addr hnil, up_cons, hpnode, cell_child_other, addr_fork,
    (focus_flip.mp h).node_fork, cell_red]
  refine wp_if (fun hred => ?_) fun hred => ?_
  · -- a red sibling has a black parent, and black children
    subst hred
    obtain ⟨-, hwn, hwf⟩ := balanced_fork_red.mp hbal
    obtain ⟨b', hpc, hctx⟩ : ∃ b', pc = false ∧ Accepts ctx b' (n + 2) := by
      cases hacc with
      | black hpc _ hctx => exact ⟨_, hpc, hctx⟩
      | red _ hwt _ =>
        have := hwt.isRed_eq
        rw [isRed_fork] at this
        cases this
    refine wp_seq (h.wp_setRed_sib fun s₁ h₁ => ?_)
    refine wp_seq (h₁.wp_setRed_frame fun s₂ h₂ => ?_)
    refine wp_seq ((focus_fork.mpr h₂).wp_rotate fun s₃ h₃ => ?_)
    rw [focus_fork, focus_fork] at h₃
    obtain ⟨vred, v, vn, vf, rfl⟩ := hwn.exists_fork side
    have hv := hwn.isRed_eq
    rw [isRed_fork] at hv
    subst hv
    have hpnode₃ := h₃.node_frame
    rw [wp_gets, h₃.parent_addr hnil, up_cons, hpnode₃, cell_child_other, addr_fork]
    refine hQ s₃ true v vn vf _ false h₃ (.red rfl hwn (.black rfl hwf hctx)) ?_ nofun
    exact hroot.imp (fun hp => ⟨nofun, hp.2⟩) fun houter => houter.cons _
  · have hwfalse : wred = false := by simpa using hred
    subst hwfalse
    exact hQ s pc w wn wf ctx b h hacc (hroot.imp_left fun hp => ⟨fun _ => hp.1, hp.2⟩)
      fun _ => le_rfl

section

variable (h : Focus o s (⟨side, pc, p, fork side false w wn wf⟩ :: ctx) xt)
  (hnil : xt = .leaf → o.sentinel.parent = p)
include h hnil

/-- The child of a black sibling on the far side is made red. -/
theorem wp_redNephew {cf : Bool} {Q : α → RbTree α → Prop} (hwn : Balanced wn cn n)
    (hwf : Balanced wf cf n) (hred : ¬(cn = false ∧ cf = false))
    (hQ : ∀ s' w' wn' wf' c, Focus o s' (⟨side, pc, p, fork side false w' wn' wf'⟩ :: ctx) xt →
      Balanced wn' c n → Balanced wf' true n → Q w' s') :
    (redNephew side (addr o.nil xt) w).wp H E Q s := by
  have hw := focus_flip.mp h
  have hcf : (s.node (addr o.nil wf)).red = cf := by
    rw [(focus_flip.mp (focus_fork.mp hw)).red_addr, hwf.isRed_eq]
  rw [redNephew, wp_get, hw.node_fork, cell_child_other, cell_child, hcf]
  refine wp_if (fun hfalse => ?_) fun htrue => ?_
  · -- the red child is the near one, and a rotation brings it up
    subst hfalse
    have hcn : cn = true := by simpa using hred
    subst hcn
    obtain ⟨v, vn, vf, rfl, hvn, hvf⟩ := hwn.exists_red side.other
    rw [addr_fork, wp_bind]
    refine (focus_fork.mp hw).wp_setRed fun s₁ h₁ => ?_
    refine wp_seq (h₁.wp_setRed_frame fun s₂ h₂ => ?_)
    rw [wp_bind]
    rw [← focus_fork, ← fork_other] at h₂
    refine h₂.wp_rotate fun s₃ h₃ => ?_
    rw [fork_other, fork_other] at h₃
    have h₃ := focus_flip.mpr h₃
    have hpnode₃ := h₃.node_frame
    rw [wp_gets, h₃.parent_addr hnil, up_cons, hpnode₃, cell_child_other, addr_fork]
    exact hQ s₃ v vf _ false h₃ hvf (balanced_fork_red.mpr ⟨rfl, hvn, hwf⟩)
  · have hcf : cf = true := by simpa using htrue
    subst hcf
    exact hQ s w wn wf cn h hwn hwf

/-- The sibling comes in the place of its parent, and the lack is gone. -/
theorem wp_rotateSibling {Q : Unit → RbTree α → Prop} (hxt : Balanced xt c n)
    (hwn : Balanced wn cn n) (hwf : Balanced wf true n)
    (hacc : Accepts (⟨side, pc, p, fork side false w wn wf⟩ :: ctx) b (n + 1))
    (hQ : ∀ s' t' m, Focus o s' ctx t' → Balanced (plug ctx t') false m →
      (s'.node p).red = false → Q () s') : (rotateSibling side (addr o.nil xt) w).wp H E Q s := by
  have hpnode := h.node_frame
  obtain ⟨u, un, uf, rfl, hun, huf⟩ := hwf.exists_red side
  rw [rotateSibling, wp_get]
  dsimp only
  rw [h.parent_addr hnil, up_cons, hpnode, cell_red, (focus_flip.mp h).node_fork,
    cell_child_other, addr_fork, wp_bind]
  refine h.wp_setRed_sib fun s₁ h₁ => ?_
  refine wp_seq (h₁.wp_setRed_frame fun s₂ h₂ => ?_)
  rw [wp_bind]
  rw [focus_flip, ← fork_other, focus_fork] at h₂
  refine h₂.wp_setRed fun s₃ h₃ => ?_
  rw [← focus_fork, fork_other, ← focus_flip, ← focus_fork] at h₃
  refine h₃.wp_rotate fun s₄ h₄ => ?_
  have hpbal : Balanced (fork side false p xt wn) false (n + 1) :=
    balanced_fork_black.mpr ⟨rfl, n, rfl, ⟨_, hxt⟩, ⟨_, hwn⟩⟩
  have hubal : Balanced (fork side false u un uf) false (n + 1) :=
    balanced_fork_black.mpr ⟨rfl, n, rfl, ⟨_, hun⟩, ⟨_, huf⟩⟩
  obtain ⟨m, hm⟩ : ∃ m, Balanced (plug ctx (fork side pc w (fork side false p xt wn)
      (fork side false u un uf))) false m := by
    cases hacc with
    | black hpc _ hctx =>
      subst hpc
      exact hctx.plug (balanced_fork_black.mpr ⟨rfl, _, rfl, ⟨_, hpbal⟩, ⟨_, hubal⟩⟩) nofun
    | red hpc _ hctx =>
      subst hpc
      exact hctx.plug (balanced_fork_red.mpr ⟨rfl, hpbal, hubal⟩) fun _ => rfl
  refine hQ s₄ _ m h₄ hm ?_
  rw [(focus_fork.mp h₄).node_fork, cell_red]

end

/-- A subtree with one black node too few on each path below it, unless its root is red. -/
def Lacks (t : ColorTree α) (n : ℕ) : Prop :=
  (t.isRed = true ∧ Balanced t.blacken false (n + 1)) ∨ Balanced t false n

/-- The node `r₀` that was the root of the tree when the loop began. -/
def RootAt (nil r₀ : α) (ctx : List (Frame α)) (t : ColorTree α) : Prop :=
  (ctx = [] ∧ addr nil t = r₀) ∨ t.isRed = true ∨ Outer r₀ ctx

/-- The step of the loop: the lack moves up, or it is gone. -/
theorem wp_rbDeleteFixupSub {Q : α → RbTree α → Prop}
    (h : Focus o s (⟨side, pc, p, wt⟩ :: ctx) xt) (hnil : xt = .leaf → o.sentinel.parent = p)
    (hxt : Balanced xt false n) (hacc : Accepts (⟨side, pc, p, wt⟩ :: ctx) b (n + 1))
    (hroot : (ctx = [] ∧ p = r₀) ∨ Outer r₀ ctx)
    (hup : ∀ s' ctx' t' n' b', Focus o s' ctx' t' → t' ≠ .leaf → Lacks t' n' →
      Accepts ctx' b' (n' + 1) → RootAt o.nil r₀ ctx' t' →
      (t'.isRed = false → ctx'.length ≤ ctx.length) → Q (addr o.nil t') s')
    (hdone : ∀ s' t' m, Focus o s' [] t' → Balanced t' false m → (s'.node r₀).red = false →
      Q r₀ s') :
    (rbDeleteFixupSub side r₀ (addr o.nil xt)).wp H E Q s := by
  rw [rbDeleteFixupSub, wp_bind]
  refine wp_blackSibling h hnil hacc hroot fun s₁ pc₁ w wn wf ctx₁ b₁ h₁ hacc₁ hroot₁ hlen₁ => ?_
  have hw := focus_flip.mp h₁
  obtain ⟨cn, cf, hwn, hwf⟩ : ∃ cn cf, Balanced wn cn n ∧ Balanced wf cf n := by
    obtain ⟨c, hbal⟩ := hacc₁.beside
    obtain ⟨-, m, hm, ⟨cn, hwn⟩, ⟨cf, hwf⟩⟩ := balanced_fork_black.mp hbal
    cases hm
    exact ⟨cn, cf, hwn, hwf⟩
  have hcn : (s₁.node (addr o.nil wn)).red = cn := by
    rw [(focus_fork.mp hw).red_addr, hwn.isRed_eq]
  have hcf : (s₁.node (addr o.nil wf)).red = cf := by
    rw [(focus_flip.mp (focus_fork.mp hw)).red_addr, hwf.isRed_eq]
  rw [wp_get, hw.node_fork, cell_child, cell_child_other, hcn, hcf]
  refine wp_if (fun hblack => ?_) fun hred => ?_
  · -- two black nephews: the sibling becomes red, and the parent takes over the lack
    obtain ⟨rfl, rfl⟩ := hblack
    refine wp_seq (h₁.wp_setRed_sib fun s₂ h₂ => ?_)
    have hpbal : Balanced (fork side false p xt (fork side true w wn wf)) false (n + 1) :=
      balanced_fork_black.mpr ⟨rfl, n, rfl, ⟨_, hxt⟩, ⟨_, balanced_fork_red.mpr ⟨rfl, hwn, hwf⟩⟩⟩
    have haddr : addr o.nil (fork side pc₁ p xt (fork side true w wn wf)) = p := addr_fork
    rw [wp_gets, h₂.parent_addr hnil, ← haddr]
    have h₂ := focus_fork.mpr h₂
    cases hacc₁ with
    | black hpc _ hctx =>
      subst hpc
      refine hup s₂ ctx₁ _ (n + 1) _ h₂ fork_ne_leaf (.inr hpbal) hctx ?_ fun _ => hlen₁ rfl
      exact hroot₁.imp (fun hp => ⟨hp.1 rfl, addr_fork.trans hp.2⟩) .inr
    | red hpc _ hctx =>
      subst hpc
      refine hup s₂ ctx₁ _ n true h₂ fork_ne_leaf (.inl ⟨isRed_fork, ?_⟩) hctx
        (.inr (.inl isRed_fork)) fun hfalse => absurd hfalse (by simp)
      rw [blacken_fork]
      exact hpbal
  · refine wp_seq (wp_redNephew h₁ hnil hwn hwf hred fun s₂ w₂ wn₂ wf₂ c₂ h₂ hwn₂ hwf₂ => ?_)
    have hacc₂ : Accepts (⟨side, pc₁, p, fork side false w₂ wn₂ wf₂⟩ :: ctx₁) b₁ (n + 1) := by
      have hwbal : Balanced (fork side false w₂ wn₂ wf₂) false (n + 1) :=
        balanced_fork_black.mpr ⟨rfl, n, rfl, ⟨_, hwn₂⟩, ⟨_, hwf₂⟩⟩
      cases hacc₁ with
      | black hpc _ hctx => exact .black hpc hwbal hctx
      | red hpc _ hctx => exact .red hpc hwbal hctx
    refine wp_seq (wp_rotateSibling h₂ hnil hxt hwn₂ hwf₂ hacc₂ fun s₃ t₃ m h₃ hbal₃ hp₃ => ?_)
    refine hdone s₃ _ m (focus_plug.mp h₃) hbal₃ ?_
    rcases hroot₁ with ⟨-, rfl⟩ | houter
    · exact hp₃
    · exact houter.isBlack h₃.1

omit [DecidableEq α] in
theorem Outer.mem_nodes (h : Outer r₀ ctx) : r₀ ∈ nodes ctx := by
  obtain ⟨pre, g, rfl, rfl, -⟩ := h
  simp [nodes_append, nodes]

omit [DecidableEq α] in
/-- The outermost node is not in the subtree. -/
theorem Outer.ne_addr (h : Outer r₀ ctx) (hon : On s ctx t) : addr s.nil t ≠ r₀ := by
  intro heq
  by_cases ht : t = .leaf
  · subst ht
    exact hon.ne_nil (mem_append_right _ h.mem_nodes) heq.symm
  · exact (nodup_append.mp (nodup_append.mp hon.nodup).1).2.2 _ (addr_mem ht) _ h.mem_nodes heq

omit [DecidableEq α] in
/-- The node above, and the nodes above that one. -/
theorem Outer.tail (h : Outer r₀ ctx) :
    ∃ f ctx', ctx = f :: ctx' ∧ ((ctx' = [] ∧ f.x = r₀) ∨ Outer r₀ ctx') := by
  obtain ⟨pre, g, rfl, hx, hred⟩ := h
  cases pre with
  | nil => exact ⟨g, [], rfl, .inl ⟨rfl, hx⟩⟩
  | cons f pre => exact ⟨f, _, rfl, .inr ⟨pre, g, rfl, hx, hred⟩⟩

/-- The turns that the loop may take. -/
def turns (ctx : List (Frame α)) (t : ColorTree α) : ℕ :=
  if t.isRed = true then 1 else ctx.length + 2

/-- The loop of `rb_delete_fixup` ends at a node which only has to be made black. -/
theorem wp_deleteFixupFrom {Q : α → RbTree α → Prop} (h : Focus o s ctx t)
    (hnil : t = .leaf → o.sentinel.parent = up o.root ctx) (hlack : Lacks t n)
    (hacc : Accepts ctx b (n + 1)) (hroot : RootAt o.nil r₀ ctx t)
    (hfuel : H ∨ turns ctx t ≤ fuel)
    (hQ : ∀ s' ctx' t' m, Focus o s' ctx' t' → Balanced (plug ctx' t'.blacken) false m →
      Q (addr o.nil t') s') :
    (deleteFixupFrom r₀ fuel (addr o.nil t)).wp H E Q s := by
  induction fuel generalizing s ctx t n b with
  | zero =>
    refine hfuel.resolve_right fun hlt => ?_
    rw [turns] at hlt
    split at hlt <;> omega
  | succ fuel ih =>
    rw [deleteFixupFrom, wp_get, h.red_addr, wp_ite]
    rcases Bool.eq_false_or_eq_true t.isRed with hred | hblack
    · -- a red node takes the lack
      refine ⟨fun hgo => absurd (hgo.2.symm.trans hred) (by decide), fun _ => ?_⟩
      rcases hlack with ⟨-, hbal⟩ | hbal
      · obtain ⟨m, hm⟩ := hacc.plug hbal nofun
        exact hQ s ctx t m h hm
      · cases hbal.isRed_eq.symm.trans hred
    · have hnot : t.isRed ≠ true := by simp [hblack]
      have hbal : Balanced t false n := hlack.resolve_left fun hred => hnot hred.1
      have hroot : (ctx = [] ∧ addr o.nil t = r₀) ∨ Outer r₀ ctx :=
        hroot.imp_right fun hor => hor.resolve_left hnot
      refine ⟨fun hgo => ?_, fun hstop => ?_⟩
      · have houter : Outer r₀ ctx := hroot.resolve_left fun hp => hgo.1 hp.2
        have hmem := houter.mem_nodes
        obtain ⟨⟨side, pc, p, wt⟩, ctx, rfl, htail⟩ := houter.tail
        obtain ⟨c, hwt⟩ := hacc.beside
        have hside := h.side_eq (.inr fun hleaf => by
          rw [hleaf] at hwt
          cases hwt)
        rw [turns, if_neg hnot, length_cons] at hfuel
        rw [wp_bind, h.parent_addr hnil, up_cons, hside]
        refine wp_rbDeleteFixupSub h hnil hbal hacc htail
          (fun s' ctx' t' n' b' h' hleaf hlack' hacc' hroot' hlen => ?_)
          fun s' t' m h' hbal' hred => ?_
        · refine ih h' (fun heq => absurd heq hleaf) hlack' hacc' hroot'
            (hfuel.imp_right fun hlt => ?_)
          rw [turns]
          split_ifs with hred
          · omega
          · have := hlen (by simpa using hred)
            omega
        · -- the loop ends at the old root, which is black
          cases fuel with
          | zero => exact hfuel.resolve_right (by omega)
          | succ fuel =>
            rw [deleteFixupFrom, wp_get]
            refine wp_if (fun hgo => absurd rfl hgo.1) fun _ => ?_
            have hmem' : r₀ ∈ t'.toList := by
              have hlist : t'.toList = o.list := h'.list
              rw [hlist, ← h.list, plug_perm.mem_iff]
              exact mem_append_right _ hmem
            obtain ⟨ctx', red, l, r, rfl⟩ := exists_plug hmem'
            have hon := focus_plug.mpr h'
            have hred' := hon.red_addr
            rw [addr, hred] at hred'
            refine hQ s' ctx' (node red l r₀ r) m hon ?_
            rw [blacken_eq_self hred'.symm]
            exact hbal'
      · have heq : addr o.nil t = r₀ := by
          by_contra hne
          exact hstop ⟨hne, hblack⟩
        rcases hroot with ⟨rfl, -⟩ | houter
        · refine hQ s [] t n h ?_
          rw [blacken_eq_self hblack]
          exact hbal
        · rw [← h.nil_eq] at heq
          exact absurd heq (houter.ne_addr h.1)

/-- Making a node black that is `nil` or in the tree. -/
theorem Focus.wp_blacken {Q : Unit → RbTree α → Prop} (h : Focus o s ctx t)
    (hQ : ∀ s', Focus o s' ctx t.blacken → Q () s') :
    (setRed (addr o.nil t) false).wp H E Q s := by
  rcases t.eq_leaf_or_fork .left with rfl | ⟨red, x, near, far, rfl⟩
  · refine h.held.wp_set fun s' h' => hQ s' (Mem.focus (h'.of_eq ?_) h.black h.list)
    rw [Node.setRed, ← h.black]
    rfl
  · refine h.wp_setRed fun s' h' => hQ s' ?_
    rwa [blacken_fork]

/-- `rb_delete_fixup`. -/
theorem wp_rbDeleteFixup {Q : Unit → RbTree α → Prop} (h : Focus o s ctx t)
    (hnil : t = .leaf → o.sentinel.parent = up o.root ctx) (hlack : Lacks t n)
    (hacc : Accepts ctx b (n + 1)) (hfuel : H ∨ ctx.length + 2 ≤ fuel)
    (hQ : ∀ s' t' m, Focus o s' [] t' → Balanced t' false m → Q () s') :
    (rbDeleteFixup fuel (addr o.nil t)).wp H E Q s := by
  have hroot : RootAt o.nil (addr o.nil (plug ctx t)) ctx t := by
    by_cases hnil : ctx = []
    · subst hnil
      exact .inl ⟨rfl, rfl⟩
    · obtain ⟨pre, f, rfl, hred⟩ := hacc.last hnil
      refine .inr (.inr ⟨pre, f, rfl, ?_, hred⟩)
      rw [plug_append, plug, plug, Frame.plug, addr_fork]
  rw [rbDeleteFixup, wp_get, (on_plug.mp h.1).node_root, h.nil_eq, wp_bind]
  refine wp_deleteFixupFrom h hnil hlack hacc hroot (hfuel.imp_right fun hlt => ?_)
    fun s₁ ctx₁ t₁ m h₁ hbal => ?_
  · rw [turns]
    split <;> omega
  · exact h₁.wp_blacken fun s₂ h₂ => hQ s₂ _ m (focus_plug.mp h₂) hbal

/-- The loss of a black node is made good. -/
theorem wp_fixupUnlessRed {Q : Unit → RbTree α → Prop} (h : Focus o s ctx xt)
    (hnil : xt = .leaf → o.sentinel.parent = up o.root ctx)
    (hbal : Balanced (fork side red y .leaf xt) c n) (hacc : Accepts ctx b n)
    (hfuel : H ∨ ctx.length + 2 ≤ fuel)
    (hQ : ∀ s' t' m, Focus o s' [] t' → Balanced t' false m → Q () s') :
    (if (!red) = true then rbDeleteFixup fuel (addr o.nil xt) else pure ()).wp H E Q s := by
  cases red with
  | true =>
    obtain ⟨rfl, -, hxt⟩ := balanced_fork_red.mp hbal
    obtain ⟨m, hm⟩ := hacc.plug hxt nofun
    exact hQ s _ m (focus_plug.mp h) hm
  | false =>
    obtain ⟨rfl, m, rfl, ⟨c', hleaf⟩, ⟨cx, hxt⟩⟩ := balanced_fork_black.mp hbal
    cases hleaf with
    | leaf =>
      have hlack : Lacks xt 0 := by
        cases cx with
        | false => exact .inr hxt
        | true =>
          refine .inl ⟨hxt.isRed_eq, ?_⟩
          cases hxt with
          | red hl hr => exact .black hl hr
      exact wp_rbDeleteFixup h hnil hlack hacc hfuel hQ

end Fixup

/-! ## Leaving the tree -/

section Leave

variable {xt l r : ColorTree α} {nil root : α} {n₀ n₁ : Node α} {Q : Unit → RbTree α → Prop}

/-- The child of `y` comes in its place, and hangs there; the cell of `y` is left over. -/
theorem wp_unlink (h : On s ctx (fork side red y .leaf xt))
    (hQ : ∀ s' n₀, Mem s.nil s.root s' ({(y, s.node y)} + ({(s.nil, n₀)} +
      spot s.nil (ctx ++ [top s.root]) xt)) → n₀.red = false →
      (xt = .leaf → n₀.parent = up s.root ctx) → Q () s') :
    (unlink y (addr s.nil xt)).wp H E Q s := by
  obtain ⟨f, ctx', heq, hup, -⟩ := exists_frame s.root ctx
  have hsib := h.ne_sib fork_ne_leaf heq
  have hy := h.node_fork
  rw [← hup] at hy
  rw [addr_fork] at hsib
  have h₀ : Mem s.nil s.root s ((cells s.nil y xt + {(s.nil, s.node s.nil)}) +
      ({(y, cell side red f.x s.nil (addr s.nil xt))} +
      ({(f.x, cell f.side f.red (up s.nil ctx') y (addr s.nil f.sib))} +
      (cells s.nil f.x f.sib + pathCells s.nil f.x ctx')))) := by
    refine h.held.of_eq ?_
    rw [heq, spot, pathCells, cells_fork, addr_fork, cells]
    ac_rfl
  rw [unlink, wp_get, hy, cell_parent, wp_bind]
  refine h₀.wp_reparent fun s₁ h₁ => ?_
  rw [wp_get, h₁.swap.head, cell_parent]
  refine h₁.third.wp_replaceChild hsib fun s₂ h₂ =>
    hQ s₂ (if xt = .leaf then (s.node s.nil).setParent f.x else s.node s.nil) (h₂.of_eq ?_) ?_
      fun hleaf => ?_
  · rw [hy, heq, spot, pathCells, up_cons]
    ac_rfl
  · split_ifs
    · exact h.black
    · exact h.black
  · rw [if_pos hleaf, ← hup]
    rfl

/-- `y` takes the place of `z`. A missing right child gets `y` as its parent, too. -/
theorem wp_takePlace (hl : l ≠ .leaf)
    (h : Mem nil root s ({(y, n₁)} + ({(nil, n₀)} + spot nil (ctx ++ [top root]) (node red l z r))))
    (hblack : n₀.red = false)
    (hQ : ∀ s', Mem nil root s' ({(nil, if r = .leaf then n₀.setParent y else n₀)} +
      spot nil (ctx ++ [top root]) (node red l y r)) → Q () s') :
    (takePlace z y).wp H E Q s := by
  have hon : On s ctx (node red l z r) := Mem.on (h.map Holds.right) hblack
  obtain ⟨f, ctx', heq, hup, -⟩ := exists_frame root ctx
  have hsib := hon.ne_sib (by simp) (h.root ▸ heq)
  rw [addr, h.nil] at hsib
  have hyz : y ≠ z := h.holds.ne (by simp [map_spot, toList])
  have h₀ : Mem nil root s ({(f.x, cell f.side f.red (up nil ctx') z (addr nil f.sib))} +
      ((cells nil z r + {(nil, n₀)}) + (cells nil z l + ({(y, n₁)} +
      ({(z, ⟨red, f.x, addr nil l, addr nil r⟩)} +
      (cells nil f.x f.sib + pathCells nil f.x ctx')))))) := by
    refine h.of_eq ?_
    rw [heq, spot, pathCells, cells, addr]
    ac_rfl
  have hz : s.node z = ⟨red, f.x, addr nil l, addr nil r⟩ := h₀.get (by simp)
  rw [takePlace, if_pos hyz, wp_get, hz, wp_bind]
  refine h₀.wp_replaceChild hsib fun s₁ h₁ => ?_
  have hz₁ : s₁.node z = ⟨red, f.x, addr nil l, addr nil r⟩ := h₁.get (by simp)
  rw [wp_get, hz₁, wp_bind]
  refine h₁.swap.wp_reparent fun s₂ h₂ => ?_
  refine wp_seq (h₂.third.wp_setParent hl fun s₃ h₃ => ?_)
  have hz₃ : s₃.node z = ⟨red, f.x, addr nil l, addr nil r⟩ := h₃.get (by simp)
  rw [wp_modify, hz₃]
  refine hQ _ (Mem.map (M := {(z, ⟨red, f.x, addr nil l, addr nil r⟩)} + _)
    ((h₃.map Holds.fourth).set.of_eq ?_) Holds.right)
  rw [heq, spot, pathCells, cells, addr]
  ac_rfl

end Leave

/-- The last node on the way down one side. -/
theorem wp_bottom {Q : α → RbTree α → Prop} (h : On s ctx t) (ht : t ≠ .leaf)
    (hfuel : H ∨ t.toList.length ≤ fuel)
    (hQ : ∀ pre red y far, On s (pre ++ ctx) (fork side red y .leaf far) →
      plug pre (fork side red y .leaf far) = t → (∀ f ∈ pre, f.side = side) → Q y s) :
    (bottom side fuel (addr s.nil t)).wp H E Q s := by
  induction fuel generalizing ctx t with
  | zero =>
    refine hfuel.resolve_right fun hle => ht ?_
    cases t with
    | leaf => rfl
    | node red l x r => simp [toList] at hle
  | succ fuel ih =>
    obtain ⟨red, x, near, far, rfl⟩ := (t.eq_leaf_or_fork side).resolve_left ht
    have hnear := on_fork.mp h
    rw [toList_fork_perm.length_eq, length_cons, length_append] at hfuel
    rw [bottom, wp_get, addr_fork, h.node_fork, cell_child, wp_ite, hnear.addr_eq_nil]
    refine ⟨fun hleaf => ?_, fun hleaf => ?_⟩
    · subst hleaf
      exact hQ [] red x far h rfl fun f hf => absurd hf not_mem_nil
    · refine ih hnear hleaf (hfuel.imp_right fun hle => by omega)
        fun pre red' y far' h' hplug hside => ?_
      refine hQ (pre ++ [⟨side, red, x, far⟩]) red' y far' (by simpa using h') ?_ ?_
      · rw [plug_append, hplug]
        rfl
      · intro f hf
        rcases mem_append.mp hf with hf | hf
        · exact hside f hf
        · rw [mem_singleton.mp hf]

/-- The node that leaves its place: `z`, or its successor if `z` has two children. -/
theorem wp_spliced {Q : α → RbTree α → Prop} (h : On s ctx (node red l z r))
    (hfuel : H ∨ r.toList.length ≤ fuel) (hone : l = .leaf ∨ r = .leaf → Q z s)
    (htwo : ∀ pre yred y xt, l ≠ .leaf →
      On s (pre ++ ⟨.right, red, z, l⟩ :: ctx) (node yred .leaf y xt) →
      plug pre (node yred .leaf y xt) = r → (∀ f ∈ pre, f.side = .left) → Q y s) :
    (spliced fuel z).wp H E Q s := by
  have hz := h.node_eq
  have hl : On s (⟨.left, red, z, r⟩ :: ctx) l := on_fork.mp h
  have hr : On s (⟨.right, red, z, l⟩ :: ctx) r := on_fork.mp h
  rw [spliced, wp_get, hz]
  rw [wp_ite, hl.addr_eq_nil, hr.addr_eq_nil]
  refine ⟨hone, fun hnot => ?_⟩
  rw [not_or] at hnot
  rw [rbTreeSuccessor, wp_get, hz]
  refine wp_if (fun _ => ?_) fun hnil => absurd (mt hr.addr_eq_nil.mp hnot.2) hnil
  exact wp_bottom hr hnot.2 hfuel fun pre yred y xt h' hplug hside =>
    htwo pre yred y xt hnot.1 h' hplug hside

/-- The only child of a node that has at most one, as `rb_delete` finds it. -/
theorem On.exists_child (h : On s ctx (node red l z r)) (hone : l = .leaf ∨ r = .leaf) :
    ∃ side xt, node red l z r = fork side red z .leaf xt ∧
      (if (s.node z).left ≠ s.nil then (s.node z).left else (s.node z).right) = addr s.nil xt := by
  have hz := h.node_eq
  have hl : On s (⟨.left, red, z, r⟩ :: ctx) l := on_fork.mp h
  rw [hz]
  by_cases hleaf : l = .leaf
  · subst hleaf
    exact ⟨.left, r, rfl, if_neg (not_not.mpr rfl)⟩
  · have hr := hone.resolve_left hleaf
    subst hr
    exact ⟨.right, l, rfl, if_pos (mt hl.addr_eq_nil.mp hleaf)⟩

/-- `rb_delete`. -/
theorem wp_rbDelete {m : ℕ} {Q : Unit → RbTree α → Prop} (h : On s [] t)
    (hbal : Balanced t false m) (hz : z ∈ t.toList) (hfuel : H ∨ t.toList.length + 2 ≤ fuel)
    (hQ : ∀ s' t' m' pre post, On s' [] t' → Balanced t' false m' →
      t.toList = pre ++ z :: post → t'.toList = pre ++ post → s'.nil = s.nil →
      s'.root = s.root → Q () s') :
    (rbDelete fuel z).wp H E Q s := by
  obtain ⟨ctx, red, l, r, rfl⟩ := exists_plug hz
  have hon := on_plug.mpr h
  have hperm : (plug ctx (node red l z r)).toList.Perm
      ((l.toList ++ z :: r.toList) ++ nodes ctx) := plug_perm
  have hlen := hperm.length_eq
  rw [length_append, length_append, length_cons] at hlen
  have hpath := length_le_nodes ctx
  rw [rbDelete, wp_bind]
  refine wp_spliced hon (hfuel.imp_right fun hle => by omega) (fun hone => ?_)
    fun pre yred y xt hl hy hplug hside => ?_
  · -- `z` itself leaves its place
    obtain ⟨side, xt, hfork, hx⟩ := hon.exists_child hone
    rw [hfork] at hon hQ
    obtain ⟨n, c, b, hzbal, hacc, -⟩ := Accepts.of_plug hbal
    rw [hfork] at hzbal
    have hzmem : z ∈ (fork side red z .leaf xt).toList ++ nodes ctx :=
      mem_append_left _ (mem_toList_fork.mpr (.inl rfl))
    rw [wp_get]
    rw [hx]
    refine wp_check ⟨hon.ne_root hzmem, hon.ne_nil hzmem⟩ ?_
    refine wp_seq (wp_unlink hon fun s₁ n₀ h₁ hblack hnil => ?_)
    rw [wp_get, h₁.head, hon.node_fork, cell_red, wp_bind, takePlace,
      if_neg (not_not.mpr rfl), wp_pure]
    have hfocus : Focus ⟨s.nil, s.root, n₀, (plug ctx xt).toList⟩ s₁ ctx xt :=
      Mem.focus (h₁.map Holds.right) hblack rfl
    refine wp_fixupUnlessRed hfocus hnil hzbal hacc (hfuel.imp_right fun hle => by omega)
      fun s₂ t₂ m₂ h₂ hbal₂ => ?_
    have hlist : t₂.toList = before ctx ++ xt.toList ++ after ctx := h₂.list.trans toList_plug
    cases side with
    | left =>
      refine hQ s₂ t₂ m₂ (before ctx) (xt.toList ++ after ctx) h₂.1 hbal₂ ?_ ?_ h₂.nil_eq h₂.root_eq
      · rw [toList_plug]
        simp [fork, toList]
      · rw [hlist, append_assoc]
    | right =>
      refine hQ s₂ t₂ m₂ (before ctx ++ xt.toList) (after ctx) h₂.1 hbal₂ ?_ hlist h₂.nil_eq
        h₂.root_eq
      rw [toList_plug]
      simp [fork, toList]
  · -- its successor `y` leaves its place, and takes that of `z`
    subst hplug
    have htree : ∀ {v : ColorTree α} {x : α}, plug ctx (node red l x (plug pre v)) =
        plug (pre ++ ⟨.right, red, x, l⟩ :: ctx) v := fun {v x} => by
      rw [plug_append]
      rfl
    have hspot : ∀ {v : ColorTree α} {x : α},
        spot s.nil ((pre ++ ⟨.right, red, x, l⟩ :: ctx) ++ [top s.root]) v =
          spot s.nil (ctx ++ [top s.root]) (node red l x (plug pre v)) := fun {v x} => by
      rw [append_assoc, spot_append, cons_append, spot_cons]
      rfl
    rw [htree] at hbal
    obtain ⟨n, c, b, hybal, hacc, -⟩ := Accepts.of_plug hbal
    have hymem : y ∈ (node yred .leaf y xt).toList ++ nodes (pre ++ ⟨.right, red, z, l⟩ :: ctx) :=
      mem_append_left _ (by simp [toList])
    have hnodes : (nodes (pre ++ ⟨.right, red, z, l⟩ :: ctx)).length ≤
        (plug ctx (node red l z (plug pre (node yred .leaf y xt)))).toList.length := by
      rw [htree, plug_perm.length_eq, length_append]
      exact Nat.le_add_left _ _
    have hpath := length_le_nodes (pre ++ ⟨.right, red, z, l⟩ :: ctx)
    have hynode : s.node y = ⟨yred, up s.root (pre ++ ⟨.right, red, z, l⟩ :: ctx), s.nil,
        addr s.nil xt⟩ := hy.node_eq
    rw [wp_get, hynode]
    rw [if_neg (not_not.mpr rfl)]
    refine wp_check ⟨hy.ne_root hymem, hy.ne_nil hymem⟩ ?_
    rw [wp_bind]
    have hyfork : On s (pre ++ ⟨.right, red, z, l⟩ :: ctx) (fork .left yred y .leaf xt) := hy
    refine wp_unlink hyfork fun s₁ n₀ h₁ hblack hnil => ?_
    rw [wp_get, h₁.head, hynode, wp_bind]
    rw [hspot] at h₁
    refine wp_takePlace hl h₁ hblack fun s₂ h₂ => ?_
    rw [← hspot] at h₂
    have hfocus : Focus ⟨s.nil, s.root, if plug pre xt = .leaf then n₀.setParent y else n₀,
        (plug (pre ++ ⟨.right, red, y, l⟩ :: ctx) xt).toList⟩ s₂
        (pre ++ ⟨.right, red, y, l⟩ :: ctx) xt := by
      refine Mem.focus h₂ ?_ rfl
      split_ifs
      · exact hblack
      · exact hblack
    have hybal' : Balanced (fork .left yred y .leaf xt) c n := hybal
    refine wp_fixupUnlessRed hfocus (fun hleaf => ?_) hybal' hacc.rename ?_
      fun s₄ t₄ m₄ h₄ hbal₄ => ?_
    · -- the parent of `nil` is `y` if `y` was the right child of `z`
      subst hleaf
      cases pre with
      | nil => rfl
      | cons g pre =>
        have hne : plug (g :: pre) leaf ≠ leaf := plug_ne_leaf (t := g.plug leaf) fork_ne_leaf
        rw [if_neg hne]
        exact hnil rfl
    · refine hfuel.imp_right fun hle => ?_
      simp only [length_append, length_cons] at hpath ⊢
      omega
    · have hpre := before_eq_nil hside
      refine hQ s₄ t₄ m₄ (before ctx ++ l.toList) (y :: (xt.toList ++ after pre) ++ after ctx) h₄.1
        hbal₄ ?_ ?_ h₄.nil_eq h₄.root_eq
      · rw [toList_plug, toList, toList_plug, hpre]
        simp [toList]
      · refine h₄.list.trans ?_
        rw [← htree, toList_plug, toList, toList_plug, hpre]
        simp

end Ucore.Rb
