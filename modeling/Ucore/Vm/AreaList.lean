import Ucore.Rb.Runs
import Ucore.Vm.Areas
import Ucore.Vm.Ranges
import Mathlib.Data.List.Pairwise
import Mathlib.Data.List.TakeWhile

/-!
# The list, the tree and the cache of areas

`MmOk` says that the list is in order and without overlap, that the tree has the areas of the
list in their order, and that the cache is one of them. Each function of `vmm.c` on one
`mm_struct` keeps it; what it does to the areas is said of `Mm.areas`, the list as a function.
-/

namespace Ucore.Vm

open Kern Rb RedBlack RedBlack.ColorTree Function List

variable {H : Prop} {E : Err → Mm → Prop} {m m' : Mm} {loose pre post l : List ℕ} {p : TreePtr}
  {x z la start fin : ℕ} {t : ColorTree ℕ}

/-- An area is a range of whole pages of the user. -/
structure Vma.Ok (v : Vma) : Prop where
  access : UserAccess v.vmStart v.vmEnd
  start_aligned : v.vmStart % pgSize = 0
  end_aligned : v.vmEnd % pgSize = 0

theorem Vma.Ok.lt {v : Vma} (h : v.Ok) : v.vmStart < v.vmEnd := h.access.lt

/-- One area lies before another. -/
def Mm.Before (m : Mm) (a b : ℕ) : Prop := (m.vma a).vmEnd ≤ (m.vma b).vmStart

/-- The blocks of the tree. -/
def Mm.treeBlocks (m : Mm) : List ℕ :=
  match m.mmapTree with
  | some p => [p.addr, p.nil, p.root]
  | none => []

/-- The tree in memory has these nodes in this order. -/
def TreeOf (link : ℕ → Node ℕ) (p : TreePtr) (l : List ℕ) : Prop :=
  ∃ t k, On ⟨link, p.nil, p.root⟩ [] t ∧ Balanced t false k ∧ t.toList = l

/-- The list, the tree and the cache agree; `loose` are the areas that are not in the list. -/
structure MmOk (loose : List ℕ) (m : Mm) : Prop where
  ok : ∀ x ∈ m.mmapList, (m.vma x).Ok
  sorted : m.mmapList.Pairwise m.Before
  count : m.mapCount = m.mmapList.length
  nodup : m.heap.live.Nodup
  blocks : m.heap.live.Perm (m.mmapList ++ loose ++ m.treeBlocks)
  linked : ∀ x ∈ m.mmapList, (m.vma x).vmMm = true
  cache : ∀ x, m.mmapCache = some x → x ∈ m.mmapList
  tree : ∀ p, m.mmapTree = some p → TreeOf m.rbLink p m.mmapList

theorem MmOk.nodup_all (h : MmOk loose m) : (m.mmapList ++ loose ++ m.treeBlocks).Nodup :=
  h.blocks.nodup_iff.mp h.nodup

theorem MmOk.nodup_list (h : MmOk loose m) : m.mmapList.Nodup :=
  (nodup_append.mp (nodup_append.mp h.nodup_all).1).1

/-- An area that is not in the list is not in the tree either. -/
theorem MmOk.fresh (h : MmOk (z :: loose) m) : z ∉ m.mmapList ∧ z ∉ loose ∧ z ∉ m.treeBlocks := by
  have hall := h.nodup_all
  rw [append_assoc, cons_append, perm_middle.nodup_iff, nodup_cons,
    mem_append, mem_append, not_or, not_or] at hall
  exact hall.1

/-! ## Lookup -/

theorem wp_onTree {α : Type} {c : TreeM ℕ α} {F : Empty → RbTree ℕ → Prop} {Q : α → Mm → Prop}
    (hc : c.wp H F (fun a t => Q a { m with rbLink := t.node }) ⟨m.rbLink, p.nil, p.root⟩) :
    (onTree p c).wp H E Q m := by
  unfold wp onTree at *
  cases hm : c ⟨m.rbLink, p.nil, p.root⟩ with
  | done a t =>
    rw [hm] at hc
    exact hc
  | fail e t => exact e.elim
  | halt h =>
    rw [hm] at hc
    exact hc

/-- The area that `find_vma` is to find: the first that ends after an address. -/
def Mm.firstAfter (m : Mm) (la : ℕ) (l : List ℕ) : Option ℕ := l.find? fun x => la < (m.vma x).vmEnd

theorem firstAfter_append (hpre : ∀ x ∈ pre, (m.vma x).vmEnd ≤ la) :
    m.firstAfter la (pre ++ post) = m.firstAfter la post := by
  rw [Mm.firstAfter, List.find?_append, List.find?_eq_none.mpr fun x hx => by simpa using hpre x hx]
  rfl

theorem firstAfter_cons (hx : la < (m.vma x).vmEnd) : m.firstAfter la (x :: post) = some x :=
  List.find?_cons_of_pos (by simpa using hx)

/-- The loop of `find_vma_rb` finds the first node of a subtree that ends after an address. -/
theorem wp_findVmaRbFrom {fuel : ℕ} {best : Option ℕ} {ctx : List (Frame ℕ)}
    {Q : Option ℕ → Mm → Prop} (h : On ⟨m.rbLink, p.nil, p.root⟩ ctx t)
    (hok : ∀ x ∈ t.toList, (m.vma x).vmStart < (m.vma x).vmEnd)
    (hsorted : t.toList.Pairwise m.Before) (hfuel : t.toList.length < fuel)
    (hQ : Q ((m.firstAfter la t.toList).or best) m) :
    (findVmaRbFrom p la fuel (RbTree.orNull ⟨m.rbLink, p.nil, p.root⟩ (addr p.nil t)) best).wp
      H E Q m := by
  induction fuel generalizing ctx t best with
  | zero => exact absurd hfuel (Nat.not_lt_zero _)
  | succ fuel ih =>
    cases t with
    | leaf =>
      rw [addr, RbTree.orNull, if_neg (not_not.mpr rfl), findVmaRbFrom]
      exact hQ
    | node red l x r =>
      have hx : x ≠ p.nil := h.ne_nil (mem_append_left _ (by simp [toList]))
      have hl : On _ (⟨.left, red, x, r⟩ :: ctx) l := on_fork.mp h
      have hr : On _ (⟨.right, red, x, l⟩ :: ctx) r := on_fork.mp h
      obtain ⟨hsl, hsr, hlr⟩ := pairwise_append.mp hsorted
      obtain ⟨-, hsr⟩ := pairwise_cons.mp hsr
      have hlx : ∀ y ∈ l.toList, (m.vma y).vmEnd ≤ (m.vma x).vmStart :=
        fun y hy => hlr y hy x (.head _)
      rw [toList] at hQ hok hfuel
      rw [length_append, length_cons] at hfuel
      have hnode := h.node_eq
      rw [addr, RbTree.orNull, if_pos hx, findVmaRbFrom, wp_get]
      refine wp_if (fun hend => ?_) fun hend => ?_
      · refine wp_if (fun hstart => ?_) fun hstart => ?_
        · rw [firstAfter_append fun y hy => (hlx y hy).trans hstart, firstAfter_cons hend] at hQ
          exact hQ
        · rw [RbTree.rbNodeChild, hnode]
          refine ih hl (fun y hy => hok y (mem_append_left _ hy)) hsl (by omega) ?_
          rw [Mm.firstAfter, List.find?_append, Option.or_assoc] at hQ
          rw [List.find?_cons_of_pos (by simpa using hend)] at hQ
          exact hQ
      · have hxend := hok x (mem_append_right _ (.head _))
        rw [RbTree.rbNodeChild, hnode]
        refine ih hr (fun y hy => hok y (mem_append_right _ (.tail _ hy))) hsr (by omega) ?_
        have hbefore : ∀ y ∈ l.toList ++ [x], (m.vma y).vmEnd ≤ la := by
          intro y hy
          rcases mem_append.mp hy with hy | hy
          · have := hlx y hy
            omega
          · rw [mem_singleton.mp hy]
            omega
        rw [append_cons, firstAfter_append hbefore] at hQ
        exact hQ

/-- `find_vma` finds the first area that ends after an address, by any of its ways. -/
theorem wp_findVma {Q : Option ℕ → Mm → Prop} (h : MmOk loose m)
    (hnone : m.firstAfter la m.mmapList = none → Q none m)
    (hsome : ∀ x, m.firstAfter la m.mmapList = some x → Q (some x) { m with mmapCache := some x }) :
    (findVma la).wp H E Q m := by
  have hend : ∀ found, found = m.firstAfter la m.mmapList → (cacheVma found).wp H E Q m := by
    rintro found rfl
    cases hfound : m.firstAfter la m.mmapList with
    | none => exact hnone hfound
    | some x => exact hsome x hfound
  rw [findVma, wp_bind, lookupVma, wp_get]
  cases hcache : m.mmapCache.filter fun x => (m.vma x).vmStart ≤ la ∧ la < (m.vma x).vmEnd with
  | some x =>
    obtain ⟨hx, hin⟩ := Option.filter_eq_some_iff.mp hcache
    obtain ⟨hstart, hend'⟩ := of_decide_eq_true hin
    obtain ⟨pre, post, hlist⟩ := append_of_mem (h.cache x hx)
    refine hend (some x) ?_
    have hsorted := h.sorted
    rw [hlist] at hsorted ⊢
    rw [firstAfter_append, firstAfter_cons hend']
    intro y hy
    exact ((pairwise_append.mp hsorted).2.2 y hy x (.head _)).trans hstart
  | none =>
    cases htree : m.mmapTree with
    | none => exact hend _ rfl
    | some p =>
      obtain ⟨t, k, hon, -, hlist⟩ := h.tree p htree
      dsimp only
      rw [findVmaRb, wp_get, RbTree.rbNodeRoot, hon.node_root]
      refine wp_findVmaRbFrom hon ?_ ?_ ?_ ?_
      · rw [hlist]
        exact fun x hx => (h.ok x hx).lt
      · rw [hlist]
        exact h.sorted
      · rw [hlist, Mm.turns]
        omega
      · rw [hlist, Option.or_none]
        exact hend _ rfl

/-- The cache does not matter for what `MmOk` says of the areas. -/
theorem MmOk.cached (h : MmOk loose m) (hx : x ∈ m.mmapList) :
    MmOk loose { m with mmapCache := some x } :=
  { h with
    cache := by
      rintro y ⟨⟩
      exact hx }

/-- Nor does a block that is not used. -/
theorem MmOk.setHeap {h' : Heap ℕ} (h : MmOk loose m) (hlive : h'.live = m.heap.live) :
    MmOk loose { m with heap := h' } :=
  { h with nodup := hlive ▸ h.nodup, blocks := hlive ▸ h.blocks }

/-! ## The order of the areas -/

theorem totalPreorder_vmaCompare (m : Mm) : TotalPreorder m.vmaCompare := by
  constructor
  · intro a b
    simp only [Mm.vmaCompare]
    split_ifs <;> omega
  · intro a b c
    simp only [Mm.vmaCompare]
    split_ifs <;> omega

theorem vmaCompare_le {a b : ℕ} : m.vmaCompare a b ≤ 0 ↔ (m.vma a).vmStart ≤ (m.vma b).vmStart := by
  simp only [Mm.vmaCompare]
  split_ifs <;> omega

/-- Areas in order, none of them empty. -/
def Mm.Ordered (m : Mm) (l : List ℕ) : Prop :=
  (∀ x ∈ l, (m.vma x).vmStart < (m.vma x).vmEnd) ∧ l.Pairwise m.Before

theorem Mm.Ordered.sublist {l' : List ℕ} (h : m.Ordered l) (hsub : l'.Sublist l) :
    m.Ordered l' := ⟨fun x hx => h.1 x (hsub.subset hx), h.2.sublist hsub⟩

/-- The starts of areas in order increase. -/
theorem Mm.Ordered.starts (h : m.Ordered l) :
    l.Pairwise fun a b => (m.vma a).vmStart < (m.vma b).vmStart := by
  refine h.2.imp_of_mem fun ha _ hab => ?_
  have := h.1 _ ha
  rw [Mm.Before] at hab
  omega

theorem Mm.Ordered.sorted (h : m.Ordered l) : Sorted m.vmaCompare l :=
  h.starts.imp fun hlt => vmaCompare_le.mpr hlt.le

/-- The order determines the list. -/
theorem Mm.Ordered.eq_of_perm {l' : List ℕ} (h : m.Ordered l) (hsorted : Sorted m.vmaCompare l')
    (hperm : l'.Perm l) : l' = l := by
  refine hperm.eq_of_pairwise (fun a b ha hb hab hba => ?_) hsorted h.sorted
  rw [vmaCompare_le] at hab hba
  by_contra hne
  have hstarts : l.Pairwise fun a b => (m.vma a).vmStart ≠ (m.vma b).vmStart :=
    h.starts.imp fun hlt => hlt.ne
  have hsymm : Std.Symm fun a b => (m.vma a).vmStart ≠ (m.vma b).vmStart := ⟨fun _ _ => Ne.symm⟩
  exact hstarts.forall (hperm.mem_iff.mp ha) hb hne (Nat.le_antisymm hab hba)

/-- A list with a new area between two parts. -/
theorem Mm.Ordered.insert (h : m.Ordered (pre ++ post)) (hz : (m.vma z).vmStart < (m.vma z).vmEnd)
    (hpre : ∀ a ∈ pre, m.Before a z) (hpost : ∀ b ∈ post, m.Before z b) :
    m.Ordered (pre ++ z :: post) := by
  obtain ⟨hok, hsorted⟩ := h
  obtain ⟨hspre, hspost, hcross⟩ := pairwise_append.mp hsorted
  refine ⟨fun x hx => ?_, pairwise_append.mpr
    ⟨hspre, pairwise_cons.mpr ⟨hpost, hspost⟩, fun a ha b hb => ?_⟩⟩
  · rcases mem_append.mp hx with hx | hx
    · exact hok x (mem_append_left _ hx)
    · rcases mem_cons.mp hx with rfl | hx
      · exact hz
      · exact hok x (mem_append_right _ hx)
  · rcases mem_cons.mp hb with rfl | hb
    · exact hpre a ha
    · exact hcross a ha b hb

theorem MmOk.ordered (h : MmOk loose m) : m.Ordered m.mmapList :=
  ⟨fun x hx => (h.ok x hx).lt, h.sorted⟩

/-! ## The areas of an address space -/

/-- The areas in the list. -/
def Mm.areas (m : Mm) (x : ℕ) : Option Vma := if x ∈ m.mmapList then some (m.vma x) else none

/-- An address is in an area. -/
def Vma.In (v : Vma) (la : ℕ) : Prop := v.vmStart ≤ la ∧ la < v.vmEnd

variable {u v : Vma} {y : ℕ} {Q : Unit → Mm → Prop} {g : Vma → Vma} {loose' : List ℕ} {f : Flags}

theorem areas_eq_some : m.areas x = some v ↔ x ∈ m.mmapList ∧ m.vma x = v := by
  rw [Mm.areas]
  split_ifs with hx <;> simp [hx]

theorem areas_of_mem (hx : x ∈ m.mmapList) : m.areas x = some (m.vma x) := if_pos hx

theorem areas_of_notMem (hx : x ∉ m.mmapList) : m.areas x = none := if_neg hx

theorem exists_area {P : Vma → Prop} :
    (∃ x v, m.areas x = some v ∧ P v) ↔ ∃ x ∈ m.mmapList, P (m.vma x) := by
  simp only [areas_eq_some, and_assoc, exists_and_left, exists_eq_left']

theorem MmOk.area_ok (h : MmOk loose m) (hx : m.areas x = some v) : v.Ok := by
  obtain ⟨hmem, rfl⟩ := areas_eq_some.mp hx
  exact h.ok x hmem

section

variable (h : MmOk loose m) (hx : m.areas x = some u) (hy : m.areas y = some v)
include h hx hy

/-- Two areas do not overlap. -/
theorem MmOk.apart (hne : x ≠ y) : u.vmEnd ≤ v.vmStart ∨ v.vmEnd ≤ u.vmStart := by
  obtain ⟨hxmem, rfl⟩ := areas_eq_some.mp hx
  obtain ⟨hymem, rfl⟩ := areas_eq_some.mp hy
  have hpair : m.mmapList.Pairwise fun a b => m.Before a b ∨ m.Before b a := h.sorted.imp Or.inl
  have hsymm : Std.Symm fun a b => m.Before a b ∨ m.Before b a := ⟨fun _ _ => Or.symm⟩
  exact hpair.forall hxmem hymem hne

theorem MmOk.eq_of_in (hu : u.In la) (hv : v.In la) : x = y := by
  by_contra hne
  have hapart := h.apart hx hy hne
  obtain ⟨hulo, huhi⟩ := hu
  obtain ⟨hvlo, hvhi⟩ := hv
  omega

end

/-- No area meets a range. -/
def Mm.Free (m : Mm) (start fin : ℕ) : Prop :=
  ∀ x v, m.areas x = some v → v.vmEnd ≤ start ∨ fin ≤ v.vmStart

/-- The two parts of the list that a free range separates. -/
theorem MmOk.split (h : MmOk loose m) (hfree : m.Free start fin) :
    ∃ pre post, m.mmapList = pre ++ post ∧ (∀ a ∈ pre, (m.vma a).vmEnd ≤ start) ∧
      ∀ b ∈ post, fin ≤ (m.vma b).vmStart := by
  refine ⟨m.mmapList.takeWhile fun a => (m.vma a).vmEnd ≤ start,
    m.mmapList.dropWhile fun a => (m.vma a).vmEnd ≤ start, takeWhile_append_dropWhile.symm,
    fun a ha => ?_, fun b hb => ?_⟩
  · have hle := mem_takeWhile_imp ha
    simpa using hle
  · have hmono : m.mmapList.Pairwise fun a b =>
        decide ((m.vma b).vmEnd ≤ start) = true → decide ((m.vma a).vmEnd ≤ start) = true := by
      refine h.sorted.imp_of_mem fun {a b} _ hb hab => ?_
      have hlt := (h.ok b hb).lt
      rw [Mm.Before] at hab
      simp only [decide_eq_true_eq]
      omega
    have hnot := not_of_mem_dropWhile hmono hb
    have hmem := (dropWhile_sublist _).subset hb
    exact (hfree b _ (areas_of_mem hmem)).resolve_left (by simpa using hnot)

/-- A range is free if the first area that ends after its start begins after its end. -/
theorem MmOk.free (h : MmOk loose m)
    (hno : ∀ x, m.firstAfter start m.mmapList = some x → fin ≤ (m.vma x).vmStart) :
    m.Free start fin := by
  intro y v hy
  obtain ⟨hmem, rfl⟩ := areas_eq_some.mp hy
  by_contra hmeets
  cases hfirst : m.firstAfter start m.mmapList with
  | none =>
    have hnone := List.find?_eq_none.mp hfirst y hmem
    simp only [decide_eq_true_eq] at hnone
    omega
  | some x =>
    obtain ⟨hend, pre, post, hlist, hpre⟩ := List.find?_eq_some_iff_append.mp hfirst
    have hx := hno x hfirst
    have hsorted := h.sorted
    have hlt := (h.ok x (hlist ▸ mem_append_right _ (.head _))).lt
    rw [hlist] at hmem hsorted
    rcases mem_append.mp hmem with hmem | hmem
    · have hle := hpre y hmem
      simp only [Bool.not_eq_true', decide_eq_false_iff_not] at hle
      omega
    · rcases mem_cons.mp hmem with rfl | hmem
      · omega
      · have hbefore := (pairwise_cons.mp (pairwise_append.mp hsorted).2.1).1 y hmem
        rw [Mm.Before] at hbefore
        omega

/-! ## The flags of an address -/

/-- The flags that the first of some areas with an address has. -/
def flagsIn (vma : ℕ → Vma) (l : List ℕ) (la : ℕ) : Option Flags :=
  (l.find? fun x => (vma x).vmStart ≤ la ∧ la < (vma x).vmEnd).map fun x => (vma x).vmFlags

/-- An address space as a function from addresses to flags. -/
def Mm.flagsAt (m : Mm) : ℕ → Option Flags := flagsIn m.vma m.mmapList

theorem in_of_find (h : l.find? (fun x => (m.vma x).vmStart ≤ la ∧ la < (m.vma x).vmEnd) = some x) :
    (m.vma x).In la := by
  have hin := List.find?_some h
  simp only [decide_eq_true_eq] at hin
  exact hin

theorem flagsAt_eq_none : m.flagsAt la = none ↔ ∀ x v, m.areas x = some v → ¬v.In la := by
  rw [Mm.flagsAt, flagsIn, Option.map_eq_none_iff, List.find?_eq_none]
  simp only [decide_eq_true_eq]
  refine ⟨fun hno x v hx hin => ?_, fun hno x hx => hno x _ (areas_of_mem hx)⟩
  obtain ⟨hmem, rfl⟩ := areas_eq_some.mp hx
  exact hno x hmem hin

theorem flagsAt_isSome : (m.flagsAt la).isSome ↔ ∃ x v, m.areas x = some v ∧ v.In la := by
  rw [← Option.ne_none_iff_isSome, ne_eq, flagsAt_eq_none]
  push Not
  rfl

/-- A new area takes no flags away. -/
theorem flagsAt_grows (hareas : m'.areas = update m.areas z (some v)) (hfresh : m.areas z = none)
    (h : (m.flagsAt la).isSome) : (m'.flagsAt la).isSome := by
  obtain ⟨x, u, hx, hin⟩ := flagsAt_isSome.mp h
  refine flagsAt_isSome.mpr ⟨x, u, ?_, hin⟩
  rw [hareas, update_of_ne]
  · exact hx
  · rintro rfl
    cases hfresh.symm.trans hx

theorem MmOk.find_of_in (h : MmOk loose m) (hx : m.areas x = some v) (hin : v.In la) :
    m.mmapList.find? (fun x => (m.vma x).vmStart ≤ la ∧ la < (m.vma x).vmEnd) = some x := by
  cases hfind : m.mmapList.find? fun x => (m.vma x).vmStart ≤ la ∧ la < (m.vma x).vmEnd with
  | none => exact absurd hin (flagsAt_eq_none.mp (Option.map_eq_none_iff.mpr hfind) x v hx)
  | some y =>
    have hy := areas_of_mem (mem_of_find?_eq_some hfind)
    rw [h.eq_of_in hy hx (in_of_find hfind) hin]

theorem MmOk.flagsAt_eq_some (h : MmOk loose m) : m.flagsAt la = some f ↔
    ∃ x v, m.areas x = some v ∧ v.In la ∧ v.vmFlags = f := by
  rw [Mm.flagsAt, flagsIn, Option.map_eq_some_iff]
  constructor
  · rintro ⟨x, hfind, rfl⟩
    exact ⟨x, _, areas_of_mem (mem_of_find?_eq_some hfind), in_of_find hfind, rfl⟩
  · rintro ⟨x, v, hx, hin, rfl⟩
    exact ⟨x, h.find_of_in hx hin, congrArg Vma.vmFlags (areas_eq_some.mp hx).2⟩

/-- An address of an area has its flags. -/
theorem MmOk.flagsAt_of_in (h : MmOk loose m) (hx : m.areas x = some v) (hin : v.In la) :
    m.flagsAt la = some v.vmFlags := h.flagsAt_eq_some.mpr ⟨x, v, hx, hin, rfl⟩

theorem flagsAt_congr (h : m'.areas = m.areas) (hm : MmOk loose m) (hm' : MmOk loose' m') :
    m'.flagsAt = m.flagsAt := by
  funext la
  ext f
  rw [hm'.flagsAt_eq_some, hm.flagsAt_eq_some, h]

theorem Mm.Free.flagsAt (h : m.Free start fin) (hlo : start ≤ la) (hhi : la < fin) :
    m.flagsAt la = none := by
  refine flagsAt_eq_none.mpr fun x v hx hin => ?_
  have hfree := h x v hx
  obtain ⟨hle, hlt⟩ := hin
  omega

/-- The flags of an address outside of an area that has changed. -/
theorem MmOk.flagsAt_update {o : Option Vma} (h : MmOk loose m) (h' : MmOk loose' m')
    (hareas : m'.areas = update m.areas z o) (hold : ∀ u ∈ m.areas z, ¬u.In la)
    (hnew : ∀ v ∈ o, ¬v.In la) : m'.flagsAt la = m.flagsAt la := by
  ext f
  rw [h'.flagsAt_eq_some, h.flagsAt_eq_some, hareas]
  refine exists_congr fun x => exists_congr fun v => ?_
  rcases eq_or_ne x z with rfl | hx
  · rw [update_self]
    exact iff_of_false (fun hv => hnew v hv.1 hv.2.1) fun hv => hold v hv.1 hv.2.1
  · rw [update_of_ne hx]

/-! ## Insertion -/

/-- `rb_insert` puts an area into the tree at its place in the order. -/
theorem wp_rbInsertVma (pre post : List ℕ) (htree : TreeOf m.rbLink p (pre ++ post))
    (hordered : m.Ordered (pre ++ z :: post)) (hmem : z ∉ pre ++ post) (hnil : z ≠ p.nil)
    (hroot : z ≠ p.root) (hfuel : (pre ++ post).length < m.turns)
    (hQ : ∀ link, TreeOf link p (pre ++ z :: post) → Q () { m with rbLink := link }) :
    (rbInsertVma p z).wp H E Q m := by
  obtain ⟨t, k, hon, hbal, hlist⟩ := htree
  refine wp_onTree (F := fun _ _ => True) ?_
  have hsub : (pre ++ post).Sublist (pre ++ z :: post) :=
    (List.Sublist.refl pre).append (sublist_cons_self z post)
  refine wp_rbInsert (totalPreorder_vmaCompare m) hon hbal ?_ ?_ hroot hnil (.inr ?_)
    fun s' t' k' hon' hbal' hsorted' hperm hnil' hroot' => hQ s'.node ⟨t', k', ?_, hbal', ?_⟩
  · rw [hlist]
    exact (hordered.sublist hsub).sorted
  · rw [hlist]
    exact hmem
  · rw [hlist]
    exact hfuel
  · obtain ⟨link, nil, root⟩ := s'
    obtain rfl : nil = p.nil := hnil'
    obtain rfl : root = p.root := hroot'
    exact hon'
  · refine hordered.eq_of_perm hsorted' (hperm.trans ?_)
    rw [hlist]
    exact perm_middle.symm

/-- The link after which an area goes is the last of the areas before it. -/
theorem wp_prevLink {Q : Option ℕ → Mm → Prop} (h : MmOk (z :: loose) m)
    (hlist : m.mmapList = pre ++ post) (hordered : m.Ordered (pre ++ z :: post))
    (hQ : ∀ link, (∀ p, m.mmapTree = some p → TreeOf link p (pre ++ z :: post)) →
      Q pre.getLast? { m with rbLink := link }) : (prevLink z).wp H E Q m := by
  rw [prevLink, wp_get]
  cases htree : m.mmapTree with
  | none =>
    have htake : (m.mmapList.takeWhile fun x => (m.vma x).vmStart ≤ (m.vma z).vmStart) = pre := by
      obtain ⟨-, hpost, hpre⟩ := pairwise_append.mp hordered.starts
      have hbefore : ∀ a ∈ pre, decide ((m.vma a).vmStart ≤ (m.vma z).vmStart) = true := by
        intro a ha
        simpa using (hpre a ha z (.head _)).le
      rw [hlist, takeWhile_append_of_pos hbefore]
      cases post with
      | nil => exact append_nil pre
      | cons b post =>
        have hlt := (pairwise_cons.mp hpost).1 b (.head _)
        rw [takeWhile_cons_of_neg (by simpa using hlt), append_nil]
    rw [htake, wp_pure]
    exact hQ m.rbLink fun p hp => by simp [htree] at hp
  | some p =>
    obtain ⟨hz, -, hzblocks⟩ := h.fresh
    rw [Mm.treeBlocks, htree] at hzblocks
    rw [hlist] at hz
    simp only [mem_cons, not_mem_nil, or_false, not_or] at hzblocks
    dsimp only
    rw [insertVmaRb, wp_bind]
    refine wp_rbInsertVma pre post (hlist ▸ h.tree p htree) hordered hz hzblocks.2.1 hzblocks.2.2 ?_
      fun link htree' => ?_
    · rw [← hlist, Mm.turns]
      omega
    · obtain ⟨t, k, hon, hbal, htlist⟩ := htree'
      rw [wp_get]
      refine wp_onTree (F := fun _ _ => True) (wp_rbNodePrev hon htlist (.inr ?_) ?_)
      · rw [htlist, Mm.turns, hlist, length_append, length_append, length_cons]
        omega
      · refine hQ link fun q hq => ?_
        rw [htree] at hq
        cases hq
        exact ⟨t, k, hon, hbal, htlist⟩

theorem wp_checkVmaPlace {prev next : Option ℕ}
    (hlt : ∀ x, prev = some x ∨ next = some x → (m.vma x).vmStart < (m.vma x).vmEnd)
    (hle : ∀ x y, prev = some x → next = some y → m.Before x y) (hQ : Q () m) :
    (checkVmaPlace prev next).wp H E Q m := by
  rw [checkVmaPlace, wp_get]
  cases prev with
  | none => exact hQ
  | some x =>
    cases next with
    | none => exact hQ
    | some y =>
      refine wp_check (hlt x (.inl rfl)) ?_
      refine wp_check (hle x y rfl rfl) ?_
      exact wp_assert_of (hlt y (.inr rfl)) hQ

/-- `rb_tree_create` either takes three new blocks or none. -/
theorem wp_treeCreate {Q : Option TreePtr → Mm → Prop}
    (hnone : ∀ h', h'.live = m.heap.live → Q none { m with heap := h' })
    (hsome : ∀ p h', h'.live = p.root :: p.nil :: p.addr :: m.heap.live →
      p.addr ∉ m.heap.live → p.nil ∉ p.addr :: m.heap.live →
      p.root ∉ p.nil :: p.addr :: m.heap.live →
      Q (some p) { m with heap := h', rbLink := (rbTreeCreate m.rbLink p.nil p.root).node }) :
    treeCreate.wp H E Q m := by
  rw [treeCreate, wp_bind, Mm.kmalloc, wp_zoom]
  refine Heap.wp_alloc (fun h' _ => hnone h') fun a h₁ ha hlive₁ => ?_
  rw [wp_bind, wp_zoom]
  refine Heap.wp_alloc (fun h₂ _ hlive₂ => ?_) fun nil h₂ hnil hlive₂ => ?_
  · refine hnone { h₂ with live := h₂.live.erase a } ?_
    rw [hlive₂, hlive₁, erase_cons_head]
  · rw [hlive₁] at hlive₂ hnil
    rw [wp_bind, wp_zoom]
    refine Heap.wp_alloc (fun h₃ _ hlive₃ => ?_) fun root h₃ hroot hlive₃ => ?_
    · refine hnone { h₃ with live := (h₃.live.erase nil).erase a } ?_
      rw [hlive₃, hlive₂, erase_cons_head, erase_cons_head]
    · rw [hlive₂] at hlive₃ hroot
      exact hsome ⟨a, nil, root⟩ h₃ hlive₃ ha hnil hroot

/-- All areas of an ordered list go into the tree. -/
theorem wp_rbInsertVmas (pre : List ℕ) (htree : TreeOf m.rbLink p pre)
    (hordered : m.Ordered (pre ++ post)) (hnodup : (pre ++ post).Nodup)
    (hnodes : ∀ x ∈ post, x ≠ p.nil ∧ x ≠ p.root) (hfuel : (pre ++ post).length < m.turns)
    (hQ : ∀ link, TreeOf link p (pre ++ post) → Q () { m with rbLink := link }) :
    (rbInsertVmas p post).wp H E Q m := by
  induction post generalizing pre m with
  | nil =>
    rw [append_nil] at hQ
    exact hQ m.rbLink htree
  | cons x post ih =>
    have hx := notMem_front hnodup
    have hlen : pre.length < m.turns := by
      rw [length_append] at hfuel
      omega
    rw [rbInsertVmas, wp_bind]
    refine wp_rbInsertVma pre [] ?_ ?_ ?_ (hnodes x (.head _)).1
      (hnodes x (.head _)).2 ?_ fun link htree' => ?_
    · rw [append_nil]
      exact htree
    · exact hordered.sublist ((List.Sublist.refl pre).append
        (cons_sublist_cons.mpr (nil_sublist post)))
    · rw [append_nil]
      exact hx
    · rw [append_nil]
      exact hlen
    · rw [append_cons] at hordered hnodup hfuel hQ
      exact ih _ htree' hordered hnodup (fun y hy => hnodes y (.tail _ hy)) hfuel hQ

/-- What a change that only concerns the tree leaves alone. -/
structure SameAreas (m m' : Mm) : Prop where
  vma : m'.vma = m.vma
  list : m'.mmapList = m.mmapList
  mmCount : m'.mmCount = m.mmCount

theorem SameAreas.refl : SameAreas m m := ⟨rfl, rfl, rfl⟩

theorem SameAreas.trans {m₁ : Mm} (h : SameAreas m m₁) (h' : SameAreas m₁ m') : SameAreas m m' :=
  ⟨h'.vma.trans h.vma, h'.list.trans h.list, h'.mmCount.trans h.mmCount⟩

theorem SameAreas.areas (h : SameAreas m m') : m'.areas = m.areas := by
  funext x
  rw [Mm.areas, Mm.areas, h.vma, h.list]

/-- The tree may be built. -/
theorem wp_buildTree (h : MmOk loose m) (hQ : ∀ m', MmOk loose m' → SameAreas m m' → Q () m') :
    buildTree.wp H E Q m := by
  rw [buildTree, wp_get]
  refine wp_if (fun hcond => ?_) fun _ => hQ m h ⟨rfl, rfl, rfl⟩
  have hno : m.mmapTree = none := by simpa using hcond.1
  have hblocks := h.blocks
  rw [Mm.treeBlocks, hno, append_nil] at hblocks
  refine wp_seq (wp_treeCreate (fun h' hlive => ?_) fun p h' hlive haddr hnil hroot => ?_)
  · exact hQ _ (h.setHeap hlive) ⟨rfl, rfl, rfl⟩
  · have hlist : ∀ x ∈ m.mmapList, x ∈ m.heap.live := fun x hx =>
      hblocks.mem_iff.mpr (mem_append_left _ hx)
    have hne : p.nil ≠ p.root := fun heq => hroot (heq ▸ mem_cons_self)
    have hcreate : RbSys.Holds m.vmaCompare ⟨rbTreeCreate m.rbLink p.nil p.root, []⟩ .leaf :=
      holds_rbTreeCreate m.rbLink hne
    have hempty : TreeOf (rbTreeCreate m.rbLink p.nil p.root).node p [] :=
      ⟨.leaf, 0, hcreate.memory, .leaf, rfl⟩
    refine wp_rbInsertVmas [] hempty h.ordered h.nodup_list (fun x hx => ?_) ?_
      fun link htree => hQ _ { h with nodup := ?_, blocks := ?_, tree := ?_ } ⟨rfl, rfl, rfl⟩
    · constructor
      · rintro rfl
        exact hnil (.tail _ (hlist _ hx))
      · rintro rfl
        exact hroot (.tail _ (.tail _ (hlist _ hx)))
    · show m.mmapList.length < m.mmapList.length + 3
      omega
    · rw [hlive]
      exact nodup_cons.mpr ⟨hroot, nodup_cons.mpr ⟨hnil, nodup_cons.mpr ⟨haddr, h.nodup⟩⟩⟩
    · rw [hlive, Mm.treeBlocks]
      have hcomm : ([p.root, p.nil, p.addr] ++ m.heap.live).Perm
          (m.heap.live ++ [p.root, p.nil, p.addr]) := perm_append_comm
      have hrev : [p.root, p.nil, p.addr].Perm [p.addr, p.nil, p.root] :=
        reverse_perm [p.addr, p.nil, p.root]
      exact hcomm.trans (hblocks.append hrev)
    · intro q hq
      cases hq
      exact htree

/-- The range of an area does not depend on `vm_mm`. -/
theorem range_vmMm (x : ℕ) :
    (update m.vma z { m.vma z with vmMm := true } x).vmStart = (m.vma x).vmStart ∧
      (update m.vma z { m.vma z with vmMm := true } x).vmEnd = (m.vma x).vmEnd := by
  by_cases hx : x = z
  · rw [hx, update_self]
    exact ⟨rfl, rfl⟩
  · rw [update_of_ne hx]
    exact ⟨rfl, rfl⟩

/-- An area is in the list. -/
theorem MmOk.inserted {link : ℕ → Node ℕ} (h : MmOk (z :: loose) m) (hz : (m.vma z).Ok)
    (hlist : m.mmapList = pre ++ post) (hordered : m.Ordered (pre ++ z :: post))
    (htree : ∀ p, m.mmapTree = some p → TreeOf link p (pre ++ z :: post)) :
    MmOk loose { m with
      vma := update m.vma z { m.vma z with vmMm := true }
      rbLink := link
      mmapList := pre ++ z :: post
      mapCount := m.mapCount + 1 } := by
  have hmem : ∀ {x}, x ∈ pre ++ z :: post → x = z ∨ x ∈ m.mmapList := by
    intro x hx
    rw [hlist]
    exact (mem_cons.mp (perm_middle.mem_iff.mp hx))
  refine ⟨fun x hx => ?_, ?_, ?_, h.nodup, ?_, fun x hx => ?_, fun x hx => ?_, htree⟩
  · have hok : (m.vma x).Ok := by
      rcases hmem hx with rfl | hx
      · exact hz
      · exact h.ok x hx
    obtain ⟨hs, he⟩ := range_vmMm x
    exact ⟨by rw [hs, he]; exact hok.access, by rw [hs]; exact hok.start_aligned,
      by rw [he]; exact hok.end_aligned⟩
  · refine hordered.2.imp fun {a b} hab => ?_
    rw [Mm.Before] at hab ⊢
    rw [(range_vmMm a).2, (range_vmMm b).1]
    exact hab
  · rw [h.count, hlist, length_append, length_append, length_cons]
    push_cast
    omega
  · refine h.blocks.trans ?_
    rw [hlist, append_assoc, append_assoc, append_assoc, append_assoc]
    refine List.Perm.append_left pre ?_
    exact perm_middle
  · dsimp only
    by_cases hxz : x = z
    · rw [hxz, update_self]
    · rw [update_of_ne hxz]
      exact h.linked x ((hmem hx).resolve_left hxz)
  · have hmem := h.cache x hx
    rw [hlist] at hmem
    exact perm_middle.mem_iff.mpr (.tail _ hmem)

/-- A list with a new area, as a function. -/
theorem areas_insert (hlist : m.mmapList = pre ++ post) (hlist' : m'.mmapList = pre ++ z :: post)
    (hvma : m'.vma = update m.vma z v) : m'.areas = update m.areas z (some v) := by
  funext x
  rw [Mm.areas, hlist', hvma]
  rcases eq_or_ne x z with rfl | hx
  · rw [if_pos (mem_append_right _ (.head _)), update_self, update_self]
  · rw [update_of_ne hx, update_of_ne hx, Mm.areas, hlist]
    refine if_congr ?_ rfl rfl
    rw [perm_middle.mem_iff, mem_cons]
    exact or_iff_right hx

/-- `insert_vma_struct` puts an area into a free range. -/
theorem wp_insertVmaStruct (h : MmOk (z :: loose) m) (hz : (m.vma z).Ok)
    (hfree : m.Free (m.vma z).vmStart (m.vma z).vmEnd)
    (hQ : ∀ m', MmOk loose m' → m'.areas = update m.areas z (some { m.vma z with vmMm := true }) →
      m'.vma = update m.vma z { m.vma z with vmMm := true } → m'.mmCount = m.mmCount → Q () m') :
    (insertVmaStruct z).wp H E Q m := by
  obtain ⟨pre, post, hlist, hpre, hpost⟩ := h.split hfree
  have hordered : m.Ordered (pre ++ z :: post) :=
    (hlist ▸ h.ordered).insert hz.lt hpre hpost
  have hnodup : (pre ++ post).Nodup := hlist ▸ h.nodup_list
  refine wp_check hz.lt ?_
  refine wp_seq (wp_prevLink h hlist hordered fun link htree => ?_)
  rw [wp_get, wp_bind]
  refine wp_checkVmaPlace ?_ ?_ ?_
  · rintro x (hx | hx)
    · exact hordered.1 x (mem_append_left _ (mem_of_getLast? hx))
    · cases hx
      exact hz.lt
  · rintro x y hx hy
    cases hy
    exact hpre x (mem_of_getLast? hx)
  · rw [wp_bind, hlist, nextOf_getLast hnodup]
    refine wp_checkVmaPlace ?_ ?_ ?_
    · rintro x (hx | hx)
      · cases hx
        exact hz.lt
      · exact hordered.1 x (mem_append_right _ (.tail _ (mem_of_head? hx)))
    · rintro x y hx hy
      cases hx
      exact hpost y (mem_of_head? hy)
    · rw [wp_put, wp_put]
      dsimp only [Mm.setVma]
      rw [insertAfter_getLast hnodup]
      exact wp_buildTree (h.inserted hz hlist hordered htree) fun m' h' hsame =>
        hQ m' h' (areas_insert hlist hsame.list hsame.vma) hsame.vma hsame.mmCount

/-! ## Removal and changes of an area -/

/-- `rb_delete` takes an area out of the tree. -/
theorem wp_rbDeleteVma (h : MmOk loose m) (hlist : m.mmapList = pre ++ x :: post)
    (hQ : ∀ link, (∀ p, m.mmapTree = some p → TreeOf link p (pre ++ post)) →
      Q () { m with rbLink := link }) : (rbDeleteVma x).wp H E Q m := by
  rw [rbDeleteVma, wp_get]
  cases htree : m.mmapTree with
  | none => exact hQ m.rbLink fun p hp => by simp [htree] at hp
  | some p =>
    obtain ⟨t, k, hon, hbal, htlist⟩ := h.tree p htree
    have hnodup := h.nodup_list
    rw [hlist] at hnodup htlist
    refine wp_onTree (F := fun _ _ => True) (wp_rbDelete hon hbal ?_ (.inr ?_)
      fun s' t' k' pre' post' hon' hbal' hsplit hlist' hnil hroot => hQ s'.node fun q hq => ?_)
    · rw [htlist]
      exact mem_append_right _ (.head _)
    · rw [htlist, Mm.turns, hlist]
      omega
    · rw [htree] at hq
      cases hq
      obtain ⟨link, nil, root⟩ := s'
      obtain rfl : nil = p.nil := hnil
      obtain rfl : root = p.root := hroot
      refine ⟨t', k', hon', hbal', ?_⟩
      rw [hlist', ← erase_middle (hsplit ▸ htlist ▸ hnodup), ← hsplit, htlist, erase_middle hnodup]

/-- `remove_vma_struct` takes an area out of the list. -/
theorem wp_removeVmaStruct (h : MmOk loose m) (hlist : m.mmapList = pre ++ x :: post)
    (hQ : ∀ m', MmOk (x :: loose) m' → m'.mmapList = pre ++ post → m'.vma = m.vma →
      m'.mmCount = m.mmCount → Q () m') : (removeVmaStruct x).wp H E Q m := by
  have hx : x ∈ m.mmapList := by
    rw [hlist]
    exact mem_append_right _ (.head _)
  have hnodup := h.nodup_list
  rw [hlist] at hnodup
  have herase : m.mmapList.erase x = pre ++ post := by rw [hlist, erase_middle hnodup]
  have hsub : (pre ++ post).Sublist m.mmapList := by
    rw [← herase]
    exact erase_sublist
  refine wp_check (h.linked x hx) ?_
  refine wp_seq (wp_rbDeleteVma h hlist fun link htree => ?_)
  rw [wp_modify]
  refine hQ _ ⟨fun y hy => ?_, ?_, ?_, h.nodup, ?_, fun y hy => ?_, fun y hy => ?_, ?_⟩ herase
    rfl rfl
  · rw [herase] at hy
    exact h.ok y (hsub.subset hy)
  · rw [herase]
    exact h.sorted.sublist hsub
  · rw [h.count, herase, hlist, length_append, length_append, length_cons]
    push_cast
    omega
  · refine h.blocks.trans ?_
    rw [herase, hlist]
    refine List.Perm.append_right _ ?_
    rw [append_assoc, append_assoc]
    refine List.Perm.append_left pre ?_
    exact perm_middle.symm
  · rw [herase] at hy
    exact h.linked y (hsub.subset hy)
  · rw [herase]
    by_cases hcache : m.mmapCache = some x
    · rw [if_pos hcache] at hy
      cases hy
    · rw [if_neg hcache] at hy
      have hne : y ≠ x := by
        rintro rfl
        exact hcache hy
      have hmem := h.cache y hy
      rw [hlist] at hmem
      exact (mem_cons.mp (perm_middle.mem_iff.mp hmem)).resolve_left hne
  · rw [herase]
    exact htree

theorem vma_setVma_self : (m.setVma x g).vma x = g (m.vma x) :=
  update_self ..

theorem vma_setVma_of_ne {y : ℕ} (hy : y ≠ x) : (m.setVma x g).vma y = m.vma y :=
  update_of_ne hy ..

theorem areas_setVma (hx : x ∈ m.mmapList) :
    (m.setVma x g).areas = update m.areas x (some (g (m.vma x))) := by
  funext y
  rcases eq_or_ne y x with rfl | hy
  · have hmem : y ∈ (m.setVma y g).mmapList := hx
    rw [update_self, areas_of_mem hmem, vma_setVma_self]
  · rw [update_of_ne hy, Mm.areas, vma_setVma_of_ne hy]
    rfl

theorem areas_setVma_of_notMem (hx : x ∉ m.mmapList) : (m.setVma x g).areas = m.areas := by
  funext y
  rcases eq_or_ne y x with rfl | hy
  · rw [areas_of_notMem hx]
    exact areas_of_notMem hx
  · rw [Mm.areas, vma_setVma_of_ne hy]
    rfl

/-- An area changes, in the list or outside of it. -/
theorem MmOk.setVma (h : MmOk loose m) (hok : x ∈ m.mmapList → (g (m.vma x)).Ok)
    (hlinked : x ∈ m.mmapList → (g (m.vma x)).vmMm = true)
    (hsorted : m.mmapList.Pairwise (m.setVma x g).Before) : MmOk loose (m.setVma x g) := by
  refine { h with ok := fun y hy => ?_, sorted := hsorted, linked := fun y hy => ?_ }
  · rcases eq_or_ne y x with rfl | heq
    · rw [vma_setVma_self]
      exact hok hy
    · rw [vma_setVma_of_ne heq]
      exact h.ok y hy
  · rcases eq_or_ne y x with rfl | heq
    · rw [vma_setVma_self]
      exact hlinked hy
    · rw [vma_setVma_of_ne heq]
      exact h.linked y hy

/-- Ranges that only shrink stay in order. -/
theorem pairwise_setVma (hsorted : l.Pairwise m.Before)
    (hstart : x ∈ l → (m.vma x).vmStart ≤ (g (m.vma x)).vmStart)
    (hend : x ∈ l → (g (m.vma x)).vmEnd ≤ (m.vma x).vmEnd) : l.Pairwise (m.setVma x g).Before := by
  refine hsorted.imp_of_mem fun {a b} ha hb hab => ?_
  have ha' : ((m.setVma x g).vma a).vmEnd ≤ (m.vma a).vmEnd := by
    rcases eq_or_ne a x with rfl | heq
    · rw [vma_setVma_self]
      exact hend ha
    · rw [vma_setVma_of_ne heq]
  have hb' : (m.vma b).vmStart ≤ ((m.setVma x g).vma b).vmStart := by
    rcases eq_or_ne b x with rfl | heq
    · rw [vma_setVma_self]
      exact hstart hb
    · rw [vma_setVma_of_ne heq]
  exact (ha'.trans hab).trans hb'

/-- The area after `vma_resize`. -/
def Vma.resized (v : Vma) (start fin : ℕ) : Vma :=
  { v with
    vmStart := start
    vmEnd := fin
    shmemOff := if v.has vmShare then v.shmemOff + (start - v.vmStart) else v.shmemOff }

/-- A part of an area. -/
structure Vma.Part (v : Vma) (start fin : ℕ) : Prop where
  start_le : v.vmStart ≤ start
  lt : start < fin
  le_end : fin ≤ v.vmEnd
  start_aligned : start % pgSize = 0
  end_aligned : fin % pgSize = 0

theorem Vma.Part.ok {v : Vma} (h : v.Part start fin) (hv : v.Ok) : (v.resized start fin).Ok :=
  { h with access := ⟨hv.access.1.trans h.start_le, h.lt, h.le_end.trans hv.access.2.2⟩ }

/-- `vma_resize` makes an area smaller. -/
theorem wp_vmaResize (h : MmOk loose m) (hpart : (m.vma x).Part start fin)
    (hQ : MmOk loose (m.setVma x (·.resized start fin)) → Q () (m.setVma x (·.resized start fin))) :
    (vmaResize x start fin).wp H E Q m := by
  refine wp_check ⟨hpart.start_aligned, hpart.end_aligned⟩ ?_
  refine wp_check ⟨hpart.start_le, hpart.lt, hpart.le_end⟩ ?_
  exact hQ (h.setVma (fun hx => hpart.ok (h.ok x hx)) (h.linked x)
    (pairwise_setVma h.sorted (fun _ => hpart.start_le) fun _ => hpart.le_end))

/-- `vma_create` makes an area that is not in the list. -/
theorem wp_vmaCreate {vmFlags : Flags} {Q : Option ℕ → Mm → Prop} (h : MmOk loose m)
    (hnone : ∀ m', m.heap.Full → MmOk loose m' → SameAreas m m' → Q none m')
    (hsome : ∀ m' z linked, MmOk (z :: loose) m' → m'.areas = m.areas → m.areas z = none →
      m'.vma = update m.vma z ⟨start, fin, vmFlags, none, 0, linked⟩ →
      m'.mmCount = m.mmCount → Q (some z) m') :
    (vmaCreate start fin vmFlags).wp H E Q m := by
  rw [vmaCreate, wp_bind, Mm.kmalloc, wp_zoom]
  refine Heap.wp_alloc (fun h' hfull hlive => ?_) fun z h' hz hlive => ?_
  · exact hnone _ hfull (h.setHeap hlive) ⟨rfl, rfl, rfl⟩
  · have hblocks : h'.live.Perm (m.mmapList ++ z :: loose ++ m.treeBlocks) := by
      rw [hlive, append_assoc]
      refine (h.blocks.cons z).trans ?_
      rw [append_assoc]
      exact perm_middle.symm
    have hmem : z ∉ m.mmapList := fun hmem =>
      hz (h.blocks.mem_iff.mpr (mem_append_left _ (mem_append_left _ hmem)))
    have hok : MmOk (z :: loose) { m with heap := h' } := by
      refine { h with nodup := ?_, blocks := hblocks }
      rw [hlive]
      exact nodup_cons.mpr ⟨hz, h.nodup⟩
    exact hsome _ z (m.vma z).vmMm (hok.setVma (fun hx => absurd hx hmem) (fun hx => absurd hx hmem)
      (pairwise_setVma h.sorted (fun hx => absurd hx hmem) fun hx => absurd hx hmem))
      (areas_setVma_of_notMem hmem) (areas_of_notMem hmem) rfl rfl

end Ucore.Vm
