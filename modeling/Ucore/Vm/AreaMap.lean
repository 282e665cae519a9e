import Ucore.Vm.AreaList

/-!
# Mapping

`mm_map` adds an area where there is none, and the first loop of `mm_unmap` takes out the areas
of a range.
-/

namespace Ucore.Vm

open Kern Function List

variable {H : Prop} {E : Err → Mm → Prop} {m m' : Mm} {loose pre post : List ℕ}
  {x z la start fin : ℕ} {vmFlags : Flags} {Q : ℕ → Mm → Prop}

/-- There is a new area in a free range, and nothing else has changed. -/
structure Mapped (m m' : Mm) (z start fin : ℕ) (vmFlags : Flags) : Prop where
  areas : m'.areas = update m.areas z (some ⟨start, fin, vmFlags, none, 0, true⟩)
  fresh : m.areas z = none
  free : m.Free start fin
  mmCount : m'.mmCount = m.mmCount

theorem Mapped.flagsAt (h : Mapped m m' z start fin vmFlags) (hm : MmOk loose m)
    (hm' : MmOk loose m') : m'.flagsAt la =
      if start ≤ la ∧ la < fin then some vmFlags else m.flagsAt la := by
  split_ifs with hin
  · refine hm'.flagsAt_of_in (x := z) (v := ⟨start, fin, vmFlags, none, 0, true⟩) ?_ hin
    rw [h.areas, update_self]
  · refine hm.flagsAt_update hm' h.areas (fun u hu => ?_) fun v hv => ?_
    · rw [h.fresh] at hu
      cases hu
    · exact Option.some.inj hv ▸ hin

/-- A new area goes into a free range. -/
theorem wp_mapNew (h : MmOk loose m) (haccess : UserAccess start fin) (hstart : start % pgSize = 0)
    (hfin : fin % pgSize = 0) (hfree : m.Free start fin)
    (hE : ∀ m', m.heap.Full → MmOk loose m' → SameAreas m m' → E .noMem m')
    (hQ : ∀ m' z, MmOk loose m' → Mapped m m' z start fin vmFlags → Q z m') :
    (mapNew start fin vmFlags).wp H E Q m := by
  rw [mapNew, wp_bind]
  refine wp_vmaCreate h hE fun m₁ z linked h₁ hareas₁ hfresh hvma₁ hcount₁ => ?_
  have hself : m₁.vma z = ⟨start, fin, vmFlags, none, 0, linked⟩ := by
    rw [hvma₁, update_self]
  rw [wp_bind]
  refine wp_insertVmaStruct h₁ ?_ ?_ fun m' h' hareas' _ hcount' => hQ m' z h' ⟨?_, hfresh, hfree,
    hcount'.trans hcount₁⟩
  · rw [hself]
    exact ⟨haccess, hstart, hfin⟩
  · rw [hself, Mm.Free, hareas₁]
    exact hfree
  · rw [hareas', hareas₁, hself]

theorem roundDown_mod (a : ℕ) : roundDown a pgSize % pgSize = 0 := by
  rw [roundDown, pgSize_eq]
  omega

theorem reqEnd_mod (a n : ℕ) : reqEnd a n % pgSize = 0 := roundDown_mod _

/-- The first area that ends after an address is in the list. -/
theorem mem_of_firstAfter {l : List ℕ} (h : m.firstAfter la l = some x) :
    x ∈ l ∧ la < (m.vma x).vmEnd := by
  have hx := List.find?_some h
  exact ⟨mem_of_find?_eq_some h, by simpa using hx⟩

/-- What `mm_map` changes. -/
theorem wp_mmMap {addr len : ℕ} (h : MmOk loose m)
    (hE : ∀ m' e, MmOk loose m' → SameAreas m m' → e = .inval ∨ e = .noMem → E e m')
    (hQ : ∀ m' z, MmOk loose m' → UserAccess (roundDown addr pgSize) (reqEnd addr len) →
      Mapped m m' z (roundDown addr pgSize) (reqEnd addr len) (vmFlags &&& ~~~vmShare) → Q z m') :
    (mmMap addr len vmFlags).wp H E Q m := by
  rw [mmMap]
  refine wp_if (fun _ => hE m .inval h .refl (.inl rfl)) fun haccess => ?_
  rw [not_not] at haccess
  rw [wp_bind]
  have hrest : ∀ m₁, MmOk loose m₁ → SameAreas m m₁ →
      m₁.Free (roundDown addr pgSize) (reqEnd addr len) →
      (mapNew (roundDown addr pgSize) (reqEnd addr len) (vmFlags &&& ~~~vmShare)).wp H E Q m₁ := by
    intro m₁ h₁ hsame hfree
    have hareas := hsame.areas
    refine wp_mapNew h₁ haccess (roundDown_mod addr) (reqEnd_mod addr len) hfree
      (fun m' _ h' hsame' => hE m' .noMem h' (hsame.trans hsame') (.inr rfl))
      fun m' z h' hmapped => hQ m' z h' haccess ?_
    obtain ⟨hnew, hfresh, -, hcount'⟩ := hmapped
    rw [Mm.Free, hareas] at hfree
    rw [hareas] at hnew hfresh
    exact ⟨hnew, hfresh, hfree, hcount'.trans hsame.mmCount⟩
  refine wp_findVma h (fun hnone => ?_) fun x hx => ?_
  · rw [wp_get, wp_ite]
    refine ⟨nofun, fun _ => hrest m h .refl (h.free fun x hx => ?_)⟩
    rw [hnone] at hx
    cases hx
  · have hcached := h.cached (mem_of_firstAfter hx).1
    rw [wp_get, wp_ite]
    refine ⟨fun _ => hE _ .inval hcached ⟨rfl, rfl, rfl⟩ (.inl rfl),
      fun hany => hrest _ hcached ⟨rfl, rfl, rfl⟩ (hcached.free fun y hy => ?_)⟩
    have heq : y = x := Option.some.inj (hy.symm.trans hx)
    subst heq
    have hle : ¬((m.vma y).vmStart < reqEnd addr len) := by simpa using hany
    exact Nat.le_of_not_lt hle

/-- An area grows into a free range. -/
theorem MmOk.extend (h : MmOk loose m) (hx : x ∈ m.mmapList) (hend : (m.vma x).vmEnd = start)
    (haccess : UserAccess start fin) (hfin : fin % pgSize = 0) (hfree : m.Free start fin) :
    MmOk loose (m.setVma x fun v => { v with vmEnd := fin }) ∧
      ∀ la, (m.setVma x fun v => { v with vmEnd := fin }).flagsAt la =
        if start ≤ la ∧ la < fin then some (m.vma x).vmFlags else m.flagsAt la := by
  have hokx := h.ok x hx
  have hltx := hokx.lt
  have hlt := haccess.lt
  have hok : MmOk loose (m.setVma x fun v => { v with vmEnd := fin }) := by
    refine h.setVma (fun _ => ⟨⟨hokx.access.1, by dsimp only; omega, haccess.2.2⟩,
      hokx.start_aligned, hfin⟩) (fun _ => h.linked x hx) ?_
    refine (h.nodup_list.and h.sorted).imp_of_mem fun {a b} ha hb hab => ?_
    obtain ⟨hne, hab⟩ := hab
    rw [Mm.Before] at hab ⊢
    rcases eq_or_ne a x with rfl | hax
    · rw [vma_setVma_self, vma_setVma_of_ne hne.symm]
      -- what comes after the area begins after the range
      have hltb := (h.ok b hb).lt
      exact (hfree b _ (areas_of_mem hb)).resolve_left (by omega)
    · rw [vma_setVma_of_ne hax]
      rcases eq_or_ne b x with rfl | hbx
      · rw [vma_setVma_self]
        exact hab
      · rw [vma_setVma_of_ne hbx]
        exact hab
  have hareas := areas_setVma (g := fun v => { v with vmEnd := fin }) hx
  have hnew : (m.setVma x fun v => { v with vmEnd := fin }).areas x =
      some { m.vma x with vmEnd := fin } := by rw [hareas, update_self]
  refine ⟨hok, fun la => ?_⟩
  split_ifs with hin
  · rw [hok.flagsAt_of_in hnew ⟨hltx.le.trans (hend.le.trans hin.1), hin.2⟩]
  · by_cases hold : (m.vma x).In la
    · rw [h.flagsAt_of_in (areas_of_mem hx) hold,
        hok.flagsAt_of_in hnew ⟨hold.1, hold.2.trans (hend.trans_lt hlt)⟩]
    · refine h.flagsAt_update hok hareas (fun u hu => ?_) fun v hv => ?_
      · rw [areas_of_mem hx] at hu
        exact Option.some.inj hu ▸ hold
      · cases hv
        rintro ⟨hlo, hhi⟩
        exact hold ⟨hlo, by dsimp only at hhi; omega⟩

/-- Only areas with the flags of a heap have changed. -/
def Grown (m m' : Mm) : Prop :=
  ∀ x, m'.areas x = m.areas x ∨ (∀ v ∈ m'.areas x, v.vmFlags = vmRead ||| vmWrite) ∧
    ∀ u ∈ m.areas x, u.vmFlags = vmRead ||| vmWrite

theorem grown_of_update {v : Vma} (h : m'.areas = update m.areas z (some v))
    (hnew : v.vmFlags = vmRead ||| vmWrite)
    (hold : ∀ u ∈ m.areas z, u.vmFlags = vmRead ||| vmWrite) : Grown m m' := by
  intro x
  rw [h]
  rcases eq_or_ne x z with rfl | hx
  · rw [update_self]
    exact .inr ⟨fun w hw => Option.some.inj hw ▸ hnew, hold⟩
  · exact .inl (update_of_ne hx ..)

/-- The area of an address is the one that `find_vma` finds. -/
theorem MmOk.firstAfter_of_in (h : MmOk loose m) (hx : x ∈ m.mmapList) (hin : (m.vma x).In la) :
    m.firstAfter la m.mmapList = some x := by
  obtain ⟨pre, post, hlist⟩ := append_of_mem hx
  have hsorted := h.sorted
  rw [hlist] at hsorted ⊢
  rw [firstAfter_append, firstAfter_cons hin.2]
  exact fun y hy => ((pairwise_append.mp hsorted).2.2 y hy x (.head _)).trans hin.1

/-- An area that may be read and written ends at an address. -/
def Mm.EndsAt (m : Mm) (la : ℕ) : Prop :=
  ∃ x ∈ m.mmapList, (m.vma x).vmEnd = la ∧ (m.vma x).vmFlags = vmRead ||| vmWrite

/-- A free range is given to the area before it, or to a new one. -/
theorem wp_extendOrMap {Q : Unit → Mm → Prop} (h : MmOk loose m) (haccess : UserAccess start fin)
    (hstart : start % pgSize = 0) (hfin : fin % pgSize = 0) (hfree : m.Free start fin)
    (hE : ∀ m', m.heap.Full → ¬m.EndsAt start → MmOk loose m' → SameAreas m m' → E .noMem m')
    (hQ : ∀ m', MmOk loose m' → (∀ la, m'.flagsAt la =
        if start ≤ la ∧ la < fin then some (vmRead ||| vmWrite) else m.flagsAt la) →
      Grown m m' → m'.mmCount = m.mmCount → Q () m') :
    (extendOrMap start fin).wp H E Q m := by
  have hnew : ∀ m₁, ¬m.EndsAt start → MmOk loose m₁ → SameAreas m m₁ → m₁.heap = m.heap →
      (mapNew start fin (vmRead ||| vmWrite)).wp H E (fun _ m' => Q () m') m₁ := by
    intro m₁ hends h₁ hsame hheap
    have hareas := hsame.areas
    refine wp_mapNew h₁ haccess hstart hfin (by rw [Mm.Free, hareas]; exact hfree)
      (fun m' hfull h' hsame' => hE m' (hheap ▸ hfull) hends h' (hsame.trans hsame'))
      fun m' z h' hmapped => hQ m' h' (fun la => ?_)
        (grown_of_update (hareas ▸ hmapped.areas) rfl fun u hu => ?_)
        (hmapped.mmCount.trans hsame.mmCount)
    · rw [hmapped.flagsAt h₁ h', flagsAt_congr hareas h h₁]
    · rw [← hareas, hmapped.fresh] at hu
      cases hu
  have hfirst : ∀ {y}, y ∈ m.mmapList → (m.vma y).vmEnd = start →
      m.firstAfter (start - 1) m.mmapList = some y := by
    intro y hy hend
    have hlt := (h.ok y hy).lt
    exact h.firstAfter_of_in hy ⟨by omega, by omega⟩
  rw [extendOrMap, wp_bind]
  refine wp_findVma h (fun hnone => ?_) fun x hx => ?_
  · rw [wp_get]
    dsimp only [Option.filter]
    refine wp_seq (hnew m (fun hends => ?_) h .refl rfl)
    obtain ⟨y, hy, hend, -⟩ := hends
    cases hnone.symm.trans (hfirst hy hend)
  · have hmem := (mem_of_firstAfter hx).1
    have hcached := h.cached hmem
    rw [wp_get]
    cases hfilter : (some x).filter
        fun x => (m.vma x).vmEnd = start ∧ (m.vma x).vmFlags = vmRead ||| vmWrite with
    | none =>
      refine wp_seq (hnew _ (fun hends => ?_) hcached ⟨rfl, rfl, rfl⟩ rfl)
      obtain ⟨y, hy, hend, hflags⟩ := hends
      cases hx.symm.trans (hfirst hy hend)
      rw [Option.filter_some, if_pos (decide_eq_true ⟨hend, hflags⟩)] at hfilter
      cases hfilter
    | some y =>
      obtain ⟨heq, hy⟩ := Option.filter_eq_some_iff.mp hfilter
      cases heq
      obtain ⟨hend, hflags⟩ := of_decide_eq_true hy
      obtain ⟨hok, hat⟩ := hcached.extend hmem hend haccess hfin hfree
      refine hQ _ hok (fun la => ?_) (grown_of_update (areas_setVma hmem) hflags fun u hu => ?_) rfl
      · rw [hat la, ← hflags]
        rfl
      · rw [areas_of_mem hmem] at hu
        exact Option.some.inj hu ▸ hflags

/-- The first loop of `mm_unmap` takes out the areas of a range. -/
theorem wp_takeVmas {fuel : ℕ} {mid : List ℕ} {Q : List ℕ → Mm → Prop} (h : MmOk loose m)
    (hlist : m.mmapList = pre ++ x :: mid ++ post)
    (hmid : ∀ y ∈ x :: mid, (m.vma y).vmStart < fin) (hpost : ∀ b ∈ post, fin ≤ (m.vma b).vmStart)
    (hfuel : mid.length + 2 ≤ fuel)
    (hQ : ∀ m', MmOk ((x :: mid).reverse ++ loose) m' → m'.mmapList = pre ++ post →
      m'.vma = m.vma → m'.mmCount = m.mmCount → Q ((x :: mid).reverse ++ loose) m') :
    (takeVmas fin fuel x loose).wp H E Q m := by
  induction mid generalizing m x loose fuel with
  | nil =>
    obtain ⟨fuel, rfl⟩ : ∃ n, fuel = n + 2 := ⟨fuel - 2, by omega⟩
    rw [takeVmas, wp_get]
    refine wp_if (fun _ => ?_) fun hnot => absurd (hmid x (.head _)) hnot
    rw [append_assoc, singleton_append] at hlist
    have hx := notMem_front (hlist ▸ h.nodup_list)
    refine wp_seq (wp_removeVmaStruct h hlist fun m₁ h₁ hlist₁ hvma₁ hcount₁ => ?_)
    have hdone := hQ m₁ h₁ hlist₁ hvma₁ hcount₁
    rw [hlist, nextOf_some hx]
    cases post with
    | nil => exact hdone
    | cons b post =>
      rw [List.head?_cons]
      dsimp only
      rw [takeVmas, wp_get]
      refine wp_if (fun hlt => ?_) fun _ => hdone
      have hle := hpost b (.head _)
      rw [hvma₁] at hlt
      omega
  | cons y mid ih =>
    rw [length_cons] at hfuel
    obtain ⟨fuel, rfl⟩ : ∃ n, fuel = n + 1 := ⟨fuel - 1, by omega⟩
    rw [takeVmas, wp_get]
    refine wp_if (fun _ => ?_) fun hnot => absurd (hmid x (.head _)) hnot
    have hlist' : m.mmapList = pre ++ x :: (y :: mid ++ post) := by
      rw [hlist, append_assoc, cons_append]
    have hx := notMem_front (hlist' ▸ h.nodup_list)
    refine wp_seq (wp_removeVmaStruct h hlist' fun m₁ h₁ hlist₁ hvma₁ hcount₁ => ?_)
    rw [hlist', nextOf_some hx, cons_append]
    refine ih h₁ (by rw [hlist₁, append_assoc]) ?_ ?_ ?_ ?_
    · rw [hvma₁]
      exact fun z hz => hmid z (.tail _ hz)
    · rw [hvma₁]
      exact hpost
    · omega
    · intro m' h' hlist'' hvma' hcount'
      have heq : (y :: mid).reverse ++ x :: loose = (x :: y :: mid).reverse ++ loose := by simp
      rw [heq] at h' ⊢
      exact hQ m' h' hlist'' (hvma'.trans hvma₁) (hcount'.trans hcount₁)

end Ucore.Vm
