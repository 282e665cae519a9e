import Ucore.Vm.Shares

/-!
# Unmapping

`mm_unmap` takes a range out of an address space: the areas lose the range, and the slots of
the pages that were in an area and in the range are cleared.
-/

namespace Ucore.Vm

open Kern Function List Option

variable {H : Prop} {s s' s₁ : Mem} {S : Spaces} {hand : Finset ℕ} {loose l : List ℕ}
  {d x y z la start fin : ℕ} {m m' m₁ : Mm} {v w : Vma}

/-- The block of an area that is not in the list is freed. -/
theorem MmOk.freed (h : MmOk (z :: loose) m) :
    MmOk loose { m with heap := { m.heap with live := m.heap.live.erase z } } := by
  refine { h with nodup := h.nodup.erase z, blocks := ?_ }
  have hperm : m.heap.live.Perm (z :: (m.mmapList ++ loose ++ m.treeBlocks)) := by
    refine h.blocks.trans ?_
    rw [append_assoc, append_assoc]
    exact perm_middle
  have herase := hperm.erase z
  rw [erase_cons_head] at herase
  exact herase

/-! ## Address spaces -/

section

variable {α : Type} {E : Err → Spaces → Prop} {Q : α → Spaces → Prop}

theorem wp_onMem {c : MemM α} : (onMem c).wp H E Q S ↔
    c.wp H (fun e s => E e (S.setMem s)) (fun a s => Q a (S.setMem s)) S.mem := wp_zoom

theorem wp_onMm {c : MmM α} : (onMm d c).wp H E Q S ↔
    c.wp H (fun e m => E e (S.setMm d m)) (fun a m => Q a (S.setMm d m)) (S.mm d) := wp_zoom

end

@[simp] theorem mem_setMem : (S.setMem s).mem = s := rfl

@[simp] theorem mm_setMem : (S.setMem s).mm = S.mm := rfl

@[simp] theorem mem_setMm : (S.setMm d m).mem = S.mem := rfl

@[simp] theorem mm_setMm_self : (S.setMm d m).mm d = m := update_self ..

theorem mm_setMm_of_ne {e : ℕ} (he : e ≠ d) : (S.setMm d m).mm e = S.mm e :=
  update_of_ne he ..

@[simp] theorem setMm_setMm {m' : Mm} : (S.setMm d m).setMm d m' = S.setMm d m' := by
  rw [Spaces.setMm, Spaces.setMm, Spaces.setMm]
  simp

@[simp] theorem setMem_setMem : (S.setMem s).setMem s' = S.setMem s' := rfl

theorem setMm_self : S.setMm d (S.mm d) = S := by
  rw [Spaces.setMm, update_eq_self]

theorem setMem_setMm : (S.setMem s).setMm d m = (S.setMm d m).setMem s := rfl

/-- The memory and one address space are given. -/
def Spaces.put (S : Spaces) (d : ℕ) (m : Mm) (s : Mem) : Spaces := (S.setMm d m).setMem s

/-- Nothing has changed. -/
theorem put_self : S.put d (S.mm d) S.mem = S := by
  rw [Spaces.put, setMm_self]
  rfl

theorem mm_put_self : (S.put d m s).mm d = m := mm_setMm_self

theorem mm_put_of_ne {e : ℕ} (he : e ≠ d) : (S.put d m s).mm e = S.mm e := mm_setMm_of_ne he

section

variable {α : Type} {E : Err → Spaces → Prop} {Q : α → Spaces → Prop}

theorem wp_onMem_put {c : MemM α} : (onMem c).wp H E Q (S.put d m s) ↔
    c.wp H (fun e s => E e (S.put d m s)) (fun a s => Q a (S.put d m s)) s := wp_zoom

theorem wp_onMm_put {c : MmM α} : (onMm d c).wp H E Q (S.put d m s) ↔
    c.wp H (fun e m => E e (S.put d m s)) (fun a m => Q a (S.put d m s)) m := by
  simp only [wp_onMm, Spaces.put, setMem_setMm, setMm_setMm, mm_setMem, mm_setMm_self]

end

variable {E : Err → Spaces → Prop} {Q : Unit → Spaces → Prop}

/-! ## Areas that lose a range -/

/-- What is left of an area, unless the range lies strictly inside of it. -/
def Vma.trim (v : Vma) (start fin : ℕ) : Option Vma :=
  if v.vmEnd ≤ start ∨ fin ≤ v.vmStart then some v
  else if v.vmStart < start then some { v.resized v.vmStart start with vmMm := true }
  else if fin < v.vmEnd then some { v.resized fin v.vmEnd with vmMm := true }
  else none

theorem trim_in {f : Flags} (hone : ¬(v.vmStart < start ∧ fin < v.vmEnd)) :
    (∃ w, v.trim start fin = some w ∧ w.In la ∧ w.vmFlags = f) ↔
      v.In la ∧ ¬(start ≤ la ∧ la < fin) ∧ v.vmFlags = f := by
  have hsome : ∀ a b : ℕ, ((a ≤ la ∧ la < b) ↔ v.In la ∧ ¬(start ≤ la ∧ la < fin)) →
      ((a ≤ la ∧ la < b) ∧ v.vmFlags = f ↔ v.In la ∧ ¬(start ≤ la ∧ la < fin) ∧ v.vmFlags = f) :=
    fun a b h => (and_congr_left' h).trans and_assoc
  rw [Vma.trim]
  split_ifs with hout hleft hright
  · simp only [Option.some.injEq, exists_eq_left']
    exact hsome v.vmStart v.vmEnd (by rw [Vma.In]; omega)
  · simp only [Option.some.injEq, exists_eq_left']
    exact hsome v.vmStart start (by rw [Vma.In]; omega)
  · simp only [Option.some.injEq, exists_eq_left']
    exact hsome fin v.vmEnd (by rw [Vma.In]; omega)
  · simp only [false_and, exists_false, false_iff, Vma.In]
    omega

/-- What is left is a part of the area. -/
theorem trim_part (h : v.trim start fin = some w) : v.vmStart ≤ w.vmStart ∧ w.vmEnd ≤ v.vmEnd ∧
    w.named = v.named ∧ (w.has vmShare = true → v.has vmShare = true ∧ v.CutTo w) := by
  rw [Vma.trim] at h
  split_ifs at h with hout hleft hright
  · cases h
    exact ⟨le_rfl, le_rfl, rfl, fun hshare => ⟨hshare, .refl v⟩⟩
  · cases h
    have hend : start ≤ v.vmEnd := by omega
    exact ⟨le_rfl, hend, rfl, fun hshare =>
      ⟨hshare, Vma.cutTo_resized le_rfl hend hshare⟩⟩
  · cases h
    have hstart : v.vmStart ≤ fin := by omega
    exact ⟨hstart, le_rfl, rfl, fun hshare =>
      ⟨hshare, Vma.cutTo_resized hstart le_rfl hshare⟩⟩

/-- The second loop of `mm_unmap` still has to trim these areas. -/
structure Trim (m : Mm) (start fin : ℕ) (l : List ℕ) : Prop where
  ok : ∀ y ∈ l, (m.vma y).Ok
  free : ∀ y ∈ l, m.Free (m.vma y).vmStart (m.vma y).vmEnd
  apart : ∀ x ∈ l, ∀ y ∈ l, x ≠ y → (m.vma x).vmEnd ≤ (m.vma y).vmStart ∨
    (m.vma y).vmEnd ≤ (m.vma x).vmStart
  meets : ∀ y ∈ l, ¬((m.vma y).vmEnd ≤ start ∨ fin ≤ (m.vma y).vmStart)
  one : ∀ y ∈ l, ¬((m.vma y).vmStart < start ∧ fin < (m.vma y).vmEnd)

/-- One area has been trimmed. -/
structure Cut (m m' : Mm) (s s' : Mem) (d start fin y : ℕ) : Prop where
  mmCount : m'.mmCount = m.mmCount
  areas : m'.areas = update m.areas y ((m.vma y).trim start fin)
  vma : ∀ x, x ≠ y → m'.vma x = m.vma x
  slots : Cleared s s' d fun la => (start ≤ la ∧ la < fin) ∧ (m.vma y).In la
  shared : (m.vma y).has vmShare = false → KeptShared s s'
  refs : ∀ names p, RefsOk names s → names p = (m.vma y).named →
    RefsOk (update names p (((m.vma y).trim start fin).bind Vma.named)) s'

/-- The rest of the loop. -/
theorem Trim.tail (h : Trim m start fin (y :: l)) (hcut : Cut m m' s s' d start fin y)
    (hyl : y ∉ l) : Trim m' start fin l := by
  have hne : ∀ x ∈ l, x ≠ y := fun x hx heq => hyl (heq ▸ hx)
  have hvma : ∀ x ∈ l, m'.vma x = m.vma x := fun x hx => hcut.vma x (hne x hx)
  refine ⟨fun x hx => ?_, fun x hx z v hz => ?_, fun x hx z hz hxz => ?_, fun x hx => ?_,
    fun x hx => ?_⟩
  · rw [hvma x hx]
    exact h.ok x (.tail _ hx)
  · rw [hvma x hx]
    rw [hcut.areas] at hz
    rcases eq_or_ne z y with rfl | hzy
    · rw [update_self] at hz
      obtain ⟨hstart, hend, -⟩ := trim_part hz
      exact (h.apart z mem_cons_self x (.tail _ hx) (hne x hx).symm).imp hend.trans hstart.trans'
    · rw [update_of_ne hzy] at hz
      exact h.free x (.tail _ hx) z v hz
  · rw [hvma x hx, hvma z hz]
    exact h.apart x (.tail _ hx) z (.tail _ hz) hxz
  · rw [hvma x hx]
    exact h.meets x (.tail _ hx)
  · rw [hvma x hx]
    exact h.one x (.tail _ hx)

section

variable (hmem : MemOk hand s) (hmm : MmOk (y :: l) m) (h : Trim m start fin (y :: l))
  (hQ : ∀ m' s', MemOk hand s' → MmOk l m' → Cut m m' s s' d start fin y → Q () (S.put d m' s'))
include hmem hmm h hQ

/-- A part of an area goes back into the list, and the rest is unmapped. -/
theorem wp_keepPart {a b u w : ℕ} (hpart : (m.vma y).Part a b) (hcut : (m.vma y).Part u w)
    (htrim : (m.vma y).trim start fin = some { (m.vma y).resized a b with vmMm := true })
    (hslots : ∀ la, u ≤ la ∧ la < w ↔ (start ≤ la ∧ la < fin) ∧ (m.vma y).In la) :
    (do
      onMm d (vmaResize y a b)
      onMm d (insertVmaStruct y)
      onMem (unmapRange d u w) : SpacesM Unit).wp H E Q (S.put d m s) := by
  have hok := h.ok y (.head _)
  have hareas := areas_setVma_of_notMem (g := (·.resized a b)) hmm.fresh.1
  rw [wp_bind, wp_onMm_put]
  refine wp_vmaResize hmm hpart fun hmm₁ => ?_
  rw [wp_bind, wp_onMm_put]
  refine wp_insertVmaStruct hmm₁ ?_ ?_ fun m' hmm' hareas' hvma' hcount' => ?_
  · rw [vma_setVma_self]
    exact hpart.ok hok
  · rw [vma_setVma_self, Mm.Free, hareas]
    exact fun x v hx => (h.free y (.head _) x v hx).imp hpart.start_le.trans' hpart.le_end.trans
  · rw [wp_onMem_put]
    refine wp_unmapRange hmem hcut.start_aligned hcut.end_aligned (hcut.ok hok).access
      fun s' hmem' hun => hQ m' s' hmem' hmm' ⟨hcount', ?_, fun x hx => ?_,
        hun.cleared'.congr hslots, fun _ => hun.keptShared, fun names p hrefs hp => ?_⟩
    · rw [hareas', hareas, vma_setVma_self, htrim]
    · rw [hvma', update_of_ne hx, vma_setVma_of_ne hx]
    · rw [htrim, bind_some, (trim_part htrim).2.2.1, ← hp, update_eq_self]
      exact hrefs.same hun.shmem

/-- An area is destroyed, and unmapped. -/
theorem wp_dropVma (hnull : ¬(m.vma y).HasShmem → ∀ S', E .nullAccess S')
    (htrim : (m.vma y).trim start fin = none)
    (hin : ∀ la, (m.vma y).In la → start ≤ la ∧ la < fin) :
    (do
      vmaDestroy d y
      onMem (unmapRange d (m.vma y).vmStart (m.vma y).vmEnd) : SpacesM Unit).wp
      H E Q (S.put d m s) := by
  have hok := h.ok y (.head _)
  rw [wp_bind, vmaDestroy, wp_get, mm_put_self, wp_bind, wp_onMem_put]
  refine wp_vmaPut d hmem (fun hno => hnull hno _) fun s₁ hmem₁ hclear₁ hkept₁ hput _ => ?_
  rw [wp_onMm_put, Mm.kfree, wp_zoom]
  refine wp_onMem_put.mpr ?_
  refine wp_unmapRange hmem₁ hok.start_aligned hok.end_aligned hok.access fun s' hmem' hun => ?_
  refine hQ _ s' hmem' hmm.freed ⟨rfl, ?_, fun _ _ => rfl,
    (hclear₁.trans hun.cleared').congr fun la => ?_,
    fun hprivate => (hkept₁ hprivate).trans hun.keptShared, fun names p hrefs hp => ?_⟩
  · rw [htrim, ← areas_of_notMem hmm.fresh.1, update_eq_self]
    rfl
  · rw [or_iff_right id]
    exact (and_iff_right_of_imp (hin la)).symm
  · rw [htrim]
    exact (hput names p hrefs hp).same hun.shmem

/-- One area of the second loop. -/
theorem wp_trimVma (hstart : start % pgSize = 0) (hfin : fin % pgSize = 0)
    (hnull : ¬(m.vma y).HasShmem → ∀ S', E .nullAccess S') :
    (trimVma d start fin y).wp H E Q (S.put d m s) := by
  have hok := h.ok y (.head _)
  have hmeets := h.meets y (.head _)
  have hone := h.one y (.head _)
  rw [trimVma, wp_get, mm_put_self]
  refine wp_if (fun hleft => ?_) fun hleft => wp_if (fun hright => ?_) fun hright => ?_
  · refine wp_keepPart hmem hmm h hQ ⟨le_rfl, hleft, by omega, hok.start_aligned, hstart⟩
      ⟨hleft.le, by omega, le_rfl, hstart, hok.end_aligned⟩ ?_ fun la => ?_
    · rw [Vma.trim, if_neg hmeets, if_pos hleft]
    · rw [Vma.In]
      omega
  · refine wp_keepPart hmem hmm h hQ ⟨by omega, hright, le_rfl, hfin, hok.end_aligned⟩
      ⟨le_rfl, by omega, hright.le, hok.start_aligned, hfin⟩ ?_ fun la => ?_
    · rw [Vma.trim, if_neg hmeets, if_neg hleft, if_pos hright]
    · rw [Vma.In]
      omega
  · refine wp_dropVma hmem hmm h hQ hnull ?_ fun la hla => ?_
    · rw [Vma.trim, if_neg hmeets, if_neg hleft, if_neg hright]
    · rw [Vma.In] at hla
      omega

end

/-! ## The second loop -/

/-- What the second loop does. -/
structure Trimmed (m m' : Mm) (s s' : Mem) (d start fin : ℕ) (l : List ℕ) : Prop where
  mmCount : m'.mmCount = m.mmCount
  areas : ∀ x, m'.areas x = if x ∈ l then (m.vma x).trim start fin else m.areas x
  slots : Cleared s s' d fun la => (start ≤ la ∧ la < fin) ∧ ∃ x ∈ l, (m.vma x).In la
  shared : (∀ x ∈ l, (m.vma x).has vmShare = false) → KeptShared s s'
  refs : Moves s s' d (fun x => if x ∈ l then (m.vma x).named else m.naming x) m'.naming

theorem trimmed_nil : Trimmed m m s s d start fin [] := by
  refine ⟨rfl, fun x => (if_neg not_mem_nil).symm, (Cleared.refl s d).congr fun la => by simp,
    fun _ => .refl s, ?_⟩
  exact moves_same fun _ h => h

theorem Cut.cons (h : Cut m m₁ s s₁ d start fin y) (h' : Trimmed m₁ m' s₁ s' d start fin l)
    (hyl : y ∉ l) : Trimmed m m' s s' d start fin (y :: l) := by
  have hvma : ∀ x ∈ l, m₁.vma x = m.vma x := fun x hx => h.vma x fun heq => hyl (heq ▸ hx)
  refine ⟨h'.mmCount.trans h.mmCount, fun x => ?_, (h.slots.trans h'.slots).congr fun la => ?_,
    fun hprivate => ?_, ?_⟩
  · rw [h'.areas x, h.areas]
    rcases eq_or_ne x y with rfl | hx
    · rw [if_neg hyl, update_self, if_pos (.head _)]
    · rw [update_of_ne hx]
      by_cases hxl : x ∈ l
      · rw [if_pos hxl, if_pos (.tail _ hxl), hvma x hxl]
      · rw [if_neg hxl, if_neg (mem_cons.not.mpr (not_or.mpr ⟨hx, hxl⟩))]
  · rw [exists_mem_cons_iff, and_or_left]
    refine or_congr_right (and_congr_right fun _ => exists_congr fun x => ?_)
    refine and_congr_right fun hx => ?_
    rw [hvma x hx]
  · refine (h.shared (hprivate y (.head _))).trans (h'.shared fun x hx => ?_)
    rw [hvma x hx]
    exact hprivate x (.tail _ hx)
  · refine (moves_update (y := y) fun names p hrefs hp => h.refs names p hrefs ?_).trans ?_
    · rw [hp, if_pos (.head _)]
    · have heq : update (fun x => if x ∈ y :: l then (m.vma x).named else m.naming x) y
          (((m.vma y).trim start fin).bind Vma.named) =
          fun x => if x ∈ l then (m₁.vma x).named else m₁.naming x := by
        funext x
        rw [naming_update h.areas]
        rcases eq_or_ne x y with rfl | hx
        · rw [update_self, if_neg hyl, update_self]
        · rw [update_of_ne hx, update_of_ne hx, h.vma x hx]
          refine if_congr ?_ rfl rfl
          rw [mem_cons]
          exact or_iff_right hx
      rw [heq]
      exact h'.refs

/-- The second loop of `mm_unmap`. -/
theorem wp_trimVmas (hmem : MemOk hand s) (hmm : MmOk l m)
    (h : Trim m start fin l) (hstart : start % pgSize = 0) (hfin : fin % pgSize = 0)
    (hnull : ∀ y ∈ l, ¬(m.vma y).HasShmem → ∀ S', E .nullAccess S')
    (hQ : ∀ m' s', MemOk hand s' → MmOk [] m' → Trimmed m m' s s' d start fin l →
      Q () (S.put d m' s')) :
    (trimVmas d start fin l).wp H E Q (S.put d m s) := by
  induction l generalizing m s with
  | nil => exact hQ m s hmem hmm trimmed_nil
  | cons y l ih =>
    have hyl := hmm.fresh.2.1
    rw [trimVmas, wp_bind]
    refine wp_trimVma hmem hmm h (fun m₁ s₁ hmem₁ hmm₁ hcut => ?_) hstart hfin (hnull y (.head _))
    refine ih hmem₁ hmm₁ (h.tail hcut hyl) (fun x hx => ?_) fun m' s' hmem' hmm' htrim =>
      hQ m' s' hmem' hmm' (hcut.cons htrim hyl)
    rw [hcut.vma x fun heq => hyl (heq ▸ hx)]
    exact hnull x (.tail _ hx)

/-! ## `mm_unmap` -/

/-- The range lies inside of an area and touches neither of its ends. -/
def Mm.Hole (m : Mm) (start fin : ℕ) : Prop :=
  ∃ x ∈ m.mmapList, (m.vma x).vmStart < start ∧ fin < (m.vma x).vmEnd

/-- The range is not empty and lies inside of a shared area, without one of its ends. -/
def Mm.SharedHole (m : Mm) (start fin : ℕ) : Prop := start < fin ∧
  ∃ x ∈ m.mmapList, (m.vma x).has vmShare = true ∧ (m.vma x).vmStart < start ∧ fin < (m.vma x).vmEnd

/-- A range has been taken out of an address space. -/
structure Removed (m m' : Mm) (s s' : Mem) (d start fin : ℕ) : Prop where
  mmCount : m'.mmCount = m.mmCount
  flags : ∀ la, m'.flagsAt la = if start ≤ la ∧ la < fin then none else m.flagsAt la
  slots : Cleared s s' d fun la => start ≤ la ∧ la < fin ∧ (m.flagsAt la).isSome
  shared : (∀ y ∈ m.mmapList, (m.vma y).has vmShare = false) → KeptShared s s'
  shrunk : ¬m.SharedHole start fin → Shrunk m m' s s' d

/-- A range without areas. -/
theorem removed_of_free (h : m.Free start fin) : Removed m m s s d start fin := by
  refine ⟨rfl, fun la => ?_, ?_, fun _ => .refl s, fun _ => .of_eq rfl fun _ h => h⟩
  · split_ifs with hin
    · exact h.flagsAt hin.1 hin.2
    · rfl
  · refine (Cleared.refl s d).congr fun la => ⟨fun hf => hf.elim, ?_⟩
    rintro ⟨hlo, hhi, hsome⟩
    rw [h.flagsAt hlo hhi] at hsome
    cases hsome

/-- An area is cut in two. -/
theorem wp_punchHole (hmem : MemOk hand s) (hmm : MmOk [] m) (hx : x ∈ m.mmapList)
    (hleft : (m.vma x).vmStart < start) (hright : fin < (m.vma x).vmEnd)
    (hstart : start % pgSize = 0) (hfin : fin % pgSize = 0) (hlt : start < fin)
    (hE : ∀ m', m.heap.Full → MmOk [] m' → SameAreas m m' → E .noMem (S.put d m' s))
    (hQ : ∀ m' s', MemOk hand s' → MmOk [] m' → Removed m m' s s' d start fin →
      Q () (S.put d m' s')) :
    (punchHole d x start fin).wp H E Q (S.put d m s) := by
  have hokx := hmm.ok x hx
  have hold := areas_of_mem hx
  have hhole : ¬m.SharedHole start fin → (m.vma x).has vmShare = false := fun hno =>
    Bool.eq_false_iff.mpr fun hshare => hno ⟨hlt, x, hx, hshare, hleft, hright⟩
  generalize hv : m.vma x = v at *
  rw [punchHole, wp_get, mm_put_self, hv]
  rw [wp_bind, wp_onMm_put]
  refine wp_vmaCreate hmm hE fun m₁ z linked hmm₁ hareas₁ hfresh hvma₁ hcount₁ => ?_
  have hzx : z ≠ x := by
    rintro rfl
    cases hold.symm.trans hfresh
  have hx₁ : x ∈ m₁.mmapList := (areas_eq_some.mp (hareas₁ ▸ hold)).1
  have hvma₁x : m₁.vma x = v := by rw [hvma₁, update_of_ne hzx.symm, hv]
  have hpart : (m₁.vma x).Part fin v.vmEnd := by
    rw [hvma₁x]
    exact ⟨(hleft.trans hlt).le, hright, le_rfl, hfin, hokx.end_aligned⟩
  rw [wp_bind, wp_onMm_put]
  refine wp_vmaResize hmm₁ hpart fun hmm₂ => ?_
  have hareas₂ : (m₁.setVma x (·.resized fin v.vmEnd)).areas =
      update m.areas x (some (v.resized fin v.vmEnd)) := by
    rw [areas_setVma hx₁, hareas₁, hvma₁x]
  have hz₂ : (m₁.setVma x (·.resized fin v.vmEnd)).vma z =
      ⟨v.vmStart, start, v.vmFlags, none, 0, linked⟩ := by
    rw [vma_setVma_of_ne hzx, hvma₁, update_self]
  have hcount₂ : (m₁.setVma x (·.resized fin v.vmEnd)).mmCount = m.mmCount := hcount₁
  rw [wp_bind, wp_onMm_put]
  generalize m₁.setVma x (·.resized fin v.vmEnd) = m₂ at *
  have hother : ∀ y, y ≠ x → m₂.areas y = m.areas y := fun y hy => by
    rw [hareas₂, update_of_ne hy]
  refine wp_insertVmaStruct hmm₂ ?_ (fun y u hu => ?_) fun m' hmm' hareas' _ hcount' => ?_
  · rw [hz₂]
    exact ⟨⟨hokx.access.1, hleft, (hlt.trans hright).le.trans hokx.access.2.2⟩,
      hokx.start_aligned, hstart⟩
  · rw [hz₂]
    rcases eq_or_ne y x with rfl | hy
    · rw [hareas₂, update_self] at hu
      cases hu
      exact .inr hlt.le
    · rw [hother y hy] at hu
      exact (hmm.apart hu hold hy).imp id (hlt.trans hright).le.trans
  · rw [hz₂] at hareas'
    have hnew : m'.areas z = some ⟨v.vmStart, start, v.vmFlags, none, 0, true⟩ := by
      rw [hareas', update_self]
    have hself : m'.areas x = some (v.resized fin v.vmEnd) := by
      rw [hareas', update_of_ne hzx.symm, hareas₂, update_self]
    have hkept : ∀ y, y ≠ z → y ≠ x → m'.areas y = m.areas y := fun y hyz hyx => by
      rw [hareas', update_of_ne hyz, hother y hyx]
    rw [wp_onMem_put]
    refine wp_unmapRange hmem hstart hfin
      ⟨hokx.access.1.trans hleft.le, hlt, hright.le.trans hokx.access.2.2⟩
      fun s' hmem' hun => hQ m' s' hmem' hmm' ⟨hcount'.trans hcount₂, fun la => ?_, ?_,
        fun _ => hun.keptShared, fun hno => .of_eq ?_ fun _ h => h.same hun.shmem⟩
    · split_ifs with hin
      · refine flagsAt_eq_none.mpr fun y w hy hyin => ?_
        obtain ⟨hlo, hhi⟩ := hyin
        by_cases hyz : y = z
        · rw [hyz, hnew] at hy
          cases hy
          exact absurd hhi (Nat.not_lt.mpr hin.1)
        · by_cases hyx : y = x
          · rw [hyx, hself] at hy
            cases hy
            exact absurd hlo (Nat.not_le.mpr hin.2)
          · rw [hkept y hyz hyx] at hy
            exact hyx (hmm.eq_of_in hy hold ⟨hlo, hhi⟩ ⟨by omega, by omega⟩)
      · by_cases hvin : v.In la
        · rw [hmm.flagsAt_of_in hold hvin]
          by_cases hlo : la < start
          · rw [hmm'.flagsAt_of_in hnew ⟨hvin.1, hlo⟩]
          · rw [hmm'.flagsAt_of_in hself ⟨by show fin ≤ la; omega, hvin.2⟩]
            rfl
        · rw [hmm₂.flagsAt_update hmm' hareas' (fun u hu => ?_) fun u hu hin => ?_,
            hmm.flagsAt_update hmm₂ hareas₂ (fun u hu => ?_) fun u hu hin => ?_]
          · exact Option.some.inj (hold.symm.trans hu) ▸ hvin
          · cases hu
            exact hvin ⟨(hleft.trans hlt).le.trans hin.1, hin.2⟩
          · rw [hother z hzx, hfresh] at hu
            cases hu
          · cases hu
            exact hvin ⟨hin.1, hin.2.trans (hlt.trans hright)⟩
    · refine hun.cleared'.congr fun la =>
        ⟨fun hin => ⟨hin.1, hin.2, ?_⟩, fun hin => ⟨hin.1, hin.2.1⟩⟩
      rw [hmm.flagsAt_of_in hold ⟨by omega, by omega⟩]
      rfl
    · -- neither of the two parts is shared
      have hprivate := hhole hno
      funext y
      by_cases hyz : y = z
      · rw [hyz, share_eq_none fun u hu => absurd (hfresh.symm.trans hu) (by simp),
          share_eq_none fun u hu => Option.some.inj (hnew.symm.trans hu) ▸ hprivate]
      · by_cases hyx : y = x
        · rw [hyx, share_eq_none fun u hu => Option.some.inj (hold.symm.trans hu) ▸ hprivate,
            share_eq_none fun u hu => Option.some.inj (hself.symm.trans hu) ▸ hprivate]
        · exact share_congr (hkept y hyz hyx)

/-- The areas that a range meets. -/
theorem MmOk.split_range (h : MmOk loose m) (hfirst : m.firstAfter start m.mmapList = some x)
    (hx : (m.vma x).vmStart < fin) : ∃ pre mid post, m.mmapList = pre ++ x :: mid ++ post ∧
      (∀ a ∈ pre, (m.vma a).vmEnd ≤ start) ∧
      (∀ y ∈ x :: mid, start < (m.vma y).vmEnd ∧ (m.vma y).vmStart < fin) ∧
      ∀ b ∈ post, fin ≤ (m.vma b).vmStart := by
  obtain ⟨hend, pre, rest, hsplit, hpre⟩ := List.find?_eq_some_iff_append.mp hfirst
  have hend : start < (m.vma x).vmEnd := by simpa using hend
  have hsorted := h.sorted
  rw [hsplit] at hsorted
  obtain ⟨hafter, -⟩ := pairwise_cons.mp (pairwise_append.mp hsorted).2.1
  refine ⟨pre, rest.takeWhile (fun y => (m.vma y).vmStart < fin),
    rest.dropWhile (fun y => (m.vma y).vmStart < fin), ?_, fun a ha => ?_, fun y hy => ?_,
    fun b hb => ?_⟩
  · rw [hsplit, append_assoc, cons_append, takeWhile_append_dropWhile]
  · have hle := hpre a ha
    simpa using hle
  · rcases mem_cons.mp hy with rfl | hy
    · exact ⟨hend, hx⟩
    · have hlt := mem_takeWhile_imp hy
      have hrest := (takeWhile_sublist _).subset hy
      have hbefore := hafter y hrest
      have hok := (h.ok y (hsplit ▸ mem_append_right _ (.tail _ hrest))).lt
      rw [Mm.Before] at hbefore
      exact ⟨by omega, by simpa using hlt⟩
  · have hsub : rest.Sublist m.mmapList := by
      rw [hsplit]
      exact (sublist_cons_self x rest).trans (sublist_append_right pre _)
    have hmono : rest.Pairwise fun a b =>
        decide ((m.vma b).vmStart < fin) = true → decide ((m.vma a).vmStart < fin) = true := by
      refine (h.ordered.sublist hsub).starts.imp fun {a b} hab => ?_
      simp only [decide_eq_true_eq]
      omega
    simpa using not_of_mem_dropWhile hmono hb

section

variable (h : MmOk [] m)
  (hl : ∀ x, x ∈ l ↔ ∃ v, m.areas x = some v ∧ ¬(v.vmEnd ≤ start ∨ fin ≤ v.vmStart))
  (hareas : ∀ x, m₁.areas x = if x ∈ l then none else m.areas x) (hvma : m₁.vma = m.vma)
  (hone : ∀ x v, m.areas x = some v → ¬(v.vmStart < start ∧ fin < v.vmEnd))

include h hl hareas hvma hone

/-- The second loop begins with the areas that the range meets. -/
theorem trim_of_meets : Trim m₁ start fin l := by
  have hmem : ∀ x ∈ l, m.areas x = some (m.vma x) ∧
      ¬((m.vma x).vmEnd ≤ start ∨ fin ≤ (m.vma x).vmStart) := by
    intro x hx
    obtain ⟨v, hv, hmeets⟩ := (hl x).mp hx
    obtain ⟨-, rfl⟩ := areas_eq_some.mp hv
    exact ⟨hv, hmeets⟩
  rw [← hvma] at hmem
  refine ⟨fun x hx => h.area_ok (hmem x hx).1, fun x hx y v hy => ?_,
    fun x hx y hy => h.apart (hmem x hx).1 (hmem y hy).1, fun x hx => (hmem x hx).2,
    fun x hx => hone x _ (hmem x hx).1⟩
  rw [hareas] at hy
  split_ifs at hy with hyl
  exact h.apart hy (hmem x hx).1 fun heq => hyl (heq ▸ hx)

/-- The second loop has removed the range. -/
theorem Trimmed.removed (htrim : Trimmed m₁ m' s s' d start fin l) (h' : MmOk [] m')
    (hcount : m₁.mmCount = m.mmCount) : Removed m m' s s' d start fin := by
  have hmem : ∀ {x v}, m.areas x = some v → m₁.vma x = v := by
    intro x v hx
    rw [hvma]
    exact (areas_eq_some.mp hx).2
  -- every area is trimmed, also one that the range does not meet
  have hall : ∀ x, m'.areas x = (m.areas x).bind (·.trim start fin) := by
    intro x
    rw [htrim.areas, hareas]
    split_ifs with hx
    · obtain ⟨v, hv, -⟩ := (hl x).mp hx
      rw [hv, hmem hv, bind_some]
    · cases hv : m.areas x with
      | none => rfl
      | some v =>
        rw [bind_some, Vma.trim, if_pos]
        exact not_not.mp fun hmeets => hx ((hl x).mpr ⟨v, hv, hmeets⟩)
  have hin : ∀ {la f}, m'.flagsAt la = some f ↔
      ¬(start ≤ la ∧ la < fin) ∧ m.flagsAt la = some f := by
    intro la f
    rw [h'.flagsAt_eq_some, h.flagsAt_eq_some]
    constructor
    · rintro ⟨x, w, hw, hwin, rfl⟩
      rw [hall, bind_eq_some_iff] at hw
      obtain ⟨v, hv, hw⟩ := hw
      obtain ⟨hvin, hout, hflags⟩ := (trim_in (hone x v hv)).mp ⟨w, hw, hwin, rfl⟩
      exact ⟨hout, x, v, hv, hvin, hflags⟩
    · rintro ⟨hout, x, v, hv, hvin, rfl⟩
      obtain ⟨w, hw, hwin⟩ := (trim_in (hone x v hv)).mpr ⟨hvin, hout, rfl⟩
      exact ⟨x, w, by rw [hall, hv]; exact hw, hwin⟩
  refine ⟨htrim.mmCount.trans hcount, fun la => ?_, htrim.slots.congr fun la => ?_,
    fun hprivate => htrim.shared fun x hx => ?_, fun _ => ⟨fun x w hw => ?_, ?_⟩⟩
  · ext f
    rw [hin]
    split_ifs with hout
    · simp [hout]
    · exact and_iff_right hout
  · rw [and_assoc]
    refine and_congr_right fun hlo => and_congr_right fun hhi => ?_
    rw [isSome_iff_exists]
    constructor
    · rintro ⟨x, hx, hxin⟩
      obtain ⟨v, hv, -⟩ := (hl x).mp hx
      rw [hmem hv] at hxin
      exact ⟨_, h.flagsAt_of_in hv hxin⟩
    · rintro ⟨f, hf⟩
      obtain ⟨x, v, hv, hxin, -⟩ := h.flagsAt_eq_some.mp hf
      obtain ⟨hxlo, hxhi⟩ := hxin
      exact ⟨x, (hl x).mpr ⟨v, hv, by omega⟩, by rw [hmem hv]; exact ⟨hxlo, hxhi⟩⟩
  · obtain ⟨v, hv, -⟩ := (hl x).mp hx
    rw [hvma]
    exact hprivate x (areas_eq_some.mp hv).1
  · obtain ⟨hw, hshare⟩ := share_eq_some.mp hw
    rw [hall, bind_eq_some_iff] at hw
    obtain ⟨v, hv, hw⟩ := hw
    obtain ⟨hshare, hcut⟩ := (trim_part hw).2.2.2 hshare
    exact ⟨v, share_eq_some.mpr ⟨hv, hshare⟩, hcut⟩
  · have heq : (fun x => if x ∈ l then (m₁.vma x).named else m₁.naming x) = m.naming := by
      funext x
      rw [naming_eq, naming_eq, hareas]
      split_ifs with hx
      · obtain ⟨v, hv, -⟩ := (hl x).mp hx
        rw [hv, hmem hv, bind_some]
      · rfl
    have hrefs := htrim.refs
    rw [heq] at hrefs
    exact hrefs

end

/-- `mm_unmap` from the first area that ends after the start of the range. -/
theorem wp_unmapFrom (hmem : MemOk hand s) (hmm : MmOk [] m)
    (hfirst : m.firstAfter start m.mmapList = some x)
    (hstart : start % pgSize = 0) (hfin : fin % pgSize = 0) (hlt : start < fin)
    (hnull : ∀ y v, m.areas y = some v → ¬(v.vmEnd ≤ start ∨ fin ≤ v.vmStart) →
      ¬v.HasShmem → ∀ S', E .nullAccess S')
    (hE : ∀ m', m.heap.Full → m.Hole start fin → MmOk [] m' → SameAreas m m' →
      E .noMem (S.put d m' s))
    (hQ : ∀ m' s', MemOk hand s' → MmOk [] m' → Removed m m' s s' d start fin →
      Q () (S.put d m' s')) :
    (unmapFrom d start fin x).wp H E Q (S.put d m s) := by
  obtain ⟨hx, hend⟩ := mem_of_firstAfter hfirst
  rw [unmapFrom, wp_get, mm_put_self]
  refine wp_if (fun hfree => ?_) fun hmeets => ?_
  · refine hQ m s hmem hmm (removed_of_free (hmm.free fun y hy => ?_))
    rw [← Option.some.inj (hfirst.symm.trans hy)]
    exact hfree
  · rw [wp_ite]
    constructor
    · rintro ⟨hleft, hright⟩
      exact wp_punchHole hmem hmm hx hleft hright hstart hfin hlt
        (fun m' hfull => hE m' hfull ⟨x, hx, hleft, hright⟩) hQ
    · intro hone
      obtain ⟨pre, mid, post, hlist, hpre, hmid, hpost⟩ :=
        hmm.split_range hfirst (Nat.lt_of_not_le hmeets)
      rw [wp_bind, wp_onMm_put]
      refine wp_takeVmas hmm hlist (fun y hy => (hmid y hy).2) hpost ?_
        fun m₁ hmm₁ hlist₁ hvma₁ hcount₁ => ?_
      · rw [Mm.turns, hlist, length_append, length_append, length_cons]
        omega
      rw [append_nil] at hmm₁ ⊢
      have hl : ∀ y, y ∈ (x :: mid).reverse ↔ ∃ v, m.areas y = some v ∧
          ¬(v.vmEnd ≤ start ∨ fin ≤ v.vmStart) := by
        intro y
        rw [mem_reverse]
        constructor
        · intro hy
          have hyin := hmid y hy
          refine ⟨_, areas_of_mem ?_, by omega⟩
          rw [hlist]
          exact mem_append_left _ (mem_append_right _ hy)
        · rintro ⟨v, hv, hmeets⟩
          obtain ⟨hy, rfl⟩ := areas_eq_some.mp hv
          rw [hlist] at hy
          rcases mem_append.mp hy with hy | hy
          · rcases mem_append.mp hy with hy | hy
            · exact absurd (.inl (hpre y hy)) hmeets
            · exact hy
          · exact absurd (.inr (hpost y hy)) hmeets
      have hareas₁ : ∀ y, m₁.areas y =
          if y ∈ (x :: mid).reverse then none else m.areas y := by
        intro y
        by_cases hy : y ∈ x :: mid
        · have hyin := hmid y hy
          rw [if_pos (mem_reverse.mpr hy), areas_of_notMem]
          rw [hlist₁, mem_append]
          rintro (hmem | hmem)
          · have := hpre y hmem
            omega
          · have := hpost y hmem
            omega
        · rw [if_neg (mem_reverse.not.mpr hy), Mm.areas, Mm.areas, hlist₁, hvma₁, hlist]
          refine if_congr ?_ rfl rfl
          rw [append_assoc, mem_append, mem_append, mem_append, or_iff_right hy]
      -- an area with the range strictly inside would overlap the first one
      have hone : ∀ y v, m.areas y = some v → ¬(v.vmStart < start ∧ fin < v.vmEnd) := by
        intro y v hy
        by_cases hyx : y = x
        · obtain ⟨-, rfl⟩ := areas_eq_some.mp hy
          rw [hyx]
          exact hone
        · have hapart := hmm.apart hy (areas_of_mem hx) hyx
          omega
      refine wp_trimVmas hmem hmm₁ (trim_of_meets hmm hl hareas₁ hvma₁ hone) hstart hfin
        (fun y hy => ?_) fun m' s' hmem' hmm' htrimmed =>
          hQ m' s' hmem' hmm' (htrimmed.removed hmm hl hareas₁ hvma₁ hone hmm' hcount₁)
      obtain ⟨v, hv, hmeets⟩ := (hl y).mp hy
      rw [hvma₁, (areas_eq_some.mp hv).2]
      exact hnull y v hv hmeets

/-- `mm_unmap`. -/
theorem wp_mmUnmap {addr len : ℕ} (hmem : MemOk hand S.mem) (hmm : MmOk [] (S.mm d))
    (hnull : ∀ y v, (S.mm d).areas y = some v →
      ¬(v.vmEnd ≤ roundDown addr pgSize ∨ reqEnd addr len ≤ v.vmStart) → ¬v.HasShmem →
      ∀ S', E .nullAccess S')
    (hE : ∀ m' e, MmOk [] m' → SameAreas (S.mm d) m' →
      e = .inval ∧ ¬UserAccess (roundDown addr pgSize) (reqEnd addr len) ∨
        e = .noMem ∧ (S.mm d).heap.Full ∧ (S.mm d).Hole (roundDown addr pgSize) (reqEnd addr len) →
      E e (S.setMm d m'))
    (hQ : ∀ m' s', MemOk hand s' → MmOk [] m' →
      UserAccess (roundDown addr pgSize) (reqEnd addr len) →
      Removed (S.mm d) m' S.mem s' d (roundDown addr pgSize) (reqEnd addr len) →
      Q () (S.put d m' s')) :
    (mmUnmap d addr len).wp H E Q S := by
  rw [mmUnmap]
  refine wp_if (fun haccess => ?_) fun haccess => ?_
  · have hdone := hE (S.mm d) .inval hmm .refl (.inl ⟨rfl, haccess⟩)
    rw [setMm_self] at hdone
    exact hdone
  · rw [not_not] at haccess
    rw [wp_bind, wp_onMm]
    refine wp_findVma hmm (fun hnone => ?_) fun x hx => ?_
    · refine hQ (S.mm d) S.mem hmem hmm haccess (removed_of_free (hmm.free fun y hy => ?_))
      cases hnone.symm.trans hy
    · -- the cache does not matter for the areas
      have hstart := roundDown_mod addr
      have hfin := reqEnd_mod addr len
      generalize roundDown addr pgSize = start at *
      generalize reqEnd addr len = fin at *
      refine wp_unmapFrom (s := S.mem) hmem (hmm.cached (mem_of_firstAfter hx).1) hx hstart hfin
        haccess.lt hnull (fun m' hfull hhole hmm' hsame => ?_) fun m' s' hmem' hmm' hremoved => ?_
      · exact hE m' .noMem hmm' { hsame with } (.inr ⟨rfl, hfull, hhole⟩)
      · exact hQ m' s' hmem' hmm' haccess { hremoved with
          shrunk := fun h => ⟨(hremoved.shrunk h).share, (hremoved.shrunk h).refs⟩ }

/-- The addresses of one page have the same flags. -/
theorem MmOk.flagsAt_page {la' : ℕ} (h : MmOk loose m) (hpage : la / pgSize = la' / pgSize) :
    m.flagsAt la = m.flagsAt la' := by
  ext f
  rw [h.flagsAt_eq_some, h.flagsAt_eq_some]
  refine exists_congr fun x => exists_congr fun v => and_congr_right fun hx => and_congr_left' ?_
  have hstart := (h.area_ok hx).start_aligned
  have hend := (h.area_ok hx).end_aligned
  rw [Vma.In, Vma.In]
  rw [pgSize_eq] at hstart hend hpage
  omega

/-- `mm_unmap` on private areas. If it succeeds, the address space has lost exactly the range,
and so have its page tables where there was an area; if there is no memory, nothing has
changed. -/
theorem mm_unmap_removes {addr len : ℕ} (hmem : MemOk hand S.mem) (hmm : MmOk [] (S.mm d))
    (hprivate : ∀ x ∈ (S.mm d).mmapList, ((S.mm d).vma x).has vmShare = false)
    (haccess : UserAccess (roundDown addr pgSize) (reqEnd addr len)) :
    (∃ S', mmUnmap d addr len S = .done () S' ∧ (∀ la, (S'.mm d).flagsAt la =
        if roundDown addr pgSize ≤ la ∧ la < reqEnd addr len then none
        else (S.mm d).flagsAt la) ∧
      (∀ la, la < 2 ^ 32 → S'.mem.entry (slot d la) =
        if roundDown addr pgSize ≤ la ∧ la < reqEnd addr len ∧ ((S.mm d).flagsAt la).isSome
        then .none else S.mem.entry (slot d la)) ∧
      (∀ x, (∀ la, la < 2 ^ 32 → x ≠ slot d la) → S'.mem.entry x = S.mem.entry x) ∧
      ∀ e, e ≠ d → S'.mm e = S.mm e) ∨
    ∃ S', mmUnmap d addr len S = .fail .noMem S' ∧ (S'.mm d).flagsAt = (S.mm d).flagsAt ∧
      S'.mem = S.mem ∧ ∀ e, e ≠ d → S'.mm e = S.mm e := by
  have hbound := haccess.bound
  have hwp : (mmUnmap d addr len).wp False
      (fun e S' => e = .noMem ∧ (S'.mm d).flagsAt = (S.mm d).flagsAt ∧ S'.mem = S.mem ∧
        ∀ e, e ≠ d → S'.mm e = S.mm e)
      (fun _ S' => Removed (S.mm d) (S'.mm d) S.mem S'.mem d (roundDown addr pgSize)
        (reqEnd addr len) ∧ ∀ e, e ≠ d → S'.mm e = S.mm e) S := by
    refine wp_mmUnmap hmem hmm (fun x v hx _ hno => absurd (fun hshare => ?_) hno)
      (fun m' e hmm' hsame he => ⟨?_, ?_, rfl, fun e => mm_setMm_of_ne⟩)
      fun m' s' _ _ _ hremoved => ⟨?_, fun e => mm_setMm_of_ne⟩
    · obtain ⟨hmem, rfl⟩ := areas_eq_some.mp hx
      exact absurd (hprivate x hmem) (by simp [hshare])
    · exact (he.resolve_left fun hinval => hinval.2 haccess).1
    · rw [mm_setMm_self]
      exact flagsAt_congr hsame.areas hmm hmm'
    · rw [mm_put_self]
      exact hremoved
  rcases hwp.returns with ⟨_, S', hcall, hremoved, hother⟩ |
    ⟨_, S', hcall, rfl, hflags, hmem', hother⟩
  · refine .inl ⟨S', hcall, hremoved.flags, fun la hla => ?_, fun x hx => ?_, hother⟩
    · split_ifs with hin
      · exact hremoved.slots.cleared la hin
      · -- the range consists of whole pages, so no other page has lost its slot
        refine hremoved.slots.kept _ _ _ fun la' hin' heq => hin ?_
        obtain ⟨hlo', hhi', hsome'⟩ := hin'
        have hpage := (page_eq_of_slot hla (by omega) heq).2
        rw [hmm.flagsAt_page hpage]
        have hstart := roundDown_mod addr
        have hfin := reqEnd_mod addr len
        generalize roundDown addr pgSize = start at *
        generalize reqEnd addr len = fin at *
        rw [pgSize_eq] at hpage hstart hfin
        exact ⟨by omega, by omega, hsome'⟩
    · obtain ⟨o, j⟩ := x
      cases o with
      | dir e i => exact hremoved.slots.kept e i j fun la hin => hx la (by omega)
      | shmn m start => exact (hremoved.shared hprivate).entry m start j
  · exact .inr ⟨S', hcall, hflags, hmem', hother⟩

/-- No page is used, and there are some. -/
def emptyMem : Mem where
  heap := ⟨some, 0, []⟩
  ref := fun _ => 0
  io := fun _ => false
  data := fun _ _ => 0
  table := fun _ _ => .none
  pgdir := fun _ _ => none
  kheap := ⟨some, 0, []⟩
  shmem := fun _ => ⟨[], none, 0, 0⟩

theorem fresh_emptyMem : emptyMem.Fresh :=
  ⟨rfl, fun _ => rfl, fun _ => rfl, fun _ _ => rfl, fun _ => ⟨rfl, rfl⟩⟩

/-- An address space with one area of two pages. -/
def oneArea : Mm where
  vma := fun _ => ⟨0x30000000, 0x30002000, vmRead, none, 0, true⟩
  rbLink := fun _ => ⟨false, 0, 0, 0⟩
  mmapList := [7]
  mmapTree := none
  mmapCache := none
  mapCount := 1
  mmCount := 1
  heap := ⟨fun _ => none, 0, [7]⟩

theorem mmOk_oneArea : MmOk [] oneArea where
  ok _ _ := by
    show Vma.Ok ⟨0x30000000, 0x30002000, vmRead, none, 0, true⟩
    exact ⟨by decide, by decide, by decide⟩
  sorted := pairwise_singleton _ _
  count := rfl
  nodup := nodup_singleton _
  blocks := List.Perm.refl _
  linked _ _ := rfl
  cache _ hx := absurd hx (by simp [oneArea])
  tree _ hp := absurd hp (by simp [oneArea])

/-- Memory with a page at the start of the area. -/
def pageMem : Mem :=
  (pgdirAllocPage 0 0x30000000 ⟨true, false⟩ emptyMem).after.get rfl

theorem memOk_pageMem : MemOk ∅ pageMem :=
  wp.of_after (H := True) (wp_pgdirAllocPage fresh_emptyMem.memOk (fun _ h _ _ => h)
    fun _ _ h _ _ => h) (Option.some_get _).symm

/-- The first of the two pages is unmapped. -/
theorem mm_unmap_removes_page : (pageMem.entry (slot 0 0x30000000)).frame? = some 0 ∧
    ∃ S', mmUnmap 0 0x30000000 0x1000 ⟨pageMem, fun _ => oneArea⟩ = .done () S' ∧
      (S'.mm 0).flagsAt 0x30000000 = none ∧ (S'.mm 0).flagsAt 0x30001000 = some vmRead ∧
      S'.mem.entry (slot 0 0x30000000) = .none := by
  have haccess : UserAccess (roundDown 0x30000000 pgSize) (reqEnd 0x30000000 0x1000) := by decide
  have hreturns : ∃ S', mmUnmap 0 0x30000000 0x1000 ⟨pageMem, fun _ => oneArea⟩ = .done () S' :=
    ⟨_, rfl⟩
  refine ⟨rfl, ?_⟩
  rcases mm_unmap_removes (S := ⟨pageMem, fun _ => oneArea⟩) (d := 0) memOk_pageMem mmOk_oneArea
    (by decide) haccess with ⟨S', hcall, hflags, hentry, -⟩ | ⟨S', hcall, -⟩
  · refine ⟨S', hcall, ?_, ?_, ?_⟩
    · rw [hflags]
      decide
    · rw [hflags]
      decide
    · rw [hentry _ (by decide)]
      exact if_pos (by decide)
  · obtain ⟨S₁, hdone⟩ := hreturns
    cases hdone.symm.trans hcall

end Ucore.Vm
