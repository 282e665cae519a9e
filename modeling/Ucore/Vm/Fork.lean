import Ucore.Vm.Unmap

/-!
# Copying an address space

`dup_mmap` gives the child an area for each area of the parent, from the last to the first, a
reference to the shared memory of each shared area, and the pages of the parent: shared pages
as they are, private ones without the right to write, which the parent loses too.
-/

namespace Ucore.Vm

open Kern Function List

variable {H : Prop} {s s' s₁ : Mem} {hand : Finset ℕ} {dst src x z la : ℕ} {l : List ℕ}
  {P P' : ℕ → Prop} {share : ℕ → Bool}

/-! ## Pages -/

/-- The pages of some addresses of the parent were copied, and no other slot has changed. -/
structure Duped (s s' : Mem) (dst src : ℕ) (share : ℕ → Bool) (P : ℕ → Prop) : Prop where
  parent : ∀ la, P la → s'.entry (slot src la) = (s.entry (slot src la)).protected (share la)
  kept : ∀ x, (∀ la, P la → x ≠ slot dst la ∧ x ≠ slot src la) → s'.entry x = s.entry x
  len : ∀ m, (s'.shmem m).len = (s.shmem m).len

theorem Duped.trans (h : Duped s s₁ dst src share P) (h' : Duped s₁ s' dst src share P')
    (hne : dst ≠ src) (hdisj : ∀ e la la', P la → P' la' → slot e la ≠ slot e la') :
    Duped s s' dst src share fun la => P la ∨ P' la := by
  refine ⟨fun la hla => ?_, fun x hx => ?_, fun m => (h'.len m).trans (h.len m)⟩
  · -- a slot of the first part is none of the second
    rcases hla with hla | hla
    · rw [h'.kept _ fun la' hla' => ⟨slot_ne hne.symm, hdisj src la la' hla hla'⟩, h.parent la hla]
    · rw [h'.parent la hla,
        h.kept _ fun la' hla' => ⟨slot_ne hne.symm, (hdisj src la' la hla' hla).symm⟩]
  · rw [h'.kept x fun la hla => hx la (.inr hla), h.kept x fun la hla => hx la (.inl hla)]

theorem Duped.refl (s : Mem) : Duped s s dst src share fun _ => False :=
  ⟨fun _ h => h.elim, fun _ _ => rfl, fun _ => rfl⟩

theorem Copied.duped {start fin : ℕ} {b : Bool} (h : Copied s s' dst src b start fin)
    (hshare : ∀ la, start ≤ la → la < fin → share la = b) :
    Duped s s' dst src share fun la => start ≤ la ∧ la < fin := by
  refine ⟨fun la hla => ?_, fun x hx => ?_, fun m => by rw [h.shmem]⟩
  · rw [h.parent la hla.1 hla.2, hshare la hla.1 hla.2]
  · exact h.kept x fun la hlo hhi => hx la ⟨hlo, hhi⟩

/-! ## Areas -/

/-- Whether the area of an address is shared. -/
def Mm.sharedAt (m : Mm) (la : ℕ) : Bool := (m.flagsAt la).any fun f => f &&& vmShare != 0

/-- What the child has gained from some areas `l` of the parent `n`, and the pages of the
addresses `P` in them. -/
structure Gained (m m' : Mm) (s s' : Mem) (dst src : ℕ) (n : Mm) (l : List ℕ) (P : ℕ → Prop) :
    Prop where
  slots : Duped s s' dst src n.sharedAt P
  inside : ∀ la, P la → ∃ x ∈ l, (n.vma x).In la
  old : ∀ la, (m.flagsAt la).isSome → (m'.flagsAt la).isSome
  new : ∀ la, P la → (m'.flagsAt la).isSome
  mmCount : m'.mmCount = m.mmCount
  share : ∀ y v, m'.share y = some v →
    m.share y = some v ∨ ∃ x ∈ l, (n.vma x).has vmShare = true ∧ (n.vma x).CutTo v
  refs : (∀ x ∈ l, ∀ i, (n.vma x).named = some i → (s.shmem i).len ≠ 0) →
    Moves s s' dst m.naming m'.naming

section

variable {m m₁ m' n : Mm} {l' : List ℕ}

theorem Gained.of_same (hareas : m'.areas = m.areas) (hcount : m'.mmCount = m.mmCount) :
    Gained m m' s s dst src n l fun _ => False := by
  have hshare : m'.share = m.share := funext fun y => share_congr (congrFun hareas y)
  refine ⟨.refl s, fun _ h => h.elim, fun la hla => ?_, fun _ h => h.elim, hcount,
    fun y v hv => .inl (by rw [← hshare]; exact hv),
    fun _ => (Shrunk.of_eq hshare fun _ h => h).refs⟩
  rw [flagsAt_isSome] at hla ⊢
  rw [hareas]
  exact hla

theorem Gained.mono (h : Gained m m' s s' dst src n l P) (hl : ∀ x ∈ l, x ∈ l') :
    Gained m m' s s' dst src n l' P := by
  refine ⟨h.slots, fun la hla => ?_, h.old, h.new, h.mmCount, fun y v hv =>
    (h.share y v hv).imp_right ?_, fun halive => h.refs fun x hx => halive x (hl x hx)⟩
  · obtain ⟨x, hx, hin⟩ := h.inside la hla
    exact ⟨x, hl x hx, hin⟩
  · rintro ⟨x, hx, hcut⟩
    exact ⟨x, hl x hx, hcut⟩

theorem Gained.trans (h : Gained m m₁ s s₁ dst src n l P) (h' : Gained m₁ m' s₁ s' dst src n l P')
    (hne : dst ≠ src) (hdisj : ∀ e la la', P la → P' la' → slot e la ≠ slot e la') :
    Gained m m' s s' dst src n l fun la => P la ∨ P' la := by
  refine ⟨h.slots.trans h'.slots hne hdisj, fun la hla => hla.elim (h.inside la) (h'.inside la),
    fun la hla => h'.old la (h.old la hla), fun la hla => ?_, h'.mmCount.trans h.mmCount,
    fun y v hv => (h'.share y v hv).elim (h.share y v) .inr, fun halive => ?_⟩
  · exact hla.elim (fun hla => h'.old la (h.new la hla)) (h'.new la)
  · refine (h.refs halive).trans (h'.refs fun x hx i hi => ?_)
    rw [h.slots.len]
    exact halive x hx i hi

/-- An area takes a reference to a shared memory, if it is shared. -/
structure Referred (s s' : Mem) (v : Vma) : Prop where
  entry : s'.entry = s.entry
  len : ∀ m, (s'.shmem m).len = (s.shmem m).len
  refs : ∀ names p, RefsOk names s → names p = none →
    (∀ i, v.named = some i → (s.shmem i).len ≠ 0) → RefsOk (update names p v.named) s'

theorem referred_refl {v : Vma} (hprivate : v.has vmShare = false) : Referred s s v := by
  refine ⟨rfl, fun _ => rfl, fun names p hrefs hp _ => ?_⟩
  have hnamed : v.named = none := by
    rw [Vma.named, hprivate]
    rfl
  rw [hnamed, ← hp, update_eq_self]
  exact hrefs

theorem referred_withRef {v : Vma} {i : ℕ} (hshare : v.has vmShare = true)
    (hshmem : v.shmem = some i) : Referred s (s.withRef i ((s.shmem i).ref + 1)) v := by
  have hnamed : v.named = some i := by
    rw [Vma.named, if_pos hshare, hshmem]
  refine ⟨entry_withRef, fun m => (shmem_withRef m).2.2, fun names p hrefs hp halive => ?_⟩
  rw [hnamed]
  refine hrefs.take hp (fun m' => shmem_withRef_of_ne) ?_ ?_
  · rw [(shmem_withRef i).2.2]
    exact halive i hnamed
  · rw [shmem_withRef_self]

end

variable {S : Spaces} {m n : Mm} {E : Err → Spaces → Prop} {Q : Unit → Spaces → Prop}

/-- The new area of the child refers to the shared memory of the area of the parent. -/
theorem wp_dupShmem {old : Vma} (hmem : MemOk hand s) (hmm : MmOk [z] m)
    (hnull : ∀ S', E .nullAccess S')
    (hQ : ∀ m' s' shmem off, MemOk hand s' → MmOk [z] m' →
      m'.areas = m.areas → m'.mmCount = m.mmCount →
      m'.vma z = { m.vma z with shmem := shmem, shmemOff := off } →
      (old.has vmShare = true → shmem = old.shmem ∧ off = old.shmemOff) →
      Referred s s' old → Q () (S.put dst m' s')) :
    (dupShmem dst z old).wp H E Q (S.put dst m s) := by
  have hz := hmm.fresh.1
  rw [dupShmem]
  refine wp_if (fun hshare => ?_) fun hshare => ?_
  · cases hshmem : old.shmem with
    | none => exact hnull _
    | some i =>
      rw [wp_bind, wp_onMm_put, wp_modify, wp_onMem_put]
      refine hQ _ (s.withRef i ((s.shmem i).ref + 1)) (some i) old.shmemOff
        (hmem.withRef i _) (hmm.setVma (fun hx => absurd hx hz) (fun hx => absurd hx hz) ?_)
        (areas_setVma_of_notMem hz) rfl vma_setVma_self (fun _ => ⟨hshmem.symm, rfl⟩)
        (referred_withRef hshare hshmem)
      exact pairwise_setVma hmm.sorted (fun hx => absurd hx hz) fun hx => absurd hx hz
  · exact hQ m s (m.vma z).shmem (m.vma z).shmemOff hmem hmm
      rfl rfl rfl (fun hshare' => absurd hshare' hshare) (referred_refl (by simpa using hshare))

section

variable (hmem : MemOk hand s) (hmm : MmOk [] m) (hn : S.mm src = n) (hne : dst ≠ src)
include hmem hmm hn hne

/-- One area of the parent. -/
theorem wp_dupVma (hok : (n.vma x).Ok) (hfree : m.Free (n.vma x).vmStart (n.vma x).vmEnd)
    (hempty : ∀ la, (n.vma x).In la → s.entry (slot dst la) = .none)
    (hshare : ∀ la, (n.vma x).In la → n.sharedAt la = (n.vma x).has vmShare)
    (hnull : ∀ S', E .nullAccess S')
    (hE : ∀ m' s' P, MemOk hand s' → MmOk [] m' → Gained m m' s s' dst src n [x] P →
      E .noMem (S.put dst m' s'))
    (hQ : ∀ m' s' z v, MemOk hand s' → MmOk [] m' → m.areas z = none →
      m'.areas = update m.areas z (some v) →
      v.vmStart = (n.vma x).vmStart →
      Gained m m' s s' dst src n [x] (n.vma x).In →
      Q () (S.put dst m' s')) : (dupVma dst src x).wp H E Q (S.put dst m s) := by
  generalize hold : n.vma x = old at *
  rw [dupVma, wp_get, mm_put_of_ne hne.symm, hn, hold]
  rw [wp_bind, wp_onMm_put]
  refine wp_vmaCreate hmm (fun m' _ hmm' hsame => ?_)
    fun m₁ z linked hmm₁ hareas₁ hfresh hvma₁ hcount₁ => ?_
  · exact hE m' s _ hmem hmm' (.of_same hsame.areas hsame.mmCount)
  refine wp_seq (wp_dupShmem hmem hmm₁ hnull
    fun m₂ s₂ shmem off hmem₂ hmm₂ hareas₂ hcount₂ hvma₂ hoff hreferred => ?_)
  have hself₂ : m₂.vma z = ⟨old.vmStart, old.vmEnd, old.vmFlags, shmem, off, linked⟩ := by
    rw [hvma₂, hvma₁, update_self]
  rw [wp_bind, wp_onMm_put]
  refine wp_insertVmaStruct hmm₂ ?_ ?_ fun m' hmm' hareas' _ hcount' => ?_
  · rw [hself₂]
    exact { hok with }
  · rw [hself₂, Mm.Free, hareas₂, hareas₁]
    exact hfree
  rw [hself₂, hareas₂, hareas₁] at hareas'
  have hcount : m'.mmCount = m.mmCount := (hcount'.trans hcount₂).trans hcount₁
  have hself : m'.areas z = some ⟨old.vmStart, old.vmEnd, old.vmFlags, shmem, off, true⟩ := by
    rw [hareas', update_self]
  -- the area of the child is there, whether or not all of its pages are
  have hgained : ∀ s' mid, mid ≤ old.vmEnd →
      Copied s₂ s' dst src (old.has vmShare) old.vmStart mid →
      Gained m m' s s' dst src n [x] fun la => old.vmStart ≤ la ∧ la < mid := by
    intro s' mid hhi hcopied
    have hduped : Duped s₂ s' dst src n.sharedAt fun la => old.vmStart ≤ la ∧ la < mid :=
      hcopied.duped fun la hge hlt => hshare la ⟨hge, hlt.trans_le hhi⟩
    refine ⟨⟨fun la hla => ?_, fun y hy => ?_, fun m => (hduped.len m).trans (hreferred.len m)⟩,
      fun la hla => ⟨x, mem_singleton_self x, hold ▸ ⟨hla.1, hla.2.trans_le hhi⟩⟩,
      fun la => flagsAt_grows hareas' hfresh,
      fun la hla => flagsAt_isSome.mpr ⟨z, _, hself, hla.1, hla.2.trans_le hhi⟩, hcount,
      fun y v hv => ?_, fun halive => ?_⟩
    · rw [hduped.parent la hla, hreferred.entry]
    · rw [hduped.kept y hy, hreferred.entry]
    · by_cases hy : y = z
      · obtain ⟨hv, hhas⟩ := share_eq_some.mp hv
        rw [hy, hself] at hv
        cases hv
        refine .inr ⟨x, mem_singleton_self x, ?_⟩
        rw [hold]
        exact ⟨hhas, (hoff hhas).1, le_rfl, le_rfl, by rw [(hoff hhas).2, Nat.add_comm]⟩
      · have hkept : m'.areas y = m.areas y := by rw [hareas', update_of_ne hy]
        exact .inl ((share_congr hkept).symm.trans hv)
    · have hnamed : Vma.named ⟨old.vmStart, old.vmEnd, old.vmFlags, shmem, off, true⟩ =
          old.named := by
        show (if old.has vmShare = true then shmem else none) = _
        rw [Vma.named]
        split_ifs with hshared
        · exact (hoff hshared).1
        · rfl
      rw [naming_update hareas', Option.bind_some, hnamed]
      refine moves_update fun names p hrefs hp =>
        (hreferred.refs names p hrefs (hp.trans ?_) ?_).same hcopied.shmem
      · rw [naming_eq, hfresh, Option.bind_none]
      · rw [← hold]
        exact halive x (mem_singleton_self x)
  rw [wp_onMem_put]
  refine wp_copyRange hmem₂ hne hok.start_aligned hok.end_aligned hok.access
    (.inr fun la hge hlt => ?_) (fun s' mid hmem' _ hlt hcopied => ?_) fun s' hmem' hcopied => ?_
  · rw [hreferred.entry]
    exact hempty la ⟨hge, hlt⟩
  · exact hE m' s' _ hmem' hmm' (hgained s' mid hlt.le hcopied)
  · exact hQ m' s' z _ hmem' hmm' hfresh hareas' rfl (hgained s' old.vmEnd le_rfl hcopied)

/-- The loop of `dup_mmap`. -/
theorem wp_dupVmas (hok : ∀ x ∈ l, (n.vma x).Ok) (hdesc : l.Pairwise fun a b => n.Before b a)
    (hfree : ∀ x ∈ l, m.Free (n.vma x).vmStart (n.vma x).vmEnd)
    (hempty : ∀ x ∈ l, ∀ la, (n.vma x).In la → s.entry (slot dst la) = .none)
    (hshare : ∀ x ∈ l, ∀ la, (n.vma x).In la → n.sharedAt la = (n.vma x).has vmShare)
    (hnull : ∀ S', E .nullAccess S')
    (hE : ∀ m' s' P, MemOk hand s' → MmOk [] m' → Gained m m' s s' dst src n l P →
      E .noMem (S.put dst m' s'))
    (hQ : ∀ m' s', MemOk hand s' → MmOk [] m' →
      Gained m m' s s' dst src n l (fun la => ∃ x ∈ l, (n.vma x).In la) →
      Q () (S.put dst m' s')) : (dupVmas dst src l).wp H E Q (S.put dst m s) := by
  induction l generalizing m s with
  | nil =>
    refine hQ m s hmem hmm ?_
    simp only [not_mem_nil, false_and, exists_false]
    exact .of_same rfl rfl
  | cons x l ih =>
    obtain ⟨hlast, hdesc⟩ := pairwise_cons.mp hdesc
    have hokx := hok x (.head _)
    have hsub : ∀ w ∈ [x], w ∈ x :: l := fun w hw => mem_singleton.mp hw ▸ mem_cons_self
    rw [dupVmas, wp_bind]
    refine wp_dupVma hmem hmm hn hne hokx (hfree x (.head _))
      (hempty x (.head _)) (hshare x (.head _)) hnull
      (fun m' s' P hmem' hmm' hgained => hE m' s' P hmem' hmm' (hgained.mono hsub))
      fun m₁ s₁ z v hmem₁ hmm₁ hfresh hareas₁ hstart hgained => ?_
    -- the rest lies below the area, so its slots have not changed
    have hdisj : ∀ e la la', (n.vma x).In la →
        (∃ w ∈ l, (n.vma w).In la') → slot e la ≠ slot e la' := by
      rintro e la la' ⟨hlo, hhi⟩ ⟨w, hw, -, hhi'⟩ heq
      have hlt := Nat.lt_of_lt_of_le hhi' (hlast w hw)
      have hbound := hokx.access.bound
      have haligned := hokx.start_aligned
      have hpage := (page_eq_of_slot (by omega) (by omega) heq).2
      rw [pgSize_eq] at hpage haligned
      omega
    refine ih hmem₁ hmm₁ (fun w hw => hok w (.tail _ hw)) hdesc ?_ ?_
      (fun w hw => hshare w (.tail _ hw)) ?_ ?_
    · intro w hw y u hy
      rw [hareas₁] at hy
      by_cases hyz : y = z
      · rw [hyz, update_self] at hy
        cases hy
        exact .inr ((hlast w hw).trans hstart.ge)
      · rw [update_of_ne hyz] at hy
        exact hfree w (.tail _ hw) y u hy
    · intro w hw la hin
      rw [hgained.slots.kept _ fun la' hla' =>
        ⟨(hdisj dst la' la hla' ⟨w, hw, hin⟩).symm, slot_ne hne⟩]
      exact hempty w (.tail _ hw) la hin
    · intro m' s' P hmem' hmm' hgained'
      exact hE m' s' _ hmem' hmm' ((hgained.mono hsub).trans
        (hgained'.mono fun w => .tail _) hne fun e la la' hla hla' =>
          hdisj e la la' hla (hgained'.inside la' hla'))
    · intro m' s' hmem' hmm' hgained'
      refine hQ m' s' hmem' hmm' ?_
      have hgained₂ := (hgained.mono hsub).trans
        (hgained'.mono fun w => .tail _) hne fun e la la' hla hla' =>
          hdisj e la la' hla hla'
      simp only [exists_mem_cons_iff]
      exact hgained₂

end

/-- `dup_mmap` into an address space without areas and pages. -/
theorem wp_dupMmap (hmem : MemOk hand S.mem) (hmm : MmOk [] (S.mm dst)) (hsrc : MmOk [] (S.mm src))
    (hne : dst ≠ src) (hlist : (S.mm dst).mmapList = [])
    (hempty : ∀ i j, S.mem.entry (.dir dst i, j) = .none)
    (hnull : ∀ S', E .nullAccess S')
    (hE : ∀ m' s' P, MemOk hand s' → MmOk [] m' →
      Gained (S.mm dst) m' S.mem s' dst src (S.mm src) (S.mm src).mmapList P →
      E .noMem (S.put dst m' s'))
    (hQ : ∀ m' s', MemOk hand s' → MmOk [] m' →
      Gained (S.mm dst) m' S.mem s' dst src (S.mm src) (S.mm src).mmapList
        (fun la => ((S.mm src).flagsAt la).isSome) → Q () (S.put dst m' s')) :
    (dupMmap dst src).wp H E Q S := by
  have hmemiff : ∀ x, x ∈ (S.mm src).mmapList.reverse ↔ x ∈ (S.mm src).mmapList :=
    fun x => mem_reverse
  have hnone : ∀ y, (S.mm dst).areas y = none := fun y => areas_of_notMem (by simp [hlist])
  have hdone := wp_dupVmas (H := H) hmem hmm rfl hne (fun x hx => hsrc.ok x ((hmemiff x).mp hx))
    (pairwise_reverse.mpr hsrc.sorted) (fun x _ y v hy => ?_) (fun x _ la _ => hempty _ _)
    (fun x hx la hin => ?_) hnull
    (fun m' s' P hmem' hmm' h => hE m' s' P hmem' hmm' (h.mono fun x => (hmemiff x).mp))
    fun m' s' hmem' hmm' h => hQ m' s' hmem' hmm' ?_
  · rw [put_self] at hdone
    exact hdone
  · cases (hnone y).symm.trans hy
  · rw [Mm.sharedAt, hsrc.flagsAt_of_in (areas_of_mem ((hmemiff x).mp hx)) hin]
    rfl
  · have heq : (fun la => ((S.mm src).flagsAt la).isSome = true) =
        fun la => ∃ x ∈ (S.mm src).mmapList.reverse, ((S.mm src).vma x).In la := by
      funext la
      simp only [flagsAt_isSome, exists_area, mem_reverse]
    rw [heq]
    exact h.mono fun x => (hmemiff x).mp

end Ucore.Vm
