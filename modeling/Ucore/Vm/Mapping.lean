import Ucore.Vm.Unmap

/-!
# Mapping a shared memory, and the heap of a process

`mm_map_shmem` adds an area with a reference to a shared memory, `mm_brk` unmaps a range and
gives it to the area before it or to a new one.
-/

namespace Ucore.Vm

open Kern Function

variable {H : Prop} {S : Spaces} {s : Mem} {hand : Finset ℕ} {m m' : Mm}
  {d i z la addr len start fin : ℕ} {l : List ℕ} {vmFlags : Flags} {E : Err → Spaces → Prop}
  {Q : Unit → Spaces → Prop}

/-! ## `mm_map_shmem` -/

/-- There is a new area with a shared memory in a free range, and nothing else has changed. -/
structure MappedShared (m m' : Mm) (z start fin : ℕ) (vmFlags : Flags) (i : ℕ) : Prop where
  areas : m'.areas = update m.areas z (some ⟨start, fin, vmFlags ||| vmShare, some i, 0, true⟩)
  fresh : m.areas z = none
  free : m.Free start fin
  mmCount : m'.mmCount = m.mmCount

/-- The area of `mm_map` is made a shared one. -/
theorem Mapped.shared (h : Mapped m m' z start fin vmFlags) (hmm : MmOk [] m') :
    MmOk [] (m'.setVma z fun v => { v with
      shmem := some i, shmemOff := 0, vmFlags := v.vmFlags ||| vmShare }) ∧
    MappedShared m (m'.setVma z fun v => { v with
      shmem := some i, shmemOff := 0, vmFlags := v.vmFlags ||| vmShare }) z start fin
      vmFlags i := by
  have hnew : m'.areas z = some ⟨start, fin, vmFlags, none, 0, true⟩ := by
    rw [h.areas, update_self]
  obtain ⟨hz, hvma⟩ := areas_eq_some.mp hnew
  refine ⟨hmm.setVma (fun _ => ?_) (fun _ => hmm.linked z hz) ?_, ?_, h.fresh, h.free, h.mmCount⟩
  · exact ⟨(hmm.ok z hz).access, (hmm.ok z hz).start_aligned, (hmm.ok z hz).end_aligned⟩
  · exact pairwise_setVma hmm.sorted (fun _ => le_rfl) fun _ => le_rfl
  · rw [areas_setVma hz, h.areas, update_idem, hvma]

theorem withRef_withRef {n n' : ℤ} : (s.withRef i n).withRef i n' = s.withRef i n' := by
  rw [Mem.withRef, shmem_withRef_self, Mem.withRef, Mem.withRef]
  rw [update_idem]

theorem withRef_self : s.withRef i (s.shmem i).ref = s := by
  exact congrArg (fun g => ({ s with shmem := g } : Mem)) (update_eq_self i s.shmem)

section

variable {E : Err → Mem → Prop}

theorem wp_shmemRefInc {Q : Unit → Mem → Prop} : (shmemRefInc i).wp H E Q s ↔
    Q () (s.withRef i ((s.shmem i).ref + 1)) := Iff.rfl

theorem wp_shmemRefDec {Q : ℤ → Mem → Prop} : (shmemRefDec i).wp H E Q s ↔
    Q ((s.withRef i ((s.shmem i).ref - 1)).shmem i).ref (s.withRef i ((s.shmem i).ref - 1)) :=
  Iff.rfl

end

/-- `mm_map_shmem`. -/
theorem wp_mmMapShmem {shmem : Option ℕ} (hmm : MmOk [] (S.mm d))
    (hE : ∀ m' e, MmOk [] m' → SameAreas (S.mm d) m' → e = .inval ∨ e = .noMem → E e (S.setMm d m'))
    (hQ : ∀ m' z i, shmem = some i → MmOk [] m' →
      UserAccess (roundDown addr pgSize) (reqEnd addr (S.mem.shmem i).len) → addr % pgSize = 0 →
      MappedShared (S.mm d) m' z (roundDown addr pgSize) (reqEnd addr (S.mem.shmem i).len)
        (vmFlags &&& ~~~vmShare) i →
      Q () ((S.setMm d m').setMem (S.mem.withRef i ((S.mem.shmem i).ref + 1)))) :
    (mmMapShmem d addr vmFlags shmem).wp H E Q S := by
  have hinval := hE (S.mm d) .inval hmm .refl (.inl rfl)
  rw [setMm_self] at hinval
  rw [mmMapShmem]
  cases hfilter : shmem.filter fun _ => addr % pgSize = 0 with
  | none => exact hinval
  | some i =>
    obtain ⟨hshmem, haligned⟩ := Option.filter_eq_some_iff.mp hfilter
    have haligned := of_decide_eq_true haligned
    rw [wp_bind, wp_onMem, wp_shmemRefInc]
    rw [wp_get, wp_bind, wp_attempt, wp_onMm, mem_setMem, (shmem_withRef i).2.2]
    refine wp_mmMap hmm (fun m' e hmm' hsame he => ?_) fun m' z hmm' haccess hmapped => ?_
    · rw [wp_bind, wp_onMem, wp_shmemRefDec, wp_throw]
      have hfail := hE m' e hmm' hsame he
      have hback : (S.mem.withRef i ((S.mem.shmem i).ref + 1)).withRef i
          (((S.mem.withRef i ((S.mem.shmem i).ref + 1)).shmem i).ref - 1) = S.mem := by
        rw [withRef_withRef, shmem_withRef_self, Int.add_sub_cancel, withRef_self]
      rw [setMem_setMm, mem_setMem, hback]
      exact hfail
    · rw [wp_onMm, wp_modify, setMem_setMm, mm_setMem, mm_setMm_self, setMem_setMm, setMm_setMm]
      obtain ⟨hmm'', hshared⟩ := hmapped.shared hmm'
      exact hQ _ z i hshmem hmm'' haccess haligned hshared

/-! ## `mm_brk` -/

theorem roundDown_aligned (h : start % pgSize = 0) : roundDown start pgSize = start := by
  rw [roundDown, h, Nat.sub_zero]

theorem reqEnd_aligned (haccess : UserAccess start fin) (hfin : fin % pgSize = 0) :
    reqEnd start (fin - start) = fin := by
  have hbound := haccess.bound
  have hlt := haccess.lt
  have hsum : start + (fin - start) = fin := by omega
  rw [reqEnd, roundUp, roundDown]
  rw [pgSize_eq] at hfin ⊢
  omega

/-- A range whose addresses have no flags. -/
theorem MmOk.free_of_flagsAt (hmm : MmOk l m)
    (hnone : ∀ la, start ≤ la → la < fin → m.flagsAt la = none) (hlt : start < fin) :
    m.Free start fin := by
  intro x v hx
  by_contra hmeets
  have hok := (hmm.area_ok hx).lt
  refine flagsAt_eq_none.mp (hnone (max start v.vmStart) (by omega) (by omega)) x v hx ⟨?_, ?_⟩
  · omega
  · omega

/-- `mm_brk`: the range is unmapped and mapped again; if there is no memory for the second, it
stays unmapped. -/
theorem wp_mmBrk (hmem : MemOk hand S.mem) (hmm : MmOk [] (S.mm d)) (hnull : ∀ S', E .nullAccess S')
    (hsame : ∀ m' e, MmOk [] m' → SameAreas (S.mm d) m' → E e (S.setMm d m'))
    (hE : ∀ m' s', MemOk hand s' → MmOk [] m' →
      Removed (S.mm d) m' S.mem s' d (roundDown addr pgSize) (reqEnd addr len) →
      E .noMem (S.put d m' s'))
    (hQ : ∀ m₁ m' s', MemOk hand s' → MmOk [] m' →
      Removed (S.mm d) m₁ S.mem s' d (roundDown addr pgSize) (reqEnd addr len) →
      Grown m₁ m' → m'.mmCount = (S.mm d).mmCount →
      (∀ la, m'.flagsAt la =
        if roundDown addr pgSize ≤ la ∧ la < reqEnd addr len then some (vmRead ||| vmWrite)
        else (S.mm d).flagsAt la) → Q () (S.put d m' s')) :
    (mmBrk d addr len).wp H E Q S := by
  rw [mmBrk]
  refine wp_if (fun _ => ?_) fun haccess => ?_
  · have hfail := hsame (S.mm d) .inval hmm .refl
    rw [setMm_self] at hfail
    exact hfail
  · rw [not_not] at haccess
    have hstart := roundDown_mod addr
    have hfin := reqEnd_mod addr len
    generalize roundDown addr pgSize = start at *
    generalize reqEnd addr len = fin at *
    have hstart' := roundDown_aligned hstart
    have hfin' := reqEnd_aligned haccess hfin
    refine wp_seq (wp_mmUnmap hmem hmm (fun _ _ _ _ _ => hnull)
      (fun m' e hmm' hkept _ => hsame m' e hmm' hkept) fun m₁ s' hmem' hmm₁ _ hremoved => ?_)
    rw [hstart', hfin'] at hremoved
    have hnone : ∀ la, start ≤ la → la < fin → m₁.flagsAt la = none := by
      intro la hlo hhi
      rw [hremoved.flags, if_pos ⟨hlo, hhi⟩]
    rw [wp_onMm_put]
    refine wp_extendOrMap hmm₁ haccess hstart hfin (hmm₁.free_of_flagsAt hnone haccess.lt)
      (fun m' _ _ hmm' hkept => ?_) fun m' hmm' hflags hgrown hcount => ?_
    · refine hE m' s' hmem' hmm' ⟨hkept.mmCount.trans hremoved.mmCount, ?_, hremoved.slots,
        hremoved.shared, fun hhole => (hremoved.shrunk hhole).of_share ?_⟩
      · rw [flagsAt_congr hkept.areas hmm₁ hmm']
        exact hremoved.flags
      · funext x
        exact share_congr (congrFun hkept.areas x)
    · refine hQ m₁ m' s' hmem' hmm' hremoved hgrown (hcount.trans hremoved.mmCount) fun la => ?_
      rw [hflags, hremoved.flags]
      split_ifs <;> rfl

end Ucore.Vm
