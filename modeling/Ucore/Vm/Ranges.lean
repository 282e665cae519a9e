import Ucore.Vm.Tables

/-!
# Ranges of addresses

`unmap_range` clears the slots of a range and no other, `copy_range` gives the child what the
parent has in a range, and `exit_range` frees the tables of the regions that a range touches.
-/

namespace Ucore.Vm

open Kern Function

variable {H : Prop} {E : Err → Mem → Prop} {s s' s'' : Mem} {hand : Finset ℕ} {x : Slot}
  {d la la' base off start mid fin fuel t : ℕ} {Q : Unit → Mem → Prop}

theorem pgSize_eq : pgSize = 4096 := rfl

theorem ptSize_eq : ptSize = 1048576 := rfl

theorem npdEntry_eq : npdEntry = 4096 := rfl

theorem nptEntry_eq : nptEntry = 256 := rfl

theorem UserAccess.lt (h : UserAccess start fin) : start < fin := h.2.1

theorem UserAccess.bound (h : UserAccess start fin) : fin ≤ 0x70000000 := h.2.2

/-- The addresses of one page share a slot. -/
theorem slot_eq_of_page (h : la / pgSize = la' / pgSize) : slot d la = slot d la' := by
  rw [slot, slot, pdx, pdx, ptx, ptx]
  congr 3
  rw [pgSize_eq] at h
  rw [ptSize_eq]
  omega

/-- Different pages have different slots. -/
theorem page_eq_of_slot {d' : ℕ} (hla : la < 2 ^ 32) (hla' : la' < 2 ^ 32)
    (h : slot d la = slot d' la') : d = d' ∧ la / pgSize = la' / pgSize := by
  simp only [slot, pdx, ptx, Prod.mk.injEq, Owner.dir.injEq, ptSize_eq, npdEntry_eq, pgSize_eq,
    nptEntry_eq] at h ⊢
  omega

/-- The slots of a region, by their offsets. -/
theorem slot_region (hbase : base % ptSize = 0) (hoff : off < ptSize) :
    slot d (base + off) = (.dir d (pdx base), ptx off) := by
  simp only [slot, pdx, ptx, Prod.mk.injEq, Owner.dir.injEq, true_and, ptSize_eq, npdEntry_eq,
    pgSize_eq, nptEntry_eq] at hbase hoff ⊢
  omega

/-! ## Unmapping -/

/-- The slots of a range are clear, and nothing else has changed. -/
structure Unmapped (s s' : Mem) (d start fin : ℕ) : Prop where
  cleared : ∀ la, start ≤ la → la < fin → s'.entry (slot d la) = .none
  kept : ∀ x, (∀ la, start ≤ la → la < fin → x ≠ slot d la) → s'.entry x = s.entry x
  shmem : s'.shmem = s.shmem
  tableOf : s'.tableOf = s.tableOf

theorem Unmapped.trans (h : Unmapped s s' d start mid) (h' : Unmapped s' s'' d mid fin)
    (hmid : start ≤ mid) (hfin : mid ≤ fin) : Unmapped s s'' d start fin where
  cleared la hlo hhi := by
    by_cases hin : ∃ la', mid ≤ la' ∧ la' < fin ∧ slot d la = slot d la'
    · obtain ⟨la', hlo', hhi', heq⟩ := hin
      rw [heq]
      exact h'.cleared la' hlo' hhi'
    · have hlt : la < mid := by
        by_contra hge
        exact hin ⟨la, Nat.le_of_not_lt hge, hhi, rfl⟩
      rw [h'.kept _ fun la' hlo' hhi' heq => hin ⟨la', hlo', hhi', heq⟩]
      exact h.cleared la hlo hlt
  kept x hx := by
    rw [h'.kept x fun la hlo hhi => hx la (hmid.trans hlo) hhi]
    exact h.kept x fun la hlo hhi => hx la hlo (Nat.lt_of_lt_of_le hhi hfin)
  shmem := h'.shmem.trans h.shmem
  tableOf := h'.tableOf.trans h.tableOf

/-- One page of a range. -/
theorem Unmapped.of_page (hla : la % pgSize = 0)
    (hentry : s'.entry = update s.entry (slot d la) .none) (hshmem : s'.shmem = s.shmem)
    (htableOf : s'.tableOf = s.tableOf) : Unmapped s s' d la (la + pgSize) := by
  refine ⟨fun la' hlo hhi => ?_, fun x hx => ?_, hshmem, htableOf⟩
  · have hpage : la' / pgSize = la / pgSize := by
      rw [pgSize_eq] at hla hhi ⊢
      omega
    rw [hentry, slot_eq_of_page hpage, update_self]
  · rw [hentry, update_of_ne (hx la le_rfl (by rw [pgSize_eq]; omega))]

/-- The loop of `unmap_range_pte` clears the slots of a part of a region. -/
theorem wp_unmapEntries (h : MemOk hand s) (ht : s.tableOf (.dir d (pdx base)) = some t)
    (hbase : base % ptSize = 0) (hlt : start < fin) (hfin : fin ≤ ptSize)
    (hstart : start % pgSize = 0) (halign : fin % pgSize = 0) (hfuel : fin - start ≤ fuel * pgSize)
    (hQ : ∀ s', MemOk hand s' → Unmapped s s' d (base + start) (base + fin) → Q () s') :
    (unmapEntries t fuel start fin).wp H E Q s := by
  induction fuel generalizing s start with
  | zero => omega
  | succ fuel ih =>
    have hslot : slot d (base + start) = (.dir d (pdx base), ptx start) :=
      slot_region hbase (Nat.lt_of_lt_of_le hlt hfin)
    have hpage : (base + start) % pgSize = 0 := by
      rw [ptSize_eq] at hbase
      rw [pgSize_eq] at hstart ⊢
      omega
    -- what the body of the loop does
    have hbody : ∀ s', MemOk hand s' → Unmapped s s' d (base + start) (base + start + pgSize) →
        (if start + pgSize < fin then unmapEntries t fuel (start + pgSize) fin
          else pure ()).wp H E Q s' := by
      intro s' h' hun
      refine wp_if (fun hmore => ?_) fun hend => ?_
      · refine ih h' (by rw [hun.tableOf]; exact ht) hmore ?_ ?_ fun s'' h'' hun' => ?_
        · rw [pgSize_eq] at hstart ⊢
          omega
        · rw [pgSize_eq] at hfuel ⊢
          omega
        · rw [Nat.add_assoc] at hun
          exact hQ s'' h'' (hun.trans hun' (by omega) (by omega))
      · have heq : start + pgSize = fin := by
          rw [pgSize_eq] at hstart halign hend ⊢
          omega
        rw [Nat.add_assoc, heq] at hun
        exact hQ s' h' hun
    rw [unmapEntries, wp_bind, unmapEntry, wp_get]
    refine wp_if (fun _ => ?_) fun hnone => ?_
    · refine wp_pageRemovePte h ht fun s' h' hentry hshmem htableOf => ?_
      rw [← hslot] at hentry
      exact hbody s' h' (.of_page hpage hentry hshmem htableOf)
    · have hx : s.entry (slot d (base + start)) = .none := by
        rw [hslot, entry_eq ht]
        exact not_not.mp hnone
      refine hbody s h (.of_page hpage ?_ rfl rfl)
      rw [← hx, update_eq_self]

/-- One turn of the loop of `unmap_range_pgd` clears a part of a region. -/
theorem wp_unmapRegion {size : ℕ} (h : MemOk hand s) (hbase : base % ptSize = 0) (hsize : 0 < size)
    (hfin : off + size ≤ ptSize) (hoff : off % pgSize = 0) (halign : size % pgSize = 0)
    (hQ : ∀ s', MemOk hand s' → Unmapped s s' d (base + off) (base + off + size) → Q () s') :
    (unmapRegion d base off size).wp H E Q s := by
  rw [unmapRegion, wp_get]
  cases hdir : s.pgdir d (pdx base) with
  | none =>
    refine hQ s h ⟨fun la hlo hhi => ?_, fun _ _ => rfl, rfl, rfl⟩
    obtain ⟨i, rfl⟩ := Nat.exists_eq_add_of_le ((Nat.le_add_right base off).trans hlo)
    rw [slot_region hbase (by omega)]
    exact entry_none hdir
  | some t =>
    have hend : (off + size) % pgSize = 0 := by
      rw [pgSize_eq] at hoff halign ⊢
      omega
    refine wp_check ⟨by omega, hfin⟩ ?_
    refine wp_check ⟨hoff, hend⟩ ?_
    refine wp_unmapEntries h hdir hbase (by omega) hfin hoff hend ?_ fun s' h' hun => hQ s' h' ?_
    · rw [ptSize] at hfin
      rw [Nat.mul_comm]
      omega
    · rw [Nat.add_assoc]
      exact hun

/-- `unmap_range_pgd` clears a range. -/
theorem wp_unmapRangePgd (h : MemOk hand s) (hbase : la % ptSize = 0) (hlo : la ≤ start)
    (hhi : start < la + ptSize) (hlt : start < fin) (hstart : start % pgSize = 0)
    (halign : fin % pgSize = 0) (hfuel : fin - la ≤ fuel * ptSize)
    (hQ : ∀ s', MemOk hand s' → Unmapped s s' d start fin → Q () s') :
    (unmapRangePgd d fuel start la fin).wp H E Q s := by
  induction fuel generalizing s start la with
  | zero => omega
  | succ fuel ih =>
    rw [unmapRangePgd]
    generalize hsize : (if ptSize - (start - la) > fin - start then fin - start
      else ptSize - (start - la)) = size
    have hsize' : size = fin - start ∧ fin ≤ la + ptSize ∨
        size = la + ptSize - start ∧ la + ptSize ≤ fin := by
      rw [← hsize]
      split <;> omega
    have hcut : start + size ≤ fin ∧ (start + size) % pgSize = 0 ∧ 0 < size := by
      rw [ptSize_eq] at hbase
      rw [ptSize_eq] at hsize' hhi
      rw [pgSize_eq] at hstart halign ⊢
      omega
    refine wp_seq (wp_unmapRegion h hbase hcut.2.2 (by omega) ?_ ?_ fun s₁ h₁ hun => ?_)
    · rw [ptSize_eq] at hbase
      rw [pgSize_eq] at hstart ⊢
      omega
    · rw [pgSize_eq] at hstart hcut ⊢
      omega
    · rw [Nat.add_sub_of_le hlo] at hun
      refine wp_if (fun hmore => ?_) fun hend => ?_
      · refine ih h₁ ?_ (by omega) ?_ hmore hcut.2.1 ?_ fun s' h' hun' => ?_
        · rw [Nat.add_mod_right]
          exact hbase
        · omega
        · rw [ptSize_eq] at hfuel ⊢
          omega
        · exact hQ s' h' (hun.trans hun' (by omega) hcut.1)
      · have heq : start + size = fin := by omega
        rw [heq] at hun
        exact hQ s₁ h₁ hun

/-- `unmap_range` clears a range. -/
theorem wp_unmapRange (h : MemOk hand s) (hstart : start % pgSize = 0) (hfin : fin % pgSize = 0)
    (haccess : UserAccess start fin)
    (hQ : ∀ s', MemOk hand s' → Unmapped s s' d start fin → Q () s') :
    (unmapRange d start fin).wp H E Q s := by
  have hbound := haccess.bound
  refine wp_check ⟨hstart, hfin⟩ ?_
  refine wp_check haccess ?_
  refine wp_unmapRangePgd h ?_ ?_ ?_ haccess.lt hstart hfin ?_ hQ
  · rw [roundDown, ptSize_eq]
    omega
  · rw [roundDown]
    omega
  · rw [roundDown, ptSize_eq]
    omega
  · rw [npdEntry_eq, ptSize_eq]
    omega

/-! ## Copying -/

/-- What the parent keeps. -/
def Pte.protected (share : Bool) : Pte → Pte
  | .none => .none
  | .page f prot => .page f (if share then prot else Perm.prot ⟨prot.uRead, false⟩)

/-- The pages of the parent in a range were copied, and nothing else has changed. -/
structure Copied (s s' : Mem) (dst src : ℕ) (share : Bool) (start fin : ℕ) : Prop where
  parent : ∀ la, start ≤ la → la < fin →
    s'.entry (slot src la) = (s.entry (slot src la)).protected share
  kept : ∀ x, (∀ la, start ≤ la → la < fin → x ≠ slot dst la ∧ x ≠ slot src la) →
    s'.entry x = s.entry x
  shmem : s'.shmem = s.shmem

variable {dst src : ℕ} {share : Bool}

theorem dir_ne_slot {i j : ℕ} (hne : dst ≠ src) : ((.dir dst i, j) : Slot) ≠ slot src la := by
  intro heq
  simp only [slot, Prod.mk.injEq, Owner.dir.injEq] at heq
  exact hne heq.1.1

theorem slot_ne (hne : dst ≠ src) : slot dst la ≠ slot src la' := dir_ne_slot hne

theorem Copied.trans (h : Copied s s' dst src share start mid)
    (h' : Copied s' s'' dst src share mid fin) (hne : dst ≠ src) (hmid : mid % pgSize = 0)
    (hle : start ≤ mid) (hle' : mid ≤ fin) (hfin : fin ≤ 2 ^ 32) :
    Copied s s'' dst src share start fin := by
  -- a slot of the first part is none of the second
  have hfirst : ∀ {la la'}, la < mid → mid ≤ la' → la' < fin → slot src la ≠ slot src la' := by
    intro la la' hlt hge hhi heq
    have hpage := (page_eq_of_slot (by omega) (by omega) heq).2
    rw [pgSize_eq] at hpage hmid
    omega
  refine ⟨fun la hlo hhi => ?_, fun x hx => ?_, h'.shmem.trans h.shmem⟩
  · by_cases hlt : la < mid
    · rw [h'.kept _ fun la' hge hhi => ⟨slot_ne hne.symm, hfirst hlt hge hhi⟩, h.parent la hlo hlt]
    · have hge := Nat.le_of_not_lt hlt
      rw [h'.parent la hge hhi,
        h.kept _ fun la' _ hlt => ⟨slot_ne hne.symm, (hfirst hlt hge hhi).symm⟩]
  · rw [h'.kept x fun la hge hhi => hx la (hle.trans hge) hhi]
    exact h.kept x fun la hlo hlt => hx la hlo (Nat.lt_of_lt_of_le hlt hle')

/-- A range in which the parent has nothing. -/
theorem Copied.of_none (h : ∀ la, start ≤ la → la < fin → s.entry (slot src la) = .none) :
    Copied s s dst src share start fin := by
  refine ⟨fun la hlo hhi => ?_, fun _ _ => rfl, rfl⟩
  rw [h la hlo hhi, Pte.protected]

/-- One page of a range. -/
theorem Copied.of_page {v : Pte} (hne : dst ≠ src) (hla : la % pgSize = 0)
    (hentry : s'.entry = update (update s.entry (slot src la)
      ((s.entry (slot src la)).protected share)) (slot dst la) v)
    (hshmem : s'.shmem = s.shmem) : Copied s s' dst src share la (la + pgSize) := by
  have hpage : ∀ {la'}, la ≤ la' → la' < la + pgSize → slot src la' = slot src la := by
    intro la' hlo hhi
    refine slot_eq_of_page ?_
    rw [pgSize_eq] at hla hhi ⊢
    omega
  refine ⟨fun la' hlo hhi => ?_, fun x hx => ?_, hshmem⟩
  · rw [hpage hlo hhi, hentry, update_of_ne (slot_ne hne.symm), update_self]
  · obtain ⟨hdst, hsrc⟩ := hx la le_rfl (by rw [pgSize_eq]; omega)
    rw [hentry, update_of_ne hdst, update_of_ne hsrc]

/-- The parent keeps its page, without the right to write unless it is shared. -/
theorem wp_protectPte {f : ℕ} {prot : Prot} (h : MemOk hand s)
    (hsrc : s.tableOf (.dir src (pdx la)) = some t) (hx : s.entry (slot src la) = .page f prot)
    (hQ : ∀ s', MemOk hand s' → s'.entry =
        update s.entry (slot src la) ((s.entry (slot src la)).protected share) →
      s'.heap = s.heap → s'.shmem = s.shmem → s'.tableOf = s.tableOf → Q () s') :
    (protectPte share (t, ptx la) f ⟨prot.uRead, share && prot.uWrite⟩).wp H E Q s := by
  rw [protectPte, wp_ite]
  constructor
  · rintro rfl
    refine hQ _ (h.protect hsrc hx) ?_ rfl rfl tableOf_setPte
    rw [h.inj.entry_setPte hsrc, hx]
    rfl
  · intro hshare
    rw [Bool.not_eq_false] at hshare
    subst hshare
    refine hQ s h ?_ rfl rfl rfl
    rw [hx, Pte.protected, if_pos rfl, ← hx, update_eq_self]

section

variable (h : MemOk hand s) (hne : dst ≠ src)
include h hne

/-- One entry of `copy_range`. -/
theorem wp_copyEntry (hsrc : s.tableOf (.dir src (pdx la)) = some t) (hla : la % pgSize = 0)
    (hempty : H ∨ s.entry (slot dst la) = .none)
    (hE : ∀ s', MemOk hand s' → Quiet s s' → E .noMem s')
    (hQ : ∀ s', MemOk hand s' → Copied s s' dst src share la (la + pgSize) → Q () s') :
    (copyEntry dst la share (t, ptx la)).wp H E Q s := by
  have hpte : s.pte (t, ptx la) = s.entry (slot src la) := (entry_eq hsrc).symm
  rw [copyEntry, wp_get, hpte]
  cases hx : s.entry (slot src la) with
  | none =>
    refine hQ s h (.of_page (v := s.entry (slot dst la)) hne hla ?_ rfl)
    rw [hx, Pte.protected, ← hx, update_eq_self, update_eq_self]
  | page f prot =>
    refine wp_seq (wp_getPte h (fun s₁ h₁ hquiet _ _ => hE s₁ h₁ hquiet) fun s₁ u h₁ hopen _ => ?_)
    have hsrc₁ : s₁.tableOf (.dir src (pdx la)) = some t := by
      rw [hopen.other _ fun heq => hne (Owner.dir.inj heq).1.symm]
      exact hsrc
    have hx₁ : s₁.entry (slot src la) = .page f prot := by
      rw [hopen.entry]
      exact hx
    have hdst : s₁.pte (u, ptx la) = s.entry (slot dst la) := by
      rw [← hopen.entry]
      exact (entry_eq hopen.table).symm
    rw [wp_get, wp_bind, wp_assert, hdst]
    refine ⟨fun hnone => ?_, hempty.resolve_right⟩
    refine wp_seq (wp_protectPte h₁ hsrc₁ hx₁ fun s₂ h₂ hentry₂ hheap₂ hshmem₂ htableOf₂ => ?_)
    have hnamed : s₁.names (slot src la) = some f := by rw [Mem.names, hx₁, Pte.frame?]
    obtain ⟨hlive, htable, hhand⟩ := h₁.named hnamed
    rw [wp_ignore]
    refine wp_pageInsert h₂ (by rw [hheap₂]; exact hlive) ?_ (fun s₃ _ _ hdir => ?_)
      fun s₃ h₃ hsets => ?_
    · rintro ⟨o, ho⟩
      rw [htableOf₂] at ho
      exact htable ⟨o, ho⟩
    · rw [htableOf₂, hopen.table] at hdir
      cases hdir
    · rw [Finset.erase_eq_of_notMem hhand] at h₃
      have hentry₃ := hsets.entry
      rw [hentry₂, hopen.entry] at hentry₃
      refine hQ s₃ h₃ (.of_page hne hla hentry₃ ?_)
      rw [hsets.shmem, hshmem₂, hopen.shmem]

/-- The loop of `copy_range`. -/
theorem wp_copyPages (hlt : start < fin) (hstart : start % pgSize = 0) (halign : fin % pgSize = 0)
    (hfin : fin ≤ 2 ^ 32) (hempty : H ∨ ∀ la, start ≤ la → la < fin → s.entry (slot dst la) = .none)
    (hfuel : fin - start ≤ fuel * pgSize)
    (hE : ∀ s' mid, MemOk hand s' → start ≤ mid → mid < fin →
      Copied s s' dst src share start mid → E .noMem s')
    (hQ : ∀ s', MemOk hand s' → Copied s s' dst src share start fin → Q () s') :
    (copyPages dst src share fuel start fin).wp H E Q s := by
  induction fuel generalizing s start with
  | zero => omega
  | succ fuel ih =>
    -- the part up to `mid` is done
    have hbody : ∀ s₁ mid, start < mid → mid % pgSize = 0 → MemOk hand s₁ →
        (mid ≤ fin → Copied s s₁ dst src share start mid) →
        (fin ≤ mid → Copied s s₁ dst src share start fin) →
        (if mid < fin then copyPages dst src share fuel mid fin else pure ()).wp H E Q s₁ := by
      intro s₁ mid hmid hpage h₁ hcopied hdone
      refine wp_if (fun hmore => ?_) fun hend => ?_
      · have hcopied := hcopied hmore.le
        refine ih h₁ hmore hpage ?_ ?_ (fun s₂ mid₂ h₂ hle₂ hlt₂ hcopied₂ => ?_)
          fun s₂ h₂ hcopied₂ => ?_
        · refine hempty.imp_right fun hnone la hge hhi => ?_
          rw [hcopied.kept _ fun la' _ hlt' => ⟨fun heq => ?_, slot_ne hne⟩]
          · exact hnone la (hmid.le.trans hge) hhi
          · have := (page_eq_of_slot (by omega) (by omega) heq).2
            rw [pgSize_eq] at this hpage
            omega
        · rw [pgSize_eq] at hfuel hstart hpage ⊢
          omega
        · exact hE s₂ mid₂ h₂ (hmid.le.trans hle₂) hlt₂
            (hcopied.trans hcopied₂ hne hpage hmid.le hle₂ (by omega))
        · exact hQ s₂ h₂ (hcopied.trans hcopied₂ hne hpage hmid.le hmore.le hfin)
      · exact hQ s₁ h₁ (hdone (Nat.le_of_not_lt hend))
    rw [copyPages, wp_bind]
    refine wp_getPte h (fun s₁ h₁ _ hdir hsame => ?_) fun s₁ t h₁ hopen hsame => ?_
    · -- the parent has no table for the region
      obtain rfl := hsame rfl
      have hnone : ∀ la, start ≤ la → la < roundDown (start + ptSize) ptSize →
          s₁.entry (slot src la) = .none := by
        intro la hge hhi
        have hregion : pdx la = pdx start := by
          rw [roundDown] at hhi
          simp only [pdx, ptSize_eq] at hhi ⊢
          congr 1
          omega
        rw [slot, hregion]
        exact entry_none hdir
      refine hbody s₁ _ ?_ ?_ h₁ (fun _ => .of_none hnone)
        fun hle => .of_none fun la hge hhi => hnone la hge (Nat.lt_of_lt_of_le hhi hle)
      · rw [roundDown, ptSize_eq]
        omega
      · rw [roundDown, ptSize_eq, pgSize_eq]
        omega
    · obtain rfl := hsame rfl
      rw [wp_bind]
      have hend : start + pgSize ≤ fin := by
        rw [pgSize_eq] at hstart halign ⊢
        omega
      refine wp_copyEntry h₁ hne hopen.table hstart
        (hempty.imp_right fun hnone => hnone start le_rfl hlt)
        (fun s₂ h₂ hquiet => hE s₂ start h₂ le_rfl hlt ?_) fun s₂ h₂ hcopied => ?_
      · refine ⟨fun la hlo hhi => absurd hhi (Nat.not_lt.mpr hlo), fun x _ => ?_, hquiet.shmem⟩
        rw [hquiet.entry]
      · refine hbody s₂ _ ?_ ?_ h₂ (fun _ => hcopied) fun hle => ?_
        · rw [pgSize_eq]
          omega
        · rw [Nat.add_mod_right]
          exact hstart
        · rw [Nat.le_antisymm hle hend]
          exact hcopied

/-- `copy_range`. -/
theorem wp_copyRange (hstart : start % pgSize = 0) (hfin : fin % pgSize = 0)
    (haccess : UserAccess start fin)
    (hempty : H ∨ ∀ la, start ≤ la → la < fin → s.entry (slot dst la) = .none)
    (hE : ∀ s' mid, MemOk hand s' → start ≤ mid → mid < fin →
      Copied s s' dst src share start mid → E .noMem s')
    (hQ : ∀ s', MemOk hand s' → Copied s s' dst src share start fin → Q () s') :
    (copyRange dst src start fin share).wp H E Q s := by
  have hbound := haccess.bound
  refine wp_check ⟨hstart, hfin⟩ ?_
  refine wp_check haccess ?_
  refine wp_copyPages h hne haccess.lt hstart hfin (by omega) hempty ?_ hE hQ
  rw [npdEntry_eq, nptEntry_eq, pgSize_eq]
  omega

end

end Ucore.Vm
