import Ucore.Vm.Faults

/-!
# Accesses to user memory by the kernel

`user_mem_check`, and the loads and stores that the kernel makes through user addresses in
`copy_from_user` and `copy_to_user`. A fault in kernel mode that `do_pgfault`
does not resolve stops the machine. The check looks at the guard page of a stack only for
stores and never at `VM_IO`; this is where the two disagree.
-/

namespace Ucore.Vm

open Kern List

/-! ## The check -/

/-- The tests of `user_mem_check` on the area that it finds for `start`. -/
def Vma.Passes (v : Vma) (write : Bool) (start : ℕ) : Prop :=
  v.vmStart ≤ start ∧ v.has (if write then vmWrite else vmRead) = true ∧
    ¬(write = true ∧ v.has vmStack = true ∧ start < v.vmStart + pgSize)

instance (v : Vma) (write : Bool) (start : ℕ) : Decidable (v.Passes write start) := by
  unfold Vma.Passes
  infer_instance

/-- The loop of `user_mem_check`. -/
def memCheckFrom (write : Bool) : ℕ → ℕ → ℕ → MmM Bool
  | 0, _, _ => stop .running
  | fuel + 1, start, fin =>
    if start < fin then do
      let found ← findVma start
      let m ← get
      match (found.map m.vma).filter fun v => v.Passes write start with
      | none => return false
      | some v => memCheckFrom write fuel v.vmEnd fin
    else return true

/-- `user_mem_check` for an `mm` that is not `NULL`; the end of the range may wrap. -/
def userMemCheck (d addr len : ℕ) (write : Bool) : SpacesM Bool :=
  let fin := (addr + len) % 2 ^ 32
  if ¬UserAccess addr fin then return false
  else do
    let v ← get
    onMm d (memCheckFrom write (v.mm d).turns addr fin)

/-! ## The accesses -/

/-- What the supervisor may do with a page. -/
def Prot.supervisor (write : Bool) : Prot → Bool
  | .r => !write
  | _ => true

/-- The entry that the hardware finds for an address. -/
def Mem.walk (s : Mem) (d la : ℕ) : Pte :=
  match s.pgdir d (pdx la) with
  | some t => s.table t (ptx la)
  | none => .none

/-- The error code of a load or store in kernel mode, if it raises a fault. -/
def Pte.kernelFault (write : Bool) : Pte → Option FaultCode
  | .none => some ⟨false, write⟩
  | .page _ prot => if prot.supervisor write then Option.none else some ⟨true, write⟩

variable {H : Prop} {hand : Finset ℕ} {loose : List ℕ} {m : Mm} {s s' : Mem} {S S' : Spaces}
  {v : Vma} {write : Bool} {d x addr len la start fin fuel : ℕ} {E : Err → Spaces → Prop}
  {e : FaultCode}

theorem Vma.Passes.mono (h : v.Passes write start) (hle : start ≤ la) : v.Passes write la := by
  obtain ⟨hstart, hflag, hguard⟩ := h
  refine ⟨hstart.trans hle, hflag, ?_⟩
  rintro ⟨hwrite, hstack, hlt⟩
  exact hguard ⟨hwrite, hstack, by omega⟩

/-- Every address of a range is in an area that passes the tests there. -/
def Mm.PassesAll (m : Mm) (write : Bool) (start fin : ℕ) : Prop :=
  ∀ la, start ≤ la → la < fin → ∃ x ∈ m.mmapList, (m.vma x).In la ∧ (m.vma x).Passes write la

/-- The area that `find_vma` finds decides about the addresses up to its end. -/
theorem MmOk.passesAll_iff (h : MmOk loose m) (hlt : start < fin)
    (hfirst : m.firstAfter start m.mmapList = some x) : m.PassesAll write start fin ↔
      (m.vma x).Passes write start ∧ m.PassesAll write (m.vma x).vmEnd fin := by
  obtain ⟨hmem, hend⟩ := mem_of_firstAfter hfirst
  constructor
  · intro hall
    obtain ⟨y, hy, hin, hpass⟩ := hall start le_rfl hlt
    rw [h.firstAfter_of_in hy hin, Option.some.injEq] at hfirst
    rw [← hfirst]
    exact ⟨hpass, fun la hlo hhi => hall la (hin.2.le.trans hlo) hhi⟩
  · rintro ⟨hpass, hrest⟩ la hlo hhi
    by_cases hla : la < (m.vma x).vmEnd
    · exact ⟨x, hmem, ⟨hpass.1.trans hlo, hla⟩, hpass.mono hlo⟩
    · exact hrest la (not_lt.mp hla) hhi

/-- The loop ends, and with success if and only if every address is in an area that passes. -/
theorem wp_memCheckFrom {E : Err → Mm → Prop} {Q : Bool → Mm → Prop} (h : MmOk loose m)
    (hfuel : (m.mmapList.filter fun x => start < (m.vma x).vmEnd).length < fuel)
    (hQ : ∀ r m', MmOk loose m' → SameAreas m m' → (r = true ↔ m.PassesAll write start fin) →
      Q r m') : (memCheckFrom write fuel start fin).wp H E Q m := by
  induction fuel generalizing start m with
  | zero => exact absurd hfuel (Nat.not_lt_zero _)
  | succ fuel ih =>
    rw [memCheckFrom]
    refine wp_if (fun hlt => ?_) fun hge => hQ true m h .refl
      (iff_of_true rfl fun la hlo hhi => by omega)
    refine wp_seq (wp_findVma h (fun hnone => ?_) fun x hx => ?_)
    · rw [wp_get]
      refine hQ false m h .refl (iff_of_false (by simp) fun hall => ?_)
      obtain ⟨y, hy, hin, -⟩ := hall start le_rfl hlt
      cases hnone.symm.trans (h.firstAfter_of_in hy hin)
    · obtain ⟨hmem, hend⟩ := mem_of_firstAfter hx
      have hcached := h.cached hmem
      have hiff : m.PassesAll write start fin ↔ _ := h.passesAll_iff hlt hx
      rw [wp_get, Option.map_some, Option.filter_some]
      split_ifs with hpass
      · have hpass : (m.vma x).Passes write start := of_decide_eq_true hpass
        -- the areas that are left end after this one
        have hless : (m.mmapList.filter fun y => (m.vma x).vmEnd < (m.vma y).vmEnd).length <
            (m.mmapList.filter fun y => start < (m.vma y).vmEnd).length := by
          have hsub : (m.mmapList.filter fun y => start < (m.vma y).vmEnd).filter
              (fun y => (m.vma x).vmEnd < (m.vma y).vmEnd) =
              m.mmapList.filter fun y => (m.vma x).vmEnd < (m.vma y).vmEnd := by
            rw [filter_filter]
            refine filter_congr fun y _ => ?_
            by_cases hy : (m.vma x).vmEnd < (m.vma y).vmEnd
            · simp [hy, hend.trans hy]
            · simp [hy]
          rw [← hsub]
          refine length_filter_lt_length_iff_exists.mpr ⟨x, mem_filter.mpr ⟨hmem, ?_⟩, ?_⟩
          · exact decide_eq_true hend
          · simp
        refine ih hcached (Nat.lt_of_lt_of_le hless (Nat.lt_succ_iff.mp hfuel))
          fun r m' h' hsame hrest => ?_
        refine hQ r m' h' { hsame with } ?_
        rw [hiff, hrest]
        exact (and_iff_right hpass).symm
      · have hno : ¬(m.vma x).Passes write start := of_decide_eq_false (Bool.not_eq_true _ ▸ hpass)
        exact hQ false _ hcached ⟨rfl, rfl, rfl⟩
          (iff_of_false (by simp) fun hall => hno (hiff.mp hall).1)

/-- `user_mem_check` returns, and with success if and only if the range is one of user addresses
that are all in areas that pass. -/
theorem wp_userMemCheck {Q : Bool → Spaces → Prop} (h : MmOk loose (S.mm d))
    (hQ : ∀ r m', MmOk loose m' → SameAreas (S.mm d) m' →
      (r = true ↔ UserAccess addr ((addr + len) % 2 ^ 32) ∧
        (S.mm d).PassesAll write addr ((addr + len) % 2 ^ 32)) → Q r (S.setMm d m')) :
    (userMemCheck d addr len write).wp H E Q S := by
  rw [userMemCheck]
  refine wp_if (fun hno => ?_) fun haccess => ?_
  · have hfalse := hQ false (S.mm d) h .refl (iff_of_false (by simp) fun hall => hno hall.1)
    rw [setMm_self] at hfalse
    exact hfalse
  · rw [wp_get, wp_onMm]
    refine wp_memCheckFrom h ?_ fun r m' h' hsame hiff => hQ r m' h' hsame ?_
    · rw [Mm.turns]
      exact Nat.lt_of_le_of_lt (length_filter_le _ _) (by omega)
    · rw [hiff]
      exact (and_iff_right (not_not.mp haccess)).symm

/-- `user_mem_check` returns true. -/
def Checked (S : Spaces) (d addr len : ℕ) (write : Bool) : Prop :=
  ∃ S', userMemCheck d addr len write S = .done true S'

theorem userMemCheck_done (h : MmOk loose (S.mm d)) : ∃ r S',
    userMemCheck d addr len write S = .done r S' ∧ (r = true ↔
      UserAccess addr ((addr + len) % 2 ^ 32) ∧
        (S.mm d).PassesAll write addr ((addr + len) % 2 ^ 32)) :=
  wp.returns_done (wp_userMemCheck h fun _ _ _ _ hiff => hiff)

theorem checked_iff (h : MmOk loose (S.mm d)) : Checked S d addr len write ↔
    UserAccess addr ((addr + len) % 2 ^ 32) ∧
      (S.mm d).PassesAll write addr ((addr + len) % 2 ^ 32) := by
  obtain ⟨r, S', hcall, hiff⟩ := userMemCheck_done h
  rw [← hiff]
  constructor
  · rintro ⟨S'', hcall'⟩
    exact (Outcome.done.inj (hcall.symm.trans hcall')).1
  · rintro rfl
    exact ⟨S', hcall⟩

/-- `user_mem_check` is exact: it returns true if and only if the range does not wrap and lies in
user space, every byte is in an area with the right, and for a store no byte is in the first page
of a stack. -/
theorem user_mem_check_exact (hmm : MmOk [] (S.mm d)) (hlen : len < 2 ^ 32) (hpos : 0 < len) :
    ∃ r S', userMemCheck d addr len write S = .done r S' ∧ (r = true ↔
      addr + len < 2 ^ 32 ∧ userBase ≤ addr ∧ addr + len ≤ userTop ∧
      (∀ la, addr ≤ la → la < addr + len → ∃ x ∈ (S.mm d).mmapList, ((S.mm d).vma x).In la ∧
        ((S.mm d).vma x).has (if write then vmWrite else vmRead) = true) ∧
      (write = true → ∀ la, addr ≤ la → la < addr + len → ∀ x ∈ (S.mm d).mmapList,
        ((S.mm d).vma x).has vmStack = true → ((S.mm d).vma x).vmStart ≤ la →
        ((S.mm d).vma x).vmStart + pgSize ≤ la)) := by
  obtain ⟨r, S', hcall, hiff⟩ := userMemCheck_done hmm
  refine ⟨r, S', hcall, hiff.trans ⟨?_, ?_⟩⟩
  · rintro ⟨⟨hbase, hlt, htop⟩, hall⟩
    have hmod : (addr + len) % 2 ^ 32 = addr + len := by omega
    rw [hmod] at hlt htop hall
    refine ⟨Nat.lt_of_le_of_lt htop (by decide), hbase, htop, fun la hlo hhi => ?_,
      fun hwrite la hlo hhi x hx hstack hstart => ?_⟩
    · obtain ⟨x, hx, hin, hpass⟩ := hall la hlo hhi
      exact ⟨x, hx, hin, hpass.2.1⟩
    · by_contra hguard
      have hok := hmm.ok x hx
      have hin : ((S.mm d).vma x).In la := by
        have hstart := hok.start_aligned
        have hend := hok.end_aligned
        have hlt := hok.lt
        rw [pgSize_eq] at hstart hend hguard
        exact ⟨by omega, by omega⟩
      obtain ⟨y, hy, hyin, hpass⟩ := hall la hlo hhi
      obtain rfl := hmm.eq_of_in (areas_of_mem hx) (areas_of_mem hy) hin hyin
      exact hpass.2.2 ⟨hwrite, hstack, not_le.mp hguard⟩
  · rintro ⟨hwrap, hbase, htop, hin, hguard⟩
    rw [Nat.mod_eq_of_lt hwrap]
    refine ⟨⟨hbase, by omega, htop⟩, fun la hlo hhi => ?_⟩
    obtain ⟨x, hx, hxin, hflag⟩ := hin la hlo hhi
    refine ⟨x, hx, hxin, hxin.1, hflag, ?_⟩
    rintro ⟨hwrite, hstack, hlt⟩
    exact not_le.mpr hlt (hguard hwrite la hlo hhi x hx hstack hxin.1)

/-! ## One access -/

theorem walk_eq : s.walk d la = s.entry (slot d la) := rfl

/-- What a fault of the kernel needs from the area: the address is not in the guard page of a
stack, the area is not for IO, a shared area has a shared memory that covers the address, and a
page that is there is copied before it is written. -/
structure Supplied (s : Mem) (v : Vma) (d la : ℕ) : Prop where
  guard : ¬(v.has vmStack = true ∧ la < v.vmStart + pgSize)
  io : v.has vmIo = false
  shared : s.walk d la = .none → v.has vmShare = true →
    ∃ m, v.shmem = some m ∧ v.offset (roundDown la pgSize) < (s.shmem m).len
  present : s.walk d la ≠ .none → v.cow = true

/-- An access raises no fault, or one that the area allows and for which it has what is needed. -/
def Ready (s : Mem) (v : Vma) (d la : ℕ) (write : Bool) : Prop :=
  ∀ e, (s.walk d la).kernelFault write = some e → v.allows e = true ∧ Supplied s v d la

theorem ready_of_none (h : (s.walk d la).kernelFault write = none) : Ready s v d la write :=
  fun _ he => absurd (h.symm.trans he) nofun

theorem Vma.Passes.allows {present : Bool} (h : v.Passes write la)
    (hpresent : write = false → present = false) : v.allows ⟨present, write⟩ = true := by
  obtain ⟨-, hflag, -⟩ := h
  cases write with
  | true => exact hflag
  | false =>
    rw [hpresent rfl]
    have hread : v.vmFlags &&& vmRead ≠ 0 := by simpa [Vma.has] using hflag
    show (v.vmFlags &&& (vmRead ||| vmExec) != 0) = true
    rw [bne_iff_ne]
    intro hzero
    refine hread ?_
    have hsub : v.vmFlags &&& vmRead = (v.vmFlags &&& (vmRead ||| vmExec)) &&& vmRead := by
      rw [BitVec.and_assoc]
      rfl
    rw [hsub, hzero]
    rfl

/-- Accesses to one page of an area are alike. -/
theorem Ready.page {la' : ℕ} (h : Ready s v d la write) (hok : v.Ok)
    (hpage : la / pgSize = la' / pgSize) : Ready s v d la' write := by
  have hwalk : s.walk d la' = s.walk d la := by
    rw [walk_eq, walk_eq, slot_eq_of_page hpage]
  have hround : roundDown la' pgSize = roundDown la pgSize := by
    rw [pgSize_eq] at hpage
    rw [roundDown, roundDown, pgSize_eq]
    omega
  intro e he
  rw [hwalk] at he
  obtain ⟨hallows, hguard, hio, hshared, hpresent⟩ := h e he
  refine ⟨hallows, ?_, hio, ?_, ?_⟩
  · rintro ⟨hstack, hlt⟩
    have hstart := hok.start_aligned
    refine hguard ⟨hstack, ?_⟩
    rw [pgSize_eq] at hpage hstart hlt ⊢
    omega
  · rw [hwalk, hround]
    exact hshared
  · rw [hwalk]
    exact hpresent

/-- What `Ready` depends on. -/
theorem ready_congr (hwalk : s'.walk d la = s.walk d la)
    (hlen : ∀ m, (s'.shmem m).len = (s.shmem m).len) :
    Ready s' v d la write ↔ Ready s v d la write := by
  have hsupplied : Supplied s' v d la ↔ Supplied s v d la := by
    constructor <;> rintro ⟨hguard, hio, hshared, hpresent⟩ <;>
      refine ⟨hguard, hio, ?_, ?_⟩ <;> simp only [hwalk, hlen] at * <;> assumption
  rw [Ready, Ready, hwalk, hsupplied]

/-- What accesses keep. -/
structure Upheld (hand : Finset ℕ) (loose : List ℕ) (d : ℕ) (S S' : Spaces) : Prop where
  mem : MemOk hand S'.mem
  mm : MmOk loose (S'.mm d)
  areas : SameAreas (S.mm d) (S'.mm d)
  len : ∀ m, (S'.mem.shmem m).len = (S.mem.shmem m).len

/-- A state that accesses have led to: the accesses to a page whose entry has changed were
ready. -/
structure Tracks (hand : Finset ℕ) (loose : List ℕ) (d : ℕ) (write : Bool) (S S' : Spaces) :
    Prop extends Upheld hand loose d S S' where
  walk : ∀ x ∈ (S.mm d).mmapList, ∀ la, ((S.mm d).vma x).In la →
    S'.mem.walk d la = S.mem.walk d la ∨ (S'.mem.walk d la).kernelFault write = none ∧
      Ready S.mem ((S.mm d).vma x) d la write

theorem Tracks.refl (hmem : MemOk hand S.mem) (hmm : MmOk loose (S.mm d)) :
    Tracks hand loose d write S S :=
  ⟨⟨hmem, hmm, .refl, fun _ => rfl⟩, fun _ _ _ _ => .inl rfl⟩

/-- The cache of the areas does not matter. -/
theorem Tracks.setMm {m' : Mm} (h : Tracks hand loose d write S S') (hm' : MmOk loose m')
    (hsame : SameAreas (S'.mm d) m') : Tracks hand loose d write S (S'.setMm d m') := by
  refine ⟨⟨h.mem, ?_, ?_, h.len⟩, h.walk⟩
  · rw [mm_setMm_self]
    exact hm'
  · rw [mm_setMm_self]
    exact h.areas.trans hsame

theorem Tracks.ready (h : Tracks hand loose d write S S') (hx : x ∈ (S.mm d).mmapList)
    (hin : ((S.mm d).vma x).In la) : Ready S'.mem ((S.mm d).vma x) d la write ↔
      Ready S.mem ((S.mm d).vma x) d la write := by
  rcases h.walk x hx la hin with heq | ⟨hnone, hready⟩
  · exact ready_congr heq h.len
  · exact iff_of_true (ready_of_none hnone) hready

theorem Tracks.eq_of_in {y : ℕ} (h : Tracks hand loose d write S S') (hx : x ∈ (S.mm d).mmapList)
    (hy : y ∈ (S.mm d).mmapList) (hinx : ((S.mm d).vma x).In la) (hiny : ((S.mm d).vma y).In la) :
    x = y := by
  have hareas := h.areas.areas
  exact h.mm.eq_of_in (hareas ▸ areas_of_mem hx) (hareas ▸ areas_of_mem hy) hinx hiny

/-- The area of two pages with other flags. -/
def areaWith (vmFlags : Flags) : Mm := oneArea.setVma 7 fun v => { v with vmFlags }

theorem mmOk_areaWith {vmFlags : Flags} : MmOk [] (areaWith vmFlags) := by
  have hok := mmOk_oneArea.ok 7 (.head _)
  exact mmOk_oneArea.setVma (fun _ => { hok with }) (fun _ => rfl) (pairwise_singleton _ _)

/-- An address space with a stack of two pages, the first of which is its guard page. -/
def oneStack : Mm := areaWith (vmRead ||| vmWrite ||| vmStack)

theorem mmOk_oneStack : MmOk [] oneStack := mmOk_areaWith

/-- A store that begins in the guard page does not pass. -/
theorem user_mem_check_exact_guard : ∃ S',
    userMemCheck 0 0x30000FFC 8 true ⟨emptyMem, fun _ => oneStack⟩ = .done false S' := by
  obtain ⟨r, S', hcall, hiff⟩ := @user_mem_check_exact ⟨emptyMem, fun _ => oneStack⟩ true 0
    0x30000FFC 8 mmOk_oneStack (by decide) (by decide)
  have hr : ¬r = true := fun htrue => by
    obtain ⟨-, -, -, -, hguard⟩ := hiff.mp htrue
    exact absurd (hguard rfl 0x30000FFC le_rfl (by decide) 7 mem_cons_self rfl (by decide))
      (by decide)
  rw [Bool.not_eq_true] at hr
  exact ⟨S', hr ▸ hcall⟩

end Ucore.Vm
