import Ucore.Vm.Exit
import Ucore.Vm.Faults
import Ucore.Vm.Fork
import Ucore.Vm.Mapping
import Ucore.Vm.System

/-!
# What the calls keep

Every call keeps the lists of areas and the page tables in order, and every page of a directory
in an area. What a call does to shared areas is said beside it: they become smaller or
disappear, or they are new where there was nothing, and the counts of their shared memories
follow, unless a hole is cut into one of them.
-/

namespace Ucore.Vm

open Kern Function List Option

variable {H : Prop} {S S' : Spaces} {k k' : Sys} {s s' : Mem} {m m' : Mm}
  {d e la addr len start fin : ℕ} {calm : Prop} {vmFlags : Flags} {E : Err → Sys → Prop}
  {names : ℕ × ℕ → Option ℕ} {n : ℤ} {alloc : ℕ → Option ℕ} {new : Option ℕ} {runs : Heap ℕ}

/-! ## Invariants -/

/-- The areas and the page tables of all address spaces are in order. -/
structure SpacesOk (S : Spaces) : Prop where
  mem : MemOk ∅ S.mem
  mm : ∀ d, MmOk [] (S.mm d)
  backed : ∀ d, Backed S.mem (S.mm d) d

structure SysOk (k : Sys) : Prop where
  spaces : SpacesOk k.spaces
  unused : ∀ d, (k.spaces.mm d).mmCount = 0 → (k.spaces.mm d).Blank
  dirs : k.runs.live.Nodup
  dir : ∀ d, (k.pgdirAlloc d).isSome ↔ 0 < (k.spaces.mm d).mmCount

/-- The shared memories that the areas of all address spaces name. -/
def Spaces.shares (S : Spaces) (p : ℕ × ℕ) : Option ℕ := ((S.mm p.1).share p.2).bind Vma.shmem

/-- What a call does to shared areas. -/
structure ShareStep (S S' : Spaces) : Prop where
  refs : RefsOk S.shares S.mem → RefsOk S'.shares S'.mem
  /-- An area is a part of what it was, or it is new and has the shared memory of another area
  or one that is new too. -/
  views : ∀ d x v, (S'.mm d).share x = some v → (∃ u, (S.mm d).share x = some u ∧ u.CutTo v) ∨
    ((∀ la, v.vmStart ≤ la → la < v.vmEnd → (S.mm d).flagsAt la = none) ∧
      (v.shmem.isSome ∨ ∃ e y u, (S.mm e).share y = some u ∧ v.shmem = u.shmem))

theorem Backed.mono (h : Backed s m d)
    (hentry : ∀ i j, s'.entry (.dir d i, j) ≠ .none → s.entry (.dir d i, j) ≠ .none)
    (hflags : ∀ la, (m.flagsAt la).isSome → (m'.flagsAt la).isSome) : Backed s' m' d := by
  intro i j hne
  obtain ⟨la, hslot, hsome⟩ := h i j (hentry i j hne)
  exact ⟨la, hslot, hflags la hsome⟩

/-- What holds of the changed address space and of the others. -/
theorem forall_mm_set {P : ℕ → Mm → Prop} (hself : P d m') (hother : ∀ e, e ≠ d → P e (S.mm e)) :
    ∀ e, P e ((S.put d m' s').mm e) :=
  (forall_update_iff S.mm (p := P)).mpr ⟨hself, hother⟩

/-- One address space and the memory change. -/
theorem SpacesOk.set (h : SpacesOk S) (hmem : MemOk ∅ s') (hmm : MmOk [] m')
    (hback : Backed s' m' d)
    (hother : ∀ e i j, e ≠ d → s'.entry (.dir e i, j) = S.mem.entry (.dir e i, j)) :
    SpacesOk (S.put d m' s') := by
  refine ⟨hmem, forall_mm_set hmm fun e _ => h.mm e,
    forall_mm_set (P := fun e m => Backed s' m e) hback fun e he => ?_⟩
  refine (h.backed e).mono (fun i j hne => ?_) fun la hla => hla
  rw [← hother e i j he]
  exact hne

/-- A call changes one address space, whose count stays. -/
structure Advance (S S' : Spaces) (d : ℕ) (calm : Prop) : Prop where
  ok : SpacesOk S'
  share : calm → ShareStep S S'
  mm : ∀ e, e ≠ d → S'.mm e = S.mm e
  count : (S'.mm d).mmCount = (S.mm d).mmCount

/-- One address space and its directory change. -/
theorem SysOk.set (h : SysOk k) (hspaces : SpacesOk k'.spaces)
    (hmm : ∀ e, e ≠ d → k'.spaces.mm e = k.spaces.mm e)
    (hunused : (k'.spaces.mm d).mmCount = 0 → (k'.spaces.mm d).Blank) (hdirs : k'.runs.live.Nodup)
    (halloc : ∀ e, e ≠ d → k'.pgdirAlloc e = k.pgdirAlloc e)
    (hdir : (k'.pgdirAlloc d).isSome ↔ 0 < (k'.spaces.mm d).mmCount) : SysOk k' := by
  have hcases : ∀ {P : ℕ → Prop}, P d → (∀ e, e ≠ d → P e) → ∀ e, P e := fun hd ho e =>
    (eq_or_ne e d).elim (fun he => he ▸ hd) (ho e)
  refine ⟨hspaces, hcases hunused fun e he => ?_, hdirs, hcases hdir fun e he => ?_⟩
  · rw [hmm e he]
    exact h.unused e
  · rw [hmm e he, halloc e he]
    exact h.dir e

/-- An address space gets a count, and has a directory. -/
theorem SysOk.counted (h : SysOk k) (hspaces : SpacesOk (S.setMm d { S.mm d with mmCount := n }))
    (hmm : ∀ e, e ≠ d → S.mm e = k.spaces.mm e) (hn : 0 < n) (hdirs : runs.live.Nodup)
    (halloc : ∀ e, e ≠ d → alloc e = k.pgdirAlloc e) (hsome : (alloc d).isSome) :
    SysOk ⟨S.setMm d { S.mm d with mmCount := n }, runs, alloc⟩ := by
  refine h.set hspaces (fun e he => (mm_setMm_of_ne he).trans (hmm e he)) ?_ hdirs halloc ?_
  · rw [mm_setMm_self]
    exact fun hzero => absurd hzero hn.ne'
  · rw [mm_setMm_self]
    exact iff_of_true hsome hn

/-- An address space has ended. -/
theorem SysOk.blanked (h : SysOk k) (hspaces : SpacesOk (S.put d m' s'))
    (hmm : ∀ e, e ≠ d → S.mm e = k.spaces.mm e) (hblank : m'.Blank) (hcount : m'.mmCount = 0)
    (hdirs : runs.live.Nodup) (halloc : ∀ e, e ≠ d → alloc e = k.pgdirAlloc e)
    (hnone : alloc d = none) : SysOk ⟨S.put d m' s', runs, alloc⟩ := by
  have hself : (S.put d m' s').mm d = m' := mm_setMm_self
  refine h.set hspaces (fun e he => (mm_setMm_of_ne he).trans (hmm e he)) (fun _ => ?_) hdirs
    halloc ?_
  · rw [hself]
    exact hblank
  · show (alloc d).isSome ↔ _
    rw [hself, hcount, hnone]
    decide

theorem SysOk.alloc_none (h : SysOk k) (hd : k.Unused d) : k.pgdirAlloc d = none := by
  have hdir := h.dir d
  rw [hd.count] at hdir
  simpa using hdir

theorem SysOk.advance (h : SysOk k) (hused : k.Used d) (hadvance : Advance k.spaces S' d calm) :
    SysOk { k with spaces := S' } := by
  refine h.set hadvance.ok hadvance.mm (fun hzero => ?_) h.dirs (fun _ _ => rfl) ?_
  · rw [hadvance.count] at hzero
    rw [Sys.Used] at hused
    omega
  · rw [hadvance.count]
    exact h.dir d

theorem Moves.shares (h : Moves S.mem s' d (S.mm d).naming m'.naming)
    (hrefs : RefsOk S.shares S.mem) : RefsOk (S.put d m' s').shares s' := by
  refine h _ _ hrefs (fun _ => rfl) (fun x => ?_) fun e x he => ?_
  · rw [Spaces.shares, mm_put_self]
    rfl
  · rw [Spaces.shares, mm_put_of_ne he, Spaces.shares]

theorem ShareStep.of_shrunk (h : Shrunk (S.mm d) m' S.mem s' d) : ShareStep S (S.put d m' s') :=
  ⟨h.refs.shares, fun e x v hv => .inl <| forall_mm_set (P := fun e m => m.share x = some v →
    ∃ u, (S.mm e).share x = some u ∧ u.CutTo v) (h.share x v) (fun _ _ hv => ⟨v, hv, .refl v⟩) e hv⟩

theorem ShareStep.of_eq (hshare : m'.share = (S.mm d).share) : ShareStep S (S.setMm d m') :=
  have hshrunk : Shrunk (S.mm d) m' S.mem S.mem d := .of_eq hshare fun _ hrefs => hrefs
  .of_shrunk hshrunk

/-- One address space and the memory change, and its count stays. -/
theorem SpacesOk.advance (h : SpacesOk S) (hmem : MemOk ∅ s') (hmm : MmOk [] m')
    (hback : Backed s' m' d)
    (hother : ∀ e i j, e ≠ d → s'.entry (.dir e i, j) = S.mem.entry (.dir e i, j))
    (hcount : m'.mmCount = (S.mm d).mmCount) (hshare : calm → ShareStep S (S.put d m' s')) :
    Advance S (S.put d m' s') d calm :=
  ⟨h.set hmem hmm hback hother, hshare, fun _ => mm_setMm_of_ne, mm_put_self.symm ▸ hcount⟩

theorem share_of_areas (h : m'.areas = m.areas) : m'.share = m.share :=
  funext fun x => share_congr (congrFun h x)

theorem isSome_of_areas (h : m'.areas = m.areas) (hla : (m.flagsAt la).isSome) :
    (m'.flagsAt la).isSome := by
  rw [flagsAt_isSome] at hla ⊢
  rw [h]
  exact hla

theorem SpacesOk.advance_areas (h : SpacesOk S) (hmm : MmOk [] m') (hsame : SameAreas (S.mm d) m') :
    Advance S (S.setMm d m') d calm :=
  h.advance h.mem hmm ((h.backed d).mono (fun _ _ => id) fun _ => isSome_of_areas hsame.areas)
    (fun _ _ _ _ => rfl) hsame.mmCount fun _ => .of_eq (share_of_areas hsame.areas)

/-! ## Calls on one address space -/

/-- What a call on one address space may do. -/
def Advances (c : SpacesM Unit) (S : Spaces) (d : ℕ) (H calm : Prop) : Prop :=
  c.wp H (fun e S' => e ≠ .nullAccess → Advance S S' d calm) (fun _ S' => Advance S S' d calm) S

theorem advances_map (h : SpacesOk S) :
    Advances (onMm d (mmMap addr len vmFlags) >>= fun _ => pure ()) S d False True := by
  rw [Advances, wp_bind, wp_onMm]
  refine wp_mmMap (h.mm d) (fun m' e hmm' hsame _ _ => h.advance_areas hmm' hsame)
    fun m' z hmm' _ hmapped => ?_
  refine h.advance h.mem hmm' ((h.backed d).mono (fun _ _ => id) fun la =>
    flagsAt_grows hmapped.areas hmapped.fresh) (fun _ _ _ _ => rfl) hmapped.mmCount
    fun _ => .of_eq ?_
  funext x
  by_cases hx : x = z
  · rw [hx, share_eq_none fun u hu => absurd (hmapped.fresh.symm.trans hu) (by simp),
      share_eq_none fun v hv => ?_]
    rw [hmapped.areas, update_self] at hv
    cases hv
    simp [Vma.has, BitVec.and_assoc]
  · exact share_congr (by rw [hmapped.areas, update_of_ne hx])

theorem advances_find (h : SpacesOk S) :
    Advances (onMm d (findVma addr) >>= fun _ => pure ()) S d False True := by
  rw [Advances, wp_bind, wp_onMm]
  refine wp_findVma (h.mm d) (fun _ => ?_) fun x hx => ?_
  · exact h.advance_areas (h.mm d) .refl
  · exact h.advance_areas ((h.mm d).cached (mem_of_firstAfter hx).1) ⟨rfl, rfl, rfl⟩

/-- A range has been removed. -/
theorem SpacesOk.advance_removed (h : SpacesOk S) (hmem : MemOk ∅ s') (hmm : MmOk [] m')
    (hremoved : Removed (S.mm d) m s s' d start fin) (hs : s = S.mem)
    (hgrows : ∀ la, (m.flagsAt la).isSome → (m'.flagsAt la).isSome)
    (hcount : m'.mmCount = (S.mm d).mmCount) (hshrunk : calm → Shrunk (S.mm d) m' S.mem s' d) :
    Advance S (S.put d m' s') d calm := by
  subst hs
  refine h.advance hmem hmm (fun i j hne => ?_)
    (fun e i j he => hremoved.slots.kept e i j fun la _ => dir_ne_slot he) hcount
    fun hcalm => .of_shrunk (hshrunk hcalm)
  -- a page that is left is outside of the range, and has its area
  have hslots : ∀ la, start ≤ la ∧ la < fin ∧ ((S.mm d).flagsAt la).isSome →
      ((.dir d i, j) : Slot) ≠ slot d la := by
    intro la hla heq
    rw [heq] at hne
    exact hne (hremoved.slots.cleared la hla)
  rw [hremoved.slots.kept d i j hslots] at hne
  obtain ⟨la, hslot, hsome⟩ := h.backed d i j hne
  refine ⟨la, hslot, hgrows la ?_⟩
  rw [hremoved.flags, if_neg fun hin => hslots la ⟨hin.1, hin.2, hsome⟩ hslot]
  exact hsome

theorem advances_unmap (h : SpacesOk S) : Advances (mmUnmap d addr len) S d False
    ¬(S.mm d).SharedHole (roundDown addr pgSize) (reqEnd addr len) := by
  refine wp_mmUnmap h.mem (h.mm d) (fun _ _ _ _ _ _ => absurd rfl)
    (fun m' e hmm' hsame _ _ => h.advance_areas hmm' hsame) fun m' s' hmem' hmm' _ hremoved => ?_
  exact h.advance_removed hmem' hmm' hremoved rfl (fun _ hla => hla) hremoved.mmCount
    hremoved.shrunk

theorem advances_brk (h : SpacesOk S) : Advances (mmBrk d addr len) S d False
    ¬(S.mm d).SharedHole (roundDown addr pgSize) (reqEnd addr len) := by
  refine wp_mmBrk h.mem (h.mm d) (fun _ => absurd rfl)
    (fun m' e hmm' hsame _ => h.advance_areas hmm' hsame)
    (fun m' s' hmem' hmm' hremoved _ => ?_)
    fun m₁ m' s' hmem' hmm' hremoved hgrown hcount hflags => ?_
  · exact h.advance_removed hmem' hmm' hremoved rfl (fun _ hla => hla) hremoved.mmCount
      hremoved.shrunk
  · refine h.advance_removed hmem' hmm' hremoved rfl (fun la hla => ?_) hcount
      fun hhole => (hremoved.shrunk hhole).of_share hgrown.share
    rw [hremoved.flags] at hla
    rw [hflags]
    split_ifs at hla ⊢
    · rfl
    · exact hla

theorem FaultFailed.refs (h : FaultFailed s s') (hrefs : RefsOk names s) : RefsOk names s' :=
  hrefs.keep (fun m => ⟨(h.attr m).2, (h.attr m).1⟩) h.blank

theorem Faulted.refs {v : Vma} {f : ℕ} (h : Faulted s s' d la v f) (hrefs : RefsOk names s) :
    RefsOk names s' :=
  hrefs.keep (fun m => ⟨(h.attr m).2.1, (h.attr m).1⟩) fun m => (h.attr m).2.2

theorem advances_fault {c : FaultCode} (h : SpacesOk S) :
    Advances (doPgfault d c addr) S d True True := by
  refine wp_doPgfault (h.mm d) (fun m' hmm' hsame _ _ => h.advance_areas hmm' hsame)
    fun x m' hmm' hsame hx htakes => ?_
  obtain ⟨hmem, hend⟩ := mem_of_firstAfter hx
  have hok := (h.mm d).ok x hmem
  have hareas := hsame.areas
  have hin : ((S.mm d).vma x).In (roundDown addr pgSize) := by
    have hstart := hok.start_aligned
    have hle := htakes.1
    rw [Vma.In, roundDown]
    rw [pgSize_eq] at hstart ⊢
    omega
  have hadvance : ∀ s', MemOk ∅ s' → (∀ e i j, ((.dir e i, j) : Slot) ≠
      slot d (roundDown addr pgSize) → s'.entry (.dir e i, j) = S.mem.entry (.dir e i, j)) →
      (∀ names, RefsOk names S.mem → RefsOk names s') →
      Advance S (S.put d m' s') d True := by
    intro s' hmem' hentry hrefs
    refine h.advance hmem' hmm' (fun i j hne => ?_) (fun e i j he => hentry e i j (dir_ne_slot he))
      hsame.mmCount fun _ => .of_shrunk (.of_eq (share_of_areas hareas) hrefs)
    by_cases hslot : ((.dir d i, j) : Slot) = slot d (roundDown addr pgSize)
    · refine ⟨_, hslot, isSome_of_areas hareas ?_⟩
      exact flagsAt_isSome.mpr ⟨x, _, areas_of_mem hmem, hin⟩
    · rw [hentry d i j hslot] at hne
      obtain ⟨la, hla, hsome⟩ := h.backed d i j hne
      exact ⟨la, hla, isSome_of_areas hareas hsome⟩
  refine wp_fault h.mem (.inl trivial) (fun _ _ _ _ _ _ => absurd rfl)
    (fun s' hmem' hfailed _ => ?_) fun s' f hmem' hfaulted => ?_
  · exact hadvance s' hmem' (fun e i j _ => hfailed.dir e i j) fun _ => hfailed.refs
  · exact hadvance s' hmem' (fun e i j => hfaulted.entry_dir) fun _ hrefs =>
      hfaulted.refs hrefs

/-! ## Shared memory -/

theorem has_share_or {v : Vma} (hflags : v.vmFlags = vmFlags ||| vmShare) :
    v.has vmShare = true := by
  have hand : (vmFlags ||| vmShare) &&& vmShare = vmShare := by
    ext i hi
    rw [BitVec.getElem_and, BitVec.getElem_or]
    cases vmShare[i] <;> simp
  rw [Vma.has, hflags, hand]
  decide

/-- A new shared area, with a reference to its shared memory. -/
theorem SpacesOk.advance_shared {z i : ℕ} (h : SpacesOk S) (hmm : MmOk [] m')
    (hmapped : MappedShared (S.mm d) m' z start fin vmFlags i) (hmem : MemOk ∅ s')
    (hdir : ∀ e i j, s'.entry (.dir e i, j) = S.mem.entry (.dir e i, j))
    (hother : ∀ j, j ≠ i → s'.shmem j = S.mem.shmem j) (hlen : (s'.shmem i).len ≠ 0)
    (href : (s'.shmem i).ref = (S.mem.shmem i).ref + 1) :
    Advance S (S.put d m' s') d calm := by
  have hz : m'.share z = some ⟨start, fin, vmFlags ||| vmShare, some i, 0, true⟩ := by
    refine share_eq_some.mpr ⟨?_, has_share_or rfl⟩
    rw [hmapped.areas, update_self]
  refine h.advance hmem hmm ((h.backed d).mono (fun i j hne => ?_)
    fun la => flagsAt_grows hmapped.areas hmapped.fresh) (fun e i j _ => hdir e i j)
    hmapped.mmCount fun _ => ⟨Moves.shares ?_, fun e x v hv => ?_⟩
  · rw [← hdir]
    exact hne
  · have hnamed : Vma.named ⟨start, fin, vmFlags ||| vmShare, some i, 0, true⟩ = some i :=
      if_pos (has_share_or rfl)
    rw [naming_update hmapped.areas, bind_some, hnamed]
    refine moves_update fun names p hrefs hp => hrefs.take (hp.trans ?_) hother hlen href
    rw [naming_eq, hmapped.fresh, bind_none]
  · revert e
    refine forall_mm_set (P := fun e m => m.share x = some v → _) (fun hv => ?_)
      fun _ _ hv => .inl ⟨v, hv, .refl v⟩
    rcases eq_or_ne x z with rfl | hxz
    · rw [hz] at hv
      cases hv
      exact .inr ⟨fun la => hmapped.free.flagsAt, .inl rfl⟩
    · rw [share_congr (m := S.mm d) (by rw [hmapped.areas, update_of_ne hxz])] at hv
      exact .inl ⟨v, hv, .refl v⟩

theorem advances_mapShmem {shmem : Option ℕ} (h : SpacesOk S)
    (hlen : ∀ i ∈ shmem, (S.mem.shmem i).len ≠ 0) :
    Advances (mmMapShmem d addr vmFlags shmem) S d False True := by
  refine wp_mmMapShmem (h.mm d) (fun m' e hmm' hsame _ _ => h.advance_areas hmm' hsame)
    fun m' z i hshmem hmm' _ _ hmapped => ?_
  refine h.advance_shared hmm' hmapped (h.mem.withRef i _) (fun e i j => ?_)
    (fun j => shmem_withRef_of_ne) ?_ ?_
  · rw [entry_withRef]
  · rw [(shmem_withRef i).2.2]
    exact hlen i hshmem
  · rw [shmem_withRef_self]

section

variable {α : Type} {E : Err → Sys → Prop} {Q : α → Sys → Prop}

theorem wp_onSpaces {c : SpacesM α} : (onSpaces c).wp H E Q k ↔
    c.wp H (fun e v => E e { k with spaces := v }) (fun a v => Q a { k with spaces := v })
      k.spaces := wp_zoom

theorem wp_orUndo {c : SysM α} {undo : SysM Unit}
    (hc : c.wp H (fun e k' => (e = .nullAccess → E e k') ∧
      (e ≠ .nullAccess → undo.wp H E (fun _ => E e) k')) Q k) :
    (orUndo c undo).wp H E Q k := by
  rw [orUndo, wp_bind, wp_attempt]
  refine hc.mono (fun e k' he => ?_) fun a k' ha => ha
  cases e with
  | nullAccess => exact he.1 rfl
  | inval | noMem => exact wp_seq (he.2 (by simp))

end

/-- What a call may do to all address spaces. -/
def Keeps (c : SysM Unit) (k : Sys) (H calm : Prop) : Prop :=
  c.wp H (fun e k' => e ≠ .nullAccess → SysOk k' ∧ (calm → ShareStep k.spaces k'.spaces))
    (fun _ k' => SysOk k' ∧ (calm → ShareStep k.spaces k'.spaces)) k

theorem Advances.keeps {c : SpacesM Unit} (h : SysOk k) (hused : k.Used d)
    (hc : Advances c k.spaces d H calm) : Keeps (onSpaces c) k H calm := by
  rw [Keeps, wp_onSpaces]
  exact hc.mono (fun e S' hadvance hne => ⟨h.advance hused (hadvance hne), (hadvance hne).share⟩)
    fun _ S' hadvance => ⟨h.advance hused hadvance, hadvance.share⟩

/-- `do_shmem` maps a new shared memory, or leaves everything as it was. -/
theorem wp_doShmem {write stack : Bool} {Q : Unit → Sys → Prop} (h : SpacesOk k.spaces)
    (hnew : ∀ i ∈ new, k.spaces.mem.shmem i = ⟨[], none, 0, 0⟩)
    (hE : ∀ e m' s', e = .inval ∨ e = .noMem → MmOk [] m' → SameAreas (k.spaces.mm d) m' →
      MemOk ∅ s' → s'.shmem = k.spaces.mem.shmem →
      (∀ e i j, s'.entry (.dir e i, j) = k.spaces.mem.entry (.dir e i, j)) →
      E e { k with spaces := k.spaces.put d m' s' })
    (hQ : ∀ m' z i place size s', i ∈ new → place = (k.spaces.mm d).reqPlace addr len →
      size = reqSize addr len → place ≠ 0 → MmOk [] m' → place % pgSize = 0 →
      UserAccess (roundDown place pgSize) (reqEnd place size) →
      MappedShared (k.spaces.mm d) m' z (roundDown place pgSize) (reqEnd place size)
        (shmemFlags write stack &&& ~~~vmShare) i → MemOk ∅ s' → s'.shmem i = ⟨[], none, size, 1⟩ →
      (∀ j, j ≠ i → s'.shmem j = k.spaces.mem.shmem j) →
      (∀ e i j, s'.entry (.dir e i, j) = k.spaces.mem.entry (.dir e i, j)) →
      Q () { k with spaces := k.spaces.put d m' s' }) :
    (doShmem d addr len write stack new).wp H E Q k := by
  have hfail : ∀ e, e = .inval ∨ e = .noMem → E e k := by
    intro e he
    have hsame := hE e (k.spaces.mm d) k.spaces.mem he (h.mm d) .refl h.mem rfl fun _ _ _ => rfl
    rw [put_self] at hsame
    exact hsame
  rw [doShmem]
  refine wp_if (fun _ => hfail _ (.inl rfl)) fun _ => ?_
  rw [wp_get]
  dsimp only
  generalize hsize : (reqEnd addr len + 2 ^ 32 - roundDown addr pgSize) % 2 ^ 32 = size
  generalize hplace : (if roundDown addr pgSize = 0 then getUnmappedArea (k.spaces.mm d) size
    else roundDown addr pgSize) = place
  cases hfilter : new.filter fun _ => place ≠ 0 with
  | none => exact hfail _ (.inr rfl)
  | some i =>
    obtain ⟨hi, hne⟩ := filter_eq_some_iff.mp hfilter
    have hblank := hnew i hi
    rw [wp_bind, wp_onSpaces, wp_onMem, shmemCreate, modifyShmem, wp_modify]
    have hmem := h.mem.shmemCreate i size (by rw [hblank])
    generalize hs₁ : ({ k.spaces.mem with
      shmem := update k.spaces.mem.shmem i ⟨[], none, size, 0⟩ } : Mem) = s₁ at *
    have hself : s₁.shmem i = ⟨[], none, size, 0⟩ := by
      rw [← hs₁]
      exact update_self ..
    have hother : ∀ j, j ≠ i → s₁.shmem j = k.spaces.mem.shmem j := by
      intro j hj
      rw [← hs₁]
      exact update_of_ne hj ..
    have hdir : ∀ e i j, s₁.entry (.dir e i, j) = k.spaces.mem.entry (.dir e i, j) := by
      intro e i j
      rw [← hs₁]
      rfl
    refine wp_orUndo ?_
    rw [wp_onSpaces]
    refine wp_mmMapShmem (h.mm d) (fun m' e hmm' hsame he => ⟨fun hnull => ?_, fun _ => ?_⟩)
      fun m' z j hj hmm' haccess halign hmapped => ?_
    · rw [hnull] at he
      exact absurd he (by simp)
    · -- the shared memory that could not be mapped is destroyed again
      refine wp_check (by show (s₁.shmem i).ref = 0; rw [hself]) ?_
      rw [wp_onSpaces, wp_onMem]
      refine wp_shmemDestroy hmem fun s' hmem' hentry hgone _ hkept =>
        hE e m' s' he hmm' hsame hmem' ?_ fun e' i' j' => ?_
      · funext j
        by_cases hj : j = i
        · rw [hj, hgone, hblank]
        · exact (hkept j hj).trans (hother j hj)
      · rcases hentry (.dir e' i', j') with ⟨-, start, hstart⟩ | heq
        · cases hstart
        · exact heq.trans (hdir e' i' j')
    · cases hj
      rw [mem_setMem, hself] at haccess hmapped
      refine hQ m' z i place size (s₁.withRef i ((s₁.shmem i).ref + 1)) hi ?_ hsize.symm
        (by simpa using hne) hmm' halign haccess hmapped (hmem.withRef i _) ?_
        (fun j hj => (shmem_withRef_of_ne hj).trans (hother j hj)) fun e' i' j' => ?_
      · rw [← hplace, ← hsize]
        rfl
      · rw [Mem.withRef]
        dsimp only
        rw [update_self, hself]
        rfl
      · exact hdir e' i' j'

theorem keeps_shmem {write stack : Bool} (h : SysOk k) (hused : k.Used d)
    (hnew : ∀ i ∈ new, k.spaces.mem.shmem i = ⟨[], none, 0, 0⟩) :
    Keeps (doShmem d addr len write stack new) k False True := by
  refine wp_doShmem h.spaces hnew (fun e m' s' _ hmm' hsame hmem' hshmem hdir _ => ?_)
    fun m' z i place size s' hi _ _ _ hmm' halign haccess hmapped hmem' hself hother hdir => ?_
  · have hadvance : Advance k.spaces (k.spaces.put d m' s') d True := by
      refine h.spaces.advance hmem' hmm' ((h.spaces.backed d).mono (fun i' j' hne => ?_)
        fun la => isSome_of_areas hsame.areas) (fun e' i' j' _ => hdir e' i' j') hsame.mmCount
        fun _ => .of_shrunk (.of_eq (share_of_areas hsame.areas) fun _ hrefs => hrefs.same hshmem)
      rw [← hdir]
      exact hne
    exact ⟨h.advance hused hadvance, hadvance.share⟩
  · have hsize : size ≠ 0 := by
      rintro rfl
      have hlt := haccess.lt
      rw [roundDown_aligned halign, reqEnd, roundUp, roundDown] at hlt
      rw [pgSize_eq] at hlt halign
      omega
    have hadvance : Advance k.spaces (k.spaces.put d m' s') d True := by
      refine h.spaces.advance_shared hmm' hmapped hmem' hdir hother ?_ ?_
      · rw [hself]
        exact hsize
      · rw [hself, hnew i hi]
        rfl
    exact ⟨h.advance hused hadvance, hadvance.share⟩

/-! ## Directories -/

section

variable {E : Err → Sys → Prop} {Q : Unit → Sys → Prop}

/-- An unused number needs no work to become a new structure. -/
theorem Mm.Blank.create (h : m.Blank) (hcount : m.mmCount = 0) : ({ m with
    mmapList := [], mmapTree := none, mmapCache := none, mapCount := 0, mmCount := 0 } : Mm) =
    m := by
  obtain ⟨hlist, htree, hcache, hmap, -⟩ := h
  cases m
  simp_all

theorem wp_mmCreate (h : SysOk k) (hd : k.Unused d) (hQ : Q () k) :
    (onSpaces (mmCreate d)).wp H E Q k := by
  rw [wp_onSpaces, mmCreate, wp_onMm, wp_modify, (h.unused d hd.count).create hd.count, setMm_self]
  exact hQ

/-- `setup_pgdir` for a directory that has no tables. -/
theorem wp_setupPgdir (htables : ∀ i, k.spaces.mem.pgdir d i = none)
    (hE : ∀ runs', runs'.live = k.runs.live → E .noMem { k with runs := runs' })
    (hQ : ∀ runs' a, a ∉ k.runs.live → runs'.live = a :: k.runs.live →
      Q () { k with runs := runs', pgdirAlloc := update k.pgdirAlloc d (some a) }) :
    (setupPgdir d).wp H E Q k := by
  have hpgdir : update k.spaces.mem.pgdir d (fun _ => none) = k.spaces.mem.pgdir := by
    rw [← update_eq_self d k.spaces.mem.pgdir, update_idem]
    congr 1
    funext i
    exact (htables i).symm
  rw [setupPgdir, wp_bind, wp_zoom]
  refine Heap.wp_alloc (fun runs' _ => hE runs') fun a runs' ha hlive => ?_
  rw [wp_put, wp_onSpaces, wp_onMem, wp_modify]
  rw [hpgdir]
  exact hQ runs' a ha hlive

end

/-- An address space without areas has no pages. -/
theorem SpacesOk.empty (h : SpacesOk S) (hblank : (S.mm d).Blank) (i j : ℕ) :
    S.mem.entry (.dir d i, j) = .none := by
  by_contra hne
  obtain ⟨la, -, hsome⟩ := h.backed d i j hne
  rw [hblank.flagsAt] at hsome
  cases hsome

/-- A call that begins with a new address space and its directory. -/
theorem wp_withDir {c : SysM Unit} {Q : Unit → Sys → Prop} (h : SysOk k) (hd : k.Unused d)
    (hE : ∀ k', SysOk k' → ShareStep k.spaces k'.spaces → E .noMem k')
    (hQ : ∀ runs' a, runs'.live.Nodup →
      c.wp H E Q { k with runs := runs', pgdirAlloc := update k.pgdirAlloc d (some a) }) :
    (do
      onSpaces (mmCreate d)
      orUndo (setupPgdir d) (onSpaces (mmDestroy d))
      c : SysM Unit).wp H E Q k := by
  have hblank := h.unused d hd.count
  refine wp_seq (wp_mmCreate h hd ?_)
  rw [wp_bind]
  refine wp_orUndo (wp_setupPgdir hd.tables (fun runs' hlive => ⟨fun hnull => ?_, fun _ => ?_⟩)
    fun runs' a ha hlive => hQ runs' a (hlive ▸ nodup_cons.mpr ⟨ha, h.dirs⟩))
  · cases hnull
  · -- the address space is destroyed again
    rw [wp_onSpaces]
    refine wp_mmDestroy h.spaces.mem (h.spaces.mm d) hd.count (fun x hx => ?_)
      fun m' s' hmem' hblank' hcount' hclear hshrunk _ _ => hE _ ?_ (.of_shrunk hshrunk)
    · rw [hblank.list] at hx
      cases hx
    · have hdir : ∀ e i j, s'.entry (.dir e i, j) = k.spaces.mem.entry (.dir e i, j) :=
        fun e i j => hclear.kept e i j fun _ hfalse => hfalse.elim
      refine h.blanked (h.spaces.set hmem' hblank'.mmOk (fun i j hne => ?_) fun e i j _ =>
        hdir e i j) (fun _ _ => rfl) hblank' hcount' (hlive ▸ h.dirs) (fun _ _ => rfl)
        (h.alloc_none hd)
      rw [hdir] at hne
      exact absurd (h.spaces.empty hblank i j) hne

/-- An address space that is not used gets a count. -/
theorem SpacesOk.count (h : SpacesOk S) : SpacesOk (S.setMm d { S.mm d with mmCount := n }) := by
  have hmm : MmOk [] { S.mm d with mmCount := n } :=
    { h.mm d with }
  exact h.set h.mem hmm (h.backed d) fun _ _ _ _ => rfl

theorem shareStep_count : ShareStep S (S.setMm d { S.mm d with mmCount := n }) :=
  .of_eq rfl

theorem ShareStep.count_right (h : ShareStep S S') :
    ShareStep S (S'.setMm d { S'.mm d with mmCount := n }) := by
  refine ⟨fun hrefs => shareStep_count.refs (h.refs hrefs), fun e x v hv => h.views e x v ?_⟩
  exact (forall_update_iff S'.mm (b := { S'.mm d with mmCount := n }) (p := fun e m =>
    m.share x = some v → (S'.mm e).share x = some v)).mpr ⟨id, fun _ _ => id⟩ e hv

theorem keeps_create (h : SysOk k) (hd : k.Unused d) : Keeps (newMm d) k False True := by
  refine wp_withDir h hd (fun k' hk' hshare _ => ⟨hk', fun _ => hshare⟩) fun runs' a hdirs => ?_
  refine ⟨h.counted h.spaces.count (fun _ _ => rfl) ?_ hdirs (fun e he => update_of_ne he ..) ?_,
    fun _ => shareStep_count⟩
  · rw [hd.count]
    decide
  · show (update k.pgdirAlloc d (some a) d).isSome
    rw [update_self]
    rfl

theorem keeps_clone (h : SysOk k) (hused : k.Used d) :
    Keeps (onSpaces (mmCountInc d)) k False True := by
  exact ⟨h.counted h.spaces.count (fun _ _ => rfl) (Int.add_pos hused Int.one_pos) h.dirs
    (fun _ _ => rfl) ((h.dir d).mpr hused), fun _ => shareStep_count⟩

/-! ## The end of an address space -/

/-- What is left of a directory when its address space has ended. -/
structure Ended (s s' : Mem) (m : Mm) (d : ℕ) : Prop where
  empty : ∀ i j, s'.entry (.dir d i, j) = .none
  other : ∀ e i j, e ≠ d → s'.entry (.dir e i, j) = s.entry (.dir e i, j)
  gone : ∀ i, m.Covers i → s'.pgdir d i = none
  kept : ∀ e i, ¬(e = d ∧ m.Covers i) → s'.pgdir e i = s.pgdir e i
  shmem : ∀ x ∈ m.mmapList, (m.vma x).HasShmem

/-- The state in which an address space has ended. -/
def Sys.ended (k : Sys) (d : ℕ) (m' : Mm) (s' : Mem) (a : ℕ) : Sys where
  spaces := k.spaces.put d m' s'
  runs := { k.runs with live := k.runs.live.erase a }
  pgdirAlloc := update k.pgdirAlloc d none

/-- `exit_mmap`, `put_pgdir` and `mm_destroy`. -/
theorem wp_endMm {a : ℕ} {Q : Unit → Sys → Prop} (h : SpacesOk k.spaces)
    (hcount : (k.spaces.mm d).mmCount = 0) (halloc : k.pgdirAlloc d = some a)
    (hnull : ∀ x ∈ (k.spaces.mm d).mmapList, ¬((k.spaces.mm d).vma x).HasShmem →
      ∀ k', E .nullAccess k')
    (hQ : ∀ m' s', MemOk ∅ s' → m'.Blank → m'.mmCount = 0 →
      Ended k.spaces.mem s' (k.spaces.mm d) d → Shrunk (k.spaces.mm d) m' k.spaces.mem s' d →
      ((∀ x ∈ (k.spaces.mm d).mmapList, ((k.spaces.mm d).vma x).has vmShare = false) →
        KeptShared k.spaces.mem s') → Q () (k.ended d m' s' a)) : (endMm d).wp H E Q k := by
  rw [endMm, wp_bind, wp_onSpaces]
  refine wp_exitMmap h.mem (h.mm d) hcount (h.backed d) fun s₁ hmem₁ hexited => ?_
  rw [wp_bind, putPgdir, wp_get]
  rw [halloc]
  show (onSpaces (mmDestroy d)).wp H E Q { k with
    spaces := k.spaces.setMem s₁
    runs := { k.runs with live := k.runs.live.erase a }
    pgdirAlloc := update k.pgdirAlloc d none }
  rw [wp_onSpaces]
  refine wp_mmDestroy hmem₁ (h.mm d) hcount (fun x hx hno S' => hnull x hx hno _)
    fun m' s' hmem' hblank hcount' hclear hshrunk hshared hshmem => ?_
  have hpgdir : s'.pgdir = s₁.pgdir := hclear.pgdir
  have hentry : ∀ e i j, s'.entry (.dir e i, j) = s₁.entry (.dir e i, j) := fun e i j =>
    hclear.kept e i j fun _ hfalse => hfalse.elim
  refine hQ m' s' hmem' hblank hcount' ⟨fun i j => ?_, fun e i j he => ?_, fun i hi => ?_,
    fun e i hne => ?_, hshmem⟩ ⟨hshrunk.share, fun names names' hrefs => hshrunk.refs names names'
      (hrefs.same hexited.shared.shmem)⟩ fun hprivate => hexited.shared.trans (hshared hprivate)
  · rw [hentry]
    exact hexited.empty i j
  · rw [hentry]
    exact hexited.other e i j he
  · rw [hpgdir]
    exact hexited.gone i hi
  · rw [hpgdir]
    exact hexited.kept e i hne

theorem Ended.spacesOk (h : SpacesOk S) (hmem : MemOk ∅ s') (hblank : m'.Blank)
    (hended : Ended S.mem s' m d) : SpacesOk (S.put d m' s') :=
  h.set hmem hblank.mmOk (fun i j hne => absurd (hended.empty i j) hne) hended.other

theorem keeps_exit (h : SysOk k) (hused : k.Used d) : Keeps (exitMm d) k False True := by
  obtain ⟨a, ha⟩ := isSome_iff_exists.mp ((h.dir d).mpr hused)
  rw [Sys.Used] at hused
  rw [Keeps, exitMm, wp_bind, wp_onSpaces, mmCountDec, wp_bind, wp_onMm, wp_modify, wp_gets,
    mm_setMm_self, wp_ite]
  dsimp only
  constructor
  · intro hzero
    have hself : ((k.spaces.setMm d { k.spaces.mm d with
        mmCount := (k.spaces.mm d).mmCount - 1 }).mm d) =
        { k.spaces.mm d with mmCount := (k.spaces.mm d).mmCount - 1 } := mm_setMm_self
    refine wp_endMm h.spaces.count ?_ ha (fun _ _ _ _ => absurd rfl)
      fun m' s' hmem' hblank hcount' hended hshrunk _ => ?_
    · rw [hself]
      exact hzero
    · refine ⟨h.blanked (hended.spacesOk h.spaces.count hmem' hblank)
        (fun e => mm_setMm_of_ne) hblank hcount' (h.dirs.erase a)
        (fun e he => update_of_ne he ..) (update_self ..), fun _ => ?_⟩
      show ShareStep k.spaces (((k.spaces.setMm d _).setMm d m').setMem s')
      rw [setMm_setMm]
      rw [hself] at hshrunk
      exact .of_shrunk { hshrunk with }
  · intro hmore
    exact ⟨h.counted h.spaces.count (fun _ _ => rfl) (by omega) h.dirs (fun _ _ => rfl)
      (by rw [ha]; rfl), fun _ => shareStep_count⟩

/-! ## Copies -/

section

variable {dst src : ℕ} {P : ℕ → Prop}

section

variable (hgained : Gained (S.mm dst) m' S.mem s' dst src (S.mm src) (S.mm src).mmapList P)
include hgained

theorem Gained.spacesOk (h : SpacesOk S) (hne : dst ≠ src) (hblank : (S.mm dst).Blank)
    (hmem : MemOk ∅ s') (hmm : MmOk [] m') : SpacesOk (S.put dst m' s') := by
  refine ⟨hmem, forall_mm_set hmm fun e _ => h.mm e,
    forall_mm_set (P := fun e m => Backed s' m e) (fun i j hpage => ?_) fun e he => ?_⟩
  · by_cases hin : ∃ la, P la ∧
        (((.dir dst i, j) : Slot) = slot dst la ∨ (.dir dst i, j) = slot src la)
    · obtain ⟨la, hla, hslot⟩ := hin
      exact ⟨la, hslot.resolve_right (dir_ne_slot hne), hgained.new la hla⟩
    · rw [hgained.slots.kept _ fun la hla =>
        ⟨fun heq => hin ⟨la, hla, .inl heq⟩, fun heq => hin ⟨la, hla, .inr heq⟩⟩] at hpage
      exact absurd (h.empty hblank i j) hpage
  · refine (h.backed e).mono (fun i j hpage => ?_) fun la hla => hla
    by_cases hin : ∃ la, P la ∧ ((.dir e i, j) : Slot) = slot src la
    · obtain ⟨la, hla, hslot⟩ := hin
      rw [hslot, hgained.slots.parent la hla] at hpage
      rw [hslot]
      intro hnone
      rw [hnone] at hpage
      exact hpage rfl
    · rw [hgained.slots.kept _ fun la hla => ⟨dir_ne_slot he,
        fun heq => hin ⟨la, hla, heq⟩⟩] at hpage
      exact hpage

theorem Gained.shareStep (hblank : (S.mm dst).Blank) : ShareStep S (S.put dst m' s') := by
  refine ⟨fun hrefs => (hgained.refs fun x hx i hi => ?_).shares hrefs, fun e x v hv => ?_⟩
  · refine hrefs.alive i (src, x) (Eq.trans ?_ hi)
    show (S.mm src).naming x = _
    rw [naming_eq, areas_of_mem hx, bind_some]
  · revert e
    refine forall_mm_set (P := fun e m => m.share x = some v → _) (fun hv => ?_)
      fun _ _ hv => .inl ⟨v, hv, .refl v⟩
    rcases hgained.share x v hv with hold | ⟨y, hy, hshare, hcut⟩
    · rw [hblank.share] at hold
      cases hold
    · exact .inr ⟨fun la _ _ => hblank.flagsAt la,
        .inr ⟨src, y, _, share_eq_some.mpr ⟨areas_of_mem hy, hshare⟩, hcut.shmem⟩⟩

end

theorem keeps_fork (h : SysOk k) (hne : dst ≠ src) (hd : k.Unused dst) :
    Keeps (copyMm dst src) k False True := by
  have hblank := h.unused dst hd.count
  refine wp_withDir h hd (fun k' hk' hshare _ => ⟨hk', fun _ => hshare⟩) fun runs' a hdirs => ?_
  refine wp_seq (wp_orUndo ?_)
  rw [wp_onSpaces]
  refine wp_dupMmap h.spaces.mem (h.spaces.mm dst) (h.spaces.mm src) hne hblank.list
    (h.spaces.empty hblank) (fun _ => ⟨fun _ => absurd rfl, absurd rfl⟩)
    (fun m' s' P hmem' hmm' hgained => ⟨nofun, fun _ => ?_⟩) fun m' s' hmem' hmm' hgained => ?_
  · -- what has been copied is given up again
    have hspaces := hgained.spacesOk h.spaces hne hblank hmem' hmm'
    have hself : (k.spaces.put dst m' s').mm dst = m' := mm_setMm_self
    refine wp_endMm hspaces ?_ (update_self ..) (fun _ _ _ _ => absurd rfl)
      fun m'' s'' hmem'' hblank'' hcount'' hended hshrunk _ => ?_
    · rw [hself, hgained.mmCount]
      exact hd.count
    · refine fun _ => ⟨h.blanked (hended.spacesOk hspaces hmem'' hblank'')
        (fun e => mm_setMm_of_ne) hblank'' hcount'' (hdirs.erase a)
        (fun e he => (update_of_ne he ..).trans (update_of_ne he ..)) (update_self ..),
        fun _ => ⟨fun hrefs => ?_, fun e x v hv => .inl ?_⟩⟩
      · exact (ShareStep.of_shrunk hshrunk).refs ((hgained.shareStep hblank).refs hrefs)
      · rcases eq_or_ne e dst with rfl | he
        · rw [Sys.ended, mm_put_self] at hv
          rw [hblank''.share] at hv
          cases hv
        · rw [Sys.ended, mm_put_of_ne he, mm_put_of_ne he] at hv
          exact ⟨v, hv, .refl v⟩
  · rw [wp_onSpaces, mmCountInc, wp_onMm, wp_modify]
    have hspaces := hgained.spacesOk h.spaces hne hblank hmem' hmm'
    refine ⟨h.counted hspaces.count (fun e => mm_setMm_of_ne) ?_ hdirs
      (fun e he => update_of_ne he ..) ?_, fun _ => (hgained.shareStep hblank).count_right⟩
    · rw [mm_put_self, hgained.mmCount, hd.count]
      decide
    · show (update k.pgdirAlloc dst (some a) dst).isSome
      rw [update_self]
      rfl

end

/-! ## All calls -/

namespace Call

/-- Only a fault may fail an assertion. -/
def MayHalt : Call → Prop
  | fault .. => True
  | _ => False

/-- No hole is cut into a shared area. -/
def Calm (k : Sys) : Call → Prop
  | unmap d addr len =>
    ¬(k.spaces.mm d).SharedHole (roundDown addr pgSize) (reqEnd addr len)
  | brk d addr len => ¬(k.spaces.mm d).SharedHole (roundDown addr pgSize) (reqEnd addr len)
  | _ => True

theorem keeps {c : Call} (h : SysOk k) (henabled : c.Enabled k) :
    Keeps c.code k c.MayHalt (c.Calm k) := by
  cases c with
  | create d => exact keeps_create h henabled
  | clone d => exact keeps_clone h henabled
  | fork dst src => exact keeps_fork h henabled.1 henabled.2.1
  | exit d => exact keeps_exit h henabled
  | map d addr len vmFlags => exact (advances_map h.spaces).keeps h henabled
  | mapShmem d addr vmFlags m => exact (advances_mapShmem h.spaces henabled.2).keeps h henabled.1
  | doShmem d addr len write stack new => exact keeps_shmem h henabled.1 henabled.2
  | unmap d addr len => exact (advances_unmap h.spaces).keeps h henabled
  | brk d addr len => exact (advances_brk h.spaces).keeps h henabled
  | find d addr => exact (advances_find h.spaces).keeps h henabled
  | fault d e addr => exact (advances_fault h.spaces).keeps h henabled

end Call

theorem SysStep.keeps {c : Call} (hstep : SysStep k c k') (h : SysOk k) :
    SysOk k' ∧ (c.Calm k → ShareStep k.spaces k'.spaces) := by
  obtain ⟨henabled, hcall⟩ := hstep
  have hwp := c.keeps h henabled
  rcases hcall with hcall | ⟨e, he, hcall⟩
  · exact hwp.of_done hcall
  · exact hwp.of_fail hcall he

theorem Sys.Boot.sysOk (h : k.Boot) : SysOk k := by
  have hblank : ∀ d, (k.spaces.mm d).Blank := fun d => by
    obtain ⟨hlist, htree, hcache, hmap, -, hlive⟩ := h.mm d
    exact ⟨hlist, htree, hcache, hmap, hlive⟩
  have hcount : ∀ d, (k.spaces.mm d).mmCount = 0 := fun d => (h.mm d).2.2.2.2.1
  refine ⟨⟨h.mem.memOk, fun d => (hblank d).mmOk, fun d i j hne => ?_⟩,
    fun d _ => hblank d, ?_, fun d => ?_⟩
  · exact absurd (entry_none h.mem.tableOf) hne
  · rw [h.runs.1]
    exact nodup_nil
  · rw [hcount, h.runs.2]
    simp

end Ucore.Vm
