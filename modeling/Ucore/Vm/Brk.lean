import Ucore.Vm.Mapping
import Ucore.Vm.UserAccess

/-!
# The heap of a process

`do_brk` and `do_linux_brk`, which move the end of the heap of an address space. Both leave the
heap as it is when they refuse a request. `do_brk` then stores the end of the heap, while
`do_linux_brk` returns what was asked for, or what happened to be in its variable.
-/

namespace Ucore.Vm

open Kern

/-- The address spaces, with the fields `brk_start` and `brk` of one of them. -/
structure BrkState where
  spaces : Spaces
  brkStart : ℕ
  brk : ℕ

abbrev BrkM := Kern Err BrkState

def inSpaces {α : Type} (c : SpacesM α) : BrkM α :=
  zoom BrkState.spaces (fun S s => { s with spaces := S }) c

/-- `find_vma_intersection`. -/
def findVmaIntersection (start fin : ℕ) : MmM (Option ℕ) := do
  let found ← findVma start
  let m ← get
  return found.filter fun x => ¬fin ≤ (m.vma x).vmStart

/-- The part of both calls that changes areas; it fails where the source goes to
`out_unlock`. -/
def moveBrk (d newbrk oldbrk : ℕ) : SpacesM Unit :=
  if newbrk < oldbrk then mmUnmap d newbrk (oldbrk - newbrk)
  else do
    match ← onMm d (findVmaIntersection oldbrk ((newbrk + pgSize) % 2 ^ 32)) with
    | some _ => throw .inval
    | none => mmBrk d oldbrk (newbrk - oldbrk)

/-- The part of both calls up to `out_unlock`. -/
def requestBrk (d brk : ℕ) : BrkM Unit := do
  let s ← get
  if brk < s.brkStart then return ()
  else do
    let newbrk := roundUp brk pgSize
    assert (s.brk % pgSize = 0)
    if newbrk = s.brk then return ()
    else do
      match ← (inSpaces (moveBrk d newbrk s.brk)).attempt with
      | .error _ => return ()
      | .ok _ => modify fun s => { s with brk := newbrk }

/-- `do_brk` for the value that it has read at `store`, with the value that it stores there, if
it can. -/
def doBrk (d store value : ℕ) : BrkM (Option ℕ) :=
  if store = 0 then throw .inval
  else do
    let ok ← inSpaces (userMemCheck d store 4 true)
    if ok = true then do
      requestBrk d value
      let ok ← inSpaces (userMemCheck d store 4 true)
      let s ← get
      return if ok then some s.brk else none
    else throw .inval

/-- `do_linux_brk`; `junk` is in the variable `newbrk` before it is set. -/
def doLinuxBrk (d brk junk : ℕ) : BrkM ℕ := do
  let s ← get
  if brk = 0 then return s.brkStart
  else do
    requestBrk d brk
    return if brk < s.brkStart then junk else roundUp brk pgSize

variable {H : Prop} {E : Err → Spaces → Prop} {d start fin value newbrk la : ℕ} {S : Spaces}
  {s s' : BrkState} {Q : Unit → Spaces → Prop}

/-! ## Free ranges -/

/-- `mm_unmap` of a range without areas. -/
theorem wp_mmUnmap_free (hmm : MmOk [] (S.mm d)) (haccess : UserAccess start fin)
    (hstart : start % pgSize = 0) (hfin : fin % pgSize = 0) (hfree : (S.mm d).Free start fin)
    (hQ : ∀ m', MmOk [] m' → m'.areas = (S.mm d).areas → m'.heap = (S.mm d).heap →
      Q () (S.setMm d m')) : (mmUnmap d start (fin - start)).wp H E Q S := by
  rw [mmUnmap, roundDown_aligned hstart, reqEnd_aligned haccess hfin]
  refine wp_if (absurd haccess) fun _ => ?_
  rw [wp_bind, wp_onMm]
  refine wp_findVma hmm (fun _ => hQ _ hmm rfl rfl) fun x hx => ?_
  obtain ⟨hmem, hend⟩ := mem_of_firstAfter hx
  have hbehind := (hfree x _ (areas_of_mem hmem)).resolve_left (not_le.mpr hend)
  dsimp only
  rw [unmapFrom, wp_get, mm_setMm_self]
  rw [if_pos hbehind]
  exact hQ _ (hmm.cached hmem) rfl rfl

theorem wp_findVmaIntersection {m : Mm} {E : Err → Mm → Prop} {Q : Option ℕ → Mm → Prop}
    (hmm : MmOk [] m) (hfree : m.Free start fin → ∀ m', MmOk [] m' → m'.areas = m.areas →
      m'.heap = m.heap → Q none m')
    (hfound : ∀ x m', ¬m.Free start fin → MmOk [] m' → m'.areas = m.areas → Q (some x) m') :
    (findVmaIntersection start fin).wp H E Q m := by
  rw [findVmaIntersection, wp_bind]
  refine wp_findVma hmm (fun hnone => ?_) fun x hx => ?_
  · refine hfree (hmm.free fun y hy => ?_) m hmm rfl rfl
    rw [hnone] at hy
    cases hy
  · obtain ⟨hmem, hend⟩ := mem_of_firstAfter hx
    have hcached := hmm.cached hmem
    rw [wp_get, wp_pure, Option.filter_some]
    split_ifs with hmeets
    · refine hfound x _ (fun hfree => ?_) hcached rfl
      rcases hfree x _ (areas_of_mem hmem) with hbefore | hbehind
      · exact absurd hbefore (not_le.mpr hend)
      · exact absurd hbehind (of_decide_eq_true hmeets)
    · refine hfree (hmm.free fun y hy => ?_) _ hcached rfl rfl
      rw [← Option.some.inj (hx.symm.trans hy)]
      exact not_not.mp (of_decide_eq_false (Bool.not_eq_true _ ▸ hmeets))

/-! ## The heap -/

/-- The heap of an address space: whole pages of areas that may be read and written. -/
structure HeapOk (d : ℕ) (s : BrkState) : Prop where
  mem : MemOk ∅ s.spaces.mem
  mm : MmOk [] (s.spaces.mm d)
  aligned : s.brk % pgSize = 0
  le : s.brkStart ≤ s.brk
  covered : ∀ la, s.brkStart ≤ la → la < s.brk →
    (s.spaces.mm d).flagsAt la = some (vmRead ||| vmWrite)

/-- The heap may end at `newbrk`: it ends there, or `newbrk` is in the heap or in front of a free
range. There is memory for an area if an area has to be cut in two, or if none can be extended. -/
def Grants (d : ℕ) (s : BrkState) (newbrk : ℕ) : Prop :=
  s.brkStart ≤ newbrk ∧ (newbrk = s.brk ∨
    newbrk < s.brk ∧ ((s.spaces.mm d).Hole newbrk s.brk → ¬(s.spaces.mm d).heap.Full) ∨
    s.brk < newbrk ∧ userBase ≤ s.brk ∧ newbrk ≤ userTop ∧
      (s.spaces.mm d).Free s.brk (newbrk + pgSize) ∧
      (¬(s.spaces.mm d).EndsAt s.brk → ¬(s.spaces.mm d).heap.Full))

/-- The heap lies in user space. -/
theorem HeapOk.access (h : HeapOk d s) (hstart : s.brkStart ≤ newbrk) (hlt : newbrk < s.brk) :
    UserAccess newbrk s.brk := by
  obtain ⟨x, v, hv, hin, -⟩ := h.mm.flagsAt_eq_some.mp (h.covered newbrk hstart hlt)
  obtain ⟨y, u, hu, hin', -⟩ := h.mm.flagsAt_eq_some.mp
    (h.covered (s.brk - 1) (by omega) (by omega))
  have hbase := (h.mm.area_ok hv).access.1
  have htop := (h.mm.area_ok hu).access.2.2
  have hlast := hin'.2
  exact ⟨hbase.trans hin.1, hlt, by omega⟩

theorem reqEnd_sub (hle : start ≤ fin) (hlt : fin < 2 ^ 32) (hfin : fin % pgSize = 0) :
    reqEnd start (fin - start) = fin := by
  rw [reqEnd, roundUp, roundDown]
  rw [pgSize_eq] at hfin ⊢
  omega

/-- Either the areas stay and the request is one that need not be granted, or the heap ends at
`newbrk`. -/
theorem wp_moveBrk (h : HeapOk d s) (haligned : newbrk % pgSize = 0) (hbound : newbrk < 2 ^ 32)
    (hstart : newbrk ≠ 0 → s.brkStart ≤ newbrk) (hne : newbrk ≠ s.brk)
    (hE : ∀ e m', MmOk [] m' → m'.areas = (s.spaces.mm d).areas → ¬Grants d s newbrk →
      E e (s.spaces.setMm d m'))
    (hQ : ∀ m' mem', MemOk ∅ mem' → MmOk [] m' → s.brkStart ≤ newbrk →
      (∀ la, s.brkStart ≤ la → la < newbrk → m'.flagsAt la = some (vmRead ||| vmWrite)) →
      Q () (s.spaces.put d m' mem')) : (moveBrk d newbrk s.brk).wp H E Q s.spaces := by
  rw [moveBrk]
  refine wp_if (fun hlt => ?_) fun hge => ?_
  · by_cases hle : s.brkStart ≤ newbrk
    · have haccess := h.access hle hlt
      have hrange := roundDown_aligned haligned
      have hrange' := reqEnd_aligned haccess h.aligned
      refine wp_mmUnmap h.mem h.mm ?_ ?_ ?_ <;> rw [hrange, hrange']
      · intro y v hv hmeets hno
        have hlt := (h.mm.area_ok hv).lt
        have hin : v.In (max newbrk v.vmStart) := ⟨by omega, by omega⟩
        have hmax := h.mm.flagsAt_of_in hv hin
        rw [h.covered _ (by omega) (by omega), Option.some.injEq] at hmax
        refine absurd (fun hshare => ?_) hno
        rw [Vma.has, ← hmax] at hshare
        cases hshare
      · intro m' e hmm' hsame he
        refine hE e m' hmm' hsame.areas fun hgrants => ?_
        rcases he with ⟨-, hno⟩ | ⟨-, hfull, hhole⟩
        · exact hno haccess
        · rcases hgrants.2.resolve_left hne with ⟨-, hroom⟩ | ⟨hgt, -⟩
          · exact hroom hhole hfull
          · omega
      · intro m' mem' hmem' hmm' _ hremoved
        refine hQ m' mem' hmem' hmm' hle fun la hlo hhi => ?_
        rw [hremoved.flags, if_neg (by omega)]
        exact h.covered la hlo (by omega)
    · -- the rounded request has wrapped
      have hzero : newbrk = 0 := not_not.mp (mt hstart hle)
      have hno : ¬UserAccess (roundDown newbrk pgSize) (reqEnd newbrk (s.brk - newbrk)) := by
        rw [hzero]
        exact fun haccess => absurd haccess.1 (by decide)
      rw [mmUnmap, if_pos hno, wp_throw]
      have hfail := hE .inval _ h.mm rfl fun hgrants => hle hgrants.1
      rwa [setMm_self] at hfail
  · have hgrow : Grants d s newbrk → _ := fun hgrants =>
      (hgrants.2.resolve_left hne).resolve_left fun hshrink => hge hshrink.1
    rw [wp_bind, wp_onMm]
    refine wp_findVmaIntersection h.mm (fun hfree m₁ hmm₁ hareas₁ hheap₁ => ?_)
      fun x m' hfound hmm' hareas' => ?_
    · rw [mmBrk, roundDown_aligned h.aligned, reqEnd_sub (not_lt.mp hge) hbound haligned]
      refine wp_if (fun hno => ?_) fun haccess => ?_
      · refine hE .inval m₁ hmm₁ hareas₁ fun hgrants => ?_
        obtain ⟨hlt, hbase, htop, -⟩ := hgrow hgrants
        exact hno ⟨hbase, hlt, htop⟩
      · rw [not_not] at haccess
        have hwrap := haccess.2.2
        rw [userTop] at hwrap
        have hself : (s.spaces.setMm d m₁).mm d = m₁ := mm_setMm_self
        have hfree' : (s.spaces.mm d).Free s.brk newbrk := by
          intro y v hv
          have hv' := hfree y v hv
          rw [pgSize_eq] at hv'
          omega
        refine wp_seq (wp_mmUnmap_free (by rwa [hself]) haccess h.aligned
          haligned ?_ fun m₂ hmm₂ hareas₂ hheap₂ => ?_)
        · rw [hself, Mm.Free, hareas₁]
          exact hfree'
        · rw [hself, hareas₁] at hareas₂
          rw [hself, hheap₁] at hheap₂
          rw [setMm_setMm, wp_onMm, mm_setMm_self]
          rw [Mm.Free, ← hareas₂] at hfree'
          refine wp_extendOrMap hmm₂ haccess h.aligned haligned hfree'
            (fun m' hfull hends hmm' hsame => ?_) fun m' hmm' hflags _ _ => ?_
          · rw [setMm_setMm]
            refine hE .noMem m' hmm' (hsame.areas.trans hareas₂) fun hgrants => ?_
            obtain ⟨-, -, -, -, hroom⟩ := hgrow hgrants
            refine hroom (fun hends' => hends ?_) (hheap₂ ▸ hfull)
            obtain ⟨x, hx, hend⟩ := hends'
            have hx₂ := areas_of_mem hx
            rw [← hareas₂] at hx₂
            obtain ⟨hx₂, heq⟩ := areas_eq_some.mp hx₂
            exact ⟨x, hx₂, heq ▸ hend⟩
          · rw [setMm_setMm]
            refine hQ m' s.spaces.mem h.mem hmm' (h.le.trans (not_lt.mp hge)) fun la hlo hhi => ?_
            rw [hflags, flagsAt_congr hareas₂ h.mm hmm₂]
            split_ifs with hin
            · rfl
            · exact h.covered la hlo (by omega)
    · refine hE .inval m' hmm' hareas' fun hgrants => ?_
      obtain ⟨-, -, htop, hfree, -⟩ := hgrow hgrants
      rw [userTop] at htop
      rw [Nat.mod_eq_of_lt (by rw [pgSize_eq]; omega)] at hfound
      exact hfound hfree

/-! ## The calls -/

/-- What a call may do: the heap stays as it is with all areas, or it ends where was asked. -/
structure Answers (d value : ℕ) (s s' : BrkState) : Prop where
  ok : HeapOk d s'
  start : s'.brkStart = s.brkStart
  refused : s'.brk = s.brk → (s'.spaces.mm d).areas = (s.spaces.mm d).areas
  granted : s'.brk ≠ s.brk → s'.brk = roundUp value pgSize

/-- Only the cache of an address space has changed. -/
theorem HeapOk.answers {m' : Mm} (h : HeapOk d s) (hmm : MmOk [] m')
    (hareas : m'.areas = (s.spaces.mm d).areas) :
    Answers d value s { s with spaces := s.spaces.setMm d m' } := by
  have hself : (s.spaces.setMm d m').mm d = m' := mm_setMm_self
  refine ⟨⟨h.mem, by rwa [hself], h.aligned, h.le, ?_⟩, rfl, fun _ => by rw [hself, hareas],
    (absurd rfl)⟩
  rw [hself, flagsAt_congr hareas h.mm hmm]
  exact h.covered

theorem HeapOk.answers_self (h : HeapOk d s) : Answers d value s s :=
  ⟨h, rfl, fun _ => rfl, absurd rfl⟩

theorem wp_requestBrk {E : Err → BrkState → Prop} {Q : Unit → BrkState → Prop} (h : HeapOk d s)
    (hvalue : value < 2 ^ 32) (hQ : ∀ s', Answers d value s s' →
      (s.brkStart ≤ value → Grants d s (roundUp value pgSize) → s'.brk = roundUp value pgSize) →
      Q () s') :
    (requestBrk d value).wp H E Q s := by
  rw [requestBrk, wp_get]
  refine wp_if (fun hlt => hQ s h.answers_self fun hle => absurd hle (not_le.mpr hlt)) fun hge => ?_
  have haligned : roundUp value pgSize % pgSize = 0 := roundDown_mod _
  have hbound : roundUp value pgSize < 2 ^ 32 :=
    Nat.lt_of_le_of_lt (Nat.sub_le _ _) (Nat.mod_lt _ (by decide))
  have hstart : roundUp value pgSize ≠ 0 → s.brkStart ≤ roundUp value pgSize := by
    rw [roundUp, roundDown, pgSize_eq]
    omega
  refine wp_check h.aligned ?_
  rw [wp_ite]
  refine ⟨fun heq => hQ s h.answers_self fun _ _ => heq.symm, fun hne => ?_⟩
  rw [wp_bind, wp_attempt, inSpaces, wp_zoom]
  refine wp_moveBrk h haligned hbound hstart hne (fun e m' hmm' hareas hno => ?_)
    fun m' mem' hmem' hmm' hle hcovered => ?_
  · exact hQ _ (h.answers hmm' hareas) fun _ hgrants => absurd hgrants hno
  · have hself : (s.spaces.put d m' mem').mm d = m' := mm_put_self
    refine hQ _ ⟨⟨hmem', by rwa [hself], haligned, hle, ?_⟩, rfl, fun heq => absurd heq hne,
      fun _ => rfl⟩ fun _ _ => rfl
    rw [hself]
    exact hcovered

/-- The calls, and whatever else leaves the heap in the address space. -/
inductive BrkCall
  | brk (store value : ℕ)
  | linuxBrk (brk junk : ℕ)
  | other (S : Spaces)

def BrkStep (d : ℕ) (s : BrkState) : BrkCall → BrkState → Prop
  | .brk store value, s' => value < 2 ^ 32 ∧
      ((∃ r, doBrk d store value s = .done r s') ∨ ∃ e, doBrk d store value s = .fail e s')
  | .linuxBrk brk junk, s' => brk < 2 ^ 32 ∧ ∃ r, doLinuxBrk d brk junk s = .done r s'
  | .other S, s' => s' = { s with spaces := S } ∧ MemOk ∅ S.mem ∧ MmOk [] (S.mm d) ∧
      ∀ la, s.brkStart ≤ la → la < s.brk → (S.mm d).flagsAt la = (s.spaces.mm d).flagsAt la

/-- `do_linux_brk` tells the end of the heap: 0 was asked for an empty heap, or a request is
granted. -/
def Tells (d : ℕ) (s : BrkState) (brk : ℕ) : Prop :=
  if brk = 0 then s.brk = s.brkStart
  else s.brkStart ≤ brk ∧ Grants d s (roundUp brk pgSize)

theorem wp_doBrk (h : HeapOk d s) (hvalue : value < 2 ^ 32) (store : ℕ) :
    (doBrk d store value).wp False (fun _ s' => Answers d value s s' ∧ s'.brk = s.brk)
      (fun r s' => Answers d value s s' ∧ ∀ v ∈ r, v = s'.brk) s := by
  have hcheck : ∀ {s : BrkState} {E : Err → BrkState → Prop} {Q : Bool → BrkState → Prop},
      HeapOk d s → (∀ ok m', MmOk [] m' → m'.areas = (s.spaces.mm d).areas →
        Q ok { s with spaces := s.spaces.setMm d m' }) →
      (inSpaces (userMemCheck d store 4 true)).wp False E Q s := by
    intro s E Q h hQ
    rw [inSpaces, wp_zoom]
    exact wp_userMemCheck h.mm fun ok m' hmm' hsame _ => hQ ok m' hmm' hsame.areas
  rw [doBrk]
  refine wp_if (fun _ => ⟨h.answers_self, rfl⟩) fun _ => ?_
  refine wp_seq (hcheck h fun ok m' hmm' hareas => ?_)
  have hfirst : Answers d value s { s with spaces := s.spaces.setMm d m' } := h.answers hmm' hareas
  refine wp_if (fun _ => ?_) fun _ => ⟨hfirst, rfl⟩
  refine wp_seq (wp_requestBrk hfirst.ok hvalue fun s₁ hanswers _ => ?_)
  refine wp_seq (hcheck hanswers.ok fun ok' m'' hmm'' hareas' => ?_)
  have hlast : Answers d value s₁ { s₁ with spaces := s₁.spaces.setMm d m'' } :=
    hanswers.ok.answers hmm'' hareas'
  refine ⟨{ hanswers with ok := hlast.ok, refused := fun heq => ?_ }, fun v hv => ?_⟩
  · exact (hlast.refused rfl).trans ((hanswers.refused heq).trans (hfirst.refused rfl))
  · split_ifs at hv
    · exact (Option.some.inj hv).symm
    · cases hv

theorem wp_doLinuxBrk (h : HeapOk d s) (hvalue : value < 2 ^ 32) (junk : ℕ) :
    (doLinuxBrk d value junk).wp False Never
      (fun r s' => Answers d value s s' ∧ (Tells d s value → r = s'.brk)) s := by
  rw [doLinuxBrk, wp_get]
  refine wp_if (fun hzero => ⟨h.answers_self, fun htells => ?_⟩) fun hne => ?_
  · rw [Tells, if_pos hzero] at htells
    exact htells.symm
  · refine wp_seq (wp_requestBrk h hvalue fun s' hanswers hgrants => ?_)
    refine ⟨hanswers, fun htells => ?_⟩
    rw [Tells, if_neg hne] at htells
    rw [if_neg (not_lt.mpr htells.1)]
    exact (hgrants htells.1 htells.2).symm

/-- In every run of `do_brk`, of `do_linux_brk` and of whatever leaves the heap in the address
space, the heap consists of whole pages that may be read and written, and a request that is
refused changes nothing. What `do_brk` stores is the end of the heap after the call. What
`do_linux_brk` returns is the end of the heap if it is asked with 0 for an empty heap or with a
request that is granted. -/
theorem brk_told {s₀ : BrkState} {es : List BrkCall} (h0 : HeapOk d s₀)
    (hrun : Run (BrkStep d) s₀ es s) : HeapOk d s ∧
    (∀ store value, value < 2 ^ 32 →
      (∃ r s', doBrk d store value s = .done r s' ∧ Answers d value s s' ∧ ∀ v ∈ r, v = s'.brk) ∨
      ∃ e s', doBrk d store value s = .fail e s' ∧ Answers d value s s' ∧ s'.brk = s.brk) ∧
    ∀ brk junk, brk < 2 ^ 32 → ∃ r s', doLinuxBrk d brk junk s = .done r s' ∧
      Answers d brk s s' ∧ (Tells d s brk → r = s'.brk) := by
  have hinv : HeapOk d s := by
    refine hrun.invariant (fun s e s' h hstep => ?_) h0
    cases e with
    | brk store value =>
      obtain ⟨hvalue, ⟨r, hcall⟩ | ⟨e, hcall⟩⟩ := hstep
      · exact ((wp_doBrk h hvalue store).of_done hcall).1.ok
      · exact ((wp_doBrk h hvalue store).of_fail hcall).1.ok
    | linuxBrk brk junk =>
      obtain ⟨hvalue, r, hcall⟩ := hstep
      exact ((wp_doLinuxBrk h hvalue junk).of_done hcall).1.ok
    | other S =>
      obtain ⟨rfl, hmem, hmm, hflags⟩ := hstep
      refine ⟨hmem, hmm, h.aligned, h.le, fun la hlo hhi => ?_⟩
      exact (hflags la hlo hhi).trans (h.covered la hlo hhi)
  exact ⟨hinv, fun store value hvalue => (wp_doBrk hinv hvalue store).returns,
    fun brk junk hvalue => (wp_doLinuxBrk hinv hvalue junk).returns_done⟩

/-- An address space with a heap of two pages. -/
def twoPages : BrkState :=
  ⟨⟨emptyMem, fun _ => areaWith (vmRead ||| vmWrite)⟩, 0x30000000, 0x30002000⟩

theorem heapOk_twoPages : HeapOk 0 twoPages := by
  refine ⟨fresh_emptyMem.memOk, mmOk_areaWith, by decide, by decide, fun la hlo hhi => ?_⟩
  exact mmOk_areaWith.flagsAt_of_in (areas_of_mem (.head _)) ⟨hlo, hhi⟩

/-- The same without the second page. -/
def onePage : BrkState := (doLinuxBrk 0 0x30001000 0 twoPages).after.get rfl

/-- The heap loses a page and gets it back, and its end is told. -/
theorem brk_told_end : Run (BrkStep 0) twoPages [.linuxBrk 0x30001000 0] onePage ∧
    onePage.brk = 0x30001000 ∧
    ∃ s', doLinuxBrk 0 0x30002000 0 onePage = .done 0x30002000 s' ∧ s'.brk = 0x30002000 := by
  have hrun : Run (BrkStep 0) twoPages [.linuxBrk 0x30001000 0] onePage :=
    .cons ⟨by decide, _, rfl⟩ (.nil _)
  have hfree : (onePage.spaces.mm 0).Free 0x30001000 0x30003000 := by
    intro x v hv
    obtain ⟨hx, rfl⟩ := areas_eq_some.mp hv
    obtain rfl : x = 7 := List.mem_singleton.mp hx
    exact .inl le_rfl
  obtain ⟨-, -, hlinux⟩ := brk_told heapOk_twoPages hrun
  obtain ⟨r, s', hcall, -, htold⟩ := hlinux 0x30002000 0 (by decide)
  have hr : r = s'.brk := htold ⟨by decide, by decide, .inr (.inr ⟨by decide, by decide, by decide,
    hfree, absurd ⟨7, .head _, rfl, rfl⟩⟩)⟩
  obtain ⟨t, ht⟩ : ∃ t, doLinuxBrk 0 0x30002000 0 onePage = .done 0x30002000 t := ⟨_, rfl⟩
  obtain ⟨rfl, rfl⟩ := Outcome.done.inj (hcall.symm.trans ht)
  exact ⟨hrun, rfl, s', hcall, hr.symm⟩

/-- `do_linux_brk` returns the start of the heap for 0, what was in its variable for an address
in front of the heap, and the request where it is refused. -/
theorem linux_brk_untrue : ∃ s₁ s₂ s₃, doLinuxBrk 0 0 7 twoPages = .done 0x30000000 s₁ ∧
    s₁.brk = 0x30002000 ∧ doLinuxBrk 0 1 7 twoPages = .done 7 s₂ ∧ s₂.brk = 0x30002000 ∧
    doLinuxBrk 0 0x80000000 7 twoPages = .done 0x80000000 s₃ ∧ s₃.brk = 0x30002000 :=
  ⟨_, _, _, rfl, rfl, rfl, rfl, rfl, rfl⟩

end Ucore.Vm
