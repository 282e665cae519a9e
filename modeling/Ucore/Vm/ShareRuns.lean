import Ucore.Vm.AreaRuns

/-!
# Shared areas in every run

A shared memory counts the areas that name it, and an address of a shared area keeps its place in
the shared memory for as long as it is mapped. Only `mm_unmap` of a range strictly inside a shared
area breaks this: it makes a shared area without a shared memory.
-/

namespace Ucore.Vm

open Kern Option

variable {S S' : Spaces} {d x la : ℕ} {v : Vma} {now : Option ℕ × ℕ}

/-- The offset in the shared memory that an address of an area has. -/
def Vma.shmemAt (v : Vma) (la : ℕ) : ℕ := la - v.vmStart + v.shmemOff

/-- What a process finds at an address of a shared area: the shared memory and the offset. -/
def Spaces.shareAt (S : Spaces) (d la : ℕ) : Option (Option ℕ × ℕ) :=
  ((S.mm d).mmapList.find? fun x =>
    ((S.mm d).vma x).vmStart ≤ la ∧ la < ((S.mm d).vma x).vmEnd).bind fun x =>
      ((S.mm d).share x).map fun v => (v.shmem, v.shmemAt la)

theorem shareAt_of_share (h : MmOk [] (S.mm d)) (hv : (S.mm d).share x = some v) (hin : v.In la) :
    S.shareAt d la = some (v.shmem, v.shmemAt la) := by
  rw [Spaces.shareAt, h.find_of_in (share_eq_some.mp hv).1 hin, bind_some, hv, map_some]

theorem share_of_shareAt (h : S.shareAt d la = some now) :
    ∃ x v, (S.mm d).share x = some v ∧ v.In la ∧ now = (v.shmem, v.shmemAt la) := by
  rw [Spaces.shareAt, bind_eq_some_iff] at h
  obtain ⟨x, hx, h⟩ := h
  obtain ⟨v, hv, rfl⟩ := map_eq_some_iff.mp h
  have hin := in_of_find hx
  rw [(areas_eq_some.mp (share_eq_some.mp hv).1).2] at hin
  exact ⟨x, v, hv, hin, rfl⟩

/-- A part of an area has its addresses where the area has them. -/
theorem Vma.CutTo.shmemAt {u : Vma} (h : u.CutTo v) (hin : v.vmStart ≤ la) :
    v.shmemAt la = u.shmemAt la := by
  have hstart := h.start_le
  have hoff := h.off
  rw [Vma.shmemAt, Vma.shmemAt]
  omega

/-- An address of a shared area was in no area before, or it had the same place. -/
theorem ShareStep.shareAt (h : ShareStep S S') (hmm : MmOk [] (S.mm d))
    (hnow : S'.shareAt d la = some now) : S.shareAt d la = none ∨ S.shareAt d la = some now := by
  obtain ⟨x, v, hv, hin, rfl⟩ := share_of_shareAt hnow
  rcases h.views d x v hv with ⟨u, hu, hcut⟩ | ⟨hfree, -⟩
  · have huin : u.In la := ⟨hcut.start_le.trans hin.1, hin.2.trans_le hcut.le_end⟩
    rw [shareAt_of_share hmm hu huin, hcut.shmem, hcut.shmemAt hin.1]
    exact .inr rfl
  · cases hbefore : S.shareAt d la with
    | none => exact .inl rfl
    | some before =>
      obtain ⟨y, u, hu, hyin, -⟩ := share_of_shareAt hbefore
      exact absurd hyin (flagsAt_eq_none.mp (hfree la hin.1 hin.2) y u (share_eq_some.mp hu).1)

/-! ## Runs -/

/-- The address spaces, and what each address of a shared area had when it was mapped. -/
structure Traced where
  sys : Sys
  first : ℕ → ℕ → Option (Option ℕ × ℕ)

/-- One call. An address keeps its record for as long as it is in a shared area. -/
def TraceStep (t : Traced) (c : Call) (t' : Traced) : Prop :=
  SysStep t.sys c t'.sys ∧ t'.first = fun d la =>
    (t'.sys.spaces.shareAt d la).map fun now => (t.first d la).getD now

/-- A call that cuts no hole into a shared area. -/
def CalmStep (k : Sys) (c : Call) (k' : Sys) : Prop := c.Calm k ∧ SysStep k c k'

/-- A recorded call that cuts no hole into a shared area. -/
def CalmTrace (t : Traced) (c : Call) (t' : Traced) : Prop := c.Calm t.sys ∧ TraceStep t c t'

/-- The invariant of calm runs. -/
structure TracedOk (t : Traced) : Prop where
  sys : SysOk t.sys
  refs : RefsOk t.sys.spaces.shares t.sys.spaces.mem
  shmem : ∀ d x v, (t.sys.spaces.mm d).share x = some v → v.shmem.isSome
  first : t.first = t.sys.spaces.shareAt

variable {t t₀ t' : Traced} {c : Call} {cs : List Call}

theorem TracedOk.step (h : TracedOk t) (hstep : CalmTrace t c t') : TracedOk t' := by
  obtain ⟨hcalm, hsys, hfirst⟩ := hstep
  obtain ⟨hok, hshare⟩ := hsys.keeps h.sys
  have hstep := hshare hcalm
  refine ⟨hok, hstep.refs h.refs, fun d x v hv => ?_, ?_⟩
  · rcases hstep.views d x v hv with ⟨u, hu, hcut⟩ | ⟨-, hsome | ⟨e, y, u, hu, heq⟩⟩
    · rw [hcut.shmem]
      exact h.shmem d x u hu
    · exact hsome
    · rw [heq]
      exact h.shmem e y u hu
  · rw [hfirst]
    funext d la
    rw [h.first]
    cases hnow : t'.sys.spaces.shareAt d la with
    | none => rfl
    | some now =>
      rcases hstep.shareAt (h.sys.spaces.mm d) hnow with hbefore | hbefore
      · rw [hbefore]
        rfl
      · rw [hbefore]
        rfl

theorem Sys.Boot.tracedOk (h : t₀.sys.Boot) (hfirst : t₀.first = fun _ _ => none) :
    TracedOk t₀ := by
  have hshare : ∀ d x, (t₀.sys.spaces.mm d).share x = none := fun d x =>
    if_neg fun hx => by simp [(h.mm d).1] at hx
  have hnames : ∀ p, t₀.sys.spaces.shares p = none := fun p => by
    rw [Spaces.shares, hshare, bind_none]
  have hno : ∀ m p, t₀.sys.spaces.shares p ≠ some m := fun m p => by
    rw [hnames]
    exact some_ne_none m |>.symm
  refine ⟨h.sysOk, ⟨fun m => ⟨0, counts_zero.mpr (hno m), ?_⟩, fun m p hp => ?_,
    fun m _ => h.shmem m⟩, fun d x v hv => ?_, ?_⟩
  · rw [h.shmem]
    rfl
  · exact absurd hp (hno m p)
  · rw [hshare] at hv
    exact absurd hv (some_ne_none v).symm
  · rw [hfirst]
    funext d la
    rw [Spaces.shareAt, (h.mm d).1]
    rfl

/-- The addresses of every run can be recorded. -/
theorem exists_trace {k k₀ : Sys} (hrun : Run CalmStep k₀ cs k)
    (first : ℕ → ℕ → Option (Option ℕ × ℕ)) :
    ∃ t, Run CalmTrace ⟨k₀, first⟩ cs t ∧ t.sys = k := by
  induction hrun generalizing first with
  | nil k => exact ⟨_, .nil _, rfl⟩
  | @cons k k' k'' c cs hstep _ ih =>
    obtain ⟨t, hrun, hk⟩ := ih fun d la =>
      (k'.spaces.shareAt d la).map fun now => (first d la).getD now
    exact ⟨t, .cons ⟨hstep.1, hstep.2, rfl⟩ hrun, hk⟩

/-- In every run that cuts no hole into a shared area: every shared area has a shared memory; a
shared memory counts the areas that name it, in all address spaces, and is destroyed exactly when
there are none; and every address of a shared area has the place in the shared memory that it had
when it was mapped. -/
theorem shared_areas (hboot : t₀.sys.Boot) (hfirst : t₀.first = fun _ _ => none)
    (hrun : Run CalmTrace t₀ cs t) :
    (∀ d, ∀ x ∈ (t.sys.spaces.mm d).mmapList, ((t.sys.spaces.mm d).vma x).has vmShare = true →
      ((t.sys.spaces.mm d).vma x).shmem.isSome) ∧
    (∀ m, ∃ n : ℕ, Counts t.sys.spaces.shares m n ∧ (t.sys.spaces.mem.shmem m).ref = n ∧
      (t.sys.spaces.mem.shmem m = ⟨[], none, 0, 0⟩ ↔ n = 0)) ∧
    t.sys.spaces.shareAt = t.first := by
  have h : TracedOk t := hrun.invariant (fun _ _ _ hok => hok.step) (hboot.tracedOk hfirst)
  refine ⟨fun d x hx hshare => h.shmem d x _ (if_pos ⟨hx, hshare⟩), fun m => ?_, h.first.symm⟩
  obtain ⟨n, hcounts, href⟩ := h.refs.counts m
  refine ⟨n, hcounts, href, fun hblank => ?_, fun hzero => ?_⟩
  · by_contra hn
    obtain ⟨p, hp⟩ := hcounts.exists_name (Nat.pos_of_ne_zero hn)
    exact h.refs.alive m p hp (by rw [hblank])
  · rw [hzero] at hcounts
    exact h.refs.dead m (counts_zero.mp hcounts)

set_option linter.constructorNameAsVariable false

/-- Two processes map one shared memory. -/
theorem shared_areas_two : ∃ t, Run CalmTrace ⟨bootSys, fun _ _ => none⟩ [.create 0, .create 1,
      .doShmem 0 0x30000000 0x1000 true false (some 7), .mapShmem 1 0x30000000 vmRead (some 7)] t ∧
      Counts t.sys.spaces.shares 7 2 := by
  obtain ⟨k₁, hcall₁, k₂, hcall₂, hunused, hused₂, hnew, hcheck⟩ : ∃ k₁,
      (Call.create 0).code bootSys = .done () k₁ ∧
      ∃ k₂, (Call.create 1).code k₁ = .done () k₂ ∧ k₁.Unused 1 ∧ k₂.Used 0 ∧
        k₂.spaces.mem.shmem 7 = ⟨[], none, 0, 0⟩ ∧
        (Call.doShmem 0 0x30000000 0x1000 true false (some 7)).code.wp False Never (fun _ k₃ =>
          0 < (k₃.spaces.mm 1).mmCount ∧ (k₃.spaces.mem.shmem 7).len ≠ 0 ∧
          (Call.mapShmem 1 0x30000000 vmRead (some 7)).code.wp False Never (fun _ k =>
            (k.spaces.mem.shmem 7).ref = 2) k₃) k₂ :=
    ⟨_, rfl, _, rfl, ⟨rfl, fun _ => rfl⟩, Int.one_pos, rfl, by decide +kernel⟩
  obtain ⟨⟨⟩, k₃, hcall₃, hused₃, hlen, hcheck⟩ := hcheck.returns_done
  obtain ⟨⟨⟩, k, hcall, htwo⟩ := hcheck.returns_done
  have hnew' : ∀ i ∈ some 7, k₂.spaces.mem.shmem i = ⟨[], none, 0, 0⟩ := fun i hi => by
    rw [← Option.some.inj hi, hnew]
  have hlen' : ∀ i ∈ some 7, (k₃.spaces.mem.shmem i).len ≠ 0 := fun i hi => by
    rw [← Option.some.inj hi]
    exact hlen
  have h₁ : CalmStep bootSys (.create 0) k₁ := ⟨trivial, ⟨rfl, fun _ => rfl⟩, .inl hcall₁⟩
  have h₂ : CalmStep k₁ (.create 1) k₂ := ⟨trivial, hunused, .inl hcall₂⟩
  have h₃ : CalmStep k₂ (.doShmem 0 0x30000000 0x1000 true false (some 7)) k₃ :=
    ⟨trivial, ⟨hused₂, hnew'⟩, .inl hcall₃⟩
  have h₄ : CalmStep k₃ (.mapShmem 1 0x30000000 vmRead (some 7)) k :=
    ⟨trivial, ⟨hused₃, hlen'⟩, .inl hcall⟩
  obtain ⟨t, hrun, rfl⟩ := exists_trace (.cons h₁ (.cons h₂ (.cons h₃ (.cons h₄ (.nil k)))))
    fun _ _ => none
  obtain ⟨n, hcounts, href, -⟩ := (shared_areas boot_bootSys rfl hrun).2.1 7
  rw [htwo] at href
  rw [← Int.ofNat.inj href] at hcounts
  exact ⟨t, hrun, hcounts⟩

/-- A process unmaps the second of three shared pages: the first page is then in a shared area
that has no shared memory. -/
theorem hole_in_shared_area : ∃ k,
    Run SysStep bootSys [.create 0, .doShmem 0 0x30000000 0x3000 true false (some 7),
      .unmap 0 0x30001000 0x1000] k ∧
      ∃ x ∈ (k.spaces.mm 0).mmapList, ((k.spaces.mm 0).vma x).has vmShare = true ∧
        ((k.spaces.mm 0).vma x).shmem = none := by
  obtain ⟨k₁, hcreate, hused₁, hnew, hcheck⟩ : ∃ k₁, SysStep bootSys (.create 0) k₁ ∧ k₁.Used 0 ∧
      k₁.spaces.mem.shmem 7 = ⟨[], none, 0, 0⟩ ∧
      (Call.doShmem 0 0x30000000 0x3000 true false (some 7)).code.wp False Never (fun _ k₂ =>
        0 < (k₂.spaces.mm 0).mmCount ∧
        (Call.unmap 0 0x30001000 0x1000).code.wp False Never (fun _ k =>
          ∃ x ∈ (k.spaces.mm 0).mmapList, ((k.spaces.mm 0).vma x).has vmShare = true ∧
            ((k.spaces.mm 0).vma x).shmem = none) k₂) k₁ :=
    ⟨_, ⟨⟨rfl, fun _ => rfl⟩, .inl rfl⟩, Int.one_pos, rfl, by decide +kernel⟩
  obtain ⟨⟨⟩, k₂, hcall₂, hused₂, hcheck⟩ := hcheck.returns_done
  obtain ⟨⟨⟩, k, hcall, hcheck⟩ := hcheck.returns_done
  have hnew' : ∀ i ∈ some 7, k₁.spaces.mem.shmem i = ⟨[], none, 0, 0⟩ := fun i hi => by
    rw [← Option.some.inj hi, hnew]
  exact ⟨k, .cons hcreate (.cons ⟨⟨hused₁, hnew'⟩, .inl hcall₂⟩
    (.cons ⟨hused₂, .inl hcall⟩ (.nil k))), hcheck⟩

end Ucore.Vm
