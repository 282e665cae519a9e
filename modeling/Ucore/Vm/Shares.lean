import Ucore.Vm.AreaMap
import Ucore.Vm.Shared
import Ucore.Vm.Space

/-!
# Shared areas

An area with `VM_SHARE` has a reference to a shared memory. `RefsOk` says that every shared
memory counts the areas that name it, and that there is nothing left of one that no area names.
-/

namespace Ucore.Vm

open Kern Function Option Mem

variable {H : Prop} {s s' s'' : Mem} {hand : Finset ℕ} {d la start fin : ℕ} {P P' : ℕ → Prop}

/-! ## Slots that are cleared -/

/-- The slots of some addresses are clear, and no other slot of an address has changed. -/
structure Cleared (s s' : Mem) (d : ℕ) (P : ℕ → Prop) : Prop where
  cleared : ∀ la, P la → s'.entry (slot d la) = .none
  kept : ∀ e i j, (∀ la, P la → ((.dir e i, j) : Slot) ≠ slot d la) →
    s'.entry (.dir e i, j) = s.entry (.dir e i, j)
  pgdir : s'.pgdir = s.pgdir

/-- Shared memories have not changed. -/
structure KeptShared (s s' : Mem) : Prop where
  shmem : s'.shmem = s.shmem
  entry : ∀ m start j, s'.entry (.shmn m start, j) = s.entry (.shmn m start, j)

theorem KeptShared.refl (s : Mem) : KeptShared s s := ⟨rfl, fun _ _ _ => rfl⟩

theorem KeptShared.trans (h : KeptShared s s') (h' : KeptShared s' s'') : KeptShared s s'' :=
  ⟨h'.shmem.trans h.shmem, fun m start j => (h'.entry m start j).trans (h.entry m start j)⟩

theorem Cleared.refl (s : Mem) (d : ℕ) : Cleared s s d fun _ => False :=
  ⟨fun _ h => h.elim, fun _ _ _ _ => rfl, rfl⟩

theorem Cleared.trans (h : Cleared s s' d P) (h' : Cleared s' s'' d P') :
    Cleared s s'' d fun la => P la ∨ P' la := by
  refine ⟨fun la hla => ?_, fun e i j hne => ?_, h'.pgdir.trans h.pgdir⟩
  · by_cases hin : ∃ la', P' la' ∧ slot d la = slot d la'
    · obtain ⟨la', hP', heq⟩ := hin
      rw [heq]
      exact h'.cleared la' hP'
    · have hP : P la := hla.resolve_right fun hP' => hin ⟨la, hP', rfl⟩
      rw [slot, h'.kept d _ _ fun la' hP' heq => hin ⟨la', hP', heq⟩]
      exact h.cleared la hP
  · rw [h'.kept e i j fun la hP' => hne la (.inr hP')]
    exact h.kept e i j fun la hP => hne la (.inl hP)

theorem Cleared.congr (h : Cleared s s' d P) (heq : ∀ la, P la ↔ P' la) : Cleared s s' d P' :=
  ⟨fun la hla => h.cleared la ((heq la).mpr hla),
    fun e i j hne => h.kept e i j fun la hla => hne la ((heq la).mp hla), h.pgdir⟩

theorem Unmapped.cleared' (h : Unmapped s s' d start fin) :
    Cleared s s' d fun la => start ≤ la ∧ la < fin := by
  refine ⟨fun la hla => h.cleared la hla.1 hla.2,
    fun e i j hne => h.kept _ fun la hlo hhi => hne la ⟨hlo, hhi⟩, ?_⟩
  funext e i
  exact congrFun h.tableOf (.dir e i)

theorem Unmapped.keptShared (h : Unmapped s s' d start fin) : KeptShared s s' :=
  ⟨h.shmem, fun m start j => h.kept _ fun la _ _ => by simp [slot]⟩

/-! ## The shared memory of an area -/

/-- The state with another number of references. -/
def Mem.withRef (s : Mem) (m : ℕ) (n : ℤ) : Mem :=
  { s with shmem := update s.shmem m { s.shmem m with ref := n } }

theorem shmem_withRef {m : ℕ} {n : ℤ} (m' : ℕ) :
    ((s.withRef m n).shmem m').nodes = (s.shmem m').nodes ∧
      ((s.withRef m n).shmem m').cache = (s.shmem m').cache ∧
      ((s.withRef m n).shmem m').len = (s.shmem m').len := by
  rcases eq_or_ne m' m with rfl | hm
  · simp [withRef]
  · simp [withRef, hm]

theorem tableOf_withRef {m : ℕ} {n : ℤ} : (s.withRef m n).tableOf = s.tableOf := by
  funext o
  cases o with
  | dir d i => rfl
  | shmn m' start => rw [tableOf, tableOf, (shmem_withRef m').1]

theorem entry_withRef {m : ℕ} {n : ℤ} : (s.withRef m n).entry = s.entry := by
  funext x
  rw [entry, entry, tableOf_withRef]
  rfl

theorem MemOk.withRef (h : MemOk hand s) (m : ℕ) (n : ℤ) : MemOk hand (s.withRef m n) := by
  refine h.same rfl tableOf_withRef rfl rfl rfl (fun m' => (shmem_withRef m').1) fun m' x hx => ?_
  rw [(shmem_withRef m').2.1] at hx
  exact h.cache m' x hx

/-- A new shared memory has no pages. -/
theorem MemOk.shmemCreate (m len : ℕ) (h : MemOk hand s) (hm : (s.shmem m).nodes = []) :
    MemOk hand { s with shmem := update s.shmem m ⟨[], none, len, 0⟩ } := by
  have hnodes : ∀ m', (update s.shmem m ⟨[], none, len, 0⟩ m').nodes = (s.shmem m').nodes := by
    intro m'
    rcases eq_or_ne m' m with rfl | heq
    · rw [update_self, hm]
    · rw [update_of_ne heq]
  refine h.same rfl ?_ rfl rfl rfl hnodes fun m' n hn => ?_
  · funext o
    cases o with
    | dir d i => rfl
    | shmn m' start => rw [tableOf, tableOf, hnodes]
  · rcases eq_or_ne m' m with rfl | heq
    · have hself : (update s.shmem m' ⟨[], none, len, 0⟩ m').cache = some n := hn
      rw [update_self] at hself
      cases hself
    · have hother : (update s.shmem m ⟨[], none, len, 0⟩ m').cache = some n := hn
      rw [update_of_ne heq] at hother
      exact h.cache m' n hother

/-! ## Counting the areas of a shared memory -/

/-- The shared memory that an area refers to. -/
def Vma.named (v : Vma) : Option ℕ := if v.has vmShare then v.shmem else none

/-- The shared areas of an address space. -/
def Mm.share (m : Mm) (x : ℕ) : Option Vma :=
  if x ∈ m.mmapList ∧ (m.vma x).has vmShare = true then some (m.vma x) else none

/-- Every shared memory counts the areas that name it, and is destroyed if there is none. -/
structure RefsOk (names : ℕ × ℕ → Option ℕ) (s : Mem) : Prop where
  counts : ∀ m, ∃ n : ℕ, Counts names m n ∧ (s.shmem m).ref = n
  alive : ∀ m p, names p = some m → (s.shmem m).len ≠ 0
  dead : ∀ m, (∀ p, names p ≠ some m) → s.shmem m = ⟨[], none, 0, 0⟩

variable {names : ℕ × ℕ → Option ℕ} {p : ℕ × ℕ} {m : ℕ}

theorem RefsOk.keep (h : RefsOk names s)
    (hsame : ∀ m, (s'.shmem m).ref = (s.shmem m).ref ∧ (s'.shmem m).len = (s.shmem m).len)
    (hdead : ∀ m, (s.shmem m).len = 0 → s'.shmem m = s.shmem m) : RefsOk names s' := by
  refine ⟨fun m => ?_, fun m p hp => ?_, fun m hno => ?_⟩
  · rw [(hsame m).1]
    exact h.counts m
  · rw [(hsame m).2]
    exact h.alive m p hp
  · have hblank := h.dead m hno
    rw [hdead m (by rw [hblank])]
    exact hblank

theorem RefsOk.same (h : RefsOk names s) (hshmem : s'.shmem = s.shmem) : RefsOk names s' :=
  h.keep (fun m => by rw [hshmem]; exact ⟨rfl, rfl⟩) fun m _ => by rw [hshmem]

/-- An area takes a reference. -/
theorem RefsOk.take (h : RefsOk names s) (hp : names p = none)
    (hother : ∀ m', m' ≠ m → s'.shmem m' = s.shmem m') (hlen : (s'.shmem m).len ≠ 0)
    (href : (s'.shmem m).ref = (s.shmem m).ref + 1) :
    RefsOk (update names p (some m)) s' := by
  have hne : ∀ m', names p ≠ some m' := fun m' => by simp [hp]
  refine ⟨fun m' => ?_, fun m' q hq => ?_, fun m' hno => ?_⟩
  · obtain ⟨n, hn, hcount⟩ := h.counts m'
    rcases eq_or_ne m' m with rfl | hm
    · refine ⟨n + 1, hn.update_self (hne m'), ?_⟩
      rw [href, hcount]
      rfl
    · refine ⟨n, hn.update_of_ne (hne m') fun heq => hm (Option.some.inj heq).symm, ?_⟩
      rw [hother m' hm]
      exact hcount
  · by_cases hm : m' = m
    · rw [hm]
      exact hlen
    · have hqp : q ≠ p := by
        rintro rfl
        rw [update_self] at hq
        exact hm (Option.some.inj hq).symm
      rw [update_of_ne hqp] at hq
      rw [hother m' hm]
      exact h.alive m' q hq
  · have hm : m' ≠ m := by
      rintro rfl
      exact hno p (update_self ..)
    rw [hother m' hm]
    refine h.dead m' fun q hq => hno q ?_
    have hqp : q ≠ p := by
      rintro rfl
      exact hne m' hq
    rw [update_of_ne hqp]
    exact hq

/-- An area drops its reference, and the shared memory goes with the last one. -/
theorem RefsOk.put (h : RefsOk names s) (hp : names p = some m)
    (hother : ∀ m', m' ≠ m → s'.shmem m' = s.shmem m')
    (hlast : (s.shmem m).ref - 1 = 0 → s'.shmem m = ⟨[], none, 0, 0⟩)
    (hmore : (s.shmem m).ref - 1 ≠ 0 → s'.shmem m = { s.shmem m with ref := (s.shmem m).ref - 1 }) :
    RefsOk (update names p none) s' := by
  obtain ⟨n, hn, hcount⟩ := h.counts m
  obtain ⟨k, rfl, hk⟩ := hn.update_drop hp (v := none) (by simp)
  have hpred : (s.shmem m).ref - 1 = k := by
    omega
  have hnone : ∀ {m' q}, update names p none q = some m' → q ≠ p ∧ names q = some m' := by
    intro m' q hq
    by_cases hqp : q = p
    · rw [hqp, update_self] at hq
      cases hq
    · rw [update_of_ne hqp] at hq
      exact ⟨hqp, hq⟩
  refine ⟨fun m' => ?_, fun m' q hq => ?_, fun m' hno => ?_⟩
  · rcases eq_or_ne m' m with rfl | hm
    · refine ⟨k, hk, ?_⟩
      by_cases hzero : (s.shmem m').ref - 1 = 0
      · rw [hlast hzero, ← hpred, hzero]
      · rw [hmore hzero]
        exact hpred
    · obtain ⟨n, hn, hcount⟩ := h.counts m'
      refine ⟨n, hn.update_of_ne ?_ (by simp), ?_⟩
      · rw [hp]
        exact fun heq => hm (Option.some.inj heq).symm
      · rw [hother m' hm]
        exact hcount
  · obtain ⟨-, hq'⟩ := hnone hq
    rcases eq_or_ne m' m with rfl | hm
    · have hpos := hk.pos hq
      rw [hmore (by omega)]
      exact h.alive m' q hq'
    · rw [hother m' hm]
      exact h.alive m' q hq'
  · rcases eq_or_ne m' m with rfl | hm
    · have hzero : k = 0 := hk.unique (counts_zero.mpr hno)
      exact hlast (by omega)
    · rw [hother m' hm]
      refine h.dead m' fun q hq => hno q ?_
      have hqp : q ≠ p := by
        rintro rfl
        rw [hp] at hq
        exact hm (Option.some.inj hq).symm
      rw [update_of_ne hqp]
      exact hq

theorem shmem_withRef_self {n : ℤ} : (s.withRef m n).shmem m = { s.shmem m with ref := n } :=
  update_self ..

theorem shmem_withRef_of_ne {m' : ℕ} {n : ℤ} (hm : m' ≠ m) :
    (s.withRef m n).shmem m' = s.shmem m' := update_of_ne hm ..

/-- A shared area has a shared memory. -/
def Vma.HasShmem (v : Vma) : Prop := v.has vmShare = true → v.shmem.isSome

/-- The shared memory of an area that is destroyed. -/
theorem wp_vmaPut {E : Err → Mem → Prop} {v : Vma} {Q : Unit → Mem → Prop} (d : ℕ)
    (h : MemOk hand s) (hnull : ¬v.HasShmem → E .nullAccess s)
    (hQ : ∀ s', MemOk hand s' → Cleared s s' d (fun _ => False) →
      (v.has vmShare = false → KeptShared s s') →
      (∀ names p, RefsOk names s → names p = v.named → RefsOk (update names p none) s') →
      v.HasShmem → Q () s') : (vmaPut v).wp H E Q s := by
  rw [vmaPut]
  refine wp_if (fun hshare => ?_) fun hshare => ?_
  · have hnot : ∀ {s'}, v.has vmShare = false → KeptShared s s' := fun hfalse => by
      rw [hshare] at hfalse
      cases hfalse
    have hnamed : v.named = v.shmem := if_pos hshare
    rw [hnamed] at hQ
    cases hshmem : v.shmem with
    | none => exact hnull fun hsome => by simpa [hshmem] using hsome hshare
    | some m =>
      have hsome : v.HasShmem := fun _ => by rw [hshmem, isSome_some]
      rw [hshmem] at hQ
      rw [shmemPut, wp_bind, shmemRefDec, wp_bind, modifyShmem, wp_modify, wp_gets, wp_ite]
      have hok := h.withRef m ((s.shmem m).ref - 1)
      have hdec : ((s.withRef m ((s.shmem m).ref - 1)).shmem m).ref = (s.shmem m).ref - 1 := by
        rw [shmem_withRef_self]
      constructor
      · intro hlast
        have hlast := hdec.symm.trans hlast
        refine wp_shmemDestroy hok fun s' h' hentry hself hpgdir hother =>
          hQ s' h' ⟨fun _ hP => hP.elim, fun e i j _ => ?_, hpgdir⟩ hnot
            (fun names p hrefs hp => ?_) hsome
        · rcases hentry (.dir e i, j) with ⟨-, start, hstart⟩ | heq
          · cases hstart
          · exact heq.trans (congrFun entry_withRef _)
        · exact hrefs.put hp (fun m' hm => (hother m' hm).trans (shmem_withRef_of_ne hm))
            (fun _ => hself) (absurd hlast)
      · intro hmore
        have hmore : (s.shmem m).ref - 1 ≠ 0 := fun hlast => hmore (hdec.trans hlast)
        refine hQ _ hok ⟨fun _ hP => hP.elim, fun e i j _ => congrFun entry_withRef _, rfl⟩
          hnot (fun names p hrefs hp => ?_) hsome
        exact hrefs.put hp (fun m' => shmem_withRef_of_ne) (fun hlast => absurd hlast hmore)
          fun _ => shmem_withRef_self
  · refine hQ s h (.refl s d) (fun _ => .refl s) (fun names p hrefs hp => ?_)
      fun hshare' => absurd hshare' hshare
    have hnamed : v.named = none := if_neg hshare
    rw [← hp.trans hnamed, update_eq_self]
    exact hrefs

/-! ## Parts of shared areas -/

/-- A part of a shared area, with the same view of the shared memory. -/
structure Vma.CutTo (v v' : Vma) : Prop where
  shmem : v'.shmem = v.shmem
  start_le : v.vmStart ≤ v'.vmStart
  le_end : v'.vmEnd ≤ v.vmEnd
  off : v'.shmemOff + v.vmStart = v'.vmStart + v.shmemOff

theorem Vma.CutTo.refl (v : Vma) : v.CutTo v :=
  ⟨rfl, le_rfl, le_rfl, Nat.add_comm ..⟩

theorem Vma.cutTo_resized {v : Vma} (hstart : v.vmStart ≤ start) (hend : fin ≤ v.vmEnd)
    (hshare : v.has vmShare = true) : v.CutTo { v.resized start fin with vmMm := true } := by
  refine ⟨rfl, hstart, hend, ?_⟩
  have hoff : (v.resized start fin).shmemOff = v.shmemOff + (start - v.vmStart) := if_pos hshare
  show (v.resized start fin).shmemOff + v.vmStart = start + v.shmemOff
  omega

section

variable {m m' m₁ : Mm} {s₁ : Mem} {v : Vma} {x y : ℕ}

theorem share_eq_some : m.share x = some v ↔ m.areas x = some v ∧ v.has vmShare = true := by
  rw [Mm.share, areas_eq_some]
  split_ifs with h
  · rw [Option.some.injEq]
    exact ⟨fun hv => ⟨⟨h.1, hv⟩, hv ▸ h.2⟩, fun hv => hv.1.2⟩
  · refine ⟨nofun, ?_⟩
    rintro ⟨⟨hx, rfl⟩, hshare⟩
    exact absurd ⟨hx, hshare⟩ h

theorem share_congr (h : m'.areas x = m.areas x) : m'.share x = m.share x := by
  ext v
  rw [share_eq_some, share_eq_some, h]

theorem share_eq_none (h : ∀ v ∈ m.areas x, v.has vmShare = false) : m.share x = none := by
  refine eq_none_iff_forall_not_mem.mpr fun v hv => ?_
  obtain ⟨hx, hshare⟩ := share_eq_some.mp hv
  cases hshare.symm.trans (h v hx)

/-- The shared memories that the areas of an address space name. -/
def Mm.naming (m : Mm) (x : ℕ) : Option ℕ := (m.share x).bind Vma.shmem

theorem naming_eq : m.naming x = (m.areas x).bind Vma.named := by
  rw [Mm.naming]
  cases hx : m.areas x with
  | none => rw [share_eq_none fun v hv => absurd (hx.symm.trans hv) (by simp), bind_none,
      bind_none]
  | some v =>
    rw [bind_some, Vma.named]
    split_ifs with hshare
    · rw [share_eq_some.mpr ⟨hx, hshare⟩, bind_some]
    · rw [share_eq_none fun u hu => ?_, bind_none]
      rw [← Option.some.inj (hx.symm.trans hu)]
      simpa using hshare

theorem naming_update {o : Option Vma} (h : m'.areas = update m.areas y o) :
    m'.naming = update m.naming y (o.bind Vma.named) := by
  funext x
  rw [naming_eq, h]
  by_cases hx : x = y
  · rw [hx, update_self, update_self]
  · rw [update_of_ne hx, update_of_ne hx, naming_eq]

theorem has_share_heap (hflags : v.vmFlags = vmRead ||| vmWrite) : v.has vmShare = false := by
  rw [Vma.has, hflags]
  decide

theorem Grown.share (h : Grown m m') : m'.share = m.share := by
  funext x
  rcases h x with hsame | ⟨hnew, hold⟩
  · exact share_congr hsame
  · rw [share_eq_none fun v hv => has_share_heap (hnew v hv),
      share_eq_none fun v hv => has_share_heap (hold v hv)]

/-- The counts follow when the areas of one address space name other shared memories. -/
def Moves (s s' : Mem) (d : ℕ) (old new : ℕ → Option ℕ) : Prop :=
  ∀ names names', RefsOk names s → (∀ x, names (d, x) = old x) → (∀ x, names' (d, x) = new x) →
    (∀ e x, e ≠ d → names' (e, x) = names (e, x)) → RefsOk names' s'

variable {old mid new : ℕ → Option ℕ}

theorem moves_same (h : ∀ names, RefsOk names s → RefsOk names s') : Moves s s' d old old := by
  intro names names' hrefs hold hnew hother
  have heq : names' = names := by
    funext p
    obtain ⟨e, x⟩ := p
    by_cases he : e = d
    · rw [he, hnew, hold]
    · exact hother e x he
  rw [heq]
  exact h names hrefs

theorem Moves.trans (h : Moves s s₁ d old mid) (h' : Moves s₁ s' d mid new) :
    Moves s s' d old new := by
  intro names names' hrefs hold hnew hother
  have hmid := h names (fun p => if p.1 = d then mid p.2 else names p) hrefs hold
    (fun x => if_pos rfl) fun e x he => if_neg he
  exact h' _ names' hmid (fun x => if_pos rfl) hnew
    fun e x he => (hother e x he).trans (if_neg he).symm

theorem moves_update {o : Option ℕ}
    (h : ∀ names p, RefsOk names s → names p = old y → RefsOk (update names p o) s') :
    Moves s s' d old (update old y o) := by
  intro names names' hrefs hold hnew hother
  have heq : names' = update names (d, y) o := by
    funext p
    obtain ⟨e, x⟩ := p
    by_cases hp : e = d ∧ x = y
    · obtain ⟨rfl, rfl⟩ := hp
      rw [hnew, update_self, update_self]
    · rw [update_of_ne fun heq => hp (Prod.mk.inj heq)]
      rcases eq_or_ne e d with rfl | he
      · rw [hnew, update_of_ne fun hx => hp ⟨rfl, hx⟩, hold]
      · exact hother e x he
  rw [heq]
  exact h names (d, y) hrefs (hold y)

/-- What a change does to the shared areas of one address space: they become smaller or
disappear. -/
structure Shrunk (m m' : Mm) (s s' : Mem) (d : ℕ) : Prop where
  share : ∀ x v, m'.share x = some v → ∃ u, m.share x = some u ∧ u.CutTo v
  refs : Moves s s' d m.naming m'.naming

theorem Shrunk.of_eq (hshare : m'.share = m.share)
    (hrefs : ∀ names, RefsOk names s → RefsOk names s') : Shrunk m m' s s' d := by
  refine ⟨fun x v hv => ⟨v, by rw [← hshare]; exact hv, .refl v⟩, ?_⟩
  have hnames : m'.naming = m.naming := by
    funext x
    rw [Mm.naming, Mm.naming, hshare]
  rw [hnames]
  exact moves_same hrefs

theorem Shrunk.of_share (h : Shrunk m m₁ s s' d) (hshare : m'.share = m₁.share) :
    Shrunk m m' s s' d := by
  obtain ⟨hcut, hrefs⟩ := h
  rw [← hshare] at hcut
  exact ⟨hcut, hrefs.trans (Shrunk.of_eq hshare fun _ h => h).refs⟩

end

end Ucore.Vm
