import Ucore.Vm.Unmap

/-!
# The end of an address space

`exit_mmap` unmaps the areas and frees the tables of the regions that they touch; `mm_destroy`
drops the tree and the areas, with the references of the shared ones.
-/

namespace Ucore.Vm

open Kern Function List

variable {H : Prop} {s s' s'' : Mem} {hand : Finset ℕ} {d la start fin fuel : ℕ}
  {R R' : ℕ → Prop}

/-! ## Tables -/

/-- The tables of some regions are gone, and no slot has changed. -/
structure TablesFreed (s s' : Mem) (d : ℕ) (R : ℕ → Prop) : Prop where
  gone : ∀ i, R i → s'.pgdir d i = none
  kept : ∀ e i, ¬(e = d ∧ R i) → s'.pgdir e i = s.pgdir e i
  entry : s'.entry = s.entry
  shmem : s'.shmem = s.shmem

theorem TablesFreed.of_none (h : ∀ i, R i → s.pgdir d i = none) : TablesFreed s s d R :=
  ⟨h, fun _ _ _ => rfl, rfl, rfl⟩

theorem TablesFreed.trans (h : TablesFreed s s' d R) (h' : TablesFreed s' s'' d R') :
    TablesFreed s s'' d fun i => R i ∨ R' i := by
  refine ⟨fun i hi => ?_, fun e i hne => ?_, h'.entry.trans h.entry, h'.shmem.trans h.shmem⟩
  · by_cases hR' : R' i
    · exact h'.gone i hR'
    · rw [h'.kept d i fun hmem => hR' hmem.2]
      exact h.gone i (hi.resolve_right hR')
  · rw [h'.kept e i fun hmem => hne ⟨hmem.1, .inr hmem.2⟩]
    exact h.kept e i fun hmem => hne ⟨hmem.1, .inl hmem.2⟩

theorem TablesFreed.congr (h : TablesFreed s s' d R) (heq : ∀ i, R i ↔ R' i) :
    TablesFreed s s' d R' :=
  ⟨fun i hi => h.gone i ((heq i).mpr hi),
    fun e i hne => h.kept e i fun hmem => hne ⟨hmem.1, (heq i).mp hmem.2⟩, h.entry, h.shmem⟩

section

variable {E : Err → Mem → Prop} {Q : Unit → Mem → Prop}

/-- The state after a table has been freed. -/
def Mem.withoutTable (s : Mem) (d i t : ℕ) : Mem :=
  { s.freed t with pgdir := update s.pgdir d (update (s.pgdir d) i none) }

section

variable (h : MemOk hand s) (hempty : ∀ i j, s.entry (.dir d i, j) = .none)
include h hempty

/-- The table of a region is freed. -/
theorem wp_exitRegion (hQ : ∀ s', MemOk hand s' → TablesFreed s s' d (· = pdx la) → Q () s') :
    (exitRegion d la).wp H E Q s := by
  rw [exitRegion, wp_get]
  cases hdir : s.pgdir d (pdx la) with
  | none =>
    refine hQ s h (.of_none fun i hi => ?_)
    rw [hi]
    exact hdir
  | some t =>
    show Q () (s.withoutTable d (pdx la) t)
    generalize hs' : s.withoutTable d (pdx la) t = s'
    have hpgdir : s'.pgdir = update s.pgdir d (update (s.pgdir d) (pdx la) none) := by
      rw [← hs']
      rfl
    have hshmem : s'.shmem = s.shmem := by rw [← hs']; rfl
    have htableOf : s'.tableOf = update s.tableOf (.dir d (pdx la)) none := by
      funext o
      cases o with
      | dir e i =>
        show s'.pgdir e i = _
        rw [hpgdir]
        rcases eq_or_ne e d with rfl | he
        · rw [update_self]
          by_cases hi : i = pdx la
          · rw [hi, update_self, update_self]
          · rw [update_of_ne hi, update_of_ne (by simp [hi])]
            rfl
        · rw [update_of_ne he, update_of_ne (by simp [he])]
          rfl
      | shmn m start =>
        rw [update_of_ne (by simp), Mem.tableOf, Mem.tableOf, hshmem]
    obtain ⟨hok, hentry⟩ := h.dropTable s' (.dir d (pdx la)) hdir (hempty _)
      (by rw [← hs']; rfl) (by rw [← hs']; rfl) (by rw [← hs']; rfl) (by rw [← hs']; rfl) htableOf
      (by rw [hshmem]; exact h.shares)
    refine hQ s' hok ⟨fun i hi => ?_, fun e i hne => ?_, hentry, hshmem⟩
    · rw [hpgdir, hi, update_self, update_self]
    · rw [hpgdir]
      rcases eq_or_ne e d with rfl | he
      · rw [update_self, update_of_ne fun hi => hne ⟨rfl, hi⟩]
      · rw [update_of_ne he]

/-- The loop of `exit_range`. -/
theorem wp_exitRangePgd (hstart : start % ptSize = 0) (hlt : start < fin) (hfin : fin ≤ 2 ^ 32)
    (hfuel : fin - start ≤ fuel * ptSize)
    (hQ : ∀ s', MemOk hand s' →
      TablesFreed s s' d (fun i => start ≤ i * ptSize ∧ i * ptSize < fin) → Q () s') :
    (exitRangePgd d fuel start fin).wp H E Q s := by
  induction fuel generalizing s start with
  | zero => omega
  | succ fuel ih =>
    rw [exitRangePgd, wp_bind]
    refine wp_exitRegion h hempty fun s₁ h₁ hfreed => ?_
    have hfirst : ∀ i, i = pdx start ↔ start ≤ i * ptSize ∧ i * ptSize < start + ptSize := by
      intro i
      rw [pdx]
      rw [ptSize_eq] at hstart ⊢
      rw [npdEntry_eq]
      omega
    refine wp_if (fun hmore => ?_) fun hend => ?_
    · refine ih h₁ ?_ ?_ hmore ?_ fun s' h' hfreed' => hQ s' h' ?_
      · rw [hfreed.entry]
        exact hempty
      · rw [Nat.add_mod_right]
        exact hstart
      · rw [ptSize_eq] at hfuel ⊢
        omega
      · refine (hfreed.trans hfreed').congr fun i => ?_
        rw [hfirst]
        omega
    · refine hQ s₁ h₁ (hfreed.congr fun i => ?_)
      rw [hfirst]
      rw [ptSize_eq] at hstart hend ⊢
      omega

end

/-- A range and the region of a directory entry have an address in common. -/
def Touches (start fin i : ℕ) : Prop := start < (i + 1) * ptSize ∧ i * ptSize < fin

/-- `exit_range` frees the tables of the regions that a range touches. -/
theorem wp_exitRange (h : MemOk hand s) (hempty : ∀ i j, s.entry (.dir d i, j) = .none)
    (hstart : start % pgSize = 0) (hfin : fin % pgSize = 0) (haccess : UserAccess start fin)
    (hQ : ∀ s', MemOk hand s' → TablesFreed s s' d (Touches start fin) → Q () s') :
    (exitRange d start fin).wp H E Q s := by
  have hbound := haccess.bound
  have hlt := haccess.lt
  refine wp_check ⟨hstart, hfin⟩ ?_
  refine wp_check haccess ?_
  refine wp_exitRangePgd h hempty ?_ ?_ (by omega) ?_ fun s' h' hfreed => hQ s' h' ?_
  · rw [roundDown, ptSize_eq]
    omega
  · rw [roundDown]
    omega
  · rw [npdEntry_eq, ptSize_eq]
    omega
  · refine hfreed.congr fun i => ?_
    rw [Touches, roundDown, ptSize_eq]
    omega

end

/-! ## `exit_mmap` -/

variable {S : Spaces} {E : Err → Spaces → Prop} {Q : Unit → Spaces → Prop} {l : List ℕ} {m : Mm}

section

variable (hmem : MemOk hand S.mem) (hok : ∀ x ∈ l, ((S.mm d).vma x).Ok)
include hmem hok

/-- The first loop of `exit_mmap`. -/
theorem wp_overUnmap (hQ : ∀ s', MemOk hand s' → KeptShared S.mem s' →
      Cleared S.mem s' d (fun la => ∃ x ∈ l, ((S.mm d).vma x).In la) → Q () (S.setMem s')) :
    (overVmas d unmapRange l).wp H E Q S := by
  induction l generalizing S with
  | nil =>
    exact hQ S.mem hmem (.refl _) ((Cleared.refl S.mem d).congr fun la => by simp)
  | cons x l ih =>
    have hokx := hok x (.head _)
    rw [overVmas, wp_get, wp_bind, wp_onMem]
    refine wp_unmapRange hmem hokx.start_aligned hokx.end_aligned hokx.access fun s₁ hmem₁ hun => ?_
    refine ih hmem₁ (fun y hy => hok y (.tail _ hy)) fun s' hmem' hkept hclear => ?_
    refine hQ s' hmem' (hun.keptShared.trans hkept) ((hun.cleared'.trans hclear).congr fun la => ?_)
    rw [exists_mem_cons_iff]
    rfl

/-- The second loop of `exit_mmap`. -/
theorem wp_overExit (hempty : ∀ i j, S.mem.entry (.dir d i, j) = .none)
    (hQ : ∀ s', MemOk hand s' → TablesFreed S.mem s' d (fun i =>
      ∃ x ∈ l, Touches ((S.mm d).vma x).vmStart ((S.mm d).vma x).vmEnd i) → Q () (S.setMem s')) :
    (overVmas d exitRange l).wp H E Q S := by
  induction l generalizing S with
  | nil =>
    refine hQ S.mem hmem (.of_none fun i hi => ?_)
    obtain ⟨x, hx, -⟩ := hi
    cases hx
  | cons x l ih =>
    have hokx := hok x (.head _)
    rw [overVmas, wp_get, wp_bind, wp_onMem]
    refine wp_exitRange hmem hempty hokx.start_aligned hokx.end_aligned hokx.access
      fun s₁ hmem₁ hfreed => ?_
    refine ih hmem₁ (fun y hy => hok y (.tail _ hy)) ?_ fun s' hmem' hfreed' => ?_
    · rw [mem_setMem, hfreed.entry]
      exact hempty
    · refine hQ s' hmem' ((hfreed.trans hfreed').congr fun i => ?_)
      rw [exists_mem_cons_iff]
      rfl

end

/-- Every page of a directory lies in an area. -/
def Backed (s : Mem) (m : Mm) (d : ℕ) : Prop :=
  ∀ i j, s.entry (.dir d i, j) ≠ .none →
    ∃ la, ((.dir d i, j) : Slot) = slot d la ∧ (m.flagsAt la).isSome

/-- The regions that the areas of an address space touch. -/
def Mm.Covers (m : Mm) (i : ℕ) : Prop :=
  ∃ x ∈ m.mmapList, Touches (m.vma x).vmStart (m.vma x).vmEnd i

/-- What `exit_mmap` leaves of a directory. -/
structure Exited (s s' : Mem) (m : Mm) (d : ℕ) : Prop where
  empty : ∀ i j, s'.entry (.dir d i, j) = .none
  other : ∀ e i j, e ≠ d → s'.entry (.dir e i, j) = s.entry (.dir e i, j)
  shared : KeptShared s s'
  gone : ∀ i, m.Covers i → s'.pgdir d i = none
  kept : ∀ e i, ¬(e = d ∧ m.Covers i) → s'.pgdir e i = s.pgdir e i

/-- A directory whose pages have been unmapped. -/
theorem Cleared.empty (h : Cleared s s' d fun la => (m.flagsAt la).isSome) (hback : Backed s m d)
    (i j : ℕ) : s'.entry (.dir d i, j) = .none := by
  by_cases hin : ∃ la, (m.flagsAt la).isSome ∧ ((.dir d i, j) : Slot) = slot d la
  · obtain ⟨la, hsome, hslot⟩ := hin
    rw [hslot]
    exact h.cleared la hsome
  · rw [h.kept d i j fun la hsome hslot => hin ⟨la, hsome, hslot⟩]
    by_contra hne
    obtain ⟨la, hslot, hsome⟩ := hback i j hne
    exact hin ⟨la, hsome, hslot⟩

/-- `exit_mmap`. -/
theorem wp_exitMmap (hmem : MemOk hand S.mem) (hmm : MmOk [] (S.mm d))
    (hcount : (S.mm d).mmCount = 0) (hback : Backed S.mem (S.mm d) d)
    (hQ : ∀ s', MemOk hand s' → Exited S.mem s' (S.mm d) d → Q () (S.setMem s')) :
    (exitMmap d).wp H E Q S := by
  refine wp_check hcount ?_
  refine wp_seq (wp_overUnmap hmem hmm.ok fun s₁ hmem₁ hkept hclear => ?_)
  have hsome : ∀ la, (∃ x ∈ (S.mm d).mmapList, ((S.mm d).vma x).In la) ↔
      ((S.mm d).flagsAt la).isSome := fun la => exists_area.symm.trans flagsAt_isSome.symm
  have hempty := (hclear.congr hsome).empty hback
  refine wp_overExit hmem₁ hmm.ok hempty fun s' hmem' hfreed => ?_
  refine hQ s' hmem' ⟨fun i j => ?_, fun e i j he => ?_, ⟨hfreed.shmem.trans hkept.shmem,
    fun m start j => ?_⟩, hfreed.gone, fun e i hne => ?_⟩
  · rw [hfreed.entry]
    exact hempty i j
  · rw [hfreed.entry]
    exact hclear.kept e i j fun la _ => dir_ne_slot he
  · rw [hfreed.entry]
    exact hkept.entry m start j
  · rw [hfreed.kept e i hne]
    exact congrFun (congrFun hclear.pgdir e) i

/-! ## `mm_destroy` -/

/-- A structure without areas, blocks and a tree. -/
structure Mm.Blank (m : Mm) : Prop where
  list : m.mmapList = []
  tree : m.mmapTree = none
  cache : m.mmapCache = none
  count : m.mapCount = 0
  live : m.heap.live = []

theorem Mm.Blank.mmOk (h : m.Blank) : MmOk [] m where
  ok x hx := absurd hx (by simp [h.list])
  sorted := by
    rw [h.list]
    exact List.Pairwise.nil
  count := by
    rw [h.count, h.list]
    rfl
  nodup := by
    rw [h.live]
    exact nodup_nil
  blocks := by
    rw [h.live, h.list, Mm.treeBlocks, h.tree]
    exact List.Perm.nil
  linked x hx := absurd hx (by simp [h.list])
  cache x hx := absurd hx (by simp [h.cache])
  tree p hp := absurd hp (by simp [h.tree])

theorem Mm.Blank.areas (h : m.Blank) (x : ℕ) : m.areas x = none :=
  areas_of_notMem (by simp [h.list])

theorem Mm.Blank.share (h : m.Blank) (x : ℕ) : m.share x = none :=
  share_eq_none fun v hv => absurd ((h.areas x).symm.trans hv) (by simp)

theorem Mm.Blank.flagsAt (h : m.Blank) (la : ℕ) : m.flagsAt la = none := by
  rw [Mm.flagsAt, h.list]
  rfl

/-- `rb_tree_destroy` frees the blocks of the tree. -/
theorem wp_treeDestroy {E : Err → Mm → Prop} {Q : Unit → Mm → Prop} (h : MmOk [] m)
    (hQ : ∀ h', h'.live.Perm m.mmapList → Q () { m with heap := h' }) : treeDestroy.wp H E Q m := by
  have hblocks := h.blocks
  rw [append_nil] at hblocks
  rw [treeDestroy, wp_get]
  cases htree : m.mmapTree with
  | none =>
    rw [Mm.treeBlocks, htree, append_nil] at hblocks
    exact hQ m.heap hblocks
  | some p =>
    rw [Mm.treeBlocks, htree] at hblocks
    refine hQ _ ?_
    have hperm : m.heap.live.Perm (p.root :: p.nil :: p.addr :: m.mmapList) := by
      refine hblocks.trans (perm_append_comm.trans ?_)
      exact (reverse_perm [p.root, p.nil, p.addr]).append_right m.mmapList
    have hroot := hperm.erase p.root
    rw [erase_cons_head] at hroot
    have hnil := hroot.erase p.nil
    rw [erase_cons_head] at hnil
    have haddr := hnil.erase p.addr
    rw [erase_cons_head] at haddr
    exact haddr

/-- All areas are gone. -/
structure Dropped (m : Mm) (s s' : Mem) (d : ℕ) : Prop where
  slots : Cleared s s' d fun _ => False
  shared : (∀ x ∈ m.mmapList, (m.vma x).has vmShare = false) → KeptShared s s'
  refs : Moves s s' d m.naming fun _ => none
  shmem : ∀ x ∈ m.mmapList, (m.vma x).HasShmem

theorem naming_nil (h : m.mmapList = []) : m.naming = fun _ => none := by
  funext x
  rw [naming_eq, areas_of_notMem (by simp [h]), Option.bind_none]

theorem dropped_nil (h : m.mmapList = []) : Dropped m s s d := by
  refine ⟨.refl _ d, fun _ => .refl _, ?_, fun x hx => absurd hx (by simp [h])⟩
  rw [naming_nil h]
  exact moves_same fun _ h => h

theorem Dropped.cons {m₁ : Mm} {s₁ : Mem} {x : ℕ} (h : Dropped m₁ s₁ s' d) (hx : x ∉ l)
    (hlist : m.mmapList = x :: l) (hlist₁ : m₁.mmapList = l) (hvma : m₁.vma = m.vma)
    (hclear : Cleared s s₁ d fun _ => False)
    (hkept : (m.vma x).has vmShare = false → KeptShared s s₁)
    (hput : ∀ names p, RefsOk names s → names p = (m.vma x).named → RefsOk (update names p none) s₁)
    (hsome : (m.vma x).HasShmem) : Dropped m s s' d := by
  obtain ⟨hslots, hshared, hrefs, hshmem⟩ := h
  rw [hlist₁, hvma] at hshared hshmem
  refine ⟨(hclear.trans hslots).congr fun la => or_self_iff, fun hprivate => ?_, ?_, fun y hy => ?_⟩
  · rw [hlist] at hprivate
    exact (hkept (hprivate x (.head _))).trans (hshared fun y hy => hprivate y (.tail _ hy))
  · have hareas : m₁.areas = update m.areas x none := by
      funext y
      rw [Mm.areas, hlist₁, hvma]
      by_cases hy : y = x
      · rw [hy, if_neg hx, update_self]
      · rw [update_of_ne hy, Mm.areas, hlist]
        exact if_congr (mem_cons.trans (or_iff_right hy)).symm rfl rfl
    rw [naming_update hareas] at hrefs
    refine (moves_update fun names p hok hp => hput names p hok (hp.trans ?_)).trans hrefs
    rw [naming_eq, areas_of_mem (hlist ▸ mem_cons_self), Option.bind_some]
  · rw [hlist] at hy
    rcases mem_cons.mp hy with rfl | hy
    · exact hsome
    · exact hshmem y hy

/-- The loop of `mm_destroy`. -/
theorem wp_destroyVmas (hmem : MemOk hand s) (hlist : m.mmapList = l)
    (hlive : m.heap.live.Perm l) (hnodup : l.Nodup)
    (hnull : ∀ x ∈ l, ¬(m.vma x).HasShmem → ∀ S', E .nullAccess S')
    (hQ : ∀ m' s', MemOk hand s' → m'.mmapList = [] → m'.heap.live = [] →
      m'.mmCount = m.mmCount → Dropped m s s' d → Q () (S.put d m' s')) :
    (destroyVmas d l).wp H E Q (S.put d m s) := by
  induction l generalizing m s with
  | nil => exact hQ m s hmem hlist hlive.eq_nil rfl (dropped_nil hlist)
  | cons x l ih =>
    obtain ⟨hxl, hnodup⟩ := nodup_cons.mp hnodup
    rw [destroyVmas, wp_bind, wp_onMm_put, wp_modify, wp_bind, vmaDestroy, wp_get, mm_put_self,
      wp_bind, wp_onMem_put]
    refine wp_vmaPut d hmem (fun hno => hnull x (.head _) hno _)
      fun s₁ hmem₁ hclear hkept hput hsome => ?_
    rw [wp_onMm_put, Mm.kfree, wp_zoom]
    have herase := hlive.erase x
    rw [erase_cons_head] at herase
    exact ih hmem₁ rfl herase hnodup (fun y hy => hnull y (.tail _ hy))
      fun m' s' hmem' hlist' hlive' hcount' hdropped => hQ m' s' hmem' hlist' hlive' hcount'
        (hdropped.cons hxl hlist rfl rfl hclear hkept hput hsome)

/-- `mm_destroy`. -/
theorem wp_mmDestroy (hmem : MemOk hand S.mem) (hmm : MmOk [] (S.mm d))
    (hcount : (S.mm d).mmCount = 0)
    (hnull : ∀ x ∈ (S.mm d).mmapList, ¬((S.mm d).vma x).HasShmem → ∀ S', E .nullAccess S')
    (hQ : ∀ m' s', MemOk hand s' → m'.Blank → m'.mmCount = 0 →
      Cleared S.mem s' d (fun _ => False) → Shrunk (S.mm d) m' S.mem s' d →
      ((∀ x ∈ (S.mm d).mmapList, ((S.mm d).vma x).has vmShare = false) → KeptShared S.mem s') →
      (∀ x ∈ (S.mm d).mmapList, ((S.mm d).vma x).HasShmem) → Q () (S.put d m' s')) :
    (mmDestroy d).wp H E Q S := by
  refine wp_check hcount ?_
  rw [wp_bind, wp_onMm]
  refine wp_treeDestroy hmm fun h' hlive => ?_
  refine wp_seq (wp_destroyVmas (s := S.mem) hmem rfl hlive hmm.nodup_list hnull
    fun m₁ s' hmem' hlist₁ hlive₁ hcount₁ hdropped => ?_)
  rw [wp_onMm_put, wp_modify]
  have hblank : Mm.Blank { m₁ with mmapTree := none, mmapCache := none, mapCount := 0 } :=
    ⟨hlist₁, rfl, rfl, rfl, hlive₁⟩
  refine hQ _ s' hmem' hblank (hcount₁.trans hcount) hdropped.slots ⟨fun x v hv => ?_, ?_⟩
    hdropped.shared hdropped.shmem
  · rw [hblank.share] at hv
    cases hv
  · rw [naming_nil hblank.list]
    exact hdropped.refs

end Ucore.Vm
