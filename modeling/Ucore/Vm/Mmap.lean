import Mathlib.Order.Bounds.Basic
import Ucore.Vm.AreaRuns

/-!
# Requests for addresses

`get_unmapped_area`, `do_mmap` and `do_shmem`. The search goes down the list from its end and
finds the highest place. The functions that map compute the end of a request modulo `2 ^ 32`
before they look at it, and take every address of the first page for a request without one.
-/

namespace Ucore.Vm

open Kern Function List

variable {k : Sys} {m m' : Mm} {l done loose : List ℕ} {a d x addr len start place : ℕ}
  {vmFlags : Flags} {write stack : Bool} {new : Option ℕ}

/-! ## The search -/

/-- A place for a request of so many bytes. -/
structure Mm.Fits (m : Mm) (len start : ℕ) : Prop where
  aligned : start % pgSize = 0
  base : userBase ≤ start
  top : start + len ≤ userTop
  free : m.Free start (start + len)

/-- The loop: the areas it has passed are behind the range that it looks at, and no place is
higher. -/
theorem unmappedFrom_spec (h : MmOk loose m) (hlist : m.mmapList = l.reverse ++ done)
    (hlen : len % pgSize = 0) (haligned : start % pgSize = 0) (htop : start + len ≤ userTop)
    (hdone : ∀ y ∈ done, start + len ≤ (m.vma y).vmStart)
    (hmax : ∀ s, m.Fits len s → s ≤ start) :
    IsGreatest {s | m.Fits len s} (unmappedFrom m len start l) ∨
      unmappedFrom m len start l = 0 ∧ ∀ s, ¬m.Fits len s := by
  induction l generalizing start done with
  | nil =>
    rw [unmappedFrom]
    split
    · rename_i hbase
      refine .inl ⟨⟨haligned, hbase, htop, fun y v hy => ?_⟩, hmax⟩
      obtain ⟨hmem, rfl⟩ := areas_eq_some.mp hy
      rw [hlist] at hmem
      exact .inr (hdone y hmem)
    · rename_i hbase
      exact .inr ⟨rfl, fun s hs => hbase (hs.base.trans (hmax s hs))⟩
  | cons x l ih =>
    rw [reverse_cons, append_assoc, singleton_append] at hlist
    have hx : x ∈ m.mmapList := by
      rw [hlist]
      exact mem_append_right _ (.head _)
    have hok := h.ok x hx
    have hlt := hok.lt
    have hsorted := h.sorted
    rw [hlist] at hsorted
    obtain ⟨-, hafter, hbefore⟩ := pairwise_append.mp hsorted
    rw [unmappedFrom]
    split
    · -- the range is behind this area, and in front of those that were passed
      rename_i hend
      refine .inl ⟨⟨haligned, hok.access.1.trans (hlt.le.trans hend), htop, fun y v hy => ?_⟩, hmax⟩
      obtain ⟨hmem, rfl⟩ := areas_eq_some.mp hy
      rw [hlist, mem_append, mem_cons] at hmem
      rcases hmem with hy | rfl | hy
      · have hle : (m.vma y).vmEnd ≤ (m.vma x).vmStart := hbefore y hy x (.head _)
        exact .inl (hle.trans (hlt.le.trans hend))
      · exact .inl hend
      · exact .inr (hdone y hy)
    · -- a place that is not higher is in front of this area
      have hbelow : ∀ s, m.Fits len s → s + len ≤ (m.vma x).vmStart := by
        intro s hs
        have hle := hmax s hs
        exact (hs.free x _ (areas_of_mem hx)).resolve_left (by omega)
      have hpassed : ∀ y ∈ x :: done, (m.vma x).vmStart ≤ (m.vma y).vmStart := by
        intro y hy
        rcases mem_cons.mp hy with rfl | hy
        · exact le_rfl
        · have hle : (m.vma x).vmEnd ≤ (m.vma y).vmStart := (pairwise_cons.mp hafter).1 y hy
          omega
      split
      · split
        · refine .inr ⟨rfl, fun s hs => ?_⟩
          have hle := hbelow s hs
          have hbase := hs.base
          rw [userBase] at hbase
          omega
        · have hstart := hok.start_aligned
          have hsum : (m.vma x).vmStart - len + len = (m.vma x).vmStart := by omega
          refine ih hlist ?_ (by omega) (fun y hy => ?_) fun s hs => ?_
          · rw [pgSize_eq] at hlen hstart ⊢
            omega
          · rw [hsum]
            exact hpassed y hy
          · have hfit := hbelow s hs
            omega
      · rename_i hclear
        refine ih hlist haligned htop (fun y hy => ?_) hmax
        exact (not_lt.mp hclear).trans (hpassed y hy)

theorem getUnmappedArea_spec (h : MmOk loose m) (hpos : 0 < len) (hlen : len % pgSize = 0) :
    IsGreatest {s | m.Fits len s} (getUnmappedArea m len) ∨
      getUnmappedArea m len = 0 ∧ ∀ s, ¬m.Fits len s := by
  rw [getUnmappedArea]
  split
  · refine .inr ⟨rfl, fun s hs => ?_⟩
    have htop := hs.top
    omega
  · have hsum : userTop - len + len = userTop := by omega
    have hlist : m.mmapList = m.mmapList.reverse.reverse ++ [] := by simp
    refine unmappedFrom_spec h hlist hlen ?_ hsum.le (by simp) fun s hs => ?_
    · rw [userTop]
      rw [pgSize_eq] at hlen ⊢
      omega
    · have htop := hs.top
      omega

/-- `get_unmapped_area` returns the highest place for a request, and 0 if and only if there is
none. -/
theorem get_unmapped_area_best (h : MmOk [] m) (hpos : 0 < len) (hlen : len % pgSize = 0) :
    (getUnmappedArea m len ≠ 0 → IsGreatest {s | m.Fits len s} (getUnmappedArea m len)) ∧
      (getUnmappedArea m len = 0 ↔ ¬∃ s, m.Fits len s) := by
  rcases getUnmappedArea_spec h hpos hlen with hbest | ⟨hzero, hnone⟩
  · have hne : getUnmappedArea m len ≠ 0 := by
      have hbase := hbest.1.base
      rw [userBase] at hbase
      omega
    exact ⟨fun _ => hbest, iff_of_false hne fun hnot => hnot ⟨_, hbest.1⟩⟩
  · exact ⟨(absurd hzero), iff_of_true hzero (not_exists.mpr hnone)⟩

/-- A page is placed at the end of user space. -/
theorem get_unmapped_area_best_page : IsGreatest {s | oneArea.Fits 0x1000 s} 0x6FFFF000 := by
  refine (get_unmapped_area_best mmOk_oneArea (by decide) (by decide)).1 ?_
  decide

/-! ## The calls -/

/-- `do_mmap` for the address that it has read from the user, with the address that it stores. -/
def doMmap (addr len : ℕ) (write stack : Bool) : MmM ℕ :=
  if len = 0 then throw .inval
  else do
    let m ← get
    let place := m.reqPlace addr len
    if place = 0 then throw .noMem
    else do
      let _ ← mmMap place (reqSize addr len) (shmemFlags write stack)
      return place

/-- A new area in user space has all addresses of a request. -/
def Mm.Gains (m m' : Mm) (start len : ℕ) : Prop :=
  ∃ z v, m.areas z = none ∧ m'.areas = update m.areas z (some v) ∧
    userBase ≤ v.vmStart ∧ v.vmEnd ≤ userTop ∧ ∀ la, start ≤ la → la < start + len → v.In la

/-- What a new area has. -/
theorem gains_iff {v : Vma} {z : ℕ} (hpos : 0 < len) (haccess : UserAccess v.vmStart v.vmEnd)
    (hfresh : m.areas z = none) (hareas : m'.areas = update m.areas z (some v)) :
    m.Gains m' a len ↔ v.vmStart ≤ a ∧ a + len ≤ v.vmEnd := by
  constructor
  · rintro ⟨y, u, -, hareas', -, -, hin⟩
    have hy : y = z := by
      by_contra hne
      have hold := congrFun hareas' z
      rw [hareas, update_self, update_of_ne (Ne.symm hne), hfresh] at hold
      cases hold
    subst hy
    have hu := congrFun hareas' y
    rw [hareas, update_self, update_self, Option.some.injEq] at hu
    subst hu
    have hfirst := hin a le_rfl (by omega)
    have hlast := hin (a + len - 1) (by omega) (by omega)
    exact ⟨hfirst.1, by have := hlast.2; omega⟩
  · rintro ⟨hstart, hend⟩
    exact ⟨z, v, hfresh, hareas, haccess.1, haccess.2.2,
      fun la hlo hhi => ⟨hstart.trans hlo, hhi.trans_le hend⟩⟩

/-- The rounded end of a request that does not wrap is not before its end, unless it wraps. -/
theorem le_reqEnd (h : addr + len < 2 ^ 32) (hne : reqEnd addr len ≠ 0) :
    addr + len ≤ reqEnd addr len := by
  rw [reqEnd, roundUp, roundDown, pgSize_eq] at hne ⊢
  omega

/-- The range of `mm_map` has the request if and only if the request does not wrap. -/
theorem reqEnd_covers_iff (haccess : UserAccess (roundDown addr pgSize) (reqEnd addr len)) :
    roundDown addr pgSize ≤ addr ∧ addr + len ≤ reqEnd addr len ↔ addr + len < 2 ^ 32 := by
  have hbound := haccess.bound
  have hlt := haccess.lt
  refine ⟨fun hcovers => by omega, fun hwrap => ⟨Nat.sub_le _ _, le_reqEnd hwrap (by omega)⟩⟩

theorem roundDown_eq_zero : roundDown addr pgSize = 0 ↔ addr < pgSize := by
  rw [roundDown, pgSize_eq]
  omega

/-- The range of `do_mmap` and `do_shmem` is at the requested address, or at the one that was
found for a request without one, if and only if the request does not wrap and does not name an
address of the first page. -/
theorem MmOk.request_covers_iff (h : MmOk loose m) (haddr : addr < 2 ^ 32) (hlen : len < 2 ^ 32)
    (hplace : m.reqPlace addr len ≠ 0)
    (haccess : UserAccess (roundDown (m.reqPlace addr len) pgSize)
      (reqEnd (m.reqPlace addr len) (reqSize addr len))) :
    roundDown (m.reqPlace addr len) pgSize ≤ (if addr = 0 then m.reqPlace addr len else addr) ∧
      (if addr = 0 then m.reqPlace addr len else addr) + len ≤
        reqEnd (m.reqPlace addr len) (reqSize addr len) ↔
      (addr = 0 ∨ pgSize ≤ addr) ∧ addr + len < 2 ^ 32 := by
  have hfin := reqEnd_mod addr len
  by_cases hzero : roundDown addr pgSize = 0
  · have hsmall := roundDown_eq_zero.mp hzero
    have hsize : reqSize addr len = reqEnd addr len := by
      rw [reqSize, reqEnd, roundUp, roundDown]
      omega
    have hp : m.reqPlace addr len = getUnmappedArea m (reqEnd addr len) := by
      rw [← hsize]
      exact if_pos hzero
    rw [hp] at hplace
    rw [hp, hsize]
    have hne : reqEnd addr len ≠ 0 := fun h0 => hplace (by rw [h0]; rfl)
    have hfits : m.Fits (reqEnd addr len) (getUnmappedArea m (reqEnd addr len)) := by
      rcases getUnmappedArea_spec h (Nat.pos_of_ne_zero hne) hfin with hbest | ⟨hnone, -⟩
      · exact hbest.1
      · exact absurd hnone hplace
    generalize getUnmappedArea m (reqEnd addr len) = place at *
    have haccess' : UserAccess place (place + reqEnd addr len) := ⟨hfits.base, by omega, hfits.top⟩
    have hend := reqEnd_aligned haccess' (by rw [Nat.add_mod, hfits.aligned, hfin]; rfl)
    rw [Nat.add_sub_cancel_left] at hend
    rw [roundDown_aligned hfits.aligned]
    rcases eq_or_ne addr 0 with rfl | hnone
    · have hle := le_reqEnd (by omega) hne
      rw [if_pos rfl]
      exact iff_of_true ⟨le_rfl, by omega⟩ ⟨.inl rfl, by omega⟩
    · rw [if_neg hnone]
      have hbase := hfits.base
      rw [userBase] at hbase
      rw [pgSize_eq] at hsmall
      exact iff_of_false (fun hcovers => by omega) fun hand => by rw [pgSize_eq] at hand; omega
  · have hbig : pgSize ≤ addr := not_lt.mp (mt roundDown_eq_zero.mpr hzero)
    have hnone : addr ≠ 0 := fun h0 => by
      rw [h0] at hbig
      cases hbig
    have hend : reqEnd (roundDown addr pgSize) (reqSize addr len) = reqEnd addr len := by
      have hlt : reqEnd addr len < 2 ^ 32 :=
        Nat.lt_of_le_of_lt (Nat.sub_le _ _) (Nat.mod_lt _ (by decide))
      rw [reqSize]
      generalize reqEnd addr len = fin at *
      have hle : roundDown addr pgSize < 2 ^ 32 := Nat.lt_of_le_of_lt (Nat.sub_le _ _) haddr
      rw [reqEnd, roundUp]
      generalize roundDown addr pgSize = start at *
      rw [roundDown]
      rw [pgSize_eq] at *
      omega
    have hp : m.reqPlace addr len = roundDown addr pgSize := if_neg hzero
    rw [hp, hend, roundDown_aligned (roundDown_mod addr)] at haccess ⊢
    rw [if_neg hnone, reqEnd_covers_iff haccess]
    exact (and_iff_right (.inr hbig)).symm

/-- `mm_map` either is refused and changes nothing, or gains what was asked for if and only if the
request does not wrap. -/
theorem wp_mmMap_gains (h : MmOk loose m) (hpos : 0 < len) :
    (mmMap addr len vmFlags).wp False (fun _ m' => m'.areas = m.areas)
      (fun _ m' => m.Gains m' addr len ↔ addr + len < 2 ^ 32) m := by
  refine wp_mmMap h (fun m' e _ hsame _ => hsame.areas) fun m' z _ haccess hmapped => ?_
  rw [gains_iff hpos haccess hmapped.fresh hmapped.areas]
  exact reqEnd_covers_iff haccess

theorem wp_doMmap (h : MmOk loose m) (haddr : addr < 2 ^ 32) (hlen : len < 2 ^ 32)
    (hpos : 0 < len) :
    (doMmap addr len write stack).wp False (fun _ m' => m'.areas = m.areas)
      (fun place m' => m.Gains m' (if addr = 0 then place else addr) len ↔
        (addr = 0 ∨ pgSize ≤ addr) ∧ addr + len < 2 ^ 32) m := by
  rw [doMmap]
  refine wp_if (fun _ => rfl) fun _ => ?_
  rw [wp_get]
  refine wp_if (fun _ => rfl) fun hplace => ?_
  refine wp_seq (wp_mmMap h (fun m' e _ hsame _ => hsame.areas) fun m' z _ haccess hmapped => ?_)
  rw [wp_pure, gains_iff hpos haccess hmapped.fresh hmapped.areas]
  exact h.request_covers_iff haddr hlen hplace haccess

/-- `mm_map`, `do_mmap` and `do_shmem` return, and either they refuse a request and change no
area, or there is one new area. It lies in user space and has every address of the request if and
only if the request does not wrap and, for the last two, does not name an address of the first
page other than 0. -/
theorem mmap_covers_iff (h : SpacesOk k.spaces) (haddr : addr < 2 ^ 32) (hlen : len < 2 ^ 32)
    (hpos : 0 < len) (hnew : ∀ i ∈ new, k.spaces.mem.shmem i = ⟨[], none, 0, 0⟩) :
    ((∃ z m', mmMap addr len vmFlags (k.spaces.mm d) = .done z m' ∧
        ((k.spaces.mm d).Gains m' addr len ↔ addr + len < 2 ^ 32)) ∨
      ∃ e m', mmMap addr len vmFlags (k.spaces.mm d) = .fail e m' ∧
        m'.areas = (k.spaces.mm d).areas) ∧
    ((∃ place m', doMmap addr len write stack (k.spaces.mm d) = .done place m' ∧
        ((k.spaces.mm d).Gains m' (if addr = 0 then place else addr) len ↔
          (addr = 0 ∨ pgSize ≤ addr) ∧ addr + len < 2 ^ 32)) ∨
      ∃ e m', doMmap addr len write stack (k.spaces.mm d) = .fail e m' ∧
        m'.areas = (k.spaces.mm d).areas) ∧
    ((∃ u k', doShmem d addr len write stack new k = .done u k' ∧
        ((k.spaces.mm d).Gains (k'.spaces.mm d)
          (if addr = 0 then (k.spaces.mm d).reqPlace addr len else addr) len ↔
          (addr = 0 ∨ pgSize ≤ addr) ∧ addr + len < 2 ^ 32)) ∨
      ∃ e k', doShmem d addr len write stack new k = .fail e k' ∧
        (k'.spaces.mm d).areas = (k.spaces.mm d).areas) := by
  have hmm := h.mm d
  refine ⟨(wp_mmMap_gains hmm hpos).returns, (wp_doMmap hmm haddr hlen hpos).returns, wp.returns ?_⟩
  refine wp_doShmem h hnew (fun e m' s' _ _ hsame _ _ _ => ?_) ?_
  · rw [mm_put_self]
    exact hsame.areas
  · rintro m' z i _ _ s' - rfl rfl hplace - - haccess hmapped - - - -
    rw [mm_put_self, gains_iff hpos haccess hmapped.fresh hmapped.areas]
    exact hmm.request_covers_iff haddr hlen hplace haccess

/-- A request of one and a half pages without an address gets two pages. -/
theorem mmap_covers_two_pages : ∃ m',
    doMmap 0 0x1800 true false (bootSys.spaces.mm 0) = .done 0x6FFFE000 m' ∧
      (bootSys.spaces.mm 0).Gains m' 0x6FFFE000 0x1800 := by
  have hdone : ∃ m', doMmap 0 0x1800 true false (bootSys.spaces.mm 0) = .done 0x6FFFE000 m' :=
    ⟨_, rfl⟩
  obtain ⟨m', hdone⟩ := hdone
  obtain ⟨-, hmmap, -⟩ := @mmap_covers_iff bootSys 0 0 0x1800 vmRead true false none
    boot_bootSys.sysOk.spaces (by decide) (by decide) (by decide) (by simp)
  rcases hmmap with ⟨place, m'', hcall, hiff⟩ | ⟨e, m'', hcall, -⟩
  · rw [hdone] at hcall
    obtain ⟨rfl, rfl⟩ := Outcome.done.inj hcall
    exact ⟨m', hdone, hiff.mpr ⟨.inl rfl, by decide⟩⟩
  · cases hdone.symm.trans hcall

/-- A request whose end wraps to the page of its start is granted with one page, and a request in
the first page with a page elsewhere. -/
theorem mmap_wraps : ∃ m' m'',
    doMmap 0x30000800 0xFFFFFC00 true false (bootSys.spaces.mm 0) = .done 0x30000000 m' ∧
      ¬(bootSys.spaces.mm 0).Gains m' 0x30000800 0xFFFFFC00 ∧
    doMmap 5 100 true false (bootSys.spaces.mm 0) = .done 0x6FFFF000 m'' ∧
      ¬(bootSys.spaces.mm 0).Gains m'' 5 100 := by
  have hdone : ∃ m' m'',
      doMmap 0x30000800 0xFFFFFC00 true false (bootSys.spaces.mm 0) = .done 0x30000000 m' ∧
      doMmap 5 100 true false (bootSys.spaces.mm 0) = .done 0x6FFFF000 m'' := ⟨_, _, rfl, rfl⟩
  obtain ⟨m', m'', hwrap, hfirst⟩ := hdone
  have hmm := boot_bootSys.sysOk.spaces.mm 0
  refine ⟨m', m'', hwrap, fun hgains => ?_, hfirst, fun hgains => ?_⟩
  · have hiff := (wp_doMmap hmm (by decide) (by decide) (by decide)).of_done hwrap
    exact absurd (hiff.mp hgains).2 (by decide)
  · have hiff := (wp_doMmap hmm (by decide) (by decide) (by decide)).of_done hfirst
    exact absurd (hiff.mp hgains).1 (by decide)

end Ucore.Vm
