import Ucore.Sfs.FileStore
import Ucore.Sfs.FileTable

/-!
# Runs of calls on open files

Every open file keeps its own position, and the size of the inode changes through the
others. The position of a file may so come to lie behind the blocks of its inode, where
`sfs_bmap_load_nolock` fails its assertion. A write that starts within the blocks, or
right behind them, runs to its end.
-/

namespace Ucore.Sfs

open Kern Function List Fs

variable {H : Prop} {E : Err → Proc → Prop} {φ : Faults} {L : Finset ℕ} {x fd : ℕ} {s : Fs}
  {p p' : Proc} {sin : SfsInode} {Q : Unit → Proc → Prop} {pos : ℤ} {c : TableCall}
  {flags : OpenFlags}

/-! ## Loaded inodes -/

/-- A loaded inode with one more reference; the first one counts as a pending reclaim. -/
def SfsInode.referenced (sin : SfsInode) : SfsInode :=
  { sin with
    refCount := sin.refCount + 1
    reclaimCount := if sin.refCount = 0 then sin.reclaimCount + 1 else sin.reclaimCount }

/-- `lookup_sfs_nolock` of a loaded inode. -/
theorem wp_lookupSfs_cached {E : Err → Fs → Prop} {Q : Bool → Fs → Prop}
    (hsin : s.inodes x = some sin) (hQ : Q true (s.setInode x (some sin.referenced))) :
    (lookupSfsNolock x).wp H E Q s := by
  unfold lookupSfsNolock
  rw [wp_get]
  simp only [hsin]
  rw [wp_bind, vopRefInc, wp_modifySin hsin]
  refine wp_if (fun hfirst => ?_) fun hmore => ?_
  · rw [wp_bind, wp_modifySin (s.setInode_self x _), wp_pure, Fs.setInode_setInode]
    rw [SfsInode.referenced, if_pos (by omega)] at hQ
    exact hQ
  · rw [SfsInode.referenced, if_neg (by omega)] at hQ
    exact hQ

/-- `sfs_load_inode` of a loaded inode. -/
theorem wp_loadInode_cached {E : Err → Fs → Prop} {Q : Unit → Fs → Prop}
    (hsin : s.inodes x = some sin) (hQ : Q () (s.setInode x (some sin.referenced))) :
    (sfsLoadInode φ x).wp H E Q s := by
  unfold sfsLoadInode
  refine wp_seq (wp_lookupSfs_cached hsin ?_)
  rw [wp_ite, wp_pure]
  exact ⟨fun _ => hQ, absurd rfl⟩

/-! ## Rules for the table -/

theorem wp_onFs {α : Type} {m : K α} {Q : α → Proc → Prop} : (onFs m).wp H E Q p ↔
    m.wp H (fun e s => E e { p with fs := s }) (fun a s => Q a { p with fs := s }) p.fs :=
  wp_zoom

theorem wp_modifyFile {g : File → File} :
    (modifyFile fd g).wp H E Q p ↔ Q () (p.setFile fd (g (p.filemap fd))) := Iff.rfl

/-- `fd2file` of an open descriptor, or of any other. -/
theorem wp_fd2file {fd : ℤ} {Q : ℕ → Proc → Prop} (hbad : E .inval p)
    (hQ : (p.filemap fd.toNat).status = .opened → Q fd.toNat p) :
    (fd2file fd).wp H E Q p := by
  rw [fd2file, wp_get]
  exact wp_if (fun h => hQ h.2.2) fun _ => hbad

/-- The process with another volume and another position of `fd`. -/
def Proc.moved (p : Proc) (fd : ℕ) (s : Fs) (pos : ℤ) : Proc :=
  { p.setFile fd { p.filemap fd with pos } with fs := s }

theorem Proc.filemap_moved (fd : ℕ) (s : Fs) (pos : ℤ) :
    (p.moved fd s pos).filemap fd = { p.filemap fd with pos } := update_self ..

theorem Proc.filemap_moved_of_ne {fd' : ℕ} (h : fd' ≠ fd) (s : Fs) (pos : ℤ) :
    (p.moved fd s pos).filemap fd' = p.filemap fd' := update_of_ne h ..

theorem Proc.moved_self : p.moved fd s (p.filemap fd).pos = { p with fs := s } := by
  unfold Proc.moved Proc.setFile
  rw [update_eq_self]

/-- The process with `fd` acquired. -/
def Proc.acquired (p : Proc) (fd : ℕ) : Proc :=
  p.setFile fd { p.filemap fd with openCount := (p.filemap fd).openCount + 1 }

theorem Proc.filemap_acquired : (p.acquired fd).filemap fd =
    { p.filemap fd with openCount := (p.filemap fd).openCount + 1 } := update_self ..

section

variable (hopen : (p.filemap fd).status = .opened)
include hopen

theorem wp_filemapAcquire (hQ : Q () (p.acquired fd)) : (filemapAcquire fd).wp H E Q p := by
  rw [filemapAcquire, wp_get, wp_bind]
  exact wp_assert_of hopen hQ

/-- `filemap_release` undoes `filemap_acquire`. -/
theorem wp_filemapRelease (hcount : 0 < (p.filemap fd).openCount) (hQ : Q () (p.moved fd s pos)) :
    (filemapRelease φ fd).wp H E Q ((p.acquired fd).moved fd s pos) := by
  have hfile : ((p.acquired fd).moved fd s pos).filemap fd =
      { p.filemap fd with pos, openCount := (p.filemap fd).openCount + 1 } := by
    rw [Proc.filemap_moved, Proc.filemap_acquired]
  rw [filemapRelease, wp_get]
  refine wp_check (.inl (by rw [hfile]; exact hopen)) ?_
  refine wp_check (by rw [hfile]; exact Nat.succ_pos _) ?_
  rw [wp_bind, wp_modifyFile, wp_ite, hfile]
  refine ⟨fun h => absurd h (by simp only; omega), fun _ => ?_⟩
  have hback : ((p.acquired fd).moved fd s pos).setFile fd
      { p.filemap fd with pos, openCount := (p.filemap fd).openCount + 1 - 1 } =
      p.moved fd s pos := by
    unfold Proc.moved Proc.acquired Proc.setFile
    simp only [update_self, update_idem, Nat.add_sub_cancel]
  rw [hback]
  exact hQ

/-- `file_read` and `file_write` after their checks. -/
theorem wp_fileMove {move : ℕ → ℤ → K (Option Err × List UInt8)}
    {Q : Option Err × List UInt8 → Proc → Prop} (hcount : 0 < (p.filemap fd).openCount)
    (hmove : (move (p.filemap fd).node (p.filemap fd).pos).wp H
      (fun e s => Q (some e, []) (p.moved fd s (toOff ((p.filemap fd).pos + 0))))
      (fun r s => Q r (p.moved fd s (toOff ((p.filemap fd).pos + r.2.length)))) p.fs) :
    (fileMove φ fd move).wp H E Q p := by
  -- the position is stored in the acquired file, which is then released
  have hend : ∀ (r : Option Err × List UInt8) (s : Fs),
      Q r (p.moved fd s (toOff ((p.filemap fd).pos + r.2.length))) →
      (do
        modifyFile fd fun f =>
          if f.status = .opened then { f with pos := toOff (f.pos + r.2.length) } else f
        filemapRelease (φ.at .drop) fd
        return r : F (Option Err × List UInt8)).wp H E Q { p.acquired fd with fs := s } := by
    intro r s hr
    rw [wp_bind, wp_modifyFile]
    have hstore : ({ p.acquired fd with fs := s } : Proc).setFile fd
        (if ((p.acquired fd).filemap fd).status = .opened then
          { (p.acquired fd).filemap fd with
            pos := toOff (((p.acquired fd).filemap fd).pos + r.2.length) }
          else (p.acquired fd).filemap fd) =
        (p.acquired fd).moved fd s (toOff ((p.filemap fd).pos + r.2.length)) := by
      rw [if_pos (by rw [Proc.filemap_acquired]; exact hopen)]
      unfold Proc.moved
      rw [Proc.filemap_acquired]
      rfl
    rw [hstore, wp_bind]
    exact wp_filemapRelease hopen hcount hr
  rw [fileMove, wp_bind]
  refine wp_filemapAcquire hopen ?_
  rw [wp_get, wp_bind, wp_attempt, wp_onFs]
  refine wp.mono ?_ (fun e s h => hend (some e, []) s h) hend
  rw [Proc.filemap_acquired]
  exact hmove

end

/-! ## One call -/

/-- An open file between calls. -/
structure File.Ok (f : File) (s : Fs) : Prop where
  regular : s.Regular f.node
  count : 0 < f.openCount
  nonneg : 0 ≤ f.pos
  le : f.pos ≤ maxFileSize

/-- The regular files and the open files are in good order. -/
structure TableOk (L : Finset ℕ) (p : Proc) : Prop where
  store : StoreOk L p.fs
  opened : ∀ fd, (p.filemap fd).status = .opened → (p.filemap fd).Ok p.fs
  idle : ∀ fd, (p.filemap fd).status ≠ .opened → (p.filemap fd).openCount = 0

theorem File.Ok.edit {f : File} {s' : Fs} (h : f.Ok s) (hs : StoreEdit L x s s') : f.Ok s' :=
  { h with regular := hs.regular _ h.regular }

/-- A call on an open file that stores a position within the limit. -/
theorem TableOk.moved (h : TableOk L p) (hopen : (p.filemap fd).status = .opened)
    (hs : StoreEdit L x p.fs s) (h0 : 0 ≤ pos) (hmax : pos ≤ maxFileSize) :
    TableOk L (p.moved fd s pos) := by
  refine ⟨hs.ok, fun fd' h' => ?_, fun fd' h' => ?_⟩
  · rcases eq_or_ne fd' fd with rfl | hfd
    · rw [Proc.filemap_moved]
      exact { (h.opened fd' hopen).edit hs with nonneg := h0, le := hmax }
    · rw [Proc.filemap_moved_of_ne hfd] at h' ⊢
      exact (h.opened fd' h').edit hs
  · rcases eq_or_ne fd' fd with rfl | hfd
    · rw [Proc.filemap_moved] at h'
      exact absurd hopen h'
    · rw [Proc.filemap_moved_of_ne hfd] at h' ⊢
      exact h.idle fd' h'

/-- A change of the counters of a loaded inode. -/
theorem StoreOk.touch (h : StoreOk L s) (hsin : s.inodes x = some sin) (sin' : SfsInode)
    (hdin : sin'.din = sin.din) (hremoved : sin'.removed = sin.removed)
    (hlocked : sin'.locked = sin.locked) : StoreEdit L x s (s.setInode x (some sin')) := by
  have hmap : sin.din.SameMap sin'.din := by rw [hdin]; exact ⟨rfl, rfl, rfl⟩
  have hlocal : Local L x s (s.setInode x (some sin')) :=
    .setInode h.owned hsin hmap
  have hsame : ∀ y, (s.setInode x (some sin')).din y = s.din y := by
    intro y
    rcases eq_or_ne y x with rfl | hyx
    · rw [din_eq (s.setInode_self y _), din_eq hsin, hdin]
    · simp only [Fs.din, s.setInode_of_ne hyx]
      rfl
  have hblk : ∀ y σ, (s.setInode x (some sin')).blk y σ = s.blk y σ := by
    intro y σ
    rw [Fs.blk, hsame]
    rfl
  -- every loaded inode has its old disk inode and flags
  have hold : ∀ y siny, (s.setInode x (some sin')).inodes y = some siny →
      ∃ sino, s.inodes y = some sino ∧ siny.din = sino.din ∧ siny.removed = sino.removed ∧
        siny.locked = sino.locked := by
    intro y siny hy
    rcases eq_or_ne y x with rfl | hyx
    · rw [setInode_self] at hy
      cases hy
      exact ⟨sin, hsin, hdin, hremoved, hlocked⟩
    · rw [setInode_of_ne _ hyx] at hy
      exact ⟨siny, hy, rfl, rfl, rfl⟩
  refine ⟨⟨⟨hlocal.owned, fun y siny hy htype => ?_⟩, fun y siny hy htype i hi => ?_⟩,
    fun y => hlocal.file, fun y hy => ?_⟩
  · obtain ⟨sino, hsino, heq, hr, hl⟩ := hold y siny hy
    have hok := h.file y sino hsino (heq ▸ htype)
    refine ⟨hr.trans hok.removed, hl.trans hok.locked, fun i hi => ?_, ?_, ?_⟩
    · rw [hsame] at hi
      rw [hblk]
      exact hok.full i hi
    · rw [heq]
      exact hok.size
    · rw [heq]
      exact hok.blocks
  · obtain ⟨sino, hsino, heq, -⟩ := hold y siny hy
    rw [hblk] at hi
    rw [hsame]
    exact h.tight y sino hsino (heq ▸ htype) i hi
  · obtain ⟨siny, hy, htype⟩ := hy
    rcases eq_or_ne y x with rfl | hyx
    · rw [hsin] at hy
      cases hy
      exact ⟨sin', s.setInode_self y _, by rw [hdin]; exact htype⟩
    · exact ⟨siny, by rw [s.setInode_of_ne hyx]; exact hy, htype⟩

theorem StoreEdit.trans {s₁ s₂ : Fs} (h : StoreEdit L x s s₁) (h' : StoreEdit L x s₁ s₂) :
    StoreEdit L x s s₂ :=
  ⟨h'.ok, fun y hy hyx => (h'.others y hy hyx).trans (h.others y hy hyx),
    fun y hy => h'.regular y (h.regular y hy)⟩

/-- `vfs_open` without faults fails before it changes anything. -/
theorem StoreOk.wp_vfsOpen (h : StoreOk L s) (hreg : s.Regular x) :
    (vfsOpen .none x flags).wp False (fun _ s' => s' = s) (fun _ => StoreEdit L x s) s := by
  obtain ⟨sin, hsin, htype⟩ := hreg
  rw [vfsOpen]
  refine wp_if (fun _ => rfl) fun _ => ?_
  refine wp_if (fun _ => rfl) fun _ => ?_
  refine wp_if (fun _ => rfl) fun _ => ?_
  refine wp_seq (wp_loadInode_cached hsin ?_)
  have hedit₁ := h.touch hsin sin.referenced rfl rfl rfl
  have hsin₁ := s.setInode_self x (some sin.referenced)
  rw [wp_bind, vopOpenInc, wp_modifySin hsin₁]
  have hedit₂ := hedit₁.trans (hedit₁.ok.touch hsin₁
    { sin.referenced with openCount := sin.referenced.openCount + 1 } rfl rfl rfl)
  have hsin₂ := (s.setInode x (some sin.referenced)).setInode_self x
    (some { sin.referenced with openCount := sin.referenced.openCount + 1 })
  rw [wp_ite, wp_pure]
  refine ⟨fun _ => ?_, fun _ => hedit₂⟩
  rw [wp_onError]
  refine hedit₂.ok.wp_truncfile hsin₂ htype (nofun) (fun hlt => absurd hlt (Nat.not_lt_zero _))
    fun _ _ s' hedit _ => hedit₂.trans hedit

theorem findFree_eq_some {n i : ℕ} (h : findFree p n i = some fd) :
    (p.filemap fd).status = .none := by
  induction n generalizing i with
  | zero => cases h
  | succ n ih =>
    rw [findFree] at h
    split at h
    · rename_i hfree
      cases h
      exact hfree
    · exact ih h

section

variable (h : TableOk L p)
include h

theorem TableOk.setFile {f : File} (hopen : f.status = .opened → f.Ok p.fs)
    (hidle : f.status ≠ .opened → f.openCount = 0) : TableOk L (p.setFile fd f) := by
  refine ⟨h.store, fun fd' h' => ?_, fun fd' h' => ?_⟩
  all_goals
    rcases eq_or_ne fd' fd with rfl | hfd
    · simp only [Proc.setFile, update_self] at h' ⊢
      first | exact hopen h' | exact hidle h'
    · simp only [Proc.setFile, update_of_ne hfd] at h' ⊢
      first | exact h.opened fd' h' | exact h.idle fd' h'

/-- A change of the volume that keeps the regular files. -/
theorem TableOk.edit (hs : StoreEdit L x p.fs s) : TableOk L { p with fs := s } :=
  ⟨hs.ok, fun fd hfd => (h.opened fd hfd).edit hs, h.idle⟩

/-- `filemap_free` of an entry that was only reserved. -/
theorem TableOk.wp_filemapFree (hinit : (p.filemap fd).status = .init)
    (hQ : ∀ p', TableOk L p' → Q () p') : (filemapFree φ fd).wp False E Q p := by
  have hcount := h.idle fd (by rw [hinit]; simp)
  rw [filemapFree, wp_get]
  refine wp_check (.inl hinit) ?_
  refine wp_check hcount ?_
  refine wp_if (fun hclosed => absurd hclosed (by rw [hinit]; simp)) fun _ => ?_
  exact hQ _ (h.setFile (fun h => by cases h) fun _ => hcount)

/-- The end of `file_open`: the entry is filled in and opened. -/
theorem TableOk.wp_filemapOpen (hinit : (p.filemap fd).status = .init) (hreg : p.fs.Regular x)
    (h0 : 0 ≤ pos) (hmax : pos ≤ maxFileSize) (readable writable : Bool) {Q : ℕ → Proc → Prop}
    (hQ : ∀ p', TableOk L p' → Q fd p') :
    (do
      modifyFile fd fun f => { f with pos, node := x, readable, writable }
      filemapOpen fd
      return fd : F ℕ).wp False E Q p := by
  obtain ⟨sin, hsin, htype⟩ := hreg
  have hx : x ≠ 0 := by
    rintro rfl
    exact h.store.owned.zero (h.store.owned.mem hsin)
  rw [wp_bind, wp_modifyFile, filemapOpen, wp_bind, wp_get, wp_bind]
  have hfile : (p.setFile fd { p.filemap fd with pos, node := x, readable, writable }).filemap fd =
      { p.filemap fd with pos, node := x, readable, writable } := update_self ..
  refine wp_assert_of ⟨by rw [hfile]; exact hinit, by rw [hfile]; exact hx⟩ ?_
  rw [wp_modifyFile, wp_pure, hfile]
  have h₁ : TableOk L (p.setFile fd { p.filemap fd with pos, node := x, readable, writable }) :=
    h.setFile (fun hopen => absurd hopen (by simp [hinit])) fun _ => h.idle fd (by rw [hinit]; simp)
  exact hQ _ (h₁.setFile (fun _ => ⟨⟨sin, hsin, htype⟩, Nat.succ_pos _, h0, hmax⟩) (absurd rfl))

/-- `file_open` without faults. -/
theorem TableOk.wp_fileOpen (hreg : p.fs.Regular x) :
    (fileOpen .none x flags).wp False (fun _ => TableOk L) (fun _ p' => TableOk L p') p := by
  rw [fileOpen]
  refine wp_if (fun _ => h) fun _ => ?_
  rw [wp_bind, filemapAlloc, wp_get]
  cases hfree : findFree p p.nentry 0 with
  | none => exact h
  | some fd =>
    have hnone := findFree_eq_some hfree
    have hcount := h.idle fd (by rw [hnone]; simp)
    rw [wp_get]
    refine wp_check hcount ?_
    rw [wp_bind, wp_modifyFile, wp_pure, wp_bind, wp_onError, wp_onFs]
    -- the entry is reserved until the inode is open
    have h₁ : TableOk L (p.setFile fd { p.filemap fd with status := .init, node := 0 }) :=
      h.setFile (fun h => by cases h) fun _ => hcount
    have hinit : ((p.setFile fd { p.filemap fd with status := .init, node := 0 }).filemap
        fd).status = .init := by
      simp only [Proc.setFile, update_self]
    refine (h.store.wp_vfsOpen hreg).mono (fun e s hs => ?_) (fun _ s hs => ?_)
    · subst hs
      exact h₁.wp_filemapFree hinit fun p' hp' => hp'
    · have h₂ := h₁.edit hs
      obtain ⟨sin, hsin, htype⟩ := hs.regular x hreg
      have hsize := (hs.ok.file x sin hsin htype).size
      refine wp_if (fun _ => ?_) fun _ => ?_
      · rw [wp_bind, wp_onFs, wp_getSin hsin, wp_bind, wp_pure]
        have hoff := toOff_eq (x := (sin.din.size : ℤ)) (by omega) (by omega)
        exact h₂.wp_filemapOpen hinit ⟨sin, hsin, htype⟩ (by omega) (by omega) _ _ fun p' hp' => hp'
      · rw [wp_bind, wp_pure]
        exact h₂.wp_filemapOpen hinit ⟨sin, hsin, htype⟩ le_rfl (by simp) _ _ fun p' hp' => hp'

/-- The position after a transfer that stopped within the limit. -/
theorem TableOk.advanced (hopen : (p.filemap fd).status = .opened) (hs : StoreEdit L x p.fs s)
    {n stop : ℕ} (hn : n ≤ stop - (p.filemap fd).pos.toNat) (hstop : stop ≤ maxFileSize) :
    TableOk L (p.moved fd s (toOff ((p.filemap fd).pos + n))) := by
  have hok := h.opened fd hopen
  have hnonneg := hok.nonneg
  have hle := hok.le
  rw [toOff_eq (by omega) (by omega)]
  exact h.moved hopen hs (by omega) (by omega)

/-- No byte was transferred. -/
theorem TableOk.unmoved (hopen : (p.filemap fd).status = .opened) :
    TableOk L (p.moved fd p.fs (toOff ((p.filemap fd).pos + (0 : ℕ)))) :=
  h.advanced hopen (x := 0) (.refl h.store) (Nat.zero_le (0 - _)) (Nat.zero_le _)

end

/-- What a write through `fd` that returned without an error did: a gap between the end of
the file and the position is filled with zeros. -/
def Extended (fd : ℤ) (data bytes : List UInt8) (p p' : Proc) : Prop :=
  p'.fs.file (p.filemap fd.toNat).node =
    overwrite 0 (p.fs.file (p.filemap fd.toNat).node) (p.filemap fd.toNat).pos.toNat bytes ∧
  bytes <+: data ∧ (0 < data.length → data.length < 2 ^ 32 → bytes ≠ [])

/-- A write through `fd` starts in the blocks of its file or right behind them, and
the blocks are zero from the end of the file up to the position. -/
def WriteReady (fd : ℤ) (data : List UInt8) (p : Proc) : Prop :=
  (p.filemap fd.toNat).status = .opened → (p.filemap fd.toNat).writable = true → data ≠ [] →
    (p.filemap fd.toNat).pos.toNat / blkSize ≤ (p.fs.din (p.filemap fd.toNat).node).blocks ∧
    ZeroGap (p.filemap fd.toNat).node (p.filemap fd.toNat).pos.toNat p.fs

/-- `file_write` without faults. -/
theorem TableOk.wp_fileWrite {fd : ℤ} {data : List UInt8} (h : TableOk L p)
    (hready : WriteReady fd data p) : (fileWrite .none fd data).wp False (fun _ p' => TableOk L p')
      (fun r p' => r.1 = some .noMem ∨
        TableOk L p' ∧ (r.1 = none → Extended fd data r.2 p p')) p := by
  rw [fileWrite, wp_bind]
  refine wp_fd2file h fun hopen => ?_
  have hok := h.opened _ hopen
  rw [wp_get]
  refine wp_if (fun _ => h) fun hwritable => wp_fileMove hopen hok.count ?_
  obtain ⟨sin, hsin, htype⟩ := hok.regular
  have hsame := h.unmoved hopen
  have hgap : Moves true sin.din.size (p.filemap fd.toNat).pos data.length →
      (p.filemap fd.toNat).pos.toNat / blkSize ≤ sin.din.blocks ∧
        ZeroGap (p.filemap fd.toNat).node (p.filemap fd.toNat).pos.toNat p.fs := by
    intro hmoves
    have hne : data ≠ [] := by
      rintro rfl
      have hstay := toOff_eq hok.nonneg hok.le
      have := hmoves.some
      rw [length_nil, Nat.cast_zero, Int.add_zero] at this
      omega
    rw [← din_eq hsin]
    exact hready hopen (by simpa using hwritable) hne
  refine h.store.wp_io hsin htype (fun _ => le_rfl)
    ((h.store.file _ sin hsin htype).io_ready hsin fun hmoves => (hgap hmoves).1)
    (fun r s hr => .inl hr.1) (fun _ => .inr ⟨hsame, fun hnone => by cases hnone⟩)
    (fun hlt hle hidle => .inr ⟨hsame, fun _ => ⟨rfl, nil_prefix, fun hpos hlen => ?_⟩⟩)
    fun hmoves bytes s hedit hstep hne => .inr ⟨h.advanced hopen hedit hstep.length ioStop_le,
      fun _ => ⟨hstep.file_write (h.store.tight _ sin hsin htype) (hgap hmoves).2 hne, ?_,
        fun _ _ => hne⟩⟩
  · exact absurd ⟨hok.nonneg, hlt, lt_of_le_of_ne hle (toOff_add_ne hpos hlen).symm,
      Bool.noConfusion⟩ hidle
  · rw [hstep.written rfl]
    exact take_prefix _ _

/-- `file_read` without faults. -/
theorem TableOk.wp_fileRead {fd : ℤ} {len : ℕ} (h : TableOk L p) :
    (fileRead .none fd len).wp False (fun _ => TableOk L)
      (fun r p' => r.1 = some .noMem ∨ TableOk L p') p := by
  rw [fileRead, wp_bind]
  refine wp_fd2file h fun hopen => ?_
  have hok := h.opened _ hopen
  rw [wp_get]
  refine wp_if (fun _ => h) fun _ => wp_fileMove hopen hok.count ?_
  obtain ⟨sin, hsin, htype⟩ := hok.regular
  have hsame := h.unmoved hopen
  exact h.store.wp_io hsin htype Bool.noConfusion
    ((h.store.file _ sin hsin htype).read_ready hsin _ _) (fun r s hr => .inl hr.1)
    (fun _ => .inr hsame) (fun _ _ _ => .inr hsame)
    fun hmoves bytes s hedit hstep _ => .inr (h.advanced hopen hedit hstep.length ioStop_le)

/-- `sfs_tryseek` without faults. -/
theorem StoreOk.wp_tryseek (h : StoreOk L s) (hsin : s.inodes x = some sin)
    (htype : sin.din.type = .file) {E : Err → Fs → Prop} {Q : Unit → Fs → Prop} (hbad : E .inval s)
    (hfull : ∀ s', E .noMem s')
    (hQ : 0 ≤ pos → pos ≤ maxFileSize → ∀ s', StoreEdit L x s s' → Q () s') :
    (sfsTryseek .none x pos).wp False E Q s := by
  rw [sfsTryseek]
  refine wp_if (fun _ => hbad) fun hgood => ?_
  rw [wp_bind, wp_getSin hsin]
  refine wp_if (fun _ => ?_) fun _ => hQ (by omega) (by omega) s (.refl h)
  refine h.wp_truncfile hsin htype (fun hout => absurd hout (by omega)) (fun _ e s' hs => ?_)
    fun h0 hmax s' hedit _ => hQ h0 hmax s' hedit
  obtain ⟨he, -⟩ := hs
  cases he
  exact hfull s'

/-- `file_seek` without faults. -/
theorem TableOk.wp_fileSeek {fd : ℤ} {whence : Whence} (h : TableOk L p) :
    (fileSeek .none fd pos whence).wp False (fun e p' => e = .noMem ∨ TableOk L p')
      (fun _ => TableOk L) p := by
  rw [fileSeek, wp_bind]
  refine wp_fd2file (.inr h) fun hopen => ?_
  have hok := h.opened _ hopen
  obtain ⟨sin, hsin, htype⟩ := hok.regular
  refine wp_seq (wp_filemapAcquire hopen ?_)
  have hfile : (p.acquired fd.toNat).filemap fd.toNat = _ := Proc.filemap_acquired
  -- an error leaves the position
  have hfail : ∀ e s, e = Err.noMem ∨ TableOk L (p.moved fd.toNat s (p.filemap fd.toNat).pos) →
      (filemapRelease (Faults.none.at .drop) fd.toNat).wp False
        (fun e p' => e = .noMem ∨ TableOk L p') (fun _ p' => e = .noMem ∨ TableOk L p')
        { p.acquired fd.toNat with fs := s } := by
    intro e s hs
    have hstay : (p.acquired fd.toNat).moved fd.toNat s _ = _ := Proc.moved_self
    rw [← hstay, hfile]
    exact wp_filemapRelease hopen hok.count hs
  have hsame : TableOk L (p.moved fd.toNat p.fs (p.filemap fd.toNat).pos) :=
    h.moved hopen (x := 0) (.refl h.store) hok.nonneg hok.le
  -- the end of the call, once the target is known
  have hseek : ∀ target : ℤ, (do
      let p ← get
      onFs (sfsTryseek (Faults.none.at .write) (p.filemap fd.toNat).node target)
      modifyFile fd.toNat fun f => { f with pos := target } : F Unit).wp False
      (fun e p' => (filemapRelease (Faults.none.at .drop) fd.toNat).wp False
        (fun e p' => e = .noMem ∨ TableOk L p') (fun _ p' => e = .noMem ∨ TableOk L p') p')
      (fun _ p' => (filemapRelease (Faults.none.at .drop) fd.toNat).wp False
        (fun e p' => e = .noMem ∨ TableOk L p') (fun _ => TableOk L) p')
      (p.acquired fd.toNat) := by
    intro target
    rw [wp_get, wp_bind, wp_onFs, hfile]
    refine h.store.wp_tryseek hsin htype (hfail .inval p.fs (.inr hsame))
      (fun s => hfail .noMem s (.inl rfl)) fun h0 hmax s hedit => ?_
    rw [wp_modifyFile]
    exact wp_filemapRelease hopen hok.count (h.moved hopen hedit h0 hmax)
  rw [wp_thenRelease, wp_bind]
  cases whence with
  | set => exact hseek pos
  | cur => exact hseek _
  | atEnd =>
    rw [seekTarget, wp_get, wp_bind, wp_onFs, hfile]
    exact (wp_getSin hsin).mpr (hseek _)
  | other => exact hfail .inval p.fs (.inr hsame)

/-- Truncation without faults. -/
theorem TableOk.wp_fileTruncate {fd len : ℤ} (h : TableOk L p) :
    (fileTruncate .none fd len).wp False (fun e p' => e = .noMem ∨ TableOk L p')
      (fun _ => TableOk L) p := by
  rw [fileTruncate, wp_bind]
  refine wp_fd2file (.inr h) fun hopen => ?_
  obtain ⟨sin, hsin, htype⟩ := (h.opened _ hopen).regular
  rw [wp_get, wp_onFs]
  exact h.store.wp_truncfile hsin htype (fun _ => .inr h) (fun _ e s hs => .inl (by
    simpa using hs.1)) fun _ _ s hedit _ => h.edit hedit

/-! ## Runs -/

/-- The calls of a process on its open files. -/
inductive TableCall where
  /-- `file_open` of a path that names the regular file `ino`. -/
  | openFile (ino : ℕ) (flags : OpenFlags)
  /-- `file_read`. -/
  | read (fd : ℤ) (len : ℕ)
  /-- `file_write`. -/
  | write (fd : ℤ) (data : List UInt8)
  /-- `file_seek`. -/
  | seek (fd pos : ℤ) (whence : Whence)
  /-- `vop_truncate` of an open file. -/
  | truncate (fd len : ℤ)

/-- The code of a call, without faults. -/
def TableCall.run : TableCall → F (Option Err × List UInt8)
  | .openFile ino flags => do
    let _ ← fileOpen .none ino flags
    return (none, [])
  | .read fd len => fileRead .none fd len
  | .write fd data => fileWrite .none fd data
  | .seek fd pos whence => do
    fileSeek .none fd pos whence
    return (none, [])
  | .truncate fd len => do
    fileTruncate .none fd len
    return (none, [])

/-- The path of an `open` names a loaded regular file. -/
def TableCall.Named (p : Proc) : TableCall → Prop
  | .openFile ino _ => p.fs.Regular ino
  | _ => True

/-- The condition on a write, see `WriteReady`. -/
def TableCall.Ready (p : Proc) : TableCall → Prop
  | .write fd data => WriteReady fd data p
  | _ => True

/-- A return that is not for want of a free block. -/
def Served : Outcome Err Proc (Option Err × List UInt8) → Prop
  | .done r _ => r.1 ≠ some .noMem
  | .fail e _ => e ≠ .noMem
  | .halt _ => False

/-- A call that returns, with all allocations succeeding. -/
structure TableStep (p : Proc) (c : TableCall) (p' : Proc) : Prop where
  named : c.Named p
  served : Served (c.run p)
  after : (c.run p).after = some p'

theorem TableOk.wp_run (h : TableOk L p) (hnamed : c.Named p) (hready : c.Ready p) :
    c.run.wp False (fun e p' => e = .noMem ∨ TableOk L p')
      (fun r p' => r.1 = some .noMem ∨ TableOk L p') p := by
  cases c with
  | openFile ino flags =>
    simp only [TableCall.run, wp_bind, wp_pure]
    exact (h.wp_fileOpen hnamed).mono (fun _ _ => .inr) fun _ _ => .inr
  | read fd len => exact h.wp_fileRead.mono (fun _ _ => .inr) fun _ _ h => h
  | write fd data =>
    exact (h.wp_fileWrite hready).mono (fun _ _ => .inr) fun _ _ h => h.imp_right And.left
  | seek fd pos whence =>
    simp only [TableCall.run, wp_bind, wp_pure]
    exact h.wp_fileSeek.imp fun _ _ => .inr
  | truncate fd len =>
    simp only [TableCall.run, wp_bind, wp_pure]
    exact h.wp_fileTruncate.imp fun _ _ => .inr

theorem TableStep.ok (h : TableOk L p) (hstep : TableStep p c p') (hready : c.Ready p) :
    TableOk L p' := by
  have hserved := hstep.served
  have hafter := hstep.after
  rcases (h.wp_run hstep.named hready).returns with ⟨r, t, ht, hr⟩ | ⟨e, t, ht, hr⟩ <;>
  · rw [ht] at hserved hafter
    cases hafter
    exact hr.resolve_left hserved

/-- In a run in which every write is ready, every call returns, and a ready write that
returns without an error has filled the gap before its position with zeros. -/
theorem ready_write_extends {cs : List TableCall} (h : TableOk L p)
    (hrun : Run (fun p c p' => TableStep p c p' ∧ c.Ready p) p cs p') :
    (∀ c : TableCall, c.Named p' → c.Ready p' → (c.run p').after ≠ none) ∧
    ∀ fd data bytes p'', WriteReady fd data p' →
      fileWrite .none fd data p' = .done (none, bytes) p'' → Extended fd data bytes p' p'' := by
  have hok : TableOk L p' := hrun.invariant (fun p c p' h hs => hs.1.ok h hs.2) h
  refine ⟨fun c hnamed hready => (hok.wp_run hnamed hready).after_ne_none,
    fun fd data bytes p'' hready hwrite => ?_⟩
  rcases (hok.wp_fileWrite hready).of_done hwrite with hfull | ⟨-, hext⟩
  · cases hfull
  · exact hext rfl

/-! ## Two open files -/

/-- A process without open files on the volume with one empty file. -/
def freshProc : Proc where
  fs := blankFile
  nentry := 2
  filemap _ := { status := .none, readable := false, writable := false, pos := 0, node := 0,
                 openCount := 0 }

theorem tableOk_freshProc : TableOk {3} freshProc :=
  ⟨storeOk_blankFile, fun _ => FdStatus.noConfusion, fun _ _ => rfl⟩

/-- A first descriptor is moved to `pos`, then a second one is opened with `O_TRUNC`. -/
def cutBehind (pos : ℤ) : List TableCall :=
  [.openFile 3 ⟨.rdwr, false, false, false, false⟩, .seek 0 pos .set,
    .openFile 3 ⟨.wronly, false, false, true, false⟩]

/-- One more call in front of a run of calls that meet the condition `C`, to a state with
the property `P`. -/
theorem TableStep.exists_cons {C : Proc → TableCall → Prop} {P : Proc → Prop} {l : List TableCall}
    (hnamed : c.Named p) (hC : C p c)
    (h : c.run.wp False Never (fun r t => r.1 = none ∧
      ∃ p', Run (fun p c p' => TableStep p c p' ∧ C p c) t l p' ∧ P p') p) :
    ∃ p', Run (fun p c p' => TableStep p c p' ∧ C p c) p (c :: l) p' ∧ P p' := by
  obtain ⟨r, t, ht, hr, p', hrun, hP⟩ := h.returns_done
  have hserved : Served (c.run p) := by
    rw [ht, Served, hr]
    simp
  exact ⟨p', .cons ⟨⟨hnamed, hserved, by rw [ht]; rfl⟩, hC⟩ hrun, hP⟩

/-- The first descriptor stands at position 2 of the empty file: its write is ready, and
leaves two zeros before the byte. -/
theorem ready_write_extends_two : ∃ p' bytes p'',
    fileWrite .none 0 [7] p' = .done (none, bytes) p'' ∧ p''.fs.file 3 = [0, 0, 7] ∧
    Extended 0 [7] bytes p' p'' := by
  obtain ⟨p', hrun, hready, bytes, p'', hwrite, hfile⟩ := TableStep.exists_cons
    (C := fun p c => c.Ready p) (l := (cutBehind 2).tail) (p := freshProc)
    (P := fun p' => WriteReady 0 [7] p' ∧ ∃ bytes p'',
      fileWrite .none 0 [7] p' = .done (none, bytes) p'' ∧ p''.fs.file 3 = [0, 0, 7])
    (c := .openFile 3 ⟨.rdwr, false, false, false, false⟩) regular_blankFile trivial ⟨rfl,
    TableStep.exists_cons trivial trivial ⟨rfl,
    TableStep.exists_cons ⟨_, rfl, rfl⟩ trivial ⟨rfl,
    _, .nil _, fun _ _ _ => ⟨Nat.zero_le _, fun p _ _ h => absurd h (Nat.not_lt_zero p)⟩,
    _, _, rfl, rfl⟩⟩⟩
  exact ⟨p', bytes, p'', hwrite, hfile,
    (ready_write_extends tableOk_freshProc hrun).2 0 [7] bytes p'' hready hwrite⟩

/-- The first descriptor stands two blocks behind the end of the file that the second one
has cut: its write fails the assertion of `sfs_bmap_load_nolock`. -/
theorem stale_write_halts : ∃ p', TableOk {3} freshProc ∧
    Run TableStep freshProc (cutBehind 8192) p' ∧
    fileWrite .none 0 [7] p' = .halt .assertion := by
  obtain ⟨p', hrun, hwrite⟩ := TableStep.exists_cons (C := fun _ _ => True)
    (l := (cutBehind 8192).tail) (p := freshProc)
    (P := fun p' => fileWrite .none 0 [7] p' = .halt .assertion)
    (c := .openFile 3 ⟨.rdwr, false, false, false, false⟩) regular_blankFile trivial ⟨rfl,
    TableStep.exists_cons trivial trivial ⟨rfl,
    TableStep.exists_cons ⟨_, rfl, rfl⟩ trivial ⟨rfl, _, .nil _, rfl⟩⟩⟩
  exact ⟨p', tableOk_freshProc, hrun.mono fun _ _ _ h => h.1, hwrite⟩

end Ucore.Sfs
