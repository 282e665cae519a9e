import Ucore.Sfs.Inode
import Ucore.Sfs.Rules

/-!
# Unmounting a volume

`vfs_unmount` of `vfsdev.c` with the functions of `sfs_fs.c` that it reaches through
`struct fs`. The pointer `fs_unmount` is called for an `int`, but `sfs_unmount` returns
nothing: the caller reads what the call left in the return register, here the input `r0`.
`sfs_cleanup`, which refuses a volume with loaded inodes and frees its memory, is not called.
-/

namespace Ucore.Sfs

open Kern Function Option

/-- The loaded inodes. Their order in `inode_list` is immaterial: each is written to its own
block. -/
def Fs.inodeList (s : Fs) : List ℕ := (List.range s.blocks).filter fun x => (s.inodes x).isSome

/-- `SFS_MAGIC`. -/
def magic : ℕ := 0x2f8dbe2a

/-- `SFS_BLKN_SUPER`. -/
abbrev blknSuper : ℕ := 0

/-- The block of `struct sfs_super`, without its `info`. -/
def Fs.superBlock (s : Fs) : Bytes :=
  Bytes.zero.write 0 (leBytes 4 magic ++ leBytes 4 s.blocks ++ leBytes 4 s.unusedBlocks)

/-- `bitmap_getdata(sfs->freemap)`: bit `i` of the map is bit `i % 8` of byte `i / 8`. -/
def Fs.freemapBytes (s : Fs) : List UInt8 :=
  (List.range (s.freemapBlocks * blkSize)).map fun k =>
    UInt8.ofNat ((List.range 8).foldr (fun i n => 2 * n + (s.freemap (8 * k + i)).toNat) 0)

/-- The loop of `sfs_sync` over the inodes, whatever each `vop_fsync` returns. -/
def sfsSyncInodes (φ : Faults) : List ℕ → K Unit
  | [] => pure ()
  | ino :: rest => do
    (sfsFsync (φ.at (.turn ino)) ino).ignore
    sfsSyncInodes φ rest

/-- `sfs_sync_super`; its transfer is made with `check` unset. -/
def sfsSyncSuper (φ : Faults) : K Unit := do
  let blocks ← gets Fs.blocks
  assert (blknSuper < blocks)
  if φ.hit then throw .io else modify fun s => s.setBlock blknSuper s.superBlock

/-- `sfs_sync_freemap`. -/
def sfsSyncFreemap (φ : Faults) : K Unit := do
  let nblks ← gets Fs.freemapBlocks
  let data ← gets Fs.freemapBytes
  sfsWblock φ data blknFreemap nblks

/-- The two writes of `sfs_sync` for a changed super block. -/
def sfsSyncMeta (φ : Faults) : K Unit := do
  sfsSyncSuper (φ.at .wbuf)
  sfsSyncFreemap (φ.at .bmap)

/-- `super_dirty = ...`. -/
def setSuperDirty (d : Bool) : K Unit := modify fun s => { s with superDirty := d }

/-- `sfs_sync`. -/
def sfsSync (φ : Faults) : K Unit := do
  let inodeList ← gets Fs.inodeList
  sfsSyncInodes (φ.at .fsync) inodeList
  let dirty ← gets Fs.superDirty
  if dirty = true then
    setSuperDirty false
    (sfsSyncMeta φ).onError (setSuperDirty true)

/-- `sfs_unmount`, with up to `n` turns of its loop; a last error is only printed. -/
def sfsUnmount (φ : Faults) : ℕ → K Unit
  | 0 => pure ()
  | n + 1 => do
    let ret ← (sfsSync (φ.at (.turn n))).attempt
    match ret with
    | .ok _ => pure ()
    | .error _ => sfsUnmount φ n

/-- The memory of a mounted volume. -/
inductive Piece where
  | sfs | freemap | buffer | hashList
  deriving DecidableEq

/-- `vfs_dev_t`, with its device. -/
structure Vdev where
  mountable : Bool
  /-- `d_blocksize`. -/
  dBlocksize : ℕ
  /-- `d_blocks`. -/
  dBlocks : ℕ
  /-- The blocks of the device, while no volume is mounted. -/
  disk : ℕ → Bytes
  /-- The volume that `fs` points to. -/
  fs : Option Fs
  /-- The memory of the last volume mounted here that is still allocated. -/
  memory : Piece → Bool

/-- `vdev_list`; the names of devices are different. -/
abbrev Vfs : Type := String → Option Vdev

/-- The error codes of `vfsdev.c`. -/
inductive VfsErr where
  /-- `E_NO_DEV`. -/
  | noDev
  /-- `E_NA_DEV`. -/
  | naDev
  /-- `E_INVAL`. -/
  | inval
  /-- `E_BUSY`. -/
  | busy
  /-- The error code of a function of the volume. -/
  | sfs (e : Err)
  deriving DecidableEq

/-- Code of `vfsdev.c`. -/
abbrev V := Kern VfsErr Vfs

/-- `find_mount`. -/
def findMount (devname : String) : V Vdev := fun v =>
  match (v devname).filter Vdev.mountable with
  | some vdev => .done vdev v
  | none => .fail .noDev v

/-- Return with an error under a condition. -/
def failIf (p : Prop) [Decidable p] (e : VfsErr) : V Unit := if p then throw e else pure ()

/-- Call a function of the mounted volume `s`. -/
def onVolume (devname : String) (vdev : Vdev) (s : Fs) {α : Type} (m : K α) : V (α × Fs) :=
  fun v => match m s with
    | .done a t => .done (a, t) (update v devname (some { vdev with fs := some t }))
    | .fail e t => .fail (.sfs e) (update v devname (some { vdev with fs := some t }))
    | .halt h => .halt h

/-- `sfs_do_mount`. -/
def sfsDoMount (φ : Faults) (vdev : Vdev) : V Fs := do
  failIf (vdev.dBlocksize ≠ blkSize) .naDev
  failIf ((φ.at .kmalloc).hit = true) (.sfs .noMem)
  failIf ((φ.at .rd).hit = true) (.sfs .io)
  let super := (vdev.disk blknSuper).read 0 12
  failIf (field super 0 4 ≠ magic ∨ vdev.dBlocks < field super 4 4) .inval
  let s : Fs :=
    { blocks := field super 4 4, unusedBlocks := field super 8 4, superDirty := false,
      freemap := fun i => (vdev.disk (blknFreemap + i / blkBits) (i % blkBits / 8)).toNat.testBit
        (i % 8)
      disk := vdev.disk, inodes := fun _ => none }
  failIf ((φ.at .ent).hit = true) (.sfs .noMem)
  failIf (∃ i < s.freemapBlocks, (φ.at (.turn i)).hit = true) (.sfs .io)
  assert ((List.range s.freemapBits).countP s.freemap = s.unusedBlocks)
  return { s with freemap := fun i => decide (i < s.freemapBits) && s.freemap i }

/-- `vfs_mount` of an SFS volume. -/
def vfsMount (φ : Faults) (devname : String) : V Unit := do
  let vdev ← findMount devname
  failIf (vdev.fs.isSome = true) .busy
  let s ← sfsDoMount φ vdev
  modify fun v => update v devname (some { vdev with fs := some s, memory := fun _ => true })

/-- `vfs_unmount`. -/
def vfsUnmount (φ : Faults) (r0 : ℤ) (devname : String) : V ℤ := do
  let vdev ← findMount devname
  match vdev.fs with
  | none => throw .inval
  | some s =>
    let synced ← onVolume devname vdev s (sfsSync (φ.at .fsync))
    let unmounted ← onVolume devname vdev synced.2 (sfsUnmount (φ.at .drop) 32)
    if r0 = 0 then
      modify fun v => update v devname
        (some { vdev with fs := none, disk := unmounted.2.disk })
    return r0

/-! ## What unmounting is for -/

/-- An in-memory inode with `dirty` cleared. -/
def SfsInode.clean (sin : SfsInode) : SfsInode := { sin with dirty := false }

/-- The volume `s` as it is usable in `t`: only the device and the dirty flags may differ. -/
structure Fs.Usable (s : Fs) (d : Bool) (t : Fs) : Prop where
  blocks : t.blocks = s.blocks
  unusedBlocks : t.unusedBlocks = s.unusedBlocks
  freemap : t.freemap = s.freemap
  inodes : ∀ ino, (t.inodes ino).map SfsInode.clean = (s.inodes ino).map SfsInode.clean
  superDirty : t.superDirty = d

/-- The super block, the free map and the inodes of `s` are on the device. -/
structure Fs.Written (s : Fs) (disk : ℕ → Bytes) : Prop where
  super : disk blknSuper = s.superBlock
  freemap : ∀ i < s.freemapBlocks, disk (blknFreemap + i) =
    Bytes.zero.write 0 ((s.freemapBytes.drop (i * blkSize)).take blkSize)
  inodes : ∀ ino sin, s.inodes ino = some sin → sin.din.nlinks ≠ 0 →
    (disk ino).read 0 diskInodeSize = sin.din.encode

/-- The contract of `vfs_unmount` on a mounted volume `s`: zero means that no inode was loaded
and that the volume is written and freed, and a new mount sees it; with a loaded inode the
call returns another value and the volume stays mounted. -/
structure Honoured (devname : String) (s : Fs) (ret : Except VfsErr ℤ) (v : Vfs) : Prop where
  zero : ret = .ok 0 → s.inodeList = [] ∧ ∃ vdev, v devname = some vdev ∧ vdev.fs = none ∧
    s.Written vdev.disk ∧ (∀ p, vdev.memory p = false) ∧
    ∃ v' vdev' t, vfsMount Faults.none devname v = .done () v' ∧ v' devname = some vdev' ∧
      vdev'.fs = some t ∧ s.Usable false t ∧ t.disk = vdev.disk
  busy : s.inodeList ≠ [] → ret ≠ .ok 0 ∧ ∃ vdev d t, v devname = some vdev ∧
    vdev.fs = some t ∧ s.Usable d t ∧ ∀ p, vdev.memory p = true

/-- The first sync fails: a transfer of the super block or of the free map does. -/
def Fs.SyncFails (s : Fs) (φ : Faults) : Prop := s.superDirty = true ∧
  ((φ.at .wbuf).hit = true ∨
    ∃ i < s.freemapBlocks, (φ.at .bmap) (List.replicate i (.turn 1) ++ [.wr]) = true)

/-- A mounted volume: its memory is allocated, and its inodes and its free map are in blocks
of the volume. -/
structure Vfs.Mounted (v : Vfs) (devname : String) (vdev : Vdev) (s : Fs) : Prop where
  found : v devname = some vdev
  mountable : vdev.mountable = true
  fs : vdev.fs = some s
  memory : ∀ p, vdev.memory p = true
  loaded : ∀ ino, (s.inodes ino).isSome → s.Valid ino
  freemap : blknFreemap + s.freemapBlocks ≤ s.blocks

/-- Some inode is locked, by a thread that the call has to wait for. -/
def Fs.SomeLocked (s : Fs) : Prop := ∃ ino sin, s.inodes ino = some sin ∧ sin.locked = true

/-! ## Sync keeps the volume usable -/

variable {s t : Fs} {d : Bool} {φ : Faults} {ino : ℕ} {sin sin' : SfsInode} {E : Err → Fs → Prop}

theorem Fs.Usable.load (h : s.Usable d t) (ht : t.inodes ino = some sin) :
    ∃ sin₀, s.inodes ino = some sin₀ ∧ sin₀.clean = sin.clean := by
  have hino := h.inodes ino
  rw [ht] at hino
  exact map_eq_some_iff.mp hino.symm

/-- Transfers and stores of a dirty flag. -/
theorem Fs.Usable.store (h : s.Usable d t) (ht : t.inodes ino = some sin)
    (hclean : sin'.clean = sin.clean) (disk : ℕ → Bytes) :
    s.Usable d { t with disk, inodes := update t.inodes ino (some sin') } := by
  refine { h with inodes := fun x => ?_ }
  show (update t.inodes ino (some sin') x).map _ = _
  rcases eq_or_ne x ino with rfl | hx
  · rw [← h.inodes x, ht, update_self, map_some, map_some, hclean]
  · rw [update_of_ne hx, h.inodes x]

theorem Fs.Usable.wp_fsync (h : s.Usable d t) (hvalid : s.Valid ino)
    (hloaded : (s.inodes ino).isSome) :
    (sfsFsync φ ino).wp s.SomeLocked (fun _ => s.Usable d) (fun _ => s.Usable d) t := by
  unfold sfsFsync trylockSin
  refine wp_seq (wp_getSin_of (fun sin hsin => ?_) (fun hnone => ?_))
  · rw [wp_ite, wp_pure]
    refine ⟨fun _ => h, fun _ => ?_⟩
    rw [wp_bind, wp_bind, wp_getSin hsin, wp_ite, wp_ite, wp_throw, wp_stop, wp_modifySin hsin]
    refine ⟨fun _ => h, fun _ => ⟨fun hlock => ?_, fun hlock => ?_⟩⟩
    · obtain ⟨sin₀, hsin₀, hclean⟩ := h.load hsin
      exact ⟨ino, sin₀, hsin₀, (congrArg SfsInode.locked hclean).trans hlock⟩
    · have hfree : sin.locked = false := by simpa using hlock
      rw [wp_bind, wp_modifySin (t.setInode_self ino _), Fs.setInode_setInode, wp_bind, wp_attempt]
      refine wp_wbuf ⟨hvalid.1, h.blocks ▸ hvalid.2⟩ (by decide) ?_ (fun _ => ?_) ?_
      · rw [DiskInode.length_encode]
        decide
      · simp only [wp_bind]
        rw [setDirty, wp_modifySin (t.setInode_self ino _), Fs.setInode_setInode, unlockSin,
          wp_modifySin (t.setInode_self ino _), Fs.setInode_setInode, wp_throw]
        exact h.store hsin (by simp [SfsInode.clean, hfree]) t.disk
      · rw [unlockSin, wp_modifySin (update_self _ _ _)]
        simp only [Fs.setInode, Fs.setBlock, update_idem]
        exact h.store hsin (by simp [SfsInode.clean, hfree]) _
  · have hino := h.inodes ino
    rw [hnone, map_none, eq_comm, map_eq_none_iff] at hino
    simp [hino] at hloaded

theorem Fs.Usable.wp_syncInodes (h : s.Usable d t) {l : List ℕ}
    (hl : ∀ ino ∈ l, s.Valid ino ∧ (s.inodes ino).isSome) :
    (sfsSyncInodes φ l).wp s.SomeLocked E (fun _ => s.Usable d) t := by
  induction l generalizing t with
  | nil => exact h
  | cons ino rest ih =>
    have hrest := fun x hx => hl x (List.mem_cons_of_mem ino hx)
    obtain ⟨hvalid, hloaded⟩ := hl ino (.head _)
    rw [sfsSyncInodes, wp_bind, wp_ignore]
    exact (h.wp_fsync hvalid hloaded).mono (fun _ u hu => ih hu hrest) (fun _ u hu => ih hu hrest)

/-- Writing whole blocks fails exactly when one of the transfers does. -/
theorem wp_wblock {H : Prop} {n b : ℕ} {data : List UInt8} {Q : Unit → Fs → Prop}
    (hb : ∀ i < n, t.Valid (b + i))
    (hE : ∀ disk i, i < n → φ (List.replicate i (.turn 1) ++ [.wr]) = true → E .io { t with disk })
    (hQ : ∀ disk, (∀ i < n, φ (List.replicate i (.turn 1) ++ [.wr]) = false) →
      Q () { t with disk }) : (sfsWblock φ data b n).wp H E Q t := by
  induction n generalizing φ data b t with
  | zero => exact hQ t.disk (fun i hi => absurd hi (Nat.not_lt_zero i))
  | succ n ih =>
    have hb₀ : t.Valid b := hb 0 (Nat.succ_pos n)
    rw [sfsWblock, wp_bind, wp_writeBlock hb₀]
    refine ⟨fun hhit => hE t.disk 0 (Nat.succ_pos n) hhit, fun hok => ?_⟩
    refine ih (fun i hi => ?_) (fun disk i hi hhit => ?_) (fun disk hall => ?_)
    · rw [Nat.add_assoc, Nat.add_comm 1]
      exact hb (i + 1) (by omega)
    · exact hE disk (i + 1) (by omega) hhit
    · refine hQ disk (fun i hi => ?_)
      cases i with
      | zero => exact hok
      | succ i => exact hall i (by omega)

section

variable (h : s.Usable d t) (hloaded : ∀ ino, (s.inodes ino).isSome → s.Valid ino)
  (hfreemap : blknFreemap + s.freemapBlocks ≤ s.blocks)
include h hloaded hfreemap

/-- `sfs_sync` fails exactly on a failed transfer of the super block or the free map. -/
theorem Fs.Usable.wp_sync : (sfsSync φ).wp s.SomeLocked
      (fun _ u => { s with superDirty := d }.SyncFails φ ∧ s.Usable true u)
      (fun _ u => ¬{ s with superDirty := d }.SyncFails φ ∧ s.Usable false u) t := by
  have hl : ∀ ino ∈ t.inodeList, s.Valid ino ∧ (s.inodes ino).isSome := by
    intro ino hino
    obtain ⟨sin, hsin⟩ := isSome_iff_exists.mp (List.mem_filter.mp hino).2
    obtain ⟨sin₀, hsin₀, -⟩ := h.load hsin
    have hsome : (s.inodes ino).isSome := by rw [hsin₀, isSome_some]
    exact ⟨hloaded ino hsome, hsome⟩
  unfold sfsSync
  rw [wp_get, wp_bind]
  refine (h.wp_syncInodes hl).imp (fun _ u hu => ?_)
  rw [wp_get, hu.superDirty, wp_ite, wp_pure, wp_bind, setSuperDirty, wp_modify]
  refine ⟨fun hd => ?_, fun hd => ⟨fun hfail => hd hfail.1, ?_⟩⟩
  · rw [wp_onError]
    have htwo : 2 + s.freemapBlocks ≤ u.blocks := hu.blocks ▸ hfreemap
    have hblocks : u.freemapBlocks = s.freemapBlocks := by
      simp only [Fs.freemapBlocks, hu.blocks]
    have hkeep : ∀ disk d', s.Usable d' { u with superDirty := d', disk } := fun _ _ =>
      { hu with superDirty := rfl }
    unfold sfsSyncMeta sfsSyncSuper sfsSyncFreemap
    simp only [wp_bind, wp_gets, setSuperDirty, wp_modify]
    refine wp_assert_of (show 0 < u.blocks by omega) ?_
    rw [wp_ite, wp_throw, wp_modify]
    refine ⟨fun hhit => ⟨⟨hd, .inl hhit⟩, hkeep _ _⟩, fun hok => ?_⟩
    refine wp_wblock (fun i hi => ?_) (fun disk i hi hhit => ?_) (fun disk hall => ?_)
    · have hlt : i < s.freemapBlocks := lt_of_lt_of_eq hi hblocks
      exact ⟨show 2 + i ≠ 0 by omega, show 2 + i < u.blocks by omega⟩
    · exact ⟨⟨hd, .inr ⟨i, lt_of_lt_of_eq hi hblocks, hhit⟩⟩, hkeep _ _⟩
    · refine ⟨fun hfail => ?_, hkeep _ _⟩
      rcases hfail.2 with hhit | ⟨i, hi, hhit⟩
      · exact hok hhit
      · exact Bool.false_ne_true ((hall i (lt_of_lt_of_eq hi hblocks.symm)).symm.trans hhit)
  · have hfalse : d = false := by simpa using hd
    exact hfalse ▸ hu

theorem Fs.Usable.wp_unmount (n : ℕ) :
    (sfsUnmount φ n).wp s.SomeLocked E (fun _ u => ∃ d', s.Usable d' u) t := by
  induction n generalizing d t with
  | zero => exact ⟨d, h⟩
  | succ n ih =>
    rw [sfsUnmount, wp_bind, wp_attempt]
    exact (h.wp_sync hloaded hfreemap).mono (fun _ u hu => ih hu.2) (fun _ u hu => ⟨false, hu.2⟩)

end

theorem wp_onVolume {H : Prop} {devname : String} {vdev : Vdev} {α : Type} {m : K α} {v : Vfs}
    {E : VfsErr → Vfs → Prop} {Q : α × Fs → Vfs → Prop} :
    (onVolume devname vdev s m).wp H E Q v ↔
      m.wp H (fun e t => E (.sfs e) (update v devname (some { vdev with fs := some t })))
        (fun a t => Q (a, t) (update v devname (some { vdev with fs := some t }))) s := by
  unfold wp onVolume
  cases m s <;> rfl

/-- A call keeps the contract exactly when it stops at the first sync, or the register happens to
hold another value than zero. -/
theorem wp_vfsUnmount {v : Vfs} {devname : String} {vdev : Vdev} {s : Fs}
    (hmounted : v.Mounted devname vdev s) (φ : Faults) (r0 : ℤ) :
    (vfsUnmount φ r0 devname).attempt.wp s.SomeLocked (fun _ _ => False)
      (fun ret v' => Honoured devname s ret v' ↔ s.SyncFails (φ.at .fsync) ∨ r0 ≠ 0) v := by
  have hfind : findMount devname v = .done vdev v := by
    simp only [findMount, hmounted.found, Option.filter, hmounted.mountable, if_true]
  have hself : s.Usable s.superDirty s := ⟨rfl, rfl, rfl, fun _ => rfl, rfl⟩
  have hkept : ∀ {d t ret} (v₁ : Vfs), s.Usable d t → ret ≠ .ok 0 →
      Honoured devname s ret (update v₁ devname (some { vdev with fs := some t })) := by
    intro d t ret v₁ ht hret
    refine ⟨fun hzero => absurd hzero hret, fun _ =>
      ⟨hret, _, d, t, update_self _ _ _, rfl, ht, ?_⟩⟩
    exact hmounted.memory
  rw [wp_attempt, vfsUnmount, wp_bind]
  unfold wp
  rw [hfind]
  simp only [hmounted.fs]
  rw [← wp, wp_bind, wp_onVolume]
  refine (hself.wp_sync hmounted.loaded hmounted.freemap).mono (fun e t ht => ?_) (fun _ t ht => ?_)
  · exact iff_of_true (hkept v ht.2 (by simp)) (.inl ht.1)
  · rw [wp_bind, wp_onVolume]
    refine (ht.2.wp_unmount hmounted.loaded hmounted.freemap 32).imp ?_
    rintro - u ⟨d, hu⟩
    rw [wp_ite, wp_put, wp_pure, wp_pure]
    refine ⟨fun hr => ?_, fun hr => ?_⟩
    · refine iff_of_false (fun hhon => ?_) (fun hcond => hcond.elim ht.1 (fun hne => hne hr))
      obtain ⟨-, vdev', hvdev', -, -, hfreed, -⟩ := hhon.zero (by rw [hr])
      rw [update_self] at hvdev'
      cases hvdev'
      exact Bool.false_ne_true ((hfreed .sfs).symm.trans (hmounted.memory .sfs))
    · exact iff_of_true (hkept _ hu (by simpa using hr)) (.inr hr)

/-- The contract is kept, whatever the register holds, if and only if the first sync fails. -/
theorem vfsUnmount_honoured_iff {v : Vfs} {devname : String} {vdev : Vdev} {s : Fs}
    (hmounted : v.Mounted devname vdev s) (hfree : ¬s.SomeLocked) (φ : Faults) :
    (∀ r0, ∃ ret v', (vfsUnmount φ r0 devname).attempt v = .done ret v' ∧
      Honoured devname s ret v') ↔ s.SyncFails (φ.at .fsync) := by
  have hcall : ∀ r0, ∃ ret v', (vfsUnmount φ r0 devname).attempt v = .done ret v' ∧
      (Honoured devname s ret v' ↔ s.SyncFails (φ.at .fsync) ∨ r0 ≠ 0) := by
    intro r0
    have hwp := wp_vfsUnmount hmounted φ r0
    rw [eq_false hfree] at hwp
    exact hwp.returns_done
  constructor
  · intro hall
    obtain ⟨ret, v', hret, hhon⟩ := hall 0
    obtain ⟨ret', v'', hret', hiff⟩ := hcall 0
    obtain ⟨rfl, rfl⟩ := Outcome.done.inj (hret.symm.trans hret')
    exact (hiff.mp hhon).resolve_right fun hne => hne rfl
  · intro hfails r0
    obtain ⟨ret, v', hret, hiff⟩ := hcall r0
    exact ⟨ret, v', hret, hiff.mpr (.inl hfails)⟩

/-- A volume of three blocks whose root directory is loaded. -/
def busyVolume : Fs :=
  { blocks := 3, unusedBlocks := 0, superDirty := false, freemap := fun _ => false
    disk := fun _ => Bytes.zero
    inodes := fun ino => if ino = blknRoot then some
      { din := .empty .dir, dirty := false, removed := false, reclaimCount := 1, refCount := 1,
        openCount := 0, locked := false } else none }

/-- The device of that volume. -/
def busyVdev : Vdev :=
  { mountable := true, dBlocksize := blkSize, dBlocks := 3, disk := busyVolume.disk
    fs := some busyVolume, memory := fun _ => true }

/-- With a super block that cannot be written, the volume stays even with zero in the register. -/
theorem vfsUnmount_busyVolume_honoured : ∃ ret v',
    (vfsUnmount (fun _ => true) 0 "disk0").attempt (update (fun _ => none) "disk0"
      (some { busyVdev with fs := some { busyVolume with superDirty := true } })) = .done ret v' ∧
    Honoured "disk0" { busyVolume with superDirty := true } ret v' := by
  have hroot : ∀ {ino sin}, busyVolume.inodes ino = some sin → ino = blknRoot := by
    intro ino sin hsin
    by_contra hne
    simp [busyVolume, hne] at hsin
  refine (vfsUnmount_honoured_iff ⟨update_self _ _ _, rfl, rfl, fun _ => rfl, fun ino hino => ?_,
    by decide⟩ ?_ fun _ => true).mpr ⟨rfl, .inl rfl⟩ 0
  · obtain ⟨sin, hsin⟩ := isSome_iff_exists.mp hino
    obtain rfl := hroot hsin
    exact ⟨by decide, by decide⟩
  · rintro ⟨ino, sin, hsin, hlocked⟩
    obtain rfl := hroot hsin
    cases hsin
    cases hlocked

/-- With zero in the register a volume with a loaded inode is dropped. -/
theorem vfsUnmount_drops_busyVolume : busyVolume.inodeList = [blknRoot] ∧
    ∃ v vdev, vfsUnmount Faults.none 0 "disk0" (update (fun _ => none) "disk0" (some busyVdev)) =
      .done 0 v ∧ v "disk0" = some vdev ∧ vdev.fs = none ∧
      (∀ p, vdev.memory p = true) ∧ ¬Honoured "disk0" busyVolume (.ok 0) v := by
  refine ⟨by decide, _, _, rfl, update_self _ _ _, rfl, fun _ => rfl, fun hhon => ?_⟩
  exact (hhon.busy (by decide)).1 rfl

end Ucore.Sfs
