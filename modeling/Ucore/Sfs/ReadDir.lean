import Ucore.Sfs.TableRuns

/-!
# Reading a directory

`sysfile_getdirentry` fills a record for the user from an entry of a directory. Both the record
and the entry are buffers from `kmalloc`, which hold whatever was in the memory before; they are
parameters here. The names of the first two slots do not fill the entry.
-/

namespace Ucore.Sfs

open Kern

/-! ## The model -/

/-- `sfs_dentry_size`. -/
abbrev dentrySize : ℕ := maxFnameLen + 1

/-- `sizeof(struct dirent)`: two words, a half word, the name, and padding. -/
abbrev direntSize : ℕ := 268

/-- `sfs_dirent_read_nolock`: the bytes that it reads into the entry. -/
def sfsDirentBytesNolock (φ : Faults) (dir slot : ℕ) : K (List UInt8) := do
  let sin ← getSin dir
  assert (sin.din.type = .dir ∧ slot < sin.din.blocks)
  let blk ← sfsBmapLoadNolock (φ.at .load) dir slot
  assertInuse blk
  sfsRbuf (φ.at .rbuf) diskEntrySize blk 0

/-- The loop of `sfs_getdirentry_sub_nolock` over `n` slots from `i` on, with the buffer `entry`.
Returns the name in it. -/
def sfsGetdirentrySubNolock (φ : Faults) (dir : ℕ) : ℕ → ℕ → ℕ → Bytes → K (List UInt8)
  | 0, _, _, _ => throw .noent
  | n + 1, i, slot, entry => do
    let bytes ← sfsDirentBytesNolock (φ.at (.turn i)) dir i
    let entry := (entry.write 0 bytes).write (4 + maxFnameLen) [0]
    if leValue (entry.read 0 4) = 0 then sfsGetdirentrySubNolock φ dir n (i + 1) slot entry
    else if slot = 0 then return entry.read 4 dentrySize
    else sfsGetdirentrySubNolock φ dir n (i + 1) (slot - 1) entry

/-- The `switch` of `sfs_getdirentry`: the name that is then moved. -/
def sfsDirentName (φ : Faults) (dir : ℕ) (entry : Bytes) : ℕ → K (List UInt8)
  | 0 => return (entry.write 4 [46, 0]).read 4 dentrySize
  | 1 => return (entry.write 4 [46, 46, 0]).read 4 dentrySize
  | slot + 2 => withSin dir do
    let sin ← getSin dir
    sfsGetdirentrySubNolock φ dir sin.din.blocks 0 slot entry

/-- `sfs_getdirentry`: the bytes that `iobuf_move` moves. -/
def sfsGetdirentry (φ : Faults) (entry : Bytes) (dir : ℕ) (offset : ℤ) : K (List UInt8) := do
  kmalloc (φ.at .kmalloc)
  let sin ← getSin dir
  if offset < 0 ∨ offset % dentrySize ≠ 0 then throw .inval
  else if (sin.din.slots + 2) % 2 ^ 32 ≤ (offset / dentrySize).toNat then throw .noent
  else sfsDirentName φ dir entry (offset / dentrySize).toNat

/-- `vop_getdirentry`; a regular file has `NULL_VOP_NOTDIR`. -/
def vopGetdirentry (φ : Faults) (entry : Bytes) (ino : ℕ) (offset : ℤ) : K (List UInt8) := do
  let sin ← getSin ino
  if sin.din.type ≠ .dir then throw .notdir else sfsGetdirentry φ entry ino offset

/-- `file_getdirentry`: the bytes that are moved to `d_name`. -/
def fileGetdirentry (φ : Faults) (entry : Bytes) (fd : ℤ) (dOff : ℕ) : F (List UInt8) := do
  let fd ← fd2file fd
  filemapAcquire fd
  let p ← get
  (onFs (vopGetdirentry (φ.at .search) entry (p.filemap fd).node (toOff dOff))).thenRelease
    (filemapRelease (φ.at .drop) fd)

/-- The record at the end of `sysfile_getdirentry`, in the memory `direntp`. -/
def dirent (direntp : Bytes) (dOff : ℕ) (name : List UInt8) : Bytes :=
  ((((direntp.write 0 (List.replicate direntSize 0)).write 8 (leBytes 2 direntSize)).write 0
    (leBytes 4 1)).write 10 name).write 4 (leBytes 4 (dOff + name.length))

/-- `sysfile_getdirentry`: the bytes that it copies to the user. `heap` has the bytes of the
memory that its calls of `kmalloc` return, and `checkIn` and `checkOut` say what
`copy_from_user` and `copy_to_user` return. -/
def sysfileGetdirentry (φ : Faults) (heap : ℕ → Bytes) (fd : ℤ) (dOff : ℕ)
    (checkIn checkOut : Bool) : F (List UInt8) := do
  onFs (kmalloc (φ.at .kmalloc))
  if checkIn = false then throw .inval
  else
    let name ← fileGetdirentry (φ.at .rbuf) (heap 1) fd dOff
    if checkOut = false then throw .inval
    else return (dirent (heap 0) dOff name).read 0 direntSize

/-! ## What is copied -/

variable {φ : Faults} {dir slot dOff : ℕ} {fd : ℤ} {checkIn checkOut : Bool} {p : Proc}
  {heap heap' : ℕ → Bytes}

theorem wp_direntBytes {s : Fs} : (sfsDirentBytesNolock φ dir slot).wp True Any
    (fun bytes _ => bytes.length = diskEntrySize) s := by
  rw [sfsDirentBytesNolock, wp_bind]
  refine wp_any fun sin s => ?_
  refine wp_seq (wp_any fun _ s => ?_)
  refine wp_seq (wp_any fun blk s => ?_)
  refine wp_seq (wp_any fun _ s => ?_)
  rw [sfsRbuf, wp_bind]
  refine wp_any fun _ s => ?_
  exact wp_seq (wp_any fun b s => b.length_read 0 diskEntrySize)

/-- An entry that was read covers the whole buffer. -/
theorem sfsGetdirentrySubNolock_eq {n i : ℕ} (entry entry' : Bytes) :
    sfsGetdirentrySubNolock φ dir n i slot entry =
      sfsGetdirentrySubNolock φ dir n i slot entry' := by
  induction n generalizing i slot entry entry' with
  | zero => rfl
  | succ n ih =>
    funext s
    refine bind_congr (wp_direntBytes.imp fun bytes s hbytes => ?_)
    have hsame : Bytes.Agree diskEntrySize ((entry.write 0 bytes).write (4 + maxFnameLen) [0])
        ((entry'.write 0 bytes).write (4 + maxFnameLen) [0]) :=
      (Bytes.agree_write hbytes.ge).write
    have hino := hsame.read (show 0 + 4 ≤ diskEntrySize by decide)
    have hname := hsame.read (show 4 + dentrySize ≤ diskEntrySize from le_rfl)
    rw [hino, hname, ih _ ((entry'.write 0 bytes).write (4 + maxFnameLen) [0]),
      @ih (slot - 1) (i + 1) _ ((entry'.write 0 bytes).write (4 + maxFnameLen) [0])]

theorem sfsDirentName_eq (entry entry' : Bytes) (hslot : 2 ≤ slot) :
    sfsDirentName φ dir entry slot = sfsDirentName φ dir entry' slot := by
  obtain ⟨k, rfl⟩ := Nat.exists_eq_add_of_le' hslot
  simp only [sfsDirentName, sfsGetdirentrySubNolock_eq entry entry']

/-- The record covers its memory. -/
theorem read_dirent (b b' : Bytes) (name : List UInt8) :
    (dirent b dOff name).read 0 direntSize = (dirent b' dOff name).read 0 direntSize := by
  have hsame : Bytes.Agree direntSize (b.write 0 (List.replicate direntSize 0))
      (b'.write 0 (List.replicate direntSize 0)) := Bytes.agree_write (List.length_replicate).ge
  exact hsame.write.write.write.write.read le_rfl

/-! ## The names of the first two slots -/

/-- The call gets to the name of one of the first two slots and copies it to the user: both buffers
are allocated, the record can be read and written, the descriptor is open on a directory, and the
directory has the slot. -/
structure NamesDots (φ : Faults) (fd : ℤ) (dOff : ℕ) (checkIn checkOut : Bool) (p : Proc) :
    Prop where
  slot : dOff % 2 ^ 32 = 0 ∨ dOff % 2 ^ 32 = dentrySize
  record : (φ.at .kmalloc).hit = false
  entry : (((φ.at .rbuf).at .search).at .kmalloc).hit = false
  read : checkIn = true
  write : checkOut = true
  opened : 0 ≤ fd ∧ fd < p.nentry ∧ (p.filemap fd.toNat).status = .opened
  used : 0 < (p.filemap fd.toNat).openCount
  dir : ∃ sin, p.fs.inodes (p.filemap fd.toNat).node = some sin ∧ sin.din.type = .dir ∧
    dOff % 2 ^ 32 / dentrySize < (sin.din.slots + 2) % 2 ^ 32

/-- The names of the first two slots leave the rest of the entry as it was. -/
theorem wp_sfsDirentName_dots {H : Prop} {E : Err → Fs → Prop} {s : Fs} (entry : Bytes)
    (h : slot < 2) : (sfsDirentName φ dir entry slot).wp H E
      (fun name s' => name.length = dentrySize ∧ name.getD 3 0 = entry 7 ∧ s' = s) s := by
  match slot, h with
  | 0, _ => exact ⟨Bytes.length_read .., rfl, rfl⟩
  | 1, _ => exact ⟨Bytes.length_read .., rfl, rfl⟩

/-- A call for one of the first two slots returns if and only if it copies the name, and byte 13 of
the record is then one of the memory. -/
theorem wp_sysfileGetdirentry_dots {N : Prop} (hN : N ↔ NamesDots φ fd dOff checkIn checkOut p)
    (hslot : dOff % 2 ^ 32 = 0 ∨ dOff % 2 ^ 32 = dentrySize) :
    (sysfileGetdirentry φ heap fd dOff checkIn checkOut).wp (¬N) (fun _ _ => ¬N)
      (fun r _ => N ∧ r.getD 13 0 = heap 1 7) p := by
  have hsize : dentrySize = 256 := rfl
  have hoff : toOff dOff = (dOff % 2 ^ 32 : ℕ) := by
    rw [toOff, Int.bmod_def]
    split <;> omega
  have hbad : ∀ {ψ : Faults} {fd : ℕ} {p : Proc}, ¬N →
      (filemapRelease ψ fd).wp (¬N) (fun _ _ => ¬N) (fun _ _ => ¬N) p := fun h =>
    (wp_any fun _ _ => h).weaken h (fun _ _ => h) fun _ _ h => h
  rw [sysfileGetdirentry, wp_bind, wp_onFs, kmalloc]
  refine wp_if (fun hhit h => Bool.false_ne_true ((hN.mp h).record.symm.trans hhit))
    fun hrecord => ?_
  rw [Bool.not_eq_true] at hrecord
  rw [wp_pure]
  refine wp_if (fun hin h => Bool.false_ne_true (hin.symm.trans (hN.mp h).read)) fun hin => ?_
  rw [wp_bind, fileGetdirentry, wp_bind, fd2file, wp_get]
  refine wp_if (fun hfd => ?_) fun hno h => hno (hN.mp h).opened
  have hopen : (p.filemap fd.toNat).status = .opened := hfd.2.2
  rw [wp_pure, wp_bind]
  refine wp_filemapAcquire hopen ?_
  rw [wp_get, wp_thenRelease, wp_onFs, Proc.filemap_acquired, vopGetdirentry, wp_bind]
  refine wp_getSin_of (fun sin hsin => ?_) fun hnone h => ?_
  · refine wp_if (fun htype => hbad fun h => ?_) fun htype => ?_
    · obtain ⟨sin', hsin', htype', -⟩ := (hN.mp h).dir
      cases hsin.symm.trans hsin'
      exact htype htype'
    rw [sfsGetdirentry, wp_bind, kmalloc]
    refine wp_if (fun hhit => hbad fun h => ?_) fun hentry => ?_
    · exact Bool.false_ne_true ((hN.mp h).entry.symm.trans hhit)
    rw [Bool.not_eq_true] at hentry
    have hnat : (((dOff % 2 ^ 32 : ℕ) : ℤ) / dentrySize).toNat = dOff % 2 ^ 32 / dentrySize :=
      Int.toNat_natCast _
    rw [wp_pure, wp_bind, wp_getSin hsin, hoff]
    refine wp_if (fun hodd => ?_) fun _ => wp_if (fun hle => hbad fun h => ?_) fun hlt => ?_
    · have hsize' : (dentrySize : ℤ) = 256 := rfl
      rw [hsize'] at hodd
      omega
    · obtain ⟨sin', hsin', -, hlt⟩ := (hN.mp h).dir
      cases hsin.symm.trans hsin'
      exact not_lt.mpr hle hlt
    refine (wp_sfsDirentName_dots (heap 1) ?_).imp fun name s hname => ?_
    · rw [hsize]
      omega
    obtain ⟨hlength, hname, rfl⟩ := hname
    -- without another user of the file, its release fails an assertion
    have hfile : (p.acquired fd.toNat).filemap fd.toNat = _ := Proc.filemap_acquired
    rw [filemapRelease, wp_get]
    refine wp_check (.inl ?_) (wp_check ?_ ?_)
    · rw [hfile]
      exact hopen
    · rw [hfile]
      exact Nat.succ_pos _
    rw [wp_bind, wp_modifyFile, wp_ite, hfile]
    refine ⟨fun hzero => ?_, fun hused => ?_⟩
    · rw [filemapFree, wp_get, wp_bind, wp_assert]
      refine ⟨fun hstatus => ?_, fun _ h => (hN.mp h).used.ne' hzero⟩
      simp [Proc.setFile, hopen] at hstatus
    · rw [wp_pure]
      refine wp_if (fun hout h => Bool.false_ne_true (hout.symm.trans (hN.mp h).write))
        fun hout => ?_
      refine ⟨hN.mpr ⟨hslot, hrecord, hentry, Bool.not_eq_false _ ▸ hin, Bool.not_eq_false _ ▸ hout,
        hfd, Nat.pos_of_ne_zero hused, sin, hsin, not_not.mp htype, not_le.mp hlt⟩, ?_⟩
      rw [Bytes.getD_read _ (by decide), dirent, Bytes.write_apply_outside _ (by simp),
        Bytes.write_apply_inside _ (by decide) (by rw [hlength]; decide)]
      exact hname
  · obtain ⟨sin, hsin, -⟩ := (hN.mp h).dir
    cases hnone.symm.trans hsin

/-- Only the names of the first two slots depend on the memory. -/
theorem rel_sfsDirentName {P : Prop} {s : Fs} (entry entry' : Bytes) (hP : P → 2 ≤ slot) :
    (sfsDirentName φ dir entry slot s).Rel (fun name name' => P → name = name')
      (sfsDirentName φ dir entry' slot s) := by
  match slot with
  | 0 => exact .done s fun h => absurd (hP h) (by decide)
  | 1 => exact .done s fun h => absurd (hP h) (by decide)
  | slot + 2 =>
    rw [sfsDirentName_eq entry entry' (Nat.le_add_left 2 slot)]
    exact .refl fun _ _ => rfl

/-- At an offset that is neither that of `.` nor that of `..` the memory does not matter. -/
theorem rel_sysfileGetdirentry (heap heap' : ℕ → Bytes) :
    (sysfileGetdirentry φ heap fd dOff checkIn checkOut p).Rel
      (fun r r' => ¬(dOff % 2 ^ 32 = 0 ∨ dOff % 2 ^ 32 = dentrySize) → r = r')
      (sysfileGetdirentry φ heap' fd dOff checkIn checkOut p) := by
  have hsize : (dentrySize : ℤ) = 256 := rfl
  have hmod : ((2 ^ 32 : ℕ) : ℤ) = 4294967296 := rfl
  have hvop : ∀ {ψ ino s}, (vopGetdirentry ψ (heap 1) ino (toOff dOff) s).Rel
      (fun name name' => ¬(dOff % 2 ^ 32 = 0 ∨ dOff % 2 ^ 32 = dentrySize) → name = name')
      (vopGetdirentry ψ (heap' 1) ino (toOff dOff) s) := by
    intro ψ ino s
    refine rel_bind_same fun sin s => ?_
    split
    · exact .refl fun _ _ => rfl
    refine rel_bind_same fun _ s => rel_bind_same fun sin s => ?_
    split
    · exact .refl fun _ _ => rfl
    rename_i hgood
    split
    · exact .refl fun _ _ => rfl
    refine rel_sfsDirentName _ _ fun hslot => ?_
    rw [toOff, Int.bmod_def, hsize] at hgood ⊢
    split_ifs at hgood ⊢ <;> omega
  refine rel_bind_same fun _ p => ?_
  split
  · exact .refl fun _ _ => rfl
  refine rel_bind (rel_bind_same fun fd p => rel_bind_same fun _ p => rel_bind_same fun q p =>
    rel_thenRelease (rel_zoom hvop) _) fun name name' p heq => ?_
  split
  · exact .refl fun _ _ => rfl
  refine .done p fun hslot => ?_
  rw [heq hslot]
  exact read_dirent (heap 0) (heap' 0) name'

/-- Memory with the same byte everywhere. -/
def filled (b : UInt8) : ℕ → Bytes := fun _ _ => b

/-- What a call does and copies to the user is the same whatever was in the free memory, if and only
if it does not copy the name of one of the first two slots. -/
theorem getdirentry_discloses_nothing :
    (∀ heap heap', sysfileGetdirentry φ heap fd dOff checkIn checkOut p =
      sysfileGetdirentry φ heap' fd dOff checkIn checkOut p) ↔
      ¬NamesDots φ fd dOff checkIn checkOut p := by
  have hwp : dOff % 2 ^ 32 = 0 ∨ dOff % 2 ^ 32 = dentrySize → ∀ heap : ℕ → Bytes, _ :=
    fun hslot heap => @wp_sysfileGetdirentry_dots φ dOff fd checkIn checkOut p heap _ Iff.rfl hslot
  constructor
  · intro hsame hnames
    have hbyte : ∀ heap, ∃ r p', sysfileGetdirentry φ heap fd dOff checkIn checkOut p = .done r p' ∧
        r.getD 13 0 = heap 1 7 := by
      intro heap
      have hcall := hwp hnames.slot heap
      simp only [hnames, not_true_eq_false, true_and] at hcall
      exact hcall.returns_done
    obtain ⟨r, p', hcall, hr⟩ := hbyte (filled 0)
    obtain ⟨r', p'', hcall', hr'⟩ := hbyte (filled 7)
    rw [hsame (filled 0) (filled 7), hcall'] at hcall
    rw [← (Outcome.done.inj hcall).1, hr'] at hr
    exact absurd hr (by decide)
  · intro hno heap heap'
    refine (rel_sysfileGetdirentry heap heap').eq fun r r' p' hcall heq => heq fun hslot => hno ?_
    exact ((hwp hslot heap).of_done hcall).1

/-- A process with a directory open, which has one entry, named `a`. -/
def oneEntry : Proc where
  fs :=
    { blocks := 8, unusedBlocks := 0, superDirty := false, freemap := fun _ => false
      disk := fun _ => Bytes.zero.write 0 (DiskEntry.encode ⟨3, [97]⟩)
      inodes := fun _ => some
        { din := { DiskInode.empty .dir with size := 1, blocks := 1, direct := fun _ => 5 }
          dirty := false, removed := false, reclaimCount := 1, refCount := 1, openCount := 1
          locked := false } }
  nentry := 1
  filemap _ :=
    { status := .opened, readable := true, writable := false, pos := 0, node := 4, openCount := 1 }

set_option maxRecDepth 4000

/-- The name of the first slot is followed by what was in the memory before. -/
theorem getdirentry_discloses_dot : ∃ r r' p',
    sysfileGetdirentry .none (filled 0) 0 0 true true oneEntry = .done r p' ∧
    sysfileGetdirentry .none (filled 7) 0 0 true true oneEntry = .done r' p' ∧
    r.getD 12 0 = 0 ∧ r'.getD 12 0 = 7 :=
  ⟨_, _, _, rfl, rfl, Bytes.getD_read _ (by decide), Bytes.getD_read _ (by decide)⟩

end Ucore.Sfs
