import Ucore.Lib.Runs
import Ucore.Sfs.Truncate
import Mathlib.Order.Interval.Finset.Nat

/-!
# Runs of calls on regular files

Sequences of reads, writes, seeks and truncations of loaded regular files, each with
its own schedule of faults. The number of blocks of a file agrees with its size as
long as no call leaves a block behind; the condition on the single call is
`FileCall.Tidy`.
-/

namespace Ucore.Sfs

open Kern Fs

/-- The calls on a regular file. -/
inductive FileOp where
  /-- `sfs_read`. -/
  | read (offset : ℤ) (len : ℕ)
  /-- `sfs_write`. -/
  | write (offset : ℤ) (data : List UInt8)
  /-- `sfs_tryseek`. -/
  | tryseek (pos : ℤ)
  /-- `sfs_truncfile`. -/
  | truncfile (len : ℤ)

/-- The code of a call: its return code and the bytes it moved. -/
def FileOp.run (φ : Faults) (x : ℕ) : FileOp → K (Option Err × List UInt8)
  | .read offset len => sfsRead φ x offset len
  | .write offset data => sfsWrite φ x offset data
  | .tryseek pos => do
    sfsTryseek φ x pos
    return (none, [])
  | .truncfile len => do
    sfsTruncfile φ x len
    return (none, [])

/-- A call on the inode `ino`. -/
structure FileCall where
  ino : ℕ
  op : FileOp
  faults : Faults

/-- A loaded regular file. -/
def Fs.Regular (s : Fs) (x : ℕ) : Prop := ∃ sin, s.inodes x = some sin ∧ sin.din.type = .file

/-- A call that returns, with success or with an error. -/
def FileStep (s : Fs) (c : FileCall) (s' : Fs) : Prop :=
  s.Regular c.ino ∧ (c.op.run c.faults c.ino s).after = some s'

/-- A regular file in good order between calls. -/
structure FileOk (x : ℕ) (sin : SfsInode) (s : Fs) : Prop where
  removed : sin.removed = false
  locked : sin.locked = false
  full : Full x s
  size : sin.din.size ≤ maxFileSize
  blocks : sin.din.blocks = blocksOf sin.din.size

/-- All loaded regular files are in good order. -/
structure FilesOk (L : Finset ℕ) (s : Fs) : Prop where
  owned : Owned L s
  file : ∀ x sin, s.inodes x = some sin → sin.din.type = .file → FileOk x sin s

variable {φ : Faults} {L : Finset ℕ} {x len : ℕ} {s s' : Fs} {sin : SfsInode} {write : Bool}
  {data bytes : List UInt8} {offset : ℤ} {ret : Option Err}

theorem Local.full (h : Local L x s s') {y : ℕ} (hy : y ∈ L) (hyx : y ≠ x) (hfull : Full y s) :
    Full y s' := by
  intro i hi
  rw [h.din h.owned.zero hy hyx] at hi
  rw [h.blk h.owned.zero hy hyx]
  exact hfull i hi

/-- A call that leaves the size and the blocks of its file in agreement. -/
theorem FilesOk.edit (h : FilesOk L s) (hsin : s.inodes x = some sin) (htype : sin.din.type = .file)
    (hedit : FileEdit L x s s') (hsize : (s'.din x).size ≤ maxFileSize)
    (hblocks : (s'.din x).blocks = blocksOf (s'.din x).size) : FilesOk L s' := by
  have hok := h.file x sin hsin htype
  obtain ⟨sin', hsin', hrev⟩ := hedit.inode sin hsin
  rw [din_eq hsin'] at hsize hblocks
  refine ⟨hedit.toLocal.owned, fun y siny hsiny hy => ?_⟩
  rcases eq_or_ne y x with rfl | hyx
  · rw [hsin'] at hsiny
    cases hsiny
    exact ⟨by rw [hrev.eq]; exact hok.removed, by rw [hrev.eq]; exact hok.locked,
      hedit.full hok.full, hsize, hblocks⟩
  · rw [hedit.toLocal.inode y hyx] at hsiny
    have hoky := h.file y siny hsiny hy
    have hyL := h.owned.mem hsiny
    exact { hoky with full := hedit.toLocal.full hyL hyx hoky.full }

theorem FileOk.io_ready (h : FileOk x sin s) (hsin : s.inodes x = some sin)
    (hoff : Moves write sin.din.size offset len → offset.toNat / blkSize ≤ sin.din.blocks) :
    IoReady L x write offset len s := by
  intro hmoves
  rw [din_eq hsin] at hmoves ⊢
  refine ⟨by rw [din_eq hsin]; exact hoff hmoves, ?_, fun i _ => h.full i⟩
  have : blocksOf (ioStop write sin.din.size offset len) ≤ 32768 :=
    blocksOf_le_iff.mpr ioStop_le
  simp only [maxBlocks]
  omega

/-- A read stays within the blocks of the file. -/
theorem FileOk.read_ready (h : FileOk x sin s) (hsin : s.inodes x = some sin) (offset : ℤ)
    (len : ℕ) : IoReady L x false offset len s := by
  refine h.io_ready hsin fun hmoves => ?_
  have hlt := hmoves.read rfl
  have hb := h.blocks
  simp only [blocksOf, blkSize] at *
  omega

/-- The size and the blocks after a transfer that left no block behind. -/
theorem IoStep.agree {start stop : ℕ} (h : IoStep φ L x write data start stop ret bytes s s')
    (hb : (s.din x).blocks = blocksOf (s.din x).size)
    (hstart : bytes = [] → start ≤ (s.din x).blocks * blkSize)
    (hstrand : ¬(ret ≠ none ∧ Stranded φ (s.din x).blocks (blocksOf stop))) :
    (s'.din x).blocks = blocksOf (s'.din x).size := by
  have hblocks := h.blocks.resolve_right hstrand
  rw [hblocks, h.size, grownBy]
  split
  · rename_i hnil
    rw [hnil, List.length_nil, Nat.add_zero, Nat.add_zero]
    have := blocksOf_le_iff.mpr (hstart hnil)
    have hmono := blocksOf_mono (le_max_left (s.din x).size start)
    refine le_antisymm (hb ▸ hmono) ?_
    rcases max_choice (s.din x).size start with hmax | hmax
    · rw [hmax, hb]
    · rw [hmax]
      exact this
  · rcases le_total (s.din x).size (start + bytes.length) with hle | hle
    · have := blocksOf_mono hle
      rw [max_eq_right hle]
      omega
    · have := blocksOf_mono hle
      rw [max_eq_left hle]
      omega

/-- A transfer does not grow a file past the limit. -/
theorem IoStep.size_le (h : IoStep φ L x write data offset.toNat
      (ioStop write (s.din x).size offset len) ret bytes s s')
    (hmoves : Moves write (s.din x).size offset len) (hsize : (s.din x).size ≤ maxFileSize) :
    (s'.din x).size ≤ maxFileSize := by
  have hlength := h.length
  have hstop : ioStop write (s.din x).size offset len ≤ maxFileSize := ioStop_le
  have hlt := hmoves.lt_stop
  rw [h.size]
  omega

/-- A call that leaves no block behind: a write starts within the blocks of the file and
its transfers to new blocks succeed, and a change of the number of blocks meets, after its
first block, no failing transfer and has more than four free blocks for each new one. -/
def FileCall.Tidy (c : FileCall) (s : Fs) : Prop :=
  match c.op with
  | .read _ _ => True
  | .write offset data => offset.toNat ≤ (s.din c.ino).blocks * blkSize ∧
      ¬Stranded c.faults (s.din c.ino).blocks
        (blocksOf (ioStop true (s.din c.ino).size offset data.length))
  | .tryseek pos => (s.din c.ino).size < pos.toNat →
      ¬Halfway c.faults (s.din c.ino).blocks (blocksOf pos.toNat) s.unusedBlocks
  | .truncfile len =>
      ¬Halfway c.faults (s.din c.ino).blocks (blocksOf len.toNat) s.unusedBlocks

section

variable (h : FilesOk L s) (hsin : s.inodes x = some sin) (htype : sin.din.type = .file)
include h hsin htype

/-- `sfs_io` returns and keeps the files in order. -/
theorem FilesOk.wp_io (hlen : write = true → len ≤ data.length)
    (hready : IoReady L x write offset len s)
    (htidy : Moves write sin.din.size offset len → offset.toNat ≤ (s.din x).blocks * blkSize ∧
      ¬Stranded φ (s.din x).blocks (blocksOf (ioStop write (s.din x).size offset len))) :
    (sfsIo φ x write offset len data).wp False (fun _ => FilesOk L) (fun _ => FilesOk L) s := by
  have hok := h.file x sin hsin htype
  refine Sfs.wp_io h.owned hsin (fun hr => absurd hr (by simp [hok.removed]))
    (fun hl => absurd hl (by simp [hok.locked])) (fun hnot => hnot ⟨by simp [htype], hready⟩) hlen
    (fun _ => h) (fun _ _ _ => h) (fun hmoves ret bytes s' hstep => ?_)
  obtain ⟨hstart, hstrand⟩ := htidy hmoves
  have hdin := din_eq hsin
  rw [← hdin] at hstep hmoves
  refine h.edit hsin htype hstep.toFileEdit (hstep.size_le hmoves ?_)
    (hstep.agree ?_ (fun _ => hstart) fun hs => hstrand hs.2)
  · rw [hdin]
    exact hok.size
  · rw [hdin]
    exact hok.blocks

/-- `sfs_truncfile` returns and keeps the files in order. -/
theorem FilesOk.wp_truncfile {len : ℤ}
    (htidy : ¬Halfway φ (s.din x).blocks (blocksOf len.toNat) s.unusedBlocks) :
    (sfsTruncfile φ x len).wp False (fun _ => FilesOk L) (fun _ => FilesOk L) s := by
  have hok := h.file x sin hsin htype
  have hb : sin.din.blocks ≤ 32768 := hok.blocks ▸ blocksOf_le_iff.mpr hok.size
  refine Sfs.wp_truncfile h.owned hsin (by simp only [maxBlocks]; omega)
    (fun hr => absurd hr (by simp [hok.removed])) (fun hl => absurd hl (by simp [hok.locked]))
    (fun hdir => absurd hdir (by simp [htype])) (fun _ => h)
    (fun _ hsize => ⟨fun _ => h, fun hne => hne (by rw [← hsize, hok.blocks])⟩)
    (fun hlo hhi s' hs => ?_) (fun hlo hhi e s' hs => ?_)
  · refine h.edit hsin htype hs.toFileEdit ?_ ?_
    · rw [hs.size]
      omega
    · rw [hs.blocks, hs.size]
  · refine h.edit hsin htype hs.toFileEdit ?_ ?_
    · rw [hs.size, din_eq hsin]
      exact hok.size
    · rw [hs.blocks.resolve_right htidy, hs.size, din_eq hsin]
      exact hok.blocks

end

/-- A tidy call returns and keeps the files in order. -/
theorem FilesOk.wp_run {c : FileCall} (h : FilesOk L s) (hreg : s.Regular c.ino)
    (htidy : c.Tidy s) : (c.op.run c.faults c.ino).wp False (fun _ => FilesOk L)
      (fun _ => FilesOk L) s := by
  obtain ⟨sin, hsin, htype⟩ := hreg
  have hok := h.file _ sin hsin htype
  obtain ⟨x, op, φ⟩ := c
  cases op with
  | read offset len =>
    refine h.wp_io hsin htype Bool.noConfusion (hok.read_ready hsin offset len) fun hmoves => ?_
    have hlt := hmoves.read rfl
    have hend : ioStop false sin.din.size offset len ≤ sin.din.size := min_le_right _ _
    rw [din_eq hsin, hok.blocks]
    refine ⟨hlt.le.trans (blocksOf_le_iff.mp le_rfl), fun ⟨k, hlo, hhi, _⟩ => ?_⟩
    have := blocksOf_mono hend
    omega
  | write offset data =>
    refine h.wp_io hsin htype (fun _ => le_rfl) (hok.io_ready hsin fun _ => ?_) fun _ => htidy
    have := htidy.1
    rw [din_eq hsin] at this
    exact Nat.div_le_of_le_mul (by rwa [Nat.mul_comm])
  | tryseek pos =>
    simp only [FileOp.run, sfsTryseek, wp_bind, wp_pure, wp_ite, wp_throw, wp_getSin hsin]
    refine ⟨fun _ => h, fun _ => ⟨fun hlt => ?_, fun _ => h⟩⟩
    exact h.wp_truncfile hsin htype (htidy (by rwa [din_eq hsin]))
  | truncfile len =>
    simp only [FileOp.run, wp_bind, wp_pure]
    exact h.wp_truncfile hsin htype htidy

/-- In a run of tidy calls the number of blocks of every regular file is that of its size
after each call, and every tidy call returns. -/
theorem blocks_eq_blocksOf_size {cs : List FileCall} (h : FilesOk L s)
    (hrun : Run (fun s c s' => FileStep s c s' ∧ c.Tidy s) s cs s') :
    (∀ x sin, s'.inodes x = some sin → sin.din.type = .file →
      sin.din.blocks = blocksOf sin.din.size) ∧
    ∀ c : FileCall, s'.Regular c.ino → c.Tidy s' → (c.op.run c.faults c.ino s').after ≠ none := by
  have hok : FilesOk L s' := hrun.invariant
    (fun s c s' h hstep => (h.wp_run hstep.1.1 hstep.2).of_after hstep.1.2) h
  exact ⟨fun x sin hsin htype => (hok.file x sin hsin htype).blocks,
    fun c hreg htidy => (hok.wp_run hreg htidy).after_ne_none⟩

/-! ## Volumes of empty inodes

A volume as it is after formatting, with its inodes loaded: the first blocks are in
use, all others are free, and no inode has a block yet. -/

/-- An inode as `sfs_load_inode` leaves it. -/
def SfsInode.loaded (din : DiskInode) : SfsInode :=
  { din, dirty := false, removed := false, reclaimCount := 1, refCount := 1, openCount := 0,
    locked := false }

/-- A volume of `n` blocks whose first `k` are in use, with the empty inodes `dins`. -/
def Fs.blank (n k : ℕ) (dins : ℕ → Option DiskInode) : Fs where
  blocks := n
  unusedBlocks := n - k
  superDirty := false
  freemap b := decide (k ≤ b ∧ b < n)
  disk b := match dins b with
    | some din => Bytes.zero.write 0 din.encode
    | none => Bytes.zero
  inodes x := (dins x).map SfsInode.loaded

/-- An inode without blocks. -/
structure DiskInode.NoBlocks (d : DiskInode) : Prop where
  direct : d.direct = fun _ => 0
  indirect : d.indirect = 0
  dbIndirect : d.dbIndirect = 0

variable {σ : Slot}

theorem DiskInode.NoBlocks.blkOf {d : DiskInode} (h : d.NoBlocks) (disk : ℕ → Bytes) (x : ℕ)
    (hσ : σ ≠ .self) : blkOf disk x d σ = 0 := by
  cases σ with
  | self => exact absurd rfl hσ
  | indirect => exact h.indirect
  | dbIndirect => exact h.dbIndirect
  | second j => simp [Sfs.blkOf, h.dbIndirect]
  | data i => simp [Sfs.blkOf, DiskInode.directAt, h.direct, h.indirect, h.dbIndirect]

variable {n k : ℕ} {dins : ℕ → Option DiskInode} {L : Finset ℕ} {din : DiskInode}

theorem Fs.inodes_blank {x : ℕ} (h : dins x = some din) :
    (Fs.blank n k dins).inodes x = some (SfsInode.loaded din) := by
  simp only [Fs.blank, h, Option.map_some]

theorem Fs.blk_blank {x : ℕ} (h : dins x = some din) (hempty : din.NoBlocks) (hσ : σ ≠ .self) :
    (Fs.blank n k dins).blk x σ = 0 := by
  rw [Fs.blk, din_eq (inodes_blank h)]
  exact hempty.blkOf _ _ hσ

theorem freemapOk_blank (hk : 0 < k) : (Fs.blank n k dins).FreemapOk := by
  refine ⟨fun b hb => ?_, ?_⟩
  · have : k ≤ b ∧ b < n := by simpa [Fs.blank] using hb
    exact ⟨by omega, this.2⟩
  · have : ((Finset.range n).filter fun b => decide (k ≤ b ∧ b < n) = true) = Finset.Ico k n := by
      ext b
      simp only [Finset.mem_filter, Finset.mem_range, decide_eq_true_eq, Finset.mem_Ico]
      omega
    show n - k = _
    rw [show ((Finset.range (Fs.blank n k dins).blocks).filter fun b =>
      (Fs.blank n k dins).freemap b = true) = Finset.Ico k n from this, Nat.card_Ico]

/-- The inodes of such a volume own their own blocks and nothing else. -/
theorem owned_blank (hk : 0 < k) (hkn : k ≤ n) (hn : n ≤ 2 ^ 32)
    (hL : ∀ x, x ∈ L ↔ dins x ≠ none) (hdins : ∀ x din, dins x = some din →
      x ≠ 0 ∧ x < k ∧ din.NoBlocks) : Owned L (Fs.blank n k dins) := by
  have hslot : ∀ i, (Fs.blank n k dins).owned L i ≠ 0 → i.2 = .self ∧ i.1 ≠ 0 ∧ i.1 < k ∧
      (Fs.blank n k dins).owned L i = i.1 := by
    rintro ⟨x, σ⟩ hne
    by_cases hx : x ∈ L
    · obtain ⟨din, hdin⟩ := Option.ne_none_iff_exists'.mp ((hL x).mp hx)
      obtain ⟨hpos, hlt, hempty⟩ := hdins x din hdin
      rw [owned_mem hx] at hne ⊢
      by_cases hσ : σ = .self
      · subst hσ
        exact ⟨rfl, hpos, hlt, rfl⟩
      · exact absurd (blk_blank hdin hempty hσ) hne
    · simp [Fs.owned, hx] at hne
  refine ⟨fun i j heq hne => ?_, fun i hne => ?_, freemapOk_blank hk, fun h0 => ?_, fun x hx => ?_,
    hn⟩
  · obtain ⟨hi, -, -, hi'⟩ := hslot i hne
    obtain ⟨hj, -, -, hj'⟩ := hslot j (heq ▸ hne)
    exact Prod.ext (by rw [← hi', heq, hj']) (hi.trans hj.symm)
  · obtain ⟨-, hpos, hlt, heq⟩ := hslot i hne
    rw [heq]
    refine ⟨hpos, hlt.trans_le hkn, ?_⟩
    simp only [Fs.blank, decide_eq_false_iff_not]
    omega
  · obtain ⟨din, hdin⟩ := Option.ne_none_iff_exists'.mp ((hL 0).mp h0)
    exact (hdins 0 din hdin).1 rfl
  · rw [hL]
    intro hnone
    simp [Fs.blank, hnone] at hx

/-- The empty files of a formatted volume are in good order. -/
theorem filesOk_blank (hk : 0 < k) (hkn : k ≤ n) (hn : n ≤ 2 ^ 32) (hL : ∀ x, x ∈ L ↔ dins x ≠ none)
    (hdins : ∀ x din, dins x = some din →
      x ≠ 0 ∧ x < k ∧ din.NoBlocks ∧ din.size = 0 ∧ din.blocks = 0) :
    FilesOk L (Fs.blank n k dins) := by
  refine ⟨owned_blank hk hkn hn hL fun x din h => ?_, fun x sin hsin _ => ?_⟩
  · obtain ⟨hpos, hlt, hempty, -⟩ := hdins x din h
    exact ⟨hpos, hlt, hempty⟩
  · obtain ⟨din, hdin, rfl⟩ := Option.map_eq_some_iff.mp hsin
    obtain ⟨-, -, -, hsize, hblocks⟩ := hdins x din hdin
    refine ⟨rfl, rfl, fun i hi => ?_, ?_, ?_⟩
    · rw [din_eq (inodes_blank hdin)] at hi
      simp [SfsInode.loaded, hblocks] at hi
    · simp [SfsInode.loaded, hsize]
    · simp only [SfsInode.loaded, hsize, hblocks]
      rfl

/-- A volume of 16 blocks with one empty file, inode 3. -/
def blankFile : Fs :=
  Fs.blank 16 4 fun x => if x = 3 then some { DiskInode.empty .file with nlinks := 1 } else none

theorem filesOk_blankFile : FilesOk {3} blankFile := by
  refine filesOk_blank (by decide) (by decide) (by decide) (fun x => ?_) (fun x din h => ?_)
  · by_cases hx : x = 3 <;> simp [hx]
  · by_cases hx : x = 3
    · simp only [hx, if_true, Option.some.injEq] at h
      subst h hx
      exact ⟨by decide, by decide, ⟨rfl, rfl, rfl⟩, rfl, rfl⟩
    · simp [hx] at h

theorem regular_blankFile : blankFile.Regular 3 := ⟨_, rfl, rfl⟩

/-- A write without faults is tidy. -/
theorem blocks_eq_after_write : ∃ s', FileStep blankFile ⟨3, .write 0 [7], .none⟩ s' ∧
    ∀ x sin, s'.inodes x = some sin → sin.din.type = .file →
      sin.din.blocks = blocksOf sin.din.size := by
  have hreturns : ((FileOp.run .none 3 (.write 0 [7]) blankFile).after).isSome = true := rfl
  obtain ⟨s', hs'⟩ := Option.isSome_iff_exists.mp hreturns
  have hstep : FileStep blankFile ⟨3, .write 0 [7], .none⟩ s' := ⟨regular_blankFile, hs'⟩
  have htidy : (⟨3, .write 0 [7], .none⟩ : FileCall).Tidy blankFile :=
    ⟨by decide, fun ⟨_, _, _, h⟩ => h rfl⟩
  exact ⟨s', hstep, (blocks_eq_blocksOf_size filesOk_blankFile (.cons ⟨hstep, htidy⟩ (.nil s'))).1⟩

/-- The schedule in which the first data transfer of a call to block 0 of a file fails. -/
def failFirstWrite : Faults := fun path => decide (path = [.turn 0, .wbuf, .wr])

theorem regular_blankFile_step : FileStep blankFile ⟨3, .write 0 [7], failFirstWrite⟩
    ((FileOp.run failFirstWrite 3 (.write 0 [7]) blankFile).after.get rfl) :=
  ⟨regular_blankFile, (Option.some_get _).symm⟩

/-- A write whose transfer to a new block fails leaves one block and size zero, and a
truncation to size zero then fails its assertion. -/
theorem failed_write_strands_block : ∃ s', FilesOk {3} blankFile ∧
    Run FileStep blankFile [⟨3, .write 0 [7], failFirstWrite⟩] s' ∧
    (∃ sin, s'.inodes 3 = some sin ∧ sin.din.type = .file ∧ sin.din.blocks = 1 ∧ sin.din.size = 0) ∧
    sfsTruncfile .none 3 0 s' = .halt .assertion := by
  exact ⟨_, filesOk_blankFile, .cons regular_blankFile_step (.nil _), ⟨_, rfl, rfl, rfl, rfl⟩, rfl⟩

/-! ## Blocks that are held -/

/-- The counted blocks of the loaded regular files are there. -/
structure FilesFull (L : Finset ℕ) (s : Fs) : Prop where
  owned : Owned L s
  full : ∀ x, s.Regular x → Full x s

/-- A call on a file, whether it succeeds or fails. -/
theorem FilesFull.edit (h : FilesFull L s) (hreg : s.Regular x) (hedit : FileEdit L x s s') :
    FilesFull L s' := by
  refine ⟨hedit.toLocal.owned, fun y hy => ?_⟩
  rcases eq_or_ne y x with rfl | hyx
  · exact hedit.full (h.full y hreg)
  · obtain ⟨siny, hsiny, htype⟩ := hy
    rw [hedit.toLocal.inode y hyx] at hsiny
    have hyL := h.owned.mem hsiny
    exact hedit.toLocal.full hyL hyx (h.full y ⟨siny, hsiny, htype⟩)

section

variable (h : FilesFull L s) (hreg : s.Regular x)
include h hreg

theorem FilesFull.wp_io (hlen : write = true → len ≤ data.length) :
    (sfsIo φ x write offset len data).wp True (fun _ => FilesFull L) (fun _ => FilesFull L) s := by
  obtain ⟨sin, hsin, -⟩ := id hreg
  exact Sfs.wp_io h.owned hsin (fun _ => h) (fun _ => trivial) (fun _ => trivial) hlen (fun _ => h)
    (fun _ _ _ => h) fun _ ret bytes s' hstep => h.edit hreg hstep.toFileEdit

theorem FilesFull.wp_truncfile {len : ℤ} :
    (sfsTruncfile φ x len).wp True (fun _ => FilesFull L) (fun _ => FilesFull L) s := by
  obtain ⟨sin, hsin, -⟩ := id hreg
  -- only indices below the bound have a block
  have hmax : sin.din.blocks ≤ maxBlocks := by
    by_contra hgt
    exact absurd (lt_maxBlocks (h.full x hreg maxBlocks (by rw [din_eq hsin]; omega))) (lt_irrefl _)
  exact Sfs.wp_truncfile h.owned hsin hmax (fun _ => h) (fun _ => trivial) (fun _ => trivial)
    (fun _ => h) (fun _ _ => ⟨fun _ => h, fun _ => trivial⟩)
    (fun _ _ s' hs => h.edit hreg hs.toFileEdit) fun _ _ e s' hs => h.edit hreg hs.toFileEdit

end

/-- A call that returns, with success or with an error, leaves the counted blocks there. -/
theorem FilesFull.step {c : FileCall} (h : FilesFull L s) (hstep : FileStep s c s') :
    FilesFull L s' := by
  obtain ⟨hreg, hafter⟩ := hstep
  refine wp.of_after (H := True) ?_ hafter
  obtain ⟨x, op, φ⟩ := c
  cases op with
  | read offset len => exact h.wp_io hreg Bool.noConfusion
  | write offset data => exact h.wp_io hreg fun _ => le_rfl
  | tryseek pos =>
    obtain ⟨sin, hsin, -⟩ := id hreg
    simp only [FileOp.run, sfsTryseek, wp_bind, wp_pure, wp_ite, wp_throw, wp_getSin hsin]
    exact ⟨fun _ => h, fun _ => ⟨fun _ => h.wp_truncfile hreg, fun _ => h⟩⟩
  | truncfile len =>
    simp only [FileOp.run, wp_bind, wp_pure]
    exact h.wp_truncfile hreg

/-- In a run of calls, each of which may fail, no block is ever held twice, the blocks that are held
are in use, and the free map stays well formed. -/
theorem blocks_held_once {cs : List FileCall} (hown : Owned L s)
    (hfull : ∀ x, s.Regular x → Full x s) (hrun : Run FileStep s cs s') : Owned L s' :=
  (hrun.invariant (fun _ _ _ => FilesFull.step) ⟨hown, hfull⟩).owned

/-- A write that fails and leaves a block behind. -/
theorem blocks_held_once_write : ∃ s', FileStep blankFile ⟨3, .write 0 [7], failFirstWrite⟩ s' ∧
    (s'.din 3).blocks = 1 ∧ Owned {3} s' := by
  refine ⟨_, regular_blankFile_step, rfl, blocks_held_once filesOk_blankFile.owned (fun x hx => ?_)
    (.cons regular_blankFile_step (.nil _))⟩
  obtain ⟨sin, hsin, htype⟩ := hx
  exact (filesOk_blankFile.file x sin hsin htype).full

end Ucore.Sfs
