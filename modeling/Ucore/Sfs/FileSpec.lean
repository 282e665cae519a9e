import Ucore.Sfs.Inode
import Ucore.Sfs.MapFree
import Ucore.Sfs.Transfer

/-!
# Reading, writing and truncating one file

Specifications of `sfs_io` and `sfs_truncfile`. `FileEdit` is what every call does,
failing or not: it changes one file, keeps its block map in order and loses no
block. What a call does to the size, the block count and the bytes is stated
beside it.
-/

namespace Ucore.Sfs

open Kern Function Fs

variable {H : Prop} {E : Err → Fs → Prop} {φ : Faults} {L : Finset ℕ} {x len n size start stop : ℕ}
  {s s' : Fs} {sin : SfsInode} {write : Bool} {data bytes : List UInt8} {offset : ℤ}
  {Q : Option Err × List UInt8 → Fs → Prop} {ret : Option Err}

/-! ## The semaphore of an inode

The semaphore is invisible to the block map and to the contents, so what is proved of the code
between `trylock_sin` and `unlock_sin` carries over to the whole. -/

/-- The volume with the semaphore of `x` taken or released. -/
def Fs.setLocked (s : Fs) (x : ℕ) (b : Bool) : Fs :=
  s.setInode x ((s.inodes x).map fun sin => { sin with locked := b })

theorem Fs.setLocked_eq (hsin : s.inodes x = some sin) (b : Bool) :
    s.setLocked x b = s.setInode x (some { sin with locked := b }) := by
  rw [Fs.setLocked, hsin, Option.map_some]

theorem Fs.inodes_setLocked (hsin : s.inodes x = some sin) (b : Bool) :
    (s.setLocked x b).inodes x = some { sin with locked := b } := by
  rw [setLocked_eq hsin, setInode_self]

theorem Fs.inodes_setLocked_of_ne {y : ℕ} (hyx : y ≠ x) (b : Bool) :
    (s.setLocked x b).inodes y = s.inodes y := s.setInode_of_ne hyx _

/-- Taking and releasing the semaphore of an inode leaves no trace. -/
theorem Fs.setLocked_setLocked (hsin : s.inodes x = some sin) (hfree : sin.locked = false) :
    (s.setLocked x true).setLocked x false = s := by
  have hinodes : update (update s.inodes x (some { sin with locked := true })) x
      (some { sin with locked := false }) = s.inodes := by
    rw [update_idem, ← hfree, ← hsin, update_eq_self]
  rw [setLocked_eq (inodes_setLocked hsin true), setLocked_eq hsin]
  exact congrArg (fun m => ({ s with inodes := m } : Fs)) hinodes

theorem Fs.din_setLocked (y : ℕ) (b : Bool) : (s.setLocked x b).din y = s.din y := by
  rcases eq_or_ne y x with rfl | hyx
  · cases hsin : s.inodes y with
    | none =>
      have : (s.setLocked y b).inodes y = none := by
        rw [Fs.setLocked, hsin, Option.map_none, setInode_self]
      simp only [Fs.din, this, hsin]
      rfl
    | some sin => rw [din_eq (inodes_setLocked hsin b), din_eq hsin]
  · simp only [Fs.din, inodes_setLocked_of_ne hyx]
    rfl

theorem Fs.blk_setLocked (y : ℕ) (b : Bool) (σ : Slot) : (s.setLocked x b).blk y σ = s.blk y σ := by
  rw [Fs.blk, din_setLocked]
  rfl

theorem Fs.content_setLocked (y i : ℕ) (b : Bool) :
    (s.setLocked x b).content y i = s.content y i := by
  rw [Fs.content, blk_setLocked]
  rfl

theorem Local.setLocked (hown : Owned L s) (hsin : s.inodes x = some sin) (b : Bool) :
    Local L x s (s.setLocked x b) := by
  rw [setLocked_eq hsin]
  exact .setInode hown hsin ⟨rfl, rfl, rfl⟩

/-- Code that runs with the semaphore: a removed inode is refused, and a semaphore
that is held already is never given back. -/
theorem wp_withSin {α : Type} {body : K α} {Q : α → Fs → Prop} (hsin : s.inodes x = some sin)
    (hremoved : sin.removed = true → E .noent s) (hlocked : sin.locked = true → H)
    (hbody : sin.removed = false → sin.locked = false →
      body.wp H (fun e s' => E e (s'.setLocked x false)) (fun a s' => Q a (s'.setLocked x false))
        (s.setLocked x true)) : (withSin x body).wp H E Q s := by
  unfold withSin trylockSin
  rw [wp_bind, wp_bind, wp_getSin hsin]
  refine wp_if hremoved fun hr => ?_
  refine wp_if hlocked fun hl => ?_
  rw [wp_modifySin hsin, wp_thenRelease, ← setLocked_eq hsin]
  exact hbody (by simpa using hr) (by simpa using hl)

/-! ## Files -/

/-- Every counted block of `x` is there. -/
def Full (x : ℕ) (s : Fs) : Prop := ∀ i < (s.din x).blocks, s.blk x (.data i) ≠ 0

/-- Every data block of `x` is counted. -/
def Tight (x : ℕ) (s : Fs) : Prop := ∀ i, s.blk x (.data i) ≠ 0 → i < (s.din x).blocks

/-- `sin'` is `sin` with another size, block count and block map. -/
structure SfsInode.Revised (sin sin' : SfsInode) : Prop where
  eq : sin' = { sin with
    din := { sin.din with size := sin'.din.size, blocks := sin'.din.blocks,
                          direct := sin'.din.direct, indirect := sin'.din.indirect,
                          dbIndirect := sin'.din.dbIndirect }
    dirty := sin'.dirty }

theorem SfsInode.Revised.trans {a b c : SfsInode} (h : a.Revised b) (h' : b.Revised c) :
    a.Revised c where
  eq := by
    rw [h'.eq, h.eq]

theorem SfsInode.Grown.revised {sin' : SfsInode} (h : sin.Grown n sin') : sin.Revised sin' where
  eq := by
    have hb := h.blocks
    have hs : sin'.din.size = sin.din.size := by rw [h.eq]
    rw [hb, hs]
    exact h.eq

/-- What a call on the file `x` may do. -/
structure FileEdit (L : Finset ℕ) (x : ℕ) (s s' : Fs) : Prop where
  toLocal : Local L x s s'
  inode : ∀ sin, s.inodes x = some sin → ∃ sin', s'.inodes x = some sin' ∧ sin.Revised sin'
  full : Full x s → Full x s'
  tight : Tight x s → Tight x s'

theorem FileEdit.trans {s'' : Fs} (h : FileEdit L x s s') (h' : FileEdit L x s' s'') :
    FileEdit L x s s'' where
  toLocal := h.toLocal.trans h'.toLocal
  inode sin hsin := by
    obtain ⟨sin', hsin', hrev⟩ := h.inode sin hsin
    obtain ⟨sin'', hsin'', hrev'⟩ := h'.inode sin' hsin'
    exact ⟨sin'', hsin'', hrev.trans hrev'⟩
  full hs := h'.full (h.full hs)
  tight hs := h'.tight (h.tight hs)

theorem Edits.fileEdit (h : Edits L x n s s') (hsin : s.inodes x = some sin) :
    FileEdit L x s s' where
  toLocal := h.toLocal
  inode sin₀ hsin₀ := by
    obtain ⟨sin', hsin', hgrown⟩ := h.inode sin₀ hsin₀
    exact ⟨sin', hsin', hgrown.revised⟩
  full hfull i hi := by
    rw [h.din_blocks hsin] at hi
    by_cases hlt : i < (s.din x).blocks
    · rw [h.keep _ (hfull i hlt)]
      exact hfull i hlt
    · exact h.full i (by omega) hi
  tight htight i hi := by
    rw [h.din_blocks hsin]
    by_cases h0 : s.blk x (.data i) = 0
    · exact (h.new i h0 hi).2
    · have := htight i h0
      omega

/-- Storing a new size. -/
theorem FileEdit.resize (hown : Owned L s) (hsin : s.inodes x = some sin) (size : ℕ) :
    FileEdit L x s (s.setInode x (some
      { sin with dirty := true, din := { sin.din with size := size } })) := by
  have hmap : sin.din.SameMap { sin.din with size := size } := ⟨rfl, rfl, rfl⟩
  have hblk := blk_setInode { sin with dirty := true, din := { sin.din with size := size } }
    hsin hmap
  have hdin := din_eq (s.setInode_self x (some
    { sin with dirty := true, din := { sin.din with size := size } }))
  refine ⟨.setInode hown hsin hmap, fun sin₀ hsin₀ => ?_, fun hfull i hi => ?_,
    fun htight i hi => ?_⟩
  · rw [hsin] at hsin₀
    cases hsin₀
    exact ⟨_, s.setInode_self x _, ⟨rfl⟩⟩
  · rw [hblk]
    rw [hdin] at hi
    exact hfull i (by rwa [din_eq hsin])
  · rw [hblk] at hi
    rw [hdin]
    have := htight i hi
    rwa [din_eq hsin] at this

theorem Shrinks.fileEdit (h : Shrinks L x s s') (hsin : s.inodes x = some sin) :
    FileEdit L x s s' := by
  obtain ⟨sin', hsin', heq⟩ := h.inode sin hsin
  have hblocks : (s'.din x).blocks = (s.din x).blocks - 1 := by
    rw [din_eq hsin', din_eq hsin, heq]
  refine ⟨h.toLocal, fun sin₀ hsin₀ => ?_, fun hfull i hi => ?_, fun htight i hi => ?_⟩
  · rw [hsin] at hsin₀
    cases hsin₀
    refine ⟨sin', hsin', ⟨?_⟩⟩
    have hs : sin'.din.size = sin.din.size := by rw [heq]
    have hb : sin'.din.blocks = sin.din.blocks - 1 := by rw [heq]
    have hd : sin'.dirty = true := by rw [heq]
    rw [hs, hb, hd]
    exact heq
  · rw [h.blk, update_of_ne (by simp; omega)]
    exact hfull i (by omega)
  · rw [h.blk] at hi
    by_cases hlast : i = (s.din x).blocks - 1
    · rw [hlast, update_self] at hi
      exact absurd rfl hi
    · rw [update_of_ne (fun h => hlast (Slot.data.inj h))] at hi
      have := htight i hi
      omega

/-- A call between taking and releasing the semaphore. -/
theorem FileEdit.unlock (h : FileEdit L x (s.setLocked x true) s') (hown : Owned L s)
    (hsin : s.inodes x = some sin) (hfree : sin.locked = false) :
    FileEdit L x s (s'.setLocked x false) := by
  obtain ⟨sin', hsin', hrev⟩ := h.inode _ (inodes_setLocked hsin true)
  refine ⟨((Local.setLocked hown hsin true).trans h.toLocal).trans
    (.setLocked h.toLocal.owned hsin' false), fun sin₀ hsin₀ => ?_, fun hfull i hi => ?_,
    fun htight i hi => ?_⟩
  · rw [hsin] at hsin₀
    cases hsin₀
    refine ⟨_, inodes_setLocked hsin' false, ⟨?_⟩⟩
    have heq := congrArg (fun t : SfsInode => { t with locked := sin.locked }) hrev.eq
    rw [hfree] at heq
    rw [heq, ← hfree]
  · have hfull' : Full x (s.setLocked x true) := fun i hi => by
      rw [blk_setLocked]
      exact hfull i (by rwa [din_setLocked] at hi)
    rw [blk_setLocked]
    exact h.full hfull' i (by rwa [din_setLocked] at hi)
  · have htight' : Tight x (s.setLocked x true) := fun i hi => by
      rw [din_setLocked]
      exact htight i (by rwa [blk_setLocked] at hi)
    rw [din_setLocked]
    exact h.tight htight' i (by rwa [blk_setLocked] at hi)

/-! ## Reading and writing -/

/-- The position at which `sfs_io_nolock` stops. -/
def ioStop (write : Bool) (size : ℕ) (offset : ℤ) (len : ℕ) : ℕ :=
  if write = true then min (toOff (offset + len)).toNat maxFileSize
  else min (min (toOff (offset + len)).toNat maxFileSize) size

/-- There is something to move. -/
structure Moves (write : Bool) (size : ℕ) (offset : ℤ) (len : ℕ) : Prop where
  nonneg : 0 ≤ offset
  lt : offset < maxFileSize
  some : offset < toOff (offset + len)
  read : write = false → offset.toNat < size

theorem Moves.lt_stop (h : Moves write size offset len) :
    offset.toNat < ioStop write size offset len := by
  have hnonneg := h.nonneg
  have hlt := h.lt
  have hsome := h.some
  unfold ioStop
  split
  · omega
  · rename_i hw
    have := h.read (by simpa using hw)
    omega

theorem ioStop_le : ioStop write size offset len ≤ maxFileSize := by
  unfold ioStop
  split <;> omega

theorem toOff_le {x : ℤ} (h : 0 ≤ x) : toOff x ≤ x := by
  have hmod : ((2 ^ 32 : ℕ) : ℤ) = 4294967296 := rfl
  rw [toOff, Int.bmod_def]
  split <;> omega

/-- Positions of a file are representable. -/
theorem toOff_eq {x : ℤ} (h : 0 ≤ x) (hmax : x ≤ maxFileSize) : toOff x = x := by
  have hmod : ((2 ^ 32 : ℕ) : ℤ) = 4294967296 := rfl
  simp only [maxFileSize] at hmax
  rw [toOff, Int.bmod_def]
  split <;> omega

/-- A request for less than the whole address space does not wrap around to its start. -/
theorem toOff_add_ne {x : ℤ} (hpos : 0 < n) (hn : n < 2 ^ 32) : toOff (x + n) ≠ x := by
  have hmod : ((2 ^ 32 : ℕ) : ℤ) = 4294967296 := rfl
  rw [toOff, Int.bmod_def]
  split <;> omega

/-- No more bytes are moved than were asked for. -/
theorem ioStop_sub_le (h : 0 ≤ offset) : ioStop write size offset len - offset.toNat ≤ len := by
  have : toOff (offset + len) ≤ offset + len := toOff_le (by omega)
  unfold ioStop
  split <;> omega

/-- What a call of `sfs_io` that moves something may do. -/
structure IoStep (φ : Faults) (L : Finset ℕ) (x : ℕ) (write : Bool) (data : List UInt8)
    (start stop : ℕ) (ret : Option Err) (bytes : List UInt8) (s s' : Fs) : Prop extends
    FileEdit L x s s' where
  byteAt : ∀ p, s'.byteAt x p =
    if write = true ∧ start ≤ p ∧ p < start + bytes.length then bytes.getD (p - start) 0
    else s.byteAt x p
  read : write = false → ∀ j < bytes.length, bytes.getD j 0 = s.byteAt x (start + j)
  written : write = true → bytes = data.take bytes.length
  length : bytes.length ≤ stop - start
  complete : ret = none → bytes.length = stop - start
  cause : ∀ e, ret = some e → Caused φ 1 e s'
  size : (s'.din x).size = max (s.din x).size (start + bytes.length)
  blocks : (s'.din x).blocks = (s.din x).blocks + grownBy (s.din x).blocks start bytes ∨
    ret ≠ none ∧ Stranded φ (s.din x).blocks (blocksOf stop)

/-- The label `out` of `sfs_io_nolock` after a transfer. -/
theorem wp_ioOut {s₁ : Fs} {Q : Unit → Fs → Prop}
    (h : Transferred φ L x write data start stop n ret bytes s s₁)
    (hsin : s.inodes x = some sin)
    (hQ : ∀ s', IoStep φ L x write data start stop ret bytes s s' → Q () s') :
    (sfsIoOut x start bytes.length).wp H E Q s₁ := by
  obtain ⟨sin₁, hsin₁, hgrown⟩ := h.inode sin hsin
  have hsize : sin₁.din.size = sin.din.size := by rw [hgrown.eq]
  have hedit := h.toEdits.fileEdit hsin
  have hn := h.blocks
  have hb := h.toEdits.din_blocks hsin
  unfold sfsIoOut
  rw [wp_bind, wp_getSin hsin₁]
  refine wp_if (fun hlt => ?_) fun hge => ?_
  · rw [wp_modifySin hsin₁]
    have hmap : sin₁.din.SameMap { sin₁.din with size := start + bytes.length } :=
      ⟨rfl, rfl, rfl⟩
    have hdin := din_eq (s₁.setInode_self x (some
      { sin₁ with dirty := true, din := { sin₁.din with size := start + bytes.length } }))
    refine hQ _ ⟨hedit.trans (.resize h.toLocal.owned hsin₁ _), fun p => ?_, h.read, h.written,
      h.length, h.complete, h.cause, ?_, ?_⟩
    · rw [← h.byteAt p, Fs.byteAt, Fs.byteAt]
      exact congrFun (content_setInode { sin₁ with
        dirty := true, din := { sin₁.din with size := start + bytes.length } } hsin₁ hmap _) _
    · rw [hdin, din_eq hsin, max_eq_right (by omega)]
    · rw [din_eq hsin₁] at hb
      rw [hdin]
      refine hn.imp_left fun hn => ?_
      rw [← hn]
      exact hb
  · refine hQ _ ⟨hedit, h.byteAt, h.read, h.written, h.length, h.complete, h.cause, ?_, ?_⟩
    · rw [din_eq hsin₁, din_eq hsin, hsize, max_eq_left (by omega)]
    · refine hn.imp_left fun hn => ?_
      rw [hb, ← hn]

theorem Fs.byteAt_setLocked (s : Fs) (x y p : ℕ) (b : Bool) :
    (s.setLocked x b).byteAt y p = s.byteAt y p := by
  rw [Fs.byteAt, content_setLocked]
  rfl

theorem IoStep.unlock (h : IoStep φ L x write data start stop ret bytes (s.setLocked x true) s')
    (hown : Owned L s) (hsin : s.inodes x = some sin) (hfree : sin.locked = false) :
    IoStep φ L x write data start stop ret bytes s (s'.setLocked x false) := by
  have hread := h.read
  have hsize := h.size
  have hblocks := h.blocks
  simp only [byteAt_setLocked] at hread
  simp only [din_setLocked] at hsize hblocks
  refine ⟨h.toFileEdit.unlock hown hsin hfree, fun p => ?_, hread, h.written, h.length,
    h.complete, h.cause, ?_, ?_⟩
  · rw [byteAt_setLocked, h.byteAt, byteAt_setLocked]
  · rwa [din_setLocked]
  · rwa [din_setLocked]

/-- The blocks that a transfer on `x` may name. -/
def IoReady (L : Finset ℕ) (x : ℕ) (write : Bool) (offset : ℤ) (len : ℕ) (s : Fs) : Prop :=
  Moves write (s.din x).size offset len →
    Loadable L x (offset.toNat / blkSize) (blocksOf (ioStop write (s.din x).size offset len)) s

section

variable (hown : Owned L s) (hsin : s.inodes x = some sin)
  (hremoved : sin.removed = true → E .noent s) (hlocked : sin.locked = true → H)
  (hok : ¬(sin.din.type ≠ .dir ∧ IoReady L x write offset len s) → H)
  (hlen : write = true → len ≤ data.length)
  (hbad : offset < 0 ∨ maxFileSize ≤ offset ∨ toOff (offset + len) < offset → Q (some .inval, []) s)
  (hidle : offset < maxFileSize → offset ≤ toOff (offset + len) →
      ¬Moves write sin.din.size offset len → Q (none, []) s)
  (hmove : Moves write sin.din.size offset len → ∀ ret bytes s',
      IoStep φ L x write data offset.toNat (ioStop write sin.din.size offset len) ret bytes s s' →
      Q (ret, bytes) s')
include hown hsin hok hlen hbad hidle hmove

/-- `sfs_io_nolock`. -/
theorem wp_ioNolock : (sfsIoNolock φ x write offset len data).wp H E Q s := by
  have hdin := din_eq hsin
  unfold sfsIoNolock
  rw [wp_bind, wp_getSin hsin, wp_bind, wp_assert]
  refine ⟨fun htype => ?_, fun h => hok fun ho => h ho.1⟩
  dsimp only
  refine wp_if (fun h => hbad (by simpa using h)) fun hgood => ?_
  refine wp_if (fun heq => hidle (by omega) (by omega) fun h => h.some.ne heq) fun hne => ?_
  refine wp_if (fun hpast => hidle (by omega) (by omega) fun h =>
    absurd (h.read hpast.1) (by omega)) fun hin => ?_
  have hmoves : Moves write sin.din.size offset len :=
    ⟨by omega, by omega, by omega, fun hw => by
      by_contra h
      exact hin ⟨hw, by omega⟩⟩
  have hstop : (if write = true then min (toOff (offset + len)).toNat maxFileSize
      else min (min (toOff (offset + len)).toNat maxFileSize) sin.din.size) =
      ioStop write sin.din.size offset len := rfl
  refine wp_seq (wp_ioMove hown hsin hmoves.lt_stop (fun h => hok fun ho => h ?_) (fun hw => ?_)
    (fun n ret bytes s₁ hmoved => ?_))
  · have := ho.2 (hdin ▸ hmoves)
    rwa [hdin] at this
  · exact (ioStop_sub_le hmoves.nonneg).trans (hlen hw)
  · exact wp_seq (wp_ioOut hmoved hsin (hmove hmoves ret bytes))

include hremoved hlocked

/-- `sfs_io`. -/
theorem wp_io : (sfsIo φ x write offset len data).wp H E Q s := by
  refine wp_withSin hsin hremoved hlocked fun _ hfree => ?_
  have hsin' := inodes_setLocked hsin true
  have hback := setLocked_setLocked hsin hfree
  refine wp_ioNolock (Local.setLocked hown hsin true).owned hsin'
    (fun h => hok fun ho => h ⟨ho.1, fun hm => ?_⟩) hlen (fun h => ?_) (fun hlt hle h => ?_)
    (fun hm ret bytes s' hstep => ?_)
  · have hready := ho.2 (by rwa [din_setLocked] at hm)
    refine ⟨?_, ?_, fun i hi hlt => ?_⟩
    · rw [din_setLocked]
      exact hready.first
    · rw [din_setLocked]
      exact hready.last
    · rw [din_setLocked] at hi hlt
      rw [blk_setLocked]
      exact hready.full i hi hlt
  · rw [hback]
    exact hbad h
  · rw [hback]
    exact hidle hlt hle h
  · exact hmove hm ret bytes _ (hstep.unlock hown hsin hfree)

end

end Ucore.Sfs
