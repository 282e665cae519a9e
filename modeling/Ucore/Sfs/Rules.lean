import Ucore.Sfs.State
import Mathlib.Data.Finset.Card

/-!
# Weakest preconditions of the volume's primitives

One rule for each primitive of the embedding: pointers to in-memory inodes, block
transfers, the in-use assertion and the block allocator. The block map and
everything above it are proved from these rules and never unfold a primitive.
-/

namespace Ucore.Sfs

open Kern Function

variable {H : Prop} {E : Err → Fs → Prop} {s : Fs} {φ : Faults} {Q : Unit → Fs → Prop}
  {b ino n i off : ℕ} {sin : SfsInode} {map : ℕ → Bool}

theorem wp_getSin {Q : SfsInode → Fs → Prop} (h : s.inodes ino = some sin) :
    (getSin ino).wp H E Q s ↔ Q sin s := by
  unfold wp getSin
  rw [h]

/-- Following a pointer either reaches an inode or halts. -/
theorem wp_getSin_of {Q : SfsInode → Fs → Prop} (hQ : ∀ sin, s.inodes ino = some sin → Q sin s)
    (hH : s.inodes ino = none → H) : (getSin ino).wp H E Q s := by
  unfold wp getSin
  cases h : s.inodes ino with
  | none => exact hH h
  | some sin => exact hQ sin h

theorem wp_modifySin {f : SfsInode → SfsInode} (h : s.inodes ino = some sin) :
    (modifySin ino f).wp H E Q s ↔ Q () (s.setInode ino (some (f sin))) := by
  unfold modifySin
  rw [wp_modify, h, Option.map_some]

/-- The blocks that transfers may name. -/
def Fs.Valid (s : Fs) (b : ℕ) : Prop := b ≠ 0 ∧ b < s.blocks

theorem wp_readBlock {Q : Bytes → Fs → Prop} (hb : s.Valid b) :
    (sfsReadBlockNolock φ b).wp H E Q s ↔
      (φ.hit = true → E .io s) ∧ (φ.hit = false → Q (s.disk b) s) := by
  unfold sfsReadBlockNolock
  have hb' : b ≠ 0 ∧ b < s.blocks := hb
  simp only [wp_bind, wp_gets, wp_assert, wp_ite, wp_throw, Bool.not_eq_true]
  exact ⟨fun h => h.1 hb', fun h => ⟨fun _ => h, absurd hb'⟩⟩

theorem wp_writeBlock {d : Bytes} (hb : s.Valid b) : (sfsWriteBlockNolock φ b d).wp H E Q s ↔
      (φ.hit = true → E .io s) ∧ (φ.hit = false → Q () (s.setBlock b d)) := by
  unfold sfsWriteBlockNolock
  have hb' : b ≠ 0 ∧ b < s.blocks := hb
  simp only [wp_bind, wp_gets, wp_assert, wp_ite, wp_throw, wp_modify, Bool.not_eq_true]
  exact ⟨fun h => h.1 hb', fun h => ⟨fun _ => h, absurd hb'⟩⟩

/-- A read either fails without effect or returns the bytes of the range. -/
theorem wp_rbuf {len : ℕ} {Q : List UInt8 → Fs → Prop} (hb : s.Valid b) (hoff : off < blkSize)
    (hlen : off + len ≤ blkSize) (hE : (φ.at .rd).hit = true → E .io s)
    (hQ : Q ((s.disk b).read off len) s) : (sfsRbuf φ len b off).wp H E Q s := by
  refine wp_check ⟨hoff, hlen⟩ ?_
  rw [wp_bind, wp_readBlock hb]
  exact ⟨hE, fun _ => hQ⟩

/-- A write either fails without effect or replaces the bytes of the range. -/
theorem wp_wbuf {data : List UInt8} (hb : s.Valid b) (hoff : off < blkSize)
    (hlen : off + data.length ≤ blkSize)
    (hE : (φ.at .rd).hit = true ∨ (φ.at .wr).hit = true → E .io s)
    (hQ : Q () (s.setBlock b ((s.disk b).write off data))) : (sfsWbuf φ data b off).wp H E Q s := by
  refine wp_check ⟨hoff, hlen⟩ ?_
  rw [wp_bind, wp_readBlock hb]
  refine ⟨fun h => hE (.inl h), fun _ => ?_⟩
  rw [wp_writeBlock hb]
  exact ⟨fun h => hE (.inr h), fun _ => hQ⟩

theorem wp_bitmapTest {Q : Bool → Fs → Prop} (hi : i < s.freemapBits) :
    (bitmapTest i).wp H E Q s ↔ Q (s.freemap i) s := by
  unfold bitmapTest
  simp only [wp_bind, wp_gets, wp_assert]
  exact ⟨fun h => h.1 hi, fun h => ⟨fun _ => h, absurd hi⟩⟩

theorem Fs.blocks_le_freemapBits (s : Fs) : s.blocks ≤ s.freemapBits := by
  simp only [Fs.freemapBits, blkBits]
  omega

/-- The blocks that the volume has and the free map does not offer. -/
def Fs.Inuse (s : Fs) (b : ℕ) : Prop := b ≠ 0 ∧ b < s.blocks ∧ s.freemap b = false

theorem Fs.Inuse.valid (h : s.Inuse b) : s.Valid b := ⟨h.1, h.2.1⟩

/-- `assert(sfs_block_inuse(...))` passes on a block in use. -/
theorem wp_assertInuse (hb : s.Inuse b) (hQ : Q () s) : (assertInuse b).wp H E Q s := by
  obtain ⟨hpos, hlt, hused⟩ := hb
  unfold assertInuse sfsBlockInuse
  simp only [wp_bind, wp_gets, wp_ite, wp_stop]
  refine ⟨fun _ => ?_, fun hn => absurd ⟨hpos, hlt⟩ hn⟩
  rw [wp_bitmapTest (lt_of_lt_of_le hlt s.blocks_le_freemapBits), hused, wp_pure, wp_assert]
  exact ⟨fun _ => hQ, absurd rfl⟩

/-- Whatever the block, the assertion does nothing but possibly halt. -/
theorem wp_assertInuse_of (hQ : s.Inuse b → Q () s) (hH : ¬s.Inuse b → H) :
    (assertInuse b).wp H E Q s := by
  by_cases hb : s.Inuse b
  · exact wp_assertInuse hb (hQ hb)
  · unfold assertInuse sfsBlockInuse
    simp only [wp_bind, wp_gets, wp_ite, wp_stop]
    refine ⟨fun hv => ?_, fun _ => hH hb⟩
    rw [wp_bitmapTest (lt_of_lt_of_le hv.2 s.blocks_le_freemapBits)]
    have hfree : s.freemap b = true := by
      by_contra h
      exact hb ⟨hv.1, hv.2, by simpa using h⟩
    simp only [hfree, Bool.not_true, wp_pure]
    exact (wp_assert _ _).mpr ⟨fun h => absurd h (by decide), fun _ => hH hb⟩

/-! ## The allocator -/

/-- The volume after a block was allocated and cleared. -/
def Fs.take (s : Fs) (b : ℕ) : Fs :=
  { s with freemap := update s.freemap b false, unusedBlocks := s.unusedBlocks - 1,
           superDirty := true, disk := update s.disk b Bytes.zero }

/-- The volume after a block was allocated and its clearing write failed. -/
def Fs.lose (s : Fs) (b : ℕ) : Fs :=
  { s with freemap := update s.freemap b false, unusedBlocks := s.unusedBlocks - 1,
           superDirty := true }

/-- The volume after a block was freed. -/
def Fs.give (s : Fs) (b : ℕ) : Fs :=
  { s with freemap := update s.freemap b true, unusedBlocks := s.unusedBlocks + 1,
           superDirty := true }

theorem firstSet_eq_some (h : firstSet map n i = some b) : map b = true ∧ i ≤ b ∧ b < i + n := by
  induction n generalizing i with
  | zero => simp [firstSet] at h
  | succ n ih =>
    rw [firstSet] at h
    split at h
    · rename_i hi
      cases h
      exact ⟨hi, le_rfl, by omega⟩
    · obtain ⟨hb, hle, hlt⟩ := ih h
      exact ⟨hb, by omega, by omega⟩

theorem firstSet_eq_none (h : firstSet map n i = none) (hle : i ≤ b) (hlt : b < i + n) :
    map b = false := by
  induction n generalizing i with
  | zero => omega
  | succ n ih =>
    rw [firstSet] at h
    split at h
    · cases h
    · rename_i hi
      rcases eq_or_ne b i with rfl | hbi
      · simpa using hi
      · exact ih h (by omega) (by omega)

/-- The free map offers only blocks of the volume, and `unused_blocks` counts them. -/
structure Fs.FreemapOk (s : Fs) : Prop where
  free : ∀ b, s.freemap b = true → b ≠ 0 ∧ b < s.blocks
  count : s.unusedBlocks = ((Finset.range s.blocks).filter fun b => s.freemap b = true).card

theorem Fs.FreemapOk.unused_pos (h : s.FreemapOk) (hb : s.freemap b = true) :
    0 < s.unusedBlocks := by
  rw [h.count]
  exact Finset.card_pos.mpr ⟨b, by simp [hb, (h.free b hb).2]⟩

/-- Taking a bit removes one block from the free ones. -/
theorem Fs.FreemapOk.lose (h : s.FreemapOk) (hb : s.freemap b = true) : (s.lose b).FreemapOk := by
  have herase : ((Finset.range s.blocks).filter fun c => (s.lose b).freemap c = true) =
      ((Finset.range s.blocks).filter fun c => s.freemap c = true).erase b := by
    ext c
    by_cases hc : c = b <;> simp [Fs.lose, update_apply, hc]
  refine ⟨fun c hc => ?_, ?_⟩
  · by_cases hcb : c = b
    · simp [Fs.lose, hcb] at hc
    · exact h.free c (by simpa [Fs.lose, update_apply, hcb] using hc)
  · show s.unusedBlocks - 1 = _
    rw [show (s.lose b).blocks = s.blocks from rfl, herase,
      Finset.card_erase_of_mem (by simp [hb, (h.free b hb).2]), h.count]

theorem Fs.FreemapOk.take (h : s.FreemapOk) (hb : s.freemap b = true) : (s.take b).FreemapOk :=
  ⟨(h.lose hb).free, (h.lose hb).count⟩

/-- Freeing a block in use adds it to the free ones. -/
theorem Fs.FreemapOk.give (h : s.FreemapOk) (hb : s.Inuse b) : (s.give b).FreemapOk := by
  have hinsert : ((Finset.range s.blocks).filter fun c => (s.give b).freemap c = true) =
      insert b ((Finset.range s.blocks).filter fun c => s.freemap c = true) := by
    ext c
    by_cases hc : c = b <;> simp [Fs.give, update_apply, hc, hb.2.1]
  refine ⟨fun c hc => ?_, ?_⟩
  · rcases eq_or_ne c b with rfl | hcb
    · exact ⟨hb.1, hb.2.1⟩
    · exact h.free c (by simpa [Fs.give, update_apply, hcb] using hc)
  · show s.unusedBlocks + 1 = _
    rw [show (s.give b).blocks = s.blocks from rfl, hinsert,
      Finset.card_insert_of_notMem (by simp [hb.2.2]), h.count]

theorem wp_bitmapScan {Q : ℕ → Fs → Prop} (hQ : ∀ b, firstSet s.freemap n 0 = some b →
      Q b { s with freemap := update s.freemap b false })
    (hE : firstSet s.freemap n 0 = none → E .noMem s) : (bitmapScan n).wp H E Q s := by
  unfold wp bitmapScan
  cases hfirst : firstSet s.freemap n 0 with
  | none => exact hE hfirst
  | some b => exact hQ b hfirst

/-- `sfs_block_alloc` takes and clears a free block; it fails on a full volume,
or with the block lost when the clearing write fails. -/
theorem wp_blockAlloc {Q : ℕ → Fs → Prop} (hok : s.FreemapOk)
    (hQ : ∀ b, s.freemap b = true → Q b (s.take b))
    (hfull : (∀ b, s.freemap b = false) → E .noMem s)
    (hlost : ∀ b, s.freemap b = true → (φ.at .clear).hit = true → E .io (s.lose b)) :
    (sfsBlockAlloc φ).wp H E Q s := by
  unfold sfsBlockAlloc bitmapAlloc
  rw [wp_bind, wp_get]
  refine wp_bitmapScan (fun b hfirst => ?_) (fun hfirst => hfull fun b => ?_)
  · have hfree := (firstSet_eq_some hfirst).1
    obtain ⟨hpos, hlt⟩ := hok.free b hfree
    refine wp_check (hok.unused_pos hfree) ?_
    rw [wp_put, wp_bind]
    refine wp_assertInuse ⟨hpos, hlt, by simp⟩ ?_
    simp only [sfsClearBlock, wp_bind, wp_pure]
    have hvalid : (s.lose b).Valid b := ⟨hpos, hlt⟩
    refine (wp_writeBlock hvalid).mpr ⟨(hlost b hfree), fun _ => hQ b hfree⟩
  · by_contra hb
    have hb' : s.freemap b = true := by simpa using hb
    have hlt := lt_of_lt_of_le (hok.free b hb').2 s.blocks_le_freemapBits
    rw [firstSet_eq_none hfirst (Nat.zero_le b) (by omega)] at hb'
    cases hb'

/-- `sfs_block_free` gives a block in use back. -/
theorem wp_blockFree (hb : s.Inuse b) (hQ : Q () (s.give b)) : (sfsBlockFree b).wp H E Q s := by
  have hlt := lt_of_lt_of_le hb.2.1 s.blocks_le_freemapBits
  unfold sfsBlockFree bitmapFree
  refine wp_seq (wp_assertInuse hb ?_)
  rw [wp_bind, wp_bind, wp_bitmapTest hlt, hb.2.2, wp_bind]
  exact wp_assert_of rfl hQ

/-- Whatever the block, `sfs_block_free` gives it back or halts. -/
theorem wp_blockFree_of (hQ : s.Inuse b → Q () (s.give b)) (hH : ¬s.Inuse b → H) :
    (sfsBlockFree b).wp H E Q s := by
  by_cases hb : s.Inuse b
  · exact wp_blockFree hb (hQ hb)
  · unfold sfsBlockFree
    exact wp_seq (wp_assertInuse_of (fun h => absurd h hb) hH)

end Ucore.Sfs
