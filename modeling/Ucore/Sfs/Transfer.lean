import Ucore.Sfs.FileIo
import Ucore.Sfs.MapLoad
import Mathlib.Data.List.GetD

/-!
# The transfer loop of a file

`sfs_io_nolock` splits a range of bytes into an unaligned head, whole blocks and a
tail. Seen as a function from positions to bytes, each part moves one range, and
the parts of a transfer move adjacent ranges.
-/

namespace Ucore.Sfs

open Kern List Fs

variable {H : Prop} {E : Err → Fs → Prop} {φ : Faults} {L : Finset ℕ}
  {x n start i size off stop blkno endpos nblks mid : ℕ} {s s' s₁ : Fs} {sin : SfsInode}
  {write : Bool} {data bytes : List UInt8} {Q : Option Err × List UInt8 → Fs → Prop}

/-- The byte at a position of the blocks of an inode, whatever its size. -/
def Fs.byteAt (s : Fs) (x p : ℕ) : UInt8 := s.content x (p / blkSize) (p % blkSize)

/-- The bytes `bytes` were moved from or to the positions from `start` on. -/
structure Moved (L : Finset ℕ) (x : ℕ) (write : Bool) (data : List UInt8)
    (start n : ℕ) (bytes : List UInt8) (s s' : Fs) : Prop extends Edits L x n s s' where
  byteAt : ∀ p, s'.byteAt x p =
    if write = true ∧ start ≤ p ∧ p < start + bytes.length then bytes.getD (p - start) 0
    else s.byteAt x p
  read : write = false → ∀ j < bytes.length, bytes.getD j 0 = s.byteAt x (start + j)
  written : write = true → bytes = data.take bytes.length

theorem Moved.refl (h : Owned L s) (start : ℕ) : Moved L x write data start 0 [] s s where
  toEdits := .refl h
  byteAt p := by
    rw [if_neg]
    simp only [length_nil]
    omega
  read _ j hj := by simp at hj
  written _ := by simp

/-- Adjacent ranges. -/
theorem Moved.trans {s'' : Fs} {m : ℕ} {bytes' : List UInt8}
    (h : Moved L x write data start n bytes s s')
    (h' : Moved L x write (data.drop bytes.length) (start + bytes.length) m bytes' s' s'')
    (hsin : s.inodes x = some sin) :
    Moved L x write data start (n + m) (bytes ++ bytes') s s'' where
  toEdits := h.toEdits.trans h'.toEdits hsin
  byteAt p := by
    rw [h'.byteAt, h.byteAt, length_append]
    by_cases hw : write = true
    · by_cases hlo : p < start + bytes.length
      · rw [if_neg (by omega)]
        by_cases hstart : start ≤ p
        · rw [if_pos ⟨hw, hstart, hlo⟩, if_pos ⟨hw, hstart, by omega⟩,
            getD_append _ _ _ _ (by omega)]
        · rw [if_neg (by omega), if_neg (by omega)]
      · rw [if_neg (fun h => hlo h.2.2) (c := write = true ∧ start ≤ p ∧ p < start + bytes.length)]
        by_cases hhi : p < start + bytes.length + bytes'.length
        · rw [if_pos ⟨hw, by omega, hhi⟩, if_pos ⟨hw, by omega, by omega⟩,
            getD_append_right _ _ _ _ (by omega)]
          congr 1
          omega
        · rw [if_neg (by omega), if_neg (by omega)]
    · rw [if_neg (fun h => hw h.1), if_neg (fun h => hw h.1), if_neg (fun h => hw h.1)]
  read hw j hj := by
    by_cases hlo : j < bytes.length
    · rw [getD_append _ _ _ _ hlo, h.read hw j hlo]
    · rw [length_append] at hj
      rw [getD_append_right _ _ _ _ (by omega), h'.read hw _ (by omega), h.byteAt, if_neg]
      · congr 1
        omega
      · simp [hw]
  written hw := by
    rw [length_append, take_add]
    rw [← h.written hw, ← h'.written hw]

/-! ## One part -/

private theorem getD_take {l : List UInt8} (hi : i < n) : (l.take n).getD i 0 = l.getD i 0 := by
  rw [getD_eq_getElem?_getD, getD_eq_getElem?_getD, List.getElem?_take_of_lt hi]

/-- `op` moves the bytes from `off` to `off + size` of a block. -/
def Transfers (write : Bool) (data : List UInt8) (off size : ℕ)
    (op : Faults → ℕ → K (List UInt8)) : Prop :=
  ∀ {H : Prop} {E : Err → Fs → Prop} {Q : List UInt8 → Fs → Prop} {φ : Faults} {s : Fs} {blk : ℕ},
    s.Valid blk → (φ ≠ Faults.none → E .io s) →
    (write = true → ∀ d : Bytes, (∀ q < blkSize, d q =
        if off ≤ q ∧ q < off + size then data.getD (q - off) 0 else s.disk blk q) →
      Q (data.take size) (s.setBlock blk d)) →
    (write = false → Q ((s.disk blk).read off size) s) → (op φ blk).wp H E Q s

theorem transfers_bufOp (hoff : off < blkSize) (hsize : off + size ≤ blkSize)
    (hdata : write = true → size ≤ data.length) :
    Transfers write data off size fun φ blk => sfsBufOp φ write data size blk off := by
  intro H E Q φ s blk hvalid hE hwrite hread
  refine wp_if (fun hw => ?_) fun hw => ?_
  · have hlen : (data.take size).length = size := by simpa using hdata hw
    refine wp_seq (wp_wbuf hvalid hoff (by rwa [hlen]) (fun hhit => hE (hhit.elim
      (Faults.ne_none [.rd]) (Faults.ne_none [.wr]))) (hwrite hw _ fun q _ => ?_))
    by_cases hq : off ≤ q ∧ q < off + size
    · rw [if_pos hq, Bytes.write_apply_inside _ hq.1 (by rw [hlen]; exact hq.2)]
      exact getD_take (by omega)
    · rw [if_neg hq, Bytes.write_apply_outside]
      omega
  · exact wp_rbuf hvalid hoff hsize (fun hhit => hE (Faults.ne_none [.rd] hhit))
      (hread (by simpa using hw))

theorem transfers_blockOp (hdata : write = true → blkSize ≤ data.length) :
    Transfers write data 0 blkSize fun φ blk => sfsBlockOp φ write data blk := by
  intro H E Q φ s blk hvalid hE hwrite hread
  refine wp_if (fun hw => ?_) fun hw => ?_
  · have hlen : (data.take blkSize).length = blkSize := by simpa using hdata hw
    simp only [sfsWblock, wp_bind, wp_pure]
    rw [wp_writeBlock hvalid]
    refine ⟨fun hhit => hE (Faults.ne_none [.wr] hhit), fun _ => hwrite hw _ fun q hq => ?_⟩
    rw [if_pos ⟨Nat.zero_le q, by omega⟩, take_take, min_self,
      Bytes.write_apply_inside _ (Nat.zero_le q) (by omega)]
    exact getD_take (by omega)
  · simp only [sfsRblock, wp_bind, wp_pure]
    rw [wp_readBlock hvalid]
    refine ⟨fun hhit => hE (Faults.ne_none [.rd] hhit), fun _ => ?_⟩
    rw [append_nil]
    exact hread (by simpa using hw)

/-- Writing a data block is an edit without growth. -/
theorem Edits.setBlock (hown : Owned L s) (hx : x ∈ L) (hne : s.blk x (.data i) ≠ 0) (d : Bytes) :
    Edits L x 0 s (s.setBlock (s.blk x (.data i)) d) where
  toLocal := .setBlock hown hx hne d
  inode sin hsin := ⟨sin, hsin, .refl sin⟩
  keep σ _ := blk_setBlock hown hx hne d hx σ
  new j h0 hne' := by
    rw [blk_setBlock hown hx hne d hx] at hne'
    exact absurd h0 hne'
  full j _ _ := by omega

theorem Grows.byteAt (h : Grows L x n s s') (p : ℕ) : s'.byteAt x p = s.byteAt x p := by
  unfold Fs.byteAt
  rw [h.content]

/-- Moving the bytes of one block. -/
theorem Moved.part {d : Bytes} (hgrows : Grows L x n s s₁) (hx : x ∈ L)
    (hsin : s.inodes x = some sin) (hne : s₁.blk x (.data i) ≠ 0) (hsize : off + size ≤ blkSize)
    (hlen : size ≤ data.length)
    (hd : ∀ q < blkSize, d q =
      if off ≤ q ∧ q < off + size then data.getD (q - off) 0
      else s₁.disk (s₁.blk x (.data i)) q) :
    Moved L x true data (i * blkSize + off) n (data.take size) s
      (s₁.setBlock (s₁.blk x (.data i)) d) where
  toEdits := hgrows.toEdits.trans (.setBlock hgrows.toLocal.owned hx hne d) hsin
  byteAt p := by
    have hlen' : (data.take size).length = size := by simpa using hlen
    have hcontent : s₁.content x i = s₁.disk (s₁.blk x (.data i)) := if_neg hne
    rw [Fs.byteAt, content_setBlock hgrows.toLocal.owned hx hne, ← hgrows.byteAt]
    by_cases hp : p / blkSize = i
    · subst hp
      rw [if_pos rfl, hd _ (Nat.mod_lt _ (by decide)), Fs.byteAt, hcontent]
      by_cases hin : off ≤ p % blkSize ∧ p % blkSize < off + size
      · have hpos : p - (p / blkSize * blkSize + off) = p % blkSize - off := by
          simp only [blkSize] at *
          omega
        rw [if_pos hin, if_pos ⟨rfl, by simp only [blkSize] at *; omega⟩, hpos,
          getD_take (by omega)]
      · rw [if_neg hin, if_neg fun h => hin (by simp only [blkSize] at *; omega)]
    · rw [if_neg hp, if_neg fun h => hp (by simp only [blkSize] at *; omega)]
      rfl
  read h := Bool.noConfusion h
  written _ := by
    rw [length_take, min_eq_left hlen]

/-- Reading the bytes of one block. -/
theorem Moved.part_read (hgrows : Grows L x n s s') (hne : s'.blk x (.data i) ≠ 0)
    (hsize : off + size ≤ blkSize) :
    Moved L x false data (i * blkSize + off) n
      ((s'.disk (s'.blk x (.data i))).read off size) s s' where
  toEdits := hgrows.toEdits
  byteAt p := by
    rw [if_neg (fun h => Bool.noConfusion h.1), hgrows.byteAt]
  read _ j hj := by
    rw [Bytes.length_read] at hj
    have hdiv : (i * blkSize + off + j) / blkSize = i := by simp only [blkSize] at *; omega
    have hmod : (i * blkSize + off + j) % blkSize = off + j := by simp only [blkSize] at *; omega
    rw [← hgrows.byteAt, Fs.byteAt, hdiv, hmod, Fs.content, if_neg hne, Bytes.getD_read _ hj]
  written h := Bool.noConfusion h

/-- The blocks that the parts of a transfer may name. -/
structure Loadable (L : Finset ℕ) (x lo hi : ℕ) (s : Fs) : Prop where
  first : lo ≤ (s.din x).blocks
  last : hi ≤ maxBlocks
  full : ∀ i, i < hi → i < (s.din x).blocks → s.blk x (.data i) ≠ 0

/-! ## Sequences of parts -/

/-- The number of blocks that a file with `b` blocks needs to get for a transfer. -/
def grownBy (b start : ℕ) (bytes : List UInt8) : ℕ :=
  if bytes = [] then 0 else blocksOf (start + bytes.length) - b

/-- In a transfer that needs `t` blocks, the transfer to a block that a file with `b`
blocks gets for it fails. -/
def Stranded (φ : Faults) (b t : ℕ) : Prop :=
  ∃ k, b ≤ k ∧ k < t ∧ (φ.at (.turn k)).at .wbuf ≠ Faults.none

/-- What a transfer of the positions from `start` to `stop` may do: the bytes before an
error were moved. -/
structure Transferred (φ : Faults) (L : Finset ℕ) (x : ℕ) (write : Bool) (data : List UInt8)
    (start stop n : ℕ) (ret : Option Err) (bytes : List UInt8) (s s' : Fs) : Prop extends
    Moved L x write data start n bytes s s' where
  length : bytes.length ≤ stop - start
  complete : ret = none → bytes.length = stop - start
  cause : ∀ e, ret = some e → Caused φ 1 e s'
  blocks : n = grownBy (s.din x).blocks start bytes ∨
    ret ≠ none ∧ Stranded φ (s.din x).blocks (blocksOf stop)

theorem blocksOf_le_iff {p : ℕ} : blocksOf p ≤ n ↔ p ≤ n * blkSize := by
  simp only [blocksOf, blkSize]
  omega

theorem blocksOf_mono {p q : ℕ} (h : p ≤ q) : blocksOf p ≤ blocksOf q :=
  blocksOf_le_iff.mpr (h.trans (blocksOf_le_iff.mp le_rfl))

theorem blocksOf_mul (n : ℕ) : blocksOf (n * blkSize) = n := by
  simp only [blocksOf, blkSize]
  omega

/-- The block of a position that ends a part of the block `i`. -/
theorem blocksOf_part (hpos : 0 < off) (hoff : off ≤ blkSize) :
    blocksOf (i * blkSize + off) = i + 1 := by
  simp only [blocksOf, blkSize] at *
  omega

theorem Edits.din_blocks (h : Edits L x n s s') (hsin : s.inodes x = some sin) :
    (s'.din x).blocks = (s.din x).blocks + n := by
  obtain ⟨sin', hsin', hgrown⟩ := h.inode sin hsin
  rw [din_eq hsin', din_eq hsin, hgrown.blocks]

/-- The transfer of nothing. -/
theorem Transferred.refl (h : Owned L s) (start : ℕ) :
    Transferred φ L x write data start start 0 none [] s s where
  toMoved := .refl h start
  length := by simp
  complete _ := by simp
  cause _ h := absurd h (by simp)
  blocks := .inl (by rw [grownBy, if_pos rfl])

/-- A transfer of one part. -/
theorem Transferred.of_part
    (h : Moved L x write data start (blocksOf stop - (s.din x).blocks) bytes s s')
    (hlen : bytes.length = stop - start) (hlt : start < stop) :
    Transferred φ L x write data start stop (blocksOf stop - (s.din x).blocks) none bytes s s' where
  toMoved := h
  length := hlen.le
  complete _ := hlen
  cause _ h := absurd h (by simp)
  blocks := by
    refine .inl ?_
    have hne : bytes ≠ [] := by
      rintro rfl
      rw [length_nil] at hlen
      omega
    rw [grownBy, if_neg hne, hlen, Nat.add_sub_cancel' hlt.le]

/-- Two transfers of adjacent ranges, the first of which succeeded. -/
theorem Transferred.append {m : ℕ} {ret : Option Err} {more : List UInt8}
    (h : Transferred φ L x write data start mid n none bytes s s₁) (hmid : start ≤ mid)
    (hstop : mid ≤ stop) (hsin : s.inodes x = some sin)
    (h' : Transferred φ L x write (data.drop (mid - start)) mid stop m ret more s₁ s') :
    Transferred φ L x write data start stop (n + m) ret (bytes ++ more) s s' := by
  have hlen := h.complete rfl
  have hend : start + bytes.length = mid := by omega
  have hb := h.toEdits.din_blocks hsin
  have hlast := h'.length
  refine ⟨h.toMoved.trans ?_ hsin, ?_, fun hret => ?_, h'.cause, ?_⟩
  · rw [hend, hlen]
    exact h'.toMoved
  · rw [length_append]
    omega
  · have := h'.complete hret
    rw [length_append]
    omega
  · have hn := h.blocks.resolve_right fun h => h.1 rfl
    refine h'.blocks.imp (fun hm => ?_) (fun hm => ⟨hm.1, ?_⟩)
    · rw [grownBy, hend] at hn
      rw [grownBy] at hm
      rw [grownBy, length_append, ← Nat.add_assoc, hend]
      have hmono : blocksOf mid ≤ blocksOf (mid + more.length) := blocksOf_mono (by omega)
      by_cases hne : bytes = [] <;> by_cases hmore : more = []
      · simp [hne, hmore, hn, hm]
      · rw [if_pos hne] at hn
        rw [if_neg hmore] at hm
        rw [if_neg (by simp [hmore])]
        omega
      · rw [if_neg hne] at hn
        rw [if_pos hmore] at hm
        rw [if_neg (by simp [hne]), hn, hm, hmore, length_nil, Nat.add_zero, Nat.add_zero]
      · rw [if_neg hne] at hn
        rw [if_neg hmore] at hm
        rw [if_neg (by simp [hne])]
        omega
    · obtain ⟨k, hk, hfault⟩ := hm.2
      exact ⟨k, by omega, hfault⟩

/-- A transfer whose first part failed. -/
theorem Transferred.of_error {e : Err} (h : Grows L x n s s')
    (hcause : Caused (φ.at (.turn i)) 1 e s')
    (hn : n = 0 ∨ (s.din x).blocks ≤ i ∧ (φ.at (.turn i)).at .wbuf ≠ Faults.none)
    (hi : i < blocksOf stop) : Transferred φ L x write data start stop n (some e) [] s s' where
  toEdits := h.toEdits
  byteAt p := by
    rw [if_neg (by simp only [length_nil]; omega), h.byteAt]
  read _ j hj := by simp at hj
  written _ := by simp
  length := by simp
  complete h := absurd h (by simp)
  cause e' he' := by
    cases he'
    exact hcause.of_at
  blocks := by
    refine hn.imp (fun h0 => ?_) (fun hk => ⟨by simp, i, hk.1, hi, hk.2⟩)
    rw [h0, grownBy, if_pos rfl]

theorem Loadable.edits {lo hi : ℕ} (h : Loadable L x lo hi s) (hedit : Edits L x n s s')
    (hsin : s.inodes x = some sin) (lo' : ℕ) (hlo : lo' ≤ (s.din x).blocks + n) :
    Loadable L x lo' hi s' where
  first := by rwa [hedit.din_blocks hsin]
  last := h.last
  full i hi hlt := by
    rw [hedit.din_blocks hsin] at hlt
    by_cases hold : i < (s.din x).blocks
    · have hne := h.full i hi hold
      rwa [hedit.keep _ hne]
    · exact hedit.full i (by omega) hlt

theorem Loadable.mono {lo hi hi' : ℕ} (h : Loadable L x lo hi s) (hle : hi' ≤ hi) :
    Loadable L x lo hi' s :=
  ⟨h.first, hle.trans h.last, fun i hi => h.full i (hi.trans_le hle)⟩

theorem Transferred.mono_stop {e : Err}
    (h : Transferred φ L x write data start mid n (some e) bytes s s') (hstop : mid ≤ stop) :
    Transferred φ L x write data start stop n (some e) bytes s s' where
  toMoved := h.toMoved
  length := by have := h.length; omega
  complete h := absurd h (by simp)
  cause := h.cause
  blocks := h.blocks.imp_right fun ⟨hne, k, hlo, hhi, hfault⟩ =>
    ⟨hne, k, hlo, hhi.trans_le (blocksOf_mono hstop), hfault⟩

section

variable (hown : Owned L s) (hsin : s.inodes x = some sin)
include hown hsin

/-- One part of `sfs_io_nolock`. A failed part moves nothing; if the transfer itself
fails then the block that was appended for it stays. -/
theorem wp_ioPart {op : Faults → ℕ → K (List UInt8)} {Q : List UInt8 → Fs → Prop}
    (hok : ¬Loadable L x i (i + 1) s → H) (hop : Transfers write data off size op)
    (hstart : i * blkSize + off = start) (hpos : 0 < size) (hsize : off + size ≤ blkSize)
    (hlen : write = true → size ≤ data.length)
    (hQ : ∀ bytes s', Transferred φ L x write data start (start + size) (i + 1 - (s.din x).blocks)
      none bytes s s' → Q bytes s')
    (hE : ∀ n e s', Transferred φ L x write data start (start + size) n (some e) [] s s' →
      E e s') : (sfsIoPart (φ.at (.turn i)) x i op).wp H E Q s := by
  subst hstart
  have hx := hown.mem hsin
  have hb : (s.din x).blocks = sin.din.blocks := by rw [din_eq hsin]
  have hmid : blocksOf (i * blkSize + off + size) = i + 1 := by
    rw [Nat.add_assoc]
    exact blocksOf_part (by omega) hsize
  have hdone : ∀ {bytes s'}, bytes.length = size →
      Moved L x write data (i * blkSize + off) (i + 1 - (s.din x).blocks) bytes s s' →
      Q bytes s' := by
    intro bytes s' hbytes hmoved
    rw [← hmid] at hmoved hQ
    exact hQ bytes s' (.of_part hmoved (by omega) (by omega))
  -- the transfer, after the block was mapped
  have hmove : ∀ n s₁, Grows L x n s s₁ → s₁.blk x (.data i) ≠ 0 →
      n = i + 1 - (s.din x).blocks → (n = 0 ∨ (s.din x).blocks ≤ i) →
      (op ((φ.at (.turn i)).at .wbuf) (s₁.blk x (.data i))).wp H E Q s₁ := by
    intro n s₁ hgrows hne hn hi
    subst hn
    refine hop (hgrows.toLocal.owned.blk_inuse hx hne).valid (fun hφ => ?_) (fun hw d hd => ?_)
      (fun hw => ?_)
    · exact hE _ _ _ (.of_error hgrows (.of_ne (Faults.ne_none_of_at hφ))
        (hi.imp_right fun h => ⟨h, hφ⟩) (by omega))
    · subst hw
      exact hdone (by simpa using hlen rfl) (.part hgrows hx hsin hne hsize (hlen rfl) hd)
    · subst hw
      exact hdone (Bytes.length_read _ _ _) (.part_read hgrows hne hsize)
  unfold sfsIoPart
  refine wp_seq (wp_bmapLoad hown hsin (fun h => hok fun hl => h ?_) (fun hlt hne => ?_)
    (fun heq _ s₁ hgrows hne => ?_) (fun hφ => ?_) (fun _ e s₁ hgrows hcause => ?_))
  · have hlast := hl.last
    have hfirst := hl.first
    have hfull := hl.full i (Nat.lt_succ_self i)
    rw [hb] at hfirst hfull
    exact ⟨hfirst, by omega, hfull⟩
  · exact hmove 0 s (.refl hown) hne (by omega) (.inl rfl)
  · exact hmove 1 s₁ hgrows hne (by omega) (.inr (by omega))
  · exact hE 0 _ _ (.of_error (.refl hown) (.of_ne (Faults.ne_none_of_at hφ)) (.inl rfl) (by omega))
  · exact hE 0 _ _ (.of_error hgrows hcause.of_at (.inl rfl) (by omega))

/-- The whole-block loop of `sfs_io_nolock`. -/
theorem wp_ioBlocks (hok : ¬Loadable L x blkno (blkno + nblks) s → H)
    (hlen : write = true → nblks * blkSize ≤ data.length)
    (hQ : ∀ n ret bytes s', Transferred φ L x write data (blkno * blkSize)
      ((blkno + nblks) * blkSize) n ret bytes s s' → Q (ret, bytes) s') :
    (sfsIoBlocks φ x write nblks blkno data).wp H E Q s := by
  induction nblks generalizing blkno data s sin Q with
  | zero => exact hQ 0 none [] s (.refl hown _)
  | succ nblks ih =>
    have hlen' : write = true → blkSize ≤ data.length := fun hw => by
      have := hlen hw
      simp only [blkSize] at *
      omega
    have hle : (blkno + 1) * blkSize ≤ (blkno + (nblks + 1)) * blkSize :=
      Nat.mul_le_mul_right _ (by omega)
    rw [sfsIoBlocks, wp_bind, wp_attempt]
    refine wp_ioPart hown hsin (fun h => hok fun hl => h (hl.mono (by omega)))
      (transfers_blockOp hlen') (Nat.add_zero _) (by decide) (by simp) hlen'
      (fun bytes s₁ hmoved => ?_) fun n e s₁ herr =>
        hQ _ _ _ _ (herr.mono_stop (by rwa [← Nat.succ_mul]))
    · -- the rest starts at the next block
      rw [wp_bind]
      rw [Nat.add_zero, ← Nat.succ_mul] at hmoved
      obtain ⟨sin₁, hsin₁, -⟩ := hmoved.inode sin hsin
      refine ih hmoved.toLocal.owned hsin₁ (fun h => hok fun hl => h ?_) (fun hw => ?_)
        (fun m ret more s' hmore => ?_)
      · have := hl.edits hmoved.toEdits hsin (blkno + 1) (by omega)
        rwa [Nat.add_assoc, Nat.add_comm 1]
      · have := hlen hw
        rw [Nat.succ_mul] at this
        rw [length_drop]
        exact Nat.le_sub_of_add_le this
      · rw [Nat.add_assoc, Nat.add_comm 1] at hmore
        have hone : (blkno + 1) * blkSize - blkno * blkSize = blkSize := by
          rw [Nat.succ_mul, Nat.add_sub_cancel_left]
        refine hQ _ _ _ _ (hmoved.append (m := m) (Nat.mul_le_mul_right _ (by omega)) hle hsin ?_)
        rwa [hone]

/-- The tail of `sfs_io_nolock`. -/
theorem wp_ioTail (hsize : size < blkSize)
    (hok : ¬(size ≠ 0 → Loadable L x blkno (blkno + 1) s) → H)
    (hlen : write = true → size ≤ data.length)
    (hQ : ∀ n ret bytes s', Transferred φ L x write data (blkno * blkSize)
      (blkno * blkSize + size) n ret bytes s s' → Q (ret, bytes) s') :
    (sfsIoTail φ x write size blkno data).wp H E Q s := by
  refine wp_if (fun hne => ?_) fun h0 => ?_
  · rw [wp_bind, wp_attempt]
    exact wp_ioPart hown hsin (fun h => hok fun hl => h (hl hne))
      (transfers_bufOp (by decide) (by omega) hlen) (Nat.add_zero _) (by omega) (by omega) hlen
      (fun bytes s₁ => hQ _ _ _ _) fun n e s₁ => hQ _ _ _ _
  · obtain rfl : size = 0 := not_not.mp h0
    simp only [Nat.add_zero] at hQ
    exact hQ 0 none [] s (.refl hown _)

/-- The whole blocks and the tail of `sfs_io_nolock`. -/
theorem wp_ioRest (hend : endpos / blkSize = blkno + nblks)
    (hok : ¬Loadable L x blkno (blocksOf endpos) s → H)
    (hlen : write = true → endpos - blkno * blkSize ≤ data.length)
    (hQ : ∀ n ret bytes s', Transferred φ L x write data (blkno * blkSize) endpos n ret bytes s s' →
      Q (ret, bytes) s') : (sfsIoRest φ x write nblks blkno endpos data).wp H E Q s := by
  have hsplit : endpos = (blkno + nblks) * blkSize + endpos % blkSize := by
    rw [← hend]
    simp only [blkSize]
    omega
  have hmod : endpos % blkSize < blkSize := Nat.mod_lt _ (by decide)
  unfold sfsIoRest
  refine wp_seq (wp_ioBlocks hown hsin ?_ ?_ (fun n ret bytes s₁ h => ?_))
  · intro h
    refine hok fun hl => h (hl.mono ?_)
    rw [hsplit, blocksOf, blkSize]
    omega
  · intro hw
    have := hlen hw
    rw [hsplit, Nat.add_mul] at this
    omega
  · have hstop : (blkno + nblks) * blkSize ≤ endpos := by omega
    cases ret with
    | some e => exact hQ _ _ _ _ (h.mono_stop hstop)
    | none =>
      obtain ⟨sin₁, hsin₁, -⟩ := h.inode sin hsin
      rw [wp_bind]
      refine wp_ioTail h.toLocal.owned hsin₁ hmod (fun hnot => hok fun hl => hnot fun hne => ?_)
        (fun hw => ?_) (fun m ret more s' h' => ?_)
      · refine (hl.edits h.toEdits hsin (blkno + nblks) ?_).mono ?_
        · have hfirst := hl.first
          have hn := h.blocks.resolve_right fun h => h.1 rfl
          have hbytes := h.complete rfl
          rw [Nat.add_mul, Nat.add_sub_cancel_left] at hbytes
          rw [grownBy] at hn
          split at hn
          · rename_i hnil
            rw [hnil] at hbytes
            have : nblks = 0 := by
              simpa [blkSize] using hbytes.symm
            omega
          · rw [hbytes, ← Nat.add_mul, blocksOf_mul] at hn
            omega
        · rw [blocksOf, blkSize]
          clear h hlen hok
          simp only [blkSize] at *
          omega
      · have := hlen hw
        rw [length_drop]
        clear h hlen
        simp only [blkSize] at *
        omega
      · rw [← hsplit] at h'
        have hdrop : (blkno + nblks) * blkSize - blkno * blkSize = nblks * blkSize := by
          rw [Nat.add_mul, Nat.add_sub_cancel_left]
        refine hQ _ _ _ _ (h.append (m := m) (Nat.mul_le_mul_right _ (by omega)) hstop hsin ?_)
        rwa [hdrop]

/-- The transfer of `sfs_io_nolock`. -/
theorem wp_ioMove (hlt : start < endpos)
    (hok : ¬Loadable L x (start / blkSize) (blocksOf endpos) s → H)
    (hlen : write = true → endpos - start ≤ data.length)
    (hQ : ∀ n ret bytes s', Transferred φ L x write data start endpos n ret bytes s s' →
      Q (ret, bytes) s') : (sfsIoMove φ x write start endpos data).wp H E Q s := by
  have hsplit : start / blkSize * blkSize + start % blkSize = start := by
    simp only [blkSize]
    omega
  have hoff : start % blkSize < blkSize := Nat.mod_lt _ (by decide)
  refine wp_if (fun hne => ?_) fun h0 => ?_
  · generalize hsize : (if endpos / blkSize - start / blkSize ≠ 0 then blkSize - start % blkSize
      else endpos - start) = size
    have hpos : 0 < size ∧ start % blkSize + size ≤ blkSize ∧ start + size ≤ endpos := by
      subst hsize
      clear hok hlen
      simp only [blkSize] at *
      split <;> omega
    obtain ⟨hpos, hfit, hend⟩ := hpos
    have hlen' : write = true → size ≤ data.length := fun hw => by
      have := hlen hw
      omega
    rw [wp_bind, wp_attempt]
    refine wp_ioPart hown hsin (fun h => hok fun hl => h (hl.mono ?_))
      (transfers_bufOp hoff hfit hlen') hsplit hpos hfit hlen' (fun bytes s₁ hhead => ?_)
      (fun n e s₁ herr => hQ _ _ _ _ (herr.mono_stop hend))
    · rw [blocksOf, blkSize]
      clear hok hlen hsize
      omega
    · -- the head ends at a block boundary or at the end
      refine wp_if (fun hnone => ?_) fun hmore => ?_
      · rw [if_neg (not_not.mpr hnone)] at hsize
        have hstop : start + size = endpos := by omega
        rw [hstop] at hhead
        exact hQ _ _ _ _ hhead
      · rw [if_pos hmore] at hsize
        have hnext : start + size = (start / blkSize + 1) * blkSize := by
          rw [Nat.succ_mul]
          omega
        obtain ⟨sin₁, hsin₁, -⟩ := hhead.inode sin hsin
        refine wp_seq (wp_ioRest hhead.toLocal.owned hsin₁ (by omega)
          (fun hnot => hok fun hl => hnot (hl.edits hhead.toEdits hsin _ (by omega)))
          (fun hw => ?_) (fun m ret more s' hrest => ?_))
        · have := hlen hw
          rw [length_drop]
          omega
        · rw [← hnext] at hrest
          refine hQ _ _ _ _ (hhead.append (m := m) (by omega) hend hsin ?_)
          rwa [Nat.add_sub_cancel_left]
  · have hzero : start % blkSize = 0 := not_not.mp h0
    have hstart : start / blkSize * blkSize = start := by rwa [hzero, Nat.add_zero] at hsplit
    have hle : start / blkSize ≤ endpos / blkSize := Nat.div_le_div_right hlt.le
    refine wp_ioRest hown hsin (by omega) hok (by rwa [hstart]) ?_
    rwa [hstart]

end

end Ucore.Sfs
