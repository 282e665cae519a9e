import Ucore.Lib.Splice
import Ucore.Sfs.FileRuns

/-!
# Regular files as byte sequences

The abstract store holds one byte sequence for each live inode. Reads, writes, seeks
and truncations without faults act on it as slicing, overwriting and resizing, as long
as what a call brings into a file from behind its end is zero.
-/

namespace Ucore.Sfs

open Kern List Fs

variable {φ : Faults} {L : Finset ℕ} {x stop start : ℕ} {s s' : Fs} {sin : SfsInode}
  {data bytes : List UInt8} {E : Err → Fs → Prop} {Q : Option Err × List UInt8 → Fs → Prop}
  {offset : ℤ}
  {ret : Option Err} {e : FileEvent}

/-- The bytes of the file `x`. -/
def Fs.file (s : Fs) (x : ℕ) : List UInt8 := tabulate (s.byteAt x) (s.din x).size

@[simp] theorem Fs.length_file (s : Fs) (x : ℕ) : (s.file x).length = (s.din x).size :=
  length_tabulate _ _

/-- The blocks of `x` are zero from its end up to `stop`. -/
def ZeroGap (x stop : ℕ) (s : Fs) : Prop :=
  ∀ p, (s.din x).size ≤ p → p < stop → p < (s.din x).blocks * blkSize → s.byteAt x p = 0

/-- The abstract call: the new contents, and the bytes moved. -/
def FileOp.spec (f : List UInt8) : FileOp → List UInt8 × List UInt8
  | .read offset len => (f, slice f offset.toNat len)
  | .write offset data => (splice f offset.toNat data, data)
  | .tryseek pos => (resize 0 f (max f.length pos.toNat), [])
  | .truncfile len => (resize 0 f len.toNat, [])

/-- The return code of a call within the limits. -/
def FileOp.code : FileOp → Option Err
  | .read offset _ => if (maxFileSize : ℤ) ≤ offset then some .inval else none
  | .write offset _ => if (maxFileSize : ℤ) ≤ offset then some .inval else none
  | .tryseek _ => none
  | .truncfile _ => none

/-- A call within the limits, on a file of the given size. -/
def FileOp.InRange (size : ℕ) : FileOp → Prop
  | .read offset len => 0 ≤ offset ∧ offset + len ≤ maxFileSize
  | .write offset data => 0 ≤ offset ∧ offset.toNat ≤ size ∧ offset + data.length ≤ maxFileSize
  | .tryseek pos => 0 ≤ pos ∧ pos < maxFileSize
  | .truncfile len => 0 ≤ len ∧ len ≤ maxFileSize

/-- The size that a seek or a truncation asks for. -/
def FileOp.extent : FileOp → ℕ
  | .read _ _ => 0
  | .write _ _ => 0
  | .tryseek pos => pos.toNat
  | .truncfile len => len.toNat

/-- The regular files are in good order, and no block behind their last one is left. -/
structure StoreOk (L : Finset ℕ) (s : Fs) : Prop extends FilesOk L s where
  tight : ∀ x sin, s.inodes x = some sin → sin.din.type = .file → Tight x s

/-- A change of the file `x` only. -/
structure StoreEdit (L : Finset ℕ) (x : ℕ) (s s' : Fs) : Prop where
  ok : StoreOk L s'
  others : ∀ y ∈ L, y ≠ x → s'.file y = s.file y
  regular : ∀ y, s.Regular y → s'.Regular y

/-- What a call that ran to its end did. -/
structure Performs (L : Finset ℕ) (op : FileOp) (x : ℕ) (s : Fs) (ret : Option Err)
    (bytes : List UInt8) (s' : Fs) : Prop extends StoreEdit L x s s' where
  code : ret = op.code
  file : (s'.file x, bytes) = op.spec (s.file x)

/-! ## One call -/

theorem Local.file (h : Local L x s s') {y : ℕ} (hy : y ∈ L) (hyx : y ≠ x) :
    s'.file y = s.file y := by
  have h0 := h.owned.zero
  have hbyte : s'.byteAt y = s.byteAt y := by
    funext p
    rw [Fs.byteAt, Fs.byteAt, h.content h0 hy hyx]
  rw [Fs.file, Fs.file, hbyte, h.din h0 hy hyx]

theorem Tight.byteAt (h : Tight x s) {p : ℕ} (hp : (s.din x).blocks * blkSize ≤ p) :
    s.byteAt x p = 0 := by
  have hnone : s.blk x (.data (p / blkSize)) = 0 := by
    by_contra hne
    have := h _ hne
    have hdiv := (Nat.le_div_iff_mul_le (by decide)).mpr hp
    omega
  rw [Fs.byteAt, Fs.content, if_pos hnone]
  rfl

/-- The gap reads as zero, in the blocks and behind them. -/
theorem ZeroGap.byteAt {p : ℕ} (h : ZeroGap x stop s) (htight : Tight x s)
    (hlo : (s.din x).size ≤ p) (hhi : p < stop) : s.byteAt x p = 0 := by
  by_cases hp : p < (s.din x).blocks * blkSize
  · exact h p hlo hhi hp
  · exact htight.byteAt (by omega)

/-- A truncation cuts the file or extends it with zeros. -/
theorem TruncStep.file {len : ℕ} (h : TruncStep φ L x len s s') (htight : Tight x s)
    (hgap : ZeroGap x len s) : s'.file x = resize 0 (s.file x) len := by
  have hkeep : ∀ p < len, s'.byteAt x p = s.byteAt x p := by
    intro p hp
    rw [h.byteAt, if_neg]
    rintro ⟨hlo, -⟩
    have hlen := blocksOf_le_iff.mp hlo
    have := Nat.div_mul_le_self p blkSize
    omega
  rw [Fs.file, h.size, Fs.file]
  refine tabulate_eq_resize (fun p _ => hkeep p) fun p hlo hhi => ?_
  rw [hkeep p hhi]
  exact hgap.byteAt htight hlo hhi

/-- A write past the end fills the gap with zeros and puts the bytes behind it. -/
theorem IoStep.file_write (h : IoStep φ L x true data start stop ret bytes s s')
    (htight : Tight x s) (hgap : ZeroGap x start s) (hne : bytes ≠ []) :
    s'.file x = overwrite 0 (s.file x) start bytes := by
  have hfill : resize 0 (s.file x) (max (s.din x).size start) =
      tabulate (s.byteAt x) (max (s.din x).size start) := by
    refine (tabulate_eq_resize (fun _ _ _ => rfl) fun p hlo hhi => ?_).symm
    exact hgap.byteAt htight hlo (by omega)
  rw [overwrite_of_ne_nil hne, length_file, hfill,
    ← tabulate_eq_splice (z := 0) (le_max_right _ _) (fun j hj => ?_) fun p hp => ?_,
    Fs.file, h.size, max_assoc, max_eq_right (Nat.le_add_right start bytes.length)]
  · rw [h.byteAt, if_pos ⟨rfl, by omega, by omega⟩, Nat.add_sub_cancel_left]
  · rw [h.byteAt, if_neg (by omega)]

/-- A read within the file changes nothing. -/
theorem IoStep.file_read (h : IoStep φ L x false data start stop ret bytes s s')
    (hlt : start < stop) (hstop : stop ≤ (s.din x).size) : s'.file x = s.file x := by
  have hlen := h.length
  rw [Fs.file, Fs.file, h.size, max_eq_left (by omega)]
  refine tabulate_congr fun p _ => ?_
  rw [h.byteAt, if_neg (by simp)]

theorem StoreEdit.refl (h : StoreOk L s) : StoreEdit L x s s :=
  ⟨h, fun _ _ _ => rfl, fun _ hy => hy⟩

theorem FileEdit.regular (h : FileEdit L x s s') {y : ℕ} (hy : s.Regular y) : s'.Regular y := by
  obtain ⟨sin, hsin, htype⟩ := hy
  rcases eq_or_ne y x with rfl | hyx
  · obtain ⟨sin', hsin', hrev⟩ := h.inode sin hsin
    exact ⟨sin', hsin', by rw [hrev.eq]; exact htype⟩
  · exact ⟨sin, by rw [h.toLocal.inode y hyx]; exact hsin, htype⟩

theorem StoreOk.edit (h : StoreOk L s) (hsin : s.inodes x = some sin)
    (htype : sin.din.type = .file) (hedit : FileEdit L x s s')
    (hsize : (s'.din x).size ≤ maxFileSize)
    (hblocks : (s'.din x).blocks = blocksOf (s'.din x).size) : StoreEdit L x s s' := by
  refine ⟨⟨h.toFilesOk.edit hsin htype hedit hsize hblocks, fun y siny hsiny hy => ?_⟩,
    fun y => hedit.toLocal.file, fun y => hedit.regular⟩
  rcases eq_or_ne y x with rfl | hyx
  · exact hedit.tight (h.tight y sin hsin htype)
  · have hyL := hedit.toLocal.owned.mem hsiny
    rw [hedit.toLocal.inode y hyx] at hsiny
    intro i hi
    rw [hedit.toLocal.blk h.owned.zero hyL hyx] at hi
    rw [hedit.toLocal.din h.owned.zero hyL hyx]
    exact h.tight y siny hsiny hy i hi

/-- A call that found no free block. -/
def NoSpace (ret : Option Err) (s : Fs) : Prop := ret = some .noMem ∧ s.unusedBlocks ≤ 1

section

variable (h : StoreOk L s) (hsin : s.inodes x = some sin) (htype : sin.din.type = .file)
include h hsin htype

/-- `sfs_io` without faults. -/
theorem StoreOk.wp_io {write : Bool} {len : ℕ} (hlen : write = true → len ≤ data.length)
    (hready : IoReady L x write offset len s) (hfull : ∀ r s', NoSpace r.1 s' → Q r s')
    (hbad : offset < 0 ∨ maxFileSize ≤ offset ∨ toOff (offset + len) < offset →
      Q (some .inval, []) s)
    (hidle : offset < maxFileSize → offset ≤ toOff (offset + len) →
      ¬Moves write sin.din.size offset len → Q (none, []) s)
    (hQ : Moves write sin.din.size offset len → ∀ bytes s', StoreEdit L x s s' →
      IoStep .none L x write data offset.toNat (ioStop write sin.din.size offset len) none bytes
        s s' → bytes ≠ [] → Q (none, bytes) s') :
    (sfsIo .none x write offset len data).wp False E Q s := by
  have hok := h.file x sin hsin htype
  have hdin := din_eq hsin
  refine Sfs.wp_io h.owned hsin (fun hr => absurd hr (by simp [hok.removed]))
    (fun hl => absurd hl (by simp [hok.locked])) (fun hnot => hnot ⟨by simp [htype], hready⟩)
    hlen hbad hidle (fun hmoves ret bytes s' hstep => ?_)
  cases ret with
  | some e =>
    obtain ⟨rfl, hspace⟩ := hstep.cause e rfl rfl
    exact hfull _ _ ⟨rfl, hspace⟩
  | none =>
    have hne : bytes ≠ [] := by
      have hlt := hmoves.lt_stop
      refine ne_nil_of_length_pos ?_
      rw [hstep.complete rfl]
      omega
    refine hQ hmoves bytes s' ?_ hstep hne
    rw [← hdin] at hstep hmoves
    exact h.edit hsin htype hstep.toFileEdit (hstep.size_le hmoves (hdin ▸ hok.size))
      (hstep.agree (hdin ▸ hok.blocks) (fun hnil => absurd hnil hne) fun hs => hs.1 rfl)

/-- `sfs_truncfile` without faults. -/
theorem StoreOk.wp_truncfile {len : ℤ} {Q : Unit → Fs → Prop}
    (hbad : len < 0 ∨ maxFileSize < len → E .inval s)
    (hfull : sin.din.blocks < blocksOf len.toNat → ∀ e s', NoSpace (some e) s' → E e s')
    (hQ : 0 ≤ len → len ≤ maxFileSize → ∀ s', StoreEdit L x s s' →
      (ZeroGap x len.toNat s → s'.file x = resize 0 (s.file x) len.toNat) → Q () s') :
    (sfsTruncfile .none x len).wp False E Q s := by
  have hok := h.file x sin hsin htype
  have hdin := din_eq hsin
  have hb : sin.din.blocks ≤ 32768 := hok.blocks ▸ blocksOf_le_iff.mpr hok.size
  refine Sfs.wp_truncfile h.owned hsin (by simp only [maxBlocks]; omega)
    (fun hr => absurd hr (by simp [hok.removed])) (fun hl => absurd hl (by simp [hok.locked]))
    (fun hdir => absurd hdir (by simp [htype])) hbad
    (fun h0 hsize => ⟨fun _ => ?_, fun hne => hne (by rw [← hsize, hok.blocks])⟩)
    (fun h0 hmax s' hs => ?_) (fun _ _ e s' hs => ?_)
  · have := hok.size
    refine hQ h0 (by omega) s (.refl h) fun _ => ?_
    rw [← hsize, ← hdin, ← length_file, resize_length]
  · refine hQ h0 hmax s' (h.edit hsin htype hs.toFileEdit ?_ ?_)
      (hs.file (h.tight x sin hsin htype))
    · rw [hs.size]
      omega
    · rw [hs.blocks, hs.size]
  · obtain ⟨rfl, hspace⟩ := hs.cause rfl
    exact hfull (hdin ▸ hs.growing rfl) _ _ ⟨rfl, hspace⟩

end

/-! ## Runs -/

/-- A call without faults, and what it returned. -/
structure FileEvent where
  ino : ℕ
  op : FileOp
  ret : Option Err
  bytes : List UInt8

/-- A call within the limits that ran to its end. -/
structure StoreStep (s : Fs) (e : FileEvent) (s' : Fs) : Prop where
  regular : s.Regular e.ino
  range : e.op.InRange (s.din e.ino).size
  run : e.op.run .none e.ino s = .done (e.ret, e.bytes) s'
  space : e.ret ≠ some .noMem

/-- The abstract step: one byte sequence is changed. -/
structure SpecStep (F : L → List UInt8) (e : FileEvent) (F' : L → List UInt8) : Prop where
  code : e.ret = e.op.code
  file : ∀ x : L, x = e.ino → (F' x, e.bytes) = e.op.spec (F x)
  others : ∀ x : L, x ≠ e.ino → F' x = F x

/-- The byte sequences of the live inodes. -/
def Fs.store (s : Fs) (L : Finset ℕ) : L → List UInt8 := fun x => s.file x

theorem StoreOk.wp_run {op : FileOp} (h : StoreOk L s) (hreg : s.Regular x)
    (hrange : op.InRange (s.din x).size) (hgap : ZeroGap x op.extent s) :
    (op.run .none x).wp False (fun e s' => NoSpace (some e) s')
      (fun r s' => NoSpace r.1 s' ∨ Performs L op x s r.1 r.2 s') s := by
  obtain ⟨sin, hsin, htype⟩ := hreg
  have hok := h.file _ sin hsin htype
  have hdin := din_eq hsin
  cases op with
  | read offset len =>
    obtain ⟨h0, hmax⟩ := hrange
    have hoff := toOff_eq (by omega) hmax
    have hempty : len = 0 ∨ sin.din.size ≤ offset.toNat →
        (s.file x, []) = (FileOp.read offset len).spec (s.file x) := by
      intro hle
      rw [FileOp.spec, slice]
      simpa [hdin] using hle
    refine h.wp_io hsin htype Bool.noConfusion (hok.read_ready hsin offset len) (fun r s' => .inl)
      (fun hbad => .inr ⟨.refl h, (if_pos ?_).symm, hempty (.inl ?_)⟩)
      (fun hlt _ hidle => .inr ⟨.refl h, (if_neg ?_).symm, hempty ?_⟩)
      fun hmoves bytes s' hedit hstep _ => .inr ⟨hedit, (if_neg ?_).symm, ?_⟩
    · omega
    · omega
    · omega
    · by_contra hne
      exact hidle ⟨h0, hlt, by rw [hoff]; omega, fun _ => by omega⟩
    · have := hmoves.lt
      omega
    · have hstop : ioStop false sin.din.size offset len ≤ sin.din.size := min_le_right _ _
      refine Prod.ext (hstep.file_read hmoves.lt_stop (by rwa [hdin]))
        (eq_slice_tabulate ?_ (hstep.read rfl))
      rw [hstep.complete rfl, hdin, ioStop, if_neg (by simp)]
      omega
  | write offset data =>
    obtain ⟨h0, hsize, hmax⟩ := hrange
    have hoff := toOff_eq (by omega) hmax
    have hnil : ∀ {ret}, ret = (FileOp.write offset data).code → data = [] →
        Performs L (.write offset data) x s ret [] s := by
      rintro ret hret rfl
      exact ⟨.refl h, hret, by rw [FileOp.spec, splice_nil]⟩
    refine h.wp_io hsin htype (fun _ => le_rfl) (hok.io_ready hsin fun _ => ?_) (fun r s' => .inl)
      (fun hbad => .inr (hnil (if_pos ?_).symm (eq_nil_of_length_eq_zero ?_)))
      (fun hlt _ hidle => .inr (hnil (if_neg ?_).symm (eq_nil_of_length_eq_zero ?_)))
      fun hmoves bytes s' hedit hstep hne => .inr ⟨hedit, (if_neg ?_).symm, ?_⟩
    · rw [hdin] at hsize
      have := Nat.div_le_div_right (c := blkSize) hsize
      rw [hok.blocks]
      refine this.trans (Nat.div_le_div_right (Nat.le_add_right _ _))
    · omega
    · omega
    · omega
    · by_contra hne
      exact hidle ⟨h0, hlt, by rw [hoff]; omega, Bool.noConfusion⟩
    · have := hmoves.lt
      omega
    · have hlen := hstep.complete rfl
      rw [ioStop, if_pos rfl] at hlen
      have hbytes := hstep.written rfl
      rw [take_of_length_le (by omega)] at hbytes
      rw [hstep.file_write (h.tight x sin hsin htype) (fun p hlo hhi _ => by omega) hne, hbytes,
        overwrite_of_le (by simpa using hsize)]
      rfl
  | tryseek pos =>
    obtain ⟨h0, hmax⟩ := hrange
    simp only [FileOp.run, sfsTryseek, wp_bind, wp_pure, wp_ite, wp_throw, wp_getSin hsin]
    refine ⟨fun hbad => absurd hbad (by omega), fun _ => ⟨fun hlt => ?_, fun hge => ?_⟩⟩
    · refine h.wp_truncfile hsin htype (fun hbad => absurd hbad (by omega)) (fun _ _ _ hs => hs)
        fun _ _ s' hedit hfile => .inr ⟨hedit, rfl, ?_⟩
      rw [hfile hgap, FileOp.spec, length_file, hdin, max_eq_right hlt.le]
    · refine .inr ⟨.refl h, rfl, ?_⟩
      rw [FileOp.spec, max_eq_left (by rw [length_file, hdin]; omega), resize_length]
  | truncfile len =>
    obtain ⟨h0, hmax⟩ := hrange
    simp only [FileOp.run, wp_bind, wp_pure]
    exact h.wp_truncfile hsin htype (fun hbad => absurd hbad (by omega)) (fun _ _ _ hs => hs)
      fun _ _ s' hedit hfile => .inr ⟨hedit, rfl, Prod.ext (hfile hgap) rfl⟩

theorem StoreStep.performs (h : StoreOk L s) (hstep : StoreStep s e s')
    (hgap : ZeroGap e.ino e.op.extent s) : Performs L e.op e.ino s e.ret e.bytes s' :=
  ((h.wp_run hstep.regular hstep.range hgap).of_done hstep.run).resolve_left
    fun hs => hstep.space hs.1

/-- A run of calls, none of which brings stale bytes into a file, is a run of the abstract
store; in the state it reaches every such call returns, and as the abstract call does
unless the volume is full. -/
theorem files_refine_store {es : List FileEvent} (h : StoreOk L s)
    (hrun : Run (fun s e s' => StoreStep s e s' ∧ ZeroGap e.ino e.op.extent s) s es s') :
    Run SpecStep (s.store L) es (s'.store L) ∧
    ∀ x op, s'.Regular x → op.InRange (s'.din x).size → ZeroGap x op.extent s' →
      (∃ r t, op.run .none x s' = .done r t ∧ (NoSpace r.1 t ∨ Performs L op x s' r.1 r.2 t)) ∨
      ∃ e t, op.run .none x s' = .fail e t ∧ NoSpace (some e) t := by
  have hinv : ∀ s e s', StoreOk L s → StoreStep s e s' ∧ ZeroGap e.ino e.op.extent s →
      StoreOk L s' := fun s e s' h hs => (hs.1.performs h hs.2).ok
  refine ⟨hrun.simulate (f := fun s => s.store L) hinv (fun s e s' h hs => ?_) h,
    fun x op hreg hrange hgap => ?_⟩
  · have hp := hs.1.performs h hs.2
    refine ⟨hp.code, fun x hx => ?_, fun x hx => hp.others x x.2 hx⟩
    simp only [Fs.store, hx]
    exact hp.file
  · exact ((hrun.invariant hinv h).wp_run hreg hrange hgap).returns

/-! ## One file -/

theorem storeOk_blankFile : StoreOk {3} blankFile := by
  refine ⟨filesOk_blankFile, fun x sin hsin _ i hi => absurd ?_ hi⟩
  obtain ⟨din, hdin, rfl⟩ := Option.map_eq_some_iff.mp hsin
  rcases eq_or_ne x 3 with rfl | hx
  · cases hdin
    exact blk_blank rfl ⟨rfl, rfl, rfl⟩ (by simp)
  · simp [hx] at hdin

/-- One more call in front of a run of calls that meet the condition `C`. -/
theorem StoreStep.exists_cons {C : Fs → FileEvent → Prop} {l : List FileEvent}
    (hreg : s.Regular e.ino) (hrange : e.op.InRange (s.din e.ino).size)
    (hspace : e.ret ≠ some .noMem) (hC : C s e)
    (h : (e.op.run .none e.ino).wp False Never (fun r t => r = (e.ret, e.bytes) ∧
      ∃ s', Run (fun s e s' => StoreStep s e s' ∧ C s e) t l s') s) :
    ∃ s', Run (fun s e s' => StoreStep s e s' ∧ C s e) s (e :: l) s' := by
  obtain ⟨r, t, hr, rfl, s', hrun⟩ := h.returns_done
  exact ⟨s', .cons ⟨⟨hreg, hrange, hr, hspace⟩, hC⟩ hrun⟩

/-- The theorem applies to a file that is written, extended and read. -/
theorem files_refine_store_extend : ∃ s' : Fs, Run SpecStep (blankFile.store {3})
    [⟨3, .write 0 [7], none, [7]⟩, ⟨3, .truncfile 2, none, []⟩, ⟨3, .read 0 2, none, [7, 0]⟩]
    (s'.store {3}) := by
  have h0 : ∀ {n : ℕ}, (0 : ℤ).toNat ≤ n := Nat.zero_le _
  have hnone : ∀ s : Fs, ZeroGap 3 0 s := fun s p _ hp => absurd hp (Nat.not_lt_zero p)
  obtain ⟨s', hrun⟩ := StoreStep.exists_cons (C := fun s e => ZeroGap e.ino e.op.extent s)
    (e := ⟨3, .write 0 [7], none, [7]⟩)
    (l := [⟨3, .truncfile 2, none, []⟩, ⟨3, .read 0 2, none, [7, 0]⟩])
    regular_blankFile ⟨by decide, h0, by decide⟩ (by decide) (hnone _) ⟨rfl,
    StoreStep.exists_cons ⟨_, rfl, rfl⟩ ⟨by decide, by decide⟩ (by decide) (fun p hlo hhi _ => by
        have hp : p = 1 := le_antisymm (Nat.le_of_lt_succ hhi) hlo
        subst hp
        rfl) ⟨rfl,
    StoreStep.exists_cons ⟨_, rfl, rfl⟩ ⟨by decide, by decide⟩ (by decide) (hnone _) ⟨rfl,
    _, .nil _⟩⟩⟩
  exact ⟨s', (files_refine_store storeOk_blankFile hrun).1⟩

/-- Two bytes are written, the second is cut off, and the file is extended again: it reads
as before. -/
def cutAndExtend : List FileEvent :=
  [⟨3, .write 0 [7, 7], none, [7, 7]⟩, ⟨3, .truncfile 1, none, []⟩,
    ⟨3, .truncfile 2, none, []⟩, ⟨3, .read 0 2, none, [7, 7]⟩]

/-- A truncation to a larger size brings back a byte that an earlier one cut off. -/
theorem cut_byte_returns : StoreOk {3} blankFile ∧ (∃ s', Run StoreStep blankFile cutAndExtend s') ∧
    ¬∃ F, Run SpecStep (blankFile.store {3}) cutAndExtend F := by
  refine ⟨storeOk_blankFile, ?_, ?_⟩
  · have h0 : ∀ {n : ℕ}, (0 : ℤ).toNat ≤ n := Nat.zero_le _
    obtain ⟨s', hrun⟩ := StoreStep.exists_cons (C := fun _ _ => True)
      (e := ⟨3, .write 0 [7, 7], none, [7, 7]⟩) (l := cutAndExtend.tail)
      regular_blankFile ⟨by decide, h0, by decide⟩ (by decide) trivial ⟨rfl,
      StoreStep.exists_cons ⟨_, rfl, rfl⟩ ⟨by decide, by decide⟩ (by decide) trivial ⟨rfl,
      StoreStep.exists_cons ⟨_, rfl, rfl⟩ ⟨by decide, by decide⟩ (by decide) trivial ⟨rfl,
      StoreStep.exists_cons ⟨_, rfl, rfl⟩ ⟨by decide, by decide⟩ (by decide) trivial ⟨rfl,
      _, .nil _⟩⟩⟩⟩
    exact ⟨s', hrun.mono fun _ _ _ h => h.1⟩
  · rintro ⟨F, hrun⟩
    have hx : (3 : ℕ) ∈ ({3} : Finset ℕ) := by simp
    obtain _ | ⟨h₁, _ | ⟨h₂, _ | ⟨h₃, _ | ⟨h₄, _⟩⟩⟩⟩ := hrun
    have e₁ := h₁.file ⟨3, hx⟩ rfl
    have e₂ := h₂.file ⟨3, hx⟩ rfl
    have e₃ := h₃.file ⟨3, hx⟩ rfl
    have e₄ := h₄.file ⟨3, hx⟩ rfl
    have hempty : blankFile.store {3} ⟨3, hx⟩ = [] := rfl
    simp only [FileOp.spec, hempty, Prod.mk.injEq] at e₁ e₂ e₃ e₄
    rw [e₃.1, e₂.1, e₁.1] at e₄
    cases e₄.2

end Ucore.Sfs
