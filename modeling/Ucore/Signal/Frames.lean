import Ucore.Lib.Runs
import Ucore.Sync.Signals
import Ucore.Vm.Memory

/-!
# Frames of signals

`__sig_setup_frame` saves the registers and the mask of a thread in a frame on its stack, and
`do_sigreturn` takes them from the frame the stack pointer leads to. With an alternative stack all
frames go to one place, below that stack; and of the status register that a frame brings only four
bits are looked at.
-/

namespace Ucore.Sync

open Function List

abbrev Word := BitVec 32

/-- `struct trapframe`: `reg_r`, `tf_trapno` and `tf_err`. -/
abbrev TrapFrame := Fin 20 → Word

namespace TrapFrame

def esp (tf : TrapFrame) : Word := tf 13

def sr (tf : TrapFrame) : Word := tf 16

end TrapFrame

/-- `trap_in_kernel`. -/
def trapInKernel (tf : TrapFrame) : Bool := tf.sr &&& 0xF ≠ 0

/-- `struct sigframe`. -/
structure KernelFrame where
  pretcode : Word
  sign : Word
  tf : TrapFrame
  oldBlocked : SigSet
  retcode : Word × Word

/-- `sizeof(struct sigframe)`. -/
def frameSize : ℕ := 104

/-- The words of the structure. -/
def KernelFrame.word (k : KernelFrame) (i : ℕ) : Word :=
  if i = 0 then k.pretcode
  else if i = 1 then k.sign
  else if i < 22 then k.tf (Fin.ofNat 20 (i - 2))
  else if i = 22 then k.oldBlocked.extractLsb' 0 32
  else if i = 23 then k.oldBlocked.extractLsb' 32 32
  else if i = 24 then k.retcode.1
  else k.retcode.2

/-- A thread in user mode, with its memory by words. -/
structure UserSide where
  mem : ℕ → Word
  tf : TrapFrame
  blocked : SigSet
  /-- `sas_ss_sp`. -/
  altSp : Word
  /-- `sas_ss_size`. -/
  altSize : Word

/-- The memory after `copy_to_user` of a frame. -/
def writeFrame (mem : ℕ → Word) (a : ℕ) (k : KernelFrame) (x : ℕ) : Word :=
  if a ≤ x ∧ x < a + frameSize ∧ (x - a) % 4 = 0 then k.word ((x - a) / 4) else mem x

/-- `copy_from_user` of a frame. -/
def readFrame (mem : ℕ → Word) (a : ℕ) : KernelFrame where
  pretcode := mem a
  sign := mem (a + 4)
  tf := fun i => mem (a + 8 + 4 * i)
  oldBlocked := mem (a + 92) ++ mem (a + 88)
  retcode := (mem (a + 96), mem (a + 100))

namespace UserSide

/-- Where `__sig_setup_frame` puts the frame. -/
def frameAt (s : UserSide) : ℕ :=
  ((if s.altSp = 0 then s.tf.esp else s.altSp) - BitVec.ofNat 32 frameSize).toNat / 8 * 8

/-- `__sig_setup_frame`; `alloc` and `copied` are the answers of `kmalloc` and, for an address of
the user, of `copy_to_user`. -/
def sigSetupFrame (s : UserSide) (sign : ℕ) (handler : Word) (oldset : SigSet)
    (alloc copied : Bool) : Except Vm.Err UserSide :=
  let frame := s.frameAt
  if !alloc then .error .noMem
  else if ¬(Vm.UserAccess frame (frame + frameSize) ∧ copied) then .error .inval
  else
    let kframe : KernelFrame := ⟨0, BitVec.ofNat 32 sign, s.tf, oldset, 0xe3a07077, 0xef000000⟩
    let retcode := BitVec.ofNat 32 (frame + 96)
    .ok { s with
      mem := update (writeFrame s.mem frame kframe) frame retcode
      tf := update (update (update (update s.tf 0 (BitVec.ofNat 32 sign)) 15 handler)
        13 (BitVec.ofNat 32 frame)) 14 retcode }

/-- `handle_signal`; a `NULL` pointer to the mask stands for the mask of the thread. -/
def handleSignal (s : UserSide) (sign : ℕ) (handler : Word) (mask : SigSet) (nodefer : Bool)
    (old : Option SigSet) (alloc copied : Bool) : Except Vm.Err UserSide :=
  match s.sigSetupFrame sign handler (old.getD s.blocked) alloc copied with
  | .error e => .error e
  | .ok s' => .ok (if nodefer then s'
      else { s' with blocked := sigsetAdd (s'.blocked ||| mask) sign })

/-- How `do_sigreturn` ends. -/
inductive Sigreturn where
  | returns (s : UserSide)
  /-- It returns to user mode with an error, and nothing has changed. -/
  | fails (e : Vm.Err)
  /-- It calls `do_exit`. -/
  | exits

/-- `do_sigreturn`; `sighand` says that there are handlers, and `alloc` and `copied` are the answers
of `kmalloc` and, for an address of the user, of `copy_from_user`. -/
def doSigreturn (s : UserSide) (sighand alloc copied : Bool) : Sigreturn :=
  let frame := s.tf.esp.toNat
  if !sighand then .fails .inval
  else if !alloc then .fails .noMem
  else if ¬(Vm.UserAccess frame (frame + frameSize) ∧ copied) then .fails .inval
  else
    let kframe := readFrame s.mem frame
    if trapInKernel kframe.tf then .exits
    else .returns { s with tf := kframe.tf, blocked := kframe.oldBlocked }

end UserSide

/-! ## The status register -/

/-- `MODE_MASK`. -/
def modeMask : Word := 0x1F

/-- `USR_MODE`. -/
def usrMode : Word := 0x10

/-- `PSR_I`. -/
def psrI : Word := 0x80

variable {tf : TrapFrame}

/-- With four bits clear there are two modes left. -/
theorem mode_of_not_trapInKernel (h : trapInKernel tf = false) :
    tf.sr &&& modeMask = 0 ∨ tf.sr &&& modeMask = usrMode := by
  have hlow : tf.sr &&& 0xF = 0 := by simpa [trapInKernel] using h
  have hsplit : tf.sr &&& modeMask = (tf.sr &&& 0xF) ||| (tf.sr &&& BitVec.twoPow 32 4) := by
    rw [← BitVec.and_or_distrib_left]
    rfl
  rw [hsplit, hlow, BitVec.and_twoPow]
  split
  · exact .inr rfl
  · exact .inl rfl

theorem trapInKernel_of_mode (h : tf.sr &&& modeMask = 0 ∨ tf.sr &&& modeMask = usrMode) :
    trapInKernel tf = false := by
  have hlow : tf.sr &&& 0xF = (tf.sr &&& modeMask) &&& 0xF := by
    rw [BitVec.and_assoc]
    rfl
  unfold trapInKernel
  rw [hlow]
  rcases h with h | h <;> rw [h] <;> rfl

namespace UserSide

variable {s s' : UserSide} {sighand alloc copied : Bool}

/-- The frame that the stack pointer leads to. -/
def userFrame (s : UserSide) : KernelFrame := readFrame s.mem s.tf.esp.toNat

/-- `do_sigreturn` gets to see the frame. -/
def Reads (s : UserSide) (sighand alloc copied : Bool) : Prop :=
  sighand = true ∧ alloc = true ∧
    Vm.UserAccess s.tf.esp.toNat (s.tf.esp.toNat + frameSize) ∧ copied = true

theorem doSigreturn_of_reads (h : s.Reads sighand alloc copied) :
    s.doSigreturn sighand alloc copied = if trapInKernel s.userFrame.tf then .exits
      else .returns { s with tf := s.userFrame.tf, blocked := s.userFrame.oldBlocked } := by
  obtain ⟨rfl, rfl, haccess, rfl⟩ := h
  unfold doSigreturn
  simp only [Bool.not_true, Bool.false_eq_true, if_false, haccess, and_self, not_true_eq_false]
  rfl

theorem of_returns (h : s.doSigreturn sighand alloc copied = .returns s') :
    s.Reads sighand alloc copied ∧ trapInKernel s.userFrame.tf = false ∧
      s' = { s with tf := s.userFrame.tf, blocked := s.userFrame.oldBlocked } := by
  have hreads : s.Reads sighand alloc copied := by
    unfold doSigreturn at h
    dsimp only at h
    split at h
    · cases h
    · rename_i hsighand
      split at h
      · cases h
      · rename_i halloc
        split at h
        · cases h
        · rename_i hframe
          rw [Bool.not_eq_true, Bool.not_eq_false'] at hsighand halloc
          exact ⟨hsighand, halloc, not_not.mp hframe⟩
  rw [doSigreturn_of_reads hreads] at h
  split at h
  · cases h
  · rename_i hkernel
    rw [Bool.not_eq_true] at hkernel
    exact ⟨hreads, hkernel, (Sigreturn.returns.inj h).symm⟩

/-- The registers that `do_sigreturn` brings are those of user mode and mask no interrupts that
were not masked before, and other frames end the process. -/
structure Unprivileged (s : UserSide) (sighand alloc copied : Bool) : Prop where
  mode : ∀ s', s.doSigreturn sighand alloc copied = .returns s' → s'.tf.sr &&& modeMask = usrMode
  irq : ∀ s', s.doSigreturn sighand alloc copied = .returns s' →
    s'.tf.sr &&& psrI ≠ 0 → s.tf.sr &&& psrI ≠ 0
  exits : s.Reads sighand alloc copied → s.userFrame.tf.sr &&& modeMask ≠ usrMode →
    s.doSigreturn sighand alloc copied = .exits

/-- **`do_sigreturn` gives no privileges** exactly if the frame does not name the user mode of the
26-bit processors, and a frame of user mode masks interrupts only if they are masked already. -/
theorem sigreturn_unprivileged (s : UserSide) (sighand alloc copied : Bool) :
    s.Unprivileged sighand alloc copied ↔ (s.Reads sighand alloc copied →
      s.userFrame.tf.sr &&& modeMask ≠ 0 ∧
        (s.userFrame.tf.sr &&& modeMask = usrMode → s.userFrame.tf.sr &&& psrI ≠ 0 →
          s.tf.sr &&& psrI ≠ 0)) := by
  constructor
  · intro h hreads
    have hcall := doSigreturn_of_reads hreads
    constructor
    · intro hzero
      rw [trapInKernel_of_mode (.inl hzero)] at hcall
      have hmode := h.mode _ hcall
      rw [show _ &&& _ = _ from hzero] at hmode
      cases hmode
    · intro huser
      rw [trapInKernel_of_mode (.inr huser)] at hcall
      exact h.irq _ hcall
  · intro h
    refine ⟨fun s' hcall => ?_, fun s' hcall => ?_, fun hreads hmode => ?_⟩
    · obtain ⟨hreads, hkernel, rfl⟩ := of_returns hcall
      exact (mode_of_not_trapInKernel hkernel).resolve_left (h hreads).1
    · obtain ⟨hreads, hkernel, rfl⟩ := of_returns hcall
      exact (h hreads).2 ((mode_of_not_trapInKernel hkernel).resolve_left (h hreads).1)
    · rw [doSigreturn_of_reads hreads, if_pos]
      by_contra hkernel
      rw [Bool.not_eq_true] at hkernel
      exact (mode_of_not_trapInKernel hkernel).elim (h hreads).1 hmode

/-- A thread in user mode whose stack holds words that are 0, but for the status register. -/
def withStatus (sr : Word) : UserSide :=
  ⟨update (fun _ => 0) (0x40000000 + 72) sr, update (update (fun _ => 0) 13 0x40000000) 16 usrMode,
    0, 0, 0⟩

/-- Registers of the 26-bit user mode are installed, and so are registers that mask interrupts. -/
theorem sigreturn_installs_other_modes :
    (∃ s', (withStatus 0).doSigreturn true true true = .returns s' ∧
      s'.tf.sr &&& modeMask ≠ usrMode) ∧
    ∃ s', (withStatus 0x90).doSigreturn true true true = .returns s' ∧
      s'.tf.sr &&& psrI ≠ 0 ∧ (withStatus 0x90).tf.sr &&& psrI = 0 :=
  ⟨⟨_, rfl, by decide⟩, _, rfl, by decide, by decide⟩

end UserSide

/-! ## Nested deliveries -/

section

variable {mem : ℕ → Word} {a b i : ℕ} {k : KernelFrame}

theorem writeFrame_self (hi : i < 26) : writeFrame mem a k (a + 4 * i) = k.word i := by
  have hin : a ≤ a + 4 * i ∧ a + 4 * i < a + frameSize ∧ (a + 4 * i - a) % 4 = 0 := by
    unfold frameSize
    omega
  have hdiv : (a + 4 * i - a) / 4 = i := by omega
  rw [writeFrame, if_pos hin, hdiv]

theorem writeFrame_of_disjoint (h : a + frameSize ≤ b) (hi : i < 26) :
    writeFrame mem a k (b + 4 * i) = mem (b + 4 * i) := by
  refine if_neg fun hin => ?_
  omega

/-- What the frame at an address says about a return. -/
structure Holds (mem : ℕ → Word) (a : ℕ) (tf : TrapFrame) (blocked : SigSet) : Prop where
  tf : (readFrame mem a).tf = tf
  blocked : (readFrame mem a).oldBlocked = blocked

theorem Holds.congr {mem' : ℕ → Word} {blocked : SigSet} (h : Holds mem a tf blocked)
    (hmem : ∀ i, 0 < i → i < 26 → mem' (a + 4 * i) = mem (a + 4 * i)) :
    Holds mem' a tf blocked := by
  obtain ⟨rfl, rfl⟩ := h
  refine ⟨funext fun i => ?_, ?_⟩
  · have hword := hmem (i + 2) (by omega) (by omega)
    rwa [show a + 4 * (i.val + 2) = a + 8 + 4 * i by omega] at hword
  · show mem' (a + 4 * 23) ++ mem' (a + 4 * 22) = mem (a + 4 * 23) ++ mem (a + 4 * 22)
    rw [hmem 23 (by omega) (by omega), hmem 22 (by omega) (by omega)]

theorem holds_writeFrame : Holds (writeFrame mem a k) a k.tf k.oldBlocked := by
  refine ⟨funext fun i => ?_, ?_⟩
  · have hword := @writeFrame_self mem a (i + 2) k (by omega)
    rw [show a + 4 * (i.val + 2) = a + 8 + 4 * i by omega] at hword
    have hreg : k.word (i + 2) = k.tf i := by
      rw [KernelFrame.word, if_neg (by omega), if_neg (by omega), if_pos (by omega)]
      simp
    exact hword.trans hreg
  · have hlow : writeFrame mem a k (a + 88) = k.oldBlocked.extractLsb' 0 32 :=
      writeFrame_self (i := 22) (by omega)
    have hhigh : writeFrame mem a k (a + 92) = k.oldBlocked.extractLsb' (0 + 32) 32 :=
      writeFrame_self (i := 23) (by omega)
    show writeFrame mem a k (a + 92) ++ writeFrame mem a k (a + 88) = k.oldBlocked
    rw [hlow, hhigh, BitVec.extractLsb'_append_extractLsb'_eq_extractLsb' rfl]
    exact BitVec.extractLsb'_eq_self

end

namespace UserSide

variable {s s' : UserSide} {sign : ℕ} {handler : Word} {mask : SigSet} {nodefer : Bool}
  {old : Option SigSet}

/-- A delivery writes its frame, and then the first word of it. -/
theorem handleSignal_mem (h : s.handleSignal sign handler mask nodefer old true true = .ok s') :
    Vm.UserAccess s.frameAt (s.frameAt + frameSize) ∧ ∃ w,
      s'.mem = update (writeFrame s.mem s.frameAt ⟨0, BitVec.ofNat 32 sign, s.tf,
        old.getD s.blocked, 0xe3a07077, 0xef000000⟩) s.frameAt w := by
  unfold handleSignal sigSetupFrame at h
  by_cases haccess : Vm.UserAccess s.frameAt (s.frameAt + frameSize)
  · simp only [Bool.not_true, Bool.false_eq_true, if_false, haccess, and_self,
      not_true_eq_false] at h
    refine ⟨haccess, BitVec.ofNat 32 (s.frameAt + 96), ?_⟩
    obtain rfl := Except.ok.inj h
    split <;> rfl
  · simp [haccess] at h

/-- A frame on the stack of the thread lies below the stack pointer. -/
theorem frameAt_le (halt : s.altSp = 0)
    (haccess : Vm.UserAccess s.frameAt (s.frameAt + frameSize)) :
    s.frameAt + frameSize ≤ s.tf.esp.toNat := by
  unfold Vm.UserAccess Vm.userTop frameAt frameSize at haccess
  unfold frameAt frameSize
  rw [if_pos halt, BitVec.toNat_sub] at *
  rw [show (BitVec.ofNat 32 104).toNat = 104 from rfl] at *
  omega

end UserSide

/-- A delivery that did not return yet: its frame, and what is to be restored. -/
structure Saved where
  frame : ℕ
  tf : TrapFrame
  blocked : SigSet

/-- A thread with its deliveries, the last one first. -/
structure Nest extends UserSide where
  saved : List Saved

/-- What happens to a thread. -/
inductive FrameOp where
  /-- `handle_signal` is called by `do_signal`. -/
  | deliver (sign : ℕ) (handler : Word) (mask : SigSet) (nodefer : Bool) (old : Option SigSet)
  /-- User code runs, and the system calls it makes. -/
  | user (s : UserSide)
  /-- The handler ends, with the stack pointer it began with. -/
  | sigreturn

namespace Nest

variable {s s' s₀ : Nest} {op : FrameOp} {ops : List FrameOp}

/-- The steps of a thread that leaves saved frames alone. -/
def Step (s : Nest) : FrameOp → Nest → Prop
  | .deliver sign handler mask nodefer old, s' => trapInKernel s.tf = false ∧ ∃ v,
      s.handleSignal sign handler mask nodefer old true true = .ok v ∧
        s' = ⟨v, ⟨s.frameAt, s.tf, s.blocked⟩ :: s.saved⟩
  | .user v, s' => trapInKernel v.tf = false ∧
      (∀ f ∈ s.saved, ∀ i < 26, v.mem (f.frame + 4 * i) = s.mem (f.frame + 4 * i)) ∧
        s' = ⟨v, s.saved⟩
  | .sigreturn, s' => ∃ f rest v, s.saved = f :: rest ∧ s.tf.esp.toNat = f.frame ∧
      s.doSigreturn true true true = .returns v ∧ s' = ⟨v, rest⟩

/-- There is no alternative stack, the stack grows below the saved frames, and the mask to be
restored is the present one. -/
def Plain (s : Nest) : FrameOp → Prop
  | .deliver _ _ _ _ old => s.altSp = 0 ∧ (∀ f ∈ s.saved, s.tf.esp.toNat ≤ f.frame) ∧
      old.getD s.blocked = s.blocked
  | _ => True

/-- Every saved frame is there, and no two of them overlap. -/
structure Nested (s : Nest) : Prop where
  user : ∀ f ∈ s.saved, trapInKernel f.tf = false
  access : ∀ f ∈ s.saved, Vm.UserAccess f.frame (f.frame + frameSize)
  holds : ∀ f ∈ s.saved, Holds s.mem f.frame f.tf f.blocked
  apart : s.saved.Pairwise fun f g => f.frame + frameSize ≤ g.frame

theorem Nested.deliver {sign : ℕ} {handler : Word} {mask : SigSet} {nodefer : Bool}
    {old : Option SigSet} (h : s.Nested)
    (hstep : s.Step (.deliver sign handler mask nodefer old) s')
    (hplain : s.Plain (.deliver sign handler mask nodefer old)) : s'.Nested := by
  obtain ⟨huser, v, hcall, rfl⟩ := hstep
  obtain ⟨halt, hbelow, hold⟩ := hplain
  obtain ⟨haccess, w, hmem⟩ := UserSide.handleSignal_mem hcall
  have hle := UserSide.frameAt_le halt haccess
  have hapart : ∀ f ∈ s.saved, s.frameAt + frameSize ≤ f.frame :=
    fun f hf => hle.trans (hbelow f hf)
  refine ⟨?_, ?_, ?_, pairwise_cons.mpr ⟨hapart, h.apart⟩⟩
  · exact forall_mem_cons.mpr ⟨huser, h.user⟩
  · exact forall_mem_cons.mpr ⟨haccess, h.access⟩
  · refine forall_mem_cons.mpr ⟨?_, fun f hf => ?_⟩
    · have hholds := @holds_writeFrame s.mem s.frameAt ⟨0, BitVec.ofNat 32 sign, s.tf,
        old.getD s.blocked, 0xe3a07077, 0xef000000⟩
      rw [hold] at hholds
      refine hholds.congr fun i hpos _ => ?_
      rw [hmem, hold]
      exact update_of_ne (by omega) ..
    · refine (h.holds f hf).congr fun i _ hi => ?_
      have hbefore := hapart f hf
      rw [hmem, update_of_ne (by unfold frameSize at hbefore; omega)]
      exact writeFrame_of_disjoint hbefore hi

theorem Nested.step (h : s.Nested) (hstep : s.Step op s') (hplain : s.Plain op) : s'.Nested := by
  cases op with
  | deliver sign handler mask nodefer old => exact h.deliver hstep hplain
  | user v =>
    obtain ⟨-, hmem, rfl⟩ := hstep
    refine { h with holds := fun f hf => (h.holds f hf).congr fun i _ => hmem f hf i }
  | sigreturn =>
    obtain ⟨f, rest, v, hsaved, -, hcall, rfl⟩ := hstep
    obtain ⟨-, -, rfl⟩ := UserSide.of_returns hcall
    obtain ⟨huser, haccess, hholds, hapart⟩ := h
    rw [hsaved] at huser haccess hholds hapart
    exact ⟨(forall_mem_cons.mp huser).2, (forall_mem_cons.mp haccess).2,
      (forall_mem_cons.mp hholds).2, (pairwise_cons.mp hapart).2⟩

/-- **Returns restore what deliveries saved**, and saved frames do not overlap, in every run of
properly nested deliveries without an alternative stack, on a stack that grows downwards, out of
no call that waits with another mask. -/
theorem sigreturn_restores (hstart : s₀.saved = [])
    (hrun : Run (fun s op s' => s.Step op s' ∧ s.Plain op) s₀ ops s) :
    (s.saved.Pairwise fun f g => f.frame + frameSize ≤ g.frame) ∧
      ∀ f rest, s.saved = f :: rest → s.tf.esp.toNat = f.frame →
        ∃ v, s.doSigreturn true true true = .returns v ∧ v.tf = f.tf ∧ v.blocked = f.blocked := by
  have hnested : s.Nested := by
    refine hrun.invariant (fun _ _ _ hs hstep => hs.step hstep.1 hstep.2) ?_
    refine ⟨?_, ?_, ?_, ?_⟩ <;> rw [hstart] <;> simp
  refine ⟨hnested.apart, fun f rest hsaved hesp => ?_⟩
  have hf : f ∈ s.saved := by
    rw [hsaved]
    exact .head _
  have hreads : s.Reads true true true := by
    refine ⟨rfl, rfl, ?_, rfl⟩
    rw [hesp]
    exact hnested.access f hf
  have hframe : s.userFrame = readFrame s.mem f.frame := congrArg _ hesp
  obtain ⟨htf, hblocked⟩ := hnested.holds f hf
  refine ⟨_, (UserSide.doSigreturn_of_reads hreads).trans (if_neg ?_), ?_, ?_⟩
  · rw [hframe, htf, hnested.user f hf]
    simp
  · rw [hframe]
    exact htf
  · rw [hframe]
    exact hblocked

/-- A thread in user mode without saved frames. -/
def fresh (altSp : Word) : Nest :=
  ⟨⟨fun _ => 0, update (update (fun _ => 0) 13 0x40001000) 16 usrMode, 0, altSp, 0x1000⟩, []⟩

/-- A second handler interrupts the first one: their frames are apart, and after the return from
the second one the first one can return too. -/
theorem sigreturn_restores_nested : ∃ t s f g,
    Run (fun s op s' => s.Step op s' ∧ s.Plain op) (fresh 0)
      [.deliver 10 0x30000000 0 false none, .deliver 12 0x30000100 0 false none] t ∧
    t.saved = [g, f] ∧ g.frame + frameSize ≤ f.frame ∧
    Run (fun s op s' => s.Step op s' ∧ s.Plain op) (fresh 0)
      [.deliver 10 0x30000000 0 false none, .deliver 12 0x30000100 0 false none, .sigreturn] s ∧
    s.saved = [f] ∧ s.tf ≠ f.tf ∧
    ∃ v, s.doSigreturn true true true = .returns v ∧ v.tf = f.tf ∧ v.blocked = f.blocked := by
  have htwo : Run (fun s op s' => s.Step op s' ∧ s.Plain op) (fresh 0)
      [.deliver 10 0x30000000 0 false none, .deliver 12 0x30000100 0 false none] _ :=
    .cons ⟨⟨rfl, _, rfl, rfl⟩, rfl, by simp [fresh], rfl⟩
      (.cons ⟨⟨rfl, _, rfl, rfl⟩, rfl, by decide, rfl⟩ (.nil _))
  have hreturn : Run (fun s op s' => s.Step op s' ∧ s.Plain op) (fresh 0)
      [.deliver 10 0x30000000 0 false none, .deliver 12 0x30000100 0 false none, .sigreturn] _ :=
    htwo.snoc ⟨⟨_, _, _, rfl, rfl, rfl, rfl⟩, trivial⟩
  have hapart := pairwise_pair.mp (sigreturn_restores rfl htwo).1
  refine ⟨_, _, _, _, htwo, rfl, hapart, hreturn, rfl, fun h => ?_,
    (sigreturn_restores rfl hreturn).2 _ [] rfl rfl⟩
  cases congrFun h 15

/-- On an alternative stack at `0x40000000` the frame is below it, and the frame of a second
delivery takes its place: the first one returns to the handler. -/
theorem frames_overlap_on_alternative_stack : ∃ s f v, Run Step (fresh 0x40000000)
    [.deliver 10 0x30000000 0 false none, .deliver 12 0x30000100 0 false none, .sigreturn] s ∧
    s.saved = [f] ∧ f.frame + frameSize ≤ s.altSp.toNat ∧ s.tf.esp.toNat = f.frame ∧
    s.doSigreturn true true true = .returns v ∧ v.tf ≠ f.tf := by
  refine ⟨_, _, _, .cons ⟨rfl, _, rfl, rfl⟩ (.cons ⟨rfl, _, rfl, rfl⟩
    (.cons ⟨_, _, _, rfl, rfl, rfl, rfl⟩ (.nil _))), rfl, by decide, rfl, rfl, fun h => ?_⟩
  cases congrFun h 15

end Nest

end Ucore.Sync
