import Ucore.Lib.Bytes
import Ucore.Lib.Heap
import Ucore.Sync.MailboxSlots
import Ucore.Sync.MailboxWakeups

/-!
# The segments of a message

`load_msg` cuts what it copies from user memory into a `struct msg_msg` and a chain of
`struct msg_seg`, each a block of its own, and `store_msg` follows the chain. Both make the
same cuts, so the bytes arrive as they were sent; a chain that cannot be finished is freed.
-/

namespace Ucore.Sync

open Kern Function List

/-- `MAX_MSG_DATALEN`: 512 less the 20 bytes of a `struct msg_msg`. -/
@[irreducible] def maxMsgDatalen : ℕ := 492

/-- The blocks of `kmalloc`: what was copied behind the structure, and the fields `next` and
`bytes` of it. -/
structure Blocks where
  heap : Heap ℕ
  data : ℕ → List UInt8
  next : ℕ → Option ℕ
  bytes : ℕ → ℕ

abbrev BlockM := Kern Fault Blocks

/-- `kmalloc`. -/
def kmalloc : BlockM (Option ℕ) := Heap.alloc.zoom Blocks.heap fun h s => { s with heap := h }

/-- `kfree`. -/
def kfree (b : ℕ) : BlockM Unit := do
  let live ← gets fun s => s.heap.live
  if b ∈ live then (Heap.free b).zoom Blocks.heap fun h s => { s with heap := h }
  else throw .doubleFree

/-- `free_seg`, and with it `free_msg`: what follows a block is freed first. -/
def freeSeg : ℕ → ℕ → BlockM Unit
  | 0, _ => stop .running
  | fuel + 1, seg => do
    match ← gets fun s => s.next seg with
    | none => kfree seg
    | some next => do
      freeSeg fuel next
      kfree seg

/-- `load_msg` from its label `inside` on; `cur` is the block that `dst` and `segp` point into. -/
def loadInside (user : Bytes) : ℕ → ℕ → ℕ → ℕ → BlockM Bool
  | 0, _, _, _ => stop .running
  | fuel + 1, cur, src, len => do
    let alen := min len maxMsgDatalen
    modify fun s => { s with
      data := update s.data cur (user.read src alen)
      next := update s.next cur none }
    if len - alen = 0 then return true
    else do
      match ← kmalloc with
      | none => return false
      | some seg => do
        modify fun s => { s with next := update s.next cur (some seg) }
        loadInside user fuel seg (src + alen) (len - alen)

/-- `load_msg`. A chain has no more blocks than are in use. -/
def loadMsg (user : Bytes) (src len : ℕ) : BlockM (Option ℕ) := do
  match ← kmalloc with
  | none => return none
  | some msg => do
    let ok ← loadInside user (len + 1) msg src len
    if ok then do
      modify fun s => { s with bytes := update s.bytes msg len }
      return some msg
    else do
      let live ← gets fun s => s.heap.live
      freeSeg live.length msg
      return none

/-- `store_msg` from its label `inside` on: the user memory that it leaves. -/
def storeInside : ℕ → Bytes → ℕ → ℕ → ℕ → BlockM Bytes
  | 0, _, _, _, _ => stop .running
  | fuel + 1, user, cur, dst, len => do
    let alen := min len maxMsgDatalen
    let s ← get
    let user' := user.write dst ((s.data cur).take alen)
    if len - alen = 0 then return user'
    else match s.next cur with
      | none => stop .assertion
      | some seg => storeInside fuel user' seg (dst + alen) (len - alen)

/-- `store_msg`. -/
def storeMsg (user : Bytes) (msg dst : ℕ) : BlockM Bytes := do
  let len ← gets fun s => s.bytes msg
  storeInside (len + 1) user msg dst len

/-- The end of `ipc_mbox_recv`: only a message that was picked is stored. -/
def recvEnd (user : Bytes) (msg dst : ℕ) : MboxResult → BlockM Bytes
  | .got _ => storeMsg user msg dst
  | _ => return user

variable {user user' : Bytes} {s s' : Blocks} {bs l : List ℕ} {b cur fuel src len dst : ℕ}

/-- The blocks that follow a block. -/
def Chain (next : ℕ → Option ℕ) : ℕ → List ℕ → Prop
  | b, [] => next b = none
  | b, c :: bs => next b = some c ∧ Chain next c bs

/-- The pieces into which `len` bytes of user memory are cut. -/
def Cuts (user : Bytes) : ℕ → ℕ → List (List UInt8) → Prop
  | _, _, [] => False
  | src, len, [d] => len ≤ maxMsgDatalen ∧ d = user.read src len
  | src, len, d :: e :: ds => maxMsgDatalen < len ∧ d = user.read src maxMsgDatalen ∧
      Cuts user (src + maxMsgDatalen) (len - maxMsgDatalen) (e :: ds)

theorem wp_kfree (hlive : s.heap.live = b :: l) : (kfree b).wp False Never
    (fun _ s' => s'.heap.live = l ∧ ∃ h, s' = { s with heap := h }) s := by
  rw [kfree, wp_get, hlive]
  refine wp_if (fun _ => ?_) (absurd (.head _))
  rw [wp_zoom, Heap.free, wp_modify]
  refine ⟨?_, _, rfl⟩
  rw [hlive]
  exact erase_cons_head ..

/-- The blocks of a chain are freed, the last one first. -/
theorem wp_freeSeg (hchain : Chain s.next b bs) (hlive : s.heap.live = (b :: bs).reverse ++ l)
    (hfuel : bs.length < fuel) : (freeSeg fuel b).wp False Never
      (fun _ s' => s'.heap.live = l ∧ ∃ h, s' = { s with heap := h }) s := by
  obtain ⟨fuel, rfl⟩ := Nat.exists_eq_succ_of_ne_zero (Nat.ne_zero_of_lt hfuel)
  induction bs generalizing b l fuel with
  | nil =>
    rw [freeSeg, wp_get, hchain]
    exact wp_kfree hlive
  | cons c bs ih =>
    obtain ⟨n, rfl⟩ := Nat.exists_eq_succ_of_ne_zero (n := fuel) (by rintro rfl; simp at hfuel)
    rw [freeSeg, wp_get, hchain.1]
    refine wp_seq ((ih (l := b :: l) hchain.2 ?_ n (by simpa using hfuel)).imp ?_)
    · rw [hlive]
      simp
    · rintro _ s' ⟨h, h', rfl⟩
      exact wp_kfree h

/-- A block holds the same in two states. -/
def Same (s s' : Blocks) (b : ℕ) : Prop :=
  s'.data b = s.data b ∧ s'.next b = s.next b ∧ s'.bytes b = s.bytes b

/-- What the loop of `load_msg` does: new blocks follow `cur`. -/
structure Added (s s' : Blocks) (cur : ℕ) (bs : List ℕ) : Prop where
  live : s'.heap.live = bs.reverse ++ s.heap.live
  fresh : ∀ b ∈ bs, b ∉ s.heap.live
  chain : Chain s'.next cur bs
  kept : ∀ b ∈ s.heap.live, b ≠ cur → Same s s' b

theorem wp_loadInside (hfuel : len < fuel) (hcur : cur ∈ s.heap.live) :
    (loadInside user fuel cur src len).wp False Never (fun ok s' => ∃ bs, Added s s' cur bs ∧
      (ok = true → Cuts user src len ((cur :: bs).map s'.data))) s := by
  induction fuel generalizing s cur src len with
  | zero => exact absurd hfuel (Nat.not_lt_zero _)
  | succ fuel ih =>
    have hfill : ∀ h' b, b ≠ cur → Same s { s with
        heap := h'
        data := update s.data cur (user.read src (min len maxMsgDatalen))
        next := update s.next cur none } b := fun _ b hb =>
      ⟨update_of_ne hb .., update_of_ne hb .., rfl⟩
    rw [loadInside, wp_put]
    refine wp_if (fun hzero => ?_) fun hmore => ?_
    · refine ⟨[], ⟨rfl, by simp, update_self .., fun b _ => hfill _ b⟩, fun _ => ?_⟩
      have hmin : min len maxMsgDatalen = len := by omega
      rw [hmin]
      exact ⟨by omega, update_self ..⟩
    · have hmin : min len maxMsgDatalen = maxMsgDatalen := by omega
      rw [hmin] at hmore hfill ⊢
      rw [wp_bind, kmalloc, wp_zoom]
      refine Heap.wp_alloc (fun h' _ hlive => ?_) fun seg h' hseg hlive => ?_
      · exact ⟨[], ⟨hlive, by simp, update_self .., fun b _ => hfill h' b⟩, nofun⟩
      · have hold : ∀ b ∈ s.heap.live, b ∈ h'.live ∧ b ≠ seg := fun b hb =>
          ⟨hlive ▸ mem_cons_of_mem seg hb, fun heq => hseg (heq ▸ hb)⟩
        refine (ih (by rw [maxMsgDatalen]; omega) (hlive ▸ mem_cons_self)).imp ?_
        rintro ok s' ⟨bs, h, hcuts⟩
        obtain ⟨hdata, hnext, -⟩ := h.kept cur (hold cur hcur).1 (hold cur hcur).2
        refine ⟨seg :: bs, ⟨?_, ?_, ⟨hnext.trans (update_self ..), h.chain⟩, fun b hb hne => ?_⟩,
          fun hok => ⟨by omega, hdata.trans (update_self ..), hcuts hok⟩⟩
        · rw [h.live, hlive]
          simp
        · exact forall_mem_cons.mpr ⟨hseg, fun b hb hmem => h.fresh b hb (hold b hmem).1⟩
        · obtain ⟨hdata, hnext, hbytes⟩ := h.kept b (hold b hb).1 (hold b hb).2
          exact ⟨hdata.trans (update_of_ne hne ..), hnext.trans (by simp [hne]), hbytes⟩

/-- `store_msg` writes the pieces of a chain one after another, whatever else has changed. -/
theorem wp_storeInside {t : Blocks} (hchain : Chain s.next cur bs)
    (hcuts : Cuts user src len ((cur :: bs).map s.data)) (hsame : ∀ b ∈ cur :: bs, Same s t b)
    (hfuel : len < fuel) : (storeInside fuel user' cur dst len).wp False Never
      (fun r _ => r = user'.write dst (user.read src len)) t := by
  obtain ⟨n, rfl⟩ := Nat.exists_eq_succ_of_ne_zero (Nat.ne_zero_of_lt hfuel)
  induction bs generalizing cur user' src dst len n with
  | nil =>
    have hmin : min len maxMsgDatalen = len := Nat.min_eq_left hcuts.1
    rw [storeInside, wp_get, hmin, (hsame cur (.head _)).1, hcuts.2, Bytes.take_read,
      if_pos (Nat.sub_self _)]
    rfl
  | cons c bs ih =>
    obtain ⟨⟨hdata, hnext, -⟩, hsame⟩ := forall_mem_cons.mp hsame
    obtain ⟨hlt, hd, hcuts⟩ := hcuts
    have hmin : min len maxMsgDatalen = maxMsgDatalen := Nat.min_eq_right hlt.le
    obtain ⟨n, rfl⟩ : ∃ n', n = n' + 1 := ⟨n - 1, by omega⟩
    rw [storeInside, wp_get, hmin, hdata, hd, Bytes.take_read, if_neg (by omega), hnext, hchain.1]
    have hsplit : user.read src len = user.read src maxMsgDatalen ++
        user.read (src + maxMsgDatalen) (len - maxMsgDatalen) := by
      rw [← Bytes.read_add, Nat.add_sub_cancel' hlt.le]
    rw [hsplit, ← Bytes.write_write, Bytes.length_read]
    refine ih hchain.2 hcuts hsame n ?_
    rw [maxMsgDatalen]
    omega

/-- `load_msg` keeps what it has copied in new blocks, or frees them; `store_msg` finds it. -/
theorem wp_loadMsg : (loadMsg user src len).wp False Never (fun r s' =>
    (∀ b ∈ s.heap.live, Same s s' b) ∧ (r = none → s'.heap.live = s.heap.live) ∧
    ∀ msg, r = some msg → ∃ bs, s'.heap.live = bs ++ s.heap.live ∧ (∀ b ∈ bs, b ∉ s.heap.live) ∧
      ∀ t user' dst, (∀ b ∈ bs, Same s' t b) → (storeMsg user' msg dst).wp False Never
        (fun r _ => r = user'.write dst (user.read src len)) t) s := by
  rw [loadMsg, wp_bind, kmalloc, wp_zoom]
  refine Heap.wp_alloc (fun h' _ hlive => ?_) fun msg h' hmsg hlive => ?_
  · exact ⟨fun _ _ => ⟨rfl, rfl, rfl⟩, fun _ => hlive, nofun⟩
  have hold : ∀ b ∈ s.heap.live, b ∈ h'.live ∧ b ≠ msg := fun b hb =>
    ⟨hlive ▸ mem_cons_of_mem msg hb, fun heq => hmsg (heq ▸ hb)⟩
  refine wp_seq ((wp_loadInside (Nat.lt_succ_self len) (hlive ▸ mem_cons_self)).imp ?_)
  rintro ok s' ⟨bs, h, hcuts⟩
  have hlive' : s'.heap.live = (msg :: bs).reverse ++ s.heap.live := by
    rw [h.live, hlive]
    simp
  have hkept : ∀ b ∈ s.heap.live, Same s s' b := fun b hb => h.kept b (hold b hb).1 (hold b hb).2
  cases ok with
  | false =>
    show (gets _ >>= _).wp _ _ _ _
    rw [wp_get, wp_bind]
    refine (wp_freeSeg h.chain hlive' (by simp [hlive'])).imp ?_
    rintro _ t ⟨hfreed, h, rfl⟩
    exact ⟨hkept, fun _ => hfreed, nofun⟩
  | true =>
    refine ⟨fun b hb => ?_, nofun, fun m hm => ⟨_, hlive', fun b hb => ?_, ?_⟩⟩
    · obtain ⟨hdata, hnext, hbytes⟩ := hkept b hb
      exact ⟨hdata, hnext, (update_of_ne (hold b hb).2 ..).trans hbytes⟩
    · rcases mem_cons.mp (mem_reverse.mp hb) with rfl | hb
      · exact hmsg
      · exact fun hmem => h.fresh b hb (hold b hmem).1
    · cases hm
      intro t user' dst hsame
      have hsame : ∀ b ∈ msg :: bs, _ := fun b hb => hsame b (mem_reverse.mpr hb)
      have hbytes : t.bytes msg = len := (hsame msg (.head _)).2.2.trans (update_self ..)
      rw [storeMsg, wp_get, hbytes]
      exact wp_storeInside (s := { s' with bytes := update s'.bytes msg len }) h.chain (hcuts rfl)
        hsame (Nat.lt_succ_self len)

/-! ## Messages that are too big -/

/-- A receive ended with `-E_TOO_BIG`: the messages are as before, and no byte is stored. -/
def Refused (msgs : List Msg) (r : MboxResult) (s : MboxSys) : Prop :=
  r = .tooBig ∧ s.mbox.msgs = msgs ∧ ∀ user msg dst t, recvEnd user msg dst r t = .done user t

section TooBig

variable {s : MboxSys} {ph : ℕ → Phase} {p maxBytes : ℕ} {msg : Msg} {rest : List Msg}

/-- An open mailbox whose first message is too big for a receiver. -/
structure Big (m : Mbox) (maxBytes : ℕ) : Prop where
  opened : m.state = .opened
  slots : 0 < m.slots
  head : ∃ msg rest, m.msgs = msg :: rest ∧ maxBytes < msg.bytes

theorem wp_recvLoop_big {timer : Option ℕ} (h : Queues ph s) (hbig : Big s.mbox maxBytes) :
    (recvLoop p maxBytes timer).wp False Never (Refused s.mbox.msgs) s := by
  have hout : ∀ s₁, SameBox s.mbox s₁.mbox → (mboxOut true >>= fun _ => pure MboxResult.tooBig).wp
      False Never (Refused s.mbox.msgs) s₁ := by
    intro s₁ hsame
    rw [mboxOut, wp_bind, wp_put, wp_get]
    exact wp_if (fun hnot => absurd (hsame.state.trans hbig.opened) hnot)
      fun _ => ⟨rfl, hsame.msgs, fun _ _ _ _ => rfl⟩
  obtain ⟨hopened, hslots, msg, rest, hmsgs, hlong⟩ := hbig
  rw [recvLoop, wp_get]
  refine wp_if (fun hzero => absurd hzero hslots.ne') fun _ => wp_check ⟨hopened, hslots⟩ ?_
  rw [recvPick, wp_bind, pickMsg, wp_get]
  refine wp_check ⟨hopened, hslots⟩ ?_
  rw [hmsgs] at hout ⊢
  show wp (if maxBytes < msg.bytes then _ else _) _ _ _ _
  rw [if_pos hlong]
  show (wakeupFirst .recv wtMboxRecv >>= _).wp _ _ _ _
  rw [wp_bind, wakeupFirst, wp_get]
  cases hqueue : s.mbox.queue .recv with
  | nil => exact hout s .refl
  | cons q l =>
    refine wp_mboxWakeupWait_rouse h ?_ (hout _ sameBox_rouse)
    rw [hqueue]
    exact .head _

theorem wp_mboxCall_big {timeout : ℕ} (h : Queues ph s) (hbig : Big s.mbox maxBytes) :
    (mboxCall p (.recv maxBytes) timeout).wp False Never (Refused s.mbox.msgs) s := by
  have hgo : ∀ s₁, Queues ph s₁ → s₁.mbox = s.mbox → ∀ timer, (recvLoop p maxBytes timer).wp False
      Never (Refused s.mbox.msgs) (s₁.setMbox { s₁.mbox with inuse := s₁.mbox.inuse + 1 }) := by
    intro s₁ h₁ hmbox timer
    rw [← hmbox] at hbig ⊢
    exact wp_recvLoop_big (h₁.setMbox rfl rfl) { hbig with }
  rw [mboxCall, wp_bind, mboxTimerInit]
  refine wp_if (fun _ => ?_) fun _ => hgo s h rfl none
  exact hgo (s.setSched (s.sched.initTimer p (some p) timeout)) { h with } rfl (some p)

theorem wp_mboxResume_big {timer : Option ℕ} (h : BoxInv ph 0 0 s) (hown : OwnTimers s.sched)
    (hbig : Big s.mbox maxBytes) (hp : (ph p).side = some .recv)
    (hwoken : s.wakeupFlags p = wtMboxRecv) :
    (mboxResume p (.recv maxBytes) timer).wp False Never (Refused s.mbox.msgs) s := by
  rw [wp_mboxResume]
  refine (wp_mboxDelTimer_same hown).imp ?_
  rintro _ s₁ ⟨hmbox, hflags, hproc⟩
  have h₁ : BoxInv ph 0 0 s₁ := h.sched hmbox hflags fun q _ => .inl (congrFun hproc q)
  rw [← hmbox] at hbig ⊢
  refine ⟨fun hnot => ?_, fun _ => ?_⟩
  · rcases hnot with hnot | hnot
    · exact absurd hbig.opened hnot
    · exact absurd (hflags ▸ hwoken) hnot
  · exact wp_recvLoop_big (h₁.toQueues.leave hp) { hbig with }

end TooBig

/-- What `load_msg` builds from any bytes, `store_msg` delivers, whatever else happened to other
blocks; a chain that cannot be finished is freed and nothing else. In every run of calls on a
mailbox, a receiver whose buffer is too small for the first message, at its call or when it was
woken up, gets `-E_TOO_BIG`, and the message stays. -/
theorem messages_arrive {driver : ℕ → ℕ → SchedM Unit} {s₀ s : Mailbox} {cs : List MboxCall}
    (hstart : s₀.Unopened) (hfresh : s₀.Fresh) (hrun : Run (Mailbox.Step driver) s₀ cs s) :
    (∀ (user : Bytes) (src len : ℕ) (b : Blocks), (loadMsg user src len).wp False Never (fun r b' =>
      (∀ x ∈ b.heap.live, Same b b' x) ∧ (r = none → b'.heap.live = b.heap.live) ∧
      ∀ msg, r = some msg → ∃ bs, b'.heap.live = bs ++ b.heap.live ∧ (∀ x ∈ bs, x ∉ b.heap.live) ∧
        ∀ t user' dst, (∀ x ∈ bs, Same b' t x) → (storeMsg user' msg dst).wp False Never
          (fun r _ => r = user'.write dst (user.read src len)) t) b) ∧
    ∀ p maxBytes msg rest, s.sys.mbox.state = .opened → s.sys.mbox.msgs = msg :: rest →
      maxBytes < msg.bytes → (∀ timeout, (mboxCall p (.recv maxBytes) timeout).wp False Never
        (Refused (msg :: rest)) s.sys) ∧
      ∀ c, s.phase p = .waiting (.recv maxBytes) c → s.sys.wakeupFlags p = wtMboxRecv →
        (mboxResume p (.recv maxBytes) (c.timer p)).wp False Never (Refused (msg :: rest))
          s.sys := by
  obtain ⟨h, hslots⟩ := hrun.invariant (I := fun s => s.Attended ∧ SlotsOk False s.sys.mbox)
    (fun _ _ _ h hstep => ⟨(hstep.attended h.1).1, hstep.slots nofun h.2⟩)
    ⟨hstart.attended, hfresh.slotsOk⟩
  refine ⟨fun _ _ _ _ => wp_loadMsg, fun p maxBytes msg rest hopened hmsgs hlong => ?_⟩
  have hbig : Big s.sys.mbox maxBytes := by
    refine ⟨hopened, ?_, msg, rest, hmsgs, hlong⟩
    rw [(hslots.opened hopened).1, hmsgs]
    exact Nat.succ_pos _
  rw [← hmsgs]
  refine ⟨fun _ => wp_mboxCall_big h.toQueues hbig, fun c hp hwoken => ?_⟩
  refine wp_mboxResume_big h.toBoxInv h.timers.own hbig ?_ hwoken
  rw [hp]
  rfl

/-- Every request for a block succeeds. -/
def unused : Blocks := ⟨⟨some, 0, []⟩, fun _ => [], fun _ => none, fun _ => 0⟩

/-- 500 bytes arrive through two blocks; a receiver with room for four bytes sleeps until a message
of nine is sent, and does not get it. -/
theorem messages_arrive_pieces :
    (∃ msg b', loadMsg UInt8.ofNat 0 500 unused = .done (some msg) b' ∧ b'.heap.live.length = 2 ∧
      ∀ user dst, ∃ t, storeMsg user msg dst b' =
        .done (user.write dst (Bytes.read UInt8.ofNat 0 500)) t) ∧
    ∃ s c, Run (Mailbox.Step fun _ _ => return ()) Mailbox.idleMailbox
        [.init 1, .call 2 (.recv 4) 0 .asleep, .call 1 (.send ⟨1, 9⟩) 0 .sent] s ∧
      s.phase 2 = .waiting (.recv 4) c ∧
      (mboxResume 2 (.recv 4) (c.timer 2)).wp False Never (Refused [⟨1, 9⟩]) s.sys := by
  have hrun : ∃ s c, Run (Mailbox.Step fun _ _ => return ()) Mailbox.idleMailbox
      [.init 1, .call 2 (.recv 4) 0 .asleep, .call 1 (.send ⟨1, 9⟩) 0 .sent] s ∧
      s.sys.mbox.state = .opened ∧ s.sys.mbox.msgs = [⟨1, 9⟩] ∧
      s.phase 2 = .waiting (.recv 4) c ∧ s.sys.wakeupFlags 2 = wtMboxRecv :=
    ⟨_, _, .cons ⟨rfl, by decide, by decide, _, rfl, rfl⟩ (.cons ⟨rfl, rfl, rfl, _, rfl, rfl⟩
      (.cons ⟨rfl, rfl, rfl, _, rfl, rfl⟩ (.nil _))), rfl, rfl, rfl, rfl⟩
  obtain ⟨s, c, hrun, hopened, hmsgs, hphase, hwoken⟩ := hrun
  obtain ⟨hload, hbig⟩ := messages_arrive Mailbox.unopened_idleMailbox
    Mailbox.fresh_idleMailbox hrun
  refine ⟨?_, s, c, hrun, hphase, (hbig 2 4 _ _ hopened hmsgs (by decide)).2 c hphase hwoken⟩
  have htwo : ((loadMsg UInt8.ofNat 0 500 unused).after.map fun b => b.heap.live.length) =
      some 2 := by
    decide +kernel
  obtain ⟨r, b', hdone, -, hnone, hsome⟩ := (hload UInt8.ofNat 0 500 unused).returns_done
  rw [hdone] at htwo
  have hlength : b'.heap.live.length = 2 := Option.some.inj htwo
  cases r with
  | none => cases (hnone rfl ▸ hlength : unused.heap.live.length = 2)
  | some msg =>
    obtain ⟨bs, -, -, hstore⟩ := hsome msg rfl
    refine ⟨msg, b', hdone, hlength, fun user dst => ?_⟩
    obtain ⟨r, t, hdone', rfl⟩ := (hstore b' user dst fun _ _ => ⟨rfl, rfl, rfl⟩).returns_done
    exact ⟨t, hdone'⟩

end Ucore.Sync
