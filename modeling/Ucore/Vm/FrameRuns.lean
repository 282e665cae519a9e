import Ucore.Vm.Faults

/-!
# Reference counts of pages

Any sequence of page faults, insertions and removals of pages, unmapped and copied ranges, and
changes of shared memories, over any number of page directories. A page counts the slots of
page tables and shared memories that name it, and is freed with the last of them. The one call
that breaks this is `shmem_insert_entry` with the entry that is already there: the page is freed
with its last reference before it gets the new one.
-/

namespace Ucore.Vm

open Kern Function

/-- Memory, and the pages that the kernel has allocated and not yet given to a slot. -/
structure Frames where
  mem : Mem
  hand : Finset ℕ

inductive FrameCall where
  /-- `alloc_page` by some part of the kernel, and `free_page`. -/
  | alloc (f : ℕ)
  | free (f : ℕ)
  /-- A page is marked with `PG_IO`. -/
  | setIo (f : ℕ)
  /-- `do_pgfault` in an area that allows the access. -/
  | fault (d : ℕ) (v : Vma) (e : FaultCode) (la : ℕ)
  | insert (d page la : ℕ) (perm : Perm)
  | remove (d la : ℕ)
  | unmap (d start fin : ℕ)
  | copy (dst src start fin : ℕ) (share : Bool)
  | shmemCreate (m len : ℕ)
  | getEntry (m addr : ℕ) (create : Bool)
  | insertEntry (m addr : ℕ) (entry : Pte)
  | shmemDestroy (m : ℕ)

namespace FrameCall

/-- The code of a call. -/
def code : FrameCall → MemM Unit
  | alloc _ => allocPage >>= fun _ => pure ()
  | free f => freePage f
  | setIo f => modify fun s => { s with io := update s.io f true }
  | fault d v e la => Vm.fault d v e la
  | insert d page la perm => pageInsert d page la perm
  | remove d la => pageRemove d la
  | unmap d start fin => unmapRange d start fin
  | copy dst src start fin share => copyRange dst src start fin share
  | shmemCreate m len => Vm.shmemCreate m len
  | getEntry m addr create => shmemGetEntry m addr create >>= fun _ => pure ()
  | insertEntry m addr entry => shmemInsertEntry m addr entry
  | shmemDestroy m => Vm.shmemDestroy m

/-- What the caller has to see to: a page that it gives away is in use and not a table, a new
directory is not the old one, and a new shared memory was not in use. -/
def Enabled (s : Frames) : FrameCall → Prop
  | alloc f => f ∉ s.mem.heap.live ∧ s.mem.heap.proposal s.mem.heap.clock = some f
  | free f => f ∈ s.hand
  | setIo f => f ∈ s.hand
  | insert _ page _ _ => page ∈ s.mem.heap.live ∧ ¬s.mem.IsTable page
  | copy dst src _ _ _ => dst ≠ src
  | shmemCreate m _ => (s.mem.shmem m).nodes = []
  | insertEntry _ _ entry => ∀ f ∈ entry.frame?, f ∈ s.mem.heap.live ∧ ¬s.mem.IsTable f
  | _ => True

/-- The pages in the hand after a call that has returned 0. -/
def handAfter (hand : Finset ℕ) : FrameCall → Finset ℕ
  | alloc f => Insert.insert f hand
  | free f => hand.erase f
  | insert _ page _ _ => hand.erase page
  | insertEntry _ _ entry => entry.frame?.elim hand hand.erase
  | _ => hand

/-- A shared memory gets an entry whose page does not depend on the entry that it replaces. -/
def Fresh (s : Frames) : FrameCall → Prop
  | insertEntry m addr entry => ∀ f ∈ entry.frame?, s.mem.names (shSlot m addr) = some f →
      ∃ y, y ≠ shSlot m addr ∧ s.mem.names y = some f
  | _ => True

end FrameCall

/-- One call that returns, with 0 or with an error. -/
def FrameStep (s : Frames) (c : FrameCall) (s' : Frames) : Prop :=
  c.Enabled s ∧ (c.code s.mem = .done () s'.mem ∧ s'.hand = c.handAfter s.hand ∨
    ∃ e, e ≠ .nullAccess ∧ c.code s.mem = .fail e s'.mem ∧ s'.hand = s.hand)

/-- A call that does not put back the only reference to a page. -/
def FreshStep (s : Frames) (c : FrameCall) (s' : Frames) : Prop := FrameStep s c s' ∧ c.Fresh s

variable {s s' : Frames} {c : FrameCall}

theorem MemOk.setIo {hand : Finset ℕ} {s : Mem} {f : ℕ} (h : MemOk hand s) (hf : f ∈ hand) :
    MemOk hand { s with io := update s.io f true } :=
  .of_ledger (h.ledger.pin (h.hand_live hf).1) h.inj h.bounded h.shares

section

variable {hand : Finset ℕ} {s : Mem} {E : Err → Mem → Prop} {Q : Unit → Mem → Prop}

/-- `unmap_range` and `copy_range` do not return for a range that they do not accept. -/
theorem wp_checkedRange {start fin : ℕ} {body code : MemM Unit} (hcode : code = do
      assert (start % pgSize = 0 ∧ fin % pgSize = 0)
      assert (UserAccess start fin)
      body)
    (hwp : start % pgSize = 0 → fin % pgSize = 0 → UserAccess start fin → code.wp True E Q s) :
    code.wp True E Q s := by
  by_cases halign : start % pgSize = 0 ∧ fin % pgSize = 0
  · by_cases haccess : UserAccess start fin
    · exact hwp halign.1 halign.2 haccess
    · rw [hcode]
      refine wp_check halign ?_
      exact wp_assume trivial fun h => absurd h haccess
  · rw [hcode]
    exact wp_assume trivial fun h => absurd h halign

end

/-- A call that returns keeps the counts, if it does not put back the only reference to a
page. -/
theorem FrameCall.wp_code (h : MemOk s.hand s.mem) (henabled : c.Enabled s) (hfresh : c.Fresh s) :
    c.code.wp True (fun e m => e ≠ .nullAccess → MemOk s.hand m)
      (fun _ m => MemOk (c.handAfter s.hand) m) s.mem := by
  cases c with
  | alloc f =>
    obtain ⟨hf, hproposal⟩ := henabled
    have halloc : Heap.alloc s.mem.heap = (.done (some f) { s.mem.heap with
        clock := s.mem.heap.clock + 1, live := f :: s.mem.heap.live } :
        Outcome Err (Heap ℕ) (Option ℕ)) := by
      rw [Heap.alloc, hproposal, Option.filter_some, if_pos (by simpa using hf)]
    show (allocPage >>= fun _ => pure ()).wp _ _ _ s.mem
    rw [wp_bind, allocPage, wp_zoom, wp, halloc]
    exact h.alloc hf rfl
  | free f =>
    exact h.free (fun x hx => (h.named hx).2.2 henabled) (h.hand_live henabled).2
  | setIo f => exact h.setIo henabled
  | fault d v e la =>
    exact wp_fault h (.inl trivial) (fun _ _ _ _ _ _ => absurd rfl)
      (fun m hm _ _ => hm) fun m f hm _ => hm
  | insert d page la perm =>
    exact wp_pageInsert h henabled.1 henabled.2 (fun m hm _ _ _ => hm) fun m hm _ => hm
  | remove d la => exact wp_pageRemove h fun m hm => hm
  | unmap d start fin =>
    refine wp_checkedRange rfl fun hstart hfin haccess => ?_
    exact wp_unmapRange h hstart hfin haccess fun m hm _ => hm
  | copy dst src start fin share =>
    refine wp_checkedRange rfl fun hstart hfin haccess => ?_
    exact wp_copyRange h henabled hstart hfin haccess (.inl trivial) (fun m _ hm _ _ _ _ => hm)
      fun m hm _ => hm
  | shmemCreate m len => exact h.shmemCreate m len henabled
  | getEntry m addr create =>
    show (shmemGetEntry m addr create >>= fun _ => pure ()).wp _ _ _ s.mem
    exact wp_seq (wp_shmemGetEntry h (.inl trivial) (fun m hm _ => hm) fun m t hm _ => hm)
  | insertEntry m addr entry =>
    refine wp_shmemInsertEntry h (.inl trivial) (fun f hf => ?_) (fun m hm _ => hm) fun m hm => hm
    obtain ⟨hlive, htable⟩ := henabled f hf
    exact ⟨hlive, htable, hfresh f hf⟩
  | shmemDestroy m => exact wp_shmemDestroy h fun m hm _ _ _ _ => hm

theorem FreshStep.inv (hstep : FreshStep s c s') (h : MemOk s.hand s.mem) :
    MemOk s'.hand s'.mem := by
  obtain ⟨⟨henabled, hcall⟩, hfresh⟩ := hstep
  have hwp := c.wp_code h henabled hfresh
  rcases hcall with ⟨hcall, hhand⟩ | ⟨e, he, hcall, hhand⟩
  · rw [hhand]
    exact hwp.of_done hcall
  · rw [hhand]
    exact hwp.of_fail hcall he

/-- After any sequence of calls that do not put back the only reference to a page: a page that is
not a table counts the slots of page tables and shared memories that name it, every page that a
slot names is in use, and every page in use is named by a slot, unless it is a table, marked for
IO or still in the hand of the kernel. -/
theorem frame_counts {s₀ : Frames} {cs : List FrameCall} (hboot : s₀.mem.Fresh)
    (hhand : s₀.hand = ∅) (hrun : Run FreshStep s₀ cs s) :
    (∀ f, ¬s.mem.IsTable f → ∃ n : ℕ, Counts s.mem.names f n ∧ s.mem.ref f = n) ∧
    (∀ x f, s.mem.names x = some f → f ∈ s.mem.heap.live ∧ ¬s.mem.IsTable f ∧ f ∉ s.hand) ∧
    ∀ f ∈ s.mem.heap.live, s.mem.io f = false → f ∉ s.hand → ¬s.mem.IsTable f →
      ∃ x, s.mem.names x = some f := by
  have hinit : MemOk s₀.hand s₀.mem := by
    rw [hhand]
    exact hboot.memOk
  have h : MemOk s.hand s.mem :=
    hrun.invariant (I := fun s => MemOk s.hand s.mem) (fun _ _ _ h hstep => hstep.inv h) hinit
  refine ⟨fun f => h.counts, fun x f => h.named, fun f hlive hio hnot htable => ?_⟩
  exact ((h.owned hlive hio).resolve_left hnot).resolve_left htable

/-- No page is used. -/
def freeFrames : Frames := ⟨emptyMem, ∅⟩

/-- A shared memory has been created. -/
def newShared : Frames := ⟨((FrameCall.shmemCreate 0 0x1000).code emptyMem).after.get rfl, ∅⟩

/-- It has got its first page. -/
def sharedFrames : Frames := ⟨((FrameCall.getEntry 0 0 true).code newShared.mem).after.get rfl, ∅⟩

theorem create_step : FreshStep freeFrames (.shmemCreate 0 0x1000) newShared :=
  ⟨⟨rfl, .inl ⟨rfl, rfl⟩⟩, trivial⟩

theorem getEntry_step : FreshStep newShared (.getEntry 0 0 true) sharedFrames :=
  ⟨⟨trivial, .inl ⟨rfl, rfl⟩⟩, trivial⟩

/-- The page of the shared memory is in use, and it is not a table. -/
theorem live_sharedFrames : 1 ∈ sharedFrames.mem.heap.live ∧ ¬sharedFrames.mem.IsTable 1 := by
  have h : MemOk ∅ sharedFrames.mem := getEntry_step.inv (create_step.inv fresh_emptyMem.memOk)
  have hnames : sharedFrames.mem.names (shSlot 0 0) = some 1 := rfl
  obtain ⟨hlive, htable, -⟩ := h.named hnames
  exact ⟨hlive, htable⟩

/-- The page of the shared memory is mapped in a directory, and counted twice. -/
theorem frame_counts_shared : ∃ s,
    Run FreshStep freeFrames [.shmemCreate 0 0x1000, .getEntry 0 0 true,
      .insert 3 1 0x30000000 ⟨true, true⟩] s ∧
      ∃ n : ℕ, Counts s.mem.names 1 n ∧ s.mem.ref 1 = n ∧ s.mem.ref 1 = 2 := by
  obtain ⟨m, hinsert, href, hname⟩ : ∃ m,
      pageInsert 3 1 0x30000000 ⟨true, true⟩ sharedFrames.mem = .done () m ∧ m.ref 1 = 2 ∧
        m.names (shSlot 0 0) = some 1 := ⟨_, rfl, rfl, rfl⟩
  have hlast : FreshStep sharedFrames (.insert 3 1 0x30000000 ⟨true, true⟩) ⟨m, ∅⟩ :=
    ⟨⟨live_sharedFrames, .inl ⟨hinsert, rfl⟩⟩, trivial⟩
  have hrun := Run.cons create_step (.cons getEntry_step (.cons hlast (.nil _)))
  obtain ⟨hcounts, hnamed, -⟩ := frame_counts fresh_emptyMem rfl hrun
  obtain ⟨n, hn, hcount⟩ := hcounts 1 (hnamed _ 1 hname).2.1
  exact ⟨_, hrun, n, hn, hcount, href⟩

/-- The entry of the shared memory is put back: its page is freed, and the entry names it. -/
theorem frame_freed_and_named : ∃ s,
    Run FrameStep freeFrames [.shmemCreate 0 0x1000, .getEntry 0 0 true,
      .insertEntry 0 0 (.page 1 .r)] s ∧
      s.mem.names (shSlot 0 0) = some 1 ∧ 1 ∉ s.mem.heap.live := by
  obtain ⟨m, hinsert, hname, hfreed⟩ : ∃ m,
      shmemInsertEntry 0 0 (.page 1 .r) sharedFrames.mem = .done () m ∧
        m.names (shSlot 0 0) = some 1 ∧ m.heap.live = [0] := ⟨_, rfl, rfl, rfl⟩
  have hlast : FrameStep sharedFrames (.insertEntry 0 0 (.page 1 .r)) ⟨m, ∅⟩ := by
    refine ⟨fun f hf => ?_, .inl ⟨hinsert, rfl⟩⟩
    cases hf
    exact live_sharedFrames
  refine ⟨_, .cons create_step.1 (.cons getEntry_step.1 (.cons hlast (.nil _))), hname, ?_⟩
  rw [hfreed]
  simp

end Ucore.Vm
