import Ucore.Lib.Runs
import Ucore.Threads.Model

/-!
# The calls as programs

Each entry point of SFS as a program: its `down` and `up` of every semaphore in the order of
the source, the references it takes and drops, and its changes of the links. The argument
`k` of a function is the rest of its caller.
-/

namespace Ucore.Threads

open Function

/-- So many transfers, each inside `lock_sfs_io`. -/
def transfer : ℕ → Prog → Prog
  | 0, k => k
  | n + 1, k => .down .io (.up .io (transfer n k))

/-- The reads and writes of blocks in a stretch of the source. -/
def transfers (k : Prog) : Prog := .choose fun n => transfer n k

/-- `trylock_sin`, and whether it succeeds. -/
def trylockSin (n : ℕ) (k : Bool → Prog) : Prog :=
  .isRemoved n fun removed =>
    if removed then k false
    else .down (.sem n) <| .isRemoved n fun removed =>
      if removed then .up (.sem n) (k false) else k true

/-- `unlock_sin`. -/
def unlockSin (n : ℕ) (k : Prog) : Prog := .up (.sem n) k

/-- `sfs_load_inode`. Its assertions on the disk inode do not stop the program. -/
def sfsLoadInode (ino : ℕ) (k : Option ℕ → Prog) : Prog :=
  .down .fs <| .lookup ino fun
    | some n => .up .fs (k (some n))
    | none => transfers <| .choose fun failed =>
        if failed = 0 then .up .fs (k none)
        else .install ino fun n => .up .fs (k (some n))

/-- `sfs_fsync`, and whether it succeeds. -/
def sfsFsync (n : ℕ) (k : Bool → Prog) : Prog :=
  .choose fun clean =>
    if clean = 0 then k true
    else trylockSin n fun
      | true => transfers <| .choose fun failed => unlockSin n (k (failed ≠ 0))
      | false => k false

/-- `sfs_reclaim`. -/
def sfsReclaim (n : ℕ) (k : Prog) : Prog :=
  .down .fs <| .reclaimDec n fun
    | true => .choose fun dirty =>
        if dirty = 0 then transfers finish
        else sfsFsync n fun
          | true => finish
          | false => .up .fs k
    | false => .up .fs k
where
  /-- Behind the fields of the inode. -/
  finish : Prog := .removeLinks n fun
    | true => .up .fs <| .freeIno n <| transfers <| .kill n k
    | false => .up .fs <| .kill n k

/-- `vop_ref_dec`. -/
def vopRefDec (n : ℕ) (k : Prog) : Prog :=
  .refDec n fun
    | true => sfsReclaim n k
    | false => k

/-- `sfs_dirent_create_inode`. -/
def sfsDirentCreateInode (isDir : Bool) (k : Option ℕ → Prog) : Prog :=
  transfers <| .choose fun failed =>
    if failed = 0 then k none
    else .alloc isDir fun n => .down .fs <| .setLinks n <| .up .fs (k (some n))

/-- The write of an entry, and the edit behind it if it succeeds. -/
def writeEntry (e : Edit) (n m : ℕ) (k : Bool → Prog) : Prog :=
  transfers <| .choose fun failed => if failed = 0 then k false else .edit e n m (k true)

/-- `sfs_dirent_search_nolock`, with its reads. -/
def sfsDirentSearchNolock (n : ℕ) (k : Option ℕ → Prog) : Prog := transfers (.search n k)

/-- `sfs_create`. -/
def sfsCreate (n : ℕ) : Prog :=
  trylockSin n fun
    | false => .ret
    | true => sfsDirentSearchNolock n fun
        | some ino => .choose fun excl =>
            if excl = 0 then unlockSin n .ret
            else sfsLoadInode ino fun
              | none => unlockSin n .ret
              | some m => .isDir m fun
                  | true => vopRefDec m (unlockSin n .ret)
                  | false => unlockSin n .ret
        | none => .choose fun failed =>
            if failed = 0 then unlockSin n .ret
            else sfsDirentCreateInode false fun
              | none => unlockSin n .ret
              | some m => writeEntry .link n m fun
                  | true => unlockSin n .ret
                  | false => vopRefDec m (unlockSin n .ret)

/-- `sfs_mkdir`. -/
def sfsMkdir (n : ℕ) : Prog :=
  trylockSin n fun
    | false => .ret
    | true => sfsDirentSearchNolock n fun
        | some _ => unlockSin n .ret
        | none => .choose fun failed =>
            if failed = 0 then unlockSin n .ret
            else sfsDirentCreateInode true fun
              | none => unlockSin n .ret
              | some m => writeEntry .mkdir n m fun _ => vopRefDec m (unlockSin n .ret)

/-- `sfs_link`, which refuses directories. -/
def sfsLink (n m : ℕ) : Prog :=
  .isDir m fun
    | true => .ret
    | false => trylockSin n fun
        | false => .ret
        | true => sfsDirentSearchNolock n fun
            | some _ => unlockSin n .ret
            | none => .choose fun failed =>
                if failed = 0 then unlockSin n .ret
                else writeEntry .link n m fun _ => unlockSin n .ret

/-- `sfs_unlink`. -/
def sfsUnlink (n : ℕ) : Prog :=
  .down .mutex <| trylockSin n fun
    | false => .up .mutex .ret
    | true => sfsDirentSearchNolock n fun
        | none => done
        | some ino => sfsLoadInode ino fun
            | none => done
            | some m => .isDir m fun
                | false => writeEntry .unlink n m fun _ => vopRefDec m done
                | true => trylockSin m fun
                    | false => vopRefDec m done
                    | true => .isEmpty m fun
                        | false => unlockSin m (vopRefDec m done)
                        | true => writeEntry .rmdir n m fun _ => unlockSin m (vopRefDec m done)
where
  /-- The end of the call. -/
  done : Prog := unlockSin n (.up .mutex .ret)

/-- `sfs_rename2_nolock`. -/
def sfsRename2Nolock (n n' : ℕ) (k : Prog) : Prog :=
  sfsDirentSearchNolock n fun
    | none => k
    | some ino => sfsDirentSearchNolock n' fun
        | some _ => k
        | none => .choose fun failed =>
            if failed = 0 then k
            else sfsLoadInode ino fun
              | none => k
              | some m => .isDir m fun
                  | false => move .unlink .link .link m
                  | true => move .moveOut .moveIn .moveBack m
where
  /-- The entry of `m` leaves `n` and enters `n'`, or `n` again. -/
  move (out into back : Edit) (m : ℕ) : Prog :=
    writeEntry out n m fun
      | false => vopRefDec m k
      | true => writeEntry into n' m fun
          | true => vopRefDec m k
          | false => writeEntry back n m fun _ => vopRefDec m k

/-- `sfs_rename`. -/
def sfsRename (n n' : ℕ) : Prog :=
  .down .mutex <| trylockSin n fun
    | false => .up .mutex .ret
    | true =>
      -- `sfs_rename1_nolock` changes a name only
      if n = n' then transfers done
      else trylockSin n' fun
        | false => done
        | true => sfsRename2Nolock n n' (unlockSin n' done)
where
  /-- The end of the call. -/
  done : Prog := unlockSin n (.up .mutex .ret)

/-- The components of a path in `sfs_lookup` that are left at the directory `n`. -/
def lookupFrom : ℕ → ℕ → Prog
  | n, 0 => .choose fun failed => if failed = 0 then vopRefDec n .ret else .ret
  | n, components + 1 => .isDir n fun
      | false => vopRefDec n .ret
      | true => .choose fun component =>
          if component = 0 then
            .getParent n fun ino => sfsLoadInode ino fun
              | none => vopRefDec n .ret
              | some m => vopRefDec n (lookupFrom m components)
          else trylockSin n fun
            | false => vopRefDec n .ret
            | true => sfsDirentSearchNolock n fun
                | none => unlockSin n (vopRefDec n .ret)
                | some ino => unlockSin n <| sfsLoadInode ino fun
                    | none => vopRefDec n .ret
                    | some m => vopRefDec n (lookupFrom m components)

/-- The parents in `sfs_namefile` that are left at the directory `n`. -/
def namefileFrom : ℕ → ℕ → Prog
  | n, 0 => vopRefDec n .ret
  | n, parents + 1 => .getParent n fun ino => sfsLoadInode ino fun
      | none => vopRefDec n .ret
      | some m => vopRefDec n <| trylockSin m fun
          | false => vopRefDec m .ret
          | true => transfers <| unlockSin m <| .choose fun failed =>
              if failed = 0 then vopRefDec m .ret else namefileFrom m parents

/-- The inodes of the inode list that are left in `sfs_sync`. -/
def syncFrom : ℕ → Prog → Prog
  | 0, k => k
  | inodes + 1, k => .listNext fun n => sfsFsync n fun _ => syncFrom inodes k

/-- `sfs_sync`. -/
def sfsSync : Prog :=
  .down .fs <| .choose fun inodes => syncFrom inodes <| .up .fs <| transfers .ret

/-- Transfers under the semaphore of the inode, behind checks that may end the call. -/
def sfsReadWrite (n : ℕ) : Prog :=
  .choose fun early =>
    if early = 0 then .ret
    else trylockSin n fun
      | false => .ret
      | true => transfers (unlockSin n .ret)

/-- The program of a call. -/
def Call.prog : Call → Prog
  | load ino => sfsLoadInode ino fun _ => .ret
  | refInc n => .refInc n .ret
  | refDec n => vopRefDec n .ret
  | readWrite n => sfsReadWrite n
  | fsync n => sfsFsync n fun _ => .ret
  | lookup n components => .refInc n (lookupFrom n components)
  | namefile n parents => .refInc n (namefileFrom n parents)
  | getdirentry n => sfsReadWrite n
  | create n => sfsCreate n
  | mkdir n => sfsMkdir n
  | link n m => sfsLink n m
  | unlink n => sfsUnlink n
  | rename n m => sfsRename n m
  | sync => sfsSync

/-! ## Runs of several threads -/

/-- One step of the whole system. -/
inductive Event (T : Type)
  /-- The thread `t`, between two calls, calls `c`. -/
  | call (t : T) (c : Call)
  /-- The thread `t` makes its next operation, with the choice `c`. -/
  | op (t : T) (c : ℕ)
  /-- The thread `t` leaves a reference to `u`, both between two calls. -/
  | give (t u : T) (n : ℕ)

variable {T : Type} [DecidableEq T]

/-- The thread is between two calls. -/
def Sys.Idle (s : Sys T) (t : T) : Prop := s.prog t = .ret

/-- The system after an event, where it can happen. A call is made on nodes that the
thread refers to. -/
inductive SysStep : Sys T → Event T → Sys T → Prop
  | call {s : Sys T} {t : T} {c : Call} (hidle : s.Idle t)
      (hnodes : ∀ n ∈ c.nodes, 0 < s.held t n) :
      SysStep s (.call t c) { s.goto t c.prog with call := update s.call t c }
  | op {s s' : Sys T} {t : T} {c : ℕ} (hstep : s.step t c = some s') : SysStep s (.op t c) s'
  | give {s : Sys T} {t u : T} {n : ℕ} (hidle : s.Idle t) (hidle' : s.Idle u)
      (hheld : 0 < s.held t n) :
      SysStep s (.give t u n) ((s.setHeld t n (s.held t n - 1)).setHeld u n
        ((s.setHeld t n (s.held t n - 1)).held u n + 1))

/-- The same as a function. -/
def Sys.after (s : Sys T) : Event T → Option (Sys T)
  | .call t c =>
    match s.prog t with
    | .ret =>
      if ∀ n ∈ c.nodes, 0 < s.held t n then
        some { s.goto t c.prog with call := update s.call t c }
      else none
    | _ => none
  | .op t c => s.step t c
  | .give t u n =>
    match s.prog t, s.prog u with
    | .ret, .ret =>
      if 0 < s.held t n then
        some ((s.setHeld t n (s.held t n - 1)).setHeld u n
          ((s.setHeld t n (s.held t n - 1)).held u n + 1))
      else none
    | _, _ => none

theorem SysStep.of_after {s s' : Sys T} {e : Event T} (h : s.after e = some s') :
    SysStep s e s' := by
  cases e with
  | call t c =>
    simp only [Sys.after] at h
    split at h
    · next hidle =>
      split at h
      · next hnodes =>
        cases h
        exact .call hidle hnodes
      · cases h
    · cases h
  | op t c => exact .op h
  | give t u n =>
    simp only [Sys.after] at h
    split at h
    · next hidle hidle' =>
      split at h
      · next hheld =>
        cases h
        exact .give hidle hidle' hheld
      · cases h
    · cases h

/-- The system after a list of events. -/
def Sys.exec (s : Sys T) (es : List (Event T)) : Option (Sys T) :=
  es.foldlM Sys.after s

/-- What the function computes is a run, of every relation that its steps belong to. -/
theorem Run.of_exec {step : Sys T → Event T → Sys T → Prop} {s s' : Sys T}
    {es : List (Event T)} (hstep : ∀ s e s', e ∈ es → SysStep s e s' → step s e s')
    (h : s.exec es = some s') : Run step s es s' := by
  induction es generalizing s with
  | nil =>
    cases h
    exact .nil _
  | cons e es ih =>
    obtain ⟨s₁, hs₁, hrest⟩ := Option.bind_eq_some_iff.mp h
    refine .cons (hstep _ _ _ (by simp) (.of_after hs₁)) (ih ?_ hrest)
    exact fun s e s' he => hstep s e s' (by simp [he])

/-- The file system right after the mount: no inode in memory, and no thread in a call. -/
structure Sys.Mounted (s : Sys T) : Prop where
  node : ∀ n, s.node n = none
  owner : ∀ l, s.owner l = none
  held : ∀ t n, s.held t n = 0
  task : ∀ t, s.task t = .none
  idle : ∀ t, s.Idle t

/-- A mounted file system of `blocks` blocks, with an empty root directory. -/
def Sys.mount (T : Type) (blocks : ℕ) : Sys T where
  node _ := none
  removed _ := false
  next := 0
  blocks := blocks
  links := update (fun _ => none) 1 (some ⟨true, 2, [], 1, true, true⟩)
  owner _ := none
  held _ _ := 0
  task _ := .none
  call _ := .sync
  prog _ := .ret

omit [DecidableEq T] in
theorem Sys.mounted_mount {blocks : ℕ} : (Sys.mount T blocks).Mounted :=
  ⟨fun _ => rfl, fun _ => rfl, fun _ _ => rfl, fun _ => rfl, fun _ => rfl⟩

end Ucore.Threads
