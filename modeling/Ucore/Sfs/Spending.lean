import Ucore.Sfs.Rules
import Ucore.Sfs.Inode

/-!
# How many blocks a function takes

A bound on the free blocks that a function takes, read off its text: allocations
count one each and blocks that are given back are not counted.
-/

namespace Ucore.Sfs

open Kern

/-- `m` takes at most `n` free blocks, whether it succeeds or fails. -/
def Spends (n : ℕ) {α : Type} (m : K α) : Prop :=
  ∀ s, m.wp True (fun _ s' => s.unusedBlocks ≤ s'.unusedBlocks + n)
    (fun _ s' => s.unusedBlocks ≤ s'.unusedBlocks + n) s

namespace Spends

variable {α β : Type} {n m : ℕ} {c : K α}

theorem mono (h : Spends n c) (hnm : n ≤ m) : Spends m c := fun s =>
  (h s).mono (fun _ _ hs => hs.trans (by omega)) (fun _ _ hs => hs.trans (by omega))

theorem pure (a : α) : Spends 0 (Pure.pure a : K α) := fun _ => le_rfl

theorem bind {f : α → K β} (hc : Spends n c) (hf : ∀ a, Spends m (f a)) :
    Spends (n + m) (c >>= f) := fun s => by
  exact wp_seq ((hc s).mono (fun _ _ hs => by omega)
    (fun a s' hs => (hf a s').mono (fun _ _ hs' => by omega) (fun _ _ hs' => by omega)))

theorem ite {p : Prop} [Decidable p] {c' : K α} (hc : Spends n c) (hc' : Spends n c') :
    Spends n (if p then c else c') := by
  split
  · exact hc
  · exact hc'

theorem onError {cleanup : K Unit} (hc : Spends n c) (hcleanup : Spends 0 cleanup) :
    Spends n (c.onError cleanup) := fun s => by
  rw [wp_onError]
  exact (hc s).mono (fun _ _ hs => (hcleanup _).mono (fun _ _ hs' => by omega)
    (fun _ _ hs' => by omega)) (fun _ _ hs => hs)

theorem gets (f : Fs → α) : Spends 0 (gets f : K α) := fun _ => le_rfl

theorem throw (e : Err) : Spends 0 (throw e : K α) := fun _ => le_rfl

theorem stop (h : Halt) : Spends 0 (stop h : K α) := fun _ => trivial

theorem assert (p : Prop) [Decidable p] : Spends 0 (assert p : K Unit) := fun s => by
  rw [wp_assert]
  exact ⟨fun _ => le_rfl, fun _ => trivial⟩

theorem modify {f : Fs → Fs} (hf : ∀ s, s.unusedBlocks ≤ (f s).unusedBlocks + n) :
    Spends n (modify f : K Unit) := hf

theorem getSin (ino : ℕ) : Spends 0 (Sfs.getSin ino) := fun _ =>
  wp_getSin_of (fun _ _ => le_rfl) (fun _ => trivial)

theorem modifySin (ino : ℕ) (f : SfsInode → SfsInode) : Spends 0 (Sfs.modifySin ino f) :=
  modify fun _ => le_rfl

theorem readBlock (φ : Faults) (b : ℕ) : Spends 0 (sfsReadBlockNolock φ b) :=
  bind (gets _) fun _ => bind (assert _) fun _ => ite (throw _) (gets _)

theorem writeBlock (φ : Faults) (b : ℕ) (d : Bytes) : Spends 0 (sfsWriteBlockNolock φ b d) :=
  bind (m := 0) (gets _) fun _ => bind (m := 0) (assert _) fun _ =>
    ite (throw _) (modify fun _ => le_rfl)

theorem rbuf (φ : Faults) (len b off : ℕ) : Spends 0 (sfsRbuf φ len b off) :=
  bind (assert _) fun _ => bind (readBlock _ _) fun _ => pure _

theorem wbuf (φ : Faults) (data : List UInt8) (b off : ℕ) : Spends 0 (sfsWbuf φ data b off) :=
  bind (assert _) fun _ => bind (readBlock _ _) fun _ => writeBlock _ _ _

theorem bitmapTest (i : ℕ) : Spends 0 (Sfs.bitmapTest i) :=
  bind (gets _) fun _ => bind (assert _) fun _ => gets _

theorem assertInuse (b : ℕ) : Spends 0 (Sfs.assertInuse b) :=
  bind (bind (gets _) fun _ =>
    ite (bind (bitmapTest _) fun _ => pure _) (stop _)) fun _ => assert _

theorem bitmapAlloc : Spends 0 Sfs.bitmapAlloc :=
  bind (m := 0) (gets _) fun _ _ => wp_bitmapScan (fun _ _ => le_rfl) (fun _ => le_rfl)

theorem blockAlloc (φ : Faults) : Spends 1 (sfsBlockAlloc φ) :=
  bind bitmapAlloc fun _ => bind (gets _) fun _ =>
    bind (assert _) fun _ =>
    bind (n := 1) (modify fun s => by simp only; omega) fun _ =>
      bind (assertInuse _) fun _ =>
        bind (bind (writeBlock _ _ _) fun _ => pure _) fun _ => pure _

theorem blockFree (b : ℕ) : Spends 0 (sfsBlockFree b) :=
  bind (m := 0) (assertInuse _) fun _ =>
    bind (m := 0) (bind (m := 0) (bitmapTest _) fun _ => bind (m := 0) (assert _) fun _ =>
      modify fun _ => le_rfl) fun _ => modify fun _ => by simp only; omega

theorem bmapFill (φ : Faults) (entp ent j : ℕ) : Spends 1 (sfsBmapFillNolock φ entp ent j) :=
  onError (bind (blockAlloc _) fun _ =>
      bind (onError (wbuf _ _ _ _) (blockFree _)) fun _ => pure _)
    (ite (blockFree _) (pure _))

theorem bmapGetSub (φ : Faults) (entp j : ℕ) (create : Bool) :
    Spends 2 (sfsBmapGetSubNolock φ entp j create) :=
  bind (assert _) fun _ => ite
    ((bind (rbuf _ _ _ _) fun _ => ite ((pure _).mono (Nat.zero_le 1)) (bmapFill _ _ _ _)).mono
      (by omega))
    (ite ((pure _).mono (Nat.zero_le 2)) (bind (blockAlloc _) fun _ => bmapFill _ _ _ _))

theorem bmapOut (blk : ℕ) : Spends 0 (sfsBmapOut blk) := by
  unfold sfsBmapOut
  split
  · exact bind (assertInuse _) fun _ => pure _
  · exact pure _

theorem bmapGet (φ : Faults) (ino index : ℕ) (create : Bool) :
    Spends 4 (sfsBmapGetNolock φ ino index create) := by
  refine bind (m := 4) (getSin _) fun sin => ?_
  split
  · refine ite ?_ ((bmapOut _).mono (by omega))
    exact (bind (blockAlloc _) fun _ =>
      bind (modifySin _ _) fun _ => bmapOut _).mono (by omega)
  split
  · refine (bind (m := 0) (bmapGetSub _ _ _ _) fun r => ?_).mono (show 2 ≤ 4 by omega)
    dsimp only
    split
    · exact bind (assert _) fun _ => bind (modifySin _ _) fun _ => bmapOut _
    · exact bmapOut _
  · refine bind (m := 2) (bmapGetSub _ _ _ _) fun r => ?_
    dsimp only
    have hlast : ∀ second j, Spends 2 (if second ≠ 0 then do
          let r ← sfsBmapGetSubNolock (φ.at .sub2) second j create
          sfsBmapOut r.2
        else sfsBmapOut second) := fun second j =>
      ite (bind (bmapGetSub _ _ _ _) fun _ => bmapOut _) ((bmapOut _).mono (by omega))
    split
    · exact bind (assert _) fun _ =>
        bind (modifySin _ _) fun _ => hlast _ _
    · exact hlast _ _

theorem bmapLoad (φ : Faults) (ino index : ℕ) : Spends 4 (sfsBmapLoadNolock φ ino index) := by
  refine bind (getSin _) fun sin => bind (assert _) fun _ =>
    bind (bmapGet _ _ _ _) fun _ => bind (m := 0) (assertInuse _) fun _ => ?_
  split
  · exact bind (modifySin _ _) fun _ => pure _
  · exact pure _

end Spends

end Ucore.Sfs
