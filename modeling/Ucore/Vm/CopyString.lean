import Ucore.Vm.UserAccess

/-!
# Strings from user memory

`copy_string`, which copies a string page by page. A page is looked at only after
`user_mem_check` has accepted the part of it that is needed. `byte` gives what a load of the kernel
at a user address returns.
-/

namespace Ucore.Vm

open Kern List

/-- What has been copied, and the user addresses that were read. -/
structure StringCopy where
  /-- The bytes from `dst` on. -/
  dst : List UInt8
  reads : List ℕ

/-- `strnlen`: the bytes before the first zero, at most so many. -/
def strnlen (byte : ℕ → UInt8) (src : ℕ) : ℕ → ℕ
  | 0 => 0
  | n + 1 => if byte src = 0 then 0 else strnlen byte (src + 1) n + 1

/-- The loads of `strnlen`, which reads the zero too. -/
def StringCopy.scan (c : StringCopy) (byte : ℕ → UInt8) (src n : ℕ) : StringCopy :=
  { c with reads := c.reads ++ List.range' src (min (strnlen byte src n + 1) n) }

/-- `memcpy` to the end of what has been copied. -/
def StringCopy.memcpy (c : StringCopy) (byte : ℕ → UInt8) (src n : ℕ) : StringCopy :=
  ⟨c.dst ++ (List.range' src n).map byte, c.reads ++ List.range' src n⟩

/-- The loop of `copy_string`, where `load` makes the loads from user memory. -/
def copyStringFrom (load : List ℕ → SpacesM Unit) (d : ℕ) (byte : ℕ → UInt8) :
    ℕ → ℕ → ℕ → ℕ → StringCopy → SpacesM (Bool × StringCopy)
  | 0, _, _, _, _ => stop .running
  | fuel + 1, src, part, maxn, c => do
    let part := if part > maxn then maxn else part
    let ok ← userMemCheck d src part false
    if ok = true then do
      let c := c.scan byte src part
      let alen := strnlen byte src part
      load (range' src (min (alen + 1) part))
      if alen < part then do
        load (range' src (alen + 1))
        return (true, c.memcpy byte src (alen + 1))
      else if part = maxn then return (false, c)
      else do
        load (range' src part)
        copyStringFrom load d byte fuel ((src + part) % 2 ^ 32) pgSize (maxn - part)
          (c.memcpy byte src part)
    else return (false, c)

/-- `copy_string`; the end of the first page may wrap. -/
def copyStringWith (load : List ℕ → SpacesM Unit) (d : ℕ) (byte : ℕ → UInt8) (src maxn : ℕ) :
    SpacesM (Bool × StringCopy) :=
  copyStringFrom load d byte (maxn / pgSize + 2) src
    ((roundDown ((src + pgSize) % 2 ^ 32) pgSize + 2 ^ 32 - src) % 2 ^ 32) maxn ⟨[], []⟩

/-- `copy_string` with loads that `do_pgfault` serves. -/
def copyString : ℕ → (ℕ → UInt8) → ℕ → ℕ → SpacesM (Bool × StringCopy) :=
  copyStringWith fun _ => return ()

variable {H : Prop} {S : Spaces} {m : Mm} {c : StringCopy} {byte : ℕ → UInt8} {loose : List ℕ}
  {d src part maxn fuel la a k n : ℕ}

/-! ## Pages -/

/-- An address in an area that may be read. -/
def Mm.Readable (m : Mm) (la : ℕ) : Prop :=
  ∃ x ∈ m.mmapList, (m.vma x).In la ∧ (m.vma x).has vmRead = true

/-- Areas have whole pages. -/
theorem MmOk.readable_page (h : MmOk loose m) (hpage : la / pgSize = a / pgSize)
    (hread : m.Readable la) : m.Readable a := by
  obtain ⟨x, hx, ⟨hlo, hhi⟩, hflag⟩ := hread
  have hok := h.ok x hx
  have hstart := hok.start_aligned
  have hend := hok.end_aligned
  rw [pgSize_eq] at hpage hstart hend
  exact ⟨x, hx, ⟨by omega, by omega⟩, hflag⟩

/-- Areas end in user space. -/
theorem MmOk.readable_add_lt (h : MmOk loose m) (hread : m.Readable src)
    (hpart : src % pgSize + part ≤ pgSize) : src + part < 2 ^ 32 := by
  obtain ⟨x, hx, ⟨-, hlt⟩, -⟩ := hread
  have hok := h.ok x hx
  have hbound := hok.access.bound
  have hend := hok.end_aligned
  rw [pgSize_eq] at hpart hend
  omega

/-- The check of a part of a page looks at the page. -/
theorem MmOk.check_iff (h : MmOk loose m) (hpos : 0 < part) (hpart : src % pgSize + part ≤ pgSize) :
    UserAccess src ((src + part) % 2 ^ 32) ∧ m.PassesAll false src ((src + part) % 2 ^ 32) ↔
      m.Readable src := by
  constructor
  · rintro ⟨haccess, hall⟩
    obtain ⟨x, hx, hin, hpass⟩ := hall src le_rfl haccess.lt
    exact ⟨x, hx, hin, hpass.2.1⟩
  · rintro ⟨x, hx, hin, hflag⟩
    have hok := h.ok x hx
    have hbase := hok.access.1.trans hin.1
    have htop := hok.access.2.2
    have hbound := hok.access.bound
    have hend := hok.end_aligned
    have hlt := hin.2
    rw [pgSize_eq] at hpart hend
    refine ⟨⟨hbase, by omega, by omega⟩, fun la hlo hhi => ⟨x, hx, ⟨hin.1.trans hlo, by omega⟩,
      hin.1.trans hlo, hflag, ?_⟩⟩
    exact nofun

/-- `user_mem_check` accepts the page of an address for reading. -/
def Accepts (S : Spaces) (d la : ℕ) : Prop := Checked S d (roundDown la pgSize) pgSize false

theorem accepts_iff (h : MmOk loose (S.mm d)) : Accepts S d la ↔ (S.mm d).Readable la := by
  have hmod := roundDown_mod la
  rw [Accepts, checked_iff h, h.check_iff (by decide) (by rw [hmod, Nat.zero_add])]
  have hpage : roundDown la pgSize / pgSize = la / pgSize := by
    rw [roundDown, pgSize_eq]
    omega
  exact ⟨h.readable_page hpage, h.readable_page hpage.symm⟩

/-! ## Strings -/

/-- A string of so many bytes, with a zero after them. -/
def StringAt (byte : ℕ → UInt8) (src k : ℕ) : Prop :=
  byte (src + k) = 0 ∧ ∀ i < k, byte (src + i) ≠ 0

theorem StringAt.unique {j : ℕ} (h : StringAt byte src k) (hj : StringAt byte src j) : k = j := by
  rcases Nat.lt_trichotomy k j with hlt | heq | hlt
  · exact absurd h.1 (hj.2 k hlt)
  · exact heq
  · exact absurd hj.1 (h.2 j hlt)

theorem strnlen_spec : (∀ i < strnlen byte src n, byte (src + i) ≠ 0) ∧ strnlen byte src n ≤ n ∧
    (strnlen byte src n < n → byte (src + strnlen byte src n) = 0) := by
  induction n generalizing src with
  | zero =>
    exact ⟨fun i hi => absurd hi (Nat.not_lt_zero i), le_rfl, fun h => absurd h (lt_irrefl 0)⟩
  | succ n ih =>
    rw [strnlen]
    split
    · rename_i hzero
      exact ⟨fun i hi => absurd hi (Nat.not_lt_zero i), Nat.zero_le _, fun _ => hzero⟩
    · rename_i hne
      obtain ⟨hbefore, hle, hend⟩ := @ih (src + 1)
      refine ⟨fun i hi => ?_, by omega, fun hlt => ?_⟩
      · cases i with
        | zero => exact hne
        | succ i =>
          have hi' := hbefore i (by omega)
          rwa [Nat.add_assoc, Nat.add_comm 1] at hi'
      · have hlast := hend (by omega)
        rwa [Nat.add_assoc, Nat.add_comm 1] at hlast

/-- The loop gets to the byte: no byte before it is zero, and the pages up to it may be read. -/
def Mm.Reaches (m : Mm) (byte : ℕ → UInt8) (src maxn k : ℕ) : Prop :=
  k < maxn ∧ (∀ i < k, byte (src + i) ≠ 0) ∧ ∀ i ≤ k, m.Readable (src + i)

/-- A string that is shorter than `maxn` and whose pages may be read. -/
def Mm.HoldsString (m : Mm) (byte : ℕ → UInt8) (src maxn k : ℕ) : Prop :=
  m.Reaches byte src maxn k ∧ byte (src + k) = 0

/-- A string that does not end in the first part goes on behind it. -/
theorem reaches_add (hpart : ∀ i < part, byte (src + i) ≠ 0)
    (hread : ∀ i < part, m.Readable (src + i)) :
    m.Reaches byte src maxn (part + k) ↔ m.Reaches byte (src + part) (maxn - part) k := by
  have hassoc : ∀ i, src + (part + i) = src + part + i := fun i => (Nat.add_assoc _ _ _).symm
  constructor
  · rintro ⟨hlt, hbefore, hall⟩
    refine ⟨by omega, fun i hi => ?_, fun i hi => ?_⟩
    · rw [← hassoc]
      exact hbefore _ (by omega)
    · rw [← hassoc]
      exact hall _ (by omega)
  · rintro ⟨hlt, hbefore, hall⟩
    refine ⟨by omega, fun i hi => ?_, fun i hi => ?_⟩
    · by_cases hi' : i < part
      · exact hpart i hi'
      · obtain ⟨j, rfl⟩ := Nat.exists_eq_add_of_le (not_lt.mp hi')
        rw [hassoc]
        exact hbefore j (by omega)
    · by_cases hi' : i < part
      · exact hread i hi'
      · obtain ⟨j, rfl⟩ := Nat.exists_eq_add_of_le (not_lt.mp hi')
        rw [hassoc]
        exact hall j (by omega)

theorem holdsString_add (hpart : ∀ i < part, byte (src + i) ≠ 0)
    (hread : ∀ i < part, m.Readable (src + i)) :
    m.HoldsString byte src maxn (part + k) ↔ m.HoldsString byte (src + part) (maxn - part) k := by
  rw [Mm.HoldsString, Mm.HoldsString, reaches_add hpart hread, Nat.add_assoc]

/-! ## The copy -/

/-- The outcome of a copy that has begun with `c`. -/
structure CopyOk (m : Mm) (byte : ℕ → UInt8) (src maxn : ℕ) (c : StringCopy)
    (r : Bool × StringCopy) : Prop where
  copied : r.1 = true → ∃ k, m.HoldsString byte src maxn k ∧
    r.2.dst = c.dst ++ (List.range' src (k + 1)).map byte
  refused : r.1 = false → ∀ k, ¬m.HoldsString byte src maxn k
  length : r.2.dst.length ≤ c.dst.length + maxn
  reads : ∀ la ∈ r.2.reads, la ∈ c.reads ∨ m.Readable la

theorem length_memcpy :
    ((c.scan byte src part).memcpy byte src n).dst.length = c.dst.length + n := by
  simp [StringCopy.memcpy, StringCopy.scan]

theorem readable_of_mem_range' (hall : ∀ i < part, m.Readable (src + i)) (hn : n ≤ part)
    (hla : la ∈ List.range' src n) : m.Readable la := by
  obtain ⟨i, hi, rfl⟩ := mem_range'.mp hla
  rw [Nat.one_mul]
  exact hall i (by omega)

/-- The loop stands at the beginning of a page or, in the first turn, before the rest of one. The
loads keep `I`, and each byte that the loop gets to, of which `R` holds, is loaded with `G`. -/
theorem wp_copyStringFrom {load : List ℕ → SpacesM Unit} {I : Spaces → Prop} {R G : ℕ → Prop}
    {E : Err → Spaces → Prop} {Q : Bool × StringCopy → Spaces → Prop} (h : MmOk loose m)
    (hareas : ∀ S, I S → MmOk loose (S.mm d) ∧ SameAreas m (S.mm d))
    (hcache : ∀ S m', I S → MmOk loose m' → SameAreas (S.mm d) m' → I (S.setMm d m'))
    (hload : ∀ S las, I S → (∀ la ∈ las, R la) →
      (load las).wp H E (fun _ S' => I S' ∧ ∀ la ∈ las, G la) S)
    (hI : I S) (hR : ∀ i, m.Reaches byte src maxn i → R (src + i))
    (hpart : src % pgSize + part = pgSize) (hpos : 0 < maxn)
    (hfuel : maxn + pgSize ≤ part + fuel * pgSize)
    (hQ : ∀ r S', CopyOk m byte src maxn c r → (∀ i, m.Reaches byte src maxn i → G (src + i)) →
      Q r S') : (copyStringFrom load d byte fuel src part maxn c).wp H E Q S := by
  induction fuel generalizing src part maxn c S with
  | zero => omega
  | succ fuel ih =>
    have hmin : (if part > maxn then maxn else part) = min part maxn := by
      split <;> omega
    have hle := min_le_left part maxn
    have hle' := min_le_right part maxn
    have hpos' : 0 < min part maxn := by
      have hlt := Nat.mod_lt src (show 0 < pgSize by decide)
      omega
    rw [copyStringFrom, wp_bind]
    rw [hmin]
    have hfull : min part maxn ≠ maxn → min part maxn = part := by omega
    generalize min part maxn = piece at *
    obtain ⟨hS, hsame⟩ := hareas S hI
    have hcheck : (S.mm d).Readable src ↔ m.Readable src := by
      rw [Mm.Readable, hsame.vma, hsame.list]
      rfl
    refine wp_userMemCheck hS fun ok m' hm' hsame' hiff => ?_
    rw [hS.check_iff hpos' (by omega), hcheck] at hiff
    refine wp_if (fun hok => ?_) fun hno => hQ _ _ ⟨nofun, fun _ k hk => ?_, ?_, ?_⟩ fun i hi => ?_
    · have hread := hiff.mp hok
      obtain ⟨hbefore, hlen, hzero⟩ := @strnlen_spec byte src piece
      have hall : ∀ i < piece, m.Readable (src + i) := by
        intro i hi
        refine h.readable_page ?_ hread
        rw [pgSize_eq] at hpart ⊢
        omega
      have hscan : ∀ la ∈ (c.scan byte src piece).reads, la ∈ c.reads ∨ m.Readable la :=
        fun la hla => (mem_append.mp hla).imp_right (readable_of_mem_range' hall (min_le_right _ _))
      have hcopy : ∀ n ≤ piece, ∀ la ∈ ((c.scan byte src piece).memcpy byte src n).reads,
          la ∈ c.reads ∨ m.Readable la := by
        intro n hn la hla
        rcases mem_append.mp hla with hla | hla
        · exact hscan la hla
        · exact .inr (readable_of_mem_range' hall hn hla)
      have hreach : ∀ n ≤ strnlen byte src piece + 1, n ≤ piece → ∀ la ∈ range' src n, R la := by
        intro n hn hn' la hla
        obtain ⟨i, hi, rfl⟩ := mem_range'.mp hla
        rw [Nat.one_mul]
        exact hR i ⟨by omega, fun j hj => hbefore j (by omega), fun j hj => hall j (by omega)⟩
      refine wp_seq ((hload _ _ (hcache S m' hI hm' hsame')
        (hreach _ (min_le_left _ _) (min_le_right _ _))).imp fun _ S₁ hloaded => ?_)
      obtain ⟨hI₁, hG⟩ := hloaded
      have hG : ∀ i < min (strnlen byte src piece + 1) piece, G (src + i) := fun i hi =>
        hG _ (mem_range'.mpr ⟨i, hi, by rw [Nat.one_mul]⟩)
      refine wp_if (fun hlt => ?_) fun hge => ?_
      · rw [wp_bind]
        refine (hload _ _ hI₁ (hreach _ le_rfl hlt)).imp fun _ S₂ _ => hQ _ _
          ⟨fun _ => ⟨_, ⟨⟨by omega, hbefore, fun i hi => hall i (by omega)⟩, hzero hlt⟩, rfl⟩,
            nofun, ?_, hcopy _ hlt⟩ ?_
        · rw [length_memcpy]
          omega
        · intro i hi
          have hle : i ≤ strnlen byte src piece := by
            by_contra hgt
            exact hi.2.1 _ (not_le.mp hgt) (hzero hlt)
          exact hG i (by omega)
      have heq : strnlen byte src piece = piece := by omega
      rw [heq] at hbefore hG hreach
      refine wp_if (fun hlast => hQ _ _ ⟨nofun,
        fun _ k hk => hbefore k (hk.1.1.trans_eq hlast.symm) hk.2, Nat.le_add_right _ _, hscan⟩
        fun i hi => hG i (by have := hi.1; omega)) fun hmore => ?_
      obtain rfl := (hfull hmore).symm
      -- the string goes on in the next page
      rw [Nat.mod_eq_of_lt (h.readable_add_lt hread hpart.le), wp_bind]
      refine (hload _ _ hI₁ (hreach _ (by omega) le_rfl)).imp fun _ S₂ hloaded => ?_
      refine ih hloaded.1 (fun i hi => ?_) ?_ (by omega) ?_ fun r S' hr hrest =>
        hQ r S' ⟨fun htrue => ?_, fun hfalse k hk => ?_, ?_, fun la hla => ?_⟩ fun i hi => ?_
      · rw [Nat.add_assoc]
        exact hR _ ((reaches_add hbefore hall).mpr hi)
      · rw [pgSize_eq] at hpart ⊢
        omega
      · rw [Nat.succ_mul] at hfuel
        omega
      · obtain ⟨k, hk, hdst⟩ := hr.copied htrue
        refine ⟨part + k, (holdsString_add hbefore hall).mpr hk, ?_⟩
        rw [hdst, StringCopy.memcpy, append_assoc, ← map_append, List.range'_append_1]
        rfl
      · have hge : part ≤ k := by
          by_contra hlt
          exact hbefore k (not_le.mp hlt) hk.2
        obtain ⟨j, rfl⟩ := Nat.exists_eq_add_of_le hge
        exact hr.refused hfalse j ((holdsString_add hbefore hall).mp hk)
      · have hlength := hr.length
        rw [length_memcpy] at hlength
        omega
      · rcases hr.reads la hla with hla | hla
        · exact hcopy part le_rfl la hla
        · exact .inr hla
      · by_cases hin : i < part
        · exact hG i (by omega)
        · obtain ⟨j, rfl⟩ := Nat.exists_eq_add_of_le (not_lt.mp hin)
          rw [← Nat.add_assoc]
          exact hrest j ((reaches_add hbefore hall).mp hi)
    · exact hno (hiff.mpr (hk.1.2.2 0 (Nat.zero_le k)))
    · exact Nat.le_add_right _ _
    · exact fun la => .inl
    · exact absurd (hiff.mpr (hi.2.2 0 (Nat.zero_le i))) hno

/-- The first part ends with its page, and there are turns for all pages. -/
theorem wp_copyStringWith {load : List ℕ → SpacesM Unit} {I : Spaces → Prop} {G : ℕ → Prop}
    {E : Err → Spaces → Prop} (h : MmOk loose (S.mm d)) (hsrc : src < 2 ^ 32) (hpos : 0 < maxn)
    (hareas : ∀ S', I S' → MmOk loose (S'.mm d) ∧ SameAreas (S.mm d) (S'.mm d))
    (hcache : ∀ S' m', I S' → MmOk loose m' → SameAreas (S'.mm d) m' → I (S'.setMm d m'))
    (hload : ∀ S' las, I S' → (∀ la ∈ las, ∃ i, la = src + i ∧ (S.mm d).Reaches byte src maxn i) →
      (load las).wp H E (fun _ S' => I S' ∧ ∀ la ∈ las, G la) S') (hI : I S) :
    (copyStringWith load d byte src maxn).wp H E (fun r _ =>
      CopyOk (S.mm d) byte src maxn ⟨[], []⟩ r ∧
        ∀ i, (S.mm d).Reaches byte src maxn i → G (src + i)) S := by
  have hpart : src % pgSize +
      (roundDown ((src + pgSize) % 2 ^ 32) pgSize + 2 ^ 32 - src) % 2 ^ 32 = pgSize := by
    rw [roundDown, pgSize_eq]
    omega
  have hfuel : maxn ≤ (maxn / pgSize + 1) * pgSize := by
    rw [pgSize_eq]
    omega
  exact wp_copyStringFrom h hareas hcache hload hI (fun i hi => ⟨i, rfl, hi⟩) hpart hpos
    (by rw [Nat.succ_mul]; omega) fun _ _ hr hG => ⟨hr, hG⟩

/-- `copy_string` returns, and with success if and only if there is a string of less than `maxn`
bytes whose pages `user_mem_check` accepts; then `dst` holds it. It never writes more than `maxn`
bytes, and never reads a page that is not accepted. -/
theorem copy_string_spec (h : MmOk [] (S.mm d)) (hsrc : src < 2 ^ 32) (hpos : 0 < maxn)
    (byte : ℕ → UInt8) : ∃ r S', copyString d byte src maxn S = .done r S' ∧
      (r.1 = true ↔ ∃ k < maxn, StringAt byte src k ∧ ∀ i ≤ k, Accepts S d (src + i)) ∧
      (∀ k, r.1 = true → StringAt byte src k → r.2.dst = (List.range' src (k + 1)).map byte) ∧
      r.2.dst.length ≤ maxn ∧ ∀ la ∈ r.2.reads, Accepts S d la := by
  have hwp : (copyString d byte src maxn).wp False Never (fun r _ => CopyOk (S.mm d) byte src maxn
      ⟨[], []⟩ r ∧ ∀ i, (S.mm d).Reaches byte src maxn i → True) S := by
    refine wp_copyStringWith (I := fun S' => MmOk [] (S'.mm d) ∧ SameAreas (S.mm d) (S'.mm d))
      (G := fun _ => True) h hsrc hpos (fun S' hI => hI) (fun S' m' hI hm' hsame => ?_)
      (fun S' las hI _ => ⟨hI, fun _ _ => trivial⟩) ⟨h, .refl⟩
    rw [mm_setMm_self]
    exact ⟨hm', hI.2.trans hsame⟩
  obtain ⟨r, S', hcall, hr, -⟩ := hwp.returns_done
  simp only [accepts_iff h]
  refine ⟨r, S', hcall, ⟨fun htrue => ?_, ?_⟩, fun k htrue hk => ?_, ?_, fun la hla => ?_⟩
  · obtain ⟨k, ⟨⟨hlt, hbefore, hall⟩, hzero⟩, -⟩ := hr.copied htrue
    exact ⟨k, hlt, ⟨hzero, hbefore⟩, hall⟩
  · rintro ⟨k, hlt, ⟨hzero, hbefore⟩, hall⟩
    by_contra hno
    exact hr.refused (Bool.not_eq_true _ ▸ hno) k ⟨⟨hlt, hbefore, hall⟩, hzero⟩
  · obtain ⟨j, ⟨⟨-, hbefore, -⟩, hzero⟩, hdst⟩ := hr.copied htrue
    rw [hk.unique ⟨hzero, hbefore⟩]
    exact hdst
  · have hlength := hr.length
    rwa [length_nil, Nat.zero_add] at hlength
  · exact (hr.reads la hla).resolve_left not_mem_nil

/-- A string that ends on the second of two pages. -/
theorem copy_string_spec_pages : ∃ r S',
    copyString 0 (fun la => if la = 0x30001001 then 0 else 1) 0x30000FFE 8
      ⟨emptyMem, fun _ => oneStack⟩ = .done r S' ∧ r.2.dst = [1, 1, 1, 0] := by
  obtain ⟨r, S', hcall, hiff, hdst, -⟩ := @copy_string_spec ⟨emptyMem, fun _ => oneStack⟩ 0
    0x30000FFE 8 mmOk_oneStack (by decide) (by decide) fun la => if la = 0x30001001 then 0 else 1
  have hstring : StringAt (fun la => if la = 0x30001001 then 0 else 1) 0x30000FFE 3 := by
    exact ⟨rfl, by decide⟩
  refine ⟨r, S', hcall, hdst 3 (hiff.mpr ⟨3, by decide, hstring, fun i hi => ?_⟩) hstring⟩
  refine (accepts_iff mmOk_oneStack).mpr ⟨7, .head _, ⟨?_, ?_⟩, rfl⟩
  · exact Nat.le_trans (by decide) (Nat.le_add_right _ i)
  · exact Nat.lt_of_le_of_lt (Nat.add_le_add_left hi _) (by decide)

end Ucore.Vm
