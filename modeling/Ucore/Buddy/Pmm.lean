import Ucore.Lib.Dyadic
import Ucore.Lib.Outcome

/-!
# The buddy page allocator

`buddy_pmm.c`: free blocks of `2 ^ order` pages are kept in one list for each order.
Pages are numbered by their position in the array of page descriptors, and a free list
is the list of the first pages of its blocks, the newest first.
-/

namespace Ucore.Buddy

open Kern Function

/-- `MAX_ORDER`. -/
abbrev maxOrder : ℕ := 10

/-- `MAX_ZONE_NUM`. -/
abbrev maxZoneNum : ℕ := 10

/-- `struct Page`, as far as the allocator reads it. -/
structure Page where
  /-- `PG_reserved`. -/
  reserved : Bool
  /-- `PG_property`. -/
  hasProperty : Bool
  property : ℕ
  zoneNum : ℕ
  deriving DecidableEq, Repr

/-- The state of the allocator. -/
structure Pmm where
  npage : ℕ
  page : ℕ → Page
  /-- `zones[i].mem_base`. -/
  memBase : ℕ → ℕ
  /-- The static counter of `buddy_init_memmap`. -/
  zoneNum : ℕ
  freeList : ℕ → List ℕ
  nrFree : ℕ → ℕ

/-- Code of the allocator, which has no error codes. -/
abbrev P := Kern Empty Pmm

/-- Replace a page descriptor. -/
def Pmm.setPage (s : Pmm) (q : ℕ) (f : Page → Page) : Pmm :=
  { s with page := update s.page q (f (s.page q)) }

/-- `list_add` to the free list of an order, and `nr_free(order) ++`. -/
def Pmm.listAdd (s : Pmm) (order p : ℕ) : Pmm :=
  { s with
    freeList := update s.freeList order (p :: s.freeList order)
    nrFree := update s.nrFree order (s.nrFree order + 1) }

/-- `list_del` from the free list of an order, and `nr_free(order) --`. -/
def Pmm.listDel (s : Pmm) (order p : ℕ) : Pmm :=
  { s with
    freeList := update s.freeList order ((s.freeList order).erase p)
    nrFree := update s.nrFree order (s.nrFree order - 1) }

/-- `ClearPageProperty`. -/
def Pmm.clearProperty (s : Pmm) (p : ℕ) : Pmm :=
  s.setPage p fun page => { page with hasProperty := false }

/-- A block becomes free: its order is stored, `SetPageProperty`, and it is listed. -/
def Pmm.putBlock (s : Pmm) (order p : ℕ) : Pmm :=
  (s.setPage p fun page => { page with property := order, hasProperty := true }).listAdd order p

/-- A free block is taken: it leaves its list, and `ClearPageProperty`. -/
def Pmm.takeBlock (s : Pmm) (order p : ℕ) : Pmm := (s.listDel order p).clearProperty p

/-- `buddy_init`. -/
def buddyInit : P Unit := modify fun s =>
  { s with
    freeList := fun i => if i ≤ maxOrder then [] else s.freeList i
    nrFree := fun i => if i ≤ maxOrder then 0 else s.nrFree i }

/-- The loop of `buddy_init_memmap` over its pages. -/
def initPages : ℕ → ℕ → P Unit
  | 0, _ => pure ()
  | n + 1, p => do
    let s ← get
    assert ((s.page p).reserved = true)
    modify fun s => s.setPage p fun _ =>
      { reserved := false, hasProperty := false, property := 0, zoneNum := s.zoneNum }
    initPages n (p + 1)

/-- The inner loop of `buddy_init_memmap`: blocks of one order, while they fit. Returns
the next page and the number of pages left; `fuel` bounds the number of turns. -/
def initOrder (order : ℕ) : ℕ → ℕ → ℕ → P (ℕ × ℕ)
  | 0, p, n => pure (p, n)
  | fuel + 1, p, n =>
    if 2 ^ order ≤ n then do
      modify fun s => s.putBlock order p
      initOrder order fuel (p + 2 ^ order) (n - 2 ^ order)
    else pure (p, n)

/-- The outer loop of `buddy_init_memmap`, from the given order down. -/
def initBlocks : ℕ → ℕ → ℕ → P Unit
  | 0, p, n => do
    let _ ← initOrder 0 n p n
    return ()
  | order + 1, p, n =>
    if n = 0 then pure ()
    else do
      let (p, n) ← initOrder (order + 1) n p n
      initBlocks order p n

/-- `buddy_init_memmap`. -/
def buddyInitMemmap (base n : ℕ) : P Unit := do
  let s ← get
  assert (0 < n ∧ s.zoneNum < maxZoneNum)
  initPages n base
  modify fun s =>
    { s with memBase := update s.memBase s.zoneNum base, zoneNum := s.zoneNum + 1 }
  initBlocks maxOrder base n

/-- The loop of `getorder` from the given order on, with `fuel` orders left. -/
def getorderFrom (n : ℕ) : ℕ → ℕ → P ℕ
  | 0, _ => stop .assertion
  | fuel + 1, order => if n ≤ 2 ^ order then pure order else getorderFrom n fuel (order + 1)

/-- `getorder`: the least order of a block with `n` pages. -/
def getorder (n : ℕ) : P ℕ := getorderFrom n (maxOrder + 1) 0

/-- The loop of `buddy_alloc_pages_sub` that gives back the upper halves of a block, `count`
times down to `order`. -/
def Pmm.split (page order : ℕ) : ℕ → Pmm → Pmm
  | 0, s => s
  | count + 1, s => split page order count (s.putBlock (order + count) (page + 2 ^ (order + count)))

/-- The search of `buddy_alloc_pages_sub` from `order + count` on, with `fuel` orders left. -/
def allocFrom (order : ℕ) : ℕ → ℕ → P (Option ℕ)
  | 0, _ => pure none
  | fuel + 1, count => do
    let s ← get
    match s.freeList (order + count) with
    | [] => allocFrom order fuel (count + 1)
    | page :: _ => do
      modify fun s =>
        ((s.listDel (order + count) page).split page order count).clearProperty page
      return some page

/-- `buddy_alloc_pages_sub`. -/
def buddyAllocPagesSub (order : ℕ) : P (Option ℕ) := do
  assert (order ≤ maxOrder)
  allocFrom order (maxOrder + 1 - order) 0

/-- `page2idx`. -/
def Pmm.page2idx (s : Pmm) (p : ℕ) : ℕ := p - s.memBase (s.page p).zoneNum

/-- `idx2page`. -/
def Pmm.idx2page (s : Pmm) (zone idx : ℕ) : ℕ := s.memBase zone + idx

/-- `page_is_buddy`. -/
def Pmm.pageIsBuddy (s : Pmm) (p order zone : ℕ) : Bool :=
  p < s.npage && (s.page p).zoneNum = zone &&
    (!(s.page p).reserved && (s.page p).hasProperty && (s.page p).property = order)

/-- The loop of `buddy_free_pages_sub` over its pages. -/
def freeCheck : ℕ → ℕ → P Unit
  | 0, _ => pure ()
  | n + 1, p => do
    let s ← get
    assert ((s.page p).reserved = false ∧ (s.page p).hasProperty = false)
    modify fun s => s.setPage p fun page =>
      { page with reserved := false, hasProperty := false }
    freeCheck n (p + 1)

/-- The merging loop of `buddy_free_pages_sub`, with `fuel` orders left: the index and the
order of the merged block. -/
def mergeFrom (zone : ℕ) : ℕ → ℕ → ℕ → P (ℕ × ℕ)
  | 0, idx, order => pure (idx, order)
  | fuel + 1, idx, order => do
    let s ← get
    let buddy := s.idx2page zone (buddyOf idx order)
    if s.pageIsBuddy buddy order zone = true then do
      modify fun s => s.takeBlock order buddy
      mergeFrom zone fuel (idx &&& buddyOf idx order) (order + 1)
    else pure (idx, order)

/-- `buddy_free_pages_sub`. -/
def buddyFreePagesSub (base order : ℕ) : P Unit := do
  let s ← get
  assert (s.page2idx base &&& (2 ^ order - 1) = 0)
  freeCheck (2 ^ order) base
  let (idx, order) ← mergeFrom (s.page base).zoneNum (maxOrder - order) (s.page2idx base) order
  modify fun s' => s'.putBlock order (s'.idx2page (s.page base).zoneNum idx)

/-- The first loop of `buddy_free_pages`, with `fuel` orders left below the bound of its
assertion: the remaining pages and the order at which the loop ends. -/
def freeUp : ℕ → ℕ → ℕ → ℕ → P (ℕ × ℕ × ℕ)
  | 0, base, n, order => if 2 ^ order ≤ n then stop .assertion else pure (base, n, order)
  | fuel + 1, base, n, order =>
    if 2 ^ order ≤ n then do
      let s ← get
      if s.page2idx base &&& 2 ^ order ≠ 0 then do
        buddyFreePagesSub base order
        freeUp fuel (base + 2 ^ order) (n - 2 ^ order) (order + 1)
      else freeUp fuel base n (order + 1)
    else pure (base, n, order)

/-- The innermost loop of `buddy_free_pages`: the greatest order whose block fits. -/
def fitOrder (n : ℕ) : ℕ → ℕ
  | 0 => 0
  | order + 1 => if n < 2 ^ (order + 1) then fitOrder n order else order + 1

/-- The second loop of `buddy_free_pages`; `fuel` bounds the number of turns. -/
def freeDown : ℕ → ℕ → ℕ → ℕ → P Unit
  | 0, _, _, _ => pure ()
  | fuel + 1, base, n, order =>
    if n = 0 then pure ()
    else do
      let order := fitOrder n order
      buddyFreePagesSub base order
      freeDown fuel (base + 2 ^ order) (n - 2 ^ order) order

/-- `buddy_free_pages`. -/
def buddyFreePages (base n : ℕ) : P Unit := do
  assert (0 < n)
  if n = 1 then buddyFreePagesSub base 0
  else
    let (base, n, order) ← freeUp (maxOrder + 1) base n 0
    freeDown n base n order

/-- `buddy_alloc_pages`. -/
def buddyAllocPages (n : ℕ) : P (Option ℕ) := do
  assert (0 < n)
  let order ← getorder n
  match ← buddyAllocPagesSub order with
  | none => return none
  | some page => do
    if n ≠ 2 ^ order then buddyFreePages (page + n) (2 ^ order - n)
    return some page

end Ucore.Buddy
