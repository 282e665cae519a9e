import Ucore.Lib.Outcome
import Ucore.Lib.RedBlack
import Mathlib.Data.Int.Notation

/-!
# Red-black trees in memory

`rb_tree.c`: nodes with pointers to their parent and children, a node `nil` in place of
missing ones, and a node `root` whose left child is the root of the tree. The macros of the
source take the names of the two sides as arguments, the functions here take a `Side`. Loops
are given the number of turns that they may take.
-/

namespace Ucore.Rb

open Kern

open RedBlack (Side)

variable {α : Type}

/-- `rb_node`. -/
structure Node (α : Type) where
  red : Bool
  parent : α
  left : α
  right : α
  deriving DecidableEq, Repr

/-- The child of a node on one side. -/
def Node.child (n : Node α) : Side → α
  | .left => n.left
  | .right => n.right

def Node.setRed (n : Node α) (red : Bool) : Node α := { n with red := red }

def Node.setParent (n : Node α) (p : α) : Node α := { n with parent := p }

def Node.setChild (n : Node α) (side : Side) (a : α) : Node α :=
  match side with
  | .left => { n with left := a }
  | .right => { n with right := a }

/-- `rb_tree`, with the memory of the nodes. -/
structure RbTree (α : Type) where
  node : α → Node α
  nil : α
  root : α

/-- Code on a tree, which has no error codes. -/
abbrev TreeM (α : Type) := Kern Empty (RbTree α)

variable [DecidableEq α]

/-- Change a node. -/
def RbTree.setNode (s : RbTree α) (x : α) (f : Node α → Node α) : RbTree α :=
  { s with node := Function.update s.node x (f (s.node x)) }

def setRed (x : α) (red : Bool) : TreeM α Unit := modify fun s => s.setNode x (·.setRed red)

def setParent (x p : α) : TreeM α Unit := modify fun s => s.setNode x (·.setParent p)

def setChild (side : Side) (x a : α) : TreeM α Unit :=
  modify fun s => s.setNode x (·.setChild side a)

/-- `rb_tree_create`, once its two nodes have been allocated. -/
def rbTreeCreate (node : α → Node α) (nil root : α) : RbTree α where
  node := Function.update (Function.update node nil ⟨false, nil, nil, nil⟩) root
    ⟨false, nil, nil, nil⟩
  nil := nil
  root := root

/-- A new parent for a child, unless it is missing. -/
def adopt (a x : α) : TreeM α Unit := do
  let s ← get
  if a ≠ s.nil then setParent a x

/-- The parent `p` of `x` gets the child `y` in place of `x`, which is first looked for on
`side`. -/
def replaceChild (side : Side) (p x y : α) : TreeM α Unit := do
  let s ← get
  if x = (s.node p).child side then setChild side p y else setChild side.other p y

/-- `rb_left_rotate` and `rb_right_rotate`: `FUNC_ROTATE` with the side on which `x` goes
down. -/
def rotate (side : Side) (x : α) : TreeM α Unit := do
  let s ← get
  let y := (s.node x).child side.other
  assert (x ≠ s.root ∧ x ≠ s.nil ∧ y ≠ s.nil)
  let mid := (s.node y).child side
  setChild side.other x mid
  adopt mid x
  let p ← gets fun s => (s.node x).parent
  setParent y p
  replaceChild side p x y
  setChild side y x
  setParent x y
  let s ← get
  assert ((s.node s.nil).red = false)

/-! ## Insertion -/

/-- The loop of `rb_insert_binary`: the node `y` under which `z` is put. -/
def insertFrom (compare : α → α → ℤ) (z : α) : ℕ → α → α → TreeM α α
  | 0, _, _ => stop .running
  | fuel + 1, y, x => do
    let s ← get
    if x = s.nil then return y
    else if 0 < compare x z then insertFrom compare z fuel x (s.node x).left
    else insertFrom compare z fuel x (s.node x).right

/-- `rb_insert_binary`. -/
def rbInsertBinary (compare : α → α → ℤ) (fuel : ℕ) (z : α) : TreeM α Unit := do
  let s ← get
  setChild .right z s.nil
  setChild .left z s.nil
  let x ← gets fun s => (s.node s.root).left
  let y ← insertFrom compare z fuel s.root x
  setParent z y
  if y = s.root ∨ 0 < compare y z then setChild .left y z else setChild .right y z

/-- The child of `x->parent` on `side`, after a rotation if `x` is the other one. -/
def outerChild (side : Side) (x : α) : TreeM α α := do
  let s ← get
  let p := (s.node x).parent
  if x = (s.node p).child side.other then do
    rotate side p
    return p
  else return x

/-- The rotation at `x->parent->parent`. -/
def rotateGrandparent (side : Side) (x : α) : TreeM α Unit := do
  let s ← get
  let p := (s.node x).parent
  let g := (s.node p).parent
  setRed p false
  setRed g true
  rotate side.other g

/-- `RB_INSERT_SUB`, for a parent of `x` that is the child of its parent on `side`: the next
`x`. -/
def rbInsertSub (side : Side) (x : α) : TreeM α α := do
  let s ← get
  let p := (s.node x).parent
  let g := (s.node p).parent
  let y := (s.node g).child side.other
  if (s.node y).red = true then do
    setRed p false
    setRed y false
    setRed g true
    return g
  else do
    let x ← outerChild side x
    rotateGrandparent side x
    return x

/-- The loop of `rb_insert`. -/
def insertFixup : ℕ → α → TreeM α Unit
  | 0, _ => stop .running
  | fuel + 1, x => do
    let s ← get
    let p := (s.node x).parent
    if (s.node p).red = true then do
      let x ← rbInsertSub (if p = (s.node (s.node p).parent).left then .left else .right) x
      insertFixup fuel x
    else return ()

/-- `rb_insert`. -/
def rbInsert (compare : α → α → ℤ) (fuel : ℕ) (x : α) : TreeM α Unit := do
  rbInsertBinary compare fuel x
  setRed x true
  insertFixup fuel x
  let s ← get
  setRed (s.node s.root).left false
  let s ← get
  assert ((s.node s.nil).red = false ∧ (s.node s.root).red = false)

/-! ## Neighbours and search -/

/-- The last node on the way down one side. -/
def bottom (side : Side) : ℕ → α → TreeM α α
  | 0, _ => stop .running
  | fuel + 1, y => do
    let s ← get
    if (s.node y).child side = s.nil then return y
    else bottom side fuel ((s.node y).child side)

/-- The way up of `rb_tree_successor`. -/
def successorUp : ℕ → α → α → TreeM α α
  | 0, _, _ => stop .running
  | fuel + 1, x, y => do
    let s ← get
    if x = (s.node y).right then successorUp fuel y (s.node y).parent
    else return y

/-- `rb_tree_successor`. -/
def rbTreeSuccessor (fuel : ℕ) (x : α) : TreeM α α := do
  let s ← get
  if (s.node x).right ≠ s.nil then bottom .left fuel (s.node x).right
  else do
    let y ← successorUp fuel x (s.node x).parent
    return if y = s.root then s.nil else y

/-- The way up of `rb_tree_predecessor`, which ends at `root` or before. -/
def predecessorUp : ℕ → α → α → TreeM α α
  | 0, _, _ => stop .running
  | fuel + 1, x, y => do
    let s ← get
    if x = (s.node y).left then
      if y = s.root then return s.nil else predecessorUp fuel y (s.node y).parent
    else return y

/-- `rb_tree_predecessor`. -/
def rbTreePredecessor (fuel : ℕ) (x : α) : TreeM α α := do
  let s ← get
  if (s.node x).left ≠ s.nil then bottom .right fuel (s.node x).left
  else predecessorUp fuel x (s.node x).parent

/-- A node, or `NULL` for `nil`. -/
def RbTree.orNull (s : RbTree α) (x : α) : Option α := if x ≠ s.nil then some x else none

/-- `rb_node_next`. -/
def rbNodeNext (fuel : ℕ) (x : α) : TreeM α (Option α) := do
  let y ← rbTreeSuccessor fuel x
  gets fun s => s.orNull y

/-- `rb_node_prev`. -/
def rbNodePrev (fuel : ℕ) (x : α) : TreeM α (Option α) := do
  let y ← rbTreePredecessor fuel x
  gets fun s => s.orNull y

/-- `rb_node_root`. -/
def RbTree.rbNodeRoot (s : RbTree α) : Option α := s.orNull (s.node s.root).left

/-- `rb_node_left` and `rb_node_right`. -/
def RbTree.rbNodeChild (s : RbTree α) (side : Side) (x : α) : Option α :=
  s.orNull ((s.node x).child side)

/-- The loop of `rb_search`, where `key` compares a node with the key. -/
def searchFrom (key : α → ℤ) : ℕ → α → TreeM α α
  | 0, _ => stop .running
  | fuel + 1, x => do
    let s ← get
    if x ≠ s.nil ∧ key x ≠ 0 then
      searchFrom key fuel (if 0 < key x then (s.node x).left else (s.node x).right)
    else return x

/-- `rb_search`. -/
def rbSearch (key : α → ℤ) (fuel : ℕ) : TreeM α (Option α) := do
  let s ← get
  let x ← searchFrom key fuel (s.node s.root).left
  return s.orNull x

/-! ## Deletion -/

/-- The sibling `w` of `x` on the other side, made black by a rotation. -/
def blackSibling (side : Side) (x : α) : TreeM α α := do
  let s ← get
  let p := (s.node x).parent
  let w := (s.node p).child side.other
  if (s.node w).red = true then do
    setRed w false
    setRed p true
    rotate side p
    gets fun s => (s.node (s.node x).parent).child side.other
  else return w

/-- The sibling `w` of `x`, with a red child on the far side. -/
def redNephew (side : Side) (x w : α) : TreeM α α := do
  let s ← get
  if (s.node ((s.node w).child side.other)).red = false then do
    setRed ((s.node w).child side) false
    setRed w true
    rotate side.other w
    gets fun s => (s.node (s.node x).parent).child side.other
  else return w

/-- The rotation that brings the sibling `w` of `x` in the place of their parent. -/
def rotateSibling (side : Side) (x w : α) : TreeM α Unit := do
  let s ← get
  let p := (s.node x).parent
  setRed w (s.node p).red
  setRed p false
  setRed ((s.node w).child side.other) false
  rotate side p

/-- `RB_DELETE_FIXUP_SUB`, for `x` on `side` of its parent: the next `x`. -/
def rbDeleteFixupSub (side : Side) (root x : α) : TreeM α α := do
  let w ← blackSibling side x
  let s ← get
  if (s.node ((s.node w).child side)).red = false ∧
      (s.node ((s.node w).child side.other)).red = false then do
    setRed w true
    gets fun s => (s.node x).parent
  else do
    let w ← redNephew side x w
    rotateSibling side x w
    return root

/-- The loop of `rb_delete_fixup`. -/
def deleteFixupFrom (root : α) : ℕ → α → TreeM α α
  | 0, _ => stop .running
  | fuel + 1, x => do
    let s ← get
    if x ≠ root ∧ (s.node x).red = false then do
      let x ← rbDeleteFixupSub
        (if x = (s.node (s.node x).parent).left then .left else .right) root x
      deleteFixupFrom root fuel x
    else return x

/-- `rb_delete_fixup`. -/
def rbDeleteFixup (fuel : ℕ) (x : α) : TreeM α Unit := do
  let root ← gets fun s => (s.node s.root).left
  let x ← deleteFixupFrom root fuel x
  setRed x false

/-- The node that leaves its place when `z` is deleted. -/
def spliced (fuel : ℕ) (z : α) : TreeM α α := do
  let s ← get
  if (s.node z).left = s.nil ∨ (s.node z).right = s.nil then return z
  else rbTreeSuccessor fuel z

/-- The child `x` of `y` comes in the place of `y`. -/
def unlink (y x : α) : TreeM α Unit := do
  let p ← gets fun s => (s.node y).parent
  setParent x p
  let p ← gets fun s => (s.node y).parent
  replaceChild .left p y x

/-- `y`, which has left its place, takes that of `z`. -/
def takePlace (z y : α) : TreeM α Unit :=
  if y ≠ z then do
    let s ← get
    replaceChild .left (s.node z).parent z y
    let s ← get
    setParent (s.node z).right y
    setParent (s.node z).left y
    modify fun s => s.setNode y fun _ => s.node z
  else return ()

/-- `rb_delete`. -/
def rbDelete (fuel : ℕ) (z : α) : TreeM α Unit := do
  let y ← spliced fuel z
  let s ← get
  let x := if (s.node y).left ≠ s.nil then (s.node y).left else (s.node y).right
  assert (y ≠ s.root ∧ y ≠ s.nil)
  unlink y x
  let needFixup ← gets fun s => !(s.node y).red
  takePlace z y
  if needFixup = true then rbDeleteFixup fuel x

end Ucore.Rb
