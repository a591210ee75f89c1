/-
  `RBTree` (`structures/RBTree.cpp`, `structures/RBNode.hpp`): the red-black tree over raw
  parent, left and right pointers.

  An `RBTree` is its heap of nodes and its `root` pointer. Nodes are compared by their
  comparator only (`NodeView::operator<`, `operator>`, `operator!=`), so a shell is its
  comparator. `RBTree::depth` is written in one branch of `insert_at` and read by no function
  modelled here; it is left out.

  The two rotations of the source differ only by the side, and so do the two arms of every
  `side ? … : …` in `balance` and `_delete`; `rotate` takes the side as an argument. Both
  rotations test `x == x->parent->left` first when they re-hang the subtree, and `hang` keeps
  that order.
-/
import Monya.Lib.TreeSearch

namespace Monya.Structures

open Monya.Lib

/-- `uint8_t color; // 0 = B, 1 = R`. -/
inductive Color where
  | black
  | red
  deriving DecidableEq, Repr

/-- What an `RBNode` holds besides its links. -/
structure RBVal (α : Type) where
  color : Color
  comparator : α
  deriving DecidableEq, Repr

abbrev RBTree (α : Type) := TreeMem (RBVal α)

namespace RBTree

variable {α : Type}

def color (m : RBTree α) (a : Nat) : Except Fault Color := do
  return (← m.val a).color

def setColor (m : RBTree α) (a : Nat) (col : Color) : Except Fault (RBTree α) :=
  m.modify a fun c => c.setVal { c.val with color := col }

def comparator (m : RBTree α) (a : Nat) : Except Fault α := do
  return (← m.val a).comparator

/-- `p && p->color == 1`. -/
def isRed (m : RBTree α) : Ptr → Except Fault Bool
  | none => .ok false
  | some a => do return decide ((← color m a) = .red)

/-- `if (!x->parent) root = y; else if (x == x->parent->left) x->parent->left = y; else
    x->parent->right = y;`. -/
def hang (x : Nat) (y : Ptr) (m : RBTree α) : Except Fault (RBTree α) := do
  match ← m.parent x with
  | none => return m.setRoot y
  | some p =>
      if (← m.child .left p) = some x then m.setChild .left p y else m.setChild .right p y

/-- `rotate_left` for `.left`, `rotate_right` for `.right`. -/
def rotate (s : Side) (x : Nat) (m : RBTree α) : Except Fault (RBTree α) := do
  let y ← target (← m.child s.other x)
  let b ← m.child s y
  let m ← m.setChild s.other x b
  let m ← match b with
    | none => pure m
    | some b => m.setParent b (some x)
  let m ← m.setParent y (← m.parent x)
  let m ← m.setChild s y (some x)
  let m ← hang x (some y) m
  m.setParent x (some y)

def rotateLeft (x : Nat) (m : RBTree α) : Except Fault (RBTree α) := rotate .left x m

def rotateRight (y : Nat) (m : RBTree α) : Except Fault (RBTree α) := rotate .right y m

/-- `side ? rotate_left(x) : rotate_right(x)`, with `.left` for a true `side`. -/
def rotateAt : Side → Nat → RBTree α → Except Fault (RBTree α)
  | .left => rotateLeft
  | .right => rotateRight

def transplant (dest : Nat) (src : Ptr) (m : RBTree α) : Except Fault (RBTree α) := do
  let m ← hang dest src m
  match src with
  | none => return m
  | some a => m.setParent a (← m.parent dest)

def minimumStep (m : RBTree α) (tree : Nat) : Except Fault (Pass Nat Nat) := do
  match ← m.child .left tree with
  | none => return .done tree
  | some l => return .next l

def minimum (fuel : Nat) (tree : Nat) (m : RBTree α) : Except Fault Nat :=
  loop (minimumStep m) fuel tree

section Ordered

variable [LinearOrder α]

/-- The block that hangs a new node below `parent`, or makes it the root of an empty tree.
    `insert` and `balance` both run it. -/
def linkNode (parent : Ptr) (node : Nat) (m : RBTree α) : Except Fault (RBTree α) :=
  match parent with
  | none => do
      let m := m.setRoot (some node)
      let m ← setColor m node .black
      let m ← m.setChild .right node none
      let m ← m.setChild .left node none
      m.setParent node none
  | some p => do
      let m ← setColor m node .red
      let m ← m.setParent node (some p)
      let m ← m.setChild .right node none
      let m ← m.setChild .left node none
      if (← comparator m node) < (← comparator m p) then m.setChild .left p (some node)
      else m.setChild .right p (some node)

/-- The branch of `balance` for an inner grandchild: `new_node = new_node->parent`, rotated to
    the outside. -/
def turnInner (side : Side) (p n : Nat) (m : RBTree α) : Except Fault (Nat × RBTree α) := do
  if (← m.child side.other p) = some n then return (p, ← rotateAt side p m) else return (n, m)

/-- The last three statements of `balance`'s loop: `new_node`'s parent, black now, takes the
    place of the grandparent, red now. -/
def raiseParent (side : Side) (n : Nat) (m : RBTree α) : Except Fault (RBTree α) := do
  let p ← target (← m.parent n)
  let m ← setColor m p .black
  let g ← target (← m.parent p)
  let m ← setColor m g .red
  rotateAt side.other g m

/-- One pass of the loop of `balance`, on `new_node`. -/
def balanceStep : Nat × RBTree α → Except Fault (Pass (Nat × RBTree α) (RBTree α))
  | (n, m) => do
      match ← m.parent n with
      | none => return .done m
      | some p =>
          if (← color m p) = .black then return .done m
          else
            let g ← target (← m.parent p)
            let side := if (← m.child .left g) = some p then Side.left else Side.right
            let uncle ← m.child side.other g
            if ← isRed m uncle then
              let m ← setColor m p .black
              let m ← setColor m (← target uncle) .black
              let m ← setColor m g .red
              return .next (g, m)
            else
              let (n, m) ← turnInner side p n m
              let m ← raiseParent side n m
              return .next (n, m)

/-- `balance`. The source's third argument is overwritten before it is read. -/
def balance (fuel : Nat) (parent : Ptr) (node : Nat) (m : RBTree α) : Except Fault (RBTree α) := do
  let m ← linkNode parent node m
  let m ← loop balanceStep fuel (node, m)
  setColor m (← target m.root) .black

def insert (fuel : Nat) (node : Nat) (m : RBTree α) : Except Fault (RBTree α) := do
  let k ← comparator m node
  let parent ← loop (descendStep (goInsert RBVal.comparator k) m) fuel (none, m.root)
  let m ← linkNode parent node m
  balance fuel parent node m

/-- `insert_at`. Its branch for a null `node` is behind a read of `node`'s left child, so it is not
    reached. The exception comes before the first store. -/
def insertAt (fuel : Nat) (newNode node : Nat) (pos : Side) (m : RBTree α) :
    Except Fault (RBTree α) := do
  if (← m.child .left node) ≠ none then .error (.thrown "Left child already populated")
  else
    let m ← setColor m newNode .red
    let m ← m.setParent newNode (some node)
    let m ← m.setChild .right newNode none
    let m ← m.setChild .left newNode none
    let m ← m.setChild pos node (some newNode)
    balance fuel (some node) node m

def find (fuel : Nat) (shell : α) (m : RBTree α) : Except Fault Nat := do
  match ← loop (seekStep (dirFind RBVal.comparator shell) m) fuel m.root with
  | some node => return node
  | none => .error (.thrown "node not found")

/-- `transplant(old, old->right); old->right = node->right; old->right->parent = old;`. -/
def detachSuccessor (node old : Nat) (m : RBTree α) : Except Fault (RBTree α) := do
  let m ← transplant old (← m.child .right old) m
  let m ← m.setChild .right old (← m.child .right node)
  m.setParent (← target (← m.child .right old)) (some old)

/-- `transplant(node, old); old->left = node->left; old->left->parent = old; old->color =
    node->color;`. -/
def takePlace (node old : Nat) (m : RBTree α) : Except Fault (RBTree α) := do
  let m ← transplant node (some old) m
  let m ← m.setChild .left old (← m.child .left node)
  let m ← m.setParent (← target (← m.child .left old)) (some old)
  setColor m old (← color m node)

/-- Take `node` out of the tree. The result is `original`, `old` and the memory; `old` stays
    null in the first two branches, and `original` stays 0. -/
def unlink (fuel : Nat) (node : Nat) (m : RBTree α) : Except Fault (Color × Ptr × RBTree α) := do
  match ← m.child .left node, ← m.child .right node with
  | none, sub => return (.black, none, ← transplant node sub m)
  | sub, none => return (.black, none, ← transplant node sub m)
  | some _, some r => do
      let old ← minimum fuel r m
      let original ← color m old
      let sub ← m.child .right old
      if (← m.parent old) = some node then
        let m ← m.setParent (← target sub) (some node)
        return (original, some old, ← takePlace node old m)
      else
        let m ← detachSuccessor node old m
        return (original, some old, ← takePlace node old m)

/-- One pass of the fix-up loop of `_delete`, on `old`. -/
def deleteStep : Ptr × RBTree α → Except Fault (Pass (Ptr × RBTree α) (RBTree α))
  | (old, m) => do
      if old = m.root then return .done m
      else
        let o ← target old
        if (← color m o) = .red then return .done m
        else
          let p ← target (← m.parent o)
          let side := if (← m.child .left p) = old then Side.left else Side.right
          let sibling ← target (← m.child side.other p)
          let (sibling, m) ←
            if (← color m sibling) = .red then do
              let m ← setColor m sibling .black
              let m ← setColor m (← target (← m.parent o)) .red
              let m ← rotateAt side (← target (← m.parent o)) m
              let sibling ← target (← m.child side.other (← target (← m.parent o)))
              pure (sibling, m)
            else pure (sibling, m)
          let both ←
            if (← color m (← target (← m.child .left sibling))) = .black then do
              pure (decide ((← color m (← target (← m.child .right sibling))) = .red))
            else pure false
          if both then
            let m ← setColor m sibling .red
            return .next (← m.parent o, m)
          else
            let (sibling, m) ←
              if (← color m (← target (← m.child side sibling))) = .red then do
                let m ← setColor m sibling .red
                let m ← setColor m (← target (← m.child side sibling)) .black
                let m ← rotateAt side.other sibling m
                let sibling ← target (← m.child side.other (← target (← m.parent o)))
                pure (sibling, m)
              else pure (sibling, m)
            let p ← target (← m.parent o)
            let m ← setColor m sibling (← color m p)
            let m ← setColor m p .black
            let m ← setColor m (← target (← m.child side sibling)) .black
            let m ← rotateAt side p m
            return .next (m.root, m)

/-- `_delete`. -/
def delete (fuel : Nat) (shell : α) (m : RBTree α) : Except Fault (RBTree α) := do
  match ← loop (seekStep (dirFind RBVal.comparator shell) m) fuel m.root with
  | none => return m
  | some node =>
      if (← comparator m node) ≠ shell then return m
      else
        let (original, old, m) ← unlink fuel node m
        let m := { m with heap := m.heap.free node }
        if original = .black then loop deleteStep fuel (old, m) else return m

end Ordered

end RBTree

end Monya.Structures
