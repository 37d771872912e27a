import CoreZ.Lib.RedBlack

/-!
# `CoreZ.Rbtree`: the red-black tree of `lib/rbtree/rbtree.c`

Nodes live in a heap: `node a` is the `struct RB_NODE` at the address
`a`, and a pointer is an `Option Nat` with `none` for `NULL`. `root` is
the field of `struct RB_ROOT`. A function of the source becomes a
function of the heap; it returns `none` where the source would follow a
null pointer. The loops take fuel, and running out of it is `none` as
well, so every theorem that gives a `some` excludes both.

The source writes each algorithm twice, once for each side. Here the
side is a parameter: `rb_rotate_left` is `rbRotate .left`, and the two
branches of a fixup are one definition at `.left` and `.right`. Writes
stand in the order of the source.
-/

set_option autoImplicit false

namespace CoreZ.Rbtree

open CoreZ.Lib.RedBlack (Side Color)

structure RbNode where
  parent : Option Nat
  left : Option Nat
  right : Option Nat
  color : Color
  key : Nat
  deriving DecidableEq

def RbNode.child (n : RbNode) : Side → Option Nat
  | .left => n.left
  | .right => n.right

def RbNode.withChild (n : RbNode) (s : Side) (q : Option Nat) : RbNode :=
  match s with
  | .left => { n with left := q }
  | .right => { n with right := q }

def RbNode.withParent (n : RbNode) (p : Option Nat) : RbNode := { n with parent := p }

def RbNode.withColor (n : RbNode) (c : Color) : RbNode := { n with color := c }

structure RbHeap where
  root : Option Nat
  node : Nat → RbNode

variable (h : RbHeap)

namespace RbHeap

/-- Write one node. -/
def modify (a : Nat) (f : RbNode → RbNode) : RbHeap :=
  { h with node := Function.update h.node a (f (h.node a)) }

def setParent (a : Nat) (p : Option Nat) : RbHeap :=
  h.modify a fun n => n.withParent p

def setColor (a : Nat) (c : Color) : RbHeap := h.modify a fun n => n.withColor c

def setKey (a : Nat) (k : Nat) : RbHeap := h.modify a fun n => { n with key := k }

def setChild (s : Side) (a : Nat) (q : Option Nat) : RbHeap :=
  h.modify a fun n => n.withChild s q

/-- `if (q) q->parent = p`. -/
def setParentOf (q : Option Nat) (p : Option Nat) : RbHeap :=
  match q with
  | none => h
  | some a => h.setParent a p

/-- `if (q) q->color = c`. -/
def setColorOf (q : Option Nat) (c : Color) : RbHeap :=
  match q with
  | none => h
  | some a => h.setColor a c

/-- The link to `old` in its parent `p`, or in the root, becomes `new`. -/
def replaceChild (p : Option Nat) (old new : Option Nat) : RbHeap :=
  match p with
  | none => { h with root := new }
  | some p =>
    if (h.node p).left = old then h.setChild .left p new else h.setChild .right p new

/-- `q && q->color == RB_RED`. -/
def isRed (q : Option Nat) : Bool :=
  match q with
  | none => false
  | some a => decide ((h.node a).color = .red)

end RbHeap

/-- `rb_rotate_left` and `rb_rotate_right`: `s` is the side the node
`x` moves to. -/
def rbRotate (s : Side) (h : RbHeap) (x : Nat) : Option RbHeap := do
  let y ← (h.node x).child s.opp
  let h := h.setChild s.opp x ((h.node y).child s)
  let h := h.setParentOf ((h.node y).child s) (some x)
  let h := h.setParent y (h.node x).parent
  let h := h.replaceChild (h.node x).parent (some x) (some y)
  let h := h.setChild s y (some x)
  return h.setParent x (some y)

def rbRotateLeft : RbHeap → Nat → Option RbHeap := rbRotate .left

def rbRotateRight : RbHeap → Nat → Option RbHeap := rbRotate .right

/-! ### Insertion -/

/-- The body of the loop of `rb_insert_fixup` for a parent `p` that is
the child of `g` on the side `s`: the heap and the next `node`. -/
def rbInsertFixupBody (s : Side) (h : RbHeap) (node p g : Nat) : Option (RbHeap × Nat) :=
  let uncle := (h.node g).child s.opp
  if h.isRed uncle then
    let h := h.setColor p .black
    let h := h.setColorOf uncle .black
    let h := h.setColor g .red
    some (h, g)
  else do
    let (h, node) ←
      if some node = (h.node p).child s.opp then (rbRotate s h p).map fun h => (h, p)
      else some (h, node)
    let q ← (h.node node).parent
    let h := h.setColor q .black
    let h := h.setColor g .red
    let h ← rbRotate s.opp h g
    return (h, node)

/-- `rb_insert_fixup`. -/
def rbInsertFixup : Nat → RbHeap → Nat → Option RbHeap
  | 0, _, _ => none
  | fuel + 1, h, node =>
    match (h.node node).parent with
    | none => do return h.setColor (← h.root) .black
    | some p =>
      if (h.node p).color = .red then do
        let g ← (h.node p).parent
        let s : Side := if (h.node g).left = some p then .left else .right
        let (h, node) ← rbInsertFixupBody s h node p g
        rbInsertFixup fuel h node
      else do return h.setColor (← h.root) .black

/-- The search loop of `rb_insert`: a node with the key (on the left),
or the last node on the way. -/
def rbInsertSearch : Nat → RbHeap → Nat → Option Nat → Option Nat → Option (Nat ⊕ Option Nat)
  | 0, _, _, _, _ => none
  | _ + 1, _, _, parent, none => some (.inr parent)
  | fuel + 1, h, key, _, some cur =>
    if key < (h.node cur).key then rbInsertSearch fuel h key (some cur) (h.node cur).left
    else if key > (h.node cur).key then rbInsertSearch fuel h key (some cur) (h.node cur).right
    else some (.inl cur)

/-- `rb_insert`: the heap and the returned pointer. -/
def rbInsert (fuel : Nat) (h : RbHeap) (node : Nat) : Option (RbHeap × Option Nat) :=
  match h.root with
  | none =>
    let h := { h with root := some node }
    let h := h.modify node fun n =>
      { n with parent := none, left := none, right := none, color := .black }
    some (h, none)
  | some cur => do
      match ← rbInsertSearch fuel h (h.node node).key none (some cur) with
      | .inl found => return (h, some found)
      | .inr parent =>
        let parent ← parent
        let h := h.modify node fun n =>
          { n with parent := some parent, left := none, right := none, color := .red }
        let s : Side := if (h.node node).key < (h.node parent).key then .left else .right
        let h := h.setChild s parent (some node)
        let h ← rbInsertFixup fuel h node
        return (h, none)

/-! ### Deletion -/

/-- The start of the body of the loop of `rb_erase_fixup` for a `node` on
the side `s` of `p`: a red sibling is rotated away. The heap and the
sibling. -/
def rbEraseFixupSibling (s : Side) (h : RbHeap) (p : Nat) : Option (RbHeap × Option Nat) :=
  match (h.node p).child s.opp with
  | some w =>
    if (h.node w).color = .red then do
      let h := h.setColor w .black
      let h := h.setColor p .red
      let h ← rbRotate s h p
      return (h, (h.node p).child s.opp)
    else some (h, some w)
  | none => some (h, none)

/-- The rest of the body, with a sibling that is not red: the heap, the
next `node`, and the next `parent`, or `none` after the `break`. -/
def rbEraseFixupBlack (s : Side) (h : RbHeap) (p : Nat) :
    Option Nat → Option (RbHeap × Option Nat × Option (Option Nat))
  | none => some (h, some p, some (h.node p).parent)
  | some w =>
    if h.isRed (h.node w).left = false ∧ h.isRed (h.node w).right = false then
      let h := h.setColor w .red
      some (h, some p, some (h.node p).parent)
    else do
      let (h, sibling) ←
        if h.isRed ((h.node w).child s.opp) = false then do
          let h := h.setColorOf ((h.node w).child s) .black
          let h := h.setColor w .red
          let h ← rbRotate s.opp h w
          some (h, (h.node p).child s.opp)
        else some (h, some w)
      let h :=
        match sibling with
        | none => h.setColor p .black
        | some w =>
          let h := h.setColor w (h.node p).color
          let h := h.setColor p .black
          h.setColorOf ((h.node w).child s.opp) .black
      let h ← rbRotate s h p
      return (h, h.root, none)

/-- The body of the loop of `rb_erase_fixup`. -/
def rbEraseFixupBody (s : Side) (h : RbHeap) (p : Nat) :
    Option (RbHeap × Option Nat × Option (Option Nat)) := do
  let (h, sibling) ← rbEraseFixupSibling s h p
  rbEraseFixupBlack s h p sibling

/-- `rb_erase_fixup`. -/
def rbEraseFixup : Nat → RbHeap → Option Nat → Option Nat → Option RbHeap
  | 0, _, _, _ => none
  | fuel + 1, h, node, parent =>
    if h.isRed node then some (h.setColorOf node .black)
    else
      match parent with
      | none => some (h.setColorOf node .black)
      | some p => do
          let s : Side := if (h.node p).left = node then .left else .right
          match ← rbEraseFixupBody s h p with
          | (h, node, none) => return h.setColorOf node .black
          | (h, node, some parent) => rbEraseFixup fuel h node parent

/-- `while (successor->left != NULL) successor = successor->left`. -/
def rbSuccessor : Nat → RbHeap → Nat → Option Nat
  | 0, _, _ => none
  | fuel + 1, h, cur =>
    match (h.node cur).left with
    | none => some cur
    | some l => rbSuccessor fuel h l

/-- The unlinking part of `rb_erase` for a node with two children: the
heap, the removed color, `child` and `fix_parent`. -/
def rbEraseTwo (fuel : Nat) (h : RbHeap) (old : Nat) :
    Option (RbHeap × Color × Option Nat × Option Nat) := do
  let successor ← rbSuccessor fuel h (← (h.node old).right)
  let color := (h.node successor).color
  let child := (h.node successor).right
  let parent ← (h.node successor).parent
  let h := h.setParentOf child (some parent)
  let h := h.setChild (if parent = old then .right else .left) parent child
  let h := h.modify successor fun n =>
    { n with
      parent := (h.node old).parent, color := (h.node old).color,
      left := (h.node old).left, right := (h.node old).right }
  let h := h.replaceChild (h.node old).parent (some old) (some successor)
  let h := h.setParentOf (h.node successor).left (some successor)
  let h := h.setParentOf (h.node successor).right (some successor)
  let h := h.modify old fun n => { n with parent := none, left := none, right := none }
  return (h, color, child, if parent = old then some successor else some parent)

/-- The unlinking part of `rb_erase` for a node with at most one
child. -/
def rbEraseOne (node : Nat) (child : Option Nat) : RbHeap × Color × Option Nat × Option Nat :=
  let color := (h.node node).color
  let parent := (h.node node).parent
  let h := h.setParentOf child parent
  let h := h.replaceChild parent (some node) child
  (h, color, child, parent)

/-- `rb_erase` up to the label `fixup`. -/
def rbEraseUnlink (fuel : Nat) (h : RbHeap) (node : Nat) :
    Option (RbHeap × Color × Option Nat × Option Nat) :=
  match (h.node node).left, (h.node node).right with
  | none, r => some (rbEraseOne h node r)
  | some l, none => some (rbEraseOne h node (some l))
  | some _, some _ => rbEraseTwo fuel h node

/-- `rb_erase`. -/
def rbErase (fuel : Nat) (h : RbHeap) (node : Nat) : Option RbHeap := do
  let (h, color, child, fixParent) ← rbEraseUnlink fuel h node
  let h ← if color = .black then rbEraseFixup fuel h child fixParent else some h
  return h.modify node fun n => { n with parent := none, left := none, right := none }

/-! ### Lookup -/

/-- `rb_first`. -/
def rbFirst (fuel : Nat) (h : RbHeap) : Option (Option Nat) :=
  match h.root with
  | none => some none
  | some cur => (rbSuccessor fuel h cur).map some

/-- The loop of `rb_find`. -/
def rbFindLoop : Nat → RbHeap → Nat → Option Nat → Option (Option Nat)
  | 0, _, _, _ => none
  | _ + 1, _, _, none => some none
  | fuel + 1, h, key, some cur =>
    if key < (h.node cur).key then rbFindLoop fuel h key (h.node cur).left
    else if key > (h.node cur).key then rbFindLoop fuel h key (h.node cur).right
    else some (some cur)

/-- `rb_find`. -/
def rbFind (fuel : Nat) (h : RbHeap) (key : Nat) : Option (Option Nat) :=
  rbFindLoop fuel h key h.root

end CoreZ.Rbtree
