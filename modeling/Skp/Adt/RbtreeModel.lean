import Skp.Foundations.RedBlack

/-! # The red-black tree of `src/adt/rbtree.c`

A node's record is what the memory holds of it: the parent and the colour of the `__rb_parent_color` word and
the two children. The mirrored halves of the source are one definition with the side as a parameter. A loop
takes the number of rounds it may make, and a step through a null pointer gives `none`. -/
namespace Skp.Adt
set_option autoImplicit false
open Skp.Foundations

structure RbtNode (N : Type*) where
  parent : Option N
  color : Color
  left : Option N
  right : Option N

variable {N : Type*}

namespace RbtNode

def child (r : RbtNode N) : Side → Option N
  | .left => r.left
  | .right => r.right

def setChild (r : RbtNode N) (d : Side) (v : Option N) : RbtNode N :=
  match d with
  | .left => { r with left := v }
  | .right => { r with right := v }

end RbtNode

/-- The root with its cached leftmost node, and the memory of the nodes. -/
structure RbRoot (N : Type*) where
  heap : N → RbtNode N
  node : Option N
  leftmost : Option N

def rbInit (heap : N → RbtNode N) : RbRoot N := { heap := heap, node := none, leftmost := none }

section Tree
variable [DecidableEq N]

/-! ## Links -/

def RbRoot.put (s : RbRoot N) (x : N) (r : RbtNode N) : RbRoot N :=
  { s with heap := Function.update s.heap x r }

def rbSetParent (s : RbRoot N) (rb : N) (p : Option N) : RbRoot N := s.put rb { s.heap rb with parent := p }

def rbSetParentColor (s : RbRoot N) (rb : N) (p : Option N) (color : Color) : RbRoot N :=
  s.put rb { s.heap rb with parent := p, color := color }

def rbSetBlack (s : RbRoot N) (rb : N) : RbRoot N := s.put rb { s.heap rb with color := .black }

def rbSetChild (s : RbRoot N) (rb : N) (d : Side) (v : Option N) : RbRoot N :=
  s.put rb ((s.heap rb).setChild d v)

/-- A write the source makes when the pointer is not null. -/
def ifNode (tmp : Option N) (s : RbRoot N) (write : RbRoot N → N → RbRoot N) : RbRoot N :=
  match tmp with
  | none => s
  | some t => write s t

def rbChangeChild (s : RbRoot N) (old : N) (new parent : Option N) : RbRoot N :=
  match parent with
  | some p => if (s.heap p).left = some old then rbSetChild s p .left new else rbSetChild s p .right new
  | none => { s with node := new }

def rbRotateSetParents (s : RbRoot N) (old new : N) (color : Color) : RbRoot N :=
  let parent := (s.heap old).parent
  let s := s.put new { s.heap new with parent := (s.heap old).parent, color := (s.heap old).color }
  let s := rbSetParentColor s old (some new) color
  rbChangeChild s old (some new) parent

def isRed (s : RbRoot N) : Option N → Bool
  | none => false
  | some x => decide ((s.heap x).color = .red)

/-! ## Insertion -/

/-- Case 3 of `__rb_insert`: rotate at the grandparent. -/
def rbInsertUp (s : RbRoot N) (d : Side) (parent gparent : N) (tmp : Option N) : RbRoot N :=
  let s := rbSetChild s gparent d tmp
  let s := rbSetChild s parent d.other (some gparent)
  let s := ifNode tmp s fun s t => rbSetParentColor s t (some gparent) .black
  rbRotateSetParents s gparent parent .red

/-- Cases 2 and 3 of `__rb_insert`, the parent being on side `d` of the grandparent. -/
def rbInsertRotate (s : RbRoot N) (d : Side) (node parent gparent : N) : RbRoot N :=
  if (s.heap parent).child d.other = some node then
    let tmp := (s.heap node).child d
    let s := rbSetChild s parent d.other tmp
    let s := rbSetChild s node d (some parent)
    let s := ifNode tmp s fun s t => rbSetParentColor s t (some parent) .black
    let s := rbSetParentColor s parent (some node) .red
    rbInsertUp s d node gparent ((s.heap node).child d.other)
  else rbInsertUp s d parent gparent ((s.heap parent).child d.other)

/-- Case 1 of `__rb_insert`: color flips, and the parent of the grandparent. -/
def rbInsertFlip (s : RbRoot N) (uncle parent gparent : N) : RbRoot N × Option N :=
  let s := rbSetParentColor s uncle (some gparent) .black
  let s := rbSetParentColor s parent (some gparent) .black
  let up := (s.heap gparent).parent
  (rbSetParentColor s gparent up .red, up)

def rbInsertLoop : ℕ → RbRoot N → N → Option N → Option (RbRoot N)
  | 0, _, _, _ => none
  | _ + 1, s, node, none => some (rbSetParentColor s node none .black)
  | fuel + 1, s, node, some parent =>
      if (s.heap parent).color = .black then some s
      else
        match (s.heap parent).parent with
        | none => none
        | some gparent =>
            let d : Side := if (s.heap gparent).right ≠ some parent then .left else .right
            match (s.heap gparent).child d.other with
            | none => some (rbInsertRotate s d node parent gparent)
            | some uncle =>
                if (s.heap uncle).color = .red then
                  rbInsertLoop fuel (rbInsertFlip s uncle parent gparent).1 gparent
                    (rbInsertFlip s uncle parent gparent).2
                else some (rbInsertRotate s d node parent gparent)

/-- `__rb_insert`. -/
def rbInsert (fuel : ℕ) (s : RbRoot N) (node : N) (newLeft : Bool) : Option (RbRoot N) :=
  rbInsertLoop fuel (if newLeft then { s with leftmost := some node } else s) node (s.heap node).parent

/-! ## Erasing -/

/-- Case 4 of `__rb_erase_color`. -/
def rbEraseUp (s : RbRoot N) (d : Side) (parent sibling tmp1 : N) : RbRoot N :=
  let tmp2 := (s.heap sibling).child d
  let s := rbSetChild s parent d.other tmp2
  let s := rbSetChild s sibling d (some parent)
  let s := rbSetParentColor s tmp1 (some sibling) .black
  let s := ifNode tmp2 s fun s t => rbSetParent s t (some parent)
  rbRotateSetParents s parent sibling .black

/-- Case 3 of `__rb_erase_color`, and then 4 with the near child of the sibling in the sibling's place. -/
def rbEraseInner (s : RbRoot N) (d : Side) (parent sibling tmp2 : N) : RbRoot N :=
  let tmp1 := (s.heap tmp2).child d.other
  let s := rbSetChild s sibling d tmp1
  let s := rbSetChild s tmp2 d.other (some sibling)
  let s := rbSetChild s parent d.other (some tmp2)
  let s := ifNode tmp1 s fun s t => rbSetParentColor s t (some sibling) .black
  rbEraseUp s d parent tmp2 sibling

inductive EraseNext (N : Type*) where
  | done (s : RbRoot N)
  | again (s : RbRoot N) (node parent : N)

/-- Cases 2, 3 and 4 of `__rb_erase_color`, once the sibling is black. -/
def rbEraseBlack (s : RbRoot N) (d : Side) (parent sibling : N) : Option (EraseNext N) :=
  let tmp1 := (s.heap sibling).child d.other
  if isRed s tmp1 = false then
    let tmp2 := (s.heap sibling).child d
    if isRed s tmp2 = false then
      let s := rbSetParentColor s sibling (some parent) .red
      if (s.heap parent).color = .red then some (.done (rbSetBlack s parent))
      else
        match (s.heap parent).parent with
        | some up => some (.again s parent up)
        | none => some (.done s)
    else
      tmp2.bind fun tmp2 => some (.done (rbEraseInner s d parent sibling tmp2))
  else tmp1.bind fun tmp1 => some (.done (rbEraseUp s d parent sibling tmp1))

/-- Case 1 of `__rb_erase_color`: rotate a red sibling up, its near child is the new sibling. -/
def rbEraseRed (s : RbRoot N) (d : Side) (parent sibling : N) : Option (RbRoot N × N) :=
  let tmp1 := (s.heap sibling).child d
  let s := rbSetChild s parent d.other tmp1
  let s := rbSetChild s sibling d (some parent)
  tmp1.bind fun tmp1 =>
    let s := rbSetParentColor s tmp1 (some parent) .black
    some (rbRotateSetParents s parent sibling .red, tmp1)

def rbEraseRound (s : RbRoot N) (node : Option N) (parent : N) : Option (EraseNext N) :=
  let d : Side := if node ≠ (s.heap parent).right then .left else .right
  ((s.heap parent).child d.other).bind fun sibling =>
    if (s.heap sibling).color = .red then
      (rbEraseRed s d parent sibling).bind fun k => rbEraseBlack k.1 d parent k.2
    else rbEraseBlack s d parent sibling

def rbEraseLoop : ℕ → RbRoot N → Option N → N → Option (RbRoot N)
  | 0, _, _, _ => none
  | fuel + 1, s, node, parent =>
      (rbEraseRound s node parent).bind fun next =>
        match next with
        | .done s => some s
        | .again s node parent => rbEraseLoop fuel s (some node) parent

/-- `__rb_erase_color`. -/
def rbEraseColor (fuel : ℕ) (s : RbRoot N) (parent : N) : Option (RbRoot N) := rbEraseLoop fuel s none parent

/-! ## Walking -/

/-- The end of the way down on one side. -/
def rbtDescend : ℕ → RbRoot N → Side → N → Option N
  | 0, _, _, _ => none
  | fuel + 1, s, d, n =>
      match (s.heap n).child d with
      | none => some n
      | some m => rbtDescend fuel s d m

/-- Up while the node is on the given side of its parent: the parent after that, which may be null. -/
def rbtClimb : ℕ → RbRoot N → Side → N → Option (Option N)
  | 0, _, _, _ => none
  | fuel + 1, s, d, node =>
      match (s.heap node).parent with
      | none => some none
      | some parent => if (s.heap parent).child d = some node then rbtClimb fuel s d parent
          else some (some parent)

/-- `RBT_EMPTY_NODE`: the word of a cleared node is the node's own address. -/
def rbtEmptyNode (s : RbRoot N) (x : N) : Bool :=
  decide ((s.heap x).parent = some x ∧ (s.heap x).color = .red)

def rbtClearNode (s : RbRoot N) (x : N) : RbRoot N := rbSetParentColor s x (some x) .red

/-- `rbt_first` and `rbt_last`. -/
def rbtEnd (fuel : ℕ) (s : RbRoot N) (d : Side) : Option (Option N) :=
  match s.node with
  | none => some none
  | some n => (rbtDescend fuel s d n).map some

def rbtFirst (fuel : ℕ) (s : RbRoot N) : Option (Option N) := rbtEnd fuel s .left
def rbtLast (fuel : ℕ) (s : RbRoot N) : Option (Option N) := rbtEnd fuel s .right

/-- `rbt_next` and `rbt_prev`: the neighbour on the given side. -/
def rbtStep (fuel : ℕ) (s : RbRoot N) (d : Side) (node : N) : Option (Option N) :=
  if rbtEmptyNode s node then some none
  else
    match (s.heap node).child d with
    | some m => (rbtDescend fuel s d.other m).map some
    | none => rbtClimb fuel s d node

def rbtNext (fuel : ℕ) (s : RbRoot N) (node : N) : Option (Option N) := rbtStep fuel s .right node
def rbtPrev (fuel : ℕ) (s : RbRoot N) (node : N) : Option (Option N) := rbtStep fuel s .left node

/-! ## Unlinking a node -/

/-- The successor below `successor`'s left child and the node above it. -/
def rbSuccessor : ℕ → RbRoot N → N → N → Option (N × N)
  | 0, _, _, _ => none
  | fuel + 1, s, successor, tmp =>
      match (s.heap tmp).left with
      | none => some (successor, tmp)
      | some tmp' => rbSuccessor fuel s tmp tmp'

/-- The last part of cases 2 and 3 of `__rb_erase_node`: the successor takes the node's place. -/
def rbReplace (s : RbRoot N) (node successor parent : N) (child2 : Option N) : Option (RbRoot N × Option N) :=
  ((s.heap node).left).bind fun tmp =>
    let s := rbSetChild s successor .left (some tmp)
    let s := rbSetParent s tmp (some successor)
    let p := (s.heap node).parent
    let c := (s.heap node).color
    let s := rbChangeChild s node (some successor) p
    match child2 with
    | some child2 =>
        let s := rbSetParentColor s successor p c
        some (rbSetParentColor s child2 (some parent) .black, none)
    | none =>
        let c2 := (s.heap successor).color
        let s := rbSetParentColor s successor p c
        some (s, if c2 = .black then some parent else none)

/-- `__rb_erase_node` below its first lines: the tree without the node, and where to rebalance. -/
def rbUnlink (fuel : ℕ) (s : RbRoot N) (node : N) : Option (RbRoot N × Option N) :=
  match (s.heap node).left, (s.heap node).right with
  | none, child =>
      let p := (s.heap node).parent
      let c := (s.heap node).color
      let s := rbChangeChild s node child p
      match child with
      | some child => some (rbSetParentColor s child p c, none)
      | none => some (s, if c = .black then p else none)
  | some tmp, none =>
      let p := (s.heap node).parent
      let c := (s.heap node).color
      let s := rbSetParentColor s tmp p c
      some (rbChangeChild s node (some tmp) p, none)
  | some _, some child =>
      match (s.heap child).left with
      | none => rbReplace s node child child (s.heap child).right
      | some tmp =>
          (rbSuccessor fuel s child tmp).bind fun k =>
            let child2 := (s.heap k.2).right
            let s := rbSetChild s k.1 .left child2
            let s := rbSetChild s k.2 .right (some child)
            let s := rbSetParent s child (some k.2)
            rbReplace s node k.2 k.1 child2

/-- `__rb_erase_node`: the leftmost node moves on if it is the one to go. -/
def rbEraseNode (fuel : ℕ) (s : RbRoot N) (node : N) : Option (RbRoot N × Option N) :=
  (if s.leftmost = some node then (rbtNext fuel s node).map fun next => { s with leftmost := next }
    else some s).bind
    fun s => rbUnlink fuel s node

/-- `__rb_erase_node` and, where it asks for it, `__rb_erase_color`. -/
def rbtEraseCached (fuel : ℕ) (s : RbRoot N) (node : N) : Option (RbRoot N) :=
  (rbEraseNode fuel s node).bind fun k =>
    match k.2 with
    | some rebalance => rbEraseColor fuel k.1 rebalance
    | none => some k.1

/-! ## The tree with its compare callbacks -/

structure RbtreeOps (N K : Type*) where
  compareKey : N → K → ℤ
  compareNode : N → N → ℤ

variable {K : Type*} (ops : RbtreeOps N K)

/-- What the descent of `__rbtree_insert_node` ends with: an equal node, or the empty link. -/
inductive InsertPoint (N : Type*) where
  | present (x : N)
  | link (parent : Option (N × Side)) (leftmost : Bool)

/-- The descent, at the node a link holds: the link is that of the root or of a node's side. -/
def insertPoint : ℕ → RbRoot N → N → Bool → Option (N × Side) → Bool → Option N → Option (InsertPoint N)
  | 0, _, _, _, _, _, _ => none
  | _ + 1, _, _, _, link, leftmost, none => some (.link link leftmost)
  | fuel + 1, s, node, multi, _, leftmost, some parent =>
      if 0 < ops.compareNode parent node then
        insertPoint fuel s node multi (some (parent, .left)) leftmost (s.heap parent).left
      else if ops.compareNode parent node = 0 ∧ multi = false then some (.present parent)
      else insertPoint fuel s node multi (some (parent, .right)) false (s.heap parent).right

def rbtLinkNode (s : RbRoot N) (node : N) : Option (N × Side) → RbRoot N
  | none => { s.put node ⟨none, .red, none, none⟩ with node := some node }
  | some (parent, d) => rbSetChild (s.put node ⟨some parent, .red, none, none⟩) parent d (some node)

/-- `__rbtree_insert_node`. -/
def rbtreeInsert (fuel : ℕ) (s : RbRoot N) (node : N) (multi update : Bool) : Option (RbRoot N × Option N) :=
  (insertPoint ops fuel s node multi none true s.node).bind fun point =>
    match point with
    | .present x => some (s, some x)
    | .link link leftmost =>
        (rbInsert fuel (rbtLinkNode s node link) node (if update then leftmost
          else false)).map fun s => (s, none)

def rbtreeInsertNodeCached (fuel : ℕ) (s : RbRoot N) (node : N) : Option (RbRoot N × Option N) :=
  rbtreeInsert ops fuel s node false true

def rbtreeMultiInsertNodeCached (fuel : ℕ) (s : RbRoot N) (node : N) : Option (RbRoot N) :=
  (rbtreeInsert ops fuel s node true true).map Prod.fst

def lookupLoop : ℕ → RbRoot N → K → Option N → Option (Option N)
  | 0, _, _, _ => none
  | _ + 1, _, _, none => some none
  | fuel + 1, s, key, some next =>
      if ops.compareKey next key < 0 then lookupLoop fuel s key (s.heap next).right
      else if ops.compareKey next key = 0 then some (some next)
      else lookupLoop fuel s key (s.heap next).left

def rbtreeLookup (fuel : ℕ) (s : RbRoot N) (key : K) : Option (Option N) := lookupLoop ops fuel s key s.node

/-- The loop of `rbtree_lookup_first` and `rbtree_lookup_last`: on while the neighbour is equal. -/
def equalEnd (walk : ℕ) : ℕ → RbRoot N → Side → N → Option N
  | 0, _, _, _ => none
  | fuel + 1, s, d, last =>
      (rbtStep walk s d last).bind fun node =>
        match node with
        | none => some last
        | some node => if ops.compareNode last node ≠ 0 then some last else equalEnd walk fuel s d node

def lookupEnd (fuel : ℕ) (s : RbRoot N) (d : Side) (key : K) : Option (Option N) :=
  (rbtreeLookup ops fuel s key).bind fun last =>
    match last with
    | none => some none
    | some last => (equalEnd ops fuel fuel s d last).map some

def rbtreeLookupFirst (fuel : ℕ) (s : RbRoot N) (key : K) : Option (Option N) :=
  lookupEnd ops fuel s .left key
def rbtreeLookupLast (fuel : ℕ) (s : RbRoot N) (key : K) : Option (Option N) :=
  lookupEnd ops fuel s .right key

/-- `rbtree_lookup_next` and `rbtree_lookup_prev`. -/
def lookupStep (fuel : ℕ) (s : RbRoot N) (d : Side) (prev : N) : Option (Option N) :=
  (rbtStep fuel s d prev).map fun node =>
    match node with
    | none => none
    | some node => if ops.compareNode node prev = 0 then some node else none

def rbtreeLookupNext (fuel : ℕ) (s : RbRoot N) (prev : N) : Option (Option N) :=
  lookupStep ops fuel s .right prev
def rbtreeLookupPrev (fuel : ℕ) (s : RbRoot N) (prev : N) : Option (Option N) :=
  lookupStep ops fuel s .left prev

def rbtreeRemoveNodeCached (fuel : ℕ) (s : RbRoot N) (node : N) : Option (RbRoot N) :=
  (rbtEraseCached fuel s node).map fun s => rbtClearNode s node

def rbtreeRemoveCached (fuel : ℕ) (s : RbRoot N) (key : K) : Option (RbRoot N × Option N) :=
  (rbtreeLookupFirst ops fuel s key).bind fun node =>
    match node with
    | none => some (s, none)
    | some node => (rbtEraseCached fuel s node).map fun s => (rbtClearNode s node, some node)

end Tree

end Skp.Adt
