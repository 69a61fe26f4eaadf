import Skp.Foundations.Refinement
import Skp.Adt.RbtreeShape

/-! # The heap of `src/adt/heap.c`

A red-black tree in which equal nodes stand in the order of their insertion. The callback reads what
the entries of the two nodes contain; a node's contents may change while it is not in the heap. -/
namespace Skp.Adt
set_option autoImplicit false
open Skp.Foundations

/-- `struct heap`, the memory of the tree nodes being in `root`. `compareNode o n` sends the new
node to the left. -/
structure Heap (N V : Type*) where
  root : RbRoot N
  compareNode : V → V → Bool
  value : N → V

section Model
variable {N V : Type*} [DecidableEq N]

def heapInit (compareNode : V → V → Bool) (memory : N → RbtNode N) (value : N → V) : Heap N V :=
  { root := rbInit memory, compareNode := compareNode, value := value }

/-- The loop of `heap_insert`: the link to the new node and `leftmost`. -/
def heapDescend : ℕ → Heap N V → N → Option (N × Side) → Bool → Option N → Option (Option (N × Side) × Bool)
  | 0, _, _, _, _, _ => none
  | _ + 1, _, _, link, leftmost, none => some (link, leftmost)
  | fuel + 1, heap, node, _, leftmost, some existed =>
      if heap.compareNode (heap.value existed) (heap.value node) then
        heapDescend fuel heap node (some (existed, .left)) leftmost (heap.root.heap existed).left
      else heapDescend fuel heap node (some (existed, .right)) false (heap.root.heap existed).right

def heapInsert (fuel : ℕ) (heap : Heap N V) (node : N) : Option (Heap N V × Bool) :=
  (heapDescend fuel heap node none true heap.root.node).bind fun p =>
    (rbInsert fuel (rbtLinkNode heap.root node p.1) node p.2).map fun root =>
      ({ heap with root := root }, p.2)

/-- `heap_remove` with the checks of a `DEBUG` build; `none` where a `BUG_ON` fires. -/
def heapRemove (fuel : ℕ) (heap : Heap N V) (node : N) : Option (Heap N V) :=
  if heap.root.node = none ∨ rbtEmptyNode heap.root node = true then none
  else (rbtEraseCached fuel heap.root node).map fun root => { heap with root := rbtClearNode root node }

def heapPeek (heap : Heap N V) : Option N := if heap.root.node = none then none else heap.root.leftmost

def heapExtract (fuel : ℕ) (heap : Heap N V) : Option (Heap N V × Option N) :=
  match heapPeek heap with
  | none => some (heap, none)
  | some node => (heapRemove fuel heap node).map fun heap => (heap, some node)

def heapInodeInit (heap : Heap N V) (node : N) (value : V) : Heap N V :=
  { heap with root := rbtClearNode heap.root node, value := Function.update heap.value node value }

def iheapUpdate (fuel : ℕ) (heap : Heap N V) (n : N) (value : V) : Option (Heap N V × Bool) :=
  (heapRemove fuel heap n).bind fun heap =>
    heapInsert fuel { heap with value := Function.update heap.value n value } n

end Model

/-- `__iheap_less`, the callback of `DEFINE_MINIHEAP`. -/
def iheapLess (old new : ℤ) : Bool := decide (new < old)

/-- `__iheap_greate`, the callback of `DEFINE_MAXIHEAP`. -/
def iheapGreate (old new : ℤ) : Bool := decide (new > old)

/-! ## Calls -/

inductive HeapCmd (N V : Type*) where
  | init (node : N) (value : V)
  | insert (node : N)
  | remove (node : N)
  | peek
  | extract
  | update (node : N) (value : V)

inductive HeapOut (N : Type*) where
  | done
  | leftmost (b : Bool)
  | node (n : Option N)

section Calls
variable {N V : Type*} [DecidableEq N]

def heapExec (fuel : ℕ) (heap : Heap N V) : HeapCmd N V → Option (Heap N V × HeapOut N)
  | .init node value => some (heapInodeInit heap node value, .done)
  | .insert node => (heapInsert fuel heap node).map fun r => (r.1, .leftmost r.2)
  | .remove node => (heapRemove fuel heap node).map fun heap => (heap, .done)
  | .peek => some (heap, .node (heapPeek heap))
  | .extract => (heapExtract fuel heap).map fun r => (r.1, .node r.2)
  | .update node value => (iheapUpdate fuel heap node value).map fun r => (r.1, .leftmost r.2)

/-! ## The stable priority queue -/

/-- The entries with the one inserted or updated last at the end. -/
structure StableQueue (N V : Type*) where
  entries : List N
  value : N → V

namespace StableQueue
variable (compareNode : V → V → Bool) (q : StableQueue N V)

/-- `n` comes before `m` in the callback's order. -/
def before (n m : N) : Bool := compareNode (q.value m) (q.value n)

/-- Of the entries with nothing before them the one that has been there for longest. -/
def next : Option N := q.entries.find? fun n => q.entries.all fun m => !q.before compareNode m n

def insert (n : N) : StableQueue N V := { q with entries := q.entries ++ [n] }
def remove (n : N) : StableQueue N V := { q with entries := q.entries.erase n }
def assign (n : N) (v : V) : StableQueue N V := { q with value := Function.update q.value n v }

end StableQueue

/-- What the calls do to the queue. Insertions and updates tell whether the node is the next one. -/
def heapSpec (compareNode : V → V → Bool) : Spec (StableQueue N V) (HeapCmd N V) (HeapOut N) where
  legal q
    | .init n _ => n ∉ q.entries
    | .insert n => n ∉ q.entries
    | .remove n => n ∈ q.entries
    | .peek => True
    | .extract => True
    | .update n _ => n ∈ q.entries
  next q
    | .init n v => q.assign n v
    | .insert n => q.insert n
    | .remove n => q.remove n
    | .peek => q
    | .extract => ((q.next compareNode).map q.remove).getD q
    | .update n v => ((q.remove n).assign n v).insert n
  out q
    | .init _ _, o => o = .done
    | .insert n, o => o = .leftmost (decide ((q.insert n).next compareNode = some n))
    | .remove _, o => o = .done
    | .peek, o => o = .node (q.next compareNode)
    | .extract, o => o = .node (q.next compareNode)
    | .update n v, o =>
        o = .leftmost (decide ((((q.remove n).assign n v).insert n).next compareNode = some n))

/-- The tree is made of the entries of the queue. -/
structure HeapHolds (heap : Heap N V) (q : StableQueue N V) : Prop where
  value : heap.value = q.value
  tree : ∃ t, heap.root.node = RbTree.root t ∧ Shape heap.root.heap none t ∧ t.toList.Nodup ∧
    t.toList.Perm q.entries

end Calls

end Skp.Adt
