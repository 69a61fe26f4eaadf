import Skp.Errno

/-! # The radix tree of `src/adt/radix_tree.c`

Nodes of 64 slots, a 64-bit index read six bits at a time from the top. The loops over levels are
recursions on the height; the path `radix_tree_delete` records is the recursion itself. The allocator is a
parameter: `alloc k` says whether the `k`-th `node_alloc` of a call succeeds. -/
namespace Skp.Adt
set_option autoImplicit false

def radixMapShift : ℕ := 6

/-- What a slot holds: nothing, an item (below the last level), or a node with its number of used slots,
its tag bits and its slots. -/
inductive RadixSlot (V : Type) where
  | null
  | item (v : V)
  | node (count : ℕ) (tags : Fin 3 → Fin 64 → Bool) (slots : Fin 64 → RadixSlot V)

namespace RadixSlot
variable {V : Type}

def isNull : RadixSlot V → Bool
  | null => true
  | _ => false

/-- The item pointer a lookup returns. -/
def value : RadixSlot V → Option V
  | item v => some v
  | _ => none

/-! The fields of a node. An empty slot has those of the zeroed node that `node_alloc` would put there. -/

def count : RadixSlot V → ℕ
  | node c _ _ => c
  | _ => 0

def tags : RadixSlot V → Fin 3 → Fin 64 → Bool
  | node _ t _ => t
  | _ => fun _ _ => false

def slots : RadixSlot V → Fin 64 → RadixSlot V
  | node _ _ f => f
  | _ => fun _ => null

end RadixSlot

structure RadixRoot (V : Type) where
  height : ℕ
  nrNodes : BitVec 64
  rnode : RadixSlot V

def radixInit {V : Type} : RadixRoot V := { height := 0, nrNodes := 0, rnode := .null }

/-- `__maxindex`, the entries of `height_to_maxindex`. -/
def rdtreeMaxindex (height : ℕ) : BitVec 64 :=
  let tmp := height * radixMapShift
  if 64 ≤ tmp then BitVec.allOnes 64 else (BitVec.allOnes 64 >>> (63 - tmp)) >>> 1

def calcOffset (idx : BitVec 64) (shift : ℕ) : Fin 64 := Fin.ofNat 64 ((idx >>> shift).toNat &&& 63)

variable {V : Type}

/-! ## Growing -/

/-- The height `rdtree_extend` looks for; the table ends with an entry that no index exceeds. -/
def raiseHeight (index : BitVec 64) : ℕ → ℕ → ℕ
  | 0, height => height
  | fuel + 1, height => if rdtreeMaxindex height < index then raiseHeight index fuel (height + 1) else height

def anyTag (bits : Fin 64 → Bool) : Bool := (List.finRange 64).any bits

/-- One new root above the present one, its first slot tagged as the old root is. -/
def pushRoot (tags : Fin 3 → Bool) (root : RadixRoot V) : RadixRoot V :=
  { root with
    height := root.height + 1
    rnode := .node 1 (fun t off => tags t && off == 0) (Function.update (fun _ => .null) 0 root.rnode) }

def pushRoots (alloc : ℕ → Bool) (tags : Fin 3 → Bool) : ℕ → RadixRoot V → ℕ → RadixRoot V × ℤ × ℕ
  | 0, root, k => (root, 0, k)
  | n + 1, root, k => if alloc k then pushRoots alloc tags n (pushRoot tags root) (k + 1)
      else (root, eNOMEM, k + 1)

def rdtreeExtend (alloc : ℕ → Bool) (root : RadixRoot V) (index : BitVec 64) : RadixRoot V × ℤ × ℕ :=
  let height := raiseHeight index 12 (root.height + 1)
  if root.rnode.isNull then ({ root with height := height }, 0, 0)
  else pushRoots alloc (fun t => anyTag (root.rnode.tags t)) (height - root.height) root 0

/-! ## The operations -/

/-- The way down of `__radix_tree_insert`, with the counts of the nodes it passes. -/
def insertWalk (alloc : ℕ → Bool) (index : BitVec 64) (v : V) : ℕ → RadixSlot V → ℕ → RadixSlot V × ℤ × ℕ
  | 0, s, k => if s.isNull then (.item v, 0, k) else (s, eEXIST, k)
  | h + 1, s, k =>
      if s.isNull && !alloc k then (s, eNOMEM, k + 1)
      else
        let off := calcOffset index (h * radixMapShift)
        let r := insertWalk alloc index v h (s.slots off) (if s.isNull then k + 1 else k)
        -- the parent counts a child node when it is added and the item when it is stored
        let count := if (s.slots off).isNull && !r.1.isNull then s.count + 1 else s.count
        (.node count s.tags (Function.update s.slots off r.1), r.2)

def radixTreeInsert (alloc : ℕ → Bool) (root : RadixRoot V) (index : BitVec 64) :
    Option V → RadixRoot V × ℤ
  | none => (root, eINVAL)
  | some v =>
      let grown :=
        if (index = 0 ∧ root.rnode.isNull = true) ∨ rdtreeMaxindex root.height < index then
          rdtreeExtend alloc root index
        else (root, 0, 0)
      if grown.2.1 ≠ 0 then (grown.1, grown.2.1)
      else
        let r := insertWalk alloc index v grown.1.height grown.1.rnode grown.2.2
        ({ grown.1 with
            nrNodes := if r.2.1 = 0 then grown.1.nrNodes + 1 else grown.1.nrNodes
            rnode := r.1 }, r.2.1)

/-- The slot an index leads to. -/
def walkSlot (index : BitVec 64) : ℕ → RadixSlot V → RadixSlot V
  | 0, s => s
  | h + 1, s =>
      if s.isNull then .null else walkSlot index h (s.slots (calcOffset index (h * radixMapShift)))

def radixTreeLookup (root : RadixRoot V) (index : BitVec 64) : Option V :=
  if rdtreeMaxindex root.height < index then none else (walkSlot index root.height root.rnode).value

/-- `__fill_path`: the walk of a lookup, with the path kept. -/
def fillPath (root : RadixRoot V) (index : BitVec 64) : Option V :=
  if rdtreeMaxindex root.height < index then none else (walkSlot index root.height root.rnode).value

/-- `__clear_node_tag` from the leaf up; the second component says whether it goes on above. -/
def clearNodeTag (index : BitVec 64) (tag : Fin 3) : ℕ → RadixSlot V → RadixSlot V × Bool
  | 0, s => (s, true)
  | h + 1, s =>
      let off := calcOffset index (h * radixMapShift)
      let r := clearNodeTag index tag h (s.slots off)
      let slots := Function.update s.slots off r.1
      if r.2 && s.tags tag off then
        let bits := Function.update (s.tags tag) off false
        (.node s.count (Function.update s.tags tag bits) slots, !anyTag bits)
      else (.node s.count s.tags slots, false)

/-- Empty the slot of an index and take the nodes out of the tree that have no used slot left. -/
def pruneWalk (index : BitVec 64) : ℕ → RadixSlot V → RadixSlot V
  | 0, _ => .null
  | h + 1, s =>
      let off := calcOffset index (h * radixMapShift)
      let child := pruneWalk index h (s.slots off)
      if child.isNull then
        if s.count - 1 = 0 then .null else .node (s.count - 1) s.tags (Function.update s.slots off child)
      else .node s.count s.tags (Function.update s.slots off child)

def radixTreeDelete (root : RadixRoot V) (index : BitVec 64) : RadixRoot V × Option V :=
  match fillPath root index with
  | none => (root, none)
  | some v =>
      let cleared :=
        (List.finRange 3).foldl (fun s tag => (clearNodeTag index tag root.height s).1) root.rnode
      let rnode := pruneWalk index root.height cleared
      ({ height := if rnode.isNull then 0 else root.height
         nrNodes := root.nrNodes - 1
         rnode := rnode }, some v)

/-! ## The command machine -/

inductive RadixCmd (V : Type) where
  | insert (index : BitVec 64) (item : Option V) (alloc : ℕ → Bool)
  | lookup (index : BitVec 64)
  | delete (index : BitVec 64)

inductive RadixOut (V : Type) where
  | err (e : ℤ)
  | item (o : Option V)

def radixExec (root : RadixRoot V) : RadixCmd V → RadixRoot V × RadixOut V
  | .insert index item alloc =>
      let r := radixTreeInsert alloc root index item
      (r.1, .err r.2)
  | .lookup index => (root, .item (radixTreeLookup root index))
  | .delete index =>
      let r := radixTreeDelete root index
      (r.1, .item r.2)

end Skp.Adt
