import Skp.Adt.RadixTags
import Skp.Adt.DictModel

/-! # Range lookups in a radix tree

`__lookup` and `__lookup_tag` go down once from an index and take the items of the last-level node
they reach; the gang lookups repeat them from the returned index. The loops that need a bound in
Lean take the number of their rounds; the faults are the places where the C code would not go on. -/
namespace Skp.Adt
set_option autoImplicit false

inductive RadixFault where
  | nullDeref
  | bugOn
  | badHeight
  | rounds
deriving DecidableEq

variable {V : Type}

/-- `index &= ~((1ULL << shift) - 1)`. -/
def alignDown (index : BitVec 64) (shift : ℕ) : BitVec 64 := index &&& ~~~(((1 : BitVec 64) <<< shift) - 1)

/-- The entries of `height_to_maxindex`, of which there are `RADIX_TREE_MAX_PATH`. -/
def heightToMaxindex (height : ℕ) : Except RadixFault (BitVec 64) :=
  if height < 12 then .ok (rdtreeMaxindex height) else .error .badHeight

/-! ## Plain lookup -/

/-- The loop over the slots of a node up to a used one; without a slot the lookup ends. -/
def skipEmpty (shift : ℕ) (slots : Fin 64 → RadixSlot V) :
    List (Fin 64) → BitVec 64 → BitVec 64 × Option (Fin 64)
  | [], index => (index, none)
  | off :: offs, index =>
      if (slots off).isNull then
        let index := alignDown index shift + (1 : BitVec 64) <<< shift
        if index = 0 then (index, none) else skipEmpty shift slots offs index
      else (index, some off)

/-- The items of a last-level node, until there are enough. -/
def grabItems (slots : Fin 64 → RadixSlot V) (maxItems : ℕ) :
    List (Fin 64) → BitVec 64 → List V → BitVec 64 × List V
  | [], index, found => (index, found)
  | off :: offs, index, found =>
      match (slots off).value with
      | none => grabItems slots maxItems offs (index + 1) found
      | some v =>
          if found.length + 1 = maxItems then (index + 1, found ++ [v])
          else grabItems slots maxItems offs (index + 1) (found ++ [v])

/-- `__lookup` below a slot: the index it stops at and the items. -/
def lookupWalk (maxItems : ℕ) : ℕ → RadixSlot V → BitVec 64 → Except RadixFault (BitVec 64 × List V)
  | 0, _, index => .ok (index, [])
  | h + 1, s, index =>
      if s.isNull then .error .nullDeref
      else
        let offs := (List.finRange 64).drop (calcOffset index (h * radixMapShift))
        match skipEmpty (h * radixMapShift) s.slots offs index with
        | (index, none) => .ok (index, [])
        | (index, some off) =>
            if h = 0 then
              .ok
              (grabItems s.slots maxItems ((List.finRange 64).drop (calcOffset index 0)) index [])
            else lookupWalk maxItems h (s.slots off) index

/-- The loop of the gang lookups; `next` is the `next_index` of the last round, 0 before the first one. -/
def gangLoop (look : ℕ → BitVec 64 → Except RadixFault (BitVec 64 × List V)) (maxIndex : BitVec 64)
    (maxItems : ℕ) :
    ℕ → BitVec 64 → BitVec 64 → List V → Except RadixFault (List V × BitVec 64)
  | 0, _, _, _ => .error .rounds
  | rounds + 1, cur, next, results =>
      if maxItems ≤ results.length ∨ maxIndex < cur then .ok (results, next)
      else
        match look (maxItems - results.length) cur with
        | .error e => .error e
        | .ok (next, found) =>
            if next = 0 then .ok (results ++ found, next)
            else gangLoop look maxIndex maxItems rounds next next (results ++ found)

def gangLookup (look : ℕ → BitVec 64 → Except RadixFault (BitVec 64 × List V)) (height rounds : ℕ)
    (first : BitVec 64) (maxItems : ℕ) : Except RadixFault (List V × BitVec 64) :=
  (heightToMaxindex height).bind fun maxIndex => gangLoop look maxIndex maxItems rounds first 0 []

/-- `__radix_tree_gang_lookup`: the items and `*pnext_index`. -/
def radixTreeGangLookup (root : RadixRoot V) (rounds : ℕ) (first : BitVec 64) (maxItems : ℕ) :
    Except RadixFault (List V × BitVec 64) :=
  gangLookup (fun n index => lookupWalk n root.height root.rnode index) root.height rounds first maxItems

/-! ## Tagged lookup -/

def tagBit (bits : Fin 64 → Bool) (i : ℕ) : Bool := if h : i < 64 then bits ⟨i, h⟩ else false

/-- The tagged items of a last-level node, until there are enough; `first` is the offset the loop
starts at. -/
def grabTagged (slots : Fin 64 → RadixSlot V) (maxItems : ℕ) (index : BitVec 64) (first : ℕ) :
    List (Fin 64) → List V → Except RadixFault (BitVec 64 × List V)
  | [], found => .ok (alignDown (index + 64) 6, found)
  | off :: offs, found =>
      match (slots off).value with
      | none => .error .bugOn
      | some v =>
          if found.length + 1 = maxItems then .ok (index + BitVec.ofNat 64 (off - first + 1), found ++ [v])
          else grabTagged slots maxItems index first offs (found ++ [v])

/-- `__lookup_tag` below a slot. -/
def lookupTagWalk (tag : Fin 3) (maxItems : ℕ) :
    ℕ → RadixSlot V → BitVec 64 → Except RadixFault (BitVec 64 × List V)
  | 0, _, index => .ok (index, [])
  | h + 1, s, index =>
      if s.isNull then .error .nullDeref
      else
        let shift := h * radixMapShift
        let j := (calcOffset index shift).val
        let i := findNextBit (tagBit (s.tags tag)) 64 j
        let moved := index + BitVec.ofNat 64 (i - j) <<< shift
        if hi : i < 64 then
          let index := if i = j then moved else alignDown moved shift
          if h = 0 then
            let first := calcOffset index 0
            -- `for_each_set_bit_from`
            grabTagged s.slots maxItems index first (((List.finRange 64).drop first).filter (s.tags tag)) []
          else lookupTagWalk tag maxItems h (s.slots ⟨i, hi⟩) index
        else .ok (alignDown moved shift, [])

/-- `__radix_tree_gang_lookup_tag`. -/
def radixTreeGangLookupTag (root : RadixRoot V) (tag : Fin 3) (rounds : ℕ) (first : BitVec 64)
    (maxItems : ℕ) :
    Except RadixFault (List V × BitVec 64) :=
  gangLookup (fun n index => lookupTagWalk tag n root.height root.rnode index) root.height rounds
    first maxItems

/-! ## Iteration -/

structure RadixIter where
  index : BitVec 64
  nextIndex : BitVec 64

def radixTreeIterInit (start : BitVec 64) : RadixIter := { index := 0, nextIndex := start }

/-- `radix_tree_iter_next` and `radix_tree_iter_next_tag` over their gang lookup. -/
def iterNext (gang : BitVec 64 → ℕ → Except RadixFault (List V × BitVec 64)) (it : RadixIter) :
    Except RadixFault (RadixIter × Option V) :=
  if it.nextIndex = 0 ∧ it.index ≠ 0 then .ok (it, none)
  else
    match gang it.nextIndex 1 with
    | .error e => .error e
    | .ok ([], next) => .ok ({ index := BitVec.allOnes 64, nextIndex := next }, none)
    | .ok (v :: _, next) => .ok ({ index := next - 1, nextIndex := next }, some v)

def radixTreeIterNext (root : RadixRoot V) (rounds : ℕ) :
    RadixIter → Except RadixFault (RadixIter × Option V) :=
  iterNext (radixTreeGangLookup root rounds)

def radixTreeIterNextTag (root : RadixRoot V) (tag : Fin 3) (rounds : ℕ) :
    RadixIter → Except RadixFault (RadixIter × Option V) :=
  iterNext (radixTreeGangLookupTag root tag rounds)

/-- The items a `for_each` loop runs its body on, each with `radix_tree_iter_index()`. -/
def forEachLoop (next : RadixIter → Except RadixFault (RadixIter × Option V)) :
    ℕ → RadixIter → Except RadixFault (List (BitVec 64 × V))
  | 0, _ => .error .rounds
  | rounds + 1, it =>
      match next it with
      | .error e => .error e
      | .ok (_, none) => .ok []
      | .ok (it, some v) => (forEachLoop next rounds it).map fun visited => (it.index, v) :: visited

def radixTreeForEach (root : RadixRoot V) (rounds : ℕ) (start : BitVec 64) :
    Except RadixFault (List (BitVec 64 × V)) :=
  forEachLoop (radixTreeIterNext root rounds) rounds (radixTreeIterInit start)

def radixTreeForEachTagged (root : RadixRoot V) (tag : Fin 3) (rounds : ℕ) (start : BitVec 64) :
    Except RadixFault (List (BitVec 64 × V)) :=
  forEachLoop (radixTreeIterNextTag root tag rounds) rounds (radixTreeIterInit start)

/-! ## Release -/

/-- The loop of `radix_tree_release`: the tree at its end and the calls of `free_fn`, each followed
by the deletion. -/
def releaseLoop [DecidableEq V] (rounds : ℕ) :
    ℕ → RadixRoot V → RadixIter → Except RadixFault (RadixRoot V × List (BitVec 64 × V))
  | 0, _, _ => .error .rounds
  | n + 1, root, it =>
      match radixTreeIterNext root rounds it with
      | .error e => .error e
      | .ok (_, none) => if root.rnode.isNull then .ok (root, []) else .error .bugOn
      | .ok (it, some v) =>
          let r := radixTreeDelete root it.index
          if r.2 = some v then (releaseLoop rounds n r.1 it).map fun e => (e.1, (it.index, v) :: e.2)
          else .error .bugOn

def radixTreeRelease [DecidableEq V] (root : RadixRoot V) (rounds : ℕ) :
    Except RadixFault (RadixRoot V × List (BitVec 64 × V)) :=
  releaseLoop rounds rounds root (radixTreeIterInit 0)

end Skp.Adt
