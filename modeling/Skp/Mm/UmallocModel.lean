import Skp.Mm.SlabHands
import Skp.Mm.BuddyRuns
import Skp.Mm.UmallocSizes
import Skp.Foundations.WordLinks

/-! # The allocator as a whole

`slab.c` and `pgalloc.c` together, with the memory: the nodes of the page allocator, the caches of
the size classes, the page descriptors and every byte. A page is its number, the node is in its high
bits. A block of pages that a node has allocated and that neither a cache nor a user of `__umalloc`
has is on its way, in a thread's page list or with other users of the page allocator. -/
namespace Skp.Mm
set_option autoImplicit false
open Skp.Foundations

/-- The configuration for x86-64. -/
def x64Node : BuddyParams := ⟨10, 2 ^ 17, 4, by decide⟩

def maxNumnodes : ℕ := 256

abbrev CacheIndex := Fin (umallocShiftHigh + 1)

def classOf (i : CacheIndex) : SlabSizes := classSizes i.val

theorem classOf_ok (i : CacheIndex) : 8 ≤ (classOf i).size ∧ (classOf i).order ≤ slabMaxOrder ∧
      0 < (classOf i).objects ∧
    (classOf i).objects * (classOf i).size ≤ vpageSize * 2 ^ (classOf i).order :=
  (umallocCache_eq i.val (Nat.le_of_lt_succ i.isLt)).2

theorem classOf_objects_pos (i : CacheIndex) : 0 < (classOf i).objects := (classOf_ok i).2.2.1

/-- The cache of class 0 has index -1, so it is not lockless and has an object pool. -/
def umallocParams (i : CacheIndex) : CacheParams where
  lockless := decide (i.val ≠ 0)
  objects := (classOf i).objects
  nonDiscard := false
  minObjects := slabMinObjects
  poolCap := tlsFreelistCap * 2
  objects_pos := classOf_objects_pos i

/-- `PG_slab` with `slab`, `PG_compound` with `head`, `PG_block`, and `order`, which the second page
has for the block. -/
structure PageDesc where
  slab : Option CacheIndex
  head : Option ℕ
  block : Bool
  order : ℤ

structure UmallocState (T : Type) where
  node : ℕ → BuddySys T
  cache : CacheIndex → SlabState T
  desc : ℕ → PageDesc
  /-- What `__get_free_pages` has returned to `__umalloc`: the first page and the order. -/
  blocks : Finset (ℕ × ℕ)
  mem : ℕ → UInt8

def umallocInit {T : Type} : UmallocState T where
  node := fun _ => buddyInit
  cache := fun _ => slabInit
  desc := fun _ => ⟨none, none, false, 0⟩
  blocks := ∅
  mem := fun _ => 0

variable {T : Type}

/-! ## Addresses -/

def pageToVirt (page : ℕ) : ℕ := vpageSize * page

def virtToPage (x : ℕ) : ℕ := x / vpageSize

def objAddr (i : CacheIndex) (o : Obj) : ℕ := pageToVirt o.1 + (classOf i).size * o.2

/-- The first word of a free object: the address of the next one, or NULL. -/
def freepointer (i : CacheIndex) (o : Option Obj) : List UInt8 := leBytes 8 (o.elim 0 (objAddr i))

def freeWord (i : CacheIndex) (mem : ℕ → UInt8) (o : Obj) : List UInt8 := readBytes mem (objAddr i o) 8

/-! ## Who has a block -/

/-- A node has allocated the block. -/
def UmallocState.Allocated (s : UmallocState T) (b : ℕ × ℕ) : Prop :=
  (b.1 % x64Node.nodePages, b.2) ∈ (s.node (b.1 / x64Node.nodePages)).alloc

instance (s : UmallocState T) (b : ℕ × ℕ) : Decidable (s.Allocated b) := inferInstanceAs (Decidable (_ ∈ _))

/-- The block of a slab. -/
def slabBlock (i : CacheIndex) (page : ℕ) : ℕ × ℕ := (page, (classOf i).order)

/-- A cache or a user has the block. -/
def UmallocState.Taken (s : UmallocState T) (b : ℕ × ℕ) : Prop :=
  b ∈ s.blocks ∨ ∃ i, b.1 ∈ (s.cache i).live ∧ b = slabBlock i b.1

instance (s : UmallocState T) (b : ℕ × ℕ) : Decidable (s.Taken b) := inferInstanceAs (Decidable (_ ∨ _))

/-- A page of a block that a cache or a user has. -/
def UmallocState.TakenPage (s : UmallocState T) (q : ℕ) : Prop :=
  (∃ b ∈ s.blocks, b.1 ≤ q ∧ q < b.1 + 2 ^ b.2) ∨ ∃ i, ∃ p ∈ (s.cache i).live, p ≤ q ∧
    q < p + 2 ^ (classOf i).order

instance (s : UmallocState T) (q : ℕ) : Decidable (s.TakenPage q) := inferInstanceAs (Decidable (_ ∨ _))

/-- What `__umalloc` hands out: an object or a block of pages. -/
inductive UserBlock where
  | obj (i : CacheIndex) (o : Obj)
  | pages (b : ℕ × ℕ)

namespace UserBlock

def addr : UserBlock → ℕ
  | .obj i o => objAddr i o
  | .pages b => pageToVirt b.1

def size : UserBlock → ℕ
  | .obj i _ => (classOf i).size
  | .pages b => vpageSize * 2 ^ b.2

/-- The user has it. -/
def Held (s : UmallocState T) : UserBlock → Prop
  | .obj i o => o ∈ (s.cache i).held
  | .pages b => b ∈ s.blocks

instance (s : UmallocState T) (b : UserBlock) : Decidable (b.Held s) := by
  cases b <;> exact inferInstanceAs (Decidable (_ ∈ _))

end UserBlock

/-! ## Descriptors -/

/-- `prep_new_page` and `prep_block_page`. -/
def prepBlockDesc (d : ℕ → PageDesc) (page order : ℕ) : ℕ → PageDesc :=
  let d := Function.update d page { d page with slab := none, head := none }
  if order = 0 then d
  else
    let d := Function.update d (page + 1) { d (page + 1) with order := order }
    Function.update d page { d page with block := true }

/-- `destroy_block_page`. -/
def destroyBlockDesc (d : ℕ → PageDesc) (page order : ℕ) : ℕ → PageDesc :=
  if order = 0 ∨ (d page).block = false then d
  else
    let d := Function.update d page { d page with block := false }
    Function.update d (page + 1) { d (page + 1) with order := -1 }

/-- `prep_new_page`, `prep_compound_page` and what `init_slab` sets. -/
def prepSlabDesc (d : ℕ → PageDesc) (i : CacheIndex) (page : ℕ) : ℕ → PageDesc :=
  let order := (classOf i).order
  let d := Function.update d page { d page with slab := some i, head := none }
  if order = 0 then d
  else
    let d := Function.update d (page + 1) { d (page + 1) with order := order }
    fun q => if page ≤ q ∧ q < page + 2 ^ order then { d q with head := some page } else d q

/-- What `discard_slab` and `destroy_compound_page` reset, for the slabs that are gone. -/
def destroySlabDescs (d : ℕ → PageDesc) (i : CacheIndex) (gone : Finset ℕ) : ℕ → PageDesc := fun q =>
  let order := (classOf i).order
  if ∃ p ∈ gone, p ≤ q ∧ q < p + 2 ^ order then
    { d q with
      slab := none
      head := none
      order := if ∃ p ∈ gone, order ≠ 0 ∧ q = p + 1 then -1 else (d q).order }
  else d q

/-! ## Steps -/

inductive UmallocAct (T : Type) where
  | page (nid : ℕ) (a : BuddyAct T)
  | slab (i : CacheIndex) (a : SlabAct T)
  | takePages (b : ℕ × ℕ)
  | givePages (b : ℕ × ℕ)
  | write (b : UserBlock) (k : ℕ) (v : UInt8)
  | outside (x : ℕ) (v : UInt8)

/-- The block that a step of a node frees. -/
def freedBlock : BuddyAct T → Option (ℕ × ℕ)
  | .free _ page order => some (page, order)
  | _ => none

/-- Nobody may free a block that is taken, and the address 0 is never supplied: `os_mmap` takes it
for an error. -/
def UmallocState.MayPage (s : UmallocState T) (nid : ℕ) : BuddyAct T → Prop
  | .free _ page order => ¬s.Taken (nid * x64Node.nodePages + page, order)
  | .supply base => nid ≠ 0 ∨ base ≠ 0
  | _ => True

instance (s : UmallocState T) (nid : ℕ) (a : BuddyAct T) : Decidable (s.MayPage nid a) := by
  cases a <;> first | exact inferInstanceAs (Decidable (¬_)) | exact inferInstanceAs
    (Decidable (_ ∨ _)) | exact instDecidableTrue

/-- The page that a cache gets is on its way. -/
def UmallocState.MaySlab (s : UmallocState T) (i : CacheIndex) (a : SlabAct T) : Prop :=
  ∀ p, newPage a = some p → s.Allocated (slabBlock i p) ∧ ¬s.Taken (slabBlock i p)

instance (s : UmallocState T) (i : CacheIndex) (a : SlabAct T) : Decidable (s.MaySlab i a) :=
  match h : newPage a with
  | none => .isTrue fun p hp => by
      rw [h] at hp
      cases hp
  | some p => decidable_of_iff (s.Allocated (slabBlock i p) ∧ ¬s.Taken (slabBlock i p)) ⟨fun hp q hq => by
      rw [h] at hq
      exact Option.some.inj hq ▸ hp, fun hp => hp p h⟩

section Steps
variable [DecidableEq T]

/-- The descriptors after a step of cache `i`: a slab goes back to the page allocator when it was
live, or new, and is not live after the step. -/
def slabDesc (d : ℕ → PageDesc) (i : CacheIndex) (live live' : Finset ℕ) : Option ℕ → ℕ → PageDesc
  | some p => destroySlabDescs (prepSlabDesc d i p) i (insert p live \ live')
  | none => destroySlabDescs d i (live \ live')

/-- `slab` is a step of the cache of a class with the words it writes, `takePages` the end of
`__get_free_pages` for `__umalloc` and `givePages` the free of such a block, `write` is a user's, to
a block that it has, and `outside` any other change of memory that no cache and no user has. -/
def umallocStep (s : UmallocState T) : UmallocAct T → Option (UmallocState T)
  | .page nid a =>
      if nid < maxNumnodes ∧ s.MayPage nid a then
        (buddyStep x64Node (s.node nid) a).map fun n => { s with node := Function.update s.node nid n }
      else none
  | .slab i a =>
      if s.MaySlab i a then
        (slabStep (umallocParams i) (s.cache i) a).map fun c => { s with
          cache := Function.update s.cache i c
          desc := slabDesc s.desc i (s.cache i).live c.live (newPage a)
          mem := storeWords (objAddr i) (freepointer i) s.mem (slabLinks (umallocParams i) (s.cache i) a) }
      else none
  | .takePages b =>
      if s.Allocated b ∧ ¬s.Taken b then
        some { s with blocks := insert b s.blocks, desc := prepBlockDesc s.desc b.1 b.2 }
      else none
  | .givePages b =>
      if b ∈ s.blocks then
        some { s with blocks := s.blocks.erase b, desc := destroyBlockDesc s.desc b.1 b.2 }
        else none
  | .write b k v =>
      if b.Held s ∧ k < b.size then some { s with mem := Function.update s.mem (b.addr + k) v }
        else none
  | .outside x v => if s.TakenPage (virtToPage x) then none
      else some { s with mem := Function.update s.mem x v }

end Steps

end Skp.Mm
