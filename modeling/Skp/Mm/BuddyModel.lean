import Skp.Foundations.Runs

/-! # The buddy system of `src/mm/pgalloc.c` and `src/mm/mmzone.c`

One node with its zone. Pages are their indices in the node's `mem_map`; a page descriptor is what the
allocator reads of it: the flags `PG_inited`, `PG_reserved`, `PG_buddy` and `order`. The functions are those
of the source, run with the zone lock held; `__free_pages_bulk` drops the lock around
`node_reclaim_memory`, so from there on it is a step of its own, with the thread remembered. -/
namespace Skp.Mm
set_option autoImplicit false

/-- The configuration: `MAX_ORDER - 1`, `VPAGES_PER_NODE` and the pages `startup_node` reserves for the
page descriptors, which `__setup_memory` checks to be at most half a block. -/
structure BuddyParams where
  top : ℕ
  nodePages : ℕ
  reserved : ℕ
  reserved_le : 2 * reserved ≤ 2 ^ top

structure Zone where
  freeList : ℕ → List ℕ
  nrFree : ℕ → ℕ
  freePages : ℕ
  hasFree : Bool
  inited : ℕ → Bool
  reserved : ℕ → Bool
  buddy : ℕ → Bool
  order : ℕ → ℤ

def setPageOrder (z : Zone) (page order : ℕ) : Zone :=
  { z with
    buddy := Function.update z.buddy page true
    order := Function.update z.order page (order : ℤ) }

def rmvPageOrder (z : Zone) (page : ℕ) : Zone :=
  { z with
    buddy := Function.update z.buddy page false
    order := Function.update z.order page (-1) }

def pageOrder (z : Zone) (page : ℕ) : ℤ := if z.buddy page then z.order page else -1

/-- `area->nr_free--`, `rmv_page_order`, `del_page_from_list`. -/
def takeBlock (z : Zone) (page order : ℕ) : Zone :=
  { rmvPageOrder z page with
    nrFree := Function.update z.nrFree order (z.nrFree order - 1)
    freeList := Function.update z.freeList order ((z.freeList order).erase page) }

/-- `area->nr_free++`, `set_page_order` and the list with the page put in. -/
def putBlock (z : Zone) (page order : ℕ) (list : List ℕ) : Zone :=
  { setPageOrder z page order with
    nrFree := Function.update z.nrFree order (z.nrFree order + 1)
    freeList := Function.update z.freeList order list }

/-- `add_page_to_list`. -/
def putHead (z : Zone) (page order : ℕ) : Zone := putBlock z page order (page :: z.freeList order)

/-- `add_page_to_list_tail`. -/
def putTail (z : Zone) (page order : ℕ) : Zone := putBlock z page order (z.freeList order ++ [page])

/-! ## Freeing -/

/-- The merge loop of `__free_pages_bulk`, at most `n` rounds: the buddy leaves its list and the pair goes one
order up. -/
def mergeLoop : ℕ → Zone → ℕ → ℕ → Zone × ℕ × ℕ
  | 0, z, page, order => (z, page, order)
  | n + 1, z, page, order =>
      let buddy := page ^^^ 2 ^ order
      if pageOrder z buddy = (order : ℤ) then
        mergeLoop n (takeBlock z buddy order) (page &&& buddy) (order + 1)
      else (z, page, order)

/-- `__free_pages_bulk` up to its last loop, with the order the block ended up with. -/
def freePagesBulk (c : BuddyParams) (z : Zone) (page order : ℕ) : Zone × ℕ :=
  let z := { z with
    hasFree := if z.freePages = 0 then true else z.hasFree
    freePages := z.freePages + 2 ^ order }
  let m := mergeLoop (c.top - order) z page order
  (putHead m.1 m.2.1 m.2.2, m.2.2)

/-- The test of the last loop and its body up to the unlock: one of several blocks of the highest order is
popped to be given back. Its flags stay. -/
def reclaimPop (c : BuddyParams) (z : Zone) : Zone × Option ℕ :=
  if 1 < z.nrFree c.top then
    match z.freeList c.top with
    | [] => (z, none)
    | page :: rest =>
        let freePages := z.freePages - 2 ^ c.top
        ({ z with
            nrFree := Function.update z.nrFree c.top (z.nrFree c.top - 1)
            freeList := Function.update z.freeList c.top rest
            freePages := freePages
            hasFree := if freePages = 0 then false else z.hasFree }, some page)
  else (z, none)

/-- `node_reclaim_memory`. -/
def nodeReclaimMemory (c : BuddyParams) (z : Zone) (page : ℕ) : Zone :=
  { z with inited := fun q => if page ≤ q ∧ q < page + 2 ^ c.top then false else z.inited q }

/-! ## Allocating -/

/-- `expand`, `n` orders down: the upper halves go to the tails of their lists. -/
def expand : ℕ → Zone → ℕ → ℕ → Zone
  | 0, z, _, _ => z
  | n + 1, z, page, low => expand n (putTail z (page + 2 ^ (low + n)) (low + n)) page low

/-- The first order from `k` up, of `n`, with a free block. -/
def firstFree (z : Zone) : ℕ → ℕ → Option ℕ
  | 0, _ => none
  | n + 1, k => if z.nrFree k = 0 then firstFree z n (k + 1) else some k

def rmqueue (c : BuddyParams) (z : Zone) (order : ℕ) : Zone × Option ℕ :=
  match firstFree z (c.top + 1 - order) order with
  | none => (z, none)
  | some k =>
      match z.freeList k with
      | [] => (z, none)
      | page :: _ =>
          let z := { takeBlock z page k with freePages := z.freePages - 2 ^ order }
          let z := expand (k - order) z page order
          ({ z with hasFree := if z.freePages = 0 then false else z.hasFree }, some page)

/-! ## Supply -/

/-- `init_vpage` over a range: descriptors that are in use already stay. -/
def initVpages (z : Zone) (base n : ℕ) (reserve : Bool) : Zone :=
  let fresh := fun q => decide (base ≤ q) && decide (q < base + n) && !z.inited q
  { z with
    inited := fun q => if fresh q then true else z.inited q
    reserved := fun q => if fresh q then reserve else z.reserved q
    buddy := fun q => if fresh q then false else z.buddy q
    order := fun q => if fresh q then -1 else z.order q }

/-! ## The node as a system of threads -/

/-- The zone, whether the node is up, the allocated blocks (those in a thread's page list among them) and
the block each thread is giving back to the OS. -/
structure BuddySys (T : Type) where
  zone : Zone
  hasUp : Bool
  alloc : Finset (ℕ × ℕ)
  giving : T → Option ℕ

inductive BuddyAct (T : Type) where
  | rmqueue (order : ℕ)
  | free (t : T) (page order : ℕ)
  | giveBack (t : T)
  | supply (base : ℕ)

def buddyInit {T : Type} : BuddySys T where
  zone :=
    { freeList := fun _ => []
      nrFree := fun _ => 0
      freePages := 0
      hasFree := false
      inited := fun _ => false
      reserved := fun _ => false
      buddy := fun _ => false
      order := fun _ => 0 }
  hasUp := false
  alloc := ∅
  giving := fun _ => none

variable {T : Type} [DecidableEq T]

/-- The last loop of `__free_pages_bulk` from one lock section to the next. -/
def reclaimNext (c : BuddyParams) (s : BuddySys T) (t : T) : BuddySys T :=
  let r := reclaimPop c s.zone
  { s with zone := r.1, giving := Function.update s.giving t r.2 }

/-- One step. A free is legal for an allocated block with its order, by a thread that is not inside
an earlier free; supplied memory is a block of the highest order that the node has not got.
`__node_supply_memory` hands the new pages to the supplying thread as allocated blocks, single pages
behind the reserved ones if it has just started the node, the whole block otherwise: its calls of
`__free_pages_ok` are `free` steps. -/
def buddyStep (c : BuddyParams) (s : BuddySys T) : BuddyAct T → Option (BuddySys T)
  | .rmqueue order =>
      match rmqueue c s.zone order with
      | (z, none) => some { s with zone := z }
      | (z, some page) => some { s with zone := z, alloc := insert (page, order) s.alloc }
  | .free t page order =>
      if (page, order) ∈ s.alloc ∧ s.giving t = none then
        let r := freePagesBulk c s.zone page order
        let s' := { s with zone := r.1, alloc := s.alloc.erase (page, order) }
        some (if r.2 < c.top then s' else reclaimNext c s' t)
      else none
  | .giveBack t =>
      match s.giving t with
      | none => none
      | some page => some (reclaimNext c { s with zone := nodeReclaimMemory c s.zone page } t)
  | .supply base =>
      if 2 ^ c.top ∣ base ∧ base + 2 ^ c.top ≤ c.nodePages ∧
        ∀ i < 2 ^ c.top, s.zone.inited (base + i) = false then
        if s.hasUp then
          some { s with
            zone := initVpages s.zone base (2 ^ c.top) false
            alloc := insert (base, c.top) s.alloc }
        else
          let z := initVpages s.zone base c.reserved true
          some { s with
            zone := initVpages z (base + c.reserved) (2 ^ c.top - c.reserved) false
            hasUp := true
            alloc := s.alloc ∪ (Finset.range (2 ^ c.top - c.reserved)).image fun i =>
            (base + c.reserved + i, 0) }
      else none

end Skp.Mm
