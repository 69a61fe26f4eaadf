import Skp.Mm.BuddyModel

/-! # The page lists of the threads in `src/mm/pgalloc.c`

Single pages go through a list that each thread has of its own: `buffered_rmqueue` refills it by a
batch and `free_hot_page` gives a batch back to the buddy system of the node. A refill keeps the
zone lock; `free_pages_bulk` takes it for each page, and a page that makes a whole block may lead to
`node_reclaim_memory`, so each of its rounds is a step. -/
namespace Skp.Mm
set_option autoImplicit false

/-- `struct page_tls`; `low`, `high` and `batch` are two, three and one `CONFIG_PAGESET_BATCH`. -/
structure PageTls where
  count : ℤ
  list : List ℕ

/-- Where a thread is: outside, or in `free_pages_bulk` on its own list with the pages that may
still go and those that went. `free_hot_page` then puts in `page`; `__pgtls_reclaim` has none. -/
inductive CachePc where
  | idle
  | bulk (page : Option ℕ) (count : ℤ) (rc : ℕ)

/-- The node, the blocks its users have, and the lists of the threads. -/
structure CacheSys (T : Type) where
  buddy : BuddySys T
  held : Finset (ℕ × ℕ)
  tls : T → Option PageTls
  pc : T → CachePc

inductive CacheAct (T : Type) where
  | acquire (t : T)
  | alloc (t : T) (order : ℕ)
  | freeHot (t : T) (page : ℕ)
  | freeOk (t : T) (page order : ℕ)
  | reclaim (t : T)
  | bulk (t : T)
  | giveBack (t : T)
  | supply (base : ℕ)

section Lists
variable {T : Type} [DecidableEq T] (c : BuddyParams) (batch : ℕ)

/-- `rmqueue_bulk` for single pages. -/
def rmqueueBulk : ℕ → BuddySys T → List ℕ → BuddySys T × List ℕ × ℕ
  | 0, s, list => (s, list, 0)
  | count + 1, s, list =>
      match rmqueue c s.zone 0 with
      | (z, none) => ({ s with zone := z }, list, 0)
      | (z, some page) =>
          let r := rmqueueBulk count { s with zone := z, alloc := insert (page, 0) s.alloc } (list ++ [page])
          (r.1, r.2.1, r.2.2 + 1)

/-- The slow path of `buffered_rmqueue`. -/
def rmqueueSlow (s : CacheSys T) (order : ℕ) : CacheSys T × Option ℕ :=
  match rmqueue c s.buddy.zone order with
  | (z, none) => ({ s with buddy := { s.buddy with zone := z } }, none)
  | (z, some page) =>
      ({ s with
          buddy := { s.buddy with zone := z, alloc := insert (page, order) s.buddy.alloc }
          held := insert (page, order) s.held }, some page)

/-- The fill of a thread's list when it is low. -/
def refill (s : CacheSys T) (t : T) (tl : PageTls) : CacheSys T × PageTls :=
  if tl.count ≤ 2 * batch then
    let r := rmqueueBulk c batch s.buddy tl.list
    let tl := { count := tl.count + r.2.2, list := r.2.1 }
    ({ s with buddy := r.1, tls := Function.update s.tls t (some tl) }, tl)
  else (s, tl)

/-- The page at the head of the list, if there is one, goes to the caller. -/
def popPage (s : CacheSys T) (t : T) (tl : PageTls) : CacheSys T × Option ℕ :=
  match tl.list with
  | [] => (s, none)
  | page :: list =>
      ({ s with
        tls := Function.update s.tls t (some { count := tl.count - 1, list := list })
        held := insert (page, 0) s.held },
        some page)

def bufferedRmqueue (s : CacheSys T) (t : T) (order : ℕ) : CacheSys T × Option ℕ :=
  match order, s.tls t with
  | 0, some tl => popPage (refill c batch s t tl).1 t (refill c batch s t tl).2
  | order, _ => rmqueueSlow c s order

/-- `free_pages_bulk` has ended: its result is taken off the count, and `free_hot_page` puts its page in. -/
def bulkEnd (s : CacheSys T) (t : T) (tl : PageTls) (page : Option ℕ) (rc : ℕ) : CacheSys T :=
  let tl := { tl with count := tl.count - rc }
  let tl := match page with
    | none => tl
    | some page => { count := tl.count + 1, list := page :: tl.list }
  { s with tls := Function.update s.tls t (some tl), pc := Function.update s.pc t .idle }

/-- A step. A caller frees blocks that it was given, and the memory of a new node is the caller's
that supplied it. -/
def cacheStep (s : CacheSys T) : CacheAct T → Option (CacheSys T)
  | .acquire t =>
      match s.tls t, s.pc t with
      | none, .idle => some { s with tls := Function.update s.tls t (some { count := 0, list := [] }) }
      | _, _ => none
  | .alloc t order =>
      match s.pc t with
      | .idle => some (bufferedRmqueue c batch s t order).1
      | .bulk _ _ _ => none
  | .freeOk t page order =>
      match s.pc t with
      | .idle =>
          if (page, order) ∈ s.held then
            (buddyStep c s.buddy (.free t page order)).map fun b =>
              { s with buddy := b, held := s.held.erase (page, order) }
          else none
      | .bulk _ _ _ => none
  | .freeHot t page =>
      if (page, 0) ∈ s.held then
        match s.tls t, s.pc t with
        | none, .idle => (buddyStep c s.buddy (.free t page 0)).map fun b =>
            { s with buddy := b, held := s.held.erase (page, 0) }
        | some tl, .idle =>
            let s := { s with held := s.held.erase (page, 0) }
            some (if 3 * batch ≤ tl.count then
              { s with pc := Function.update s.pc t (.bulk (some page) batch 0) }
              else bulkEnd s t tl (some page) 0)
        | _, .bulk _ _ _ => none
      else none
  | .reclaim t =>
      match s.tls t, s.pc t with
      | some tl, .idle => some { s with pc := Function.update s.pc t (.bulk none tl.count 0) }
      | _, _ => none
  | .bulk t =>
      match s.tls t, s.pc t with
      | some tl, .bulk page count rc =>
          -- the last page goes first
          match tl.list.getLast? with
          | none => some (bulkEnd s t tl page rc)
          | some last =>
              if count = 0 then some (bulkEnd s t tl page rc)
              else
                (buddyStep c s.buddy (.free t last 0)).map fun b =>
                  { s with
                    buddy := b
                    tls := Function.update s.tls t (some { tl with list := tl.list.dropLast })
                    pc := Function.update s.pc t (.bulk page (count - 1) (rc + 1)) }
      | _, _ => none
  | .giveBack t => (buddyStep c s.buddy (.giveBack t)).map fun b => { s with buddy := b }
  | .supply base =>
      (buddyStep c s.buddy (.supply base)).map fun b =>
        { s with buddy := b, held := s.held ∪ (b.alloc \ s.buddy.alloc) }

def cacheInit : CacheSys T where
  buddy := buddyInit
  held := ∅
  tls := fun _ => none
  pc := fun _ => .idle

end Lists

end Skp.Mm
