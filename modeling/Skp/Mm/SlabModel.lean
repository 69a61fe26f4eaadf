import Skp.Foundations.Runs

/-! # The slab allocator of `src/mm/slab.c`

One cache, with its slab pages, and the threads that use it. An object is its page and its number on the
page; a free list linked through the objects is the list of them. The state has what the source keeps:
for each page `inuse`, `freelist`, `lockless_freelist` and the frozen flag, the partial and the full list
(the latter as kept under `SLAB_DEBUG`), for each thread the loaded page and the `tls_freelist`, the shared
`slab_page` of a cache without thread pages, the object pool. A section under a page's lock is one step;
what `objpool_flush` has taken out of the pool and not yet freed is on its thread's chain. -/
namespace Skp.Mm
set_option autoImplicit false

abbrev Obj := ℕ × ℕ

structure CacheParams where
  lockless : Bool
  objects : ℕ
  nonDiscard : Bool
  minObjects : ℕ
  poolCap : ℕ
  objects_pos : 0 < objects

def tlsFreelistCap : ℕ := 128
def umallocMinPartial : ℕ := 2
def umallocMaxPartial : ℕ := 3

structure TlsFreelist where
  page : Option ℕ
  objs : List Obj
  nr : ℕ

def TlsFreelist.empty : TlsFreelist := { page := none, objs := [], nr := 0 }

/-- What the user sees: an object handed out, an object given back. -/
inductive SlabEvent where
  | alloc (o : Obj)
  | free (o : Obj)

structure SlabState (T : Type) where
  live : Finset ℕ
  inuse : ℕ → ℕ
  freelist : ℕ → List Obj
  locklessFreelist : ℕ → List Obj
  frozen : ℕ → Bool
  partials : List ℕ
  nrPartial : ℕ
  full : List ℕ
  tlsPage : T → Option ℕ
  tlsFree : T → TlsFreelist
  slabPage : Option ℕ
  pool : List Obj
  chain : T → List Obj
  chainFree : T → TlsFreelist
  held : List Obj
  /-- The history, newest first, and the free lists of the discarded pages at that moment; nothing
  reads them. -/
  log : List SlabEvent
  discards : List (ℕ × List Obj)

def slabInit {T : Type} : SlabState T where
  live := ∅
  inuse := fun _ => 0
  freelist := fun _ => []
  locklessFreelist := fun _ => []
  frozen := fun _ => false
  partials := []
  nrPartial := 0
  full := []
  tlsPage := fun _ => none
  tlsFree := fun _ => TlsFreelist.empty
  slabPage := none
  pool := []
  chain := fun _ => []
  chainFree := fun _ => TlsFreelist.empty
  held := []
  log := []
  discards := []

variable {T : Type}

/-! ## Pages and lists -/

/-- What `need_discard` finds: whether the cache is shrinking, and `nr_partial`, read without its lock. -/
structure DiscardReads where
  shrinking : Bool
  nrPartial : ℕ

def needDiscard (c : CacheParams) (r : DiscardReads) : Bool :=
  if c.nonDiscard then false
  else if r.shrinking then true
  else if c.objects ≤ c.minObjects ∧ umallocMinPartial < r.nrPartial then true
  else decide (c.minObjects < c.objects ∧ umallocMaxPartial < r.nrPartial)

def addPartial (s : SlabState T) (page : ℕ) : SlabState T :=
  { s with nrPartial := s.nrPartial + 1, partials := page :: s.partials }

def addPartialTail (s : SlabState T) (page : ℕ) : SlabState T :=
  { s with nrPartial := s.nrPartial + 1, partials := s.partials ++ [page] }

def removePartial (s : SlabState T) (page : ℕ) : SlabState T :=
  { s with nrPartial := s.nrPartial - 1, partials := s.partials.erase page }

def addFull (s : SlabState T) (page : ℕ) : SlabState T := { s with full := page :: s.full }

def removeFull (s : SlabState T) (page : ℕ) : SlabState T := { s with full := s.full.erase page }

/-- `init_slab` on a new page. -/
def newSlab (c : CacheParams) (s : SlabState T) (page : ℕ) : SlabState T :=
  { s with
    live := insert page s.live
    inuse := Function.update s.inuse page 0
    freelist := Function.update s.freelist page ((List.range c.objects).map fun i => (page, i))
    locklessFreelist := Function.update s.locklessFreelist page []
    frozen := Function.update s.frozen page false }

def discardSlab (s : SlabState T) (page : ℕ) : SlabState T :=
  { s with
    live := s.live.erase page
    inuse := Function.update s.inuse page 0
    freelist := Function.update s.freelist page []
    locklessFreelist := Function.update s.locklessFreelist page []
    discards := (page, s.freelist page) :: s.discards }

/-- `freelist_free`: a chain of `nr` objects in front of the free list. -/
def freelistFree (s : SlabState T) (page : ℕ) (objs : List Obj) (nr : ℕ) : SlabState T :=
  { s with
    freelist := Function.update s.freelist page (objs ++ s.freelist page)
    inuse := Function.update s.inuse page (s.inuse page - nr) }

def handOut (s : SlabState T) (o : Obj) : SlabState T :=
  { s with held := o :: s.held, log := .alloc o :: s.log }

def takeBack (s : SlabState T) (o : Obj) : SlabState T :=
  { s with held := s.held.erase o, log := .free o :: s.log }

section Threads
variable [DecidableEq T]

/-- The page a thread allocates from. -/
def loadedPage (c : CacheParams) (s : SlabState T) (t : T) : Option ℕ :=
  if c.lockless then s.tlsPage t else s.slabPage

def setLoaded (c : CacheParams) (s : SlabState T) (t : T) (page : Option ℕ) : SlabState T :=
  if c.lockless then { s with tlsPage := Function.update s.tlsPage t page } else { s with slabPage := page }

def lockAndFreezeSlab (c : CacheParams) (s : SlabState T) (t : T) (page : ℕ) : SlabState T :=
  setLoaded c { s with frozen := Function.update s.frozen page true } t (some page)

/-- `deactivate_slab` with the discard that may follow. -/
def deactivateSlab (c : CacheParams) (s : SlabState T) (t : T) (page : ℕ) (r : DiscardReads) : SlabState T :=
  let objs := s.locklessFreelist page
  let s : SlabState T := { freelistFree s page objs objs.length with
    locklessFreelist := Function.update s.locklessFreelist page [] }
  let s : SlabState T := setLoaded c s t none
  let s : SlabState T := { s with frozen := Function.update s.frozen page false }
  if s.inuse page ≠ 0 then
    if s.freelist page ≠ [] then addPartial s page else addFull s page
  else if needDiscard c r then discardSlab s page
  else addPartialTail s page

/-! ## Allocating -/

/-- `lockless_alloc` and, when that has nothing, `freelist_alloc` on the loaded page. -/
def allocObject (c : CacheParams) (s : SlabState T) (t : T) : Option (SlabState T) :=
  match loadedPage c s t with
  | none => none
  | some page =>
      match s.locklessFreelist page, s.freelist page with
      | o :: rest, _ =>
          some (handOut { s with locklessFreelist := Function.update s.locklessFreelist page rest } o)
      | [], o :: rest =>
          some (handOut { s with
            locklessFreelist := Function.update s.locklessFreelist page rest
            inuse := Function.update s.inuse page c.objects
            freelist := Function.update s.freelist page [] } o)
      | [], [] => none

/-! ## Freeing -/

/-- `__slab_free` with the discard that may follow. -/
def slabFree (c : CacheParams) (s : SlabState T) (page : ℕ) (objs : List Obj) (nr : ℕ) (r : DiscardReads) :
    SlabState T :=
  let prior := s.freelist page
  let s := freelistFree s page objs nr
  if s.frozen page then s
  else if s.inuse page = 0 ∧ needDiscard c r = true then
    discardSlab (if prior ≠ [] then removePartial s page else removeFull s page) page
  else if prior = [] then addPartialTail (removeFull s page) page
  else s

/-- `tls_freelist_flush` of a list that its owner has already taken down. -/
def flushFreelist (c : CacheParams) (s : SlabState T) (fl : TlsFreelist) (r : DiscardReads) : SlabState T :=
  match fl.page with
  | none => s
  | some page => if fl.nr = 0 then s else slabFree c s page fl.objs fl.nr r

/-- `tls_cache`: the state after a flush, if one is needed, and the list with the object pushed. -/
def tlsCache (c : CacheParams) (s : SlabState T) (fl : TlsFreelist) (o : Obj) (r : DiscardReads) :
    SlabState T × TlsFreelist :=
  let push :=
    fun fl : TlsFreelist =>
      { page := some o.1, objs := o :: fl.objs, nr := fl.nr + 1 : TlsFreelist }
  if fl.page ≠ some o.1 ∨ tlsFreelistCap ≤ fl.nr then (flushFreelist c s fl r, push TlsFreelist.empty)
  else (s, push fl)

/-- `slab_free` by thread `t`. -/
def threadFree (c : CacheParams) (s : SlabState T) (t : T) (o : Obj) (r : DiscardReads) : SlabState T :=
  if c.lockless then
    if s.tlsPage t = some o.1 then
      { s with locklessFreelist := Function.update s.locklessFreelist o.1 (o :: s.locklessFreelist o.1) }
    else
      let k :=
        tlsCache c { s with tlsFree := Function.update s.tlsFree t TlsFreelist.empty }
          (s.tlsFree t) o r
      { k.1 with tlsFree := Function.update k.1.tlsFree t k.2 }
  else slabFree c s o.1 [o] 1 r

/-! ## Steps -/

inductive SlabAct (T : Type) where
  | alloc (t : T)
  | deactivate (t : T) (r : DiscardReads)
  | loadPartial (t : T) (page : ℕ)
  | loadNew (t : T) (page : ℕ)
  | newPartial (t : T) (page : ℕ)
  | newDiscard (page : ℕ)
  | slabFree (t : T) (o : Obj) (r : DiscardReads)
  | directFree (o : Obj) (r : DiscardReads)
  | tlsFlush (t : T) (r : DiscardReads)
  | poolFree (o : Obj)
  | poolAlloc
  | poolTake (t : T)
  | chainNext (t : T) (r : DiscardReads)
  | chainEnd (t : T) (r : DiscardReads)
  | sortPartial
  | shrink (page : ℕ)

/-- One step of the cache. `alloc`, `deactivate`, `loadPartial` and `loadNew` are the sections of
`cache_alloc` and `slab_alloc`, `deactivate` also that of the reclaim of a thread's page; `newPartial` is
the new page of `get_partial` when another thread has loaded one meanwhile, `newDiscard` that page, or the
one of `get_empty`, when it is given back at once. `directFree` is `cache_free` and
`__ufree`. `poolTake`, `chainNext` and `chainEnd` are `objpool_flush`. `sortPartial` and `shrink` are the
sections of `cache_shrink`. -/
def slabStep (c : CacheParams) (s : SlabState T) : SlabAct T → Option (SlabState T)
  | .alloc t => allocObject c s t
  | .deactivate t r =>
      match loadedPage c s t with
      | none => none
      | some page => some (deactivateSlab c s t page r)
  | .loadPartial t page =>
      if loadedPage c s t = none ∧ page ∈ s.partials then
        some (removePartial (lockAndFreezeSlab c s t page) page)
      else none
  | .loadNew t page =>
      if loadedPage c s t = none ∧ page ∉ s.live then
        some (lockAndFreezeSlab c (newSlab c s page) t page) else none
  | .newPartial t page =>
      if loadedPage c s t ≠ none ∧ c.lockless = false ∧ page ∉ s.live then
        some (addPartialTail (newSlab c s page) page)
      else none
  | .newDiscard page => if page ∉ s.live then some (discardSlab (newSlab c s page) page) else none
  | .slabFree t o r => if o ∈ s.held then some (threadFree c (takeBack s o) t o r) else none
  | .directFree o r => if o ∈ s.held then some (slabFree c (takeBack s o) o.1 [o] 1 r) else none
  | .tlsFlush t r =>
      some (flushFreelist c { s with tlsFree := Function.update s.tlsFree t TlsFreelist.empty }
        (s.tlsFree t) r)
  | .poolFree o =>
      if o ∈ s.held ∧ c.lockless = false ∧ s.pool.length + 1 ≤ c.poolCap then
        some { takeBack s o with pool := o :: s.pool }
      else none
  | .poolAlloc =>
      match s.pool with
      | [] => none
      | o :: rest => if c.lockless then none else some (handOut { s with pool := rest } o)
  | .poolTake t =>
      if c.lockless = false ∧ s.chain t = [] ∧ (s.chainFree t).nr = 0 then
        some { s with pool := [], chain := Function.update s.chain t s.pool }
      else none
  | .chainNext t r =>
      match s.chain t with
      | [] => none
      | o :: rest =>
          let k := tlsCache c { s with
            chain := Function.update s.chain t rest
            chainFree := Function.update s.chainFree t TlsFreelist.empty } (s.chainFree t) o r
          some { k.1 with chainFree := Function.update k.1.chainFree t k.2 }
  | .chainEnd t r =>
      if s.chain t = [] then
        some (flushFreelist c { s
          with chainFree := Function.update s.chainFree t TlsFreelist.empty } (s.chainFree t) r)
      else none
  | .sortPartial => some { s with partials := s.partials.mergeSort fun a b => decide (s.inuse a ≤ s.inuse b) }
  | .shrink page =>
      if page ∈ s.partials ∧ s.inuse page = 0 then some (discardSlab (removePartial s page) page) else none

end Threads

end Skp.Mm
