import Skp.Foundations.Runs
import Skp.Mm.CacheFlush
import Skp.Mm.CacheSizes
import Skp.Mm.ObjpoolModel
import Skp.Mm.UmallocFirst

/-! # Caches with several users

`umem_cache_create` of `src/mm/slab.c` answers a request with a cache that is there already when one
has objects of the right size, and counts its users; `umem_cache_destroy` gives it up when the last
of them has gone and a flush finds no object in use. Both run under `slub_lock`. The caches of
`umalloc` are on the same list and may be handed out too. Their counts are kept from 0 by a user
that never leaves, the count of the cache of the descriptors by a start at -1, which in its 32 bits
is a large number and not a negative one. -/
namespace Skp.Mm
set_option autoImplicit false
open Skp.Foundations Skp.Utils

/-! ## The caches -/

structure SlabFlags where
  hwcacheAlign : Bool
  unmergeable : Bool
  nonDiscard : Bool
deriving DecidableEq

/-- What creation, destruction and the slabs use of `struct umem_cache_s`; `lockless` is an index
that is not negative. -/
structure UmemCache extends SlabSizes where
  lockless : Bool
  flags : SlabFlags
  objsize : ℕ
  refcount : ℕ
  objpoolCap : ℕ
  objects_pos : 0 < objects
deriving DecidableEq

def UmemCache.params (p : UmemCache) : CacheParams where
  lockless := p.lockless
  objects := p.objects
  nonDiscard := p.flags.nonDiscard
  minObjects := slabMinObjects
  poolCap := p.objpoolCap
  objects_pos := p.objects_pos

/-- Whoever has been given a cache by `umem_cache_create`, with what it asked for, until it destroys it. -/
structure CacheUser where
  cache : Obj
  size : ℕ
  align : ℕ
  hwcacheAlign : Bool
deriving DecidableEq

/-- A cache is named by its descriptor, an object of the first cache; `slab` is its node, its pool
and its pages. `users` records the history. -/
structure UmemState (T : Type) where
  cache : Obj → UmemCache
  slab : Obj → SlabState T
  slabCaches : List Obj
  users : List CacheUser

/-- `umalloc_caches`, whose descriptors are the first objects of the first slab. -/
def umallocCaches (i : CacheIndex) : Obj := (0, i.val)

/-- One of the caches of `umalloc`. -/
def General (c : Obj) : Prop := ∃ i, c = umallocCaches i

instance (c : Obj) : Decidable (General c) := inferInstanceAs (Decidable (∃ i, c = umallocCaches i))

variable {T : Type}

namespace UmemState

def set (s : UmemState T) (c : Obj) (f : UmemCache → UmemCache) : UmemState T :=
  { s with cache := Function.update s.cache c (f (s.cache c)) }

def setSlab (s : UmemState T) (c : Obj) (k : SlabState T) : UmemState T :=
  { s with slab := Function.update s.slab c k }

def incref (s : UmemState T) (c : Obj) : UmemState T :=
  s.set c fun p => { p with refcount := (p.refcount + 1) % 2 ^ 32 }

def decref (s : UmemState T) (c : Obj) : UmemState T :=
  s.set c fun p => { p with refcount := (p.refcount + (2 ^ 32 - 1)) % 2 ^ 32 }

/-- A new cache at the head of the list. -/
def link (s : UmemState T) (c : Obj) (p : UmemCache) : UmemState T :=
  { s with
    cache := Function.update s.cache c p
    slab := Function.update s.slab c slabInit
    slabCaches := c :: s.slabCaches }

def unlink (s : UmemState T) (c : Obj) : UmemState T := { s with slabCaches := s.slabCaches.erase c }

def withUsers (s : UmemState T) (users : List CacheUser) : UmemState T := { s with users := users }

def nrUsers (s : UmemState T) (c : Obj) : ℕ := s.users.countP fun u => u.cache == c

end UmemState

/-- `s->refcount < 0` compares an unsigned number. -/
def slabUnmergeable (c : UmemCache) : Bool := c.flags.unmergeable

/-- The body of the loop of `find_mergeable`, for the rounded size and alignment. -/
def mergeableWith (size align : ℕ) (c : UmemCache) : Bool :=
  decide (size ≤ c.size) && !slabUnmergeable c && decide (c.size / align * align = c.size) &&
    decide (c.size - size < 8)

def findMergeable (s : UmemState T) (size align : ℕ) (hwcache : Bool) : Option Obj :=
  let size := alignTo 32 size 8
  let align := calculateAlignment hwcache align size
  let size := alignTo 32 size align
  s.slabCaches.find? fun c => mergeableWith size align (s.cache c)

/-- `__create_cache` in a descriptor it has been given. The outer `none` is a division by zero; when
the inner one comes back, nobody frees the descriptor. -/
def createCache (size align : ℕ) (flags : SlabFlags) : Option (Option UmemCache) :=
  (calculateSizes false flags.hwcacheAlign align size).map fun r => r.bind fun sizes =>
    if h : 0 < sizes.objects then
      some { sizes with
        lockless := false
        flags := flags
        objsize := size
        refcount := 1
        objpoolCap := tlsFreelistCap * 2
        objects_pos := h }
    else none

section Threads
variable [DecidableEq T]

/-- One step of the allocator of a cache. -/
def umemSlabStep (s : UmemState T) (c : Obj) (a : SlabAct T) : Option (UmemState T) :=
  (slabStep (s.cache c).params (s.slab c) a).map (s.setSlab c)

/-- `cache_alloc` from a page that is loaded; loading one is a step of its own before it. -/
def cacheAlloc (s : UmemState T) (t : T) (c : Obj) : Option (UmemState T × Obj) :=
  (umemSlabStep s c (.alloc t)).bind fun s' =>
    (handedObj (s.cache c).params (s.slab c) (.alloc t)).map fun o => (s', o)

def cacheFree (s : UmemState T) (c o : Obj) : Option (UmemState T) :=
  umemSlabStep s c (.directFree o (discardReads (s.slab c)))

def umemCacheCreate (s : UmemState T) (t : T) (size align : ℕ) (flags : SlabFlags) :
    Option (UmemState T × Option Obj) :=
  if vpageSize * 2 ^ (maxOrder - 1) ≤ size ∨ vpageSize * 2 ^ (maxOrder - 1) ≤ align then none
  else
    match findMergeable s size align flags.hwcacheAlign with
    | some c =>
        let size := alignTo 32 size 8
        let merged := s.set c fun p =>
          { p with
            refcount := (p.refcount + 1) % 2 ^ 32
            inuse := max p.inuse size
            objsize := max p.objsize size }
        some (merged, some c)
    | none =>
        match cacheAlloc s t (umallocCaches 0) with
        | none => some (s, none)
        | some (s, d) => (createCache size align flags).map fun
            | some p => (s.link d { p with objpoolCap := prepareObjpool slabMinObjects p.objects }, some d)
            | none => (s, none)

/-- `cache_flush` of a listed cache. -/
def flushCache (s : UmemState T) (t : T) (c : Obj) : UmemState T × Bool :=
  (s.setSlab c (cacheFlush (s.cache c).params (s.slab c) t).1, (cacheFlush (s.cache c).params (s.slab c) t).2)

def umemCacheDestroy (s : UmemState T) (t : T) (c : Obj) : Option (UmemState T × Bool) :=
  if (s.cache c).lockless = true ∧ (s.cache c).refcount < 2 then none
  else
    let s := s.decref c
    if (s.cache c).refcount = 0 then
      if (s.cache c).lockless = true then none
      else
        match flushCache s t c with
        | (s, true) => (cacheFree (s.unlink c) (umallocCaches 0) c).map fun s => (s, true)
        | (s, false) => some (s.incref c, false)
    else some (s, true)

/-! ## Calls -/

inductive UmemAct (T : Type) where
  | create (t : T) (size align : ℕ) (flags : SlabFlags)
  | destroy (t : T) (u : CacheUser)
  | slab (c : Obj) (a : SlabAct T)

/-- A call of `umem_cache_create` or `umem_cache_destroy`, or a step of the allocator of one cache.
`none` from a call is one of the `BUG_ON`s or a division by zero. -/
def umemStep (s : UmemState T) : UmemAct T → Option (UmemState T)
  | .create t size align flags => (umemCacheCreate s t size align flags).map fun
      | (s, some c) => s.withUsers (⟨c, size, align, flags.hwcacheAlign⟩ :: s.users)
      | (s, none) => s
  | .destroy t u => (umemCacheDestroy s t u.cache).map fun
      | (s, true) => s.withUsers (s.users.erase u)
      | (s, false) => s
  | .slab c a => umemSlabStep s c a

/-- Something is asked for whose rounded size fits 32 bits, with an alignment that is 0 or a power of two. -/
structure Request (size align : ℕ) (hwcache : Bool) : Prop where
  pos : 0 < size
  size_lt : size < vpageSize * 2 ^ (maxOrder - 1)
  align_lt : align < vpageSize * 2 ^ (maxOrder - 1)
  pow : align = 0 ∨ ∃ k, align = 2 ^ k
  wanted : wantedSize hwcache align size < 2 ^ 32

instance (size align : ℕ) (hwcache : Bool) : Decidable (Request size align hwcache) :=
  decidable_of_iff (0 < size ∧ size < vpageSize * 2 ^ (maxOrder - 1) ∧
    align < vpageSize * 2 ^ (maxOrder - 1) ∧
      (align = 0 ∨ 2 ^ Nat.log 2 align = align) ∧ wantedSize hwcache align size < 2 ^ 32)
    ⟨fun h => ⟨h.1, h.2.1, h.2.2.1, h.2.2.2.1.imp_right fun he => ⟨_, he.symm⟩, h.2.2.2.2⟩,
      fun h =>
      ⟨h.pos, h.size_lt, h.align_lt,
        h.pow.imp_right fun ⟨k, hk⟩ => by rw [hk, Nat.log_pow (Nat.lt_succ_self 1)], h.wanted⟩⟩

/-- What the callers keep to: only who has been given a cache destroys it, objects come from listed
caches, and nobody frees the descriptor of a listed cache. -/
def UmemLegal (s : UmemState T) : UmemAct T → Prop
  | .create _ size align flags => Request size align flags.hwcacheAlign ∧ s.users.length + 3 < 2 ^ 32
  | .destroy _ u => u ∈ s.users
  | .slab c a => c ∈ s.slabCaches ∧ (umemSlabStep s c a).isSome ∧ ∀ o, freedObj a = some o →
      c = umallocCaches 0 → o ∉ s.slabCaches

instance (s : UmemState T) (a : UmemAct T) : Decidable (UmemLegal s a) :=
  match a with
  | .create _ size align flags =>
      inferInstanceAs
        (Decidable (Request size align flags.hwcacheAlign ∧ s.users.length + 3 < 2 ^ 32))
  | .destroy _ u => inferInstanceAs (Decidable (u ∈ s.users))
  | .slab c a => inferInstanceAs (Decidable (c ∈ s.slabCaches ∧ (umemSlabStep s c a).isSome ∧
      ∀ o ∈ freedObj a, c = umallocCaches 0 → o ∉ s.slabCaches))

def umallocDesc (i : CacheIndex) : UmemCache where
  toSlabSizes := classOf i
  lockless := decide (i ≠ 0)
  flags := ⟨i == 0, false, false⟩
  objsize := umallocObjsize i
  refcount := if i = 0 then 2 ^ 32 - 1 else 1
  objpoolCap := tlsFreelistCap * 2
  objects_pos := classOf_objects_pos i

/-- The descriptors, allocated by the thread that calls `__umem_cache_init` from the first page it loads. -/
def descActs (t : T) : List (SlabAct T) := .loadNew t 0 :: List.replicate (umallocShiftHigh + 1) (.alloc t)

/-- After `__umem_cache_init`. -/
def umemInit (t : T) : UmemState T where
  cache := fun c => umallocDesc (Fin.ofNat (umallocShiftHigh + 1) c.2)
  slab :=
    fun c => if c = umallocCaches 0 then
      (runActs (slabStep (umallocDesc 0).params) slabInit (descActs t)).getD slabInit else slabInit
  slabCaches := ((List.finRange (umallocShiftHigh + 1)).map umallocCaches).reverse
  users := []

end Threads

/-! ## What holds between the calls -/

/-- What a user relies on: its objects are as large and as aligned as it asked for, they are exactly
as large as in a cache of its own, what is cleared of an object lies in it, and the objects of a
slab fit on its pages. -/
structure Serves (p : UmemCache) (u : CacheUser) : Prop where
  enough : u.size ≤ p.objsize
  own : p.size = wantedSize u.hwcacheAlign u.align u.size
  aligned : u.align = 0 ∨ u.align ∣ p.size

structure CacheRight (p : UmemCache) : Prop where
  objects_pos : 1 ≤ p.objects
  fits : p.objects * p.size ≤ vpageSize * 2 ^ p.order
  cleared : p.objsize ≤ p.inuse
  inside : p.inuse ≤ p.size

/-- The users a cache has from the start. -/
def ownRefs (c : Obj) : ℕ := if c = umallocCaches 0 then 2 ^ 32 - 1 else if General c then 1 else 0

section Threads
variable [DecidableEq T]

/-- Every user has a listed cache that serves it, no object outlives its cache, a cache that must
not be shared is not, a cache stays exactly as long as it has a user, and no call of users who keep
to the rules runs into a `BUG_ON`. -/
structure UmemOk (s : UmemState T) : Prop where
  served : ∀ u ∈ s.users, u.cache ∈ s.slabCaches ∧ Serves (s.cache u.cache) u ∧ CacheRight (s.cache u.cache)
  kept : ∀ c, (s.slab c).held ≠ [] → c ∈ s.slabCaches
  alone : ∀ c ∈ s.slabCaches, (s.cache c).flags.unmergeable = true → s.nrUsers c ≤ 1
  used : ∀ c, c ∈ s.slabCaches ↔ General c ∨ 0 < s.nrUsers c
  goes : ∀ a, UmemLegal s a → (umemStep s a).isSome

end Threads

/-- The descriptor of a listed cache is an object in use of the first cache. -/
structure UmemInv (s : UmemState T) : Prop where
  nodup : s.slabCaches.Nodup
  general : ∀ c, General c → c ∈ s.slabCaches
  lockless : ∀ c ∈ s.slabCaches, (s.cache c).lockless = true ↔ General c ∧ c ≠ umallocCaches 0
  right : ∀ c ∈ s.slabCaches, CacheRight (s.cache c)
  linked : ∀ u ∈ s.users, u.cache ∈ s.slabCaches
  served : ∀ u ∈ s.users, Serves (s.cache u.cache) u
  counted : ∀ c ∈ s.slabCaches, (s.cache c).refcount = (ownRefs c + s.nrUsers c) % 2 ^ 32
  used : ∀ c ∈ s.slabCaches, ¬General c → 0 < s.nrUsers c
  alone : ∀ c ∈ s.slabCaches, (s.cache c).flags.unmergeable = true → s.nrUsers c ≤ 1
  slabs : ∀ c ∈ s.slabCaches, SlabInv (s.cache c).params [] none (s.slab c)
  described : ∀ c ∈ s.slabCaches, c ∈ (s.slab (umallocCaches 0)).held
  kept : ∀ c, (s.slab c).held ≠ [] → c ∈ s.slabCaches
  few : s.users.length + 2 < 2 ^ 32

/-! ## Sizes -/

section Sizes
variable {size align : ℕ} {hwcache : Bool}

theorem roundUp_le_wantedSize (halign : align = 0 ∨ ∃ k, align = 2 ^ k) (hlt : align < 2 ^ 32) :
    roundUp size 8 ≤ wantedSize hwcache align size := by
  obtain ⟨j, -, hcalc, -⟩ := calculateAlignment_pow halign hlt hwcache size
  rw [wantedSize, hcalc]
  exact roundUp_le (Nat.two_pow_pos j) _

theorem alignTo_eight (halign : align = 0 ∨ ∃ k, align = 2 ^ k) (hlt : align < 2 ^ 32) (hsize : size < 2 ^ 32)
    (hwanted : wantedSize hwcache align size < 2 ^ 32) : alignTo 32 size 8 = roundUp size 8 := by
  have hle : roundUp size 8 ≤ wantedSize hwcache align size := roundUp_le_wantedSize halign hlt
  rcases alignTo_pow (show 3 ≤ 31 by decide) hsize with ⟨-, heq⟩ | ⟨hlarge, -⟩
  · exact heq
  · have hlarge' : 2 ^ 32 ≤ roundUp size 8 := hlarge
    omega

/-- The rounding to 8 does not carry a size past the 64 bytes from which on a cache line matters. -/
theorem calculateAlignment_roundUp :
    calculateAlignment hwcache align (roundUp size 8) = calculateAlignment hwcache align size := by
  have hiff : cachelineBytes / 2 < roundUp size 8 ↔ cachelineBytes / 2 < size := by
    rw [roundUp, cachelineBytes]
    omega
  simp only [calculateAlignment, hiff]

theorem eight_le_calculateAlignment (hlt : align + 7 < 2 ^ 32) :
    8 ≤ calculateAlignment hwcache align size := by
  rw [calculateAlignment, cachelineBytes, slabMinalign, alignTo]
  split_ifs <;> omega

/-- A cache of the rounded size and alignment, give or take less than 8 bytes, has the size asked for. -/
theorem size_eq_of_mergeable {a n w : ℕ} (ha : 8 ≤ a) (hn : n / a * a = n) (hw : a ∣ w)
    (hle : w ≤ n) (hsub : n - w < 8) : n = w := by
  have hdvd : a ∣ n - w := Nat.dvd_sub (hn ▸ Nat.dvd_mul_left a (n / a)) hw
  have hzero := Nat.eq_zero_of_dvd_of_lt hdvd (by omega)
  omega

theorem calculateSizes_inuse {down : Bool} {r : SlabSizes}
    (h : calculateSizes down hwcache align size = some (some r)) :
    r.inuse = alignTo 32 size 8 := by
  simp only [calculateSizes, Option.bind_eq_bind, Option.bind_eq_some_iff] at h
  obtain ⟨order, -, h⟩ := h
  cases order with
  | none => simp at h
  | some order =>
    simp only at h
    split_ifs at h
    · cases h
    · rw [← Option.some.inj (Option.some.inj h)]

end Sizes

variable {s : UmemState T} {size align : ℕ} {c : Obj} {flags : SlabFlags}

theorem Request.align_lt' (h : Request size align flags.hwcacheAlign) : align + 7 < 2 ^ 32 := by
  have hlt : align < 2 ^ 32 := h.align_lt
  rcases h.pow with rfl | ⟨k, rfl⟩
  · decide
  · have hk : k < 32 := (Nat.pow_lt_pow_iff_right (by omega)).mp hlt
    have hle : 2 ^ k ≤ 2 ^ 31 := Nat.pow_le_pow_right (by omega) (by omega)
    omega

theorem findMergeable_spec (h : Request size align flags.hwcacheAlign)
    (hfind : findMergeable s size align flags.hwcacheAlign = some c) :
    c ∈ s.slabCaches ∧ (s.cache c).flags.unmergeable = false ∧
      (s.cache c).size = wantedSize flags.hwcacheAlign align size ∧
      (align = 0 ∨ align ∣ (s.cache c).size) := by
  have hlt : align < 2 ^ 32 := h.align_lt
  have hsize : size < 2 ^ 32 := h.size_lt
  obtain ⟨j, -, hcalc, hdvd⟩ := calculateAlignment_pow h.pow hlt flags.hwcacheAlign size
  have height : 8 ≤ 2 ^ j := hcalc ▸ eight_le_calculateAlignment h.align_lt'
  have hround := alignTo_eight h.pow hlt hsize h.wanted
  have hwant : alignTo 32 (roundUp size 8) (2 ^ j) = wantedSize flags.hwcacheAlign align size := by
    have heq := slabSize_eq h.pow hlt hsize flags.hwcacheAlign
    rw [slabSize, hround, hcalc] at heq
    rcases heq with ⟨-, heq⟩ | ⟨hlarge, -⟩
    · exact heq
    · exact absurd h.wanted (Nat.not_lt.mpr hlarge)
  rw [findMergeable, hround, calculateAlignment_roundUp, hcalc, hwant] at hfind
  have hmerge := List.find?_some hfind
  simp only [mergeableWith, slabUnmergeable, Bool.and_eq_true, decide_eq_true_eq, Bool.not_eq_true'] at hmerge
  obtain ⟨⟨⟨hle, hflag⟩, hmult⟩, hsub⟩ := hmerge
  have hdvdw : 2 ^ j ∣ wantedSize flags.hwcacheAlign align size := by
    rw [wantedSize, hcalc]
    exact dvd_roundUp _ _
  have hown := size_eq_of_mergeable height hmult hdvdw hle hsub
  exact ⟨List.mem_of_find?_eq_some hfind, hflag, hown, hdvd.imp_right fun hd => hown ▸ dvd_trans hd hdvdw⟩

theorem createCache_spec (h : Request size align flags.hwcacheAlign) :
    ∃ r, createCache size align flags = some r ∧ ∀ p, r = some p → p.lockless = false ∧
      p.refcount = 1 ∧ CacheRight p ∧
      ∀ c, Serves p ⟨c, size, align, flags.hwcacheAlign⟩ := by
  have hlt : align < 2 ^ 32 := h.align_lt
  have hsize : size < 2 ^ 32 := h.size_lt
  have hslab : slabSize flags.hwcacheAlign align size = wantedSize flags.hwcacheAlign align size := by
    rcases slabSize_eq h.pow hlt hsize flags.hwcacheAlign with ⟨-, heq⟩ | ⟨hlarge, -⟩
    · exact heq
    · exact absurd h.wanted (Nat.not_lt.mpr hlarge)
  have hround := alignTo_eight h.pow hlt hsize h.wanted
  have hle : roundUp size 8 ≤ wantedSize flags.hwcacheAlign align size := roundUp_le_wantedSize h.pow hlt
  have hpos : size ≤ roundUp size 8 := roundUp_le (by omega) size
  obtain ⟨r, hr, hright⟩ :=
    calculateSizes_total false (show slabSize flags.hwcacheAlign align size ≠
      0 by have := h.pos; omega)
  refine ⟨_, by rw [createCache, hr]; rfl, fun p hp => ?_⟩
  obtain ⟨sizes, rfl, hmade⟩ := Option.bind_eq_some_iff.mp hp
  obtain ⟨hone, hfits, -, hown⟩ := hright sizes rfl
  rw [dif_pos (show 0 < sizes.objects from hone)] at hmade
  obtain rfl := Option.some.inj hmade
  have hinuse := calculateSizes_inuse hr
  rw [hround] at hinuse
  obtain ⟨j, -, hcalc, hdvd⟩ := calculateAlignment_pow h.pow hlt flags.hwcacheAlign size
  refine ⟨rfl, rfl, ⟨hone, hfits, ?_, ?_⟩,
    fun c => ⟨le_refl size, hown.trans hslab, hdvd.imp_right fun hd => ?_⟩⟩
  · show size ≤ sizes.inuse
    omega
  · show sizes.inuse ≤ sizes.size
    omega
  · show align ∣ sizes.size
    rw [hown, hslab, wantedSize, hcalc]
    exact dvd_trans hd (dvd_roundUp _ _)

/-! ## Steps -/

@[simp] theorem setSlab_slab_self (k : SlabState T) : (s.setSlab c k).slab c = k := Function.update_self ..

@[simp] theorem set_cache_self (f : UmemCache → UmemCache) :
    (s.set c f).cache c = f (s.cache c) := by simp [UmemState.set]

theorem set_cache_of_ne {c' : Obj} (h : c' ≠ c) (f : UmemCache → UmemCache) :
    (s.set c f).cache c' = s.cache c' := by
  simp [UmemState.set, h]

theorem Serves.mono {p q : UmemCache} {u : CacheUser} (h : Serves p u) (hsize : q.size = p.size)
    (hobj : p.objsize ≤ q.objsize) :
    Serves q u :=
  ⟨h.enough.trans hobj, hsize.trans h.own, hsize ▸ h.aligned⟩

theorem nrUsers_cons (u : CacheUser) (c' : Obj) :
    (u :: s.users).countP (fun v => v.cache == c') = s.nrUsers c' + if u.cache = c' then 1 else 0 := by
  simp [UmemState.nrUsers, List.countP_cons]

theorem nrUsers_erase {u : CacheUser} (hu : u ∈ s.users) (c' : Obj) :
    s.nrUsers c' = (s.users.erase u).countP (fun v => v.cache == c') + if u.cache = c' then 1 else 0 := by
  rw [UmemState.nrUsers, (List.perm_cons_erase hu).countP_eq, List.countP_cons]
  simp

theorem nrUsers_le (s : UmemState T) (c : Obj) : s.nrUsers c ≤ s.users.length := List.countP_le_length

/-- One listed cache gets another count and larger fields, and its users change with it. -/
theorem UmemInv.update (h : UmemInv s) (hc : c ∈ s.slabCaches) {f : UmemCache → UmemCache}
    {users : List CacheUser}
    (hparams : (f (s.cache c)).params = (s.cache c).params)
    (hflags : (f (s.cache c)).flags = (s.cache c).flags)
    (hsize : (f (s.cache c)).size = (s.cache c).size) (hobj : (s.cache c).objsize ≤ (f (s.cache c)).objsize)
    (hright : CacheRight (f (s.cache c)))
    (hserved : ∀ u ∈ users, u ∈ s.users ∨ u.cache = c ∧ Serves (f (s.cache c)) u)
    (hcounted : (f (s.cache c)).refcount = (ownRefs c + users.countP fun u => u.cache == c) % 2 ^ 32)
    (hothers : ∀ c', c' ≠ c → (users.countP fun u => u.cache == c') = s.nrUsers c')
    (hused : ¬General c → 0 < users.countP fun u => u.cache == c)
    (halone : (s.cache c).flags.unmergeable = true → (users.countP fun u => u.cache == c) ≤ 1)
    (hfew : users.length + 2 < 2 ^ 32) : UmemInv ((s.set c f).withUsers users) := by
  have hcache : ∀ c' ∈ s.slabCaches, c' ≠ c → ((s.set c f).withUsers users).cache c' = s.cache c' :=
    fun c' _ hne => set_cache_of_ne hne f
  have hself : ((s.set c f).withUsers users).cache c = f (s.cache c) := set_cache_self f
  refine ⟨h.nodup, h.general, fun c' hc' => ?_, fun c' hc' => ?_, fun u hu => ?_, fun u hu => ?_,
    fun c' hc' => ?_, fun c' hc' hlt => ?_,
    fun c' hc' hf => ?_, fun c' hc' => ?_, h.described, h.kept, hfew⟩
  · by_cases hne : c' = c
    · subst hne
      have hlock : (f (s.cache c')).lockless = (s.cache c').lockless := congrArg CacheParams.lockless hparams
      rw [hself, hlock]
      exact h.lockless c' hc'
    · rw [hcache c' hc' hne]
      exact h.lockless c' hc'
  · by_cases hne : c' = c
    · subst hne
      rw [hself]
      exact hright
    · rw [hcache c' hc' hne]
      exact h.right c' hc'
  · rcases hserved u hu with hu | ⟨rfl, -⟩
    · exact h.linked u hu
    · exact hc
  · rcases hserved u hu with hu | ⟨rfl, hserve⟩
    · by_cases hne : u.cache = c
      · rw [hne, hself]
        exact (hne ▸ h.served u hu).mono hsize hobj
      · rw [hcache u.cache (h.linked u hu) hne]
        exact h.served u hu
    · rw [hself]
      exact hserve
  · by_cases hne : c' = c
    · subst hne
      rw [hself]
      exact hcounted
    · rw [hcache c' hc' hne, h.counted c' hc']
      exact congrArg (fun n => (ownRefs c' + n) % 2 ^ 32) (hothers c' hne).symm
  · by_cases hne : c' = c
    · subst hne
      exact hused hlt
    · exact (h.used c' hc' hlt).trans_eq (hothers c' hne).symm
  · by_cases hne : c' = c
    · subst hne
      rw [hself, hflags] at hf
      exact halone hf
    · rw [hcache c' hc' hne] at hf
      exact (hothers c' hne).le.trans (h.alone c' hc' hf)
  · by_cases hne : c' = c
    · subst hne
      rw [hself, hparams]
      exact h.slabs c' hc'
    · rw [hcache c' hc' hne]
      exact h.slabs c' hc'

theorem UmemInv.merge (h : UmemInv s) (hreq : Request size align flags.hwcacheAlign)
    (hfew : s.users.length + 3 < 2 ^ 32)
    (hfind : findMergeable s size align flags.hwcacheAlign = some c) :
    UmemInv ((s.set c fun p =>
      { p with
        refcount := (p.refcount + 1) % 2 ^ 32
        inuse := max p.inuse (alignTo 32 size 8)
        objsize := max p.objsize (alignTo 32 size 8) }).withUsers
          (⟨c, size, align, flags.hwcacheAlign⟩ :: s.users)) := by
  obtain ⟨hc, hflag, hown, hdvd⟩ := findMergeable_spec hreq hfind
  have hround : alignTo 32 size 8 = roundUp size 8 :=
    alignTo_eight hreq.pow hreq.align_lt hreq.size_lt hreq.wanted
  have hle : roundUp size 8 ≤ wantedSize flags.hwcacheAlign align size :=
    roundUp_le_wantedSize hreq.pow hreq.align_lt
  have hpos : size ≤ roundUp size 8 := roundUp_le (by omega) size
  have hright := h.right c hc
  refine h.update hc rfl rfl rfl (le_max_left _ _) ⟨hright.objects_pos, hright.fits, ?_, ?_⟩
    (fun u hu => ?_) ?_ (fun c' hne => ?_) (fun _ => ?_)
    (fun hun => ?_) (by rw [List.length_cons]; omega)
  · exact max_le_max_right _ hright.cleared
  · exact max_le hright.inside (by rw [hround, hown]; exact hle)
  · rcases List.mem_cons.mp hu with rfl | hu
    · exact .inr ⟨rfl, (by rw [hround]; exact hpos.trans (le_max_right _ _)), hown, hdvd⟩
    · exact .inl hu
  · rw [nrUsers_cons, if_pos rfl]
    show ((s.cache c).refcount + 1) % 2 ^ 32 = _
    rw [h.counted c hc, Nat.mod_add_mod, Nat.add_assoc]
  · rw [nrUsers_cons, if_neg (Ne.symm hne), Nat.add_zero]
  · rw [nrUsers_cons, if_pos rfl]
    exact Nat.succ_pos _
  · rw [hflag] at hun
    cases hun

theorem UmemInv.add (h : UmemInv s) {p : UmemCache} (hfew : s.users.length + 3 < 2 ^ 32)
    (hnew : c ∉ s.slabCaches)
    (hdesc : c ∈ (s.slab (umallocCaches 0)).held) (hlock : p.lockless = false)
    (hcount : p.refcount = 1) (hright : CacheRight p) {u : CacheUser}
    (hu : u.cache = c) (hserve : Serves p u) : UmemInv ((s.link c p).withUsers (u :: s.users)) := by
  have hself : ((s.link c p).withUsers (u :: s.users)).cache c = p := Function.update_self ..
  have hold : ∀ c' ∈ s.slabCaches, ((s.link c p).withUsers (u :: s.users)).cache c' = s.cache c' :=
    fun c' hc' => Function.update_of_ne (show c' ≠ c from fun he => hnew (he ▸ hc')) _ _
  have hempty : ((s.link c p).withUsers (u :: s.users)).slab c = slabInit := Function.update_self ..
  have hslab : ∀ c' ∈ s.slabCaches, ((s.link c p).withUsers (u :: s.users)).slab c' = s.slab c' :=
    fun c' hc' => Function.update_of_ne (show c' ≠ c from fun he => hnew (he ▸ hc')) _ _
  have hown : ¬General c := fun hg => hnew (h.general c hg)
  have hnone : s.nrUsers c = 0 := List.countP_eq_zero.mpr fun v hv he =>
    hnew (by rw [← beq_iff_eq.mp he]; exact h.linked v hv)
  have hone : ((s.link c p).withUsers (u :: s.users)).nrUsers c = 1 := by
    refine (nrUsers_cons u c).trans ?_
    rw [if_pos hu, hnone]
  have hsame : ∀ c' ∈ s.slabCaches, ((s.link c p).withUsers (u :: s.users)).nrUsers c' =
      s.nrUsers c' := fun c' hc' => by
    refine (nrUsers_cons u c').trans ?_
    rw [if_neg fun he => hnew ((hu.symm.trans he) ▸ hc'), Nat.add_zero]
  refine ⟨List.nodup_cons.mpr ⟨hnew, h.nodup⟩,
    fun c' hg => List.mem_cons_of_mem _ (h.general c' hg), fun c' hc' => ?_, fun c' hc' => ?_,
    fun v hv => ?_, fun v hv => ?_, fun c' hc' => ?_, fun c' hc' hlt => ?_, fun c' hc' hf => ?_,
    fun c' hc' => ?_, fun c' hc' => ?_,
    fun c' hheld => ?_, ?_⟩
  · rcases List.mem_cons.mp hc' with rfl | hc'
    · rw [hself, hlock]
      simp [hown]
    · rw [hold c' hc']
      exact h.lockless c' hc'
  · rcases List.mem_cons.mp hc' with rfl | hc'
    · rw [hself]
      exact hright
    · rw [hold c' hc']
      exact h.right c' hc'
  · rcases List.mem_cons.mp hv with rfl | hv
    · exact hu ▸ List.mem_cons_self
    · exact List.mem_cons_of_mem _ (h.linked v hv)
  · rcases List.mem_cons.mp hv with rfl | hv
    · rw [hu, hself]
      exact hserve
    · rw [hold v.cache (h.linked v hv)]
      exact h.served v hv
  · rcases List.mem_cons.mp hc' with rfl | hc'
    · have hfirst : c' ≠ umallocCaches 0 := fun he => hown ⟨0, he⟩
      rw [hself, hone, hcount, ownRefs, if_neg hfirst, if_neg hown]
      rfl
    · rw [hold c' hc', hsame c' hc']
      exact h.counted c' hc'
  · rcases List.mem_cons.mp hc' with rfl | hc'
    · rw [hone]
      exact Nat.one_pos
    · rw [hsame c' hc']
      exact h.used c' hc' hlt
  · rcases List.mem_cons.mp hc' with rfl | hc'
    · exact hone.le
    · rw [hold c' hc'] at hf
      rw [hsame c' hc']
      exact h.alone c' hc' hf
  · rcases List.mem_cons.mp hc' with rfl | hc'
    · rw [hself, hempty]
      exact slabInv_init _
    · rw [hold c' hc', hslab c' hc']
      exact h.slabs c' hc'
  · rw [hslab _ (h.general _ ⟨0, rfl⟩)]
    rcases List.mem_cons.mp hc' with rfl | hc'
    · exact hdesc
    · exact h.described c' hc'
  · by_cases he : c' = c
    · exact he ▸ List.mem_cons_self
    · have hslab' : ((s.link c p).withUsers (u :: s.users)).slab c' = s.slab c' :=
        Function.update_of_ne he _ _
      rw [hslab'] at hheld
      exact List.mem_cons_of_mem _ (h.kept c' hheld)
  · show (u :: s.users).length + 2 < 2 ^ 32
    rw [List.length_cons]
    omega

theorem UmemInv.remove (h : UmemInv s) {u : CacheUser} (hu : u ∈ s.users) (hown : ¬General u.cache)
    (hone : s.nrUsers u.cache = 1)
    (hheld : (s.slab u.cache).held = []) (f : UmemCache → UmemCache) :
    UmemInv (((s.set u.cache f).unlink u.cache).withUsers (s.users.erase u)) := by
  have hmem : ∀ c', c' ∈ s.slabCaches.erase u.cache ↔ c' ≠ u.cache ∧ c' ∈ s.slabCaches :=
    fun c' => h.nodup.mem_erase_iff
  have hcache : ∀ c' ∈ s.slabCaches.erase u.cache,
      (((s.set u.cache f).unlink u.cache).withUsers (s.users.erase u)).cache c' = s.cache c' :=
    fun c' hc' => set_cache_of_ne ((hmem c').mp hc').1 f
  have hcount : ∀ c' ∈ s.slabCaches.erase u.cache,
      (((s.set u.cache f).unlink u.cache).withUsers (s.users.erase u)).nrUsers c' = s.nrUsers c' :=
        fun c' hc' => by
    rw [nrUsers_erase hu c', if_neg (Ne.symm ((hmem c').mp hc').1)]
    rfl
  have hrest : ∀ v ∈ s.users.erase u, v.cache ∈ s.slabCaches.erase u.cache := fun v hv => by
    refine (hmem v.cache).mpr ⟨fun he => ?_, h.linked v (List.mem_of_mem_erase hv)⟩
    have hzero := nrUsers_erase hu u.cache
    rw [hone, if_pos rfl, eq_comm, Nat.add_eq_right, List.countP_eq_zero] at hzero
    exact hzero v hv (beq_iff_eq.mpr he)
  refine ⟨h.nodup.erase _, fun c' hg => (hmem c').mpr ⟨fun he => hown (he ▸ hg), h.general c' hg⟩,
    fun c' hc' => ?_, fun c' hc' => ?_, hrest,
    fun v hv => ?_, fun c' hc' => ?_, fun c' hc' hlt => ?_, fun c' hc' hf => ?_, fun c' hc' => ?_,
    fun c' hc' => h.described c' ((hmem c').mp hc').2, fun c' hpos =>
    (hmem c').mpr ⟨fun he => ?_, h.kept c' hpos⟩, ?_⟩
  · rw [hcache c' hc']
    exact h.lockless c' ((hmem c').mp hc').2
  · rw [hcache c' hc']
    exact h.right c' ((hmem c').mp hc').2
  · rw [hcache v.cache (hrest v hv)]
    exact h.served v (List.mem_of_mem_erase hv)
  · rw [hcache c' hc', hcount c' hc']
    exact h.counted c' ((hmem c').mp hc').2
  · rw [hcount c' hc']
    exact h.used c' ((hmem c').mp hc').2 hlt
  · rw [hcache c' hc'] at hf
    rw [hcount c' hc']
    exact h.alone c' ((hmem c').mp hc').2 hf
  · rw [hcache c' hc']
    exact h.slabs c' ((hmem c').mp hc').2
  · exact hpos (he ▸ hheld)
  · have hle : (s.users.erase u).length ≤ s.users.length := List.length_erase_le
    have hfew := h.few
    show (s.users.erase u).length + 2 < 2 ^ 32
    omega

/-- The count of a cache runs down to 0 exactly when its last user goes, except for the cache of the
descriptors, which counts one less and starts from -1. -/
theorem UmemInv.countdown (h : UmemInv s) {u : CacheUser} (hu : u ∈ s.users) :
    0 < s.nrUsers u.cache ∧ s.nrUsers u.cache + 2 < 2 ^ 32 ∧
      ((s.cache u.cache).lockless = true → 2 ≤ (s.cache u.cache).refcount) ∧
      (((s.cache u.cache).refcount + (2 ^ 32 - 1)) % 2 ^ 32 = 0 → (s.cache u.cache).lockless = false ∧
        (¬General u.cache → s.nrUsers u.cache = 1)) ∧
      (¬General u.cache → s.nrUsers u.cache = 1 → ((s.cache u.cache).refcount + (2 ^ 32 - 1)) %
        2 ^ 32 = 0) := by
  have hc := h.linked u hu
  have hpos : 0 < s.nrUsers u.cache := List.countP_pos_iff.mpr ⟨u, hu, beq_self_eq_true u.cache⟩
  have hle := nrUsers_le s u.cache
  have hfew := h.few
  have hcount := h.counted u.cache hc
  have hlock := h.lockless u.cache hc
  have hnone : ¬General u.cache → ownRefs u.cache = 0 := fun hown => by
    rw [ownRefs, if_neg fun he => hown ⟨0, he⟩, if_neg hown]
  have hlockless : (s.cache u.cache).lockless = true → ownRefs u.cache = 1 := fun hl => by
    obtain ⟨hgeneral, hfirst⟩ := hlock.mp hl
    rw [ownRefs, if_neg hfirst, if_pos hgeneral]
  refine ⟨hpos, by omega, fun hl => ?_, fun hzero => ⟨?_, fun hown => ?_⟩, fun hown hone => ?_⟩
  · rw [hlockless hl] at hcount
    omega
  · by_contra hl
    rw [hlockless (Bool.not_eq_false _ ▸ hl)] at hcount
    omega
  · rw [hnone hown] at hcount
    omega
  · rw [hnone hown] at hcount
    omega

/-! ### The allocator of a cache -/

theorem SlabMove.keeps {p : CacheParams} {k k' : SlabState T} {a : SlabAct T} {o : Obj}
    (h : SlabMove p k k' a) (ho : o ∈ k.held)
    (hkeep : freedObj a ≠ some o) : o ∈ k'.held := by
  cases hhand : handedObj p k a with
  | some o' =>
    rw [h.handed o' hhand]
    exact List.mem_cons_of_mem _ ho
  | none =>
    cases hfreed : freedObj a with
    | some o' =>
      have hne : o ≠ o' := fun he => hkeep (he ▸ hfreed)
      rw [(h.freed o' hfreed).2]
      exact (List.mem_erase_of_ne hne).mpr ho
    | none =>
      rw [h.rest hhand hfreed]
      exact ho

theorem UmemInv.setSlab (h : UmemInv s) (hc : c ∈ s.slabCaches) {k : SlabState T}
    (hk : SlabInv (s.cache c).params [] none k)
    (hdesc : c = umallocCaches 0 → ∀ d ∈ s.slabCaches, d ∈ k.held) : UmemInv (s.setSlab c k) := by
  have hself : (s.setSlab c k).slab c = k := setSlab_slab_self k
  have hother : ∀ c', c' ≠ c → (s.setSlab c k).slab c' = s.slab c' :=
    fun c' he => Function.update_of_ne he _ _
  refine { h with slabs := fun c' hc' => ?_, described := fun d hd => ?_, kept := fun c' hheld => ?_ }
  · by_cases he : c' = c
    · subst he
      exact hself.symm ▸ hk
    · exact (hother c' he).symm ▸ h.slabs c' hc'
  · by_cases he : umallocCaches 0 = c
    · subst he
      exact hself.symm ▸ hdesc rfl d hd
    · exact (hother _ he).symm ▸ h.described d hd
  · by_cases he : c' = c
    · exact he ▸ hc
    · exact h.kept c' (hother c' he ▸ hheld)

section Threads
variable [DecidableEq T] {s' : UmemState T} {t : T}

theorem UmemInv.umemSlabStep (h : UmemInv s) (hc : c ∈ s.slabCaches) {a : SlabAct T}
    (hkeep : ∀ o, freedObj a = some o → c = umallocCaches 0 → o ∉ s.slabCaches)
    (hs : umemSlabStep s c a = some s') : UmemInv s' := by
  obtain ⟨k, hk, rfl⟩ := Option.map_eq_some_iff.mp hs
  refine h.setSlab hc (slabStep_inv (h.slabs c hc) hk) fun he d hd => ?_
  have hheld : d ∈ (s.slab c).held := he ▸ h.described d hd
  exact (slabStep_move hk).keeps hheld fun hfreed => hkeep d hfreed he hd

/-- A descriptor that the first cache hands out is not that of a listed cache. -/
theorem UmemInv.cacheAlloc {d : Obj} (h : UmemInv s) (hs : cacheAlloc s t (umallocCaches 0) = some (s', d)) :
    UmemInv s' ∧ s'.users = s.users ∧ d ∉ s'.slabCaches ∧ d ∈ (s'.slab (umallocCaches 0)).held := by
  obtain ⟨s₁, hs₁, hmap⟩ := Option.bind_eq_some_iff.mp hs
  obtain ⟨o, hhand, heq⟩ := Option.map_eq_some_iff.mp hmap
  obtain ⟨rfl, rfl⟩ := Prod.mk.inj heq
  have hc := h.general _ ⟨0, rfl⟩
  have hinv := h.umemSlabStep hc (fun o ho => by cases ho) hs₁
  obtain ⟨k, hk, rfl⟩ := Option.map_eq_some_iff.mp hs₁
  obtain ⟨pl, hpl, rest, hlist⟩ := handedObj_listed hhand
  have hfree := ((h.slabs _ hc).listed pl hpl (o := o) (by rw [hlist]; exact List.mem_cons_self)).2.2
  refine ⟨hinv, rfl, fun hlisted => hfree (h.described o hlisted), ?_⟩
  rw [setSlab_slab_self, (slabStep_move hk).handed o hhand]
  exact List.mem_cons_self

/-! ### Calls -/

/-- The count does not matter to the slabs. -/
theorem params_refcount (p : UmemCache) (n : ℕ) :
    ({ p with refcount := n } : UmemCache).params = p.params := rfl

theorem flushCache_decref (t : T) :
    flushCache (s.decref c) t c = ((flushCache s t c).1.decref c, (flushCache s t c).2) := by
  have hparams : ((s.decref c).cache c).params = (s.cache c).params := by
    rw [UmemState.decref, set_cache_self]
    exact params_refcount _ _
  rw [flushCache, hparams]
  rfl

theorem UmemInv.flushCache (h : UmemInv s) (hc : c ∈ s.slabCaches)
    (hshared : (s.cache c).lockless = false) (t : T) :
    UmemInv (flushCache s t c).1 ∧
      ((flushCache s t c).2 = true → c ≠ umallocCaches 0 ∧
      ((flushCache s t c).1.slab c).held = []) := by
  obtain ⟨hinv, hheld, hempty⟩ := (h.slabs c hc).cacheFlush hshared t
  refine ⟨h.setSlab hc hinv fun he d hd => ?_, fun hyes => ⟨fun he => ?_, ?_⟩⟩
  · rw [hheld, he]
    exact h.described d hd
  · have hself := h.described c hc
    rw [← he, hempty hyes] at hself
    exact absurd hself List.not_mem_nil
  · rw [Mm.flushCache, setSlab_slab_self]
    exact hheld.trans (hempty hyes)

/-- The descriptor of a cache that is not listed any more is freed. -/
theorem UmemInv.freeDesc {users : List CacheUser} (h : UmemInv (s.withUsers users))
    (hheld : c ∈ (s.slab (umallocCaches 0)).held)
    (hc : c ∉ s.slabCaches) : ∃ s', cacheFree s (umallocCaches 0) c = some s' ∧
      UmemInv (s'.withUsers users) := by
  obtain ⟨k, hk⟩ : ∃ k, slabStep (s.cache (umallocCaches 0)).params (s.slab (umallocCaches 0))
      (.directFree c (discardReads (s.slab (umallocCaches 0)))) = some k := ⟨_, if_pos hheld⟩
  have hfree : cacheFree s (umallocCaches 0) c = some (s.setSlab (umallocCaches 0) k) := by
    rw [cacheFree, Mm.umemSlabStep, hk]
    rfl
  refine ⟨_, hfree, ?_⟩
  have hstep : Mm.umemSlabStep (s.withUsers users) (umallocCaches 0)
      (.directFree c (discardReads (s.slab (umallocCaches 0)))) =
      some ((s.setSlab (umallocCaches 0) k).withUsers users) := by
    show Option.map _ (slabStep (s.cache (umallocCaches 0)).params _ _) = _
    exact congrArg (Option.map _) hk
  refine h.umemSlabStep (h.general _ ⟨0, rfl⟩) (fun o ho _ hin => ?_) hstep
  obtain rfl : c = o := Option.some.inj ho
  exact hc hin

theorem UmemInv.destroyLast (h : UmemInv s) {u : CacheUser} (hu : u ∈ s.users)
    (hshared : (s.cache u.cache).lockless = false)
    (hone : ¬General u.cache → s.nrUsers u.cache = 1) (t : T) :
    ∃ r, (match Mm.flushCache (s.decref u.cache) t u.cache with
      | (s, true) => (cacheFree (s.unlink u.cache) (umallocCaches 0) u.cache).map fun s => (s, true)
      | (s, false) => some (s.incref u.cache, false)) = some r ∧ UmemInv (match r with
      | (s, true) => s.withUsers (s.users.erase u)
      | (s, false) => s) := by
  have hc := h.linked u hu
  obtain ⟨hkept, hgone⟩ := h.flushCache hc hshared t
  rw [flushCache_decref]
  cases hflushed : (Mm.flushCache s t u.cache).2 with
  | true =>
    obtain ⟨hfirst, hheld⟩ := hgone hflushed
    have hown : ¬General u.cache := fun hg => by
      have hyes := (h.lockless u.cache hc).mpr ⟨hg, hfirst⟩
      rw [hshared] at hyes
      cases hyes
    have hremoved := hkept.remove hu hown (hone hown) hheld fun p =>
      { p with refcount := (p.refcount + (2 ^ 32 - 1)) % 2 ^ 32 }
    have hlisted : u.cache ∉ s.slabCaches.erase u.cache := fun hin => (h.nodup.mem_erase_iff.mp hin).1 rfl
    obtain ⟨s', hs', hinv⟩ := hremoved.freeDesc (hkept.described u.cache hc) hlisted
    have husers : s'.users = (Mm.flushCache s t u.cache).1.users := by
      obtain ⟨k, -, rfl⟩ := Option.map_eq_some_iff.mp hs'
      rfl
    refine ⟨(s', true), congrArg (Option.map _) hs', ?_⟩
    rw [← husers] at hinv
    exact hinv
  | false =>
    refine ⟨_, rfl, ?_⟩
    have hback : (((Mm.flushCache s t u.cache).1.decref u.cache).incref u.cache) =
        ((Mm.flushCache s t u.cache).1.set u.cache fun p =>
        { p with refcount := ((p.refcount + (2 ^ 32 - 1)) % 2 ^ 32 + 1) % 2 ^ 32 }).withUsers s.users := by
      simp [UmemState.decref, UmemState.incref, UmemState.set, UmemState.withUsers, Mm.flushCache,
        UmemState.setSlab]
    have hright := h.right u.cache hc
    have hcount := h.counted u.cache hc
    show UmemInv (((Mm.flushCache s t u.cache).1.decref u.cache).incref u.cache)
    rw [hback]
    refine hkept.update hc (params_refcount _ _) rfl rfl (le_refl _) ⟨hright.objects_pos,
      hright.fits, hright.cleared, hright.inside⟩ (fun v hv => .inl hv) ?_
      (fun _ _ => rfl) (h.used u.cache hc) (h.alone u.cache hc) h.few
    show (((s.cache u.cache).refcount + (2 ^ 32 - 1)) % 2 ^ 32 + 1) % 2 ^ 32 =
        (ownRefs u.cache + s.nrUsers u.cache) % 2 ^ 32
    omega

theorem UmemInv.destroy (h : UmemInv s) {u : CacheUser} (hu : u ∈ s.users) (t : T) :
    ∃ s', umemStep s (.destroy t u) = some s' ∧ UmemInv s' := by
  obtain ⟨hpos, hlt, htwo, hzero, hlast⟩ := h.countdown hu
  have hc := h.linked u hu
  have hcount := h.counted u.cache hc
  have hright := h.right u.cache hc
  have hbug : ¬((s.cache u.cache).lockless = true ∧ (s.cache u.cache).refcount < 2) :=
    fun hb => absurd (htwo hb.1) (by omega)
  have hself : (s.decref u.cache).cache u.cache =
      { s.cache u.cache with refcount := ((s.cache u.cache).refcount + (2 ^ 32 - 1)) % 2 ^ 32 } :=
        set_cache_self _
  rw [umemStep, umemCacheDestroy, if_neg hbug]
  simp only [hself]
  split_ifs with hdown hlock
  · exact absurd hlock (by simp [(hzero hdown).1])
  · obtain ⟨r, hr, hinv⟩ := h.destroyLast hu (hzero hdown).1 (hzero hdown).2 t
    exact ⟨_, congrArg (Option.map _) hr, hinv⟩
  · have herase := nrUsers_erase hu
    have hfewer : (s.users.erase u).length + 2 < 2 ^ 32 := by
      have hle : (s.users.erase u).length ≤ s.users.length := List.length_erase_le
      have hfew := h.few
      omega
    refine ⟨(s.decref u.cache).withUsers (s.users.erase u), rfl, ?_⟩
    have hown := herase u.cache
    rw [if_pos rfl] at hown
    refine h.update hc (params_refcount _ _) rfl rfl (le_refl _) ⟨hright.objects_pos, hright.fits,
      hright.cleared, hright.inside⟩
      (fun v hv => .inl (List.mem_of_mem_erase hv)) ?_ (fun c' hne => ?_) (fun hnot => ?_)
        (fun hun => ?_) hfewer
    · show ((s.cache u.cache).refcount + (2 ^ 32 - 1)) % 2 ^ 32 =
        (ownRefs u.cache + (s.users.erase u).countP fun v => v.cache == u.cache) % 2 ^ 32
      omega
    · rw [herase c', if_neg (Ne.symm hne), Nat.add_zero]
    · have hmore : s.nrUsers u.cache ≠ 1 := fun hone => hdown (hlast hnot hone)
      omega
    · have halone := h.alone u.cache hc hun
      omega

theorem UmemInv.create (h : UmemInv s) (hreq : Request size align flags.hwcacheAlign)
    (hfew : s.users.length + 3 < 2 ^ 32) (t : T) :
    ∃ s', umemStep s (.create t size align flags) = some s' ∧ UmemInv s' := by
  have hlt : ¬(vpageSize * 2 ^ (maxOrder - 1) ≤ size ∨ vpageSize * 2 ^ (maxOrder - 1) ≤ align) := by
    have hsize := hreq.size_lt
    have halign := hreq.align_lt
    omega
  rw [umemStep, umemCacheCreate, if_neg hlt]
  cases hfind : findMergeable s size align flags.hwcacheAlign with
  | some c => exact ⟨_, rfl, h.merge hreq hfew hfind⟩
  | none =>
    cases hgiven : Mm.cacheAlloc s t (umallocCaches 0) with
    | none => exact ⟨s, rfl, h⟩
    | some given =>
      obtain ⟨s₁, d⟩ := given
      obtain ⟨hinv, husers, hnew, hdesc⟩ := h.cacheAlloc hgiven
      obtain ⟨r, hr, hspec⟩ := createCache_spec hreq
      simp only [hr, Option.map_some]
      cases r with
      | none => exact ⟨s₁, rfl, hinv⟩
      | some p =>
        obtain ⟨hlock, hcount, hright, hserve⟩ := hspec p rfl
        obtain ⟨henough, hown, haligned⟩ := hserve d
        exact ⟨_, rfl,
          hinv.add (p := { p with objpoolCap := prepareObjpool slabMinObjects p.objects })
          (husers.symm ▸ hfew) hnew hdesc hlock hcount ⟨hright.objects_pos, hright.fits,
          hright.cleared, hright.inside⟩ rfl
          ⟨henough, hown, haligned⟩⟩

theorem UmemInv.step (h : UmemInv s) {a : UmemAct T} (hlegal : UmemLegal s a) :
    ∃ s', umemStep s a = some s' ∧ UmemInv s' := by
  cases a with
  | create t size align flags => exact h.create hlegal.1 hlegal.2 t
  | destroy t u => exact h.destroy hlegal t
  | slab c a =>
    obtain ⟨hc, hgoes, hkeep⟩ := hlegal
    obtain ⟨s', hs'⟩ := Option.isSome_iff_exists.mp hgoes
    exact ⟨s', hs', h.umemSlabStep hc hkeep hs'⟩

theorem UmemInv.ok (h : UmemInv s) : UmemOk s where
  served := fun u hu => ⟨h.linked u hu, h.served u hu, h.right u.cache (h.linked u hu)⟩
  kept := h.kept
  alone := h.alone
  used := fun c => by
    constructor
    · intro hc
      by_cases hown : General c
      · exact .inl hown
      · exact .inr (h.used c hc hown)
    · rintro (hown | hpos)
      · exact h.general c hown
      · obtain ⟨u, hu, he⟩ := List.countP_pos_iff.mp hpos
        exact beq_iff_eq.mp he ▸ h.linked u hu
  goes := fun a hlegal => by
    obtain ⟨s', hs', -⟩ := h.step hlegal
    rw [hs']
    rfl

/-! ## The start -/

theorem runActs_allocs {p : CacheParams} {k : SlabState T} {l more : List Obj} (hmore : more ≠ [])
    (hlist : allocList p k t = l ++ more) :
    ∃ k', runActs (slabStep p) k (List.replicate l.length (.alloc t)) = some k' ∧
      k'.held = l.reverse ++ k.held := by
  induction l generalizing k with
  | nil => exact ⟨k, rfl, rfl⟩
  | cons o rest ih =>
    obtain ⟨k₁, hk₁, hnext⟩ := slabStep_alloc_cons hlist
    have hheld : k₁.held = o :: k.held := (slabStep_move hk₁).handed o (by rw [handedObj_alloc, hlist]; rfl)
    obtain ⟨k', hrun, hheld'⟩ := ih (hnext (by simp [hmore]))
    refine ⟨k', runActs_cons_eq_some.mpr ⟨k₁, hk₁, hrun⟩, ?_⟩
    rw [hheld', hheld, List.reverse_cons, List.append_assoc, List.singleton_append]

theorem descActs_run (t : T) : ∃ k, runActs (slabStep (umallocDesc 0).params) slabInit (descActs t) = some k ∧
    SlabInv (umallocDesc 0).params [] none k ∧ ∀ i, umallocCaches i ∈ k.held := by
  obtain ⟨k₁, -, hload, hlist, -⟩ := slabStep_first (umallocDesc 0).params t 0
  have hroom : umallocShiftHigh + 1 < (umallocDesc 0).params.objects := by decide
  have hlen : ((pageObjs (umallocDesc 0).params 0).take (umallocShiftHigh + 1)).length =
      umallocShiftHigh + 1 := by
    simp only [pageObjs, List.length_take, List.length_map, List.length_range]
    omega
  have hmore : (pageObjs (umallocDesc 0).params 0).drop (umallocShiftHigh + 1) ≠ [] := by
    refine List.ne_nil_of_length_pos ?_
    simp only [pageObjs, List.length_drop, List.length_map, List.length_range]
    omega
  obtain ⟨k, hrun, hheld⟩ :=
    runActs_allocs hmore (hlist.trans (List.take_append_drop (umallocShiftHigh + 1) _).symm)
  rw [hlen] at hrun
  have hwhole : runActs (slabStep (umallocDesc 0).params) slabInit (descActs t) = some k :=
    runActs_cons_eq_some.mpr ⟨k₁, hload, hrun⟩
  refine ⟨k, hwhole, ?_, fun i => ?_⟩
  · exact run_invariant (fun _ _ _ h _ hs => slabStep_inv h hs) _ slabInit k (slabInv_init _)
      (runMeets_trivial _ _) hwhole
  · rw [hheld]
    refine List.mem_append_left _ (List.mem_reverse.mpr (List.mem_take_iff_getElem.mpr ⟨i.val, ?_, ?_⟩))
    · have hi := i.isLt
      simp only [pageObjs, List.length_map, List.length_range]
      omega
    · simp [pageObjs, umallocCaches]

theorem umemInit_cache (t : T) (i : CacheIndex) : (umemInit t).cache (umallocCaches i) = umallocDesc i := by
  simp [umemInit, umallocCaches]

theorem umemInv_init (t : T) : UmemInv (umemInit t) := by
  obtain ⟨k, hrun, hinv, hdesc⟩ := descActs_run t
  have hmem : ∀ c, c ∈ (umemInit t).slabCaches ↔ General c := fun c => by
    simp [umemInit, General, eq_comm]
  have hinj : ∀ i j, umallocCaches i = umallocCaches j → i = j :=
    fun i j he => Fin.val_injective (Prod.ext_iff.mp he).2
  have hfirst : (umemInit t).slab (umallocCaches 0) = k := by
    simp only [umemInit, if_true, hrun, Option.getD_some]
  have hother : ∀ c, c ≠ umallocCaches 0 → (umemInit t).slab c = slabInit := fun c he => if_neg he
  refine ⟨?_, fun c hg => (hmem c).mpr hg, fun c hc => ?_, fun c hc => ?_,
    fun u hu => absurd hu List.not_mem_nil,
    fun u hu => absurd hu List.not_mem_nil, fun c hc => ?_, fun c hc hown =>
    absurd ((hmem c).mp hc) hown, fun c hc h => ?_, fun c hc => ?_,
    fun c hc => ?_, fun c hheld => ?_, show ([] : List CacheUser).length + 2 < 2 ^ 32 by decide⟩
  · exact List.nodup_reverse.mpr ((List.nodup_finRange _).map hinj)
  · obtain ⟨i, rfl⟩ := (hmem c).mp hc
    rw [umemInit_cache]
    refine ⟨fun hl => ⟨⟨i, rfl⟩, fun he => of_decide_eq_true hl (hinj i 0 he)⟩,
      fun hl => decide_eq_true fun hi => hl.2 (hi ▸ rfl)⟩
  · obtain ⟨i, rfl⟩ := (hmem c).mp hc
    obtain ⟨-, -, hpos, hfits⟩ := classOf_ok i
    have hsizes : ∀ i : CacheIndex, umallocObjsize i ≤ (classOf i).inuse ∧
        (classOf i).inuse ≤ (classOf i).size := by
      decide
    rw [umemInit_cache]
    exact ⟨hpos, hfits, (hsizes i).1, (hsizes i).2⟩
  · obtain ⟨i, rfl⟩ := (hmem c).mp hc
    have hcount : (umemInit t).nrUsers (umallocCaches i) = 0 := rfl
    rw [umemInit_cache, hcount, ownRefs]
    by_cases hi : i = 0
    · subst hi
      rfl
    · rw [if_neg fun he => hi (hinj i 0 he), if_pos ⟨i, rfl⟩]
      exact if_neg hi
  · exact Nat.zero_le 1
  · by_cases he : c = umallocCaches 0
    · subst he
      rw [hfirst, umemInit_cache]
      exact hinv
    · rw [hother c he]
      exact slabInv_init _
  · obtain ⟨i, rfl⟩ := (hmem c).mp hc
    rw [hfirst]
    exact hdesc i
  · by_cases he : c = umallocCaches 0
    · exact (hmem c).mpr ⟨0, he⟩
    · rw [hother c he] at hheld
      exact absurd rfl hheld

/-! ## Runs -/

/-- In every sequence of calls by users who keep to the rules. -/
theorem cache_users_ok (t : T) (as : List (UmemAct T)) (s : UmemState T)
    (hlegal : RunMeets umemStep UmemLegal (umemInit t) as)
    (hrun : runActs umemStep (umemInit t) as = some s) : UmemOk s :=
  (run_invariant (fun s a s' h hl hs => by
    obtain ⟨s₁, hs₁, hinv⟩ := UmemInv.step h hl
    exact Option.some.inj (hs₁.symm.trans hs) ▸ hinv) as (umemInit t) s (umemInv_init t) hlegal hrun).ok

end Threads

/-- A megabyte and a half aligned to 64, asked for twice, and 61 bytes, which the general cache for
64 has. The last user but one to go leaves an object behind, so that it goes at the second attempt.
-/
def threeRequests : List (UmemAct Bool) :=
  [.create true 1572864 64 ⟨false, false, false⟩, .create false 1572864 64 ⟨false, false, false⟩,
    .create true 61 0 ⟨true, false, false⟩,
    .slab (0, 22) (.loadNew true 5), .slab (0, 22) (.alloc true),
    .destroy false ⟨(0, 22), 1572864, 64, false⟩,
    .destroy false ⟨(0, 22), 1572864, 64, false⟩, .slab (0, 22) (.directFree (5, 0) ⟨false, 1⟩),
    .destroy false ⟨(0, 22), 1572864, 64, false⟩]

theorem cache_users_ok_witness : ∃ s, runActs umemStep (umemInit false) threeRequests = some s ∧
      (0, 22) ∉ s.slabCaches ∧
    s.nrUsers (umallocCaches 6) = 1 ∧ UmemOk s := by
  have hrun : (runActs umemStep (umemInit false) threeRequests).map
      (fun s => (decide ((0, 22) ∈ s.slabCaches), s.nrUsers (umallocCaches 6))) =
      some (false, 1) := by
    decide +kernel
  obtain ⟨s, hs, hend⟩ := Option.map_eq_some_iff.mp hrun
  obtain ⟨hgone, hshared⟩ := Prod.mk.inj hend
  exact ⟨s, hs, of_decide_eq_false hgone, hshared,
    cache_users_ok false threeRequests s (runMeets_of_checks (by decide +kernel)) hs⟩

end Skp.Mm
