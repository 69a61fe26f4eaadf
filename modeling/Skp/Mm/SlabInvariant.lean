import Skp.Mm.SlabModel
import Skp.Foundations.Placement

/-! # The invariant of a slab cache

Every object of a live page is in one place. A step takes objects and a page out of where they are and puts
them somewhere else; in between, the objects are in limbo and the page is afloat (unfrozen, not loaded, on no
list), so the invariant has both as parameters and the operations are composed of moves that keep it. -/
namespace Skp.Mm
set_option autoImplicit false
open Skp.Foundations

variable {T : Type}

/-! ## Objects in places -/

inductive Place (T : Type) where
  | user
  | free (page : ℕ)
  | lockless (page : ℕ)
  | tls (t : T)
  | pool
  | chain (t : T)
  | chainFree (t : T)
  | limbo

def objsAt (s : SlabState T) (limbo : List Obj) : Place T → List Obj
  | .user => s.held
  | .free p => s.freelist p
  | .lockless p => s.locklessFreelist p
  | .tls t => (s.tlsFree t).objs
  | .pool => s.pool
  | .chain t => s.chain t
  | .chainFree t => (s.chainFree t).objs
  | .limbo => limbo

/-- The objects of the live pages. -/
def slabObjs (c : CacheParams) (live : Finset ℕ) : Set Obj := {o | o.1 ∈ live ∧ o.2 < c.objects}

/-- A page has room for `objects` different objects, and when all are there, they are all there are. -/
theorem page_objs_le {p n : ℕ} {l : List Obj} (hn : l.Nodup) (hl : ∀ o, o ∈ l → o.1 = p ∧ o.2 < n) :
    l.length ≤ n := by
  have hsub : l.toFinset ⊆ (Finset.range n).image fun i => (p, i) := by
    intro o ho
    obtain ⟨h1, h2⟩ := hl o (List.mem_toFinset.mp ho)
    exact Finset.mem_image.mpr ⟨o.2, Finset.mem_range.mpr h2, by rw [← h1]⟩
  calc l.length = l.toFinset.card := (List.toFinset_card_of_nodup hn).symm
    _ ≤ ((Finset.range n).image fun i => (p, i)).card := Finset.card_le_card hsub
    _ ≤ (Finset.range n).card := Finset.card_image_le
    _ = n := Finset.card_range n

theorem page_objs_all {p n : ℕ} {l : List Obj} (hn : l.Nodup) (hl : ∀ o, o ∈ l → o.1 = p ∧ o.2 < n)
    (hlen : l.length = n) (o : Obj) : o ∈ l ↔ o.1 = p ∧ o.2 < n := by
  refine ⟨hl o, fun ho => ?_⟩
  by_contra hnot
  have hle := page_objs_le (List.nodup_cons.mpr ⟨hnot, hn⟩) (p := p) (n := n) fun x hx => by
    cases List.mem_cons.mp hx with
    | inl heq => exact heq ▸ ho
    | inr hx => exact hl x hx
  rw [List.length_cons, hlen] at hle
  omega

/-! ## Pages -/

/-- The part of the state the pages' invariant speaks about. -/
structure SlabPages (T : Type) where
  live : Finset ℕ
  inuse : ℕ → ℕ
  freelist : ℕ → List Obj
  locklessFreelist : ℕ → List Obj
  frozen : ℕ → Bool
  partials : List ℕ
  nrPartial : ℕ
  full : List ℕ
  tlsPage : T → Option ℕ
  slabPage : Option ℕ

def SlabState.pages (s : SlabState T) : SlabPages T where
  live := s.live
  inuse := s.inuse
  freelist := s.freelist
  locklessFreelist := s.locklessFreelist
  frozen := s.frozen
  partials := s.partials
  nrPartial := s.nrPartial
  full := s.full
  tlsPage := s.tlsPage
  slabPage := s.slabPage

def Loaded (v : SlabPages T) (p : ℕ) : Prop := (∃ t, v.tlsPage t = some p) ∨ v.slabPage = some p

/-- A page where it belongs. -/
structure PageOk (c : CacheParams) (v : SlabPages T) (p : ℕ) : Prop where
  inuse : p ∈ v.live → v.inuse p + (v.freelist p).length = c.objects
  unfrozen : p ∈ v.live → v.frozen p = false → v.locklessFreelist p = []
  partials : p ∈ v.partials ↔ p ∈ v.live ∧ v.frozen p = false ∧ v.freelist p ≠ []
  full : p ∈ v.full ↔ p ∈ v.live ∧ v.frozen p = false ∧ v.freelist p = []
  loaded : p ∈ v.live ∧ v.frozen p = true ↔ Loaded v p

/-- A page a step has in its hands. -/
structure Afloat (c : CacheParams) (v : SlabPages T) (p : ℕ) : Prop where
  live : p ∈ v.live
  inuse : v.inuse p + (v.freelist p).length = c.objects
  frozen : v.frozen p = false
  lockless : v.locklessFreelist p = []
  partials : p ∉ v.partials
  full : p ∉ v.full
  loaded : ¬ Loaded v p

/-- A cache with thread pages has no shared one and the other way round; no two threads have the same page. -/
structure LoadsOk (c : CacheParams) (v : SlabPages T) : Prop where
  once : ∀ t t' p, v.tlsPage t = some p → v.tlsPage t' = some p → t = t'
  shared : c.lockless = true → v.slabPage = none
  threads : c.lockless = false → ∀ t, v.tlsPage t = none

structure PagesOk (c : CacheParams) (float : Option ℕ) (v : SlabPages T) : Prop where
  each : ∀ p, float ≠ some p → PageOk c v p
  float : ∀ p, float = some p → Afloat c v p
  partialsNodup : v.partials.Nodup
  fullNodup : v.full.Nodup
  nrPartial : v.nrPartial = v.partials.length
  loads : LoadsOk c v

/-- Two views that say the same about a page. -/
structure SamePage (v w : SlabPages T) (p : ℕ) : Prop where
  live : p ∈ w.live ↔ p ∈ v.live
  inuse : w.inuse p = v.inuse p
  freelist : w.freelist p = v.freelist p
  lockless : w.locklessFreelist p = v.locklessFreelist p
  frozen : w.frozen p = v.frozen p
  partials : p ∈ w.partials ↔ p ∈ v.partials
  full : p ∈ w.full ↔ p ∈ v.full
  loaded : Loaded w p ↔ Loaded v p

theorem PageOk.congr {c : CacheParams} {v w : SlabPages T} {p : ℕ} (h : PageOk c v p) (hs : SamePage v w p) :
    PageOk c w p where
  inuse := by
    rw [hs.live, hs.inuse, hs.freelist]
    exact h.inuse
  unfrozen := by
    rw [hs.live, hs.frozen, hs.lockless]
    exact h.unfrozen
  partials := by
    rw [hs.partials, hs.live, hs.frozen, hs.freelist]
    exact h.partials
  full := by
    rw [hs.full, hs.live, hs.frozen, hs.freelist]
    exact h.full
  loaded := by
    rw [hs.live, hs.frozen, hs.loaded]
    exact h.loaded

/-! ## The history -/

/-- The last the user saw of an object is that it was handed out. -/
def Out : List SlabEvent → Obj → Prop
  | [], _ => False
  | .alloc o' :: rest, o => o = o' ∨ Out rest o
  | .free o' :: rest, o => o ≠ o' ∧ Out rest o

/-- No object is handed out while it is out, and none is taken back that is not. -/
def Alternates : List SlabEvent → Prop
  | [] => True
  | .alloc o :: rest => ¬ Out rest o ∧ Alternates rest
  | .free o :: rest => Out rest o ∧ Alternates rest

/-! ## The invariant -/

structure TlsOk (fl : TlsFreelist) : Prop where
  nr : fl.nr = fl.objs.length
  home : ∀ o, o ∈ fl.objs → fl.page = some o.1

theorem tlsOk_empty : TlsOk TlsFreelist.empty := ⟨rfl, fun _ ho => absurd ho List.not_mem_nil⟩

structure SlabInv (c : CacheParams) (limbo : List Obj) (float : Option ℕ) (s : SlabState T) : Prop where
  placed : Placed (objsAt s limbo) (slabObjs c s.live)
  homeFree : ∀ p o, o ∈ s.freelist p → o.1 = p
  homeLockless : ∀ p o, o ∈ s.locklessFreelist p → o.1 = p
  tlsOk : ∀ t, TlsOk (s.tlsFree t)
  chainOk : ∀ t, TlsOk (s.chainFree t)
  pages : PagesOk c float s.pages
  held : ∀ o, o ∈ s.held ↔ Out s.log o
  alternates : Alternates s.log
  discards : ∀ d, d ∈ s.discards → d.2.Nodup ∧ ∀ o, o ∈ d.2 ↔ o.1 = d.1 ∧ o.2 < c.objects

theorem slabInv_init (c : CacheParams) : SlabInv c [] none (slabInit : SlabState T) where
  placed :=
    { nodup := fun pl => by cases pl <;> exact List.nodup_nil
      disjoint := fun pl pl' o ho => by cases pl <;> exact absurd ho List.not_mem_nil
      cover := fun o => by
        constructor
        · intro ho
          exact absurd ho.1 (Finset.notMem_empty _)
        · intro ho
          obtain ⟨pl, hpl⟩ := ho
          cases pl <;> exact absurd hpl List.not_mem_nil }
  homeFree := fun _ _ ho => absurd ho List.not_mem_nil
  homeLockless := fun _ _ ho => absurd ho List.not_mem_nil
  tlsOk := fun _ => tlsOk_empty
  chainOk := fun _ => tlsOk_empty
  pages :=
    { each := fun p _ =>
        { inuse := fun hp => absurd hp (Finset.notMem_empty p)
          unfrozen := fun _ _ => rfl
          partials := ⟨fun hp => absurd hp List.not_mem_nil, fun hp => absurd hp.1 (Finset.notMem_empty p)⟩
          full := ⟨fun hp => absurd hp List.not_mem_nil, fun hp => absurd hp.1 (Finset.notMem_empty p)⟩
          loaded := by
            constructor
            · intro hp
              exact absurd hp.1 (Finset.notMem_empty p)
            · intro hp
              cases hp with
              | inl ht => exact absurd ht.choose_spec.symm (Option.some_ne_none p)
              | inr hs => exact absurd hs.symm (Option.some_ne_none p) }
      float := fun p hp => absurd hp.symm (Option.some_ne_none p)
      partialsNodup := List.nodup_nil
      fullNodup := List.nodup_nil
      nrPartial := rfl
      loads := ⟨fun _ _ p hp => absurd hp.symm (Option.some_ne_none p), fun _ => rfl, fun _ _ => rfl⟩ }
  held := fun o => ⟨fun ho => absurd ho List.not_mem_nil, fun ho => ho.elim⟩
  alternates := trivial
  discards := fun _ hd => absurd hd List.not_mem_nil

section Inv
variable {c : CacheParams} {limbo : List Obj} {float : Option ℕ} {s : SlabState T}

theorem SlabInv.live_of_mem (h : SlabInv c limbo float s) (pl : Place T) {o : Obj}
    (ho : o ∈ objsAt s limbo pl) :
    o.1 ∈ s.live ∧ o.2 < c.objects := h.placed.mem ho

theorem SlabInv.free_objs (h : SlabInv c limbo float s) (p : ℕ) :
    (s.freelist p).Nodup ∧ ∀ o, o ∈ s.freelist p → o.1 = p ∧ o.2 < c.objects :=
  ⟨h.placed.nodup (.free p), fun o ho => ⟨h.homeFree p o ho, (h.live_of_mem (.free p) ho).2⟩⟩

/-- Nothing is on a page that is not live. -/
theorem SlabInv.dead_empty (h : SlabInv c limbo float s) {p : ℕ} (hp : p ∉ s.live) :
    s.freelist p = [] ∧ s.locklessFreelist p = [] := by
  constructor
  · apply List.eq_nil_iff_forall_not_mem.mpr
    intro o ho
    exact hp (h.homeFree p o ho ▸ (h.live_of_mem (.free p) ho).1)
  · apply List.eq_nil_iff_forall_not_mem.mpr
    intro o ho
    exact hp (h.homeLockless p o ho ▸ (h.live_of_mem (.lockless p) ho).1)

end Inv

end Skp.Mm
