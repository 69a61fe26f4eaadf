import Skp.Mm.SlabHands

/-! # Flushing a cache

With `cache_flush` of `src/mm/slab.c` the destruction of a cache finds out whether objects of it are
in use: it empties the object pool, unloads the page and gives back the pages without objects.
`need_discard` reads what the state has, as nobody else uses the cache meanwhile. -/
namespace Skp.Mm
set_option autoImplicit false
open Skp.Foundations

variable {T : Type}

def discardReads (s : SlabState T) : DiscardReads := ⟨false, s.nrPartial⟩

/-- The loop of `objpool_flush` over the objects taken out of the pool. -/
def flushChain (c : CacheParams) : SlabState T → TlsFreelist → List Obj → SlabState T
  | s, fl, [] => flushFreelist c s fl (discardReads s)
  | s, fl, o :: rest =>
      flushChain c (tlsCache c s fl o (discardReads s)).1
        (tlsCache c s fl o (discardReads s)).2 rest

def objpoolFlush (c : CacheParams) (s : SlabState T) : SlabState T :=
  if c.lockless || s.pool.isEmpty then s else flushChain c { s with pool := [] } TlsFreelist.empty s.pool

def getSlabPage (s : SlabState T) : Option ℕ := s.slabPage.filter s.frozen

/-- The loop of `free_partials`, with the number of the pages it leaves. -/
def freePartials : SlabState T → List ℕ → SlabState T × ℕ
  | s, [] => (s, 0)
  | s, page :: rest =>
      if s.inuse page = 0 then freePartials (discardSlab (removePartial s page) page) rest
      else ((freePartials s rest).1, (freePartials s rest).2 + 1)

variable [DecidableEq T]

/-- The loop of `cache_flush`: a page that is deactivated is not loaded again, so it makes one round. -/
def unloadSlabPage (c : CacheParams) (s : SlabState T) (t : T) : SlabState T :=
  match getSlabPage s with
  | none => s
  | some page => deactivateSlab c s t page (discardReads s)

/-- `nr_slab` is the number of live pages. -/
def cacheFlush (c : CacheParams) (s : SlabState T) (t : T) : SlabState T × Bool :=
  let s := unloadSlabPage c (objpoolFlush c s) t
  let k := freePartials s s.partials
  (k.1, decide (k.2 = 0 ∧ k.1.live.card = 0))

variable {c : CacheParams} {s : SlabState T}

/-! ## The pool -/

section
omit [DecidableEq T]

theorem flushChain_held (fl : TlsFreelist) (objs : List Obj) : (flushChain c s fl objs).held = s.held := by
  induction objs generalizing s fl with
  | nil => exact (flushFreelist_frame c s fl _).1
  | cons o rest ih => exact (ih _).trans (tlsCache_frame c s fl o _).1

theorem objpoolFlush_held : (objpoolFlush c s).held = s.held := by
  rw [objpoolFlush]
  split_ifs
  · rfl
  · exact flushChain_held _ _

/-- The objects that are still to be freed, on the own list or not yet on it, are in limbo. -/
theorem SlabInv.flushChain {fl : TlsFreelist} {objs : List Obj}
    (h : SlabInv c (fl.objs ++ objs) none s) (hfl : TlsOk fl) :
    SlabInv c [] none (flushChain c s fl objs) := by
  induction objs generalizing s fl with
  | nil => exact h.flushFreelist hfl _
  | cons o rest ih =>
    obtain ⟨hcached, hok⟩ := h.tlsCache hfl (discardReads s)
    exact ih hcached hok

theorem SlabInv.empty_pool {l : List Obj} (h : SlabInv c l none s) :
    SlabInv c (s.pool ++ l) none { s with pool := [] } := by
  refine h.rehouse rfl rfl ?_ h.tlsOk h.chainOk h.held h.alternates
  apply h.placed.move Place.pool Place.limbo s.pool (by simp)
  · simp [objsAt]
  · exact List.Perm.refl _
  · intro pl hsrc hdst
    cases pl <;> first | rfl | exact absurd rfl hsrc | exact absurd rfl hdst

theorem SlabInv.objpoolFlush (h : SlabInv c [] none s) : SlabInv c [] none (objpoolFlush c s) := by
  rw [Mm.objpoolFlush]
  split_ifs
  · exact h
  · have hlimbo := h.empty_pool
    rw [List.append_nil] at hlimbo
    exact hlimbo.flushChain tlsOk_empty

end

/-! ## The partial list -/

omit [DecidableEq T] in
theorem SlabInv.freePartials {pages : List ℕ} (h : SlabInv c [] none s) (hnodup : pages.Nodup)
    (hsub : pages ⊆ s.partials) :
    SlabInv c [] none (freePartials s pages).1 ∧ (freePartials s pages).1.held = s.held := by
  induction pages generalizing s with
  | nil => exact ⟨h, rfl⟩
  | cons page rest ih =>
    obtain ⟨hnot, hrest⟩ := List.nodup_cons.mp hnodup
    rw [Mm.freePartials]
    split_ifs with hzero
    · have hgone := (h.unlist_partials (hsub List.mem_cons_self)).discard hzero
      refine ih hgone hrest fun q hq => ?_
      have hne : q ≠ page := fun heq => hnot (heq ▸ hq)
      exact (List.mem_erase_of_ne hne).mpr (hsub (List.mem_cons_of_mem _ hq))
    · exact ih h hrest fun q hq => hsub (List.mem_cons_of_mem _ hq)

theorem SlabInv.unloadSlabPage (h : SlabInv c [] none s) (hshared : c.lockless = false) (t : T) :
    SlabInv c [] none (unloadSlabPage c s t) ∧ (unloadSlabPage c s t).held = s.held := by
  rw [Mm.unloadSlabPage]
  cases hpage : getSlabPage s with
  | none => exact ⟨h, rfl⟩
  | some page =>
    have hload : loadedPage c s t = some page := by
      rw [loadedPage, hshared]
      exact (Option.filter_eq_some_iff.mp hpage).1
    exact ⟨h.deactivateSlab hload _, (deactivateSlab_frame c s t page _).1⟩

/-- A flush hands nothing out and takes nothing back, and it succeeds only when no object is with a user. -/
theorem SlabInv.cacheFlush (h : SlabInv c [] none s) (hshared : c.lockless = false) (t : T) :
    SlabInv c [] none (cacheFlush c s t).1 ∧ (cacheFlush c s t).1.held = s.held ∧
      ((cacheFlush c s t).2 = true → s.held = []) := by
  obtain ⟨hinv, hheld⟩ := h.objpoolFlush.unloadSlabPage hshared t
  have hpages : (Mm.unloadSlabPage c (Mm.objpoolFlush c s) t).partials.Nodup := hinv.pages.partialsNodup
  obtain ⟨hfreed, hsame⟩ := hinv.freePartials hpages (List.Subset.refl _)
  rw [objpoolFlush_held] at hheld
  refine ⟨hfreed, hsame.trans hheld, fun hyes => ?_⟩
  have hlive := Finset.card_eq_zero.mp (of_decide_eq_true hyes).2
  rw [← hheld, ← hsame]
  refine List.eq_nil_iff_forall_not_mem.mpr fun o ho => ?_
  have hmem := (hfreed.live_of_mem .user ho).1
  rw [hlive] at hmem
  exact absurd hmem (Finset.notMem_empty _)

end Skp.Mm
