import Skp.Mm.SlabMoves

/-! # Runs of a slab cache

Every step keeps the invariant, so it holds after any run of the threads. -/
namespace Skp.Mm
set_option autoImplicit false
open Skp.Foundations

variable {T : Type}
variable {c : CacheParams} {l : List Obj} {s : SlabState T} {p : ℕ} {t : T} {o : Obj}

/-! ## Operations -/

/-- `__slab_free` of objects in limbo. -/
theorem SlabInv.slabFree (objs : List Obj) (h : SlabInv c (objs ++ l) none s) (hne : objs ≠ [])
    (hhome : ∀ o, o ∈ objs → o.1 = p) (r : DiscardReads) :
    SlabInv c l none (slabFree c s p objs objs.length r) := by
  have hlive : p ∈ s.live := by
    obtain ⟨o, ho⟩ := List.exists_mem_of_ne_nil objs hne
    have hmem : o ∈ objsAt s (objs ++ l) .limbo := List.mem_append_left l ho
    exact hhome o ho ▸ (h.live_of_mem .limbo hmem).1
  have hfrozen : (freelistFree s p objs objs.length).frozen p = s.frozen p := rfl
  unfold Mm.slabFree
  simp only [hfrozen]
  split
  case isTrue hfr => exact h.freelist_free hhome hlive (Or.inr ⟨rfl, Or.inl hfr⟩)
  case isFalse hfr =>
    have hunfrozen : s.frozen p = false := by simpa using hfr
    -- the page goes back to the list it was on, to the other one, or away
    have hfloat : ∀ q, s.freelist p ≠ [] →
        q = removePartial (freelistFree s p objs objs.length) p → SlabInv c l (some p) q := by
      intro q hprior hq
      have hlisted : p ∈ s.partials := (h.page p).partials.mpr ⟨hlive, hunfrozen, hprior⟩
      rw [hq]
      exact (h.unlist_partials hlisted).freelist_free hhome hlive (Or.inl rfl)
    have hfloat' : ∀ q, s.freelist p = [] →
        q = removeFull (freelistFree s p objs objs.length) p → SlabInv c l (some p) q := by
      intro q hprior hq
      have hlisted : p ∈ s.full := (h.page p).full.mpr ⟨hlive, hunfrozen, hprior⟩
      rw [hq]
      exact (h.unlist_full hlisted).freelist_free hhome hlive (Or.inl rfl)
    split
    case isTrue hzero =>
      split
      case isTrue hprior => exact (hfloat _ hprior rfl).discard hzero.1
      case isFalse hprior => exact (hfloat' _ (by simpa using hprior) rfl).discard hzero.1
    case isFalse =>
      split
      case isTrue hprior =>
        refine (hfloat' _ hprior rfl).list_partials ?_ (List.perm_append_singleton p _)
        simp [removeFull, freelistFree, hne]
      case isFalse hprior => exact h.freelist_free hhome hlive (Or.inr ⟨rfl, Or.inr hprior⟩)

/-- Where `deactivate_slab` leaves a page it has unloaded. -/
theorem SlabInv.settle (h : SlabInv c l (some p) s) (r : DiscardReads) :
    SlabInv c l none (if s.inuse p ≠ 0 then (if s.freelist p ≠ [] then addPartial s p else addFull s p)
      else if needDiscard c r then discardSlab s p else addPartialTail s p) := by
  split
  case isTrue =>
    split
    case isTrue hne => exact h.list_partials hne (List.Perm.refl _)
    case isFalse hnil => exact h.list_full (not_not.mp hnil)
  case isFalse hinuse =>
    have hzero : s.inuse p = 0 := not_not.mp hinuse
    split
    case isTrue => exact h.discard hzero
    case isFalse =>
      refine h.list_partials ?_ (List.perm_append_singleton p _)
      intro hnil
      have hsum : s.inuse p + (s.freelist p).length = c.objects := h.afloat.inuse
      rw [hzero, hnil] at hsum
      exact absurd hsum (Nat.ne_of_lt c.objects_pos)

variable [DecidableEq T]

theorem SlabInv.deactivateSlab (h : SlabInv c l none s) (hp : loadedPage c s t = some p) (r : DiscardReads) :
    SlabInv c l none (deactivateSlab c s t p r) := by
  obtain ⟨hlive, hfrozen⟩ := h.loaded_frozen hp
  have htaken := h.take_lockless (s.locklessFreelist p) [] hfrozen (List.append_nil _).symm
  have hfreed := htaken.freelist_free (fun o ho => h.homeLockless p o ho) hlive (Or.inr ⟨rfl, Or.inl hfrozen⟩)
  have hloaded : loadedPage c
      (freelistFree { s with locklessFreelist := Function.update s.locklessFreelist p [] } p
      (s.locklessFreelist p) (s.locklessFreelist p).length) t = some p := hp
  have hfloat := hfreed.unload hloaded (by simp [freelistFree])
  exact hfloat.settle r

section
omit [DecidableEq T]

theorem SlabInv.allocObject {s' : SlabState T} (h : SlabInv c l none s) (hs : allocObject c s t = some s') :
    SlabInv c l none s' := by
  unfold Mm.allocObject at hs
  split at hs
  case h_1 => cases hs
  case h_2 page hpage =>
    obtain ⟨hlive, hfrozen⟩ := h.loaded_frozen hpage
    split at hs
    case h_1 o rest hl =>
      obtain rfl := Option.some.inj hs
      exact SlabInv.to_user (h.take_lockless [o] rest hfrozen hl)
    case h_2 o rest hl hfree =>
      obtain rfl := Option.some.inj hs
      have htaken := h.freelist_take hfrozen
      rw [hfree] at htaken
      -- the first object is for the caller, the rest go on the lockless list
      have hout := SlabInv.to_user htaken
      have hhome : ∀ o', o' ∈ rest → o'.1 = page :=
        fun o' ho' => h.homeFree page o' (by rw [hfree]; exact List.mem_cons_of_mem o ho')
      have hput := SlabInv.put_lockless rest hout hfrozen hhome
      have heq : rest ++ s.locklessFreelist page = rest := by rw [hl, List.append_nil]
      change SlabInv c l none (handOut { s with
        locklessFreelist := Function.update s.locklessFreelist page (rest ++ s.locklessFreelist page)
        inuse := Function.update s.inuse page c.objects
        freelist := Function.update s.freelist page [] } o) at hput
      rw [heq] at hput
      exact hput
    case h_3 => cases hs

theorem slabFree_tlsFree (c : CacheParams) (s : SlabState T) (p : ℕ) (objs : List Obj) (nr : ℕ)
    (r : DiscardReads) :
    (slabFree c s p objs nr r).tlsFree = s.tlsFree ∧ (slabFree c s p objs nr r).chainFree = s.chainFree := by
  unfold slabFree
  simp only []
  split
  · exact ⟨rfl, rfl⟩
  · split
    · split <;> exact ⟨rfl, rfl⟩
    · split <;> exact ⟨rfl, rfl⟩

theorem flushFreelist_tlsFree (c : CacheParams) (s : SlabState T) (fl : TlsFreelist) (r : DiscardReads) :
    (flushFreelist c s fl r).tlsFree = s.tlsFree ∧ (flushFreelist c s fl r).chainFree = s.chainFree := by
  unfold flushFreelist
  split
  · exact ⟨rfl, rfl⟩
  · split
    · exact ⟨rfl, rfl⟩
    · exact slabFree_tlsFree c s _ _ _ r

theorem SlabInv.flushFreelist {fl : TlsFreelist} (h : SlabInv c (fl.objs ++ l) none s)
    (hfl : TlsOk fl) (r : DiscardReads) :
    SlabInv c l none (flushFreelist c s fl r) := by
  have hempty : fl.objs = [] → SlabInv c l none s := by
    intro hnil
    rw [hnil] at h
    exact h
  unfold Mm.flushFreelist
  split
  case h_1 hnone =>
    apply hempty
    apply List.eq_nil_iff_forall_not_mem.mpr
    intro o ho
    have hsome := hfl.home o ho
    rw [hnone] at hsome
    cases hsome
  case h_2 page hpage =>
    split
    case isTrue hzero => exact hempty (List.length_eq_zero_iff.mp (hfl.nr.symm.trans hzero))
    case isFalse hnr =>
      rw [hfl.nr] at hnr ⊢
      refine SlabInv.slabFree fl.objs h (fun hnil => hnr (by rw [hnil]; rfl)) (fun o ho => ?_) r
      exact (Option.some.inj (hpage.symm.trans (hfl.home o ho))).symm

theorem SlabInv.tlsCache {fl : TlsFreelist} (h : SlabInv c (fl.objs ++ o :: l) none s)
    (hfl : TlsOk fl) (r : DiscardReads) :
    SlabInv c ((tlsCache c s fl o r).2.objs ++ l) none (tlsCache c s fl o r).1 ∧
      TlsOk (tlsCache c s fl o r).2 := by
  unfold Mm.tlsCache
  simp only []
  split
  case isTrue =>
    refine ⟨h.flushFreelist hfl r, rfl, fun o' ho' => ?_⟩
    rw [List.mem_singleton.mp ho']
  case isFalse hkeep =>
    have hpage : fl.page = some o.1 := by
      by_contra hne
      exact hkeep (Or.inl hne)
    refine ⟨?_, ?_, fun o' ho' => ?_⟩
    · exact h.perm List.perm_middle
    · change fl.nr + 1 = (o :: fl.objs).length
      rw [List.length_cons, hfl.nr]
    · cases List.mem_cons.mp ho' with
      | inl heq => rw [heq]
      | inr ho' => rw [← hpage]; exact hfl.home o' ho'

theorem tlsCache_tlsFree (c : CacheParams) (s : SlabState T) (fl : TlsFreelist) (o : Obj) (r : DiscardReads) :
    (tlsCache c s fl o r).1.tlsFree = s.tlsFree ∧ (tlsCache c s fl o r).1.chainFree = s.chainFree := by
  unfold tlsCache
  simp only []
  split
  · exact flushFreelist_tlsFree c s fl r
  · exact ⟨rfl, rfl⟩

end

theorem SlabInv.threadFree (h : SlabInv c (o :: l) none s) (t : T) (r : DiscardReads) :
    SlabInv c l none (threadFree c s t o r) := by
  unfold Mm.threadFree
  split
  case isTrue hc =>
    split
    case isTrue hpage =>
      -- the thread's own page: no lock is taken
      have hfrozen := (h.loaded_frozen (t := t) (p := o.1) (by rw [loadedPage, if_pos hc]; exact hpage)).2
      refine SlabInv.put_lockless [o] h hfrozen fun o' ho' => ?_
      rw [List.mem_singleton.mp ho']
    case isFalse =>
      obtain ⟨hcached, hok⟩ := (h.take_tls t).tlsCache (h.tlsOk t) r
      refine hcached.put_tls ?_ hok
      rw [(tlsCache_tlsFree _ _ _ _ _).1]
      simp [TlsFreelist.empty]
  case isFalse =>
    refine SlabInv.slabFree [o] h (List.cons_ne_nil o []) (fun o' ho' => ?_) r
    rw [List.mem_singleton.mp ho']

/-! ## Steps and runs -/

theorem slabStep_inv {a : SlabAct T} {s' : SlabState T} (h : SlabInv c [] none s)
    (hs : slabStep c s a = some s') :
    SlabInv c [] none s' := by
  cases a with
  | alloc t => exact h.allocObject hs
  | deactivate t r =>
    simp only [slabStep] at hs
    split at hs
    · cases hs
    · rename_i page hpage
      obtain rfl := Option.some.inj hs
      exact h.deactivateSlab hpage r
  | loadPartial t page =>
    obtain ⟨⟨hnone, hp⟩, heq⟩ := Option.ite_none_right_eq_some.mp hs
    obtain rfl := Option.some.inj heq
    have hload := (h.unlist_partials hp).load (t := t) hnone
    have hcomm : lockAndFreezeSlab c (removePartial s page) t page =
        removePartial (lockAndFreezeSlab c s t page) page := by
      unfold lockAndFreezeSlab setLoaded
      split <;> rfl
    rw [← hcomm]
    exact hload
  | loadNew t page =>
    obtain ⟨⟨hnone, hp⟩, heq⟩ := Option.ite_none_right_eq_some.mp hs
    obtain rfl := Option.some.inj heq
    exact (h.new hp).load hnone
  | newPartial t page =>
    obtain ⟨⟨-, -, hp⟩, heq⟩ := Option.ite_none_right_eq_some.mp hs
    obtain rfl := Option.some.inj heq
    refine (h.new hp).list_partials ?_ (List.perm_append_singleton page _)
    have hpos := c.objects_pos
    simp [newSlab]
    omega
  | newDiscard page =>
    obtain ⟨hp, heq⟩ := Option.ite_none_right_eq_some.mp hs
    obtain rfl := Option.some.inj heq
    exact (h.new hp).discard (by simp [newSlab])
  | slabFree t o r =>
    obtain ⟨ho, heq⟩ := Option.ite_none_right_eq_some.mp hs
    obtain rfl := Option.some.inj heq
    exact (h.from_user ho).threadFree t r
  | directFree o r =>
    obtain ⟨ho, heq⟩ := Option.ite_none_right_eq_some.mp hs
    obtain rfl := Option.some.inj heq
    refine SlabInv.slabFree [o] (h.from_user ho) (List.cons_ne_nil o []) (fun o' ho' => ?_) r
    rw [List.mem_singleton.mp ho']
  | tlsFlush t r =>
    obtain rfl := Option.some.inj hs
    exact (h.take_tls t).flushFreelist (h.tlsOk t) r
  | poolFree o =>
    obtain ⟨⟨ho, -⟩, heq⟩ := Option.ite_none_right_eq_some.mp hs
    obtain rfl := Option.some.inj heq
    exact (h.from_user ho).put_pool
  | poolAlloc =>
    simp only [slabStep] at hs
    split at hs
    · cases hs
    · rename_i o rest ho
      split at hs
      · cases hs
      · obtain rfl := Option.some.inj hs
        exact (h.take_pool ho).to_user
  | poolTake t =>
    obtain ⟨⟨-, hnil, -⟩, heq⟩ := Option.ite_none_right_eq_some.mp hs
    obtain rfl := Option.some.inj heq
    exact h.pool_to_chain hnil
  | chainNext t r =>
    simp only [slabStep] at hs
    split at hs
    · cases hs
    · rename_i o rest ho
      obtain rfl := Option.some.inj hs
      obtain ⟨hcached, hok⟩ := ((h.take_chain ho).take_chainFree t).tlsCache (h.chainOk t) r
      refine hcached.put_chainFree ?_ hok
      rw [(tlsCache_tlsFree _ _ _ _ _).2]
      simp [TlsFreelist.empty]
  | chainEnd t r =>
    obtain ⟨-, heq⟩ := Option.ite_none_right_eq_some.mp hs
    obtain rfl := Option.some.inj heq
    exact (h.take_chainFree t).flushFreelist (h.chainOk t) r
  | sortPartial =>
    obtain rfl := Option.some.inj hs
    exact h.reorder_partials (List.mergeSort_perm _ _)
  | shrink page =>
    obtain ⟨⟨hp, hzero⟩, heq⟩ := Option.ite_none_right_eq_some.mp hs
    obtain rfl := Option.some.inj heq
    exact (h.unlist_partials hp).discard hzero

/-- What holds of a cache in every state. A page the threads have loaded is a frozen one. -/
structure SlabOk (c : CacheParams) (s : SlabState T) : Prop where
  placed : ∀ o : Obj, o.1 ∈ s.live → o.2 < c.objects → ∃! pl : Place T, o ∈ objsAt s [] pl
  once : ∀ pl : Place T, (objsAt s [] pl).Nodup
  inuse : ∀ p, p ∈ s.live → s.inuse p + (s.freelist p).length = c.objects
  onePage : ∀ p, p ∈ s.live →
    (p ∈ s.partials ∧ p ∉ s.full ∧ s.frozen p = false) ∨ (p ∉ s.partials ∧ p ∈ s.full ∧ s.frozen p = false) ∨
      (p ∉ s.partials ∧ p ∉ s.full ∧ s.frozen p = true)
  listed : ∀ p, p ∈ s.partials ∨ p ∈ s.full → p ∈ s.live
  frozen : ∀ p, p ∈ s.live ∧ s.frozen p = true ↔ (∃ t, s.tlsPage t = some p) ∨ s.slabPage = some p
  nodup : s.partials.Nodup ∧ s.full.Nodup
  nrPartial : s.nrPartial = s.partials.length
  held : ∀ o, o ∈ s.held ↔ Out s.log o
  alternates : Alternates s.log
  discards : ∀ d, d ∈ s.discards → d.2.Nodup ∧ ∀ o, o ∈ d.2 ↔ o.1 = d.1 ∧ o.2 < c.objects

omit [DecidableEq T] in
theorem SlabInv.ok (h : SlabInv c [] none s) : SlabOk c s where
  placed o hlive hlt := h.placed.existsUnique ⟨hlive, hlt⟩
  once := h.placed.nodup
  inuse p := (h.page p).inuse
  onePage p hlive := by
    have hpartials : p ∈ s.partials ↔ p ∈ s.live ∧ s.frozen p = false ∧ s.freelist p ≠ [] :=
      (h.page p).partials
    have hfull : p ∈ s.full ↔ p ∈ s.live ∧ s.frozen p = false ∧ s.freelist p = [] := (h.page p).full
    cases hfrozen : s.frozen p with
    | true => exact Or.inr (Or.inr ⟨by simp [hpartials, hfrozen], by simp [hfull, hfrozen], rfl⟩)
    | false =>
      by_cases hnil : s.freelist p = []
      · exact Or.inr (Or.inl ⟨by simp [hpartials, hnil], hfull.mpr ⟨hlive, hfrozen, hnil⟩, rfl⟩)
      · exact Or.inl ⟨hpartials.mpr ⟨hlive, hfrozen, hnil⟩, by simp [hfull, hnil], rfl⟩
  listed p hp := by
    cases hp with
    | inl hp => exact ((h.page p).partials.mp hp).1
    | inr hp => exact ((h.page p).full.mp hp).1
  frozen p := (h.page p).loaded
  nodup := ⟨h.pages.partialsNodup, h.pages.fullNodup⟩
  nrPartial := h.pages.nrPartial
  held := h.held
  alternates := h.alternates
  discards := h.discards

/-- After any run of any threads, every object is in one place and every page on the list it belongs on. -/
theorem slab_ok (c : CacheParams) (as : List (SlabAct T)) (s : SlabState T)
    (hrun : runActs (slabStep c) slabInit as = some s) : SlabOk c s := by
  have hinv : SlabInv c [] none s :=
    run_invariant (fun _ _ _ h _ hs => slabStep_inv h hs) as slabInit s (slabInv_init c)
      (runMeets_trivial as slabInit) hrun
  exact hinv.ok

def pairCache : CacheParams := ⟨true, 2, false, 8, 0, Nat.succ_pos 1⟩

/-- One thread allocates both objects, the other frees one to its own list and flushes it while the page is
loaded; the page is unloaded, loaded by the other thread and emptied. -/
def pairRun : List (SlabAct Bool) :=
  [.loadNew false 0, .alloc false, .alloc false, .slabFree true (0, 0) ⟨false, 0⟩, .tlsFlush true ⟨false, 0⟩,
    .deactivate false ⟨false, 0⟩, .loadPartial true 0, .alloc true, .slabFree true (0, 1) ⟨false, 0⟩,
    .slabFree true (0, 0) ⟨false, 0⟩, .deactivate true ⟨true, 0⟩]

theorem slab_ok_pairRun :
    ∃ s, runActs (slabStep pairCache) slabInit pairRun = some s ∧ s.discards = [(0, [(0, 0), (0, 1)])] ∧
      SlabOk pairCache s := by
  have hrun : (runActs (slabStep pairCache) slabInit pairRun).map SlabState.discards =
      some [(0, [(0, 0), (0, 1)])] := by
    decide
  obtain ⟨s, hs, hd⟩ := Option.map_eq_some_iff.mp hrun
  exact ⟨s, hs, hd, slab_ok pairCache pairRun s hs⟩

end Skp.Mm
