import Skp.Mm.SlabLinkSteps

/-! # What a step of a cache hands out, takes back and writes

`SlabMove` is what the user and the page allocator see of a step. The words that a step writes are
in the object it takes back, in free objects and in those of its new page, never in an object that
is with the user afterwards. -/
namespace Skp.Mm
set_option autoImplicit false
open Skp.Foundations

variable {T : Type}
variable {c : CacheParams} {s s' : SlabState T} {o : Obj} {p : ℕ}

def freedObj : SlabAct T → Option Obj
  | .slabFree _ o _ => some o
  | .directFree o _ => some o
  | .poolFree o => some o
  | _ => none

/-- The object in front of the list that `cache_alloc` or `objpool_alloc` takes it from. -/
def handedObj (c : CacheParams) (s : SlabState T) : SlabAct T → Option Obj
  | .alloc t => (loadedPage c s t).bind fun page => (s.locklessFreelist page).head?.or (s.freelist page).head?
  | .poolAlloc => s.pool.head?
  | _ => none

/-- The list that `cache_alloc` takes an object from. -/
def allocList (c : CacheParams) (s : SlabState T) (t : T) : List Obj :=
  match loadedPage c s t with
  | none => []
  | some page =>
      match s.locklessFreelist page with
      | [] => s.freelist page
      | objs => objs

theorem handedObj_alloc (c : CacheParams) (s : SlabState T) (t : T) :
    handedObj c s (.alloc t) = (allocList c s t).head? := by
  rw [handedObj, allocList]
  cases loadedPage c s t with
  | none => rfl
  | some page =>
    cases hlist : s.locklessFreelist page <;> simp [hlist]

theorem slabFree_frame (c : CacheParams) (s : SlabState T) (p : ℕ) (objs : List Obj) (nr : ℕ)
    (r : DiscardReads) :
    (slabFree c s p objs nr r).held = s.held ∧ (slabFree c s p objs nr r).live ⊆ s.live := by
  simp only [slabFree]
  split_ifs <;> first | exact ⟨rfl, Finset.Subset.refl _⟩ | exact ⟨rfl, Finset.erase_subset _ _⟩

theorem flushFreelist_frame (c : CacheParams) (s : SlabState T) (fl : TlsFreelist) (r : DiscardReads) :
    (flushFreelist c s fl r).held = s.held ∧ (flushFreelist c s fl r).live ⊆ s.live := by
  rw [flushFreelist]
  cases fl.page with
  | none => exact ⟨rfl, Finset.Subset.refl _⟩
  | some page =>
    simp only []
    split_ifs
    · exact ⟨rfl, Finset.Subset.refl _⟩
    · exact slabFree_frame c s page fl.objs fl.nr r

theorem tlsCache_frame (c : CacheParams) (s : SlabState T) (fl : TlsFreelist) (o : Obj) (r : DiscardReads) :
    (tlsCache c s fl o r).1.held = s.held ∧ (tlsCache c s fl o r).1.live ⊆ s.live := by
  rw [tlsCache]
  split
  · exact flushFreelist_frame c s fl r
  · exact ⟨rfl, Finset.Subset.refl _⟩

variable [DecidableEq T]

theorem threadFree_frame (c : CacheParams) (s : SlabState T) (t : T) (o : Obj) (r : DiscardReads) :
    (threadFree c s t o r).held = s.held ∧ (threadFree c s t o r).live ⊆ s.live := by
  rw [threadFree]
  split_ifs
  · exact ⟨rfl, Finset.Subset.refl _⟩
  · exact tlsCache_frame c _ _ o r
  · exact slabFree_frame c s o.1 [o] 1 r

theorem deactivateSlab_frame (c : CacheParams) (s : SlabState T) (t : T) (p : ℕ) (r : DiscardReads) :
    (deactivateSlab c s t p r).held = s.held ∧ (deactivateSlab c s t p r).live ⊆ s.live := by
  rw [deactivateSlab]
  simp only [setLoaded_inuse, setLoaded_freelist]
  split_ifs <;> simp [addPartial, addFull, addPartialTail, discardSlab, freelistFree, Finset.erase_subset]

/-- The held objects and the pages after a step. -/
structure SlabMove (c : CacheParams) (s s' : SlabState T) (a : SlabAct T) : Prop where
  live : ∀ p, p ∈ s'.live → p ∈ s.live ∨ newPage a = some p
  handed : ∀ o, handedObj c s a = some o → s'.held = o :: s.held
  freed : ∀ o, freedObj a = some o → o ∈ s.held ∧ s'.held = s.held.erase o
  rest : handedObj c s a = none → freedObj a = none → s'.held = s.held
  new : ∀ p, newPage a = some p → p ∉ s.live

section
omit [DecidableEq T]

theorem SlabMove.quiet {a : SlabAct T} (hlive : s'.live ⊆ s.live) (hheld : s'.held = s.held)
    (hnone : handedObj c s a = none)
    (hfreed : freedObj a = none) (hnew : newPage a = none) : SlabMove c s s' a where
  live := fun _ hp => .inl (hlive hp)
  handed := fun o ho => by
    rw [hnone] at ho
    cases ho
  freed := fun o ho => by
    rw [hfreed] at ho
    cases ho
  rest := fun _ _ => hheld
  new := fun p hp => by
    rw [hnew] at hp
    cases hp

theorem SlabMove.free {a : SlabAct T} (ho : o ∈ s.held) (hlive : s'.live ⊆ s.live)
    (hheld : s'.held = s.held.erase o)
    (hnone : handedObj c s a = none) (hfreed : freedObj a = some o) (hnew : newPage a = none) :
    SlabMove c s s' a where
  live := fun _ hp => .inl (hlive hp)
  handed := fun o ho => by
    rw [hnone] at ho
    cases ho
  freed := fun o' ho' => by
    obtain rfl := Option.some.inj (hfreed.symm.trans ho')
    exact ⟨ho, hheld⟩
  rest := fun _ hno => by
    rw [hfreed] at hno
    cases hno
  new := fun p hp => by
    rw [hnew] at hp
    cases hp

theorem SlabMove.hand {a : SlabAct T} (hlive : s'.live ⊆ s.live) (hheld : s'.held = o :: s.held)
    (hsome : handedObj c s a = some o) (hfreed : freedObj a = none) (hnew : newPage a = none) :
    SlabMove c s s' a where
  live := fun _ hp => .inl (hlive hp)
  handed := fun o' ho' => by
    obtain rfl := Option.some.inj (hsome.symm.trans ho')
    exact hheld
  freed := fun o ho => by
    rw [hfreed] at ho
    cases ho
  rest := fun hno _ => by
    rw [hsome] at hno
    cases hno
  new := fun p hp => by
    rw [hnew] at hp
    cases hp

theorem SlabMove.page {a : SlabAct T} (hp : p ∉ s.live) (hlive : s'.live ⊆ insert p s.live)
    (hheld : s'.held = s.held)
    (hnone : handedObj c s a = none) (hfreed : freedObj a = none) (hnew : newPage a = some p) :
    SlabMove c s s' a where
  live := fun q hq => by
    rcases Finset.mem_insert.mp (hlive hq) with rfl | hq
    · exact .inr hnew
    · exact .inl hq
  handed := fun o ho => by
    rw [hnone] at ho
    cases ho
  freed := fun o ho => by
    rw [hfreed] at ho
    cases ho
  rest := fun _ _ => hheld
  new := fun q hq => by
    obtain rfl := Option.some.inj (hnew.symm.trans hq)
    exact hp

end

theorem slabStep_move {a : SlabAct T} (hs : slabStep c s a = some s') : SlabMove c s s' a := by
  cases a with
  | alloc t =>
    simp only [slabStep, allocObject] at hs
    cases hpage : loadedPage c s t with
    | none =>
      rw [hpage] at hs
      cases hs
    | some page =>
      rw [hpage] at hs
      simp only [] at hs
      split at hs
      · rename_i o rest hlockless
        obtain rfl := Option.some.inj hs
        exact .hand (Finset.Subset.refl _) rfl (by simp [handedObj, hpage, hlockless]) rfl rfl
      · rename_i o rest hlockless hfree
        obtain rfl := Option.some.inj hs
        exact .hand (Finset.Subset.refl _) rfl (by simp [handedObj, hpage, hlockless, hfree]) rfl rfl
      · cases hs
  | deactivate t r =>
    simp only [slabStep] at hs
    cases hpage : loadedPage c s t with
    | none =>
      rw [hpage] at hs
      cases hs
    | some page =>
      rw [hpage] at hs
      obtain rfl := Option.some.inj hs
      obtain ⟨hheld, hlive⟩ := deactivateSlab_frame c s t page r
      exact .quiet hlive hheld rfl rfl rfl
  | loadPartial t page =>
    obtain ⟨-, heq⟩ := Option.ite_none_right_eq_some.mp hs
    obtain rfl := Option.some.inj heq
    exact .quiet (by simp [removePartial, lockAndFreezeSlab])
      (by simp [removePartial, lockAndFreezeSlab]) rfl rfl rfl
  | loadNew t page =>
    obtain ⟨⟨-, hp⟩, heq⟩ := Option.ite_none_right_eq_some.mp hs
    obtain rfl := Option.some.inj heq
    exact .page hp (by simp [newSlab, lockAndFreezeSlab]) (by simp [newSlab, lockAndFreezeSlab]) rfl rfl rfl
  | newPartial t page =>
    obtain ⟨⟨-, -, hp⟩, heq⟩ := Option.ite_none_right_eq_some.mp hs
    obtain rfl := Option.some.inj heq
    exact .page hp (Finset.Subset.refl _) rfl rfl rfl rfl
  | newDiscard page =>
    obtain ⟨hp, heq⟩ := Option.ite_none_right_eq_some.mp hs
    obtain rfl := Option.some.inj heq
    exact .page hp (Finset.erase_subset _ _) rfl rfl rfl rfl
  | slabFree t o r =>
    obtain ⟨ho, heq⟩ := Option.ite_none_right_eq_some.mp hs
    obtain rfl := Option.some.inj heq
    obtain ⟨hheld, hlive⟩ := threadFree_frame c (takeBack s o) t o r
    exact .free ho hlive hheld rfl rfl rfl
  | directFree o r =>
    obtain ⟨ho, heq⟩ := Option.ite_none_right_eq_some.mp hs
    obtain rfl := Option.some.inj heq
    obtain ⟨hheld, hlive⟩ := slabFree_frame c (takeBack s o) o.1 [o] 1 r
    exact .free ho hlive hheld rfl rfl rfl
  | tlsFlush t r =>
    obtain rfl := Option.some.inj hs
    obtain ⟨hheld, hlive⟩ :=
      flushFreelist_frame c { s with tlsFree := Function.update s.tlsFree t TlsFreelist.empty }
        (s.tlsFree t) r
    exact .quiet hlive hheld rfl rfl rfl
  | poolFree o =>
    obtain ⟨⟨ho, -⟩, heq⟩ := Option.ite_none_right_eq_some.mp hs
    obtain rfl := Option.some.inj heq
    exact .free ho (Finset.Subset.refl _) rfl rfl rfl rfl
  | poolAlloc =>
    simp only [slabStep] at hs
    split at hs
    · cases hs
    · rename_i o rest ho
      split at hs
      · cases hs
      · obtain rfl := Option.some.inj hs
        exact .hand (Finset.Subset.refl _) rfl (by simp [handedObj, ho]) rfl rfl
  | poolTake t =>
    obtain ⟨-, heq⟩ := Option.ite_none_right_eq_some.mp hs
    obtain rfl := Option.some.inj heq
    exact .quiet (Finset.Subset.refl _) rfl rfl rfl rfl
  | chainNext t r =>
    simp only [slabStep] at hs
    split at hs
    · cases hs
    · rename_i o rest ho
      obtain rfl := Option.some.inj hs
      obtain ⟨hheld, hlive⟩ := tlsCache_frame c { s with
        chain := Function.update s.chain t rest
        chainFree := Function.update s.chainFree t TlsFreelist.empty } (s.chainFree t) o r
      exact .quiet hlive hheld rfl rfl rfl
  | chainEnd t r =>
    obtain ⟨-, heq⟩ := Option.ite_none_right_eq_some.mp hs
    obtain rfl := Option.some.inj heq
    obtain ⟨hheld, hlive⟩ := flushFreelist_frame c { s with
      chainFree := Function.update s.chainFree t TlsFreelist.empty } (s.chainFree t) r
    exact .quiet hlive hheld rfl rfl rfl
  | sortPartial =>
    obtain rfl := Option.some.inj hs
    exact .quiet (Finset.Subset.refl _) rfl rfl rfl rfl
  | shrink page =>
    obtain ⟨-, heq⟩ := Option.ite_none_right_eq_some.mp hs
    obtain rfl := Option.some.inj heq
    exact .quiet (Finset.erase_subset _ _) rfl rfl rfl rfl

section
omit [DecidableEq T]

theorem SlabInv.listed (h : SlabInv c [] none s) (pl : Place T) (hpl : pl ≠ .user) (ho : o ∈ objsAt s [] pl) :
    o.1 ∈ s.live ∧ o.2 < c.objects ∧ o ∉ s.held := by
  obtain ⟨hlive, hlt⟩ := h.live_of_mem pl ho
  exact ⟨hlive, hlt, fun hheld => hpl (h.placed.disjoint pl .user o ho hheld)⟩

theorem mem_tlsCacheLinks {fl : TlsFreelist} {w : Obj × Option Obj}
    (hw : w ∈ tlsCacheLinks s fl o) : w.1 = o ∨ w.1 ∈ fl.objs := by
  rw [tlsCacheLinks] at hw
  split at hw
  · rcases List.mem_append.mp hw with hw | hw
    · exact .inr (mem_flushLinks hw)
    · rw [List.mem_singleton.mp hw]
      exact .inl rfl
  · rw [List.mem_singleton.mp hw]
    exact .inl rfl

/-- A step writes in the object it takes back, in free ones and in those of its new page. -/
theorem mem_slabLinks {a : SlabAct T} {w : Obj × Option Obj}
    (hw : w ∈ slabLinks c s a) : freedObj a = some w.1 ∨ (∃ pl : Place T, pl ≠ .user ∧ w.1 ∈ objsAt s [] pl) ∨
      (newPage a = some w.1.1 ∧ w.1.2 < c.objects) := by
  have hpage (page : ℕ) (hw : w ∈ chainWrites (pageObjs c page)) : w.1.1 = page ∧ w.1.2 < c.objects := by
    obtain ⟨i, hi, heq⟩ := List.mem_map.mp (mem_chainWrites hw)
    rw [← heq]
    exact ⟨rfl, List.mem_range.mp hi⟩
  cases a with
  | deactivate t r =>
    simp only [slabLinks] at hw
    cases hload : loadedPage c s t with
    | none =>
      rw [hload] at hw
      cases hw
    | some page =>
      rw [hload] at hw
      exact .inr (.inl ⟨.lockless page, by simp, mem_joinWrites hw⟩)
  | loadNew t page =>
    obtain ⟨rfl, hlt⟩ := hpage page hw
    exact .inr (.inr ⟨rfl, hlt⟩)
  | newPartial t page =>
    obtain ⟨rfl, hlt⟩ := hpage page hw
    exact .inr (.inr ⟨rfl, hlt⟩)
  | newDiscard page =>
    obtain ⟨rfl, hlt⟩ := hpage page hw
    exact .inr (.inr ⟨rfl, hlt⟩)
  | slabFree t o r =>
    simp only [slabLinks] at hw
    split_ifs at hw
    · rw [List.mem_singleton.mp hw]
      exact .inl rfl
    · rcases mem_tlsCacheLinks hw with heq | htls
      · exact .inl (congrArg some heq.symm)
      · exact .inr (.inl ⟨.tls t, by simp, htls⟩)
    · rw [List.mem_singleton.mp hw]
      exact .inl rfl
  | directFree o r =>
    rw [List.mem_singleton.mp hw]
    exact .inl rfl
  | tlsFlush t r => exact .inr (.inl ⟨.tls t, by simp, mem_flushLinks hw⟩)
  | poolFree o =>
    rw [List.mem_singleton.mp hw]
    exact .inl rfl
  | chainNext t r =>
    simp only [slabLinks] at hw
    cases hchain : s.chain t with
    | nil =>
      rw [hchain] at hw
      cases hw
    | cons o rest =>
      rw [hchain] at hw
      rcases mem_tlsCacheLinks hw with heq | hlist
      · refine .inr (.inl ⟨.chain t, by simp, ?_⟩)
        have hold : objsAt s [] (.chain t) = o :: rest := hchain
        rw [hold, heq]
        exact List.mem_cons_self
      · exact .inr (.inl ⟨.chainFree t, by simp, hlist⟩)
  | chainEnd t r => exact .inr (.inl ⟨.chainFree t, by simp, mem_flushLinks hw⟩)
  | alloc t => cases hw
  | loadPartial t page => cases hw
  | poolAlloc => cases hw
  | poolTake t => cases hw
  | sortPartial => cases hw
  | shrink page => cases hw

theorem slabLinks_of_handed {a : SlabAct T} (ho : handedObj c s a = some o) : slabLinks c s a = [] := by
  cases a <;> first | rfl | cases ho

end

/-- What is written is on a page of the cache and not with the user. -/
theorem slabLinks_apart {a : SlabAct T} (h : SlabInv c [] none s) (hs : slabStep c s a = some s')
    {w : Obj × Option Obj}
    (hw : w ∈ slabLinks c s a) :
    (w.1.1 ∈ s.live ∨ newPage a = some w.1.1) ∧ w.1.2 < c.objects ∧ w.1 ∉ s'.held := by
  have hmove := slabStep_move hs
  have hnone : handedObj c s a = none := by
    cases hhand : handedObj c s a with
    | none => rfl
    | some o =>
      rw [slabLinks_of_handed hhand] at hw
      cases hw
  have hsub (o : Obj) (ho : o ∈ s'.held) : o ∈ s.held := by
    cases hfreed : freedObj a with
    | none => exact hmove.rest hnone hfreed ▸ ho
    | some o' => exact List.mem_of_mem_erase ((hmove.freed o' hfreed).2 ▸ ho)
  rcases mem_slabLinks hw with hfreed | ⟨pl, hpl, hlist⟩ | ⟨hnew, hlt⟩
  · obtain ⟨hheld, herase⟩ := hmove.freed _ hfreed
    obtain ⟨hlive, hlt⟩ := h.live_of_mem .user hheld
    refine ⟨.inl hlive, hlt, ?_⟩
    have hnodup : s.held.Nodup := h.placed.nodup .user
    rw [herase, hnodup.mem_erase_iff]
    exact fun hin => hin.1 rfl
  · obtain ⟨hlive, hlt, hout⟩ := h.listed pl hpl hlist
    exact ⟨.inl hlive, hlt, fun hin => hout (hsub _ hin)⟩
  · refine ⟨.inr hnew, hlt, fun hin => ?_⟩
    exact hmove.new _ hnew (h.live_of_mem .user (hsub _ hin)).1

omit [DecidableEq T] in
theorem handedObj_listed {a : SlabAct T} (ho : handedObj c s a = some o) :
    ∃ pl : Place T, pl ≠ .user ∧ ∃ rest, objsAt s [] pl = o :: rest := by
  cases a with
  | alloc t =>
    obtain ⟨page, -, hhead⟩ := Option.bind_eq_some_iff.mp ho
    cases hlockless : s.locklessFreelist page with
    | cons o' rest =>
      rw [hlockless] at hhead
      obtain rfl := Option.some.inj hhead
      exact ⟨.lockless page, by simp, rest, hlockless⟩
    | nil =>
      rw [hlockless] at hhead
      obtain ⟨rest, hfree⟩ := List.head?_eq_some_iff.mp (hhead : (s.freelist page).head? = some o)
      exact ⟨.free page, by simp, rest, hfree⟩
  | poolAlloc =>
    obtain ⟨rest, hpool⟩ := List.head?_eq_some_iff.mp (ho : s.pool.head? = some o)
    exact ⟨.pool, by simp, rest, hpool⟩
  | _ => cases ho

end Skp.Mm
