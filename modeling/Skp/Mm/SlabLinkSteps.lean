import Skp.Mm.SlabLinks

/-! # The links along a step

A step of a cache keeps its lists linked. -/
namespace Skp.Mm
set_option autoImplicit false
open Skp.Foundations

variable {T W : Type}
variable {enc : Option Obj → W} {word : Obj → W} {c : CacheParams} {s s' : SlabState T}
    {l objs : List Obj} {t : T}
  {o : Obj} {p : ℕ}

/-! ## Lists that are put together -/

theorem Threaded.same_or_nil (h : Threaded enc word s)
    (hsame : ∀ pl : Place T, pl ≠ .user → objsAt s' [] pl = [] ∨ objsAt s' [] pl = objsAt s [] pl) :
    Threaded enc word s' := by
  intro pl hpl
  rcases hsame pl hpl with hnil | heq
  · rw [hnil]
    trivial
  · rw [heq]
    exact h pl hpl

theorem Threaded.push (h : Threaded enc word s) (dst : Place T) (hdst : dst ≠ .user)
    (hout : ∀ pl : Place T, pl ≠ .user → o ∉ objsAt s [] pl)
    (hlists : ∀ pl : Place T, pl ≠ .user → objsAt s' [] pl = [] ∨ objsAt s' [] pl = o :: objsAt s [] dst ∨
      objsAt s' [] pl = objsAt s [] pl) :
    Threaded enc (applyWrites enc word [(o, (objsAt s [] dst).head?)]) s' := by
  intro pl hpl
  rcases hlists pl hpl with hnil | hpush | hsame
  · rw [hnil]
    trivial
  · rw [hpush]
    exact (h dst hdst).cons (hout dst hdst)
  · rw [hsame]
    exact (h pl hpl).update (hout pl hpl)

theorem Threaded.replace (h : Threaded enc word s) (dst : Place T)
    (hlist : Linked enc word (objsAt s' [] dst))
    (hother : ∀ pl : Place T, pl ≠ .user → pl ≠ dst → objsAt s' [] pl = objsAt s [] pl) :
    Threaded enc word s' := by
  intro pl hpl
  by_cases heq : pl = dst
  · subst heq
    exact hlist
  · rw [hother pl hpl heq]
    exact h pl hpl

theorem Threaded.newSlab (h : Threaded enc word s) (hinv : SlabInv c l none s) (hp : p ∉ s.live) :
    Threaded enc (applyWrites enc word (chainWrites (pageObjs c p))) (newSlab c s p) := by
  have hlists (pl : Place T) (hpl : pl ≠ .user) : Linked enc
      (applyWrites enc word (chainWrites (pageObjs c p))) (objsAt s [] pl) := by
    apply (h pl hpl).applyWrites
    intro w hw hin
    have hpage : w.1.1 = p := by
      obtain ⟨i, -, hi⟩ := List.mem_map.mp (mem_chainWrites hw)
      rw [← hi]
    have hmem : w.1 ∈ objsAt s l pl := by
      cases pl <;> first | exact hin | cases hin
    exact hp (hpage ▸ (hinv.live_of_mem pl hmem).1)
  intro pl hpl
  cases pl with
  | free q =>
    by_cases hq : q = p
    · subst hq
      have hlist : objsAt (Mm.newSlab c s q) [] (.free q : Place T) = pageObjs c q := Function.update_self ..
      rw [hlist]
      apply linked_chainWrites
      exact List.Nodup.map (fun i j hij => congrArg Prod.snd hij) List.nodup_range
    · have hlist : objsAt (Mm.newSlab c s p) [] (.free q : Place T) = s.freelist q :=
        Function.update_of_ne hq ..
      rw [hlist]
      exact hlists (.free q) hpl
  | lockless q =>
    by_cases hq : q = p
    · subst hq
      have hlist : objsAt (Mm.newSlab c s q) [] (.lockless q : Place T) = [] := Function.update_self ..
      rw [hlist]
      trivial
    · have hlist : objsAt (Mm.newSlab c s p) [] (.lockless q : Place T) = s.locklessFreelist q :=
        Function.update_of_ne hq ..
      rw [hlist]
      exact hlists (.lockless q) hpl
  | user => exact absurd rfl hpl
  | tls t => exact hlists (.tls t) hpl
  | pool => exact hlists .pool hpl
  | chain t => exact hlists (.chain t) hpl
  | chainFree t => exact hlists (.chainFree t) hpl
  | limbo => trivial

theorem Threaded.discard (h : Threaded enc word s) (p : ℕ) : Threaded enc word (discardSlab s p) := by
  apply h.same_or_nil
  intro pl hpl
  cases pl with
  | free q => by_cases hq : q = p <;> simp [objsAt, discardSlab, hq]
  | lockless q => by_cases hq : q = p <;> simp [objsAt, discardSlab, hq]
  | user => exact absurd rfl hpl
  | tls t => exact .inr rfl
  | pool => exact .inr rfl
  | chain t => exact .inr rfl
  | chainFree t => exact .inr rfl
  | limbo => exact .inr rfl

/-! ## Operations -/

theorem Threaded.allocObject (h : Threaded enc word s) (hs : allocObject c s t = some s') :
    Threaded enc word s' := by
  rw [Mm.allocObject] at hs
  split at hs
  · cases hs
  · rename_i page hpage
    split at hs
    · rename_i o rest hlockless
      obtain rfl := Option.some.inj hs
      apply h.shorten
      intro pl hpl
      by_cases heq : pl = .lockless page
      · subst heq
        refine ⟨.lockless page, hpl, ?_⟩
        have hlist : objsAt
            (handOut { s with locklessFreelist := Function.update s.locklessFreelist page rest } o)
            []
            (.lockless page) = rest := Function.update_self ..
        have hold : objsAt s [] (.lockless page) = o :: rest := hlockless
        rw [hlist, hold]
        exact List.suffix_cons o rest
      · refine ⟨pl, hpl, ?_⟩
        cases pl <;> first | exact absurd rfl hpl | exact List.suffix_rfl | skip
        rename_i q
        have hq : q ≠ page := fun hq => heq (congrArg Place.lockless hq)
        have hlist : objsAt
            (handOut { s with locklessFreelist := Function.update s.locklessFreelist page rest } o)
            []
            (.lockless q) = s.locklessFreelist q := Function.update_of_ne hq ..
        rw [hlist]
        exact List.suffix_rfl
    · rename_i o rest hlockless hfree
      obtain rfl := Option.some.inj hs
      apply h.shorten
      intro pl hpl
      cases pl with
      | lockless q =>
        by_cases hq : q = page
        · subst hq
          refine ⟨.free q, by simp, ?_⟩
          have hold : objsAt s [] (.free q : Place T) = o :: rest := hfree
          rw [hold]
          simp [objsAt, handOut]
        · refine ⟨.lockless q, hpl, ?_⟩
          simp [objsAt, handOut, hq]
      | free q =>
        refine ⟨.free q, hpl, ?_⟩
        by_cases hq : q = page <;> simp [objsAt, handOut, hq]
      | user => exact absurd rfl hpl
      | tls t => exact ⟨.tls t, hpl, List.suffix_rfl⟩
      | pool => exact ⟨.pool, hpl, List.suffix_rfl⟩
      | chain t => exact ⟨.chain t, hpl, List.suffix_rfl⟩
      | chainFree t => exact ⟨.chainFree t, hpl, List.suffix_rfl⟩
      | limbo => exact ⟨.limbo, hpl, List.suffix_rfl⟩
    · cases hs

variable [DecidableEq T]

section Loading
variable (c : CacheParams) (s : SlabState T) (t : T) (pg : Option ℕ)

@[simp] theorem setLoaded_freelist : (setLoaded c s t pg).freelist = s.freelist := by
  rw [setLoaded]
  split <;> rfl

@[simp] theorem setLoaded_locklessFreelist : (setLoaded c s t pg).locklessFreelist = s.locklessFreelist := by
  rw [setLoaded]
  split <;> rfl

@[simp] theorem setLoaded_inuse : (setLoaded c s t pg).inuse = s.inuse := by
  rw [setLoaded]
  split <;> rfl

@[simp] theorem setLoaded_live : (setLoaded c s t pg).live = s.live := by
  rw [setLoaded]
  split <;> rfl

@[simp] theorem setLoaded_held : (setLoaded c s t pg).held = s.held := by
  rw [setLoaded]
  split <;> rfl

theorem objsAt_setLoaded (pl : Place T) : objsAt (setLoaded c s t pg) l pl = objsAt s l pl := by
  rw [setLoaded]
  split <;> cases pl <;> rfl

end Loading

/-- Only the page's own lists are moved by `deactivate_slab`. -/
theorem deactivateSlab_rest (c : CacheParams) (s : SlabState T) (t : T) (p : ℕ) (r : DiscardReads)
    (pl : Place T)
    (hfree : ∀ q, pl ≠ .free q) (hlockless : ∀ q, pl ≠ .lockless q) :
    objsAt (deactivateSlab c s t p r) [] pl = objsAt s [] pl := by
  have hload :=
    objsAt_setLoaded (l := []) c
      ({ freelistFree s p (s.locklessFreelist p) (s.locklessFreelist p).length with
    locklessFreelist := Function.update s.locklessFreelist p [] } : SlabState T) t none pl
  have hfreed : objsAt ({ freelistFree s p (s.locklessFreelist p) (s.locklessFreelist p).length with
      locklessFreelist := Function.update s.locklessFreelist p [] } : SlabState T) [] pl =
      objsAt s [] pl := by
    cases pl <;> first | rfl | exact absurd rfl (hfree _) | exact absurd rfl (hlockless _)
  rw [← hfreed, ← hload, deactivateSlab]
  cases pl <;> first | exact absurd rfl (hfree _) | exact absurd rfl (hlockless _) | skip
  all_goals
    simp only []
    split_ifs <;> rfl

/-- Where the lists are after `deactivate_slab`. -/
theorem deactivateSlab_lists (c : CacheParams) (s : SlabState T) (t : T) (p : ℕ) (r : DiscardReads)
    (pl : Place T) (hpl : pl ≠ .user) :
    objsAt (deactivateSlab c s t p r) [] pl = [] ∨
      (pl = .free p ∧ objsAt (deactivateSlab c s t p r) [] pl = s.locklessFreelist p ++ s.freelist p) ∨
      (pl ≠ .lockless p ∧ objsAt (deactivateSlab c s t p r) [] pl = objsAt s [] pl) := by
  cases pl with
  | user => exact absurd rfl hpl
  | limbo => exact .inl rfl
  | free q =>
    by_cases hq : q = p
    · subst hq
      rw [deactivateSlab]
      simp only [setLoaded_inuse, setLoaded_freelist]
      split_ifs <;> simp [objsAt, freelistFree, discardSlab, addPartial, addFull, addPartialTail]
    · right
      right
      refine ⟨by simp, ?_⟩
      rw [deactivateSlab]
      simp only [setLoaded_inuse, setLoaded_freelist]
      split_ifs <;> simp [objsAt, freelistFree, discardSlab, addPartial, addFull, addPartialTail, hq]
  | lockless q =>
    by_cases hq : q = p
    · subst hq
      left
      rw [deactivateSlab]
      simp only [setLoaded_inuse, setLoaded_freelist]
      split_ifs <;> simp [objsAt, freelistFree, discardSlab, addPartial, addFull, addPartialTail]
    · right
      right
      refine ⟨by simp [hq], ?_⟩
      rw [deactivateSlab]
      simp only [setLoaded_inuse, setLoaded_freelist]
      split_ifs <;> simp [objsAt, freelistFree, discardSlab, addPartial, addFull, addPartialTail, hq]
  | tls u => exact .inr (.inr ⟨by simp, deactivateSlab_rest c s t p r (.tls u) (by simp) (by simp)⟩)
  | pool => exact .inr (.inr ⟨by simp, deactivateSlab_rest c s t p r .pool (by simp) (by simp)⟩)
  | chain u => exact .inr (.inr ⟨by simp, deactivateSlab_rest c s t p r (.chain u) (by simp) (by simp)⟩)
  | chainFree u =>
    exact .inr (.inr ⟨by simp, deactivateSlab_rest c s t p r (.chainFree u) (by simp) (by simp)⟩)

theorem Threaded.deactivateSlab (h : Threaded enc word s) (hinv : SlabInv c l none s) (t : T)
    (p : ℕ) (r : DiscardReads) :
    Threaded enc (applyWrites enc word (joinWrites (s.locklessFreelist p) (s.freelist p)))
      (deactivateSlab c s t p r) := by
  have hapart (pl : Place T) (hpl : pl ≠ .user)
      (hne : pl ≠ .lockless p) : ∀ o ∈ s.locklessFreelist p, o ∉ objsAt s [] pl := by
    intro o ho hin
    have hmem : o ∈ objsAt s l pl := by
      cases pl <;> first | exact hin | cases hin
    have hlockless : o ∈ objsAt s l (.lockless p : Place T) := ho
    exact hne (hinv.placed.disjoint pl (.lockless p) o hmem hlockless)
  apply h.join (.lockless p) (h (.lockless p) (by simp))
  · rw [List.nodup_append]
    refine ⟨hinv.placed.nodup (.lockless p), hinv.placed.nodup (.free p), ?_⟩
    rintro o ho _ hfree rfl
    exact hapart (.free p) (by simp) (by simp) o ho hfree
  · exact hapart
  · exact deactivateSlab_lists c s t p r

omit [DecidableEq T] in
/-- An object in limbo goes to `__slab_free` alone. -/
theorem Threaded.slabFreeOne (h : Threaded enc word s) (hinv : SlabInv c (o :: l) none s) (r : DiscardReads) :
    Threaded enc (applyWrites enc word [(o, (s.freelist o.1).head?)]) (Mm.slabFree c s o.1 [o] 1 r) := by
  apply h.push (.free o.1) (by simp)
  · intro pl hpl hin
    by_cases hlimbo : pl = .limbo
    · subst hlimbo
      cases hin
    · have hone : SlabInv c ([o] ++ l) none s := hinv
      exact hone.limbo_apart pl hlimbo o (List.mem_singleton_self o) hin
  · intro pl hpl
    rcases slabFree_lists c s o.1 [o] 1 r pl hpl with hnil | ⟨-, hjoin⟩ | ⟨-, hsame⟩
    · exact .inl hnil
    · exact .inr (.inl hjoin)
    · exact .inr (.inr hsame)

theorem Threaded.takeTls (h : Threaded enc word s) (t : T) :
    Threaded enc word { s with tlsFree := Function.update s.tlsFree t TlsFreelist.empty } := by
  apply h.same_or_nil
  intro pl hpl
  by_cases heq : pl = .tls t
  · subst heq
    left
    simp [objsAt, TlsFreelist.empty]
  · right
    cases pl <;> first | exact absurd rfl hpl | rfl | skip
    rename_i u
    have hu : u ≠ t := fun hu => heq (congrArg Place.tls hu)
    simp [objsAt, hu]

theorem Threaded.threadFree (h : Threaded enc word s) (hinv : SlabInv c (o :: l) none s) (t : T)
    (r : DiscardReads) :
    Threaded enc (applyWrites enc word (if c.lockless then
        if s.tlsPage t = some o.1 then [(o, (s.locklessFreelist o.1).head?)]
          else tlsCacheLinks s (s.tlsFree t) o
      else [(o, (s.freelist o.1).head?)])) (threadFree c s t o r) := by
  have hout (pl : Place T) : o ∉ objsAt s [] pl := by
    intro hin
    by_cases hlimbo : pl = .limbo
    · subst hlimbo
      cases hin
    · have hone : SlabInv c ([o] ++ l) none s := hinv
      exact hone.limbo_apart pl hlimbo o (List.mem_singleton_self o) hin
  rw [Mm.threadFree]
  split
  · split
    · apply h.push (.lockless o.1) (by simp) fun pl _ => hout pl
      intro pl hpl
      by_cases heq : pl = .lockless o.1
      · subst heq
        exact .inr (.inl (Function.update_self ..))
      · right
        right
        cases pl <;> first | exact absurd rfl hpl | rfl | skip
        rename_i q
        exact Function.update_of_ne (fun hq => heq (congrArg Place.lockless hq)) ..
    · -- the list is taken down, gets the object, and is put back
      obtain ⟨hcached, hlist⟩ :=
        (h.takeTls t).tlsCache (hinv.take_tls t) (hinv.tlsOk t) (h (.tls t) (by simp)) r
      apply hcached.replace (.tls t)
      · have hput (k : SlabState T) (fl : TlsFreelist) :
            objsAt ({ k with tlsFree := Function.update k.tlsFree t fl } : SlabState T) []
              (.tls t) = fl.objs := by
          simp [objsAt]
        exact (hput _ _).symm ▸ hlist
      · intro pl hpl hne
        cases pl <;> first | exact absurd rfl hpl | rfl | skip
        rename_i u
        have hu : u ≠ t := fun hu => hne (congrArg Place.tls hu)
        simp [objsAt, hu]
  · exact h.slabFreeOne hinv r

/-! ## Steps -/

theorem objsAt_lockAndFreeze (c : CacheParams) (s : SlabState T) (t : T) (p : ℕ) (pl : Place T) :
    objsAt (lockAndFreezeSlab c s t p) l pl = objsAt s l pl := by
  rw [lockAndFreezeSlab, objsAt_setLoaded]
  cases pl <;> rfl

theorem slabStep_threaded {a : SlabAct T} (h : SlabInv c [] none s) (hth : Threaded enc word s)
    (hs : slabStep c s a = some s') :
    Threaded enc (applyWrites enc word (slabLinks c s a)) s' := by
  have hback (o : Obj) : Threaded enc word (takeBack s o) := hth.same_or_nil fun pl hpl => by
    right
    cases pl <;> first | exact absurd rfl hpl | rfl
  cases a with
  | alloc t => exact hth.allocObject hs
  | deactivate t r =>
    simp only [slabStep] at hs
    simp only [slabLinks]
    cases hpage : loadedPage c s t with
    | none =>
      rw [hpage] at hs
      cases hs
    | some page =>
      rw [hpage] at hs
      obtain rfl := Option.some.inj hs
      exact hth.deactivateSlab h t page r
  | loadPartial t page =>
    obtain ⟨-, heq⟩ := Option.ite_none_right_eq_some.mp hs
    obtain rfl := Option.some.inj heq
    apply hth.same_or_nil
    intro pl _
    right
    rw [← objsAt_lockAndFreeze c s t page pl]
    cases pl <;> rfl
  | loadNew t page =>
    obtain ⟨⟨-, hp⟩, heq⟩ := Option.ite_none_right_eq_some.mp hs
    obtain rfl := Option.some.inj heq
    exact (hth.newSlab h hp).same_or_nil fun pl _ => .inr (objsAt_lockAndFreeze c _ t page pl)
  | newPartial t page =>
    obtain ⟨⟨-, -, hp⟩, heq⟩ := Option.ite_none_right_eq_some.mp hs
    obtain rfl := Option.some.inj heq
    exact (hth.newSlab h hp).same_or_nil fun pl _ => .inr (by cases pl <;> rfl)
  | newDiscard page =>
    obtain ⟨hp, heq⟩ := Option.ite_none_right_eq_some.mp hs
    obtain rfl := Option.some.inj heq
    exact (hth.newSlab h hp).discard page
  | slabFree t o r =>
    obtain ⟨ho, heq⟩ := Option.ite_none_right_eq_some.mp hs
    obtain rfl := Option.some.inj heq
    exact (hback o).threadFree (h.from_user ho) t r
  | directFree o r =>
    obtain ⟨ho, heq⟩ := Option.ite_none_right_eq_some.mp hs
    obtain rfl := Option.some.inj heq
    exact (hback o).slabFreeOne (h.from_user ho) r
  | tlsFlush t r =>
    obtain rfl := Option.some.inj hs
    exact (hth.takeTls t).flush (h.take_tls t) (hth (.tls t) (by simp)) r
  | poolFree o =>
    obtain ⟨⟨ho, -⟩, heq⟩ := Option.ite_none_right_eq_some.mp hs
    obtain rfl := Option.some.inj heq
    have hone : SlabInv c ([o] ++ []) none (takeBack s o) := h.from_user ho
    apply (hback o).push .pool (by simp)
    · intro pl _
      by_cases hlimbo : pl = .limbo
      · subst hlimbo
        exact List.not_mem_nil
      · exact hone.limbo_apart pl hlimbo o (List.mem_singleton_self o)
    · intro pl hpl
      right
      cases pl <;> first | exact absurd rfl hpl | exact .inr rfl | exact .inl rfl
  | poolAlloc =>
    simp only [slabStep] at hs
    split at hs
    · cases hs
    · rename_i o rest ho
      split at hs
      · cases hs
      · obtain rfl := Option.some.inj hs
        apply hth.shorten
        intro pl hpl
        refine ⟨pl, hpl, ?_⟩
        cases pl <;> first | exact absurd rfl hpl | exact List.suffix_rfl | skip
        have hold : objsAt s [] (.pool : Place T) = o :: rest := ho
        rw [hold]
        exact List.suffix_cons o rest
  | poolTake t =>
    obtain ⟨-, heq⟩ := Option.ite_none_right_eq_some.mp hs
    obtain rfl := Option.some.inj heq
    apply hth.shorten
    intro pl hpl
    by_cases hchain : pl = .chain t
    · subst hchain
      exact ⟨.pool, by simp, by simp [objsAt]⟩
    · refine ⟨pl, hpl, ?_⟩
      cases pl <;> first | exact absurd rfl hpl | exact List.suffix_rfl | exact List.nil_suffix | skip
      rename_i u
      have hu : u ≠ t := fun hu => hchain (congrArg Place.chain hu)
      simp [objsAt, hu]
  | chainNext t r =>
    simp only [slabStep] at hs
    simp only [slabLinks]
    cases hchain : s.chain t with
    | nil =>
      rw [hchain] at hs
      cases hs
    | cons o rest =>
      rw [hchain] at hs
      obtain rfl := Option.some.inj hs
      have htaken : Threaded enc word { s with
          chain := Function.update s.chain t rest
          chainFree := Function.update s.chainFree t TlsFreelist.empty } := by
        apply hth.shorten
        intro pl hpl
        refine ⟨pl, hpl, ?_⟩
        cases pl <;> first | exact absurd rfl hpl | exact List.suffix_rfl | skip
        · rename_i u
          by_cases hu : u = t
          · subst hu
            simp [objsAt, hchain]
          · simp [objsAt, hu]
        · rename_i u
          by_cases hu : u = t
          · subst hu
            simp [objsAt, TlsFreelist.empty]
          · simp [objsAt, hu]
      obtain ⟨hcached, hlist⟩ := htaken.tlsCache ((h.take_chain hchain).take_chainFree t) (h.chainOk t)
        (hth (.chainFree t) (by simp)) r
      apply hcached.replace (.chainFree t)
      · have hput (k : SlabState T) (fl : TlsFreelist) :
            objsAt ({ k with chainFree := Function.update k.chainFree t fl } : SlabState T) []
              (.chainFree t) = fl.objs := by
          simp [objsAt]
        exact (hput _ _).symm ▸ hlist
      · intro pl hpl hne
        cases pl <;> first | exact absurd rfl hpl | rfl | skip
        rename_i u
        have hu : u ≠ t := fun hu => hne (congrArg Place.chainFree hu)
        simp [objsAt, hu]
  | chainEnd t r =>
    obtain ⟨-, heq⟩ := Option.ite_none_right_eq_some.mp hs
    obtain rfl := Option.some.inj heq
    have htaken : Threaded enc word
        { s with chainFree := Function.update s.chainFree t TlsFreelist.empty } := by
      apply hth.same_or_nil
      intro pl hpl
      by_cases hchain : pl = .chainFree t
      · subst hchain
        left
        simp [objsAt, TlsFreelist.empty]
      · right
        cases pl <;> first | exact absurd rfl hpl | rfl | skip
        rename_i u
        have hu : u ≠ t := fun hu => hchain (congrArg Place.chainFree hu)
        simp [objsAt, hu]
    exact htaken.flush (h.take_chainFree t) (hth (.chainFree t) (by simp)) r
  | sortPartial =>
    obtain rfl := Option.some.inj hs
    exact hth.same_or_nil fun pl _ => .inr (by cases pl <;> rfl)
  | shrink page =>
    obtain ⟨-, heq⟩ := Option.ite_none_right_eq_some.mp hs
    obtain rfl := Option.some.inj heq
    have hunlisted : Threaded enc word (removePartial s page) :=
      hth.same_or_nil fun pl _ => .inr (by cases pl <;> rfl)
    exact hunlisted.discard page

end Skp.Mm
