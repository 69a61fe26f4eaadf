import Skp.Mm.SlabInvariant

/-! # Moves of objects and pages

Each lemma takes one thing from where it is, or puts one thing where it goes. The steps of the cache are
composed of these. -/
namespace Skp.Mm
set_option autoImplicit false
open Skp.Foundations

variable {T : Type}
variable {c : CacheParams} {l : List Obj} {f : Option ℕ} {s : SlabState T} {p : ℕ} {t : T} {o : Obj}

/-! ## Objects -/

theorem SlabInv.rehouse {s' : SlabState T} {l' : List Obj} (h : SlabInv c l f s) (hpages : s'.pages = s.pages)
    (hdiscards : s'.discards = s.discards)
    (hplaced : Placed (objsAt s' l') (slabObjs c s.live))
    (htls : ∀ t, TlsOk (s'.tlsFree t)) (hchain : ∀ t, TlsOk (s'.chainFree t))
    (hheld : ∀ o, o ∈ s'.held ↔ Out s'.log o) (halt : Alternates s'.log) : SlabInv c l' f s' := by
  have hlive : s'.live = s.live := congrArg SlabPages.live hpages
  have hfree : s'.freelist = s.freelist := congrArg SlabPages.freelist hpages
  have hlockless : s'.locklessFreelist = s.locklessFreelist := congrArg SlabPages.locklessFreelist hpages
  exact
    { placed := by rw [hlive]; exact hplaced
      homeFree := by rw [hfree]; exact h.homeFree
      homeLockless := by rw [hlockless]; exact h.homeLockless
      tlsOk := htls
      chainOk := hchain
      pages := by rw [hpages]; exact h.pages
      held := hheld
      alternates := halt
      discards := by rw [hdiscards]; exact h.discards }

theorem SlabInv.perm {l' : List Obj} (h : SlabInv c l f s) (hl : l.Perm l') : SlabInv c l' f s := by
  refine h.rehouse rfl rfl ?_ h.tlsOk h.chainOk h.held h.alternates
  apply h.placed.move Place.limbo Place.user [] (by simp)
  · exact hl
  · exact List.Perm.refl _
  · intro pl hsrc hdst
    cases pl <;> first | rfl | exact absurd rfl hsrc

theorem SlabInv.from_user (h : SlabInv c l f s) (ho : o ∈ s.held) : SlabInv c (o :: l) f (takeBack s o) := by
  refine h.rehouse rfl rfl ?_ h.tlsOk h.chainOk ?_ ⟨(h.held o).mp ho, h.alternates⟩
  · apply h.placed.move Place.user Place.limbo [o] (by simp)
    · exact List.perm_cons_erase ho
    · exact List.Perm.refl _
    · intro pl hsrc hdst
      cases pl <;> first | rfl | exact absurd rfl hsrc | exact absurd rfl hdst
  · intro x
    have hnodup : s.held.Nodup := h.placed.nodup .user
    change x ∈ s.held.erase o ↔ x ≠ o ∧ Out s.log x
    rw [hnodup.mem_erase_iff, h.held x]

theorem SlabInv.to_user (h : SlabInv c (o :: l) f s) : SlabInv c l f (handOut s o) := by
  have hnot : o ∉ s.held := by
    intro ho
    cases h.placed.disjoint .user .limbo o ho List.mem_cons_self
  refine h.rehouse rfl rfl ?_ h.tlsOk h.chainOk ?_ ⟨fun hout => hnot ((h.held o).mpr hout), h.alternates⟩
  · apply h.placed.move Place.limbo Place.user [o] (by simp)
    · exact List.Perm.refl _
    · exact List.Perm.refl _
    · intro pl hsrc hdst
      cases pl <;> first | rfl | exact absurd rfl hsrc | exact absurd rfl hdst
  · intro x
    change x ∈ o :: s.held ↔ x = o ∨ Out s.log x
    rw [List.mem_cons, h.held x]

variable [DecidableEq T]

theorem tlsOk_update {g : T → TlsFreelist} {fl : TlsFreelist} (hg : ∀ t, TlsOk (g t))
    (hfl : TlsOk fl) (t t' : T) :
    TlsOk (Function.update g t fl t') := by
  by_cases heq : t' = t
  · rw [heq, Function.update_self]
    exact hfl
  · rw [Function.update_of_ne heq]
    exact hg t'

theorem SlabInv.take_tls (h : SlabInv c l f s) (t : T) :
    SlabInv c ((s.tlsFree t).objs ++ l) f
      { s with tlsFree := Function.update s.tlsFree t TlsFreelist.empty } := by
  refine h.rehouse rfl rfl ?_ (tlsOk_update h.tlsOk tlsOk_empty t) h.chainOk h.held h.alternates
  apply h.placed.move (Place.tls t) Place.limbo (s.tlsFree t).objs (by simp)
  · simp [objsAt, TlsFreelist.empty]
  · exact List.Perm.refl _
  · intro pl hsrc hdst
    cases pl with
    | tls t' =>
      have hne : t' ≠ t := fun heq => hsrc (heq ▸ rfl)
      simp [objsAt, Function.update_of_ne hne]
    | limbo => exact absurd rfl hdst
    | _ => rfl

theorem SlabInv.put_tls {fl : TlsFreelist} (h : SlabInv c (fl.objs ++ l) f s)
    (hempty : (s.tlsFree t).objs = [])
    (hfl : TlsOk fl) : SlabInv c l f { s with tlsFree := Function.update s.tlsFree t fl } := by
  refine h.rehouse rfl rfl ?_ (tlsOk_update h.tlsOk hfl t) h.chainOk h.held h.alternates
  apply h.placed.move Place.limbo (Place.tls t) fl.objs (by simp)
  · exact List.Perm.refl _
  · simp [objsAt, hempty]
  · intro pl hsrc hdst
    cases pl with
    | tls t' =>
      have hne : t' ≠ t := fun heq => hdst (heq ▸ rfl)
      simp [objsAt, Function.update_of_ne hne]
    | limbo => exact absurd rfl hsrc
    | _ => rfl

theorem SlabInv.take_chainFree (h : SlabInv c l f s) (t : T) :
    SlabInv c ((s.chainFree t).objs ++ l) f
      { s with chainFree := Function.update s.chainFree t TlsFreelist.empty } := by
  refine h.rehouse rfl rfl ?_ h.tlsOk (tlsOk_update h.chainOk tlsOk_empty t) h.held h.alternates
  apply h.placed.move (Place.chainFree t) Place.limbo (s.chainFree t).objs (by simp)
  · simp [objsAt, TlsFreelist.empty]
  · exact List.Perm.refl _
  · intro pl hsrc hdst
    cases pl with
    | chainFree t' =>
      have hne : t' ≠ t := fun heq => hsrc (heq ▸ rfl)
      simp [objsAt, Function.update_of_ne hne]
    | limbo => exact absurd rfl hdst
    | _ => rfl

theorem SlabInv.put_chainFree {fl : TlsFreelist} (h : SlabInv c (fl.objs ++ l) f s)
    (hempty : (s.chainFree t).objs = []) (hfl : TlsOk fl) :
    SlabInv c l f { s with chainFree := Function.update s.chainFree t fl } := by
  refine h.rehouse rfl rfl ?_ h.tlsOk (tlsOk_update h.chainOk hfl t) h.held h.alternates
  apply h.placed.move Place.limbo (Place.chainFree t) fl.objs (by simp)
  · exact List.Perm.refl _
  · simp [objsAt, hempty]
  · intro pl hsrc hdst
    cases pl with
    | chainFree t' =>
      have hne : t' ≠ t := fun heq => hdst (heq ▸ rfl)
      simp [objsAt, Function.update_of_ne hne]
    | limbo => exact absurd rfl hsrc
    | _ => rfl

theorem SlabInv.take_chain {rest : List Obj} (h : SlabInv c l f s) (ho : s.chain t = o :: rest) :
    SlabInv c (o :: l) f { s with chain := Function.update s.chain t rest } := by
  refine h.rehouse rfl rfl ?_ h.tlsOk h.chainOk h.held h.alternates
  apply h.placed.move (Place.chain t) Place.limbo [o] (by simp)
  · simp [objsAt, ho]
  · exact List.Perm.refl _
  · intro pl hsrc hdst
    cases pl with
    | chain t' =>
      have hne : t' ≠ t := fun heq => hsrc (heq ▸ rfl)
      simp [objsAt, Function.update_of_ne hne]
    | limbo => exact absurd rfl hdst
    | _ => rfl

omit [DecidableEq T] in
theorem SlabInv.take_pool {rest : List Obj} (h : SlabInv c l f s) (ho : s.pool = o :: rest) :
    SlabInv c (o :: l) f { s with pool := rest } := by
  refine h.rehouse rfl rfl ?_ h.tlsOk h.chainOk h.held h.alternates
  apply h.placed.move Place.pool Place.limbo [o] (by simp)
  · simp [objsAt, ho]
  · exact List.Perm.refl _
  · intro pl hsrc hdst
    cases pl <;> first | rfl | exact absurd rfl hsrc | exact absurd rfl hdst

omit [DecidableEq T] in
theorem SlabInv.put_pool (h : SlabInv c (o :: l) f s) : SlabInv c l f { s with pool := o :: s.pool } := by
  refine h.rehouse rfl rfl ?_ h.tlsOk h.chainOk h.held h.alternates
  apply h.placed.move Place.limbo Place.pool [o] (by simp)
  · exact List.Perm.refl _
  · exact List.Perm.refl _
  · intro pl hsrc hdst
    cases pl <;> first | rfl | exact absurd rfl hsrc | exact absurd rfl hdst

theorem SlabInv.pool_to_chain (h : SlabInv c l f s) (hempty : s.chain t = []) :
    SlabInv c l f { s with pool := [], chain := Function.update s.chain t s.pool } := by
  refine h.rehouse rfl rfl ?_ h.tlsOk h.chainOk h.held h.alternates
  apply h.placed.move Place.pool (Place.chain t) s.pool (by simp)
  · simp [objsAt]
  · simp [objsAt, hempty]
  · intro pl hsrc hdst
    cases pl with
    | chain t' =>
      have hne : t' ≠ t := fun heq => hdst (heq ▸ rfl)
      simp [objsAt, Function.update_of_ne hne]
    | pool => exact absurd rfl hsrc
    | _ => rfl

/-! ## Pages -/

section
omit [DecidableEq T]

theorem PagesOk.change {v w : SlabPages T} {f f' : Option ℕ} (h : PagesOk c f v)
    (hf : ∀ q, f = some q → q = p) (hf' : ∀ q, f' = some q → q = p) (hsame : ∀ q, q ≠ p → SamePage v w q)
    (hok : f' = none → PageOk c w p) (hfloat : f' = some p → Afloat c w p)
    (hpartials : w.partials.Nodup) (hfull : w.full.Nodup) (hnr : w.nrPartial = w.partials.length)
    (hloads : LoadsOk c w) : PagesOk c f' w where
  each q hq := by
    by_cases heq : q = p
    · subst heq
      apply hok
      cases hc : f' with
      | none => rfl
      | some q' => exact absurd (by rw [hc, hf' q' hc]) hq
    · exact (h.each q fun hfq => heq (hf q hfq)).congr (hsame q heq)
  float q hq := by
    obtain rfl := hf' q hq
    exact hfloat hq
  partialsNodup := hpartials
  fullNodup := hfull
  nrPartial := hnr
  loads := hloads

theorem SlabInv.relist {s' : SlabState T} {f' : Option ℕ} (h : SlabInv c l f s)
    (hobjs : objsAt s' l = objsAt s l)
    (hlive : s'.live = s.live) (htls : s'.tlsFree = s.tlsFree) (hchain : s'.chainFree = s.chainFree)
    (hlog : s'.log = s.log) (hdiscards : s'.discards = s.discards) (hpages : PagesOk c f' s'.pages) :
    SlabInv c l f' s' where
  placed := by rw [hobjs, hlive]; exact h.placed
  homeFree p o ho := by
    have heq : s'.freelist p = s.freelist p := congrFun hobjs (.free p)
    exact h.homeFree p o (heq ▸ ho)
  homeLockless p o ho := by
    have heq : s'.locklessFreelist p = s.locklessFreelist p := congrFun hobjs (.lockless p)
    exact h.homeLockless p o (heq ▸ ho)
  tlsOk := by rw [htls]; exact h.tlsOk
  chainOk := by rw [hchain]; exact h.chainOk
  pages := hpages
  held := by
    have heq : s'.held = s.held := congrFun hobjs .user
    rw [heq, hlog]
    exact h.held
  alternates := by rw [hlog]; exact h.alternates
  discards := by rw [hdiscards]; exact h.discards

theorem SlabInv.page (h : SlabInv c l none s) (p : ℕ) : PageOk c s.pages p := h.pages.each p (by simp)

theorem SlabInv.afloat (h : SlabInv c l (some p) s) : Afloat c s.pages p := h.pages.float p rfl

theorem loadsOk_congr {v w : SlabPages T} (h : LoadsOk c v) (htls : w.tlsPage = v.tlsPage)
    (hslab : w.slabPage = v.slabPage) : LoadsOk c w where
  once := by rw [htls]; exact h.once
  shared := by rw [hslab]; exact h.shared
  threads := by rw [htls]; exact h.threads

theorem SlabInv.unlist_partials (h : SlabInv c l none s) (hp : p ∈ s.partials) :
    SlabInv c l (some p) (removePartial s p) := by
  have hpage := h.page p
  obtain ⟨hlive, hfrozen, hne⟩ := hpage.partials.mp hp
  have hnodup : s.partials.Nodup := h.pages.partialsNodup
  have hlen : s.nrPartial = s.partials.length := h.pages.nrPartial
  refine h.relist (funext fun pl => by cases pl <;> rfl) rfl rfl rfl rfl rfl ?_
  apply h.pages.change (p := p) (by simp) (by simp)
  · intro q hq
    exact ⟨Iff.rfl, rfl, rfl, rfl, rfl, List.mem_erase_of_ne hq, Iff.rfl, Iff.rfl⟩
  · simp
  · intro _
    exact
      { live := hlive
        inuse := hpage.inuse hlive
        frozen := hfrozen
        lockless := hpage.unfrozen hlive hfrozen
        partials := hnodup.not_mem_erase
        full := fun hfull => hne (hpage.full.mp hfull).2.2
        loaded := fun hl => Bool.noConfusion (hfrozen.symm.trans (hpage.loaded.mpr hl).2) }
  · exact hnodup.erase p
  · exact h.pages.fullNodup
  · change s.nrPartial - 1 = (s.partials.erase p).length
    rw [List.length_erase_of_mem hp, hlen]
  · exact loadsOk_congr h.pages.loads rfl rfl

theorem SlabInv.unlist_full (h : SlabInv c l none s) (hp : p ∈ s.full) :
    SlabInv c l (some p) (removeFull s p) := by
  have hpage := h.page p
  obtain ⟨hlive, hfrozen, hnil⟩ := hpage.full.mp hp
  have hnodup : s.full.Nodup := h.pages.fullNodup
  refine h.relist (funext fun pl => by cases pl <;> rfl) rfl rfl rfl rfl rfl ?_
  apply h.pages.change (p := p) (by simp) (by simp)
  · intro q hq
    exact ⟨Iff.rfl, rfl, rfl, rfl, rfl, Iff.rfl, List.mem_erase_of_ne hq, Iff.rfl⟩
  · simp
  · intro _
    exact
      { live := hlive
        inuse := hpage.inuse hlive
        frozen := hfrozen
        lockless := hpage.unfrozen hlive hfrozen
        partials := fun hpart => (hpage.partials.mp hpart).2.2 hnil
        full := hnodup.not_mem_erase
        loaded := fun hl => Bool.noConfusion (hfrozen.symm.trans (hpage.loaded.mpr hl).2) }
  · exact h.pages.partialsNodup
  · exact hnodup.erase p
  · exact h.pages.nrPartial
  · exact loadsOk_congr h.pages.loads rfl rfl

theorem SlabInv.list_partials (h : SlabInv c l (some p) s) (hne : s.freelist p ≠ []) {partials : List ℕ}
    (hperm : partials.Perm (p :: s.partials)) :
    SlabInv c l none { s with nrPartial := s.nrPartial + 1, partials := partials } := by
  have hf := h.afloat
  have hlen : s.nrPartial = s.partials.length := h.pages.nrPartial
  refine h.relist (funext fun pl => by cases pl <;> rfl) rfl rfl rfl rfl rfl ?_
  apply h.pages.change (p := p) (by simp) (by simp)
  · intro q hq
    refine ⟨Iff.rfl, rfl, rfl, rfl, rfl, ?_, Iff.rfl, Iff.rfl⟩
    exact hperm.mem_iff.trans (by simp [SlabState.pages, hq])
  · intro _
    exact
      { inuse := fun _ => hf.inuse
        unfrozen := fun _ _ => hf.lockless
        partials := ⟨fun _ => ⟨hf.live, hf.frozen, hne⟩, fun _ => hperm.mem_iff.mpr List.mem_cons_self⟩
        full := ⟨fun hp => absurd hp hf.full, fun hp => absurd hp.2.2 hne⟩
        loaded := ⟨fun hp => Bool.noConfusion (hf.frozen.symm.trans hp.2), fun hp => absurd hp hf.loaded⟩ }
  · simp
  · exact hperm.nodup_iff.mpr (List.nodup_cons.mpr ⟨hf.partials, h.pages.partialsNodup⟩)
  · exact h.pages.fullNodup
  · change s.nrPartial + 1 = partials.length
    rw [hperm.length_eq, List.length_cons, hlen]
  · exact loadsOk_congr h.pages.loads rfl rfl

theorem SlabInv.list_full (h : SlabInv c l (some p) s) (hnil : s.freelist p = []) :
    SlabInv c l none (addFull s p) := by
  have hf := h.afloat
  refine h.relist (funext fun pl => by cases pl <;> rfl) rfl rfl rfl rfl rfl ?_
  apply h.pages.change (p := p) (by simp) (by simp)
  · intro q hq
    refine ⟨Iff.rfl, rfl, rfl, rfl, rfl, Iff.rfl, ?_, Iff.rfl⟩
    simp [addFull, SlabState.pages, hq]
  · intro _
    exact
      { inuse := fun _ => hf.inuse
        unfrozen := fun _ _ => hf.lockless
        partials := ⟨fun hp => absurd hp hf.partials, fun hp => absurd hnil hp.2.2⟩
        full := ⟨fun _ => ⟨hf.live, hf.frozen, hnil⟩, fun _ => List.mem_cons_self⟩
        loaded := ⟨fun hp => Bool.noConfusion (hf.frozen.symm.trans hp.2), fun hp => absurd hp hf.loaded⟩ }
  · simp
  · exact h.pages.partialsNodup
  · exact List.nodup_cons.mpr ⟨hf.full, h.pages.fullNodup⟩
  · exact h.pages.nrPartial
  · exact loadsOk_congr h.pages.loads rfl rfl

theorem SlabInv.reorder_partials (h : SlabInv c l none s) {partials : List ℕ}
    (hperm : partials.Perm s.partials) :
    SlabInv c l none { s with partials := partials } := by
  refine h.relist (funext fun pl => by cases pl <;> rfl) rfl rfl rfl rfl rfl ?_
  have hsame : ∀ q, SamePage s.pages ({ s with partials := partials } : SlabState T).pages q := fun q =>
    ⟨Iff.rfl, rfl, rfl, rfl, rfl, hperm.mem_iff, Iff.rfl, Iff.rfl⟩
  exact
    { each := fun q hq => (h.pages.each q hq).congr (hsame q)
      float := fun q hq => absurd hq (by simp)
      partialsNodup := hperm.nodup_iff.mpr h.pages.partialsNodup
      fullNodup := h.pages.fullNodup
      nrPartial := h.pages.nrPartial.trans hperm.length_eq.symm
      loads := loadsOk_congr h.pages.loads rfl rfl }

end

/-! ## Loading and unloading -/

omit [DecidableEq T] in
theorem loaded_of_loadedPage (hl : loadedPage c s t = some p) : Loaded s.pages p := by
  unfold loadedPage at hl
  split at hl
  · exact Or.inl ⟨t, hl⟩
  · exact Or.inr hl

omit [DecidableEq T] in
theorem SlabInv.loaded_frozen (h : SlabInv c l none s) (hl : loadedPage c s t = some p) :
    p ∈ s.live ∧ s.frozen p = true := (h.page p).loaded.mpr (loaded_of_loadedPage hl)

theorem loaded_update_some {g : T → Option ℕ} (hnone : g t = none) (p q : ℕ) :
    (∃ t', Function.update g t (some p) t' = some q) ↔ q = p ∨ ∃ t', g t' = some q := by
  constructor
  · intro hq
    obtain ⟨t', ht'⟩ := hq
    by_cases heq : t' = t
    · rw [heq, Function.update_self] at ht'
      exact Or.inl (Option.some.inj ht').symm
    · rw [Function.update_of_ne heq] at ht'
      exact Or.inr ⟨t', ht'⟩
  · intro hq
    cases hq with
    | inl heq => exact ⟨t, by rw [Function.update_self, heq]⟩
    | inr hq =>
      obtain ⟨t', ht'⟩ := hq
      have hne : t' ≠ t := by
        intro heq
        rw [heq, hnone] at ht'
        cases ht'
      exact ⟨t', by rw [Function.update_of_ne hne]; exact ht'⟩

theorem loaded_update_none {g : T → Option ℕ} (hsome : g t = some p)
    (honce : ∀ t', g t' = some p → t' = t) (q : ℕ) :
    (∃ t', Function.update g t none t' = some q) ↔ q ≠ p ∧ ∃ t', g t' = some q := by
  constructor
  · intro hq
    obtain ⟨t', ht'⟩ := hq
    have hne : t' ≠ t := by
      intro heq
      rw [heq, Function.update_self] at ht'
      cases ht'
    rw [Function.update_of_ne hne] at ht'
    exact ⟨fun heq => hne (honce t' (heq ▸ ht')), t', ht'⟩
  · intro hq
    obtain ⟨hqp, t', ht'⟩ := hq
    have hne : t' ≠ t := by
      intro heq
      rw [heq, hsome] at ht'
      exact hqp (Option.some.inj ht').symm
    exact ⟨t', by rw [Function.update_of_ne hne]; exact ht'⟩

theorem loaded_setLoaded_some (h : LoadsOk c s.pages) (hnone : loadedPage c s t = none) (q : ℕ) :
    Loaded (setLoaded c s t (some p)).pages q ↔ q = p ∨ Loaded s.pages q := by
  unfold loadedPage at hnone
  unfold setLoaded
  split
  · rename_i hc
    rw [if_pos hc] at hnone
    have hslab : s.slabPage = none := h.shared hc
    simp [Loaded, SlabState.pages, loaded_update_some hnone, hslab]
  · rename_i hc
    rw [if_neg hc] at hnone
    have htls : ∀ t, s.tlsPage t = none := h.threads (by simpa using hc)
    simp [Loaded, SlabState.pages, htls, hnone, eq_comm]

theorem loaded_setLoaded_none (h : LoadsOk c s.pages) (hsome : loadedPage c s t = some p) (q : ℕ) :
    Loaded (setLoaded c s t none).pages q ↔ q ≠ p ∧ Loaded s.pages q := by
  unfold loadedPage at hsome
  unfold setLoaded
  split
  · rename_i hc
    rw [if_pos hc] at hsome
    have hslab : s.slabPage = none := h.shared hc
    simp [Loaded, SlabState.pages, loaded_update_none hsome (fun t' ht' => h.once t' t p ht' hsome), hslab]
  · rename_i hc
    rw [if_neg hc] at hsome
    have htls : ∀ t, s.tlsPage t = none := h.threads (by simpa using hc)
    simp only [Loaded, SlabState.pages, htls, hsome]
    simp
    tauto

theorem loadsOk_setLoaded_some (h : LoadsOk c s.pages) (hp : ¬ Loaded s.pages p) (t : T) :
    LoadsOk c (setLoaded c s t (some p)).pages := by
  unfold setLoaded
  split
  · rename_i hc
    refine ⟨?_, h.shared, fun hc' => absurd hc (by simp [hc'])⟩
    intro t₁ t₂ q h₁ h₂
    simp only [SlabState.pages, Function.update_apply] at h₁ h₂
    split at h₁ <;> split at h₂
    · rename_i heq₁ heq₂
      rw [heq₁, heq₂]
    · exact absurd (Or.inl ⟨t₂, Option.some.inj h₁ ▸ h₂⟩) hp
    · exact absurd (Or.inl ⟨t₁, Option.some.inj h₂ ▸ h₁⟩) hp
    · exact h.once t₁ t₂ q h₁ h₂
  · rename_i hc
    exact ⟨h.once, fun hc' => absurd hc' hc, h.threads⟩

theorem loadsOk_setLoaded_none (h : LoadsOk c s.pages) (t : T) : LoadsOk c (setLoaded c s t none).pages := by
  unfold setLoaded
  split
  · rename_i hc
    refine ⟨?_, h.shared, fun hc' => absurd hc (by simp [hc'])⟩
    intro t₁ t₂ q h₁ h₂
    simp only [SlabState.pages, Function.update_apply] at h₁ h₂
    split at h₁
    · cases h₁
    · split at h₂
      · cases h₂
      · exact h.once t₁ t₂ q h₁ h₂
  · exact ⟨h.once, fun _ => rfl, h.threads⟩

/-- What `setLoaded` leaves alone. -/
theorem setLoaded_pages (c : CacheParams) (s : SlabState T) (t : T) (pg : Option ℕ) : ∃ tls shared,
    setLoaded c s t pg = { s with tlsPage := tls, slabPage := shared } := by
  unfold setLoaded
  split
  · exact ⟨_, s.slabPage, rfl⟩
  · exact ⟨s.tlsPage, _, rfl⟩

theorem SlabInv.load (h : SlabInv c l (some p) s) (hnone : loadedPage c s t = none) :
    SlabInv c l none (lockAndFreezeSlab c s t p) := by
  have hf := h.afloat
  have hloads : LoadsOk c ({ s with frozen := Function.update s.frozen p true } : SlabState T).pages :=
    loadsOk_congr h.pages.loads rfl rfl
  have hloaded : ∀ q, Loaded (lockAndFreezeSlab c s t p).pages q ↔ q = p ∨ Loaded s.pages q :=
    loaded_setLoaded_some hloads hnone
  have hloads' : LoadsOk c (lockAndFreezeSlab c s t p).pages := loadsOk_setLoaded_some hloads hf.loaded t
  obtain ⟨tls, shared, heq⟩ :=
    setLoaded_pages c { s with frozen := Function.update s.frozen p true } t (some p)
  rw [lockAndFreezeSlab, heq] at hloaded hloads' ⊢
  refine h.relist (funext fun pl => by cases pl <;> rfl) rfl rfl rfl rfl rfl ?_
  apply h.pages.change (p := p) (by simp) (by simp)
  · intro q hq
    refine ⟨Iff.rfl, rfl, rfl, rfl, Function.update_of_ne hq _ _, Iff.rfl, Iff.rfl, ?_⟩
    rw [hloaded q]
    simp [hq]
  · intro _
    have hfrozen : Function.update s.frozen p true p = true := Function.update_self p true s.frozen
    exact
      { inuse := fun _ => hf.inuse
        unfrozen := fun _ hp => Bool.noConfusion (hp.symm.trans hfrozen)
        partials := ⟨fun hp => absurd hp hf.partials, fun hp => Bool.noConfusion (hp.2.1.symm.trans hfrozen)⟩
        full := ⟨fun hp => absurd hp hf.full, fun hp => Bool.noConfusion (hp.2.1.symm.trans hfrozen)⟩
        loaded := ⟨fun _ => (hloaded p).mpr (Or.inl rfl), fun _ => ⟨hf.live, hfrozen⟩⟩ }
  · simp
  · exact h.pages.partialsNodup
  · exact h.pages.fullNodup
  · exact h.pages.nrPartial
  · exact hloads'

theorem SlabInv.unload (h : SlabInv c l none s) (hp : loadedPage c s t = some p)
    (hempty : s.locklessFreelist p = []) :
    SlabInv c l (some p)
      { setLoaded c s t none with frozen := Function.update (setLoaded c s t none).frozen p false } := by
  have hpage := h.page p
  obtain ⟨hlive, hfrozen⟩ := h.loaded_frozen hp
  have hloaded := loaded_setLoaded_none h.pages.loads hp
  have hloads := loadsOk_setLoaded_none h.pages.loads t
  obtain ⟨tls, shared, heq⟩ := setLoaded_pages c s t none
  rw [heq] at hloaded hloads ⊢
  refine h.relist (funext fun pl => by cases pl <;> rfl) rfl rfl rfl rfl rfl ?_
  apply h.pages.change (p := p) (by simp) (by simp)
  · intro q hq
    refine ⟨Iff.rfl, rfl, rfl, rfl, Function.update_of_ne hq _ _, Iff.rfl, Iff.rfl, ?_⟩
    exact (hloaded q).trans (and_iff_right hq)
  · simp
  · intro _
    exact
      { live := hlive
        inuse := hpage.inuse hlive
        frozen := by simp [SlabState.pages]
        lockless := hempty
        partials := fun hpart => Bool.noConfusion ((hpage.partials.mp hpart).2.1.symm.trans hfrozen)
        full := fun hfull => Bool.noConfusion ((hpage.full.mp hfull).2.1.symm.trans hfrozen)
        loaded := fun hl => ((hloaded p).mp hl).1 rfl }
  · exact h.pages.partialsNodup
  · exact h.pages.fullNodup
  · exact h.pages.nrPartial
  · exact loadsOk_congr hloads rfl rfl

/-! ## Pages come and go -/

theorem home_update {g : ℕ → List Obj} {m : List Obj} (hg : ∀ p o, o ∈ g p → o.1 = p)
    (hm : ∀ o, o ∈ m → o.1 = p) (q : ℕ)
    (o : Obj) (ho : o ∈ Function.update g p m q) : o.1 = q := by
  by_cases heq : q = p
  · subst heq
    rw [Function.update_self] at ho
    exact hm o ho
  · rw [Function.update_of_ne heq] at ho
    exact hg q o ho

omit [DecidableEq T] in
theorem SlabInv.new (h : SlabInv c l none s) (hp : p ∉ s.live) : SlabInv c l (some p) (newSlab c s p) := by
  have hpage := h.page p
  obtain ⟨hfree, hlockless⟩ := h.dead_empty hp
  have hmem : ∀ o : Obj, o ∈ ((List.range c.objects).map fun i => (p, i)) ↔ o.1 = p ∧ o.2 < c.objects := by
    intro o
    constructor
    · intro ho
      obtain ⟨i, hi, rfl⟩ := List.mem_map.mp ho
      exact ⟨rfl, List.mem_range.mp hi⟩
    · intro ho
      exact List.mem_map.mpr ⟨o.2, List.mem_range.mpr ho.2, by rw [← ho.1]⟩
  have hnodup : ((List.range c.objects).map fun i => (p, i)).Nodup :=
    List.nodup_range.map fun i j hij => (Prod.ext_iff.mp hij).2
  refine ⟨?_, ?_, ?_, h.tlsOk, h.chainOk, ?_, h.held, h.alternates, h.discards⟩
  · have hdst : objsAt (newSlab c s p) l (.free p) = (List.range c.objects).map fun i => (p, i) :=
      Function.update_self p _ s.freelist
    apply h.placed.arrive (Place.free p)
    · exact hfree
    · rw [hdst]
      exact hnodup
    · intro o ho hU
      rw [hdst, hmem] at ho
      exact hp (ho.1 ▸ hU.1)
    · intro pl hne
      cases pl with
      | free q =>
        have hq : q ≠ p := fun heq => hne (heq ▸ rfl)
        exact Function.update_of_ne hq _ _
      | lockless q =>
        by_cases heq : q = p
        · rw [heq]
          exact (Function.update_self p [] s.locklessFreelist).trans hlockless.symm
        · exact Function.update_of_ne heq _ _
      | _ => rfl
    · intro o
      rw [hdst, hmem]
      change o.1 ∈ insert p s.live ∧ _ ↔ (o.1 ∈ s.live ∧ o.2 < c.objects) ∨ _
      rw [Finset.mem_insert]
      tauto
  · exact home_update h.homeFree fun o ho => ((hmem o).mp ho).1
  · exact home_update h.homeLockless fun o ho => absurd ho List.not_mem_nil
  · apply h.pages.change (p := p) (by simp) (by simp)
    · intro q hq
      refine ⟨?_, Function.update_of_ne hq _ _, Function.update_of_ne hq _ _, Function.update_of_ne hq _ _,
        Function.update_of_ne hq _ _, Iff.rfl, Iff.rfl, Iff.rfl⟩
      exact Finset.mem_insert.trans (or_iff_right hq)
    · simp
    · intro _
      exact
        { live := Finset.mem_insert_self p s.live
          inuse := by simp [SlabState.pages, newSlab]
          frozen := by simp [SlabState.pages, newSlab]
          lockless := by simp [SlabState.pages, newSlab]
          partials := fun hpart => hp (hpage.partials.mp hpart).1
          full := fun hfull => hp (hpage.full.mp hfull).1
          loaded := fun hl => hp (hpage.loaded.mpr hl).1 }
    · exact h.pages.partialsNodup
    · exact h.pages.fullNodup
    · exact h.pages.nrPartial
    · exact loadsOk_congr h.pages.loads rfl rfl

omit [DecidableEq T] in
theorem SlabInv.discard (h : SlabInv c l (some p) s) (hinuse : s.inuse p = 0) :
    SlabInv c l none (discardSlab s p) := by
  have hf := h.afloat
  obtain ⟨hnodup, hhome⟩ := h.free_objs p
  have hlen : (s.freelist p).length = c.objects := by
    have hsum : s.inuse p + (s.freelist p).length = c.objects := hf.inuse
    omega
  have hall := page_objs_all hnodup hhome hlen
  refine ⟨?_, ?_, ?_, h.tlsOk, h.chainOk, ?_, h.held, h.alternates, ?_⟩
  · apply h.placed.leave (Place.free p)
    · exact Function.update_self p [] s.freelist
    · intro pl hne
      cases pl with
      | free q =>
        have hq : q ≠ p := fun heq => hne (heq ▸ rfl)
        exact Function.update_of_ne hq _ _
      | lockless q =>
        by_cases heq : q = p
        · rw [heq]
          exact (Function.update_self p [] s.locklessFreelist).trans hf.lockless.symm
        · exact Function.update_of_ne heq _ _
      | _ => rfl
    · intro o
      change o.1 ∈ s.live.erase p ∧ _ ↔ (o.1 ∈ s.live ∧ o.2 < c.objects) ∧ o ∉ s.freelist p
      rw [hall, Finset.mem_erase]
      tauto
  · exact home_update h.homeFree fun o ho => absurd ho List.not_mem_nil
  · exact home_update h.homeLockless fun o ho => absurd ho List.not_mem_nil
  · have hdead : p ∉ s.live.erase p := Finset.notMem_erase p s.live
    apply h.pages.change (p := p) (by simp) (by simp)
    · intro q hq
      refine ⟨?_, Function.update_of_ne hq _ _, Function.update_of_ne hq _ _,
        Function.update_of_ne hq _ _, rfl,
        Iff.rfl, Iff.rfl, Iff.rfl⟩
      exact Finset.mem_erase.trans (and_iff_right hq)
    · intro _
      exact
        { inuse := fun hp => absurd hp hdead
          unfrozen := fun hp => absurd hp hdead
          partials := ⟨fun hp => absurd hp hf.partials, fun hp => absurd hp.1 hdead⟩
          full := ⟨fun hp => absurd hp hf.full, fun hp => absurd hp.1 hdead⟩
          loaded := ⟨fun hp => absurd hp.1 hdead, fun hp => absurd hp hf.loaded⟩ }
    · simp
    · exact h.pages.partialsNodup
    · exact h.pages.fullNodup
    · exact h.pages.nrPartial
    · exact loadsOk_congr h.pages.loads rfl rfl
  · intro d hd
    cases List.mem_cons.mp hd with
    | inl heq =>
      rw [heq]
      exact ⟨hnodup, hall⟩
    | inr hd => exact h.discards d hd

/-! ## Objects of a page -/

section
omit [DecidableEq T]

theorem SlabInv.limbo_le {objs : List Obj} (h : SlabInv c (objs ++ l) f s) (hhome : ∀ o, o ∈ objs → o.1 = p)
    (hsum : s.inuse p + (s.freelist p).length = c.objects) : objs.length ≤ s.inuse p := by
  have hlimbo : (objs ++ l).Nodup := h.placed.nodup .limbo
  have hin : ∀ o, o ∈ objs → o ∈ objsAt s (objs ++ l) .limbo := fun o ho => List.mem_append_left l ho
  have hnodup : (objs ++ s.freelist p).Nodup := by
    rw [List.nodup_append]
    refine ⟨(List.nodup_append.mp hlimbo).1, (h.free_objs p).1, fun a ha b hb heq => ?_⟩
    cases h.placed.disjoint .limbo (.free p) a (hin a ha) (heq ▸ hb)
  have hle := page_objs_le hnodup (p := p) (n := c.objects) fun o ho => by
    cases List.mem_append.mp ho with
    | inl ho => exact ⟨hhome o ho, (h.live_of_mem .limbo (hin o ho)).2⟩
    | inr ho => exact (h.free_objs p).2 o ho
  rw [List.length_append] at hle
  omega

/-- `freelist_free` on a page that the step has in its hands, that is frozen, or that is partial already. -/
theorem SlabInv.freelist_free {objs : List Obj} (h : SlabInv c (objs ++ l) f s)
    (hhome : ∀ o, o ∈ objs → o.1 = p)
    (hlive : p ∈ s.live) (hcase : f = some p ∨ (f = none ∧ (s.frozen p = true ∨ s.freelist p ≠ []))) :
    SlabInv c l f (freelistFree s p objs objs.length) := by
  have hsum : s.inuse p + (s.freelist p).length = c.objects := by
    cases hcase with
    | inl hf => exact (h.pages.float p hf).inuse
    | inr hf => exact (h.pages.each p (by simp [hf.1])).inuse hlive
  have hle := h.limbo_le hhome hsum
  have hfree : (freelistFree s p objs objs.length).freelist p = objs ++ s.freelist p := by simp [freelistFree]
  have hinuse : (freelistFree s p objs objs.length).inuse p = s.inuse p - objs.length := by
    simp [freelistFree]
  have hsum' : (freelistFree s p objs objs.length).inuse p +
      ((freelistFree s p objs objs.length).freelist p).length =
      c.objects := by
    rw [hfree, hinuse, List.length_append]
    omega
  refine ⟨?_, ?_, h.homeLockless, h.tlsOk, h.chainOk, ?_, h.held, h.alternates, h.discards⟩
  · apply h.placed.move Place.limbo (Place.free p) objs (by simp)
    · exact List.Perm.refl _
    · simp [objsAt, freelistFree]
    · intro pl hsrc hdst
      cases pl with
      | free q =>
        have hq : q ≠ p := fun heq => hdst (heq ▸ rfl)
        exact Function.update_of_ne hq _ _
      | limbo => exact absurd rfl hsrc
      | _ => rfl
  · apply home_update h.homeFree
    intro o ho
    cases List.mem_append.mp ho with
    | inl ho => exact hhome o ho
    | inr ho => exact h.homeFree p o ho
  · have hf : ∀ q, f = some q → q = p := by
      intro q hq
      cases hcase with
      | inl hf => exact Option.some.inj (hq.symm.trans hf)
      | inr hf => exact absurd (hq.symm.trans hf.1) (by simp)
    apply h.pages.change (p := p) hf hf
    · intro q hq
      exact ⟨Iff.rfl, Function.update_of_ne hq _ _, Function.update_of_ne hq _ _, rfl, rfl, Iff.rfl,
        Iff.rfl, Iff.rfl⟩
    · intro hnone
      have hpage := h.pages.each p (by simp [hnone])
      -- the page's list does not change: a frozen page is on none, a page with free objects stays partial
      have hkeep : s.frozen p = false → (s.freelist p ≠ [] ∧ objs ++ s.freelist p ≠ []) := by
        intro hunfrozen
        have hne : s.freelist p ≠ [] := by
          rcases hcase with hf | ⟨-, hfrozen | hne⟩
          · simp [hnone] at hf
          · exact Bool.noConfusion (hunfrozen.symm.trans hfrozen)
          · exact hne
        exact ⟨hne, fun hnil => hne (List.append_eq_nil_iff.mp hnil).2⟩
      have hpartials := hpage.partials
      have hfull := hpage.full
      exact
        { inuse := fun _ => hsum'
          unfrozen := hpage.unfrozen
          partials := by
            refine hpartials.trans (and_congr_right fun _ => and_congr_right fun hunfrozen => ?_)
            change s.freelist p ≠ [] ↔ (freelistFree s p objs objs.length).freelist p ≠ []
            rw [hfree]
            exact iff_of_true (hkeep hunfrozen).1 (hkeep hunfrozen).2
          full := by
            refine hfull.trans (and_congr_right fun _ => and_congr_right fun hunfrozen => ?_)
            change s.freelist p = [] ↔ (freelistFree s p objs objs.length).freelist p = []
            rw [hfree]
            exact iff_of_false (hkeep hunfrozen).1 (hkeep hunfrozen).2
          loaded := hpage.loaded }
    · intro hsome
      have hfloat := h.pages.float p hsome
      exact
        { live := hfloat.live
          inuse := hsum'
          frozen := hfloat.frozen
          lockless := hfloat.lockless
          partials := hfloat.partials
          full := hfloat.full
          loaded := hfloat.loaded }
    · exact h.pages.partialsNodup
    · exact h.pages.fullNodup
    · exact h.pages.nrPartial
    · exact loadsOk_congr h.pages.loads rfl rfl

theorem PagesOk.set_lockless (h : PagesOk c none s.pages) (hfrozen : s.frozen p = true) (m : List Obj) :
    PagesOk c none
      ({ s with locklessFreelist := Function.update s.locklessFreelist p m } : SlabState
      T).pages := by
  have hpage := h.each p (by simp)
  apply h.change (p := p) (by simp) (by simp)
  · intro q hq
    exact ⟨Iff.rfl, rfl, rfl, Function.update_of_ne hq _ _, rfl, Iff.rfl, Iff.rfl, Iff.rfl⟩
  · intro _
    exact
      { inuse := hpage.inuse
        unfrozen := fun _ hf => Bool.noConfusion (hf.symm.trans hfrozen)
        partials := hpage.partials
        full := hpage.full
        loaded := hpage.loaded }
  · simp
  · exact h.partialsNodup
  · exact h.fullNodup
  · exact h.nrPartial
  · exact loadsOk_congr h.loads rfl rfl

theorem SlabInv.take_lockless (h : SlabInv c l none s) (objs rest : List Obj) (hfrozen : s.frozen p = true)
    (hl : s.locklessFreelist p = objs ++ rest) :
    SlabInv c (objs ++ l) none { s with locklessFreelist := Function.update s.locklessFreelist p rest } := by
  refine ⟨?_, h.homeFree, ?_, h.tlsOk, h.chainOk, h.pages.set_lockless hfrozen rest, h.held,
    h.alternates, h.discards⟩
  · apply h.placed.move (Place.lockless p) Place.limbo objs (by simp)
    · simp [objsAt, hl]
    · exact List.Perm.refl _
    · intro pl hsrc hdst
      cases pl with
      | lockless q =>
        have hq : q ≠ p := fun heq => hsrc (heq ▸ rfl)
        exact Function.update_of_ne hq _ _
      | limbo => exact absurd rfl hdst
      | _ => rfl
  · exact home_update h.homeLockless fun o ho => h.homeLockless p o (hl ▸ List.mem_append_right objs ho)

theorem SlabInv.put_lockless (objs : List Obj) (h : SlabInv c (objs ++ l) none s)
    (hfrozen : s.frozen p = true)
    (hhome : ∀ o, o ∈ objs → o.1 = p) :
    SlabInv c l none
      { s with locklessFreelist := Function.update s.locklessFreelist p (objs ++ s.locklessFreelist p) } := by
  refine ⟨?_, h.homeFree, ?_, h.tlsOk, h.chainOk, h.pages.set_lockless hfrozen _, h.held,
    h.alternates, h.discards⟩
  · apply h.placed.move Place.limbo (Place.lockless p) objs (by simp)
    · exact List.Perm.refl _
    · simp [objsAt]
    · intro pl hsrc hdst
      cases pl with
      | lockless q =>
        have hq : q ≠ p := fun heq => hdst (heq ▸ rfl)
        exact Function.update_of_ne hq _ _
      | limbo => exact absurd rfl hsrc
      | _ => rfl
  · apply home_update h.homeLockless
    intro o ho
    cases List.mem_append.mp ho with
    | inl ho => exact hhome o ho
    | inr ho => exact h.homeLockless p o ho

/-- `freelist_alloc` takes all free objects of a loaded page. -/
theorem SlabInv.freelist_take (h : SlabInv c l none s) (hfrozen : s.frozen p = true) :
    SlabInv c (s.freelist p ++ l) none
      { s with
        inuse := Function.update s.inuse p c.objects
        freelist := Function.update s.freelist p [] } := by
  have hpage := h.page p
  refine ⟨?_, ?_, h.homeLockless, h.tlsOk, h.chainOk, ?_, h.held, h.alternates, h.discards⟩
  · apply h.placed.move (Place.free p) Place.limbo (s.freelist p) (by simp)
    · simp [objsAt]
    · exact List.Perm.refl _
    · intro pl hsrc hdst
      cases pl with
      | free q =>
        have hq : q ≠ p := fun heq => hsrc (heq ▸ rfl)
        exact Function.update_of_ne hq _ _
      | limbo => exact absurd rfl hdst
      | _ => rfl
  · exact home_update h.homeFree fun o ho => absurd ho List.not_mem_nil
  · apply h.pages.change (p := p) (by simp) (by simp)
    · intro q hq
      exact ⟨Iff.rfl, Function.update_of_ne hq _ _, Function.update_of_ne hq _ _, rfl, rfl, Iff.rfl,
        Iff.rfl, Iff.rfl⟩
    · intro _
      exact
        { inuse := fun _ => by simp [SlabState.pages]
          unfrozen := fun _ hf => Bool.noConfusion (hf.symm.trans hfrozen)
          partials := ⟨fun hp => Bool.noConfusion ((hpage.partials.mp hp).2.1.symm.trans hfrozen),
            fun hp => Bool.noConfusion (hp.2.1.symm.trans hfrozen)⟩
          full := ⟨fun hp => Bool.noConfusion ((hpage.full.mp hp).2.1.symm.trans hfrozen),
            fun hp => Bool.noConfusion (hp.2.1.symm.trans hfrozen)⟩
          loaded := hpage.loaded }
    · simp
    · exact h.pages.partialsNodup
    · exact h.pages.fullNodup
    · exact h.pages.nrPartial
    · exact loadsOk_congr h.pages.loads rfl rfl

end

end Skp.Mm
