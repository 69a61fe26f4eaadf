import Skp.Workqueue.Chains

/-! # Putting items on lists

`insert_work` puts a work at the tail of a list, and a barrier behind its queued target or in front of the
works of the worker that executes the target; `pwq_activate_delayed_work` moves a delayed work with its
barriers. All of them keep `CoreInv`. -/
namespace Skp.Workqueue
set_option autoImplicit false
open Skp.Foundations

variable {P Q G W K T : Type} [DecidableEq W] [DecidableEq T]

/-- What all insertions have in common: the item `x`, on no list before, is on `pl` with the ticket `n`. -/
structure Inserted (cfg : WqConfig P Q G K) (c c' : Core P Q G W K T) (x : Item W T)
    (pl : Place P Q K) (q : Q)
    (n : ℕ) : Prop where
  nodup : (c'.lists pl).Nodup
  mem : ∀ y, y ∈ c'.lists pl ↔ y = x ∨ y ∈ c.lists pl
  other : ∀ pl', pl' ≠ pl → c'.lists pl' = c.lists pl'
  unlisted : ∀ pl', x ∉ c.lists pl'
  data : (c'.flags x).data = .pwq q
  pending : (c'.flags x).pending = true
  barrierBit : (c'.flags x).barrier = x.isBarrier
  delayedBit : x.isBarrier = false → (c'.flags x).delayed = pl.isDelayed
  fits : Fits cfg pl q
  flags : ∀ y, y ≠ x → SameWord (c.flags y) (c'.flags y) ∧ (c'.flags y).delayed = (c.flags y).delayed
  linked : ∀ y pl', pl' ≠ pl → y ∈ c.lists pl' → c'.linked y = c.linked y
  curr : c'.curr = c.curr
  ticket : c'.ticket = Function.update c.ticket x n
  chain : ∀ y, y ≠ x → c'.chain y = c.chain y
  stage : c'.stage = Function.update c.stage n (.listed x)
  free : (∃ t, c.stage n = .held t) ∨ c.stage n = .unused
  calls : c'.calls = c.calls
  next_le : c.next ≤ c'.next
  next_lt : n < c'.next
  path : ListPath (c'.linkage pl) none (c'.lists pl) none

section Inserted
variable {cfg : WqConfig P Q G K} {c c' : Core P Q G W K T} {x : Item W T} {pl : Place P Q K} {q : Q} {n : ℕ}

theorem Inserted.mem_iff [DecidableEq K] [DecidableEq Q] [DecidableEq P]
    (hi : Inserted cfg c c' x pl q n) (y : Item W T) (pl' : Place P Q K) :
    y ∈ c'.lists pl' ↔ (y = x ∧ pl' = pl) ∨ y ∈ c.lists pl' := by
  by_cases hp : pl' = pl
  · subst hp
    simpa using hi.mem y
  · rw [hi.other pl' hp]
    simp [hp]

omit [DecidableEq W] [DecidableEq T] in
theorem not_over_of_free {c : Core P Q G W K T} {n : ℕ}
    (h : (∃ t, c.stage n = .held t) ∨ c.stage n = .unused) :
    c.over n = false := by
  rcases h with ⟨t, h⟩ | h
  · simp [Core.over, h, Stage.isOver]
  · simp [Core.over, h, Stage.isOver]

omit [DecidableEq W] [DecidableEq T] in
theorem over_update_listed {c c' : Core P Q G W K T} {n : ℕ}
    (hfree : (∃ t, c.stage n = .held t) ∨ c.stage n = .unused) {x : Item W T}
    (hs : c'.stage = Function.update c.stage n (.listed x)) (m : ℕ) : c'.over m = c.over m := by
  by_cases hm : m = n
  · subst hm
    rw [not_over_of_free hfree]
    simp [Core.over, hs, Stage.isOver]
  · simp [Core.over, hs, hm]

theorem Inserted.over_eq (hi : Inserted cfg c c' x pl q n) (m : ℕ) : c'.over m = c.over m :=
  over_update_listed hi.free hi.stage m

omit [DecidableEq W] [DecidableEq T] in
theorem needs_of_eq {c c' : Core P Q G W K T} {pl : Place P Q K} {y : Item W T} (hcurr : c'.curr = c.curr)
    (hchain : c'.chain y = c.chain y) (hover : ∀ m, c'.over m = c.over m) : c'.needs pl y → c.needs pl y := by
  intro hn
  refine ⟨hn.1, ?_⟩
  have h2 := hn.2
  cases pl with
  | worklist p => simpa only [hchain, hover] using h2
  | delayed q => trivial
  | scheduled k => simpa only [hchain, hover, hcurr] using h2

theorem Inserted.coreInv [DecidableEq K] [DecidableEq Q] [DecidableEq P]
    (hi : Inserted cfg c c' x pl q n) (h : CoreInv cfg c) : CoreInv cfg c' where
  layout :=
    { nodup := by
        intro pl'
        by_cases hp : pl' = pl
        · rw [hp]
          exact hi.nodup
        · rw [hi.other pl' hp]
          exact h.layout.nodup pl'
      situated := by
        intro y
        by_cases hy : y = x
        · subst hy
          have hl : ∀ pl', y ∈ c'.lists pl' ↔ pl' = pl := by
            intro pl'
            simpa [hi.unlisted pl'] using hi.mem_iff y pl'
          exact situated_of_listed hl hi.data hi.pending hi.barrierBit hi.delayedBit hi.fits
        · refine (h.layout.situated y).congr (fun pl' => ?_) (hi.flags y hy).1 (hi.flags y hy).2
          simpa [hy] using hi.mem_iff y pl'
      running_pool := fun k r hk => h.layout.running_pool k r (hi.curr ▸ hk)
      running_bit := fun k r hk => h.layout.running_bit k r (hi.curr ▸ hk)
      running_unique := fun k k' r r' hk hk' =>
        h.layout.running_unique k k' r r' (hi.curr ▸ hk) (hi.curr ▸ hk') }
  chained :=
    { path := by
        intro pl'
        by_cases hp : pl' = pl
        · rw [hp]
          exact hi.path
        · rw [hi.other pl' hp]
          have hne : ∀ y ∈ c.lists pl', y ≠ x := fun y hy he => hi.unlisted pl' (he ▸ hy)
          refine (h.chained.path pl').relink (fun y hy => ?_) (fun y z hy hz hs => ?_) (fun y hy => ?_)
          · exact hi.linked y pl' hp (hy.resolve_left (by simp))
          · refine ⟨hs.1, ?_⟩
            rw [hi.chain y (hne y (hy.resolve_left (by simp))),
              hi.chain z (hne z (hz.resolve_left (by simp)))]
            exact hs.2
          · exact needs_of_eq hi.curr (hi.chain y (hne y (hy.resolve_left (by simp)))) hi.over_eq
      running_over := by
        intro k r hk hb
        rw [hi.over_eq]
        exact h.chained.running_over k r (hi.curr ▸ hk) hb }
  staged :=
    { listed := by
        intro y pl' hy
        rw [hi.stage, hi.ticket]
        by_cases hyx : y = x
        · subst hyx
          simp
        · have hold : y ∈ c.lists pl' := by simpa [hyx] using (hi.mem_iff y pl').mp hy
          have hs := h.staged.listed y pl' hold
          have hne : c.ticket y ≠ n := by
            intro he
            rw [he] at hs
            rcases hi.free with ⟨t, hf⟩ | hf
            · rw [hf] at hs
              cases hs
            · rw [hf] at hs
              cases hs
          simpa [hyx, hne] using hs
      running := by
        intro k r hk
        have hs := h.staged.running k r (hi.curr ▸ hk)
        have hne : r.ticket ≠ n := by
          intro he
          rw [he] at hs
          rcases hi.free with ⟨t, hf⟩ | hf
          · rw [hf] at hs
            cases hs
          · rw [hf] at hs
            cases hs
        simpa [hi.stage, hne] using hs
      fresh := by
        intro m hm
        have hne : m ≠ n := by
          have := hi.next_lt
          omega
        simpa [hi.stage, hne] using h.staged.fresh m (hi.next_le.trans hm)
      calls_le := by
        rw [hi.calls]
        exact h.staged.calls_le
      calls_zero := by
        intro m hm
        rw [hi.calls]
        by_cases hmn : m = n
        · subst hmn
          refine h.staged.calls_zero m ?_
          rcases hi.free with ⟨t, hf⟩ | hf
          · simp [hf, Stage.isStarted]
          · simp [hf, Stage.isStarted]
        · exact h.staged.calls_zero m (by simpa [hi.stage, hmn] using hm) }

end Inserted

/-! ## Queueing a work -/

section Queue
variable {cfg : WqConfig P Q G K} {c : Core P Q G W K T}

/-- The list that `__queue_work` chooses. -/
def queuePlace (cfg : WqConfig P Q G K) (c : Core P Q G W K T) (q : Q) : Place P Q K :=
  if c.nrActive q < cfg.maxActive q then .worklist (cfg.poolOf q) else .delayed q

omit [DecidableEq W] [DecidableEq T] in
theorem fits_queuePlace (cfg : WqConfig P Q G K) (c : Core P Q G W K T) (q : Q) :
    Fits cfg (queuePlace cfg c q) q := by
  unfold queuePlace
  split
  · rfl
  · rfl

variable [DecidableEq P] [DecidableEq Q] [DecidableEq K] [DecidableEq G]

theorem queueInsert_lists (cfg : WqConfig P Q G K) (c : Core P Q G W K T) (q : Q) (w : W) (n : ℕ) :
    (queueInsert cfg c q w n).lists =
      Function.update c.lists (queuePlace cfg c q) (c.lists (queuePlace cfg c q) ++ [.work w]) := by
  by_cases hm : c.nrActive q < cfg.maxActive q
  · simp [queueInsert, insertWork, queuePlace, hm]
  · simp [queueInsert, insertWork, queuePlace, hm]

theorem queueInsert_flags (cfg : WqConfig P Q G K) (c : Core P Q G W K T) (q : Q) (w : W) (n : ℕ) :
    (queueInsert cfg c q w n).flags = Function.update c.flags (.work w)
      { data := .pwq q, linked := false, pending := true, delayed := (queuePlace cfg c q).isDelayed,
        canceling := false, barrier := false } := by
  by_cases hm : c.nrActive q < cfg.maxActive q
  · simp [queueInsert, insertWork, pwqIncNrInFlight, queuePlace, Place.isDelayed, hm]
  · simp [queueInsert, insertWork, pwqIncNrInFlight, queuePlace, Place.isDelayed, hm]

theorem queueInsert_inserted (h : CoreInv cfg c) {q : Q} {w : W} {n : ℕ}
    (hw : ∀ q', (c.flags (.work w)).data ≠ .pwq q') {t : T} (hn : c.stage n = .held t) :
    Inserted cfg c (queueInsert cfg c q w n) (.work w) (queuePlace cfg c q) q n := by
  have hun := h.layout.unlisted hw
  have hlists := queueInsert_lists cfg c q w n
  have hflags := queueInsert_flags cfg c q w n
  have hstage : (queueInsert cfg c q w n).stage = Function.update c.stage n (.listed (.work w)) := rfl
  have hfree : (∃ t, c.stage n = .held t) ∨ c.stage n = .unused := Or.inl ⟨t, hn⟩
  have hlt : n < c.next := by
    by_contra hge
    rw [h.staged.fresh n (not_lt.mp hge)] at hn
    cases hn
  have hchain : ∀ y : Item W T, y ≠ .work w → (queueInsert cfg c q w n).chain y = c.chain y := by
    intro y hy
    cases y with
    | work v => simp [Core.chain, queueInsert, insertWork, pwqIncNrInFlight, hy]
    | barrier u => rfl
  have hpath : ListPath ((queueInsert cfg c q w n).linkage (queuePlace cfg c q)) none
      (c.lists (queuePlace cfg c q) ++ [.work w]) none := by
    refine ListPath.concat ?_ ⟨link_of_gap (by simp) ?_, link_of_gap ?_ (by simp)⟩
    · have hne : ∀ y ∈ c.lists (queuePlace cfg c q), y ≠ .work w := fun y hy he => hun _ (he ▸ hy)
      refine (h.chained.path _).relink (fun y hy => ?_) (fun y z hy hz hs => ?_) (fun y hy => ?_)
      · simp [Core.linked, hflags, hne y (hy.resolve_left (by simp))]
      · refine ⟨hs.1, ?_⟩
        rw [hchain y (hne y (hy.resolve_left (by simp))), hchain z (hne z (hz.resolve_left (by simp)))]
        exact hs.2
      · exact needs_of_eq rfl (hchain y (hne y (hy.resolve_left (by simp)))) (over_update_listed hfree hstage)
    · intro y hy hneed
      cases hy
      exact Bool.noConfusion hneed.1
    · intro y hy
      cases hy
      simp [Core.linked, hflags]
  exact
    { nodup := by
        rw [hlists, Function.update_self]
        refine List.nodup_append.mpr ⟨h.layout.nodup _, List.nodup_singleton _, ?_⟩
        intro a ha b hb
        rw [List.mem_singleton.mp hb]
        exact fun he => hun _ (he ▸ ha)
      mem := by
        intro y
        rw [hlists, Function.update_self, List.mem_append, List.mem_singleton]
        exact or_comm
      other := fun pl' hp => by rw [hlists, Function.update_of_ne hp]
      unlisted := hun
      data := by simp [hflags]
      pending := by simp [hflags]
      barrierBit := by simp [hflags, Item.isBarrier]
      delayedBit := by simp [hflags]
      fits := fits_queuePlace cfg c q
      flags := by
        intro y hy
        rw [hflags, Function.update_of_ne hy]
        exact ⟨SameWord.refl _, rfl⟩
      linked := by
        intro y pl' _ hy
        have hne : y ≠ .work w := fun he => hun pl' (he ▸ hy)
        simp [Core.linked, hflags, hne]
      curr := rfl
      ticket := rfl
      chain := hchain
      stage := hstage
      free := hfree
      calls := rfl
      next_le := le_refl _
      next_lt := hlt
      path := by
        rw [hlists, Function.update_self]
        exact hpath }

end Queue

/-! ## Barriers -/

section InsertBehind
variable {α : Type} [DecidableEq α] {x y : α} {a b l : List α}

theorem insertBehind_of_not_mem (h : x ∉ l) : insertBehind x y l = l := by
  induction l with
  | nil => rfl
  | cons z l ih =>
    have hz : z ≠ x := fun he => h (he ▸ List.mem_cons_self)
    rw [insertBehind, if_neg hz, ih fun hm => h (List.mem_cons_of_mem z hm)]

theorem insertBehind_append (h : x ∉ a) : insertBehind x y (a ++ x :: b) = a ++ x :: y :: b := by
  induction a with
  | nil => simp [insertBehind]
  | cons z a ih =>
    have hz : z ≠ x := fun he => h (he ▸ List.mem_cons_self)
    rw [List.cons_append, insertBehind, if_neg hz, ih fun hm => h (List.mem_cons_of_mem z hm),
      List.cons_append]

end InsertBehind

section Barriers
variable {cfg : WqConfig P Q G K} {c : Core P Q G W K T}

variable [DecidableEq Q] [DecidableEq G]

theorem insertBarrierBehind_flags (cfg : WqConfig P Q G K) (c : Core P Q G W K T) (q : Q) (w : W) (t : T) :
    (insertBarrierBehind cfg c q w t).flags = Function.update
      (Function.update c.flags (.work w) { c.flags (.work w) with linked := true }) (.barrier t)
      { data := .pwq q, linked := c.linked (.work w), pending := true, delayed := false, canceling := false,
        barrier := true } := rfl

omit [DecidableEq Q] [DecidableEq G] in
theorem startBarrier_chain (c : Core P Q G W K T) (t : T) (m : ℕ) {y : Item W T} (hy : y ≠ .barrier t) :
    (startBarrier c t m).chain y = c.chain y := by
  cases y with
  | work v => simp [Core.chain, startBarrier]
  | barrier u =>
    have hu : u ≠ t := fun he => hy (he ▸ rfl)
    simp [Core.chain, startBarrier, hu]

theorem insertBarrierBehind_inserted (h : CoreInv cfg c) {q : Q} {w : W} {t : T}
    (hw : (c.flags (.work w)).data = .pwq q) (ht : ∀ q', (c.flags (.barrier t)).data ≠ .pwq q') :
    ∃ pl, Item.work w ∈ c.lists pl ∧
      Inserted cfg c (insertBarrierBehind cfg c q w t) (.barrier t) pl q c.next := by
  obtain ⟨pl, hpl⟩ := (h.layout.situated (.work w)).queued q hw
  refine ⟨pl, hpl, ?_⟩
  obtain ⟨a, b, hab, hwa, -, -⟩ := exists_cut_at hpl
  have hun := h.layout.unlisted ht
  have hfits : Fits cfg pl q := by
    obtain ⟨q', hq', hf⟩ := h.layout.data_of_mem hpl
    rw [hw] at hq'
    cases hq'
    exact hf
  have hnd : (a ++ Item.work w :: b).Nodup := hab ▸ h.layout.nodup pl
  have hwb : Item.work w ∉ b := (List.nodup_cons.mp (List.nodup_append.mp hnd).2.1).1
  have hlists : ∀ pl', (insertBarrierBehind cfg c q w t).lists pl' =
      insertBehind (.work w) (.barrier t) (c.lists pl') := fun _ => rfl
  have hpl' : (insertBarrierBehind cfg c q w t).lists pl = a ++ .work w :: .barrier t :: b := by
    rw [hlists, hab, insertBehind_append hwa]
  have hflags := insertBarrierBehind_flags cfg c q w t
  have hstage : (insertBarrierBehind cfg c q w t).stage =
      Function.update c.stage c.next (.listed (.barrier t)) := rfl
  have hfree : (∃ t, c.stage c.next = .held t) ∨ c.stage c.next = .unused :=
    Or.inr (h.staged.fresh c.next (le_refl _))
  have hchain : ∀ y : Item W T, y ≠ .barrier t → (insertBarrierBehind cfg c q w t).chain y = c.chain y := by
    intro y hy
    rw [insertBarrierBehind, startBarrier_chain _ _ _ hy]
    cases y with
    | work v => rfl
    | barrier u => rfl
  have hchain_t : (insertBarrierBehind cfg c q w t).chain (.barrier t) =
      (insertBarrierBehind cfg c q w t).chain (.work w) := by
    rw [hchain (.work w) (by simp)]
    simp [Core.chain, insertBarrierBehind, startBarrier]
  have hne : ∀ y ∈ c.lists pl, y ≠ Item.barrier t := fun y hy he => hun pl (he ▸ hy)
  have hpath : ListPath (Link c.linked (insertBarrierBehind cfg c q w t).same (c.needs pl)) none
      (a ++ .work w :: b) none := by
    have hp := h.chained.path pl
    rw [hab] at hp
    refine hp.relink (fun _ _ => rfl) (fun y z hy hz hs => ⟨hs.1, ?_⟩) (fun _ _ hn => hn)
    rw [hchain y (hne y (hab ▸ hy.resolve_left (by simp))),
      hchain z (hne z (hab ▸ hz.resolve_left (by simp)))]
    exact hs.2
  exact
    { nodup := by
        rw [hpl']
        have hsub : (a ++ .work w :: .barrier t :: b).Perm (.barrier t :: (a ++ .work w :: b)) := by
          have := @List.perm_middle _ (Item.barrier t) (a ++ [.work w]) b
          simpa using this
        refine hsub.nodup_iff.mpr (List.nodup_cons.mpr ⟨?_, hnd⟩)
        rw [← hab]
        exact hun pl
      mem := by
        intro y
        rw [hpl', hab]
        simp only [List.mem_append, List.mem_cons]
        tauto
      other := by
        intro pl' hp
        rw [hlists, insertBehind_of_not_mem]
        exact fun hm => hp ((h.layout.situated _).unique pl' pl hm hpl)
      unlisted := hun
      data := by simp [hflags]
      pending := by simp [hflags]
      barrierBit := by simp [hflags, Item.isBarrier]
      delayedBit := by simp [Item.isBarrier]
      fits := hfits
      flags := by
        intro y hy
        rw [hflags, Function.update_of_ne hy]
        by_cases hyw : y = .work w
        · subst hyw
          simp [SameWord]
        · rw [Function.update_of_ne hyw]
          exact ⟨SameWord.refl _, rfl⟩
      linked := by
        intro y pl' hp hy
        have hyt : y ≠ .barrier t := fun he => hun pl' (he ▸ hy)
        have hyw : y ≠ .work w := fun he => hp ((h.layout.situated y).unique pl' pl hy (he ▸ hpl))
        simp [Core.linked, hflags, hyt, hyw]
      curr := rfl
      ticket := rfl
      chain := hchain
      stage := hstage
      free := hfree
      calls := rfl
      next_le := Nat.le_succ _
      next_lt := Nat.lt_succ_self _
      path := by
        rw [hpl']
        refine path_insert_behind hpath (fun z hz => ?_) ?_ ?_ ?_ ⟨rfl, hchain_t⟩ ?_
        · have hzl : z ∈ c.lists pl := by
            rw [hab]
            rcases hz with hz | hz
            · exact List.mem_append_left _ hz
            · exact List.mem_append_right _ (List.mem_cons_of_mem _ hz)
          have hzt := hne z hzl
          have hzw : z ≠ .work w := by
            rintro rfl
            exact hz.elim hwa hwb
          refine ⟨?_, needs_of_eq rfl (hchain z hzt) (over_update_listed hfree hstage)⟩
          simp [Core.linked, hflags, hzt, hzw]
        · simp [Core.linked, hflags]
        · exact fun hn => Bool.noConfusion hn.1
        · simp [Core.linked, hflags]
        · intro z
          simp only [Core.same, hchain_t] }

variable [DecidableEq P] [DecidableEq K]

theorem insertBarrierFront_inserted (h : CoreInv cfg c) {k : K} {r : Running Q W T} {t : T}
    (hk : c.curr k = some r)
    (ht : ∀ q', (c.flags (.barrier t)).data ≠ .pwq q') :
    Inserted cfg c (insertBarrierFront cfg c k r t) (.barrier t) (.scheduled k) r.pwq c.next := by
  have hun := h.layout.unlisted ht
  have hlists : (insertBarrierFront cfg c k r t).lists =
      Function.update c.lists (.scheduled k) (.barrier t :: c.lists (.scheduled k)) := rfl
  have hflags : (insertBarrierFront cfg c k r t).flags = Function.update c.flags (.barrier t)
      { data := .pwq r.pwq, linked := false, pending := true, delayed := false, canceling := false,
        barrier := true } := rfl
  have hstage : (insertBarrierFront cfg c k r t).stage =
      Function.update c.stage c.next (.listed (.barrier t)) := rfl
  have hfree : (∃ t, c.stage c.next = .held t) ∨ c.stage c.next = .unused :=
    Or.inr (h.staged.fresh c.next (le_refl _))
  have hchain : ∀ y : Item W T, y ≠ .barrier t → (insertBarrierFront cfg c k r t).chain y = c.chain y := by
    intro y hy
    rw [insertBarrierFront, startBarrier_chain _ _ _ hy]
    cases y with
    | work v => rfl
    | barrier u => rfl
  have hne : ∀ pl, ∀ y ∈ c.lists pl, y ≠ Item.barrier t := fun pl y hy he => hun pl (he ▸ hy)
  have hlinked : ∀ pl, ∀ y ∈ c.lists pl, (insertBarrierFront cfg c k r t).linked y = c.linked y := by
    intro pl y hy
    simp [Core.linked, hflags, hne pl y hy]
  exact
    { nodup := by
        rw [hlists, Function.update_self]
        exact List.nodup_cons.mpr ⟨hun _, h.layout.nodup _⟩
      mem := by
        intro y
        rw [hlists, Function.update_self, List.mem_cons]
      other := fun pl' hp => by rw [hlists, Function.update_of_ne hp]
      unlisted := hun
      data := by simp [hflags]
      pending := by simp [hflags]
      barrierBit := by simp [hflags, Item.isBarrier]
      delayedBit := by simp [Item.isBarrier]
      fits := (h.layout.running_pool k r hk).symm
      flags := by
        intro y hy
        rw [hflags, Function.update_of_ne hy]
        exact ⟨SameWord.refl _, rfl⟩
      linked := fun y pl' _ hy => hlinked pl' y hy
      curr := rfl
      ticket := rfl
      chain := hchain
      stage := hstage
      free := hfree
      calls := rfl
      next_le := Nat.le_succ _
      next_lt := Nat.lt_succ_self _
      path := by
        rw [hlists, Function.update_self]
        refine path_cons ?_ (by simp [Core.linked, hflags]) ?_
        · refine (h.chained.path (.scheduled k)).relink (fun y hy => ?_)
            (fun y z hy hz hs => ⟨hs.1, ?_⟩) (fun y hy => ?_)
          · exact hlinked _ y (hy.resolve_left (by simp))
          · rw [hchain y (hne _ y (hy.resolve_left (by simp))),
              hchain z (hne _ z (hz.resolve_left (by simp)))]
            exact hs.2
          · exact needs_of_eq rfl (hchain y (hne _ y (hy.resolve_left (by simp))))
              (over_update_listed hfree hstage)
        · -- the barrier waits for what the worker executes
          intro hn
          refine hn.2.2 r hk ?_
          simp [Core.chain, insertBarrierFront, startBarrier] }

end Barriers

end Skp.Workqueue
