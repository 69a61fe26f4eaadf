import Skp.Workqueue.CounterRuns

/-! # Ordered workqueues

A pool_workqueue with `max_active` 1 has one work active at a time, and its works start in the order in which
they were put on its lists, apart from those that are cancelled. -/
namespace Skp.Workqueue
set_option autoImplicit false
open Skp.Foundations

variable {P Q G W K T : Type} [DecidableEq W] [DecidableEq K] [DecidableEq T]

/-- The tickets of the delayed works, without their barriers. -/
def delayedTickets (c : Core P Q G W K T) (q : Q) : List ℕ :=
  ((c.lists (.delayed q)).filter fun x => !x.isBarrier).map c.ticket

/-- The tickets put on a list of `q` that are not cancelled, in the order of the pool lock. -/
def liveLog (c : Core P Q G W K T) (q : Q) : List ℕ :=
  (c.queuedLog q).filter fun n => decide (c.stage n ≠ .cancelled)

/-- What is not cancelled has started, waits on the worklist or a scheduled list, or is delayed, in
this order. -/
structure OrderInv (c : Core P Q G W K T) (q : Q) : Prop where
  begun : ∀ n ∈ c.queuedLog q, (c.stage n).isWaiting = false
  started : ∀ n ∈ c.startedLog q, (c.stage n).isStarted = true
  place : ∀ n ∈ c.queuedLog q, ∀ x, c.stage n = .listed x → (c.flags x).data = .pwq q ∧ c.ticket x = n
  active : ∀ x ∈ activeItems c q, liveLog c q = c.startedLog q ++ c.ticket x :: delayedTickets c q
  rest : activeItems c q = ∅ → liveLog c q = c.startedLog q ++ delayedTickets c q

section Order
variable {cfg : WqConfig P Q G K} {c c' : Core P Q G W K T} {q : Q}

theorem liveLog_congr (hlog : c'.queuedLog q = c.queuedLog q)
    (hstage : ∀ n ∈ c.queuedLog q, (c'.stage n = .cancelled ↔ c.stage n = .cancelled)) :
    liveLog c' q = liveLog c q := by
  unfold liveLog
  rw [hlog]
  refine List.filter_congr fun n hn => ?_
  rw [decide_eq_decide]
  exact not_congr (hstage n hn)

theorem OrderInv.frame (h : OrderInv c q) (hlog : c'.queuedLog q = c.queuedLog q)
    (hstart : c'.startedLog q = c.startedLog q) (hdelayed : delayedTickets c' q = delayedTickets c q)
    (hact : ∀ x, x ∈ activeItems c' q ↔ x ∈ activeItems c q)
    (htick : ∀ x ∈ activeItems c q, c'.ticket x = c.ticket x)
    (hcancel : ∀ n ∈ c.queuedLog q, (c'.stage n = .cancelled ↔ c.stage n = .cancelled))
    (hwait : ∀ n ∈ c.queuedLog q, (c'.stage n).isWaiting = false)
    (hstarted : ∀ n, (c.stage n).isStarted = true → (c'.stage n).isStarted = true)
    (hplace : ∀ n ∈ c.queuedLog q, ∀ x, c'.stage n = .listed x → (c'.flags x).data = .pwq q ∧
      c'.ticket x = n) :
    OrderInv c' q := by
  have hlive := liveLog_congr hlog hcancel
  refine ⟨?_, ?_, ?_, ?_, ?_⟩
  · rw [hlog]
    exact hwait
  · rw [hstart]
    exact fun n hn => hstarted n (h.started n hn)
  · rw [hlog]
    exact hplace
  · intro x hx
    have hx' := (hact x).mp hx
    rw [hlive, hstart, hdelayed, htick x hx']
    exact h.active x hx'
  · intro he
    rw [hlive, hstart, hdelayed]
    refine h.rest (Set.eq_empty_of_forall_notMem fun x hx => ?_)
    have := (hact x).mpr hx
    rw [he] at this
    exact this

omit [DecidableEq W] [DecidableEq K] [DecidableEq T] in
/-- The stage of one ticket changes that is not cancelled before or after. -/
theorem stage_update_live {n : ℕ} {st : Stage W T K} (hs : c'.stage = Function.update c.stage n st)
    (hold : c.stage n ≠ .cancelled) (hnew : st ≠ .cancelled) (m : ℕ) :
    c'.stage m = .cancelled ↔ c.stage m = .cancelled := by
  rw [hs]
  by_cases hm : m = n
  · rw [hm, Function.update_self]
    exact iff_of_false hnew hold
  · rw [Function.update_of_ne hm]

omit [DecidableEq W] [DecidableEq K] [DecidableEq T] in
/-- A ticket that is not waiting keeps that. -/
theorem waiting_update {n : ℕ} {st : Stage W T K} (hs : c'.stage = Function.update c.stage n st)
    (hst : st.isWaiting = false) {m : ℕ} (hm : (c.stage m).isWaiting = false) :
    (c'.stage m).isWaiting = false := by
  rw [hs]
  by_cases he : m = n
  · rw [he, Function.update_self]
    exact hst
  · rw [Function.update_of_ne he]
    exact hm

theorem isWaiting_not_mem (h : OrderInv c q) {n : ℕ} (hn : (c.stage n).isWaiting = true) :
    n ∉ c.queuedLog q := by
  intro hm
  rw [h.begun n hm] at hn
  exact Bool.noConfusion hn

section
omit [DecidableEq W] [DecidableEq K] [DecidableEq T]

theorem listed_of_update {n : ℕ} {st : Stage W T K} (hs : c'.stage = Function.update c.stage n st)
    (hst : ∀ x, st ≠ .listed x) {m : ℕ} {x : Item W T} (hm : c'.stage m = .listed x) :
    m ≠ n ∧ c.stage m = .listed x := by
  have hne : m ≠ n := by
    rintro rfl
    rw [hs, Function.update_self] at hm
    exact hst x hm
  refine ⟨hne, ?_⟩
  rwa [hs, Function.update_of_ne hne] at hm

theorem delayedTickets_congr (hl : c'.lists (.delayed q) = c.lists (.delayed q))
    (ht : ∀ x ∈ c.lists (.delayed q),
    x.isBarrier = false → c'.ticket x = c.ticket x) : delayedTickets c' q = delayedTickets c q := by
  unfold delayedTickets
  rw [hl]
  refine List.map_congr_left fun x hx => ?_
  obtain ⟨hm, hb⟩ := List.mem_filter.mp hx
  exact ht x hm (by simpa using hb)

/-- A ticket that has started stays so when the stage of another, or its own to a started one, changes. -/
theorem started_update {n : ℕ} {st : Stage W T K} (hs : c'.stage = Function.update c.stage n st)
    (hn : (c.stage n).isStarted = true → st.isStarted = true) {m : ℕ} (hm : (c.stage m).isStarted = true) :
    (c'.stage m).isStarted = true := by
  rw [hs]
  by_cases he : m = n
  · subst he
    rw [Function.update_self]
    exact hn hm
  · rw [Function.update_of_ne he]
    exact hm

theorem CoreInv.ticket_inj (hc : CoreInv cfg c) {x y : Item W T} {q q' : Q} (hx : (c.flags x).data = .pwq q)
    (hy : (c.flags y).data = .pwq q') (he : c.ticket x = c.ticket y) : x = y := by
  obtain ⟨pl, hpl⟩ := (hc.layout.situated x).queued q hx
  obtain ⟨pl', hpl'⟩ := (hc.layout.situated y).queued q' hy
  have h1 := hc.staged.listed x pl hpl
  have h2 := hc.staged.listed y pl' hpl'
  rw [he, h2] at h1
  cases h1
  rfl

theorem CoreInv.mem_delayed (hc : CoreInv cfg c) {x : Item W T} (hx : x ∈ c.lists (.delayed q)) :
    (c.flags x).data = .pwq q := by
  obtain ⟨q', hq', hf⟩ := hc.layout.data_of_mem hx
  obtain rfl : q = q' := hf
  exact hq'

end

/-! ## Queueing -/

variable [DecidableEq P] [DecidableEq Q] [DecidableEq G]

theorem orderInv_queue (hc : CoreInv cfg c) (ha : ActiveOk cfg c) (hmax : cfg.maxActive q = 1)
    (h : OrderInv c q)
    {q' : Q} {w : W} {n : ℕ} {t : T} (hw : ∀ q, (c.flags (.work w)).data ≠ .pwq q)
    (hn : c.stage n = .held t) :
    OrderInv (queueInsert cfg c q' w n) q := by
  have hflags := queueInsert_flags cfg c q' w n
  have hlists := queueInsert_lists cfg c q' w n
  have hstage : (queueInsert cfg c q' w n).stage = Function.update c.stage n (.listed (.work w)) := rfl
  have hticket : (queueInsert cfg c q' w n).ticket = Function.update c.ticket (.work w) n := rfl
  have hlog : (queueInsert cfg c q' w n).queuedLog =
      Function.update c.queuedLog q' (c.queuedLog q' ++ [n]) := rfl
  have hstarted : (queueInsert cfg c q' w n).startedLog = c.startedLog := rfl
  have hnlog : n ∉ c.queuedLog q := isWaiting_not_mem h (by rw [hn]; rfl)
  have hcancel := stage_update_live hstage (by rw [hn]; simp) (by simp)
  have hne : ∀ (x : Item W T) q, (c.flags x).data = .pwq q → x ≠ .work w := by
    rintro x q hx rfl
    exact hw q hx
  have hstart : ∀ m, (c.stage m).isStarted = true →
      ((queueInsert cfg c q' w n).stage m).isStarted = true := by
    intro m
    refine started_update hstage fun hs => ?_
    rw [hn] at hs
    exact Bool.noConfusion hs
  have hplace : ∀ m ∈ c.queuedLog q, ∀ x, (queueInsert cfg c q' w n).stage m = .listed x →
      ((queueInsert cfg c q' w n).flags x).data = .pwq q ∧ (queueInsert cfg c q' w n).ticket x = m := by
    intro m hm x hx
    have hmn : m ≠ n := fun he => hnlog (he ▸ hm)
    rw [hstage, Function.update_of_ne hmn] at hx
    obtain ⟨h1, h2⟩ := h.place m hm x hx
    rw [hflags, hticket, Function.update_of_ne (hne x q h1), Function.update_of_ne (hne x q h1)]
    exact ⟨h1, h2⟩
  have hold : ∀ x, x ∈ activeItems c q → (queueInsert cfg c q' w n).ticket x = c.ticket x := by
    intro x hx
    rw [hticket, Function.update_of_ne (hne x q hx.2.1)]
  have hdelayed_tick : ∀ x ∈ c.lists (.delayed q), (queueInsert cfg c q' w n).ticket x = c.ticket x := by
    intro x hx
    rw [hticket, Function.update_of_ne (hne x q (hc.mem_delayed hx))]
  have hitems : ∀ y, y ≠ Item.work w →
      (y ∈ activeItems (queueInsert cfg c q' w n) q ↔ y ∈ activeItems c q) := by
    intro y hy
    simp only [activeItems, Set.mem_ofPred_eq, hflags, Function.update_of_ne hy]
  by_cases hq : q' = q
  · subst hq
    have hlive : liveLog (queueInsert cfg c q' w n) q' = liveLog c q' ++ [n] := by
      unfold liveLog
      rw [hlog, Function.update_self, List.filter_append]
      congr 1
      · exact List.filter_congr fun m _ => decide_eq_decide.mpr (not_congr (hcancel m))
      · simp [hstage]
    have hbegun : ∀ m ∈ (queueInsert cfg c q' w n).queuedLog q',
        ((queueInsert cfg c q' w n).stage m).isWaiting = false := by
      intro m hm
      rw [hlog, Function.update_self] at hm
      rcases List.mem_append.mp hm with hm | hm
      · exact waiting_update hstage rfl (h.begun m hm)
      · rw [List.mem_singleton.mp hm, hstage, Function.update_self]
        rfl
    have hplace' : ∀ m ∈ (queueInsert cfg c q' w n).queuedLog q', ∀ x,
        (queueInsert cfg c q' w n).stage m = .listed x →
        ((queueInsert cfg c q' w n).flags x).data = .pwq q' ∧ (queueInsert cfg c q' w n).ticket x = m := by
      intro m hm x hx
      rw [hlog, Function.update_self] at hm
      rcases List.mem_append.mp hm with hm | hm
      · exact hplace m hm x hx
      · obtain rfl := List.mem_singleton.mp hm
        rw [hstage, Function.update_self] at hx
        cases hx
        rw [hflags, hticket, Function.update_self, Function.update_self]
        exact ⟨rfl, rfl⟩
    by_cases hm : c.nrActive q' < cfg.maxActive q'
    · -- nothing was active or delayed, and the work is the only active one now
      have hplace0 : queuePlace cfg c q' = .worklist (cfg.poolOf q') := by simp [queuePlace, hm]
      have hzero : c.nrActive q' = 0 := by omega
      have hempty : activeItems c q' = ∅ := by
        refine Set.eq_empty_of_forall_notMem fun x hx => ?_
        have := Tally.pos_left (ha.tally q') hx
        omega
      have hnil : c.lists (.delayed q') = [] := by
        by_contra hne
        have := ha.full q' hne
        omega
      have hnil' : (queueInsert cfg c q' w n).lists (.delayed q') = [] := by
        rw [hlists, hplace0, Function.update_of_ne (by simp), hnil]
      have hlive0 : liveLog c q' = c.startedLog q' := by
        rw [h.rest hempty, delayedTickets, hnil]
        exact List.append_nil _
      refine ⟨hbegun, fun m hm => hstart m (h.started m hm), hplace', ?_, ?_⟩
      · intro x hx
        have hxw : x = .work w := by
          by_contra hne'
          have := (hitems x hne').mp hx
          rw [hempty] at this
          exact this
        rw [hlive, hlive0, hstarted, delayedTickets, hnil', hxw, hticket, Function.update_self]
        rfl
      · intro he
        have hmem : Item.work w ∈ activeItems (queueInsert cfg c q' w n) q' := by
          refine ⟨rfl, ?_, ?_⟩
          · simp [hflags]
          · simp [hflags, hplace0, Place.isDelayed]
        rw [he] at hmem
        exact absurd hmem (Set.notMem_empty _)
    · have hplace0 : queuePlace cfg c q' = .delayed q' := by simp [queuePlace, hm]
      have hdel : delayedTickets (queueInsert cfg c q' w n) q' = delayedTickets c q' ++ [n] := by
        unfold delayedTickets
        rw [hlists, hplace0, Function.update_self, List.filter_append, List.map_append]
        congr 1
        · refine List.map_congr_left fun x hx => hdelayed_tick x (List.mem_filter.mp hx).1
        · simp [Item.isBarrier, hticket]
      have hact : ∀ x, x ∈ activeItems (queueInsert cfg c q' w n) q' ↔ x ∈ activeItems c q' := by
        intro x
        by_cases hx : x = .work w
        · subst hx
          refine iff_of_false ?_ (fun hm => hw q' hm.2.1)
          rintro ⟨-, -, hd⟩
          simp [hflags, hplace0, Place.isDelayed] at hd
        · exact hitems x hx
      refine ⟨hbegun, fun m hm => hstart m (h.started m hm), hplace', ?_, ?_⟩
      · intro x hx
        have hx' := (hact x).mp hx
        rw [hlive, hstarted, hdel, hold x hx', h.active x hx', List.append_assoc, List.cons_append]
      · intro he
        have he' : activeItems c q' = ∅ := Set.eq_empty_of_forall_notMem fun x hx => by
          have := (hact x).mpr hx
          rw [he] at this
          exact this
        rw [hlive, hstarted, hdel, h.rest he', List.append_assoc]
  · have hqq : q ≠ q' := Ne.symm hq
    refine h.frame ?_ rfl ?_ (fun x => ?_) hold (fun m _ => hcancel m)
      (fun m hm => waiting_update hstage rfl (h.begun m hm)) hstart hplace
    · rw [hlog, Function.update_of_ne hqq]
    · refine delayedTickets_congr ?_ (fun x hx _ => hdelayed_tick x hx)
      rw [hlists, Function.update_of_ne]
      unfold queuePlace
      split
      · simp
      · simpa using hqq
    · by_cases hx : x = .work w
      · subst hx
        refine iff_of_false ?_ (fun hm => hw q hm.2.1)
        rintro ⟨-, hd, -⟩
        simp only [hflags, Function.update_self] at hd
        cases hd
        exact hq rfl
      · exact hitems x hx

/-! ## Barriers -/

omit [DecidableEq P] [DecidableEq Q] [DecidableEq G] in
theorem orderInv_barrier (hc : CoreInv cfg c) (h : OrderInv c q) {t : T} {pl : Place P Q K} {q' : Q}
    (hi : Inserted cfg c c' (.barrier t) pl q' c.next)
    (hdelayed : (c'.lists (.delayed q)).filter (fun x => !x.isBarrier) =
      (c.lists (.delayed q)).filter fun x => !x.isBarrier)
    (hlog : c'.queuedLog = c.queuedLog) (hstarted : c'.startedLog = c.startedLog) : OrderInv c' q := by
  have hfresh := hc.staged.fresh c.next (le_refl _)
  have hcancel := stage_update_live hi.stage (by rw [hfresh]; simp) (by simp)
  have hticket : ∀ x : Item W T, x.isBarrier = false → c'.ticket x = c.ticket x := by
    intro x hx
    have hne : x ≠ .barrier t := by
      rintro rfl
      exact Bool.noConfusion hx
    rw [hi.ticket, Function.update_of_ne hne]
  have hflags : ∀ x : Item W T, x ≠ .barrier t → SameWord (c.flags x) (c'.flags x) ∧
      (c'.flags x).delayed = (c.flags x).delayed := hi.flags
  refine h.frame (by rw [hlog]) (by rw [hstarted]) ?_ (fun x => ?_) (fun x hx => hticket x hx.1)
    (fun n _ => hcancel n) (fun n hn => waiting_update hi.stage rfl (h.begun n hn)) ?_ ?_
  · unfold delayedTickets
    rw [hdelayed]
    refine List.map_congr_left fun x hx => hticket x ?_
    simpa using (List.mem_filter.mp hx).2
  · by_cases hx : x = .barrier t
    · subst hx
      exact iff_of_false (fun hm => nomatch hm.1) (fun hm => nomatch hm.1)
    · simp only [activeItems, Set.mem_ofPred_eq, (hflags x hx).1.1, (hflags x hx).2]
  · intro n
    refine started_update hi.stage fun hs => ?_
    rw [hfresh] at hs
    exact Bool.noConfusion hs
  · intro n hn x hx
    have hne : n ≠ c.next := fun he => isWaiting_not_mem h (by rw [hfresh]; rfl) (he ▸ hn)
    rw [hi.stage, Function.update_of_ne hne] at hx
    obtain ⟨h1, h2⟩ := h.place n hn x hx
    have hxt : x ≠ .barrier t := by
      rintro rfl
      obtain ⟨pl', hpl'⟩ := (hc.layout.situated _).queued q h1
      exact hi.unlisted pl' hpl'
    rw [(hflags x hxt).1.1, hi.ticket, Function.update_of_ne hxt]
    exact ⟨h1, h2⟩

theorem filter_insertBehind (x : Item W T) (t : T) (l : List (Item W T)) :
    (insertBehind x (.barrier t) l).filter (fun y => !y.isBarrier) = l.filter fun y => !y.isBarrier := by
  induction l with
  | nil => rfl
  | cons z l ih =>
    rw [insertBehind]
    split
    · simp [Item.isBarrier, List.filter_cons]
    · rw [List.filter_cons, List.filter_cons, ih]

/-! ## Starting -/

omit [DecidableEq G] in
theorem orderInv_start (hc : CoreInv cfg c) (h : OrderInv c q) {k : K} {src : Place P Q K}
    {x : Item W T} {q' : Q}
    (hs : Starts cfg c k src x q') : OrderInv (startWork cfg c k src x q') q := by
  obtain ⟨b, hb⟩ := hs.head
  have hx : x ∈ c.lists src := hb ▸ List.mem_cons_self
  have hlisted := hc.staged.listed x src hx
  have hbar : (c.flags x).barrier = x.isBarrier := (hc.layout.situated x).barrierBit src hx
  have hstage : (startWork cfg c k src x q').stage = Function.update c.stage (c.ticket x) (.running k) := rfl
  have hcancel := stage_update_live hstage (by rw [hlisted]; simp) (by simp)
  have hstart : ∀ n, (c.stage n).isStarted = true → ((startWork cfg c k src x q').stage n).isStarted = true :=
    fun n => started_update hstage fun _ => rfl
  have hdelayed : delayedTickets (startWork cfg c k src x q') q = delayedTickets c q := by
    have hne : Place.delayed q ≠ src := by
      rintro rfl
      exact Bool.noConfusion hs.source.not_delayed
    refine delayedTickets_congr ?_ (fun _ _ _ => rfl)
    simp only [startWork, Function.update_of_ne hne]
  have hplace : ∀ n ∈ c.queuedLog q, ∀ y, (startWork cfg c k src x q').stage n = .listed y →
      ((startWork cfg c k src x q').flags y).data = .pwq q ∧ (startWork cfg c k src x q').ticket y = n := by
    intro n hn y hy
    obtain ⟨hne, hold⟩ := listed_of_update hstage (by simp) hy
    obtain ⟨h1, h2⟩ := h.place n hn y hold
    have hyx : y ≠ x := by
      rintro rfl
      exact hne h2.symm
    refine ⟨?_, h2⟩
    simp only [startWork, Function.update_of_ne hyx]
    exact h1
  have hitems : ∀ y, y ≠ x → (y ∈ activeItems (startWork cfg c k src x q') q ↔ y ∈ activeItems c q) := by
    intro y hy
    simp only [activeItems, Set.mem_ofPred_eq, startWork, Function.update_of_ne hy]
  have hgone : x ∉ activeItems (startWork cfg c k src x q') q := by
    rintro ⟨-, hd, -⟩
    simp [startWork, workFlags] at hd
  by_cases hact : x ∈ activeItems c q
  · have hq : q' = q := by
      have := hact.2.1
      rw [hs.data] at this
      cases this
      rfl
    subst hq
    have hlog : (startWork cfg c k src x q').startedLog q' = c.startedLog q' ++ [c.ticket x] := by
      simp only [startWork, hbar, hact.1, Bool.false_eq_true, if_false, Function.update_self]
    have hempty : ∀ y, y ∉ activeItems (startWork cfg c k src x q') q' := by
      intro y hy
      have hyx : y ≠ x := by
        rintro rfl
        exact hgone hy
      have hyold := (hitems y hyx).mp hy
      have h1 := h.active y hyold
      rw [h.active x hact, List.append_cancel_left_eq, List.cons.injEq] at h1
      exact hyx (hc.ticket_inj hact.2.1 hyold.2.1 h1.1).symm
    have hlive : liveLog (startWork cfg c k src x q') q' = liveLog c q' :=
      liveLog_congr rfl fun n _ => hcancel n
    refine ⟨fun n hn => waiting_update hstage rfl (h.begun n hn), ?_, hplace,
      fun y hy => absurd hy (hempty y), ?_⟩
    · intro n hn
      rw [hlog] at hn
      rcases List.mem_append.mp hn with hn | hn
      · exact hstart n (h.started n hn)
      · rw [List.mem_singleton.mp hn, hstage, Function.update_self]
        rfl
    · intro _
      rw [hlive, hlog, hdelayed, h.active x hact, List.append_assoc]
      rfl
  · have hlog : (startWork cfg c k src x q').startedLog q = c.startedLog q := by
      by_cases hxb : x.isBarrier = true
      · simp only [startWork, hbar, hxb, if_true]
      · have hxb' : x.isBarrier = false := Bool.eq_false_iff.mpr hxb
        have hne : q ≠ q' := by
          rintro rfl
          refine hact ⟨hxb', hs.data, ?_⟩
          rw [(hc.layout.situated x).delayedBit src hx hxb', hs.source.not_delayed]
        simp only [startWork, hbar, hxb', Bool.false_eq_true, if_false, Function.update_of_ne hne]
    refine h.frame rfl hlog hdelayed (fun y => ?_) (fun _ _ => rfl) (fun n _ => hcancel n)
      (fun n hn => waiting_update hstage rfl (h.begun n hn)) hstart hplace
    by_cases hy : y = x
    · subst hy
      exact iff_of_false hgone hact
    · exact hitems y hy

/-! ## Activation -/

omit [DecidableEq P] [DecidableEq Q] [DecidableEq G] [DecidableEq W] [DecidableEq K] [DecidableEq T] in
theorem works_of_run (hc : CoreInv cfg c) {pl : Place P Q K} {a b : List (Item W T)} {x : Item W T}
    (hl : c.lists pl = a ++ x :: b) (hx : x.isBarrier = false) :
    (splitRun c.linked (x :: b)).1.filter (fun y => !y.isBarrier) = [x] := by
  have hnd : (splitRun c.linked (x :: b)).1.Nodup := by
    have h1 : (a ++ x :: b).Nodup := hl ▸ hc.layout.nodup pl
    exact (List.nodup_append.mp h1).2.1.sublist (splitRun_sublist _)
  obtain ⟨r, hr⟩ : ∃ r, (splitRun c.linked (x :: b)).1 = x :: r := by
    rw [splitRun]
    split
    · exact ⟨_, rfl⟩
    · exact ⟨_, rfl⟩
  have hrest : r.filter (fun y => !y.isBarrier) = [] := by
    refine List.filter_eq_nil_iff.mpr fun y hy hb => ?_
    have hyx : y = x := hc.eq_head_of_run hl (hr ▸ List.mem_cons_of_mem x hy) (by simpa using hb)
    rw [hr] at hnd
    exact (List.nodup_cons.mp hnd).1 (hyx ▸ hy)
  rw [hr, List.filter_cons_of_pos (by simp [hx]), hrest]

omit [DecidableEq G] in
theorem orderInv_activateFirst (hc : CoreInv cfg c) {q' : Q}
    (htally : Tally (activeItems c q') (activeWorkers c q') (c.nrActive q')) (hmax : cfg.maxActive q = 1)
    (h : OrderInv c q) : OrderInv (activateFirst cfg c q') q := by
  cases hl : c.lists (.delayed q') with
  | nil =>
    rw [activateFirst_nil hl]
    exact h
  | cons x l =>
    rw [activateFirst_cons hl]
    split
    · rename_i hlt
      have hx : x ∈ c.lists (.delayed q') := hl ▸ List.mem_cons_self
      have hxb := hc.head_delayed hl
      have hxq := hc.mem_delayed hx
      have hflags : (pwqActivateDelayedWork cfg c q' x).flags =
          Function.update c.flags x { c.flags x with delayed := false } := rfl
      have hitems : ∀ y, y ≠ x →
          (y ∈ activeItems (pwqActivateDelayedWork cfg c q' x) q ↔ y ∈ activeItems c q) := by
        intro y hy
        simp only [activeItems, Set.mem_ofPred_eq, hflags, Function.update_of_ne hy]
      have hdata : ∀ y, ((pwqActivateDelayedWork cfg c q' x).flags y).data = (c.flags y).data := by
        intro y
        exact ((decFrame_activate hx).word y).data
      have hplace : ∀ n ∈ c.queuedLog q, ∀ y, c.stage n = .listed y →
          ((pwqActivateDelayedWork cfg c q' x).flags y).data = .pwq q ∧ c.ticket y = n := by
        intro n hn y hy
        rw [hdata]
        exact h.place n hn y hy
      by_cases hq : q' = q
      · subst hq
        -- the head of the delayed list is the only active work now
        have hempty : activeItems c q' = ∅ := by
          refine Set.eq_empty_of_forall_notMem fun y hy => ?_
          have := Tally.pos_left htally hy
          omega
        have hmem : x ∈ activeItems (pwqActivateDelayedWork cfg c q' x) q' := by
          refine ⟨hxb, ?_, ?_⟩
          · rw [hdata]
            exact hxq
          · simp only [hflags, Function.update_self]
        have hlists : (pwqActivateDelayedWork cfg c q' x).lists (.delayed q') =
            (splitRun c.linked (x :: l)).2 := by
          unfold pwqActivateDelayedWork
          rw [moveLinkedWorks_head hl]
          simp [Core.moved]
        have hsplit : delayedTickets c q' =
            c.ticket x :: delayedTickets (pwqActivateDelayedWork cfg c q' x) q' := by
          unfold delayedTickets
          rw [hlists, hl]
          conv_lhs => rw [← @splitRun_append _ c.linked (x :: l)]
          rw [List.filter_append, works_of_run hc (a := []) hl hxb]
          rfl
        refine ⟨h.begun, h.started, hplace, ?_, ?_⟩
        · intro y hy
          have hyx : y = x := by
            by_contra hne
            have := (hitems y hne).mp hy
            rw [hempty] at this
            exact this
          subst hyx
          have hrest := h.rest hempty
          rw [hsplit] at hrest
          exact hrest
        · intro he
          rw [he] at hmem
          exact absurd hmem (Set.notMem_empty _)
      · refine h.frame rfl rfl ?_ (fun y => ?_) (fun _ _ => rfl) (fun _ _ => Iff.rfl) h.begun
          (fun _ hs => hs) hplace
        · refine delayedTickets_congr ?_ (fun _ _ _ => rfl)
          simp [pwqActivateDelayedWork, moveLinkedWorks, Ne.symm hq]
        · by_cases hy : y = x
          · subst hy
            refine iff_of_false (fun hm => ?_) (fun hm => ?_)
            · have hd := hm.2.1
              rw [hdata, hxq] at hd
              cases hd
              exact hq rfl
            · have hd := hm.2.1
              rw [hxq] at hd
              cases hd
              exact hq rfl
          · exact hitems y hy
    · exact h

theorem orderInv_dec (hc : CoreInv cfg c) {q' : Q} {barrier : Bool}
    (ha : AlmostActive cfg (c.decremented q' barrier) q') (hmax : cfg.maxActive q = 1) (h : OrderInv c q) :
    OrderInv (pwqDecNrInFlight cfg c q' barrier) q := by
  have h0 : OrderInv (c.decremented q' barrier) q := by
    cases barrier with
    | true => exact h
    | false => exact ⟨h.begun, h.started, h.place, h.active, h.rest⟩
  have h1 := orderInv_activateFirst (coreInv_decremented hc q' barrier) (ha.tally q') hmax h0
  exact ⟨h1.begun, h1.started, h1.place, h1.active, h1.rest⟩

/-! ## Finishing and cancelling -/

omit [DecidableEq P] [DecidableEq Q] [DecidableEq G] in
theorem orderInv_stopped (hc : CoreInv cfg c) (h : OrderInv c q) {k : K} {r : Running Q W T}
    (hk : c.curr k = some r) :
    OrderInv (c.stopped k r.ticket) q := by
  have hrun := hc.staged.running k r hk
  have hstage : (c.stopped k r.ticket).stage = Function.update c.stage r.ticket .finished := rfl
  refine h.frame rfl rfl rfl (fun _ => Iff.rfl) (fun _ _ => rfl)
    (fun n _ => stage_update_live hstage (by rw [hrun]; simp) (by simp) n)
    (fun n hn => waiting_update hstage rfl (h.begun n hn)) (fun n => started_update hstage fun _ => rfl) ?_
  intro n hn x hx
  exact h.place n hn x (listed_of_update hstage (by simp) hx).2

omit [DecidableEq G] in
theorem delayed_removed (hc : CoreInv cfg c) {q' : Q} {w : W} (hq : (c.flags (.work w)).data = .pwq q')
    (f : WorkFlags P Q) :
    (((grabActivated cfg c q' w).removed w f).lists (.delayed q)).filter (fun y => !y.isBarrier) =
      ((c.lists (.delayed q)).filter fun y => !y.isBarrier).filter fun y => decide (y ≠ .work w) := by
  have herase : ∀ {l : List (Item W T)}, l.Nodup → l.erase (.work w) = l.filter fun y =>
    decide (y ≠ .work w) := by
    intro l hl
    rw [hl.erase_eq_filter]
    exact List.filter_congr fun y _ => by simp [bne, beq_eq_decide]
  have hnd := (coreInv_grabActivated hc hq).layout.nodup (.delayed q)
  show (((grabActivated cfg c q' w).lists (.delayed q)).erase (.work w)).filter _ = _
  rw [herase hnd, List.filter_comm]
  by_cases hd : (c.flags (.work w)).delayed = true
  · obtain ⟨pl, hpl⟩ := (hc.layout.situated (.work w)).queued q' hq
    have hbit := (hc.layout.situated _).delayedBit pl hpl rfl
    obtain ⟨q1, hq1, hfit⟩ := hc.layout.data_of_mem hpl
    rw [hq] at hq1
    cases hq1
    rw [hd] at hbit
    cases pl with
    | worklist p => exact Bool.noConfusion hbit
    | scheduled k => exact Bool.noConfusion hbit
    | delayed q2 =>
      obtain rfl : q2 = q' := hfit
      have hact : grabActivated cfg c q2 w = pwqActivateDelayedWork cfg c q2 (.work w) := by
        simp [grabActivated, hd]
      obtain ⟨a, b, hl, hwa, hmove⟩ := moveLinkedWorks_eq c (.worklist (cfg.poolOf q2)) hpl
      rw [hact]
      by_cases hqq : q = q2
      · subst hqq
        have hlists : (pwqActivateDelayedWork cfg c q (.work w)).lists (.delayed q) =
            a ++ (splitRun c.linked (.work w :: b)).2 := by
          unfold pwqActivateDelayedWork
          rw [hmove]
          simp [Core.moved]
        rw [hlists, hl]
        conv_rhs => rw [← @splitRun_append _ c.linked (.work w :: b)]
        simp only [List.filter_append, works_of_run hc hl (show Item.isBarrier (.work w) = false from rfl)]
        simp
      · have hlists : (pwqActivateDelayedWork cfg c q2 (.work w)).lists (.delayed q) =
          c.lists (.delayed q) := by
          simp [pwqActivateDelayedWork, moveLinkedWorks, hqq]
        rw [hlists]
  · have hact : grabActivated cfg c q' w = c := by simp [grabActivated, hd]
    rw [hact]

omit [DecidableEq G] in
theorem orderInv_removed (hc : CoreInv cfg c) (h : OrderInv c q) {q' : Q} {w : W}
    (hq : (c.flags (.work w)).data = .pwq q') {f : WorkFlags P Q} (hf : ∀ q, f.data ≠ .pwq q) :
    OrderInv ((grabActivated cfg c q' w).removed w f) q := by
  obtain ⟨pl, hpl⟩ := (hc.layout.situated (.work w)).queued q' hq
  have hlisted := hc.staged.listed _ pl hpl
  obtain ⟨e1, e2, e3, e4, e5, e6, e7, e8, e9, e10⟩ := grabActivated_eq cfg c q' w
  have hstage : ((grabActivated cfg c q' w).removed w f).stage =
      Function.update c.stage (c.ticket (.work w)) .cancelled := by rw [Core.removed, e2, e4]
  have hticket : ((grabActivated cfg c q' w).removed w f).ticket = c.ticket := e2
  have hstarted : ((grabActivated cfg c q' w).removed w f).startedLog = c.startedLog := e10
  have hlog : ((grabActivated cfg c q' w).removed w f).queuedLog = c.queuedLog := e9
  have hflags : ∀ x, x ≠ .work w → ((grabActivated cfg c q' w).removed w f).flags x = c.flags x := by
    intro x hx
    simp only [Core.removed, Function.update_of_ne hx, grabActivated_flags]
  -- the cancelled ticket disappears from the live ones and from the delayed ones
  have hlive : liveLog ((grabActivated cfg c q' w).removed w f) q =
      (liveLog c q).filter fun n => decide (n ≠ c.ticket (.work w)) := by
    unfold liveLog
    rw [hlog, List.filter_filter]
    refine List.filter_congr fun n _ => ?_
    rw [hstage]
    by_cases hn : n = c.ticket (.work w)
    · simp [hn]
    · simp [hn]
  have hdelayed : delayedTickets ((grabActivated cfg c q' w).removed w f) q =
      (delayedTickets c q).filter fun n => decide (n ≠ c.ticket (.work w)) := by
    unfold delayedTickets
    rw [delayed_removed hc hq, hticket, List.filter_map]
    congr 1
    refine List.filter_congr fun x hx => decide_eq_decide.mpr (not_congr ⟨fun he => by rw [he], fun he => ?_⟩)
    exact hc.ticket_inj (hc.mem_delayed (List.mem_filter.mp hx).1) hq he
  have hkeep : (c.startedLog q).filter (fun n => decide (n ≠ c.ticket (.work w))) = c.startedLog q := by
    refine List.filter_eq_self.mpr fun n hn => decide_eq_true ?_
    rintro rfl
    have := h.started _ hn
    rw [hlisted] at this
    exact Bool.noConfusion this
  have hitems : ∀ y, y ≠ Item.work w →
      (y ∈ activeItems ((grabActivated cfg c q' w).removed w f) q ↔ y ∈ activeItems c q) := by
    intro y hy
    simp only [activeItems, Set.mem_ofPred_eq, hflags y hy]
  have hgone : Item.work w ∉ activeItems ((grabActivated cfg c q' w).removed w f) q := by
    rintro ⟨-, hd, -⟩
    simp only [Core.removed, Function.update_self] at hd
    exact hf q hd
  refine ⟨?_, ?_, ?_, ?_, ?_⟩
  · intro n hn
    rw [hlog] at hn
    exact waiting_update hstage rfl (h.begun n hn)
  · intro n hn
    rw [hstarted] at hn
    refine started_update hstage (fun hs => ?_) (h.started n hn)
    rw [hlisted] at hs
    exact Bool.noConfusion hs
  · intro n hn x hx
    rw [hlog] at hn
    obtain ⟨hne, hold⟩ := listed_of_update hstage (by simp) hx
    obtain ⟨h1, h2⟩ := h.place n hn x hold
    have hxw : x ≠ .work w := by
      rintro rfl
      exact hne h2.symm
    rw [hflags x hxw, hticket]
    exact ⟨h1, h2⟩
  · intro x hx
    have hxw : x ≠ .work w := by
      rintro rfl
      exact hgone hx
    have hold := (hitems x hxw).mp hx
    have hne : c.ticket x ≠ c.ticket (.work w) := fun he => hxw (hc.ticket_inj hold.2.1 hq he)
    rw [hlive, hdelayed, hstarted, hticket, h.active x hold, List.filter_append, hkeep,
      List.filter_cons_of_pos (by simpa using hne)]
  · intro he
    rw [hlive, hdelayed, hstarted]
    by_cases hw : Item.work w ∈ activeItems c q
    · rw [h.active _ hw, List.filter_append, hkeep, List.filter_cons_of_neg (by simp)]
    · have hempty : activeItems c q = ∅ := by
        refine Set.eq_empty_of_forall_notMem fun y hy => ?_
        have hyw : y ≠ .work w := by
          rintro rfl
          exact hw hy
        have := (hitems y hyw).mpr hy
        rw [he] at this
        exact this
      rw [h.rest hempty, List.filter_append, hkeep]

theorem OrderInv.move {allow : Prop} (hc : CoreInv cfg c) (ha : ActiveOk cfg c) (hmax : cfg.maxActive q = 1)
    (h : OrderInv c q) (hm : CoreMove cfg allow c c') : OrderInv c' q := by
  cases hm with
  | base q' hb => exact ⟨h.begun, h.started, h.place, h.active, h.rest⟩
  | refcnt ha' q' v => exact ⟨h.begun, h.started, h.place, h.active, h.rest⟩
  | @word w f hw hf =>
    have hne : ∀ x q, (c.flags x).data = .pwq q → x ≠ .work w := by
      rintro x q hx rfl
      exact hw q hx
    refine h.frame rfl rfl rfl (fun x => ?_) (fun _ _ => rfl) (fun _ _ => Iff.rfl) h.begun (fun _ hs => hs) ?_
    · by_cases hx : x = .work w
      · subst hx
        refine iff_of_false (fun hm => ?_) (fun hm => hw q hm.2.1)
        have hd := hm.2.1
        simp only [Core.setFlags, Function.update_self] at hd
        exact hf q hd
      · simp only [activeItems, Set.mem_ofPred_eq, Core.setFlags, Function.update_of_ne hx]
    · intro n hn x hx
      obtain ⟨h1, h2⟩ := h.place n hn x hx
      simp only [Core.setFlags, Function.update_of_ne (hne x q h1)]
      exact ⟨h1, h2⟩
  | @restage n m st hn hlt hle =>
    have hstage : ∀ i ∈ c.queuedLog q, Function.update c.stage n st i = c.stage i := by
      intro i hi
      have hne : i ≠ n := fun he => isWaiting_not_mem h hn (he ▸ hi)
      rw [Function.update_of_ne hne]
    refine h.frame rfl rfl rfl (fun _ => Iff.rfl) (fun _ _ => rfl) (fun i hi => ?_) (fun i hi => ?_)
      (fun i hi => ?_) ?_
    · simp only [hstage i hi]
    · simp only [hstage i hi]
      exact h.begun i hi
    · have hne : i ≠ n := by
        rintro rfl
        revert hn hi
        cases c.stage i <;> simp [Stage.isWaiting, Stage.isStarted]
      simp only [Function.update_of_ne hne]
      exact hi
    · intro i hi x hx
      simp only [hstage i hi] at hx
      exact h.place i hi x hx
  | queue hw hn => exact orderInv_queue hc ha hmax h hw hn
  | @behind q' w t hq ht =>
    obtain ⟨pl, -, hi⟩ := insertBarrierBehind_inserted hc hq ht
    exact orderInv_barrier hc h hi (filter_insertBehind _ _ _) rfl rfl
  | @front k r t hk ht =>
    refine orderInv_barrier hc h (insertBarrierFront_inserted hc hk ht) ?_ rfl rfl
    simp [insertBarrierFront, startBarrier, insertWork]
  | pick hp =>
    obtain ⟨c1, hr, hc'⟩ := (picks_of_pickWork hc hp).2
    have h1 : OrderInv c1 q := by
      have hdel : delayedTickets c1 q = delayedTickets c q :=
        delayedTickets_congr (hr.delayed q) fun _ _ _ => by rw [hr.core.2.2.2.1]
      refine h.frame ?_ ?_ hdel (fun x => ?_) (fun _ _ => by rw [hr.core.2.2.2.1])
        (fun _ _ => by rw [hr.core.2.2.1]) ?_
        (fun _ hs => by rw [hr.core.2.2.1]; exact hs) ?_
      · rw [hr.eq]
      · rw [hr.eq]
      · simp only [activeItems, Set.mem_ofPred_eq, hr.core.1]
      · rw [hr.core.2.2.1]
        exact h.begun
      · rw [hr.core.2.2.1, hr.core.1, hr.core.2.2.2.1]
        exact h.place
    rcases hc' with rfl | ⟨src, x, q', hs, rfl⟩
    · exact h1
    · exact orderInv_start hr.inv h1 hs
  | called hk => exact ⟨h.begun, h.started, h.place, h.active, h.rest⟩
  | finish hk =>
    exact orderInv_dec (coreInv_stopped hc hk) (almostActive_stopped ha hk) hmax (orderInv_stopped hc h hk)
  | grab hq =>
    rw [grabQueued_eq hc hq]
    exact orderInv_dec (coreInv_grabRemoved hc hq) (almostActive_removed hc ha hq) hmax
      (orderInv_removed hc h hq (by simp [workFlags]))

end Order

/-! ## Whole runs -/

section Runs
variable {cfg : WqConfig P Q G K}

structure OrderState (cfg : WqConfig P Q G K) (q : Q) (s : WqState P Q G W K T) : Prop where
  ctl : Ctl cfg s
  active : ActiveOk cfg s.core
  order : OrderInv s.core q

theorem orderState_init (cfg : WqConfig P Q G K) (q : Q) :
    OrderState cfg q (wqInit : WqState P Q G W K T) where
  ctl := ctl_init cfg
  active := activeOk_init cfg
  order :=
    { begun := fun _ hn => nomatch hn
      started := fun _ hn => nomatch hn
      place := fun _ hn => nomatch hn
      active := fun _ hx => nomatch hx.2.1
      rest := fun _ => rfl }

variable [DecidableEq P] [DecidableEq Q] [DecidableEq G]

theorem orderState_step {q : Q} (hmax : cfg.maxActive q = 1) {s s' : WqState P Q G W K T}
    {a : WqAct Q G W K T}
    (h : OrderState cfg q s) (hs : wqStep cfg s a = some s') : OrderState cfg q s' := by
  have he := wqStep_effect hs
  have hmove : ∀ c c' : Core P Q G W K T, CoreInv cfg c → ActiveOk cfg c ∧ OrderInv c q →
      CoreMove cfg (Foreign s) c c' →
      ActiveOk cfg c' ∧ OrderInv c' q := fun c c' hc hi hm => ⟨hi.1.move hc hm, hi.2.move hc hi.1 hmax hm⟩
  obtain ⟨h1, h2⟩ := effect_invariant hmove h.ctl he ⟨h.active, h.order⟩
  exact ⟨ctl_effect h.ctl he, h1, h2⟩

/-- For the only pool_workqueue `q` of an ordered workqueue: at most one work is on the worklist, on
a scheduled list or executing, and the works that have started are the first of those put on its
lists and not cancelled. -/
theorem ordered_ok (cfg : WqConfig P Q G K) (g : G) (q : Q) (hq : ∀ q', cfg.wqOf q' = g ↔ q' = q)
    (hmax : cfg.maxActive q = 1) (as : List (WqAct Q G W K T)) (s : WqState P Q G W K T)
    (hr : runActs (wqStep cfg) wqInit as = some s) :
    (∀ q', cfg.wqOf q' = g → (activeWorks s.core q').encard + (executingWorks s.core q').encard ≤ 1) ∧
      s.core.startedLog q <+: (s.core.queuedLog q).filter fun n => decide (s.core.stage n ≠ .cancelled) := by
  have h := run_invariant (fun _ _ _ h _ hs => orderState_step hmax h hs) as wqInit s (orderState_init cfg q)
    (runMeets_trivial as wqInit) hr
  refine ⟨fun q' hq' => ?_, ?_⟩
  · obtain rfl := (hq q').mp hq'
    rw [activeWorks_eq h.ctl.core, executingWorks_eq h.ctl.core]
    have htally : (activeItems s.core q').encard + (activeWorkers s.core q').encard =
        (s.core.nrActive q' : ℕ∞) :=
      h.active.tally q'
    rw [htally]
    have hle := h.active.le q'
    rw [hmax] at hle
    exact_mod_cast hle
  · show s.core.startedLog q <+: liveLog s.core q
    by_cases hne : (activeItems s.core q).Nonempty
    · obtain ⟨x, hx⟩ := hne
      rw [h.order.active x hx]
      exact List.prefix_append _ _
    · rw [h.order.rest (Set.not_nonempty_iff_eq_empty.mp hne)]
      exact List.prefix_append _ _

/-- Two works are queued, the first runs, is cancelled nowhere, and the second starts after it. -/
def twoInOrder : List (WqAct Unit Unit Bool Unit Bool) :=
  [.queue (.queueWork true true ()), .queue (.select true () false), .queue (.lockLast true),
    .queue (.switchLock true),
   .queue (.queueWork true false ()), .queue (.select true () false), .queue (.lockLast true),
   .queue (.switchLock true),
   .worker (.pick ()), .worker (.finish ()), .worker (.pick ())]

theorem ordered_ok_twoInOrder :
    ∃ s, runActs (wqStep onePool) wqInit twoInOrder = some s ∧ s.core.startedLog () = [0, 1] ∧
      s.core.queuedLog () = [0, 1] ∧ (activeWorks s.core ()).encard + (executingWorks s.core ()).encard ≤ 1 ∧
      s.core.startedLog () <+: (s.core.queuedLog ()).filter fun n =>
  decide (s.core.stage n ≠ .cancelled) := by
  obtain ⟨s, hs, h1, h2⟩ : ∃ s, runActs (wqStep onePool) wqInit twoInOrder = some s ∧
    s.core.startedLog () = [0, 1] ∧
      s.core.queuedLog () = [0, 1] := ⟨_, rfl, rfl, rfl⟩
  obtain ⟨h3, h4⟩ := ordered_ok onePool () () (fun _ => Iff.rfl) rfl twoInOrder s hs
  exact ⟨s, hs, h1, h2, h3 () rfl, h4⟩

end Runs

end Skp.Workqueue
