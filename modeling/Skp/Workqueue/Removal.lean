import Skp.Workqueue.Moves

/-! # Finishing and cancelling

A work that returns ends its ticket, and so does the removal of a queued work in `try_to_grab_pending`; the
barriers that wait for the ticket rely on no other entry from then on. -/
namespace Skp.Workqueue
set_option autoImplicit false
open Skp.Foundations

variable {P Q G W K T : Type}

/-! ## Tickets that are on no list -/

/-- The ticket is not given out, or its queueing is still on the way to a list. -/
def Stage.isWaiting {W T K : Type} : Stage W T K → Bool
  | .unused => true
  | .held _ => true
  | .timer _ => true
  | _ => false

section Restage
variable {cfg : WqConfig P Q G K} {c : Core P Q G W K T}

theorem CoreInv.restage (h : CoreInv cfg c) {n m : ℕ} (hn : (c.stage n).isWaiting = true) (hlt : n < m)
    (hle : c.next ≤ m) (st : Stage W T K) :
    CoreInv cfg { c with stage := Function.update c.stage n st, next := m } := by
  have hchain : Core.chain { c with stage := Function.update c.stage n st, next := m } = c.chain := by
    funext y
    cases y with
    | work v => rfl
    | barrier u => rfl
  have hover : ∀ i, Core.over { c with stage := Function.update c.stage n st, next := m } i = false →
      c.over i = false := by
    intro i hi
    by_cases hin : i = n
    · subst hin
      revert hn
      simp only [Core.over]
      cases c.stage i <;> simp [Stage.isWaiting, Stage.isOver]
    · simpa [Core.over, hin] using hi
  have hlisted : ∀ x : Item W T, c.stage n ≠ .listed x := by
    intro x hx
    rw [hx] at hn
    exact Bool.noConfusion hn
  have hrunning : ∀ k : K, c.stage n ≠ .running k := by
    intro k hx
    rw [hx] at hn
    exact Bool.noConfusion hn
  refine ⟨⟨h.layout.nodup, ?_, h.layout.running_pool, h.layout.running_bit,
    h.layout.running_unique⟩, ⟨?_, ?_⟩,
    ⟨?_, ?_, ?_, h.staged.calls_le, ?_⟩⟩
  · exact fun x => (h.layout.situated x).congr (fun _ => Iff.rfl) (SameWord.refl _) rfl
  · intro pl
    refine (h.chained.path pl).relink (fun _ _ => rfl) (fun y z _ _ hs => ⟨hs.1, ?_⟩)
      (fun y _ hy => ⟨hy.1, ?_⟩)
    · rw [hchain]
      exact hs.2
    · have h2 := hy.2
      cases pl with
      | worklist p => exact hover _ (by simpa only [hchain] using h2)
      | delayed q => trivial
      | scheduled k =>
        refine ⟨hover _ (by simpa only [hchain] using h2.1), ?_⟩
        simpa only [hchain] using h2.2
  · intro k r hk hb
    by_contra hf
    have := hover r.chain (Bool.eq_false_iff.mpr hf)
    rw [h.chained.running_over k r hk hb] at this
    exact Bool.noConfusion this
  · intro x pl hx
    have hs := h.staged.listed x pl hx
    have hne : c.ticket x ≠ n := by
      rintro he
      exact hlisted x (he ▸ hs)
    simpa [hne] using hs
  · intro k r hr
    have hs := h.staged.running k r hr
    have hne : r.ticket ≠ n := by
      rintro he
      exact hrunning k (he ▸ hs)
    simpa [hne] using hs
  · intro i hi
    have hne : i ≠ n := (lt_of_lt_of_le hlt hi).ne'
    simpa [hne] using h.staged.fresh i (hle.trans hi)
  · intro i hi
    by_cases hin : i = n
    · subst hin
      refine h.staged.calls_zero i ?_
      revert hn
      cases c.stage i <;> simp [Stage.isWaiting, Stage.isStarted]
    · exact h.staged.calls_zero i (by simpa [hin] using hi)

end Restage

/-! ## The end of a work -/

section Finish
variable {cfg : WqConfig P Q G K} {c : Core P Q G W K T}

theorem needs_of_over {c c' : Core P Q G W K T} {pl : Place P Q K} {y : Item W T} {n : ℕ}
    (hchain : c'.chain y = c.chain y) (hover : ∀ m, c'.over m = false → c.over m = false ∧ m ≠ n)
    (hcurr : ∀ k r, pl = .scheduled k → c.curr k = some r → c'.curr k = some r ∨ r.ticket = n) :
    c'.needs pl y → c.needs pl y := by
  intro hn
  refine ⟨hn.1, ?_⟩
  have h2 := hn.2
  cases pl with
  | worklist p => exact (hover _ (hchain ▸ h2)).1
  | delayed q => trivial
  | scheduled k =>
    obtain ⟨ho, hne⟩ := hover _ (hchain ▸ h2.1)
    refine ⟨ho, fun r hr => ?_⟩
    rcases hcurr k r rfl hr with hr' | hr'
    · rw [← hchain]
      exact h2.2 r hr'
    · exact fun he => hne (he.symm.trans hr')

theorem over_update_over {c c' : Core P Q G W K T} {n : ℕ} {st : Stage W T K} (hst : st.isOver = true)
    (hs : c'.stage = Function.update c.stage n st) (m : ℕ) (hm : c'.over m = false) :
    c.over m = false ∧ m ≠ n := by
  have hne : m ≠ n := by
    rintro rfl
    simp [Core.over, hs, hst] at hm
  exact ⟨by simpa [Core.over, hs, hne] using hm, hne⟩

variable [DecidableEq K]

/-- The worker `k` has nothing to execute and the ticket is finished. -/
def Core.stopped (c : Core P Q G W K T) (k : K) (n : ℕ) : Core P Q G W K T :=
  { c with curr := Function.update c.curr k none, stage := Function.update c.stage n .finished }

theorem coreInv_stopped (h : CoreInv cfg c) {k : K} {r : Running Q W T} (hk : c.curr k = some r) :
    CoreInv cfg (c.stopped k r.ticket) := by
  generalize hc' : c.stopped k r.ticket = c'
  have hstage : c'.stage = Function.update c.stage r.ticket .finished := by rw [← hc']; rfl
  have hcurr : c'.curr = Function.update c.curr k none := by rw [← hc']; rfl
  have hover := over_update_over rfl hstage
  have hchain : c'.chain = c.chain := by
    funext y
    subst hc'
    cases y with
    | work v => rfl
    | barrier u => rfl
  have hold : ∀ k' r', c'.curr k' = some r' → k' ≠ k ∧ c.curr k' = some r' := by
    intro k' r' hr'
    rw [hcurr] at hr'
    have hk' : k' ≠ k := by
      rintro rfl
      simp at hr'
    exact ⟨hk', by simpa [hk'] using hr'⟩
  have hrun := h.staged.running k r hk
  have hlists : c'.lists = c.lists := by rw [← hc']; rfl
  have hflags : c'.flags = c.flags := by rw [← hc']; rfl
  have hlinked : c'.linked = c.linked := by
    funext y
    simp only [Core.linked, hflags]
  refine ⟨⟨?_, ?_, ?_, ?_, ?_⟩, ⟨?_, ?_⟩, ⟨?_, ?_, ?_, ?_, ?_⟩⟩
  · intro pl
    rw [hlists]
    exact h.layout.nodup pl
  · intro x
    refine (h.layout.situated x).congr (fun pl => by rw [hlists]) ?_ ?_
    · rw [hflags]
      exact SameWord.refl _
    · rw [hflags]
  · exact fun k' r' hr' => h.layout.running_pool k' r' (hold k' r' hr').2
  · exact fun k' r' hr' => h.layout.running_bit k' r' (hold k' r' hr').2
  · exact fun k1 k2 r1 r2 h1 h2 =>
      h.layout.running_unique k1 k2 r1 r2 (hold k1 r1 h1).2 (hold k2 r2 h2).2
  · intro pl
    rw [hlists]
    refine (h.chained.path pl).relink (fun y _ => by rw [hlinked]) (fun y z _ _ hs => ⟨hs.1, ?_⟩)
      (fun y _ => ?_)
    · rw [hchain]
      exact hs.2
    · refine needs_of_over (congrFun hchain y) hover ?_
      intro k' r' _ hr'
      by_cases hk' : k' = k
      · subst hk'
        rw [hk] at hr'
        cases hr'
        exact Or.inr rfl
      · left
        rw [hcurr, Function.update_of_ne hk']
        exact hr'
  · intro k' r' hr' hb
    have ho := h.chained.running_over k' r' (hold k' r' hr').2 hb
    by_contra hf
    rw [(hover _ (Bool.eq_false_iff.mpr hf)).1] at ho
    exact Bool.noConfusion ho
  · intro x pl hx
    rw [hlists] at hx
    have hs := h.staged.listed x pl hx
    have hticket : c'.ticket = c.ticket := by rw [← hc']; rfl
    have hne : c.ticket x ≠ r.ticket := by
      intro he
      rw [he, hrun] at hs
      cases hs
    rw [hstage, hticket, Function.update_of_ne hne]
    exact hs
  · intro k' r' hr'
    obtain ⟨hk', hr'⟩ := hold k' r' hr'
    have hs := h.staged.running k' r' hr'
    have hne : r'.ticket ≠ r.ticket := by
      intro he
      rw [he, hrun] at hs
      cases hs
      exact hk' rfl
    rw [hstage, Function.update_of_ne hne]
    exact hs
  · intro n hn
    have hnext : c'.next = c.next := by rw [← hc']; rfl
    rw [hnext] at hn
    have hs := h.staged.fresh n hn
    have hne : n ≠ r.ticket := by
      intro he
      rw [he, hrun] at hs
      cases hs
    rw [hstage, Function.update_of_ne hne]
    exact hs
  · have hcalls : c'.calls = c.calls := by rw [← hc']; rfl
    rw [hcalls]
    exact h.staged.calls_le
  · intro n hn
    have hcalls : c'.calls = c.calls := by rw [← hc']; rfl
    have hne : n ≠ r.ticket := by
      rintro rfl
      rw [hstage, Function.update_self] at hn
      exact Bool.noConfusion hn
    rw [hstage, Function.update_of_ne hne] at hn
    rw [hcalls]
    exact h.staged.calls_zero n hn

variable [DecidableEq P] [DecidableEq Q] [DecidableEq G] [DecidableEq W] [DecidableEq T]

theorem finishWork_eq (cfg : WqConfig P Q G K) (c : Core P Q G W K T) (k : K) (r : Running Q W T) :
    finishWork cfg c k r = pwqDecNrInFlight cfg (c.stopped k r.ticket) r.pwq r.barrier := rfl

theorem coreInv_finishWork (h : CoreInv cfg c) {k : K} {r : Running Q W T} (hk : c.curr k = some r) :
    CoreInv cfg (finishWork cfg c k r) := by
  rw [finishWork_eq]
  exact coreInv_pwqDecNrInFlight (coreInv_stopped h hk) r.pwq r.barrier

end Finish

/-! ## Taking a queued work back -/

section Grab
variable {cfg : WqConfig P Q G K} {c : Core P Q G W K T}

variable [DecidableEq W] [DecidableEq T]

/-- The work is off its list with the flags word `f`, and its ticket is cancelled. -/
def Core.removed (c : Core P Q G W K T) (w : W) (f : WorkFlags P Q) : Core P Q G W K T :=
  { c with
    flags := Function.update c.flags (.work w) f
    lists := fun pl => (c.lists pl).erase (.work w)
    stage := Function.update c.stage (c.ticket (.work w)) .cancelled }

variable [DecidableEq P] [DecidableEq Q] [DecidableEq K]

theorem coreInv_removed (h : CoreInv cfg c) {w : W} {pl : Place P Q K} (hw : Item.work w ∈ c.lists pl)
    (hpl : pl.isDelayed = false) {f : WorkFlags P Q} (hf : ∀ q, f.data ≠ .pwq q) :
    CoreInv cfg (c.removed w f) := by
  have hlisted := h.staged.listed _ pl hw
  have hstage : (c.removed w f).stage = Function.update c.stage (c.ticket (.work w)) .cancelled := rfl
  have hover := over_update_over rfl hstage
  have hchain : (c.removed w f).chain = c.chain := by
    funext y
    cases y with
    | work v => rfl
    | barrier u => rfl
  have hneeds : ∀ pl' y, (c.removed w f).needs pl' y → c.needs pl' y := fun pl' y =>
    needs_of_over (congrFun hchain y) hover fun _ _ _ hr => Or.inl hr
  have hlinked : ∀ y, y ≠ .work w → (c.removed w f).linked y = c.linked y := by
    intro y hy
    simp [Core.linked, Core.removed, hy]
  have hgone : ∀ pl', Item.work w ∉ (c.lists pl').erase (.work w) :=
    fun pl' => (h.layout.nodup pl').not_mem_erase
  have hother : ∀ pl', pl' ≠ pl → (c.lists pl').erase (.work w) = c.lists pl' := by
    intro pl' hp
    exact List.erase_of_not_mem fun hm => hp ((h.layout.situated _).unique pl' pl hm hw)
  refine ⟨⟨?_, ?_, h.layout.running_pool, h.layout.running_bit, h.layout.running_unique⟩, ⟨?_, ?_⟩,
    ⟨?_, ?_, ?_, h.staged.calls_le, ?_⟩⟩
  · exact fun pl' => (h.layout.nodup pl').erase _
  · intro x
    by_cases hx : x = .work w
    · subst hx
      refine situated_of_unlisted hgone fun q => ?_
      simpa [Core.removed] using hf q
    · refine (h.layout.situated x).congr (fun pl' => List.mem_erase_of_ne hx) ?_ ?_
      · simp [Core.removed, hx, SameWord]
      · simp [Core.removed, hx]
  · intro pl'
    by_cases hp : pl' = pl
    · subst hp
      obtain ⟨a, b, hab, hwa, -, -⟩ := exists_cut_at hw
      have herase : (c.lists pl').erase (.work w) = a ++ b := by
        rw [hab, List.erase_append_right _ hwa, List.erase_cons_head]
      have hne : ∀ y, y ∈ a ++ b → y ≠ Item.work w := by
        rintro y hy rfl
        exact hgone pl' (herase ▸ hy)
      have hold : ListPath (Link c.linked (c.removed w f).same ((c.removed w f).needs pl')) none
          (a ++ .work w :: b) none := by
        have hp := h.chained.path pl'
        rw [hab] at hp
        refine hp.relink (fun _ _ => rfl) (fun y z _ _ hs => ⟨hs.1, ?_⟩) (fun y _ => hneeds pl' y)
        rw [hchain]
        exact hs.2
      have hnew := path_remove hold (h.chained.gap_before hab (Or.inl rfl)) ?_
      · show ListPath _ none ((c.lists pl').erase (.work w)) none
        rw [herase]
        exact hnew.relink (fun y hy => hlinked y (hne y (hy.resolve_left (by simp)))) (fun _ _ _ _ hs => hs)
          (fun _ _ hn => hn)
      · -- the group of the work waits for the ticket that is cancelled now
        intro y _ hxy hn
        have hcy : c.chain y = c.ticket (.work w) := by
          have := hxy.2
          rwa [hchain] at this
        have ho : (c.removed w f).over (c.chain y) = false := by
          have h2 := hn.2
          cases pl' with
          | worklist p => simpa only [hchain] using h2
          | delayed q => exact Bool.noConfusion hpl
          | scheduled k => simpa only [hchain] using h2.1
        exact (hover _ ho).2 hcy
    · show ListPath _ none ((c.lists pl').erase (.work w)) none
      rw [hother pl' hp]
      refine (h.chained.path pl').relink (fun y hy => hlinked y ?_) (fun y z _ _ hs => ⟨hs.1, ?_⟩)
        (fun y _ => hneeds pl' y)
      · rintro rfl
        exact hp ((h.layout.situated _).unique pl' pl (hy.resolve_left (by simp)) hw)
      · rw [hchain]
        exact hs.2
  · intro k r hr hb
    have ho := h.chained.running_over k r hr hb
    by_contra hfalse
    rw [(hover _ (Bool.eq_false_iff.mpr hfalse)).1] at ho
    exact Bool.noConfusion ho
  · intro x pl' hx
    have hxw : x ≠ .work w := by
      rintro rfl
      exact hgone pl' hx
    have hs := h.staged.listed x pl' (List.mem_of_mem_erase hx)
    have hne : c.ticket x ≠ c.ticket (.work w) := by
      intro he
      rw [he, hlisted] at hs
      cases hs
      exact hxw rfl
    show Function.update c.stage (c.ticket (.work w)) .cancelled (c.ticket x) = _
    rw [Function.update_of_ne hne]
    exact hs
  · intro k r hr
    have hs := h.staged.running k r hr
    have hne : r.ticket ≠ c.ticket (.work w) := by
      intro he
      rw [he, hlisted] at hs
      cases hs
    show Function.update c.stage (c.ticket (.work w)) .cancelled r.ticket = _
    rw [Function.update_of_ne hne]
    exact hs
  · intro n hn
    have hne : n ≠ c.ticket (.work w) := (lt_of_lt_of_le (h.ticket_lt hw) hn).ne'
    show Function.update c.stage (c.ticket (.work w)) .cancelled n = _
    rw [Function.update_of_ne hne]
    exact h.staged.fresh n hn
  · intro n hn
    refine h.staged.calls_zero n ?_
    by_cases hne : n = c.ticket (.work w)
    · rw [hne, hlisted]
      rfl
    · simpa [Core.removed, hne] using hn

theorem activateFirst_nil {q : Q} (hl : c.lists (.delayed q) = []) : activateFirst cfg c q = c := by
  simp [activateFirst, hl]

theorem activateFirst_cons {q : Q} {x : Item W T} {l : List (Item W T)} (hl : c.lists (.delayed q) = x :: l) :
    activateFirst cfg c q = if c.nrActive q < cfg.maxActive q then
      pwqActivateDelayedWork cfg c q x else c := by
  simp [activateFirst, hl]

theorem moveLinkedWorks_head {src : Place P Q K} {x : Item W T} {l : List (Item W T)}
    (hl : c.lists src = x :: l)
    (dst : Place P Q K) : moveLinkedWorks c src dst x = c.moved src dst [] (splitRun c.linked (x :: l)) := by
  simp [moveLinkedWorks, Core.moved, hl]

/-- The flags word of one item is exchanged. -/
def Core.setWord (c : Core P Q G W K T) (x : Item W T) (f : WorkFlags P Q) : Core P Q G W K T :=
  { c with flags := Function.update c.flags x f }

/-- `pwq_dec_nr_in_flight` does not look at an item that is on no list. -/
theorem activateFirst_setWord (cfg : WqConfig P Q G K) {x : Item W T} (hx : ∀ pl, x ∉ c.lists pl)
    (f : WorkFlags P Q) (q : Q) :
    activateFirst cfg (c.setWord x f) q = (activateFirst cfg c q).setWord x f := by
  cases hl : c.lists (.delayed q) with
  | nil => rw [activateFirst_nil hl, activateFirst_nil (c := c.setWord x f) hl]
  | cons y l =>
    rw [activateFirst_cons hl, activateFirst_cons (c := c.setWord x f) hl]
    have hnr : (c.setWord x f).nrActive = c.nrActive := rfl
    rw [hnr]
    have hne : ∀ z ∈ c.lists (.delayed q), z ≠ x := by
      rintro z hz rfl
      exact hx _ hz
    have hyx : y ≠ x := hne y (hl ▸ List.mem_cons_self)
    have hsplit : splitRun (c.setWord x f).linked (y :: l) = splitRun c.linked (y :: l) := by
      refine splitRun_congr fun z hz => ?_
      simp [Core.linked, Core.setWord, hne z (hl ▸ hz)]
    split
    · unfold pwqActivateDelayedWork
      rw [moveLinkedWorks_head hl, moveLinkedWorks_head (c := c.setWord x f) hl, hsplit]
      simp only [Core.moved, Core.setWord, Function.update_of_ne hyx]
      rw [Function.update_comm hyx]
    · rfl

variable [DecidableEq G]

theorem pwqDecNrInFlight_setWord (cfg : WqConfig P Q G K) {x : Item W T} (hx : ∀ pl, x ∉ c.lists pl)
    (f : WorkFlags P Q) (q : Q) (barrier : Bool) :
    pwqDecNrInFlight cfg (c.setWord x f) q barrier = (pwqDecNrInFlight cfg c q barrier).setWord x f := by
  cases barrier with
  | true =>
    have ha := activateFirst_setWord cfg hx f q
    simp only [pwqDecNrInFlight, if_true, ha]
    rfl
  | false =>
    have ha := activateFirst_setWord cfg (c := { c with
      nrActive := Function.update c.nrActive q (c.nrActive q - 1) }) hx f q
    simp only [pwqDecNrInFlight, Bool.false_eq_true, if_false]
    exact congrArg (fun d : Core P Q G W K T => { d with
      removeSeq := Function.update d.removeSeq (cfg.wqOf q) (d.removeSeq (cfg.wqOf q) + 1)
      refcnt := Function.update d.refcnt q (d.refcnt q - 1) }) ha

/-- The work that is taken back, activated first when it is delayed. -/
def grabActivated (cfg : WqConfig P Q G K) (c : Core P Q G W K T) (q : Q) (w : W) : Core P Q G W K T :=
  if (c.flags (.work w)).delayed then pwqActivateDelayedWork cfg c q (.work w) else c

omit [DecidableEq G] in
theorem coreInv_grabActivated (h : CoreInv cfg c) {q : Q} {w : W} (hq : (c.flags (.work w)).data = .pwq q) :
    CoreInv cfg (grabActivated cfg c q w) := by
  unfold grabActivated
  split
  · rename_i hd
    obtain ⟨pl, hpl⟩ := (h.layout.situated _).queued q hq
    have hbit := (h.layout.situated _).delayedBit pl hpl rfl
    rw [hd] at hbit
    obtain ⟨q', hq', hfit⟩ := h.layout.data_of_mem hpl
    rw [hq] at hq'
    cases hq'
    cases pl with
    | worklist p => exact Bool.noConfusion hbit
    | delayed q1 =>
      obtain rfl : q1 = q := hfit
      exact coreInv_activate h hpl rfl
    | scheduled k => exact Bool.noConfusion hbit
  · exact h

omit [DecidableEq G] in
theorem grabActivated_flags (cfg : WqConfig P Q G K) (c : Core P Q G W K T) (q : Q) (w : W) :
    (grabActivated cfg c q w).flags =
      Function.update c.flags (.work w) { c.flags (.work w) with delayed := false } := by
  unfold grabActivated
  split
  · rfl
  · rename_i hd
    have hf : c.flags (.work w) = { c.flags (.work w) with delayed := false } := by
      rw [← Bool.eq_false_iff.mpr hd]
    rw [← hf, Function.update_eq_self]

omit [DecidableEq G] in
theorem mem_grabActivated (h : CoreInv cfg c) {q : Q} {w : W} (hq : (c.flags (.work w)).data = .pwq q) :
    ∃ pl, Item.work w ∈ (grabActivated cfg c q w).lists pl ∧ pl.isDelayed = false := by
  have h1 := coreInv_grabActivated h hq
  have hf := grabActivated_flags cfg c q w
  obtain ⟨pl, hpl⟩ := (h1.layout.situated (.work w)).queued q (by simp [hf, hq])
  refine ⟨pl, hpl, ?_⟩
  rw [← (h1.layout.situated _).delayedBit pl hpl rfl]
  simp [hf]

theorem grabQueued_eq (h : CoreInv cfg c) {q : Q} {w : W} (hq : (c.flags (.work w)).data = .pwq q) :
    grabQueued cfg c q w = pwqDecNrInFlight cfg
      ((grabActivated cfg c q w).removed w (workFlags (.pool (cfg.poolOf q)) true false)) q false := by
  have h1 := coreInv_grabActivated h hq
  obtain ⟨pl, hpl, -⟩ := mem_grabActivated h hq
  have hb : ((grabActivated cfg c q w).flags (.work w)).barrier = false :=
    (h1.layout.situated _).barrierBit pl hpl
  have hset := pwqDecNrInFlight_setWord cfg (c := { grabActivated cfg c q w with
    lists := fun pl => ((grabActivated cfg c q w).lists pl).erase (.work w)
    stage :=
    Function.update (grabActivated cfg c q w).stage
      ((grabActivated cfg c q w).ticket (.work w)) .cancelled })
    (fun pl => (h1.layout.nodup pl).not_mem_erase) (workFlags (.pool (cfg.poolOf q)) true false) q
    ((grabActivated cfg c q w).flags (.work w)).barrier
  have heq : grabQueued cfg c q w = pwqDecNrInFlight cfg
      ((grabActivated cfg c q w).removed w (workFlags (.pool (cfg.poolOf q)) true false)) q
      ((grabActivated cfg c q w).flags (.work w)).barrier := hset.symm
  rw [heq, hb]

omit [DecidableEq G] in
theorem coreInv_grabRemoved (h : CoreInv cfg c) {q : Q} {w : W} (hq : (c.flags (.work w)).data = .pwq q) :
    CoreInv cfg ((grabActivated cfg c q w).removed w (workFlags (.pool (cfg.poolOf q)) true false)) := by
  obtain ⟨pl, hpl, hpd⟩ := mem_grabActivated h hq
  exact coreInv_removed (coreInv_grabActivated h hq) hpl hpd (by simp [workFlags])

theorem coreInv_grabQueued (h : CoreInv cfg c) {q : Q} {w : W} (hq : (c.flags (.work w)).data = .pwq q) :
    CoreInv cfg (grabQueued cfg c q w) := by
  rw [grabQueued_eq h hq]
  exact coreInv_pwqDecNrInFlight (coreInv_grabRemoved h hq) q false

end Grab

end Skp.Workqueue
