import Skp.Workqueue.Ownership

/-! # The control invariant

`CoreInv`, the holders of PENDING and the barriers of the waiting threads, over whole runs. -/
namespace Skp.Workqueue
set_option autoImplicit false
open Skp.Foundations

variable {P Q G W K T : Type}

section Wake
variable {s s' : WqState P Q G W K T}

/-- A wake-up reaches entries on `cancel_waitq` and lets at most a sleeping thread go on. -/
structure WakeFrame (s s' : WqState P Q G W K T) : Prop where
  core : s'.core = s.core
  timer : s'.timer = s.timer
  done : s'.done = s.done
  requeued : s'.requeued = s.requeued
  pc : ∀ u, s'.pc u = s.pc u ∨ ∃ w m, s.pc u = .asleep w m ∧ s'.pc u = .waitDone w m

theorem wakeFrame_wakeUpOne [DecidableEq T] [DecidableEq W] (w : W) (l : List T)
    (s : WqState P Q G W K T) : WakeFrame s (wakeUpOne s w l) := by
  induction l generalizing s with
  | nil => exact ⟨rfl, rfl, rfl, rfl, fun _ => Or.inl rfl⟩
  | cons u l ih =>
    unfold wakeUpOne
    split
    · dsimp only
      split
      · rename_i v m hu
        refine ⟨rfl, rfl, rfl, rfl, fun u' => ?_⟩
        by_cases hne : u' = u
        · subst hne
          exact Or.inr ⟨v, m, hu, by simp⟩
        · exact Or.inl (by simp [hne])
      · have h := ih { s with
          cond := Function.update s.cond u (s.cond u + 1)
          woken := Function.update s.woken u true }
        exact ⟨h.core, h.timer, h.done, h.requeued, h.pc⟩
    · exact ih s

theorem WakeFrame.owns (h : WakeFrame s s') (u : T) : (s'.pc u).owns = (s.pc u).owns := by
  rcases h.pc u with he | ⟨w, m, h1, h2⟩
  · rw [he]
  · rw [h1, h2]
    rfl

theorem WakeFrame.held (h : WakeFrame s s') (u : T) : (s'.pc u).held = (s.pc u).held := by
  rcases h.pc u with he | ⟨w, m, h1, h2⟩
  · rw [he]
  · rw [h1, h2]
    rfl

theorem WakeFrame.isWait (h : WakeFrame s s') (u : T) : (s'.pc u).isWait = (s.pc u).isWait := by
  rcases h.pc u with he | ⟨w, m, h1, h2⟩
  · rw [he]
  · rw [h1, h2]
    rfl

end Wake

/-! ## The holders of PENDING -/

section Holders
variable {cfg : WqConfig P Q G K} {s s' : WqState P Q G W K T}

variable [DecidableEq T]

theorem Owning.goes (h : Owning s) {t : T} {p : Pc P Q G W} (hpc : s'.pc = Function.update s.pc t p)
    (hown : ∀ v, p.owns = some v → (s.pc t).owns = some v) (hheld : ∀ v n, p.held = some (v, n) →
    (s.pc t).held = some (v, n)) (htimer : s'.timer = s.timer) (hq : Quietly s.core s'.core) : Owning s' := by
  refine h.frame (fun u v hu => ?_) (fun u v n hu => ?_) htimer hq
  · rw [hpc] at hu
    by_cases ht : u = t
    · subst ht
      rw [Function.update_self] at hu
      exact hown v hu
    · rwa [Function.update_of_ne ht] at hu
  · rw [hpc] at hu
    by_cases ht : u = t
    · subst ht
      rw [Function.update_self] at hu
      exact hheld v n hu
    · rwa [Function.update_of_ne ht] at hu

section
omit [DecidableEq T]

theorem Owning.sole_of_owner (h : Owning s) {t : T} {w : W} (ht : (s.pc t).owns = some w) :
    ∀ u, u ≠ t → (s.pc u).owns ≠ some w := fun u hu ho => hu (h.own_unique u t w ho ht)

theorem Owning.sole_of_timer (h : Owning s) {w : W} {x : G × ℕ} (ht : s.timer w = some x) :
    ∀ u, (s.pc u).owns ≠ some w := by
  intro u hu
  have := (h.own u w hu).2
  rw [ht] at this
  cases this

theorem Owning.sole_of_free (h : Owning s) {w : W} (hp : (s.core.flags (.work w)).pending = false) :
    ∀ u, (s.pc u).owns ≠ some w := by
  intro u hu
  have := (h.own u w hu).1.1
  rw [hp] at this
  exact Bool.noConfusion this

theorem Owning.sole_of_queued (h : Owning s) {w : W} {q : Q} (hq : (s.core.flags (.work w)).data = .pwq q) :
    ∀ u, (s.pc u).owns ≠ some w := fun u hu => (h.own u w hu).1.2 q hq

theorem Owning.timer_of_free (h : Owning s) {w : W} (hp : (s.core.flags (.work w)).pending = false) :
    s.timer w = none := by
  cases ht : s.timer w with
  | none => rfl
  | some x =>
    have := (h.timer w x.1 x.2 ht).1.1
    rw [hp] at this
    exact Bool.noConfusion this

theorem Owning.timer_of_queued (h : Owning s) {w : W} {q : Q} (hq : (s.core.flags (.work w)).data = .pwq q) :
    s.timer w = none := by
  cases ht : s.timer w with
  | none => rfl
  | some x => exact absurd hq ((h.timer w x.1 x.2 ht).1.2 q)

theorem data_of_free (hc : CoreInv cfg s.core) {w : W}
    (hp : (s.core.flags (.work w)).pending = false) (q : Q) :
    (s.core.flags (.work w)).data ≠ .pwq q := by
  intro hq
  obtain ⟨pl, hpl⟩ := (hc.layout.situated _).queued q hq
  have := (hc.layout.situated _).pending pl hpl
  rw [hp] at this
  exact Bool.noConfusion this

/-- A ticket other than `n` keeps its stage. -/
theorem stage_of_ne {c : Core P Q G W K T} {n m : ℕ} {st st' st0 : Stage W T K}
    (hn : c.stage n = st0) (hne : st0 ≠ st')
    (hm : c.stage m = st') : Function.update c.stage n st m = st' := by
  have hmn : m ≠ n := by
    rintro rfl
    exact hne (hn.symm.trans hm)
  rw [Function.update_of_ne hmn]
  exact hm

end

theorem keepPool_ne (cfg : WqConfig P Q G K) (d : WorkData P Q) (q : Q) : keepPool cfg d ≠ .pwq q := by
  unfold keepPool
  split <;> simp

theorem update_of_ne_all {t : T} {p : Pc P Q G W} (f : T → Pc P Q G W) :
    ∀ u, u ≠ t → Function.update f t p u = f u := fun _ hu => Function.update_of_ne hu _ _

variable [DecidableEq W] [DecidableEq P] [DecidableEq Q] [DecidableEq G]

/-- `test_and_set_bit` on PENDING succeeds. -/
theorem handover_begin (hc : CoreInv cfg s.core) {t : T} {w : W} {g : G} {f : WorkFlags P Q}
    (hsole : ∀ u, u ≠ t → (s.pc u).owns ≠ some w) (htimer : s.timer w = none) (hp : f.pending = true)
    (hd : ∀ q, f.data ≠ .pwq q) :
    Handover s (beginQueueing { s with core := s.core.setFlags w f } t w g) t w := by
  have hfresh := hc.staged.fresh s.core.next (le_refl _)
  have hflags : (beginQueueing { s with core := s.core.setFlags w f } t w g).core.flags =
      Function.update s.core.flags (.work w) f := rfl
  have hstage : (beginQueueing { s with core := s.core.setFlags w f } t w g).core.stage =
      Function.update s.core.stage s.core.next (.held t) := rfl
  have hpc : (beginQueueing { s with core := s.core.setFlags w f } t w g).pc t =
      .queueing w g s.core.next := by
    simp [beginQueueing, Core.setFlags]
  refine ⟨hsole, update_of_ne_all s.pc, ?_, ?_, ?_, fun _ _ => rfl, ?_, ?_, ?_⟩
  · intro v hv
    rw [hpc] at hv
    cases hv
    refine ⟨rfl, ?_, htimer⟩
    simp only [Taken, hflags, Function.update_self]
    exact ⟨hp, hd⟩
  · intro v n hv
    rw [hpc] at hv
    cases hv
    rw [hstage, Function.update_self]
  · intro g' n hn
    have : s.timer w = some (g', n) := hn
    rw [htimer] at this
    cases this
  · intro v hv _
    rw [hflags, Function.update_of_ne (by simpa using hv)]
  · intro u n _ hn
    rw [hstage]
    exact stage_of_ne hfresh (by simp) hn
  · intro v n _ hn
    rw [hstage]
    exact stage_of_ne hfresh (by simp) hn

omit [DecidableEq P] [DecidableEq Q] [DecidableEq G] in
/-- A thread gives PENDING of `w` back, or keeps it, and the word changes. -/
theorem handover_word (h : Owning s) {t : T} {w : W} {f : WorkFlags P Q} {p : Pc P Q G W}
    (ht : (s.pc t).owns = some w) (hc : s'.core.flags = Function.update s.core.flags (.work w) f)
    (hs : s'.core.stage = s.core.stage) (htimer : s'.timer = s.timer) (hpc : s'.pc = Function.update s.pc t p)
    (hheld : p.held = none) (hown : ∀ v, p.owns = some v → v = w ∧ f.pending = true ∧ ∀ q, f.data ≠ .pwq q) :
    Handover s s' t w where
  sole := h.sole_of_owner ht
  pc := by
    intro u hu
    rw [hpc, Function.update_of_ne hu]
  own := by
    intro v hv
    rw [hpc, Function.update_self] at hv
    obtain ⟨rfl, h1, h2⟩ := hown v hv
    refine ⟨rfl, ?_, htimer ▸ (h.own t v ht).2⟩
    simp only [Taken, hc, Function.update_self]
    exact ⟨h1, h2⟩
  held := by
    intro v n hv
    rw [hpc, Function.update_self, hheld] at hv
    cases hv
  self := by
    intro g n hn
    rw [htimer, (h.own t w ht).2] at hn
    cases hn
  timer := fun v _ => by rw [htimer]
  flags := by
    intro v hv _
    rw [hc, Function.update_of_ne (by simpa using hv)]
  stageHeld := fun u n _ hn => by rw [hs]; exact hn
  stageTimer := fun v n _ hn => by rw [hs]; exact hn

omit [DecidableEq P] [DecidableEq Q] [DecidableEq G] [DecidableEq W] in
theorem handover_stage {t : T} {w : W} {n : ℕ} {st : Stage W T K} {p : Pc P Q G W}
    (hsole : ∀ u, u ≠ t → (s.pc u).owns ≠ some w)
    (hn : s.core.stage n = .held t ∨ s.core.stage n = .timer w)
    (hflags : ∀ v, v ≠ w → s'.core.flags (.work v) = s.core.flags (.work v))
    (hs : s'.core.stage = Function.update s.core.stage n st) (hpc : s'.pc = Function.update s.pc t p)
    (htimer : ∀ v, v ≠ w → s'.timer v = s.timer v)
    (hown : ∀ v, p.owns = some v → v = w ∧ Taken s'.core w ∧ s'.timer w = none)
    (hheld : ∀ v m, p.held = some (v, m) → m = n ∧ st = .held t)
    (hself : ∀ g m, s'.timer w = some (g, m) → Taken s'.core w ∧ m = n ∧ st = .timer w) :
    Handover s s' t w where
  sole := hsole
  pc := by
    intro u hu
    rw [hpc, Function.update_of_ne hu]
  own := by
    intro v hv
    rw [hpc, Function.update_self] at hv
    exact hown v hv
  held := by
    intro v m hv
    rw [hpc, Function.update_self] at hv
    obtain ⟨rfl, rfl⟩ := hheld v m hv
    rw [hs, Function.update_self]
  self := by
    intro g m hm
    obtain ⟨h1, rfl, rfl⟩ := hself g m hm
    refine ⟨h1, ?_⟩
    rw [hs, Function.update_self]
  timer := htimer
  flags := fun v hv _ => hflags v hv
  stageHeld := by
    intro u m hu hm
    rw [hs]
    rcases hn with hn | hn
    · exact stage_of_ne hn (by simpa using Ne.symm hu) hm
    · exact stage_of_ne hn (by simp) hm
  stageTimer := by
    intro v m hv hm
    rw [hs]
    rcases hn with hn | hn
    · exact stage_of_ne hn (by simp) hm
    · exact stage_of_ne hn (by simpa using Ne.symm hv) hm

omit [DecidableEq P] [DecidableEq Q] [DecidableEq G] in
theorem handover_fail (h : Owning s) {t : T} {w : W} {n : ℕ} (hpc : (s.pc t).held = some (w, n)) :
    Handover s (queueFail s t w n) t w := by
  have ht := Pc.owns_of_held hpc
  have hflags : (queueFail s t w n).core.flags =
      Function.update s.core.flags (.work w) { s.core.flags (.work w) with pending := false } := rfl
  refine handover_stage (h.sole_of_owner ht) (Or.inl (h.held t w n hpc)) ?_ rfl rfl (fun _ _ => rfl) ?_ ?_ ?_
  · intro v hv
    rw [hflags, Function.update_of_ne (by simpa using hv)]
  · exact fun v hv => nomatch hv
  · exact fun v m hv => nomatch hv
  · intro g m hm
    have : s.timer w = some (g, m) := hm
    rw [(h.own t w ht).2] at this
    cases this

variable [DecidableEq K]

theorem handover_insert (h : Owning s) {t : T} {w : W} {q : Q} {n : ℕ}
    (hpc : (s.pc t).held = some (w, n)) : Handover s { s with
      core := queueInsert cfg s.core q w n, pc := Function.update s.pc t .idle } t w := by
  have ht := Pc.owns_of_held hpc
  refine handover_stage (h.sole_of_owner ht) (Or.inl (h.held t w n hpc)) ?_ rfl rfl (fun _ _ => rfl) ?_ ?_ ?_
  · intro v hv
    simp only [queueInsert_flags]
    rw [Function.update_of_ne (by simpa using hv)]
  · exact fun v hv => nomatch hv
  · exact fun v m hv => nomatch hv
  · intro g m hm
    have : s.timer w = some (g, m) := hm
    rw [(h.own t w ht).2] at this
    cases this

theorem handover_grabQueued (hc : CoreInv cfg s.core) (h : Owning s) {t : T} {w : W} {m : CancelMode} {q : Q}
    (hq : (s.core.flags (.work w)).data = .pwq q) : Handover s { s with
      core := grabQueued cfg s.core q w, pc := Function.update s.pc t (.grabbed w m) } t w := by
  have hg := grabFrame hc hq
  have hqt := quietly_grab hc hq
  refine ⟨fun u _ => h.sole_of_queued hq u, update_of_ne_all s.pc, ?_, ?_, ?_, fun _ _ => rfl,
    fun v _ hv => hqt.flags v hv, ?_, ?_⟩
  · intro v hv
    simp only [Function.update_self] at hv
    cases hv
    refine ⟨rfl, ?_, h.timer_of_queued hq⟩
    simp [Taken, hg.self, workFlags]
  · intro v n hv
    simp [Pc.held] at hv
  · intro g n hn
    have : s.timer w = some (g, n) := hn
    rw [h.timer_of_queued hq] at this
    cases this
  · intro u n _ hn
    rw [← hn]
    exact hqt.stage n (by rw [hn]; rfl) (by simp [hn])
  · intro v n _ hn
    rw [← hn]
    exact hqt.stage n (by rw [hn]; rfl) (by simp [hn])

omit [DecidableEq Q] [DecidableEq K] in
theorem Inserts.held {t : T} {w : W} {q : Q} {n : ℕ} (h : Inserts cfg s t w q n) :
    (s.pc t).held = some (w, n) := by
  cases h with
  | last hpc _ => rw [hpc]; rfl
  | executing hpc _ _ => rw [hpc]; rfl
  | switched hpc => rw [hpc]; rfl

omit [DecidableEq P] [DecidableEq Q] [DecidableEq G] [DecidableEq W] [DecidableEq K] [DecidableEq T] in
theorem quietly_of_eq {c c' : Core P Q G W K T} (hf : c'.flags = c.flags)
    (hs : c'.stage = c.stage) : Quietly c c' :=
  ⟨fun w _ => by rw [hf], fun n _ _ => by rw [hs], fun n hn => by simpa only [Core.over, hs] using hn⟩

theorem owning_effect (hc : CoreInv cfg s.core) (h : Owning s) (he : Effect cfg s s') : Owning s' := by
  cases he with
  | env d e => exact h.frame (fun _ _ hu => hu) (fun _ _ _ hu => hu) rfl (Quietly.refl _)
  | dropBase q hb => exact h.frame (fun _ _ hu => hu) (fun _ _ _ hu => hu) rfl (quietly_of_eq rfl rfl)
  | move hm => exact h.goes rfl (fun v hv => hm.owns hv) (fun v n hv => hm.held hv) rfl (Quietly.refl _)
  | call hpc => exact h.goes rfl (fun v hv => by cases hv) (fun v n hv => by cases hv) rfl (Quietly.refl _)
  | @begin t w g hpc hp =>
    refine Handover.owning (t := t) (w := w) ?_ h
    exact handover_begin hc (fun u _ => h.sole_of_free hp u) (h.timer_of_free hp) rfl
      (fun q => data_of_free hc hp q)
  | @modDelayed t w m g hpc hm =>
    have ht : (s.pc t).owns = some w := by rw [hpc]; rfl
    have hself : s.core.setFlags w (s.core.flags (.work w)) = s.core := by
      simp only [Core.setFlags, Function.update_eq_self]
    have hb :=
      handover_begin (g := g) hc (h.sole_of_owner ht) (h.own t w ht).2 (h.own t w ht).1.1
        (h.own t w ht).1.2
    rw [hself] at hb
    exact hb.owning h
  | @arm t w g n hpc =>
    have ht : (s.pc t).owns = some w := by rw [hpc]; rfl
    have hs := h.held t w n (by rw [hpc]; rfl)
    refine Handover.owning (t := t) (w := w) ?_ h
    refine handover_stage (h.sole_of_owner ht) (Or.inl hs) (fun _ _ => rfl) rfl rfl
      (fun v hv => Function.update_of_ne hv _ _) (fun v hv => by cases hv) (fun v m hv => by cases hv) ?_
    intro g' m hm
    simp only [Function.update_self, Option.some.injEq, Prod.mk.injEq] at hm
    exact ⟨(h.own t w ht).1, hm.2.symm, rfl⟩
  | @armFail t w g n hpc =>
    have ht : (s.pc t).owns = some w := by rw [hpc]; rfl
    have hs := h.held t w n (by rw [hpc]; rfl)
    refine Handover.owning (t := t) (w := w) ?_ h
    refine handover_stage (h.sole_of_owner ht) (Or.inl hs) (fun _ _ => rfl) rfl rfl (fun _ _ => rfl)
      (fun v hv => by cases hv) (fun v m hv => by cases hv) ?_
    intro g' m hm
    have : s.timer w = some (g', m) := hm
    rw [(h.own t w ht).2] at this
    cases this
  | @fire t w g n hpc ht =>
    obtain ⟨h1, h2⟩ := h.timer w g n ht
    refine Handover.owning (t := t) (w := w) ?_ h
    refine handover_stage (fun u _ => h.sole_of_timer ht u) (Or.inr h2) (fun _ _ => rfl) rfl rfl
      (fun v hv => Function.update_of_ne hv _ _) ?_ ?_ ?_
    · intro v hv
      cases hv
      exact ⟨rfl, h1, by simp⟩
    · intro v m hv
      cases hv
      exact ⟨rfl, rfl⟩
    · intro g' m hm
      simp at hm
  | fail hpc => exact (handover_fail h hpc).owning h
  | insert hi hr => exact (handover_insert h hi.held).owning h
  | @grabTimer t w m g n hpc ht =>
    obtain ⟨h1, h2⟩ := h.timer w g n ht
    refine Handover.owning (t := t) (w := w) ?_ h
    refine handover_stage (fun u _ => h.sole_of_timer ht u) (Or.inr h2) (fun _ _ => rfl) rfl rfl
      (fun v hv => Function.update_of_ne hv _ _) ?_ (fun v m hv => by cases hv) ?_
    · intro v hv
      cases hv
      exact ⟨rfl, h1, by simp⟩
    · intro g' m hm
      simp at hm
  | @grabBit t w m hpc hp =>
    have hd := fun q => data_of_free hc hp q
    refine Handover.owning (t := t) (w := w) ⟨fun u _ => h.sole_of_free hp u,
      update_of_ne_all s.pc, ?_, ?_, ?_,
      fun _ _ => rfl, ?_, fun _ _ _ hn => hn, fun _ _ _ hn => hn⟩ h
    · intro v hv
      simp only [Function.update_self] at hv
      cases hv
      refine ⟨rfl, ?_, h.timer_of_free hp⟩
      simp only [Taken, Core.setFlags, Function.update_self]
      exact ⟨trivial, hd⟩
    · intro v n hv
      simp [Pc.held] at hv
    · intro g n hn
      have : s.timer w = some (g, n) := hn
      rw [h.timer_of_free hp] at this
      cases this
    · intro v hv _
      simp only [Core.setFlags]
      rw [Function.update_of_ne (by simpa using hv)]
  | grabQueued hpc hq hr => exact (handover_grabQueued hc h hq).owning h
  | foreignGet hpc =>
    refine h.goes rfl (fun v hv => ?_) (fun v n hv => by cases hv) rfl (quietly_of_eq rfl rfl)
    rw [hpc]
    exact hv
  | foreignPut hpc =>
    exact h.goes rfl (fun v hv => by cases hv)
      (fun v n hv => by cases hv) rfl (quietly_of_eq rfl rfl)
  | foreignFlush hpc =>
    refine h.goes rfl (fun v hv => ?_) (fun v n hv => ?_) rfl (quietly_of_eq rfl rfl)
    · rw [owns_afterFlush] at hv
      rw [hpc]
      exact hv
    · rw [held_afterFlush] at hv
      cases hv
  | @finish t w m hpc hm =>
    refine Handover.owning (t := t) (w := w) ?_ h
    exact handover_word h (by rw [hpc]; rfl) rfl rfl rfl rfl rfl (fun v hv => by cases hv)
  | @mark t w m hpc hm =>
    refine Handover.owning (t := t) (w := w) ?_ h
    refine handover_word h (by rw [hpc]; rfl) rfl rfl rfl rfl rfl ?_
    intro v hv
    cases hv
    exact ⟨rfl, rfl, fun q => keepPool_ne cfg _ q⟩
  | behind hpc hq hr =>
    refine h.goes rfl (fun v hv => ?_) (fun v n hv => by cases hv) rfl (quietly_behind hc _ hq _)
    rw [hpc]
    exact hv
  | front hpc hk hw hr =>
    refine h.goes rfl (fun v hv => ?_) (fun v n hv => by cases hv) rfl (quietly_front hc _ _ _)
    rw [hpc]
    exact hv
  | @clear t w hpc =>
    refine Handover.owning (t := t) (w := w) ?_ h
    exact handover_word h (by rw [hpc]; rfl) rfl rfl rfl rfl rfl (fun v hv => by cases hv)
  | @wake t w hpc =>
    have hw := wakeFrame_wakeUpOne w s.waitq s
    have h1 : Owning (wakeUpOne s w s.waitq) :=
      h.frame (fun u v hu => (hw.owns u).symm.trans hu) (fun u v n hu => (hw.held u).symm.trans hu) hw.timer
        (by rw [hw.core]; exact Quietly.refl _)
    exact h1.goes rfl (fun v hv => by cases hv) (fun v n hv => by cases hv) rfl (Quietly.refl _)
  | waitPrep hpc =>
    exact h.goes rfl (fun v hv => by cases hv) (fun v n hv => by cases hv) rfl (Quietly.refl _)
  | waitCheck hpc hc' =>
    exact h.goes rfl (fun v hv => by cases hv) (fun v n hv => by cases hv) rfl (Quietly.refl _)
  | finishWait hpc =>
    exact h.goes rfl (fun v hv => by cases hv) (fun v n hv => by cases hv) rfl (Quietly.refl _)
  | pick hp =>
    exact h.frame (fun _ _ hu => hu) (fun _ _ _ hu => hu) rfl (quietly_pick (picks_of_pickWork hc hp).2)
  | complete hk hi hcl => exact h.frame (fun _ _ hu => hu) (fun _ _ _ hu => hu) rfl (quietly_of_eq rfl rfl)
  | workDone hk hcl => exact h.frame (fun _ _ hu => hu) (fun _ _ _ hu => hu) rfl (quietly_finish hc hk)

end Holders

/-! ## The barriers of waiting threads -/

/-- Worker `k` executes the barrier of `t` and has not completed it yet. -/
def Uncalled (c : Core P Q G W K T) (k : K) (t : T) : Prop :=
  ∃ r, c.curr k = some r ∧ r.item = .barrier t ∧ r.called = false

structure Barriers (s : WqState P Q G W K T) : Prop where
  listed : ∀ t q, (s.core.flags (.barrier t)).data = .pwq q →
    (s.pc t).isWait = true ∧ s.done t = false ∧ ∀ k, ¬ Uncalled s.core k t
  running : ∀ t k, Uncalled s.core k t → (s.pc t).isWait = true ∧ s.done t = false
  once : ∀ t k k', Uncalled s.core k t → Uncalled s.core k' t → k = k'
  chain : ∀ k r t, s.core.curr k = some r → r.item = .barrier t → r.called = false → r.chain = s.core.target t
  done_over : ∀ t, (s.pc t).isWait = true → s.done t = true → s.core.over (s.core.target t) = true

section Barriers
variable {cfg : WqConfig P Q G K} {s s' : WqState P Q G W K T}

/-- No barrier is put on a list, started or completed. -/
structure BarrierFrame (s s' : WqState P Q G W K T) : Prop where
  data : ∀ t q, (s'.core.flags (.barrier t)).data = .pwq q → (s.core.flags (.barrier t)).data = .pwq q
  curr : ∀ k r, s'.core.curr k = some r → r.item.isBarrier = true → s.core.curr k = some r
  target : s'.core.target = s.core.target
  ended : ∀ n, s.core.over n = true → s'.core.over n = true
  done : s'.done = s.done
  waits : ∀ u, (s'.pc u).isWait = true → (s.pc u).isWait = true
  kept : ∀ u, (s.pc u).isWait = true → s.done u = false → (s'.pc u).isWait = true

theorem BarrierFrame.uncalled (hf : BarrierFrame s s') {k : K} {t : T} (hu : Uncalled s'.core k t) :
    Uncalled s.core k t := by
  obtain ⟨r, hr, hi, hc⟩ := hu
  exact ⟨r, hf.curr k r hr (by rw [hi]; rfl), hi, hc⟩

theorem BarrierFrame.barriers (hf : BarrierFrame s s') (h : Barriers s) : Barriers s' where
  listed := by
    intro t q hq
    obtain ⟨h1, h2, h3⟩ := h.listed t q (hf.data t q hq)
    exact ⟨hf.kept t h1 h2, hf.done ▸ h2, fun k hk => h3 k (hf.uncalled hk)⟩
  running := by
    intro t k hk
    obtain ⟨h1, h2⟩ := h.running t k (hf.uncalled hk)
    exact ⟨hf.kept t h1 h2, hf.done ▸ h2⟩
  once := fun t k k' hk hk' => h.once t k k' (hf.uncalled hk) (hf.uncalled hk')
  chain := by
    intro k r t hr hi hc
    rw [hf.target]
    exact h.chain k r t (hf.curr k r hr (by rw [hi]; rfl)) hi hc
  done_over := by
    intro t ht hd
    rw [hf.target]
    exact hf.ended _ (h.done_over t (hf.waits t ht) (hf.done ▸ hd))

variable [DecidableEq T]

/-- The frame of a step that moves one thread which does not wait for a barrier. -/
theorem barrierFrame_of_move {t : T} {p : Pc P Q G W} (hpc : s'.pc = Function.update s.pc t p)
    (hnot : (s.pc t).isWait = true → s.done t = true) (hp : p.isWait = false)
    (hdata : ∀ u, (s'.core.flags (.barrier u)).data = (s.core.flags (.barrier u)).data)
    (hcurr : s'.core.curr = s.core.curr) (htarget : s'.core.target = s.core.target)
    (hended : ∀ n, s.core.over n = true → s'.core.over n = true) (hdone : s'.done = s.done) :
    BarrierFrame s s' where
  data := fun u q hq => (hdata u).symm.trans hq
  curr := fun k r hr _ => by rw [← hcurr]; exact hr
  target := htarget
  ended := hended
  done := hdone
  waits := by
    intro u hu
    rw [hpc] at hu
    by_cases ht : u = t
    · subst ht
      rw [Function.update_self, hp] at hu
      exact Bool.noConfusion hu
    · rwa [Function.update_of_ne ht] at hu
  kept := by
    intro u hu hd
    rw [hpc]
    by_cases ht : u = t
    · subst ht
      rw [hnot hu] at hd
      exact Bool.noConfusion hd
    · rwa [Function.update_of_ne ht]

theorem Barriers.goes (h : Barriers s) {t : T} {p : Pc P Q G W} (hpc : s'.pc = Function.update s.pc t p)
    (hnot : (s.pc t).isWait = true → s.done t = true) (hp : p.isWait = false)
    (hdata : ∀ u, (s'.core.flags (.barrier u)).data = (s.core.flags (.barrier u)).data)
    (hcurr : s'.core.curr = s.core.curr) (htarget : s'.core.target = s.core.target)
    (hended : ∀ n, s.core.over n = true → s'.core.over n = true) (hdone : s'.done = s.done) : Barriers s' :=
  (barrierFrame_of_move hpc hnot hp hdata hcurr htarget hended hdone).barriers h

variable [DecidableEq W] [DecidableEq P]

theorem LocalMove.isWait [DecidableEq G] {t : T} {p : Pc P Q G W} (h : LocalMove cfg s t p) :
    p.isWait = false ∧ ((s.pc t).isWait = true → s.done t = true) := by
  cases h with
  | select hpc _ | switch hpc _ | grabMiss hpc | grabPending hpc | grabRead hpc | grabReadFail hpc
  | grabLockFail hpc
  | grabForeign hpc _ _ | grabWait hpc | grabGiveUp hpc | grabAgain hpc | foreignLoad hpc | flush hpc
  | flushRead hpc _ | flushForeign hpc _ _ | waitOver hpc _ | waitSleep hpc _ | waitSignalled hpc _
  | interrupt hpc
  | sleepAgain hpc =>
    refine ⟨rfl, fun hw => ?_⟩
    rw [hpc] at hw
    exact Bool.noConfusion hw
  | flushNone hpc _ | flushGone hpc _ =>
    refine ⟨isWait_afterFlush _ _, fun hw => ?_⟩
    rw [hpc] at hw
    exact Bool.noConfusion hw
  | barrierDone hpc hd => exact ⟨isWait_afterFlush _ _, fun _ => hd⟩

omit [DecidableEq P] [DecidableEq W] in
/-- The barrier of `t` is put on a list; before that it was nowhere. -/
theorem barriers_insert (h : Barriers s) {t : T} {p : Pc P Q G W} (hnot : (s.pc t).isWait = false)
    (hp : p.isWait = true) (hpc : s'.pc = Function.update s.pc t p)
    (hdone : s'.done = Function.update s.done t false)
    (hdata : ∀ u, u ≠ t → (s'.core.flags (.barrier u)).data = (s.core.flags (.barrier u)).data)
    (hcurr : s'.core.curr = s.core.curr) (htarget : ∀ u, u ≠ t → s'.core.target u = s.core.target u)
    (hended : ∀ n, s.core.over n = true → s'.core.over n = true) : Barriers s' := by
  have hun : ∀ k u, Uncalled s'.core k u → Uncalled s.core k u := by
    intro k u hk
    unfold Uncalled at hk ⊢
    rwa [hcurr] at hk
  have hfree : ∀ k, ¬ Uncalled s.core k t := by
    intro k hk
    rw [(h.running t k hk).1] at hnot
    exact Bool.noConfusion hnot
  have hne : ∀ k u, Uncalled s'.core k u → u ≠ t := by
    rintro k u hk rfl
    exact hfree k (hun k u hk)
  have hwait : ∀ u, u ≠ t → s'.pc u = s.pc u ∧ s'.done u = s.done u := by
    intro u hu
    rw [hpc, hdone, Function.update_of_ne hu, Function.update_of_ne hu]
    exact ⟨rfl, rfl⟩
  refine ⟨?_, ?_, ?_, ?_, ?_⟩
  · intro u q hq
    by_cases hu : u = t
    · subst hu
      rw [hpc, hdone, Function.update_self, Function.update_self]
      exact ⟨hp, rfl, fun k hk => hfree k (hun k u hk)⟩
    · rw [hdata u hu] at hq
      obtain ⟨h1, h2, h3⟩ := h.listed u q hq
      rw [(hwait u hu).1, (hwait u hu).2]
      exact ⟨h1, h2, fun k hk => h3 k (hun k u hk)⟩
  · intro u k hk
    rw [(hwait u (hne k u hk)).1, (hwait u (hne k u hk)).2]
    exact h.running u k (hun k u hk)
  · exact fun u k k' hk hk' => h.once u k k' (hun k u hk) (hun k' u hk')
  · intro k r u hr hi hc
    rw [htarget u (hne k u ⟨r, hr, hi, hc⟩)]
    exact h.chain k r u (hcurr ▸ hr) hi hc
  · intro u hu hd
    by_cases ht : u = t
    · subst ht
      rw [hdone, Function.update_self] at hd
      exact Bool.noConfusion hd
    · rw [htarget u ht]
      rw [(hwait u ht).1] at hu
      rw [(hwait u ht).2] at hd
      exact hended _ (h.done_over u hu hd)

omit [DecidableEq P] [DecidableEq W] [DecidableEq T] in
theorem ended_of_update {c c' : Core P Q G W K T} {n : ℕ} {st : Stage W T K}
    (hs : c'.stage = Function.update c.stage n st) (hn : (c.stage n).isWaiting = true) (m : ℕ)
    (hm : c.over m = true) :
    c'.over m = true := by
  have hne : m ≠ n := by
    rintro rfl
    revert hm hn
    unfold Core.over
    cases c.stage m <;> simp [Stage.isWaiting, Stage.isOver]
  simpa [Core.over, hs, hne] using hm

omit [DecidableEq P] [DecidableEq W] in
theorem isWait_of_held {p : Pc P Q G W} {w : W} {n : ℕ} (h : p.held = some (w, n)) : p.isWait = false := by
  cases p <;> simp_all [Pc.held, Pc.isWait]

variable [DecidableEq Q] [DecidableEq K]

theorem barriers_start (h : Barriers s) {k : K} {src : Place P Q K} {x : Item W T} {q : Q}
    {c : Core P Q G W K T}
    (hr : Rearranged cfg s.core c) (hs : Starts cfg c k src x q) :
    Barriers { s with core := startWork cfg c k src x q } := by
  obtain ⟨hflags, hcurr, hstage, hticket, htarget⟩ := hr.core
  obtain ⟨b, hb⟩ := hs.head
  have hlisted := hr.inv.staged.listed x src (hb ▸ List.mem_cons_self)
  -- what is executed: by `k` the item `x`, by the others what they executed
  have hcases : ∀ k' r, (startWork cfg c k src x q).curr k' = some r →
      (k' = k ∧ r.item = x ∧ r.chain = c.chain x) ∨ s.core.curr k' = some r := by
    intro k' r hk
    by_cases hne : k' = k
    · subst hne
      simp only [startWork, Function.update_self, Option.some.injEq] at hk
      subst hk
      exact Or.inl ⟨rfl, rfl, rfl⟩
    · simp only [startWork, Function.update_of_ne hne] at hk
      exact Or.inr (hcurr ▸ hk)
  have hdata : ∀ u q', ((startWork cfg c k src x q).flags (.barrier u)).data = .pwq q' →
      Item.barrier u ≠ x ∧ (s.core.flags (.barrier u)).data = .pwq q' := by
    intro u q' hq
    have hne : Item.barrier u ≠ x := by
      rintro rfl
      simp [startWork, workFlags] at hq
    refine ⟨hne, ?_⟩
    simpa only [startWork, Function.update_of_ne hne, hflags] using hq
  have hun : ∀ k' u, Uncalled (startWork cfg c k src x q) k' u →
      (k' = k ∧ Item.barrier u = x) ∨ Uncalled s.core k' u := by
    rintro k' u ⟨r, hk, hi, hc⟩
    rcases hcases k' r hk with ⟨rfl, hx, -⟩ | hold
    · exact Or.inl ⟨rfl, hi.symm.trans hx⟩
    · exact Or.inr ⟨r, hold, hi, hc⟩
  have hwas : ∀ u, Item.barrier u = x → (s.core.flags (.barrier u)).data = .pwq q := by
    rintro u rfl
    exact hflags ▸ hs.data
  refine ⟨?_, ?_, ?_, ?_, ?_⟩
  · intro u q' hq
    obtain ⟨hne, hold⟩ := hdata u q' hq
    obtain ⟨h1, h2, h3⟩ := h.listed u q' hold
    refine ⟨h1, h2, fun k' hk' => ?_⟩
    rcases hun k' u hk' with ⟨-, he⟩ | hold'
    · exact hne he
    · exact h3 k' hold'
  · intro u k' hk'
    rcases hun k' u hk' with ⟨-, he⟩ | hold
    · obtain ⟨h1, h2, -⟩ := h.listed u q (hwas u he)
      exact ⟨h1, h2⟩
    · exact h.running u k' hold
  · intro u k1 k2 h1 h2
    rcases hun k1 u h1 with ⟨rfl, he1⟩ | h1' <;> rcases hun k2 u h2 with ⟨rfl, he2⟩ | h2'
    · rfl
    · exact absurd h2' ((h.listed u q (hwas u he1)).2.2 k2)
    · exact absurd h1' ((h.listed u q (hwas u he2)).2.2 k1)
    · exact h.once u k1 k2 h1' h2'
  · intro k' r u hk hi hc
    rcases hcases k' r hk with ⟨-, hx, hch⟩ | hold
    · rw [hch, ← hx, hi]
      rfl
    · rw [h.chain k' r u hold hi hc, ← htarget]
      rfl
  · intro u hu hd
    have hover := over_update_running hlisted (show (startWork cfg c k src x q).stage = _ from rfl)
    have hold := h.done_over u hu hd
    show (startWork cfg c k src x q).over (c.target u) = true
    rw [hover, htarget]
    simpa only [Core.over, hstage] using hold

omit [DecidableEq P] [DecidableEq Q] [DecidableEq W] in
theorem barriers_complete (hc : CoreInv cfg s.core) (h : Barriers s) {k : K} {r : Running Q W T} {t : T}
    (hk : s.core.curr k = some r) (hi : r.item = .barrier t) (hcl : r.called = false) : Barriers { s with
      core := { s.core with curr := Function.update s.core.curr k (some { r with called := true }) }
      done := Function.update s.done t true } := by
  have hun : ∀ k' u,
      Uncalled { s.core
      with curr := Function.update s.core.curr k (some { r with called := true }) } k' u →
      k' ≠ k ∧ Uncalled s.core k' u := by
    rintro k' u ⟨r', hr', hi', hc'⟩
    have hne : k' ≠ k := by
      rintro rfl
      simp only [Function.update_self, Option.some.injEq] at hr'
      subst hr'
      exact Bool.noConfusion hc'
    simp only [Function.update_of_ne hne] at hr'
    exact ⟨hne, r', hr', hi', hc'⟩
  have hne : ∀ k' u, k' ≠ k → Uncalled s.core k' u → u ≠ t := by
    rintro k' u hk' hu rfl
    exact hk' (h.once u k' k hu ⟨r, hk, hi, hcl⟩)
  have hover := hc.chained.running_over k r hk (by rw [hi]; rfl)
  rw [h.chain k r t hk hi hcl] at hover
  refine ⟨?_, ?_, ?_, ?_, ?_⟩
  · intro u q hq
    obtain ⟨h1, h2, h3⟩ := h.listed u q hq
    have hut : u ≠ t := by
      rintro rfl
      exact h3 k ⟨r, hk, hi, hcl⟩
    exact ⟨h1, by simpa [hut] using h2, fun k' hk' => h3 k' (hun k' u hk').2⟩
  · intro u k' hk'
    obtain ⟨h1, h2⟩ := hun k' u hk'
    have hut := hne k' u h1 h2
    obtain ⟨h3, h4⟩ := h.running u k' h2
    exact ⟨h3, by simpa [hut] using h4⟩
  · exact fun u k1 k2 h1 h2 => h.once u k1 k2 (hun k1 u h1).2 (hun k2 u h2).2
  · intro k' r' u hr' hi' hc'
    obtain ⟨hk', -⟩ := hun k' u ⟨r', hr', hi', hc'⟩
    simp only [Function.update_of_ne hk'] at hr'
    exact h.chain k' r' u hr' hi' hc'
  · intro u hu hd
    by_cases hut : u = t
    · subst hut
      exact hover
    · exact h.done_over u hu (by simpa [hut] using hd)

theorem barriers_effect [DecidableEq G] (hc : CoreInv cfg s.core) (ho : Owning s) (h : Barriers s)
    (he : Effect cfg s s') :
    Barriers s' := by
  have hfresh : (s.core.stage s.core.next).isWaiting = true := by
    rw [hc.staged.fresh _ (le_refl _)]
    rfl
  cases he with
  | env d e => exact ⟨h.listed, h.running, h.once, h.chain, h.done_over⟩
  | dropBase q hb => exact ⟨h.listed, h.running, h.once, h.chain, h.done_over⟩
  | @move t p hm =>
    exact h.goes (t := t) rfl hm.isWait.2 hm.isWait.1 (fun _ => rfl) rfl rfl (fun _ hn => hn) rfl
  | @call t w m hpc =>
    refine h.goes (t := t) rfl (fun hw => ?_) rfl (fun _ => rfl) rfl rfl (fun _ hn => hn) rfl
    rw [hpc] at hw
    exact Bool.noConfusion hw
  | @begin t w g hpc hp =>
    refine h.goes (t := t) rfl (fun hw => ?_) rfl (fun u => ?_) rfl rfl ?_ rfl
    · rw [hpc] at hw
      exact Bool.noConfusion hw
    · simp [beginQueueing, Core.setStage, Core.setFlags]
    · exact fun n => ended_of_update rfl hfresh n
  | @modDelayed t w m g hpc hm =>
    refine h.goes (t := t) rfl (fun hw => ?_) rfl (fun u => rfl) rfl rfl ?_ rfl
    · rw [hpc] at hw
      exact Bool.noConfusion hw
    · exact fun n => ended_of_update rfl hfresh n
  | @arm t w g n hpc =>
    refine h.goes (t := t) rfl (fun hw => ?_) rfl (fun u => rfl) rfl rfl ?_ rfl
    · rw [hpc] at hw
      exact Bool.noConfusion hw
    · exact fun m => ended_of_update rfl (by rw [ho.held t w n (by rw [hpc]; rfl)]; rfl) m
  | @armFail t w g n hpc =>
    refine h.goes (t := t) rfl (fun hw => ?_) rfl (fun u => rfl) rfl rfl ?_ rfl
    · rw [hpc] at hw
      exact Bool.noConfusion hw
    · exact fun m => ended_of_update rfl (by rw [ho.held t w n (by rw [hpc]; rfl)]; rfl) m
  | @fire t w g n hpc ht =>
    refine h.goes (t := t) rfl (fun hw => ?_) rfl (fun u => rfl) rfl rfl ?_ rfl
    · rw [hpc] at hw
      exact Bool.noConfusion hw
    · exact fun m => ended_of_update rfl (by rw [(ho.timer w g n ht).2]; rfl) m
  | @fail t w n hpc =>
    refine h.goes (t := t) rfl (fun hw => ?_) rfl (fun u => ?_) rfl rfl ?_ rfl
    · rw [isWait_of_held hpc] at hw
      exact Bool.noConfusion hw
    · simp [queueFail, Core.setStage, Core.setFlags]
    · exact fun m => ended_of_update rfl (by rw [ho.held t w n hpc]; rfl) m
  | @insert t w q n hi hr =>
    refine h.goes (t := t) rfl (fun hw => ?_) rfl (fun u => ?_) rfl rfl ?_ rfl
    · rw [isWait_of_held hi.held] at hw
      exact Bool.noConfusion hw
    · simp [queueInsert_flags]
    · exact fun m => ended_of_update rfl (by rw [ho.held t w n hi.held]; rfl) m
  | @grabTimer t w m g n hpc ht =>
    refine h.goes (t := t) rfl (fun hw => ?_) rfl (fun u => rfl) rfl rfl ?_ rfl
    · rw [hpc] at hw
      exact Bool.noConfusion hw
    · exact fun m => ended_of_update rfl (by rw [(ho.timer w g n ht).2]; rfl) m
  | @grabBit t w m hpc hp =>
    refine h.goes (t := t) rfl (fun hw => ?_) rfl (fun u => ?_) rfl rfl
      (fun _ hn => hn) rfl
    · rw [hpc] at hw
      exact Bool.noConfusion hw
    · simp [Core.setFlags]
  | @grabQueued t w m q hpc hq hr =>
    have hg := grabFrame hc hq
    refine h.goes (t := t) rfl (fun hw => ?_) rfl (fun u => ?_) hg.curr hg.target
      (quietly_grab hc hq).ended rfl
    · rw [hpc] at hw
      exact Bool.noConfusion hw
    · exact (hg.word _ (by simp)).data
  | @foreignGet t q v back hpc =>
    refine h.goes (t := t) rfl (fun hw => ?_) rfl (fun u => rfl) rfl rfl
      (fun _ hn => hn) rfl
    rw [hpc] at hw
    exact Bool.noConfusion hw
  | @foreignPut t q v w m hpc =>
    refine h.goes (t := t) rfl (fun hw => ?_) rfl (fun u => rfl) rfl rfl
      (fun _ hn => hn) rfl
    rw [hpc] at hw
    exact Bool.noConfusion hw
  | @foreignFlush t q v w cancel hpc =>
    refine h.goes (t := t) rfl (fun hw => ?_) (isWait_afterFlush w cancel)
      (fun u => rfl) rfl rfl (fun _ hn => hn) rfl
    rw [hpc] at hw
    exact Bool.noConfusion hw
  | @finish t w m hpc hm =>
    refine h.goes (t := t) rfl (fun hw => ?_) rfl (fun u => ?_) rfl rfl
      (fun _ hn => hn) rfl
    · rw [hpc] at hw
      exact Bool.noConfusion hw
    · simp [Core.setFlags]
  | @mark t w m hpc hm =>
    refine h.goes (t := t) rfl (fun hw => ?_) rfl (fun u => ?_) rfl rfl
      (fun _ hn => hn) rfl
    · rw [hpc] at hw
      exact Bool.noConfusion hw
    · simp [Core.setFlags]
  | @behind t w cancel q hpc hq hr =>
    refine barriers_insert h (t := t) (by rw [hpc]; rfl) rfl rfl rfl (fun u hu => ?_) rfl (fun u hu => ?_)
      (quietly_behind hc q hq t).ended
    · simp [insertBarrierBehind_flags, hu]
    · simp [insertBarrierBehind, startBarrier, insertWork, pwqIncNrInFlight, hu]
  | @front t w cancel k r hpc hk hw hr =>
    refine barriers_insert h (t := t) (by rw [hpc]; rfl) rfl rfl rfl (fun u hu => ?_) rfl (fun u hu => ?_)
      (quietly_front hc k r t).ended
    · simp [insertBarrierFront, startBarrier, insertWork, pwqIncNrInFlight, hu]
    · simp [insertBarrierFront, startBarrier, insertWork, pwqIncNrInFlight, hu]
  | @clear t w hpc =>
    refine h.goes (t := t) rfl (fun hw => ?_) rfl (fun u => ?_) rfl rfl
      (fun _ hn => hn) rfl
    · rw [hpc] at hw
      exact Bool.noConfusion hw
    · simp [Core.setFlags]
  | @wake t w hpc =>
    have hw := wakeFrame_wakeUpOne w s.waitq s
    have h1 : Barriers (wakeUpOne s w s.waitq) := by
      refine BarrierFrame.barriers (s := s) ⟨?_, ?_, ?_, ?_, hw.done, ?_, ?_⟩ h
      · exact fun u q hq => hw.core ▸ hq
      · exact fun k r hr _ => hw.core ▸ hr
      · rw [hw.core]
      · exact fun n hn => by rw [hw.core]; exact hn
      · exact fun u hu => (hw.isWait u).symm.trans hu
      · exact fun u hu _ => (hw.isWait u).trans hu
    refine h1.goes (t := t) rfl (fun hw' => ?_) rfl (fun u => rfl) rfl rfl
      (fun _ hn => hn) rfl
    rw [hw.isWait, hpc] at hw'
    exact Bool.noConfusion hw'
  | @waitPrep t w m hpc =>
    refine h.goes (t := t) rfl (fun hw => ?_) rfl (fun u => rfl) rfl rfl
      (fun _ hn => hn) rfl
    rw [hpc] at hw
    exact Bool.noConfusion hw
  | @waitCheck t w m hpc hcc =>
    refine h.goes (t := t) rfl (fun hw => ?_) rfl (fun u => rfl) rfl rfl
      (fun _ hn => hn) rfl
    rw [hpc] at hw
    exact Bool.noConfusion hw
  | @finishWait t w m hpc =>
    refine h.goes (t := t) rfl (fun hw => ?_) rfl (fun u => rfl) rfl rfl
      (fun _ hn => hn) rfl
    rw [hpc] at hw
    exact Bool.noConfusion hw
  | pick hp =>
    obtain ⟨c1, hr, rfl | ⟨src, x, q, hs, rfl⟩⟩ := (picks_of_pickWork hc hp).2
    · obtain ⟨hflags, hcurr, hstage, hticket, htarget⟩ := hr.core
      refine BarrierFrame.barriers (s := s) ⟨?_, ?_, htarget, ?_, rfl, fun _ hu => hu, fun _ hu _ => hu⟩ h
      · exact fun u q hq => hflags ▸ hq
      · exact fun k r hk _ => hcurr ▸ hk
      · exact fun n hn => by simpa only [Core.over, hstage] using hn
    · exact barriers_start h hr hs
  | complete hk hi hcl => exact barriers_complete hc h hk hi hcl
  | @workDone k r hk hcl =>
    have hd := decFrame_pwqDecNrInFlight cfg { s.core with
      curr := Function.update s.core.curr k none, stage :=
      Function.update s.core.stage r.ticket .finished } r.pwq r.barrier
    refine BarrierFrame.barriers (s := s) ⟨?_, ?_, hd.target, (quietly_finish hc hk).ended, rfl,
      fun _ hu => hu,
      fun _ hu _ => hu⟩ h
    · exact fun u q hq => (hd.word (.barrier u)).data ▸ hq
    · intro k' r' hr' _
      have hr1 : Function.update s.core.curr k none k' = some r' := by
        rw [← hr']
        exact (congrFun hd.curr k').symm
      have hne : k' ≠ k := by
        rintro rfl
        simp at hr1
      rwa [Function.update_of_ne hne] at hr1

end Barriers

end Skp.Workqueue
