import Skp.Workqueue.Inserts

/-! # Starting, finishing and cancelling

The operations that take items from lists: `pwq_dec_nr_in_flight` with the activation of a delayed work,
`process_one_work` before and after the call of the function, and the removal in `try_to_grab_pending`. All
of them keep `CoreInv`. -/
namespace Skp.Workqueue
set_option autoImplicit false
open Skp.Foundations

variable {P Q G W K T : Type}

/-! ## Activation -/

section Activation
variable {cfg : WqConfig P Q G K} {c : Core P Q G W K T}

theorem Core.same_trans (c : Core P Q G W K T) (x y z : Item W T) (hxy : c.same x y) (hyz : c.same y z) :
    c.same x z := ⟨hyz.1, hyz.2.trans hxy.2⟩

/-- The only work of a group is its first entry. -/
theorem CoreInv.eq_head_of_run (h : CoreInv cfg c) {pl : Place P Q K} {a b : List (Item W T)} {x y : Item W T}
    (hl : c.lists pl = a ++ x :: b) (hy : y ∈ (splitRun c.linked (x :: b)).1)
    (hb : y.isBarrier = false) : y = x := by
  have hp := h.chained.path pl
  rw [hl] at hp
  have hx : ListPath (c.linkage pl) (lastOr none a) (x :: b) none :=
    ⟨(path_append_cons.mp hp).1.last, (path_append_cons.mp hp).2⟩
  obtain ⟨-, -, -, -, -, hall⟩ := splitRun_closed c.same_trans hx
  rcases hall y hy with he | hs
  · exact he
  · have := hs.1
    rw [hb] at this
    exact Bool.noConfusion this

variable [DecidableEq P] [DecidableEq Q] [DecidableEq W] [DecidableEq K] [DecidableEq T]

theorem coreInv_activate (h : CoreInv cfg c) {q : Q} {x : Item W T} (hx : x ∈ c.lists (.delayed q))
    (hb : x.isBarrier = false) : CoreInv cfg (pwqActivateDelayedWork cfg c q x) := by
  obtain ⟨a, b, hl, -, heq⟩ := moveLinkedWorks_eq c (.worklist (cfg.poolOf q)) hx
  have hmoved : CoreInv cfg
      { c.moved (.delayed q) (.worklist (cfg.poolOf q)) a (splitRun c.linked (x :: b)) with
      flags := Function.update c.flags x { c.flags x with delayed := false } } := by
    refine h.moved (by simp) hl (Or.inl hb) ?_ (fun y hn => ⟨hn.1, trivial⟩) ?_ ?_ ?_ ?_
    · intro q' hq
      exact congrArg cfg.poolOf hq
    · intro y
      by_cases hy : y = x
      · subst hy
        simp [SameWord]
      · rw [Function.update_of_ne hy]
        exact SameWord.refl _
    · intro y
      by_cases hy : y = x
      · subst hy
        simp
      · rw [Function.update_of_ne hy]
    · intro y hy
      have hne : y ≠ x := by
        rintro rfl
        exact hy (mem_splitRun_head y b)
      rw [Function.update_of_ne hne]
    · intro y hy hyb
      rw [h.eq_head_of_run hl hy hyb, Function.update_self]
      rfl
  unfold pwqActivateDelayedWork
  rw [heq]
  exact hmoved.counters ⟨rfl, rfl, rfl, rfl, rfl, rfl, rfl⟩ rfl

omit [DecidableEq P] [DecidableEq Q] [DecidableEq W] [DecidableEq K] [DecidableEq T] in
theorem CoreInv.head_delayed (h : CoreInv cfg c) {q : Q} {x : Item W T} {l : List (Item W T)}
    (hl : c.lists (.delayed q) = x :: l) : x.isBarrier = false := by
  have hp := h.chained.path (.delayed q)
  rw [hl] at hp
  by_contra hb
  exact hp.1.no_need_of_none ⟨Bool.of_not_eq_false hb, trivial⟩

theorem coreInv_activateFirst (h : CoreInv cfg c) (q : Q) : CoreInv cfg (activateFirst cfg c q) := by
  unfold activateFirst
  split
  · exact h
  · rename_i x l hl
    split
    · exact coreInv_activate h (hl ▸ List.mem_cons_self) (h.head_delayed hl)
    · exact h

theorem coreInv_pwqDecNrInFlight [DecidableEq G] (h : CoreInv cfg c) (q : Q) (barrier : Bool) :
    CoreInv cfg (pwqDecNrInFlight cfg c q barrier) := by
  have h1 : CoreInv cfg (if barrier then c else
      { c with nrActive := Function.update c.nrActive q (c.nrActive q - 1) }) := by
    split
    · exact h
    · exact h.counters ⟨rfl, rfl, rfl, rfl, rfl, rfl, rfl⟩ rfl
  exact (coreInv_activateFirst h1 q).counters ⟨rfl, rfl, rfl, rfl, rfl, rfl, rfl⟩ rfl

end Activation

/-! ## Starting a work -/

section Start
variable {cfg : WqConfig P Q G K} {c c' : Core P Q G W K T}

theorem CoreInv.ticket_lt (h : CoreInv cfg c) {x : Item W T} {pl : Place P Q K} (hx : x ∈ c.lists pl) :
    c.ticket x < c.next := by
  by_contra hge
  have hs := h.staged.listed x pl hx
  rw [h.staged.fresh _ (not_lt.mp hge)] at hs
  cases hs

theorem over_update_running {n : ℕ} {x : Item W T} {k : K} (hn : c.stage n = .listed x)
    (hs : c'.stage = Function.update c.stage n (.running k)) (m : ℕ) : c'.over m = c.over m := by
  by_cases hm : m = n
  · subst hm
    simp [Core.over, hs, hn, Stage.isOver]
  · simp [Core.over, hs, hm]

/-- The list that `process_one_work` takes a work from. -/
def Source (cfg : WqConfig P Q G K) (k : K) (src : Place P Q K) : Prop :=
  src = .scheduled k ∨ src = .worklist (cfg.workerPool k)

theorem Source.not_delayed {k : K} {src : Place P Q K} (h : Source cfg k src) : src.isDelayed = false := by
  rcases h with rfl | rfl
  · rfl
  · rfl

theorem Source.pool {k : K} {src : Place P Q K} (h : Source cfg k src) {q : Q} (hf : Fits cfg src q) :
    cfg.poolOf q = cfg.workerPool k := by
  rcases h with rfl | rfl
  · exact Eq.symm hf
  · exact Eq.symm hf

theorem Source.needs_iff {k : K} {src : Place P Q K} (h : Source cfg k src) (hk : c.curr k = none)
    (y : Item W T) :
    c.needs src y ↔ y.isBarrier = true ∧ c.over (c.chain y) = false := by
  rcases h with rfl | rfl
  · simp [Core.needs, hk]
  · rfl

theorem CoreInv.over_of_head (h : CoreInv cfg c) {k : K} {src : Place P Q K} {x : Item W T}
    {b : List (Item W T)}
    (hsrc : Source cfg k src) (hk : c.curr k = none) (hl : c.lists src = x :: b) (hx : x.isBarrier = true) :
    c.over (c.chain x) = true := by
  have hp := h.chained.path src
  rw [hl] at hp
  have hn := hp.1.no_need_of_none
  rw [hsrc.needs_iff hk] at hn
  simpa [hx] using hn

variable [DecidableEq P] [DecidableEq Q] [DecidableEq W] [DecidableEq K] [DecidableEq T]

theorem layout_startWork (h : CoreInv cfg c) {k : K} {src : Place P Q K} {x : Item W T} {q : Q}
    (hsrc : Source cfg k src) (hx : x ∈ c.lists src) (hq : (c.flags x).data = .pwq q)
    (hfree : ∀ k' r, cfg.workerPool k' = cfg.workerPool k → c.curr k' = some r → r.item ≠ x) :
    Layout cfg (startWork cfg c k src x q) := by
  have hlists : (startWork cfg c k src x q).lists = Function.update c.lists src ((c.lists src).erase x) := rfl
  have hflags : (startWork cfg c k src x q).flags =
      Function.update c.flags x (workFlags (.pool (cfg.workerPool k)) false false) := rfl
  have hmem : ∀ y pl, y ≠ x → (y ∈ (startWork cfg c k src x q).lists pl ↔ y ∈ c.lists pl) := by
    intro y pl hy
    rw [hlists]
    by_cases hp : pl = src
    · subst hp
      rw [Function.update_self, List.mem_erase_of_ne hy]
    · rw [Function.update_of_ne hp]
  have hgone : ∀ pl, x ∉ (startWork cfg c k src x q).lists pl := by
    intro pl hm
    rw [hlists] at hm
    by_cases hp : pl = src
    · subst hp
      rw [Function.update_self] at hm
      exact (h.layout.nodup pl).not_mem_erase hm
    · rw [Function.update_of_ne hp] at hm
      exact hp ((h.layout.situated x).unique pl src hm hx)
  have hpool : cfg.poolOf q = cfg.workerPool k := by
    obtain ⟨q', hq', hf⟩ := h.layout.data_of_mem hx
    rw [hq] at hq'
    cases hq'
    exact hsrc.pool hf
  -- the worker `k` executes `x`; the others execute what they did
  have hcurr : ∀ k' r, (startWork cfg c k src x q).curr k' = some r →
      (k' = k ∧ r.item = x ∧ r.pwq = q ∧ r.barrier = (c.flags x).barrier) ∨
        (k' ≠ k ∧ c.curr k' = some r) := by
    intro k' r hr
    by_cases hk : k' = k
    · subst hk
      simp only [startWork, Function.update_self, Option.some.injEq] at hr
      subst hr
      exact Or.inl ⟨rfl, rfl, rfl, rfl⟩
    · simp only [startWork, Function.update_of_ne hk] at hr
      exact Or.inr ⟨hk, hr⟩
  refine ⟨?_, ?_, ?_, ?_, ?_⟩
  · intro pl
    rw [hlists]
    by_cases hp : pl = src
    · subst hp
      rw [Function.update_self]
      exact (h.layout.nodup pl).erase x
    · rw [Function.update_of_ne hp]
      exact h.layout.nodup pl
  · intro y
    by_cases hy : y = x
    · subst hy
      refine situated_of_unlisted hgone ?_
      intro q'
      simp [hflags, workFlags]
    · refine (h.layout.situated y).congr (fun pl => hmem y pl hy) ?_ ?_
      · rw [hflags, Function.update_of_ne hy]
        exact SameWord.refl _
      · rw [hflags, Function.update_of_ne hy]
  · intro k' r hr
    rcases hcurr k' r hr with ⟨rfl, -, rfl, -⟩ | ⟨-, hr⟩
    · exact hpool
    · exact h.layout.running_pool k' r hr
  · intro k' r hr
    rcases hcurr k' r hr with ⟨rfl, rfl, -, hbit⟩ | ⟨-, hr⟩
    · rw [hbit]
      exact (h.layout.situated r.item).barrierBit src hx
    · exact h.layout.running_bit k' r hr
  · intro k1 k2 r1 r2 h1 h2 hitem hpools
    rcases hcurr k1 r1 h1 with ⟨rfl, hi1, -, -⟩ | ⟨-, hr1⟩ <;> rcases hcurr k2 r2 h2
      with ⟨rfl, hi2, -, -⟩ | ⟨-, hr2⟩
    · rfl
    · exact absurd (hitem.symm.trans hi1) (hfree k2 r2 hpools.symm hr2)
    · exact absurd (hitem.trans hi2) (hfree k1 r1 hpools hr1)
    · exact h.layout.running_unique k1 k2 r1 r2 hr1 hr2 hitem hpools

theorem chained_startWork (h : CoreInv cfg c) {k : K} {src : Place P Q K} {x : Item W T}
    {b : List (Item W T)} {q : Q}
    (hsrc : Source cfg k src) (hk : c.curr k = none) (hl : c.lists src = x :: b)
    (hlinked : c.linked x = true → src = .scheduled k) : Chained (startWork cfg c k src x q) := by
  have hx : x ∈ c.lists src := hl ▸ List.mem_cons_self
  have hlists : (startWork cfg c k src x q).lists = Function.update c.lists src ((c.lists src).erase x) := rfl
  have hflags : (startWork cfg c k src x q).flags =
      Function.update c.flags x (workFlags (.pool (cfg.workerPool k)) false false) := rfl
  have hcurr : (startWork cfg c k src x q).curr =
      Function.update c.curr k (some ⟨x, q, (c.flags x).barrier, false,
      c.ticket x, c.chain x⟩) := rfl
  have hchain : (startWork cfg c k src x q).chain = c.chain := by
    funext y
    cases y with
    | work v => rfl
    | barrier u => rfl
  have hstage : (startWork cfg c k src x q).stage = Function.update c.stage (c.ticket x) (.running k) := rfl
  have hover := over_update_running (h.staged.listed x src hx) hstage
  have hneeds : ∀ pl y, (startWork cfg c k src x q).needs pl y → c.needs pl y := by
    intro pl y hn
    refine ⟨hn.1, ?_⟩
    have h2 := hn.2
    cases pl with
    | worklist p => simpa only [hchain, hover] using h2
    | delayed q' => trivial
    | scheduled k' =>
      refine ⟨by simpa only [hchain, hover] using h2.1, ?_⟩
      intro r hr
      have hk' : k' ≠ k := by
        rintro rfl
        rw [hk] at hr
        cases hr
      rw [← hchain]
      exact h2.2 r (by rw [hcurr, Function.update_of_ne hk']; exact hr)
  have hsame : ∀ y z, c.same y z → (startWork cfg c k src x q).same y z := by
    intro y z hyz
    exact ⟨hyz.1, by rw [hchain]; exact hyz.2⟩
  refine ⟨?_, ?_⟩
  · intro pl
    by_cases hp : pl = src
    · subst hp
      have hnx : x ∉ b := (List.nodup_cons.mp (hl ▸ h.layout.nodup pl)).1
      have hold : ListPath
          (Link c.linked (startWork cfg c k pl x q).same ((startWork cfg c k pl x q).needs pl)) none
          ([] ++ x :: b) none := by
        have hp := h.chained.path pl
        rw [hl] at hp
        exact hp.relink (fun _ _ => rfl) (fun y z _ _ => hsame y z) (fun y _ => hneeds pl y)
      have hnew := path_remove hold (by simp [lastOr]) ?_
      · rw [hlists, Function.update_self, hl, List.erase_cons_head]
        refine hnew.relink (fun y hy => ?_) (fun _ _ _ _ hs => hs) (fun _ _ hn => hn)
        have hyx : y ≠ x := fun he => hnx (he ▸ hy.resolve_left (by simp))
        simp [Core.linked, hflags, hyx]
      · -- what `x` leads to waits for `x` itself when `x` is a work, and for nothing when it is a barrier
        intro y ht hxy hn
        obtain rfl := hlinked ht
        have hcy : c.chain y = c.chain x := by
          have := hxy.2
          rwa [hchain] at this
        have hn1 := hn.2.1
        have hn2 := hn.2.2 ⟨x, q, (c.flags x).barrier, false, c.ticket x, c.chain x⟩
          (by rw [hcurr, Function.update_self])
        rw [hchain, hcy] at hn2
        rw [hchain, hover, hcy] at hn1
        cases x with
        | work w => exact hn2 rfl
        | barrier u =>
          rw [h.over_of_head hsrc hk hl rfl] at hn1
          exact Bool.noConfusion hn1
    · rw [hlists, Function.update_of_ne hp]
      refine (h.chained.path pl).relink (fun y hy => ?_) (fun y z _ _ => hsame y z) (fun y _ => hneeds pl y)
      have hyx : y ≠ x := by
        rintro rfl
        exact hp ((h.layout.situated y).unique pl src (hy.resolve_left (by simp)) hx)
      simp [Core.linked, hflags, hyx]
  · intro k' r hr hb
    rw [hover]
    by_cases hk' : k' = k
    · subst hk'
      rw [hcurr, Function.update_self, Option.some.injEq] at hr
      subst hr
      exact h.over_of_head hsrc hk hl hb
    · rw [hcurr, Function.update_of_ne hk'] at hr
      exact h.chained.running_over k' r hr hb

theorem staged_startWork (h : CoreInv cfg c) {k : K} {src : Place P Q K} {x : Item W T} {q : Q}
    (hx : x ∈ c.lists src) : Staged (startWork cfg c k src x q) := by
  have hlisted := h.staged.listed x src hx
  have hstage : (startWork cfg c k src x q).stage = Function.update c.stage (c.ticket x) (.running k) := rfl
  have hcalls : (startWork cfg c k src x q).calls =
      Function.update c.calls (c.ticket x) (c.calls (c.ticket x) + 1) := rfl
  refine ⟨?_, ?_, ?_, ?_, ?_⟩
  · intro y pl hy
    have hold : y ∈ c.lists pl ∧ y ≠ x := by
      simp only [startWork] at hy
      by_cases hp : pl = src
      · subst hp
        rw [Function.update_self] at hy
        refine ⟨List.mem_of_mem_erase hy, ?_⟩
        rintro rfl
        exact (h.layout.nodup pl).not_mem_erase hy
      · rw [Function.update_of_ne hp] at hy
        refine ⟨hy, ?_⟩
        rintro rfl
        exact hp ((h.layout.situated y).unique pl src hy hx)
    have hs := h.staged.listed y pl hold.1
    have hne : c.ticket y ≠ c.ticket x := by
      intro he
      rw [he, hlisted] at hs
      cases hs
      exact hold.2 rfl
    simpa [hstage, startWork, hne] using hs
  · intro k' r hr
    by_cases hk : k' = k
    · subst hk
      simp only [startWork, Function.update_self, Option.some.injEq] at hr
      subst hr
      simp [hstage]
    · simp only [startWork, Function.update_of_ne hk] at hr
      have hs := h.staged.running k' r hr
      have hne : r.ticket ≠ c.ticket x := by
        intro he
        rw [he, hlisted] at hs
        cases hs
      simpa [hstage, hne] using hs
  · intro n hn
    have hne : n ≠ c.ticket x := (lt_of_lt_of_le (h.ticket_lt hx) hn).ne'
    simpa [hstage, hne] using h.staged.fresh n hn
  · intro n
    rw [hcalls]
    by_cases hn : n = c.ticket x
    · subst hn
      rw [Function.update_self, h.staged.calls_zero _ (by rw [hlisted]; rfl)]
    · rw [Function.update_of_ne hn]
      exact h.staged.calls_le n
  · intro n hn
    have hne : n ≠ c.ticket x := by
      rintro rfl
      rw [hstage, Function.update_self] at hn
      exact Bool.noConfusion hn
    rw [hcalls, Function.update_of_ne hne]
    rw [hstage, Function.update_of_ne hne] at hn
    exact h.staged.calls_zero n hn

theorem coreInv_startWork (h : CoreInv cfg c) {k : K} {src : Place P Q K} {x : Item W T}
    {b : List (Item W T)} {q : Q}
    (hsrc : Source cfg k src) (hk : c.curr k = none) (hl : c.lists src = x :: b)
    (hlinked : c.linked x = true → src = .scheduled k) (hq : (c.flags x).data = .pwq q)
    (hfree : ∀ k' r, cfg.workerPool k' = cfg.workerPool k → c.curr k' = some r → r.item ≠ x) :
    CoreInv cfg (startWork cfg c k src x q) :=
  have hx : x ∈ c.lists src := hl ▸ List.mem_cons_self
  ⟨layout_startWork h hsrc hx hq hfree, chained_startWork h hsrc hk hl hlinked, staged_startWork h hx⟩

end Start

/-! ## Picking a work -/

section Pick
variable {cfg : WqConfig P Q G K} {c c' : Core P Q G W K T}

variable [DecidableEq W] [DecidableEq T]

theorem executes_eq_true {k : K} {x : Item W T} :
    executes c k x = true ↔ ∃ r, c.curr k = some r ∧ r.item = x := by
  unfold executes
  cases hr : c.curr k with
  | some r => simp
  | none => simp

variable [DecidableEq P]

theorem findWorker_some {p : P} {x : Item W T} {k : K} (h : findWorkerExecutingWork cfg c p x = some k) :
    cfg.workerPool k = p ∧ ∃ r, c.curr k = some r ∧ r.item = x := by
  have hf := List.find?_some h
  rw [Bool.and_eq_true, decide_eq_true_eq, executes_eq_true] at hf
  exact hf

theorem findWorker_none {p : P} {x : Item W T} (h : findWorkerExecutingWork cfg c p x = none) {k : K}
    {r : Running Q W T} (hk : cfg.workerPool k = p) (hr : c.curr k = some r) : r.item ≠ x := by
  intro hx
  have hf := List.find?_eq_none.mp h k (cfg.workers_all k)
  rw [Bool.and_eq_true, decide_eq_true_eq, executes_eq_true] at hf
  exact hf ⟨hk, r, hr, hx⟩

/-- `c` with other lists: works have moved between the lists of workers and pools. -/
structure Rearranged (cfg : WqConfig P Q G K) (c c' : Core P Q G W K T) : Prop where
  eq : c' = { c with lists := c'.lists }
  inv : CoreInv cfg c'
  delayed : ∀ q, c'.lists (.delayed q) = c.lists (.delayed q)

omit [DecidableEq P] [DecidableEq W] [DecidableEq T] in
theorem Rearranged.trans {c'' : Core P Q G W K T} (h1 : Rearranged cfg c c') (h2 : Rearranged cfg c' c'') :
    Rearranged cfg c c'' where
  eq := by rw [h2.eq, h1.eq]
  inv := h2.inv
  delayed := fun q => (h2.delayed q).trans (h1.delayed q)

variable [DecidableEq Q] [DecidableEq K]

theorem rearranged_move (h : CoreInv cfg c) {k k' : K} {src : Place P Q K} {x : Item W T}
    {b : List (Item W T)}
    (hsrc : Source cfg k src) (hk : c.curr k = none) (hl : c.lists src = x :: b) (hne : src ≠ .scheduled k')
    (hpool : cfg.workerPool k' = cfg.workerPool k) :
    Rearranged cfg c (moveLinkedWorks c src (.scheduled k') x) ∧
      (moveLinkedWorks c src (.scheduled k') x).lists (.scheduled k') =
        c.lists (.scheduled k') ++ (splitRun c.linked (x :: b)).1 := by
  have hx : x ∈ c.lists src := hl ▸ List.mem_cons_self
  obtain ⟨a, b', hl', hxa, heq⟩ := moveLinkedWorks_eq c (.scheduled k') hx
  have ha : a = [] ∧ b' = b := by
    rw [hl] at hl'
    cases a with
    | nil =>
      injection hl' with _ hb
      exact ⟨rfl, hb.symm⟩
    | cons z a =>
      injection hl' with hz _
      exact absurd (hz ▸ List.mem_cons_self) hxa
  obtain ⟨rfl, rfl⟩ := ha
  rw [heq]
  refine ⟨⟨rfl, ?_, ?_⟩, ?_⟩
  · refine h.moved hne hl' (Or.inr rfl) ?_ ?_ (fun y => SameWord.refl _) (fun _ => rfl) (fun _ _ => rfl) ?_
    · intro q hf
      exact hpool.trans (hsrc.pool hf).symm
    · intro y hn
      exact (hsrc.needs_iff hk y).mpr ⟨hn.1, hn.2.1⟩
    · intro y hy hb
      have hys : y ∈ c.lists src := hl ▸ (splitRun_sublist _).subset hy
      rw [(h.layout.situated y).delayedBit src hys hb, hsrc.not_delayed]
      rfl
  · intro q
    have hs : Place.delayed q ≠ src := by
      rintro rfl
      exact Bool.noConfusion hsrc.not_delayed
    simp only [Core.moved]
    rw [Function.update_of_ne (by simp), Function.update_of_ne hs]
  · simp only [Core.moved, Function.update_self]

/-- Worker `k` starts the work `x` at the head of `src`. -/
structure Starts (cfg : WqConfig P Q G K) (c : Core P Q G W K T) (k : K) (src : Place P Q K)
    (x : Item W T) (q : Q) :
    Prop where
  source : Source cfg k src
  idle : c.curr k = none
  head : ∃ b, c.lists src = x :: b
  linked : c.linked x = true → src = .scheduled k
  data : (c.flags x).data = .pwq q
  free : ∀ k' r, cfg.workerPool k' = cfg.workerPool k → c.curr k' = some r → r.item ≠ x

theorem Starts.coreInv {k : K} {src : Place P Q K} {x : Item W T} {q : Q} (hs : Starts cfg c k src x q)
    (h : CoreInv cfg c) : CoreInv cfg (startWork cfg c k src x q) := by
  obtain ⟨b, hb⟩ := hs.head
  exact coreInv_startWork h hs.source hs.idle hb hs.linked hs.data hs.free

/-- What one round of the loop of `worker_cb` does before it calls a function: works are rearranged, and then
one may be started. -/
def Picks (cfg : WqConfig P Q G K) (c : Core P Q G W K T) (k : K) (c' : Core P Q G W K T) : Prop :=
  ∃ c1, Rearranged cfg c c1 ∧ (c' = c1 ∨ ∃ src x q, Starts cfg c1 k src x q ∧ c' = startWork cfg c1 k src x q)

theorem picks_of_process (h : CoreInv cfg c) {k : K} {src : Place P Q K} {x : Item W T} {b : List (Item W T)}
    (hsrc : Source cfg k src) (hk : c.curr k = none) (hl : c.lists src = x :: b)
    (hlinked : c.linked x = true → src = .scheduled k) (hp : processOneWork cfg c k src x = some c') :
    Picks cfg c k c' := by
  unfold processOneWork at hp
  cases hf : findWorkerExecutingWork cfg c (cfg.workerPool k) x with
  | some k' =>
    rw [hf] at hp
    obtain ⟨hpool, r, hr, -⟩ := findWorker_some hf
    have hne : src ≠ .scheduled k' := by
      rcases hsrc with rfl | rfl
      · intro he
        cases he
        rw [hk] at hr
        cases hr
      · simp
    cases hp
    exact ⟨_, (rearranged_move h hsrc hk hl hne hpool).1, Or.inl rfl⟩
  | none =>
    rw [hf] at hp
    cases hd : (c.flags x).data with
    | pwq q =>
      simp only [hd, Option.some.injEq] at hp
      subst hp
      exact ⟨c, ⟨rfl, h, fun _ => rfl⟩, Or.inr ⟨src, x, q,
        ⟨hsrc, hk, ⟨b, hl⟩, hlinked, hd, fun k' r hk' hr => findWorker_none hf hk' hr⟩, rfl⟩⟩
    | pool p => simp [hd] at hp
    | none => simp [hd] at hp

theorem picks_of_pickWork (h : CoreInv cfg c) {k : K} (hp : pickWork cfg c k = some c') :
    c.curr k = none ∧ Picks cfg c k c' := by
  unfold pickWork at hp
  split at hp
  · cases hp
  · rename_i hcurr
    have hk : c.curr k = none := by simpa using hcurr
    refine ⟨hk, ?_⟩
    split at hp
    · rename_i x b hl
      exact picks_of_process h (Or.inl rfl) hk hl (fun _ => rfl) hp
    · rename_i hsched
      split at hp
      · cases hp
      · rename_i x b hl
        split at hp
        · obtain ⟨hr, hlists⟩ := rearranged_move h (Or.inr rfl) hk hl (by simp) rfl
          have hk1 : (moveLinkedWorks c (.worklist (cfg.workerPool k)) (.scheduled k) x).curr k = none := by
            rw [hr.eq]
            exact hk
          have hl1 : ∃ b1, (moveLinkedWorks c (.worklist (cfg.workerPool k)) (.scheduled k) x).lists
              (.scheduled k) =
              x :: b1 := by
            rw [hlists, hsched, List.nil_append, splitRun]
            split
            · exact ⟨_, rfl⟩
            · exact ⟨_, rfl⟩
          obtain ⟨b1, hl1⟩ := hl1
          obtain ⟨c1, hr1, hc1⟩ := picks_of_process hr.inv (Or.inl rfl) hk1 hl1 (fun _ => rfl) hp
          exact ⟨c1, hr.trans hr1, hc1⟩
        · rename_i hx
          exact picks_of_process h (Or.inr rfl) hk hl (fun ht => absurd ht hx) hp

theorem Picks.coreInv {k : K} (hp : Picks cfg c k c') : CoreInv cfg c' := by
  obtain ⟨c1, hr, rfl | ⟨src, x, q, hs, rfl⟩⟩ := hp
  · exact hr.inv
  · exact hs.coreInv hr.inv

end Pick

end Skp.Workqueue
