import Skp.Process.WaitEventEntries

/-! # Nobody waits for a condition that holds

A caller that sleeps while the condition holds has a waker on the way to its entry, as long as the
16-bit counters of the entries fit. Callers in exclusive mode are behind the others on the queue, so
that a waker that counts passes over none of the others. -/
namespace Skp.Process
set_option autoImplicit false
open Skp.Foundations

section Steps
variable {T : Type} {s s' : WaitEventState T} {t u w x : T} {p p' : WaitEventPc T} {excl : Bool}
    {nr : ℤ} {rest : List T}

/-! ## The counters -/

def SeenWord (cond lastCond : ℕ) : WaitEventPc T → Prop
  | .futex c l => c = lastCond ∧ l = lastCond
  | .asleep c l => c = lastCond ∧ l = lastCond
  | .latch c => lastCond ≤ c ∧ c ≤ cond
  | _ => True

def StuckAt (p : WaitEventPc T) (cond lastCond : ℕ) : Prop :=
  p.sleeps = true ∧ (cond = lastCond ∨ p.isAsleep = true)

def StuckIn (s : WaitEventState T) (t : T) : Prop := StuckAt (s.pc t) (s.cond t) (s.lastCond t)

structure WokenInv (s : WaitEventState T) : Prop where
  entry : EntryInv s
  fits : ∀ t ∈ s.taskList, s.lastCond t ≤ s.cond t ∧ s.cond t < s.lastCond t + 2 ^ 16
  seen : ∀ t ∈ s.taskList, SeenWord (s.cond t) (s.lastCond t) (s.pc t)
  signalled : ∀ u w e n l, s.pc u = .visit .futexWake w e n l → (s.pc w).queued = true →
    s.lastCond w < s.cond w
  counted : s.limited = false → ∀ u, (s.pc u).nr ≤ 0
  served : s.ready = true → ∀ t, StuckIn s t → Owed s t → ∃ u, (s.pc u).ahead t

theorem WokenInv.awake (h : WokenInv s) : WaitEventAwake s where
  woken := fun hready t ht howed => by
    refine h.served hready t ⟨?_, .inr ht⟩ howed
    cases hp : s.pc t with
    | asleep c l => rfl
    | _ =>
      rw [hp] at ht
      cases ht

variable [DecidableEq T]

/-- The thread `x` goes to `p'`; of the conditions and counters only its own `last_cond` may change. -/
structure WordMoves (s s' : WaitEventState T) (x : T) (p' : WaitEventPc T) : Prop where
  ready : s'.ready = s.ready
  excl : s'.excl = s.excl
  limited : s'.limited = s.limited
  cond : s'.cond = s.cond
  pc : s'.pc = Function.update s.pc x p'
  lastCond : ∀ u, u ≠ x → s'.lastCond u = s.lastCond u
  task : ∀ u, u ≠ x → (u ∈ s'.taskList → u ∈ s.taskList)

theorem wordMoves_goto : WordMoves s (s.goto x p') x p' :=
  ⟨rfl, rfl, rfl, rfl, rfl, fun _ _ => rfl, fun _ _ ht => ht⟩

theorem WokenInv.move (h : WokenInv s) (hentry : EntryInv s') (hm : WordMoves s s' x p') (hp : s.pc x = p)
    (hfits : x ∈ s'.taskList → s'.lastCond x ≤ s.cond x ∧ s.cond x < s'.lastCond x + 2 ^ 16)
    (hseen : x ∈ s'.taskList → SeenWord (s.cond x) (s'.lastCond x) p')
    (hsig : ∀ w e n l, p' = .visit .futexWake w e n l → (s.pc w).queued = true → s.lastCond w < s.cond w)
    (hqueued : p'.queued = true → (p.queued = true ∧ s'.lastCond x = s.lastCond x) ∨ s.lock = none)
    (hnr : s.limited = false → p'.nr ≤ 0)
    (hstuck : s.ready = true → StuckAt p' (s.cond x) (s'.lastCond x) → StuckAt p (s.cond x) (s.lastCond x))
    (hahead : s.ready = true → ∀ t, t ≠ x → StuckIn s t → Owed s t → p.ahead t → p'.ahead t) :
    WokenInv s' := by
  have hself : s'.pc x = p' := by rw [hm.pc, Function.update_self]
  have hother : ∀ {u}, u ≠ x → s'.pc u = s.pc u := fun hu => by rw [hm.pc, Function.update_of_ne hu]
  refine ⟨hentry, fun t ht => ?_, fun t ht => ?_, fun u w e n l hu hw => ?_, fun hl u => ?_,
    fun hready t ht howed => ?_⟩
  · by_cases htx : t = x
    · subst htx
      rw [hm.cond]
      exact hfits ht
    · rw [hm.cond, hm.lastCond t htx]
      exact h.fits t (hm.task t htx ht)
  · by_cases htx : t = x
    · subst htx
      rw [hself, hm.cond]
      exact hseen ht
    · rw [hother htx, hm.cond, hm.lastCond t htx]
      exact h.seen t (hm.task t htx ht)
  · have hwu : w ≠ u := hentry.visit_ne hu
    rw [hm.cond]
    by_cases hux : u = x
    · subst hux
      rw [hself] at hu
      rw [hother hwu] at hw
      rw [hm.lastCond w hwu]
      exact hsig w e n l hu hw
    · rw [hother hux] at hu
      by_cases hwx : w = x
      · subst hwx
        rw [hself] at hw
        rcases hqueued hw with ⟨hq, hlast⟩ | hfree
        · rw [hlast]
          exact h.signalled u w e n l hu (by rw [hp]; exact hq)
        · have hno := h.entry.free hfree u
          rw [hu] at hno
          cases hno
      · rw [hother hwx] at hw
        rw [hm.lastCond w hwx]
        exact h.signalled u w e n l hu hw
  · rw [hm.limited] at hl
    by_cases hux : u = x
    · subst hux
      rw [hself]
      exact hnr hl
    · rw [hother hux]
      exact h.counted hl u
  · rw [hm.ready] at hready
    have howed' : Owed s t := by
      rw [Owed, hm.excl, hm.limited] at howed
      exact howed
    have hold : StuckIn s t := by
      by_cases htx : t = x
      · subst htx
        rw [StuckIn, hself, hm.cond] at ht
        rw [StuckIn, hp]
        exact hstuck hready ht
      · rw [StuckIn, hother htx, hm.cond, hm.lastCond t htx] at ht
        exact ht
    obtain ⟨u, hu⟩ := h.served hready t hold howed'
    refine ⟨u, ?_⟩
    by_cases hux : u = x
    · subst hux
      have htu : t ≠ u := by
        rintro rfl
        rw [StuckIn, hp] at hold
        rw [hp] at hu
        cases p <;> first | exact hu.elim | exact Bool.noConfusion hold.1
      rw [hself]
      rw [hp] at hu
      exact hahead hready t htu hold howed' hu
    · rw [hother hux]
      exact hu

theorem WokenInv.onward (h : WokenInv s) (hentry : EntryInv (s.goto x p')) (hp : s.pc x = p)
    (hin : p.inEvent = true) (hnr : p'.nr = 0) (hsig : p'.inEvent = true ∨ p' = .idle)
    (hq : p'.queued = true → p.queued = true)
    (hseen : x ∈ s.taskList → SeenWord (s.cond x) (s.lastCond x) p')
    (hstuck : s.ready = true → StuckAt p' (s.cond x) (s.lastCond x) →
      StuckAt p (s.cond x) (s.lastCond x)) : WokenInv (s.goto x p') := by
  refine h.move hentry wordMoves_goto hp (h.fits x) hseen (fun w e n l heq _ => ?_)
    (fun hyes => .inl ⟨hq hyes, rfl⟩) (fun _ => hnr.le) hstuck fun _ t _ _ _ hahead => ?_
  · rw [heq] at hsig
    rcases hsig with hsig | hsig <;> cases hsig
  · cases p <;> first | exact hahead.elim | exact Bool.noConfusion hin

theorem WokenInv.stride (h : WokenInv s) (hentry : EntryInv s') (hm : WordMoves s s' x p')
    (hp : s.pc x = p) (hin' : p'.inEvent = false)
    (hsig : ∀ w e n l, p' = .visit .futexWake w e n l → (s.pc w).queued = true → s.lastCond w < s.cond w)
    (hnr : s.limited = false → p'.nr ≤ 0)
    (hahead : s.ready = true → ∀ t, t ≠ x → StuckIn s t → Owed s t → p.ahead t → p'.ahead t) :
    WokenInv s' := by
  have hout : x ∉ s'.taskList := fun hmem => by
    have hyes := (hentry.linked x hmem).1
    rw [hm.pc, Function.update_self, hin'] at hyes
    cases hyes
  refine h.move hentry hm hp (fun hmem => absurd hmem hout) (fun hmem => absurd hmem hout) hsig
    (fun hq => ?_) hnr (fun _ hst => ?_) hahead
  · cases p' <;> first | exact Bool.noConfusion hq | exact Bool.noConfusion hin'
  · cases p' <;> first | exact Bool.noConfusion hst.1 | exact Bool.noConfusion hin'

omit [DecidableEq T] in
theorem StuckIn.listed (ht : StuckIn s t) (h : EntryInv s) : t ∈ s.taskList :=
  h.queued t (queued_of_sleeping ht.1)

/-! ## The steps of a caller, with the counters -/

theorem WokenInv.enqueue (h : WokenInv s) (hp : s.pc x = .enqueue) (hfree : s.lock = none) :
    WokenInv ({ s.prepare x with lock := some x }.goto x .enqueued) := by
  have hm : WordMoves s ({ s.prepare x with lock := some x }.goto x .enqueued) x .enqueued := by
    by_cases hself : s.nextSelf x = true
    · have hnew : s.prepare x = _ := if_pos hself
      rw [hnew]
      refine ⟨rfl, rfl, rfl, rfl, rfl, fun u hu => Function.update_of_ne hu .., fun u hu hmem => ?_⟩
      have hmem' : u ∈ (if s.excl x = true then s.taskList ++ [x] else x :: s.taskList) := hmem
      split at hmem'
      · exact (List.mem_append.mp hmem').resolve_right fun hx => hu (List.mem_singleton.mp hx)
      · exact (List.mem_cons.mp hmem').resolve_left hu
    · have hsame : s.prepare x = s := if_neg hself
      rw [hsame]
      exact ⟨rfl, rfl, rfl, rfl, rfl, fun _ _ => rfl, fun _ _ hmem => hmem⟩
  refine h.move (h.entry.enqueue hp hfree) hm hp (fun hmem => ?_) (fun _ => trivial)
    (fun _ _ _ _ heq => by cases heq) (fun _ => .inr hfree)
    (fun _ => le_refl 0) (fun _ hst => Bool.noConfusion hst.1) fun _ _ _ _ _ hahead => hahead.elim
  by_cases hself : s.nextSelf x = true
  · have hlast : ({ s.prepare x with lock := some x }.goto x .enqueued).lastCond x = s.cond x := by
      have hnew : s.prepare x = _ := if_pos hself
      rw [hnew]
      exact Function.update_self ..
    rw [hlast]
    exact ⟨le_refl _, by omega⟩
  · have hsame : s.prepare x = s := if_neg hself
    rw [hsame] at hmem ⊢
    exact h.fits x hmem

theorem WokenInv.test (h : WokenInv s) (hp : s.pc x = .test)
    (hentry : EntryInv (s.goto x (if s.ready = true then .finish else .readValue))) :
    WokenInv (s.goto x (if s.ready = true then .finish else .readValue)) := by
  split at hentry
  · rename_i hready
    rw [if_pos hready]
    exact h.onward hentry hp rfl rfl (.inl rfl) (fun hq => Bool.noConfusion hq)
      (fun _ => trivial) fun _ hst => Bool.noConfusion hst.1
  · rename_i hready
    rw [if_neg hready]
    exact h.onward hentry hp rfl rfl (.inl rfl) (fun _ => rfl) (fun _ => trivial) fun hyes =>
      absurd hyes hready

theorem WokenInv.readValue (h : WokenInv s) (hp : s.pc x = .readValue)
    (hentry : EntryInv
      (s.goto x (if sameCond (s.cond x) (s.lastCond x) = true then .futex (s.cond x) (s.lastCond x)
      else .woke))) :
    WokenInv (s.goto x (if sameCond (s.cond x) (s.lastCond x) = true then
      .futex (s.cond x) (s.lastCond x) else .woke)) := by
  obtain ⟨hle, hlt⟩ := h.fits x (h.entry.queued x (by rw [hp]; rfl))
  split at hentry
  · rename_i hsame
    rw [if_pos hsame]
    have heq := (sameCond_of_fits hle hlt).mp hsame
    exact h.onward hentry hp rfl rfl (.inl rfl) (fun _ => rfl) (fun _ => ⟨heq, rfl⟩) fun _ _ =>
      ⟨rfl, .inl heq⟩
  · rename_i hdiffer
    rw [if_neg hdiffer]
    exact h.onward hentry hp rfl rfl (.inl rfl) (fun hq => Bool.noConfusion hq)
      (fun _ => trivial) fun _ hst => Bool.noConfusion hst.1

theorem WokenInv.futex {c l : ℕ} (h : WokenInv s) (hp : s.pc x = .futex c l)
    (hentry : EntryInv
      (s.goto x (if sameCond (s.cond x) c = true ∧ sameCond (s.lastCond x) l = true then .asleep c l
      else .woke))) :
    WokenInv (s.goto x (if sameCond (s.cond x) c = true ∧ sameCond (s.lastCond x) l = true then
      .asleep c l else .woke)) := by
  have hlisted := h.entry.queued x (by rw [hp]; rfl)
  obtain ⟨hle, hlt⟩ := h.fits x hlisted
  have hseen := h.seen x hlisted
  rw [hp] at hseen
  split at hentry
  · rename_i hsame
    rw [if_pos hsame]
    have heq := (sameCond_of_fits hle hlt).mp (hseen.1 ▸ hsame.1)
    exact h.onward hentry hp rfl rfl (.inl rfl) (fun _ => rfl) (fun _ => hseen) fun _ _ => ⟨rfl, .inl heq⟩
  · rename_i hdiffer
    rw [if_neg hdiffer]
    exact h.onward hentry hp rfl rfl (.inl rfl) (fun hq => Bool.noConfusion hq)
      (fun _ => trivial) fun _ hst => Bool.noConfusion hst.1

theorem WokenInv.latch {c : ℕ} (h : WokenInv s) (hp : s.pc x = .latch c)
    (hentry : EntryInv ({ s with lastCond := Function.update s.lastCond x c }.goto x .retest)) :
    WokenInv ({ s with lastCond := Function.update s.lastCond x c }.goto x .retest) := by
  have hm : WordMoves s ({ s with lastCond := Function.update s.lastCond x c }.goto x .retest) x .retest :=
    ⟨rfl, rfl, rfl, rfl, rfl, fun u hu => Function.update_of_ne hu .., fun _ _ hmem => hmem⟩
  have hlast : ({ s with lastCond := Function.update s.lastCond x c }.goto x .retest).lastCond x =
      c := Function.update_self ..
  refine h.move hentry hm hp (fun hmem => ?_) (fun _ => trivial) (fun _ _ _ _ heq => by cases heq)
    (fun hq => Bool.noConfusion hq)
    (fun _ => le_refl 0) (fun _ hst => Bool.noConfusion hst.1) fun _ _ _ _ _ hahead => hahead.elim
  have hfits := h.fits x hmem
  have hseen := h.seen x hmem
  rw [hp] at hseen
  obtain ⟨hle, hle'⟩ := hseen
  rw [hlast]
  omega

theorem WokenInv.rouse {c l : ℕ} (h : WokenInv s) (hp : s.pc x = .asleep c l) : WokenInv (s.goto x .woke) :=
  h.onward (h.entry.rouse hp) hp rfl rfl (.inl rfl) (fun hq => Bool.noConfusion hq)
    (fun _ => trivial) fun _ hst => Bool.noConfusion hst.1

theorem WokenInv.interrupt {c l : ℕ} (h : WokenInv s) (hp : s.pc x = .asleep c l)
    (hentry : EntryInv (s.goto x (.futex c l))) :
    WokenInv (s.goto x (.futex c l)) := by
  have hseen := h.seen x (h.entry.queued x (by rw [hp]; rfl))
  rw [hp] at hseen
  exact h.onward hentry hp rfl rfl (.inl rfl) (fun _ => rfl) (fun _ => hseen) fun _ _ => ⟨rfl, .inr rfl⟩

/-! ## The steps of a waker, with the counters -/

theorem WokenInv.wakeLock (h : WokenInv s) (hp : s.pc x = .wakeLock nr) (hfree : s.lock = none) :
    WokenInv ({ s with lock := some x }.goto x (.walk nr s.taskList)) := by
  refine h.stride (h.entry.wakeLock hp hfree) ⟨rfl, rfl, rfl, rfl, rfl, fun _ _ => rfl,
    fun _ _ hmem => hmem⟩ hp rfl
    (fun _ _ _ _ heq => by cases heq) (fun hl => ?_) fun _ t _ ht _ _ => ht.listed h.entry
  have hcount := h.counted hl x
  rwa [hp] at hcount

theorem WokenInv.signal (h : WokenInv s) (hfit : s.cond w + 1 < s.lastCond w + 2 ^ 16) :
    WokenInv { s with cond := Function.update s.cond w (s.cond w + 1) } := by
  have hcond : ∀ u, s.cond u ≤ Function.update s.cond w (s.cond w + 1) u := by
    intro u
    by_cases hu : u = w
    · subst hu
      rw [Function.update_self]
      exact Nat.le_succ _
    · rw [Function.update_of_ne hu]
  have hentry := h.entry
  refine ⟨⟨hentry.lock, hentry.nodup, hentry.order, hentry.linked, hentry.unlinked, hentry.queued,
    hentry.finish, hentry.visits⟩,
    fun t ht => ⟨(h.fits t ht).1.trans (hcond t), ?_⟩, fun t ht => ?_, fun u v e n l hu hv =>
    (h.signalled u v e n l hu hv).trans_le (hcond v),
    h.counted, fun hready t ht howed => h.served hready t ⟨ht.1, ?_⟩ howed⟩
  · by_cases htw : t = w
    · subst htw
      simpa using hfit
    · simpa [htw] using (h.fits t ht).2
  · have hseen := h.seen t ht
    cases hpt : s.pc t with
    | latch c =>
      rw [hpt] at hseen
      exact ⟨hseen.1, hseen.2.trans (hcond t)⟩
    | _ =>
      rw [hpt] at hseen
      exact hseen
  · refine ht.2.imp_left fun heq => ?_
    have hle := (h.fits t (hentry.queued t (queued_of_sleeping ht.1))).1
    have heq' : Function.update s.cond w (s.cond w + 1) t = s.lastCond t := heq
    have hmono := hcond t
    omega

omit [DecidableEq T] in
theorem WokenInv.nr_le (h : WokenInv s) (hp : s.pc x = p) (hl : s.limited = false) : p.nr ≤ 0 :=
  hp ▸ h.counted hl x

theorem WokenInv.xadd (h : WokenInv s) (hp : s.pc x = .visit .xadd w excl nr rest)
    (hfit : s.cond w + 1 < s.lastCond w + 2 ^ 16)
    (hentry : EntryInv
      ({ s with cond := Function.update s.cond w (s.cond w + 1) }.goto x
      (.visit .futexWake w excl nr rest))) :
    WokenInv ({ s with cond := Function.update s.cond w (s.cond w + 1) }.goto x
      (.visit .futexWake w excl nr rest)) := by
  refine (h.signal hfit).stride (p := .visit .xadd w excl nr rest) hentry wordMoves_goto
    hp rfl (fun v e n l heq hv => ?_)
    (fun hl => show nr ≤ 0 from h.nr_le hp hl)
    fun _ _ _ _ _ hahead => hahead
  cases heq
  show s.lastCond w < Function.update s.cond w (s.cond w + 1) w
  rw [Function.update_self]
  exact Nat.lt_succ_of_le (h.fits w (h.entry.queued w hv)).1

omit [DecidableEq T] in
theorem WokenInv.goesOn (h : WokenInv s) {stage : WakeStage}
    (hp : s.pc x = .visit stage w excl nr rest) (ht : t ∈ rest) (howed : Owed s t) :
    ¬(excl = true ∧ nr = 1) := by
  rintro ⟨he, hn⟩
  rcases howed with hno | hl
  · rw [(h.entry.visit_of_pc hp).2.1 he t ht] at hno
    cases hno
  · have hle : nr ≤ 0 := h.nr_le hp hl
    omega

theorem WokenInv.wakeSleeper {c l : ℕ} (h : WokenInv s)
    (hp : s.pc x = .visit .futexWake w excl nr rest) (hw : s.pc w = .asleep c l) :
    WokenInv ((s.goto w .woke).goto x (.visit .unlink w excl nr rest)) := by
  have hwx := h.entry.visit_ne hp
  have hp' : (s.goto w .woke).pc x = .visit .futexWake w excl nr rest :=
    (Function.update_of_ne hwx.symm ..).trans hp
  refine (h.rouse hw).stride (h.entry.wakeSleeper hp hw) wordMoves_goto
    hp' rfl (fun _ _ _ _ heq => by cases heq)
    (fun hl => show nr ≤ 0 from h.nr_le hp hl)
    fun _ t _ ht howed hahead => ?_
  have htw : t ≠ w := by
    rintro rfl
    have hsleeps := ht.1
    rw [show (s.goto t .woke).pc t = .woke from Function.update_self ..] at hsleeps
    cases hsleeps
  have hrest := hahead.resolve_left htw
  exact ⟨hrest, h.goesOn hp hrest howed⟩

theorem WokenInv.wakeAwake (h : WokenInv s) (hp : s.pc x = .visit .futexWake w excl nr rest)
    (hw : ∀ c l, s.pc w ≠ .asleep c l)
    (hentry : EntryInv (s.goto x (.walk nr rest))) : WokenInv (s.goto x (.walk nr rest)) := by
  refine h.stride hentry wordMoves_goto hp rfl (fun _ _ _ _ heq => by cases heq)
    (fun hl => show nr ≤ 0 from h.nr_le hp hl) fun _ t _ ht _ hahead => hahead.resolve_left ?_
  rintro rfl
  have hlt := h.signalled x t excl nr rest hp (queued_of_sleeping ht.1)
  rcases ht.2 with heq | hasleep
  · omega
  · cases hpt : s.pc t with
    | asleep c l => exact hw c l hpt
    | _ =>
      rw [hpt] at hasleep
      cases hasleep

theorem WokenInv.initPrev (h : WokenInv s) (hp : s.pc x = .visit .initPrev w excl nr rest) :
    WokenInv ({ s with prevSelf := Function.update s.prevSelf w true }.goto x (afterWake excl nr rest)) := by
  have hm : WordMoves s
      ({ s with prevSelf := Function.update s.prevSelf w true }.goto x (afterWake excl nr rest)) x
      (afterWake excl nr rest) :=
    ⟨rfl, rfl, rfl, rfl, rfl, fun _ _ => rfl, fun _ _ hmem => hmem⟩
  rcases afterWake_cases excl nr rest with ⟨he, hone, heq⟩ | ⟨n, heq, hle, -⟩
  · refine h.stride (h.entry.initPrev hp) hm hp (by rw [heq]; rfl)
      (fun _ _ _ _ heq' => by rw [heq] at heq'; cases heq')
      (fun _ => by rw [heq]; exact le_refl 0) fun _ t _ _ _ hahead => absurd ⟨he, hone⟩ hahead.2
  · refine h.stride (h.entry.initPrev hp) hm hp (by rw [heq]; rfl)
      (fun _ _ _ _ heq' => by rw [heq] at heq'; cases heq') (fun hl => ?_)
      fun _ t _ _ _ hahead => by rw [heq]; exact hahead.1
    rw [heq]
    exact hle.trans (h.nr_le hp hl)

/-! ## All steps -/

theorem waitEventNext_woken (h : WokenInv s) (hp : s.pc x = p)
    (hfit : ∀ w ∈ p.signals, s.cond w + 1 < s.lastCond w + 2 ^ 16) :
    ∀ s', waitEventNext s x p = some s' → WokenInv s' := by
  intro s' hstep
  have hentry := waitEventNext_entry h.entry hp s' hstep
  cases p with
  | enqueue =>
    obtain ⟨hfree, heq⟩ := Option.ite_none_right_eq_some.mp hstep
    obtain rfl := Option.some.inj heq
    exact h.enqueue hp hfree
  | enqueued =>
    cases hstep
    exact h.move hentry ⟨rfl, rfl, rfl, rfl, rfl, fun _ _ => rfl, fun _ _ hmem => hmem⟩ hp
      (h.fits x) (fun _ => trivial)
      (fun _ _ _ _ heq => by cases heq) (fun _ => .inl ⟨rfl, rfl⟩) (fun _ => le_refl 0)
        (fun _ hst => Bool.noConfusion hst.1)
      fun _ _ _ _ _ hahead => hahead.elim
  | test =>
    cases hstep
    exact h.test hp hentry
  | readValue =>
    cases hstep
    exact h.readValue hp hentry
  | futex c l =>
    cases hstep
    exact h.futex hp hentry
  | woke =>
    cases hstep
    exact h.onward hentry hp rfl rfl (.inl rfl) (fun hq => Bool.noConfusion hq)
      (fun hx => ⟨(h.fits x hx).1, le_refl _⟩)
      fun _ hst => Bool.noConfusion hst.1
  | latch c =>
    cases hstep
    exact h.latch hp hentry
  | retest =>
    cases hstep
    split at hentry
    · rename_i hready
      rw [if_pos hready]
      exact h.onward hentry hp rfl rfl (.inl rfl) (fun hq => Bool.noConfusion hq)
        (fun _ => trivial) fun _ hst => Bool.noConfusion hst.1
    · rename_i hready
      rw [if_neg hready]
      exact h.onward hentry hp rfl rfl (.inl rfl) (fun hq => Bool.noConfusion hq)
        (fun _ => trivial) fun _ hst => Bool.noConfusion hst.1
  | finish =>
    cases hstep
    split at hentry
    · rename_i hself
      rw [if_pos hself]
      exact h.onward hentry hp rfl rfl (.inl rfl) (fun hq => Bool.noConfusion hq)
        (fun _ => trivial) fun _ hst => Bool.noConfusion hst.1
    · rename_i hself
      rw [if_neg hself]
      exact h.onward hentry hp rfl rfl (.inl rfl) (fun hq => Bool.noConfusion hq)
        (fun _ => trivial) fun _ hst => Bool.noConfusion hst.1
  | finishPrev =>
    cases hstep
    split at hentry
    · rename_i hself
      rw [if_pos hself]
      exact h.onward hentry hp rfl rfl (.inr rfl) (fun hq => Bool.noConfusion hq)
        (fun _ => trivial) fun _ hst => Bool.noConfusion hst.1
    · rename_i hself
      rw [if_neg hself]
      exact h.onward hentry hp rfl rfl (.inl rfl) (fun hq => Bool.noConfusion hq)
        (fun _ => trivial) fun _ hst => Bool.noConfusion hst.1
  | finishLock =>
    obtain ⟨hfree, heq⟩ := Option.ite_none_right_eq_some.mp hstep
    obtain rfl := Option.some.inj heq
    exact h.stride hentry ⟨rfl, rfl, rfl, rfl, rfl, fun _ _ => rfl,
      fun _ _ hmem => List.mem_of_mem_erase hmem⟩ hp rfl
      (fun _ _ _ _ heq' => by cases heq') (fun _ => le_refl 0) fun _ _ _ _ _ hahead => hahead.elim
  | finishUnlock =>
    cases hstep
    exact h.stride hentry ⟨rfl, rfl, rfl, rfl, rfl, fun _ _ => rfl, fun _ _ hmem => hmem⟩
      hp rfl (fun _ _ _ _ heq => by cases heq)
      (fun _ => le_refl 0) fun _ _ _ _ _ hahead => hahead.elim
  | wakeLock nr =>
    obtain ⟨hfree, heq⟩ := Option.ite_none_right_eq_some.mp hstep
    obtain rfl := Option.some.inj heq
    exact h.wakeLock hp hfree
  | walk nr rest =>
    cases rest with
    | nil =>
      cases hstep
      exact h.stride hentry wordMoves_goto hp rfl (fun _ _ _ _ heq => by cases heq) (fun _ => le_refl 0)
        fun _ _ _ _ _ hahead => absurd hahead List.not_mem_nil
    | cons w rest =>
      cases hstep
      exact h.stride hentry wordMoves_goto hp rfl (fun _ _ _ _ heq => by cases heq)
        (fun hl => show nr ≤ 0 from h.nr_le hp hl)
        fun _ _ _ _ _ hahead => List.mem_cons.mp hahead
  | visit stage w excl nr rest =>
    cases stage with
    | xadd =>
      cases hstep
      exact h.xadd hp (hfit w rfl) hentry
    | futexWake =>
      rw [waitEventNext] at hstep
      split at hstep
      · rename_i c l hw
        cases hstep
        exact h.wakeSleeper hp hw
      · rename_i hw
        cases hstep
        exact h.wakeAwake hp hw hentry
    | unlink =>
      cases hstep
      exact h.stride hentry ⟨rfl, rfl, rfl, rfl, rfl, fun _ _ => rfl,
        fun _ _ hmem => List.mem_of_mem_erase hmem⟩ hp rfl
        (fun _ _ _ _ heq => by cases heq) (fun hl => show nr ≤ 0
          from h.nr_le hp hl) fun _ _ _ _ _ hahead => hahead
    | initNext =>
      cases hstep
      exact h.stride hentry ⟨rfl, rfl, rfl, rfl, rfl, fun _ _ => rfl, fun _ _ hmem => hmem⟩ hp rfl
        (fun _ _ _ _ heq => by cases heq) (fun hl => show nr ≤ 0
          from h.nr_le hp hl) fun _ _ _ _ _ hahead => hahead
    | initPrev =>
      cases hstep
      exact h.initPrev hp
  | wakeUnlock =>
    cases hstep
    exact h.stride hentry ⟨rfl, rfl, rfl, rfl, rfl, fun _ _ => rfl, fun _ _ hmem => hmem⟩
      hp rfl (fun _ _ _ _ heq => by cases heq)
      (fun _ => le_refl 0) fun _ _ _ _ _ hahead => hahead.elim
  | idle => cases hstep
  | asleep c l => cases hstep

theorem WokenInv.call (h : WokenInv s) (hp : s.pc x = .idle) (e : Bool) :
    WokenInv ((s.define x e).goto x .enqueue) := by
  have hpc : ∀ {u}, u ≠ x → ((s.define x e).goto x .enqueue).pc u = s.pc u :=
    fun hu => Function.update_of_ne hu ..
  have hself : ((s.define x e).goto x .enqueue).pc x = .enqueue := Function.update_self ..
  have hcond : ∀ {u}, u ≠ x → ((s.define x e).goto x .enqueue).cond u = s.cond u :=
    fun hu => Function.update_of_ne hu ..
  have hlast : ∀ {u}, u ≠ x → ((s.define x e).goto x .enqueue).lastCond u = s.lastCond u :=
    fun hu => Function.update_of_ne hu ..
  have hlisted : ∀ {t}, t ∈ s.taskList → t ≠ x := by
    rintro t ht rfl
    have hin := (h.entry.linked t ht).1
    rw [hp] at hin
    cases hin
  refine ⟨h.entry.call hp e, fun t ht => ?_, fun t ht => ?_, fun u w e' n l hu hw => ?_,
    fun hl u => ?_, fun hready t ht howed => ?_⟩
  · rw [hcond (hlisted ht), hlast (hlisted ht)]
    exact h.fits t ht
  · rw [hpc (hlisted ht), hcond (hlisted ht), hlast (hlisted ht)]
    exact h.seen t ht
  · have hux : u ≠ x := by
      rintro rfl
      rw [hself] at hu
      cases hu
    have hwx : w ≠ x := by
      rintro rfl
      rw [hself] at hw
      cases hw
    rw [hpc hux] at hu
    rw [hpc hwx] at hw
    rw [hcond hwx, hlast hwx]
    exact h.signalled u w e' n l hu hw
  · by_cases hux : u = x
    · subst hux
      rw [hself]
      exact le_refl 0
    · rw [hpc hux]
      exact h.counted hl u
  · have htx : t ≠ x := by
      rintro rfl
      have hsleeps := ht.1
      rw [hself] at hsleeps
      cases hsleeps
    rw [StuckIn, hpc htx, hcond htx, hlast htx] at ht
    have howed' : Owed s t := howed.imp_left fun hno => (Function.update_of_ne htx e s.excl).symm.trans hno
    obtain ⟨u, hu⟩ := h.served hready t ht howed'
    refine ⟨u, ?_⟩
    rw [hpc]
    · exact hu
    · rintro rfl
      rw [hp] at hu
      exact hu

theorem WokenInv.wake {ready : Bool} (h : WokenInv s) (hp : s.pc x = .idle) (nr : ℤ) :
    WokenInv ({ s with ready := ready }.wake x nr) := by
  have hpc : ∀ {u}, u ≠ x → ({ s with ready := ready }.wake x nr).pc u = s.pc u :=
    fun hu => Function.update_of_ne hu ..
  have hself : ({ s with ready := ready }.wake x nr).pc x = .wakeLock nr := Function.update_self ..
  have hentry : EntryInv ({ s with ready := ready }.wake x nr) := h.entry.wake hp nr
  refine ⟨hentry, h.fits, fun t ht => ?_, fun u w e n l hu hw => ?_, fun hl u => ?_,
    fun _ t _ _ => ⟨x, by rw [hself]; trivial⟩⟩
  · have htx : t ≠ x := by
      rintro rfl
      have hin := (h.entry.linked t ht).1
      rw [hp] at hin
      cases hin
    rw [hpc htx]
    exact h.seen t ht
  · have hux : u ≠ x := by
      rintro rfl
      rw [hself] at hu
      cases hu
    have hwx : w ≠ x := by
      rintro rfl
      rw [hself] at hw
      cases hw
    rw [hpc hux] at hu
    rw [hpc hwx] at hw
    exact h.signalled u w e n l hu hw
  · have hl' : (s.limited || decide (0 < nr)) = false := hl
    rw [Bool.or_eq_false_iff, decide_eq_false_iff_not] at hl'
    by_cases hux : u = x
    · subst hux
      rw [hself]
      exact Int.not_lt.mp hl'.2
    · rw [hpc hux]
      exact h.counted hl'.1 u

theorem WokenInv.step (h : WokenInv s) (a : WaitEventAct T) (hfit : EventSignalsFit s a) :
    ∀ s', waitEventStep s a = some s' → WokenInv s' := by
  intro s' hstep
  have hentry := h.entry.step a s' hstep
  cases a with
  | waitEvent t =>
    obtain ⟨hp, heq⟩ := Option.ite_none_right_eq_some.mp hstep
    obtain rfl := Option.some.inj heq
    split
    · exact h
    · exact h.call hp false
  | waitEventMode t e =>
    obtain ⟨hp, heq⟩ := Option.ite_none_right_eq_some.mp hstep
    obtain rfl := Option.some.inj heq
    exact h.call hp e
  | setReady t nr =>
    obtain ⟨hp, heq⟩ := Option.ite_none_right_eq_some.mp hstep
    obtain rfl := Option.some.inj heq
    exact h.wake hp nr
  | clearReady =>
    cases hstep
    exact ⟨hentry, h.fits, h.seen, h.signalled, h.counted, fun hready => Bool.noConfusion hready⟩
  | wakeUp t nr =>
    obtain ⟨hp, heq⟩ := Option.ite_none_right_eq_some.mp hstep
    obtain rfl := Option.some.inj heq
    exact h.wake hp nr
  | step t => exact waitEventNext_woken h rfl hfit s' hstep
  | interrupt t =>
    cases hp : s.pc t with
    | asleep c l =>
      simp only [waitEventStep, hp] at hstep
      cases hstep
      exact h.interrupt hp hentry
    | _ => simp [waitEventStep, hp] at hstep
  | spurious t =>
    cases hp : s.pc t with
    | asleep c l =>
      simp only [waitEventStep, hp] at hstep
      cases hstep
      exact h.rouse hp
    | _ => simp [waitEventStep, hp] at hstep

omit [DecidableEq T] in
theorem wokenInv_init (ready : Bool) : WokenInv (waitEventInit ready : WaitEventState T) where
  entry := entryInv_init ready
  fits t ht := absurd ht List.not_mem_nil
  seen t ht := absurd ht List.not_mem_nil
  signalled u w e n l hu := by cases hu
  counted _ u := le_refl 0
  served _ t ht := Bool.noConfusion ht.1

/-- No waker touches an entry that is gone, in every run; nobody sleeps on while the condition
holds, in every run whose signals fit the counters. -/
theorem waitEvent_ok (ready : Bool) (as : List (WaitEventAct T)) (s : WaitEventState T)
    (hrun : runActs waitEventStep (waitEventInit ready) as = some s) :
    WaitEventAlive s ∧
      (RunMeets waitEventStep EventSignalsFit (waitEventInit ready) as → WaitEventAwake s) := by
  have hentry : EntryInv s :=
    run_invariant (fun s a s' h _ hstep => EntryInv.step h a s' hstep) as _ s (entryInv_init ready)
    (runMeets_trivial as _) hrun
  refine ⟨hentry.alive, fun hfit => ?_⟩
  have hwoken : WokenInv s :=
    run_invariant (fun s a s' h hgood hstep => WokenInv.step h a hgood s' hstep) as _ s
      (wokenInv_init ready) hfit hrun
  exact hwoken.awake

instance (s : WaitEventState T) : (a : WaitEventAct T) → Decidable (EventSignalsFit s a)
  | .step t => inferInstanceAs (Decidable (∀ w ∈ (s.pc t).signals, s.cond w + 1 < s.lastCond w + 2 ^ 16))
  | .waitEvent _ => inferInstanceAs (Decidable True)
  | .waitEventMode _ _ => inferInstanceAs (Decidable True)
  | .setReady _ _ => inferInstanceAs (Decidable True)
  | .clearReady => inferInstanceAs (Decidable True)
  | .wakeUp _ _ => inferInstanceAs (Decidable True)
  | .interrupt _ => inferInstanceAs (Decidable True)
  | .spurious _ => inferInstanceAs (Decidable True)

/-- One caller goes to sleep in exclusive mode and one in the other; a third thread makes the
condition true and wakes one exclusive caller. -/
def twoModesRun : List (WaitEventAct ℕ) :=
  [.waitEventMode 1 true] ++ List.replicate 5 (.step 1) ++ [.waitEvent 2] ++
    List.replicate 5 (.step 2) ++ [.setReady 0 1] ++
    List.replicate 8 (.step 0)

theorem waitEvent_ok_twoModesRun :
    ∃ s, runActs waitEventStep (waitEventInit false) twoModesRun = some s ∧ s.pc 1 = .asleep 0 0 ∧
    s.pc 2 = .woke ∧ WaitEventAlive s ∧ WaitEventAwake s := by
  have hmeets :=
    runMeets_of_checks
      (show runChecks waitEventStep EventSignalsFit (waitEventInit false) twoModesRun =
      true by decide +kernel)
  have hfinal : (runActs waitEventStep (waitEventInit false) twoModesRun).map
      (fun s => (s.pc 1, s.pc 2)) = some (.asleep 0 0, .woke) := by
    decide +kernel
  obtain ⟨s, hs, hvalues⟩ := Option.map_eq_some_iff.mp hfinal
  obtain ⟨hone, htwo⟩ := Prod.mk.inj hvalues
  obtain ⟨halive, hawake⟩ := waitEvent_ok false twoModesRun s hs
  exact ⟨s, hs, hone, htwo, halive, hawake hmeets⟩

end Steps

end Skp.Process
