import Skp.Process.RcuLife

/-! # A callback is called once, when no slot links its head

Every step of the callers, the slots and the shutdown moves the heads it concerns to the next place
of their lives, and leaves the others. -/
namespace Skp.Process
set_option autoImplicit false
open Skp.Foundations

variable {H T : Type} [DecidableEq H] [DecidableEq T]

/-! ## The steps -/

section Steps
variable {cfg : RcuConfig} {s s' : RcuState H T} {g h : H} {x : ℕ}

omit [DecidableEq T] in
theorem view_congr (hgiven : s'.given g = s.given g) (hcalls : s'.calls g = s.calls g)
    (hrefs : s'.refcnt g = s.refcnt g)
    (hline : ∀ x, g ∈ line s' x ↔ g ∈ line s x)
    (hgiver : ∀ t, givePlace g (s'.giver t) = givePlace g (s.giver t))
    (hcalling : ∀ x, callingOf g (s'.pc x) = callingOf g (s.pc x)) : view s' g = view s g := by
  unfold view
  rw [hgiven, hcalls, hrefs, funext hgiver, funext hcalling]
  congr 1
  funext x
  exact decide_eq_decide.mpr (hline x)

omit [DecidableEq H] [DecidableEq T] in
theorem line_congr {y : ℕ} (hqueue : s'.queue y = s.queue y) (hbatch : s'.batch y = s.batch y)
    (hpc : s'.pc y = s.pc y) :
    line s' y = line s y := by
  unfold line
  rw [hqueue, hbatch, hpc]

theorem RcuInv.nowhere (hs : RcuInv cfg s) (hnew : s.given h = false) :
    (∀ x, h ∉ line s x) ∧ (∀ x, callingOf h (s.pc x) = false) ∧ ∀ t, givePlace h (s.giver t) = .away := by
  have hv := hs.life h
  have hlined : ∀ x, (view s h).lined x = decide (h ∈ line s x) := fun x => rfl
  have hcalling : ∀ x, (view s h).calling x = callingOf h (s.pc x) := fun x => rfl
  have hgiving : ∀ t, (view s h).giving t = givePlace h (s.giver t) := fun t => rfl
  change (view s h).given = false at hnew
  generalize view s h = v at hv hlined hcalling hgiving hnew
  cases hv with
  | fresh r =>
    exact ⟨fun x => of_decide_eq_false (hlined x).symm, fun x => (hcalling x).symm, fun t => (hgiving t).symm⟩
  | spread | waiting | due | out | called => cases hnew

omit [DecidableEq H] in
theorem DrainOk.congr {future future' : H → ℕ} {batch : List H} {pc : RcuPc H} (hd : DrainOk future batch pc)
    (hfuture : ∀ h ∈ batch, future' h = future h) : DrainOk future' batch pc := by
  cases pc with
  | idle => exact hd
  | back => exact hd
  | loop now left => exact ⟨hd.1, hd.2.1, fun h hh => (hfuture h hh).symm ▸ hd.2.2 h hh⟩
  | put f now left => exact ⟨hd.1, hd.2.1, fun h hh => (hfuture h hh).symm ▸ hd.2.2 h hh⟩
  | call f now left => exact ⟨hd.1, hd.2.1, fun h hh => (hfuture h hh).symm ▸ hd.2.2 h hh⟩

omit [DecidableEq H] in
theorem ClockOk.later {clock clock' : ℕ} {shutting shutting' drained : Bool} {future : H → ℕ} {pc : RcuPc H}
    (hc : ClockOk clock shutting drained future pc) (hclock : clock ≤ clock')
    (hshut : shutting' = false → shutting = false) : ClockOk clock' shutting' drained future pc := by
  cases pc with
  | idle | back => trivial
  | loop now left => exact fun hd => ⟨(hc hd).1.trans hclock, (hc hd).2⟩
  | put f now left | call f now left =>
    exact ⟨fun hd => ⟨(hc.1 hd).1.trans hclock, (hc.1 hd).2⟩, fun hs => (hc.2 (hshut hs)).trans hclock⟩

theorem ClockOk.congr {clock : ℕ} {shutting drained : Bool} {future future' : H → ℕ} {pc : RcuPc H}
    (hc : ClockOk clock shutting drained future pc) (hhand : ∀ h ∈ hand pc, future' h = future h)
    (hcalling : ∀ h, callingOf h pc = true → future' h = future h) :
    ClockOk clock shutting drained future' pc := by
  cases pc with
  | idle | back => trivial
  | loop now left => exact hc
  | put f now left =>
    refine ⟨hc.1, fun hs => ?_⟩
    rw [hhand f List.mem_cons_self]
    exact hc.2 hs
  | call f now left =>
    refine ⟨hc.1, fun hs => ?_⟩
    rw [hcalling f (decide_eq_true rfl)]
    exact hc.2 hs

theorem uevTimerFuture_dvd (clock offset : ℕ) : 1000000 ∣ uevTimerFuture clock offset := Nat.dvd_mul_left _ _

/-- The two states differ in nothing but slot `x` and the place of the shutdown. -/
structure OffSlot (s s' : RcuState H T) (x : ℕ) : Prop where
  heads : s'.given = s.given ∧ s'.calls = s.calls ∧ s'.refcnt = s.refcnt ∧ s'.future = s.future ∧
    s'.early = s.early
  rest : s'.clock = s.clock ∧ s'.shutting = s.shutting ∧ s'.giver = s.giver
  other : ∀ y, y ≠ x → s'.queue y = s.queue y ∧ s'.batch y = s.batch y ∧ s'.pc y = s.pc y ∧
    s'.drained y = s.drained y ∧
    s'.running y = s.running y

theorem RcuInv.requeue (hs : RcuInv cfg s) (hoff : OffSlot s s' x) (hline : line s' x = line s x)
    (hcalling : ∀ g, callingOf g (s'.pc x) = callingOf g (s.pc x)) (hbeyond : cfg.slots ≤ x → s'.pc x = .idle)
    (hslot : SlotOk s'.clock s'.shutting s'.future (s'.drained x) (s'.running x) (s'.queue x)
      (s'.batch x) (s'.pc x)) :
    RcuInv cfg s' := by
  obtain ⟨hgiven, hcalls, hrefs, hfuture, hearly⟩ := hoff.heads
  obtain ⟨hclock, hshut, hgiver⟩ := hoff.rest
  refine ⟨fun g => ?_, fun y => ?_, fun y hy => ?_, fun t h ht => ?_, fun g => ?_, fun g => ?_⟩
  · rw [view_congr (congrFun hgiven g) (congrFun hcalls g) (congrFun hrefs g) (fun y => ?_)
      (fun t => by rw [hgiver])
      (fun y => ?_)]
    · exact hs.life g
    · by_cases hy : y = x
      · rw [hy, hline]
      · obtain ⟨hq, hb, hpc, -⟩ := hoff.other y hy
        rw [line_congr hq hb hpc]
    · by_cases hy : y = x
      · rw [hy, hcalling]
      · rw [(hoff.other y hy).2.2.1]
  · by_cases hy : y = x
    · rw [hy]
      exact hslot
    · obtain ⟨hq, hb, hpc, hd, hr⟩ := hoff.other y hy
      rw [hclock, hshut, hfuture, hd, hr, hq, hb, hpc]
      exact hs.slot y
  · by_cases hyx : y = x
    · rw [hyx] at hy ⊢
      exact hbeyond hy
    · rw [(hoff.other y hyx).2.2.1]
      exact hs.beyond y hy
  · rw [hgiver] at ht
    rw [hshut, hfuture, hclock]
    exact hs.out t h ht
  · rw [hfuture]
    exact hs.whole g
  · rw [hearly]
    exact hs.early g

omit [DecidableEq H] [DecidableEq T] in
theorem takeQueue_off (s : RcuState H T) (x now left : ℕ) : OffSlot s (takeQueue s x now left) x :=
  ⟨⟨rfl, rfl, rfl, rfl, rfl⟩, ⟨rfl, rfl, rfl⟩, fun _ hy =>
    ⟨Function.update_of_ne hy _ _, Function.update_of_ne hy _ _, Function.update_of_ne hy _ _, rfl, rfl⟩⟩

theorem takeQueue_line (hs : RcuInv cfg s) (hidle : s.pc x = .idle) (now left : ℕ) :
    line (takeQueue s x now left) x = line s x ∧ line s x = s.queue x := by
  have hbatch := (hs.slot x).rest hidle
  unfold line takeQueue
  dsimp only
  rw [Function.update_self, Function.update_self, Function.update_self, hidle, hbatch]
  exact ⟨List.append_nil _, rfl⟩

theorem round_inv (hs : RcuInv cfg s) {ms : ℕ} (hstep : rcuStep cfg s (.round x ms) = some s') :
    RcuInv cfg s' := by
  rw [rcuStep] at hstep
  split at hstep
  · rename_i hcond
    obtain ⟨hx, hidle, hrun, hms, -⟩ := hcond
    cases hstep
    obtain ⟨hline, hqueue⟩ := takeQueue_line hs hidle (ms * 1000000) (cfg.nrCpus * 64)
    have hpc : (takeQueue s x (ms * 1000000) (cfg.nrCpus * 64)).pc x =
        .loop (ms * 1000000) (cfg.nrCpus * 64) :=
      Function.update_self _ _ _
    refine hs.requeue (takeQueue_off s x _ _) hline (fun g => ?_)
      (fun hge => absurd hx (not_lt.mpr hge)) ⟨?_, ?_, ?_, ?_⟩
    · rw [hpc, hidle]
      rfl
    · change (line (takeQueue s x (ms * 1000000) (cfg.nrCpus * 64)) x).Nodup
      rw [hline]
      exact (hs.slot x).nodup
    · rw [hpc]
      intro hne
      cases hne
    · intro hdrained
      have hstopped := ((hs.slot x).drain hdrained).2.1
      rw [hrun] at hstopped
      cases hstopped
    · rw [hpc]
      exact fun _ => ⟨hms, Nat.dvd_mul_left _ _⟩
  · cases hstep

theorem drain_inv (hs : RcuInv cfg s) (hgood : Careful s (.drain x))
    (hstep : rcuStep cfg s (.drain x) = some s') :
    RcuInv cfg s' := by
  obtain ⟨htimed, hlen⟩ := hgood
  rw [rcuStep] at hstep
  split at hstep
  · rename_i hcond
    obtain ⟨hshut, hx, -, hidle, hstopped, -⟩ := hcond
    have hbatch := (hs.slot x).rest hidle
    have hnodup := (hs.slot x).nodup
    dsimp only at hstep
    split at hstep
    · rename_i hempty
      cases hstep
      refine hs.requeue (x := x) ⟨⟨rfl, rfl, rfl, rfl, rfl⟩, ⟨rfl, rfl, rfl⟩,
        fun y hy => ?_⟩ rfl (fun _ => rfl)
        (fun _ => hidle) ⟨hnodup, (hs.slot x).rest, fun _ => ⟨hshut, hstopped, hempty, ?_⟩, ?_⟩
      · exact ⟨rfl, rfl, rfl, Function.update_of_ne hy _ _, rfl⟩
      · change DrainOk s.future (s.batch x) (s.pc x)
        rw [hidle]
        exact hbatch
      · change ClockOk _ _ _ _ (s.pc x)
        rw [hidle]
        trivial
    · cases hstep
      obtain ⟨hline, hqueue⟩ := takeQueue_line hs hidle 1 s32MaxCalls
      have hpc : (takeQueue s x 1 s32MaxCalls).pc x = .loop 1 s32MaxCalls := Function.update_self _ _ _
      have htaken : (takeQueue s x 1 s32MaxCalls).batch x = s.queue x := Function.update_self _ _ _
      refine hs.requeue (x := x) ⟨⟨rfl, rfl, rfl, rfl, rfl⟩, ⟨rfl, rfl, rfl⟩, fun y hy => ?_⟩
        hline (fun g => ?_)
        (fun hge => absurd hx (not_lt.mpr hge)) ⟨?_, ?_,
          fun _ => ⟨hshut, hstopped, Function.update_self _ _ _, ?_⟩, ?_⟩
      · obtain ⟨hq, hb, hp, -, hr⟩ := (takeQueue_off s x 1 s32MaxCalls).other y hy
        exact ⟨hq, hb, hp, Function.update_of_ne hy _ _, hr⟩
      · change callingOf g ((takeQueue s x 1 s32MaxCalls).pc x) = _
        rw [hpc, hidle]
        rfl
      · change (line (takeQueue s x 1 s32MaxCalls) x).Nodup
        rw [hline]
        exact hnodup
      · change (takeQueue s x 1 s32MaxCalls).pc x = .idle → _
        rw [hpc]
        intro hne
        cases hne
      · change DrainOk s.future ((takeQueue s x 1 s32MaxCalls).batch x) ((takeQueue s x 1 s32MaxCalls).pc x)
        rw [hpc, htaken]
        exact ⟨rfl, hlen, htimed⟩
      · change ClockOk s.clock s.shutting (Function.update s.drained x true x) s.future
          ((takeQueue s x 1 s32MaxCalls).pc x)
        rw [hpc, Function.update_self]
        intro hfalse
        cases hfalse
  · cases hstep

theorem stop_inv (hs : RcuInv cfg s) (hstep : rcuStep cfg s (.stop x) = some s') : RcuInv cfg s' := by
  rw [rcuStep] at hstep
  split at hstep
  · rename_i hcond
    cases hstep
    refine hs.requeue (x := x) ⟨⟨rfl, rfl, rfl, rfl, rfl⟩, ⟨rfl, rfl, rfl⟩, fun y hy => ?_⟩ rfl (fun _ => rfl)
      (hs.beyond x) ⟨(hs.slot x).nodup, (hs.slot x).rest, fun hdrained => ?_, (hs.slot x).clock⟩
    · exact ⟨rfl, rfl, rfl, rfl, Function.update_of_ne hy _ _⟩
    · obtain ⟨hshut, -, hqueue, hbatch⟩ := (hs.slot x).drain hdrained
      exact ⟨hshut, Function.update_self _ _ _, hqueue, hbatch⟩
  · cases hstep

theorem back_inv (hs : RcuInv cfg s) (hstep : rcuStep cfg s (.back x) = some s') : RcuInv cfg s' := by
  rw [rcuStep] at hstep
  split at hstep
  · rename_i hback
    cases hstep
    have hnodup := (hs.slot x).nodup
    have hline : line s x = s.batch x ++ s.queue x := by
      unfold line
      rw [hback]
      rfl
    change (line s x).Nodup at hnodup
    rw [hline] at hnodup
    refine hs.requeue (x := x) ⟨⟨rfl, rfl, rfl, rfl, rfl⟩, ⟨rfl, rfl, rfl⟩, fun y hy => ?_⟩ ?_ (fun g => ?_)
      (fun _ => Function.update_self _ _ _) ⟨?_, fun _ => Function.update_self _ _ _, fun hdrained => ?_, ?_⟩
    · exact ⟨Function.update_of_ne hy _ _, Function.update_of_ne hy _ _,
        Function.update_of_ne hy _ _, rfl, rfl⟩
    · rw [hline]
      unfold line
      dsimp only
      rw [Function.update_self, Function.update_self, Function.update_self]
      rfl
    · dsimp only
      rw [Function.update_self, hback]
      rfl
    · dsimp only
      rw [Function.update_self, Function.update_self, Function.update_self]
      exact hnodup
    · obtain ⟨hshut, hstopped, hqueue, hbatch⟩ := (hs.slot x).drain hdrained
      rw [hback] at hbatch
      dsimp only
      rw [Function.update_self, Function.update_self, Function.update_self, hqueue,
        show s.batch x = [] from hbatch]
      exact ⟨hshut, hstopped, rfl, rfl⟩
    · dsimp only
      rw [Function.update_self]
      trivial
  · cases hstep

theorem passed_of_timedout {future now : ℕ} (hf : 1000000 ∣ future) (hn : 1000000 ∣ now)
    (hnear : 2 ^ 32 ∣ (future - now) / 1000000 → (future - now) / 1000000 = 0)
    (htimed : rcuTimedout future now = 0) :
    future ≤ now := by
  by_contra hlt
  rw [rcuTimedout, if_pos (not_le.mp hlt)] at htimed
  have hzero := hnear (Nat.dvd_of_mod_eq_zero htimed)
  obtain ⟨f, rfl⟩ := hf
  obtain ⟨n, rfl⟩ := hn
  omega

theorem test_inv (hs : RcuInv cfg s) (hgood : Careful s (.test x))
    (hstep : rcuStep cfg s (.test x) = some s') :
    RcuInv cfg s' := by
  rw [rcuStep] at hstep
  rw [Careful] at hgood
  split at hstep
  · rename_i now left hloop
    rw [hloop] at hgood
    have hslot := hs.slot x
    rw [hloop] at hslot
    have hbelow : cfg.slots ≤ x → False := fun hge => by
      have hidle := hs.beyond x hge
      rw [hloop] at hidle
      cases hidle
    -- the loop ends: what is left of the batch goes back
    have hends : (s.drained x = true → s.batch x = []) →
        RcuInv cfg { s with pc := Function.update s.pc x .back } := by
      intro hempty
      refine hs.requeue (x := x) ⟨⟨rfl, rfl, rfl, rfl, rfl⟩, ⟨rfl, rfl, rfl⟩, fun y hy => ?_⟩ ?_ (fun g => ?_)
        (fun hge => (hbelow hge).elim) ⟨?_, ?_, fun hdrained => ?_, ?_⟩
      · exact ⟨rfl, rfl, Function.update_of_ne hy _ _, rfl, rfl⟩
      · unfold line
        dsimp only
        rw [Function.update_self, hloop]
        rfl
      · dsimp only
        rw [Function.update_self, hloop]
        rfl
      · dsimp only
        rw [Function.update_self]
        exact hslot.nodup
      · dsimp only
        rw [Function.update_self]
        intro hne
        cases hne
      · obtain ⟨hshut, hstopped, hqueue, -⟩ := hslot.drain hdrained
        dsimp only
        rw [Function.update_self]
        exact ⟨hshut, hstopped, hqueue, hempty hdrained⟩
      · dsimp only
        rw [Function.update_self]
        trivial
    split at hstep
    · rename_i hbatch
      cases hstep
      exact hends fun _ => hbatch
    · rename_i h rest hbatch
      have hmem : h ∈ s.batch x := by
        rw [hbatch]
        exact List.mem_cons_self
      split at hstep
      · rename_i htimed
        cases hstep
        refine hends fun hdrained => absurd ?_ htimed
        obtain ⟨-, -, -, rfl, -, hall⟩ := hslot.drain hdrained
        exact hall h hmem
      · rename_i htimed
        rw [not_not] at htimed
        cases hstep
        refine hs.requeue (x := x) ⟨⟨rfl, rfl, rfl, rfl, rfl⟩, ⟨rfl, rfl, rfl⟩, fun y hy => ?_⟩
          ?_ (fun g => ?_)
          (fun hge => (hbelow hge).elim) ⟨?_, ?_, fun hdrained => ?_, ?_⟩
        · exact ⟨rfl, Function.update_of_ne hy _ _, Function.update_of_ne hy _ _, rfl, rfl⟩
        · unfold line
          dsimp only
          rw [Function.update_self, Function.update_self, hloop, hbatch]
          rfl
        · dsimp only
          rw [Function.update_self, hloop]
          rfl
        · have hnodup := hslot.nodup
          rw [hbatch] at hnodup
          dsimp only
          rw [Function.update_self, Function.update_self]
          exact hnodup
        · dsimp only
          rw [Function.update_self]
          intro hne
          cases hne
        · obtain ⟨hshut, hstopped, hqueue, hnow, hlen, hall⟩ := hslot.drain hdrained
          rw [hbatch] at hlen hall
          dsimp only
          rw [Function.update_self, Function.update_self]
          exact ⟨hshut, hstopped, hqueue, hnow, hlen, fun g hg => hall g (List.mem_cons_of_mem h hg)⟩
        · have hclock := hslot.clock
          dsimp only
          rw [Function.update_self]
          refine ⟨hclock, fun hshut => ?_⟩
          have hdrained : s.drained x = false := by
            rw [Bool.eq_false_iff]
            intro hdrained
            rw [(hslot.drain hdrained).1] at hshut
            cases hshut
          obtain ⟨hle, hdvd⟩ := hclock hdrained
          exact (passed_of_timedout (hs.whole h) hdvd (hgood hdrained h (by rw [hbatch]; rfl))
            htimed).trans hle
  · cases hstep

/-! What one turn of the loop leaves. -/

omit [DecidableEq H] in
theorem hand_nextTurn (now left : ℕ) : hand (nextTurn now left : RcuPc H) = [] := by
  unfold nextTurn
  split <;> rfl

theorem callingOf_nextTurn (g : H) (now left : ℕ) : callingOf g (nextTurn now left) = false := by
  unfold nextTurn
  split <;> rfl

omit [DecidableEq H] in
theorem nextTurn_slotOk {clock now left : ℕ} {shutting drained running : Bool} {future : H → ℕ}
    {queue batch : List H}
    (hnodup : (batch ++ queue).Nodup)
    (hdrain : drained = true → shutting = true ∧ running = false ∧ queue = [] ∧ now = 1 ∧
      batch.length + 1 ≤ left ∧
      ∀ h ∈ batch, rcuTimedout (future h) 1 = 0)
    (hclock : drained = false → now ≤ clock ∧ 1000000 ∣ now) :
    SlotOk clock shutting future drained running queue batch (nextTurn now left) := by
  unfold nextTurn
  split
  · refine ⟨hnodup, (fun hne => by cases hne), fun hdrained => ?_, hclock⟩
    obtain ⟨hshut, hstopped, hqueue, hnow, hlen, hall⟩ := hdrain hdrained
    exact ⟨hshut, hstopped, hqueue, hnow, by omega, hall⟩
  · refine ⟨hnodup, (fun hne => by cases hne), fun hdrained => ?_, trivial⟩
    obtain ⟨hshut, hstopped, hqueue, -, hlen, -⟩ := hdrain hdrained
    exact ⟨hshut, hstopped, hqueue, List.eq_nil_of_length_eq_zero (by omega)⟩

theorem put_inv (hs : RcuInv cfg s) (hstep : rcuStep cfg s (.put x) = some s') : RcuInv cfg s' := by
  rw [rcuStep] at hstep
  split at hstep
  · rename_i h now left hput
    have hslot := hs.slot x
    rw [hput] at hslot
    obtain ⟨hclock, htime⟩ := hslot.clock
    have hbelow : ¬ cfg.slots ≤ x := fun hge => by
      have hidle := hs.beyond x hge
      rw [hput] at hidle
      cases hidle
    have hline : line s x = h :: (s.batch x ++ s.queue x) := by
      unfold line
      rw [hput]
      rfl
    have hnodup : (h :: (s.batch x ++ s.queue x)).Nodup := hslot.nodup
    have hlined : (view s h).lined x = true := by
      refine decide_eq_true ?_
      rw [hline]
      exact List.mem_cons_self
    -- whichever place the thread goes to, the other heads are not concerned
    have hframe : ∀ (refcnt : H → ℕ) (pc : RcuPc H), (∀ g, g ≠ h → refcnt g = s.refcnt g) → hand pc = [] →
        (∀ g, g ≠ h → callingOf g pc = false) →
        SlotOk s.clock s.shutting s.future (s.drained x) (s.running x) (s.queue x) (s.batch x) pc →
        Life cfg { view s h with
          refcnt := refcnt h
          lined := Function.update (view s h).lined x false
          calling := Function.update (view s h).calling x (callingOf h pc) } →
        RcuInv cfg { s with refcnt := refcnt, pc := Function.update s.pc x pc } := by
      intro refcnt pc hrefs hhand hcalling hslot' hlife
      have hline' : line { s with refcnt := refcnt, pc := Function.update s.pc x pc } x =
          s.batch x ++ s.queue x := by
        unfold line
        dsimp only
        rw [Function.update_self, hhand]
        rfl
      have hother : ∀ y, y ≠ x → line { s with refcnt := refcnt, pc := Function.update s.pc x pc }
          y = line s y := fun y hy =>
        line_congr rfl rfl (Function.update_of_ne hy _ _)
      refine ⟨fun g => ?_, fun y => ?_, fun y hy => ?_, hs.out, hs.whole, hs.early⟩
      · by_cases hg : g = h
        · subst hg
          have hview : view { s with refcnt := refcnt, pc := Function.update s.pc x pc } g =
              { view s g with
                refcnt := refcnt g
                lined := Function.update (view s g).lined x false
                calling := Function.update (view s g).calling x (callingOf g pc) } := by
            unfold view
            congr 1
            · funext y
              by_cases hy : y = x
              · rw [hy, Function.update_self, hline']
                exact decide_eq_false (List.nodup_cons.mp hnodup).1
              · rw [Function.update_of_ne hy, hother y hy]
            · funext y
              by_cases hy : y = x
              · rw [hy, Function.update_self]
                dsimp only
                rw [Function.update_self]
              · rw [Function.update_of_ne hy]
                dsimp only
                rw [Function.update_of_ne hy]
          rw [hview]
          exact hlife
        · have hview : view { s with refcnt := refcnt, pc := Function.update s.pc x pc } g = view s g := by
            refine view_congr rfl rfl (hrefs g hg) (fun y => ?_) (fun _ => rfl) fun y => ?_
            · by_cases hy : y = x
              · rw [hy, hline', hline, List.mem_cons]
                exact ⟨Or.inr, fun hmem => hmem.resolve_left hg⟩
              · rw [hother y hy]
            · dsimp only
              by_cases hy : y = x
              · rw [hy, Function.update_self, hput, hcalling g hg]
                rfl
              · rw [Function.update_of_ne hy]
          rw [hview]
          exact hs.life g
      · dsimp only
        by_cases hy : y = x
        · rw [hy, Function.update_self]
          exact hslot'
        · rw [Function.update_of_ne hy]
          exact hs.slot y
      · dsimp only
        have hyx : y ≠ x := by
          rintro rfl
          exact hbelow hy
        rw [Function.update_of_ne hyx]
        exact hs.beyond y hy
    have hcall : SlotOk s.clock s.shutting s.future (s.drained x) (s.running x) (s.queue x)
        (s.batch x) (.call h now left) :=
      ⟨(List.nodup_cons.mp hnodup).2, (fun hne => by cases hne), hslot.drain, hclock, htime⟩
    have hcallOther : ∀ g, g ≠ h → callingOf g (.call h now left) = false :=
      fun g hg => decide_eq_false (Ne.symm hg)
    cases hsingle : cfg.singleMode with
    | true =>
      rw [hsingle, if_pos rfl] at hstep
      cases hstep
      refine hframe s.refcnt (.call h now left) (fun _ _ => rfl) rfl hcallOther hcall ?_
      rw [show callingOf h (.call h now left) = true from decide_eq_true rfl]
      exact (hs.life h).put_single hsingle hlined
    | false =>
      rw [hsingle, if_neg Bool.false_ne_true] at hstep
      cases hstep
      have hput' := (hs.life h).put hsingle hlined
      change Life cfg { view s h with
        refcnt := s.refcnt h - 1
        lined := Function.update (view s h).lined x false
        calling := Function.update (view s h).calling x (decide (s.refcnt h - 1 = 0)) } at hput'
      have hrefs : ∀ g, g ≠ h → Function.update s.refcnt h (s.refcnt h - 1) g = s.refcnt g := fun g hg =>
        Function.update_of_ne hg _ _
      by_cases hlast : s.refcnt h - 1 = 0
      · rw [if_pos hlast]
        refine hframe _ (.call h now left) hrefs rfl hcallOther hcall ?_
        rw [decide_eq_true hlast] at hput'
        rw [Function.update_self, show callingOf h (.call h now left) = true from decide_eq_true rfl]
        exact hput'
      · rw [if_neg hlast]
        refine hframe _ (nextTurn now left) hrefs (hand_nextTurn now left)
          (fun g _ => callingOf_nextTurn g now left)
          (nextTurn_slotOk (List.nodup_cons.mp hnodup).2 hslot.drain hclock) ?_
        rw [decide_eq_false hlast] at hput'
        rw [Function.update_self, callingOf_nextTurn]
        exact hput'
  · cases hstep

omit [DecidableEq T] in
theorem callRcu_early (hearly : ∀ g, s.early g = false) (htime : s.shutting = true ∨ s.future h ≤ s.clock)
    (g : H) : (callRcu s h).early g = false := by
  change Function.update s.early h _ g = false
  by_cases hg : g = h
  · rw [hg, Function.update_self, hearly h, Bool.false_or, Bool.and_eq_false_iff]
    rcases htime with hshut | htime
    · left
      rw [hshut]
      rfl
    · right
      exact decide_eq_false (not_lt.mpr htime)
  · rw [Function.update_of_ne hg]
    exact hearly g

theorem call_inv (hs : RcuInv cfg s) (hstep : rcuStep cfg s (.call x) = some s') : RcuInv cfg s' := by
  rw [rcuStep] at hstep
  split at hstep
  · rename_i h now left hcall
    cases hstep
    have hslot := hs.slot x
    rw [hcall] at hslot
    obtain ⟨hclock, htime⟩ := hslot.clock
    have hline : ∀ y, line { callRcu s h with pc := Function.update s.pc x (nextTurn now left) } y =
        line s y := by
      intro y
      by_cases hy : y = x
      · unfold line
        rw [hy]
        dsimp only
        rw [Function.update_self, hand_nextTurn, hcall]
        rfl
      · exact line_congr rfl rfl (Function.update_of_ne hy _ _)
    have hcalling : ∀ g y, callingOf g (Function.update s.pc x (nextTurn now left) y) =
        Function.update (fun z => callingOf g (s.pc z)) x false y := by
      intro g y
      by_cases hy : y = x
      · rw [hy, Function.update_self, Function.update_self, callingOf_nextTurn]
      · rw [Function.update_of_ne hy, Function.update_of_ne hy]
    refine ⟨fun g => ?_, fun y => ?_, fun y hy => ?_, hs.out, hs.whole, callRcu_early hs.early ?_⟩
    · by_cases hg : g = h
      · subst hg
        have hview : view { callRcu s g with pc := Function.update s.pc x (nextTurn now left) } g =
            { view s g with
              calls := (view s g).calls + 1
              calling := Function.update (view s g).calling x false } := by
          unfold view
          congr 1
          · exact Function.update_self _ _ _
          · funext y
            rw [hline]
          · exact funext (hcalling g)
        rw [hview]
        refine (hs.life g).call ?_
        change callingOf g (s.pc x) = true
        rw [hcall]
        exact decide_eq_true rfl
      · have hview : view { callRcu s h with pc := Function.update s.pc x (nextTurn now left) } g =
          view s g := by
          refine view_congr rfl (Function.update_of_ne hg _ _) rfl (fun y => by rw [hline])
            (fun _ => rfl) fun y => ?_
          refine (hcalling g y).trans ?_
          by_cases hy : y = x
          · rw [hy, Function.update_self, hcall]
            exact (decide_eq_false (Ne.symm hg)).symm
          · rw [Function.update_of_ne hy]
        rw [hview]
        exact hs.life g
    · by_cases hy : y = x
      · rw [hy]
        dsimp only
        rw [Function.update_self]
        exact nextTurn_slotOk hslot.nodup hslot.drain hclock
      · dsimp only
        rw [Function.update_of_ne hy]
        exact hs.slot y
    · have hyx : y ≠ x := by
        rintro rfl
        have hidle := hs.beyond y hy
        rw [hcall] at hidle
        cases hidle
      dsimp only
      rw [Function.update_of_ne hyx]
      exact hs.beyond y hy
    · cases hshut : s.shutting with
      | true => exact Or.inl rfl
      | false => exact Or.inr (htime hshut)
  · cases hstep

theorem add_inv {t : T} (hs : RcuInv cfg s) (hgood : Careful s (.add t))
    (hstep : rcuStep cfg s (.add t) = some s') :
    RcuInv cfg s' := by
  rw [rcuStep] at hstep
  rw [Careful] at hgood
  split at hstep
  · rename_i h cpu hadd
    rw [hadd] at hgood
    cases hstep
    have hfan : (view s h).giving t = .fan cpu := by
      change givePlace h (s.giver t) = _
      rw [hadd, givePlace, if_pos rfl]
    have hnot : h ∉ line s cpu := of_decide_eq_false ((hs.life h).ahead hfan)
    generalize hnext : (if cpu + 1 < cfg.slots then GivePc.check h (cpu + 1) else .idle) = next
    have hplace : givePlace h next = if cpu + 1 < cfg.slots then .fan (cpu + 1) else .away := by
      rw [← hnext]
      split
      · exact if_pos rfl
      · rfl
    have hline : ∀ y, line { s with
        queue := Function.update s.queue cpu (s.queue cpu ++ [h]), giver :=
        Function.update s.giver t next } y =
          if y = cpu then line s cpu ++ [h] else line s y := by
      intro y
      unfold line
      dsimp only
      by_cases hy : y = cpu
      · rw [if_pos hy, hy, Function.update_self, List.append_assoc, List.append_assoc, List.append_assoc]
      · rw [if_neg hy, Function.update_of_ne hy]
    refine ⟨fun g => ?_, fun y => ?_, hs.beyond, fun u f hf => ?_, hs.whole, hs.early⟩
    · by_cases hg : g = h
      · subst hg
        have hview : view { s with
            queue := Function.update s.queue cpu (s.queue cpu ++ [g]), giver :=
            Function.update s.giver t next } g =
              { view s g with
                lined := Function.update (view s g).lined cpu true
                giving :=
                Function.update (view s g).giving t (if cpu + 1 < cfg.slots then .fan (cpu + 1)
                  else .away) } := by
          unfold view
          congr 1
          · funext y
            rw [hline]
            by_cases hy : y = cpu
            · rw [if_pos hy, hy, Function.update_self]
              exact decide_eq_true (List.mem_append_right _ List.mem_cons_self)
            · rw [if_neg hy, Function.update_of_ne hy]
          · funext u
            dsimp only
            by_cases hu : u = t
            · rw [hu, Function.update_self, Function.update_self, hplace]
            · rw [Function.update_of_ne hu, Function.update_of_ne hu]
        rw [hview]
        exact (hs.life g).add hfan
      · have hview : view { s with
            queue := Function.update s.queue cpu (s.queue cpu ++ [h]), giver :=
            Function.update s.giver t next } g =
              view s g := by
          refine view_congr rfl rfl rfl (fun y => ?_) (fun u => ?_) fun _ => rfl
          · rw [hline]
            by_cases hy : y = cpu
            · rw [if_pos hy, hy, List.mem_append, List.mem_singleton]
              exact or_iff_left hg
            · rw [if_neg hy]
          · dsimp only
            by_cases hu : u = t
            · rw [hu, Function.update_self, hadd, ← hnext, show givePlace g (.add h cpu) = .away
                from if_neg (Ne.symm hg)]
              split
              · exact if_neg (Ne.symm hg)
              · rfl
            · rw [Function.update_of_ne hu]
        rw [hview]
        exact hs.life g
    · by_cases hy : y = cpu
      · subst hy
        have hslot := hs.slot y
        refine ⟨?_, hslot.rest, fun hdrained => ?_, hslot.clock⟩
        · have hnodup : (line s y ++ [h]).Nodup := List.nodup_append.mpr
            ⟨hslot.nodup, List.nodup_singleton h, fun a ha b hb hab => hnot (by
              rw [List.mem_singleton] at hb
              rw [← hb, ← hab]
              exact ha)⟩
          have hsame := hline y
          rw [if_pos rfl] at hsame
          rw [← hsame] at hnodup
          exact hnodup
        · rw [show s.drained y = false from hgood] at hdrained
          cases hdrained
      · dsimp only
        rw [Function.update_of_ne hy]
        exact hs.slot y
    · change Function.update s.giver t next u = _ at hf
      by_cases hu : u = t
      · rw [hu, Function.update_self, ← hnext] at hf
        split at hf <;> cases hf
      · rw [Function.update_of_ne hu] at hf
        exact hs.out u f hf
  · cases hstep

theorem view_giver_other {t : T} {pc : GivePc H} (hg : givePlace g (s.giver t) = givePlace g pc) :
    view { s with giver := Function.update s.giver t pc } g = view s g := by
  refine view_congr rfl rfl rfl (fun _ => Iff.rfl) (fun u => ?_) fun _ => rfl
  dsimp only
  by_cases hu : u = t
  · rw [hu, Function.update_self, hg]
  · rw [Function.update_of_ne hu]

theorem view_giver_self {t : T} (pc : GivePc H) :
    view { s with giver := Function.update s.giver t pc } h =
      { view s h with giving := Function.update (view s h).giving t (givePlace h pc) } := by
  unfold view
  congr 1
  funext u
  dsimp only
  by_cases hu : u = t
  · rw [hu, Function.update_self, Function.update_self]
  · rw [Function.update_of_ne hu, Function.update_of_ne hu]

theorem check_inv {t : T} (hs : RcuInv cfg s) (hgood : Careful s (.check t))
    (hstep : rcuStep cfg s (.check t) = some s') :
    RcuInv cfg s' := by
  rw [rcuStep] at hstep
  rw [Careful] at hgood
  split at hstep
  · rename_i h cpu hcheck
    rw [hcheck] at hgood
    replace hgood : s.running cpu = false → (∀ x < cpu, h ∉ line s x) ∧
      (s.shutting = true ∨ s.future h ≤ s.clock) := hgood
    have hfan : givePlace h (s.giver t) = .fan cpu := by
      rw [hcheck]
      exact if_pos rfl
    have haway : ∀ g, g ≠ h → givePlace g (s.giver t) = .away := fun g hg => by
      rw [hcheck]
      exact if_neg (Ne.symm hg)
    cases hstep
    cases hrun : s.running cpu with
    | true =>
      rw [if_pos rfl]
      refine ⟨fun g => ?_, hs.slot, hs.beyond, fun u f hf => ?_, hs.whole, hs.early⟩
      · rw [view_giver_other]
        · exact hs.life g
        · rw [hcheck]
          rfl
      · change Function.update s.giver t _ u = _ at hf
        by_cases hu : u = t
        · rw [hu, Function.update_self] at hf
          cases hf
        · rw [Function.update_of_ne hu] at hf
          exact hs.out u f hf
    | false =>
      obtain ⟨hnot, htime⟩ := hgood hrun
      rw [if_neg Bool.false_ne_true]
      refine ⟨fun g => ?_, hs.slot, hs.beyond, fun u f hf => ?_, hs.whole, hs.early⟩
      · by_cases hg : g = h
        · rw [hg, view_giver_self, show givePlace h (.out h) = .out from if_pos rfl]
          exact (hs.life h).refuse hfan fun x hx => decide_eq_false (hnot x hx)
        · rw [view_giver_other ((haway g hg).trans (if_neg (Ne.symm hg)).symm)]
          exact hs.life g
      · change Function.update s.giver t _ u = _ at hf
        by_cases hu : u = t
        · rw [hu, Function.update_self] at hf
          cases hf
          exact htime
        · rw [Function.update_of_ne hu] at hf
          exact hs.out u f hf
  · cases hstep

theorem out_inv {t : T} (hs : RcuInv cfg s) (hstep : rcuStep cfg s (.out t) = some s') : RcuInv cfg s' := by
  rw [rcuStep] at hstep
  split at hstep
  · rename_i h hout
    cases hstep
    have hplace : (view s h).giving t = .out := by
      change givePlace h (s.giver t) = .out
      rw [hout]
      exact if_pos rfl
    refine ⟨fun g => ?_, hs.slot, hs.beyond, fun u f hf => ?_, hs.whole,
      callRcu_early hs.early (hs.out t h hout)⟩
    · by_cases hg : g = h
      · subst hg
        have hview : view { callRcu s g with giver := Function.update s.giver t .idle } g =
            { view s g with
              calls := (view s g).calls + 1
              giving := Function.update (view s g).giving t .away } := by
          have hcalled : (callRcu s g).calls g = s.calls g + 1 := Function.update_self _ _ _
          refine (view_giver_self (s := callRcu s g) (h := g) .idle).trans ?_
          unfold view
          rw [hcalled]
          rfl
        rw [hview]
        exact (hs.life g).callOut hplace
      · have hview : view { callRcu s h with giver := Function.update s.giver t .idle } g = view s g := by
          refine (view_giver_other (s := callRcu s h) ?_).trans ?_
          · change givePlace g (s.giver t) = .away
            rw [hout]
            exact if_neg (Ne.symm hg)
          · exact view_congr rfl (Function.update_of_ne hg _ _) rfl (fun _ => Iff.rfl)
              (fun _ => rfl) fun _ => rfl
        rw [hview]
        exact hs.life g
    · change Function.update s.giver t _ u = _ at hf
      by_cases hu : u = t
      · rw [hu, Function.update_self] at hf
        cases hf
      · rw [Function.update_of_ne hu] at hf
        exact hs.out u f hf
  · cases hstep

theorem give_inv {t : T} (hs : RcuInv cfg s) (hstep : rcuStep cfg s (.give t h) = some s') :
    RcuInv cfg s' := by
  rw [rcuStep] at hstep
  split at hstep
  · rename_i hcond
    obtain ⟨hidle, hnew⟩ := hcond
    cases hstep
    obtain ⟨hlines, hcalls, hgivers⟩ := hs.nowhere hnew
    have hwhole := uevTimerFuture_dvd s.clock (if cfg.singleMode then rcuMs * cfg.nrCpus else rcuMs)
    generalize uevTimerFuture s.clock _ = future at hwhole ⊢
    have hfuture : ∀ g, g ≠ h → Function.update s.future h future g = s.future g :=
      fun g hg => Function.update_of_ne hg _ _
    have houtOf : ∀ u f, Function.update s.giver t (.check h 0) u = .out f → s.giver u = .out f := by
      intro u f hf
      by_cases hu : u = t
      · rw [hu, Function.update_self] at hf
        cases hf
      · rwa [Function.update_of_ne hu] at hf
    refine ⟨fun g => ?_, fun y => ?_, hs.beyond, fun u f hf => ?_, fun g => ?_, hs.early⟩
    · by_cases hg : g = h
      · subst hg
        have hview : view { s with
            given := Function.update s.given g true
            refcnt := Function.update s.refcnt g cfg.nrCpus
            future := Function.update s.future g future
            giver := Function.update s.giver t (.check g 0) } g =
              { view s g with
                given := true
                refcnt := cfg.nrCpus
                giving := Function.update (view s g).giving t (.fan 0) } := by
          unfold view
          congr 1
          · exact Function.update_self _ _ _
          · exact Function.update_self _ _ _
          · funext u
            dsimp only
            by_cases hu : u = t
            · rw [hu, Function.update_self, Function.update_self]
              exact if_pos rfl
            · rw [Function.update_of_ne hu, Function.update_of_ne hu]
        rw [hview]
        exact (hs.life g).give hnew t
      · have hview : view { s with
            given := Function.update s.given h true
            refcnt := Function.update s.refcnt h cfg.nrCpus
            future := Function.update s.future h future
            giver := Function.update s.giver t (.check h 0) } g = view s g := by
          refine view_congr (Function.update_of_ne hg _ _) rfl (Function.update_of_ne hg _ _)
            (fun _ => Iff.rfl) (fun u => ?_)
            fun _ => rfl
          dsimp only
          by_cases hu : u = t
          · rw [hu, Function.update_self, hidle]
            exact if_neg (Ne.symm hg)
          · rw [Function.update_of_ne hu]
        rw [hview]
        exact hs.life g
    · have hslot := hs.slot y
      refine ⟨hslot.nodup, hslot.rest, fun hdrained => ?_, hslot.clock.congr (fun g hg => ?_) fun g hg => ?_⟩
      · obtain ⟨hshut, hstopped, hqueue, hbatch⟩ := hslot.drain hdrained
        refine ⟨hshut, hstopped, hqueue, hbatch.congr fun g hg => hfuture g ?_⟩
        rintro rfl
        exact hlines y (List.mem_append_left _ (List.mem_append_right _ hg))
      · refine hfuture g ?_
        rintro rfl
        exact hlines y (List.mem_append_left _ (List.mem_append_left _ hg))
      · refine hfuture g ?_
        rintro rfl
        rw [hcalls y] at hg
        cases hg
    · have hf' := houtOf u f hf
      refine (hs.out u f hf').imp_right fun htime => ?_
      change Function.update s.future h future f ≤ s.clock
      rw [hfuture f]
      · exact htime
      rintro rfl
      have hzero := hgivers u
      rw [hf', givePlace, if_pos rfl] at hzero
      cases hzero
    · change 1000000 ∣ Function.update s.future h future g
      by_cases hg : g = h
      · rw [hg, Function.update_self]
        exact hwhole
      · rw [hfuture g hg]
        exact hs.whole g
  · cases hstep

theorem tick_inv {n : ℕ} (hs : RcuInv cfg s) (hstep : rcuStep cfg s (.tick n) = some s') : RcuInv cfg s' := by
  cases hstep
  refine ⟨hs.life, fun x => ?_, hs.beyond, fun t h ht => ?_, hs.whole, hs.early⟩
  · have hslot := hs.slot x
    refine ⟨hslot.nodup, hslot.rest, hslot.drain, hslot.clock.later (Nat.le_add_right _ _) id⟩
  · exact (hs.out t h ht).imp_right fun htime => htime.trans (Nat.le_add_right _ _)

theorem shutdown_inv (hs : RcuInv cfg s) (hstep : rcuStep cfg s .shutdown = some s') : RcuInv cfg s' := by
  rw [rcuStep] at hstep
  split at hstep
  · cases hstep
  · rename_i hrun
    cases hstep
    refine ⟨hs.life, fun x => ?_, hs.beyond, fun t h ht => Or.inl rfl, hs.whole, hs.early⟩
    have hslot := hs.slot x
    refine ⟨hslot.nodup, hslot.rest, fun hdrained => ?_, hslot.clock.later le_rfl fun h => by cases h⟩
    exact ⟨rfl, (hslot.drain hdrained).2⟩

theorem rcuInit_inv : RcuInv cfg (rcuInit : RcuState H T) := by
  refine ⟨fun h => .fresh 0, fun x => ⟨List.nodup_nil, fun _ => rfl, fun hd => ?_, trivial⟩, fun _ _ => rfl,
    fun t h ht => ?_, fun _ => dvd_zero _, fun _ => rfl⟩
  · cases hd
  · cases ht

theorem rcuStep_inv : ∀ (s : RcuState H T) (a : RcuAct H T) (s' : RcuState H T), RcuInv cfg s → Careful s a →
    rcuStep cfg s a = some s' → RcuInv cfg s' := by
  intro s a s' hs hgood hstep
  cases a with
  | tick n => exact tick_inv hs hstep
  | give t h => exact give_inv hs hstep
  | check t => exact check_inv hs hgood hstep
  | add t => exact add_inv hs hgood hstep
  | out t => exact out_inv hs hstep
  | round x ms => exact round_inv hs hstep
  | test x => exact test_inv hs hgood hstep
  | put x => exact put_inv hs hstep
  | call x => exact call_inv hs hstep
  | back x => exact back_inv hs hstep
  | stop x => exact stop_inv hs hstep
  | shutdown => exact shutdown_inv hs hstep
  | drain x => exact drain_inv hs hgood hstep

end Steps

/-! ## Runs -/

/-- After any careful steps of the callers, the slots and the shutdown, no callback was called
twice, early or while its head is linked, none is lost, and after the last drain each was called. -/
theorem rcu_ok (cfg : RcuConfig) (as : List (RcuAct H T)) (s : RcuState H T)
    (hgood : RunMeets (rcuStep cfg) Careful rcuInit as)
    (hrun : runActs (rcuStep cfg) rcuInit as = some s) : RcuOk cfg s :=
  (run_invariant rcuStep_inv as _ s rcuInit_inv hgood hrun).ok

instance (s : RcuState H T) : (a : RcuAct H T) → Decidable (Careful s a)
  | .check t =>
      match hg : s.giver t with
      | .check h cpu =>
          decidable_of_iff (s.running cpu = false → (∀ x < cpu, h ∉ line s x) ∧
            (s.shutting = true ∨ s.future h ≤ s.clock))
            (by rw [Careful, hg])
      | .idle | .add _ _ | .out _ => decidable_of_iff True (by rw [Careful, hg])
  | .add t =>
      match hg : s.giver t with
      | .add _ cpu => decidable_of_iff (s.drained cpu = false) (by rw [Careful, hg])
      | .idle | .check _ _ | .out _ => decidable_of_iff True (by rw [Careful, hg])
  | .test x =>
      match hx : s.pc x with
      | .loop now _ =>
          decidable_of_iff
            (s.drained x = false → ∀ h ∈ (s.batch x).head?,
              2 ^ 32 ∣ (s.future h - now) / 1000000 → (s.future h - now) / 1000000 = 0)
            (by rw [Careful, hx])
      | .idle | .put _ _ _ | .call _ _ _ | .back => decidable_of_iff True (by rw [Careful, hx])
  | .drain x =>
      inferInstanceAs (Decidable ((∀ h ∈ s.queue x, rcuTimedout (s.future h) 1 = 0) ∧
        (s.queue x).length ≤ s32MaxCalls))
  | .tick _ | .give _ _ | .out _ | .round _ _ | .put _ | .call _ | .back _ | .stop _ | .shutdown =>
      inferInstanceAs (Decidable True)

def twoCpus : RcuConfig := { singleMode := false, nrCpus := 2, nrCpus_pos := Nat.two_pos }

/-- The one caller gives a head to both slots. -/
def giveBoth (h : ℕ) : List (RcuAct ℕ Unit) := [.give () h, .check (), .add (), .check (), .add ()]

/-- Head 0 has its turn on both slots; head 1 comes when the first slot has stopped. -/
def giveAndStop : List (RcuAct ℕ Unit) :=
  .tick 1000000 :: (giveBoth 0).append
    [.tick 1000000, .round 0 2, .test 0, .put 0, .test 0, .back 0, .round 1 2, .test 1, .put 1,
      .call 1, .test 1, .back 1,
      .shutdown, .stop 0, .drain 0, .give () 1, .check (), .out (), .stop 1, .drain 1]

theorem rcu_ok_giveAndStop : ∃ s, RunMeets (rcuStep twoCpus) Careful rcuInit giveAndStop ∧
    runActs (rcuStep twoCpus) rcuInit giveAndStop = some s ∧ s.calls 0 = 1 ∧ s.calls 1 = 1 ∧
      RcuOk twoCpus s := by
  have hmeets := runMeets_of_checks
    (show runChecks (rcuStep twoCpus) Careful rcuInit giveAndStop = true by decide +kernel)
  have hcalls : (runActs (rcuStep twoCpus) rcuInit giveAndStop).map
      (fun s => (s.calls 0, s.calls 1)) = some (1, 1) := by
    decide +kernel
  obtain ⟨s, hs, hpair⟩ := Option.map_eq_some_iff.mp hcalls
  obtain ⟨hzero, hone⟩ := Prod.mk.inj hpair
  exact ⟨s, hmeets, hs, hzero, hone, rcu_ok twoCpus giveAndStop s hmeets hs⟩

/-- A head is given 1 ms before its time, and the system shuts down at once: no drain finds it timed out. -/
def giveAndDrain : List (RcuAct ℕ Unit) :=
  .tick 1000000 :: (giveBoth 0).append
    [.shutdown, .stop 0, .drain 0, .test 0, .back 0, .stop 1, .drain 1, .test 1, .back 1]

/-- Every slot is drained and the callback was never called. -/
theorem rcu_head_lost : ∃ s, runActs (rcuStep twoCpus) rcuInit giveAndDrain = some s ∧
      s.given 0 = true ∧ s.calls 0 = 0 ∧
    (∀ x < twoCpus.slots, s.drained x = true ∧ s.pc x = .idle) ∧ s.giver () = .idle ∧ ¬ RcuOk twoCpus s := by
  have hrun : (runActs (rcuStep twoCpus) rcuInit giveAndDrain).map
      (fun s => decide (s.given 0 = true ∧ s.calls 0 = 0 ∧
      (∀ x < twoCpus.slots, s.drained x = true ∧ s.pc x = .idle) ∧ s.giver () = .idle)) =
      some true := by decide +kernel
  obtain ⟨s, hs, hend⟩ := Option.map_eq_some_iff.mp hrun
  obtain ⟨hgiven, hcalls, hdrained, hidle⟩ := of_decide_eq_true hend
  refine ⟨s, hs, hgiven, hcalls, hdrained, hidle, fun hok => ?_⟩
  have hone := hok.settled hdrained (fun _ => hidle) 0 hgiven
  omega

end Skp.Process
