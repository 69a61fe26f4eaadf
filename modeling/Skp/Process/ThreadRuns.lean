import Skp.Process.ThreadLife

/-! # What the callers of a thread can rely on

In every run whose users keep to `ThreadGood`: the thread is freed once at most and nobody touches
it afterwards, `fn` is called once at most and for a wake-up only, and whoever waits has somebody to
wait for. -/
namespace Skp.Process
set_option autoImplicit false
open Skp.Foundations

variable {T : Type} {s s' : ThreadState T} {t u : T} {w k : Option T}

theorem touch_eq_none {next : Option (ThreadState T)} (hs : s.touch next = none) : next = none := by
  rw [ThreadState.touch] at hs
  split at hs
  · exact hs
  · cases hs

theorem threadHelper_ret (hs : threadHelper s = some s') : s'.ret = s.ret := by
  unfold threadHelper ThreadState.touch at hs
  grind

variable [DecidableEq T]

def ThreadQuiet (s : ThreadState T) : Prop :=
  threadStep s .helper = none ∧ threadStep s .cancelPoint = none ∧ ∀ t, threadStep s (.call t) = none

/-! ## Nobody waits in vain -/

theorem ThreadInv.no_waker (h : ThreadInv w k s) (hq : ThreadQuiet s)
    (hhelper : s.helper = .waiting → s.started ≠ 0 → False)
    (hset : s.helper ≠ .waiting → s.flags.running = true ∨ s.flags.stopping = true) (t : T) :
    wakerInside (s.pc t) = false := by
  have hcall := hq.2.2 t
  have hknows := h.calls t
  rw [threadStep, threadCall] at hcall
  cases hpc : s.pc t <;> simp only [hpc, wakerInside] at hcall hknows ⊢
  case wakeTest => cases touch_eq_none hcall
  case wakeComplete => cases touch_eq_none hcall
  case wakeClear rc => cases touch_eq_none hcall
  case wakeLoad =>
    have hload := touch_eq_none hcall
    split at hload
    · cases hload
    · rename_i hflags
      by_cases hwait : s.helper = .waiting
      · exact (hhelper hwait (hknows hwait)).elim
      · exact absurd (Bool.or_eq_true_iff.mpr (hset hwait)) hflags

theorem ThreadInv.quiet_helper (h : ThreadInv w k s) (hq : ThreadQuiet s) :
    s.helper = .waiting ∧ s.started = 0 ∨ s.helper = .running ∨ s.helper = .exited := by
  have hhelper := hq.1
  have hk := h.books.helper
  rw [threadStep, threadHelper] at hhelper
  cases hpc : s.helper <;> simp only [hpc, reduceCtorEq, false_and, true_and, or_false, or_true]
    at hhelper hk ⊢
  case waiting =>
    have hwait := touch_eq_none hhelper
    split at hwait
    · assumption
    · cases hwait
  case freeWait =>
    have hwaiting := touch_eq_none hhelper
    split at hwaiting
    · rename_i hwaking
      have hsome := h.waking ▸ hwaking
      obtain ⟨t, ht⟩ := Option.isSome_iff_exists.mp hsome
      have hout := h.no_waker hq (by simp [hpc]) (fun _ => hk.1.1) t
      rw [(h.wakers t).mpr ht] at hout
      cases hout
    · cases hwaiting
  case looping rc =>
    split at hhelper
    · cases hhelper
    · rename_i hrc
      have hclaimed := hk.2.2.2 hrc
      have hsome := h.owned (h.books.claimed hclaimed).1 (h.books.alive (by simp [hpc]))
      obtain ⟨t, ht⟩ := Option.isSome_iff_exists.mp hsome
      have hin := (h.stoppers t).mpr ht
      have hknows := h.calls t
      have hcall := hq.2.2 t
      have hcancel := hq.2.1
      rw [threadStep, threadCall] at hcall
      cases hpct : s.pc t <;> simp_all [CallKnows, Unclaimed, stopperInside, ThreadState.touch, threadStep]
      all_goals split at hcall <;> simp_all
  all_goals cases touch_eq_none hhelper

theorem ThreadInv.quiet_calls (h : ThreadInv w k s) (hq : ThreadQuiet s) (t : T) :
    s.pc t = .idle ∨ s.helper = .running ∧ ∃ kill, s.pc t = .waitStopped kill := by
  have hpcs := h.quiet_helper hq
  have hhelper := h.books.helper
  have hset : s.helper ≠ .waiting → s.flags.running = true ∨ s.flags.stopping = true := by
    intro hwait
    rcases hpcs with ⟨hpc, -⟩ | hpc | hpc
    · exact absurd hpc hwait
    · rw [hpc] at hhelper
      exact Or.inl hhelper.1
    · rw [hpc] at hhelper
      exact hhelper.1
  have htokens : s.helper = .waiting → s.started ≠ 0 → False := by
    rintro hwait hne
    rcases hpcs with ⟨-, hzero⟩ | hpc | hpc
    · exact hne hzero
    · cases hwait.symm.trans hpc
    · cases hwait.symm.trans hpc
  have hnowaker := h.no_waker hq htokens hset
  have hcall := hq.2.2 t
  have hknows := h.calls t
  have hmine := hnowaker t
  rw [threadStep, threadCall] at hcall
  cases hpc : s.pc t <;> simp only [hpc, wakerInside, reduceCtorEq, true_or, false_or, exists_false,
    and_false, ThreadCallPc.waitStopped.injEq,
    exists_eq', and_true] at hcall hknows hmine ⊢
  case joinKilled =>
    have hjoin := touch_eq_none hcall
    split at hjoin
    · cases hjoin
    · rename_i hexit
      obtain ⟨-, hcancelled, hwait⟩ := hknows
      rcases hpcs with ⟨hpc, hzero⟩ | hpc | hpc
      · exact hwait hpc hzero
      · have hcancel := hq.2.1
        simp [threadStep, hpc, hcancelled] at hcancel
      · exact hexit hpc
  case waitStopped kill =>
    have hwaits := touch_eq_none hcall
    split at hwaits
    · rename_i hzero
      rcases hpcs with ⟨hpc, hstarted⟩ | hpc | hpc
      · exact (hknows.2 hpc hstarted).elim
      · exact hpc
      · exact absurd hzero (hknows.1.2 (by rw [hpc]; rfl))
    · cases hwaits
  case join kill =>
    have hjoin := touch_eq_none hcall
    split at hjoin
    · cases hjoin
    · rename_i hexit
      have hsig := hknows.2
      rcases hpcs with ⟨hpc, -⟩ | hpc | hpc
      · rw [hpc] at hsig
        cases hsig
      · rw [hpc] at hsig
        cases hsig
      · exact hexit hpc
  case freeWait r =>
    have hwaiting := touch_eq_none hcall
    split at hwaiting
    · rename_i hwaking
      obtain ⟨u, hu⟩ := Option.isSome_iff_exists.mp (h.waking ▸ hwaking)
      have hin := (h.wakers u).mpr hu
      rw [hnowaker u] at hin
      cases hin
    · cases hwaiting
  all_goals cases touch_eq_none hcall

/-! ## The value of `fn` -/

theorem threadCall_ret (hs : threadCall s t = some s') : s'.ret = s.ret := by
  unfold threadCall ThreadState.touch ThreadState.goto at hs
  grind

theorem threadStep_ret {a : ThreadAct T} (hs : threadStep s a = some s') :
    s'.ret = s.ret ∨ ∃ v, a = .fnReturn v ∧ s'.ret = some v := by
  cases a with
  | helper => exact Or.inl (threadHelper_ret hs)
  | call t => exact Or.inl (threadCall_ret hs)
  | fnReturn v =>
    unfold threadStep ThreadState.touch at hs
    grind
  | _ =>
    unfold threadStep ThreadState.touch at hs
    left
    grind [ThreadState.goto]

theorem thread_ret_mem {as : List (ThreadAct T)} {v : ℤ} (hr : runActs threadStep s as = some s')
    (hv : s'.ret = some v) :
    s.ret = some v ∨ .fnReturn v ∈ as := by
  induction as generalizing s with
  | nil => exact Or.inl ((Option.some.inj hr) ▸ hv)
  | cons a as ih =>
    obtain ⟨m, hm, hrest⟩ := runActs_cons_eq_some.mp hr
    rcases ih hrest with hret | hmem
    · rcases threadStep_ret hm with heq | ⟨u, rfl, heq⟩
      · exact Or.inl (heq ▸ hret)
      · obtain rfl := Option.some.inj (heq.symm.trans hret)
        exact Or.inr List.mem_cons_self
    · exact Or.inr (List.mem_cons_of_mem a hmem)

/-! ## Runs -/

theorem thread_run {as : List (ThreadAct T)} (hgood : RunMeets threadStep ThreadGood threadInit as)
    (hr : runActs threadStep threadInit as = some s) : (∃ w k, ThreadInv w k s) ∧ Entering s := by
  have hstep : ∀ (s : ThreadState T) a s', (∃ w k, ThreadInv w k s) ∧ Entering s → ThreadGood s a →
      threadStep s a = some s' →
      (∃ w k, ThreadInv w k s') ∧ Entering s' :=
    fun _ _ _ ⟨⟨_, _, h⟩, he⟩ hg hs => ⟨h.step he hg hs, he.step h hg hs⟩
  exact run_invariant hstep as _ _ ⟨⟨none, none, threadInit_inv⟩, fun _ => nofun⟩ hgood hr

structure ThreadOk (as : List (ThreadAct T)) (s : ThreadState T) : Prop where
  /-- No access to freed memory and no failed assertion. -/
  sound : s.wild = false ∧ s.bug = false
  /-- After the `free` the thread is gone and no call on it is in progress. -/
  freed : s.frees ≤ 1 ∧ (s.frees = 1 → s.helper = .exited ∧ ∀ t, s.pc t = .idle)
  fn : s.fnStarts ≤ 1 ∧ (s.fnStarts = 1 → 0 < s.wakeCompletes)
  /-- A wake-up that returned 0 has seen `fn` called, or a stop or kill. -/
  wakeup : 0 < s.wakeups → s.fnStarts = 1 ∨ s.flags.stopping = true
  /-- One stop or kill returns 0 or 1; a stop has the value of `fn`, or of memory that was never written. -/
  answers : s.answers.length ≤ s.frees ∧ ∀ code, .stopped code ∈ s.answers →
    (code.isSome = true ↔ s.fnStarts = 1) ∧ ∀ v, code = some v → .fnReturn v ∈ as
  /-- Where nothing goes on, each call in progress waits for `fn` to return. -/
  waits : ThreadQuiet s → (s.helper = .waiting ∨ s.helper = .running ∨ s.helper = .exited) ∧
    ∀ t, s.pc t = .idle ∨ s.helper = .running ∧ ∃ kill, s.pc t = .waitStopped kill

theorem uthread_ok (as : List (ThreadAct T)) (s : ThreadState T)
    (hgood : RunMeets threadStep ThreadGood threadInit as)
    (hr : runActs threadStep threadInit as = some s) : ThreadOk as s := by
  obtain ⟨⟨w, k, h⟩, he⟩ := thread_run hgood hr
  have hstarts := h.books.fnStarts
  have hrun : s.flags.running = true ↔ s.fnStarts = 1 := by
    rw [hstarts]
    cases s.flags.running <;> simp
  refine ⟨h.books.sound, ⟨?_, fun hf => ?_⟩, ⟨?_, fun hone => h.books.woken (hrun.mpr hone)⟩,
    fun hw => (h.books.wakeups hw).imp_left hrun.mp,
    ⟨h.books.length, fun code hmem => ?_⟩, fun hq =>
    ⟨(h.quiet_helper hq).imp_left And.left, h.quiet_calls hq⟩⟩
  · by_contra hlt
    have := (h.books.freed (by omega)).1
    omega
  · refine ⟨(h.books.freed (by omega)).2.1, fun t => ?_⟩
    have hin : wakerInside (s.pc t) = true ∨ stopperInside (s.pc t) = true → False := by
      intro hin
      have := h.alive hin
      omega
    have hent : entering (s.pc t) = true → False := by
      intro hent
      have := h.unfreed (he t hent).1
      omega
    cases hpc : s.pc t <;> simp_all [wakerInside, stopperInside, entering]
  · rw [hstarts]
    exact Bool.toNat_le _
  · obtain ⟨hcode, hsome⟩ := (h.books.answers _ hmem).2
    refine ⟨hsome ▸ hrun, fun v hv => ?_⟩
    exact (thread_ret_mem hr (hcode.symm.trans hv)).resolve_left (Option.some_ne_none v).symm

/-- A wake-up and, beside it, a stop that gets the value of `fn`. -/
def wakeBesideStop (a b : T) (v : ℤ) : List (ThreadAct T) :=
  [.wakeup a, .call a, .call a, .helper, .helper, .stop b false, .call b, .call b, .helper, .call b,
    .fnReturn v, .helper, .helper, .helper, .call b, .helper,
    .call b, .call b, .call b, .call a, .call a, .call b, .call b]

theorem uthread_ok_witness :
    ∃ s, runActs threadStep threadInit (wakeBesideStop true false 7) = some s ∧
      s.answers = [.stopped (some 7)] ∧
    ThreadOk (wakeBesideStop true false 7) s :=
  ⟨_, rfl, rfl, uthread_ok _ _ (runMeets_of_checks (by decide)) rfl⟩

end Skp.Process
