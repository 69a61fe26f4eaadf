import Skp.Process.ThreadModel
import Skp.Foundations.Holder

/-! # A thread runs once and is freed once

`THREAD_WAKING` and `THREAD_STOPPING` let one wake-up and one stop or kill at a time go on, so at
most one of the callers and the thread itself comes to `thread__free`, and it waits there for the
wake-up in progress. -/
namespace Skp.Process
set_option autoImplicit false
open Skp.Foundations

variable {T : Type} {s s' : ThreadState T} {t u : T} {p : ThreadCallPc}

def wakerInside : ThreadCallPc → Bool
  | .wakeTest | .wakeComplete | .wakeLoad | .wakeClear _ => true
  | _ => false

def stopperInside : ThreadCallPc → Bool
  | .idle | .wakeTest | .wakeComplete | .wakeLoad | .wakeClear _ | .stopFlags _ | .stopSet _ => false
  | _ => true

/-- `thread->ret` is what `fn` returned, and was not stored when `fn` was never called. -/
def AnswerOk (s : ThreadState T) : StopAnswer → Prop
  | .stopped code => code = s.ret ∧ code.isSome = s.flags.running
  | .killed _ => True

/-- `thread__helper` is past `complete(&thread->stopped)`, or was cancelled. -/
def signalled : HelperPc → Bool
  | .leave _ | .push | .freeWait | .free | .looping _ | .exited => true
  | _ => false

def beforeFinish : HelperPc → Bool
  | .waiting | .check | .mark | .running | .finish => true
  | _ => false

/-- `fn` was called and has returned, or a stop or kill came first. -/
def Settled (s : ThreadState T) : Prop :=
  (s.flags.running = true ∨ s.flags.stopping = true) ∧ s.ret.isSome = s.flags.running

def HelperKnows (s : ThreadState T) : HelperPc → Prop
  | .waiting => s.flags.running = false ∧ s.stopped = 0 ∧ s.ret = none
  | .check => s.flags.running = false ∧ s.stopped = 0 ∧ s.ret = none ∧
      (s.flags.stopping = true ∨ 0 < s.wakeCompletes)
  | .mark => s.flags.running = false ∧ s.stopped = 0 ∧ s.ret = none ∧ 0 < s.wakeCompletes
  | .running => s.flags.running = true ∧ s.stopped = 0 ∧ s.ret = none
  | .finish => s.stopped = 0 ∧ Settled s
  | .signal rc => s.stopped = 0 ∧ Settled s ∧ s.flags.stopped = true ∧ (rc ≠ 0 → s.claimed = true)
  | .leave rc => Settled s ∧ s.flags.stopped = true ∧ (rc ≠ 0 → s.claimed = true)
  | .push | .freeWait => Settled s ∧ s.flags.stopped = true ∧ s.flags.detached = true
  | .free => Settled s ∧ s.flags.stopped = true ∧ s.flags.detached = true ∧ s.released = true
  | .looping rc => Settled s ∧ s.flags.stopped = true ∧ s.flags.detached = false ∧ (rc ≠ 0 → s.claimed = true)
  | .exited => (s.flags.running = true ∨ s.flags.stopping = true) ∧ s.flags.stopped = true ∧
      (s.claimed = false → s.ret.isSome = s.flags.running) ∧ (s.flags.detached = true → s.frees ≠ 0)

/-- What a stop or kill sees until it has taken `THREAD_STOPPED` or the completion. -/
def Unclaimed (s : ThreadState T) : Prop := s.claimed = false ∧ (signalled s.helper = true → s.stopped ≠ 0)

def CallKnows (s : ThreadState T) : ThreadCallPc → Prop
  | .idle | .wakeTest | .wakeComplete | .stopFlags _ | .stopSet _ => True
  | .wakeLoad => s.helper = .waiting → s.started ≠ 0
  | .wakeClear rc => rc = 0 → s.flags.running = true ∨ s.flags.stopping = true
  | .stopTest _ | .stopComplete _ => Unclaimed s
  | .claim | .waitStopped _ => Unclaimed s ∧ (s.helper = .waiting → s.started ≠ 0)
  | .cancel => s.claimed = true ∧ (s.helper = .waiting → s.started ≠ 0)
  | .joinKilled => s.claimed = true ∧ s.cancelled = true ∧ (s.helper = .waiting → s.started ≠ 0)
  | .join _ => s.claimed = false ∧ signalled s.helper = true
  | .readRet _ => s.claimed = false ∧ s.helper = .exited
  | .push r | .freeWait r => s.helper = .exited ∧ AnswerOk s r
  | .free r => s.helper = .exited ∧ AnswerOk s r ∧ s.released = true

structure ThreadBooks (s : ThreadState T) : Prop where
  helper : HelperKnows s s.helper
  unstopped : s.flags.stopping = false → Unclaimed s
  claimed : s.claimed = true → s.flags.stopping = true ∧ s.flags.stopped = true
  cancelled : s.cancelled = true → s.claimed = true
  early : beforeFinish s.helper = true → s.flags.stopped = true → s.claimed = true
  fnStarts : s.fnStarts = s.flags.running.toNat
  woken : s.flags.running = true → 0 < s.wakeCompletes
  tokens : s.started ≠ 0 → s.flags.stopping = true ∨ 0 < s.wakeCompletes
  wakeups : 0 < s.wakeups → s.flags.running = true ∨ s.flags.stopping = true
  detached : s.flags.detached = true → s.flags.stopping = false ∧ s.flags.running = true
  released : s.released = true → s.flags.waking = false ∧ (s.helper = .free ∨ s.helper = .exited)
  freed : s.frees ≠ 0 → s.frees = 1 ∧ s.helper = .exited ∧ s.released = true
  answers : ∀ r ∈ s.answers, s.frees ≠ 0 ∧ AnswerOk s r
  length : s.answers.length ≤ s.frees
  sound : s.wild = false ∧ s.bug = false

structure ThreadInv (w k : Option T) (s : ThreadState T) : Prop where
  books : ThreadBooks s
  calls : ∀ t, CallKnows s (s.pc t)
  wakers : HeldBy wakerInside s.pc w
  stoppers : HeldBy stopperInside s.pc k
  waking : s.flags.waking = w.isSome
  stopping : k.isSome = true → s.flags.stopping = true
  owned : s.flags.stopping = true → s.frees = 0 → k.isSome = true
  ended : s.frees ≠ 0 → k = none

/-! ## Steps -/

theorem touch_eq {next : Option (ThreadState T)} (hf : s.frees = 0) (hs : s.touch next = some s') :
    next = some s' := by
  rwa [ThreadState.touch, if_pos hf] at hs

theorem ThreadBooks.alive (h : ThreadBooks s) (hs : s.helper ≠ .exited) : s.frees = 0 := by
  by_contra hf
  exact hs (h.freed hf).2.1

theorem ThreadBooks.moved {q : HelperPc} (h : ThreadBooks s) (hf : s.frees = 0)
    (hk : HelperKnows { s with helper := q } q)
    (hsig : signalled q = true → signalled s.helper = true)
    (hfin : beforeFinish q = true → beforeFinish s.helper = true)
    (hr : s.released = true → q = .exited) : ThreadBooks { s with helper := q } where
  helper := hk
  unstopped := fun hstop => ⟨(h.unstopped hstop).1, fun hq => (h.unstopped hstop).2 (hsig hq)⟩
  claimed := h.claimed
  cancelled := h.cancelled
  early := fun hq => h.early (hfin hq)
  fnStarts := h.fnStarts
  woken := h.woken
  tokens := h.tokens
  wakeups := h.wakeups
  detached := h.detached
  released := fun hrel => ⟨(h.released hrel).1, Or.inr (hr hrel)⟩
  freed := fun hne => absurd hf hne
  answers := fun r hmem => absurd hf (h.answers r hmem).1
  length := h.length
  sound := h.sound

theorem ThreadBooks.notReleased (h : ThreadBooks s) (hfree : s.helper ≠ .free)
    (hexited : s.helper ≠ .exited) : s.released = false := by
  by_contra hrel
  rcases (h.released (by simpa using hrel)).2 with hpc | hpc
  · exact hfree hpc
  · exact hexited hpc

theorem ThreadBooks.helperStep (h : ThreadBooks s) (hs : threadHelper s = some s') : ThreadBooks s' := by
  have hk := h.helper
  have halive := h.alive
  have hrel := h.notReleased
  unfold threadHelper at hs
  cases hpc : s.helper <;>
    simp only [hpc, ne_eq, reduceCtorEq, not_false_eq_true, not_true_eq_false, true_implies,
    false_implies] at hs hk halive hrel
  case waiting =>
    have hs := touch_eq halive hs
    split at hs
    · cases hs
    · obtain rfl := Option.some.inj hs
      have htokens := h.tokens ‹_›
      obtain ⟨-, hu, hc, hx, he, hn, hw, -, hwk, hd, hr, hfr, ha, hlen, hok⟩ := h
      constructor <;> simp_all [HelperKnows, Unclaimed, signalled, beforeFinish]
  case check =>
    obtain rfl := Option.some.inj (touch_eq halive hs)
    obtain ⟨hrun, hst, hret, hcause⟩ := hk
    cases hstop : uthreadShouldStop s.flags with
    | false =>
      obtain ⟨hstopping, -⟩ := Bool.or_eq_false_iff.mp hstop
      exact h.moved halive ⟨hrun, hst, hret, hcause.resolve_left (by simp [hstopping])⟩ nofun
        (fun _ => by rw [hpc]; rfl) (by simp [hrel])
    | true =>
      have hstopping : s.flags.stopping = true := by
        rcases Bool.or_eq_true_iff.mp hstop with hstopping | hstopped
        · exact hstopping
        · exact (h.claimed (h.early (by rw [hpc]; rfl) hstopped)).1
      exact h.moved halive ⟨hst, Or.inr hstopping, by simp [hret, hrun]⟩ nofun
        (fun _ => by rw [hpc]; rfl) (by simp [hrel])
  case mark =>
    obtain rfl := Option.some.inj (touch_eq halive hs)
    obtain ⟨-, hu, hc, hx, he, hn, hw, ht, hwk, hd, hr, hfr, ha, hlen, hok⟩ := h
    constructor <;> simp_all [HelperKnows, Unclaimed, signalled, beforeFinish]
  case finish =>
    obtain rfl := Option.some.inj (touch_eq halive hs)
    obtain ⟨-, hu, hc, hx, he, hn, hw, ht, hwk, hd, hr, hfr, ha, hlen, hok⟩ := h
    constructor <;> simp_all [HelperKnows, Unclaimed, signalled, beforeFinish, Settled]
  case signal rc =>
    obtain rfl := Option.some.inj (touch_eq halive hs)
    obtain ⟨-, hu, hc, hx, he, hn, hw, ht, hwk, hd, hr, hfr, ha, hlen, hok⟩ := h
    constructor <;> simp_all [HelperKnows, Unclaimed, signalled, beforeFinish, Settled]
  case leave rc =>
    obtain rfl := Option.some.inj (touch_eq halive hs)
    obtain ⟨hsettled, hstopped, hrc⟩ := hk
    cases hdet : s.flags.detached with
    | true =>
      exact h.moved halive ⟨hsettled, hstopped, hdet⟩ (fun _ => by rw [hpc]; rfl) nofun
        (by simp [hrel])
    | false =>
      exact h.moved halive ⟨hsettled, hstopped, hdet, hrc⟩ (fun _ => by rw [hpc]; rfl) nofun
        (by simp [hrel])
  case push =>
    obtain rfl := Option.some.inj (touch_eq halive hs)
    rw [if_pos hk.2.1]
    exact h.moved halive hk (fun _ => by rw [hpc]; rfl) nofun (by simp [hrel])
  case freeWait =>
    have hs := touch_eq halive hs
    split at hs
    · cases hs
    · obtain rfl := Option.some.inj hs
      obtain ⟨-, hu, hc, hx, he, hn, hw, ht, hwk, hd, hr, hfr, ha, hlen, hok⟩ := h
      constructor <;> simp_all [HelperKnows, Unclaimed, signalled, beforeFinish, Settled]
  case free =>
    obtain rfl := Option.some.inj (touch_eq halive hs)
    obtain ⟨-, hu, hc, hx, he, hn, hw, ht, hwk, hd, hr, hfr, ha, hlen, hok⟩ := h
    constructor <;> simp_all [HelperKnows, Unclaimed, signalled, beforeFinish, Settled]
  case looping rc =>
    split at hs
    · obtain rfl := Option.some.inj hs
      obtain ⟨hsettled, hstopped, hdet, -⟩ := hk
      exact h.moved halive ⟨hsettled.1, hstopped, fun _ => hsettled.2, by simp [hdet]⟩
        (fun _ => by rw [hpc]; rfl) nofun fun _ => rfl
    · cases hs

/-- What a step keeps of what a wake-up relies on. -/
structure Onward (s s' : ThreadState T) : Prop where
  running : s.flags.running = true → s'.flags.running = true
  stopping : s.flags.stopping = true → s'.flags.stopping = true
  waiting : s'.helper = .waiting → s.helper = .waiting ∧ s.started ≤ s'.started

/-- What a step keeps of what a stop or kill relies on besides. -/
structure StopOnward (s s' : ThreadState T) : Prop where
  claimed : s'.claimed = s.claimed
  cancelled : s.cancelled = true → s'.cancelled = true
  released : s.released = true → s'.released = true
  signals : signalled s.helper = true → signalled s'.helper = true
  stopped : s.claimed = false → signalled s'.helper = true → s.stopped ≤ s'.stopped ∧
    (signalled s.helper = true ∨ s'.stopped ≠ 0)
  exited : s.helper = .exited → s'.helper = .exited ∧ s'.ret = s.ret ∧ s'.flags.running = s.flags.running

theorem Onward.tokens (h : Onward s s') (hs : s.helper = .waiting → s.started ≠ 0) :
    s'.helper = .waiting → s'.started ≠ 0 := by
  intro hw
  obtain ⟨hwait, hle⟩ := h.waiting hw
  have := hs hwait
  omega

theorem Unclaimed.onward (h : Unclaimed s) (hs : StopOnward s s') : Unclaimed s' := by
  refine ⟨hs.claimed.trans h.1, fun hsig => ?_⟩
  obtain ⟨hle, hold | hne⟩ := hs.stopped h.1 hsig
  · have := h.2 hold
    omega
  · exact hne

theorem AnswerOk.onward {r : StopAnswer} (h : AnswerOk s r) (hret : s'.ret = s.ret)
    (hrun : s'.flags.running = s.flags.running) : AnswerOk s' r := by
  cases r with
  | stopped code => exact ⟨h.1.trans hret.symm, h.2.trans hrun.symm⟩
  | killed rc => trivial

theorem CallKnows.waker (h : CallKnows s p) (hp : stopperInside p = false) (ho : Onward s s') :
    CallKnows s' p := by
  cases p with
  | idle | wakeTest | wakeComplete | stopFlags kill | stopSet kill => trivial
  | wakeLoad => exact ho.tokens h
  | wakeClear rc => exact fun hrc => (h hrc).imp ho.running ho.stopping
  | _ => exact nomatch hp

theorem CallKnows.onward (h : CallKnows s p) (ho : Onward s s') (hs : StopOnward s s') : CallKnows s' p := by
  cases p with
  | stopTest kill | stopComplete kill => exact Unclaimed.onward h hs
  | claim | waitStopped kill => exact ⟨h.1.onward hs, ho.tokens h.2⟩
  | cancel => exact ⟨hs.claimed.trans h.1, ho.tokens h.2⟩
  | joinKilled => exact ⟨hs.claimed.trans h.1, hs.cancelled h.2.1, ho.tokens h.2.2⟩
  | join kill => exact ⟨hs.claimed.trans h.1, hs.signals h.2⟩
  | readRet kill => exact ⟨hs.claimed.trans h.1, (hs.exited h.2).1⟩
  | push r | freeWait r =>
    obtain ⟨hpc, hret, hrun⟩ := hs.exited h.1
    exact ⟨hpc, h.2.onward hret hrun⟩
  | free r =>
    obtain ⟨hpc, hret, hrun⟩ := hs.exited h.1
    exact ⟨hpc, h.2.1.onward hret hrun, hs.released h.2.2⟩
  | _ => exact h.waker rfl ho

structure Aside (s s' : ThreadState T) : Prop where
  onward : Onward s s'
  stopOnward : StopOnward s s'
  pc : s'.pc = s.pc
  waking : s'.flags.waking = s.flags.waking
  stopping : s'.flags.stopping = s.flags.stopping
  frees : s.frees ≤ s'.frees ∧ (s'.frees = s.frees ∨ s.flags.detached = true)

theorem threadHelper_aside (h : ThreadBooks s) (hs : threadHelper s = some s') : Aside s s' := by
  have hk := h.helper
  have halive := h.alive
  unfold threadHelper at hs
  cases hpc : s.helper <;> simp only [hpc, ne_eq, reduceCtorEq, not_false_eq_true, true_implies]
    at hs hk halive
  case waiting =>
    have hs := touch_eq halive hs
    split at hs
    · cases hs
    · obtain rfl := Option.some.inj hs
      exact ⟨⟨id, id, nofun⟩, ⟨rfl, id, id, by simp [hpc, signalled], nofun, by simp [hpc]⟩, rfl,
        rfl, rfl, le_rfl, Or.inl rfl⟩
  case check =>
    obtain rfl := Option.some.inj (touch_eq halive hs)
    refine ⟨⟨id, id, ?_⟩, ⟨rfl, id, id, by simp [hpc, signalled], ?_, by simp [hpc]⟩, rfl, rfl, rfl,
      le_rfl, Or.inl rfl⟩ <;> simp only <;> split <;> simp [signalled]
  case mark =>
    obtain rfl := Option.some.inj (touch_eq halive hs)
    rw [if_neg (by simp [hk.1])]
    exact ⟨⟨fun _ => rfl, id, nofun⟩, ⟨rfl, id, id, by simp [hpc, signalled], nofun, by simp [hpc]⟩,
      rfl, rfl, rfl, le_rfl, Or.inl rfl⟩
  case finish =>
    obtain rfl := Option.some.inj (touch_eq halive hs)
    exact ⟨⟨id, id, nofun⟩, ⟨rfl, id, id, by simp [hpc, signalled], nofun, by simp [hpc]⟩, rfl, rfl,
      rfl, le_rfl, Or.inl rfl⟩
  case signal rc =>
    obtain rfl := Option.some.inj (touch_eq halive hs)
    exact ⟨⟨id, id, nofun⟩,
      ⟨rfl, id, id, fun _ => rfl, fun _ _ => ⟨Nat.le_succ _, Or.inr (Nat.succ_ne_zero _)⟩,
      by simp [hpc]⟩, rfl, rfl, rfl, le_rfl, Or.inl rfl⟩
  case leave rc =>
    obtain rfl := Option.some.inj (touch_eq halive hs)
    refine ⟨⟨id, id, ?_⟩,
      ⟨rfl, id, id, ?_, fun _ _ => ⟨le_rfl, Or.inl (by rw [hpc]; rfl)⟩, by simp [hpc]⟩, rfl, rfl,
      rfl, le_rfl, Or.inl rfl⟩ <;> simp only <;> split <;> simp [signalled]
  case push =>
    obtain rfl := Option.some.inj (touch_eq halive hs)
    rw [if_pos hk.2.1]
    exact ⟨⟨id, id, nofun⟩,
      ⟨rfl, id, id, fun _ => rfl, fun _ _ => ⟨le_rfl, Or.inl (by rw [hpc]; rfl)⟩, by simp [hpc]⟩,
      rfl, rfl, rfl, le_rfl, Or.inl rfl⟩
  case freeWait =>
    have hs := touch_eq halive hs
    split at hs
    · cases hs
    · obtain rfl := Option.some.inj hs
      exact ⟨⟨id, id, nofun⟩,
        ⟨rfl, id, fun _ => rfl, fun _ => rfl, fun _ _ => ⟨le_rfl, Or.inl (by rw [hpc]; rfl)⟩,
        by simp [hpc]⟩, rfl, rfl, rfl, le_rfl, Or.inl rfl⟩
  case free =>
    obtain rfl := Option.some.inj (touch_eq halive hs)
    exact ⟨⟨id, id, nofun⟩,
      ⟨rfl, id, id, fun _ => rfl, fun _ _ => ⟨le_rfl, Or.inl (by rw [hpc]; rfl)⟩, by simp [hpc]⟩,
      rfl, rfl, rfl, Nat.le_succ _, Or.inr hk.2.2.1⟩
  case looping rc =>
    split at hs
    · obtain rfl := Option.some.inj hs
      exact ⟨⟨id, id, nofun⟩,
        ⟨rfl, id, id, fun _ => rfl, fun _ _ => ⟨le_rfl, Or.inl (by rw [hpc]; rfl)⟩, by simp [hpc]⟩,
        rfl, rfl, rfl, le_rfl, Or.inl rfl⟩
    · cases hs

theorem ThreadBooks.fnReturn (h : ThreadBooks s) (v : ℤ) (hpc : s.helper = .running) :
    ThreadBooks { s with ret := some v, helper := .finish } := by
  have hk := h.helper
  have halive := h.alive (by simp [hpc])
  rw [hpc] at hk
  obtain ⟨-, hu, hc, hx, he, hn, hw, ht, hwk, hd, hr, hfr, ha, hlen, hok⟩ := h
  constructor <;> simp_all [HelperKnows, Unclaimed, signalled, beforeFinish, Settled]

theorem ThreadBooks.detach (h : ThreadBooks s) (hpc : s.helper = .running)
    (hstop : s.flags.stopping = false) :
    ThreadBooks { s with flags := { s.flags with detached := true } } := by
  have hk := h.helper
  have halive := h.alive (by simp [hpc])
  rw [hpc] at hk
  obtain ⟨-, hu, hc, hx, he, hn, hw, ht, hwk, hd, hr, hfr, ha, hlen, hok⟩ := h
  constructor <;> simp_all [HelperKnows, Unclaimed, signalled, beforeFinish]

theorem ThreadBooks.cancelPoint (h : ThreadBooks s) (hcancelled : s.cancelled = true) (halive : s.frees = 0) :
    ThreadBooks { s with helper := .exited } := by
  have hclaimed := h.cancelled hcancelled
  obtain ⟨hstopping, hstopped⟩ := h.claimed hclaimed
  have hdet : s.flags.detached = false := by
    by_contra hdet
    have := (h.detached (by simpa using hdet)).1
    simp [hstopping] at this
  obtain ⟨-, hu, hc, hx, he, hn, hw, ht, hwk, hd, hr, hfr, ha, hlen, hok⟩ := h
  constructor <;> simp_all [HelperKnows, Unclaimed, signalled, beforeFinish]

variable {w k : Option T}

theorem ThreadInv.aside (h : ThreadInv w k s) (hb : ThreadBooks s') (ha : Aside s s') : ThreadInv w k s' where
  books := hb
  calls := fun t => ha.pc ▸ (h.calls t).onward ha.onward ha.stopOnward
  wakers := ha.pc ▸ h.wakers
  stoppers := ha.pc ▸ h.stoppers
  waking := ha.waking.trans h.waking
  stopping := fun hk => ha.stopping.trans (h.stopping hk)
  owned := fun hstop hf => h.owned (ha.stopping ▸ hstop) (Nat.le_zero.mp (hf ▸ ha.frees.1))
  ended := fun hf => by
    rcases ha.frees.2 with heq | hdet
    · exact h.ended (heq ▸ hf)
    · by_contra hk
      have hsome := h.stopping (Option.isSome_iff_ne_none.mpr hk)
      rw [(h.books.detached hdet).1] at hsome
      exact nomatch hsome

/-! ## The steps of the calls -/

structure Steady (s s' : ThreadState T) : Prop where
  helper : s'.helper = s.helper
  running : s'.flags.running = s.flags.running
  detached : s'.flags.detached = s.flags.detached
  ret : s'.ret = s.ret
  stopping : s.flags.stopping = true → s'.flags.stopping = true
  claimed : s.claimed = true → s'.claimed = true
  stoppedBit : s.flags.stopped = true → s'.flags.stopped = true
  released : s.released = true → s'.released = true
  stopped : s.stopped = 0 → s'.stopped = 0
  wakeCompletes : s.wakeCompletes ≤ s'.wakeCompletes
  frees : s.frees ≤ s'.frees

theorem Settled.steady (h : Settled s) (hs : Steady s s') : Settled s' :=
  ⟨hs.running ▸ h.1.imp_right hs.stopping, by rw [hs.ret, hs.running]; exact h.2⟩

theorem HelperKnows.steady (h : HelperKnows s s.helper) (hs : Steady s s') : HelperKnows s' s'.helper := by
  rw [hs.helper]
  cases hq : s.helper <;> rw [hq] at h
  case waiting => exact ⟨hs.running.trans h.1, hs.stopped h.2.1, hs.ret.trans h.2.2⟩
  case check =>
    obtain ⟨hrun, hst, hret, hcause⟩ := h
    exact ⟨hs.running.trans hrun, hs.stopped hst, hs.ret.trans hret,
      hcause.imp hs.stopping fun hw => hw.trans_le hs.wakeCompletes⟩
  case mark =>
    exact ⟨hs.running.trans h.1, hs.stopped h.2.1, hs.ret.trans h.2.2.1,
      h.2.2.2.trans_le hs.wakeCompletes⟩
  case running => exact ⟨hs.running.trans h.1, hs.stopped h.2.1, hs.ret.trans h.2.2⟩
  case finish => exact ⟨hs.stopped h.1, h.2.steady hs⟩
  case signal rc =>
    exact ⟨hs.stopped h.1, h.2.1.steady hs, hs.stoppedBit h.2.2.1,
      fun hrc => hs.claimed (h.2.2.2 hrc)⟩
  case leave rc => exact ⟨h.1.steady hs, hs.stoppedBit h.2.1, fun hrc => hs.claimed (h.2.2 hrc)⟩
  case push | freeWait => exact ⟨h.1.steady hs, hs.stoppedBit h.2.1, hs.detached.trans h.2.2⟩
  case free => exact ⟨h.1.steady hs, hs.stoppedBit h.2.1, hs.detached.trans h.2.2.1, hs.released h.2.2.2⟩
  case looping rc =>
    exact ⟨h.1.steady hs, hs.stoppedBit h.2.1, hs.detached.trans h.2.2.1,
      fun hrc => hs.claimed (h.2.2.2 hrc)⟩
  case exited =>
    obtain ⟨hcause, hstopped, hret, hdet⟩ := h
    refine ⟨hs.running ▸ hcause.imp_right hs.stopping, hs.stoppedBit hstopped, fun hc => ?_, fun hd => ?_⟩
    · have hold : s.claimed = false := Bool.eq_false_iff.mpr fun hold => by simp [hs.claimed hold] at hc
      rw [hs.ret, hs.running, hret hold]
    · have := hdet (hs.detached ▸ hd)
      have := hs.frees
      omega

theorem ThreadBooks.wakeBegin (h : ThreadBooks s) (hrel : s.released = false) :
    ThreadBooks { s with flags := { s.flags with waking := true } } :=
  { h with
    helper := h.helper.steady ⟨rfl, rfl, rfl, rfl, id, id, id, id, id, le_rfl, le_rfl⟩
    released := by simp [hrel] }

theorem ThreadBooks.wakeComplete (h : ThreadBooks s) :
    ThreadBooks { s with started := s.started + 1, wakeCompletes := s.wakeCompletes + 1 } :=
  { h with
    helper := h.helper.steady ⟨rfl, rfl, rfl, rfl, id, id, id, id, id, Nat.le_succ _, le_rfl⟩
    woken := fun _ => Nat.succ_pos _
    tokens := fun _ => Or.inr (Nat.succ_pos _) }

theorem ThreadBooks.wakeClear {rc : ℤ} (h : ThreadBooks s)
    (hrc : rc = 0 → s.flags.running = true ∨ s.flags.stopping = true) :
    ThreadBooks { s with
      flags := { s.flags with waking := false }
      wakeups := s.wakeups + if rc = 0 then 1 else 0 } :=
  { h with
    helper := h.helper.steady ⟨rfl, rfl, rfl, rfl, id, id, id, id, id, le_rfl, le_rfl⟩
    wakeups := fun hpos => by
      by_cases hzero : rc = 0
      · exact hrc hzero
      · exact h.wakeups (by simpa [hzero] using hpos)
    released := fun hrel => ⟨rfl, (h.released hrel).2⟩ }

theorem ThreadBooks.stopBegin (h : ThreadBooks s) (hdet : s.flags.detached = false) :
    ThreadBooks { s with flags := { s.flags with stopping := true } } :=
  { h with
    helper := h.helper.steady ⟨rfl, rfl, rfl, rfl, fun _ => rfl, id, id, id, id, le_rfl, le_rfl⟩
    unstopped := nofun
    claimed := fun hc => ⟨rfl, (h.claimed hc).2⟩
    tokens := fun _ => Or.inl rfl
    wakeups := fun _ => Or.inr rfl
    detached := by simp [hdet] }

theorem ThreadBooks.stopComplete (h : ThreadBooks s) (hstop : s.flags.stopping = true) :
    ThreadBooks { s with started := s.started + 1 } :=
  { h with
    helper := h.helper.steady ⟨rfl, rfl, rfl, rfl, id, id, id, id, id, le_rfl, le_rfl⟩
    tokens := fun _ => Or.inl hstop }

theorem ThreadBooks.claim (h : ThreadBooks s) (hstop : s.flags.stopping = true) :
    ThreadBooks { s with flags := { s.flags with stopped := true }, claimed := true } :=
  { h with
    helper := h.helper.steady ⟨rfl, rfl, rfl, rfl, id, fun _ => rfl, fun _ => rfl, id, id, le_rfl, le_rfl⟩
    unstopped := by simp [hstop]
    claimed := fun _ => ⟨hstop, rfl⟩
    cancelled := fun _ => rfl
    early := fun _ _ => rfl }

theorem ThreadBooks.cancel (h : ThreadBooks s) (hclaimed : s.claimed = true) :
    ThreadBooks { s with cancelled := true } :=
  { h with
    helper := h.helper.steady ⟨rfl, rfl, rfl, rfl, id, id, id, id, id, le_rfl, le_rfl⟩
    cancelled := fun _ => hclaimed }

theorem ThreadBooks.take (h : ThreadBooks s) (hstop : s.flags.stopping = true) :
    ThreadBooks { s with stopped := s.stopped - 1 } :=
  { h with
    helper := h.helper.steady ⟨rfl, rfl, rfl, rfl, id, id, id, id, fun hz => by rw [hz], le_rfl, le_rfl⟩
    unstopped := by simp [hstop] }

theorem ThreadBooks.release (h : ThreadBooks s) (hexit : s.helper = .exited)
    (hwaking : s.flags.waking = false) :
    ThreadBooks { s with released := true } :=
  { h with
    helper := h.helper.steady ⟨rfl, rfl, rfl, rfl, id, id, id, fun _ => rfl, id, le_rfl, le_rfl⟩
    released := fun _ => ⟨hwaking, Or.inr hexit⟩
    freed := fun hf => ⟨(h.freed hf).1, hexit, rfl⟩ }

theorem ThreadBooks.free {r : StopAnswer} (h : ThreadBooks s) (hexit : s.helper = .exited)
    (hr : AnswerOk s r) (hrel : s.released = true)
    (hf : s.frees = 0) : ThreadBooks { s with frees := s.frees + 1, answers := r :: s.answers } :=
  { h with
    helper := h.helper.steady ⟨rfl, rfl, rfl, rfl, id, id, id, id, id, le_rfl, Nat.le_succ _⟩
    freed := fun _ => ⟨by rw [hf], hexit, hrel⟩
    answers := fun q hq => by
      rcases List.mem_cons.mp hq with rfl | hq
      · exact ⟨Nat.succ_ne_zero _, hr.onward rfl rfl⟩
      · exact absurd hf (h.answers q hq).1
    length := Nat.succ_le_succ h.length }

theorem StopOnward.same (hclaimed : s'.claimed = s.claimed)
    (hcancelled : s'.cancelled = s.cancelled) (hreleased : s'.released = s.released)
    (hhelper : s'.helper = s.helper) (hstopped : s'.stopped = s.stopped) (hret : s'.ret = s.ret)
    (hrun : s'.flags.running = s.flags.running) :
    StopOnward s s' where
  claimed := hclaimed
  cancelled := fun hc => hcancelled.trans hc
  released := fun hr => hreleased.trans hr
  signals := fun hs => hhelper ▸ hs
  stopped := fun _ hs => ⟨hstopped.ge, Or.inl (hhelper ▸ hs)⟩
  exited := fun he => ⟨hhelper.trans he, hret, hrun⟩

theorem ThreadInv.alive (h : ThreadInv w k s)
    (ht : wakerInside (s.pc t) = true ∨ stopperInside (s.pc t) = true) : s.frees = 0 := by
  by_contra hf
  have hwaking := (h.books.released (h.books.freed hf).2.2).1
  have hnone : w = none := by
    rw [h.waking] at hwaking
    simpa using hwaking
  have hw := h.wakers
  have hk := h.stoppers
  rw [hnone] at hw
  rw [h.ended hf] at hk
  rcases ht with hin | hin
  · rw [hw.free t] at hin
    cases hin
  · rw [hk.free t] at hin
    cases hin

theorem Onward.same (hhelper : s'.helper = s.helper) (hrun : s'.flags.running = s.flags.running)
    (hstop : s'.flags.stopping = s.flags.stopping)
    (hstarted : s.started ≤ s'.started) : Onward s s' :=
  ⟨fun h => hrun.trans h, fun h => hstop.trans h, fun h => ⟨hhelper ▸ h, hstarted⟩⟩

section Calls
variable [DecidableEq T] {x : ThreadState T} {w' k' : Option T}

theorem threadInv_goto (hb : ThreadBooks x) (hpc : x.pc = s.pc) (hme : CallKnows x p)
    (hothers : ∀ u, u ≠ t → CallKnows x (s.pc u)) (hw : HeldBy wakerInside (Function.update s.pc t p) w')
    (hk : HeldBy stopperInside (Function.update s.pc t p) k') (hwaking : x.flags.waking = w'.isSome)
    (hstopping : k'.isSome = true → x.flags.stopping = true)
    (howned : x.flags.stopping = true → x.frees = 0 → k'.isSome = true)
    (hended : x.frees ≠ 0 → k' = none) : ThreadInv w' k' (x.goto t p) where
  books := { hb with }
  calls := fun u => by
    show CallKnows x (Function.update x.pc t p u)
    rw [hpc]
    by_cases hu : u = t
    · subst hu
      rw [Function.update_self]
      exact hme
    · rw [Function.update_of_ne hu]
      exact hothers u hu
  wakers := by
    show HeldBy wakerInside (Function.update x.pc t p) w'
    rw [hpc]
    exact hw
  stoppers := by
    show HeldBy stopperInside (Function.update x.pc t p) k'
    rw [hpc]
    exact hk
  waking := hwaking
  stopping := hstopping
  owned := howned
  ended := hended

theorem ThreadInv.wake (h : ThreadInv w k s) (hb : ThreadBooks x) (hpc : x.pc = s.pc)
    (ht : stopperInside (s.pc t) = false)
    (hp : stopperInside p = false) (ho : Onward s x) (hs : StopOnward s x) (hme : CallKnows x p)
    (hw : HeldBy wakerInside (Function.update s.pc t p) w') (hwaking : x.flags.waking = w'.isSome)
    (hstopping : x.flags.stopping = s.flags.stopping) (hfrees : x.frees = s.frees) :
    ThreadInv w' k (x.goto t p) :=
  threadInv_goto hb hpc hme (fun u _ => (h.calls u).onward ho hs) hw
    (h.stoppers.stay (hp.trans ht.symm)) hwaking
    (fun hk => hstopping.trans (h.stopping hk))
      (fun hstop hf => h.owned (hstopping ▸ hstop) (hfrees ▸ hf)) fun hf => h.ended (hfrees ▸ hf)

theorem stopper_not_waker (hp : stopperInside p = true) : wakerInside p = false := by
  cases p <;> first | rfl | exact nomatch hp

theorem ThreadInv.stop (h : ThreadInv w k s) (hb : ThreadBooks x) (hpc : x.pc = s.pc)
    (ht : stopperInside (s.pc t) = true)
    (hp : stopperInside p = true) (ho : Onward s x) (hme : CallKnows x p)
    (hwaking : x.flags.waking = s.flags.waking)
    (hfrees : x.frees = s.frees) : ThreadInv w k (x.goto t p) := by
  have hk : k = some t := (h.stoppers t).mp ht
  refine threadInv_goto hb hpc hme (fun u hu => (h.calls u).waker ?_ ho) (h.wakers.stay ?_)
    (h.stoppers.stay (hp.trans ht.symm))
    (hwaking.trans h.waking) (fun hsome => ho.stopping (h.stopping hsome))
      (fun _ _ => by rw [hk]; rfl) fun hf => h.ended (hfrees ▸ hf)
  · refine h.stoppers.outside fun heq => hu ?_
    exact (Option.some.inj (hk.symm.trans heq)).symm
  · rw [stopper_not_waker hp, stopper_not_waker ht]

theorem ThreadInv.wakeStep (h : ThreadInv w k s) (hin : wakerInside (s.pc t) = true)
    (hs : threadCall s t = some s') :
    ∃ w', ThreadInv w' k s' := by
  have hknows := h.calls t
  have hw : w = some t := (h.wakers t).mp hin
  have hwaking : s.flags.waking = w.isSome := h.waking
  have halive := h.alive (.inl hin)
  unfold threadCall at hs
  cases hpc : s.pc t <;> simp only [hpc, wakerInside, reduceCtorEq] at hs hknows hin
  case wakeTest =>
    obtain rfl := Option.some.inj (touch_eq halive hs)
    have hstay : ∀ p, wakerInside p = true → HeldBy wakerInside (Function.update s.pc t p) w :=
      fun p hp => h.wakers.stay (by rw [hp, hpc]; rfl)
    refine ⟨w, ?_⟩
    split
    · exact h.wake h.books rfl (by rw [hpc]; rfl) rfl (.same rfl rfl rfl le_rfl)
        (.same rfl rfl rfl rfl rfl rfl rfl)
        (fun hrc => absurd hrc (by decide)) (hstay _ rfl) hwaking rfl rfl
    · exact h.wake h.books rfl (by rw [hpc]; rfl) rfl (.same rfl rfl rfl le_rfl)
        (.same rfl rfl rfl rfl rfl rfl rfl)
        trivial (hstay _ rfl) hwaking rfl rfl
  case wakeComplete =>
    obtain rfl := Option.some.inj (touch_eq halive hs)
    exact ⟨w,
      h.wake h.books.wakeComplete rfl (by rw [hpc]; rfl) rfl (.same rfl rfl rfl (Nat.le_succ _))
      (.same rfl rfl rfl rfl rfl rfl rfl)
      (fun _ => Nat.succ_ne_zero _) (h.wakers.stay (by rw [hpc]; rfl)) hwaking rfl rfl⟩
  case wakeLoad =>
    have hs := touch_eq halive hs
    split at hs
    · rename_i hflags
      obtain rfl := Option.some.inj hs
      exact ⟨w,
        h.wake h.books rfl (by rw [hpc]; rfl) rfl (.same rfl rfl rfl le_rfl)
        (.same rfl rfl rfl rfl rfl rfl rfl)
        (fun _ => Bool.or_eq_true_iff.mp hflags) (h.wakers.stay (by rw [hpc]; rfl)) hwaking rfl rfl⟩
    · cases hs
  case wakeClear rc =>
    obtain rfl := Option.some.inj (touch_eq halive hs)
    have hheld := h.wakers
    rw [hw] at hheld
    exact ⟨none,
      h.wake (h.books.wakeClear hknows) rfl (by rw [hpc]; rfl) rfl (.same rfl rfl rfl le_rfl)
      (.same rfl rfl rfl rfl rfl rfl rfl)
      trivial (hheld.leave rfl) rfl rfl rfl⟩

theorem ThreadInv.stopStep (h : ThreadInv w k s) (hin : stopperInside (s.pc t) = true)
    (hs : threadCall s t = some s') :
    ∃ k', ThreadInv w k' s' := by
  have hknows := h.calls t
  have hk : k = some t := (h.stoppers t).mp hin
  have hstop : s.flags.stopping = true := h.stopping (by rw [hk]; rfl)
  have hsame : ∀ p, stopperInside p = true → CallKnows s p → ThreadInv w k (s.goto t p) := fun p hp hme =>
    h.stop h.books rfl hin hp (.same rfl rfl rfl le_rfl) hme rfl rfl
  have hside := hin
  have halive := h.alive (.inr hin)
  unfold threadCall at hs
  cases hpc : s.pc t <;> simp only [hpc, stopperInside, reduceCtorEq] at hs hknows hin
  case stopTest kill =>
    obtain rfl := Option.some.inj (touch_eq halive hs)
    refine ⟨k, ?_⟩
    split
    · have hbegun : s.helper = .waiting → s.started ≠ 0 := by
        intro hwait
        have hhelper := h.books.helper
        rw [hwait] at hhelper
        simp_all [HelperKnows]
      cases kill with
      | true => exact hsame _ rfl ⟨hknows, hbegun⟩
      | false => exact hsame _ rfl ⟨hknows, hbegun⟩
    · exact hsame _ rfl hknows
  case stopComplete kill =>
    obtain rfl := Option.some.inj (touch_eq halive hs)
    have hinv :=
      fun p hp hme =>
        h.stop (p := p) (h.books.stopComplete hstop) rfl hside hp
          (.same rfl rfl rfl (Nat.le_succ _)) hme rfl rfl
    refine ⟨k, ?_⟩
    cases kill with
    | true => exact hinv .claim rfl ⟨hknows, fun _ => Nat.succ_ne_zero _⟩
    | false => exact hinv (.waitStopped false) rfl ⟨hknows, fun _ => Nat.succ_ne_zero _⟩
  case claim =>
    obtain rfl := Option.some.inj (touch_eq halive hs)
    refine ⟨k, ?_⟩
    split
    · exact hsame _ rfl hknows
    · exact h.stop (h.books.claim hstop) rfl hside rfl (.same rfl rfl rfl le_rfl) ⟨rfl, hknows.2⟩ rfl rfl
  case cancel =>
    obtain rfl := Option.some.inj (touch_eq halive hs)
    exact ⟨k, h.stop (h.books.cancel hknows.1) rfl hside rfl (.same rfl rfl rfl le_rfl) ⟨hknows.1,
      rfl, hknows.2⟩ rfl rfl⟩
  case joinKilled =>
    have hs := touch_eq halive hs
    split at hs
    · obtain rfl := Option.some.inj hs
      exact ⟨k, hsame _ rfl ⟨‹_›, trivial⟩⟩
    · cases hs
  case waitStopped kill =>
    have hs := touch_eq halive hs
    split at hs
    · cases hs
    · obtain rfl := Option.some.inj hs
      have hsig : signalled s.helper = true := by
        have hhelper := h.books.helper
        cases hq : s.helper <;> simp_all [HelperKnows, signalled]
      exact ⟨k, h.stop (h.books.take hstop) rfl hside rfl (.same rfl rfl rfl le_rfl) ⟨hknows.1.1,
        hsig⟩ rfl rfl⟩
  case join kill =>
    have hs := touch_eq halive hs
    split at hs
    · obtain rfl := Option.some.inj hs
      exact ⟨k, hsame _ rfl ⟨hknows.1, ‹_›⟩⟩
    · cases hs
  case readRet kill =>
    obtain rfl := Option.some.inj (touch_eq halive hs)
    obtain ⟨hclaimed, hexit⟩ := hknows
    have hhelper := h.books.helper
    rw [hexit] at hhelper
    refine ⟨k, hsame _ rfl ⟨hexit, ?_⟩⟩
    cases kill with
    | true => trivial
    | false => exact ⟨rfl, hhelper.2.2.1 hclaimed⟩
  case push r =>
    obtain rfl := Option.some.inj (touch_eq halive hs)
    have hhelper := h.books.helper
    rw [hknows.1] at hhelper
    rw [if_pos hhelper.2.1]
    exact ⟨k, hsame _ rfl hknows⟩
  case freeWait r =>
    have hs := touch_eq halive hs
    split at hs
    · cases hs
    · rename_i hwaking
      obtain rfl := Option.some.inj hs
      exact ⟨k,
        h.stop
        (h.books.release hknows.1
        (Bool.eq_false_iff.mpr hwaking)) rfl hside rfl (.same rfl rfl rfl le_rfl)
        ⟨hknows.1, hknows.2, rfl⟩ rfl rfl⟩
  case free r =>
    obtain rfl := Option.some.inj (touch_eq halive hs)
    obtain ⟨hexit, hr, hrel⟩ := hknows
    have hheld := h.stoppers
    rw [hk] at hheld
    refine ⟨none,
      threadInv_goto (s := s) (h.books.free hexit hr hrel halive) rfl trivial (fun u hu => ?_)
      (h.wakers.stay ?_) (hheld.leave rfl) h.waking
      nofun (fun _ hf => absurd hf (Nat.succ_ne_zero _)) fun _ => rfl⟩
    · exact (h.calls u).waker (hheld.outside fun heq => hu (Option.some.inj heq).symm)
        (.same rfl rfl rfl le_rfl)
    · rw [stopper_not_waker hside]
      rfl

/-- A stop or kill that has begun finds the thread alive and not detached. -/
def Entering (s : ThreadState T) : Prop :=
  ∀ t, entering (s.pc t) = true → s.released = false ∧ s.flags.detached = false

omit [DecidableEq T] in
theorem ThreadInv.unfreed (h : ThreadInv w k s) (hrel : s.released = false) : s.frees = 0 := by
  by_contra hf
  rw [(h.books.freed hf).2.2] at hrel
  cases hrel

theorem ThreadInv.enterStep (h : ThreadInv w k s) (he : Entering s) (hin : entering (s.pc t) = true)
    (hs : threadCall s t = some s') :
    ∃ k', ThreadInv w k' s' := by
  obtain ⟨hrel, hdet⟩ := he t hin
  have hfrees := h.unfreed hrel
  have hstay : ∀ p, stopperInside p = false → wakerInside p = false → CallKnows s p →
      ThreadInv w k (s.goto t p) := by
    intro p hp hpw hme
    have hout : stopperInside (s.pc t) = false := by
      cases hpc : s.pc t <;> first | rfl | exact nomatch hpc ▸ hin
    have houtw : wakerInside (s.pc t) = false := by
      cases hpc : s.pc t <;> first | rfl | exact nomatch hpc ▸ hin
    exact h.wake h.books rfl hout hp (.same rfl rfl rfl le_rfl) (.same rfl rfl rfl rfl rfl rfl rfl)
      hme (h.wakers.stay (hpw.trans houtw.symm))
      h.waking rfl rfl
  unfold threadCall at hs
  cases hpc : s.pc t <;> simp only [hpc, entering, reduceCtorEq] at hs hin
  case stopFlags kill =>
    obtain rfl := Option.some.inj (touch_eq hfrees hs)
    exact ⟨k, hstay _ rfl rfl trivial⟩
  case stopSet kill =>
    obtain rfl := Option.some.inj (touch_eq hfrees hs)
    split
    · exact ⟨k, hstay _ rfl rfl trivial⟩
    · rename_i hstop
      have hnone : k = none := by
        by_contra hk
        exact hstop (h.stopping (Option.isSome_iff_ne_none.mpr hk))
      have hheld := h.stoppers
      rw [hnone] at hheld
      refine ⟨some t,
        threadInv_goto (s := s)
        (h.books.stopBegin hdet) rfl (h.books.unstopped (Bool.eq_false_iff.mpr hstop))
        (fun u _ => ?_)
        (h.wakers.stay (by rw [hpc]; rfl)) (hheld.enter rfl) h.waking (fun _ => rfl)
          (fun _ _ => rfl) fun hf => absurd hfrees hf⟩
      exact (h.calls u).waker (hheld.free u) ⟨id, fun _ => rfl, fun hw => ⟨hw, le_rfl⟩⟩

theorem ThreadInv.callStep (h : ThreadInv w k s) (he : Entering s) (hs : threadCall s t = some s') :
    ∃ w' k', ThreadInv w' k' s' := by
  cases hw : wakerInside (s.pc t) with
  | true =>
    obtain ⟨w', hinv⟩ := h.wakeStep hw hs
    exact ⟨w', k, hinv⟩
  | false =>
    cases hk : stopperInside (s.pc t) with
    | true =>
      obtain ⟨k', hinv⟩ := h.stopStep hk hs
      exact ⟨w, k', hinv⟩
    | false =>
      cases hin : entering (s.pc t) with
      | true =>
        obtain ⟨k', hinv⟩ := h.enterStep he hin hs
        exact ⟨w, k', hinv⟩
      | false =>
        have hidle : s.pc t = .idle := by
          cases hpc : s.pc t <;> simp_all [wakerInside, stopperInside, entering]
        rw [threadCall, hidle] at hs
        cases hs

theorem ThreadInv.step {a : ThreadAct T} (h : ThreadInv w k s) (he : Entering s)
    (hgood : ThreadGood s a) (hs : threadStep s a = some s') :
    ∃ w' k', ThreadInv w' k' s' := by
  cases a with
  | helper => exact ⟨w, k, h.aside (h.books.helperStep hs) (threadHelper_aside h.books hs)⟩
  | fnReturn v =>
    simp only [threadStep] at hs
    split at hs
    · rename_i hpc
      obtain rfl := Option.some.inj (touch_eq (h.books.alive (by simp [hpc])) hs)
      exact ⟨w, k, h.aside (h.books.fnReturn v hpc) ⟨⟨id, id, nofun⟩,
        ⟨rfl, id, id, by simp [hpc, signalled], nofun, by simp [hpc]⟩, rfl, rfl, rfl, le_rfl, Or.inl rfl⟩⟩
    · cases hs
  | detach =>
    simp only [threadStep] at hs
    split at hs
    · rename_i hpc
      obtain rfl := Option.some.inj (touch_eq (h.books.alive (by simp [hpc])) hs)
      exact ⟨w, k,
        h.aside (h.books.detach hpc hgood.1) ⟨.same rfl rfl rfl le_rfl,
        .same rfl rfl rfl rfl rfl rfl rfl, rfl, rfl, rfl, le_rfl, Or.inl rfl⟩⟩
    · cases hs
  | cancelPoint =>
    have hside : s.cancelled = true → s.helper ≠ .exited →
        threadStep s .cancelPoint = some { s with helper := .exited } →
        ThreadInv w k { s with helper := .exited } := by
      intro hcancelled hpc hs
      have hclaimed := h.books.cancelled hcancelled
      refine h.aside (h.books.cancelPoint hcancelled (h.books.alive hpc)) ⟨⟨id, id, nofun⟩, ?_, rfl,
        rfl, rfl, le_rfl, Or.inl rfl⟩
      exact ⟨rfl, id, id, fun _ => rfl, by simp [hclaimed], by simp [hpc]⟩
    have hcopy := hs
    simp only [threadStep] at hs
    split at hs
    · rename_i hpc hcancelled
      obtain rfl := Option.some.inj hs
      exact ⟨w, k, hside hcancelled (by simp [hpc]) hcopy⟩
    · rename_i hpc hcancelled
      obtain rfl := Option.some.inj hs
      exact ⟨w, k, hside hcancelled (by simp [hpc]) hcopy⟩
    · cases hs
  | wakeup t =>
    simp only [threadStep] at hs
    split at hs
    · rename_i hpc
      obtain rfl := Option.some.inj (touch_eq (h.unfreed hgood) hs)
      split
      · exact ⟨w, k, h⟩
      · rename_i hwaking
        have hnone : w = none := by
          rw [h.waking] at hwaking
          simpa using hwaking
        have hheld := h.wakers
        rw [hnone] at hheld
        exact ⟨some t, k,
          h.wake (h.books.wakeBegin hgood) rfl (by rw [hpc]; rfl) rfl (.same rfl rfl rfl le_rfl)
          (.same rfl rfl rfl rfl rfl rfl rfl) trivial (hheld.enter rfl) rfl rfl rfl⟩
    · cases hs
  | stop t kill =>
    simp only [threadStep] at hs
    obtain ⟨hrel, hdet⟩ := hgood
    split at hs
    · rename_i hpc
      obtain rfl := Option.some.inj (touch_eq (h.unfreed hrel) hs)
      rw [if_neg (by simp [hdet])]
      exact ⟨w, k,
        h.wake h.books rfl (by rw [hpc]; rfl) rfl (.same rfl rfl rfl le_rfl)
        (.same rfl rfl rfl rfl rfl rfl rfl) trivial
        (h.wakers.stay (by rw [hpc]; rfl)) h.waking rfl rfl⟩
    · cases hs
  | call t => exact h.callStep he hs

omit [DecidableEq T] in
theorem Entering.helperStep (he : Entering s) (hb : ThreadBooks s) (hs : threadHelper s = some s') :
    Entering s' := by
  have hk := hb.helper
  intro t hin
  have ht := he t
  unfold threadHelper ThreadState.touch at hs
  cases hpc : s.helper <;> simp only [hpc] at hs hk <;> grind [HelperKnows]

theorem entering_goto {x : ThreadState T} (hpc : x.pc = s.pc)
    (hp : entering p = true → entering (s.pc t) = true) (u : T)
    (hin : entering ((x.goto t p).pc u) = true) : entering (s.pc u) = true := by
  have hin : entering (Function.update x.pc t p u) = true := hin
  by_cases hu : u = t
  · subst hu
    rw [Function.update_self] at hin
    exact hp hin
  · rwa [Function.update_of_ne hu, hpc] at hin

theorem threadCall_frame (hs : threadCall s t = some s') :
    (∀ u, entering (s'.pc u) = true → entering (s.pc u) = true) ∧ s'.flags.detached = s.flags.detached ∧
      (s'.released = s.released ∨ freeWaits (s.pc t) = true) := by
  unfold threadCall ThreadState.touch at hs
  by_cases hf : s.frees = 0
  · cases hpc : s.pc t <;> simp only [hpc, hf, if_true, reduceCtorEq] at hs
    case freeWait r =>
      split at hs
      · cases hs
      · obtain rfl := Option.some.inj hs
        exact ⟨fun u => entering_goto rfl (by rintro ⟨⟩) u, rfl, Or.inr rfl⟩
    case stopFlags kill =>
      obtain rfl := Option.some.inj hs
      exact ⟨fun u => entering_goto rfl (fun _ => by rw [hpc]; rfl) u, rfl, Or.inl rfl⟩
    all_goals
      repeat' split at hs
      all_goals cases hs
      all_goals first
        | exact ⟨fun u => id, rfl, Or.inl rfl⟩
        | exact ⟨fun u => entering_goto rfl (by rintro ⟨⟩) u, rfl, Or.inl rfl⟩
  · cases hpc : s.pc t <;> simp only [hpc, hf, if_false, reduceCtorEq] at hs <;> obtain rfl :=
      Option.some.inj hs <;>
      exact ⟨fun u => id, rfl, Or.inl rfl⟩

theorem Entering.callStep (he : Entering s)
    (hgood : freeWaits (s.pc t) = true → ∀ u, entering (s.pc u) = false)
    (hs : threadCall s t = some s') : Entering s' := by
  intro u hin
  obtain ⟨hback, hdet, hrel⟩ := threadCall_frame hs
  have hu := hback u hin
  obtain ⟨hfree, hkeep⟩ := he u hu
  refine ⟨?_, hdet.trans hkeep⟩
  rcases hrel with hrel | hwait
  · exact hrel.trans hfree
  · rw [hgood hwait u] at hu
    cases hu

theorem Entering.step {a : ThreadAct T} (he : Entering s) (h : ThreadInv w k s)
    (hgood : ThreadGood s a) (hs : threadStep s a = some s') :
    Entering s' := by
  cases a with
  | helper => exact he.helperStep h.books hs
  | call t => exact he.callStep hgood hs
  | fnReturn v | cancelPoint =>
    intro u hin
    have hu := he u
    unfold threadStep ThreadState.touch at hs
    grind
  | detach =>
    intro u hin
    have hu := hgood.2 u
    unfold threadStep ThreadState.touch at hs
    grind
  | wakeup t =>
    simp only [threadStep] at hs
    split at hs
    · obtain rfl := Option.some.inj (touch_eq (h.unfreed hgood) hs)
      split
      · exact he
      · exact fun u hin => he u (entering_goto rfl (by rintro ⟨⟩) u hin)
    · cases hs
  | stop t kill =>
    obtain ⟨hrel, hdet⟩ := hgood
    simp only [threadStep] at hs
    split at hs
    · obtain rfl := Option.some.inj (touch_eq (h.unfreed hrel) hs)
      rw [if_neg (by simp [hdet])]
      exact fun u _ => ⟨hrel, hdet⟩
    · cases hs

end Calls

theorem threadInit_inv : ThreadInv none none (threadInit : ThreadState T) := by
  refine ⟨?_, fun t => trivial, fun t => ?_, fun t => ?_, rfl, nofun, nofun, fun _ => rfl⟩
  · constructor <;> simp [threadInit, HelperKnows, Unclaimed, signalled]
  · simp [threadInit, wakerInside]
  · simp [threadInit, stopperInside]

end Skp.Process
