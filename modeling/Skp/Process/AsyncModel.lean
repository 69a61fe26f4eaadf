import Skp.Foundations.Runs

/-! # The async notifier of `src/process/event.c`

`__uev_async_emit` and `async_stream_cb` over one registered `struct uev_async`, at the granularity of
their atomic steps and system calls. Any number of threads emit; the reactor may run the callback on any
thread. The counter is an `int` that wraps; the pipe is counted in bytes and a write to a full pipe
fails with `EAGAIN`, which the emitter ignores. -/

namespace Skp.Process
set_option autoImplicit false
open Skp.Foundations

section Model
/-- Where a run of `async_stream_cb` stands: not running, after the exchange and before the read that
ends the drain, or about to call `func`. -/
inductive CbPc where
  | idle
  | drain
  | call
deriving DecidableEq

/-- `writing t` holds while thread `t` is between its increment to zero and its `write`. The last field
records whether an emit has not been followed by a call of `func` yet. -/
structure AsyncState (T : Type) where
  nrCnt : BitVec 32
  pipe : ℕ
  writing : T → Bool
  cb : T → CbPc
  unserved : Bool

inductive AsyncAct (T : Type) where
  | emitInc (t : T)
  | emitWrite (t : T)
  | cbXchg (t : T)
  | cbRead (t : T)
  | cbFunc (t : T)

def pipeCapacity : ℕ := 65536

/-- `ARRAY_SIZE(buff)` of the callback. -/
def drainBuff : ℕ := 32

/-- The value `uev_async_init` gives the counter. -/
def idleCnt : BitVec 32 := -1

variable {T : Type} [DecidableEq T]

def asyncInit : AsyncState T where
  nrCnt := idleCnt
  pipe := 0
  writing := fun _ => false
  cb := fun _ => .idle
  unserved := false

/-- One step. A `read` of an empty pipe returns `-1`, which the comparison with the unsigned buffer size
takes for a full buffer, so the loop goes on as after a full read. -/
def asyncStep (s : AsyncState T) : AsyncAct T → Option (AsyncState T)
  | .emitInc t =>
      if s.writing t then none
      else some { s with
        nrCnt := s.nrCnt + 1
        writing := Function.update s.writing t (s.nrCnt + 1 == 0)
        unserved := true }
  | .emitWrite t =>
      if s.writing t then
        some { s with pipe := min (s.pipe + 1) pipeCapacity, writing := Function.update s.writing t false }
      else none
  | .cbXchg t =>
      if s.cb t = .idle then some { s with nrCnt := idleCnt, cb := Function.update s.cb t .drain } else none
  | .cbRead t =>
      if s.cb t = .drain then
        let b := min s.pipe drainBuff
        some { s with
          pipe := s.pipe - b
          cb := Function.update s.cb t (if 0 < b ∧ b < drainBuff then .call else .drain) }
      else none
  | .cbFunc t =>
      if s.cb t = .call then some { s with cb := Function.update s.cb t .idle, unserved := false } else none

end Model

/-! ## Wake-ups of the async notifier

The callback exchanges the counter before it drains the pipe. An emitter that increments after the
exchange and writes before the last read loses its byte to that drain: the counter stays off its idle
value with nothing in the pipe, and no later emit writes again. As long as no byte is written in that
window, no wake-up is lost. -/

section Wakeup
variable {T : Type}

/-- With the counter off its idle value and no callback between its exchange and its call of `func`, a
byte is in the pipe or an emitter is about to write one. -/
def WakeupPending (s : AsyncState T) : Prop :=
  s.nrCnt ≠ idleCnt → (∀ t, s.cb t = .idle) → 0 < s.pipe ∨ ∃ t, s.writing t = true

/-- An emit that `func` has not followed yet still has a byte, a writer or a running callback. -/
def EmitServed (s : AsyncState T) : Prop :=
  s.unserved = true → 0 < s.pipe ∨ (∃ t, s.writing t = true) ∨ ∃ t, s.cb t ≠ .idle

/-- The emitter's `write` does not fall between the exchange and the last read of a callback; such a
write is harmless when the counter is idle again or another emitter is still about to write. -/
def WriteOutsideDrain (s : AsyncState T) : AsyncAct T → Prop
  | .emitWrite t => (∀ c, s.cb c ≠ .drain) ∨ s.nrCnt = idleCnt ∨ ∃ u, u ≠ t ∧ s.writing u = true
  | _ => True

structure AsyncInv (s : AsyncState T) : Prop where
  live : s.nrCnt ≠ idleCnt → 0 < s.pipe ∨ ∃ t, s.writing t = true
  drain : ∀ c, s.cb c = .drain → s.nrCnt ≠ idleCnt → ∃ t, s.writing t = true
  served : EmitServed s

theorem asyncInv_init : AsyncInv (asyncInit : AsyncState T) where
  live := fun h => absurd rfl h
  drain := fun c h => by simp [asyncInit] at h
  served := fun h => by simp [asyncInit] at h

theorem incr_eq_zero_iff (v : BitVec 32) : v + 1 = 0 ↔ v = idleCnt := by
  unfold idleCnt
  constructor
  · intro h
    bv_omega
  · rintro rfl
    rfl

variable [DecidableEq T]

theorem emitInc_writing (s : AsyncState T) (t : T) (h : s.nrCnt = idleCnt) :
    Function.update s.writing t (s.nrCnt + 1 == 0) t = true := by
  rw [Function.update_self, beq_iff_eq]
  exact (incr_eq_zero_iff s.nrCnt).mpr h

theorem emitInc_keeps_writer (s : AsyncState T) {t u : T} (ht : s.writing t = false)
    (hu : s.writing u = true) :
    Function.update s.writing t (s.nrCnt + 1 == 0) u = true := by
  have hne : u ≠ t := by
    rintro rfl
    rw [ht] at hu
    exact Bool.noConfusion hu
  rw [Function.update_of_ne hne]
  exact hu

theorem pipe_after_write_pos (n : ℕ) : 0 < min (n + 1) pipeCapacity := by
  unfold pipeCapacity
  omega

theorem asyncInv_emitInc {s : AsyncState T} (h : AsyncInv s) {t : T} (ht : s.writing t = false) :
    AsyncInv { s with
      nrCnt := s.nrCnt + 1
      writing := Function.update s.writing t (s.nrCnt + 1 == 0)
      unserved := true } := by
  have hany : 0 < s.pipe ∨ ∃ u, Function.update s.writing t (s.nrCnt + 1 == 0) u = true := by
    by_cases hidle : s.nrCnt = idleCnt
    · exact Or.inr ⟨t, emitInc_writing s t hidle⟩
    · rcases h.live hidle with hp | ⟨u, hu⟩
      · exact Or.inl hp
      · exact Or.inr ⟨u, emitInc_keeps_writer s ht hu⟩
  refine ⟨fun _ => hany, ?_, fun _ => hany.imp_right Or.inl⟩
  intro c hc _
  by_cases hidle : s.nrCnt = idleCnt
  · exact ⟨t, emitInc_writing s t hidle⟩
  · obtain ⟨u, hu⟩ := h.drain c hc hidle
    exact ⟨u, emitInc_keeps_writer s ht hu⟩

theorem asyncInv_emitWrite {s : AsyncState T} {t : T}
    (hgood : WriteOutsideDrain s (.emitWrite t)) :
    AsyncInv { s with
      pipe := min (s.pipe + 1) pipeCapacity
      writing := Function.update s.writing t false } := by
  refine ⟨fun _ => Or.inl (pipe_after_write_pos s.pipe), ?_, fun _ => Or.inl (pipe_after_write_pos s.pipe)⟩
  intro c hc hidle
  rcases hgood with hno | hcnt | ⟨u, hne, hu⟩
  · exact absurd hc (hno c)
  · exact absurd hcnt hidle
  · exact ⟨u, by simpa [hne] using hu⟩

theorem asyncInv_cbXchg {s : AsyncState T} (t : T) :
    AsyncInv { s with nrCnt := idleCnt, cb := Function.update s.cb t .drain } where
  live := fun h => absurd rfl h
  drain := fun _ _ h => absurd rfl h
  served := fun _ => Or.inr (Or.inr ⟨t, by simp⟩)

theorem asyncInv_cbRead {s : AsyncState T} (h : AsyncInv s) {t : T} (ht : s.cb t = .drain) (n : ℕ) (pc : CbPc)
    (hpc : pc ≠ .idle) : AsyncInv { s with pipe := n, cb := Function.update s.cb t pc } := by
  refine ⟨fun hidle => Or.inr (h.drain t ht hidle), ?_, fun _ => Or.inr (Or.inr ⟨t, by simpa using hpc⟩)⟩
  intro c hc hidle
  exact h.drain t ht hidle

theorem asyncInv_cbFunc {s : AsyncState T} (h : AsyncInv s) (t : T) :
    AsyncInv { s with cb := Function.update s.cb t .idle, unserved := false } := by
  refine ⟨h.live, ?_, fun hu => absurd hu Bool.false_ne_true⟩
  intro c hc hidle
  by_cases he : c = t
  · simp [he] at hc
  · exact h.drain c (by simpa [he] using hc) hidle

theorem asyncStep_inv (s : AsyncState T) (a : AsyncAct T) (s' : AsyncState T) (h : AsyncInv s)
    (hgood : WriteOutsideDrain s a) (hs : asyncStep s a = some s') : AsyncInv s' := by
  cases a with
  | emitInc t =>
    by_cases ht : s.writing t = true
    · simp [asyncStep, ht] at hs
    · simp only [asyncStep, if_neg ht, Option.some.injEq] at hs
      subst hs
      exact asyncInv_emitInc h (by simpa using ht)
  | emitWrite t =>
    by_cases ht : s.writing t = true
    · simp only [asyncStep, if_pos ht, Option.some.injEq] at hs
      subst hs
      exact asyncInv_emitWrite hgood
    · simp [asyncStep, ht] at hs
  | cbXchg t =>
    by_cases ht : s.cb t = .idle
    · simp only [asyncStep, if_pos ht, Option.some.injEq] at hs
      subst hs
      exact asyncInv_cbXchg t
    · simp [asyncStep, ht] at hs
  | cbRead t =>
    by_cases ht : s.cb t = .drain
    · simp only [asyncStep, if_pos ht, Option.some.injEq] at hs
      subst hs
      refine asyncInv_cbRead h ht _ _ ?_
      split <;> simp
    · simp [asyncStep, ht] at hs
  | cbFunc t =>
    by_cases ht : s.cb t = .call
    · simp only [asyncStep, if_pos ht, Option.some.injEq] at hs
      subst hs
      exact asyncInv_cbFunc h t
    · simp [asyncStep, ht] at hs

/-- In every run in which no byte is written into a drain, no wake-up is lost. -/
theorem async_wakeup_not_lost (as : List (AsyncAct T)) (s : AsyncState T)
    (hgood : RunMeets asyncStep WriteOutsideDrain asyncInit as)
    (hrun : runActs asyncStep asyncInit as = some s) :
    WakeupPending s ∧ EmitServed s := by
  have hinv := run_invariant asyncStep_inv as asyncInit s asyncInv_init hgood hrun
  exact ⟨fun hidle _ => hinv.live hidle, hinv.served⟩

/-- Thread 2 increments during the drain and writes after its last read. -/
def lateWrite : List (AsyncAct (Fin 4)) :=
  [.emitInc 1, .emitWrite 1, .cbXchg 0, .emitInc 2, .cbRead 0, .emitWrite 2, .cbFunc 0]

theorem async_wakeup_not_lost_lateWrite :
    ∃ s, runActs asyncStep asyncInit lateWrite = some s ∧ s.nrCnt ≠ idleCnt ∧ WakeupPending s := by
  have hmeets : RunMeets asyncStep WriteOutsideDrain asyncInit lateWrite := by
    refine .cons rfl trivial (.cons rfl (Or.inl ?_) (.cons rfl trivial (.cons rfl trivial (.cons rfl trivial
      (.cons rfl (Or.inl ?_) (.cons rfl trivial trivial))))))
    · decide
    · decide
  refine ⟨_, rfl, by decide, ?_⟩
  exact (async_wakeup_not_lost lateWrite _ hmeets rfl).1

/-- Thread 2 increments and writes between the exchange and the read of the callback. -/
def writeIntoDrain : List (AsyncAct (Fin 4)) :=
  [.emitInc 1, .emitWrite 1, .cbXchg 0, .emitInc 2, .emitWrite 2, .cbRead 0, .cbFunc 0]

/-- The counter is left at zero over an empty pipe, and the next emit is never served. -/
theorem async_wakeup_lost :
    ∃ s, runActs asyncStep asyncInit writeIntoDrain = some s ∧ ¬ WakeupPending s ∧
      ∃ s', asyncStep s (.emitInc 3) = some s' ∧ ¬ EmitServed s' := by
  refine ⟨_, rfl, ?_, _, rfl, ?_⟩
  · unfold WakeupPending
    decide
  · unfold EmitServed
    decide

end Wakeup

end Skp.Process
