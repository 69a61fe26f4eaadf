import Skp.Foundations.Tally
import Skp.Utils.RwlockModel

/-! # What `cnts` counts

The readers that have added their count, the writer that waits and the writer that holds. The reader
at the head of the queue has added its count for good and waits for the writer to leave, so it is
counted while it holds nothing. -/
namespace Skp.Utils
set_option autoImplicit false
open Skp.Foundations

/-! ## The word -/

section Word
variable {cnts : BitVec 32} {n : ℕ}

theorem wmask_eq_zero : cnts &&& qwWmask = 0 ↔ cnts.toNat % 2 ^ 9 = 0 := by
  have hmask : qwWmask.toNat = 2 ^ 9 - 1 := rfl
  rw [← BitVec.toNat_inj, BitVec.toNat_and, hmask, Nat.and_two_pow_sub_one_eq_mod]
  rfl

theorem toNat_locked : (cnts &&& qwLocked).toNat = cnts.toNat % 2 ^ 8 := by
  have hmask : qwLocked.toNat = 2 ^ 8 - 1 := rfl
  rw [BitVec.toNat_and, hmask, Nat.and_two_pow_sub_one_eq_mod]

theorem locked_eq_zero : cnts &&& qwLocked = 0 ↔ cnts.toNat % 2 ^ 8 = 0 := by
  rw [← BitVec.toNat_inj, toNat_locked]
  rfl

theorem toNat_clearWlocked : (clearWlocked cnts).toNat = cnts.toNat - cnts.toNat % 2 ^ 8 := by
  have hdisjoint : (cnts &&& ~~~qwLocked) &&& (cnts &&& qwLocked) = 0#32 := by
    ext i hi
    simp only [BitVec.getElem_and, BitVec.getElem_not, BitVec.getElem_zero]
    cases cnts[i] <;> cases qwLocked[i] <;> rfl
  have hor : (cnts &&& ~~~qwLocked) ||| (cnts &&& qwLocked) = cnts := by
    ext i hi
    simp only [BitVec.getElem_or, BitVec.getElem_and, BitVec.getElem_not]
    cases cnts[i] <;> cases qwLocked[i] <;> rfl
  have hsum : clearWlocked cnts = cnts - (cnts &&& qwLocked) := by
    rw [clearWlocked, eq_comm, BitVec.sub_eq_iff_eq_add, BitVec.add_eq_or_of_and_eq_zero _ _ hdisjoint, hor]
  have hle : cnts &&& qwLocked ≤ cnts := by
    rw [BitVec.le_def, toNat_locked]
    exact Nat.mod_le _ _
  rw [hsum, BitVec.toNat_sub_of_le hle, toNat_locked]

theorem toNat_addBias (h : cnts.toNat < 2 ^ 31) : (cnts + qrBias).toNat = cnts.toNat + 512 := by
  have hbias : qrBias.toNat = 512 := rfl
  rw [BitVec.toNat_add, hbias]
  omega

theorem toNat_subBias (h : 512 ≤ cnts.toNat) : (cnts - qrBias).toNat = cnts.toNat - 512 :=
  BitVec.toNat_sub_of_le h

theorem toNat_addWaiting (h : cnts.toNat < 2 ^ 31) : (cnts + qwWaiting).toNat = cnts.toNat + 256 := by
  have hwaiting : qwWaiting.toNat = 256 := rfl
  rw [BitVec.toNat_add, hwaiting]
  omega

end Word

/-! ## The places -/

/-- A reader that has the lock. -/
def RwlockPc.reads : RwlockPc → Bool
  | .holdRead => true
  | .readUnlock => true
  | _ => false

/-- A reader between an addition and the subtraction that takes it back. -/
def RwlockPc.passes : RwlockPc → Bool
  | .tryReadSub => true
  | .readSub => true
  | _ => false

/-- The reader that has added its count under `wait_lock`. -/
def RwlockPc.heads : RwlockPc → Bool
  | .readSpin => true
  | _ => false

/-- A writer that has set the waiting flag. -/
def RwlockPc.waits : RwlockPc → Bool
  | .writeSpin => true
  | .writeSwapWaiting => true
  | _ => false

/-- A writer that has the lock. -/
def RwlockPc.writes : RwlockPc → Bool
  | .holdWrite => true
  | .writeUnlock => true
  | _ => false

def RwlockPc.passesOrHeads (p : RwlockPc) : Bool := p.passes || p.heads

def RwlockPc.counts (p : RwlockPc) : Bool := p.reads || p.passesOrHeads

/-- A thread that has `wait_lock`. -/
def RwlockPc.queued : RwlockPc → Bool
  | .readAdd => true
  | .readSpin => true
  | .readUnlock => true
  | .writeRead => true
  | .writeSwap => true
  | .writeMark => true
  | .writeSpin => true
  | .writeSwapWaiting => true
  | .writeUnlock => true
  | _ => false

variable {T : Type} [Fintype T] [DecidableEq T]

/-- `cnts` with that many readers in it. -/
def CntsAre (readers : ℕ) (s : RwlockState T) : Prop :=
  s.cnts.toNat = 512 * readers + 256 * census RwlockPc.waits s.pc + 255 * census RwlockPc.writes s.pc

/-- A writer with the lock is alone with it, `cnts` is the count, one writer at most waits, and the
unlock of a writer takes away its byte and nothing else. -/
structure RwlockOk (s : RwlockState T) : Prop where
  excludes : ∀ t u, t ≠ u → (s.pc t).writes = true → (s.pc u).writes = false ∧ (s.pc u).reads = false
  count : CntsAre (census RwlockPc.reads s.pc + census RwlockPc.passes s.pc + census RwlockPc.heads s.pc) s
  oneWaits : census RwlockPc.waits s.pc ≤ 1
  oneWrites : census RwlockPc.writes s.pc ≤ 1
  unlock : ∀ t s', rwlockStep s (.writeUnlock t) = some s' → s.cnts.toNat = s'.cnts.toNat + 255 ∧
    s'.cnts.toNat % 256 = 0

structure RwlockInv (s : RwlockState T) : Prop where
  count : CntsAre (census RwlockPc.counts s.pc) s
  oneWrites : census RwlockPc.writes s.pc ≤ 1
  excludes : 0 < census RwlockPc.writes s.pc → census RwlockPc.reads s.pc = 0
  queue : census RwlockPc.queued s.pc = s.waitLock.toNat

variable {s s' : RwlockState T} {t : T} {p p' : RwlockPc}

omit [DecidableEq T] in
theorem counts_eq : census RwlockPc.counts s.pc =
    census RwlockPc.reads s.pc + census RwlockPc.passes s.pc + census RwlockPc.heads s.pc := by
  have hinner : census RwlockPc.passesOrHeads s.pc = census RwlockPc.passes s.pc +
      census RwlockPc.heads s.pc :=
    census_split (fun _ => rfl) (fun p hp => by cases p <;> first | rfl | cases hp)
  rw [add_assoc, ← hinner]
  exact census_split (fun _ => rfl) fun p hp => by cases p <;> first | rfl | cases hp

theorem writes_not_reads (hp : p.writes = true) : p.reads = false := by
  cases p <;> first | rfl | cases hp

section
omit [DecidableEq T]

theorem reads_le_counts : census RwlockPc.reads s.pc ≤ census RwlockPc.counts s.pc :=
  census_mono fun p hp => by rw [RwlockPc.counts, hp, Bool.true_or]

theorem RwlockInv.oneWaits (h : RwlockInv s) : census RwlockPc.waits s.pc ≤ 1 := by
  have hle : census RwlockPc.waits s.pc ≤ census RwlockPc.queued s.pc :=
    census_mono fun p hp => by cases p <;> first | rfl | cases hp
  have hlock := Bool.toNat_le s.waitLock
  have hqueue := h.queue
  omega

/-- The readers do not run into the sign bit. -/
theorem RwlockInv.bound (h : RwlockInv s) (hcard : Fintype.card T < 2 ^ 22) : s.cnts.toNat < 2 ^ 31 := by
  have hcount : s.cnts.toNat = _ := h.count
  have hcounts : census RwlockPc.counts s.pc ≤ Fintype.card T := census_le_card
  have hwaits := h.oneWaits
  have hwrites := h.oneWrites
  omega

theorem RwlockInv.bias_le (h : RwlockInv s) (hp : (s.pc t).counts = true) : 512 ≤ s.cnts.toNat := by
  have hcount : s.cnts.toNat = _ := h.count
  have hpos := census_pos hp
  omega

theorem RwlockInv.noWriter (h : RwlockInv s) (hlocked : s.cnts.toNat % 2 ^ 8 = 0) :
    census RwlockPc.writes s.pc = 0 := by
  have hcount : s.cnts.toNat = _ := h.count
  have hwrites := h.oneWrites
  omega

end

/-! ## One step -/

/-- What a place has of the lock: a count in the word, the waiting flag, the byte of the writer, a
read lock. -/
structure RwlockShare where
  counts : Bool
  waits : Bool
  writes : Bool
  reads : Bool

def RwlockPc.share (p : RwlockPc) : RwlockShare := ⟨p.counts, p.waits, p.writes, p.reads⟩

/-- Its part of `cnts`. -/
def RwlockShare.weight (a : RwlockShare) : ℕ :=
  512 * a.counts.toNat + 256 * a.waits.toNat + 255 * a.writes.toNat

/-- What a thread may become: a writer if nobody has the lock, a reader if no writer has it. -/
structure Admitted (s : RwlockState T) (a b : RwlockShare) : Prop where
  writer : b.writes = true → a.writes = true ∨
    (census RwlockPc.writes s.pc = 0 ∧ census RwlockPc.reads s.pc = 0)
  reader : b.reads = true → a.reads = true ∨ census RwlockPc.writes s.pc = 0

omit [DecidableEq T] in
theorem Admitted.refl (a : RwlockShare) : Admitted s a a := ⟨Or.inl, Or.inl⟩

omit [DecidableEq T] in
theorem Admitted.of_none {a b : RwlockShare} (hw : b.writes = false) (hr : b.reads = false) :
    Admitted s a b := by
  constructor
  · rw [hw]
    exact fun h => Bool.noConfusion h
  · rw [hr]
    exact fun h => Bool.noConfusion h

/-- A step of one thread: the word and `wait_lock` change as its place does. -/
theorem RwlockInv.move (h : RwlockInv s) (cnts : BitVec 32) (waitLock : Bool) (hp : s.pc t = p)
    (hcnts : cnts.toNat + p.share.weight = s.cnts.toNat + p'.share.weight)
    (hlock : waitLock.toNat + p.queued.toNat = s.waitLock.toNat + p'.queued.toNat)
    (hallow : Admitted s p.share p'.share) :
    RwlockInv ({ s with cnts := cnts, waitLock := waitLock }.goto t p') := by
  have hcounts := census_update RwlockPc.counts s.pc t p'
  have hwaits := census_update RwlockPc.waits s.pc t p'
  have hwrites := census_update RwlockPc.writes s.pc t p'
  have hreads := census_update RwlockPc.reads s.pc t p'
  have hqueued := census_update RwlockPc.queued s.pc t p'
  rw [hp] at hcounts hwaits hwrites hreads hqueued
  simp only [RwlockShare.weight, RwlockPc.share] at hcnts
  have hcount : s.cnts.toNat = _ := h.count
  have hone := h.oneWrites
  have hexcludes := h.excludes
  have hqueue := h.queue
  have hmine : (p.writes).toNat ≤ census RwlockPc.writes s.pc := by
    cases hw : p.writes with
    | false => exact Nat.zero_le _
    | true => exact census_pos (t := t) (by rw [hp, hw])
  refine ⟨?_, ?_, ?_, ?_⟩
  · change cnts.toNat = 512 * census RwlockPc.counts (Function.update s.pc t p') +
      256 * census RwlockPc.waits (Function.update s.pc t p') +
        255 * census RwlockPc.writes (Function.update s.pc t p')
    omega
  · change census RwlockPc.writes (Function.update s.pc t p') ≤ 1
    cases hw' : p'.writes with
    | false =>
      rw [hw', Bool.toNat_false] at hwrites
      omega
    | true =>
      rw [hw', Bool.toNat_true] at hwrites
      rcases hallow.writer hw' with hw | ⟨hzero, -⟩
      · have hold : p.writes = true := hw
        rw [hold, Bool.toNat_true] at hwrites
        omega
      · omega
  · change 0 < census RwlockPc.writes (Function.update s.pc t p') →
      census RwlockPc.reads (Function.update s.pc t p') = 0
    intro hpos
    cases hw' : p'.writes with
    | true =>
      rw [writes_not_reads hw', Bool.toNat_false] at hreads
      rcases hallow.writer hw' with hw | ⟨-, hzero⟩
      · have hold : p.writes = true := hw
        rw [hold, Bool.toNat_true] at hmine
        have hnone := hexcludes hmine
        omega
      · omega
    | false =>
      -- another thread has the write lock, so this one has not become a reader
      rw [hw', Bool.toNat_false] at hwrites
      have hnone := hexcludes (by omega)
      cases hr' : p'.reads with
      | false =>
        rw [hr', Bool.toNat_false] at hreads
        omega
      | true =>
        rw [hr', Bool.toNat_true] at hreads
        rcases hallow.reader hr' with hr | hzero
        · have hold : p.reads = true := hr
          rw [hold, Bool.toNat_true] at hreads
          omega
        · omega
  · change census RwlockPc.queued (Function.update s.pc t p') = waitLock.toNat
    omega

theorem RwlockInv.walk (h : RwlockInv s) (hp : s.pc t = p) (hshare : p'.share = p.share)
    (hqueued : p'.queued = p.queued) :
    RwlockInv (s.goto t p') := by
  refine h.move s.cnts s.waitLock hp ?_ ?_ ?_
  · rw [hshare]
  · rw [hqueued]
  · rw [hshare]
    exact Admitted.refl _

theorem RwlockInv.headReads (h : RwlockInv s) (hp : s.pc t = .readSpin) (hfree : s.cnts &&& qwLocked = 0) :
    RwlockInv (s.goto t .readUnlock) :=
  h.move s.cnts s.waitLock hp rfl rfl ⟨fun hw => Bool.noConfusion hw,
    fun _ => Or.inr (h.noWriter (locked_eq_zero.mp hfree))⟩

/-- The exchange for the write lock, from a word that has no reader and no writer in it. -/
theorem RwlockInv.takeWrite {waits : Bool} (h : RwlockInv s) (hp : s.pc t = p)
    (hshare : p.share = ⟨false, waits, false, false⟩)
    (hshare' : p'.share = ⟨false, false, true, false⟩) (hqueued : p'.queued = p.queued)
    (hword : s.cnts.toNat = 256 * waits.toNat) : RwlockInv ({ s with cnts := qwLocked }.goto t p') := by
  have hlocked : qwLocked.toNat = 255 := rfl
  have hcount : s.cnts.toNat = _ := h.count
  have hle : census RwlockPc.reads s.pc ≤ census RwlockPc.counts s.pc := reads_le_counts
  have hflag := Bool.toNat_le waits
  refine h.move _ s.waitLock hp ?_ ?_ ?_
  · rw [hlocked, hword, hshare, hshare']
    simp only [RwlockShare.weight, Bool.toNat_false, Bool.toNat_true]
    omega
  · rw [hqueued]
  · rw [hshare, hshare']
    exact ⟨fun _ => Or.inr ⟨by omega, by omega⟩, fun hr => Bool.noConfusion hr⟩

theorem RwlockInv.cmpxchg {waits : Bool} {old : BitVec 32} {lost : RwlockPc} (h : RwlockInv s)
    (hp : s.pc t = p)
    (hshare : p.share = ⟨false, waits, false, false⟩) (hold : old.toNat = 256 * waits.toNat)
    (hwon : p'.share = ⟨false, false, true, false⟩) (hwonQueued : p'.queued = p.queued)
    (hlost : lost.share = p.share)
    (hlostQueued : lost.queued = p.queued) : RwlockInv (s.cmpxchg t old qwLocked p' lost) := by
  rw [RwlockState.cmpxchg]
  split
  · rename_i heq
    exact h.takeWrite hp hshare hwon hwonQueued (by rw [heq, hold])
  · exact h.walk hp hlost hlostQueued

theorem RwlockInv.countReader (h : RwlockInv s) (hcard : Fintype.card T < 2 ^ 22) (hp : s.pc t = p)
    (hshare : p.share = ⟨false, false, false, false⟩) {reads : Bool}
    (hshare' : p'.share = ⟨true, false, false, reads⟩)
    (hqueued : p'.queued = p.queued) (hnone : reads = true → census RwlockPc.writes s.pc = 0) :
    RwlockInv ({ s with cnts := s.cnts + qrBias }.goto t p') := by
  refine h.move _ s.waitLock hp ?_ ?_ ?_
  · rw [toNat_addBias (h.bound hcard), hshare, hshare']
    rfl
  · rw [hqueued]
  · rw [hshare, hshare']
    exact ⟨fun hw => Bool.noConfusion hw, fun hr => Or.inr (hnone hr)⟩

/-- The addition that tests afterwards: the reader has the lock if no writer is in the word. -/
theorem RwlockInv.addReader (h : RwlockInv s) (hcard : Fintype.card T < 2 ^ 22) (hp : s.pc t = p)
    (hshare : p.share = ⟨false, false, false, false⟩) (hqueued : p.queued = false)
    (hpass : p'.share = ⟨true, false, false, false⟩) (hpassQueued : p'.queued = false) :
    RwlockInv (s.addReader t p') := by
  rw [RwlockState.addReader]
  split
  · rename_i hfree
    rw [wmask_eq_zero, toNat_addBias (h.bound hcard)] at hfree
    have hholds : RwlockPc.holdRead.share = ⟨true, false, false, true⟩ := rfl
    exact h.countReader hcard hp hshare hholds (by rw [hqueued]; rfl) fun _ => h.noWriter (by omega)
  · exact h.countReader hcard hp hshare hpass (by rw [hqueued, hpassQueued]) fun hr => Bool.noConfusion hr

theorem RwlockInv.subReader {reads : Bool} (h : RwlockInv s) (hp : s.pc t = p)
    (hshare : p.share = ⟨true, false, false, reads⟩)
    (hshare' : p'.share = ⟨false, false, false, false⟩) (hqueued : p'.queued = p.queued) :
    RwlockInv ({ s with cnts := s.cnts - qrBias }.goto t p') := by
  have hbias := h.bias_le (t := t) (by rw [hp]; exact congrArg RwlockShare.counts hshare)
  refine h.move _ s.waitLock hp ?_ ?_ ?_
  · rw [toNat_subBias hbias, hshare, hshare']
    simp only [RwlockShare.weight, Bool.toNat_false, Bool.toNat_true]
    omega
  · rw [hqueued]
  · rw [hshare']
    exact Admitted.of_none rfl rfl

/-- `wait_lock` changes hands. -/
theorem RwlockInv.turnLock {waitLock : Bool} (h : RwlockInv s) (hp : s.pc t = p) (hshare : p'.share = p.share)
    (hlock : waitLock.toNat + p.queued.toNat = s.waitLock.toNat + p'.queued.toNat) :
    RwlockInv ({ s with waitLock := waitLock }.goto t p') := by
  refine h.move s.cnts _ hp ?_ hlock ?_
  · rw [hshare]
  · rw [hshare]
    exact Admitted.refl _

theorem RwlockInv.lockWait (h : RwlockInv s) (hstep : s.lockWait t p' = some s') (hp : s.pc t = p)
    (hshare : p'.share = p.share)
    (hqueued : p.queued = false) (hqueued' : p'.queued = true) : RwlockInv s' := by
  obtain ⟨hfree, heq⟩ := Option.ite_none_right_eq_some.mp hstep
  obtain rfl := Option.some.inj heq
  refine h.turnLock hp hshare ?_
  rw [hfree, hqueued, hqueued']
  rfl

theorem RwlockInv.unlockWait (h : RwlockInv s) (hp : s.pc t = p) (hshare : p'.share = p.share)
    (hqueued : p.queued = true)
    (hqueued' : p'.queued = false) : RwlockInv (s.unlockWait t p') := by
  refine h.turnLock hp hshare ?_
  have hpos : 0 < census RwlockPc.queued s.pc := census_pos (t := t) (by rw [hp, hqueued])
  have hqueue := h.queue
  have hle := Bool.toNat_le s.waitLock
  rw [hqueued, hqueued', Bool.toNat_true, Bool.toNat_false]
  omega

omit [DecidableEq T] in
/-- The byte of the writer is cleared, and only that. -/
theorem RwlockInv.clear (h : RwlockInv s) (hp : s.pc t = .holdWrite) :
    s.cnts.toNat = (clearWlocked s.cnts).toNat + 255 ∧ (clearWlocked s.cnts).toNat % 256 = 0 := by
  have hcount : s.cnts.toNat = _ := h.count
  have hpos : 0 < census RwlockPc.writes s.pc := census_pos (t := t) (by rw [hp]; rfl)
  have hone := h.oneWrites
  rw [toNat_clearWlocked]
  omega

theorem RwlockInv.writeUnlock (h : RwlockInv s) (hp : s.pc t = .holdWrite) :
    RwlockInv ({ s with cnts := clearWlocked s.cnts }.goto t .idle) := by
  have hclear := h.clear hp
  have hweight : RwlockPc.holdWrite.share.weight = 255 := rfl
  have hweight' : RwlockPc.idle.share.weight = 0 := rfl
  refine h.move _ s.waitLock hp ?_ rfl (Admitted.of_none rfl rfl)
  rw [hweight, hweight']
  omega

theorem RwlockInv.mark (h : RwlockInv s) (hcard : Fintype.card T < 2 ^ 22) (hp : s.pc t = .writeMark) :
    RwlockInv ({ s with cnts := s.cnts + qwWaiting }.goto t .writeSpin) := by
  refine h.move _ s.waitLock hp ?_ rfl (Admitted.of_none rfl rfl)
  rw [toNat_addWaiting (h.bound hcard)]
  rfl

/-- A thread tests the word and goes to one of two places, of which neither has more of the lock. -/
theorem RwlockInv.test {c : Prop} [Decidable c] {q : RwlockPc} (h : RwlockInv s) (hp : s.pc t = p)
    (hshare : p'.share = p.share)
    (hqueued : p'.queued = p.queued) (hshare' : q.share = p.share) (hqueued' : q.queued = p.queued) :
    RwlockInv (s.goto t (if c then p' else q)) := by
  split
  · exact h.walk hp hshare hqueued
  · exact h.walk hp hshare' hqueued'

theorem rwlockNext_inv (h : RwlockInv s) (hcard : Fintype.card T < 2 ^ 22) (hp : s.pc t = p) :
    ∀ s', rwlockNext s t p = some s' → RwlockInv s' := by
  intro s' hstep
  cases p with
  | tryReadAdd =>
    rw [rwlockNext, Option.some.injEq] at hstep
    subst hstep
    exact h.addReader hcard hp rfl rfl rfl rfl
  | tryReadSub =>
    rw [rwlockNext, Option.some.injEq] at hstep
    subst hstep
    exact h.subReader hp rfl rfl rfl
  | readSub =>
    rw [rwlockNext, Option.some.injEq] at hstep
    subst hstep
    exact h.subReader hp rfl rfl rfl
  | readQueue =>
    rw [rwlockNext] at hstep
    exact h.lockWait hstep hp rfl rfl rfl
  | readAdd =>
    rw [rwlockNext, Option.some.injEq] at hstep
    subst hstep
    exact h.countReader hcard hp rfl rfl rfl fun hr => Bool.noConfusion hr
  | readSpin =>
    cases hstep
    split
    · rename_i hfree
      exact h.headReads hp hfree
    · exact h.walk hp rfl rfl
  | readUnlock =>
    cases hstep
    exact h.unlockWait hp rfl rfl rfl
  | tryWriteSwap =>
    cases hstep
    exact h.cmpxchg hp rfl rfl rfl rfl rfl rfl
  | writeQueue =>
    rw [rwlockNext] at hstep
    exact h.lockWait hstep hp rfl rfl rfl
  | writeRead =>
    cases hstep
    exact h.test hp rfl rfl rfl rfl
  | writeSwap =>
    cases hstep
    exact h.cmpxchg hp rfl rfl rfl rfl rfl rfl
  | writeMark =>
    rw [rwlockNext, Option.some.injEq] at hstep
    subst hstep
    exact h.mark hcard hp
  | writeSpin =>
    cases hstep
    exact h.test hp rfl rfl rfl rfl
  | writeSwapWaiting =>
    cases hstep
    exact h.cmpxchg hp rfl rfl rfl rfl rfl rfl
  | writeUnlock =>
    cases hstep
    exact h.unlockWait hp rfl rfl rfl
  | idle | holdRead | holdWrite => cases hstep

theorem rwlockStep_inv (h : RwlockInv s) (hcard : Fintype.card T < 2 ^ 22) (a : RwlockAct T) :
    ∀ s', rwlockStep s a = some s' → RwlockInv s' := by
  intro s' hstep
  cases a with
  | readLock t =>
    obtain ⟨hp, heq⟩ := Option.ite_none_right_eq_some.mp hstep
    obtain rfl := Option.some.inj heq
    exact h.addReader hcard hp rfl rfl rfl rfl
  | readTrylock t =>
    obtain ⟨hp, heq⟩ := Option.ite_none_right_eq_some.mp hstep
    obtain rfl := Option.some.inj heq
    exact h.test hp rfl rfl rfl rfl
  | writeLock t =>
    obtain ⟨hp, heq⟩ := Option.ite_none_right_eq_some.mp hstep
    obtain rfl := Option.some.inj heq
    exact h.cmpxchg hp rfl rfl rfl rfl rfl rfl
  | writeTrylock t =>
    obtain ⟨hp, heq⟩ := Option.ite_none_right_eq_some.mp hstep
    obtain rfl := Option.some.inj heq
    exact h.test hp rfl rfl rfl rfl
  | readUnlock t =>
    obtain ⟨hp, heq⟩ := Option.ite_none_right_eq_some.mp hstep
    obtain rfl := Option.some.inj heq
    exact h.subReader hp rfl rfl rfl
  | writeUnlock t =>
    obtain ⟨hp, heq⟩ := Option.ite_none_right_eq_some.mp hstep
    obtain rfl := Option.some.inj heq
    exact h.writeUnlock hp
  | step t => exact rwlockNext_inv h hcard rfl s' hstep

/-! ## Runs -/

theorem RwlockInv.ok (h : RwlockInv s) : RwlockOk s where
  excludes t u hne ht := by
    have hpos := census_pos ht
    refine ⟨?_, census_eq_zero.mp (h.excludes hpos) u⟩
    by_contra hu
    exact hne (census_unique h.oneWrites ht (Bool.not_eq_false _ ▸ hu))
  count := by
    rw [← counts_eq]
    exact h.count
  oneWaits := h.oneWaits
  oneWrites := h.oneWrites
  unlock t s' hstep := by
    obtain ⟨hp, heq⟩ := Option.ite_none_right_eq_some.mp hstep
    obtain rfl := Option.some.inj heq
    exact h.clear hp

omit [DecidableEq T] in
theorem rwlockInv_init : RwlockInv (rwlockInit : RwlockState T) := by
  have hzero : ∀ {f : RwlockPc → Bool}, f .idle = false → census f (fun _ : T => RwlockPc.idle) = 0 :=
    fun hf => census_eq_zero.mpr fun _ => hf
  refine ⟨?_, ?_, fun _ => hzero rfl, hzero rfl⟩
  · change 0 = 512 * census RwlockPc.counts (fun _ : T => RwlockPc.idle) +
      256 * census RwlockPc.waits (fun _ : T => RwlockPc.idle) +
      255 * census RwlockPc.writes (fun _ : T => RwlockPc.idle)
    rw [hzero rfl, hzero rfl, hzero rfl]
  · change census RwlockPc.writes (fun _ : T => RwlockPc.idle) ≤ 1
    rw [hzero rfl]
    exact Nat.zero_le 1

/-- In every run of fewer than `2 ^ 22` threads. -/
theorem rwlock_ok (hcard : Fintype.card T < 2 ^ 22) (as : List (RwlockAct T)) (s : RwlockState T)
    (hrun : runActs rwlockStep rwlockInit as = some s) : RwlockOk s := by
  have hinv : RwlockInv s :=
    run_invariant (fun s a s' h _ hstep => rwlockStep_inv h hcard a s' hstep) as _ s rwlockInv_init
    (runMeets_trivial as _) hrun
  exact hinv.ok

/-- The writer `(false, false)` holds, the reader `(false, true)` takes its count back and the
reader `(true, false)` is at the head of the queue; then the writer unlocks, the head goes first,
and the writer `(true, true)` waits for it. -/
def contendedRun : List (RwlockAct (Bool × Bool)) :=
  [.writeLock (false, false), .readTrylock (false, true), .readLock (true, false),
    .step (true, false), .step (true, false),
    .readLock (false, true), .step (true, false), .writeUnlock (false, false), .step (false, true),
    .step (true, false),
    .step (true, false), .writeLock (true, true), .step (true, true), .step (true, true), .step (true, true),
    .readUnlock (true, false), .step (true, true), .step (true, true), .step (true, true),
    .writeTrylock (false, false)]

theorem rwlock_ok_contendedRun : ∃ s, runActs rwlockStep rwlockInit contendedRun = some s ∧
      s.cnts = qwLocked ∧
    s.pc (true, true) = .holdWrite ∧ s.pc (false, true) = .readQueue ∧ RwlockOk s := by
  have hfinal : (runActs rwlockStep rwlockInit contendedRun).map
      (fun s => (s.cnts, s.pc (true, true), s.pc (false, true))) =
      some (qwLocked, .holdWrite, .readQueue) := by decide +kernel
  obtain ⟨s, hs, hvalues⟩ := Option.map_eq_some_iff.mp hfinal
  obtain ⟨hcnts, hvalues⟩ := Prod.mk.inj hvalues
  obtain ⟨hwriter, hreader⟩ := Prod.mk.inj hvalues
  exact ⟨s, hs, hcnts, hwriter, hreader, rwlock_ok (by decide) contendedRun s hs⟩

/-- The reader at the head of the queue is in the word while the writer holds. -/
theorem rwlock_counts_head : ∃ s, runActs rwlockStep rwlockInit
      [.writeLock false, .readLock true, .step true, .step true, .step true] = some s ∧
    s.cnts = 767 ∧ (s.pc false).writes = true ∧ s.pc true = .readSpin ∧
    ¬ CntsAre (census RwlockPc.reads s.pc + census RwlockPc.passes s.pc) s := by
  refine ⟨_, rfl, rfl, rfl, rfl, ?_⟩
  rw [CntsAre]
  decide +kernel

end Skp.Utils
