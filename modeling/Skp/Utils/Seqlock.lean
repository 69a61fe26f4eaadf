import Skp.Foundations.Runs
import Skp.Foundations.Holder

/-! # The sequence lock of `include/skp/utils/seqlock.h`

Any number of writers and readers of words `I` with values `V` under one `seqlock_t`. Each access to
`sequence`, to `lock` and to a word is a step; the barriers keep the accesses of a thread in the
order of the code. `ticks` and the second argument of `reading` are not in the code: they count the
increments of `sequence` so far, and those before the reader's section began. -/

namespace Skp.Utils
set_option autoImplicit false
open Skp.Foundations

section Model
/-- Where a thread is: outside, in `write_seqlock` before the increment, in a write section, in
`write_sequnlock` before the unlock, in a read section with the value of `read_seqbegin` and what it
has read, or behind its loop with what it took. -/
inductive SeqPc (I V : Type) where
  | idle
  | locked
  | writing
  | unlocking
  | reading (iv : BitVec 32) (start : ℕ) (seen : List (I × V))
  | took (seen : List (I × V))

structure SeqState (T I V : Type) where
  sequence : BitVec 32
  lock : Option T
  data : I → V
  pc : T → SeqPc I V
  ticks : ℕ

inductive SeqAct (T I V : Type) where
  | writeSeqlock (t : T)
  | writeTryseqlock (t : T)
  | begin (t : T)
  | store (t : T) (i : I) (v : V)
  | writeSequnlock (t : T)
  | unlock (t : T)
  | readSeqbegin (t : T)
  | load (t : T) (i : I)
  | readSeqretry (t : T)
  | leave (t : T)

/-- True when the section is to be repeated. -/
def readSeqretry (sequence iv : BitVec 32) : Bool := decide ((iv &&& 1) ||| (sequence ^^^ iv) ≠ 0)

variable {T I V : Type} [DecidableEq T]

def SeqState.goto (s : SeqState T I V) (t : T) (p : SeqPc I V) : SeqState T I V :=
  { s with pc := Function.update s.pc t p }

def SeqState.tick (s : SeqState T I V) : SeqState T I V :=
  { s with sequence := s.sequence + 1, ticks := s.ticks + 1 }

variable [DecidableEq I]

def seqStep (s : SeqState T I V) : SeqAct T I V → Option (SeqState T I V)
  | .writeSeqlock t =>
      match s.pc t, s.lock with
      | .idle, none => some ({ s with lock := some t }.goto t .locked)
      | _, _ => none
  | .writeTryseqlock t =>
      match s.pc t, s.lock with
      | .idle, none => some ({ s with lock := some t }.goto t .locked)
      | .idle, some _ => some s
      | _, _ => none
  | .begin t =>
      match s.pc t with
      | .locked => some (s.tick.goto t .writing)
      | _ => none
  | .store t i v =>
      match s.pc t with
      | .writing => some { s with data := Function.update s.data i v }
      | _ => none
  | .writeSequnlock t =>
      match s.pc t with
      | .writing => some (s.tick.goto t .unlocking)
      | _ => none
  | .unlock t =>
      match s.pc t with
      | .unlocking => some ({ s with lock := none }.goto t .idle)
      | _ => none
  | .readSeqbegin t =>
      match s.pc t with
      | .idle => some (s.goto t (.reading s.sequence s.ticks []))
      | _ => none
  | .load t i =>
      match s.pc t with
      | .reading iv start seen => some (s.goto t (.reading iv start ((i, s.data i) :: seen)))
      | _ => none
  | .readSeqretry t =>
      match s.pc t with
      | .reading iv _ seen => some (s.goto t (if readSeqretry s.sequence iv then .idle else .took seen))
      | _ => none
  | .leave t =>
      match s.pc t with
      | .took _ => some (s.goto t .idle)
      | _ => none

/-- `seqlock_init` of words that hold `data`. -/
def seqInit (data : I → V) : SeqState T I V where
  sequence := 0
  lock := none
  data := data
  pc := fun _ => .idle
  ticks := 0

end Model

/-! ## What a reader takes is one state of the data

The sequence is odd exactly while a write section is open. A reader that goes on without a retry saw
no increment, unless there were 2^32 of them, so no section was open since it began and every word
it read is still there. -/

section Snapshot
variable {T I V : Type} {s s' : SeqState T I V} {t u : T}

def writerInside : SeqPc I V → Bool
  | .locked | .writing | .unlocking => true
  | _ => false

/-- The reader's section began after `start` increments; with none since and no write section open,
what it read is still there. -/
def ReaderKnows (s : SeqState T I V) : SeqPc I V → Prop
  | .reading iv start seen => iv = BitVec.ofNat 32 start ∧ start ≤ s.ticks ∧
      (start = s.ticks → s.ticks % 2 = 0 → ∀ r ∈ seen, s.data r.1 = r.2)
  | _ => True

structure SeqInv (s : SeqState T I V) : Prop where
  sequence : s.sequence = BitVec.ofNat 32 s.ticks
  held : HeldBy writerInside s.pc s.lock
  odd : s.ticks % 2 = 1 ↔ ∃ t, s.pc t = .writing
  readers : ∀ t, ReaderKnows s (s.pc t)

theorem readSeqretry_eq_false {start n : ℕ} :
    readSeqretry (BitVec.ofNat 32 n) (BitVec.ofNat 32 start) = false ↔ start % 2 = 0 ∧
      n % 2 ^ 32 = start % 2 ^ 32 := by
  have heven : BitVec.ofNat 32 start &&& 1 = 0#32 ↔ start % 2 = 0 := by
    rw [← BitVec.toNat_inj, BitVec.toNat_and, BitVec.toNat_ofNat, show (1 : BitVec 32).toNat = 1
      from rfl, Nat.and_one_is_mod]
    show start % 2 ^ 32 % 2 = 0 ↔ _
    omega
  rw [readSeqretry, decide_eq_false_iff_not, not_not, ← heven]
  show BitVec.ofNat 32 start &&& 1 ||| (BitVec.ofNat 32 n ^^^ BitVec.ofNat 32 start) = 0#32 ↔ _
  rw [BitVec.or_eq_zero_iff, BitVec.xor_eq_zero_iff, ← BitVec.toNat_inj (x := BitVec.ofNat 32 n),
    BitVec.toNat_ofNat, BitVec.toNat_ofNat]

/-! ## Steps -/

theorem ReaderKnows.later {p : SeqPc I V} (h : ReaderKnows s p) (hticks : s.ticks < s'.ticks) :
    ReaderKnows s' p := by
  cases p with
  | reading iv start seen =>
    exact ⟨h.1, h.2.1.trans hticks.le, fun heq => absurd heq (by have := h.2.1; omega)⟩
  | _ => trivial

theorem ReaderKnows.same {p : SeqPc I V} (h : ReaderKnows s p) (hticks : s'.ticks = s.ticks)
    (hdata : s.ticks % 2 = 0 → s'.data = s.data) :
    ReaderKnows s' p := by
  cases p with
  | reading iv start seen =>
    refine ⟨h.1, hticks ▸ h.2.1, fun heq heven => ?_⟩
    rw [hticks] at heq heven
    rw [hdata heven]
    exact h.2.2 heq heven
  | _ => trivial

theorem seqInit_inv (data : I → V) : SeqInv (seqInit data : SeqState T I V) where
  sequence := rfl
  held := fun t => by simp [seqInit, writerInside]
  odd := by simp [seqInit]
  readers := fun t => trivial

section Steps
variable [DecidableEq T]

theorem odd_goto {p : SeqPc I V} (h : s.ticks % 2 = 1 ↔ ∃ t, s.pc t = .writing)
    (ht : s.pc t ≠ .writing) (hp : p ≠ .writing) :
    s.ticks % 2 = 1 ↔ ∃ u, Function.update s.pc t p u = .writing := by
  rw [h]
  constructor
  · rintro ⟨u, hu⟩
    have hut : u ≠ t := fun heq => ht (heq ▸ hu)
    exact ⟨u, (Function.update_of_ne hut _ _).trans hu⟩
  · rintro ⟨u, hu⟩
    by_cases hut : u = t
    · subst hut
      exact absurd ((Function.update_self u p s.pc).symm.trans hu) hp
    · exact ⟨u, (Function.update_of_ne hut _ _).symm.trans hu⟩

theorem readers_goto {p : SeqPc I V} (h : ∀ u, u ≠ t → ReaderKnows s' (s.pc u))
    (hp : ReaderKnows s' p) (hpc : s'.pc = Function.update s.pc t p) :
    ∀ u, ReaderKnows s' (s'.pc u) := by
  intro u
  rw [hpc]
  by_cases hut : u = t
  · subst hut
    rw [Function.update_self]
    exact hp
  · rw [Function.update_of_ne hut]
    exact h u hut

theorem SeqInv.move {p : SeqPc I V} {lock : Option T} (h : SeqInv s)
    (hheld : HeldBy writerInside (Function.update s.pc t p) lock)
    (ht : s.pc t ≠ .writing) (hp : p ≠ .writing) (hknows : ReaderKnows s p) :
    SeqInv ({ s with lock := lock }.goto t p) where
  sequence := h.sequence
  held := hheld
  odd := odd_goto (s := { s with lock := lock }) h.odd ht hp
  readers := readers_goto (fun u _ => (h.readers u).same rfl fun _ => rfl) (hknows.same rfl fun _ => rfl) rfl

theorem SeqInv.tick {p : SeqPc I V} (h : SeqInv s) (ht : writerInside (s.pc t) = true)
    (hp : writerInside p = true)
    (hflip : p = .writing ↔ s.pc t ≠ .writing) : SeqInv (s.tick.goto t p) where
  sequence := by
    show s.sequence + 1 = BitVec.ofNat 32 (s.ticks + 1)
    rw [h.sequence, BitVec.ofNat_add]
    rfl
  held := h.held.stay (hp.trans ht.symm)
  odd := by
    have hodd := h.odd
    have hone : ∀ u, s.pc u = .writing → u = t := fun u hu => h.held.unique (by rw [hu]; rfl) ht
    show (s.ticks + 1) % 2 = 1 ↔ ∃ u, Function.update s.pc t p u = .writing
    have hnew : (∃ u, Function.update s.pc t p u = .writing) ↔ p = .writing := by
      constructor
      · rintro ⟨u, hu⟩
        by_cases hut : u = t
        · subst hut
          rwa [Function.update_self] at hu
        · rw [Function.update_of_ne hut] at hu
          exact absurd (hone u hu) hut
      · exact fun heq => ⟨t, (Function.update_self t p s.pc).trans heq⟩
    have hold : (∃ u, s.pc u = .writing) ↔ s.pc t = .writing :=
      ⟨fun ⟨u, hu⟩ => hone u hu ▸ hu, fun heq => ⟨t, heq⟩⟩
    rw [hnew, hflip, Ne, ← hold, ← hodd]
    omega
  readers := by
    refine readers_goto (fun u _ => (h.readers u).later (Nat.lt_succ_self _)) ?_ rfl
    cases p <;> trivial

variable [DecidableEq I]

theorem SeqInv.step {a : SeqAct T I V} (h : SeqInv s) (hs : seqStep s a = some s') : SeqInv s' := by
  cases a with
  | writeSeqlock t =>
    simp only [seqStep] at hs
    split at hs
    · obtain rfl := Option.some.inj hs
      have hheld := h.held
      rw [‹s.lock = none›] at hheld
      exact h.move (hheld.enter rfl) (by simp [‹s.pc t = .idle›]) (by simp) trivial
    · exact nomatch hs
  | writeTryseqlock t =>
    simp only [seqStep] at hs
    split at hs
    · obtain rfl := Option.some.inj hs
      have hheld := h.held
      rw [‹s.lock = none›] at hheld
      exact h.move (hheld.enter rfl) (by simp [‹s.pc t = .idle›]) (by simp) trivial
    · exact Option.some.inj hs ▸ h
    · exact nomatch hs
  | begin t =>
    simp only [seqStep] at hs
    split at hs
    · obtain rfl := Option.some.inj hs
      exact h.tick (by rw [‹s.pc t = .locked›]; rfl) rfl (by simp [‹s.pc t = .locked›])
    · exact nomatch hs
  | store t i v =>
    simp only [seqStep] at hs
    split at hs
    · obtain rfl := Option.some.inj hs
      have hodd := h.odd.mpr ⟨t, ‹_›⟩
      exact ⟨h.sequence, h.held, h.odd, fun u => (h.readers u).same rfl fun heven => absurd heven (by omega)⟩
    · exact nomatch hs
  | writeSequnlock t =>
    simp only [seqStep] at hs
    split at hs
    · obtain rfl := Option.some.inj hs
      exact h.tick (by rw [‹s.pc t = .writing›]; rfl) rfl (by simp [‹s.pc t = .writing›])
    · exact nomatch hs
  | unlock t =>
    simp only [seqStep] at hs
    split at hs
    · obtain rfl := Option.some.inj hs
      have hheld := h.held
      rw [(hheld t).mp (by rw [‹s.pc t = .unlocking›]; rfl)] at hheld
      exact h.move (hheld.leave rfl) (by simp [‹s.pc t = .unlocking›]) (by simp) trivial
    · exact nomatch hs
  | readSeqbegin t =>
    simp only [seqStep] at hs
    split at hs
    · obtain rfl := Option.some.inj hs
      exact h.move (h.held.stay (by rw [‹s.pc t = .idle›]; rfl)) (by simp [‹s.pc t = .idle›]) (by simp)
        ⟨h.sequence, le_rfl, fun _ _ r hr => nomatch hr⟩
    · exact nomatch hs
  | load t i =>
    simp only [seqStep] at hs
    split at hs
    · rename_i iv start seen hpc
      obtain rfl := Option.some.inj hs
      have hknows := h.readers t
      rw [hpc] at hknows
      refine h.move (h.held.stay (by rw [hpc]; rfl)) (by simp [hpc]) (by simp) ⟨hknows.1,
        hknows.2.1, fun heq heven r hr => ?_⟩
      rcases List.mem_cons.mp hr with rfl | hr
      · rfl
      · exact hknows.2.2 heq heven r hr
    · exact nomatch hs
  | readSeqretry t =>
    simp only [seqStep] at hs
    split at hs
    · rename_i iv start seen hpc
      obtain rfl := Option.some.inj hs
      split
      · exact h.move (h.held.stay (by rw [hpc]; rfl)) (by simp [hpc]) (by simp) trivial
      · exact h.move (h.held.stay (by rw [hpc]; rfl)) (by simp [hpc]) (by simp) trivial
    · exact nomatch hs
  | leave t =>
    simp only [seqStep] at hs
    split at hs
    · obtain rfl := Option.some.inj hs
      exact h.move (h.held.stay (by rw [‹s.pc t = .took _›]; rfl)) (by simp [‹s.pc t = .took _›])
        (by simp) trivial
    · exact nomatch hs

/-! ## Runs -/

theorem seq_run_inv {data : I → V} {as : List (SeqAct T I V)}
    (hr : runActs seqStep (seqInit data) as = some s) : SeqInv s :=
  run_invariant (fun _ _ _ h (_ : True) hs => h.step hs) as _ _ (seqInit_inv data) (runMeets_trivial as _) hr

/-- In every run, a reader that began its section fewer than 2^32 increments ago is not told to
retry exactly when no write section was open as it began and none has been opened since; then every
word it read still holds what it read, and no write section is open. -/
theorem seqlock_snapshot {data : I → V} {as : List (SeqAct T I V)} {iv : BitVec 32} {start : ℕ}
    {seen : List (I × V)}
    (hr : runActs seqStep (seqInit data) as = some s) (ht : s.pc t = .reading iv start seen)
    (hnear : s.ticks < start + 2 ^ 32) :
    (readSeqretry s.sequence iv = false ↔ start % 2 = 0 ∧ s.ticks = start) ∧
      (readSeqretry s.sequence iv = false → (∀ u, s.pc u ≠ .writing) ∧ ∀ r ∈ seen, s.data r.1 = r.2) := by
  have hinv := seq_run_inv hr
  have hknows := hinv.readers t
  rw [ht] at hknows
  obtain ⟨hiv, hle, hseen⟩ := hknows
  have hiff : readSeqretry s.sequence iv = false ↔ start % 2 = 0 ∧ s.ticks = start := by
    rw [hinv.sequence, hiv, readSeqretry_eq_false]
    omega
  refine ⟨hiff, fun hno => ?_⟩
  obtain ⟨heven, hsame⟩ := hiff.mp hno
  have heven' : s.ticks % 2 = 0 := by rw [hsame]; exact heven
  refine ⟨fun u hu => ?_, hseen hsame.symm heven'⟩
  have := hinv.odd.mpr ⟨u, hu⟩
  omega

end Steps

/-- One write section, and a reader after it. -/
def writeThenRead (writer reader : T) (i : I) (v : V) : List (SeqAct T I V) :=
  [.writeSeqlock writer, .begin writer, .store writer i v, .writeSequnlock writer, .unlock writer,
    .readSeqbegin reader, .load reader i]

theorem seqlock_snapshot_witness :
    ∃ s : SeqState (Fin 2) Bool ℕ, runActs seqStep (seqInit fun _ => 0) (writeThenRead 0 1 true 5) =
      some s ∧
    (readSeqretry s.sequence 2 = false ↔ 2 % 2 = 0 ∧ s.ticks = 2) ∧
      (readSeqretry s.sequence 2 = false → (∀ u, s.pc u ≠ .writing) ∧
        ∀ r ∈ [(true, 5)], s.data r.1 = r.2) := by
  obtain ⟨s, hs, hpc, hticks⟩ : ∃ s : SeqState (Fin 2) Bool ℕ, runActs seqStep (seqInit fun _ => 0)
    (writeThenRead 0 1 true 5) = some s ∧
      s.pc 1 = .reading 2 2 [(true, 5)] ∧ s.ticks = 2 := ⟨_, rfl, rfl, rfl⟩
  exact ⟨s, hs, seqlock_snapshot hs hpc (by omega)⟩

end Snapshot

end Skp.Utils
