import Skp.Foundations.Holder
import Skp.Utils.RwsemModel

/-! # The front of the wait list

Readers leave the list when they are granted the semaphore, writers when they have taken it. A
section that leaves `activity` non-negative has granted all readers at the front, so a writer is
first; one that leaves it at 0 has signalled it. The signals are counted in the low bits of the
flags, and too many of them run into the bits that say who waits. -/
namespace Skp.Utils
set_option autoImplicit false
open Skp.Foundations

variable {T : Type}

/-! ## Flags -/

section Flags
variable {k : ℕ}

theorem toNat_writeFlags (hk : k ≤ 2 ^ 29) :
    (rwsemWaitingForWrite + BitVec.ofNat 32 k).toNat = 2 ^ 29 + k := by
  have hwrite : rwsemWaitingForWrite.toNat = 2 ^ 29 := rfl
  rw [BitVec.toNat_add, BitVec.toNat_ofNat, hwrite]
  omega

theorem writeFlags_read (hk : k < 2 ^ 28) :
    (rwsemWaitingForWrite + BitVec.ofNat 32 k) &&& rwsemWaitingForRead = 0 := by
  have hbit : (rwsemWaitingForWrite + BitVec.ofNat 32 k).getLsbD 28 = false := by
    rw [BitVec.getLsbD, toNat_writeFlags (by omega), Nat.testBit_eq_decide_div_mod_eq]
    simp only [decide_eq_false_iff_not]
    omega
  have htwo : rwsemWaitingForRead = BitVec.twoPow 32 28 := by decide
  rw [htwo, BitVec.and_twoPow, hbit]
  rfl

theorem writeFlags_write (hk : k < 2 ^ 29) :
    (rwsemWaitingForWrite + BitVec.ofNat 32 k) &&& rwsemWaitingForWrite ≠ 0 := by
  have hbit : (rwsemWaitingForWrite + BitVec.ofNat 32 k).getLsbD 29 = true := by
    rw [BitVec.getLsbD, toNat_writeFlags hk.le, Nat.testBit_eq_decide_div_mod_eq]
    simp only [decide_eq_true_eq]
    omega
  have htwo : rwsemWaitingForWrite = BitVec.twoPow 32 29 := by decide
  conv_lhs => rw [htwo, BitVec.and_twoPow]
  rw [← htwo, hbit, if_pos rfl]
  decide

theorem writeFlags_ne (hpos : k ≠ 0) (hk : k ≤ 2 ^ 29) :
    rwsemWaitingForWrite + BitVec.ofNat 32 k ≠ rwsemWaitingForWrite := by
  intro heq
  have hnat := congrArg BitVec.toNat heq
  have hwrite : rwsemWaitingForWrite.toNat = 2 ^ 29 := rfl
  rw [toNat_writeFlags hk, hwrite] at hnat
  omega

theorem writeFlags_succ :
    rwsemWaitingForWrite + BitVec.ofNat 32 k + 1 = rwsemWaitingForWrite +
      BitVec.ofNat 32 (k + 1) := by
  rw [BitVec.ofNat_add, ← BitVec.add_assoc]
  rfl

end Flags

/-! ## Who holds and who waits -/

def RwsemPc.reading : RwsemPc → Bool
  | .waitRead _ => true
  | .sleepRead => true
  | .wokenRead => true
  | _ => false

def RwsemPc.writing : RwsemPc → Bool
  | .waitWrite _ => true
  | .sleepWrite => true
  | .wokenWrite => true
  | _ => false

def RwsemPc.writer : RwsemPc → Bool
  | .holdWrite => true
  | _ => false

/-- A reader that holds the semaphore, or that was granted it and has not returned yet. -/
def Reads (s : RwsemState T) (t : T) : Prop := s.pc t = .holdRead ∨ ((s.pc t).reading = true ∧ t ∉ s.waitList)

/-- A waiter that will come to its next section without any more help. -/
def RwsemWilling (s : RwsemState T) (w : T) : Prop :=
  s.pc w = .wokenWrite ∨ ∃ seen, s.pc w = .waitWrite seen ∧ s.flags w ≠ seen

/-- `activity` counts the readers, or is -1 for one writer; a writer is first in the list while
there is none, and it is signalled or awake when the semaphore is free. -/
structure RwsemOk (s : RwsemState T) : Prop where
  count : ∃ (readers : Finset T) (writer : Option T), (∀ t, t ∈ readers ↔ Reads s t) ∧
    HeldBy RwsemPc.writer s.pc writer ∧
    ((writer = none ∧ s.activity = readers.card) ∨ (writer.isSome = true ∧ readers = ∅ ∧ s.activity = -1))
  front : 0 ≤ s.activity → ∀ w ∈ s.waitList.head?, (s.pc w).writing = true
  awake : s.activity = 0 → ∀ w ∈ s.waitList.head?, RwsemWilling s w
  noBug : s.bug = false

/-- The first waiter, if it is a writer, has not been signalled so often that its flags no longer
say so: `2 ^ 28` times make `RWSEM_WAITING_FOR_READ` out of them, which `up_read` tests for, `2 ^
29` times take `RWSEM_WAITING_FOR_WRITE` away, which the others test for. -/
def FlagsHold (s : RwsemState T) : RwsemAct T → Prop
  | .upRead _ => s.activity = 1 → ∀ w ∈ s.waitList.head?, s.signals w < 2 ^ 28
  | .upWrite _ => ∀ w ∈ s.waitList.head?, s.signals w < 2 ^ 29
  | .downgradeWrite _ => ∀ w ∈ s.waitList.head?, s.signals w < 2 ^ 29
  | _ => True

/-! ## The books -/

/-- The flags of a waiter say whether it is on the list. -/
def ReaderFlags (listed : Prop) (flags : BitVec 32) : Prop :=
  (listed → flags = rwsemWaitingForRead) ∧ (¬ listed → flags = rwsemWaitingForRead + 1)

def WriterFlags (flags : BitVec 32) (signals : ℕ) : Prop :=
  flags = rwsemWaitingForWrite + BitVec.ofNat 32 signals ∧ signals ≤ 2 ^ 29

def ThreadBooks (listed : Prop) (flags : BitVec 32) (signals : ℕ) : RwsemPc → Prop
  | .waitRead seen => seen = rwsemWaitingForRead ∧ ReaderFlags listed flags
  | .sleepRead => listed ∧ flags = rwsemWaitingForRead
  | .wokenRead => ReaderFlags listed flags
  | .waitWrite seen => listed ∧ seen = rwsemWaitingForWrite ∧ WriterFlags flags signals
  | .sleepWrite => listed ∧ WriterFlags flags signals
  | .wokenWrite => listed ∧ WriterFlags flags signals
  | _ => ¬ listed

/-- All that does not depend on `activity`. Only the first waiter may have been signalled. -/
structure RwsemBooks (s : RwsemState T) (readers : Finset T) (writer : Option T) : Prop where
  nodup : s.waitList.Nodup
  thread : ∀ t, ThreadBooks (t ∈ s.waitList) (s.flags t) (s.signals t) (s.pc t)
  readers : ∀ t, t ∈ readers ↔ Reads s t
  writer : HeldBy RwsemPc.writer s.pc writer
  tail : ∀ w ∈ s.waitList.tail, s.signals w = 0
  noBug : s.bug = false

structure RwsemInv (s : RwsemState T) : Prop where
  books : ∃ readers writer, RwsemBooks s readers writer ∧
    ((writer = none ∧ s.activity = readers.card) ∨ (writer.isSome = true ∧ readers = ∅ ∧ s.activity = -1))
  front : 0 ≤ s.activity → ∀ w ∈ s.waitList.head?, (s.pc w).writing = true
  awake : s.activity = 0 → ∀ w ∈ s.waitList.head?, RwsemWilling s w

variable {s s' : RwsemState T} {readers : Finset T} {writer : Option T} {t w : T} {p : RwsemPc}

theorem RwsemInv.ok (h : RwsemInv s) : RwsemOk s := by
  obtain ⟨readers, writer, hbooks, hactivity⟩ := h.books
  exact ⟨⟨readers, writer, hbooks.readers, hbooks.writer, hactivity⟩, h.front, h.awake, hbooks.noBug⟩

theorem reading_or_writing {listed : Prop} {flags : BitVec 32} {signals : ℕ}
    (h : ThreadBooks listed flags signals p) (hl : listed) :
    p.reading = true ∨ p.writing = true := by
  cases p with
  | waitRead | sleepRead | wokenRead => exact Or.inl rfl
  | waitWrite | sleepWrite | wokenWrite => exact Or.inr rfl
  | _ => exact absurd hl h

theorem readFlags {listed : Prop} {flags : BitVec 32} {signals : ℕ}
    (h : ThreadBooks listed flags signals p) (hl : listed)
    (hp : p.reading = true) : flags = rwsemWaitingForRead := by
  cases p with
  | waitRead seen => exact h.2.1 hl
  | sleepRead => exact h.2
  | wokenRead => exact h.1 hl
  | _ => cases hp

theorem writeFlags {listed : Prop} {flags : BitVec 32} {signals : ℕ} (h : ThreadBooks listed flags signals p)
    (hp : p.writing = true) : WriterFlags flags signals := by
  cases p with
  | waitWrite seen => exact h.2.2
  | sleepWrite => exact h.2
  | wokenWrite => exact h.2
  | _ => cases hp

/-! ## Moves of one thread -/

section Moves

theorem RwsemBooks.setActivity (h : RwsemBooks s readers writer) (a : ℤ) :
    RwsemBooks { s with activity := a } readers writer :=
  ⟨h.nodup, h.thread, h.readers, h.writer, h.tail, h.noBug⟩

variable [DecidableEq T]

theorem RwsemBooks.goto {readers' : Finset T} {writer' : Option T} (h : RwsemBooks s readers writer)
    (hthread : ThreadBooks (t ∈ s.waitList) (s.flags t) (s.signals t) p)
    (hothers : ∀ u, u ≠ t → (u ∈ readers' ↔ u ∈ readers))
    (hself : t ∈ readers' ↔ p = .holdRead ∨ (p.reading = true ∧ t ∉ s.waitList))
    (hwriter : HeldBy RwsemPc.writer (Function.update s.pc t p) writer') :
    RwsemBooks (s.goto t p) readers' writer' where
  nodup := h.nodup
  thread u := by
    by_cases hu : u = t
    · subst hu
      simpa [RwsemState.goto] using hthread
    · simpa [RwsemState.goto, hu] using h.thread u
  readers u := by
    by_cases hu : u = t
    · subst hu
      simpa [Reads, RwsemState.goto] using hself
    · rw [hothers u hu, h.readers]
      simp [Reads, RwsemState.goto, hu]
  writer := hwriter
  tail := h.tail
  noBug := h.noBug

theorem RwsemBooks.walk (h : RwsemBooks s readers writer)
    (hthread : ThreadBooks (t ∈ s.waitList) (s.flags t) (s.signals t) p)
    (hself : t ∈ readers ↔ p = .holdRead ∨ (p.reading = true ∧ t ∉ s.waitList))
    (hwriter : p.writer = (s.pc t).writer) :
    RwsemBooks (s.goto t p) readers writer :=
  h.goto hthread (fun _ _ => Iff.rfl) hself (h.writer.stay hwriter)

omit [DecidableEq T] in
theorem RwsemBooks.notListed (h : RwsemBooks s readers writer)
    (hp : s.pc t = .idle ∨ s.pc t = .holdRead ∨ s.pc t = .holdWrite) :
    t ∉ s.waitList := by
  have ht := h.thread t
  rcases hp with hp | hp | hp <;> rw [hp] at ht <;> exact ht

theorem RwsemBooks.append {f : BitVec 32} (h : RwsemBooks s readers writer) (hidle : s.pc t = .idle)
    (hp : ThreadBooks True f 0 p) (hwait : p.reading = true ∨ p.writing = true) :
    RwsemBooks (({ s with waitList := s.waitList ++ [t] }.setFlags t f).goto t p) readers writer := by
  have hnot := h.notListed (Or.inl hidle)
  have hwriter : p.writer = (s.pc t).writer := by
    rw [hidle]
    rcases hwait with hw | hw <;> cases p <;> first | rfl | cases hw
  refine ⟨?_, fun u => ?_, fun u => ?_, h.writer.stay hwriter, fun u hu => ?_, h.noBug⟩
  · exact List.nodup_append.mpr ⟨h.nodup, List.nodup_singleton t, fun u hu v hv heq =>
      hnot (List.mem_singleton.mp hv ▸ heq ▸ hu)⟩
  · by_cases hu : u = t
    · subst hu
      simpa [RwsemState.goto, RwsemState.setFlags] using hp
    · simpa [RwsemState.goto, RwsemState.setFlags, hu] using h.thread u
  · rw [h.readers]
    by_cases hu : u = t
    · subst hu
      refine iff_of_false ?_ ?_
      · rintro (hread | ⟨hread, -⟩) <;> rw [hidle] at hread <;> cases hread
      · simp only [Reads, RwsemState.goto, RwsemState.setFlags, Function.update_self]
        rintro (rfl | ⟨-, hout⟩)
        · rcases hwait with hw | hw <;> cases hw
        · exact hout (by simp)
    · simp [Reads, RwsemState.goto, RwsemState.setFlags, hu]
  · simp only [RwsemState.goto, RwsemState.setFlags]
    by_cases hut : u = t
    · simp [hut]
    · rw [Function.update_of_ne hut]
      refine h.tail u ?_
      -- what is behind the first of the longer list is behind the first of the old one, or new
      cases hlist : s.waitList with
      | nil =>
        simp only [RwsemState.goto, RwsemState.setFlags, hlist] at hu
        simp at hu
      | cons v vs =>
        simp only [RwsemState.goto, RwsemState.setFlags, hlist, List.cons_append, List.tail_cons,
          List.mem_append,
          List.mem_singleton] at hu ⊢
        exact hu.resolve_right hut

omit [DecidableEq T] in
theorem not_reads_of_writing (hp : (s.pc t).writing = true) : ¬ Reads s t := by
  rintro (hread | ⟨hread, -⟩)
  · rw [hread] at hp
    cases hp
  · cases hpc : s.pc t with
    | waitWrite | sleepWrite | wokenWrite =>
      rw [hpc] at hread
      cases hread
    | _ =>
      rw [hpc] at hp
      cases hp

theorem RwsemBooks.takeWrite (h : RwsemBooks s readers none) (hp : (s.pc t).writing = true) (a : ℤ) :
    RwsemBooks ({ s with activity := a, waitList := s.waitList.erase t }.goto t .holdWrite) readers
      (some t) := by
  refine ⟨h.nodup.erase t, fun u => ?_, fun u => ?_, h.writer.enter rfl, fun u hu => ?_, h.noBug⟩
  · by_cases hu : u = t
    · subst hu
      simp only [RwsemState.goto, Function.update_self]
      exact h.nodup.not_mem_erase
    · simpa [RwsemState.goto, hu] using h.thread u
  · rw [h.readers]
    by_cases hu : u = t
    · subst hu
      refine iff_of_false (not_reads_of_writing hp) ?_
      simp only [Reads, RwsemState.goto, Function.update_self]
      rintro (hread | ⟨hread, -⟩) <;> cases hread
    · simp [Reads, RwsemState.goto, hu]
  · exact h.tail u (List.Sublist.mem hu List.erase_sublist.tail)

theorem RwsemBooks.resetFlags (h : RwsemBooks s readers writer) (hp : s.pc t = .wokenWrite) :
    RwsemBooks (s.setFlags t rwsemWaitingForWrite) readers writer := by
  refine ⟨h.nodup, fun u => ?_, h.readers, h.writer, fun u hu => ?_, h.noBug⟩
  · by_cases hu : u = t
    · subst hu
      have ht := h.thread u
      rw [hp] at ht
      simp only [RwsemState.setFlags, Function.update_self, hp]
      exact ⟨ht.1, (BitVec.add_zero _).symm, Nat.zero_le _⟩
    · simpa [RwsemState.setFlags, hu] using h.thread u
  · simp only [RwsemState.setFlags]
    by_cases hut : u = t
    · simp [hut]
    · rw [Function.update_of_ne hut]
      exact h.tail u hu

/-! ## Signals -/

theorem RwsemPc.wake_writing (h : p.writing = true) : p.wake.writing = true := by
  cases p <;> first | rfl | exact h

@[simp] theorem RwsemPc.wake_reading : p.wake.reading = p.reading := by cases p <;> rfl

@[simp] theorem RwsemPc.wake_writer : p.wake.writer = p.writer := by cases p <;> rfl

@[simp] theorem RwsemPc.wake_eq_holdRead : p.wake = .holdRead ↔ p = .holdRead := by
  cases p <;> simp [RwsemPc.wake]

theorem RwsemBooks.signalFirst (h : RwsemBooks s readers writer) (hw : w ∈ s.waitList.head?)
    (hp : (s.pc w).writing = true)
    (hk : s.signals w < 2 ^ 29) : RwsemBooks (signalOneWaiter s w) readers writer := by
  refine ⟨h.nodup, fun u => ?_, fun u => ?_, h.writer.stay RwsemPc.wake_writer, fun u hu => ?_, h.noBug⟩
  · by_cases hu : u = w
    · subst hu
      have hold := h.thread u
      have hflags : WriterFlags (s.flags u + 1) (s.signals u + 1) := by
        have heq := (writeFlags hold hp).1
        exact ⟨by rw [heq, writeFlags_succ], hk⟩
      simp only [signalOneWaiter, Function.update_self]
      cases hpc : s.pc u with
      | waitWrite seen =>
        rw [hpc] at hold
        exact ⟨hold.1, hold.2.1, hflags⟩
      | sleepWrite =>
        rw [hpc] at hold
        exact ⟨hold.1, hflags⟩
      | wokenWrite =>
        rw [hpc] at hold
        exact ⟨hold.1, hflags⟩
      | _ =>
        rw [hpc] at hp
        cases hp
    · simpa [signalOneWaiter, hu] using h.thread u
  · rw [h.readers]
    by_cases hu : u = w
    · subst hu
      simp [Reads, signalOneWaiter]
    · simp [Reads, signalOneWaiter, hu]
  · -- the first of a list without duplicates is not behind itself
    have hne : u ≠ w := by
      rintro rfl
      obtain ⟨vs, hlist⟩ : ∃ vs, s.waitList = u :: vs := by
        cases hl : s.waitList with
        | nil =>
          rw [hl] at hw
          cases hw
        | cons v vs =>
          rw [hl] at hw
          cases hw
          exact ⟨vs, rfl⟩
      have hnodup := h.nodup
      simp only [signalOneWaiter, hlist, List.tail_cons] at hu
      rw [hlist] at hnodup
      exact (List.nodup_cons.mp hnodup).1 hu
    simp only [signalOneWaiter, Function.update_of_ne hne]
    exact h.tail u hu

theorem willing_signalled (hold : ThreadBooks (w ∈ s.waitList) (s.flags w) (s.signals w) (s.pc w))
    (hp : (s.pc w).writing = true)
    (hk : s.signals w < 2 ^ 29) : RwsemWilling (signalOneWaiter s w) w := by
  cases hpc : s.pc w with
  | waitWrite seen =>
    have heq := (writeFlags hold hp).1
    rw [hpc] at hold
    refine Or.inr ⟨seen, by simp [signalOneWaiter, hpc, RwsemPc.wake], ?_⟩
    simp only [signalOneWaiter, Function.update_self]
    rw [heq, writeFlags_succ, hold.2.1]
    exact writeFlags_ne (Nat.succ_ne_zero _) hk
  | sleepWrite => exact Or.inl (by simp [signalOneWaiter, hpc, RwsemPc.wake])
  | wokenWrite => exact Or.inl (by simp [signalOneWaiter, hpc, RwsemPc.wake])
  | _ =>
    rw [hpc] at hp
    cases hp

theorem RwsemBooks.grant {ws : List T} (h : RwsemBooks s readers writer) (hlist : s.waitList = w :: ws)
    (hp : (s.pc w).reading = true) :
    RwsemBooks (wakeOneWaiter s w) (insert w readers) writer ∧ (wakeOneWaiter s w).waitList = ws ∧
      w ∉ readers := by
  have hws : (wakeOneWaiter s w).waitList = ws := by
    simp [wakeOneWaiter, signalOneWaiter, hlist]
  have hnodup := h.nodup
  rw [hlist, List.nodup_cons] at hnodup
  have hmem : w ∈ s.waitList := by
    rw [hlist]
    exact List.mem_cons_self
  have hflags := readFlags (h.thread w) hmem hp
  refine ⟨⟨by
    rw [hws]; exact hnodup.2, fun u => ?_, fun u => ?_, h.writer.stay RwsemPc.wake_writer,
    fun u hu => ?_, h.noBug⟩,
    hws, ?_⟩
  · rw [hws]
    by_cases hu : u = w
    · subst hu
      have hreader : ReaderFlags (u ∈ ws) (s.flags u + 1) :=
        ⟨fun hin => absurd hin hnodup.1, fun _ => by rw [hflags]⟩
      have hold := h.thread u
      simp only [wakeOneWaiter, signalOneWaiter, Function.update_self]
      cases hpc : s.pc u with
      | waitRead seen =>
        rw [hpc] at hold
        exact ⟨hold.1, hreader⟩
      | sleepRead => exact hreader
      | wokenRead => exact hreader
      | _ =>
        rw [hpc] at hp
        cases hp
    · have hold := h.thread u
      rw [hlist] at hold
      simpa [wakeOneWaiter, signalOneWaiter, hu] using hold
  · rw [Finset.mem_insert, h.readers, Reads, Reads, hws, hlist]
    by_cases hu : u = w
    · subst hu
      simp [wakeOneWaiter, signalOneWaiter, hp, hnodup.1]
    · simp [wakeOneWaiter, signalOneWaiter, hu]
  · rw [hws] at hu
    have hne : u ≠ w := by
      rintro rfl
      exact hnodup.1 (List.mem_of_mem_tail hu)
    simp only [wakeOneWaiter, signalOneWaiter, Function.update_of_ne hne]
    refine h.tail u ?_
    rw [hlist]
    exact List.mem_of_mem_tail hu
  · rw [h.readers]
    rintro (hread | ⟨-, hnot⟩)
    · rw [hread] at hp
      cases hp
    · exact hnot hmem

/-- The loop of `__rwsem_do_wake` grants the readers at the front, at least one, and leaves a writer first. -/
theorem grantReaders_ok (ws : List T) : ∀ (s : RwsemState T) (readers : Finset T) (w : T) (woken : ℤ),
    RwsemBooks s readers writer → s.waitList = w :: ws → (s.pc w).reading = true →
      ∃ readers', RwsemBooks (grantReaders s woken w ws) readers' writer ∧ readers.card < readers'.card ∧
        (grantReaders s woken w ws).activity = s.activity + woken + (readers'.card - readers.card) ∧
        ∀ v ∈ (grantReaders s woken w ws).waitList.head?,
          ((grantReaders s woken w ws).pc v).writing = true := by
  induction ws with
  | nil =>
    intro s readers w woken h hlist hp
    obtain ⟨hbooks, hws, hnot⟩ := h.grant hlist hp
    have hcard := Finset.card_insert_of_notMem hnot
    refine ⟨insert w readers, hbooks.setActivity _, by omega, ?_, fun v hv => ?_⟩
    · simp only [grantReaders, hcard]
      push_cast
      ring
    · have hnil : (grantReaders s woken w []).waitList = [] := hws
      rw [hnil] at hv
      cases hv
  | cons next rest ih =>
    intro s readers w woken h hlist hp
    obtain ⟨hbooks, hws, hnot⟩ := h.grant hlist hp
    have hcard := Finset.card_insert_of_notMem hnot
    have hmem : next ∈ (wakeOneWaiter s w).waitList := by
      rw [hws]
      exact List.mem_cons_self
    have hnext := hbooks.thread next
    rw [grantReaders]
    rcases reading_or_writing hnext hmem with hread | hwrite
    · -- one more reader
      have hflags := readFlags hnext hmem hread
      rw [if_pos (by rw [hflags]; decide)]
      obtain ⟨readers', hbooks', hlt, hactivity, hfront⟩ := ih _ _ next (woken + 1) hbooks hws hread
      refine ⟨readers', hbooks', by omega, ?_, hfront⟩
      rw [hactivity, hcard]
      have hsame : (wakeOneWaiter s w).activity = s.activity := rfl
      rw [hsame]
      push_cast
      ring
    · -- a writer behind the first has not been signalled
      have hnone : (wakeOneWaiter s w).signals next = 0 := by
        have hne : next ≠ w := by
          rintro rfl
          have hnodup := h.nodup
          rw [hlist, List.nodup_cons] at hnodup
          exact hnodup.1 List.mem_cons_self
        have hzero := h.tail next (by rw [hlist]; exact List.mem_cons_self)
        simp only [wakeOneWaiter, signalOneWaiter, Function.update_of_ne hne]
        exact hzero
      have hflags := (writeFlags hnext hwrite).1
      rw [hnone] at hflags
      rw [if_neg (by rw [hflags]; decide)]
      refine ⟨insert w readers, hbooks.setActivity _, by omega, ?_, fun v hv => ?_⟩
      · simp only [hcard]
        push_cast
        ring
      · have hv' : v ∈ (wakeOneWaiter s w).waitList.head? := hv
        rw [hws] at hv'
        cases hv'
        exact hwrite

theorem rwsemDoWake_ok {wakewrite : Bool} (h : RwsemBooks s readers none)
    (hactivity : s.activity = readers.card)
    (hk : ∀ w ∈ s.waitList.head?, s.signals w < 2 ^ 29) (hne : s.waitList ≠ [])
    (hpos : wakewrite = false → s.activity ≠ 0) :
    RwsemInv (rwsemDoWake s wakewrite) := by
  cases hlist : s.waitList with
  | nil => exact absurd hlist hne
  | cons w ws =>
    have hhead : w ∈ s.waitList.head? := by rw [hlist]; rfl
    have hmem : w ∈ s.waitList := by
      rw [hlist]
      exact List.mem_cons_self
    have hw := h.thread w
    simp only [rwsemDoWake, hlist]
    rcases reading_or_writing hw hmem with hread | hwrite
    · rw [readFlags hw hmem hread, if_neg (by decide)]
      obtain ⟨readers', hbooks, hlt, hnew, hfront⟩ := grantReaders_ok ws s readers w 0 h hlist hread
      have hcard : (grantReaders s 0 w ws).activity = readers'.card := by
        rw [hnew, hactivity]
        ring
      refine ⟨⟨readers', none, hbooks, Or.inl ⟨rfl, hcard⟩⟩, fun _ => hfront, fun hzero => ?_⟩
      rw [hcard] at hzero
      omega
    · rw [(writeFlags hw hwrite).1, if_pos (writeFlags_write (hk w hhead))]
      cases wakewrite with
      | true =>
        rw [if_pos rfl]
        refine ⟨⟨readers, none, h.signalFirst hhead hwrite (hk w hhead), Or.inl ⟨rfl, hactivity⟩⟩,
          fun _ v hv => ?_,
          fun _ v hv => ?_⟩
        · have hv' : v ∈ s.waitList.head? := hv
          obtain rfl : w = v := Option.some.inj (hhead.symm.trans hv')
          simpa [signalOneWaiter] using RwsemPc.wake_writing hwrite
        · have hv' : v ∈ s.waitList.head? := hv
          obtain rfl : w = v := Option.some.inj (hhead.symm.trans hv')
          exact willing_signalled hw hwrite (hk w hhead)
      | false =>
        rw [if_neg Bool.false_ne_true]
        refine ⟨⟨readers, none, h, Or.inl ⟨rfl, hactivity⟩⟩, fun _ v hv => ?_,
          fun hzero => absurd hzero (hpos rfl)⟩
        obtain rfl : w = v := Option.some.inj (hhead.symm.trans hv)
        exact hwrite

end Moves

/-! ## The sections -/

section Sections

theorem rwsemInv_held (h : RwsemBooks s ∅ writer) (hwriter : writer.isSome = true)
    (hactivity : s.activity = -1) : RwsemInv s :=
  ⟨⟨∅, writer, h, Or.inr ⟨hwriter, rfl, hactivity⟩⟩, fun hge => by omega, fun hzero => by omega⟩

theorem RwsemInv.shared (h : RwsemInv s) (hge : 0 ≤ s.activity) :
    ∃ readers, RwsemBooks s readers none ∧ s.activity = readers.card := by
  obtain ⟨readers, writer, hbooks, ⟨rfl, hactivity⟩ | ⟨-, -, hactivity⟩⟩ := h.books
  · exact ⟨readers, hbooks, hactivity⟩
  · omega

theorem RwsemInv.heldBy (h : RwsemInv s) (hp : s.pc t = .holdWrite) :
    RwsemBooks s ∅ (some t) ∧ s.activity = -1 := by
  obtain ⟨readers, writer, hbooks, hactivity⟩ := h.books
  obtain rfl : writer = some t := (hbooks.writer t).mp (by rw [hp]; rfl)
  rcases hactivity with ⟨hnone, -⟩ | ⟨-, rfl, hactivity⟩
  · cases hnone
  · exact ⟨hbooks, hactivity⟩

variable [DecidableEq T]

theorem RwsemBooks.getRead (h : RwsemBooks s readers none) (hp : s.pc t = .idle) :
    RwsemBooks (s.goto t .holdRead) (insert t readers) none ∧ (insert t readers).card = readers.card + 1 := by
  have hnot : t ∉ readers := by
    rw [h.readers]
    rintro (hread | ⟨hread, -⟩) <;> rw [hp] at hread <;> cases hread
  refine ⟨h.goto (h.notListed (Or.inl hp)) (fun u hu => by simp [hu]) (by simp)
    (h.writer.stay (by rw [hp]; rfl)), ?_⟩
  exact Finset.card_insert_of_notMem hnot

theorem RwsemInv.getRead (h : RwsemInv s) (hp : s.pc t = .idle)
    (hok : 0 < s.activity ∨ (0 ≤ s.activity ∧ s.waitList = [])) :
    RwsemInv ({ s with activity := s.activity + 1 }.goto t .holdRead) := by
  have hge : 0 ≤ s.activity := hok.elim le_of_lt And.left
  obtain ⟨readers, hbooks, hactivity⟩ := h.shared hge
  obtain ⟨hnew, hcard⟩ := hbooks.getRead hp
  refine ⟨⟨_, none, hnew.setActivity (s.activity + 1), Or.inl ⟨rfl, ?_⟩⟩, fun _ w hw => ?_, fun hzero => ?_⟩
  · simp only [RwsemState.goto, hcard, hactivity]
    push_cast
    ring
  · have hw' : w ∈ s.waitList.head? := hw
    have hne : w ≠ t := by
      rintro rfl
      exact hbooks.notListed (Or.inl hp) (List.mem_of_mem_head? hw')
    simp only [RwsemState.goto, Function.update_of_ne hne]
    exact h.front hge w hw'
  · simp only [RwsemState.goto] at hzero
    omega

theorem RwsemInv.walk (h : RwsemInv s)
    (hthread : ThreadBooks (t ∈ s.waitList) (s.flags t) (s.signals t) p)
    (hself : Reads s t ↔ p = .holdRead ∨ (p.reading = true ∧ t ∉ s.waitList))
    (hwriter : p.writer = (s.pc t).writer)
    (hwriting : (s.pc t).writing = true → p.writing = true)
    (hwilling : RwsemWilling s t → p = .wokenWrite ∨ ∃ seen, p = .waitWrite seen ∧
      s.flags t ≠ seen) : RwsemInv (s.goto t p) := by
  obtain ⟨readers, writer, hbooks, hactivity⟩ := h.books
  refine ⟨⟨readers, writer, hbooks.walk hthread ((hbooks.readers t).trans hself) hwriter,
    hactivity⟩, fun hge w hw => ?_,
    fun hzero w hw => ?_⟩
  · have hold := h.front hge w hw
    by_cases hwt : w = t
    · subst hwt
      simpa [RwsemState.goto] using hwriting hold
    · simpa [RwsemState.goto, hwt] using hold
  · have hold := h.awake hzero w hw
    by_cases hwt : w = t
    · subst hwt
      simpa [RwsemState.goto, RwsemWilling] using hwilling hold
    · simpa [RwsemState.goto, RwsemWilling, hwt] using hold

/-- A new waiter; it is first only if it is a writer and has to wait. -/
theorem RwsemInv.append {f : BitVec 32} (h : RwsemInv s) (hidle : s.pc t = .idle)
    (hp : ThreadBooks True f 0 p)
    (hwait : p.reading = true ∨ p.writing = true)
    (hfirst : 0 ≤ s.activity → s.waitList = [] → p.writing = true ∧ s.activity ≠ 0) :
    RwsemInv (({ s with waitList := s.waitList ++ [t] }.setFlags t f).goto t p) := by
  obtain ⟨readers, writer, hbooks, hactivity⟩ := h.books
  have hnot := hbooks.notListed (Or.inl hidle)
  refine ⟨⟨readers, writer, hbooks.append hidle hp hwait, hactivity⟩, fun hge w hw => ?_,
    fun hzero w hw => ?_⟩
  · simp only [RwsemState.goto, RwsemState.setFlags] at hge hw ⊢
    cases hlist : s.waitList with
    | nil =>
      rw [hlist] at hw
      obtain rfl : t = w := Option.some.inj hw
      rw [Function.update_self]
      exact (hfirst hge hlist).1
    | cons v vs =>
      rw [hlist] at hw hnot
      obtain rfl : v = w := Option.some.inj hw
      rw [Function.update_of_ne (ne_of_mem_of_not_mem List.mem_cons_self hnot)]
      exact h.front hge v (by rw [hlist]; rfl)
  · simp only [RwsemState.goto, RwsemState.setFlags] at hzero hw ⊢
    cases hlist : s.waitList with
    | nil => exact absurd hzero (hfirst hzero.ge hlist).2
    | cons v vs =>
      rw [hlist] at hw hnot
      obtain rfl : v = w := Option.some.inj hw
      have hne : v ≠ t := ne_of_mem_of_not_mem List.mem_cons_self hnot
      simpa [RwsemWilling, hne] using h.awake hzero v (by rw [hlist]; rfl)

theorem RwsemInv.queueRead (h : RwsemInv s) (hp : s.pc t = .idle)
    (hno : ¬ (0 < s.activity ∨ (s.activity = 0 ∧ s.waitList = []))) :
    RwsemInv (downReadLoop ({ s with waitList := s.waitList ++ [t] }.setFlags t rwsemWaitingForRead) t) := by
  have hflags : ({ s with waitList := s.waitList ++ [t] }.setFlags t rwsemWaitingForRead).flags t =
      rwsemWaitingForRead :=
    Function.update_self ..
  rw [downReadLoop, hflags, if_neg (by decide)]
  refine h.append hp ⟨rfl, fun _ => rfl, fun hout => absurd trivial hout⟩
    (Or.inl rfl) fun hge hnil => absurd ?_ hno
  rcases hge.lt_or_eq with hlt | heq
  · exact Or.inl hlt
  · exact Or.inr ⟨heq.symm, hnil⟩

theorem RwsemInv.downWrite (h : RwsemInv s) (hp : s.pc t = .idle) :
    RwsemInv (downWriteLoop ({ s with waitList := s.waitList ++ [t] }.setFlags t
      rwsemWaitingForWrite) t) := by
  have hflags : ({ s with waitList := s.waitList ++ [t] }.setFlags t rwsemWaitingForWrite).flags t =
      rwsemWaitingForWrite :=
    Function.update_self ..
  have hthread : ThreadBooks True rwsemWaitingForWrite 0 (.waitWrite rwsemWaitingForWrite) :=
    ⟨trivial, rfl, (BitVec.add_zero _).symm, Nat.zero_le _⟩
  rw [downWriteLoop, hflags]
  split
  · rename_i hzero
    -- the semaphore is free: the writer is on the list for no longer than this section
    obtain ⟨readers, hbooks, hactivity⟩ := h.shared (le_of_eq hzero.symm)
    obtain rfl : readers = ∅ := by
      have hcard : s.activity = 0 := hzero
      rw [← Finset.card_eq_zero]
      omega
    have htake := (hbooks.append hp hthread (Or.inr rfl)).takeWrite (t := t)
      (by simp only [RwsemState.goto, Function.update_self]; rfl) (-1)
    simp only [RwsemState.goto, Function.update_idem] at htake
    exact rwsemInv_held htake rfl rfl
  · rename_i hne
    exact h.append hp hthread (Or.inr rfl) fun _ _ => ⟨rfl, hne⟩

theorem RwsemInv.trylockWrite (h : RwsemInv s) (hp : s.pc t = .idle) (hzero : s.activity = 0) :
    RwsemInv ({ s with activity := -1 }.goto t .holdWrite) := by
  obtain ⟨readers, hbooks, hactivity⟩ := h.shared hzero.ge
  obtain rfl : readers = ∅ := by
    rw [← Finset.card_eq_zero]
    omega
  have hself : t ∈ (∅ : Finset T) ↔ RwsemPc.holdWrite = .holdRead ∨
      (RwsemPc.holdWrite.reading = true ∧ t ∉ s.waitList) :=
    iff_of_false (by simp) (by rintro (heq | ⟨heq, -⟩) <;> cases heq)
  have hnew :=
    hbooks.goto (t := t) (p := .holdWrite) (hbooks.notListed (Or.inl hp)) (fun _ _ => Iff.rfl) hself
    (hbooks.writer.enter rfl)
  exact rwsemInv_held (hnew.setActivity (-1)) rfl rfl

theorem RwsemInv.upRead (h : RwsemInv s) (hp : s.pc t = .holdRead)
    (hk : s.activity = 1 → ∀ w ∈ s.waitList.head?, s.signals w < 2 ^ 28) :
    RwsemInv (if s.activity - 1 = 0 ∧ s.waitList ≠ [] then
      rwsemWakeOneWriter ({ s with activity := s.activity - 1 }.goto t .idle)
      else { s with activity := s.activity - 1 }.goto t .idle) := by
  obtain ⟨readers, writer, hbooks, hactivity⟩ := h.books
  have ht : t ∈ readers := (hbooks.readers t).mpr (Or.inl hp)
  have hnot := hbooks.notListed (Or.inr (Or.inl hp))
  obtain ⟨rfl, hactivity⟩ : writer = none ∧ s.activity = readers.card := by
    rcases hactivity with hshared | ⟨-, hempty, -⟩
    · exact hshared
    · rw [hempty] at ht
      cases ht
  have hcard := Finset.card_erase_add_one ht
  have hge : 0 ≤ s.activity := by omega
  have hself : t ∈ readers.erase t ↔ RwsemPc.idle = .holdRead ∨
      (RwsemPc.idle.reading = true ∧ t ∉ s.waitList) :=
    iff_of_false (by simp) (by rintro (heq | ⟨heq, -⟩) <;> cases heq)
  have hnew : RwsemBooks ({ s with activity := s.activity - 1 }.goto t .idle) (readers.erase t) none :=
    (hbooks.goto (t := t) (p := .idle) hnot (fun u hu => by simp [hu]) hself
      (hbooks.writer.stay (by rw [hp]; rfl))).setActivity (s.activity - 1)
  have hfront : ∀ w ∈ s.waitList.head?, ((Function.update s.pc t .idle) w).writing = true := by
    intro w hw
    rw [Function.update_of_ne (ne_of_mem_of_not_mem (List.mem_of_mem_head? hw) hnot)]
    exact h.front hge w hw
  have hcount : s.activity - 1 = (readers.erase t).card := by omega
  split
  · rename_i hlast
    obtain ⟨w, ws, hlist⟩ := List.exists_cons_of_ne_nil hlast.2
    have hw : w ∈ s.waitList.head? := by rw [hlist]; rfl
    have hwriting := hfront w hw
    have hsignals := hk (by omega) w hw
    have hflags := (writeFlags (hnew.thread w) hwriting).1
    have hwake : rwsemWakeOneWriter ({ s with activity := s.activity - 1 }.goto t .idle) =
        signalOneWaiter ({ s with activity := s.activity - 1 }.goto t .idle) w := by
      simp only [rwsemWakeOneWriter, RwsemState.goto, hlist] at hflags ⊢
      rw [hflags, writeFlags_read hsignals]
      rfl
    rw [hwake]
    have hlt : s.signals w < 2 ^ 29 := by omega
    refine ⟨⟨_, none, hnew.signalFirst hw hwriting hlt, Or.inl ⟨rfl, hcount⟩⟩, fun _ v hv => ?_,
      fun _ v hv => ?_⟩
    · have hv' : v ∈ s.waitList.head? := hv
      obtain rfl : w = v := Option.some.inj (hw.symm.trans hv')
      simp only [signalOneWaiter, Function.update_self]
      exact RwsemPc.wake_writing hwriting
    · have hv' : v ∈ s.waitList.head? := hv
      obtain rfl : w = v := Option.some.inj (hw.symm.trans hv')
      exact willing_signalled (hnew.thread w) hwriting hlt
  · rename_i hmore
    refine ⟨⟨_, none, hnew, Or.inl ⟨rfl, hcount⟩⟩, fun _ => hfront, fun hzero w hw => ?_⟩
    have hnil : s.waitList = [] := by
      by_contra hne
      exact hmore ⟨hzero, hne⟩
    have hw' : w ∈ s.waitList.head? := hw
    rw [hnil] at hw'
    cases hw'

omit [DecidableEq T] in
theorem rwsemInv_noWaiters (h : RwsemBooks s readers none) (hactivity : s.activity = readers.card)
    (hnil : s.waitList = []) :
    RwsemInv s := by
  have hnone : ∀ w, w ∉ s.waitList.head? := by
    intro w hw
    rw [hnil] at hw
    cases hw
  exact ⟨⟨readers, none, h, Or.inl ⟨rfl, hactivity⟩⟩, fun _ w hw => absurd hw (hnone w),
    fun _ w hw => absurd hw (hnone w)⟩

theorem RwsemInv.upWrite (h : RwsemInv s) (hp : s.pc t = .holdWrite)
    (hk : ∀ w ∈ s.waitList.head?, s.signals w < 2 ^ 29) :
    RwsemInv (if s.waitList ≠ [] then rwsemDoWake ({ s with activity := 0 }.goto t .idle) true
      else { s with activity := 0 }.goto t .idle) := by
  obtain ⟨hbooks, -⟩ := h.heldBy hp
  have hself : t ∈ (∅ : Finset T) ↔ RwsemPc.idle = .holdRead ∨
      (RwsemPc.idle.reading = true ∧ t ∉ s.waitList) :=
    iff_of_false (by simp) (by rintro (heq | ⟨heq, -⟩) <;> cases heq)
  have hnew : RwsemBooks ({ s with activity := 0 }.goto t .idle) ∅ none :=
    (hbooks.goto (t := t) (p := .idle) (hbooks.notListed (Or.inr (Or.inr hp))) (fun _ _ => Iff.rfl) hself
      (hbooks.writer.leave rfl)).setActivity 0
  split
  · rename_i hne
    exact rwsemDoWake_ok hnew rfl hk hne fun heq => by cases heq
  · rename_i hnil
    exact rwsemInv_noWaiters hnew rfl (not_not.mp hnil)

theorem RwsemInv.downgradeWrite (h : RwsemInv s) (hp : s.pc t = .holdWrite)
    (hk : ∀ w ∈ s.waitList.head?, s.signals w < 2 ^ 29) :
    RwsemInv (if s.waitList ≠ [] then rwsemDoWake ({ s with activity := 1 }.goto t .holdRead) false
      else { s with activity := 1 }.goto t .holdRead) := by
  obtain ⟨hbooks, -⟩ := h.heldBy hp
  have hnew : RwsemBooks ({ s with activity := 1 }.goto t .holdRead) {t} none :=
    (hbooks.goto (t := t) (p := .holdRead) (hbooks.notListed (Or.inr (Or.inr hp)))
      (fun u hu => by simp [hu]) (by simp)
      (hbooks.writer.leave rfl)).setActivity 1
  split
  · rename_i hne
    exact rwsemDoWake_ok hnew rfl hk hne fun _ => one_ne_zero
  · rename_i hnil
    exact rwsemInv_noWaiters hnew rfl (not_not.mp hnil)

/-! ## Between the sections -/

omit [DecidableEq T] in
theorem reads_waiting (hp : (s.pc t).reading = true) : Reads s t ↔ t ∉ s.waitList := by
  constructor
  · rintro (hread | ⟨-, hout⟩)
    · rw [hread] at hp
      cases hp
    · exact hout
  · exact fun hout => Or.inr ⟨hp, hout⟩

omit [DecidableEq T] in
theorem not_willing_of_reading (hp : (s.pc t).reading = true) : ¬ RwsemWilling s t := by
  rintro (hw | ⟨seen, hw, -⟩) <;> rw [hw] at hp <;> cases hp

theorem RwsemInv.walkRead (h : RwsemInv s) (hp : (s.pc t).reading = true) (hp' : p.reading = true)
    (hthread : ThreadBooks (t ∈ s.waitList) (s.flags t) (s.signals t) p) : RwsemInv (s.goto t p) := by
  have hclass : ∀ q : RwsemPc, q.reading = true → q.writer = false ∧ q.writing = false ∧ q ≠ .holdRead := by
    intro q hq
    cases q with
    | waitRead | sleepRead | wokenRead => exact ⟨rfl, rfl, by simp⟩
    | _ => cases hq
  refine h.walk hthread ?_ ?_ (fun hw => ?_) fun hw => absurd hw (not_willing_of_reading hp)
  · rw [reads_waiting hp]
    simp [hp', (hclass p hp').2.2]
  · rw [(hclass p hp').1, (hclass _ hp).1]
  · rw [(hclass _ hp).2.1] at hw
    cases hw

theorem RwsemInv.walkWrite (h : RwsemInv s) (hp : (s.pc t).writing = true) (hp' : p.writing = true)
    (hthread : ThreadBooks (t ∈ s.waitList) (s.flags t) (s.signals t) p)
    (hwilling : RwsemWilling s t → p = .wokenWrite ∨ ∃ seen, p = .waitWrite seen ∧
      s.flags t ≠ seen) : RwsemInv (s.goto t p) := by
  have hclass : ∀ q : RwsemPc, q.writing = true → q.writer = false ∧ q.reading ≠ true ∧ q ≠ .holdRead := by
    intro q hq
    cases q with
    | waitWrite | sleepWrite | wokenWrite => exact ⟨rfl, Bool.false_ne_true, by simp⟩
    | _ => cases hq
  refine h.walk hthread (iff_of_false (not_reads_of_writing hp) ?_) ?_ (fun _ => hp') hwilling
  · rintro (heq | ⟨hread, -⟩)
    · exact (hclass p hp').2.2 heq
    · exact (hclass p hp').2.1 hread
  · rw [(hclass p hp').1, (hclass _ hp).1]

omit [DecidableEq T] in
theorem RwsemInv.threadBooks (h : RwsemInv s) (t : T) :
    ThreadBooks (t ∈ s.waitList) (s.flags t) (s.signals t) (s.pc t) := by
  obtain ⟨readers, writer, hbooks, -⟩ := h.books
  exact hbooks.thread t

theorem RwsemInv.futexWait (h : RwsemInv s) : ∀ s', rwsemStep s (.futexWait t) = some s' → RwsemInv s' := by
  intro s' hstep
  have ht := h.threadBooks t
  cases hp : s.pc t with
  | waitRead seen =>
    simp only [rwsemStep, hp] at hstep
    cases hstep
    rw [hp] at ht
    split
    · rename_i heq
      refine h.walkRead (by rw [hp]; rfl) rfl ⟨?_, heq.trans ht.1⟩
      by_contra hout
      rw [heq, ht.1] at ht
      exact absurd (ht.2.2 hout) (by decide)
    · exact h.walkRead (by rw [hp]; rfl) rfl ht.2
  | waitWrite seen =>
    simp only [rwsemStep, hp] at hstep
    cases hstep
    rw [hp] at ht
    split
    · rename_i heq
      refine h.walkWrite (by rw [hp]; rfl) rfl ⟨ht.1, ht.2.2⟩ fun hw => ?_
      rcases hw with hw | ⟨seen', hw, hne⟩
      · rw [hp] at hw
        cases hw
      · rw [hp] at hw
        cases hw
        exact absurd heq hne
    · exact h.walkWrite (by rw [hp]; rfl) rfl ⟨ht.1, ht.2.2⟩ fun _ => Or.inl rfl
  | _ => simp [rwsemStep, hp] at hstep

theorem RwsemInv.interrupt (h : RwsemInv s) : ∀ s', rwsemStep s (.interrupt t) = some s' → RwsemInv s' := by
  intro s' hstep
  have ht := h.threadBooks t
  cases hp : s.pc t with
  | sleepRead =>
    simp only [rwsemStep, hp] at hstep
    cases hstep
    rw [hp] at ht
    exact h.walkRead (by rw [hp]; rfl) rfl ⟨fun _ => ht.2, fun hout => absurd ht.1 hout⟩
  | sleepWrite =>
    simp only [rwsemStep, hp] at hstep
    cases hstep
    rw [hp] at ht
    exact h.walkWrite (by rw [hp]; rfl) rfl ht fun _ => Or.inl rfl
  | _ => simp [rwsemStep, hp] at hstep

theorem RwsemInv.againRead (h : RwsemInv s) (hp : s.pc t = .wokenRead) : RwsemInv (downReadLoop s t) := by
  have ht := h.threadBooks t
  rw [hp] at ht
  rw [downReadLoop]
  by_cases hlisted : t ∈ s.waitList
  · rw [ht.1 hlisted, if_neg (by decide)]
    exact h.walkRead (by rw [hp]; rfl) rfl ⟨rfl, ht⟩
  · rw [ht.2 hlisted, if_pos (by decide)]
    refine h.walk hlisted ?_ (by rw [hp]; rfl) (fun hw => ?_) fun hw => ?_
    · rw [reads_waiting (by rw [hp]; rfl)]
      simp [hlisted]
    · rw [hp] at hw
      cases hw
    · exact absurd hw (not_willing_of_reading (by rw [hp]; rfl))

/-- The next section of a writer: it clears its signals and takes the semaphore if that is free. -/
theorem RwsemInv.againWrite (h : RwsemInv s) (hp : s.pc t = .wokenWrite) :
    RwsemInv (downWriteLoop (s.setFlags t rwsemWaitingForWrite) t) := by
  have hflags : (s.setFlags t rwsemWaitingForWrite).flags t = rwsemWaitingForWrite := Function.update_self ..
  have hreset : RwsemInv (s.setFlags t rwsemWaitingForWrite) := by
    obtain ⟨readers, writer, hbooks, hactivity⟩ := h.books
    refine ⟨⟨readers, writer, hbooks.resetFlags hp, hactivity⟩, h.front, fun hzero w hw => ?_⟩
    by_cases hwt : w = t
    · subst hwt
      exact Or.inl hp
    · rcases h.awake hzero w hw with hw | ⟨seen, hw, hne⟩
      · exact Or.inl hw
      · exact Or.inr ⟨seen, hw, by simpa [RwsemState.setFlags, hwt] using hne⟩
  have hwriting : ((s.setFlags t rwsemWaitingForWrite).pc t).writing = true := by
    have hpc : (s.setFlags t rwsemWaitingForWrite).pc t = .wokenWrite := hp
    rw [hpc]
    rfl
  rw [downWriteLoop, hflags]
  split
  · rename_i hzero
    obtain ⟨readers, hbooks, hactivity⟩ := hreset.shared hzero.ge
    obtain rfl : readers = ∅ := by
      rw [← Finset.card_eq_zero]
      omega
    exact rwsemInv_held (hbooks.takeWrite hwriting (-1)) rfl rfl
  · rename_i hne
    -- the semaphore is held, so nothing is asked of the first waiter's signals
    obtain ⟨readers, writer, hbooks, hactivity⟩ := hreset.books
    have ht := hbooks.thread t
    have hpc : (s.setFlags t rwsemWaitingForWrite).pc t = .wokenWrite := hp
    rw [hpc] at ht
    have hwalk : RwsemBooks
        ((s.setFlags t rwsemWaitingForWrite).goto t (.waitWrite rwsemWaitingForWrite))
        readers writer := by
      refine hbooks.walk ⟨ht.1, rfl, ht.2⟩ ?_ (by rw [hpc]; rfl)
      rw [hbooks.readers]
      refine iff_of_false (not_reads_of_writing hwriting) ?_
      rintro (heq | ⟨heq, -⟩) <;> cases heq
    refine ⟨⟨readers, writer, hwalk, hactivity⟩, fun hge w hw => ?_, fun hzero => absurd hzero hne⟩
    by_cases hwt : w = t
    · subst hwt
      simp only [RwsemState.goto, Function.update_self]
      rfl
    · simpa [RwsemState.goto, hwt] using hreset.front hge w hw

/-! ## Runs -/

omit [DecidableEq T] in
theorem whenAt_some {s₁ : RwsemState T} (h : s.whenAt t p s₁ = some s') : s.pc t = p ∧ s' = s₁ := by
  unfold RwsemState.whenAt at h
  split at h
  · rename_i heq
    exact ⟨heq.1, (Option.some.inj h).symm⟩
  · cases h

theorem rwsemStep_inv (h : RwsemInv s) (a : RwsemAct T) (hgood : FlagsHold s a) :
    ∀ s', rwsemStep s a = some s' → RwsemInv s' := by
  intro s' hstep
  cases a with
  | downRead t =>
    obtain ⟨hp, rfl⟩ := whenAt_some hstep
    split
    · rename_i hok
      exact h.getRead hp (hok.imp id fun hfree => ⟨hfree.1.ge, hfree.2⟩)
    · rename_i hno
      exact h.queueRead hp hno
  | downReadTrylock t =>
    obtain ⟨hp, rfl⟩ := whenAt_some hstep
    split
    · rename_i hok
      exact h.getRead hp (Or.inr hok)
    · exact h
  | downWrite t =>
    obtain ⟨hp, rfl⟩ := whenAt_some hstep
    exact h.downWrite hp
  | downWriteTrylock t =>
    obtain ⟨hp, rfl⟩ := whenAt_some hstep
    split
    · rename_i hzero
      exact h.trylockWrite hp hzero
    · exact h
  | upRead t =>
    obtain ⟨hp, rfl⟩ := whenAt_some hstep
    exact h.upRead hp hgood
  | upWrite t =>
    obtain ⟨hp, rfl⟩ := whenAt_some hstep
    exact h.upWrite hp hgood
  | downgradeWrite t =>
    obtain ⟨hp, rfl⟩ := whenAt_some hstep
    exact h.downgradeWrite hp hgood
  | futexWait t => exact h.futexWait s' hstep
  | interrupt t => exact h.interrupt s' hstep
  | again t =>
    cases hp : s.pc t with
    | wokenRead =>
      simp only [rwsemStep, hp] at hstep
      split at hstep
      · cases hstep
        exact h.againRead hp
      · cases hstep
    | wokenWrite =>
      simp only [rwsemStep, hp] at hstep
      split at hstep
      · cases hstep
        exact h.againWrite hp
      · cases hstep
    | _ => simp [rwsemStep, hp] at hstep

omit [DecidableEq T] in
theorem rwsemInv_init : RwsemInv (rwsemInit : RwsemState T) := by
  have hbooks : RwsemBooks (rwsemInit : RwsemState T) ∅ none := by
    refine ⟨List.nodup_nil, fun t => List.not_mem_nil, fun t => ?_, fun t => ?_,
      fun w hw => absurd hw List.not_mem_nil, rfl⟩
    · refine iff_of_false (by simp) ?_
      rintro (heq | ⟨heq, -⟩) <;> cases heq
    · exact iff_of_false Bool.false_ne_true (by simp)
  exact rwsemInv_noWaiters hbooks rfl rfl

/-- In every run in which no writer at the front is signalled so often that its flags change their meaning. -/
theorem rwsem_ok (as : List (RwsemAct T)) (s : RwsemState T)
    (hgood : RunMeets rwsemStep FlagsHold rwsemInit as)
    (hrun : runActs rwsemStep rwsemInit as = some s) : RwsemOk s := by
  have hinv : RwsemInv s :=
    run_invariant (fun s a s' h hgood hstep => rwsemStep_inv h a hgood s' hstep) as _
      s rwsemInv_init
    hgood hrun
  exact hinv.ok

instance (s : RwsemState T) : (a : RwsemAct T) → Decidable (FlagsHold s a)
  | .upRead _ => inferInstanceAs (Decidable (s.activity = 1 → ∀ w ∈ s.waitList.head?, s.signals w < 2 ^ 28))
  | .upWrite _ => inferInstanceAs (Decidable (∀ w ∈ s.waitList.head?, s.signals w < 2 ^ 29))
  | .downgradeWrite _ => inferInstanceAs (Decidable (∀ w ∈ s.waitList.head?, s.signals w < 2 ^ 29))
  | .downRead _ => inferInstanceAs (Decidable True)
  | .downReadTrylock _ => inferInstanceAs (Decidable True)
  | .downWrite _ => inferInstanceAs (Decidable True)
  | .downWriteTrylock _ => inferInstanceAs (Decidable True)
  | .futexWait _ => inferInstanceAs (Decidable True)
  | .interrupt _ => inferInstanceAs (Decidable True)
  | .again _ => inferInstanceAs (Decidable True)

/-- A reader, a writer and a reader queue up behind a writer, which downgrades; the reader that is
granted unlocks last. -/
def downgradedRun : List (RwsemAct ℕ) :=
  [.downWrite 0, .downRead 1, .downWrite 2, .downRead 3, .futexWait 1, .futexWait 2, .futexWait 3,
    .downgradeWrite 0, .again 1,
    .upRead 0, .upRead 1, .downWriteTrylock 0, .again 2]

theorem rwsem_ok_downgradedRun : ∃ s, RunMeets rwsemStep FlagsHold rwsemInit downgradedRun ∧
    runActs rwsemStep rwsemInit downgradedRun = some s ∧ s.activity = -1 ∧ s.waitList = [2, 3] ∧
      RwsemOk s := by
  have hmeets :=
    runMeets_of_checks (show runChecks rwsemStep FlagsHold rwsemInit downgradedRun =
      true by decide +kernel)
  have hfinal : (runActs rwsemStep rwsemInit downgradedRun).map
      (fun s => (s.activity, s.waitList)) = some (-1, [2, 3]) := by
    decide +kernel
  obtain ⟨s, hs, hvalues⟩ := Option.map_eq_some_iff.mp hfinal
  obtain ⟨hactivity, hlist⟩ := Prod.mk.inj hvalues
  exact ⟨s, hmeets, hs, hactivity, hlist, rwsem_ok downgradedRun s hmeets hs⟩

end Sections

/-! ## Signals that run into the flags -/

/-- The writer `true` is first, before `futex_wait`, and signalled `k` times; the semaphore is free. -/
def stalledWriter (k : ℕ) : RwsemState Bool where
  activity := 0
  waitList := [true]
  flags
    | true => rwsemWaitingForWrite + BitVec.ofNat 32 k
    | false => rwsemWaitingForWrite
  pc
    | true => .waitWrite rwsemWaitingForWrite
    | false => .idle
  bug := false
  signals
    | true => k
    | false => 0

/-- The other thread takes the semaphore past it and gives it back `n` times. -/
def bargeActs : ℕ → List (RwsemAct Bool)
  | 0 => []
  | n + 1 => .downWriteTrylock false :: .upWrite false :: bargeActs n

/-- A state with all the values of `stalledWriter k` is it. -/
theorem stalledWriter_eq {k : ℕ} {flags : Bool → BitVec 32} {pc : Bool → RwsemPc} {signals : Bool → ℕ}
    (hflags : ∀ t, flags t = (stalledWriter k).flags t) (hpc : ∀ t, pc t = (stalledWriter k).pc t)
    (hsignals : ∀ t, signals t = (stalledWriter k).signals t) :
    (⟨0, [true], flags, pc, false, signals⟩ : RwsemState Bool) = stalledWriter k := by
  rw [funext hflags, funext hpc, funext hsignals]
  rfl

theorem run_stall :
    runActs rwsemStep rwsemInit [.downWrite false, .downWrite true, .upWrite false] =
      some (stalledWriter 1) := by
  refine congrArg some (stalledWriter_eq (fun t => ?_) (fun t => ?_) fun t => ?_) <;> cases t <;> rfl

theorem run_barge {k : ℕ} (hk : k < 2 ^ 29) :
    runActs rwsemStep (stalledWriter k) [.downWriteTrylock false, .upWrite false] =
      some (stalledWriter (k + 1)) := by
  let s : RwsemState Bool :=
    { { stalledWriter k with activity := -1 }.goto false .holdWrite
      with activity := 0 }.goto false .idle
  have hsteps : runActs rwsemStep (stalledWriter k) [.downWriteTrylock false, .upWrite false] =
      some (if (stalledWriter k).flags true &&& rwsemWaitingForWrite ≠ 0 then signalOneWaiter s true
        else grantReaders s 0 true []) := rfl
  have hset : (stalledWriter k).flags true &&& rwsemWaitingForWrite ≠ 0 := writeFlags_write hk
  rw [hsteps, if_pos hset]
  refine congrArg some (stalledWriter_eq (fun t => ?_) (fun t => ?_) fun t => ?_)
  · cases t with
    | true => exact writeFlags_succ
    | false => rfl
  · cases t <;> rfl
  · cases t <;> rfl

theorem run_bargeActs (n : ℕ) :
    ∀ k, k + n ≤ 2 ^ 29 → runActs rwsemStep (stalledWriter k) (bargeActs n) =
      some (stalledWriter (k + n)) := by
  induction n with
  | zero => exact fun k _ => rfl
  | succ n ih =>
    intro k hk
    have hsplit : bargeActs (n + 1) = [.downWriteTrylock false, .upWrite false] ++ bargeActs n := rfl
    rw [hsplit, runActs_append, run_barge (by omega), Option.bind_some, ih (k + 1) (by omega),
      Nat.add_right_comm, Nat.add_assoc]

theorem run_bug {k : ℕ} (hwrite : (rwsemWaitingForWrite + BitVec.ofNat 32 k) &&& rwsemWaitingForWrite ≠ 0)
    (hread : (rwsemWaitingForWrite + BitVec.ofNat 32 k) &&& rwsemWaitingForRead ≠ 0) :
    ∃ s, runActs rwsemStep (stalledWriter k) [.downWriteTrylock false, .downgradeWrite false,
      .upRead false] = some s ∧
      s.bug = true ∧ s.waitList = [true] ∧ s.pc true = .waitWrite rwsemWaitingForWrite := by
  let held : RwsemState Bool :=
    { { { stalledWriter k with activity := -1 }.goto false .holdWrite with activity := 1 } with
    pc := Function.update (Function.update (stalledWriter k).pc false .holdWrite) false .holdRead }
  have hdowngrade : runActs rwsemStep (stalledWriter k) [.downWriteTrylock false, .downgradeWrite false] =
      some (if (stalledWriter k).flags true &&& rwsemWaitingForWrite ≠ 0 then held
        else grantReaders held 0 true []) := rfl
  have hset : (stalledWriter k).flags true &&& rwsemWaitingForWrite ≠ 0 := hwrite
  rw [if_pos hset] at hdowngrade
  let free : RwsemState Bool := { held with activity := 0 }.goto false .idle
  have hup : runActs rwsemStep held [.upRead false] =
      some (if held.flags true &&& rwsemWaitingForRead ≠ 0 then { free with bug := true }
        else signalOneWaiter free true) := rfl
  have hset : held.flags true &&& rwsemWaitingForRead ≠ 0 := hread
  rw [if_pos hset] at hup
  have hsplit : [RwsemAct.downWriteTrylock false, .downgradeWrite false, .upRead false] =
      [.downWriteTrylock false, .downgradeWrite false] ++ [.upRead false] := rfl
  exact ⟨{ free with bug := true },
    by rw [hsplit, runActs_append, hdowngrade, Option.bind_some, hup], rfl, rfl, rfl⟩

/-- The other thread holds the semaphore while the writer queues up, barges in `2 ^ 28 - 1` times,
and in the end gives the semaphore back as a reader. -/
def overflowingRun : List (RwsemAct Bool) :=
  [.downWrite false, .downWrite true, .upWrite false] ++
    (bargeActs (2 ^ 28 - 1) ++ [.downWriteTrylock false, .downgradeWrite false, .upRead false])

/-- The flags of the writer say that it waits to read, and the `BUG_ON` fires. -/
theorem rwsem_bug : ∃ s, runActs rwsemStep rwsemInit overflowingRun = some s ∧ s.bug = true ∧
      s.waitList = [true] ∧
    s.pc true = .waitWrite rwsemWaitingForWrite ∧ ¬ RwsemOk s := by
  have hbarge : runActs rwsemStep (stalledWriter 1) (bargeActs (2 ^ 28 - 1)) =
      some (stalledWriter (2 ^ 28)) :=
    run_bargeActs (2 ^ 28 - 1) 1 (by omega)
  obtain ⟨s, hrun, hbug, hlist, hpc⟩ := run_bug (k := 2 ^ 28) (by decide) (by decide)
  refine ⟨s, ?_, hbug, hlist, hpc, fun hok => ?_⟩
  · rw [overflowingRun, runActs_append, run_stall, Option.bind_some, runActs_append, hbarge,
      Option.bind_some, hrun]
  · have hno := hok.noBug
    rw [hbug] at hno
    cases hno

end Skp.Utils
