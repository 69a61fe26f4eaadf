import Skp.Process.StreamBooks
import Skp.Foundations.Runs

/-! # Events of streams that are gone

`reactor_poll` collects a batch without the slot lock, and `process_streams` gives the lock away
around every callback, so streams come and go while a batch is worked off. What is left of the batch
is tied to its streams by descriptor and id only. -/
namespace Skp.Process
set_option autoImplicit false
open Skp.Adt Skp.Foundations

structure PollEvent where
  data : PollData
  mask : BitVec 16
deriving DecidableEq

/-- Where an event comes from: the descriptor of the signals, or a stream the kernel was told about. -/
inductive PollSource (F : Type) where
  | signal (fd : ℤ)
  | stream (e : Option F)

/-- A callback that was called; `fresh` tells that the stream entered the map after the event had
been collected. -/
structure Delivery (F : Type) where
  stream : Option F
  event : PollEvent
  fresh : Bool
deriving DecidableEq

/-- `ready` is what `process_streams` has not looked at yet. The rest is history. The cursor of the
ids goes round them without end: it is at place `pos`, and was at place `posOf i` when id `i` was
given last. -/
structure PollState (F : Type) where
  slot : UevSlot (Option F)
  ready : List PollEvent
  fresh : Option F → Bool
  delivered : List (Delivery F)
  pos : ℕ
  posOf : ℕ → ℕ

/-- `poll` starts its walk over the batch after a random position. A stream that is not pending may
be initialised again with another descriptor. -/
inductive PollAct (F : Type) where
  | poll (batch : List (PollSource F × BitVec 16)) (start : ℕ)
  | process
  | modify (e : F) (mask : BitVec 16) (up : Bool) (mem : Memory) (calls : ReactorCalls)
  | delete (e : F)
  | init (e : F) (fd : ℤ)
  | closefd (e : F)

variable {F : Type} [DecidableEq F]

def evidrCursor (slot : UevSlot (Option F)) : ℕ := idtCursor slot.evidr.idt.nrBit slot.evidr.idt.last

namespace PollState

def turn (s : PollState F) (slot : UevSlot (Option F)) : PollState F :=
  { s with slot := slot, pos := turnTo slot.evidr.idt.nrBit s.pos (evidrCursor slot) }

def give (s : PollState F) (i : ℕ) : PollState F :=
  let p := turnTo s.slot.evidr.idt.nrBit s.pos i
  { s with pos := p + 1, posOf := Function.update s.posOf i p }

end PollState

/-- The kernel reports what it was told at the registration. It has no negative descriptor. -/
def collect (slot : UevSlot (Option F)) : PollSource F × BitVec 16 → Option PollEvent
  | (.signal fd, mask) =>
      if fd < 0 then none else some { data := { fd := fd, id := BitVec.allOnes 32 }, mask := mask }
  | (.stream e, mask) =>
      (slot.registered e).bind fun data => if data.fd < 0 then none else some { data := data, mask := mask }

/-- One round of `process_streams` up to the call; the stream is the one called back. -/
def processStream (slot : UevSlot (Option F)) (pe : PollEvent) :
    Option (UevSlot (Option F) × Option (Option F)) :=
  (streamLookup slot pe.data).map fun
    | none => (slot, none)
    | some ev =>
        let s := slot.streams ev
        let rmask := if s.writeOnce ∧ s.mask &&& eventEdge = 0 ∧ pe.mask &&& eventWrite ≠ 0 then
            eventWrite else 0
        let slot := if s.attached then streamDisableLocked slot ev rmask else slot
        if pe.mask &&& s.mask = 0 ∧ pe.mask &&& (eventError ||| eventEof) = 0 then (slot, none)
          else (slot, some ev)

def pollStep (s : PollState F) : PollAct F → Option (PollState F)
  | .poll batch start =>
      if s.ready = [] then
        (batch.mapM (collect s.slot)).map fun events =>
          { s with ready := events.rotate (start + 1), fresh := fun _ => false }
      else none
  | .process =>
      match s.ready with
      | [] => none
      | pe :: rest =>
          (processStream s.slot pe).map fun r =>
            { s with
              slot := r.1
              ready := rest
              delivered :=
              r.2.toList.map (fun e => { stream := e, event := pe, fresh := s.fresh e }) ++
              s.delivered }
  | .modify e mask up mem calls =>
      (uevStreamModify up mem calls s.slot (some e) mask).map fun r =>
        if (s.slot.streams (some e)).pending = false ∧ (r.1.streams (some e)).pending = true then
          ({ s with fresh := Function.update s.fresh (some e) true }.give
            (r.1.streams (some e)).id.toNat).turn r.1
        else s.turn r.1
  | .delete e => (uevStreamDelete s.slot (some e)).map fun r => s.turn r.1
  | .init e fd =>
      if (s.slot.streams (some e)).pending then none
      else some { s with slot := s.slot.setStream (some e) (uevStreamInit fd) }
  | .closefd e => some { s with slot := s.slot.setStream (some e) { s.slot.streams (some e) with fd := -1 } }

/-- The places of the first turn stand for ids that were never given. -/
def pollStart (slot : UevSlot (Option F)) : PollState F where
  slot := slot
  ready := []
  fresh := fun _ => false
  delivered := []
  pos := slot.evidr.idt.nrBit
  posOf := id

def pollInit (slot : UevSlot (Option F)) : PollState F := ((pollStart slot).give 0).turn slot

/-- No event of the batch that is left leads to a stream that came later, and none was delivered to one. -/
structure StaleSafe (s : PollState F) : Prop where
  ready : ∀ pe ∈ s.ready, ∀ e, streamLookup s.slot pe.data = some (some e) → s.fresh e = false
  delivered : ∀ d ∈ s.delivered, d.fresh = false

/-- A stream is registered only while the cursor has not come round to the id of an event with the
stream's descriptor that is left of the batch, since that id was given, and has a free id before it.
-/
def NotRound (s : PollState F) : PollAct F → Prop
  | .modify e _ _ _ _ =>
      (s.slot.streams (some e)).pending = false → ∀ pe ∈ s.ready, pe.data.fd = (s.slot.streams (some e)).fd →
        pe.data.id.toNat < s.slot.evidr.idt.nrBit → ∃ p < s.posOf pe.data.id.toNat + s.slot.evidr.idt.nrBit,
          s.pos ≤ p ∧ s.slot.evidr.idt.bit (p % s.slot.evidr.idt.nrBit) = false
  | _ => True

/-! ## Lookups -/

section Lookup
variable {events : ℕ} {slot slot' : UevSlot (Option F)} {e f : Option F} {pd : PollData}

omit [DecidableEq F] in
theorem StreamBooks.lookup_iff [DecidableEq F] (h : StreamBooks events none slot) :
    streamLookup slot pd = some (some e) ↔
      (slot.streams e).pending = true ∧ ((slot.streams e).id.toNat : ℤ) = pd.id.toInt ∧
        (slot.streams e).fd = pd.fd := by
  obtain ⟨m, htable⟩ := h.table
  rw [htable.lookup_eq, Option.some.injEq, Option.filter_eq_some_iff,
    htable.idr.find htable.events_small, decide_eq_true_eq,
    Nat.cast_zero, Int.sub_zero]
  by_cases hpos : 0 ≤ pd.id.toInt
  · rw [if_pos hpos, htable.pending]
    constructor
    · rintro ⟨⟨hpend, hid⟩, hfd⟩
      exact ⟨hpend, by omega, hfd⟩
    · rintro ⟨hpend, hid, hfd⟩
      exact ⟨⟨hpend, by omega⟩, hfd⟩
  · rw [if_neg hpos]
    constructor
    · rintro ⟨hnone, -⟩
      cases hnone
    · rintro ⟨-, hid, -⟩
      omega

theorem Moves.lookup_other (h : StreamBooks events none slot) (h' : StreamBooks events none slot')
    (hm : Moves slot slot' e)
    (hf : f ≠ e) (hl : streamLookup slot' pd = some (some f)) : streamLookup slot pd = some (some f) := by
  obtain ⟨s, hstreams, -⟩ := hm
  rw [h'.lookup_iff, hstreams, Function.update_of_ne hf] at hl
  exact h.lookup_iff.mpr hl

theorem Moves.lookup_self (h : StreamBooks events none slot) (h' : StreamBooks events none slot')
    (hm : Moves slot slot' e)
    (hl : streamLookup slot' pd = some (some e)) :
    (slot.streams e).pending = true ∧ streamLookup slot pd = some (some e) ∨
      (slot.streams e).pending = false ∧ pd.fd = (slot.streams e).fd ∧
        nextFree slot.evidr.idt = some pd.id.toNat := by
  obtain ⟨s, hstreams, hfd, hplace⟩ := hm
  rw [h'.lookup_iff, hstreams, Function.update_self, hfd] at hl
  obtain ⟨hpend, hid, hfdpd⟩ := hl
  obtain ⟨hsame, hsid⟩ | hgone | ⟨hnew, hfree⟩ := hplace
  · rw [hpend] at hsame
    rw [hsid] at hid
    exact Or.inl ⟨hsame.symm, h.lookup_iff.mpr ⟨hsame.symm, hid, hfdpd⟩⟩
  · rw [hgone] at hpend
    cases hpend
  · have hnat : s.id.toNat = pd.id.toNat := by
      have hlt := pd.id.isLt
      rw [BitVec.toInt_eq_toNat_cond] at hid
      split at hid <;> omega
    rw [hnat] at hfree
    exact Or.inr ⟨hnew, hfdpd.symm, hfree⟩

end Lookup

/-! ## The invariant -/

/-- Every id stands at the place where it was given last, behind the cursor. -/
def Given (events : ℕ) (s : PollState F) : Prop := ∀ i < events, s.posOf i % events = i ∧ s.posOf i < s.pos

structure StaleInv (events : ℕ) (s : PollState F) : Prop where
  books : StreamBooks events none s.slot
  cursor : s.pos % events = evidrCursor s.slot
  given : Given events s
  real : ∀ pe ∈ s.ready, 0 ≤ pe.data.fd
  safe : StaleSafe s

section Steps
variable {events : ℕ} {s s' : PollState F} {slot : UevSlot (Option F)}

section
omit [DecidableEq F]

theorem StreamBooks.nrBit (h : StreamBooks events none slot) : slot.evidr.idt.nrBit = events := by
  obtain ⟨m, htable⟩ := h.table
  exact htable.idr.bits.idt.nrBit

theorem StreamBooks.cursor_lt (h : StreamBooks events none slot) : evidrCursor slot < events := by
  obtain ⟨m, htable⟩ := h.table
  rw [evidrCursor, h.nrBit]
  exact idtCursor_lt _ htable.events_pos

theorem Given.give (h : Given events s) (hn : s.slot.evidr.idt.nrBit = events) {i : ℕ} (hi : i < events) :
    Given events (s.give i) := by
  have hle := le_turnTo events s.pos i
  intro j hj
  simp only [PollState.give, hn]
  by_cases hji : j = i
  · rw [hji, Function.update_self]
    exact ⟨turnTo_mod s.pos hi, Nat.lt_succ_self _⟩
  · rw [Function.update_of_ne hji]
    exact ⟨(h j hj).1, by have := (h j hj).2; omega⟩

theorem Given.turn (h : Given events s) (hbooks : StreamBooks events none slot) :
    (s.turn slot).pos % events = evidrCursor slot ∧ Given events (s.turn slot) := by
  rw [PollState.turn, hbooks.nrBit]
  refine ⟨turnTo_mod s.pos hbooks.cursor_lt, fun i hi => ⟨(h i hi).1, ?_⟩⟩
  exact (h i hi).2.trans_le (le_turnTo _ _ _)

theorem StaleInv.nextFree_ne (h : StaleInv events s) {i p : ℕ} (hi : i < events) (hp : p < s.posOf i + events)
    (hpos : s.pos ≤ p) (hfree : s.slot.evidr.idt.bit (p % events) = false) :
    nextFree s.slot.evidr.idt ≠ some i := by
  intro hnext
  have hn := h.books.nrBit
  have hcursor : idtCursor events s.slot.evidr.idt.last = s.pos % events := by
    rw [h.cursor, evidrCursor, hn]
  rw [nextFree, hn, hcursor] at hnext
  obtain ⟨q, hle, hqp, hq⟩ := find?_cyclicFrom_le (Nat.zero_lt_of_lt hi) hnext hpos (by rw [hfree]; rfl)
  obtain ⟨hmod, hlt⟩ := h.given i hi
  exact mod_ne_of_turn (n := events) (show s.posOf i < q by omega) (by omega) (hq.trans hmod.symm)

end

theorem mem_of_mapM {α β : Type} {f : α → Option β} {xs : List α} {ys : List β}
    (h : xs.mapM f = some ys) {y : β}
    (hy : y ∈ ys) : ∃ x ∈ xs, f x = some y := by
  induction xs generalizing ys with
  | nil =>
    rw [List.mapM_nil] at h
    cases h
    cases hy
  | cons x xs ih =>
    rw [List.mapM_cons] at h
    obtain ⟨z, hz, h⟩ := Option.bind_eq_some_iff.mp h
    obtain ⟨zs, hzs, h⟩ := Option.bind_eq_some_iff.mp h
    cases h
    rcases List.mem_cons.mp hy with rfl | hy
    · exact ⟨x, List.mem_cons_self, hz⟩
    · obtain ⟨x', hx', hfx⟩ := ih hzs hy
      exact ⟨x', List.mem_cons_of_mem x hx', hfx⟩

omit [DecidableEq F] in
theorem collect_real {slot : UevSlot (Option F)} {x : PollSource F × BitVec 16} {pe : PollEvent}
    (h : collect slot x = some pe) : 0 ≤ pe.data.fd := by
  obtain ⟨source, mask⟩ := x
  cases source with
  | signal fd =>
    change (if fd < 0 then none else some _) = some pe at h
    split at h
    · cases h
    · rename_i hfd
      cases h
      exact not_lt.mp hfd
  | stream e =>
    obtain ⟨data, -, h⟩ := Option.bind_eq_some_iff.mp h
    split at h
    · cases h
    · rename_i hfd
      cases h
      exact not_lt.mp hfd

theorem streamDisableLocked_evidr (slot : UevSlot (Option F)) (ev : Option F) (mask : BitVec 16) :
    (streamDisableLocked slot ev mask).evidr = slot.evidr := by
  unfold streamDisableLocked
  split
  · rfl
  · dsimp only
    split
    · rfl
    · rfl

theorem processStream_cases {slot : UevSlot (Option F)} {pe : PollEvent}
    {r : UevSlot (Option F) × Option (Option F)}
    (h : processStream slot pe = some r) : (r.1 = slot ∨ ∃ ev mask, r.1 = streamDisableLocked slot ev mask) ∧
      ∀ e, r.2 = some e → streamLookup slot pe.data = some (some e) := by
  obtain ⟨found, hfound, hround⟩ := Option.map_eq_some_iff.mp h
  cases found with
  | none =>
    obtain rfl : (slot, none) = r := hround
    exact ⟨Or.inl rfl, fun e he => by cases he⟩
  | some ev =>
    dsimp only at hround
    have hslot : ∀ mask, (if (slot.streams ev).attached then streamDisableLocked slot ev mask
        else slot) = slot ∨
        ∃ ev' mask', (if (slot.streams ev).attached then streamDisableLocked slot ev mask else slot) =
          streamDisableLocked slot ev' mask' := by
      intro mask
      split
      · exact Or.inr ⟨ev, mask, rfl⟩
      · exact Or.inl rfl
    by_cases hidle : pe.mask &&& (slot.streams ev).mask = 0 ∧ pe.mask &&& (eventError ||| eventEof) = 0
    · rw [if_pos hidle] at hround
      rw [← hround]
      exact ⟨hslot _, fun e he => by cases he⟩
    · rw [if_neg hidle] at hround
      rw [← hround]
      exact ⟨hslot _, fun e he => by cases he; exact hfound⟩

theorem streamDisableLocked_lookup {slot : UevSlot (Option F)} (h : StreamBooks events none slot)
    (ev : Option F)
    (mask : BitVec 16) : StreamBooks events none (streamDisableLocked slot ev mask) ∧
      ∀ pd e, streamLookup (streamDisableLocked slot ev mask) pd = some (some e) →
        streamLookup slot pd = some (some e) := by
  obtain ⟨hbooks, hmoves⟩ := streamDisableLocked_books h ev mask
  refine ⟨hbooks, fun pd e hl => ?_⟩
  rw [hbooks.lookup_iff] at hl
  refine h.lookup_iff.mpr ?_
  unfold streamDisableLocked UevSlot.setMask UevSlot.setStream at hl
  dsimp only at hl
  split at hl
  · exact hl
  · split at hl
    · exact hl
    · by_cases he : e = ev
      · rw [he] at hl ⊢
        dsimp only at hl
        rw [Function.update_self] at hl
        exact hl
      · dsimp only at hl
        rw [Function.update_of_ne he] at hl
        exact hl

theorem processStream_moves {slot : UevSlot (Option F)} (h : StreamBooks events none slot) {pe : PollEvent}
    {r : UevSlot (Option F) × Option (Option F)} (hround : processStream slot pe = some r) :
    StreamBooks events none r.1 ∧ r.1.evidr = slot.evidr ∧
      ∀ pd e, streamLookup r.1 pd = some (some e) → streamLookup slot pd = some (some e) := by
  rcases (processStream_cases hround).1 with hslot | ⟨ev, mask, hslot⟩
  · rw [hslot]
    exact ⟨h, rfl, fun _ _ hl => hl⟩
  · obtain ⟨hbooks, hlookup⟩ := streamDisableLocked_lookup h ev mask
    rw [hslot]
    exact ⟨hbooks, streamDisableLocked_evidr slot ev mask, hlookup⟩

theorem poll_inv (h : StaleInv events s) {batch : List (PollSource F × BitVec 16)} {start : ℕ}
    (hs : pollStep s (.poll batch start) = some s') : StaleInv events s' := by
  rw [pollStep] at hs
  split at hs
  · obtain ⟨collected, hcollect, rfl⟩ := Option.map_eq_some_iff.mp hs
    refine ⟨h.books, h.cursor, h.given, fun pe hpe => ?_, fun _ _ _ _ => rfl, h.safe.delivered⟩
    rw [List.mem_rotate] at hpe
    obtain ⟨x, -, hx⟩ := mem_of_mapM hcollect hpe
    exact collect_real hx
  · cases hs

theorem process_inv (h : StaleInv events s) (hs : pollStep s .process = some s') : StaleInv events s' := by
  rw [pollStep] at hs
  cases hready : s.ready with
  | nil =>
    rw [hready] at hs
    cases hs
  | cons pe rest =>
    rw [hready] at hs
    obtain ⟨r, hround, rfl⟩ := Option.map_eq_some_iff.mp hs
    obtain ⟨hbooks, hevidr, hlookup⟩ := processStream_moves h.books hround
    have hmem : ∀ pe' ∈ rest, pe' ∈ s.ready := fun pe' hpe' => by
      rw [hready]
      exact List.mem_cons_of_mem pe hpe'
    have hcursor : s.pos % events = evidrCursor r.1 := by
      rw [h.cursor, evidrCursor, evidrCursor, hevidr]
    refine ⟨hbooks, hcursor, h.given, fun pe' hpe' => h.real pe' (hmem pe' hpe'),
      ⟨fun pe' hpe' e hl => ?_, fun d hd => ?_⟩⟩
    · exact h.safe.ready pe' (hmem pe' hpe') e (hlookup _ _ hl)
    · rcases List.mem_append.mp hd with hd | hd
      · obtain ⟨e, he, rfl⟩ := List.mem_map.mp hd
        have hpe : pe ∈ s.ready := by
          rw [hready]
          exact List.mem_cons_self
        exact h.safe.ready pe hpe e ((processStream_cases hround).2 e (Option.mem_toList.mp he))
      · exact h.safe.delivered d hd

theorem modify_inv (h : StaleInv events s) {e : F} {mask : BitVec 16} {up : Bool} {mem : Memory}
    {calls : ReactorCalls}
    (hgood : NotRound s (.modify e mask up mem calls))
    (hs : pollStep s (.modify e mask up mem calls) = some s') :
    StaleInv events s' := by
  obtain ⟨slot', rc, hrun, hbooks, hmoves, -⟩ :=
    uevStreamModify_books h.books (Option.some_ne_none e) up mem calls mask
  have hothers : ∀ pe ∈ s.ready, ∀ f, f ≠ some e → streamLookup slot' pe.data = some (some f) →
      s.fresh f = false :=
    fun pe hpe f hf hl => h.safe.ready pe hpe f (Moves.lookup_other h.books hbooks hmoves hf hl)
  rw [pollStep, hrun, Option.map_some, Option.some.injEq] at hs
  subst hs
  split
  · rename_i hnew
    have hid : (slot'.streams (some e)).id.toNat < events := by
      obtain ⟨m, htable⟩ := hbooks.table
      exact htable.lt_events ((htable.pending _ _).mpr ⟨hnew.2, rfl⟩)
    obtain ⟨hcursor, hgiven⟩ := Given.turn (h.given.give h.books.nrBit hid) hbooks
    refine ⟨hbooks, hcursor, hgiven, h.real, ⟨fun pe hpe f hl => ?_, h.safe.delivered⟩⟩
    have hl : streamLookup slot' pe.data = some (some f) := hl
    change Function.update s.fresh (some e) true f = false
    by_cases hf : f = some e
    · subst hf
      obtain ⟨hpend, -⟩ | ⟨-, hfd, hfree⟩ := Moves.lookup_self h.books hbooks hmoves hl
      · rw [hnew.1] at hpend
        cases hpend
      · have hlt : pe.data.id.toNat < events := by
          obtain ⟨m, htable⟩ := h.books.table
          exact (htable.idr.nextFree_spec htable.events_pos hfree).1
        have hn := h.books.nrBit
        obtain ⟨p, hp, hpos, hclear⟩ := hgood hnew.1 pe hpe hfd (hlt.trans_eq hn.symm)
        rw [hn] at hp hclear
        exact absurd hfree (h.nextFree_ne hlt hp hpos hclear)
    · rw [Function.update_of_ne hf]
      exact hothers pe hpe f hf hl
  · rename_i hold
    obtain ⟨hcursor, hgiven⟩ := Given.turn h.given hbooks
    refine ⟨hbooks, hcursor, hgiven, h.real, ⟨fun pe hpe f hl => ?_, h.safe.delivered⟩⟩
    have hl : streamLookup slot' pe.data = some (some f) := hl
    by_cases hf : f = some e
    · subst hf
      obtain ⟨-, hl'⟩ | ⟨hnew, -⟩ := Moves.lookup_self h.books hbooks hmoves hl
      · exact h.safe.ready pe hpe _ hl'
      · exact absurd ⟨hnew, (hbooks.lookup_iff.mp hl).1⟩ hold
    · exact hothers pe hpe f hf hl

theorem delete_inv (h : StaleInv events s) {e : F} (hs : pollStep s (.delete e) = some s') :
    StaleInv events s' := by
  obtain ⟨slot', rc, hrun, hbooks, hmoves, hgone⟩ := uevStreamDelete_books h.books (Option.some_ne_none e)
  rw [pollStep, hrun] at hs
  cases hs
  obtain ⟨hcursor, hgiven⟩ := Given.turn h.given hbooks
  refine ⟨hbooks, hcursor, hgiven, h.real, ⟨fun pe hpe f hl => ?_, h.safe.delivered⟩⟩
  have hl : streamLookup slot' pe.data = some (some f) := hl
  by_cases hf : f = some e
  · subst hf
    have hpend := (hbooks.lookup_iff.mp hl).1
    rw [hgone] at hpend
    cases hpend
  · exact h.safe.ready pe hpe f (Moves.lookup_other h.books hbooks hmoves hf hl)

theorem setFd_inv (h : StaleInv events s) {e : F} {t : UevStream}
    (hbooks : StreamBooks events none (s.slot.setStream (some e) t)) (ht : t.pending = true → t.fd < 0) :
    StaleInv events { s with slot := s.slot.setStream (some e) t } := by
  refine ⟨hbooks, h.cursor, h.given, h.real, ⟨fun pe hpe f hl => ?_, h.safe.delivered⟩⟩
  have hl' := hbooks.lookup_iff.mp hl
  change (Function.update s.slot.streams (some e) t f).pending = true ∧
    ((Function.update s.slot.streams (some e) t f).id.toNat : ℤ) = pe.data.id.toInt ∧
    (Function.update s.slot.streams (some e) t f).fd = pe.data.fd at hl'
  by_cases hf : f = some e
  · rw [hf, Function.update_self] at hl'
    have hneg := ht hl'.1
    have hreal := h.real pe hpe
    omega
  · rw [Function.update_of_ne hf] at hl'
    exact h.safe.ready pe hpe f (h.books.lookup_iff.mpr hl')

theorem init_inv (h : StaleInv events s) {e : F} {fd : ℤ} (hs : pollStep s (.init e fd) = some s') :
    StaleInv events s' := by
  rw [pollStep] at hs
  split at hs
  · cases hs
  · rename_i hpend
    rw [Bool.not_eq_true] at hpend
    cases hs
    obtain ⟨m, htable⟩ := h.books.table
    obtain ⟨hatt, hreg⟩ := h.books.wired (some e)
    refine setFd_inv h (StreamBooks.of_update (htable.setStream hpend.symm (htable.absent _ hpend).symm)
      (fun f _ => h.books.wired f) rfl (fun _ _ => rfl) rfl ?_) fun hp => by cases hp
    exact hreg.trans (hatt.trans hpend)

theorem closefd_inv (h : StaleInv events s) {e : F} (hs : pollStep s (.closefd e) = some s') :
    StaleInv events s' := by
  rw [pollStep] at hs
  cases hs
  obtain ⟨m, htable⟩ := h.books.table
  obtain ⟨hatt, hreg⟩ := h.books.wired (some e)
  exact setFd_inv h
    (StreamBooks.of_update (htable.setStream rfl rfl)
    (fun f _ => h.books.wired f) rfl (fun _ _ => rfl) hatt
    hreg) fun _ => show (-1 : ℤ) < 0 by decide

theorem pollStep_inv (s : PollState F) (a : PollAct F) (s' : PollState F) (h : StaleInv events s)
    (hgood : NotRound s a)
    (hs : pollStep s a = some s') : StaleInv events s' := by
  cases a with
  | poll batch start => exact poll_inv h hs
  | process => exact process_inv h hs
  | modify e mask up mem calls => exact modify_inv h hgood hs
  | delete e => exact delete_inv h hs
  | init e fd => exact init_inv h hs
  | closefd e => exact closefd_inv h hs

end Steps

/-- In every run in which no stream is registered after the cursor has come round to the id of an
event with its descriptor that is left of the batch, no event is left for, or was delivered to, a
stream that came after it. -/
theorem stale_events_safe {events : ℕ} {mem : Memory} {fds : Option F → ℤ} {slot : UevSlot (Option F)}
    (hstart : startSlot events mem fds none = some slot) (as : List (PollAct F)) (s : PollState F)
    (hgood : RunMeets pollStep NotRound (pollInit slot) as)
    (hrun : runActs pollStep (pollInit slot) as = some s) :
    StaleSafe s := by
  have hbooks := (startSlot_books hstart).1
  have hpos : 0 < events := Nat.zero_lt_of_lt hbooks.cursor_lt
  have hbefore : Given events (pollStart slot) :=
    fun i hi => ⟨Nat.mod_eq_of_lt hi, hi.trans_eq hbooks.nrBit.symm⟩
  obtain ⟨hcursor, hgiven⟩ := Given.turn (hbefore.give hbooks.nrBit hpos) hbooks
  have hinit : StaleInv events (pollInit slot) :=
    ⟨hbooks, hcursor, hgiven, (fun pe hpe => absurd hpe List.not_mem_nil),
      ⟨(fun pe hpe => absurd hpe List.not_mem_nil), fun d hd => absurd hd List.not_mem_nil⟩⟩
  exact (run_invariant pollStep_inv as _ s hinit hgood hrun).safe

instance (s : PollState F) : (a : PollAct F) → Decidable (NotRound s a)
  | .modify e _ _ _ _ =>
      inferInstanceAs (Decidable ((s.slot.streams (some e)).pending = false → ∀ pe ∈ s.ready,
      pe.data.fd = (s.slot.streams (some e)).fd → pe.data.id.toNat < s.slot.evidr.idt.nrBit →
        ∃ p < s.posOf pe.data.id.toNat + s.slot.evidr.idt.nrBit,
          s.pos ≤ p ∧ s.slot.evidr.idt.bit (p % s.slot.evidr.idt.nrBit) = false))
  | .poll _ _ | .process | .delete _ | .init _ _ | .closefd _ => inferInstanceAs (Decidable True)

/-- The notifier has descriptor 3, the stream `k` descriptor `k + 4`. -/
def fewFds : Option ℕ → ℤ
  | none => 3
  | some k => k + 4

def add (e : ℕ) : PollAct ℕ := .modify e eventRead true plenty willing

/-- Stream 1 is deleted after its event was collected, and stream 3 gets its descriptor and the id
after its id. -/
def reuseFd : List (PollAct ℕ) :=
  [add 1, .poll [(.stream (some 1), eventRead)] 0, .delete 1, .closefd 1, .init 3 5, add 3, .process]

theorem stale_events_safe_reuseFd : ∃ slot s, startSlot 4 plenty fewFds none = some slot ∧
    RunMeets pollStep NotRound (pollInit slot) reuseFd ∧ runActs pollStep (pollInit slot) reuseFd = some s ∧
    s.delivered = [] ∧ StaleSafe s := by
  have hrun : ((startSlot 4 plenty fewFds none).map fun slot =>
      (runChecks pollStep NotRound (pollInit slot) reuseFd,
        (runActs pollStep (pollInit slot) reuseFd).map PollState.delivered)) =
        some (true, some []) := by decide +kernel
  obtain ⟨slot, hstart, hrun⟩ := Option.map_eq_some_iff.mp hrun
  obtain ⟨hchecks, hdelivered⟩ := Prod.mk.inj hrun
  obtain ⟨s, hs, hempty⟩ := Option.map_eq_some_iff.mp hdelivered
  have hmeets := runMeets_of_checks hchecks
  exact ⟨slot, s, hstart, hmeets, hs, hempty, stale_events_safe hstart reuseFd s hmeets hs⟩

/-- With four ids: stream 2 comes and goes twice and moves the cursor past the last id. Then the id
of stream 1 is the first free one, and stream 3 gets it together with the descriptor. -/
def wrapAndReuse : List (PollAct ℕ) :=
  [add 1, add 2, .delete 2, add 2, .delete 2, .poll [(.stream (some 1), eventRead)] 0, .delete 1,
    .closefd 1, .init 3 5,
    add 3, .process]

/-- The event that was collected for stream 1 is delivered to stream 3. -/
theorem stale_event_delivered : ∃ slot s, startSlot 4 plenty fewFds none = some slot ∧
    runActs pollStep (pollInit slot) wrapAndReuse = some s ∧
    s.delivered =
      [{ stream := some 3, event := { data := { fd := 5, id := 1 }, mask := eventRead }, fresh := true }] ∧
    ¬ StaleSafe s := by
  have hrun : ((startSlot 4 plenty fewFds none).map fun slot =>
      (runActs pollStep (pollInit slot) wrapAndReuse).map PollState.delivered) =
      some (some [{ stream := some 3, event := { data := { fd := 5, id := 1 }, mask := eventRead }
                    fresh := true }]) := by
    decide +kernel
  obtain ⟨slot, hstart, hrun⟩ := Option.map_eq_some_iff.mp hrun
  obtain ⟨s, hs, hdelivered⟩ := Option.map_eq_some_iff.mp hrun
  refine ⟨slot, s, hstart, hs, hdelivered, fun hsafe => ?_⟩
  have hfresh := hsafe.delivered _ (hdelivered ▸ List.mem_cons_self)
  cases hfresh

end Skp.Process
