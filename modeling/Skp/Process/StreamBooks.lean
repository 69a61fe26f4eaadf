import Skp.Process.StreamModel

/-! # The books a slot keeps of its streams

Two flag bits of a stream, the id map, the counter and the kernel's registrations change one after
the other under the lock, and every exit of a call leaves them in agreement. -/
namespace Skp.Process
set_option autoImplicit false
open Skp.Adt Skp.Foundations

variable {E : Type}

/-! ## The map and the pending streams -/

/-- The map `m` of positions to streams: exactly the pending streams are in it, each at its id. -/
structure StreamTable (events : ℕ) (notifier : E) (m : ℕ → Option E) (slot : UevSlot E) : Prop where
  idr : IdrHolds 0 events m slot.evidr
  pending : ∀ i e, m i = some e ↔ (slot.streams e).pending = true ∧ (slot.streams e).id.toNat = i
  absent : ∀ e, (slot.streams e).pending = false → (slot.streams e).id = BitVec.ofNat 16 u16Max
  count : slot.nrEvents = BitVec.ofNat 32 {e | (slot.streams e).pending = true}.ncard
  finite : {e | (slot.streams e).pending = true}.Finite
  notified : m 0 = some notifier
  events_pos : 0 < events
  events_le : events ≤ u16Max

namespace StreamTable
variable {events : ℕ} {notifier : E} {m : ℕ → Option E} {slot slot' : UevSlot E} {e : E}

theorem events_small (h : StreamTable events notifier m slot) : events < s32Max := by
  have := h.events_le
  unfold u16Max at this
  unfold s32Max
  omega

theorem congr (h : StreamTable events notifier m slot) (hidr : slot'.evidr = slot.evidr)
    (hnr : slot'.nrEvents = slot.nrEvents)
    (hpending : ∀ e, (slot'.streams e).pending = (slot.streams e).pending)
    (hid : ∀ e, (slot'.streams e).id = (slot.streams e).id) : StreamTable events notifier m slot' := by
  refine ⟨hidr ▸ h.idr, fun i e => ?_, fun e he => ?_, ?_, ?_, h.notified, h.events_pos, h.events_le⟩
  · rw [hpending, hid]
    exact h.pending i e
  · rw [hid]
    exact h.absent e ((hpending e).symm.trans he)
  · simp only [hpending]
    exact hnr.trans h.count
  · simp only [hpending]
    exact h.finite

variable [DecidableEq E]

theorem setStream (h : StreamTable events notifier m slot) {s : UevStream}
    (hpending : s.pending = (slot.streams e).pending)
    (hid : s.id = (slot.streams e).id) : StreamTable events notifier m (slot.setStream e s) := by
  have hstream : ∀ f, ((slot.setStream e s).streams f).pending = (slot.streams f).pending ∧
      ((slot.setStream e s).streams f).id = (slot.streams f).id := by
    intro f
    change (Function.update slot.streams e s f).pending = _ ∧ (Function.update slot.streams e s f).id = _
    by_cases hf : f = e
    · rw [hf, Function.update_self]
      exact ⟨hpending, hid⟩
    · rw [Function.update_of_ne hf]
      exact ⟨rfl, rfl⟩
  exact h.congr rfl rfl (fun f => (hstream f).1) fun f => (hstream f).2

theorem unregister (h : StreamTable events notifier m slot) :
    StreamTable events notifier m (slot.unregister e) :=
  h.congr rfl rfl (fun _ => rfl) fun _ => rfl

theorem register (h : StreamTable events notifier m slot) : StreamTable events notifier m (slot.register e) :=
  h.congr rfl rfl (fun _ => rfl) fun _ => rfl

omit [DecidableEq E] in
theorem lt_events (h : StreamTable events notifier m slot) {i : ℕ} (hi : m i = some e) : i < events :=
  not_le.mp fun hge => by
    rw [h.idr.beyond i hge] at hi
    cases hi

omit [DecidableEq E] in
theorem find_iff (h : StreamTable events notifier m slot) (e : E) :
    idrFind slot.evidr (slot.streams e).id.toNat = some e ↔ (slot.streams e).pending = true := by
  rw [h.idr.find h.events_small, Nat.cast_zero, if_pos (Int.natCast_nonneg _), Int.sub_zero,
    Int.toNat_natCast, h.pending]
  exact ⟨fun hp => hp.1, fun hp => ⟨hp, rfl⟩⟩

omit [DecidableEq E] in
/-- The counter does not wrap: there are no more pending streams than ids. -/
theorem nrEvents_toNat (h : StreamTable events notifier m slot) :
    slot.nrEvents.toNat = {e | (slot.streams e).pending = true}.ncard := by
  have hle : {e | (slot.streams e).pending = true}.ncard ≤ events := by
    have hmap : {e | (slot.streams e).pending = true}.ncard ≤ (Finset.range events : Set ℕ).ncard := by
      refine Set.ncard_le_ncard_of_injOn (fun e => (slot.streams e).id.toNat) (fun e he => ?_)
        (fun e he f hf hef => ?_)
        (Finset.finite_toSet _)
      · exact Finset.mem_coe.mpr (Finset.mem_range.mpr (h.lt_events ((h.pending _ e).mpr ⟨he, rfl⟩)))
      · have hme := (h.pending _ e).mpr ⟨he, rfl⟩
        have hmf := (h.pending _ f).mpr ⟨hf, hef.symm⟩
        rw [hme] at hmf
        exact Option.some.inj hmf
    rw [Set.ncard_coe_finset, Finset.card_range] at hmap
    exact hmap
  have hmax := h.events_le
  unfold u16Max at hmax
  rw [h.count, BitVec.toNat_ofNat, Nat.mod_eq_of_lt (by omega)]

theorem pending_insert (e : E) (s : UevStream) (hs : s.pending = true) :
    {f | (Function.update slot.streams e s f).pending = true} =
      insert e {f | (slot.streams f).pending = true} := by
  ext f
  rw [Set.mem_insert_iff, Set.mem_ofPred_eq, Set.mem_ofPred_eq]
  by_cases hf : f = e
  · rw [hf, Function.update_self]
    exact iff_of_true hs (Or.inl rfl)
  · rw [Function.update_of_ne hf]
    exact ⟨Or.inr, fun h => h.resolve_left hf⟩

theorem pending_remove (e : E) (s : UevStream) (hs : s.pending = false) :
    {f | (Function.update slot.streams e s f).pending = true} =
      {f | (slot.streams f).pending = true} \ {e} := by
  ext f
  rw [Set.mem_sdiff, Set.mem_singleton_iff, Set.mem_ofPred_eq, Set.mem_ofPred_eq]
  by_cases hf : f = e
  · rw [hf, Function.update_self, hs]
    exact iff_of_false Bool.false_ne_true fun h => h.2 rfl
  · rw [Function.update_of_ne hf]
    exact ⟨fun h => ⟨h, hf⟩, fun h => h.1⟩

/-- `stream_insert` binds the stream to the first free id from the cursor on, or fails and changes
no stream. -/
theorem insert (h : StreamTable events notifier m slot) (mem : Memory)
    (he : (slot.streams e).pending = false) :
    ∃ slot' rc, streamInsert mem slot e = some (slot', rc) ∧ slot'.registered = slot.registered ∧
      ((∃ i, nextFree slot.evidr.idt = some i ∧ rc = 0 ∧
          StreamTable events notifier (Function.update m i (some e)) slot' ∧ slot'.evidr.idt.last = i ∧
          slot'.streams =
            Function.update slot.streams e { slot.streams e with pending := true, id := BitVec.ofNat 16 i }) ∨
        rc = eNOMEM ∧ StreamTable events notifier m slot' ∧ slot'.streams = slot.streams) := by
  obtain ⟨idr', r, halloc, hres⟩ := h.idr.alloc h.events_pos h.events_small mem.pageOk mem.nodeOk e
  rw [streamInsert, he, if_neg Bool.false_ne_true, halloc, Option.bind_some]
  obtain ⟨i, hfree, rfl, hidr, hlast⟩ | ⟨hneg, hidr⟩ := hres
  · obtain ⟨hi, hnone⟩ := h.idr.nextFree_spec h.events_pos hfree
    have hmax := h.events_le
    unfold u16Max at hmax
    have hbits : BitVec.ofInt 16 ((i + 0 : ℕ) : ℤ) = BitVec.ofNat 16 i := by
      rw [Nat.add_zero, BitVec.ofInt_natCast]
    have hval : (BitVec.ofNat 16 i).toNat = i := by
      rw [BitVec.toNat_ofNat]
      omega
    have hfits : ¬((u16Max : ℤ) < ((i + 0 : ℕ) : ℤ)) := by
      unfold u16Max
      omega
    rw [if_neg (by omega), if_neg hfits, hbits]
    refine ⟨_, _, rfl, rfl,
      Or.inl ⟨i, hfree, rfl, ⟨hidr, fun j f => ?_, fun f hf => ?_, ?_, ?_, ?_, h.events_pos,
      h.events_le⟩, hlast, rfl⟩⟩
    · change Function.update m i (some e) j = some f ↔ (Function.update slot.streams e _ f).pending = true ∧
        (Function.update slot.streams e _ f).id.toNat = j
      by_cases hf : f = e
      · subst hf
        rw [Function.update_self]
        change _ ↔ true = true ∧ (BitVec.ofNat 16 i).toNat = j
        rw [hval]
        by_cases hj : j = i
        · rw [hj, Function.update_self]
          exact iff_of_true rfl ⟨rfl, rfl⟩
        · rw [Function.update_of_ne hj]
          refine iff_of_false (fun hm => ?_) fun hm => hj hm.2.symm
          rw [((h.pending j f).mp hm).1] at he
          cases he
      · rw [Function.update_of_ne hf]
        by_cases hj : j = i
        · rw [hj, Function.update_self]
          refine iff_of_false (fun hm => hf (Option.some.inj hm).symm) fun hm => ?_
          rw [(h.pending i f).mpr hm] at hnone
          cases hnone
        · rw [Function.update_of_ne hj]
          exact h.pending j f
    · change (Function.update slot.streams e _ f).id = _
      change (Function.update slot.streams e _ f).pending = false at hf
      by_cases hfe : f = e
      · rw [hfe, Function.update_self] at hf
        cases hf
      · rw [Function.update_of_ne hfe] at hf ⊢
        exact h.absent f hf
    · change slot.nrEvents + 1 =
        BitVec.ofNat 32 (Set.ncard {f | (Function.update slot.streams e _ f).pending = true})
      have hnot : e ∉ {f | (slot.streams f).pending = true} := by
        rw [Set.mem_ofPred_eq, he]
        exact Bool.false_ne_true
      rw [pending_insert e _ rfl, Set.ncard_insert_of_notMem hnot h.finite, BitVec.ofNat_add, ← h.count]
      rfl
    · change Set.Finite {f | (Function.update slot.streams e _ f).pending = true}
      rw [pending_insert e _ rfl]
      exact h.finite.insert e
    · rw [Function.update_of_ne]
      · exact h.notified
      · rintro rfl
        rw [h.notified] at hnone
        cases hnone
  · rw [if_pos hneg]
    exact ⟨_, _, rfl, rfl,
      Or.inr ⟨rfl, ⟨hidr, h.pending, h.absent, h.count, h.finite, h.notified, h.events_pos,
      h.events_le⟩, rfl⟩⟩

theorem remove (h : StreamTable events notifier m slot) (he : (slot.streams e).pending = true)
    (hne : e ≠ notifier) :
    ∃ slot', streamRemove slot e = some (slot', 1) ∧ slot'.registered = slot.registered ∧
      StreamTable events notifier (Function.update m (slot.streams e).id.toNat none) slot' ∧
      slot'.streams =
        Function.update slot.streams e { slot.streams e with
          pending := false
          id := BitVec.ofNat 16 u16Max } := by
  have hm := (h.pending _ e).mpr ⟨he, rfl⟩
  have hzero : (0 : ℕ) ≠ (slot.streams e).id.toNat := by
    intro h0
    rw [← h0, h.notified] at hm
    exact hne (Option.some.inj hm).symm
  obtain ⟨idr', hremove, hidr⟩ := h.idr.remove h.events_small hm
    ⟨0, hzero, by rw [h.notified]; exact Option.some_ne_none notifier⟩
  have hid : ((0 : ℕ) : ℤ) + ((slot.streams e).id.toNat : ℤ) = (slot.streams e).id.toNat := Int.zero_add _
  rw [hid] at hremove
  rw [streamRemove, he, Bool.not_true, if_neg Bool.false_ne_true, hremove, Option.bind_some,
    if_neg (not_not.mpr rfl)]
  refine ⟨_, rfl, rfl, ⟨hidr, fun j f => ?_, fun f hf => ?_, ?_, ?_, ?_, h.events_pos, h.events_le⟩, rfl⟩
  · change Function.update m _ none j = some f ↔ (Function.update slot.streams e _ f).pending = true ∧
      (Function.update slot.streams e _ f).id.toNat = j
    by_cases hf : f = e
    · subst hf
      rw [Function.update_self]
      refine iff_of_false (fun hmj => ?_) fun hp => Bool.false_ne_true hp.1
      by_cases hj : j = (slot.streams f).id.toNat
      · rw [hj, Function.update_self] at hmj
        cases hmj
      · rw [Function.update_of_ne hj] at hmj
        exact hj ((h.pending j f).mp hmj).2.symm
    · rw [Function.update_of_ne hf]
      by_cases hj : j = (slot.streams e).id.toNat
      · rw [hj, Function.update_self]
        refine iff_of_false (fun hmj => by cases hmj) fun hp => ?_
        rw [(h.pending _ f).mpr hp] at hm
        exact hf (Option.some.inj hm)
      · rw [Function.update_of_ne hj]
        exact h.pending j f
  · change (Function.update slot.streams e _ f).id = _
    change (Function.update slot.streams e _ f).pending = false at hf
    by_cases hfe : f = e
    · rw [hfe, Function.update_self]
    · rw [Function.update_of_ne hfe] at hf ⊢
      exact h.absent f hf
  · change slot.nrEvents - 1 =
      BitVec.ofNat 32 (Set.ncard {f | (Function.update slot.streams e _ f).pending = true})
    have hcard :=
      Set.ncard_sdiff_singleton_add_one (show e ∈ {f | (slot.streams f).pending = true}
        from he) h.finite
    rw [pending_remove e _ rfl, h.count, ← hcard, BitVec.ofNat_add]
    exact add_sub_cancel_right _ _
  · change Set.Finite {f | (Function.update slot.streams e _ f).pending = true}
    rw [pending_remove e _ rfl]
    exact h.finite.sdiff
  · rw [Function.update_of_ne hzero]
    exact h.notified

end StreamTable

/-! ## The calls -/

/-- A stream that no call is working on is attached and registered exactly when it is pending. -/
def Wired (slot : UevSlot E) (e : E) : Prop :=
  (slot.streams e).attached = (slot.streams e).pending ∧
    (slot.registered e).isSome = (slot.streams e).attached

structure StreamBooks (events : ℕ) (notifier : E) (slot : UevSlot E) : Prop where
  table : ∃ m, StreamTable events notifier m slot
  wired : ∀ e, Wired slot e

/-- What a call on stream `e` does to the streams: no other one changes and `e` keeps its
descriptor; it keeps its place, leaves the map, or enters it at the first free id from the cursor
on. -/
def Moves [DecidableEq E] (slot slot' : UevSlot E) (e : E) : Prop :=
  ∃ s, slot'.streams = Function.update slot.streams e s ∧ s.fd = (slot.streams e).fd ∧
    (s.pending = (slot.streams e).pending ∧ s.id = (slot.streams e).id ∨ s.pending = false ∨
      (slot.streams e).pending = false ∧ nextFree slot.evidr.idt = some s.id.toNat)

section Calls
variable {events : ℕ} {notifier : E} {m : ℕ → Option E} {slot slot' : UevSlot E} {e : E}

variable [DecidableEq E]

theorem Moves.refl (slot : UevSlot E) (e : E) : Moves slot slot e :=
  ⟨slot.streams e, (Function.update_eq_self e slot.streams).symm, rfl, Or.inl ⟨rfl, rfl⟩⟩

omit [DecidableEq E] in
theorem Wired.congr (h : Wired slot e) (hstream : slot'.streams e = slot.streams e)
    (hreg : slot'.registered e = slot.registered e) : Wired slot' e := by
  unfold Wired
  rw [hstream, hreg]
  exact h

theorem StreamBooks.of_update (htable : StreamTable events notifier m slot')
    (hbooks : ∀ f, f ≠ e → Wired slot f)
    {s : UevStream} (hstreams : slot'.streams = Function.update slot.streams e s)
    (hreg : ∀ f, f ≠ e → slot'.registered f = slot.registered f) (hs : s.attached = s.pending)
    (hregs : (slot'.registered e).isSome = s.attached) : StreamBooks events notifier slot' := by
  refine ⟨⟨m, htable⟩, fun f => ?_⟩
  by_cases hf : f = e
  · unfold Wired
    rw [hf, hstreams, Function.update_self]
    exact ⟨hs, hregs⟩
  · refine (hbooks f hf).congr ?_ (hreg f hf)
    rw [hstreams, Function.update_of_ne hf]

theorem attachFail_books (htable : StreamTable events notifier m slot) (hbooks : ∀ f, f ≠ e → Wired slot f)
    (he : (slot.streams e).pending = true) (hne : e ≠ notifier) (hreg : slot.registered e = none) (rc : ℤ) :
    ∃ slot' s, attachFail slot e rc = some (slot', rc) ∧ StreamBooks events notifier slot' ∧
      slot'.streams = Function.update slot.streams e s ∧ s.fd = (slot.streams e).fd ∧ s.pending = false ∧
      s.attached = false := by
  have hstream : (slot.setAttached e false).streams e = { slot.streams e with attached := false } :=
    Function.update_self _ _ _
  have htable' : StreamTable events notifier m (slot.setAttached e false) := htable.setStream rfl rfl
  obtain ⟨slot', hremove, hregs, hafter, hstreams⟩ := htable'.remove (by rw [hstream]; exact he) hne
  rw [hstream] at hstreams
  have hupdate : slot'.streams = Function.update slot.streams e
      { slot.streams e with attached := false, pending := false, id := BitVec.ofNat 16 u16Max } := by
    rw [hstreams]
    exact Function.update_idem _ _ _
  rw [attachFail, hremove, Option.map_some]
  refine ⟨slot', _, rfl,
    StreamBooks.of_update hafter hbooks hupdate (fun f _ => congrFun hregs f) rfl ?_, hupdate, rfl,
    rfl, rfl⟩
  have hnone : slot'.registered e = none := (congrFun hregs e).trans hreg
  rw [hnone]
  rfl

theorem modifyFail_books (htable : StreamTable events notifier m slot) (hbooks : ∀ f, f ≠ e → Wired slot f)
    (he : (slot.streams e).pending = true) (hne : e ≠ notifier) (rc : ℤ) :
    ∃ slot' s, modifyFail slot e rc = some (slot', rc) ∧ StreamBooks events notifier slot' ∧
      slot'.streams = Function.update slot.streams e s ∧ s.fd = (slot.streams e).fd ∧ s.pending = false ∧
      s.attached = false := by
  refine attachFail_books htable.unregister (fun f hf => ?_) he hne (Function.update_self _ _ _) rc
  exact (hbooks f hf).congr rfl (Function.update_of_ne hf _ _)

/-- What a modify call leaves of its stream: in its place with the new mask, or out of the map. -/
def ModifyLeaves (rc : ℤ) (s : UevStream) (id mask : BitVec 16) : Prop :=
  rc = 0 ∧ s.pending = true ∧ s.id = id ∧ s.attached = true ∧ s.mask = mask ∨ rc ≠ 0 ∧
    s.pending = false ∧ s.attached = false

theorem attachLocked_new (htable : StreamTable events notifier m slot) (hbooks : ∀ f, f ≠ e → Wired slot f)
    (he : (slot.streams e).pending = true) (hatt : (slot.streams e).attached = false)
    (hreg : slot.registered e = none)
    (hne : e ≠ notifier) (calls : ReactorCalls) (mask : BitVec 16) :
    ∃ slot' rc s, attachLocked calls slot e mask = some (slot', rc) ∧ StreamBooks events notifier slot' ∧
      slot'.streams = Function.update slot.streams e s ∧ s.fd = (slot.streams e).fd ∧
      ModifyLeaves rc s (slot.streams e).id mask := by
  have htable' : StreamTable events notifier m (slot.setAttached e true) := htable.setStream rfl rfl
  have hstream : (slot.setAttached e true).streams e = { slot.streams e with attached := true } :=
    Function.update_self _ _ _
  have hothers : ∀ f, f ≠ e → Wired (slot.setAttached e true) f := fun f hf =>
    (hbooks f hf).congr (Function.update_of_ne hf _ _) rfl
  rw [attachLocked]
  dsimp only
  rw [hatt, Bool.not_false, if_pos rfl]
  split
  · rename_i hfail
    obtain ⟨slot', s, hrun, hafter, hstreams, hfd, hpend, hatt'⟩ := attachFail_books htable' hothers
      (by rw [hstream]; exact he) hne hreg calls.register
    refine ⟨slot', _, s, hrun, hafter, ?_, ?_, Or.inr ⟨hfail, hpend, hatt'⟩⟩
    · rw [hstreams]
      exact Function.update_idem _ _ _
    · rw [hfd, hstream]
  · have hupdate : (((slot.setAttached e true).register e).setMask e mask).streams =
        Function.update slot.streams e { slot.streams e with attached := true, mask := mask } := by
      change Function.update (Function.update slot.streams e _) e
        { (Function.update slot.streams e _) e with mask := mask } = _
      rw [Function.update_self, Function.update_idem]
    refine ⟨_, _, _, rfl,
      StreamBooks.of_update (htable'.register.setStream rfl rfl) hbooks hupdate
      (fun f hf => ?_) he.symm ?_,
      hupdate, rfl, Or.inl ⟨rfl, he, rfl, rfl, rfl⟩⟩
    · exact Function.update_of_ne hf _ _
    · change (Function.update slot.registered e _ e).isSome = true
      rw [Function.update_self]
      rfl

theorem attachLocked_again (hbooks : StreamBooks events notifier slot) (he : (slot.streams e).pending = true)
    (hne : e ≠ notifier) (calls : ReactorCalls) (mask : BitVec 16) :
    ∃ slot' rc s, attachLocked calls slot e mask = some (slot', rc) ∧ StreamBooks events notifier slot' ∧
      slot'.streams = Function.update slot.streams e s ∧ s.fd = (slot.streams e).fd ∧
      ModifyLeaves rc s (slot.streams e).id mask := by
  obtain ⟨m, htable⟩ := hbooks.table
  have hfail : ∀ rc, rc ≠ 0 → ∃ slot' rc' s, modifyFail slot e rc = some (slot', rc') ∧
      StreamBooks events notifier slot' ∧
      slot'.streams = Function.update slot.streams e s ∧ s.fd = (slot.streams e).fd ∧
      ModifyLeaves rc' s (slot.streams e).id mask := by
    intro rc hrc
    obtain ⟨slot', s, hrun, hafter, hstreams, hfd, hpend, hatt⟩ :=
      modifyFail_books htable (fun f _ => hbooks.wired f) he hne rc
    exact ⟨slot', rc, s, hrun, hafter, hstreams, hfd, Or.inr ⟨hrc, hpend, hatt⟩⟩
  rw [attachLocked]
  dsimp only
  rw [(hbooks.wired e).1, he, Bool.not_true, if_neg Bool.false_ne_true]
  split
  · rename_i hmodify
    exact hfail _ hmodify.2.2
  · split
    · rename_i henable
      exact hfail _ henable.2.2
    · refine ⟨_, _, _, rfl, StreamBooks.of_update (htable.setStream rfl rfl) (fun f _ => hbooks.wired f) rfl
        (fun _ _ => rfl) (hbooks.wired e).1 (hbooks.wired e).2, rfl, rfl,
        Or.inl ⟨rfl, he, rfl, (hbooks.wired e).1.trans he, rfl⟩⟩

/-- `__uev_stream_modify` keeps the books and moves one stream; a success has attached it with its
new mask, and a failure under the lock leaves it neither pending nor attached. -/
theorem uevStreamModify_books (hbooks : StreamBooks events notifier slot) (hne : e ≠ notifier)
    (up : Bool) (mem : Memory)
    (calls : ReactorCalls) (mask : BitVec 16) :
    ∃ slot' rc, uevStreamModify up mem calls slot e mask = some (slot', rc) ∧
      StreamBooks events notifier slot' ∧
      Moves slot slot' e ∧
      (mask &&& ~~~(eventActionMask ||| eventEdge) = 0 → up = true →
        ∃ id, ModifyLeaves rc (slot'.streams e) id mask) := by
  rw [uevStreamModify]
  by_cases hmask : mask &&& ~~~(eventActionMask ||| eventEdge) = 0
  · rw [if_neg (not_not.mpr hmask)]
    cases up with
    | false => exact ⟨slot, eNODEV, rfl, hbooks, Moves.refl slot e, fun _ hup => by cases hup⟩
    | true =>
      rw [Bool.not_true, if_neg Bool.false_ne_true]
      cases he : (slot.streams e).pending with
      | true =>
        obtain ⟨slot', rc, s, hrun, hafter, hstreams, hfd, hres⟩ :=
          attachLocked_again hbooks he hne calls mask
        rw [streamInsert, he, if_pos rfl, Option.bind_some, if_neg (not_not.mpr rfl)]
        refine ⟨slot', rc, hrun, hafter, ⟨s, hstreams, hfd, ?_⟩, fun _ _ => ⟨(slot.streams e).id, ?_⟩⟩
        · exact hres.imp (fun h => ⟨h.2.1.trans he.symm, h.2.2.1⟩) fun h => Or.inl h.2.1
        · rw [hstreams, Function.update_self]
          exact hres
      | false =>
        obtain ⟨m, htable⟩ := hbooks.table
        obtain ⟨slot₁, rc, hinsert, hreg, hres⟩ := htable.insert mem he
        have hatt : (slot.streams e).attached = false := (hbooks.wired e).1.trans he
        have hnone : slot.registered e = none := by
          have hsome := (hbooks.wired e).2
          rw [hatt] at hsome
          exact Option.isSome_eq_false_iff.mp hsome |> Option.isNone_iff_eq_none.mp
        rw [hinsert, Option.bind_some]
        obtain ⟨i, hfree, rfl, htable₁, -, hstreams₁⟩ | ⟨rfl, htable₁, hstreams₁⟩ := hres
        · rw [if_neg (not_not.mpr rfl)]
          have hstream : slot₁.streams e = { slot.streams e with
            pending := true
            id := BitVec.ofNat 16 i } := by
            rw [hstreams₁, Function.update_self]
          have hothers : ∀ f, f ≠ e → Wired slot₁ f := fun f hf =>
            (hbooks.wired f).congr (by rw [hstreams₁, Function.update_of_ne hf]) (congrFun hreg f)
          obtain ⟨slot', rc, s, hrun, hafter, hstreams, hfd, hres⟩ :=
            attachLocked_new htable₁ hothers (by rw [hstream])
            (by rw [hstream]; exact hatt) ((congrFun hreg e).trans hnone) hne calls mask
          refine ⟨slot', rc, hrun, hafter, ⟨s, ?_, ?_, ?_⟩, fun _ _ => ⟨(slot₁.streams e).id, ?_⟩⟩
          · rw [hstreams, hstreams₁]
            exact Function.update_idem _ _ _
          · rw [hfd, hstream]
          · obtain ⟨-, -, hid, -⟩ | ⟨-, hpend, -⟩ := hres
            · have hi := (htable.idr.nextFree_spec htable.events_pos hfree).1
              have hmax := htable.events_le
              unfold u16Max at hmax
              refine Or.inr (Or.inr ⟨he, ?_⟩)
              rw [hid, hstream, hfree]
              change some i = some (BitVec.ofNat 16 i).toNat
              rw [BitVec.toNat_ofNat, Nat.mod_eq_of_lt (by omega)]
            · exact Or.inr (Or.inl hpend)
          · rw [hstreams, Function.update_self]
            exact hres
        · rw [if_pos (show eNOMEM ≠ 0 by decide)]
          refine ⟨slot₁, eNOMEM, rfl, ⟨⟨m, htable₁⟩, fun f => ?_⟩, ?_, fun _ _ => ⟨0, Or.inr ⟨by decide, ?_⟩⟩⟩
          · exact (hbooks.wired f).congr (congrFun hstreams₁ f) (congrFun hreg f)
          · exact ⟨slot.streams e, by rw [hstreams₁, Function.update_eq_self], rfl, Or.inl ⟨rfl, rfl⟩⟩
          · rw [hstreams₁]
            exact ⟨he, hatt⟩
  · rw [if_pos hmask]
    exact ⟨slot, eINVAL, rfl, hbooks, Moves.refl slot e, fun h0 => absurd h0 hmask⟩

theorem uevStreamDelete_books (hbooks : StreamBooks events notifier slot) (hne : e ≠ notifier) :
    ∃ slot' rc, uevStreamDelete slot e = some (slot', rc) ∧ StreamBooks events notifier slot' ∧
      Moves slot slot' e ∧
      (slot'.streams e).pending = false := by
  obtain ⟨m, htable⟩ := hbooks.table
  rw [uevStreamDelete]
  cases he : (slot.streams e).pending with
  | false =>
    rw [(hbooks.wired e).1, he, if_neg Bool.false_ne_true, streamRemove, he, Bool.not_false, if_pos rfl]
    exact ⟨slot, 0, rfl, hbooks, Moves.refl slot e, he⟩
  | true =>
    rw [(hbooks.wired e).1, he, if_pos rfl]
    have hstream : ((slot.setAttached e false).unregister e).streams e =
        { slot.streams e with attached := false } :=
      Function.update_self _ _ _
    have htable' : StreamTable events notifier m (slot.setAttached e false) := htable.setStream rfl rfl
    obtain ⟨slot', hremove, hreg, hafter, hstreams⟩ :=
      htable'.unregister.remove (by rw [hstream]; exact he) hne
    rw [hstream] at hstreams
    have hupdate : slot'.streams = Function.update slot.streams e
        { slot.streams e with attached := false, pending := false, id := BitVec.ofNat 16 u16Max } := by
      rw [hstreams]
      exact Function.update_idem _ _ _
    refine ⟨slot', 1, hremove,
      StreamBooks.of_update hafter (fun f _ => hbooks.wired f) hupdate (fun f hf => ?_) rfl ?_,
      ⟨_, hupdate, rfl, Or.inr (Or.inl rfl)⟩, ?_⟩
    · exact (congrFun hreg f).trans (Function.update_of_ne hf _ _)
    · have hnone : slot'.registered e = none := (congrFun hreg e).trans (Function.update_self _ _ _)
      rw [hnone]
      rfl
    · rw [hupdate, Function.update_self]

theorem streamDisableLocked_books (hbooks : StreamBooks events notifier slot) (e : E) (mask : BitVec 16) :
    StreamBooks events notifier (streamDisableLocked slot e mask) ∧
      Moves slot (streamDisableLocked slot e mask) e := by
  obtain ⟨m, htable⟩ := hbooks.table
  unfold streamDisableLocked
  split
  · exact ⟨hbooks, Moves.refl slot e⟩
  · dsimp only
    split
    · exact ⟨hbooks, Moves.refl slot e⟩
    · refine ⟨StreamBooks.of_update (htable.setStream rfl rfl)
        (fun f _ => hbooks.wired f) rfl (fun _ _ => rfl)
        (hbooks.wired e).1 (hbooks.wired e).2, ⟨_, rfl, rfl, Or.inl ⟨rfl, rfl⟩⟩⟩

theorem startSlot_books {mem : Memory} {fds : E → ℤ}
    (hstart : startSlot events mem fds notifier = some slot) :
    StreamBooks events notifier slot ∧ slot.evidr.idt.last = 0 ∧
      slot.streams = Function.update (fun e => uevStreamInit (fds e))
      notifier { uevStreamInit (fds notifier) with
        pending := true
        attached := true
        id := 0
        mask := eventRead } := by
  unfold startSlot at hstart
  split at hstart
  · cases hstart
  · rename_i hmax
    obtain ⟨idr, hinit, hstart⟩ := Option.bind_eq_some_iff.mp hstart
    dsimp only at hstart
    obtain ⟨r, hinsert, hstart⟩ := Option.bind_eq_some_iff.mp hstart
    unfold streamInsert at hinsert
    rw [if_neg (show ¬ (uevStreamInit (fds notifier)).pending = true from Bool.false_ne_true)] at hinsert
    obtain ⟨⟨idr', id⟩, halloc, hinsert⟩ := Option.bind_eq_some_iff.mp hinsert
    by_cases hneg : id < 0
    · rw [if_pos hneg] at hinsert
      cases hinsert
      rw [if_pos (show eNOMEM ≠ 0 by decide)] at hstart
      cases hstart
    · obtain ⟨hstop, hsmall, rfl, hidr, hlast⟩ := idrInitBase_alloc hinit halloc (not_lt.mp hneg)
      rw [if_neg hneg, if_neg (show ¬ (u16Max : ℤ) < ((0 : ℕ) : ℤ) by decide)] at hinsert
      cases hinsert
      rw [if_neg (not_not.mpr rfl)] at hstart
      cases hstart
      have hevents : events - 1 - 0 + 1 = events := by omega
      rw [hevents] at hidr
      generalize hslot : UevSlot.setMask _ notifier eventRead = slot
      have hstreams : slot.streams = Function.update (fun e => uevStreamInit (fds e)) notifier
          { uevStreamInit (fds notifier) with
            pending := true
            attached := true
            id := 0
            mask := eventRead } := by
        simp only [← hslot, UevSlot.setMask, UevSlot.setAttached, UevSlot.register,
          UevSlot.setStream, Function.update_self,
          Function.update_idem]
        rfl
      have hpending : {e | (slot.streams e).pending = true} = {notifier} := by
        ext f
        rw [Set.mem_ofPred_eq, Set.mem_singleton_iff, hstreams]
        by_cases hf : f = notifier
        · rw [hf, Function.update_self]
          exact iff_of_true rfl rfl
        · rw [Function.update_of_ne hf]
          exact iff_of_false Bool.false_ne_true hf
      have hreg : ∀ f, (slot.registered f).isSome = decide (f = notifier) := by
        intro f
        rw [← hslot]
        change (Function.update (fun _ => none) notifier (some _) f).isSome = _
        by_cases hf : f = notifier
        · rw [hf, Function.update_self, decide_eq_true rfl]
          rfl
        · rw [Function.update_of_ne hf, decide_eq_false hf]
          rfl
      have hstream : ∀ f, f ≠ notifier → slot.streams f = uevStreamInit (fds f) := fun f hf => by
        rw [hstreams, Function.update_of_ne hf]
      have hnotifier : slot.streams notifier =
          { uevStreamInit (fds notifier) with
            pending := true
            attached := true
            id := 0
            mask := eventRead } := by
        rw [hstreams, Function.update_self]
      have hevidr : slot.evidr = idr' := by rw [← hslot]; rfl
      refine ⟨⟨⟨_, hevidr ▸ hidr, fun i f => ?_, fun f hf => ?_, ?_, ?_, Function.update_self _ _ _,
        by omega, by omega⟩,
        fun f => ?_⟩, hevidr ▸ hlast, hstreams⟩
      · by_cases hf : f = notifier
        · rw [hf, hnotifier]
          change _ ↔ true = true ∧ 0 = i
          by_cases hi : i = 0
          · rw [hi, Function.update_self]
            exact iff_of_true rfl ⟨rfl, rfl⟩
          · rw [Function.update_of_ne hi]
            exact iff_of_false (fun h => by cases h) fun h => hi h.2.symm
        · rw [hstream f hf]
          refine iff_of_false (fun h => ?_) fun h => Bool.false_ne_true h.1
          by_cases hi : i = 0
          · rw [hi, Function.update_self] at h
            exact hf (Option.some.inj h).symm
          · rw [Function.update_of_ne hi] at h
            cases h
      · by_cases hne : f = notifier
        · rw [hne, hnotifier] at hf
          cases hf
        · rw [hstream f hne]
          rfl
      · rw [hpending, Set.ncard_singleton, ← hslot]
        rfl
      · rw [hpending]
        exact Set.finite_singleton notifier
      · unfold Wired
        rw [hreg f]
        by_cases hf : f = notifier
        · rw [hf, hnotifier]
          exact ⟨rfl, decide_eq_true rfl⟩
        · rw [hstream f hf]
          exact ⟨rfl, decide_eq_false hf⟩

end Calls

/-! ## Runs

The streams of a slot are the notifier, here `none`, and those of its users. -/

inductive StreamCmd (F : Type) where
  | modify (e : F) (mask : BitVec 16) (up : Bool) (mem : Memory) (calls : ReactorCalls)
  | delete (e : F)
  | disable (e : Option F) (mask : BitVec 16)

variable {F : Type} [DecidableEq F]

def streamExec (slot : UevSlot (Option F)) : StreamCmd F → Option (UevSlot (Option F) × ℤ)
  | .modify e mask up mem calls => uevStreamModify up mem calls slot (some e) mask
  | .delete e => uevStreamDelete slot (some e)
  | .disable e mask => some (streamDisableLocked slot e mask, 0)

def streamRun (slot : UevSlot (Option F)) : List (StreamCmd F) → Option (UevSlot (Option F))
  | [] => some slot
  | c :: cs => (streamExec slot c).bind fun r => streamRun r.1 cs

/-- A stream is pending when the map leads from its id to it, and nothing else is in the map;
attached when the kernel has it, and then it is pending; and `nr_events` counts the pending streams.
-/
structure BooksAgree (slot : UevSlot E) : Prop where
  pending : ∀ e, (slot.streams e).pending = true ↔ idrFind slot.evidr (slot.streams e).id.toNat = some e
  lookup : ∀ pd, (streamLookup slot pd).isSome
  attached_pending : ∀ e, (slot.streams e).attached = true → (slot.streams e).pending = true
  attached : ∀ e, (slot.streams e).attached = true ↔ ∃ pd, slot.registered e = some pd
  finite : {e | (slot.streams e).pending = true}.Finite
  nrEvents : slot.nrEvents.toNat = {e | (slot.streams e).pending = true}.ncard

theorem StreamTable.lookup_eq {events : ℕ} {notifier : E} {m : ℕ → Option E} {slot : UevSlot E}
    (h : StreamTable events notifier m slot)
    (pd : PollData) :
    streamLookup slot pd =
      some ((idrFind slot.evidr pd.id.toInt).filter fun e => (slot.streams e).fd = pd.fd) := by
  rw [streamLookup]
  cases hfind : idrFind slot.evidr pd.id.toInt with
  | none => rfl
  | some e =>
    rw [h.idr.find h.events_small] at hfind
    obtain ⟨-, hm⟩ := Option.ite_none_right_eq_some.mp hfind
    have hpend := ((h.pending _ e).mp hm).1
    by_cases hfd : (slot.streams e).fd = pd.fd
    · simp [Option.filter_some, hfd, hpend]
    · simp [Option.filter_some, hfd]

theorem StreamBooks.agree {events : ℕ} {notifier : E} {slot : UevSlot E}
    (h : StreamBooks events notifier slot) :
    BooksAgree slot := by
  obtain ⟨m, htable⟩ := h.table
  refine ⟨fun e => (htable.find_iff e).symm,
    fun pd =>
    by rw [htable.lookup_eq]; rfl, fun e he => (h.wired
    e).1.symm.trans he, fun e => ?_, htable.finite,
    htable.nrEvents_toNat⟩
  rw [← (h.wired e).2, Option.isSome_iff_exists]

theorem streamExec_books {events : ℕ} {slot : UevSlot (Option F)} (h : StreamBooks events none slot)
    (c : StreamCmd F) :
    ∃ slot' rc, streamExec slot c = some (slot', rc) ∧ StreamBooks events none slot' := by
  cases c with
  | modify e mask up mem calls =>
    obtain ⟨slot', rc, hrun, hafter, -, -⟩ :=
      uevStreamModify_books h (Option.some_ne_none e) up mem calls mask
    exact ⟨slot', rc, hrun, hafter⟩
  | delete e =>
    obtain ⟨slot', rc, hrun, hafter, -, -⟩ := uevStreamDelete_books h (Option.some_ne_none e)
    exact ⟨slot', rc, hrun, hafter⟩
  | disable e mask => exact ⟨_, 0, rfl, (streamDisableLocked_books h e mask).1⟩

theorem streamRun_books {events : ℕ} {slot : UevSlot (Option F)} (h : StreamBooks events none slot)
    (cs : List (StreamCmd F)) : ∃ slot', streamRun slot cs = some slot' ∧ StreamBooks events none slot' := by
  induction cs generalizing slot with
  | nil => exact ⟨slot, rfl, h⟩
  | cons c cs ih =>
    obtain ⟨slot₁, rc, hexec, hbooks⟩ := streamExec_books h c
    obtain ⟨slot', hrun, hafter⟩ := ih hbooks
    refine ⟨slot', ?_, hafter⟩
    rw [streamRun, hexec, Option.bind_some]
    exact hrun

/-- Every run goes through to its end and leaves books that agree; and a modify call under the lock,
then or at any point of the run, has attached its stream with the mask asked for when it answers 0,
and leaves it neither pending nor attached when it fails. -/
theorem streams_ok {events : ℕ} {mem : Memory} {fds : Option F → ℤ} {slot : UevSlot (Option F)}
    (hstart : startSlot events mem fds none = some slot) (cs : List (StreamCmd F)) :
    ∃ slot', streamRun slot cs = some slot' ∧ BooksAgree slot' ∧
      ∀ e mask mem calls, mask &&& ~~~(eventActionMask ||| eventEdge) = 0 →
        ∃ after rc, streamExec slot' (.modify e mask true mem calls) = some (after, rc) ∧
          (rc = 0 → (after.streams (some e)).pending = true ∧ (after.streams (some e)).attached = true ∧
            (after.streams (some e)).mask = mask) ∧
          (rc ≠ 0 → (after.streams (some e)).pending = false ∧
            (after.streams (some e)).attached = false) := by
  obtain ⟨slot', hrun, hbooks⟩ := streamRun_books (startSlot_books hstart).1 cs
  refine ⟨slot', hrun, hbooks.agree, fun e mask mem calls hmask => ?_⟩
  obtain ⟨after, rc, hexec, -, -, hleaves⟩ :=
    uevStreamModify_books hbooks (Option.some_ne_none e) true mem calls mask
  obtain ⟨id, ⟨hzero, hpend, -, hatt, hset⟩ | ⟨hrc, hgone⟩⟩ := hleaves hmask rfl
  · exact ⟨after, rc, hexec, fun _ => ⟨hpend, hatt, hset⟩, fun hne => absurd hzero hne⟩
  · exact ⟨after, rc, hexec, fun hzero => absurd hzero hrc, fun _ => hgone⟩

def plenty : Memory := { pageOk := fun _ => true, nodeOk := fun _ => true }

def willing : ReactorCalls := { register := 0, modify := 0, enable := 0 }

/-- A stream is added, a second one is refused by the kernel, the first one is changed and deleted,
and a third one stays. -/
def addRefuseDelete : List (StreamCmd ℕ) :=
  [.modify 1 eventRead true plenty willing, .modify 2 eventWrite true plenty { willing with register := -1 },
    .modify 1 (eventRead ||| eventEdge) true plenty willing, .disable (some 1) eventRead, .delete 1,
    .modify 3 eventRead true plenty willing]

theorem streams_ok_addRefuseDelete : ∃ slot, startSlot 4 plenty (fun _ => 3) none = some slot ∧
    ∃ slot', streamRun slot addRefuseDelete = some slot' ∧ BooksAgree slot' ∧ slot'.nrEvents = 2 ∧
      (slot'.streams (some 2)).attached = false ∧ (slot'.streams (some 3)).attached = true ∧
        slot'.registered (some 3) = some ⟨3, 3⟩ := by
  have hend : ((startSlot (E := Option ℕ) 4 plenty (fun _ => 3) none).bind fun slot =>
      (streamRun slot addRefuseDelete).map fun slot' =>
      (slot'.nrEvents, (slot'.streams (some 2)).attached, (slot'.streams (some 3)).attached,
        slot'.registered (some 3))) =
      some (2, false, true, some ⟨3, 3⟩) := by
    decide +kernel
  obtain ⟨slot, hstart, hend⟩ := Option.bind_eq_some_iff.mp hend
  obtain ⟨slot', hrun, hbooks, -⟩ := streams_ok hstart addRefuseDelete
  rw [hrun, Option.map_some, Option.some.injEq, Prod.mk.injEq, Prod.mk.injEq, Prod.mk.injEq] at hend
  exact ⟨slot, hstart, slot', hrun, hbooks, hend⟩

end Skp.Process
