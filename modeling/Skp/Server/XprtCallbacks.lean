import Skp.Foundations.Logs
import Skp.Server.XprtModel

/-! # The order of the callbacks

The documented protocol of `on_changed`, `on_recv` and `on_send`. The event thread opens and closes
the transport; whoever closes it finds the closed bit clear, and `destroy_xprt` touches it when the
event thread is out. -/
namespace Skp.Server
set_option autoImplicit false
open Skp.Foundations

def XprtNote.isOpened : XprtNote → Bool
  | .opened _ => true
  | _ => false

/-- The last notification, closed or refused. -/
def XprtNote.isClosing : XprtNote → Bool
  | .closed _ => true
  | .connrefused _ => true
  | _ => false

/-- A call that `before` allows: opened first and once, closed only after it and refused only
without it, received and sent between, nothing after closed or refused. -/
def callbackOrder (before : List XprtNote) : XprtNote → Prop
  | .opened _ => before.any XprtNote.isOpened = false ∧ before.any XprtNote.isClosing = false
  | .closed _ => before.any XprtNote.isOpened = true ∧ before.any XprtNote.isClosing = false
  | .connrefused _ => before.any XprtNote.isOpened = false ∧ before.any XprtNote.isClosing = false
  | .recv _ => before.any XprtNote.isOpened = true ∧ before.any XprtNote.isClosing = false
  | .send _ => before.any XprtNote.isOpened = true ∧ before.any XprtNote.isClosing = false
  | .shutdown _ => True
  | .connected => True

/-! ## The invariant -/

def EventPc.atOpenCall : EventPc → Bool
  | .openCall _ => true
  | _ => false

/-- What the place of the event thread says about the word; `closing` says that the last
notification is in the log. -/
def eventOk (f : XprtFlags) (closing : Bool) : EventPc → Prop
  | .openCall _ => f.opened = true ∧ f.closed = false
  | .rdTest _ => f.opened = true ∨ f.isClosed = true
  | .wrTest _ => f.opened = true ∨ f.isClosed = true
  | .openSwap _ g => g.opened = false ∧ g.isClosed = false
  | .rdCall _ => f.opened = true ∧ f.closed = false
  | .wrCall _ => f.opened = true ∧ f.closed = false
  | .closeSwap _ _ g => g.closed = false
  | .closeCall _ _ g => f.closed = true ∧ g.opened = f.opened ∧ closing = false
  | _ => True

/-- The thread in `destroy_xprt` has set the closed bit and has not made the last call. -/
def destroyOk (f : XprtFlags) (closing : Bool) : DestroyPc → Prop
  | .swapRead => f.closed = true ∧ closing = false
  | .swap _ => f.closed = true ∧ closing = false
  | .connClear => f.closed = true ∧ closing = false
  | .openTest => f.closed = true ∧ closing = false
  | .shakeTest => f.closed = true ∧ closing = false ∧ f.opened = true
  | .shutCall => f.closed = true ∧ closing = false ∧ f.opened = true
  | .closeCall => f.closed = true ∧ closing = false ∧ f.opened = true
  | _ => True

section Invariant
variable {T : Type} {s s' : XprtState T} {f f' : XprtFlags} {closing : Bool}

def XprtState.hasOpened (s : XprtState T) : Bool := s.log.any XprtNote.isOpened

def XprtState.hasClosing (s : XprtState T) : Bool := s.log.any XprtNote.isClosing

structure CallbackInv (s : XprtState T) : Prop where
  order : Legal callbackOrder s.log
  opened : s.hasOpened = (s.flags.opened && !s.event.atOpenCall)
  closing : s.hasClosing = true → s.flags.closed = true
  apart : s.event = .idle ∨ s.destroy.beforeSync = true
  event : eventOk s.flags s.hasClosing s.event
  destroy : destroyOk s.flags s.hasClosing s.destroy

/-- Another thread may shut a direction, and change the bits that these tests do not read. -/
structure Shuts (f f' : XprtFlags) : Prop where
  opened : f'.opened = f.opened
  closed : f'.closed = f.closed
  isClosed : f.isClosed = true → f'.isClosed = true

theorem Shuts.refl (f : XprtFlags) : Shuts f f := ⟨rfl, rfl, id⟩

theorem shuts_attached (f : XprtFlags) (b : Bool) : Shuts f { f with attached := b } := ⟨rfl, rfl, id⟩

theorem shuts_connecting (f : XprtFlags) (b : Bool) : Shuts f { f with connecting := b } := ⟨rfl, rfl, id⟩

theorem shuts_connrefused (f : XprtFlags) (b : Bool) : Shuts f { f with connrefused := b } := ⟨rfl, rfl, id⟩

theorem shuts_handshaked (f : XprtFlags) (b : Bool) : Shuts f { f with handshaked := b } := ⟨rfl, rfl, id⟩

theorem shuts_shutBits (how : ShutHow) (f : XprtFlags) : Shuts f (shutBits how f) := by
  refine ⟨rfl, rfl, fun h => ?_⟩
  simp only [XprtFlags.isClosed, XprtFlags.shutRdwr, Bool.or_eq_true, Bool.and_eq_true, shutBits] at h ⊢
  rcases h with h | ⟨hrd, hwr⟩
  · exact Or.inl h
  · exact Or.inr ⟨Or.inl hrd, Or.inl hwr⟩

theorem Shuts.eventOk (h : Shuts f f') {pc : EventPc} (hok : eventOk f closing pc) :
    eventOk f' closing pc := by
  cases pc with
  | openCall m => exact ⟨h.opened.trans hok.1, h.closed.trans hok.2⟩
  | rdTest m => exact hok.imp h.opened.trans h.isClosed
  | wrTest m => exact hok.imp h.opened.trans h.isClosed
  | rdCall m => exact ⟨h.opened.trans hok.1, h.closed.trans hok.2⟩
  | wrCall m => exact ⟨h.opened.trans hok.1, h.closed.trans hok.2⟩
  | closeCall m site g => exact ⟨h.closed.trans hok.1, hok.2.1.trans h.opened.symm, hok.2.2⟩
  | _ => exact hok

theorem Shuts.destroyOk (h : Shuts f f') {pc : DestroyPc} (hok : destroyOk f closing pc) :
    destroyOk f' closing pc := by
  have hclosed : f.closed = true → f'.closed = true := h.closed.trans
  have hopened : f.opened = true → f'.opened = true := h.opened.trans
  cases pc with
  | idle => trivial
  | detach => trivial
  | sync => trivial
  | setClosed => trivial
  | done => trivial
  | swapRead => exact hok.imp_left hclosed
  | swap g => exact hok.imp_left hclosed
  | connClear => exact hok.imp_left hclosed
  | openTest => exact hok.imp_left hclosed
  | shakeTest => exact ⟨hclosed hok.1, hok.2.1, hopened hok.2.2⟩
  | shutCall => exact ⟨hclosed hok.1, hok.2.1, hopened hok.2.2⟩
  | closeCall => exact ⟨hclosed hok.1, hok.2.1, hopened hok.2.2⟩

theorem destroyOk_of_beforeSync {pc : DestroyPc} (h : pc.beforeSync = true) : destroyOk f closing pc := by
  cases pc with
  | idle => trivial
  | detach => trivial
  | sync => trivial
  | _ => exact Bool.noConfusion h

theorem isClosed_eq_false (h : f.isClosed = false) : f.closed = false := (Bool.or_eq_false_iff.mp h).1

/-! ## Steps of the event thread -/

theorem CallbackInv.walk (h : CallbackInv s) (hbusy : s.destroy.beforeSync = true)
    (hquiet : s.event.atOpenCall = false)
    (hshuts : Shuts s.flags f') {pc : EventPc} (hpc : pc.atOpenCall = false)
    (hok : eventOk f' s.hasClosing pc) :
    CallbackInv ((s.setFlags f').goto pc) where
  order := h.order
  opened := by
    have hold := h.opened
    rw [hquiet] at hold
    change s.hasOpened = (f'.opened && !pc.atOpenCall)
    rw [hpc, hshuts.opened, hold]
  closing := fun hc => hshuts.closed.trans (h.closing hc)
  apart := Or.inr hbusy
  event := hok
  destroy := destroyOk_of_beforeSync hbusy

/-- The event thread makes a call after which it is not at the first one. -/
theorem CallbackInv.call (h : CallbackInv s) (hbusy : s.destroy.beforeSync = true) {n : XprtNote}
    {pc : EventPc}
    (hn : callbackOrder s.log n) (hpc : pc.atOpenCall = false)
    (hopened : (s.hasOpened || n.isOpened) = s.flags.opened)
    (hclosing : n.isClosing = true → s.flags.closed = true)
    (hok : eventOk s.flags (s.hasClosing || n.isClosing) pc) :
    CallbackInv ((s.note n).goto pc) := by
  have hany : (s.log ++ [n]).any XprtNote.isOpened = (s.hasOpened || n.isOpened) := by
    rw [List.any_append, XprtState.hasOpened, List.any_cons, List.any_nil, Bool.or_false]
  have hanyClosing : (s.log ++ [n]).any XprtNote.isClosing = (s.hasClosing || n.isClosing) := by
    rw [List.any_append, XprtState.hasClosing, List.any_cons, List.any_nil, Bool.or_false]
  refine ⟨legal_concat.mpr ⟨h.order, hn⟩, ?_, fun hc => ?_, Or.inr hbusy, ?_, destroyOk_of_beforeSync hbusy⟩
  · change (s.log ++ [n]).any XprtNote.isOpened = (s.flags.opened && !pc.atOpenCall)
    rw [hany, hpc, hopened, Bool.not_false, Bool.and_true]
  · change (s.log ++ [n]).any XprtNote.isClosing = true at hc
    rw [hanyClosing, Bool.or_eq_true] at hc
    exact hc.elim h.closing hclosing
  · change eventOk s.flags ((s.log ++ [n]).any XprtNote.isClosing) pc
    rw [hanyClosing]
    exact hok

theorem CallbackInv.hasOpened_eq (h : CallbackInv s) (hquiet : s.event.atOpenCall = false) :
    s.hasOpened = s.flags.opened := by
  rw [h.opened, hquiet, Bool.not_false, Bool.and_true]

theorem CallbackInv.hasClosing_false (h : CallbackInv s) (hclosed : s.flags.closed = false) :
    s.hasClosing = false := by
  rw [Bool.eq_false_iff]
  intro hc
  rw [h.closing hc] at hclosed
  exact Bool.noConfusion hclosed

theorem CallbackInv.eventStep (h : CallbackInv s) {pc : EventPc} (hpc : s.event = pc)
    (hstep : eventStep s pc = some s') :
    CallbackInv s' := by
  have hok := h.event
  have hbusy : pc ≠ .idle → s.destroy.beforeSync = true := fun hne => h.apart.resolve_left (hpc ▸ hne)
  have hquiet : s.event.atOpenCall = pc.atOpenCall := congrArg EventPc.atOpenCall hpc
  rw [hpc] at hok
  cases pc with
  | idle => cases hstep
  | connect m => cases hstep
  | shake m => cases hstep
  | connTest m =>
    obtain rfl := Option.some.inj hstep
    apply h.walk (hbusy nofun) hquiet (Shuts.refl _)
    · split <;> rfl
    · split <;> trivial
  | connClear m =>
    obtain rfl := Option.some.inj hstep
    split
    · apply h.walk (hbusy nofun) hquiet (shuts_connecting _ _)
      · split <;> rfl
      · split <;> trivial
    · exact h.walk (hbusy nofun) hquiet (Shuts.refl _) rfl trivial
  | connRead m =>
    obtain rfl := Option.some.inj hstep
    apply h.walk (hbusy nofun) hquiet (Shuts.refl _)
    · split <;> [rfl; split <;> rfl]
    · split <;> [trivial; split <;> trivial]
  | shakeTest m =>
    obtain rfl := Option.some.inj hstep
    apply h.walk (hbusy nofun) hquiet (Shuts.refl _)
    · split <;> rfl
    · split <;> trivial
  | shakeRead m =>
    obtain rfl := Option.some.inj hstep
    apply h.walk (hbusy nofun) hquiet (Shuts.refl _)
    · split <;> rfl
    · split <;> trivial
  | shakeSet m =>
    obtain rfl := Option.some.inj hstep
    exact h.walk (hbusy nofun) hquiet (shuts_handshaked _ _) rfl trivial
  | openRead m =>
    obtain rfl := Option.some.inj hstep
    split
    · rename_i hseen
      exact h.walk (hbusy nofun) hquiet (Shuts.refl _) rfl (Bool.or_eq_true_iff.mp hseen)
    · rename_i hunseen
      rw [Bool.not_eq_true, Bool.or_eq_false_iff] at hunseen
      exact h.walk (hbusy nofun) hquiet (Shuts.refl _) rfl hunseen
  | openSwap m f =>
    obtain rfl := Option.some.inj hstep
    split
    · rename_i hsame
      obtain ⟨hopened, hclosed⟩ := hok
      have hnone : s.hasOpened = false := by rw [h.hasOpened_eq hquiet, hsame, hopened]
      refine ⟨h.order, hnone, fun hc => ?_, Or.inr (hbusy nofun), ⟨rfl, isClosed_eq_false hclosed⟩,
        destroyOk_of_beforeSync (hbusy nofun)⟩
      rw [← hsame]
      exact h.closing hc
    · exact h.walk (hbusy nofun) hquiet (Shuts.refl _) rfl trivial
  | openCall m =>
    obtain rfl := Option.some.inj hstep
    have hnone : s.hasOpened = false := by
      rw [h.opened, hquiet, EventPc.atOpenCall, Bool.not_true, Bool.and_false]
    refine h.call (hbusy nofun) ⟨hnone, h.hasClosing_false hok.2⟩ rfl ?_ nofun (Or.inl hok.1)
    rw [hnone, hok.1]
    rfl
  | rdTest m =>
    obtain rfl := Option.some.inj hstep
    split
    · rename_i hready
      rw [Bool.and_eq_true, Bool.not_eq_true', Bool.or_eq_false_iff] at hready
      refine h.walk (hbusy nofun) hquiet (Shuts.refl _) rfl ⟨hok.resolve_right fun hc => ?_, hready.2.1⟩
      rw [XprtFlags.isClosed, XprtFlags.shutRdwr, hready.2.1, hready.2.2] at hc
      exact Bool.noConfusion hc
    · exact h.walk (hbusy nofun) hquiet (Shuts.refl _) rfl hok
  | rdCall m =>
    obtain rfl := Option.some.inj hstep
    have hopened : s.hasOpened = true := by rw [h.hasOpened_eq hquiet, hok.1]
    refine h.call (hbusy nofun) ⟨hopened, h.hasClosing_false hok.2⟩ rfl ?_ nofun (Or.inl hok.1)
    rw [hopened, hok.1]
    rfl
  | wrTest m =>
    obtain rfl := Option.some.inj hstep
    split
    · rename_i hready
      rw [Bool.and_eq_true, Bool.not_eq_true', Bool.or_eq_false_iff] at hready
      refine h.walk (hbusy nofun) hquiet (Shuts.refl _) rfl ⟨hok.resolve_right fun hc => ?_, hready.2.1⟩
      rw [XprtFlags.isClosed, XprtFlags.shutRdwr, hready.2.1, hready.2.2, Bool.and_false] at hc
      exact Bool.noConfusion hc
    · exact h.walk (hbusy nofun) hquiet (Shuts.refl _) rfl trivial
  | wrCall m =>
    obtain rfl := Option.some.inj hstep
    have hopened : s.hasOpened = true := by rw [h.hasOpened_eq hquiet, hok.1]
    refine h.call (hbusy nofun) ⟨hopened, h.hasClosing_false hok.2⟩ ?_ ?_ nofun ?_
    · split <;> rfl
    · rw [hopened, hok.1]
      rfl
    · split <;> trivial
  | refuse m site =>
    obtain rfl := Option.some.inj hstep
    exact h.walk (hbusy nofun) hquiet (shuts_connrefused _ _) rfl trivial
  | shutRead m site =>
    obtain rfl := Option.some.inj hstep
    apply h.walk (hbusy nofun) hquiet (Shuts.refl _)
    · split <;> rfl
    · split <;> trivial
  | shutSwap m site f =>
    obtain rfl := Option.some.inj hstep
    split
    · rename_i hsame
      exact h.walk (hbusy nofun) hquiet (hsame ▸ shuts_shutBits .rdwr s.flags) rfl trivial
    · exact h.walk (hbusy nofun) hquiet (Shuts.refl _) rfl trivial
  | shutCall m site =>
    obtain rfl := Option.some.inj hstep
    refine h.call (hbusy nofun) trivial rfl ?_ nofun trivial
    rw [h.hasOpened_eq hquiet]
    exact Bool.or_false _
  | closeRead m site =>
    obtain rfl := Option.some.inj hstep
    split
    · exact h.walk (hbusy nofun) hquiet (Shuts.refl _) rfl trivial
    · rename_i hopen
      split
      · exact h.walk (hbusy nofun) hquiet (Shuts.refl _) rfl (Bool.eq_false_iff.mpr hopen)
      · apply h.walk (hbusy nofun) hquiet (Shuts.refl _)
        · cases site <;> rfl
        · cases site <;> trivial
  | closeSwap m site f =>
    obtain rfl := Option.some.inj hstep
    split
    · rename_i hsame
      have hnone : s.hasClosing = false := h.hasClosing_false (hsame ▸ hok)
      have hopened : s.hasOpened = f.opened := by rw [h.hasOpened_eq hquiet, hsame]
      refine ⟨h.order, ?_, fun _ => rfl, Or.inr (hbusy nofun), ?_, destroyOk_of_beforeSync (hbusy nofun)⟩
      · split
        · exact hopened.trans (Bool.and_true _).symm
        · exact hopened.trans (Bool.and_true _).symm
      · split
        · exact ⟨rfl, rfl, hnone⟩
        · trivial
    · exact h.walk (hbusy nofun) hquiet (Shuts.refl _) rfl trivial
  | closeCall m site f =>
    obtain rfl := Option.some.inj hstep
    obtain ⟨hclosed, hsame, hnone⟩ := hok
    have hopened : s.hasOpened = f.opened := by rw [h.hasOpened_eq hquiet, hsame]
    split
    · rename_i hf
      refine h.call (hbusy nofun) ⟨hopened.trans hf, hnone⟩ rfl ?_ (fun _ => hclosed) trivial
      rw [hopened, ← hsame]
      exact Bool.or_false _
    · rename_i hf
      refine h.call (hbusy nofun) ⟨hopened.trans (Bool.eq_false_iff.mpr hf), hnone⟩ rfl ?_
        (fun _ => hclosed) trivial
      rw [hopened, ← hsame]
      exact Bool.or_false _
  | detach =>
    obtain rfl := Option.some.inj hstep
    exact h.walk (hbusy nofun) hquiet (shuts_attached _ _) rfl trivial

theorem CallbackInv.connectStep (h : CallbackInv s) {m : EventMask} (hpc : s.event = .connect m)
    (result : ConnResult) :
    CallbackInv (connectStep s m result) := by
  have hbusy : s.destroy.beforeSync = true := h.apart.resolve_left (by rw [hpc]; nofun)
  have hquiet : s.event.atOpenCall = false := by rw [hpc]; rfl
  have hconnected : CallbackInv ((s.note .connected).goto (.shakeTest m)) := by
    refine h.call hbusy trivial rfl ?_ nofun trivial
    rw [h.hasOpened_eq hquiet]
    exact Bool.or_false _
  cases result with
  | success => exact hconnected
  | eisconn => exact hconnected
  | ealready => exact h.walk hbusy hquiet (Shuts.refl _) rfl trivial
  | failed => exact h.walk hbusy hquiet (Shuts.refl _) rfl trivial

theorem CallbackInv.handshakeStep (h : CallbackInv s) {m : EventMask} (hpc : s.event = .shake m)
    (result : HandshakeResult) :
    CallbackInv (handshakeStep s m result) := by
  have hbusy : s.destroy.beforeSync = true := h.apart.resolve_left (by rw [hpc]; nofun)
  have hquiet : s.event.atOpenCall = false := by rw [hpc]; rfl
  cases result with
  | success => exact h.walk hbusy hquiet (Shuts.refl _) rfl trivial
  | eagain => exact h.walk hbusy hquiet (Shuts.refl _) rfl trivial
  | failed => exact h.walk hbusy hquiet (Shuts.refl _) rfl trivial

/-! ## Steps of the other threads -/

/-- A thread in `shutdown_xprt` moves. -/
theorem CallbackInv.shuts (h : CallbackInv s) (hshuts : Shuts s.flags f') (shut : T → ShutPc) :
    CallbackInv { s.setFlags f' with shut := shut } where
  order := h.order
  opened := by
    change s.hasOpened = (f'.opened && !s.event.atOpenCall)
    rw [hshuts.opened, h.opened]
  closing := fun hc => hshuts.closed.trans (h.closing hc)
  apart := h.apart
  event := hshuts.eventOk h.event
  destroy := hshuts.destroyOk h.destroy

theorem CallbackInv.shutdownNote (h : CallbackInv s) (how : Option ShutHow) (shut : T → ShutPc) :
    CallbackInv { s.note (.shutdown how) with shut := shut } := by
  have hopened : (s.log ++ [XprtNote.shutdown how]).any XprtNote.isOpened = s.hasOpened := by
    rw [List.any_append]
    exact Bool.or_false _
  have hclosing : (s.log ++ [XprtNote.shutdown how]).any XprtNote.isClosing = s.hasClosing := by
    rw [List.any_append]
    exact Bool.or_false _
  refine ⟨legal_concat.mpr ⟨h.order, trivial⟩, hopened.trans h.opened,
    fun hc => h.closing (hclosing.symm.trans hc), h.apart,
    ?_, ?_⟩
  · change Server.eventOk s.flags ((s.log ++ [XprtNote.shutdown how]).any XprtNote.isClosing) s.event
    rw [hclosing]
    exact h.event
  · change Server.destroyOk s.flags ((s.log ++ [XprtNote.shutdown how]).any XprtNote.isClosing) s.destroy
    rw [hclosing]
    exact h.destroy

variable [DecidableEq T]

theorem CallbackInv.shutStep (h : CallbackInv s) {t : T} {pc : ShutPc} (hstep : shutStep s t pc = some s') :
    CallbackInv s' := by
  cases pc with
  | idle => cases hstep
  | read how =>
    obtain rfl := Option.some.inj hstep
    exact h.shuts (Shuts.refl _) _
  | swap how f =>
    obtain rfl := Option.some.inj hstep
    split
    · rename_i hsame
      exact h.shuts (hsame ▸ shuts_shutBits how s.flags) _
    · exact h.shuts (Shuts.refl _) _
  | call how =>
    obtain rfl := Option.some.inj hstep
    exact h.shutdownNote _ _

omit [DecidableEq T] in
/-- The thread in `destroy_xprt` moves, before the event thread is out or after. -/
theorem CallbackInv.destroys (h : CallbackInv s) (hshuts : Shuts s.flags f') {pc : DestroyPc}
    (hapart : s.event = .idle ∨ pc.beforeSync = true) (hok : destroyOk f' s.hasClosing pc) :
    CallbackInv { s.setFlags f' with destroy := pc } where
  order := h.order
  opened := by
    change s.hasOpened = (f'.opened && !s.event.atOpenCall)
    rw [hshuts.opened, h.opened]
  closing := fun hc => hshuts.closed.trans (h.closing hc)
  apart := hapart
  event := hshuts.eventOk h.event
  destroy := hok

omit [DecidableEq T] in
theorem CallbackInv.destroyStep (h : CallbackInv s) {pc : DestroyPc} (hpc : s.destroy = pc)
    (hstep : destroyStep s pc = some s') : CallbackInv s' := by
  have hok := h.destroy
  have hidle : pc.beforeSync = false → s.event = .idle := fun hlate =>
    h.apart.resolve_right fun hearly => by
      rw [hpc, hlate] at hearly
      exact Bool.noConfusion hearly
  rw [hpc] at hok
  cases pc with
  | done => cases hstep
  | idle =>
    obtain rfl := Option.some.inj hstep
    exact h.destroys (Shuts.refl _) (Or.inr rfl) trivial
  | detach =>
    obtain rfl := Option.some.inj hstep
    exact h.destroys (shuts_attached _ _) (Or.inr rfl) trivial
  | sync =>
    obtain ⟨hout, heq⟩ := Option.ite_none_right_eq_some.mp hstep
    obtain rfl := Option.some.inj heq
    exact h.destroys (Shuts.refl _) (Or.inl hout) trivial
  | setClosed =>
    obtain rfl := Option.some.inj hstep
    have hout := hidle rfl
    split
    · rename_i hclosed
      have hsame : Shuts s.flags { s.flags with closed := true } := ⟨rfl, hclosed.symm, fun _ => rfl⟩
      exact h.destroys hsame (Or.inl hout) trivial
    · rename_i hopen
      have hnone := h.hasClosing_false (Bool.eq_false_iff.mpr hopen)
      refine ⟨h.order, h.opened, fun _ => rfl, Or.inl hout, ?_, ⟨rfl, hnone⟩⟩
      change Server.eventOk _ _ s.event
      rw [hout]
      trivial
  | swapRead =>
    obtain rfl := Option.some.inj hstep
    exact h.destroys (Shuts.refl _) (Or.inl (hidle rfl)) hok
  | swap f =>
    obtain rfl := Option.some.inj hstep
    split
    · rename_i hsame
      have hclosed : f.closed = true := hsame ▸ hok.1
      have hcleared : Shuts s.flags { f with shutrd := false, shutwr := false } :=
        ⟨hsame ▸ rfl, hsame ▸ rfl, fun _ => Bool.or_eq_true_iff.mpr (Or.inl hclosed)⟩
      exact h.destroys hcleared (Or.inl (hidle rfl)) ⟨hclosed, hok.2⟩
    · exact h.destroys (Shuts.refl _) (Or.inl (hidle rfl)) hok
  | connClear =>
    obtain rfl := Option.some.inj hstep
    apply h.destroys (shuts_connecting _ _) (Or.inl (hidle rfl))
    split
    · trivial
    · exact hok
  | openTest =>
    obtain rfl := Option.some.inj hstep
    apply h.destroys (Shuts.refl _) (Or.inl (hidle rfl))
    split
    · rename_i hopened
      exact ⟨hok.1, hok.2, hopened⟩
    · trivial
  | shakeTest =>
    obtain rfl := Option.some.inj hstep
    apply h.destroys (Shuts.refl _) (Or.inl (hidle rfl))
    split
    · exact hok
    · exact hok
  | shutCall =>
    obtain rfl := Option.some.inj hstep
    have hnoted := h.shutdownNote none s.shut
    have hclosing : (s.log ++ [XprtNote.shutdown none]).any XprtNote.isClosing = s.hasClosing := by
      rw [List.any_append]
      exact Bool.or_false _
    refine hnoted.destroys (Shuts.refl _) (Or.inl (hidle rfl)) ?_
    exact ⟨hok.1, hclosing.trans hok.2.1, hok.2.2⟩
  | closeCall =>
    obtain rfl := Option.some.inj hstep
    have hout := hidle rfl
    obtain ⟨hclosed, hnone, hopened⟩ := hok
    have hhas : s.hasOpened = true := by rw [h.opened, hopened, hout]; rfl
    have hany : (s.log ++ [XprtNote.closed eventEof]).any XprtNote.isOpened = s.hasOpened := by
      rw [List.any_append]
      exact Bool.or_false _
    refine ⟨legal_concat.mpr ⟨h.order, hhas, hnone⟩, hany.trans h.opened, fun _ => hclosed,
      Or.inl hout, ?_, trivial⟩
    change Server.eventOk _ _ s.event
    rw [hout]
    trivial

theorem CallbackInv.step (h : CallbackInv s) {a : XprtAct T} (hstep : xprtStep s a = some s') :
    CallbackInv s' := by
  cases a with
  | begin m =>
    obtain ⟨⟨hidle, hbefore⟩, heq⟩ := Option.ite_none_right_eq_some.mp hstep
    obtain rfl := Option.some.inj heq
    exact h.walk hbefore (by rw [hidle]; rfl) (Shuts.refl _) rfl trivial
  | event => exact h.eventStep rfl hstep
  | connect result =>
    rw [xprtStep] at hstep
    split at hstep
    · rename_i m hpc
      obtain rfl := Option.some.inj hstep
      exact h.connectStep hpc result
    · cases hstep
  | handshake result =>
    rw [xprtStep] at hstep
    split at hstep
    · rename_i m hpc
      obtain rfl := Option.some.inj hstep
      exact h.handshakeStep hpc result
    · cases hstep
  | shutdown t how =>
    obtain ⟨-, heq⟩ := Option.ite_none_right_eq_some.mp hstep
    obtain rfl := Option.some.inj heq
    exact h.shuts (Shuts.refl _) _
  | shut t => exact h.shutStep hstep
  | destroy => exact h.destroyStep rfl hstep

omit [DecidableEq T] in
theorem callbackInv_init (type : XprtType) (connecting : Bool) :
    CallbackInv (xprtInit type connecting : XprtState T) where
  order := legal_nil
  opened := rfl
  closing := nofun
  apart := Or.inl rfl
  event := trivial
  destroy := trivial

/-- In every interleaving the callbacks come in the documented order: opened at most once, closed or
refused at most once, closed only after opened and refused only without it, received and sent only
in between. -/
theorem callbacks_ordered (type : XprtType) (connecting : Bool) (as : List (XprtAct T)) (s : XprtState T)
    (hr : runActs xprtStep (xprtInit type connecting) as = some s) :
    s.log.countP XprtNote.isOpened ≤ 1 ∧ s.log.countP XprtNote.isClosing ≤ 1 ∧ Legal callbackOrder s.log := by
  have hinv : CallbackInv s :=
    run_invariant (fun _ _ _ h _ hs => h.step hs) as _ s (callbackInv_init type connecting)
    (runMeets_trivial as _) hr
  refine ⟨hinv.order.countP_le_one fun pre n hok hn => ?_,
    hinv.order.countP_le_one fun pre n hok hn => ?_, hinv.order⟩
  · cases n with
    | opened m => exact hok.1
    | _ => exact Bool.noConfusion hn
  · cases n with
    | closed m => exact hok.2
    | connrefused m => exact hok.2
    | _ => exact Bool.noConfusion hn

end Invariant

def readWrite : EventMask := ⟨true, true, false, false⟩

/-- A client connects, opens, receives and sends, is shut down by a thread, closes and is destroyed. -/
def connectAndClose : List (XprtAct Unit) :=
  [.begin readWrite, .event, .event, .event, .connect .success, .event, .event, .handshake .success,
    .event, .event, .event,
   .event, .event, .event, .event, .event, .event, .shutdown () .rdwr, .shut (), .shut (), .shut (),
   .begin readWrite, .event,
   .event, .event, .event, .event, .event, .event, .event, .event, .destroy, .destroy, .destroy, .destroy]

theorem callbacks_ordered_connectAndClose :
    ∃ s, runActs xprtStep (xprtInit .tcpclnt true) connectAndClose = some s ∧
      s.log = [.connected, .opened readWrite, .recv readWrite, .send readWrite,
        .shutdown (some .rdwr), .closed readWrite] ∧
      s.destroy = .done ∧ s.log.countP XprtNote.isOpened ≤ 1 ∧ s.log.countP XprtNote.isClosing ≤ 1 ∧
        Legal callbackOrder s.log := by
  refine ⟨_, rfl, rfl, rfl, ?_⟩
  exact callbacks_ordered .tcpclnt true connectAndClose _ rfl

end Skp.Server
