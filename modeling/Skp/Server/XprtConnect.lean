import Skp.Server.XprtCallbacks

/-! # Callbacks and the connection in progress

A client with a connection in progress opens after a `connect` that gives 0 or `EISCONN`, while none
gives `EALREADY`: the connecting bit is taken before `connect` is asked again, and not given back
when the answer is that it still goes on. -/
namespace Skp.Server
set_option autoImplicit false
open Skp.Foundations

def XprtNote.isConnected : XprtNote → Bool
  | .connected => true
  | _ => false

/-- Opened, received and sent only after the connection. -/
def connectFirst (before : List XprtNote) : XprtNote → Prop
  | .opened _ => before.any XprtNote.isConnected = true
  | .recv _ => before.any XprtNote.isConnected = true
  | .send _ => before.any XprtNote.isConnected = true
  | _ => True

/-- No `connect` gives `EALREADY`. -/
def notAlready {T : Type} (_ : XprtState T) (a : XprtAct T) : Prop := a ≠ .connect .ealready

/-- What the place of the event thread says about the word; `connected` says that a `connect` that
succeeded is in the log. -/
def waitsOk (f : XprtFlags) (connected : Bool) : EventPc → Prop
  | .idle => connected = true ∨ f.isClosed = true ∨ f.connecting = true
  | .connTest _ => connected = true ∨ f.isClosed = true ∨ f.connecting = true
  | .connClear _ => connected = true ∨ f.isClosed = true ∨ f.connecting = true
  | .connRead _ => True
  | .connect _ => True
  | .refuse _ _ => True
  | .shutRead _ _ => True
  | .shutSwap _ _ _ => True
  | .openSwap _ g => g.isClosed = false ∧ (connected = true ∨ f.isClosed = true)
  | .openCall _ => connected = true
  | .rdCall _ => connected = true
  | .wrCall _ => connected = true
  | _ => connected = true ∨ f.isClosed = true

/-- The thread in `destroy_xprt` has set the closed bit. -/
def closedOk (f : XprtFlags) : DestroyPc → Prop
  | .swapRead => f.closed = true
  | .swap _ => f.closed = true
  | .connClear => f.closed = true
  | _ => True

section Invariant
variable {T : Type} {s s' : XprtState T} {f f' : XprtFlags} {connected : Bool}

def XprtState.hasConnected (s : XprtState T) : Bool := s.log.any XprtNote.isConnected

structure ConnectInv (s : XprtState T) : Prop where
  type : s.type = .tcpclnt
  order : Legal connectFirst s.log
  event : waitsOk s.flags s.hasConnected s.event
  destroy : closedOk s.flags s.destroy

/-- A closed transport stays closed, and only closing it takes the connecting bit. -/
structure Stays (f f' : XprtFlags) : Prop where
  closed : f.closed = true → f'.closed = true
  isClosed : f.isClosed = true → f'.isClosed = true
  connecting : f.connecting = true → f'.isClosed = true ∨ f'.connecting = true

theorem Stays.refl (f : XprtFlags) : Stays f f := ⟨id, id, Or.inr⟩

theorem stays_shutBits (how : ShutHow) (f : XprtFlags) : Stays f (shutBits how f) := by
  refine ⟨id, (shuts_shutBits how f).isClosed, fun h => ?_⟩
  cases how with
  | rdwr =>
    left
    simp [XprtFlags.isClosed, XprtFlags.shutRdwr, shutBits, ShutHow.rds, ShutHow.wrs]
  | rd => exact Or.inr (Bool.and_eq_true_iff.mpr ⟨h, rfl⟩)
  | wr => exact Or.inr (Bool.and_eq_true_iff.mpr ⟨h, rfl⟩)

theorem isClosed_shutRdwr (f : XprtFlags) : (shutBits .rdwr f).isClosed = true := by
  simp [XprtFlags.isClosed, XprtFlags.shutRdwr, shutBits, ShutHow.rds, ShutHow.wrs]

theorem isClosed_of_shutBreaks (h : shutBreaks .rdwr f = true) : f.isClosed = true := h

theorem isClosed_of_closed (h : f.closed = true) : f.isClosed = true := Bool.or_eq_true_iff.mpr (Or.inl h)

theorem Stays.waitsOk (h : Stays f f') {pc : EventPc} (hok : waitsOk f connected pc) :
    waitsOk f' connected pc := by
  have hwaits : connected = true ∨ f.isClosed = true ∨ f.connecting = true →
      connected = true ∨ f'.isClosed = true ∨ f'.connecting = true := by
    rintro (hc | hc | hc)
    · exact Or.inl hc
    · exact Or.inr (Or.inl (h.isClosed hc))
    · exact Or.inr (h.connecting hc)
  cases pc with
  | idle => exact hwaits hok
  | connTest m => exact hwaits hok
  | connClear m => exact hwaits hok
  | connRead m => trivial
  | connect m => trivial
  | refuse m site => trivial
  | shutRead m site => trivial
  | shutSwap m site g => trivial
  | openSwap m g => exact ⟨hok.1, hok.2.imp_right h.isClosed⟩
  | openCall m => exact hok
  | rdCall m => exact hok
  | wrCall m => exact hok
  | _ => exact Or.imp_right h.isClosed hok

theorem Stays.closedOk (h : Stays f f') {pc : DestroyPc} (hok : closedOk f pc) : closedOk f' pc := by
  cases pc with
  | swapRead => exact h.closed hok
  | swap g => exact h.closed hok
  | connClear => exact h.closed hok
  | _ => trivial

/-! ## Steps -/

theorem ConnectInv.walk (h : ConnectInv s) (f' : XprtFlags)
    (hclosed : s.flags.closed = true → f'.closed = true) {pc : EventPc}
    (hok : waitsOk f' s.hasConnected pc) : ConnectInv ((s.setFlags f').goto pc) := by
  refine ⟨h.type, h.order, hok, ?_⟩
  have hold := h.destroy
  change closedOk f' s.destroy
  cases hpc : s.destroy with
  | swapRead => exact hclosed (by rwa [hpc] at hold)
  | swap g => exact hclosed (by rwa [hpc] at hold)
  | connClear => exact hclosed (by rwa [hpc] at hold)
  | _ => trivial

theorem ConnectInv.call (h : ConnectInv s) (n : XprtNote) {pc : EventPc} (hn : connectFirst s.log n)
    (hok : waitsOk s.flags (s.hasConnected || n.isConnected) pc) : ConnectInv ((s.note n).goto pc) := by
  refine ⟨h.type, legal_concat.mpr ⟨h.order, hn⟩, ?_, h.destroy⟩
  change waitsOk s.flags ((s.log ++ [n]).any XprtNote.isConnected) pc
  rw [List.any_append, List.any_cons, List.any_nil, Bool.or_false]
  exact hok

theorem ConnectInv.eventStep (h : ConnectInv s) {pc : EventPc} (hpc : s.event = pc)
    (hstep : eventStep s pc = some s') :
    ConnectInv s' := by
  have hok := h.event
  rw [hpc] at hok
  cases pc with
  | idle => cases hstep
  | connect m => cases hstep
  | shake m => cases hstep
  | connTest m =>
    obtain rfl := Option.some.inj hstep
    apply h.walk _ id
    split
    · exact hok
    · rename_i hclear
      exact hok.imp_right fun hrest => hrest.resolve_right hclear
  | connClear m =>
    obtain rfl := Option.some.inj hstep
    split
    · apply h.walk { s.flags with connecting := false } id
      rw [if_pos h.type]
      trivial
    · rename_i hclear
      exact h.walk _ id (hok.imp_right fun hrest => hrest.resolve_right hclear)
  | connRead m =>
    obtain rfl := Option.some.inj hstep
    apply h.walk _ id
    split
    · rename_i hclosed
      exact Or.inr hclosed
    · split <;> trivial
  | shakeTest m =>
    obtain rfl := Option.some.inj hstep
    apply h.walk _ id
    split
    · exact hok
    · exact hok
  | shakeRead m =>
    obtain rfl := Option.some.inj hstep
    apply h.walk _ id
    split
    · trivial
    · exact hok
  | shakeSet m =>
    obtain rfl := Option.some.inj hstep
    exact h.walk { s.flags with handshaked := true } id hok
  | openRead m =>
    obtain rfl := Option.some.inj hstep
    apply h.walk _ id
    split
    · exact hok
    · rename_i hunseen
      rw [Bool.not_eq_true, Bool.or_eq_false_iff] at hunseen
      exact ⟨hunseen.2, hok⟩
  | openSwap m f =>
    obtain rfl := Option.some.inj hstep
    obtain ⟨hopen, hest⟩ := hok
    split
    · rename_i hsame
      refine h.walk { f with opened := true } (fun hc => hsame ▸ hc) (hest.resolve_right fun hc => ?_)
      rw [hsame, hopen] at hc
      exact Bool.noConfusion hc
    · exact h.walk _ id hest
  | openCall m =>
    obtain rfl := Option.some.inj hstep
    exact h.call (.opened m) hok (Or.inl (Bool.or_eq_true_iff.mpr (Or.inl hok)))
  | rdTest m =>
    obtain rfl := Option.some.inj hstep
    apply h.walk _ id
    split
    · rename_i hready
      rw [Bool.and_eq_true, Bool.not_eq_true', Bool.or_eq_false_iff] at hready
      refine hok.resolve_right fun hc => ?_
      rw [XprtFlags.isClosed, XprtFlags.shutRdwr, hready.2.1, hready.2.2] at hc
      exact Bool.noConfusion hc
    · exact hok
  | rdCall m =>
    obtain rfl := Option.some.inj hstep
    exact h.call (.recv m) hok (Or.inl (Bool.or_eq_true_iff.mpr (Or.inl hok)))
  | wrTest m =>
    obtain rfl := Option.some.inj hstep
    apply h.walk _ id
    split
    · rename_i hready
      rw [Bool.and_eq_true, Bool.not_eq_true', Bool.or_eq_false_iff] at hready
      refine hok.resolve_right fun hc => ?_
      rw [XprtFlags.isClosed, XprtFlags.shutRdwr, hready.2.1, hready.2.2, Bool.and_false] at hc
      exact Bool.noConfusion hc
    · exact hok
  | wrCall m =>
    obtain rfl := Option.some.inj hstep
    apply h.call (.send m) hok
    split
    · trivial
    · exact Or.inl (Bool.or_eq_true_iff.mpr (Or.inl hok))
  | refuse m site =>
    obtain rfl := Option.some.inj hstep
    exact h.walk { s.flags with connrefused := true } id trivial
  | shutRead m site =>
    obtain rfl := Option.some.inj hstep
    apply h.walk _ id
    split
    · rename_i hbreaks
      exact Or.inr (isClosed_of_shutBreaks hbreaks)
    · trivial
  | shutSwap m site f =>
    obtain rfl := Option.some.inj hstep
    split
    · rename_i hsame
      exact h.walk (shutBits .rdwr f) (fun hc => hsame ▸ hc) (Or.inr (isClosed_shutRdwr f))
    · exact h.walk _ id trivial
  | shutCall m site =>
    obtain rfl := Option.some.inj hstep
    exact h.call (.shutdown (some .rdwr)) trivial (hok.imp_left fun hc => Bool.or_eq_true_iff.mpr (Or.inl hc))
  | closeRead m site =>
    obtain rfl := Option.some.inj hstep
    apply h.walk _ id
    split
    · exact hok
    · split
      · exact hok
      · cases site with
        | connecting => exact hok
        | handshake => exact hok
        | event => exact hok.imp_right Or.inl
  | closeSwap m site f =>
    obtain rfl := Option.some.inj hstep
    split
    · apply h.walk { f with shutrd := false, shutwr := false, closed := true } fun _ => rfl
      split
      · exact Or.inr rfl
      · exact Or.inr rfl
    · exact h.walk _ id hok
  | closeCall m site f =>
    obtain rfl := Option.some.inj hstep
    split
    · exact h.call (.closed _) trivial (hok.imp_left fun hc => Bool.or_eq_true_iff.mpr (Or.inl hc))
    · exact h.call (.connrefused _) trivial (hok.imp_left fun hc => Bool.or_eq_true_iff.mpr (Or.inl hc))
  | detach =>
    obtain rfl := Option.some.inj hstep
    exact h.walk { s.flags with attached := false } id (hok.imp_right Or.inl)

theorem ConnectInv.others (h : ConnectInv s) (f' : XprtFlags) (hstays : Stays s.flags f')
    (shut : T → ShutPc) {pc : DestroyPc}
    (hpc : closedOk f' pc) : ConnectInv { s.setFlags f' with shut := shut, destroy := pc } :=
  ⟨h.type, h.order, hstays.waitsOk h.event, hpc⟩

theorem ConnectInv.othersNote (h : ConnectInv s) (n : XprtNote) (hn : connectFirst s.log n)
    (hother : n.isConnected = false)
    (shut : T → ShutPc) {pc : DestroyPc} (hpc : closedOk s.flags pc) :
    ConnectInv { s.note n with shut := shut, destroy := pc } := by
  refine ⟨h.type, legal_concat.mpr ⟨h.order, hn⟩, ?_, hpc⟩
  change waitsOk s.flags ((s.log ++ [n]).any XprtNote.isConnected) s.event
  rw [List.any_append, List.any_cons, List.any_nil, hother, Bool.or_false, Bool.or_false]
  exact h.event

variable [DecidableEq T]

theorem ConnectInv.shutStep (h : ConnectInv s) {t : T} {pc : ShutPc}
    (hstep : shutStep s t pc = some s') : ConnectInv s' := by
  cases pc with
  | idle => cases hstep
  | read how =>
    obtain rfl := Option.some.inj hstep
    exact h.others _ (Stays.refl _) _ h.destroy
  | swap how f =>
    obtain rfl := Option.some.inj hstep
    split
    · rename_i hsame
      have hstays : Stays s.flags (shutBits how f) := hsame ▸ stays_shutBits how s.flags
      exact h.others _ hstays _ (hstays.closedOk h.destroy)
    · exact h.others _ (Stays.refl _) _ h.destroy
  | call how =>
    obtain rfl := Option.some.inj hstep
    exact h.othersNote (.shutdown (some how)) trivial rfl _ h.destroy

omit [DecidableEq T] in
theorem ConnectInv.destroyStep (h : ConnectInv s) {pc : DestroyPc} (hpc : s.destroy = pc)
    (hstep : destroyStep s pc = some s') : ConnectInv s' := by
  have hok := h.destroy
  rw [hpc] at hok
  cases pc with
  | done => cases hstep
  | idle =>
    obtain rfl := Option.some.inj hstep
    exact h.others _ (Stays.refl _) _ trivial
  | detach =>
    obtain rfl := Option.some.inj hstep
    exact h.others { s.flags with attached := false } ⟨id, id, Or.inr⟩ _ trivial
  | sync =>
    obtain ⟨-, heq⟩ := Option.ite_none_right_eq_some.mp hstep
    obtain rfl := Option.some.inj heq
    exact h.others _ (Stays.refl _) _ trivial
  | setClosed =>
    obtain rfl := Option.some.inj hstep
    have hstays : Stays s.flags { s.flags with closed := true } :=
      ⟨fun _ => rfl, fun _ => rfl, fun _ => Or.inl rfl⟩
    apply h.others _ hstays
    split
    · trivial
    · rfl
  | swapRead =>
    obtain rfl := Option.some.inj hstep
    exact h.others _ (Stays.refl _) _ hok
  | swap f =>
    obtain rfl := Option.some.inj hstep
    split
    · rename_i hsame
      have hclosed : f.closed = true := hsame ▸ hok
      have hstays : Stays s.flags { f with shutrd := false, shutwr := false } :=
        ⟨fun _ => hclosed, fun _ => isClosed_of_closed hclosed, fun _ => Or.inl (isClosed_of_closed hclosed)⟩
      exact h.others _ hstays _ hclosed
    · exact h.others _ (Stays.refl _) _ hok
  | connClear =>
    obtain rfl := Option.some.inj hstep
    have hstays : Stays s.flags { s.flags with connecting := false } :=
      ⟨id, id, fun _ => Or.inl (isClosed_of_closed hok)⟩
    apply h.others _ hstays
    split <;> trivial
  | openTest =>
    obtain rfl := Option.some.inj hstep
    apply h.others _ (Stays.refl _)
    split <;> trivial
  | shakeTest =>
    obtain rfl := Option.some.inj hstep
    apply h.others _ (Stays.refl _)
    split <;> trivial
  | shutCall =>
    obtain rfl := Option.some.inj hstep
    exact h.othersNote (.shutdown none) trivial rfl _ trivial
  | closeCall =>
    obtain rfl := Option.some.inj hstep
    exact h.othersNote (.closed eventEof) trivial rfl _ trivial

theorem ConnectInv.step (h : ConnectInv s) {a : XprtAct T} (ha : notAlready s a)
    (hstep : xprtStep s a = some s') :
    ConnectInv s' := by
  have hok := h.event
  cases a with
  | begin m =>
    obtain ⟨⟨hidle, -⟩, heq⟩ := Option.ite_none_right_eq_some.mp hstep
    obtain rfl := Option.some.inj heq
    rw [hidle] at hok
    exact h.walk _ id hok
  | event => exact h.eventStep rfl hstep
  | connect result =>
    rw [xprtStep] at hstep
    split at hstep
    · obtain rfl := Option.some.inj hstep
      cases result with
      | success => exact h.call .connected trivial (Or.inl (Bool.or_true _))
      | eisconn => exact h.call .connected trivial (Or.inl (Bool.or_true _))
      | ealready => exact absurd rfl ha
      | failed => exact h.walk _ id trivial
    · cases hstep
  | handshake result =>
    rw [xprtStep] at hstep
    split at hstep
    · rename_i m hpc
      obtain rfl := Option.some.inj hstep
      rw [hpc] at hok
      cases result with
      | success => exact h.walk _ id hok
      | eagain => exact h.walk _ id (hok.imp_right Or.inl)
      | failed => exact h.walk _ id trivial
    · cases hstep
  | shutdown t how =>
    obtain ⟨-, heq⟩ := Option.ite_none_right_eq_some.mp hstep
    obtain rfl := Option.some.inj heq
    exact h.others _ (Stays.refl _) _ h.destroy
  | shut t => exact h.shutStep hstep
  | destroy => exact h.destroyStep rfl hstep

omit [DecidableEq T] in
theorem connectInv_init : ConnectInv (xprtInit .tcpclnt true : XprtState T) where
  type := rfl
  order := legal_nil
  event := Or.inr (Or.inr rfl)
  destroy := trivial

/-- When no `connect` gives `EALREADY`, a client created with a connection in progress opens,
receives and sends only after a `connect` that gave 0 or `EISCONN`. -/
theorem opens_connected (as : List (XprtAct T)) (s : XprtState T)
    (hanswers : RunMeets xprtStep notAlready (xprtInit .tcpclnt true) as)
    (hr : runActs xprtStep (xprtInit .tcpclnt true) as = some s) : Legal connectFirst s.log := by
  have hinv : ConnectInv s :=
    run_invariant (fun _ _ _ h ha hs => h.step ha hs) as _ s connectInv_init hanswers hr
  exact hinv.order

end Invariant

/-- The first handshake is to be tried again, the second one succeeds. -/
def slowHandshake : List (XprtAct Unit) :=
  [.begin readWrite, .event, .event, .event, .connect .eisconn, .event, .event, .handshake .eagain,
    .begin readWrite, .event,
   .event, .event, .handshake .success, .event, .event, .event, .event, .event, .event]

theorem opens_connected_slowHandshake :
    ∃ s, runActs xprtStep (xprtInit .tcpclnt true) slowHandshake = some s ∧
      s.log = [.connected, .opened readWrite, .recv readWrite] ∧ Legal connectFirst s.log := by
  have hanswers : RunMeets xprtStep notAlready (xprtInit .tcpclnt true : XprtState Unit) slowHandshake := by
    refine .cons rfl nofun
      (.cons rfl nofun (.cons rfl nofun (.cons rfl nofun (.cons rfl nofun (.cons rfl nofun
      (.cons rfl nofun (.cons rfl nofun (.cons rfl nofun (.cons rfl nofun (.cons rfl nofun (.cons rfl nofun
      (.cons rfl nofun (.cons rfl nofun (.cons rfl nofun (.cons rfl nofun (.cons rfl nofun (.cons rfl nofun
      (.cons rfl nofun trivial))))))))))))))))))
  exact ⟨_, rfl, rfl, opens_connected slowHandshake _ hanswers rfl⟩

/-- The connection goes on when `connect` is asked; the next event is taken as that of a connected
transport. -/
def alreadyConnecting : List (XprtAct Unit) :=
  [.begin readWrite, .event, .event, .event, .connect .ealready, .begin readWrite, .event, .event,
    .event, .handshake .success,
   .event, .event, .event, .event]

theorem opened_unconnected :
    ∃ s, runActs xprtStep (xprtInit .tcpclnt true) alreadyConnecting = some s ∧ s.log = [.opened readWrite] ∧
      ¬ Legal connectFirst s.log := by
  refine ⟨_, rfl, rfl, fun h => ?_⟩
  exact Bool.noConfusion (h [] (.opened readWrite) [] rfl)

end Skp.Server
