import Skp.Foundations.Holder
import Skp.Server.AttachLife

/-! # The steps on a server's transports

What every step keeps of `nr_xprts`, the list and the references. A step touches one transport, or
in `xprt_move` two, and is one of the changes of `AttachLife` there; the other transports see
nothing of it. -/
namespace Skp.Server
set_option autoImplicit false
open Skp.Foundations

/-! ## Places -/

def AttachPc.holdsLock {X : Type} : AttachPc X → Bool
  | .attachTest _ _ => true
  | .attachBit _ => true
  | .attachUnlock _ => true
  | .detachRemove _ _ => true
  | .detachUnlock _ _ => true
  | .moveClear _ _ _ => true
  | .moveCopy _ _ _ => true
  | .moveLink _ _ _ => true
  | .moveBit _ _ _ => true
  | .movePut _ _ _ => true
  | .moveUnlock _ _ _ => true
  | .stopGet => true
  | .stopUnlock _ => true
  | _ => false

/-- `src` is off the list and `alias` is not yet on it. -/
def AttachPc.inGap {X : Type} : AttachPc X → Bool
  | .moveLink _ _ _ => true
  | _ => false

/-- `alias` is not `src`. -/
def AttachPc.distinct {X : Type} : AttachPc X → Prop
  | .moveRead a x _ => a ≠ x
  | .moveLock a x _ => a ≠ x
  | .moveClear a x _ => a ≠ x
  | .moveCopy a x _ => a ≠ x
  | .moveLink a x _ => a ≠ x
  | .moveBit a x _ => a ≠ x
  | .movePut a x _ => a ≠ x
  | .moveUnlock a x _ => a ≠ x
  | _ => True

section Roles
variable {X T : Type} [DecidableEq X]

def roleAt (x y : X) (r : Role) : Role := if x = y then r else .away

def rolesAt (x a : X) (r : Role) (y : X) (q : Role) : Role := if x = a then r else roleAt x y q

/-- What a thread at this place is to the transport `x`. -/
def AttachPc.role (x : X) : AttachPc X → Role
  | .idle => .away
  | .inEvent y => roleAt x y .owner
  | .attachLock y _ => roleAt x y .attaching
  | .attachTest y _ => roleAt x y .attaching
  | .attachBit y => roleAt x y .binding
  | .attachUnlock y => roleAt x y .owner
  | .detachRead y _ => roleAt x y .owner
  | .detachClear y _ => roleAt x y .owner
  | .detachLock y _ => roleAt x y .clearing
  | .detachRemove y _ => roleAt x y .clearing
  | .detachUnlock y _ => roleAt x y .holding
  | .drop y _ => roleAt x y .holding
  | .barrier y => roleAt x y .owner
  | .lastPut y => roleAt x y .owner
  | .moveRead a y _ => rolesAt x a .adopting y .owner
  | .moveLock a y _ => rolesAt x a .adopting y .owner
  | .moveClear a y _ => rolesAt x a .adopting y .owner
  | .moveCopy a y _ => rolesAt x a .adopting y .clearing
  | .moveLink a y _ => rolesAt x a .adopted y .holding
  | .moveBit a y _ => rolesAt x a .binding y .holding
  | .movePut a y _ => rolesAt x a .owner y .holding
  | .moveUnlock a y _ => rolesAt x a .owner y .owner
  | .stopLock => .away
  | .stopGet => .away
  | .stopUnlock y => roleAt x y .owner

def ServerState.view (s : ServerState X T) (x : X) : XprtView where
  listed := decide (x ∈ s.xprtList)
  known := s.known x
  server := s.server x
  attached := s.attached x
  refs := s.refs x
  users := s.users x
  rc := s.rc x
  taken := s.taken x
  dropped := s.dropped x

/-! What the operations change of one transport and of the others. -/

section Views
variable {s : ServerState X T} {x y : X}

theorem view_construct : (s.construct x).view x = { s.view x with known := true, refs := 1 } := by
  simp only [ServerState.view, ServerState.construct, Function.update_self]
  rfl

theorem view_construct_of_ne (hy : y ≠ x) : (s.construct x).view y = s.view y := by
  simp only [ServerState.view, ServerState.construct, Function.update_of_ne hy]
  rfl

theorem view_setServer (b : Bool) : (s.setServer x b).view x = { s.view x with server := b } := by
  simp only [ServerState.view, ServerState.setServer, Function.update_self]
  rfl

theorem view_setServer_of_ne (hy : y ≠ x) (b : Bool) : (s.setServer x b).view y = s.view y := by
  simp only [ServerState.view, ServerState.setServer, Function.update_of_ne hy]
  rfl

theorem view_setUsers (n : ℕ) : (s.setUsers x n).view x = { s.view x with users := n } := by
  simp only [ServerState.view, ServerState.setUsers, Function.update_self]
  rfl

theorem view_setUsers_of_ne (hy : y ≠ x) (n : ℕ) : (s.setUsers x n).view y = s.view y := by
  simp only [ServerState.view, ServerState.setUsers, Function.update_of_ne hy]
  rfl

theorem view_setAttached (b : Bool) : (s.setAttached x b).view x = { s.view x with attached := b } := by
  simp only [ServerState.view, ServerState.setAttached, Function.update_self]
  rfl

theorem view_setAttached_of_ne (hy : y ≠ x) (b : Bool) : (s.setAttached x b).view y = s.view y := by
  simp only [ServerState.view, ServerState.setAttached, Function.update_of_ne hy]
  rfl

theorem view_setRefs (n : ℕ) :
    { s with refs := Function.update s.refs x n }.view x = { s.view x with refs := n } := by
  simp only [ServerState.view, Function.update_self]

theorem view_setRefs_of_ne (hy : y ≠ x) (n : ℕ) :
    { s with refs := Function.update s.refs x n }.view y = s.view y := by
  simp only [ServerState.view, Function.update_of_ne hy]

theorem view_setRc (rc : ℤ) :
    { s with rc := Function.update s.rc x (some rc) }.view x = { s.view x with rc := some rc } := by
  simp only [ServerState.view, Function.update_self]

theorem view_setRc_of_ne (hy : y ≠ x) (rc : ℤ) :
    { s with rc := Function.update s.rc x (some rc) }.view y = s.view y := by
  simp only [ServerState.view, Function.update_of_ne hy]

theorem view_link (front : Bool) :
    (s.link x front).view x = { s.view x with
      refs := s.refs x + 1
      taken := s.taken x + 1
      listed := true } := by
  have hmem : x ∈ (if front = true then x :: s.xprtList else s.xprtList ++ [x]) := by
    split
    · exact List.mem_cons_self
    · exact List.mem_append_right _ (List.mem_singleton_self x)
  simp only [ServerState.view, ServerState.link, ServerState.getRef, Function.update_self, hmem, decide_true]

theorem view_link_of_ne (hy : y ≠ x) (front : Bool) : (s.link x front).view y = s.view y := by
  have hmem : y ∈ (if front = true then x :: s.xprtList else s.xprtList ++ [x]) ↔ y ∈ s.xprtList := by
    split
    · rw [List.mem_cons, or_iff_right hy]
    · rw [List.mem_append, List.mem_singleton, or_iff_left hy]
  simp only [ServerState.view, ServerState.link, ServerState.getRef, Function.update_of_ne hy, hmem]

theorem view_unlink (hnodup : s.xprtList.Nodup) :
    (s.unlink x).view x = { s.view x with listed := false } := by
  have hmem : x ∉ s.xprtList.erase x := hnodup.not_mem_erase
  simp only [ServerState.view, ServerState.unlink, hmem, decide_false]

theorem view_unlink_of_ne (hy : y ≠ x) : (s.unlink x).view y = s.view y := by
  have hmem : y ∈ s.xprtList.erase x ↔ y ∈ s.xprtList := List.mem_erase_of_ne hy
  simp only [ServerState.view, ServerState.unlink, hmem]

theorem view_dropRef :
    (s.dropRef x).view x = { s.view x with refs := s.refs x - 1, dropped := s.dropped x + 1 } := by
  simp only [ServerState.view, ServerState.dropRef, ServerState.putRef, Function.update_self]
  rfl

theorem view_dropRef_of_ne (hy : y ≠ x) : (s.dropRef x).view y = s.view y := by
  simp only [ServerState.view, ServerState.dropRef, ServerState.putRef, Function.update_of_ne hy]
  rfl

end Views

@[simp] theorem roleAt_self (x : X) (r : Role) : roleAt x x r = r := if_pos rfl

theorem roleAt_of_ne {x y : X} (h : x ≠ y) (r : Role) : roleAt x y r = .away := if_neg h

@[simp] theorem rolesAt_left (a y : X) (r q : Role) : rolesAt a a r y q = r := if_pos rfl

theorem rolesAt_right {a y : X} (h : a ≠ y) (r q : Role) : rolesAt y a r y q = q := by
  rw [rolesAt, if_neg h.symm, roleAt_self]

theorem rolesAt_of_ne {x a : X} (h : x ≠ a) (y : X) (r q : Role) :
    rolesAt x a r y q = roleAt x y q := if_neg h

/-! ## The invariant -/

/-- Each transport's books are in order; `nr_xprts` is the length of the list and one more in the
gap of a move; the server's references are its owner's and those of the transports that have it. -/
structure ServerInv (s : ServerState X T) : Prop where
  xprt : ∀ x, XprtOk (fun t => (s.pc t).role x) (s.view x)
  lock : HeldBy AttachPc.holdsLock s.pc s.lock
  nodup : s.xprtList.Nodup
  count : ∃ n, Headcount AttachPc.inGap s.pc n ∧ s.nrXprts = s.xprtList.length + n
  server : ∃ n, Headcount id s.server n ∧ s.serverRefs = n + 1
  distinct : ∀ t, (s.pc t).distinct

variable {s s' : ServerState X T} {t : T} {pc : AttachPc X}

variable [DecidableEq T]

/-- A step of the thread `t`, with `s'` for the state before it moves. -/
theorem ServerInv.act (h : ServerInv s) (hpc : s'.pc = s.pc)
    (hxprt : ∀ y, XprtOk (Function.update (fun u => (s.pc u).role y) t (pc.role y)) (s'.view y))
    (hlock : HeldBy AttachPc.holdsLock (Function.update s.pc t pc) s'.lock) (hnodup : s'.xprtList.Nodup)
    (hcount : s'.nrXprts + s.xprtList.length + (s.pc t).inGap.toNat = s.nrXprts +
      s'.xprtList.length + pc.inGap.toNat)
    (hserver : ∃ n, Headcount id s'.server n ∧ s'.serverRefs = n + 1) (hdistinct : pc.distinct) :
    ServerInv (s'.goto t pc) := by
  obtain ⟨g, hg, hnr⟩ := h.count
  have hle := hg.le t
  have hgap : Headcount AttachPc.inGap (Function.update s'.pc t pc)
      (g + pc.inGap.toNat - (s.pc t).inGap.toNat) := by
    rw [hpc]
    exact hg.update t pc
  have hnow : (s'.goto t pc).nrXprts = s'.xprtList.length + (g + pc.inGap.toNat - (s.pc t).inGap.toNat) := by
    change s'.nrXprts = _
    omega
  refine ⟨fun y => ?_, ?_, hnodup, ⟨_, hgap, hnow⟩, hserver, fun u => ?_⟩
  · have hroles : (fun u => ((s'.goto t pc).pc u).role y) =
      Function.update (fun u => (s.pc u).role y) t (pc.role y) := by
      funext u
      change (Function.update s'.pc t pc u).role y = _
      rw [hpc]
      by_cases hu : u = t
      · subst hu
        rw [Function.update_self, Function.update_self]
      · rw [Function.update_of_ne hu, Function.update_of_ne hu]
    rw [hroles]
    exact hxprt y
  · change HeldBy AttachPc.holdsLock (Function.update s'.pc t pc) s'.lock
    rw [hpc]
    exact hlock
  · change (Function.update s'.pc t pc u).distinct
    rw [hpc]
    by_cases hu : u = t
    · subst hu
      rw [Function.update_self]
      exact hdistinct
    · rw [Function.update_of_ne hu]
      exact h.distinct u

/-- A transport that the step does not touch. -/
theorem ServerInv.same (h : ServerInv s) {y : X} (hrole : pc.role y = (s.pc t).role y)
    (hview : s'.view y = s.view y) :
    XprtOk (Function.update (fun u => (s.pc u).role y) t (pc.role y)) (s'.view y) := by
  rw [hview, hrole, Function.update_eq_self (f := fun u => (s.pc u).role y)]
  exact h.xprt y

theorem ServerInv.touch (h : ServerInv s) (x : X) (hrole : ∀ y, y ≠ x → pc.role y = (s.pc t).role y)
    (hview : ∀ y, y ≠ x → s'.view y = s.view y)
    (hx : XprtOk (Function.update (fun u => (s.pc u).role x) t (pc.role x)) (s'.view x)) (y : X) :
    XprtOk (Function.update (fun u => (s.pc u).role y) t (pc.role y)) (s'.view y) := by
  by_cases hy : y = x
  · subst hy
    exact hx
  · exact h.same (hrole y hy) (hview y hy)

/-- The thread goes on, and what it has does not change. -/
theorem ServerInv.walk (h : ServerInv s) (hrole : ∀ y, pc.role y = (s.pc t).role y)
    (hlock : pc.holdsLock = (s.pc t).holdsLock) (hgap : pc.inGap = (s.pc t).inGap) (hdistinct : pc.distinct) :
    ServerInv (s.goto t pc) := by
  refine h.act rfl (fun y => h.same (hrole y) rfl) (h.lock.stay hlock) h.nodup ?_ h.server hdistinct
  rw [hgap]

theorem ServerInv.lockBy (h : ServerInv s) (hstep : s.lockBy t pc = some s')
    (hrole : ∀ y, pc.role y = (s.pc t).role y)
    (hpc : pc.holdsLock = true) (hgap : pc.inGap = (s.pc t).inGap) (hdistinct : pc.distinct) :
    ServerInv s' := by
  obtain ⟨hfree, heq⟩ := Option.ite_none_right_eq_some.mp hstep
  obtain rfl := Option.some.inj heq
  have hlock : HeldBy AttachPc.holdsLock s.pc none := hfree ▸ h.lock
  refine h.act rfl (fun y => h.same (hrole y) rfl) (hlock.enter hpc) h.nodup ?_ h.server hdistinct
  rw [hgap]

omit [DecidableEq T] in
theorem ServerInv.locked (h : ServerInv s) (ht : (s.pc t).holdsLock = true) :
    HeldBy AttachPc.holdsLock s.pc (some t) :=
  (h.lock t).mp ht ▸ h.lock

/-- A step of the thread `t` that gives the lock back. -/
theorem ServerInv.unlock (h : ServerInv s) (ht : (s.pc t).holdsLock = true) (hpc : s'.pc = s.pc)
    (hxprt : ∀ y, XprtOk (Function.update (fun u => (s.pc u).role y) t (pc.role y)) (s'.view y))
    (hfree : pc.holdsLock = false) (hnodup : s'.xprtList.Nodup)
    (hcount : s'.nrXprts + s.xprtList.length + (s.pc t).inGap.toNat = s.nrXprts +
      s'.xprtList.length + pc.inGap.toNat)
    (hserver : ∃ n, Headcount id s'.server n ∧ s'.serverRefs = n + 1) (hdistinct : pc.distinct) :
    ServerInv (s'.unlock t pc) := by
  change ServerInv ({ s' with lock := none }.goto t pc)
  exact h.act hpc hxprt ((h.locked ht).leave hfree) hnodup hcount hserver hdistinct

theorem ServerInv.leaveLock (h : ServerInv s) (ht : (s.pc t).holdsLock = true)
    (hrole : ∀ y, pc.role y = (s.pc t).role y)
    (hfree : pc.holdsLock = false) (hgap : pc.inGap = (s.pc t).inGap) (hdistinct : pc.distinct) :
    ServerInv (s.unlock t pc) := by
  refine h.unlock ht rfl (fun y => h.same (hrole y) rfl) hfree h.nodup ?_ h.server hdistinct
  rw [hgap]

omit [DecidableEq T] in
theorem ServerInv.distinctAt (h : ServerInv s) (ht : s.pc t = pc) : pc.distinct := ht ▸ h.distinct t

theorem role_of_ne {x y : X} (hy : y ≠ x) (r q : Role) : roleAt y x r = roleAt y x q := by
  rw [roleAt_of_ne hy, roleAt_of_ne hy]

/-! ## Calls that begin -/

theorem ServerInv.attach (h : ServerInv s) {x : X} {serv : Bool} (ht : s.pc t = .idle)
    (hnew : s.known x = false) :
    ServerInv ((({ s with serverRefs := s.serverRefs + 1 }.construct x).setServer x true).goto t
      (.attachLock x serv)) := by
  obtain ⟨n, hn, hrefs⟩ := h.server
  have hserver : s.server x = false := ((h.xprt x).fresh hnew).2.1
  refine h.act rfl (h.touch x (fun y hy => ?_) (fun y hy => ?_) ?_) (h.lock.stay (by rw [ht]; rfl))
    h.nodup (by rw [ht]; rfl)
    ⟨_, hn.update x true, ?_⟩ trivial
  · rw [ht]
    exact roleAt_of_ne hy _
  · rw [view_setServer_of_ne hy, view_construct_of_ne hy]
    rfl
  · have hx := (h.xprt x).construct (t := t) (r := .attaching) (b := true) hnew rfl rfl
    rw [view_setServer, view_construct, AttachPc.role, roleAt_self]
    exact hx
  · rw [hserver]
    simp only [ServerState.setServer, ServerState.construct, id, Bool.toNat_true, Bool.toNat_false]
    omega

/-- A thread that has no part in a transport of the server takes a reference to it. -/
theorem ServerInv.takeRef (h : ServerInv s) {x : X} (haway : ∀ y, (s.pc t).role y = .away)
    (hrole : ∀ y, pc.role y = roleAt y x .owner) (hlock : pc.holdsLock = (s.pc t).holdsLock)
    (hgap : pc.inGap = (s.pc t).inGap) (hdistinct : pc.distinct) (hserver : s.server x = true)
    (hrefs : 0 < s.refs x) : ServerInv ((s.getRef x).goto t pc) := by
  refine h.act rfl (h.touch x (fun y hy => ?_) (fun y hy => view_setRefs_of_ne hy _) ?_)
    (h.lock.stay hlock) h.nodup (by rw [hgap]; rfl) h.server hdistinct
  · rw [haway, hrole]
    exact roleAt_of_ne hy _
  · have hx := (h.xprt x).event (haway x) hserver hrefs
    rw [ServerState.getRef, view_setRefs, hrole, roleAt_self]
    exact hx

theorem ServerInv.event (h : ServerInv s) {x : X} (ht : s.pc t = .idle) (hserver : s.server x = true)
    (hrefs : 0 < s.refs x) : ServerInv ((s.getRef x).goto t (.inEvent x)) :=
  h.takeRef (fun _ => by rw [ht]; rfl) (fun _ => rfl) (by rw [ht]; rfl) (by rw [ht]; rfl) trivial
    hserver hrefs

/-- `stop_xprts` takes a reference to a transport of the list, which has one for the list. -/
theorem ServerInv.stopGet (h : ServerInv s) {x : X} (ht : s.pc t = .stopGet) (hmem : x ∈ s.xprtList) :
    ServerInv ((if 0 < s.refs x then s.getRef x else s).goto t (.stopUnlock x)) := by
  have hlisted : (s.view x).listed = true := decide_eq_true hmem
  have hrefs : 0 < s.refs x := (h.xprt x).refs_of_listed hlisted
  rw [if_pos hrefs]
  exact h.takeRef (fun _ => by rw [ht]; rfl) (fun _ => rfl) (by rw [ht]; rfl) (by rw [ht]; rfl) trivial
    ((h.xprt x).server hlisted) hrefs

theorem ServerInv.destroy (h : ServerInv s) {x : X} (ht : s.pc t = .idle) (husers : 0 < s.users x) :
    ServerInv ((s.setUsers x (s.users x - 1)).goto t (.detachRead x false)) := by
  refine h.act rfl (h.touch x (fun y hy => ?_) (fun y hy => view_setUsers_of_ne hy _) ?_)
    (h.lock.stay (by rw [ht]; rfl)) h.nodup
    (by rw [ht]; rfl) h.server trivial
  · rw [ht]
    exact roleAt_of_ne hy _
  · have hx := (h.xprt x).borrow (t := t) (by rw [ht]; rfl) husers
    rw [view_setUsers, AttachPc.role, roleAt_self]
    exact hx

omit [DecidableEq T] in
theorem ServerInv.known_of_owner (h : ServerInv s) {x : X} (ht : ((s.pc t).role x).owns = true) :
    s.known x = true :=
  (h.xprt x).known_of_owns ht

/-- `xprt_move` by a user of `src`. -/
theorem ServerInv.move (h : ServerInv s) {a x : X} (ht : s.pc t = .idle) (hnew : s.known a = false)
    (husers : 0 < s.users x) :
    ServerInv (((s.construct a).setUsers x (s.users x - 1)).goto t (.moveRead a x false)) := by
  have hne : a ≠ x := by
    rintro rfl
    have hzero := ((h.xprt a).fresh hnew).2.2.1
    exact absurd hzero (by change s.users a ≠ 0; omega)
  have hserver : s.server a = false := ((h.xprt a).fresh hnew).2.1
  have hzero : s.users a = 0 := ((h.xprt a).fresh hnew).2.2.1
  refine h.act rfl (fun y => ?_) (h.lock.stay (by rw [ht]; rfl)) h.nodup (by rw [ht]; rfl) h.server hne
  by_cases hya : y = a
  · subst hya
    have hx := (h.xprt y).construct (t := t) (r := .adopting) (b := false) hnew ⟨rfl, hzero, rfl⟩ rfl
    rw [view_setUsers_of_ne hne, view_construct, AttachPc.role, rolesAt_left]
    have hsame : (s.view y).server = false := hserver
    rw [← hsame] at hx
    exact hx
  · by_cases hyx : y = x
    · subst hyx
      have hx := (h.xprt y).borrow (t := t) (by rw [ht]; rfl) husers
      rw [view_setUsers, view_construct_of_ne hya, AttachPc.role, rolesAt_right hne]
      exact hx
    · refine h.same ?_ ?_
      · rw [ht]
        exact (rolesAt_of_ne hya _ _ _).trans (roleAt_of_ne hyx _)
      · rw [view_setUsers_of_ne hyx, view_construct_of_ne hya]

/-- `xprt_move` in the callback of `src`. -/
theorem ServerInv.moveInEvent (h : ServerInv s) {a x : X} (ht : s.pc t = .inEvent x)
    (hnew : s.known a = false) :
    ServerInv ((s.construct a).goto t (.moveRead a x true)) := by
  have hknown : s.known x = true := h.known_of_owner (t := t) (by rw [ht, AttachPc.role, roleAt_self]; rfl)
  have hne : a ≠ x := by
    rintro rfl
    rw [hnew] at hknown
    exact Bool.noConfusion hknown
  have hserver : s.server a = false := ((h.xprt a).fresh hnew).2.1
  have hzero : s.users a = 0 := ((h.xprt a).fresh hnew).2.2.1
  refine h.act rfl (h.touch a (fun y hy => ?_) (fun y hy => view_construct_of_ne hy) ?_)
    (h.lock.stay (by rw [ht]; rfl)) h.nodup
    (by rw [ht]; rfl) h.server hne
  · rw [ht]
    exact rolesAt_of_ne hy _ _ _
  · have hx := (h.xprt a).construct (t := t) (r := .adopting) (b := false) hnew ⟨rfl, hzero, rfl⟩ rfl
    rw [view_construct, AttachPc.role, rolesAt_left]
    have hsame : (s.view a).server = false := hserver
    rw [← hsame] at hx
    exact hx

/-! ## Steps of `attach_xprt` -/

theorem ServerInv.attachLink (h : ServerInv s) {x : X} {serv : Bool} (ht : s.pc t = .attachTest x serv) :
    ServerInv (({ s with nrXprts := s.nrXprts + 1 }.link x serv).goto t (.attachBit x)) := by
  have hrole : (s.pc t).role x = .attaching := by rw [ht, AttachPc.role, roleAt_self]
  have hnot : x ∉ s.xprtList := by
    intro hmem
    have hpos := (h.xprt x).taken_of_listed (decide_eq_true hmem)
    have hzero := (h.xprt x).taken_eq_zero (t := t) (by rw [hrole]; rfl)
    omega
  have hlist : (if serv = true then x :: s.xprtList else s.xprtList ++ [x]).Perm (x :: s.xprtList) := by
    split
    · exact List.Perm.refl _
    · exact List.perm_append_singleton x s.xprtList
  refine h.act rfl (h.touch x (fun y hy => ?_) (fun y hy => view_link_of_ne hy serv) ?_)
    (h.lock.stay (by rw [ht]; rfl))
    (hlist.nodup_iff.mpr (List.nodup_cons.mpr ⟨hnot, h.nodup⟩)) ?_ h.server trivial
  · rw [ht]
    exact role_of_ne hy _ _
  · have hx := (h.xprt x).link (t := t) (Or.inl hrole)
    rw [view_link, AttachPc.role, roleAt_self]
    exact hx
  · rw [ht]
    have hlen : (if serv = true then x :: s.xprtList else s.xprtList ++ [x]).length =
        s.xprtList.length + 1 := hlist.length_eq
    simp only [ServerState.link, ServerState.getRef, AttachPc.inGap]
    omega

theorem ServerInv.attachRefuse (h : ServerInv s) {x : X} {serv : Bool} (ht : s.pc t = .attachTest x serv)
    (hrefs : 2 ≤ s.serverRefs) :
    ServerInv (({ s with
      serverRefs := s.serverRefs - 1
      rc := Function.update s.rc x (some eMFILE) }.setServer x false).goto t
      (.attachUnlock x)) := by
  have hrole : (s.pc t).role x = .attaching := by rw [ht, AttachPc.role, roleAt_self]
  obtain ⟨n, hn, hsum⟩ := h.server
  have hserver : s.server x = true := by
    have hwants := (h.xprt x).wants t
    rw [hrole] at hwants
    exact hwants
  refine h.act rfl (h.touch x (fun y hy => ?_) (fun y hy => ?_) ?_) (h.lock.stay (by rw [ht]; rfl))
    h.nodup (by rw [ht]; rfl)
    ⟨_, hn.update x false, ?_⟩ trivial
  · rw [ht]
    exact role_of_ne hy _ _
  · rw [view_setServer_of_ne hy]
    exact view_setRc_of_ne hy eMFILE
  · have hx := (h.xprt x).refuse (t := t) hrole
    have hview := view_setRc (s := { s with serverRefs := s.serverRefs - 1 }) (x := x) eMFILE
    rw [view_setServer, AttachPc.role, roleAt_self]
    rw [hview]
    exact hx
  · rw [hserver]
    simp only [ServerState.setServer, id, Bool.toNat_true, Bool.toNat_false]
    omega

theorem ServerInv.attachBind (h : ServerInv s) {x : X} (ht : s.pc t = .attachBit x) :
    ServerInv (({ s with rc := Function.update s.rc x (some 0) }.setAttached x true).goto t
      (.attachUnlock x)) := by
  have hrole : (s.pc t).role x = .binding := by rw [ht, AttachPc.role, roleAt_self]
  refine h.act rfl (h.touch x (fun y hy => ?_) (fun y hy => ?_) ?_) (h.lock.stay (by rw [ht]; rfl))
    h.nodup (by rw [ht]; rfl)
    h.server trivial
  · rw [ht]
    exact role_of_ne hy _ _
  · rw [view_setAttached_of_ne hy]
    exact view_setRc_of_ne hy 0
  · have hx := (h.xprt x).bind (t := t) hrole (some 0) fun hrc => absurd (Option.some.inj hrc) (by decide)
    rw [view_setAttached, view_setRc, AttachPc.role, roleAt_self]
    exact hx

theorem ServerInv.attachUnlock (h : ServerInv s) {x : X} (ht : s.pc t = .attachUnlock x) :
    ServerInv ((s.setUsers x (s.users x + 1)).unlock t .idle) := by
  have hrole : (s.pc t).role x = .owner := by rw [ht, AttachPc.role, roleAt_self]
  refine h.unlock (by rw [ht]; rfl) rfl (h.touch x (fun y hy => ?_)
    (fun y hy => view_setUsers_of_ne hy _) ?_) rfl h.nodup
    (by rw [ht]; rfl) h.server trivial
  · rw [ht]
    exact (roleAt_of_ne hy _).symm
  · have hx := (h.xprt x).giveBack (t := t) (Or.inl hrole)
    rw [view_setUsers, AttachPc.role]
    exact hx

/-! ## Steps of `detach_xprt` and what follows it -/

theorem ServerInv.detachClear (h : ServerInv s) {x : X} {event : Bool} (ht : s.pc t = .detachClear x event)
    (hattached : s.attached x = true) : ServerInv ((s.setAttached x false).goto t (.detachLock x event)) := by
  have hrole : (s.pc t).role x = .owner := by rw [ht, AttachPc.role, roleAt_self]
  refine h.act rfl (h.touch x (fun y hy => ?_) (fun y hy => view_setAttached_of_ne hy _) ?_)
    (h.lock.stay (by rw [ht]; rfl))
    h.nodup (by rw [ht]; rfl) h.server trivial
  · rw [ht]
    exact role_of_ne hy _ _
  · have hx := (h.xprt x).clear (t := t) hrole hattached
    rw [view_setAttached, AttachPc.role, roleAt_self]
    exact hx

theorem ServerInv.detachRemove (h : ServerInv s) {x : X} {event : Bool} (ht : s.pc t = .detachRemove x event)
    (hmem : x ∈ s.xprtList) :
    ServerInv (({ s with nrXprts := s.nrXprts - 1 }.unlink x).goto t (.detachUnlock x event)) := by
  have hrole : (s.pc t).role x = .clearing := by rw [ht, AttachPc.role, roleAt_self]
  obtain ⟨g, -, hnr⟩ := h.count
  have hlen := List.length_erase_add_one hmem
  refine h.act rfl (h.touch x (fun y hy => ?_) (fun y hy => view_unlink_of_ne hy) ?_)
    (h.lock.stay (by rw [ht]; rfl))
    (h.nodup.erase x) ?_ h.server trivial
  · rw [ht]
    exact role_of_ne hy _ _
  · have hx := (h.xprt x).remove (t := t) hrole (s.server x)
    have hview := view_unlink (s := { s with nrXprts := s.nrXprts - 1 }) (x := x) h.nodup
    rw [hview, AttachPc.role, roleAt_self]
    exact hx
  · rw [ht]
    simp only [ServerState.unlink, AttachPc.inGap]
    omega

theorem ServerInv.drop (h : ServerInv s) {x : X} {event : Bool} (ht : s.pc t = .drop x event) :
    ServerInv ((s.dropRef x).goto t (.lastPut x)) := by
  have hrole : (s.pc t).role x = .holding := by rw [ht, AttachPc.role, roleAt_self]
  refine h.act rfl (h.touch x (fun y hy => ?_) (fun y hy => view_dropRef_of_ne hy) ?_)
    (h.lock.stay (by rw [ht]; rfl)) h.nodup
    (by rw [ht]; rfl) h.server trivial
  · rw [ht]
    exact role_of_ne hy _ _
  · have hx := (h.xprt x).dropRef (t := t) hrole
    rw [view_dropRef, AttachPc.role, roleAt_self]
    exact hx

theorem ServerInv.lastPut (h : ServerInv s) {x : X} (ht : s.pc t = .lastPut x) :
    ServerInv ((s.putRef x).goto t .idle) := by
  have hrole : (s.pc t).role x = .owner := by rw [ht, AttachPc.role, roleAt_self]
  refine h.act rfl (h.touch x (fun y hy => ?_) (fun y hy => view_setRefs_of_ne hy _) ?_)
    (h.lock.stay (by rw [ht]; rfl)) h.nodup
    (by rw [ht]; rfl) h.server trivial
  · rw [ht]
    exact (roleAt_of_ne hy _).symm
  · have hx := (h.xprt x).release (t := t) hrole
    rw [ServerState.putRef, view_setRefs, AttachPc.role]
    exact hx

/-! ## Steps of `xprt_move` -/

/-- `xprt_move` returns: `alias` is its user's, and `src` its user's or the callback's. -/
theorem ServerInv.back (h : ServerInv s) {a x : X} {event : Bool} (lock : Option T) (hne : a ≠ x)
    (halias : (s.pc t).role a = .owner ∨ (s.pc t).role a = .adopting) (hsrc : (s.pc t).role x = .owner)
    (hothers : ∀ y, y ≠ a → y ≠ x → (s.pc t).role y = .away) (hgap : (s.pc t).inGap = false)
    (hlock : ∀ pc : AttachPc X, pc.holdsLock = false →
      HeldBy AttachPc.holdsLock (Function.update s.pc t pc) lock) :
    ServerInv (({ s with lock := lock }.setUsers a (s.users a + 1)).back t x event) := by
  rw [ServerState.back]
  split
  · refine h.act rfl (h.touch a (fun y hy => ?_) (fun y hy => view_setUsers_of_ne hy _) ?_)
      (hlock _ rfl) h.nodup
      (by rw [hgap]; rfl) h.server trivial
    · by_cases hyx : y = x
      · subst hyx
        rw [AttachPc.role, roleAt_self, hsrc]
      · rw [hothers y hy hyx]
        exact roleAt_of_ne hyx _
    · have hx := (h.xprt a).giveBack (t := t) halias
      rw [view_setUsers, AttachPc.role, roleAt_of_ne hne]
      exact hx
  · refine h.act rfl (fun y => ?_) (hlock _ rfl) h.nodup (by rw [hgap]; rfl) h.server trivial
    by_cases hya : y = a
    · subst hya
      have hx := (h.xprt y).giveBack (t := t) halias
      rw [view_setUsers_of_ne hne, view_setUsers, AttachPc.role]
      exact hx
    · by_cases hyx : y = x
      · subst hyx
        have hx := (h.xprt y).giveBack (t := t) (Or.inl hsrc)
        rw [view_setUsers, view_setUsers_of_ne hya, AttachPc.role]
        have husers : ({ s with lock := lock }.setUsers a (s.users a + 1)).users y = s.users y :=
          Function.update_of_ne hya ..
        rw [husers]
        exact hx
      · refine h.same ?_ ?_
        · rw [hothers y hya hyx]
          rfl
        · rw [view_setUsers_of_ne hyx, view_setUsers_of_ne hya]
          rfl

theorem ServerInv.moveClear (h : ServerInv s) {a x : X} {event : Bool} (ht : s.pc t = .moveClear a x event)
    (hattached : s.attached x = true) : ServerInv ((s.setAttached x false).goto t (.moveCopy a x event)) := by
  have hne : a ≠ x := h.distinctAt ht
  have hrole : (s.pc t).role x = .owner := by rw [ht, AttachPc.role, rolesAt_right hne]
  refine h.act rfl (h.touch x (fun y hy => ?_) (fun y hy => view_setAttached_of_ne hy _) ?_)
    (h.lock.stay (by rw [ht]; rfl))
    h.nodup (by rw [ht]; rfl) h.server hne
  · rw [ht, AttachPc.role, AttachPc.role, rolesAt, rolesAt, role_of_ne hy]
  · have hx := (h.xprt x).clear (t := t) hrole hattached
    rw [view_setAttached, AttachPc.role, rolesAt_right hne]
    exact hx

/-- `xprt_move` finds the bit of `src` clear. -/
theorem ServerInv.moveGiveUp (h : ServerInv s) {a x : X} {event : Bool} (ht : s.pc t = .moveClear a x event) :
    ServerInv (s.goto t (.moveUnlock a x event)) := by
  have hne : a ≠ x := h.distinctAt ht
  have hrole : (s.pc t).role a = .adopting := by rw [ht, AttachPc.role, rolesAt_left]
  refine h.act rfl (h.touch a (fun y hy => ?_) (fun y _ => rfl) ?_) (h.lock.stay (by rw [ht]; rfl))
    h.nodup (by rw [ht]; rfl)
    h.server hne
  · rw [ht, AttachPc.role, AttachPc.role, rolesAt_of_ne hy, rolesAt_of_ne hy]
  · have hx := (h.xprt a).giveUp (t := t) hrole
    rw [AttachPc.role, rolesAt_left]
    exact hx

theorem ServerInv.moveCopy (h : ServerInv s) {a x : X} {event : Bool} (ht : s.pc t = .moveCopy a x event)
    (hmem : x ∈ s.xprtList) :
    ServerInv (((({ s with refs := Function.update s.refs a 1 }.setServer a (s.server x)).setServer
      x false).unlink x).goto t
      (.moveLink a x event)) := by
  have hne : a ≠ x := h.distinctAt ht
  have halias : (s.pc t).role a = .adopting := by rw [ht, AttachPc.role, rolesAt_left]
  have hsrc : (s.pc t).role x = .clearing := by rw [ht, AttachPc.role, rolesAt_right hne]
  have hserver : s.server x = true := (h.xprt x).server (decide_eq_true hmem)
  have hnone : s.server a = false := by
    have hwants := (h.xprt a).wants t
    rw [halias] at hwants
    exact hwants.1
  obtain ⟨n, hn, hsum⟩ := h.server
  have hlen := List.length_erase_add_one hmem
  refine h.act rfl (fun y => ?_) (h.lock.stay (by rw [ht]; rfl)) (h.nodup.erase x) ?_
    ⟨_, (hn.update a (s.server x)).update x false, ?_⟩ hne
  · by_cases hya : y = a
    · subst hya
      have hx := (h.xprt y).adopt (t := t) halias
      rw [view_unlink_of_ne hne, view_setServer_of_ne hne, view_setServer, view_setRefs,
        AttachPc.role, rolesAt_left, hserver]
      exact hx
    · by_cases hyx : y = x
      · subst hyx
        have hx := (h.xprt y).remove (t := t) hsrc false
        rw [view_unlink, view_setServer, view_setServer_of_ne hya, view_setRefs_of_ne hya,
          AttachPc.role, rolesAt_right hne]
        · exact hx
        · exact h.nodup
      · refine h.same ?_ ?_
        · rw [ht, AttachPc.role, AttachPc.role, rolesAt_of_ne hya, rolesAt_of_ne hya, role_of_ne hyx]
        · rw [view_unlink_of_ne hyx, view_setServer_of_ne hyx, view_setServer_of_ne hya,
            view_setRefs_of_ne hya]
  · rw [ht]
    simp only [ServerState.unlink, ServerState.setServer, AttachPc.inGap, Bool.toNat_true, Bool.toNat_false]
    omega
  · have hpos := hn.le x
    rw [Function.update_of_ne hne.symm, hserver, hnone]
    simp only [ServerState.unlink, ServerState.setServer, id, Bool.toNat_true, Bool.toNat_false]
    omega

theorem ServerInv.moveLink (h : ServerInv s) {a x : X} {event : Bool} (ht : s.pc t = .moveLink a x event) :
    ServerInv ((s.link a false).goto t (.moveBit a x event)) := by
  have hne : a ≠ x := h.distinctAt ht
  have hrole : (s.pc t).role a = .adopted := by rw [ht, AttachPc.role, rolesAt_left]
  have hnot : a ∉ s.xprtList := by
    intro hmem
    have hpos := (h.xprt a).taken_of_listed (decide_eq_true hmem)
    have hzero := (h.xprt a).taken_eq_zero (t := t) (by rw [hrole]; rfl)
    omega
  have hlist : (s.xprtList ++ [a]).Perm (a :: s.xprtList) := List.perm_append_singleton a s.xprtList
  refine h.act rfl (h.touch a (fun y hy => ?_) (fun y hy => view_link_of_ne hy false) ?_)
    (h.lock.stay (by rw [ht]; rfl))
    (hlist.nodup_iff.mpr (List.nodup_cons.mpr ⟨hnot, h.nodup⟩)) ?_ h.server hne
  · rw [ht, AttachPc.role, AttachPc.role, rolesAt_of_ne hy, rolesAt_of_ne hy]
  · have hx := (h.xprt a).link (t := t) (Or.inr hrole)
    rw [view_link, AttachPc.role, rolesAt_left]
    exact hx
  · rw [ht]
    have hlen : (s.link a false).xprtList.length = s.xprtList.length + 1 := hlist.length_eq
    rw [hlen]
    simp only [ServerState.link, ServerState.getRef, AttachPc.inGap, Bool.toNat_true, Bool.toNat_false]
    omega

theorem ServerInv.moveBind (h : ServerInv s) {a x : X} {event : Bool} (ht : s.pc t = .moveBit a x event) :
    ServerInv ((s.setAttached a true).goto t (.movePut a x event)) := by
  have hne : a ≠ x := h.distinctAt ht
  have hrole : (s.pc t).role a = .binding := by rw [ht, AttachPc.role, rolesAt_left]
  refine h.act rfl (h.touch a (fun y hy => ?_) (fun y hy => view_setAttached_of_ne hy _) ?_)
    (h.lock.stay (by rw [ht]; rfl))
    h.nodup (by rw [ht]; rfl) h.server hne
  · rw [ht, AttachPc.role, AttachPc.role, rolesAt_of_ne hy, rolesAt_of_ne hy]
  · have hx := (h.xprt a).bind (t := t) hrole (s.rc a) id
    rw [view_setAttached, AttachPc.role, rolesAt_left]
    exact hx

theorem ServerInv.movePut (h : ServerInv s) {a x : X} {event : Bool} (ht : s.pc t = .movePut a x event) :
    ServerInv ((s.dropRef x).goto t (.moveUnlock a x event)) := by
  have hne : a ≠ x := h.distinctAt ht
  have hrole : (s.pc t).role x = .holding := by rw [ht, AttachPc.role, rolesAt_right hne]
  refine h.act rfl (h.touch x (fun y hy => ?_) (fun y hy => view_dropRef_of_ne hy) ?_)
    (h.lock.stay (by rw [ht]; rfl)) h.nodup
    (by rw [ht]; rfl) h.server hne
  · rw [ht, AttachPc.role, AttachPc.role, rolesAt, rolesAt, role_of_ne hy]
  · have hx := (h.xprt x).dropRef (t := t) hrole
    rw [view_dropRef, AttachPc.role, rolesAt_right hne]
    exact hx

/-! ## The users and the end of a transport -/

omit [DecidableEq T] in
theorem ServerInv.reuse (h : ServerInv s) {x : X} {refs users : ℕ} (husers : 0 < s.users x)
    (hsum : refs + s.users x = users + s.refs x) :
    ServerInv ({ s with refs := Function.update s.refs x refs }.setUsers x users) := by
  refine ⟨fun y => ?_, h.lock, h.nodup, h.count, h.server, h.distinct⟩
  by_cases hy : y = x
  · subst hy
    have hx := (h.xprt y).reuse husers hsum
    rw [view_setUsers, view_setRefs]
    exact hx
  · rw [view_setUsers_of_ne hy, view_setRefs_of_ne hy]
    exact h.xprt y

theorem ServerInv.hold (h : ServerInv s) {x : X} (ht : s.pc t = .inEvent x) :
    ServerInv ((s.getRef x).setUsers x (s.users x + 1)) := by
  have hrole : (s.pc t).role x = .owner := by rw [ht, AttachPc.role, roleAt_self]
  refine ⟨fun y => ?_, h.lock, h.nodup, h.count, h.server, h.distinct⟩
  by_cases hy : y = x
  · subst hy
    have hx := (h.xprt y).hold (t := t) hrole
    rw [view_setUsers, ServerState.getRef, view_setRefs]
    exact hx
  · rw [view_setUsers_of_ne hy, ServerState.getRef, view_setRefs_of_ne hy]
    exact h.xprt y

omit [DecidableEq T] in
theorem ServerInv.free (h : ServerInv s) {x : X} (hknown : s.known x = true) (hrefs : s.refs x = 0)
    (hserver : s.server x = true) :
    ServerInv ({ s with serverRefs := s.serverRefs - 1 }.setServer x false) := by
  obtain ⟨n, hn, hsum⟩ := h.server
  have hpos := hn.le x
  rw [hserver] at hpos
  simp only [id, Bool.toNat_true] at hpos
  refine ⟨fun y => ?_, h.lock, h.nodup, h.count, ⟨_, hn.update x false, ?_⟩, h.distinct⟩
  · by_cases hy : y = x
    · subst hy
      have hx := (h.xprt y).free hknown hrefs
      rw [view_setServer]
      exact hx
    · rw [view_setServer_of_ne hy]
      exact h.xprt y
  · rw [hserver]
    simp only [ServerState.setServer, id, Bool.toNat_true, Bool.toNat_false]
    omega

end Roles

end Skp.Server
