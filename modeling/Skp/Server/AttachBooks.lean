import Skp.Server.AttachSteps

/-! # The books of a server

`nr_xprts`, the list and the reference that the list has on each transport, over every interleaving
of the threads. -/
namespace Skp.Server
set_option autoImplicit false
open Skp.Foundations

section Books
variable {X T : Type} [DecidableEq X] [DecidableEq T] {s s' : ServerState X T} {t : T} {pc : AttachPc X}

/-! ## The run -/

theorem ServerInv.attachStep (h : ServerInv s) (hstep : attachStep s t (s.pc t) = some s') :
    ServerInv s' := by
  cases hpc : s.pc t with
  | idle =>
    rw [hpc] at hstep
    cases hstep
  | inEvent x =>
    rw [hpc] at hstep
    cases hstep
  | attachLock x serv =>
    rw [hpc] at hstep
    exact h.lockBy hstep (fun y => by rw [hpc]; rfl) rfl (by rw [hpc]; rfl) trivial
  | attachTest x serv =>
    rw [hpc, Server.attachStep] at hstep
    split at hstep
    · exact Option.some.inj hstep ▸ h.attachLink hpc
    · split at hstep
      · rename_i hrefs
        exact Option.some.inj hstep ▸ h.attachRefuse hpc hrefs
      · cases hstep
  | attachBit x =>
    rw [hpc, Server.attachStep] at hstep
    split at hstep
    · exact Option.some.inj hstep ▸ h.attachBind hpc
    · cases hstep
  | attachUnlock x =>
    rw [hpc] at hstep
    exact Option.some.inj hstep ▸ h.attachUnlock hpc
  | detachRead x event =>
    rw [hpc] at hstep
    obtain rfl := Option.some.inj hstep
    split
    · exact h.walk (fun y => by rw [hpc]; rfl) (by rw [hpc]; rfl) (by rw [hpc]; rfl) trivial
    · split
      · exact h.walk (fun y => by rw [hpc]; rfl) (by rw [hpc]; rfl) (by rw [hpc]; rfl) trivial
      · exact h.walk (fun y => by rw [hpc]; rfl) (by rw [hpc]; rfl) (by rw [hpc]; rfl) trivial
  | detachClear x event =>
    rw [hpc] at hstep
    obtain rfl := Option.some.inj hstep
    split
    · rename_i hattached
      exact h.detachClear hpc hattached
    · split
      · exact h.walk (fun y => by rw [hpc]; rfl) (by rw [hpc]; rfl) (by rw [hpc]; rfl) trivial
      · exact h.walk (fun y => by rw [hpc]; rfl) (by rw [hpc]; rfl) (by rw [hpc]; rfl) trivial
  | detachLock x event =>
    rw [hpc] at hstep
    exact h.lockBy hstep (fun y => by rw [hpc]; rfl) rfl (by rw [hpc]; rfl) trivial
  | detachRemove x event =>
    rw [hpc] at hstep
    obtain ⟨⟨-, hmem⟩, heq⟩ := Option.ite_none_right_eq_some.mp hstep
    exact Option.some.inj heq ▸ h.detachRemove hpc hmem
  | detachUnlock x event =>
    rw [hpc] at hstep
    exact Option.some.inj hstep ▸
      h.leaveLock (by rw [hpc]; rfl) (fun y => by rw [hpc]; rfl) rfl (by rw [hpc]; rfl) trivial
  | drop x event =>
    rw [hpc] at hstep
    obtain ⟨-, heq⟩ := Option.ite_none_right_eq_some.mp hstep
    exact Option.some.inj heq ▸ h.drop hpc
  | barrier x =>
    rw [hpc] at hstep
    obtain ⟨-, heq⟩ := Option.ite_none_left_eq_some.mp hstep
    exact Option.some.inj heq ▸ h.walk (fun y => by rw [hpc]; rfl) (by rw [hpc]; rfl)
      (by rw [hpc]; rfl) trivial
  | lastPut x =>
    rw [hpc] at hstep
    exact Option.some.inj hstep ▸ h.lastPut hpc
  | moveRead a x event =>
    rw [hpc] at hstep
    obtain rfl := Option.some.inj hstep
    have hne : a ≠ x := h.distinctAt hpc
    split
    · exact h.walk (fun y => by rw [hpc]; rfl) (by rw [hpc]; rfl) (by rw [hpc]; rfl) hne
    · refine h.back s.lock hne (Or.inr ?_) ?_ (fun y hya hyx => ?_) (by rw [hpc]; rfl) fun pc hfree =>
        h.lock.stay (by rw [hpc]; exact hfree)
      · rw [hpc, AttachPc.role, rolesAt_left]
      · rw [hpc, AttachPc.role, rolesAt_right hne]
      · rw [hpc, AttachPc.role, rolesAt_of_ne hya, roleAt_of_ne hyx]
  | moveLock a x event =>
    rw [hpc] at hstep
    have hne : a ≠ x := h.distinctAt hpc
    exact h.lockBy hstep (fun y => by rw [hpc]; rfl) rfl (by rw [hpc]; rfl) hne
  | moveClear a x event =>
    rw [hpc] at hstep
    obtain rfl := Option.some.inj hstep
    split
    · rename_i hattached
      exact h.moveClear hpc hattached
    · exact h.moveGiveUp hpc
  | moveCopy a x event =>
    rw [hpc] at hstep
    obtain ⟨hmem, heq⟩ := Option.ite_none_right_eq_some.mp hstep
    exact Option.some.inj heq ▸ h.moveCopy hpc hmem
  | moveLink a x event =>
    rw [hpc] at hstep
    exact Option.some.inj hstep ▸ h.moveLink hpc
  | moveBit a x event =>
    rw [hpc] at hstep
    obtain ⟨-, heq⟩ := Option.ite_none_right_eq_some.mp hstep
    exact Option.some.inj heq ▸ h.moveBind hpc
  | movePut a x event =>
    rw [hpc] at hstep
    exact Option.some.inj hstep ▸ h.movePut hpc
  | moveUnlock a x event =>
    rw [hpc] at hstep
    obtain rfl := Option.some.inj hstep
    have hne : a ≠ x := h.distinctAt hpc
    refine h.back none hne (Or.inl ?_) ?_ (fun y hya hyx => ?_) (by rw [hpc]; rfl) fun pc hfree =>
      (h.locked (by rw [hpc]; rfl)).leave hfree
    · rw [hpc, AttachPc.role, rolesAt_left]
    · rw [hpc, AttachPc.role, rolesAt_right hne]
    · rw [hpc, AttachPc.role, rolesAt_of_ne hya, roleAt_of_ne hyx]
  | stopLock =>
    rw [hpc] at hstep
    exact h.lockBy hstep (fun y => by rw [hpc]; rfl) rfl (by rw [hpc]; rfl) trivial
  | stopGet =>
    rw [hpc, Server.attachStep] at hstep
    cases hlist : s.xprtList with
    | nil =>
      simp only [hlist, Option.some.injEq] at hstep
      subst hstep
      exact h.leaveLock (by rw [hpc]; rfl) (fun y => by rw [hpc]; rfl) rfl (by rw [hpc]; rfl) trivial
    | cons x rest =>
      simp only [hlist, Option.some.injEq] at hstep
      subst hstep
      exact h.stopGet hpc (hlist ▸ List.mem_cons_self)
  | stopUnlock x =>
    rw [hpc] at hstep
    exact Option.some.inj hstep ▸
      h.leaveLock (by rw [hpc]; rfl) (fun y => by rw [hpc]; rfl) rfl (by rw [hpc]; rfl) trivial

theorem ServerInv.step (h : ServerInv s) {a : AttachAct X T} (hstep : serverStep s a = some s') :
    ServerInv s' := by
  cases a with
  | attach t x serv =>
    obtain ⟨⟨hpc, hnew, -⟩, heq⟩ := Option.ite_none_right_eq_some.mp hstep
    exact Option.some.inj heq ▸ h.attach hpc hnew
  | event t x =>
    obtain ⟨⟨hpc, hserver, hrefs⟩, heq⟩ := Option.ite_none_right_eq_some.mp hstep
    exact Option.some.inj heq ▸ h.event hpc hserver hrefs
  | close t =>
    rw [serverStep] at hstep
    split at hstep
    · rename_i x hpc
      exact Option.some.inj hstep ▸ h.walk (fun y => by rw [hpc]; rfl) (by rw [hpc]; rfl)
        (by rw [hpc]; rfl) trivial
    · cases hstep
  | leave t =>
    rw [serverStep] at hstep
    split at hstep
    · rename_i x hpc
      exact Option.some.inj hstep ▸ h.walk (fun y => by rw [hpc]; rfl) (by rw [hpc]; rfl)
        (by rw [hpc]; rfl) trivial
    · cases hstep
  | hold t =>
    rw [serverStep] at hstep
    split at hstep
    · rename_i x hpc
      exact Option.some.inj hstep ▸ h.hold hpc
    · cases hstep
  | moveInEvent t a =>
    rw [serverStep] at hstep
    split at hstep
    · rename_i x hpc
      obtain ⟨hnew, heq⟩ := Option.ite_none_right_eq_some.mp hstep
      exact Option.some.inj heq ▸ h.moveInEvent hpc hnew
    · cases hstep
  | move t a x =>
    obtain ⟨⟨hpc, hnew, husers⟩, heq⟩ := Option.ite_none_right_eq_some.mp hstep
    exact Option.some.inj heq ▸ h.move hpc hnew husers
  | destroy t x =>
    obtain ⟨⟨hpc, husers⟩, heq⟩ := Option.ite_none_right_eq_some.mp hstep
    exact Option.some.inj heq ▸ h.destroy hpc husers
  | stop t =>
    obtain ⟨hpc, heq⟩ := Option.ite_none_right_eq_some.mp hstep
    exact Option.some.inj heq ▸ h.walk (fun y => by rw [hpc]; rfl) (by rw [hpc]; rfl)
      (by rw [hpc]; rfl) trivial
  | step t => exact h.attachStep hstep
  | get x =>
    obtain ⟨husers, heq⟩ := Option.ite_none_right_eq_some.mp hstep
    exact Option.some.inj heq ▸ h.reuse husers (by omega)
  | put x =>
    obtain ⟨husers, heq⟩ := Option.ite_none_right_eq_some.mp hstep
    obtain ⟨n, -, hsum⟩ := (h.xprt x).owned
    obtain ⟨m, -, hheld⟩ := (h.xprt x).held
    have hrefs : s.refs x + s.dropped x = s.users x + n + s.taken x := hsum
    have htaken : s.dropped x + m + (s.view x).listed.toNat = s.taken x := hheld
    exact Option.some.inj heq ▸ h.reuse husers (by omega)
  | free x =>
    obtain ⟨⟨hknown, hrefs, hserver, -, -⟩, heq⟩ := Option.ite_none_right_eq_some.mp hstep
    exact Option.some.inj heq ▸ h.free hknown hrefs hserver

omit [DecidableEq T] in
theorem serverInv_init (maxXprts : ℕ) : ServerInv (serverInit maxXprts : ServerState X T) where
  xprt x := by
    have haway : ∀ t, ((serverInit maxXprts : ServerState X T).pc t).role x = .away := fun _ => rfl
    have hzero : ∀ f : Role → Bool, f .away = false →
        Headcount f (fun t => ((serverInit maxXprts : ServerState X T).pc t).role x) 0 := fun f hf =>
      headcount_zero fun t => by rw [haway t, hf]
    exact ⟨⟨0, hzero _ rfl, rfl⟩, ⟨0, hzero _ rfl, rfl⟩, ⟨0, hzero _ rfl, rfl⟩,
      ⟨0, hzero _ rfl, Nat.zero_le 1⟩, fun _ => trivial,
      fun hl => Bool.noConfusion hl, fun _ => ⟨haway, rfl, rfl, rfl, rfl⟩, fun hrc =>
      absurd hrc.symm (Option.some_ne_none _)⟩
  lock t := ⟨fun ht => Bool.noConfusion ht, fun ht => absurd ht.symm (Option.some_ne_none _)⟩
  nodup := List.nodup_nil
  count := ⟨0, headcount_zero fun _ => rfl, rfl⟩
  server := ⟨0, headcount_zero fun _ => rfl, rfl⟩
  distinct _ := trivial

/-! ## What holds when the lock is free -/

/-- The lock is free, and no thread is between clearing the bit and taking it. -/
def ServerState.Quiet (s : ServerState X T) : Prop :=
  s.lock = none ∧ ∀ t x event, s.pc t ≠ .detachLock x event

theorem role_transit (x : X) (hpc : pc.holdsLock = false) (hdetach : ∀ y event, pc ≠ .detachLock y event) :
    (pc.role x).transit = false := by
  have hat : ∀ y (r : Role), r.transit = false → (roleAt x y r).transit = false := by
    intro y r hr
    rw [roleAt]
    split
    · exact hr
    · rfl
  have hats : ∀ a y, (rolesAt x a .adopting y .owner).transit = false := by
    intro a y
    rw [rolesAt]
    split
    · rfl
    · exact hat y _ rfl
  cases pc with
  | idle => rfl
  | detachLock y event => exact absurd rfl (hdetach y event)
  | moveRead a y event => exact hats a y
  | moveLock a y event => exact hats a y
  | inEvent y => exact hat y _ rfl
  | attachLock y serv => exact hat y _ rfl
  | detachRead y event => exact hat y _ rfl
  | detachClear y event => exact hat y _ rfl
  | drop y event => exact hat y _ rfl
  | barrier y => exact hat y _ rfl
  | lastPut y => exact hat y _ rfl
  | attachTest y serv => exact Bool.noConfusion hpc
  | attachBit y => exact Bool.noConfusion hpc
  | attachUnlock y => exact Bool.noConfusion hpc
  | detachRemove y event => exact Bool.noConfusion hpc
  | detachUnlock y event => exact Bool.noConfusion hpc
  | moveClear a y event => exact Bool.noConfusion hpc
  | moveCopy a y event => exact Bool.noConfusion hpc
  | moveLink a y event => exact Bool.noConfusion hpc
  | moveBit a y event => exact Bool.noConfusion hpc
  | movePut a y event => exact Bool.noConfusion hpc
  | moveUnlock a y event => exact Bool.noConfusion hpc
  | stopLock => rfl
  | stopGet => exact Bool.noConfusion hpc
  | stopUnlock y => exact Bool.noConfusion hpc

omit [DecidableEq X] in
theorem inGap_of_free (hpc : pc.holdsLock = false) : pc.inGap = false := by
  cases pc with
  | moveLink a x event => exact Bool.noConfusion hpc
  | _ => rfl

omit [DecidableEq T] in
theorem ServerInv.quiet_count (h : ServerInv s) (hq : s.Quiet) : s.nrXprts = s.xprtList.length := by
  obtain ⟨n, hn, hnr⟩ := h.count
  have hfree : HeldBy AttachPc.holdsLock s.pc none := hq.1 ▸ h.lock
  have hzero : Headcount AttachPc.inGap s.pc 0 := headcount_zero fun u => inGap_of_free (hfree.free u)
  have hnone := Tally.eq hn hzero
  omega

omit [DecidableEq T] in
theorem ServerInv.quiet_listed (h : ServerInv s) (hq : s.Quiet) (x : X) :
    x ∈ s.xprtList ↔ s.attached x = true := by
  have hfree : HeldBy AttachPc.holdsLock s.pc none := hq.1 ▸ h.lock
  obtain ⟨n, hn, hsum⟩ := (h.xprt x).transit
  have hzero : Headcount Role.transit (fun u => (s.pc u).role x) 0 :=
    headcount_zero fun u => role_transit x (hfree.free u) (hq.2 u)
  have hnone := Tally.eq hn hzero
  have hsame : (s.attached x).toNat = (decide (x ∈ s.xprtList)).toNat := by
    change n + (s.attached x).toNat = (decide (x ∈ s.xprtList)).toNat at hsum
    omega
  rw [← decide_eq_true_iff (p := x ∈ s.xprtList)]
  cases hattached : s.attached x <;> cases hl : decide (x ∈ s.xprtList) <;> simp_all

omit [DecidableEq T] in
/-- The list's reference of a transport is taken once at most, held while the transport is on the
list and given back once. -/
theorem ServerInv.one_reference (h : ServerInv s) (x : X) :
    s.dropped x ≤ s.taken x ∧ s.taken x ≤ 1 ∧ (x ∈ s.xprtList → s.taken x = 1 ∧ s.dropped x = 0) ∧
      (x ∉ s.xprtList → (∀ t, (s.pc t).role x ≠ .holding) → s.dropped x = s.taken x) ∧
      ∃ n, Headcount Role.owns (fun t => (s.pc t).role x) n ∧ s.refs x + s.dropped x = s.users x +
        n + s.taken x := by
  obtain ⟨m, hm, hheld⟩ := (h.xprt x).held
  obtain ⟨k, -, hpending⟩ := (h.xprt x).pending
  have hsum : s.dropped x + m + (decide (x ∈ s.xprtList)).toNat = s.taken x := hheld
  have hone : k + s.taken x ≤ 1 := hpending
  refine ⟨by omega, by omega, fun hmem => ?_, fun hnot hnobody => ?_, (h.xprt x).owned⟩
  · rw [decide_eq_true hmem, Bool.toNat_true] at hsum
    omega
  · have hzero : Headcount Role.holds (fun t => (s.pc t).role x) 0 := by
      apply headcount_zero
      intro t
      have hrole := hnobody t
      cases hr : (s.pc t).role x with
      | holding => exact absurd hr hrole
      | _ => rfl
    have hnone := Tally.eq hm hzero
    rw [decide_eq_false hnot, Bool.toNat_false] at hsum
    omega

/-- `attach_xprt` on a full server. -/
theorem ServerInv.refused (h : ServerInv s) {x : X} {serv : Bool} (ht : s.pc t = .attachTest x serv)
    (hfull : s.maxXprts ≤ s.nrXprts) :
    ∃ s', serverStep s (.step t) = some s' ∧ s'.rc x = some eMFILE ∧ s'.server x = false ∧
      s'.serverRefs + 1 = s.serverRefs ∧
      s'.xprtList = s.xprtList ∧ s'.nrXprts = s.nrXprts := by
  obtain ⟨n, hn, hsum⟩ := h.server
  have hserver : s.server x = true := by
    have hwants := (h.xprt x).wants t
    rw [ht, AttachPc.role, roleAt_self] at hwants
    exact hwants
  have hpos := hn.le x
  rw [hserver] at hpos
  simp only [id, Bool.toNat_true] at hpos
  have hstep : serverStep s (.step t) =
      some (({ s with
        serverRefs := s.serverRefs - 1
        rc := Function.update s.rc x (some eMFILE) }.setServer x false).goto t
        (.attachUnlock x)) := by
    rw [serverStep, ht, Server.attachStep, if_neg (by omega), if_pos (by omega)]
  refine ⟨_, hstep, Function.update_self .., Function.update_self .., ?_, rfl, rfl⟩
  change s.serverRefs - 1 + 1 = s.serverRefs
  omega

/-- No `BUG_ON` stops a call: it goes on when the lock is free or its own. -/
theorem ServerInv.goes_on (h : ServerInv s) (hidle : s.pc t ≠ .idle) (hevent : ∀ x, s.pc t ≠ .inEvent x)
    (hlock : s.lock = none ∨ (s.pc t).holdsLock = true) : ∃ s', serverStep s (.step t) = some s' := by
  have hfree : (s.pc t).holdsLock = false → s.lock = none := fun hno =>
    hlock.elim id fun hyes => Bool.noConfusion (hno.symm.trans hyes)
  have hlisted : ∀ x, ((s.pc t).role x).transit = true → x ∈ s.xprtList ∧ s.attached x = false := by
    intro x hx
    obtain ⟨hmem, hattached⟩ := (h.xprt x).listed_of_transit hx
    exact ⟨of_decide_eq_true hmem, hattached⟩
  cases hpc : s.pc t with
  | idle => exact absurd hpc hidle
  | inEvent x => exact absurd hpc (hevent x)
  | attachLock x serv => exact ⟨_, by rw [serverStep, hpc]; exact if_pos (hfree (by rw [hpc]; rfl))⟩
  | detachLock x event => exact ⟨_, by rw [serverStep, hpc]; exact if_pos (hfree (by rw [hpc]; rfl))⟩
  | moveLock a x event => exact ⟨_, by rw [serverStep, hpc]; exact if_pos (hfree (by rw [hpc]; rfl))⟩
  | stopLock => exact ⟨_, by rw [serverStep, hpc]; exact if_pos (hfree (by rw [hpc]; rfl))⟩
  | stopGet =>
    cases hlist : s.xprtList with
    | nil => exact ⟨_, by rw [serverStep, hpc, Server.attachStep, hlist]⟩
    | cons x rest => exact ⟨_, by rw [serverStep, hpc, Server.attachStep, hlist]⟩
  | attachTest x serv =>
    by_cases hfull : s.nrXprts < s.maxXprts
    · exact ⟨_, by rw [serverStep, hpc]; exact if_pos hfull⟩
    · obtain ⟨s', hs', -⟩ := h.refused hpc (Nat.le_of_not_lt hfull)
      exact ⟨s', hs'⟩
  | attachBit x =>
    obtain ⟨-, hattached⟩ := hlisted x (by rw [hpc, AttachPc.role, roleAt_self]; rfl)
    exact ⟨_, by rw [serverStep, hpc]; exact if_pos hattached⟩
  | detachRemove x event =>
    obtain ⟨hmem, -⟩ := hlisted x (by rw [hpc, AttachPc.role, roleAt_self]; rfl)
    exact ⟨_, by rw [serverStep, hpc]; exact if_pos ⟨(h.xprt x).server (decide_eq_true hmem), hmem⟩⟩
  | drop x event =>
    have hrole : (s.pc t).role x = .holding := by rw [hpc, AttachPc.role, roleAt_self]
    obtain ⟨n, hn, hrefs⟩ := (h.xprt x).owned
    obtain ⟨m, hm, hheld⟩ := (h.xprt x).held
    have hown := hn.le t
    have hhold := hm.le t
    rw [hrole] at hown hhold
    simp only [Role.owns, Role.holds, Bool.toNat_true] at hown hhold
    have hsum : s.refs x + s.dropped x = s.users x + n + s.taken x := hrefs
    have htaken : s.dropped x + m + (s.view x).listed.toNat = s.taken x := hheld
    exact ⟨_, by rw [serverStep, hpc]; exact if_pos (by omega)⟩
  | barrier x =>
    have hnone := hfree (by rw [hpc]; rfl)
    exact ⟨_, by rw [serverStep, hpc]; exact if_neg fun hbusy => hbusy.2 hnone⟩
  | moveCopy a x event =>
    have hne : a ≠ x := h.distinctAt hpc
    obtain ⟨hmem, -⟩ := hlisted x (by rw [hpc, AttachPc.role, rolesAt_right hne]; rfl)
    exact ⟨_, by rw [serverStep, hpc]; exact if_pos hmem⟩
  | moveBit a x event =>
    obtain ⟨-, hattached⟩ := hlisted a (by rw [hpc, AttachPc.role, rolesAt_left]; rfl)
    exact ⟨_, by rw [serverStep, hpc]; exact if_pos hattached⟩
  | _ => exact ⟨_, by rw [serverStep, hpc]; rfl⟩

/-- In every run: when the lock is free and no `detach_xprt` is between clearing the bit and taking
it, `nr_xprts` is the length of the list and the transports of the list are those with the bit.
Always, a transport on the list has one reference for it, which is given back once, by the thread
that has removed it; a full server refuses the transport and gives its own reference back; and no
`BUG_ON` stops a call. -/
theorem books_balance (maxXprts : ℕ) (as : List (AttachAct X T)) (s : ServerState X T)
    (hr : runActs serverStep (serverInit maxXprts) as = some s) :
    (s.Quiet → s.nrXprts = s.xprtList.length ∧ s.xprtList.Nodup ∧ ∀ x, x ∈ s.xprtList ↔ s.attached x = true) ∧
      (∀ x, s.dropped x ≤ s.taken x ∧ s.taken x ≤ 1 ∧ (x ∈ s.xprtList → s.taken x = 1 ∧ s.dropped x = 0) ∧
        (x ∉ s.xprtList → (∀ t, (s.pc t).role x ≠ .holding) → s.dropped x = s.taken x) ∧
        ∃ n, Headcount Role.owns (fun t => (s.pc t).role x) n ∧ s.refs x + s.dropped x = s.users x +
          n + s.taken x) ∧
      (∀ t x serv, s.pc t = .attachTest x serv → s.maxXprts ≤ s.nrXprts →
        ∃ s', serverStep s (.step t) = some s' ∧ s'.rc x = some eMFILE ∧ s'.server x = false ∧
          s'.serverRefs + 1 = s.serverRefs ∧ s'.xprtList = s.xprtList ∧ s'.nrXprts = s.nrXprts) ∧
      ∀ t, s.pc t ≠ .idle → (∀ x, s.pc t ≠ .inEvent x) → s.lock = none ∨ (s.pc t).holdsLock = true →
        ∃ s', serverStep s (.step t) = some s' := by
  have hinv : ServerInv s :=
    run_invariant (fun _ _ _ h _ hs => h.step hs) as _ s (serverInv_init maxXprts)
      (runMeets_trivial as _) hr
  exact ⟨fun hq => ⟨hinv.quiet_count hq, hinv.nodup, hinv.quiet_listed hq⟩, hinv.one_reference,
    fun _ _ _ ht hfull => hinv.refused ht hfull, fun _ hidle hevent hlock => hinv.goes_on hidle hevent hlock⟩

end Books

/-- A server for one transport: a second one is refused; the first is moved to a third in its
callback, and while the move has the lock a thread that destroys the first finds the bit clear and
waits. -/
def refuseAndMove : List (AttachAct ℕ Bool) :=
  [.attach false 0 false, .step false, .step false, .step false, .step false, .get 0,
    .attach true 1 false, .step true, .step true,
   .step true, .event true 0, .hold true, .moveInEvent true 2, .step true, .step true, .step true,
   .step true, .destroy false 0, .step false,
   .step true, .step true, .step true, .step true, .step false, .leave true, .step true]

theorem books_balance_refuseAndMove :
    ∃ s, runActs serverStep (serverInit 1) refuseAndMove = some s ∧ s.Quiet ∧
      s.nrXprts = s.xprtList.length ∧ s.xprtList = [2] ∧
      (2 ∈ s.xprtList ↔ s.attached 2 = true) ∧ s.taken 2 = 1 ∧ s.dropped 2 = 0 ∧
        s.dropped 0 = s.taken 0 ∧ s.rc 1 = some eMFILE := by
  obtain ⟨s, hs⟩ : ∃ s, runActs serverStep (serverInit 1) refuseAndMove = some s := ⟨_, rfl⟩
  have hends : (runActs serverStep (serverInit 1) refuseAndMove).map
      (fun s => (s.lock, s.pc false, s.pc true, s.xprtList, s.rc 1)) =
      some (none, .lastPut 0, .idle, [2], some eMFILE) := rfl
  rw [hs] at hends
  simp only [Option.map_some, Option.some.injEq, Prod.mk.injEq] at hends
  obtain ⟨hlock, hfalse, htrue, hlist, hrc⟩ := hends
  have hq : s.Quiet := by
    refine ⟨hlock, fun t x event hpc => ?_⟩
    cases t with
    | false =>
      rw [hfalse] at hpc
      cases hpc
    | true =>
      rw [htrue] at hpc
      cases hpc
  obtain ⟨hquiet, hone, -⟩ := books_balance 1 refuseAndMove s hs
  obtain ⟨hcount, -, hlisted⟩ := hquiet hq
  have hmem : 2 ∈ s.xprtList := by simp [hlist]
  have hnot : 0 ∉ s.xprtList := by simp [hlist]
  have hgone : s.dropped 0 = s.taken 0 := by
    refine (hone 0).2.2.2.1 hnot fun t => ?_
    cases t with
    | false => rw [hfalse]; decide
    | true => rw [htrue]; decide
  exact ⟨s, hs, hq, hcount, hlist, hlisted 2, ((hone 2).2.2.1 hmem).1, ((hone 2).2.2.1 hmem).2, hgone, hrc⟩

end Skp.Server
