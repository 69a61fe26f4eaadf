import Skp.Foundations.Tally
import Skp.Server.AttachModel

/-! # The life of one transport

What any number of threads do with one transport, seen from it. A thread has a reference of its own
and a role: it is about to put the transport on the list, it has put it there and not set the bit,
it has taken the bit and not removed the transport, or it has removed it and not given back the
list's reference. Each step of a thread is one of few changes of the role and of the transport's
data, and the counts of the roles say what they must add up to. -/
namespace Skp.Server
set_option autoImplicit false
open Skp.Foundations

/-- A thread and a transport: `attaching` in `attach_xprt` and `adopting` or `adopted` as `alias` of
`xprt_move`, before the link; `binding` past it; `clearing` past `test_and_clear_bit`; `holding`
past the removal. -/
inductive Role where
  | away
  | owner
  | attaching
  | adopting
  | adopted
  | binding
  | clearing
  | holding
deriving DecidableEq

def Role.owns : Role → Bool
  | .away => false
  | _ => true

def Role.pending : Role → Bool
  | .attaching => true
  | .adopting => true
  | .adopted => true
  | _ => false

/-- The transport is on the list and its bit is not set. -/
def Role.transit : Role → Bool
  | .binding => true
  | .clearing => true
  | _ => false

def Role.holds : Role → Bool
  | .holding => true
  | _ => false

/-- The data of one transport. -/
structure XprtView where
  listed : Bool
  known : Bool
  server : Bool
  attached : Bool
  refs : ℕ
  users : ℕ
  rc : Option ℤ
  taken : ℕ
  dropped : ℕ

/-- What a thread that is to put the transport on the list knows of it. -/
def Role.wants : Role → XprtView → Prop
  | .attaching, v => v.server = true
  | .adopting, v => v.server = false ∧ v.users = 0 ∧ v.refs = 1
  | .adopted, v => v.server = true
  | _, _ => True

section Life
variable {T : Type} {roles : T → Role} {v v' : XprtView} {t : T} {r : Role}

/-- The references are those of the users, of the calls and of the list; the list's one is given
back once; the transport is on the list when its bit is set or one thread is about to set it or to
remove it; one thread at most is about to put it there. -/
structure XprtOk (roles : T → Role) (v : XprtView) : Prop where
  owned : ∃ n, Headcount Role.owns roles n ∧ v.refs + v.dropped = v.users + n + v.taken
  held : ∃ n, Headcount Role.holds roles n ∧ v.dropped + n + v.listed.toNat = v.taken
  transit : ∃ n, Headcount Role.transit roles n ∧ n + v.attached.toNat = v.listed.toNat
  pending : ∃ n, Headcount Role.pending roles n ∧ n + v.taken ≤ 1
  wants : ∀ t, (roles t).wants v
  server : v.listed = true → v.server = true
  fresh : v.known = false → (∀ t, roles t = .away) ∧ v.server = false ∧ v.users = 0 ∧
    v.taken = 0 ∧ v.rc = none
  refused : v.rc = some eMFILE → v.server = false ∧ v.taken = 0 ∧ ∀ t, (roles t).pending = false

theorem XprtOk.refs_pos (h : XprtOk roles v) (ht : (roles t).owns = true) : 0 < v.refs := by
  obtain ⟨n, hn, hrefs⟩ := h.owned
  obtain ⟨m, -, hheld⟩ := h.held
  have hle := hn.le t
  rw [ht] at hle
  simp only [Bool.toNat_true] at hle
  omega

theorem wants_of_not_pending (hr : r.pending = false) : r.wants v := by
  cases r with
  | attaching => exact Bool.noConfusion hr
  | adopting => exact Bool.noConfusion hr
  | adopted => exact Bool.noConfusion hr
  | _ => trivial

theorem role_of_pending (hr : r.pending = true) : r.owns = true ∧ r.transit = false ∧ r.holds = false := by
  cases r with
  | attaching => exact ⟨rfl, rfl, rfl⟩
  | adopting => exact ⟨rfl, rfl, rfl⟩
  | adopted => exact ⟨rfl, rfl, rfl⟩
  | _ => exact Bool.noConfusion hr

theorem XprtOk.known_of_refs (h : XprtOk roles v) (hrefs : 0 < v.refs) : v.known = true := by
  by_contra hnew
  obtain ⟨haway, -, husers, htaken, -⟩ := h.fresh (Bool.eq_false_iff.mpr hnew)
  obtain ⟨n, hn, hsum⟩ := h.owned
  have hzero : Headcount Role.owns roles 0 := headcount_zero fun u => by rw [haway u]; rfl
  have hnone := Tally.eq hn hzero
  omega

theorem XprtOk.known_of_owns (h : XprtOk roles v) (ht : (roles t).owns = true) : v.known = true :=
  h.known_of_refs (h.refs_pos ht)

theorem XprtOk.taken_eq_zero (h : XprtOk roles v) (ht : (roles t).pending = true) : v.taken = 0 := by
  obtain ⟨j, hj, hle⟩ := h.pending
  have hpos := hj.le t
  rw [ht] at hpos
  simp only [Bool.toNat_true] at hpos
  omega

theorem XprtOk.pending_unique (h : XprtOk roles v) {u : T} (ht : (roles t).pending = true)
    (hu : (roles u).pending = true) :
    t = u := by
  obtain ⟨j, hj, hle⟩ := h.pending
  exact hj.unique (by omega) ht hu

theorem XprtOk.pending_of_taken (h : XprtOk roles v) (htaken : 0 < v.taken) (u : T) :
    (roles u).pending = false := by
  rw [Bool.eq_false_iff]
  intro hu
  have hzero := h.taken_eq_zero hu
  omega

theorem XprtOk.taken_of_listed (h : XprtOk roles v) (hlisted : v.listed = true) : 0 < v.taken := by
  obtain ⟨n, -, hsum⟩ := h.held
  rw [hlisted] at hsum
  simp only [Bool.toNat_true] at hsum
  omega

theorem XprtOk.refs_of_listed (h : XprtOk roles v) (hlisted : v.listed = true) : 0 < v.refs := by
  obtain ⟨n, -, hrefs⟩ := h.owned
  obtain ⟨m, -, hheld⟩ := h.held
  rw [hlisted, Bool.toNat_true] at hheld
  omega

theorem XprtOk.listed_of_transit (h : XprtOk roles v) (ht : (roles t).transit = true) :
    v.listed = true ∧ v.attached = false := by
  obtain ⟨k, hk, hsum⟩ := h.transit
  have hpos := hk.le t
  rw [ht, Bool.toNat_true] at hpos
  have hlisted := Bool.toNat_le v.listed
  constructor
  · cases hl : v.listed with
    | true => rfl
    | false =>
      rw [hl, Bool.toNat_false] at hsum
      omega
  · cases ha : v.attached with
    | false => rfl
    | true =>
      rw [ha, Bool.toNat_true] at hsum
      omega

theorem XprtOk.listed_of_attached (h : XprtOk roles v) (hattached : v.attached = true) : v.listed = true := by
  obtain ⟨k, -, hsum⟩ := h.transit
  rw [hattached, Bool.toNat_true] at hsum
  cases hl : v.listed with
  | true => rfl
  | false =>
    rw [hl, Bool.toNat_false] at hsum
    omega

/-- The transport that `xprt_move` fills in has no other owner. -/
theorem XprtOk.alone (h : XprtOk roles v) {u : T} (hu : roles u = .adopting)
    (ht : (roles t).owns = true) : t = u := by
  have hwants := h.wants u
  rw [hu] at hwants
  obtain ⟨-, husers, hrefs⟩ := hwants
  have htaken := h.taken_eq_zero (t := u) (by rw [hu]; rfl)
  obtain ⟨n, hn, hsum⟩ := h.owned
  obtain ⟨m, -, hheld⟩ := h.held
  exact hn.unique (by omega) ht (by rw [hu]; rfl)

/-- The other threads see the same `server`. -/
theorem XprtOk.others (h : XprtOk roles v) (ht : (roles t).owns = true) (hserver : v'.server = v.server) :
    ∀ u, u ≠ t → (roles u).wants v' := by
  intro u hu
  have hwants := h.wants u
  cases hr : roles u with
  | adopting => exact absurd (h.alone hr ht).symm hu
  | attaching =>
    rw [hr] at hwants
    exact hserver.trans hwants
  | adopted =>
    rw [hr] at hwants
    exact hserver.trans hwants
  | _ => trivial

variable [DecidableEq T]

theorem XprtOk.move (h : XprtOk roles v) (hknown : v'.known = true)
    (hrefs : v'.refs + v'.dropped + (roles t).owns.toNat + v.users + v.taken =
      v'.users + v'.taken + r.owns.toNat + v.refs + v.dropped)
    (hheld : v'.dropped + r.holds.toNat + v'.listed.toNat + v.taken =
      v'.taken + (roles t).holds.toNat + v.listed.toNat + v.dropped)
    (htransit : r.transit.toNat + v'.attached.toNat + v.listed.toNat =
      (roles t).transit.toNat + v.attached.toNat + v'.listed.toNat)
    (hpending : r.pending.toNat + v'.taken ≤ (roles t).pending.toNat + v.taken)
    (hwants : r.wants v') (hothers : ∀ u, u ≠ t → (roles u).wants v')
    (hserver : v'.listed = true → v'.server = true)
    (hrefused : v'.rc = some eMFILE → v'.server = false ∧ v'.taken = 0 ∧
      ∀ u, (Function.update roles t r u).pending = false) :
    XprtOk (Function.update roles t r) v' := by
  obtain ⟨n, hn, hnrefs⟩ := h.owned
  obtain ⟨m, hm, hmheld⟩ := h.held
  obtain ⟨k, hk, hktransit⟩ := h.transit
  obtain ⟨j, hj, hjpending⟩ := h.pending
  have hnle := hn.le t
  have hmle := hm.le t
  have hkle := hk.le t
  have hjle := hj.le t
  refine ⟨⟨_, hn.update t r, by omega⟩, ⟨_, hm.update t r, by omega⟩, ⟨_, hk.update t r, by omega⟩,
    ⟨_, hj.update t r, by omega⟩, fun u => ?_, hserver, fun hk' => ?_, hrefused⟩
  · by_cases hu : u = t
    · subst hu
      rw [Function.update_self]
      exact hwants
    · rw [Function.update_of_ne hu]
      exact hothers u hu
  · rw [hknown] at hk'
    exact Bool.noConfusion hk'

/-! ## The steps of a thread -/

/-- A new transport, for `attach_xprt` or as `alias` of `xprt_move`. -/
theorem XprtOk.construct (h : XprtOk roles v) (hnew : v.known = false) {b : Bool}
    (hwants : r.wants { v with server := b, refs := 1 })
    (hr : r.pending = true) :
    XprtOk (Function.update roles t r) { v with known := true, server := b, refs := 1 } := by
  obtain ⟨haway, hserver, husers, htaken, hrc⟩ := h.fresh hnew
  obtain ⟨m, hm, hheld⟩ := h.held
  obtain ⟨k, hk, htransit⟩ := h.transit
  have hlisted : v.listed = false := by
    cases hl : v.listed with
    | false => rfl
    | true => exact absurd (h.taken_of_listed hl) (by omega)
  have hzero : ∀ f : Role → Bool, f .away = false → Headcount f roles 0 := fun f hf =>
    headcount_zero fun u => by rw [haway u, hf]
  obtain ⟨howns, htransits, hholds⟩ := role_of_pending hr
  have hmzero := Tally.eq hm (hzero Role.holds rfl)
  have hkzero := Tally.eq hk (hzero Role.transit rfl)
  refine ⟨⟨_, (hzero Role.owns rfl).update t r, ?_⟩, ⟨_, (hzero Role.holds rfl).update t r, ?_⟩,
    ⟨_, (hzero Role.transit rfl).update t r, ?_⟩, ⟨_, (hzero Role.pending rfl).update t r, ?_⟩,
    fun u => ?_, fun hl => ?_,
    nofun, fun hrefused => ?_⟩
  · rw [haway t, howns]
    simp only [Role.owns, Bool.toNat_true, Bool.toNat_false]
    omega
  · rw [haway t, hholds]
    simp only [Role.holds, Bool.toNat_false]
    omega
  · rw [haway t, htransits]
    simp only [Role.transit, Bool.toNat_false]
    omega
  · rw [haway t, hr]
    simp only [Role.pending, Bool.toNat_true, Bool.toNat_false]
    omega
  · by_cases hu : u = t
    · subst hu
      rw [Function.update_self]
      cases r <;> exact hwants
    · rw [Function.update_of_ne hu, haway u]
      trivial
  · rw [hlisted] at hl
    exact Bool.noConfusion hl
  · rw [hrc] at hrefused
    exact nomatch hrefused

theorem XprtOk.reref (h : XprtOk roles v) {refs users : ℕ} (hknown : v.known = true)
    (hholds : r.holds = (roles t).holds)
    (htransit : r.transit = (roles t).transit) (hpending : r.pending.toNat ≤ (roles t).pending.toNat)
    (hrefs : refs + (roles t).owns.toNat + v.users = users + r.owns.toNat + v.refs)
    (hwants : r.wants { v with refs := refs, users := users })
    (hothers : ∀ u, u ≠ t → (roles u).wants { v with refs := refs, users := users }) :
    XprtOk (Function.update roles t r) { v with refs := refs, users := users } := by
  refine h.move hknown ?_ ?_ ?_ ?_ hwants hothers h.server fun hrc => ?_
  · change refs + v.dropped + _ + v.users + v.taken = users + v.taken + _ + v.refs + v.dropped
    omega
  · change v.dropped + r.holds.toNat + v.listed.toNat + v.taken = v.taken + (roles t).holds.toNat +
      v.listed.toNat + v.dropped
    rw [hholds]
    omega
  · change r.transit.toNat + v.attached.toNat + v.listed.toNat = (roles t).transit.toNat +
      v.attached.toNat + v.listed.toNat
    rw [htransit]
  · exact Nat.add_le_add_right hpending v.taken
  · obtain ⟨hserver, htaken, hnone⟩ := h.refused hrc
    refine ⟨hserver, htaken, fun u => ?_⟩
    by_cases hu : u = t
    · subst hu
      rw [Function.update_self]
      rw [hnone u, Bool.toNat_false, Nat.le_zero] at hpending
      cases hr : r.pending with
      | false => rfl
      | true =>
        rw [hr] at hpending
        exact absurd hpending (by decide)
    · rw [Function.update_of_ne hu]
      exact hnone u

theorem XprtOk.event (h : XprtOk roles v) (ht : roles t = .away) (hserver : v.server = true)
    (hrefs : 0 < v.refs) :
    XprtOk (Function.update roles t .owner) { v with refs := v.refs + 1 } := by
  refine h.reref (h.known_of_refs hrefs) (by rw [ht]; rfl) (by rw [ht]; rfl) (Nat.zero_le _) ?_
    trivial fun u hu => ?_
  · rw [ht]
    simp only [Role.owns, Bool.toNat_true, Bool.toNat_false]
    omega
  · have hwants := h.wants u
    cases hr : roles u with
    | adopting =>
      rw [hr] at hwants
      exact absurd (hserver.symm.trans hwants.1) (by decide)
    | attaching => exact hserver
    | adopted => exact hserver
    | _ => trivial

theorem XprtOk.borrow (h : XprtOk roles v) (ht : roles t = .away) (husers : 0 < v.users) :
    XprtOk (Function.update roles t .owner) { v with users := v.users - 1 } := by
  have hrefs : 0 < v.refs := by
    obtain ⟨n, -, hsum⟩ := h.owned
    obtain ⟨m, -, hheld⟩ := h.held
    omega
  refine h.reref (h.known_of_refs hrefs) (by rw [ht]; rfl) (by rw [ht]; rfl) (Nat.zero_le _) ?_
    trivial fun u hu => ?_
  · rw [ht]
    simp only [Role.owns, Bool.toNat_true, Bool.toNat_false]
    omega
  · have hwants := h.wants u
    cases hr : roles u with
    | adopting =>
      rw [hr] at hwants
      exact absurd hwants.2.1 (by omega)
    | attaching =>
      rw [hr] at hwants
      exact hwants
    | adopted =>
      rw [hr] at hwants
      exact hwants
    | _ => trivial

/-- The last `xprt_put` of a call. -/
theorem XprtOk.release (h : XprtOk roles v) (ht : roles t = .owner) :
    XprtOk (Function.update roles t .away) { v with refs := v.refs - 1 } := by
  have howns : (roles t).owns = true := by rw [ht]; rfl
  have hpos := h.refs_pos howns
  refine h.reref (h.known_of_owns howns) (by rw [ht]; rfl) (by rw [ht]; rfl) (Nat.zero_le _) ?_ trivial
    (h.others howns rfl)
  rw [ht]
  simp only [Role.owns, Bool.toNat_true, Bool.toNat_false]
  omega

theorem XprtOk.giveBack (h : XprtOk roles v) (ht : roles t = .owner ∨ roles t = .adopting) :
    XprtOk (Function.update roles t .away) { v with users := v.users + 1 } := by
  have howns : (roles t).owns = true := by
    rcases ht with ht | ht
    · rw [ht]; rfl
    · rw [ht]; rfl
  refine h.reref (h.known_of_owns howns) ?_ ?_ (Nat.zero_le _) ?_ trivial (h.others howns rfl)
  · rcases ht with ht | ht
    · rw [ht]; rfl
    · rw [ht]; rfl
  · rcases ht with ht | ht
    · rw [ht]; rfl
    · rw [ht]; rfl
  · rw [howns]
    simp only [Role.owns, Bool.toNat_true, Bool.toNat_false]
    omega

/-- `xprt_move` finds the bit of `src` clear. -/
theorem XprtOk.giveUp (h : XprtOk roles v) (ht : roles t = .adopting) :
    XprtOk (Function.update roles t .owner) v := by
  have howns : (roles t).owns = true := by rw [ht]; rfl
  refine h.reref (h.known_of_owns howns) (by rw [ht]; rfl) (by rw [ht]; rfl) (Nat.zero_le _) ?_
    trivial (h.others howns rfl)
  rw [ht]
  simp only [Role.owns]
  omega

/-- `xprt_move` fills in `alias`. -/
theorem XprtOk.adopt (h : XprtOk roles v) (ht : roles t = .adopting) :
    XprtOk (Function.update roles t .adopted) { v with server := true, refs := 1 } := by
  have howns : (roles t).owns = true := by rw [ht]; rfl
  have hwants := h.wants t
  rw [ht] at hwants
  obtain ⟨-, husers, hrefs⟩ := hwants
  have htaken := h.taken_eq_zero (t := t) (by rw [ht]; rfl)
  refine h.move (h.known_of_owns howns) ?_ ?_ ?_ ?_ rfl (fun u hu => ?_) (fun _ => rfl) fun hrc => ?_
  · rw [ht, hrefs]
    simp only [Role.owns]
    omega
  · rw [ht]
    simp only [Role.holds, Bool.toNat_false]
    omega
  · rw [ht]
    rfl
  · rw [ht]
    exact le_refl _
  · apply wants_of_not_pending
    rw [Bool.eq_false_iff]
    intro hp
    exact hu (h.pending_unique hp (by rw [ht]; rfl))
  · obtain ⟨-, -, hnone⟩ := h.refused hrc
    have hcontra := hnone t
    rw [ht] at hcontra
    exact Bool.noConfusion hcontra

theorem XprtOk.refuse (h : XprtOk roles v) (ht : roles t = .attaching) :
    XprtOk (Function.update roles t .owner) { v with server := false, rc := some eMFILE } := by
  have howns : (roles t).owns = true := by rw [ht]; rfl
  have htaken := h.taken_eq_zero (t := t) (by rw [ht]; rfl)
  have hothers : ∀ u, u ≠ t → (roles u).pending = false := by
    intro u hu
    rw [Bool.eq_false_iff]
    intro hp
    exact hu (h.pending_unique hp (by rw [ht]; rfl))
  refine h.move (h.known_of_owns howns) ?_ ?_ ?_ (Nat.add_le_add_right (Nat.zero_le _) _) trivial
    (fun u hu => wants_of_not_pending (hothers u hu)) (fun hl => ?_) fun _ => ⟨rfl, htaken, fun u => ?_⟩
  · rw [ht]
    simp only [Role.owns]
    omega
  · rw [ht]
    simp only [Role.holds]
    omega
  · rw [ht]
    rfl
  · have hpos := h.taken_of_listed hl
    omega
  · by_cases hu : u = t
    · subst hu
      rw [Function.update_self]
      rfl
    · rw [Function.update_of_ne hu]
      exact hothers u hu

theorem XprtOk.link (h : XprtOk roles v) (ht : roles t = .attaching ∨ roles t = .adopted) :
    XprtOk (Function.update roles t .binding) { v with
      refs := v.refs + 1
      taken := v.taken + 1
      listed := true } := by
  have hpending : (roles t).pending = true := by
    rcases ht with ht | ht
    · rw [ht]; rfl
    · rw [ht]; rfl
  obtain ⟨howns, htransit, hholds⟩ := role_of_pending hpending
  have htaken := h.taken_eq_zero hpending
  have hlisted : v.listed = false := by
    cases hl : v.listed with
    | false => rfl
    | true => exact absurd (h.taken_of_listed hl) (by omega)
  have hwants := h.wants t
  have hserver : v.server = true := by
    rcases ht with ht | ht
    · rw [ht] at hwants
      exact hwants
    · rw [ht] at hwants
      exact hwants
  refine h.move (h.known_of_owns howns) ?_ ?_ ?_ ?_ trivial (h.others howns rfl)
    (fun _ => hserver) fun hrc => ?_
  · rw [howns]
    simp only [Role.owns, Bool.toNat_true]
    omega
  · rw [hholds, hlisted]
    simp only [Role.holds, Bool.toNat_true, Bool.toNat_false]
    omega
  · rw [htransit, hlisted]
    simp only [Role.transit, Bool.toNat_true, Bool.toNat_false]
    omega
  · rw [hpending]
    simp only [Role.pending, Bool.toNat_true, Bool.toNat_false]
    omega
  · obtain ⟨-, -, hnone⟩ := h.refused hrc
    rw [hnone t] at hpending
    exact Bool.noConfusion hpending

theorem XprtOk.bind (h : XprtOk roles v) (ht : roles t = .binding) (rc : Option ℤ)
    (hrc : rc = some eMFILE → v.rc = some eMFILE) :
    XprtOk (Function.update roles t .owner) { v with attached := true, rc := rc } := by
  have howns : (roles t).owns = true := by rw [ht]; rfl
  obtain ⟨hlisted, hattached⟩ := h.listed_of_transit (t := t) (by rw [ht]; rfl)
  refine h.move (h.known_of_owns howns) ?_ ?_ ?_ (Nat.add_le_add_right (Nat.zero_le _) _) trivial
    (h.others howns rfl) h.server
    fun hrefused => ?_
  · rw [ht]
    simp only [Role.owns]
    omega
  · rw [ht]
    simp only [Role.holds]
    omega
  · rw [ht, hattached]
    simp only [Role.transit, Bool.toNat_true, Bool.toNat_false]
  · have hpos := h.taken_of_listed hlisted
    obtain ⟨-, hzero, -⟩ := h.refused (hrc hrefused)
    omega

/-- `test_and_clear_bit` finds the bit set. -/
theorem XprtOk.clear (h : XprtOk roles v) (ht : roles t = .owner) (hattached : v.attached = true) :
    XprtOk (Function.update roles t .clearing) { v with attached := false } := by
  have howns : (roles t).owns = true := by rw [ht]; rfl
  refine h.move (h.known_of_owns howns) ?_ ?_ ?_ (Nat.add_le_add_right (Nat.zero_le _) _) trivial
    (h.others howns rfl) h.server
    fun hrefused => ?_
  · rw [ht]
    simp only [Role.owns]
    omega
  · rw [ht]
    simp only [Role.holds]
    omega
  · rw [ht, hattached]
    simp only [Role.transit, Bool.toNat_true, Bool.toNat_false]
  · have hpos := h.taken_of_listed (h.listed_of_attached hattached)
    obtain ⟨-, hzero, -⟩ := h.refused hrefused
    omega

/-- The transport leaves the list, and in `xprt_move` the server too. -/
theorem XprtOk.remove (h : XprtOk roles v) (ht : roles t = .clearing) (b : Bool) :
    XprtOk (Function.update roles t .holding) { v with listed := false, server := b } := by
  have howns : (roles t).owns = true := by rw [ht]; rfl
  obtain ⟨hlisted, hattached⟩ := h.listed_of_transit (t := t) (by rw [ht]; rfl)
  have hpos := h.taken_of_listed hlisted
  refine h.move (h.known_of_owns howns) ?_ ?_ ?_ (Nat.add_le_add_right (Nat.zero_le _) _) trivial
    (fun u _ => wants_of_not_pending (h.pending_of_taken hpos u)) nofun fun hrefused => ?_
  · rw [ht]
    simp only [Role.owns]
    omega
  · rw [ht, hlisted]
    simp only [Role.holds, Bool.toNat_true, Bool.toNat_false]
    omega
  · rw [ht, hlisted]
    simp only [Role.transit, Bool.toNat_true, Bool.toNat_false]
    omega
  · obtain ⟨-, hzero, -⟩ := h.refused hrefused
    omega

theorem XprtOk.dropRef (h : XprtOk roles v) (ht : roles t = .holding) :
    XprtOk (Function.update roles t .owner) { v with refs := v.refs - 1, dropped := v.dropped + 1 } := by
  have howns : (roles t).owns = true := by rw [ht]; rfl
  have hpos := h.refs_pos howns
  refine h.move (h.known_of_owns howns) ?_ ?_ ?_ (Nat.add_le_add_right (Nat.zero_le _) _) trivial
    (h.others howns rfl) h.server
    fun hrefused => ?_
  · rw [ht]
    simp only [Role.owns]
    omega
  · rw [ht]
    simp only [Role.holds, Bool.toNat_true, Bool.toNat_false]
    omega
  · rw [ht]
    rfl
  · obtain ⟨m, hm, hsum⟩ := h.held
    have hle := hm.le t
    rw [ht] at hle
    simp only [Role.holds, Bool.toNat_true] at hle
    obtain ⟨-, hzero, -⟩ := h.refused hrefused
    omega

/-! ## The users, and the end -/

omit [DecidableEq T] in
theorem XprtOk.reuse (h : XprtOk roles v) {refs users : ℕ} (husers : 0 < v.users)
    (hsum : refs + v.users = users + v.refs) :
    XprtOk roles { v with refs := refs, users := users } := by
  obtain ⟨n, hn, hrefs⟩ := h.owned
  refine ⟨⟨n, hn, ?_⟩, h.held, h.transit, h.pending, fun u => ?_, h.server, fun hnew => ?_, h.refused⟩
  · change refs + v.dropped = users + n + v.taken
    omega
  · have hwants := h.wants u
    cases hr : roles u with
    | adopting =>
      rw [hr] at hwants
      exact absurd hwants.2.1 (by omega)
    | attaching =>
      rw [hr] at hwants
      exact hwants
    | adopted =>
      rw [hr] at hwants
      exact hwants
    | _ => trivial
  · obtain ⟨-, -, hzero, -⟩ := h.fresh hnew
    omega

theorem XprtOk.hold (h : XprtOk roles v) (ht : roles t = .owner) :
    XprtOk roles { v with refs := v.refs + 1, users := v.users + 1 } := by
  have howns : (roles t).owns = true := by rw [ht]; rfl
  have hx : XprtOk (Function.update roles t (roles t)) { v with refs := v.refs + 1, users := v.users + 1 } :=
    h.reref (h.known_of_owns howns) rfl rfl le_rfl (by omega) (by rw [ht]; trivial) (h.others howns rfl)
  rwa [Function.update_eq_self] at hx

omit [DecidableEq T] in
/-- `xprt_dict_free` -/
theorem XprtOk.free (h : XprtOk roles v) (hknown : v.known = true) (hrefs : v.refs = 0) :
    XprtOk roles { v with server := false } := by
  have hunowned : ∀ u, (roles u).owns = false := by
    intro u
    rw [Bool.eq_false_iff]
    intro hu
    have hpos := h.refs_pos hu
    omega
  have hunlisted : v.listed = false := by
    obtain ⟨n, -, hsum⟩ := h.owned
    obtain ⟨m, -, hheld⟩ := h.held
    cases hl : v.listed with
    | false => rfl
    | true =>
      rw [hl, Bool.toNat_true] at hheld
      omega
  refine ⟨h.owned, h.held, h.transit, h.pending, fun u => wants_of_not_pending ?_, fun hl => ?_,
    fun hnew => ?_, fun hrc => ?_⟩
  · rw [Bool.eq_false_iff]
    intro hp
    exact Bool.noConfusion ((hunowned u).symm.trans (role_of_pending hp).1)
  · rw [show v.listed = true from hl] at hunlisted
    exact Bool.noConfusion hunlisted
  · rw [show v.known = false from hnew] at hknown
    exact Bool.noConfusion hknown
  · obtain ⟨-, hrest⟩ := h.refused hrc
    exact ⟨rfl, hrest⟩

end Life

end Skp.Server
