import Skp.Adt.RingSteps

/-! # What the ring guarantees along every run

The only assumption is the one on wrapping: at a compare-and-swap the head has not gone round since the
operation read it. -/
namespace Skp.Adt
set_option autoImplicit false
open Skp.Foundations

variable {P C O : Type} [DecidableEq P] {r : RingParams}

/-! ## Runs -/

/-- The assumption on wrapping: when an operation comes to its compare-and-swap, the head has advanced by
fewer than `2 ^ 32` positions since the operation read it. -/
def WithinTurn (s : RingState P C O) : RingAct P C O → Prop
  | .enqNext p => ∀ req c, s.prod p = .claiming req c → s.prodHeadPos < c.start + 2 ^ 32
  | .deqNext k => ∀ req c, s.cons k = .claiming req c → s.consHeadPos < c.start + 2 ^ 32
  | _ => True

theorem ringInv_enqStep {s s' : RingState P C O} {p : P} (h : RingInv r s)
    (hwin : ∀ req c, s.prod p = .claiming req c → s.prodHeadPos < c.start + 2 ^ 32)
    (hs : enqStep r s p (s.prod p) = some s') : RingInv r s' := by
  have hok := h.prod p
  cases hp : s.prod p with
  | idle =>
    rw [hp] at hs
    cases hs
  | loop req =>
    rw [hp] at hs hok
    obtain rfl := Option.some.inj hs
    exact h.setProd ⟨hok, h.prodHead, Nat.le_refl _⟩ fun _ hc => absurd hc.symm (Option.some_ne_none _)
  | gotHead req old start =>
    rw [hp] at hs hok
    obtain rfl := Option.some.inj hs
    split
    · exact h.setProd trivial fun _ hc => absurd hc.symm (Option.some_ne_none _)
    · rename_i hn
      exact h.setProd (ProdOk.claim h hok hn) fun _ hc => absurd hc.symm (Option.some_ne_none _)
  | claiming req c =>
    have hw := hwin req c hp
    rw [hp] at hs hok
    simp only [enqStep] at hs
    split at hs
    · rename_i heq
      obtain rfl := Option.some.inj hs
      exact ringInv_enqClaim h hp hw heq
    · obtain rfl := Option.some.inj hs
      exact h.setProd hok.1 fun _ hc => absurd hc.symm (Option.some_ne_none _)
  | copying req c i =>
    rw [hp] at hs
    simp only [enqStep] at hs
    split at hs
    · rename_i ho
      obtain rfl := Option.some.inj hs
      exact ringInv_enqCopy h hp ho
    · cases hs
  | spinning req c =>
    rw [hp] at hs hok
    simp only [enqStep] at hs
    split at hs
    · rename_i hturn
      obtain rfl := Option.some.inj hs
      refine h.setProd ⟨hok, ?_⟩ fun _ hc => by rw [hp]; exact hc
      -- the tail is less than one turn behind, so the equal reading means the same position
      have h1 : s.prodTailPos ≤ c.start := ProdHolds.lower hok
      have h2 : c.start + c.n ≤ s.prodHeadPos := ProdHolds.upper hok
      have h3 : s.prodHeadPos ≤ s.consTailPos + r.capacity := h.shared.room
      have h4 : s.consTailPos ≤ s.consHeadPos := h.shared.consOrder
      have h5 : s.consHeadPos ≤ s.prodTailPos := h.shared.midOrder
      have h6 := r.capacity_lt_turn
      symm
      apply ofNat_inj_of_window h1 (show c.start < s.prodTailPos + 2 ^ 32 by omega)
      rw [← ProdHolds.old hok, ← hturn]
      exact h.prodTail.symm
    · cases hs
  | publishing req c =>
    rw [hp] at hs
    obtain rfl := Option.some.inj hs
    exact ringInv_enqPublish h hp

variable [DecidableEq C]

omit [DecidableEq P] in
theorem ringInv_deqStep {s s' : RingState P C O} {k : C} (h : RingInv r s)
    (hwin : ∀ req c, s.cons k = .claiming req c → s.consHeadPos < c.start + 2 ^ 32)
    (hs : deqStep r s k (s.cons k) = some s') : RingInv r s' := by
  have hok := h.cons k
  cases hk : s.cons k with
  | idle =>
    rw [hk] at hs
    cases hs
  | loop req =>
    rw [hk] at hs hok
    obtain rfl := Option.some.inj hs
    exact h.setCons ⟨hok, h.consHead, Nat.le_refl _⟩ fun _ hc => absurd hc.symm (Option.some_ne_none _)
  | gotHead req old start =>
    rw [hk] at hs hok
    obtain rfl := Option.some.inj hs
    split
    · exact h.setCons trivial fun _ hc => absurd hc.symm (Option.some_ne_none _)
    · rename_i hn
      exact h.setCons (ConsOk.claim h hok hn) fun _ hc => absurd hc.symm (Option.some_ne_none _)
  | claiming req c =>
    have hw := hwin req c hk
    rw [hk] at hs hok
    simp only [deqStep] at hs
    split at hs
    · rename_i heq
      obtain rfl := Option.some.inj hs
      exact ringInv_deqClaim h hk hw heq
    · obtain rfl := Option.some.inj hs
      exact h.setCons hok.1 fun _ hc => absurd hc.symm (Option.some_ne_none _)
  | copying req c i =>
    rw [hk] at hs
    obtain rfl := Option.some.inj hs
    exact ringInv_deqCopy h hk
  | spinning req c =>
    rw [hk] at hs hok
    simp only [deqStep] at hs
    split at hs
    · rename_i hturn
      obtain rfl := Option.some.inj hs
      refine h.setCons ⟨hok, ?_⟩ fun _ hc => by rw [hk]; exact hc
      have h1 : s.consTailPos ≤ c.start := ConsHolds.lower hok
      have h2 : c.start + c.n ≤ s.consHeadPos := ConsHolds.upper hok
      have h3 : s.prodHeadPos ≤ s.consTailPos + r.capacity := h.shared.room
      have h4 : s.consHeadPos ≤ s.prodTailPos := h.shared.midOrder
      have h5 : s.prodTailPos ≤ s.prodHeadPos := h.shared.prodOrder
      have h6 := r.capacity_lt_turn
      symm
      apply ofNat_inj_of_window h1 (show c.start < s.consTailPos + 2 ^ 32 by omega)
      rw [← ConsHolds.old hok, ← hturn]
      exact h.consTail.symm
    · cases hs
  | publishing req c =>
    rw [hk] at hs
    obtain rfl := Option.some.inj hs
    exact ringInv_deqPublish h hk

theorem ringInv_step {s s' : RingState P C O} {a : RingAct P C O} (h : RingInv r s) (hg : WithinTurn s a)
    (hs : ringStep r s a = some s') : RingInv r s' := by
  cases a with
  | enqStart p req =>
    simp only [ringStep] at hs
    split at hs
    · split at hs
      · rename_i hlen
        obtain rfl := Option.some.inj hs
        exact h.setProd hlen fun _ hc => absurd hc.symm (Option.some_ne_none _)
      · cases hs
    · cases hs
  | enqNext p => exact ringInv_enqStep h hg hs
  | deqStart k req =>
    simp only [ringStep] at hs
    split at hs
    · split at hs
      · rename_i hlen
        obtain rfl := Option.some.inj hs
        exact h.setCons hlen fun _ hc => absurd hc.symm (Option.some_ne_none _)
      · cases hs
    · cases hs
  | deqNext k => exact ringInv_deqStep h hg hs

/-- What the ring promises in one state. -/
structure RingSafe (r : RingParams) (s : RingState P C O) : Prop where
  /-- Over the whole run, the ranges producers (consumers) have claimed follow one another. -/
  claimed : s.prodClaims.Pairwise RingClaim.Disjoint ∧ s.consClaims.Pairwise RingClaim.Disjoint
  /-- Two producers at work write different slots. -/
  prodDisjoint : ∀ p q a b, p ≠ q → (s.prod p).held = some a → (s.prod q).held = some b → a.Disjoint b ∧
    ∀ i j, i < a.n → j < b.n → ringSlot r a.old a.n i ≠ ringSlot r b.old b.n j
  consDisjoint : ∀ p q a b, p ≠ q → (s.cons p).held = some a → (s.cons q).held = some b → a.Disjoint b ∧
    ∀ i j, i < a.n → j < b.n → ringSlot r a.old a.n i ≠ ringSlot r b.old b.n j
  /-- A producer about to write the slot of position `c.start + i` writes the object claimed for it, and
  the object of every earlier position with that slot has been copied out. -/
  noOverwrite : ∀ p req c i, s.prod p = .copying req c i → s.log[c.start + i]? = req.objs[i]? ∧
    ringSlot r c.old c.n i = (c.start + i) % r.size ∧
    ∀ q, q < c.start + i → q % r.size = (c.start + i) % r.size → q < s.consTailPos ∧ TakenOnce s.view q
  /-- A consumer about to copy the slot of position `c.start + i` finds the object claimed for it, and no
  producer holds the slot. -/
  fullyWritten : ∀ k req c i, s.cons k = .copying req c i → c.start + i < s.prodTailPos ∧
    s.log[c.start + i]? = some (s.slots (ringSlot r c.old c.n i)) ∧
    ∀ p d, (s.prod p).held = some d → ∀ j, j < d.n → ringSlot r d.old d.n j ≠ ringSlot r c.old c.n i
  /-- Nothing is copied out twice, or as something else than what was claimed for the position. -/
  atMostOnce : ∀ q, s.out q = [] ∨ TakenOnce s.view q
  /-- What a consumer has copied are the objects of its range, in the order of the claims. -/
  inOrder : ∀ k c, (s.cons k).held = some c → s.got k = (s.log.drop c.start).take (s.cons k).copied

theorem ClaimsOk.disjoint {cs : List RingClaim} {head : ℕ} (h : ClaimsOk cs head) :
    cs.Pairwise RingClaim.Disjoint := h.ordered.imp fun hab => Or.inl hab

section
omit [DecidableEq P] [DecidableEq C]

theorem RingInv.slot_of_live {s : RingState P C O} (h : RingInv r s) {c : RingClaim} {i : ℕ}
    (hold : c.old = BitVec.ofNat 32 c.start) (hlow : s.consTailPos ≤ c.start)
    (hup : c.start + c.n ≤ s.prodHeadPos)
    (hi : i < c.n) : ringSlot r c.old c.n i = (c.start + i) % r.size := by
  have hroom : s.prodHeadPos ≤ s.consTailPos + r.capacity := h.shared.room
  have hcap := r.capacity_lt
  rw [hold]
  exact ringSlot_eq r hi (by omega)

theorem RingInv.slots_ne {s : RingState P C O} (h : RingInv r s) {a b : RingClaim}
    (ha : a.old = BitVec.ofNat 32 a.start) (hal : s.consTailPos ≤ a.start)
    (hau : a.start + a.n ≤ s.prodHeadPos)
    (hb : b.old = BitVec.ofNat 32 b.start) (hbl : s.consTailPos ≤ b.start)
    (hbu : b.start + b.n ≤ s.prodHeadPos)
    (hdis : a.Disjoint b) (i j : ℕ) (hi : i < a.n) (hj : j < b.n) :
    ringSlot r a.old a.n i ≠ ringSlot r b.old b.n j := by
  rw [h.slot_of_live ha hal hau hi, h.slot_of_live hb hbl hbu hj]
  intro heq
  have hpos : a.start + i = b.start + j :=
    h.shared.slot_inj (show s.consTailPos ≤ _ by omega) (show _ < s.prodHeadPos by omega)
      (show s.consTailPos ≤ _ by omega) (show _ < s.prodHeadPos by omega) heq
  unfold RingClaim.Disjoint at hdis
  omega

theorem RingInv.prod_live {s : RingState P C O} (h : RingInv r s) {p : P} {c : RingClaim}
    (hc : (s.prod p).held = some c) :
    c.old = BitVec.ofNat 32 c.start ∧ s.prodTailPos ≤ c.start ∧ s.consTailPos ≤ c.start ∧
      c.start + c.n ≤ s.prodHeadPos := by
  obtain ⟨_, hd, _⟩ := (h.prod p).holds hc
  exact ⟨hd.old, hd.lower, (h.shared.consOrder.trans h.shared.midOrder).trans hd.lower, hd.upper⟩

theorem RingInv.cons_live {s : RingState P C O} (h : RingInv r s) {k : C} {c : RingClaim}
    (hc : (s.cons k).held = some c) :
    c.old = BitVec.ofNat 32 c.start ∧ s.consTailPos ≤ c.start ∧ c.start + c.n ≤ s.prodTailPos ∧
      c.start + c.n ≤ s.prodHeadPos := by
  have hd := ((h.cons k).holds hc).1
  have hup := hd.upper.trans h.shared.midOrder
  exact ⟨hd.old, hd.lower, hup, hup.trans h.shared.prodOrder⟩

theorem ringInv_safe {s : RingState P C O} (h : RingInv r s) : RingSafe r s where
  claimed := ⟨h.prodClaims.disjoint, h.consClaims.disjoint⟩
  prodDisjoint := by
    intro p q a b hne ha hb
    have hdis := h.prodDisjoint p q a b hne ha hb
    obtain ⟨ha1, _, ha2, ha3⟩ := h.prod_live ha
    obtain ⟨hb1, _, hb2, hb3⟩ := h.prod_live hb
    exact ⟨hdis, h.slots_ne ha1 ha2 ha3 hb1 hb2 hb3 hdis⟩
  consDisjoint := by
    intro p q a b hne ha hb
    have hdis := h.consDisjoint p q a b hne ha hb
    obtain ⟨ha1, ha2, _, ha3⟩ := h.cons_live ha
    obtain ⟨hb1, hb2, _, hb3⟩ := h.cons_live hb
    exact ⟨hdis, h.slots_ne ha1 ha2 ha3 hb1 hb2 hb3 hdis⟩
  noOverwrite := by
    intro p req c i hp
    have hok := h.prod p
    rw [hp] at hok
    obtain ⟨hc, hi⟩ := hok
    have hheld : (s.prod p).held = some c := by rw [hp]; rfl
    obtain ⟨hold, _, hlow, hup⟩ := h.prod_live hheld
    refine ⟨hc.logged i hi, h.slot_of_live hold hlow hup hi, fun q hq hmod => ?_⟩
    have hbelow : q < s.consTailPos := by
      by_contra hge
      have := h.shared.slot_inj (show s.consTailPos ≤ q by omega) (show q < s.prodHeadPos by omega)
        (show s.consTailPos ≤ c.start + i by omega) (show c.start + i < s.prodHeadPos by omega) hmod
      omega
    exact ⟨hbelow, h.shared.consumed q hbelow⟩
  fullyWritten := by
    intro k req c i hk
    have hok := h.cons k
    rw [hk] at hok
    obtain ⟨hc, hi⟩ := hok
    have hheld : (s.cons k).held = some c := by rw [hk]; rfl
    obtain ⟨hold, hlow, hpub, hup⟩ := h.cons_live hheld
    refine ⟨by omega, ?_, fun p d hd j hj => ?_⟩
    · rw [h.slot_of_live hold hlow hup hi]
      exact h.shared.live _ (show s.consTailPos ≤ _ by omega) (show _ < s.prodTailPos by omega)
    · obtain ⟨hd1, hdt, hd2, hd3⟩ := h.prod_live hd
      exact h.slots_ne hd1 hd2 hd3 hold hlow hup (Or.inr (by omega)) j i hj hi
  atMostOnce := h.shared.once
  inOrder := by
    intro k c hc
    obtain ⟨hd, hle⟩ := (h.cons k).holds hc
    apply List.ext_getElem?
    intro j
    by_cases hj : j < (s.cons k).copied
    · rw [List.getElem?_take_of_lt hj, List.getElem?_drop]
      exact hd.copied j hj
    · rw [List.getElem?_eq_none (by rw [hd.length]; omega), List.getElem?_eq_none]
      rw [List.length_take]
      omega

end

/-- In every state of every interleaving in which no head goes round during an operation, the claimed
ranges are disjoint, nothing is overwritten before it is consumed, only written slots are copied, and each
object is taken at most once and in the order of the claims. -/
theorem ring_safe (r : RingParams) (slots : ℕ → O) (as : List (RingAct P C O)) (s : RingState P C O)
    (hturn : RunMeets (ringStep r) WithinTurn (ringInit slots) as)
    (hrun : runActs (ringStep r) (ringInit slots) as = some s) : RingSafe r s :=
  ringInv_safe (run_invariant (fun _ _ _ h hg hs => ringInv_step h hg hs) as _ s
    (ringInv_init r slots) hturn hrun)

/-- A ring of four slots that holds at most three objects. -/
def ringOfFour : RingParams where
  size := 4
  mask := 3
  capacity := 3
  size_pow := ⟨2, by decide, rfl⟩
  mask_eq := rfl
  capacity_lt := by decide

/-- Producer `true` claims between the two reads of producer `false`, whose compare-and-swap then fails and is
tried again; a consumer comes in while producer `false` still waits for its turn. -/
def twoProducers : List (RingAct Bool Unit ℕ) :=
  [.enqStart false ⟨[10, 11], true⟩, .enqNext false, .enqStart true ⟨[20], false⟩, .enqNext true,
    .enqNext true,
    .enqNext true, .enqNext false, .enqNext false, .enqNext false, .enqNext false, .enqNext false,
    .enqNext false,
    .enqNext false, .enqNext true, .enqNext true, .enqNext true, .deqStart () ⟨3, false⟩,
    .deqNext (), .deqNext (),
    .deqNext ()]

theorem ring_safe_twoProducers :
    ∃ s, runActs (ringStep ringOfFour) (ringInit fun _ => 0) twoProducers = some s ∧ s.log = [20, 10, 11] ∧
      s.prod false = .spinning ⟨[10, 11], true⟩ ⟨1, 2, 1⟩ ∧ s.cons () = .copying ⟨3, false⟩ ⟨0, 1, 0⟩ 0 ∧
      RingSafe ringOfFour s := by
  have hmeets : RunMeets (ringStep ringOfFour) WithinTurn (ringInit fun _ => 0) twoProducers := by
    iterate 20
      refine RunMeets.cons rfl ?_ ?_
      rotate_left
    all_goals first | trivial | (intro _ _ h; cases h; decide) | (intro _ _ h; cases h)
  exact ⟨_, rfl, rfl, rfl, rfl, ring_safe ringOfFour _ twoProducers _ hmeets rfl⟩

end Skp.Adt
