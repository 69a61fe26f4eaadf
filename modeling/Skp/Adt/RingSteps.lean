import Skp.Adt.RingInvariant

/-! # The steps of the ring keep its invariant

One lemma for each kind of step: a step that only moves its own operation, the move of a head, the copy of
a slot and the write of a tail, each for both sides. What the other operations keep is said once, in the
frame lemmas. -/
namespace Skp.Adt
set_option autoImplicit false
open Skp.Foundations

variable {P C O : Type} {r : RingParams}

/-! ## Frames: what the other operations keep -/

theorem ProdHolds.frame {v w : RingView O} {req : EnqReq O} {c : RingClaim} {i : ℕ}
    (h : ProdHolds r v req c i)
    (hi : i ≤ c.n) (htail : w.prodTail ≤ c.start) (hhead : v.prodHead ≤ w.prodHead)
    (hlog : ∀ q, q < v.prodHead → w.log[q]? = v.log[q]?)
    (hslots : ∀ j, j < c.n → w.slots ((c.start + j) % r.size) = v.slots ((c.start + j) % r.size)) :
    ProdHolds r w req c i where
  old := h.old
  pos := h.pos
  fits := h.fits
  lower := htail
  upper := h.upper.trans hhead
  logged := by
    intro j hj
    have hu := h.upper
    rw [hlog _ (by omega)]
    exact h.logged j hj
  written := by
    intro j hj
    have hu := h.upper
    rw [hlog _ (by omega), hslots j (by omega)]
    exact h.written j hj

theorem ProdOk.frame {v w : RingView O} {pc : RingPc (EnqReq O)} (h : ProdOk r v pc)
    (hhead : v.prodHead ≤ w.prodHead) (hcons : v.consTail ≤ w.consTail)
    (hlog : ∀ q, q < v.prodHead → w.log[q]? = v.log[q]?)
    (htail : ∀ c, pc.held = some c → w.prodTail ≤ c.start ∧ (c.start = v.prodTail → w.prodTail = v.prodTail))
    (hslots : ∀ c, pc.held = some c → ∀ j, j < c.n →
      w.slots ((c.start + j) % r.size) = v.slots ((c.start + j) % r.size)) : ProdOk r w pc := by
  cases pc with
  | idle => trivial
  | loop req => exact h
  | gotHead req old start => exact ⟨h.1, h.2.1, h.2.2.trans hhead⟩
  | claiming req c =>
    obtain ⟨hreq, hold, hle, hpos, hfits, hroom⟩ := h
    refine ⟨hreq, hold, hle.trans hhead, hpos, hfits, fun heq => ?_⟩
    have := hroom (by omega)
    omega
  | copying req c i =>
    exact ⟨h.1.frame (Nat.le_of_lt h.2) (htail c rfl).1 hhead hlog (hslots c rfl), h.2⟩
  | spinning req c => exact ProdHolds.frame h (Nat.le_refl _) (htail c rfl).1 hhead hlog (hslots c rfl)
  | publishing req c =>
    refine ⟨h.1.frame (Nat.le_refl _) (htail c rfl).1 hhead hlog (hslots c rfl), ?_⟩
    rw [(htail c rfl).2 h.2]
    exact h.2

theorem TakenOnce.frame {v w : RingView O} {q : ℕ} (h : TakenOnce v q) (hlog : w.log[q]? = v.log[q]?)
    (hout : w.out q = v.out q) : TakenOnce w q := by
  obtain ⟨o, ho, hq⟩ := h
  exact ⟨o, hlog.trans ho, hout.trans hq⟩

theorem ConsHolds.frame {v w : RingView O} {c : RingClaim} {i : ℕ} {got : List O} (h : ConsHolds v c i got)
    (hi : i ≤ c.n) (htail : w.consTail ≤ c.start) (hhead : v.consHead ≤ w.consHead)
    (hlog : ∀ q, q < v.consHead → w.log[q]? = v.log[q]?)
    (hout : ∀ j, j < c.n → w.out (c.start + j) = v.out (c.start + j)) : ConsHolds w c i got where
  old := h.old
  pos := h.pos
  lower := htail
  upper := h.upper.trans hhead
  length := h.length
  copied := by
    intro j hj
    have hu := h.upper
    rw [hlog _ (by omega)]
    exact h.copied j hj
  taken := by
    intro j hj
    have hu := h.upper
    exact (h.taken j hj).frame (hlog _ (by omega)) (hout j (by omega))
  fresh := by
    intro j hij hj
    rw [hout j hj]
    exact h.fresh j hij hj

theorem ConsOk.frame {v w : RingView O} {got : List O} {pc : RingPc DeqReq} (h : ConsOk v got pc)
    (hhead : v.consHead ≤ w.consHead) (hprod : v.prodTail ≤ w.prodTail)
    (hlog : ∀ q, q < v.consHead → w.log[q]? = v.log[q]?)
    (htail : ∀ c, pc.held = some c → w.consTail ≤ c.start ∧ (c.start = v.consTail → w.consTail = v.consTail))
    (hout : ∀ c, pc.held = some c → ∀ j, j < c.n → w.out (c.start + j) = v.out (c.start + j)) :
    ConsOk w got pc := by
  cases pc with
  | idle => trivial
  | loop req => exact h
  | gotHead req old start => exact ⟨h.1, h.2.1, h.2.2.trans hhead⟩
  | claiming req c =>
    obtain ⟨hreq, hold, hle, hpos, hroom⟩ := h
    refine ⟨hreq, hold, hle.trans hhead, hpos, fun heq => ?_⟩
    have := hroom (by omega)
    omega
  | copying req c i =>
    exact ⟨h.1.frame (Nat.le_of_lt h.2) (htail c rfl).1 hhead hlog (hout c rfl), h.2⟩
  | spinning req c => exact ConsHolds.frame h (Nat.le_refl _) (htail c rfl).1 hhead hlog (hout c rfl)
  | publishing req c =>
    refine ⟨h.1.frame (Nat.le_refl _) (htail c rfl).1 hhead hlog (hout c rfl), ?_⟩
    rw [(htail c rfl).2 h.2]
    exact h.2

/-- A producer that holds a range holds it in the sense of `ProdHolds`, whatever it is doing with it. -/
theorem ProdOk.holds {v : RingView O} {pc : RingPc (EnqReq O)} {c : RingClaim} (h : ProdOk r v pc)
    (hc : pc.held = some c) : ∃ req, ProdHolds r v req c pc.copied ∧ pc.copied ≤ c.n := by
  cases pc with
  | copying req d i =>
    obtain rfl := Option.some.inj hc
    exact ⟨req, h.1, Nat.le_of_lt h.2⟩
  | spinning req d =>
    obtain rfl := Option.some.inj hc
    exact ⟨req, h, Nat.le_refl _⟩
  | publishing req d =>
    obtain rfl := Option.some.inj hc
    exact ⟨req, h.1, Nat.le_refl _⟩
  | _ => cases hc

theorem ConsOk.holds {v : RingView O} {got : List O} {pc : RingPc DeqReq} {c : RingClaim}
    (h : ConsOk v got pc)
    (hc : pc.held = some c) : ConsHolds v c pc.copied got ∧ pc.copied ≤ c.n := by
  cases pc with
  | copying req d i =>
    obtain rfl := Option.some.inj hc
    exact ⟨h.1, Nat.le_of_lt h.2⟩
  | spinning req d =>
    obtain rfl := Option.some.inj hc
    exact ⟨h, Nat.le_refl _⟩
  | publishing req d =>
    obtain rfl := Option.some.inj hc
    exact ⟨h.1, Nat.le_refl _⟩
  | _ => cases hc

theorem RingClaim.Disjoint.symm {a b : RingClaim} (h : a.Disjoint b) : b.Disjoint a := Or.symm h

/-- Every position between the consumers' tail and the producers' head has a slot of its own. -/
theorem ViewOk.slot_inj {v : RingView O} (h : ViewOk r v) {q q' : ℕ} (hq : v.consTail ≤ q)
    (hq' : q < v.prodHead)
    (hp : v.consTail ≤ q') (hp' : q' < v.prodHead) (heq : q % r.size = q' % r.size) : q = q' := by
  have h1 := h.room
  have h2 := r.capacity_lt
  exact eq_of_mod_eq_of_window hq (by omega) hp (by omega) heq

section Steps
variable [DecidableEq P]

/-! ## Steps of a producer -/

/-- A step of producer `p`: the shared invariant, its own, and the frames of the others. -/
theorem RingInv.prodMove {s s' : RingState P C O} (h : RingInv r s) (p : P) (pc : RingPc (EnqReq O))
    (hprod : s'.prod = Function.update s.prod p pc) (hcons : s'.cons = s.cons) (hgot : s'.got = s.got)
    (hhead : s'.prodHead = BitVec.ofNat 32 s'.prodHeadPos)
    (htail : s'.prodTail = BitVec.ofNat 32 s'.prodTailPos)
    (hclaims : ClaimsOk s'.prodClaims s'.prodHeadPos)
    (hcounts : s'.consHead = s.consHead ∧ s'.consTail = s.consTail ∧ s'.consHeadPos = s.consHeadPos ∧
      s'.consTailPos = s.consTailPos ∧ s'.consClaims = s.consClaims)
    (hv : ViewOk r s'.view) (hpc : ProdOk r s'.view pc) (hothers : ∀ q, q ≠ p → ProdOk r s'.view (s.prod q))
    (hother : ∀ k, ConsOk s'.view (s.got k) (s.cons k))
    (hdisj : ∀ q a b, q ≠ p → pc.held = some a → (s.prod q).held = some b → a.Disjoint b) : RingInv r s' where
  prodHead := hhead
  prodTail := htail
  consHead := by rw [hcounts.1, hcounts.2.2.1]; exact h.consHead
  consTail := by rw [hcounts.2.1, hcounts.2.2.2.1]; exact h.consTail
  prodClaims := hclaims
  consClaims := by rw [hcounts.2.2.2.2, hcounts.2.2.1]; exact h.consClaims
  shared := hv
  prod := by
    intro q
    rw [hprod]
    by_cases hq : q = p
    · subst hq
      rw [Function.update_self]
      exact hpc
    · rw [Function.update_of_ne hq]
      exact hothers q hq
  cons := by
    intro k
    rw [hcons, hgot]
    exact hother k
  prodDisjoint := by
    intro q q' a b hne ha hb
    rw [hprod] at ha hb
    by_cases hq : q = p
    · subst hq
      rw [Function.update_self] at ha
      rw [Function.update_of_ne (Ne.symm hne)] at hb
      exact hdisj q' a b (Ne.symm hne) ha hb
    · rw [Function.update_of_ne hq] at ha
      by_cases hq' : q' = p
      · subst hq'
        rw [Function.update_self] at hb
        exact (hdisj q b a hq hb ha).symm
      · rw [Function.update_of_ne hq'] at hb
        exact h.prodDisjoint q q' a b hne ha hb
  consDisjoint := by
    rw [hcons]
    exact h.consDisjoint

/-- A step that only moves the producer itself and gives it no new range. -/
theorem RingInv.setProd {s : RingState P C O} (h : RingInv r s) {p : P} {pc : RingPc (EnqReq O)}
    (hpc : ProdOk r s.view pc) (hheld : ∀ c, pc.held = some c → (s.prod p).held = some c) :
    RingInv r (setProd s p pc) :=
  h.prodMove p pc rfl rfl rfl h.prodHead h.prodTail h.prodClaims ⟨rfl, rfl, rfl, rfl, rfl⟩ h.shared
    hpc (fun q _ => h.prod q) h.cons
    fun q a b hq ha hb => h.prodDisjoint p q a b (Ne.symm hq) (hheld a ha) hb

theorem ringInv_enqClaim {s : RingState P C O} (h : RingInv r s) {p : P} {req : EnqReq O} {c : RingClaim}
    (hp : s.prod p = .claiming req c) (hwin : s.prodHeadPos < c.start + 2 ^ 32) (heq : s.prodHead = c.old) :
    RingInv r { setProd s p (.copying req c 0) with
      prodHead := c.old + BitVec.ofNat 32 c.n
      prodHeadPos := s.prodHeadPos + c.n
      prodClaims := s.prodClaims ++ [c]
      log := s.log ++ req.objs.take c.n } := by
  have hok := h.prod p
  rw [hp] at hok
  obtain ⟨hreq, hold, hle, hpos, hfits, hroom⟩ := hok
  have hstart : c.start = s.prodHeadPos := by
    apply ofNat_inj_of_window hle hwin
    rw [← hold, ← heq]
    exact h.prodHead
  have hfit : s.prodHeadPos + c.n ≤ s.consTailPos + r.capacity := hstart ▸ hroom hstart
  have hlen : s.log.length = s.prodHeadPos := h.shared.logLen
  have hlog : ∀ q, q < s.prodHeadPos → (s.log ++ req.objs.take c.n)[q]? = s.log[q]? := by
    intro q hq
    rw [List.getElem?_append_left (by omega)]
  have hch : s.consHeadPos ≤ s.prodHeadPos := h.shared.midOrder.trans h.shared.prodOrder
  refine h.prodMove p (.copying req c 0) rfl rfl rfl ?_ h.prodTail (claimsOk_append h.prodClaims hstart)
    ⟨rfl, rfl, rfl, rfl, rfl⟩ ?_ ?_ ?_ ?_ ?_
  · show c.old + BitVec.ofNat 32 c.n = BitVec.ofNat 32 (s.prodHeadPos + c.n)
    rw [hold, hstart, BitVec.ofNat_add]
  · exact
      { consOrder := h.shared.consOrder
        midOrder := h.shared.midOrder
        prodOrder := h.shared.prodOrder.trans (Nat.le_add_right _ _)
        room := hfit
        logLen := by
          show (s.log ++ req.objs.take c.n).length = s.prodHeadPos + c.n
          rw [List.length_append, hlen, List.length_take, Nat.min_eq_left hfits]
        live := by
          intro q hq hq'
          show (s.log ++ req.objs.take c.n)[q]? = _
          rw [hlog q (Nat.lt_of_lt_of_le hq' h.shared.prodOrder)]
          exact h.shared.live q hq hq'
        once := by
          intro q
          apply (h.shared.once q).imp_right
          intro ht
          obtain ⟨o, ho, hq⟩ := ht
          have hlt : q < s.log.length := (List.getElem?_eq_some_iff.mp ho).1
          exact ⟨o, (hlog q (by omega)).trans ho, hq⟩
        consumed := by
          intro q hq
          have h1 : q < s.consTailPos := hq
          have h2 : s.consTailPos ≤ s.consHeadPos := h.shared.consOrder
          exact (h.shared.consumed q hq).frame (hlog q (by omega)) rfl
        fresh := h.shared.fresh }
  · refine ⟨⟨hold, hpos, hfits, ?_, ?_, ?_, fun j hj => absurd hj (Nat.not_lt_zero j)⟩, hpos⟩
    · show s.prodTailPos ≤ c.start
      rw [hstart]
      exact h.shared.prodOrder
    · show c.start + c.n ≤ s.prodHeadPos + c.n
      omega
    · intro j hj
      show (s.log ++ req.objs.take c.n)[c.start + j]? = req.objs[j]?
      rw [List.getElem?_append_right (by omega), List.getElem?_take_of_lt (by omega)]
      congr 1
      omega
  · intro q hq
    refine (h.prod q).frame (Nat.le_add_right _ _) (Nat.le_refl _) hlog (fun d hd => ⟨?_, fun _ => rfl⟩)
      fun _ _ _ _ => rfl
    obtain ⟨_, hd', _⟩ := (h.prod q).holds hd
    exact hd'.lower
  · intro k
    refine (h.cons k).frame (Nat.le_refl _) (Nat.le_refl _) (fun q hq => hlog q (Nat.lt_of_lt_of_le hq hch))
      (fun d hd => ⟨((h.cons k).holds hd).1.lower, fun _ => rfl⟩) fun _ _ _ _ => rfl
  · intro q a b hq ha hb
    obtain rfl := Option.some.inj ha
    obtain ⟨_, hb', _⟩ := (h.prod q).holds hb
    have hu : b.start + b.n ≤ s.prodHeadPos := hb'.upper
    exact Or.inr (by omega)

theorem ringInv_enqCopy {s : RingState P C O} (h : RingInv r s) {p : P} {req : EnqReq O}
    {c : RingClaim} {i : ℕ}
    {o : O} (hp : s.prod p = .copying req c i) (ho : req.objs[i]? = some o) :
    RingInv r { setProd s p (afterCopy req c i) with
      slots := Function.update s.slots (ringSlot r c.old c.n i) o } := by
  have hok := h.prod p
  rw [hp] at hok
  obtain ⟨hc, hi⟩ := hok
  have hsh := h.shared
  have hlow : s.prodTailPos ≤ c.start := hc.lower
  have hup : c.start + c.n ≤ s.prodHeadPos := hc.upper
  have h1 : s.consTailPos ≤ s.consHeadPos := hsh.consOrder
  have h2 : s.consHeadPos ≤ s.prodTailPos := hsh.midOrder
  have h3 : s.prodHeadPos ≤ s.consTailPos + r.capacity := hsh.room
  have hcap := r.capacity_lt
  have hslot : ringSlot r c.old c.n i = (c.start + i) % r.size := by
    rw [hc.old]
    exact ringSlot_eq r hi (by omega)
  -- another live position has another slot
  have hkeep : ∀ q, s.consTailPos ≤ q → q < s.prodHeadPos → q ≠ c.start + i →
      Function.update s.slots (ringSlot r c.old c.n i) o (q % r.size) = s.slots (q % r.size) := by
    intro q hq hq' hne
    apply Function.update_of_ne
    rw [hslot]
    intro heq
    exact hne (hsh.slot_inj hq hq' (show s.consTailPos ≤ _ by omega) (show _ < s.prodHeadPos by omega) heq)
  have hself : s.log[c.start + i]? = some o := (hc.logged i hi).trans ho
  have hnext : ProdHolds r { s.view
      with slots := Function.update s.slots (ringSlot r c.old c.n i) o } req c (i + 1) :=
    { hc with
      written := by
        intro j hj
        show s.log[c.start + j]? =
        some (Function.update s.slots (ringSlot r c.old c.n i) o ((c.start + j) % r.size))
        by_cases hji : j = i
        · subst hji
          rw [← hslot, Function.update_self]
          exact hself
        · rw [hkeep _ (by omega) (by omega) (by omega)]
          exact hc.written j (by omega) }
  have hheld : (s.prod p).held = some c := by rw [hp]; rfl
  refine h.prodMove p (afterCopy req c i) rfl rfl rfl h.prodHead h.prodTail h.prodClaims ⟨rfl, rfl,
    rfl, rfl, rfl⟩ ?_ ?_ ?_ ?_ ?_
  · exact
      { hsh with
        live := by
          intro q hq hq'
          have h4 : s.consTailPos ≤ q := hq
          have h5 : q < s.prodTailPos := hq'
          show s.log[q]? = some (Function.update s.slots (ringSlot r c.old c.n i) o (q % r.size))
          rw [hkeep q h4 (by omega) (by omega)]
          exact hsh.live q hq hq' }
  · unfold afterCopy
    split
    · rename_i hlt
      exact ⟨hnext, hlt⟩
    · have hlast : i + 1 = c.n := by omega
      rw [hlast] at hnext
      exact hnext
  · intro q hq
    refine (h.prod q).frame (Nat.le_refl _) (Nat.le_refl _) (fun _ _ => rfl)
      (fun d hd => ?_) fun d hd j hj => ?_
    · obtain ⟨_, hd', _⟩ := (h.prod q).holds hd
      exact ⟨hd'.lower, fun _ => rfl⟩
    · obtain ⟨_, hd', _⟩ := (h.prod q).holds hd
      have h4 : s.prodTailPos ≤ d.start := hd'.lower
      have h5 : d.start + d.n ≤ s.prodHeadPos := hd'.upper
      apply hkeep _ (by omega) (by omega)
      have hdis := h.prodDisjoint q p d c hq hd hheld
      unfold RingClaim.Disjoint at hdis
      omega
  · intro k
    exact (h.cons k).frame (Nat.le_refl _) (Nat.le_refl _) (fun _ _ => rfl)
      (fun d hd => ⟨((h.cons k).holds hd).1.lower, fun _ => rfl⟩) fun _ _ _ _ => rfl
  · intro q a b hq ha hb
    have hac : a = c := by
      unfold afterCopy at ha
      split at ha
      · exact (Option.some.inj ha).symm
      · exact (Option.some.inj ha).symm
    subst hac
    exact h.prodDisjoint p q a b (Ne.symm hq) hheld hb

theorem ringInv_enqPublish {s : RingState P C O} (h : RingInv r s) {p : P} {req : EnqReq O} {c : RingClaim}
    (hp : s.prod p = .publishing req c) :
    RingInv r { setProd s p .idle with
      prodTail := c.old + BitVec.ofNat 32 c.n
      prodTailPos := c.start + c.n } := by
  have hok := h.prod p
  rw [hp] at hok
  obtain ⟨hc, hturn⟩ := hok
  have hsh := h.shared
  have hstart : c.start = s.prodTailPos := hturn
  have hheld : (s.prod p).held = some c := by rw [hp]; rfl
  have hmono : s.prodTailPos ≤ c.start + c.n := by omega
  refine h.prodMove p .idle rfl rfl rfl h.prodHead ?_ h.prodClaims ⟨rfl, rfl, rfl, rfl, rfl⟩ ?_
    trivial ?_ ?_ ?_
  · show c.old + BitVec.ofNat 32 c.n = BitVec.ofNat 32 (c.start + c.n)
    rw [hc.old, BitVec.ofNat_add]
  · exact
      { hsh with
        midOrder := hsh.midOrder.trans hmono
        prodOrder := hc.upper
        live := by
          intro q hq hq'
          have h5 : q < c.start + c.n := hq'
          by_cases hold : q < s.prodTailPos
          · exact hsh.live q hq hold
          · have hj := hc.written (q - c.start) (by omega)
            rw [Nat.add_sub_cancel' (by omega)] at hj
            exact hj }
  · intro q hq
    refine (h.prod q).frame (Nat.le_refl _) (Nat.le_refl _) (fun _ _ => rfl)
      (fun d hd => ?_) fun _ _ _ _ => rfl
    -- the range of another producer starts after the published one
    obtain ⟨_, hd', _⟩ := (h.prod q).holds hd
    have h4 : s.prodTailPos ≤ d.start := hd'.lower
    have hdpos := hd'.pos
    have hcpos := hc.pos
    have hdis := h.prodDisjoint q p d c hq hd hheld
    have hafter : c.start + c.n ≤ d.start := by
      unfold RingClaim.Disjoint at hdis
      omega
    refine ⟨hafter, fun heq => ?_⟩
    have h5 : d.start = s.prodTailPos := heq
    omega
  · intro k
    exact (h.cons k).frame (Nat.le_refl _) hmono (fun _ _ => rfl)
      (fun d hd => ⟨((h.cons k).holds hd).1.lower, fun _ => rfl⟩) fun _ _ _ _ => rfl
  · intro q a b _ ha
    cases ha

omit [DecidableEq P] in
theorem ProdOk.claim {s : RingState P C O} (h : RingInv r s) {req : EnqReq O} {old : BitVec 32} {start : ℕ}
    (hok : ProdOk r s.view (.gotHead req old start))
    (hn : ringCount req.objs.length (freeEntries r old s.consTail).toNat req.fixed ≠ 0) :
    ProdOk r s.view (.claiming req
      ⟨old, ringCount req.objs.length (freeEntries r old s.consTail).toNat req.fixed, start⟩) := by
  obtain ⟨hreq, hold, hle⟩ := hok
  refine ⟨hreq, hold, hle, Nat.pos_of_ne_zero hn, ringCount_le_want _ _ _, fun heq => ?_⟩
  have hstart : start = s.prodHeadPos := heq
  have h1 : s.consTailPos ≤ s.consHeadPos := h.shared.consOrder
  have h2 : s.consHeadPos ≤ s.prodTailPos := h.shared.midOrder
  have h3 : s.prodTailPos ≤ s.prodHeadPos := h.shared.prodOrder
  have h4 : s.prodHeadPos ≤ s.consTailPos + r.capacity := h.shared.room
  have hfree : (freeEntries r old s.consTail).toNat = r.capacity - (start - s.consTailPos) := by
    unfold freeEntries
    rw [hold, h.consTail, ofNat_sub_window (by omega), ofNat_sub_window (by omega)]
    exact toNat_ofNat_of_lt (Nat.lt_of_le_of_lt (Nat.sub_le _ _) r.capacity_lt_turn)
  have hcount := ringCount_le_avail req.objs.length (freeEntries r old s.consTail).toNat req.fixed
  show start + ringCount _ _ _ ≤ s.consTailPos + r.capacity
  omega

/-! ## Steps of a consumer -/

variable [DecidableEq C]

omit [DecidableEq P] in
/-- A step of consumer `k`. -/
theorem RingInv.consMove {s s' : RingState P C O} (h : RingInv r s) (k : C) (pc : RingPc DeqReq)
    (got : List O)
    (hcons : s'.cons = Function.update s.cons k pc) (hgot : s'.got = Function.update s.got k got)
    (hprod : s'.prod = s.prod)
    (hhead : s'.consHead = BitVec.ofNat 32 s'.consHeadPos)
    (htail : s'.consTail = BitVec.ofNat 32 s'.consTailPos)
    (hclaims : ClaimsOk s'.consClaims s'.consHeadPos)
    (hcounts : s'.prodHead = s.prodHead ∧ s'.prodTail = s.prodTail ∧ s'.prodHeadPos = s.prodHeadPos ∧
      s'.prodTailPos = s.prodTailPos ∧ s'.prodClaims = s.prodClaims)
    (hv : ViewOk r s'.view) (hpc : ConsOk s'.view got pc)
    (hothers : ∀ q, q ≠ k → ConsOk s'.view (s.got q) (s.cons q)) (hother : ∀ p, ProdOk r s'.view (s.prod p))
    (hdisj : ∀ q a b, q ≠ k → pc.held = some a → (s.cons q).held = some b → a.Disjoint b) : RingInv r s' where
  prodHead := by rw [hcounts.1, hcounts.2.2.1]; exact h.prodHead
  prodTail := by rw [hcounts.2.1, hcounts.2.2.2.1]; exact h.prodTail
  prodClaims := by rw [hcounts.2.2.2.2, hcounts.2.2.1]; exact h.prodClaims
  consClaims := hclaims
  consHead := hhead
  consTail := htail
  shared := hv
  prod := by
    intro p
    rw [hprod]
    exact hother p
  cons := by
    intro q
    rw [hcons, hgot]
    by_cases hq : q = k
    · subst hq
      rw [Function.update_self, Function.update_self]
      exact hpc
    · rw [Function.update_of_ne hq, Function.update_of_ne hq]
      exact hothers q hq
  prodDisjoint := by
    rw [hprod]
    exact h.prodDisjoint
  consDisjoint := by
    intro q q' a b hne ha hb
    rw [hcons] at ha hb
    by_cases hq : q = k
    · subst hq
      rw [Function.update_self] at ha
      rw [Function.update_of_ne (Ne.symm hne)] at hb
      exact hdisj q' a b (Ne.symm hne) ha hb
    · rw [Function.update_of_ne hq] at ha
      by_cases hq' : q' = k
      · subst hq'
        rw [Function.update_self] at hb
        exact (hdisj q b a hq hb ha).symm
      · rw [Function.update_of_ne hq'] at hb
        exact h.consDisjoint q q' a b hne ha hb

omit [DecidableEq P] in
theorem RingInv.setCons {s : RingState P C O} (h : RingInv r s) {k : C} {pc : RingPc DeqReq}
    (hpc : ConsOk s.view (s.got k) pc) (hheld : ∀ c, pc.held = some c → (s.cons k).held = some c) :
    RingInv r (setCons s k pc) :=
  h.consMove k pc (s.got k) rfl (Function.update_eq_self k s.got).symm rfl h.consHead h.consTail h.consClaims
    ⟨rfl, rfl, rfl, rfl, rfl⟩
    h.shared hpc (fun q _ => h.cons q) h.prod
    fun q a b hq ha hb => h.consDisjoint k q a b (Ne.symm hq) (hheld a ha) hb

omit [DecidableEq P] [DecidableEq C] in
/-- The producers' invariant does not read the consumers' head nor what has been taken. -/
theorem RingInv.prodFrame {s : RingState P C O} (h : RingInv r s) {w : RingView O}
    (hhead : w.prodHead = s.prodHeadPos)
    (htail : w.prodTail = s.prodTailPos) (hcons : s.consTailPos ≤ w.consTail) (hlog : w.log = s.log)
    (hslots : w.slots = s.slots) (p : P) : ProdOk r w (s.prod p) := by
  refine (h.prod p).frame (Nat.le_of_eq hhead.symm) hcons (fun _ _ => by rw [hlog]; rfl) (fun d hd => ?_)
    fun _ _ _ _ => by rw [hslots]; rfl
  obtain ⟨_, hd', _⟩ := (h.prod p).holds hd
  rw [htail]
  exact ⟨hd'.lower, fun _ => rfl⟩

omit [DecidableEq P] in
theorem ringInv_deqClaim {s : RingState P C O} (h : RingInv r s) {k : C} {req : DeqReq} {c : RingClaim}
    (hk : s.cons k = .claiming req c) (hwin : s.consHeadPos < c.start + 2 ^ 32) (heq : s.consHead = c.old) :
    RingInv r { setCons s k (.copying req c 0) with
      consHead := c.old + BitVec.ofNat 32 c.n
      consHeadPos := s.consHeadPos + c.n
      consClaims := s.consClaims ++ [c]
      got := Function.update s.got k [] } := by
  have hok := h.cons k
  rw [hk] at hok
  obtain ⟨_, hold, hle, hpos, hroom⟩ := hok
  have hsh := h.shared
  have hstart : c.start = s.consHeadPos := by
    apply ofNat_inj_of_window hle hwin
    rw [← hold, ← heq]
    exact h.consHead
  have hfit : s.consHeadPos + c.n ≤ s.prodTailPos := hstart ▸ hroom hstart
  have h1 : s.consTailPos ≤ s.consHeadPos := hsh.consOrder
  refine h.consMove k (.copying req c 0) [] rfl rfl rfl ?_ h.consTail (claimsOk_append h.consClaims hstart)
    ⟨rfl, rfl, rfl, rfl, rfl⟩ ?_ ?_ ?_ ?_ ?_
  · show c.old + BitVec.ofNat 32 c.n = BitVec.ofNat 32 (s.consHeadPos + c.n)
    rw [hold, hstart, BitVec.ofNat_add]
  · exact
      { hsh with
        consOrder := h1.trans (Nat.le_add_right _ _)
        midOrder := hfit
        fresh := fun q hq => hsh.fresh q ((Nat.le_add_right _ _).trans hq) }
  · refine ⟨⟨hold, hpos, ?_, ?_, rfl, fun j hj => absurd hj (Nat.not_lt_zero j),
      fun j hj => absurd hj (Nat.not_lt_zero j), fun j _ _ => ?_⟩, hpos⟩
    · show s.consTailPos ≤ c.start
      omega
    · show c.start + c.n ≤ s.consHeadPos + c.n
      omega
    · apply hsh.fresh
      show s.consHeadPos ≤ c.start + j
      omega
  · intro q hq
    exact (h.cons q).frame (Nat.le_add_right _ _) (Nat.le_refl _) (fun _ _ => rfl)
      (fun d hd => ⟨((h.cons q).holds hd).1.lower, fun _ => rfl⟩) fun _ _ _ _ => rfl
  · exact h.prodFrame rfl rfl (Nat.le_refl _) rfl rfl
  · intro q a b hq ha hb
    obtain rfl := Option.some.inj ha
    have hu : b.start + b.n ≤ s.consHeadPos := ((h.cons q).holds hb).1.upper
    exact Or.inr (by omega)

omit [DecidableEq P] in
theorem ringInv_deqCopy {s : RingState P C O} (h : RingInv r s) {k : C} {req : DeqReq} {c : RingClaim} {i : ℕ}
    (hk : s.cons k = .copying req c i) :
    RingInv r { setCons s k (afterCopy req c i) with
      got := Function.update s.got k (s.got k ++ [s.slots (ringSlot r c.old c.n i)])
      out :=
        Function.update s.out (c.start + i)
          (s.out (c.start + i) ++ [s.slots (ringSlot r c.old c.n i)]) } := by
  have hok := h.cons k
  rw [hk] at hok
  obtain ⟨hc, hi⟩ := hok
  have hsh := h.shared
  have hheld : (s.cons k).held = some c := by rw [hk]; rfl
  have hlow : s.consTailPos ≤ c.start := hc.lower
  have hup : c.start + c.n ≤ s.consHeadPos := hc.upper
  have h2 : s.consHeadPos ≤ s.prodTailPos := hsh.midOrder
  have h3 : s.prodTailPos ≤ s.prodHeadPos := hsh.prodOrder
  have h4 : s.prodHeadPos ≤ s.consTailPos + r.capacity := hsh.room
  have hcap := r.capacity_lt
  have hslot : ringSlot r c.old c.n i = (c.start + i) % r.size := by
    rw [hc.old]
    exact ringSlot_eq r hi (by omega)
  have hlive : s.log[c.start + i]? = some (s.slots (ringSlot r c.old c.n i)) := by
    rw [hslot]
    exact hsh.live _ (show s.consTailPos ≤ _ by omega) (show _ < s.prodTailPos by omega)
  have hempty : s.out (c.start + i) = [] := hc.fresh i (Nat.le_refl _) hi
  rw [hempty, List.nil_append]
  generalize s.slots (ringSlot r c.old c.n i) = o at hlive
  have hkeep : ∀ q, q ≠ c.start + i → Function.update s.out (c.start + i) [o] q = s.out q :=
    fun q hq => Function.update_of_ne hq _ _
  have htaken : TakenOnce { s.view with out := Function.update s.out (c.start + i) [o] } (c.start + i) :=
    ⟨o, hlive, Function.update_self _ _ _⟩
  have hnext : ConsHolds { s.view with out := Function.update s.out (c.start + i) [o] } c (i + 1)
      (s.got k ++ [o]) :=
    { hc with
      length := by rw [List.length_append, hc.length]; rfl
      copied := by
        intro j hj
        by_cases hji : j = i
        · subst hji
          rw [List.getElem?_append_right (Nat.le_of_eq hc.length), hc.length, Nat.sub_self]
          exact hlive.symm
        · rw [List.getElem?_append_left (by rw [hc.length]; omega)]
          exact hc.copied j (by omega)
      taken := by
        intro j hj
        by_cases hji : j = i
        · subst hji
          exact htaken
        · exact (hc.taken j (by omega)).frame rfl (hkeep _ (by omega))
      fresh := by
        intro j hij hj
        show Function.update s.out (c.start + i) [o] (c.start + j) = []
        rw [hkeep _ (by omega)]
        exact hc.fresh j (by omega) hj }
  refine h.consMove k (afterCopy req c i) (s.got k ++ [o]) rfl rfl rfl h.consHead h.consTail h.consClaims
    ⟨rfl, rfl, rfl, rfl, rfl⟩
    ?_ ?_ ?_ ?_ ?_
  · exact
      { hsh with
        once := by
          intro q
          by_cases hq : q = c.start + i
          · subst hq
            exact Or.inr htaken
          · show Function.update s.out (c.start + i) [o] q = [] ∨ _
            rw [hkeep q hq]
            exact (hsh.once q).imp_right fun ht => ht.frame rfl (hkeep q hq)
        consumed := by
          intro q hq
          have h5 : q < s.consTailPos := hq
          exact (hsh.consumed q hq).frame rfl (hkeep q (by omega))
        fresh := by
          intro q hq
          have h5 : s.consHeadPos ≤ q := hq
          show Function.update s.out (c.start + i) [o] q = []
          rw [hkeep q (by omega)]
          exact hsh.fresh q hq }
  · unfold afterCopy
    split
    · rename_i hlt
      exact ⟨hnext, hlt⟩
    · have hlast : i + 1 = c.n := by omega
      rw [hlast] at hnext
      exact hnext
  · intro q hq
    refine (h.cons q).frame (Nat.le_refl _) (Nat.le_refl _) (fun _ _ => rfl)
      (fun d hd => ⟨((h.cons q).holds hd).1.lower, fun _ => rfl⟩) fun d hd j hj => ?_
    apply hkeep
    have hdis := h.consDisjoint q k d c hq hd hheld
    unfold RingClaim.Disjoint at hdis
    omega
  · exact h.prodFrame rfl rfl (Nat.le_refl _) rfl rfl
  · intro q a b hq ha hb
    have hac : a = c := by
      unfold afterCopy at ha
      split at ha
      · exact (Option.some.inj ha).symm
      · exact (Option.some.inj ha).symm
    subst hac
    exact h.consDisjoint k q a b (Ne.symm hq) hheld hb

omit [DecidableEq P] in
theorem ringInv_deqPublish {s : RingState P C O} (h : RingInv r s) {k : C} {req : DeqReq} {c : RingClaim}
    (hk : s.cons k = .publishing req c) :
    RingInv r { setCons s k .idle with
      consTail := c.old + BitVec.ofNat 32 c.n
      consTailPos := c.start + c.n } := by
  have hok := h.cons k
  rw [hk] at hok
  obtain ⟨hc, hturn⟩ := hok
  have hsh := h.shared
  have hstart : c.start = s.consTailPos := hturn
  have hheld : (s.cons k).held = some c := by rw [hk]; rfl
  have hmono : s.consTailPos ≤ c.start + c.n := by omega
  refine h.consMove k .idle (s.got k) rfl (Function.update_eq_self k s.got).symm rfl h.consHead ?_
    h.consClaims ⟨rfl, rfl, rfl, rfl, rfl⟩ ?_ trivial ?_ ?_ ?_
  · show c.old + BitVec.ofNat 32 c.n = BitVec.ofNat 32 (c.start + c.n)
    rw [hc.old, BitVec.ofNat_add]
  · exact
      { hsh with
        consOrder := hc.upper
        room := by
          have h4 : s.prodHeadPos ≤ s.consTailPos + r.capacity := hsh.room
          show s.prodHeadPos ≤ c.start + c.n + r.capacity
          omega
        live := fun q hq hq' => hsh.live q (hmono.trans hq) hq'
        consumed := by
          intro q hq
          have h5 : q < c.start + c.n := hq
          by_cases hold : q < s.consTailPos
          · exact hsh.consumed q hold
          · have hj := hc.taken (q - c.start) (by omega)
            rw [Nat.add_sub_cancel' (by omega)] at hj
            exact hj }
  · intro q hq
    refine (h.cons q).frame (Nat.le_refl _) (Nat.le_refl _) (fun _ _ => rfl)
      (fun d hd => ?_) fun _ _ _ _ => rfl
    have hd' := ((h.cons q).holds hd).1
    have h4 : s.consTailPos ≤ d.start := hd'.lower
    have hdpos := hd'.pos
    have hcpos := hc.pos
    have hdis := h.consDisjoint q k d c hq hd hheld
    have hafter : c.start + c.n ≤ d.start := by
      unfold RingClaim.Disjoint at hdis
      omega
    refine ⟨hafter, fun heq => ?_⟩
    have h5 : d.start = s.consTailPos := heq
    omega
  · exact h.prodFrame rfl rfl hmono rfl rfl
  · intro q a b _ ha
    cases ha

omit [DecidableEq P] [DecidableEq C] in
theorem ConsOk.claim {s : RingState P C O} (h : RingInv r s) {got : List O} {req : DeqReq} {old : BitVec 32}
    {start : ℕ} (hok : ConsOk s.view got (.gotHead req old start))
    (hn : ringCount req.want (s.prodTail - old).toNat req.fixed ≠ 0) :
    ConsOk s.view got
      (.claiming req ⟨old, ringCount req.want (s.prodTail - old).toNat req.fixed, start⟩) := by
  obtain ⟨hreq, hold, hle⟩ := hok
  refine ⟨hreq, hold, hle, Nat.pos_of_ne_zero hn, fun heq => ?_⟩
  have hstart : start = s.consHeadPos := heq
  have h1 : s.consTailPos ≤ s.consHeadPos := h.shared.consOrder
  have h2 : s.consHeadPos ≤ s.prodTailPos := h.shared.midOrder
  have h3 : s.prodTailPos ≤ s.prodHeadPos := h.shared.prodOrder
  have h4 : s.prodHeadPos ≤ s.consTailPos + r.capacity := h.shared.room
  have hcap := r.capacity_lt_turn
  have hentries : (s.prodTail - old).toNat = s.prodTailPos - start := by
    rw [hold, h.prodTail, ofNat_sub_window (by omega)]
    exact toNat_ofNat_of_lt (by omega)
  have hcount := ringCount_le_avail req.want (s.prodTail - old).toNat req.fixed
  show start + ringCount _ _ _ ≤ s.prodTailPos
  omega

end Steps

end Skp.Adt
