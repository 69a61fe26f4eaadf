import Skp.Adt.RingModel
import Skp.Foundations.Wrapping

/-! # The invariant of the ring

In unbounded positions the four counters stay ordered within one capacity of each other, the ranges that
producers (consumers) hold are disjoint and lie between the side's tail and head, and every position
between the consumers' tail and the producers' tail is in its slot. Readings wrap, but all the differences
an operation acts on are below the capacity. -/
namespace Skp.Adt
set_option autoImplicit false
open Skp.Foundations

variable {P C O : Type}

/-! ## Slots -/

theorem RingParams.size_le (r : RingParams) : r.size ≤ 2 ^ 31 := by
  obtain ⟨k, hk, hs⟩ := r.size_pow
  rw [hs]
  exact Nat.pow_le_pow_right (by decide) hk

theorem RingParams.capacity_lt_turn (r : RingParams) : r.capacity < 2 ^ 32 := by
  have h1 := r.size_le
  have h2 := r.capacity_lt
  omega

theorem ringIndex_eq (r : RingParams) (start : ℕ) :
    (BitVec.ofNat 32 start).toNat &&& r.mask = start % r.size := by
  obtain ⟨k, hk, hs⟩ := r.size_pow
  rw [r.mask_eq, hs, Nat.and_two_pow_sub_one_eq_mod, BitVec.toNat_ofNat]
  exact Nat.mod_mod_of_dvd start (Nat.pow_dvd_pow 2 (by omega))

/-- The copy loops put position `start + i` into its own residue. -/
theorem ringSlot_eq (r : RingParams) {start n i : ℕ} (hi : i < n) (hn : n < r.size) :
    ringSlot r (BitVec.ofNat 32 start) n i = (start + i) % r.size := by
  have hidx : start % r.size < r.size := Nat.mod_lt _ (by omega)
  rw [← Nat.mod_add_mod start r.size i]
  unfold ringSlot
  simp only [ringIndex_eq]
  generalize start % r.size = idx at hidx
  split
  · rw [Nat.mod_eq_of_lt (by omega)]
  · split
    · rename_i hlt
      rw [Nat.mod_eq_of_lt hlt]
    · rw [Nat.mod_eq_sub_mod (by omega), Nat.mod_eq_of_lt (by omega)]
      omega

theorem ringCount_le_want (want avail : ℕ) (fixed : Bool) : ringCount want avail fixed ≤ want := by
  unfold ringCount
  split
  · cases fixed
    · simp only [Bool.false_eq_true, if_false]
      omega
    · simp
  · exact Nat.le_refl _

theorem ringCount_le_avail (want avail : ℕ) (fixed : Bool) : ringCount want avail fixed ≤ avail := by
  unfold ringCount
  split
  · cases fixed <;> simp
  · omega

/-! ## What an operation holds -/

/-- The claim of an operation whose compare-and-swap has succeeded. -/
def RingPc.held {R : Type} : RingPc R → Option RingClaim
  | .copying _ c _ => some c
  | .spinning _ c => some c
  | .publishing _ c => some c
  | _ => none

/-- The number of slots such an operation has copied. -/
def RingPc.copied {R : Type} : RingPc R → ℕ
  | .copying _ _ i => i
  | .spinning _ c => c.n
  | .publishing _ c => c.n
  | _ => 0

/-- The claims of one side: each ends before the next begins, and all before the head. -/
structure ClaimsOk (cs : List RingClaim) (head : ℕ) : Prop where
  ordered : cs.Pairwise fun a b => a.start + a.n ≤ b.start
  below : ∀ c ∈ cs, c.start + c.n ≤ head

theorem claimsOk_append {cs : List RingClaim} {head : ℕ} {c : RingClaim} (h : ClaimsOk cs head)
    (hc : c.start = head) :
    ClaimsOk (cs ++ [c]) (head + c.n) where
  ordered := by
    rw [List.pairwise_append]
    refine ⟨h.ordered, List.pairwise_singleton _ _, fun a ha b hb => ?_⟩
    rw [List.mem_singleton.mp hb, hc]
    exact h.below a ha
  below := by
    intro a ha
    cases List.mem_append.mp ha with
    | inl hold => exact (h.below a hold).trans (Nat.le_add_right _ _)
    | inr hnew =>
      rw [List.mem_singleton.mp hnew, hc]

def RingClaim.Disjoint (a b : RingClaim) : Prop := a.start + a.n ≤ b.start ∨ b.start + b.n ≤ a.start

/-- The unbounded counters, the log and the slots: what the invariants of single operations speak about. -/
structure RingView (O : Type) where
  prodHead : ℕ
  prodTail : ℕ
  consHead : ℕ
  consTail : ℕ
  log : List O
  slots : ℕ → O
  out : ℕ → List O

def RingState.view (s : RingState P C O) : RingView O where
  prodHead := s.prodHeadPos
  prodTail := s.prodTailPos
  consHead := s.consHeadPos
  consTail := s.consTailPos
  log := s.log
  slots := s.slots
  out := s.out

/-- A producer's held range: between tail and head, its objects in the log, the copied ones in their slots. -/
structure ProdHolds (r : RingParams) (v : RingView O) (req : EnqReq O) (c : RingClaim) (i : ℕ) : Prop where
  old : c.old = BitVec.ofNat 32 c.start
  pos : 0 < c.n
  fits : c.n ≤ req.objs.length
  lower : v.prodTail ≤ c.start
  upper : c.start + c.n ≤ v.prodHead
  logged : ∀ j, j < c.n → v.log[c.start + j]? = req.objs[j]?
  written : ∀ j, j < i → v.log[c.start + j]? = some (v.slots ((c.start + j) % r.size))

def ProdOk (r : RingParams) (v : RingView O) : RingPc (EnqReq O) → Prop
  | .idle => True
  | .loop req => req.objs.length < 2 ^ 32
  | .gotHead req old start => req.objs.length < 2 ^ 32 ∧ old = BitVec.ofNat 32 start ∧ start ≤ v.prodHead
  | .claiming req c => req.objs.length < 2 ^ 32 ∧ c.old = BitVec.ofNat 32 c.start ∧ c.start ≤ v.prodHead ∧
      0 < c.n ∧ c.n ≤ req.objs.length ∧ (c.start = v.prodHead → c.start + c.n ≤ v.consTail + r.capacity)
  | .copying req c i => ProdHolds r v req c i ∧ i < c.n
  | .spinning req c => ProdHolds r v req c c.n
  | .publishing req c => ProdHolds r v req c c.n ∧ c.start = v.prodTail

/-- The object of a position has been copied out, once. -/
def TakenOnce (v : RingView O) (q : ℕ) : Prop := ∃ o, v.log[q]? = some o ∧ v.out q = [o]

/-- A consumer's held range: between tail and head, with the objects copied so far, each taken once. -/
structure ConsHolds (v : RingView O) (c : RingClaim) (i : ℕ) (got : List O) : Prop where
  old : c.old = BitVec.ofNat 32 c.start
  pos : 0 < c.n
  lower : v.consTail ≤ c.start
  upper : c.start + c.n ≤ v.consHead
  length : got.length = i
  copied : ∀ j, j < i → got[j]? = v.log[c.start + j]?
  taken : ∀ j, j < i → TakenOnce v (c.start + j)
  fresh : ∀ j, i ≤ j → j < c.n → v.out (c.start + j) = []

def ConsOk (v : RingView O) (got : List O) : RingPc DeqReq → Prop
  | .idle => True
  | .loop req => req.want < 2 ^ 32
  | .gotHead req old start => req.want < 2 ^ 32 ∧ old = BitVec.ofNat 32 start ∧ start ≤ v.consHead
  | .claiming req c => req.want < 2 ^ 32 ∧ c.old = BitVec.ofNat 32 c.start ∧ c.start ≤ v.consHead ∧ 0 < c.n ∧
      (c.start = v.consHead → c.start + c.n ≤ v.prodTail)
  | .copying _ c i => ConsHolds v c i got ∧ i < c.n
  | .spinning _ c => ConsHolds v c c.n got
  | .publishing _ c => ConsHolds v c c.n got ∧ c.start = v.consTail

/-- The shared part of the invariant. -/
structure ViewOk (r : RingParams) (v : RingView O) : Prop where
  consOrder : v.consTail ≤ v.consHead
  midOrder : v.consHead ≤ v.prodTail
  prodOrder : v.prodTail ≤ v.prodHead
  room : v.prodHead ≤ v.consTail + r.capacity
  logLen : v.log.length = v.prodHead
  live : ∀ q, v.consTail ≤ q → q < v.prodTail → v.log[q]? = some (v.slots (q % r.size))
  once : ∀ q, v.out q = [] ∨ TakenOnce v q
  consumed : ∀ q, q < v.consTail → TakenOnce v q
  fresh : ∀ q, v.consHead ≤ q → v.out q = []

structure RingInv (r : RingParams) (s : RingState P C O) : Prop where
  prodHead : s.prodHead = BitVec.ofNat 32 s.prodHeadPos
  prodTail : s.prodTail = BitVec.ofNat 32 s.prodTailPos
  consHead : s.consHead = BitVec.ofNat 32 s.consHeadPos
  consTail : s.consTail = BitVec.ofNat 32 s.consTailPos
  prodClaims : ClaimsOk s.prodClaims s.prodHeadPos
  consClaims : ClaimsOk s.consClaims s.consHeadPos
  shared : ViewOk r s.view
  prod : ∀ p, ProdOk r s.view (s.prod p)
  cons : ∀ k, ConsOk s.view (s.got k) (s.cons k)
  prodDisjoint : ∀ p q a b, p ≠ q → (s.prod p).held = some a → (s.prod q).held = some b → a.Disjoint b
  consDisjoint : ∀ p q a b, p ≠ q → (s.cons p).held = some a → (s.cons q).held = some b → a.Disjoint b

theorem ringInv_init (r : RingParams) (slots : ℕ → O) : RingInv r (ringInit slots : RingState P C O) where
  prodHead := rfl
  prodTail := rfl
  consHead := rfl
  consTail := rfl
  prodClaims := ⟨List.Pairwise.nil, fun _ hc => absurd hc List.not_mem_nil⟩
  consClaims := ⟨List.Pairwise.nil, fun _ hc => absurd hc List.not_mem_nil⟩
  shared :=
    { consOrder := Nat.le_refl _
      midOrder := Nat.le_refl _
      prodOrder := Nat.le_refl _
      room := Nat.zero_le _
      logLen := rfl
      live := fun q _ hq => absurd hq (Nat.not_lt_zero q)
      once := fun _ => Or.inl rfl
      consumed := fun q hq => absurd hq (Nat.not_lt_zero q)
      fresh := fun _ _ => rfl }
  prod := fun _ => trivial
  cons := fun _ => trivial
  prodDisjoint := fun _ _ a _ _ ha => absurd ha.symm (Option.some_ne_none a)
  consDisjoint := fun _ _ a _ _ ha => absurd ha.symm (Option.some_ne_none a)

end Skp.Adt
