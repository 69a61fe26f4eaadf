import Skp.Foundations.Runs

/-! # The multi-producer multi-consumer ring of `src/adt/ring.c`

`__ringb_do_enqueue` and `__ringb_do_dequeue` at the granularity of their shared accesses: read the head,
read the other side's tail, compare-and-swap the head, copy one slot, see one's turn at the tail, write
the tail. Counters are 32 bits wide and wrap. Beside them the state keeps the unbounded counters, the
claims of each side, the objects in the order their positions were claimed, and what has been copied out
of each position; no step looks at these. -/
namespace Skp.Adt
set_option autoImplicit false
open Skp.Foundations

/-- The fields `ringb_init` settles: a power of two above the capacity. -/
structure RingParams where
  size : ℕ
  mask : ℕ
  capacity : ℕ
  size_pow : ∃ k, k ≤ 31 ∧ size = 2 ^ k
  mask_eq : mask = size - 1
  capacity_lt : capacity < size

structure EnqReq (O : Type) where
  objs : List O
  fixed : Bool

structure DeqReq where
  want : ℕ
  fixed : Bool

/-- `old_head` and `n` of a move of the head; `start` is `old_head` before it was cut to 32 bits. -/
structure RingClaim where
  old : BitVec 32
  n : ℕ
  start : ℕ

/-- Where an operation stands: before reading the head, before reading the other tail, before the
compare-and-swap, copying slot `i`, waiting for its turn at the tail, before writing the tail. -/
inductive RingPc (R : Type) where
  | idle
  | loop (r : R)
  | gotHead (r : R) (old : BitVec 32) (start : ℕ)
  | claiming (r : R) (c : RingClaim)
  | copying (r : R) (c : RingClaim) (i : ℕ)
  | spinning (r : R) (c : RingClaim)
  | publishing (r : R) (c : RingClaim)

structure RingState (P C O : Type) where
  prodHead : BitVec 32
  prodTail : BitVec 32
  consHead : BitVec 32
  consTail : BitVec 32
  slots : ℕ → O
  prod : P → RingPc (EnqReq O)
  cons : C → RingPc DeqReq
  got : C → List O
  prodHeadPos : ℕ
  prodTailPos : ℕ
  consHeadPos : ℕ
  consTailPos : ℕ
  prodClaims : List RingClaim
  consClaims : List RingClaim
  log : List O
  out : ℕ → List O

def ringInit {P C O : Type} (slots : ℕ → O) : RingState P C O where
  prodHead := 0
  prodTail := 0
  consHead := 0
  consTail := 0
  slots := slots
  prod := fun _ => .idle
  cons := fun _ => .idle
  got := fun _ => []
  prodHeadPos := 0
  prodTailPos := 0
  consHeadPos := 0
  consTailPos := 0
  prodClaims := []
  consClaims := []
  log := []
  out := fun _ => []

/-- The slot of the `i`-th of `n` objects in `ENQUEUE_PTRS` and `DEQUEUE_PTRS`: one run of slots when they
fit before the end of the ring, else up to the end and on from slot zero. -/
def ringSlot (r : RingParams) (head : BitVec 32) (n i : ℕ) : ℕ :=
  let idx := head.toNat &&& r.mask
  if idx + n < r.size then idx + i
  else if idx + i < r.size then idx + i
  else i - (r.size - idx)

/-- How many of the wanted objects an operation moves: all, or nothing (fixed) or what there is. -/
def ringCount (want avail : ℕ) (fixed : Bool) : ℕ :=
  if avail < want then (if fixed then 0 else avail) else want

/-- An operation starts, or takes its next step; which step that is, its position says. -/
inductive RingAct (P C O : Type) where
  | enqStart (p : P) (r : EnqReq O)
  | enqNext (p : P)
  | deqStart (k : C) (r : DeqReq)
  | deqNext (k : C)

variable {P C O : Type} [DecidableEq P] [DecidableEq C]

def setProd (s : RingState P C O) (p : P) (pc : RingPc (EnqReq O)) : RingState P C O :=
  { s with prod := Function.update s.prod p pc }

def setCons (s : RingState P C O) (c : C) (pc : RingPc DeqReq) : RingState P C O :=
  { s with cons := Function.update s.cons c pc }

/-- The free entries `__ringb_move_prod_head` computes from its two reads. -/
def freeEntries (r : RingParams) (old consTail : BitVec 32) : BitVec 32 :=
  BitVec.ofNat 32 r.capacity - (old - consTail)

/-- After slot `i` of `n`: the next slot, or the wait for the turn. -/
def afterCopy {R : Type} (req : R) (c : RingClaim) (i : ℕ) : RingPc R :=
  if i + 1 < c.n then .copying req c (i + 1) else .spinning req c

def enqStep (r : RingParams) (s : RingState P C O) (p : P) : RingPc (EnqReq O) → Option (RingState P C O)
  | .idle => none
  | .loop req => some (setProd s p (.gotHead req s.prodHead s.prodHeadPos))
  | .gotHead req old start =>
      let n := ringCount req.objs.length (freeEntries r old s.consTail).toNat req.fixed
      some (setProd s p (if n = 0 then .idle else .claiming req { old := old, n := n, start := start }))
  | .claiming req c =>
      if s.prodHead = c.old then
        some { setProd s p (.copying req c 0) with
          prodHead := c.old + BitVec.ofNat 32 c.n
          prodHeadPos := s.prodHeadPos + c.n
          prodClaims := s.prodClaims ++ [c]
          log := s.log ++ req.objs.take c.n }
      else some (setProd s p (.loop req))
  | .copying req c i =>
      match req.objs[i]? with
      | some o =>
          some { setProd s p (afterCopy req c i) with
            slots := Function.update s.slots (ringSlot r c.old c.n i) o }
      | none => none
  | .spinning req c => if s.prodTail = c.old then some (setProd s p (.publishing req c)) else none
  | .publishing _ c =>
      some { setProd s p .idle with
        prodTail := c.old + BitVec.ofNat 32 c.n
        prodTailPos := c.start + c.n }

def deqStep (r : RingParams) (s : RingState P C O) (k : C) : RingPc DeqReq → Option (RingState P C O)
  | .idle => none
  | .loop req => some (setCons s k (.gotHead req s.consHead s.consHeadPos))
  | .gotHead req old start =>
      let n := ringCount req.want (s.prodTail - old).toNat req.fixed
      some (setCons s k (if n = 0 then .idle else .claiming req { old := old, n := n, start := start }))
  | .claiming req c =>
      if s.consHead = c.old then
        some { setCons s k (.copying req c 0) with
          consHead := c.old + BitVec.ofNat 32 c.n
          consHeadPos := s.consHeadPos + c.n
          consClaims := s.consClaims ++ [c]
          got := Function.update s.got k [] }
      else some (setCons s k (.loop req))
  | .copying req c i =>
      let o := s.slots (ringSlot r c.old c.n i)
      some { setCons s k (afterCopy req c i) with
        got := Function.update s.got k (s.got k ++ [o])
        out := Function.update s.out (c.start + i) (s.out (c.start + i) ++ [o]) }
  | .spinning req c => if s.consTail = c.old then some (setCons s k (.publishing req c)) else none
  | .publishing _ c =>
      some { setCons s k .idle with
        consTail := c.old + BitVec.ofNat 32 c.n
        consTailPos := c.start + c.n }

/-- One step of the ring. The counts an operation is called with are 32-bit values. -/
def ringStep (r : RingParams) (s : RingState P C O) : RingAct P C O → Option (RingState P C O)
  | .enqStart p req =>
      match s.prod p with
      | .idle => if req.objs.length < 2 ^ 32 then some (setProd s p (.loop req)) else none
      | _ => none
  | .enqNext p => enqStep r s p (s.prod p)
  | .deqStart k req =>
      match s.cons k with
      | .idle => if req.want < 2 ^ 32 then some (setCons s k (.loop req)) else none
      | _ => none
  | .deqNext k => deqStep r s k (s.cons k)

end Skp.Adt
