import Skp.Foundations.ByteMem

/-! # The heap sort of `algorithm/heap_sort.c`

The array is `len` bytes at `base`; an access outside fails. Offsets are ints, compared as the
size_t that the source converts them to. A loop takes the number of rounds it may make. -/
namespace Skp.Algorithm
set_option autoImplicit false
open Skp.Foundations

/-- The conversions to int and to size_t. -/
def toInt (x : ℤ) : ℤ := x.bmod (2 ^ 32)

def toSize (x : ℤ) : ℤ := x % 2 ^ 64

abbrev Bytes := ℕ → UInt8

/-! ## Swaps -/

section Access
variable (len : ℕ)

def loadBytes (m : Bytes) (a : ℤ) (k : ℕ) : Option (List UInt8) :=
  if 0 ≤ a ∧ a + k ≤ len then some (readBytes m a.toNat k) else none

def storeBytes (m : Bytes) (a : ℤ) (bs : List UInt8) : Option Bytes :=
  if 0 ≤ a ∧ a + bs.length ≤ len then some (writeBytes m a.toNat bs) else none

/-- Two words of `k` bytes change places. -/
def swapWord (k : ℕ) (m : Bytes) (a b : ℤ) : Option Bytes := do
  let t ← loadBytes len m a k
  let v ← loadBytes len m b k
  let m ← storeBytes len m a v
  storeBytes len m b t

/-- The rounds of `generic_swap`. -/
def genericSwapLoop : ℕ → Bytes → ℤ → ℤ → Option Bytes
  | 0, m, _, _ => some m
  | n + 1, m, a, b => (swapWord len 1 m a b).bind fun m => genericSwapLoop n m (a + 1) (b + 1)

end Access

/-- A swap function: the length of the array, its bytes, two offsets and the size. -/
abbrev SwapFunc := ℕ → Bytes → ℤ → ℤ → ℤ → Option Bytes

def u32Swap : SwapFunc := fun len m a b _ => swapWord len 4 m a b

def u64Swap : SwapFunc := fun len m a b _ => swapWord len 8 m a b

/-- The body runs at least once. -/
def genericSwap : SwapFunc := fun len m a b size => genericSwapLoop len (max 1 size.toNat) m a b

def alignmentOk (base align : ℕ) : Bool := decide (base % align = 0)

/-- The swap function that runs. -/
def chooseSwap (base size : ℕ) : Option SwapFunc → SwapFunc
  | some swap => swap
  | none =>
      if size = 4 ∧ alignmentOk base 4 = true then u32Swap
      else if size = 8 ∧ alignmentOk base 8 = true then u64Swap
      else genericSwap

/-! ## The sort -/

/-- A comparison that is a total preorder. -/
structure CmpFunc where
  run : List UInt8 → List UInt8 → ℤ
  flip : ∀ x y, run x y ≤ 0 ↔ 0 ≤ run y x
  trans : ∀ x y z, run x y ≤ 0 → run y z ≤ 0 → run x z ≤ 0

section Loops
variable (cmp : CmpFunc) (swap : SwapFunc) (len size : ℕ)

/-- The comparison of the elements at two offsets. -/
def compareAt (m : Bytes) (a b : ℤ) : Option ℤ := do
  let x ← loadBytes len m a size
  let y ← loadBytes len m b size
  some (cmp.run x y)

/-- The child at `c`, or the next one when that is greater. -/
def pickChild (n : ℤ) (m : Bytes) (c : ℤ) : Option ℤ :=
  if toSize c < toSize (n - size) then
    (compareAt cmp len size m c (c + size)).map fun v => if v < 0 then toInt (c + size) else c
  else some c

/-- The inner loop from `r` on, with the end `n` of the heap. -/
def siftLoop (n : ℤ) : ℕ → Bytes → ℤ → Option Bytes
  | 0, _, _ => none
  | fuel + 1, m, r =>
      if toSize (toInt (r * 2) + size) < toSize n then do
        let c ← pickChild cmp len size n m (toInt (toInt (r * 2) + size))
        let v ← compareAt cmp len size m r c
        if 0 ≤ v then some m
        else do
          let m ← swap len m r c (toInt size)
          siftLoop n fuel m c
      else some m

def heapifyLoop (n : ℤ) (sift : ℕ) : ℕ → Bytes → ℤ → Option Bytes
  | 0, _, _ => none
  | fuel + 1, m, i =>
      if 0 ≤ i then (siftLoop cmp swap len size n sift m i).bind fun m =>
        heapifyLoop n sift fuel m (toInt (i - size))
      else some m

def sortLoop (sift : ℕ) : ℕ → Bytes → ℤ → Option Bytes
  | 0, _, _ => none
  | fuel + 1, m, i =>
      if 0 < i then do
        let m ← swap len m 0 i (toInt size)
        let m ← siftLoop cmp swap len size i sift m 0
        sortLoop sift fuel m (toInt (i - size))
      else some m

end Loops

/-- `heap_sort` of the array of `num` elements at `base`; each loop makes fewer than `fuel` rounds. -/
def heapSort (fuel : ℕ) (cmp : CmpFunc) (swapFunc : Option SwapFunc) (base num size : ℕ)
    (m : Bytes) : Option Bytes :=
  let i := toInt (toSize (((num / 2 : ℕ) - 1) * size))
  let n := toInt (toSize (num * size))
  let swap := chooseSwap base size swapFunc
  let len := num * size
  (heapifyLoop cmp swap len size n fuel fuel m i).bind fun m =>
    sortLoop cmp swap len size fuel fuel m (toInt (n - size))

end Skp.Algorithm
