import Skp.Utils.PbuffModel

/-! # Typed reads and writes

The values that the generated `pb_read_*` and `pb_write_*` functions move, as bytes.
`pb_encode_decode` turns a number into network order with `htons`, `htonl` or `htonll`, and the
store puts it into memory in the order of the host. `htonll` of the library leaves the number alone
when `__BIG_ENDIAN` is defined, whatever the host; it is its own inverse in both cases. -/
namespace Skp.Utils
set_option autoImplicit false
open Skp.Foundations

/-- The order of the bytes of a number in memory, and whether the headers define `__BIG_ENDIAN`. -/
structure Host where
  littleEndian : Bool
  bigEndianMacro : Bool
deriving DecidableEq

/-- The `w` bytes of a number in the other order. -/
def swapBytes (w n : ℕ) : ℕ := ofLeBytes (leBytes w n).reverse

/-- `htons`, and `ntohs`. -/
def htons (h : Host) (v : UInt16) : UInt16 :=
  if h.littleEndian = true then UInt16.ofNat (swapBytes 2 v.toNat) else v

/-- `htonl`, and `ntohl`. -/
def htonl (h : Host) (v : UInt32) : UInt32 :=
  if h.littleEndian = true then UInt32.ofNat (swapBytes 4 v.toNat) else v

/-- `SWAP_8BYTES` -/
def swap8Bytes (v : BitVec 64) : BitVec 64 :=
  ((v &&& 0xff00000000000000#64) >>> 56) ||| ((v &&& 0x00ff000000000000#64) >>> 40) |||
    ((v &&& 0x0000ff0000000000#64) >>> 24) ||| ((v &&& 0x000000ff00000000#64) >>> 8) |||
    ((v &&& 0x00000000ff000000#64) <<< 8) ||| ((v &&& 0x0000000000ff0000#64) <<< 24) |||
    ((v &&& 0x000000000000ff00#64) <<< 40) ||| ((v &&& 0x00000000000000ff#64) <<< 56)

/-- `htonll`, and `ntohll`. -/
def htonll (h : Host) (v : UInt64) : UInt64 :=
  if h.bigEndianMacro = true then v else UInt64.ofBitVec (swap8Bytes v.toBitVec)

/-- A number of `w` bytes in memory. -/
def storeWord (h : Host) (w n : ℕ) : List UInt8 :=
  if h.littleEndian = true then leBytes w n else (leBytes w n).reverse

def loadWord (h : Host) (bs : List UInt8) : ℕ := ofLeBytes (if h.littleEndian = true then bs else bs.reverse)

inductive PbItem where
  | uint8 (v : UInt8)
  | uint16 (v : UInt16)
  | uint32 (v : UInt32)
  | uint64 (v : UInt64)
  | bytes (bs : List UInt8)
deriving DecidableEq

/-- What a read asks for. -/
inductive PbKind where
  | uint8
  | uint16
  | uint32
  | uint64
  | bytes (l : ℕ)
deriving DecidableEq

def PbKind.size : PbKind → ℕ
  | .uint8 => 1
  | .uint16 => 2
  | .uint32 => 4
  | .uint64 => 8
  | .bytes l => l

def PbItem.kind : PbItem → PbKind
  | .uint8 _ => .uint8
  | .uint16 _ => .uint16
  | .uint32 _ => .uint32
  | .uint64 _ => .uint64
  | .bytes bs => .bytes bs.length

/-- What `__pb_write_*` stores. -/
def PbItem.encode (h : Host) : PbItem → List UInt8
  | .uint8 v => [v]
  | .uint16 v => storeWord h 2 (htons h v).toNat
  | .uint32 v => storeWord h 4 (htonl h v).toNat
  | .uint64 v => storeWord h 8 (htonll h v).toNat
  | .bytes bs => bs

/-- What `__pb_read_*` makes of the bytes at the place. -/
def PbKind.decode (h : Host) : PbKind → List UInt8 → PbItem
  | .uint8, bs => .uint8 (bs.headD 0)
  | .uint16, bs => .uint16 (htons h (UInt16.ofNat (loadWord h bs)))
  | .uint32, bs => .uint32 (htonl h (UInt32.ofNat (loadWord h bs)))
  | .uint64, bs => .uint64 (htonll h (UInt64.ofNat (loadWord h bs)))
  | .bytes _, bs => .bytes bs

section Calls
variable {P B : Type} [DecidableEq P] [DecidableEq B]

/-- `__pb_write_*` -/
def pbWriteItem (h : Host) (s : PbHeap P B) (p : P) (v : PbItem) : Option (PbHeap P B) :=
  pbPutdata s p (v.encode h)

/-- `pb_read_*`, with the value it stores. -/
def pbRead (h : Host) (s : PbHeap P B) (p : P) (k : PbKind) : Option (PbHeap P B × ℤ × Option PbItem) := do
  let pb ← s.pbuff p
  if k.size ≤ pbHeadlen pb then
    let r ← pbPulldata s p k.size
    let bs ← r.2
    some (r.1, 0, some (k.decode h bs))
  else some (s, eNODATA, none)

end Calls

/-! ## Round trips -/

theorem swapBytes_swapBytes (w n : ℕ) (hn : n < 256 ^ w) : swapBytes w (swapBytes w n) = n := by
  have hlen : (leBytes w n).reverse.length = w := by simp
  have hback := leBytes_ofLeBytes (leBytes w n).reverse
  rw [hlen] at hback
  rw [swapBytes, swapBytes, hback, List.reverse_reverse, ofLeBytes_leBytes w hn]

theorem swapBytes_lt (w n : ℕ) : swapBytes w n < 256 ^ w := by
  have hlt := ofLeBytes_lt (leBytes w n).reverse
  rw [List.length_reverse, length_leBytes] at hlt
  exact hlt

theorem htons_htons (h : Host) (v : UInt16) : htons h (htons h v) = v := by
  have hv : v.toNat < 2 ^ 16 := v.toNat_lt
  have hswap : swapBytes 2 v.toNat < 2 ^ 16 := swapBytes_lt 2 v.toNat
  cases hl : h.littleEndian with
  | false => simp [htons, hl]
  | true =>
    apply UInt16.toNat_inj.mp
    simp only [htons, hl, if_true, UInt16.toNat_ofNat']
    rw [Nat.mod_eq_of_lt hswap, swapBytes_swapBytes 2 _ hv, Nat.mod_eq_of_lt hv]

theorem htonl_htonl (h : Host) (v : UInt32) : htonl h (htonl h v) = v := by
  have hv : v.toNat < 2 ^ 32 := v.toNat_lt
  have hswap : swapBytes 4 v.toNat < 2 ^ 32 := swapBytes_lt 4 v.toNat
  cases hl : h.littleEndian with
  | false => simp [htonl, hl]
  | true =>
    apply UInt32.toNat_inj.mp
    simp only [htonl, hl, if_true, UInt32.toNat_ofNat']
    rw [Nat.mod_eq_of_lt hswap, swapBytes_swapBytes 4 _ hv, Nat.mod_eq_of_lt hv]

theorem getLsbD_swap8Bytes (v : BitVec 64) {i : ℕ} (hi : i < 64) :
    (swap8Bytes v).getLsbD i = v.getLsbD (8 * (7 - i / 8) + i % 8) := by
  interval_cases i <;> simp [swap8Bytes]

theorem swap8Bytes_swap8Bytes (v : BitVec 64) : swap8Bytes (swap8Bytes v) = v := by
  apply BitVec.eq_of_getLsbD_eq
  intro i hi
  have hmid : 8 * (7 - i / 8) + i % 8 < 64 := by omega
  have hback : 8 * (7 - (8 * (7 - i / 8) + i % 8) / 8) + (8 * (7 - i / 8) + i % 8) % 8 = i := by omega
  rw [getLsbD_swap8Bytes _ hi, getLsbD_swap8Bytes _ hmid, hback]

theorem htonll_htonll (h : Host) (v : UInt64) : htonll h (htonll h v) = v := by
  cases hb : h.bigEndianMacro with
  | true => simp [htonll, hb]
  | false => simp [htonll, hb, swap8Bytes_swap8Bytes]

@[simp] theorem length_storeWord (h : Host) (w n : ℕ) : (storeWord h w n).length = w := by
  rw [storeWord]
  split
  · rw [length_leBytes]
  · rw [List.length_reverse, length_leBytes]

theorem loadWord_storeWord (h : Host) {w n : ℕ} (hn : n < 256 ^ w) : loadWord h (storeWord h w n) = n := by
  rw [loadWord, storeWord]
  cases hl : h.littleEndian with
  | true => simp only [if_true, ofLeBytes_leBytes w hn]
  | false => simp only [Bool.false_eq_true, if_false, List.reverse_reverse, ofLeBytes_leBytes w hn]

@[simp] theorem length_encode (h : Host) (v : PbItem) : (v.encode h).length = v.kind.size := by
  cases v with
  | uint8 v => rfl
  | uint16 v => exact length_storeWord h 2 _
  | uint32 v => exact length_storeWord h 4 _
  | uint64 v => exact length_storeWord h 8 _
  | bytes bs => rfl

theorem decode_encode (h : Host) (v : PbItem) : v.kind.decode h (v.encode h) = v := by
  cases v with
  | uint8 v => rfl
  | bytes bs => rfl
  | uint16 v =>
    have hlt : (htons h v).toNat < 256 ^ 2 := UInt16.toNat_lt _
    simp only [PbItem.kind, PbItem.encode, PbKind.decode, loadWord_storeWord h hlt,
      UInt16.ofNat_toNat, htons_htons]
  | uint32 v =>
    have hlt : (htonl h v).toNat < 256 ^ 4 := UInt32.toNat_lt _
    simp only [PbItem.kind, PbItem.encode, PbKind.decode, loadWord_storeWord h hlt,
      UInt32.ofNat_toNat, htonl_htonl]
  | uint64 v =>
    have hlt : (htonll h v).toNat < 256 ^ 8 := UInt64.toNat_lt _
    simp only [PbItem.kind, PbItem.encode, PbKind.decode, loadWord_storeWord h hlt,
      UInt64.ofNat_toNat, htonll_htonll]

end Skp.Utils
