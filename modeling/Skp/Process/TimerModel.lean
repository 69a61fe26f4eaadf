import Mathlib
import Skp.Errno

/-! # Timers and the time that remains

`uev_timer_future`, `timer_insert`, `timer_remove`, `__uev_timer_modify`, `__uev_timer_delete`,
`uev_timer_remain` and `uev_timer_escapes` of `event.c`, with the machine types of the source. What
the deletion meets under the slot's lock in each pass of its loops is given. -/
namespace Skp.Process
set_option autoImplicit false

/-- A clock reading. The nanoseconds are computed in a signed 64-bit product, also for the latest expiry. -/
structure Timespec where
  sec : ℕ
  nsec : ℕ
  nsec_lt : nsec < 1000000000
  fits : (sec + 4294968) * 1000000000 < 2 ^ 63

def Timespec.ns (ts : Timespec) : ℕ := ts.sec * 1000000000 + ts.nsec

def timestampOffset (ts : Timespec) (value : ℕ) : ℕ :=
  if value = 0 then ts.nsec + ts.sec * 1000000000
  else
    let sec := ts.sec + value / 1000
    let nsec := ts.nsec + value % 1000 * 1000000
    if 1000000000 ≤ nsec then nsec - 1000000000 + (sec + 1) * 1000000000 else nsec + sec * 1000000000

def rounddown (x y : ℕ) : ℕ := x - x % y

def uevTimerFutureNs (ts : Timespec) (offset : UInt32) : UInt64 :=
  UInt64.ofNat (rounddown (timestampOffset ts offset.toNat) 1000000)

/-- The deadline `value` is a number of milliseconds. -/
structure UevTimer where
  pending : Bool
  timedout : Bool
  expires : UInt32
  value : UInt64
  value_dvd : 1000000 ∣ value.toNat

def u32Max : UInt32 := 4294967295

def s32Max : Int32 := 2147483647

variable {ts : Timespec}

theorem timestampOffset_eq (ts : Timespec) (value : ℕ) :
    timestampOffset ts value = ts.ns + value * 1000000 := by
  have hsplit := Nat.div_add_mod value 1000
  simp only [timestampOffset, Timespec.ns]
  split_ifs <;> omega

theorem toNat_uevTimerFutureNs (ts : Timespec) (offset : UInt32) :
    (uevTimerFutureNs ts offset).toNat = rounddown ts.ns 1000000 + offset.toNat * 1000000 := by
  have hfits := ts.fits
  have hnsec := ts.nsec_lt
  have hoffset := offset.toNat_lt
  rw [uevTimerFutureNs, timestampOffset_eq, rounddown, rounddown, Nat.add_mul_mod_self_right,
    UInt64.toNat_ofNat_of_lt']
  · have hle := Nat.mod_le ts.ns 1000000
    omega
  · rw [Timespec.ns, UInt64.size]
    omega

theorem uevTimerFutureNs_dvd (ts : Timespec) (offset : UInt32) :
    1000000 ∣ (uevTimerFutureNs ts offset).toNat := by
  rw [toNat_uevTimerFutureNs, rounddown]
  omega

def timerInsert (expires : UInt32) (ts : Timespec) : UevTimer where
  pending := true
  timedout := false
  expires := expires
  value := uevTimerFutureNs ts expires
  value_dvd := uevTimerFutureNs_dvd ts expires

/-- The product `expires * 1000000` is one of 32 bits, the difference one of unsigned 64. -/
def timerRemove (timer : UevTimer) (expires : UInt32) (future : UInt64) : UevTimer × Int32 :=
  if timer.pending = false then (timer, 0)
  else
    let now := future - (expires * 1000000).toUInt64
    let remain := ((timer.value - now) / 1000000).toUInt32.toInt32
    ({ timer with pending := false }, if remain < 1 then 1 else remain)

def uevTimerModify (slot : Bool) (timer : UevTimer) (expires : UInt32) (ts : Timespec) : UevTimer × ℤ :=
  if slot = false then (timer, Skp.eNODEV)
  else if timer.pending = false then (timerInsert expires ts, 0)
  else
    let remain := (timerRemove timer expires (uevTimerFutureNs ts expires)).2.toUInt32
    (timerInsert expires ts, if s32Max.toUInt32 < remain then s32Max.toInt else remain.toInt32.toInt)

/-- What `uev_wait_finish_sync` returns: 0, `-EAGAIN`, `-EBUSY`, or `-EBUSY` on a slot that stops. -/
inductive FinishResult where
  | finished
  | moved
  | rearmed
  | stopped
deriving DecidableEq

/-- What one pass meets: the timer as the lock shows it, or no slot, and how its wait ends. -/
structure DeletePass where
  slot : Bool
  timer : UevTimer
  wait : FinishResult

/-- The passes from `try` on, or with the lock held from `pending` on. -/
def deletePasses (sync : Bool) (future : UInt64) : Bool → List DeletePass → Option Int32
  | _, [] => none
  | locked, p :: ps =>
      if locked = false ∧ p.slot = false then some 0
      else
        let remain := (timerRemove p.timer 0 future).2
        let last := some (if s32Max < remain then s32Max else remain)
        if sync = false then last
        else match p.wait with
          | .moved => deletePasses sync future false ps
          | .rearmed => deletePasses sync future true ps
          | .finished | .stopped => last

def uevTimerDelete (up sync : Bool) (ts : Timespec) (ps : List DeletePass) : Option ℤ :=
  if up = false then some Skp.eNODEV else (deletePasses sync (uevTimerFutureNs ts 0) false ps).map Int32.toInt

def uevTimerRemain (timer : UevTimer) (ts : Timespec) : Int32 :=
  let now := (uevTimerFutureNs ts 0).toInt64
  if timer.expires = u32Max then 2147483647 else (timer.value.toInt64 - now).toInt32 / 1000000

def uevTimerEscapes (timer : UevTimer) (ts : Timespec) : Int32 :=
  if timer.expires ≠ u32Max then (timer.expires - (uevTimerRemain timer ts).toUInt32).toInt32 else 0

end Skp.Process
