import Skp.Process.TimerModel

/-! # The remaining time a timer reports

The clock is recovered from the new deadline with a product of 32 bits, an overdue deadline gives a
large unsigned difference, and the milliseconds are cut to 32 bits. -/
namespace Skp.Process
set_option autoImplicit false

def msLeft (timer : UevTimer) (ts : Timespec) : ℤ :=
  ((timer.value.toNat : ℤ) - rounddown ts.ns 1000000) / 1000000

def remainSpec (timer : UevTimer) (ts : Timespec) : ℤ :=
  if timer.pending then max 1 (min (msLeft timer ts) (2 ^ 31 - 1)) else 0

def lostPart (expires : UInt32) : ℤ := (expires.toNat * 1000000 / 2 ^ 32 * 2 ^ 32 : ℕ)

/-- When `k` milliseconds are reported right although `lost` nanoseconds were dropped. -/
def RemainFits (k lost : ℤ) : Prop :=
  if lost ≤ k * 1000000 then
    (lost = 0 ∧ k < 2 ^ 31) ∨ (2 ^ 31 ≤ k ∧ (k - (lost + 999999) / 1000000) % 2 ^ 32 = 2 ^ 31 - 1)
  else if k ≤ 1 then
    (k + (2 ^ 64 - lost) / 1000000) % 2 ^ 32 ≤ 1 ∨ 2 ^ 31 ≤ (k + (2 ^ 64 - lost) / 1000000) % 2 ^ 32
  else (k + (2 ^ 64 - lost) / 1000000) % 2 ^ 32 = min k (2 ^ 31 - 1)

variable {timer : UevTimer} {ts : Timespec} {expires : UInt32} {k lost : ℤ}

/-! ## The arithmetic -/

theorem bmod_eq (x : ℤ) : x.bmod (2 ^ 32) = if x % 2 ^ 32 < 2 ^ 31 then x % 2 ^ 32
      else x % 2 ^ 32 - 2 ^ 32 := by
  rw [Int.bmod]
  rfl

theorem toInt_toInt32 (x : UInt32) : x.toInt32.toInt = (x.toNat : ℤ).bmod (2 ^ 32) := by
  change x.toBitVec.toInt = _
  rw [BitVec.toInt_eq_toNat_bmod]
  rfl

theorem toInt_narrow (x : UInt64) : x.toUInt32.toInt32.toInt = (x.toNat : ℤ).bmod (2 ^ 32) := by
  rw [toInt_toInt32, UInt64.toNat_toUInt32, Int.natCast_mod]
  exact Int.emod_bmod _ _

theorem value_eq (timer : UevTimer) (ts : Timespec) :
    (timer.value.toNat : ℤ) - rounddown ts.ns 1000000 = msLeft timer ts * 1000000 := by
  have hdvd := timer.value_dvd
  rw [msLeft, rounddown]
  omega

theorem lostPart_zero : lostPart 0 = 0 := rfl

theorem remainFits_iff (hlost : 0 ≤ lost) (hmul : lost % 2 ^ 32 = 0) (hlow : -2 ^ 64 < k * 1000000 - lost)
    (hhigh : k * 1000000 < 2 ^ 64) (hle : lost ≤ 2 ^ 32 * 1000000) :
    max 1 (((k * 1000000 - lost) % 2 ^ 64 / 1000000).bmod (2 ^ 32)) = max 1 (min k (2 ^ 31 - 1)) ↔
      RemainFits k lost := by
  rw [RemainFits, bmod_eq]
  by_cases hcase : lost ≤ k * 1000000
  · have hquot : (k * 1000000 - lost) % 2 ^ 64 / 1000000 = k - (lost + 999999) / 1000000 := by omega
    rw [if_pos hcase, hquot]
    generalize hl : (lost + 999999) / 1000000 = l
    split_ifs <;> omega
  · have hquot : (k * 1000000 - lost) % 2 ^ 64 / 1000000 = k + (2 ^ 64 - lost) / 1000000 := by omega
    rw [if_neg hcase, hquot]
    generalize hl : (2 ^ 64 - lost) / 1000000 = l
    split_ifs <;> omega

theorem toNat_difference (timer : UevTimer) (ts : Timespec) (expires : UInt32) :
    ((timer.value - (uevTimerFutureNs ts expires - (expires * 1000000).toUInt64)).toNat : ℤ) =
      (msLeft timer ts * 1000000 - lostPart expires) % 2 ^ 64 := by
  have hfuture := toNat_uevTimerFutureNs ts expires
  have hvalue := value_eq timer ts
  have hleft := timer.value.toNat_lt
  have hfits := (uevTimerFutureNs ts expires).toNat_lt
  rw [UInt64.toNat_sub, UInt64.toNat_sub, UInt32.toNat_toUInt64, UInt32.toNat_mul, hfuture, lostPart]
  change (((2 ^ 64 - (2 ^ 64 - expires.toNat * 1000000 % 2 ^ 32 + _) % 2 ^ 64 + _) % 2 ^ 64 : ℕ) : ℤ) = _
  omega

theorem timerRemove_toInt (hpending : timer.pending = true) (ts : Timespec) (expires : UInt32) :
    (timerRemove timer expires (uevTimerFutureNs ts expires)).2.toInt =
      max 1 (((msLeft timer ts * 1000000 - lostPart expires) % 2 ^ 64 / 1000000).bmod (2 ^ 32)) := by
  have hnarrow :=
    toInt_narrow
      ((timer.value - (uevTimerFutureNs ts expires - (expires * 1000000).toUInt64)) / 1000000)
  have hms : ((1000000 : UInt64).toNat : ℤ) = 1000000 := rfl
  rw [UInt64.toNat_div, Int.natCast_div, toNat_difference, hms] at hnarrow
  simp only [timerRemove, hpending, Bool.true_eq_false, if_false]
  split_ifs with hless
  · rw [Int32.lt_iff_toInt_lt, hnarrow] at hless
    change _ < 1 at hless
    change 1 = _
    omega
  · rw [Int32.lt_iff_toInt_lt, hnarrow] at hless
    change ¬_ < 1 at hless
    rw [hnarrow]
    omega

theorem lostPart_bounds (expires : UInt32) :
    0 ≤ lostPart expires ∧ lostPart expires % 2 ^ 32 = 0 ∧ lostPart expires ≤ expires.toNat * 1000000 := by
  rw [lostPart]
  omega

theorem timerRemove_iff (hpending : timer.pending = true) (ts : Timespec) (expires : UInt32) :
    (timerRemove timer expires (uevTimerFutureNs ts expires)).2.toInt = remainSpec timer ts ↔
      RemainFits (msLeft timer ts) (lostPart expires) := by
  obtain ⟨hlost, hmul, hprod⟩ := lostPart_bounds expires
  have hvalue := value_eq timer ts
  have hleft := timer.value.toNat_lt
  have hexpires := expires.toNat_lt
  have hfits := ts.fits
  have hnsec := ts.nsec_lt
  have hns : rounddown ts.ns 1000000 ≤ ts.sec * 1000000000 + ts.nsec := Nat.sub_le _ _
  rw [timerRemove_toInt hpending, remainSpec, if_pos hpending]
  apply remainFits_iff hlost hmul <;> omega

/-! ## The calls -/

theorem timerRemove_pos (hpending : timer.pending = true) (future : UInt64) :
    1 ≤ (timerRemove timer expires future).2.toInt := by
  simp only [timerRemove, hpending, Bool.true_eq_false, if_false]
  split_ifs with hless
  · decide
  · rw [Int32.lt_iff_toInt_lt] at hless
    exact not_lt.mp hless

theorem not_s32Max_lt (x : Int32) : ¬s32Max < x := by
  have hle := x.toInt_le
  rw [Int32.lt_iff_toInt_lt]
  change ¬2147483647 < x.toInt
  change x.toInt ≤ 2147483647 at hle
  omega

theorem toNat_s32Max : s32Max.toUInt32.toNat = 2 ^ 31 - 1 := rfl

theorem not_s32Max_lt_remain {x : Int32} (hpos : 1 ≤ x.toInt) : ¬s32Max.toUInt32 < x.toUInt32 := by
  have hle := x.toInt_lt
  have hmod : x.toUInt32.toInt32.toInt = x.toInt := by rw [Int32.toInt32_toUInt32]
  have hnat := x.toUInt32.toNat_lt
  rw [toInt_toInt32, bmod_eq] at hmod
  rw [UInt32.lt_iff_toNat_lt, toNat_s32Max]
  split_ifs at hmod <;> omega

theorem uevTimerModify_pending (hpending : timer.pending = true) (ts : Timespec) (expires : UInt32) :
    (uevTimerModify true timer expires ts).2 =
      (timerRemove timer expires (uevTimerFutureNs ts expires)).2.toInt := by
  have hpos : 1 ≤ (timerRemove timer expires (uevTimerFutureNs ts expires)).2.toInt :=
    timerRemove_pos hpending _
  simp only [uevTimerModify, hpending, Bool.true_eq_false, if_false, if_neg (not_s32Max_lt_remain hpos),
    Int32.toInt32_toUInt32]

/-- The pass that decides a deletion: the last one under the slot's lock. -/
def decidingPass (sync : Bool) : Bool → List DeletePass → Option DeletePass
  | _, [] => none
  | locked, p :: ps =>
      if locked = false ∧ p.slot = false then none
      else if sync = false then some p
      else match p.wait with
        | .moved => decidingPass sync false ps
        | .rearmed => decidingPass sync true ps
        | .finished | .stopped => some p

theorem deletePasses_deciding {sync locked : Bool} {ps : List DeletePass} {p : DeletePass} (future : UInt64)
    (hp : decidingPass sync locked ps = some p) :
    deletePasses sync future locked ps = some (timerRemove p.timer 0 future).2 := by
  induction ps generalizing locked with
  | nil => cases hp
  | cons q qs ih =>
    rw [decidingPass] at hp
    rw [deletePasses]
    by_cases hslow : locked = false ∧ q.slot = false
    · rw [if_pos hslow] at hp
      cases hp
    · rw [if_neg hslow] at hp ⊢
      simp only [if_neg (not_s32Max_lt _)]
      by_cases hsync : sync = false
      · rw [if_pos hsync] at hp ⊢
        cases hp
        rfl
      · rw [if_neg hsync] at hp ⊢
        cases hwait : q.wait with
        | moved =>
          simp only [hwait] at hp
          exact ih hp
        | rearmed =>
          simp only [hwait] at hp
          exact ih hp
        | finished =>
          simp only [hwait] at hp
          cases hp
          rfl
        | stopped =>
          simp only [hwait] at hp
          cases hp
          rfl

/-- Exactly when the remaining time is reported right. -/
theorem timer_remain_iff (timer : UevTimer) (ts : Timespec) (expires : UInt32) (sync : Bool)
    (ps : List DeletePass)
    (p : DeletePass) (hp : decidingPass sync false ps = some p) :
    ((uevTimerModify true timer expires ts).2 = remainSpec timer ts ↔
      (timer.pending = true → RemainFits (msLeft timer ts) (lostPart expires))) ∧
    (uevTimerDelete true sync ts ps = some (remainSpec p.timer ts) ↔
      (p.timer.pending = true → RemainFits (msLeft p.timer ts) 0)) := by
  constructor
  · by_cases hpending : timer.pending = true
    · rw [uevTimerModify_pending hpending, timerRemove_iff hpending]
      exact ⟨fun h _ => h, fun h => h hpending⟩
    · simp [uevTimerModify, remainSpec, hpending]
  · have hdelete : uevTimerDelete true sync ts ps =
      some (timerRemove p.timer 0 (uevTimerFutureNs ts 0)).2.toInt := by
      rw [uevTimerDelete, if_neg (by decide), deletePasses_deciding _ hp, Option.map_some]
    rw [hdelete, Option.some_inj]
    by_cases hpending : p.timer.pending = true
    · rw [timerRemove_iff hpending, lostPart_zero]
      exact ⟨fun h _ => h, fun h => h hpending⟩
    · simp [timerRemove, remainSpec, hpending]

def boot : Timespec where
  sec := 0
  nsec := 0
  nsec_lt := by decide
  fits := by decide

/-- Five seconds that have just begun are reported as 705 milliseconds. -/
theorem five_seconds_lost :
    (uevTimerModify true (timerInsert 5000 boot) 5000 boot).2 = 705 ∧
      remainSpec (timerInsert 5000 boot) boot = 5000 := by
  decide +kernel

theorem remainFits_near (hlow : -2007021037 ≤ k) (hhigh : k < 2 ^ 31) : RemainFits k 0 := by
  rw [RemainFits]
  split_ifs <;> omega

def secondPass : DeletePass where
  slot := true
  timer := timerInsert 1000 boot
  wait := .finished

theorem msLeft_secondPass : msLeft secondPass.timer boot = 1000 := by decide +kernel

theorem timer_remain_iff_second :
    uevTimerDelete true true boot [secondPass] = some (remainSpec secondPass.timer boot) := by
  have hfits : RemainFits (msLeft secondPass.timer boot) 0 := by
    rw [msLeft_secondPass]
    exact remainFits_near (by decide) (by decide)
  have hdeciding : decidingPass true false [secondPass] = some secondPass := rfl
  exact (timer_remain_iff secondPass.timer boot 1000 true [secondPass] secondPass
    hdeciding).2.mpr fun _ => hfits

/-! ## The readings -/

theorem toInt_toInt64 (x : UInt64) : x.toInt64.toInt = (x.toNat : ℤ).bmod (2 ^ 64) := by
  change x.toBitVec.toInt = _
  rw [BitVec.toInt_eq_toNat_bmod]
  rfl

theorem toInt_cut (timer : UevTimer) (ts : Timespec) :
    (timer.value.toInt64 - (uevTimerFutureNs ts 0).toInt64).toInt32.toInt =
      (msLeft timer ts * 1000000).bmod (2 ^ 32) := by
  have hfuture := toNat_uevTimerFutureNs ts 0
  rw [Int64.toInt_toInt32, Int64.toInt_sub, toInt_toInt64, toInt_toInt64, Int.sub_bmod_bmod,
    Int.bmod_sub_bmod,
    Int.bmod_bmod_of_dvd (by norm_num), ← value_eq, hfuture, UInt32.toNat_zero, Nat.zero_mul, Nat.add_zero]

theorem tdiv_ms (x : ℤ) : x.tdiv 1000000 = if 0 ≤ x then x / 1000000 else -(-x / 1000000) := by
  split_ifs with hx
  · exact Int.tdiv_eq_ediv_of_nonneg hx
  · have hneg := Int.neg_tdiv x 1000000
    have hediv := Int.tdiv_eq_ediv_of_nonneg (a := -x) (b := 1000000) (by omega)
    omega

theorem toInt_uevTimerRemain (hexpires : timer.expires ≠ u32Max) (ts : Timespec) :
    (uevTimerRemain timer ts).toInt = ((msLeft timer ts * 1000000).bmod (2 ^ 32)).tdiv 1000000 := by
  have hms : (1000000 : Int32).toInt = 1000000 := rfl
  have hcut := toInt_cut timer ts
  simp only [uevTimerRemain, if_neg hexpires, Int32.toInt_div, hcut, hms]
  generalize hx : (msLeft timer ts * 1000000).bmod (2 ^ 32) = x
  have hlow : -2 ^ 31 ≤ x := hx ▸ Int.le_bmod (by norm_num)
  have hhigh : x < 2 ^ 31 := hx ▸ Int.bmod_lt (by norm_num)
  have htdiv := tdiv_ms x
  have hself : (x.tdiv 1000000).bmod (2 ^ 32) = x.tdiv 1000000 := by
    rw [bmod_eq]
    split_ifs at htdiv ⊢ <;> omega
  exact hself

theorem uevTimerRemain_le (hexpires : timer.expires ≠ u32Max) (ts : Timespec) :
    (uevTimerRemain timer ts).toInt ≤ 2147 := by
  have htdiv := tdiv_ms ((msLeft timer ts * 1000000).bmod (2 ^ 32))
  rw [toInt_uevTimerRemain hexpires, htdiv, bmod_eq]
  split_ifs <;> omega

theorem toInt_uevTimerRemain_iff (hexpires : timer.expires ≠ u32Max) (ts : Timespec) :
    (uevTimerRemain timer ts).toInt = msLeft timer ts ↔ -2147 ≤ msLeft timer ts ∧ msLeft timer ts ≤ 2147 := by
  have htdiv := tdiv_ms ((msLeft timer ts * 1000000).bmod (2 ^ 32))
  rw [toInt_uevTimerRemain hexpires, htdiv, bmod_eq]
  split_ifs <;> omega

theorem toNat_toUInt32 (x : Int32) : (x.toUInt32.toNat : ℤ) = x.toInt % 2 ^ 32 := by
  have hle := x.le_toInt
  have hlt := x.toInt_lt
  have hnat := x.toUInt32.toNat_lt
  have hmod : x.toUInt32.toInt32.toInt = x.toInt := by rw [Int32.toInt32_toUInt32]
  rw [toInt_toInt32, bmod_eq] at hmod
  split_ifs at hmod <;> omega

theorem escapes_add_remain (hexpires : timer.expires ≠ u32Max) (ts : Timespec) :
    (uevTimerEscapes timer ts).toInt =
      ((timer.expires.toNat : ℤ) - (uevTimerRemain timer ts).toInt).bmod (2 ^ 32) := by
  have hremain := toNat_toUInt32 (uevTimerRemain timer ts)
  have hle := (uevTimerRemain timer ts).toUInt32.toNat_lt
  rw [uevTimerEscapes, if_pos hexpires, toInt_toInt32, UInt32.toNat_sub, bmod_eq, bmod_eq]
  have hmod : ((2 ^ 32 - (uevTimerRemain timer ts).toUInt32.toNat + timer.expires.toNat) %
      2 ^ 32 : ℕ) % (2 ^ 32 : ℤ) =
      ((timer.expires.toNat : ℤ) - (uevTimerRemain timer ts).toInt) % 2 ^ 32 := by omega
  rw [hmod]

/-- The readings of a timer, unless it is one that never expires; they add up at every distance of
the deadline. -/
theorem timer_readings (timer : UevTimer) (ts : Timespec) :
    (timer.expires ≠ u32Max →
      (-2147 ≤ msLeft timer ts → msLeft timer ts ≤ 2147 → (uevTimerRemain timer ts).toInt = msLeft timer ts) ∧
      ((uevTimerEscapes timer ts).toInt + (uevTimerRemain timer ts).toInt) % 2 ^ 32 = timer.expires.toNat ∧
      ((timer.expires.toNat : ℤ) - (uevTimerRemain timer ts).toInt < 2 ^ 31 →
        (uevTimerEscapes timer ts).toInt + (uevTimerRemain timer ts).toInt = timer.expires.toNat)) ∧
    (timer.expires = u32Max → (uevTimerRemain timer ts).toInt = 2 ^ 31 - 1 ∧
      (uevTimerEscapes timer ts).toInt = 0) := by
  constructor
  · intro hexpires
    have hescapes := escapes_add_remain hexpires ts
    have hlt := timer.expires.toNat_lt
    have hlow := (uevTimerRemain timer ts).le_toInt
    have hhigh := uevTimerRemain_le hexpires ts
    rw [bmod_eq] at hescapes
    refine ⟨fun hlow hhigh => (toInt_uevTimerRemain_iff hexpires ts).mpr ⟨hlow, hhigh⟩, ?_, fun hfits => ?_⟩
    · split_ifs at hescapes <;> omega
    · split_ifs at hescapes <;> omega
  · intro hexpires
    rw [uevTimerRemain, uevTimerEscapes, if_pos hexpires, if_neg (not_not_intro hexpires)]
    decide

/-- A second before 2^32 - 1 milliseconds. -/
def nearlyNever : Timespec where
  sec := 4294966
  nsec := 295000000
  nsec_lt := by decide
  fits := by decide

/-- A timer that never expires has no reading, and three seconds overflow. -/
theorem reading_differs :
    msLeft (timerInsert u32Max boot) nearlyNever = 1000 ∧
    (uevTimerRemain (timerInsert u32Max boot) nearlyNever).toInt = 2147483647 ∧
    (uevTimerEscapes (timerInsert u32Max boot) nearlyNever).toInt = 0 ∧
    msLeft (timerInsert 3000 boot) boot = 3000 ∧
      (uevTimerRemain (timerInsert 3000 boot) boot).toInt = -1294 := by
  decide +kernel

theorem timer_readings_second :
    (uevTimerRemain (timerInsert 1000 boot) boot).toInt = msLeft (timerInsert 1000 boot) boot ∧
    (uevTimerEscapes (timerInsert 1000 boot) boot).toInt +
      (uevTimerRemain (timerInsert 1000 boot) boot).toInt =
      (timerInsert 1000 boot).expires.toNat ∧
    (uevTimerEscapes (timerInsert u32Max boot) boot).toInt = 0 := by
  have hms : msLeft (timerInsert 1000 boot) boot = 1000 := by decide +kernel
  have hexpires : (timerInsert 1000 boot).expires ≠ u32Max := by decide
  have hlow : -2147 ≤ msLeft (timerInsert 1000 boot) boot := by rw [hms]; decide
  have hhigh : msLeft (timerInsert 1000 boot) boot ≤ 2147 := by rw [hms]; decide
  obtain ⟨hremain, -, hadd⟩ := (timer_readings (timerInsert 1000 boot) boot).1 hexpires
  have hleft := hremain hlow hhigh
  have hsum : ((timerInsert 1000 boot).expires.toNat : ℤ) - (uevTimerRemain (timerInsert 1000 boot)
      boot).toInt < 2 ^ 31 := by
    rw [hleft, hms]
    decide
  exact ⟨hleft, hadd hsum, ((timer_readings (timerInsert u32Max boot) boot).2 rfl).2⟩

end Skp.Process
