import Skp.Foundations.Holder
import Skp.Process.WaitBitModel

/-! # No sleeper is forgotten

A caller that sleeps, or is about to, is on the queue. While its bit is clear, either another caller
for the bit will come to its next test of it, or the entry is still ahead of a walk for the bit. The
16-bit counters keep this only as long as no caller is signalled `2 ^ 16` times between two stores
to its `last_cond`. -/
namespace Skp.Process
set_option autoImplicit false
open Skp.Foundations

variable {W T : Type}

/-! ## The places -/

def WaitBitPc.locked : WaitBitPc T → Bool
  | .enqueued => true
  | .finishUnlock => true
  | .walk _ => true
  | .wakeXadd _ _ => true
  | .wakeFutex _ _ => true
  | .wakeRemove _ => true
  | .wakeUnlock => true
  | _ => false

/-- The entry of the thread is alive and may be on the queue. -/
def WaitBitPc.inCall : WaitBitPc T → Bool
  | .enqueue => true
  | .enqueued => true
  | .testBit => true
  | .readValue => true
  | .futex _ _ => true
  | .asleep _ _ => true
  | .woke => true
  | .latch _ => true
  | .testAndSet => true
  | .finish => true
  | .finishLock => true
  | _ => false

def WaitBitPc.queued : WaitBitPc T → Bool
  | .enqueued => true
  | .testBit => true
  | .readValue => true
  | .futex _ _ => true
  | .asleep _ _ => true
  | _ => false

/-- Past the test of the bit, on the way to sleep or asleep. -/
def WaitBitPc.sleeps : WaitBitPc T → Bool
  | .readValue => true
  | .futex _ _ => true
  | .asleep _ _ => true
  | _ => false

/-- The caller will test the bit before it sleeps: it is awake, and signalled if it is past the test. -/
def WaitBitPc.willing (cond lastCond : ℕ) : WaitBitPc T → Bool
  | .enqueue => true
  | .enqueued => true
  | .testBit => true
  | .readValue => !sameCond cond lastCond
  | .futex seen seenLast => !(sameCond cond seen && sameCond lastCond seenLast)
  | .woke => true
  | .latch _ => true
  | .testAndSet => true
  | _ => false

def WaitBitPc.pending : WaitBitPc T → Bool
  | .wakeCheck => true
  | .wakeLock => true
  | .walk _ => true
  | .wakeXadd _ _ => true
  | .wakeFutex _ _ => true
  | _ => false

def WaitBitPc.signals : WaitBitPc T → Option T
  | .wakeXadd w _ => some w
  | _ => none

/-- The entry of `t` is still ahead of the walk. -/
def WaitBitPc.ahead (t : T) : WaitBitPc T → Prop
  | .wakeCheck => True
  | .wakeLock => True
  | .walk rest => t ∈ rest
  | .wakeXadd w rest => t = w ∨ t ∈ rest
  | .wakeFutex w rest => t = w ∨ t ∈ rest
  | _ => False

variable {s s' : WaitBitState W T} {t u w x : T} {k : WaitBitKey W} {p p' : WaitBitPc T}

theorem pending_of_ahead (h : p.ahead t) : p.pending = true := by
  cases p <;> first | rfl | exact h.elim

theorem queued_of_sleeps (h : p.sleeps = true) : p.queued = true := by
  cases p <;> first | rfl | cases h

def Willing (s : WaitBitState W T) (k : WaitBitKey W) (u : T) : Prop :=
  s.key u = k ∧ (s.pc u).willing (s.cond u) (s.lastCond u) = true

/-- A caller for the bit `k` that sleeps or will, if nothing is done. -/
def Stuck (s : WaitBitState W T) (k : WaitBitKey W) (t : T) : Prop :=
  s.key t = k ∧ (s.pc t).sleeps = true ∧ (s.pc t).willing (s.cond t) (s.lastCond t) = false

def WaitBitOwned (s : WaitBitState W T) : Prop := ∀ t u k, s.owns t k = true → s.owns u k = true → t = u

/-- While a bit is clear and no waker of it is on its way, no caller for it is stuck unless another
one is willing. -/
def WaitBitAwake (s : WaitBitState W T) : Prop := ∀ k, s.bits k = false → ∀ t, Stuck s k t →
  (∀ u, s.key u = k → (s.pc u).pending = false) → ∃ u, u ≠ t ∧ Willing s k u

/-- The waiter that a waker signals has been signalled fewer than `2 ^ 16` times since the last
store to its `last_cond`. -/
def SignalsFit (s : WaitBitState W T) : WaitBitAct W T → Prop
  | .step t => ∀ w ∈ (s.pc t).signals, s.cond w + 1 < s.lastCond w + 2 ^ 16
  | _ => True

/-! ## The books -/

def SeenCounts (cond lastCond : ℕ) : WaitBitPc T → Prop
  | .futex seen seenLast => seen = lastCond ∧ seenLast = lastCond
  | .asleep seen seenLast => seen = lastCond ∧ seenLast = lastCond
  | .latch seen => lastCond ≤ seen ∧ seen ≤ cond
  | _ => True

def WalkOk (s : WaitBitState W T) (k : WaitBitKey W) : WaitBitPc T → Prop
  | .wakeXadd w _ => (s.pc w).queued = true → s.key w = k
  | .wakeFutex w _ => (s.pc w).queued = true → s.key w = k ∧ s.lastCond w < s.cond w
  | .wakeRemove w => (s.pc w).queued = false
  | _ => True

/-- A caller for the bit will test it, or every stuck one is ahead of a walk. -/
def Served (s : WaitBitState W T) (k : WaitBitKey W) : Prop :=
  (∃ u, Willing s k u) ∨ ∀ t, Stuck s k t → ∃ u, s.key u = k ∧ (s.pc u).ahead t

structure WaitBitInv (s : WaitBitState W T) : Prop where
  lock : HeldBy WaitBitPc.locked s.pc s.lock
  nodup : s.taskList.Nodup
  listed : ∀ t ∈ s.taskList, (s.pc t).inCall = true
  queued : ∀ t, (s.pc t).queued = true → t ∈ s.taskList
  fits : ∀ t ∈ s.taskList, s.lastCond t ≤ s.cond t ∧ s.cond t < s.lastCond t + 2 ^ 16
  seen : ∀ t ∈ s.taskList, SeenCounts (s.cond t) (s.lastCond t) (s.pc t)
  walk : ∀ u, WalkOk s (s.key u) (s.pc u)
  served : ∀ k, s.bits k = false → Served s k

theorem WaitBitInv.awake (h : WaitBitInv s) : WaitBitAwake s := by
  intro k hclear t hstuck hnone
  rcases h.served k hclear with ⟨u, hu⟩ | hahead
  · refine ⟨u, ?_, hu⟩
    rintro rfl
    have hno := hstuck.2.2
    rw [hu.2] at hno
    cases hno
  · obtain ⟨u, hkey, hu⟩ := hahead t hstuck
    have hno := hnone u hkey
    rw [pending_of_ahead hu] at hno
    cases hno

theorem sameCond_of_fits {a b : ℕ} (hle : b ≤ a) (hlt : a < b + 2 ^ 16) : sameCond a b = true ↔ a = b := by
  rw [sameCond, beq_iff_eq]
  omega

/-! ## A step of one thread -/

section Moves
variable [DecidableEq T]

/-- The thread `x` goes to `p'`; of what the invariant reads of the other threads nothing changes. -/
structure MovesTo (s s' : WaitBitState W T) (x : T) (p' : WaitBitPc T) : Prop where
  bits : s'.bits = s.bits
  key : s'.key = s.key
  cond : s'.cond = s.cond
  pc : s'.pc = Function.update s.pc x p'
  lastCond : ∀ u, u ≠ x → s'.lastCond u = s.lastCond u
  taskList : ∀ u, u ≠ x → (u ∈ s'.taskList ↔ u ∈ s.taskList)

theorem MovesTo.self (hm : MovesTo s s' x p') : s'.pc x = p' := by rw [hm.pc, Function.update_self]

theorem MovesTo.other (hm : MovesTo s s' x p') (hu : u ≠ x) : s'.pc u = s.pc u := by
  rw [hm.pc, Function.update_of_ne hu]

theorem MovesTo.willing (hm : MovesTo s s' x p') (hu : u ≠ x) : Willing s' k u ↔ Willing s k u := by
  rw [Willing, Willing, hm.key, hm.cond, hm.other hu, hm.lastCond u hu]

theorem MovesTo.stuck (hm : MovesTo s s' x p') (hu : u ≠ x) : Stuck s' k u ↔ Stuck s k u := by
  rw [Stuck, Stuck, hm.key, hm.cond, hm.other hu, hm.lastCond u hu]

theorem MovesTo.served_of_ne (hm : MovesTo s s' x p') (hk : s.key x ≠ k) (h : Served s k) : Served s' k := by
  have hne : ∀ u, s.key u = k → u ≠ x := by
    rintro u hu rfl
    exact hk hu
  rcases h with ⟨u, hu⟩ | hahead
  · exact Or.inl ⟨u, (hm.willing (hne u hu.1)).mpr hu⟩
  · refine Or.inr fun t ht => ?_
    have hkey : s.key t = k := hm.key ▸ ht.1
    obtain ⟨u, hu, hpast⟩ := hahead t ((hm.stuck (hne t hkey)).mp ht)
    refine ⟨u, hm.key ▸ hu, ?_⟩
    rw [hm.other (hne u hu)]
    exact hpast

/-- Its own bit: it stays willing or never was, it gets stuck only if it was, and nothing stuck
falls behind its walk. -/
theorem MovesTo.served_self (hm : MovesTo s s' x p') (hp : s.pc x = p)
    (hwilling : p.willing (s.cond x) (s.lastCond x) = true → p'.willing (s.cond x) (s'.lastCond x) = true)
    (hstuck : p'.sleeps = true → p'.willing (s.cond x) (s'.lastCond x) = false →
      p.sleeps = true ∧ p.willing (s.cond x) (s.lastCond x) = false)
    (hahead : ∀ t, Stuck s' (s.key x) t → p.ahead t → p'.ahead t) (h : Served s (s.key x)) :
    Served s' (s.key x) := by
  rcases h with ⟨u, hu⟩ | hall
  · refine Or.inl ⟨u, ?_⟩
    by_cases hux : u = x
    · subst hux
      have hold := hu.2
      rw [hp] at hold
      refine ⟨by rw [hm.key], ?_⟩
      rw [hm.self, hm.cond]
      exact hwilling hold
    · exact (hm.willing hux).mpr hu
  · refine Or.inr fun t ht => ?_
    have hold : Stuck s (s.key x) t := by
      by_cases htx : t = x
      · subst htx
        obtain ⟨-, hsleeps, hno⟩ := ht
        rw [hm.self] at hsleeps hno
        rw [hm.cond] at hno
        obtain ⟨hs, hn⟩ := hstuck hsleeps hno
        exact ⟨rfl, by rw [hp]; exact hs, by rw [hp]; exact hn⟩
      · exact (hm.stuck htx).mp ht
    obtain ⟨u, hkey, hpast⟩ := hall t hold
    refine ⟨u, by rw [hm.key, hkey], ?_⟩
    by_cases hux : u = x
    · subst hux
      rw [hm.self]
      rw [hp] at hpast
      exact hahead t ht hpast
    · rw [hm.other hux]
      exact hpast

theorem WaitBitInv.move (h : WaitBitInv s) (hm : MovesTo s s' x p') (hp : s.pc x = p)
    (hlock : HeldBy WaitBitPc.locked s'.pc s'.lock) (hnodup : s'.taskList.Nodup)
    (hlisted : x ∈ s'.taskList → p'.inCall = true)
    (hqueued : p'.queued = true → x ∈ s'.taskList)
    (hfits : x ∈ s'.taskList → s'.lastCond x ≤ s.cond x ∧ s.cond x < s'.lastCond x + 2 ^ 16)
    (hseen : x ∈ s'.taskList → SeenCounts (s.cond x) (s'.lastCond x) p') (hself : WalkOk s' (s.key x) p')
    (hothers : p'.queued = true → (p.queued = true ∧ s'.lastCond x = s.lastCond x) ∨ s.lock = none)
    (hserved : s.bits (s.key x) = false → Served s (s.key x) → Served s' (s.key x)) : WaitBitInv s' := by
  refine ⟨hlock, hnodup, fun t ht => ?_, fun t ht => ?_, fun t ht => ?_, fun t ht => ?_,
    fun u => ?_, fun k hk => ?_⟩
  · by_cases htx : t = x
    · subst htx
      rw [hm.self]
      exact hlisted ht
    · rw [hm.other htx]
      exact h.listed t ((hm.taskList t htx).mp ht)
  · by_cases htx : t = x
    · subst htx
      rw [hm.self] at ht
      exact hqueued ht
    · rw [hm.other htx] at ht
      exact (hm.taskList t htx).mpr (h.queued t ht)
  · by_cases htx : t = x
    · subst htx
      rw [hm.cond]
      exact hfits ht
    · rw [hm.cond, hm.lastCond t htx]
      exact h.fits t ((hm.taskList t htx).mp ht)
  · by_cases htx : t = x
    · subst htx
      rw [hm.self, hm.cond]
      exact hseen ht
    · rw [hm.other htx, hm.cond, hm.lastCond t htx]
      exact h.seen t ((hm.taskList t htx).mp ht)
  · by_cases hux : u = x
    · subst hux
      rw [hm.self, hm.key]
      exact hself
    · rw [hm.other hux, hm.key]
      have hold := h.walk u
      -- only a walk says anything here, and it has the lock
      have hframe : (s.pc u).locked = true → ∀ w, (s'.pc w).queued = true →
          (s.pc w).queued = true ∧ s'.lastCond w = s.lastCond w := by
        intro hlocked w hw
        by_cases hwx : w = x
        · subst hwx
          rw [hm.self] at hw
          rcases hothers hw with hstay | hfree
          · rw [hp]
            exact hstay
          · have hno := (h.lock u).mp hlocked
            rw [hfree] at hno
            cases hno
        · rw [hm.other hwx] at hw
          exact ⟨hw, hm.lastCond w hwx⟩
      cases hpu : s.pc u with
      | wakeXadd w rest =>
        rw [hpu] at hold hframe
        intro hw
        rw [hm.key]
        exact hold (hframe rfl w hw).1
      | wakeFutex w rest =>
        rw [hpu] at hold hframe
        intro hw
        obtain ⟨hwas, hlast⟩ := hframe rfl w hw
        rw [hm.key, hm.cond, hlast]
        exact hold hwas
      | wakeRemove w =>
        rw [hpu] at hold hframe
        change (s'.pc w).queued = false
        rw [← Bool.not_eq_true]
        intro hw
        have hno : (s.pc w).queued = false := hold
        rw [(hframe rfl w hw).1] at hno
        cases hno
      | _ => trivial
  · rw [hm.bits] at hk
    by_cases hkx : s.key x = k
    · subst hkx
      exact hserved hk (h.served _ hk)
    · exact hm.served_of_ne hkx (h.served k hk)

theorem movesTo_goto : MovesTo s (s.goto x p') x p' :=
  ⟨rfl, rfl, rfl, rfl, fun _ _ => rfl, fun _ _ => Iff.rfl⟩

theorem WaitBitInv.goto (h : WaitBitInv s) (hp : s.pc x = p) (hlocked : p'.locked = p.locked)
    (hlisted : x ∈ s.taskList → p'.inCall = true) (hqueued : p'.queued = true → p.queued = true)
    (hseen : x ∈ s.taskList → SeenCounts (s.cond x) (s.lastCond x) p')
    (hself : WalkOk (s.goto x p') (s.key x) p')
    (hserved : s.bits (s.key x) = false → Served s (s.key x) → Served (s.goto x p') (s.key x)) :
    WaitBitInv (s.goto x p') :=
  h.move movesTo_goto hp (h.lock.stay (by rw [hlocked, hp])) h.nodup hlisted
    (fun hq => h.queued x (by rw [hp]; exact hqueued hq)) (h.fits x) hseen hself
      (fun hq => Or.inl ⟨hqueued hq, rfl⟩) hserved

theorem served_caller (hp : s.pc x = p) (hcall : p.pending = false)
    (hwilling : p.willing (s.cond x) (s.lastCond x) = true → p'.willing (s.cond x) (s.lastCond x) = true)
    (hstuck : p'.sleeps = true → p'.willing (s.cond x) (s.lastCond x) = false →
      p.sleeps = true ∧ p.willing (s.cond x) (s.lastCond x) = false) (h : Served s (s.key x)) :
    Served (s.goto x p') (s.key x) := by
  refine movesTo_goto.served_self hp hwilling hstuck (fun t _ hahead => ?_) h
  rw [pending_of_ahead hahead] at hcall
  cases hcall

theorem served_walker (hp : s.pc x = p) (hnot : p.willing (s.cond x) (s.lastCond x) = false)
    (hawake : p'.sleeps = false)
    (hahead : ∀ t, Stuck (s.goto x p') (s.key x) t → p.ahead t → p'.ahead t) (h : Served s (s.key x)) :
    Served (s.goto x p') (s.key x) := by
  refine movesTo_goto.served_self hp (fun hw => ?_) (fun hs => ?_) hahead h
  · rw [hnot] at hw
    cases hw
  · rw [hawake] at hs
    cases hs

/-! ## The steps of a caller -/

theorem WaitBitInv.testBit (h : WaitBitInv s) (hp : s.pc x = .testBit) :
    WaitBitInv (s.goto x (if s.bits (s.key x) = true then .readValue else .testAndSet)) := by
  split
  · rename_i hset
    refine h.goto hp rfl (fun _ => rfl) (fun _ => rfl) (fun _ => trivial) trivial fun hclear => ?_
    rw [hset] at hclear
    cases hclear
  · exact h.goto hp rfl (fun _ => rfl) (fun hq => Bool.noConfusion hq) (fun _ => trivial) trivial fun _ hs =>
      served_caller hp rfl (fun _ => rfl) (fun hsleep => Bool.noConfusion hsleep) hs

theorem WaitBitInv.doze (h : WaitBitInv s) (hp : s.pc x = p) (hlocked : p.locked = false)
    (hpending : p.pending = false)
    (hqueued : p.queued = true) (hlocked' : p'.locked = false) (hcall' : p'.inCall = true)
    (hseen : SeenCounts (s.cond x) (s.lastCond x) p') (hself : WalkOk (s.goto x p') (s.key x) p')
    (hwilling : p.willing (s.cond x) (s.lastCond x) = true → p'.willing (s.cond x) (s.lastCond x) = true)
    (hstuck : p'.sleeps = true → p'.willing (s.cond x) (s.lastCond x) = false →
      p.sleeps = true ∧ p.willing (s.cond x) (s.lastCond x) = false) : WaitBitInv (s.goto x p') :=
  h.goto hp (by rw [hlocked, hlocked']) (fun _ => hcall') (fun _ => hqueued) (fun _ => hseen)
    hself fun _ hs =>
    served_caller hp hpending hwilling hstuck hs

theorem WaitBitInv.readValue (h : WaitBitInv s) (hp : s.pc x = .readValue) :
    WaitBitInv (s.goto x (if sameCond (s.cond x) (s.lastCond x) = true then
      .futex (s.cond x) (s.lastCond x) else .woke)) := by
  have hlisted := h.queued x (by rw [hp]; rfl)
  split
  · rename_i hsame
    obtain ⟨hle, hlt⟩ := h.fits x hlisted
    have heq := (sameCond_of_fits hle hlt).mp hsame
    refine h.doze hp rfl rfl rfl rfl rfl ⟨heq, rfl⟩ trivial (fun hw => ?_) fun _ _ => ⟨rfl, ?_⟩
    · rw [WaitBitPc.willing, hsame] at hw
      cases hw
    · rw [WaitBitPc.willing, hsame]
      rfl
  · exact h.doze hp rfl rfl rfl rfl rfl trivial trivial (fun _ => rfl) fun hsleep => Bool.noConfusion hsleep

theorem WaitBitInv.futex {seen seenLast : ℕ} (h : WaitBitInv s) (hp : s.pc x = .futex seen seenLast) :
    WaitBitInv (s.goto x (if sameCond (s.cond x) seen = true ∧ sameCond (s.lastCond x) seenLast =
      true then .asleep seen seenLast
      else .woke)) := by
  have hlisted := h.queued x (by rw [hp]; rfl)
  have hseen := h.seen x hlisted
  rw [hp] at hseen
  split
  · rename_i hsame
    have hno : (WaitBitPc.futex seen seenLast : WaitBitPc T).willing (s.cond x) (s.lastCond x) = false := by
      rw [WaitBitPc.willing, hsame.1, hsame.2]
      rfl
    refine h.doze hp rfl rfl rfl rfl rfl hseen trivial (fun hw => ?_) fun _ _ => ⟨rfl, hno⟩
    rw [hno] at hw
    cases hw
  · exact h.doze hp rfl rfl rfl rfl rfl trivial trivial (fun _ => rfl) fun hsleep => Bool.noConfusion hsleep

theorem WaitBitInv.interrupt {seen seenLast : ℕ} (h : WaitBitInv s) (hp : s.pc x = .asleep seen seenLast) :
    WaitBitInv (s.goto x (.futex seen seenLast)) := by
  have hseen := h.seen x (h.queued x (by rw [hp]; rfl))
  rw [hp] at hseen
  exact h.doze hp rfl rfl rfl rfl rfl hseen trivial (fun hw => Bool.noConfusion hw) fun _ _ => ⟨rfl, rfl⟩

theorem WaitBitInv.rouse {seen seenLast : ℕ} (h : WaitBitInv s) (hp : s.pc x = .asleep seen seenLast) :
    WaitBitInv (s.goto x .woke) :=
  h.doze hp rfl rfl rfl rfl rfl trivial trivial (fun _ => rfl) fun hsleep => Bool.noConfusion hsleep

theorem WaitBitInv.readCond (h : WaitBitInv s) (hp : s.pc x = .woke) :
    WaitBitInv (s.goto x (.latch (s.cond x))) :=
  h.goto hp rfl (fun _ => rfl) (fun hq => Bool.noConfusion hq) (fun hx => ⟨(h.fits x hx).1, le_rfl⟩)
    trivial fun _ hs =>
    served_caller hp rfl (fun _ => rfl) (fun hsleep => Bool.noConfusion hsleep) hs

theorem WaitBitInv.writeLast {seen : ℕ} (h : WaitBitInv s) (hp : s.pc x = .latch seen) :
    WaitBitInv ({ s with lastCond := Function.update s.lastCond x seen }.goto x .testAndSet) := by
  have hm : MovesTo s ({ s with lastCond := Function.update s.lastCond x seen }.goto x .testAndSet)
      x .testAndSet :=
    ⟨rfl, rfl, rfl, rfl, fun u hu => Function.update_of_ne hu .., fun _ _ => Iff.rfl⟩
  have hlast : ({ s with lastCond := Function.update s.lastCond x seen }.goto x
      .testAndSet).lastCond x = seen :=
    Function.update_self ..
  refine h.move hm hp (h.lock.stay (by rw [hp]; rfl)) h.nodup (fun _ => rfl)
    (fun hq => Bool.noConfusion hq) (fun hx => ?_)
    (fun _ => trivial) trivial (fun hq => Bool.noConfusion hq) fun _ hs => ?_
  · have hfits := h.fits x hx
    have hseen := h.seen x hx
    rw [hp] at hseen
    obtain ⟨hle, hle'⟩ := hseen
    rw [hlast]
    omega
  · exact hm.served_self hp (fun _ => rfl) (fun hsleep => Bool.noConfusion hsleep)
      (fun _ _ hahead => hahead.elim) hs

theorem WaitBitInv.retry (h : WaitBitInv s) (hp : s.pc x = .testAndSet) : WaitBitInv (s.goto x .enqueue) :=
  h.goto hp rfl (fun _ => rfl) (fun hq => Bool.noConfusion hq) (fun _ => trivial) trivial fun _ hs =>
    served_caller hp rfl (fun _ => rfl) (fun hsleep => Bool.noConfusion hsleep) hs

theorem WaitBitInv.finish (h : WaitBitInv s) (hp : s.pc x = .finish) :
    WaitBitInv (s.goto x (if x ∈ s.taskList then .finishLock else .idle)) := by
  split
  · exact h.goto hp rfl (fun _ => rfl) (fun hq => Bool.noConfusion hq) (fun _ => trivial) trivial fun _ hs =>
      served_caller hp rfl (fun hw => Bool.noConfusion hw) (fun hsleep => Bool.noConfusion hsleep) hs
  · rename_i hout
    exact h.goto hp rfl (fun hx => absurd hx hout) (fun hq => Bool.noConfusion hq)
      (fun _ => trivial) trivial fun _ hs =>
      served_caller hp rfl (fun hw => Bool.noConfusion hw) (fun hsleep => Bool.noConfusion hsleep) hs

/-! ## The lock of the queue -/

omit [DecidableEq T] in
theorem WaitBitInv.noLock (h : WaitBitInv s) (hfree : s.lock = none) :
    HeldBy WaitBitPc.locked s.pc none := hfree ▸ h.lock

theorem WaitBitInv.addTail (h : WaitBitInv s) (hp : s.pc x = .enqueue) (hfree : s.lock = none) :
    WaitBitInv ({ s.addTail x with lock := some x }.goto x .enqueued) := by
  have hserved : ∀ {s'}, MovesTo s s' x .enqueued → Served s (s.key x) → Served s' (s.key x) := fun hm hs =>
    hm.served_self hp (fun _ => rfl) (fun hsleep => Bool.noConfusion hsleep)
      (fun _ _ hahead => hahead.elim) hs
  by_cases hlisted : x ∈ s.taskList
  · have hsame : s.addTail x = s := if_pos hlisted
    rw [hsame]
    have hm : MovesTo s ({ s with lock := some x }.goto x .enqueued) x .enqueued :=
      ⟨rfl, rfl, rfl, rfl, fun _ _ => rfl, fun _ _ => Iff.rfl⟩
    exact h.move hm hp ((h.noLock hfree).enter rfl) h.nodup (fun _ => rfl) (fun _ => hlisted)
      (h.fits x) (fun _ => trivial)
      trivial (fun _ => Or.inr hfree) fun _ => hserved hm
  · have hnew : s.addTail x = { s with
        taskList := s.taskList ++ [x], lastCond := Function.update s.lastCond x (s.cond x) } := if_neg hlisted
    rw [hnew]
    refine h.move ⟨rfl, rfl, rfl, rfl, fun u hu => Function.update_of_ne hu .., fun u hu => ?_⟩ hp
      ((h.noLock hfree).enter rfl) ?_ (fun _ => rfl) (fun _ => ?_) (fun _ => ?_) (fun _ => trivial) trivial
      (fun _ => Or.inr hfree) fun _ =>
        hserved ⟨rfl, rfl, rfl, rfl, fun u hu => Function.update_of_ne hu .., fun u hu => ?_⟩
    · exact List.mem_append.trans (or_iff_left fun hmem => hu (List.mem_singleton.mp hmem))
    · exact List.nodup_append.mpr ⟨h.nodup, List.nodup_singleton x, fun u hu v hv heq =>
        hlisted (List.mem_singleton.mp hv ▸ heq ▸ hu)⟩
    · exact List.mem_append_right _ (List.mem_singleton_self x)
    · change Function.update s.lastCond x (s.cond x) x ≤ s.cond x ∧
        s.cond x < Function.update s.lastCond x (s.cond x) x + 2 ^ 16
      rw [Function.update_self]
      omega
    · exact List.mem_append.trans (or_iff_left fun hmem => hu (List.mem_singleton.mp hmem))

theorem WaitBitInv.unlock (h : WaitBitInv s) (hp : s.pc x = p) (hlocked : p.locked = true)
    (hlocked' : p'.locked = false)
    (hlisted : x ∈ s.taskList → p'.inCall = true) (hqueued : p'.queued = true → p.queued = true)
    (hseen : SeenCounts (s.cond x) (s.lastCond x) p')
    (hself : WalkOk ({ s with lock := none }.goto x p') (s.key x) p')
    (hwilling : p.willing (s.cond x) (s.lastCond x) = true → p'.willing (s.cond x) (s.lastCond x) = true)
    (hawake : p'.sleeps = false) (hdone : ∀ t, ¬ p.ahead t) :
    WaitBitInv ({ s with lock := none }.goto x p') := by
  have hmine : s.lock = some x := (h.lock x).mp (by rw [hp, hlocked])
  have hheld : HeldBy WaitBitPc.locked s.pc (some x) := hmine ▸ h.lock
  have hm : MovesTo s ({ s with lock := none }.goto x p') x p' :=
    ⟨rfl, rfl, rfl, rfl, fun _ _ => rfl, fun _ _ => Iff.rfl⟩
  refine h.move hm hp (hheld.leave hlocked') h.nodup hlisted
    (fun hq => h.queued x (by rw [hp]; exact hqueued hq)) (h.fits x)
    (fun _ => hseen) hself (fun hq => Or.inl ⟨hqueued hq, rfl⟩) fun _ hs => ?_
  refine hm.served_self hp hwilling (fun hsleep => ?_) (fun t _ hahead => absurd hahead (hdone t)) hs
  rw [hawake] at hsleep
  cases hsleep

theorem WaitBitInv.delete (h : WaitBitInv s) (hp : s.pc x = .finishLock) (hfree : s.lock = none) :
    WaitBitInv ({ s with lock := some x, taskList := s.taskList.erase x }.goto x .finishUnlock) := by
  have hm : MovesTo s
      ({ s with lock := some x, taskList := s.taskList.erase x }.goto x .finishUnlock) x
      .finishUnlock :=
    ⟨rfl, rfl, rfl, rfl, fun _ _ => rfl, fun u hu => List.mem_erase_of_ne hu⟩
  have hout : x ∉ s.taskList.erase x := h.nodup.not_mem_erase
  refine h.move hm hp ((h.noLock hfree).enter rfl) (h.nodup.erase x) (fun hx => absurd hx hout)
    (fun hq => Bool.noConfusion hq)
    (fun hx => absurd hx hout) (fun hx => absurd hx hout) trivial
      (fun hq => Bool.noConfusion hq) fun _ hs => ?_
  exact hm.served_self hp (fun hw => Bool.noConfusion hw) (fun hsleep => Bool.noConfusion hsleep)
    (fun _ _ hahead => hahead.elim)
    hs

/-! ## The bits -/

variable [DecidableEq W]

omit [DecidableEq T] in
theorem WaitBitInv.setBits (h : WaitBitInv s) (owns : T → WaitBitKey W → Bool) (k : WaitBitKey W) :
    WaitBitInv { s with bits := Function.update s.bits k true, owns := owns } := by
  refine ⟨h.lock, h.nodup, h.listed, h.queued, h.fits, h.seen, fun u => ?_, fun k' hk' => ?_⟩
  · have hu := h.walk u
    cases hpu : s.pc u <;> rw [hpu] at hu <;> exact hu
  · have hclear : s.bits k' = false := by
      by_cases hkk : k' = k
      · subst hkk
        simp at hk'
      · simpa [hkk] using hk'
    exact h.served k' hclear

theorem WaitBitInv.takeBit (h : WaitBitInv s) (hp : s.pc x = .testAndSet) :
    WaitBitInv ((s.take x (s.key x)).goto x .finish) := by
  have hset := h.setBits (Function.update s.owns x (Function.update (s.owns x) (s.key x) true)) (s.key x)
  refine hset.goto hp rfl (fun _ => rfl) (fun hq => Bool.noConfusion hq) (fun _ => trivial)
    trivial fun hclear => ?_
  simp at hclear

/-! ## The steps of a waker -/

omit [DecidableEq T] in
theorem not_inCall (h : p.inCall = false) :
    p.queued = false ∧ p.sleeps = false ∧ ∀ c l, p.willing c l = false := by
  cases p <;> first | exact ⟨rfl, rfl, fun _ _ => rfl⟩ | cases h

omit [DecidableEq T] [DecidableEq W] in
theorem WaitBitInv.not_listed (h : WaitBitInv s) (hp : s.pc x = p) (hcall : p.inCall = false) :
    x ∉ s.taskList := by
  intro hx
  have hin := h.listed x hx
  rw [hp, hcall] at hin
  cases hin

section
omit [DecidableEq W]

theorem WaitBitInv.stuck_listed (h : WaitBitInv s) (hm : MovesTo s s' x p')
    (hp' : p'.inCall = false) (ht : Stuck s' k t) :
    t ∈ s.taskList := by
  have htx : t ≠ x := by
    rintro rfl
    have hno := (not_inCall hp').2.1
    have hyes := ht.2.1
    rw [hm.self, hno] at hyes
    cases hyes
  exact h.queued t (queued_of_sleeps ((hm.stuck htx).mp ht).2.1)

theorem WaitBitInv.stride (h : WaitBitInv s) (hp : s.pc x = p) (hcall : p.inCall = false)
    (hcall' : p'.inCall = false)
    (hlocked : p'.locked = p.locked) (hself : WalkOk (s.goto x p') (s.key x) p')
    (hahead : s.bits (s.key x) = false → ∀ t, Stuck (s.goto x p') (s.key x) t → p.ahead t → p'.ahead t) :
    WaitBitInv (s.goto x p') := by
  have hout := h.not_listed hp hcall
  refine h.goto hp hlocked (fun hx => absurd hx hout) (fun hq => ?_) (fun hx => absurd hx hout)
    hself fun hclear hs => ?_
  · rw [(not_inCall hcall').1] at hq
    cases hq
  · exact served_walker hp ((not_inCall hcall).2.2 _ _) (not_inCall hcall').2.1 (hahead hclear) hs

theorem WaitBitInv.wakeCheck (h : WaitBitInv s) (hp : s.pc x = .wakeCheck) :
    WaitBitInv (s.goto x (if s.taskList = [] then .idle else .wakeLock)) := by
  split
  · rename_i hempty
    refine h.stride hp rfl rfl rfl trivial fun _ t ht _ => ?_
    have hlisted := h.stuck_listed movesTo_goto rfl ht
    rw [hempty] at hlisted
    cases hlisted
  · exact h.stride hp rfl rfl rfl trivial fun _ _ _ _ => trivial

theorem WaitBitInv.wakeLock (h : WaitBitInv s) (hp : s.pc x = .wakeLock) (hfree : s.lock = none) :
    WaitBitInv ({ s with lock := some x }.goto x (.walk s.taskList)) := by
  have hm : MovesTo s ({ s with lock := some x }.goto x (.walk s.taskList)) x (.walk s.taskList) :=
    ⟨rfl, rfl, rfl, rfl, fun _ _ => rfl, fun _ _ => Iff.rfl⟩
  have hout := h.not_listed hp rfl
  refine h.move hm hp ((h.noLock hfree).enter rfl) h.nodup (fun hx => absurd hx hout)
    (fun hq => Bool.noConfusion hq)
    (fun hx => absurd hx hout) (fun hx => absurd hx hout) trivial
      (fun hq => Bool.noConfusion hq) fun _ hs => ?_
  exact hm.served_self hp (fun hw => Bool.noConfusion hw) (fun hsleep => Bool.noConfusion hsleep)
    (fun t ht _ => h.stuck_listed hm rfl ht) hs

end

theorem WaitBitInv.walkOn {rest : List T} (h : WaitBitInv s) (hp : s.pc x = .walk (w :: rest)) :
    WaitBitInv (s.goto x (if keyMismatch s x w then .walk rest else .wakeXadd w rest)) := by
  split
  · rename_i hmismatch
    refine h.stride hp rfl rfl rfl trivial fun hclear t ht hahead => ?_
    refine (List.mem_cons.mp hahead).resolve_left ?_
    rintro rfl
    have hkey : s.key t = s.key x := ht.1
    rcases hmismatch with hflags | hbit | hset
    · exact hflags (congrArg WaitBitKey.flags hkey)
    · exact hbit (congrArg WaitBitKey.bitNr hkey)
    · rw [hclear] at hset
      cases hset
  · rename_i hmatch
    refine h.stride hp rfl rfl rfl (fun _ => ?_) fun _ t _ hahead => List.mem_cons.mp hahead
    simp only [keyMismatch, not_or, not_not] at hmatch
    change s.key w = s.key x
    cases hw : s.key w
    cases hx : s.key x
    rw [hw, hx] at hmatch
    obtain ⟨hflags, hbit, -⟩ := hmatch
    cases hflags
    cases hbit
    rfl

omit [DecidableEq W] in
theorem WaitBitInv.walkEnd (h : WaitBitInv s) (hp : s.pc x = .walk []) : WaitBitInv (s.goto x .wakeUnlock) :=
  h.stride hp rfl rfl rfl trivial fun _ _ _ hahead => absurd hahead List.not_mem_nil

omit [DecidableEq T] [DecidableEq W] in
theorem willing_signalled (h : WaitBitInv s) (hfit : s.cond w + 1 < s.lastCond w + 2 ^ 16)
    (hw : (s.pc w).willing (s.cond w) (s.lastCond w) = true) :
    (s.pc w).willing (s.cond w + 1) (s.lastCond w) = true := by
  cases hpw : s.pc w with
  | readValue =>
    obtain ⟨hle, hlt⟩ := h.fits w (h.queued w (by rw [hpw]; rfl))
    have hno : sameCond (s.cond w + 1) (s.lastCond w) = false := by
      rw [← Bool.not_eq_true, sameCond_of_fits (by omega) hfit]
      omega
    rw [WaitBitPc.willing, hno]
    rfl
  | futex seen seenLast =>
    have hlisted := h.queued w (by rw [hpw]; rfl)
    obtain ⟨hle, hlt⟩ := h.fits w hlisted
    have hseen := h.seen w hlisted
    rw [hpw] at hseen
    have hno : sameCond (s.cond w + 1) seen = false := by
      rw [← Bool.not_eq_true, hseen.1, sameCond_of_fits (by omega) hfit]
      omega
    rw [WaitBitPc.willing, hno]
    rfl
  | _ =>
    rw [hpw] at hw
    exact hw

section
omit [DecidableEq W]

theorem WaitBitInv.signal (h : WaitBitInv s) (hfit : s.cond w + 1 < s.lastCond w + 2 ^ 16) :
    WaitBitInv { s with cond := Function.update s.cond w (s.cond w + 1) } := by
  have hcond : ∀ u, s.cond u ≤ Function.update s.cond w (s.cond w + 1) u := by
    intro u
    by_cases hu : u = w
    · subst hu
      rw [Function.update_self]
      exact Nat.le_succ _
    · rw [Function.update_of_ne hu]
  have hwilling : ∀ {u}, (s.pc u).willing (s.cond u) (s.lastCond u) = true →
      (s.pc u).willing (Function.update s.cond w (s.cond w + 1) u) (s.lastCond u) = true := by
    intro u hold
    by_cases hu : u = w
    · subst hu
      rw [Function.update_self]
      exact willing_signalled h hfit hold
    · rw [Function.update_of_ne hu]
      exact hold
  refine ⟨h.lock, h.nodup, h.listed, h.queued, fun t ht => ?_, fun t ht => ?_, fun u => ?_, fun k hk => ?_⟩
  · refine ⟨(h.fits t ht).1.trans (hcond t), ?_⟩
    by_cases htw : t = w
    · subst htw
      simpa using hfit
    · simpa [htw] using (h.fits t ht).2
  · have hseen := h.seen t ht
    cases hpt : s.pc t with
    | latch seen =>
      rw [hpt] at hseen
      exact ⟨hseen.1, hseen.2.trans (hcond t)⟩
    | _ =>
      rw [hpt] at hseen
      exact hseen
  · have hold := h.walk u
    cases hpu : s.pc u with
    | wakeFutex v rest =>
      rw [hpu] at hold
      exact fun hv => ⟨(hold hv).1, (hold hv).2.trans_le (hcond v)⟩
    | _ =>
      rw [hpu] at hold
      exact hold
  · refine (h.served k hk).imp (fun ⟨u, hkey, hu⟩ => ⟨u, hkey, hwilling hu⟩) fun hall t ht =>
      hall t ⟨ht.1, ht.2.1, ?_⟩
    rw [← Bool.not_eq_true]
    intro hyes
    have hno := ht.2.2
    rw [hwilling hyes] at hno
    cases hno

theorem WaitBitInv.wakeXadd {rest : List T} (h : WaitBitInv s) (hp : s.pc x = .wakeXadd w rest)
    (hfit : s.cond w + 1 < s.lastCond w + 2 ^ 16) :
    WaitBitInv ({ s with cond := Function.update s.cond w (s.cond w + 1) }.goto x (.wakeFutex w rest)) := by
  have hwalk := h.walk x
  rw [hp] at hwalk
  refine (h.signal hfit).stride (p := .wakeXadd w rest) hp rfl rfl rfl (fun hq => ?_)
    fun _ _ _ hahead => hahead
  have hwx : w ≠ x := by
    rintro rfl
    have hno : (Function.update s.pc w (.wakeFutex w rest) w).queued = true := hq
    rw [Function.update_self] at hno
    cases hno
  have hqueued : (s.pc w).queued = true := by
    have hsame : (Function.update s.pc x (.wakeFutex w rest) w).queued = true := hq
    rwa [Function.update_of_ne hwx] at hsame
  refine ⟨hwalk hqueued, ?_⟩
  change s.lastCond w < Function.update s.cond w (s.cond w + 1) w
  rw [Function.update_self]
  exact Nat.lt_succ_of_le (h.fits w (h.queued w hqueued)).1

theorem WaitBitInv.wakeSleeper {seen seenLast : ℕ} {rest : List T} (h : WaitBitInv s)
    (hp : s.pc x = .wakeFutex w rest)
    (hw : s.pc w = .asleep seen seenLast) : WaitBitInv ((s.goto w .woke).goto x (.wakeRemove w)) := by
  have hxw : x ≠ w := by
    rintro rfl
    rw [hp] at hw
    cases hw
  have hwalk := h.walk x
  rw [hp] at hwalk
  have hkey : s.key w = s.key x := (hwalk (by rw [hw]; rfl)).1
  have hp₁ : (s.goto w .woke).pc x = .wakeFutex w rest := (Function.update_of_ne hxw ..).trans hp
  have hpc : ((s.goto w .woke).goto x (.wakeRemove w)).pc w = .woke :=
    (Function.update_of_ne hxw.symm ..).trans (Function.update_self ..)
  have hout := (h.rouse hw).not_listed hp₁ rfl
  refine (h.rouse hw).goto hp₁ rfl (fun hx => absurd hx hout) (fun hq => Bool.noConfusion hq)
    (fun hx => absurd hx hout) ?_
    fun _ _ => Or.inl ⟨w, hkey, ?_⟩
  · change (((s.goto w .woke).goto x (.wakeRemove w)).pc w).queued = false
    rw [hpc]
    rfl
  · rw [hpc]
    rfl

theorem WaitBitInv.wakeAwake {rest : List T} (h : WaitBitInv s) (hp : s.pc x = .wakeFutex w rest)
    (hw : ∀ seen seenLast, s.pc w ≠ .asleep seen seenLast) : WaitBitInv (s.goto x (.walk rest)) := by
  have hwalk := h.walk x
  rw [hp] at hwalk
  refine h.stride hp rfl rfl rfl trivial fun _ t ht hahead => hahead.resolve_left ?_
  rintro rfl
  have htx : t ≠ x := by
    rintro rfl
    have hsleeps := ht.2.1
    rw [movesTo_goto.self] at hsleeps
    cases hsleeps
  obtain ⟨-, hsleeps, hno⟩ := (movesTo_goto.stuck htx).mp ht
  have hqueued := queued_of_sleeps hsleeps
  have hlisted := h.queued t hqueued
  obtain ⟨-, hlt⟩ := hwalk hqueued
  obtain ⟨hle, hfit⟩ := h.fits t hlisted
  have hdiffer : sameCond (s.cond t) (s.lastCond t) = false := by
    rw [← Bool.not_eq_true, sameCond_of_fits hle hfit]
    omega
  cases hpt : s.pc t with
  | readValue =>
    rw [hpt, WaitBitPc.willing, hdiffer] at hno
    cases hno
  | futex seen seenLast =>
    have hseen := h.seen t hlisted
    rw [hpt] at hseen
    rw [hpt, WaitBitPc.willing, hseen.1, hdiffer] at hno
    cases hno
  | asleep seen seenLast => exact hw seen seenLast hpt
  | _ =>
    rw [hpt] at hsleeps
    cases hsleeps

theorem WaitBitInv.dequeue (h : WaitBitInv s) (hw : (s.pc w).queued = false) :
    WaitBitInv { s with taskList := s.taskList.erase w } := by
  refine ⟨h.lock, h.nodup.erase w, fun t ht => h.listed t (List.mem_of_mem_erase ht), fun t ht => ?_,
    fun t ht => h.fits t (List.mem_of_mem_erase ht), fun t ht =>
    h.seen t (List.mem_of_mem_erase ht), fun u => ?_, h.served⟩
  · refine (List.mem_erase_of_ne ?_).mpr (h.queued t ht)
    rintro rfl
    rw [hw] at ht
    cases ht
  · have hu := h.walk u
    cases hpu : s.pc u <;> rw [hpu] at hu <;> exact hu

theorem WaitBitInv.wakeRemove (h : WaitBitInv s) (hp : s.pc x = .wakeRemove w) :
    WaitBitInv ({ s with taskList := s.taskList.erase w }.goto x .wakeUnlock) := by
  have hwalk := h.walk x
  rw [hp] at hwalk
  exact (h.dequeue hwalk).stride (p := .wakeRemove w) hp rfl rfl rfl trivial fun _ _ _ hahead => hahead.elim

end

/-! ## Calls -/

omit [DecidableEq W] in
theorem WaitBitInv.redefine {key : T → WaitBitKey W} {cond lastCond : T → ℕ} (h : WaitBitInv s)
    (hp : s.pc x = .idle)
    (hkey : ∀ u, u ≠ x → key u = s.key u) (hcond : ∀ u, u ≠ x → cond u = s.cond u)
    (hlast : ∀ u, u ≠ x → lastCond u = s.lastCond u) :
    WaitBitInv { s with key := key, cond := cond, lastCond := lastCond } := by
  have hout := h.not_listed hp rfl
  have hlisted : ∀ {t}, t ∈ s.taskList → t ≠ x := by
    rintro t ht rfl
    exact hout ht
  have hqueued : ∀ {t}, (s.pc t).queued = true → t ≠ x := fun ht => hlisted (h.queued _ ht)
  refine ⟨h.lock, h.nodup, h.listed, h.queued, fun t ht => ?_, fun t ht => ?_, fun u => ?_, fun k hk => ?_⟩
  · change lastCond t ≤ cond t ∧ cond t < lastCond t + 2 ^ 16
    rw [hcond t (hlisted ht), hlast t (hlisted ht)]
    exact h.fits t ht
  · change SeenCounts (cond t) (lastCond t) (s.pc t)
    rw [hcond t (hlisted ht), hlast t (hlisted ht)]
    exact h.seen t ht
  · by_cases hux : u = x
    · subst hux
      change WalkOk _ (key u) (s.pc u)
      rw [hp]
      trivial
    · change WalkOk _ (key u) (s.pc u)
      rw [hkey u hux]
      have hold := h.walk u
      cases hpu : s.pc u with
      | wakeXadd w rest =>
        rw [hpu] at hold
        exact fun hw => (hkey w (hqueued hw)).trans (hold hw)
      | wakeFutex w rest =>
        rw [hpu] at hold
        intro hw
        change key w = s.key u ∧ lastCond w < cond w
        rw [hkey w (hqueued hw), hlast w (hqueued hw), hcond w (hqueued hw)]
        exact hold hw
      | _ =>
        rw [hpu] at hold
        exact hold
  · have hsame : ∀ u, u ≠ x → key u = s.key u ∧ cond u = s.cond u ∧ lastCond u = s.lastCond u := fun u hu =>
      ⟨hkey u hu, hcond u hu, hlast u hu⟩
    rcases h.served k hk with ⟨u, hku, hu⟩ | hall
    · have hux : u ≠ x := by
        rintro rfl
        rw [hp] at hu
        cases hu
      obtain ⟨h₁, h₂, h₃⟩ := hsame u hux
      refine Or.inl ⟨u, h₁.trans hku, ?_⟩
      change (s.pc u).willing (cond u) (lastCond u) = true
      rw [h₂, h₃]
      exact hu
    · refine Or.inr fun t ht => ?_
      have htx : t ≠ x := hqueued (queued_of_sleeps ht.2.1)
      obtain ⟨h₁, h₂, h₃⟩ := hsame t htx
      obtain ⟨hkt, hsleeps, hno⟩ := ht
      change key t = k at hkt
      change (s.pc t).willing (cond t) (lastCond t) = false at hno
      rw [h₁] at hkt
      rw [h₂, h₃] at hno
      obtain ⟨u, hku, hahead⟩ := hall t ⟨hkt, hsleeps, hno⟩
      have hux : u ≠ x := by
        rintro rfl
        rw [hp] at hahead
        exact hahead
      exact ⟨u, (hkey u hux).trans hku, hahead⟩

omit [DecidableEq W] in
theorem WaitBitInv.call (h : WaitBitInv s) (hp : s.pc x = .idle) (k : WaitBitKey W) :
    WaitBitInv ((s.define x k).goto x .enqueue) := by
  have hdefined : WaitBitInv (s.define x k) := h.redefine hp (fun u hu => Function.update_of_ne hu ..)
    (fun u hu => Function.update_of_ne hu ..) fun u hu => Function.update_of_ne hu ..
  exact hdefined.goto (p := .idle) hp rfl (fun _ => rfl) (fun hq => Bool.noConfusion hq)
    (fun _ => trivial) trivial fun _ hs =>
    served_caller hp rfl (fun hw => Bool.noConfusion hw) (fun hsleep => Bool.noConfusion hsleep) hs

omit [DecidableEq T] in
theorem WaitBitInv.clearBits {owns : T → WaitBitKey W → Bool} (h : WaitBitInv s)
    (hp : s.pc x = .wakeCheck) (hk : s.key x = k) :
    WaitBitInv { s with bits := Function.update s.bits k false, owns := owns } := by
  refine ⟨h.lock, h.nodup, h.listed, h.queued, h.fits, h.seen, fun u => ?_, fun k' hk' => ?_⟩
  · have hu := h.walk u
    cases hpu : s.pc u <;> rw [hpu] at hu <;> exact hu
  · by_cases hkk : k' = k
    · subst hkk
      refine Or.inr fun t _ => ⟨x, hk, ?_⟩
      change (s.pc x).ahead t
      rw [hp]
      trivial
    · exact h.served k' (by simpa [hkk] using hk')

theorem WaitBitInv.clearBit (h : WaitBitInv s) (hp : s.pc x = .idle) (k : WaitBitKey W) :
    WaitBitInv ({ s.clear k with key := Function.update s.key x k }.goto x .wakeCheck) := by
  have hkeyed : WaitBitInv { s with key := Function.update s.key x k } := h.redefine hp
    (fun u hu => Function.update_of_ne hu ..) (fun _ _ => rfl) fun _ _ => rfl
  have hmoved : WaitBitInv ({ s with key := Function.update s.key x k }.goto x .wakeCheck) :=
    hkeyed.stride (p := .idle) hp rfl rfl rfl trivial fun _ _ _ hahead => hahead.elim
  exact hmoved.clearBits (x := x) (Function.update_self ..) (Function.update_self ..)

end Moves

end Skp.Process
