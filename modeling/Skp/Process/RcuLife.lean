import Skp.Process.RcuModel

/-! # The life of a deferred callback

Each head is followed by what the rest of the system has of it: who spreads it over the slots, on
which slots it is, and who is about to call it. -/
namespace Skp.Process
set_option autoImplicit false
open Skp.Foundations

variable {H T : Type} [DecidableEq H] [DecidableEq T]

/-! ## The contract -/

def Linked (s : RcuState H T) (h : H) (x : ℕ) : Prop := h ∈ s.queue x ∨ h ∈ s.batch x

def InHand (s : RcuState H T) (h : H) : Prop :=
  (∃ t cpu, s.giver t = .check h cpu ∨ s.giver t = .add h cpu) ∨ (∃ t, s.giver t = .out h) ∨
    ∃ x now left, s.pc x = .put h now left ∨ s.pc x = .call h now left

structure RcuOk (cfg : RcuConfig) (s : RcuState H T) : Prop where
  once : ∀ h, s.calls h ≤ 1
  unlinked : ∀ h, s.calls h ≠ 0 → ∀ x, ¬ Linked s h x
  on_time : ∀ h, s.early h = false
  kept : ∀ h, s.given h = true → s.calls h = 0 → InHand s h ∨ ∃ x < cfg.slots, Linked s h x
  left_nothing : ∀ x, s.drained x = true → s.pc x = .idle → ∀ h, ¬ Linked s h x
  settled : (∀ x < cfg.slots, s.drained x = true ∧ s.pc x = .idle) → (∀ t, s.giver t = .idle) →
    ∀ h, s.given h = true → s.calls h = 1

/-- The head between its unlinking and its `__uref_put`. -/
def hand : RcuPc H → List H
  | .put h _ _ => [h]
  | _ => []

def line (s : RcuState H T) (x : ℕ) : List H := hand (s.pc x) ++ s.batch x ++ s.queue x

/-- The steps that keep the contract: a caller that meets a stopped slot has its head on no slot,
and the shutdown has begun or the head's time has come; it adds to no slot whose drain has begun;
the head that a worker tests is not a multiple of `2 ^ 32` milliseconds ahead of its clock reading;
and a drain finds only heads that pass the timing test at the time 1, and no more than it may call.
-/
def Careful (s : RcuState H T) : RcuAct H T → Prop
  | .check t =>
      match s.giver t with
      | .check h cpu =>
          s.running cpu = false → (∀ x < cpu, h ∉ line s x) ∧ (s.shutting = true ∨ s.future h ≤ s.clock)
      | _ => True
  | .add t =>
      match s.giver t with
      | .add _ cpu => s.drained cpu = false
      | _ => True
  | .test x =>
      match s.pc x with
      | .loop now _ => s.drained x = false → ∀ h ∈ (s.batch x).head?,
          2 ^ 32 ∣ (s.future h - now) / 1000000 → (s.future h - now) / 1000000 = 0
      | _ => True
  | .drain x => (∀ h ∈ s.queue x, rcuTimedout (s.future h) 1 = 0) ∧ (s.queue x).length ≤ s32MaxCalls
  | _ => True

/-! ## The life of one head -/

inductive GivePlace where
  | away
  | fan (cpu : ℕ)
  | out

def givePlace (h : H) : GivePc H → GivePlace
  | .idle => .away
  | .check g cpu => if g = h then .fan cpu else .away
  | .add g cpu => if g = h then .fan cpu else .away
  | .out g => if g = h then .out else .away

def callingOf (h : H) : RcuPc H → Bool
  | .call g _ _ => decide (g = h)
  | _ => false

structure HeadView (T : Type) where
  given : Bool
  calls : ℕ
  refcnt : ℕ
  lined : ℕ → Bool
  giving : T → GivePlace
  calling : ℕ → Bool

def view (s : RcuState H T) (h : H) : HeadView T where
  given := s.given h
  calls := s.calls h
  refcnt := s.refcnt h
  lined := fun x => decide (h ∈ line s x)
  giving := fun t => givePlace h (s.giver t)
  calling := fun x => callingOf h (s.pc x)

def linedAt (n : ℕ) (lined : ℕ → Bool) : Finset ℕ := (Finset.range n).filter fun x => lined x = true

/-- Not given; being spread over the slots; waiting on some; about to be called; refused by the
first slot; called. -/
inductive Life (cfg : RcuConfig) : HeadView T → Prop where
  | fresh (r : ℕ) : Life cfg ⟨false, 0, r, fun _ => false, fun _ => .away, fun _ => false⟩
  | spread (t : T) (k r : ℕ) (lined : ℕ → Bool) (hk : k < cfg.slots) (hlined : ∀ x, lined x = true → x < k)
      (hr : cfg.singleMode = false → r = (linedAt cfg.slots lined).card + (cfg.slots - k)) :
      Life cfg ⟨true, 0, r, lined, Function.update (fun _ => .away) t (.fan k), fun _ => false⟩
  | waiting (r : ℕ) (lined : ℕ → Bool) (hsome : ∃ x, lined x = true)
      (hlined : ∀ x, lined x = true → x < cfg.slots)
      (hr : cfg.singleMode = false → r = (linedAt cfg.slots lined).card) :
      Life cfg ⟨true, 0, r, lined, fun _ => .away, fun _ => false⟩
  | due (x r : ℕ) : Life cfg ⟨true, 0, r, fun _ => false, fun _ => .away,
      Function.update (fun _ => false) x true⟩
  | out (t : T) (r : ℕ) : Life cfg ⟨true, 0, r, fun _ => false,
      Function.update (fun _ => .away) t .out, fun _ => false⟩
  | called (r : ℕ) : Life cfg ⟨true, 1, r, fun _ => false, fun _ => .away, fun _ => false⟩

section Lives
variable {cfg : RcuConfig} {v : HeadView T} {t : T} {k x : ℕ}

theorem linedAt_insert {n : ℕ} {lined : ℕ → Bool} (hk : k < n) :
    linedAt n (Function.update lined k true) = insert k (linedAt n lined) := by
  ext y
  rw [Finset.mem_insert, linedAt, linedAt, Finset.mem_filter, Finset.mem_filter, Finset.mem_range]
  by_cases hy : y = k
  · rw [hy, Function.update_self]
    exact iff_of_true ⟨hk, rfl⟩ (Or.inl rfl)
  · rw [Function.update_of_ne hy]
    exact ⟨Or.inr, fun h => h.resolve_left hy⟩

theorem linedAt_erase {n : ℕ} {lined : ℕ → Bool} :
    linedAt n (Function.update lined x false) = (linedAt n lined).erase x := by
  ext y
  rw [Finset.mem_erase, linedAt, linedAt, Finset.mem_filter, Finset.mem_filter]
  by_cases hy : y = x
  · rw [hy, Function.update_self]
    exact iff_of_false (fun h => Bool.false_ne_true h.2) fun h => h.1 rfl
  · rw [Function.update_of_ne hy]
    exact ⟨fun h => ⟨hy, h⟩, fun h => h.2⟩

theorem mem_linedAt {n : ℕ} {lined : ℕ → Bool} : x ∈ linedAt n lined ↔ x < n ∧ lined x = true := by
  rw [linedAt, Finset.mem_filter, Finset.mem_range]

theorem RcuConfig.slots_pos (cfg : RcuConfig) : 0 < cfg.slots := by
  unfold RcuConfig.slots
  split
  · exact Nat.one_pos
  · exact cfg.nrCpus_pos

theorem RcuConfig.slots_eq (cfg : RcuConfig) (h : cfg.singleMode = false) : cfg.slots = cfg.nrCpus := by
  rw [RcuConfig.slots, h, if_neg Bool.false_ne_true]

theorem Life.give (hv : Life cfg v) (hnew : v.given = false) (t : T) :
    Life cfg { v with
      given := true
      refcnt := cfg.nrCpus
      giving := Function.update v.giving t (.fan 0) } := by
  cases hv with
  | fresh r =>
    refine .spread t 0 _ _ cfg.slots_pos (fun x hx => by cases hx) fun hsingle => ?_
    have hempty : linedAt cfg.slots (fun _ => false) = ∅ :=
      Finset.filter_eq_empty_iff.mpr fun _ _ => Bool.false_ne_true
    rw [hempty, Finset.card_empty, cfg.slots_eq hsingle]
    omega
  | spread | waiting | due | out | called => cases hnew

theorem giving_update {u : T} {p q : GivePlace}
    (h : Function.update (fun _ => GivePlace.away) u p t = q) (hq : q ≠ .away) :
    t = u ∧ p = q := by
  by_cases htu : t = u
  · rw [htu, Function.update_self] at h
    exact ⟨htu, h⟩
  · rw [Function.update_of_ne htu] at h
    exact absurd h.symm hq

theorem Life.add (hv : Life cfg v) (hfan : v.giving t = .fan k) :
    Life cfg
      { v with
        lined := Function.update v.lined k true
        giving := Function.update v.giving t (if k + 1 < cfg.slots then .fan (k + 1) else .away) } := by
  cases hv with
  | spread u j r lined hj hlined hr =>
    obtain ⟨rfl, hplace⟩ := giving_update hfan GivePlace.noConfusion
    cases hplace
    have hnot : k ∉ linedAt cfg.slots lined := fun hk => lt_irrefl k (hlined k (mem_linedAt.mp hk).2)
    have hcard : (linedAt cfg.slots (Function.update lined k true)).card =
        (linedAt cfg.slots lined).card + 1 := by
      rw [linedAt_insert hj, Finset.card_insert_of_notMem hnot]
    have hup : ∀ x, Function.update lined k true x = true → x < k + 1 := by
      intro x hx
      by_cases hxk : x = k
      · omega
      · rw [Function.update_of_ne hxk] at hx
        have := hlined x hx
        omega
    dsimp only
    rw [Function.update_idem]
    split
    · rename_i hmore
      refine .spread t (k + 1) r _ hmore hup fun hsingle => ?_
      rw [hcard, hr hsingle]
      omega
    · rename_i hlast
      rw [Function.update_eq_self_iff.mpr rfl]
      refine .waiting r _ ⟨k, Function.update_self k true lined⟩
        (fun x hx => (hup x hx).trans_le (by omega)) fun hsingle => ?_
      rw [hcard, hr hsingle]
      omega
  | out u r =>
    cases (giving_update hfan GivePlace.noConfusion).2
  | fresh | waiting | due | called => cases hfan

theorem Life.refuse (hv : Life cfg v) (hfan : v.giving t = .fan k) (hnot : ∀ x < k, v.lined x = false) :
    Life cfg { v with giving := Function.update v.giving t .out } := by
  cases hv with
  | spread u j r lined hj hlined hr =>
    obtain ⟨rfl, hplace⟩ := giving_update hfan GivePlace.noConfusion
    cases hplace
    have hnone : lined = fun _ => false := by
      funext x
      by_cases hx : x < k
      · exact hnot x hx
      · exact Bool.eq_false_iff.mpr fun htrue => hx (hlined x htrue)
    dsimp only
    rw [Function.update_idem, hnone]
    exact .out t r
  | out u r =>
    cases (giving_update hfan GivePlace.noConfusion).2
  | fresh | waiting | due | called => cases hfan

theorem Life.ahead (hv : Life cfg v) (hfan : v.giving t = .fan k) : v.lined k = false := by
  cases hv with
  | spread u j r lined hj hlined hr =>
    obtain ⟨rfl, hplace⟩ := giving_update hfan GivePlace.noConfusion
    cases hplace
    exact Bool.eq_false_iff.mpr fun hx => lt_irrefl k (hlined k hx)
  | fresh | due | called | out => rfl
  | waiting => cases hfan

theorem Life.callOut (hv : Life cfg v) (hout : v.giving t = .out) :
    Life cfg { v with calls := v.calls + 1, giving := Function.update v.giving t .away } := by
  cases hv with
  | out u r =>
    obtain ⟨rfl, -⟩ := giving_update hout GivePlace.noConfusion
    dsimp only
    rw [Function.update_idem, Function.update_eq_self_iff.mpr rfl]
    exact .called r
  | spread u j r lined hj hlined hr =>
    cases (giving_update hout GivePlace.noConfusion).2
  | fresh | waiting | due | called => cases hout

theorem Life.put (hv : Life cfg v) (hsingle : cfg.singleMode = false) (hx : v.lined x = true) :
    Life cfg
      { v with
        refcnt := v.refcnt - 1
        lined := Function.update v.lined x false
        calling := Function.update v.calling x (decide (v.refcnt - 1 = 0)) } := by
  cases hv with
  | spread t k r lined hk hlined hr =>
    have hmem : x ∈ linedAt cfg.slots lined := mem_linedAt.mpr ⟨(hlined x hx).trans hk, hx⟩
    have hcard := Finset.card_erase_add_one hmem
    have hrefs := hr hsingle
    have hmore : decide (r - 1 = 0) = false := decide_eq_false (by omega)
    dsimp only
    rw [hmore, Function.update_eq_self_iff.mpr rfl]
    refine .spread t k (r - 1) _ hk (fun y hy => ?_) fun _ => ?_
    · by_cases hyx : y = x
      · rw [hyx, Function.update_self] at hy
        cases hy
      · rw [Function.update_of_ne hyx] at hy
        exact hlined y hy
    · rw [linedAt_erase]
      omega
  | waiting r lined hsome hlined hr =>
    have hmem : x ∈ linedAt cfg.slots lined := mem_linedAt.mpr ⟨hlined x hx, hx⟩
    have hcard := Finset.card_erase_add_one hmem
    have hrefs := hr hsingle
    have hbelow : ∀ y, Function.update lined x false y = true → y < cfg.slots := by
      intro y hy
      by_cases hyx : y = x
      · rw [hyx, Function.update_self] at hy
        cases hy
      · rw [Function.update_of_ne hyx] at hy
        exact hlined y hy
    dsimp only
    by_cases hlast : r - 1 = 0
    · -- no slot is left
      have hnone : Function.update lined x false = fun _ => false := by
        funext y
        rw [Bool.eq_false_iff]
        intro hy
        have hmem' : y ∈ linedAt cfg.slots (Function.update lined x false) :=
          mem_linedAt.mpr ⟨hbelow y hy, hy⟩
        have hzero : ((linedAt cfg.slots lined).erase x).card = 0 := by omega
        rw [linedAt_erase, Finset.card_eq_zero.mp hzero] at hmem'
        exact Finset.notMem_empty y hmem'
      rw [decide_eq_true hlast, hnone]
      exact .due x (r - 1)
    · rw [decide_eq_false hlast, Function.update_eq_self_iff.mpr rfl]
      refine .waiting (r - 1) _ ?_ hbelow fun _ => ?_
      · obtain ⟨y, hy⟩ := Finset.card_pos.mp (show 0 < ((linedAt cfg.slots lined).erase x).card by omega)
        rw [← linedAt_erase] at hy
        exact ⟨y, (mem_linedAt.mp hy).2⟩
      · rw [linedAt_erase]
        omega
  | fresh | due | out | called => cases hx

theorem Life.put_single (hv : Life cfg v) (hsingle : cfg.singleMode = true) (hx : v.lined x = true) :
    Life cfg { v with
      lined := Function.update v.lined x false
      calling := Function.update v.calling x true } := by
  have hslots : cfg.slots = 1 := by rw [RcuConfig.slots, hsingle, if_pos rfl]
  cases hv with
  | spread t k r lined hk hlined hr =>
    have := hlined x hx
    omega
  | waiting r lined hsome hlined hr =>
    have hnone : Function.update lined x false = fun _ => false := by
      funext y
      by_cases hyx : y = x
      · rw [hyx, Function.update_self]
      · rw [Function.update_of_ne hyx, Bool.eq_false_iff]
        intro hy
        have hy0 := hlined y hy
        have hx0 := hlined x hx
        omega
    dsimp only
    rw [hnone]
    exact .due x r
  | fresh | due | out | called => cases hx

theorem Life.call (hv : Life cfg v) (hx : v.calling x = true) :
    Life cfg { v with calls := v.calls + 1, calling := Function.update v.calling x false } := by
  cases hv with
  | due y r =>
    have hxy : x = y := by
      by_contra hne
      change Function.update (fun _ => false) y true x = true at hx
      rw [Function.update_of_ne hne] at hx
      cases hx
    subst hxy
    dsimp only
    rw [Function.update_idem, Function.update_eq_self_iff.mpr rfl]
    exact .called r
  | fresh | spread | waiting | out | called => cases hx

end Lives

/-! ## The invariant -/

/-- The batch of a drain gets empty before the loop ends: it is short enough, and every head in it
passes the test. -/
def DrainOk (future : H → ℕ) (batch : List H) : RcuPc H → Prop
  | .idle => batch = []
  | .loop now left => now = 1 ∧ batch.length ≤ left ∧ ∀ h ∈ batch, rcuTimedout (future h) 1 = 0
  | .put _ now left => now = 1 ∧ batch.length + 1 ≤ left ∧ ∀ h ∈ batch, rcuTimedout (future h) 1 = 0
  | .call _ now left => now = 1 ∧ batch.length + 1 ≤ left ∧ ∀ h ∈ batch, rcuTimedout (future h) 1 = 0
  | .back => batch = []

def ClockOk (clock : ℕ) (shutting drained : Bool) (future : H → ℕ) : RcuPc H → Prop
  | .loop now _ => drained = false → now ≤ clock ∧ 1000000 ∣ now
  | .put h now _ => (drained = false → now ≤ clock ∧ 1000000 ∣ now) ∧ (shutting = false → future h ≤ clock)
  | .call h now _ => (drained = false → now ≤ clock ∧ 1000000 ∣ now) ∧ (shutting = false → future h ≤ clock)
  | _ => True

/-- What holds of one slot, whose drain leaves nothing. -/
structure SlotOk (clock : ℕ) (shutting : Bool) (future : H → ℕ) (drained running : Bool)
    (queue batch : List H)
    (pc : RcuPc H) : Prop where
  nodup : (hand pc ++ batch ++ queue).Nodup
  rest : pc = .idle → batch = []
  drain : drained = true → shutting = true ∧ running = false ∧ queue = [] ∧ DrainOk future batch pc
  clock : ClockOk clock shutting drained future pc

structure RcuInv (cfg : RcuConfig) (s : RcuState H T) : Prop where
  life : ∀ h, Life cfg (view s h)
  slot : ∀ x, SlotOk s.clock s.shutting s.future (s.drained x) (s.running x) (s.queue x) (s.batch x) (s.pc x)
  beyond : ∀ x, cfg.slots ≤ x → s.pc x = .idle
  out : ∀ t h, s.giver t = .out h → s.shutting = true ∨ s.future h ≤ s.clock
  whole : ∀ h, 1000000 ∣ s.future h
  early : ∀ h, s.early h = false

section Contract
variable {cfg : RcuConfig} {s : RcuState H T} {h : H}

omit [DecidableEq T] in
theorem linked_lined {x : ℕ} (hl : Linked s h x) : (view s h).lined x = true := by
  refine decide_eq_true (List.mem_append.mpr ?_)
  obtain hq | hb := hl
  · exact Or.inr hq
  · exact Or.inl (List.mem_append_right _ hb)

theorem Life.calls_le (hv : Life cfg (view s h)) :
    s.calls h ≤ 1 ∧ (s.calls h ≠ 0 → ∀ x, (view s h).lined x = false) := by
  generalize hview : view s h = v at hv
  have hcalls : s.calls h = v.calls := by rw [← hview]; rfl
  rw [hcalls]
  cases hv with
  | called r => exact ⟨le_rfl, fun _ _ => rfl⟩
  | fresh | spread | waiting | due | out => exact ⟨Nat.zero_le 1, fun h0 => absurd rfl h0⟩

omit [DecidableEq T] in
theorem inHand_of_giving {t : T} (ht : (view s h).giving t ≠ .away) : InHand s h := by
  change givePlace h (s.giver t) ≠ .away at ht
  cases hpc : s.giver t with
  | idle =>
    rw [hpc] at ht
    exact absurd rfl ht
  | check f cpu =>
    rw [hpc, givePlace] at ht
    split at ht
    · rename_i heq
      exact Or.inl ⟨t, cpu, Or.inl (heq ▸ hpc)⟩
    · exact absurd rfl ht
  | add f cpu =>
    rw [hpc, givePlace] at ht
    split at ht
    · rename_i heq
      exact Or.inl ⟨t, cpu, Or.inr (heq ▸ hpc)⟩
    · exact absurd rfl ht
  | out f =>
    rw [hpc, givePlace] at ht
    split at ht
    · rename_i heq
      exact Or.inr (Or.inl ⟨t, heq ▸ hpc⟩)
    · exact absurd rfl ht

omit [DecidableEq T] in
theorem inHand_of_calling {x : ℕ} (hx : (view s h).calling x = true) : InHand s h := by
  change callingOf h (s.pc x) = true at hx
  cases hpc : s.pc x with
  | call f now left =>
    rw [hpc] at hx
    have hf : f = h := of_decide_eq_true hx
    exact Or.inr (Or.inr ⟨x, now, left, Or.inr (hf ▸ hpc)⟩)
  | idle | loop | put | back =>
    rw [hpc] at hx
    cases hx

omit [DecidableEq T] in
theorem inHand_or_linked {x : ℕ} (hx : (view s h).lined x = true) : InHand s h ∨ Linked s h x := by
  have hmem : h ∈ line s x := of_decide_eq_true hx
  rcases List.mem_append.mp hmem with hmem | hq
  · rcases List.mem_append.mp hmem with hhand | hb
    · cases hpc : s.pc x with
      | put f now left =>
        rw [hpc] at hhand
        have hf : h = f := List.mem_singleton.mp hhand
        exact Or.inl (Or.inr (Or.inr ⟨x, now, left, Or.inl (hf ▸ hpc)⟩))
      | idle | loop | call | back =>
        rw [hpc] at hhand
        cases hhand
    · exact Or.inr (Or.inr hb)
  · exact Or.inr (Or.inl hq)

theorem Life.kept (hv : Life cfg (view s h)) (hgiven : s.given h = true) (hzero : s.calls h = 0) :
    InHand s h ∨ ∃ x < cfg.slots, Linked s h x := by
  have hgiving : ∀ t, (view s h).giving t ≠ .away → InHand s h := fun t => inHand_of_giving
  have hcalling : ∀ x, (view s h).calling x = true → InHand s h := fun x => inHand_of_calling
  have hlined : ∀ x, (view s h).lined x = true → InHand s h ∨ Linked s h x := fun x => inHand_or_linked
  change (view s h).given = true at hgiven
  change (view s h).calls = 0 at hzero
  generalize view s h = v at hv hgiving hcalling hlined hgiven hzero
  cases hv with
  | fresh r => cases hgiven
  | called r => cases hzero
  | spread t k r lined hk =>
    refine Or.inl (hgiving t ?_)
    dsimp only
    rw [Function.update_self]
    exact GivePlace.noConfusion
  | out t r =>
    refine Or.inl (hgiving t ?_)
    dsimp only
    rw [Function.update_self]
    exact GivePlace.noConfusion
  | due x r =>
    refine Or.inl (hcalling x ?_)
    dsimp only
    rw [Function.update_self]
  | waiting r lined hsome hbelow =>
    obtain ⟨x, hx⟩ := hsome
    exact (hlined x hx).imp_right fun hl => ⟨x, hbelow x hx, hl⟩

theorem RcuInv.left_nothing (hs : RcuInv cfg s) {x : ℕ} (hx : s.drained x = true)
    (hidle : s.pc x = .idle) (h : H) :
    ¬ Linked s h x := by
  intro hl
  obtain ⟨-, -, hqueue, hbatch⟩ := (hs.slot x).drain hx
  rw [hidle] at hbatch
  rw [Linked, hqueue, show s.batch x = [] from hbatch] at hl
  rcases hl with hl | hl <;> cases hl

theorem RcuInv.ok (hs : RcuInv cfg s) : RcuOk cfg s := by
  refine ⟨fun h => (hs.life h).calls_le.1, fun h hcalls x hl => ?_, hs.early, fun h => (hs.life h).kept,
    fun x => hs.left_nothing, fun hall hidle h hgiven => ?_⟩
  · have hline := linked_lined hl
    rw [(hs.life h).calls_le.2 hcalls x] at hline
    cases hline
  · by_contra hne
    have hzero : s.calls h = 0 := by
      have := (hs.life h).calls_le.1
      omega
    rcases (hs.life h).kept hgiven hzero with hhand | ⟨x, hx, hl⟩
    · rcases hhand with ⟨t, cpu, ht⟩ | ⟨t, ht⟩ | ⟨x, now, left, hx⟩
      · rw [hidle t] at ht
        rcases ht with ht | ht <;> cases ht
      · rw [hidle t] at ht
        cases ht
      · have hpc : s.pc x = .idle := by
          by_cases hlt : x < cfg.slots
          · exact (hall x hlt).2
          · exact hs.beyond x (not_lt.mp hlt)
        rw [hpc] at hx
        rcases hx with hx | hx <;> cases hx
    · exact hs.left_nothing (hall x hx).1 (hall x hx).2 h hl

end Contract

end Skp.Process
