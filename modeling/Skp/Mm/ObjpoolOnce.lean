import Skp.Mm.ObjpoolModel

/-! # Every freed object is taken once

An exchange that succeeds finds the head that was read, with the number of objects that goes with
it. Only an allocation needs more: the link it read is still that of the head if no exchange came in
between, and the version tells, unless it has gone round. -/
namespace Skp.Mm
set_option autoImplicit false
open Skp.Foundations

variable {X T : Type}

/-- The objects from `head` on, along the links. -/
def ChainFrom (link : X → Option X) : Option X → List X → Prop
  | head, [] => head = none
  | head, x :: xs => head = some x ∧ ChainFrom link (link x) xs

theorem ChainFrom.congr {link link' : X → Option X} {xs : List X} :
    ∀ {head : Option X}, ChainFrom link head xs →
    (∀ x ∈ xs, link' x = link x) → ChainFrom link' head xs := by
  induction xs with
  | nil => exact fun h _ => h
  | cons x xs ih =>
    intro head h heq
    refine ⟨h.1, ?_⟩
    rw [heq x List.mem_cons_self]
    exact ih h.2 fun y hy => heq y (List.mem_cons_of_mem x hy)

/-- In the pool or on the way out of it with a flush. -/
def ObjPlace.inside : ObjPlace T → Bool
  | .pool => true
  | .flushed _ => true
  | _ => false

/-- The pool and its history. -/
structure PoolOk (cap : ℕ) (m : ObjpoolMem X T) (chain : List X) : Prop where
  linked : ChainFrom m.link m.head chain
  length : chain.length = m.nrVersion.nr.toNat
  nodup : chain.Nodup
  mem : ∀ x, x ∈ chain ↔ m.place x = .pool
  le_cap : m.nrVersion.nr.toNat ≤ cap
  version : m.nrVersion.verison.toNat = m.swaps % 2 ^ 16
  once : ∀ x, m.freed x = m.taken x + if (m.place x).inside then 1 else 0

/-- The object that a call of `__objpool_free` has not put into the pool yet. -/
def ObjpoolPc.carries : ObjpoolPc X → Option X
  | .freeHead x => some x
  | .freeVersion x _ => some x
  | .freeLink x _ _ => some x
  | .freeSwap x _ _ => some x
  | .flushHead x => x
  | .flushVersion x _ => x
  | .flushSwap x _ _ => x
  | .flushNext x _ _ => x
  | .flushGive x _ _ _ => x
  | _ => none

/-- `rest` is what a flush has still to hand over. -/
def Walks (link : X → Option X) : ObjpoolPc X → List X → Prop
  | .flushNext _ obj nr, rest => ChainFrom link obj rest ∧ rest.length = nr.toNat
  | .flushGive _ obj next nr, rest => ∃ xs, rest = obj :: xs ∧ ChainFrom link next xs ∧ xs.length = nr.toNat
  | _, rest => rest = []

/-- The version was read `k` exchanges after the first one, in the window of the call; `p` holds if
there was none since. -/
def ReadAt (m : ObjpoolMem X T) (start : ℕ) (nv : NrVersion) (p : Prop) : Prop :=
  ∃ k, start ≤ k ∧ k ≤ m.swaps ∧ nv.verison.toNat = k % 2 ^ 16 ∧ (k = m.swaps → p)

/-- What a thread has read and tested. -/
def Knows (cap : ℕ) (m : ObjpoolMem X T) (start : ℕ) : ObjpoolPc X → Prop
  | .freeLink _ _ nv => nv.nr.toNat + 1 ≤ cap
  | .freeSwap x head nv => nv.nr.toNat + 1 ≤ cap ∧ m.link x = head
  | .allocLink _ nv => nv.nr ≠ 0 ∧ ReadAt m start nv True
  | .allocSwap head nv link => nv.nr ≠ 0 ∧ ReadAt m start nv (m.head = some head → m.link head = link)
  | .flushSwap _ _ nv => nv.nr ≠ 0
  | .bug => False
  | _ => True

structure ThreadOk (cap : ℕ) (m : ObjpoolMem X T) (start : ℕ) (t : T) (pc : ObjpoolPc X)
    (rest : List X) : Prop where
  carries : ∀ x, m.place x = .freeing t ↔ pc.carries = some x
  walks : Walks m.link pc rest
  nodup : rest.Nodup
  mem : ∀ x, x ∈ rest ↔ m.place x = .flushed t
  start_le : start ≤ m.swaps
  knows : Knows cap m start pc

/-- The pool is a chain without a cycle of as many objects as `nr` says, and never of more than its
capacity. An object that was put into it as often as it was taken out is elsewhere; one that was put
into it once more is on the chain, once, or on its way out with one flush. -/
structure ObjpoolOk (cap : ℕ) (s : ObjpoolState X T) : Prop where
  pool : ∃ chain, PoolOk cap s.mem chain
  flushes : ∀ t, ∃ rest, Walks s.mem.link (s.pc t) rest ∧ rest.Nodup ∧ ∀ x, x ∈ rest ↔
    s.mem.place x = .flushed t
  noBug : ∀ t, s.pc t ≠ .bug

/-- Fewer than `2 ^ 16` exchanges since the start of each call. -/
def WindowShort (s : ObjpoolState X T) : Prop := ∀ t, s.pc t ≠ .idle → s.mem.swaps < s.started t + 2 ^ 16

structure ObjpoolInv (cap : ℕ) (s : ObjpoolState X T) : Prop where
  pool : ∃ chain, PoolOk cap s.mem chain
  thread : ∀ t, ∃ rest, ThreadOk cap s.mem (s.started t) t (s.pc t) rest

/-! ## What a step leaves to the other threads -/

/-- The objects of `t` and their links are as they were, and the head's link, unless there was an exchange. -/
structure Leaves (m m' : ObjpoolMem X T) (t : T) : Prop where
  freeing : ∀ x, m'.place x = .freeing t ↔ m.place x = .freeing t
  flushed : ∀ x, m'.place x = .flushed t ↔ m.place x = .flushed t
  link : ∀ x, m.place x = .freeing t ∨ m.place x = .flushed t → m'.link x = m.link x
  swaps_le : m.swaps ≤ m'.swaps
  still : m'.swaps = m.swaps → m'.head = m.head ∧ ∀ x, m.head = some x → m'.link x = m.link x

theorem Leaves.refl (m : ObjpoolMem X T) (t : T) : Leaves m m t :=
  ⟨fun _ => Iff.rfl, fun _ => Iff.rfl, fun _ _ => rfl, le_rfl, fun _ => ⟨rfl, fun _ _ => rfl⟩⟩

variable {cap start : ℕ} {m m' : ObjpoolMem X T} {t : T} {pc : ObjpoolPc X} {rest : List X}
    {nv : NrVersion} {p q : Prop}

theorem ReadAt.mono (h : ReadAt m start nv p) (hle : m.swaps ≤ m'.swaps) (hpq : m'.swaps = m.swaps → p → q) :
    ReadAt m' start nv q := by
  obtain ⟨k, hstart, hk, hversion, hp⟩ := h
  refine ⟨k, hstart, hk.trans hle, hversion, fun heq => ?_⟩
  have hsame : m'.swaps = m.swaps := by omega
  exact hpq hsame (hp (by omega))

theorem Walks.congr {link link' : X → Option X} (h : Walks link pc rest)
    (heq : ∀ x ∈ rest, link' x = link x) :
    Walks link' pc rest := by
  cases pc with
  | flushNext x obj nr => exact ⟨h.1.congr heq, h.2⟩
  | flushGive x obj next nr =>
    obtain ⟨xs, rfl, hchain, hlen⟩ := h
    exact ⟨xs, rfl, hchain.congr fun y hy => heq y (List.mem_cons_of_mem obj hy), hlen⟩
  | _ => exact h

theorem Knows.leaves (h : Knows cap m start pc) (hcarries : ∀ x, m.place x = .freeing t ↔ pc.carries = some x)
    (hm : Leaves m m' t) : Knows cap m' start pc := by
  cases pc with
  | freeSwap x head nv => exact ⟨h.1, (hm.link x (Or.inl ((hcarries x).mpr rfl))).trans h.2⟩
  | allocLink head nv => exact ⟨h.1, h.2.mono hm.swaps_le fun _ _ => trivial⟩
  | allocSwap head nv link =>
    refine ⟨h.1, h.2.mono hm.swaps_le fun hsame hlink hhead => ?_⟩
    obtain ⟨hheads, hlinks⟩ := hm.still hsame
    rw [hheads] at hhead
    rw [hlinks head hhead]
    exact hlink hhead
  | _ => exact h

theorem ThreadOk.leaves (h : ThreadOk cap m start t pc rest) (hm : Leaves m m' t) :
    ThreadOk cap m' start t pc rest where
  carries x := (hm.freeing x).trans (h.carries x)
  walks := h.walks.congr fun x hx => hm.link x (Or.inr ((h.mem x).mp hx))
  nodup := h.nodup
  mem x := (h.mem x).trans (hm.flushed x).symm
  start_le := h.start_le.trans hm.swaps_le
  knows := h.knows.leaves h.carries hm

theorem ThreadOk.move {pc' : ObjpoolPc X} (h : ThreadOk cap m start t pc rest)
    (hcarries : pc'.carries = pc.carries)
    (hwalks : Walks m.link pc' rest) (hknows : Knows cap m start pc') : ThreadOk cap m start t pc' rest :=
  ⟨fun x => hcarries ▸ h.carries x, hwalks, h.nodup, h.mem, h.start_le, hknows⟩

/-! ## The exchanges -/

section Swaps
variable [DecidableEq X] {chain : List X} {head head' : Option X} {nv' : NrVersion} {x : X} {u : T}

theorem cmpxchgDouble_some (h : cmpxchgDouble m nv head nv' head' = some m') :
    m.nrVersion = nv ∧ m.head = head ∧
      m' = { m with nrVersion := nv', head := head', swaps := m.swaps + 1 } := by
  unfold cmpxchgDouble at h
  split at h
  · rename_i heq
    exact ⟨heq.1, heq.2, (Option.some.inj h).symm⟩
  · cases h

theorem verison_succ {v : BitVec 16} {n : ℕ} (h : v.toNat = n % 2 ^ 16) :
    (v + 1).toNat = (n + 1) % 2 ^ 16 := by
  have hone : (1 : BitVec 16).toNat = 1 := rfl
  rw [BitVec.toNat_add, hone, h]
  omega

theorem nr_succ {v : BitVec 16} (h : v.toNat + 1 < 2 ^ 16) : (v + 1).toNat = v.toNat + 1 := by
  have hone : (1 : BitVec 16).toNat = 1 := rfl
  rw [BitVec.toNat_add, hone]
  omega

theorem nr_pred {v : BitVec 16} {n : ℕ} (h : n + 1 = v.toNat) : n = (v - 1).toNat := by
  have hone : (1 : BitVec 16).toNat = 1 := rfl
  have hlt := v.isLt
  rw [BitVec.toNat_sub, hone]
  omega

theorem nr_eq_zero {v : BitVec 16} (h : v.toNat = 0) : v = 0 := BitVec.eq_of_toNat_eq h

/-- An object on the chain is not in one of the other places. -/
theorem update_place_iff {place : X → ObjPlace T} {b c : ObjPlace T} (hx : place x ≠ c) (hb : b ≠ c) (y : X) :
    Function.update place x b y = c ↔ place y = c := by
  by_cases hy : y = x
  · subst hy
    simp [hx, hb]
  · rw [Function.update_of_ne hy]

theorem once_push (h : ∀ y, m.freed y = m.taken y + if (m.place y).inside then 1 else 0)
    (hx : m.place x = .freeing t) (y : X) :
    (pushed m x).freed y = (pushed m x).taken y + if ((pushed m x).place y).inside then 1 else 0 := by
  have hold := h y
  simp only [pushed]
  by_cases hy : y = x
  · subst hy
    rw [hx] at hold
    simpa [ObjPlace.inside] using hold
  · simpa [hy] using hold

theorem once_deliver (h : ∀ y, m.freed y = m.taken y + if (m.place y).inside then 1 else 0)
    (hx : (m.place x).inside = true)
    (y : X) :
    (delivered m x).freed y = (delivered m x).taken y + if ((delivered m x).place y).inside then
      1 else 0 := by
  have hold := h y
  simp only [delivered]
  by_cases hy : y = x
  · subst hy
    rw [if_pos hx] at hold
    simpa [ObjPlace.inside] using hold
  · simpa [hy] using hold

theorem PoolOk.push (h : PoolOk cap m chain) (hx : m.place x = .freeing t) (hlink : m.link x = m.head)
    (hcap : m.nrVersion.nr.toNat + 1 ≤ cap) (hsmall : cap < 2 ^ 16) :
    PoolOk cap (pushed { m with nrVersion := ⟨m.nrVersion.nr + 1, m.nrVersion.verison + 1⟩, head := some x,
                                swaps := m.swaps + 1 } x) (x :: chain) := by
  have hnot : x ∉ chain := fun hmem => by
    rw [h.mem, hx] at hmem
    cases hmem
  have hnr := nr_succ (v := m.nrVersion.nr) (by omega)
  constructor
  · exact ⟨rfl, hlink ▸ h.linked⟩
  · simp only [pushed, List.length_cons, h.length, hnr]
  · exact List.nodup_cons.mpr ⟨hnot, h.nodup⟩
  · intro y
    simp only [pushed]
    by_cases hy : y = x
    · simp [hy]
    · rw [Function.update_of_ne hy, ← h.mem, List.mem_cons, or_iff_right hy]
  · simpa only [pushed, hnr] using hcap
  · exact verison_succ h.version
  · exact once_push (m := { m with nrVersion := ⟨m.nrVersion.nr + 1, m.nrVersion.verison + 1⟩, head := some x,
                                    swaps := m.swaps + 1 }) h.once hx

theorem PoolOk.pop (h : PoolOk cap m (x :: chain)) :
    PoolOk cap (delivered { m with
      nrVersion := ⟨m.nrVersion.nr - 1, m.nrVersion.verison + 1⟩, head := m.link x,
                                   swaps := m.swaps + 1 } x) chain := by
  have hx : m.place x = .pool := (h.mem x).mp List.mem_cons_self
  obtain ⟨hnot, hnodup⟩ := List.nodup_cons.mp h.nodup
  have hnr := nr_pred h.length
  constructor
  · exact h.linked.2
  · exact hnr
  · exact hnodup
  · intro y
    simp only [delivered]
    by_cases hy : y = x
    · subst hy
      simp [hnot]
    · rw [Function.update_of_ne hy, ← h.mem, List.mem_cons, or_iff_right hy]
  · have hle := h.le_cap
    rw [← h.length, List.length_cons] at hle
    simp only [delivered, ← hnr]
    omega
  · exact verison_succ h.version
  · exact once_deliver
      (m := { m with nrVersion := ⟨m.nrVersion.nr - 1, m.nrVersion.verison + 1⟩, head := m.link x,
                                       swaps := m.swaps + 1 }) h.once (by rw [hx]; rfl)

theorem PoolOk.deliver (h : PoolOk cap m chain) (hx : m.place x = .flushed t) :
    PoolOk cap (delivered m x) chain where
  linked := h.linked
  length := h.length
  nodup := h.nodup
  mem y := (h.mem y).trans (update_place_iff (by simp [hx]) (by simp) y).symm
  le_cap := h.le_cap
  version := h.version
  once := once_deliver h.once (by rw [hx]; rfl)

variable [DecidableEq T]

omit [DecidableEq X] in
theorem PoolOk.empty (h : PoolOk cap m chain) :
    PoolOk cap (emptied { m with
      nrVersion := ⟨0, m.nrVersion.verison + 1⟩
      head := none
      swaps := m.swaps + 1 } t) [] where
  linked := rfl
  length := rfl
  nodup := List.nodup_nil
  mem y := by
    simp only [emptied, List.not_mem_nil, false_iff]
    split
    · exact fun heq => by cases heq
    · assumption
  le_cap := Nat.zero_le _
  version := verison_succ h.version
  once y := by
    have hold := h.once y
    simp only [emptied]
    split
    · rename_i hy
      rw [hy] at hold
      exact hold
    · exact hold

omit [DecidableEq X] [DecidableEq T] in
/-- The version is right and the window short, so there was no exchange since. -/
theorem ReadAt.current (h : ReadAt m start nv p) (hpool : PoolOk cap m chain) (hversion : m.nrVersion = nv)
    (hwindow : m.swaps < start + 2 ^ 16) : p := by
  obtain ⟨k, hstart, hk, hread, hp⟩ := h
  have hnow := hpool.version
  rw [hversion, hread] at hnow
  exact hp (by omega)

/-! ## Frames -/

section
omit [DecidableEq T]

theorem PoolOk.write {v : Option X} (h : PoolOk cap m chain) (hx : m.place x ≠ .pool) :
    PoolOk cap { m with link := Function.update m.link x v } chain where
  linked := by
    have hnot : x ∉ chain := fun hmem => hx ((h.mem x).mp hmem)
    exact h.linked.congr fun y hy => Function.update_of_ne (ne_of_mem_of_not_mem hy hnot) v m.link
  length := h.length
  nodup := h.nodup
  mem := h.mem
  le_cap := h.le_cap
  version := h.version
  once := h.once

theorem Leaves.write {v : Option X} (h : PoolOk cap m chain) (hpool : m.place x ≠ .pool)
    (hfreeing : m.place x ≠ .freeing u)
    (hflushed : m.place x ≠ .flushed u) : Leaves m { m with link := Function.update m.link x v } u := by
  refine ⟨fun _ => Iff.rfl, fun _ => Iff.rfl, fun y hy => ?_, le_rfl, fun _ => ⟨rfl, fun y hy => ?_⟩⟩
  · apply Function.update_of_ne
    intro heq
    subst heq
    exact hy.elim hfreeing hflushed
  · apply Function.update_of_ne
    intro heq
    subst heq
    refine hpool ((h.mem y).mp ?_)
    have hlinked := h.linked
    rw [hy] at hlinked
    cases chain with
    | nil => cases hlinked
    | cons z zs => exact Option.some.inj hlinked.1 ▸ List.mem_cons_self

theorem Leaves.push (hx : m.place x = .freeing t) (hu : u ≠ t) :
    Leaves m (pushed { m with nrVersion := nv', head := head', swaps := m.swaps + 1 } x) u where
  freeing := update_place_iff (by simp [hx, hu.symm]) (by simp)
  flushed := update_place_iff (by simp [hx]) (by simp)
  link _ _ := rfl
  swaps_le := Nat.le_succ _
  still heq := absurd heq (Nat.succ_ne_self _)

theorem Leaves.pop (hx : m.place x = .pool) :
    Leaves m (delivered { m with nrVersion := nv', head := head', swaps := m.swaps + 1 } x) u where
  freeing := update_place_iff (by simp [hx]) (by simp)
  flushed := update_place_iff (by simp [hx]) (by simp)
  link _ _ := rfl
  swaps_le := Nat.le_succ _
  still heq := absurd heq (Nat.succ_ne_self _)

theorem Leaves.deliver (hx : m.place x = .flushed t) (hu : u ≠ t) : Leaves m (delivered m x) u where
  freeing := update_place_iff (by simp [hx]) (by simp)
  flushed := update_place_iff (by simp [hx, hu.symm]) (by simp)
  link _ _ := rfl
  swaps_le := le_rfl
  still _ := ⟨rfl, fun _ _ => rfl⟩

end

omit [DecidableEq X] in
theorem emptied_freeing (y : X) : (emptied m t).place y = .freeing u ↔ m.place y = .freeing u := by
  simp only [emptied]
  split
  · simp [*]
  · rfl

omit [DecidableEq X] in
theorem Leaves.empty (hu : u ≠ t) :
    Leaves m (emptied { m with nrVersion := nv', head := head', swaps := m.swaps + 1 } t) u where
  freeing := emptied_freeing
  flushed y := by
    simp only [emptied]
    split
    · simp [*, hu.symm]
    · rfl
  link _ _ := rfl
  swaps_le := Nat.le_succ _
  still heq := absurd heq (Nat.succ_ne_self _)

end Swaps

/-! ## One step -/

section Steps
variable {chain : List X} {pc' : ObjpoolPc X}

@[simp] theorem flushReturn_carries (x : Option X) : (flushReturn x).carries = x := by cases x <;> rfl

theorem flushReturn_walks (link : X → Option X) (x : Option X) : Walks link (flushReturn x) [] := by
  cases x <;> rfl

theorem flushReturn_knows (x : Option X) : Knows cap m start (flushReturn x) := by cases x <;> trivial

/-- What a step of a thread leaves behind. -/
def StepOk (cap start : ℕ) (t : T) (m m' : ObjpoolMem X T) (pc' : ObjpoolPc X) : Prop :=
  (∃ chain, PoolOk cap m' chain) ∧ (∃ rest, ThreadOk cap m' start t pc' rest) ∧ ∀ u, u ≠ t → Leaves m m' u

theorem stepOk_move (hpool : PoolOk cap m chain) (h : ThreadOk cap m start t pc rest)
    (hcarries : pc'.carries = pc.carries)
    (hwalks : Walks m.link pc' rest) (hknows : Knows cap m start pc') : StepOk cap start t m m pc' :=
  ⟨⟨chain, hpool⟩, ⟨rest, h.move hcarries hwalks hknows⟩, fun u _ => Leaves.refl m u⟩

theorem readAt_now (hpool : PoolOk cap m chain) (hstart : start ≤ m.swaps) :
    ReadAt m start m.nrVersion True :=
  ⟨m.swaps, hstart, le_rfl, hpool.version, fun _ => trivial⟩

variable [DecidableEq X] [DecidableEq T]

theorem freeSwap_ok {x : X} {head : Option X} (hsmall : cap < 2 ^ 16) (hpool : PoolOk cap m chain)
    (h : ThreadOk cap m start t (.freeSwap x head nv) rest) :
    ∀ r, objpoolNext cap m t (.freeSwap x head nv) = some r → StepOk cap start t m r.1 r.2 := by
  intro r hr
  obtain rfl : rest = [] := h.walks
  rw [objpoolNext] at hr
  split at hr
  · rename_i m' hswap
    obtain ⟨hversion, hhead, rfl⟩ := cmpxchgDouble_some hswap
    cases hr
    subst hversion hhead
    have hx := (h.carries x).mpr rfl
    refine ⟨⟨x :: chain, hpool.push hx h.knows.2 h.knows.1 hsmall⟩, ⟨[], ?_⟩, fun u hu => Leaves.push hx hu⟩
    refine ⟨fun y => ?_, rfl, List.nodup_nil, fun y => ?_, h.start_le.trans (Nat.le_succ _), trivial⟩
    · -- the object that was freed has become the pool's, and there was no other
      simp only [pushed, ObjpoolPc.carries, reduceCtorEq, iff_false]
      by_cases hy : y = x
      · simp [hy]
      · rw [Function.update_of_ne hy, h.carries]
        simpa [ObjpoolPc.carries] using fun heq => hy heq.symm
    · exact (h.mem y).trans (update_place_iff (by simp [hx]) (by simp) y).symm
  · cases hr
    exact stepOk_move hpool h rfl rfl trivial

theorem allocSwap_ok {head : X} {link : Option X} (hpool : PoolOk cap m chain)
    (hwindow : m.swaps < start + 2 ^ 16)
    (h : ThreadOk cap m start t (.allocSwap head nv link) rest) :
    ∀ r, objpoolNext cap m t (.allocSwap head nv link) = some r → StepOk cap start t m r.1 r.2 := by
  intro r hr
  obtain rfl : rest = [] := h.walks
  rw [objpoolNext] at hr
  split at hr
  · rename_i m' hswap
    obtain ⟨hversion, hhead, rfl⟩ := cmpxchgDouble_some hswap
    cases hr
    obtain ⟨xs, rfl⟩ : ∃ xs, chain = head :: xs := by
      have hlinked := hpool.linked
      rw [hhead] at hlinked
      cases chain with
      | nil => cases hlinked
      | cons y ys => exact ⟨ys, by rw [Option.some.inj hlinked.1]⟩
    obtain rfl : m.link head = link := h.knows.2.current hpool hversion hwindow hhead
    subst hversion
    have hx : m.place head = .pool := (hpool.mem head).mp List.mem_cons_self
    refine ⟨⟨xs, hpool.pop⟩, ⟨[], ?_⟩, fun u _ => Leaves.pop hx⟩
    refine ⟨fun y => ?_, rfl, List.nodup_nil, fun y => ?_, h.start_le.trans (Nat.le_succ _), trivial⟩
    · exact (update_place_iff (by simp [hx]) (by simp) y).trans (h.carries y)
    · exact (h.mem y).trans (update_place_iff (by simp [hx]) (by simp) y).symm
  · cases hr
    exact stepOk_move hpool h rfl rfl trivial

theorem flushSwap_ok {x head : Option X} (hpool : PoolOk cap m chain)
    (h : ThreadOk cap m start t (.flushSwap x head nv) rest) :
    ∀ r, objpoolNext cap m t (.flushSwap x head nv) = some r → StepOk cap start t m r.1 r.2 := by
  intro r hr
  obtain rfl : rest = [] := h.walks
  rw [objpoolNext] at hr
  split at hr
  · rename_i m' hswap
    obtain ⟨hversion, hhead, rfl⟩ := cmpxchgDouble_some hswap
    cases hr
    subst hversion hhead
    -- the number read goes with the head, so the head is not null
    have hhead : m.head ≠ none := by
      intro hnone
      have hlinked := hpool.linked
      rw [hnone] at hlinked
      cases chain with
      | nil => exact h.knows (nr_eq_zero hpool.length.symm)
      | cons y ys => cases hlinked.1
    rw [if_neg (not_or.mpr ⟨h.knows, hhead⟩)]
    refine ⟨⟨[], hpool.empty⟩, ⟨chain, ?_⟩, fun u hu => Leaves.empty hu⟩
    refine ⟨fun y => ?_, ⟨hpool.linked, hpool.length⟩, hpool.nodup, fun y => ?_,
      h.start_le.trans (Nat.le_succ _), trivial⟩
    · exact (emptied_freeing y).trans (h.carries y)
    · have hnot : m.place y ≠ .flushed t := fun hy => by
        rw [← h.mem] at hy
        cases hy
      rw [hpool.mem]
      simp only [emptied]
      split
      · simp [*]
      · simp [*]
  · cases hr
    exact stepOk_move hpool h rfl rfl trivial

omit [DecidableEq T] in
theorem flushGive_ok {x : Option X} {obj : X} {next : Option X} {nr : BitVec 16} (hpool : PoolOk cap m chain)
    (h : ThreadOk cap m start t (.flushGive x obj next nr) rest) :
    StepOk cap start t m (delivered m obj) (.flushNext x next nr) := by
  obtain ⟨xs, rfl, hchain, hlen⟩ := h.walks
  have hobj : m.place obj = .flushed t := (h.mem obj).mp List.mem_cons_self
  obtain ⟨hnot, hnodup⟩ := List.nodup_cons.mp h.nodup
  refine ⟨⟨chain, hpool.deliver hobj⟩, ⟨xs, ?_⟩, fun u hu => Leaves.deliver hobj hu⟩
  refine ⟨fun y => ?_, ⟨hchain, hlen⟩, hnodup, fun y => ?_, h.start_le, trivial⟩
  · exact (update_place_iff (by simp [hobj]) (by simp) y).trans (h.carries y)
  · simp only [delivered]
    by_cases hy : y = obj
    · subst hy
      simp [hnot]
    · rw [Function.update_of_ne hy, ← h.mem, List.mem_cons, or_iff_right hy]

omit [DecidableEq T] in
theorem freeLink_ok {x : X} {head : Option X} (hpool : PoolOk cap m chain)
    (h : ThreadOk cap m start t (.freeLink x head nv) rest) :
    StepOk cap start t m { m with link := Function.update m.link x head } (.freeSwap x head nv) := by
  obtain rfl : rest = [] := h.walks
  have hx : m.place x = .freeing t := (h.carries x).mpr rfl
  refine ⟨⟨chain, hpool.write (by simp [hx])⟩,
    ⟨[], h.carries, rfl, h.nodup, h.mem, h.start_le, h.knows, ?_⟩, fun u hu => ?_⟩
  · exact Function.update_self x head m.link
  · exact Leaves.write hpool (by simp [hx]) (by simp [hx, hu.symm]) (by simp [hx])

theorem objpoolNext_ok (hsmall : cap < 2 ^ 16) (hpool : PoolOk cap m chain)
    (hwindow : m.swaps < start + 2 ^ 16)
    (h : ThreadOk cap m start t pc rest) :
    ∀ r, objpoolNext cap m t pc = some r → StepOk cap start t m r.1 r.2 := by
  intro r hr
  cases pc with
  | idle => cases hr
  | bug => cases hr
  | freeSwap x head nv => exact freeSwap_ok hsmall hpool h r hr
  | allocSwap head nv link => exact allocSwap_ok hpool hwindow h r hr
  | flushSwap x head nv => exact flushSwap_ok hpool h r hr
  | freeHead x =>
    cases hr
    exact stepOk_move hpool h rfl h.walks trivial
  | allocHead =>
    cases hr
    exact stepOk_move hpool h rfl h.walks trivial
  | flushHead x =>
    cases hr
    exact stepOk_move hpool h rfl h.walks trivial
  | freeVersion x head =>
    rw [objpoolNext] at hr
    split at hr
    · cases hr
      exact stepOk_move hpool h rfl h.walks trivial
    · rename_i hroom
      cases hr
      exact stepOk_move hpool h rfl h.walks (not_lt.mp hroom)
  | freeLink x head nv =>
    cases hr
    exact freeLink_ok hpool h
  | allocVersion head =>
    cases head with
    | none =>
      cases hr
      exact stepOk_move hpool h rfl h.walks trivial
    | some head =>
      rw [objpoolNext] at hr
      split at hr
      · cases hr
        exact stepOk_move hpool h rfl h.walks trivial
      · rename_i hnr
        cases hr
        exact stepOk_move hpool h rfl h.walks ⟨hnr, readAt_now hpool h.start_le⟩
  | allocLink head nv =>
    cases hr
    exact stepOk_move hpool h rfl h.walks ⟨h.knows.1, h.knows.2.mono le_rfl fun _ _ _ => rfl⟩
  | flushVersion x head =>
    rw [objpoolNext] at hr
    obtain rfl : rest = [] := h.walks
    split at hr
    · cases hr
      exact stepOk_move hpool h (flushReturn_carries x) (flushReturn_walks _ x) (flushReturn_knows x)
    · rename_i hnr
      cases hr
      exact stepOk_move hpool h rfl rfl hnr
  | flushNext x obj nr =>
    obtain ⟨hchain, hlen⟩ := h.walks
    cases obj with
    | none =>
      cases rest with
      | cons y ys => cases hchain.1
      | nil =>
        have hzero : nr = 0 := nr_eq_zero hlen.symm
        rw [objpoolNext, hzero, if_neg (by simp)] at hr
        cases hr
        exact stepOk_move hpool h (flushReturn_carries x) (flushReturn_walks _ x) (flushReturn_knows x)
    | some obj =>
      cases rest with
      | nil => cases hchain
      | cons y ys =>
        obtain ⟨heq, hrest⟩ := hchain
        cases heq
        cases hr
        exact stepOk_move hpool h rfl ⟨ys, rfl, hrest, nr_pred hlen⟩ trivial
  | flushGive x obj next nr =>
    cases hr
    exact flushGive_ok hpool h

/-! ## Runs -/

variable {s s' : ObjpoolState X T} {x : X}

/-- A call begins: the thread has nothing yet but, in `__objpool_free`, the object. -/
theorem ObjpoolInv.enter (h : ObjpoolInv cap s) (henter : objpoolEnter s t pc = some s')
    (hpc : pc.carries = none ∧ (∀ link, Walks link pc []) ∧
      ∀ (m : ObjpoolMem X T) start, Knows cap m start pc) : ObjpoolInv cap s' := by
  unfold objpoolEnter at henter
  split at henter
  · rename_i hidle
    cases henter
    refine ⟨h.pool, fun u => ?_⟩
    obtain ⟨rest, hu⟩ := h.thread u
    by_cases hut : u = t
    · subst hut
      rw [hidle] at hu
      obtain rfl : rest = [] := hu.walks
      simp only [Function.update_self]
      refine ⟨[], fun y => ?_, hpc.2.1 _, hu.nodup, hu.mem, le_rfl, hpc.2.2 _ _⟩
      rw [hu.carries, hpc.1]
      rfl
    · simp only [Function.update_of_ne hut]
      exact ⟨rest, hu⟩
  · cases henter

theorem ObjpoolInv.free (h : ObjpoolInv cap s) (hx : s.mem.place x = .out)
    (henter : objpoolEnter s t (.freeHead x) = some s') :
    ObjpoolInv cap { s'
      with mem := { s'.mem with place := Function.update s'.mem.place x (.freeing t) } } := by
  unfold objpoolEnter at henter
  split at henter
  · rename_i hidle
    cases henter
    refine ⟨?_, fun u => ?_⟩
    · obtain ⟨chain, hpool⟩ := h.pool
      refine ⟨chain, hpool.linked, hpool.length, hpool.nodup, fun y => ?_, hpool.le_cap,
        hpool.version, fun y => ?_⟩
      · exact (hpool.mem y).trans (update_place_iff (by simp [hx]) (by simp) y).symm
      · have hold := hpool.once y
        by_cases hy : y = x
        · subst hy
          rw [hx] at hold
          simpa [ObjPlace.inside] using hold
        · simpa [hy] using hold
    · obtain ⟨rest, hu⟩ := h.thread u
      by_cases hut : u = t
      · subst hut
        rw [hidle] at hu
        obtain rfl : rest = [] := hu.walks
        simp only [Function.update_self]
        refine ⟨[], fun y => ?_, rfl, hu.nodup, fun y => ?_, le_rfl, trivial⟩
        · by_cases hy : y = x
          · simp [hy, ObjpoolPc.carries]
          · have hold := hu.carries y
            simp only [ObjpoolPc.carries, reduceCtorEq, iff_false] at hold
            simp only [Function.update_of_ne hy, hold, ObjpoolPc.carries, Option.some.injEq, false_iff]
            exact fun heq => hy heq.symm
        · exact (hu.mem y).trans (update_place_iff (by simp [hx]) (by simp) y).symm
      · simp only [Function.update_of_ne hut]
        refine ⟨rest,
          hu.leaves ⟨fun y => ?_, fun y => ?_, fun _ _ => rfl, le_rfl,
          fun _ => ⟨rfl, fun _ _ => rfl⟩⟩⟩
        · exact update_place_iff (by simp [hx]) (by simpa using fun heq => hut heq.symm) y
        · exact update_place_iff (by simp [hx]) (by simp) y
  · cases henter

theorem objpoolStep_inv (hsmall : cap < 2 ^ 16) (h : ObjpoolInv cap s) (hshort : WindowShort s)
    (a : ObjpoolAct X T)
    (hstep : objpoolStep cap s a = some s') : ObjpoolInv cap s' := by
  cases a with
  | alloc t => exact h.enter hstep ⟨rfl, fun _ => rfl, fun _ _ => trivial⟩
  | flush t => exact h.enter hstep ⟨rfl, fun _ => rfl, fun _ _ => trivial⟩
  | free t x =>
    rw [objpoolStep] at hstep
    split at hstep
    · rename_i hx
      obtain ⟨s₁, henter, rfl⟩ := Option.map_eq_some_iff.mp hstep
      exact h.free hx henter
    · cases hstep
  | write x v =>
    rw [objpoolStep] at hstep
    split at hstep
    · rename_i hx
      cases hstep
      obtain ⟨chain, hpool⟩ := h.pool
      refine ⟨⟨chain, hpool.write (by simp [hx])⟩, fun u => ?_⟩
      obtain ⟨rest, hu⟩ := h.thread u
      exact ⟨rest, hu.leaves (Leaves.write hpool (by simp [hx]) (by simp [hx]) (by simp [hx]))⟩
    · cases hstep
  | step t =>
    obtain ⟨r, hr, rfl⟩ := Option.map_eq_some_iff.mp hstep
    obtain ⟨chain, hpool⟩ := h.pool
    obtain ⟨rest, ht⟩ := h.thread t
    have hbusy : s.pc t ≠ .idle := by
      intro hidle
      rw [hidle] at hr
      cases hr
    obtain ⟨hpool', ht', hothers⟩ := objpoolNext_ok hsmall hpool (hshort t hbusy) ht r hr
    refine ⟨hpool', fun u => ?_⟩
    by_cases hu : u = t
    · subst hu
      simp only [Function.update_self]
      exact ht'
    · obtain ⟨rest', hu'⟩ := h.thread u
      simp only [Function.update_of_ne hu]
      exact ⟨rest', hu'.leaves (hothers u hu)⟩

omit [DecidableEq X] [DecidableEq T] in
theorem objpoolInv_init (link : X → Option X) : ObjpoolInv cap (objpoolInit link : ObjpoolState X T) where
  pool := ⟨[], rfl, rfl, List.nodup_nil, fun x => by simp [objpoolInit], Nat.zero_le _, rfl, fun _ => rfl⟩
  thread t :=
    ⟨[],
      fun x => by simp [objpoolInit,
      ObjpoolPc.carries], rfl, List.nodup_nil, fun x => by simp [objpoolInit], le_rfl,
    trivial⟩

omit [DecidableEq X] [DecidableEq T] in
theorem ObjpoolInv.ok (h : ObjpoolInv cap s) : ObjpoolOk cap s where
  pool := h.pool
  flushes t := by
    obtain ⟨rest, ht⟩ := h.thread t
    exact ⟨rest, ht.walks, ht.nodup, ht.mem⟩
  noBug t hbug := by
    obtain ⟨rest, ht⟩ := h.thread t
    have hknows := ht.knows
    rw [hbug] at hknows
    exact hknows

/-- The capacities of the source are within what `nr` can count. -/
theorem prepareObjpool_lt (minObjects objects : ℕ) : prepareObjpool minObjects objects < 2 ^ 16 := by
  have hle : ∀ n, n ≤ 512 → 2 ^ Nat.clog 2 (max 64 n) < 2 ^ 16 := by
    intro n hn
    apply Nat.pow_lt_pow_right (by norm_num)
    have hmono := Nat.clog_mono_right 2 (max_le (by norm_num) hn : max 64 n ≤ 512)
    have hlog : Nat.clog 2 512 = 9 := by
      rw [show 512 = 2 ^ 9 from rfl, Nat.clog_pow 2 9 (by norm_num)]
    omega
  exact hle _ (min_le_right _ _)

/-- In any run in which every call sees fewer than `2 ^ 16` exchanges, from an empty pool. The
capacities that the source gives a pool are small enough. -/
theorem objpool_ok (cap : ℕ) (hcap : cap < 2 ^ 16) (link : X → Option X) (as : List (ObjpoolAct X T))
    (s : ObjpoolState X T)
    (hshort : RunMeets (objpoolStep cap) (fun s _ => WindowShort s) (objpoolInit link) as)
    (hrun : runActs (objpoolStep cap) (objpoolInit link) as = some s) :
    ObjpoolOk cap s ∧ initObjpoolCap < 2 ^ 16 ∧
      ∀ minObjects objects, prepareObjpool minObjects objects < 2 ^ 16 := by
  have hinv : ObjpoolInv cap s :=
    run_invariant (fun s a s' h hgood hstep => objpoolStep_inv hcap h hgood a hstep) as _ s
      (objpoolInv_init link) hshort hrun
  exact ⟨hinv.ok, by decide, prepareObjpool_lt⟩

instance [Fintype T] (s : ObjpoolState X T) : Decidable (WindowShort s) :=
  inferInstanceAs (Decidable (∀ t, s.pc t ≠ .idle → s.mem.swaps < s.started t + 2 ^ 16))

/-- A pool of two. `true` reads the head 2 and its link to 1; `false` takes both objects and gives 2
back, now without a link. The exchange of `true` fails. Two more frees of `false` fill the pool and
flush it. -/
def reusedHead : List (ObjpoolAct ℕ Bool) :=
  let call (n : ℕ) : List (ObjpoolAct ℕ Bool) := List.replicate n (.step false)
  (.free false 1 :: call 4).append
    ((.free false 2 :: call 4).append ((.alloc true :: List.replicate 3 (.step true)).append
    ((.alloc false :: call 4).append
      ((.alloc false :: call 4).append ((.write 2 (some 7) :: .free false 2 :: call 4).append
      (.step true :: (.free false 1 :: call 4).append (.free false 3 :: call 14)))))))

theorem objpool_ok_reusedHead :
    ∃ s, RunMeets (objpoolStep 2) (fun s _ => WindowShort s)
      (objpoolInit fun _ => none) reusedHead ∧
    runActs (objpoolStep 2) (objpoolInit fun _ => none) reusedHead = some s ∧ s.pc true = .allocHead ∧
    s.mem.head = some 3 ∧ s.mem.taken 2 = 2 ∧ ObjpoolOk 2 s := by
  have hmeets := runMeets_of_checks
    (show runChecks (objpoolStep 2) (fun s _ => WindowShort s) (objpoolInit fun _ => none)
      reusedHead = true by decide +kernel)
  have hfinal : (runActs (objpoolStep 2) (objpoolInit fun _ => none) reusedHead).map
      (fun s => (s.pc true, s.mem.head, s.mem.taken 2)) = some (.allocHead, some 3, 2) := by
    decide +kernel
  obtain ⟨s, hs, hvalues⟩ := Option.map_eq_some_iff.mp hfinal
  obtain ⟨hpc, hrest⟩ := Prod.mk.inj hvalues
  obtain ⟨hhead, htaken⟩ := Prod.mk.inj hrest
  exact ⟨s, hmeets, hs, hpc, hhead, htaken, (objpool_ok 2 (by decide) _ reusedHead s hmeets hs).1⟩

end Steps

end Skp.Mm
