import Skp.Workqueue.Model

/-! # Where the works are

An item is on a list exactly when its flags word holds a pool_workqueue, it is on one list only, and that
list belongs to the pool_workqueue. This is stated item by item, so that an operation only has to be looked
at for the items it touches. -/
namespace Skp.Workqueue
set_option autoImplicit false
open Skp.Foundations

variable {P Q G W K T : Type}

/-- A list that may hold the works of the pool_workqueue `q`. -/
def Fits (cfg : WqConfig P Q G K) : Place P Q K → Q → Prop
  | .worklist p, q => p = cfg.poolOf q
  | .delayed q', q => q' = q
  | .scheduled k, q => cfg.workerPool k = cfg.poolOf q

/-- An item is where its flags word says. -/
structure Situated (cfg : WqConfig P Q G K) (c : Core P Q G W K T) (x : Item W T) : Prop where
  queued : ∀ q, (c.flags x).data = .pwq q → ∃ pl, x ∈ c.lists pl
  unique : ∀ pl pl', x ∈ c.lists pl → x ∈ c.lists pl' → pl = pl'
  placed : ∀ pl, x ∈ c.lists pl → ∃ q, (c.flags x).data = .pwq q ∧ Fits cfg pl q
  pending : ∀ pl, x ∈ c.lists pl → (c.flags x).pending = true
  barrierBit : ∀ pl, x ∈ c.lists pl → (c.flags x).barrier = x.isBarrier
  delayedBit : ∀ pl, x ∈ c.lists pl → x.isBarrier = false → (c.flags x).delayed = pl.isDelayed

structure Layout (cfg : WqConfig P Q G K) (c : Core P Q G W K T) : Prop where
  nodup : ∀ pl, (c.lists pl).Nodup
  situated : ∀ x, Situated cfg c x
  running_pool : ∀ k r, c.curr k = some r → cfg.poolOf r.pwq = cfg.workerPool k
  running_bit : ∀ k r, c.curr k = some r → r.barrier = r.item.isBarrier
  running_unique : ∀ k k' r r', c.curr k = some r → c.curr k' = some r' → r.item = r'.item →
    cfg.workerPool k = cfg.workerPool k' → k = k'

theorem layout_init (cfg : WqConfig P Q G K) {c : Core P Q G W K T} (hl : ∀ pl, c.lists pl = [])
    (hf : ∀ x, (c.flags x).data = .none) (hc : ∀ k, c.curr k = none) : Layout cfg c where
  nodup := fun pl => by simp [hl]
  situated := fun x =>
    { queued := fun q hq => by simp [hf] at hq
      unique := fun pl pl' h => by simp [hl] at h
      placed := fun pl h => by simp [hl] at h
      pending := fun pl h => by simp [hl] at h
      barrierBit := fun pl h => by simp [hl] at h
      delayedBit := fun pl h => by simp [hl] at h }
  running_pool := fun k r h => by simp [hc] at h
  running_bit := fun k r h => by simp [hc] at h
  running_unique := fun k k' r r' h => by simp [hc] at h

section Situated
variable {cfg : WqConfig P Q G K} {c c' : Core P Q G W K T} {x : Item W T}

/-- The bits of a flags word that say where its item is. -/
def SameWord (f f' : WorkFlags P Q) : Prop :=
  f'.data = f.data ∧ f'.pending = f.pending ∧ f'.barrier = f.barrier

theorem SameWord.refl (f : WorkFlags P Q) : SameWord f f := ⟨rfl, rfl, rfl⟩

theorem Situated.congr (h : Situated cfg c x) (hl : ∀ pl, x ∈ c'.lists pl ↔ x ∈ c.lists pl)
    (hf : SameWord (c.flags x) (c'.flags x)) (hd : (c'.flags x).delayed = (c.flags x).delayed) :
    Situated cfg c' x where
  queued := by
    intro q hq
    obtain ⟨pl, hx⟩ := h.queued q (hf.1 ▸ hq)
    exact ⟨pl, (hl pl).mpr hx⟩
  unique := fun pl pl' h1 h2 => h.unique pl pl' ((hl pl).mp h1) ((hl pl').mp h2)
  placed := by
    intro pl hx
    rw [hf.1]
    exact h.placed pl ((hl pl).mp hx)
  pending := by
    intro pl hx
    rw [hf.2.1]
    exact h.pending pl ((hl pl).mp hx)
  barrierBit := by
    intro pl hx
    rw [hf.2.2]
    exact h.barrierBit pl ((hl pl).mp hx)
  delayedBit := by
    intro pl hx hb
    rw [hd]
    exact h.delayedBit pl ((hl pl).mp hx) hb

/-- An item that goes from `src` to `dst`, both lists of its pool_workqueue. -/
theorem Situated.move (h : Situated cfg c x) {src dst : Place P Q K} (hx : x ∈ c.lists src)
    (hl : ∀ pl, x ∈ c'.lists pl ↔ pl = dst) (hf : SameWord (c.flags x) (c'.flags x))
    (hd : x.isBarrier = false → (c'.flags x).delayed = dst.isDelayed)
    (hfit : ∀ q, Fits cfg src q → Fits cfg dst q) : Situated cfg c' x where
  queued := fun q _ => ⟨dst, (hl dst).mpr rfl⟩
  unique := fun pl pl' h1 h2 => ((hl pl).mp h1).trans ((hl pl').mp h2).symm
  placed := by
    intro pl hpl
    obtain ⟨q, hq, hfits⟩ := h.placed src hx
    rw [(hl pl).mp hpl, hf.1]
    exact ⟨q, hq, hfit q hfits⟩
  pending := by
    intro pl _
    rw [hf.2.1]
    exact h.pending src hx
  barrierBit := by
    intro pl _
    rw [hf.2.2]
    exact h.barrierBit src hx
  delayedBit := by
    intro pl hpl hb
    rw [(hl pl).mp hpl]
    exact hd hb

theorem situated_of_unlisted (hl : ∀ pl, x ∉ c.lists pl) (hf : ∀ q, (c.flags x).data ≠ .pwq q) :
    Situated cfg c x where
  queued := fun q hq => absurd hq (hf q)
  unique := fun pl _ h => absurd h (hl pl)
  placed := fun pl h => absurd h (hl pl)
  pending := fun pl h => absurd h (hl pl)
  barrierBit := fun pl h => absurd h (hl pl)
  delayedBit := fun pl h => absurd h (hl pl)

/-- An item put on one list of the pool_workqueue `q`, with the flags word of `insert_work`. -/
theorem situated_of_listed {pl : Place P Q K} {q : Q} (hl : ∀ pl', x ∈ c.lists pl' ↔ pl' = pl)
    (hq : (c.flags x).data = .pwq q) (hp : (c.flags x).pending = true)
    (hb : (c.flags x).barrier = x.isBarrier)
    (hd : x.isBarrier = false → (c.flags x).delayed = pl.isDelayed) (hfit : Fits cfg pl q) :
    Situated cfg c x where
  queued := fun _ _ => ⟨pl, (hl pl).mpr rfl⟩
  unique := fun pl1 pl2 h1 h2 => ((hl pl1).mp h1).trans ((hl pl2).mp h2).symm
  placed := fun pl' h => ⟨q, hq, (hl pl').mp h ▸ hfit⟩
  pending := fun _ _ => hp
  barrierBit := fun _ _ => hb
  delayedBit := fun pl' h hx => (hl pl').mp h ▸ hd hx

theorem Layout.unlisted (h : Layout cfg c) (hx : ∀ q, (c.flags x).data ≠ .pwq q) (pl : Place P Q K) :
    x ∉ c.lists pl := by
  intro hm
  obtain ⟨q, hq, -⟩ := (h.situated x).placed pl hm
  exact hx q hq

theorem Layout.data_of_mem (h : Layout cfg c) {pl : Place P Q K} (hx : x ∈ c.lists pl) :
    ∃ q, (c.flags x).data = .pwq q ∧ Fits cfg pl q := (h.situated x).placed pl hx

end Situated

end Skp.Workqueue
