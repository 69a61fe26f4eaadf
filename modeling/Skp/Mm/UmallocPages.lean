import Skp.Mm.UmallocModel

/-! # The blocks of pages

What a node has allocated stays allocated until it is freed, and two allocated blocks have no page
in common, whatever their nodes. -/
namespace Skp.Mm
set_option autoImplicit false
open Skp.Foundations

variable {T : Type} {s s' : UmallocState T} {b b' : ℕ × ℕ} {q : ℕ}

/-! ## Steps of a node -/

section Nodes
variable [DecidableEq T] {c : BuddyParams} {n n' : BuddySys T} {a : BuddyAct T}

theorem reclaimNext_frame (c : BuddyParams) (n : BuddySys T) (t : T) :
    (reclaimNext c n t).alloc = n.alloc ∧ (reclaimNext c n t).zone.inited = n.zone.inited := by
  rw [reclaimNext, reclaimPop]
  split
  · split <;> exact ⟨rfl, rfl⟩
  · exact ⟨rfl, rfl⟩

theorem mergeLoop_inited (k : ℕ) (z : Zone) (page order : ℕ) :
    (mergeLoop k z page order).1.inited = z.inited := by
  induction k generalizing z page order with
  | zero => rfl
  | succ k ih =>
    simp only [mergeLoop]
    split
    · exact ih _ _ _
    · rfl

theorem expand_inited (k : ℕ) (z : Zone) (page low : ℕ) : (expand k z page low).inited = z.inited := by
  induction k generalizing z with
  | zero => rfl
  | succ k ih => exact ih _

theorem rmqueue_inited (c : BuddyParams) (z : Zone) (order : ℕ) :
    (rmqueue c z order).1.inited = z.inited := by
  rw [rmqueue]
  split
  · rfl
  · split
    · rfl
    · exact expand_inited _ _ _ _

theorem buddyStep_alloc (hs : buddyStep c n a = some n') (hb : b ∈ n.alloc)
    (hfree : freedBlock a ≠ some b) : b ∈ n'.alloc := by
  cases a with
  | rmqueue order =>
    simp only [buddyStep] at hs
    split at hs
    · obtain rfl := Option.some.inj hs
      exact hb
    · obtain rfl := Option.some.inj hs
      exact Finset.mem_insert_of_mem hb
  | free t page order =>
    obtain ⟨-, heq⟩ := Option.ite_none_right_eq_some.mp hs
    obtain rfl := Option.some.inj heq
    have hne : b ≠ (page, order) := fun h => hfree (congrArg some h.symm)
    split_ifs
    · exact Finset.mem_erase.mpr ⟨hne, hb⟩
    · rw [(reclaimNext_frame c _ t).1]
      exact Finset.mem_erase.mpr ⟨hne, hb⟩
  | giveBack t =>
    simp only [buddyStep] at hs
    split at hs
    · cases hs
    · obtain rfl := Option.some.inj hs
      rw [(reclaimNext_frame c _ t).1]
      exact hb
  | supply base =>
    simp only [buddyStep] at hs
    obtain ⟨-, heq⟩ := Option.ite_none_right_eq_some.mp hs
    split_ifs at heq
    · obtain rfl := Option.some.inj heq
      exact Finset.mem_insert_of_mem hb
    · obtain rfl := Option.some.inj heq
      exact Finset.mem_union_left _ hb

theorem buddyStep_inited (hs : buddyStep c n a = some n') (hq : n'.zone.inited q = true) :
    n.zone.inited q = true ∨ ∃ base, a = .supply base ∧ base ≤ q := by
  cases a with
  | rmqueue order =>
    left
    simp only [buddyStep] at hs
    have hsame := rmqueue_inited c n.zone order
    split at hs
    · rename_i z hz
      obtain rfl := Option.some.inj hs
      rw [hz] at hsame
      exact hsame ▸ hq
    · rename_i z page hz
      obtain rfl := Option.some.inj hs
      rw [hz] at hsame
      exact hsame ▸ hq
  | free t page order =>
    left
    obtain ⟨-, heq⟩ := Option.ite_none_right_eq_some.mp hs
    obtain rfl := Option.some.inj heq
    have hbulk : (freePagesBulk c n.zone page order).1.inited = n.zone.inited := mergeLoop_inited _ _ _ _
    split_ifs at hq
    · exact hbulk ▸ hq
    · rw [(reclaimNext_frame c _ t).2] at hq
      exact hbulk ▸ hq
  | giveBack t =>
    left
    simp only [buddyStep] at hs
    split at hs
    · cases hs
    · obtain rfl := Option.some.inj hs
      rw [(reclaimNext_frame c _ t).2] at hq
      simp only [nodeReclaimMemory] at hq
      split_ifs at hq
      exact hq
  | supply base =>
    by_cases hold : n.zone.inited q = true
    · exact .inl hold
    · right
      refine ⟨base, rfl, ?_⟩
      simp only [buddyStep] at hs
      obtain ⟨-, heq⟩ := Option.ite_none_right_eq_some.mp hs
      by_contra hlow
      have hrange (k : ℕ) : decide (base + k ≤ q) = false := decide_eq_false (by omega)
      have hzero : decide (base ≤ q) = false := decide_eq_false hlow
      split_ifs at heq
      · obtain rfl := Option.some.inj heq
        simp only [initVpages, hzero, Bool.false_and, Bool.false_eq_true, if_false] at hq
        exact hold hq
      · obtain rfl := Option.some.inj heq
        simp only [initVpages, hzero, hrange, Bool.false_and, Bool.false_eq_true, if_false] at hq
        exact hold hq

end Nodes

/-! ## Allocated blocks -/

/-- The nodes are in order and the address 0 is in none of their blocks. -/
structure NodesOk (s : UmallocState T) : Prop where
  node : ∀ n, BuddyInv x64Node 1 (s.node n)
  null : (s.node 0).zone.inited 0 = false

theorem add_le_of_dvd {a d n : ℕ} (ha : d ∣ a) (hn : d ∣ n) (hlt : a < n) : a + d ≤ n := by
  obtain ⟨x, rfl⟩ := ha
  obtain ⟨y, rfl⟩ := hn
  have hxy : x + 1 ≤ y := Nat.lt_of_mul_lt_mul_left hlt
  calc d * x + d = d * (x + 1) := by ring
    _ ≤ d * y := Nat.mul_le_mul_left d hxy

theorem NodesOk.aligned (h : NodesOk s) (hb : s.Allocated b) : 2 ^ b.2 ∣ b.1 ∧ b.2 ≤ 10 := by
  have hcore := (h.node (b.1 / x64Node.nodePages)).core
  have horder : b.2 ≤ 10 := hcore.alloc_le (b.1 % x64Node.nodePages, b.2) hb
  have haligned : 2 ^ b.2 ∣ b.1 % x64Node.nodePages :=
    hcore.tiles.aligned (b.1 % x64Node.nodePages, b.2) (Or.inl hb)
  have hnode : 2 ^ b.2 ∣ x64Node.nodePages := pow_dvd_pow 2 (by omega)
  exact ⟨(Nat.dvd_mod_iff hnode).mp haligned, horder⟩

theorem NodesOk.inNode (h : NodesOk s) (hb : s.Allocated b) (hq : q ∈ span b) :
    q / x64Node.nodePages = b.1 / x64Node.nodePages ∧
      q % x64Node.nodePages ∈ span (b.1 % x64Node.nodePages, b.2) := by
  obtain ⟨hlow, hhigh⟩ : b.1 ≤ q ∧ q < b.1 + 2 ^ b.2 := hq
  obtain ⟨haligned, horder⟩ := h.aligned hb
  have hnode : 2 ^ b.2 ∣ 131072 := pow_dvd_pow 2 (show b.2 ≤ 17 by omega)
  have hend := add_le_of_dvd ((Nat.dvd_mod_iff hnode).mpr haligned) hnode (Nat.mod_lt b.1 (by decide))
  have hpages : x64Node.nodePages = 131072 := rfl
  rw [hpages]
  refine ⟨by omega, ?_⟩
  show b.1 % 131072 ≤ q % 131072 ∧ q % 131072 < b.1 % 131072 + 2 ^ b.2
  omega

theorem NodesOk.unique (h : NodesOk s) (hb : s.Allocated b) (hb' : s.Allocated b') (hq : q ∈ span b)
    (hq' : q ∈ span b') : b = b' := by
  obtain ⟨hnode, hin⟩ := h.inNode hb hq
  obtain ⟨hnode', hin'⟩ := h.inNode hb' hq'
  have hsame : b.1 / x64Node.nodePages = b'.1 / x64Node.nodePages := hnode.symm.trans hnode'
  have hother : (b'.1 % x64Node.nodePages, b'.2) ∈ (s.node (b.1 / x64Node.nodePages)).alloc := by
    rw [hsame]
    exact hb'
  have heq :=
    (h.node (b.1 / x64Node.nodePages)).core.tiles.disjoint _ (Or.inl hb) _
      (Or.inl hother) _ hin hin'
  injection heq with hpage horder
  apply Prod.ext _ horder
  calc b.1 = x64Node.nodePages * (b.1 / x64Node.nodePages) + b.1 % x64Node.nodePages :=
    (Nat.div_add_mod _ _).symm
    _ = x64Node.nodePages * (b'.1 / x64Node.nodePages) + b'.1 % x64Node.nodePages := by rw [hsame, hpage]
    _ = b'.1 := Nat.div_add_mod _ _

theorem NodesOk.ne_zero (h : NodesOk s) (hb : s.Allocated b) : b.1 ≠ 0 := by
  intro hzero
  have hcore := (h.node 0).core
  have hin : (0, b.2) ∈ (s.node 0).alloc := by
    have hb' := hb
    rw [UmallocState.Allocated, hzero] at hb'
    exact hb'
  have hsupplied := hcore.supplied (Or.inl hin) (start_mem_span (0, b.2))
  have hinited : (s.node 0).zone.inited 0 = true := hsupplied.1
  rw [h.null] at hinited
  cases hinited

/-! ## Caches and users -/

/-- Every cache is in order, what it or a user has is allocated, and no page is had twice. -/
structure Owners (s : UmallocState T) : Prop where
  nodes : NodesOk s
  cache : ∀ i, SlabInv (umallocParams i) [] none (s.cache i)
  taken : ∀ b, s.Taken b → s.Allocated b
  once : ∀ i j p, p ∈ (s.cache i).live → p ∈ (s.cache j).live → i = j
  apart : ∀ i p, p ∈ (s.cache i).live → slabBlock i p ∉ s.blocks

theorem owners_init : Owners (umallocInit : UmallocState T) where
  nodes := ⟨fun _ => buddyInv_init, rfl⟩
  cache := fun i => slabInv_init (umallocParams i)
  taken := by
    rintro b (hb | ⟨i, hp, -⟩)
    · cases hb
    · cases hp
  once := fun i j p hp => by cases hp
  apart := fun i p hp => by cases hp

theorem Owners.live (h : Owners s) {i : CacheIndex} {p : ℕ} (hp : p ∈ (s.cache i).live) :
    s.Allocated (slabBlock i p) :=
  h.taken _ (Or.inr ⟨i, hp, rfl⟩)

/-- A block that is allocated and not taken has no page in common with one that is taken. -/
theorem Owners.ne_of_not_taken (h : Owners s) (hb : s.Allocated b) (hnot : ¬s.Taken b) (hb' : s.Taken b')
    (hq : q ∈ span b) : q ∉ span b' := by
  intro hq'
  have heq := h.nodes.unique hb (h.taken _ hb') hq hq'
  exact hnot (heq ▸ hb')

variable [DecidableEq T]

theorem Owners.page (h : Owners s) {nid : ℕ} {a : BuddyAct T} {n : BuddySys T} (hmay : s.MayPage nid a)
    (hs : buddyStep x64Node (s.node nid) a = some n) :
    Owners { s with node := Function.update s.node nid n } where
  nodes := by
    constructor
    · intro k
      show BuddyInv x64Node 1 (Function.update s.node nid n k)
      by_cases hk : k = nid
      · rw [hk, Function.update_self]
        exact buddyInv_step (h.nodes.node nid) hs
      · rw [Function.update_of_ne hk]
        exact h.nodes.node k
    · show (Function.update s.node nid n 0).zone.inited 0 = false
      by_cases hzero : 0 = nid
      · rw [← hzero, Function.update_self]
        by_contra hinited
        rw [Bool.not_eq_false] at hinited
        rw [← hzero] at hs hmay
        rcases buddyStep_inited hs hinited with hold | ⟨base, rfl, hbase⟩
        · rw [h.nodes.null] at hold
          cases hold
        · rcases hmay with hnid | hbase'
          · exact hnid rfl
          · omega
      · rw [Function.update_of_ne hzero]
        exact h.nodes.null
  cache := h.cache
  taken := by
    intro b hb
    have hold : s.Allocated b := h.taken b hb
    show (b.1 % x64Node.nodePages, b.2) ∈ (Function.update s.node nid n (b.1 / x64Node.nodePages)).alloc
    by_cases hnode : b.1 / x64Node.nodePages = nid
    · rw [hnode, Function.update_self]
      apply buddyStep_alloc hs
      · rw [← hnode]
        exact hold
      · intro hfreed
        have hself : nid * x64Node.nodePages + b.1 % x64Node.nodePages = b.1 := by
          rw [← hnode, Nat.mul_comm, Nat.div_add_mod]
        cases a <;> cases hfreed
        apply hmay
        rw [hself]
        exact hb
    · rw [Function.update_of_ne hnode]
      exact hold
  once := h.once
  apart := h.apart

theorem Owners.slab (h : Owners s) {i : CacheIndex} {a : SlabAct T} {c : SlabState T} (hmay : s.MaySlab i a)
    (hs : slabStep (umallocParams i) (s.cache i) a = some c) (d : ℕ → PageDesc) (m : ℕ → UInt8) :
    Owners { s with cache := Function.update s.cache i c, desc := d, mem := m } := by
  have hmove := slabStep_move hs
  -- a page of the new state is an old one or the one on its way
  have hlive (j : CacheIndex) (p : ℕ) (hp : p ∈ (Function.update s.cache i c j).live) :
      p ∈ (s.cache j).live ∨ (j = i ∧ newPage a = some p) := by
    by_cases hj : j = i
    · subst hj
      rw [Function.update_self] at hp
      exact (hmove.live p hp).imp id fun hnew => ⟨rfl, hnew⟩
    · rw [Function.update_of_ne hj] at hp
      exact .inl hp
  have hnew (j : CacheIndex) (p : ℕ) (hp : p ∈ (s.cache j).live) : newPage a ≠ some p := by
    intro heq
    obtain ⟨halloc, hfree⟩ := hmay p heq
    exact h.ne_of_not_taken halloc hfree (Or.inr ⟨j, hp, rfl⟩ : s.Taken (slabBlock j p))
      (start_mem_span _) (start_mem_span _)
  constructor
  · exact ⟨h.nodes.node, h.nodes.null⟩
  · intro j
    show SlabInv (umallocParams j) [] none (Function.update s.cache i c j)
    by_cases hj : j = i
    · subst hj
      rw [Function.update_self]
      exact slabStep_inv (h.cache j) hs
    · rw [Function.update_of_ne hj]
      exact h.cache j
  · rintro b (hb | ⟨j, hp, heq⟩)
    · exact h.taken b (Or.inl hb)
    · rcases hlive j b.1 hp with hold | ⟨rfl, hpage⟩
      · exact h.taken b (Or.inr ⟨j, hold, heq⟩)
      · rw [heq]
        exact (hmay _ hpage).1
  · intro j k p hj hk
    rcases hlive j p hj with hold | ⟨rfl, hpage⟩
    · rcases hlive k p hk with hold' | ⟨rfl, hpage⟩
      · exact h.once j k p hold hold'
      · exact absurd hpage (hnew j p hold)
    · rcases hlive k p hk with hold' | ⟨rfl, -⟩
      · exact absurd hpage (hnew k p hold')
      · rfl
  · intro j p hp
    rcases hlive j p hp with hold | ⟨rfl, hpage⟩
    · exact h.apart j p hold
    · exact fun hin => (hmay p hpage).2 (Or.inl hin)

omit [DecidableEq T] in
theorem Owners.takePages (h : Owners s) (halloc : s.Allocated b) (hfree : ¬s.Taken b) (d : ℕ → PageDesc) :
    Owners { s with blocks := insert b s.blocks, desc := d } where
  nodes := ⟨h.nodes.node, h.nodes.null⟩
  cache := h.cache
  taken := by
    rintro b' (hb | hlive)
    · rcases Finset.mem_insert.mp hb with rfl | hb
      · exact halloc
      · exact h.taken b' (Or.inl hb)
    · exact h.taken b' (Or.inr hlive)
  once := h.once
  apart := by
    intro i p hp hin
    rcases Finset.mem_insert.mp hin with heq | hin
    · exact hfree (Or.inr ⟨i, heq ▸ hp, heq ▸ rfl⟩)
    · exact h.apart i p hp hin

omit [DecidableEq T] in
theorem Owners.givePages (h : Owners s) (b : ℕ × ℕ) (d : ℕ → PageDesc) :
    Owners { s with blocks := s.blocks.erase b, desc := d } where
  nodes := ⟨h.nodes.node, h.nodes.null⟩
  cache := h.cache
  taken := by
    rintro b' (hb | hlive)
    · exact h.taken b' (Or.inl (Finset.mem_of_mem_erase hb))
    · exact h.taken b' (Or.inr hlive)
  once := h.once
  apart := fun i p hp hin => h.apart i p hp (Finset.mem_of_mem_erase hin)

omit [DecidableEq T] in
theorem Owners.setMem (h : Owners s) (m : ℕ → UInt8) : Owners { s with mem := m } :=
  ⟨⟨h.nodes.node, h.nodes.null⟩, h.cache, h.taken, h.once, h.apart⟩

theorem owners_step {a : UmallocAct T} (h : Owners s) (hs : umallocStep s a = some s') : Owners s' := by
  cases a with
  | page nid a =>
    obtain ⟨⟨-, hmay⟩, heq⟩ := Option.ite_none_right_eq_some.mp hs
    obtain ⟨n, hn, rfl⟩ := Option.map_eq_some_iff.mp heq
    exact h.page hmay hn
  | slab i a =>
    obtain ⟨hmay, heq⟩ := Option.ite_none_right_eq_some.mp hs
    obtain ⟨c, hc, rfl⟩ := Option.map_eq_some_iff.mp heq
    exact h.slab hmay hc _ _
  | takePages b =>
    obtain ⟨⟨halloc, hfree⟩, heq⟩ := Option.ite_none_right_eq_some.mp hs
    obtain rfl := Option.some.inj heq
    exact h.takePages halloc hfree _
  | givePages b =>
    obtain ⟨-, heq⟩ := Option.ite_none_right_eq_some.mp hs
    obtain rfl := Option.some.inj heq
    exact h.givePages b _
  | write b k v =>
    obtain ⟨-, heq⟩ := Option.ite_none_right_eq_some.mp hs
    obtain rfl := Option.some.inj heq
    exact h.setMem _
  | outside x v =>
    obtain ⟨-, heq⟩ := Option.ite_none_left_eq_some.mp hs
    obtain rfl := Option.some.inj heq
    exact h.setMem _

end Skp.Mm
