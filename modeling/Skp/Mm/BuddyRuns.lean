import Skp.Mm.BuddyLoops

/-! # The buddy system along every run

The invariant of the whole node and its steps. Between a block's pop in the last loop of
`__free_pages_bulk` and `node_reclaim_memory` the block belongs to the thread that gives it back; its
pages count as reclaimed from the pop on. -/
namespace Skp.Mm
set_option autoImplicit false
open Skp.Foundations

variable {z : Zone} {A : Set (ℕ × ℕ)} {S : Set ℕ} {top : ℕ}

/-! ## Giving a block back -/

/-- The pop of the last loop: like `takeBlock`, but the flags stay and the pages are no longer supplied. -/
theorem BuddyCore.drop (h : BuddyCore top z A S) {p k x : ℕ} {y : Bool} {rest : List ℕ}
    (hp : z.freeList k = p :: rest) :
    BuddyCore top { z with
      nrFree := Function.update z.nrFree k (z.nrFree k - 1)
      freeList := Function.update z.freeList k rest
      freePages := x
      hasFree := y } A (S \ span (p, k)) := by
  have hfree : (p, k) ∈ freeBlocks z := by
    show p ∈ z.freeList k
    rw [hp]
    exact List.mem_cons_self
  have herase : (z.freeList k).erase p = rest := by rw [hp, List.erase_cons_head]
  have htake := h.take hfree
  have hmem : ∀ b : ℕ × ℕ, b.1 ∈ Function.update z.freeList k rest b.2 ↔ b ∈ freeBlocks z ∧ b ≠ (p, k) := by
    intro b
    rw [← h.mem_freeBlocks_take b, ← herase]
    rfl
  constructor
  · have hnot : (p, k) ∉ A := fun ha => h.apart _ ha hfree
    have hset : (A ∪ freeBlocks z) \ {(p, k)} = A ∪ {b | b.1 ∈ Function.update z.freeList k rest b.2} := by
      ext b
      simp only [Set.mem_sdiff, Set.mem_union, Set.mem_singleton_iff, Set.mem_ofPred_eq, hmem b]
      by_cases hb : b = (p, k)
      · subst hb
        simp [hnot]
      · simp [hb]
    have hpages : usable z S \ span (p, k) = usable z (S \ span (p, k)) := by
      ext q
      simp only [usable, Set.mem_sdiff, Set.mem_ofPred_eq]
      tauto
    have htiles := h.tiles.remove (Or.inr hfree)
    rw [hset, hpages] at htiles
    exact htiles
  · exact fun b hb hbf => h.apart b hb ((hmem b).mp hbf).1
  · exact h.alloc_le
  · exact fun b hb => h.free_le b ((hmem b).mp hb).1
  · intro l
    have := htake.nodup l
    rw [← herase]
    exact this
  · intro l
    have := htake.nrFree l
    rw [← herase]
    exact this
  · exact fun b hb => h.head b ((hmem b).mp hb).1
  · intro q hq hflag
    obtain ⟨l, hl, hqf⟩ := h.flag q hq.1 hflag
    refine ⟨l, hl, (hmem _).mpr ⟨hqf, fun heq => ?_⟩⟩
    apply hq.2
    rw [show q = p from congrArg Prod.fst heq]
    exact start_mem_span (p, k)
  · exact fun l q hl hq hbq => h.noBuddies l q hl ((hmem _).mp hq).1 ((hmem _).mp hbq).1

theorem BuddyCore.setCounts (h : BuddyCore top z A S) (x : ℕ) (y : Bool) :
    BuddyCore top { z with freePages := x, hasFree := y } A S :=
  ⟨h.tiles, h.apart, h.alloc_le, h.free_le, h.nodup, h.nrFree, h.head, h.flag, h.noBuddies⟩

/-! ## Supplying a block -/

/-- A zone in which the pages of `P` have got fresh descriptors, those of `rsv` reserved. -/
structure Fresh (z z' : Zone) (P : Set ℕ) (rsv : ℕ → Bool) : Prop where
  lists : z'.freeList = z.freeList ∧ z'.nrFree = z.nrFree ∧ z'.freePages = z.freePages ∧
    z'.hasFree = z.hasFree
  old : ∀ q, q ∉ P → z'.inited q = z.inited q ∧ z'.reserved q = z.reserved q ∧ z'.buddy q = z.buddy q ∧
    z'.order q = z.order q
  new : ∀ q, q ∈ P → z'.inited q = true ∧ z'.reserved q = rsv q ∧ z'.buddy q = false

theorem BuddyCore.supply (h : BuddyCore top z A S) {z' : Zone} {P : Set ℕ} {rsv : ℕ → Bool} {N : Set (ℕ × ℕ)}
    (hf : Fresh z z' P rsv) (hdis : ∀ q, q ∈ S → q ∉ P) (htiles : Tiles N {q | q ∈ P ∧ rsv q = false})
    (hle : ∀ b, b ∈ N → b.2 ≤ top) : BuddyCore top z' (A ∪ N) (S ∪ P) := by
  have hfree : freeBlocks z' = freeBlocks z := by
    unfold freeBlocks
    rw [hf.lists.1]
  have hheadS : ∀ b, b ∈ freeBlocks z → b.1 ∉ P := fun b hb =>
    hdis _ (h.supplied (Or.inr hb) (start_mem_span b))
  constructor
  · have hpages : usable z' (S ∪ P) = usable z S ∪ {q | q ∈ P ∧ rsv q = false} := by
      ext q
      simp only [usable, Set.mem_union, Set.mem_ofPred_eq]
      by_cases hq : q ∈ P
      · have hqS : q ∉ S := fun hs => hdis q hs hq
        simp [hq, hqS, (hf.new q hq).2.1]
      · simp [hq, (hf.old q hq).2.1]
    have hset : A ∪ N ∪ freeBlocks z' = A ∪ freeBlocks z ∪ N := by
      rw [hfree, Set.union_right_comm]
    rw [hset, hpages]
    exact h.tiles.union htiles fun q hq hq' => hdis q hq.1 hq'.1
  · intro b hb hbf
    rw [hfree] at hbf
    cases hb with
    | inl ha => exact h.apart b ha hbf
    | inr hn => exact hheadS b hbf (htiles.start_mem hn).1
  · intro b hb
    cases hb with
    | inl ha => exact h.alloc_le b ha
    | inr hn => exact hle b hn
  · rw [hfree]
    exact h.free_le
  · rw [hf.lists.1]
    exact h.nodup
  · rw [hf.lists.1, hf.lists.2.1]
    exact h.nrFree
  · intro b hb
    rw [hfree] at hb
    obtain ⟨_, _, h1, h2⟩ := hf.old b.1 (hheadS b hb)
    rw [h1, h2]
    exact h.head b hb
  · intro q hq hflag
    have hqP : q ∉ P := by
      intro hp
      rw [(hf.new q hp).2.2] at hflag
      cases hflag
    obtain ⟨_, _, h1, h2⟩ := hf.old q hqP
    rw [h1] at hflag
    rw [h2, hfree]
    exact h.flag q (hq.resolve_right hqP) hflag
  · rw [hfree]
    exact h.noBuddies

theorem fresh_initVpages (z : Zone) (base n : ℕ) (reserve : Bool)
    (h : ∀ q, base ≤ q → q < base + n → z.inited q = false) :
    Fresh z (initVpages z base n reserve) {q | base ≤ q ∧ q < base + n} fun _ => reserve := by
  have hfresh : ∀ q, (base ≤ q ∧ q < base + n) →
      (decide (base ≤ q) && decide (q < base + n) && !z.inited q) = true := by
    intro q hq
    simp [hq.1, hq.2, h q hq.1 hq.2]
  have hold : ∀ q, ¬ (base ≤ q ∧ q < base + n) →
      (decide (base ≤ q) && decide (q < base + n) && !z.inited q) = false := by
    intro q hq
    by_cases hb : base ≤ q
    · have hlt : ¬ q < base + n := fun hlt => hq ⟨hb, hlt⟩
      simp [hlt]
    · simp [hb]
  refine ⟨⟨rfl, rfl, rfl, rfl⟩, fun q hq => ?_, fun q hq => ?_⟩
  · simp only [initVpages, hold q hq, Bool.false_eq_true, if_false, and_self]
  · simp only [initVpages, hfresh q hq, if_true, and_self]

theorem Fresh.trans {z' z'' : Zone} {P Q : Set ℕ} {rsv rsv' : ℕ → Bool} (rsv'' : ℕ → Bool)
    (h : Fresh z z' P rsv)
    (h' : Fresh z' z'' Q rsv') (hdis : ∀ q, q ∈ P → q ∉ Q) (hP : ∀ q, q ∈ P → rsv'' q = rsv q)
    (hQ : ∀ q, q ∈ Q → rsv'' q = rsv' q) : Fresh z z'' (P ∪ Q) rsv'' where
  lists := ⟨h'.lists.1.trans h.lists.1, h'.lists.2.1.trans h.lists.2.1, h'.lists.2.2.1.trans h.lists.2.2.1,
    h'.lists.2.2.2.trans h.lists.2.2.2⟩
  old := by
    intro q hq
    obtain ⟨a1, a2, a3, a4⟩ := h.old q fun hp => hq (Or.inl hp)
    obtain ⟨b1, b2, b3, b4⟩ := h'.old q fun hp => hq (Or.inr hp)
    exact ⟨b1.trans a1, b2.trans a2, b3.trans a3, b4.trans a4⟩
  new := by
    intro q hq
    cases hq with
    | inl hp =>
      obtain ⟨a1, a2, a3⟩ := h.new q hp
      obtain ⟨b1, b2, b3, _⟩ := h'.old q (hdis q hp)
      exact ⟨b1.trans a1, (b2.trans a2).trans (hP q hp).symm, b3.trans a3⟩
    | inr hp =>
      obtain ⟨b1, b2, b3⟩ := h'.new q hp
      exact ⟨b1, b2.trans (hQ q hp).symm, b3⟩

theorem fresh_startup (c : BuddyParams) {z : Zone} {base : ℕ}
    (hunused : ∀ q, q ∈ span (base, c.top) → z.inited q = false) :
    Fresh z (initVpages (initVpages z base c.reserved true) (base + c.reserved)
      (2 ^ c.top - c.reserved) false)
      (span (base, c.top)) fun q => decide (q < base + c.reserved) := by
  have hres := c.reserved_le
  have hf := fresh_initVpages z base c.reserved true
    fun q h1 h2 => hunused q ⟨h1, show q < base + 2 ^ c.top by omega⟩
  have hf' :=
    fresh_initVpages (initVpages z base c.reserved true) (base + c.reserved)
      (2 ^ c.top - c.reserved)
    false fun q h1 h2 => by
      rw [(hf.old q fun hq => absurd hq.2 (Nat.not_lt_of_le h1)).1]
      exact hunused q ⟨by omega, show q < base + 2 ^ c.top by omega⟩
  have hboth := Fresh.trans (fun q => decide (q < base + c.reserved)) hf hf'
    (fun q hq hq' => absurd hq.2 (Nat.not_lt_of_le hq'.1)) (fun q hq => decide_eq_true hq.2)
    fun q hq => decide_eq_false (Nat.not_lt_of_le hq.1)
  have hspan : {q | base ≤ q ∧ q < base + c.reserved} ∪
      {q | base + c.reserved ≤ q ∧ q < base + c.reserved + (2 ^ c.top - c.reserved)} =
        span (base, c.top) := by
    ext q
    show (base ≤ q ∧ q < base + c.reserved) ∨ _ ↔ base ≤ q ∧ q < base + 2 ^ c.top
    show _ ∨ (base + c.reserved ≤ q ∧ q < base + c.reserved + (2 ^ c.top - c.reserved)) ↔ _
    omega
  rw [hspan] at hboth
  exact hboth

/-! ## The invariant -/

section Sys
variable {T : Type} {c : BuddyParams} {s : BuddySys T}

def suppliedPages (c : BuddyParams) (inited : ℕ → Bool) (giving : T → Option ℕ) : Set ℕ :=
  {q | inited q = true ∧ ∀ t p, giving t = some p → q ∉ span (p, c.top)}

/-- The pages that are initialised and that no thread is giving back. -/
def supplied (c : BuddyParams) (s : BuddySys T) : Set ℕ := suppliedPages c s.zone.inited s.giving

/-- The invariant, with at most `n` blocks of the highest order. -/
structure BuddyInv (c : BuddyParams) (n : ℕ) (s : BuddySys T) : Prop where
  core : BuddyCore c.top s.zone s.alloc (supplied c s)
  whole : Whole c.top (supplied c s)
  freePages : s.zone.freePages = freeSum c.top s.zone
  hasFree : s.zone.hasFree = true ↔ 0 < s.zone.freePages
  topFree : s.zone.nrFree c.top ≤ n
  giving : ∀ t p, s.giving t = some p → 2 ^ c.top ∣ p ∧ ∀ q, q ∈ span (p, c.top) → s.zone.inited q = true
  givingApart : ∀ t t' p, s.giving t = some p → s.giving t' = some p → t = t'

theorem buddyInv_init : BuddyInv c 1 (buddyInit : BuddySys T) where
  core :=
    { tiles :=
        { aligned := fun b hb => absurd hb (by simp [freeBlocks, buddyInit])
          cover := fun q => by simp [usable, supplied, suppliedPages, freeBlocks, buddyInit]
          disjoint := fun b hb => absurd hb (by simp [freeBlocks, buddyInit]) }
      apart := fun b hb => absurd hb (by simp [buddyInit])
      alloc_le := fun b hb => absurd hb (by simp [buddyInit])
      free_le := fun b hb => absurd hb (by simp [freeBlocks, buddyInit])
      nodup := fun _ => List.nodup_nil
      nrFree := fun _ => rfl
      head := fun b hb => absurd hb (by simp [freeBlocks, buddyInit])
      flag := fun q _ hq => absurd hq (by simp [buddyInit])
      noBuddies := fun k p _ hp => absurd hp (by simp [freeBlocks, buddyInit]) }
  whole := fun q q' _ hq => absurd hq (by simp [supplied, suppliedPages, buddyInit])
  freePages := by simp [freeSum, buddyInit]
  hasFree := by simp [buddyInit]
  topFree := Nat.zero_le _
  giving := fun t p h => absurd h.symm (Option.some_ne_none p)
  givingApart := fun t t' p h => absurd h.symm (Option.some_ne_none p)

variable [DecidableEq T]

/-- One round of the last loop of `__free_pages_bulk`: one block of two is popped. -/
theorem buddyInv_reclaimNext {t : T} (h : BuddyInv c 2 s) (ht : s.giving t = none) :
    BuddyInv c 1 (reclaimNext c s t) := by
  unfold reclaimNext reclaimPop
  split
  · rename_i htwo
    have hlen := h.core.nrFree c.top
    cases hlist : s.zone.freeList c.top with
    | nil =>
      rw [hlist] at hlen
      simp only [List.length_nil] at hlen
      omega
    | cons page rest =>
      have hfree : (page, c.top) ∈ freeBlocks s.zone := by
        show page ∈ s.zone.freeList c.top
        rw [hlist]
        exact List.mem_cons_self
      have haligned : 2 ^ c.top ∣ page := h.core.tiles.aligned _ (Or.inr hfree)
      have hpage : ∀ q, q ∈ span (page, c.top) → q ∈ supplied c s :=
        fun q hq => h.core.supplied (Or.inr hfree) hq
      have hgiving : ∀ t' p, Function.update s.giving t (some page) t' = some p ↔
          (t' = t ∧ p = page) ∨ (t' ≠ t ∧ s.giving t' = some p) := by
        intro t' p
        by_cases heq : t' = t
        · subst heq
          rw [Function.update_self, Option.some.injEq]
          simp [eq_comm]
        · rw [Function.update_of_ne heq]
          simp [heq]
      have hgiving_old : ∀ t' p, t' = t → s.giving t' ≠ some p := by
        intro t' p heq hp
        rw [heq, ht] at hp
        cases hp
      have hsum : freeSum c.top s.zone =
          ∑ j ∈ Finset.range (c.top + 1),
            Function.update s.zone.nrFree c.top (s.zone.nrFree c.top - 1) j * 2 ^ j +
            2 ^ c.top := (freeSum_take h.core hfree).symm
      -- the one that stays
      have hstays : 2 ^ c.top ≤
          ∑ j ∈ Finset.range (c.top + 1),
            Function.update s.zone.nrFree c.top (s.zone.nrFree c.top - 1) j * 2 ^ j := by
        have hterm : Function.update s.zone.nrFree c.top (s.zone.nrFree c.top - 1) c.top * 2 ^ c.top ≤ _ :=
          Finset.single_le_sum
            (f := fun j => Function.update s.zone.nrFree c.top (s.zone.nrFree c.top - 1) j * 2 ^ j)
            (fun j _ => Nat.zero_le _) (Finset.mem_range.mpr (Nat.lt_succ_self c.top))
        rw [Function.update_self] at hterm
        refine Nat.le_trans ?_ hterm
        exact Nat.le_mul_of_pos_left _ (by omega)
      have hpos := Nat.two_pow_pos c.top
      have hfp := h.freePages
      have hcount : s.zone.freePages - 2 ^ c.top =
          ∑ j ∈ Finset.range (c.top + 1),
            Function.update s.zone.nrFree c.top (s.zone.nrFree c.top - 1) j * 2 ^ j := by
        omega
      have hsupplied : suppliedPages c s.zone.inited (Function.update s.giving t (some page)) =
          supplied c s \ span (page, c.top) := by
        ext q
        simp only [supplied, suppliedPages, Set.mem_ofPred_eq, Set.mem_sdiff, hgiving]
        constructor
        · intro hq
          exact ⟨⟨hq.1, fun t' p hp => hq.2 t' p (Or.inr ⟨fun heq => hgiving_old t' p heq hp, hp⟩)⟩,
            hq.2 t page (Or.inl ⟨rfl, rfl⟩)⟩
        · intro hq
          refine ⟨hq.1.1, fun t' p hp => ?_⟩
          cases hp with
          | inl hp => rw [hp.2]; exact hq.2
          | inr hp => exact hq.1.2 t' p hp.2
      simp only
      refine ⟨?_, ?_, hcount, ?_, ?_, ?_, ?_⟩
      · show BuddyCore c.top _ _ (suppliedPages c s.zone.inited (Function.update s.giving t (some page)))
        rw [hsupplied]
        exact h.core.drop hlist
      · show Whole c.top (suppliedPages c s.zone.inited (Function.update s.giving t (some page)))
        rw [hsupplied]
        intro q q' hdiv hq
        refine ⟨h.whole q q' hdiv hq.1, fun hq' => hq.2 ?_⟩
        rw [mem_span_iff_div haligned] at hq' ⊢
        rw [hdiv, hq']
      · show (if s.zone.freePages - 2 ^ c.top = 0 then false else s.zone.hasFree) = true ↔
          0 < s.zone.freePages - 2 ^ c.top
        rw [if_neg (by omega), h.hasFree]
        omega
      · show Function.update s.zone.nrFree c.top (s.zone.nrFree c.top - 1) c.top ≤ 1
        rw [Function.update_self]
        have := h.topFree
        omega
      · intro t' p hp
        cases (hgiving t' p).mp hp with
        | inl hp =>
          rw [hp.2]
          exact ⟨haligned, fun q hq => (hpage q hq).1⟩
        | inr hp => exact h.giving t' p hp.2
      · intro t1 t2 p h1 h2
        -- a block another thread gives back is not supplied, so it is not in a list
        have hnot : ∀ t', s.giving t' ≠ some page := fun t' hp =>
          (hpage page (start_mem_span (page, c.top))).2 t' page hp (start_mem_span (page, c.top))
        cases (hgiving t1 p).mp h1 with
        | inl h1 =>
          cases (hgiving t2 p).mp h2 with
          | inl h2 => rw [h1.1, h2.1]
          | inr h2 => exact absurd (h1.2 ▸ h2.2) (hnot t2)
        | inr h1 =>
          cases (hgiving t2 p).mp h2 with
          | inl h2 => exact absurd (h2.2 ▸ h1.2) (hnot t1)
          | inr h2 => exact h.givingApart t1 t2 p h1.2 h2.2
  · rename_i hone
    have hsame : Function.update s.giving t none = s.giving := by
      rw [← ht]
      exact Function.update_eq_self t s.giving
    simp only [hsame]
    exact { h with topFree := Nat.le_of_not_lt hone }

/-! ## The steps -/

theorem firstFree_spec {n k l : ℕ} (h : firstFree z n k = some l) : k ≤ l ∧ l < k + n ∧ z.nrFree l ≠ 0 := by
  induction n generalizing k with
  | zero => cases h
  | succ n ih =>
    unfold firstFree at h
    split at h
    · obtain ⟨h1, h2, h3⟩ := ih h
      exact ⟨by omega, by omega, h3⟩
    · rename_i hne
      obtain rfl := Option.some.inj h
      exact ⟨Nat.le_refl _, by omega, hne⟩

theorem buddyInv_rmqueue {s' : BuddySys T} {order : ℕ} (h : BuddyInv c 1 s)
    (hs : buddyStep c s (.rmqueue order) = some s') : BuddyInv c 1 s' := by
  simp only [buddyStep, rmqueue] at hs
  cases hfirst : firstFree s.zone (c.top + 1 - order) order with
  | none =>
    rw [hfirst] at hs
    obtain rfl := Option.some.inj hs
    exact h
  | some k =>
    obtain ⟨hle, hlt, hne⟩ := firstFree_spec hfirst
    rw [hfirst] at hs
    cases hlist : s.zone.freeList k with
    | nil =>
      have hlen := h.core.nrFree k
      rw [hlist] at hlen
      exact absurd hlen hne
    | cons page rest =>
      simp only [hlist] at hs
      obtain rfl := Option.some.inj hs
      have hfree : (page, k) ∈ freeBlocks s.zone := by
        show page ∈ s.zone.freeList k
        rw [hlist]
        exact List.mem_cons_self
      have hnot : (page, k) ∉ (s.alloc : Set (ℕ × ℕ)) := fun ha => h.core.apart _ ha hfree
      have hk : order + (k - order) = k := by omega
      have htake := (h.core.take hfree).setCounts (s.zone.freePages - 2 ^ order) s.zone.hasFree
      have hexp : Expanded c.top { takeBlock s.zone page k
          with freePages := s.zone.freePages - 2 ^ order } s.alloc
          (supplied c s) page order (order + (k - order)) (expand (k - order)
            { takeBlock s.zone page k with freePages := s.zone.freePages - 2 ^ order } page order) :=
        expand_expanded (k - order) (by rw [hk]; exact htake) (by rw [hk]; exact hnot)
      have hsum : freeSum c.top { takeBlock s.zone page k
          with freePages := s.zone.freePages - 2 ^ order } + 2 ^ k =
          freeSum c.top s.zone := freeSum_take h.core hfree
      have hsum' := hexp.sum
      rw [hk] at hsum'
      have hfp := h.freePages
      have hfp' := hexp.rest.freePages
      have hhas := hexp.rest.hasFree
      have hini := hexp.rest.inited
      have htop := hexp.nrTop
      generalize expand (k - order)
        { takeBlock s.zone page k with freePages := s.zone.freePages - 2 ^ order } page order = z' at *
      have hsup : suppliedPages c z'.inited s.giving = supplied c s := by
        rw [hini]
        rfl
      refine ⟨?_, ?_, ?_, ?_, ?_, ?_, h.givingApart⟩
      · show BuddyCore c.top _ _ (suppliedPages c z'.inited s.giving)
        rw [hsup, Finset.coe_insert]
        exact hexp.core.setCounts _ _
      · show Whole c.top (suppliedPages c z'.inited s.giving)
        rw [hsup]
        exact h.whole
      · show z'.freePages = freeSum c.top z'
        rw [hfp']
        show s.zone.freePages - 2 ^ order = _
        omega
      · show (if z'.freePages = 0 then false else z'.hasFree) = true ↔ 0 < z'.freePages
        rw [hhas]
        show (if z'.freePages = 0 then false else s.zone.hasFree) = true ↔ 0 < z'.freePages
        have hpos := Nat.two_pow_pos order
        have hsome : s.zone.hasFree = true := h.hasFree.mpr (by have := Nat.two_pow_pos k; omega)
        rw [hsome]
        split
        · simp; omega
        · simp; omega
      · show z'.nrFree c.top ≤ 1
        rw [htop]
        show Function.update s.zone.nrFree k (s.zone.nrFree k - 1) c.top ≤ 1
        have hone := h.topFree
        by_cases hkt : c.top = k
        · rw [hkt, Function.update_self, ← hkt]
          omega
        · rw [Function.update_of_ne hkt]
          exact hone
      · intro t p hp
        show _ ∧ ∀ q, q ∈ span (p, c.top) → z'.inited q = true
        rw [hini]
        exact h.giving t p hp

theorem buddyInv_free {s' : BuddySys T} {t : T} {page order : ℕ} (h : BuddyInv c 1 s)
    (hs : buddyStep c s (.free t page order) = some s') : BuddyInv c 1 s' := by
  simp only [buddyStep] at hs
  split at hs
  · rename_i hlegal
    obtain ⟨halloc, ht⟩ := hlegal
    have hle : order ≤ c.top := h.core.alloc_le (page, order) halloc
    have hB : (page, order) ∉ (↑(s.alloc.erase (page, order)) : Set (ℕ × ℕ)) := by
      rw [Finset.mem_coe]
      exact Finset.notMem_erase _ _
    have hset : insert (page, order) (↑(s.alloc.erase (page, order)) : Set (ℕ × ℕ)) = s.alloc := by
      rw [← Finset.coe_insert, Finset.insert_erase halloc]
    have hcore :=
      h.core.setCounts (s.zone.freePages + 2 ^ order) (if s.zone.freePages = 0 then true
        else s.zone.hasFree)
    rw [← hset] at hcore
    have hm := mergeLoop_merged (c.top - order) (Nat.add_sub_cancel' hle) hcore hB h.whole
    have hfp := h.freePages
    have hone := h.topFree
    have hhas : (if s.zone.freePages = 0 then true else s.zone.hasFree) = true := by
      split
      · rfl
      · rename_i hne
        exact h.hasFree.mpr (Nat.pos_of_ne_zero hne)
    obtain ⟨m, hmeq⟩ : ∃ m, m = mergeLoop (c.top - order)
      { s.zone with
        hasFree := if s.zone.freePages = 0 then true else s.zone.hasFree
        freePages := s.zone.freePages + 2 ^ order } page order := ⟨_, rfl⟩
    have hbulk : freePagesBulk c s.zone page order = (putHead m.1 m.2.1 m.2.2, m.2.2) := by
      rw [hmeq]
      rfl
    rw [← hmeq] at hm
    rw [hbulk] at hs
    have hsumz : freeSum c.top { s.zone with
        hasFree := if s.zone.freePages = 0 then true else s.zone.hasFree
        freePages := s.zone.freePages + 2 ^ order } = freeSum c.top s.zone := rfl
    have hsum := hm.sum
    rw [hsumz] at hsum
    have hput : freeSum c.top (putHead m.1 m.2.1 m.2.2) = freeSum c.top m.1 + 2 ^ m.2.2 :=
      freeSum_put _ hm.order_le
    have hini : (putHead m.1 m.2.1 m.2.2).inited = s.zone.inited := hm.rest.inited
    have hsup : suppliedPages c (putHead m.1 m.2.1 m.2.2).inited s.giving = supplied c s := by
      rw [hini]
      rfl
    have hnrTop : m.1.nrFree c.top = s.zone.nrFree c.top := hm.nrTop
    -- the node after the block has gone into its list: at most one block too many, and only at the
    -- highest order
    have hmid : ∀ n, (putHead m.1 m.2.1 m.2.2).nrFree c.top ≤ n →
        BuddyInv c n { s with zone := putHead m.1 m.2.1 m.2.2, alloc := s.alloc.erase (page, order) } := by
      intro n hn
      refine ⟨?_, ?_, ?_, ?_, hn, ?_, h.givingApart⟩
      · show BuddyCore c.top _ _ (suppliedPages c (putHead m.1 m.2.1 m.2.2).inited s.giving)
        rw [hsup]
        exact hm.core.put hm.fresh (List.Perm.refl _) hm.noBuddy
      · show Whole c.top (suppliedPages c (putHead m.1 m.2.1 m.2.2).inited s.giving)
        rw [hsup]
        exact h.whole
      · show m.1.freePages = freeSum c.top (putHead m.1 m.2.1 m.2.2)
        rw [hput, hsum, hm.rest.freePages]
        show s.zone.freePages + 2 ^ order = _
        omega
      · show m.1.hasFree = true ↔ 0 < m.1.freePages
        rw [hm.rest.hasFree, hm.rest.freePages]
        show (if s.zone.freePages = 0 then true else s.zone.hasFree) = true ↔ 0 < s.zone.freePages + 2 ^ order
        rw [hhas]
        have := Nat.two_pow_pos order
        exact ⟨fun _ => by omega, fun _ => rfl⟩
      · intro t p hp
        show _ ∧ ∀ q, q ∈ span (p, c.top) → (putHead m.1 m.2.1 m.2.2).inited q = true
        rw [hini]
        exact h.giving t p hp
    obtain rfl := Option.some.inj hs
    split
    · rename_i hlt
      apply hmid
      show Function.update m.1.nrFree m.2.2 _ c.top ≤ 1
      rw [Function.update_of_ne (by omega), hnrTop]
      exact hone
    · rename_i hlt
      have htop : m.2.2 = c.top := Nat.le_antisymm hm.order_le (Nat.le_of_not_lt hlt)
      refine buddyInv_reclaimNext (hmid 2 ?_) ht
      show Function.update m.1.nrFree m.2.2 _ c.top ≤ 2
      rw [htop, Function.update_self, hnrTop]
      omega
  · cases hs

theorem buddyInv_giveBack {s' : BuddySys T} {t : T} (h : BuddyInv c 1 s)
    (hs : buddyStep c s (.giveBack t) = some s') : BuddyInv c 1 s' := by
  simp only [buddyStep] at hs
  split at hs
  · cases hs
  · rename_i page hpage
    obtain rfl := Option.some.inj hs
    obtain ⟨haligned, _⟩ := h.giving t page hpage
    have hclear : ∀ q, (nodeReclaimMemory c s.zone page).inited q = true ↔
        s.zone.inited q = true ∧ q ∉ span (page, c.top) := by
      intro q
      show (if page ≤ q ∧ q < page + 2 ^ c.top then false else s.zone.inited q) = true ↔ _
      by_cases hq : page ≤ q ∧ q < page + 2 ^ c.top
      · rw [if_pos hq]
        exact ⟨fun hf => Bool.noConfusion hf, fun hf => absurd hq hf.2⟩
      · rw [if_neg hq]
        exact ⟨fun hf => ⟨hf, hq⟩, fun hf => hf.1⟩
    have hgiving : ∀ t' p, Function.update s.giving t none t' = some p → t' ≠ t ∧ s.giving t' = some p := by
      intro t' p hp
      by_cases heq : t' = t
      · rw [heq, Function.update_self] at hp
        cases hp
      · rw [Function.update_of_ne heq] at hp
        exact ⟨heq, hp⟩
    -- the pages leave the initialised ones as the block leaves the thread: the supplied ones stay
    have hsup : suppliedPages c (nodeReclaimMemory c s.zone page).inited (Function.update s.giving t none) =
        supplied c s := by
      ext q
      simp only [supplied, suppliedPages, Set.mem_ofPred_eq, hclear]
      constructor
      · intro hq
        refine ⟨hq.1.1, fun t' p hp => ?_⟩
        by_cases heq : t' = t
        · rw [heq, hpage] at hp
          rw [← Option.some.inj hp]
          exact hq.1.2
        · exact hq.2 t' p (by rw [Function.update_of_ne heq]; exact hp)
      · intro hq
        exact ⟨⟨hq.1, hq.2 t page hpage⟩, fun t' p hp => hq.2 t' p (hgiving t' p hp).2⟩
    have hdone : BuddyInv c 1
        { s with zone := nodeReclaimMemory c s.zone page, giving := Function.update s.giving t none } := by
      refine ⟨?_, ?_, h.freePages, h.hasFree, h.topFree, ?_, ?_⟩
      · show BuddyCore c.top _ _
          (suppliedPages c (nodeReclaimMemory c s.zone page).inited (Function.update s.giving t none))
        rw [hsup]
        exact ⟨h.core.tiles, h.core.apart, h.core.alloc_le, h.core.free_le, h.core.nodup,
          h.core.nrFree, h.core.head,
          h.core.flag, h.core.noBuddies⟩
      · show Whole c.top
          (suppliedPages c (nodeReclaimMemory c s.zone page).inited
          (Function.update s.giving t none))
        rw [hsup]
        exact h.whole
      · intro t' p hp
        obtain ⟨hne, hp'⟩ := hgiving t' p hp
        obtain ⟨hal, hin⟩ := h.giving t' p hp'
        refine ⟨hal, fun q hq => (hclear q).mpr ⟨hin q hq, fun hq' => ?_⟩⟩
        -- two blocks of the highest order that share a page are one
        rw [mem_span_iff_div hal] at hq
        rw [mem_span_iff_div haligned] at hq'
        have hpp : p = page := by
          rw [← Nat.div_mul_cancel hal, ← Nat.div_mul_cancel haligned, ← hq, ← hq']
        exact hne (h.givingApart t' t page (hpp ▸ hp') hpage)
      · exact fun t1 t2 p h1 h2 => h.givingApart t1 t2 p (hgiving t1 p h1).2 (hgiving t2 p h2).2
    have hnext := buddyInv_reclaimNext (t := t) { hdone with topFree := hdone.topFree.trans (by decide) }
      (Function.update_self t none s.giving)
    unfold reclaimNext at hnext ⊢
    simp only [Function.update_idem] at hnext
    exact hnext

omit [DecidableEq T] in
/-- Supplied memory: a block of pages the node has not got, tiled by the blocks the supplier then frees. -/
theorem buddyInv_supplied (h : BuddyInv c 1 s) {base : ℕ} (haligned : 2 ^ c.top ∣ base)
    (hunused : ∀ q, q ∈ span (base, c.top) → s.zone.inited q = false) {z' : Zone} {rsv : ℕ → Bool}
    (hf : Fresh s.zone z' (span (base, c.top)) rsv) {N : Finset (ℕ × ℕ)}
    (htiles : Tiles N {q | q ∈ span (base, c.top) ∧ rsv q = false})
    (hle : ∀ b, b ∈ N → b.2 ≤ c.top) (up : Bool) :
    BuddyInv c 1 { s with zone := z', hasUp := up, alloc := s.alloc ∪ N } := by
  have hdis : ∀ q, q ∈ supplied c s → q ∉ span (base, c.top) := by
    intro q hq hq'
    have hin : s.zone.inited q = true := hq.1
    rw [hunused q hq'] at hin
    cases hin
  have hsup : suppliedPages c z'.inited s.giving = supplied c s ∪ span (base, c.top) := by
    ext q
    simp only [supplied, suppliedPages, Set.mem_union, Set.mem_ofPred_eq]
    by_cases hq : q ∈ span (base, c.top)
    · have hgive : ∀ t p, s.giving t = some p → q ∉ span (p, c.top) := by
        intro t p hp hqp
        have := (h.giving t p hp).2 q hqp
        rw [hunused q hq] at this
        cases this
      simp only [hq, or_true, iff_true]
      exact ⟨(hf.new q hq).1, hgive⟩
    · rw [(hf.old q hq).1]
      simp only [hq, or_false]
  have hfree : z'.freePages = s.zone.freePages := hf.lists.2.2.1
  have hsum : freeSum c.top z' = freeSum c.top s.zone := by
    unfold freeSum
    rw [hf.lists.2.1]
  refine ⟨?_, ?_, ?_, ?_, ?_, ?_, h.givingApart⟩
  · show BuddyCore c.top z' _ (suppliedPages c z'.inited s.giving)
    rw [hsup, Finset.coe_union]
    exact h.core.supply hf hdis htiles hle
  · show Whole c.top (suppliedPages c z'.inited s.giving)
    rw [hsup]
    intro q q' hdiv hq
    cases hq with
    | inl hq => exact Or.inl (h.whole q q' hdiv hq)
    | inr hq =>
      right
      rw [mem_span_iff_div haligned] at hq ⊢
      rw [← hdiv, hq]
  · show z'.freePages = freeSum c.top z'
    rw [hfree, hsum]
    exact h.freePages
  · show z'.hasFree = true ↔ 0 < z'.freePages
    rw [hf.lists.2.2.2, hfree]
    exact h.hasFree
  · show z'.nrFree c.top ≤ 1
    rw [hf.lists.2.1]
    exact h.topFree
  · intro t p hp
    obtain ⟨hal, hin⟩ := h.giving t p hp
    refine ⟨hal, fun q hq => ?_⟩
    have hqb : q ∉ span (base, c.top) := by
      intro hqb
      have := hin q hq
      rw [hunused q hqb] at this
      cases this
    show z'.inited q = true
    rw [(hf.old q hqb).1]
    exact hin q hq

theorem tiles_pages (a n : ℕ) :
    Tiles ((Finset.range n).image fun i => (a + i, 0) : Finset (ℕ × ℕ)) {q | a ≤ q ∧ q < a + n} where
  aligned := by
    intro b hb
    obtain ⟨i, -, rfl⟩ := Finset.mem_image.mp hb
    exact Nat.one_dvd _
  cover := by
    intro q
    constructor
    · intro hq
      refine ⟨(q, 0), Finset.mem_image.mpr ⟨q - a, Finset.mem_range.mpr ?_, ?_⟩, start_mem_span (q, 0)⟩
      · have h1 : a ≤ q := hq.1
        have h2 : q < a + n := hq.2
        omega
      · rw [Nat.add_sub_cancel' hq.1]
    · intro hq
      obtain ⟨b, hb, hqb⟩ := hq
      obtain ⟨i, hi, rfl⟩ := Finset.mem_image.mp hb
      have h1 : a + i ≤ q := hqb.1
      have h2 : q < a + i + 2 ^ 0 := hqb.2
      have h3 := Finset.mem_range.mp hi
      show a ≤ q ∧ q < a + n
      omega
  disjoint := by
    intro b hb d hd q hqb hqd
    obtain ⟨i, -, rfl⟩ := Finset.mem_image.mp hb
    obtain ⟨j, -, rfl⟩ := Finset.mem_image.mp hd
    have h1 : a + i ≤ q ∧ q < a + i + 2 ^ 0 := hqb
    have h2 : a + j ≤ q ∧ q < a + j + 2 ^ 0 := hqd
    rw [show i = j by omega]

theorem buddyInv_supply {s' : BuddySys T} {base : ℕ} (h : BuddyInv c 1 s)
    (hs : buddyStep c s (.supply base) = some s') : BuddyInv c 1 s' := by
  simp only [buddyStep] at hs
  split at hs
  · rename_i hlegal
    obtain ⟨haligned, _, hunused'⟩ := hlegal
    have hunused : ∀ q, q ∈ span (base, c.top) → s.zone.inited q = false := by
      intro q hq
      have h1 : base ≤ q := hq.1
      have h2 : q < base + 2 ^ c.top := hq.2
      have := hunused' (q - base) (by omega)
      rwa [Nat.add_sub_cancel' h1] at this
    split at hs
    · obtain rfl := Option.some.inj hs
      have hf := fresh_initVpages s.zone base (2 ^ c.top) false fun q h1 h2 => hunused q ⟨h1, h2⟩
      have htiles : Tiles ({(base, c.top)} : Finset (ℕ × ℕ)) {q | q ∈ span (base, c.top) ∧
          false = false} := by
        rw [Finset.coe_singleton]
        simp only [and_true]
        exact Tiles.singleton haligned
      have hnew := buddyInv_supplied h haligned hunused hf htiles
        (fun b hb => by rw [Finset.mem_singleton.mp hb]) s.hasUp
      rw [Finset.union_comm, ← Finset.insert_eq] at hnew
      exact hnew
    · obtain rfl := Option.some.inj hs
      have hres := c.reserved_le
      have hboth := fresh_startup c hunused
      have htiles := tiles_pages (base + c.reserved) (2 ^ c.top - c.reserved)
      have hpages : {q | base + c.reserved ≤ q ∧ q < base + c.reserved + (2 ^ c.top - c.reserved)} =
          {q | q ∈ span (base, c.top) ∧ decide (q < base + c.reserved) = false} := by
        ext q
        show base + c.reserved ≤ q ∧ q < base + c.reserved + (2 ^ c.top - c.reserved) ↔
          (base ≤ q ∧ q < base + 2 ^ c.top) ∧ decide (q < base + c.reserved) = false
        rw [decide_eq_false_iff_not]
        omega
      rw [hpages] at htiles
      exact buddyInv_supplied h haligned hunused hboth htiles
        (fun b hb => by obtain ⟨i, -, rfl⟩ := Finset.mem_image.mp hb; exact Nat.zero_le _) true
  · cases hs

theorem buddyInv_step {s' : BuddySys T} {a : BuddyAct T} (h : BuddyInv c 1 s)
    (hs : buddyStep c s a = some s') :
    BuddyInv c 1 s' := by
  cases a with
  | rmqueue order => exact buddyInv_rmqueue h hs
  | free t page order => exact buddyInv_free h hs
  | giveBack t => exact buddyInv_giveBack h hs
  | supply base => exact buddyInv_supply h hs

/-! ## Runs -/

/-- A free or an allocated block. -/
def IsBlock (s : BuddySys T) (b : ℕ × ℕ) : Prop := b ∈ s.alloc ∨ b.1 ∈ s.zone.freeList b.2

/-- What the buddy system promises when the zone lock is free. -/
structure BuddyOk (c : BuddyParams) (s : BuddySys T) : Prop where
  /-- No page is in two blocks, no block is free and allocated, no page of a block is reserved. -/
  disjoint : ∀ b b' q, IsBlock s b → IsBlock s b' → q ∈ span b → q ∈ span b' → b = b'
  apart : ∀ b, b ∈ s.alloc → b.1 ∉ s.zone.freeList b.2
  reserved : ∀ b q, IsBlock s b → q ∈ span b → s.zone.reserved q = false
  /-- The blocks and the reserved pages cover the supplied, not reclaimed pages, and blocks nothing else. -/
  cover : ∀ q, q ∈ supplied c s → s.zone.reserved q = true ∨ ∃ b, IsBlock s b ∧ q ∈ span b
  within : ∀ b q, IsBlock s b → q ∈ span b → q ∈ supplied c s
  /-- As long as no thread is inside `node_reclaim_memory` the supplied pages are the initialised ones. -/
  quiet : (∀ t, s.giving t = none) → ∀ q, q ∈ supplied c s ↔ s.zone.inited q = true
  aligned : ∀ k p, p ∈ s.zone.freeList k → 2 ^ k ∣ p ∧ k ≤ c.top
  flags : ∀ q, q ∈ supplied c s → ∀ k : ℕ, s.zone.buddy q = true ∧ s.zone.order q = k ↔ q ∈ s.zone.freeList k
  flagged : ∀ q, q ∈ supplied c s → s.zone.buddy q = true → ∃ k : ℕ, s.zone.order q = k
  nrFree : ∀ k, s.zone.nrFree k = (s.zone.freeList k).length
  freePages : s.zone.freePages = ∑ k ∈ Finset.range (c.top + 1), s.zone.nrFree k * 2 ^ k
  hasFree : s.zone.hasFree = true ↔ 0 < s.zone.freePages
  noBuddies : ∀ k p, k < c.top → p ∈ s.zone.freeList k → p ^^^ 2 ^ k ∉ s.zone.freeList k
  oneTop : s.zone.nrFree c.top ≤ 1

omit [DecidableEq T] in
theorem buddyInv_ok (h : BuddyInv c 1 s) : BuddyOk c s where
  disjoint := fun b b' q hb hb' hq hq' => h.core.tiles.disjoint b hb b' hb' q hq hq'
  apart := h.core.apart
  reserved := fun b q hb hq => (h.core.tiles.span_subset hb hq).2
  cover := by
    intro q hq
    cases hr : s.zone.reserved q with
    | true => exact Or.inl rfl
    | false =>
      obtain ⟨b, hb, hqb⟩ := (h.core.tiles.cover q).mp ⟨hq, hr⟩
      exact Or.inr ⟨b, hb, hqb⟩
  within := fun b q hb hq => h.core.supplied hb hq
  quiet := by
    intro hq q
    refine ⟨fun hs => hs.1, fun hi => ⟨hi, fun t p hp => ?_⟩⟩
    rw [hq t] at hp
    cases hp
  aligned := fun k p hp => ⟨h.core.tiles.aligned (p, k) (Or.inr hp), h.core.free_le (p, k) hp⟩
  flags := by
    intro q hq k
    constructor
    · intro hf
      obtain ⟨l, hl, hfree⟩ := h.core.flag q hq hf.1
      have hlk : l = k := Int.ofNat.inj (hl.symm.trans hf.2)
      exact hlk ▸ hfree
    · exact h.core.head (q, k)
  flagged := by
    intro q hq hf
    obtain ⟨k, hk, _⟩ := h.core.flag q hq hf
    exact ⟨k, hk⟩
  nrFree := h.core.nrFree
  freePages := h.freePages
  hasFree := h.hasFree
  noBuddies := h.core.noBuddies
  oneTop := h.topFree

/-- Every state of every run of the node, whatever the threads do, in whatever order. -/
theorem buddy_ok (c : BuddyParams) (as : List (BuddyAct T)) (s : BuddySys T)
    (hrun : runActs (buddyStep c) buddyInit as = some s) : BuddyOk c s :=
  buddyInv_ok (run_invariant (fun _ _ _ h _ hs => buddyInv_step h hs) as buddyInit s buddyInv_init
    (runMeets_trivial as buddyInit) hrun)

/-- Blocks of at most four pages, one page for the descriptors. -/
def smallNode : BuddyParams where
  top := 2
  nodePages := 16
  reserved := 1
  reserved_le := by decide

/-- The node starts and its pages merge as far as the reserved page allows, a page is allocated by splitting,
and the second of two whole blocks is given back. -/
def startAndReclaim : List (BuddyAct Unit) :=
  [.supply 4, .free () 5 0, .free () 7 0, .free () 6 0, .rmqueue 0, .rmqueue 0, .supply 8, .free () 8 2,
    .supply 12, .free () 12 2, .giveBack ()]

theorem buddy_ok_startAndReclaim :
    ∃ s, runActs (buddyStep smallNode) buddyInit startAndReclaim = some s ∧ s.zone.freeList 0 = [7] ∧
      s.zone.freeList 2 = [8] ∧ s.zone.freePages = 5 ∧ BuddyOk smallNode s :=
  ⟨_, rfl, by decide, by decide, by decide, buddy_ok smallNode startAndReclaim _ rfl⟩

end Sys

end Skp.Mm
