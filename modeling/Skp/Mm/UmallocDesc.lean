import Skp.Mm.UmallocMemory

/-! # The page descriptors

From an address the allocator finds the descriptor of its block. The flags of a block's pages say
whose it is, and those of all other pages are clear. -/
namespace Skp.Mm
set_option autoImplicit false
open Skp.Foundations

/-- The flags of page `q` of a slab of cache `i` that begins at `p`. -/
structure SlabPage (i : CacheIndex) (p q : ℕ) (d : PageDesc) : Prop where
  slab : d.slab = if q = p then some i else none
  head : d.head = if (classOf i).order = 0 then none else some p
  block : d.block = false

/-- The flags of page `q` of a user's block. -/
structure BlockPage (b : ℕ × ℕ) (q : ℕ) (d : PageDesc) : Prop where
  slab : d.slab = none
  head : d.head = none
  block : d.block = decide (q = b.1 ∧ b.2 ≠ 0)
  order : q = b.1 + 1 → b.2 ≠ 0 → d.order = b.2

structure ClearPage (d : PageDesc) : Prop where
  slab : d.slab = none
  head : d.head = none
  block : d.block = false

variable {T : Type} {s s' : UmallocState T} {i : CacheIndex} {b : ℕ × ℕ} {p q : ℕ} {d : ℕ → PageDesc}

structure DescOk (s : UmallocState T) : Prop where
  slab : ∀ i p q, p ∈ (s.cache i).live → q ∈ span (slabBlock i p) → SlabPage i p q (s.desc q)
  block : ∀ b q, b ∈ s.blocks → q ∈ span b → BlockPage b q (s.desc q)
  clear : ∀ q, ¬s.TakenPage q → ClearPage (s.desc q)

theorem descOk_init : DescOk (umallocInit : UmallocState T) where
  slab := fun _ _ _ hp => by cases hp
  block := fun _ _ hb => by cases hb
  clear := fun _ _ => ⟨rfl, rfl, rfl⟩

/-! ## What the functions set -/

theorem second_mem_span (hb : b.2 ≠ 0) : b.1 + 1 ∈ span b := by
  have htwo : 2 ^ 1 ≤ 2 ^ b.2 := Nat.pow_le_pow_right (by decide) (by omega)
  exact ⟨Nat.le_succ _, show b.1 + 1 < b.1 + 2 ^ b.2 by omega⟩

theorem prepBlockDesc_of_outside (hq : q ∉ span b) : prepBlockDesc d b.1 b.2 q = d q := by
  have hfirst : q ≠ b.1 := fun heq => hq (heq ▸ start_mem_span b)
  rw [prepBlockDesc]
  by_cases hzero : b.2 = 0
  · simp [hzero, hfirst]
  · have hsecond : q ≠ b.1 + 1 := fun heq => hq (heq ▸ second_mem_span hzero)
    simp [hzero, hfirst, hsecond]

theorem blockPage_prep (hclear : ClearPage (d q)) : BlockPage b q (prepBlockDesc d b.1 b.2 q) := by
  obtain ⟨hslab, hhead, hblock⟩ := hclear
  rw [prepBlockDesc]
  by_cases hzero : b.2 = 0
  · by_cases hfirst : q = b.1
    · subst hfirst
      exact ⟨by simp [hzero], by simp [hzero], by simp [hzero, hblock], fun _ hne => absurd hzero hne⟩
    · exact ⟨by simp [hzero, hfirst, hslab], by simp [hzero, hfirst, hhead], by simp [hzero, hfirst, hblock],
        fun _ hne => absurd hzero hne⟩
  · by_cases hfirst : q = b.1
    · subst hfirst
      exact ⟨by simp [hzero], by simp [hzero], by simp [hzero], fun heq => by omega⟩
    · by_cases hsecond : q = b.1 + 1
      · subst hsecond
        exact ⟨by simp [hzero, hslab], by simp [hzero, hhead], by simp [hzero,
          hblock], fun _ _ => by simp [hzero]⟩
      · exact ⟨by simp [hzero, hfirst, hsecond, hslab], by simp [hzero, hfirst, hsecond, hhead],
          by simp [hzero, hfirst, hsecond, hblock], fun heq => absurd heq hsecond⟩

theorem destroyBlockDesc_of_outside (hq : q ∉ span b) : destroyBlockDesc d b.1 b.2 q = d q := by
  rw [destroyBlockDesc]
  split_ifs with hnone
  · rfl
  · have hfirst : q ≠ b.1 := fun heq => hq (heq ▸ start_mem_span b)
    have hsecond : q ≠ b.1 + 1 := fun heq => hq (heq ▸ second_mem_span fun hzero => hnone (Or.inl hzero))
    simp [hfirst, hsecond]

theorem clearPage_destroy (hstart : BlockPage b b.1 (d b.1)) (hpage : BlockPage b q (d q)) :
    ClearPage (destroyBlockDesc d b.1 b.2 q) := by
  obtain ⟨hslab, hhead, hblock, -⟩ := hpage
  rw [destroyBlockDesc]
  split_ifs with hnone
  · have hzero : b.2 = 0 := by
      rcases hnone with hzero | hflag
      · exact hzero
      · rw [hstart.block] at hflag
        simpa using hflag
    exact ⟨hslab, hhead, by simp [hblock, hzero]⟩
  · by_cases hfirst : q = b.1
    · subst hfirst
      exact ⟨by simp [hslab], by simp [hhead], by simp⟩
    · have hflag : (d q).block = false := by simp [hblock, hfirst]
      by_cases hsecond : q = b.1 + 1
      · subst hsecond
        exact ⟨by simp [hslab], by simp [hhead], by simp [hflag]⟩
      · exact ⟨by simp [hfirst, hsecond, hslab], by simp [hfirst, hsecond, hhead], by simp [hfirst,
          hsecond, hflag]⟩

theorem prepSlabDesc_of_outside (hq : q ∉ span (slabBlock i p)) : prepSlabDesc d i p q = d q := by
  have hfirst : q ≠ p := fun heq => hq (heq ▸ start_mem_span (slabBlock i p))
  have hspan : ¬(p ≤ q ∧ q < p + 2 ^ (classOf i).order) := hq
  rw [prepSlabDesc]
  by_cases hzero : (classOf i).order = 0
  · simp [hzero, hfirst]
  · have hsecond : q ≠ p + 1 := fun heq => hq (heq ▸ second_mem_span (b := slabBlock i p) hzero)
    simp [hzero, hfirst, hsecond, hspan]

theorem slabPage_prep (hclear : ClearPage (d q)) (hq : q ∈ span (slabBlock i p)) :
    SlabPage i p q (prepSlabDesc d i p q) := by
  obtain ⟨hslab, hhead, hblock⟩ := hclear
  have hspan : p ≤ q ∧ q < p + 2 ^ (classOf i).order := hq
  rw [prepSlabDesc]
  by_cases hzero : (classOf i).order = 0
  · have hfirst : q = p := by
      rw [hzero] at hspan
      omega
    subst hfirst
    exact ⟨by simp [hzero], by simp [hzero], by simp [hzero, hblock]⟩
  · by_cases hfirst : q = p
    · subst hfirst
      exact ⟨by simp [hzero], by simp [hzero], by simp [hzero, hblock]⟩
    · by_cases hsecond : q = p + 1
      · subst hsecond
        exact ⟨by simp [hzero, hspan, hslab], by simp [hzero, hspan], by simp [hzero, hspan, hblock]⟩
      · exact ⟨by simp [hzero, hfirst, hsecond, hspan, hslab], by simp [hzero, hspan],
          by simp [hzero, hfirst, hsecond, hspan, hblock]⟩

theorem destroySlabDescs_of_outside {gone : Finset ℕ} (hq : ∀ g ∈ gone, q ∉ span (slabBlock i g)) :
    destroySlabDescs d i gone q = d q := by
  have hnone : ¬∃ g ∈ gone, g ≤ q ∧ q < g + 2 ^ (classOf i).order := fun ⟨g, hg, hin⟩ => hq g hg hin
  simp only [destroySlabDescs, if_neg hnone]

theorem clearPage_destroySlab {gone : Finset ℕ} (hp : p ∈ gone) (hq : q ∈ span (slabBlock i p))
    (hblock : (d q).block = false) :
    ClearPage (destroySlabDescs d i gone q) := by
  have hsome : ∃ g ∈ gone, g ≤ q ∧ q < g + 2 ^ (classOf i).order := ⟨p, hp, hq⟩
  simp only [destroySlabDescs, if_pos hsome]
  exact ⟨rfl, rfl, hblock⟩

/-! ## Steps -/

theorem Owners.clear_of_not_taken (h : Owners s) (halloc : s.Allocated b) (hfree : ¬s.Taken b)
    (hq : q ∈ span b) : ¬s.TakenPage q := by
  rintro (⟨b', hb', hin⟩ | ⟨j, p, hp, hin⟩)
  · exact h.ne_of_not_taken halloc hfree (Or.inl hb') hq hin
  · exact h.ne_of_not_taken halloc hfree (Or.inr ⟨j, hp, rfl⟩ : s.Taken (slabBlock j p)) hq hin

theorem DescOk.takePages (h : DescOk s) (hown : Owners s) (halloc : s.Allocated b) (hfree : ¬s.Taken b) :
    DescOk { s with blocks := insert b s.blocks, desc := prepBlockDesc s.desc b.1 b.2 } where
  slab := by
    intro i p q hp hq
    have hout : q ∉ span b :=
      fun hin =>
        hown.ne_of_not_taken halloc hfree (Or.inr ⟨i, hp, rfl⟩ : s.Taken (slabBlock i p)) hin hq
    show SlabPage i p q (prepBlockDesc s.desc b.1 b.2 q)
    rw [prepBlockDesc_of_outside hout]
    exact h.slab i p q hp hq
  block := by
    intro b' q hb' hq
    show BlockPage b' q (prepBlockDesc s.desc b.1 b.2 q)
    rcases Finset.mem_insert.mp hb' with rfl | hb'
    · exact blockPage_prep (h.clear q (hown.clear_of_not_taken halloc hfree hq))
    · have hout : q ∉ span b := fun hin => hown.ne_of_not_taken halloc hfree (Or.inl hb') hin hq
      rw [prepBlockDesc_of_outside hout]
      exact h.block b' q hb' hq
  clear := by
    intro q hq
    have hout : q ∉ span b := fun hin => hq (Or.inl ⟨b, Finset.mem_insert_self _ _, hin⟩)
    show ClearPage (prepBlockDesc s.desc b.1 b.2 q)
    rw [prepBlockDesc_of_outside hout]
    apply h.clear q
    rintro (⟨b', hb', hin⟩ | hlive)
    · exact hq (Or.inl ⟨b', Finset.mem_insert_of_mem hb', hin⟩)
    · exact hq (Or.inr hlive)

theorem DescOk.givePages (h : DescOk s) (hown : Owners s) (hb : b ∈ s.blocks) :
    DescOk { s with blocks := s.blocks.erase b, desc := destroyBlockDesc s.desc b.1 b.2 } where
  slab := by
    intro i p q hp hq
    have hout : q ∉ span b := by
      intro hin
      have heq := hown.nodes.unique (hown.taken b (Or.inl hb)) (hown.live hp) hin hq
      exact hown.apart i p hp (heq ▸ hb)
    show SlabPage i p q (destroyBlockDesc s.desc b.1 b.2 q)
    rw [destroyBlockDesc_of_outside hout]
    exact h.slab i p q hp hq
  block := by
    intro b' q hb' hq
    obtain ⟨hne, hb'⟩ := Finset.mem_erase.mp hb'
    have hout : q ∉ span b :=
      fun hin =>
        hne (hown.nodes.unique (hown.taken b' (Or.inl hb')) (hown.taken b (Or.inl hb)) hq hin)
    show BlockPage b' q (destroyBlockDesc s.desc b.1 b.2 q)
    rw [destroyBlockDesc_of_outside hout]
    exact h.block b' q hb' hq
  clear := by
    intro q hq
    show ClearPage (destroyBlockDesc s.desc b.1 b.2 q)
    by_cases hin : q ∈ span b
    · exact clearPage_destroy (h.block b b.1 hb (start_mem_span b)) (h.block b q hb hin)
    · rw [destroyBlockDesc_of_outside hin]
      apply h.clear q
      rintro (⟨b', hb', hin'⟩ | hlive)
      · have hne : b' ≠ b := fun heq => hin (heq ▸ hin')
        exact hq (Or.inl ⟨b', Finset.mem_erase.mpr ⟨hne, hb'⟩, hin'⟩)
      · exact hq (Or.inr hlive)

/-- The slabs that a step of a cache gives back. -/
def goneSlabs (live live' : Finset ℕ) : Option ℕ → Finset ℕ
  | some p => insert p live \ live'
  | none => live \ live'

/-- The descriptors when the new slab has been prepared. -/
def newDesc (d : ℕ → PageDesc) (i : CacheIndex) : Option ℕ → ℕ → PageDesc
  | some p => prepSlabDesc d i p
  | none => d

theorem slabDesc_eq (d : ℕ → PageDesc) (i : CacheIndex) (live live' : Finset ℕ) (new : Option ℕ) :
    slabDesc d i live live' new = destroySlabDescs (newDesc d i new) i (goneSlabs live live' new) := by
  cases new <;> rfl

theorem mem_goneSlabs {live live' : Finset ℕ} {new : Option ℕ} :
    p ∈ goneSlabs live live' new ↔ (p ∈ live ∨ new = some p) ∧ p ∉ live' := by
  cases new with
  | some n =>
    simp only [goneSlabs, Finset.mem_sdiff, Finset.mem_insert, Option.some.injEq, eq_comm (a := p), or_comm]
  | none => simp [goneSlabs]

variable [DecidableEq T]

section SlabSteps
variable {act : SlabAct T} {c : SlabState T}

omit [DecidableEq T] in
/-- A page that a step of a cache has on its hands, from before or from the page allocator. -/
theorem Owners.slab_allocated (h : Owners s) (hmay : s.MaySlab i act)
    (hp : p ∈ (s.cache i).live ∨ newPage act = some p) :
    s.Allocated (slabBlock i p) := hp.elim h.live fun hnew => (hmay p hnew).1

omit [DecidableEq T] in
theorem slabPage_new (h : DescOk s) (hown : Owners s) (hmay : s.MaySlab i act)
    (hp : p ∈ (s.cache i).live ∨ newPage act = some p) (hq : q ∈ span (slabBlock i p)) :
    SlabPage i p q (newDesc s.desc i (newPage act) q) := by
  cases hnew : newPage act with
  | none =>
    rw [hnew] at hp
    exact h.slab i p q (hp.resolve_right fun heq => by cases heq) hq
  | some n =>
    obtain ⟨halloc, hfree⟩ := hmay n hnew
    show SlabPage i p q (prepSlabDesc s.desc i n q)
    by_cases hpn : p = n
    · subst hpn
      exact slabPage_prep (h.clear q (hown.clear_of_not_taken halloc hfree hq)) hq
    · have hlive : p ∈ (s.cache i).live := by
        rw [hnew] at hp
        exact hp.resolve_right fun heq => hpn (Option.some.inj heq).symm
      have hout : q ∉ span (slabBlock i n) :=
        fun hin => hown.ne_of_not_taken halloc hfree (Or.inr ⟨i, hlive, rfl⟩ : s.Taken (slabBlock i p)) hin hq
      rw [prepSlabDesc_of_outside hout]
      exact h.slab i p q hlive hq

omit [DecidableEq T] in
theorem slabDesc_of_outside {live' : Finset ℕ}
    (hout : ∀ p, p ∈ (s.cache i).live ∨ newPage act = some p → q ∉ span (slabBlock i p)) :
    slabDesc s.desc i (s.cache i).live live' (newPage act) q = s.desc q := by
  rw [slabDesc_eq, destroySlabDescs_of_outside fun g hg => hout g (mem_goneSlabs.mp hg).1]
  cases hnew : newPage act with
  | none => rfl
  | some n => exact prepSlabDesc_of_outside (hout n (Or.inr hnew))

theorem DescOk.slabStep (h : DescOk s) (hown : Owners s) (hmay : s.MaySlab i act)
    (hs : slabStep (umallocParams i) (s.cache i) act = some c) (m : ℕ → UInt8) :
    DescOk { s with
      cache := Function.update s.cache i c
      desc := slabDesc s.desc i (s.cache i).live c.live (newPage act)
      mem := m } := by
  have hmove := slabStep_move hs
  -- a block that a user or another cache has shares no page with the slabs of the cache
  have hother (b : ℕ × ℕ) (hb : s.Taken b) (hnot : ∀ p, p ∈ (s.cache i).live → slabBlock i p ≠ b)
      (q : ℕ) (hq : q ∈ span b) :
      ∀ p, p ∈ (s.cache i).live ∨ newPage act = some p → q ∉ span (slabBlock i p) := by
    intro p hp hin
    have heq := hown.nodes.unique (hown.slab_allocated hmay hp) (hown.taken b hb) hin hq
    rcases hp with hlive | hnew
    · exact hnot p hlive heq
    · exact (hmay p hnew).2 (heq ▸ hb)
  constructor
  · intro j p q hp hq
    show SlabPage j p q (slabDesc s.desc i (s.cache i).live c.live (newPage act) q)
    by_cases hj : j = i
    · subst hj
      have hp' : p ∈ c.live := by
        have hup : p ∈ (Function.update s.cache j c j).live := hp
        rwa [Function.update_self] at hup
      have hfrom := hmove.live p hp'
      rw [slabDesc_eq, destroySlabDescs_of_outside]
      · exact slabPage_new h hown hmay hfrom hq
      · intro g hg hin
        obtain ⟨hg, hout⟩ := mem_goneSlabs.mp hg
        have heq := hown.nodes.unique (hown.slab_allocated hmay hg) (hown.slab_allocated hmay hfrom) hin hq
        have hgp : g = p := congrArg Prod.fst heq
        exact hout (hgp ▸ hp')
    · have hp' : p ∈ (s.cache j).live := by
        have hup : p ∈ (Function.update s.cache i c j).live := hp
        rwa [Function.update_of_ne hj] at hup
      rw [slabDesc_of_outside (hother (slabBlock j p) (Or.inr ⟨j, hp', rfl⟩) ?_ q hq)]
      · exact h.slab j p q hp' hq
      · intro p' hp'' heq
        have hpp : p' = p := congrArg Prod.fst heq
        exact hj (hown.once j i p hp' (hpp ▸ hp''))
  · intro b q hb hq
    show BlockPage b q (slabDesc s.desc i (s.cache i).live c.live (newPage act) q)
    rw [slabDesc_of_outside (hother b (Or.inl hb) (fun p hp heq => hown.apart i p hp (heq ▸ hb)) q hq)]
    exact h.block b q hb hq
  · intro q hq
    show ClearPage (slabDesc s.desc i (s.cache i).live c.live (newPage act) q)
    by_cases hin : ∃ p, (p ∈ (s.cache i).live ∨ newPage act = some p) ∧ q ∈ span (slabBlock i p)
    · obtain ⟨p, hp, hin⟩ := hin
      have hgone : p ∉ c.live := by
        intro hlive
        refine hq (Or.inr ⟨i, p, ?_, hin⟩)
        show p ∈ (Function.update s.cache i c i).live
        rw [Function.update_self]
        exact hlive
      rw [slabDesc_eq]
      exact clearPage_destroySlab (mem_goneSlabs.mpr ⟨hp, hgone⟩) hin (slabPage_new h hown hmay hp hin).block
    · rw [slabDesc_of_outside fun p hp hspan => hin ⟨p, hp, hspan⟩]
      apply h.clear q
      rintro (hblocks | ⟨j, p, hp, hspan⟩)
      · exact hq (Or.inl hblocks)
      · have hj : j ≠ i := by
          rintro rfl
          exact hin ⟨p, Or.inl hp, hspan⟩
        refine hq (Or.inr ⟨j, p, ?_, hspan⟩)
        show p ∈ (Function.update s.cache i c j).live
        rw [Function.update_of_ne hj]
        exact hp

end SlabSteps

theorem descOk_step {act : UmallocAct T} (h : DescOk s) (hown : Owners s)
    (hs : umallocStep s act = some s') : DescOk s' := by
  cases act with
  | page nid act =>
    obtain ⟨-, heq⟩ := Option.ite_none_right_eq_some.mp hs
    obtain ⟨n, -, rfl⟩ := Option.map_eq_some_iff.mp heq
    exact ⟨h.slab, h.block, h.clear⟩
  | slab i act =>
    obtain ⟨hmay, heq⟩ := Option.ite_none_right_eq_some.mp hs
    obtain ⟨c, hc, rfl⟩ := Option.map_eq_some_iff.mp heq
    exact h.slabStep hown hmay hc _
  | takePages b =>
    obtain ⟨⟨halloc, hfree⟩, heq⟩ := Option.ite_none_right_eq_some.mp hs
    obtain rfl := Option.some.inj heq
    exact h.takePages hown halloc hfree
  | givePages b =>
    obtain ⟨hb, heq⟩ := Option.ite_none_right_eq_some.mp hs
    obtain rfl := Option.some.inj heq
    exact h.givePages hown hb
  | write b k v =>
    obtain ⟨-, heq⟩ := Option.ite_none_right_eq_some.mp hs
    obtain rfl := Option.some.inj heq
    exact ⟨h.slab, h.block, h.clear⟩
  | outside x v =>
    obtain ⟨-, heq⟩ := Option.ite_none_left_eq_some.mp hs
    obtain rfl := Option.some.inj heq
    exact ⟨h.slab, h.block, h.clear⟩

/-! ## Runs -/

/-- What holds of the allocator in every state; nodes beyond the last one have nothing. -/
structure UmallocInv (s : UmallocState T) : Prop where
  owners : Owners s
  threads : Threads s
  desc : DescOk s
  far : ∀ n, maxNumnodes ≤ n → (s.node n).alloc = ∅

omit [DecidableEq T] in
theorem umallocInv_init : UmallocInv (umallocInit : UmallocState T) :=
  ⟨owners_init, threads_init, descOk_init, fun _ _ => rfl⟩

theorem node_far {act : UmallocAct T} (h : ∀ n, maxNumnodes ≤ n → (s.node n).alloc = ∅)
    (hs : umallocStep s act = some s') :
    ∀ n, maxNumnodes ≤ n → (s'.node n).alloc = ∅ := by
  intro n hn
  have hsame : s'.node n = s.node n := by
    cases act with
    | page nid act =>
      obtain ⟨⟨hnid, -⟩, heq⟩ := Option.ite_none_right_eq_some.mp hs
      obtain ⟨n', -, rfl⟩ := Option.map_eq_some_iff.mp heq
      exact Function.update_of_ne (by omega) _ _
    | slab i act =>
      obtain ⟨-, heq⟩ := Option.ite_none_right_eq_some.mp hs
      obtain ⟨c, -, rfl⟩ := Option.map_eq_some_iff.mp heq
      rfl
    | outside x v =>
      obtain ⟨-, heq⟩ := Option.ite_none_left_eq_some.mp hs
      obtain rfl := Option.some.inj heq
      rfl
    | takePages b =>
      obtain ⟨-, heq⟩ := Option.ite_none_right_eq_some.mp hs
      obtain rfl := Option.some.inj heq
      rfl
    | givePages b =>
      obtain ⟨-, heq⟩ := Option.ite_none_right_eq_some.mp hs
      obtain rfl := Option.some.inj heq
      rfl
    | write b k v =>
      obtain ⟨-, heq⟩ := Option.ite_none_right_eq_some.mp hs
      obtain rfl := Option.some.inj heq
      rfl
  rw [hsame]
  exact h n hn

theorem umallocInv_step {act : UmallocAct T} (h : UmallocInv s) (hs : umallocStep s act = some s') :
    UmallocInv s' :=
  ⟨owners_step h.owners hs, threads_step h.owners h.threads hs, descOk_step h.desc h.owners hs,
    node_far h.far hs⟩

theorem umallocInv_run {acts : List (UmallocAct T)} (h : UmallocInv s)
    (hrun : runActs umallocStep s acts = some s') : UmallocInv s' :=
  run_invariant (fun _ _ _ h _ hs => umallocInv_step h hs) acts s s' h (runMeets_trivial acts s) hrun

end Skp.Mm
