import Mathlib

/-! # Tilings by aligned blocks of powers of two

A block is a start and an order: `2 ^ order` places from a start that is a multiple of that size. A tiling
of a set of places is a set of blocks that cover it without overlap. Splitting a block into its halves,
joining two halves, taking a block out and adding tilings of disjoint sets give tilings again. -/
namespace Skp.Foundations
set_option autoImplicit false

/-! ## Buddies -/

theorem xor_pow_mul (k m : ℕ) : (2 ^ k * m) ^^^ 2 ^ k = 2 ^ k * (m ^^^ 1) := by
  have h : 2 ^ k * (m ^^^ 1) = (m ^^^ 1) <<< k := by rw [Nat.shiftLeft_eq, Nat.mul_comm]
  rw [h, Nat.shiftLeft_xor_distrib, Nat.shiftLeft_eq, Nat.shiftLeft_eq, Nat.one_mul, Nat.mul_comm]

theorem and_pow_mul (k m n : ℕ) : (2 ^ k * m) &&& (2 ^ k * n) = 2 ^ k * (m &&& n) := by
  have h : ∀ x, 2 ^ k * x = x <<< k := fun x => by rw [Nat.shiftLeft_eq, Nat.mul_comm]
  rw [h, h, h, Nat.shiftLeft_and_distrib]

theorem xor_one_eq (m : ℕ) : m ^^^ 1 = 2 * (m / 2) + (1 - m % 2) := by
  have hmod : (m ^^^ 1) % 2 = 1 - m % 2 := by
    rw [Nat.xor_mod_two_eq]
    omega
  have hdiv : (m ^^^ 1) / 2 = m / 2 := by
    rw [Nat.xor_div_two]
    simp
  omega

theorem and_xor_one (m : ℕ) : m &&& (m ^^^ 1) = 2 * (m / 2) := by
  have hmod : (m &&& (m ^^^ 1)) % 2 = 0 := by
    rw [xor_one_eq, Nat.and_mod_two_pow (n := 1)]
    have h : (2 * (m / 2) + (1 - m % 2)) % 2 = 1 - m % 2 := by omega
    simp only [pow_one, h]
    rcases Nat.mod_two_eq_zero_or_one m with h0 | h0 <;> rw [h0] <;> rfl
  have hdiv : (m &&& (m ^^^ 1)) / 2 = m / 2 := by
    rw [Nat.and_div_two, Nat.xor_div_two]
    simp
  omega

/-- The buddy of an aligned start is the other half of the block one order up; their conjunction is
its start. -/
theorem buddy_cases {p k : ℕ} (h : 2 ^ k ∣ p) :
    (2 ^ (k + 1) ∣ p ∧ p ^^^ 2 ^ k = p + 2 ^ k ∧ p &&& (p ^^^ 2 ^ k) = p) ∨
      (2 ^ (k + 1) ∣ p ^^^ 2 ^ k ∧ p = (p ^^^ 2 ^ k) + 2 ^ k ∧ p &&& (p ^^^ 2 ^ k) = p ^^^ 2 ^ k) := by
  obtain ⟨m, rfl⟩ := h
  rw [xor_pow_mul, and_pow_mul, and_xor_one, xor_one_eq]
  rcases Nat.mod_two_eq_zero_or_one m with h0 | h0
  · left
    have hm : m = 2 * (m / 2) := by omega
    refine ⟨⟨m / 2, ?_⟩, ?_, ?_⟩
    · rw [pow_succ, Nat.mul_assoc, ← hm]
    · rw [h0, ← hm]
      ring
    · rw [← hm]
  · right
    have hm : m = 2 * (m / 2) + 1 := by omega
    rw [h0]
    refine ⟨⟨m / 2, ?_⟩, ?_, ?_⟩
    · rw [pow_succ]
      ring
    · rw [Nat.sub_self, Nat.add_zero]
      nth_rewrite 1 [hm]
      ring
    · rw [Nat.sub_self, Nat.add_zero]

theorem xor_pow_of_dvd {p k : ℕ} (h : 2 ^ (k + 1) ∣ p) : p ^^^ 2 ^ k = p + 2 ^ k := by
  cases buddy_cases ((pow_dvd_pow 2 (Nat.le_succ k)).trans h) with
  | inl hc => exact hc.2.1
  | inr hc =>
    have hcontra : 2 ^ (k + 1) ∣ 2 ^ k := by
      rw [hc.2.1] at h
      exact (Nat.dvd_add_right hc.1).mp h
    exact absurd (Nat.le_of_dvd (Nat.two_pow_pos _) hcontra)
      (Nat.not_le_of_lt (Nat.pow_lt_pow_right (by decide) (Nat.lt_succ_self _)))

theorem dvd_xor_pow {p k : ℕ} (h : 2 ^ k ∣ p) : 2 ^ k ∣ p ^^^ 2 ^ k := by
  obtain ⟨m, rfl⟩ := h
  rw [xor_pow_mul]
  exact Nat.dvd_mul_right _ _

theorem xor_pow_ne (p k : ℕ) : p ^^^ 2 ^ k ≠ p := by
  intro h
  have := congrArg (fun x => x ^^^ p) h
  simp at this

theorem xor_pow_xor_pow (p k : ℕ) : p ^^^ 2 ^ k ^^^ 2 ^ k = p := by
  rw [Nat.xor_assoc, Nat.xor_self, Nat.xor_zero]

/-- The buddy of an upper half is the lower one. -/
theorem add_pow_xor_pow {p k : ℕ} (h : 2 ^ (k + 1) ∣ p) : (p + 2 ^ k) ^^^ 2 ^ k = p := by
  rw [← xor_pow_of_dvd h, xor_pow_xor_pow]

theorem buddy_div {p k top : ℕ} (hk : k < top) : (p ^^^ 2 ^ k) / 2 ^ top = p / 2 ^ top := by
  rw [← Nat.shiftRight_eq_div_pow, ← Nat.shiftRight_eq_div_pow, Nat.shiftRight_xor_distrib,
    Nat.shiftRight_eq_div_pow (2 ^ k), Nat.div_eq_of_lt (Nat.pow_lt_pow_right (by decide) hk), Nat.xor_zero]

/-! ## Tilings -/

/-- The places of a block. -/
def span (b : ℕ × ℕ) : Set ℕ := {q | b.1 ≤ q ∧ q < b.1 + 2 ^ b.2}

theorem start_mem_span (b : ℕ × ℕ) : b.1 ∈ span b :=
  ⟨Nat.le_refl _, Nat.lt_add_of_pos_right (Nat.two_pow_pos _)⟩

theorem mem_span_iff_div {p k q : ℕ} (h : 2 ^ k ∣ p) : q ∈ span (p, k) ↔ q / 2 ^ k = p / 2 ^ k := by
  obtain ⟨m, rfl⟩ := h
  have hpos := Nat.two_pow_pos k
  rw [Nat.mul_div_cancel_left m hpos, Nat.div_eq_iff hpos]
  show 2 ^ k * m ≤ q ∧ q < 2 ^ k * m + 2 ^ k ↔ _
  rw [Nat.mul_comm (2 ^ k) m]
  omega

/-- The blocks cover `R`, each place once, and start at multiples of their sizes. -/
structure Tiles (T : Set (ℕ × ℕ)) (R : Set ℕ) : Prop where
  aligned : ∀ b ∈ T, 2 ^ b.2 ∣ b.1
  cover : ∀ q, q ∈ R ↔ ∃ b ∈ T, q ∈ span b
  disjoint : ∀ b ∈ T, ∀ c ∈ T, ∀ q, q ∈ span b → q ∈ span c → b = c

namespace Tiles
variable {T U : Set (ℕ × ℕ)} {R Q : Set ℕ}

theorem start_mem (h : Tiles T R) {b : ℕ × ℕ} (hb : b ∈ T) : b.1 ∈ R :=
  (h.cover b.1).mpr ⟨b, hb, start_mem_span b⟩

theorem span_subset (h : Tiles T R) {b : ℕ × ℕ} (hb : b ∈ T) {q : ℕ} (hq : q ∈ span b) : q ∈ R :=
  (h.cover q).mpr ⟨b, hb, hq⟩

/-- No block of the tiling lies inside another. -/
theorem order_unique (h : Tiles T R) {b c : ℕ × ℕ} (hb : b ∈ T) (hc : c ∈ T) (hin : b.1 ∈ span c) : b = c :=
  h.disjoint b hb c hc b.1 (start_mem_span b) hin

theorem union (h : Tiles T R) (h' : Tiles U Q) (hdis : ∀ q, q ∈ R → q ∉ Q) : Tiles (T ∪ U) (R ∪ Q) where
  aligned := by
    intro b hb
    cases hb with
    | inl hb => exact h.aligned b hb
    | inr hb => exact h'.aligned b hb
  cover := by
    intro q
    constructor
    · intro hq
      cases hq with
      | inl hq =>
        obtain ⟨b, hb, hqb⟩ := (h.cover q).mp hq
        exact ⟨b, Or.inl hb, hqb⟩
      | inr hq =>
        obtain ⟨b, hb, hqb⟩ := (h'.cover q).mp hq
        exact ⟨b, Or.inr hb, hqb⟩
    · intro hq
      obtain ⟨b, hb, hqb⟩ := hq
      cases hb with
      | inl hb => exact Or.inl (h.span_subset hb hqb)
      | inr hb => exact Or.inr (h'.span_subset hb hqb)
  disjoint := by
    intro b hb c hc q hqb hqc
    cases hb with
    | inl hb =>
      cases hc with
      | inl hc => exact h.disjoint b hb c hc q hqb hqc
      | inr hc => exact absurd (h'.span_subset hc hqc) (hdis q (h.span_subset hb hqb))
    | inr hb =>
      cases hc with
      | inl hc => exact absurd (h'.span_subset hb hqb) (hdis q (h.span_subset hc hqc))
      | inr hc => exact h'.disjoint b hb c hc q hqb hqc

theorem singleton {b : ℕ × ℕ} (hb : 2 ^ b.2 ∣ b.1) : Tiles {b} (span b) where
  aligned := by
    intro c hc
    rw [Set.mem_singleton_iff.mp hc]
    exact hb
  cover := fun q => ⟨fun hq => ⟨b, rfl, hq⟩, fun ⟨c, hc, hq⟩ => Set.mem_singleton_iff.mp hc ▸ hq⟩
  disjoint := fun c hc d hd _ _ _ => (Set.mem_singleton_iff.mp hc).trans (Set.mem_singleton_iff.mp hd).symm

theorem remove (h : Tiles T R) {b : ℕ × ℕ} (hb : b ∈ T) : Tiles (T \ {b}) (R \ span b) where
  aligned := fun c hc => h.aligned c hc.1
  cover := by
    intro q
    constructor
    · intro hq
      obtain ⟨c, hc, hqc⟩ := (h.cover q).mp hq.1
      exact ⟨c, ⟨hc, fun heq => hq.2 (Set.mem_singleton_iff.mp heq ▸ hqc)⟩, hqc⟩
    · intro hq
      obtain ⟨c, hc, hqc⟩ := hq
      exact ⟨h.span_subset hc.1 hqc, fun hqb => hc.2 (h.disjoint c hc.1 b hb q hqc hqb)⟩
  disjoint := fun c hc d hd => h.disjoint c hc.1 d hd.1

end Tiles

theorem mem_span_halves {p k q : ℕ} : q ∈ span (p, k + 1) ↔ q ∈ span (p, k) ∨ q ∈ span (p + 2 ^ k, k) := by
  show p ≤ q ∧ q < p + 2 ^ (k + 1) ↔ (p ≤ q ∧ q < p + 2 ^ k) ∨ (p + 2 ^ k ≤ q ∧ q < p + 2 ^ k + 2 ^ k)
  rw [pow_succ]
  omega

theorem not_mem_both_halves {p k q : ℕ} (hl : q ∈ span (p, k)) : q ∉ span (p + 2 ^ k, k) := by
  intro hr
  have h1 : q < p + 2 ^ k := hl.2
  have h2 : p + 2 ^ k ≤ q := hr.1
  omega

/-- The two halves of a block tile its places. -/
theorem tiles_halves {p k : ℕ} (h : 2 ^ (k + 1) ∣ p) : Tiles {(p, k), (p + 2 ^ k, k)} (span (p, k + 1)) := by
  have hp : 2 ^ k ∣ p := (pow_dvd_pow 2 (Nat.le_succ k)).trans h
  have hl : Tiles {(p, k)} (span (p, k)) := Tiles.singleton hp
  have hr : Tiles {(p + 2 ^ k, k)} (span (p + 2 ^ k, k)) := Tiles.singleton (Nat.dvd_add hp (dvd_refl _))
  have hu := hl.union hr fun q => not_mem_both_halves
  have hspan : span (p, k) ∪ span (p + 2 ^ k, k) = span (p, k + 1) := Set.ext fun q => mem_span_halves.symm
  rw [hspan] at hu
  exact hu

namespace Tiles
variable {T : Set (ℕ × ℕ)} {R : Set ℕ} {p k : ℕ}

/-- One block replaced by its halves. -/
theorem split (h : Tiles T R) (hb : (p, k + 1) ∈ T) :
    Tiles (T \ {(p, k + 1)} ∪ {(p, k), (p + 2 ^ k, k)}) R := by
  have hu := (h.remove hb).union (tiles_halves (h.aligned _ hb)) fun q hq => hq.2
  have hR : R \ span (p, k + 1) ∪ span (p, k + 1) = R :=
    Set.sdiff_union_of_subset fun q hq => h.span_subset hb hq
  rw [hR] at hu
  exact hu

/-- Two halves replaced by their block. -/
theorem join (h : Tiles T R) (hl : (p, k) ∈ T) (hr : (p + 2 ^ k, k) ∈ T) (hp : 2 ^ (k + 1) ∣ p) :
    Tiles ((T \ {(p, k)}) \ {(p + 2 ^ k, k)} ∪ {(p, k + 1)}) R := by
  have hne : (p + 2 ^ k, k) ∉ ({(p, k)} : Set (ℕ × ℕ)) := by
    intro heq
    have h1 := congrArg Prod.fst (Set.mem_singleton_iff.mp heq)
    have h2 := Nat.two_pow_pos k
    simp only at h1
    omega
  have hrest := (h.remove hl).remove (b := (p + 2 ^ k, k)) ⟨hr, hne⟩
  have hR : (R \ span (p, k)) \ span (p + 2 ^ k, k) = R \ span (p, k + 1) := by
    ext q
    rw [Set.mem_sdiff, Set.mem_sdiff, Set.mem_sdiff, mem_span_halves]
    tauto
  rw [hR] at hrest
  have hone : Tiles {(p, k + 1)} (span (p, k + 1)) := Tiles.singleton hp
  have hu := hrest.union hone fun q hq => hq.2
  have hback : R \ span (p, k + 1) ∪ span (p, k + 1) = R := by
    apply Set.sdiff_union_of_subset
    intro q hq
    cases mem_span_halves.mp hq with
    | inl hq => exact h.span_subset hl hq
    | inr hq => exact h.span_subset hr hq
  rw [hback] at hu
  exact hu

end Tiles

/-! ## The coarsest tiling -/

/-- Below the order `top` no block has its buddy in the set. -/
def NoBuddies (top : ℕ) (T : Set (ℕ × ℕ)) : Prop := ∀ k p, k < top → (p, k) ∈ T → (p ^^^ 2 ^ k, k) ∉ T

/-- A place of an aligned block lies in a larger aligned block where the start does. -/
theorem start_mem_of_le {b c : ℕ × ℕ} (hb : 2 ^ b.2 ∣ b.1) (hc : 2 ^ c.2 ∣ c.1) (hle : b.2 ≤ c.2)
    {q : ℕ} (hq : q ∈ span b)
    (hqc : q ∈ span c) : b.1 ∈ span c := by
  rw [mem_span_iff_div hb] at hq
  rw [mem_span_iff_div hc] at hqc ⊢
  have hpow : 2 ^ c.2 = 2 ^ b.2 * 2 ^ (c.2 - b.2) := by rw [← pow_add, Nat.add_sub_cancel' hle]
  rw [← hqc, hpow, ← Nat.div_div_eq_div_mul, ← Nat.div_div_eq_div_mul, hq]

theorem eq_of_start_mem {b c : ℕ × ℕ} (hb : 2 ^ b.2 ∣ b.1) (hc : 2 ^ c.2 ∣ c.1) (horder : b.2 = c.2)
    (hin : b.1 ∈ span c) : b = c := by
  rw [mem_span_iff_div hc, ← horder] at hin
  rw [← horder] at hc
  refine Prod.ext ?_ horder
  rw [← Nat.div_mul_cancel hb, ← Nat.div_mul_cancel hc, hin]

namespace Tiles
variable {T U : Set (ℕ × ℕ)} {R : Set ℕ} {top : ℕ}

/-- Where buddies are merged, no block is smaller than an aligned block all of whose places are tiled. -/
theorem not_inside (h : Tiles T R) (hn : NoBuddies top T) {c : ℕ × ℕ} (hc : 2 ^ c.2 ∣ c.1) (htop : c.2 ≤ top)
    (hR : ∀ q ∈ span c, q ∈ R) (k : ℕ) {p : ℕ} (hp : (p, k) ∈ T) (hin : p ∈ span c) : ¬ k < c.2 := by
  -- the smallest order for which it would happen: the buddy's place is tiled by smaller blocks still
  induction k using Nat.strong_induction_on generalizing p with
  | _ k ih =>
    intro hk
    have hbuddy : p ^^^ 2 ^ k ∈ span c := by
      rw [mem_span_iff_div hc] at hin ⊢
      rw [buddy_div hk, hin]
    obtain ⟨d, hd, hqd⟩ := (h.cover _).mp (hR _ hbuddy)
    have hal := h.aligned d hd
    obtain hlt | heq | hgt := Nat.lt_trichotomy d.2 k
    · exact ih d.2 hlt hd (start_mem_of_le hal hc (by omega) hqd hbuddy) (by omega)
    · have hsame : (p ^^^ 2 ^ k, k) = d := eq_of_start_mem (dvd_xor_pow (h.aligned _ hp)) hal heq.symm hqd
      exact hn k p (by omega) hp (hsame ▸ hd)
    · have hpd : p ∈ span d := by
        rw [mem_span_iff_div hal] at hqd ⊢
        rw [← hqd, buddy_div hgt]
      have hsame := congrArg Prod.snd (h.order_unique hp hd hpd)
      exact hgt.ne hsame

/-- Two tilings of the same places without buddies are one. -/
theorem subset_of_noBuddies (h : Tiles T R) (h' : Tiles U R) (hT : NoBuddies top T) (hU : NoBuddies top U)
    (hTtop : ∀ b ∈ T, b.2 ≤ top) (hUtop : ∀ b ∈ U, b.2 ≤ top) {b : ℕ × ℕ} (hb : b ∈ T) : b ∈ U := by
  obtain ⟨c, hc, hqc⟩ := (h'.cover b.1).mp (h.start_mem hb)
  have hbal := h.aligned b hb
  have hcal := h'.aligned c hc
  obtain hlt | heq | hgt := Nat.lt_trichotomy b.2 c.2
  · exact absurd hlt (h.not_inside hT hcal (hUtop c hc) (fun q hq => h'.span_subset hc hq) b.2 hb hqc)
  · rw [eq_of_start_mem hbal hcal heq hqc]
    exact hc
  · have hin := start_mem_of_le hcal hbal hgt.le hqc (start_mem_span b)
    exact absurd hgt (h'.not_inside hU hbal (hTtop b hb) (fun q hq => h.span_subset hb hq) c.2 hc hin)

theorem eq_of_noBuddies (h : Tiles T R) (h' : Tiles U R) (hT : NoBuddies top T) (hU : NoBuddies top U)
    (hTtop : ∀ b ∈ T, b.2 ≤ top) (hUtop : ∀ b ∈ U, b.2 ≤ top) : T = U :=
  Set.ext fun _ => ⟨h.subset_of_noBuddies h' hT hU hTtop hUtop, h'.subset_of_noBuddies h hU hT hUtop hTtop⟩

/-- What is left of a tiling without some of its blocks. -/
theorem remaining (h : Tiles (T ∪ U) R) (hdis : ∀ b ∈ T, b ∉ U) :
    Tiles U {q | q ∈ R ∧ ∀ b ∈ T, q ∉ span b} where
  aligned := fun b hb => h.aligned b (Or.inr hb)
  cover := by
    intro q
    constructor
    · rintro ⟨hq, hnot⟩
      obtain ⟨b, hb, hqb⟩ := (h.cover q).mp hq
      exact ⟨b, hb.resolve_left fun hbT => hnot b hbT hqb, hqb⟩
    · rintro ⟨b, hb, hqb⟩
      refine ⟨h.span_subset (Or.inr hb) hqb, fun c hc hqc => hdis c hc ?_⟩
      rw [h.disjoint c (Or.inl hc) b (Or.inr hb) q hqc hqb]
      exact hb
  disjoint := fun b hb c hc => h.disjoint b (Or.inr hb) c (Or.inr hc)

end Tiles

end Skp.Foundations
