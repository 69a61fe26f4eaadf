import Skp.Mm.BuddyRuns

/-! # Blocks freed in any order

The free blocks below the highest order are merged wherever they can be, and such a tiling of the
free pages is unique: it does not matter in which order blocks come back. -/
namespace Skp.Mm
set_option autoImplicit false
open Skp.Foundations

/-! ## Freeing blocks one after the other -/

/-- `__free_pages_bulk`, with the block its last loop pops to give it back. -/
def freeBlock (c : BuddyParams) (z : Zone) (b : ℕ × ℕ) : Zone × Option ℕ :=
  let r := freePagesBulk c z b.1 b.2
  if r.2 < c.top then (r.1, none) else reclaimPop c r.1

/-- Blocks freed one after the other; `none` when one is given back to the OS. -/
def freeAll (c : BuddyParams) : List (ℕ × ℕ) → Zone → Option Zone
  | [], z => some z
  | b :: bs, z =>
      match freeBlock c z b with
      | (z, none) => freeAll c bs z
      | (_, some _) => none

section Freeing
variable {c : BuddyParams} {z z' : Zone} {A B : Set (ℕ × ℕ)} {S : Set ℕ}

theorem freePagesBulk_core {p k : ℕ} (h : BuddyCore c.top z (insert (p, k) B) S) (hB : (p, k) ∉ B)
    (hwhole : Whole c.top S) :
    BuddyCore c.top (freePagesBulk c z p k).1 B S ∧ (freePagesBulk c z p k).1.reserved = z.reserved ∧
      ∃ q, (q, (freePagesBulk c z p k).2) ∈ freeBlocks (freePagesBulk c z p k).1 := by
  have hle : k ≤ c.top := h.alloc_le _ (Set.mem_insert _ _)
  have hcore := h.setCounts (z.freePages + 2 ^ k) (if z.freePages = 0 then true else z.hasFree)
  have hm := mergeLoop_merged (c.top - k) (Nat.add_sub_cancel' hle) hcore hB hwhole
  exact ⟨hm.core.put hm.fresh (List.Perm.refl _) hm.noBuddy, hm.rest.reserved,
    _, (BuddyCore.mem_freeBlocks_put (List.Perm.refl _) (_, _)).mpr (Or.inr rfl)⟩

theorem reclaimPop_none (h : reclaimPop c z = (z', none)) : z' = z := by
  unfold reclaimPop at h
  split at h
  · cases hlist : z.freeList c.top with
    | nil =>
      rw [hlist] at h
      exact (congrArg Prod.fst h).symm
    | cons page rest =>
      rw [hlist] at h
      cases congrArg Prod.snd h
  · exact (congrArg Prod.fst h).symm

theorem freeBlock_core {b : ℕ × ℕ} (h : BuddyCore c.top z A S) (hwhole : Whole c.top S) (hb : b ∈ A)
    (hrun : freeBlock c z b = (z', none)) : BuddyCore c.top z' (A \ {b}) S ∧ z'.reserved = z.reserved := by
  have hset : insert b (A \ {b}) = A := Set.insert_sdiff_self_of_mem hb
  rw [← hset] at h
  obtain ⟨hcore, hres, -⟩ := freePagesBulk_core h (fun hmem => hmem.2 rfl) hwhole
  unfold freeBlock at hrun
  dsimp only at hrun
  split at hrun
  · obtain rfl : (freePagesBulk c z b.1 b.2).1 = z' := congrArg Prod.fst hrun
    exact ⟨hcore, hres⟩
  · rw [reclaimPop_none hrun]
    exact ⟨hcore, hres⟩

theorem freeAll_core (bs : List (ℕ × ℕ)) (h : BuddyCore c.top z A S) (hwhole : Whole c.top S)
    (hnodup : bs.Nodup)
    (hbs : ∀ b ∈ bs, b ∈ A) (hrun : freeAll c bs z = some z') :
    BuddyCore c.top z' {b | b ∈ A ∧ b ∉ bs} S ∧ z'.reserved = z.reserved := by
  induction bs generalizing z A with
  | nil =>
    obtain rfl := Option.some.inj hrun
    have hsame : {b | b ∈ A ∧ b ∉ []} = A :=
      Set.ext fun b => ⟨fun hb => hb.1, fun hb => ⟨hb, List.not_mem_nil⟩⟩
    rw [hsame]
    exact ⟨h, rfl⟩
  | cons b bs ih =>
    rw [List.nodup_cons] at hnodup
    rw [freeAll] at hrun
    cases hstep : freeBlock c z b with
    | mk z1 given =>
      rw [hstep] at hrun
      cases given with
      | some page => cases hrun
      | none =>
        obtain ⟨hcore, hres⟩ := freeBlock_core h hwhole (hbs b List.mem_cons_self) hstep
        have hrest : ∀ b' ∈ bs, b' ∈ A \ {b} := fun b' hb' =>
          ⟨hbs b' (List.mem_cons_of_mem _ hb'), fun heq => hnodup.1 (Set.mem_singleton_iff.mp heq ▸ hb')⟩
        obtain ⟨hcore', hres'⟩ := ih hcore hnodup.2 hrest hrun
        have hsame : {b' | b' ∈ A \ {b} ∧ b' ∉ bs} = {b' | b' ∈ A ∧ b' ∉ b :: bs} := by
          ext b'
          rw [Set.mem_ofPred_eq, Set.mem_ofPred_eq, Set.mem_sdiff, Set.mem_singleton_iff,
            List.mem_cons, not_or, and_assoc]
        rw [hsame] at hcore'
        exact ⟨hcore', hres'.trans hres⟩

theorem BuddyCore.free_unique (h : BuddyCore c.top z A S) {U : Set (ℕ × ℕ)}
    (hU : Tiles U {q | q ∈ usable z S ∧ ∀ b ∈ A, q ∉ span b}) (hn : NoBuddies c.top U)
    (hle : ∀ b ∈ U, b.2 ≤ c.top) :
    freeBlocks z = U :=
  (h.tiles.remaining h.apart).eq_of_noBuddies hU h.noBuddies hn h.free_le hle

theorem freeAll_perm {bs bs' : List (ℕ × ℕ)} {z1 z2 : Zone} (h : BuddyCore c.top z A S)
    (hwhole : Whole c.top S)
    (hperm : bs.Perm bs') (hnodup : bs.Nodup) (hbs : ∀ b ∈ bs, b ∈ A) (h1 : freeAll c bs z = some z1)
    (h2 : freeAll c bs' z = some z2) : freeBlocks z1 = freeBlocks z2 := by
  obtain ⟨hcore1, hres1⟩ := freeAll_core bs h hwhole hnodup hbs h1
  obtain ⟨hcore2, hres2⟩ :=
    freeAll_core bs' h hwhole (hperm.nodup_iff.mp hnodup)
      (fun b hb => hbs b (hperm.mem_iff.mpr hb)) h2
  have hsame : {b | b ∈ A ∧ b ∉ bs'} = {b | b ∈ A ∧ b ∉ bs} := Set.ext fun b => by
    rw [Set.mem_ofPred_eq, Set.mem_ofPred_eq, hperm.mem_iff]
  have husable : usable z1 S = usable z2 S := by
    unfold usable
    rw [hres1, hres2]
  rw [hsame] at hcore2
  refine hcore1.free_unique ?_ hcore2.noBuddies hcore2.free_le
  rw [husable]
  exact hcore2.tiles.remaining hcore2.apart

end Freeing

/-! ## A fresh node -/

section FreshNode
variable {c : BuddyParams} {z : Zone} {A : Set (ℕ × ℕ)} {S : Set ℕ} {base r : ℕ}

/-- One block of every order from `r` up to below `top`, each where its size says. -/
def staircase (base r top : ℕ) : Set (ℕ × ℕ) := {b | r ≤ b.2 ∧ b.2 < top ∧ b.1 = base + 2 ^ b.2}

theorem tiles_staircase {top : ℕ} (hbase : 2 ^ top ∣ base) :
    Tiles (staircase base r top) {q | base + 2 ^ r ≤ q ∧ q < base + 2 ^ top} where
  aligned := by
    rintro ⟨p, k⟩ ⟨-, hk, hp⟩
    dsimp only at hk hp ⊢
    rw [hp]
    exact Nat.dvd_add ((pow_dvd_pow 2 hk.le).trans hbase) (dvd_refl _)
  cover := by
    intro q
    constructor
    · rintro ⟨hlo, hhi⟩
      -- the order is the position of the highest bit of the distance
      have hpos := Nat.two_pow_pos r
      have hne : q - base ≠ 0 := by omega
      have hlog := Nat.pow_log_le_self 2 hne
      have hlog' := Nat.lt_pow_succ_log_self (b := 2) (by decide) (q - base)
      have hr : r ≤ Nat.log 2 (q - base) := Nat.le_log_of_pow_le (by decide) (by omega)
      have htop : Nat.log 2 (q - base) < top := Nat.log_lt_of_lt_pow hne (by omega)
      refine ⟨(base + 2 ^ Nat.log 2 (q - base), Nat.log 2 (q - base)), ⟨hr, htop, rfl⟩, ?_, ?_⟩
      · change base + 2 ^ Nat.log 2 (q - base) ≤ q
        omega
      · change q < base + 2 ^ Nat.log 2 (q - base) + 2 ^ Nat.log 2 (q - base)
        rw [pow_succ] at hlog'
        omega
    · rintro ⟨⟨p, k⟩, ⟨hr, hk, hp⟩, hlo, hhi⟩
      dsimp only at hr hk hp hlo hhi
      have hmono : 2 ^ r ≤ 2 ^ k := Nat.pow_le_pow_right (by decide) hr
      have hmono' : 2 ^ (k + 1) ≤ 2 ^ top := Nat.pow_le_pow_right (by decide) hk
      rw [pow_succ] at hmono'
      change base + 2 ^ r ≤ q ∧ q < base + 2 ^ top
      omega
  disjoint := by
    rintro ⟨p, k⟩ ⟨-, -, hp⟩ ⟨p', k'⟩ ⟨-, -, hp'⟩ q ⟨hlo, hhi⟩ ⟨hlo', hhi'⟩
    dsimp only at hp hp' hlo hhi hlo' hhi'
    have hsame : k = k' := by
      obtain hlt | heq | hlt := Nat.lt_trichotomy k k'
      · have hmono : 2 ^ (k + 1) ≤ 2 ^ k' := Nat.pow_le_pow_right (by decide) hlt
        rw [pow_succ] at hmono
        omega
      · exact heq
      · have hmono : 2 ^ (k' + 1) ≤ 2 ^ k := Nat.pow_le_pow_right (by decide) hlt
        rw [pow_succ] at hmono
        omega
    subst hsame
    rw [hp, hp']

theorem noBuddies_staircase {top : ℕ} (hbase : 2 ^ top ∣ base) : NoBuddies top (staircase base r top) := by
  rintro k p hk ⟨-, -, hp⟩ ⟨-, -, hq⟩
  dsimp only at hp hq
  have hpos := Nat.two_pow_pos k
  have hlow := add_pow_xor_pow ((pow_dvd_pow 2 hk).trans hbase)
  rw [← hp] at hlow
  omega

theorem freeAll_some (bs : List (ℕ × ℕ)) (h : BuddyCore c.top z A S) (hwhole : Whole c.top S)
    (hnodup : bs.Nodup)
    (hbs : ∀ b ∈ bs, b ∈ A)
    (hsmall : ∀ z' B, BuddyCore c.top z' B S → z'.reserved = z.reserved → ∀ b ∈ freeBlocks z', b.2 < c.top) :
    ∃ z', freeAll c bs z = some z' := by
  induction bs generalizing z A with
  | nil => exact ⟨z, rfl⟩
  | cons b bs ih =>
    rw [List.nodup_cons] at hnodup
    have hb := hbs b List.mem_cons_self
    have hset : insert b (A \ {b}) = A := Set.insert_sdiff_self_of_mem hb
    have hins := h
    rw [← hset] at hins
    obtain ⟨hcore, hres, q, hq⟩ := freePagesBulk_core hins (fun hmem => hmem.2 rfl) hwhole
    have hstep : freeBlock c z b = ((freePagesBulk c z b.1 b.2).1, none) :=
      if_pos (hsmall _ _ hcore hres _ hq)
    have hrest : ∀ b' ∈ bs, b' ∈ A \ {b} := fun b' hb' =>
      ⟨hbs b' (List.mem_cons_of_mem _ hb'), fun heq => hnodup.1 (Set.mem_singleton_iff.mp heq ▸ hb')⟩
    rw [freeAll, hstep]
    exact ih hcore hnodup.2 hrest fun z' B hcore' hres' => hsmall z' B hcore' (hres'.trans hres)

/-- The pages `__node_supply_memory` frees one by one when it has started the node. -/
def startPages (c : BuddyParams) (base : ℕ) : List (ℕ × ℕ) :=
  (List.range (2 ^ c.top - c.reserved)).map fun i => (base + c.reserved + i, 0)

theorem startPages_nodup (c : BuddyParams) (base : ℕ) : (startPages c base).Nodup := by
  refine List.Nodup.map (fun i j hij => ?_) List.nodup_range
  have hfst := congrArg Prod.fst hij
  dsimp only at hfst
  omega

variable {T : Type} [DecidableEq T] {s : BuddySys T}

/-- What the supply of a first block leaves: its pages, the first ones reserved, the others handed
out one by one. -/
structure Started (c : BuddyParams) (base : ℕ) (s : BuddySys T) : Prop where
  aligned : 2 ^ c.top ∣ base
  core : BuddyCore c.top s.zone s.alloc (span (base, c.top))
  whole : Whole c.top (span (base, c.top))
  alloc : ∀ b, b ∈ s.alloc ↔ b ∈ startPages c base
  reserved : ∀ q, q ∈ span (base, c.top) → s.zone.reserved q = decide (q < base + c.reserved)

theorem started_of_supply (hs : buddyStep c (buddyInit : BuddySys T) (.supply base) = some s) :
    Started c base s := by
  have hinv := buddyInv_supply buddyInv_init hs
  simp only [buddyStep] at hs
  split at hs
  · rename_i hlegal
    rw [if_neg (show ¬ (buddyInit : BuddySys T).hasUp = true from Bool.false_ne_true)] at hs
    obtain rfl := Option.some.inj hs
    have hf : Fresh (buddyInit : BuddySys T).zone _ (span (base, c.top)) _ := fresh_startup c fun _ _ => rfl
    have hsup : supplied c { (buddyInit : BuddySys T) with
        zone := initVpages (initVpages (buddyInit : BuddySys T).zone base c.reserved true) (base + c.reserved)
          (2 ^ c.top - c.reserved) false
        hasUp := true
        alloc := (buddyInit : BuddySys T).alloc ∪
          (Finset.range (2 ^ c.top - c.reserved)).image fun i => (base + c.reserved + i, 0) } =
          span (base, c.top) := by
      ext q
      constructor
      · intro hq
        by_contra hnot
        have hin := hq.1
        rw [(hf.old q hnot).1] at hin
        cases hin
      · exact fun hq => ⟨(hf.new q hq).1, fun t p hp => absurd hp.symm (Option.some_ne_none p)⟩
    refine ⟨hlegal.1, ?_, ?_, fun b => ?_, fun q hq => (hf.new q hq).2.1⟩
    · rw [← hsup]
      exact hinv.core
    · rw [← hsup]
      exact hinv.whole
    · rw [startPages, List.mem_map]
      change b ∈ ∅ ∪ _ ↔ _
      rw [Finset.empty_union, Finset.mem_image]
      simp only [Finset.mem_range, List.mem_range]
  · cases hs

omit [DecidableEq T] in
theorem Started.small (h : Started c base s) (hpos : 0 < c.reserved) {z' : Zone} {B : Set (ℕ × ℕ)}
    (hcore : BuddyCore c.top z' B (span (base, c.top))) (hres : z'.reserved = s.zone.reserved) :
    ∀ b ∈ freeBlocks z', b.2 < c.top := by
  intro b hb
  refine lt_of_le_of_ne (hcore.free_le b hb) fun htop => ?_
  obtain ⟨hin, hfree⟩ := hcore.tiles.start_mem (Or.inr hb)
  have hbase : b = (base, c.top) := eq_of_start_mem (hcore.tiles.aligned b (Or.inr hb)) h.aligned htop hin
  rw [hres, h.reserved b.1 hin, hbase] at hfree
  exact absurd (show base < base + c.reserved by omega) (of_decide_eq_false hfree)

omit [DecidableEq T] in
theorem Started.free_start (h : Started c base s) (hr : c.reserved = 2 ^ r) :
    ∃ z', freeAll c (startPages c base) s.zone = some z' ∧ freeBlocks z' = staircase base r c.top := by
  have hbs : ∀ b ∈ startPages c base, b ∈ (s.alloc : Set (ℕ × ℕ)) := fun b hb => (h.alloc b).mpr hb
  have hnodup := startPages_nodup c base
  obtain ⟨z', hz'⟩ := freeAll_some _ h.core h.whole hnodup hbs
    fun z' B hcore hres => h.small (by rw [hr]; exact Nat.two_pow_pos r) hcore hres
  obtain ⟨hcore, hres⟩ := freeAll_core _ h.core h.whole hnodup hbs hz'
  refine ⟨z', hz', hcore.free_unique ?_ (noBuddies_staircase h.aligned) fun b hb => hb.2.1.le⟩
  have hpages : {q | q ∈ usable z' (span (base, c.top)) ∧
      ∀ b ∈ {b | b ∈ (s.alloc : Set (ℕ × ℕ)) ∧ b ∉ startPages c base}, q ∉ span b} =
      {q | base + 2 ^ r ≤ q ∧ q < base + 2 ^ c.top} := by
    ext q
    constructor
    · rintro ⟨⟨hq, hfree⟩, -⟩
      rw [hres, h.reserved q hq, decide_eq_false_iff_not, hr] at hfree
      exact ⟨by omega, hq.2⟩
    · rintro ⟨hlo, hhi⟩
      have hq : q ∈ span (base, c.top) := ⟨by change base ≤ q; omega, hhi⟩
      refine ⟨⟨hq, ?_⟩, fun b hb => absurd ((h.alloc b).mp hb.1) hb.2⟩
      rw [hres, h.reserved q hq, decide_eq_false_iff_not, hr]
      omega
  rw [hpages]
  exact tiles_staircase h.aligned

end FreshNode

/-- Blocks that are freed in two orders leave the same free blocks, as long as none is given back;
and the pages of a node that starts, freed one by one, leave one block of every order from that of
the reserved pages to the last but one. -/
theorem free_order_irrelevant {T : Type} [DecidableEq T] (c : BuddyParams) :
    (∀ z A S, BuddyCore c.top z A S → Whole c.top S → ∀ bs bs' : List (ℕ × ℕ), bs.Perm bs' → bs.Nodup →
      (∀ b ∈ bs, b ∈ A) → ∀ z1 z2, freeAll c bs z = some z1 → freeAll c bs' z = some z2 →
        freeBlocks z1 = freeBlocks z2) ∧
    ∀ r, c.reserved = 2 ^ r → ∀ base (s : BuddySys T), buddyStep c buddyInit (.supply base) = some s →
      ∃ z, freeAll c (startPages c base) s.zone = some z ∧
        ∀ k p, p ∈ z.freeList k ↔ r ≤ k ∧ k < c.top ∧ p = base + 2 ^ k := by
  refine ⟨fun z A S h hwhole bs bs' hperm hnodup hbs z1 z2 h1 h2 => freeAll_perm h hwhole hperm
    hnodup hbs h1 h2,
    fun r hr base s hs => ?_⟩
  obtain ⟨z, hz, hfree⟩ := (started_of_supply hs).free_start hr
  exact ⟨z, hz, fun k p => (Set.ext_iff.mp hfree (p, k) :)⟩

/-- The node of sixteen pages starts: its first page is reserved, the next one and the pair behind
it are free, also when the pages come in another order. -/
theorem free_order_irrelevant_smallNode :
    ∃ s z, buddyStep smallNode (buddyInit : BuddySys Unit) (.supply 4) = some s ∧
    freeAll smallNode (startPages smallNode 4) s.zone = some z ∧
    (∀ k p, p ∈ z.freeList k ↔ 0 ≤ k ∧ k < 2 ∧ p = 4 + 2 ^ k) ∧
    ∃ z', freeAll smallNode [(7, 0), (5, 0), (6, 0)] s.zone = some z' ∧ freeBlocks z' = freeBlocks z := by
  obtain ⟨hperm, hstart⟩ := free_order_irrelevant (T := Unit) smallNode
  obtain ⟨z, hz, hfree⟩ := hstart 0 rfl 4 _ rfl
  have hs : Started smallNode 4 _ := started_of_supply (T := Unit) rfl
  refine ⟨_, z, rfl, hz, hfree, _, rfl, ?_⟩
  exact hperm _ _ _ hs.core hs.whole [(7, 0), (5, 0), (6, 0)] _ (by decide) (by decide)
    (fun b hb => (hs.alloc b).mpr (by revert b; decide)) _ _ rfl hz

end Skp.Mm
