import Skp.Adt.RadixFailure

/-! # A tree that keeps its root while insertions fail

Nodes without items stay behind, but they mislead no walk: in a tree with a root every insertion
stores its item or stores nothing, and a deletion takes out one item. -/
namespace Skp.Adt
set_option autoImplicit false
open Skp.Foundations

variable {V : Type}

/-- A tree with a root in which a node may have no used slot. -/
structure RadixRooted (root : RadixRoot V) : Prop where
  height_le : root.height ≤ 11
  counts : CountsUsed root.height root.rnode
  used : root.rnode.isNull = false

/-! ## The way down -/

/-- The item is stored where the index leads. -/
structure Stored (index : BitVec 64) (v : V) (h : ℕ) (s t : RadixSlot V) : Prop where
  counts : CountsUsed h t
  used : t.isNull = false
  walk : ∀ j, walkSlot j h t = if SamePath h j index then .item v else walkSlot j h s

/-- No index leads elsewhere than before. -/
structure Unmoved (h : ℕ) (s t : RadixSlot V) : Prop where
  counts : CountsUsed h t
  used : s.isNull = false → t.isNull = false
  walk : ∀ j, walkSlot j h t = walkSlot j h s

section Walk
variable {h : ℕ} {s t : RadixSlot V} {off : Fin 64} {index : BitVec 64} {v : V}

theorem Unmoved.refl (hc : CountsUsed h s) : Unmoved h s s := ⟨hc, id, fun _ => rfl⟩

theorem Unmoved.trans {u : RadixSlot V} (h₁ : Unmoved h s t) (h₂ : Unmoved h t u) : Unmoved h s u :=
  ⟨h₂.counts, fun hs => h₂.used (h₁.used hs), fun j => (h₂.walk j).trans (h₁.walk j)⟩

theorem Unmoved.node (hc : CountsUsed (h + 1) s) (ht : Unmoved h (s.slots off) t) {c : ℕ}
    (tags : Fin 3 → Fin 64 → Bool)
    (hcount : c = Adt.used (Function.update s.slots off t)) :
    Unmoved (h + 1) s (.node c tags (Function.update s.slots off t)) := by
  refine ⟨hc.exchange ht.counts hcount, fun _ => rfl, fun j => ?_⟩
  rw [walkSlot_exchange, ht.walk j]
  split
  · rename_i hj
    rw [walkSlot_succ j h s, hj]
  · rfl

theorem count_after (hc : CountsUsed (h + 1) s) (hkeep : (s.slots off).isNull = false → t.isNull = false) :
    (if (s.slots off).isNull && !t.isNull then s.count + 1 else s.count) =
      used (Function.update s.slots off t) := by
  have hup := used_update s.slots off t
  rw [hc.count_eq]
  cases hoff : (s.slots off).isNull with
  | false =>
    rw [hoff, hkeep hoff] at hup
    rw [Bool.false_and, if_neg Bool.false_ne_true]
    omega
  | true =>
    rw [hoff, if_pos rfl] at hup
    cases ht : t.isNull with
    | false =>
      rw [ht, if_neg Bool.false_ne_true] at hup
      rw [Bool.not_false, Bool.and_true, if_pos rfl]
      omega
    | true =>
      rw [ht, if_pos rfl] at hup
      rw [Bool.not_true, Bool.and_false, if_neg Bool.false_ne_true]
      omega

/-- Whatever the allocator does, the way down to an empty slot stores the item or moves nothing. -/
theorem insertWalk_cases (alloc : ℕ → Bool) {k : ℕ} (hc : CountsUsed h s)
    (hempty : (walkSlot index h s).isNull = true) :
    (insertWalk alloc index v h s k).2.1 = 0 ∧ Stored index v h s (insertWalk alloc index v h s k).1 ∨
      (insertWalk alloc index v h s k).2.1 = eNOMEM ∧ Unmoved h s (insertWalk alloc index v h s k).1 := by
  induction h generalizing s k with
  | zero =>
    have hs : s.isNull = true := hempty
    rw [insertWalk, if_pos hs]
    refine Or.inl ⟨rfl, trivial, rfl, fun j => ?_⟩
    have hpath : SamePath 0 j index := fun i hi => absurd hi (Nat.not_lt_zero i)
    rw [if_pos hpath]
    rfl
  | succ h ih =>
    rw [walkSlot_succ] at hempty
    rw [insertWalk]
    split
    · exact Or.inr ⟨rfl, Unmoved.refl hc⟩
    · dsimp only
      generalize hoff : calcOffset index (h * radixMapShift) = off at hempty
      generalize (if s.isNull then k + 1 else k) = k'
      have hrec := ih (k := k') (hc.slots off) hempty
      generalize insertWalk alloc index v h (s.slots off) k' = r at hrec
      obtain ⟨herr, hst⟩ | ⟨herr, hun⟩ := hrec
      · refine Or.inl ⟨herr, hc.exchange hst.counts (count_after hc fun _ => hst.used), rfl, ?_⟩
        exact walkSlot_exchange_path hoff hst.walk
      · exact Or.inr ⟨herr, Unmoved.node hc hun _ (count_after hc hun.used)⟩

theorem clearNodeTag_unmoved (tag : Fin 3) (hc : CountsUsed h s) (hp : (walkSlot index h s).isNull = false) :
    Unmoved h s (clearNodeTag index tag h s).1 := by
  induction h generalizing s with
  | zero => exact Unmoved.refl hc
  | succ h ih =>
    rw [walkSlot_succ] at hp
    have hrec := ih (hc.slots (calcOffset index (h * radixMapShift))) hp
    have hslot := walkSlot_used hp
    have hup := used_update s.slots (calcOffset index (h * radixMapShift))
      (clearNodeTag index tag h (s.slots (calcOffset index (h * radixMapShift)))).1
    rw [hslot, hrec.used hslot] at hup
    have hcount : s.count = Adt.used (Function.update s.slots (calcOffset index (h * radixMapShift))
        (clearNodeTag index tag h (s.slots (calcOffset index (h * radixMapShift)))).1) := by
      rw [hc.count_eq]
      omega
    simp only [clearNodeTag]
    split
    · exact hrec.node hc _ hcount
    · exact hrec.node hc _ hcount

theorem clearTags_unmoved (tags : List (Fin 3)) (hc : CountsUsed h s)
    (hp : (walkSlot index h s).isNull = false) :
    Unmoved h s (tags.foldl (fun s tag => (clearNodeTag index tag h s).1) s) := by
  induction tags generalizing s with
  | nil => exact Unmoved.refl hc
  | cons tag tags ih =>
    have hfirst := clearNodeTag_unmoved tag hc hp
    exact hfirst.trans (ih hfirst.counts (by rw [hfirst.walk]; exact hp))

theorem pruneWalk_walk (hc : CountsUsed h s) (hp : (walkSlot index h s).isNull = false) (j : BitVec 64) :
    walkSlot j h (pruneWalk index h s) = if SamePath h j index then .null else walkSlot j h s := by
  induction h generalizing s with
  | zero =>
    have hpath : SamePath 0 j index := fun k hk => absurd hk (Nat.not_lt_zero k)
    rw [if_pos hpath]
    rfl
  | succ h ih =>
    rw [walkSlot_succ] at hp
    have hslot := walkSlot_used hp
    simp only [pruneWalk]
    generalize hoff : calcOffset index (h * radixMapShift) = off at hp hslot
    have hwalk : ∀ c,
        walkSlot j (h + 1)
        (.node c s.tags (Function.update s.slots off (pruneWalk index h (s.slots off)))) =
        if SamePath (h + 1) j index then .null else walkSlot j (h + 1) s := by
      intro c
      rw [walkSlot_exchange, ih (hc.slots off) hp]
      simp only [samePath_succ, hoff]
      by_cases hj : calcOffset j (h * radixMapShift) = off
      · rw [if_pos hj, walkSlot_succ j h s, hj]
        simp only [true_and]
      · rw [if_neg hj, if_neg fun hs => hj hs.1]
    split
    · rename_i hnull
      split
      · -- the last used slot: the node goes
        rename_i hzero
        have hup := used_update s.slots off (pruneWalk index h (s.slots off))
        rw [hslot, hnull, if_neg Bool.false_ne_true, if_pos rfl] at hup
        rw [hc.count_eq] at hzero
        have hempty : Adt.used (Function.update s.slots off (pruneWalk index h (s.slots off))) = 0 := by omega
        rw [← hwalk s.count, walkSlot_null, walkSlot_succ]
        change _ = walkSlot j h (Function.update s.slots off (pruneWalk index h (s.slots off)) _)
        rw [slots_null_of_used hempty, walkSlot_null]
      · exact hwalk _
    · exact hwalk _

end Walk

/-! ## Growing -/

section Grow
variable {alloc : ℕ → Bool} {root : RadixRoot V} {index : BitVec 64}

theorem pushRoot_counts (tags : Fin 3 → Bool) (hc : CountsUsed root.height root.rnode)
    (hn : root.rnode.isNull = false) :
    CountsUsed (pushRoot tags root).height (pushRoot tags root).rnode := by
  have hnull : CountsUsed (root.height + 1) (.null : RadixSlot V) := countsUsed_null _
  refine hnull.exchange hc ?_
  have hup := used_update (RadixSlot.null : RadixSlot V).slots 0 root.rnode
  have hz : used (RadixSlot.null : RadixSlot V).slots = 0 := hnull.count_eq.symm
  rw [hn, hz] at hup
  exact hup.symm

/-- The roots that were pushed keep what every index leads to; without a failure they are all there. -/
theorem pushRoots_counts (alloc : ℕ → Bool) (tags : Fin 3 → Bool) (m : ℕ) {root : RadixRoot V} {k : ℕ}
    (hc : CountsUsed root.height root.rnode) (hn : root.rnode.isNull = false) :
    CountsUsed (pushRoots alloc tags m root k).1.height (pushRoots alloc tags m root k).1.rnode ∧
      (pushRoots alloc tags m root k).1.rnode.isNull = false ∧
      (∀ i, slotAt (pushRoots alloc tags m root k).1.height (pushRoots alloc tags m root k).1.rnode i =
        slotAt root.height root.rnode i) ∧
      (pushRoots alloc tags m root k).1.height ≤ root.height + m ∧
      ((pushRoots alloc tags m root k).2.1 = 0 ∧ (pushRoots alloc tags m root k).1.height = root.height + m ∨
        (pushRoots alloc tags m root k).2.1 = eNOMEM) := by
  induction m generalizing root k with
  | zero => exact ⟨hc, hn, fun _ => rfl, le_rfl, Or.inl ⟨rfl, rfl⟩⟩
  | succ m ih =>
    rw [pushRoots]
    split
    · obtain ⟨hcu, hnull, hslot, hle, hres⟩ := ih (k := k + 1) (pushRoot_counts tags hc hn) rfl
      have hheight : (pushRoot tags root).height + m = root.height + (m + 1) := by
        change root.height + 1 + m = _
        omega
      rw [hheight] at hle hres
      exact ⟨hcu, hnull, fun i => (hslot i).trans (pushRoot_slotAt tags root i), hle, hres⟩
    · exact ⟨hc, hn, fun _ => rfl, Nat.le_add_right _ _, Or.inr rfl⟩

theorem height_of_exceeded (hh : root.height ≤ 11) (hlt : rdtreeMaxindex root.height < index) :
    root.height ≤ 10 := by
  by_contra hgt
  have heleven : root.height = 11 := by omega
  refine not_maxindex_lt.mpr ?_ hlt
  have hi := index.isLt
  rw [heleven]
  omega

/-- The tree an insertion descends from: the same contents, and without a failure a height that
holds the index. -/
theorem RadixRooted.grown (h : RadixRooted root) (alloc : ℕ → Bool) (index : BitVec 64) :
    RadixRooted (insertGrown alloc root index).1 ∧
      (∀ i, slotAt (insertGrown alloc root index).1.height (insertGrown alloc root index).1.rnode i =
        slotAt root.height root.rnode i) ∧
      ((insertGrown alloc root index).2.1 = 0 ∧ index.toNat < 64 ^ (insertGrown alloc root index).1.height ∨
        (insertGrown alloc root index).2.1 = eNOMEM) := by
  unfold insertGrown
  split
  · rename_i hneed
    have hlt : rdtreeMaxindex root.height < index := hneed.resolve_left fun hz => by
      have hused := h.used
      rw [hz.2] at hused
      cases hused
    have hten := height_of_exceeded h.height_le hlt
    obtain ⟨hge, hle, hholds⟩ := raiseHeight_spec index 12 (root.height + 1) (by omega) (by omega)
    unfold rdtreeExtend
    dsimp only
    rw [h.used, if_neg Bool.false_ne_true]
    obtain ⟨hcu, hnull, hslot, hheight, hres⟩ :=
      pushRoots_counts alloc (k := 0) (fun t => anyTag (root.rnode.tags t))
      (raiseHeight index 12 (root.height + 1) - root.height) h.counts h.used
    refine ⟨⟨by omega, hcu, hnull⟩, hslot, hres.imp_left fun hok => ⟨hok.1, ?_⟩⟩
    rw [hok.2, Nat.add_sub_cancel' (by omega)]
    exact hholds
  · rename_i hneed
    exact ⟨h, fun _ => rfl, Or.inl ⟨rfl, not_maxindex_lt.mp fun hlt => hneed (Or.inr hlt)⟩⟩

end Grow

/-! ## The operations -/

section Operations
variable {root : RadixRoot V} {index : BitVec 64} {v : V}

theorem CountsUsed.walkSlot {h : ℕ} {s : RadixSlot V} (index : BitVec 64) (hc : CountsUsed h s) :
    CountsUsed 0 (walkSlot index h s) := by
  induction h generalizing s with
  | zero => exact hc
  | succ h ih =>
    rw [walkSlot_succ]
    exact ih (hc.slots _)

theorem isNull_of_value {s : RadixSlot V} (hc : CountsUsed 0 s) (hv : s.value = none) : s.isNull = true := by
  cases s with
  | null => rfl
  | item w => cases hv
  | node c t f => exact hc.elim

theorem lookup_stored {h : ℕ} {s t : RadixSlot V} {nr : BitVec 64} (hst : Stored index v h s t)
    (hindex : index.toNat < 64 ^ h) (hslot : ∀ i, (slotAt h s i).value = radixTreeLookup root i) :
    radixTreeLookup { height := h, nrNodes := nr, rnode := t } =
      Function.update (radixTreeLookup root) index (some v) := by
  funext i
  rw [radixTreeLookup_eq]
  change (slotAt h t i).value = _
  by_cases hi : i = index
  · rw [hi, Function.update_self, slotAt, if_pos hindex, hst.walk,
      if_pos ((samePath_iff hindex hindex).mpr rfl)]
    rfl
  · rw [Function.update_of_ne hi, ← hslot i]
    unfold slotAt
    split
    · rename_i hlt
      rw [hst.walk, if_neg fun hp => hi ((samePath_iff hlt hindex).mp hp)]
    · rfl

/-- An insertion at an index that is not bound stores its item, or runs out of nodes and leaves what
the tree holds. -/
theorem RadixRooted.insert (h : RadixRooted root) (alloc : ℕ → Bool)
    (hfree : radixTreeLookup root index = none) :
    RadixRooted (radixTreeInsert alloc root index (some v)).1 ∧
      ((radixTreeInsert alloc root index (some v)).2 = 0 ∧
          radixTreeLookup (radixTreeInsert alloc root index (some v)).1 =
            Function.update (radixTreeLookup root) index (some v) ∨
        (radixTreeInsert alloc root index (some v)).2 = eNOMEM ∧
          radixTreeLookup (radixTreeInsert alloc root index (some v)).1 = radixTreeLookup root) := by
  obtain ⟨hrooted, hslot, hres⟩ := h.grown alloc index
  have hsame : radixTreeLookup (insertGrown alloc root index).1 = radixTreeLookup root := by
    funext i
    rw [radixTreeLookup_eq, radixTreeLookup_eq, hslot]
  rw [radixTreeInsert_some]
  obtain ⟨hok, hindex⟩ | herr := hres
  · rw [hok, if_neg (not_not.mpr rfl)]
    dsimp only
    have hempty : (walkSlot index (insertGrown alloc root index).1.height
        (insertGrown alloc root index).1.rnode).isNull =
        true := by
      refine isNull_of_value (hrooted.counts.walkSlot index) ?_
      rw [← hsame, radixTreeLookup_eq, slotAt, if_pos hindex] at hfree
      exact hfree
    obtain ⟨hzero, hst⟩ | ⟨herr, hun⟩ :=
      insertWalk_cases (v := v) alloc (k := (insertGrown alloc root index).2.2)
      hrooted.counts hempty
    · refine ⟨⟨hrooted.height_le, hst.counts, hst.used⟩, Or.inl ⟨hzero, lookup_stored hst hindex fun i => ?_⟩⟩
      rw [← hsame, radixTreeLookup_eq]
    · refine ⟨⟨hrooted.height_le, hun.counts, hun.used hrooted.used⟩, Or.inr ⟨herr, ?_⟩⟩
      rw [← hsame]
      funext i
      rw [radixTreeLookup_eq, radixTreeLookup_eq]
      unfold slotAt
      rw [hun.walk]
  · rw [herr, if_pos (by decide)]
    exact ⟨hrooted, Or.inr ⟨rfl, hsame⟩⟩

theorem radixInit_insert {alloc : ℕ → Bool} (hok : (radixTreeInsert alloc radixInit 0 (some v)).2 = 0) :
    RadixRooted (radixTreeInsert alloc radixInit 0 (some v)).1 ∧
      radixTreeLookup (radixTreeInsert alloc radixInit 0 (some v)).1 =
        Function.update (fun _ => none) 0 (some v) := by
  have hgrown : insertGrown alloc (radixInit : RadixRoot V) 0 =
      ({ height := 1, nrNodes := 0, rnode := .null }, 0, 0) := by
    rw [insertGrown, if_pos (Or.inl ⟨rfl, rfl⟩)]
    rfl
  rw [radixTreeInsert_some, hgrown] at hok ⊢
  rw [if_neg (not_not.mpr rfl)] at hok ⊢
  dsimp only at hok ⊢
  have hempty : (walkSlot 0 1 (.null : RadixSlot V)).isNull = true := rfl
  have hnone : ∀ i, (slotAt 1 (.null : RadixSlot V) i).value = radixTreeLookup radixInit i := fun i => by
    rw [slotAt_null]
    exact (radixInit_refines.lookup i).symm
  obtain ⟨hzero, hst⟩ | ⟨herr, hun⟩ := insertWalk_cases (v := v) alloc (k := 0) (countsUsed_null 1) hempty
  · refine ⟨⟨Nat.one_le_ofNat, hst.counts, hst.used⟩, ?_⟩
    rw [lookup_stored hst (Nat.pow_pos (by decide)) hnone]
    congr 1
    funext i
    exact radixInit_refines.lookup i
  · rw [herr] at hok
    cases hok

theorem RadixRooted.delete (h : RadixRooted root) (hv : radixTreeLookup root index = some v) :
    (radixTreeDelete root index).2 = some v ∧
      radixTreeLookup (radixTreeDelete root index).1 = Function.update (radixTreeLookup root) index none ∧
      ((∃ i, i ≠ index ∧ radixTreeLookup root i ≠ none) → RadixRooted (radixTreeDelete root index).1) := by
  have hindex : index.toNat < 64 ^ root.height := by
    by_contra hge
    rw [radixTreeLookup_eq, slotAt, if_neg hge] at hv
    cases hv
  have hp : (walkSlot index root.height root.rnode).isNull = false := by
    rw [radixTreeLookup_eq, slotAt, if_pos hindex] at hv
    cases hn : (walkSlot index root.height root.rnode).isNull with
    | false => rfl
    | true =>
      rw [eq_null_of_isNull hn] at hv
      cases hv
  have hun := clearTags_unmoved (List.finRange 3) h.counts hp
  have hp' : (walkSlot index root.height ((List.finRange 3).foldl
      (fun s tag => (clearNodeTag index tag root.height s).1) root.rnode)).isNull = false := by
    rw [hun.walk]
    exact hp
  have hwalk := pruneWalk_walk hun.counts hp'
  have hcounts := (pruneWalk_hollow hun.counts hp').1
  have hres : radixTreeDelete root index =
      ({ height := if (pruneWalk index root.height ((List.finRange 3).foldl
            (fun s tag => (clearNodeTag index tag root.height s).1) root.rnode)).isNull then 0
            else root.height
         nrNodes := root.nrNodes - 1
         rnode := pruneWalk index root.height ((List.finRange 3).foldl
            (fun s tag => (clearNodeTag index tag root.height s).1) root.rnode) }, some v) := by
    unfold radixTreeDelete
    rw [fillPath_eq, hv]
  rw [hres]
  generalize pruneWalk index root.height ((List.finRange 3).foldl
    (fun s tag => (clearNodeTag index tag root.height s).1) root.rnode) = t at hwalk hcounts
  have hslot : ∀ i, (slotAt root.height t i).value = Function.update (radixTreeLookup root) index none i := by
    intro i
    by_cases hi : i = index
    · rw [hi, Function.update_self, slotAt, if_pos hindex, hwalk,
        if_pos ((samePath_iff hindex hindex).mpr rfl)]
      rfl
    · rw [Function.update_of_ne hi, radixTreeLookup_eq]
      unfold slotAt
      split
      · rename_i hlt
        rw [hwalk, if_neg fun hs => hi ((samePath_iff hlt hindex).mp hs), hun.walk]
      · rfl
  refine ⟨rfl, ?_, ?_⟩
  · funext i
    rw [← hslot i, radixTreeLookup_eq]
    change (slotAt (if t.isNull then 0 else root.height) t i).value = _
    split
    · rename_i hn
      rw [eq_null_of_isNull hn, slotAt_null, slotAt_null]
    · rfl
  · rintro ⟨i, hi, hother⟩
    have ht : t.isNull = false := by
      cases hn : t.isNull with
      | false => rfl
      | true =>
        refine absurd ?_ hother
        rw [← Function.update_of_ne hi none (radixTreeLookup root), ← hslot i,
          eq_null_of_isNull hn, slotAt_null]
        rfl
    dsimp only
    rw [ht, if_neg Bool.false_ne_true]
    exact ⟨h.height_le, hcounts, ht⟩

end Operations

end Skp.Adt
