import Skp.Adt.RadixTags

/-! # Runs of a tagged radix tree

The abstract state is the map with a set of tagged indices for each tag. -/
namespace Skp.Adt
set_option autoImplicit false
open Skp.Foundations

variable {V : Type}

/-! ## The command machine -/

inductive RadixTagCmd (V : Type) where
  | base (c : RadixCmd V)
  | tagSet (index : BitVec 64) (tag : Fin 3)
  | tagClear (index : BitVec 64) (tag : Fin 3)
  | tagGet (index : BitVec 64) (tag : Fin 3)
  | tagged (tag : Fin 3)

inductive RadixTagOut (V : Type) where
  | base (o : RadixOut V)
  | item (o : Option V)
  | flag (b : Bool)
  | bug

def radixTagExec (root : RadixRoot V) : RadixTagCmd V → RadixRoot V × RadixTagOut V
  | .base c => let r := radixExec root c; (r.1, .base r.2)
  | .tagSet index tag => match radixTreeTagSet root index tag with
    | none => (root, .bug)
    | some r => (r.1, .item r.2)
  | .tagClear index tag => match radixTreeTagClear root index tag with
    | none => (root, .bug)
    | some r => (r.1, .item r.2)
  | .tagGet index tag => match radixTreeTagGet root index tag with
    | none => (root, .bug)
    | some b => (root, .flag b)
  | .tagged tag => (root, .flag (radixTreeTagged root tag))

/-- The bindings and, for each tag, the indices whose items carry it. -/
structure TaggedMap (V : Type) where
  map : RadixMap V
  tags : Fin 3 → Finset (BitVec 64)

/-- Tags are set on present items; an item that is inserted has none, and one that is deleted loses all. -/
def radixTagSpec : Spec (TaggedMap V) (RadixTagCmd V) (RadixTagOut V) where
  legal a c := match c with
    | .base c => radixSpec.legal a.map c
    | .tagSet index _ => index ∈ a.map
    | .tagClear _ _ => True
    | .tagGet _ _ => True
    | .tagged _ => True
  next a c := match c with
    | .base (.delete index) => { map := a.map.erase index, tags := fun t => (a.tags t).erase index }
    | .base c => { a with map := radixSpec.next a.map c }
    | .tagSet index tag => { a with tags := Function.update a.tags tag (insert index (a.tags tag)) }
    | .tagClear index tag => { a with tags := Function.update a.tags tag ((a.tags tag).erase index) }
    | .tagGet _ _ => a
    | .tagged _ => a
  out a c o := match c with
    | .base c => ∃ ob, o = .base ob ∧ radixSpec.out a.map c ob
    | .tagSet index _ => o = .item (a.map.lookup index)
    | .tagClear index _ => o = .item (a.map.lookup index)
    | .tagGet index tag => o = .flag (decide (index ∈ a.tags tag))
    | .tagged tag => o = .flag (decide (a.tags tag).Nonempty)

/-- The tree holds the map, and its tag bits are those of the tagged indices. -/
structure RadixTagRefines (root : RadixRoot V) (a : TaggedMap V) : Prop where
  base : RadixRefines root a.map
  present : ∀ t i, i ∈ a.tags t → i ∈ a.map
  bits : ∀ t, TagsAre t root.height (· ∈ a.tags t) root.rnode

section Steps
variable {root : RadixRoot V} {a : TaggedMap V}

theorem RadixRefines.lt_of_mem {m : RadixMap V} (h : RadixRefines root m) {i : BitVec 64} (hi : i ∈ m) :
    i.toNat < 64 ^ root.height := by
  rw [mem_iff_slotAt h] at hi
  unfold slotAt at hi
  split at hi
  · assumption
  · cases hi

theorem RadixRefines.walk_of_mem {m : RadixMap V} (h : RadixRefines root m) {i : BitVec 64} (hi : i ∈ m) :
    (walkSlot i root.height root.rnode).isNull = false := by
  have hlt := h.lt_of_mem hi
  rw [mem_iff_slotAt h] at hi
  unfold slotAt at hi
  rwa [if_pos hlt] at hi

theorem RadixTagRefines.path (h : RadixTagRefines root a) {index : BitVec 64}
    (hlt : index.toNat < 64 ^ root.height)
    (t : Fin 3) (i : BitVec 64) (hi : i ∈ a.tags t) (hpath : SamePath root.height i index) : i = index :=
  (samePath_iff (h.base.lt_of_mem (h.present t i hi)) hlt).mp hpath

/-! ## Insertion -/

theorem pushRoots_tags {alloc : ℕ → Bool} {tag : Fin 3} {T : BitVec 64 → Prop} {tags : Fin 3 → Bool} (n : ℕ)
    {root : RadixRoot V} {k : ℕ} (htags : ∀ t, tags t = anyTag (root.rnode.tags t)) (hpos : 0 < root.height)
    (hs : TagsAre tag root.height T root.rnode) (hT : ∀ i, T i → i.toNat < 64 ^ root.height) :
    TagsAre tag (pushRoots alloc tags n root k).1.height T (pushRoots alloc tags n root k).1.rnode := by
  induction n generalizing root k with
  | zero => exact hs
  | succ n ih =>
    unfold pushRoots
    split
    · refine ih (fun t => ?_) (Nat.succ_pos _) (pushRoot_tags htags hpos hs hT) fun i hi => ?_
      · have hany : anyTag ((pushRoot tags root).rnode.tags t) = true ↔ tags t = true := by
          rw [anyTag_iff, pushRoot_rnode]
          constructor
          · rintro ⟨off, hoff⟩
            exact (Bool.and_eq_true_iff.mp hoff).1
          · exact fun ht => ⟨0, Bool.and_eq_true_iff.mpr ⟨ht, rfl⟩⟩
        exact (Bool.eq_iff_iff.mpr hany).symm
      · have hlt := hT i hi
        have hle : 64 ^ root.height ≤ 64 ^ (root.height + 1) := Nat.pow_le_pow_right (by decide) (by omega)
        change i.toNat < 64 ^ (root.height + 1)
        omega
    · exact hs

theorem rdtreeExtend_tags (alloc : ℕ → Bool) (h : RadixTagRefines root a) (t : Fin 3) (index : BitVec 64) :
    TagsAre t (rdtreeExtend alloc root index).1.height (· ∈ a.tags t)
      (rdtreeExtend alloc root index).1.rnode := by
  unfold rdtreeExtend
  dsimp only
  split
  · rename_i hn
    rw [eq_null_of_isNull hn]
    exact tagsAre_empty _ fun i hi => (h.bits t).not_of_null hn i hi
  · rename_i hn
    have hpos : 0 < root.height := Nat.pos_of_ne_zero fun h0 => hn (h.base.empty.mpr h0)
    exact pushRoots_tags _ (fun _ => rfl) hpos (h.bits t) fun i hi => h.base.lt_of_mem (h.present t i hi)

theorem radixTreeInsert_tags {alloc : ℕ → Bool} (h : RadixTagRefines root a) (t : Fin 3) (index : BitVec 64)
    (v : Option V) :
    TagsAre t (radixTreeInsert alloc root index v).1.height (· ∈ a.tags t)
      (radixTreeInsert alloc root index v).1.rnode := by
  cases v with
  | none => exact h.bits t
  | some v =>
    unfold radixTreeInsert
    dsimp only
    split
    · have hgrown := rdtreeExtend_tags alloc h t index
      split
      · exact hgrown
      · exact insertWalk_tags hgrown
    · exact insertWalk_tags (h.bits t)

/-! ## The steps -/

theorem delete_tags (h : RadixTagRefines root a) (index : BitVec 64) (t : Fin 3) :
    TagsAre t (radixTreeDelete root index).1.height (· ∈ (a.tags t).erase index)
      (radixTreeDelete root index).1.rnode := by
  cases hv : a.map.lookup index with
  | none =>
    rw [radixTreeDelete_absent ((h.base.lookup index).trans hv)]
    refine (h.bits t).congr fun i => ?_
    rw [Finset.mem_erase]
    refine and_iff_right_of_imp fun hi heq => ?_
    exact Finmap.lookup_eq_none.mp hv (heq ▸ h.present t i hi)
  | some v =>
    have hmem : index ∈ a.map := Finmap.mem_iff.mpr ⟨v, hv⟩
    have hp := h.base.walk_of_mem hmem
    have hpath := h.path (h.base.lt_of_mem hmem) t
    have hclear := clearTags_sameItems (List.finRange 3) h.base.wf hp
    -- clearing one tag after the other takes the index out of each set
    have hfold : ∀ (tags : List (Fin 3)) (s : RadixSlot V) (T : BitVec 64 → Prop),
        (∀ i, T i → i ∈ a.tags t) → TagsAre t root.height T s →
        TagsAre t root.height (fun i => T i ∧ (t ∈ tags → i ≠ index))
          (tags.foldl (fun s tag => (clearNodeTag index tag root.height s).1) s) := by
      intro tags
      induction tags with
      | nil => exact fun s T _ hs => hs.congr fun i => and_iff_left fun ht => absurd ht List.not_mem_nil
      | cons tag tags ih =>
        intro s T hsub hs
        by_cases htag : t = tag
        · subst htag
          have hfirst := (clearNodeTag_tags (fun i hi => hpath i (hsub i hi)) hs).1
          refine (ih _ _ (fun i hi => hsub i hi.1) hfirst).congr fun i => ?_
          simp only [List.mem_cons, true_or, true_implies]
          exact ⟨fun hi => ⟨hi, fun _ => hi.2⟩, fun hi => hi.1⟩
        · refine (ih _ T hsub (clearNodeTag_other htag hs)).congr fun i => ?_
          rw [List.mem_cons, or_iff_right htag]
    have hcleared := hfold (List.finRange 3) root.rnode (· ∈ a.tags t) (fun _ hi => hi) (h.bits t)
    have hres : (radixTreeDelete root index).1 =
        { height := if (pruneWalk index root.height ((List.finRange 3).foldl
              (fun s tag => (clearNodeTag index tag root.height s).1) root.rnode)).isNull then 0
              else root.height
          nrNodes := root.nrNodes - 1
          rnode := pruneWalk index root.height ((List.finRange 3).foldl
              (fun s tag => (clearNodeTag index tag root.height s).1) root.rnode) } := by
      unfold radixTreeDelete
      rw [fillPath_eq, h.base.lookup, hv]
    rw [hres]
    generalize (List.finRange 3).foldl (fun s tag => (clearNodeTag index tag root.height s).1)
      root.rnode = cleared
      at hclear hcleared
    have hprune := pruneWalk_tags hclear.wf (by rw [hclear.walk]; exact hp) (fun i hi => hpath i hi.1)
      (fun hi => hi.2 (List.mem_finRange t) rfl) hcleared
    generalize pruneWalk index root.height cleared = pruned at hprune
    have hset : ∀ i, i ∈ (a.tags t).erase index ↔ i ∈ a.tags t ∧
        (t ∈ List.finRange 3 → i ≠ index) := fun i => by
      rw [Finset.mem_erase, and_comm]
      exact and_congr_right fun _ => ⟨fun hne _ => hne, fun hne => hne (List.mem_finRange t)⟩
    dsimp only
    split
    · rename_i hn
      rw [eq_null_of_isNull hn]
      exact tagsAre_empty _ fun i hi => hprune.not_of_null hn i ((hset i).mp hi)
    · exact hprune.congr hset

theorem base_step (h : RadixTagRefines root a) (c : RadixCmd V) (hl : radixSpec.legal a.map c) :
    radixTagSpec.out a (.base c) (radixTagExec root (.base c)).2 ∧
      RadixTagRefines (radixTagExec root (.base c)).1 (radixTagSpec.next a (.base c)) := by
  obtain ⟨hout, hnext⟩ := radixExec_refines root a.map c h.base hl
  refine ⟨⟨_, rfl, hout⟩, ?_⟩
  cases c with
  | insert index v alloc =>
    refine ⟨hnext, fun t i hi => ?_, fun t => radixTreeInsert_tags h t index v⟩
    have hold := h.present t i hi
    cases v with
    | none => exact hold
    | some v =>
      change i ∈ if index ∈ a.map then a.map else a.map.insert index v
      split
      · exact hold
      · exact Finmap.mem_insert.mpr (Or.inr hold)
  | lookup index => exact h
  | delete index =>
    refine ⟨hnext, fun t i hi => ?_, fun t => delete_tags h index t⟩
    obtain ⟨hne, hi⟩ := Finset.mem_erase.mp hi
    exact Finmap.mem_erase.mpr ⟨hne, h.present t i hi⟩

theorem tagSet_step (h : RadixTagRefines root a) {index : BitVec 64} (tag : Fin 3) (hmem : index ∈ a.map) :
    radixTagSpec.out a (.tagSet index tag) (radixTagExec root (.tagSet index tag)).2 ∧
      RadixTagRefines (radixTagExec root (.tagSet index tag)).1
        (radixTagSpec.next a (.tagSet index tag)) := by
  have hlt := h.base.lt_of_mem hmem
  obtain ⟨s, hs, htags⟩ := tagSetWalk_tags (h.base.walk_of_mem hmem) (h.bits tag)
  have hsame := tagSetWalk_sameItems h.base.wf hs
  have hlookup : ∀ i, radixTreeLookup { root with rnode := s } i = radixTreeLookup root i := fun i => by
    unfold radixTreeLookup
    rw [hsame.walk]
  have hrun : radixTreeTagSet root index tag = some ({ root with rnode := s }, a.map.lookup index) := by
    have hvalue : (walkSlot index root.height s).value = a.map.lookup index := by
      rw [hsame.walk, ← h.base.lookup, radixTreeLookup, if_neg (not_maxindex_lt.mpr hlt)]
    unfold radixTreeTagSet
    rw [if_neg (not_maxindex_lt.mpr hlt), hs, Option.map_some, hvalue]
  have hexec : radixTagExec root (.tagSet index tag) =
      ({ root with rnode := s }, .item (a.map.lookup index)) := by
    simp only [radixTagExec, hrun]
  rw [hexec]
  refine ⟨rfl, ⟨h.base.height_le, hsame.wf, ?_, fun i => (hlookup i).trans (h.base.lookup i), ?_,
    h.base.nrNodes⟩,
    fun t i hi => ?_, fun t => ?_⟩
  · change s.isNull = true ↔ _
    rw [hsame.null]
    exact h.base.empty
  · exact hsame.items.trans h.base.items
  · change i ∈ Function.update a.tags tag (insert index (a.tags tag)) t at hi
    by_cases ht : t = tag
    · subst ht
      rw [Function.update_self, Finset.mem_insert] at hi
      exact hi.elim (fun heq => heq ▸ hmem) (h.present t i)
    · rw [Function.update_of_ne ht] at hi
      exact h.present t i hi
  · change TagsAre t root.height (· ∈ Function.update a.tags tag (insert index (a.tags tag)) t) s
    by_cases ht : t = tag
    · subst ht
      rw [Function.update_self]
      refine htags.congr fun i => ?_
      rw [Finset.mem_insert, or_comm]
    · rw [Function.update_of_ne ht]
      exact tagSetWalk_other ht (h.bits t) hs

theorem tagClear_step (h : RadixTagRefines root a) (index : BitVec 64) (tag : Fin 3) :
    radixTagSpec.out a (.tagClear index tag) (radixTagExec root (.tagClear index tag)).2 ∧
      RadixTagRefines (radixTagExec root (.tagClear index tag)).1
        (radixTagSpec.next a (.tagClear index tag)) := by
  have hfill : fillPath root index = a.map.lookup index :=
    (fillPath_eq root index).trans (h.base.lookup index)
  cases hv : a.map.lookup index with
  | none =>
    have hexec : radixTagExec root (.tagClear index tag) = (root, .item none) := by
      simp only [radixTagExec, radixTreeTagClear, hfill, hv]
    have hnot : index ∉ a.tags tag := fun hi => Finmap.lookup_eq_none.mp hv (h.present tag index hi)
    have hsame : radixTagSpec.next a (.tagClear index tag) = a := by
      simp only [radixTagSpec]
      rw [Finset.erase_eq_of_notMem hnot, Function.update_eq_self]
    rw [hexec, hsame]
    exact ⟨by rw [← hv]; rfl, h⟩
  | some v =>
    have hmem : index ∈ a.map := Finmap.mem_iff.mpr ⟨v, hv⟩
    have hp := h.base.walk_of_mem hmem
    have hpos : root.height ≠ 0 := fun h0 => by
      have hnull := h.base.empty.mpr h0
      rw [walkSlot_used hp] at hnull
      cases hnull
    have hsame := clearNodeTag_sameItems tag h.base.wf hp
    have htags : ∀ t, TagsAre t root.height (fun i => i ∈ a.tags t ∧ i ≠ index)
        (clearNodeTag index t root.height root.rnode).1 := fun t =>
      (clearNodeTag_tags (h.path (h.base.lt_of_mem hmem) t) (h.bits t)).1
    have hexec : radixTagExec root (.tagClear index tag) =
        ({ root with rnode := (clearNodeTag index tag root.height root.rnode).1 }, .item (some v)) := by
      simp only [radixTagExec, radixTreeTagClear, hfill, hv, if_neg hpos]
    have hlookup : ∀ i,
        radixTreeLookup { root with rnode := (clearNodeTag index tag root.height root.rnode).1 } i =
        radixTreeLookup root i := fun i => by
      unfold radixTreeLookup
      rw [hsame.walk]
    rw [hexec]
    refine ⟨by rw [← hv]; rfl, ⟨h.base.height_le, hsame.wf, ?_,
      fun i => (hlookup i).trans (h.base.lookup i), ?_,
      h.base.nrNodes⟩, fun t i hi => ?_, fun t => ?_⟩
    · change (clearNodeTag index tag root.height root.rnode).1.isNull = true ↔ _
      rw [hsame.null]
      exact h.base.empty
    · exact hsame.items.trans h.base.items
    · change i ∈ Function.update a.tags tag ((a.tags tag).erase index) t at hi
      by_cases ht : t = tag
      · subst ht
        rw [Function.update_self] at hi
        exact h.present t i (Finset.mem_of_mem_erase hi)
      · rw [Function.update_of_ne ht] at hi
        exact h.present t i hi
    · change TagsAre t root.height (· ∈ Function.update a.tags tag ((a.tags tag).erase index) t)
        (clearNodeTag index tag root.height root.rnode).1
      by_cases ht : t = tag
      · subst ht
        rw [Function.update_self]
        refine (htags t).congr fun i => ?_
        rw [Finset.mem_erase, and_comm]
      · rw [Function.update_of_ne ht]
        exact clearNodeTag_other ht (h.bits t)

theorem tagGet_step (h : RadixTagRefines root a) (index : BitVec 64) (tag : Fin 3) :
    radixTagExec root (.tagGet index tag) = (root, .flag (decide (index ∈ a.tags tag))) := by
  have hget : radixTreeTagGet root index tag = some (decide (index ∈ a.tags tag)) := by
    unfold radixTreeTagGet
    by_cases hlt : index.toNat < 64 ^ root.height
    · rw [if_neg (not_maxindex_lt.mpr hlt)]
      by_cases h0 : root.height = 0
      · have hnot : index ∉ a.tags tag := (h.bits tag).not_of_null (h.base.empty.mpr h0) index
        rw [h0, decide_eq_false hnot]
        rfl
      · obtain ⟨b, hb, hiff⟩ := tagGetWalk_eq h0 (h.path hlt tag) (h.bits tag)
          (fun hf : false = true => absurd hf Bool.false_ne_true)
        rw [hb]
        exact congrArg some (Bool.eq_iff_iff.mpr (hiff.trans decide_eq_true_iff.symm))
    · have hnot : index ∉ a.tags tag := fun hi => hlt (h.base.lt_of_mem (h.present tag index hi))
      rw [if_pos (not_not.mp fun hn => hlt (not_maxindex_lt.mp hn)), decide_eq_false hnot]
  simp only [radixTagExec, hget]

theorem tagged_step (h : RadixTagRefines root a) (tag : Fin 3) :
    radixTreeTagged root tag = decide (a.tags tag).Nonempty := by
  rw [Bool.eq_iff_iff, decide_eq_true_iff, radixTreeTagged, Bool.and_eq_true, Bool.not_eq_true']
  have hbits := h.bits tag
  cases hh : root.height with
  | zero =>
    have hn := h.base.empty.mpr hh
    rw [hn]
    exact iff_of_false (fun hboth => Bool.noConfusion hboth.1) fun ⟨i, hi⟩ => hbits.not_of_null hn i hi
  | succ n =>
    have hn : root.rnode.isNull = false := Bool.eq_false_iff.mpr fun hn => by
      rw [h.base.empty.mp hn] at hh
      cases hh
    rw [hh] at hbits
    rw [anyTag_iff]
    constructor
    · rintro ⟨-, off, hoff⟩
      obtain ⟨i, hi, -⟩ := (hbits off).1.mp hoff
      exact ⟨i, hi⟩
    · rintro ⟨i, hi⟩
      exact ⟨hn, _, (hbits _).1.mpr ⟨i, hi, rfl⟩⟩

theorem radixTagExec_refines (root : RadixRoot V) (a : TaggedMap V) (c : RadixTagCmd V)
    (h : RadixTagRefines root a)
    (hl : radixTagSpec.legal a c) :
    radixTagSpec.out a c (radixTagExec root c).2 ∧
      RadixTagRefines (radixTagExec root c).1 (radixTagSpec.next a c) := by
  cases c with
  | base c => exact base_step h c hl
  | tagSet index tag => exact tagSet_step h tag hl
  | tagClear index tag => exact tagClear_step h index tag
  | tagGet index tag =>
    rw [tagGet_step h]
    exact ⟨rfl, h⟩
  | tagged tag => exact ⟨congrArg _ (tagged_step h tag), h⟩

end Steps

/-! ## Runs -/

def taggedEmpty : TaggedMap V := { map := ∅, tags := fun _ => ∅ }

theorem radixInit_tagRefines : RadixTagRefines (radixInit : RadixRoot V) taggedEmpty where
  base := radixInit_refines
  present := fun _ i hi => absurd hi (Finset.notMem_empty i)
  bits := fun _ => tagsAre_empty 0 (Finset.notMem_empty ·)

/-- After any run in which node allocation succeeds and tags are set on present items: every answer
was the one of the tagged map, no `BUG_ON` was hit, and a slot's tag bit is set exactly when a
tagged index leads through the slot. -/
theorem radix_tags_exact (cs : List (RadixTagCmd V)) (hcs : radixTagSpec.LegalRun taggedEmpty cs) :
    let root := (runCmds radixTagExec radixInit cs).1
    let a := radixTagSpec.after taggedEmpty cs
    radixTagSpec.Conforms taggedEmpty cs (runCmds radixTagExec radixInit cs).2 ∧
      (∀ t i, i ∈ a.tags t → i ∈ a.map) ∧ ∀ t, TagsAre t root.height (· ∈ a.tags t) root.rnode := by
  intro root a
  obtain ⟨hconf, hR⟩ := Spec.conforms radixTagExec_refines cs radixInit taggedEmpty radixInit_tagRefines hcs
  exact ⟨hconf, hR.present, hR.bits⟩

/-- Two items far apart, one tagged before a root is pushed above it, the other after, and one deleted. -/
def tagRun : List (RadixTagCmd ℕ) :=
  [.base (.insert 3 (some 5) fun _ => true), .tagSet 3 1,
    .base (.insert 5000 (some 7) fun _ => true), .tagSet 5000 1,
    .base (.delete 3), .tagGet 5000 1, .tagClear 5000 1, .tagged 1]

theorem radix_tags_exact_run : radixTagSpec.LegalRun taggedEmpty tagRun ∧
    radixTagSpec.Conforms taggedEmpty tagRun (runCmds radixTagExec radixInit tagRun).2 := by
  have hlegal : radixTagSpec.LegalRun taggedEmpty tagRun := by
    refine ⟨fun _ => rfl, ?_, fun _ => rfl, ?_, trivial, trivial, trivial, trivial, trivial⟩
    · change 3 ∈ radixSpec.next ∅ (.insert 3 (some 5) fun _ => true)
      decide
    · change 5000 ∈ radixSpec.after ∅ [.insert 3 (some 5) fun _ => true, .insert 5000 (some 7) fun _ => true]
      decide
  exact ⟨hlegal, (radix_tags_exact tagRun hlegal).1⟩

end Skp.Adt
