import Skp.Adt.RadixWalk
import Skp.Foundations.Refinement
import Skp.Foundations.FiniteMap

/-! # The radix tree is a finite map from indices to items -/
namespace Skp.Adt
set_option autoImplicit false
open Skp.Foundations

variable {V : Type}

/-! ## The specification -/

abbrev RadixMap (V : Type) := Finmap fun _ : BitVec 64 => V

/-- A map from indices to items; the calls it speaks about are those in which node allocation succeeds. -/
def radixSpec : Spec (RadixMap V) (RadixCmd V) (RadixOut V) where
  legal := fun _ c =>
    match c with
    | .insert _ _ alloc => ∀ k, alloc k = true
    | _ => True
  next := fun m c =>
    match c with
    | .insert index (some v) _ => if index ∈ m then m else m.insert index v
    | .insert _ none _ => m
    | .lookup _ => m
    | .delete index => m.erase index
  out := fun m c o =>
    match c with
    | .insert index (some _) _ => o = .err (if index ∈ m then eEXIST else 0)
    | .insert _ none _ => o = .err eINVAL
    | .lookup index => o = .item (m.lookup index)
    | .delete index => o = .item (m.lookup index)

/-- The tree holds the map: shape, contents and the two counts. -/
structure RadixRefines (root : RadixRoot V) (m : RadixMap V) : Prop where
  height_le : root.height ≤ 11
  wf : RadixWf root.height root.rnode
  empty : root.rnode.isNull = true ↔ root.height = 0
  lookup : ∀ i, radixTreeLookup root i = m.lookup i
  items : root.rnode.items = m.keys.card
  nrNodes : root.nrNodes = BitVec.ofNat 64 m.keys.card

theorem radixInit_refines : RadixRefines (radixInit : RadixRoot V) ∅ where
  height_le := Nat.zero_le _
  wf := trivial
  empty := ⟨fun _ => rfl, fun _ => rfl⟩
  lookup := by
    intro i
    unfold radixTreeLookup
    split <;> rfl
  items := rfl
  nrNodes := rfl

/-! ## Growing -/

/-- Seen from the indices: each leads to a slot, those beyond the height to none. -/
def slotAt (h : ℕ) (s : RadixSlot V) (i : BitVec 64) : RadixSlot V :=
  if i.toNat < 64 ^ h then walkSlot i h s else .null

theorem radixTreeLookup_eq (root : RadixRoot V) (i : BitVec 64) :
    radixTreeLookup root i = (slotAt root.height root.rnode i).value := by
  unfold radixTreeLookup slotAt
  by_cases h : i.toNat < 64 ^ root.height
  · rw [if_neg (not_maxindex_lt.mpr h), if_pos h]
  · rw [if_pos (not_not.mp fun hn => h (not_maxindex_lt.mp hn)), if_neg h]
    rfl

theorem fillPath_eq (root : RadixRoot V) (i : BitVec 64) : fillPath root i = radixTreeLookup root i := rfl

theorem raiseHeight_spec (index : BitVec 64) (fuel h : ℕ) (hh : h ≤ 11) (hfuel : 11 < h + fuel) :
    h ≤ raiseHeight index fuel h ∧ raiseHeight index fuel h ≤ 11 ∧
      index.toNat < 64 ^ raiseHeight index fuel h := by
  induction fuel generalizing h with
  | zero => omega
  | succ fuel ih =>
    unfold raiseHeight
    split
    · rename_i hlt
      -- the entry of height 11 is not exceeded
      have hne : h ≠ 11 := by
        intro heq
        rw [heq] at hlt
        have hi := index.isLt
        exact not_maxindex_lt.mpr (show index.toNat < 64 ^ 11 by omega) hlt
      obtain ⟨h1, h2, h3⟩ := ih (h + 1) (by omega) (by omega)
      exact ⟨by omega, h2, h3⟩
    · rename_i hlt
      exact ⟨Nat.le_refl _, hh, not_maxindex_lt.mp hlt⟩

theorem pushRoot_rnode (tags : Fin 3 → Bool) (root : RadixRoot V) :
    (pushRoot tags root).rnode = .node 1 (fun t off => tags t && off == 0)
      (Function.update (RadixSlot.null : RadixSlot V).slots 0 root.rnode) := rfl

theorem pushRoot_slotAt (tags : Fin 3 → Bool) (root : RadixRoot V) (i : BitVec 64) :
    slotAt (pushRoot tags root).height (pushRoot tags root).rnode i = slotAt root.height root.rnode i := by
  change slotAt (root.height + 1)
      (.node 1 _ (Function.update (RadixSlot.null : RadixSlot V).slots 0 root.rnode)) i = _
  unfold slotAt
  by_cases hi : i.toNat < 64 ^ (root.height + 1)
  · rw [if_pos hi, walkSlot_exchange, walkSlot_null]
    simp only [calcOffset_eq_zero hi]
  · have hle : 64 ^ root.height ≤ 64 ^ (root.height + 1) := Nat.pow_le_pow_right (by decide) (by omega)
    rw [if_neg hi, if_neg (by omega)]

theorem pushRoot_keeps (tags : Fin 3 → Bool) {root : RadixRoot V} (hw : RadixWf root.height root.rnode)
    (hn : root.rnode.isNull = false) :
    RadixWf (pushRoot tags root).height (pushRoot tags root).rnode ∧
      (∀ i, slotAt (pushRoot tags root).height (pushRoot tags root).rnode i =
        slotAt root.height root.rnode i) ∧
      (pushRoot tags root).rnode.items = root.rnode.items := by
  have hnull : RadixWf (root.height + 1) (.null : RadixSlot V) := radixWf_null _
  have hused : (1 : ℕ) = used (Function.update (RadixSlot.null : RadixSlot V).slots 0 root.rnode) := by
    have hup := used_update (RadixSlot.null : RadixSlot V).slots 0 root.rnode
    have hz : used (RadixSlot.null : RadixSlot V).slots = 0 := hnull.count_eq.symm
    rw [hn, hz] at hup
    simpa [RadixSlot.slots] using hup.symm
  refine ⟨radixWf_exchange hnull hw hused Nat.one_pos, pushRoot_slotAt tags root, ?_⟩
  rw [pushRoot_rnode]
  generalize (fun t off => tags t && off == 0 : Fin 3 → Fin 64 → Bool) = bits
  have hsum : (RadixSlot.node 1 bits
      (Function.update (RadixSlot.null : RadixSlot V).slots 0 root.rnode)).items +
      ((RadixSlot.null : RadixSlot V).slots 0).items = (RadixSlot.null : RadixSlot V).items +
        root.rnode.items :=
    items_exchange hnull
  rw [show ((RadixSlot.null : RadixSlot V).slots 0).items = 0 from rfl,
    show (RadixSlot.null : RadixSlot V).items = 0 from rfl] at hsum
  omega

/-- What growing leaves: the same contents under a height that holds the index. -/
structure Grown (index : BitVec 64) (root grown : RadixRoot V) : Prop where
  height_le : grown.height ≤ 11
  holds : index.toNat < 64 ^ grown.height
  pos : 0 < grown.height
  wf : RadixWf grown.height grown.rnode
  slot : ∀ i, slotAt grown.height grown.rnode i = slotAt root.height root.rnode i
  items : grown.rnode.items = root.rnode.items
  nrNodes : grown.nrNodes = root.nrNodes

theorem pushRoots_grown {alloc : ℕ → Bool} (halloc : ∀ k, alloc k = true) (tags : Fin 3 → Bool) (n : ℕ)
    {root : RadixRoot V} {k : ℕ} (hw : RadixWf root.height root.rnode) (hn : root.rnode.isNull = false) :
    ∃ grown k', pushRoots alloc tags n root k = (grown, 0, k') ∧ grown.height = root.height + n ∧
      RadixWf grown.height grown.rnode ∧
      (∀ i, slotAt grown.height grown.rnode i = slotAt root.height root.rnode i) ∧
      grown.rnode.items = root.rnode.items ∧ grown.nrNodes = root.nrNodes := by
  induction n generalizing root k with
  | zero => exact ⟨root, k, rfl, rfl, hw, fun _ => rfl, rfl, rfl⟩
  | succ n ih =>
    obtain ⟨hw', hslot, hitems⟩ := pushRoot_keeps tags hw hn
    obtain ⟨grown, k', heq, hheight, hwf, hs, hi, hnr⟩ := ih (k := k + 1) hw' rfl
    refine ⟨grown, k', ?_, ?_, hwf, fun i => (hs i).trans (hslot i), hi.trans hitems, hnr⟩
    · rw [pushRoots, halloc, if_pos rfl, heq]
    · rw [hheight]
      show root.height + 1 + n = _
      omega

theorem slotAt_null (h : ℕ) (i : BitVec 64) : slotAt h (.null : RadixSlot V) i = .null := by
  unfold slotAt
  rw [walkSlot_null, ite_self]

theorem rdtreeExtend_grown {alloc : ℕ → Bool} (halloc : ∀ k, alloc k = true) {root : RadixRoot V}
    {m : RadixMap V}
    (hR : RadixRefines root m) {index : BitVec 64} (hh : root.height ≤ 10) :
    ∃ grown k, rdtreeExtend alloc root index = (grown, 0, k) ∧ Grown index root grown := by
  obtain ⟨h1, h2, h3⟩ := raiseHeight_spec index 12 (root.height + 1) (by omega) (by omega)
  unfold rdtreeExtend
  generalize raiseHeight index 12 (root.height + 1) = target at h1 h2 h3
  simp only
  cases hn : root.rnode.isNull
  · obtain ⟨grown, k, heq, hheight, hwf, hs, hi, hnr⟩ :=
      pushRoots_grown halloc (fun t => anyTag (root.rnode.tags t)) (target - root.height) (k := 0) hR.wf hn
    have htarget : grown.height = target := by omega
    rw [if_neg Bool.false_ne_true]
    exact ⟨grown, k, heq, by omega, htarget ▸ h3, by omega, hwf, hs, hi, hnr⟩
  · rw [if_pos rfl]
    refine ⟨_, _, rfl, h2, h3, Nat.lt_of_lt_of_le (Nat.succ_pos _) h1, ?_, fun i => ?_, rfl, rfl⟩
    · rw [eq_null_of_isNull hn]
      exact radixWf_null _
    · rw [eq_null_of_isNull hn, slotAt_null, slotAt_null]

theorem insert_grown {alloc : ℕ → Bool} (halloc : ∀ k, alloc k = true) {root : RadixRoot V} {m : RadixMap V}
    (hR : RadixRefines root m) (index : BitVec 64) :
    ∃ grown k, (if (index = 0 ∧ root.rnode.isNull = true) ∨ rdtreeMaxindex root.height < index then
        rdtreeExtend alloc root index else (root, 0, 0)) = (grown, 0, k) ∧ Grown index root grown := by
  have hmaxle := hR.height_le
  split
  · rename_i hneed
    apply rdtreeExtend_grown halloc hR
    rcases hneed with ⟨_, hn⟩ | hlt
    · have := hR.empty.mp hn
      omega
    · by_contra hgt
      have h11 : root.height = 11 := by omega
      rw [h11] at hlt
      have hi := index.isLt
      exact not_maxindex_lt.mpr (show index.toNat < 64 ^ 11 by omega) hlt
  · rename_i hneed
    rw [not_or] at hneed
    have hholds := not_maxindex_lt.mp hneed.2
    refine ⟨root, 0, rfl, hmaxle, hholds, ?_, hR.wf, fun _ => rfl, rfl, rfl⟩
    apply Nat.pos_of_ne_zero
    intro h0
    rw [h0, pow_zero] at hholds
    apply hneed.1
    exact ⟨BitVec.eq_of_toNat_eq (by simpa using hholds), hR.empty.mpr h0⟩

/-! ## The operations -/

theorem mem_iff_slotAt {root : RadixRoot V} {m : RadixMap V} (hR : RadixRefines root m) (i : BitVec 64) :
    i ∈ m ↔ (slotAt root.height root.rnode i).isNull = false := by
  have hwf : RadixWf 0 (slotAt root.height root.rnode i) := by
    unfold slotAt
    split
    · exact walkSlot_wf i hR.wf
    · trivial
  have hnone := value_eq_none_iff hwf
  rw [← radixTreeLookup_eq, hR.lookup, Finmap.lookup_eq_none] at hnone
  rw [← Bool.not_eq_true, ← hnone, not_not]

theorem radixTreeInsert_present {root : RadixRoot V} {m : RadixMap V} (hR : RadixRefines root m)
    (alloc : ℕ → Bool)
    {index : BitVec 64} (v : V) (hp : index ∈ m) :
    radixTreeInsert alloc root index (some v) = (root, eEXIST) := by
  rw [mem_iff_slotAt hR] at hp
  unfold slotAt at hp
  split at hp
  · rename_i hlt
    have hnull := walkSlot_used hp
    have hfits : ¬ ((index = 0 ∧ root.rnode.isNull = true) ∨ rdtreeMaxindex root.height < index) := by
      rw [not_or]
      exact ⟨fun h => Bool.noConfusion (hnull.symm.trans h.2), not_maxindex_lt.mpr hlt⟩
    unfold radixTreeInsert
    simp only [if_neg hfits, insertWalk_present hR.wf hp]
    rfl
  · cases hp

theorem radixTreeInsert_new {root : RadixRoot V} {m : RadixMap V} (hR : RadixRefines root m)
    {alloc : ℕ → Bool}
    (halloc : ∀ k, alloc k = true) {index : BitVec 64} (v : V) (hn : index ∉ m) :
    (radixTreeInsert alloc root index (some v)).2 = 0 ∧
      RadixRefines (radixTreeInsert alloc root index (some v)).1 (m.insert index v) := by
  obtain ⟨grown, k, hgrow, hg⟩ := insert_grown halloc hR index
  have hempty : (walkSlot index grown.height grown.rnode).isNull = true := by
    have hs := hg.slot index
    rw [mem_iff_slotAt hR, ← hs] at hn
    unfold slotAt at hn
    rw [if_pos hg.holds, Bool.not_eq_false] at hn
    exact hn
  obtain ⟨t, k', hwalk, hins⟩ := insertWalk_new halloc (v := v) (k := k) hg.wf hempty
  have hres : radixTreeInsert alloc root index (some v) =
      ({ height := grown.height, nrNodes := grown.nrNodes + 1, rnode := t }, 0) := by
    unfold radixTreeInsert
    simp only [hgrow, hwalk]
    rfl
  have hcard := card_insert_new v (Finmap.lookup_eq_none.mpr hn)
  rw [hres]
  refine ⟨rfl, hg.height_le, hins.wf, ?_, fun i => ?_, ?_, ?_⟩
  · have hpos := hg.pos
    show t.isNull = true ↔ grown.height = 0
    rw [hins.used]
    exact ⟨fun h => Bool.noConfusion h, fun h => by omega⟩
  · -- at the index the item, elsewhere what the grown tree led to
    rw [radixTreeLookup_eq, lookup_insert_eq, ← hR.lookup, radixTreeLookup_eq, ← hg.slot i]
    show (slotAt grown.height t i).value = _
    unfold slotAt
    by_cases hi : i.toNat < 64 ^ grown.height
    · rw [if_pos hi, if_pos hi, hins.walk i]
      simp only [samePath_iff hi hg.holds]
      split <;> rfl
    · have hne : i ≠ index := fun heq => hi (heq ▸ hg.holds)
      rw [if_neg hi, if_neg hne, if_neg hi]
  · show t.items = _
    rw [hins.items, hg.items, hR.items, hcard]
  · show grown.nrNodes + 1 = _
    rw [hg.nrNodes, hR.nrNodes, hcard, BitVec.ofNat_add]
    rfl

theorem radixTreeDelete_absent {root : RadixRoot V} {index : BitVec 64}
    (hn : radixTreeLookup root index = none) :
    radixTreeDelete root index = (root, none) := by
  unfold radixTreeDelete
  rw [fillPath_eq, hn]

theorem radixTreeDelete_present {root : RadixRoot V} {m : RadixMap V} (hR : RadixRefines root m)
    {index : BitVec 64}
    {v : V} (hv : m.lookup index = some v) :
    (radixTreeDelete root index).2 = some v ∧
      RadixRefines (radixTreeDelete root index).1 (m.erase index) := by
  have hp : (slotAt root.height root.rnode index).isNull = false :=
    (mem_iff_slotAt hR index).mp (Finmap.mem_iff.mpr ⟨v, hv⟩)
  have hlt : index.toNat < 64 ^ root.height := by
    by_contra hge
    unfold slotAt at hp
    rw [if_neg hge] at hp
    cases hp
  unfold slotAt at hp
  rw [if_pos hlt] at hp
  have hclear := clearTags_sameItems (List.finRange 3) hR.wf hp
  have hprune := pruneWalk_pruned hclear.wf (by rw [hclear.walk]; exact hp)
  have hres : radixTreeDelete root index =
      ({ height := if (pruneWalk index root.height ((List.finRange 3).foldl
            (fun s tag => (clearNodeTag index tag root.height s).1) root.rnode)).isNull then 0
            else root.height
         nrNodes := root.nrNodes - 1
         rnode := pruneWalk index root.height ((List.finRange 3).foldl
            (fun s tag => (clearNodeTag index tag root.height s).1) root.rnode) }, some v) := by
    unfold radixTreeDelete
    rw [fillPath_eq, hR.lookup, hv]
  rw [hres]
  generalize (List.finRange 3).foldl (fun s tag => (clearNodeTag index tag root.height s).1)
    root.rnode = cleared
    at hclear hprune
  generalize pruneWalk index root.height cleared = t at hprune
  have hcard := card_erase_bound hv
  have hpos : root.height ≠ 0 := by
    intro h0
    have hnull := hR.empty.mpr h0
    rw [walkSlot_used hp] at hnull
    cases hnull
  -- what the indices lead to after the deletion, at the old height
  have hslot : ∀ i, (slotAt root.height t i).value = (m.erase index).lookup i := by
    intro i
    rw [lookup_erase_eq, ← hR.lookup, radixTreeLookup_eq]
    unfold slotAt
    by_cases hi : i.toNat < 64 ^ root.height
    · rw [if_pos hi, if_pos hi, hprune.walk i, hclear.walk i]
      simp only [samePath_iff hi hlt]
      split <;> rfl
    · have hne : i ≠ index := fun heq => hi (heq ▸ hlt)
      rw [if_neg hi, if_neg hi, if_neg hne]
  have hitems : t.items = (m.erase index).keys.card := by
    have h1 := hprune.items
    rw [hclear.items, hR.items] at h1
    omega
  have hnr : root.nrNodes - 1 = BitVec.ofNat 64 (m.erase index).keys.card := by
    rw [hR.nrNodes, ← hcard, BitVec.ofNat_add]
    exact add_sub_cancel_right _ _
  refine ⟨rfl, ?_, ?_, ?_, fun i => ?_, hitems, hnr⟩
  · show (if t.isNull then 0 else root.height) ≤ 11
    have := hR.height_le
    split <;> omega
  · show RadixWf (if t.isNull then 0 else root.height) t
    split
    · rename_i hn
      rw [eq_null_of_isNull hn]
      trivial
    · exact hprune.wf
  · show t.isNull = true ↔ (if t.isNull then 0 else root.height) = 0
    split
    · rename_i hn
      exact ⟨fun _ => rfl, fun _ => hn⟩
    · rename_i hn
      exact ⟨fun h => absurd h hn, fun h => absurd h hpos⟩
  · rw [← hslot i, radixTreeLookup_eq]
    show (slotAt (if t.isNull then 0 else root.height) t i).value = _
    split
    · rename_i hn
      rw [eq_null_of_isNull hn, slotAt_null, slotAt_null]
    · rfl

theorem radixExec_refines (root : RadixRoot V) (m : RadixMap V) (c : RadixCmd V) (hR : RadixRefines root m)
    (hl : radixSpec.legal m c) :
    radixSpec.out m c (radixExec root c).2 ∧ RadixRefines (radixExec root c).1 (radixSpec.next m c) := by
  cases c with
  | insert index item alloc =>
    cases item with
    | none => exact ⟨rfl, hR⟩
    | some v =>
      simp only [radixSpec, radixExec]
      by_cases hp : index ∈ m
      · rw [radixTreeInsert_present hR alloc v hp, if_pos hp, if_pos hp]
        exact ⟨rfl, hR⟩
      · obtain ⟨hout, hnext⟩ := radixTreeInsert_new hR hl v hp
        rw [if_neg hp, if_neg hp, hout]
        exact ⟨rfl, hnext⟩
  | lookup index =>
    simp only [radixSpec, radixExec]
    exact ⟨congrArg _ (hR.lookup index), hR⟩
  | delete index =>
    simp only [radixSpec, radixExec]
    cases hv : m.lookup index with
    | none =>
      rw [radixTreeDelete_absent ((hR.lookup index).trans hv)]
      have hsame : m.erase index = m := by
        apply Finmap.ext_lookup
        intro i
        rw [lookup_erase_eq]
        split
        · rename_i heq
          rw [heq, hv]
        · rfl
      rw [hsame]
      exact ⟨rfl, hR⟩
    | some v =>
      obtain ⟨hout, hnext⟩ := radixTreeDelete_present hR hv
      rw [hout]
      exact ⟨rfl, hnext⟩

/-! ## Runs -/

/-- `sizeof(struct radix_tree_node)`: the count with its padding, 64 pointers and three words of tags. -/
def radixNodeBytes : ℕ := 8 + 64 * 8 + 3 * 8

/-- Nodes that fit a 64-bit address space have room for fewer than `2 ^ 64` items. -/
theorem items_lt_of_fits {s : RadixSlot V} (h : s.nodes * radixNodeBytes ≤ 2 ^ 64) : s.items < 2 ^ 64 := by
  have hle := (items_le_nodes s).1
  unfold radixNodeBytes at h
  omega

/-- After any run in which node allocation succeeds: the answers were those of the map; every lookup agrees
with it; an insertion at a bound index would return `-EEXIST` and leave the tree as it is; every node counts
its used slots and has one; the root is empty with height 0 exactly for the empty map; and `nr_nodes` is
the size of the map, the nodes being in one address space. -/
theorem radix_refines_finite_map (cs : List (RadixCmd V)) (hcs : radixSpec.LegalRun ∅ cs) :
    let root := (runCmds radixExec radixInit cs).1
    let m := radixSpec.after ∅ cs
    radixSpec.Conforms ∅ cs (runCmds radixExec radixInit cs).2 ∧ (∀ i, radixTreeLookup root i = m.lookup i) ∧
      (∀ alloc index v, index ∈ m → radixTreeInsert alloc root index (some v) = (root, eEXIST)) ∧
      RadixWf root.height root.rnode ∧ (root.rnode.isNull = true ↔ root.height = 0) ∧
      (root.rnode.isNull = true ∧ root.height = 0 ↔ m = ∅) ∧
      (root.rnode.nodes * radixNodeBytes ≤ 2 ^ 64 → root.nrNodes.toNat = m.keys.card) := by
  intro root m
  obtain ⟨hconf, hR⟩ := Spec.conforms radixExec_refines cs radixInit ∅ radixInit_refines hcs
  refine ⟨hconf, hR.lookup, fun alloc index v hp => radixTreeInsert_present hR alloc v hp, hR.wf,
    hR.empty, ?_, ?_⟩
  · constructor
    · intro h
      have hitems := hR.items
      rw [eq_null_of_isNull h.1] at hitems
      have hkeys : m.keys = ∅ := Finset.card_eq_zero.mp hitems.symm
      apply Finmap.ext_lookup
      intro i
      rw [Finmap.lookup_empty, Finmap.lookup_eq_none, ← Finmap.mem_keys, hkeys]
      exact Finset.notMem_empty i
    · intro h
      have hz : root.rnode.items = 0 := by
        have hitems : root.rnode.items = m.keys.card := hR.items
        rw [h] at hitems
        exact hitems
      have hn : root.rnode.isNull = true := by
        cases hn : root.rnode.isNull
        · have hpos : 0 < root.rnode.items := items_pos hR.wf hn
          omega
        · rfl
      exact ⟨hn, hR.empty.mp hn⟩
  · intro hfits
    have hlt := items_lt_of_fits hfits
    have hitems : root.rnode.items = m.keys.card := hR.items
    have hnr : root.nrNodes = BitVec.ofNat 64 m.keys.card := hR.nrNodes
    rw [hnr, BitVec.toNat_ofNat, Nat.mod_eq_of_lt (by omega)]

/-- The lowest and the highest index, an insertion at a bound one, and a deletion. -/
def lowAndTop : List (RadixCmd ℕ) :=
  [.insert 0 (some 5) fun _ => true, .insert (BitVec.allOnes 64) (some 7) fun _ => true,
    .insert 0 (some 6) fun _ => true, .delete 0, .lookup (BitVec.allOnes 64)]

theorem radix_refines_finite_map_lowAndTop :
    radixSpec.LegalRun ∅ lowAndTop ∧
      radixTreeLookup (runCmds radixExec radixInit lowAndTop).1 (BitVec.allOnes 64) = some 7 ∧
      radixTreeLookup (runCmds radixExec radixInit lowAndTop).1 0 = none := by
  have hlegal : radixSpec.LegalRun ∅ lowAndTop :=
    ⟨fun _ => rfl, fun _ => rfl, fun _ => rfl, trivial, trivial, trivial⟩
  obtain ⟨-, hlookup, -⟩ := radix_refines_finite_map lowAndTop hlegal
  exact ⟨hlegal, (hlookup _).trans (by decide), (hlookup _).trans (by decide)⟩

end Skp.Adt
