import Skp.Adt.RadixRange

/-! # Insertions that run out of nodes

Nothing is rolled back when `node_alloc` fails. A failure between pushed roots, or at the first node
below them, leaves a tree of the same items. A failure in an empty tree leaves a height without a
root, and a failure after a node was linked leaves a node without items that no deletion takes away.
-/
namespace Skp.Adt
set_option autoImplicit false
open Skp.Foundations

variable {V : Type}

/-! ## The allocations of an insertion -/

/-- The tree `__radix_tree_insert` descends from, with the number of roots that were pushed. -/
def insertGrown (alloc : ℕ → Bool) (root : RadixRoot V) (index : BitVec 64) : RadixRoot V × ℤ × ℕ :=
  if (index = 0 ∧ root.rnode.isNull = true) ∨ rdtreeMaxindex root.height < index then
    rdtreeExtend alloc root index
  else (root, 0, 0)

/-- The roots an insertion pushes when no allocation fails. -/
def rootsPushed (root : RadixRoot V) (index : BitVec 64) : ℕ := (insertGrown (fun _ => true) root index).2.2

/-- The nodes an insertion asks for when no allocation fails. -/
def nodeAllocs (root : RadixRoot V) (index : BitVec 64) (v : V) : ℕ :=
  let grown := insertGrown (fun _ => true) root index
  (insertWalk (fun _ => true) index v grown.1.height grown.1.rnode grown.2.2).2.2

theorem radixTreeInsert_some (alloc : ℕ → Bool) (root : RadixRoot V) (index : BitVec 64) (v : V) :
    radixTreeInsert alloc root index (some v) =
      if (insertGrown alloc root index).2.1 ≠ 0 then
        ((insertGrown alloc root index).1, (insertGrown alloc root index).2.1)
      else
        let r :=
          insertWalk alloc index v (insertGrown alloc root index).1.height
            (insertGrown alloc root index).1.rnode
          (insertGrown alloc root index).2.2
        ({ (insertGrown alloc root index).1 with
            nrNodes := if r.2.1 = 0 then (insertGrown alloc root index).1.nrNodes + 1
              else (insertGrown alloc root index).1.nrNodes
            rnode := r.1 }, r.2.1) := rfl

/-- The nodes missing on the way of an index. -/
def newNodes (index : BitVec 64) : ℕ → RadixSlot V → ℕ
  | 0, _ => 0
  | h + 1, s =>
      (if s.isNull then 1 else 0) +
        newNodes index h (s.slots (calcOffset index (h * radixMapShift)))

theorem insertWalk_allocs (index : BitVec 64) (v : V) {h : ℕ} {s : RadixSlot V} {k : ℕ} :
    (insertWalk (fun _ => true) index v h s k).2.2 = k + newNodes index h s := by
  induction h generalizing s k with
  | zero =>
    unfold insertWalk
    split <;> rfl
  | succ h ih =>
    rw [insertWalk, newNodes, Bool.not_true, Bool.and_false, if_neg Bool.false_ne_true]
    dsimp only
    rw [ih]
    split <;> omega

section Failing
variable {alloc : ℕ → Bool} {n : ℕ}

theorem insertWalk_first (hfail : alloc n = false) {index : BitVec 64} {v : V} {h : ℕ} {s : RadixSlot V}
    (hw : RadixWf h s) (hn : 0 < newNodes index h s) :
    insertWalk alloc index v h s n = (s, eNOMEM, n + 1) := by
  induction h generalizing s with
  | zero => exact absurd hn (lt_irrefl 0)
  | succ h ih =>
    rw [insertWalk]
    cases hs : s.isNull with
    | true => rw [hfail]; rfl
    | false =>
      rw [newNodes, hs, if_neg Bool.false_ne_true, zero_add] at hn
      rw [Bool.false_and, if_neg Bool.false_ne_true, if_neg Bool.false_ne_true]
      dsimp only
      rw [ih (hw.slots _) hn]
      rw [Bool.and_not_self, if_neg Bool.false_ne_true, Function.update_eq_self, node_self hw hs]

end Failing

/-! ## Nodes without items -/

/-- The shape of a tree in which a node may have no used slot. -/
def CountsUsed : ℕ → RadixSlot V → Prop
  | 0, .node _ _ _ => False
  | 0, _ => True
  | _ + 1, .null => True
  | _ + 1, .item _ => False
  | h + 1, .node c _ f => c = used f ∧ ∀ i, CountsUsed h (f i)

/-- Below the slot there is a node without a used slot. -/
def Hollow : ℕ → RadixSlot V → Prop
  | 0, _ => False
  | h + 1, s => s.isNull = false ∧ ((∀ off, (s.slots off).isNull = true) ∨ ∃ off, Hollow h (s.slots off))

section Hollow
variable {h : ℕ} {s t : RadixSlot V} {c : ℕ} {tags : Fin 3 → Fin 64 → Bool} {off : Fin 64}

theorem RadixWf.countsUsed (hw : RadixWf h s) : CountsUsed h s := by
  induction h generalizing s with
  | zero =>
    cases s with
    | null => trivial
    | item v => trivial
    | node c t f => exact hw
  | succ h ih =>
    cases s with
    | null => trivial
    | item v => exact hw
    | node c t f => exact ⟨hw.1, fun i => ih (hw.2.2 i)⟩

theorem countsUsed_null (h : ℕ) : CountsUsed h (.null : RadixSlot V) := (radixWf_null h).countsUsed

theorem CountsUsed.slots (hc : CountsUsed (h + 1) s) (i : Fin 64) : CountsUsed h (s.slots i) := by
  cases s with
  | null => exact countsUsed_null h
  | item v => exact hc.elim
  | node c t f => exact hc.2 i

theorem CountsUsed.count_eq (hc : CountsUsed (h + 1) s) : s.count = used s.slots := by
  cases s with
  | null => exact (radixWf_null (h + 1)).count_eq
  | item v => exact hc.elim
  | node c t f => exact hc.1

theorem CountsUsed.exchange (hc : CountsUsed (h + 1) s) (ht : CountsUsed h t)
    (hcount : c = used (Function.update s.slots off t)) :
    CountsUsed (h + 1) (.node c tags (Function.update s.slots off t)) := by
  refine ⟨hcount, fun i => ?_⟩
  by_cases hi : i = off
  · rw [hi, Function.update_self]
    exact ht
  · rw [Function.update_of_ne hi]
    exact hc.slots i

theorem Hollow.used (hs : Hollow h s) : s.isNull = false := by
  cases h with
  | zero => exact hs.elim
  | succ h => exact hs.1

theorem hollow_child {f : Fin 64 → RadixSlot V} (off : Fin 64) (hf : Hollow h (f off)) :
    Hollow (h + 1) (.node c tags f) := ⟨rfl, Or.inr ⟨off, hf⟩⟩

theorem Hollow.exchange (hs : Hollow (h + 1) s) (hnull : t.isNull = (s.slots off).isNull)
    (ht : Hollow h (s.slots off) → Hollow h t) :
    Hollow (h + 1) (.node c tags (Function.update s.slots off t)) := by
  obtain hall | ⟨i, hi⟩ := hs.2
  · refine ⟨rfl, Or.inl fun i => ?_⟩
    change (Function.update s.slots off t i).isNull = true
    by_cases hi : i = off
    · rw [hi, Function.update_self, hnull]
      exact hall off
    · rw [Function.update_of_ne hi]
      exact hall i
  · by_cases hoff : i = off
    · subst hoff
      refine hollow_child i ?_
      rw [Function.update_self]
      exact ht hi
    · refine hollow_child i ?_
      rw [Function.update_of_ne hoff]
      exact hi

theorem used_pos {f : Fin 64 → RadixSlot V} {i : Fin 64} (hi : (f i).isNull = false) : used f ≠ 0 := by
  intro h0
  rw [slots_null_of_used h0 i] at hi
  cases hi

end Hollow

section Failing
variable {alloc : ℕ → Bool} {n : ℕ}

theorem insertWalk_hollow (hbefore : ∀ k < n, alloc k = true) (hfail : alloc n = false)
    {index : BitVec 64} {v : V} {h : ℕ}
    {s : RadixSlot V} {k : ℕ} (hk : k < n) (hn : n < k + newNodes index h s) (hc : CountsUsed h s) :
    (insertWalk alloc index v h s k).2.1 = eNOMEM ∧ CountsUsed h (insertWalk alloc index v h s k).1 ∧
      Hollow h (insertWalk alloc index v h s k).1 := by
  induction h generalizing s k with
  | zero =>
    rw [newNodes] at hn
    omega
  | succ h ih =>
    rw [newNodes] at hn
    rw [insertWalk, hbefore k hk, Bool.not_true, Bool.and_false, if_neg Bool.false_ne_true]
    dsimp only
    generalize hoff : calcOffset index (h * radixMapShift) = off at hn
    -- what the level below returns: nothing new yet, or a node without a used slot
    have hchild : (insertWalk alloc index v h (s.slots off) (if s.isNull then k + 1 else k)).2.1 = eNOMEM ∧
        (s.isNull = true ∧
          insertWalk alloc index v h (s.slots off) (if s.isNull then k + 1 else k) =
          (.null, eNOMEM, n + 1) ∨
          CountsUsed h (insertWalk alloc index v h (s.slots off) (if s.isNull then k + 1 else k)).1 ∧
          Hollow h (insertWalk alloc index v h (s.slots off) (if s.isNull then k + 1 else k)).1) := by
      cases hs : s.isNull with
      | true =>
        rw [hs, if_pos rfl] at hn
        rw [if_pos rfl]
        have hnull : s.slots off = .null := by rw [eq_null_of_isNull hs]; rfl
        rw [hnull] at hn ⊢
        by_cases hlast : k + 1 = n
        · have hfirst : insertWalk alloc index v h (.null : RadixSlot V) n = (.null, eNOMEM, n + 1) :=
            insertWalk_first hfail (radixWf_null h) (by omega)
          rw [hlast, hfirst]
          exact ⟨rfl, Or.inl ⟨rfl, rfl⟩⟩
        · obtain ⟨herr, hcu, hh⟩ := ih (k := k + 1) (by omega) (by omega) (countsUsed_null h)
          exact ⟨herr, Or.inr ⟨hcu, hh⟩⟩
      | false =>
        rw [hs, if_neg Bool.false_ne_true, zero_add] at hn
        rw [if_neg Bool.false_ne_true]
        obtain ⟨herr, hcu, hh⟩ := ih hk hn (hc.slots off)
        exact ⟨herr, Or.inr ⟨hcu, hh⟩⟩
    obtain ⟨herr, hrest⟩ := hchild
    generalize insertWalk alloc index v h (s.slots off) (if s.isNull then k + 1 else k) = r at herr hrest
    have hup := used_update s.slots off r.1
    obtain ⟨hs, rfl⟩ | ⟨hcu, hh⟩ := hrest
    · have hnull : s = .null := eq_null_of_isNull hs
      subst hnull
      refine ⟨herr, hc.exchange (countsUsed_null h) ?_, rfl, Or.inl fun i => ?_⟩
      · rw [Function.update_eq_self_iff.mpr (by rfl)]
        exact hc.count_eq
      · change (Function.update (RadixSlot.null : RadixSlot V).slots off .null i).isNull = true
        rw [Function.update_eq_self_iff.mpr (by rfl)]
        rfl
    · refine ⟨herr, hc.exchange hcu ?_, hollow_child off (by rw [Function.update_self]; exact hh)⟩
      rw [hh.used, Bool.not_false, Bool.and_true, hc.count_eq]
      rw [hh.used, if_neg Bool.false_ne_true] at hup
      split at hup <;> rename_i hn
      · rw [if_pos hn]
        omega
      · rw [if_neg hn]
        omega

end Failing

/-! ## Deletions keep it -/

section Deleting
variable {index : BitVec 64} {h : ℕ} {s : RadixSlot V}

theorem clearNodeTag_hollow (tag : Fin 3) (hc : CountsUsed h s) (hp : (walkSlot index h s).isNull = false) :
    CountsUsed h (clearNodeTag index tag h s).1 ∧ (clearNodeTag index tag h s).1.isNull = s.isNull ∧
      walkSlot index h (clearNodeTag index tag h s).1 = walkSlot index h s ∧
      (Hollow h s → Hollow h (clearNodeTag index tag h s).1) := by
  induction h generalizing s with
  | zero => exact ⟨hc, rfl, rfl, id⟩
  | succ h ih =>
    have hs := walkSlot_used hp
    rw [walkSlot_succ] at hp
    obtain ⟨hcu, hnull, hwalk, hh⟩ := ih (hc.slots _) hp
    -- whichever bits are cleared, the node keeps its count and has one slot exchanged
    have hnode : ∀ tags : Fin 3 → Fin 64 → Bool,
        let t := RadixSlot.node s.count tags (Function.update s.slots (calcOffset index (h * radixMapShift))
          (clearNodeTag index tag h (s.slots (calcOffset index (h * radixMapShift)))).1)
        CountsUsed (h + 1) t ∧ t.isNull = s.isNull ∧ walkSlot index (h + 1) t = walkSlot index (h + 1) s ∧
          (Hollow (h + 1) s → Hollow (h + 1) t) := by
      intro tags t
      have hup := used_update s.slots (calcOffset index (h * radixMapShift))
        (clearNodeTag index tag h (s.slots (calcOffset index (h * radixMapShift)))).1
      rw [hnull] at hup
      refine ⟨hc.exchange hcu (by rw [hc.count_eq]; omega), hs.symm, ?_, fun hhol => hhol.exchange hnull hh⟩
      rw [walkSlot_exchange, if_pos rfl, hwalk, walkSlot_succ]
    unfold clearNodeTag
    dsimp only
    split
    · exact hnode _
    · exact hnode _

theorem clearTags_hollow (tags : List (Fin 3)) (hc : CountsUsed h s)
    (hp : (walkSlot index h s).isNull = false) :
    CountsUsed h (tags.foldl (fun s tag => (clearNodeTag index tag h s).1) s) ∧
      (walkSlot index h (tags.foldl (fun s tag => (clearNodeTag index tag h s).1) s)).isNull = false ∧
      (Hollow h s → Hollow h (tags.foldl (fun s tag => (clearNodeTag index tag h s).1) s)) := by
  induction tags generalizing s with
  | nil => exact ⟨hc, hp, id⟩
  | cons tag tags ih =>
    obtain ⟨hcu, -, hwalk, hh⟩ := clearNodeTag_hollow tag hc hp
    obtain ⟨hcu', hp', hh'⟩ := ih hcu (by rw [hwalk]; exact hp)
    exact ⟨hcu', hp', fun hhol => hh' (hh hhol)⟩

theorem pruneWalk_hollow (hc : CountsUsed h s) (hp : (walkSlot index h s).isNull = false) :
    CountsUsed h (pruneWalk index h s) ∧ (Hollow h s → Hollow h (pruneWalk index h s)) := by
  induction h generalizing s with
  | zero => exact ⟨trivial, False.elim⟩
  | succ h ih =>
    rw [walkSlot_succ] at hp
    have hslot := walkSlot_used hp
    obtain ⟨hcu, hh⟩ := ih (hc.slots _) hp
    rw [pruneWalk]
    generalize calcOffset index (h * radixMapShift) = off at hslot hcu hh
    have hup := used_update s.slots off (pruneWalk index h (s.slots off))
    rw [hslot, if_neg Bool.false_ne_true] at hup
    cases hn : (pruneWalk index h (s.slots off)).isNull with
    | false =>
      rw [if_neg Bool.false_ne_true]
      rw [hn, if_neg Bool.false_ne_true] at hup
      exact ⟨hc.exchange hcu (by rw [hc.count_eq]; omega), fun hhol => hhol.exchange (hn.trans hslot.symm) hh⟩
    | true =>
      rw [if_pos rfl]
      rw [hn, if_pos rfl] at hup
      have hcount : s.count - 1 = used (Function.update s.slots off (pruneWalk index h (s.slots off))) := by
        rw [hc.count_eq]
        omega
      -- the hollow node is below another slot
      have hother : Hollow (h + 1) s →
          ∃ i, Hollow h (Function.update s.slots off (pruneWalk index h (s.slots off)) i) := by
        intro hhol
        obtain hall | ⟨i, hi⟩ := hhol.2
        · rw [hall off] at hslot
          cases hslot
        · refine ⟨i, ?_⟩
          rw [Function.update_of_ne]
          · exact hi
          · rintro rfl
            rw [(hh hi).used] at hn
            cases hn
      split
      · rename_i hzero
        refine ⟨trivial, fun hhol => ?_⟩
        obtain ⟨i, hi⟩ := hother hhol
        exact absurd (hcount.symm.trans hzero) (used_pos hi.used)
      · exact ⟨hc.exchange hcu hcount, fun hhol => hollow_child _ (hother hhol).choose_spec⟩

end Deleting

/-- A tree with a node that no item keeps and no deletion removes. -/
structure Dangling (root : RadixRoot V) : Prop where
  counts : CountsUsed root.height root.rnode
  hollow : Hollow root.height root.rnode

theorem Dangling.delete {root : RadixRoot V} (hd : Dangling root) (index : BitVec 64) :
    Dangling (radixTreeDelete root index).1 := by
  unfold radixTreeDelete
  cases hv : fillPath root index with
  | none => exact hd
  | some v =>
    have hp : (walkSlot index root.height root.rnode).isNull = false := by
      unfold fillPath at hv
      split at hv
      · cases hv
      · cases hw : walkSlot index root.height root.rnode with
        | null =>
          rw [hw] at hv
          cases hv
        | item w => rfl
        | node c t f => rfl
    obtain ⟨hcu, hp', hh⟩ := clearTags_hollow (List.finRange 3) hd.counts hp
    obtain ⟨hcu', hh'⟩ := pruneWalk_hollow hcu hp'
    have hhol := hh' (hh hd.hollow)
    dsimp only
    rw [hhol.used, if_neg Bool.false_ne_true]
    exact ⟨hcu', hhol⟩

/-! ## Growing with failures -/

section Growing
variable {alloc : ℕ → Bool} {root : RadixRoot V} {a : TaggedMap V} {index : BitVec 64} {n : ℕ}

theorem pushRoots_keeps (alloc : ℕ → Bool) (tags : Fin 3 → Bool) (m : ℕ) {root : RadixRoot V}
    {k : ℕ} (hw : RadixWf root.height root.rnode)
    (hn : root.rnode.isNull = false) :
    root.height ≤ (pushRoots alloc tags m root k).1.height ∧
      (pushRoots alloc tags m root k).1.height ≤ root.height + m ∧
      RadixWf (pushRoots alloc tags m root k).1.height (pushRoots alloc tags m root k).1.rnode ∧
      (∀ i, slotAt (pushRoots alloc tags m root k).1.height (pushRoots alloc tags m root k).1.rnode i =
        slotAt root.height root.rnode i) ∧
      (pushRoots alloc tags m root k).1.rnode.items = root.rnode.items ∧
      (pushRoots alloc tags m root k).1.nrNodes = root.nrNodes ∧
      (pushRoots alloc tags m root k).1.rnode.isNull = false := by
  induction m generalizing root k with
  | zero => exact ⟨le_rfl, le_rfl, hw, fun _ => rfl, rfl, rfl, hn⟩
  | succ m ih =>
    rw [pushRoots]
    split
    · obtain ⟨hw', hslot', hitems'⟩ := pushRoot_keeps tags hw hn
      obtain ⟨hle, hge, hwf, hslot, hitems, hnr, hnull⟩ := ih (k := k + 1) hw' rfl
      change root.height + 1 ≤ _ at hle
      change _ ≤ root.height + 1 + m at hge
      exact ⟨by omega, by omega, hwf, fun i => (hslot i).trans (hslot' i), hitems.trans hitems', hnr, hnull⟩
    · exact ⟨le_rfl, Nat.le_add_right _ _, hw, fun _ => rfl, rfl, rfl, hn⟩

theorem pushRoots_all (alloc : ℕ → Bool) (tags : Fin 3 → Bool) (m : ℕ) {root : RadixRoot V} {k : ℕ}
    (hbefore : ∀ j < k + m, alloc j = true) :
    pushRoots alloc tags m root k = ((pushRoots (fun _ => true) tags m root k).1, 0, k + m) := by
  induction m generalizing root k with
  | zero => rfl
  | succ m ih =>
    rw [pushRoots, pushRoots, if_pos (hbefore k (by omega)), if_pos rfl, ih fun j hj => hbefore j (by omega)]
    rw [show k + 1 + m = k + (m + 1) by omega]

theorem pushRoots_fails (tags : Fin 3 → Bool) (m : ℕ) {root : RadixRoot V} {k : ℕ}
    (hbefore : ∀ j < n, alloc j = true)
    (hfail : alloc n = false) (hk : k ≤ n) (hn : n < k + m) :
    (pushRoots alloc tags m root k).2.1 = eNOMEM := by
  induction m generalizing root k with
  | zero => omega
  | succ m ih =>
    rw [pushRoots]
    by_cases heq : k = n
    · rw [heq, hfail, if_neg Bool.false_ne_true]
    · rw [hbefore k (by omega), if_pos rfl]
      exact ih (by omega) (by omega)

/-- The tree an insertion descends from holds the same items, also where not all roots could be pushed. -/
theorem RadixTagRefines.grown (h : RadixTagRefines root a) (hnull : root.rnode.isNull = false) :
    RadixTagRefines (insertGrown alloc root index).1 a := by
  unfold insertGrown
  split
  · rename_i hneed
    have hlt : rdtreeMaxindex root.height < index := hneed.resolve_left fun hz => by
      rw [hz.2] at hnull
      cases hnull
    have hh : root.height ≤ 10 := by
      have hmax := h.base.height_le
      by_contra hgt
      obtain heleven : root.height = 11 := by omega
      refine not_maxindex_lt.mpr ?_ hlt
      have hi := index.isLt
      rw [heleven]
      omega
    obtain ⟨hge, hle, -⟩ := raiseHeight_spec index 12 (root.height + 1) (by omega) (by omega)
    refine ⟨?_, h.present, fun t => rdtreeExtend_tags alloc h t index⟩
    unfold rdtreeExtend
    dsimp only
    rw [hnull, if_neg Bool.false_ne_true]
    obtain ⟨hle', hge', hwf, hslot, hitems, hnr, hnull'⟩ := pushRoots_keeps alloc (k := 0)
      (fun t => anyTag (root.rnode.tags t)) (raiseHeight index 12 (root.height + 1) - root.height)
        h.base.wf hnull
    have hpos : 0 < root.height := Nat.pos_of_ne_zero fun h0 => by
      rw [h.base.empty.mpr h0] at hnull
      cases hnull
    refine ⟨by omega, hwf, ?_, fun i => ?_, hitems.trans h.base.items, hnr.trans h.base.nrNodes⟩
    · rw [hnull']
      exact iff_of_false Bool.false_ne_true (by omega)
    · rw [radixTreeLookup_eq, hslot, ← radixTreeLookup_eq]
      exact h.base.lookup i
  · exact h

theorem insertGrown_null (hnull : root.rnode.isNull = true) :
    (insertGrown alloc root index).1.rnode = .null := by
  unfold insertGrown
  split
  · rw [rdtreeExtend, if_pos hnull]
    exact eq_null_of_isNull hnull
  · exact eq_null_of_isNull hnull

theorem insertGrown_wf (h : RadixTagRefines root a) :
    RadixWf (insertGrown alloc root index).1.height (insertGrown alloc root index).1.rnode := by
  cases hnull : root.rnode.isNull with
  | true =>
    rw [insertGrown_null hnull]
    exact radixWf_null _
  | false => exact (h.grown hnull).base.wf

theorem insertGrown_height (h : RadixTagRefines root a) (hnull : root.rnode.isNull = true) :
    (insertGrown alloc root index).1.height < 12 := by
  have h0 := h.base.empty.mp hnull
  unfold insertGrown
  split
  · rw [rdtreeExtend, if_pos hnull, h0]
    obtain ⟨-, hle, -⟩ := raiseHeight_spec index 12 1 (by decide) (by decide)
    change raiseHeight index 12 1 < 12
    omega
  · change root.height < 12
    omega

theorem rootsPushed_null (hnull : root.rnode.isNull = true) : rootsPushed root index = 0 := by
  unfold rootsPushed insertGrown
  split
  · rw [rdtreeExtend, if_pos hnull]
  · rfl

theorem insertGrown_eq (hbefore : ∀ k < n, alloc k = true) (hn : rootsPushed root index ≤ n) :
    insertGrown alloc root index = ((insertGrown (fun _ => true) root index).1, 0,
      rootsPushed root index) := by
  unfold rootsPushed insertGrown at hn ⊢
  split
  · rename_i hneed
    rw [if_pos hneed] at hn
    unfold rdtreeExtend at hn ⊢
    dsimp only at hn ⊢
    split
    · rfl
    · rename_i hnull
      rw [if_neg hnull, pushRoots_all _ _ _ fun _ _ => rfl] at hn
      dsimp only at hn
      rw [pushRoots_all alloc _ _ fun j hj => hbefore j (by omega),
        pushRoots_all (fun _ => true) _ _ fun _ _ => rfl]
  · rfl

theorem insertGrown_fails (hbefore : ∀ k < n, alloc k = true) (hfail : alloc n = false)
    (hn : n < rootsPushed root index) :
    (insertGrown alloc root index).2.1 = eNOMEM := by
  unfold rootsPushed insertGrown at hn
  unfold insertGrown
  split
  · rename_i hneed
    rw [if_pos hneed] at hn
    unfold rdtreeExtend at hn ⊢
    dsimp only at hn ⊢
    split
    · rename_i hnull
      rw [if_pos hnull] at hn
      exact absurd hn (Nat.not_lt_zero n)
    · rename_i hnull
      rw [if_neg hnull, pushRoots_all _ _ _ fun _ _ => rfl] at hn
      exact pushRoots_fails _ _ hbefore hfail (Nat.zero_le n) hn
  · rename_i hneed
    rw [if_neg hneed] at hn
    exact absurd hn (Nat.not_lt_zero n)

end Growing

/-! ## What a failed insertion leaves -/

/-- The tree acts as one that holds `a`, whatever is done with it: later answers are those of the
map, no height leaves the table, every scan and the release go through, and the root is `NULL` once
the map is empty. -/
def ActsAs [DecidableEq V] (rounds : ℕ) (root : RadixRoot V) (a : TaggedMap V) : Prop :=
  ∀ cs, radixTagSpec.LegalRun a cs →
    radixTagSpec.Conforms a cs (runCmds radixTagExec root cs).2 ∧
      (runCmds radixTagExec root cs).1.height < 12 ∧
    ScansExactly rounds (runCmds radixTagExec root cs).1 (radixTagSpec.after a cs) ∧
    ((radixTagSpec.after a cs).map = ∅ → (runCmds radixTagExec root cs).1.rnode = .null)

/-- The allocation that fails is one for a pushed root or the first one below, in a tree with a root. -/
def HarmlessAt (root : RadixRoot V) (index : BitVec 64) (n : ℕ) : Prop :=
  root.rnode.isNull = false ∧ n ≤ rootsPushed root index

/-- The trees that are reached from an empty one, with insertions that failed harmlessly. -/
inductive Reached : RadixRoot V → TaggedMap V → Prop where
  | init : Reached radixInit taggedEmpty
  | step {root : RadixRoot V} {a : TaggedMap V} {c : RadixTagCmd V} (h : Reached root a)
      (hl : radixTagSpec.legal a c) :
      Reached (radixTagExec root c).1 (radixTagSpec.next a c)
  | failed {root : RadixRoot V} {a : TaggedMap V} {alloc : ℕ → Bool} {n : ℕ} {index : BitVec 64} {v : V}
      (h : Reached root a) (hbefore : ∀ k < n, alloc k = true) (hfail : alloc n = false)
        (hn : n < nodeAllocs root index v)
      (hat : HarmlessAt root index n) : Reached (radixTreeInsert alloc root index (some v)).1 a

section Failed
variable {alloc : ℕ → Bool} {n : ℕ} {root : RadixRoot V} {a : TaggedMap V} {index : BitVec 64} {v : V}

/-- A harmless failure returns `-ENOMEM` and leaves a tree of the same items and tags. -/
theorem RadixTagRefines.failed (h : RadixTagRefines root a) (hbefore : ∀ k < n, alloc k = true)
    (hfail : alloc n = false)
    (hn : n < nodeAllocs root index v) (hat : HarmlessAt root index n) :
    (radixTreeInsert alloc root index (some v)).2 = eNOMEM ∧
      RadixTagRefines (radixTreeInsert alloc root index (some v)).1 a := by
  have hgrown : RadixTagRefines (insertGrown alloc root index).1 a := h.grown hat.1
  rw [radixTreeInsert_some]
  by_cases hpush : n < rootsPushed root index
  · rw [insertGrown_fails hbefore hfail hpush, if_pos (by decide)]
    exact ⟨rfl, hgrown⟩
  · have heq := insertGrown_eq hbefore (not_lt.mp hpush)
    have hexact : n = rootsPushed root index := le_antisymm hat.2 (not_lt.mp hpush)
    rw [heq] at hgrown
    rw [nodeAllocs, insertWalk_allocs] at hn
    change n < rootsPushed root index + _ at hn
    have hwalk := insertWalk_first (v := v) hfail hgrown.base.wf (Nat.pos_of_lt_add_right (hexact ▸ hn))
    rw [heq, if_neg (not_not.mpr rfl), ← hexact, hwalk]
    exact ⟨rfl, hgrown⟩

theorem Reached.refines (h : Reached root a) : RadixTagRefines root a := by
  induction h with
  | init => exact radixInit_tagRefines
  | step _ hl ih => exact (radixTagExec_refines _ _ _ ih hl).2
  | failed _ hbefore hfail hn hat ih => exact (ih.failed hbefore hfail hn hat).2

theorem RadixTagRefines.actsAs [DecidableEq V] {rounds : ℕ} (h : RadixTagRefines root a)
    (hrounds : 2 ^ 64 < rounds) :
    ActsAs rounds root a := by
  intro cs hcs
  obtain ⟨hconf, hR⟩ := Spec.conforms radixTagExec_refines cs root a h hcs
  have hheight := hR.base.height_le
  refine ⟨hconf, by omega, hR.scans hrounds, fun hempty => ?_⟩
  have hbase := hR.base
  rw [hempty] at hbase
  exact eq_null_of_isNull hbase.isNull_of_empty

/-- Without a root, a height makes the first scan read through `NULL`. -/
theorem not_actsAs_of_null [DecidableEq V] {rounds : ℕ} (hrounds : 2 ^ 64 < rounds)
    (hnull : root.rnode.isNull = true)
    (hpos : 0 < root.height) (hh : root.height < 12) : ¬ ActsAs rounds root a := by
  intro hacts
  obtain ⟨-, -, hscan, -⟩ := hacts [] trivial
  obtain ⟨r, hr, -⟩ := hscan.gang 0 1 Nat.one_pos
  change radixTreeGangLookup root rounds 0 1 = .ok r at hr
  obtain ⟨height, hheight⟩ : ∃ k, root.height = k + 1 := ⟨root.height - 1, by omega⟩
  obtain ⟨m, rfl⟩ : ∃ k, rounds = k + 1 := ⟨rounds - 1, by omega⟩
  have hindex : heightToMaxindex root.height = .ok (rdtreeMaxindex root.height) := if_pos hh
  have hgo : ¬ (1 ≤ ([] : List V).length ∨ rdtreeMaxindex root.height < 0) := by
    rintro (hlen | hlt)
    · exact absurd hlen (Nat.not_succ_le_zero 0)
    · exact absurd (BitVec.lt_def.mp hlt) (Nat.not_lt_zero _)
  rw [radixTreeGangLookup, gangLookup, hindex] at hr
  dsimp only [Except.bind] at hr
  rw [gangLoop, if_neg hgo, hheight, lookupWalk, if_pos hnull] at hr
  cases hr

/-- The deletions of some items. -/
def deletions (is : List (BitVec 64)) : List (RadixTagCmd V) := is.map fun i => .base (.delete i)

theorem deletions_legal (is : List (BitVec 64)) (a : TaggedMap V) :
    radixTagSpec.LegalRun a (deletions is) := by
  induction is generalizing a with
  | nil => trivial
  | cons i is ih => exact ⟨trivial, ih _⟩

theorem mem_after_deletions (is : List (BitVec 64)) (a : TaggedMap V) {j : BitVec 64}
    (hj : j ∈ (radixTagSpec.after a (deletions is)).map) : j ∈ a.map ∧ j ∉ is := by
  induction is generalizing a with
  | nil => exact ⟨hj, List.not_mem_nil⟩
  | cons i is ih =>
    obtain ⟨hmem, hnot⟩ := ih _ hj
    obtain ⟨hne, hmem⟩ := Finmap.mem_erase.mp hmem
    exact ⟨hmem, List.not_mem_cons_of_ne_of_not_mem hne hnot⟩

theorem Dangling.deletions {root : RadixRoot V} (hd : Dangling root) (is : List (BitVec 64)) :
    Dangling (runCmds radixTagExec root (deletions is)).1 := by
  induction is generalizing root with
  | nil => exact hd
  | cons i is ih => exact ih (hd.delete i)

theorem Dangling.not_actsAs [DecidableEq V] {rounds : ℕ} (hd : Dangling root) : ¬ ActsAs rounds root a := by
  intro hacts
  obtain ⟨-, -, -, hempty⟩ := hacts (Adt.deletions a.map.keys.toList) (deletions_legal _ _)
  have hgone : (radixTagSpec.after a (Adt.deletions a.map.keys.toList)).map = ∅ := by
    apply Finmap.ext_lookup
    intro i
    rw [Finmap.lookup_empty, Finmap.lookup_eq_none]
    intro hi
    obtain ⟨hmem, hnot⟩ := mem_after_deletions _ _ hi
    exact hnot (Finset.mem_toList.mpr (Finmap.mem_keys.mpr hmem))
  have hused := (hd.deletions a.map.keys.toList).hollow.used
  rw [hempty hgone] at hused
  cases hused

/-- In every reached tree, an insertion whose `n`-th `node_alloc` fails returns `-ENOMEM` and leaves
a tree that acts as before if and only if the failure is harmless. -/
theorem failed_insert_iff [DecidableEq V] {rounds : ℕ} (hrounds : 2 ^ 64 < rounds) (h : Reached root a)
    (hbefore : ∀ k < n, alloc k = true) (hfail : alloc n = false) (hn : n < nodeAllocs root index v) :
    (radixTreeInsert alloc root index (some v)).2 = eNOMEM ∧
      ActsAs rounds (radixTreeInsert alloc root index (some v)).1 a ↔ HarmlessAt root index n := by
  have hR := h.refines
  refine ⟨fun hok => ?_, fun hat => ?_⟩
  · by_contra hharm
    have hwf : RadixWf (insertGrown (fun _ => true) root index).1.height
        (insertGrown (fun _ => true) root index).1.rnode :=
      insertGrown_wf hR
    have hpush : rootsPushed root index ≤ n := by
      by_contra hgt
      cases hnull : root.rnode.isNull with
      | true =>
        rw [rootsPushed_null hnull] at hgt
        exact hgt (Nat.zero_le n)
      | false => exact hharm ⟨hnull, by omega⟩
    have heq := insertGrown_eq hbefore hpush
    rw [nodeAllocs, insertWalk_allocs] at hn
    change n < rootsPushed root index + _ at hn
    rw [radixTreeInsert_some, heq, if_neg (not_not.mpr rfl)] at hok
    refine absurd hok.2 ?_
    by_cases hfirst : n = rootsPushed root index
    · -- there was no root: the height is raised and nothing else
      have hnull : root.rnode.isNull = true := by
        cases hnull : root.rnode.isNull with
        | true => rfl
        | false => exact absurd ⟨hnull, hfirst.le⟩ hharm
      have hwalk := insertWalk_first (v := v) hfail hwf (Nat.pos_of_lt_add_right (hfirst ▸ hn))
      have hpos : 0 < (insertGrown (fun _ => true) root index).1.height := Nat.pos_of_ne_zero fun h0 => by
        rw [h0, newNodes] at hn
        omega
      rw [← hfirst, hwalk]
      exact not_actsAs_of_null hrounds (by rw [insertGrown_null hnull]; rfl) hpos
        (insertGrown_height hR hnull)
    · obtain ⟨-, hcounts, hhollow⟩ := insertWalk_hollow (v := v) hbefore hfail
        (lt_of_le_of_ne hpush (Ne.symm hfirst)) hn hwf.countsUsed
      exact Dangling.not_actsAs ⟨hcounts, hhollow⟩
  · obtain ⟨herr, hafter⟩ := hR.failed hbefore hfail hn hat
    exact ⟨herr, hafter.actsAs hrounds⟩

end Failed

/-- One item at 0. -/
def oneItem : RadixRoot ℕ := (radixTagExec radixInit (.base (.insert 0 (some 5) fun _ => true))).1

/-- The insertion at 100 pushes a root and fails at the node below it. -/
theorem failed_insert_iff_oneItem : HarmlessAt oneItem 100 1 ∧
    (radixTreeInsert (fun k => k == 0) oneItem 100 (some 7)).2 = eNOMEM ∧
    ActsAs (2 ^ 64 + 1) (radixTreeInsert (fun k => k == 0) oneItem 100 (some 7)).1
      (radixTagSpec.next taggedEmpty (.base (.insert 0 (some 5) fun _ => true))) := by
  have hat : HarmlessAt oneItem 100 1 := ⟨by decide +kernel, by decide +kernel⟩
  have hreached : Reached oneItem
      (radixTagSpec.next taggedEmpty (.base (.insert 0 (some 5) fun _ => true))) :=
    .step .init fun _ => rfl
  exact ⟨hat,
    (failed_insert_iff (Nat.lt_succ_self _) hreached (by decide) (by decide)
    (by decide +kernel)).mpr hat⟩

/-- The first insertion fails: the height is raised without a root, and a gang lookup reads through `NULL`. -/
theorem failed_first_insert :
    (radixTreeInsert (fun _ => false) (radixInit : RadixRoot ℕ) 0 (some 5)).2 = eNOMEM ∧
    radixTreeGangLookup (radixTreeInsert (fun _ => false) (radixInit : RadixRoot ℕ) 0 (some 5)).1
      (2 ^ 64 + 1) 0 1 =
      .error .nullDeref ∧
    ¬ ActsAs (2 ^ 64 + 1) (radixTreeInsert (fun _ => false) (radixInit : RadixRoot ℕ) 0 (some 5)).1
      taggedEmpty :=
  ⟨by decide +kernel, by rfl, not_actsAs_of_null (Nat.lt_succ_self _) (by decide +kernel) (by decide +kernel)
    (by decide +kernel)⟩

end Skp.Adt
